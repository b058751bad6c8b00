import HetSim.Cache.Skewing

/-!
# Entries separate addresses

Under either policy the tag and one possible entry of an address determine the address down
to the size of an entry, and with it all possible entries.
-/

namespace HetSim.Cache
open Address Checked BitVec SetAssociative IndexingPolicy

variable {policy : IndexingPolicy} {a a' : Addr} {N size entrySize assoc : ℕ}

structure IndexingPolicy.Separates (policy : IndexingPolicy) : Prop where
  same : ∀ {a a' : Addr} {entry}, entry ∈ policy.getPossibleEntries a →
    entry ∈ policy.getPossibleEntries a' →
    policy.extractTag a = policy.extractTag a' →
      a >>> policy.base.setShift = a' >>> policy.base.setShift
  entries : ∀ {a a' : Addr}, a >>> policy.base.setShift = a' >>> policy.base.setShift →
    policy.getPossibleEntries a = policy.getPossibleEntries a'
  bounded : ∀ {a entry}, entry ∈ policy.getPossibleEntries a →
    entry.set.toNat < policy.base.numSets ∧ entry.way < policy.base.assoc
  tag : ∀ {a a' : Addr}, a >>> policy.base.setShift = a' >>> policy.base.setShift →
    policy.extractTag a = policy.extractTag a'

theorem extractTag_eq_of_shift {p : BaseIndexingPolicy} (htag : p.tagShift = p.setShift + N)
    (h : a >>> p.setShift = a' >>> p.setShift) : p.extractTag a = p.extractTag a' := by
  rw [BaseIndexingPolicy.extractTag, BaseIndexingPolicy.extractTag, htag, shiftRight_add,
    shiftRight_add, h]

theorem SetAssociative.shift_eq {p : SetAssociative}
    (hmask : p.setMask = BitVec.ofNat 32 (2 ^ N - 1)) (hN : N < 32)
    (htag : p.tagShift = p.setShift + N) (hset : p.extractSet a = p.extractSet a')
    (h : p.extractTag a = p.extractTag a') : a >>> p.setShift = a' >>> p.setShift := by
  apply eq_of_getLsbD_eq
  intro k hk
  by_cases hkN : k < N
  · have hbit := congrArg (·.getLsbD k) hset
    have hone : (2 ^ N - 1).testBit k = true := by
      rw [Nat.testBit_two_pow_sub_one]
      exact decide_eq_true hkN
    simp only [extractSet, hmask, getLsbD_setWidth, getLsbD_and,
      getLsbD_ofNat, hone, show k < 32 by omega, hk, decide_true, Bool.true_and,
      Bool.and_true] at hbit
    exact hbit
  · have hbit := congrArg (·.getLsbD (k - N)) h
    simp only [BaseIndexingPolicy.extractTag, htag, getLsbD_ushiftRight] at hbit
    rw [getLsbD_ushiftRight, getLsbD_ushiftRight]
    rwa [show p.setShift + N + (k - N) = p.setShift + k by omega] at hbit

theorem SkewedAssociative.shift_eq {p : SkewedAssociative} (hp : Geometry N p) {way : ℕ}
    (hset : p.extractSet a way = p.extractSet a' way) (h : p.extractTag a = p.extractTag a') :
    a >>> p.setShift = a' >>> p.setShift := by
  have hclear : a &&& ~~~mask p.setShift = a' &&& ~~~mask p.setShift := by
    rw [← hp.regenerateAddr_extractSet a way, ← hp.regenerateAddr_extractSet a' way, hset, h]
  apply eq_of_getLsbD_eq
  intro k _
  rw [getLsbD_ushiftRight, getLsbD_ushiftRight]
  by_cases hk : p.setShift + k < 64
  · have hbit := congrArg (·.getLsbD (p.setShift + k)) hclear
    simpa only [getLsbD_clear hk, Nat.le_add_right, decide_true, Bool.true_and] using hbit
  · rw [getLsbD_of_ge _ _ (by omega), getLsbD_of_ge _ _ (by omega)]

theorem toNat_and_setMask_lt {p : BaseIndexingPolicy} (x : Addr) (hpos : 0 < p.numSets)
    (hmask : p.setMask = BitVec.ofNat 32 (p.numSets - 1)) :
    ((x &&& p.setMask.setWidth 64).setWidth 32).toNat < p.numSets := by
  have hset : p.setMask.toNat ≤ p.numSets - 1 := by
    rw [hmask, toNat_ofNat]
    exact Nat.mod_le _ _
  have hle : ((x &&& p.setMask.setWidth 64).setWidth 32).toNat ≤ p.setMask.toNat := by
    rw [toNat_setWidth, toNat_and, toNat_setWidth_of_le (by decide)]
    exact (Nat.mod_le _ _).trans Nat.and_le_right
  omega

theorem mem_possibleEntries {entry : ReplaceableEntry} {f : ℕ → ReplaceableEntry} :
    entry ∈ (List.range assoc).map f ↔ ∃ way < assoc, f way = entry := by
  simp only [List.mem_map, List.mem_range]

theorem IndexingPolicy.separates {skewed : Bool}
    (h : init size entrySize assoc skewed = .ok policy) : policy.Separates := by
  cases skewed with
  | false =>
    rw [init, if_neg (by decide)] at h
    simp only [bind_eq_ok, pure_eq_ok] at h
    obtain ⟨base, hbase, rfl⟩ := h
    obtain ⟨hnum, hmask, htag, -, hlt⟩ := init_eq hbase
    have hN : Nat.log2 base.numSets < 32 := by
      rw [hnum] at hlt
      exact (Nat.pow_lt_pow_iff_right one_lt_two).mp hlt
    have hmask' := hmask
    rw [hnum] at hmask
    constructor
    · intro a a' entry ha ha' heq
      obtain ⟨way, -, rfl⟩ := mem_possibleEntries.mp ha
      obtain ⟨way', -, hentry⟩ := mem_possibleEntries.mp ha'
      exact shift_eq hmask hN htag (congrArg ReplaceableEntry.set hentry).symm heq
    · intro a a' heq
      have hset : extractSet ⟨base⟩ a = extractSet ⟨base⟩ a' := by
        rw [extractSet, extractSet]
        exact congrArg (fun x : Addr => (x &&& base.setMask.setWidth 64).setWidth 32) heq
      change (List.range base.assoc).map _ = (List.range base.assoc).map _
      rw [hset]
    · intro a entry ha
      obtain ⟨way, hway, rfl⟩ := mem_possibleEntries.mp ha
      have hpos : 0 < base.numSets := hnum ▸ Nat.two_pow_pos _
      exact ⟨toNat_and_setMask_lt (a >>> base.setShift) hpos hmask', hway⟩
    · exact fun heq => extractTag_eq_of_shift htag heq
  | true =>
    rw [init, if_pos rfl] at h
    simp only [bind_eq_ok, pure_eq_ok] at h
    obtain ⟨p, hp, rfl⟩ := h
    have hgeometry := geometry_of_init hp
    constructor
    · intro a a' entry ha ha' heq
      obtain ⟨way, -, rfl⟩ := mem_possibleEntries.mp ha
      obtain ⟨way', -, hentry⟩ := mem_possibleEntries.mp ha'
      obtain rfl : way' = way := congrArg ReplaceableEntry.way hentry
      exact SkewedAssociative.shift_eq hgeometry (congrArg ReplaceableEntry.set hentry).symm heq
    · intro a a' heq
      have hset (way : ℕ) : p.extractSet a way = p.extractSet a' way :=
        congrArg (fun x : Addr => (p.skew x way &&& p.setMask.setWidth 64).setWidth 32) heq
      change (List.range p.assoc).map _ = (List.range p.assoc).map _
      simp only [hset]
    · intro a entry ha
      obtain ⟨way, hway, rfl⟩ := mem_possibleEntries.mp ha
      have hpos : 0 < p.numSets := hgeometry.numSets ▸ Nat.two_pow_pos _
      have hmask : p.setMask = BitVec.ofNat 32 (p.numSets - 1) := by
        rw [hgeometry.setMask, ← hgeometry.numSets]
      exact ⟨toNat_and_setMask_lt _ hpos hmask, hway⟩
    · exact fun heq => extractTag_eq_of_shift hgeometry.tagShift heq

theorem IndexingPolicy.setShift_eq {skewed : Bool}
    (h : init size entrySize assoc skewed = .ok policy) :
    policy.base.setShift = Nat.log2 entrySize := by
  cases skewed with
  | false =>
    rw [init, if_neg (by decide)] at h
    simp only [bind_eq_ok, pure_eq_ok] at h
    obtain ⟨base, hinit, rfl⟩ := h
    exact (init_eq hinit).2.2.2.1
  | true =>
    rw [init, if_pos rfl] at h
    simp only [SkewedAssociative.init, bind_eq_ok, require_eq_ok, pure_eq_ok] at h
    obtain ⟨p, ⟨base, hinit, setBits, -, ⟨⟩, -, ⟨⟩, -, rfl⟩, rfl⟩ := h
    exact (init_eq hinit).2.2.2.1

end HetSim.Cache
