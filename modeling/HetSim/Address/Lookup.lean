import HetSim.Address.Search

/-!
# Finding the range of an address

The extents of two entries are apart, or the entries are siblings. The entry that holds an
address is the one behind `upper_bound` or one in front of it that merges, except that at the
first address of a group only one sibling is looked at.
-/

namespace HetSim.Address
open Checked Runs List AddrRange

variable {V : Type} {r r' : AddrRange} {a : Addr} {n x : Node V} {m : AddrRangeMap V}

def Overlaps (r r' : AddrRange) : Prop :=
  r.start.toNat < r'.end_.toNat ∧ r'.start.toNat < r.end_.toNat

theorem contains_iff : r.contains a ↔ r.start.toNat ≤ a.toNat ∧ a.toNat < r.end_.toNat ∧
    r.sel a = r.intlvMatch.toNat := by
  rw [AddrRange.contains, decide_eq_true_eq]
  rfl

theorem interleaved_iff : r.interleaved ↔ r.masks ≠ [] := by
  rw [interleaved, decide_eq_true_eq, length_pos_iff]

theorem sel_eq_of_masks (h : r'.masks = r.masks) : r'.sel a = r.sel a := by
  rw [sel, sel, h]

theorem sel_eq_zero (h : ¬ r.interleaved) : r.sel a = 0 := by
  rw [interleaved_iff, not_not] at h
  rw [sel, h]
  rfl

structure Holds (r : AddrRange) : Prop where
  lt : r.start.toNat < r.end_.toNat
  plain : ¬ r.interleaved → r.intlvMatch.toNat = 0

theorem holds_of_contains (h : r.contains a) : Holds r := by
  rw [contains_iff] at h
  exact ⟨by omega, fun hplain => by rw [← h.2.2, sel_eq_zero hplain]⟩

def Behind (r r' : AddrRange) : Prop :=
  r.end_.toNat ≤ r'.start.toNat ∨
    r.mergesWith r' ∧ r.interleaved ∧ r.intlvMatch.toNat < r'.intlvMatch.toNat

theorem Behind.lt (h : Behind r r') (hr : Holds r) : r.lt r' := by
  have := hr.lt
  rw [lt_iff]
  rcases h with h | ⟨hmerges, -, hlt⟩
  · omega
  · exact Or.inr ⟨by rw [(mergesWith_iff.mp hmerges).1], hlt⟩

def Grained (r : AddrRange) : Prop :=
  r.interleaved → ∃ mask ∈ r.masks, ∃ k < 32, mask.getLsbD k = true

structure Wf (m : AddrRangeMap V) : Prop where
  nonempty : ∀ n ∈ m.tree, ∃ a, n.range.contains a
  grained : ∀ n ∈ m.tree, Grained n.range
  apart : m.tree.Pairwise fun n n' => Behind n.range n'.range
  nodup : (m.tree.map Node.id).Nodup
  fresh : ∀ n ∈ m.tree, n.id < m.fresh
  cache : m.cache = []

theorem Wf.holds (h : Wf m) (hn : n ∈ m.tree) : Holds n.range := by
  obtain ⟨a, ha⟩ := h.nonempty n hn
  exact holds_of_contains ha

theorem Wf.sorted (h : Wf m) : Sorted m.tree :=
  h.apart.imp_of_mem fun hn _ hbehind => hbehind.lt (h.holds hn)

/-! ## Looking up an address -/

theorem getLsbD_combined {masks : List Addr} (combined : BitVec 32) {k : ℕ} (hk : k < 32)
    (h : combined.getLsbD k = true ∨ ∃ mask ∈ masks, mask.getLsbD k = true) :
    (masks.foldl (fun combined mask => (combined.signExtend 64 ||| mask).setWidth 32)
      combined).getLsbD k = true := by
  induction masks generalizing combined with
  | nil => simpa using h
  | cons mask masks ih =>
    refine ih _ ?_
    rw [BitVec.getLsbD_setWidth, BitVec.getLsbD_or, BitVec.getLsbD_signExtend, if_pos hk]
    rcases h with h | ⟨mask', hmem, h⟩
    · exact Or.inl (by simp [hk, h, show k < 64 by omega])
    · rcases mem_cons.mp hmem with rfl | hmem
      · exact Or.inl (by simp [hk, h])
      · exact Or.inr ⟨mask', hmem, h⟩

theorem Grained.granularity_eq (h : Grained r) (hi : r.interleaved) :
    ∃ g, r.granularity = .ok g ∧ 1 ≤ g.toNat := by
  obtain ⟨mask, hmask, k, hk, hbit⟩ := h hi
  have hcombined := getLsbD_combined (0 : BitVec 32) hk (Or.inr ⟨mask, hmask, hbit⟩)
  rw [granularity, if_pos hi]
  generalize r.masks.foldl (fun combined mask => (combined.signExtend 64 ||| mask).setWidth 32) 0 =
    combined at hcombined
  have hlow : ctz64 (combined.signExtend 64) < 64 := by
    refine ctz64_lt fun hzero => ?_
    have := congrArg (fun x : Addr => x.getLsbD k) hzero
    rw [BitVec.getLsbD_signExtend, if_pos hk, hcombined] at this
    simp [show k < 64 by omega] at this
  refine ⟨BitVec.twoPow 64 (ctz64 (combined.signExtend 64)), ?_, ?_⟩
  · simp only [require, if_pos hlow]
    rfl
  · rw [BitVec.toNat_twoPow_of_lt hlow]
    exact Nat.one_le_two_pow

theorem ofSize_plain : ¬ (ofSize a 1).interleaved := by
  rw [interleaved_iff, not_not]
  rfl

def Covers (a : Addr) (r : AddrRange) : Bool :=
  r.start.toNat ≤ a.toNat ∧ a.toNat < r.end_.toNat

theorem covers_iff : Covers a r ↔ r.start.toNat ≤ a.toNat ∧ a.toNat < r.end_.toNat :=
  decide_eq_true_iff

theorem isSubset_plain (hi : ¬ r.interleaved) (ha : a ≠ MaxAddr) :
    (ofSize a 1).isSubset r = .ok (Covers a r) := by
  have hlt : a.toNat + 1 < 2 ^ 64 := by
    have := a.isLt
    by_contra hmax
    exact ha (BitVec.eq_of_toNat_eq (show a.toNat = 2 ^ 64 - 1 by omega))
  have hsucc : (a + 1).toNat = a.toNat + 1 := by
    rw [BitVec.toNat_add, show (1 : Addr).toNat = 1 from rfl, Nat.mod_eq_of_lt hlt]
  rw [isSubset, if_neg ofSize_plain, if_neg hi, ofSize]
  refine congrArg Except.ok (decide_eq_decide.mpr ?_)
  change r.start.toNat ≤ a.toNat ∧ (a + 1).toNat ≤ r.end_.toNat ↔ _
  rw [hsucc, Nat.succ_le_iff]

theorem isSubset_eq (hr : Holds r) (hg : Grained r) (ha : a ≠ MaxAddr) :
    (ofSize a 1).isSubset r = .ok (r.contains a) := by
  by_cases hi : r.interleaved
  · obtain ⟨g, hgran, hone⟩ := hg.granularity_eq hi
    have hend : a + 1 - 1 = a := BitVec.add_sub_cancel a 1
    have hsize : (ofSize a 1).size = 1 := by
      rw [size, ofSize, BitVec.add_comm a 1, BitVec.add_sub_cancel]
      rfl
    rw [isSubset, if_neg ofSize_plain, if_pos hi, hsize, ofSize]
    simp only [hend, Bool.and_self]
    cases hcontains : r.contains a with
    | false => rfl
    | true =>
      rw [if_pos rfl, hgran]
      exact congrArg Except.ok (decide_eq_true hone)
  · rw [isSubset_plain hi ha]
    refine congrArg Except.ok (Bool.eq_iff_iff.mpr ?_)
    rw [covers_iff, contains_iff, sel_eq_zero hi, hr.plain hi, and_iff_left rfl]

theorem Behind.not_contains (h : Behind r r') (ha : r.contains a) : r'.contains a = false := by
  rw [contains_iff] at ha
  rw [Bool.eq_false_iff, ne_eq, contains_iff]
  rintro ⟨hstart, -, hsel⟩
  rcases h with h | ⟨hmerges, -, hlt⟩
  · omega
  · rw [sel_eq_of_masks (mergesWith_iff.mp hmerges).2.2] at hsel
    omega

theorem find_eq {cond : AddrRange → Except Fault Bool} (h : m.cache = []) :
    m.find 0 r cond = do
      let found ← findTree cond r m.tree
      return (m, found) := by
  rw [AddrRangeMap.find, h]
  change (findTree _ _ _ >>= _) = _
  refine congrArg _ (funext fun found => ?_)
  cases found with
  | none => rfl
  | some it =>
    obtain ⟨tree, cache, fresh⟩ := m
    obtain rfl : cache = [] := h
    rfl

/-- The address is not the first of a group whose selected sibling is behind another one
with a match that is not zero. -/
def FirstSeen (m : AddrRangeMap V) (a : Addr) : Prop :=
  ∀ n ∈ m.tree, n.range.contains a → n.range.start = a → ∀ x ∈ m.tree,
    x.range.mergesWith n.range → x.range.intlvMatch = 0 ∨ n.range.intlvMatch ≤ x.range.intlvMatch

theorem Wf.findTree_contains (h : Wf m) (ha : a ≠ MaxAddr) (hfirst : FirstSeen m a)
    (hn : n ∈ m.tree) (hna : n.range.contains a) :
    findTree (ofSize a 1).isSubset (ofSize a 1) m.tree = .ok (some n.id) := by
  have hcond : ∀ n ∈ m.tree, (ofSize a 1).isSubset n.range = .ok (n.range.contains a) :=
    fun n hn => isSubset_eq (h.holds hn) (h.grained n hn) ha
  have hin := contains_iff.mp hna
  obtain ⟨hapartB, hapartA, hacross⟩ := pairwise_split (ofSize a 1) h.apart
  rcases mem_before_or_after (ofSize a 1) hn with hbefore | hafter
  · obtain ⟨pre, post, hsplit⟩ := append_of_mem hbefore
    refine findTree_before (P := (·.contains a)) hcond (fun x hx => ?_) hsplit hna fun x hx => ?_
    · exact (hacross n hbefore x (mem_of_mem_head? hx)).not_contains hna
    · have hbehind : Behind n.range x.range := by
        rw [hsplit] at hapartB
        exact (pairwise_cons.mp (pairwise_append.mp hapartB).2.1).1 x hx
      refine ⟨hbehind.not_contains hna, ?_⟩
      rcases hbehind with hend | ⟨hmerges, -, -⟩
      · -- An entry in front of the bound does not start behind the address.
        have hle := (mem_before (r := ofSize a 1) (hsplit ▸ mem_append_right pre
          (mem_cons_of_mem n hx))).2
        rw [lt_iff] at hle
        change ¬ (a.toNat < _ ∨ _) at hle
        omega
      · exact hmerges
  · cases hsplit : after (ofSize a 1) m.tree with
    | nil =>
      rw [hsplit] at hafter
      exact absurd hafter not_mem_nil
    | cons y post =>
      rw [hsplit] at hafter hapartA
      rcases mem_cons.mp hafter with rfl | hpost
      · exact findTree_after (P := (·.contains a)) hcond hsplit hna
      · -- Only a sibling can be between the bound and the entry.
        obtain ⟨hy, hylt⟩ := mem_after h.sorted (hsplit ▸ mem_cons_self)
        have hnlt := (mem_after h.sorted (hsplit ▸ hafter)).2
        have hpos := (h.holds hy).lt
        rw [lt_iff] at hylt hnlt
        change a.toNat < _ ∨ a.toNat = _ ∧ 0 < _ at hylt hnlt
        rcases (pairwise_cons.mp hapartA).1 n hpost with hend | ⟨hmerges, -, hlt⟩
        · omega
        · have hstart : n.range.start = a := BitVec.eq_of_toNat_eq (by omega)
          have hsame := (mergesWith_iff.mp hmerges).1
          rw [hsame] at hnlt
          rcases hfirst n hn hna hstart y hy hmerges with hzero | hle
          · rw [hzero] at hylt
            change a.toNat < _ ∨ a.toNat = _ ∧ 0 < 0 at hylt
            rw [hstart] at hsame
            rw [hsame] at hylt
            omega
          · rw [BitVec.le_def] at hle
            omega

theorem Wf.findTree_contains_none (h : Wf m) (ha : a ≠ MaxAddr)
    (hnone : ∀ n ∈ m.tree, ¬ n.range.contains a) :
    findTree (ofSize a 1).isSubset (ofSize a 1) m.tree = .ok none :=
  findTree_none (P := (·.contains a)) (fun n hn => isSubset_eq (h.holds hn) (h.grained n hn) ha)
    fun n hn => Bool.eq_false_iff.mpr (hnone n hn)

/-! ## Inserting a range -/

structure Grouped (m : AddrRangeMap V) (r : AddrRange) : Prop where
  nonempty : ∃ a, r.contains a
  group : ∀ n ∈ m.tree, Overlaps r n.range → r.interleaved ∨ n.range.interleaved →
    r.mergesWith n.range

def Collides (r r' : AddrRange) : Bool :=
  r.start.toNat < r'.end_.toNat ∧ r'.start.toNat < r.end_.toNat ∧ r.intlvMatch = r'.intlvMatch

theorem collides_iff : Collides r r' ↔ Overlaps r r' ∧ r.intlvMatch = r'.intlvMatch := by
  rw [Collides, decide_eq_true_eq, Overlaps, and_assoc]

section Intersects

variable (hr : Holds r) (hr' : Holds r')
  (hgroup : Overlaps r r' → r.interleaved ∨ r'.interleaved → r.mergesWith r')
include hr hr' hgroup

theorem intersects_eq (hsize : r.interleaved → r.size ≠ 1) :
    r.intersects r' = .ok (Collides r r') := by
  rw [intersects]
  split_ifs with hout hplain hone hmerges
  · have hno : ¬ Collides r r' := by
      rw [collides_iff, Overlaps]
      simp only [BitVec.le_def] at hout
      omega
    rw [Bool.eq_false_iff.mpr hno]
    rfl
  · have hboth : ¬ r.interleaved ∧ ¬ r'.interleaved := by simpa using hplain
    have hyes : Collides r r' := by
      rw [collides_iff]
      refine ⟨?_, BitVec.eq_of_toNat_eq ?_⟩
      · simp only [BitVec.le_def, not_or, not_le] at hout
        exact hout
      · rw [hr.plain hboth.1, hr'.plain hboth.2]
    rw [hyes]
    rfl
  all_goals
    have hover : Overlaps r r' := by
      simp only [BitVec.le_def, not_or, not_le] at hout
      exact hout
    have heither : r.interleaved ∨ r'.interleaved := by
      by_contra hnone
      exact hplain (by simpa [not_or] using hnone)
    have hgrouped := hgroup hover heither
  · exfalso
    obtain ⟨hstart, hend, hmasks⟩ := mergesWith_iff.mp hgrouped
    rw [interleaved_iff, interleaved_iff, hmasks, or_self, ← interleaved_iff] at heither
    rw [size, hstart, hend, hmasks, ← size] at hone
    exact hsize heither hone
  · refine congrArg Except.ok (Bool.eq_iff_iff.mpr ?_)
    rw [collides_iff, decide_eq_true_eq, and_iff_right hover]
  · exact absurd hgrouped hmerges

theorem collides_iff_shares (hne : ∃ a, r.contains a) :
    Collides r r' ↔ ∃ a, r'.contains a ∧ r.contains a := by
  rw [collides_iff]
  constructor
  · rintro ⟨hover, hmatch⟩
    by_cases heither : r.interleaved ∨ r'.interleaved
    · obtain ⟨a, ha⟩ := hne
      obtain ⟨hstart, hend, hmasks⟩ := mergesWith_iff.mp (hgroup hover heither)
      refine ⟨a, ?_, ha⟩
      rw [contains_iff] at ha ⊢
      rw [hstart, hend, sel_eq_of_masks hmasks, ← hmatch]
      exact ha
    · -- The later of the two starts is in both.
      rw [not_or] at heither
      have hlt := hr.lt
      have hlt' := hr'.lt
      rw [Overlaps] at hover
      have hcontains : ∀ a : Addr, r.start.toNat ≤ a.toNat → r'.start.toNat ≤ a.toNat →
          a.toNat < r.end_.toNat → a.toNat < r'.end_.toNat → r'.contains a ∧ r.contains a := by
        intro a hs hs' he he'
        rw [contains_iff, contains_iff, sel_eq_zero heither.1, sel_eq_zero heither.2,
          hr.plain heither.1, hr'.plain heither.2]
        exact ⟨⟨hs', he', rfl⟩, hs, he, rfl⟩
      rcases le_total r.start.toNat r'.start.toNat with hle | hle
      · exact ⟨r'.start, hcontains r'.start hle le_rfl (by omega) (by omega)⟩
      · exact ⟨r.start, hcontains r.start le_rfl hle (by omega) (by omega)⟩
  · rintro ⟨a, ha', ha⟩
    rw [contains_iff] at ha ha'
    have hover : Overlaps r r' := ⟨by omega, by omega⟩
    refine ⟨hover, BitVec.eq_of_toNat_eq ?_⟩
    by_cases heither : r.interleaved ∨ r'.interleaved
    · rw [← ha.2.2, ← ha'.2.2, sel_eq_of_masks (mergesWith_iff.mp (hgroup hover heither)).2.2]
    · rw [not_or] at heither
      rw [hr.plain heither.1, hr'.plain heither.2]

end Intersects

theorem behind_of_not_collides (hr : Holds r) (hr' : Holds r')
    (hgroup : Overlaps r r' → r.interleaved ∨ r'.interleaved → r.mergesWith r')
    (hno : ¬ Collides r r') : (¬ r.lt r' → Behind r' r) ∧ (r.lt r' → Behind r r') := by
  have hlt := hr.lt
  have hlt' := hr'.lt
  rw [lt_iff]
  by_cases hover : Overlaps r r'
  · have hmatch : r.intlvMatch.toNat ≠ r'.intlvMatch.toNat := fun heq =>
      hno (collides_iff.mpr ⟨hover, BitVec.eq_of_toNat_eq heq⟩)
    have heither : r.interleaved ∨ r'.interleaved := by
      by_contra hnone
      rw [not_or] at hnone
      exact hmatch (by rw [hr.plain hnone.1, hr'.plain hnone.2])
    have hmerges := hgroup hover heither
    obtain ⟨hstart, hend, hmasks⟩ := mergesWith_iff.mp hmerges
    have hboth : r.interleaved ∧ r'.interleaved := by
      rw [interleaved_iff, interleaved_iff, hmasks] at heither ⊢
      exact ⟨heither.elim id id, heither.elim id id⟩
    rw [hstart]
    refine ⟨fun hge => Or.inr ⟨mergesWith_symm hmerges, hboth.2, by omega⟩,
      fun hlt => Or.inr ⟨hmerges, hboth.1, by omega⟩⟩
  · rw [Overlaps] at hover
    exact ⟨fun hge => Or.inl (by omega), fun hlt => Or.inl (by omega)⟩

theorem Grouped.holds (hr : Grouped m r) : Holds r := by
  obtain ⟨a, ha⟩ := hr.nonempty
  exact holds_of_contains ha

section Insert

variable (h : Wf m) (hr : Grouped m r)
include h hr

theorem Wf.collides_head {y : Node V} {post : List (Node V)} (hsplit : after r m.tree = y :: post)
    (hn : n ∈ after r m.tree) (hc : Collides r n.range) : Collides r y.range := by
  obtain ⟨hover, hmatch⟩ := collides_iff.mp hc
  have hapart := (pairwise_split r h.apart).2.1
  obtain ⟨hnt, hnlt⟩ := mem_after h.sorted hn
  obtain ⟨hyt, hylt⟩ := mem_after h.sorted (hsplit ▸ mem_cons_self : y ∈ after r m.tree)
  have hypos := (h.holds hyt).lt
  rw [hsplit] at hn hapart
  rw [Overlaps] at hover
  rw [lt_iff] at hnlt hylt
  rcases mem_cons.mp hn with rfl | hpost
  · exact hc
  rcases (pairwise_cons.mp hapart).1 n hpost with hend | ⟨hmerges, hi, hlt⟩
  · have hovery : Overlaps r y.range := ⟨by omega, by omega⟩
    refine collides_iff.mpr ⟨hovery, BitVec.eq_of_toNat_eq ?_⟩
    by_cases heither : r.interleaved ∨ y.range.interleaved
    · rw [(mergesWith_iff.mp (hr.group y hyt hovery heither)).2.1] at hend
      omega
    · rw [not_or] at heither
      rw [hr.holds.plain heither.1, (h.holds hyt).plain heither.2]
  · -- A sibling of the entry has the start of the range, and so has the entry.
    have hni : n.range.interleaved := by
      rw [interleaved_iff, (mergesWith_iff.mp hmerges).2.2]
      exact interleaved_iff.mp hi
    rw [(mergesWith_iff.mp (hr.group n hnt hover (Or.inr hni))).1, hmatch] at hnlt
    omega

theorem Wf.collides_last {pre post : List (Node V)} (hsplit : before r m.tree = pre ++ n :: post)
    (hc : Collides r n.range) : post = [] := by
  obtain ⟨hover, hmatch⟩ := collides_iff.mp hc
  have hapart := (pairwise_split r h.apart).1
  rw [hsplit] at hapart
  refine eq_nil_iff_forall_not_mem.mpr fun x hx => ?_
  obtain ⟨hnt, -⟩ := mem_before (hsplit ▸ mem_append_right pre mem_cons_self :
    n ∈ before r m.tree)
  obtain ⟨-, hxlt⟩ := mem_before (hsplit ▸ mem_append_right pre (mem_cons_of_mem n hx) :
    x ∈ before r m.tree)
  rw [Overlaps] at hover
  rw [lt_iff] at hxlt
  rcases (pairwise_cons.mp (pairwise_append.mp hapart).2.1).1 x hx with
    hend | ⟨hmerges, hi, hlt⟩
  · omega
  · have hstart := (mergesWith_iff.mp (hr.group n hnt hover (Or.inr hi))).1
    rw [(mergesWith_iff.mp hmerges).1, hstart, hmatch] at hxlt
    omega

theorem Wf.findTree_intersects (hsize : r.interleaved → r.size ≠ 1) :
    ∃ found, findTree r.intersects r m.tree = .ok found ∧
      (found ≠ none ↔ ∃ n ∈ m.tree, Collides r n.range) := by
  have hcond : ∀ n ∈ m.tree, r.intersects n.range = .ok (Collides r n.range) := fun n hn =>
    intersects_eq hr.holds (h.holds hn) (hr.group n hn) hsize
  by_cases hany : ∃ n ∈ m.tree, Collides r n.range
  · suffices ∃ it, findTree r.intersects r m.tree = .ok (some it) by
      obtain ⟨it, hit⟩ := this
      exact ⟨some it, hit, by simp [hany]⟩
    obtain ⟨n, hn, hc⟩ := hany
    by_cases hhead : ∀ x ∈ (after r m.tree).head?, Collides r x.range = false
    · rcases mem_before_or_after r hn with hbefore | hafter
      · obtain ⟨pre, post, hsplit⟩ := append_of_mem hbefore
        obtain rfl := h.collides_last hr hsplit hc
        exact ⟨n.id, findTree_before (P := Collides r) hcond hhead hsplit hc nofun⟩
      · cases hsplit : after r m.tree with
        | nil =>
          rw [hsplit] at hafter
          exact absurd hafter not_mem_nil
        | cons y post =>
          have hy := hhead y (by rw [hsplit]; rfl)
          rw [h.collides_head hr hsplit hafter hc] at hy
          exact absurd hy.symm Bool.false_ne_true
    · push Not at hhead
      obtain ⟨y, hy, hcy⟩ := hhead
      obtain ⟨post, hsplit⟩ := List.head?_eq_some_iff.mp hy
      exact ⟨y.id, findTree_after (P := Collides r) hcond hsplit (by simpa using hcy)⟩
  · push Not at hany
    refine ⟨none, findTree_none (P := Collides r) hcond fun n hn => ?_, ?_⟩
    · exact Bool.eq_false_iff.mpr (hany n hn)
    · simpa using hany

theorem Wf.insertTree (hg : Grained r) (hno : ∀ n ∈ m.tree, ¬ Collides r n.range) (d : V) :
    ∃ m' it, m.insertTree r d = (m', it) ∧ Wf m' := by
  have hsides := fun n hn => behind_of_not_collides hr.holds (h.holds hn) (hr.group n hn) (hno n hn)
  have hkey : ∀ n ∈ m.tree, r.lt n.range ∨ n.range.lt r := fun n hn => by
    by_cases hlt : r.lt n.range
    · exact Or.inl hlt
    · exact Or.inr (((hsides n hn).1 hlt).lt (h.holds hn))
  refine ⟨_, _, insertTree_eq hkey, ?_, ?_, ?_, ?_, ?_, h.cache⟩
  · intro n hn
    rcases mem_insertAt.mp hn with rfl | hn
    · exact hr.nonempty
    · exact h.nonempty n hn
  · intro n hn
    rcases mem_insertAt.mp hn with rfl | hn
    · exact hg
    · exact h.grained n hn
  · refine pairwise_insertAt h.apart (fun n hn => ?_) fun n hn => ?_
    · obtain ⟨hmem, hlt⟩ := mem_before hn
      exact (hsides n hmem).1 hlt
    · obtain ⟨hmem, hlt⟩ := mem_after h.sorted hn
      exact (hsides n hmem).2 hlt
  · exact nodup_insertAt h.nodup h.fresh
  · intro n hn
    rcases mem_insertAt.mp hn with rfl | hn
    · exact Nat.lt_succ_self _
    · exact Nat.lt_succ_of_lt (h.fresh n hn)

theorem Wf.insert (hsize : r.interleaved → r.size ≠ 1) (hg : Grained r) (d : V) :
    ∃ m' it, m.insert 0 r d = .ok (m', it) ∧ Wf m' ∧
      (it = none ↔ ∃ n ∈ m.tree, ∃ a, n.range.contains a ∧ r.contains a) := by
  have hshares : (∃ n ∈ m.tree, Collides r n.range) ↔
      ∃ n ∈ m.tree, ∃ a, n.range.contains a ∧ r.contains a := by
    refine exists_congr fun n => and_congr_right fun hn => ?_
    exact collides_iff_shares hr.holds (h.holds hn) (hr.group n hn) hr.nonempty
  obtain ⟨found, hfound, hiff⟩ := h.findTree_intersects hr hsize
  rw [← hshares, ← hiff, AddrRangeMap.insert, find_eq h.cache, hfound]
  cases found with
  | some it => exact ⟨m, none, rfl, h, by simp⟩
  | none =>
    obtain ⟨m', it, hinsert, hm'⟩ := h.insertTree hr hg (by simpa using hiff) d
    refine ⟨m', some it, ?_, hm', by simp⟩
    simp only [ok_bind]
    change (pure ((m.insertTree r d).1, some (m.insertTree r d).2) : Except Fault _) = _
    rw [hinsert]
    rfl

end Insert

theorem Wf.erase (h : Wf m) {p : ℕ} (hp : p ∈ m.tree.map Node.id) :
    ∃ m', m.erase p = .ok m' ∧ Wf m' := by
  refine ⟨⟨m.tree.filter (·.id ≠ p), m.cache.filter (· ≠ p), m.fresh⟩, ?_, ?_⟩
  · rw [AddrRangeMap.erase, require, if_pos hp]
    rfl
  · have hsub := filter_sublist (p := fun n : Node V => decide (n.id ≠ p)) (l := m.tree)
    exact ⟨fun n hn => h.nonempty n (hsub.subset hn), fun n hn => h.grained n (hsub.subset hn),
      h.apart.sublist hsub, h.nodup.sublist (hsub.map _), fun n hn => h.fresh n (hsub.subset hn),
      by simp [h.cache]⟩

/-! ## Runs -/

/-- The runs of insertions and erasures. -/
def Decodes (s : Session V) : Op V → Prop
  | .insert r _ => Grouped s.map r
  | .erase p => p ∈ s.map.tree.map Node.id
  | _ => False

/-- An interleaved range has more than one address in a channel, and a granularity. -/
def Fit (r : AddrRange) : Prop :=
  r.interleaved → r.size ≠ 1 ∧ ∃ mask ∈ r.masks, ∃ k < 32, mask.getLsbD k = true

def Op.Fit : Op V → Prop
  | .insert r _ => Address.Fit r
  | _ => True

theorem step_wf {s : Session V} {op : Op V} (h : Wf s.map) (hop : Decodes s op ∧ op.Fit) :
    ∃ t, step 0 s op = .ok t ∧ Wf t.map := by
  cases op with
  | insert r d =>
    obtain ⟨m', it, hinsert, hm', -⟩ := h.insert hop.1 (fun hi => (hop.2 hi).1)
      (fun hi => (hop.2 hi).2) d
    exact ⟨answered s (m', it), by rw [step, hinsert]; rfl, hm'⟩
  | erase p =>
    obtain ⟨m', herase, hm'⟩ := h.erase hop.1
    exact ⟨{ s with map := m' }, by rw [step, herase]; rfl, hm'⟩
  | eraseRange p q => exact hop.1.elim
  | clear => exact hop.1.elim
  | contains a => exact hop.1.elim

theorem wf_empty : Wf (AddrRangeMap.empty : AddrRangeMap V) :=
  ⟨nofun, nofun, .nil, .nil, nofun, rfl⟩

/-- In every map reached with fit ranges, a look-up finds the entry of the address, and a
range is refused iff it shares an address with an entry. -/
theorem lookup_finds (ops : List (Op V))
    (h : Meets (step 0) (fun s op => Decodes s op ∧ op.Fit) Session.start ops) :
    ∃ s, run (step 0) Session.start ops = .ok s ∧ (s.map.tree.map Node.id).Nodup ∧
      (∀ a, a ≠ MaxAddr → FirstSeen s.map a →
        (∀ n ∈ s.map.tree, n.range.contains a → s.map.contains 0 a = .ok (s.map, some n.id)) ∧
        ((∀ n ∈ s.map.tree, ¬ n.range.contains a) → s.map.contains 0 a = .ok (s.map, none))) ∧
      ∀ r d, Grouped s.map r → Fit r → ∃ m' it, s.map.insert 0 r d = .ok (m', it) ∧
        (it = none ↔ ∃ n ∈ s.map.tree, ∃ a, n.range.contains a ∧ r.contains a) := by
  obtain ⟨s, hrun, hs⟩ := h.keeps (P := fun s => Wf s.map) step_wf wf_empty
  refine ⟨s, hrun, hs.nodup, fun a ha hfirst => ⟨fun n hn hna => ?_, fun hnone => ?_⟩,
    fun r d hr hfit => ?_⟩
  · rw [AddrRangeMap.contains, find_eq hs.cache, hs.findTree_contains ha hfirst hn hna]
    rfl
  · rw [AddrRangeMap.contains, find_eq hs.cache, hs.findTree_contains_none ha hnone]
    rfl
  · obtain ⟨m', it, hinsert, -, hiff⟩ := hs.insert hr (fun hi => (hfit hi).1)
      (fun hi => (hfit hi).2) d
    exact ⟨m', it, hinsert, hiff⟩

def channel (i : ℕ) : AddrRange := ⟨0, 32, [8], BitVec.ofNat 8 i⟩

theorem lookup_finds_channel : ∃ s, run (step 0) Session.start
      [.insert (channel 1) (), .insert (channel 0) ()] = .ok s ∧
    s.map.contains 0 9 = .ok (s.map, some 0) := by
  have hfit : ∀ i, Fit (channel i) := fun i _ =>
    ⟨show (32 - 0 : Addr) >>> 1 ≠ 1 by decide, 8, by simp [channel], 3, by decide⟩
  obtain ⟨s, hrun, -, hfind, -⟩ := lookup_finds [.insert (channel 1) (), .insert (channel 0) ()] (by
    refine ⟨⟨⟨⟨8, by decide +kernel⟩, nofun⟩, hfit 1⟩, fun t ht => ?_⟩
    have hfirst : step 0 Session.start (.insert (channel 1) ()) =
        .ok ⟨⟨[⟨0, channel 1, ()⟩], [], 1⟩, [some 0]⟩ := by decide +kernel
    obtain rfl := Except.ok.inj (hfirst.symm.trans ht)
    refine ⟨⟨⟨⟨0, by decide +kernel⟩, fun n hn _ _ => ?_⟩, hfit 0⟩, fun _ _ => trivial⟩
    obtain rfl : n = ⟨0, channel 1, ()⟩ := by simpa using hn
    decide)
  obtain rfl : ⟨⟨[⟨1, channel 0, ()⟩, ⟨0, channel 1, ()⟩], [], 2⟩, [some 0, some 1]⟩ = s :=
    Except.ok.inj ((by decide +kernel : run (step 0) Session.start
      [.insert (channel 1) (), .insert (channel 0) ()] = _).symm.trans hrun)
  refine ⟨_, hrun, (hfind 9 (by decide) ?_).1 ⟨0, channel 1, ()⟩ (by simp) (by decide +kernel)⟩
  intro n hn _ hstart
  obtain rfl | rfl : n = ⟨1, channel 0, ()⟩ ∨ n = ⟨0, channel 1, ()⟩ := by simpa using hn
  all_goals exact absurd hstart (by decide)

/-- At the first address of a group the look-up misses the selected sibling; siblings with one
address each are refused; the granularity of masks above bit 31 has no value. -/
theorem lookups_go_wrong :
    (AddrRange.contains ⟨2, 10, [1, 2], 2⟩ 2 ∧
      Ends (step 0) Session.start
        [.insert ⟨2, 10, [1, 2], 1⟩ (), .insert ⟨2, 10, [1, 2], 2⟩ (), .contains 2]
        (·.answers = [some 0, some 1, none])) ∧
    (¬ AddrRange.contains ⟨0, 16, [], 0⟩ MaxAddr ∧
      Ends (step 0) Session.start [.insert ⟨0, 16, [], 0⟩ (), .contains MaxAddr]
        (·.answers = [some 0, some 0])) ∧
    ((∀ a, ¬ (AddrRange.contains ⟨0, 2, [1], 1⟩ a ∧ AddrRange.contains ⟨0, 2, [1], 0⟩ a)) ∧
      Ends (step 0) Session.start [.insert ⟨0, 2, [1], 1⟩ (), .insert ⟨0, 2, [1], 0⟩ ()]
        (·.answers = [some 0, none])) ∧
    Stops (step 0) Session.start
      [.insert ⟨0, BitVec.twoPow 64 34, [BitVec.twoPow 64 32], 0⟩ (), .contains 0]
      .undefinedShift := by
  refine ⟨by decide +kernel, by decide +kernel, ⟨fun a ha => ?_, by decide +kernel⟩,
    by decide +kernel⟩
  rw [contains_iff, contains_iff] at ha
  exact absurd (ha.1.2.2.symm.trans ha.2.2.2) (by decide)

end HetSim.Address
