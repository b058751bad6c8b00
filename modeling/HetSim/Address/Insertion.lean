import HetSim.Address.Selector

/-!
# Adding bits

`addBits` makes room at `intlvBit + i` and not at `intlvBit`: from the third mask on a bit of the
address is lost. `setBits` then makes the parity of each mask right, as long as `~(1 << lsb)`
keeps the rest of the mask.
-/

namespace HetSim.Address
open Squeeze Checked List Finset

variable {a a' c m : Addr} {masks : List Addr} {i j k l : ℕ} {intlvMatch : BitVec 8}

structure Separate (masks : List Addr) : Prop where
  ne_zero : ∀ m ∈ masks, m ≠ 0
  apart : masks.Pairwise fun m m' =>
    m.getLsbD (ctz64 m') = false ∧ m'.getLsbD (ctz64 m) = false

theorem Separate.tail (h : Separate (m :: masks)) : Separate masks :=
  ⟨fun m' hm' => h.ne_zero m' (by simp [hm']), (List.pairwise_cons.mp h.apart).2⟩

theorem Separate.head (h : Separate (m :: masks)) (hk : k ∈ lsbs masks) : m.getLsbD k = false := by
  obtain ⟨m', hm', rfl⟩ := mem_lsbs.mp hk
  exact ((List.pairwise_cons.mp h.apart).1 m' hm').1

theorem Separate.distinct (h : Separate masks) : Distinct masks := by
  refine ⟨h.ne_zero, pairwise_map.mpr (h.apart.imp_of_mem fun hm _ hapart heq => ?_)⟩
  rw [← heq, getLsbD_ctz64 (h.ne_zero _ hm)] at hapart
  exact absurd hapart.1 (by decide)

theorem Separate.getLsbD_lsb (h : Separate masks) (hm : m ∈ masks) (hk : k ∈ lsbs masks)
    (hne : k ≠ ctz64 m) : m.getLsbD k = false := by
  obtain ⟨m', hm', rfl⟩ := mem_lsbs.mp hk
  have : Std.Symm fun m m' : Addr =>
      m.getLsbD (ctz64 m') = false ∧ m'.getLsbD (ctz64 m) = false := ⟨fun _ _ h => h.symm⟩
  exact (h.apart.forall hm hm' fun heq => hne (heq ▸ rfl)).1

/-! ## Making room -/

theorem getLsbD_addBit (hk : k < 64) (h : 0 < l ∨ i = 0) : (addBit i a l).getLsbD k =
    if k < l + i then a.getLsbD k else (decide (0 < k) && a.getLsbD (k - 1)) := by
  have hshift : (a <<< 1).getLsbD k = (decide (0 < k) && a.getLsbD (k - 1)) := by
    rw [BitVec.getLsbD_shiftLeft]
    by_cases hpos : 0 < k
    · simp [hk, hpos, show ¬ k < 1 by omega]
    · simp [show k = 0 by omega]
  rw [addBit]
  by_cases hpos : 0 < l
  · rw [if_pos hpos, getLsbD_insertBits hk, hshift, Nat.sub_zero]
    refine if_congr ?_ rfl rfl
    omega
  · rw [if_neg hpos, hshift, if_neg (by omega)]

theorem exists_getLsbD_addBits (ls : List ℕ) (hls : ∀ l ∈ ls, 0 < l ∨ i = 0)
    (hsorted : ls.Pairwise (· < ·)) (hk : k < 64) (hlen : ls.length ≤ k) :
    ∃ s ≤ k, k ≤ s + ls.length ∧ (addBits i a ls).getLsbD k = a.getLsbD s := by
  induction ls generalizing i a with
  | nil => exact ⟨k, le_rfl, Nat.le_add_right k _, rfl⟩
  | cons l ls ih =>
    obtain ⟨hlt, hsorted⟩ := List.pairwise_cons.mp hsorted
    rw [length_cons] at hlen
    obtain ⟨s, hsk, hks, hs⟩ := ih (i := i + 1) (a := addBit i a l)
      (fun l' hl' => Or.inl (Nat.zero_lt_of_lt (hlt l' hl'))) hsorted (by omega)
    rw [getLsbD_addBit (by omega) (hls l (by simp))] at hs
    rw [addBits, length_cons]
    split_ifs at hs with hroom
    · exact ⟨s, hsk, by omega, hs⟩
    · rw [decide_eq_true (show 0 < s by omega), Bool.true_and] at hs
      exact ⟨s - 1, by omega, by omega, hs⟩

theorem addBits_concat (ls : List ℕ) :
    addBits i a (ls ++ [l]) = addBit (i + ls.length) (addBits i a ls) l := by
  induction ls generalizing i a with
  | nil => rfl
  | cons l' ls ih =>
    rw [cons_append, addBits, ih, addBits, length_cons]
    congr 1
    omega

/-- With three positions or more, the bit above the highest position is not where it has to
be: it would have to move up once for each position. -/
theorem exists_getLsbD_above (ls : List ℕ) (hsorted : (ls ++ [l]).Pairwise (· < ·))
    (hl : l + 1 < 64) (hthree : 2 ≤ ls.length) (hlen : ls.length ≤ l) :
    ∃ s, l + 1 ≤ s + ls.length ∧ (addBits 0 a (ls ++ [l])).getLsbD (l + 1) = a.getLsbD s := by
  have hpos : 0 < l := by omega
  rw [addBits_concat, getLsbD_addBit hl (Or.inl hpos), if_pos (by omega)]
  obtain ⟨s, -, hs, hbit⟩ := exists_getLsbD_addBits (i := 0) (a := a) (k := l + 1) ls
    (fun _ _ => Or.inr rfl) (pairwise_append.mp hsorted).1 hl (by omega)
  exact ⟨s, hs, hbit⟩

theorem getLsbD_addBit_zero (hk : k < 64) (hne : k ≠ l) :
    (addBit 0 a l).getLsbD k = a.getLsbD (rank {l} k) := by
  rw [getLsbD_addBit hk (Or.inr rfl), add_zero, ← insert_empty_eq]
  rcases lt_or_gt_of_ne hne with hlt | hgt
  · rw [if_pos hlt, rank_insert_of_le hlt.le, rank_empty]
  · have hrank := rank_insert_of_lt (notMem_empty l) hgt
    rw [rank_empty] at hrank
    rw [if_neg (by omega), decide_eq_true (show 0 < k by omega), Bool.true_and]
    congr 1
    omega

theorem getLsbD_addBits_of_le_two {ls : List ℕ} (htwo : ls.length ≤ 2)
    (hsorted : ls.Pairwise (· < ·)) (hk : k < 64) (hkl : k ∉ ls) :
    (addBits 0 a ls).getLsbD k = a.getLsbD (rank ls.toFinset k) := by
  match ls with
  | [] => rw [addBits, toFinset_nil, rank_empty]
  | [l] => exact getLsbD_addBit_zero hk (by simpa using hkl)
  | [l, l'] =>
    have hlt : l < l' := by simpa using hsorted
    obtain ⟨hne, hne'⟩ : k ≠ l ∧ k ≠ l' := by simpa using hkl
    have hset : [l, l'].toFinset = insert l' {l} := by
      simp [pair_comm]
    change (addBit 1 (addBit 0 a l) l').getLsbD k = _
    rw [hset, getLsbD_addBit hk (Or.inl (by omega))]
    rcases lt_or_gt_of_ne hne' with hk' | hk'
    · rw [if_pos (by omega), getLsbD_addBit_zero hk hne, rank_insert_of_le hk'.le]
    · have hrank := rank_insert_of_lt (L := {l}) (by simpa using hlt.ne') hk'
      have hrank' := rank_insert_of_lt (L := ∅) (notMem_empty l) (hlt.trans hk')
      have hpred := rank_insert_of_lt (L := ∅) (notMem_empty l) (show l < k - 1 by omega)
      rw [rank_empty, insert_empty_eq] at hrank' hpred
      rw [if_neg (by omega), decide_eq_true (show 0 < k by omega), Bool.true_and,
        getLsbD_addBit_zero (by omega) (by omega)]
      congr 1
      omega

/-! ## Setting the lowest bits -/

def notInt (l : ℕ) : Addr := (~~~BitVec.twoPow 32 l).signExtend 64

theorem getLsbD_notInt (hl : l < 32) (hk : k < 64) :
    (notInt l).getLsbD k = decide (k ≠ l ∧ (k < 31 ∨ l ≠ 31)) := by
  have hbit : ∀ j < 32, (~~~BitVec.twoPow 32 l).getLsbD j = decide (j ≠ l) := by
    intro j hj
    rw [BitVec.getLsbD_not, BitVec.getLsbD_twoPow]
    simp [hj, hl, eq_comm]
  rw [notInt, BitVec.getLsbD_signExtend, BitVec.msb_eq_getLsbD_last, hbit 31 (by omega)]
  by_cases hk32 : k < 32
  · rw [if_pos hk32, hbit k hk32, decide_eq_true hk, Bool.true_and, decide_eq_decide]
    omega
  · rw [if_neg hk32, decide_eq_true hk, Bool.true_and, decide_eq_decide]
    omega

theorem getLsbD_bits : ((bits intlvMatch i i).setWidth 64).getLsbD 0 = intlvMatch.getLsbD i := by
  have hone : (mask 1).getLsbD 0 = true := by
    rw [getLsbD_mask]
    decide
  rw [bits, BitVec.getLsbD_setWidth, BitVec.getLsbD_setWidth, BitVec.getLsbD_and,
    BitVec.getLsbD_setWidth, BitVec.getLsbD_ushiftRight, sub_self, zero_add, hone]
  simp

theorem getLsbD_setBit (hk : k < 64) {v : Addr} :
    (insertBits a l l v).getLsbD k = if k = l then v.getLsbD 0 else a.getLsbD k := by
  rw [getLsbD_insertBits hk]
  by_cases hkl : k = l
  · simp [hkl]
  · rw [if_neg (by omega), if_neg hkl]

def kept (m : Addr) : Addr := m &&& notInt (ctz64 m)

theorem getLsbD_kept_lsb (hl : ctz64 m < 32) : (kept m).getLsbD (ctz64 m) = false := by
  rw [kept, BitVec.getLsbD_and, getLsbD_notInt hl (by omega)]
  simp

theorem parity_congr (h : ∀ k < 64, m.getLsbD k = true → a.getLsbD k = a'.getLsbD k) :
    parity a m = parity a' m := by
  have hpop : popCount (a &&& m) = popCount (a' &&& m) := by
    refine popCount_congr fun k hk => ?_
    rw [BitVec.getLsbD_and, BitVec.getLsbD_and]
    cases hm : m.getLsbD k with
    | false => rw [Bool.and_false, Bool.and_false]
    | true => rw [h k hk hm]
  rw [parity, parity, hpop]

theorem lsbs_cons : lsbs (m :: masks) = insert (ctz64 m) (lsbs masks) := toFinset_cons

theorem setBits_spec (intlvMatch : BitVec 8) (i : ℕ) (a : Addr) (h : Separate masks)
    (hlsb : ∀ m ∈ masks, ctz64 m < 32) :
    ∃ a', setBits intlvMatch i a masks = .ok a' ∧
      (∀ k < 64, k ∉ lsbs masks → a'.getLsbD k = a.getLsbD k) ∧
      ∀ j (hj : j < masks.length), a'.getLsbD (ctz64 masks[j]) =
        (intlvMatch.getLsbD (i + j) ^^ parity a' (kept masks[j])) := by
  induction masks generalizing i a with
  | nil => exact ⟨a, rfl, fun _ _ _ => rfl, nofun⟩
  | cons m masks ih =>
    have hm := hlsb m (by simp)
    obtain ⟨a', hset, hkeep, hbits⟩ := ih (i + 1)
      (insertBits a (ctz64 m) (ctz64 m) ((bits intlvMatch i i).setWidth 64 ^^^
        BitVec.ofNat 64 (popCount (a &&& m &&& notInt (ctz64 m))))) h.tail
      fun m' hm' => hlsb m' (by simp [hm'])
    -- The lowest bits of the other masks are not in this one.
    have hsame : parity a' (kept m) = parity a (kept m) := by
      refine parity_congr fun k hk hbit => ?_
      have hkm : k ≠ ctz64 m := by
        rintro rfl
        rw [getLsbD_kept_lsb hm] at hbit
        contradiction
      have hkl : k ∉ lsbs masks := fun hmem => by
        rw [kept, BitVec.getLsbD_and, h.head hmem, Bool.false_and] at hbit
        contradiction
      rw [hkeep k hk hkl, getLsbD_setBit hk, if_neg hkm]
    refine ⟨a', ?_, fun k hk hkl => ?_, fun j hj => ?_⟩
    · rw [setBits, notIntBit, require, if_pos hm]
      exact hset
    · rw [lsbs_cons, mem_insert, not_or] at hkl
      rw [hkeep k hk hkl.2, getLsbD_setBit hk, if_neg hkl.1]
    · cases j with
      | zero =>
        have hown : ctz64 m ∉ lsbs masks := fun hmem => by
          have := h.head hmem
          rw [getLsbD_ctz64 (h.ne_zero m (by simp))] at this
          contradiction
        rw [getElem_cons_zero, hkeep _ (by omega) hown, getLsbD_setBit (by omega), if_pos rfl,
          BitVec.getLsbD_xor, getLsbD_bits, add_zero, hsame, parity, kept, ← BitVec.and_assoc,
          BitVec.getLsbD_ofNat, Nat.testBit_zero]
        rfl
      | succ j =>
        rw [getElem_cons_succ, hbits j (by simpa using hj)]
        congr 2
        omega

theorem lsb_lt_of_setBits (h : setBits intlvMatch i a masks = .ok a') :
    ∀ m ∈ masks, ctz64 m < 32 := by
  induction masks generalizing i a with
  | nil => nofun
  | cons m masks ih =>
    simp only [setBits, notIntBit, bind_eq_ok, require_eq_ok, pure_eq_ok] at h
    obtain ⟨-, ⟨-, hm, rfl⟩, hrest⟩ := h
    exact List.forall_mem_cons.mpr ⟨hm, ih hrest⟩

/-- `~(1 << lsb)` keeps the rest of the mask. -/
def Fits (m : Addr) : Prop := ctz64 m < 31 ∨ m = BitVec.twoPow 64 31

instance : DecidablePred Fits := fun _ => inferInstanceAs (Decidable (_ ∨ _))

theorem ctz64_twoPow (hk : k < 64) : ctz64 (BitVec.twoPow 64 k) = k := by
  refine ctz64_eq ?_ fun j hj => ?_
  · rw [BitVec.getLsbD_twoPow]
    simp [hk]
  · rw [BitVec.getLsbD_twoPow]
    simp [hj.ne']

theorem Fits.lt (h : Fits m) : ctz64 m < 32 := by
  rcases h with h | rfl
  · omega
  · rw [ctz64_twoPow (by omega)]
    omega

theorem Fits.getLsbD_kept (h : Fits m) (hk : k < 64) (hne : k ≠ ctz64 m) :
    (kept m).getLsbD k = m.getLsbD k := by
  rw [kept, BitVec.getLsbD_and, getLsbD_notInt h.lt hk]
  rcases h with h | rfl
  · simp [hne, h.ne]
  · rw [ctz64_twoPow (by omega)] at hne
    rw [BitVec.getLsbD_twoPow]
    simp [hne.symm]

theorem Fits.parity_eq (h : Fits m) (hm : m ≠ 0) :
    parity a m = (a.getLsbD (ctz64 m) ^^ parity a (kept m)) := by
  have hlt := h.lt
  cases hbit : a.getLsbD (ctz64 m) with
  | false =>
    have hpop : popCount (a &&& m) = popCount (a &&& kept m) := by
      refine popCount_congr fun k hk => ?_
      rw [BitVec.getLsbD_and, BitVec.getLsbD_and]
      by_cases hkm : k = ctz64 m
      · rw [hkm, hbit, Bool.false_and, Bool.false_and]
      · rw [h.getLsbD_kept hk hkm]
    rw [parity, parity, hpop, Bool.false_xor]
  | true =>
    have hpop : popCount (a &&& m) = popCount (a &&& kept m) + 1 := by
      refine popCount_succ (ctz64_lt hm) ?_ ?_ fun k hk hkm => ?_
      · rw [BitVec.getLsbD_and, getLsbD_kept_lsb hlt, Bool.and_false]
      · rw [BitVec.getLsbD_and, hbit, getLsbD_ctz64 hm, Bool.true_and]
      · rw [BitVec.getLsbD_and, BitVec.getLsbD_and, h.getLsbD_kept hk hkm]
    rw [parity, parity, hpop, Bool.true_xor, ← decide_not, decide_eq_decide]
    omega

theorem kept_eq_zero (hm : ctz64 m = 31) : kept m = 0 := by
  refine BitVec.eq_of_getLsbD_eq fun k hk => ?_
  rw [kept, BitVec.getLsbD_and, hm, getLsbD_notInt (by omega) hk,
    show (0 : Addr).getLsbD k = false from BitVec.getLsbD_zero]
  by_cases hlt : k < 31
  · rw [getLsbD_of_lt_ctz64 (hm ▸ hlt), Bool.false_and]
  · simp [hlt]

end HetSim.Address
