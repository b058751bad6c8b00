import HetSim.Library.Squeeze

/-!
# Bit fields of addresses

The functions of `base/bitfield.hh` that address ranges use, and what they do to each bit.
-/

namespace HetSim.Address

abbrev Addr := BitVec 64

def mask (nbits : ℤ) : Addr :=
  if 64 ≤ nbits then BitVec.allOnes 64 else ((1 : Addr) <<< nbits.toNat) - 1

def bits (val : BitVec 8) (first last : ℕ) : BitVec 8 :=
  ((val >>> last).setWidth 64 &&& mask (first - last + 1)).setWidth 8

def insertBits (val : Addr) (first : ℤ) (last : ℕ) (bitVal : Addr) : Addr :=
  let bmask := mask (first - last + 1) <<< last
  ((bitVal <<< last) &&& bmask) ||| (val &&& ~~~bmask)

def popCount (val : Addr) : ℕ := ((Finset.range 64).filter (val.getLsbD ·)).card

/-- The number of trailing zeros, or 64 if the value is zero. -/
def ctz64 (value : Addr) : ℕ := (List.range 64).findIdx (value.getLsbD ·)

variable {a a' m val bitVal : Addr} {first n : ℤ} {k last : ℕ}

theorem getLsbD_mask : (mask n).getLsbD k = decide (k < 64 ∧ k < n) := by
  rw [mask]
  split_ifs with h
  · rw [BitVec.getLsbD_allOnes, decide_eq_decide]
    omega
  · have hpow : 2 ^ n.toNat < 2 ^ 64 := Nat.pow_lt_pow_right (by omega) (by omega)
    have hone : ((1 : Addr) <<< n.toNat).toNat = 2 ^ n.toNat := by
      rw [BitVec.toNat_shiftLeft, show (1 : Addr).toNat = 1 from rfl, Nat.shiftLeft_eq, Nat.one_mul,
        Nat.mod_eq_of_lt hpow]
    have hle : (1 : Addr).toNat ≤ ((1 : Addr) <<< n.toNat).toNat := by
      rw [hone]
      exact Nat.one_le_two_pow
    rw [BitVec.getLsbD, BitVec.toNat_sub_of_le hle, hone]
    change (2 ^ n.toNat - 1).testBit k = _
    rw [Nat.testBit_two_pow_sub_one, decide_eq_decide]
    omega

theorem getLsbD_insertBits (hk : k < 64) : (insertBits val first last bitVal).getLsbD k =
    if last ≤ k ∧ k ≤ first then bitVal.getLsbD (k - last) else val.getLsbD k := by
  have hin : ((k - last : ℕ) : ℤ) < first - last + 1 ∧ ¬ k < last ↔ last ≤ k ∧ (k : ℤ) ≤ first := by
    omega
  simp only [insertBits, BitVec.getLsbD_or, BitVec.getLsbD_and, BitVec.getLsbD_not,
    BitVec.getLsbD_shiftLeft, getLsbD_mask, hk]
  split_ifs with h
  · obtain ⟨hlt, hlast⟩ := hin.mpr h
    simp [hlt, hlast, show k - last < 64 by omega]
  · rw [← hin, not_and'] at h
    by_cases hlast : k < last
    · simp [hlast]
    · simp [hlast, h hlast]

theorem popCount_congr (h : ∀ k < 64, a.getLsbD k = a'.getLsbD k) : popCount a = popCount a' := by
  rw [BitVec.eq_of_getLsbD_eq h]

theorem popCount_succ (hk : k < 64) (ha : a.getLsbD k = false) (ha' : a'.getLsbD k = true)
    (h : ∀ j < 64, j ≠ k → a.getLsbD j = a'.getLsbD j) : popCount a' = popCount a + 1 := by
  have hinsert : (Finset.range 64).filter (a'.getLsbD ·) =
      insert k ((Finset.range 64).filter (a.getLsbD ·)) := by
    ext j
    rw [Finset.mem_insert, Finset.mem_filter, Finset.mem_filter, Finset.mem_range]
    by_cases hj : j = k
    · simp [hj, hk, ha']
    · constructor
      · rintro ⟨hlt, hbit⟩
        exact Or.inr ⟨hlt, (h j hlt hj).trans hbit⟩
      · rintro (rfl | ⟨hlt, hbit⟩)
        · exact absurd rfl hj
        · exact ⟨hlt, (h j hlt hj).symm.trans hbit⟩
  rw [popCount, popCount, hinsert, Finset.card_insert_of_notMem (by simp [ha])]

section Lowest

variable (hm : m ≠ 0)
include hm

theorem ctz64_lt : ctz64 m < 64 := by
  have hbit : ∃ k < 64, m.getLsbD k = true := by
    by_contra hnone
    push Not at hnone
    refine hm (BitVec.eq_of_getLsbD_eq fun k hk => ?_)
    rw [show (0 : Addr).getLsbD k = false from BitVec.getLsbD_zero]
    exact Bool.eq_false_iff.mpr (hnone k hk)
  obtain ⟨k, hk, hbit⟩ := hbit
  exact (List.findIdx_lt_length_of_exists ⟨k, List.mem_range.mpr hk, hbit⟩).trans_eq
    List.length_range

theorem getLsbD_ctz64 : m.getLsbD (ctz64 m) = true := by
  have hlt : ctz64 m < (List.range 64).length := by
    rw [List.length_range]
    exact ctz64_lt hm
  exact congrArg m.getLsbD (List.getElem_range hlt) ▸ List.findIdx_getElem (w := hlt)

end Lowest

theorem getLsbD_of_lt_ctz64 (h : k < ctz64 m) : m.getLsbD k = false := by
  have hnot := List.not_of_lt_findIdx h
  rwa [List.getElem_range] at hnot

theorem ctz64_eq (hbit : m.getLsbD k = true) (hlow : ∀ j < k, m.getLsbD j = false) :
    ctz64 m = k := by
  rcases lt_trichotomy (ctz64 m) k with h | h | h
  · have hm : m ≠ 0 := by
      rintro rfl
      simp at hbit
    have := getLsbD_ctz64 hm
    rw [hlow _ h] at this
    contradiction
  · exact h
  · rw [getLsbD_of_lt_ctz64 h] at hbit
    contradiction

end HetSim.Address
