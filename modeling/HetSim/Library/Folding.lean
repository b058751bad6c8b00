import Mathlib

/-!
# Folding a stream of bits into a word

The bits of a stream are spread round a word of `c` bits, each at its index modulo `c`, and
added. A new bit in front moves the others one place on: the fold is rotated by one place.
-/

namespace HetSim.Folding

open BitVec

variable {w c : ℕ}

def bit (w : ℕ) (b : Bool) : BitVec w := BitVec.setWidth w (BitVec.ofBool b)

def fold (w c : ℕ) (out : ℕ → Bool) : ℕ → BitVec w
  | 0 => 0
  | n + 1 => fold w c out n ^^^ bit w (out n) <<< (n % c)

def push (b : Bool) (out : ℕ → Bool) : ℕ → Bool
  | 0 => b
  | i + 1 => out i

def mask (w c : ℕ) : BitVec w := BitVec.twoPow w c - 1

def rotate (c : ℕ) (x : BitVec w) : BitVec w :=
  (x <<< 1 ^^^ (x >>> (c - 1) &&& bit w true)) &&& mask w c

theorem getLsbD_bit (b : Bool) (r i : ℕ) :
    (bit w b <<< r).getLsbD i = (decide (i < w ∧ i = r) && b) := by
  rw [getLsbD_shiftLeft, bit, getLsbD_setWidth, getLsbD_ofBool]
  by_cases hi : i = r
  · by_cases hw : i < w
    · simp [← hi, hw, show 0 < w by omega]
    · simp [← hi, hw]
  · by_cases hlt : i < r
    · simp [hi, hlt]
    · simp [hi, show i - r ≠ 0 by omega]

theorem getLsbD_mask (hc : c < w) (i : ℕ) : (mask w c).getLsbD i = decide (i < c) := by
  have hone : (1#w).toNat = 1 := by
    rw [toNat_ofNat, Nat.mod_eq_of_lt (Nat.one_lt_two_pow (by omega))]
  have hnat : (mask w c).toNat = 2 ^ c - 1 := by
    have hlt : 2 ^ c < 2 ^ w := Nat.pow_lt_pow_right (by norm_num) hc
    have hpos : 0 < 2 ^ c := Nat.two_pow_pos c
    rw [mask, toNat_sub_of_le]
    · rw [toNat_twoPow, Nat.mod_eq_of_lt hlt]
      exact congrArg _ hone
    · rw [le_def, toNat_twoPow, Nat.mod_eq_of_lt hlt]
      exact hone.trans_le hpos
  rw [← testBit_toNat, hnat, Nat.testBit_two_pow_sub_one]

theorem getLsbD_rotate (hcw : c < w) (x : BitVec w) (i : ℕ) :
    (rotate c x).getLsbD i =
      (decide (i < c) && if i = 0 then x.getLsbD (c - 1) else x.getLsbD (i - 1)) := by
  rw [rotate, getLsbD_and, getLsbD_mask hcw, Bool.and_comm]
  by_cases hi : i < c
  · have hw : i < w := by omega
    have hone := getLsbD_bit (w := w) true 0 i
    rw [shiftLeft_zero] at hone
    simp only [hi, decide_true, Bool.true_and, getLsbD_xor, getLsbD_shiftLeft,
      getLsbD_and, getLsbD_ushiftRight, hone, hw]
    by_cases h0 : i = 0
    · simp [h0]
    · simp [h0]
  · simp [hi]

theorem rotate_xor (hcw : c < w) (x y : BitVec w) :
    rotate c (x ^^^ y) = rotate c x ^^^ rotate c y := by
  apply eq_of_getLsbD_eq
  intro i _
  simp only [getLsbD_xor, getLsbD_rotate hcw]
  split_ifs
  · rw [Bool.and_xor_distrib_left]
  · rw [Bool.and_xor_distrib_left]

theorem rotate_zero : rotate c (0 : BitVec w) = 0 := by
  simp [rotate]

theorem rotate_bit (hcw : c < w) (b : Bool) {r : ℕ} (hr : r < c) :
    rotate c (bit w b <<< r) = bit w b <<< ((r + 1) % c) := by
  have hmod : (r + 1) % c = if r + 1 = c then 0 else r + 1 := by
    split_ifs with heq
    · rw [heq, Nat.mod_self]
    · exact Nat.mod_eq_of_lt (by omega)
  apply eq_of_getLsbD_eq
  intro i hi
  rw [getLsbD_rotate hcw, getLsbD_bit, getLsbD_bit, getLsbD_bit, hmod]
  by_cases h0 : i = 0
  · rw [if_pos h0, ← Bool.and_assoc, ← Bool.decide_and]
    congr 2
    split_ifs <;> simp only [eq_iff_iff] <;> omega
  · rw [if_neg h0, ← Bool.and_assoc, ← Bool.decide_and]
    congr 2
    split_ifs <;> simp only [eq_iff_iff] <;> omega

theorem fold_push (hc : 0 < c) (hcw : c < w) (b : Bool) (out : ℕ → Bool) (n : ℕ) :
    fold w c (push b out) (n + 1) = bit w b ^^^ rotate c (fold w c out n) := by
  induction n with
  | zero =>
    rw [fold, fold, fold, rotate_zero, Nat.zero_mod, shiftLeft_zero]
    simp [push]
  | succ n ih =>
    have hstep : fold w c (push b out) (n + 1 + 1) =
        fold w c (push b out) (n + 1) ^^^ bit w (out n) <<< ((n + 1) % c) := rfl
    rw [hstep, ih, fold, rotate_xor hcw, rotate_bit hcw _ (Nat.mod_lt n hc), Nat.mod_add_mod,
      xor_assoc]

theorem fold_push_out (hc : 0 < c) (hcw : c < w) (b : Bool) (out : ℕ → Bool) (n : ℕ) :
    fold w c (push b out) n =
      bit w b ^^^ rotate c (fold w c out n) ^^^ bit w (push b out n) <<< (n % c) := by
  rw [← fold_push hc hcw, fold, xor_assoc, BitVec.xor_self, xor_zero]

theorem getLsbD_fold (hc : 0 < c) (out : ℕ → Bool) (n : ℕ) {i : ℕ} (hi : c ≤ i) :
    (fold w c out n).getLsbD i = false := by
  induction n with
  | zero => simp [fold]
  | succ n ih =>
    have hmod := Nat.mod_lt n hc
    have hne : i ≠ n % c := by omega
    rw [fold, getLsbD_xor, ih, getLsbD_bit]
    simp [hne]

end HetSim.Folding
