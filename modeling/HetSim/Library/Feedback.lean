import Mathlib.Data.BitVec
import Mathlib.Logic.Function.Iterate

/-!
# Feedback shift registers

A register of the bits `0 .. m` moves every bit down by one and feeds the sum of the lowest and
the highest bit into the top. Its `m + 1`-st power is the sum of the `m`-th and the identity, so
`m` steps undo `x ↦ h x + x`, and `m + 1` steps undo `x ↦ h⁻¹ x + x`.
-/

namespace HetSim.Feedback

open Function BitVec

variable {w m i j k : ℕ} {h d : BitVec w → BitVec w} {x y : BitVec w}

/-- The value has no bit above `m`. -/
def Fits (m : ℕ) (x : BitVec w) : Prop := ∀ j, m < j → x.getLsbD j = false

theorem Fits.xor (hx : Fits m x) (hy : Fits m y) : Fits m (x ^^^ y) := by
  intro j hj
  rw [getLsbD_xor, hx j hj, hy j hj, Bool.xor_false]

theorem Fits.ext (hx : Fits m x) (hy : Fits m y)
    (hbits : ∀ j ≤ m, x.getLsbD j = y.getLsbD j) : x = y := by
  apply eq_of_getLsbD_eq
  intro j _
  by_cases hj : j ≤ m
  · exact hbits j hj
  · rw [hx j (by omega), hy j (by omega)]

structure Register (m : ℕ) (h : BitVec w → BitVec w) : Prop where
  down : ∀ x j, j ≠ m → (h x).getLsbD j = x.getLsbD (j + 1)
  top : ∀ x, (h x).getLsbD m = (x.getLsbD m ^^ x.getLsbD 0)

namespace Register

variable (hr : Register m h)
include hr

theorem fits (hx : Fits m x) : Fits m (h x) := by
  intro j hj
  rw [hr.down x j (by omega)]
  exact hx (j + 1) (by omega)

theorem fits_iterate (hx : Fits m x) : Fits m (h^[k] x) := by
  induction k with
  | zero => exact hx
  | succ k ih =>
    rw [iterate_succ_apply']
    exact hr.fits ih

theorem map_xor (x y : BitVec w) : h (x ^^^ y) = h x ^^^ h y := by
  apply eq_of_getLsbD_eq
  intro j _
  rw [getLsbD_xor]
  by_cases hj : j = m
  · subst hj
    simp only [hr.top, getLsbD_xor, Bool.xor_assoc, Bool.xor_left_comm]
  · simp only [hr.down _ j hj, getLsbD_xor]

theorem iterate_xor (k : ℕ) (x y : BitVec w) : h^[k] (x ^^^ y) = h^[k] x ^^^ h^[k] y := by
  induction k with
  | zero => rfl
  | succ k ih => simp only [iterate_succ_apply', ih, hr.map_xor]

theorem iterate_down (x : BitVec w) (hij : j + i ≤ m) :
    (h^[k + i] x).getLsbD j = (h^[k] x).getLsbD (j + i) := by
  induction i generalizing j with
  | zero => rfl
  | succ i ih =>
    rw [← Nat.add_assoc, iterate_succ_apply', hr.down _ j (by omega), ih (by omega)]
    congr 1
    omega

theorem iterate_top (hx : Fits m x) : h^[m + 1] x = h^[m] x ^^^ x := by
  apply (hr.fits_iterate hx).ext ((hr.fits_iterate hx).xor hx)
  intro j hj
  -- All three bits are at the ends of the register after `j` steps.
  have hlast : (h^[m + 1] x).getLsbD j = (h^[j + 1] x).getLsbD m := by
    have hdown := hr.iterate_down (k := j + 1) (j := j) (i := m - j) x (by omega)
    rwa [show j + 1 + (m - j) = m + 1 by omega, show j + (m - j) = m by omega] at hdown
  have hhigh : (h^[m] x).getLsbD j = (h^[j] x).getLsbD m := by
    have hdown := hr.iterate_down (k := j) (j := j) (i := m - j) x (by omega)
    rwa [show j + (m - j) = m by omega] at hdown
  have hlow : (h^[j] x).getLsbD 0 = x.getLsbD j := by
    have hdown := hr.iterate_down (k := 0) (j := 0) (i := j) x (by omega)
    rwa [Nat.zero_add, iterate_zero_apply] at hdown
  rw [hlast, iterate_succ_apply', hr.top, getLsbD_xor, hhigh, hlow]

theorem iterate_undoes (hx : Fits m x) : h^[m] (h x ^^^ x) = x := by
  calc h^[m] (h x ^^^ x)
      = h^[m + 1] x ^^^ h^[m] x := by rw [hr.iterate_xor, iterate_succ_apply]
    _ = h^[m] x ^^^ x ^^^ h^[m] x := by rw [hr.iterate_top hx]
    _ = x := by rw [BitVec.xor_comm (h^[m] x), xor_assoc, BitVec.xor_self, xor_zero]

theorem iterate_undoes_inverse (hx : Fits m x) (hy : h y = x) : h^[m + 1] (y ^^^ x) = x := by
  have hone : h^[m + 1] (y ^^^ x) = h^[m] (h x ^^^ x) := by
    rw [iterate_succ_apply, hr.map_xor, hy, BitVec.xor_comm]
  rw [hone, hr.iterate_undoes hx]

end Register

end HetSim.Feedback
