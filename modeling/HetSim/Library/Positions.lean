import Mathlib

/-!
# Doubly linked lists by position

A doubly linked list of all elements of a type is known by the position of each. An element that
moves to one end shifts the elements it passes by one position.
-/

namespace HetSim.Positions

variable {α : Type*} {n : ℕ} {pos : α ≃ Fin n} {prev next prev' next' : α → Option α}
  {x y head tail : α}

structure Links (pos : α ≃ Fin n) (prev next : α → Option α) : Prop where
  next_iff : ∀ x y, next x = some y ↔ (pos y : ℕ) = pos x + 1
  prev_iff : ∀ x y, prev x = some y ↔ (pos x : ℕ) = pos y + 1

def reverse (pos : α ≃ Fin n) : α ≃ Fin n := pos.trans Fin.revPerm

def toFront (pos : α ≃ Fin n) (x : α) : α ≃ Fin n := pos.trans (Fin.cycleRange (pos x))

def toBack (pos : α ≃ Fin n) (x : α) : α ≃ Fin n := reverse (toFront (reverse pos) x)

theorem coe_reverse : (reverse pos x : ℕ) = n - (pos x + 1) := rfl

theorem eq_iff_position (pos : α ≃ Fin n) : x = y ↔ (pos x : ℕ) = pos y := by
  rw [← Fin.ext_iff, pos.injective.eq_iff]

theorem position_ne (pos : α ≃ Fin n) (h : x ≠ y) : (pos x : ℕ) ≠ pos y :=
  fun heq => h ((eq_iff_position pos).mpr heq)

theorem coe_toFront [DecidableEq α] : (toFront pos x y : ℕ) =
    if y = x then 0 else if (pos y : ℕ) < pos x then (pos y + 1 : ℕ) else (pos y : ℕ) := by
  rw [toFront, Equiv.trans_apply]
  rcases lt_trichotomy (pos y) (pos x) with h | h | h
  · rw [Fin.coe_cycleRange_of_lt h, if_neg (fun hxy => h.ne (congrArg pos hxy)),
      if_pos (Fin.lt_def.mp h)]
  · rw [Fin.coe_cycleRange_of_le h.le, if_pos h, if_pos (pos.injective h)]
  · rw [Fin.cycleRange_of_gt h, if_neg (fun hxy => h.ne' (congrArg pos hxy)),
      if_neg (fun hlt => h.not_gt (Fin.lt_def.mpr hlt))]

theorem coe_toBack [DecidableEq α] : (toBack pos x y : ℕ) =
    if y = x then n - 1 else if (pos x : ℕ) < pos y then (pos y - 1 : ℕ) else (pos y : ℕ) := by
  have hx := (pos x).isLt
  have hy := (pos y).isLt
  rw [toBack, coe_reverse, coe_toFront, coe_reverse, coe_reverse]
  by_cases hxy : y = x
  · rw [if_pos hxy, if_pos hxy]
  · have hne := position_ne pos hxy
    rw [if_neg hxy, if_neg hxy]
    split_ifs <;> omega

theorem toFront_first (h : (pos x : ℕ) = 0) : toFront pos x = pos := by
  classical
  ext y
  rw [coe_toFront]
  split_ifs with hxy hlt
  · rw [hxy, h]
  · omega
  · rfl

theorem toBack_last (h : (pos x : ℕ) + 1 = n) : toBack pos x = pos := by
  classical
  ext y
  have hy := (pos y).isLt
  rw [coe_toBack]
  split_ifs with hxy hlt
  · rw [hxy]
    omega
  · omega
  · rfl

theorem Links.reverse (h : Links pos prev next) : Links (reverse pos) next prev := by
  constructor
  · intro x y
    have hx := (pos x).isLt
    have hy := (pos y).isLt
    rw [h.prev_iff, coe_reverse, coe_reverse]
    omega
  · intro x y
    have hx := (pos x).isLt
    have hy := (pos y).isLt
    rw [h.next_iff, coe_reverse, coe_reverse]
    omega

/-- The neighbours of an element that moves to the front are linked to each other, and the
element to the one that was first. -/
theorem Links.front [DecidableEq α] (h : Links pos prev next) (hhead : (pos head : ℕ) = 0)
    (hx : x ≠ head)
    (hnext : ∀ y, next' y =
      if y = x then some head else if prev x = some y then next x else next y)
    (hprev : ∀ y, prev' y =
      if y = head then some x else if y = x then none
      else if next x = some y then prev x else prev y) :
    Links (toFront pos x) prev' next' := by
  have hpos := position_ne pos hx
  constructor
  · intro y z
    rw [hnext, coe_toFront, coe_toFront]
    simp only [h.prev_iff, eq_iff_position pos]
    split_ifs <;>
      simp only [Option.some.injEq, iff_false, h.next_iff, eq_iff_position pos] <;> omega
  · intro y z
    rw [hprev, coe_toFront, coe_toFront]
    simp only [h.next_iff, eq_iff_position pos]
    split_ifs <;>
      simp only [Option.some.injEq, h.prev_iff, eq_iff_position pos] <;> omega

theorem Links.back [DecidableEq α] (h : Links pos prev next) (htail : (pos tail : ℕ) + 1 = n)
    (hx : x ≠ tail)
    (hprev : ∀ y, prev' y =
      if y = x then some tail else if next x = some y then prev x else prev y)
    (hnext : ∀ y, next' y =
      if y = tail then some x else if y = x then none
      else if prev x = some y then next x else next y) :
    Links (toBack pos x) prev' next' := by
  apply Links.reverse
  have hfirst : (Positions.reverse pos tail : ℕ) = 0 := by
    rw [coe_reverse]
    omega
  exact h.reverse.front hfirst hx hprev hnext

end HetSim.Positions
