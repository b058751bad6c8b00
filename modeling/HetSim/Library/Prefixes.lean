import Mathlib

/-!
# Prefixes of words

A word with a width stands for the words with the same first bits, counted from the most
significant one. The masks of prefixes are ordered by their widths.
-/

namespace HetSim.Prefixes

open Finset BitVec

variable {w : ℕ} {a b c : BitVec w} {j k : ℕ}

def prefixMask (w k : ℕ) : BitVec w := BitVec.allOnes w <<< (w - k)

def ones (a : BitVec w) : ℕ := ((Finset.range w).filter fun i => a.getMsbD i).card

def Agree (a b : BitVec w) (k : ℕ) : Prop := ∀ i < k, a.getMsbD i = b.getMsbD i

theorem ones_le (a : BitVec w) : ones a ≤ w :=
  (card_filter_le _ _).trans_eq (card_range w)

theorem getMsbD_prefixMask (hk : k ≤ w) (i : ℕ) : (prefixMask w k).getMsbD i = decide (i < k) := by
  rw [prefixMask, getMsbD_shiftLeft, getMsbD_allOnes]
  exact decide_eq_decide.mpr (by omega)

@[simp] theorem ones_prefixMask (hk : k ≤ w) : ones (prefixMask w k) = k := by
  have hfilter :
      (Finset.range w).filter (fun i => (prefixMask w k).getMsbD i) = Finset.range k := by
    ext i
    rw [mem_filter, getMsbD_prefixMask hk, decide_eq_true_iff, mem_range,
      mem_range]
    omega
  rw [ones, hfilter, card_range]

theorem prefixMask_injective (hj : j ≤ w) (hk : k ≤ w) (h : prefixMask w j = prefixMask w k) :
    j = k := by
  rw [← ones_prefixMask hj, h, ones_prefixMask hk]

theorem prefixMask_and (hj : j ≤ w) (hk : k ≤ w) :
    prefixMask w j &&& prefixMask w k = prefixMask w j ↔ j ≤ k := by
  constructor
  · intro h
    by_contra hlt
    have hbit := congrArg (·.getMsbD k) h
    simp only [getMsbD_and, getMsbD_prefixMask hj, getMsbD_prefixMask hk] at hbit
    simp only [lt_irrefl, decide_false, Bool.and_false, Eq.comm (a := false),
      decide_eq_false_iff_not] at hbit
    omega
  · intro hle
    apply eq_of_getMsbD_eq
    intro i _
    rw [getMsbD_and, getMsbD_prefixMask hj, getMsbD_prefixMask hk, ← Bool.decide_and]
    exact decide_eq_decide.mpr (by omega)

theorem prefixMask_extend (hk : k ≤ w) :
    prefixMask w k ||| prefixMask w k >>> 1 ||| 1#w <<< (w - 1) = prefixMask w (min (k + 1) w) := by
  apply eq_of_getMsbD_eq
  intro i hi
  have hmsb : (1#w <<< (w - 1)).getMsbD i = decide (i = 0) := by
    rw [getMsbD_shiftLeft, getMsbD_eq_getLsbD, getLsbD_one]
    rw [← Bool.decide_and, ← Bool.decide_and]
    exact decide_eq_decide.mpr (by omega)
  rw [getMsbD_or, getMsbD_or, getMsbD_ushiftRight, hmsb,
    getMsbD_prefixMask hk, getMsbD_prefixMask hk, getMsbD_prefixMask (min_le_right _ _),
    Bool.eq_iff_iff]
  simp only [Bool.or_eq_true, Bool.and_eq_true, Bool.not_eq_true', decide_eq_true_iff,
    decide_eq_false_iff_not]
  omega

theorem and_prefixMask_eq (hk : k ≤ w) :
    a &&& prefixMask w k = b &&& prefixMask w k ↔ Agree a b k := by
  constructor
  · intro h i hi
    have hbit := congrArg (·.getMsbD i) h
    simpa [getMsbD_and, getMsbD_prefixMask hk, hi] using hbit
  · intro h
    apply eq_of_getMsbD_eq
    intro i _
    rw [getMsbD_and, getMsbD_and, getMsbD_prefixMask hk]
    by_cases hi : i < k
    · rw [h i hi]
    · simp [hi]

namespace Agree

theorem refl (a : BitVec w) (k : ℕ) : Agree a a k := fun _ _ => rfl

theorem symm (h : Agree a b k) : Agree b a k := fun i hi => (h i hi).symm

theorem trans (h : Agree a b k) (h' : Agree b c k) : Agree a c k :=
  fun i hi => (h i hi).trans (h' i hi)

theorem mono (h : Agree a b k) (hj : j ≤ k) : Agree a b j := fun i hi => h i (hi.trans_le hj)

theorem succ (h : Agree a b k) (hbit : a.getMsbD k = b.getMsbD k) : Agree a b (k + 1) := by
  intro i hi
  rcases Nat.lt_succ_iff_lt_or_eq.mp hi with hi | rfl
  · exact h i hi
  · exact hbit

theorem zero : Agree a b 0 := fun _ hi => absurd hi (Nat.not_lt_zero _)

theorem and_prefixMask (hk : k ≤ w) (hj : j ≤ k) : Agree (a &&& prefixMask w k) a j := by
  intro i hi
  rw [getMsbD_and, getMsbD_prefixMask hk, decide_eq_true (hi.trans_le hj), Bool.and_true]

end Agree

end HetSim.Prefixes
