import Mathlib

/-!
# Counts over the binary tree of the natural numbers

Node `j` of layer `l` has the numbers `i` with `i / 2 ^ l = j` under it. `below` counts the
members of a list under a node, `above` those to the right of the node over `x`. A node is spent
when nothing under it is still to come or still there.
-/

namespace HetSim.Halving

def below (S : List ℕ) (l j : ℕ) : ℕ := S.countP fun i => i / 2 ^ l = j

def above (S : List ℕ) (l x : ℕ) : ℕ := S.countP fun i => x / 2 ^ l < i / 2 ^ l

def Spent (n : ℕ) (S : List ℕ) (l j : ℕ) : Prop := ∀ i, i / 2 ^ l = j → i < n ∧ i ∉ S

theorem div_pow_succ (i l : ℕ) : i / 2 ^ (l + 1) = i / 2 ^ l / 2 := by
  rw [pow_succ, Nat.div_div_eq_div_mul]

variable {S : List ℕ} {l n : ℕ}

theorem below_succ (j : ℕ) : below S (l + 1) j = below S l (2 * j) + below S l (2 * j + 1) := by
  induction S with
  | nil => rfl
  | cons i S ih =>
    simp only [below, div_pow_succ] at ih
    simp only [below, List.countP_cons, ih, div_pow_succ, decide_eq_true_eq]
    split_ifs <;> omega

/-- The numbers to the right of a left child are those under its sibling and those to the
right of its parent; a right child has no sibling there. -/
theorem above_succ (x : ℕ) :
    above S l x = (if x / 2 ^ l % 2 = 0 then below S l (x / 2 ^ l + 1) else 0) +
      above S (l + 1) x := by
  induction S with
  | nil => simp [above, below]
  | cons i S ih =>
    simp only [above, below, div_pow_succ] at ih
    simp only [above, below, List.countP_cons, ih, div_pow_succ, decide_eq_true_eq]
    split_ifs <;> omega

variable {x j : ℕ}

theorem above_eq_zero (h : ∀ i ∈ S, i < 2 ^ l) : above S l x = 0 := by
  refine List.countP_eq_zero.mpr fun i hi => ?_
  simp [Nat.div_eq_of_lt (h i hi)]

theorem below_eq_zero (h : ∀ i ∈ S, i / 2 ^ l ≠ j) : below S l j = 0 :=
  List.countP_eq_zero.mpr fun i hi => by simpa using h i hi

theorem below_cons_of_ne (h : x / 2 ^ l ≠ j) : below (x :: S) l j = below S l j :=
  List.countP_cons_of_neg (by simpa using h)

theorem below_filter_of_ne (h : x / 2 ^ l ≠ j) : below (S.filter (· ≠ x)) l j = below S l j := by
  rw [below, List.countP_filter]
  refine List.countP_congr fun i _ => ?_
  simp only [Bool.and_eq_true, decide_eq_true_eq, and_iff_left_iff_imp]
  rintro rfl rfl
  exact h rfl

theorem spent_succ (hl : Spent n S l (2 * j)) (hr : Spent n S l (2 * j + 1)) :
    Spent n S (l + 1) j := by
  intro i hi
  rw [div_pow_succ] at hi
  rcases Nat.mod_two_eq_zero_or_one (i / 2 ^ l) with hm | hm
  · exact hl i (by omega)
  · exact hr i (by omega)

theorem Spent.cons (h : Spent n S l j) : Spent (n + 1) (n :: S) l j := by
  intro i hi
  obtain ⟨hlt, hS⟩ := h i hi
  exact ⟨by omega, by simp [hS]; omega⟩

theorem Spent.filter (p : ℕ → Bool) (h : Spent n S l j) : Spent n (S.filter p) l j :=
  fun i hi => ⟨(h i hi).1, fun hS => (h i hi).2 (List.mem_filter.mp hS).1⟩

theorem not_spent_of_mem (h : x ∈ S) : ¬ Spent n S l (x / 2 ^ l) :=
  fun hs => (hs x rfl).2 h

theorem not_spent_end : ¬ Spent n S l (n / 2 ^ l) :=
  fun hs => lt_irrefl n (hs n rfl).1

end HetSim.Halving
