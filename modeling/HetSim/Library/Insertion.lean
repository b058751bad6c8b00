import Mathlib.Data.List.Basic
import Mathlib.Logic.Function.Basic

/-!
# Insertion in front of a mark

A program is a list of marks with inserted elements between them. The elements in front of one
mark stand in the order of their insertion.
-/

namespace HetSim.Insertion

open List Function

universe u v
variable {ι : Type u} {α : Type v}

def laid (qs : List ι) (g : ι → List α) : List (ι ⊕ α) :=
  qs.flatMap fun q => (g q).map .inr ++ [.inl q]

def elems (l : List (ι ⊕ α)) : List α := l.filterMap Sum.getRight?

theorem elems_laid (qs : List ι) (g : ι → List α) : elems (laid qs g) = qs.flatMap g := by
  induction qs with
  | nil => rfl
  | cons q qs ih =>
    have hinr : ((g q).map (Sum.inr : α → ι ⊕ α)).filterMap Sum.getRight? = g q := by
      rw [filterMap_map]
      exact filterMap_some
    simp only [elems, laid, flatMap_cons, filterMap_append] at ih ⊢
    rw [ih, hinr]
    simp

variable [DecidableEq ι]

def insertBefore (p : ι) (a : α) : List (ι ⊕ α) → List (ι ⊕ α)
  | [] => []
  | .inl q :: l => if q = p then .inr a :: .inl q :: l else .inl q :: insertBefore p a l
  | .inr b :: l => .inr b :: insertBefore p a l

def insertAll (pairs : List (ι × α)) (l : List (ι ⊕ α)) : List (ι ⊕ α) :=
  pairs.foldl (fun l x => insertBefore x.1 x.2 l) l

theorem insertBefore_inr (p : ι) (a : α) (as : List α) (l : List (ι ⊕ α)) :
    insertBefore p a (as.map .inr ++ l) = as.map .inr ++ insertBefore p a l := by
  induction as with
  | nil => rfl
  | cons b as ih => simp only [map_cons, cons_append, insertBefore, ih]

theorem laid_update {qs : List ι} {p : ι} (h : p ∉ qs) (g : ι → List α) (as : List α) :
    laid qs (update g p as) = laid qs g := by
  induction qs with
  | nil => rfl
  | cons q qs ih =>
    rw [mem_cons, not_or] at h
    have ih := ih h.2
    simp only [laid, flatMap_cons] at ih ⊢
    rw [ih, update_of_ne (Ne.symm h.1)]

theorem insertBefore_laid {qs : List ι} (hn : qs.Nodup) (p : ι) (a : α) (g : ι → List α) :
    insertBefore p a (laid qs g) = laid qs (update g p (g p ++ [a])) := by
  induction qs with
  | nil => rfl
  | cons q qs ih =>
    rw [nodup_cons] at hn
    have hsplit : ∀ g : ι → List α, laid (q :: qs) g = (g q).map .inr ++ .inl q :: laid qs g := by
      intro g
      simp [laid]
    rw [hsplit, hsplit, insertBefore_inr, insertBefore]
    split_ifs with hq
    · subst hq
      rw [laid_update hn.1]
      simp
    · rw [ih hn.2, update_of_ne hq]

def frontOf (q : ι) (pairs : List (ι × α)) : List α := (pairs.filter (·.1 = q)).map Prod.snd

@[simp] theorem frontOf_nil (q : ι) : frontOf q ([] : List (ι × α)) = [] := rfl

@[simp] theorem frontOf_append (q : ι) (l l' : List (ι × α)) :
    frontOf q (l ++ l') = frontOf q l ++ frontOf q l' := by
  simp [frontOf]

@[simp] theorem frontOf_singleton (q p : ι) (a : α) :
    frontOf q [(p, a)] = if p = q then [a] else [] := by
  by_cases h : p = q <;> simp [frontOf, h]

theorem insertAll_laid {qs : List ι} (hn : qs.Nodup) (pairs : List (ι × α)) (g : ι → List α) :
    insertAll pairs (laid qs g) = laid qs fun q => g q ++ frontOf q pairs := by
  induction pairs generalizing g with
  | nil => simp [insertAll]
  | cons x pairs ih =>
    obtain ⟨p, a⟩ := x
    have hcons : insertAll ((p, a) :: pairs) (laid qs g) =
        insertAll pairs (insertBefore p a (laid qs g)) := rfl
    rw [hcons, insertBefore_laid hn, ih]
    congr 1
    funext q
    have happ : frontOf q ((p, a) :: pairs) = frontOf q [(p, a)] ++ frontOf q pairs :=
      frontOf_append q [(p, a)] pairs
    rw [happ, frontOf_singleton]
    by_cases hq : q = p
    · subst hq
      simp
    · rw [update_of_ne hq, if_neg (Ne.symm hq)]
      simp

end HetSim.Insertion
