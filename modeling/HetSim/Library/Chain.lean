import Mathlib

/-!
# Linked lists

`Chain next p l q` says that the pointers `next`, followed from `p`, visit the nodes of
`l` in order and then arrive at `q`. Nodes off the list may point anywhere.
-/

namespace HetSim.Chains

universe u
variable {α : Type u} {next next' : α → Option α} {p q m : Option α} {a : α} {l l' : List α}

def Chain (next : α → Option α) : Option α → List α → Option α → Prop
  | p, [], q => p = q
  | p, a :: l, q => p = some a ∧ Chain next (next a) l q

theorem chain_nil : Chain next p [] q ↔ p = q := Iff.rfl

theorem chain_cons : Chain next p (a :: l) q ↔ p = some a ∧ Chain next (next a) l q := Iff.rfl

theorem chain_append : Chain next p (l ++ l') q ↔ ∃ m, Chain next p l m ∧ Chain next m l' q := by
  induction l generalizing p with
  | nil => simp [Chain]
  | cons a l ih =>
    rw [List.cons_append, chain_cons, ih]
    constructor
    · rintro ⟨hp, m, hl, hl'⟩
      exact ⟨m, ⟨hp, hl⟩, hl'⟩
    · rintro ⟨m, ⟨hp, hl⟩, hl'⟩
      exact ⟨hp, m, hl, hl'⟩

theorem Chain.append (h : Chain next p l m) (h' : Chain next m l' q) : Chain next p (l ++ l') q :=
  chain_append.mpr ⟨m, h, h'⟩

theorem Chain.head_eq (h : Chain next p l none) : p = l.head? := by
  cases l with
  | nil => exact h
  | cons a l => exact h.1

theorem Chain.congr (h : Chain next p l q) (hnext : ∀ a ∈ l, next' a = next a) :
    Chain next' p l q := by
  induction l generalizing p with
  | nil => exact h
  | cons a l ih =>
    refine ⟨h.1, ?_⟩
    rw [hnext a (List.mem_cons_self ..)]
    exact ih h.2 fun b hb => hnext b (List.mem_cons_of_mem a hb)

variable [DecidableEq α]

theorem Chain.update (h : Chain next p l q) (ha : a ∉ l) (x : Option α) :
    Chain (Function.update next a x) p l q := by
  refine h.congr fun b hb => ?_
  rw [Function.update_of_ne]
  rintro rfl
  exact ha hb

theorem Chain.redirect (h : Chain next p (l ++ [a]) q) (ha : a ∉ l) (x : Option α) :
    Chain (Function.update next a x) p (l ++ [a]) x := by
  obtain ⟨m, hl, hm⟩ := chain_append.mp h
  refine (hl.update ha x).append ⟨hm.1, ?_⟩
  rw [Function.update_self]
  rfl

theorem Chain.unlink {c : α} (h : Chain next p (l ++ c :: a :: l') q)
    (hnd : (l ++ c :: a :: l').Nodup) :
    Chain (Function.update next c (next a)) p (l ++ c :: l') q := by
  obtain ⟨m, hl, hm, -, hl'⟩ := chain_append.mp h
  obtain ⟨-, hc, hcross⟩ := List.nodup_append.mp hnd
  have hcl : c ∉ l := fun hmem => hcross c hmem c (List.mem_cons_self ..) rfl
  have hcl' : c ∉ l' := fun hmem => (List.nodup_cons.mp hc).1 (List.mem_cons_of_mem a hmem)
  refine (hl.update hcl _).append ⟨hm, ?_⟩
  rw [Function.update_self]
  exact hl'.update hcl' _

end HetSim.Chains
