import HetSim.Library.Checked

/-!
# Transducers

A transducer reads a list one element at a time and answers each, with a state that it carries
on. Two of them that undo each other step by step undo each other on every list.
-/

namespace HetSim.Transducers
open Checked

variable {σ α β φ : Type} {f : σ → α → Except φ (β × σ)} {g : σ → β → Except φ (α × σ)}
variable {s s' : σ} {as : List α} {bs : List β}

def transduce (f : σ → α → Except φ (β × σ)) : σ → List α → Except φ (List β × σ)
  | s, [] => .ok ([], s)
  | s, a :: as => do
    let (b, s) ← f s a
    let (bs, s) ← transduce f s as
    return (b :: bs, s)

theorem transduce_cons {a : α} {b : β} {s₁ : σ} (h : f s a = .ok (b, s₁))
    (h' : transduce f s₁ as = .ok (bs, s')) : transduce f s (a :: as) = .ok (b :: bs, s') := by
  simp only [transduce, h, h', ok_bind]
  rfl

theorem transduce_cons_inv {a : α} (h : transduce f s (a :: as) = .ok (bs, s')) :
    ∃ b s₁ bs', f s a = .ok (b, s₁) ∧ transduce f s₁ as = .ok (bs', s') ∧ bs = b :: bs' := by
  rw [transduce] at h
  obtain ⟨⟨b, s₁⟩, hb, h⟩ := bind_eq_ok.mp h
  obtain ⟨⟨bs', s₂⟩, hbs, h⟩ := bind_eq_ok.mp h
  cases pure_eq_ok.mp h
  exact ⟨b, s₁, bs', hb, hbs, rfl⟩

theorem transduce_concat {a : α} {b : β} {s₁ : σ} (h : transduce f s as = .ok (bs, s₁))
    (h' : f s₁ a = .ok (b, s')) : transduce f s (as ++ [a]) = .ok (bs ++ [b], s') := by
  induction as generalizing s bs with
  | nil =>
    cases h
    exact transduce_cons h' rfl
  | cons a₀ as ih =>
    obtain ⟨b₀, s₀, bs, hb, hbs, rfl⟩ := transduce_cons_inv h
    exact transduce_cons hb (ih hbs)

theorem transduce_getElem {k : ℕ} {a : α} (h : transduce f s as = .ok (bs, s'))
    (ha : as[k]? = some a) : ∃ s₁ b s₂, transduce f s (as.take k) = .ok (bs.take k, s₁) ∧
      f s₁ a = .ok (b, s₂) ∧ bs[k]? = some b := by
  induction as generalizing s bs k with
  | nil => exact nomatch ha
  | cons a' as ih =>
    obtain ⟨b, s₁, bs, hb, hbs, rfl⟩ := transduce_cons_inv h
    cases k with
    | zero =>
      cases ha
      exact ⟨s, b, s₁, rfl, hb, rfl⟩
    | succ k =>
      obtain ⟨s₂, b₂, s₃, htake, hstep, hget⟩ := ih hbs ha
      exact ⟨s₂, b₂, s₃, transduce_cons hb htake, hstep, hget⟩

theorem transduce_inverse {I : σ → List α → Prop}
    (hstep : ∀ s a as, I s (a :: as) → ∃ b s', f s a = .ok (b, s') ∧ g s b = .ok (a, s') ∧ I s' as)
    (h : I s as) : ∃ bs : List β, bs.length = as.length ∧ ∀ k, ∃ s',
      transduce f s (as.take k) = .ok (bs.take k, s') ∧
      transduce g s (bs.take k) = .ok (as.take k, s') := by
  induction as generalizing s with
  | nil =>
    refine ⟨[], rfl, fun k => ⟨s, ?_⟩⟩
    simp only [List.take_nil]
    exact ⟨rfl, rfl⟩
  | cons a as ih =>
    obtain ⟨b, s₁, hf, hg, hI⟩ := hstep s a as h
    obtain ⟨bs, hlength, htake⟩ := ih hI
    refine ⟨b :: bs, congrArg (· + 1) hlength, fun k => ?_⟩
    cases k with
    | zero => exact ⟨s, rfl, rfl⟩
    | succ k =>
      obtain ⟨s', hleft, hright⟩ := htake k
      exact ⟨s', transduce_cons hf hleft, transduce_cons hg hright⟩

end HetSim.Transducers
