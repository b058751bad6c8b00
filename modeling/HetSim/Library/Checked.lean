import Mathlib

/-!
# Computations that may stop with a fault

`require` and `demand` are the two ways a checked computation stops early. The lemmas read a
computation backwards, one operation at a time, so that a caller never unfolds the monad.
`Raises x P`: `x` can only stop with a fault in `P`; it has one rule for each operation.
-/

namespace HetSim.Checked

universe u v
variable {φ : Type u} {α β : Type v}

def require (p : Prop) [Decidable p] (f : φ) : Except φ PUnit.{v+1} :=
  if p then .ok ⟨⟩ else .error f

def demand (o : Option α) (f : φ) : Except φ α :=
  match o with
  | some a => .ok a
  | none => .error f

@[simp] theorem ok_bind (a : α) (k : α → Except φ β) : (.ok a >>= k) = k a := rfl

variable {x : Except φ α} {k : α → Except φ β} {f : φ} {a : α} {p : Prop} {o : Option α}

@[simp] theorem bind_eq_ok {b : β} : (x >>= k) = .ok b ↔ ∃ a, x = .ok a ∧ k a = .ok b := by
  cases x with
  | error f => simp [bind, Except.bind]
  | ok a => simp [bind, Except.bind]

@[simp] theorem bind_eq_error :
    (x >>= k) = .error f ↔ x = .error f ∨ ∃ a, x = .ok a ∧ k a = .error f := by
  cases x with
  | error g => simp [bind, Except.bind]
  | ok a => simp [bind, Except.bind]

@[simp] theorem pure_eq_ok {b : α} : (pure a : Except φ α) = .ok b ↔ a = b := by
  simp [pure, Except.pure]

@[simp] theorem pure_ne_error : (pure a : Except φ α) ≠ .error f := by
  simp [pure, Except.pure]

@[simp] theorem require_eq_ok [Decidable p] {u : PUnit.{v+1}} : require p f = .ok u ↔ p := by
  by_cases hp : p <;> simp [require, hp]

@[simp] theorem require_eq_error [Decidable p] {g : φ} :
    (require p f : Except φ PUnit.{v+1}) = .error g ↔ ¬ p ∧ f = g := by
  by_cases hp : p <;> simp [require, hp]

@[simp] theorem demand_eq_ok : demand o f = .ok a ↔ o = some a := by
  cases o <;> simp [demand]

@[simp] theorem demand_eq_error {g : φ} : demand o f = .error g ↔ o = none ∧ f = g := by
  cases o <;> simp [demand]

@[simp] theorem mapError_eq_ok {ψ : Type*} {f : φ → ψ} : x.mapError f = .ok a ↔ x = .ok a := by
  cases x with
  | error g => exact iff_of_false nofun nofun
  | ok b => exact ⟨fun h => congrArg _ (Except.ok.inj h), fun h => congrArg _ (Except.ok.inj h)⟩

theorem eq_ok_get (h : x.toOption.isSome) : x = .ok (x.toOption.get h) := by
  cases x with
  | error f => exact nomatch h
  | ok a => rfl

theorem mapM_eq_ok {γ : Type*} {f : γ → Except φ α} {xs : List γ} {ys : List α}
    (h : xs.mapM f = .ok ys) : List.Forall₂ (fun x y => f x = .ok y) xs ys := by
  induction xs generalizing ys with
  | nil =>
    obtain rfl : [] = ys := by simpa [pure, Except.pure] using h
    exact .nil
  | cons x xs ih =>
    rw [List.mapM_cons] at h
    obtain ⟨y, hy, h⟩ := bind_eq_ok.mp h
    obtain ⟨ys', hys', h⟩ := bind_eq_ok.mp h
    obtain rfl := pure_eq_ok.mp h
    exact .cons hy (ih hys')

def Raises (x : Except φ α) (P : φ → Prop) : Prop := ∀ f, x = .error f → P f

namespace Raises

variable {P Q : φ → Prop}

theorem ok (a : α) : Raises (.ok a : Except φ α) P := nofun

theorem pure (a : α) : Raises (Pure.pure a : Except φ α) P := nofun

theorem error (h : P f) : Raises (.error f : Except φ α) P := by
  rintro g ⟨⟩
  exact h

theorem bind (hx : Raises x P) (hk : ∀ a, x = .ok a → Raises (k a) P) : Raises (x >>= k) P := by
  intro f hf
  rcases bind_eq_error.mp hf with hf | ⟨a, ha, hf⟩
  · exact hx f hf
  · exact hk a ha f hf

theorem require [Decidable p] (h : ¬ p → P f) :
    Raises (Checked.require p f : Except φ PUnit.{v+1}) P := by
  intro g hg
  obtain ⟨hp, rfl⟩ := require_eq_error.mp hg
  exact h hp

theorem demand (h : o = none → P f) : Raises (Checked.demand o f) P := by
  intro g hg
  obtain ⟨ho, rfl⟩ := demand_eq_error.mp hg
  exact h ho

theorem ite {c : Prop} [Decidable c] {y : Except φ α} (hx : c → Raises x P)
    (hy : ¬ c → Raises y P) : Raises (if c then x else y) P := by
  by_cases hc : c
  · rw [if_pos hc]
    exact hx hc
  · rw [if_neg hc]
    exact hy hc

end Raises

def Results (x : Except φ α) (Q : α → Prop) (P : φ → Prop) : Prop :=
  (∀ a, x = .ok a → Q a) ∧ Raises x P

namespace Results

variable {P : φ → Prop} {Q : α → Prop}

theorem ok (h : Q a) : Results (.ok a : Except φ α) Q P :=
  ⟨fun _ hb => Except.ok.inj hb ▸ h, .ok a⟩

theorem pure (h : Q a) : Results (Pure.pure a : Except φ α) Q P := .ok h

theorem error (h : P f) : Results (.error f : Except φ α) Q P :=
  ⟨nofun, .error h⟩

theorem bind {R : β → Prop} (hx : Results x Q P)
    (hk : ∀ a, Q a → Results (k a) R P) : Results (x >>= k) R P := by
  refine ⟨fun b hb => ?_, hx.2.bind fun a ha => (hk a (hx.1 a ha)).2⟩
  obtain ⟨a, ha, hb⟩ := bind_eq_ok.mp hb
  exact (hk a (hx.1 a ha)).1 b hb

theorem map {f : α → β} {R : β → Prop} (hx : Results x Q P)
    (h : ∀ a, Q a → R (f a)) : Results (f <$> x) R P := by
  cases x with
  | ok a => exact .ok (h a (hx.1 a rfl))
  | error g => exact .error (hx.2 g rfl)

end Results

end HetSim.Checked
