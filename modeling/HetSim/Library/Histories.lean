import Mathlib

/-!
# Histories of an abstract object

A history is a list of operations that the step relation of an object allows one after the
other. It can be cut anywhere, a property that is lost was lost in some step, and a quantity
that every step balances is balanced by the history.
-/

namespace HetSim.Histories

universe u v
variable {σ : Type u} {ε : Type v}

inductive History (step : σ → ε → σ → Prop) (s : σ) : List ε → σ → Prop
  | nil : History step s [] s
  | snoc {es t e t'} (prior : History step s es t) (last : step t e t') :
      History step s (es ++ [e]) t'

namespace History

variable {step : σ → ε → σ → Prop} {s t : σ}

variable {es fs : List ε}

theorem snoc_inv {e : ε} (h : History step s (es ++ [e]) t) :
    ∃ r, History step s es r ∧ step r e t := by
  generalize hes : es ++ [e] = fs at h
  cases h with
  | nil => simp at hes
  | snoc prior last =>
    obtain ⟨rfl, he⟩ := List.append_inj' hes rfl
    cases he
    exact ⟨_, prior, last⟩

theorem split (h : History step s (es ++ fs) t) :
    ∃ r, History step s es r ∧ History step r fs t := by
  induction fs using List.reverseRecOn generalizing t with
  | nil => exact ⟨t, by simpa using h, .nil⟩
  | append_singleton fs f ih =>
    rw [← List.append_assoc] at h
    obtain ⟨r, hr, hf⟩ := h.snoc_inv
    obtain ⟨m, hm, hfs⟩ := ih hr
    exact ⟨m, hm, hfs.snoc hf⟩

theorem cut {e : ε} (h : History step s (es ++ e :: fs) t) :
    ∃ r r', History step s es r ∧ step r e r' ∧ History step r' fs t := by
  rw [← List.singleton_append, ← List.append_assoc] at h
  obtain ⟨r', hr', hfs⟩ := h.split
  obtain ⟨r, hr, he⟩ := hr'.snoc_inv
  exact ⟨r, r', hr, he, hfs⟩

theorem stay (h : History step s es t) (hf : ∀ e ∈ fs, step t e t) :
    History step s (es ++ fs) t := by
  induction fs using List.reverseRecOn with
  | nil => simpa using h
  | append_singleton fs f ih =>
    rw [← List.append_assoc]
    exact (ih fun e he => hf e (List.mem_append_left _ he)).snoc (hf f (by simp))

theorem lost {Q : σ → Prop} (h : History step s es t) (hs : Q s) (ht : ¬ Q t) :
    ∃ e ∈ es, ∃ r r', step r e r' ∧ Q r ∧ ¬ Q r' := by
  induction h with
  | nil => exact absurd hs ht
  | @snoc es r e r' prior last ih =>
    by_cases hr : Q r
    · exact ⟨e, by simp, r, r', last, hr, ht⟩
    · obtain ⟨f, hf, hstep⟩ := ih hr
      exact ⟨f, by simp [hf], hstep⟩

theorem balance {f : σ → ℕ} {gain loss : ε → ℕ} (h : History step s es t)
    (hstep : ∀ r e r', step r e r' → f r' + loss e = f r + gain e) :
    f t + (es.map loss).sum = f s + (es.map gain).sum := by
  induction h with
  | nil => rfl
  | @snoc es r e r' prior last ih =>
    have he := hstep r e r' last
    simp only [List.map_append, List.sum_append, List.map_singleton, List.sum_singleton]
    omega

end History

end HetSim.Histories
