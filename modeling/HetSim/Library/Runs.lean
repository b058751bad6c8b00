import HetSim.Library.Checked

/-!
# Runs of a checked step function

A run feeds a list of events to a step function that may stop with a fault. A state is reachable
when some event list leads to it, so a statement about every reachable state is one about every
order of events. Invariants are proved for a step and carried over by `Reachable.invariant`.
-/

namespace HetSim.Runs

universe u v w
variable {σ : Type u} {ε : Type v} {φ : Type w} (step : σ → ε → Except φ σ)

def run (s : σ) (es : List ε) : Except φ σ := es.foldlM step s

def Reachable (s₀ s : σ) : Prop := ∃ es, run step s₀ es = .ok s

variable {step}

@[simp] theorem run_nil (s : σ) : run step s [] = .ok s := rfl

@[simp] theorem run_cons (s : σ) (e : ε) (es : List ε) :
    run step s (e :: es) = step s e >>= fun t => run step t es := rfl

theorem run_append (s : σ) (es es' : List ε) :
    run step s (es ++ es') = run step s es >>= fun t => run step t es' := List.foldlM_append

theorem run_concat (s : σ) (es : List ε) (e : ε) :
    run step s (es ++ [e]) = run step s es >>= fun t => step t e := by
  simp [run, List.foldlM_append]

theorem Reachable.start (s₀ : σ) : Reachable step s₀ s₀ := ⟨[], rfl⟩

variable {s₀ s t : σ} {e : ε} {P : σ → Prop} {es : List ε} {Q : φ → Prop} {C : σ → ε → Prop}

theorem Reachable.next (hs : Reachable step s₀ s)
    (he : step s e = .ok t) : Reachable step s₀ t := by
  obtain ⟨es, hes⟩ := hs
  refine ⟨es ++ [e], ?_⟩
  rw [run_concat, Checked.bind_eq_ok]
  exact ⟨s, hes, he⟩

/-- The invariant rule: what holds at the start and survives every fault-free
step holds in every reachable state. -/
theorem Reachable.invariant (start : P s₀)
    (keep : ∀ s e t, Reachable step s₀ s → P s → step s e = .ok t → P t) :
    ∀ s, Reachable step s₀ s → P s := by
  rintro s ⟨es, hes⟩
  induction es using List.reverseRecOn generalizing s with
  | nil =>
    obtain rfl : s₀ = s := by simpa using hes
    exact start
  | append_singleton es e ih =>
    rw [run_concat, Checked.bind_eq_ok] at hes
    obtain ⟨r, hr, he⟩ := hes
    exact keep r e s ⟨es, hr⟩ (ih r hr) he

theorem run_keeps (keep : ∀ {s e t}, P s → step s e = .ok t → P t)
    (hs : P s) (h : run step s es = .ok t) : P t := by
  induction es generalizing s with
  | nil =>
    obtain rfl : s = t := by simpa using h
    exact hs
  | cons e es ih =>
    rw [run_cons, Checked.bind_eq_ok] at h
    obtain ⟨r, hr, h⟩ := h
    exact ih (keep hs hr) h

/-- A loop over a list succeeds when every round does, with an invariant that knows what is
left of the list. -/
theorem run_consumes {P : List ε → σ → Prop}
    (keep : ∀ {s e es}, P (e :: es) s → ∃ t, step s e = .ok t ∧ P es t)
    (hs : P es s) : ∃ t, run step s es = .ok t ∧ P [] t := by
  induction es generalizing s with
  | nil => exact ⟨s, rfl, hs⟩
  | cons e es ih =>
    obtain ⟨r, hr, hPr⟩ := keep hs
    obtain ⟨t, ht, hPt⟩ := ih hPr
    exact ⟨t, by rw [run_cons, hr]; exact ht, hPt⟩

theorem run_raises (keep : ∀ {s e t}, P s → step s e = .ok t → P t)
    (raises : ∀ {s e}, P s → Checked.Raises (step s e) Q) (hs : P s) :
    Checked.Raises (run step s es) Q := by
  induction es generalizing s with
  | nil => exact .ok s
  | cons e es ih => exact .bind (raises hs) fun t ht => ih (keep hs ht)

def Meets (step : σ → ε → Except φ σ) (C : σ → ε → Prop) : σ → List ε → Prop
  | _, [] => True
  | s, e :: es => C s e ∧ ∀ t, step s e = .ok t → Meets step C t es

instance Meets.instDecidable {C : σ → ε → Prop} [∀ s e, Decidable (C s e)] :
    ∀ s es, Decidable (Meets step C s es)
  | _, [] => isTrue trivial
  | s, e :: es => match h : step s e with
    | .ok t => @decidable_of_iff _ (C s e ∧ Meets step C t es) (by simp [Meets, h])
        (@instDecidableAnd _ _ _ (Meets.instDecidable t es))
    | .error _ => decidable_of_iff (C s e) (by simp [Meets, h])

theorem meets_of_forall {C : ε → Prop} (h : ∀ e ∈ es, C e) : Meets step (fun _ => C) s es := by
  induction es generalizing s with
  | nil => trivial
  | cons e es ih =>
    exact ⟨h e List.mem_cons_self, fun t _ => ih fun f hf => h f (List.mem_cons_of_mem _ hf)⟩

theorem meets_concat :
    Meets step C s (es ++ [e]) ↔ Meets step C s es ∧ ∀ t, run step s es = .ok t → C t e := by
  induction es generalizing s with
  | nil => simp [Meets]
  | cons f es ih =>
    simp only [List.cons_append, Meets, ih, run_cons, Checked.bind_eq_ok]
    constructor
    · rintro ⟨hf, h⟩
      refine ⟨⟨hf, fun t ht => (h t ht).1⟩, ?_⟩
      rintro t ⟨r, hr, ht⟩
      exact (h r hr).2 t ht
    · rintro ⟨⟨hf, h⟩, he⟩
      exact ⟨hf, fun t ht => ⟨h t ht, fun r hr => he r ⟨t, ht, hr⟩⟩⟩

theorem Meets.cond {es' : List ε}
    (h : Meets step C s (es ++ e :: es')) (hrun : run step s es = .ok t) : C t e := by
  induction es generalizing s with
  | nil =>
    obtain rfl : s = t := by simpa using hrun
    exact h.1
  | cons f es ih =>
    rw [run_cons, Checked.bind_eq_ok] at hrun
    obtain ⟨r, hr, hrun⟩ := hrun
    exact ih (h.2 r hr) hrun

theorem Meets.of_append {es' : List ε} (h : Meets step C s (es ++ es')) : Meets step C s es := by
  induction es generalizing s with
  | nil => trivial
  | cons e es ih => exact ⟨h.1, fun t ht => ih (h.2 t ht)⟩

/-- Two step functions that keep a relation under the condition run in lockstep, and
neither of them stops. -/
theorem Meets.lockstep {σ' : Type*} (step' : σ' → ε → Except φ σ')
    {R : σ → σ' → Prop}
    (keep : ∀ {s s' e}, R s s' → C s e → ∃ t t', step s e = .ok t ∧ step' s' e = .ok t' ∧ R t t')
    {s' : σ'} (hs : R s s') (h : Meets step C s es) :
    ∃ t t', run step s es = .ok t ∧ run step' s' es = .ok t' ∧ R t t' := by
  induction es generalizing s s' with
  | nil => exact ⟨s, s', rfl, rfl, hs⟩
  | cons e es ih =>
    obtain ⟨r, r', hr, hr', hrr⟩ := keep hs h.1
    obtain ⟨t, t', ht, ht', htt⟩ := ih hrr (h.2 r hr)
    exact ⟨t, t', by rw [run_cons, hr]; exact ht, by rw [run_cons, hr']; exact ht', htt⟩

theorem Meets.keeps
    (keep : ∀ {s e}, P s → C s e → ∃ t, step s e = .ok t ∧ P t) (hs : P s)
    (h : Meets step C s es) : ∃ t, run step s es = .ok t ∧ P t := by
  induction es generalizing s with
  | nil => exact ⟨s, rfl, hs⟩
  | cons e es ih =>
    obtain ⟨r, hr, hPr⟩ := keep hs h.1
    obtain ⟨t, ht, hPt⟩ := ih hPr (h.2 r hr)
    exact ⟨t, by rw [run_cons, hr]; exact ht, hPt⟩

theorem Meets.invariant
    (keep : ∀ {s e t}, P s → C s e → step s e = .ok t → P t) (hs : P s)
    (hmeets : Meets step C s es) (h : run step s es = .ok t) : P t := by
  induction es generalizing s with
  | nil =>
    obtain rfl : s = t := by simpa using h
    exact hs
  | cons e es ih =>
    rw [run_cons, Checked.bind_eq_ok] at h
    obtain ⟨r, hr, h⟩ := h
    exact ih (keep hs hmeets.1 hr) (hmeets.2 r hr) h

theorem Meets.results
    (keep : ∀ {s e}, P s → C s e → Checked.Results (step s e) P Q) (hs : P s)
    (h : Meets step C s es) : Checked.Results (run step s es) P Q := by
  induction es generalizing s with
  | nil => exact .ok hs
  | cons e es ih =>
    cases hr : step s e with
    | ok t =>
      rw [run_cons, hr]
      exact ih ((keep hs h.1).1 t hr) (h.2 t hr)
    | error f =>
      rw [run_cons, hr]
      exact .error ((keep hs h.1).2 f hr)

theorem Meets.raises
    (keep : ∀ {s e t}, P s → C s e → step s e = .ok t → P t)
    (raises : ∀ {s e}, P s → C s e → Checked.Raises (step s e) Q) (hs : P s)
    (h : Meets step C s es) : Checked.Raises (run step s es) Q := by
  induction es generalizing s with
  | nil => exact .ok s
  | cons e es ih => exact .bind (raises hs h.1) fun t ht => ih (keep hs h.1 ht) (h.2 t ht)

def Ends (step : σ → ε → Except φ σ) (s : σ) (es : List ε) (P : σ → Prop) : Prop :=
  ∃ t, run step s es = .ok t ∧ P t

instance (s : σ) (es : List ε) (P : σ → Prop) [DecidablePred P] : Decidable (Ends step s es P) :=
  match h : run step s es with
  | .ok t => decidable_of_iff (P t) (by simp [Ends, h])
  | .error _ => isFalse (by simp [Ends, h])

def Stops (step : σ → ε → Except φ σ) (s : σ) (es : List ε) (f : φ) : Prop :=
  run step s es = .error f

instance [DecidableEq φ] (s : σ) (es : List ε) (f : φ) : Decidable (Stops step s es f) :=
  match h : run step s es with
  | .ok _ => isFalse (by simp [Stops, h])
  | .error g => decidable_of_iff (g = f) (by simp [Stops, h])

theorem Ends.reachable (h : Ends step s₀ es P) : ∃ t, Reachable step s₀ t ∧ P t := by
  obtain ⟨t, ht, hP⟩ := h
  exact ⟨t, ⟨es, ht⟩, hP⟩

end HetSim.Runs
