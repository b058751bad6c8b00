import Mathlib

/-!
# State that is caught up lazily

A state is caught up with the time `t` by `sync t`. Touching a part catches up that part only; a
change first catches up everything. Then the state, once caught up, depends on the changes alone.
-/

namespace HetSim.Lazy

universe u v w
variable {σ : Type u} {ι : Type v} {κ : Type w}

inductive Call (ι : Type v) (κ : Type w)
  | touch (i : ι)
  | change (k : κ)

def Call.change? : ℕ × Call ι κ → Option (ℕ × κ)
  | (t, .change k) => some (t, k)
  | (_, .touch _) => none

def changes (calls : List (ℕ × Call ι κ)) : List (ℕ × κ) := calls.filterMap Call.change?

def Timed (calls : List (ℕ × Call ι κ)) (t : ℕ) : Prop :=
  calls.Pairwise (fun c c' => c.1 ≤ c'.1) ∧ ∀ c ∈ calls, c.1 ≤ t

section

variable (touch : ι → ℕ → σ → σ) (change : κ → ℕ → σ → σ)

def apply (s : σ) : ℕ × Call ι κ → σ
  | (t, .touch i) => touch i t s
  | (t, .change k) => change k t s

def run (s : σ) (calls : List (ℕ × Call ι κ)) : σ := calls.foldl (apply touch change) s

def replay (s : σ) (cs : List (ℕ × κ)) : σ := cs.foldl (fun s c => change c.2 c.1 s) s

end

structure Catches (sync : ℕ → σ → σ) (touch : ι → ℕ → σ → σ) (change : κ → ℕ → σ → σ) : Prop where
  touch : ∀ i t t' s, t' ≤ t → sync t (touch i t' s) = sync t s
  change : ∀ k t s, change k t (sync t s) = change k t s

variable {sync : ℕ → σ → σ} {touch : ι → ℕ → σ → σ} {change : κ → ℕ → σ → σ}
  {calls calls' : List (ℕ × Call ι κ)} {t : ℕ}

theorem Timed.concat {c : ℕ × Call ι κ} (h : Timed (calls ++ [c]) t) :
    Timed calls c.1 ∧ c.1 ≤ t := by
  obtain ⟨hsorted, hle⟩ := h
  obtain ⟨hcalls, -, hlast⟩ := List.pairwise_append.mp hsorted
  exact ⟨⟨hcalls, fun c' hc' => hlast c' hc' c (by simp)⟩, hle c (by simp)⟩

theorem Timed.of_append_right (h : Timed (calls ++ calls') t) : Timed calls' t :=
  ⟨(List.pairwise_append.mp h.1).2.1, fun c hc => h.2 c (List.mem_append_right _ hc)⟩

theorem Timed.mono {t' : ℕ} (h : Timed calls t) (ht : t ≤ t') : Timed calls t' :=
  ⟨h.1, fun c hc => (h.2 c hc).trans ht⟩

theorem sync_run (hc : Catches sync touch change) (s : σ) (h : Timed calls t) :
    sync t (run touch change s calls) = sync t (replay change s (changes calls)) := by
  induction calls using List.reverseRecOn generalizing t with
  | nil => rfl
  | append_singleton calls c ih =>
    obtain ⟨hcalls, hct⟩ := h.concat
    obtain ⟨t', c⟩ := c
    rw [run, List.foldl_append, changes, List.filterMap_append]
    cases c with
    | touch i =>
      have hkeep : sync t (touch i t' (run touch change s calls)) =
          sync t (run touch change s calls) := hc.touch i t t' _ hct
      rw [show List.filterMap Call.change? [(t', (Call.touch i : Call ι κ))] = [] from rfl,
        List.append_nil]
      exact hkeep.trans (ih (hcalls.mono hct))
    | change k =>
      -- The change sees a state that is caught up, where the two runs agree.
      have hsync : change k t' (run touch change s calls) =
          change k t' (replay change s (changes calls)) := by
        rw [← hc.change, ih hcalls, hc.change]
      rw [show List.filterMap Call.change? [(t', (Call.change k : Call ι κ))] = [(t', k)] from rfl,
        replay, List.foldl_append]
      exact congrArg (sync t) hsync

theorem sync_run_eq (hc : Catches sync touch change) (s : σ) (h : Timed calls t)
    (h' : Timed calls' t) (hsame : changes calls = changes calls') :
    sync t (run touch change s calls) = sync t (run touch change s calls') := by
  rw [sync_run hc s h, sync_run hc s h', hsame]

end HetSim.Lazy
