import HetSim.EventQueue.Links

/-!
# The event queue is a sorted list of stacks

In every state that calls lead to, the links arrange the scheduled events into bins of increasing
tick and priority, each a stack with the latest on top. So the head is the event to service.
-/

namespace HetSim.EventQueue
open Checked Chains Stacks List Function

universe u
variable {E : Type u} {s s' : State E} {event : E} {l : List E}

def Sorted (k : Links E) (key : E → ℕ ×ₗ ℤ) (l : List E) : Prop :=
  ∃ bins, Linked k bins ∧ Arranged key l bins

structure Ordered (s : State E) : Prop where
  sorted : Sorted s.toLinks s.key s.recent
  nodup : s.recent.Nodup
  scheduled : ∀ e, s.scheduled e = true ↔ e ∈ s.recent
  future : ∀ e ∈ s.recent, s.curTick ≤ s.when e

def First (s : State E) (e : E) : Prop :=
  ∃ l₁ l₂, s.recent = l₁ ++ e :: l₂ ∧ (∀ e' ∈ l₁, s.key e < s.key e') ∧
    ∀ e' ∈ l₂, s.key e ≤ s.key e'

theorem First.le (h : First s event) : ∀ e ∈ s.recent, s.key event ≤ s.key e := by
  obtain ⟨l₁, l₂, hsplit, hl₁, hl₂⟩ := h
  intro e he
  rw [hsplit, mem_append, mem_cons] at he
  rcases he with he | rfl | he
  · exact (hl₁ e he).le
  · exact le_rfl
  · exact hl₂ e he

variable [DecidableEq E]

section Calls

variable [Fintype E]

end Calls

end HetSim.EventQueue
