import HetSim.Library.Histories

/-!
# A barrier that is used again and again

A barrier of `n` threads collects arrivals until there are `n`, releases them as one batch and
starts over. The arrivals are the batches one after the other and then the threads that wait.
-/

namespace HetSim.Barriers
open Histories List

universe u
variable {α : Type u} {n : ℕ}

structure Barrier (α : Type u) (n : ℕ) where
  arrived : List α
  nodup : arrived.Nodup
  room : arrived.length ≤ n

namespace Barrier

def empty : Barrier α n := ⟨[], nodup_nil, Nat.zero_le n⟩

def join (b : Barrier α n) (i : α) (hi : i ∉ b.arrived) (hn : b.arrived.length < n) :
    Barrier α n where
  arrived := b.arrived ++ [i]
  nodup := by
    rw [nodup_append_comm, singleton_append, nodup_cons]
    exact ⟨hi, b.nodup⟩
  room := by
    rw [length_append, length_singleton]
    exact hn

end Barrier

inductive Op (α : Type u)
  | act (i : α)
  | arrive (i : α)
  | release (batch : List α)

namespace Op

def actor : Op α → Option α
  | .act i | .arrive i => some i
  | .release _ => none

def arrival : Op α → Option α
  | .arrive i => some i
  | _ => none

def batch : Op α → Option (List α)
  | .release l => some l
  | _ => none

end Op

inductive Step : Barrier α n → Op α → Barrier α n → Prop
  | act {b i} (hi : i ∉ b.arrived) : Step b (.act i) b
  | arrive {b i} (hi : i ∉ b.arrived) (hn : b.arrived.length < n) :
      Step b (.arrive i) (b.join i hi hn)
  | release {b} (hn : b.arrived.length = n) : Step b (.release b.arrived) .empty

namespace Step

variable {b b' : Barrier α n} {o : Op α} {i : α}

theorem actor_not_arrived (h : Step b o b') (ho : o.actor = some i) : i ∉ b.arrived := by
  cases h with
  | act hi | arrive hi =>
    cases ho
    exact hi
  | release => cases ho

theorem released_of_leaves (h : Step b o b') (hi : i ∈ b.arrived) (hi' : i ∉ b'.arrived) :
    ∃ l, o = .release l ∧ i ∈ l := by
  cases h with
  | act => exact absurd hi hi'
  | arrive hj hn => exact absurd (mem_append_left _ hi) hi'
  | release hn => exact ⟨_, rfl, hi⟩

end Step

section Histories

variable {b : Barrier α n} {h₁ h₂ h₃ : List (Op α)} {i : α} {o : Op α}

theorem arrivals_eq {h : List (Op α)} (hist : History Step (.empty : Barrier α n) h b) :
    h.filterMap Op.arrival = (h.filterMap Op.batch).flatten ++ b.arrived := by
  induction hist with
  | nil => rfl
  | snoc prior last ih =>
    rw [filterMap_append, ih, filterMap_append, flatten_append]
    cases last with
    | act => simp [filterMap_cons, Op.arrival, Op.batch]
    | arrive => simp [Op.arrival, Op.batch, Barrier.join]
    | release => simp [Op.arrival, Op.batch, Barrier.empty]

theorem batch_full {l : List α}
    (h : History Step (.empty : Barrier α n) (h₁ ++ .release l :: h₂) b) :
    l.length = n ∧ l.Nodup ∧ h₁.filterMap Op.arrival = (h₁.filterMap Op.batch).flatten ++ l := by
  obtain ⟨r, r', hprior, hrel, -⟩ := h.cut
  cases hrel with
  | release hn => exact ⟨hn, r.nodup, arrivals_eq hprior⟩

theorem arrivals_length {h : List (Op α)} (hist : History Step (.empty : Barrier α n) h b) :
    (h.filterMap Op.arrival).length = n * (h.filterMap Op.batch).length + b.arrived.length := by
  induction hist with
  | nil => simp [Barrier.empty]
  | snoc prior last ih =>
    rw [filterMap_append, length_append, ih, filterMap_append, length_append]
    cases last with
    | act => simp [filterMap_cons, Op.arrival, Op.batch]
    | arrive => simp [filterMap_cons, Op.arrival, Op.batch, Barrier.join, Nat.add_assoc]
    | release hn => simp [filterMap_cons, Op.arrival, Op.batch, Barrier.empty, hn, Nat.mul_add]

theorem waits_for_release {b₀ : Barrier α n}
    (h : History Step b₀ (h₁ ++ .arrive i :: (h₂ ++ o :: h₃)) b) (ho : o.actor = some i) :
    ∃ l, .release l ∈ h₂ ∧ i ∈ l := by
  obtain ⟨r, r', -, harr, hrest⟩ := h.cut
  obtain ⟨t, t', hmid, hact, -⟩ := hrest.cut
  have hin : i ∈ r'.arrived := by
    cases harr
    exact mem_append_right _ (mem_singleton_self i)
  obtain ⟨e, he, u, u', hstep, hu, hu'⟩ :=
    hmid.lost (Q := fun b => i ∈ b.arrived) hin (hact.actor_not_arrived ho)
  obtain ⟨l, rfl, hl⟩ := hstep.released_of_leaves hu hu'
  exact ⟨l, he, hl⟩

end Histories

end HetSim.Barriers
