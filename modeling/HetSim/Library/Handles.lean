import Mathlib.Data.List.Nodup
import Mathlib.Data.List.Perm.Basic
import Mathlib.Logic.Function.Basic

/-!
# Lists of elements that know their place

The elements of a linked list hold an iterator to their own node. A new node gets a new identity,
so an iterator to a node that is gone never meets another one.
-/

namespace HetSim.Handles
open Function

structure Node (α : Type*) where
  id : ℕ
  value : α
  deriving DecidableEq

variable {α : Type*} {iter iter' : α → ℕ} {l pre post : List (Node α)} {a b : α} {fresh fresh' : ℕ}

def values (l : List (Node α)) : List α := l.map Node.value

def ids (l : List (Node α)) : List ℕ := l.map Node.id

structure Linked (fresh : ℕ) (iter : α → ℕ) (l : List (Node α)) : Prop where
  leads : ∀ node ∈ l, ∀ a, iter a = node.id ↔ a = node.value
  nodup : (values l).Nodup
  bound : ∀ a, iter a < fresh

namespace Linked

theorem nil (h : ∀ a, iter a < fresh) : Linked fresh iter [] := ⟨nofun, List.nodup_nil, h⟩

theorem mem_ids (h : Linked fresh iter l) : iter a ∈ ids l ↔ a ∈ values l := by
  constructor
  · intro hmem
    obtain ⟨node, hnode, hid⟩ := List.mem_map.mp hmem
    exact List.mem_map.mpr ⟨node, hnode, ((h.leads node hnode a).mp hid.symm).symm⟩
  · intro hmem
    obtain ⟨node, hnode, rfl⟩ := List.mem_map.mp hmem
    exact List.mem_map.mpr ⟨node, hnode, ((h.leads node hnode _).mpr rfl).symm⟩

theorem mono (h : Linked fresh iter l) (hle : fresh ≤ fresh') : Linked fresh' iter l :=
  ⟨h.leads, h.nodup, fun a => Nat.lt_of_lt_of_le (h.bound a) hle⟩

theorem perm {l' : List (Node α)} (h : Linked fresh iter l) (hperm : l'.Perm l) :
    Linked fresh iter l' :=
  ⟨fun node hnode => h.leads node (hperm.mem_iff.mp hnode),
    (hperm.map Node.value).nodup_iff.mpr h.nodup, h.bound⟩

theorem update [DecidableEq α] (h : Linked fresh iter l) (ha : a ∉ values l) :
    Linked (fresh + 1) (update iter a fresh) l := by
  constructor
  · intro node hnode b
    have hvalue : node.value ∈ values l := List.mem_map_of_mem hnode
    by_cases hb : b = a
    · subst hb
      have hid : node.id < fresh := by
        rw [← (h.leads node hnode _).mpr rfl]
        exact h.bound _
      rw [update_self]
      constructor
      · intro heq
        omega
      · intro heq
        exact absurd (heq ▸ hvalue) ha
    · rw [update_of_ne hb]
      exact h.leads node hnode b
  · exact h.nodup
  · intro b
    by_cases hb : b = a
    · rw [hb, update_self]
      exact Nat.lt_succ_self fresh
    · rw [update_of_ne hb]
      exact Nat.lt_succ_of_lt (h.bound b)

theorem insert [DecidableEq α] (h : Linked fresh iter (pre ++ post))
    (ha : a ∉ values (pre ++ post)) :
    Linked (fresh + 1) (Function.update iter a fresh) (pre ++ ⟨fresh, a⟩ :: post) := by
  have hperm : (pre ++ ⟨fresh, a⟩ :: post).Perm (⟨fresh, a⟩ :: (pre ++ post)) := List.perm_middle
  have hold := h.update ha
  apply Linked.perm _ hperm
  refine ⟨fun node hnode b => ?_, List.nodup_cons.mpr ⟨ha, h.nodup⟩, hold.bound⟩
  rcases List.mem_cons.mp hnode with rfl | hnode
  · by_cases hb : b = a
    · simp [hb]
    · rw [Function.update_of_ne hb]
      constructor
      · intro heq
        exact absurd heq (Nat.ne_of_lt (h.bound b))
      · exact fun heq => absurd heq hb
  · exact hold.leads node hnode b

theorem erase (h : Linked fresh iter l) (a : α) : Linked fresh iter (l.filter (·.id ≠ iter a)) :=
  ⟨fun node hnode => h.leads node (List.mem_of_mem_filter hnode),
    h.nodup.sublist (List.filter_sublist.map _), h.bound⟩

theorem values_erase [DecidableEq α] (h : Linked fresh iter l) (a : α) :
    values (l.filter (·.id ≠ iter a)) = (values l).erase a := by
  rw [h.nodup.erase_eq_filter, values, values, List.filter_map]
  congr 1
  apply List.filter_congr
  intro node hnode
  change decide (node.id ≠ iter a) = (node.value != a)
  rw [bne, beq_eq_decide, ← decide_not, decide_eq_decide, not_iff_not, eq_comm,
    h.leads node hnode a, eq_comm]

end Linked

end HetSim.Handles
