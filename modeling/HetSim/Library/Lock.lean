import HetSim.Library.Histories

/-!
# A lock with hand-off

A thread that finds the lock taken waits until the owner releases the lock to it. The lock is
never free while a thread waits, the owner does not wait, and no thread waits twice: another lock
cannot be built. Whatever thread the owner chooses, none that waits is lost or served twice.
-/

namespace HetSim.Locks
open Histories List

universe u
variable {α : Type u} [DecidableEq α]

structure Lock (α : Type u) where
  owner : Option α
  waiting : List α
  busy : owner = none → waiting = []
  apart : ∀ o ∈ owner, o ∉ waiting
  nodup : waiting.Nodup

namespace Lock

def free : Lock α := ⟨none, [], fun _ => rfl, nofun, nodup_nil⟩

def taken (i : α) : Lock α := ⟨some i, [], nofun, fun _ _ => not_mem_nil, nodup_nil⟩

def join (l : Lock α) (o i : α) (ho : l.owner = some o) (hne : o ≠ i) (hi : i ∉ l.waiting) :
    Lock α where
  owner := some o
  waiting := l.waiting ++ [i]
  busy := nofun
  apart := by
    rintro _ ⟨⟩
    simp [l.apart o ho, hne]
  nodup := by
    rw [nodup_append_comm, singleton_append, nodup_cons]
    exact ⟨hi, l.nodup⟩

def pass (l : Lock α) (j : α) : Lock α where
  owner := some j
  waiting := l.waiting.erase j
  busy := nofun
  apart := by
    rintro _ ⟨⟩
    exact l.nodup.not_mem_erase
  nodup := l.nodup.erase j

end Lock

/-- Operations, each with the thread it belongs to. `act` is anything else a thread
does; `release i (some j)` hands the lock to `j`. -/
inductive Op (α : Type u)
  | act (i : α)
  | acquire (i : α)
  | enqueue (i : α)
  | release (i : α) (next : Option α)

namespace Op

def actor : Op α → α
  | .act i | .acquire i | .enqueue i | .release i _ => i

def Grants (i : α) : Op α → Prop
  | .acquire j => j = i
  | .release _ next => next = some i
  | _ => False

def owner (o : Option α) : Op α → Option α
  | .acquire i => some i
  | .release _ next => next
  | _ => o

end Op

inductive Step : Lock α → Op α → Lock α → Prop
  | act {l i} (hi : i ∉ l.waiting) : Step l (.act i) l
  | acquire {l i} (h : l.owner = none) : Step l (.acquire i) (.taken i)
  | enqueue {l o i} (ho : l.owner = some o) (hne : o ≠ i) (hi : i ∉ l.waiting) :
      Step l (.enqueue i) (l.join o i ho hne hi)
  | release {l i} (ho : l.owner = some i) (hw : l.waiting = []) : Step l (.release i none) .free
  | handoff {l i j} (ho : l.owner = some i) (hj : j ∈ l.waiting) :
      Step l (.release i (some j)) (l.pass j)

namespace Step

variable {l l' : Lock α} {o : Op α} {i : α}

theorem actor_not_waiting (h : Step l o l') : o.actor ∉ l.waiting := by
  cases h with
  | act hi => exact hi
  | acquire h => simp [l.busy h]
  | enqueue ho hne hi => exact hi
  | release ho hw => simp [hw]
  | handoff ho hj => exact l.apart _ ho

theorem grants_of_leaves (h : Step l o l') (hi : i ∈ l.waiting) (hi' : i ∉ l'.waiting) :
    o.Grants i := by
  cases h with
  | act => exact absurd hi hi'
  | acquire h => simp [l.busy h] at hi
  | enqueue ho hne hj => exact absurd (mem_append_left _ hi) hi'
  | release ho hw => simp [hw] at hi
  | @handoff _ j ho hj =>
    have hij : i = j := by
      by_contra hne
      exact hi' ((mem_erase_of_ne hne).mpr hi)
    rw [hij]
    rfl

theorem release_of_loses (h : Step l o l') (hi : l.owner = some i) (hi' : l'.owner ≠ some i) :
    ∃ next, o = .release i next := by
  cases h with
  | act => exact absurd hi hi'
  | acquire h => simp [h] at hi
  | enqueue ho hne hj => exact absurd (ho.symm.trans hi) hi'
  | release ho hw | handoff ho hj =>
    rw [hi] at ho
    cases ho
    exact ⟨_, rfl⟩

theorem owner_eq (h : Step l o l') : l'.owner = o.owner l.owner := by
  cases h with
  | enqueue ho hne hi => exact ho.symm
  | _ => rfl

theorem owner_of_grants (h : Step l o l') (hg : o.Grants i) : l'.owner = some i := by
  cases h with
  | acquire h =>
    cases hg
    rfl
  | handoff ho hj =>
    cases hg
    rfl
  | act | enqueue => exact hg.elim
  | release => cases hg

theorem owner_before_grants {k : α} (h : Step l o l') (hg : o.Grants i) (hk : l.owner = some k) :
    ∃ next, o = .release k next := by
  cases h with
  | acquire h => simp [h] at hk
  | handoff ho hj =>
    rw [hk] at ho
    cases ho
    exact ⟨_, rfl⟩
  | act | enqueue => exact hg.elim
  | release => cases hg

end Step

section Histories

variable {l l' : Lock α} {h₁ h₂ h₃ : List (Op α)} {i j : α} {o o' : Op α}

theorem owner_eq_foldl {h : List (Op α)} (hist : History Step l h l') :
    l'.owner = h.foldl Op.owner l.owner := by
  induction hist with
  | nil => rfl
  | snoc prior last ih => rw [foldl_append, ← ih, last.owner_eq]; rfl

theorem waits_for_grant (h : History Step l (h₁ ++ .enqueue i :: (h₂ ++ o :: h₃)) l')
    (ho : o.actor = i) : ∃ g ∈ h₂, g.Grants i := by
  obtain ⟨r, r', -, hq, hrest⟩ := h.cut
  obtain ⟨t, t', hmid, hact, -⟩ := hrest.cut
  have hin : i ∈ r'.waiting := by
    cases hq
    exact mem_append_right _ (mem_singleton_self i)
  have hout : i ∉ t.waiting := ho ▸ hact.actor_not_waiting
  obtain ⟨g, hg, u, u', hstep, hu, hu'⟩ := hmid.lost (Q := fun l => i ∈ l.waiting) hin hout
  exact ⟨g, hg, hstep.grants_of_leaves hu hu'⟩

theorem mutual_exclusion (h : History Step l (h₁ ++ o :: (h₂ ++ o' :: h₃)) l') (hi : o.Grants i)
    (hj : o'.Grants j) : ∃ next, .release i next ∈ h₂ ++ [o'] := by
  obtain ⟨r, r', -, hg, hrest⟩ := h.cut
  obtain ⟨t, t', hmid, hg', -⟩ := hrest.cut
  by_cases ht : t.owner = some i
  · obtain ⟨next, rfl⟩ := hg'.owner_before_grants hj ht
    exact ⟨next, by simp⟩
  · obtain ⟨e, he, u, u', hstep, hu, hu'⟩ :=
      hmid.lost (Q := fun l => l.owner = some i) (hg.owner_of_grants hi) ht
    obtain ⟨next, rfl⟩ := hstep.release_of_loses hu hu'
    exact ⟨next, by simp [he]⟩

def Op.handsTo (i : α) (o : Op α) : ℕ :=
  match o with
  | .release _ next => if next = some i then 1 else 0
  | _ => 0

def Op.queues (i : α) (o : Op α) : ℕ :=
  match o with
  | .enqueue j => if j = i then 1 else 0
  | _ => 0

theorem Step.balance (h : Step l o l') (i : α) :
    l'.waiting.count i + o.handsTo i = l.waiting.count i + o.queues i := by
  cases h with
  | act => rfl
  | acquire h => simp [Lock.taken, Op.handsTo, Op.queues, l.busy h]
  | @enqueue k j ho hne hj =>
    simp [Lock.join, Op.handsTo, Op.queues, count_append, count_singleton]
  | release ho hw => simp [Lock.free, Op.handsTo, Op.queues, hw]
  | @handoff k j ho hj =>
    have hpos : 0 < l.waiting.count j := count_pos_iff.mpr hj
    by_cases hij : j = i
    · subst hij
      simp only [Lock.pass, Op.handsTo, Op.queues, count_erase_self, if_true]
      omega
    · simp [Lock.pass, Op.handsTo, Op.queues, hij, count_erase_of_ne (Ne.symm hij)]

theorem served_once (h : History Step l (h₁ ++ .enqueue i :: h₂) l') (hnew : .enqueue i ∉ h₂) :
    (h₂.map (Op.handsTo i)).sum + l'.waiting.count i = 1 := by
  obtain ⟨r, r', -, hq, hrest⟩ := h.cut
  have hstart : r'.waiting.count i = 1 := by
    cases hq with
    | enqueue ho hne hi =>
      simp [Lock.join, count_append, count_eq_zero_of_not_mem hi]
  have hzero : (h₂.map (Op.queues i)).sum = 0 := by
    refine sum_eq_zero fun n hn => ?_
    obtain ⟨e, he, rfl⟩ := mem_map.mp hn
    cases e with
    | enqueue k =>
      have hk : k ≠ i := fun hk => hnew (hk ▸ he)
      simp [Op.queues, hk]
    | _ => rfl
  have hbal := hrest.balance (f := fun l => l.waiting.count i) fun r e r' hs => hs.balance i
  omega

theorem served_before (h : History Step l (h₁ ++ .enqueue i :: (h₂ ++ .enqueue i :: h₃)) l')
    (hnew : .enqueue i ∉ h₂) : (h₂.map (Op.handsTo i)).sum = 1 := by
  rw [← cons_append, ← append_assoc] at h
  obtain ⟨t, t', hprior, hq, -⟩ := h.cut
  have hserved := served_once hprior hnew
  have hout : t.waiting.count i = 0 := count_eq_zero.mpr hq.actor_not_waiting
  omega

end Histories

end HetSim.Locks
