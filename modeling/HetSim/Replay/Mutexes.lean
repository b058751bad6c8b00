import HetSim.Library.Lock
import HetSim.Replay.Actions

/-!
# The mutexes refine a lock with hand-off

The operations on one address of every quiet system are a history of the abstract lock, and the
entry of `mutexMap` is the lock it leads to. So there is one owner at a time, and no waiting
engine is lost or served twice.
-/

namespace HetSim.Replay
open Checked Histories Locks World Obs

variable {cfg : Config} {w w' : World} {loc loc' : TREId → Loc} {i j : TREId} {a : Addr}

def Obs.lockOp (a : Addr) : Obs → Option (Op TREId)
  | .lockGranted i b => some (if b = a then .acquire i else .act i)
  | .lockQueued i b => some (if b = a then .enqueue i else .act i)
  | .unlocked i b next => some (if b = a then .release i next else .act i)
  | o => o.actor.map .act

def lockOps (a : Addr) (log : List Obs) : List (Op TREId) := log.filterMap (Obs.lockOp a)

theorem lockOps_append (a : Addr) (l l' : List Obs) :
    lockOps a (l ++ l') = lockOps a l ++ lockOps a l' := List.filterMap_append

variable {o : Obs} {op : Op TREId} {l : Lock TREId}

theorem lockOps_cons (h : o.lockOp a = some op) (l : List Obs) :
    lockOps a (o :: l) = op :: lockOps a l := by simp [lockOps, h]

def World.ownerOf (w : World) (a : Addr) : Option TREId := (w.mutexMap a).bind TREMutex.owner

theorem World.ownerOf_eq {m : TREMutex} (h : w.mutexMap a = some m) : w.ownerOf a = m.owner := by
  simp [ownerOf, h]

structure LockAt (w : World) (a : Addr) (l : Lock TREId) : Prop where
  history : History Step .free (lockOps a w.log) l
  owner : l.owner = w.ownerOf a
  waiting : l.waiting = w.waitingOn a

theorem LockAt.frame (hl : LockAt w a l) (h : Move w loc w' loc')
    (hs : ∀ j, Sound cfg w j (loc j)) (os : List Obs) (hlog : w'.log = w.log ++ os)
    (hops : ∀ o ∈ os, o.lockOp a = o.actor.map .act) (ho : w'.ownerOf a = w.ownerOf a)
    (hw : w'.waitingOn a = w.waitingOn a) : LockAt w' a l := by
  obtain ⟨os', hlog', hact⟩ := h.actors
  obtain rfl : os = os' := List.append_cancel_left (hlog.symm.trans hlog')
  refine ⟨?_, hl.owner.trans ho.symm, hl.waiting.trans hw.symm⟩
  rw [hlog, lockOps_append]
  refine hl.history.stay fun op hop => ?_
  obtain ⟨o, hmem, hop⟩ := List.mem_filterMap.mp hop
  rw [hops o hmem, Option.map_eq_some_iff] at hop
  obtain ⟨k, hk, rfl⟩ := hop
  refine .act fun hwait => ?_
  rw [hl.waiting] at hwait
  have hd := hact k (hs k).placed o hmem hk
  rw [(hs k).registered.of_mem_waitingOn hwait] at hd
  cases hd

/-- One operation on the mutex at `b`, which may be the one at `a`. -/
theorem LockAt.update {b : Addr} {m : TREMutex} (hl : LockAt w a l) (h : Move w loc w' loc')
    (hs : ∀ j, Sound cfg w j (loc j)) (hlog : w'.log = w.log ++ [o])
    (hmap : w'.mutexMap = Function.update w.mutexMap b (some m))
    (hop : o.lockOp a = if b = a then some op else o.actor.map .act)
    (hstep : b = a → ∃ l', Step l op l' ∧ l'.owner = m.owner ∧ l'.waiting = m.waiting) :
    ∃ l', LockAt w' a l' := by
  by_cases hb : b = a
  · subst hb
    obtain ⟨l', hop', ho, hw⟩ := hstep rfl
    have hm : w'.mutexMap b = some m := by rw [hmap, Function.update_self]
    refine ⟨l', ?_, ho.trans (ownerOf_eq hm).symm, hw.trans (waitingOn_eq hm).symm⟩
    rw [hlog, lockOps_append, lockOps_cons (hop.trans (if_pos rfl))]
    exact hl.history.snoc hop'
  · refine ⟨l, hl.frame h hs [o] hlog (by simpa [hb] using hop) ?_ ?_⟩
    · simp [ownerOf, hmap, Ne.symm hb]
    · simp [waitingOn, hmap, Ne.symm hb]

def Obs.Grants (a : Addr) (i : TREId) (o : Obs) : Prop :=
  o = .lockGranted i a ∨ ∃ k, o = .unlocked k a (some i)

theorem Obs.lockOp_cases (h : o.lockOp a = some op) :
    (∃ i, op = .act i ∧ ∀ k next, o ≠ .unlocked k a next) ∨
    (∃ i, op = .acquire i ∧ o = .lockGranted i a) ∨
    (∃ i, op = .enqueue i ∧ o = .lockQueued i a) ∨
    (∃ i next, op = .release i next ∧ o = .unlocked i a next) := by
  cases o with
  | lockGranted i b | lockQueued i b | unlocked i b next =>
    by_cases hb : b = a
    · subst hb
      right
      simpa [lockOp, eq_comm] using h
    · have hop : op = .act i := by simpa [lockOp, hb, eq_comm] using h
      exact .inl ⟨i, hop, by simp [hb]⟩
  | _ =>
    cases h
    all_goals exact .inl ⟨_, rfl, nofun⟩

theorem Obs.grants_iff : o.Grants a i ↔ ∃ op, o.lockOp a = some op ∧ op.Grants i := by
  constructor
  · rintro (rfl | ⟨k, rfl⟩)
    · exact ⟨.acquire i, by simp [lockOp], rfl⟩
    · exact ⟨.release k (some i), by simp [lockOp], rfl⟩
  · rintro ⟨op, hop, hg⟩
    rcases lockOp_cases hop with ⟨k, rfl, -⟩ | ⟨k, rfl, rfl⟩ | ⟨k, rfl, -⟩ | ⟨k, next, rfl, rfl⟩
    · exact hg.elim
    · cases hg
      exact .inl rfl
    · exact hg.elim
    · cases hg
      exact .inr ⟨k, rfl⟩

def Obs.handsTo (a : Addr) (i : TREId) : Obs → Bool
  | .unlocked _ b next => b = a ∧ next = some i
  | _ => false

theorem sum_handsTo (a : Addr) (i : TREId) (l : List Obs) :
    ((lockOps a l).map (Op.handsTo i)).sum = l.countP (handsTo a i) := by
  induction l with
  | nil => rfl
  | cons o l ih =>
    rw [List.countP_cons, ← ih]
    cases hop : o.lockOp a with
    | none =>
      have hno : o.handsTo a i = false := by cases o <;> first | rfl | cases hop
      simp [lockOps, hop, hno]
    | some op =>
      rw [lockOps_cons hop, List.map_cons, List.sum_cons, Nat.add_comm]
      congr 1
      rcases lockOp_cases hop with ⟨k, rfl, hne⟩ | ⟨k, rfl, rfl⟩ | ⟨k, rfl, rfl⟩ | ⟨k, n, rfl, rfl⟩
      · cases o with
        | unlocked k b next =>
          have hb : b ≠ a := fun hb => hne k next (by rw [hb])
          simp [Op.handsTo, handsTo, hb]
        | _ => rfl
      · rfl
      · rfl
      · simp [Op.handsTo, handsTo]

theorem enqueue_mem_lockOps {l : List Obs} (h : .enqueue i ∈ lockOps a l) : lockQueued i a ∈ l := by
  obtain ⟨o, ho, hop⟩ := List.mem_filterMap.mp h
  rcases lockOp_cases hop with ⟨k, hk, -⟩ | ⟨k, hk, -⟩ | ⟨k, hk, rfl⟩ | ⟨k, next, hk, -⟩
  all_goals cases hk
  exact ho

theorem release_mem_lockOps {l : List Obs} {next : Option TREId}
    (h : .release i next ∈ lockOps a l) : unlocked i a next ∈ l := by
  obtain ⟨o, ho, hop⟩ := List.mem_filterMap.mp h
  rcases lockOp_cases hop with ⟨k, hk, -⟩ | ⟨k, hk, -⟩ | ⟨k, hk, -⟩ | ⟨k, n, hk, rfl⟩
  all_goals cases hk
  exact ho

structure LockSafe (w : World) (a : Addr) : Prop where
  free : ∀ m, w.mutexMap a = some m → m.owner = none → m.waiting = []
  apart : ∀ m, w.mutexMap a = some m → ∀ o ∈ m.owner, o ∉ m.waiting
  nodup : ∀ m, w.mutexMap a = some m → m.waiting.Nodup
  owner : ∀ m, w.mutexMap a = some m → m.owner = (lockOps a w.log).foldl Op.owner none
  continues : ∀ i l₁ l₂ o l₃, w.log = l₁ ++ .lockQueued i a :: (l₂ ++ o :: l₃) →
    o.actor = some i → ∃ g ∈ l₂, g.Grants a i
  exclusive : ∀ i j l₁ o l₂ o' l₃, w.log = l₁ ++ o :: (l₂ ++ o' :: l₃) → o.Grants a i →
    o'.Grants a j → ∃ next, .unlocked i a next ∈ l₂ ++ [o']
  served : ∀ i l₁ l₂, w.log = l₁ ++ .lockQueued i a :: l₂ → .lockQueued i a ∉ l₂ →
    l₂.countP (Obs.handsTo a i) + (w.waitingOn a).count i = 1
  servedBefore : ∀ i l₁ l₂ l₃, w.log = l₁ ++ .lockQueued i a :: (l₂ ++ .lockQueued i a :: l₃) →
    .lockQueued i a ∉ l₂ → l₂.countP (Obs.handsTo a i) = 1

theorem lockOp_queued (i : TREId) (a : Addr) : (lockQueued i a).lockOp a = some (.enqueue i) := by
  simp [lockOp]

theorem exists_lockOp_of_actor (h : o.actor = some i) :
    ∃ op, o.lockOp a = some op ∧ op.actor = i := by
  cases o <;> simp_all [Obs.actor, Obs.by?, Obs.lockOp] <;>
    first | rfl | (split_ifs <;> rfl)

theorem LockAt.safe (hl : LockAt w a l) : LockSafe w a := by
  have hown : ∀ m, w.mutexMap a = some m → l.owner = m.owner ∧ l.waiting = m.waiting := fun m hm =>
    ⟨hl.owner.trans (ownerOf_eq hm), hl.waiting.trans (waitingOn_eq hm)⟩
  have hist := hl.history
  refine ⟨fun m hm => ?_, fun m hm => ?_, fun m hm => ?_, fun m hm => ?_, ?_, ?_, ?_, ?_⟩
  · rw [← (hown m hm).1, ← (hown m hm).2]
    exact l.busy
  · rw [← (hown m hm).1, ← (hown m hm).2]
    exact l.apart
  · rw [← (hown m hm).2]
    exact l.nodup
  · rw [← (hown m hm).1]
    exact owner_eq_foldl hist
  · intro i l₁ l₂ o l₃ hlog ho
    obtain ⟨op, hop, hact⟩ := exists_lockOp_of_actor (a := a) ho
    rw [hlog, lockOps_append, lockOps_cons (lockOp_queued i a), lockOps_append,
      lockOps_cons hop] at hist
    obtain ⟨g, hg, hgr⟩ := waits_for_grant hist hact
    obtain ⟨o', ho', hgo⟩ := List.mem_filterMap.mp hg
    exact ⟨o', ho', grants_iff.mpr ⟨g, hgo, hgr⟩⟩
  · intro i j l₁ o l₂ o' l₃ hlog hi hj
    obtain ⟨op, hop, hgi⟩ := grants_iff.mp hi
    obtain ⟨op', hop', hgj⟩ := grants_iff.mp hj
    rw [hlog, lockOps_append, lockOps_cons hop, lockOps_append, lockOps_cons hop'] at hist
    obtain ⟨next, hmem⟩ := mutual_exclusion hist hgi hgj
    refine ⟨next, release_mem_lockOps ?_⟩
    rwa [lockOps_append, lockOps_cons hop']
  · intro i l₁ l₂ hlog hnew
    rw [hlog, lockOps_append, lockOps_cons (lockOp_queued i a)] at hist
    rw [← sum_handsTo, ← hl.waiting]
    exact served_once hist fun hc => hnew (enqueue_mem_lockOps hc)
  · intro i l₁ l₂ l₃ hlog hnew
    rw [hlog, lockOps_append, lockOps_cons (lockOp_queued i a), lockOps_append,
      lockOps_cons (lockOp_queued i a)] at hist
    rw [← sum_handsTo]
    exact served_before hist fun hc => hnew (enqueue_mem_lockOps hc)

end HetSim.Replay
