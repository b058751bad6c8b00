import HetSim.Replay.Placement

/-!
# Who holds a suspended engine

`Registered w j ℓ`: the shared objects agree with the location of engine `j`: it stands once in
the list or slot it waits in, and nowhere else. A WAKE does not look at where its target is.
`Calm j`: every WAKE so far found `j` asleep; then the others touch `j` only through the object
that holds it.
-/

namespace HetSim.Replay

open List Function
open Channels (Side)

variable {w w' : World} {loc loc' : TREId → Loc} {i j : TREId} {side : Side}

namespace World

def waitingOn (w : World) (a : Addr) : List TREId :=
  match w.mutexMap a with
  | some m => m.waiting
  | none => []

def arrivedAt (w : World) (a : Addr) : List TREId :=
  match w.barrierMap a with
  | some b => b.arrived
  | none => []

def pushSlot (w : World) (k : TREId × TREId) : Option TREId :=
  (w.queues k).bind TREQueue.waitingToPush

def popSlot (w : World) (k : TREId × TREId) : Option TREId :=
  (w.queues k).bind TREQueue.waitingToPop

def waiter (w : World) (side : Side) (k : TREId × TREId) : Option TREId :=
  (w.queues k).bind (·.slot side)

variable {a : Addr} {m : TREMutex} {b : TREBarrier} {k : TREId × TREId} {q : TREQueue}
  {l : List Obs} {ℓ' : Loc}

theorem waitingOn_eq (h : w.mutexMap a = some m) :
    w.waitingOn a = m.waiting := by simp [waitingOn, h]

theorem arrivedAt_eq (h : w.barrierMap a = some b) :
    w.arrivedAt a = b.arrived := by simp [arrivedAt, h]

theorem waiter_eq (h : w.queues k = some q) (side : Side) :
    w.waiter side k = q.slot side := by simp [waiter, h]

section Views

variable (w : World) (i : TREId) (s : TRE) (o : Obs) (a : Addr) (m : TREMutex) (b : TREBarrier)
  (k : TREId × TREId) (q : TREQueue)

@[simp] theorem set_waitingOn : (w.set i s).waitingOn = w.waitingOn := rfl
@[simp] theorem set_arrivedAt : (w.set i s).arrivedAt = w.arrivedAt := rfl
@[simp] theorem set_waiter : (w.set i s).waiter = w.waiter := rfl
@[simp] theorem emit_waitingOn : (w.emit o).waitingOn = w.waitingOn := rfl
@[simp] theorem emit_arrivedAt : (w.emit o).arrivedAt = w.arrivedAt := rfl
@[simp] theorem emit_waiter : (w.emit o).waiter = w.waiter := rfl
@[simp] theorem setMutex_arrivedAt : (w.setMutex a m).arrivedAt = w.arrivedAt := rfl
@[simp] theorem setMutex_waiter : (w.setMutex a m).waiter = w.waiter := rfl
@[simp] theorem setBarrier_waitingOn : (w.setBarrier a b).waitingOn = w.waitingOn := rfl
@[simp] theorem setBarrier_waiter : (w.setBarrier a b).waiter = w.waiter := rfl
@[simp] theorem setQueue_waitingOn : (w.setQueue k q).waitingOn = w.waitingOn := rfl
@[simp] theorem setQueue_arrivedAt : (w.setQueue k q).arrivedAt = w.arrivedAt := rfl

end Views

@[simp] theorem setMutex_waitingOn (w : World) (a : Addr) (m : TREMutex) :
    (w.setMutex a m).waitingOn = update w.waitingOn a m.waiting := by
  funext b
  by_cases hb : b = a
  · subst hb
    simp [waitingOn]
  · simp [waitingOn, hb]

@[simp] theorem setBarrier_arrivedAt (w : World) (a : Addr) (b : TREBarrier) :
    (w.setBarrier a b).arrivedAt = update w.arrivedAt a b.arrived := by
  funext c
  by_cases hc : c = a
  · subst hc
    simp [arrivedAt]
  · simp [arrivedAt, hc]

@[simp] theorem setQueue_waiter (w : World) (k : TREId × TREId) (q : TREQueue) :
    (w.setQueue k q).waiter side = update (w.waiter side) k (q.slot side) := by
  funext l
  by_cases hl : l = k
  · subst hl
    simp [waiter]
  · simp [waiter, hl]

end World

def Obs.sleeps (j : TREId) (b : Bool) : Obs → Bool
  | .slept i => if i = j then true else b
  | .woke _ _ t => if t = j then false else b
  | _ => b

def sleeping (j : TREId) (log : List Obs) : Bool := log.foldl (Obs.sleeps j) false

def Calm (j : TREId) (log : List Obs) : Prop :=
  ∀ l₁ i d l₂, log = l₁ ++ .woke i d j :: l₂ → sleeping j l₁ = true

theorem Calm.of_append {l' : List Obs} (h : Calm j (l ++ l')) : Calm j l := by
  intro l₁ i d l₂ hl
  apply h l₁ i d (l₂ ++ l')
  rw [hl]
  simp

variable {d : UInt32} {idx : ℕ} {other : TREId}

theorem Calm.last (h : Calm j (l ++ [.woke i d j])) :
    sleeping j l = true := h l i d [] rfl

theorem Calm.of_forall_ne (h : ∀ i d, Obs.woke i d j ∉ l) : Calm j l := by
  intro l₁ i d l₂ hl
  exact absurd (by rw [hl]; simp) (h i d)

structure Registered (w : World) (j : TREId) (ℓ : Loc) : Prop where
  mutex : ∀ a, (w.waitingOn a).count j = if ℓ = .mutex a then 1 else 0
  barrier : ∀ a, (w.arrivedAt a).count j = if ℓ = .barrier a then 1 else 0
  slot : ∀ side k, w.waiter side k = some j ↔
    ∃ other, ℓ = .queue side other ∧ k = queueKey j other side
  asleep : sleeping j w.log = true ↔ ℓ = .asleep
  halted : Obs.halted j ∈ w.log ↔ ℓ = .halted
  present : j ∈ w.allTREs ↔ ℓ ≠ .absent

def Loc.detached : Loc → Bool
  | .tick | .prim _ | .retry | .blocked | .awake | .holding _ | .ready _ => true
  | _ => false

structure Free (w : World) (j : TREId) : Prop where
  mutex : ∀ a, j ∉ w.waitingOn a
  barrier : ∀ a, j ∉ w.arrivedAt a
  slot : ∀ side k, w.waiter side k ≠ some j
  asleep : sleeping j w.log = false
  halted : Obs.halted j ∉ w.log
  present : j ∈ w.allTREs

structure Unmoved (w w' : World) (j : TREId) : Prop where
  mutex : ∀ a, (w'.waitingOn a).count j = (w.waitingOn a).count j
  barrier : ∀ a, (w'.arrivedAt a).count j = (w.arrivedAt a).count j
  slot : ∀ side k, w'.waiter side k = some j ↔ w.waiter side k = some j
  asleep : sleeping j w'.log = sleeping j w.log
  halted : Obs.halted j ∈ w'.log ↔ Obs.halted j ∈ w.log
  present : j ∈ w'.allTREs ↔ j ∈ w.allTREs

namespace Registered

variable {ℓ ℓ' : Loc}

theorem unmoved (hr : Registered w j ℓ) (h : Unmoved w w' j) : Registered w' j ℓ where
  mutex a := (h.mutex a).trans (hr.mutex a)
  barrier a := (h.barrier a).trans (hr.barrier a)
  slot side k := (h.slot side k).trans (hr.slot side k)
  asleep := by rw [h.asleep, hr.asleep]
  halted := h.halted.trans hr.halted
  present := h.present.trans hr.present

theorem free (hr : Registered w j ℓ) (h : ℓ.detached = true) : Free w j where
  mutex a := by
    have hm := hr.mutex a
    rw [if_neg (by rintro rfl; cases h)] at hm
    exact count_eq_zero.mp hm
  barrier a := by
    have hb := hr.barrier a
    rw [if_neg (by rintro rfl; cases h)] at hb
    exact count_eq_zero.mp hb
  slot side k hk := by
    obtain ⟨other, rfl, -⟩ := (hr.slot side k).mp hk
    cases h
  asleep := by
    rw [← Bool.not_eq_true, hr.asleep]
    rintro rfl
    cases h
  halted := by
    rw [hr.halted]
    rintro rfl
    cases h
  present := by
    rw [hr.present]
    rintro rfl
    cases h

end Registered

namespace Free

variable {ℓ : Loc}

theorem registered (h : Free w j) (hℓ : ℓ.detached = true) : Registered w j ℓ where
  mutex a := by
    rw [if_neg (by rintro rfl; cases hℓ), count_eq_zero]
    exact h.mutex a
  barrier a := by
    rw [if_neg (by rintro rfl; cases hℓ), count_eq_zero]
    exact h.barrier a
  slot side k := by
    refine ⟨fun hk => absurd hk (h.slot side k), ?_⟩
    rintro ⟨other, rfl, -⟩
    cases hℓ
  asleep := by
    rw [h.asleep]
    constructor <;> rintro ⟨⟩
    cases hℓ
  halted := by
    refine ⟨fun hh => absurd hh h.halted, ?_⟩
    rintro rfl
    cases hℓ
  present := by
    refine ⟨fun _ => ?_, fun _ => h.present⟩
    rintro rfl
    cases hℓ

end Free

namespace Unmoved

theorem trans {w'' : World} (h : Unmoved w w' j) (h' : Unmoved w' w'' j) : Unmoved w w'' j where
  mutex a := (h'.mutex a).trans (h.mutex a)
  barrier a := (h'.barrier a).trans (h.barrier a)
  slot side k := (h'.slot side k).trans (h.slot side k)
  asleep := h'.asleep.trans h.asleep
  halted := h'.halted.trans h.halted
  present := h'.present.trans h.present

theorem set (w : World) (i : TREId) (s : TRE) : Unmoved w (w.set i s) j :=
  ⟨fun _ => rfl, fun _ => rfl, fun _ _ => .rfl, rfl, .rfl, .rfl⟩

theorem emit {o : Obs} (hs : ∀ b, Obs.sleeps j b o = b) (hh : o ≠ .halted j) :
    Unmoved w (w.emit o) j := by
  refine ⟨fun _ => rfl, fun _ => rfl, fun _ _ => .rfl, ?_, ?_, .rfl⟩
  · simp [sleeping, hs]
  · simp [hh.symm]

theorem setMutex (h : m.waiting.count j = (w.waitingOn a).count j) :
    Unmoved w (w.setMutex a m) j := by
  refine ⟨fun b => ?_, fun _ => rfl, fun _ _ => .rfl, rfl, .rfl, .rfl⟩
  by_cases hb : b = a
  · subst hb
    simpa using h
  · simp [hb]

theorem setBarrier (h : b.arrived.count j = (w.arrivedAt a).count j) :
    Unmoved w (w.setBarrier a b) j := by
  refine ⟨fun _ => rfl, fun c => ?_, fun _ _ => .rfl, rfl, .rfl, .rfl⟩
  by_cases hc : c = a
  · subst hc
    simpa using h
  · simp [hc]

theorem setQueue (h : ∀ side, q.slot side = some j ↔ w.waiter side k = some j) :
    Unmoved w (w.setQueue k q) j := by
  refine ⟨fun _ => rfl, fun _ => rfl, fun side l => ?_, rfl, .rfl, .rfl⟩
  by_cases hl : l = k
  · subst hl
    simpa using h side
  · simp [hl]

end Unmoved

theorem OwnMove.detached {s s' : TRE} {ℓ : Loc} {e : Option Effect} (h : OwnMove ℓ s e ℓ' s')
    (hp : Placed s ℓ) : (ℓ.detached = true ∧ ℓ'.detached = true) ∨ ℓ' = ℓ := by
  cases h with
  | firePrim p hs =>
    obtain rfl := (hp.prim p).mp hs
    exact .inl ⟨rfl, rfl⟩
  | response hk hf hn ht => exact .inr rfl
  | responseTick hk hf hn ht hb =>
    rcases hp.blocked hb with rfl | rfl | rfl
    all_goals exact .inl ⟨rfl, rfl⟩
  | retried hq hb ht =>
    obtain rfl := hp.retry.mp (by simp [hq])
    exact .inl ⟨rfl, rfl⟩
  | retriedBlocked hq hb =>
    obtain rfl := hp.retry.mp (by simp [hq])
    exact .inl ⟨rfl, rfl⟩
  | _ => exact .inl ⟨rfl, rfl⟩

theorem Registered.step (hr : Registered w j (loc j))
    (hself : j = i → Registered w i (loc i) → Registered w' i ℓ')
    (hother : j ≠ i → Unmoved w w' j) :
    Registered w' j (update loc i ℓ' j) := by
  by_cases hj : j = i
  · subst hj
    rw [update_self]
    exact hself rfl hr
  · rw [update_of_ne hj]
    exact hr.unmoved (hother hj)

theorem Registered.update (hr : Registered w j (loc j)) (hu : Unmoved w w' j)
    (hℓ : j = i → (loc i).detached = true) (hℓ' : ℓ'.detached = true) :
    Registered w' j (update loc i ℓ' j) :=
  hr.step (fun hj hr => ((hr.unmoved (hj ▸ hu)).free (hℓ hj)).registered hℓ') fun _ => hu

theorem Unmoved.log_append {os : List Obs} (h : ∀ o ∈ os, o.isPrivate i = true) :
    Unmoved w { w with log := w.log ++ os } j := by
  refine ⟨fun _ => rfl, fun _ => rfl, fun _ _ => .rfl, ?_, ?_, .rfl⟩
  · have hs : ∀ b, os.foldl (Obs.sleeps j) b = b := by
      intro b
      induction os generalizing b with
      | nil => rfl
      | cons o os ih =>
        have ho := h o mem_cons_self
        rw [foldl_cons, ih (fun o' ho' => h o' (mem_cons_of_mem _ ho'))]
        cases o <;> first | rfl | cases ho
    simp [sleeping, foldl_append, hs]
  · have hh : Obs.halted j ∉ os := by
      intro hmem
      have := h _ hmem
      cases this
    simp [hh]

@[simp] theorem wakeSlot_waiter (w : World) (slot : Option TREId) (p : Prim) :
    (wakeSlot w slot p).waiter = w.waiter := by cases slot <;> rfl

@[simp] theorem wakeSlot_log (w : World) (slot : Option TREId) (p : Prim) :
    (wakeSlot w slot p).log = w.log := by cases slot <;> rfl

theorem wakeSlot_tre (w : World) (slot : Option TREId) (p : Prim) (j : TREId) :
    (wakeSlot w slot p).tre j =
      if slot = some j then (w.tre j).setFlag (.prim p) true else w.tre j := by
  cases slot with
  | none => rfl
  | some t =>
    by_cases hj : j = t
    · subst hj
      simp [wakeSlot]
    · simp [wakeSlot, hj, Ne.symm hj]

theorem wakeLoc_apply (loc : TREId → Loc) (slot : Option TREId) (p : Prim) (j : TREId) :
    wakeLoc loc slot p j = if slot = some j then .prim p else loc j := by
  cases slot with
  | none => rfl
  | some t =>
    by_cases hj : j = t
    · subst hj
      simp [wakeLoc]
    · simp [wakeLoc, hj, Ne.symm hj]

theorem Unmoved.wakeSlot (w : World) (slot : Option TREId) (p : Prim) :
    Unmoved w (wakeSlot w slot p) j := by
  cases slot with
  | none => exact ⟨fun _ => rfl, fun _ => rfl, fun _ _ => .rfl, rfl, .rfl, .rfl⟩
  | some t => exact .set w t _

section Handover

variable {a : Addr} {ℓ : Loc}

theorem Registered.of_mem_waitingOn (hr : Registered w j ℓ) (h : j ∈ w.waitingOn a) :
    ℓ = .mutex a := by
  by_contra hc
  have hm := hr.mutex a
  rw [if_neg hc, count_eq_zero] at hm
  exact hm h

theorem Registered.of_mem_arrivedAt (hr : Registered w j ℓ) (h : j ∈ w.arrivedAt a) :
    ℓ = .barrier a := by
  by_contra hc
  have hb := hr.barrier a
  rw [if_neg hc, count_eq_zero] at hb
  exact hb h

theorem count_eraseIdx {l : List TREId} {t : TREId} (h : l[idx]? = some t) :
    l.count j = (l.eraseIdx idx).count j + if t = j then 1 else 0 := by
  obtain ⟨hlt, rfl⟩ := List.getElem?_eq_some_iff.mp h
  rw [← (getElem_cons_eraseIdx_perm hlt).count_eq, count_cons]
  simp

theorem Free.queueUp (h : Free w j) (hm : m.waiting = w.waitingOn a ++ [j]) :
    Registered (w.setMutex a m) j (.mutex a) := by
  obtain ⟨h1, h2, h3, h4, h5, h6⟩ := h.registered (ℓ := .tick) rfl
  constructor <;> simp_all [update_apply]
  intro b
  rcases eq_or_ne b a with rfl | hb
  · simp [h1]
  · simp [hb, hb.symm, h1]

theorem Registered.handoff (hr : Registered w j (.mutex a))
    (hidx : (w.waitingOn a)[idx]? = some j) (hm : m.waiting = (w.waitingOn a).eraseIdx idx) :
    Registered (w.setMutex a m) j .tick := by
  obtain ⟨h1, h2, h3, h4, h5, h6⟩ := hr
  have hc := h1 a
  rw [count_eraseIdx hidx, if_pos rfl, if_pos rfl] at hc
  constructor <;> simp_all [update_apply]
  intro b
  rcases eq_or_ne b a with rfl | hb
  · simpa using hc
  · simp [hb, hb.symm, h1]

theorem Free.arrive (h : Free w j) (hb : b.arrived = w.arrivedAt a ++ [j]) :
    Registered (w.setBarrier a b) j (.barrier a) := by
  obtain ⟨h1, h2, h3, h4, h5, h6⟩ := h.registered (ℓ := .tick) rfl
  constructor <;> simp_all [update_apply]
  intro c
  rcases eq_or_ne c a with rfl | hc
  · simp [h2]
  · simp [hc, hc.symm, h2]

theorem Registered.release (hr : Registered w j (.barrier a))
    (hb : b.arrived = []) : Registered (w.setBarrier a b) j .tick := by
  obtain ⟨h1, h2, h3, h4, h5, h6⟩ := hr
  constructor <;> simp_all [update_apply]
  intro c
  rcases eq_or_ne c a with rfl | hc
  · simp
  · simp [hc, hc.symm, h2]

theorem Free.sleep (h : Free w j) : Registered (w.emit (.slept j)) j .asleep := by
  obtain ⟨h1, h2, h3, h4, h5, h6⟩ := h.registered (ℓ := .tick) rfl
  constructor <;> simp_all [sleeping, Obs.sleeps]

theorem Registered.woke (hr : Registered w j .asleep) :
    Registered (w.emit (.woke i d j)) j .tick := by
  obtain ⟨h1, h2, h3, h4, h5, h6⟩ := hr
  constructor <;> simp_all [sleeping, Obs.sleeps]

theorem Free.halt (h : Free w j) : Registered (w.emit (.halted j)) j .halted := by
  obtain ⟨h1, h2, h3, h4, h5, h6⟩ := h.registered (ℓ := .tick) rfl
  constructor <;> simp_all [sleeping, Obs.sleeps]

theorem Free.wait (h : Free w j) (hself : q.slot side = some j)
    (hother : q.slot side.other = w.waiter side.other (queueKey j other side)) :
    Registered (w.setQueue (queueKey j other side) q) j (.queue side other) := by
  obtain ⟨h1, h2, h3, h4, h5, h6⟩ := h.registered (ℓ := .tick) rfl
  cases side <;> constructor <;> simp_all [update_apply, queueKey, Side.other]
  all_goals
    intro side' a b
    cases side' <;> split_ifs <;> simp_all

theorem Registered.requeue {p : Prim} (hr : Registered w j (.queue side other))
    (hself : q.slot side = none)
    (hother : q.slot side.other = w.waiter side.other (queueKey j other side)) :
    Registered (w.setQueue (queueKey j other side) q) j (.prim p) := by
  obtain ⟨h1, h2, h3, h4, h5, h6⟩ := hr
  cases side <;> constructor <;> simp_all [update_apply, queueKey, Side.other]
  all_goals
    intro side' a b
    cases side' <;> split_ifs <;> simp_all

end Handover

end HetSim.Replay
