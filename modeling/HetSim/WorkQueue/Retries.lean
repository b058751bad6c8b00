import HetSim.WorkQueue.Fifo

/-!
# A refused requester is not forgotten

Between events a port that waits for its retry is still blocked: the device is busy, and will tell
the port when it is released, or the queue is at the port's limit.
-/

namespace HetSim.WorkQueue
open Checked List

variable {p : Params} {w w' : State} {r : Request} {port : PortType}

def Waits (w : State) (port : PortType) : Prop := w.retry port = true → w.blocked port = true

theorem Quiet.retry (hw : Quiet w w') (port : PortType) : w'.retry port = w.retry port := by
  cases port with
  | popPort => exact hw.retryPop
  | pushPort => exact hw.retryPush

theorem Quiet.blocked (hw : Quiet w w') (port : PortType) : w'.blocked port = w.blocked port := by
  cases port with
  | popPort => rw [State.blocked, hw.isBusy, hw.isEmpty, State.blocked]
  | pushPort => rw [State.blocked, hw.isBusy, hw.isFull, State.blocked]

theorem blocked_of_busy (h : w.isBusy = true) (port : PortType) : w.blocked port = true := by
  cases port with
  | popPort | pushPort => rw [State.blocked, h, Bool.true_or]

theorem Waits.keep_quiet (hw : Quiet w w') (h : Waits w port) : Waits w' port := by
  rw [Waits, hw.retry, hw.blocked]
  exact h

theorem Waits.keep_request (h : Waits w port) (hw : request p w r = .ok w') : Waits w' port := by
  obtain ⟨-, b, ht⟩ := request_inv hw
  cases ht with
  | ignore => exact h
  | refuse _ hblocked =>
    intro hretry
    rw [refuse_blocked]
    rcases eq_or_ne r.portType port with rfl | hne
    · exact hblocked
    · exact h (by simpa [hne] using hretry)
  | serve => exact fun _ => blocked_of_busy rfl port

variable {c : Call} {port' : PortType} {e : Event} {P : State → Prop}

theorem Waits.keep_call (h : Waits w port) (hw : call p w c = .ok w') : Waits w' port :=
  call_keeps Waits.keep_quiet Waits.keep_request h hw

theorem unretry_retry (w : State) (port : PortType) : (w.unretry port).retry port = false := by
  cases port <;> rfl

variable {calls : List Call} {log₀ : List Obs} {t : Tick}

theorem waits_of_tells (ht : Tells p w port calls w') : Waits w' port := by
  cases ht with
  | idle hretry => exact fun h => absurd h (by rw [hretry]; decide)
  | retry _ hsend =>
    refine Runs.run_keeps (P := (Waits · port)) Waits.keep_call (fun h => ?_) hsend
    have hfalse : (w.unretry port).retry port = true := by
      cases port <;> exact h
    rw [unretry_retry] at hfalse
    exact nomatch hfalse

theorem Waits.keep_tells (h : Waits w port) (ht : Tells p w port' calls w') : Waits w' port := by
  refine tells_keeps Waits.keep_quiet Waits.keep_request h (fun hr => ?_) ht
  cases port <;> cases port'
  · exact nomatch hr
  · exact h hr
  · exact h hr
  · exact nomatch hr

theorem Waits.keep_step (h : Waits w port) (hw : step p w e = .ok w') : Waits w' port := by
  refine step_keeps Waits.keep_quiet Waits.keep_request h (fun onPop onPush _ hrel => ?_)
    (fun _ _ => ?_) hw
  · obtain ⟨t, hpop, hpush⟩ := release_inv hrel
    cases port with
    | popPort => exact (waits_of_tells hpop).keep_tells hpush
    | pushPort => exact waits_of_tells hpush
  · cases port with
    | popPort | pushPort => exact h

theorem waits_of_reachable (h : Runs.Reachable (step p) .init w) : Waits w port :=
  Runs.Reachable.invariant (P := fun w => Waits w port) (by cases port <;> exact nofun)
    (fun _ _ _ _ hw hs => hw.keep_step hs) w h

/-! ## The retry is sent -/

def ToldOr (log₀ : List Obs) (port : PortType) (P : State → Prop) (w : State) : Prop :=
  ∃ os, w.log = log₀ ++ os ∧ (.retryReq port ∈ os ∨ P w)

namespace ToldOr

variable {log₀ : List Obs} {P Q : State → Prop} {os : List Obs}

theorem grow (h : ToldOr log₀ port P w) (hlog : w'.log = w.log ++ os) (hP : P w → Q w') :
    ToldOr log₀ port Q w' := by
  obtain ⟨os', hos, htold⟩ := h
  refine ⟨os' ++ os, by rw [hlog, hos, List.append_assoc], htold.imp (fun hm => ?_) hP⟩
  exact mem_append_left os hm

theorem told (h : ToldOr log₀ port P w) (hlog : w'.log = w.log ++ [.retryReq port]) :
    ToldOr log₀ port Q w' := by
  obtain ⟨os', hos, -⟩ := h
  exact ⟨os' ++ [.retryReq port], by rw [hlog, hos, List.append_assoc], .inl (by simp)⟩

end ToldOr

theorem request_log (h : request p w r = .ok w') : ∃ os, w'.log = w.log ++ os := by
  obtain ⟨-, b, ht⟩ := request_inv h
  cases ht with
  | ignore => exact ⟨[], (append_nil _).symm⟩
  | refuse =>
    refine ⟨[], ?_⟩
    cases r.portType <;> exact (append_nil _).symm
  | serve => exact ⟨_, rfl⟩

theorem retry_of_request (h : w.retry port = true) (hw : request p w r = .ok w') :
    w'.retry port = true := by
  obtain ⟨-, b, ht⟩ := request_inv hw
  cases ht with
  | ignore => exact h
  | refuse => rw [refuse_retry, h, Bool.or_true]
  | serve => rw [serve_retry, h]

theorem ToldOr.keep_quiet
    (quiet : ∀ {w w'}, Quiet w w' → P w → P w') (hq : Quiet w w') (h : ToldOr log₀ port P w) :
    ToldOr log₀ port P w' := by
  obtain ⟨os, hlog, -⟩ := hq.log
  exact h.grow hlog (quiet hq)

theorem ToldOr.keep_request
    (served : ∀ {w r w'}, P w → request p w r = .ok w' → P w') (h : ToldOr log₀ port P w)
    (hr : request p w r = .ok w') : ToldOr log₀ port P w' := by
  obtain ⟨os, hlog⟩ := request_log hr
  exact h.grow hlog fun hP => served hP hr

section Told

variable {log₀ : List Obs} {P : State → Prop} (quiet : ∀ {w w'}, Quiet w w' → P w → P w')
  (served : ∀ {w r w'}, P w → request p w r = .ok w' → P w')

include quiet served

theorem ToldOr.keep_call (h : ToldOr log₀ port P w) (hw : call p w c = .ok w') :
    ToldOr log₀ port P w' :=
  call_keeps (ToldOr.keep_quiet quiet) (ToldOr.keep_request served) h hw

end Told

theorem unretry_log (w : State) (port : PortType) : (w.unretry port).log = w.log := by
  cases port <;> rfl

theorem told_of_tells
    (h : ToldOr log₀ port (fun w => w.retry port = true) w) (ht : Tells p w port calls w') :
    ToldOr log₀ port (fun _ => False) w' := by
  cases ht with
  | idle hretry => exact h.grow (append_nil _).symm fun hr => absurd hr (by rw [hretry]; decide)
  | retry _ hsend =>
    refine Runs.run_keeps (ToldOr.keep_call (fun _ hf => hf) fun hf _ => hf) (h.told ?_) hsend
    rw [unretry_log]

theorem ToldOr.keep_tells
    (h : ToldOr log₀ port (fun w => w.retry port = true) w)
    (ht : Tells p w port.other calls w') : ToldOr log₀ port (fun w => w.retry port = true) w' := by
  cases ht with
  | idle => exact h
  | retry _ hsend =>
    refine Runs.run_keeps (ToldOr.keep_call (fun hq hr => by rw [hq.retry, hr]) retry_of_request)
      (h.grow (by rw [unretry_log]) fun hr => ?_) hsend
    cases port <;> exact hr

theorem ToldOr.keep_told (h : ToldOr log₀ port (fun _ => False) w) (ht : Tells p w port' calls w') :
    ToldOr log₀ port (fun _ => False) w' := by
  cases ht with
  | idle => exact h
  | retry _ hsend =>
    exact Runs.run_keeps (ToldOr.keep_call (fun _ hf => hf) fun hf _ => hf)
      (h.grow (by rw [unretry_log]) fun hf => hf) hsend

theorem told_of_release {onPop onPush : List Call}
    (h : ToldOr log₀ port (fun w => w.retry port = true) w)
    (hw : release p { w with releaseEvent := none } onPop onPush = .ok w') :
    ToldOr log₀ port (fun _ => False) w' := by
  obtain ⟨t, hpop, hpush⟩ := release_inv hw
  have h₀ : ToldOr log₀ port (fun w => w.retry port = true)
      { w with releaseEvent := none, isBusy := false } := by
    refine h.grow (append_nil _).symm fun hr => ?_
    cases port <;> exact hr
  cases port with
  | popPort => exact (told_of_tells h₀ hpop).keep_told hpush
  | pushPort => exact told_of_tells (h₀.keep_tells hpop) hpush

structure Pending (port : PortType) (t : Tick) (w : State) : Prop where
  retry : w.retry port = true
  busy : w.isBusy = true
  scheduled : w.releaseEvent = some t
  due : w.curTick ≤ t

theorem Pending.keep_quiet (hw : Quiet w w') (h : Pending port t w) : Pending port t w' := by
  refine ⟨?_, ?_, ?_, ?_⟩
  · rw [hw.retry, h.retry]
  · rw [hw.isBusy, h.busy]
  · rw [hw.releaseEvent, h.scheduled]
  · rw [hw.curTick]
    exact h.due

theorem Pending.keep_request (h : Pending port t w) (hw : request p w r = .ok w') :
    Pending port t w' := by
  have hretry := retry_of_request h.retry hw
  obtain ⟨-, b, ht⟩ := request_inv hw
  cases ht with
  | ignore => exact h
  | refuse =>
    cases hp : r.portType with
    | popPort | pushPort =>
      rw [hp] at hretry
      exact ⟨hretry, h.busy, h.scheduled, h.due⟩
  | serve _ hblocked =>
    rw [blocked_of_busy h.busy] at hblocked
    exact nomatch hblocked

theorem Pending.keep_step (h : ToldOr log₀ port (Pending port t) w) (hw : step p w e = .ok w') :
    ToldOr log₀ port (Pending port t) w' := by
  refine step_keeps (ToldOr.keep_quiet Pending.keep_quiet)
    (ToldOr.keep_request Pending.keep_request) h
    (fun onPop onPush _ hrel => ?_) (fun tick hbound => ?_) hw
  · have hr : ToldOr log₀ port (fun w => w.retry port = true) w :=
      h.grow (append_nil _).symm Pending.retry
    exact (told_of_release hr hrel).grow (append_nil _).symm False.elim
  · refine h.grow (append_nil _).symm fun hP => ⟨?_, hP.busy, hP.scheduled, ?_⟩
    · cases port <;> exact hP.retry
    · exact hbound t hP.scheduled

def Awaits (p : Params) (w : State) (port : PortType) (t : Tick) : Prop :=
  ∀ es w', Runs.run (step p) w es = .ok w' → ToldOr w.log port (Pending port t) w'

theorem Pending.awaits (h : Pending port t w) : Awaits p w port t := by
  intro es w' hrun
  exact Runs.run_keeps Pending.keep_step ⟨[], (append_nil _).symm, .inr h⟩ hrun

def Due (w : State) : Prop := ∀ t ∈ w.releaseEvent, w.curTick ≤ t

theorem Due.keep_quiet (hw : Quiet w w') (h : Due w) : Due w' := by
  rw [Due, hw.releaseEvent, hw.curTick]
  exact h

theorem Due.keep_request (h : Due w) (hw : request p w r = .ok w') : Due w' := by
  obtain ⟨-, b, ht⟩ := request_inv hw
  cases ht with
  | ignore => exact h
  | refuse => cases r.portType <;> exact h
  | serve =>
    intro t ht
    obtain rfl : w.curTick + p.latency = t := by simpa [State.serve] using ht
    exact Nat.le_add_right _ _

theorem Due.keep_tells (h : Due w) (ht : Tells p w port calls w') : Due w' := by
  refine tells_keeps Due.keep_quiet Due.keep_request h ?_ ht
  cases port <;> exact h

theorem due_of_reachable (h : Runs.Reachable (step p) .init w) : Due w := by
  refine Runs.Reachable.invariant (P := Due) (by simp [Due, State.init])
    (fun w e w' _ hd hw => ?_) w h
  refine step_keeps Due.keep_quiet Due.keep_request hd (fun onPop onPush _ hrel => ?_)
    (fun tick hbound => hbound) hw
  obtain ⟨t, hpop, hpush⟩ := release_inv hrel
  have hnone : Due { w with releaseEvent := none, isBusy := false } := by simp [Due]
  exact (hnone.keep_tells hpop).keep_tells hpush

theorem pending_of_reachable (hsize : 1 ≤ p.size) (h : Runs.Reachable (step p) .init w)
    (hretry : w.retry port = true) (hbusy : w.isBusy = true) :
    ∃ t, w.releaseEvent = some t ∧ Pending port t w := by
  have hsome : w.releaseEvent.isSome = true := (consistent_of_reachable hsize h).busy ▸ hbusy
  obtain ⟨t, ht⟩ := Option.isSome_iff_exists.mp hsome
  exact ⟨t, ht, hretry, hbusy, ht, due_of_reachable h t ht⟩

theorem pending_of_served {w₁ : State} (hr : r.Ok)
    (h : recvTimingReq p w r.pkt r.portType = .ok (w₁, true)) (hretry : w.retry port = true) :
    Pending port (w.curTick + p.latency) w₁ := by
  cases recvTimingReq_inv hr h with
  | serve => exact ⟨by rw [serve_retry, hretry], rfl, rfl, Nat.le_add_right _ _⟩

theorem refused_not_forgotten (hsize : 1 ≤ p.size) (h : Runs.Reachable (step p) .init w) :
    (w.isBusy = true ↔ w.releaseEvent.isSome = true) ∧
    (∀ e f, step p w e = .error f → f ≠ .alreadyScheduled) ∧
    (w.retryPop = true → w.isBusy = true ∨ w.workQ = []) ∧
    (w.retryPush = true → w.isBusy = true ∨ w.workQ.length = p.size) ∧
    ¬ (w.retryPop = true ∧ w.retryPush = true ∧ w.releaseEvent = none) ∧
    (∀ port, w.retry port = true → w.isBusy = true →
      ∃ t, w.releaseEvent = some t ∧ Awaits p w port t) ∧
    ∀ (r : Request) (w₁ : State), r.Ok → recvTimingReq p w r.pkt r.portType = .ok (w₁, true) →
      w.retry r.portType.other = true →
      Awaits p w₁ r.portType.other (w.curTick + p.latency) := by
  have hc := consistent_of_reachable hsize h
  have hpop : w.retryPop = true → w.isBusy = true ∨ w.workQ = [] := by
    intro hr
    have hb : w.blocked .popPort = true := waits_of_reachable h hr
    rwa [State.blocked, hc.empty, Bool.or_eq_true, List.isEmpty_iff] at hb
  have hpush : w.retryPush = true → w.isBusy = true ∨ w.workQ.length = p.size := by
    intro hr
    have hb : w.blocked .pushPort = true := waits_of_reachable h hr
    rwa [State.blocked, hc.full, Bool.or_eq_true, decide_eq_true_iff] at hb
  refine ⟨by rw [hc.busy], fun e f hf => ?_, hpop, hpush, ?_, fun port hr hb => ?_,
    fun r w₁ hr hacc hretry => (pending_of_served hr hacc hretry).awaits⟩
  · rw [step_raises hc (answering_of_reachable h) f hf]
    simp
  · rintro ⟨hrpop, hrpush, hnone⟩
    have hidle : w.isBusy = false := by rw [hc.busy, hnone, Option.isSome_none]
    rcases hpop hrpop with hb | hempty
    · rw [hidle] at hb
      cases hb
    rcases hpush hrpush with hb | hfull
    · rw [hidle] at hb
      cases hb
    rw [hempty, List.length_nil] at hfull
    omega
  · obtain ⟨t, ht, hpend⟩ := pending_of_reachable hsize h hr hb
    exact ⟨t, ht, hpend.awaits⟩

theorem refused_pop_told : ∃ w, Runs.Reachable (step ⟨1, 2⟩) .init w ∧ w.retryPop = true ∧
    ∃ w₁, recvTimingReq ⟨1, 2⟩ w (push 7).pkt .pushPort = .ok (w₁, true) ∧
      Awaits ⟨1, 2⟩ w₁ .popPort 2 := by
  have hrun : Runs.Ends (step ⟨1, 2⟩) .init [.call (.timingReq pop)]
      (fun w => w = (State.init).refuse .popPort) := by decide +kernel
  obtain ⟨w, hw, rfl⟩ := hrun.reachable
  have hall := refused_not_forgotten (p := ⟨1, 2⟩) (by decide) hw
  have hacc : recvTimingReq ⟨1, 2⟩ ((State.init).refuse .popPort) (push 7).pkt .pushPort =
      .ok (((State.init).refuse .popPort).serve ⟨1, 2⟩ (push 7) 7 [7], true) := by
    decide +kernel
  exact ⟨_, hw, rfl, _, hacc, hall.2.2.2.2.2.2 (push 7) _ (by decide) hacc rfl⟩

end HetSim.WorkQueue
