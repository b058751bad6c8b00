import HetSim.WorkQueue.Responses

/-!
# The work queue is a bounded queue

What has been pushed is what has been popped, followed by the work items that are in the
device. The cached flags are exact, so no request that is served meets a panic.
-/

namespace HetSim.WorkQueue
open Checked List

variable {p : Params} {w w' : State} {r : Request}

def Obs.pushed : Obs → Option UInt32
  | .accepted _ r _ => if r.portType = .pushPort then some r.pkt.data else none
  | _ => none

def Obs.popped : Obs → Option UInt32
  | .accepted _ r answer => if r.portType = .popPort then some answer.data else none
  | _ => none

def pushed (log : List Obs) : List UInt32 := log.filterMap Obs.pushed

def popped (log : List Obs) : List UInt32 := log.filterMap Obs.popped

theorem pushed_append (l l' : List Obs) : pushed (l ++ l') = pushed l ++ pushed l' :=
  filterMap_append

theorem popped_append (l l' : List Obs) : popped (l ++ l') = popped l ++ popped l' :=
  filterMap_append

structure Consistent (p : Params) (w : State) : Prop where
  empty : w.isEmpty = w.workQ.isEmpty
  full : w.isFull = decide (w.workQ.length = p.size)
  bound : w.workQ.length ≤ p.size
  busy : w.isBusy = w.releaseEvent.isSome
  fifo : pushed w.log = popped w.log ++ w.workQ

theorem answer_data (pkt : Packet) (v : UInt32) : (pkt.answer v).data = v := by
  unfold Packet.answer
  split_ifs <;> rfl

variable {q q' : List UInt32} {v : UInt32} {c : Call} {e : Event}

theorem exchange_fifo {t : Tick} {log : List Obs}
    (hx : Exchange p.size q r v q') (h : pushed log = popped log ++ q) :
    pushed (log ++ [.accepted t r (r.pkt.answer v)]) =
      popped (log ++ [.accepted t r (r.pkt.answer v)]) ++ q' := by
  cases hx with
  | pop hp hq => simp_all [pushed, popped, Obs.pushed, Obs.popped, answer_data]
  | push hp hq => simp_all [pushed, popped, Obs.pushed, Obs.popped]

theorem exchange_length (hx : Exchange p.size q r v q')
    (h : q.length ≤ p.size) : q'.length ≤ p.size := by
  cases hx with
  | pop hp hq =>
    rw [hq, length_cons] at h
    omega
  | push hp hq =>
    rw [length_append, length_singleton]
    omega

theorem Consistent.keep_quiet (h : Consistent p w) (hw : Quiet w w') : Consistent p w' := by
  obtain ⟨os, hlog, hsent⟩ := hw.log
  have hpush : pushed os = [] := by
    refine filterMap_eq_nil_iff.mpr fun o ho => ?_
    cases o with
    | sent => rfl
    | accepted | retryReq => exact nomatch hsent _ ho
  have hpop : popped os = [] := by
    refine filterMap_eq_nil_iff.mpr fun o ho => ?_
    cases o with
    | sent => rfl
    | accepted | retryReq => exact nomatch hsent _ ho
  refine ⟨?_, ?_, ?_, ?_, ?_⟩
  · rw [hw.isEmpty, hw.workQ, h.empty]
  · rw [hw.isFull, hw.workQ, h.full]
  · rw [hw.workQ]
    exact h.bound
  · rw [hw.isBusy, hw.releaseEvent, h.busy]
  · rw [hlog, hw.workQ, pushed_append, popped_append, hpush, hpop, append_nil, append_nil]
    exact h.fifo

theorem Consistent.keep_request (h : Consistent p w) (hw : request p w r = .ok w') :
    Consistent p w' := by
  obtain ⟨-, b, ht⟩ := request_inv hw
  cases ht with
  | ignore => exact h
  | refuse =>
    cases r.portType with
    | popPort => exact ⟨h.empty, h.full, h.bound, h.busy, h.fifo⟩
    | pushPort => exact ⟨h.empty, h.full, h.bound, h.busy, h.fifo⟩
  | serve _ _ _ hq => exact ⟨rfl, rfl, exchange_length hq h.bound, rfl, exchange_fifo hq h.fifo⟩

theorem Consistent.keep_call (h : Consistent p w) (hw : call p w c = .ok w') :
    Consistent p w' :=
  call_keeps (fun hq h => h.keep_quiet hq) .keep_request h hw

theorem Consistent.told (h : Consistent p w) (port : PortType) :
    Consistent p { w.unretry port with log := (w.unretry port).log ++ [.retryReq port] } := by
  have hfifo :
      pushed (w.log ++ [.retryReq port]) = popped (w.log ++ [.retryReq port]) ++ w.workQ := by
    rw [pushed_append, popped_append, h.fifo, show pushed [.retryReq port] = [] from rfl,
      show popped [.retryReq port] = [] from rfl, append_nil, append_nil]
  cases port with
  | popPort => exact ⟨h.empty, h.full, h.bound, h.busy, hfifo⟩
  | pushPort => exact ⟨h.empty, h.full, h.bound, h.busy, hfifo⟩

theorem Consistent.keep_tells {port : PortType} {calls : List Call} (h : Consistent p w)
    (ht : Tells p w port calls w') : Consistent p w' :=
  tells_keeps (fun hq h => h.keep_quiet hq) .keep_request h (h.told port) ht

theorem Consistent.released (h : Consistent p w) :
    Consistent p { w with releaseEvent := none, isBusy := false } :=
  ⟨h.empty, h.full, h.bound, rfl, h.fifo⟩

theorem Consistent.keep_step (h : Consistent p w) (hw : step p w e = .ok w') : Consistent p w' := by
  refine step_keeps (fun hq h => h.keep_quiet hq) .keep_request h (fun onPop onPush _ hrel => ?_)
    (fun _ _ => ⟨h.empty, h.full, h.bound, h.busy, h.fifo⟩) hw
  obtain ⟨t, hpop, hpush⟩ := release_inv hrel
  exact (h.released.keep_tells hpop).keep_tells hpush

theorem consistent_init (hsize : 1 ≤ p.size) : Consistent p .init := by
  refine ⟨rfl, ?_, Nat.zero_le _, rfl, rfl⟩
  exact (decide_eq_false (by rw [State.init, length_nil]; omega)).symm

theorem consistent_of_reachable (hsize : 1 ≤ p.size)
    (h : Runs.Reachable (step p) .init w) : Consistent p w :=
  Runs.Reachable.invariant (consistent_init hsize) (fun _ _ _ _ hc hs => hc.keep_step hs) w h

/-! ## Panics -/

theorem Consistent.exchange_ok (h : Consistent p w) (hr : r.Ok)
    (hb : w.blocked r.portType = false) :
    ∃ x, exchange p w.workQ r.pkt = .ok x := by
  obtain ⟨hread, hwrite, hllsc, -⟩ := hr
  cases hp : r.portType with
  | popPort =>
    simp only [hp, State.blocked, h.empty, Bool.or_eq_false_iff] at hb
    cases hq : w.workQ with
    | nil => simp [hq] at hb
    | cons v q => exact ⟨(q, v), by simp [exchange, hread, hwrite, hllsc, hp, require]⟩
  | pushPort =>
    simp only [hp, State.blocked, h.full, Bool.or_eq_false_iff, decide_eq_false_iff_not] at hb
    exact ⟨_, by simp [exchange, hread, hwrite, hp, require, hb.2]; rfl⟩

theorem Consistent.accept_ok (h : Consistent p w) (hr : r.Ok) (hb : w.blocked r.portType = false) :
    ∃ w', accept p w r.pkt r.portType = .ok w' := by
  obtain ⟨x, hx⟩ := h.exchange_ok hr hb
  obtain ⟨-, -, hllsc, hcache, hsize⟩ := hr
  have hfree : w.releaseEvent = none := by
    have hbusy : w.isBusy = false := by
      cases hp : r.portType with
      | popPort | pushPort =>
        simp only [hp, State.blocked, Bool.or_eq_false_iff] at hb
        exact hb.1
    rw [h.busy] at hbusy
    simpa using hbusy
  unfold accept
  rw [scheduleRelease, require, if_pos hfree, ok_bind]
  change ∃ w', (recvAtomic p _ _ >>= _) = _
  rw [recvAtomic, require, if_pos (by simp [hcache]), ok_bind, access, require,
    if_pos (by simp [writeOK, hllsc]), ok_bind, require, if_pos hsize, ok_bind, hx]
  change ∃ w', (if r.pkt.needsResponse = true then _ else _) = Except.ok w'
  by_cases hresp : r.pkt.needsResponse = true
  · rw [if_pos hresp, require, if_pos (by simp [hresp, Packet.makeResponse])]
    exact ⟨_, rfl⟩
  · rw [if_neg hresp]
    exact ⟨_, rfl⟩

theorem Consistent.request_raises (h : Consistent p w) :
    Raises (request p w r) (· = .notOffered) := by
  refine .bind (.require fun _ => rfl) fun _ hr => ?_
  rw [require_eq_ok] at hr
  obtain ⟨x, hx⟩ : ∃ x, recvTimingReq p w r.pkt r.portType = .ok x := by
    rw [recvTimingReq_eq hr]
    split_ifs with hretry hblocked
    · exact ⟨_, rfl⟩
    · exact ⟨_, rfl⟩
    · obtain ⟨t, ht⟩ := h.accept_ok hr (Bool.eq_false_of_not_eq_true hblocked)
      exact ⟨(t, true), by rw [ht]; rfl⟩
  rw [hx]
  exact .ok _

theorem Sendable.raises {front : DeferredPacket} {rest : List DeferredPacket} {reply : Reply}
    (h : Sendable p w front rest) (hc : Consistent p w) :
    Raises (dequeue p w reply) (· = .notOffered) := by
  refine .bind (.demand fun hnone => ?_) fun front _ => ?_
  · simp [h.packetQueue] at hnone
  cases reply with
  | refuse => exact .pure _
  | take requests =>
    exact .bind (Runs.run_raises Consistent.keep_request Consistent.request_raises
      (hc.keep_quiet (.sent w _ _ _))) fun _ _ => .pure _

theorem call_raises (hc : Consistent p w) (ha : Answering p w) :
    Raises (call p w c) (· = .notOffered) := by
  cases c with
  | timingReq r => exact hc.request_raises
  | respRetry reply =>
    refine .bind (.require fun _ => rfl) fun _ howed => ?_
    rw [require_eq_ok, ha.respOwed] at howed
    obtain ⟨front, rest, hs⟩ := ha.sendable_of_retry howed
    refine .bind (.require fun hn => absurd howed hn) fun _ _ => ?_
    exact hs.raises (hc.keep_quiet (.answered w false))

theorem send_raises (hc : Consistent p w) (ha : Answering p w) (port : PortType)
    (calls : List Call) :
    Raises (sendRetryReq p (w.unretry port) port calls) (· = .notOffered) :=
  Runs.run_raises (P := fun w => Consistent p w ∧ Answering p w)
    (fun h hw => ⟨h.1.keep_call hw, h.2.keep_call hw⟩) (fun h => call_raises h.1 h.2)
    ⟨hc.told port, ha.told port⟩

theorem release_raises {onPop onPush : List Call} (hc : Consistent p w) (ha : Answering p w) :
    Raises (release p { w with releaseEvent := none } onPop onPush) (· = .notOffered) := by
  refine .bind (.ite (fun _ => send_raises hc.released ha.released .popPort onPop) fun _ => .pure _)
    fun t ht => ?_
  have htells : Tells p { w with releaseEvent := none, isBusy := false } .popPort onPop t := by
    split_ifs at ht with hretry
    · exact .retry hretry ht
    · cases ht
      exact .idle (Bool.eq_false_of_not_eq_true hretry)
  exact .ite (fun _ => send_raises (hc.released.keep_tells htells) (ha.released.keep_tells htells)
    .pushPort onPush) fun _ => .pure _

theorem step_raises (hc : Consistent p w) (ha : Answering p w) :
    Raises (step p w e) (· = .notOffered) := by
  cases e with
  | call c => exact call_raises hc ha
  | release onPop onPush => exact .bind (.require fun _ => rfl) fun _ _ => release_raises hc ha
  | dequeue reply =>
    refine .bind (.require fun _ => rfl) fun _ hevent => ?_
    rw [require_eq_ok] at hevent
    obtain ⟨front, rest, hs⟩ := ha.sendable_of_event hevent
    exact hs.raises (hc.keep_quiet (.dequeued w))
  | elapse | drain | resume => exact .bind (.require fun _ => rfl) fun _ _ => .pure _

theorem bounded_fifo (hsize : 1 ≤ p.size) (h : Runs.Reachable (step p) .init w) :
    (w.isEmpty = true ↔ w.workQ = []) ∧ (w.isFull = true ↔ w.workQ.length = p.size) ∧
    w.workQ.length ≤ p.size ∧ popped w.log <+: pushed w.log ∧
    pushed w.log = popped w.log ++ w.workQ ∧
    ∀ e f, step p w e = .error f → f = .notOffered := by
  have hc := consistent_of_reachable hsize h
  refine ⟨?_, ?_, hc.bound, ⟨w.workQ, hc.fifo.symm⟩, hc.fifo,
    fun e f hf => step_raises hc (answering_of_reachable h) f hf⟩
  · rw [hc.empty, List.isEmpty_iff]
  · rw [hc.full, decide_eq_true_iff]

theorem bounded_fifo_retried : ∃ w, Runs.Reachable (step ⟨1, 2⟩) .init w ∧
    popped w.log = [7] ∧ popped w.log <+: pushed w.log := by
  have hrun : Runs.Ends (step ⟨1, 2⟩) .init [.call (.timingReq pop), .call (.timingReq (push 7)),
      .elapse 2, .release [.timingReq pop] []] (fun w => popped w.log = [7]) := by decide +kernel
  obtain ⟨w, hw, hpop⟩ := hrun.reachable
  exact ⟨w, hw, hpop, (bounded_fifo (p := ⟨1, 2⟩) (by decide) hw).2.2.2.1⟩

end HetSim.WorkQueue
