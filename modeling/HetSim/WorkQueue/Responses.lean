import HetSim.WorkQueue.Requests

/-!
# Every response is sent once

The responses owed are those sent, followed by the packet queue. As long as it is not empty, the
dequeue event is scheduled or a peer owes the device a retry.
-/

namespace HetSim.WorkQueue
open Checked List

variable {p : Params} {w w' : State} {r : Request}

def Obs.owed (p : Params) : Obs → Option DeferredPacket
  | .accepted t r answer =>
    if r.pkt.needsResponse then some ⟨t + p.latency, answer, r.portType⟩ else none
  | _ => none

def Obs.response : Obs → Option (Tick × PortType × Packet)
  | .sent t portType pkt => some (t, portType, pkt)
  | _ => none

def owed (p : Params) (log : List Obs) : List DeferredPacket := log.filterMap (Obs.owed p)

def responses (log : List Obs) : List (Tick × PortType × Packet) := log.filterMap Obs.response

theorem owed_append (l l' : List Obs) : owed p (l ++ l') = owed p l ++ owed p l' :=
  filterMap_append

theorem responses_append (l l' : List Obs) : responses (l ++ l') = responses l ++ responses l' :=
  filterMap_append

def Answers (s : Tick × PortType × Packet) (d : DeferredPacket) : Prop :=
  d.tick ≤ s.1 ∧ s.2.1 = d.portType ∧ s.2.2 = d.pkt

/-! ## Requests only append -/

structure Appends (p : Params) (w w' : State) (more : List DeferredPacket) : Prop where
  packetQueue : w'.packetQueue = w.packetQueue ++ more
  owed : owed p w'.log = owed p w.log ++ more
  responses : responses w'.log = responses w.log
  ticks : ∀ d ∈ more, d.tick = w.curTick + p.latency
  dequeueEvent : w'.dequeueEvent =
    if w.retryResp = false ∧ w.dequeueEvent = none ∧ more ≠ [] then some (w.curTick + p.latency)
    else w.dequeueEvent
  curTick : w'.curTick = w.curTick
  retryResp : w'.retryResp = w.retryResp
  respOwed : w'.respOwed = w.respOwed
  drainState : w'.drainState = w.drainState

theorem Appends.refl (w : State) : Appends p w w [] := by
  constructor <;> simp

theorem Appends.trans {t : State} {l l' : List DeferredPacket} (h : Appends p w t l)
    (h' : Appends p t w' l') : Appends p w w' (l ++ l') := by
  refine ⟨?_, ?_, ?_, ?_, ?_, ?_, ?_, ?_, ?_⟩
  · rw [h'.packetQueue, h.packetQueue, append_assoc]
  · rw [h'.owed, h.owed, append_assoc]
  · rw [h'.responses, h.responses]
  · intro d hd
    rcases mem_append.mp hd with hd | hd
    · exact h.ticks d hd
    · rw [h'.ticks d hd, h.curTick]
  · rw [h'.dequeueEvent, h.dequeueEvent, h.retryResp, h.curTick]
    cases hl : l with
    | nil => simp
    | cons d l => by_cases hw : w.retryResp = false ∧ w.dequeueEvent = none <;> simp_all
  · rw [h'.curTick, h.curTick]
  · rw [h'.retryResp, h.retryResp]
  · rw [h'.respOwed, h.respOwed]
  · rw [h'.drainState, h.drainState]

theorem appends_of_request (h : request p w r = .ok w') : ∃ more, Appends p w w' more := by
  obtain ⟨-, b, ht⟩ := request_inv h
  cases ht with
  | ignore => exact ⟨[], .refl w⟩
  | refuse =>
    refine ⟨[], ?_⟩
    cases r.portType <;> constructor <;> simp [State.refuse]
  | serve =>
    refine ⟨_, rfl, ?_, ?_, ?_, ?_, rfl, rfl, rfl, rfl⟩
    · cases hn : r.pkt.needsResponse <;> simp [State.serve, owed, Obs.owed, hn]
    · simp [State.serve, responses, filterMap_cons, Obs.response]
    · cases hn : r.pkt.needsResponse <;> simp
    · cases hn : r.pkt.needsResponse <;> simp [State.serve, hn]

theorem appends_of_requests {requests : List Request}
    (h : Runs.run (request p) w requests = .ok w') : ∃ more, Appends p w w' more := by
  refine Runs.run_keeps (P := fun v => ∃ more, Appends p w v more) ?_ ⟨[], .refl w⟩ h
  rintro v r v' ⟨more, hv⟩ hr
  obtain ⟨more', hv'⟩ := appends_of_request hr
  exact ⟨more ++ more', hv.trans hv'⟩

/-! ## The packet queue -/

structure Queued (p : Params) (w : State) (done : List DeferredPacket) : Prop where
  order : owed p w.log = done ++ w.packetQueue
  sorted : w.packetQueue.Pairwise (fun d d' => d.tick ≤ d'.tick)
  bound : ∀ d ∈ w.packetQueue, d.tick ≤ w.curTick + p.latency

structure Answering (p : Params) (w : State) : Prop where
  queued : ∃ done, Queued p w done ∧ List.Forall₂ Answers (responses w.log) done
  nonempty : w.packetQueue ≠ [] ↔ w.dequeueEvent.isSome = true ∨ w.retryResp = true
  one : w.dequeueEvent = none ∨ w.retryResp = false
  due : ∀ t ∈ w.dequeueEvent, ∀ d ∈ w.packetQueue.head?, d.tick ≤ t
  refused : w.retryResp = true → ∀ d ∈ w.packetQueue.head?, d.tick ≤ w.curTick
  respOwed : w.respOwed = w.retryResp
  draining : w.drainState = .draining → w.packetQueue ≠ []

variable {done more : List DeferredPacket}

theorem Queued.appends (h : Queued p w done) (ha : Appends p w w' more) : Queued p w' done := by
  refine ⟨?_, ?_, fun d hd => ?_⟩
  · rw [ha.owed, h.order, ha.packetQueue, append_assoc]
  · rw [ha.packetQueue, pairwise_append]
    refine ⟨h.sorted, ?_, fun d hd d' hd' => ?_⟩
    · refine pairwise_of_forall_mem_list fun d hd d' hd' => ?_
      rw [ha.ticks d hd, ha.ticks d' hd']
    · rw [ha.ticks d' hd']
      exact h.bound d hd
  · rw [ha.curTick]
    rw [ha.packetQueue, mem_append] at hd
    rcases hd with hd | hd
    · exact h.bound d hd
    · exact (ha.ticks d hd).le

theorem Answering.idle (h : Answering p w) (hnil : w.packetQueue = []) :
    w.dequeueEvent = none ∧ w.retryResp = false := by
  have hno := mt h.nonempty.mpr (not_not.mpr hnil)
  rw [not_or, Option.not_isSome_iff_eq_none, Bool.not_eq_true] at hno
  exact hno

theorem Answering.appends (h : Answering p w) (ha : Appends p w w' more) : Answering p w' := by
  obtain ⟨done, hq, hdone⟩ := h.queued
  have hqueued : ∃ done, Queued p w' done ∧ List.Forall₂ Answers (responses w'.log) done :=
    ⟨done, hq.appends ha, by rw [ha.responses]; exact hdone⟩
  have howed : w'.respOwed = w'.retryResp := by rw [ha.respOwed, ha.retryResp, h.respOwed]
  have hdraining : w'.drainState = .draining → w'.packetQueue ≠ [] := by
    rw [ha.drainState, ha.packetQueue]
    exact fun hd => append_ne_nil_of_left_ne_nil (h.draining hd) more
  have hevent := ha.dequeueEvent
  have hpq := ha.packetQueue
  cases hw : w.packetQueue with
  | nil =>
    obtain ⟨hnone, hfree⟩ := h.idle hw
    rw [hw, nil_append] at hpq
    rw [hnone, hfree] at hevent
    rw [ha.retryResp, hfree] at howed
    cases more with
    | nil =>
      simp only [ne_eq, not_true_eq_false, and_false, if_false] at hevent
      refine ⟨hqueued, ?_, .inl hevent, ?_, ?_, by rw [howed, ha.retryResp, hfree], hdraining⟩
      · simp [hpq, hevent, ha.retryResp, hfree]
      · simp [hpq]
      · simp [hpq]
    | cons d more =>
      simp only [ne_eq, reduceCtorEq, not_false_eq_true, and_self, if_true] at hevent
      refine ⟨hqueued, ?_, .inr (by rw [ha.retryResp, hfree]), ?_, ?_,
        by rw [howed, ha.retryResp, hfree], hdraining⟩
      · simp [hpq, hevent]
      · intro t ht d' hd'
        rw [hevent, Option.mem_some_iff] at ht
        rw [hpq, List.head?_cons, Option.mem_some_iff] at hd'
        rw [← ht, ← hd', ha.ticks d (mem_cons_self ..)]
      · rw [ha.retryResp, hfree]
        exact nofun
  | cons d rest =>
    have hbusy := h.nonempty.mp (by rw [hw]; exact cons_ne_nil d rest)
    rw [if_neg fun hn => by simp [hn.1, hn.2.1] at hbusy] at hevent
    have hhead : w'.packetQueue.head? = w.packetQueue.head? := by rw [hpq, hw]; rfl
    refine ⟨hqueued, ?_, ?_, ?_, ?_, howed, hdraining⟩
    · rw [hevent, ha.retryResp, hpq, hw]
      exact iff_of_true (by simp) hbusy
    · rw [hevent, ha.retryResp]
      exact h.one
    · rw [hevent, hhead]
      exact h.due
    · rw [ha.retryResp, ha.curTick, hhead]
      exact h.refused

structure Sendable (p : Params) (w : State) (front : DeferredPacket) (rest : List DeferredPacket) :
    Prop where
  queued : ∃ done, Queued p w done ∧ List.Forall₂ Answers (responses w.log) done
  packetQueue : w.packetQueue = front :: rest
  due : front.tick ≤ w.curTick
  dequeueEvent : w.dequeueEvent = none
  respOwed : w.respOwed = false

variable {front : DeferredPacket} {rest : List DeferredPacket}

theorem popFront_cons {next : DeferredPacket}
    (h : w.packetQueue = front :: next :: rest) : popFront w =
      { w with
        retryResp := false
        packetQueue := next :: rest
        dequeueEvent := some (max next.tick w.curTick) } := by
  simp [popFront, h]

theorem popFront_singleton (h : w.packetQueue = [front]) : popFront w =
    { w with
      retryResp := false
      packetQueue := []
      drainState := if w.drainState = .draining then .drained else w.drainState } := by
  simp only [popFront, h, tail_cons]
  split_ifs <;> rfl

theorem answering_popFront
    (hq : Queued p w done) (hsent : List.Forall₂ Answers (responses w.log) (done ++ [front]))
    (hpq : w.packetQueue = front :: rest) (hevent : rest = [] → w.dequeueEvent = none)
    (howed : w.respOwed = false) : Answering p (popFront w) := by
  have horder : owed p w.log = (done ++ [front]) ++ rest := by rw [hq.order, hpq]; simp
  have hsorted := hq.sorted
  have hbound := hq.bound
  rw [hpq] at hsorted hbound
  cases rest with
  | nil =>
    rw [popFront_singleton hpq]
    refine ⟨⟨done ++ [front], ⟨horder, .nil, nofun⟩, hsent⟩, ?_, .inr rfl, ?_, nofun, howed, ?_⟩
    · simp [hevent rfl]
    · simp
    · intro hd
      split_ifs at hd with hw
      exact absurd hd hw
  | cons next rest =>
    rw [popFront_cons hpq]
    refine ⟨⟨done ++ [front], ⟨horder, hsorted.of_cons, fun d hd => ?_⟩, hsent⟩, ?_,
      .inr rfl, ?_, nofun, howed, fun _ => cons_ne_nil next rest⟩
    · exact hbound d (mem_cons_of_mem front hd)
    · simp
    · intro t ht d hd
      obtain rfl : max next.tick w.curTick = t := by simpa using ht
      obtain rfl : next = d := by simpa using hd
      exact le_max_left _ _

theorem Sendable.answering {reply : Reply}
    (h : Sendable p w front rest) (hw : dequeue p w reply = .ok w') : Answering p w' := by
  obtain ⟨done, hq, hdone⟩ := h.queued
  obtain ⟨front', rest', hpq, ⟨-, rfl⟩ | ⟨requests, t, -, ht, rfl⟩⟩ := dequeue_inv hw
  · obtain ⟨rfl, rfl⟩ : front = front' ∧ rest = rest' :=
      List.cons.inj (h.packetQueue.symm.trans hpq)
    refine ⟨⟨done, ⟨hq.order, hq.sorted, hq.bound⟩, hdone⟩, ?_, .inl h.dequeueEvent, ?_,
      ?_, rfl, ?_⟩
    · simp [hpq]
    · simp [h.dequeueEvent]
    · intro _ d hd
      obtain rfl : front = d := by simpa [hpq] using hd
      exact h.due
    · simp [hpq]
  · obtain ⟨rfl, rfl⟩ : front = front' ∧ rest = rest' :=
      List.cons.inj (h.packetQueue.symm.trans hpq)
    obtain ⟨more, ha⟩ := appends_of_requests ht
    have hlog : owed p (w.log ++ [.sent w.curTick front.portType front.pkt]) = owed p w.log := by
      rw [owed_append, show owed p [.sent w.curTick front.portType front.pkt] = [] from rfl,
        append_nil]
    have hsent : Queued p
        { w with log := w.log ++ [.sent w.curTick front.portType front.pkt] } done :=
      ⟨hlog.trans hq.order, hq.sorted, hq.bound⟩
    refine answering_popFront (hsent.appends ha) ?_
      (?_ : t.packetQueue = front :: (rest ++ more)) ?_ ?_
    · rw [ha.responses, responses_append]
      exact rel_append hdone (.cons ⟨h.due, rfl, rfl⟩ .nil)
    · rw [ha.packetQueue, hpq, cons_append]
    · intro hnil
      rw [ha.dequeueEvent, (append_eq_nil_iff.mp hnil).2, if_neg (by simp)]
      exact h.dequeueEvent
    · rw [ha.respOwed]
      exact h.respOwed

theorem Answering.sendable_of_event (h : Answering p w) (hw : w.dequeueEvent = some w.curTick) :
    ∃ front rest, Sendable p { w with dequeueEvent := none } front rest := by
  have hfree : w.retryResp = false := by
    rcases h.one with hnone | hfree
    · rw [hw] at hnone
      exact nomatch hnone
    · exact hfree
  obtain ⟨front, rest, hpq⟩ := exists_cons_of_ne_nil (h.nonempty.mpr (.inl (by simp [hw])))
  obtain ⟨done, hq, hdone⟩ := h.queued
  refine ⟨front, rest, ⟨done, ⟨hq.order, hq.sorted, hq.bound⟩, hdone⟩, hpq, ?_, rfl, ?_⟩
  · exact h.due _ hw front (by simp [hpq])
  · rw [← hfree]
    exact h.respOwed

theorem Answering.sendable_of_retry (h : Answering p w) (hw : w.retryResp = true) :
    ∃ front rest, Sendable p { w with respOwed := false } front rest := by
  have hnone : w.dequeueEvent = none := by
    rcases h.one with hnone | hfree
    · exact hnone
    · rw [hw] at hfree
      exact nomatch hfree
  obtain ⟨front, rest, hpq⟩ := exists_cons_of_ne_nil (h.nonempty.mpr (.inr hw))
  obtain ⟨done, hq, hdone⟩ := h.queued
  exact ⟨front, rest, ⟨done, ⟨hq.order, hq.sorted, hq.bound⟩, hdone⟩, hpq,
    h.refused hw front (by simp [hpq]), hnone, rfl⟩

theorem Answering.keep_call {c : Call} (h : Answering p w) (hw : call p w c = .ok w') :
    Answering p w' := by
  cases c with
  | timingReq r =>
    obtain ⟨more, ha⟩ := appends_of_request hw
    exact h.appends ha
  | respRetry reply =>
    simp only [call, recvRespRetry, bind_eq_ok, require_eq_ok] at hw
    obtain ⟨-, -, -, hretry, hw⟩ := hw
    obtain ⟨front, rest, hs⟩ := h.sendable_of_retry hretry
    exact hs.answering hw

theorem Answering.told (h : Answering p w) (port : PortType) :
    Answering p { w.unretry port with log := (w.unretry port).log ++ [.retryReq port] } := by
  obtain ⟨done, hq, hdone⟩ := h.queued
  have howed : owed p (w.log ++ [.retryReq port]) = owed p w.log := by
    rw [owed_append, show owed p [.retryReq port] = [] from rfl, append_nil]
  have hresp : responses (w.log ++ [.retryReq port]) = responses w.log := by
    rw [responses_append, show responses [.retryReq port] = [] from rfl, append_nil]
  cases port with
  | popPort | pushPort =>
    exact ⟨⟨done, ⟨howed.trans hq.order, hq.sorted, hq.bound⟩, hresp ▸ hdone⟩, h.nonempty,
      h.one, h.due, h.refused, h.respOwed, h.draining⟩

theorem Answering.keep_tells {port : PortType} {calls : List Call} (h : Answering p w)
    (ht : Tells p w port calls w') : Answering p w' := by
  cases ht with
  | idle => exact h
  | retry _ hsend => exact Runs.run_keeps Answering.keep_call (h.told port) hsend

theorem Answering.released (h : Answering p w) :
    Answering p { w with releaseEvent := none, isBusy := false } := by
  obtain ⟨done, hq, hdone⟩ := h.queued
  exact ⟨⟨done, ⟨hq.order, hq.sorted, hq.bound⟩, hdone⟩, h.nonempty, h.one, h.due, h.refused,
    h.respOwed, h.draining⟩

theorem Answering.keep_step {e : Event} (h : Answering p w) (hw : step p w e = .ok w') :
    Answering p w' := by
  cases e with
  | call c => exact h.keep_call hw
  | release onPop onPush =>
    simp only [step, bind_eq_ok, require_eq_ok] at hw
    obtain ⟨-, -, hw⟩ := hw
    obtain ⟨t, hpop, hpush⟩ := release_inv hw
    exact (h.released.keep_tells hpop).keep_tells hpush
  | dequeue reply =>
    simp only [step, bind_eq_ok, require_eq_ok] at hw
    obtain ⟨-, hevent, hw⟩ := hw
    obtain ⟨front, rest, hs⟩ := h.sendable_of_event hevent
    exact hs.answering hw
  | elapse tick =>
    simp only [step, bind_eq_ok, require_eq_ok] at hw
    obtain ⟨-, ⟨hle, -, -⟩, hw⟩ := hw
    cases hw
    obtain ⟨done, hq, hdone⟩ := h.queued
    refine ⟨⟨done, ⟨hq.order, hq.sorted, fun d hd => ?_⟩, hdone⟩, h.nonempty, h.one, h.due,
      fun hr d hd => (h.refused hr d hd).trans hle, h.respOwed, h.draining⟩
    exact (hq.bound d hd).trans (Nat.add_le_add_right hle _)
  | drain =>
    simp only [step, bind_eq_ok, require_eq_ok] at hw
    obtain ⟨-, -, hw⟩ := hw
    cases hw
    obtain ⟨done, hq, hdone⟩ := h.queued
    refine ⟨⟨done, ⟨hq.order, hq.sorted, hq.bound⟩, hdone⟩, h.nonempty, h.one, h.due, h.refused,
      h.respOwed, fun hd hnil => ?_⟩
    have hempty : w.packetQueue = [] := hnil
    simp [drain, hempty] at hd
  | resume =>
    simp only [step, bind_eq_ok, require_eq_ok] at hw
    obtain ⟨-, -, hw⟩ := hw
    cases hw
    obtain ⟨done, hq, hdone⟩ := h.queued
    exact ⟨⟨done, ⟨hq.order, hq.sorted, hq.bound⟩, hdone⟩, h.nonempty, h.one, h.due, h.refused,
      h.respOwed, (by simp)⟩

theorem answering_of_reachable (h : Runs.Reachable (step p) .init w) : Answering p w := by
  refine Runs.Reachable.invariant (P := Answering p) ?_ (fun _ _ _ _ ha hs => ha.keep_step hs) w h
  refine ⟨⟨[], ⟨rfl, .nil, nofun⟩, .nil⟩, ?_, .inl rfl, ?_, nofun, rfl, nofun⟩
  · simp [State.init]
  · simp [State.init]

theorem responses_in_order (h : Runs.Reachable (step p) .init w) :
    (∃ done, owed p w.log = done ++ w.packetQueue ∧
      List.Forall₂ Answers (responses w.log) done) ∧
    w.packetQueue.Pairwise (fun d d' => d.tick ≤ d'.tick) ∧
    (w.packetQueue ≠ [] ↔ w.dequeueEvent.isSome = true ∨ w.retryResp = true) ∧
    ¬ (w.dequeueEvent.isSome = true ∧ w.retryResp = true) := by
  have ha := answering_of_reachable h
  obtain ⟨done, hq, hdone⟩ := ha.queued
  refine ⟨⟨done, hq.order, hdone⟩, hq.sorted, ha.nonempty, ?_⟩
  rintro ⟨hevent, hretry⟩
  rcases ha.one with hnone | hfree
  · rw [hnone] at hevent
    exact nomatch hevent
  · rw [hretry] at hfree
    exact nomatch hfree

theorem responses_in_order_refused : ∃ w, Runs.Reachable (step ⟨2, 1⟩) .init w ∧
    responses w.log = [(1, .pushPort, (push 7).pkt.answer 7), (2, .popPort, pop.pkt.answer 7)] ∧
    ∃ done, owed ⟨2, 1⟩ w.log = done ++ w.packetQueue ∧
      List.Forall₂ Answers (responses w.log) done := by
  have hrun : Runs.Ends (step ⟨2, 1⟩) .init [.call (.timingReq (push 7)), .elapse 1,
      .dequeue .refuse, .release [] [], .call (.timingReq pop), .call (.respRetry (.take [])),
      .elapse 2, .dequeue (.take [])] (fun w => responses w.log =
        [(1, .pushPort, (push 7).pkt.answer 7), (2, .popPort, pop.pkt.answer 7)]) := by
    decide +kernel
  obtain ⟨w, hw, hresp⟩ := hrun.reachable
  exact ⟨w, hw, hresp, (responses_in_order hw).1⟩

end HetSim.WorkQueue
