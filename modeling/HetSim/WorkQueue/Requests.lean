import HetSim.WorkQueue.Device

/-!
# What a request does

A request is ignored, refused or served; `Treats` says which, and what the state is afterwards. A
response, time and drains leave the work items and the request side alone.
-/

namespace HetSim.WorkQueue
open Checked State

variable {p : Params} {w w' : State} {r : Request} {b : Bool}

def pop : Request := ⟨.popPort, ⟨true, false, false, true, false, false, 4, 0⟩⟩

def push (data : UInt32) : Request := ⟨.pushPort, ⟨false, true, false, true, false, false, 4, data⟩⟩

def State.retry (w : State) : PortType → Bool
  | .popPort => w.retryPop
  | .pushPort => w.retryPush

def State.blocked (w : State) : PortType → Bool
  | .popPort => w.isBusy || w.isEmpty
  | .pushPort => w.isBusy || w.isFull

def State.refuse (w : State) : PortType → State
  | .popPort => { w with retryPop := true }
  | .pushPort => { w with retryPush := true }

def Packet.answer (pkt : Packet) (v : UInt32) : Packet :=
  if pkt.needsResponse then { pkt with data := v }.makeResponse else { pkt with data := v }

inductive Exchange (size : ℕ) (q : List UInt32) (r : Request) : UInt32 → List UInt32 → Prop
  | pop {v : UInt32} {q' : List UInt32} (hp : r.portType = .popPort) (hq : q = v :: q') :
    Exchange size q r v q'
  | push (hp : r.portType = .pushPort) (hq : q.length ≠ size) :
    Exchange size q r r.pkt.data (q ++ [r.pkt.data])

def State.serve (p : Params) (w : State) (r : Request) (v : UInt32) (q : List UInt32) : State :=
  let tick := w.curTick + p.latency
  { w with
    workQ := q
    isBusy := true
    isEmpty := q.isEmpty
    isFull := q.length = p.size
    releaseEvent := some tick
    packetQueue := w.packetQueue ++
      if r.pkt.needsResponse then [⟨tick, r.pkt.answer v, r.portType⟩] else []
    dequeueEvent := if r.pkt.needsResponse ∧ w.retryResp = false ∧
      w.dequeueEvent = none then some tick
      else w.dequeueEvent
    log := w.log ++ [.accepted w.curTick r (r.pkt.answer v)] }

inductive Treats (p : Params) (w : State) (r : Request) : State → Bool → Prop
  | ignore (hretry : w.retry r.portType = true) : Treats p w r w false
  | refuse (hretry : w.retry r.portType = false) (hblocked : w.blocked r.portType = true) :
    Treats p w r (w.refuse r.portType) false
  | serve {v : UInt32} {q : List UInt32} (hretry : w.retry r.portType = false)
      (hblocked : w.blocked r.portType = false) (hfree : w.releaseEvent = none)
      (hq : Exchange p.size w.workQ r v q) : Treats p w r (w.serve p r v q) true

theorem exchange_inv {x : List UInt32 × UInt32} {q : List UInt32} (hr : r.Ok)
    (h : exchange p q r.pkt = .ok x) : Exchange p.size q r x.2 x.1 := by
  obtain ⟨hread, hwrite, -⟩ := hr
  unfold exchange at h
  cases hp : r.portType with
  | popPort =>
    rw [if_pos (by rw [hread, hp]; rfl)] at h
    simp only [bind_eq_ok, require_eq_ok] at h
    obtain ⟨-, -, -, -, h⟩ := h
    cases q with
    | nil => cases h
    | cons d q =>
      cases h
      exact .pop hp rfl
  | pushPort =>
    rw [if_neg (by rw [hread, hp]; decide), if_pos (by rw [hwrite, hp]; rfl)] at h
    simp only [bind_eq_ok, require_eq_ok] at h
    obtain ⟨-, hlen, h⟩ := h
    cases h
    exact .push hp hlen

theorem access_inv {a : Packet} (hr : r.Ok) (h : access p w r.pkt = .ok (w', a)) :
    ∃ v q, Exchange p.size w.workQ r v q ∧ a = r.pkt.answer v ∧
      w' = { w with workQ := q, isEmpty := q.isEmpty, isFull := q.length = p.size } := by
  simp only [access, bind_eq_ok, require_eq_ok] at h
  obtain ⟨-, -, -, -, x, hx, h⟩ := h
  cases h
  exact ⟨x.2, x.1, exchange_inv hr hx, rfl, rfl⟩

theorem accept_inv (hr : r.Ok) (h : accept p w r.pkt r.portType = .ok w') :
    w.releaseEvent = none ∧ ∃ v q, Exchange p.size w.workQ r v q ∧ w' = w.serve p r v q := by
  simp only [accept, scheduleRelease, recvAtomic, bind_eq_ok, require_eq_ok] at h
  obtain ⟨_, ⟨-, hfree, hw⟩, ⟨t, a⟩, ⟨-, -, ha⟩, h⟩ := h
  cases hw
  obtain ⟨v, q, hq, rfl, rfl⟩ := access_inv hr ha
  refine ⟨hfree, v, q, hq, ?_⟩
  by_cases hresp : r.pkt.needsResponse = true
  · rw [if_pos hresp, bind_eq_ok] at h
    obtain ⟨-, -, h⟩ := h
    cases h
    simp [serve, defer, hresp]
  · rw [if_neg hresp] at h
    cases h
    simp [serve, hresp]

theorem recvTimingReq_eq (hr : r.Ok) : recvTimingReq p w r.pkt r.portType =
    if w.retry r.portType then .ok (w, false)
    else if w.blocked r.portType then .ok (w.refuse r.portType, false)
    else (accept p w r.pkt r.portType).map (·, true) := by
  obtain ⟨hread, hwrite, -, hcache, -⟩ := hr
  have hmap (x : Except Fault State) : (do return (← x, true)) = x.map (·, true) := by
    cases x <;> rfl
  have hrw : r.pkt.isRead = true ∨ r.pkt.isWrite = true := by
    cases hp : r.portType <;> simp [hread, hwrite, hp]
  have hpop : ¬ (r.portType = .popPort ∧ (!r.pkt.isRead) = true) := by
    rintro ⟨hp, h⟩
    simp [hread, hp] at h
  rw [recvTimingReq, require, if_pos (by simp [hcache]), ok_bind, require, if_pos hrw,
    ok_bind, require, if_pos hpop, ok_bind, hmap]
  cases hp : r.portType with
  | popPort => simp [retry, blocked, refuse]; rfl
  | pushPort => simp [retry, blocked, refuse]; rfl

theorem recvTimingReq_inv (hr : r.Ok) (h : recvTimingReq p w r.pkt r.portType = .ok (w', b)) :
    Treats p w r w' b := by
  rw [recvTimingReq_eq hr] at h
  split_ifs at h with hretry hblocked
  · cases h
    exact .ignore hretry
  · cases h
    exact .refuse (Bool.not_eq_true _ ▸ hretry) hblocked
  · rw [Bool.not_eq_true] at hretry hblocked
    cases ha : accept p w r.pkt r.portType with
    | error f => exact nomatch ha ▸ h
    | ok t =>
      rw [ha] at h
      cases h
      obtain ⟨hfree, v, q, hq, rfl⟩ := accept_inv hr ha
      exact .serve hretry hblocked hfree hq

theorem request_inv (h : request p w r = .ok w') : r.Ok ∧ ∃ b, Treats p w r w' b := by
  simp only [request, bind_eq_ok, require_eq_ok] at h
  obtain ⟨-, hr, ⟨t, b⟩, ht, h⟩ := h
  cases h
  exact ⟨hr, b, recvTimingReq_inv hr ht⟩

def Obs.isSent : Obs → Bool
  | .sent _ _ _ => true
  | _ => false

structure Quiet (w w' : State) : Prop where
  curTick : w'.curTick = w.curTick
  workQ : w'.workQ = w.workQ
  isBusy : w'.isBusy = w.isBusy
  isEmpty : w'.isEmpty = w.isEmpty
  isFull : w'.isFull = w.isFull
  retryPop : w'.retryPop = w.retryPop
  retryPush : w'.retryPush = w.retryPush
  releaseEvent : w'.releaseEvent = w.releaseEvent
  log : ∃ os, w'.log = w.log ++ os ∧ ∀ o ∈ os, Obs.isSent o = true

theorem Quiet.sent (w : State) (t : Tick) (portType : PortType) (pkt : Packet) :
    Quiet w { w with log := w.log ++ [.sent t portType pkt] } :=
  ⟨rfl, rfl, rfl, rfl, rfl, rfl, rfl, rfl, _, rfl, by simp [Obs.isSent]⟩

theorem Quiet.answered (w : State) (owed : Bool) : Quiet w { w with respOwed := owed } :=
  ⟨rfl, rfl, rfl, rfl, rfl, rfl, rfl, rfl, [], by simp, by simp⟩

theorem Quiet.dequeued (w : State) : Quiet w { w with dequeueEvent := none } :=
  ⟨rfl, rfl, rfl, rfl, rfl, rfl, rfl, rfl, [], by simp, by simp⟩

theorem Quiet.popFront (w : State) : Quiet w (popFront w) := by
  unfold WorkQueue.popFront
  dsimp only
  split
  · exact ⟨rfl, rfl, rfl, rfl, rfl, rfl, rfl, rfl, [], by simp, by simp⟩
  · split_ifs
    · exact ⟨rfl, rfl, rfl, rfl, rfl, rfl, rfl, rfl, [], by simp, by simp⟩
    · exact ⟨rfl, rfl, rfl, rfl, rfl, rfl, rfl, rfl, [], by simp, by simp⟩

theorem dequeue_inv {reply : Reply} (h : dequeue p w reply = .ok w') :
    ∃ front rest, w.packetQueue = front :: rest ∧
      ((reply = .refuse ∧ w' = { w with retryResp := true, respOwed := true }) ∨
      ∃ requests t, reply = .take requests ∧ Runs.run (request p)
        { w with log := w.log ++ [.sent w.curTick front.portType front.pkt] } requests = .ok t ∧
        w' = popFront t) := by
  simp only [dequeue, bind_eq_ok, demand_eq_ok] at h
  obtain ⟨front, hfront, h⟩ := h
  obtain ⟨rest, hrest⟩ : ∃ rest, w.packetQueue = front :: rest := by
    cases hq : w.packetQueue with
    | nil => simp [hq] at hfront
    | cons d rest =>
      obtain rfl : d = front := by simpa [hq] using hfront
      exact ⟨rest, rfl⟩
  refine ⟨front, rest, hrest, ?_⟩
  cases reply with
  | refuse =>
    cases h
    exact .inl ⟨rfl, rfl⟩
  | take requests =>
    simp only [bind_eq_ok] at h
    obtain ⟨t, ht, h⟩ := h
    cases h
    exact .inr ⟨requests, t, rfl, ht, rfl⟩

@[simp] theorem refuse_retry (port port' : PortType) :
    (w.refuse port).retry port' = (decide (port = port') || w.retry port') := by
  cases port <;> cases port' <;> simp [refuse, retry]

@[simp] theorem refuse_blocked (port port' : PortType) :
    (w.refuse port).blocked port' = w.blocked port' := by
  cases port <;> cases port' <;> rfl

@[simp] theorem serve_retry {v : UInt32} {q : List UInt32} (port : PortType) :
    (w.serve p r v q).retry port = w.retry port := by
  cases port <;> rfl

def State.unretry (w : State) : PortType → State
  | .popPort => { w with retryPop := false }
  | .pushPort => { w with retryPush := false }

inductive Tells (p : Params) (w : State) (portType : PortType) (calls : List Call) : State → Prop
  | idle (hretry : w.retry portType = false) : Tells p w portType calls w
  | retry {w' : State} (hretry : w.retry portType = true)
      (hsend : sendRetryReq p (w.unretry portType) portType calls = .ok w') :
    Tells p w portType calls w'

theorem release_inv {onPop onPush : List Call} (h : release p w onPop onPush = .ok w') :
    ∃ t, Tells p { w with isBusy := false } .popPort onPop t ∧ Tells p t .pushPort onPush w' := by
  simp only [release, bind_eq_ok] at h
  obtain ⟨t, hpop, hpush⟩ := h
  refine ⟨t, ?_, ?_⟩
  · split_ifs at hpop with hretry
    · exact .retry hretry hpop
    · cases hpop
      exact .idle (Bool.eq_false_of_not_eq_true hretry)
  · split_ifs at hpush with hretry
    · exact .retry hretry hpush
    · cases hpush
      exact .idle (Bool.eq_false_of_not_eq_true hretry)

section Kept

/-! A property that the requests keep, and that does not depend on the responses, is
kept by whatever a peer calls. -/

variable {I : State → Prop} (quiet : ∀ {w w'}, Quiet w w' → I w → I w')
  (served : ∀ {w r w'}, I w → request p w r = .ok w' → I w')

include quiet served

theorem dequeue_keeps {reply : Reply} (hi : I w) (h : dequeue p w reply = .ok w') : I w' := by
  obtain ⟨front, rest, -, ⟨-, rfl⟩ | ⟨requests, t, -, ht, rfl⟩⟩ := dequeue_inv h
  · refine quiet ?_ hi
    exact ⟨rfl, rfl, rfl, rfl, rfl, rfl, rfl, rfl, [], by simp, by simp⟩
  · exact quiet (.popFront t) (Runs.run_keeps served (quiet (.sent w _ _ _) hi) ht)

theorem call_keeps {c : Call} (hi : I w) (h : call p w c = .ok w') : I w' := by
  cases c with
  | timingReq r => exact served hi h
  | respRetry reply =>
    simp only [call, recvRespRetry, bind_eq_ok, require_eq_ok] at h
    obtain ⟨-, -, -, -, h⟩ := h
    exact dequeue_keeps quiet served (quiet (.answered w false) hi) h

theorem tells_keeps {portType : PortType} {calls : List Call} (hi : I w)
    (htold : I { w.unretry portType with log := (w.unretry portType).log ++ [.retryReq portType] })
    (ht : Tells p w portType calls w') : I w' := by
  cases ht with
  | idle => exact hi
  | retry _ hsend => exact Runs.run_keeps (call_keeps quiet served) htold hsend

theorem step_keeps {e : Event} (hi : I w) (hrelease : ∀ onPop onPush,
      w.releaseEvent = some w.curTick →
      release p { w with releaseEvent := none } onPop onPush = .ok w' → I w')
    (htime : ∀ tick, (∀ t ∈ w.releaseEvent, tick ≤ t) → I { w with curTick := tick })
    (h : step p w e = .ok w') : I w' := by
  cases e with
  | call c => exact call_keeps quiet served hi h
  | release onPop onPush =>
    simp only [step, bind_eq_ok, require_eq_ok] at h
    obtain ⟨-, hw, h⟩ := h
    exact hrelease onPop onPush hw h
  | dequeue reply =>
    simp only [step, bind_eq_ok, require_eq_ok] at h
    obtain ⟨-, -, h⟩ := h
    exact dequeue_keeps quiet served (quiet (.dequeued w) hi) h
  | elapse tick =>
    simp only [step, bind_eq_ok, require_eq_ok] at h
    obtain ⟨-, hbound, h⟩ := h
    cases h
    exact htime tick hbound.2.1
  | drain | resume =>
    simp only [step, bind_eq_ok, require_eq_ok] at h
    obtain ⟨-, -, h⟩ := h
    cases h
    refine quiet ?_ hi
    exact ⟨rfl, rfl, rfl, rfl, rfl, rfl, rfl, rfl, [], by simp, by simp⟩

end Kept

end HetSim.WorkQueue
