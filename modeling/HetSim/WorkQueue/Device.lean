import HetSim.Library.Runs

/-!
# The work queue device

The device has a port that only pops and one that only pushes. What a peer does while the device
calls it is an argument: `sendRetryReq`, and a response that is taken, may be answered with further
requests. Ticks do not overflow.
-/

namespace HetSim.WorkQueue
open Checked

abbrev Tick := ℕ

inductive PortType
  | popPort
  | pushPort
  deriving DecidableEq

def PortType.other : PortType → PortType
  | .popPort => .pushPort
  | .pushPort => .popPort

structure Packet where
  isRead : Bool
  isWrite : Bool
  isLLSC : Bool
  needsResponse : Bool
  isResponse : Bool
  cacheResponding : Bool
  size : ℕ
  data : UInt32
  deriving DecidableEq

def Packet.makeResponse (pkt : Packet) : Packet :=
  { pkt with needsResponse := false, isResponse := true }

structure DeferredPacket where
  tick : Tick
  pkt : Packet
  portType : PortType
  deriving DecidableEq

inductive DrainState
  | running
  | draining
  | drained
  deriving DecidableEq

structure Request where
  portType : PortType
  pkt : Packet
  deriving DecidableEq

inductive Obs
  | accepted (tick : Tick) (r : Request) (answer : Packet)
  | retryReq (portType : PortType)
  | sent (tick : Tick) (portType : PortType) (pkt : Packet)
  deriving DecidableEq

inductive Fault
  | notOffered -- a call or an event that the peers or the event queue do not make
  | cacheResponding
  | notReadOrWrite
  | popNotRead
  | writeNotOK
  | badSize
  | readWrites
  | readLLSC
  | poppedEmpty -- "Work popped when queue was empty"
  | pushedFull -- "Work pushed when queue was full"
  | unexpectedPacket
  | notResponse
  | alreadyScheduled
  | packetQueueEmpty
  | noRetryResp
  deriving DecidableEq

structure Params where
  size : ℕ
  latency : Tick
  deriving DecidableEq

/-- `respOwed` belongs to the peers: one of them refused a response and has not called
`recvRespRetry` since. The log is the history of the ports. -/
structure State where
  curTick : Tick
  workQ : List UInt32
  isBusy : Bool
  isEmpty : Bool
  isFull : Bool
  retryPop : Bool
  retryPush : Bool
  retryResp : Bool
  packetQueue : List DeferredPacket
  releaseEvent : Option Tick
  dequeueEvent : Option Tick
  drainState : DrainState
  respOwed : Bool
  log : List Obs
  deriving DecidableEq

def State.init : State where
  curTick := 0
  workQ := []
  isBusy := false
  isEmpty := true
  isFull := false
  retryPop := false
  retryPush := false
  retryResp := false
  packetQueue := []
  releaseEvent := none
  dequeueEvent := none
  drainState := .running
  respOwed := false
  log := []

-- No load is ever tracked as locked, so `lockedAddrList` stays empty.
def writeOK (pkt : Packet) : Bool := !pkt.isLLSC

/-- The work items behind a read or a write, and the word that the packet carries then. -/
def exchange (p : Params) (workQ : List UInt32) (pkt : Packet) :
    Except Fault (List UInt32 × UInt32) :=
  if pkt.isRead then do
    require (!pkt.isWrite) .readWrites
    require (!pkt.isLLSC) .readLLSC
    match workQ with
    | [] => .error .poppedEmpty
    | data :: workQ => return (workQ, data)
  else if pkt.isWrite then do
    require (workQ.length ≠ p.size) .pushedFull
    return (workQ ++ [pkt.data], pkt.data)
  else .error .unexpectedPacket

def access (p : Params) (w : State) (pkt : Packet) : Except Fault (State × Packet) := do
  require (writeOK pkt) .writeNotOK
  require (pkt.size = 4) .badSize
  let (workQ, data) ← exchange p w.workQ pkt
  let pkt := { pkt with data := data }
  let pkt := if pkt.needsResponse then pkt.makeResponse else pkt
  return ({ w with workQ, isEmpty := workQ.isEmpty, isFull := workQ.length = p.size }, pkt)

def recvAtomic (p : Params) (w : State) (pkt : Packet) : Except Fault (State × Packet) := do
  require (!pkt.cacheResponding) .cacheResponding
  access p w pkt

def scheduleRelease (w : State) (tick : Tick) : Except Fault State := do
  require (w.releaseEvent = none) .alreadyScheduled
  return { w with releaseEvent := some tick }

/-- The response is queued behind the others, and waits there for the dequeue event. -/
def defer (p : Params) (w : State) (portType : PortType) (pkt : Packet) : State :=
  let tick := w.curTick + p.latency
  { w with
    packetQueue := w.packetQueue ++ [⟨tick, pkt, portType⟩]
    dequeueEvent :=
      if !w.retryResp ∧ w.dequeueEvent = none then some tick else w.dequeueEvent }

/-- The rest of `recvTimingReq` for a request that is not refused. -/
def accept (p : Params) (w : State) (pkt : Packet) (portType : PortType) : Except Fault State := do
  let w ← scheduleRelease w (w.curTick + p.latency)
  let (w, answer) ← recvAtomic p { w with isBusy := true } pkt
  let w := { w with log := w.log ++ [.accepted w.curTick ⟨portType, pkt⟩ answer] }
  if pkt.needsResponse then
    require answer.isResponse .notResponse
    return defer p w portType answer
  else
    return w

def recvTimingReq (p : Params) (w : State) (pkt : Packet) (portType : PortType) :
    Except Fault (State × Bool) := do
  require (!pkt.cacheResponding) .cacheResponding
  require (pkt.isRead ∨ pkt.isWrite) .notReadOrWrite
  require (¬ (portType = .popPort ∧ !pkt.isRead)) .popNotRead
  if (w.retryPop ∧ portType = .popPort) ∨ (w.retryPush ∧ portType = .pushPort) then
    return (w, false)
  else if portType = .popPort ∧ (w.isBusy ∨ w.isEmpty) then
    return ({ w with retryPop := true }, false)
  else if portType = .pushPort ∧ (w.isBusy ∨ w.isFull) then
    return ({ w with retryPush := true }, false)
  else
    return (← accept p w pkt portType, true)

/-- Reads on the pop port and plain writes on the push port, one word each. -/
def Request.Ok (r : Request) : Prop :=
  r.pkt.isRead = (r.portType = .popPort : Bool) ∧ r.pkt.isWrite = (r.portType = .pushPort : Bool) ∧
    r.pkt.isLLSC = false ∧ r.pkt.cacheResponding = false ∧ r.pkt.size = 4

instance (r : Request) : Decidable r.Ok := by
  unfold Request.Ok
  infer_instance

def request (p : Params) (w : State) (r : Request) : Except Fault State := do
  require r.Ok .notOffered
  let (w, _) ← recvTimingReq p w r.pkt r.portType
  return w

/-- A peer refuses a response, or takes it and makes requests before it returns. -/
inductive Reply
  | refuse
  | take (requests : List Request)
  deriving DecidableEq

/-- The rest of `dequeue` behind a response that was taken. -/
def popFront (w : State) : State :=
  let w := { w with retryResp := false, packetQueue := w.packetQueue.tail }
  match w.packetQueue with
  | front :: _ => { w with dequeueEvent := some (max front.tick w.curTick) }
  | [] => if w.drainState = .draining then { w with drainState := .drained } else w

def dequeue (p : Params) (w : State) (reply : Reply) : Except Fault State := do
  let front ← demand w.packetQueue.head? .packetQueueEmpty
  match reply with
  | .refuse => return { w with retryResp := true, respOwed := true }
  | .take requests =>
    let w ← Runs.run (request p)
      { w with log := w.log ++ [.sent w.curTick front.portType front.pkt] } requests
    return popFront w

def recvRespRetry (p : Params) (w : State) (reply : Reply) : Except Fault State := do
  require w.retryResp .noRetryResp
  dequeue p w reply

/-- What a peer calls. -/
inductive Call
  | timingReq (r : Request)
  | respRetry (reply : Reply)
  deriving DecidableEq

def call (p : Params) (w : State) : Call → Except Fault State
  | .timingReq r => request p w r
  | .respRetry reply => do
    require w.respOwed .notOffered
    recvRespRetry p { w with respOwed := false } reply

def sendRetryReq (p : Params) (w : State) (portType : PortType) (calls : List Call) :
    Except Fault State :=
  Runs.run (call p) { w with log := w.log ++ [.retryReq portType] } calls

def release (p : Params) (w : State) (onPop onPush : List Call) : Except Fault State := do
  let w := { w with isBusy := false }
  let w ← (if w.retryPop then sendRetryReq p { w with retryPop := false } .popPort onPop
    else pure w)
  if w.retryPush then sendRetryReq p { w with retryPush := false } .pushPort onPush
  else pure w

def drain (w : State) : DrainState := if w.packetQueue ≠ [] then .draining else .drained

inductive Event
  | call (c : Call)
  | release (onPop onPush : List Call)
  | dequeue (reply : Reply)
  | elapse (tick : Tick)
  | drain
  | resume
  deriving DecidableEq

/-- The two events are serviced at their tick, are no longer scheduled when they run,
and time does not pass a scheduled event. -/
def step (p : Params) (w : State) : Event → Except Fault State
  | .call c => call p w c
  | .release onPop onPush => do
    require (w.releaseEvent = some w.curTick) .notOffered
    release p { w with releaseEvent := none } onPop onPush
  | .dequeue reply => do
    require (w.dequeueEvent = some w.curTick) .notOffered
    dequeue p { w with dequeueEvent := none } reply
  | .elapse tick => do
    require (w.curTick ≤ tick ∧ (∀ t ∈ w.releaseEvent, tick ≤ t) ∧ ∀ t ∈ w.dequeueEvent, tick ≤ t)
      .notOffered
    return { w with curTick := tick }
  | .drain => do
    require (w.drainState ≠ .drained) .notOffered
    return { w with drainState := drain w }
  | .resume => do
    require (w.drainState = .drained) .notOffered
    return { w with drainState := .running }

end HetSim.WorkQueue
