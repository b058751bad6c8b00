import HetSim.Memory.Packet
import HetSim.Library.Runs

/-!
# The packet queue

A queue holds packets until their tick and then sends them through a port that may refuse one.
The events are given from outside; packets may be queued while one is sent. `arrival`, `arrived`
and `sent` are history.
-/

namespace HetSim.Memory
open Checked

/-- A tick is a 64-bit number. -/
def MaxTick : ℕ := 2 ^ 64 - 1

def Packet.matchAddr (pkt other : Packet) : Bool :=
  pkt.addr = other.addr ∧ pkt.isSecure = other.isSecure

structure DeferredPacket where
  tick : ℕ
  pkt : Packet
  arrival : ℕ
  deriving DecidableEq

inductive DrainState
  | running
  | draining
  | drained
  deriving DecidableEq

structure PacketQueueParams where
  forceOrder : Bool
  disableSanityCheck : Bool

structure PacketQueue where
  transmitList : List DeferredPacket
  waitingOnRetry : Bool
  /-- When the send event is scheduled, if it is. -/
  sendEvent : Option ℕ
  drainState : DrainState
  curTick : ℕ
  arrived : List DeferredPacket
  /-- The packets that were sent, with the tick. -/
  sent : List (DeferredPacket × ℕ)
  deriving DecidableEq

inductive QueueFault
  | inPast -- assert(when >= curTick())
  | expressSnoop -- assert(!pkt->isExpressSnoop())
  | grownTooLong
  | scheduledWhileWaiting -- assert(!sendEvent.scheduled())
  | eventInPast -- assert(when >= getCurTick()) of the event queue
  | stillWaiting -- assert(!waitingOnRetry)
  | notReady -- assert(deferredPacketReady())
  | notWaiting -- assert(waitingOnRetry)
  /-- Nothing that happens: time does not go back nor past the event, nor does the event
  happen at another tick. -/
  | noSuchEvent
  deriving DecidableEq

/-- What the port does with a packet: it accepts it, and packets are queued meanwhile, or it
refuses it. -/
inductive SendResult
  | accepted (queued : List (Packet × ℕ))
  | refused
  deriving DecidableEq

inductive QueueEvent
  | advance (tick : ℕ)
  | schedSendTiming (pkt : Packet) (when : ℕ)
  | processSendEvent (sendTiming : SendResult)
  | retry (sendTiming : SendResult)
  | drain
  | drainResume
  deriving DecidableEq

namespace PacketQueue

def init : PacketQueue := ⟨[], false, none, .running, 0, [], []⟩

variable (p : PacketQueueParams) (q : PacketQueue)

def deferredPacketReadyTime : ℕ := (q.transmitList.head?.map DeferredPacket.tick).getD MaxTick

/-- `em.schedule` and `em.reschedule`. -/
def scheduleAt (when : ℕ) : Except QueueFault PacketQueue := do
  require (q.curTick ≤ when) .eventInPast
  return { q with sendEvent := some when }

def schedSendEvent (when : ℕ) : Except QueueFault PacketQueue :=
  if q.waitingOnRetry then do
    require (q.sendEvent = none) .scheduledWhileWaiting
    return q
  else if when ≠ MaxTick then
    let when := max when (q.curTick + 1)
    match q.sendEvent with
    | none => q.scheduleAt when
    | some scheduled => if when < scheduled then q.scheduleAt when else return q
  else if q.drainState = .draining ∧ q.transmitList = [] ∧ q.sendEvent = none then
    return { q with drainState := .drained }
  else
    return q

/-- The search for the place of a packet, from the end of the list. -/
def emplace (forceOrder : Bool) (dp : DeferredPacket) :
    List DeferredPacket → Option (List DeferredPacket)
  | [] => none
  | d :: ds =>
    if (forceOrder && d.pkt.matchAddr dp.pkt) || d.tick ≤ dp.tick then some (dp :: d :: ds)
    else (emplace forceOrder dp ds).map (d :: ·)

def schedSendTiming (pkt : Packet) (when : ℕ) : Except QueueFault PacketQueue := do
  require (q.curTick ≤ when) .inPast
  require (!pkt.expressSnoop) .expressSnoop
  require (p.disableSanityCheck || q.transmitList.length ≤ 100) .grownTooLong
  let dp : DeferredPacket := ⟨when, pkt, q.arrived.length⟩
  let q := { q with arrived := q.arrived ++ [dp] }
  match emplace p.forceOrder dp q.transmitList.reverse with
  | some ds => return { q with transmitList := ds.reverse }
  | none => schedSendEvent { q with transmitList := dp :: q.transmitList } when

def schedAll (queued : List (Packet × ℕ)) : Except QueueFault PacketQueue :=
  Runs.run (fun q (x : Packet × ℕ) => q.schedSendTiming p x.1 x.2) q queued

/-- The call of `sendTiming` with the packet taken off the list, and what depends on it. -/
def send (dp : DeferredPacket) : SendResult → Except QueueFault PacketQueue
  | .accepted queued => do
    let q ← schedAll p { q with
      transmitList := q.transmitList.tail
      sent := q.sent ++ [(dp, q.curTick)] } queued
    q.schedSendEvent q.deferredPacketReadyTime
  | .refused => return { q with waitingOnRetry := true }

def sendDeferredPacket (sendTiming : SendResult) : Except QueueFault PacketQueue := do
  require (!q.waitingOnRetry) .stillWaiting
  let dp ← demand q.transmitList.head? .notReady
  require (dp.tick ≤ q.curTick) .notReady
  q.send p dp sendTiming

def processSendEvent (sendTiming : SendResult) : Except QueueFault PacketQueue := do
  require (!q.waitingOnRetry) .stillWaiting
  q.sendDeferredPacket p sendTiming

def retry (sendTiming : SendResult) : Except QueueFault PacketQueue := do
  require q.waitingOnRetry .notWaiting
  sendDeferredPacket p { q with waitingOnRetry := false } sendTiming

def drain : PacketQueue :=
  { q with drainState := if q.transmitList = [] then .drained else .draining }

def step : QueueEvent → Except QueueFault PacketQueue
  | .advance tick => do
    require (q.curTick ≤ tick ∧ tick < MaxTick ∧ ∀ when ∈ q.sendEvent, tick ≤ when) .noSuchEvent
    return { q with curTick := tick }
  | .schedSendTiming pkt when => q.schedSendTiming p pkt when
  | .processSendEvent sendTiming => do
    require (q.sendEvent = some q.curTick) .noSuchEvent
    processSendEvent p { q with sendEvent := none } sendTiming
  | .retry sendTiming => q.retry p sendTiming
  | .drain => return q.drain
  | .drainResume => return { q with drainState := .running }

end PacketQueue

end HetSim.Memory
