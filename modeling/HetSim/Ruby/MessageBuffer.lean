import HetSim.Library.Runs

/-!
# The message buffer

Messages wait in a priority heap until their time, or in a map of stalled messages until their
address is analyzed again. The heap is only used to get at the smallest message, so it is an
ordered list. Random delays are given from outside. The `int` that counts the stalled messages
is an integer here: its overflow at `2 ^ 31` of them is left out. `now`, `granted` and `dequeued`
are history: `granted` enqueues may still follow the last call of `areNSlotsAvailable`.
-/

namespace HetSim.Ruby
open Checked

structure Message where
  lastEnqueueTime : ℕ
  delayedTicks : ℕ
  msgCounter : ℕ
  deriving DecidableEq

namespace Message

/-- `operator>` -/
def gt (l r : Message) : Bool :=
  if l.lastEnqueueTime = r.lastEnqueueTime then r.msgCounter < l.msgCounter
  else r.lastEnqueueTime < l.lastEnqueueTime

def updateDelayedTicks (m : Message) (curTime : ℕ) : Message :=
  { m with delayedTicks := m.delayedTicks + (curTime - m.lastEnqueueTime) }

end Message

structure BufferParams where
  maxSize : ℕ
  maxSize_lt : maxSize < 2 ^ 32 -- unsigned
  strictFifo : Bool
  randomization : Bool
  systemRandomization : Bool -- RubySystem::getRandomization()
  warmupEnabled : Bool -- RubySystem::getWarmupEnabled()
  blockSizeBits : ℕ

def BufferParams.randomized (p : BufferParams) : Bool := p.systemRandomization || p.randomization

structure MessageBuffer where
  prioHeap : List Message
  stallMsgMap : List (ℕ × List Message)
  stallMapSize : ℤ
  timeLastTimeEnqueue : ℕ
  timeLastTimePop : ℕ
  lastArrivalTime : ℕ
  sizeAtCycleStart : ℕ
  stalledAtCycleStart : ℕ
  msgsThisCycle : ℕ
  msgCounter : ℕ
  now : ℕ
  granted : ℕ
  dequeued : List Message
  deriving DecidableEq

inductive BufferFault
  | noDelay -- assert(delta > 0)
  | arrivesAtOnce -- assert(arrival_time > current_time)
  | fifoViolated
  | dequeuedEarly
  | notReady -- assert(isReady(current_time))
  | hasOffset -- assert(getOffset(addr) == 0)
  | notStalled -- assert(m_stall_msg_map.count(addr) > 0)
  | negativeSize -- assert(m_stall_map_size >= 0)
  | reanalyzedEarly -- assert(m->getLastEnqueueTime() <= schdTick)
  /-- Time does not go back, and an enqueue follows a check for enough slots. -/
  | noSuchCall
  deriving DecidableEq

inductive BufferEvent
  | areNSlotsAvailable (n : ℕ)
  | enqueue (message : Message) (delta randomTime : ℕ)
  | dequeue
  | recycle (recycleLatency : ℕ)
  | stallMessage (addr : ℕ)
  | reanalyzeMessages (addr : ℕ)
  | reanalyzeAllMessages
  deriving DecidableEq

namespace MessageBuffer

def init : MessageBuffer := ⟨[], [], 0, 0, 0, 0, 0, 0, 0, 0, 0, 0, []⟩

/-- `push_back` and `push_heap`. -/
def pushHeap (m : Message) (heap : List Message) : List Message :=
  heap.orderedInsert (fun l r => !l.gt r) m

/-- `m_stall_msg_map[addr].push_back(message)` -/
def pushStalled (addr : ℕ) (m : Message) : List (ℕ × List Message) → List (ℕ × List Message)
  | [] => [(addr, [m])]
  | (a, lt) :: rest =>
    if a = addr then (a, lt ++ [m]) :: rest
    else if addr < a then (addr, [m]) :: (a, lt) :: rest
    else (a, lt) :: pushStalled addr m rest

variable (p : BufferParams) (b : MessageBuffer)

/-- The messages of the stall map. -/
def stalled : List Message := b.stallMsgMap.flatMap Prod.snd

/-- The sizes that the search for slots goes by, of the heap and of the stall map. -/
def currentSize (currentTime : ℕ) : ℕ × ℕ :=
  if b.timeLastTimePop < currentTime then
    (b.prioHeap.length % 2 ^ 32, b.stallMapSize.toNat % 2 ^ 32)
  else if b.timeLastTimeEnqueue < currentTime then (b.sizeAtCycleStart, b.stalledAtCycleStart)
  else ((b.sizeAtCycleStart + b.msgsThisCycle) % 2 ^ 32, b.stalledAtCycleStart)

def areNSlotsAvailable (n currentTime : ℕ) : Bool :=
  if p.maxSize = 0 then true
  else
    ((b.currentSize currentTime).1 + (b.currentSize currentTime).2 + n) % 2 ^ 32 ≤ p.maxSize

def isReady (currentTime : ℕ) : Bool :=
  match b.prioHeap.head? with
  | some m => m.lastEnqueueTime ≤ currentTime
  | none => false

/-- The time of the last arrival that an enqueue goes by, and the arrival time. -/
def arrivalTime (currentTime delta randomTime : ℕ) : ℕ × ℕ :=
  if !p.randomized then (b.lastArrivalTime, currentTime + delta)
  else if p.strictFifo then
    (max b.lastArrivalTime currentTime, max b.lastArrivalTime currentTime + randomTime)
  else (b.lastArrivalTime, currentTime + randomTime)

/-- The counters of an enqueue. -/
def countEnqueue (currentTime : ℕ) : MessageBuffer :=
  { b with
    timeLastTimeEnqueue := max b.timeLastTimeEnqueue currentTime
    msgsThisCycle :=
      ((if b.timeLastTimeEnqueue < currentTime then 0 else b.msgsThisCycle) + 1) % 2 ^ 32
    msgCounter := b.msgCounter + 1 }

def enqueue (message : Message) (currentTime delta randomTime : ℕ) :
    Except BufferFault MessageBuffer := do
  let b := b.countEnqueue currentTime
  require (0 < delta) .noDelay
  let (lastArrivalTime, arrivalTime) := b.arrivalTime p currentTime delta randomTime
  require (currentTime < arrivalTime) .arrivesAtOnce
  require (p.strictFifo → lastArrivalTime ≤ arrivalTime) .fifoViolated
  require (message.lastEnqueueTime ≤ currentTime) .dequeuedEarly
  let m := { message.updateDelayedTicks currentTime with
    lastEnqueueTime := arrivalTime, msgCounter := b.msgCounter }
  return { b with
    lastArrivalTime := if p.warmupEnabled then lastArrivalTime else arrivalTime
    prioHeap := pushHeap m b.prioHeap }

/-- The sizes before the first pop of a cycle are remembered. -/
def countPop (currentTime : ℕ) : MessageBuffer :=
  { b with
    sizeAtCycleStart :=
      if b.timeLastTimePop < currentTime then b.prioHeap.length % 2 ^ 32 else b.sizeAtCycleStart
    stalledAtCycleStart :=
      if b.timeLastTimePop < currentTime then b.stallMapSize.toNat % 2 ^ 32
      else b.stalledAtCycleStart
    timeLastTimePop := max b.timeLastTimePop currentTime }

/-- The message that leaves the heap, with its delay. -/
def dequeue (currentTime : ℕ) : Except BufferFault (Message × MessageBuffer) := do
  require (b.isReady currentTime) .notReady
  let message ← demand b.prioHeap.head? .notReady
  let b := b.countPop currentTime
  return (message.updateDelayedTicks currentTime, { b with prioHeap := b.prioHeap.tail })

def recycle (currentTime recycleLatency : ℕ) : Except BufferFault MessageBuffer := do
  require (b.isReady currentTime) .notReady
  let node ← demand b.prioHeap.head? .notReady
  let node := { node with lastEnqueueTime := currentTime + recycleLatency }
  return { b with prioHeap := pushHeap node b.prioHeap.tail }

def stallMessage (addr currentTime : ℕ) : Except BufferFault MessageBuffer := do
  require (b.isReady currentTime) .notReady
  require (addr % 2 ^ p.blockSizeBits = 0) .hasOffset
  let (message, b) ← b.dequeue currentTime
  return { b with
    stallMsgMap := pushStalled addr message b.stallMsgMap
    stallMapSize := b.stallMapSize + 1 }

def reanalyzeList (schdTick : ℕ) (lt : List Message) : Except BufferFault MessageBuffer :=
  Runs.run (fun b (m : Message) => do
    require (m.lastEnqueueTime ≤ schdTick) .reanalyzedEarly
    return { b with prioHeap := pushHeap m b.prioHeap }) b lt

/-- One list of the stall map is taken off its size and put back on the heap. -/
def reanalyze (currentTime : ℕ) (lt : List Message) : Except BufferFault MessageBuffer := do
  let size := b.stallMapSize - lt.length
  require (0 ≤ size) .negativeSize
  reanalyzeList { b with stallMapSize := size } currentTime lt

def reanalyzeMessages (addr currentTime : ℕ) : Except BufferFault MessageBuffer := do
  let lt ← demand (b.stallMsgMap.lookup addr) .notStalled
  let b ← b.reanalyze currentTime lt
  return { b with stallMsgMap := b.stallMsgMap.eraseP (·.1 = addr) }

def reanalyzeAllMessages (currentTime : ℕ) : Except BufferFault MessageBuffer := do
  let b ← Runs.run (fun b (x : ℕ × List Message) => b.reanalyze currentTime x.2) b b.stallMsgMap
  return { b with stallMsgMap := [] }

/-- An event at a time. -/
def apply (currentTime : ℕ) : BufferEvent → Except BufferFault MessageBuffer
  | .areNSlotsAvailable n =>
    return { b with granted := if b.areNSlotsAvailable p n currentTime then n else 0 }
  | .enqueue message delta randomTime => do
    require (0 < b.granted ∧ b.now = currentTime) .noSuchCall
    let b ← b.enqueue p message currentTime delta randomTime
    return { b with granted := b.granted - 1 }
  | .dequeue => do
    let (message, b) ← b.dequeue currentTime
    return { b with granted := 0, dequeued := b.dequeued ++ [message] }
  | .recycle recycleLatency => do
    let b ← b.recycle currentTime recycleLatency
    return { b with granted := 0 }
  | .stallMessage addr => do
    let b ← b.stallMessage p addr currentTime
    return { b with granted := 0 }
  | .reanalyzeMessages addr => do
    let b ← b.reanalyzeMessages addr currentTime
    return { b with granted := 0 }
  | .reanalyzeAllMessages => do
    let b ← b.reanalyzeAllMessages currentTime
    return { b with granted := 0 }

def step (e : ℕ × BufferEvent) : Except BufferFault MessageBuffer := do
  require (b.now ≤ e.1) .noSuchCall
  let b ← b.apply p e.1 e.2
  return { b with now := e.1 }

end MessageBuffer

end HetSim.Ruby
