import HetSim.Library.Handles
import HetSim.Mshr.Register

/-!
# The queue of registers

Registers are numbered. An iterator is the identity of a node: one that is erased is gone, and one
that is spliced stays the same. Going through an iterator without a node stops with a fault.
Signalling that the queue has drained is left out.
-/

namespace HetSim.Mshr
open Address (Addr)
open Checked Handles Memory

structure Entry where
  mshr : MSHR := {}
  readyIter : ℕ := 0
  allocIter : ℕ := 0
  deriving DecidableEq

structure MSHRQueue (numEntries : ℕ) where
  numReserve : ℕ
  entries : Fin numEntries → Entry
  allocatedList : List (Node (Fin numEntries))
  readyList : List (Node (Fin numEntries))
  freeList : List (Fin numEntries)
  numInService : ℤ
  allocated : ℤ
  /-- The identity of the next node. -/
  fresh : ℕ

/-- No node has the identity 0 of an iterator that was never set. -/
def MSHRQueue.init (requested reserve : ℕ) : MSHRQueue (requested + reserve) :=
  { numReserve := reserve
    entries := fun _ => {}
    allocatedList := []
    readyList := []
    freeList := List.finRange (requested + reserve)
    numInService := 0
    allocated := 0
    fresh := 1 }

namespace MSHRQueue

variable {numEntries : ℕ} (q : MSHRQueue numEntries)

def isFull : Bool := (numEntries : ℤ) - q.numReserve ≤ q.allocated

/-- The register of an entry is replaced. -/
def setMshr (e : Fin numEntries) (mshr : MSHR) : MSHRQueue numEntries :=
  { q with entries := Function.update q.entries e { q.entries e with mshr } }

/-- `readyList.erase(entry->readyIter)`. -/
def eraseReady (e : Fin numEntries) : Except Fault (MSHRQueue numEntries) := do
  require ((q.entries e).readyIter ∈ ids q.readyList) .danglingIterator
  return { q with readyList := q.readyList.filter (·.id ≠ (q.entries e).readyIter) }

def readyTime (e : Fin numEntries) : Tick := (q.entries e).mshr.readyTime

/-- The entries that stay in front of a new one. The search from the front always ends. -/
def readyBefore (e : Fin numEntries) : ℕ :=
  if q.readyList.getLast?.all (q.readyTime ·.value ≤ q.readyTime e) then q.readyList.length
  else q.readyList.findIdx (q.readyTime e < q.readyTime ·.value)

/-- `entry->readyIter = readyList.insert(position, entry)`. -/
def insertReady (position : ℕ) (e : Fin numEntries) : MSHRQueue numEntries :=
  { q with
    readyList := q.readyList.take position ++ ⟨q.fresh, e⟩ :: q.readyList.drop position
    entries := Function.update q.entries e { q.entries e with readyIter := q.fresh }
    fresh := q.fresh + 1 }

def addToReadyList (e : Fin numEntries) : MSHRQueue numEntries := q.insertReady (q.readyBefore e) e

/-- The first free entry moves to the end of the allocated list. -/
def takeFree (e : Fin numEntries) (freeList : List (Fin numEntries)) (mshr : MSHR) :
    MSHRQueue numEntries :=
  { q with
    freeList
    allocatedList := q.allocatedList ++ [⟨q.fresh, e⟩]
    entries := Function.update q.entries e { q.entries e with mshr, allocIter := q.fresh }
    fresh := q.fresh + 1 }

def allocate (blkAddr : Addr) (blkSize : ℕ) (pkt : Packet) (whenReady : Tick) (order : ℕ)
    (allocOnFill : Bool) : Except Fault (MSHRQueue numEntries × Fin numEntries) := do
  match q.freeList with
  | [] => throw .noFreeEntry
  | e :: freeList =>
    require ((q.entries e).mshr.getNumTargets = 0) .targetsLeft
    let mshr ← (q.entries e).mshr.allocate blkAddr blkSize pkt whenReady order allocOnFill
    let q := (q.takeFree e freeList mshr).addToReadyList e
    return ({ q with allocated := q.allocated + 1 }, e)

def moveToFront (e : Fin numEntries) : Except Fault (MSHRQueue numEntries) := do
  if !(q.entries e).mshr.inService then
    let node ← demand (q.readyList.find? (·.id = (q.entries e).readyIter)) .danglingIterator
    require (node.value = e) .notInReadyList
    let q ← q.eraseReady e
    return q.insertReady 0 e
  else
    return q

/-- The search starts at the entry itself, where it ends, so `splice` changes nothing. -/
def delay (e : Fin numEntries) (curTick delayTicks : Tick) :
    Except Fault (MSHRQueue numEntries) := do
  let mshr ← (q.entries e).mshr.delay curTick delayTicks
  let q := q.setMshr e mshr
  let front := q.readyList.takeWhile (·.id ≠ (q.entries e).readyIter)
  match q.readyList.dropWhile (·.id ≠ (q.entries e).readyIter) with
  | [] => throw .danglingIterator
  | node :: rest =>
    let n := (node :: rest).findIdx fun other => q.readyTime other.value ≤ q.readyTime e
    -- Position `n` counts the node itself; splicing it in front of itself keeps it there.
    if n = 0 then return q
    else return { q with readyList := front ++ rest.take (n - 1) ++ node :: rest.drop (n - 1) }

def markInService (e : Fin numEntries) (pendingModifiedResp : Bool) :
    Except Fault (MSHRQueue numEntries) := do
  let mshr ← (q.entries e).mshr.markInService pendingModifiedResp
  let q ← (q.setMshr e mshr).eraseReady e
  return { q with numInService := q.numInService + 1 }

def markPending (e : Fin numEntries) : Except Fault (MSHRQueue numEntries) := do
  let mshr ← (q.entries e).mshr.markPending
  let q := q.setMshr e mshr
  return addToReadyList { q with numInService := q.numInService - 1 } e

/-- The entry leaves the list it waits in, or the count of those in service. -/
def leave (e : Fin numEntries) : Except Fault (MSHRQueue numEntries) :=
  if (q.entries e).mshr.inService then pure { q with numInService := q.numInService - 1 }
  else q.eraseReady e

def deallocate (e : Fin numEntries) : Except Fault (MSHRQueue numEntries) := do
  require ((q.entries e).allocIter ∈ ids q.allocatedList) .danglingIterator
  let q := { q with
    allocatedList := q.allocatedList.filter (·.id ≠ (q.entries e).allocIter)
    freeList := e :: q.freeList
    allocated := q.allocated - 1 }
  let q ← q.leave e
  let mshr ← (q.entries e).mshr.deallocate
  return q.setMshr e mshr

/-- The second component says that the queue is no longer full. -/
def forceDeallocateTarget (e : Fin numEntries) (curTick : Tick) :
    Except Fault (MSHRQueue numEntries × Bool) := do
  let wasFull := q.isFull
  require (q.entries e).mshr.hasTargets .frontOfEmptyList
  let (mshr, _) ← (q.entries e).mshr.popTarget
  if mshr.hasTargets then
    let q := q.setMshr e mshr
    return (q, wasFull && !q.isFull)
  else
    let (mshr, promoted) ← mshr.promoteDeferredTargets curTick
    let q := q.setMshr e mshr
    if promoted then return (q, wasFull && !q.isFull)
    else
      let q ← q.deallocate e
      return (q, wasFull && !q.isFull)

end MSHRQueue

inductive Call (numEntries : ℕ)
  | allocate (blkAddr : Addr) (blkSize : ℕ) (pkt : Packet) (whenReady : Tick) (order : ℕ)
      (allocOnFill : Bool)
  | moveToFront (e : Fin numEntries)
  | delay (e : Fin numEntries) (curTick delayTicks : Tick)
  | markInService (e : Fin numEntries) (pendingModifiedResp : Bool)
  | markPending (e : Fin numEntries)
  | forceDeallocateTarget (e : Fin numEntries) (curTick : Tick)
  | deallocate (e : Fin numEntries)
  /-- The cache works on a register it has found in the queue. -/
  | does (e : Fin numEntries) (op : Op)

/-- A cache only works on allocated registers. -/
def MSHRQueue.call {numEntries : ℕ} (q : MSHRQueue numEntries) :
    Call numEntries → Except Fault (MSHRQueue numEntries)
  | .allocate blkAddr blkSize pkt whenReady order allocOnFill => do
    return (← q.allocate blkAddr blkSize pkt whenReady order allocOnFill).1
  | .moveToFront e => q.moveToFront e
  | .delay e curTick delayTicks => q.delay e curTick delayTicks
  | .markInService e pendingModifiedResp => q.markInService e pendingModifiedResp
  | .markPending e => q.markPending e
  | .forceDeallocateTarget e curTick => do return (← q.forceDeallocateTarget e curTick).1
  | .deallocate e => do
    require ((q.entries e).mshr.getNumTargets = 0) .targetsLeft
    q.deallocate e
  | .does e op => do
    require (e ∉ q.freeList) .danglingIterator
    return q.setMshr e (← (q.entries e).mshr.apply op).1

end HetSim.Mshr
