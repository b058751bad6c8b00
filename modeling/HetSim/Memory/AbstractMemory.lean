import HetSim.Memory.Packet
import HetSim.Address.Range
import HetSim.Library.Runs

/-!
# The abstract memory

A memory that serves one packet after the other, with the list of locked addresses behind
load-locked and store-conditional. A packet has the address of its request.
-/

namespace HetSim.Memory
open Address (Addr AddrRange)
open Checked

abbrev Byte := BitVec 8

def InvalidContextID : ℤ := -1

/-- What a swap does with the bytes it finds. -/
inductive Swap
  | atomicOp (op : List Byte → List Byte)
  | always
  | condSwap (extraData : BitVec 64)

def Swap.isAtomicOp : Swap → Bool
  | .atomicOp _ => true
  | _ => false

structure Access where
  cmd : MemCmd
  addr : Addr
  size : ℕ
  contextId : Option ℤ := none
  cacheResponding : Bool := false
  data : List Byte := []
  /-- Not masked, if empty. -/
  byteEnable : List Bool := []
  swap : Swap := .always

structure LockedAddr where
  addr : Addr
  contextId : ℤ
  deriving DecidableEq

def LockedAddr.mask (paddr : Addr) : Addr := paddr &&& ~~~0xf

structure AbstractMemory where
  range : AddrRange
  /-- Without a backing store the bytes are not kept. -/
  null : Bool
  pmem : Addr → Byte
  lockedAddrList : List LockedAddr

namespace AbstractMemory

def create (range : AddrRange) (null : Bool) (pmem : Addr → Byte) : AbstractMemory :=
  ⟨range, null, pmem, []⟩

end AbstractMemory

inductive AccessFault
  | range (f : Address.Fault)
  | outOfRange -- assert(pkt->getAddrRange().isSubset(range))
  | noContextId -- assert(req->hasContextId())
  | invalidContextId -- assert(contextId != InvalidContextID)
  | readIsWrite -- assert(!pkt->isWrite())
  | lockFromCache -- assert(!pkt->fromCache())
  | byteEnableSize -- assert(req->getByteEnable().size() == getSize())
  | swapNeedsMemory
  | invalidSwapSize
  | unexpectedPacket
  deriving DecidableEq

/-- What is done besides: the data of a read, the result of a store conditional, and the
contexts whose exclusive monitor is cleared. -/
structure Response where
  data : List Byte := []
  extraData : Option Bool := none
  clearExclusive : List ℤ := []

namespace Access

variable (pkt : Access)

def isRead : Bool := pkt.cmd.testCmdAttrib .isRead
def isWrite : Bool := pkt.cmd.testCmdAttrib .isWrite
def isLLSC : Bool := pkt.cmd.testCmdAttrib .isLlsc
def isInvalidate : Bool := pkt.cmd.testCmdAttrib .isInvalidate
def isClean : Bool := pkt.cmd.testCmdAttrib .isClean
def fromCache : Bool := pkt.cmd.testCmdAttrib .fromCache
/-- The bytes a store conditional or a swap does not enable are written nevertheless. -/
def isMaskedWrite : Bool := pkt.cmd = .writeReq && pkt.byteEnable ≠ []

/-- `RangeSize(getAddr(), getSize())`. -/
def getAddrRange : AddrRange := ⟨pkt.addr, pkt.addr + BitVec.ofNat 64 pkt.size, [], 0⟩

end Access

namespace LockedAddr

def matchesContext (l : LockedAddr) (pkt : Access) : Except AccessFault Bool := do
  require (l.contextId ≠ InvalidContextID) .invalidContextId
  let contextId ← demand pkt.contextId .noContextId
  return l.contextId = contextId

/-- The loop of `trackLoadLocked`, with the new list if there is a record. -/
def modifyRecord (pkt : Access) : List LockedAddr → Except AccessFault (Option (List LockedAddr))
  | [] => return none
  | l :: ls => do
    if ← l.matchesContext pkt then
      return some ({ l with addr := mask pkt.addr } :: ls)
    else
      return (← modifyRecord pkt ls).map (l :: ·)

def trackLoadLocked (pkt : Access) (ls : List LockedAddr) :
    Except AccessFault (List LockedAddr) := do
  match ← modifyRecord pkt ls with
  | some ls' => return ls'
  | none =>
    let contextId ← demand pkt.contextId .noContextId
    return ⟨mask pkt.addr, contextId⟩ :: ls

/-- The search of a store conditional for its own record. -/
def findRecord (pkt : Access) : List LockedAddr → Except AccessFault Bool
  | [] => return false
  | l :: ls =>
    if l.addr = mask pkt.addr then do
      if ← l.matchesContext pkt then return true else findRecord pkt ls
    else
      findRecord pkt ls

/-- Erase the records of the address, with the other contexts that had one. -/
def eraseRecords (pkt : Access) : List LockedAddr → Except AccessFault (List LockedAddr × List ℤ)
  | [] => return ([], [])
  | l :: ls =>
    if l.addr = mask pkt.addr then do
      require (l.contextId ≠ InvalidContextID) .invalidContextId
      let (ls', cleared) ← eraseRecords pkt ls
      let requester := pkt.contextId.getD InvalidContextID
      return (ls', if l.contextId ≠ requester then l.contextId :: cleared else cleared)
    else do
      let (ls', cleared) ← eraseRecords pkt ls
      return (l :: ls', cleared)

def allowStore (pkt : Access) (ls : List LockedAddr) : Except AccessFault Bool :=
  if pkt.isLLSC then findRecord pkt ls else return true

def checkLockedAddrList (pkt : Access) (ls : List LockedAddr) :
    Except AccessFault (Bool × List LockedAddr × List ℤ) := do
  if ← allowStore pkt ls then
    let (ls', cleared) ← eraseRecords pkt ls
    return (true, ls', cleared)
  else
    return (false, ls, [])

def writeOK (pkt : Access) (ls : List LockedAddr) :
    Except AccessFault (Bool × List LockedAddr × List ℤ) :=
  if ls = [] then return (!pkt.isLLSC, ls, []) else checkLockedAddrList pkt ls

end LockedAddr

namespace AbstractMemory

variable (s : AbstractMemory) (pkt : Access)

/-- The data of the packet after a read. -/
def read : List Byte :=
  if s.null then pkt.data
  else (List.range pkt.size).map fun i => s.pmem (pkt.addr + BitVec.ofNat 64 i)

/-- The byte at the offset is written. -/
def enabled (offset : ℕ) : Bool :=
  offset < pkt.size && (!pkt.isMaskedWrite || pkt.byteEnable.getD offset false)

def write (data : List Byte) : AbstractMemory :=
  if s.null then s
  else { s with
    pmem := fun a =>
      let offset := (a - pkt.addr).toNat
      if enabled pkt offset then data.getD offset 0 else s.pmem a }

/-- The bytes of the condition in the order of the host. -/
def conditionBytes (extraData : BitVec 64) : List Byte :=
  (List.range 8).map fun i => (extraData >>> (8 * i)).setWidth 8

def swapData (mem : List Byte) : Except AccessFault (List Byte) :=
  match pkt.swap with
  | .atomicOp op => return op mem
  | .always => return pkt.data
  | .condSwap extraData => do
    require (pkt.size = 8 ∨ pkt.size = 4) .invalidSwapSize
    return if (conditionBytes extraData).take pkt.size = mem then pkt.data else mem

def swap : Except AccessFault (Response × AbstractMemory) := do
  let mem := s.read pkt
  require (pkt.swap.isAtomicOp || !s.null) .swapNeedsMemory
  let data ← swapData pkt mem
  return ({ data := mem }, s.write pkt data)

def accessRead : Except AccessFault (Response × AbstractMemory) := do
  require (!pkt.isWrite) .readIsWrite
  if pkt.isLLSC then
    require (!pkt.fromCache) .lockFromCache
    let lockedAddrList ← LockedAddr.trackLoadLocked pkt s.lockedAddrList
    return ({ data := s.read pkt }, { s with lockedAddrList })
  else
    return ({ data := s.read pkt }, s)

def accessWrite : Except AccessFault (Response × AbstractMemory) := do
  let (allowed, lockedAddrList, clearExclusive) ← LockedAddr.writeOK pkt s.lockedAddrList
  require (!(allowed && !s.null && pkt.isMaskedWrite) || pkt.byteEnable.length = pkt.size)
    .byteEnableSize
  let s := { s with lockedAddrList }
  let extraData := if pkt.isLLSC then some allowed else none
  return ({ extraData, clearExclusive }, if allowed then s.write pkt pkt.data else s)

def serve : Except AccessFault (Response × AbstractMemory) :=
  if pkt.cmd = .swapReq then s.swap pkt
  else if pkt.isRead then s.accessRead pkt
  else if pkt.isInvalidate || pkt.isClean then do
    require (!pkt.isWrite) .readIsWrite
    return ({}, s)
  else if pkt.isWrite then s.accessWrite pkt
  else .error .unexpectedPacket

def access : Except AccessFault (Response × AbstractMemory) :=
  if pkt.cacheResponding ∨ pkt.cmd = .cleanEvict ∨ pkt.cmd = .writebackClean then
    return ({}, s)
  else do
    let inRange ← (pkt.getAddrRange.isSubset s.range).mapError .range
    require inRange .outOfRange
    s.serve pkt

/-- A step of the memory. -/
def next : Except AccessFault AbstractMemory := return (← s.access pkt).2

end AbstractMemory

end HetSim.Memory
