import HetSim.Library.Checked
import HetSim.Memory.Packet

/-!
# Miss status holding registers

An MSHR holds the requests that wait for one block in two lists: the targets of the request that
is sent, and those deferred to a later one. The flags of a list summarise its targets. A failed
assertion and a read of the front of an empty list stop with a fault.

Setting and clearing `downstreamPending` in the register of the cache above is left out;
`sentByMshr` says if there is such a register.
-/

namespace HetSim.Mshr
open Address Checked Memory

abbrev Tick := ℕ

inductive Source
  | fromCPU
  | fromSnoop
  | fromPrefetcher
  deriving DecidableEq

structure Target where
  readyTime : Tick
  order : ℕ
  pkt : Packet
  source : Source
  markedPending : Bool
  allocOnFill : Bool
  deriving DecidableEq

inductive Fault
  | frontOfEmptyList
  | alreadyInService
  | notInService
  | prefetchTarget
  | otherBlock
  | snoopMismatch
  | alreadyResponding
  | alreadySatisfied
  | downstreamPending
  | notDownstreamPending
  | targetsLeft
  | deferredNotReset
  | unexpectedSource
  | alreadyWritable
  | notReadyYet
  | noFreeEntry
  | danglingIterator
  | notInReadyList
  deriving DecidableEq

/-! ## Lists of targets -/

structure TargetList where
  list : List Target := []
  needsWritable : Bool := false
  hasUpgrade : Bool := false
  allocOnFill : Bool := false
  hasFromCache : Bool := false
  blkAddr : Addr := 0
  blkSize : ℕ := 0
  canMergeWrites : Bool := true
  writesBitmap : List Bool := []
  deriving DecidableEq

/-- An upgrade becomes the request to make when the copy above is lost. -/
def replaceUpgrade (pkt : Packet) : Packet :=
  if pkt.cmd = .upgradeReq then { pkt with cmd := .readExReq, isRequest := rfl }
  else if pkt.cmd = .scUpgradeReq then { pkt with cmd := .scUpgradeFailReq, isRequest := rfl }
  else if pkt.cmd = .storeCondReq then { pkt with cmd := .storeCondFailReq, isRequest := rfl }
  else pkt

namespace TargetList

def resetFlags (l : TargetList) : TargetList :=
  { l with
    canMergeWrites := true
    writesBitmap := l.writesBitmap.map fun _ => false
    needsWritable := false
    hasUpgrade := false
    allocOnFill := false
    hasFromCache := false }

def init (l : TargetList) (blkAddr : Addr) (blkSize : ℕ) : TargetList :=
  resetFlags { l with
    blkAddr
    blkSize
    writesBitmap := l.writesBitmap.take blkSize ++
      List.replicate (blkSize - l.writesBitmap.length) false }

def isReset (l : TargetList) : Bool :=
  !l.needsWritable && !l.hasUpgrade && !l.allocOnFill && !l.hasFromCache && l.canMergeWrites

def isWholeLineWrite (l : TargetList) : Bool := l.writesBitmap.all id

def noMergeFlags (r : Request) : Bool :=
  r.uncacheable || r.strictOrder || r.privileged || r.llsc || r.memSwap || r.memSwapCond || r.secure

def updateWriteFlags (l : TargetList) (pkt : Packet) : TargetList :=
  if l.isWholeLineWrite then l
  else if l.canMergeWrites then
    if !pkt.isWrite then { l with canMergeWrites := false }
    else
      let compatWrite := !noMergeFlags pkt.req
      let firstWrite := l.list.isEmpty
      let offset := (pkt.getOffset l.blkSize).toNat
      { l with
        writesBitmap :=
          if firstWrite || compatWrite then
            l.writesBitmap.mapIdx fun i b => b || (offset ≤ i ∧ i < offset + pkt.size)
          else l.writesBitmap
        canMergeWrites := compatWrite }
  else l

def updateFlags (l : TargetList) (pkt : Packet) (source : Source) (allocOnFill : Bool) :
    TargetList :=
  if source ≠ .fromSnoop then
    let l := { l with
      needsWritable := l.needsWritable || pkt.needsWritable
      hasUpgrade := l.hasUpgrade || pkt.isUpgrade || pkt.cmd = .storeCondReq
      allocOnFill := l.allocOnFill || allocOnFill }
    if source ≠ .fromPrefetcher then
      updateWriteFlags { l with hasFromCache := l.hasFromCache || pkt.fromCache } pkt
    else l
  else l

def populateFlags (l : TargetList) : TargetList :=
  l.list.foldl (fun l t => l.updateFlags t.pkt t.source t.allocOnFill) l.resetFlags

def add (l : TargetList) (pkt : Packet) (readyTime : Tick) (order : ℕ) (source : Source)
    (markPending allocOnFill : Bool) : TargetList :=
  let l := l.updateFlags pkt source allocOnFill
  { l with
    list := l.list ++
      [⟨readyTime, order, pkt, source, markPending && pkt.sentByMshr, allocOnFill⟩] }

def replaceUpgrades (l : TargetList) : TargetList :=
  if !l.hasUpgrade then l
  else { l with
    list := l.list.map fun t => { t with pkt := replaceUpgrade t.pkt }
    hasUpgrade := false }

/-- The targets of the first `n` places are no longer marked. -/
def clearDownstreamPending (l : TargetList) (n : ℕ) : TargetList :=
  { l with
    list := (l.list.take n).map (fun t => { t with markedPending := false }) ++ l.list.drop n }

variable {l : TargetList} {pkt : Packet} {source : Source} {b : Bool}

@[simp] theorem resetFlags_list : l.resetFlags.list = l.list := rfl

@[simp] theorem init_list {blkAddr : Addr} {blkSize : ℕ} :
    (l.init blkAddr blkSize).list = l.list := rfl

theorem updateWriteFlags_list : (l.updateWriteFlags pkt).list = l.list := by
  simp only [updateWriteFlags]
  split_ifs
  all_goals rfl

@[simp] theorem updateFlags_list : (l.updateFlags pkt source b).list = l.list := by
  simp only [updateFlags]
  split_ifs
  · rw [updateWriteFlags_list]
  · rfl
  · rfl

@[simp] theorem populateFlags_list : l.populateFlags.list = l.list := by
  have hfold : ∀ (ts : List Target) (l : TargetList),
      (ts.foldl (fun l t => l.updateFlags t.pkt t.source t.allocOnFill) l).list = l.list := by
    intro ts
    induction ts with
    | nil => exact fun _ => rfl
    | cons t ts ih =>
      intro l
      rw [List.foldl_cons, ih, updateFlags_list]
  rw [populateFlags, hfold, resetFlags_list]

@[simp] theorem add_list {readyTime : Tick} {order : ℕ} {markPending : Bool} :
    (l.add pkt readyTime order source markPending b).list =
      l.list ++ [⟨readyTime, order, pkt, source, markPending && pkt.sentByMshr, b⟩] := by
  simp only [add, updateFlags_list]

end TargetList

/-! ## One register -/

structure MSHR where
  readyTime : Tick := 0
  isUncacheable : Bool := false
  inService : Bool := false
  order : ℕ := 0
  blkAddr : Addr := 0
  blkSize : ℕ := 0
  isSecure : Bool := false
  downstreamPending : Bool := false
  pendingModified : Bool := false
  postInvalidate : Bool := false
  postDowngrade : Bool := false
  wasWholeLineWrite : Bool := false
  isForward : Bool := false
  targets : TargetList := {}
  deferredTargets : TargetList := {}
  deriving DecidableEq

namespace MSHR

variable (m : MSHR)

def getNumTargets : ℕ := m.targets.list.length + m.deferredTargets.list.length

def hasTargets : Bool := !m.targets.list.isEmpty

def isPendingModified : Except Fault Bool := do
  require m.inService .notInService
  return m.pendingModified

def hasPostInvalidate : Except Fault Bool := do
  require m.inService .notInService
  return m.postInvalidate

def hasPostDowngrade : Except Fault Bool := do
  require m.inService .notInService
  return m.postDowngrade

def allocate (blkAddr : Addr) (blkSize : ℕ) (target : Packet) (whenReady : Tick) (order : ℕ)
    (allocOnFill : Bool) : Except Fault MSHR := do
  let source := if target.cmd = .hardPFReq then Source.fromPrefetcher else Source.fromCPU
  let targets := (m.targets.init blkAddr blkSize).add target whenReady order source true allocOnFill
  let front ← demand targets.list.head? .frontOfEmptyList
  require (target.matchBlockAddr front.pkt blkSize) .otherBlock
  return { m with
    blkAddr
    blkSize
    isSecure := target.isSecure
    readyTime := whenReady
    order
    isForward := false
    wasWholeLineWrite := false
    isUncacheable := target.req.uncacheable
    inService := false
    downstreamPending := false
    targets
    deferredTargets := m.deferredTargets.init blkAddr blkSize }

/-- What a cache below does in `TargetList::add`. -/
def setDownstreamPending : Except Fault MSHR := do
  require (!m.downstreamPending) .downstreamPending
  return { m with downstreamPending := true }

def clearDownstreamPending : Except Fault MSHR := do
  require m.downstreamPending .notDownstreamPending
  return { m with
    downstreamPending := false
    targets := m.targets.clearDownstreamPending m.targets.list.length }

def markInService (pendingModifiedResp : Bool) : Except Fault MSHR := do
  require (!m.inService) .alreadyInService
  return { m with
    inService := true
    pendingModified := m.targets.needsWritable || pendingModifiedResp
    postInvalidate := false
    postDowngrade := false
    targets :=
      if !m.downstreamPending then m.targets.clearDownstreamPending m.targets.list.length
      else m.targets
    wasWholeLineWrite := m.targets.isWholeLineWrite }

def deallocate : Except Fault MSHR := do
  require m.targets.list.isEmpty .targetsLeft
  require m.deferredTargets.isReset .deferredNotReset
  return { m with
    targets := m.targets.resetFlags
    inService := false }

/-- The flags say that a new target has to wait for the response. -/
def responseTooWeak (pkt : Packet) : Except Fault Bool := do
  if !m.inService then return false
  if ← m.hasPostInvalidate then return true
  if !pkt.needsWritable then return false
  if !(← m.isPendingModified) then return true
  if ← m.hasPostDowngrade then return true
  return m.isForward

def allocateTarget (pkt : Packet) (whenReady : Tick) (order : ℕ) (allocOnFill : Bool) :
    Except Fault MSHR := do
  require (pkt.cmd ≠ .hardPFReq) .prefetchTarget
  let front ← demand m.targets.list.head? .frontOfEmptyList
  let tooWeak ← m.responseTooWeak pkt
  if pkt.req.isCacheMaintenance || front.pkt.req.isCacheMaintenance ||
      !m.deferredTargets.list.isEmpty || tooWeak then
    let pkt := if m.inService && m.postInvalidate then replaceUpgrade pkt else pkt
    return { m with
      deferredTargets :=
        m.deferredTargets.add pkt whenReady order .fromCPU true allocOnFill }
  else
    return { m with
      targets := m.targets.add pkt whenReady order .fromCPU (!m.inService) allocOnFill }

def setCacheResponding (pkt : Packet) : Except Fault Packet := do
  require (!pkt.cacheResponding) .alreadyResponding
  return { pkt with cacheResponding := true }

def setResponderHadWritable (pkt : Packet) : Except Fault Packet := do
  require (!pkt.responderHadWritable) .alreadyResponding
  return { pkt with responderHadWritable := true }

def setSatisfied (pkt : Packet) : Except Fault Packet := do
  require (!pkt.satisfied) .alreadySatisfied
  return { pkt with satisfied := true }

/-- The snooped packet learns who responds to it. -/
def markSnooped (pkt : Packet) (willRespond : Bool) : Except Fault Packet :=
  if willRespond then setCacheResponding pkt >>= setResponderHadWritable
  else if m.pendingModified && pkt.isClean then setSatisfied pkt
  else pure pkt

/-- The snoop is saved as a target, to be replayed after the response. -/
def saveSnoop (pkt : Packet) (order : ℕ) (curTick : Tick) (willRespond : Bool) :
    Except Fault (MSHR × Packet) := do
  let cpPkt := if willRespond then pkt.cleared else pkt.ofRequest m.blkSize
  let pkt ← m.markSnooped pkt willRespond
  return ({ m with
    targets := m.targets.add cpPkt curTick order .fromSnoop
      (m.downstreamPending && m.targets.needsWritable) false
    postInvalidate := m.postInvalidate || pkt.needsWritable || pkt.isInvalidate }, pkt)

def saveIfNeeded (pkt : Packet) (order : ℕ) (curTick : Tick) (willRespond : Bool) :
    Except Fault (MSHR × Packet) :=
  if m.pendingModified || pkt.isInvalidate then m.saveSnoop pkt order curTick willRespond
  else pure (m, pkt)

/-- The snooped request takes a shared copy. -/
def downgrade (pkt : Packet) : MSHR × Packet :=
  if !pkt.needsWritable && !pkt.req.uncacheable then
    ({ m with postDowngrade := true }, { pkt with hasSharers := true })
  else (m, pkt)

/-- A snoop of a request that logically follows the one in service. -/
def snoopInService (pkt : Packet) (order : ℕ) (curTick : Tick) :
    Except Fault (MSHR × Packet × Bool) := do
  let front ← demand m.targets.list.head? .frontOfEmptyList
  if (← m.hasPostInvalidate) || front.pkt.req.isCacheInvalidate then return (m, pkt, true)
  let willRespond := (← m.isPendingModified) && pkt.needsResponse && !pkt.isClean
  let (m, pkt) ← m.saveIfNeeded pkt order curTick willRespond
  let (m, pkt) := m.downgrade pkt
  return (m, pkt, willRespond)

/-- Returns the snooped packet with its new flags, and if the cache will respond to it. -/
def handleSnoop (pkt : Packet) (order : ℕ) (curTick : Tick) :
    Except Fault (MSHR × Packet × Bool) := do
  require (pkt.needsWritable = pkt.isInvalidate ∨ pkt.req.isCacheMaintenance) .snoopMismatch
  let invalidates := pkt.needsWritable || pkt.req.isCacheInvalidate
  if !m.inService || (pkt.expressSnoop && m.downstreamPending) then
    if invalidates then
      return ({ m with
        targets := m.targets.replaceUpgrades
        deferredTargets := m.deferredTargets.replaceUpgrades }, pkt, false)
    else
      return (m, pkt, false)
  else if invalidates then
    snoopInService { m with deferredTargets := m.deferredTargets.replaceUpgrades } pkt order curTick
  else
    m.snoopInService pkt order curTick

/-- The loop over the targets behind the first: the ones that stay, and the ones taken. -/
def takeSnoops : List Target → Except Fault (List Target × List Target)
  | [] => return ([], [])
  | t :: ts => do
    if t.source = .fromCPU then
      let (stay, taken) ← takeSnoops ts
      return (t :: stay, taken)
    else
      require (t.source = .fromSnoop) .unexpectedSource
      let (stay, taken) ← takeSnoops ts
      return (stay, t :: taken)

def extractServiceableTargets (cmd : MemCmd) : Except Fault (MSHR × TargetList) := do
  let readyTargets : TargetList := TargetList.init {} m.blkAddr m.blkSize
  if cmd = .readRespWithInvalidate then
    match m.targets.list with
    | [] => throw .frontOfEmptyList
    | first :: rest =>
      require (first.source = .fromCPU ∨ first.source = .fromPrefetcher) .unexpectedSource
      let (stay, taken) ← takeSnoops rest
      return ({ m with targets := TargetList.populateFlags { m.targets with list := stay } },
        TargetList.populateFlags { readyTargets with list := first :: taken })
  else
    return ({ m with targets := readyTargets.populateFlags }, m.targets)

/-- The deferred targets that are promoted when no target is left. -/
def promotable : ℕ :=
  let n := m.deferredTargets.list.findIdx fun t => t.pkt.req.isCacheMaintenance
  if n = 0 then if m.targets.list.isEmpty then 1 else 0 else n

/-- The first `n` deferred targets become targets. -/
def splice (n : ℕ) : MSHR :=
  { m with
    targets := { m.targets with list := m.targets.list ++ m.deferredTargets.list.take n }
    deferredTargets := { m.deferredTargets with list := m.deferredTargets.list.drop n } }

def promoteDeferredTargets (curTick : Tick) : Except Fault (MSHR × Bool) := do
  if m.targets.list.isEmpty && m.deferredTargets.list.isEmpty then return (m, false)
  let m := m.splice m.promotable
  let front ← demand m.targets.list.head? .frontOfEmptyList
  return ({ m with
    deferredTargets := m.deferredTargets.populateFlags
    targets := m.targets.populateFlags
    order := front.order
    readyTime := max curTick front.readyTime }, true)

/-- The length of the longest part in front that satisfies the condition, which reads
one target more. -/
def promoteRun (pred : Target → Bool) : List Target → Except Fault ℕ
  | [] => return 0
  | t :: ts => do
    require (t.source = .fromCPU) .unexpectedSource
    if pred t then return (← promoteRun pred ts) + 1 else return 0

def promoteIf (pred : Target → Bool) : Except Fault MSHR := do
  require (!m.downstreamPending) .downstreamPending
  let n ← promoteRun pred m.deferredTargets.list
  let m := splice { m with deferredTargets := m.deferredTargets.clearDownstreamPending n } n
  return { m with deferredTargets := m.deferredTargets.populateFlags }

def promoteReadable : Except Fault MSHR := do
  if m.deferredTargets.list.isEmpty then return m
  if ← m.hasPostInvalidate then return m
  m.promoteIf fun t => !t.pkt.req.isCacheInvalidate && !t.pkt.needsWritable

/-- The first deferred target is only looked at when there is one. -/
def promoteWritable : Except Fault MSHR := do
  if !m.deferredTargets.needsWritable then return m
  if ← m.hasPostInvalidate then return m
  if ← m.hasPostDowngrade then return m
  let front ← demand m.deferredTargets.list.head? .frontOfEmptyList
  if front.pkt.req.isCacheInvalidate then return m
  require (!m.targets.needsWritable) .alreadyWritable
  promoteIf { m with targets := { m.targets with needsWritable := true } }
    fun t => !t.pkt.req.isCacheInvalidate

def popTarget : Except Fault (MSHR × Target) :=
  match m.targets.list with
  | [] => throw .frontOfEmptyList
  | t :: ts => return ({ m with targets := { m.targets with list := ts } }, t)

def delay (curTick delayTicks : Tick) : Except Fault MSHR := do
  require (m.readyTime ≤ curTick) .notReadyYet
  return { m with readyTime := curTick + delayTicks }

def markPending : Except Fault MSHR := do
  require m.inService .notInService
  return { m with inService := false }

end MSHR

inductive Op
  | allocateTarget (pkt : Packet) (whenReady : Tick) (order : ℕ) (allocOnFill : Bool)
  | handleSnoop (pkt : Packet) (order : ℕ) (curTick : Tick)
  | extractServiceableTargets (cmd : MemCmd)
  | promoteDeferredTargets (curTick : Tick)
  | promoteReadable
  | promoteWritable
  | popTarget
  | setDownstreamPending
  | clearDownstreamPending
  | setForward (isForward : Bool)
  deriving DecidableEq

/-- The register afterwards, and the targets that are handed out. -/
def MSHR.apply (m : MSHR) : Op → Except Fault (MSHR × List Target)
  | .allocateTarget pkt whenReady order allocOnFill => do
    return (← m.allocateTarget pkt whenReady order allocOnFill, [])
  | .handleSnoop pkt order curTick => do return ((← m.handleSnoop pkt order curTick).1, [])
  | .extractServiceableTargets cmd => do
    let (m, ready) ← m.extractServiceableTargets cmd
    return (m, ready.list)
  | .promoteDeferredTargets curTick => do return ((← m.promoteDeferredTargets curTick).1, [])
  | .promoteReadable => do return (← m.promoteReadable, [])
  | .promoteWritable => do return (← m.promoteWritable, [])
  | .popTarget => do
    let (m, t) ← m.popTarget
    return (m, [t])
  | .setDownstreamPending => do return (← m.setDownstreamPending, [])
  | .clearDownstreamPending => do return (← m.clearDownstreamPending, [])
  | .setForward isForward => return ({ m with isForward }, [])

end HetSim.Mshr
