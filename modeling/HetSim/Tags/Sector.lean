import HetSim.Tags.Block

/-!
# Sector tags

A sector holds blocks with consecutive addresses under one tag. The tag, the security and the
number of valid blocks are kept once per sector. Any candidate may be replaced.
-/

namespace HetSim.Tags
open Address Checked Cache

structure SectorParams where
  size : ℕ
  blockSize : ℕ
  numBlocksPerSector : ℕ
  assoc : ℕ
  skewed : Bool
  deriving DecidableEq

/-- The indexing entry is a sector. -/
def SectorParams.entrySize (p : SectorParams) : ℕ := p.blockSize * p.numBlocksPerSector

structure SectorLayout where
  policy : IndexingPolicy
  numBlocksPerSector : ℕ
  sectorShift : ℕ
  sectorMask : BitVec 32
  deriving DecidableEq

namespace SectorLayout

/-- The sizes are parameters of type `int`. -/
def create (p : SectorParams) : Except Fault SectorLayout := do
  require (p.entrySize < 2 ^ 31) .paramOutOfRange
  let policy ← (IndexingPolicy.init p.size p.entrySize p.assoc p.skewed).mapError .indexing
  require (p.blockSize ≠ 0 ∧ p.numBlocksPerSector ≠ 0) .divisionByZero
  let numBlocks := p.size / p.blockSize % 2 ^ 32
  let numSectors := numBlocks / p.numBlocksPerSector
  require (4 ≤ p.blockSize ∧ isPowerOf2 p.blockSize) .blockSizeNotSupported
  require (isPowerOf2 p.numBlocksPerSector) .sectorNotPowerOf2
  -- The last sector has to find its set.
  require (numSectors ≤ policy.base.numSets * policy.base.assoc) .setOutOfRange
  return ⟨policy, p.numBlocksPerSector, Nat.log2 p.blockSize,
    BitVec.ofNat 32 (p.numBlocksPerSector - 1)⟩

variable (l : SectorLayout)

def extractTag (addr : Addr) : Addr := l.policy.extractTag addr

def extractSectorOffset (addr : Addr) : ℕ :=
  ((addr >>> l.sectorShift) &&& l.sectorMask.setWidth 64).toNat

end SectorLayout

/-- The counter is a `uint8_t`. -/
structure SectorBlk where
  validCounter : BitVec 8 := 0
  tag : Addr := MaxAddr
  secureBit : Bool := false
  deriving DecidableEq

namespace SectorBlk

variable (sector : SectorBlk)

def isValid : Bool := 0 < sector.validCounter

def isSecure : Bool := sector.secureBit

def validateSubBlk : SectorBlk := { sector with validCounter := sector.validCounter + 1 }

def invalidateSubBlk : SectorBlk :=
  let validCounter := sector.validCounter - 1
  { sector with validCounter, secureBit := if validCounter = 0 then false else sector.secureBit }

def setSecure : SectorBlk := { sector with secureBit := true }

def setTag (tag : Addr) : SectorBlk := { sector with tag }

end SectorBlk

structure SubBlk where
  sector : ReplaceableEntry
  offset : ℕ
  deriving DecidableEq

structure SectorTags where
  sectors : ReplaceableEntry → SectorBlk
  blks : SubBlk → CacheBlk
  tagsInUse : ℤ

namespace SectorTags

def init : SectorTags := ⟨fun _ => {}, fun _ => {}, 0⟩

variable (l : SectorLayout) (s : SectorTags) (blk : SubBlk)

def setBlk (v : CacheBlk) : SectorTags := { s with blks := Function.update s.blks blk v }

def setSector (sector : ReplaceableEntry) (v : SectorBlk) : SectorTags :=
  { s with sectors := Function.update s.sectors sector v }

def setValid : Except Fault SectorTags := do
  let s := s.setBlk blk (← (s.blks blk).setValid)
  return s.setSector blk.sector (s.sectors blk.sector).validateSubBlk

def setSecure : SectorTags :=
  let s := s.setBlk blk (s.blks blk).setSecure
  s.setSector blk.sector (s.sectors blk.sector).setSecure

/-- `SectorSubBlk::invalidate`. -/
def invalidateSubBlk : SectorTags :=
  let s := s.setBlk blk (s.blks blk).invalidate
  s.setSector blk.sector (s.sectors blk.sector).invalidateSubBlk

/-- `SectorSubBlk::insert`. -/
def insertSubBlk (tag : Addr) (isSecure : Bool) : Except Fault SectorTags := do
  let sector := s.sectors blk.sector
  require (¬ (sector.isValid ∧ (sector.tag ≠ tag ∨ sector.isSecure ≠ isSecure)))
    .overwritingValidSector
  require ((s.blks blk).status = {}) .statusNotClear
  let s := s.setBlk blk { s.blks blk with tag }
  let s := if isSecure then s.setSecure blk else s
  let s ← s.setValid blk
  return s.setSector blk.sector ((s.sectors blk.sector).setTag tag)

def invalidate : Except Fault SectorTags := do
  require ((s.blks blk).isValid) .notValid
  let s := s.invalidateSubBlk blk
  return if (s.sectors blk.sector).isValid then s else { s with tagsInUse := s.tagsInUse - 1 }

/-- The address and the security are those of the packet. -/
def insertBlock (addr : Addr) (isSecure : Bool) : Except Fault SectorTags := do
  let s := if (s.sectors blk.sector).isValid then s else { s with tagsInUse := s.tagsInUse + 1 }
  require ((s.blks blk).isValid = false) .alreadyValid
  s.insertSubBlk blk (l.extractTag addr) isSecure

def findBlock (addr : Addr) (isSecure : Bool) : Option SubBlk :=
  let tag := l.extractTag addr
  let offset := l.extractSectorOffset addr
  let blks := (l.policy.getPossibleEntries addr).map fun sector => ⟨sector, offset⟩
  blks.find? fun blk => (s.sectors blk.sector).tag = tag ∧ (s.blks blk).isValid ∧
    (s.blks blk).isSecure = isSecure

/-- The sector that the address belongs to, if it has been allocated. -/
def findSector (addr : Addr) (isSecure : Bool) : Option ReplaceableEntry :=
  (l.policy.getPossibleEntries addr).find? fun sector =>
    l.extractTag addr = (s.sectors sector).tag ∧ (s.sectors sector).isValid ∧
      isSecure = (s.sectors sector).isSecure

/-- The valid blocks of a sector. -/
def validBlks (sector : ReplaceableEntry) : List SubBlk :=
  ((List.range l.numBlocksPerSector).map (SubBlk.mk sector)).filter fun blk => (s.blks blk).isValid

/-- The sector that is replaced when the address has none. -/
def victimSector (addr : Addr) (isSecure : Bool) (getVictim : ReplaceableEntry) :
    Except Fault ReplaceableEntry :=
  match s.findSector l addr isSecure with
  | some sector => return sector
  | none => do
    require (getVictim ∈ l.policy.getPossibleEntries addr) .notACandidate
    return getVictim

/-- The victim, and the blocks to evict. -/
def findVictim (addr : Addr) (isSecure : Bool) (getVictim : ReplaceableEntry) :
    Except Fault (SubBlk × List SubBlk) := do
  let sector ← s.victimSector l addr isSecure getVictim
  let victim := ⟨sector, l.extractSectorOffset addr⟩
  if l.extractTag addr = (s.sectors sector).tag ∧ isSecure = (s.sectors sector).isSecure then do
    require ((s.blks victim).isValid = false) .victimValid
    return (victim, [])
  else return (victim, s.validBlks l sector)

/-- A block is allocated: the evictions are invalidated, and the victim is inserted. -/
def allocate (addr : Addr) (isSecure : Bool) (getVictim : ReplaceableEntry) :
    Except Fault (SubBlk × SectorTags) := do
  let (victim, evictBlks) ← s.findVictim l addr isSecure getVictim
  let s ← evictBlks.foldlM invalidate s
  return (victim, ← s.insertBlock l victim addr isSecure)

end SectorTags

inductive SectorCall
  | allocate (addr : Addr) (isSecure : Bool) (getVictim : ReplaceableEntry)
  /-- Only the replacement data and the reference count change. -/
  | accessBlock (addr : Addr) (isSecure : Bool)
  | invalidate (blk : SubBlk)
  deriving DecidableEq

def SectorTags.call (l : SectorLayout) (s : SectorTags) : SectorCall → Except Fault SectorTags
  | .allocate addr isSecure getVictim => do return (← s.allocate l addr isSecure getVictim).2
  | .accessBlock _ _ => return s
  | .invalidate blk => s.invalidate blk

end HetSim.Tags
