import HetSim.Tags.Sector

/-!
# Compressed tags

A superblock is a sector whose blocks share the data of one block when they are compressed. The
size of a compressed block, and whether blocks can be evicted, are given from outside.
-/

namespace HetSim.Tags
open Address Checked Cache

structure CompressedTags where
  tags : SectorTags
  sizeBits : SubBlk → ℕ

namespace CompressedTags

def init : CompressedTags := ⟨.init, fun _ => 0⟩

variable (l : SectorLayout) (blkSize : ℕ) (s : CompressedTags)

/-- `CompressionBlk::isCompressed`. -/
def isCompressedBlk (blk : SubBlk) : Bool := (s.tags.blks blk).status.compressed

/-- `setCompressed` and `setUncompressed`. -/
def setCompressed (blk : SubBlk) (compressed : Bool) : CompressedTags :=
  { s with tags := s.tags.setBlk blk { s.tags.blks blk with status.compressed := compressed } }

def setSizeBits (blk : SubBlk) (size : ℕ) : CompressedTags :=
  { s with sizeBits := Function.update s.sizeBits blk size }

/-- `SuperBlk::isCompressed`: the first valid block decides. -/
def isCompressed (superblock : ReplaceableEntry) (ignoredBlk : Option SubBlk) : Bool :=
  match (s.tags.validBlks l superblock).find? fun blk => some blk ≠ ignoredBlk with
  | some blk => s.isCompressedBlk blk
  | none => true

def canCoAllocate (compressedSize : ℕ) : Bool :=
  compressedSize ≤ blkSize * 8 / l.numBlocksPerSector

/-- The superblock of the address, if the block can be co-allocated in it. -/
def findSuperblock (addr : Addr) (isSecure : Bool) (compressedSize : ℕ) : Option ReplaceableEntry :=
  (l.policy.getPossibleEntries addr).find? fun superblock =>
    l.extractTag addr = (s.tags.sectors superblock).tag ∧ (s.tags.sectors superblock).isValid ∧
      isSecure = (s.tags.sectors superblock).isSecure ∧
      (s.tags.blks ⟨superblock, l.extractSectorOffset addr⟩).isValid = false ∧
      s.isCompressed l superblock none ∧ canCoAllocate l blkSize compressedSize

/-- The victim, and the blocks to evict. -/
def findVictim (addr : Addr) (isSecure : Bool) (compressedSize : ℕ) (getVictim : ReplaceableEntry) :
    Except Fault (SubBlk × List SubBlk) :=
  match s.findSuperblock l blkSize addr isSecure compressedSize with
  | some superblock => do
    let victim := ⟨superblock, l.extractSectorOffset addr⟩
    require ((s.tags.blks victim).isValid = false) .victimValid
    return (victim, [])
  | none => do
    require (getVictim ∈ l.policy.getPossibleEntries addr) .notACandidate
    return (⟨getVictim, l.extractSectorOffset addr⟩, s.tags.validBlks l getVictim)

def insertBlock (blk : SubBlk) (addr : Addr) (isSecure : Bool) : Except Fault CompressedTags := do
  let isCoAllocatable := s.isCompressed l blk.sector none && canCoAllocate l blkSize
    (s.sizeBits blk)
  let tags ← s.tags.insertBlock l blk addr isSecure
  return setCompressed { s with tags } blk isCoAllocatable

def invalidate (blk : SubBlk) : Except Fault CompressedTags := do
  return { s with tags := ← s.tags.invalidate blk }

def evict (evictBlks : List SubBlk) : Except Fault CompressedTags := do
  return { s with tags := ← evictBlks.foldlM SectorTags.invalidate s.tags }

/-- A block is allocated: the evictions are invalidated, and the victim is inserted with its
size. -/
def allocate (addr : Addr) (isSecure : Bool) (compressedSize : ℕ) (getVictim : ReplaceableEntry) :
    Except Fault CompressedTags := do
  let (victim, evictBlks) ← s.findVictim l blkSize addr isSecure compressedSize getVictim
  let s ← s.evict evictBlks
  insertBlock l blkSize (s.setSizeBits victim compressedSize) victim addr isSecure

/-- The data of a valid block changes. If the other blocks have to go but cannot be evicted,
the block is invalidated. -/
def updateCompressionData (blk : SubBlk) (compressionSize : ℕ) (handleEvictions : Bool) :
    Except Fault CompressedTags := do
  require ((s.tags.blks blk).isValid) .notValid
  let isCoAllocatable :=
    s.isCompressed l blk.sector (some blk) && canCoAllocate l blkSize compressionSize
  if s.isCompressedBlk blk && !isCoAllocatable then
    if handleEvictions then do
      let s ← s.evict ((s.tags.validBlks l blk.sector).filter fun subBlk => subBlk ≠ blk)
      return (s.setCompressed blk false).setSizeBits blk compressionSize
    else s.invalidate blk
  else return (s.setCompressed blk isCoAllocatable).setSizeBits blk compressionSize

end CompressedTags

inductive CompressedCall
  | allocate (addr : Addr) (isSecure : Bool) (compressedSize : ℕ) (getVictim : ReplaceableEntry)
  | updateCompressionData (blk : SubBlk) (compressionSize : ℕ) (handleEvictions : Bool)
  | invalidate (blk : SubBlk)
  deriving DecidableEq

def CompressedTags.call (l : SectorLayout) (blkSize : ℕ) (s : CompressedTags) :
    CompressedCall → Except Fault CompressedTags
  | .allocate addr isSecure compressedSize getVictim =>
    s.allocate l blkSize addr isSecure compressedSize getVictim
  | .updateCompressionData blk compressionSize handleEvictions =>
    s.updateCompressionData l blkSize blk compressionSize handleEvictions
  | .invalidate blk => s.invalidate blk

end HetSim.Tags
