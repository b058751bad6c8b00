import HetSim.Tags.Block

/-!
# Fully associative tags with LRU replacement

All blocks are on one doubly linked list, the most recently used first. A block is in a cache of a
smaller size when it is close enough to the head, and a boundary points to the last block that
is.
-/

namespace HetSim.Tags
open Address Checked

structure FALRUParams where
  size : ℕ
  blockSize : ℕ
  minTrackedCacheSize : ℕ
  tagLatency : ℕ
  deriving DecidableEq

namespace FALRUParams

variable (p : FALRUParams)

def blkSize : ℕ := p.blockSize % 2 ^ 32

def maxSize : ℕ := p.size % 2 ^ 32

def minTrackedSize : ℕ := p.minTrackedCacheSize % 2 ^ 32

def numBlocks : ℕ := p.size / p.blockSize % 2 ^ 32

def numTrackedCaches : ℕ :=
  if p.minTrackedSize < p.maxSize then Nat.log2 p.maxSize - Nat.log2 p.minTrackedSize else 0

def inAllCachesMask : BitVec 32 := (mask p.numTrackedCaches).setWidth 32

def blkAlign (addr : Addr) : Addr := addr &&& ~~~BitVec.ofNat 64 (p.blkSize - 1)

end FALRUParams

structure FALRUBlk (n : ℕ) extends CacheBlk where
  prev : Option (Fin n) := none
  next : Option (Fin n) := none
  inCachesMask : BitVec 32 := 0
  deriving DecidableEq

structure FALRU (p : FALRUParams) where
  blks : Fin p.numBlocks → FALRUBlk p.numBlocks
  head : Fin p.numBlocks
  tail : Fin p.numBlocks
  tagHash : Addr × Bool → Option (Fin p.numBlocks)
  boundaries : Fin p.numTrackedCaches → Option (Fin p.numBlocks)
  hits : Fin (p.numTrackedCaches + 1) → ℕ
  misses : Fin (p.numTrackedCaches + 1) → ℕ
  accesses : ℕ

namespace FALRU

variable {p : FALRUParams} (s : FALRU p) (blk : Fin p.numBlocks)

def setPrev (v : Option (Fin p.numBlocks)) : FALRU p :=
  { s with blks := Function.update s.blks blk { s.blks blk with prev := v } }

def setNext (v : Option (Fin p.numBlocks)) : FALRU p :=
  { s with blks := Function.update s.blks blk { s.blks blk with next := v } }

def setMask (v : BitVec 32) : FALRU p :=
  { s with blks := Function.update s.blks blk { s.blks blk with inCachesMask := v } }

def setBlk (v : CacheBlk) : FALRU p :=
  { s with blks := Function.update s.blks blk { s.blks blk with toCacheBlk := v } }

def setBoundary (i : Fin p.numTrackedCaches) (v : Option (Fin p.numBlocks)) : FALRU p :=
  { s with boundaries := Function.update s.boundaries i v }

/-- The loop of `CacheTracking::init`, at the block it visits next. -/
def trackFrom (s : FALRU p) : ℕ → Option (Fin p.numBlocks) → ℕ → ℕ → BitVec 32 → ℕ →
    Except Fault (FALRU p)
  | _, none, _, _, _, _ => return s
  | 0, some _, _, _, _, _ => throw .endlessList
  | fuel + 1, some blk, currSize, trackedCacheSize, inCachesMask, j =>
    let s := s.setMask blk inCachesMask
    let currSize := (currSize + p.blkSize) % 2 ^ 32
    if currSize = trackedCacheSize ∧ blk ≠ s.tail then
      if hj : j < p.numTrackedCaches then
        trackFrom (s.setBoundary ⟨j, hj⟩ (some blk)) fuel (s.blks blk).next currSize
          (trackedCacheSize * 2 % 2 ^ 32) (inCachesMask &&& ~~~(1#32 <<< j)) (j + 1)
      else throw .outOfBounds
    else trackFrom s fuel (s.blks blk).next currSize trackedCacheSize inCachesMask j

def track : Except Fault (FALRU p) :=
  s.trackFrom p.numBlocks (if p.numTrackedCaches ≠ 0 then some s.head else none) 0
    p.minTrackedSize p.inAllCachesMask 0

/-- The blocks that `tagsInit` links in the order of their addresses. -/
def linkedBlks (p : FALRUParams) (i : Fin p.numBlocks) : FALRUBlk p.numBlocks :=
  { prev := if 0 < i.val then some ⟨i - 1, by omega⟩ else none
    next := if h : i + 1 < p.numBlocks then some ⟨i + 1, h⟩ else none }

def initial (p : FALRUParams) (h : 1 < p.numBlocks) : FALRU p where
  blks := linkedBlks p
  head := ⟨0, by omega⟩
  tail := ⟨p.numBlocks - 1, by omega⟩
  tagHash := fun _ => none
  boundaries := fun _ => none
  hits := fun _ => 0
  misses := fun _ => 0
  accesses := 0

/-- The constructor and `tagsInit`. A single block has no second one to link it to. -/
def create (p : FALRUParams) : Except Fault (FALRU p) :=
  if h : 1 < p.numBlocks then do
    require (p.minTrackedSize < p.maxSize → 0 < p.minTrackedSize) .logOfZero
    require (p.numTrackedCaches ≤ 32) .tooManyTrackedCaches
    require (Cache.isPowerOf2 p.blkSize) .sizeNotPowerOf2
    require (Cache.isPowerOf2 p.maxSize) .sizeNotPowerOf2
    track (initial p h)
  else throw .outOfBounds

/-- One round of the loop of `CacheTracking::moveBlockToHead`. -/
def boundaryToHead (updateCachesMask : BitVec 32) (s : FALRU p) (i : Fin p.numTrackedCaches) :
    Except Fault (FALRU p) :=
  let currentCacheMask := 1#32 <<< i.val
  if currentCacheMask &&& updateCachesMask ≠ 0 then do
    let boundary ← demand (s.boundaries i) .nullPointer
    let s := s.setMask boundary ((s.blks boundary).inCachesMask &&& ~~~currentCacheMask)
    return s.setBoundary i (s.blks boundary).prev
  else if s.boundaries i = some blk then return s.setBoundary i (s.blks blk).prev
  else return s

def moveBlockToHead : Except Fault (FALRU p) := do
  let updateCachesMask := p.inAllCachesMask ^^^ (s.blks blk).inCachesMask
  let s ← (List.finRange p.numTrackedCaches).foldlM (boundaryToHead blk updateCachesMask) s
  return s.setMask blk p.inAllCachesMask

/-- One round of the loop of `CacheTracking::moveBlockToTail`. -/
def boundaryToTail (updateCachesMask : BitVec 32) (s : FALRU p) (i : Fin p.numTrackedCaches) :
    Except Fault (FALRU p) :=
  let currentCacheMask := 1#32 <<< i.val
  if currentCacheMask &&& updateCachesMask ≠ 0 then do
    let boundary ← demand (s.boundaries i) .nullPointer
    let next := (s.blks boundary).next
    let next := if next = some blk then (s.blks blk).next else next
    let boundary ← demand next .nullPointer
    let s := s.setBoundary i (some boundary)
    return s.setMask boundary ((s.blks boundary).inCachesMask ||| currentCacheMask)
  else return s

def moveBlockToTail : Except Fault (FALRU p) := do
  let updateCachesMask := (s.blks blk).inCachesMask
  let s ← (List.finRange p.numTrackedCaches).foldlM (boundaryToTail blk updateCachesMask) s
  return s.setMask blk 0

def recordAccess (s : FALRU p) (blk : Option (Fin p.numBlocks)) : FALRU p :=
  let hit (i : Fin (p.numTrackedCaches + 1)) : Bool := match blk with
    | none => false
    | some b => if i.val < p.numTrackedCaches then 1#32 <<< i.val &&& (s.blks b).inCachesMask ≠ 0
      else (s.blks b).isValid
  { s with
    hits := fun i => if hit i then s.hits i + 1 else s.hits i
    misses := fun i => if hit i then s.misses i else s.misses i + 1
    accesses := s.accesses + 1 }

/-- The block leaves the middle of the list. -/
def unlink : Except Fault (FALRU p) := do
  let before ← demand (s.blks blk).prev .nullPointer
  let s := s.setNext before (s.blks blk).next
  let after ← demand (s.blks blk).next .nullPointer
  return s.setPrev after (s.blks blk).prev

def leaveTail : Except Fault (FALRU p) := do
  require ((s.blks blk).next = none) .tailHasNext
  let tail ← demand (s.blks blk).prev .nullPointer
  return { s with tail }.setNext tail none

def leaveHead : Except Fault (FALRU p) := do
  require ((s.blks blk).prev = none) .headHasPrev
  let head ← demand (s.blks blk).next .nullPointer
  return { s with head }.setPrev head none

def pushHead : FALRU p :=
  let s := s.setNext blk (some s.head)
  let s := s.setPrev blk none
  let s := s.setPrev s.head (some blk)
  { s with head := blk }

def pushTail : FALRU p :=
  let s := s.setPrev blk (some s.tail)
  let s := s.setNext blk none
  let s := s.setNext s.tail (some blk)
  { s with tail := blk }

def moveToHead : Except Fault (FALRU p) :=
  if blk ≠ s.head then do
    let s ← s.moveBlockToHead blk
    let s ← (if blk = s.tail then s.leaveTail blk else s.unlink blk)
    return s.pushHead blk
  else return s

def moveToTail : Except Fault (FALRU p) :=
  if blk ≠ s.tail then do
    let s ← s.moveBlockToTail blk
    let s ← (if blk = s.head then s.leaveHead blk else s.unlink blk)
    return s.pushTail blk
  else return s

/-- The tag that the hash table leads to is compared only if the block is valid. -/
def findBlock (addr : Addr) (isSecure : Bool) : Except Fault (Option (Fin p.numBlocks)) :=
  let tag := p.blkAlign addr
  match s.tagHash (tag, isSecure) with
  | none => return none
  | some blk =>
    if (s.blks blk).isValid then do
      require ((s.blks blk).tag = tag) .wrongTag
      require ((s.blks blk).isSecure = isSecure) .wrongSecurity
      return some blk
    else return some blk

/-- The block, the caches that hold it, and the latency of the lookup. -/
structure Access (p : FALRUParams) where
  blk : Option (Fin p.numBlocks)
  inCachesMask : BitVec 32
  lat : ℕ
  deriving DecidableEq

/-- The caches that hold the block, and the tags after it has moved to the head. -/
def touch : Option (Fin p.numBlocks) → Except Fault (BitVec 32 × FALRU p)
  | some blk =>
    if (s.blks blk).isValid then do return ((s.blks blk).inCachesMask, ← s.moveToHead blk)
    else return (0, s)
  | none => return (0, s)

def accessBlock (addr : Addr) (isSecure : Bool) : Except Fault (Access p × FALRU p) := do
  let blk ← s.findBlock addr isSecure
  let (mask, s) ← s.touch blk
  return (⟨blk, mask, p.tagLatency⟩, s.recordAccess blk)

def findVictim : Fin p.numBlocks := s.tail

/-- The address and the security are those of the packet. -/
def insertBlock (addr : Addr) (isSecure : Bool) : Except Fault (FALRU p) := do
  require ((s.blks blk).inCachesMask = 0) .inSomeCache
  require ((s.blks blk).isValid = false) .alreadyValid
  let cacheBlk ← (s.blks blk).insert (p.blkAlign addr) isSecure
  let s ← (s.setBlk blk cacheBlk).moveToHead blk
  return { s with
    tagHash := Function.update s.tagHash ((s.blks blk).tag, (s.blks blk).isSecure) (some blk) }

def invalidate : Except Fault (FALRU p) := do
  let key := ((s.blks blk).tag, (s.blks blk).isSecure)
  require (s.tagHash key ≠ none) .notErasedOnce
  let s := { s with tagHash := Function.update s.tagHash key none }
  require ((s.blks blk).isValid) .notValid
  (s.setBlk blk (s.blks blk).invalidate).moveToTail blk

end FALRU

inductive FALRUCall (p : FALRUParams)
  | accessBlock (addr : Addr) (isSecure : Bool)
  /-- The victim has been invalidated. -/
  | insertBlock (addr : Addr) (isSecure : Bool)
  | invalidate (blk : Fin p.numBlocks)

def FALRU.call {p : FALRUParams} (s : FALRU p) : FALRUCall p → Except Fault (FALRU p)
  | .accessBlock addr isSecure => do return (← s.accessBlock addr isSecure).2
  | .insertBlock addr isSecure => s.insertBlock s.findVictim addr isSecure
  | .invalidate blk => s.invalidate blk

end HetSim.Tags
