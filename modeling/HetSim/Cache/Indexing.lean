import HetSim.Address.Bitfield
import HetSim.Library.Checked

/-!
# Indexing policies

A policy takes an address apart into a tag and a set, and puts the address of an entry together
again. The skewed policy permutes the sets differently in each way.
-/

namespace HetSim.Cache
open Address Checked

def bits (val : Addr) (first last : ℕ) : Addr := (val >>> last) &&& mask (first - last + 1)

def mbits (val : Addr) (first last : ℕ) : Addr := val &&& (mask (first + 1) &&& ~~~mask last)

inductive Fault
  | divisionByZero
  | logOfZero
  | setsNotPowerOf2
  | noAssociativity
  | tooManySkewedBits
  | tooFewSets
  deriving DecidableEq

def floorLog2 (x : ℕ) : Except Fault ℕ := do
  require (0 < x) .logOfZero
  return Nat.log2 x

def isPowerOf2 (n : ℕ) : Bool := n ≠ 0 ∧ n &&& (n - 1) = 0

theorem isPowerOf2_eq {n : ℕ} (h : isPowerOf2 n) : n = 2 ^ Nat.log2 n := by
  obtain ⟨hne, hand⟩ := of_decide_eq_true h
  obtain ⟨k, rfl⟩ := (Nat.and_sub_one_eq_zero_iff_isPowerOfTwo hne).mp hand
  rw [Nat.log2_two_pow]

structure ReplaceableEntry where
  set : BitVec 32
  way : ℕ
  deriving DecidableEq

structure BaseIndexingPolicy where
  assoc : ℕ
  numSets : ℕ
  setShift : ℕ
  setMask : BitVec 32
  tagShift : ℕ
  deriving DecidableEq

/-- The product and the number of sets are 32 bits wide. -/
def BaseIndexingPolicy.init (size entrySize assoc : ℕ) : Except Fault BaseIndexingPolicy := do
  let setSize := entrySize * assoc % 2 ^ 32
  require (setSize ≠ 0) .divisionByZero
  let numSets := size / setSize % 2 ^ 32
  let setShift ← floorLog2 entrySize
  let setBits ← floorLog2 numSets
  require (isPowerOf2 numSets) .setsNotPowerOf2
  require (assoc ≠ 0) .noAssociativity
  return ⟨assoc, numSets, setShift, BitVec.ofNat 32 (numSets - 1), setShift + setBits⟩

def BaseIndexingPolicy.extractTag (p : BaseIndexingPolicy) (addr : Addr) : Addr :=
  addr >>> p.tagShift

structure SetAssociative extends BaseIndexingPolicy
  deriving DecidableEq

namespace SetAssociative

variable (p : SetAssociative)

def extractSet (addr : Addr) : BitVec 32 :=
  ((addr >>> p.setShift) &&& p.setMask.setWidth 64).setWidth 32

/-- The set is shifted as a value of 32 bits. -/
def regenerateAddr (tag : Addr) (entry : ReplaceableEntry) : Addr :=
  (tag <<< p.tagShift) ||| (entry.set <<< p.setShift).setWidth 64

def getPossibleEntries (addr : Addr) : List ReplaceableEntry :=
  (List.range p.assoc).map fun way => ⟨p.extractSet addr, way⟩

end SetAssociative

structure SkewedAssociative extends BaseIndexingPolicy where
  /-- The shift that brings the highest bit of a set index down. -/
  msbShift : ℕ
  deriving DecidableEq

abbrev NUM_SKEWING_FUNCTIONS : ℕ := 8

namespace SkewedAssociative

def init (size entrySize assoc : ℕ) : Except Fault SkewedAssociative := do
  let base ← BaseIndexingPolicy.init size entrySize assoc
  let setBits ← floorLog2 base.numSets
  -- With a single set `msbShift` is -1, and the constructor stops at the last check.
  require (base.setShift + 2 * setBits ≤ 64) .tooManySkewedBits
  require (2 < base.numSets) .tooFewSets
  return ⟨base, setBits - 1⟩

variable (p : SkewedAssociative)

def hash (addr : Addr) : Addr :=
  let lsb := bits addr 0 0
  let msb := bits addr p.msbShift p.msbShift
  let xorBit := msb ^^^ lsb
  insertBits (addr >>> 1) p.msbShift p.msbShift xorBit

def dehash (addr : Addr) : Addr :=
  let msb := bits addr (p.msbShift - 1) (p.msbShift - 1)
  let xorBit := bits addr p.msbShift p.msbShift
  let lsb := msb ^^^ xorBit
  let addrNoMsb := mbits addr (p.msbShift - 1) 0
  insertBits (addrNoMsb <<< 1) 0 0 lsb

/-- The skewing function of a way, on the set bits and the tag bits above them. -/
def skewing (addr1 addr2 : Addr) : Fin NUM_SKEWING_FUNCTIONS → Addr
  | 0 => p.hash addr1 ^^^ p.hash addr2 ^^^ addr2
  | 1 => p.hash addr1 ^^^ p.hash addr2 ^^^ addr1
  | 2 => p.hash addr1 ^^^ p.dehash addr2 ^^^ addr2
  | 3 => p.hash addr1 ^^^ p.dehash addr2 ^^^ addr1
  | 4 => p.dehash addr1 ^^^ p.hash addr2 ^^^ addr2
  | 5 => p.dehash addr1 ^^^ p.hash addr2 ^^^ addr1
  | 6 => p.dehash addr1 ^^^ p.dehash addr2 ^^^ addr2
  | 7 => p.dehash addr1 ^^^ p.dehash addr2 ^^^ addr1

def skew (addr : Addr) (way : ℕ) : Addr :=
  let addr1 := bits addr p.msbShift 0
  let addr2 := bits addr (2 * (p.msbShift + 1) - 1) (p.msbShift + 1)
  p.hash^[way / NUM_SKEWING_FUNCTIONS] (p.skewing addr1 addr2 (Fin.ofNat _ way))

def deskewing (addr1 addr2 : Addr) : Fin 8 → Addr
  | 0 => p.dehash (addr1 ^^^ p.hash addr2 ^^^ addr2)
  | 1 => p.hash^[p.msbShift] (addr1 ^^^ p.hash addr2)
  | 2 => p.dehash (addr1 ^^^ p.dehash addr2 ^^^ addr2)
  | 3 => p.hash^[p.msbShift] (addr1 ^^^ p.dehash addr2)
  | 4 => p.hash (addr1 ^^^ p.hash addr2 ^^^ addr2)
  | 5 => p.hash^[p.msbShift + 1] (addr1 ^^^ p.hash addr2)
  | 6 => p.hash (addr1 ^^^ p.dehash addr2 ^^^ addr2)
  | 7 => p.hash^[p.msbShift + 1] (addr1 ^^^ p.dehash addr2)

def deskew (addr : Addr) (way : ℕ) : Addr :=
  let addr1 := bits addr p.msbShift 0
  let addr2 := bits addr (2 * (p.msbShift + 1) - 1) (p.msbShift + 1)
  let addr1 := if NUM_SKEWING_FUNCTIONS ≤ way then p.dehash^[way / NUM_SKEWING_FUNCTIONS] addr1
    else addr1
  p.deskewing addr1 addr2 (Fin.ofNat 8 way)

def extractSet (addr : Addr) (way : ℕ) : BitVec 32 :=
  (p.skew (addr >>> p.setShift) way &&& p.setMask.setWidth 64).setWidth 32

def regenerateAddr (tag : Addr) (entry : ReplaceableEntry) : Addr :=
  let addrSet := (tag <<< (p.msbShift + 1)) ||| entry.set.setWidth 64
  (tag <<< p.tagShift) |||
    ((p.deskew addrSet entry.way &&& p.setMask.setWidth 64) <<< p.setShift)

def getPossibleEntries (addr : Addr) : List ReplaceableEntry :=
  (List.range p.assoc).map fun way => ⟨p.extractSet addr way, way⟩

end SkewedAssociative

inductive IndexingPolicy
  | setAssociative (p : SetAssociative)
  | skewedAssociative (p : SkewedAssociative)
  deriving DecidableEq

namespace IndexingPolicy

def init (size entrySize assoc : ℕ) (skewed : Bool) : Except Fault IndexingPolicy :=
  if skewed then do return .skewedAssociative (← SkewedAssociative.init size entrySize assoc)
  else do return .setAssociative ⟨← BaseIndexingPolicy.init size entrySize assoc⟩

def base : IndexingPolicy → BaseIndexingPolicy
  | setAssociative p => p.toBaseIndexingPolicy
  | skewedAssociative p => p.toBaseIndexingPolicy

def extractTag (policy : IndexingPolicy) (addr : Addr) : Addr := policy.base.extractTag addr

def getPossibleEntries : IndexingPolicy → Addr → List ReplaceableEntry
  | setAssociative p => p.getPossibleEntries
  | skewedAssociative p => p.getPossibleEntries

def regenerateAddr : IndexingPolicy → Addr → ReplaceableEntry → Addr
  | setAssociative p => p.regenerateAddr
  | skewedAssociative p => p.regenerateAddr

end IndexingPolicy

end HetSim.Cache
