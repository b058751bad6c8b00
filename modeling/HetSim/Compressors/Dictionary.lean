import HetSim.Library.Prefixes
import HetSim.Library.Transducers

/-!
# Dictionary compressors

`DictionaryCompressor<T>` with the patterns of `CPack`, `FPCD`, `BaseDelta`,
`RepeatedQwordsCompressor` and `ZeroCompressor`. A read behind the end of the dictionary finds
whatever is there, the argument `outside`.
-/

namespace HetSim.Compressors
open Checked Prefixes Transducers

inductive Fault
  | dictionaryFull
  | outsideDictionary
  deriving DecidableEq

inductive Template (w : ℕ)
  | uncompressedPattern
  | maskedPattern (mask : BitVec w)
  | maskedValuePattern (value mask : BitVec w)
  | locatedMaskedPattern (mask : BitVec w) (location : ℤ)
  | repeatedValuePattern (repBits : ℕ)
  | deltaPattern (deltaSizeBits : ℕ)

structure PatternClass (w : ℕ) where
  template : Template w
  length : ℕ
  allocate : Bool

structure Pattern (w : ℕ) where
  patternClass : PatternClass w
  stored : BitVec w
  matchLocation : ℤ

variable {w : ℕ}

def popCount (val : BitVec w) : ℕ := ones val

def deltaLimit (deltaSizeBits : ℕ) : ℤ :=
  if deltaSizeBits = 0 then 0 else 2 ^ (deltaSizeBits - 1) - 1

def isValidDelta (deltaSizeBits : ℕ) (value base : BitVec w) : Bool :=
  -deltaLimit deltaSizeBits ≤ (value - base).toInt && (value - base).toInt ≤
    deltaLimit deltaSizeBits

namespace Template

def numUnmatchedBits : Template w → ℕ
  | uncompressedPattern => w
  | maskedPattern mask | maskedValuePattern _ mask | locatedMaskedPattern mask _ =>
    popCount (~~~mask)
  | repeatedValuePattern repBits => repBits
  | deltaPattern deltaSizeBits => deltaSizeBits

def isPattern (bytes dictBytes : BitVec w) (matchLocation : ℤ) : Template w → Bool
  | uncompressedPattern => true
  | maskedPattern mask => 0 ≤ matchLocation && bytes &&& mask == dictBytes &&& mask
  | maskedValuePattern value mask => value &&& mask == bytes &&& mask
  | locatedMaskedPattern mask location => matchLocation == location &&
      (0 ≤ matchLocation && bytes &&& mask == dictBytes &&& mask)
  | repeatedValuePattern repBits => (List.range (w / repBits)).all fun i =>
      (bytes >>> (repBits * i)).setWidth repBits == bytes.setWidth repBits
  | deltaPattern deltaSizeBits => 0 ≤ matchLocation && isValidDelta deltaSizeBits bytes dictBytes

def store (bytes : BitVec w) : Template w → BitVec w
  | uncompressedPattern | deltaPattern _ => bytes
  | maskedPattern mask | maskedValuePattern _ mask | locatedMaskedPattern mask _ =>
      bytes &&& ~~~mask
  | repeatedValuePattern repBits => (bytes.setWidth repBits).setWidth w

def decompress (stored dictBytes : BitVec w) : Template w → BitVec w
  | uncompressedPattern | deltaPattern _ => stored
  | maskedPattern mask | locatedMaskedPattern mask _ => stored ||| dictBytes &&& mask
  | maskedValuePattern value mask => stored ||| value &&& mask
  | repeatedValuePattern repBits =>
      (List.range (w / repBits)).foldl (fun decompValue _ => decompValue <<< repBits ||| stored) 0

end Template

def PatternClass.getSizeBits (q : PatternClass w) : ℕ := q.template.numUnmatchedBits + q.length

namespace Pattern

variable (p : Pattern w)

def getMatchLocation : ℕ := (p.matchLocation % 256).toNat

def getSizeBits : ℕ := p.patternClass.getSizeBits

def shouldAllocate : Bool := p.patternClass.allocate

def decompress (dictBytes : BitVec w) : BitVec w :=
  p.patternClass.template.decompress p.stored dictBytes

end Pattern

structure Dictionary (w : ℕ) where
  dictionary : List (BitVec w)
  numEntries : ℕ

/-- `factory` are the patterns in front of the last one, which is uncompressed and has the
metadata length `length`. `bases` are what `resetDictionary` adds. -/
structure Compressor (w : ℕ) where
  factory : List (PatternClass w)
  length : ℕ
  bases : List (BitVec w) := []
  fifo : Bool := false

namespace Compressor

variable (c : Compressor w)

def last : PatternClass w := ⟨.uncompressedPattern, c.length, true⟩

def getPatternFrom (last : PatternClass w) (bytes dictBytes : BitVec w) (matchLocation : ℤ) :
    List (PatternClass w) → Pattern w
  | [] => ⟨last, last.template.store bytes, matchLocation⟩
  | q :: qs =>
    if q.template.isPattern bytes dictBytes matchLocation then
      ⟨q, q.template.store bytes, matchLocation⟩
    else getPatternFrom last bytes dictBytes matchLocation qs

def getPattern (bytes dictBytes : BitVec w) (matchLocation : ℤ) : Pattern w :=
  getPatternFrom c.last bytes dictBytes matchLocation c.factory

def addToDictionary (d : Dictionary w) (data : BitVec w) : Except Fault (Dictionary w) :=
  if c.fifo = true ∧ d.numEntries = 2 then
    .ok { d with dictionary := (d.dictionary.set 0 (d.dictionary.getD 1 0)).set 1 data }
  else do
    require (d.numEntries < d.dictionary.length)
      (if c.fifo then .outsideDictionary else .dictionaryFull)
    return ⟨d.dictionary.set d.numEntries data, d.numEntries + 1⟩

def resetDictionary (dictionarySize : ℕ) : Except Fault (Dictionary w) :=
  c.bases.foldlM c.addToDictionary ⟨List.replicate dictionarySize 0, 0⟩

def bestPattern (d : Dictionary w) (bytes : BitVec w) : ℕ → Pattern w
  | 0 => c.getPattern bytes 0 (-1)
  | i + 1 =>
    let pattern := bestPattern d bytes i
    let tempPattern := c.getPattern bytes (d.dictionary.getD i 0) i
    if tempPattern.getSizeBits < pattern.getSizeBits then tempPattern else pattern

def allocate (pattern : Pattern w) (d : Dictionary w) (data : BitVec w) :
    Except Fault (Dictionary w) :=
  if pattern.shouldAllocate then c.addToDictionary d data else .ok d

def compressValue (d : Dictionary w) (bytes : BitVec w) :
    Except Fault (Pattern w × Dictionary w) := do
  let pattern := c.bestPattern d bytes d.numEntries
  return (pattern, ← c.allocate pattern d bytes)

def decompressValue (outside : ℕ → BitVec w) (d : Dictionary w) (pattern : Pattern w) :
    Except Fault (BitVec w × Dictionary w) := do
  let location := pattern.getMatchLocation
  let data := pattern.decompress (d.dictionary.getD location (outside location))
  return (data, ← c.allocate pattern d data)

def values (data : List (BitVec 64)) : List (BitVec w) :=
  (List.range (64 / w * data.length)).map fun k =>
    (data.getD (k / (64 / w)) 0).extractLsb' (w * (k % (64 / w))) w

def concatenate (blkWords : ℕ) (decompValues : List (BitVec w)) : List (BitVec 64) :=
  (List.range blkWords).map fun i => (List.range (64 / w)).foldr (fun j data =>
    data ||| (decompValues.getD (64 / w * i + j) 0).setWidth 64 <<< (w * j)) 0

def compressValues (dictionarySize : ℕ) (words : List (BitVec w)) :
    Except Fault (List (Pattern w) × Dictionary w) := do
  transduce c.compressValue (← c.resetDictionary dictionarySize) words

def decompressValues (outside : ℕ → BitVec w) (dictionarySize : ℕ) (entries : List (Pattern w)) :
    Except Fault (List (BitVec w) × Dictionary w) := do
  transduce (c.decompressValue outside) (← c.resetDictionary dictionarySize) entries

def compress (dictionarySize : ℕ) (data : List (BitVec 64)) : Except Fault (List (Pattern w)) := do
  return (← c.compressValues dictionarySize (values data)).1

def decompress (outside : ℕ → BitVec w) (dictionarySize blkWords : ℕ)
    (entries : List (Pattern w)) : Except Fault (List (BitVec 64)) := do
  return concatenate blkWords (← c.decompressValues outside dictionarySize entries).1

end Compressor

/-! ## The compressors -/

open Template

namespace CPack

def patternZZZZ : PatternClass 32 := ⟨maskedValuePattern 0 0xFFFFFFFF, 2, false⟩
def patternMMMM : PatternClass 32 := ⟨maskedPattern 0xFFFFFFFF, 6, true⟩
def patternMMXX : PatternClass 32 := ⟨maskedPattern 0xFFFF0000, 8, true⟩
def patternZZZX : PatternClass 32 := ⟨maskedValuePattern 0 0xFFFFFF00, 4, false⟩
def patternMMMX : PatternClass 32 := ⟨maskedPattern 0xFFFFFF00, 8, true⟩

end CPack

open CPack in
def cPack : Compressor 32 where
  factory := [patternZZZZ, patternMMMM, patternZZZX, patternMMMX, patternMMXX]
  length := 2

namespace FPCD

def prefixSize : ℕ := 4
def previousIndex : ℤ := 1
def penultimateIndex : ℤ := 0

def value (fixed mask : BitVec 32) : PatternClass 32 :=
  ⟨maskedValuePattern fixed mask, prefixSize, true⟩
def located (mask : BitVec 32) (index : ℤ) : PatternClass 32 :=
  ⟨locatedMaskedPattern mask index, prefixSize, true⟩

def patternZZZZ := value 0 0xFFFFFFFF
def patternFFFF := value 0xFFFFFFFF 0xFFFFFFFF
def patternMMMMPrevious := located 0xFFFFFFFF previousIndex
def patternMMMMPenultimate := located 0xFFFFFFFF penultimateIndex
def patternZZZX := value 0 0xFFFFFF00
def patternXZZZ := value 0 0x00FFFFFF
def patternRRRR : PatternClass 32 := ⟨repeatedValuePattern 8, prefixSize, true⟩
def patternMMMXPrevious := located 0xFFFFFF00 previousIndex
def patternMMMXPenultimate := located 0xFFFFFF00 penultimateIndex
def patternZZXX := value 0 0xFFFF0000
def patternZXZX := value 0 0xFF00FF00
def patternFFXX := value 0xFFFFFFFF 0xFFFF0000
def patternXXZZ := value 0 0x0000FFFF
def patternMMXXPrevious := located 0xFFFF0000 previousIndex
def patternMMXXPenultimate := located 0xFFFF0000 penultimateIndex

end FPCD

open FPCD in
def fpcd : Compressor 32 where
  factory := [patternZZZZ, patternFFFF, patternMMMMPrevious, patternMMMMPenultimate, patternZZZX,
    patternXZZZ, patternRRRR, patternMMMXPrevious, patternMMMXPenultimate, patternZZXX,
    patternZXZX, patternFFXX, patternXXZZ, patternMMXXPrevious, patternMMXXPenultimate]
  length := prefixSize
  fifo := true

def baseDelta (w deltaSizeBits : ℕ) : Compressor w where
  factory := [⟨deltaPattern deltaSizeBits, 1, false⟩]
  length := 1 + deltaSizeBits
  bases := [0]

def repeatedQwords : Compressor 64 where
  factory := [⟨locatedMaskedPattern 0xFFFFFFFFFFFFFFFF 0, 0, true⟩]
  length := 0

def zero : Compressor 64 where
  factory := [⟨maskedValuePattern 0 0xFFFFFFFFFFFFFFFF, 1, false⟩]
  length := 1

inductive CompressorType
  | cPack
  | fpcd
  | base64Delta8
  | base64Delta16
  | base64Delta32
  | base32Delta8
  | base32Delta16
  | base16Delta8
  | repeatedQwords
  | zero

namespace CompressorType

def width : CompressorType → ℕ
  | cPack | fpcd | base32Delta8 | base32Delta16 => 32
  | base16Delta8 => 16
  | _ => 64

def deltaSizeBits : CompressorType → Option ℕ
  | base64Delta8 | base32Delta8 | base16Delta8 => some 8
  | base64Delta16 | base32Delta16 => some 16
  | base64Delta32 => some 32
  | _ => none

def compressor : (t : CompressorType) → Compressor t.width
  | cPack => Compressors.cPack
  | fpcd => Compressors.fpcd
  | base64Delta8 => baseDelta 64 8
  | base64Delta16 => baseDelta 64 16
  | base64Delta32 => baseDelta 64 32
  | base32Delta8 => baseDelta 32 8
  | base32Delta16 => baseDelta 32 16
  | base16Delta8 => baseDelta 16 8
  | repeatedQwords => Compressors.repeatedQwords
  | zero => Compressors.zero

end CompressorType

end HetSim.Compressors
