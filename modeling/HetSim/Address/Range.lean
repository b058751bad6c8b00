import HetSim.Address.Bitfield
import HetSim.Library.Checked

/-!
# Address ranges

An interleaved range holds the addresses between its ends whose selector, one parity bit for
each mask, is the value to match. The loops over the masks are functions of their own. The
selector is a number, as no mask list in use overflows an `int`.
-/

namespace HetSim.Address
open Checked

structure AddrRange where
  start : Addr
  end_ : Addr
  masks : List Addr
  intlvMatch : BitVec 8
  deriving DecidableEq

inductive Fault
  | matchDoesNotFit (intlvMatch : BitVec 8) (intlvBits : ℕ)
  | highBitsEqual
  | xorHighBitTooClose (intlvBits : ℕ)
  | intlvHighBitTooClose (intlvBits : ℕ)
  | cannotTestIntersection (r r' : AddrRange)
  | cannotTestSubset (r : AddrRange)
  /-- A shift by the width of its operand or more has no value. -/
  | undefinedShift
  /-- An iterator that does not belong to an entry of the map. -/
  | danglingIterator
  deriving DecidableEq

def MaxAddr : Addr := -1

def AddrRange.ofMasks (start end_ : Addr) (masks : List Addr) (intlvMatch : BitVec 8) :
    Except Fault AddrRange := do
  if masks ≠ [] then
    require (masks.length < 64) .undefinedShift
    require (intlvMatch.toNat < 2 ^ masks.length) (.matchDoesNotFit intlvMatch masks.length)
  return ⟨start, end_, masks, intlvMatch⟩

def legacyMask (intlvHighBit xorHighBit : BitVec 8) (i : ℕ) : Except Fault Addr := do
  let bit1 := intlvHighBit - BitVec.ofNat 8 i
  require (bit1.toNat < 64) .undefinedShift
  if xorHighBit ≠ 0 then
    let bit2 := xorHighBit - BitVec.ofNat 8 i
    require (bit2.toNat < 64) .undefinedShift
    return BitVec.twoPow 64 bit1.toNat ||| BitVec.twoPow 64 bit2.toNat
  else
    return BitVec.twoPow 64 bit1.toNat

def legacyMatchCheck (intlvBits intlvMatch : BitVec 8) : Except Fault Unit := do
  if intlvBits ≠ 0 then
    require (intlvBits.toNat < 64) .undefinedShift
    require (intlvMatch.toNat < 2 ^ intlvBits.toNat) (.matchDoesNotFit intlvMatch intlvBits.toNat)

def legacyXorCheck (intlvHighBit xorHighBit intlvBits : BitVec 8) : Except Fault Unit :=
  if intlvBits ≠ 0 ∧ xorHighBit ≠ 0 then
    if xorHighBit = intlvHighBit then
      .error .highBitsEqual
    else if intlvHighBit.toNat < xorHighBit.toNat then
      require (intlvBits.toNat ≤ xorHighBit.toNat - intlvHighBit.toNat)
        (.xorHighBitTooClose intlvBits.toNat)
    else
      require (intlvBits.toNat ≤ intlvHighBit.toNat - xorHighBit.toNat)
        (.intlvHighBitTooClose intlvBits.toNat)
  else
    return

def AddrRange.legacy (start end_ : Addr) (intlvHighBit xorHighBit intlvBits intlvMatch : BitVec 8) :
    Except Fault AddrRange := do
  legacyMatchCheck intlvBits intlvMatch
  legacyXorCheck intlvHighBit xorHighBit intlvBits
  -- The mask made first is the last of the list.
  let masks ← (List.range intlvBits.toNat).mapM (legacyMask intlvHighBit xorHighBit)
  return ⟨start, end_, masks.reverse, intlvMatch⟩

/-- `RangeSize`. -/
def AddrRange.ofSize (start size : Addr) : AddrRange := ⟨start, start + size, [], 0⟩

section

variable (r : AddrRange)

def AddrRange.interleaved : Bool := 0 < r.masks.length

def AddrRange.size : Addr := (r.end_ - r.start) >>> r.masks.length

def AddrRange.granularity : Except Fault Addr :=
  if r.interleaved then do
    -- The combined mask is an `int`.
    let combinedMask : BitVec 32 :=
      r.masks.foldl (fun combined mask => (combined.signExtend 64 ||| mask).setWidth 32) 0
    let lowestBit := ctz64 (combinedMask.signExtend 64)
    require (lowestBit < 64) .undefinedShift
    return BitVec.twoPow 64 lowestBit
  else
    return r.size

def AddrRange.mergesWith (r' : AddrRange) : Bool :=
  r'.start = r.start ∧ r'.end_ = r.end_ ∧ r'.masks = r.masks

def selFrom (a : Addr) (i sel : ℕ) : List Addr → ℕ
  | [] => sel
  | mask :: masks => selFrom a (i + 1) (sel ||| (popCount (a &&& mask) % 2) <<< i) masks

def AddrRange.sel (a : Addr) : ℕ := selFrom a 0 0 r.masks

def AddrRange.contains (a : Addr) : Bool :=
  r.start ≤ a ∧ a < r.end_ ∧ r.sel a = r.intlvMatch.toNat

def AddrRange.intersects (r' : AddrRange) : Except Fault Bool :=
  if r'.end_ ≤ r.start ∨ r.end_ ≤ r'.start then
    return false
  else if !r.interleaved && !r'.interleaved then
    return true
  else if r'.size = 1 then
    return r.contains r'.start
  else if r.mergesWith r' then
    return r.intlvMatch = r'.intlvMatch
  else
    .error (.cannotTestIntersection r r')

def AddrRange.isSubset (r' : AddrRange) : Except Fault Bool :=
  if r.interleaved then
    .error (.cannotTestSubset r)
  else if r'.interleaved then
    if r'.contains r.start && r'.contains (r.end_ - 1) then do
      let granularity ← r'.granularity
      return r.size ≤ granularity
    else
      return false
  else
    return r'.start ≤ r.start ∧ r.end_ ≤ r'.end_

/-- The order of the ranges in a map. -/
def AddrRange.lt (r' : AddrRange) : Bool :=
  if r.start ≠ r'.start then r.start < r'.start else r.intlvMatch < r'.intlvMatch

end

/-! ## Channel-local addresses -/

def masksLsb (masks : List Addr) : List ℕ := (masks.map ctz64).insertionSort (· ≤ ·)

def removeBit (i : ℕ) (a : Addr) (intlvBit : ℕ) : Addr :=
  if 0 < intlvBit then insertBits (a >>> 1) (intlvBit - i - 1) 0 a else a >>> 1

def removeBits (i : ℕ) (a : Addr) : List ℕ → Addr
  | [] => a
  | intlvBit :: lsbs => removeBits (i + 1) (removeBit i a intlvBit) lsbs

def addBit (i : ℕ) (a : Addr) (intlvBit : ℕ) : Addr :=
  if 0 < intlvBit then insertBits (a <<< 1) (intlvBit + i - 1) 0 a else a <<< 1

def addBits (i : ℕ) (a : Addr) : List ℕ → Addr
  | [] => a
  | intlvBit :: lsbs => addBits (i + 1) (addBit i a intlvBit) lsbs

/-- `~(1 << lsb)`, where the one is an `int`. -/
def notIntBit (lsb : ℕ) : Except Fault Addr := do
  require (lsb < 32) .undefinedShift
  return (~~~BitVec.twoPow 32 lsb).signExtend 64

def setBits (intlvMatch : BitVec 8) (i : ℕ) (a : Addr) : List Addr → Except Fault Addr
  | [] => return a
  | mask :: masks => do
    let lsb := ctz64 mask
    let intlvBit : Addr := (bits intlvMatch i i).setWidth 64
    let notLsb ← notIntBit lsb
    let masked := a &&& mask &&& notLsb
    setBits intlvMatch (i + 1)
      (insertBits a lsb lsb (intlvBit ^^^ BitVec.ofNat 64 (popCount masked))) masks

section

variable (r : AddrRange) (a : Addr)

def AddrRange.removeIntlvBits : Addr := removeBits 0 a (masksLsb r.masks)

def AddrRange.addIntlvBits : Except Fault Addr :=
  setBits r.intlvMatch 0 (addBits 0 a (masksLsb r.masks)) r.masks

def AddrRange.getOffset : Addr :=
  if r.start ≤ a ∧ a < r.end_ then
    if r.interleaved then r.removeIntlvBits a - r.removeIntlvBits r.start else a - r.start
  else
    MaxAddr

end

end HetSim.Address
