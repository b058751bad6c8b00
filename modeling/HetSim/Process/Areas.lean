import HetSim.Library.Checked

/-!
# Virtual memory areas

An area is a page-aligned range of virtual addresses, anonymous or backed by a buffer on the
host. Sums and differences of addresses are taken modulo `2 ^ 64`. Ranges are never interleaved.
-/

namespace HetSim.Process
open Checked

inductive Fault
  /-- The asserts of `VMA::sanityCheck`. -/
  | sanityCheck
  /-- The asserts on page offsets in the page table. -/
  | pageOffset
  /-- The asserts that an entry of the page table exists, or does not. -/
  | notInTable
  | inTable
  /-- A page that is allocated twice. -/
  | alreadyMapped (vaddr : ℕ)
  /-- A page of the table outside all areas. -/
  | withoutVMA (vaddr : ℕ)
  /-- The assert of `mapRegion`. -/
  | notUnmapped
  | maximumStackSizeExceeded
  /-- A loop that does not end. -/
  | endless
  deriving DecidableEq

/-- Pages have a power of two as their size. -/
structure PageSize where
  log : ℕ
  lt : log < 64

def PageSize.bytes (p : PageSize) : ℕ := 2 ^ p.log

def wrap (n : ℕ) : ℕ := n % 2 ^ 64

/-- The difference of two addresses. -/
def sub (a b : ℕ) : ℕ := (a + 2 ^ 64 - b) % 2 ^ 64

def roundDown (p : PageSize) (a : ℕ) : ℕ := a / p.bytes * p.bytes

def roundUp (p : PageSize) (a : ℕ) : ℕ := roundDown p (wrap (a + (p.bytes - 1)))

/-- `origHostBuf` is the handle to the buffer on the host, `hostBuf` the address in it that
belongs to the start of the area. -/
structure VMA (B : Type) where
  start : ℕ
  end_ : ℕ
  origHostBuf : Option B
  hostBuf : ℕ
  hostBufLen : ℕ
  deriving DecidableEq

variable {B : Type} (p : PageSize)

namespace VMA

def sanityCheck (v : VMA B) : Except Fault (VMA B) := do
  require (v.start ≠ v.end_) .sanityCheck
  require (v.start < v.end_) .sanityCheck
  require (v.start % p.bytes = 0) .sanityCheck
  require (v.end_ % p.bytes = 0) .sanityCheck
  pure v

def hasHostBuf (v : VMA B) : Bool := v.origHostBuf.isSome

def isStrictSuperset (v : VMA B) (start end_ : ℕ) : Bool := v.start < start ∧ end_ < v.end_

def isSubset (v : VMA B) (start end_ : ℕ) : Bool := start ≤ v.start ∧ v.end_ ≤ end_

def intersects (v : VMA B) (start end_ : ℕ) : Bool := ¬ (end_ ≤ v.start ∨ v.end_ ≤ start)

def contains (v : VMA B) (a : ℕ) : Bool := v.start ≤ a ∧ a < v.end_

/-- The area without its addresses from `sliceAddr` on. -/
def cutRight (v : VMA B) (sliceAddr : ℕ) : VMA B :=
  { v with
    end_ := sliceAddr
    hostBufLen := if v.hasHostBuf then min v.hostBufLen (sub sliceAddr v.start) else v.hostBufLen }

def sliceRegionRight (v : VMA B) (sliceAddr : ℕ) : Except Fault (VMA B) :=
  sanityCheck p (v.cutRight sliceAddr)

/-- The area without its addresses below `sliceAddr`. -/
def cutLeft (v : VMA B) (sliceAddr : ℕ) : VMA B :=
  let overlapLen := sub sliceAddr v.start
  if v.hasHostBuf then
    if v.hostBufLen ≤ overlapLen then
      -- the handle goes with the last byte, and the pointer starts from null
      ⟨sliceAddr, v.end_, none, overlapLen, 0⟩
    else
      ⟨sliceAddr, v.end_, v.origHostBuf, v.hostBuf + overlapLen, v.hostBufLen - overlapLen⟩
  else { v with start := sliceAddr }

def sliceRegionLeft (v : VMA B) (sliceAddr : ℕ) : Except Fault (VMA B) :=
  sanityCheck p (v.cutLeft sliceAddr)

def size (v : VMA B) : ℕ := sub v.end_ v.start

def moved (v : VMA B) (newStart : ℕ) : VMA B :=
  { v with start := newStart, end_ := wrap (newStart + v.size) }

def remap (v : VMA B) (newStart : ℕ) : Except Fault (VMA B) := sanityCheck p (v.moved newStart)

/-- The part of the host buffer, as address and length, that is written to the page at
`start`. -/
def fillMemPages (v : VMA B) (start : ℕ) : Option (ℕ × ℕ) :=
  let offset := sub start v.start
  if offset < v.hostBufLen then
    some (v.hostBuf + offset, min (v.hostBufLen - offset) p.bytes)
  else none

/-- The byte of the host that a fault on the page of `a` writes to `a`. -/
def backing (v : VMA B) (a : ℕ) : Option (B × ℕ) :=
  v.origHostBuf.bind fun buf =>
    (v.fillMemPages p (roundDown p a)).bind fun blob =>
      if a - roundDown p a < blob.2 then some (buf, blob.1 + (a - roundDown p a)) else none

end VMA

end HetSim.Process
