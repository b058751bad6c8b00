import HetSim.Process.Areas

/-!
# The memory of an emulated process

The areas, the page table and the three bounds that the system calls move. A loop through the
pages of a 64-bit range gets as many rounds as there are pages; one that is not done by then
never ends.
-/

namespace HetSim.Process
open Checked

/-- `EmulationPageTable::Entry`. -/
structure Entry where
  paddr : ℕ
  flags : ℕ
  deriving DecidableEq

abbrev PageTable := ℕ → Option Entry

variable {B : Type} (p : PageSize)

/-- The number of rounds of a loop over the pages of `size` bytes. -/
def numPages (size : ℕ) : ℕ := (size + p.bytes - 1) / p.bytes

/-- The number of pages of the address space. -/
def allPages : ℕ := 2 ^ 64 / p.bytes

namespace PageTable

/-- One round of the loop of `map`. -/
def mapPage (vaddr paddr flags : ℕ) (t : PageTable) (i : ℕ) : Except Fault PageTable := do
  let page := wrap (vaddr + i * p.bytes)
  require (t page = none ∨ flags % 2 = 1) (.alreadyMapped page)
  pure (Function.update t page (some ⟨paddr + i * p.bytes, flags⟩))

def map (t : PageTable) (vaddr paddr size flags : ℕ) : Except Fault PageTable := do
  require (vaddr % p.bytes = 0) .pageOffset
  (List.range (numPages p size)).foldlM (mapPage p vaddr paddr flags) t

def remapPage (vaddr newVaddr : ℕ) (t : PageTable) (i : ℕ) : Except Fault PageTable := do
  let e ← demand (t (wrap (vaddr + i * p.bytes))) .notInTable
  require (t (wrap (newVaddr + i * p.bytes)) = none) .inTable
  pure (Function.update (Function.update t (wrap (newVaddr + i * p.bytes)) (some e))
    (wrap (vaddr + i * p.bytes)) none)

def remap (t : PageTable) (vaddr size newVaddr : ℕ) : Except Fault PageTable := do
  require (vaddr % p.bytes = 0) .pageOffset
  require (newVaddr % p.bytes = 0) .pageOffset
  (List.range (numPages p size)).foldlM (remapPage p vaddr newVaddr) t

def unmapPage (vaddr : ℕ) (t : PageTable) (i : ℕ) : Except Fault PageTable := do
  require ((t (wrap (vaddr + i * p.bytes))).isSome) .notInTable
  pure (Function.update t (wrap (vaddr + i * p.bytes)) none)

def unmap (t : PageTable) (vaddr size : ℕ) : Except Fault PageTable := do
  require (vaddr % p.bytes = 0) .pageOffset
  (List.range (numPages p size)).foldlM (unmapPage p vaddr) t

def isUnmapped (t : PageTable) (vaddr size : ℕ) : Except Fault Bool := do
  require (vaddr % p.bytes = 0) .pageOffset
  pure ((List.range (numPages p size)).all fun i => (t (wrap (vaddr + i * p.bytes))).isNone)

def lookup (t : PageTable) (vaddr : ℕ) : Option Entry := t (roundDown p vaddr)

end PageTable

/-- `pagePtr` is the next physical page that the system hands out. -/
structure MemState (B : Type) where
  brkPoint : ℕ
  endBrkPoint : ℕ
  mmapEnd : ℕ
  stackBase : ℕ
  stackMin : ℕ
  maxStackSize : ℕ
  vmaList : List (VMA B)
  pTable : PageTable
  pagePtr : ℕ

/-- The loop of `unmapRegion` over the areas. -/
def unmapVMAs (start end_ : ℕ) : List (VMA B) → Except Fault (List (VMA B))
  | [] => pure []
  | v :: rest =>
    if v.isStrictSuperset start end_ then do
      let left ← v.sliceRegionRight p start
      let right ← v.sliceRegionLeft p end_
      -- the range cannot be in any more areas
      pure (right :: (rest ++ [left]))
    else if v.isSubset start end_ then unmapVMAs start end_ rest
    else if v.intersects start end_ then do
      let v' ← if v.start < start then v.sliceRegionRight p start else v.sliceRegionLeft p end_
      let rest' ← unmapVMAs start end_ rest
      pure (v' :: rest')
    else do
      let rest' ← unmapVMAs start end_ rest
      pure (v :: rest')

/-- A page that is not in the table is passed over. -/
def unmapMapped (t : PageTable) (start : ℕ) : Except Fault PageTable := do
  let free ← t.isUnmapped p start p.bytes
  if free then pure t else t.unmap p start p.bytes

/-- The loop of `unmapRegion` over the pages. -/
def unmapPages : ℕ → PageTable → ℕ → ℕ → Except Fault PageTable
  | 0, _, _, _ => .error .endless
  | n + 1, t, start, length => do
    let t' ← unmapMapped p t start
    if 0 < sub length p.bytes then
      unmapPages n t' (wrap (start + p.bytes)) (sub length p.bytes)
    else pure t'

def unmapRegion (s : MemState B) (start length : ℕ) : Except Fault (MemState B) := do
  let vmaList ← unmapVMAs p start (wrap (start + length)) s.vmaList
  let pTable ← unmapPages p (allPages p) s.pTable start length
  pure { s with vmaList, pTable }

/-- The loop of `remapRegion` over the areas, which also reaches the clones it appends. -/
def remapVMAs (start end_ newStart : ℕ) : ℕ → List (VMA B) → Except Fault (List (VMA B))
  | 0, _ => .error .endless
  | _ + 1, [] => pure []
  | n + 1, v :: rest =>
    if v.isStrictSuperset start end_ then do
      let left ← v.sliceRegionRight p start
      let right ← v.sliceRegionLeft p end_
      let v' ← v.sliceRegionLeft p start
      let v' ← v'.sliceRegionRight p end_
      let v' ← v'.remap p newStart
      pure (v' :: (rest ++ [left, right]))
    else if v.isSubset start end_ then do
      let v' ← v.remap p (wrap (sub v.start start + newStart))
      let rest' ← remapVMAs start end_ newStart n rest
      pure (v' :: rest')
    else if v.intersects start end_ then
      if v.start < start then do
        let left ← v.sliceRegionRight p start
        let v' ← v.sliceRegionLeft p start
        let v' ← v'.remap p newStart
        let rest' ← remapVMAs start end_ newStart n (rest ++ [left])
        pure (v' :: rest')
      else do
        let right ← v.sliceRegionLeft p end_
        let v' ← v.sliceRegionRight p end_
        let v' ← v'.remap p (sub (wrap (newStart + v'.start)) start)
        let rest' ← remapVMAs start end_ newStart n (rest ++ [right])
        pure (v' :: rest')
    else do
      let rest' ← remapVMAs start end_ newStart n rest
      pure (v :: rest')

def remapMapped (t : PageTable) (start newStart : ℕ) : Except Fault PageTable := do
  let free ← t.isUnmapped p start p.bytes
  if free then pure t else t.remap p start p.bytes newStart

/-- The loop of `remapRegion` over the pages. -/
def remapPages : ℕ → PageTable → ℕ → ℕ → ℕ → Except Fault PageTable
  | 0, _, _, _, _ => .error .endless
  | n + 1, t, start, newStart, length => do
    let t' ← remapMapped p t start newStart
    if 0 < sub length p.bytes then
      remapPages n t' (wrap (start + p.bytes)) (wrap (newStart + p.bytes)) (sub length p.bytes)
    else pure t'

def remapRegion (s : MemState B) (start newStart length : ℕ) : Except Fault (MemState B) := do
  -- an area has at most one clone that is reached, and no clone has one
  let vmaList ← remapVMAs p start (wrap (start + length)) newStart (2 * s.vmaList.length + 1)
    s.vmaList
  let pTable ← remapPages p (allPages p) s.pTable start newStart length
  pure { s with vmaList, pTable }

end HetSim.Process
