import HetSim.Library.Runs
import HetSim.Process.MemState

/-!
# The memory system calls

`mmap` of anonymous memory, `munmap`, `mremap`, `brk` and the page fault handler. Physical pages
are handed out one after the other, from a memory that is large enough.
-/

namespace HetSim.Process
open Checked

variable {B : Type} (p : PageSize)

/-- The loop of `MemState::isUnmapped` over the page table. -/
def checkPages (t : PageTable) : ℕ → ℕ → ℕ → Except Fault Unit
  | 0, _, _ => .error .endless
  | n + 1, start, end_ =>
    if start < end_ then
      if (t.lookup p start).isSome then .error (.withoutVMA start)
      else checkPages t n (wrap (start + p.bytes)) end_
    else pure ()

namespace MemState

def isUnmapped (s : MemState B) (startAddr length : ℕ) : Except Fault Bool :=
  let endAddr := wrap (startAddr + length)
  if s.vmaList.any fun v => v.intersects startAddr endAddr then pure false
  else do
    checkPages p s.pTable (allPages p + 1) startAddr endAddr
    pure true

/-- For anonymous memory: without a file behind the area. -/
def mapRegion (s : MemState B) (startAddr length : ℕ) : Except Fault (MemState B) := do
  let free ← s.isUnmapped p startAddr length
  require (free = true) .notUnmapped
  let v ← VMA.sanityCheck p ⟨startAddr, wrap (startAddr + length), none, 0, 0⟩
  pure { s with vmaList := s.vmaList ++ [v] }

def updateBrkRegion (s : MemState B) (oldBrk newBrk : ℕ) : Except Fault (MemState B) :=
  if newBrk < oldBrk then pure { s with brkPoint := newBrk }
  else
    let pageAlignedBrk := roundUp p newBrk
    if s.endBrkPoint < pageAlignedBrk then do
      let length := pageAlignedBrk - s.endBrkPoint
      let free ← s.isUnmapped p s.endBrkPoint length
      if free then do
        let s ← s.mapRegion p s.endBrkPoint length
        pure { s with endBrkPoint := pageAlignedBrk, brkPoint := newBrk }
      else pure s
    else pure { s with brkPoint := newBrk }

/-- The loop of `extendMmap`. -/
def findFree (growsDown : Bool) (s : MemState B) (length : ℕ) : ℕ → ℕ → Except Fault ℕ
  | 0, _ => .error .endless
  | n + 1, start => do
    let free ← s.isUnmapped p start length
    let next := if growsDown then sub start p.bytes else wrap (start + p.bytes)
    if free then pure start else findFree growsDown s length n next

def extendMmap (growsDown : Bool) (s : MemState B) (length : ℕ) :
    Except Fault (ℕ × MemState B) := do
  let start ← s.findFree p growsDown length (allPages p)
    (if growsDown then sub s.mmapEnd length else s.mmapEnd)
  pure (start, { s with mmapEnd := if growsDown then start else wrap (start + length) })

/-- `Process::allocateMem`. -/
def allocateMem (s : MemState B) (vaddr size : ℕ) (clobber : Bool) : Except Fault (MemState B) := do
  let pTable ← s.pTable.map p vaddr (s.pagePtr * p.bytes) size (if clobber then 1 else 0)
  pure { s with pTable, pagePtr := s.pagePtr + numPages p size }

/-- The loop of `fixupFault` that extends the stack. -/
def growStack (vaddr : ℕ) : ℕ → MemState B → Except Fault (MemState B)
  | 0, _ => .error .endless
  | n + 1, s =>
    if vaddr < s.stackMin then do
      let s := { s with stackMin := sub s.stackMin p.bytes }
      require (sub s.stackBase s.stackMin ≤ s.maxStackSize) .maximumStackSizeExceeded
      let s ← s.allocateMem p s.stackMin p.bytes false
      growStack vaddr n s
    else pure s

def fixupFault (s : MemState B) (vaddr : ℕ) : Except Fault (Bool × MemState B) :=
  match s.vmaList.find? fun v => v.contains vaddr with
  | some _ => do
    let s ← s.allocateMem p (roundDown p vaddr) p.bytes false
    pure (true, s)
  | none =>
    if s.stackMin ≤ vaddr ∧ vaddr < s.stackBase then do
      let s ← s.allocateMem p (roundDown p vaddr) p.bytes false
      pure (true, s)
    else if vaddr < s.stackMin ∧ sub s.stackBase s.maxStackSize ≤ vaddr then do
      let s ← growStack p vaddr (allPages p + 1) s
      pure (true, s)
    else pure (false, s)

end MemState

inductive Errno
  | EINVAL
  | ENOMEM
  deriving DecidableEq

abbrev SyscallReturn := Except Errno ℕ

structure MmapFlags where
  mapPrivate : Bool
  mapShared : Bool
  mapFixed : Bool
  deriving DecidableEq

/-- Whether the hint of the application is taken. -/
def hintFree (s : MemState B) (start length : ℕ) : Except Fault Bool :=
  if start ≠ 0 then s.isUnmapped p start length else pure false

/-- The call with `TGT_MAP_ANONYMOUS`. -/
def mmapFunc (growsDown : Bool) (s : MemState B) (start length offset : ℕ) (flags : MmapFlags) :
    Except Fault (SyscallReturn × MemState B) :=
  if start % p.bytes ≠ 0 ∨ offset % p.bytes ≠ 0 ∨ (flags.mapPrivate && flags.mapShared) = true ∨
      (!flags.mapPrivate && !flags.mapShared) = true ∨ length = 0 then
    pure (.error .EINVAL, s)
  else
    let length := roundUp p length
    if flags.mapFixed then do
      let s ← unmapRegion p s start length
      let s ← s.mapRegion p start length
      pure (.ok start, s)
    else do
      let hint ← hintFree p s start length
      if hint then do
        let s ← s.mapRegion p start length
        pure (.ok start, s)
      else do
        let r ← s.extendMmap p growsDown length
        let s ← r.2.mapRegion p r.1 length
        pure (.ok r.1, s)

def munmapFunc (s : MemState B) (start length : ℕ) : Except Fault (SyscallReturn × MemState B) :=
  if start % p.bytes ≠ 0 ∨ length = 0 then pure (.error .EINVAL, s)
  else do
    let s ← unmapRegion p s start (roundUp p length)
    pure (.ok 0, s)

/-- The branch of `mremapFunc` that moves a region and extends it. -/
def mremapMove (growsDown : Bool) (s : MemState B) (start oldLength newLength : ℕ)
    (provided : Option ℕ) : Except Fault (SyscallReturn × MemState B) := do
  let newStart := match provided with
    | some a => a
    | none => if growsDown then sub s.mmapEnd newLength else s.mmapEnd
  let mmapEnd := match provided with
    | some _ => s.mmapEnd
    | none => if growsDown then newStart else wrap (s.mmapEnd + newLength)
  -- the remaining pages are added to the page table only
  let s ← { s with mmapEnd }.allocateMem p (wrap (newStart + oldLength)) (newLength - oldLength)
    provided.isSome
  let s ← remapRegion p s start newStart oldLength
  pure (.ok newStart, s)

/-- The branch of `mremapFunc` that shrinks a region, or leaves its length. -/
def mremapShrink (s : MemState B) (start oldLength newLength : ℕ) (provided : Option ℕ) :
    Except Fault (SyscallReturn × MemState B) := do
  let target := provided.getD start
  let s ← (if target ≠ start then remapRegion p s start target newLength else pure s :
    Except Fault (MemState B))
  let s ← (if newLength ≠ oldLength then
      unmapRegion p s (wrap (start + newLength)) (oldLength - newLength)
    else pure s : Except Fault (MemState B))
  pure (.ok target, s)

/-- `provided` is the address that comes with `TGT_MREMAP_FIXED`. -/
def mremapFunc (growsDown : Bool) (s : MemState B) (start oldLength newLength : ℕ)
    (provided : Option ℕ) (mayMove : Bool) : Except Fault (SyscallReturn × MemState B) :=
  if start % p.bytes ≠ 0 ∨ provided.getD 0 % p.bytes ≠ 0 then pure (.error .EINVAL, s)
  else
    let newLength := roundUp p newLength
    if oldLength < newLength then
      if wrap (start + oldLength) = s.mmapEnd ∧ provided.getD start = start then do
        let diff := newLength - oldLength
        let s ← s.mapRegion p s.mmapEnd diff
        pure (.ok start, { s with mmapEnd := wrap (s.mmapEnd + diff) })
      else if provided = none ∧ mayMove = false then pure (.error .ENOMEM, s)
      else mremapMove p growsDown s start oldLength newLength provided
    else mremapShrink p s start oldLength newLength provided

def brkFunc (s : MemState B) (newBrk : ℕ) : Except Fault (SyscallReturn × MemState B) :=
  if newBrk = 0 ∨ newBrk = s.brkPoint then pure (.ok s.brkPoint, s)
  else do
    let s ← s.updateBrkRegion p s.brkPoint newBrk
    pure (.ok s.brkPoint, s)

/-- What a process asks of its address space. -/
inductive Call
  | mmap (start length offset : ℕ) (flags : MmapFlags)
  | munmap (start length : ℕ)
  | mremap (start oldLength newLength : ℕ) (provided : Option ℕ) (mayMove : Bool)
  | brk (newBrk : ℕ)
  | pageFault (vaddr : ℕ)
  deriving DecidableEq

def step (growsDown : Bool) (s : MemState B) : Call → Except Fault (MemState B)
  | .mmap start length offset flags =>
    Prod.snd <$> mmapFunc p growsDown s start length offset flags
  | .munmap start length => Prod.snd <$> munmapFunc p s start length
  | .mremap start oldLength newLength provided mayMove =>
    Prod.snd <$> mremapFunc p growsDown s start oldLength newLength provided mayMove
  | .brk newBrk => Prod.snd <$> brkFunc p s newBrk
  | .pageFault vaddr => Prod.snd <$> s.fixupFault p vaddr

end HetSim.Process
