import HetSim.Address.Bitfield
import HetSim.Library.Runs

/-!
# The branch histories of TAGE

The outcomes are in a buffer that is filled from its end; each tagged table has three folded
copies of a part of it. A prediction updates the histories and saves what a squash needs. The
history lengths are any numbers up to `maxHist`, and there is one thread.
-/

namespace HetSim.Branch
open Checked
open Address (Addr)

structure TageParams where
  nHistoryTables : ℕ
  histBufferSize : ℕ
  maxHist : ℕ
  pathHistBits : ℕ
  instShiftAmt : ℕ
  speculativeHistUpdate : Bool
  histLengths : ℕ → ℕ
  logTagTableSizes : ℕ → ℕ
  tagTableTagWidths : ℕ → ℕ

inductive TageFault
  | pathHistTooLong -- assert(pathHistBits <= (sizeof(int)*8))
  | bufferTooSmall -- assert(histBufferSize > maxHist * 2)
  | pointersDiffer -- assert(gHist == &globalHistory[ptGhist])
  /-- The branch is not in flight any more. -/
  | noSuchBranch
  deriving DecidableEq

structure FoldedHistory where
  comp : BitVec 32
  compLength : ℕ
  origLength : ℕ
  outpoint : ℕ
  deriving DecidableEq

namespace FoldedHistory

def init (originalLength compressedLength : ℕ) : FoldedHistory :=
  ⟨0, compressedLength, originalLength, originalLength % compressedLength⟩

/-- `h` is a pointer into the buffer of outcomes. -/
def update (f : FoldedHistory) (h : ℕ → BitVec 8) : FoldedHistory :=
  let comp := (f.comp <<< 1) ||| (h 0).setWidth 32
  let comp := comp ^^^ ((h f.origLength).setWidth 32 <<< f.outpoint)
  let comp := comp ^^^ (comp >>> f.compLength)
  { f with comp := comp &&& (((1 : BitVec 64) <<< f.compLength) - 1).setWidth 32 }

end FoldedHistory

structure ThreadHistory where
  pathHist : BitVec 32
  globalHistory : ℕ → BitVec 8
  /-- The pointer to the most recent outcome, as an index. -/
  gHist : ℕ
  ptGhist : ℕ
  computeIndices : ℕ → FoldedHistory
  computeTags0 : ℕ → FoldedHistory
  computeTags1 : ℕ → FoldedHistory

/-- What is saved with a prediction. -/
structure BranchInfo where
  ptGhist : ℕ
  pathHist : BitVec 32
  ci : ℕ → BitVec 32
  ct0 : ℕ → BitVec 32
  ct1 : ℕ → BitVec 32

namespace ThreadHistory

def create (p : TageParams) : Except TageFault ThreadHistory := do
  require (p.pathHistBits ≤ 32) .pathHistTooLong
  require (p.maxHist * 2 < p.histBufferSize) .bufferTooSmall
  return {
    pathHist := 0
    globalHistory := fun _ => 0
    gHist := 0
    ptGhist := 0
    computeIndices := fun i => .init (p.histLengths i) (p.logTagTableSizes i)
    computeTags0 := fun i => .init (p.histLengths i) (p.tagTableTagWidths i)
    computeTags1 := fun i => .init (p.histLengths i) (p.tagTableTagWidths i - 1) }

variable (p : TageParams) (t : ThreadHistory)

/-- The outcomes from the pointer on. -/
def outcomes (i : ℕ) : BitVec 8 := t.globalHistory (t.gHist + i)

/-- One of the loops over the tables. -/
def forTables (f : ℕ → FoldedHistory → FoldedHistory) (tables : ℕ → FoldedHistory) :
    ℕ → FoldedHistory :=
  fun i => if 1 ≤ i ∧ i ≤ p.nHistoryTables then f i (tables i) else tables i

def updateFolded : ThreadHistory :=
  { t with
    computeIndices := forTables p (fun _ f => f.update t.outcomes) t.computeIndices
    computeTags0 := forTables p (fun _ f => f.update t.outcomes) t.computeTags0
    computeTags1 := forTables p (fun _ f => f.update t.outcomes) t.computeTags1 }

/-- Restore the folded histories that were saved. -/
def restoreFolded (bi : BranchInfo) : ThreadHistory :=
  { t with
    computeIndices := forTables p (fun i f => { f with comp := bi.ci i }) t.computeIndices
    computeTags0 := forTables p (fun i f => { f with comp := bi.ct0 i }) t.computeTags0
    computeTags1 := forTables p (fun i f => { f with comp := bi.ct1 i }) t.computeTags1 }

/-- The copy of the beginning of the buffer to its end. -/
def rollOver : ThreadHistory :=
  { t with
    globalHistory := fun a =>
      if p.histBufferSize - p.maxHist ≤ a ∧ a < p.histBufferSize then
        t.globalHistory (a - (p.histBufferSize - p.maxHist))
      else t.globalHistory a
    ptGhist := p.histBufferSize - p.maxHist
    gHist := p.histBufferSize - p.maxHist }

def setNewest (dir : Bool) : ThreadHistory :=
  { t with globalHistory := Function.update t.globalHistory t.gHist (if dir then 1 else 0) }

def updateGHist (dir : Bool) : ThreadHistory :=
  let t := if t.ptGhist = 0 then t.rollOver p else t
  setNewest { t with ptGhist := t.ptGhist - 1, gHist := t.gHist - 1 } dir

def nextPathHist (pathHist : BitVec 32) (branchPc : Addr) : BitVec 32 :=
  let pathbit : BitVec 32 := if (branchPc >>> p.instShiftAmt) &&& 1 = 1 then 1 else 0
  ((pathHist <<< 1) + pathbit) &&& (((1 : BitVec 64) <<< p.pathHistBits) - 1).setWidth 32

/-- With what is saved for the branch, if the update is speculative. -/
def updateHistories (branchPc : Addr) (taken speculative : Bool) :
    Except TageFault (Option BranchInfo × ThreadHistory) :=
  if speculative ≠ p.speculativeHistUpdate then return (none, t)
  else do
    let t := t.updateGHist p taken
    let t := { t with pathHist := nextPathHist p t.pathHist branchPc }
    let bi : BranchInfo :=
      ⟨t.ptGhist, t.pathHist, fun i => (t.computeIndices i).comp, fun i => (t.computeTags0 i).comp,
        fun i => (t.computeTags1 i).comp⟩
    let t := t.updateFolded p
    require (t.gHist = t.ptGhist) .pointersDiffer
    return (if speculative then some bi else none, t)

def btbUpdate (bi : BranchInfo) : Except TageFault ThreadHistory :=
  if p.speculativeHistUpdate then do
    require (t.gHist = t.ptGhist) .pointersDiffer
    let t := t.setNewest false
    return (t.restoreFolded p bi).updateFolded p
  else return t

def squash (taken : Bool) (bi : BranchInfo) : ThreadHistory :=
  if p.speculativeHistUpdate then
    let t := { t with pathHist := bi.pathHist, ptGhist := bi.ptGhist, gHist := bi.ptGhist }
    let t := t.setNewest taken
    (t.restoreFolded p bi).updateFolded p
  else t

end ThreadHistory

/-- The histories with the branches in flight, the newest first. `path` is history: the
outcomes on the surviving path, with the addresses of the branches. -/
structure Predictor where
  history : ThreadHistory
  inFlight : List BranchInfo
  path : List (Bool × Addr)

inductive BranchEvent
  | predict (branchPc : Addr) (taken : Bool)
  /-- The newest branch misses in the branch target buffer. -/
  | btbUpdate
  /-- Squash to the branch that is followed by so many others. -/
  | squash (followers : ℕ) (taken : Bool)
  deriving DecidableEq

/-- The direction of the newest branch of a path is corrected. -/
def correct (taken : Bool) : List (Bool × Addr) → List (Bool × Addr)
  | [] => []
  | (_, branchPc) :: path => (taken, branchPc) :: path

/-- At most `d` branches follow a branch that is in flight: the older ones are retired. -/
def Predictor.step (p : TageParams) (d : ℕ) (s : Predictor) :
    BranchEvent → Except TageFault Predictor
  | .predict branchPc taken => do
    let (bi, history) ← s.history.updateHistories p branchPc taken true
    return ⟨history, (bi.toList ++ s.inFlight).take (d + 1), (taken, branchPc) :: s.path⟩
  | .btbUpdate => do
    let bi ← demand s.inFlight.head? .noSuchBranch
    let history ← s.history.btbUpdate p bi
    return ⟨history, s.inFlight, correct false s.path⟩
  | .squash followers taken => do
    let bi ← demand s.inFlight[followers]? .noSuchBranch
    return ⟨s.history.squash p taken bi, s.inFlight.drop followers,
      correct taken (s.path.drop followers)⟩

end HetSim.Branch
