import HetSim.Library.Runs

/-!
# Register renaming

The rename stage for one thread and one class of registers: the map from architectural to
physical registers, the free list, and the history of renames, newest first. A squash undoes the
history from its front; a commit walks it from its back and frees what was renamed over.
-/

namespace HetSim.O3
open Checked

inductive Fault
  | noFreeReg
  | notZeroReg
  | pinnedTwice
  deriving DecidableEq

variable {A P : Type} [DecidableEq A] [DecidableEq P]

/-- What is fixed for a class of registers. A class without a zero register has an invalid
index in its place, which no register matches. -/
structure RegClass (A P : Type) where
  zeroReg : Option A
  isZeroReg : P → Bool

structure RenameHistory (A P : Type) where
  instSeqNum : ℕ
  archReg : A
  newPhysReg : P
  prevPhysReg : P
  deriving DecidableEq

structure Rename (A P : Type) where
  map : A → P
  freeRegs : List P
  numPinnedWrites : P → ℕ
  historyBuffer : List (RenameHistory A P)

/-- `SimpleRenameMap::rename`; a destination comes with its number of pinned writes. -/
def rename (c : RegClass A P) (r : Rename A P) (dest : A × ℕ) :
    Except Fault ((P × P) × Rename A P) :=
  let prev := r.map dest.1
  if c.zeroReg = some dest.1 then do
    require (c.isZeroReg prev = true) .notZeroReg
    pure ((prev, prev), r)
  else if 0 < r.numPinnedWrites prev then do
    -- a pinned register is not renamed
    require (dest.2 = 0) .pinnedTwice
    pure ((prev, prev), { r with
      numPinnedWrites := Function.update r.numPinnedWrites prev (r.numPinnedWrites prev - 1) })
  else
    match r.freeRegs with
    | [] => .error .noFreeReg
    | reg :: regs => .ok ((reg, prev), { r with
        map := Function.update r.map dest.1 reg
        freeRegs := regs
        numPinnedWrites := Function.update r.numPinnedWrites reg dest.2 })

/-- One turn of the loop over the destination registers. -/
def renameDestReg (c : RegClass A P) (seqNum : ℕ) (r : Rename A P) (dest : A × ℕ) :
    Except Fault (Rename A P) := do
  let res ← rename c r dest
  pure { res.2 with
    historyBuffer := ⟨seqNum, dest.1, res.1.1, res.1.2⟩ :: res.2.historyBuffer }

def renameDestRegs (c : RegClass A P) (seqNum : ℕ) (r : Rename A P) (dests : List (A × ℕ)) :
    Except Fault (Rename A P) := Runs.run (renameDestReg c seqNum) r dests

/-- One entry is undone only if it was really a change. -/
def undo (e : RenameHistory A P) (r : Rename A P) : Rename A P :=
  if e.newPhysReg ≠ e.prevPhysReg then
    { r with
      map := Function.update r.map e.archReg e.prevPhysReg
      freeRegs := r.freeRegs ++ [e.newPhysReg] }
  else r

/-- The loop of `doSquash` over the history from its front. -/
def squashLoop (squashed : ℕ) : List (RenameHistory A P) → Rename A P → Rename A P
  | [], r => { r with historyBuffer := [] }
  | e :: es, r =>
    if e.instSeqNum > squashed then squashLoop squashed es (undo e r)
    else { r with historyBuffer := e :: es }

def doSquash (squashed : ℕ) (r : Rename A P) : Rename A P :=
  squashLoop squashed r.historyBuffer r

def release (e : RenameHistory A P) (r : Rename A P) : Rename A P :=
  if e.newPhysReg ≠ e.prevPhysReg then { r with freeRegs := r.freeRegs ++ [e.prevPhysReg] } else r

/-- The loop of `removeFromHistory` over the history from its back; the list has the oldest
entry first. -/
def commitLoop (seqNum : ℕ) : List (RenameHistory A P) → Rename A P → Rename A P
  | [], r => { r with historyBuffer := [] }
  | e :: es, r =>
    if e.instSeqNum ≤ seqNum then commitLoop seqNum es (release e r)
    else { r with historyBuffer := (e :: es).reverse }

def removeFromHistory (seqNum : ℕ) (r : Rename A P) : Rename A P :=
  commitLoop seqNum r.historyBuffer.reverse r

inductive Event (A : Type)
  | rename (seqNum : ℕ) (dests : List (A × ℕ))
  | squash (seqNum : ℕ)
  | commit (seqNum : ℕ)
  deriving DecidableEq

/-- The stage with its past: the newest sequence number, the last committed one, and the
instructions renamed and not squashed since, newest first, each with the map it left. -/
structure Stage (A P : Type) where
  core : Rename A P
  newest : ℕ
  committed : ℕ
  renamed : List (ℕ × (A → P))
  start : A → P

def step (c : RegClass A P) (s : Stage A P) : Event A → Except Fault (Stage A P)
  | .rename seqNum dests => do
    let r ← renameDestRegs c seqNum s.core dests
    pure { s with core := r, newest := seqNum, renamed := (seqNum, r.map) :: s.renamed }
  | .squash seqNum => .ok { s with
      core := doSquash seqNum s.core
      renamed := s.renamed.dropWhile fun i => seqNum < i.1 }
  | .commit seqNum => .ok { s with core := removeFromHistory seqNum s.core, committed := seqNum }

/-- The map after the last instruction with a number up to `seqNum`, among those not squashed. -/
def Stage.mapAfter (s : Stage A P) (seqNum : ℕ) : A → P :=
  ((s.renamed.find? fun i => i.1 ≤ seqNum).map Prod.snd).getD s.start

/-- The stage before the first instruction. -/
def boot (map : A → P) (freeRegs : List P) : Stage A P where
  core := ⟨map, freeRegs, fun _ => 0, []⟩
  newest := 0
  committed := 0
  renamed := []
  start := map

end HetSim.O3
