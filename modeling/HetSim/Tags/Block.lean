import HetSim.Cache.Indexing

/-!
# Cache blocks

What the tag stores use of a cache block: its tag and three bits of its status.
-/

namespace HetSim.Tags
open Address Checked

inductive Fault
  | sizeNotPowerOf2
  | logOfZero
  | tooManyTrackedCaches
  | nullPointer
  | outOfBounds
  | endlessList
  | statusNotClear
  | alreadyValid
  | notValid
  | notErasedOnce
  | wrongTag
  | wrongSecurity
  | tailHasNext
  | headHasPrev
  | inSomeCache
  | indexing (f : Cache.Fault)
  | divisionByZero
  | paramOutOfRange
  | blockSizeNotSupported
  | sectorNotPowerOf2
  | setOutOfRange
  | notACandidate
  | victimValid
  | overwritingValidSector
  deriving DecidableEq

abbrev MaxAddr : Addr := BitVec.allOnes 64

structure Status where
  valid : Bool := false
  secure : Bool := false
  compressed : Bool := false
  deriving DecidableEq

structure CacheBlk where
  tag : Addr := MaxAddr
  status : Status := {}
  deriving DecidableEq

namespace CacheBlk

variable (blk : CacheBlk)

def isValid : Bool := blk.status.valid

def isSecure : Bool := blk.status.secure

def setValid : Except Fault CacheBlk := do
  require (blk.isValid = false) .alreadyValid
  return { blk with status.valid := true }

def setSecure : CacheBlk := { blk with status.secure := true }

def invalidate (_blk : CacheBlk) : CacheBlk := { tag := MaxAddr, status := {} }

def insert (tag : Addr) (isSecure : Bool) : Except Fault CacheBlk := do
  require (blk.status = {}) .statusNotClear
  let blk := { blk with tag }
  let blk := if isSecure then blk.setSecure else blk
  blk.setValid

variable {blk}

theorem insert_ok {blk' : CacheBlk} {tag : Addr} {isSecure : Bool} :
    blk.insert tag isSecure = .ok blk' ↔
      blk.status = {} ∧ blk' = ⟨tag, { valid := true, secure := isSecure }⟩ := by
  obtain ⟨tag₀, status⟩ := blk
  cases isSecure
  all_goals
    simp only [insert, setValid, isValid, bind_eq_ok, require_eq_ok, pure_eq_ok]
    constructor
    · rintro ⟨⟨⟩, rfl, ⟨⟩, -, rfl⟩
      exact ⟨rfl, rfl⟩
    · rintro ⟨rfl, rfl⟩
      exact ⟨⟨⟩, rfl, ⟨⟩, rfl, rfl⟩

end CacheBlk

end HetSim.Tags
