import HetSim.Tracer.Entries

/-!
# The tracing runtime of one thread

The generated functions that the application and the instrumented code call. `trace_bools` and
`stall_counts` are read at the running thread; `traceFiles` is keyed by the PE id. A sum of stalls
that leaves the range of `int` is undefined and ends the run. `openTraceLog` is a call for a log
that is closed: opening an open one truncates the file under the old stream, and is left out.
-/

namespace HetSim.Tracer
open Checked

/-- An intrinsic function of the specification, with the penalty accesses it causes. -/
structure Func where
  token : String
  cycles : ℕ
  loadPenalty : ℕ
  storePenalty : ℕ
  deriving DecidableEq

inductive Arg
  | ptr (p : Ptr)
  | num (n : UInt64)
  deriving DecidableEq

/-- What one call of `__register_entry` writes. -/
inductive Item
  | stall (cycles : UInt32) (deps : List Ptr)
  | load (addr : Ptr) (deps : List Ptr) (pc : Int32)
  | store (addr : Ptr) (data : UInt64) (deps : List Ptr) (pc : Int32)
  | intrinsic (f : Func) (args : List Arg)
  | penalty (op : String) (args : List Arg)
  | eof
  deriving DecidableEq

def Arg.text : Arg → String
  | .ptr p => toHex p
  | .num n => Numerals.decimal n.toNat

def argsText : List Arg → String
  | [] => ""
  | arg :: args => " " ++ arg.text ++ " " ++ argsText args

def Item.text (addrSpaces : List (Int32 × Int32)) : Item → String
  | .stall cycles deps => stallText addrSpaces cycles deps
  | .load addr deps pc => ld addrSpaces addr deps false pc
  | .store addr data deps pc => st addrSpaces addr data deps false pc
  | .intrinsic f args =>
    f.token ++ argsText args ++ (if args = [] then " " else "") ++ Numerals.decimal f.cycles ++ "\n"
  | .penalty op args => op ++ " " ++ (args.head?.elim "" Arg.text) ++ " ( )\n"
  | .eof => "EOF\n"

/-- `outOfRange` is the exception of `traceFiles.at`. -/
inductive TraceFault
  | outOfRange | overflow
  deriving DecidableEq

/-- The generated tables: the address spaces, the ids of each PE type in the order of
the specification, and the id of the running thread. -/
structure Setup where
  addrSpaces : List (Int32 × Int32)
  pes : List (List UInt32)
  id : UInt32

structure Runtime where
  traceBool : Option Bool
  stallCount : Option Int32
  isOpen : UInt32 → Bool
  file : UInt32 → List Item

namespace Runtime

def init : Runtime := ⟨none, none, fun _ => false, fun _ => []⟩

def isLogOpen (r : Runtime) : Bool := r.traceBool = some true

/-- `stall_counts[thread_id]`: a missing entry counts as 0. -/
def stalls (r : Runtime) : Int32 := r.stallCount.getD 0

def setStalls (r : Runtime) (n : Int32) : Runtime := { r with stallCount := some n }

/-- The branch all stall functions take while the log is closed. -/
def forget (r : Runtime) : Runtime := if r.stallCount.isSome then r.setStalls 0 else r

def registerEntry (r : Runtime) (id : UInt32) (e : Item) : Except TraceFault Runtime := do
  require (r.isOpen id = true) .outOfRange
  pure { r with file := Function.update r.file id (r.file id ++ [e]) }

def addStalls (r : Runtime) (n : Int32) : Except TraceFault Runtime := do
  let sum := r.stalls.toInt + n.toInt
  require (-2 ^ 31 ≤ sum ∧ sum < 2 ^ 31) .overflow
  pure (r.setStalls (Int32.ofInt sum))

end Runtime

section Functions

variable (cfg : Setup)

/-- The chain of `if (check_is_...)` that the generator prints, one for each PE type. -/
def forPes (body : Runtime → Except TraceFault Runtime) :
    List (List UInt32) → Runtime → Except TraceFault Runtime
  | [], r => .ok r
  | ids :: pes, r => do
    let r ← if cfg.id ∈ ids then body r else pure r
    forPes body pes r

def writeStall (cycles : Int32) (deps : List Ptr) (r : Runtime) : Except TraceFault Runtime := do
  let r ← r.registerEntry cfg.id (.stall cycles.toUInt32 deps)
  pure (r.setStalls 0)

def emitStall (r : Runtime) : Except TraceFault Runtime :=
  if r.isLogOpen then
    let r := r.setStalls r.stalls
    if r.stalls > 0 then forPes cfg (writeStall cfg r.stalls []) cfg.pes r else .ok r
  else .ok r.forget

/-- The dependencies passed to a traced call, without repetitions. -/
def collectDeps (numDeps : Int32) (dep1 dep2 dep3 : Ptr) : List Ptr :=
  (if numDeps > 0 then [dep1] else []) ++
  (if numDeps > 1 ∧ dep2 ≠ dep1 then [dep2] else []) ++
  (if numDeps > 2 ∧ dep3 ≠ dep2 ∧ dep3 ≠ dep1 then [dep3] else [])

def emitStallWithDeps (numStalls numDeps : Int32) (dep1 dep2 dep3 : Ptr) (r : Runtime) :
    Except TraceFault Runtime :=
  if r.isLogOpen then
    let r := r.setStalls r.stalls
    if numStalls > 0 then
      forPes cfg (writeStall cfg numStalls (collectDeps numDeps dep1 dep2 dep3)) cfg.pes r
    else .ok r
  else .ok r.forget

def incrementStalls (numStalls numDeps : Int32) (dep1 dep2 dep3 : Ptr) (r : Runtime) :
    Except TraceFault Runtime :=
  if numDeps > 0 then
    if r.isLogOpen then do
      let r ← emitStall cfg r
      emitStallWithDeps cfg numStalls numDeps dep1 dep2 dep3 r
    else .ok r
  else if r.isLogOpen then r.addStalls numStalls
  else .ok r.forget

/-- `emit_load` and `emit_store` flush the pending stalls before their own entry. -/
def emitAccess (ptr : Ptr) (e : Item) (r : Runtime) : Except TraceFault Runtime :=
  if r.isLogOpen && shouldTranslate cfg.addrSpaces ptr then
    forPes cfg (fun r => do
      let r ← emitStall cfg r
      r.registerEntry cfg.id e) cfg.pes r
  else .ok r

def emitLoad (ptr : Ptr) (pc numDeps : Int32) (dep1 dep2 dep3 : Ptr) :
    Runtime → Except TraceFault Runtime :=
  emitAccess cfg ptr (.load ptr (collectDeps numDeps dep1 dep2 dep3) pc)

def emitStore (ptr value : Ptr) (pc numDeps : Int32) (dep1 dep2 dep3 : Ptr) :
    Runtime → Except TraceFault Runtime :=
  emitAccess cfg ptr (.store ptr value (collectDeps numDeps dep1 dep2 dep3) pc)

/-- The tracing function of an intrinsic. It does not look at the pending stalls. -/
def traceIntrinsic (f : Func) (args : List Arg) (r : Runtime) : Except TraceFault Runtime :=
  if r.isLogOpen then do
    let r ← r.registerEntry cfg.id (.intrinsic f args)
    let r ← (List.replicate f.loadPenalty (Item.penalty "LDB" args)).foldlM
      (fun r e => r.registerEntry cfg.id e) r
    (List.replicate f.storePenalty (Item.penalty "STB" args)).foldlM
      (fun r e => r.registerEntry cfg.id e) r
  else .ok r

def openTraceLog (tid : UInt32) (r : Runtime) : Runtime :=
  { traceBool := some true
    stallCount := some 0
    isOpen := Function.update r.isOpen tid true
    file := Function.update r.file tid [] }

def closeTraceLog (tid : UInt32) (r : Runtime) : Except TraceFault Runtime := do
  let r := { r with traceBool := r.traceBool.map fun _ => false }
  let r ← r.registerEntry tid .eof
  pure { r with isOpen := Function.update r.isOpen tid false }

end Functions

/-- The calls the application and the instrumented code make while the log is open. -/
inductive Call
  | incrementStalls (numStalls numDeps : Int32) (dep1 dep2 dep3 : Ptr)
  | emitStall
  | emitStallWithDeps (numStalls numDeps : Int32) (dep1 dep2 dep3 : Ptr)
  | emitLoad (ptr : Ptr) (pc numDeps : Int32) (dep1 dep2 dep3 : Ptr)
  | emitStore (ptr value : Ptr) (pc numDeps : Int32) (dep1 dep2 dep3 : Ptr)
  | intrinsic (f : Func) (args : List Arg)
  deriving DecidableEq

def call (cfg : Setup) (r : Runtime) : Call → Except TraceFault Runtime
  | .incrementStalls n k d₁ d₂ d₃ => incrementStalls cfg n k d₁ d₂ d₃ r
  | .emitStall => emitStall cfg r
  | .emitStallWithDeps n k d₁ d₂ d₃ => emitStallWithDeps cfg n k d₁ d₂ d₃ r
  | .emitLoad p pc k d₁ d₂ d₃ => emitLoad cfg p pc k d₁ d₂ d₃ r
  | .emitStore p v pc k d₁ d₂ d₃ => emitStore cfg p v pc k d₁ d₂ d₃ r
  | .intrinsic f args => traceIntrinsic cfg f args r

end HetSim.Tracer
