import HetSim.Replay.Primitives

/-!
# The tick and the memory port

`tick` resumes the access parked in `blockedPkt` or reads the next entry, and hands accesses to
the memory port, which calls `completeRequest` and `recvRetry` back.
-/

namespace HetSim.Replay
open Checked

/-- The search loop over `outstandingAddrs`: whether the address was found, and
the vector with the first match erased when `erase` is set. -/
def addrInFlight (paddr : Addr) (erase : Bool) :
    List (Addr × Bool) → Bool × List (Addr × Bool)
  | [] => (false, [])
  | e :: es =>
    if e.1 = paddr then (true, if erase then es else e :: es)
    else ((addrInFlight paddr erase es).1, e :: (addrInFlight paddr erase es).2)

namespace TRE

def inFlightAddr (s : TRE) (paddr : Addr) : Bool := (addrInFlight paddr false s.outstandingAddrs).1

/-- The address of the first entry that carries the blocking bit. -/
def blkingAccAddrInFlight (s : TRE) : Addr :=
  match s.outstandingAddrs.find? (·.2) with
  | some e => e.1
  | none => invalidPaddr

def waitFor (s : TRE) (dep : Addr) : TRE :=
  { s with
    blocked := true
    blockedPkt := { s.blockedPkt with deps := insert dep s.blockedPkt.deps } }

/-- One turn of the dependency loop. -/
def noteDep (s : TRE) (dep : Addr) : TRE := if s.inFlightAddr dep then s.waitFor dep else s

/-- Wait for the blocking access in flight, if there is one; the source asserts
that no other dependency was recorded before. -/
def noteBlking (s : TRE) (f : Fault) : Except Fault TRE :=
  if s.blkingAccAddrInFlight = invalidPaddr then .ok s
  else do
    require (s.blockedPkt.deps = ∅) f
    pure (s.waitFor s.blkingAccAddrInFlight)

end TRE

/-- The local variables of `tick` that describe the access being made. -/
structure Req where
  cmd : TRECmd
  uncacheable : Bool
  blking : Bool
  pc : Addr
  deriving DecidableEq

namespace TRE

/-- The engine after its dependencies returned, and the access it then makes.
The program counter of a parked access is not kept. -/
def unblock (s : TRE) : TRE :=
  { s with
    blocked := false
    blockedPkt := { s.blockedPkt with deps := ∅ }
    paddr := s.blockedPkt.addr
    data := s.blockedPkt.data }

def blockedReq (s : TRE) : Req :=
  ⟨s.blockedPkt.cmd, s.blockedPkt.uncacheable, s.blockedPkt.blking, UInt64.ofInt (-1)⟩

end TRE

/-- The LD/ST branch. The queue and blocking checks come between the address and
the dependency list. -/
def tickAccess (s : TRE) (word : String) (ts : List String) : Except Fault (TRE × Req) := do
  let head ← readAccessHead ts
  let s := { s with paddr := head.2.1 }
  let s := if s.outstandingAddrs.length ≥ s.maxNumOutstandingAddrs then { s with blocked := true }
    else s
  let s ← s.noteBlking .accessDepsEmpty
  let deps ← readDepList .accessParen head.2.2
  let s := { deps.1.foldl TRE.noteDep s with traceFh := deps.2 }
  let r : Req := ⟨accessCmd word, isUncacheable word, isBlking word, head.1⟩
  if s.blocked then
    pure ({ s with blockedPkt := { s.blockedPkt with
      addr := s.paddr, cmd := r.cmd, uncacheable := r.uncacheable, blking := r.blking } }, r)
  else pure (s, r)

/-- The STALL branch. Here the blocking check comes after the dependency list. -/
def tickStall (s : TRE) (word : String) (ts : List String) : Except Fault (TRE × Req) := do
  let count ← number (Numerals.stol 10 (readNextToken ts).1)
  let s := { s with data := UInt32.ofInt count }
  let deps ← readDepList .stallParen (readNextToken ts).2
  let s := { deps.1.foldl TRE.noteDep s with traceFh := deps.2 }
  let s ← s.noteBlking .stallDepsEmpty
  let r : Req := ⟨.stall, false, word = "STALLB", UInt64.ofInt (-1)⟩
  if s.blocked then
    require (s.blockedPkt.deps ≠ ∅) .stallDepsNonempty
    pure ({ s with blockedPkt := { s.blockedPkt with
      cmd := .stall, data := s.data, blking := r.blking } }, r)
  else pure (s, r)

/-- A response for a packet of the engine. The erase asserts that the address is
found; `fatal_if` tests it again. -/
def completeRequest (w : World) (i : TREId) (env : Env) (pkt : Packet) : Except Fault World := do
  let r := addrInFlight pkt.paddr true (w.tre i).outstandingAddrs
  require (r.1 = true) .eraseNotFound
  require (r.1 = true) .unsolicited
  let w := w.set i { w.tre i with outstandingAddrs := r.2 }
  require (env.isError = false) .accessFailed
  let w := w.emit (.completed i pkt)
  let w ← w.scheduleIf ((w.tre i).scheduled .tick = false ∧ (w.tre i).blocked = true) i .tick
  if (w.tre i).outstandingAddrs ≠ [] then w.reschedule i .noResponse
  else pure (w.set i ((w.tre i).setFlag .noResponse false))

/-- The answer is `keep_ticking`. -/
def sendPkt (w : World) (i : TREId) (env : Env) (pkt : Packet) : Except Fault (Bool × World) :=
  if w.atomic then do
    let w ← completeRequest w i env pkt
    pure (true, w)
  else if env.accepts then
    .ok (true, w.set i { w.tre i with inFlight := (w.tre i).inFlight ++ [pkt] })
  else .ok (false, w.set i { w.tre i with retryPkt := some pkt })

def memCmd : TRECmd → Except Fault MemCmd
  | .ld => .ok .readReq
  | .st => .ok .writeReq
  | .stall => .error .badCmd

/-- After a packet was sent, tick again and push the request timeout back. -/
def keepTicking (w : World) (i : TREId) : Bool → Except Fault World
  | true => do
    let w ← w.schedule i .tick
    pure (w.set i ((w.tre i).setFlag .noRequest true))
  | false => .ok w

/-- The end of `tick`: create the request and send it. -/
def issue (w : World) (i : TREId) (env : Env) (r : Req) : Except Fault World := do
  let s := w.tre i
  let w := w.set i { s with outstandingAddrs := s.outstandingAddrs ++ [(s.paddr, r.blking)] }
  require ((w.tre i).outstandingAddrs.length ≤ 100) .tooManyOutstanding
  let cmd ← memCmd r.cmd
  let pc := if r.pc = UInt64.ofInt (-1) then none else some r.pc
  let pkt : Packet := ⟨cmd, s.paddr, r.uncacheable, pc, r.blking⟩
  let r ← sendPkt (w.emit (.sent i pkt s.outstanding)) i env pkt
  let w ← keepTicking r.2 i r.1
  w.scheduleIf ((w.tre i).scheduled .noResponse = false ∧ (w.tre i).outstandingAddrs ≠ []) i
    .noResponse

/-- A STALL only schedules the next tick. -/
def execute (w : World) (i : TREId) (env : Env) (r : Req) : Except Fault World :=
  if r.cmd = .stall then
    (w.emit (.stalled i (w.tre i).data (w.tre i).outstanding)).schedule i .tick
  else issue w i env r

/-- The last engine to halt ends the simulation. -/
def halt (w : World) (i : TREId) : Except Fault World := do
  let w := { w with numIdleTREs := w.numIdleTREs + 1 }
  require (w.numIdleTREs ≤ w.testerAllocator) .tooManyIdle
  let w := w.emit (.halted i)
  pure (if w.numIdleTREs = w.testerAllocator then w.emit (.exitSimLoop i) else w)

/-- A primitive runs at once when its cycle count is zero. -/
def dispatch (w : World) (i : TREId) (env : Env) (p : Prim) (cycles : UInt32) :
    Except Fault World :=
  if cycles = 0 then runPrim w i env p else w.schedule i (.prim p)

def tickPrim (w : World) (i : TREId) (env : Env) (p : Prim) (ts : List String) :
    Except Fault World := do
  let s := w.tre i
  let ops ← readOperands p ts
  let cycles ← readCycles ops.2.2
  let s := { s with
    paddr := ops.1.getD s.paddr
    data := ops.2.1.getD s.data
    traceFh := cycles.2 }
  dispatch (w.set i s) i env p cycles.1

/-- The `blocked` branch of `tick`. -/
def tickBlocked (w : World) (i : TREId) (env : Env) : Except Fault World :=
  let s := w.tre i
  if ∃ dep ∈ s.blockedPkt.deps, s.inFlightAddr dep then .ok w
  else execute (w.set i s.unblock) i env s.blockedReq

/-- An access or a stall is parked when it is blocked and executed otherwise. -/
def finishEntry (w : World) (i : TREId) (env : Env) (sr : TRE × Req) : Except Fault World :=
  if sr.1.blocked then .ok (w.set i sr.1) else execute (w.set i sr.1) i env sr.2

/-- The other branch: read and carry out the next entry. -/
def tickNext (w : World) (i : TREId) (env : Env) : Except Fault World :=
  let s := { w.tre i with lastTokEntryPos := (w.tre i).traceFh }
  let word := (readNextToken s.traceFh).1
  let ts := (readNextToken s.traceFh).2
  if word = "EOF" then halt (w.set i { s with traceFh := ts }) i
  else if isAccess word then do
    let sr ← tickAccess s word ts
    finishEntry w i env sr
  else if isStall word then do
    let sr ← tickStall s word ts
    finishEntry w i env sr
  else
    match primOf word with
    | some p => tickPrim (w.set i s) i env p ts
    | none => .error (.invalidToken word)

def tick (w : World) (i : TREId) (env : Env) : Except Fault World := do
  require ((w.tre i).retryPkt = none) .tickRetryPkt
  if (w.tre i).blocked then tickBlocked w i env else tickNext w i env

def recvRetry (w : World) (i : TREId) (env : Env) : Except Fault World := do
  let s := w.tre i
  let pkt ← demand s.retryPkt .retryNull
  if env.accepts then
    let w := w.set i { s with retryPkt := none, inFlight := s.inFlight ++ [pkt] }
    let w ← w.scheduleIf (s.blocked = false) i .tick
    pure (w.set i ((w.tre i).setFlag .noRequest true))
  else pure w

end HetSim.Replay
