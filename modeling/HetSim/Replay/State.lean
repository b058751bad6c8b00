import HetSim.Library.Numerals

/-!
# State of the trace replay engines

One record for each `TRE` object, the static maps the engines share, and the side of the memory
port that holds accepted packets. Engines are named by their `id`, as the configuration script
numbers them. Time is left out: which scheduled event fires next is a choice of the run, so a
result holds for every clock and latency. Statistics and debug output are never read by the
replay, and are left out.
-/

namespace HetSim.Replay

open Function

abbrev Addr := UInt64
abbrev TREId := UInt32

/-- `INVALID_PADDR = -1`, the answer of `blkingAccAddrInFlight` for "none". -/
def invalidPaddr : Addr := UInt64.ofInt (-1)

inductive TRECmd
  | ld | st | stall
  deriving DecidableEq, Repr

inductive MemCmd
  | readReq | writeReq
  deriving DecidableEq, Repr

/-- A request packet. `blking` is not part of the packet the port sees: it
records whether the trace entry was marked blocking. -/
structure Packet where
  cmd : MemCmd
  paddr : Addr
  uncacheable : Bool
  pc : Option Addr
  blking : Bool
  deriving DecidableEq, Repr

/-- The explicit primitives, each with an event of its own. -/
inductive Prim
  | initMutex | lockMutex | unlockMutex
  | initBarrier | waitAtBarrier
  | sleep | wake
  | push | pop
  | dumpStats | resetStats | dumpResetStats
  deriving DecidableEq, Repr

inductive Event
  | tick | noRequest | noResponse
  | prim (p : Prim)
  deriving DecidableEq, Repr

structure BlockedPkt where
  addr : Addr
  cmd : TRECmd
  data : UInt32
  uncacheable : Bool
  blking : Bool
  deps : Finset Addr
  deriving DecidableEq

/-- One engine. `trace` is the trace file as tokens and `traceFh` the tokens not read yet.
`inFlight` is the memory system's part: the packets it accepted and has not answered. -/
structure TRE where
  id : TREId
  maxNumOutstandingAddrs : ℕ
  trace : List String
  traceFh : List String
  lastTokEntryPos : List String
  scheduled : Event → Bool
  retryPkt : Option Packet
  outstandingAddrs : List (Addr × Bool)
  blockedPkt : BlockedPkt
  blocked : Bool
  paddr : Addr
  data : UInt32
  inFlight : List Packet

structure TREMutex where
  owner : Option TREId
  waiting : List TREId
  deriving DecidableEq

structure TREBarrier where
  count : UInt32
  arrived : List TREId
  deriving DecidableEq

structure TREQueue where
  q : List ℤ
  size : ℕ
  waitingToPush : Option TREId
  waitingToPop : Option TREId
  deriving DecidableEq

/-- What happened, in order, recorded so that statements can speak about whole runs. The packet
lists of `sent` and `stalled` are the requests outstanding just before. -/
inductive Obs
  | ticked (i : TREId)
  | sent (i : TREId) (pkt : Packet) (out : List Packet)
  | stalled (i : TREId) (count : UInt32) (out : List Packet)
  | completed (i : TREId) (pkt : Packet)
  | mutexInit (i : TREId) (a : Addr)
  | lockRetry (i : TREId) (a : Addr)
  | lockGranted (i : TREId) (a : Addr)
  | lockQueued (i : TREId) (a : Addr)
  | unlocked (i : TREId) (a : Addr) (next : Option TREId)
  | barrierInit (i : TREId) (a : Addr) (count : UInt32)
  | barrierRetry (i : TREId) (a : Addr)
  | arrived (i : TREId) (a : Addr)
  | released (a : Addr) (batch : List TREId)
  | pushWait (i sink : TREId)
  | pushed (i sink : TREId) (woken : Option TREId)
  | popWait (i source : TREId)
  | popped (i source : TREId) (woken : Option TREId)
  | slept (i : TREId)
  | woke (i : TREId) (data : UInt32) (target : TREId)
  | stats (i : TREId) (p : Prim)
  | halted (i : TREId)
  | exitSimLoop (i : TREId)
  deriving DecidableEq

/-- The ways a run ends early: asserts, `fatal`, `panic`, `exit` and uncaught exceptions.
`notQueued` marks an event of a run that the event queue or the memory system does not hold. -/
inductive Fault
  | notQueued
  | alreadyScheduled (e : Event)
  | notScheduled (e : Event)
  | number (e : Numerals.NumError)
  | invalidToken (word : String)
  | tickRetryPkt
  | accessDepsEmpty
  | accessParen
  | stallParen
  | stallDepsEmpty
  | stallDepsNonempty
  | badCmd
  | tooManyOutstanding
  | eraseNotFound
  | unsolicited
  | accessFailed
  | retryNull
  | noRequest
  | noResponse
  | tooManyIdle
  | paddrZero
  | dataZero
  | mutexReinit
  | mutexMissing
  | doubleLock
  | notOwner
  | barrierReinit
  | allTREsIndex
  | alreadyAwake
  | queueMissing
  deriving DecidableEq

/-- The simulation: every engine, the static members of class `TRE`, and the
history. -/
structure World where
  tre : TREId → TRE
  allTREs : List TREId
  testerAllocator : ℕ
  numIdleTREs : ℕ
  atomic : Bool
  mutexMap : Addr → Option TREMutex
  barrierMap : Addr → Option TREBarrier
  queues : TREId × TREId → Option TREQueue
  log : List Obs

/-- The answers the environment gives while one event is handled: whether the
port accepts a packet, whether a response is an error, and `rand()`. -/
structure Env where
  accepts : Bool := true
  isError : Bool := false
  rand : ℕ := 0

namespace TRE

def setFlag (s : TRE) (e : Event) (b : Bool) : TRE :=
  { s with scheduled := update s.scheduled e b }

/-- The packets created by the engine and not completed yet. -/
def outstanding (s : TRE) : List Packet := s.inFlight ++ s.retryPkt.toList

@[simp] theorem setFlag_scheduled (s : TRE) (e : Event) (b : Bool) :
    (s.setFlag e b).scheduled = update s.scheduled e b := rfl

@[simp] theorem setFlag_setFlag (s : TRE) (e : Event) (b c : Bool) :
    (s.setFlag e b).setFlag e c = s.setFlag e c := by simp [setFlag]

theorem setFlag_of_eq {s : TRE} {e : Event} {b : Bool} (h : s.scheduled e = b) :
    s.setFlag e b = s := by
  subst h
  simp [setFlag]

theorem setFlag_comm (s : TRE) {e e' : Event} (h : e ≠ e') (b c : Bool) :
    (s.setFlag e b).setFlag e' c = (s.setFlag e' c).setFlag e b := by
  simp [setFlag, update_comm h]

end TRE

namespace World

def set (w : World) (i : TREId) (s : TRE) : World := { w with tre := update w.tre i s }

def emit (w : World) (o : Obs) : World := { w with log := w.log ++ [o] }

def setMutex (w : World) (a : Addr) (m : TREMutex) : World :=
  { w with mutexMap := update w.mutexMap a (some m) }

def setBarrier (w : World) (a : Addr) (b : TREBarrier) : World :=
  { w with barrierMap := update w.barrierMap a (some b) }

def setQueue (w : World) (k : TREId × TREId) (q : TREQueue) : World :=
  { w with queues := update w.queues k (some q) }

/-- `schedule(e, when)`, which asserts that the event is not scheduled. -/
def schedule (w : World) (i : TREId) (e : Event) : Except Fault World :=
  if (w.tre i).scheduled e then .error (.alreadyScheduled e)
  else .ok (w.set i ((w.tre i).setFlag e true))

/-- `if (c) schedule(e, when)`. -/
def scheduleIf (w : World) (c : Prop) [Decidable c] (i : TREId) (e : Event) : Except Fault World :=
  if c then w.schedule i e else .ok w

/-- `reschedule(e, when)` without `always`, which asserts that it is. -/
def reschedule (w : World) (i : TREId) (e : Event) : Except Fault World :=
  if (w.tre i).scheduled e then .ok w else .error (.notScheduled e)

section Fields

variable (w : World) (i j : TREId) (s t : TRE) (o : Obs) (a : Addr) (m : TREMutex)
  (b : TREBarrier) (k : TREId × TREId) (q : TREQueue)

@[simp] theorem set_tre : (w.set i s).tre = update w.tre i s := rfl
@[simp] theorem set_allTREs : (w.set i s).allTREs = w.allTREs := rfl
@[simp] theorem set_atomic : (w.set i s).atomic = w.atomic := rfl
@[simp] theorem set_mutexMap : (w.set i s).mutexMap = w.mutexMap := rfl
@[simp] theorem set_barrierMap : (w.set i s).barrierMap = w.barrierMap := rfl
@[simp] theorem set_queues : (w.set i s).queues = w.queues := rfl
@[simp] theorem set_log : (w.set i s).log = w.log := rfl

@[simp] theorem emit_tre : (w.emit o).tre = w.tre := rfl
@[simp] theorem emit_allTREs : (w.emit o).allTREs = w.allTREs := rfl
@[simp] theorem emit_atomic : (w.emit o).atomic = w.atomic := rfl
@[simp] theorem emit_mutexMap : (w.emit o).mutexMap = w.mutexMap := rfl
@[simp] theorem emit_barrierMap : (w.emit o).barrierMap = w.barrierMap := rfl
@[simp] theorem emit_queues : (w.emit o).queues = w.queues := rfl
@[simp] theorem emit_log : (w.emit o).log = w.log ++ [o] := rfl

@[simp] theorem setMutex_tre : (w.setMutex a m).tre = w.tre := rfl
@[simp] theorem setMutex_mutexMap :
    (w.setMutex a m).mutexMap = update w.mutexMap a (some m) := rfl
@[simp] theorem setMutex_barrierMap : (w.setMutex a m).barrierMap = w.barrierMap := rfl
@[simp] theorem setMutex_queues : (w.setMutex a m).queues = w.queues := rfl
@[simp] theorem setMutex_log : (w.setMutex a m).log = w.log := rfl
@[simp] theorem setMutex_allTREs : (w.setMutex a m).allTREs = w.allTREs := rfl

@[simp] theorem setBarrier_tre : (w.setBarrier a b).tre = w.tre := rfl
@[simp] theorem setBarrier_mutexMap : (w.setBarrier a b).mutexMap = w.mutexMap := rfl
@[simp] theorem setBarrier_barrierMap :
    (w.setBarrier a b).barrierMap = update w.barrierMap a (some b) := rfl
@[simp] theorem setBarrier_queues : (w.setBarrier a b).queues = w.queues := rfl
@[simp] theorem setBarrier_log : (w.setBarrier a b).log = w.log := rfl
@[simp] theorem setBarrier_allTREs : (w.setBarrier a b).allTREs = w.allTREs := rfl

@[simp] theorem setQueue_tre : (w.setQueue k q).tre = w.tre := rfl
@[simp] theorem setQueue_mutexMap : (w.setQueue k q).mutexMap = w.mutexMap := rfl
@[simp] theorem setQueue_barrierMap : (w.setQueue k q).barrierMap = w.barrierMap := rfl
@[simp] theorem setQueue_queues :
    (w.setQueue k q).queues = update w.queues k (some q) := rfl
@[simp] theorem setQueue_log : (w.setQueue k q).log = w.log := rfl
@[simp] theorem setQueue_allTREs : (w.setQueue k q).allTREs = w.allTREs := rfl

-- Normal form of an updated world: the engines outermost, one update for each.
@[simp] theorem set_set : (w.set i s).set i t = w.set i t := by simp [set]
@[simp] theorem set_emit : (w.set i s).emit o = (w.emit o).set i s := rfl
@[simp] theorem set_setMutex : (w.set i s).setMutex a m = (w.setMutex a m).set i s := rfl
@[simp] theorem set_setBarrier : (w.set i s).setBarrier a b = (w.setBarrier a b).set i s := rfl
@[simp] theorem set_setQueue : (w.set i s).setQueue k q = (w.setQueue k q).set i s := rfl

end Fields

@[simp] theorem schedule_eq_ok {w w' : World} {i : TREId} {e : Event} :
    w.schedule i e = .ok w' ↔
      (w.tre i).scheduled e = false ∧ w' = w.set i ((w.tre i).setFlag e true) := by
  unfold schedule
  cases (w.tre i).scheduled e <;> simp [eq_comm]

@[simp] theorem schedule_eq_error {w : World} {i : TREId} {e : Event} {f : Fault} :
    w.schedule i e = .error f ↔ (w.tre i).scheduled e = true ∧ f = .alreadyScheduled e := by
  unfold schedule
  cases (w.tre i).scheduled e <;> simp [eq_comm]

theorem scheduleIf_eq_ok {w w' : World} {c : Prop} [Decidable c] {i : TREId} {e : Event} :
    w.scheduleIf c i e = .ok w' ↔ (c → (w.tre i).scheduled e = false) ∧
      w' = if c then w.set i ((w.tre i).setFlag e true) else w := by
  by_cases hc : c
  · simp [scheduleIf, hc]
  · simp [scheduleIf, hc, eq_comm (a := w)]

theorem scheduleIf_eq_error {w : World} {c : Prop} [Decidable c] {i : TREId} {e : Event}
    {f : Fault} : w.scheduleIf c i e = .error f ↔
      c ∧ (w.tre i).scheduled e = true ∧ f = .alreadyScheduled e := by
  by_cases hc : c <;> simp [scheduleIf, hc]

@[simp] theorem reschedule_eq_ok {w w' : World} {i : TREId} {e : Event} :
    w.reschedule i e = .ok w' ↔ (w.tre i).scheduled e = true ∧ w' = w := by
  unfold reschedule
  cases (w.tre i).scheduled e <;> simp [eq_comm]

@[simp] theorem reschedule_eq_error {w : World} {i : TREId} {e : Event} {f : Fault} :
    w.reschedule i e = .error f ↔ (w.tre i).scheduled e = false ∧ f = .notScheduled e := by
  unfold reschedule
  cases (w.tre i).scheduled e <;> simp [eq_comm]

end World

end HetSim.Replay
