import HetSim.Replay.Tick
import HetSim.Library.Runs

/-!
# Runs of the simulation

The constructor puts an engine with a trace into the system and schedules its first tick. A run
is any sequence of firing events, responses and retries: `fire` takes an event out of the queue,
`recvTimingResp` answers an accepted packet, `recvReqRetry` offers a refused one again.
-/

namespace HetSim.Replay
open Checked

structure Params where
  id : TREId
  queueDepth : ℕ
  maxNumOutstandingAddrs : ℕ
  trace : Option (List String)

structure Config where
  engines : List Params
  atomic : Bool
  connections : List (TREId × TREId)
  distinct : (engines.map Params.id).Nodup

-- `blockedPkt` is not initialised by the constructor; it is written before it is read.
def blankTRE (id : TREId) (max : ℕ) (trace : List String) : TRE where
  id := id
  maxNumOutstandingAddrs := max
  trace := trace
  traceFh := trace
  lastTokEntryPos := trace
  scheduled := fun _ => false
  retryPkt := none
  outstandingAddrs := []
  blockedPkt := ⟨0, .ld, 0, false, false, ∅⟩
  blocked := false
  paddr := 0
  data := 0
  inFlight := []

def emptyWorld (atomic : Bool) : World where
  tre := fun i => blankTRE i 0 []
  allTREs := []
  testerAllocator := 0
  numIdleTREs := 0
  atomic := atomic
  mutexMap := fun _ => none
  barrierMap := fun _ => none
  queues := fun _ => none
  log := []

def initQueues (connections : List (TREId × TREId)) (depth : ℕ) (w : World) : World :=
  { w with queues := fun k => if k ∈ connections then some ⟨[], depth, none, none⟩ else w.queues k }

/-- An engine whose trace file cannot be opened takes no part. -/
def construct (connections : List (TREId × TREId)) (w : World) (p : Params) : World :=
  match p.trace with
  | none => w
  | some trace =>
    let s := blankTRE p.id p.maxNumOutstandingAddrs trace
    let w := { w with allTREs := w.allTREs ++ [p.id] }
    let w := w.set p.id ((s.setFlag .tick true).setFlag .noRequest true)
    let w := if w.testerAllocator = 0 ∧ p.queueDepth ≠ 0
      then initQueues connections p.queueDepth w else w
    { w with testerAllocator := w.testerAllocator + 1 }

/-- Systems of one and of two engines, numbered from zero, without queues. -/
def single (max : ℕ) (trace : List String) : Config where
  engines := [⟨0, 0, max, some trace⟩]
  atomic := false
  connections := []
  distinct := by simp

def pair (max : ℕ) (trace₀ trace₁ : List String) : Config where
  engines := [⟨0, 0, max, some trace₀⟩, ⟨1, 0, max, some trace₁⟩]
  atomic := false
  connections := []
  distinct := by simp

def boot (cfg : Config) : World :=
  cfg.engines.foldl (construct cfg.connections) (emptyWorld cfg.atomic)

inductive Ev
  | fire (i : TREId) (e : Event)
  | recvTimingResp (i : TREId) (k : ℕ)
  | recvReqRetry (i : TREId)
  deriving DecidableEq

def process (w : World) (i : TREId) (env : Env) : Event → Except Fault World
  | .tick => tick (w.emit (.ticked i)) i env
  | .noRequest => .error .noRequest
  | .noResponse => .error .noResponse
  | .prim p => runPrim w i env p

def step (w : World) (x : Ev × Env) : Except Fault World :=
  match x.1 with
  | .fire i e => do
    require ((w.tre i).scheduled e = true) .notQueued
    process (w.set i ((w.tre i).setFlag e false)) i x.2 e
  | .recvTimingResp i k => do
    let pkt ← demand (w.tre i).inFlight[k]? .notQueued
    let s := { w.tre i with inFlight := (w.tre i).inFlight.eraseIdx k }
    completeRequest (w.set i s) i x.2 pkt
  | .recvReqRetry i => recvRetry w i x.2

abbrev Reachable (cfg : Config) (w : World) : Prop := Runs.Reachable step (boot cfg) w

end HetSim.Replay
