import HetSim.Library.Channel
import HetSim.Replay.Step

/-!
# What one event can do

Every handler is cut into moves: small steps that each change one engine, or one shared object
with the engines it names. A ghost location says who holds the right to let an engine tick again:
an event of its own, the memory system, a mutex, a barrier, a queue slot, or the running handler.

`EngineMove` is the part of a move that concerns one engine. `step_moves` decomposes every
fault-free step; all invariants of the replay are proved move by move.
-/

namespace HetSim.Replay
open Checked Function
open Channels (Side)

inductive Loc
  | absent | halted
  | tick | prim (p : Prim) | retry | blocked
  | mutex (a : Addr) | barrier (a : Addr)
  | queue (side : Side) (other : TREId)
  | asleep
  | awake | holding (p : Prim) | ready (r : Req)
  deriving DecidableEq

def Loc.transient : Loc → Bool
  | .awake | .holding _ | .ready _ => true
  | _ => false

inductive Effect
  | access (pkt : Packet) (out : List Packet)
  | stall (count : UInt32) (out : List Packet)
  | prim (p : Prim) (paddr : Option Addr) (data : Option UInt32)

def Obs.by? : Obs → Option (TREId × Effect)
  | .sent i pkt out => some (i, .access pkt out)
  | .stalled i n out => some (i, .stall n out)
  | .mutexInit i a => some (i, .prim .initMutex (some a) none)
  | .lockGranted i a => some (i, .prim .lockMutex (some a) none)
  | .lockQueued i a => some (i, .prim .lockMutex (some a) none)
  | .unlocked i a _ => some (i, .prim .unlockMutex (some a) none)
  | .barrierInit i a n => some (i, .prim .initBarrier (some a) (some n))
  | .arrived i a => some (i, .prim .waitAtBarrier (some a) none)
  | .pushed i sink _ => some (i, .prim .push none (some sink))
  | .popped i source _ => some (i, .prim .pop none (some source))
  | .slept i => some (i, .prim .sleep none none)
  | .woke i data _ => some (i, .prim .wake none (some data))
  | .stats i p => some (i, .prim p none none)
  | _ => none

def Obs.effect (i : TREId) (o : Obs) : Option Effect :=
  match o.by? with
  | some (j, e) => if j = i then some e else none
  | none => none

def effects (i : TREId) (log : List Obs) : List Effect := log.filterMap (Obs.effect i)

@[simp] theorem effects_append (i : TREId) (l l' : List Obs) :
    effects i (l ++ l') = effects i l ++ effects i l' := List.filterMap_append

namespace TRE

def operands (s : TRE) : Prim → Option Addr × Option UInt32
  | .initMutex | .lockMutex | .unlockMutex | .waitAtBarrier => (some s.paddr, none)
  | .initBarrier => (some s.paddr, some s.data)
  | .wake | .push | .pop => (none, some s.data)
  | .sleep | .dumpStats | .resetStats | .dumpResetStats => (none, none)

def primEffect (s : TRE) (p : Prim) : Effect := .prim p (s.operands p).1 (s.operands p).2

def waits (s : TRE) (deps : List Addr) : Finset Addr :=
  (deps.filter s.inFlightAddr).toFinset ∪
    (if s.blkingAccAddrInFlight = invalidPaddr then s.blockedPkt.deps
      else insert s.blkingAccAddrInFlight s.blockedPkt.deps)

def full (s : TRE) : Bool := s.outstandingAddrs.length ≥ s.maxNumOutstandingAddrs

def hazard (s : TRE) (deps : List Addr) : Bool :=
  s.blkingAccAddrInFlight ≠ invalidPaddr || deps.any s.inFlightAddr

def packet (s : TRE) (r : Req) (cmd : MemCmd) : Packet :=
  ⟨cmd, s.paddr, r.uncacheable, if r.pc = UInt64.ofInt (-1) then none else some r.pc, r.blking⟩

def advance (s : TRE) (rest : List String) : TRE :=
  { s with lastTokEntryPos := s.traceFh, traceFh := rest }

def rewound (s : TRE) : TRE := { s with traceFh := s.lastTokEntryPos }

def ticking (s : TRE) : TRE := s.setFlag .tick true

def sent (s : TRE) (r : Req) : TRE :=
  { s with
    outstandingAddrs := s.outstandingAddrs ++ [(s.paddr, r.blking)] }.setFlag .noResponse true

def received (s : TRE) (pkt : Packet) : TRE :=
  let l := (addrInFlight pkt.paddr true s.outstandingAddrs).2
  { s with outstandingAddrs := l }.setFlag .noResponse (l ≠ [])

end TRE

inductive OwnMove : Loc → TRE → Option Effect → Loc → TRE → Prop
  | firePrim {ℓ s} (p : Prim) (h : s.scheduled (.prim p) = true) :
      OwnMove ℓ s none (.holding p) (s.setFlag (.prim p) false)
  | stayBlocked {s} (hb : s.blocked = true)
      (hd : ∃ dep ∈ s.blockedPkt.deps, s.inFlightAddr dep = true) :
      OwnMove .awake s none .blocked s
  | unblock {s} (hb : s.blocked = true)
      (hd : ∀ dep ∈ s.blockedPkt.deps, s.inFlightAddr dep = false) :
      OwnMove .awake s none (.ready s.blockedReq) s.unblock
  | parkAccess {s cmd unc blk pc a deps rest} (hb : s.blocked = false)
      (he : readEntry s.traceFh = .ok (.access cmd unc blk pc a deps, rest))
      (hz : s.full = true ∨ s.hazard deps = true) :
      OwnMove .awake s none .blocked { s.advance rest with
        paddr := a, blocked := true,
        blockedPkt := ⟨a, cmd, s.blockedPkt.data, unc, blk, s.waits deps⟩ }
  | readyAccess {s cmd unc blk pc a deps rest} (hb : s.blocked = false)
      (he : readEntry s.traceFh = .ok (.access cmd unc blk pc a deps, rest))
      (hf : s.full = false) (hz : s.hazard deps = false) :
      OwnMove .awake s none (.ready ⟨cmd, unc, blk, pc⟩) { s.advance rest with paddr := a }
  | parkStall {s blk n deps rest} (hb : s.blocked = false)
      (he : readEntry s.traceFh = .ok (.stall blk n deps, rest)) (hz : s.hazard deps = true) :
      OwnMove .awake s none .blocked { s.advance rest with
        data := n, blocked := true,
        blockedPkt := ⟨s.blockedPkt.addr, .stall, n, s.blockedPkt.uncacheable, blk, s.waits deps⟩ }
  | readyStall {s blk n deps rest} (hb : s.blocked = false)
      (he : readEntry s.traceFh = .ok (.stall blk n deps, rest)) (hz : s.hazard deps = false) :
      OwnMove .awake s none (.ready ⟨.stall, false, blk, UInt64.ofInt (-1)⟩)
        { s.advance rest with data := n }
  | readPrim {s p pa da c rest} (hb : s.blocked = false)
      (he : readEntry s.traceFh = .ok (.prim p pa da c, rest)) :
      OwnMove .awake s none (.holding p)
        { s.advance rest with paddr := pa.getD s.paddr, data := da.getD s.data }
  | delay {s} (p : Prim) (h : s.scheduled (.prim p) = false) :
      OwnMove (.holding p) s none (.prim p) (s.setFlag (.prim p) true)
  | startStall {s r} (hc : r.cmd = .stall) (h : s.scheduled .tick = false) :
      OwnMove (.ready r) s (some (.stall s.data s.outstanding)) .tick s.ticking
  | sendAccepted {s r cmd} (hc : memCmd r.cmd = .ok cmd) (h : s.scheduled .tick = false) :
      OwnMove (.ready r) s (some (.access (s.packet r cmd) s.outstanding)) .tick
        ({ s.sent r with
          inFlight := s.inFlight ++ [s.packet r cmd] }.ticking.setFlag .noRequest true)
  | sendRefused {s r cmd} (hc : memCmd r.cmd = .ok cmd) :
      OwnMove (.ready r) s (some (.access (s.packet r cmd) s.outstanding)) .retry
        { s.sent r with retryPkt := some (s.packet r cmd) }
  | sendAtomic {s r cmd} (hc : memCmd r.cmd = .ok cmd) (h : s.scheduled .tick = false) :
      OwnMove (.ready r) s (some (.access (s.packet r cmd) s.outstanding)) .tick
        (((s.sent r).received (s.packet r cmd)).ticking.setFlag .noRequest true)
  | stats {s} (p : Prim) (hp : p ≠ .sleep) (h : s.scheduled .tick = false) :
      OwnMove (.holding p) s (some (s.primEffect p)) .tick s.ticking
  | rewind {s p} (hp : p = .lockMutex ∨ p = .waitAtBarrier) (h : s.scheduled .tick = false) :
      OwnMove (.holding p) s none .tick s.rewound.ticking
  | response {ℓ s k pkt} (hk : s.inFlight[k]? = some pkt)
      (hf : (addrInFlight pkt.paddr true s.outstandingAddrs).1 = true)
      (hn : (addrInFlight pkt.paddr true s.outstandingAddrs).2 ≠ [] →
        s.scheduled .noResponse = true) (ht : ¬(s.scheduled .tick = false ∧ s.blocked = true)) :
      OwnMove ℓ s none ℓ { s.received pkt with inFlight := s.inFlight.eraseIdx k }
  | responseTick {ℓ s k pkt} (hk : s.inFlight[k]? = some pkt)
      (hf : (addrInFlight pkt.paddr true s.outstandingAddrs).1 = true)
      (hn : (addrInFlight pkt.paddr true s.outstandingAddrs).2 ≠ [] →
        s.scheduled .noResponse = true) (ht : s.scheduled .tick = false) (hb : s.blocked = true) :
      OwnMove ℓ s none .tick { s.received pkt with inFlight := s.inFlight.eraseIdx k }.ticking
  | retried {ℓ s pkt} (hp : s.retryPkt = some pkt) (h : s.blocked = false)
      (ht : s.scheduled .tick = false) :
      OwnMove ℓ s none .tick
        ({ s with
          retryPkt := none, inFlight := s.inFlight ++ [pkt] }.ticking.setFlag .noRequest true)
  | retriedBlocked {ℓ s pkt} (hp : s.retryPkt = some pkt) (h : s.blocked = true) :
      OwnMove ℓ s none .blocked
        ({ s with retryPkt := none, inFlight := s.inFlight ++ [pkt] }.setFlag .noRequest true)

def queuePrim : Side → Prim
  | .push => .push
  | .pop => .pop

def queueKey (i other : TREId) : Side → TREId × TREId
  | .push => (i, other)
  | .pop => (other, i)

namespace TREQueue

variable (q : TREQueue)

def slot : Side → Option TREId
  | .push => q.waitingToPush
  | .pop => q.waitingToPop

def Drained : Side → Prop
  | .push => q.q.length = q.size
  | .pop => q.q.length = 0

def park (i : TREId) : Side → TREQueue
  | .push => { q with waitingToPush := some i }
  | .pop => { q with waitingToPop := some i }

def serve : Side → TREQueue
  | .push => { q with q := q.q ++ [0], waitingToPop := none }
  | .pop => { q with q := q.q.tail, waitingToPush := none }

variable {q} {side : Side} {i : TREId}

theorem park_slot : (q.park i side).slot = update q.slot side (some i) := by
  funext side'
  cases side <;> cases side' <;> rfl

theorem serve_slot : (q.serve side).slot = update q.slot side.other none := by
  funext side'
  cases side <;> cases side' <;> rfl

end TREQueue

def Obs.queued (i other : TREId) : Side → Obs
  | .push => .pushWait i other
  | .pop => .popWait i other

def Obs.served (i other : TREId) (woken : Option TREId) : Side → Obs
  | .push => .pushed i other woken
  | .pop => .popped i other woken

inductive EngineMove : Loc → TRE → Option Effect → Loc → TRE → Prop
  | own {ℓ s e ℓ' s'} (h : OwnMove ℓ s e ℓ' s') : EngineMove ℓ s e ℓ' s'
  | fireTick {ℓ s} (h : s.scheduled .tick = true) :
      EngineMove ℓ s none .awake (s.setFlag .tick false)
  | halt {s ts} (hb : s.blocked = false) (h : readNextToken s.traceFh = ("EOF", ts)) :
      EngineMove .awake s none .halted (s.advance ts)
  | finish {s} (p : Prim) (h : s.scheduled .tick = false) (clear : TRE → TRE)
      (hclear : clear = clearPaddr ∨ clear = clearData ∨ clear = fun s =>
        clearData (clearPaddr s)) :
      EngineMove (.holding p) s (some (s.primEffect p)) .tick (clear s.ticking)
  | queueUp {s} (a : Addr) :
      EngineMove (.holding .lockMutex) s (some (s.primEffect .lockMutex)) (.mutex a) (clearPaddr s)
  | arrive {s} (a : Addr) :
      EngineMove (.holding .waitAtBarrier) s (some (s.primEffect .waitAtBarrier)) (.barrier a)
        (clearPaddr s)
  | sleep {s} : EngineMove (.holding .sleep) s (some (s.primEffect .sleep)) .asleep s
  | queueWait {s} (side : Side) :
      EngineMove (.holding (queuePrim side)) s none (.queue side s.data) s
  | resume {ℓ s} (hℓ : (∃ a, ℓ = .mutex a) ∨ (∃ a, ℓ = .barrier a) ∨ ℓ = .asleep)
      (h : s.scheduled .tick = false) : EngineMove ℓ s none .tick s.ticking
  | requeue {s side other} (h : s.scheduled (.prim (queuePrim side)) = false) :
      EngineMove (.queue side other) s none (.prim (queuePrim side))
        (s.setFlag (.prim (queuePrim side)) true)

def Obs.isPrivate (i : TREId) : Obs → Bool
  | .sent j _ _ | .stalled j _ _ | .completed j _ | .lockRetry j _ | .barrierRetry j _
  | .stats j _ => j = i
  | _ => false

def wakeSlot (w : World) (slot : Option TREId) (p : Prim) : World :=
  match slot with
  | none => w
  | some t => w.set t ((w.tre t).setFlag (.prim p) true)

def wakeLoc (loc : TREId → Loc) (slot : Option TREId) (p : Prim) : TREId → Loc :=
  match slot with
  | none => loc
  | some t => update loc t (.prim p)

def World.setAll (w : World) (batch : List TREId) : World :=
  { w with tre := fun j => if j ∈ batch then (w.tre j).ticking else w.tre j }

inductive Move (w : World) (loc : TREId → Loc) : World → (TREId → Loc) → Prop
  | engine (i : TREId) {e ℓ s} (os : List Obs) (h : OwnMove (loc i) (w.tre i) e ℓ s)
      (hos : ∀ o ∈ os, o.isPrivate i = true) (he : effects i os = e.toList) :
      Move w loc ({ w with log := w.log ++ os }.set i s) (update loc i ℓ)
  | fireTick (i : TREId) (h : (w.tre i).scheduled .tick = true) :
      Move w loc ((w.emit (.ticked i)).set i ((w.tre i).setFlag .tick false))
        (update loc i .awake)
  | halt (i : TREId) {ts} (n : ℕ) (exit : List Obs) (hx : exit = [] ∨ exit = [.exitSimLoop i])
      (hℓ : loc i = .awake) (hb : (w.tre i).blocked = false)
      (h : readNextToken (w.tre i).traceFh = ("EOF", ts)) :
      Move w loc ({ w with numIdleTREs := n, log := w.log ++ Obs.halted i :: exit }.set i
        ((w.tre i).advance ts)) (update loc i .halted)
  | initMutex (i : TREId) (hℓ : loc i = .holding .initMutex) (ha : (w.tre i).paddr ≠ 0)
      (hm : w.mutexMap (w.tre i).paddr = none) (ht : (w.tre i).scheduled .tick = false) :
      Move w loc
        (((w.setMutex (w.tre i).paddr ⟨none, []⟩).emit (.mutexInit i (w.tre i).paddr)).set i
        (clearPaddr (w.tre i).ticking)) (update loc i .tick)
  | lockGrant (i : TREId) {m} (hℓ : loc i = .holding .lockMutex)
      (hm : w.mutexMap (w.tre i).paddr = some m) (ho : m.owner = none)
      (ht : (w.tre i).scheduled .tick = false) :
      Move w loc (((w.setMutex (w.tre i).paddr { m with owner := some i }).emit
        (.lockGranted i (w.tre i).paddr)).set i (clearPaddr (w.tre i).ticking))
        (update loc i .tick)
  | lockQueue (i : TREId) {m o} (hℓ : loc i = .holding .lockMutex)
      (hm : w.mutexMap (w.tre i).paddr = some m) (ho : m.owner = some o) (hne : o ≠ i) :
      Move w loc (((w.setMutex (w.tre i).paddr { m with waiting := m.waiting ++ [i] }).emit
        (.lockQueued i (w.tre i).paddr)).set i (clearPaddr (w.tre i)))
        (update loc i (.mutex (w.tre i).paddr))
  | unlockFree (i : TREId) {m} (hℓ : loc i = .holding .unlockMutex)
      (hm : w.mutexMap (w.tre i).paddr = some m) (ho : m.owner = some i) (hw : m.waiting = [])
      (ht : (w.tre i).scheduled .tick = false) :
      Move w loc (((w.setMutex (w.tre i).paddr ⟨none, []⟩).emit
        (.unlocked i (w.tre i).paddr none)).set i (clearPaddr (w.tre i).ticking))
        (update loc i .tick)
  | unlockHandoff (i : TREId) {m t} (idx : ℕ) (hℓ : loc i = .holding .unlockMutex)
      (hm : w.mutexMap (w.tre i).paddr = some m) (ho : m.owner = some i)
      (hidx : m.waiting[idx]? = some t) (hne : i ≠ t) (ht : (w.tre i).scheduled .tick = false)
      (htt : (w.tre t).scheduled .tick = false) :
      Move w loc ((((w.setMutex (w.tre i).paddr ⟨some t, m.waiting.eraseIdx idx⟩).emit
        (.unlocked i (w.tre i).paddr (some t))).set t (w.tre t).ticking).set i
        (clearPaddr (w.tre i).ticking)) (update (update loc t .tick) i .tick)
  | initBarrier (i : TREId) (hℓ : loc i = .holding .initBarrier) (hn : (w.tre i).data ≠ 0)
      (hb : w.barrierMap (w.tre i).paddr = none) (ht : (w.tre i).scheduled .tick = false) :
      Move w loc (((w.setBarrier (w.tre i).paddr ⟨(w.tre i).data, []⟩).emit
        (.barrierInit i (w.tre i).paddr (w.tre i).data)).set i
        (clearData (clearPaddr (w.tre i).ticking))) (update loc i .tick)
  | arrive (i : TREId) {b} (hℓ : loc i = .holding .waitAtBarrier)
      (hb : w.barrierMap (w.tre i).paddr = some b) (hn : b.arrived.length + 1 ≠ b.count.toNat) :
      Move w loc (((w.setBarrier (w.tre i).paddr { b with arrived := b.arrived ++ [i] }).emit
        (.arrived i (w.tre i).paddr)).set i (clearPaddr (w.tre i)))
        (update loc i (.barrier (w.tre i).paddr))
  | releaseBatch (i : TREId) {b} (hℓ : loc i = .holding .waitAtBarrier)
      (hb : w.barrierMap (w.tre i).paddr = some b) (hn : b.arrived.length + 1 = b.count.toNat)
      (hi : i ∉ b.arrived)
      (ht : ∀ j ∈ b.arrived ++ [i], (w.tre j).scheduled .tick = false) :
      Move w loc (((((w.emit (.arrived i (w.tre i).paddr)).emit
        (.released (w.tre i).paddr (b.arrived ++ [i]))).setBarrier (w.tre i).paddr
        { b with arrived := [] }).setAll (b.arrived ++ [i])).set i (clearPaddr (w.tre i).ticking))
        (fun j => if j ∈ b.arrived ++ [i] then .tick else loc j)
  | sleep (i : TREId) (hℓ : loc i = .holding .sleep) :
      Move w loc (w.emit (.slept i)) (update loc i .asleep)
  | wake (i : TREId) {t} (hℓ : loc i = .holding .wake) (hd : (w.tre i).data ≠ 0)
      (hx : w.allTREs[(w.tre i).data.toNat]? = some t) (hne : i ≠ t)
      (ht : (w.tre i).scheduled .tick = false) (htt : (w.tre t).scheduled .tick = false) :
      Move w loc (((w.emit (.woke i (w.tre i).data t)).set t (w.tre t).ticking).set i
        (clearData (w.tre i).ticking)) (update (update loc t .tick) i .tick)
  | queueWait (i : TREId) (side : Side) {q} (hℓ : loc i = .holding (queuePrim side))
      (hq : w.queues (queueKey i (w.tre i).data side) = some q) (hz : q.Drained side) :
      Move w loc ((w.setQueue (queueKey i (w.tre i).data side) (q.park i side)).emit
        (.queued i (w.tre i).data side)) (update loc i (.queue side (w.tre i).data))
  | queueDone (i : TREId) (side : Side) {q} (hℓ : loc i = .holding (queuePrim side))
      (hq : w.queues (queueKey i (w.tre i).data side) = some q) (hz : ¬ q.Drained side)
      (hs : ∀ t ∈ q.slot side.other, (w.tre t).scheduled (.prim (queuePrim side.other)) = false)
      (ht : (w.tre i).scheduled .tick = false) :
      Move w loc ((((wakeSlot w (q.slot side.other) (queuePrim side.other)).setQueue
        (queueKey i (w.tre i).data side) (q.serve side)).emit
        (.served i (w.tre i).data (q.slot side.other) side)).set i
        (clearData ((wakeSlot w (q.slot side.other) (queuePrim side.other)).tre i).ticking))
        (update (wakeLoc loc (q.slot side.other) (queuePrim side.other)) i .tick)

def Moves : World × (TREId → Loc) → World × (TREId → Loc) → Prop :=
  Relation.ReflTransGen fun p q => Move p.1 p.2 q.1 q.2

/-- A handler of engine `i` led from `w` to `w'` and is over: the engine is at a
location outside its handlers, and no other engine entered one. -/
def Handled (i : TREId) (w : World) (loc : TREId → Loc) (w' : World) : Prop :=
  ∃ loc', Moves (w, loc) (w', loc') ∧
    ∀ j, (loc' j).transient = true → j ≠ i ∧ (loc j).transient = true

end HetSim.Replay
