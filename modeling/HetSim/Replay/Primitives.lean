import HetSim.Replay.Trace

/-!
# The explicit primitives

Mutexes, barriers, queues, sleep and wake, and the statistics commands. Each works on the operands
in `paddr` and `data`, at once or from the primitive's own event.
-/

namespace HetSim.Replay
open Checked

/-- The way most primitives end: tick again and clear the operands used. -/
def proceed (w : World) (i : TREId) (clear : TRE → TRE) : Except Fault World := do
  let w ← w.schedule i .tick
  pure (w.set i (clear (w.tre i)))

def clearPaddr (s : TRE) : TRE := { s with paddr := 0 }
def clearData (s : TRE) : TRE := { s with data := 0 }

/-- `trace_fh.seekg(lastTokEntryPos)`, then tick again to retry. -/
def rewind (w : World) (i : TREId) : Except Fault World :=
  (w.set i { w.tre i with traceFh := (w.tre i).lastTokEntryPos }).schedule i .tick

def initMutex (w : World) (i : TREId) : Except Fault World := do
  let a := (w.tre i).paddr
  require (a ≠ 0) .paddrZero
  require (w.mutexMap a = none) .mutexReinit
  proceed ((w.setMutex a ⟨none, []⟩).emit (.mutexInit i a)) i clearPaddr

def lockMutex (w : World) (i : TREId) : Except Fault World := do
  let a := (w.tre i).paddr
  require (a ≠ 0) .paddrZero
  match w.mutexMap a with
  | none => rewind (w.emit (.lockRetry i a)) i
  | some m =>
    match m.owner with
    | none => proceed ((w.setMutex a { m with owner := some i }).emit
        (.lockGranted i a)) i clearPaddr
    | some o =>
      require (o ≠ i) .doubleLock
      let w := (w.setMutex a { m with waiting := m.waiting ++ [i] }).emit (.lockQueued i a)
      pure (w.set i (clearPaddr (w.tre i)))

/-- The next owner is drawn with `rand()` from the waiting engines. -/
def unlockMutex (w : World) (i : TREId) (env : Env) : Except Fault World := do
  let a := (w.tre i).paddr
  require (a ≠ 0) .paddrZero
  let m ← demand (w.mutexMap a) .mutexMissing
  require (m.owner = some i) .notOwner
  match m.waiting[env.rand % m.waiting.length]? with
  | none => proceed ((w.setMutex a ⟨none, []⟩).emit (.unlocked i a none)) i clearPaddr
  | some target =>
    let w ← w.schedule target .tick
    let idx := env.rand % m.waiting.length
    let w := w.setMutex a ⟨some target, m.waiting.eraseIdx idx⟩
    proceed (w.emit (.unlocked i a (some target))) i clearPaddr

def initBarrier (w : World) (i : TREId) : Except Fault World := do
  let a := (w.tre i).paddr
  let n := (w.tre i).data
  require (a ≠ 0) .paddrZero
  require (n ≠ 0) .dataZero
  require (w.barrierMap a = none) .barrierReinit
  proceed ((w.setBarrier a ⟨n, []⟩).emit (.barrierInit i a n)) i (fun s => clearData (clearPaddr s))

/-- `for (auto t : arrived) t->schedule(t->tickEvent, ...)`. -/
def releaseAll (w : World) (batch : List TREId) : Except Fault World :=
  batch.foldlM (fun w t => w.schedule t .tick) w

def waitAtBarrier (w : World) (i : TREId) : Except Fault World := do
  let a := (w.tre i).paddr
  require (a ≠ 0) .paddrZero
  match w.barrierMap a with
  | none => rewind (w.emit (.barrierRetry i a)) i
  | some b =>
    let batch := b.arrived ++ [i]
    let w := w.emit (.arrived i a)
    if batch.length = b.count.toNat then
      let w ← releaseAll w batch
      let w := (w.setBarrier a { b with arrived := [] }).emit (.released a batch)
      pure (w.set i (clearPaddr (w.tre i)))
    else
      let w := w.setBarrier a { b with arrived := batch }
      pure (w.set i (clearPaddr (w.tre i)))

/-- The target is looked up by position among the engines that have a trace. -/
def wake (w : World) (i : TREId) : Except Fault World := do
  let data := (w.tre i).data
  require (data ≠ 0) .dataZero
  let target ← demand w.allTREs[data.toNat]? .allTREsIndex
  require ((w.tre target).scheduled .tick = false) .alreadyAwake
  let w ← w.schedule target .tick
  proceed (w.emit (.woke i data target)) i clearData

def sleep (w : World) (i : TREId) : Except Fault World := .ok (w.emit (.slept i))

/-- Release the engine a queue slot names by scheduling its retry. -/
def release (w : World) (slot : Option TREId) (p : Prim) : Except Fault World :=
  match slot with
  | none => .ok w
  | some t => w.schedule t (.prim p)

def push (w : World) (i : TREId) : Except Fault World := do
  let sink := (w.tre i).data
  let queue ← demand (w.queues (i, sink)) .queueMissing
  if queue.q.length = queue.size then
    pure ((w.setQueue (i, sink) { queue with waitingToPush := some i }).emit (.pushWait i sink))
  else
    let w ← release w queue.waitingToPop .pop
    let w := w.setQueue (i, sink) { queue with q := queue.q ++ [0], waitingToPop := none }
    proceed (w.emit (.pushed i sink queue.waitingToPop)) i clearData

def pop (w : World) (i : TREId) : Except Fault World := do
  let source := (w.tre i).data
  let queue ← demand (w.queues (source, i)) .queueMissing
  if queue.q.length = 0 then
    pure ((w.setQueue (source, i) { queue with waitingToPop := some i }).emit (.popWait i source))
  else
    let w ← release w queue.waitingToPush .push
    let w := w.setQueue (source, i) { queue with q := queue.q.tail, waitingToPush := none }
    proceed (w.emit (.popped i source queue.waitingToPush)) i clearData

/-- `dumpstats`, `resetstats` and `dumpresetstats` differ only in the statistics
event they schedule. -/
def stats (w : World) (i : TREId) (p : Prim) : Except Fault World :=
  (w.emit (.stats i p)).schedule i .tick

def runPrim (w : World) (i : TREId) (env : Env) : Prim → Except Fault World
  | .initMutex => initMutex w i
  | .lockMutex => lockMutex w i
  | .unlockMutex => unlockMutex w i env
  | .initBarrier => initBarrier w i
  | .waitAtBarrier => waitAtBarrier w i
  | .sleep => sleep w i
  | .wake => wake w i
  | .push => push w i
  | .pop => pop w i
  | .dumpStats => stats w i .dumpStats
  | .resetStats => stats w i .resetStats
  | .dumpResetStats => stats w i .dumpResetStats

end HetSim.Replay
