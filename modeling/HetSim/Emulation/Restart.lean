import HetSim.Library.Runs

/-!
# Starting the emulation library again

The global containers are filled by `__init` and by the primitives, and emptied by `__teardown`,
which forgets the counters of the sleeping PEs. Condition variables and mutexes count by their
number. A primitive that waits, ends the process or throws stops with a fault.
-/

namespace HetSim.Emulation.Restart
open Checked Runs

structure Queue where
  size : ℕ
  q : List (BitVec 64) := []
  deriving DecidableEq

structure Library where
  tidToCoreId : Finmap (fun _ : ℕ => ℕ) := ∅
  queues : Finmap (fun _ : ℕ × ℕ => Queue) := ∅
  cvs : ℕ := 0
  mutexes : ℕ := 0
  sleepCntr : List ℤ := []
  /-- The threads in `__sleep`. -/
  waiting : Finset ℕ := ∅

inductive Fault
  | notRegistered | noQueue | outOfRange | waits | notThere
  deriving DecidableEq

inductive Call
  | register (tid coreId : ℕ)
  | push (tid sink : ℕ) (data : BitVec 64)
  | pop (tid source : ℕ)
  | sleep (tid : ℕ)
  | resume (tid : ℕ)
  | wake (peId : ℕ)
  deriving DecidableEq

namespace Library

variable (s : Library)

/-- `insert` of a map keeps an entry that is there. -/
def insertQueue (depth : ℕ) (conn : ℕ × ℕ) : Library :=
  if conn ∈ s.queues then s else { s with queues := s.queues.insert conn ⟨depth, []⟩ }

/-- The connections are those of the generated table. -/
def init (connList : List (ℕ × ℕ)) (numPe wqDepth : ℕ) : Library :=
  let s := { s with
    sleepCntr := s.sleepCntr ++ List.replicate numPe 0
    cvs := s.cvs + numPe
    mutexes := s.mutexes + numPe }
  connList.foldl (insertQueue · (wqDepth % 2 ^ 32)) s

def teardown : Library := { s with cvs := 0, mutexes := 0, queues := ∅, tidToCoreId := ∅ }

def getId (tid : ℕ) : Except Fault ℕ := demand (s.tidToCoreId.lookup tid) .notRegistered

def count (peId : ℕ) (change : ℤ) : Except Fault Library := do
  require (peId < s.mutexes) .outOfRange
  let n ← demand s.sleepCntr[peId]? .outOfRange
  return { s with sleepCntr := s.sleepCntr.set peId (n + change) }

/-- The loop of `__sleep` around the wait is a call of its own. -/
def step : Call → Except Fault Library
  | .register tid coreId =>
    if tid ∈ s.tidToCoreId then return s
    else return { s with tidToCoreId := s.tidToCoreId.insert tid coreId }
  | .push tid sink data => do
    let source ← s.getId tid
    let queue ← demand (s.queues.lookup (source, sink)) .noQueue
    require (queue.q.length ≠ queue.size) .waits
    return { s with queues := s.queues.insert (source, sink) { queue with q := queue.q ++ [data] } }
  | .pop tid source => do
    let sink ← s.getId tid
    let queue ← demand (s.queues.lookup (source, sink)) .noQueue
    require (queue.q ≠ []) .waits
    return { s with queues := s.queues.insert (source, sink) { queue with q := queue.q.tail } }
  | .sleep tid => do
    require (tid ∉ s.waiting) .notThere
    let s' ← s.count (← s.getId tid) 1
    return { s' with waiting := insert tid s.waiting }
  | .resume tid => do
    require (tid ∈ s.waiting) .notThere
    let n ← demand s.sleepCntr[← s.getId tid]? .outOfRange
    require (n ≤ 0) .waits
    return { s with waiting := s.waiting.erase tid }
  | .wake peId => s.count peId (-1)

end Library

open Library

variable {s t : Library} {connList : List (ℕ × ℕ)} {numPe wqDepth : ℕ}

theorem foldl_insertQueue (depth : ℕ) :
    (connList.foldl (insertQueue · depth) s).sleepCntr = s.sleepCntr := by
  induction connList generalizing s with
  | nil => rfl
  | cons conn connList ih =>
    rw [List.foldl_cons, ih, insertQueue]
    split_ifs <;> rfl

theorem init_sleepCntr :
    (s.init connList numPe wqDepth).sleepCntr = s.sleepCntr ++ List.replicate numPe 0 :=
  foldl_insertQueue _

theorem count_length {peId : ℕ} {n : ℤ} (h : s.count peId n = .ok t) :
    t.sleepCntr.length = s.sleepCntr.length := by
  simp only [count, bind_eq_ok] at h
  obtain ⟨⟨⟩, -, m, -, h⟩ := h
  cases h
  exact List.length_set

theorem step_length {c : Call} (h : s.step c = .ok t) :
    t.sleepCntr.length = s.sleepCntr.length := by
  cases c with
  | register tid coreId =>
    rw [step] at h
    split_ifs at h <;> cases h <;> rfl
  | push tid sink data =>
    simp only [step, bind_eq_ok] at h
    obtain ⟨source, -, queue, -, ⟨⟩, -, h⟩ := h
    cases h
    rfl
  | pop tid source =>
    simp only [step, bind_eq_ok] at h
    obtain ⟨sink, -, queue, -, ⟨⟩, -, h⟩ := h
    cases h
    rfl
  | sleep tid =>
    simp only [step, bind_eq_ok] at h
    obtain ⟨⟨⟩, -, coreId, -, s', hcount, h⟩ := h
    cases h
    have hlength := count_length hcount
    exact hlength
  | resume tid =>
    simp only [step, bind_eq_ok] at h
    obtain ⟨⟨⟩, -, coreId, -, n, -, ⟨⟩, -, h⟩ := h
    cases h
    rfl
  | wake peId => exact count_length h

/-- After a run in which all calls have returned, the library starts again as it started
first only if it had no PE. -/
theorem restart_iff {calls : List Call} (n d : ℕ)
    (hrun : run step (init {} connList numPe wqDepth) calls = .ok s) (hdone : s.waiting = ∅) :
    s.teardown.init connList n d = init {} connList n d ↔ numPe = 0 := by
  have hlength : s.sleepCntr.length = numPe := by
    have hkept := run_keeps (P := fun t => t.sleepCntr.length = numPe)
      (fun ht hstep => (step_length hstep).trans ht) (by simp [init_sleepCntr]) hrun
    exact hkept
  refine ⟨fun heq => ?_, fun hzero => ?_⟩
  · have hcounters := congrArg (fun t : Library => t.sleepCntr.length) heq
    simp only [init_sleepCntr, List.length_append, List.length_replicate,
      List.length_nil] at hcounters
    have hkept : s.teardown.sleepCntr.length = numPe := hlength
    omega
  · have hnil : s.sleepCntr = [] := List.length_eq_zero_iff.mp (hlength.trans hzero)
    have hsame : s.teardown = {} := by
      rw [teardown, hnil, hdone]
    rw [hsame]

theorem restart_iff_none : ∃ s : Library,
    run step (init {} [(0, 1)] 0 4) [.register 7 0, .push 7 1 5] = .ok s ∧
    s.teardown.init [(0, 1)] 2 4 = init {} [(0, 1)] 2 4 := by
  have hends : Ends step (init {} [(0, 1)] 0 4) [.register 7 0, .push 7 1 5]
      fun s => s.waiting = ∅ := by
    decide +kernel
  obtain ⟨s, hrun, hdone⟩ := hends
  exact ⟨s, hrun, (restart_iff 2 4 hrun hdone).mpr rfl⟩

theorem restart_keeps_counters : Ends step (init {} [] 2 4) [.wake 0] fun s =>
    s.waiting = ∅ ∧ (s.teardown.init [] 2 4).mutexes = 2 ∧
      (s.teardown.init [] 2 4).sleepCntr = [-1, 0, 0, 0] := by
  decide +kernel

end HetSim.Emulation.Restart
