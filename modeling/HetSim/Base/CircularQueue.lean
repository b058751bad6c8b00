import HetSim.Library.Runs

/-!
# The circular queue

A queue in a vector of fixed capacity. The round counts how often the tail has come back to the
start, to tell an iterator behind the end from one before the beginning. Numbers are `uint32_t`.
-/

namespace HetSim.Base
open Checked

universe u
variable {α : Type u}

/-- The value of a `uint32_t`. -/
def u32 (n : ℕ) : ℕ := n % 2 ^ 32

/-- Subtraction of `uint32_t`. -/
def u32Sub (m n : ℕ) : ℕ := u32 (m + 2 ^ 32 - n)

structure CircularQueue (α : Type u) where
  capacity : ℕ
  head : ℕ
  tail : ℕ
  empty : Bool
  round : ℕ
  cells : ℕ → α

structure Iterator where
  idx : ℕ
  round : ℕ
  deriving DecidableEq

inductive QueueFault
  | pastTheEnd -- assert(hIt <= end())
  | emptyQueue -- assert(!_empty)
  deriving DecidableEq

def moduloAdd (op1 op2 size : ℕ) : ℕ := u32 (op1 + op2) % size

/-- `operator<` of the iterators of one queue. -/
def Iterator.lt (it that : Iterator) : Bool :=
  it.round < that.round || (it.round = that.round && it.idx < that.idx)

def Iterator.le (it that : Iterator) : Bool := !that.lt it

namespace CircularQueue

/-- The vector has a cell for each index, with any content. -/
def create (size : ℕ) (cells : ℕ → α) : CircularQueue α := ⟨size, 1, 0, true, 0, cells⟩

variable (q : CircularQueue α)

def increase (v : ℕ) : ℕ := moduloAdd v 1 q.capacity

def decrease (v : ℕ) : ℕ := (if v ≠ 0 then v else q.capacity) - 1

def flush : CircularQueue α := { q with head := 1, round := 0, tail := 0, empty := true }

/-- Test if the index is in the range of valid elements, with the round. -/
def isValidIdx (idx round : ℕ) : Bool :=
  !q.empty &&
    ((round = q.round && idx ≤ q.tail && (q.head ≤ idx || q.tail < q.head)) ||
      (u32 (round + 1) = q.round && q.tail < idx && q.head ≤ idx && q.tail < q.head))

def dereferenceable (it : Iterator) : Bool := q.isValidIdx it.idx it.round

/-- `operator*` -/
def deref (it : Iterator) : α := q.cells it.idx

/-- `operator++` -/
def next (it : Iterator) : Iterator :=
  let idx := q.increase it.idx
  ⟨idx, if idx = 0 then u32 (it.round + 1) else it.round⟩

/-- `operator+=`. The round is computed in 64 bits, the index in 32. -/
def add (it : Iterator) (t : ℕ) : Iterator :=
  ⟨moduloAdd it.idx (u32 t) q.capacity, u32 (it.round + (t + it.idx) / q.capacity)⟩

def front : α := q.cells q.head

def back : α := q.cells q.tail

def size : ℕ :=
  if q.empty then 0
  else if q.head ≤ q.tail then u32 (u32Sub q.tail q.head + 1)
  else u32 (u32Sub q.capacity q.head + q.tail + 1)

def full : Bool :=
  !q.empty && (u32 (q.tail + 1) = q.head || (u32 (q.tail + 1) = q.capacity && q.head = 0))

def end_ : Iterator :=
  let poi := moduloAdd q.tail 1 q.capacity
  ⟨poi, if poi = 0 then u32 (q.round + 1) else q.round⟩

def begin_ : Iterator :=
  if q.empty then q.end_
  else if q.tail < q.head then ⟨q.head, u32Sub q.round 1⟩
  else ⟨q.head, q.round⟩

def pop_front (num_elem : ℕ) : Except QueueFault (CircularQueue α) :=
  if num_elem = 0 then return q
  else do
    let hIt := q.add q.begin_ num_elem
    require (hIt.le q.end_) .pastTheEnd
    return { q with empty := hIt = q.end_, head := hIt.idx }

def pop_back : Except QueueFault (CircularQueue α) := do
  require (!q.empty) .emptyQueue
  return { q with
    empty := q.head = q.tail
    round := if q.tail = 0 then u32Sub q.round 1 else q.round
    tail := q.decrease q.tail }

def advance_tail : CircularQueue α :=
  let tail := q.increase q.tail
  { q with
    tail
    round := if tail = 0 then u32 (q.round + 1) else q.round
    head := if tail = q.head ∧ !q.empty then q.increase q.head else q.head
    empty := false }

def push_back (val : α) : CircularQueue α :=
  let q := q.advance_tail
  { q with cells := Function.update q.cells q.tail val }

/-- The loop of a reader from an iterator to the end, for at most `n` rounds. -/
def readFrom (it : Iterator) : ℕ → List α
  | 0 => []
  | n + 1 => if it = q.end_ then [] else q.deref it :: readFrom (q.next it) n

end CircularQueue

inductive QueueOp (α : Type u)
  | push_back (val : α)
  | advance_tail
  | pop_front (num_elem : ℕ)
  | pop_back
  | flush

def CircularQueue.step (q : CircularQueue α) : QueueOp α → Except QueueFault (CircularQueue α)
  | .push_back val => return q.push_back val
  | .advance_tail => return q.advance_tail
  | .pop_front num_elem => q.pop_front num_elem
  | .pop_back => q.pop_back
  | .flush => return q.flush

end HetSim.Base
