import HetSim.Library.Runs
import HetSim.Library.Chain
import HetSim.Library.Stacks

/-!
# The event queue

A list of bins, one for each tick and priority, linked through the topmost event of each; a bin
is a stack linked through `nextInBin`. There is one queue and no parallel mode. A loop over more
links than there are events never ends, which is the fault `diverges`.
-/

namespace HetSim.EventQueue
open Checked Function

universe u
variable {E : Type u}

inductive Fault
  | inPast -- assert(when >= getCurTick())
  | scheduled -- assert(!event->scheduled())
  | notScheduled -- assert(event->scheduled())
  | emptyQueue -- serviceOne() without a head
  | notFound -- "event not found!"
  | diverges
  deriving DecidableEq

structure Links (E : Type u) where
  head : Option E
  nextBin : E → Option E
  nextInBin : E → Option E

/-- `recent` is the history: the events that are scheduled, the one that was scheduled or
rescheduled last in front. -/
structure State (E : Type u) extends Links E where
  when : E → ℕ
  priority : E → ℤ
  scheduled : E → Bool
  squashed : E → Bool
  curTick : ℕ
  recent : List E

def State.init (priority : E → ℤ) : State E where
  head := none
  nextBin _ := none
  nextInBin _ := none
  when _ := 0
  priority := priority
  scheduled _ := false
  squashed _ := false
  curTick := 0
  recent := []

def lt (s : State E) (l r : E) : Bool :=
  s.when l < s.when r || (s.when l = s.when r && s.priority l < s.priority r)

def le (s : State E) (l r : E) : Bool :=
  s.when l < s.when r || (s.when l = s.when r && s.priority l ≤ s.priority r)

def eq (s : State E) (l r : E) : Bool :=
  s.when l = s.when r && s.priority l = s.priority r

/-- The loop of `insert` and `remove`: the last bin before the event's, and the next. -/
def walk (s : State E) (event : E) : ℕ → E → Option E → Except Fault (E × Option E)
  | 0, _, _ => .error .diverges
  | _ + 1, prev, none => .ok (prev, none)
  | n + 1, prev, some curr =>
    if lt s curr event then walk s event n curr (s.nextBin curr) else .ok (prev, some curr)

/-- The loop of `removeItem`: the event on top of the one that is looked for. -/
def find (s : State E) [DecidableEq E] (event : E) : ℕ → E → Option E → Except Fault E
  | 0, _, _ => .error .diverges
  | _ + 1, _, none => .error .notFound
  | n + 1, curr, some next =>
    if event = next then .ok curr else find s event n next (s.nextInBin next)

variable [DecidableEq E]

def insertBefore (s : State E) (event : E) (curr : Option E) : Links E :=
  match curr with
  | none => { s.toLinks with
      nextBin := update s.nextBin event none
      nextInBin := update s.nextInBin event none }
  | some curr =>
    if lt s event curr then { s.toLinks with
      nextBin := update s.nextBin event (some curr)
      nextInBin := update s.nextInBin event none }
    else { s.toLinks with
      nextBin := update s.nextBin event (s.nextBin curr)
      nextInBin := update s.nextInBin event (some curr) }

variable [Fintype E]

def insert (s : State E) (event : E) : Except Fault (Links E) :=
  match s.head with
  | none => .ok { insertBefore s event none with head := some event }
  | some head =>
    if le s event head then .ok { insertBefore s event (some head) with head := some event }
    else do
      let (prev, curr) ← walk s event (Fintype.card E + 1) head (s.nextBin head)
      let links := insertBefore s event curr
      return { links with nextBin := update links.nextBin prev (some event) }

def removeItem (s : State E) (event top : E) : Except Fault (Links E × Option E) :=
  if event = top then
    match s.nextInBin top with
    | none => .ok (s.toLinks, s.nextBin top)
    | some next =>
      .ok ({ s.toLinks with nextBin := update s.nextBin next (s.nextBin top) }, some next)
  else do
    let curr ← find s event (Fintype.card E + 1) top (s.nextInBin top)
    return ({ s.toLinks with nextInBin := update s.nextInBin curr (s.nextInBin event) },
      some top)

def remove (s : State E) (event : E) : Except Fault (Links E) :=
  match s.head with
  | none => .error .notFound
  | some head =>
    if eq s head event then do
      let (links, top) ← removeItem s event head
      return { links with head := top }
    else do
      let (prev, curr) ← walk s event (Fintype.card E + 1) head (s.nextBin head)
      let curr ← demand curr .notFound
      require (eq s curr event) .notFound
      let (links, top) ← removeItem s event curr
      return { links with nextBin := update links.nextBin prev top }

def setWhen (s : State E) (event : E) (when : ℕ) : State E :=
  { s with when := update s.when event when }

def schedule (s : State E) (event : E) (when : ℕ) : Except Fault (State E) := do
  require (s.curTick ≤ when) .inPast
  require (!s.scheduled event) .scheduled
  let s := setWhen s event when
  let links ← insert s event
  return { s with
    toLinks := links
    scheduled := update s.scheduled event true
    recent := event :: s.recent }

def deschedule (s : State E) (event : E) : Except Fault (State E) := do
  require (s.scheduled event) .notScheduled
  let links ← remove s event
  return { s with
    toLinks := links
    squashed := update s.squashed event false
    scheduled := update s.scheduled event false
    recent := s.recent.erase event }

def reschedule (s : State E) (event : E) (when : ℕ) (always : Bool) : Except Fault (State E) := do
  require (s.curTick ≤ when) .inPast
  require (always ∨ s.scheduled event) .notScheduled
  let links ← (if s.scheduled event then remove s event else pure s.toLinks)
  let s := setWhen { s with toLinks := links } event when
  let links ← insert s event
  return { s with
    toLinks := links
    squashed := update s.squashed event false
    scheduled := update s.scheduled event true
    recent := event :: s.recent.erase event }

def popHead (s : State E) (event : E) : Links E :=
  match s.nextInBin event with
  | some next =>
    { s.toLinks with head := some next, nextBin := update s.nextBin next (s.nextBin event) }
  | none => { s.toLinks with head := s.nextBin event }

/-- The calls that `process()` makes follow as calls of their own. -/
def serviceOne (s : State E) : Except Fault (State E × E) := do
  let event ← demand s.head .emptyQueue
  return ({ s with
    toLinks := popHead s event
    scheduled := update s.scheduled event false
    squashed := update s.squashed event false
    curTick := if s.squashed event then s.curTick else s.when event
    recent := s.recent.erase event }, event)

inductive Call (E : Type u)
  | schedule (event : E) (when : ℕ)
  | deschedule (event : E)
  | reschedule (event : E) (when : ℕ) (always : Bool)
  | serviceOne
  | squash (event : E)

def step (s : State E) : Call E → Except Fault (State E)
  | .schedule event when => schedule s event when
  | .deschedule event => deschedule s event
  | .reschedule event when always => reschedule s event when always
  | .serviceOne => do
    let (s, _) ← serviceOne s
    return s
  | .squash event => .ok { s with squashed := update s.squashed event true }

end HetSim.EventQueue
