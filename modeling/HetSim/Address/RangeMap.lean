import HetSim.Address.Range
import HetSim.Library.Runs

/-!
# Maps of address ranges

The tree is the list of its nodes in order, and an iterator is the identity of a node: a node
that is inserted again is a different one. `end()` is `none`. Reading through an iterator whose
node is gone stops with a fault.
-/

namespace HetSim.Address
open Checked

structure Node (V : Type) where
  id : ℕ
  range : AddrRange
  value : V
  deriving DecidableEq

structure AddrRangeMap (V : Type) where
  tree : List (Node V)
  cache : List ℕ
  /-- The identity of the next node. -/
  fresh : ℕ
  deriving DecidableEq

variable {V : Type}

def AddrRangeMap.empty : AddrRangeMap V := ⟨[], [], 0⟩

/-- The entries in front of `upper_bound(r)`, and those from it on. -/
def before (r : AddrRange) (tree : List (Node V)) : List (Node V) :=
  tree.takeWhile fun n => !r.lt n.range

def after (r : AddrRange) (tree : List (Node V)) : List (Node V) :=
  tree.dropWhile fun n => !r.lt n.range

section Find

variable (cond : AddrRange → Except Fault Bool)

def findCached (tree : List (Node V)) : List ℕ → Except Fault (Option ℕ)
  | [] => return none
  | it :: cache => do
    let node ← demand (tree.find? (·.id = it)) .danglingIterator
    if ← cond node.range then return some it else findCached tree cache

/-- The loop over the predecessors, the nearest first. -/
def walk : List (Node V) → Except Fault (Option ℕ)
  | [] => return none
  | [i] => do
    if ← cond i.range then return some i.id else return none
  | i :: next :: rest => do
    if ← cond i.range then return some i.id
    else if next.range.mergesWith i.range then walk (next :: rest)
    else return none

def findTree (r : AddrRange) (tree : List (Node V)) : Except Fault (Option ℕ) :=
  match after r tree with
  | next :: _ => do
    if ← cond next.range then return some next.id else walk cond (before r tree).reverse
  | [] => walk cond (before r tree).reverse

end Find

section Cached

variable (maxCacheSize : ℕ)

def addNewEntryToCache (it : ℕ) (cache : List ℕ) : List ℕ :=
  if maxCacheSize ≠ 0 then
    if maxCacheSize ≤ cache.length then
      -- The last element is overwritten, and moved to the front.
      if 1 < maxCacheSize then it :: cache.dropLast else cache.dropLast ++ [it]
    else
      it :: cache
  else
    cache

def AddrRangeMap.find (r : AddrRange) (cond : AddrRange → Except Fault Bool) (m : AddrRangeMap V) :
    Except Fault (AddrRangeMap V × Option ℕ) := do
  match ← findCached cond m.tree m.cache with
  | some it => return ({ m with cache := it :: m.cache.erase it }, some it)
  | none =>
    match ← findTree cond r m.tree with
    | some it => return ({ m with cache := addNewEntryToCache maxCacheSize it m.cache }, some it)
    | none => return (m, none)

def AddrRangeMap.contains (a : Addr) (m : AddrRangeMap V) :
    Except Fault (AddrRangeMap V × Option ℕ) :=
  let r := AddrRange.ofSize a 1
  m.find maxCacheSize r r.isSubset

/-- `tree.insert`: an entry with an equivalent key is kept. -/
def AddrRangeMap.insertTree (r : AddrRange) (d : V) (m : AddrRangeMap V) : AddrRangeMap V × ℕ :=
  match m.tree.find? fun n => !r.lt n.range && !n.range.lt r with
  | some n => (m, n.id)
  | none =>
    ({ m with
        tree := before r m.tree ++ ⟨m.fresh, r, d⟩ :: after r m.tree
        fresh := m.fresh + 1 }, m.fresh)

def AddrRangeMap.insert (r : AddrRange) (d : V) (m : AddrRangeMap V) :
    Except Fault (AddrRangeMap V × Option ℕ) := do
  let (m, found) ← m.find maxCacheSize r r.intersects
  match found with
  | some _ => return (m, none)
  | none =>
    let (m, it) := m.insertTree r d
    return (m, some it)

end Cached

def AddrRangeMap.erase (p : ℕ) (m : AddrRangeMap V) : Except Fault (AddrRangeMap V) := do
  require (p ∈ m.tree.map Node.id) .danglingIterator
  return { m with tree := m.tree.filter (·.id ≠ p), cache := m.cache.filter (· ≠ p) }

/-- The entries from `p` up to `q`. -/
def span (p q : Option ℕ) (tree : List (Node V)) : List (Node V) :=
  (tree.dropWhile fun n => some n.id ≠ p).takeWhile fun n => some n.id ≠ q

def isIterator (p : Option ℕ) (tree : List (Node V)) : Prop :=
  ∀ it ∈ p, it ∈ tree.map Node.id

instance (p : Option ℕ) (tree : List (Node V)) : Decidable (isIterator p tree) :=
  inferInstanceAs (Decidable (∀ it ∈ p, it ∈ tree.map Node.id))

def AddrRangeMap.eraseRange (p q : Option ℕ) (m : AddrRangeMap V) :
    Except Fault (AddrRangeMap V) := do
  let rest := m.tree.dropWhile fun n => some n.id ≠ p
  require (isIterator p m.tree ∧ isIterator q rest) .danglingIterator
  return { m with
    tree := (m.tree.takeWhile fun n => some n.id ≠ p) ++ rest.dropWhile fun n => some n.id ≠ q
    -- The loop runs once for each entry of the span, and always removes `p`.
    cache := (span p q m.tree).foldl (fun cache _ => cache.filter (some · ≠ p)) m.cache }

def AddrRangeMap.clear (m : AddrRangeMap V) : AddrRangeMap V := { m with tree := [], cache := [] }

inductive Op (V : Type)
  | insert (r : AddrRange) (d : V)
  | erase (p : ℕ)
  | eraseRange (p q : Option ℕ)
  | clear
  | contains (a : Addr)
  deriving DecidableEq

structure Session (V : Type) where
  map : AddrRangeMap V
  answers : List (Option ℕ)
  deriving DecidableEq

def Session.start : Session V := ⟨.empty, []⟩

def answered (s : Session V) (x : AddrRangeMap V × Option ℕ) : Session V :=
  ⟨x.1, s.answers ++ [x.2]⟩

def step (maxCacheSize : ℕ) (s : Session V) : Op V → Except Fault (Session V)
  | .insert r d => do return answered s (← s.map.insert maxCacheSize r d)
  | .erase p => do return { s with map := ← s.map.erase p }
  | .eraseRange p q => do return { s with map := ← s.map.eraseRange p q }
  | .clear => return { s with map := s.map.clear }
  | .contains a => do return answered s (← s.map.contains maxCacheSize a)

end HetSim.Address
