import HetSim.Library.Prefixes
import HetSim.Library.Runs

/-!
# The trie

Nodes are in a heap and refer to each other by pointers; the root is the node `0`. A loop that
follows pointers gets a bound on its rounds, and running out of it is a fault. Values are never
null. `entries` is history: what is inserted, under the handles of `insert`.
-/

namespace HetSim.Base
open Checked Prefixes

variable {w : ℕ} {V : Type}

structure Node (w : ℕ) (V : Type) where
  key : BitVec w
  mask : BitVec w
  value : Option V
  parent : Option ℕ
  kids : Bool → Option ℕ

namespace Node

/-- The constructor `Node(_key, _mask, _val)`. -/
def create (key mask : BitVec w) (value : Option V) : Node w V :=
  ⟨key &&& mask, mask, value, none, fun _ => none⟩

def «matches» (x : Node w V) (test : BitVec w) : Bool := test &&& x.mask = x.key

def setKid (x : Node w V) (i : Bool) (kid : Option ℕ) : Node w V :=
  { x with kids := Function.update x.kids i kid }

end Node

structure Entry (w : ℕ) (V : Type) where
  key : BitVec w
  width : ℕ
  value : V
  handle : ℕ

structure Trie (w : ℕ) (V : Type) where
  heap : ℕ → Option (Node w V)
  next : ℕ
  entries : List (Entry w V)

inductive TrieFault
  | badPointer
  | endless
  | valuePresent -- assert(!node->value)
  | endOfInsert
  | noValue -- assert(node->value)
  | removeRoot
  | inconsistent
  deriving DecidableEq

def extendMask (orig : BitVec w) : BitVec w := orig ||| orig >>> 1 ||| 1#w <<< (w - 1)

namespace Trie

def init : Trie w V where
  heap n := if n = 0 then some (.create 0 0 none) else none
  next := 1
  entries := []

variable (t : Trie w V)

def get (n : ℕ) : Except TrieFault (Node w V) := demand (t.heap n) .badPointer

def set (n : ℕ) (x : Node w V) : Trie w V := { t with heap := Function.update t.heap n (some x) }

/-- `new Node`. -/
def alloc (x : Node w V) : Trie w V := { t.set t.next x with next := t.next + 1 }

/-- `delete node`. -/
def delete (n : ℕ) : Trie w V := { t with heap := Function.update t.heap n none }

/-- The node that `goesAfter` moves to. -/
def goesAfter (kid : Option ℕ) (key newMask : BitVec w) : Except TrieFault (Option ℕ) :=
  match kid with
  | none => return none
  | some kid => do
    let x ← t.get kid
    return if x.matches key ∧ x.mask &&& newMask = x.mask then some kid else none

/-- The node that the new one is inserted after. -/
def walkPast (key newMask : BitVec w) : ℕ → ℕ → Except TrieFault ℕ
  | 0, _ => .error .endless
  | rounds + 1, node => do
    let x ← t.get node
    match ← t.goesAfter (x.kids false) key newMask with
    | some kid => walkPast key newMask rounds kid
    | none =>
      match ← t.goesAfter (x.kids true) key newMask with
      | some kid => walkPast key newMask rounds kid
      | none => return node

/-- The mask up to which the key goes with the kid. -/
def walkDown (key newMask kidKey : BitVec w) : ℕ → BitVec w → Except TrieFault (BitVec w)
  | 0, _ => .error .endless
  | rounds + 1, curMask =>
    if key &&& extendMask curMask ≠ kidKey &&& extendMask curMask ∨ curMask = newMask then
      return curMask
    else walkDown key newMask kidKey rounds (extendMask curMask)

/-- A new node between a node and its kid, and a second one if there are bits left. -/
def split (node kid : ℕ) (x y : Node w V) (i : Bool) (key curMask newMask : BitVec w) (val : V) :
    ℕ × Trie w V :=
  let new := t.next
  let n : Node w V :=
    { Node.create key curMask none with
      parent := some node, kids := fun i => if i then none else some kid }
  let t := ((t.alloc n).set kid { y with parent := some new }).set node (x.setKid i (some new))
  if curMask = newMask then (new, t.set new { n with value := some val })
  else
    let leaf := t.next
    let t := t.alloc { Node.create key newMask (some val) with parent := some new }
    (leaf, t.set new (n.setKid true (some leaf)))

/-- One leg of the node: nothing if it is not the right one. -/
def insertBelow (node : ℕ) (x : Node w V) (i : Bool) (key newMask : BitVec w) (val : V) :
    Except TrieFault (Option (ℕ × Trie w V)) :=
  match x.kids i with
  | none =>
    let new := t.next
    let t := t.alloc { Node.create key newMask (some val) with parent := some node }
    return some (new, t.set node (x.setKid i (some new)))
  | some kid => do
    let y ← t.get kid
    let curMask ← walkDown key newMask y.key (w + 1) x.mask
    return if curMask = x.mask then none
      else some (t.split node kid x y i key curMask newMask val)

def insertKids (node : ℕ) (x : Node w V) (key newMask : BitVec w) (val : V) :
    Except TrieFault (ℕ × Trie w V) := do
  match ← t.insertBelow node x false key newMask val with
  | some r => return r
  | none =>
    match ← t.insertBelow node x true key newMask val with
    | some r => return r
    | none => .error .endOfInsert

def insert (key : BitVec w) (width : ℕ) (val : V) : Except TrieFault (ℕ × Trie w V) := do
  let newMask := prefixMask w width
  let key := key &&& newMask
  let node ← t.walkPast key newMask (w + 1) 0
  let x ← t.get node
  if x.mask = newMask then do
    require (x.value.isNone) .valuePresent
    return (node, t.set node { x with value := some val })
  else t.insertKids node x key newMask val

def kidMatches (kid : Option ℕ) (key : BitVec w) : Except TrieFault Bool :=
  match kid with
  | none => return false
  | some kid => do return (← t.get kid).matches key

def lookupFrom (key : BitVec w) : ℕ → Option ℕ → Except TrieFault (Option ℕ)
  | _, none => return none
  | 0, some _ => .error .endless
  | rounds + 1, some node => do
    let x ← t.get node
    if x.value.isSome then return some node
    else if ← t.kidMatches (x.kids false) key then lookupFrom key rounds (x.kids false)
    else if ← t.kidMatches (x.kids true) key then lookupFrom key rounds (x.kids true)
    else return none

def lookupHandle (key : BitVec w) : Except TrieFault (Option ℕ) := t.lookupFrom key (w + 1) (some 0)

def lookup (key : BitVec w) : Except TrieFault (Option V) := do
  match ← t.lookupHandle key with
  | some node => do return (← t.get node).value
  | none => return none

/-- The kid of a removed node goes in its place; a single kid is the first one. -/
def replaceKid (node : ℕ) (kid : Option ℕ) (p : Node w V) : Except TrieFault (Node w V) := do
  let p ←
    (if p.kids false = some node then return p.setKid false kid
    else if p.kids true = some node then return p.setKid true kid
    else .error .inconsistent)
  return if (p.kids true).isSome ∧ (p.kids false).isNone then
    (p.setKid false (p.kids true)).setKid true none else p

/-- The node is taken out between its parent and its kid. -/
def unlink (node : ℕ) (x : Node w V) (parent : ℕ) : Except TrieFault (Trie w V) := do
  let t ←
    (match x.kids false with
    | some kid => do
      let y ← t.get kid
      return t.set kid { y with parent := some parent }
    | none => return t)
  let p ← replaceKid node (x.kids false) (← t.get parent)
  return t.set parent p

def removeNode : ℕ → Trie w V → ℕ → Except TrieFault (Option V × Trie w V)
  | 0, _, _ => .error .endless
  | rounds + 1, t, node => do
    let x ← t.get node
    if (x.kids true).isSome then do
      require (x.value.isSome) .noValue
      return (x.value, t.set node { x with value := none })
    else do
      let parent ← demand x.parent .removeRoot
      let t ← t.unlink node x parent
      let p ← t.get parent
      let t ← (if (p.kids true).isNone ∧ p.value.isNone ∧ p.parent.isSome then do
          return (← removeNode rounds t parent).2
        else return t)
      return (x.value, t.delete node)

end Trie

namespace Entry

def «matches» (e : Entry w V) (key : BitVec w) : Bool := key &&& prefixMask w e.width = e.key

/-- The shortest prefix that matches the key. -/
def shortest (entries : List (Entry w V)) (key : BitVec w) : Option (Entry w V) :=
  (entries.filter (·.matches key)).argmin Entry.width

end Entry

inductive TrieEvent (w : ℕ) (V : Type)
  | insert (key : BitVec w) (width : ℕ) (val : V)
  | removeHandle (handle : ℕ)
  | removeKey (key : BitVec w)

namespace Trie

variable (t : Trie w V)

/-- `remove(Handle)`. -/
def remove (handle : ℕ) : Except TrieFault (Option V × Trie w V) := removeNode (w + 1) t handle

/-- `remove(Key)`. -/
def removeKey (key : BitVec w) : Except TrieFault (Option V × Trie w V) := do
  match ← t.lookupHandle key with
  | some handle => t.remove handle
  | none => return (none, t)

/-- The entries are those of a map from prefixes to values. -/
def step : TrieEvent w V → Except TrieFault (Trie w V)
  | .insert key width val => do
    let (handle, t) ← t.insert key width val
    return { t with entries := ⟨key &&& prefixMask w width, width, val, handle⟩ :: t.entries }
  | .removeHandle handle => do
    let (_, t) ← t.remove handle
    return { t with entries := t.entries.filter fun e => e.handle ≠ handle }
  | .removeKey key => do
    let removed := (Entry.shortest t.entries key).map Entry.handle
    let (_, t) ← t.removeKey key
    return { t with entries := t.entries.filter fun e => some e.handle ≠ removed }

end Trie

end HetSim.Base
