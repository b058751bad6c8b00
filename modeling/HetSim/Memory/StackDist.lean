import HetSim.Cache.Indexing
import HetSim.Library.Runs

/-!
# The stack distance calculator

Partial sums over the accesses in a binary tree that grows by a layer at each power of two. A
pointer to a node is its layer and its index, which is never used again. Sums and indices are
numbers, as they stay far below `2 ^ 64`. The checks of `verifyStack` are left out.
-/

namespace HetSim.StackDist
open Checked

inductive Fault
  /-- A node that is not in the tree is used. -/
  | noNode
  /-- A shift of the `int` 1 by its width or more has no value. -/
  | undefinedShift
  | endless
  deriving DecidableEq

structure Node where
  sumLeft : ℕ
  sumRight : ℕ
  discardLeft : Bool
  discardRight : Bool
  nodeIndex : ℕ
  parent : Option (ℕ × ℕ)
  isLeftNode : Bool
  isMarked : Bool
  deriving DecidableEq

def Node.new : Node := ⟨0, 0, false, false, 0, none, true, false⟩

abbrev Tree := ℕ → ℕ → Option Node

namespace Tree

def set (t : Tree) (layer index : ℕ) (node : Option Node) : Tree :=
  Function.update t layer (Function.update (t layer) index node)

def get (t : Tree) (ptr : ℕ × ℕ) : Except Fault Node := demand (t ptr.1 ptr.2) .noNode

end Tree

/-- `depth` is `getTreeDepth`, the layer of the root. -/
structure StackDistCalc (Addr : Type) where
  index : ℕ
  depth : ℕ
  tree : Tree
  aiMap : Addr → Option ℕ
  nextIndex : ℕ → ℕ

variable {Addr : Type} [DecidableEq Addr]

def StackDistCalc.new : StackDistCalc Addr where
  index := 0
  depth := 1
  tree := Tree.set (fun _ _ => none) 1 0 (some Node.new)
  aiMap := fun _ => none
  nextIndex := fun layer => if layer = 0 then 0 else 1

def Infinity : ℕ := 2 ^ 64 - 1

section Sums

/-- What `updateSum` makes of a node on its way up. -/
def Node.update (node : Node) (fromLeft : Bool) (sumFromBelow : ℕ) (discardNode : Bool) : Node :=
  { node with
    sumLeft := if fromLeft then sumFromBelow else node.sumLeft
    sumRight := if fromLeft then node.sumRight else sumFromBelow
    discardLeft := node.discardLeft || discardNode && sumFromBelow == 0 && fromLeft
    discardRight := node.discardRight || discardNode && sumFromBelow == 0 && !fromLeft }

/-- The first argument bounds the depth of the recursion. -/
def updateSum : ℕ → Tree → ℕ × ℕ → Bool → ℕ → ℕ → ℕ → Bool → Except Fault (ℕ × Tree)
  | 0, _, _, _, _, _, _, _ => .error .endless
  | n + 1, t, ptr, fromLeft, sumFromBelow, level, stackDist, discardNode => do
    let old ← t.get ptr
    let node := old.update fromLeft sumFromBelow discardNode
    let stackDist := if fromLeft then stackDist + node.sumRight else stackDist
    let delete := node.discardLeft && node.discardRight && discardNode && node.parent.isSome &&
      sumFromBelow == 0
    let t := if delete then
        (t.set ptr.1 ptr.2 none).set (level + 1) node.nodeIndex none
      else t.set ptr.1 ptr.2 (some node)
    match node.parent with
    | some parent =>
      updateSum n t parent node.isLeftNode (node.sumLeft + node.sumRight)
        (level + 1) stackDist delete
    | none => pure (stackDist, t)

/-- The leaf is in the tree, with its new sum. -/
def updateSumsLeavesToRoot (depth : ℕ) (t : Tree) (leaf : ℕ) (isNewLeaf : Bool) :
    Except Fault (ℕ × Tree) := do
  let node ← t.get (0, leaf)
  let parent ← demand node.parent .noNode
  let t := t.set 0 leaf (some { node with sumLeft := if isNewLeaf then 1 else 0 })
  let r ← updateSum (depth + 1) t parent node.isLeftNode (if isNewLeaf then 1 else 0) 0 0
      (!isNewLeaf)
  pure (if isNewLeaf then Infinity else r.1, r.2)

def getSum (t : Tree) : ℕ → ℕ × ℕ → Bool → ℕ → Except Fault ℕ
  | 0, _, _, _ => .error .endless
  | n + 1, ptr, fromLeft, stackDist => do
    let node ← t.get ptr
    let stackDist := if fromLeft then stackDist + node.sumRight else stackDist
    match node.parent with
    | some parent => getSum t n parent node.isLeftNode stackDist
    | none => pure stackDist

def getSumsLeavesToRoot (depth : ℕ) (t : Tree) (leaf : ℕ) : Except Fault ℕ := do
  let node ← t.get (0, leaf)
  let parent ← demand node.parent .noNode
  getSum t (depth + 1) parent node.isLeftNode 0

end Sums

section Growth

/-- A new intermediate node at the end of layer `i`. -/
def addINode (c : StackDistCalc Addr) (i : ℕ) : Except Fault (StackDistCalc Addr) := do
  let parent := (i + 1, c.nextIndex (i + 1) - 1)
  let _ ← c.tree.get parent
  let nodeIndex := c.nextIndex i
  pure { c with
    nextIndex := Function.update c.nextIndex i (nodeIndex + 1)
    tree := c.tree.set i nodeIndex (some { Node.new with
      isLeftNode := nodeIndex % 2 == 0, parent := some parent, nodeIndex := nodeIndex }) }

/-- The loop of `updateTree` after a new root: one node in each layer from `i` down. -/
def addChain : ℕ → StackDistCalc Addr → Except Fault (StackDistCalc Addr)
  | 0, c => pure c
  | i + 1, c => do
    let c ← addINode c (i + 1)
    addChain i c

/-- The loop of `updateTree` without a new root. -/
def addRequired : ℕ → StackDistCalc Addr → Except Fault (StackDistCalc Addr)
  | 0, c => pure c
  | i + 1, c => do
    require (i + 1 < 31) .undefinedShift
    if c.index % 2 ^ (i + 1) = 0 then do
      let c ← addINode c (i + 1)
      addRequired i c
    else addRequired i c

/-- A root one layer up, with the old root as its left child. -/
def addRoot (c : StackDistCalc Addr) : Except Fault (StackDistCalc Addr) := do
  let old ← c.tree.get (c.depth, 0)
  let root := { Node.new with
    sumLeft := old.sumRight + old.sumLeft, discardLeft := old.discardLeft && old.discardRight }
  pure { c with
    depth := c.depth + 1
    nextIndex := Function.update c.nextIndex (c.depth + 1) 1
    tree := (c.tree.set (c.depth + 1) 0 (some root)).set c.depth 0
      (some { old with parent := some (c.depth + 1, 0) }) }

def updateTree (c : StackDistCalc Addr) : Except Fault (StackDistCalc Addr) :=
  if Cache.isPowerOf2 c.index then do
    let c ← addRoot c
    addChain (c.depth - 1) c
  else addRequired (c.depth - 1) c

end Growth

/-- The entry of an address leaves the tree. -/
def removeLeaf (c : StackDistCalc Addr) (rIndex : ℕ) :
    Except Fault ((ℕ × Bool) × StackDistCalc Addr) := do
  let r ← updateSumsLeavesToRoot c.depth c.tree rIndex false
  let leaf ← r.2.get (0, rIndex)
  pure ((r.1, leaf.isMarked), { c with tree := r.2.set 0 rIndex none })

/-- A new leaf at the end of the leaf layer. -/
def addLeaf (c : StackDistCalc Addr) : Except Fault (StackDistCalc Addr) := do
  let c ← (if c.index % 2 = 0 then updateTree c else pure c : Except Fault (StackDistCalc Addr))
  let parent := (1, c.nextIndex 1 - 1)
  let _ ← c.tree.get parent
  let leaf := { Node.new with
    nodeIndex := c.index, isLeftNode := c.index % 2 == 0, parent := some parent }
  let r ← updateSumsLeavesToRoot c.depth (c.tree.set 0 c.index (some leaf)) c.index true
  pure { c with
    tree := r.2
    nextIndex := Function.update c.nextIndex 0 (c.nextIndex 0 + 1)
    index := c.index + 1 }

/-- The first half of `calcStackDistAndUpdate`: an old entry of the address is removed. -/
def removeOld (c : StackDistCalc Addr) (rAddress : Addr) (addNewNode : Bool) :
    Except Fault ((ℕ × Bool) × StackDistCalc Addr) :=
  match c.aiMap rAddress with
  | some rIndex => removeLeaf { c with
      aiMap := Function.update c.aiMap rAddress (if addNewNode then some c.index else none) } rIndex
  | none => pure ((Infinity, false), if addNewNode then
      { c with aiMap := Function.update c.aiMap rAddress (some c.index) } else c)

def calcStackDistAndUpdate (c : StackDistCalc Addr) (rAddress : Addr) (addNewNode : Bool) :
    Except Fault ((ℕ × Bool) × StackDistCalc Addr) := do
  let r ← removeOld c rAddress addNewNode
  if addNewNode then do
    let c ← addLeaf r.2
    pure (r.1, c)
  else pure r

def calcStackDist (c : StackDistCalc Addr) (rAddress : Addr) (mark : Bool) :
    Except Fault ((ℕ × Bool) × StackDistCalc Addr) :=
  match c.aiMap rAddress with
  | some rIndex => do
    let leaf ← c.tree.get (0, rIndex)
    let c := { c with tree := c.tree.set 0 rIndex (some { leaf with isMarked := mark }) }
    let stackDist ← getSumsLeavesToRoot c.depth c.tree rIndex
    pure ((stackDist, leaf.isMarked), c)
  | none => pure ((Infinity, false), c)

inductive Call (Addr : Type)
  | update (rAddress : Addr) (addNewNode : Bool)
  | dist (rAddress : Addr) (mark : Bool)
  deriving DecidableEq

/-- A call, with what all calls so far returned. -/
def step (s : StackDistCalc Addr × List (ℕ × Bool)) :
    Call Addr → Except Fault (StackDistCalc Addr × List (ℕ × Bool))
  | .update rAddress addNewNode => do
    let r ← calcStackDistAndUpdate s.1 rAddress addNewNode
    pure (r.2, s.2 ++ [r.1])
  | .dist rAddress mark => do
    let r ← calcStackDist s.1 rAddress mark
    pure (r.2, s.2 ++ [r.1])

/-! The naive stack: the addresses with their marks, the most recent first. -/

abbrev Stack (Addr : Type) := List (Addr × Bool)

def Stack.position (rAddress : Addr) : Stack Addr → Option (ℕ × Bool)
  | [] => none
  | e :: s =>
    if e.1 = rAddress then some (0, e.2)
    else (Stack.position rAddress s).map fun r => (r.1 + 1, r.2)

def Stack.find (s : Stack Addr) (rAddress : Addr) : ℕ × Bool :=
  (Stack.position rAddress s).getD (Infinity, false)

def Stack.step (s : Stack Addr × List (ℕ × Bool)) : Call Addr → Stack Addr × List (ℕ × Bool)
  | .update rAddress addNewNode =>
    let rest := s.1.filter fun e => e.1 ≠ rAddress
    (if addNewNode then (rAddress, false) :: rest else rest, s.2 ++ [Stack.find s.1 rAddress])
  | .dist rAddress mark =>
    (s.1.map fun e => if e.1 = rAddress then (rAddress, mark) else e,
      s.2 ++ [Stack.find s.1 rAddress])

end HetSim.StackDist
