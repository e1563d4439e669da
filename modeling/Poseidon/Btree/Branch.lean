import Poseidon.Lib.SearchTree

/-!
# The branch levels of the trees

The part of `imbtree.hpp` and `fptree.hpp` that the two headers have in
common, word for word: everything above the leaves. The two differ in how a
branch is searched and in what a leaf is, which are parameters here.

A branch has one parent, which is the only way to reach it, so branches are
values; the leaves are linked with each other and are in a heap. The memory
that `new` returns is not cleared: `raw q` is what is in the array of keys of
the node that is allocated as number `q`.

What the source does not define is an error: a null pointer or a deleted node
that is followed, a leaf that is taken for a branch or the other way round,
and an array that is read past its end. A failed `assert` is an error too.
-/

namespace Poseidon

open BTree

inductive TreeErr where
  | assertion
  | nullPointer
  | dangling
  | wrongKind
  | outOfBounds
  deriving DecidableEq, Repr

/-- A tree with leaves of type `L`. -/
structure BPTree (K L : Type) where
  depth : Nat
  rootNode : Node K
  leaves : Nat → Option L
  fresh : Nat

namespace BPTree

variable {C K L : Type}

abbrev M (K L : Type) := EStateM TreeErr (BPTree K L)

/-! ## The heap -/

/-- The number of a new node. -/
def alloc : M K L Nat := do
  let t ← get
  set { t with fresh := t.fresh + 1 }
  pure t.fresh

def getLeaf (p : Nat) : M K L L := do
  match (← get).leaves p with
  | some l => pure l
  | none => throw .dangling

def setLeaf (p : Nat) (l : L) : M K L PUnit :=
  modify fun t => { t with leaves := Function.update t.leaves p (some l) }

/-- `deleteLeafNode`. -/
def deleteLeafNode (p : Nat) : M K L PUnit :=
  modify fun t => { t with leaves := Function.update t.leaves p none }

/-- A pointer that is followed. -/
def follow : Option Nat → M K L Nat
  | some p => pure p
  | none => throw .nullPointer

section

variable [LinearOrder K] (N : Nat)

/-! ## Inserting -/

/-- Where `splitBranchNode` divides the branch. -/
def splitMiddle (node : Branch C K) (splitKey : K) : Nat :=
  if node.keys ((N + 1) / 2) < splitKey then (N + 1) / 2 + 1 else (N + 1) / 2

/-- `splitBranchNode`: the key at which the branch is split, the branch and
its new sibling, which is allocated as `sibling`. -/
def splitBranchNode (sibling node : Branch C K) (splitKey : K) : K × Branch C K × Branch C K :=
  let middle := splitMiddle N node splitKey
  let num := node.numKeys - middle
  (node.keys (middle - 1), { node with numKeys := middle - 1 },
    { numKeys := num
      keys := blit sibling.keys 0 node.keys middle num
      children := Function.update (blit sibling.children 0 node.children middle num) num
        (node.children node.numKeys) })

/-- `newBranchNode`. -/
def newBranchNode (raw : Nat → Nat → K) : M K L (Branch (Node K) K) := do
  let q ← alloc
  pure ⟨0, raw q, fun _ => .null⟩

variable (find : Branch (Node K) K → K → Nat) (raw : Nat → Nat → K)

/-- `insertInBranchNode`, with `insertInLeafNode` at the leaf level. The node
is returned as it is afterwards, and the key and the new sibling when it has
been split. -/
def insertInNode (insertInLeafNode : Nat → M K L (Option (K × Nat))) (key : K) :
    Nat → Node K → M K L (Node K × Option (K × Node K))
  | 0, .leaf p => do
      let split ← insertInLeafNode p
      pure (.leaf p, split.map fun s => (s.1, .leaf s.2))
  | d + 1, .branch node => do
      let pos := find node key
      let (child, split) ← insertInNode insertInLeafNode key d (node.children pos)
      let node := node.setChild pos child
      match split with
      | none => pure (.branch node, none)
      | some (childKey, right) =>
          if node.numKeys = N then
            let sibling ← newBranchNode raw
            let (splitKey, lhs, rhs) := splitBranchNode N sibling node childKey
            if key < splitKey then
              pure (.branch (lhs.splitChild (find lhs key) childKey child right),
                some (splitKey, .branch rhs))
            else
              pure (.branch lhs,
                some (splitKey, .branch (rhs.splitChild (find rhs key) childKey child right)))
          else pure (.branch (node.splitChild pos childKey child right), none)
  | _, _ => throw .wrongKind

/-- `insert`. -/
def insertWith (insertInLeafNode : Nat → M K L (Option (K × Nat))) (key : K) : M K L PUnit := do
  let t ← get
  let (node, split) ← insertInNode N find raw insertInLeafNode key t.depth t.rootNode
  match split with
  | none => modify fun t => { t with rootNode := node }
  | some (splitKey, right) =>
      let root ← newBranchNode raw
      modify fun t =>
        { t with
          rootNode := .branch
            { numKeys := root.numKeys + 1
              keys := Function.update root.keys 0 splitKey
              children := Function.update (Function.update root.children 0 node) 1 right }
          depth := t.depth + 1 }

end

/-! ## Looking up -/

/-- `findLeafNode`. -/
def findLeafNode (find : Branch (Node K) K → K → Nat) (key : K) : Nat → Node K → Except TreeErr Nat
  | 0, .leaf p => .ok p
  | d + 1, .branch node => findLeafNode find key d (node.children (find node key))
  | _, _ => .error .wrongKind

/-- The leftmost leaf. -/
def firstLeaf : Nat → Node K → Except TreeErr Nat
  | 0, .leaf p => .ok p
  | d + 1, .branch node => firstLeaf d (node.children 0)
  | _, _ => .error .wrongKind

/-! ## Erasing -/

section

variable [LinearOrder K] (N : Nat)

/-- `mergeBranchNodes`. The two assertions read the first key of `node` and
the last key of `sibling`, whatever their numbers of keys. -/
def mergeBranchNodes (sibling : Branch C K) (key : K) (node : Branch C K) :
    Except TreeErr (Branch C K) :=
  if sibling.numKeys = 0 then .error .outOfBounds
  else if node.keys 0 < key ∨ key ≤ sibling.keys (sibling.numKeys - 1) then .error .assertion
  else if N < sibling.numKeys + node.numKeys + 1 then .error .outOfBounds
  else
    .ok
      { numKeys := sibling.numKeys + (node.numKeys + 1)
        keys := blit (Function.update sibling.keys sibling.numKeys key) (sibling.numKeys + 1)
          node.keys 0 node.numKeys
        children := blit sibling.children (sibling.numKeys + 1) node.children 0
          (node.numKeys + 1) }

/-- `balanceBranchNodes`: the donor, the receiver and the key that is between
them in the parent afterwards. -/
def balanceBranchNodes (donor receiver : Branch C K) (parentKey : K) :
    Except TreeErr (Branch C K × Branch C K × K) :=
  if donor.numKeys ≤ receiver.numKeys then .error .assertion
  else
    let toMove := donor.numKeys - (donor.numKeys + receiver.numKeys) / 2
    if donor.keys 0 < receiver.keys 0 then
      -- to a node with larger keys
      let keys := blit receiver.keys toMove receiver.keys 0 receiver.numKeys
      let children := blit receiver.children toMove receiver.children 0 (receiver.numKeys + 1)
      .ok ({ donor with numKeys := donor.numKeys - toMove },
        { numKeys := receiver.numKeys + toMove
          keys := Function.update
            (blit keys 0 donor.keys (donor.numKeys - toMove + 1) (toMove - 1))
            (toMove - 1) parentKey
          children := blit children 0 donor.children (donor.numKeys - toMove + 1) toMove },
        donor.keys (donor.numKeys - toMove))
    else
      -- to a node with smaller keys
      .ok ({ numKeys := donor.numKeys - toMove
             keys := blit donor.keys 0 donor.keys toMove (donor.numKeys - toMove)
             children := blit donor.children 0 donor.children toMove (donor.numKeys - toMove + 1) },
        { numKeys := receiver.numKeys + toMove
          keys := Function.update (blit receiver.keys (receiver.numKeys + 1) donor.keys 0 toMove)
            receiver.numKeys parentKey
          children := blit receiver.children (receiver.numKeys + 1) donor.children 0 toMove },
        donor.keys (toMove - 1))

/-- A child that is a branch. -/
def branchAt (node : Branch (Node K) K) (i : Nat) : Except TreeErr (Branch (Node K) K) :=
  match node.children i with
  | .branch b => .ok b
  | _ => .error .wrongKind

/-- The number of keys of a sibling, 0 when there is none. -/
def siblingKeys (there : Bool) (node : Branch (Node K) K) (i : Nat) : Except TreeErr Nat :=
  if there then do
    let b ← branchAt node i
    pure b.numKeys
  else pure 0

/-- The removal of a separator and a child after a merge. -/
def dropChild (node : Branch (Node K) K) (ppos pos : Nat) : Branch (Node K) K where
  numKeys := node.numKeys - 1
  keys := removeAt node.keys node.numKeys ppos
  children := removeAt node.children (node.numKeys + 1) (if pos = 0 then 1 else pos)

/-- `underflowAtBranchLevel`: the parent and the child afterwards. -/
def underflowAtBranchLevel (node : Branch (Node K) K) (pos : Nat) (child : Branch (Node K) K) :
    Except TreeErr (Branch (Node K) K × Branch (Node K) K) := do
  let middle := (N + 1) / 2
  let prevKeys ← siblingKeys (0 < pos) node (pos - 1)
  if middle < prevKeys then
    let sibling ← branchAt node (pos - 1)
    let (donor, receiver, key) ← balanceBranchNodes sibling child (node.keys (pos - 1))
    let node := (node.setChild (pos - 1) (.branch donor)).setChild pos (.branch receiver)
    pure ({ node with keys := Function.update node.keys (pos - 1) key }, receiver)
  else
    let nextKeys ← siblingKeys (pos < node.numKeys) node (pos + 1)
    if middle < nextKeys then
      let sibling ← branchAt node (pos + 1)
      -- one key more is written than the child gets
      if N ≤ child.numKeys + (nextKeys - (nextKeys + child.numKeys) / 2) then .error .outOfBounds
      else
        let (donor, receiver, key) ← balanceBranchNodes sibling child (node.keys pos)
        let node := (node.setChild (pos + 1) (.branch donor)).setChild pos (.branch receiver)
        pure ({ node with keys := Function.update node.keys pos key }, receiver)
    else if 0 < prevKeys then
      let sibling ← branchAt node (pos - 1)
      let merged ← mergeBranchNodes N sibling (node.keys (pos - 1)) child
      pure (dropChild (node.setChild (pos - 1) (.branch merged)) (pos - 1) pos, merged)
    else if 0 < nextKeys then
      let sibling ← branchAt node (pos + 1)
      let merged ← mergeBranchNodes N child (node.keys pos) sibling
      pure (dropChild (node.setChild pos (.branch merged)) pos pos, merged)
    else throw .assertion

/-- A neighbour of a leaf when it has the same parent, with its number of
keys. -/
def neighbour (leafKeys : Nat → BPTree.M K L Nat) (there : Bool) (q : Option Nat) :
    BPTree.M K L (Option (Nat × Nat)) :=
  if there then do
    let q ← follow q
    let num ← leafKeys q
    pure (some (q, num))
  else pure none

/-- A neighbour with more than `middle` keys. -/
def spare (middle : Nat) (q : Option (Nat × Nat)) : Option Nat :=
  q.bind fun x => if middle < x.2 then some x.1 else none

/-- The end of `underflowAtLeafLevel` after two leaves have been merged. -/
def dropLeaf (node : Branch (Node K) K) (pos survivor : Nat) :
    BPTree.M K L (Branch (Node K) K × Option (Node K)) :=
  if 1 < node.numKeys then
    let pos := if 0 < pos then pos - 1 else pos
    pure
      ({ numKeys := node.numKeys - 1
         keys := removeAt node.keys node.numKeys pos
         children := Function.update (removeAt node.children (node.numKeys + 1) (pos + 1)) pos
          (.leaf survivor) }, none)
  else do
    modify fun t => { t with depth := t.depth - 1 }
    pure (node, some (.leaf survivor))

variable (M : Nat) (find : Branch (Node K) K → K → Nat)

/-- What `eraseFromBranchNode` returns: the branch as it is afterwards, and
the node that the root pointer has been set to. -/
structure Erased (K : Type) where
  deleted : Bool
  node : Branch (Node K) K
  root : Option (Node K)

def orThrow {β : Type} : Except TreeErr β → BPTree.M K L β
  | .ok b => pure b
  | .error e => throw e

/-- `eraseFromBranchNode` at level `d + 1`. -/
def eraseFromBranchNode (eraseFromLeafNode : Nat → BPTree.M K L Bool)
    (leafKeys : Nat → BPTree.M K L Nat)
    (underflowAtLeafLevel : Branch (Node K) K → Nat → Nat →
      BPTree.M K L (Branch (Node K) K × Option (Node K))) (key : K) :
    Nat → Branch (Node K) K → BPTree.M K L (Erased K)
  | 0, node => do
      let pos := find node key
      match node.children pos with
      | .leaf p =>
          let deleted ← eraseFromLeafNode p
          if (← leafKeys p) < (M + 1) / 2 then
            let (node, root) ← underflowAtLeafLevel node pos p
            pure ⟨deleted, node, root⟩
          else pure ⟨deleted, node, none⟩
      | _ => throw .wrongKind
  | d + 1, node => do
      let pos := find node key
      match node.children pos with
      | .branch child =>
          let r ← eraseFromBranchNode eraseFromLeafNode leafKeys underflowAtLeafLevel key d child
          let node := node.setChild pos (.branch r.node)
          let pos := find node key
          if r.node.numKeys < (N + 1) / 2 then
            let (node, child) ← orThrow (underflowAtBranchLevel N node pos r.node)
            let t ← get
            if d + 2 = t.depth ∧ node.numKeys = 0 then
              set { t with depth := t.depth - 1 }
              pure ⟨r.deleted, node, some (.branch child)⟩
            else pure ⟨r.deleted, node, r.root⟩
          else pure ⟨r.deleted, node, r.root⟩
      | _ => throw .wrongKind

/-- `erase`. -/
def eraseWith (eraseFromLeafNode : Nat → BPTree.M K L Bool) (leafKeys : Nat → BPTree.M K L Nat)
    (underflowAtLeafLevel : Branch (Node K) K → Nat → Nat →
      BPTree.M K L (Branch (Node K) K × Option (Node K))) (key : K) : BPTree.M K L Bool := do
  let t ← get
  match t.depth, t.rootNode with
  | 0, .leaf p => eraseFromLeafNode p
  | d + 1, .branch node =>
      let r ← eraseFromBranchNode N M find eraseFromLeafNode leafKeys
        underflowAtLeafLevel key d node
      modify fun t => { t with rootNode := r.root.getD (.branch r.node) }
      pure r.deleted
  | _, _ => throw .wrongKind

end

end BPTree

end Poseidon
