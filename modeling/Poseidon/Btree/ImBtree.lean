import Poseidon.Btree.Branch

/-!
# The B+ tree in memory

`imbtree.hpp`. A leaf has its entries in the order of their keys, at the
front of its arrays, and is linked with its neighbours; what `raw` gives is
in the arrays of a node before anything is written to them.
-/

namespace Poseidon

open BTree

/-- `LeafNode`. -/
structure LeafNode (K V : Type) where
  numKeys : Nat
  keys : Nat → K
  values : Nat → V
  nextLeaf : Option Nat
  prevLeaf : Option Nat

/-- What is in the memory that is allocated. -/
structure Raw (K V : Type) where
  keys : Nat → Nat → K
  values : Nat → Nat → V

abbrev ImTree (K V : Type) := BPTree K (LeafNode K V)

namespace ImTree

open BPTree

variable {K V C : Type} [LinearOrder K] (N M : Nat) (raw : Raw K V)

/-- `lookupPositionInBranchNode`. -/
def lookupPositionInBranchNode (node : Branch C K) (key : K) : Nat :=
  firstNot (fun pos => decide (node.keys pos ≤ key)) node.numKeys

/-- `lookupPositionInLeafNode`. -/
def lookupPositionInLeafNode (node : LeafNode K V) (key : K) : Nat :=
  firstNot (fun pos => decide (node.keys pos < key)) node.numKeys

/-- `newLeafNode`. -/
def newLeafNode (q : Nat) : LeafNode K V := ⟨0, raw.keys q, raw.values q, none, none⟩

/-- The constructor. -/
def new : ImTree K V where
  depth := 0
  rootNode := .leaf 0
  leaves := Function.update (fun _ => none) 0 (some (newLeafNode raw 0))
  fresh := 1

/-! ## Inserting -/

/-- `insertInLeafNodeAtPosition`. -/
def insertInLeafNodeAtPosition (node : LeafNode K V) (pos : Nat) (key : K) (val : V) :
    Except TreeErr (LeafNode K V) :=
  if pos < M ∧ pos ≤ node.numKeys ∧ node.numKeys < M then
    .ok
      { node with
        keys := insertAt node.keys node.numKeys pos key
        values := insertAt node.values node.numKeys pos val
        numKeys := node.numKeys + 1 }
  else .error .assertion

/-- `insertInLeafNode`: the key and the new sibling when the leaf has been
split. -/
def insertInLeafNode (key : K) (val : V) (p : Nat) : BPTree.M K (LeafNode K V)
    (Option (K × Nat)) := do
  let node ← getLeaf p
  let pos := lookupPositionInLeafNode node key
  if pos < node.numKeys ∧ node.keys pos = key then
    setLeaf p { node with values := Function.update node.values pos val }
    pure none
  else if node.numKeys = M then
    let middle := (M + 1) / 2
    let q ← alloc
    let num := node.numKeys - middle
    let sibling : LeafNode K V :=
      { newLeafNode raw q with
        numKeys := num
        keys := blit (raw.keys q) 0 node.keys middle num
        values := blit (raw.values q) 0 node.values middle num }
    let node := { node with numKeys := middle }
    let node ← orThrow
      (if pos < middle then insertInLeafNodeAtPosition M node pos key val else .ok node)
    let sibling ← orThrow
      (if pos < middle then .ok sibling
      else insertInLeafNodeAtPosition M sibling (pos - middle) key val)
    setLeaf p { node with nextLeaf := some q }
    setLeaf q { sibling with prevLeaf := some p }
    pure (some (sibling.keys 0, q))
  else
    let node ← orThrow (insertInLeafNodeAtPosition M node pos key val)
    setLeaf p node
    pure none

/-- `insert`. -/
def insert (key : K) (val : V) : BPTree.M K (LeafNode K V) PUnit :=
  insertWith N lookupPositionInBranchNode raw.keys (insertInLeafNode M raw key val) key

/-! ## Reading -/

/-- `lookup`. -/
def lookup (t : ImTree K V) (key : K) : Except TreeErr (Option V) := do
  let p ← findLeafNode lookupPositionInBranchNode key t.depth t.rootNode
  match t.leaves p with
  | none => .error .dangling
  | some node =>
      let pos := lookupPositionInLeafNode node key
      pure (if pos < node.numKeys ∧ node.keys pos = key then some (node.values pos) else none)

/-- The entries of a leaf. -/
def entries (node : LeafNode K V) : List (K × V) :=
  (List.range node.numKeys).map fun i => (node.keys i, node.values i)

/-- The loop of `scan`, from a leaf on; a list that is longer than the number
of nodes goes round in a circle. -/
def scanFrom (leaves : Nat → Option (LeafNode K V)) : Nat → Option Nat → Option (List (K × V))
  | _, none => some []
  | 0, some _ => none
  | fuel + 1, some p =>
      match leaves p with
      | none => none
      | some node => do
          let rest ← scanFrom leaves fuel node.nextLeaf
          pure (entries node ++ rest)

/-- `scan`: the entries that the function is called with. There is no result
when a deleted node is followed or the loop does not end. -/
def scan (t : ImTree K V) : Option (List (K × V)) :=
  match firstLeaf t.depth t.rootNode with
  | .ok p => scanFrom t.leaves t.fresh (some p)
  | .error _ => none

/-- The calls for one leaf in the loop of the range scan: up to the first key
that is greater than `maxKey`. -/
def entriesUpTo (maxKey : K) (node : LeafNode K V) : List (K × V) :=
  (entries node).takeWhile fun e => decide (e.1 ≤ maxKey)

/-- The loop of the range scan, from a leaf on; it returns at the first key that
is greater than `maxKey`. -/
def scanRangeFrom (leaves : Nat → Option (LeafNode K V)) (maxKey : K) :
    Nat → Option Nat → Option (List (K × V))
  | _, none => some []
  | 0, some _ => none
  | fuel + 1, some p =>
      match leaves p with
      | none => none
      | some node =>
          if (entriesUpTo maxKey node).length < node.numKeys then some (entriesUpTo maxKey node)
          else do
            let rest ← scanRangeFrom leaves maxKey fuel node.nextLeaf
            pure (entriesUpTo maxKey node ++ rest)

/-- `scan` of the range from `minKey` to `maxKey`: it starts with the leaf that
the search for `minKey` leads to. -/
def scanRange (t : ImTree K V) (minKey maxKey : K) : Option (List (K × V)) :=
  match findLeafNode lookupPositionInBranchNode minKey t.depth t.rootNode with
  | .ok p => scanRangeFrom t.leaves maxKey t.fresh (some p)
  | .error _ => none

/-! ## Erasing -/

/-- `eraseFromLeafNode`. The key at the position is read without a test that
there is one, and the number of keys of an empty leaf would become negative. -/
def eraseFromLeafNode (key : K) (p : Nat) : BPTree.M K (LeafNode K V) Bool := do
  let node ← getLeaf p
  let pos := lookupPositionInLeafNode node key
  if M ≤ pos then throw .outOfBounds
  else if node.keys pos = key then
    if node.numKeys = 0 then throw .outOfBounds
    else
      setLeaf p
        { node with
          keys := removeAt node.keys node.numKeys pos
          values := removeAt node.values node.numKeys pos
          numKeys := node.numKeys - 1 }
      pure true
  else pure false

/-- The number of keys of a leaf. -/
def leafKeys (p : Nat) : BPTree.M K (LeafNode K V) Nat := do
  let node ← getLeaf p
  pure node.numKeys

/-- `mergeLeafNodes`. -/
def mergeLeafNodes (p1 p2 : Nat) : BPTree.M K (LeafNode K V) PUnit := do
  let node1 ← getLeaf p1
  let node2 ← getLeaf p2
  if M < node1.numKeys + node2.numKeys then throw .assertion
  else
    setLeaf p1
      { node1 with
        keys := blit node1.keys node1.numKeys node2.keys 0 node2.numKeys
        values := blit node1.values node1.numKeys node2.values 0 node2.numKeys
        numKeys := node1.numKeys + node2.numKeys
        nextLeaf := node2.nextLeaf }
    setLeaf p2 { node2 with numKeys := 0 }
    match node2.nextLeaf with
    | none => pure ⟨⟩
    | some q =>
        let next ← getLeaf q
        setLeaf q { next with prevLeaf := some p1 }

/-- `balanceLeafNodes`: which leaf has the smaller keys is read off their
first keys. -/
def balanceLeafNodes (donor receiver : Nat) : BPTree.M K (LeafNode K V) PUnit := do
  let d ← getLeaf donor
  let r ← getLeaf receiver
  if d.numKeys ≤ r.numKeys then throw .assertion
  else
    let balancedNum := (d.numKeys + r.numKeys) / 2
    let toMove := d.numKeys - balancedNum
    if d.keys 0 < r.keys 0 then
      setLeaf receiver
        { r with
          keys := blit (blit r.keys toMove r.keys 0 r.numKeys) 0 d.keys balancedNum toMove
          values := blit (blit r.values toMove r.values 0 r.numKeys) 0 d.values balancedNum toMove
          numKeys := r.numKeys + toMove }
      setLeaf donor { d with numKeys := d.numKeys - toMove }
    else
      setLeaf receiver
        { r with
          keys := blit r.keys r.numKeys d.keys 0 toMove
          values := blit r.values r.numKeys d.values 0 toMove
          numKeys := r.numKeys + toMove }
      setLeaf donor
        { d with
          keys := blit d.keys 0 d.keys toMove (d.numKeys - toMove)
          values := blit d.values 0 d.values toMove (d.numKeys - toMove)
          numKeys := d.numKeys - toMove }

/-- `underflowAtLeafLevel`: the branch afterwards, and the leaf that has
become the root. After the leaf has got keys from its left neighbour, the
separator at `pos` is set, which is not the one between the two. -/
def underflowAtLeafLevel (node : Branch (Node K) K) (pos leaf : Nat) :
    BPTree.M K (LeafNode K V) (Branch (Node K) K × Option (Node K)) := do
  if node.numKeys < pos then throw .assertion
  else
    let l ← getLeaf leaf
    let prev ← neighbour leafKeys (0 < pos) l.prevLeaf
    match spare ((M + 1) / 2) prev with
    | some q =>
        balanceLeafNodes q leaf
        let l ← getLeaf leaf
        if N ≤ pos then throw .outOfBounds
        else pure ({ node with keys := Function.update node.keys pos (l.keys 0) }, none)
    | none =>
        let next ← neighbour leafKeys (pos < node.numKeys) l.nextLeaf
        match spare ((M + 1) / 2) next with
        | some q =>
            balanceLeafNodes q leaf
            let next ← getLeaf q
            pure ({ node with keys := Function.update node.keys pos (next.keys 0) }, none)
        | none =>
            match prev, next with
            | some (q, _), _ =>
                mergeLeafNodes M q leaf
                deleteLeafNode leaf
                dropLeaf node pos q
            | none, some (q, _) =>
                mergeLeafNodes M leaf q
                deleteLeafNode q
                dropLeaf node pos leaf
            | none, none => throw .assertion

/-- `erase`. -/
def erase (key : K) : BPTree.M K (LeafNode K V) Bool :=
  eraseWith N M lookupPositionInBranchNode (eraseFromLeafNode M key) leafKeys
    (underflowAtLeafLevel N M) key

end ImTree

end Poseidon
