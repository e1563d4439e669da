import Mathlib.Algebra.Group.Int.Defs
import Mathlib.Algebra.GroupWithZero.Nat
import Mathlib.Data.List.Sort
import Poseidon.Btree.ImBtree
import Poseidon.Lib.ArrayMoves
import Poseidon.Lib.CheckedArray

/-!
# Selection and search on the array

`ElementOfRankK` and `binarySearch` as they run on the array of keys, of
which the cells that may be accessed are given. What they do to the list of
the keys alone is in `Btree/FpTree.lean`. `size_t` has 64 bits, `int` and
`unsigned int` have 32.
-/

namespace Poseidon

namespace InPlace

variable {K : Type} [LinearOrder K]

/-- `findMedian`, for the cells from `start` on. -/
def findMedian (data : CheckedArray K) (start length : Nat) : Option (K × CheckedArray K) := do
  let keys ← data.read start length
  let data ← data.write start (keys.insertionSort (· ≤ ·))
  let median ← data (start + length / 2)
  pure (median, data)

/-- `std::swap` of two cells. -/
def swap (data : CheckedArray K) (i j : Nat) : Option (CheckedArray K) := do
  let a ← data i
  let b ← data j
  let data ← data.store i b
  data.store j a

/-- The first loop of `partition`, with the number of cells to go. -/
def findCell (data : CheckedArray K) (x : K) : Nat → Nat → Option Nat
  | 0, i => some i
  | n + 1, i => do
      let a ← data i
      if a = x then some i else findCell data x n (i + 1)

/-- An iteration of the second loop of `partition`. -/
def partitionStep (x : K) (s : CheckedArray K × Nat) (j : Nat) : Option (CheckedArray K × Nat) := do
  let a ← s.1 j
  if a ≤ x then
    let data ← swap s.1 s.2 j
    pure (data, s.2 + 1)
  else pure s

/-- `partition`, for the cells from `start` to `last`. -/
def partition (data : CheckedArray K) (start last : Nat) (x : K) : Option (CheckedArray K × Nat) :=
  do
  let i ← findCell data x (last - start) start
  let data ← swap data i last
  let s ← (List.range' start (last - start)).foldlM (partitionStep x) (data, start)
  let data ← swap s.1 s.2 last
  pure (data, s.2)

/-- The median of group `i`, which has `n` keys, is added to the array of
medians. -/
def medianStep (start n : Nat) (s : List K × CheckedArray K) (i : Nat) :
    Option (List K × CheckedArray K) := do
  let r ← findMedian s.2 (start + i * 5) n
  pure (s.1 ++ [r.1], r.2)

def medians (data : CheckedArray K) (start length : Nat) : Option (List K × CheckedArray K) := do
  let s ← (List.range (length / 5)).foldlM (medianStep start 5) ([], data)
  if length / 5 * 5 < length then medianStep start (length % 5) s (length / 5) else pure s

/-- `elementOfRankK`. Every call is for fewer elements, so that `fuel` is not
used up when it is the number of elements. -/
def elementOfRankK : Nat → Nat → CheckedArray K → Nat → Nat → Option (K × CheckedArray K)
  | 0, _, _, _, _ => none
  | fuel + 1, k, data, start, length => do
      let last := start + length - 1
      let s ← medians data start length
      let medOfMed ← (if s.1.length = 1 then s.1[0]?
        else (elementOfRankK fuel (s.1.length / 2) (.ofList s.1) 0 s.1.length).map Prod.fst)
      let r ← partition s.2 start last medOfMed
      let data := r.1
      let pos := r.2
      if pos - start = k - 1 then (data pos).map fun a => (a, data)
      else if k - 1 < pos - start then elementOfRankK fuel k data start (pos - start)
      else
        -- `k - pos` may be below 0 on the way
        elementOfRankK fuel ((k + (2 ^ 64 - pos) + start + (2 ^ 64 - 1)) % 2 ^ 64) data (pos + 1)
          (last - pos)

/-- An iteration of the loop of `findSplitKey`, with the bitmap and the
position so far. -/
def splitStep (data : Nat → K) (splitKey : K) (s : (Nat → Bool) × Nat) (i : Nat) :
    (Nat → Bool) × Nat :=
  if data i < splitKey then (Function.update s.1 i true, s.2)
  else if data i = splitKey then (s.1, i)
  else s

/-- The loop of `findSplitKey`. Its counter is an `unsigned int`, `M` is a
`size_t`. -/
def splitLoop (M : Nat) (data : Nat → K) (splitKey : K) :
    Nat → Nat → (Nat → Bool) × Nat → Option ((Nat → Bool) × Nat)
  | 0, _, _ => none
  | fuel + 1, i, s =>
      if i < M then
        splitLoop M data splitKey fuel ((i + 1) % 2 ^ 32) (splitStep data splitKey s i)
      else some s

/-- `findSplitKey`; the selection is in `repData`, a copy of the keys. -/
def findSplitKey (fuel M : Nat) (data : Nat → K) : Option ((Nat → Bool) × Nat) := do
  let repData := CheckedArray.ofList ((List.range M).map data)
  let r ← elementOfRankK M ((M + 1) / 2 + 1) repData 0 M
  splitLoop M data r.1 fuel 0 (fun _ => false, M)

/-! ## Search -/

/-- An `unsigned int` as an `int`. -/
def toInt (n : Nat) : Int := Int.bmod n (2 ^ 32)

/-- `(l + r) / 2` as an `unsigned int`; that the sum leaves the range of `int`
is undefined. -/
def midpoint (l r : Int) : Option Nat :=
  if -2 ^ 31 ≤ l + r ∧ l + r < 2 ^ 31 then some (((l + r).tdiv 2) % 2 ^ 32).toNat else none

/-- The loop of `binarySearch`; every iteration leaves fewer positions between
the fences, so that `fuel` is not used up when it is their number. -/
def searchLoop (isBranch : Bool) (keys : CheckedArray K) (key : K) :
    Nat → Nat → Int → Int → Option Nat
  | 0, pos, l, r => if l ≤ r then none else some pos
  | fuel + 1, pos, l, r =>
      if l ≤ r then do
        let pos ← midpoint l r
        let k ← keys pos
        if k = key then some (if isBranch then pos + 1 else pos)
        else if k < key then searchLoop isBranch keys key fuel (pos + 1) (toInt (pos + 1)) r
        else searchLoop isBranch keys key fuel pos l (toInt ((pos + (2 ^ 32 - 1)) % 2 ^ 32))
      else some pos

/-- `binarySearch` on the keys. -/
def binarySearch (isBranch : Bool) (keys : CheckedArray K) (l r : Int) (key : K) : Option Nat :=
  searchLoop isBranch keys key (r - l + 1).toNat 0 l r

/-- `binarySearch` on the keys that the slots point to. -/
def binarySearchSlots (isBranch : Bool) (keys : CheckedArray K) (slots : CheckedArray (Fin 256))
    (l r : Int) (key : K) : Option Nat :=
  searchLoop isBranch (fun pos => (slots pos).bind fun slot => keys slot) key
  (r - l + 1).toNat 1 l r

/-- `lookupPositionInBranchNode`, for a node with `num` keys. -/
def lookupPositionInBranchNode (keys : CheckedArray K) (num : Nat) (key : K) : Option Nat :=
  binarySearch true keys 0 (toInt ((num + (2 ^ 32 - 1)) % 2 ^ 32)) key

end InPlace

open BTree

/-!
## Rebalancing on the arrays

The functions of `imbtree.hpp` that move entries between two neighbours, as
they run on the arrays of the nodes: an access behind an array fails, and so
does an `assert`. A loop over two arrays is written as one loop for each. What
the functions do to the contents of the nodes is in `Btree/Branch.lean` and
`Btree/ImBtree.lean`.
-/

namespace InPlace

/-- `BranchNode`, with arrays for `N` keys and `N + 1` children. -/
structure BranchNode (C K : Type) where
  numKeys : Nat
  keys : CheckedArray K
  children : CheckedArray C

/-- `LeafNode`, without the links; the arrays are for `M` keys and values. -/
structure LeafNode (K V : Type) where
  numKeys : Nat
  keys : CheckedArray K
  values : CheckedArray V

variable {C K V : Type} [LinearOrder K]

/-! ## Branches -/

/-- `mergeBranchNodes`. The index of the last key of an empty `sibling` is the
largest number of 32 bits. -/
def mergeBranchNodes (sibling : BranchNode C K) (key : K) (node : BranchNode C K) :
    Option (BranchNode C K) := do
  let first ← node.keys 0
  let last ← (if sibling.numKeys = 0 then none else sibling.keys (sibling.numKeys - 1))
  if key ≤ first ∧ last < key then
    let keys ← sibling.keys.store sibling.numKeys key
    let child ← node.children 0
    let children ← sibling.children.store (sibling.numKeys + 1) child
    let keys ← copyCells keys (sibling.numKeys + 1) node.keys 0 node.numKeys
    let children ← copyCells children (sibling.numKeys + 2) node.children 1 node.numKeys
    pure ⟨sibling.numKeys + (node.numKeys + 1), keys, children⟩
  else none

/-- `balanceBranchNodes`, to a node with larger keys. -/
def balanceToLarger (donor receiver : BranchNode C K) (parentKey : K) (toMove : Nat) :
    Option (BranchNode C K × BranchNode C K × K) := do
  -- 1. make room
  let child ← receiver.children receiver.numKeys
  let children ← receiver.children.store (receiver.numKeys + toMove) child
  let keys ← moveDown receiver.keys toMove 0 receiver.numKeys
  let children ← moveDown children toMove 0 receiver.numKeys
  -- 2. move toMove keys/children from donor to receiver
  let children ← copyCells children 0 donor.children (donor.numKeys - toMove + 1) toMove
  let keys ← copyCells keys 0 donor.keys (donor.numKeys - toMove + 1) (toMove - 1)
  let keys ← keys.store (toMove - 1) parentKey
  let key ← donor.keys (donor.numKeys - toMove)
  pure ({ donor with numKeys := donor.numKeys - toMove },
    ⟨receiver.numKeys + toMove, keys, children⟩, key)

/-- `balanceBranchNodes`, to a node with smaller keys. The loop copies one key
more than the receiver gets. -/
def balanceToSmaller (donor receiver : BranchNode C K) (parentKey : K) (toMove : Nat) :
    Option (BranchNode C K × BranchNode C K × K) := do
  -- 1. move toMove keys/children from donor to receiver
  let children ← copyCells receiver.children (receiver.numKeys + 1) donor.children 0 toMove
  let keys ← copyCells receiver.keys (receiver.numKeys + 1) donor.keys 0 toMove
  -- 2. via the parent node
  let keys ← keys.store receiver.numKeys parentKey
  let key ← donor.keys (toMove - 1)
  -- 3. on donor node move all keys and values to the left
  let donorKeys ← moveUp donor.keys 0 toMove (donor.numKeys - toMove)
  let donorChildren ← moveUp donor.children 0 toMove (donor.numKeys - toMove)
  let child ← donorChildren donor.numKeys
  let donorChildren ← donorChildren.store (donor.numKeys - toMove) child
  pure (⟨donor.numKeys - toMove, donorKeys, donorChildren⟩,
    ⟨receiver.numKeys + toMove, keys, children⟩, key)

/-- `balanceBranchNodes`: the donor, the receiver and the key that is between
them in the parent afterwards. -/
def balanceBranchNodes (donor receiver : BranchNode C K) (parentKey : K) :
    Option (BranchNode C K × BranchNode C K × K) :=
  if donor.numKeys ≤ receiver.numKeys then none
  else do
    let balancedNum := (donor.numKeys + receiver.numKeys) / 2
    let toMove := donor.numKeys - balancedNum
    let d ← donor.keys 0
    let r ← receiver.keys 0
    (if d < r then balanceToLarger donor receiver parentKey toMove
      else balanceToSmaller donor receiver parentKey toMove)

/-! ## Leaves -/

/-- `mergeLeafNodes`: the first node afterwards. -/
def mergeLeafNodes (M : Nat) (node1 node2 : LeafNode K V) : Option (LeafNode K V) :=
  if M < node1.numKeys + node2.numKeys then none
  else do
    let keys ← copyCells node1.keys node1.numKeys node2.keys 0 node2.numKeys
    let values ← copyCells node1.values node1.numKeys node2.values 0 node2.numKeys
    pure ⟨node1.numKeys + node2.numKeys, keys, values⟩

/-- `balanceLeafNodes`: the donor and the receiver. -/
def balanceLeafNodes (donor receiver : LeafNode K V) : Option (LeafNode K V × LeafNode K V) :=
  if donor.numKeys ≤ receiver.numKeys then none
  else do
    let balancedNum := (donor.numKeys + receiver.numKeys) / 2
    let toMove := donor.numKeys - balancedNum
    let d ← donor.keys 0
    let r ← receiver.keys 0
    (if d < r then do
      -- to a node with larger keys
      let keys ← moveDown receiver.keys toMove 0 receiver.numKeys
      let values ← moveDown receiver.values toMove 0 receiver.numKeys
      let keys ← copyCells keys 0 donor.keys balancedNum (donor.numKeys - balancedNum)
      let values ← copyCells values 0 donor.values balancedNum (donor.numKeys - balancedNum)
      pure ({ donor with numKeys := donor.numKeys - toMove },
        ⟨receiver.numKeys + toMove, keys, values⟩)
    else do
      -- to a node with smaller keys
      let keys ← copyCells receiver.keys receiver.numKeys donor.keys 0 toMove
      let values ← copyCells receiver.values receiver.numKeys donor.values 0 toMove
      let donorKeys ← moveUp donor.keys 0 toMove (donor.numKeys - toMove)
      let donorValues ← moveUp donor.values 0 toMove (donor.numKeys - toMove)
      pure (⟨donor.numKeys - toMove, donorKeys, donorValues⟩,
        ⟨receiver.numKeys + toMove, keys, values⟩))

end InPlace

end Poseidon
