import Mathlib.Data.List.Sort
import Mathlib.Order.BoundedOrder.Basic
import Poseidon.Btree.Branch
import Poseidon.Lib.SearchTree

/-!
# Helpers of the tree with fingerprints

The first part of `fptree.hpp`: the selection of the element of a rank, and
the search in an array of keys.

The selection works in place on a part of an array; the list is that part. A
key is returned as a `size_t`, which holds the keys that the tree is used
with. What is read behind the list is `⊥`.
-/

namespace Poseidon

open BTree

variable {K : Type} [LinearOrder K] [BoundedOrder K]

/-! ## Selection -/

namespace ElementOfRankK

/-- `findMedian`: the elements in order, and the one in the middle. -/
def findMedian (data : List K) : List K × K :=
  let sorted := data.insertionSort (· ≤ ·)
  (sorted, sorted.getD (data.length / 2) ⊥)

/-- `std::swap` of two elements. -/
def swap (data : List K) (i j : Nat) : List K :=
  (data.set i (data.getD j ⊥)).set j (data.getD i ⊥)

/-- An iteration of the loop of `partition`. -/
def partitionStep (x : K) (s : List K × Nat) (j : Nat) : List K × Nat :=
  if s.1.getD j ⊥ ≤ x then (swap s.1 s.2 j, s.2 + 1) else s

/-- `partition`. -/
def partition (data : List K) (x : K) : List K × Nat :=
  let last := data.length - 1
  let i := firstNot (fun i => decide (data.getD i ⊥ ≠ x)) last
  let s := (List.range last).foldl (partitionStep x) (swap data i last, 0)
  (swap s.1 s.2 last, s.2)

/-- The groups of five, the last of which may be smaller. -/
def groups (data : List K) : List (List K) :=
  (List.range ((data.length + 4) / 5)).map fun i => (data.drop (i * 5)).take 5

/-- `elementOfRankK`. Every call is for fewer elements, so that `fuel` is not
used up when it is the number of elements. -/
def elementOfRankK : Nat → Nat → List K → Option K
  | 0, _, _ => none
  | fuel + 1, k, data =>
      let found := (groups data).map findMedian
      let median := found.map Prod.snd
      let medOfMed := if median.length = 1 then some (median.getD 0 ⊥)
        else elementOfRankK fuel (median.length / 2) median
      medOfMed.bind fun medOfMed =>
        let (data, pos) := partition (found.flatMap Prod.fst) medOfMed
        if pos = k - 1 then some (data.getD pos ⊥)
        else if k - 1 < pos then elementOfRankK fuel k (data.take pos)
        else elementOfRankK fuel (k - pos - 1) (data.drop (pos + 1))

end ElementOfRankK

/-- An iteration of the loop of `findSplitKey`. -/
def splitPosStep (data : Nat → K) (splitKey : K) (splitPos i : Nat) : Nat :=
  if data i < splitKey then splitPos else if data i = splitKey then i else splitPos

/-- `findSplitKey`: the bitmap of the keys below the split key, and the
position of the split key. -/
def findSplitKey (M : Nat) (data : Nat → K) : Option ((Nat → Bool) × Nat) := do
  let splitKey ← ElementOfRankK.elementOfRankK M ((M + 1) / 2 + 1) ((List.range M).map data)
  let splitPos := (List.range M).foldl (splitPosStep data splitKey) M
  pure (fun i => decide (data i < splitKey), splitPos)

/-! ## Search -/

/-- The loop of `binarySearch<true>`, for the positions from `l` up to, but
not including, `r`; an iteration leaves fewer of them. -/
def binarySearchLoop (keys : Nat → K) (key : K) : Nat → Nat → Nat → Nat → Nat
  | 0, pos, _, _ => pos
  | fuel + 1, pos, l, r =>
      if l < r then
        let pos := (l + (r - 1)) / 2
        if keys pos = key then pos + 1
        else if keys pos < key then binarySearchLoop keys key fuel (pos + 1) (pos + 1) r
        else binarySearchLoop keys key fuel pos l pos
      else pos

/-- `binarySearch<true>` from position 0 on. -/
def binarySearch (keys : Nat → K) (num : Nat) (key : K) : Nat :=
  binarySearchLoop keys key num 0 0 num

/-- `lookupPositionInBranchNode` of the tree. -/
def FPBPTree.lookupPositionInBranchNode {C : Type} (node : Branch C K) (key : K) : Nat :=
  binarySearch node.keys node.numKeys key

end Poseidon
