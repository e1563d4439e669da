import Mathlib.Data.Nat.Basic
import Poseidon.Lib.OrdMap
import Poseidon.Store.Basic

/-!
# Updating a CSR with deltas

The CSR of the graph is in three arrays: the offsets of the rows, and for each
edge the neighbour and the value. `host_csr_update_with_delta` makes new arrays
from those of the delta store and the adjacency lists of the updated nodes, in
the variant `ADJ_DELTA`. First it counts how much longer the new arrays are,
to reserve memory; then it goes through the nodes in the order of their ids.

The counters are of type `int`. A sum that is outside of their range is
undefined, like a position outside of an array; a size is converted modulo
`2 ^ 32`, and to `uint64_t` modulo `2 ^ 64`.
-/

namespace Poseidon

/-- How the update ends otherwise. -/
inductive CsrErr where
  | undefined
  | lengthError
  deriving DecidableEq, Repr

/-- `csr_arrays`, with values of type `φ`. -/
structure CsrArrays (φ : Type) where
  rowOffsets : List Nat
  colIndices : List Nat
  edgeValues : List φ
  deriving DecidableEq, Repr

/-- `delta`, with weights of type `δ`: `merge_deltas` copies as many weights as
ids. -/
structure Delta (δ : Type) where
  ids : List Nat
  weights : List δ
  aligned : ids.length = weights.length

namespace Csr

variable {α φ δ : Type}

/-- `v[i]`. -/
def elem (v : List α) (i : Nat) : Except CsrErr α :=
  match v[i]? with
  | some x => .ok x
  | none => .error .undefined

/-- The elements from one iterator to another. -/
def copyRange (v : List α) (beg last : Nat) : Except CsrErr (List α) :=
  if beg ≤ last ∧ last ≤ v.length then .ok ((v.drop beg).take (last - beg)) else .error .undefined

/-! ## Reserving memory -/

/-- A conversion to `int`. -/
def toInt (n : Int) : Int := n.bmod (2 ^ 32)

/-- The numbers of type `int`. -/
def IsInt (n : Int) : Prop := -2 ^ 31 ≤ n ∧ n < 2 ^ 31

instance (n : Int) : Decidable (IsInt n) := inferInstanceAs (Decidable (_ ∧ _))

/-- The result of an operation on numbers of type `int`. -/
def checkInt (n : Int) : Except CsrErr Int := if IsInt n then .ok n else .error .undefined

/-- `max_size` of a vector whose elements have this size. -/
def maxSize (bytes : Nat) : Nat := (2 ^ 63 - 1) / bytes

/-- `reserve`, for a sum that is converted to `uint64_t`. -/
def reserve (bytes : Nat) (n : Int) : Except CsrErr Unit :=
  if n % 2 ^ 64 ≤ maxSize bytes then .ok () else .error .lengthError

/-- The loop over the updated nodes that adds up the differences. -/
def edgeDiff (old : CsrArrays φ) : List (Nat × Delta δ) → Int → Except CsrErr Int
  | [], sum => .ok sum
  | (nid, delta) :: ds, sum => do
      let last ← elem old.rowOffsets (nid + 1)
      let beg ← elem old.rowOffsets nid
      let diff ← checkInt (toInt delta.ids.length - toInt (last - beg : Nat))
      let sum ← checkInt (sum + diff)
      edgeDiff old ds sum

/-- The loop over the new nodes that counts them and their edges. -/
def newCounts : List (Nat × Delta δ) → Int → Int → Except CsrErr (Int × Int)
  | [], numNewNodes, numNewEdges => .ok (numNewNodes, numNewEdges)
  | (_, delta) :: ds, numNewNodes, numNewEdges => do
      let numNewNodes ← checkInt (numNewNodes + 1)
      newCounts ds numNewNodes (toInt (numNewEdges + delta.ids.length))

/-! ## The new arrays -/

/-- `new_row_offs.back()`. -/
def back (v : List Nat) : Nat := v.getLastD 0

/-- One more row. -/
def pushRow (csr : CsrArrays φ) (ids : List Nat) (vals : List φ) : CsrArrays φ where
  rowOffsets := csr.rowOffsets ++ [back csr.rowOffsets + ids.length]
  colIndices := csr.colIndices ++ ids
  edgeValues := csr.edgeValues ++ vals

/-- The loop that copies `n` rows from `nextNid` on. The offsets do not
decrease. -/
def copyRows (old : CsrArrays φ) : Nat → Nat → CsrArrays φ → Except CsrErr (CsrArrays φ)
  | 0, _, csr => .ok csr
  | n + 1, nextNid, csr => do
      let last ← elem old.rowOffsets (nextNid + 1)
      let beg ← elem old.rowOffsets nextNid
      let ids ← copyRange old.colIndices beg last
      let vals ← copyRange old.edgeValues beg last
      copyRows old n (nextNid + 1) (pushRow csr ids vals)

/-- The loop over the updated nodes; `narrow` converts a weight of type `double`
to a value of type `float`. -/
def updateRows (narrow : δ → φ) (old : CsrArrays φ) :
    List (Nat × Delta δ) → Nat → CsrArrays φ → Except CsrErr (Nat × CsrArrays φ)
  | [], nextNid, csr => .ok (nextNid, csr)
  | (nid, delta) :: ds, nextNid, csr => do
      let csr ← copyRows old (nid - nextNid) nextNid csr
      updateRows narrow old ds (max nextNid nid + 1)
        (pushRow csr delta.ids (delta.weights.map narrow))

/-- The loop that copies the offsets of `n` rows from `nextNid` on. -/
def copyOffsets (old : List Nat) : Nat → Nat → List Nat → Except CsrErr (List Nat)
  | 0, _, offs => .ok offs
  | n + 1, nextNid, offs => do
      let last ← elem old (nextNid + 1)
      let beg ← elem old nextNid
      copyOffsets old n (nextNid + 1) (offs ++ [back offs + (last - beg)])

/-- The loop over the new nodes. Slots between them that are not in use have
empty rows. -/
def appendRows (narrow : δ → φ) : List (Nat × Delta δ) → Nat → CsrArrays φ → CsrArrays φ
  | [], _, csr => csr
  | (nid, delta) :: ds, nextNid, csr =>
      let gap := List.replicate (nid - nextNid) (back csr.rowOffsets)
      appendRows narrow ds (max nextNid nid + 1)
        (pushRow { csr with rowOffsets := csr.rowOffsets ++ gap } delta.ids
          (delta.weights.map narrow))

/-- `last_node_id_`, which is set whenever the arrays are: two less than the
number of offsets, as a `uint64_t`. -/
def lastNodeId (csr : CsrArrays φ) : Nat :=
  if 2 ≤ csr.rowOffsets.length then csr.rowOffsets.length - 2
  else 2 ^ 64 + csr.rowOffsets.length - 2

/-- `host_csr_update_with_delta`, after the deltas have been merged into a map
that is not empty. The new arrays are appended to those of the caller, and
become the arrays of the delta store. -/
def updateWithDelta (narrow : δ → φ) (old : CsrArrays φ) (deltas : OrdMap Nat (Delta δ))
    (csr : CsrArrays φ) : Except CsrErr (CsrArrays φ) := do
  let lnid := lastNodeId old
  let updated := deltas.upTo lnid
  let appended := deltas.beyond lnid
  let sum ← edgeDiff old updated 0
  let (numNewNodes, numNewEdges) ← newCounts appended 0 0
  reserve 8 (old.rowOffsets.length + numNewNodes)
  reserve 8 (old.colIndices.length + sum + numNewEdges)
  reserve 4 (old.colIndices.length + sum + numNewEdges)
  let (nextNid, csr) ←
    updateRows narrow old updated 0 { csr with rowOffsets := csr.rowOffsets ++ [0] }
  let beg ← elem old.rowOffsets nextNid
  let ids ← copyRange old.colIndices beg old.colIndices.length
  let vals ← copyRange old.edgeValues beg old.edgeValues.length
  let nodes := old.rowOffsets.length - 1
  let offs ← copyOffsets old.rowOffsets (nodes - nextNid) nextNid csr.rowOffsets
  .ok (appendRows narrow appended (max nextNid nodes)
    ⟨offs, csr.colIndices ++ ids, csr.edgeValues ++ vals⟩)

end Csr

/-!
## The delta store

`csr_delta.cpp` in the variant `ADJ_DELTA`, and what the CSR functions of
`graph_db_analytics.cpp` do with the store. A transaction that commits stores
a record with the new adjacency list of each node it has updated. A
transaction that wants the CSR merges the records it may see into one list for
each node; a record that is not needed any more is marked or, with all others,
deleted.

The vector of the records is only appended to and cleared, and an iteration
visits its records in the order in which they were stored.
-/

/-- `delta_rec`. -/
structure DeltaRec where
  txid : Nat
  nodeId : Nat
  pos : Nat
  count : Int
  merged : Bool
  deriving DecidableEq, Repr

/-- `delta_store`, without the arrays of the current CSR. -/
structure DeltaStore (δ : Type) where
  lastTxnId : Nat
  ids : List Nat
  weights : List δ
  nextPos : Nat
  deltaRecs : List DeltaRec

/-- What `merge_deltas` keeps while it goes through the records: its local
variables and the map of deltas. -/
structure Merge (δ : Type) where
  clear : Bool
  nidToTxid : OrdMap Nat Nat
  deltas : OrdMap Nat (Delta δ)

namespace DeltaStore

variable {δ : Type}

/-- A new store. -/
def initial : DeltaStore δ := ⟨UNKNOWN, [], [], 0, []⟩

/-- `store_delta`. The size of the list becomes an `int`. -/
def storeDelta (s : DeltaStore δ) (txid nid : Nat) (d : Delta δ) : DeltaStore δ :=
  { s with
    nextPos := s.nextPos + d.ids.length
    ids := s.ids ++ d.ids
    weights := s.weights ++ d.weights
    deltaRecs := s.deltaRecs ++ [⟨txid, nid, s.nextPos, Csr.toInt d.ids.length, false⟩] }

/-- `clear_deltas`. -/
def clearDeltas (s : DeltaStore δ) : DeltaStore δ := { s with deltaRecs := [] }

/-- The range of a record lies in both vectors. -/
def InRange (s : DeltaStore δ) (rec : DeltaRec) : Prop :=
  0 ≤ rec.count ∧ rec.pos + rec.count.toNat ≤ s.ids.length ∧
    rec.pos + rec.count.toNat ≤ s.weights.length

instance (s : DeltaStore δ) (rec : DeltaRec) : Decidable (s.InRange rec) :=
  inferInstanceAs (Decidable (_ ∧ _ ∧ _))

theorem length_slice {α : Type} {v : List α} {pos n : Nat} (h : pos + n ≤ v.length) :
    ((v.drop pos).take n).length = n := by
  rw [List.length_take, List.length_drop]
  omega

theorem aligned_slice {s : DeltaStore δ} {rec : DeltaRec} (h : s.InRange rec) :
    ((s.ids.drop rec.pos).take rec.count.toNat).length =
      ((s.weights.drop rec.pos).take rec.count.toNat).length := by
  rw [length_slice h.2.1, length_slice h.2.2]

/-- The ids and weights of a record, from `pos_` to `pos_ + count_`. -/
def slice (s : DeltaStore δ) (rec : DeltaRec) : Except CsrErr (Delta δ) :=
  if h : s.InRange rec then
    .ok ⟨(s.ids.drop rec.pos).take rec.count.toNat, (s.weights.drop rec.pos).take rec.count.toNat,
      aligned_slice h⟩
  else .error .undefined

/-- The first and the second case of `merge_deltas` for a record that is to be
merged: its lists become those of the node. -/
def takeRec (s : DeltaStore δ) (m : Merge δ) (rec : DeltaRec) :
    Except CsrErr (Merge δ × DeltaRec) := do
  let d ← s.slice rec
  .ok ({ m with
    nidToTxid := m.nidToTxid.insert rec.nodeId rec.txid
    deltas := m.deltas.insert rec.nodeId d }, { rec with merged := true })

/-- The body of the loop of `merge_deltas`. -/
def mergeRec (s : DeltaStore δ) (txid : Nat) (m : Merge δ) (rec : DeltaRec) :
    Except CsrErr (Merge δ × DeltaRec) :=
  if txid < rec.txid then .ok ({ m with clear := false }, rec)
  else if rec.txid < s.lastTxnId ∧ rec.merged = true then .ok (m, rec)
  else match m.nidToTxid.lookup rec.nodeId with
    | none => s.takeRec m rec
    | some t =>
        if t < rec.txid then s.takeRec m rec
        else .ok (m, rec)

/-- The loop of `merge_deltas`, with the records after it. -/
def mergeLoop (s : DeltaStore δ) (txid : Nat) :
    List DeltaRec → Merge δ → Except CsrErr (Merge δ × List DeltaRec)
  | [], m => .ok (m, [])
  | rec :: recs, m => do
      let (m, rec) ← s.mergeRec txid m rec
      let (m, recs) ← mergeLoop s txid recs m
      .ok (m, rec :: recs)

/-- `merge_deltas`, with a map that is empty at the start. -/
def mergeDeltas (s : DeltaStore δ) (txid : Nat) :
    Except CsrErr (OrdMap Nat (Delta δ) × DeltaStore δ) := do
  let (m, recs) ← s.mergeLoop txid s.deltaRecs ⟨true, OrdMap.empty, OrdMap.empty⟩
  let s := { s with deltaRecs := recs }
  .ok (m.deltas, if m.clear then s.clearDeltas else s)

/-- What `host_csr_build` does with the store. -/
def afterBuild (s : DeltaStore δ) (txid : Nat) : DeltaStore δ :=
  let s := { s with
    lastTxnId := txid
    deltaRecs := s.deltaRecs.map fun rec =>
      if rec.txid < txid then { rec with merged := true } else rec }
  if s.deltaRecs.any fun rec => txid < rec.txid then s else s.clearDeltas

/-- How `host_csr_update_with_delta` gets a CSR: it builds one from the graph,
throws `invalid_csr_update`, or updates the current one with these deltas. -/
inductive CsrUpdate (δ : Type) where
  | built
  | invalid
  | merged (deltas : OrdMap Nat (Delta δ))

/-- What `host_csr_update_with_delta` does with the store. -/
def updateWithDelta (s : DeltaStore δ) (txid : Nat) :
    Except CsrErr (CsrUpdate δ × DeltaStore δ) :=
  if s.lastTxnId = UNKNOWN then .ok (.built, s.afterBuild txid)
  else if txid < s.lastTxnId then .ok (.invalid, s)
  else do
    let (deltas, s) ← s.mergeDeltas txid
    if deltas.entries = [] then .ok (.merged deltas, s)
    else .ok (.merged deltas, { s with lastTxnId := txid })

end DeltaStore

end Poseidon
