import Poseidon.Query.Ctx

/-!
# Transactions as steps of one system

Any number of transactions run on one store. A step is one call of one
transaction, taken as a whole; a run is a list of steps in the order they
happen. A step that ends in an exception still counts: it keeps what it had
changed, and the transaction goes on.

A client may keep the references it was given and write through them later,
so the system remembers them, and which read gave them out: `node_by_id` and
`rship_by_id` record the read in the record, the scans do not.
-/

namespace Poseidon

/-- One call of a transaction. The slot of an insert is the one the record
vector hands out. -/
inductive Step where
  | begin (xid : Nat)
  | nodeById (xid : Nat) (id : Nat)
  | rshipById (xid : Nat) (id : Nat)
  | scanNodes (xid : Nat)
  | scanRships (xid : Nat) (lc : Nat)
  | addNode (xid : Nat) (slot : Nat) (label : Nat) (props : Properties)
  | addRelationship (xid : Nat) (slot fromId toId : Nat) (label : Nat)
      (props : Properties)
  | updateNode (xid : Nat) (n : Ref) (props : Properties) (lc : Nat)
  | updateRelationship (xid : Nat) (n : Ref) (props : Properties) (lc : Nat)
  | deleteNode (xid : Nat) (id : Nat)
  | detachDeleteNode (xid : Nat) (id : Nat)
  | deleteRelationship (xid : Nat) (id : Nat)
  | commit (xid : Nat)
  | abort (xid : Nat)

/-- The transaction that makes a step. -/
def Step.xid : Step → Nat
  | .begin x | .nodeById x _ | .rshipById x _ | .scanNodes x
  | .scanRships x _ | .addNode x .. | .addRelationship x ..
  | .updateNode x .. | .updateRelationship x .. | .deleteNode x _
  | .detachDeleteNode x _ | .deleteRelationship x _ | .commit x
  | .abort x => x

/-- What a step returns to its caller. -/
inductive Reply where
  | done
  | ref (n : Ref)
  | scan (sc : Scan)
  | finished (b : Bool)
  deriving DecidableEq, Repr

/-- The store with what its clients hold: the transaction ids given out so
far, the references from `node_by_id` and `rship_by_id`, and those from
scans. -/
structure Sys where
  db : GraphDb
  begun : List Nat
  nodeRefs : List (Nat × Ref)
  rshipRefs : List (Nat × Ref)
  scanNodeRefs : List (Nat × Ref)
  scanRshipRefs : List (Nat × Ref)

/-- A new database without clients. -/
def Sys.initial : Sys := ⟨GraphDb.initial, [], [], [], [], []⟩

/-- Run a call, and let the client remember its result. -/
def Sys.call {β : Type} (s : Sys) (x : DbM β) (reply : β → Reply)
    (keep : β → Sys → Sys) : Except Err Reply × Sys :=
  match x s.db with
  | .ok b db => (.ok (reply b), keep b { s with db := db })
  | .error e db => (.error e, { s with db := db })

/-- A scan inside a transaction: the store does not change. -/
def runScan (xid : Nat) (f : GraphDb → Scan) : DbM Scan := do
  checkTxContext xid
  return f (← get)

/-- The step function: the reply of the call and the system after it. A
transaction id is given out once and lies strictly between `0`, the value of
a free lock, and `INF`; a write needs a reference the client was given. -/
def Sys.exec (s : Sys) : Step → Except Err Reply × Sys
  | .begin xid =>
      if xid = 0 ∨ INF ≤ xid ∨ xid ∈ s.begun then
        (.error .invalidNestedTransaction, s)
      else s.call (beginTransaction xid) (fun _ => .done)
        fun _ s => { s with begun := xid :: s.begun }
  | .nodeById xid id =>
      s.call (Poseidon.nodeById xid id) .ref
        fun n s => { s with nodeRefs := (xid, n) :: s.nodeRefs }
  | .rshipById xid id =>
      s.call (Poseidon.rshipById xid id) .ref
        fun n s => { s with rshipRefs := (xid, n) :: s.rshipRefs }
  | .scanNodes xid =>
      s.call (runScan xid (Poseidon.scanNodes · xid)) .scan
        fun sc s => { s with
          scanNodeRefs := sc.delivered.map (xid, ·) ++ s.scanNodeRefs }
  | .scanRships xid lc =>
      s.call (runScan xid (relationshipsByLabel · xid lc)) .scan
        fun sc s => { s with
          scanRshipRefs := sc.delivered.map (xid, ·) ++ s.scanRshipRefs }
  | .addNode xid slot label props =>
      s.call (Poseidon.addNode xid slot label props.items) (fun _ => .done)
        fun _ s => s
  | .addRelationship xid slot fromId toId label props =>
      s.call (Poseidon.addRelationship xid slot fromId toId label props.items)
        (fun _ => .done) fun _ s => s
  | .updateNode xid n props lc =>
      if (xid, n) ∈ s.nodeRefs ∨ (xid, n) ∈ s.scanNodeRefs then
        s.call (Poseidon.updateNode xid n props.items lc) (fun _ => .done)
          fun _ s => s
      else (.error .danglingReference, s)
  | .updateRelationship xid n props lc =>
      if (xid, n) ∈ s.rshipRefs ∨ (xid, n) ∈ s.scanRshipRefs then
        s.call (Poseidon.updateRelationship xid n props.items lc) (fun _ => .done)
          fun _ s => s
      else (.error .danglingReference, s)
  | .deleteNode xid id =>
      s.call (Poseidon.deleteNode xid id) (fun _ => .done) fun _ s => s
  | .detachDeleteNode xid id =>
      s.call (Poseidon.detachDeleteNode xid id) (fun _ => .done) fun _ s => s
  | .deleteRelationship xid id =>
      s.call (Poseidon.deleteRelationship xid id) (fun _ => .done) fun _ s => s
  | .commit xid => s.call (commitTransaction xid) .finished fun _ s => s
  | .abort xid => s.call (abortTransaction xid) .finished fun _ s => s

/-- The system after a step. -/
def Sys.step (s : Sys) (a : Step) : Sys := (s.exec a).2

/-- The system after a run. -/
def Sys.run (s : Sys) (as : List Step) : Sys := as.foldl Sys.step s

theorem Sys.run_append (s : Sys) (as bs : List Step) :
    s.run (as ++ bs) = (s.run as).run bs := List.foldl_append

end Poseidon
