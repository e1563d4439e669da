import Poseidon.Store.Commit

/-!
# The query context

`query_ctx.cpp`, the read paths that do not go through `node_by_id`: the
table scans, which call `get_valid_node_version` directly and so leave the
read timestamp alone, the walks over a node's relationships, and the
property reads. `variableValue` is the variable case of the expression
interpreter.

A consumer only collects what it is given; a scan that ends in an exception
has delivered the references before it, which is why the scans return both.
-/

namespace Poseidon

/-- What a scan delivered, and the exception that ended it, if any. -/
structure Scan where
  delivered : List Ref
  ended : Option Err
  deriving DecidableEq, Repr

section Tables

variable {α : Type} (t : Table α)

/-- The loop the scans share. `skip` says which exceptions of
`get_valid_*_version` the scan ignores, `pre` whether a slot is looked at,
and `want` which versions are delivered. -/
def Table.scanLoop (s : GraphDb) (xid : Nat) (pre : Obj α → Bool)
    (skip : Err → Bool) (want : Obj α → Bool) : List Nat → Scan
  | [] => ⟨[], none⟩
  | id :: rest =>
      let r := t.record s id
      if !pre r.obj then Table.scanLoop s xid pre skip want rest
      else match r.getValidVersion xid with
        | .error e =>
            if skip e then Table.scanLoop s xid pre skip want rest
            else ⟨[], some e⟩
        | .ok l =>
            match r.deref l with
            | none => ⟨[], some .danglingReference⟩
            | some o =>
                let tail := Table.scanLoop s xid pre skip want rest
                if want o then { tail with delivered := ⟨id, l⟩ :: tail.delivered }
                else tail

end Tables

/-- Nodes per chunk of `nodes_`, `(65536 - 128) / 80`. -/
def nodesPerChunk : Nat := 817

/-- Relationships per chunk of `rships_`, `(65536 - 128) / 96`. -/
def rshipsPerChunk : Nat := 681

/-- `nodes`: the one scan that ignores `unknown_id`. -/
def scanNodes (s : GraphDb) (xid : Nat) : Scan :=
  nodeTable.scanLoop s xid Obj.isValid (· == .unknownId) (fun _ => true)
    (s.nodes.iterate nodesPerChunk)

/-- `nodes_by_label` for one label. -/
def nodesByLabel (s : GraphDb) (xid : Nat) (lc : Nat) : Scan :=
  nodeTable.scanLoop s xid Obj.isValid (fun _ => false)
    (fun o => o.data.nodeLabel == lc) (s.nodes.iterate nodesPerChunk)

/-- `nodes_by_label` for several labels. -/
def nodesByLabels (s : GraphDb) (xid : Nat) (codes : List Nat) : Scan :=
  nodeTable.scanLoop s xid Obj.isValid (fun _ => false)
    (fun o => codes.contains o.data.nodeLabel) (s.nodes.iterate nodesPerChunk)

/-- `relationships_by_label` for one label: no look at the slot first. -/
def relationshipsByLabel (s : GraphDb) (xid : Nat) (lc : Nat) : Scan :=
  rshipTable.scanLoop s xid (fun _ => true) (fun _ => false)
    (fun o => o.data.rshipLabel == lc) (s.rships.iterate rshipsPerChunk)

/-- `relationships_by_label` for several labels. -/
def relationshipsByLabels (s : GraphDb) (xid : Nat) (codes : List Nat) :
    Scan :=
  rshipTable.scanLoop s xid Obj.isValid (fun _ => false)
    (fun o => codes.contains o.data.rshipLabel) (s.rships.iterate rshipsPerChunk)

/-- `node_scan_task::scan` over a range of chunks. -/
def nodeScanTask (s : GraphDb) (xid : Nat) (first last : Nat) : Scan :=
  nodeTable.scanLoop s xid Obj.isValid (fun _ => false) (fun _ => true)
    (s.nodes.range nodesPerChunk first last)

/-- `node_scan_task_with_label::scan` over a range of chunks. -/
def nodeScanTaskWithLabel (s : GraphDb) (xid : Nat) (lc : Nat)
    (first last : Nat) : Scan :=
  nodeTable.scanLoop s xid Obj.isValid (fun _ => false)
    (fun o => o.data.nodeLabel == lc) (s.nodes.range nodesPerChunk first last)

/-- `rship_scan_task::scan` over a range of chunks. -/
def rshipScanTask (s : GraphDb) (xid : Nat) (first last : Nat) : Scan :=
  rshipTable.scanLoop s xid Obj.isValid (fun _ => false) (fun _ => true)
    (s.rships.range rshipsPerChunk first last)

/-- `rship_scan_task_with_label::scan` over a range of chunks. -/
def rshipScanTaskWithLabel (s : GraphDb) (xid : Nat) (lc : Nat)
    (first last : Nat) : Scan :=
  rshipTable.scanLoop s xid Obj.isValid (fun _ => false)
    (fun o => o.data.rshipLabel == lc) (s.rships.range rshipsPerChunk first last)

/-- The tasks of a parallel scan, one for each range of chunks: what they
deliver together, and the exception that the first failed task hands to the
waiting thread. -/
def parallelScan (task : Nat → Nat → Scan) (ranges : List (Nat × Nat)) : Scan :=
  let scans := ranges.map fun r => task r.1 r.2
  ⟨scans.flatMap Scan.delivered, scans.findSome? Scan.ended⟩

/-- The loop of `foreach_from_relationship_of_node` and
`foreach_to_relationship_of_node`: `want` is the test before the consumer is
called, `next` the pointer followed in the version that was read. -/
def foreachRelationship (xid : Nat) (want : Obj RshipData → Bool)
    (next : RshipData → Nat) : Nat → Nat → DbM (List Ref)
  | 0, rid => if rid = UNKNOWN then pure [] else throw .diverges
  | fuel + 1, rid =>
      if rid = UNKNOWN then pure []
      else do
        let n ← rshipById xid rid
        let o ← rshipTable.read n
        let rest ← foreachRelationship xid want next fuel (next o.data)
        return if want o then n :: rest else rest

/-- `foreach_from_relationship_of_node(n, consumer)`. -/
def foreachFromRelationshipOfNode (xid : Nat) (n : NodeData) :
    DbM (List Ref) := do
  foreachRelationship xid Obj.isValid RshipData.nextSrcRship
    ((← get).rships.size + 1) n.fromRshipList

/-- `foreach_to_relationship_of_node(n, consumer)`. -/
def foreachToRelationshipOfNode (xid : Nat) (n : NodeData) :
    DbM (List Ref) := do
  foreachRelationship xid Obj.isValid RshipData.nextDestRship
    ((← get).rships.size + 1) n.toRshipList

/-- `foreach_from_relationship_of_node(n, lcode, consumer)`. -/
def foreachFromRelationshipOfNodeWithLabel (xid : Nat) (n : NodeData)
    (lcode : Nat) : DbM (List Ref) := do
  foreachRelationship xid (fun o => o.data.rshipLabel == lcode)
    RshipData.nextSrcRship ((← get).rships.size + 1) n.fromRshipList

/-- `foreach_to_relationship_of_node(n, lcode, consumer)`. -/
def foreachToRelationshipOfNodeWithLabel (xid : Nat) (n : NodeData)
    (lcode : Nat) : DbM (List Ref) := do
  foreachRelationship xid (fun o => o.data.rshipLabel == lcode)
    RshipData.nextDestRship ((← get).rships.size + 1) n.toRshipList

/-- `get_property_value` of a node or relationship: the property table, at
the chain of the object it is given. -/
def Table.getPropertyValue {α : Type} (t : Table α) (s : GraphDb) (o : Obj α)
    (pcode : Nat) : Except Err PItem :=
  (t.props s).propertyValue (t.propertyList o.data) pcode

/-- `get_valid_node_property_value` and `get_valid_rship_property_value`: the
table, unless the record has dirty versions. The result `none` is the
`p_item res` that no assignment reached. -/
def Table.getValidPropertyValue {α : Type} (t : Table α) (s : GraphDb)
    (xid : Nat) (n : Ref) (pcode : Nat) : Except Err (Option PItem) :=
  let r := t.record s n.id
  match r.deref n.loc with
  | none => .error .danglingReference
  | some o =>
      if !r.hasDirtyVersions then (t.getPropertyValue s o pcode).map some
      else (r.findValidVersion xid).map fun dn => lookupItem dn.properties pcode

/-- `is_node_property`: the value handed to the predicate, `none` when the
value is empty and the predicate is not called. -/
def isNodePropertyValue (s : GraphDb) (n : Ref) (pcode : Nat) :
    Except Err (Option PItem) :=
  match (nodeTable.record s n.id).deref n.loc with
  | none => .error .danglingReference
  | some o => (s.nodeProperties.propertyValue o.data.propertyList pcode).map
      fun v => if v.empty then none else some v

/-- `is_relationship_property`: the table is read at the slot number of the
relationship. -/
def isRelationshipPropertyValue (s : GraphDb) (n : Ref) (pcode : Nat) :
    Except Err (Option PItem) :=
  match (rshipTable.record s n.id).deref n.loc with
  | none => .error .danglingReference
  | some o => (s.rshipProperties.propertyValue o.data.id pcode).map
      fun v => if v.empty then none else some v

/-- `expr_eval_visitor::visit(variable)` for a node or relationship and a
property: the value pushed on the stack, `none` when nothing is pushed. -/
def Table.variableValue {α : Type} (t : Table α) (s : GraphDb) (n : Ref)
    (pcode : Nat) : Except Err (Option PItem) :=
  match (t.record s n.id).deref n.loc with
  | none => .error .danglingReference
  | some o => (t.getPropertyValue s o pcode).map fun v =>
      match v.typecode with
      | .unused | .none => none
      | _ => some v

end Poseidon
