import Poseidon.Store.GraphDb

/-!
# Commit, abort and garbage collection

The other half of `graph_db.cpp` and `graph_db_gc.cpp`. `commit_transaction`
visits the records in the transaction's dirty lists, relationships first,
and decides from the front of each dirty list whether the record was
inserted, updated or deleted. `abort_transaction` undoes the same records,
nodes first. Both end with `vacuum`, which frees the deleted records whose
dirty list has become empty.

The secondary indexes and the write-ahead log are not part of this model:
neither is read by anything below.
-/

namespace Poseidon

/-- `begin_transaction`. -/
def beginTransaction (xid : Nat) : DbM Unit := do
  if ((← get).txs xid).running then throw .invalidNestedTransaction
  modify (GraphDb.modifyTx xid fun _ => ⟨true, [], []⟩)
  modify fun s => { s with activeTx := xid :: s.activeTx }

/-- Run a computation on one of the property tables. -/
def Table.onProps {α β : Type} (t : Table α)
    (x : EStateM Err PropertyList β) : DbM β := fun s =>
  match x (t.props s) with
  | .ok b p => .ok b (t.setProps p s)
  | .error e p => .error e (t.setProps p s)

section Tables

variable {α : Type} (t : Table α)

/-- Change the object in a slot. -/
def Table.modifyObj (id : Nat) (f : Obj α → Obj α) (s : GraphDb) :
    GraphDb :=
  let r := t.record s id
  t.setRecord id { r with obj := f r.obj } s

/-- `copy_properties`: new records add their items to the table, updated
ones overwrite their chain. A version without properties changes nothing. -/
def Table.copyProperties (id : Nat) (dn : DirtyObject α) : DbM Unit := do
  if dn.properties.isEmpty then return
  let pl := t.propertyList (t.record (← get) id).obj.data
  let pid ← if dn.updateMode then do
      ofExcept ((t.props (← get)).foreachPropertySet pl)
      t.onProps (PropertyList.updatePitems id pl dn.properties)
    else
      t.onProps (fun p =>
        let res := p.addPitems id dn.properties
        .ok res.1 res.2)
  modify (t.modifyObj id fun o =>
    { o with data := t.setPropertyList pid o.data })

/-- `pop_front` on the dirty list, then `front()->elem_.unlock()`. -/
def Record.popUnlock (r : Record α) : Except Err (Record α) :=
  match r.dirtyList with
  | _ :: dn :: rest =>
      .ok { r with dirtyList := { dn with elem := dn.elem.unlock } :: rest }
  | _ => .error .danglingReference

/-- The common body of `commit_dirty_node` and `commit_dirty_relationship`.
What differs is the fields that are copied from the dirty version on insert
and on update, and what happens to the fields of a deleted record. -/
def Table.commitDirty (onInsert onUpdate : α → α → α) (onDelete : α → α)
    (xid : Nat) (id : Nat) : DbM Unit := do
  let r ← t.getRecord id
  -- deleted before: skip all other entries
  if r.obj.cts ≠ INF then
    modify (t.setRecord id (r.removeDirtyVersion 0))
    return
  match r.dirtyList with
  | [] => throw .transactionAbort
  | dn :: rest =>
      if !dn.updateMode then
        -- insert
        t.copyProperties id dn
        modify (t.modifyObj id fun o =>
          { o with bts := xid, cts := INF, data := onInsert o.data dn.elem.data })
        modify fun s => t.setRecord id { t.record s id with dirtyList := rest } s
      else if dn.elem.bts = dn.elem.cts then
        -- delete
        let pl := t.propertyList r.obj.data
        ofExcept ((t.props (← get)).foreachPropertySet pl)
        modify fun s => { s with garbage := s.garbage ++ [⟨xid, id, t.gcType⟩] }
        modify (t.modifyObj id fun o => { o with cts := xid })
        let _ ← ofExcept ((t.props (← get)).buildDirtyPropertyList pl)
        let r ← ofExcept (t.record (← get) id).popUnlock
        modify (t.setRecord id r)
        t.onProps (PropertyList.removeProperties pl)
        modify (t.modifyObj id fun o => { o with data := onDelete o.data })
      else
        -- update
        modify (t.modifyObj id fun o =>
          { o with bts := xid, cts := INF, data := onUpdate o.data dn.elem.data })
        t.copyProperties id dn
        let r ← ofExcept (t.record (← get) id).popUnlock
        modify (t.setRecord id r)
      modify (t.modifyObj id Obj.unlock)
      modify fun s => t.setRecord id ((t.record s id).gc s.oldestXid) s

/-- The undo of one record in `abort_transaction`: a record without an
updated version of the transaction is taken for an insert and freed. -/
def Table.abortDirty (xid : Nat) (id : Nat) : DbM Unit := do
  let r ← t.getRecord id
  let wasUpdated := r.updatedInVersion xid
  let r := r.removeDirtyVersion xid
  let r := { r with obj := r.obj.unlock }
  modify (t.setRecord id (if wasUpdated then r else { r with used := false }))

end Tables

/-- The node fields that a commit copies from the dirty version. -/
def copyNodeFields (n dn : NodeData) : NodeData :=
  { n with
    nodeLabel := dn.nodeLabel
    fromRshipList := dn.fromRshipList
    toRshipList := dn.toRshipList }

/-- `commit_dirty_node`. -/
def commitDirtyNode (xid : Nat) (id : Nat) : DbM Unit :=
  nodeTable.commitDirty copyNodeFields copyNodeFields
    (fun d => { d with propertyList := UNKNOWN }) xid id

/-- `commit_dirty_relationship`. An insert copies no field, an update only
the label; a deleted relationship keeps its property list. -/
def commitDirtyRelationship (xid : Nat) (id : Nat) : DbM Unit :=
  rshipTable.commitDirty (fun r _ => r)
    (fun r dr => { r with rshipLabel := dr.rshipLabel }) (fun d => d) xid id

/-- The loop of `vacuum` over the relationships of a node: let the one that
points at `oid` point at `newNext`. -/
def unlinkLoop (next : RshipData → Nat)
    (setNext : Nat → RshipData → RshipData) (oid newNext : Nat) :
    Nat → Nat → DbM Unit
  | 0, prevId => if prevId = UNKNOWN then pure () else throw .diverges
  | fuel + 1, prevId =>
      if prevId = UNKNOWN then pure ()
      else do
        let p ← rshipTable.getRecord prevId
        if next p.obj.data = oid then modify (modifyRship prevId (setNext newNext))
        else unlinkLoop next setNext oid newNext fuel (next p.obj.data)

/-- One of the two halves of unlinking: at the head of the list in the slot
of the node, or at the predecessor in the list. -/
def unlinkFrom (head : NodeData → Nat) (setHead : Nat → NodeData → NodeData)
    (next : RshipData → Nat) (setNext : Nat → RshipData → RshipData)
    (nid oid newNext : Nat) : DbM Unit := do
  let n ← nodeTable.getRecord nid
  if head n.obj.data = oid then
    modify (nodeTable.modifyObj nid fun o => { o with data := setHead newNext o.data })
  else
    unlinkLoop next setNext oid newNext ((← get).rships.size + 1) (head n.obj.data)

/-- Free a slot. -/
def Table.free {α : Type} (t : Table α) (id : Nat) (s : GraphDb) : GraphDb :=
  t.setRecord id { t.record s id with used := false } s

/-- One item of `vacuum`; the result says whether it was erased. -/
def vacuumItem (g : GcItem) : DbM Bool := do
  match g.itype with
  | .gcNode =>
      let n := (← nodeTable.getRecord g.oid).gc (← get).oldestXid
      modify (nodeTable.setRecord g.oid n)
      if n.hasDirtyVersions then return false
      modify (nodeTable.free g.oid)
      return true
  | .gcRship =>
      let r := (← rshipTable.getRecord g.oid).gc (← get).oldestXid
      modify (rshipTable.setRecord g.oid r)
      if r.hasDirtyVersions then return false
      let d := r.obj.data
      unlinkFrom NodeData.fromRshipList (fun h n => { n with fromRshipList := h })
        RshipData.nextSrcRship (fun h x => { x with nextSrcRship := h })
        d.srcNode g.oid d.nextSrcRship
      unlinkFrom NodeData.toRshipList (fun h n => { n with toRshipList := h })
        RshipData.nextDestRship (fun h x => { x with nextDestRship := h })
        d.destNode g.oid d.nextDestRship
      modify (rshipTable.free g.oid)
      return true

/-- The loop of `vacuum`: `kept` are the items passed over so far. -/
def vacuumLoop : List GcItem → List GcItem → DbM Unit
  | _, [] => pure ()
  | kept, g :: rest => do
      if ← vacuumItem g then
        modify fun s => { s with garbage := kept ++ rest }
        vacuumLoop kept rest
      else vacuumLoop (kept ++ [g]) rest

/-- `vacuum`. -/
def vacuum : DbM Unit := do vacuumLoop [] (← get).garbage

/-- Take a transaction out of `active_tx_` and compute `oldest_xid_`. -/
def leaveActive (xid : Nat) (s : GraphDb) : GraphDb :=
  let active := s.activeTx.filter (· ≠ xid)
  { s with activeTx := active, oldestXid := active.min?.getD xid }

/-- `commit_transaction`. -/
def commitTransaction (xid : Nat) : DbM Bool := do
  checkTxContext xid
  modify (leaveActive xid)
  ((← get).txs xid).dirtyRships.forM (commitDirtyRelationship xid)
  ((← get).txs xid).dirtyNodes.forM (commitDirtyNode xid)
  modify (GraphDb.modifyTx xid fun t => { t with running := false })
  vacuum
  return true

/-- `abort_transaction`. -/
def abortTransaction (xid : Nat) : DbM Bool := do
  if !((← get).txs xid).running then return false
  modify (leaveActive xid)
  ((← get).txs xid).dirtyNodes.forM (nodeTable.abortDirty xid)
  ((← get).txs xid).dirtyRships.forM (rshipTable.abortDirty xid)
  vacuum
  modify (GraphDb.modifyTx xid fun t => { t with running := false })
  return true

end Poseidon
