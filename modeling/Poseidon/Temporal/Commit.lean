import Poseidon.Temporal.Versions

/-!
# Commit, abort, collection and archival tasks

The transactional half of the temporal `graph_db.cpp`, and
`graph_db_gc.cpp`. A commit publishes the versions a transaction has made
and keeps a first history record for those without a predecessor; a commit
of a delete archives the deleted version. An abort undoes a record by its
begin timestamp: one that carries the id of the transaction is freed, every
other one is taken for a predecessor and opened again.

The queue of archival tasks is part of the state. A worker of the thread pool
takes one task and runs it; an exception ends up in a future that nobody
asks for.
-/

namespace Poseidon.Temporal

/-- `begin_transaction`. -/
def beginTransaction (xid : Nat) : DbM Unit := do
  if ((← get).txs xid).running then throw .invalidNestedTransaction
  modify (GraphDb.modifyTx xid fun _ => ⟨true, [], []⟩)
  modify fun s => { s with activeTx := xid :: s.activeTx }

section Tables

variable {ε δ γ : Type} (t : Table ε δ γ)

/-- `copy_properties`. -/
def Table.copyProperties (id : Nat) (dn : DirtyObject (Versioned ε)) : DbM Unit := do
  if dn.properties.isEmpty then return
  let pl := (t.record (← get) id).obj.data.propertyList
  let pid ← if dn.updateMode then do
      ofExcept ((t.side (← get)).props.foreachPropertySet pl)
      t.onProps (PropertyList.updatePitems id pl dn.properties)
    else t.addPitems id dn.properties
  modify (t.modifyData id fun d => { d with propertyList := pid })

/-- The fields that every commit copies from the dirty version. -/
def Table.handOver (id : Nat) (dn : DirtyObject (Versioned ε)) : DbM Unit := do
  modify (t.modifyData id fun d => { d with
    prevVersion := dn.elem.data.prevVersion
    updateCount := dn.elem.data.updateCount })

/-- Set the timestamps of the record in a slot. -/
def Table.setTimestamps (id bts cts : Nat) : GraphDb → GraphDb :=
  t.modifyObj id fun o => { o with bts := bts, cts := cts }

/-- `pop_front` on the dirty list. -/
def Table.popFront (id : Nat) (s : GraphDb) : GraphDb :=
  t.setRecord id { t.record s id with dirtyList := (t.record s id).dirtyList.tail } s

/-- `pop_front`, then `front()->elem_.unlock()`. -/
def Table.popUnlock (id : Nat) : DbM Unit := do
  let r ← ofExcept (t.record (← get) id).popUnlock
  modify (t.setRecord id r)

/-- The end of a commit: unlock the record and collect its versions. -/
def Table.finishCommit (id : Nat) : DbM Unit := do
  modify (t.modifyObj id Obj.unlock)
  modify fun s => t.setRecord id ((t.record s id).gc s.oldestXid) s

/-- The common frame of `commit_dirty_node` and `commit_dirty_relationship`:
an ended record drops its versions, and one without versions is passed
over. -/
def Table.commitDirty (onInsert onDelete onUpdate : DirtyObject (Versioned ε) → DbM Unit)
    (id : Nat) : DbM Unit := do
  let r ← t.getRecord id
  if r.obj.cts ≠ INF then
    modify (t.setRecord id (r.removeDirtyVersion 0))
  else match r.dirtyList with
    | [] => pure ()
    | dn :: _ =>
        if !dn.updateMode then onInsert dn
        else if dn.elem.bts = dn.elem.cts then onDelete dn
        else onUpdate dn
        t.finishCommit id

end Tables

/-! ## Nodes -/

/-- The first history record of a node without a predecessor. It is not
entered in the index. -/
def archiveBaseNode (xid id : Nat) : DbM Unit := do
  let d := (nodeTable.record (← get) id).obj.data
  if d.prevVersion = UNKNOWN then
    let rawId ← nodeTable.appendDelta ⟨d.logicalId, d.label, d.vtStart, d.vtEnd,
      d.propertyList, 0, UNKNOWN, xid, MAX_TIME, d.links⟩
    modify (nodeTable.setLastDelta d.logicalId (encodeHistoryId rawId))

/-- The insert branch of `commit_dirty_node`. -/
def commitInsertNode (xid id : Nat) (dn : DirtyObject (Versioned NodeLinks)) : DbM Unit := do
  nodeTable.copyProperties id dn
  modify (nodeTable.modifyData id fun d => { d with
    label := dn.elem.data.label, links := dn.elem.data.links })
  modify (nodeTable.setTimestamps id xid INF)
  nodeTable.handOver id dn
  archiveBaseNode xid id
  modify (nodeTable.popFront id)

/-- The loops that take the relationships of a deleted node apart. -/
def detachLoop (next : RshipLinks → Nat) (setNext : Nat → RshipLinks → RshipLinks) :
    Nat → Nat → DbM Unit
  | 0, rid => if rid = UNKNOWN then pure () else throw .diverges
  | fuel + 1, rid =>
      if rid = UNKNOWN then pure ()
      else do
        let r ← rshipTable.getRecord rid
        modify (modifyRshipLinks rid (setNext UNKNOWN))
        detachLoop next setNext fuel (next r.obj.data.links)

/-- The delete branch of `commit_dirty_node`. The deletion time is the start
of the valid time in the deleted version. -/
def commitDeleteNode (xid id : Nat) (dn : DirtyObject (Versioned NodeLinks)) : DbM Unit := do
  let d := (nodeTable.record (← get) id).obj.data
  ofExcept ((← get).nodes.props.foreachPropertySet d.propertyList)
  modify fun s => { s with garbage := s.garbage ++ [⟨xid, id, .gcNode⟩] }
  modify (nodeTable.modifyObj id fun o => { o with cts := xid })
  modify (nodeTable.eraseCurrent d.logicalId)
  let deleteVt := dn.elem.data.vtStart
  modify (nodeTable.modifyData id fun d => { d with vtEnd := deleteVt })
  let d := (nodeTable.record (← get) id).obj.data
  let _ ← archiveNodeDelta xid d [] deleteVt d.label
  let _ ← ofExcept ((← get).nodes.props.buildDirtyPropertyList d.propertyList)
  modify (nodeTable.modifyData id fun d => { d with
    links := { d.links with fromRshipList := UNKNOWN } })
  detachLoop RshipLinks.nextSrcRship (fun h l => { l with nextSrcRship := h })
    ((← get).rships.vec.size + 1) d.links.fromRshipList
  modify (nodeTable.modifyData id fun d => { d with
    links := { d.links with toRshipList := UNKNOWN } })
  detachLoop RshipLinks.nextDestRship (fun h l => { l with nextDestRship := h })
    ((← get).rships.vec.size + 1) d.links.toRshipList
  nodeTable.popUnlock id
  nodeTable.onProps (PropertyList.removeProperties d.propertyList)
  modify (nodeTable.modifyData id fun d => { d with propertyList := UNKNOWN })

/-- The update branch of `commit_dirty_node`. The old property list is
removed after the new properties have been written over it. -/
def commitUpdateNode (xid id : Nat) (dn : DirtyObject (Versioned NodeLinks)) : DbM Unit := do
  modify (nodeTable.modifyData id fun d => { d with
    label := dn.elem.data.label, links := dn.elem.data.links })
  modify (nodeTable.setTimestamps id xid INF)
  let oldPropertyId := (nodeTable.record (← get) id).obj.data.propertyList
  nodeTable.copyProperties id dn
  nodeTable.onProps (PropertyList.removeProperties oldPropertyId)
  nodeTable.handOver id dn
  nodeTable.popUnlock id

/-- `commit_dirty_node`. -/
def commitDirtyNode (xid id : Nat) : DbM Unit :=
  nodeTable.commitDirty (commitInsertNode xid id) (commitDeleteNode xid id)
    (commitUpdateNode xid id) id

/-! ## Relationships -/

/-- The first history record of a relationship without a predecessor. -/
def archiveBaseRship (xid id : Nat) : DbM Unit := do
  let d := (rshipTable.record (← get) id).obj.data
  if d.prevVersion = UNKNOWN then
    let fullItems ← ofExcept ((← get).rships.props.buildDirtyPropertyList d.propertyList)
    let fullDeltaPid ← rshipTable.addPitems d.id fullItems
    let srcLid ← logicalIdOf d.links.srcNode
    let destLid ← logicalIdOf d.links.destNode
    let rawId ← rshipTable.appendDelta ⟨d.logicalId, d.label, d.vtStart, d.vtEnd,
      d.propertyList, fullDeltaPid, UNKNOWN, xid, MAX_TIME,
      ⟨srcLid, destLid, d.links.nextSrcRship, d.links.nextDestRship⟩⟩
    modify (rshipTable.setLastDelta d.logicalId (encodeHistoryId rawId))

/-- The insert branch of `commit_dirty_relationship`. -/
def commitInsertRship (xid id : Nat) (dr : DirtyObject (Versioned RshipLinks)) : DbM Unit := do
  modify (rshipTable.setTimestamps id xid INF)
  modify (rshipTable.modifyData id fun d => { d with
    label := dr.elem.data.label, vtEnd := MAX_TIME })
  rshipTable.copyProperties id dr
  rshipTable.handOver id dr
  archiveBaseRship xid id
  modify (rshipTable.popFront id)

/-- The unlinking loops of `commit_dirty_relationship`: `prevAdj` is the
relationship before `currAdj` in the list, if there is one. -/
def unlinkDeletedLoop (nid rid : Nat) (setHead : Nat → NodeLinks → NodeLinks)
    (next : RshipLinks → Nat) (setNext : Nat → RshipLinks → RshipLinks) :
    Nat → Nat → Nat → DbM Unit
  | 0, _, currAdj => if currAdj = UNKNOWN then pure () else throw .diverges
  | fuel + 1, prevAdj, currAdj =>
      if currAdj = UNKNOWN then pure ()
      else do
        let r ← rshipTable.getRecord currAdj
        let nextAdj := next r.obj.data.links
        if currAdj = rid then
          if prevAdj = UNKNOWN then
            modify (nodeTable.modifyData nid fun d => { d with links := setHead nextAdj d.links })
          else do
            let _ ← rshipTable.getRecord prevAdj
            modify (modifyRshipLinks prevAdj (setNext nextAdj))
        else unlinkDeletedLoop nid rid setHead next setNext fuel currAdj nextAdj

/-- Take a deleted relationship out of one of its two lists. -/
def unlinkDeleted (nid rid : Nat) (head : NodeLinks → Nat)
    (setHead : Nat → NodeLinks → NodeLinks) (next : RshipLinks → Nat)
    (setNext : Nat → RshipLinks → RshipLinks) : DbM Unit := do
  if nid ≠ UNKNOWN then
    let n ← nodeTable.getRecord nid
    unlinkDeletedLoop nid rid setHead next setNext ((← get).rships.vec.size + 1) UNKNOWN
      (head n.obj.data.links)

/-- The delete branch of `commit_dirty_relationship`. -/
def commitDeleteRship (xid id : Nat) (dr : DirtyObject (Versioned RshipLinks)) : DbM Unit := do
  let d := (rshipTable.record (← get) id).obj.data
  let srcLid ← logicalIdOf d.links.srcNode
  let destLid ← logicalIdOf d.links.destNode
  let deleteVt := dr.elem.data.vtStart
  modify (rshipTable.modifyData id fun d => { d with vtEnd := deleteVt })
  let d := (rshipTable.record (← get) id).obj.data
  let _ ← archiveRshipDelta xid d [] deleteVt d.label srcLid destLid
  ofExcept ((← get).rships.props.foreachPropertySet d.propertyList)
  modify fun s => { s with garbage := s.garbage ++ [⟨xid, id, .gcRship⟩] }
  modify (rshipTable.modifyObj id fun o => { o with cts := xid })
  modify (rshipTable.eraseCurrent d.logicalId)
  let _ ← ofExcept ((← get).rships.props.buildDirtyPropertyList d.propertyList)
  unlinkDeleted d.links.srcNode id NodeLinks.fromRshipList
    (fun h l => { l with fromRshipList := h }) RshipLinks.nextSrcRship
    (fun h l => { l with nextSrcRship := h })
  unlinkDeleted d.links.destNode id NodeLinks.toRshipList
    (fun h l => { l with toRshipList := h }) RshipLinks.nextDestRship
    (fun h l => { l with nextDestRship := h })
  modify (modifyRshipLinks id fun l => { l with nextSrcRship := UNKNOWN, nextDestRship := UNKNOWN })
  rshipTable.popUnlock id
  rshipTable.onProps (PropertyList.removeProperties d.propertyList)

/-- The update branch of `commit_dirty_relationship`. -/
def commitUpdateRship (xid id : Nat) (dr : DirtyObject (Versioned RshipLinks)) : DbM Unit := do
  modify (rshipTable.setTimestamps id xid INF)
  modify (rshipTable.modifyData id fun d => { d with label := dr.elem.data.label })
  let oldPropertyId := (rshipTable.record (← get) id).obj.data.propertyList
  rshipTable.copyProperties id dr
  rshipTable.onProps (PropertyList.removeProperties oldPropertyId)
  rshipTable.handOver id dr
  rshipTable.popUnlock id

/-- `commit_dirty_relationship`. -/
def commitDirtyRelationship (xid id : Nat) : DbM Unit :=
  rshipTable.commitDirty (commitInsertRship xid id) (commitDeleteRship xid id)
    (commitUpdateRship xid id) id

/-! ## Collection -/

/-- The loop of `vacuum` over the relationships of a node: let the one that
points at `oid` point at `newNext`. -/
def unlinkLoop (next : RshipLinks → Nat) (setNext : Nat → RshipLinks → RshipLinks)
    (oid newNext : Nat) : Nat → Nat → DbM Unit
  | 0, prevId => if prevId = UNKNOWN then pure () else throw .diverges
  | fuel + 1, prevId =>
      if prevId = UNKNOWN then pure ()
      else do
        let p ← rshipTable.getRecord prevId
        if next p.obj.data.links = oid then modify (modifyRshipLinks prevId (setNext newNext))
        else unlinkLoop next setNext oid newNext fuel (next p.obj.data.links)

/-- One of the two halves of unlinking: at the head of the list in the slot
of the node, or at the predecessor in the list. -/
def unlinkFrom (head : NodeLinks → Nat) (setHead : Nat → NodeLinks → NodeLinks)
    (next : RshipLinks → Nat) (setNext : Nat → RshipLinks → RshipLinks)
    (nid oid newNext : Nat) : DbM Unit := do
  let n ← nodeTable.getRecord nid
  if head n.obj.data.links = oid then
    modify (nodeTable.modifyData nid fun d => { d with links := setHead newNext d.links })
  else
    unlinkLoop next setNext oid newNext ((← get).rships.vec.size + 1) (head n.obj.data.links)

/-- `nodes_->remove` and `rships_->remove`. -/
def Table.free {ε δ γ : Type} (t : Table ε δ γ) (id : Nat) (s : GraphDb) : GraphDb :=
  t.setRecord id { t.record s id with used := false } s

/-- One item of `vacuum`; the result says whether it was erased. -/
def vacuumItem (g : GcItem) : DbM Bool := do
  match g.itype with
  | .gcNode =>
      let n := (← nodeTable.getRecord g.oid).gc (← get).oldestXid
      modify (nodeTable.setRecord g.oid n)
      if n.hasDirtyVersions then return false
      modify (nodeTable.free g.oid)
      return true
  | .gcRship =>
      let r := (← rshipTable.getRecord g.oid).gc (← get).oldestXid
      modify (rshipTable.setRecord g.oid r)
      if r.hasDirtyVersions then return false
      let l := r.obj.data.links
      unlinkFrom NodeLinks.fromRshipList (fun h n => { n with fromRshipList := h })
        RshipLinks.nextSrcRship (fun h x => { x with nextSrcRship := h })
        l.srcNode g.oid l.nextSrcRship
      unlinkFrom NodeLinks.toRshipList (fun h n => { n with toRshipList := h })
        RshipLinks.nextDestRship (fun h x => { x with nextDestRship := h })
        l.destNode g.oid l.nextDestRship
      modify (rshipTable.free g.oid)
      return true

/-- The loop of `vacuum`: `kept` are the items passed over so far. -/
def vacuumLoop : List GcItem → List GcItem → DbM Unit
  | _, [] => pure ()
  | kept, g :: rest => do
      if ← vacuumItem g then
        modify fun s => { s with garbage := kept ++ rest }
        vacuumLoop kept rest
      else vacuumLoop (kept ++ [g]) rest

/-- `vacuum`. -/
def vacuum : DbM Unit := do vacuumLoop [] (← get).garbage

/-! ## The end of a transaction -/

/-- Take a transaction out of `active_tx_` and compute `oldest_xid_`. -/
def leaveActive (xid : Nat) (s : GraphDb) : GraphDb :=
  let active := s.activeTx.filter (· ≠ xid)
  { s with activeTx := active, oldestXid := active.min?.getD xid }

/-- `commit_transaction`. -/
def commitTransaction (xid : Nat) : DbM Bool := do
  checkTxContext xid
  modify (leaveActive xid)
  ((← get).txs xid).dirtyRships.forM (commitDirtyRelationship xid)
  ((← get).txs xid).dirtyNodes.forM (commitDirtyNode xid)
  modify (GraphDb.modifyTx xid fun t => { t with running := false })
  vacuum
  return true

/-- The undo of one record in `abort_transaction`. -/
def Table.abortDirty {ε δ γ : Type} (t : Table ε δ γ) (xid id : Nat) : DbM Unit := do
  let r ← t.getRecord id
  let d := r.obj.data
  if r.obj.bts = xid then
    -- a version of this transaction
    if d.logicalId ≠ UNKNOWN then
      modify fun s => { s with index := removeVersion s.index d.logicalId d.vtStart t.isRel }
    modify (t.free id)
    if d.prevVersion = UNKNOWN ∧ d.logicalId ≠ UNKNOWN then modify (t.eraseCurrent d.logicalId)
  else
    -- a predecessor that was closed
    modify (t.modifyObj id fun o => { o with
      txnId := 0, cts := INF
      data := { o.data with vtEnd := MAX_TIME, nextVersion := UNKNOWN } })
    if d.logicalId ≠ UNKNOWN then
      modify (t.setCurrent d.logicalId id)
      modify fun s => { s with index := removeVersion s.index d.logicalId d.vtStart t.isRel }
      modify (t.indexHot d.logicalId d.vtStart id)

/-- Run a computation and pass over its exceptions. -/
def swallow (x : DbM Unit) : DbM Unit := fun s =>
  match x s with
  | .ok _ s' => .ok () s'
  | .error _ s' => .ok () s'

/-- `abort_transaction`: every record once, in the order of its first
mention. -/
def abortTransaction (xid : Nat) : DbM Bool := do
  if !((← get).txs xid).running then return false
  modify (leaveActive xid)
  ((← get).txs xid).dirtyNodes.eraseDups.forM fun id => swallow (nodeTable.abortDirty xid id)
  ((← get).txs xid).dirtyRships.eraseDups.forM fun id => swallow (rshipTable.abortDirty xid id)
  vacuum
  modify (GraphDb.modifyTx xid fun t => { t with running := false })
  return true

/-! ## Archival tasks -/

/-- The body of a submitted task. -/
def Task.run : Task → DbM Unit
  | .node a => do
      let histId ← archiveNodeDeltaRaw a
      match a.newId with
      | some id =>
          let _ ← nodeTable.getRecord id
          modify (nodeTable.modifyData id fun d => { d with prevVersion := histId })
      | none => pure ()
  | .rship a => do
      let _ ← archiveRshipDeltaRaw a

/-- A worker runs a task. An exception is kept in the task's future; only
when memory is exhausted does the process end. -/
def runTask (task : Task) : DbM Unit := fun s =>
  match task.run s with
  | .ok _ s' => .ok () s'
  | .error .slotInUse s' => .error .slotInUse s'
  | .error _ s' => .ok () s'

/-- A worker takes the task at a position of the queue and runs it. -/
def work (i : Nat) : DbM Unit := do
  match (← get).tasks[i]? with
  | some task =>
      modify fun s => { s with tasks := s.tasks.eraseIdx i }
      runTask task
  | none => pure ()

end Poseidon.Temporal
