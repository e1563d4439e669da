import Poseidon.Temporal.History

/-!
# Versions: writing and reading by valid time

The temporal half of `graph_db.cpp`. A write makes a new version in a slot of
its own and closes the valid time of the one before at once, in the slot of
that one, before the transaction commits; the archival of the superseded
version is left to the thread pool. A read by valid time asks the current
version first and then the index, and does not look at the transaction that
asks.
-/

namespace Poseidon.Temporal

section Tables

variable {ε δ γ : Type} (t : Table ε δ γ)

/-- The part of `add_node` and `add_relationship` that links the version in
`slot` to the current one of its logical id. -/
def Table.linkVersion (lid slot vtStart : Nat) : DbM Unit := do
  match t.findCurrent lid (← get) with
  | some existing => do
      let _ ← t.getRecord existing
      modify (t.modifyData existing fun d => { d with vtEnd := vtStart, nextVersion := slot })
      modify (t.modifyData slot fun d => { d with prevVersion := existing })
  | none => pure ()
  modify (t.setCurrent lid slot)
  modify (t.indexHot lid vtStart slot)

/-- What `store` of a record vector returns: the position of the record, and the
slot its pointer leads to. They are the same unless the vector has lost track
of its free slots. -/
structure Stored where
  position : Nat
  slot : Nat
  deriving DecidableEq

/-- `insert` into a table: the slot that the record vector fills is free, and the
record is locked by its transaction. A table of `2 ^ 56` records does not fit
in the address space. -/
def Table.insertRecord (xid : Nat) (p : Stored) (d : Versioned ε) : DbM Unit := do
  let r := t.record (← get) p.slot
  if r.used ∨ 2 ^ 56 ≤ p.slot then throw .slotInUse
  modify (t.setRecord p.slot
    ⟨true, ⟨xid, 0, INF, 0, false, false, { d with id := p.position }⟩, [], r.nextAddr⟩)

/-- The dirty version of a new record. -/
def Table.addInserted (xid slot : Nat) (props : List PItem) : DbM Unit := do
  let r := t.record (← get) slot
  modify (t.setRecord slot
    (r.addDirtyVersion .slot { r.obj with isDirty := true } props false))
  modify (t.addDirty xid slot)

/-- The common part of `add_node` and `add_relationship`. The fields after the
insertion are written at the position that the vector has returned. -/
def Table.addVersion (xid : Nat) (p : Stored) (label : Nat) (props : List PItem)
    (vtStart vtEnd lid : Nat) (links : ε) : DbM Unit := do
  t.insertRecord xid p
    ⟨UNKNOWN, lid, UNKNOWN, label, UNKNOWN, UNKNOWN, UNKNOWN, UNKNOWN, 0, links⟩
  let _ ← t.getRecord p.position
  modify (t.modifyData p.position fun d =>
    { d with vtStart := vtStart, vtEnd := vtEnd, prevVersion := UNKNOWN, nextVersion := UNKNOWN })
  if lid ≠ UNKNOWN then t.linkVersion lid p.position vtStart
  t.addInserted xid p.position props

/-- The end of the two functions that create a version: the superseded one
ends, and its slot is handed to the collector. -/
def Table.supersede (xid : Nat) (old : Ref) (vt : Nat) : DbM Unit := do
  modify (t.modifyAt old fun o => { o with cts := xid, data := { o.data with vtEnd := vt } })
  modify fun s => { s with garbage := s.garbage ++ [⟨xid, old.id, t.gcType⟩] }

/-- The common body of `update_from_node` and `update_to_node`. With a
version of its own the transaction changes that one; otherwise it keeps a
copy for older readers and changes a second copy. The result is the
version's fields before `fd`. -/
def Table.updateLinks (xid : Nat) (n : Ref) (fd : Versioned ε → Versioned ε) :
    DbM (Versioned ε) := do
  let r ← ofExcept ((t.record (← get) n.id).lockForWrite n.loc xid)
  modify (t.setRecord n.id r)
  match r.getDirtyVersion xid with
  | some dn =>
      modify (t.setRecord n.id (r.modifyDirty dn.addr fun d =>
        { d with elem := { d.elem with data := fd d.elem.data } }))
      return dn.elem.data
  | none =>
      let o ← t.read n
      let pitems ← ofExcept ((t.side (← get)).props.buildDirtyPropertyList o.data.propertyList)
      let r := r.addDirtyVersion n.loc (Record.oldVersion o xid) pitems true
      let r := r.addDirtyVersion n.loc (Record.newVersion o xid fd) pitems true
      modify (t.setRecord n.id r)
      modify (t.addDirty xid n.id)
      return o.data

/-- The end of the delete functions: `keep` decides whether a copy of the
original goes to the dirty list before the deleted version. -/
def Table.addDeleted (xid : Nat) (n : Ref) (keep : Record (Versioned ε) → Bool) : DbM Unit := do
  let r := t.record (← get) n.id
  let o ← t.read n
  let r ← if keep r then do
      let pitems ← ofExcept
        ((t.side (← get)).props.buildDirtyPropertyList o.data.propertyList)
      pure (r.addDirtyVersion n.loc (Record.oldVersion o xid) pitems true)
    else pure r
  let r := r.addDirtyVersion n.loc (Record.deletedVersion o xid) [] true
  modify (t.setRecord n.id r)
  modify (t.addDirty xid n.id)

end Tables

/-! ## Nodes -/

/-- `add_node`. -/
def addNode (xid : Nat) (p : Stored) (label : Nat) (props : List PItem)
    (vtStart vtEnd lid : Nat) : DbM Unit := do
  checkTxContext xid
  nodeTable.addVersion xid p label props vtStart vtEnd lid ⟨UNKNOWN, UNKNOWN⟩

/-- `update_node_create_version`; `p` is what storing the new version returns. -/
def updateNodeCreateVersion (xid nodeId : Nat) (p : Stored) (props : List PItem)
    (newVtStart : Nat) : DbM Unit := do
  checkTxContext xid
  let old ← nodeTable.byId xid nodeId
  let d := (← nodeTable.read old).data
  modify (nodeTable.addDirty xid old.id)
  let oldProps ← ofExcept ((← get).nodes.props.allProperties d.propertyList)
  addNode xid p d.label (assignProperties oldProps props) newVtStart MAX_TIME d.logicalId
  let new ← nodeTable.byId xid p.position
  let count := ((← nodeTable.read old).data.updateCount + 1) % 2 ^ 16
  modify (nodeTable.modifyAt new fun o =>
    { o with data := { o.data with updateCount := count, links := d.links } })
  modify fun s => { s with tasks := s.tasks ++ [.node ⟨xid, d.logicalId, d.label, d.vtStart,
    d.propertyList, d.links, props, newVtStart, some p.position⟩] }
  nodeTable.supersede xid old newVtStart
  modify (nodeTable.setCurrent d.logicalId p.position)

/-- `close_node_at_vt`. -/
def closeNodeAtVt (xid nodeId vtEndTime : Nat) : DbM Unit := do
  checkTxContext xid
  let n ← nodeTable.byId xid nodeId
  modify (nodeTable.addDirty xid n.id)
  modify (nodeTable.modifyAt n fun o => { o with data := { o.data with vtEnd := vtEndTime } })
  let d := (← nodeTable.read n).data
  let _ ← archiveNodeDelta xid d [] vtEndTime d.label
  modify (nodeTable.eraseCurrent d.logicalId)

/-- The loop of `has_valid_from_rships` and `has_valid_to_rships`: the first
relationship that the transaction has not locked decides. -/
def hasValidRships (s : GraphDb) (xid : Nat) (next : RshipLinks → Nat) :
    Nat → Nat → Except Err Bool
  | 0, rid => if rid = UNKNOWN then .ok false else .error .diverges
  | fuel + 1, rid =>
      if rid = UNKNOWN then .ok false
      else match s.rships.vec.get rid with
        | .error e => .error e
        | .ok r =>
            if r.obj.isLockedBy xid then
              if r.hasValidVersion xid then .ok true
              else hasValidRships s xid next fuel (next r.obj.data.links)
            else .ok (r.obj.isValidFor xid)

/-- The two checks of `delete_node`, the second only if the first found
nothing. -/
def hasValidRshipsOf (s : GraphDb) (n : NodeLinks) (xid : Nat) : Except Err Bool :=
  match hasValidRships s xid RshipLinks.nextSrcRship (s.rships.vec.size + 1) n.fromRshipList with
  | .ok false =>
      hasValidRships s xid RshipLinks.nextDestRship (s.rships.vec.size + 1) n.toRshipList
  | res => res

/-- `delete_node`. -/
def deleteNode (xid nid : Nat) : DbM Unit := do
  checkTxContext xid
  let n ← nodeTable.byId xid nid
  let r ← ofExcept ((nodeTable.record (← get) nid).lockForWrite n.loc xid)
  modify (nodeTable.setRecord nid r)
  let d := (← nodeTable.read n).data
  if d.links.fromRshipList ≠ UNKNOWN ∨ d.links.toRshipList ≠ UNKNOWN then
    if ← ofExcept (hasValidRshipsOf (← get) d.links xid) then
      modify (nodeTable.setRecord nid (r.modifyAt n.loc Obj.unlock))
      throw .orphanedRelationship
  nodeTable.addDeleted xid n fun _ => true

/-! ## Relationships -/

/-- Change the adjacency fields of a relationship in its slot. -/
def modifyRshipLinks (rid : Nat) (f : RshipLinks → RshipLinks) : GraphDb → GraphDb :=
  rshipTable.modifyData rid fun d => { d with links := f d.links }

/-- `update_from_node`. -/
def updateFromNode (xid : Nat) (n : Ref) (rid : Nat) : DbM Unit := do
  let old ← nodeTable.updateLinks xid n fun d =>
    { d with links := { d.links with fromRshipList := rid } }
  if old.links.fromRshipList ≠ UNKNOWN then
    modify (modifyRshipLinks rid fun l => { l with nextSrcRship := old.links.fromRshipList })

/-- `update_to_node`. -/
def updateToNode (xid : Nat) (n : Ref) (rid : Nat) : DbM Unit := do
  let old ← nodeTable.updateLinks xid n fun d =>
    { d with links := { d.links with toRshipList := rid } }
  if old.links.toRshipList ≠ UNKNOWN then
    modify (modifyRshipLinks rid fun l => { l with nextDestRship := old.links.toRshipList })

/-- `add_relationship`. -/
def addRelationship (xid : Nat) (p : Stored) (fromId toId label : Nat) (props : List PItem)
    (vtStart vtEnd lid : Nat) : DbM Unit := do
  checkTxContext xid
  let fromNode ← nodeTable.byId xid fromId
  let toNode ← nodeTable.byId xid toId
  rshipTable.addVersion xid p label props vtStart vtEnd lid
    ⟨fromId, toId, UNKNOWN, UNKNOWN⟩
  let rid := (rshipTable.record (← get) p.position).obj.data.id
  updateFromNode xid fromNode rid
  updateToNode xid toNode rid

/-- The logical id of the node in a slot. -/
def logicalIdOf (nid : Nat) : DbM Nat := do
  return (← nodeTable.getRecord nid).obj.data.logicalId

/-- `node_logical_index_[lid]`: a logical id that is not in the map is put
there with slot `0`. -/
def currentNodeOrZero (lid : Nat) : DbM Nat := do
  match nodeTable.findCurrent lid (← get) with
  | some id => return id
  | none =>
      modify (nodeTable.setCurrent lid 0)
      return 0

/-- `update_relationship_create_version`. The new version goes between the current
versions of the two nodes. -/
def updateRelationshipCreateVersion (xid rshipId : Nat) (p : Stored) (props : List PItem)
    (newVtStart : Nat) : DbM Unit := do
  checkTxContext xid
  let old ← rshipTable.byId xid rshipId
  let d := (← rshipTable.read old).data
  modify (rshipTable.addDirty xid old.id)
  let srcLid ← logicalIdOf d.links.srcNode
  let destLid ← logicalIdOf d.links.destNode
  modify fun s => { s with tasks := s.tasks ++ [.rship ⟨xid, d.logicalId, d.label, d.vtStart,
    d.propertyList, ⟨srcLid, destLid, UNKNOWN, UNKNOWN⟩, props, newVtStart, none⟩] }
  let src ← currentNodeOrZero srcLid
  let dest ← currentNodeOrZero destLid
  let oldProps ← ofExcept ((← get).rships.props.allProperties d.propertyList)
  addRelationship xid p src dest d.label (assignProperties oldProps props) newVtStart
    MAX_TIME d.logicalId
  let new ← rshipTable.byId xid p.position
  let count := ((← rshipTable.read old).data.updateCount + 1) % 2 ^ 16
  modify (rshipTable.modifyAt new fun o =>
    { o with data := { o.data with updateCount := count } })
  modify (rshipTable.setCurrent d.logicalId p.position)
  rshipTable.supersede xid old newVtStart

/-- `close_relationship_at_vt`. -/
def closeRelationshipAtVt (xid rshipId vtEndTime : Nat) : DbM Unit := do
  checkTxContext xid
  let n ← rshipTable.byId xid rshipId
  modify (rshipTable.addDirty xid n.id)
  modify (rshipTable.modifyAt n fun o => { o with data := { o.data with vtEnd := vtEndTime } })
  let d := (← rshipTable.read n).data
  let srcLid ← logicalIdOf d.links.srcNode
  let destLid ← logicalIdOf d.links.destNode
  let _ ← archiveRshipDelta xid d [] vtEndTime d.label srcLid destLid
  modify (rshipTable.eraseCurrent d.logicalId)

/-- `delete_relationship(id)`. -/
def deleteRelationship (xid rid : Nat) : DbM Unit := do
  checkTxContext xid
  let n ← rshipTable.byId xid rid
  let r ← ofExcept ((rshipTable.record (← get) rid).lockForWrite n.loc xid)
  modify (rshipTable.setRecord rid r)
  rshipTable.addDeleted xid n fun r => !r.hasDirtyVersions

/-! ## Reading by valid time -/

section Tables

variable {ε δ γ : Type} (t : Table ε δ γ)

/-- `cur_hot.prepare()` on the record in a slot, and the record. -/
def Table.prepareHot (id : Nat) : DbM (Obj (Versioned ε)) := do
  let r ← t.getRecord id
  modify (t.setRecord id { r with obj := r.obj.prepare })
  return r.obj.prepare

/-- Whether a hot record was committed and is valid at `vt`. -/
def hotAt (o : Obj (Versioned ε)) (vt : Nat) : Bool :=
  o.bts ≠ 0 && o.data.vtStart ≤ vt && vt < o.data.vtEnd

/-- Return the history record of a payload if it is valid at `vt`. -/
def Table.histAt (payload vt : Nat) : DbM Nat := do
  let d ← ofExcept ((t.side (← get)).getDelta payload)
  if d.vtStart ≤ vt ∧ vt < d.vtEnd then return encodeHistoryId payload
  else throw .unknownId

/-- The search below a hot entry that was not committed or is not valid at
`vt`. -/
def Table.fallbackAt (lid vt below : Nat) : DbM Nat := do
  match lookupAsOf (← get).index lid below 0 t.isRel with
  | none => throw .unknownId
  | some (ty, payload) =>
      if ty = PtrType.hist.code then t.histAt payload vt
      else do
        let n ← t.prepareHot payload
        if hotAt n vt then return payload else throw .unknownId

/-- The time of the last checkpoint that is not after `vt`, or zero. -/
def Side.checkpointHint (sd : Side ε δ γ) (lid vt : Nat) : Nat :=
  match (sd.checkpoints lid).floor vt with
  | some (k, _) => k
  | none => 0

/-- The search in the index, from a checkpoint on. -/
def Table.indexAt (lid vt : Nat) : DbM Nat := do
  let s ← get
  match lookupAsOf s.index lid vt ((t.side s).checkpointHint lid vt) t.isRel with
  | none => throw .unknownId
  | some (ty, payload) =>
      if ty = PtrType.hot.code then do
        let n ← t.prepareHot payload
        if hotAt n vt then return payload
        -- `n.vt_start - 1` wraps around at zero
        else t.fallbackAt lid vt ((n.data.vtStart + (2 ^ 64 - 1)) % 2 ^ 64)
      else if ty = PtrType.hist.code then t.histAt payload vt
      else throw .unknownId

/-- `get_node_at_vt` and `get_rship_at_vt`. -/
def Table.getAtVt (lid vt : Nat) : DbM Nat := do
  match t.findCurrent lid (← get) with
  | some head => do
      let o ← t.prepareHot head
      if hotAt o vt then return o.data.id else t.indexAt lid vt
  | none => t.indexAt lid vt

end Tables

/-- `get_node_at_vt`. -/
def getNodeAtVt (lid vt : Nat) : DbM Nat := nodeTable.getAtVt lid vt

/-- `get_rship_at_vt`. -/
def getRshipAtVt (lid vt : Nat) : DbM Nat := rshipTable.getAtVt lid vt

end Poseidon.Temporal
