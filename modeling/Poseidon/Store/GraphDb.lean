import Poseidon.Store.Txn

/-!
# The graph store: state, reads and writes

`nodes.hpp`, `relationships.hpp`, `transaction.hpp` and the reading and
writing half of `graph_db.cpp`. A call runs in `DbM`: it returns a value or
an error, and keeps what it had changed before the error, as an exception
does.

Every call takes the id of the transaction that makes it, which the source
keeps in thread-local storage. The four update functions, and the endings of
the three delete functions, are one piece of code each, written over a
`Table`: the node table or the relationship table.
-/

namespace Poseidon

/-- The fields of `node`. -/
structure NodeData where
  id : Nat
  fromRshipList : Nat
  toRshipList : Nat
  propertyList : Nat
  nodeLabel : Nat
  deriving DecidableEq, Repr, Inhabited

/-- The fields of `relationship`. -/
structure RshipData where
  id : Nat
  srcNode : Nat
  destNode : Nat
  nextSrcRship : Nat
  nextDestRship : Nat
  propertyList : Nat
  rshipLabel : Nat
  deriving DecidableEq, Repr, Inhabited

/-- `gc_item::itype`. -/
inductive GcType where
  | gcNode
  | gcRship
  deriving DecidableEq, Repr

/-- `gc_item`. -/
structure GcItem where
  txid : Nat
  oid : Nat
  itype : GcType
  deriving DecidableEq, Repr

/-- `transaction`: the lists of changed records, and whether the object is
still the current transaction of its thread. -/
structure Transaction where
  running : Bool
  dirtyNodes : List Nat
  dirtyRships : List Nat
  deriving DecidableEq, Repr

/-- `graph_db`, with the transaction objects of all threads. `activeTx` is
`active_tx_`; a `std::map` is ordered, but only its least key is read. -/
structure GraphDb where
  nodes : Vec NodeData
  rships : Vec RshipData
  nodeProperties : PropertyList
  rshipProperties : PropertyList
  activeTx : List Nat
  oldestXid : Nat
  garbage : List GcItem
  txs : Nat → Transaction

/-- A slot that was never used. -/
def Record.fresh {α : Type} [Inhabited α] : Record α :=
  ⟨false, ⟨0, 0, INF, 0, false, false, default⟩, [], 0⟩

/-- A new database. -/
def GraphDb.initial : GraphDb where
  nodes := ⟨fun _ => Record.fresh, 0⟩
  rships := ⟨fun _ => Record.fresh, 0⟩
  nodeProperties := PropertyList.empty
  rshipProperties := PropertyList.empty
  activeTx := []
  oldestXid := 0
  garbage := []
  txs := fun _ => ⟨false, [], []⟩

/-- A call on the store: a value or an error, and the store after it. -/
abbrev DbM := EStateM Err GraphDb

/-- Throw the error of a computation that may fail. -/
def ofExcept {β : Type} : Except Err β → DbM β
  | .ok b => pure b
  | .error e => throw e

/-- What the shared code of nodes and relationships needs to know about
their table. -/
structure Table (α : Type) where
  vec : GraphDb → Vec α
  setVec : Vec α → GraphDb → GraphDb
  props : GraphDb → PropertyList
  setProps : PropertyList → GraphDb → GraphDb
  propertyList : α → Nat
  setPropertyList : Nat → α → α
  addDirty : Nat → Nat → GraphDb → GraphDb
  gcType : GcType

/-- Change the transaction object of `xid`. -/
def GraphDb.modifyTx (xid : Nat) (f : Transaction → Transaction)
    (s : GraphDb) : GraphDb :=
  { s with txs := fun x => if x = xid then f (s.txs x) else s.txs x }

/-- `nodes_`, `node_properties_` and `add_dirty_node`. -/
def nodeTable : Table NodeData where
  vec s := s.nodes
  setVec v s := { s with nodes := v }
  props s := s.nodeProperties
  setProps p s := { s with nodeProperties := p }
  propertyList d := d.propertyList
  setPropertyList p d := { d with propertyList := p }
  addDirty xid id s := s.modifyTx xid fun t =>
    { t with dirtyNodes := t.dirtyNodes ++ [id] }
  gcType := .gcNode

/-- `rships_`, `rship_properties_` and `add_dirty_relationship`. -/
def rshipTable : Table RshipData where
  vec s := s.rships
  setVec v s := { s with rships := v }
  props s := s.rshipProperties
  setProps p s := { s with rshipProperties := p }
  propertyList d := d.propertyList
  setPropertyList p d := { d with propertyList := p }
  addDirty xid id s := s.modifyTx xid fun t =>
    { t with dirtyRships := t.dirtyRships ++ [id] }
  gcType := .gcRship

section Tables

variable {α : Type} (t : Table α)

/-- The record in a slot, in use or not. -/
def Table.record (s : GraphDb) (id : Nat) : Record α := (t.vec s).slots id

/-- Overwrite a slot. -/
def Table.setRecord (id : Nat) (r : Record α) (s : GraphDb) : GraphDb :=
  t.setVec ((t.vec s).put id r) s

/-- `nodes_->get` and `rships_->get`. -/
def Table.getRecord (id : Nat) : DbM (Record α) := do
  ofExcept ((t.vec (← get)).get id)

/-- `check_tx_context`. -/
def checkTxContext (xid : Nat) : DbM Unit := do
  unless ((← get).txs xid).running do throw .outOfTransactionScope

/-- `node_by_id` and `rship_by_id`: the read is recorded before the version
is looked for. -/
def Table.byId (xid : Nat) (id : Nat) : DbM Ref := do
  checkTxContext xid
  let r ← t.getRecord id
  let r := { r with obj := (r.obj.prepare).setRts xid }
  modify (t.setRecord id r)
  let l ← ofExcept (r.getValidVersion xid)
  return ⟨id, l⟩

/-- The object a reference points to. -/
def Table.read (n : Ref) : DbM (Obj α) := do
  match (t.record (← get) n.id).deref n.loc with
  | some o => return o
  | none => throw .danglingReference

/-- The common body of the update functions. With a version of its own the
transaction changes that one; otherwise it keeps a copy for older readers
and changes a second copy. The result is the version's data before `fd`. -/
def Table.update (xid : Nat) (n : Ref) (fp : List PItem → List PItem)
    (fd : α → α) : DbM α := do
  let r ← ofExcept ((t.record (← get) n.id).lockForWrite n.loc xid)
  modify (t.setRecord n.id r)
  match r.getDirtyVersion xid with
  | some dn =>
      modify (t.setRecord n.id (r.modifyDirty dn.addr fun d =>
        { d with
          properties := fp d.properties
          elem := { d.elem with data := fd d.elem.data } }))
      return dn.elem.data
  | none =>
      let o ← t.read n
      let pitems ← ofExcept
        ((t.props (← get)).buildDirtyPropertyList
          (t.propertyList o.data))
      -- a copy of the original for the readers, then the new version
      let r := r.addDirtyVersion n.loc (Record.oldVersion o xid) pitems true
      let r := r.addDirtyVersion n.loc (Record.newVersion o xid fd)
        (fp pitems) true
      modify (t.setRecord n.id r)
      modify (t.addDirty xid n.id)
      return o.data

/-- The end of the delete functions: `keep` decides whether a copy of the
original goes to the dirty list before the deleted version. -/
def Table.addDeleted (xid : Nat) (n : Ref) (keep : Record α → Bool) :
    DbM Unit := do
  let r := t.record (← get) n.id
  let o ← t.read n
  let r ← if keep r then do
      let pitems ← ofExcept
        ((t.props (← get)).buildDirtyPropertyList
          (t.propertyList o.data))
      pure (r.addDirtyVersion n.loc (Record.oldVersion o xid) pitems true)
    else pure r
  let r := r.addDirtyVersion n.loc (Record.deletedVersion o xid) [] true
  modify (t.setRecord n.id r)
  modify (t.addDirty xid n.id)

/-- `insert` into a table and the dirty version of a new record: the slot is
the one the record vector hands out, which is free and not the number that
ends the lists, and the record is locked by its transaction. -/
def Table.insert (xid : Nat) (slot : Nat) (d : α) (props : List PItem) :
    DbM Unit := do
  let r := t.record (← get) slot
  if r.used ∨ slot = UNKNOWN then throw .slotInUse
  let o : Obj α := ⟨xid, 0, INF, 0, false, false, d⟩
  let r : Record α := ⟨true, o, [], r.nextAddr⟩
  modify (t.setRecord slot
    (r.addDirtyVersion .slot { o with isDirty := true } props false))
  modify (t.addDirty xid slot)

end Tables

/-- `node_by_id`. -/
def nodeById (xid : Nat) (id : Nat) : DbM Ref := nodeTable.byId xid id

/-- `rship_by_id`. -/
def rshipById (xid : Nat) (id : Nat) : DbM Ref := rshipTable.byId xid id

/-- A new label, where code `0` keeps the old one. -/
def relabel (lc old : Nat) : Nat := if lc > 0 then lc else old

/-- `update_node`. -/
def updateNode (xid : Nat) (n : Ref) (props : List PItem) (lc : Nat) :
    DbM Unit := do
  checkTxContext xid
  let _ ← nodeTable.update xid n (applyUpdates · props)
    fun d => { d with nodeLabel := relabel lc d.nodeLabel }

/-- `update_relationship`. -/
def updateRelationship (xid : Nat) (r : Ref) (props : List PItem)
    (lc : Nat) : DbM Unit := do
  checkTxContext xid
  let _ ← rshipTable.update xid r (applyUpdates · props)
    fun d => { d with rshipLabel := relabel lc d.rshipLabel }

/-- Change the fields of a relationship in its slot. -/
def modifyRship (rid : Nat) (f : RshipData → RshipData) (s : GraphDb) :
    GraphDb :=
  let r := rshipTable.record s rid
  rshipTable.setRecord rid { r with obj := { r.obj with data := f r.obj.data } } s

/-- `update_from_node`: put the relationship in front of the node's outgoing
list. The next pointer is set in the slot of the relationship. -/
def updateFromNode (xid : Nat) (n : Ref) (rid : Nat) : DbM Unit := do
  let old ← nodeTable.update xid n id fun d => { d with fromRshipList := rid }
  if old.fromRshipList ≠ UNKNOWN then
    modify (modifyRship rid fun d => { d with nextSrcRship := old.fromRshipList })

/-- `update_to_node`, the same for the incoming list. -/
def updateToNode (xid : Nat) (n : Ref) (rid : Nat) : DbM Unit := do
  let old ← nodeTable.update xid n id fun d => { d with toRshipList := rid }
  if old.toRshipList ≠ UNKNOWN then
    modify (modifyRship rid fun d => { d with nextDestRship := old.toRshipList })

/-- `add_node`. -/
def addNode (xid : Nat) (slot : Nat) (label : Nat)
    (props : List PItem) : DbM Unit := do
  checkTxContext xid
  nodeTable.insert xid slot ⟨slot, UNKNOWN, UNKNOWN, UNKNOWN, label⟩ props

/-- `add_relationship`: the dirty version of the relationship is made before
its next pointers are set. -/
def addRelationship (xid : Nat) (slot fromId toId : Nat) (label : Nat)
    (props : List PItem) : DbM Unit := do
  checkTxContext xid
  let fromNode ← nodeById xid fromId
  let toNode ← nodeById xid toId
  rshipTable.insert xid slot
    ⟨slot, fromId, toId, UNKNOWN, UNKNOWN, UNKNOWN, label⟩ props
  updateFromNode xid fromNode slot
  updateToNode xid toNode slot

/-- The loop of `has_valid_from_rships` and `has_valid_to_rships`: the first
relationship that the transaction has not locked decides. -/
def hasValidRships (s : GraphDb) (xid : Nat) (next : RshipData → Nat) :
    Nat → Nat → Except Err Bool
  | 0, rid => if rid = UNKNOWN then .ok false else .error .diverges
  | fuel + 1, rid =>
      if rid = UNKNOWN then .ok false
      else match s.rships.get rid with
        | .error e => .error e
        | .ok r =>
            if r.obj.isLockedBy xid then
              if r.hasValidVersion xid then .ok true
              else hasValidRships s xid next fuel (next r.obj.data)
            else .ok (r.obj.isValidFor xid)

/-- `has_valid_from_rships`. -/
def hasValidFromRships (s : GraphDb) (n : NodeData) (xid : Nat) :
    Except Err Bool :=
  hasValidRships s xid RshipData.nextSrcRship (s.rships.size + 1)
    n.fromRshipList

/-- `has_valid_to_rships`. -/
def hasValidToRships (s : GraphDb) (n : NodeData) (xid : Nat) :
    Except Err Bool :=
  hasValidRships s xid RshipData.nextDestRship (s.rships.size + 1)
    n.toRshipList

/-- The two calls of `delete_node`, the second only if the first found
nothing. -/
def hasValidRshipsOf (s : GraphDb) (n : NodeData) (xid : Nat) :
    Except Err Bool :=
  match hasValidFromRships s n xid with
  | .ok false => hasValidToRships s n xid
  | res => res

/-- `delete_node`. A node with visible relationships is unlocked again,
whoever had locked it before. -/
def deleteNode (xid : Nat) (nid : Nat) : DbM Unit := do
  checkTxContext xid
  let n ← nodeById xid nid
  let r ← ofExcept ((nodeTable.record (← get) nid).lockForWrite n.loc xid)
  modify (nodeTable.setRecord nid r)
  let o ← nodeTable.read n
  if o.data.fromRshipList ≠ UNKNOWN ∨ o.data.toRshipList ≠ UNKNOWN then
    if ← ofExcept (hasValidRshipsOf (← get) o.data xid) then
      modify (nodeTable.setRecord nid (r.modifyAt n.loc Obj.unlock))
      throw .orphanedRelationship
  nodeTable.addDeleted xid n fun _ => true

/-- `delete_relationship(id)`: the original is kept only if the dirty list
is empty. -/
def deleteRelationship (xid : Nat) (rid : Nat) : DbM Unit := do
  checkTxContext xid
  let n ← rshipById xid rid
  let r ← ofExcept ((rshipTable.record (← get) rid).lockForWrite n.loc xid)
  modify (rshipTable.setRecord rid r)
  rshipTable.addDeleted xid n fun r => !r.hasDirtyVersions

/-- Whether a relationship met on a node's list is visible to `xid`, as the
loops of `detach_delete_node` and `delete_relationship(src, dest)` decide. -/
def rshipVisible (r : Record RshipData) (xid : Nat) : Bool :=
  if r.obj.isLockedBy xid then r.hasValidVersion xid else r.obj.isValidFor xid

/-- The collecting loops of `detach_delete_node`. -/
def collectRships (s : GraphDb) (xid : Nat) (next : RshipData → Nat) :
    Nat → Nat → Except Err (List Nat)
  | 0, rid => if rid = UNKNOWN then .ok [] else .error .diverges
  | fuel + 1, rid =>
      if rid = UNKNOWN then .ok []
      else match s.rships.get rid with
        | .error e => .error e
        | .ok r =>
            (collectRships s xid next fuel (next r.obj.data)).map fun l =>
              if rshipVisible r xid then rid :: l else l

/-- `detach_delete_node`. -/
def detachDeleteNode (xid : Nat) (nid : Nat) : DbM Unit := do
  checkTxContext xid
  let n ← nodeById xid nid
  let r ← ofExcept ((nodeTable.record (← get) nid).lockForWrite n.loc xid)
  modify (nodeTable.setRecord nid r)
  let o ← nodeTable.read n
  let s ← get
  let outgoing ← ofExcept (collectRships s xid RshipData.nextSrcRship
    (s.rships.size + 1) o.data.fromRshipList)
  let incoming ← ofExcept (collectRships s xid RshipData.nextDestRship
    (s.rships.size + 1) o.data.toRshipList)
  (outgoing ++ incoming).forM (deleteRelationship xid)
  nodeTable.addDeleted xid n fun r => !r.hasDirtyVersions

/-- `node_description`. -/
structure NodeDescription where
  id : Nat
  label : Nat
  properties : List PItem
  deriving DecidableEq, Repr

/-- `rship_description`. -/
structure RshipDescription where
  id : Nat
  fromId : Nat
  toId : Nat
  label : Nat
  properties : List PItem
  deriving DecidableEq, Repr

/-- `get_node_description`. The table is read when no transaction works on
the node or the slot holds the valid version and is not deleted. -/
def getNodeDescription (xid : Nat) (nid : Nat) : DbM NodeDescription := do
  let n ← nodeById xid nid
  let o ← nodeTable.read n
  let s ← get
  let r := nodeTable.record s nid
  if !r.hasDirtyVersions ||
      (!o.isDirty && o.isValidFor xid && o.cts == INF) then
    let props ← ofExcept (s.nodeProperties.allProperties o.data.propertyList)
    return ⟨o.data.id, o.data.nodeLabel, props⟩
  else
    let dn ← ofExcept (r.findValidVersion xid)
    return ⟨o.data.id, dn.elem.data.nodeLabel,
      buildPropertiesFromPitems dn.properties⟩

/-- `get_rship_description`. Unlike a node's, a deleted relationship's
properties are still looked for in the table. -/
def getRshipDescription (xid : Nat) (rid : Nat) :
    DbM RshipDescription := do
  let n ← rshipById xid rid
  let o ← rshipTable.read n
  let s ← get
  let r := rshipTable.record s rid
  if !r.hasDirtyVersions || (!o.isDirty && o.isValidFor xid) then
    let props ← ofExcept (s.rshipProperties.allProperties o.data.propertyList)
    return ⟨o.data.id, o.data.srcNode, o.data.destNode, o.data.rshipLabel,
      props⟩
  else
    let dr ← ofExcept (r.findValidVersion xid)
    return ⟨o.data.id, o.data.srcNode, o.data.destNode,
      dr.elem.data.rshipLabel, buildPropertiesFromPitems dr.properties⟩

end Poseidon
