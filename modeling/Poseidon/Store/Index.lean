import Poseidon.Lib.KeyMap
import Poseidon.Store.System

/-!
# Secondary indexes

`graph_db_index.cpp`, `index_map.cpp` and the places in `commit_dirty_node`
that maintain an index. An index is named after a label and a property, and
maps the raw value of the property to a node. The kind of tree is a parameter:
a map with unique keys (`KeyMap`), of whose `erase` nothing is assumed. Of the
dictionary there are the two translations, which agree on every code.

The indexes live beside the store, so a call runs in `IxM`; `onDb` runs what
only works on the store. A transaction writes to an index when it commits,
one index for each node: the first property of the list that has one.
-/

namespace Poseidon

/-- `dict`: the string of a code, and the code of a string. -/
structure Dict where
  lookupCode : Nat → String
  lookupString : String → Nat
  lookupString_lookupCode : ∀ c, lookupString (lookupCode c) = c

/-- The name under which an index is registered. -/
def indexName (nodeLabel propName : String) : String := nodeLabel ++ ":" ++ propName

/-- The same for the codes of a label and a property. -/
def Dict.indexName (d : Dict) (label key : Nat) : String :=
  Poseidon.indexName (d.lookupCode label) (d.lookupCode key)

/-- `index_map`. -/
abbrev IndexMap (B : KeyMap Nat Nat) := String → Option B.Map

/-- The store with its indexes. -/
structure IndexedDb (B : KeyMap Nat Nat) where
  db : GraphDb
  indexes : IndexMap B

/-- A call on the store and its indexes. -/
abbrev IxM (B : KeyMap Nat Nat) := EStateM Err (IndexedDb B)

section Calls

variable {B : KeyMap Nat Nat}

/-- A call that leaves the indexes alone. -/
def onDb {β : Type} (x : DbM β) : IxM B β := fun s =>
  match x s.db with
  | .ok b db => .ok b { s with db := db }
  | .error e db => .error e { s with db := db }

/-- The loop of `get_index(label, props)`: the first property that has an
index, and its place in the list. -/
def getIndexLoop (d : Dict) (ix : IndexMap B) (label : Nat) :
    Nat → List PItem → Option (String × Nat)
  | _, [] => none
  | pos, item :: rest =>
      if (ix (d.indexName label item.key)).isSome then
        some (d.indexName label item.key, pos)
      else getIndexLoop d ix label (pos + 1) rest

/-- `get_index(label, props)`. -/
def getIndex (d : Dict) (ix : IndexMap B) (label : Nat) (props : List PItem) :
    Option (String × Nat) := getIndexLoop d ix label 0 props

/-- Change the tree of an index. -/
def IndexMap.modify (ix : IndexMap B) (name : String) (f : B.Map → B.Map) : IndexMap B :=
  fun n => if n = name then (ix n).map f else ix n

/-- The item that `advance` reaches. A place behind the end of the list is
not there. -/
def itemAt (props : List PItem) (pos : Nat) : IxM B PItem :=
  match props[pos]? with
  | some p => pure p
  | none => throw .danglingReference

/-- `index_insert`. -/
def indexInsert (idx : String × Nat) (id : Nat) (props : List PItem) : IxM B Unit := do
  let p ← itemAt props idx.2
  modify fun s => { s with indexes := s.indexes.modify idx.1 (B.insert · p.value id) }

/-- `index_delete`. -/
def indexDelete (idx : String × Nat) (props : List PItem) : IxM B Unit := do
  let p ← itemAt props idx.2
  modify fun s => { s with indexes := s.indexes.modify idx.1 (B.erase · p.value) }

/-- `index_update`: the place is that of the new list, in both lists. -/
def indexUpdate (idx : String × Nat) (id : Nat) (oldProps newProps : List PItem) :
    IxM B Unit := do
  indexDelete idx oldProps
  indexInsert idx id newProps

/-- `commit_dirty_node`, with the index that it maintains. -/
def commitDirtyNodeIndexed (d : Dict) (xid id : Nat) : IxM B Unit := do
  let r ← onDb (nodeTable.getRecord id)
  if r.obj.cts ≠ INF then
    onDb (modify (nodeTable.setRecord id (r.removeDirtyVersion 0)))
    return
  match r.dirtyList with
  | [] => throw .transactionAbort
  | dn :: rest =>
      if !dn.updateMode then
        -- insert
        onDb (nodeTable.copyProperties id dn)
        onDb (modify (nodeTable.modifyObj id fun o => { o with
          bts := xid, cts := INF, data := copyNodeFields o.data dn.elem.data }))
        if let some idx := getIndex d (← get).indexes dn.elem.data.nodeLabel dn.properties then
          indexInsert idx dn.elem.data.id dn.properties
        onDb (modify fun s =>
          nodeTable.setRecord id { nodeTable.record s id with dirtyList := rest } s)
      else if dn.elem.bts = dn.elem.cts then
        -- delete
        let pl := r.obj.data.propertyList
        onDb (do ofExcept ((← get).nodeProperties.foreachPropertySet pl))
        onDb (modify fun s => { s with garbage := s.garbage ++ [⟨xid, id, .gcNode⟩] })
        onDb (modify (nodeTable.modifyObj id fun o => { o with cts := xid }))
        let props ← onDb (do ofExcept ((← get).nodeProperties.buildDirtyPropertyList pl))
        if let some idx := getIndex d (← get).indexes dn.elem.data.nodeLabel props then
          indexDelete idx props
        onDb (do
          let r ← ofExcept (nodeTable.record (← get) id).popUnlock
          modify (nodeTable.setRecord id r))
        onDb (nodeTable.onProps (PropertyList.removeProperties pl))
        onDb (modify (nodeTable.modifyObj id fun o => { o with
          data := { o.data with propertyList := UNKNOWN } }))
      else
        -- update
        onDb (modify (nodeTable.modifyObj id fun o => { o with
          bts := xid, cts := INF, data := copyNodeFields o.data dn.elem.data }))
        onDb (nodeTable.copyProperties id dn)
        if let some idx := getIndex d (← get).indexes dn.elem.data.nodeLabel dn.properties then
          match rest with
          | [] => throw .danglingReference
          | old :: _ => indexUpdate idx dn.elem.data.id old.properties dn.properties
        onDb (do
          let r ← ofExcept (nodeTable.record (← get) id).popUnlock
          modify (nodeTable.setRecord id r))
      onDb (modify (nodeTable.modifyObj id Obj.unlock))
      onDb (modify fun s =>
        nodeTable.setRecord id ((nodeTable.record s id).gc s.oldestXid) s)

/-- `commit_transaction`, with the indexes that it maintains. -/
def commitTransactionIndexed (d : Dict) (xid : Nat) : IxM B Bool := do
  onDb (checkTxContext xid)
  onDb (modify (leaveActive xid))
  onDb (do ((← get).txs xid).dirtyRships.forM (commitDirtyRelationship xid))
  ((← get).db.txs xid).dirtyNodes.forM (commitDirtyNodeIndexed d xid)
  onDb (modify (GraphDb.modifyTx xid fun t => { t with running := false }))
  onDb vacuum
  return true

/-- What `create_index` does with a node of the label: a value that is not
empty is inserted, also the one that stands for a missing property. -/
def fillIndex (s : GraphDb) (pc : Nat) : B.Map → List Ref → Except Err B.Map
  | tree, [] => .ok tree
  | tree, n :: rest =>
      match (nodeTable.record s n.id).deref n.loc with
      | none => .error .danglingReference
      | some o =>
          match nodeTable.getPropertyValue s o pc with
          | .error e => .error e
          | .ok v =>
              fillIndex s pc (if v.empty then tree else B.insert tree v.value o.data.id) rest

/-- `register_index`: a name that is taken keeps its index. -/
def IndexMap.register (ix : IndexMap B) (name : String) (tree : B.Map) : IndexMap B :=
  fun n => if n = name then some ((ix n).getD tree) else ix n

/-- `create_index`. -/
def createIndex (d : Dict) (xid : Nat) (nodeLabel propName : String) : IxM B Unit := do
  onDb (checkTxContext xid)
  let s := (← get).db
  let scan := nodesByLabel s xid (d.lookupString nodeLabel)
  match fillIndex s (d.lookupString propName) B.empty scan.delivered, scan.ended with
  | .error e, _ | .ok _, some e => throw e
  | .ok tree, none =>
      modify fun s => { s with
        indexes := s.indexes.register (indexName nodeLabel propName) tree }

/-- `index_lookup`: the nodes handed to the consumer. -/
def indexLookup (xid : Nat) (tree : B.Map) (key : Nat) : DbM (List Ref) := do
  match B.lookup tree key with
  | none => return []
  | some val => return [← nodeById xid val]

end Calls

/-! ## The system with its indexes -/

/-- The clients and the store, with its indexes. -/
structure IndexedSys (B : KeyMap Nat Nat) where
  sys : Sys
  indexes : IndexMap B

/-- A call of a transaction, or an index that it creates. -/
inductive IndexedStep where
  | call (a : Step)
  | createIndex (xid : Nat) (nodeLabel propName : String)

namespace IndexedSys

variable {B : KeyMap Nat Nat}

/-- A new database has no indexes. -/
def initial : IndexedSys B := ⟨Sys.initial, fun _ => none⟩

/-- Run a call on the store and its indexes; what it has changed before an
exception stays. -/
def onStore {β : Type} (s : IndexedSys B) (x : IxM B β) : IndexedSys B :=
  match x ⟨s.sys.db, s.indexes⟩ with
  | .ok _ s' | .error _ s' => ⟨{ s.sys with db := s'.db }, s'.indexes⟩

/-- The system after a step. -/
def step (d : Dict) (s : IndexedSys B) : IndexedStep → IndexedSys B
  | .call (.commit xid) => s.onStore (commitTransactionIndexed d xid)
  | .call a => { s with sys := s.sys.step a }
  | .createIndex xid nodeLabel propName => s.onStore (createIndex d xid nodeLabel propName)

/-- The system after a run. -/
def run (d : Dict) (s : IndexedSys B) (as : List IndexedStep) : IndexedSys B :=
  as.foldl (step d) s

end IndexedSys

end Poseidon
