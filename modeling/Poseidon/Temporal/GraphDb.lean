import Mathlib.Data.Nat.Basic
import Poseidon.Lib.OrdMap
import Poseidon.Store.Commit

/-!
# The temporal store: records, history and index

The store under `temporal_test`: every node and relationship has, beside its
slot, a logical id that is the same for all its versions and a valid time
`[vt_start, vt_end)`. The current version of a logical id is in the table of
hot records; superseded versions are archived as history records, and an
ordered index maps a logical id and the start of a valid time to one or the
other.

Nodes and relationships are treated alike almost everywhere, so the fields
they have in common are one structure with the adjacency fields beside them,
and all that is kept for one of the two kinds is a `Side`. The multiversion
part (`txn_data.hpp`), the property table and the record vectors are those of
the store without history.
-/

namespace Poseidon.Temporal

/-- `MAX_TIME`: the end of a valid time that is still open. -/
def MAX_TIME : Nat := 2 ^ 64 - 1

/-- The fields that `node` and `relationship` share; `links` are the
adjacency fields. -/
structure Versioned (ε : Type) where
  id : Nat
  logicalId : Nat
  propertyList : Nat
  label : Nat
  vtStart : Nat
  vtEnd : Nat
  prevVersion : Nat
  nextVersion : Nat
  updateCount : Nat
  links : ε
  deriving DecidableEq, Repr

/-- The heads of a node's adjacency lists. -/
structure NodeLinks where
  fromRshipList : Nat
  toRshipList : Nat
  deriving DecidableEq, Repr

/-- The ends of a relationship and its successors in their lists. -/
structure RshipLinks where
  srcNode : Nat
  destNode : Nat
  nextSrcRship : Nat
  nextDestRship : Nat
  deriving DecidableEq, Repr

/-- What a history record of a relationship keeps of its place in the
graph: the ends are logical ids. -/
structure RshipHistoryLinks where
  srcLid : Nat
  destLid : Nat
  nextSrc : Nat
  nextDest : Nat
  deriving DecidableEq, Repr

/-- `node_history_delta` and `rship_history_delta`. -/
structure HistoryDelta (δ : Type) where
  lid : Nat
  label : Nat
  vtStart : Nat
  vtEnd : Nat
  basePropertyList : Nat
  deltaPid : Nat
  prevVersion : Nat
  ttStart : Nat
  ttEnd : Nat
  links : δ
  deriving DecidableEq, Repr

/-- `node_checkpoint` and `rship_checkpoint`. -/
structure Checkpoint (γ : Type) where
  lid : Nat
  vt : Nat
  basePropertyList : Nat
  overlayPid : Nat
  links : γ
  deriving DecidableEq, Repr

/-- All that is kept for nodes, or for relationships: the table of hot
records, their properties, the map from logical ids to current versions, the
history records, the last of them for each logical id, and the checkpoints
of each logical id by their time. -/
structure Side (ε δ γ : Type) where
  vec : Vec (Versioned ε)
  props : PropertyList
  logicalIndex : Nat → Option Nat
  deltas : List (HistoryDelta δ)
  lastDelta : Nat → Option Nat
  checkpoints : Nat → OrdMap Nat (Checkpoint γ)

/-- What a submitted archival task has captured. A node's task also writes to
the record `newId` of the version that superseded the archived one. -/
structure Archival (δ : Type) where
  xid : Nat
  lid : Nat
  label : Nat
  vtStart : Nat
  pid : Nat
  links : δ
  updates : List PItem
  newVtStart : Nat
  newId : Option Nat
  deriving DecidableEq, Repr

/-- A task in the queue of the thread pool. -/
inductive Task where
  | node (a : Archival NodeLinks)
  | rship (a : Archival RshipHistoryLinks)
  deriving DecidableEq, Repr

/-- `graph_db` with its history manager. `updateCounts` and `index` serve
nodes and relationships together. -/
structure GraphDb where
  nodes : Side NodeLinks NodeLinks NodeLinks
  rships : Side RshipLinks RshipHistoryLinks Unit
  updateCounts : Nat → Nat
  index : OrdMap Nat Nat
  activeTx : List Nat
  oldestXid : Nat
  garbage : List GcItem
  txs : Nat → Transaction
  tasks : List Task

/-- A call on the store: a value or an error, and the store after it. -/
abbrev DbM := EStateM Err GraphDb

/-- Throw the error of a computation that may fail. -/
def ofExcept {β : Type} : Except Err β → DbM β
  | .ok b => pure b
  | .error e => throw e

/-- One of the two sides: where it is kept, the partition bit of its index
keys, and the lists of the transaction and of the collector it appears in. -/
structure Table (ε δ γ : Type) where
  side : GraphDb → Side ε δ γ
  setSide : Side ε δ γ → GraphDb → GraphDb
  isRel : Bool
  addDirty : Nat → Nat → GraphDb → GraphDb
  gcType : GcType

/-- Change the transaction object of `xid`. -/
def GraphDb.modifyTx (xid : Nat) (f : Transaction → Transaction)
    (s : GraphDb) : GraphDb :=
  { s with txs := fun x => if x = xid then f (s.txs x) else s.txs x }

/-- The nodes. -/
def nodeTable : Table NodeLinks NodeLinks NodeLinks where
  side s := s.nodes
  setSide v s := { s with nodes := v }
  isRel := false
  addDirty xid id s := s.modifyTx xid fun t =>
    { t with dirtyNodes := t.dirtyNodes ++ [id] }
  gcType := .gcNode

/-- The relationships. -/
def rshipTable : Table RshipLinks RshipHistoryLinks Unit where
  side s := s.rships
  setSide v s := { s with rships := v }
  isRel := true
  addDirty xid id s := s.modifyTx xid fun t =>
    { t with dirtyRships := t.dirtyRships ++ [id] }
  gcType := .gcRship

/-- The vector of a new database: slot `0` is reserved by a record that no
transaction made. -/
def reservedVec {ε : Type} (d : Versioned ε) : Vec (Versioned ε) where
  slots i :=
    ⟨i == 0, ⟨0, 0, INF, 0, false, false, { d with id := if i = 0 then 0 else d.id }⟩, [], 0⟩
  size := 1

/-- A new database. The fields of the reserved node are not initialised, so
they are a parameter, and so are those of slots that were never used. -/
def GraphDb.initial (n₀ : Versioned NodeLinks) : GraphDb where
  nodes := ⟨reservedVec n₀, PropertyList.empty, fun _ => none, [], fun _ => none,
    fun _ => OrdMap.empty⟩
  rships := ⟨reservedVec ⟨UNKNOWN, UNKNOWN, UNKNOWN, 0, UNKNOWN, UNKNOWN, UNKNOWN, UNKNOWN, 0,
    ⟨UNKNOWN, UNKNOWN, UNKNOWN, UNKNOWN⟩⟩, PropertyList.empty, fun _ => none, [],
    fun _ => none, fun _ => OrdMap.empty⟩
  updateCounts := fun _ => 0
  index := OrdMap.empty
  activeTx := []
  oldestXid := 0
  garbage := []
  txs := fun _ => ⟨false, [], []⟩
  tasks := []

section Tables

variable {ε δ γ : Type} (t : Table ε δ γ)

/-- Change a side. -/
def Table.modifySide (f : Side ε δ γ → Side ε δ γ) (s : GraphDb) : GraphDb :=
  t.setSide (f (t.side s)) s

/-- The record in a slot, in use or not. -/
def Table.record (s : GraphDb) (id : Nat) : Record (Versioned ε) :=
  (t.side s).vec.slots id

/-- Overwrite a slot. -/
def Table.setRecord (id : Nat) (r : Record (Versioned ε)) : GraphDb → GraphDb :=
  t.modifySide fun sd => { sd with vec := sd.vec.put id r }

/-- Change the object in a slot. -/
def Table.modifyObj (id : Nat) (f : Obj (Versioned ε) → Obj (Versioned ε)) (s : GraphDb) :
    GraphDb :=
  t.setRecord id { t.record s id with obj := f (t.record s id).obj } s

/-- Change the fields of the object in a slot. -/
def Table.modifyData (id : Nat) (f : Versioned ε → Versioned ε) : GraphDb → GraphDb :=
  t.modifyObj id fun o => { o with data := f o.data }

/-- Change the object a reference points to. -/
def Table.modifyAt (n : Ref) (f : Obj (Versioned ε) → Obj (Versioned ε)) (s : GraphDb) :
    GraphDb :=
  t.setRecord n.id ((t.record s n.id).modifyAt n.loc f) s

/-- `nodes_->get` and `rships_->get`. -/
def Table.getRecord (id : Nat) : DbM (Record (Versioned ε)) := do
  ofExcept ((t.side (← get)).vec.get id)

/-- `check_tx_context`. -/
def checkTxContext (xid : Nat) : DbM Unit := do
  unless ((← get).txs xid).running do throw .outOfTransactionScope

/-- `node_by_id` and `rship_by_id`. -/
def Table.byId (xid : Nat) (id : Nat) : DbM Ref := do
  checkTxContext xid
  let r ← t.getRecord id
  let r := { r with obj := (r.obj.prepare).setRts xid }
  modify (t.setRecord id r)
  let l ← ofExcept (r.getValidVersion xid)
  return ⟨id, l⟩

/-- The object a reference points to. -/
def Table.read (n : Ref) : DbM (Obj (Versioned ε)) := do
  match (t.record (← get) n.id).deref n.loc with
  | some o => return o
  | none => throw .danglingReference

/-- Run a computation on the property table of a side. -/
def Table.onProps {β : Type} (x : EStateM Err PropertyList β) : DbM β := fun s =>
  match x (t.side s).props with
  | .ok b p => .ok b (t.modifySide (fun sd => { sd with props := p }) s)
  | .error e p => .error e (t.modifySide (fun sd => { sd with props := p }) s)

/-- `add_pitems` on the property table of a side. -/
def Table.addPitems (owner : Nat) (items : List PItem) : DbM Nat :=
  t.onProps fun p => .ok (p.addPitems owner items).1 (p.addPitems owner items).2

/-- `find_current_node` and `find_current_rship`. -/
def Table.findCurrent (lid : Nat) (s : GraphDb) : Option Nat := (t.side s).logicalIndex lid

/-- Map a logical id to its current version. -/
def Table.setCurrent (lid id : Nat) : GraphDb → GraphDb :=
  t.modifySide fun sd => { sd with
    logicalIndex := fun l => if l = lid then some id else sd.logicalIndex l }

/-- Take a logical id out of the map. -/
def Table.eraseCurrent (lid : Nat) : GraphDb → GraphDb :=
  t.modifySide fun sd => { sd with
    logicalIndex := fun l => if l = lid then none else sd.logicalIndex l }

end Tables

end Poseidon.Temporal
