import Poseidon.Log.Walog
import Poseidon.Vec.BufferedVec

/-!
# Recovery from the log

`graph_db_recovery.cpp` of the file-based store: when a database is opened,
`apply_log` reads the log twice. The first pass finds the last checkpoint and
the transactions without a commit record, the second one repeats the records
behind the checkpoint in the tables. What is done with the transactions
without a commit record is `apply_undo`, and its body is empty.

The log is the list of the records that its iterator delivers. The tables are
record vectors over files. A relationship that is repeated from the log is
built on the stack, and two of its fields are never set: each record brings
what the stack holds there. When the page of a node is missing the source
writes a message; in which order the two arguments of the message are
evaluated is not specified, and the environment fixes it.
-/

namespace Poseidon

/-- The part of `txn<T>` that lies in the file. -/
structure TxnWords where
  txnId : UInt64
  bts : UInt64
  cts : UInt64
  rts : UInt64
  deriving DecidableEq, Repr, Inhabited

/-- `txn()`; `cts` is `INF`. -/
def TxnWords.new : TxnWords := ⟨0, 0, -1, 0⟩

/-- `node` as it lies in the file. -/
structure NodeRow where
  txn : TxnWords
  id : UInt64
  fromRshipList : UInt64
  toRshipList : UInt64
  propertyList : UInt64
  nodeLabel : UInt32
  deriving DecidableEq, Repr, Inhabited

/-- `relationship` as it lies in the file. -/
structure RshipRow where
  txn : TxnWords
  id : UInt64
  srcNode : UInt64
  destNode : UInt64
  nextSrcRship : UInt64
  nextDestRship : UInt64
  propertyList : UInt64
  rshipLabel : UInt32
  deriving DecidableEq, Repr, Inhabited

/-- What the stack holds where a `relationship` has no initial value. -/
structure StackWords where
  id : UInt64
  propertyList : UInt64
  deriving DecidableEq, Repr

/-- A record of the log with the stack at the time it is repeated. -/
structure RedoEntry where
  record : LogRecord
  stack : StackWords

/-- What recovery depends on: the number of records in a page of each table,
the order in which the arguments of a call are evaluated, and `dict::insert`,
which works on the dictionary alone. -/
structure RedoEnv (δ : Type) where
  nodesPerPage : Nat
  rshipsPerPage : Nat
  lastUsedFirst : Bool
  dictInsert : δ → Vector UInt8 1024 → δ

/-- The tables of the database. -/
structure Tables (δ : Type) where
  nodes : BufVec NodeRow
  rships : BufVec RshipRow
  dict : δ

namespace BufVec

variable {α : Type} [Inhabited α]

/-- `last_used`, of which only what it does to the file matters. -/
def lastUsed : M α PUnit := do
  let pid ← onFile (PagedFile.lastValidPage Chunk.empty)
  let _ ← onFile (PagedFile.readPage pid)

/-- `is_used`. -/
def isUsed (n idx : Nat) : M α Bool := do
  let (_, ch) ← findChunk n idx
  pure (ch.slots (idx % n))

/-- `remove` of `node_list` and `relationship_list`. -/
def remove (n id : Nat) : M α PUnit := do
  let v ← get
  if v.capacity ≤ id then throw .unknownId
  erase n id

/-- The `try` block of `apply_redo` for nodes, with its handler. -/
def redoStoreAt (n : Nat) (lastUsedFirst : Bool) (oid : Nat) (o : α) : M α PUnit := fun v =>
  match storeAt n oid o v with
  | .error .indexOutOfRange v' =>
      (do
        -- the arguments of the message
        if lastUsedFirst then
          lastUsed
          let _ ← isUsed n oid
        else
          let _ ← isUsed n oid
          lastUsed
        storeAt n oid o) v'
  | res => res

end BufVec

namespace Tables

variable {δ : Type}

abbrev M (δ : Type) := EStateM VecErr (Tables δ)

/-- A call on one of the tables. -/
def onNodes {β : Type} (x : BufVec.M NodeRow β) : M δ β := fun t =>
  match x t.nodes with
  | .ok b v => .ok b { t with nodes := v }
  | .error e v => .error e { t with nodes := v }

def onRships {β : Type} (x : BufVec.M RshipRow β) : M δ β := fun t =>
  match x t.rships with
  | .ok b v => .ok b { t with rships := v }
  | .error e v => .error e { t with rships := v }

end Tables

/-- The node that `apply_redo` builds. -/
def redoNode (oid : UInt64) (after : NodeImage) : NodeRow where
  txn := .new
  id := oid
  fromRshipList := after.fromRshipList
  toRshipList := after.toRshipList
  propertyList := after.propertyList
  nodeLabel := after.label

/-- The relationship that `apply_redo` builds. -/
def redoRship (stack : StackWords) (after : RshipImage) : RshipRow where
  txn := .new
  id := stack.id
  srcNode := after.srcNode
  destNode := after.destNode
  nextSrcRship := after.nextSrcRship
  nextDestRship := after.nextDestRship
  propertyList := stack.propertyList
  rshipLabel := after.label

section

variable {δ : Type}

/-- `apply_redo`. -/
def applyRedo (env : RedoEnv δ) (e : RedoEntry) : Tables.M δ PUnit :=
  match e.record.payload with
  | .tx _ => pure ⟨⟩
  | .chkpt => pure ⟨⟩
  | .data (.node op oid _ after) =>
      match op with
      | .tx => pure ⟨⟩
      | .insert | .update =>
          Tables.onNodes (BufVec.redoStoreAt env.nodesPerPage env.lastUsedFirst oid.toNat
            (redoNode oid after))
      | .delete => Tables.onNodes (BufVec.remove env.nodesPerPage oid.toNat)
      | .chkpt => pure ⟨⟩
  | .data (.rship op oid _ after) =>
      match op with
      | .tx => pure ⟨⟩
      | .insert | .update =>
          Tables.onRships (BufVec.storeAt env.rshipsPerPage oid.toNat (redoRship e.stack after))
      | .delete => Tables.onRships (BufVec.remove env.rshipsPerPage oid.toNat)
      | .chkpt => pure ⟨⟩
  | .data (.dict _ str) => modify fun t => { t with dict := env.dictInsert t.dict str }

/-- `apply_undo`. -/
def applyUndo (_txid : UInt64) : Tables.M δ PUnit := pure ⟨⟩

/-- What the first pass finds: the transactions without a commit record, and
the sequence number of the last checkpoint. -/
structure LogAnalysis where
  loserTx : List UInt64
  maxLsn : UInt64

/-- The body of the first loop. -/
def LogAnalysis.step (a : LogAnalysis) (r : LogRecord) : LogAnalysis :=
  match r.payload with
  | .tx .bot => { a with loserTx := a.loserTx.insert r.txId }
  | .tx .commit => { a with loserTx := a.loserTx.filter (· ≠ r.txId) }
  | .tx .abort => { a with loserTx := a.loserTx.insert r.txId }
  | .chkpt => { a with maxLsn := r.lsn }
  | .data _ => { a with loserTx := a.loserTx.insert r.txId }

def analyzeLog (log : List RedoEntry) : LogAnalysis :=
  log.foldl (fun a e => a.step e.record) ⟨[], 0⟩

/-- The records that the second loop repeats. -/
def redone (log : List RedoEntry) : List RedoEntry :=
  log.filter fun e =>
    decide ((analyzeLog log).maxLsn < e.record.lsn) && decide (e.record.payload.objType ≠ .none)

/-- `apply_log`. The flush and the checkpoint after a repetition concern the
buffer pool and the log. -/
def applyLog (env : RedoEnv δ) (log : List RedoEntry) : Tables.M δ PUnit := do
  (redone log).forM (applyRedo env)
  (analyzeLog log).loserTx.forM applyUndo

/-- The tables when their files have been opened. -/
def Tables.opened (env : RedoEnv δ) (t : Tables δ) : Tables δ :=
  { t with
    nodes := t.nodes.reopen env.nodesPerPage
    rships := t.rships.reopen env.rshipsPerPage }

/-- Opening the database. -/
def recover (env : RedoEnv δ) (log : List RedoEntry) (t : Tables δ) :
    EStateM.Result VecErr (Tables δ) PUnit :=
  applyLog env log (t.opened env)

end

end Poseidon
