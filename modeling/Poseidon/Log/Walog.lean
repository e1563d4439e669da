import Poseidon.Lib.Bytes

/-!
# The write-ahead log

`walog.hpp`, `walog.cpp` and `common_log.hpp`: the log file of the
file-based store, the calls that append to it and the iterator that
recovery and `wal_dump` read it with.

A log record is a C struct that is written as it lies in memory. The first
four fields, `log_dummy`, are common to all of them; what follows depends on
the type codes in the first byte. The model keeps the fields as machine
words and writes them in the layout of the struct. Padding bytes, and the
two spare bits of the first byte, hold whatever the stack held before: every
call brings its own `pad`.

The file starts with a header that holds the last sequence number. The
header is written when the file is created and when the log is closed.
-/

namespace Poseidon

/-- `log_entry_type`. -/
inductive LogEntryType where
  | tx
  | insert
  | update
  | delete
  | chkpt
  deriving DecidableEq, Repr

/-- `log_object_type`. -/
inductive LogObjectType where
  | none
  | node
  | rship
  | property
  | dict
  deriving DecidableEq, Repr

/-- `log_tx_type`. -/
inductive LogTxType where
  | bot
  | commit
  | abort
  deriving DecidableEq, Repr

namespace LogEntryType

def code : LogEntryType → Nat
  | .tx => 1
  | .insert => 2
  | .update => 3
  | .delete => 4
  | .chkpt => 5

def ofCode : Nat → Option LogEntryType
  | 1 => some .tx
  | 2 => some .insert
  | 3 => some .update
  | 4 => some .delete
  | 5 => some .chkpt
  | _ => Option.none

@[simp] theorem ofCode_code (t : LogEntryType) : ofCode t.code = some t := by
  cases t <;> rfl

theorem code_lt (t : LogEntryType) : t.code < 8 := by
  cases t <;> decide

end LogEntryType

namespace LogObjectType

def code : LogObjectType → Nat
  | .none => 1
  | .node => 2
  | .rship => 3
  | .property => 4
  | .dict => 5

def ofCode : Nat → Option LogObjectType
  | 1 => some .none
  | 2 => some .node
  | 3 => some .rship
  | 4 => some .property
  | 5 => some .dict
  | _ => Option.none

@[simp] theorem ofCode_code (t : LogObjectType) : ofCode t.code = some t := by
  cases t <;> rfl

theorem code_lt (t : LogObjectType) : t.code < 8 := by
  cases t <;> decide

end LogObjectType

namespace LogTxType

def code : LogTxType → Nat
  | .bot => 1
  | .commit => 2
  | .abort => 3

def ofCode : Nat → Option LogTxType
  | 1 => some .bot
  | 2 => some .commit
  | 3 => some .abort
  | _ => Option.none

end LogTxType

/-- The `before` and `after` images of a node. -/
structure NodeImage where
  label : UInt32
  fromRshipList : UInt64
  toRshipList : UInt64
  propertyList : UInt64
  deriving DecidableEq, Repr

/-- The `before` and `after` images of a relationship. -/
structure RshipImage where
  label : UInt32
  srcNode : UInt64
  destNode : UInt64
  nextSrcRship : UInt64
  nextDestRship : UInt64
  deriving DecidableEq, Repr

/-- What a log record holds behind `log_dummy`. The array of a
`log_dict_record` is kept whole, with the bytes behind the terminating
zero. -/
inductive LogData where
  | node (op : LogEntryType) (oid : UInt64) (before after : NodeImage)
  | rship (op : LogEntryType) (oid : UInt64) (before after : RshipImage)
  | dict (code : UInt32) (str : Vector UInt8 1024)
  deriving DecidableEq, Repr

inductive LogPayload where
  | tx (cmd : LogTxType)
  | data (d : LogData)
  | chkpt
  deriving DecidableEq, Repr

/-- `log_tx_record`, `log_node_record`, `log_rship_record`,
`log_dict_record` and `log_checkpoint_record`. -/
structure LogRecord where
  lsn : UInt64
  txId : UInt64
  prevOffset : UInt64
  payload : LogPayload
  deriving DecidableEq, Repr

namespace LogPayload

def logType : LogPayload → LogEntryType
  | .tx _ => .tx
  | .data (.node op _ _ _) => op
  | .data (.rship op _ _ _) => op
  | .data (.dict _ _) => .insert
  | .chkpt => .chkpt

def objType : LogPayload → LogObjectType
  | .tx _ => .none
  | .data (.node ..) => .node
  | .data (.rship ..) => .rship
  | .data (.dict ..) => .dict
  | .chkpt => .none

end LogPayload

namespace NodeImage

def layout : List Nat := [4, 4, 8, 8, 8]

def fields (pad : Nat) (n : NodeImage) : List (Nat × Nat) :=
  [(4, n.label.toNat), (4, pad), (8, n.fromRshipList.toNat), (8, n.toRshipList.toNat),
    (8, n.propertyList.toNat)]

def ofFields : List Nat → Option NodeImage
  | [l, _, f, t, p] => some ⟨.ofNat l, .ofNat f, .ofNat t, .ofNat p⟩
  | _ => none

end NodeImage

namespace RshipImage

def layout : List Nat := [4, 4, 8, 8, 8, 8]

def fields (pad : Nat) (r : RshipImage) : List (Nat × Nat) :=
  [(4, r.label.toNat), (4, pad), (8, r.srcNode.toNat), (8, r.destNode.toNat),
    (8, r.nextSrcRship.toNat), (8, r.nextDestRship.toNat)]

def ofFields : List Nat → Option RshipImage
  | [l, _, s, d, ns, nd] => some ⟨.ofNat l, .ofNat s, .ofNat d, .ofNat ns, .ofNat nd⟩
  | _ => none

end RshipImage

/-- `log_dummy`: the bit fields of the first byte, padding, and three words. -/
def dummyLayout : List Nat := [1, 7, 8, 8, 8]

def dummySize : Nat := 32

namespace LogRecord

/-- The size of the struct. -/
def size (r : LogRecord) : Nat :=
  match r.payload with
  | .tx _ => 40
  | .data (.node ..) => 104
  | .data (.rship ..) => 120
  | .data (.dict ..) => 1064
  | .chkpt => 32

def dummyFields (pad : Nat → Nat) (r : LogRecord) : List (Nat × Nat) :=
  [(1, r.payload.logType.code + 8 * r.payload.objType.code + 64 * (pad 0 % 4)), (7, pad 1),
    (8, r.lsn.toNat), (8, r.txId.toNat), (8, r.prevOffset.toNat)]

/-- The bytes behind `log_dummy`. -/
def bodyBytes (pad : Nat → Nat) (r : LogRecord) : List UInt8 :=
  match r.payload with
  | .tx cmd => writeFields [(1, cmd.code), (7, pad 2)]
  | .data (.node _ oid before after) =>
      writeFields ((8, oid.toNat) :: (before.fields (pad 2) ++ after.fields (pad 3)))
  | .data (.rship _ oid before after) =>
      writeFields ((8, oid.toNat) :: (before.fields (pad 2) ++ after.fields (pad 3)))
  | .data (.dict code str) =>
      writeFields [(4, code.toNat)] ++ str.toList ++ writeFields [(4, pad 2)]
  | .chkpt => []

/-- The struct as it lies in memory. -/
def encode (pad : Nat → Nat) (r : LogRecord) : List UInt8 :=
  writeFields (r.dummyFields pad) ++ r.bodyBytes pad

end LogRecord

/-! ## Reading a record back

The iterator hands out its buffer through casts; `log_type`, `obj_type`,
`lsn` and `transaction_id` read the common prefix. -/

/-- The buffer `entry_` with the record that was read last. -/
abbrev LogEntry := List UInt8

namespace LogEntry

def logTypeCode (e : LogEntry) : Nat := (e.headD 0).toNat % 8

def objTypeCode (e : LogEntry) : Nat := (e.headD 0).toNat / 8 % 8

end LogEntry

/-- The array of a `log_dict_record`. -/
def charArray (bs : List UInt8) : Option (Vector UInt8 1024) :=
  if h : bs.length = 1024 then some ⟨bs.toArray, by simpa using h⟩ else none

/-- The cast of the bytes behind the prefix, by the type codes. -/
def LogPayload.ofBytes (objType : Option LogObjectType) (logType : Option LogEntryType)
    (body : List UInt8) : Option LogPayload :=
  match objType, logType with
  | some .none, some .tx => (LogTxType.ofCode (body.headD 0).toNat).map .tx
  | some .none, some .chkpt => some .chkpt
  | some .node, some op =>
      match readFields (8 :: (NodeImage.layout ++ NodeImage.layout)) body with
      | oid :: images => do
          let before ← NodeImage.ofFields (images.take 5)
          let after ← NodeImage.ofFields (images.drop 5)
          some (.data (.node op (.ofNat oid) before after))
      | [] => none
  | some .rship, some op =>
      match readFields (8 :: (RshipImage.layout ++ RshipImage.layout)) body with
      | oid :: images => do
          let before ← RshipImage.ofFields (images.take 6)
          let after ← RshipImage.ofFields (images.drop 6)
          some (.data (.rship op (.ofNat oid) before after))
      | [] => none
  | some .dict, some .insert =>
      (charArray ((body.drop 4).take 1024)).map fun str =>
        .data (.dict (.ofNat (ofLeBytes (body.take 4))) str)
  | _, _ => none

namespace LogEntry

def payload (e : LogEntry) : Option LogPayload :=
  LogPayload.ofBytes (LogObjectType.ofCode e.objTypeCode) (LogEntryType.ofCode e.logTypeCode)
    (e.drop dummySize)

/-- The record in the buffer. -/
def get (e : LogEntry) : Option LogRecord :=
  match readFields dummyLayout e with
  | [_, _, lsn, txId, prev] =>
      e.payload.map fun p => ⟨.ofNat lsn, .ofNat txId, .ofNat prev, p⟩
  | _ => none

end LogEntry

/-! ## The log file -/

/-- `file_header`: the file identifier, padding and the last sequence
number. -/
def headerSize : Nat := 16

def fileId : List UInt8 := [80, 83, 76, 71]

def headerBytes (pad : Nat) (lastLsn : UInt64) : List UInt8 :=
  fileId ++ writeFields [(4, pad), (8, lastLsn.toNat)]

/-- `wa_log`. A log whose file could not be opened has no stream. -/
structure WaLog where
  fp : Option File
  lastLsn : UInt64
  lastOffsets : UInt64 → Option UInt64

/-- A call that appends to the log, with the contents of the padding of the
record it writes. The record of `append` comes from the caller, who leaves
`prev_offset` unset. -/
inductive LogOp where
  | transactionBegin (txid : UInt64)
  | transactionCommit (txid : UInt64)
  | transactionAbort (txid : UInt64)
  | append (txid : UInt64) (prevOffset : UInt64) (entry : LogData)
  | checkpoint

structure LogCall where
  op : LogOp
  pad : Nat → Nat

namespace WaLog

/-- `wa_log::wa_log` on a path where there is no file, or a file with the
given bytes. -/
def waLog (pad : Nat) : Option (List UInt8) → WaLog
  | none =>
      { fp := some ((File.mk [] 0 false).fwrite (headerBytes pad 0))
        lastLsn := 0
        lastOffsets := fun _ => none }
  | some bytes =>
      let (header, f) := (File.mk bytes 0 false).fread headerSize
      if header.take 4 ≠ fileId ∨ header.length ≠ headerSize then
        { fp := none, lastLsn := 0, lastOffsets := fun _ => none }
      else
        { fp := some f.seekEnd
          lastLsn := .ofNat (ofLeBytes (header.drop 8))
          lastOffsets := fun _ => none }

/-- `next_lsn`. -/
def nextLsn (w : WaLog) : UInt64 := w.lastLsn + 1

/-- `last_offsets_[txid] = pos`. -/
def setOffset (w : WaLog) (txid : UInt64) (pos : Option UInt64) : UInt64 → Option UInt64 :=
  fun t => if t = txid then pos else w.lastOffsets t

/-- The record a call writes and the offsets it leaves, when the stream is
at `pos`. -/
def record (w : WaLog) (pos : UInt64) : LogOp → LogRecord × (UInt64 → Option UInt64)
  | .transactionBegin txid =>
      -- emplace keeps an entry that is there already
      (⟨w.nextLsn, txid, 0, .tx .bot⟩,
        w.setOffset txid (some ((w.lastOffsets txid).getD pos)))
  | .transactionCommit txid =>
      (⟨w.nextLsn, txid, (w.lastOffsets txid).getD 0, .tx .commit⟩, w.setOffset txid none)
  | .transactionAbort txid =>
      (⟨w.nextLsn, txid, (w.lastOffsets txid).getD 0, .tx .abort⟩, w.setOffset txid none)
  | .append txid prev entry =>
      (⟨w.nextLsn, txid, (w.lastOffsets txid).getD prev, .data entry⟩,
        w.setOffset txid (some pos))
  | .checkpoint => (⟨w.nextLsn, 0, 0, .chkpt⟩, w.lastOffsets)

/-- One call: the record it writes and the log after it. Without a stream
the call dereferences a null pointer. -/
def call (w : WaLog) (c : LogCall) : Option (LogRecord × WaLog) := do
  let f ← w.fp
  let f := match c.op with
    | .checkpoint => f.seekEnd
    | _ => f
  let (r, offsets) := w.record (.ofNat f.pos) c.op
  some (r, { fp := some (f.fwrite (r.encode c.pad)), lastLsn := w.nextLsn, lastOffsets := offsets })

/-- A sequence of calls and the records they write. -/
def calls (w : WaLog) : List LogCall → Option (List LogRecord × WaLog)
  | [] => some ([], w)
  | c :: cs => do
      let (r, w) ← w.call c
      let (rs, w) ← w.calls cs
      some (r :: rs, w)

/-- `close`: rewrite the header. -/
def close (pad : Nat) (w : WaLog) : Option (List UInt8) :=
  w.fp.map fun f => ((f.seekSet 0).fwrite (headerBytes pad w.lastLsn)).bytes

end WaLog

/-- The time between opening the log and the end of the process. A crash
leaves the records the calls have written and the header as it was. -/
structure LogSession where
  calls : List LogCall
  crash : Bool

/-- What is on disk after a session. -/
def LogSession.run (pad : Nat) (disk : Option (List UInt8)) (s : LogSession) :
    Option (List UInt8) := do
  let (_, w) ← (WaLog.waLog pad disk).calls s.calls
  if s.crash then w.fp.map File.bytes else w.close pad

/-- What is on disk after a sequence of sessions; at first there is no
file. -/
def LogSession.runAll (pad : Nat) : Option (List UInt8) → List LogSession →
    Option (Option (List UInt8))
  | disk, [] => some disk
  | disk, s :: ss => do
      let bytes ← s.run pad disk
      runAll pad (some bytes) ss

/-! ## Single records -/

/-- `buf_` has the size of a `log_rship_record`. -/
def bufSize : Nat := 120

/-- The switch of `fetch_record` over the object type. -/
def fetchSize (e : LogEntry) : Nat :=
  match LogObjectType.ofCode e.objTypeCode with
  | some .none => 40
  | some .node => 104
  | some .rship => 120
  | some .dict => 1064
  | _ => 0

/-- `fetch_record`: the prefix goes to a local struct that is not initialised,
and from there to the buffer, with the rest of the record behind it. No
result means that the read ends outside the buffer. -/
def fetchRecord (stack : Vector UInt8 32) (pos : Nat) (f : File) (buf : LogEntry) :
    Option (LogEntry × File) :=
  let (head, f) := (f.seekSet pos).fread dummySize
  if head.length = 0 ∧ f.eof then some (buf, f)
  else
    let dummy := head ++ stack.toList.drop head.length
    let (body, f) := f.fread ((fetchSize dummy + 2 ^ 64 - dummySize) % 2 ^ 64)
    if dummySize + body.length ≤ bufSize then
      some (dummy ++ body ++ buf.drop (dummySize + body.length), f)
    else none

/-- Follow `prev_offset` with `get_record` from the record at `pos` on, to a
record that has no predecessor, in at most the given number of steps. -/
def followChain (stack : Vector UInt8 32) :
    Nat → Nat → File → LogEntry → Option (List LogRecord)
  | 0, _, _, _ => none
  | fuel + 1, pos, f, buf => do
      let (buf, f) ← fetchRecord stack pos f buf
      let r ← buf.get
      if r.prevOffset = 0 then some [r]
      else (followChain stack fuel r.prevOffset.toNat f buf).map (r :: ·)

/-! ## The iterator -/

/-- The switch of `read_log_entry` over the type codes. -/
def entrySize (e : LogEntry) : Nat :=
  match LogObjectType.ofCode e.objTypeCode with
  | some .none =>
      match LogEntryType.ofCode e.logTypeCode with
      | some .tx => 40
      | some .chkpt => 32
      | _ => 0
  | some .node => 104
  | some .rship => 120
  | some .dict => 1064
  | _ => 0

/-- `read_log_entry`: the prefix, then as many bytes as its type asks for.
The difference is taken in `size_t`. No result means that the iterator has
dropped its stream. -/
def readLogEntry (f : File) : Option (LogEntry × File) :=
  let (head, f) := f.fread dummySize
  if head.length = 0 ∧ f.eof then none
  else
    let nbytes := entrySize head
    let (body, f) := f.fread ((nbytes + 2 ^ 64 - dummySize) % 2 ^ 64)
    if f.eof then none else some (head ++ body, f)

/-- The loop from an iterator to `log_end`, with at most the given number of
steps. -/
def logEntries : Nat → File → Option (List LogEntry)
  | 0, _ => none
  | fuel + 1, f =>
      match readLogEntry f with
      | none => some []
      | some (e, f) => (logEntries fuel f).map (e :: ·)

/-- The loop from `log_begin` to `log_end` ends with the given entries.
`rewind` needs the stream. -/
def WaLog.Iterates (w : WaLog) (es : List LogEntry) : Prop :=
  ∃ f fuel, w.fp = some f ∧ logEntries fuel (f.seekSet headerSize) = some es

end Poseidon
