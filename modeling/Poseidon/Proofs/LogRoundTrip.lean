import Poseidon.Log.Walog

/-!
# What the log iterator reads

A record that lies in the file as a whole is read back with all its fields,
whatever the padding holds; a record that is cut off anywhere ends the
iteration, because the first byte of what is left still says how long the
record should be. By induction over the records, iterating over a log that
was cut at any byte gives the records that are complete.

The only cuts that do not work are those inside the file header: the
constructor gives up on such a file, and `log_begin` rewinds a stream that
is not there.
-/

namespace Poseidon

/-! ## One record -/

@[simp] theorem u64_ofNat_mod (x : UInt64) : UInt64.ofNat (x.toNat % 256 ^ 8) = x := by
  have h : x.toNat < 256 ^ 8 := x.toNat_lt
  rw [Nat.mod_eq_of_lt h, UInt64.ofNat_toNat]

@[simp] theorem u32_ofNat_mod (x : UInt32) : UInt32.ofNat (x.toNat % 256 ^ 4) = x := by
  have h : x.toNat < 256 ^ 4 := x.toNat_lt
  rw [Nat.mod_eq_of_lt h, UInt32.ofNat_toNat]

namespace LogRecord

variable (pad : Nat → Nat) (r : LogRecord)

theorem bodyBytes_length : (r.bodyBytes pad).length + dummySize = r.size := by
  obtain ⟨lsn, txId, prev, payload⟩ := r
  rcases payload with cmd | d | _
  · simp [bodyBytes, size, dummySize]
  · cases d <;> simp [bodyBytes, size, dummySize, NodeImage.fields, RshipImage.fields]
  · simp [bodyBytes, size, dummySize]

theorem dummy_length : (writeFields (r.dummyFields pad)).length = dummySize := by
  simp [dummyFields, dummySize]

theorem encode_length : (r.encode pad).length = r.size := by
  rw [encode, List.length_append, dummy_length, ← r.bodyBytes_length pad]
  omega

theorem size_pos : 0 < r.size := by
  unfold size
  split <;> decide

theorem size_le : r.size ≤ 1064 := by
  unfold size
  split <;> decide

/-- The first byte of a record. -/
def typeByte : UInt8 :=
  .ofNat (r.payload.logType.code + 8 * r.payload.objType.code + 64 * (pad 0 % 4))

theorem encode_eq_cons : ∃ bs, r.encode pad = r.typeByte pad :: bs :=
  ⟨_, rfl⟩

theorem typeByte_toNat : (r.typeByte pad).toNat =
    r.payload.logType.code + 8 * r.payload.objType.code + 64 * (pad 0 % 4) := by
  have h1 := r.payload.logType.code_lt
  have h2 := r.payload.objType.code_lt
  have h3 : r.payload.logType.code + 8 * r.payload.objType.code + 64 * (pad 0 % 4) < 256 := by
    omega
  rw [typeByte, UInt8.toNat_ofNat_of_lt' h3]

end LogRecord

namespace LogEntry

variable {pad : Nat → Nat} {r : LogRecord} {e : LogEntry}

/-- The type codes are read from the first byte. -/
theorem logTypeCode_of_head (h : e.headD 0 = r.typeByte pad) :
    e.logTypeCode = r.payload.logType.code := by
  have h1 := r.payload.logType.code_lt
  rw [logTypeCode, h, r.typeByte_toNat]
  omega

theorem objTypeCode_of_head (h : e.headD 0 = r.typeByte pad) :
    e.objTypeCode = r.payload.objType.code := by
  have h1 := r.payload.logType.code_lt
  have h2 := r.payload.objType.code_lt
  rw [objTypeCode, h, r.typeByte_toNat]
  omega

/-- So the size of a record is known as soon as its first byte is. -/
theorem entrySize_of_head (h : e.headD 0 = r.typeByte pad) : entrySize e = r.size := by
  rw [entrySize, objTypeCode_of_head h, logTypeCode_of_head h, LogObjectType.ofCode_code,
    LogEntryType.ofCode_code, LogRecord.size]
  rcases hp : r.payload with cmd | d | _
  · rfl
  · cases d <;> rfl
  · rfl

/-- The bytes behind the prefix give the payload back, whatever follows
them. -/
theorem payload_append (rest : List UInt8) :
    LogEntry.payload (r.encode pad ++ rest) = some r.payload := by
  have hfields : ∀ fs : List (Nat × Nat),
      readFields (fs.map Prod.fst) (writeFields fs ++ rest) = fs.map fun f => f.2 % 256 ^ f.1 :=
    fun fs => readFields_writeFields fs rest
  have hhead : (r.encode pad ++ rest).headD 0 = r.typeByte pad := by
    obtain ⟨bs, hbs⟩ := r.encode_eq_cons pad
    rw [hbs]
    rfl
  have hdrop : (r.encode pad ++ rest).drop dummySize = r.bodyBytes pad ++ rest := by
    rw [LogRecord.encode, List.append_assoc, ← r.dummy_length pad, List.drop_left]
  rw [payload, hdrop, objTypeCode_of_head hhead, logTypeCode_of_head hhead,
    LogObjectType.ofCode_code, LogEntryType.ofCode_code]
  obtain ⟨lsn, txId, prev, p⟩ := r
  rcases p with cmd | d | _
  · cases cmd <;> rfl
  · cases d with
    | node op oid before after =>
        have h := hfields ((8, oid.toNat) :: (before.fields (pad 2) ++ after.fields (pad 3)))
        change readFields (8 :: (NodeImage.layout ++ NodeImage.layout)) _ = _ at h
        simp only [LogPayload.ofBytes, LogPayload.objType, LogPayload.logType,
          LogRecord.bodyBytes, h]
        simp [NodeImage.fields, NodeImage.ofFields, -Nat.reducePow]
    | rship op oid before after =>
        have h := hfields ((8, oid.toNat) :: (before.fields (pad 2) ++ after.fields (pad 3)))
        change readFields (8 :: (RshipImage.layout ++ RshipImage.layout)) _ = _ at h
        simp only [LogPayload.ofBytes, LogPayload.objType, LogPayload.logType,
          LogRecord.bodyBytes, h]
        simp [RshipImage.fields, RshipImage.ofFields, -Nat.reducePow]
    | dict code str =>
        have hlen : (writeFields [(4, code.toNat)]).length = 4 := by simp
        have hcode : ofLeBytes (writeFields [(4, code.toNat)]) = code.toNat % 256 ^ 4 := by
          simp [writeFields, ofLeBytes_leBytes]
        have hstr : (((writeFields [(4, code.toNat)] ++ str.toList ++
            writeFields [(4, pad 2)] ++ rest).drop 4).take 1024) = str.toList := by
          rw [List.append_assoc, List.append_assoc, List.drop_append_of_le_length (by omega),
            List.drop_of_length_le (by omega), List.nil_append,
            List.take_append_of_le_length (by simp), List.take_of_length_le (by simp)]
        have htake : (writeFields [(4, code.toNat)] ++ str.toList ++
            writeFields [(4, pad 2)] ++ rest).take 4 = writeFields [(4, code.toNat)] := by
          rw [List.append_assoc, List.append_assoc, List.take_append_of_le_length (by omega),
            List.take_of_length_le (by omega)]
        have harr : charArray str.toList = some str := by
          rw [charArray, dif_pos (by simp)]
          exact congrArg some (Vector.toArray_inj.mp (Array.toArray_toList))
        simp only [LogPayload.ofBytes, LogPayload.objType, LogPayload.logType, LogRecord.bodyBytes,
          hstr, htake, hcode, u32_ofNat_mod, harr, Option.map_some]
  · rfl

/-- A record is read back as it was written, also when other bytes follow. -/
theorem get_append (rest : List UInt8) : LogEntry.get (r.encode pad ++ rest) = some r := by
  have h := readFields_writeFields (r.dummyFields pad) (r.bodyBytes pad ++ rest)
  rw [← List.append_assoc] at h
  change readFields dummyLayout (r.encode pad ++ rest) = _ at h
  rw [get, h, payload_append]
  simp [LogRecord.dummyFields, -Nat.reducePow]

theorem get_encode : LogEntry.get (r.encode pad) = some r := by
  have h : LogEntry.get (r.encode pad ++ []) = some r := get_append []
  rwa [List.append_nil] at h

end LogEntry

/-! ## One read -/

section

variable {f : File} {r : LogRecord} {pad : Nat → Nat}

/-- The iterator reads a complete record and stops behind it. -/
theorem readLogEntry_full {rest : List UInt8} (heof : f.eof = false)
    (hd : f.bytes.drop f.pos = r.encode pad ++ rest) :
    readLogEntry f = some (r.encode pad, { f with pos := f.pos + r.size }) := by
  have hlen := r.bodyBytes_length pad
  have hle := r.size_le
  rw [LogRecord.encode, List.append_assoc] at hd
  have hread1 := File.fread_full heof hd (r.dummy_length pad)
  have hd2 : f.bytes.drop (f.pos + dummySize) = r.bodyBytes pad ++ rest := by
    rw [← List.drop_drop, hd, ← r.dummy_length pad, List.drop_left]
  have hread2 := @File.fread_full { f with pos := f.pos + dummySize } _ _ _ heof hd2 rfl
  have hsize : entrySize (writeFields (r.dummyFields pad)) = r.size :=
    LogEntry.entrySize_of_head rfl
  have hbody : (r.size + 2 ^ 64 - dummySize) % 2 ^ 64 = (r.bodyBytes pad).length := by
    omega
  have hne : ¬((writeFields (r.dummyFields pad)).length = 0 ∧ f.eof = true) := by
    simp [heof]
  have hpos : f.pos + dummySize + (r.bodyBytes pad).length = f.pos + r.size := by
    omega
  simp only [readLogEntry, hread1]
  rw [if_neg hne, hsize, hbody, hread2, if_neg (by simp [heof])]
  simp only [hpos, LogRecord.encode]

/-- A record that is cut off ends the iteration. -/
theorem readLogEntry_torn {n : Nat} (heof : f.eof = false) (hn : n < r.size)
    (hd : f.bytes.drop f.pos = (r.encode pad).take n) : readLogEntry f = none := by
  have hlen := r.encode_length pad
  have hbl := r.bodyBytes_length pad
  have hle := r.size_le
  have hdl : (f.bytes.drop f.pos).length = n := by
    rw [hd, List.length_take]
    omega
  by_cases hdummy : n < dummySize
  · -- the end of the file falls into the prefix
    obtain ⟨h1, h2⟩ := File.fread_short heof (by omega : (f.bytes.drop f.pos).length < dummySize)
    simp only [readLogEntry]
    split
    · rfl
    · rw [File.fread_eof h2, if_pos h2]
  · -- the end of the file falls into the body
    have hsplit : f.bytes.drop f.pos =
        writeFields (r.dummyFields pad) ++ (r.bodyBytes pad).take (n - dummySize) := by
      rw [hd, LogRecord.encode, List.take_append, r.dummy_length,
        List.take_of_length_le (by rw [r.dummy_length]; omega)]
    have hread1 := File.fread_full heof hsplit (r.dummy_length pad)
    have hd2 : f.bytes.drop (f.pos + dummySize) = (r.bodyBytes pad).take (n - dummySize) := by
      rw [← List.drop_drop, hsplit, ← r.dummy_length pad, List.drop_left]
    have hsize : entrySize (writeFields (r.dummyFields pad)) = r.size :=
      LogEntry.entrySize_of_head rfl
    have hbody : (r.size + 2 ^ 64 - dummySize) % 2 ^ 64 = (r.bodyBytes pad).length := by
      omega
    have hshort : (f.bytes.drop (f.pos + dummySize)).length < (r.bodyBytes pad).length := by
      rw [hd2, List.length_take]
      omega
    have hne : ¬((writeFields (r.dummyFields pad)).length = 0 ∧ f.eof = true) := by
      simp [heof]
    obtain ⟨-, h2⟩ := @File.fread_short { f with pos := f.pos + dummySize } _ heof hshort
    simp only [readLogEntry, hread1]
    rw [if_neg hne, hsize, hbody, if_pos h2]

/-- At the end of the file the iterator drops its stream. -/
theorem readLogEntry_end (heof : f.eof = false) (hd : f.bytes.drop f.pos = []) :
    readLogEntry f = none := by
  obtain ⟨h1, h2⟩ := File.fread_short heof
    (by rw [hd]; decide : (f.bytes.drop f.pos).length < dummySize)
  simp only [readLogEntry]
  rw [if_pos ⟨by rw [h1, hd]; rfl, h2⟩]

end

/-! ## A file of records -/

/-- The bytes of a sequence of records, with some padding in each. -/
inductive Encodes : List LogRecord → List UInt8 → Prop
  | nil : Encodes [] []
  | cons {r : LogRecord} {rs : List LogRecord} {bs : List UInt8} (pad : Nat → Nat)
      (h : Encodes rs bs) : Encodes (r :: rs) (r.encode pad ++ bs)

theorem Encodes.append {rs rs' : List LogRecord} {bs bs' : List UInt8} (h : Encodes rs bs)
    (h' : Encodes rs' bs') : Encodes (rs ++ rs') (bs ++ bs') := by
  induction h with
  | nil => exact h'
  | cons pad _ ih =>
      rw [List.cons_append, List.append_assoc]
      exact .cons pad ih

/-- The longest prefix of the records that, written from `off` on, lies
within the first `k` bytes of the file. -/
def completeRecords (k : Nat) : Nat → List LogRecord → List LogRecord
  | _, [] => []
  | off, r :: rs =>
      if off + r.size ≤ k then r :: completeRecords k (off + r.size) rs else []

theorem completeRecords_all {k off : Nat} {rs : List LogRecord} {bs : List UInt8}
    (h : Encodes rs bs) (hk : off + bs.length ≤ k) : completeRecords k off rs = rs := by
  induction h generalizing off with
  | nil => rfl
  | @cons r rs bs pad _ ih =>
      rw [List.length_append, r.encode_length] at hk
      rw [completeRecords, if_pos (by omega), ih (by omega)]

/-- Iterating over a cut file gives the records that are complete. -/
theorem logEntries_complete {k : Nat} {f : File} {rs : List LogRecord} {bs : List UInt8}
    (h : Encodes rs bs) (heof : f.eof = false)
    (hd : f.bytes.drop f.pos = bs.take (k - f.pos)) :
    ∃ es, logEntries (rs.length + 1) f = some es ∧
      es.map LogEntry.get = (completeRecords k f.pos rs).map some := by
  induction h generalizing f with
  | nil =>
      rw [List.take_nil] at hd
      exact ⟨[], by rw [logEntries, readLogEntry_end heof hd], rfl⟩
  | @cons r rs bs pad _ ih =>
      have hlen := r.encode_length pad
      by_cases hk : f.pos + r.size ≤ k
      · have hsplit : f.bytes.drop f.pos = r.encode pad ++ bs.take (k - (f.pos + r.size)) := by
          rw [hd, List.take_append, List.take_of_length_le (by omega), hlen, Nat.sub_sub]
        have hrest : f.bytes.drop (f.pos + r.size) = bs.take (k - (f.pos + r.size)) := by
          rw [← List.drop_drop, hsplit, ← hlen, List.drop_left]
        obtain ⟨es, hes, hmap⟩ := @ih { f with pos := f.pos + r.size } heof hrest
        refine ⟨r.encode pad :: es, ?_, ?_⟩
        · rw [List.length_cons, logEntries, readLogEntry_full heof hsplit]
          simp only [hes, Option.map_some]
        · rw [List.map_cons, LogEntry.get_encode, hmap, completeRecords, if_pos hk, List.map_cons]
      · refine ⟨[], ?_, ?_⟩
        · have htorn : f.bytes.drop f.pos = (r.encode pad).take (k - f.pos) := by
            rw [hd, List.take_append_of_le_length (by omega)]
          have hpos := r.size_pos
          rw [logEntries, readLogEntry_torn heof (by omega) htorn]
        · rw [completeRecords, if_neg hk]
          rfl

/-! ## What the calls write -/

/-- A log whose stream is at the end of a file that holds the given header
and records. -/
def WaLog.Holds (w : WaLog) (header : List UInt8) (rs : List LogRecord) : Prop :=
  ∃ bs, Encodes rs bs ∧ w.fp = some ⟨header ++ bs, (header ++ bs).length, false⟩

/-- The sequence numbers of `n` calls after `lsn`. -/
def lsnsAfter (lsn : UInt64) : Nat → List UInt64
  | 0 => []
  | n + 1 => (lsn + 1) :: lsnsAfter (lsn + 1) n

theorem headerBytes_length (pad : Nat) (lsn : UInt64) :
    (headerBytes pad lsn).length = headerSize := by
  simp [headerBytes, headerSize, fileId]

namespace WaLog

variable {w : WaLog} {header : List UInt8} {rs : List LogRecord}

/-- A call appends its record. -/
theorem Holds.call (h : w.Holds header rs) (c : LogCall) :
    ∃ r w', w.call c = some (r, w') ∧ r.lsn = w.lastLsn + 1 ∧ w'.lastLsn = w.lastLsn + 1 ∧
      w'.Holds header (rs ++ [r]) := by
  obtain ⟨bs, hbs, hfp⟩ := h
  have happend : ∀ r : LogRecord, Encodes (rs ++ [r]) (bs ++ r.encode c.pad) := by
    intro r
    have h1 : Encodes [r] (r.encode c.pad ++ []) := .cons c.pad .nil
    rw [List.append_nil] at h1
    exact hbs.append h1
  have hseek : ∀ bytes, (File.mk bytes bytes.length false).seekEnd = ⟨bytes, bytes.length, false⟩ :=
    fun _ => rfl
  obtain ⟨op, pad⟩ := c
  simp only [WaLog.call, hfp, Option.bind_eq_bind, Option.bind_some]
  refine ⟨_, _, rfl, ?_, rfl, _, happend _, ?_⟩
  · cases op <;> rfl
  · cases op <;> simp only [hseek] <;> rw [File.fwrite_end rfl] <;>
      simp only [List.append_assoc]

/-- A sequence of calls appends one record each, numbered from the last
sequence number of the log on. -/
theorem Holds.calls (h : w.Holds header rs) (cs : List LogCall) :
    ∃ rs' w', w.calls cs = some (rs', w') ∧
      rs'.map LogRecord.lsn = lsnsAfter w.lastLsn cs.length ∧
      w'.lastLsn = w.lastLsn + .ofNat cs.length ∧ w'.Holds header (rs ++ rs') := by
  induction cs generalizing w rs with
  | nil => exact ⟨[], w, rfl, rfl, by simp, by rwa [List.append_nil]⟩
  | cons c cs ih =>
      obtain ⟨r, w1, hcall, hlsn, hlast, hholds⟩ := h.call c
      obtain ⟨rs', w2, hcalls, hlsns, hlast2, hholds2⟩ := ih hholds
      refine ⟨r :: rs', w2, ?_, ?_, ?_, ?_⟩
      · simp only [WaLog.calls, hcall, hcalls, Option.bind_eq_bind, Option.bind_some]
      · rw [List.map_cons, hlsn, hlsns, hlast]
        rfl
      · rw [hlast2, hlast, List.length_cons, Nat.add_comm, UInt64.ofNat_add, UInt64.add_assoc]
        rfl
      · rwa [List.append_assoc] at hholds2

/-- A new log holds no record. -/
theorem waLog_fresh (pad : Nat) : (waLog pad none).Holds (headerBytes pad 0) [] := by
  refine ⟨[], .nil, ?_⟩
  rw [waLog, File.fwrite_end rfl]
  simp

/-- Opening a file whose header is complete. -/
theorem waLog_header {hpad : Nat} {lsn : UInt64} {rest : List UInt8} (pad : Nat) :
    waLog pad (some (headerBytes hpad lsn ++ rest)) =
      { fp := some ⟨headerBytes hpad lsn ++ rest, (headerBytes hpad lsn ++ rest).length, false⟩
        lastLsn := lsn
        lastOffsets := fun _ => none } := by
  have hread := @File.fread_full ⟨headerBytes hpad lsn ++ rest, 0, false⟩ _ _ rest rfl rfl
    (headerBytes_length hpad lsn)
  have htake : (headerBytes hpad lsn).take 4 = fileId := rfl
  have hlsn : ofLeBytes ((headerBytes hpad lsn).drop 8) = lsn.toNat % 256 ^ 8 := by
    have h := ofLeBytes_leBytes 8 lsn.toNat
    have hdrop : (headerBytes hpad lsn).drop 8 = leBytes 8 lsn.toNat := by
      simp [headerBytes, fileId, writeFields, leBytes]
    rw [hdrop, h]
  simp only [waLog, hread]
  rw [if_neg (by simp [htake, headerBytes_length]), hlsn, u64_ofNat_mod]
  rfl

/-- Opening a file that ends inside the header gives no stream. -/
theorem waLog_torn {bytes : List UInt8} (pad : Nat) (h : bytes.length < headerSize) :
    (waLog pad (some bytes)).fp = none := by
  obtain ⟨h1, -⟩ := @File.fread_short ⟨bytes, 0, false⟩ headerSize rfl (by simpa using h)
  have hlen : ((File.mk bytes 0 false).fread headerSize).1.length ≠ headerSize := by
    rw [h1]
    simp only [List.drop_zero]
    omega
  simp only [waLog]
  rw [if_pos (.inr hlen)]

end WaLog

/-! ## The round trip -/

/-- Writing the calls to a new log, cutting the file to `k` bytes and
opening it again: the iteration ends and gives the records that are
complete in the first `k` bytes. -/
def RoundTrips (pad : Nat) (cs : List LogCall) (k : Nat) : Prop :=
  ∃ rs w f es, (WaLog.waLog pad none).calls cs = some (rs, w) ∧ w.fp = some f ∧
    (WaLog.waLog pad (some (f.bytes.take k))).Iterates es ∧
    es.map LogEntry.get = (completeRecords k headerSize rs).map some

/-- A cut log is read back up to the last complete record, exactly when the
cut leaves the file header. -/
theorem log_round_trip_iff (pad : Nat) (cs : List LogCall) (k : Nat) :
    RoundTrips pad cs k ↔ headerSize ≤ k := by
  obtain ⟨rs, w, hcalls, -, -, bs, hbs, hfp⟩ := (WaLog.waLog_fresh pad).calls cs
  have hlen := headerBytes_length pad 0
  constructor
  · rintro ⟨rs', w', f, es, hcalls', hfp', ⟨g, -, hg, -⟩, -⟩
    -- inside the header there is no stream to rewind
    by_contra hk
    rw [WaLog.waLog_torn pad (by rw [List.length_take]; omega)] at hg
    cases hg
  · intro hk
    have hcut : (headerBytes pad 0 ++ bs).take k =
        headerBytes pad 0 ++ bs.take (k - headerSize) := by
      rw [List.take_append, List.take_of_length_le (by omega), hlen]
    have hdrop : ((headerBytes pad 0 ++ bs).take k).drop headerSize =
        bs.take (k - headerSize) := by
      rw [hcut, ← hlen, List.drop_left]
    obtain ⟨es, hes, hmap⟩ := @logEntries_complete k
      ⟨(headerBytes pad 0 ++ bs).take k, headerSize, false⟩ _ _ hbs rfl hdrop
    have hopen := @WaLog.waLog_header pad 0 (bs.take (k - headerSize)) pad
    rw [← hcut] at hopen
    exact ⟨rs, w, _, es, hcalls, hfp, ⟨_, _, congrArg WaLog.fp hopen, hes⟩, hmap⟩

/-- Two records, and a file that was cut inside its header: `rewind` has no
stream to work on. -/
theorem cut_header_leaves_no_stream :
    ¬RoundTrips 0 [⟨.transactionBegin 1, fun _ => 0⟩, ⟨.transactionCommit 1, fun _ => 0⟩] 8 := by
  rintro ⟨rs, w, f, es, -, -, ⟨g, -, hg, -⟩, -⟩
  have hlen : (f.bytes.take 8).length < headerSize := by
    have hle := List.length_take_le 8 f.bytes
    rw [headerSize]
    omega
  rw [WaLog.waLog_torn 0 hlen] at hg
  cases hg

end Poseidon
