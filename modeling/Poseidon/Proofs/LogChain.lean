import Poseidon.Proofs.LogRoundTrip

/-!
# The back chain of a transaction

Every record of a transaction keeps the offset of the one before, from a map
that a begin and an append set to the position of the record they write. The
calls of other transactions change other entries of the map and append to the
file, so the chain of a transaction grows by its own calls only: `Linked`
says that each record points at the next one of the list, down to a begin
record that points nowhere.

The chain on disk is right whatever is appended. Following it with
`get_record` is another matter: the buffer of `fetch_record` has the size of
a relationship record, and a dictionary record does not fit.
-/

namespace Poseidon

/-! ## Transactions and their records -/

/-- The transaction that makes a call. -/
def LogOp.txid : LogOp → Option UInt64
  | .transactionBegin t => some t
  | .transactionCommit t => some t
  | .transactionAbort t => some t
  | .append t _ _ => some t
  | .checkpoint => none

/-- The calls of one transaction. -/
def opsOf (txid : UInt64) (cs : List LogCall) : List LogOp :=
  (cs.map LogCall.op).filter fun op => op.txid = some txid

/-- What may follow the begin of a transaction: appends, and at most one end. -/
def GoesOn : List LogOp → Prop
  | [] => True
  | .append _ _ _ :: l => GoesOn l
  | [.transactionCommit _] => True
  | [.transactionAbort _] => True
  | _ => False

/-- A transaction begins once, before all its other calls. -/
def IsTransaction : List LogOp → Prop
  | .transactionBegin _ :: l => GoesOn l
  | _ => False

/-- The records of a transaction and their offsets, in the order they were
appended; the first of all records is at `off`. -/
def ownRecords (txid : UInt64) : Nat → List LogCall → List LogRecord → List (Nat × LogRecord)
  | off, c :: cs, r :: rs =>
      if c.op.txid = some txid then (off, r) :: ownRecords txid (off + r.size) cs rs
      else ownRecords txid (off + r.size) cs rs
  | _, _, _ => []

/-- From the last record of a transaction its records are visited in reverse
order, down to the one of its begin. -/
def TracesBack (stack : Vector UInt8 32) (buf : LogEntry) (w : WaLog)
    (own : List (Nat × LogRecord)) : Prop :=
  ∃ f first last fuel, w.fp = some f ∧ own.head? = some first ∧ first.2.payload = .tx .bot ∧
    own.getLast? = some last ∧
    followChain stack fuel last.1 f buf = some (own.map Prod.snd).reverse

/-- The record of a dictionary entry. -/
def LogRecord.isDict (r : LogRecord) : Bool :=
  match r.payload with
  | .data (.dict ..) => true
  | _ => false

/-! ## Fetching a record -/

section Fetch

variable {stack : Vector UInt8 32} {pad : Nat → Nat} {r : LogRecord} {f : File} {buf : LogEntry}
variable {off : Nat} {rest : List UInt8}

theorem fetchSize_of_head {e : LogEntry} (h : e.headD 0 = r.typeByte pad)
    (hc : r.payload ≠ .chkpt) : fetchSize e = r.size := by
  rw [fetchSize, LogEntry.objTypeCode_of_head h, LogObjectType.ofCode_code, LogRecord.size]
  rcases hp : r.payload with cmd | d | _
  · rfl
  · cases d <;> rfl
  · exact absurd hp hc

/-- The two reads of `fetch_record` get a record that is there. -/
theorem fetchRecord_eq (hc : r.payload ≠ .chkpt)
    (hd : f.bytes.drop off = r.encode pad ++ rest) :
    fetchRecord stack off f buf =
      if r.size ≤ bufSize then some (r.encode pad ++ buf.drop r.size,
        ⟨f.bytes, off + r.size, false⟩)
      else none := by
  have hlen := r.bodyBytes_length pad
  have hle := r.size_le
  rw [LogRecord.encode, List.append_assoc] at hd
  have hread1 := @File.fread_full (f.seekSet off) _ _ _ rfl hd (r.dummy_length pad)
  have hd2 : f.bytes.drop (off + dummySize) = r.bodyBytes pad ++ rest := by
    rw [← List.drop_drop, hd, ← r.dummy_length pad, List.drop_left]
  have hread2 := @File.fread_full ⟨f.bytes, off + dummySize, false⟩ _ _ _ rfl hd2 rfl
  have hstack : stack.toList.drop dummySize = [] := by
    refine List.drop_of_length_le ?_
    simp [dummySize]
  have hsize : fetchSize (writeFields (r.dummyFields pad)) = r.size :=
    fetchSize_of_head rfl hc
  have hbody : (r.size + 2 ^ 64 - dummySize) % 2 ^ 64 = (r.bodyBytes pad).length := by
    omega
  have hpos : off + dummySize + (r.bodyBytes pad).length = off + r.size := by
    omega
  have hsum : dummySize + (r.bodyBytes pad).length = r.size := by
    omega
  simp only [fetchRecord, hread1]
  rw [if_neg (by simp [File.seekSet]), r.dummy_length, hstack, List.append_nil, hsize, hbody]
  simp only [File.seekSet, hread2, hpos, hsum, LogRecord.encode]

theorem size_le_bufSize_iff : r.size ≤ bufSize ↔ r.isDict = false := by
  rw [LogRecord.size, LogRecord.isDict, bufSize]
  rcases r.payload with cmd | d | _
  · simp
  · cases d <;> simp
  · simp

/-- One step along the chain. -/
theorem followChain_succ (hc : r.payload ≠ .chkpt)
    (hd : f.bytes.drop off = r.encode pad ++ rest) (fuel : Nat) :
    followChain stack (fuel + 1) off f buf =
      if r.isDict = true then none
      else if r.prevOffset = 0 then some [r]
      else (followChain stack fuel r.prevOffset.toNat ⟨f.bytes, off + r.size, false⟩
        (r.encode pad ++ buf.drop r.size)).map (r :: ·) := by
  rw [followChain, fetchRecord_eq hc hd]
  by_cases hdict : r.isDict = true
  · rw [if_pos hdict, if_neg (by rw [size_le_bufSize_iff, hdict]; decide)]
    rfl
  · rw [if_neg hdict, if_pos (size_le_bufSize_iff.mpr (by simpa using hdict))]
    simp only [Option.bind_eq_bind, Option.bind_some, LogEntry.get_append]

end Fetch

/-! ## Chains -/

/-- Each record points at the next one of the list, and the last one is a
begin record. -/
inductive Linked : List (Nat × LogRecord) → Prop
  | first {p : Nat × LogRecord} (h : p.2.prevOffset = 0) (hb : p.2.payload = .tx .bot) :
      Linked [p]
  | next {p q : Nat × LogRecord} {l : List (Nat × LogRecord)}
      (h : p.2.prevOffset = .ofNat q.1) (hc : p.2.payload ≠ .chkpt) (hl : Linked (q :: l)) :
      Linked (p :: q :: l)

/-- The records are where they should be. -/
structure OnDisk (bytes : List UInt8) (l : List (Nat × LogRecord)) : Prop where
  lies : ∀ p ∈ l, ∃ pad rest, bytes.drop p.1 = p.2.encode pad ++ rest
  bounds : ∀ p ∈ l, 0 < p.1 ∧ p.1 < bytes.length

section Chains

variable {l : List (Nat × LogRecord)} {p : Nat × LogRecord} {bytes bs : List UInt8}

theorem onDisk_nil : OnDisk bytes [] :=
  ⟨fun _ h => (by cases h), fun _ h => (by cases h)⟩

theorem OnDisk.append (h : OnDisk bytes l) : OnDisk (bytes ++ bs) l where
  lies p hp := by
    obtain ⟨pad, rest, hd⟩ := h.lies p hp
    refine ⟨pad, rest ++ bs, ?_⟩
    rw [List.drop_append_of_le_length (Nat.le_of_lt (h.bounds p hp).2), hd, List.append_assoc]
  bounds p hp := by
    have hb := h.bounds p hp
    rw [List.length_append]
    omega

/-- A record at the end. -/
theorem OnDisk.snoc (h : OnDisk bytes l) {r : LogRecord} (pad : Nat → Nat)
    (hpos : 0 < bytes.length) :
    OnDisk (bytes ++ r.encode pad) ((bytes.length, r) :: l) := by
  have hlen := r.encode_length pad
  have hsize := r.size_pos
  have happend : OnDisk (bytes ++ r.encode pad) l := h.append
  refine ⟨fun p hp => ?_, fun p hp => ?_⟩
  · rcases List.mem_cons.mp hp with rfl | hp
    · exact ⟨pad, [], by rw [List.drop_left, List.append_nil]⟩
    · exact happend.lies p hp
  · rcases List.mem_cons.mp hp with rfl | hp
    · rw [List.length_append]
      omega
    · exact happend.bounds p hp

/-- The last record of a chain is the one of the begin. -/
theorem Linked.begins (h : Linked l) : ∃ p, l.getLast? = some p ∧ p.2.payload = .tx .bot := by
  induction h with
  | first h hb => exact ⟨_, rfl, hb⟩
  | next h hc hl ih =>
      obtain ⟨p, hlast, hp⟩ := ih
      exact ⟨p, by rw [List.getLast?_cons_cons, hlast], hp⟩

/-- A chain is followed to its end exactly when every record in it fits in
the buffer. -/
theorem Linked.follow_iff (h : Linked l) (stack : Vector UInt8 32) :
    ∀ {p f buf}, l.head? = some p → OnDisk f.bytes l → f.bytes.length < 2 ^ 64 →
      ((∃ fuel, followChain stack fuel p.1 f buf = some (l.map Prod.snd)) ↔
        ∀ q ∈ l, q.2.isDict = false) := by
  induction h with
  | @first p h hb =>
      rintro _ f buf ⟨⟩ hdisk -
      obtain ⟨pad, rest, hd⟩ := hdisk.lies p (List.mem_cons_self ..)
      have hc : p.2.payload ≠ .chkpt := by rw [hb]; nofun
      have hdict : p.2.isDict = false := by rw [LogRecord.isDict, hb]
      refine ⟨fun _ q hq => List.mem_singleton.mp hq ▸ hdict, fun _ => ⟨1, ?_⟩⟩
      rw [followChain_succ hc hd, hdict, if_neg (by decide), if_pos h]
      rfl
  | @next p q l h hc hl ih =>
      rintro _ f buf ⟨⟩ hdisk hfit
      obtain ⟨pad, rest, hd⟩ := hdisk.lies p (List.mem_cons_self ..)
      have hrest : OnDisk f.bytes (q :: l) :=
        ⟨fun p' hp => hdisk.lies p' (List.mem_cons_of_mem _ hp),
          fun p' hp => hdisk.bounds p' (List.mem_cons_of_mem _ hp)⟩
      have hq := hrest.bounds q (List.mem_cons_self ..)
      have hto : p.2.prevOffset.toNat = q.1 := by
        rw [h, UInt64.toNat_ofNat']
        exact Nat.mod_eq_of_lt (by omega)
      have hne : p.2.prevOffset ≠ 0 := by
        intro heq
        rw [heq] at hto
        exact absurd hto (Nat.ne_of_lt hq.1)
      have ih := @ih q ⟨f.bytes, p.1 + p.2.size, false⟩ (p.2.encode pad ++ buf.drop p.2.size) rfl
        hrest hfit
      have hforall : (∀ q' ∈ p :: q :: l, q'.2.isDict = false) ↔
          p.2.isDict = false ∧ ∀ q' ∈ q :: l, q'.2.isDict = false := List.forall_mem_cons
      rw [hforall, ← ih]
      constructor
      · rintro ⟨fuel, hf⟩
        cases fuel with
        | zero => cases hf
        | succ fuel =>
            rw [followChain_succ hc hd, if_neg hne, hto] at hf
            split at hf
            · cases hf
            · next hdict =>
              obtain ⟨rs, hrs, heq⟩ := Option.map_eq_some_iff.mp hf
              refine ⟨by simpa using hdict, fuel, ?_⟩
              rw [hrs, (List.cons.inj heq).2]
      · rintro ⟨hdict, fuel, hf⟩
        refine ⟨fuel + 1, ?_⟩
        rw [followChain_succ hc hd, hdict, if_neg (by decide), if_neg hne, hto, hf]
        rfl

end Chains

/-! ## What the calls do to a chain -/

/-- A log whose stream is at the end of the file. -/
def WaLog.EndsAt (w : WaLog) (bytes : List UInt8) : Prop :=
  w.fp = some ⟨bytes, bytes.length, false⟩

section Calls

variable {w w' : WaLog} {bytes : List UInt8} {txid : UInt64} {c : LogCall} {cs : List LogCall}
variable {rs : List LogRecord} {l : List (Nat × LogRecord)}

theorem WaLog.EndsAt.call (h : w.EndsAt bytes) (c : LogCall) :
    ∃ r w', w.call c = some (r, w') ∧
      w.record (.ofNat bytes.length) c.op = (r, w'.lastOffsets) ∧
      w'.EndsAt (bytes ++ r.encode c.pad) := by
  have hseek : (File.mk bytes bytes.length false).seekEnd = ⟨bytes, bytes.length, false⟩ := rfl
  obtain ⟨op, pad⟩ := c
  rw [WaLog.EndsAt] at h
  simp only [WaLog.call, h, Option.bind_eq_bind, Option.bind_some]
  refine ⟨_, _, rfl, ?_, ?_⟩
  · cases op <;> rfl
  · cases op <;> simp only [WaLog.EndsAt, hseek] <;> rw [File.fwrite_end rfl]

theorem calls_cons (h : w.calls (c :: cs) = some (rs, w')) :
    ∃ r w₁ rs₁, w.call c = some (r, w₁) ∧ w₁.calls cs = some (rs₁, w') ∧ rs = r :: rs₁ := by
  rw [WaLog.calls] at h
  obtain ⟨⟨r, w₁⟩, hcall, h⟩ := Option.bind_eq_some_iff.mp h
  obtain ⟨⟨rs₁, w₂⟩, hrest, h⟩ := Option.bind_eq_some_iff.mp h
  cases h
  exact ⟨r, w₁, rs₁, hcall, hrest, rfl⟩

/-- A call writes no more than a dictionary record. -/
theorem WaLog.EndsAt.length_le (h : w.EndsAt bytes) (hcalls : w.calls cs = some (rs, w')) :
    ∃ bytes', w'.EndsAt bytes' ∧ bytes'.length ≤ bytes.length + 1064 * cs.length := by
  induction cs generalizing w bytes rs with
  | nil =>
      cases hcalls
      exact ⟨bytes, h, Nat.le_add_right ..⟩
  | cons c cs ih =>
      obtain ⟨r, w₁, rs₁, hcall, hrest, rfl⟩ := calls_cons hcalls
      obtain ⟨r', w₁', hcall', -, h₁⟩ := h.call c
      cases hcall.symm.trans hcall'
      obtain ⟨bytes', hb, hle⟩ := ih h₁ hrest
      have hsize := r.size_le
      refine ⟨bytes', hb, ?_⟩
      rw [List.length_append, r.encode_length] at hle
      rw [List.length_cons]
      omega

/-- What a transaction needs of the log: its records are chained, and the map
has the last of them as long as the transaction goes on. -/
inductive WaLog.Tracks (w : WaLog) (txid : UInt64) (bytes : List UInt8) :
    List LogOp → List (Nat × LogRecord) → Prop
  | before {ops : List LogOp} (hops : IsTransaction ops) (ho : w.lastOffsets txid = none) :
      Tracks w txid bytes ops []
  | during {ops : List LogOp} {q : Nat × LogRecord} {l : List (Nat × LogRecord)}
      (hops : GoesOn ops) (ho : w.lastOffsets txid = some (.ofNat q.1)) (hl : Linked (q :: l))
      (hd : OnDisk bytes (q :: l)) : Tracks w txid bytes ops (q :: l)
  | after {l : List (Nat × LogRecord)} (hl : Linked l) (hd : OnDisk bytes l) :
      Tracks w txid bytes [] l

/-- A call of another transaction. -/
theorem WaLog.Tracks.other {ops : List LogOp} (h : w.Tracks txid bytes ops l) {r : LogRecord}
    (pad : Nat → Nat) {op : LogOp} (hop : op.txid ≠ some txid)
    (hr : w.record (.ofNat bytes.length) op = (r, w'.lastOffsets)) :
    w'.Tracks txid (bytes ++ r.encode pad) ops l := by
  have ho : w'.lastOffsets txid = w.lastOffsets txid := by
    have hset : ∀ t pos, some t ≠ some txid → w.setOffset t pos txid = w.lastOffsets txid :=
      fun t pos hne => if_neg fun heq => hne (congrArg some heq.symm)
    have heq := congrArg Prod.snd hr
    dsimp only at heq
    rw [← heq]
    cases op with
    | checkpoint => rfl
    | _ => exact hset _ _ hop
  cases h with
  | before hops hn => exact .before hops (ho.trans hn)
  | during hops hn hl hd => exact .during hops (ho.trans hn) hl hd.append
  | after hl hd => exact .after hl hd.append

/-- A call of the transaction itself. -/
theorem WaLog.Tracks.own {op : LogOp} {ops : List LogOp} (h : w.Tracks txid bytes (op :: ops) l)
    {r : LogRecord} (pad : Nat → Nat) (hop : op.txid = some txid) (hpos : 0 < bytes.length)
    (hr : w.record (.ofNat bytes.length) op = (r, w'.lastOffsets)) :
    w'.Tracks txid (bytes ++ r.encode pad) ops ((bytes.length, r) :: l) := by
  have ho' : (w.record (.ofNat bytes.length) op).2 = w'.lastOffsets := congrArg Prod.snd hr
  obtain rfl : r = (w.record (.ofNat bytes.length) op).1 := (congrArg Prod.fst hr).symm
  have hoff : ∀ pos, (w.record (.ofNat bytes.length) op).2 = w.setOffset txid pos →
      w'.lastOffsets txid = pos := by
    intro pos heq
    rw [← ho', heq]
    exact if_pos rfl
  cases h with
  | before hops hn =>
      cases op with
      | transactionBegin t =>
          cases hop
          refine .during hops ((hoff _ rfl).trans ?_) (.first rfl rfl) (onDisk_nil.snoc pad hpos)
          rw [hn]
          rfl
      | _ => exact hops.elim
  | @during _ q l hops ho hl hd =>
      have hlink : (w.record (.ofNat bytes.length) op).1.prevOffset = .ofNat q.1 →
          (w.record (.ofNat bytes.length) op).1.payload ≠ .chkpt →
          Linked ((bytes.length, (w.record (.ofNat bytes.length) op).1) :: q :: l) :=
        fun h hc => .next h hc hl
      cases op with
      | append t prev entry =>
          cases hop
          exact .during hops (hoff _ rfl) (hlink (congrArg (Option.getD · prev) ho) nofun)
            (hd.snoc pad hpos)
      | transactionCommit t =>
          cases hop
          cases ops with
          | nil =>
              exact .after (hlink (congrArg (Option.getD · 0) ho) nofun) (hd.snoc pad hpos)
          | cons _ _ => exact hops.elim
      | transactionAbort t =>
          cases hop
          cases ops with
          | nil =>
              exact .after (hlink (congrArg (Option.getD · 0) ho) nofun) (hd.snoc pad hpos)
          | cons _ _ => exact hops.elim
      | _ => exact hops.elim

/-- The calls of a transaction chain its records, whatever other transactions do. -/
theorem WaLog.Tracks.calls (h : w.Tracks txid bytes (opsOf txid cs) l) (hw : w.EndsAt bytes)
    (hpos : 0 < bytes.length) (hcalls : w.calls cs = some (rs, w')) :
    ∃ bytes', w'.EndsAt bytes' ∧
      w'.Tracks txid bytes' [] ((ownRecords txid bytes.length cs rs).reverse ++ l) := by
  induction cs generalizing w bytes l rs with
  | nil =>
      cases hcalls
      exact ⟨bytes, hw, by simpa [ownRecords, opsOf] using h⟩
  | cons c cs ih =>
      obtain ⟨r, w₁, rs₁, hcall, hrest, rfl⟩ := calls_cons hcalls
      obtain ⟨r', w₁', hcall', hr, hw₁⟩ := hw.call c
      cases hcall.symm.trans hcall'
      have hlen : (bytes ++ r.encode c.pad).length = bytes.length + r.size := by
        rw [List.length_append, r.encode_length]
      have hops : opsOf txid (c :: cs) =
          if c.op.txid = some txid then c.op :: opsOf txid cs else opsOf txid cs := by
        simp [opsOf, List.filter_cons]
      rw [hops] at h
      by_cases hop : c.op.txid = some txid
      · rw [if_pos hop] at h
        obtain ⟨bytes', hb, ht⟩ := ih (h.own c.pad hop hpos hr) hw₁ (by omega) hrest
        refine ⟨bytes', hb, ?_⟩
        rw [ownRecords, if_pos hop, List.reverse_cons, List.append_assoc, ← hlen]
        exact ht
      · rw [if_neg hop] at h
        obtain ⟨bytes', hb, ht⟩ := ih (h.other c.pad hop hr) hw₁ (by omega) hrest
        refine ⟨bytes', hb, ?_⟩
        rw [ownRecords, if_neg hop, ← hlen]
        exact ht

/-- A call writes a dictionary record if it is given one. -/
def LogOp.isDict : LogOp → Bool
  | .append _ _ (.dict ..) => true
  | _ => false

theorem record_isDict (pos : UInt64) (op : LogOp) : (w.record pos op).1.isDict = op.isDict := by
  cases op with
  | append _ _ entry => cases entry <;> rfl
  | _ => rfl

theorem ownRecords_isDict (txid : UInt64) (hw : w.EndsAt bytes)
    (hcalls : w.calls cs = some (rs, w')) :
    (ownRecords txid bytes.length cs rs).map (fun p => p.2.isDict) =
      (opsOf txid cs).map LogOp.isDict := by
  induction cs generalizing w bytes rs with
  | nil => rfl
  | cons c cs ih =>
      obtain ⟨r, w₁, rs₁, hcall, hrest, rfl⟩ := calls_cons hcalls
      obtain ⟨r', w₁', hcall', hr, hw₁⟩ := hw.call c
      cases hcall.symm.trans hcall'
      have ih := ih hw₁ hrest
      rw [List.length_append, r.encode_length] at ih
      have hdict : r.isDict = c.op.isDict := by
        rw [← record_isDict, hr]
      rw [ownRecords, opsOf, List.map_cons, List.filter_cons]
      by_cases hop : c.op.txid = some txid
      · rw [if_pos hop, if_pos (by simpa using hop), List.map_cons, ih, hdict]
        rfl
      · rw [if_neg hop, if_neg (by simpa using hop)]
        exact ih

/-- A transaction whose calls have all been made. -/
theorem WaLog.Tracks.traced_iff {own : List (Nat × LogRecord)}
    (h : w.Tracks txid bytes [] own.reverse) (hw : w.EndsAt bytes) (hfit : bytes.length < 2 ^ 64)
    (stack : Vector UInt8 32) (buf : LogEntry) :
    TracesBack stack buf w own ↔ ∀ p ∈ own, p.2.isDict = false := by
  obtain ⟨hl, hd⟩ : Linked own.reverse ∧ OnDisk bytes own.reverse := by
    generalize own.reverse = l at h
    cases h with
    | before hops _ => exact hops.elim
    | during _ _ hl hd => exact ⟨hl, hd⟩
    | after hl hd => exact ⟨hl, hd⟩
  obtain ⟨first, hfirst, hbot⟩ := hl.begins
  rw [List.getLast?_reverse] at hfirst
  obtain ⟨last, hlast⟩ : ∃ last, own.getLast? = some last := by
    cases hx : own.getLast? with
    | some last => exact ⟨last, rfl⟩
    | none =>
        rw [List.getLast?_eq_none_iff.mp hx] at hfirst
        cases hfirst
  have hhead : own.reverse.head? = some last := by rw [List.head?_reverse, hlast]
  have hiff : (∃ fuel, followChain stack fuel last.1 ⟨bytes, bytes.length, false⟩ buf =
      some (own.reverse.map Prod.snd)) ↔ ∀ q ∈ own.reverse, q.2.isDict = false :=
    hl.follow_iff stack hhead hd hfit
  simp only [List.mem_reverse] at hiff
  rw [← hiff, List.map_reverse]
  constructor
  · rintro ⟨f, _, last', fuel, hf, -, -, hlast', hfol⟩
    cases hw.symm.trans hf
    cases hlast.symm.trans hlast'
    exact ⟨fuel, hfol⟩
  · rintro ⟨fuel, hfol⟩
    exact ⟨_, first, last, fuel, hw, hfirst, hbot, hlast, hfol⟩

/-- A log that was opened has a header and no transactions. -/
theorem waLog_endsAt {pad : Nat} {disk : Option (List UInt8)} {f : File}
    (h : (WaLog.waLog pad disk).fp = some f) :
    (WaLog.waLog pad disk).EndsAt f.bytes ∧ 0 < f.bytes.length ∧
      (WaLog.waLog pad disk).lastOffsets = fun _ => none := by
  cases disk with
  | none =>
      obtain ⟨bs, hbs, hfp⟩ := WaLog.waLog_fresh pad
      cases hfp.symm.trans h
      refine ⟨hfp, ?_, rfl⟩
      have hlen := headerBytes_length pad 0
      rw [List.length_append, hlen, headerSize]
      omega
  | some bytes =>
      simp only [WaLog.waLog] at h ⊢
      split at h
      · cases h
      · next hn =>
        have hlen : bytes.length ≠ 0 := by
          intro h0
          rw [List.length_eq_zero_iff.mp h0] at hn
          exact hn (.inr (by decide))
        have hbytes : ((File.mk bytes 0 false).fread headerSize).2.bytes = bytes := rfl
        rw [if_neg hn]
        cases h
        exact ⟨rfl, by simpa [File.seekEnd, hbytes] using Nat.pos_of_ne_zero hlen, rfl⟩

end Calls

/-- Following `prev_offset` from the last record of a transaction visits its
records, whatever other transactions do in between, exactly when it has
appended no dictionary record. The offsets of a stream are of type `long`. -/
theorem chain_traced_back_iff (stack : Vector UInt8 32) (buf : LogEntry) (pad : Nat)
    (disk : Option (List UInt8)) (cs : List LogCall) (txid : UInt64) {rs : List LogRecord}
    {w : WaLog} {f₀ f : File} (hopen : (WaLog.waLog pad disk).fp = some f₀)
    (hcalls : (WaLog.waLog pad disk).calls cs = some (rs, w)) (hend : w.fp = some f)
    (hfit : f.bytes.length < 2 ^ 63) (htx : IsTransaction (opsOf txid cs)) :
    TracesBack stack buf w (ownRecords txid f₀.bytes.length cs rs) ↔
      ∀ op ∈ opsOf txid cs, op.isDict = false := by
  obtain ⟨h₀, hpos, hoff⟩ := waLog_endsAt hopen
  have ht : (WaLog.waLog pad disk).Tracks txid f₀.bytes (opsOf txid cs) [] :=
    .before htx (congrFun hoff txid)
  obtain ⟨bytes, hw, htracks⟩ := ht.calls h₀ hpos hcalls
  rw [List.append_nil] at htracks
  cases hw.symm.trans hend
  rw [htracks.traced_iff hw (Nat.lt_trans hfit (by decide)) stack buf]
  have hdict := ownRecords_isDict txid h₀ hcalls
  rw [← List.forall_mem_map (f := LogOp.isDict) (P := fun b => b = false), ← hdict,
    List.forall_mem_map]

/-- A transaction that adds a node, beside one that adds a dictionary entry. -/
theorem chain_traced_back_beside_dict :
    let image : NodeImage := ⟨5, 0, 0, 0⟩
    let cs : List LogCall := [⟨.transactionBegin 7, fun _ => 0⟩, ⟨.transactionBegin 8, fun _ => 0⟩,
      ⟨.append 7 0 (.node .insert 1 image image), fun _ => 0⟩,
      ⟨.append 8 0 (.dict 5 (.replicate 1024 0)), fun _ => 0⟩, ⟨.transactionCommit 7, fun _ => 0⟩]
    ∃ rs w, (WaLog.waLog 0 none).calls cs = some (rs, w) ∧
      TracesBack (.replicate 32 0) [] w (ownRecords 7 headerSize cs rs) := by
  intro image cs
  obtain ⟨rs, w, hcalls, -, -, -⟩ := (WaLog.waLog_fresh 0).calls cs
  obtain ⟨bytes, hw, hle⟩ := WaLog.EndsAt.length_le (waLog_endsAt rfl).1 hcalls
  have hfit : bytes.length < 2 ^ 63 := Nat.lt_of_le_of_lt hle (by decide)
  exact ⟨rs, w, hcalls, (chain_traced_back_iff _ _ 0 none cs 7 rfl hcalls hw hfit trivial).mpr
    (by decide)⟩

/-- A transaction that adds a dictionary entry: the record of the entry does
not fit in the buffer that it is fetched to. -/
theorem dict_record_breaks_chain :
    let cs : List LogCall := [⟨.transactionBegin 7, fun _ => 0⟩,
      ⟨.append 7 0 (.dict 5 (.replicate 1024 0)), fun _ => 0⟩, ⟨.transactionCommit 7, fun _ => 0⟩]
    ∃ rs w, (WaLog.waLog 0 none).calls cs = some (rs, w) ∧
      ¬ TracesBack (.replicate 32 0) [] w (ownRecords 7 headerSize cs rs) := by
  intro cs
  obtain ⟨rs, w, hcalls, -, -, -⟩ := (WaLog.waLog_fresh 0).calls cs
  obtain ⟨bytes₀, h₀, hlen⟩ : ∃ bytes₀, (WaLog.waLog 0 none).EndsAt bytes₀ ∧
      bytes₀.length = headerSize := ⟨_, (waLog_endsAt rfl).1, rfl⟩
  have ht : (WaLog.waLog 0 none).Tracks 7 bytes₀ (opsOf 7 cs) [] := .before trivial rfl
  obtain ⟨bytes, hw, htracks⟩ := ht.calls h₀ (by rw [hlen]; decide) hcalls
  obtain ⟨bytes', hw', hle⟩ := h₀.length_le hcalls
  cases hw.symm.trans hw'
  have hfit : bytes.length < 2 ^ 64 := by
    rw [hlen] at hle
    exact Nat.lt_of_le_of_lt hle (by decide)
  have hdict := ownRecords_isDict 7 h₀ hcalls
  rw [List.append_nil] at htracks
  rw [hlen] at htracks hdict
  refine ⟨rs, w, hcalls, fun htraced => ?_⟩
  have hno := (htracks.traced_iff hw hfit _ _).mp htraced
  have hmem : true ∈ (ownRecords 7 headerSize cs rs).map fun p => p.2.isDict := by
    rw [hdict]
    decide
  obtain ⟨p, hp, htrue⟩ := List.mem_map.mp hmem
  rw [hno p hp] at htrue
  cases htrue

end Poseidon
