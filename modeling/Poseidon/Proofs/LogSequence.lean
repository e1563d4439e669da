import Poseidon.Proofs.LogRoundTrip
import Mathlib.Algebra.GroupWithZero.Nat
import Mathlib.Data.List.Pairwise

/-!
# Sequence numbers over several sessions

The sequence numbers of a log are counted in the file header, which reaches
the disk when the log is closed. A session that crashes leaves its records
in the file and the old count in the header, so the next session hands out
the same numbers again.

What the sessions leave on disk depends only on how many calls each of them
makes and how it ends: `lsnTrace` is the sequence of numbers in file order.
The numbers increase exactly when nothing is appended after a crash that
left records behind. (The counter has 64 bits; it would come around after
2⁶⁴ records.)
-/

namespace Poseidon

open WaLog

/-- The sequence numbers that sessions write when the header holds `lsn`. -/
def lsnTrace : UInt64 → List LogSession → List UInt64
  | _, [] => []
  | lsn, s :: ss =>
      lsnsAfter lsn s.calls.length ++
        lsnTrace (if s.crash then lsn else lsn + .ofNat s.calls.length) ss

/-! ## The sessions write the trace -/

/-- A file with the given number in its header and the given records. -/
def LogOnDisk (lsn : UInt64) (rs : List LogRecord) (disk : List UInt8) : Prop :=
  ∃ pad bs, Encodes rs bs ∧ disk = headerBytes pad lsn ++ bs

/-- The log as a session finds it: no file yet, or a file. -/
def LogFound (lsn : UInt64) (rs : List LogRecord) : Option (List UInt8) → Prop
  | none => lsn = 0 ∧ rs = []
  | some disk => LogOnDisk lsn rs disk

variable {pad : Nat} {lsn : UInt64} {rs : List LogRecord}

/-- Opening a log puts the stream behind its records. -/
theorem LogFound.opened {disk : Option (List UInt8)} (h : LogFound lsn rs disk) :
    (waLog pad disk).lastLsn = lsn ∧
      ∃ hpad, (waLog pad disk).Holds (headerBytes hpad lsn) rs := by
  cases disk with
  | none =>
      obtain ⟨rfl, rfl⟩ := h
      exact ⟨rfl, pad, waLog_fresh pad⟩
  | some bytes =>
      obtain ⟨hpad, bs, hbs, rfl⟩ := h
      rw [waLog_header]
      exact ⟨rfl, hpad, bs, hbs, rfl⟩

/-- One session appends its records and, when it is closed, their number to
the header. -/
theorem LogSession.run_spec {disk : Option (List UInt8)} (h : LogFound lsn rs disk)
    (s : LogSession) : ∃ bytes rs', s.run pad disk = some bytes ∧
      rs'.map LogRecord.lsn = lsnsAfter lsn s.calls.length ∧
      LogOnDisk (if s.crash then lsn else lsn + .ofNat s.calls.length) (rs ++ rs') bytes := by
  obtain ⟨hlast, hpad, hholds⟩ := @LogFound.opened pad lsn rs disk h
  obtain ⟨rs', w, hcalls, hlsns, hlast', bs, hbs, hfp⟩ := hholds.calls s.calls
  rw [hlast] at hlsns hlast'
  cases hs : s.crash with
  | true =>
      refine ⟨headerBytes hpad lsn ++ bs, rs', ?_, hlsns, hpad, bs, hbs, rfl⟩
      simp only [LogSession.run, hcalls, hs, hfp, Option.bind_eq_bind, Option.bind_some, if_true,
        Option.map_some]
  | false =>
      refine ⟨headerBytes pad w.lastLsn ++ bs, rs', ?_, hlsns, pad, bs, hbs, ?_⟩
      · have hwrite := @File.fwrite_front
          ((File.mk (headerBytes hpad lsn ++ bs) (headerBytes hpad lsn ++ bs).length
          false).seekSet 0)
          rfl _ (headerBytes pad w.lastLsn) bs rfl
          (by rw [headerBytes_length, headerBytes_length])
        simp only [LogSession.run, hcalls, hs, hfp, Option.bind_eq_bind, Option.bind_some,
          Bool.false_eq_true, if_false, WaLog.close, Option.map_some, hwrite]
      · rw [hlast']
        simp

/-- The sessions leave a log with the numbers of the trace. -/
theorem LogSession.runAll_spec {disk : Option (List UInt8)} (h : LogFound lsn rs disk)
    (ss : List LogSession) : ∃ disk' lsn' rs', runAll pad disk ss = some disk' ∧
      rs'.map LogRecord.lsn = lsnTrace lsn ss ∧ LogFound lsn' (rs ++ rs') disk' := by
  induction ss generalizing disk lsn rs with
  | nil => exact ⟨disk, lsn, [], rfl, rfl, by rwa [List.append_nil]⟩
  | cons s ss ih =>
      obtain ⟨bytes, rs1, hrun, hlsns, hdisk⟩ := @LogSession.run_spec pad lsn rs disk h s
      obtain ⟨disk', lsn', rs2, hall, hlsns2, hfound⟩ := @ih _ _ (some bytes) hdisk
      refine ⟨disk', lsn', rs1 ++ rs2, ?_, ?_, ?_⟩
      · simp only [runAll, hrun, hall, Option.bind_eq_bind, Option.bind_some]
      · rw [List.map_append, hlsns, hlsns2, lsnTrace]
      · rwa [List.append_assoc] at hfound

/-- Iterating over a log gives its records. -/
theorem LogFound.iterates {disk : Option (List UInt8)} (h : LogFound lsn rs disk) :
    ∃ es, (waLog pad disk).Iterates es ∧ es.map LogEntry.get = rs.map some := by
  obtain ⟨-, hpad, bs, hbs, hfp⟩ := @LogFound.opened pad lsn rs disk h
  have hlen := headerBytes_length hpad lsn
  have hdrop : (headerBytes hpad lsn ++ bs).drop headerSize =
      bs.take (headerSize + bs.length - headerSize) := by
    rw [← hlen, List.drop_left, Nat.add_sub_cancel_left, List.take_length]
  obtain ⟨es, hes, hmap⟩ := @logEntries_complete _
    ⟨headerBytes hpad lsn ++ bs, headerSize, false⟩ _ _ hbs rfl hdrop
  rw [completeRecords_all hbs (by exact Nat.le_refl _)] at hmap
  exact ⟨es, ⟨_, _, hfp, hes⟩, hmap⟩

/-! ## When the trace increases -/

/-- Nothing is appended after a crash that left records behind. -/
def NoStaleHeader : List LogSession → Prop
  | [] => True
  | s :: ss =>
      (s.crash = true → s.calls ≠ [] → ∀ t ∈ ss, t.calls = []) ∧ NoStaleHeader ss

/-- The number of records all sessions write. -/
def recordCount (ss : List LogSession) : Nat :=
  (ss.map fun s => s.calls.length).sum

theorem lsnsAfter_add (lsn : UInt64) (m n : Nat) :
    lsnsAfter lsn (m + n) = lsnsAfter lsn m ++ lsnsAfter (lsn + .ofNat m) n := by
  induction m generalizing lsn with
  | zero => simp [lsnsAfter]
  | succ m ih =>
      rw [Nat.add_right_comm, lsnsAfter, ih, lsnsAfter, List.cons_append, Nat.add_comm m 1,
        UInt64.ofNat_add, ← UInt64.add_assoc]
      rfl

theorem lsnsAfter_eq_map (lsn : UInt64) (n : Nat) :
    lsnsAfter lsn n = (List.range n).map fun i => lsn + .ofNat (i + 1) := by
  induction n with
  | zero => rfl
  | succ n ih =>
      rw [lsnsAfter_add, ih, List.range_succ, List.map_append]
      simp only [lsnsAfter, List.map_cons, List.map_nil, UInt64.ofNat_add, UInt64.add_assoc]
      rfl

/-- Sessions that append nothing write nothing and keep the count. -/
theorem lsnTrace_of_idle {ss : List LogSession} (h : ∀ t ∈ ss, t.calls = []) (lsn : UInt64) :
    lsnTrace lsn ss = [] ∧ recordCount ss = 0 := by
  induction ss generalizing lsn with
  | nil => exact ⟨rfl, rfl⟩
  | cons s ss ih =>
      obtain ⟨hs, hss⟩ := List.forall_mem_cons.mp h
      refine ⟨?_, ?_⟩
      · rw [lsnTrace, hs, (ih hss _).1]
        rfl
      · rw [recordCount, List.map_cons, List.sum_cons, hs, ← recordCount, (ih hss lsn).2]
        rfl

/-- Without a stale header the numbers are handed out one after the other. -/
theorem lsnTrace_eq {ss : List LogSession} (h : NoStaleHeader ss) (lsn : UInt64) :
    lsnTrace lsn ss = lsnsAfter lsn (recordCount ss) := by
  induction ss generalizing lsn with
  | nil => rfl
  | cons s ss ih =>
      obtain ⟨hs, hss⟩ := h
      have hcount : recordCount (s :: ss) = s.calls.length + recordCount ss := by
        rw [recordCount, List.map_cons, List.sum_cons, ← recordCount]
      rw [hcount, lsnsAfter_add, lsnTrace]
      by_cases hstale : s.crash = true ∧ s.calls ≠ []
      · obtain ⟨htrace, hidle⟩ :=
          lsnTrace_of_idle (hs hstale.1 hstale.2)
          (if s.crash then lsn else lsn + .ofNat s.calls.length)
        rw [htrace, hidle]
        rfl
      · -- a closed session, or one that wrote nothing
        have hnext : (if s.crash then lsn else lsn + .ofNat s.calls.length) =
            lsn + .ofNat s.calls.length := by
          split
          · next hc =>
              have hcalls : s.calls = [] := by
                by_contra hne
                exact hstale ⟨hc, hne⟩
              rw [hcalls]
              simp
          · rfl
        rw [hnext, ih hss]

/-- The first session that appends anything uses the number behind the
header. -/
theorem mem_lsnTrace {ss : List LogSession} {t : LogSession} (ht : t ∈ ss) (hne : t.calls ≠ [])
    (lsn : UInt64) : lsn + 1 ∈ lsnTrace lsn ss := by
  induction ss with
  | nil => cases ht
  | cons s ss ih =>
      rw [lsnTrace, List.mem_append]
      cases hc : s.calls with
      | cons c cs => exact .inl (List.mem_cons_self)
      | nil =>
          have hts : t ∈ ss := by
            rcases List.mem_cons.mp ht with rfl | hts
            · exact absurd hc hne
            · exact hts
          have hlsn : (if s.crash then lsn else lsn + .ofNat ([] : List LogCall).length) = lsn := by
            split
            · rfl
            · simp
          rw [hlsn]
          exact .inr (ih hts)

/-- A crash that left records behind makes the next session repeat a
number. -/
theorem noStaleHeader_of_increasing {ss : List LogSession} {lsn : UInt64}
    (h : (lsnTrace lsn ss).Pairwise (· < ·)) : NoStaleHeader ss := by
  induction ss generalizing lsn with
  | nil => trivial
  | cons s ss ih =>
      rw [lsnTrace, List.pairwise_append] at h
      obtain ⟨-, hrest, hcross⟩ := h
      refine ⟨fun hcrash hne t ht => ?_, ih hrest⟩
      by_contra htne
      rw [if_pos hcrash] at hcross
      have hmem : lsn + 1 ∈ lsnsAfter lsn s.calls.length := by
        cases hc : s.calls with
        | nil => exact absurd hc hne
        | cons c cs => exact List.mem_cons_self
      exact absurd (hcross _ hmem _ (mem_lsnTrace ht htne lsn)) (UInt64.lt_irrefl _)

/-- Counting from zero increases as long as the counter does not come
around. -/
theorem lsnsAfter_increasing_iff (n : Nat) :
    (lsnsAfter 0 n).Pairwise (· < ·) ↔ n < 2 ^ 64 := by
  have hval : ∀ i, ((0 : UInt64) + .ofNat (i + 1)).toNat = (i + 1) % 2 ^ 64 := by
    intro i
    rw [UInt64.zero_add, UInt64.toNat_ofNat']
  rw [lsnsAfter_eq_map, List.pairwise_map]
  constructor
  · intro h
    by_contra hn
    have hlt := List.pairwise_iff_getElem.mp h 0 (2 ^ 64 - 1) (by simp; omega) (by simp; omega)
      (by omega)
    rw [UInt64.lt_iff_toNat_lt, hval, hval, List.getElem_range, List.getElem_range] at hlt
    omega
  · intro hn
    refine List.Pairwise.imp_of_mem ?_ List.pairwise_lt_range
    intro i j hi hj hij
    have hj' := List.mem_range.mp hj
    rw [UInt64.lt_iff_toNat_lt, hval, hval, Nat.mod_eq_of_lt (by omega),
      Nat.mod_eq_of_lt (by omega)]
    omega

/-! ## The log after any sequence of sessions -/

/-- The records that the iterator finds in the file after the sessions have
increasing sequence numbers. -/
def LsnsIncrease (pad : Nat) (ss : List LogSession) : Prop :=
  ∃ disk es, ∃ rs : List LogRecord, LogSession.runAll pad none ss = some disk ∧
  (waLog pad disk).Iterates es ∧
    es.map LogEntry.get = rs.map some ∧ (rs.map LogRecord.lsn).Pairwise (· < ·)

/-- Iterating over a log gives one result. -/
theorem logEntries_unique {f : File} {es es' : List LogEntry} {n n' : Nat}
    (h : logEntries n f = some es) (h' : logEntries n' f = some es') : es = es' := by
  induction n generalizing n' f es es' with
  | zero => cases h
  | succ n ih =>
      cases n' with
      | zero => cases h'
      | succ n' =>
          rw [logEntries] at h h'
          cases hr : readLogEntry f with
          | none =>
              rw [hr] at h h'
              cases h
              cases h'
              rfl
          | some ef =>
              obtain ⟨e, g⟩ := ef
              rw [hr] at h h'
              simp only [Option.map_eq_some_iff] at h h'
              obtain ⟨rest, hrest, rfl⟩ := h
              obtain ⟨rest', hrest', rfl⟩ := h'
              rw [ih hrest hrest']

/-- The numbers in the file are those of the trace. -/
theorem lsnsIncrease_iff_trace (pad : Nat) (ss : List LogSession) :
    LsnsIncrease pad ss ↔ (lsnTrace 0 ss).Pairwise (· < ·) := by
  obtain ⟨disk, lsn, rs, hall, hlsns, hfound⟩ :=
    @LogSession.runAll_spec pad 0 [] none ⟨rfl, rfl⟩ ss
  obtain ⟨es, hes, hget⟩ := @LogFound.iterates pad _ _ _ hfound
  constructor
  · rintro ⟨disk', es', rs', hall', ⟨f', n', hf', hes'⟩, hget', hinc⟩
    rw [hall, Option.some.injEq] at hall'
    subst hall'
    obtain ⟨f, n, hf, hes⟩ := hes
    rw [hf, Option.some.injEq] at hf'
    subst hf'
    rw [logEntries_unique hes' hes, hget] at hget'
    have hrs : rs = rs' := (List.map_inj_right fun _ _ => Option.some.inj).mp hget'
    rwa [← hlsns, hrs]
  · intro hinc
    exact ⟨disk, es, rs, hall, hes, hget, by rwa [hlsns]⟩

/-- Sequence numbers increase over the whole file exactly when no session
appends after a crash that left records behind. -/
theorem lsns_increase_iff (pad : Nat) (ss : List LogSession) :
    LsnsIncrease pad ss ↔ NoStaleHeader ss ∧ recordCount ss < 2 ^ 64 := by
  rw [lsnsIncrease_iff_trace]
  constructor
  · intro h
    have hfresh := noStaleHeader_of_increasing h
    rw [lsnTrace_eq hfresh, lsnsAfter_increasing_iff] at h
    exact ⟨hfresh, h⟩
  · rintro ⟨hfresh, hcount⟩
    rw [lsnTrace_eq hfresh, lsnsAfter_increasing_iff]
    exact hcount

/-- A session writes a transaction and a checkpoint with number 3 and
crashes; the next one starts at 1 again, below the checkpoint. -/
theorem crash_repeats_lsns :
    ¬LsnsIncrease 0
      [⟨[⟨.transactionBegin 10, fun _ => 0⟩, ⟨.transactionCommit 10, fun _ => 0⟩,
          ⟨.checkpoint, fun _ => 0⟩], true⟩,
        ⟨[⟨.transactionBegin 20, fun _ => 0⟩, ⟨.transactionCommit 20, fun _ => 0⟩], false⟩] := by
  rw [lsnsIncrease_iff_trace]
  decide

end Poseidon
