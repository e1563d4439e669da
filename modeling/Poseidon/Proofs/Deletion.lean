import Poseidon.Proofs.Archive
import Poseidon.Proofs.VersionIndex

/-!
# What a deletion leaves of the history

The commit of a deletion archives the deleted version with the end time it
finds in the dirty version. That is a copy of the record, and what is read
from it is the start of the valid time, so that the archived version ends
where it begins. The map of current versions does not know the logical id any
more, and a search at the start of the deleted version ends at its history
record, which is valid at no time.
-/

namespace Poseidon.Temporal

open Wp

section Tables

variable {ε δ γ : Type} (t : Table ε δ γ)

/-- Slot `id` holds the current version of `lid`, committed before `xid`
began. -/
structure Table.CurrentFor (xid lid id : Nat) (s : GraphDb) : Prop where
  mapped : t.findCurrent lid s = some id
  used : (t.record s id).used = true
  logical : (t.record s id).obj.data.logicalId = lid
  unlocked : (t.record s id).obj.txnId = 0
  began : 0 < (t.record s id).obj.bts
  before : (t.record s id).obj.bts ≤ xid
  live : (t.record s id).obj.cts = INF
  valid : (t.record s id).obj.data.vtStart < (t.record s id).obj.data.vtEnd

/-- The history is as it was up to some time after `start`, and nothing is
found from that time on. -/
def Table.EndsAfter (lid start : Nat) (s s' : GraphDb) : Prop :=
  ∃ d, start < d ∧ (∀ vt, vt < d → t.answer s' lid vt = t.answer s lid vt) ∧
    ∀ vt, d ≤ vt → t.answer s' lid vt = .error .unknownId

/-- The version that starts at `start` is archived with an empty valid
time. -/
def Table.EndsAtStart (lid start : Nat) (s : GraphDb) : Prop :=
  ∃ n d, n < 2 ^ 56 ∧ entryAt s.index lid start t.isRel = some (PtrType.hist.code, n) ∧
    (t.side s).deltas[n]? = some d ∧ d.vtStart = start ∧ d.vtEnd = start

/-- There is no current version, and the last one has an empty valid time. -/
structure Table.Emptied (lid start : Nat) (s : GraphDb) : Prop where
  current : t.findCurrent lid s = none
  archived : t.EndsAtStart lid start s

/-- A record whose first dirty version marks it as deleted. -/
structure Table.Marked (lid id start : Nat) (s : GraphDb) : Prop where
  logical : (t.record s id).obj.data.logicalId = lid
  starts : (t.record s id).obj.data.vtStart = start
  live : (t.record s id).obj.cts = INF
  mark : ∃ dn rest, (t.record s id).dirtyList = dn :: rest ∧ dn.updateMode = true ∧
    dn.elem.bts = dn.elem.cts ∧ dn.elem.data.vtStart = start

variable {t}

/-! ## Reads -/

/-- A current version that was committed is found at its start. -/
theorem Table.CurrentFor.answer {xid lid id : Nat} {s : GraphDb}
    (h : t.CurrentFor xid lid id s) :
    t.answer s lid (t.record s id).obj.data.vtStart ≠ .error .unknownId := by
  have hwp : wp (t.getAtVt lid (t.record s id).obj.data.vtStart) (fun _ _ => True)
      (fun _ _ => False) s := by
    have hhot : hotAt (t.record s id).obj.prepare (t.record s id).obj.data.vtStart = true := by
      exact hotAt_iff.mpr ⟨Nat.ne_of_gt h.began, Nat.le_refl _, h.valid⟩
    simp only [Table.getAtVt, wp_bind, wp_get, h.mapped, Table.prepareHot, wp_getRecord,
      if_pos h.used, wp_modify, wp_pure]
    rw [if_pos hhot]
    trivial
  obtain ⟨i, s', hx, -⟩ := wp_exists hwp
  simp only [Table.answer, hx, Table.versionOf]
  split
  · rw [Side.getDelta]
    split
    · exact fun hc => by cases hc
    · exact fun hc => by cases hc
  · exact fun hc => by cases hc

/-- Nothing is found at the start of a version with an empty valid time. -/
theorem Table.Emptied.answer {lid start : Nat} {s : GraphDb} (h : t.Emptied lid start s) :
    t.answer s lid start = .error .unknownId := by
  obtain ⟨n, d, hn, hentry, hd, hst, hend⟩ := h.archived
  have hwp : wp (t.getAtVt lid start) (fun _ _ => False) (fun e _ => e = .unknownId) s := by
    simp only [Table.getAtVt, wp_bind, wp_get, h.current, Table.indexAt]
    have hlook : lookupAsOf s.index lid start ((t.side s).checkpointHint lid start) t.isRel = none ∨
        lookupAsOf s.index lid start ((t.side s).checkpointHint lid start) t.isRel =
          some (PtrType.hist.code, n) := lookupAsOf_at_entry hentry
    rcases hlook with hl | hl
    · rw [hl]
      exact rfl
    · rw [hl]
      simp only [PtrType.code]
      rw [if_neg (by decide), if_pos trivial]
      have hget : (t.side s).getDelta n = .ok d := by
        rw [Side.getDelta, decodeHistoryId, Nat.mod_eq_of_lt (by omega), hd]
      simp only [Table.histAt, wp_bind, wp_get, hget, wp_ofExcept]
      rw [if_neg (by omega)]
      exact rfl
  obtain ⟨e, s', hx, rfl⟩ := wp_exists_error hwp
  rw [Table.answer, hx]

/-- Changes of records do not fill the valid time again. -/
theorem Table.Emptied.of_side {lid start : Nat} {s s' : GraphDb} (h : t.Emptied lid start s)
    (hs : ∃ v p, t.side s' = { t.side s with vec := v, props := p }) (hi : s'.index = s.index) :
    t.Emptied lid start s' := by
  obtain ⟨v, p, hs⟩ := hs
  obtain ⟨n, d, hlt, he, hd, hst⟩ := h.archived
  refine ⟨?_, n, d, hlt, hi ▸ he, ?_, hst⟩
  · rw [Table.findCurrent, hs]
    exact h.current
  · rw [hs]
    exact hd

/-! ## The deletion -/

section Laws

variable {xid lid id start : Nat} {s : GraphDb}

/-- A transaction reads the current version in its slot. -/
theorem Table.CurrentFor.byId (h : t.CurrentFor xid lid id s) (hlt : xid < INF) :
    wp (t.byId xid id) (fun n s' => n = ⟨id, .slot⟩ ∧
      s' = t.setRecord id { t.record s id with obj := (t.record s id).obj.prepare.setRts xid } s)
      (fun _ _ => True) s := by
  have hb := h.began
  have hle := h.before
  have hvalid : ({ t.record s id with
      obj := (t.record s id).obj.prepare.setRts xid } : Record _).getValidVersion xid =
        .ok .slot := by
    have hne : ¬ 0 = xid := by omega
    simp [Record.getValidVersion, Obj.isLockedBy, Obj.isLocked, Obj.isValidFor, Obj.prepare,
      h.unlocked, h.live, hne, hle, hlt]
  simp only [Table.byId, wp_bind, wp_checkTxContext]
  split
  · simp only [wp_getRecord, if_pos h.used, wp_modify, hvalid, wp_ofExcept, wp_pure]
    exact ⟨trivial, trivial⟩
  · trivial

variable [t.Laws]

/-- The deleted version is marked by a copy of the record that ends where it
begins. -/
theorem addDeleted_marks {keep : Record (Versioned ε) → Bool}
    (hl : (t.record s id).obj.data.logicalId = lid)
    (hs : (t.record s id).obj.data.vtStart = start) (hc : (t.record s id).obj.cts = INF) :
    wp (t.addDeleted xid ⟨id, .slot⟩ keep) (fun _ s' => t.Marked lid id start s' ∧
      ∃ r, s' = t.addDirty xid id (t.setRecord id r s)) (fun _ _ => True) s := by
  have hmark : ∀ r : Record (Versioned ε), r.obj.data = (t.record s id).obj.data →
      r.obj.cts = (t.record s id).obj.cts →
      t.Marked lid id start (t.addDirty xid id (t.setRecord id
        (r.addDirtyVersion .slot (Record.deletedVersion (t.record s id).obj xid) [] true) s)) := by
    intro r hd hcts
    refine ⟨?_, ?_, ?_, ?_⟩
    · simp [Record.addDirtyVersion, Record.modifyAt, Obj.prepare, hd, hl]
    · simp [Record.addDirtyVersion, Record.modifyAt, Obj.prepare, hd, hs]
    · simp [Record.addDirtyVersion, Record.modifyAt, Obj.prepare, hcts, hc]
    · simp [Record.addDirtyVersion, Record.modifyAt, Obj.prepare, Record.deletedVersion, hs]
  simp only [Table.addDeleted, wp_bind, wp_get, wp_read, Record.deref]
  refine wp_ite (fun _ => ?_) fun _ => ?_
  · simp only [wp_bind, wp_get]
    refine wp_ofExcept_ok (fun items _ => ?_) fun _ => trivial
    exact ⟨hmark _ rfl rfl, _, rfl⟩
  · exact ⟨hmark _ rfl rfl, _, rfl⟩

/-- The lock that a delete takes on the slot changes nothing else. -/
theorem lockForWrite_slot {r r' : Record (Versioned ε)} (h : r.lockForWrite .slot xid = .ok r') :
    r'.obj.data = r.obj.data ∧ r'.obj.cts = r.obj.cts := by
  simp only [Record.lockForWrite, Record.deref] at h
  split at h
  · cases h
  split at h
  · cases h
    exact ⟨rfl, rfl⟩
  split at h
  · next n hn =>
    cases h
    simp only [Obj.tryLock] at hn
    split at hn
    · cases hn
      exact ⟨rfl, rfl⟩
    · cases hn
  · cases h

/-- The mark after the read and the lock. -/
theorem Table.CurrentFor.marks (h : t.CurrentFor xid lid id s)
    {keep : Record (Versioned ε) → Bool} {r : Record (Versioned ε)}
    (hr : ({ t.record s id with obj := (t.record s id).obj.prepare.setRts xid } :
      Record (Versioned ε)).lockForWrite .slot xid = .ok r) (r₀ : Record (Versioned ε)) :
    wp (t.addDeleted xid ⟨id, .slot⟩ keep) (fun _ s' =>
      t.Marked lid id (t.record s id).obj.data.vtStart s' ∧
        ∃ r', s' = t.addDirty xid id (t.setRecord id r' (t.setRecord id r (t.setRecord id r₀ s))))
      (fun _ _ => True) (t.setRecord id r (t.setRecord id r₀ s)) := by
  obtain ⟨hd, hc⟩ := lockForWrite_slot hr
  rw [Obj.setRts_data] at hd
  rw [Obj.setRts_cts] at hc
  refine addDeleted_marks ?_ ?_ ?_
  · rw [record_setRecord, if_pos rfl, hd]
    exact h.logical
  · rw [record_setRecord, if_pos rfl, hd]
    rfl
  · rw [record_setRecord, if_pos rfl, hc]
    exact h.live

/-- The archival of a deleted version that ends where it begins. -/
theorem archived_endsAtStart {a : ArchiveArgs δ γ} {h : Nat} {s' : GraphDb}
    (hx : t.archiveWith a s = .ok h s') (hend : a.newVtStart = a.vtStart) :
    t.EndsAtStart a.lid a.vtStart s' ∧ ∀ l, t.findCurrent l s' = t.findCurrent l s := by
  obtain ⟨items, base, delta, hlt, rfl, rfl⟩ := archiveWith_ok hx
  obtain ⟨cp, hside⟩ := side_archived t a _ base delta s
  refine ⟨⟨(t.side s).deltas.length,
    a.record base delta (((t.side s).lastDelta a.lid).getD UNKNOWN), hlt, ?_, ?_, rfl, hend⟩, ?_⟩
  · rw [index_archived, entryAt_insertVersion_self, tiDecodePayload_hist hlt]
  · rw [hside]
    exact List.getElem?_concat_length
  · intro l
    rw [Table.findCurrent, hside]
    rfl

end Laws

end Tables

/-! ## Nodes -/

section Nodes

variable {xid lid id start : Nat} {s : GraphDb}

theorem deleteNode_marks (h : nodeTable.CurrentFor xid lid id s) (hlt : xid < INF) :
    wp (deleteNode xid id) (fun _ s' =>
      nodeTable.Marked lid id (nodeTable.record s id).obj.data.vtStart s' ∧
        s'.txs = (nodeTable.addDirty xid id s).txs) (fun _ _ => True) s := by
  simp only [deleteNode, wp_bind, wp_checkTxContext]
  split
  · refine wp_mono (h.byId hlt) ?_ fun _ _ _ => trivial
    rintro n s' ⟨rfl, rfl⟩
    simp only [wp_get]
    refine wp_ofExcept_ok (fun r hr => ?_) fun _ => trivial
    rw [record_setRecord, if_pos rfl] at hr
    simp only [wp_modify, wp_read, Record.deref]
    -- the end of the function, which two branches lead to
    have hend : ∀ r₀, wp (nodeTable.addDeleted xid ⟨id, .slot⟩ fun _ => true) (fun _ s' =>
        nodeTable.Marked lid id (nodeTable.record s id).obj.data.vtStart s' ∧
          s'.txs = (nodeTable.addDirty xid id s).txs) (fun _ _ => True)
        (nodeTable.setRecord id r (nodeTable.setRecord id r₀ s)) := by
      intro r₀
      refine wp_mono (h.marks hr r₀) ?_ fun _ _ _ => trivial
      rintro _ s' ⟨hm, r', rfl⟩
      exact ⟨hm, rfl⟩
    refine wp_ite (fun _ => ?_) fun _ => hend _
    simp only [wp_bind, wp_get]
    refine wp_ofExcept_ok (fun b _ => wp_ite (fun _ => ?_) fun _ => hend _) fun _ => trivial
    trivial
  · trivial

/-- The commit of a delete archives the version with an empty valid time. -/
theorem commitDirtyNode_empties (h : nodeTable.Marked lid id start s) :
    wp (commitDirtyNode xid id) (fun _ s' => nodeTable.Emptied lid start s') (fun _ _ => True)
      s := by
  obtain ⟨dn, rest, hdirty, hmode, hts, hst⟩ := h.mark
  rw [commitDirtyNode, Table.commitDirty, wp_bind, wp_getRecord]
  split
  · rw [if_neg (not_not.mpr h.live)]
    simp only [hdirty, hmode, Bool.not_true, Bool.false_eq_true, ↓reduceIte]
    rw [if_pos hts]
    refine wp_seq (P := fun _ s' => nodeTable.Emptied lid start s') ?_ fun _ s' h' =>
      wp_mono ((keeps_finishCommit id).always s')
        (fun _ s'' (hr : RecordsOnly s' s'') => h'.of_side hr.nodes hr.index) fun _ _ _ => trivial
    simp only [commitDeleteNode, wp_get_bind]
    rw [wp_bind]
    refine wp_ofExcept_ok (fun _ _ => ?_) fun _ => trivial
    simp only [wp_modify_bind, wp_get_bind]
    refine wp_seq (P := fun _ s' => nodeTable.Emptied lid start s') ?_ fun _ s' h' =>
      wp_mono ((keeps_detachNode id _).always s')
        (fun _ s'' (hr : RecordsOnly s' s'') => h'.of_side hr.nodes hr.index) fun _ _ _ => trivial
    refine wp_mono (wp_self _ _) ?_ fun _ _ _ => trivial
    intro hist s' hx
    obtain ⟨he, hcur⟩ := archived_endsAtStart hx (by simp [h.starts, hst])
    refine ⟨?_, by simpa [h.logical, h.starts] using he⟩
    rw [hcur]
    simp [h.logical]
  · trivial

/-- After the commit of the transaction. -/
theorem commit_empties_node (h : nodeTable.Marked lid id start s)
    (htx : s.txs xid = ⟨true, [id], []⟩) :
    wp (commitTransaction xid) (fun _ s' => nodeTable.Emptied lid start s') (fun _ _ => True)
      s := by
  have hrs : ((leaveActive xid s).txs xid).dirtyRships = [] := by
    simp only [leaveActive, htx]
  have hns : ((leaveActive xid s).txs xid).dirtyNodes = [id] := by
    simp only [leaveActive, htx]
  simp only [commitTransaction, wp_bind, wp_checkTxContext, wp_modify, wp_get, htx, ↓reduceIte, hrs,
    hns, List.forM_eq_forM, List.forM_nil, List.forM_cons, wp_pure]
  have hm : nodeTable.Marked lid id start (leaveActive xid s) :=
    ⟨h.logical, h.starts, h.live, h.mark⟩
  refine wp_mono (commitDirtyNode_empties hm) ?_ fun _ _ _ => trivial
  intro _ s' h'
  exact wp_mono (keeps_vacuum.always _)
    (fun _ s'' (hr : RecordsOnly _ s'') => h'.of_side hr.nodes hr.index) fun _ _ _ => trivial

end Nodes

/-! ## Relationships -/

section Rships

variable {xid lid id start : Nat} {s : GraphDb}

theorem deleteRelationship_marks (h : rshipTable.CurrentFor xid lid id s) (hlt : xid < INF) :
    wp (deleteRelationship xid id) (fun _ s' =>
      rshipTable.Marked lid id (rshipTable.record s id).obj.data.vtStart s' ∧
        s'.txs = (rshipTable.addDirty xid id s).txs) (fun _ _ => True) s := by
  simp only [deleteRelationship, wp_bind, wp_checkTxContext]
  split
  · refine wp_mono (h.byId hlt) ?_ fun _ _ _ => trivial
    rintro n s' ⟨rfl, rfl⟩
    simp only [wp_get]
    refine wp_ofExcept_ok (fun r hr => ?_) fun _ => trivial
    rw [record_setRecord, if_pos rfl] at hr
    simp only [wp_modify]
    refine wp_mono (h.marks hr _) ?_ fun _ _ _ => trivial
    rintro _ s' ⟨hm, r', rfl⟩
    exact ⟨hm, rfl⟩
  · trivial

theorem commitDirtyRelationship_empties (h : rshipTable.Marked lid id start s) :
    wp (commitDirtyRelationship xid id) (fun _ s' => rshipTable.Emptied lid start s')
      (fun _ _ => True) s := by
  obtain ⟨dn, rest, hdirty, hmode, hts, hst⟩ := h.mark
  rw [commitDirtyRelationship, Table.commitDirty, wp_bind, wp_getRecord]
  split
  · rw [if_neg (not_not.mpr h.live)]
    simp only [hdirty, hmode, Bool.not_true, Bool.false_eq_true, ↓reduceIte]
    rw [if_pos hts]
    refine wp_seq (P := fun _ s' => rshipTable.Emptied lid start s') ?_ fun _ s' h' =>
      wp_mono ((keeps_finishCommit id).always s')
        (fun _ s'' (hr : RecordsOnly s' s'') => h'.of_side hr.rships hr.index) fun _ _ _ => trivial
    simp only [commitDeleteRship, wp_get_bind]
    refine wp_seq (wp_mono wp_logicalIdOf (fun _ _ h => h) fun _ _ _ => trivial) ?_
    rintro srcLid _ rfl
    refine wp_seq (wp_mono wp_logicalIdOf (fun _ _ h => h) fun _ _ _ => trivial) ?_
    rintro destLid _ rfl
    simp only [wp_modify_bind, wp_get_bind]
    refine wp_seq (P := fun _ s' => rshipTable.EndsAtStart lid start s') ?_ ?_
    · refine wp_mono (wp_self _ _) ?_ fun _ _ _ => trivial
      intro hist s' hx
      obtain ⟨he, -⟩ := archived_endsAtStart hx (by simp [h.starts, hst])
      simpa [h.logical, h.starts] using he
    · intro _ s' he
      rw [wp_get_bind, wp_bind]
      refine wp_ofExcept_ok (fun _ _ => ?_) fun _ => trivial
      simp only [wp_modify_bind]
      generalize hs₄ : rshipTable.eraseCurrent _ _ = s₄
      have hem : rshipTable.Emptied lid start s₄ := by
        rw [← hs₄]
        exact ⟨by simp [h.logical], he⟩
      exact wp_mono ((keeps_detachRship id _).always _)
        (fun _ s'' (hr : RecordsOnly s₄ s'') => hem.of_side hr.rships hr.index)
        fun _ _ _ => trivial
  · trivial

theorem commit_empties_rship (h : rshipTable.Marked lid id start s)
    (htx : s.txs xid = ⟨true, [], [id]⟩) :
    wp (commitTransaction xid) (fun _ s' => rshipTable.Emptied lid start s') (fun _ _ => True)
      s := by
  have hrs : ((leaveActive xid s).txs xid).dirtyRships = [id] := by
    simp only [leaveActive, htx]
  simp only [commitTransaction, wp_bind, wp_checkTxContext, wp_modify, wp_get, htx, ↓reduceIte, hrs,
    List.forM_eq_forM, List.forM_nil, List.forM_cons, wp_pure]
  have hm : rshipTable.Marked lid id start (leaveActive xid s) :=
    ⟨h.logical, h.starts, h.live, h.mark⟩
  -- the commit of the relationship leaves the list of dirty nodes empty
  have hkeep : Keeps SameTxs (commitDirtyRelationship xid id) :=
    keeps_commitDirtyRelationship xid id
  refine wp_mono (wp_and (commitDirtyRelationship_empties hm) (hkeep.always _)) ?_
    fun _ _ _ => trivial
  rintro _ s' ⟨h', htxs⟩
  have hns : (s'.txs xid).dirtyNodes = [] := by
    rw [show s'.txs = (leaveActive xid s).txs from htxs]
    simp only [leaveActive, htx]
  simp only [hns, List.forM_nil, wp_pure]
  exact wp_mono (keeps_vacuum.always _)
    (fun _ s'' (hr : RecordsOnly _ s'') => h'.of_side hr.rships hr.index) fun _ _ _ => trivial

end Rships

/-! ## The history after a deletion -/

theorem Table.CurrentFor.begun {ε δ γ : Type} {t : Table ε δ γ} [t.Laws] {xid lid id x : Nat}
    {s : GraphDb} (h : t.CurrentFor xid lid id s) : t.CurrentFor xid lid id (s.begun x) := by
  have hrec : t.record (s.begun x) id = t.record s id := by rw [Table.record, side_begun]; rfl
  refine ⟨?_, ?_, ?_, ?_, ?_, ?_, ?_, ?_⟩
  · rw [Table.findCurrent, side_begun]
    exact h.mapped
  · rw [hrec]; exact h.used
  · rw [hrec]; exact h.logical
  · rw [hrec]; exact h.unlocked
  · rw [hrec]; exact h.began
  · rw [hrec]; exact h.before
  · rw [hrec]; exact h.live
  · rw [hrec]; exact h.valid

/-- Where nothing is found at the start of the version that was current, the
history has not been preserved. -/
theorem Table.CurrentFor.not_endsAfter {ε δ γ : Type} {t : Table ε δ γ} {xid lid id : Nat}
    {s s' : GraphDb} (h : t.CurrentFor xid lid id s)
    (he : t.Emptied lid (t.record s id).obj.data.vtStart s') :
    ¬ t.EndsAfter lid (t.record s id).obj.data.vtStart s s' := by
  rintro ⟨d, hd, hsame, -⟩
  refine h.answer ?_
  rw [← hsame _ hd, he.answer]

/-- A deletion never keeps the history of the version it deletes: not for a
node and not for a relationship. -/
theorem deletion_empties_valid_time (s s' : GraphDb) (xid lid id : Nat) :
    (nodeTable.CurrentFor xid lid id s →
      s.runOk [.begin xid, .write xid (.deleteNode id), .commit xid] = some s' →
      ¬ nodeTable.EndsAfter lid (nodeTable.record s id).obj.data.vtStart s s') ∧
    (rshipTable.CurrentFor xid lid id s →
      s.runOk [.begin xid, .write xid (.deleteRship id), .commit xid] = some s' →
      ¬ rshipTable.EndsAfter lid (rshipTable.record s id).obj.data.vtStart s s') := by
  constructor
  · intro h hrun
    obtain ⟨s₁, hb, hrun⟩ := runOk_cons.mp hrun
    obtain ⟨s₂, hw, hrun⟩ := runOk_cons.mp hrun
    obtain ⟨s₃, hc, hrun⟩ := runOk_cons.mp hrun
    cases hrun
    obtain ⟨-, hlt, -, rfl⟩ := begin_ok hb
    obtain ⟨hm, htx⟩ := wp_ok (deleteNode_marks h.begun hlt) hw
    have hdirty : s₂.txs xid = ⟨true, [id], []⟩ := by
      rw [htx]
      simp [nodeTable, GraphDb.begun, GraphDb.modifyTx]
    have hcommit : wp (Step.commit xid).exec (fun _ s' => nodeTable.Emptied lid _ s')
        (fun _ _ => True) s₂ := wp_seq (commit_empties_node hm hdirty) fun _ _ he => he
    have he := wp_ok hcommit hc
    exact h.not_endsAfter he
  · intro h hrun
    obtain ⟨s₁, hb, hrun⟩ := runOk_cons.mp hrun
    obtain ⟨s₂, hw, hrun⟩ := runOk_cons.mp hrun
    obtain ⟨s₃, hc, hrun⟩ := runOk_cons.mp hrun
    cases hrun
    obtain ⟨-, hlt, -, rfl⟩ := begin_ok hb
    obtain ⟨hm, htx⟩ := wp_ok (deleteRelationship_marks h.begun hlt) hw
    have hdirty : s₂.txs xid = ⟨true, [], [id]⟩ := by
      rw [htx]
      simp [rshipTable, GraphDb.begun, GraphDb.modifyTx]
    have hcommit : wp (Step.commit xid).exec (fun _ s' => rshipTable.Emptied lid _ s')
        (fun _ _ => True) s₂ := wp_seq (commit_empties_rship hm hdirty) fun _ _ he => he
    have he := wp_ok hcommit hc
    exact h.not_endsAfter he

/-- A node, and a relationship between two others, that are deleted after
they were committed. -/
theorem deletion_empties_valid_time_run :
    let n₀ : Versioned NodeLinks := ⟨0, 0, 0, 0, 0, 0, 0, 0, 0, ⟨0, 0⟩⟩
    let s := (GraphDb.initial n₀).run [.begin 1,
      .write 1 (.addNode ⟨1, 1⟩ 5 Properties.none 10 MAX_TIME 7),
      .write 1 (.addNode ⟨2, 2⟩ 5 Properties.none 10 MAX_TIME 8),
      .write 1 (.addNode ⟨3, 3⟩ 5 Properties.none 10 MAX_TIME 9), .commit 1, .begin 2,
      .write 2 (.addRship ⟨1, 1⟩ 1 2 6 Properties.none 12 MAX_TIME 7), .commit 2]
    ¬ nodeTable.EndsAfter 9 10 s (s.run [.begin 3, .write 3 (.deleteNode 3), .commit 3]) ∧
      ¬ rshipTable.EndsAfter 7 12 s (s.run [.begin 3, .write 3 (.deleteRship 1), .commit 3]) := by
  intro n₀ s
  have hn : nodeTable.CurrentFor 3 9 3 s := by
    constructor <;> decide +kernel
  have hr : rshipTable.CurrentFor 3 7 1 s := by
    constructor <;> decide +kernel
  have hns : (nodeTable.record s 3).obj.data.vtStart = 10 := by decide +kernel
  have hrs : (rshipTable.record s 1).obj.data.vtStart = 12 := by decide +kernel
  have hnode := (deletion_empties_valid_time s _ 3 9 3).1 hn (runOk_eq_run (by decide +kernel))
  have hrship := (deletion_empties_valid_time s _ 3 7 1).2 hr (runOk_eq_run (by decide +kernel))
  rw [hns] at hnode
  rw [hrs] at hrship
  exact ⟨hnode, hrship⟩

/-- The node with the logical id `7` begins at `10` and is deleted: at `10`
it was found before, and is not found afterwards. -/
theorem deleted_node_lost_at_start :
    let n₀ : Versioned NodeLinks := ⟨0, 0, 0, 0, 0, 0, 0, 0, 0, ⟨0, 0⟩⟩
    let s := (GraphDb.initial n₀).run
      [.begin 1, .write 1 (.addNode ⟨1, 1⟩ 5 Properties.none 10 MAX_TIME 7), .commit 1]
    let s' := s.run [.begin 2, .write 2 (.deleteNode 1), .commit 2]
    s.runOk [.begin 2, .write 2 (.deleteNode 1), .commit 2] = some s' ∧
      nodeTable.answer s 7 10 = .ok (7, 10) ∧ nodeTable.answer s' 7 10 = .error .unknownId ∧
      ¬ nodeTable.EndsAfter 7 10 s s' := by
  intro n₀ s s'
  have hrun : s.runOk [.begin 2, .write 2 (.deleteNode 1), .commit 2] = some s' :=
    runOk_eq_run (by decide +kernel)
  have hbefore : nodeTable.answer s 7 10 = .ok (7, 10) := by decide +kernel
  have hafter : nodeTable.answer s' 7 10 = .error .unknownId := by decide +kernel
  refine ⟨hrun, hbefore, hafter, ?_⟩
  rintro ⟨d, hd, hsame, -⟩
  rw [hsame 10 hd, hbefore] at hafter
  cases hafter

end Poseidon.Temporal
