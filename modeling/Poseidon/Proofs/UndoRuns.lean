import Poseidon.Lib.Along
import Poseidon.Proofs.HistoryEffects
import Poseidon.Proofs.Undo

/-!
# Transactions that an abort undoes

The writes that an abort makes up for are closings of versions that are
current, and calls that are refused before they have changed anything. A
transaction of such writes keeps the store undoable, and its abort restores
what reads by valid time and the maps of current versions say and all hot
records.
-/

namespace Poseidon.Temporal

open Wp

/-! ## Writes -/

section Tables

variable {ε δ γ : Type} (t : Table ε δ γ)

/-- The record in slot `id` has no version that `xid` may read. -/
def Table.Refused (xid id : Nat) (s : GraphDb) : Prop :=
  (t.record s id).used = false ∨
    ∃ e, ((t.record s id).recordRead xid).getValidVersion xid = .error e

/-- The version that `xid` reads cannot be locked. -/
def Table.LockRefused (xid id : Nat) (s : GraphDb) : Prop :=
  ∃ l e, ((t.record s id).recordRead xid).getValidVersion xid = .ok l ∧
    ((t.record s id).recordRead xid).lockForWrite l xid = .error e

end Tables

/-- The version that `xid` reads is in the slot of the node, and it has
relationships that `xid` can see. -/
def Attached (xid id : Nat) (s : GraphDb) : Prop :=
  ((nodeTable.record s id).recordRead xid).getValidVersion xid = .ok .slot ∧
    hasValidRshipsOf s (nodeTable.record s id).obj.data.links xid = .ok true

/-- A write that an abort makes up for: `s₀` is the store when the
transaction began, `s` the one before the write. -/
def Write.Harmless (xid : Nat) (s₀ s : GraphDb) : Write → Prop
  | .addNode .. => False
  | .updateNode id .. => nodeTable.Refused xid id s
  | .closeNode id _ => nodeTable.Closable xid s₀ id ∨ nodeTable.Refused xid id s
  | .deleteNode id =>
      nodeTable.Refused xid id s ∨ nodeTable.LockRefused xid id s ∨ Attached xid id s
  | .addRship _ fromId toId .. => nodeTable.Refused xid fromId s ∨ nodeTable.Refused xid toId s
  | .updateRship id .. => rshipTable.Refused xid id s
  | .closeRship id _ => rshipTable.Closable xid s₀ id ∨ rshipTable.Refused xid id s
  | .deleteRship id => rshipTable.Refused xid id s ∨ rshipTable.LockRefused xid id s

/-- A transaction all of whose writes are harmless. -/
abbrev AllHarmless (xid : Nat) (s₀ : GraphDb) (ws : List Write) (s : GraphDb) : Prop :=
  Along (fun s w => s.step (.write xid w)) (fun s w => w.Harmless xid s₀ s) s ws

/-- The store during such a transaction. -/
structure Writing (xid : Nat) (s₀ s : GraphDb) : Prop where
  running : (s.txs xid).running = true
  undoing : Undoing nodeTable rshipTable xid s₀ (s.txs xid).dirtyNodes (s.txs xid).dirtyRships s

/-! ## Reads -/

section Reads

variable {ε δ γ : Type} {t : Table ε δ γ} {xid id : Nat} {s : GraphDb}

theorem core_recordRead {α : Type} (r : Record α) (xid : Nat) :
    core (r.recordRead xid) = core r := by
  simp [core, Record.recordRead, Obj.prepare]

/-- The store after a read was recorded. -/
def Table.readBy (t : Table ε δ γ) (xid id : Nat) (s : GraphDb) : GraphDb :=
  t.setRecord id ((t.record s id).recordRead xid) s

theorem wp_byId :
    wp (t.byId xid id)
      (fun n s' => ¬ t.Refused xid id s ∧ ∃ l, n = ⟨id, l⟩ ∧
        ((t.record s id).recordRead xid).getValidVersion xid = .ok l ∧ s' = t.readBy xid id s)
      (fun _ s' => s' = s ∨ s' = t.readBy xid id s) s := by
  rw [Table.byId, wp_bind, wp_checkTxContext]
  split
  · rw [wp_bind, wp_getRecord]
    split
    · next hu =>
      rw [wp_modify_bind, wp_bind]
      change wp (ofExcept (((t.record s id).recordRead xid).getValidVersion xid)) _ _
        (t.readBy xid id s)
      rw [wp_ofExcept]
      cases hv : ((t.record s id).recordRead xid).getValidVersion xid with
      | ok l =>
          refine ⟨?_, l, rfl, rfl, rfl⟩
          rintro (h | ⟨e, h⟩)
          · rw [hu] at h
            cases h
          · rw [hv] at h
            cases h
      | error e => exact .inr rfl
    · exact .inl rfl
  · exact .inl rfl

/-- A version that can be closed is read in its slot. -/
theorem Table.Closable.getValidVersion {s₀ : GraphDb} (h : t.Closable xid s₀ id) (hlt : xid < INF)
    {r : Record (Versioned ε)} (hr : core (reopened r) = core (t.record s₀ id)) :
    (r.recordRead xid).getValidVersion xid = .ok .slot := by
  have htx : r.obj.txnId = 0 := by
    rw [← h.unlocked]
    exact congrArg (fun r => r.obj.txnId) hr
  have hb : r.obj.bts = (t.record s₀ id).obj.bts := congrArg (fun r => r.obj.bts) hr
  have hc : r.obj.cts = INF := by
    rw [← h.live]
    exact congrArg (fun r => r.obj.cts) hr
  have hlt' := h.before
  have hne : ¬ 0 = xid := by omega
  have hle : r.obj.bts ≤ xid := by omega
  simp [Record.recordRead, Record.getValidVersion, Obj.isLockedBy, Obj.isLocked, Obj.isValidFor,
    Obj.prepare, htx, hc, hne, hle, hlt]

end Reads

/-! ## Closing -/

section Pair

variable {ε δ γ ε' δ' γ' : Type} {t : Table ε δ γ} {u : Table ε' δ' γ'}
variable [t.Laws] [u.Laws] [t.Apart u] [t.Lawful]
variable {xid id : Nat} {s₀ s s' : GraphDb} {D E : List Nat}

/-- The store when the end of a version has been written. -/
def Table.ended (t : Table ε δ γ) (xid id vt : Nat) (s : GraphDb) : GraphDb :=
  t.modifyAt ⟨id, .slot⟩ (fun o => { o with data := { o.data with vtEnd := vt } })
    (t.addDirty xid id (t.readBy xid id s))

omit [u.Laws] [t.Lawful] in
theorem Undoing.readBy (h : Undoing t u xid s₀ D E s) (x : Nat) :
    Undoing t u xid s₀ D E (t.readBy x id s) :=
  h.setRecord (.inl (core_recordRead _ _))

omit [u.Laws] [t.Lawful] in
/-- The end of a version that may be closed. -/
theorem Undoing.ended (h : Undoing t u xid s₀ D E s) (hc : t.Closable xid s₀ id) (vt : Nat) :
    Undoing t u xid s₀ (D ++ [id]) E (t.ended xid id vt s) := by
  have hmore : Undoing t u xid s₀ (D ++ [id]) E (t.addDirty xid id (t.readBy xid id s)) := by
    refine ((h.readBy xid).mono (fun i hi => List.mem_append_left _ hi) fun i hi => ?_).addDirty
    rcases List.mem_append.mp hi with hi | hi
    · exact h.here.closable i hi
    · rw [List.mem_singleton.mp hi]
      exact hc
  exact hmore.setRecord (.inr ⟨by simp, rfl⟩)

/-- The end of the close functions. -/
theorem Undoing.closeTail (h : Undoing t u xid s₀ D E s) (hid : id ∈ D) {a : ArchiveArgs δ γ}
    (hl : a.lid = (t.record s id).obj.data.logicalId)
    (hs : a.vtStart = (t.record s id).obj.data.vtStart) :
    always (do
      let _ ← t.archiveWith a
      modify (t.eraseCurrent a.lid)) (fun s' => Undoing t u xid s₀ D E s' ∧ SameTxs s s') s := by
  rw [(h.here.data id).1] at hl
  rw [(h.here.data id).2] at hs
  have hk : Keeps SameTxs (do
      let _ ← t.archiveWith a
      modify (t.eraseCurrent a.lid)) :=
    keeps_bind (keeps_archiveWith a) fun _ => keeps_eraseCurrent a.lid
  refine wp_and (always_bind (h.archiveWith hid hl hs) fun _ s' h' => ?_) (hk.always s)
  rw [hl]
  exact h'.eraseCurrent hid

end Pair

section Writes

variable {xid id : Nat} {s₀ s s' : GraphDb}

/-- The lists of the transaction say what may have been closed. -/
theorem Writing.of_undoing {D E : List Nat} (h : Undoing nodeTable rshipTable xid s₀ D E s)
    (htx : s.txs xid = ⟨true, D, E⟩) : Writing xid s₀ s := by
  refine ⟨by rw [htx], ?_⟩
  rw [htx]
  exact h

theorem Writing.readNode (h : Writing xid s₀ s) : Writing xid s₀ (nodeTable.readBy xid id s) :=
  ⟨h.running, h.undoing.readBy xid⟩

theorem Writing.readRship (h : Writing xid s₀ s) : Writing xid s₀ (rshipTable.readBy xid id s) :=
  ⟨h.running, (h.undoing.symm.readBy xid).symm⟩

theorem closeNode_writing (h : Writing xid s₀ s) (hlt : xid < INF)
    (hc : nodeTable.Closable xid s₀ id ∨ nodeTable.Refused xid id s) (vt : Nat) :
    always (closeNodeAtVt xid id vt) (Writing xid s₀) s := by
  rw [always, closeNodeAtVt, wp_bind, wp_checkTxContext, if_pos h.running, wp_bind]
  refine wp_mono wp_byId ?_ ?_
  · rintro _ _ ⟨hnr, l, rfl, hv, rfl⟩
    have hc := hc.resolve_right hnr
    rw [hc.getValidVersion hlt (h.undoing.here.of_closable hc)] at hv
    cases hv
    rw [wp_modify_bind, wp_modify_bind, wp_bind, wp_read]
    have hend := h.undoing.ended hc vt
    have htx : (nodeTable.ended xid id vt s).txs xid =
        ⟨true, (s.txs xid).dirtyNodes ++ [id], (s.txs xid).dirtyRships⟩ := by
      rw [← h.running]
      simp [nodeTable, Table.ended, Table.modifyAt, Table.setRecord, Table.modifySide,
        GraphDb.modifyTx, Table.readBy]
    refine always_mono (hend.closeTail (by simp) rfl rfl) fun s' hs' => ?_
    have hsame : s'.txs = (nodeTable.ended xid id vt s).txs := hs'.2
    exact .of_undoing hs'.1 (by rw [hsame, htx])
  · rintro _ _ (rfl | rfl)
    · exact h
    · exact h.readNode

theorem closeRelationship_writing (h : Writing xid s₀ s) (hlt : xid < INF)
    (hc : rshipTable.Closable xid s₀ id ∨ rshipTable.Refused xid id s) (vt : Nat) :
    always (closeRelationshipAtVt xid id vt) (Writing xid s₀) s := by
  rw [always, closeRelationshipAtVt, wp_bind, wp_checkTxContext, if_pos h.running, wp_bind]
  refine wp_mono wp_byId ?_ ?_
  · rintro _ _ ⟨hnr, l, rfl, hv, rfl⟩
    have hc := hc.resolve_right hnr
    rw [hc.getValidVersion hlt (h.undoing.there.of_closable hc)] at hv
    cases hv
    rw [wp_modify_bind, wp_modify_bind, wp_bind, wp_read]
    have hend := h.undoing.symm.ended hc vt
    have htx : (rshipTable.ended xid id vt s).txs xid =
        ⟨true, (s.txs xid).dirtyNodes, (s.txs xid).dirtyRships ++ [id]⟩ := by
      rw [← h.running]
      simp [rshipTable, Table.ended, Table.modifyAt, Table.setRecord, Table.modifySide,
        GraphDb.modifyTx, Table.readBy]
    have hw : ∀ s', Undoing rshipTable nodeTable xid s₀ ((s.txs xid).dirtyRships ++ [id])
        (s.txs xid).dirtyNodes s' → s'.txs = (rshipTable.ended xid id vt s).txs →
        Writing xid s₀ s' :=
      fun s' hu hsame => .of_undoing hu.symm (by rw [hsame, htx])
    change wp _ _ _ (rshipTable.ended xid id vt s)
    rw [wp_bind]
    refine wp_mono wp_logicalIdOf ?_ fun _ _ heq => ?_
    · rintro _ _ rfl
      rw [wp_bind]
      refine wp_mono wp_logicalIdOf ?_ fun _ _ heq => ?_
      · rintro _ _ rfl
        exact always_mono (hend.closeTail (by simp) rfl rfl) fun s' hs' => hw s' hs'.1 hs'.2
      · rw [heq]
        exact hw _ hend rfl
    · rw [heq]
      exact hw _ hend rfl
  · rintro _ _ (rfl | rfl)
    · exact h
    · exact h.readRship

/-! ## Refused calls -/

/-- A read of a record that may not be read. -/
theorem wp_byId_refused {ε δ γ : Type} {t : Table ε δ γ} {Q : Ref → GraphDb → Prop}
    (hr : t.Refused xid id s) :
    wp (t.byId xid id) Q (fun _ s' => s' = s ∨ s' = t.readBy xid id s) s :=
  wp_mono wp_byId (fun _ _ h => absurd hr h.1) fun _ _ h => h

theorem updateNode_writing (h : Writing xid s₀ s) (hr : nodeTable.Refused xid id s)
    (p : Stored) (props : List PItem) (vt : Nat) :
    always (updateNodeCreateVersion xid id p props vt) (Writing xid s₀) s := by
  rw [always, updateNodeCreateVersion, wp_bind, wp_checkTxContext, if_pos h.running, wp_bind]
  refine wp_mono (wp_byId_refused hr) (fun _ _ h => h) ?_
  rintro _ _ (rfl | rfl)
  · exact h
  · exact h.readNode

theorem updateRelationship_writing (h : Writing xid s₀ s) (hr : rshipTable.Refused xid id s)
    (p : Stored) (props : List PItem) (vt : Nat) :
    always (updateRelationshipCreateVersion xid id p props vt) (Writing xid s₀) s := by
  rw [always, updateRelationshipCreateVersion, wp_bind, wp_checkTxContext, if_pos h.running,
    wp_bind]
  refine wp_mono (wp_byId_refused hr) (fun _ _ h => h) ?_
  rintro _ _ (rfl | rfl)
  · exact h
  · exact h.readRship

theorem recordRead_twice {α : Type} (r : Record α) :
    (r.recordRead xid).recordRead xid = r.recordRead xid := by
  by_cases hlt : r.obj.rts < xid
  · simp [Record.recordRead, Obj.prepare, Obj.setRts, hlt]
  · simp [Record.recordRead, Obj.prepare, Obj.setRts, hlt]

/-- A read does not make a record readable. -/
theorem Table.Refused.readBy {ε δ γ : Type} {t : Table ε δ γ} [t.Laws] {i : Nat}
    (h : t.Refused xid id s) : t.Refused xid id (t.readBy xid i s) := by
  simp only [Table.Refused, Table.readBy, record_setRecord]
  split
  · next heq =>
    subst heq
    rw [recordRead_twice]
    exact h
  · exact h

theorem addRelationship_writing {fromId toId : Nat} (h : Writing xid s₀ s)
    (hr : nodeTable.Refused xid fromId s ∨ nodeTable.Refused xid toId s)
    (p : Stored) (label : Nat) (props : List PItem) (vtStart vtEnd lid : Nat) :
    always (addRelationship xid p fromId toId label props vtStart vtEnd lid)
      (Writing xid s₀) s := by
  rw [always, addRelationship, wp_bind, wp_checkTxContext, if_pos h.running, wp_bind]
  refine wp_mono wp_byId ?_ ?_
  · rintro _ _ ⟨hnr, l, rfl, -, rfl⟩
    rw [wp_bind]
    refine wp_mono (wp_byId_refused (hr.resolve_left hnr).readBy) (fun _ _ h => h) ?_
    rintro _ _ (rfl | rfl)
    · exact h.readNode
    · exact h.readNode.readNode
  · rintro _ _ (rfl | rfl)
    · exact h
    · exact h.readNode

theorem deleteRelationship_writing (h : Writing xid s₀ s)
    (hr : rshipTable.Refused xid id s ∨ rshipTable.LockRefused xid id s) :
    always (deleteRelationship xid id) (Writing xid s₀) s := by
  rw [always, deleteRelationship, wp_bind, wp_checkTxContext, if_pos h.running, wp_bind]
  refine wp_mono wp_byId ?_ ?_
  · rintro _ _ ⟨hnr, l, rfl, hv, rfl⟩
    obtain ⟨l', e, hv', hlock⟩ := hr.resolve_left hnr
    rw [hv] at hv'
    cases hv'
    rw [wp_get_bind, wp_bind, wp_ofExcept, Table.readBy, record_setRecord, if_pos rfl, hlock]
    exact h.readRship
  · rintro _ _ (rfl | rfl)
    · exact h
    · exact h.readRship

/-- A lock that is taken and given back. -/
theorem core_relocked {α : Type} {r r' : Record α}
    (hv : (r.recordRead xid).getValidVersion xid = .ok .slot)
    (hl : (r.recordRead xid).lockForWrite .slot xid = .ok r') :
    core (r'.modifyAt .slot Obj.unlock) = core r ∧ r'.obj.data = r.obj.data := by
  have hfree : (r.recordRead xid).obj.txnId = 0 := by
    rw [Record.getValidVersion] at hv
    split at hv
    · next hown =>
      cases hf : (r.recordRead xid).findValidVersion xid with
      | ok dn => rw [hf] at hv; cases hv
      | error e => rw [hf] at hv; cases hv
    · split at hv
      · next hun => simpa [Obj.isLocked] using hun
      · split at hv
        · cases hv
        · split at hv
          · cases hv
          · cases hv
  have htx : r.obj.txnId = 0 := by simpa [Record.recordRead, Obj.prepare] using hfree
  simp only [Record.lockForWrite, Record.deref] at hl
  split at hl
  · cases hl
  · split at hl
    · next hown =>
      cases hl
      simp [core, Record.modifyAt, Record.recordRead, Obj.unlock, Obj.prepare, htx]
    · simp only [Obj.tryLock, hfree, if_true] at hl
      cases hl
      simp [core, Record.modifyAt, Record.recordRead, Obj.unlock, Obj.prepare, htx]

theorem setRecord_twice (r r' : Record (Versioned NodeLinks)) :
    nodeTable.setRecord id r (nodeTable.setRecord id r' s) = nodeTable.setRecord id r s := by
  simp only [Table.setRecord, Table.modifySide, nodeTable, Vec.put, Nat.max_assoc, Nat.max_self]
  congr 3
  funext i
  split
  · rfl
  · rfl

/-- The check of a node's relationships looks at relationships only. -/
theorem hasValidRshipsOf_congr {n : NodeLinks} (h : s'.rships = s.rships) :
    hasValidRshipsOf s' n xid = hasValidRshipsOf s n xid := by
  have hloop : ∀ next fuel rid,
      hasValidRships s' xid next fuel rid = hasValidRships s xid next fuel rid := by
    intro next fuel
    induction fuel with
    | zero => exact fun _ => rfl
    | succ fuel ih =>
        intro rid
        simp only [hasValidRships, h, ih]
  simp only [hasValidRshipsOf, hloop, h]

/-- A node with relationships has one in one of its lists. -/
theorem attached_links {n : NodeLinks} (h : hasValidRshipsOf s n xid = .ok true) :
    n.fromRshipList ≠ UNKNOWN ∨ n.toRshipList ≠ UNKNOWN := by
  by_contra hno
  obtain ⟨hf, ht⟩ := not_or.mp hno
  rw [hasValidRshipsOf, not_not.mp hf, not_not.mp ht] at h
  cases h

theorem deleteNode_writing (h : Writing xid s₀ s)
    (hr : nodeTable.Refused xid id s ∨ nodeTable.LockRefused xid id s ∨ Attached xid id s) :
    always (deleteNode xid id) (Writing xid s₀) s := by
  rw [always, deleteNode, wp_bind, wp_checkTxContext, if_pos h.running, wp_bind]
  refine wp_mono wp_byId ?_ ?_
  · rintro _ _ ⟨hnr, l, rfl, hv, rfl⟩
    rw [wp_get_bind, wp_bind, wp_ofExcept, Table.readBy, record_setRecord, if_pos rfl]
    rcases hr.resolve_left hnr with ⟨l', e, hv', hlock⟩ | ⟨hv', hhas⟩
    · rw [hv] at hv'
      cases hv'
      rw [hlock]
      exact h.readNode
    · rw [hv] at hv'
      cases hv'
      cases hlock : ((nodeTable.record s id).recordRead xid).lockForWrite .slot xid with
      | error e => exact h.readNode
      | ok r' =>
          obtain ⟨hcore, hdata⟩ := core_relocked hv hlock
          dsimp only
          rw [wp_modify_bind, wp_bind, wp_read, record_setRecord, if_pos rfl]
          change wp (if r'.obj.data.links.fromRshipList ≠ UNKNOWN ∨
            r'.obj.data.links.toRshipList ≠ UNKNOWN then _ else _) _ _ _
          rw [hdata, if_pos (attached_links hhas), wp_get_bind, wp_bind, wp_ofExcept]
          rw [hasValidRshipsOf_congr (s := s) ?_, hhas]
          · change Writing xid s₀ (nodeTable.setRecord id _ (nodeTable.setRecord id _ _))
            rw [setRecord_twice, setRecord_twice]
            exact ⟨h.running, h.undoing.setRecord (.inl hcore)⟩
          · rfl
  · rintro _ _ (rfl | rfl)
    · exact h
    · exact h.readNode

/-! ## Runs of writes -/

theorem Write.writing (h : Writing xid s₀ s) (hlt : xid < INF) :
    ∀ w : Write, w.Harmless xid s₀ s → always (w.exec xid) (Writing xid s₀) s
  | .addNode .., hw => hw.elim
  | .updateNode .., hw => updateNode_writing h hw ..
  | .closeNode .., hw => closeNode_writing h hlt hw _
  | .deleteNode .., hw => deleteNode_writing h hw
  | .addRship .., hw => addRelationship_writing h hw ..
  | .updateRship .., hw => updateRelationship_writing h hw ..
  | .closeRship .., hw => closeRelationship_writing h hlt hw _
  | .deleteRship .., hw => deleteRelationship_writing h hw

/-- A transaction of harmless writes can be undone at its end. -/
theorem AllHarmless.writing (h : Writing xid s₀ s) (hlt : xid < INF) {ws : List Write}
    (hws : AllHarmless xid s₀ ws s) :
    Writing xid s₀ (s.run (ws.map (.write xid))) := by
  rw [GraphDb.run, List.foldl_map]
  refine foldl_of_along _ (fun s w hs hw => ?_) ws s h hws
  exact step_of_always (w.writing hs hlt hw)

end Writes

end Poseidon.Temporal
