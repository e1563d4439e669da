import Poseidon.Proofs.AsOf
import Poseidon.Proofs.HistoryEffects
import Poseidon.Proofs.UndoRuns

/-!
# Aborted transactions

An abort of a transaction all of whose writes are harmless. It opens the
closed versions again, one after the other, and when the list of touched
records is empty, nothing is left of what the transaction did but history
records that no index entry leads to and checkpoints that no read is led
astray by.
-/

namespace Poseidon.Temporal

open Relation

/-!
## Index entries lead to history records

An entry of an archived version holds the number of its history record. The
records are never removed, so in every reachable store the number is one of a
record that is there, and a read by valid time that ends at such an entry does
not depend on the records after it.
-/

/-- The entries of history records hold numbers below `n`. -/
def CountedBy (ix : OrdMap Nat Nat) (isRel : Bool) (n : Nat) : Prop :=
  ∀ e ∈ ix.entries, HistEntry isRel e → tiDecodePayload e.2 < n

/-- Every history record that the index knows of is there. -/
structure Counted (s : GraphDb) : Prop where
  nodes : CountedBy s.index false s.nodes.deltas.length
  rships : CountedBy s.index true s.rships.deltas.length

variable {ix : OrdMap Nat Nat} {lid vt payload n : Nat} {isRel isRel' : Bool}

theorem CountedBy.more (h : CountedBy ix isRel n) : CountedBy ix isRel (n + 1) :=
  fun e he hh => Nat.lt_succ_of_lt (h e he hh)

theorem CountedBy.insertHot (h : CountedBy ix isRel n) :
    CountedBy (insertVersion ix lid vt .hot payload isRel') isRel n := by
  intro e he hh
  rcases mem_insertVersion he with rfl | he
  · exact absurd hh (not_histEntry_hot lid vt payload isRel isRel')
  · exact h e he hh

theorem CountedBy.remove (h : CountedBy ix isRel n) :
    CountedBy (removeVersion ix lid vt isRel') isRel n :=
  fun e he hh => h e (mem_removeVersion he) hh

/-- The entry of a new history record. -/
theorem CountedBy.archive (h : CountedBy ix isRel n) (hn : n < 2 ^ 56) :
    CountedBy (insertVersion (removeVersion ix lid vt isRel) lid vt .hist (encodeHistoryId n)
      isRel) isRel (n + 1) := by
  intro e he hh
  rcases mem_insertVersion he with rfl | he
  · rw [tiDecodePayload_hist hn]
    exact Nat.lt_succ_self n
  · exact h.remove.more e he hh

/-- The entry of a new history record of the other partition. -/
theorem CountedBy.archiveOther (isRel : Bool) (h : CountedBy ix (!isRel) n) :
    CountedBy (insertVersion (removeVersion ix lid vt isRel) lid vt .hist payload isRel)
      (!isRel) n := by
  intro e he hh
  rcases mem_insertVersion he with rfl | he
  · exact absurd hh (not_histEntry_other lid vt payload isRel)
  · exact h.remove e he hh

theorem Counted.effect {s s' : GraphDb} (h : Counted s) (he : Effect s s') : Counted s' := by
  cases he with
  | quiet hs =>
      refine ⟨?_, ?_⟩
      · rw [hs.index, hs.nodeDeltas]; exact h.nodes
      · rw [hs.index, hs.rshipDeltas]; exact h.rships
  | indexHot lid vt id isRel => exact ⟨h.nodes.insertHot, h.rships.insertHot⟩
  | indexRemove lid vt isRel => exact ⟨h.nodes.remove, h.rships.remove⟩
  | baseNode d =>
      refine ⟨?_, h.rships⟩
      simpa [Table.addHistory, Table.setLastDelta, Table.modifySide, nodeTable] using h.nodes.more
  | baseRship d =>
      refine ⟨h.nodes, ?_⟩
      simpa [Table.addHistory, Table.setLastDelta, Table.modifySide, rshipTable] using
        h.rships.more
  | archiveNode d hlt =>
      refine ⟨?_, CountedBy.archiveOther false h.rships⟩
      simpa [Table.addHistory, Table.setLastDelta, Table.modifySide, Table.indexHist, nodeTable]
        using h.nodes.archive hlt
  | archiveRship d hlt =>
      refine ⟨CountedBy.archiveOther true h.nodes, ?_⟩
      simpa [Table.addHistory, Table.setLastDelta, Table.modifySide, Table.indexHist, rshipTable]
        using h.rships.archive hlt

theorem counted_run (n₀ : Versioned NodeLinks) (as : List Step) :
    Counted ((GraphDb.initial n₀).run as) := by
  have h := (GraphDb.initial n₀).run_effects as
  generalize (GraphDb.initial n₀).run as = s at h
  induction h with
  | refl => exact ⟨fun _ he => (by cases he), fun _ he => (by cases he)⟩
  | tail _ he ih => exact ih.effect he

/-! ## Reads -/

section Tables

variable {ε δ γ : Type} {t : Table ε δ γ} {s s₀ : GraphDb}

/-- More history records, and the same of everything else a search in the
index looks at. -/
structure Table.Extends (t : Table ε δ γ) (s₀ s : GraphDb) : Prop where
  records : ∀ id, core (t.record s id) = core (t.record s₀ id)
  logicalIndex : (t.side s).logicalIndex = (t.side s₀).logicalIndex
  deltas : ∃ new, (t.side s).deltas = (t.side s₀).deltas ++ new
  index : s.index = s₀.index

theorem Table.Extends.locateHist (h : t.Extends s₀ s) {payload vt : Nat}
    (hp : payload < (t.side s₀).deltas.length) (hfit : payload < 2 ^ 56) :
    t.locateHist s payload vt = t.locateHist s₀ payload vt := by
  obtain ⟨new, hnew⟩ := h.deltas
  have hdec : decodeHistoryId payload = payload := by
    rw [decodeHistoryId]
    omega
  simp only [Table.locateHist, Side.getDelta, hnew, hdec, List.getElem?_append_left hp]

/-- The record of an entry that a search has found. -/
theorem locateHist_found (h : t.Extends s₀ s)
    (hc : CountedBy s₀.index t.isRel (t.side s₀).deltas.length) {lid vt vt' hint payload : Nat}
    (hf : lookupAsOf s₀.index lid vt hint t.isRel = some (PtrType.hist.code, payload)) :
    t.locateHist s payload vt' = t.locateHist s₀ payload vt' := by
  obtain ⟨e, he, hty, rfl, hpart⟩ := lookupAsOf_mem hf
  exact h.locateHist (hc e he ⟨hty, hpart⟩) (Nat.mod_lt _ (by decide))

theorem Table.Extends.locateBelow (h : t.Extends s₀ s)
    (hc : CountedBy s₀.index t.isRel (t.side s₀).deltas.length) (lid vt below : Nat) :
    t.locateBelow s lid vt below = t.locateBelow s₀ lid vt below := by
  simp only [Table.locateBelow, h.index]
  cases hf : lookupAsOf s₀.index lid below 0 t.isRel with
  | none => rfl
  | some e =>
      obtain ⟨ty, payload⟩ := e
      simp only
      split
      · next hty =>
        subst hty
        exact locateHist_found h hc hf
      · rw [core_used (h.records _), core_hotAt (h.records _)]

/-- A search in the index finds the same, whatever was archived since. -/
theorem Table.Extends.locateIndexed (h : t.Extends s₀ s)
    (hc : CountedBy s₀.index t.isRel (t.side s₀).deltas.length) (lid vt hint : Nat) :
    t.locateIndexed s lid vt hint = t.locateIndexed s₀ lid vt hint := by
  simp only [Table.locateIndexed, h.index]
  cases hf : lookupAsOf s₀.index lid vt hint t.isRel with
  | none => rfl
  | some e =>
      obtain ⟨ty, payload⟩ := e
      simp only
      rw [core_used (h.records _), core_hotAt (h.records _), core_data (h.records _),
        h.locateBelow hc]
      split
      · rfl
      · split
        · next hty =>
          subst hty
          exact locateHist_found h hc hf
        · rfl

end Tables

end Poseidon.Temporal

namespace Poseidon.Temporal

open Wp

/-! ## One record -/

section Tables

variable {ε δ γ : Type} {t : Table ε δ γ} {xid id : Nat} {s₀ s₁ s s' : GraphDb} {D : List Nat}

/-- The record of a version that was opened again. -/
def restored (r : Record (Versioned ε)) : Record (Versioned ε) :=
  { r with obj := { r.obj with
      txnId := 0, cts := INF
      data := { r.obj.data with vtEnd := MAX_TIME, nextVersion := UNKNOWN } } }

/-- A closed version that is opened again is as it was. -/
theorem Table.Closable.core_restored (h : t.Closable xid s₀ id) {r : Record (Versioned ε)}
    (hr : core (reopened r) = core (t.record s₀ id)) :
    core (restored r) = core (t.record s₀ id) := by
  have hlock : r.obj.txnId = 0 := by
    rw [← h.unlocked]
    exact congrArg (fun r => r.obj.txnId) hr
  have hlive : r.obj.cts = INF := by
    rw [← h.live]
    exact congrArg (fun r => r.obj.cts) hr
  have hlast : r.obj.data.nextVersion = UNKNOWN := by
    rw [← h.last]
    exact congrArg (fun r => r.obj.data.nextVersion) hr
  rw [← hr]
  simp [core, restored, reopened, hlock, hlive, hlast]

/-- One touched record less. -/
theorem Table.Undoable.restore (h : t.Undoable xid s₀ (id :: D) s)
    (hr : ∀ i, t.record s' i = if i = id then restored (t.record s id) else t.record s i)
    (hc : ∀ l, t.findCurrent l s' =
      if l = (t.record s₀ id).obj.data.logicalId then some id else t.findCurrent l s)
    (hd : (t.side s').deltas = (t.side s).deltas)
    (hk : (t.side s').checkpoints = (t.side s).checkpoints) : t.Undoable xid s₀ D s' := by
  have hid := h.closable id (List.mem_cons_self ..)
  have hback : core (t.record s' id) = core (t.record s₀ id) := by
    rw [hr, if_pos rfl]
    exact hid.core_restored (h.closed id (List.mem_cons_self ..))
  refine ⟨fun i hi => h.closable i (List.mem_cons_of_mem _ hi), fun i hi => ?_, fun i hi => ?_,
    fun l => ?_, hd ▸ h.deltas, hk ▸ h.checkpoints⟩
  · by_cases heq : i = id
    · rw [heq, hback]
    · rw [hr, if_neg heq]
      exact h.records i fun hm => (List.mem_cons.mp hm).elim heq hi
  · by_cases heq : i = id
    · subst heq
      rw [← hid.reopened_eq]
      exact congrArg reopened hback
    · rw [hr, if_neg heq]
      exact h.closed i (List.mem_cons_of_mem _ hi)
  · rw [hc]
    split
    · next hl =>
      rw [hl]
      exact .inl hid.mapped.symm
    · next hl =>
      rcases h.current l with hl' | ⟨i, hi, hl'⟩
      · exact .inl hl'
      · rcases List.mem_cons.mp hi with rfl | hi
        · exact absurd hl'.symm hl
        · exact .inr ⟨i, hi, hl'⟩

end Tables

section Pair

variable {ε δ γ ε' δ' γ' : Type} {t : Table ε δ γ} {u : Table ε' δ' γ'}
variable [t.Laws] [u.Laws] [t.Apart u]
variable {xid id : Nat} {s₀ s s' : GraphDb} {D E : List Nat}

/-- The undo of a closed version. -/
theorem Undoing.abortDirty (h : Undoing t u xid s₀ (id :: D) E s) :
    wp (t.abortDirty xid id) (fun _ s' => Undoing t u xid s₀ D E s')
      (fun _ _ => False) s := by
  have hid := h.here.closable id (List.mem_cons_self ..)
  have hcore := h.here.closed id (List.mem_cons_self ..)
  have hused : (t.record s id).used = true := (core_used hcore).trans hid.used
  have hbts : (t.record s id).obj.bts ≠ xid := by
    have hb : (t.record s id).obj.bts = (t.record s₀ id).obj.bts :=
      congrArg (fun r => r.obj.bts) hcore
    have hlt := hid.before
    omega
  obtain ⟨hl, hst⟩ := h.here.data id
  rw [Table.abortDirty, wp_bind, wp_getRecord, if_pos hused, if_neg hbts, wp_modify_bind, hl,
    if_pos hid.known, hst]
  simp only [wp_modify_bind, wp_modify]
  refine ⟨h.here.restore (fun i => ?_) (fun l => ?_) ?_ ?_, h.there.of_side ?_,
    fun k hD hE => ?_, ?_⟩
  · simp [Table.indexHot, restored]
  · simp [Table.indexHot, Table.findCurrent, Table.setCurrent, Table.modifySide, Table.modifyObj,
      Table.setRecord]
  · simp [Table.indexHot, Table.setCurrent, Table.modifySide, Table.modifyObj, Table.setRecord]
  · simp [Table.indexHot, Table.setCurrent, Table.modifySide, Table.modifyObj, Table.setRecord]
  · simp [Table.indexHot, Table.setCurrent, Table.modifySide, Table.modifyObj, Table.setRecord]
  · simp only [Table.indexHot, insertVersion, removeVersion, OrdMap.lookup_insert,
      OrdMap.lookup_erase]
    split
    · next hk => rw [hk, hid.indexed]
    · next hk =>
      simp only [Table.setCurrent, Table.modifyObj, Table.setRecord, Table.modifySide,
        Table.Laws.index_setSide]
      refine h.entries k (fun i hi => ?_) hE
      rcases List.mem_cons.mp hi with rfl | hi
      · exact fun heq => hk heq.symm
      · exact hD i hi
  · simpa [SameLists, Table.indexHot, Table.setCurrent, Table.modifySide, Table.modifyObj,
      Table.setRecord] using h.lists

omit [t.Laws] [u.Laws] [t.Apart u] in
theorem wp_swallow {x : DbM Unit} {P : GraphDb → Prop} {E : Err → GraphDb → Prop}
    (h : always x P s) : wp (swallow x) (fun _ => P) E s := by
  simp only [always, wp, swallow] at h ⊢
  cases hx : x s with
  | ok _ s' => simpa only [hx] using h
  | error _ s' => simpa only [hx] using h

/-- The undo of all touched records of a table. -/
theorem Undoing.abortAll [t.Lawful] (h : Undoing t u xid s₀ D E s) :
    wp (D.eraseDups.forM fun id => swallow (t.abortDirty xid id))
      (fun _ s' => Undoing t u xid s₀ [] E s' ∧ s'.txs = s.txs) (fun _ _ => False) s := by
  have hmem : ∀ id, id ∈ D.eraseDups ↔ id ∈ D := fun id => List.mem_eraseDups
  have hall : Undoing t u xid s₀ D.eraseDups E s :=
    h.mono (fun id hid => (hmem id).mpr hid) fun id hid => h.here.closable id ((hmem id).mp hid)
  refine wp_forM (P := fun l s' => Undoing t u xid s₀ l E s' ∧ s'.txs = s.txs) ?_ _ s ⟨hall, rfl⟩
  rintro i l s' ⟨hs, htx⟩
  have hkeep : Keeps SameTxs (t.abortDirty xid i) := keeps_abortDirty xid i
  refine wp_swallow (wp_mono (wp_and hs.abortDirty (hkeep.always s')) ?_ ?_)
  · exact fun _ s'' hs' => ⟨hs'.1, Eq.trans hs'.2 htx⟩
  · exact fun _ s'' hs' => hs'.1.elim

end Pair

/-! ## Collection -/

section Tables

variable {ε δ γ : Type} (t : Table ε δ γ)

/-- All versions of a record are still needed, and there are some. -/
def Table.Pinned (oldest : Nat) (s : GraphDb) (id : Nat) : Prop :=
  (t.record s id).hasDirtyVersions = true ∧
    ∀ dn ∈ (t.record s id).dirtyList, oldest < dn.elem.cts

/-- A record that a collection does not change. -/
theorem gc_pinned {t : Table ε δ γ} {oldest id : Nat} {s₀ s : GraphDb}
    (h : t.Pinned oldest s₀ id) (hc : core (t.record s id) = core (t.record s₀ id)) :
    (t.record s id).gc oldest = t.record s id ∧ (t.record s id).hasDirtyVersions = true := by
  have hl : (t.record s id).dirtyList = (t.record s₀ id).dirtyList :=
    congrArg (fun r => r.dirtyList) hc
  constructor
  · have hfil : (t.record s id).dirtyList.filter (fun dn => !(dn.elem.cts ≤ oldest)) =
        (t.record s id).dirtyList := by
      refine List.filter_eq_self.mpr fun dn hdn => ?_
      have hlt := h.2 dn (hl ▸ hdn)
      simpa using hlt
    rw [Record.gc, hfil]
  · rw [Record.hasDirtyVersions, hl]
    exact h.1

end Tables

/-- The record of an item was freed. -/
def Gone (s : GraphDb) (g : GcItem) : Prop :=
  match g.itype with
  | .gcNode => (nodeTable.record s g.oid).used = false
  | .gcRship => (rshipTable.record s g.oid).used = false

/-- The record of an item is still needed. -/
def Needed (oldest : Nat) (s : GraphDb) (g : GcItem) : Prop :=
  match g.itype with
  | .gcNode => nodeTable.Pinned oldest s g.oid
  | .gcRship => rshipTable.Pinned oldest s g.oid

/-- A collection frees nothing: it passes over needed records up to the end of
the list or up to one that is not there any more. -/
def NothingToFree (oldest : Nat) (s : GraphDb) : List GcItem → Prop
  | [] => True
  | g :: rest => Gone s g ∨ Needed oldest s g ∧ NothingToFree oldest s rest

section Collection

variable {xid : Nat} {s₀ s : GraphDb}

theorem vacuumItem_nothing {g : GcItem} (h : Undoing nodeTable rshipTable xid s₀ [] [] s)
    (hg : Needed s₀.oldestXid s₀ g) :
    wp (vacuumItem g) (fun b s' => b = false ∧ Undoing nodeTable rshipTable xid s₀ [] [] s')
      (fun _ s' => Undoing nodeTable rshipTable xid s₀ [] [] s') s := by
  obtain ⟨_, oid, ty⟩ := g
  have hold : s.oldestXid = s₀.oldestXid := h.lists.2.2
  rw [vacuumItem]
  cases ty with
  | gcNode =>
      dsimp only
      obtain ⟨hsame, hdirty⟩ := gc_pinned hg (h.here.records oid List.not_mem_nil)
      rw [wp_bind, wp_getRecord]
      split
      · rw [wp_get_bind, hold, hsame, wp_modify_bind, if_pos hdirty]
        exact ⟨rfl, h.setRecord (.inl rfl)⟩
      · exact h
  | gcRship =>
      dsimp only
      obtain ⟨hsame, hdirty⟩ := gc_pinned hg (h.there.records oid List.not_mem_nil)
      rw [wp_bind, wp_getRecord]
      split
      · rw [wp_get_bind, hold, hsame, wp_modify_bind, if_pos hdirty]
        exact ⟨rfl, (h.symm.setRecord (.inl rfl)).symm⟩
      · exact h

theorem vacuumItem_gone {g : GcItem} (h : Undoing nodeTable rshipTable xid s₀ [] [] s)
    (hg : Gone s₀ g) :
    wp (vacuumItem g) (fun _ _ => False)
      (fun _ s' => Undoing nodeTable rshipTable xid s₀ [] [] s') s := by
  obtain ⟨_, oid, ty⟩ := g
  rw [vacuumItem]
  cases ty with
  | gcNode =>
      dsimp only
      have hused := core_used (h.here.records oid List.not_mem_nil)
      rw [wp_bind, wp_getRecord, hused, if_neg (by simpa [Gone] using hg)]
      exact h
  | gcRship =>
      dsimp only
      have hused := core_used (h.there.records oid List.not_mem_nil)
      rw [wp_bind, wp_getRecord, hused, if_neg (by simpa [Gone] using hg)]
      exact h

/-- A collection that frees nothing keeps what was restored. -/
theorem vacuum_nothing (h : Undoing nodeTable rshipTable xid s₀ [] [] s)
    (hg : NothingToFree s₀.oldestXid s₀ s₀.garbage) :
    always vacuum (Undoing nodeTable rshipTable xid s₀ [] []) s := by
  have hloop : ∀ rest kept s, Undoing nodeTable rshipTable xid s₀ [] [] s →
      NothingToFree s₀.oldestXid s₀ rest →
      always (vacuumLoop kept rest) (Undoing nodeTable rshipTable xid s₀ [] []) s := by
    intro rest
    induction rest with
    | nil => exact fun _ _ h _ => h
    | cons g rest ih =>
        intro kept s h hg
        rw [always, vacuumLoop, wp_bind]
        rcases hg with hgone | ⟨hneeded, hrest⟩
        · exact wp_mono (vacuumItem_gone h hgone) (fun _ _ hf => hf.elim) fun _ _ h' => h'
        · refine wp_mono (vacuumItem_nothing h hneeded) ?_ fun _ _ h' => h'
          rintro _ s' ⟨rfl, h'⟩
          exact ih _ s' h' hrest
  rw [always, vacuum, wp_get_bind, h.lists.1]
  exact hloop _ _ s h hg

/-! ## The abort -/

theorem Table.Closable.leave {ε δ γ : Type} {t : Table ε δ γ} [t.Laws] {id x : Nat}
    (h : t.Closable xid s id) : t.Closable xid (leaveActive x s) id := by
  have hr : t.record (leaveActive x s) id = t.record s id := by simp [leaveActive]
  have hc : ∀ l, t.findCurrent l (leaveActive x s) = t.findCurrent l s := by
    simp [leaveActive, Table.findCurrent]
  constructor
  all_goals rw [hr]
  · exact h.used
  · rw [hc]
    exact h.mapped
  · exact h.unlocked
  · exact h.began
  · exact h.before
  · exact h.live
  · exact h.opened
  · exact h.last
  · exact h.known
  · exact h.starts
  · exact h.indexed

theorem Table.Undoable.leave {ε δ γ : Type} {t : Table ε δ γ} [t.Laws] {x : Nat} {D : List Nat}
    (h : t.Undoable xid s₀ D s) : t.Undoable xid (leaveActive x s₀) D (leaveActive x s) := by
  have hside : ∀ s, t.side (leaveActive x s) = t.side s := by simp [leaveActive]
  have hrec : ∀ s id, t.record (leaveActive x s) id = t.record s id := by simp [leaveActive]
  refine ⟨fun id hid => (h.closable id hid).leave, ?_, ?_, ?_, ?_, ?_⟩
  · simpa only [hrec] using h.records
  · simpa only [hrec] using h.closed
  · simpa only [hrec, Table.findCurrent, hside] using h.current
  · simpa only [hside] using h.deltas
  · intro l k
    rw [hside, hside]
    refine (h.checkpoints l k).imp (fun hk => hk) ?_
    rintro ⟨id, hc, hl, hk⟩
    exact ⟨id, hc.leave, by rw [hrec, hl], by rw [hrec, hk]⟩

/-- The transaction leaves the list of active ones, before its writes or after
them. -/
theorem Undoing.leave {x : Nat} {D E : List Nat}
    (h : Undoing nodeTable rshipTable xid s₀ D E s) :
    Undoing nodeTable rshipTable xid (leaveActive x s₀) D E (leaveActive x s) := by
  refine ⟨h.here.leave, h.there.leave, h.entries, h.lists.1, ?_, ?_⟩
  · simp only [leaveActive, h.lists.2.1]
  · simp only [leaveActive, h.lists.2.1]

/-- An abort restores what harmless writes have changed. -/
theorem abort_undoes (h : Writing xid s₀ s)
    (hg : NothingToFree (leaveActive xid s₀).oldestXid (leaveActive xid s₀) s₀.garbage) :
    always (abortTransaction xid)
      (Undoing nodeTable rshipTable xid (leaveActive xid s₀) [] []) s := by
  have hleft : Undoing nodeTable rshipTable xid (leaveActive xid s₀) (s.txs xid).dirtyNodes
      (s.txs xid).dirtyRships (leaveActive xid s) := h.undoing.leave
  rw [always, abortTransaction, wp_get_bind]
  refine wp_ite (fun hno => ?_) fun _ => ?_
  · rw [h.running] at hno
    exact absurd hno (by decide)
  · rw [wp_modify_bind, wp_get_bind]
    refine wp_seq (wp_mono hleft.abortAll (fun _ _ h => h) fun _ _ hf => hf.elim) ?_
    rintro _ s₁ ⟨h₁, htx⟩
    rw [wp_get_bind, htx]
    refine wp_seq (wp_mono h₁.symm.abortAll (fun _ _ h => h) fun _ _ hf => hf.elim) ?_
    rintro _ s₂ ⟨h₂, -⟩
    refine wp_seq (vacuum_nothing h₂.symm hg) fun _ s₃ h₃ => ?_
    exact ⟨h₃.here.of_side rfl, h₃.there.of_side rfl, h₃.entries, h₃.lists⟩

end Collection

/-! ## Reads by valid time -/

section Tables

variable {ε δ γ : Type} {t : Table ε δ γ} {xid id : Nat} {s₀ s : GraphDb}

theorem Table.Undoable.extends (h : t.Undoable xid s₀ [] s) (hix : s.index = s₀.index) :
    t.Extends s₀ s where
  records id := h.records id List.not_mem_nil
  logicalIndex := by
    funext l
    rcases h.current l with hl | ⟨_, hm, -⟩
    · exact hl
    · cases hm
  deltas := h.deltas
  index := hix

/-- Checkpoints that differ at one time only: the hints are the same or neither is
after that time. -/
theorem checkpointHint_or {sd sd₀ : Side ε δ γ} {lid k : Nat}
    (h : ∀ j, j ≠ k → (sd.checkpoints lid).lookup j = (sd₀.checkpoints lid).lookup j) (vt : Nat) :
    sd.checkpointHint lid vt = sd₀.checkpointHint lid vt ∨
      sd.checkpointHint lid vt ≤ k ∧ sd₀.checkpointHint lid vt ≤ k := by
  have hle : ∀ sd : Side ε δ γ, (∀ a v, (sd.checkpoints lid).floor vt = some (a, v) → a ≤ k) →
      sd.checkpointHint lid vt ≤ k := by
    intro sd hf
    rw [Side.checkpointHint]
    split
    · next hv => exact hf _ _ hv
    · exact Nat.zero_le k
  by_cases h₁ : ∃ a v, (sd.checkpoints lid).floor vt = some (a, v) ∧ k < a
  · obtain ⟨a, v, hf, hlt⟩ := h₁
    left
    rw [Side.checkpointHint, Side.checkpointHint, hf,
      OrdMap.floor_above (fun j hj => (h j hj).symm) hf hlt]
  · by_cases h₂ : ∃ a v, (sd₀.checkpoints lid).floor vt = some (a, v) ∧ k < a
    · obtain ⟨a, v, hf, hlt⟩ := h₂
      left
      rw [Side.checkpointHint, Side.checkpointHint, hf, OrdMap.floor_above h hf hlt]
    · right
      refine ⟨hle sd fun a v hf => ?_, hle sd₀ fun a v hf => ?_⟩
      · exact Nat.le_of_not_lt fun hlt => h₁ ⟨a, v, hf, hlt⟩
      · exact Nat.le_of_not_lt fun hlt => h₂ ⟨a, v, hf, hlt⟩

/-- The search for the times that the current version does not answer starts
from the old hint or from one that is as good. -/
theorem Table.Undoable.locateIndexed_hint (h : t.Undoable xid s₀ [] s) {lid vt : Nat}
    (hvt : vt < 2 ^ 64)
    (hhot : ∀ id, t.findCurrent lid s₀ = some id → hotAt (t.record s₀ id).obj vt = false) :
    t.locateIndexed s₀ lid vt ((t.side s).checkpointHint lid vt) =
      t.locateIndexed s₀ lid vt ((t.side s₀).checkpointHint lid vt) := by
  -- a checkpoint more is one at the start of the current version
  by_cases hsame : ∀ k ≤ vt, ((t.side s).checkpoints lid).lookup k =
      ((t.side s₀).checkpoints lid).lookup k
  · rw [Side.checkpointHint, OrdMap.floor_congr hsame, Side.checkpointHint]
  · obtain ⟨k, hk⟩ := not_forall.mp hsame
    obtain ⟨hkv, hk⟩ := Classical.not_imp.mp hk
    obtain ⟨id, hid, rfl, rfl⟩ := (h.checkpoints lid k).resolve_left hk
    have hother : ∀ j, j ≠ (t.record s₀ id).obj.data.vtStart →
        ((t.side s).checkpoints (t.record s₀ id).obj.data.logicalId).lookup j =
          ((t.side s₀).checkpoints (t.record s₀ id).obj.data.logicalId).lookup j := by
      intro j hj
      refine (h.checkpoints _ j).resolve_right ?_
      rintro ⟨i, hi, hl, rfl⟩
      have hmap := hi.mapped
      rw [hl, hid.mapped] at hmap
      cases hmap
      exact hj rfl
    have hend : vt % 2 ^ 32 = 2 ^ 32 - 1 := by
      have hno := hhot id hid.mapped
      rw [hotAt, hid.opened] at hno
      have hb := hid.began
      simp only [Bool.and_eq_false_iff, decide_eq_false_iff_not] at hno
      simp only [MAX_TIME] at hno
      omega
    have hlow : ∀ hint ≤ (t.record s₀ id).obj.data.vtStart,
        t.locateIndexed s₀ (t.record s₀ id).obj.data.logicalId vt hint =
          t.locateIndexed s₀ (t.record s₀ id).obj.data.logicalId vt
            (t.record s₀ id).obj.data.vtStart := by
      intro hint hle
      have hfit := hid.starts
      have heq : lookupAsOf s₀.index _ vt hint t.isRel = lookupAsOf s₀.index _ vt _ t.isRel :=
        lookupAsOf_hint hid.indexed hfit hle (by omega)
      simp only [Table.locateIndexed, heq]
    rcases checkpointHint_or hother vt with heq | ⟨hle, hle'⟩
    · rw [heq]
    · rw [hlow _ hle, hlow _ hle']

/-- Reads by valid time find what they found before. -/
theorem Table.Undoable.found_eq [t.Laws] (h : t.Undoable xid s₀ [] s)
    (hix : s.index = s₀.index)
    (hc : CountedBy s₀.index t.isRel (t.side s₀).deltas.length) (lid : Nat) {vt : Nat}
    (hvt : vt < 2 ^ 64) : t.found s lid vt = t.found s₀ lid vt := by
  have hex := h.extends hix
  have hcur : t.findCurrent lid s = t.findCurrent lid s₀ := congrFun hex.logicalIndex lid
  rw [Temporal.found_eq, Temporal.found_eq, Table.locate, Table.locate, hcur]
  cases hf : t.findCurrent lid s₀ with
  | none =>
      simp only
      rw [hex.locateIndexed hc]
      refine h.locateIndexed_hint hvt fun id hid => ?_
      rw [hf] at hid
      cases hid
  | some head =>
      simp only
      rw [core_used (hex.records head), core_hotAt (hex.records head), core_data (hex.records head)]
      split
      · split
        · rfl
        · next hno =>
          rw [hex.locateIndexed hc]
          refine h.locateIndexed_hint hvt fun id hid => ?_
          rw [hf] at hid
          cases hid
          simpa using hno
      · rfl

end Tables

/-! ## Whole transactions -/

/-- The as-of answers, the maps of current versions and the hot records of `s₀`
are those of `s`, and no history record of `s₀` is gone. -/
structure Restored (s₀ s : GraphDb) : Prop where
  nodeAnswers : ∀ lid vt, vt < 2 ^ 64 → nodeTable.found s lid vt = nodeTable.found s₀ lid vt
  rshipAnswers : ∀ lid vt, vt < 2 ^ 64 → rshipTable.found s lid vt = rshipTable.found s₀ lid vt
  nodeHistory : s₀.nodes.deltas <+: s.nodes.deltas
  rshipHistory : s₀.rships.deltas <+: s.rships.deltas
  nodeIndex : ∀ lid, nodeTable.findCurrent lid s = nodeTable.findCurrent lid s₀
  rshipIndex : ∀ lid, rshipTable.findCurrent lid s = rshipTable.findCurrent lid s₀
  nodeRecords : ∀ id, core (nodeTable.record s id) = core (nodeTable.record s₀ id)
  rshipRecords : ∀ id, core (rshipTable.record s id) = core (rshipTable.record s₀ id)

theorem Undoing.restored {xid x : Nat} {s₀ s : GraphDb} (hc : Counted s₀)
    (h : Undoing nodeTable rshipTable xid (leaveActive x s₀) [] [] s) : Restored s₀ s := by
  have hix : s.index = s₀.index := OrdMap.ext fun k =>
    h.entries k (fun _ hid => by cases hid) fun _ hid => by cases hid
  have hn := h.here.extends hix
  have hr := h.there.extends hix
  -- the list of active transactions does not matter to a read
  have hn₀ : nodeTable.Undoable xid s₀ [] (leaveActive x s₀) := Table.Undoable.refl.of_side rfl
  have hr₀ : rshipTable.Undoable xid s₀ [] (leaveActive x s₀) := Table.Undoable.refl.of_side rfl
  obtain ⟨newNodes, hnewNodes⟩ := hn.deltas
  obtain ⟨newRships, hnewRships⟩ := hr.deltas
  refine ⟨fun lid vt hvt => ?_, fun lid vt hvt => ?_, ⟨newNodes, hnewNodes.symm⟩,
    ⟨newRships, hnewRships.symm⟩, fun lid => congrFun hn.logicalIndex lid,
    fun lid => congrFun hr.logicalIndex lid, hn.records, hr.records⟩
  · rw [h.here.found_eq hix hc.nodes lid hvt, hn₀.found_eq rfl hc.nodes lid hvt]
  · rw [h.there.found_eq hix hc.rships lid hvt, hr₀.found_eq rfl hc.rships lid hvt]

/-- A transaction each of whose writes closes an open version that was committed
before, or is refused before it has changed anything, leaves nothing behind when
it is aborted, provided that the collection of the abort frees nothing. -/
theorem abort_restores_closings (n₀ : Versioned NodeLinks) (as : List Step) (xid : Nat)
    (ws : List Write) (s₀ : GraphDb)
    (hbegin : (Step.begin xid).exec ((GraphDb.initial n₀).run as) = .ok () s₀)
    (hfree : NothingToFree (leaveActive xid s₀).oldestXid (leaveActive xid s₀) s₀.garbage)
    (hws : AllHarmless xid s₀ ws s₀) :
    Restored s₀ (s₀.run (ws.map (.write xid) ++ [.abort xid])) := by
  obtain ⟨-, hlt, -, hs₀⟩ := begin_ok hbegin
  have htx : s₀.txs xid = ⟨true, [], []⟩ := by simp [hs₀, GraphDb.begun, GraphDb.modifyTx]
  have hstart : Writing xid s₀ s₀ :=
    .of_undoing ⟨.refl, .refl, fun _ _ _ => rfl, rfl, rfl, rfl⟩ htx
  have hwritten : Writing xid s₀ (s₀.run (ws.map (.write xid))) := hws.writing hstart hlt
  have hcount : Counted s₀ := by
    have hrun := counted_run n₀ as
    rw [hs₀]
    exact ⟨hrun.nodes, hrun.rships⟩
  have hend : Undoing nodeTable rshipTable xid (leaveActive xid s₀) [] []
      ((s₀.run (ws.map (.write xid))).step (.abort xid)) := by
    refine step_of_always (always_bind (abort_undoes hwritten hfree) fun _ s' hs' => ?_)
    exact hs'
  rw [GraphDb.run, List.foldl_append]
  exact hend.restored hcount

/-- A closing of the only version of a node is undone. -/
theorem abort_restores_closings_node :
    let n₀ : Versioned NodeLinks := ⟨0, 0, 0, 0, 0, 0, 0, 0, 0, ⟨0, 0⟩⟩
    let s₀ := (GraphDb.initial n₀).run [.begin 1,
      .write 1 (.addNode ⟨1, 1⟩ 5 Properties.none 10 MAX_TIME 7), .commit 1, .begin 2]
    Restored s₀ (s₀.run ([Write.closeNode 1 20].map (.write 2) ++ [.abort 2])) := by
  intro n₀ s₀
  refine abort_restores_closings n₀ [.begin 1,
    .write 1 (.addNode ⟨1, 1⟩ 5 Properties.none 10 MAX_TIME 7), .commit 1] 2
    [.closeNode 1 20] s₀ rfl
    ?_ ⟨.inl ?_, trivial⟩
  · have hnone : s₀.garbage = [] := by decide +kernel
    rw [hnone]
    exact trivial
  · constructor <;> decide +kernel

/-- A node is updated and the update is aborted. The abort frees the slot of the
version that was current before and maps the logical id to the new one, which
was never committed. -/
theorem aborted_update_loses_node :
    let n₀ : Versioned NodeLinks := ⟨0, 0, 0, 0, 0, 0, 0, 0, 0, ⟨0, 0⟩⟩
    let s₀ := (GraphDb.initial n₀).run [.begin 1,
      .write 1 (.addNode ⟨1, 1⟩ 5 Properties.none 10 MAX_TIME 7), .commit 1, .begin 2]
    let s := s₀.run [.write 2 (.updateNode 1 ⟨2, 2⟩ Properties.none 20), .abort 2]
    nodeTable.found s₀ 7 15 = .ok 1 ∧ nodeTable.found s 7 15 = .error .unknownId ∧
      nodeTable.findCurrent 7 s₀ = some 1 ∧ nodeTable.findCurrent 7 s = some 2 ∧
      ¬ Restored s₀ s := by
  intro n₀ s₀ s
  have hbefore : nodeTable.found s₀ 7 15 = .ok 1 := by decide +kernel
  have hafter : nodeTable.found s 7 15 = .error .unknownId := by decide +kernel
  refine ⟨hbefore, hafter, by decide +kernel, by decide +kernel, fun h => ?_⟩
  have hsame := h.nodeAnswers 7 15 (by decide)
  rw [hbefore, hafter] at hsame
  cases hsame

end Poseidon.Temporal
