import Poseidon.Proofs.Archive
import Poseidon.Proofs.AsOf

/-!
# What an abort can undo

An abort knows the records that its transaction has touched, and opens each
of them again: no lock, no end, no successor, the current version of its
logical id, hot in the index. That is what a record was before exactly if
all the transaction did to it was to close it. What a transaction may have
changed when all its writes are of this kind is `Undoable`; the abort goes
through the touched records one by one and restores each.
-/

namespace Poseidon.Temporal

open Wp

/-! ## The store before and after -/

section Tables

variable {ε δ γ : Type} (t : Table ε δ γ)

/-- The version in slot `id` is current and has no end and no successor, it
was committed before `xid` began, and it is in the index. -/
structure Table.Closable (xid : Nat) (s : GraphDb) (id : Nat) : Prop where
  used : (t.record s id).used = true
  mapped : t.findCurrent (t.record s id).obj.data.logicalId s = some id
  unlocked : (t.record s id).obj.txnId = 0
  began : 0 < (t.record s id).obj.bts
  before : (t.record s id).obj.bts < xid
  live : (t.record s id).obj.cts = INF
  opened : (t.record s id).obj.data.vtEnd = MAX_TIME
  last : (t.record s id).obj.data.nextVersion = UNKNOWN
  known : (t.record s id).obj.data.logicalId ≠ UNKNOWN
  starts : (t.record s id).obj.data.vtStart < 2 ^ 32
  indexed : s.index.lookup (tiEncodeKey (t.record s id).obj.data.logicalId
    (t.record s id).obj.data.vtStart t.isRel) = some (tiEncodeVal .hot id)

/-- A record without the end of its valid time. -/
def reopened (r : Record (Versioned ε)) : Record (Versioned ε) :=
  { r with obj := { r.obj with data := { r.obj.data with vtEnd := MAX_TIME } } }

/-- The index key of the version in a slot. -/
def Table.keyOf (s : GraphDb) (id : Nat) : Nat :=
  tiEncodeKey (t.record s id).obj.data.logicalId (t.record s id).obj.data.vtStart t.isRel

/-- What closing the versions in the slots `D` has changed of a side. -/
structure Table.Undoable (xid : Nat) (s₀ : GraphDb) (D : List Nat) (s : GraphDb) : Prop where
  closable : ∀ id ∈ D, t.Closable xid s₀ id
  records : ∀ id, id ∉ D → core (t.record s id) = core (t.record s₀ id)
  closed : ∀ id ∈ D, core (reopened (t.record s id)) = core (t.record s₀ id)
  current : ∀ l, t.findCurrent l s = t.findCurrent l s₀ ∨
    ∃ id ∈ D, (t.record s₀ id).obj.data.logicalId = l
  deltas : ∃ new, (t.side s).deltas = (t.side s₀).deltas ++ new
  checkpoints : ∀ l k, ((t.side s).checkpoints l).lookup k = ((t.side s₀).checkpoints l).lookup k ∨
    ∃ id, t.Closable xid s₀ id ∧ (t.record s₀ id).obj.data.logicalId = l ∧
      (t.record s₀ id).obj.data.vtStart = k

variable {t} {xid id : Nat} {s₀ s s' : GraphDb} {D D' : List Nat}

theorem Table.Undoable.refl : t.Undoable xid s₀ [] s₀ where
  closable _ h := by cases h
  records _ _ := rfl
  closed _ h := by cases h
  current _ := .inl rfl
  deltas := ⟨[], (List.append_nil _).symm⟩
  checkpoints _ _ := .inl rfl

/-- The core of a record that can be closed knows no end. -/
theorem Table.Closable.reopened_eq (h : t.Closable xid s id) :
    reopened (t.record s id) = t.record s id := by
  rw [reopened, ← h.opened]

/-- A version that can be closed is as it was but for its end. -/
theorem Table.Undoable.of_closable (h : t.Undoable xid s₀ D s) (hc : t.Closable xid s₀ id) :
    core (reopened (t.record s id)) = core (t.record s₀ id) := by
  by_cases hm : id ∈ D
  · exact h.closed id hm
  · have hr := congrArg reopened (h.records id hm)
    change core (reopened _) = core (reopened _) at hr
    rw [hr, hc.reopened_eq]

/-- More versions may be closed. -/
theorem Table.Undoable.mono (h : t.Undoable xid s₀ D s) (hD : ∀ id ∈ D, id ∈ D')
    (hc : ∀ id ∈ D', t.Closable xid s₀ id) : t.Undoable xid s₀ D' s where
  closable := hc
  records id hid := h.records id fun hm => hid (hD id hm)
  closed id hid := h.of_closable (hc id hid)
  current l := (h.current l).imp (fun h => h) fun ⟨id, hm, hl⟩ => ⟨id, hD id hm, hl⟩
  deltas := h.deltas
  checkpoints := h.checkpoints

/-- Only the records, the map of current versions and a growing history
matter. -/
theorem Table.Undoable.of_parts (h : t.Undoable xid s₀ D s)
    (hv : (t.side s').vec = (t.side s).vec)
    (hl : (t.side s').logicalIndex = (t.side s).logicalIndex)
    (hd : ∃ new, (t.side s').deltas = (t.side s).deltas ++ new)
    (hc : ∀ l k, ((t.side s').checkpoints l).lookup k = ((t.side s).checkpoints l).lookup k ∨
      ∃ id, t.Closable xid s₀ id ∧ (t.record s₀ id).obj.data.logicalId = l ∧
        (t.record s₀ id).obj.data.vtStart = k) : t.Undoable xid s₀ D s' where
  closable := h.closable
  records id hid := by
    rw [Table.record, hv]
    exact h.records id hid
  closed id hid := by
    rw [Table.record, hv]
    exact h.closed id hid
  current l := by
    rw [Table.findCurrent, hl]
    exact h.current l
  deltas := by
    obtain ⟨new, hnew⟩ := h.deltas
    obtain ⟨new', hnew'⟩ := hd
    exact ⟨new ++ new', by rw [hnew', hnew, List.append_assoc]⟩
  checkpoints l k := by
    rcases hc l k with hk | hk
    · rw [hk]
      exact h.checkpoints l k
    · exact .inr hk

theorem Table.Undoable.of_side (h : t.Undoable xid s₀ D s) (hs : t.side s' = t.side s) :
    t.Undoable xid s₀ D s' :=
  h.of_parts (by rw [hs]) (by rw [hs]) ⟨[], by rw [hs, List.append_nil]⟩
    fun _ _ => .inl (by rw [hs])

/-- The data of a record that may have been closed. -/
theorem Table.Undoable.data (h : t.Undoable xid s₀ D s) (id : Nat) :
    (t.record s id).obj.data.logicalId = (t.record s₀ id).obj.data.logicalId ∧
      (t.record s id).obj.data.vtStart = (t.record s₀ id).obj.data.vtStart := by
  by_cases hid : id ∈ D
  · have hd : (reopened (t.record s id)).obj.data = (t.record s₀ id).obj.data :=
      core_data (h.closed id hid)
    rw [← hd]
    exact ⟨rfl, rfl⟩
  · rw [core_data (h.records id hid)]
    exact ⟨rfl, rfl⟩

variable [t.Laws]

/-- Changes that the core does not show, or that the end of a closed version
makes up for. -/
theorem Table.Undoable.setRecord (h : t.Undoable xid s₀ D s) {r : Record (Versioned ε)}
    (hr : core r = core (t.record s id) ∨
      id ∈ D ∧ core (reopened r) = core (reopened (t.record s id))) :
    t.Undoable xid s₀ D (t.setRecord id r s) where
  closable := h.closable
  records i hi := by
    rw [record_setRecord]
    split
    · next heq =>
      subst heq
      rcases hr with hr | ⟨hm, -⟩
      · exact hr.trans (h.records i hi)
      · exact absurd hm hi
    · exact h.records i hi
  closed i hi := by
    rw [record_setRecord]
    split
    · next heq =>
      subst heq
      rcases hr with hr | ⟨-, hr⟩
      · exact (congrArg reopened hr).trans (h.closed i hi)
      · exact hr.trans (h.closed i hi)
    · exact h.closed i hi
  current l := by
    rw [findCurrent_setRecord]
    exact h.current l
  deltas := by
    simpa [Table.setRecord, Table.modifySide] using h.deltas
  checkpoints := by
    simpa [Table.setRecord, Table.modifySide] using h.checkpoints

/-- The current version of a closed version's logical id. -/
theorem Table.Undoable.logicalIndex (h : t.Undoable xid s₀ D s) (hid : id ∈ D)
    (f : Nat → Option Nat)
    (hf : ∀ l, l ≠ (t.record s₀ id).obj.data.logicalId → f l = (t.side s).logicalIndex l) :
    t.Undoable xid s₀ D (t.modifySide (fun sd => { sd with logicalIndex := f }) s) where
  closable := h.closable
  records i hi := by
    simpa [Table.modifySide, Table.record] using h.records i hi
  closed i hi := by
    simpa [Table.modifySide, Table.record] using h.closed i hi
  current l := by
    by_cases hl : l = (t.record s₀ id).obj.data.logicalId
    · exact .inr ⟨id, hid, hl.symm⟩
    · refine (h.current l).imp (fun hc => ?_) fun hc => hc
      rw [← hc]
      simpa [Table.modifySide, Table.findCurrent] using hf l hl
  deltas := by
    simpa [Table.modifySide] using h.deltas
  checkpoints := by
    simpa [Table.modifySide] using h.checkpoints

/-- An archival of a closed version. -/
theorem Table.Undoable.archived (h : t.Undoable xid s₀ D s) (hid : id ∈ D)
    {a : ArchiveArgs δ γ} (hl : a.lid = (t.record s₀ id).obj.data.logicalId)
    (hs : a.vtStart = (t.record s₀ id).obj.data.vtStart) (p : PropertyList) (base delta : Nat) :
    t.Undoable xid s₀ D (t.archived a p base delta s) := by
  refine archived_cases t a p base delta s ?_ ?_
  · refine h.of_parts ?_ ?_
      ⟨[a.record base delta (((t.side s).lastDelta a.lid).getD UNKNOWN)], ?_⟩ fun l k => .inl ?_
    · simp [Table.indexHist, Table.addHistory, Table.setLastDelta, Table.modifySide]
    · simp [Table.indexHist, Table.addHistory, Table.setLastDelta, Table.modifySide]
    · simp [Table.indexHist, Table.addHistory, Table.setLastDelta, Table.modifySide]
    · simp [Table.indexHist, Table.addHistory, Table.setLastDelta, Table.modifySide]
  · intro s' c h'
    refine h'.of_parts ?_ ?_ ⟨[], ?_⟩ fun l k => ?_
    · simp [Table.addCheckpoint, Table.modifySide]
    · simp [Table.addCheckpoint, Table.modifySide]
    · simp [Table.addCheckpoint, Table.modifySide]
    · simp only [Table.addCheckpoint, Table.modifySide, Table.Laws.side_setSide]
      split
      · next hl' =>
        rw [OrdMap.lookup_insert]
        split
        · next hk => exact .inr ⟨id, h.closable id hid, by rw [hl', hl], by rw [hk, hs]⟩
        · exact .inl (by rw [hl'])
      · exact .inl rfl

end Tables

/-! ## Both tables -/

section Pair

variable {ε δ γ ε' δ' γ' : Type} (t : Table ε δ γ) (u : Table ε' δ' γ')

/-- The lists of garbage and of active transactions are the same. -/
def SameLists (s s' : GraphDb) : Prop :=
  s'.garbage = s.garbage ∧ s'.activeTx = s.activeTx ∧ s'.oldestXid = s.oldestXid

/-- The store after the versions in the slots `D` of one table and `E` of the
other were closed. -/
structure Undoing (xid : Nat) (s₀ : GraphDb) (D E : List Nat) (s : GraphDb) : Prop where
  here : t.Undoable xid s₀ D s
  there : u.Undoable xid s₀ E s
  entries : ∀ k, (∀ id ∈ D, t.keyOf s₀ id ≠ k) → (∀ id ∈ E, u.keyOf s₀ id ≠ k) →
    s.index.lookup k = s₀.index.lookup k
  lists : SameLists s₀ s

variable {t u} {xid id : Nat} {s₀ s s' : GraphDb} {D D' E : List Nat}

theorem Undoing.symm (h : Undoing t u xid s₀ D E s) : Undoing u t xid s₀ E D s :=
  ⟨h.there, h.here, fun k hE hD => h.entries k hD hE, h.lists⟩

theorem Undoing.mono (h : Undoing t u xid s₀ D E s) (hD : ∀ id ∈ D, id ∈ D')
    (hc : ∀ id ∈ D', t.Closable xid s₀ id) : Undoing t u xid s₀ D' E s :=
  ⟨h.here.mono hD hc, h.there, fun k hk => h.entries k fun id hid => hk id (hD id hid), h.lists⟩

variable [t.Laws] [t.Apart u]

theorem Undoing.setRecord (h : Undoing t u xid s₀ D E s) {r : Record (Versioned ε)}
    (hr : core r = core (t.record s id) ∨
      id ∈ D ∧ core (reopened r) = core (reopened (t.record s id))) :
    Undoing t u xid s₀ D E (t.setRecord id r s) where
  here := h.here.setRecord hr
  there := h.there.of_side (by simp [Table.setRecord, Table.modifySide])
  entries := by simpa [Table.setRecord, Table.modifySide] using h.entries
  lists := by simpa [SameLists, Table.setRecord, Table.modifySide] using h.lists

theorem Undoing.addDirty (h : Undoing t u xid s₀ D E s) :
    Undoing t u xid s₀ D E (t.addDirty xid id s) where
  here := h.here.of_side (by simp)
  there := h.there.of_side (by simp)
  entries := by simpa using h.entries
  lists := by simpa [SameLists] using h.lists

theorem Undoing.eraseCurrent (h : Undoing t u xid s₀ D E s) (hid : id ∈ D) :
    Undoing t u xid s₀ D E (t.eraseCurrent (t.record s₀ id).obj.data.logicalId s) where
  here := h.here.logicalIndex hid _ fun l hl => if_neg hl
  there := h.there.of_side (by simp [Table.eraseCurrent, Table.modifySide])
  entries := by simpa [Table.eraseCurrent, Table.modifySide] using h.entries
  lists := by simpa [SameLists, Table.eraseCurrent, Table.modifySide] using h.lists

omit [t.Laws] [t.Apart u] in
/-- The change of the entry of a closed version. -/
theorem Undoing.index (h : Undoing t u xid s₀ D E s) (hid : id ∈ D) {ix : OrdMap Nat Nat}
    (hx : ∀ k, k ≠ t.keyOf s₀ id → ix.lookup k = s.index.lookup k)
    (hh : t.Undoable xid s₀ D s') (hu : u.side s' = u.side s) (hi : s'.index = ix)
    (hg : SameLists s s') : Undoing t u xid s₀ D E s' where
  here := hh
  there := h.there.of_side hu
  entries k hD hE := by
    rw [hi, hx k (hD id hid).symm]
    exact h.entries k hD hE
  lists := ⟨hg.1.trans h.lists.1, hg.2.1.trans h.lists.2.1, hg.2.2.trans h.lists.2.2⟩

theorem Undoing.archived [u.Laws] (h : Undoing t u xid s₀ D E s) (hid : id ∈ D)
    {a : ArchiveArgs δ γ} (hl : a.lid = (t.record s₀ id).obj.data.logicalId)
    (hs : a.vtStart = (t.record s₀ id).obj.data.vtStart) (p : PropertyList) (base delta : Nat) :
    Undoing t u xid s₀ D E (t.archived a p base delta s) := by
  refine h.index hid ?_ (h.here.archived hid hl hs p base delta)
    (apart_archived t a p base delta s u) (index_archived t a p base delta s)
    ⟨(lists_archived t a p base delta s).1, (lists_archived t a p base delta s).2.2.2⟩
  intro k hk
  rw [insertVersion, removeVersion, OrdMap.lookup_insert, OrdMap.lookup_erase, hl, hs]
  rw [Table.keyOf] at hk
  rw [if_neg hk, if_neg hk]

/-- An archival of a closed version that may fail. -/
theorem Undoing.archiveWith [u.Laws] (h : Undoing t u xid s₀ D E s) (hid : id ∈ D)
    {a : ArchiveArgs δ γ} (hl : a.lid = (t.record s₀ id).obj.data.logicalId)
    (hs : a.vtStart = (t.record s₀ id).obj.data.vtStart) :
    always (t.archiveWith a) (Undoing t u xid s₀ D E) s := by
  have hcount : Undoing t u xid s₀ D E (countUpdate a.lid s) :=
    ⟨h.here.of_side (by simp), h.there.of_side (by simp), h.entries, h.lists⟩
  refine wp_mono wp_archiveWith ?_ ?_
  · rintro _ _ ⟨items, base, delta, -, -, rfl⟩
    exact h.archived hid hl hs _ base delta
  · rintro _ _ ⟨rfl | ⟨p, rfl⟩, -⟩
    · exact hcount
    · refine ⟨hcount.here.of_parts ?_ ?_ ⟨[], ?_⟩ fun _ _ => .inl ?_,
        hcount.there.of_side ?_, ?_, ?_⟩
      · simp
      · simp
      · simp
      · simp
      · simp [Table.setProps, Table.modifySide]
      · simpa [Table.setProps, Table.modifySide] using hcount.entries
      · simpa [SameLists, Table.setProps, Table.modifySide] using hcount.lists

end Pair

end Poseidon.Temporal
