import Poseidon.Proofs.Tables
import Poseidon.Proofs.VersionIndex

/-!
# Reads by valid time as functions of the store

A read by valid time prepares the volatile parts of the hot records it looks
at and does nothing else to the store. What it returns can therefore be
computed from the store it starts in: `locate` is the search without the
preparing, and `locate_of_read` says that the read returns what `locate`
says. The read timestamp and the volatile part of a record do not matter to
it; what does matter is the `core` of the record.
-/

namespace Poseidon.Temporal

open Wp

/-- A record without its read timestamp and its volatile part. -/
def core {α : Type} (r : Record α) : Record α :=
  { r with obj := { r.obj with rts := 0, prepared := false } }

section Tables

variable {ε δ γ : Type} (t : Table ε δ γ)

/-- The same for all reads by valid time. -/
structure Table.Similar (s s' : GraphDb) : Prop where
  records : ∀ id, core (t.record s' id) = core (t.record s id)
  logicalIndex : (t.side s').logicalIndex = (t.side s).logicalIndex
  deltas : (t.side s').deltas = (t.side s).deltas
  checkpoints : (t.side s').checkpoints = (t.side s).checkpoints
  index : s'.index = s.index

/-- The history record of a payload, if it is valid at `vt`. -/
def Table.locateHist (s : GraphDb) (payload vt : Nat) : Except Err Nat :=
  match (t.side s).getDelta payload with
  | .error e => .error e
  | .ok d =>
      if d.vtStart ≤ vt ∧ vt < d.vtEnd then .ok (encodeHistoryId payload) else .error .unknownId

/-- The search below a hot entry. -/
def Table.locateBelow (s : GraphDb) (lid vt below : Nat) : Except Err Nat :=
  match lookupAsOf s.index lid below 0 t.isRel with
  | none => .error .unknownId
  | some (ty, payload) =>
      if ty = PtrType.hist.code then t.locateHist s payload vt
      else if (t.record s payload).used then
        if hotAt (t.record s payload).obj vt then .ok payload else .error .unknownId
      else .error .unknownId

/-- The search in the index. -/
def Table.locateIndexed (s : GraphDb) (lid vt hint : Nat) : Except Err Nat :=
  match lookupAsOf s.index lid vt hint t.isRel with
  | none => .error .unknownId
  | some (ty, payload) =>
      if ty = PtrType.hot.code then
        if (t.record s payload).used then
          if hotAt (t.record s payload).obj vt then .ok payload
          else t.locateBelow s lid vt
            (((t.record s payload).obj.data.vtStart + (2 ^ 64 - 1)) % 2 ^ 64)
        else .error .unknownId
      else if ty = PtrType.hist.code then t.locateHist s payload vt
      else .error .unknownId

/-- A read by valid time without its effects. -/
def Table.locate (s : GraphDb) (lid vt : Nat) : Except Err Nat :=
  match t.findCurrent lid s with
  | some head =>
      if (t.record s head).used then
        if hotAt (t.record s head).obj vt then .ok (t.record s head).obj.data.id
        else t.locateIndexed s lid vt ((t.side s).checkpointHint lid vt)
      else .error .unknownId
  | none => t.locateIndexed s lid vt ((t.side s).checkpointHint lid vt)

variable {t}

theorem Table.Similar.refl (s : GraphDb) : t.Similar s s := ⟨fun _ => rfl, rfl, rfl, rfl, rfl⟩

theorem Table.Similar.trans {s s' s'' : GraphDb} (h : t.Similar s s') (h' : t.Similar s' s'') :
    t.Similar s s'' where
  records id := (h'.records id).trans (h.records id)
  logicalIndex := h'.logicalIndex.trans h.logicalIndex
  deltas := h'.deltas.trans h.deltas
  checkpoints := h'.checkpoints.trans h.checkpoints
  index := h'.index.trans h.index

/-! ## What the core of a record decides -/

theorem core_used {α : Type} {r r' : Record α} (h : core r' = core r) : r'.used = r.used :=
  congrArg (fun r => r.used) h

theorem core_data {α : Type} {r r' : Record α} (h : core r' = core r) :
    r'.obj.data = r.obj.data := congrArg (fun r => r.obj.data) h

theorem core_hotAt {r r' : Record (Versioned ε)} (h : core r' = core r) (vt : Nat) :
    hotAt r'.obj vt = hotAt r.obj vt := by
  have hb : r'.obj.bts = r.obj.bts := congrArg (fun r => r.obj.bts) h
  rw [hotAt, hotAt, hb, core_data h]

section Laws

variable {s s' : GraphDb}

theorem Table.Similar.locateHist (h : t.Similar s s') (payload vt : Nat) :
    t.locateHist s' payload vt = t.locateHist s payload vt := by
  simp only [Table.locateHist, Side.getDelta, h.deltas]

theorem Table.Similar.locateBelow (h : t.Similar s s') (lid vt below : Nat) :
    t.locateBelow s' lid vt below = t.locateBelow s lid vt below := by
  simp only [Table.locateBelow, h.index, h.locateHist, core_used (h.records _),
    core_hotAt (h.records _)]

theorem Table.Similar.locateIndexed (h : t.Similar s s') (lid vt hint : Nat) :
    t.locateIndexed s' lid vt hint = t.locateIndexed s lid vt hint := by
  simp only [Table.locateIndexed, h.index, h.locateHist, h.locateBelow, core_used (h.records _),
    core_hotAt (h.records _), core_data (h.records _)]

theorem Table.Similar.versionOf (h : t.Similar s s') (id : Nat) :
    t.versionOf s' id = t.versionOf s id := by
  simp only [Table.versionOf, Side.getDelta, h.deltas, core_data (h.records _)]

/-! ## The read and the search -/

variable [t.Laws]

/-- Preparing a record is not seen. -/
theorem similar_setRecord {id : Nat} {r : Record (Versioned ε)}
    (hr : core r = core (t.record s id)) : t.Similar s (t.setRecord id r s) where
  records i := by
    rw [record_setRecord]
    split
    · next h => rw [h, hr]
    · rfl
  logicalIndex := by simp [Table.setRecord, Table.modifySide]
  deltas := by simp [Table.setRecord, Table.modifySide]
  checkpoints := by simp [Table.setRecord, Table.modifySide]
  index := by simp [Table.setRecord, Table.modifySide]

/-- `x` ends as `r` says, in a store like the first. -/
abbrev Table.Reads {β : Type} (t : Table ε δ γ) (x : DbM β) (r : Except Err β) (s : GraphDb) :
    Prop :=
  wp x (fun b s' => r = .ok b ∧ t.Similar s s') (fun e s' => r = .error e ∧ t.Similar s s') s

variable (t)

theorem reads_prepareHot (id : Nat) :
    wp (t.prepareHot id)
      (fun o s' => (t.record s id).used = true ∧ o = (t.record s id).obj.prepare ∧ t.Similar s s')
      (fun e s' => (t.record s id).used = false ∧ e = .unknownId ∧ t.Similar s s') s := by
  rw [Table.prepareHot, wp_bind, wp_getRecord]
  split
  · next h => exact ⟨h, rfl, similar_setRecord rfl⟩
  · next h => exact ⟨by simpa using h, rfl, .refl s⟩

omit [t.Laws] in
theorem reads_histAt (payload vt : Nat) :
    t.Reads (t.histAt payload vt) (t.locateHist s payload vt) s := by
  simp only [Table.Reads, Table.histAt, wp_bind, wp_get, wp_ofExcept, Table.locateHist]
  cases (t.side s).getDelta payload with
  | error e => exact ⟨rfl, .refl s⟩
  | ok d =>
      simp only
      split
      · exact ⟨rfl, .refl s⟩
      · exact ⟨rfl, .refl s⟩

theorem reads_fallbackAt (lid vt below : Nat) :
    t.Reads (t.fallbackAt lid vt below) (t.locateBelow s lid vt below) s := by
  simp only [Table.Reads, Table.fallbackAt, wp_bind, wp_get, Table.locateBelow]
  cases lookupAsOf s.index lid below 0 t.isRel with
  | none => exact ⟨rfl, .refl s⟩
  | some e =>
      obtain ⟨ty, payload⟩ := e
      simp only
      split
      · exact reads_histAt t payload vt
      · rw [wp_bind]
        refine wp_mono (reads_prepareHot t payload) ?_ ?_
        · rintro o s' ⟨hu, rfl, hs⟩
          rw [if_pos hu]
          change wp (if hotAt (t.record s payload).obj vt then _ else _) _ _ s'
          split
          · exact ⟨rfl, hs⟩
          · exact ⟨rfl, hs⟩
        · rintro e s' ⟨hu, rfl, hs⟩
          rw [if_neg (by simp [hu])]
          exact ⟨rfl, hs⟩

theorem reads_indexAt (lid vt : Nat) :
    t.Reads (t.indexAt lid vt)
      (t.locateIndexed s lid vt ((t.side s).checkpointHint lid vt)) s := by
  simp only [Table.Reads, Table.indexAt, wp_bind, wp_get, Table.locateIndexed]
  cases lookupAsOf s.index lid vt ((t.side s).checkpointHint lid vt) t.isRel with
  | none => exact ⟨rfl, .refl s⟩
  | some e =>
      obtain ⟨ty, payload⟩ := e
      simp only
      split
      · rw [wp_bind]
        refine wp_mono (reads_prepareHot t payload) ?_ ?_
        · rintro o s' ⟨hu, rfl, hs⟩
          rw [if_pos hu]
          change wp (if hotAt (t.record s payload).obj vt then _ else _) _ _ s'
          split
          · exact ⟨rfl, hs⟩
          · refine wp_mono (reads_fallbackAt t lid vt _) ?_ ?_
            · rintro i s'' ⟨hl, hs'⟩
              rw [hs.locateBelow] at hl
              exact ⟨hl, hs.trans hs'⟩
            · rintro e s'' ⟨hl, hs'⟩
              rw [hs.locateBelow] at hl
              exact ⟨hl, hs.trans hs'⟩
        · rintro e s' ⟨hu, rfl, hs⟩
          rw [if_neg (by simp [hu])]
          exact ⟨rfl, hs⟩
      · split
        · exact reads_histAt t payload vt
        · exact ⟨rfl, .refl s⟩

/-- A read by valid time returns what the search says. -/
theorem locate_of_read (lid vt : Nat) : t.Reads (t.getAtVt lid vt) (t.locate s lid vt) s := by
  simp only [Table.Reads, Table.getAtVt, wp_bind, wp_get, Table.locate]
  cases t.findCurrent lid s with
  | none => exact reads_indexAt t lid vt
  | some head =>
      simp only
      rw [wp_bind]
      refine wp_mono (reads_prepareHot t head) ?_ ?_
      · rintro o s' ⟨hu, rfl, hs⟩
        rw [if_pos hu]
        change wp (if hotAt (t.record s head).obj vt then _ else _) _ _ s'
        split
        · exact ⟨rfl, hs⟩
        · have hhint : (t.side s').checkpointHint lid vt = (t.side s).checkpointHint lid vt := by
            simp only [Side.checkpointHint, hs.checkpoints]
          refine wp_mono (reads_indexAt t lid vt) ?_ ?_
          · rintro i s'' ⟨hl, hs'⟩
            rw [hhint, hs.locateIndexed] at hl
            exact ⟨hl, hs.trans hs'⟩
          · rintro e s'' ⟨hl, hs'⟩
            rw [hhint, hs.locateIndexed] at hl
            exact ⟨hl, hs.trans hs'⟩
      · rintro e s' ⟨hu, rfl, hs⟩
        rw [if_neg (by simp [hu])]
        exact ⟨rfl, hs⟩

/-- The id a read finds. -/
theorem found_eq (lid vt : Nat) : t.found s lid vt = t.locate s lid vt := by
  have h : t.Reads (t.getAtVt lid vt) (t.locate s lid vt) s := locate_of_read t lid vt
  simp only [Table.Reads, wp] at h
  simp only [Table.found]
  cases hx : t.getAtVt lid vt s with
  | ok id s' =>
      simp only [hx] at h
      exact h.1.symm
  | error e s' =>
      simp only [hx] at h
      exact h.1.symm

/-- The version a read finds. -/
theorem answer_eq (lid vt : Nat) :
    t.answer s lid vt = t.locate s lid vt >>= fun id => t.versionOf s id := by
  have h : t.Reads (t.getAtVt lid vt) (t.locate s lid vt) s := locate_of_read t lid vt
  simp only [Table.Reads, wp] at h
  simp only [Table.answer]
  cases hx : t.getAtVt lid vt s with
  | ok id s' =>
      simp only [hx] at h
      rw [h.1]
      exact h.2.versionOf id
  | error e s' =>
      simp only [hx] at h
      rw [h.1]
      rfl

end Laws

end Tables

end Poseidon.Temporal
