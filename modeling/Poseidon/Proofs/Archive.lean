import Poseidon.Proofs.HistoryEffects
import Poseidon.Proofs.Tables

/-!
# What archiving a version does

Every archival, of a call or of a task, comes to the same change of the
store: new property lists, a history record at the end of the table, the
entry of the version in the index and, at an interval, a checkpoint. A search
that ends at the entry of an archived version asks its history record.
-/

namespace Poseidon.Temporal

open Wp

section Tables

variable {ε δ γ : Type} (t : Table ε δ γ)

/-- Replace the property table of a side. -/
def Table.setProps (p : PropertyList) : GraphDb → GraphDb :=
  t.modifySide fun sd => { sd with props := p }

/-- Enter a checkpoint. -/
def Table.addCheckpoint (lid vt base : Nat) (c : γ) : GraphDb → GraphDb :=
  t.modifySide fun sd => { sd with
    checkpoints := fun l =>
      if l = lid then (sd.checkpoints l).insert vt ⟨lid, vt, base, 0, c⟩ else sd.checkpoints l }

/-- The store with the next count for a logical id. -/
def countUpdate (lid : Nat) (s : GraphDb) : GraphDb :=
  { s with updateCounts := fun l =>
      if l = lid then (s.updateCounts lid + 1) % 2 ^ 32 else s.updateCounts l }

/-- The history record of an archived version. -/
def ArchiveArgs.record (a : ArchiveArgs δ γ) (base delta prev : Nat) : HistoryDelta δ :=
  ⟨a.lid, a.label, a.vtStart, a.newVtStart, base, delta, prev, a.xid, 2 ^ 64 - 1, a.links⟩

/-- The store after an archival: `p` are the property lists, `base` and
`delta` the lists of the new record. -/
def Table.archived (a : ArchiveArgs δ γ) (p : PropertyList) (base delta : Nat) (s : GraphDb) :
    GraphDb :=
  let prev := ((t.side s).lastDelta a.lid).getD UNKNOWN
  let s₁ := t.indexHist a.lid a.vtStart (encodeHistoryId (t.side s).deltas.length)
    (t.addHistory (a.record base delta prev) (t.setProps p (countUpdate a.lid s)))
  match a.checkpoint with
  | some c =>
      if atInterval ((s.updateCounts a.lid + 1) % 2 ^ 32) then
        t.addCheckpoint a.lid a.vtStart base c s₁
      else s₁
  | none => s₁

variable {t}

/-- The delta list of a new record: an anchor has none, and another record has
the changes. -/
def ArchiveArgs.DeltaIs (a : ArchiveArgs δ γ) (p : PropertyList) (anchor : Prop)
    (items : List PItem) (delta : Nat) : Prop :=
  (anchor → delta = 0) ∧ (¬anchor → items = a.updates ∧ delta = (p.addPitems a.owner a.updates).1)

theorem wp_archiveLists {a : ArchiveArgs δ γ} {count prev : Nat} {s : GraphDb} :
    wp (t.archiveLists a count prev)
      (fun l s' => ∃ items, s' = t.setProps ((t.side s).props.addPitems a.owner items).2 s ∧
        a.DeltaIs (t.side s).props (atInterval count = true ∨ prev = UNKNOWN) items l.2)
      (fun _ s' => s' = s ∧ ((∃ e, a.baseItems (t.side s).props = .error e) ∨
        prev ≠ UNKNOWN ∧ ∃ e, (t.side s).getDelta prev = .error e)) s := by
  unfold Table.archiveLists
  refine wp_ite (fun _ => ?_) fun hn => ?_
  · rw [wp_get_bind, wp_bind, wp_ofExcept]
    cases hb : a.baseItems (t.side s).props with
    | ok items => exact ⟨items, rfl, fun _ => rfl, fun hn => absurd ‹_› hn⟩
    | error e => exact ⟨rfl, .inl ⟨e, rfl⟩⟩
  · rw [wp_get_bind, wp_bind, wp_ofExcept]
    cases hd : (t.side s).getDelta prev with
    | ok d => exact ⟨a.updates, rfl, fun h => absurd h hn, fun _ => ⟨rfl, rfl⟩⟩
    | error e => exact ⟨rfl, .inr ⟨fun h => hn (.inr h), e, rfl⟩⟩

variable [t.Laws]

@[simp] theorem side_setProps (p : PropertyList) (s : GraphDb) :
    t.side (t.setProps p s) = { t.side s with props := p } := by
  simp [Table.setProps, Table.modifySide]

@[simp] theorem side_countUpdate (lid : Nat) (s : GraphDb) :
    t.side (countUpdate lid s) = t.side s := by
  simp [countUpdate]

/-- The last record of the logical id, or the version, cannot be read. -/
def Table.Unreadable (t : Table ε δ γ) (a : ArchiveArgs δ γ) (s : GraphDb) : Prop :=
  (∃ e, a.baseItems (t.side s).props = .error e) ∨
    ∃ h e, (t.side s).lastDelta a.lid = some h ∧ (t.side s).getDelta h = .error e

/-- Whether an archival makes an anchor. -/
def Table.MakesAnchor (t : Table ε δ γ) (a : ArchiveArgs δ γ) (s : GraphDb) : Prop :=
  atInterval ((s.updateCounts a.lid + 1) % 2 ^ 32) = true ∨
    ((t.side s).lastDelta a.lid).getD UNKNOWN = UNKNOWN

/-- What an archival does: one that fails has counted the update and may
have made property lists. -/
theorem wp_archiveWith_delta {a : ArchiveArgs δ γ} {s : GraphDb} :
    wp (t.archiveWith a) (fun h s' => ∃ items base delta, (t.side s).deltas.length < 2 ^ 56 ∧
        h = encodeHistoryId (t.side s).deltas.length ∧
        s' = t.archived a ((t.side s).props.addPitems a.owner items).2 base delta s ∧
        a.DeltaIs (t.side s).props (t.MakesAnchor a s) items delta)
      (fun e s' => (s' = countUpdate a.lid s ∨ ∃ p, s' = t.setProps p (countUpdate a.lid s)) ∧
        (e = .slotInUse ∧ 2 ^ 56 ≤ (t.side s).deltas.length ∨ t.Unreadable a s)) s := by
  unfold Table.archiveWith
  simp only [wp_bind, wp_get, wp_modify]
  change wp (t.archiveLists a _ _) _ _ (countUpdate a.lid s)
  refine wp_mono wp_archiveLists ?_ ?_
  rotate_left
  · rintro e s' ⟨rfl, hb | ⟨hne, e', hd⟩⟩
    · rw [side_countUpdate] at hb
      exact ⟨.inl rfl, .inr (.inl hb)⟩
    · simp only [side_countUpdate, Table.Laws.side_rest] at hne hd
      cases hl : (t.side s).lastDelta a.lid with
      | none => exact absurd (by rw [hl]; rfl) hne
      | some h =>
          rw [hl] at hd
          exact ⟨.inl rfl, .inr (.inr ⟨h, e', hl, hd⟩)⟩
  have hprev : (t.side (countUpdate a.lid s)).lastDelta = (t.side s).lastDelta := by simp
  rintro lists _ ⟨items, rfl, hdelta⟩
  simp only [side_countUpdate, Table.Laws.side_rest] at hdelta
  rw [side_countUpdate]
  generalize hp : ((t.side s).props.addPitems a.owner items).2 = p
  have hlen : (t.side (t.setProps p (countUpdate a.lid s))).deltas = (t.side s).deltas := by
    simp
  rw [wp_appendDelta]
  split
  · next hge => exact ⟨.inr ⟨p, rfl⟩, .inl ⟨rfl, hlen ▸ hge⟩⟩
  · next hlt =>
    rw [hlen] at hlt ⊢
    refine wp_ite (fun hi => ?_) fun hi => ?_
    · cases hc : a.checkpoint with
      | some c =>
          refine ⟨items, lists.1, lists.2, Nat.lt_of_not_le hlt, rfl, ?_, hdelta⟩
          simp only [hp, Table.archived, hc, if_pos hi, Table.addHistory, hlen, ← hprev]
          rfl
      | none =>
          refine ⟨items, lists.1, lists.2, Nat.lt_of_not_le hlt, rfl, ?_, hdelta⟩
          simp only [hp, Table.archived, hc, Table.addHistory, hlen, ← hprev]
          rfl
    · refine ⟨items, lists.1, lists.2, Nat.lt_of_not_le hlt, rfl, ?_, hdelta⟩
      cases hc : a.checkpoint with
      | some c =>
          simp only [hp, Table.archived, hc, if_neg hi, Table.addHistory, hlen, ← hprev]
          rfl
      | none =>
          simp only [hp, Table.archived, hc, Table.addHistory, hlen, ← hprev]
          rfl

theorem wp_archiveWith {a : ArchiveArgs δ γ} {s : GraphDb} :
    wp (t.archiveWith a) (fun h s' => ∃ items base delta, (t.side s).deltas.length < 2 ^ 56 ∧
        h = encodeHistoryId (t.side s).deltas.length ∧
        s' = t.archived a ((t.side s).props.addPitems a.owner items).2 base delta s)
      (fun e s' => (s' = countUpdate a.lid s ∨ ∃ p, s' = t.setProps p (countUpdate a.lid s)) ∧
        (e = .slotInUse ∨ t.Unreadable a s)) s := by
  refine wp_mono wp_archiveWith_delta ?_ fun _ _ he => ⟨he.1, he.2.imp_left And.left⟩
  rintro h s' ⟨items, base, delta, hlt, hh, hs, -⟩
  exact ⟨items, base, delta, hlt, hh, hs⟩

/-- The store after an archival that succeeds. -/
theorem archiveWith_ok {a : ArchiveArgs δ γ} {h : Nat} {s s' : GraphDb}
    (hx : t.archiveWith a s = .ok h s') :
    ∃ items base delta, (t.side s).deltas.length < 2 ^ 56 ∧
      h = encodeHistoryId (t.side s).deltas.length ∧
      s' = t.archived a ((t.side s).props.addPitems a.owner items).2 base delta s := by
  have h := wp_ok wp_archiveWith hx
  exact h

/-! ## The parts of the store after an archival -/

section Parts

variable (t) (a : ArchiveArgs δ γ) (p : PropertyList) (base delta : Nat) (s : GraphDb)

omit [t.Laws] in
/-- An archival is the archival without a checkpoint, and one with a checkpoint
on top of that. -/
@[elab_as_elim]
theorem archived_cases {P : GraphDb → Prop}
    (h : P (t.indexHist a.lid a.vtStart (encodeHistoryId (t.side s).deltas.length)
      (t.addHistory (a.record base delta (((t.side s).lastDelta a.lid).getD UNKNOWN))
        (t.setProps p (countUpdate a.lid s)))))
    (hc : ∀ s' c, P s' → P (t.addCheckpoint a.lid a.vtStart base c s')) :
    P (t.archived a p base delta s) := by
  simp only [Table.archived]
  split
  · split
    · exact hc _ _ h
    · exact h
  · exact h

/-- The side after an archival, up to its checkpoints. -/
theorem side_archived : ∃ cp, t.side (t.archived a p base delta s) =
    { t.side s with
      props := p
      deltas := (t.side s).deltas ++
        [a.record base delta (((t.side s).lastDelta a.lid).getD UNKNOWN)]
      lastDelta := fun l =>
        if l = a.lid then some (encodeHistoryId (t.side s).deltas.length)
        else (t.side s).lastDelta l
      checkpoints := cp } := by
  refine archived_cases t a p base delta s ?_ ?_
  · refine ⟨(t.side s).checkpoints, ?_⟩
    simp [Table.indexHist, Table.addHistory, Table.setLastDelta, Table.modifySide,
      ArchiveArgs.record]
  · rintro s' c ⟨cp, h⟩
    exact ⟨_, by rw [Table.addCheckpoint, Table.modifySide, Table.Laws.side_setSide, h]⟩

theorem index_archived : (t.archived a p base delta s).index =
    insertVersion (removeVersion s.index a.lid a.vtStart t.isRel) a.lid a.vtStart .hist
      (encodeHistoryId (t.side s).deltas.length) t.isRel := by
  refine archived_cases t a p base delta s ?_ ?_
  · simp [Table.indexHist, Table.addHistory, Table.setLastDelta, Table.modifySide,
      Table.setProps, countUpdate]
  · intro s' c h
    rw [Table.addCheckpoint, Table.modifySide, Table.Laws.index_setSide, h]

theorem apart_archived {ε' δ' γ' : Type} (u : Table ε' δ' γ') [u.Laws] [t.Apart u] :
    u.side (t.archived a p base delta s) = u.side s := by
  refine archived_cases t a p base delta s ?_ ?_
  · simp [Table.indexHist, Table.addHistory, Table.setLastDelta, Table.modifySide,
      Table.setProps, countUpdate]
  · intro s' c h
    rw [Table.addCheckpoint, Table.modifySide, Table.Apart.apart_setSide, h]

theorem updateCounts_archived :
    (t.archived a p base delta s).updateCounts = (countUpdate a.lid s).updateCounts := by
  refine archived_cases t a p base delta s ?_ ?_
  · simp [Table.indexHist, Table.addHistory, Table.setLastDelta, Table.modifySide,
      Table.setProps]
  · intro s' c h
    rw [Table.addCheckpoint, Table.modifySide, Table.Laws.updateCounts_setSide, h]

/-- The lists of an archival's store. -/
theorem lists_archived : (t.archived a p base delta s).garbage = s.garbage ∧
    (t.archived a p base delta s).txs = s.txs ∧ (t.archived a p base delta s).tasks = s.tasks ∧
    (t.archived a p base delta s).activeTx = s.activeTx ∧
    (t.archived a p base delta s).oldestXid = s.oldestXid := by
  refine archived_cases t a p base delta s ?_ ?_
  · simp [Table.indexHist, Table.addHistory, Table.setLastDelta, Table.modifySide,
      Table.setProps, countUpdate]
  · rintro s' c ⟨hg, hx, ht, ha, ho⟩
    simp [Table.addCheckpoint, Table.modifySide, hg, hx, ht, ha, ho]

end Parts

end Tables

end Poseidon.Temporal
