import Mathlib.Data.List.Induction
import Poseidon.Proofs.HistoryEffects
import Poseidon.Proofs.VersionIndex

/-!
# The history manager after a restart

`restore_state` rebuilds the maps to the last history records from the index.
What it finds there has lost the bit that marks a history id, because a
payload is cut to 56 bits, and a first record is not in the index at all. A
map it rebuilds therefore agrees with the one before the restart nowhere, and
the maps are the same only when there was nothing to find.
-/

namespace Poseidon.Temporal

open Relation

/-! ## The invariant -/

/-- A map to last records is empty as long as there are no records, and holds
history ids. -/
structure LastOk {δ : Type} (deltas : List (HistoryDelta δ)) (last : Nat → Option Nat) :
    Prop where
  empty : deltas = [] → ∀ lid, last lid = none
  mapped : deltas ≠ [] → ∃ lid, last lid ≠ none
  marked : ∀ lid h, last lid = some h → 2 ^ 63 ≤ h

/-- The maps and the index know of records only if there are any. -/
structure Recorded (s : GraphDb) : Prop where
  nodes : LastOk s.nodes.deltas s.nodes.lastDelta
  rships : LastOk s.rships.deltas s.rships.lastDelta
  nodeEntries : s.nodes.deltas = [] → ∀ e ∈ s.index.entries, ¬ HistEntry false e
  rshipEntries : s.rships.deltas = [] → ∀ e ∈ s.index.entries, ¬ HistEntry true e

theorem LastOk.add {δ : Type} {deltas : List (HistoryDelta δ)} {last : Nat → Option Nat}
    (h : LastOk deltas last) (d : HistoryDelta δ) (lid n : Nat) :
    LastOk (deltas ++ [d]) fun l => if l = lid then some (encodeHistoryId n) else last l where
  empty hnil := absurd hnil (by simp)
  mapped _ := ⟨lid, by simp⟩
  marked l h' hl := by
    split at hl
    · cases hl
      simp only [encodeHistoryId]
      omega
    · exact h.marked l h' hl

theorem Recorded.effect {s s' : GraphDb} (h : Recorded s) (he : Effect s s') : Recorded s' := by
  cases he with
  | quiet hs =>
      refine ⟨?_, ?_, ?_, ?_⟩
      · rw [hs.nodeDeltas, hs.nodeLast]; exact h.nodes
      · rw [hs.rshipDeltas, hs.rshipLast]; exact h.rships
      · rw [hs.nodeDeltas, hs.index]; exact h.nodeEntries
      · rw [hs.rshipDeltas, hs.index]; exact h.rshipEntries
  | indexHot lid vt id isRel =>
      refine ⟨h.nodes, h.rships, fun hnil e he => ?_, fun hnil e he => ?_⟩
      · rcases mem_insertVersion he with rfl | he
        · exact not_histEntry_hot lid vt id _ isRel
        · exact h.nodeEntries hnil e he
      · rcases mem_insertVersion he with rfl | he
        · exact not_histEntry_hot lid vt id _ isRel
        · exact h.rshipEntries hnil e he
  | indexRemove lid vt isRel =>
      exact ⟨h.nodes, h.rships, fun hnil e he => h.nodeEntries hnil e (mem_removeVersion he),
        fun hnil e he => h.rshipEntries hnil e (mem_removeVersion he)⟩
  | baseNode d =>
      exact ⟨h.nodes.add d _ _, h.rships, fun hnil => absurd hnil (by
        simp [Table.addHistory, Table.setLastDelta, Table.modifySide, nodeTable]), h.rshipEntries⟩
  | baseRship d =>
      exact ⟨h.nodes, h.rships.add d _ _, h.nodeEntries, fun hnil => absurd hnil (by
        simp [Table.addHistory, Table.setLastDelta, Table.modifySide, rshipTable])⟩
  | archiveNode d _ =>
      refine ⟨h.nodes.add d _ _, h.rships, fun hnil => absurd hnil ?_, fun hnil => ?_⟩
      · simp [Table.addHistory, Table.setLastDelta, Table.modifySide, Table.indexHist, nodeTable]
      · exact not_histEntry_archived (h.rshipEntries hnil)
  | archiveRship d _ =>
      refine ⟨h.nodes, h.rships.add d _ _, fun hnil => ?_, fun hnil => absurd hnil ?_⟩
      · exact not_histEntry_archived (h.nodeEntries hnil)
      · simp [Table.addHistory, Table.setLastDelta, Table.modifySide, Table.indexHist, rshipTable]

theorem recorded_initial (n₀ : Versioned NodeLinks) : Recorded (GraphDb.initial n₀) := by
  have hlast : ∀ δ : Type, LastOk ([] : List (HistoryDelta δ)) fun _ => none := fun δ =>
    ⟨fun _ _ => rfl, fun hne => absurd rfl hne, fun _ _ h => by cases h⟩
  exact ⟨hlast _, hlast _, fun _ e he => (by cases he), fun _ e he => (by cases he)⟩

theorem recorded_run (n₀ : Versioned NodeLinks) (as : List Step) :
    Recorded ((GraphDb.initial n₀).run as) := by
  have h := (GraphDb.initial n₀).run_effects as
  generalize (GraphDb.initial n₀).run as = s at h
  induction h with
  | refl => exact recorded_initial n₀
  | tail _ he ih => exact ih.effect he

/-! ## What is rebuilt -/

/-- What the scan leaves in the two maps comes from the entries it passed. -/
theorem restore_entries (l : List (Nat × Nat)) :
    let maps := l.foldl restoreEntry (fun _ => none, fun _ => none)
    (∀ lid p, maps.1 lid = some p → p < 2 ^ 56 ∧ ∃ e ∈ l, HistEntry false e) ∧
      ∀ lid p, maps.2 lid = some p → p < 2 ^ 56 ∧ ∃ e ∈ l, HistEntry true e := by
  -- induction from the end of the scan
  induction l using List.reverseRecOn with
  | nil =>
      refine ⟨fun _ _ h => ?_, fun _ _ h => ?_⟩
      · cases h
      · cases h
  | append_singleton l e ih =>
      obtain ⟨ih1, ih2⟩ := ih
      simp only [List.foldl_append, List.foldl_cons, List.foldl_nil]
      generalize hm : l.foldl restoreEntry (fun _ => none, fun _ => none) = maps at ih1 ih2 ⊢
      have hold1 : ∀ lid p, maps.1 lid = some p →
          p < 2 ^ 56 ∧ ∃ e' ∈ l ++ [e], HistEntry false e' := fun lid p h =>
        (ih1 lid p h).imp id fun ⟨e', he', h'⟩ => ⟨e', List.mem_append_left _ he', h'⟩
      have hold2 : ∀ lid p, maps.2 lid = some p →
          p < 2 ^ 56 ∧ ∃ e' ∈ l ++ [e], HistEntry true e' := fun lid p h =>
        (ih2 lid p h).imp id fun ⟨e', he', h'⟩ => ⟨e', List.mem_append_left _ he', h'⟩
      have hlt : tiDecodePayload e.2 < 2 ^ 56 := Nat.mod_lt _ (by decide)
      have hmem : e ∈ l ++ [e] := List.mem_append_right _ (List.mem_singleton_self e)
      simp only [restoreEntry]
      split
      · next hty =>
        split
        · next hp =>
          refine ⟨hold1, fun lid p h => ?_⟩
          simp only at h
          split at h
          · cases h
            exact ⟨hlt, e, hmem, hty, iff_of_true hp rfl⟩
          · exact hold2 lid p h
        · next hp =>
          refine ⟨fun lid p h => ?_, hold2⟩
          simp only at h
          split at h
          · cases h
            exact ⟨hlt, e, hmem, hty, iff_of_false hp (by decide)⟩
          · exact hold1 lid p h
      · exact ⟨hold1, hold2⟩

/-- A map that is rebuilt is the old one only if both are empty. -/
theorem LastOk.restored_iff {δ : Type} {deltas : List (HistoryDelta δ)}
    {last restored : Nat → Option Nat} (h : LastOk deltas last)
    (hcut : ∀ lid p, restored lid = some p → p < 2 ^ 56)
    (hnone : deltas = [] → ∀ lid, restored lid = none) : restored = last ↔ deltas = [] := by
  constructor
  · intro heq
    by_contra hne
    obtain ⟨lid, hlid⟩ := h.mapped hne
    obtain ⟨p, hp⟩ := Option.ne_none_iff_exists'.mp hlid
    have hge := h.marked lid p hp
    have hlt := hcut lid p (heq ▸ hp)
    omega
  · intro hnil
    funext lid
    rw [hnone hnil lid, h.empty hnil lid]

/-- After a restart the maps to the last history records are what they were
exactly when no version has been archived. -/
theorem restored_iff_no_history (n₀ : Versioned NodeLinks) (as : List Step) :
    let s := (GraphDb.initial n₀).run as
    ((restoreState s).nodes.lastDelta = s.nodes.lastDelta ∧
        (restoreState s).rships.lastDelta = s.rships.lastDelta) ↔
      s.nodes.deltas = [] ∧ s.rships.deltas = [] := by
  intro s
  have h : Recorded s := recorded_run n₀ as
  obtain ⟨h1, h2⟩ := restore_entries s.index.entries
  have hnone : ∀ {isRel : Bool} {m : Nat → Option Nat},
      (∀ lid p, m lid = some p → p < 2 ^ 56 ∧ ∃ e ∈ s.index.entries, HistEntry isRel e) →
      (∀ e ∈ s.index.entries, ¬ HistEntry isRel e) → ∀ lid, m lid = none := by
    intro isRel m hm hno lid
    refine Option.eq_none_iff_forall_ne_some.mpr fun p hp => ?_
    obtain ⟨e, he, hh⟩ := (hm lid p hp).2
    exact hno e he hh
  refine and_congr ?_ ?_
  · exact h.nodes.restored_iff (fun lid p hp => (h1 lid p hp).1)
      fun hnil => hnone h1 (h.nodeEntries hnil)
  · exact h.rships.restored_iff (fun lid p hp => (h2 lid p hp).1)
      fun hnil => hnone h2 (h.rshipEntries hnil)

/-- One node is added and updated, and the superseded version is archived.
After the restart its logical id is mapped to the number of the history
record without the bit of a history id. -/
theorem restart_strips_history_bit :
    let n₀ : Versioned NodeLinks := ⟨0, 0, 0, 0, 0, 0, 0, 0, 0, ⟨0, 0⟩⟩
    let s := (GraphDb.initial n₀).run
      [.begin 1, .write 1 (.addNode ⟨1, 1⟩ 5 Properties.none 10 MAX_TIME 7),
      .commit 1, .begin 2, .write 2 (.updateNode 1 ⟨2, 2⟩ Properties.none 20), .work 0, .commit 2]
    s.tasks = [] ∧ s.nodes.lastDelta 7 = some (2 ^ 63 + 1) ∧
      (restoreState s).nodes.lastDelta 7 = some 1 ∧
      ¬ ((restoreState s).nodes.lastDelta = s.nodes.lastDelta ∧
        (restoreState s).rships.lastDelta = s.rships.lastDelta) := by
  intro n₀ s
  have htasks : s.tasks = [] := by decide +kernel
  have hbefore : s.nodes.lastDelta 7 = some (2 ^ 63 + 1) := by decide +kernel
  have hafter : (restoreState s).nodes.lastDelta 7 = some 1 := by decide +kernel
  refine ⟨htasks, hbefore, hafter, fun heq => ?_⟩
  rw [heq.1, hbefore] at hafter
  exact absurd hafter (by decide)

end Poseidon.Temporal
