import Mathlib.Data.List.Induction

/-!
# Compressed rows

The rows of a table, one after the other in one list of cells, and the offsets
at which they start. There is one offset more than there are rows: the last
one is the number of cells. Offsets that begin with 0, do not decrease and end
with the number of cells are those of one list of rows.
-/

namespace Compressed

variable {α : Type} {rows : List (List α)} {r cells : List α} {offs : List Nat} {i : Nat}

/-- The number of cells in front of a row. -/
def start (rows : List (List α)) (i : Nat) : Nat := (rows.take i).flatten.length

/-- The offsets of rows. -/
def offsets (rows : List (List α)) : List Nat := (List.range (rows.length + 1)).map (start rows)

/-- The cells between two offsets. -/
def row (offs : List Nat) (cells : List α) (i : Nat) : Option (List α) :=
  match offs[i]?, offs[i + 1]? with
  | some beg, some last => some ((cells.drop beg).take (last - beg))
  | _, _ => none

structure WellFormed (offs : List Nat) (cells : List α) : Prop where
  first : offs.head? = some 0
  ordered : offs.Pairwise (· ≤ ·)
  last : offs.getLast? = some cells.length

/-! ## Offsets -/

theorem start_length : start rows rows.length = rows.flatten.length := by
  rw [start, List.take_length]

theorem start_succ (hi : i < rows.length) : start rows (i + 1) = start rows i + rows[i].length := by
  rw [start, List.take_succ_eq_append_getElem hi, List.flatten_append, List.length_append, start,
    List.flatten_cons, List.flatten_nil, List.append_nil]

theorem start_mono {j : Nat} (h : i ≤ j) : start rows i ≤ start rows j := by
  obtain ⟨rest, hrest⟩ : rows.take i <+: rows.take j := List.take_prefix_take_left h
  rw [start, start, ← hrest, List.flatten_append, List.length_append]
  exact Nat.le_add_right _ _

theorem start_le (hi : i ≤ rows.length) : start rows i ≤ rows.flatten.length := by
  rw [← start_length]
  exact start_mono hi

theorem start_append (hi : i ≤ rows.length) : start (rows ++ [r]) i = start rows i := by
  rw [start, List.take_append_of_le_length hi, start]

theorem length_offsets : (offsets rows).length = rows.length + 1 := by
  rw [offsets, List.length_map, List.length_range]

theorem offsets_getElem? (hi : i ≤ rows.length) : (offsets rows)[i]? = some (start rows i) := by
  rw [offsets, List.getElem?_map, List.getElem?_range (Nat.lt_succ_of_le hi)]
  rfl

/-- One more row. -/
theorem offsets_append :
    offsets (rows ++ [r]) = offsets rows ++ [rows.flatten.length + r.length] := by
  have hlast : start (rows ++ [r]) (rows.length + 1) = rows.flatten.length + r.length := by
    have hlen : rows.length + 1 = (rows ++ [r]).length := by
      rw [List.length_append, List.length_singleton]
    rw [hlen, start_length, List.flatten_append, List.length_append, List.flatten_cons,
      List.flatten_nil, List.append_nil]
  rw [offsets, List.length_append, List.length_singleton, List.range_succ, List.map_append,
    List.map_singleton, hlast, offsets]
  refine congrArg (· ++ _) (List.map_congr_left fun i hi => ?_)
  exact start_append (Nat.le_of_lt_succ (List.mem_range.mp hi))

theorem offsets_getLast? : (offsets rows).getLast? = some rows.flatten.length := by
  rw [offsets, List.range_succ, List.map_append, List.map_singleton, List.getLast?_concat,
    start_length]

theorem flatten_replicate_nil {n : Nat} :
    (rows ++ List.replicate n []).flatten = rows.flatten := by
  rw [List.flatten_append, List.flatten_replicate_nil, List.append_nil]

/-- Empty rows repeat the last offset. -/
theorem offsets_replicate {n : Nat} : offsets (rows ++ List.replicate n []) =
    offsets rows ++ List.replicate n rows.flatten.length := by
  induction n with
  | zero => simp
  | succ n ih =>
      rw [List.replicate_succ', List.replicate_succ', ← List.append_assoc, ← List.append_assoc,
        offsets_append, ih, flatten_replicate_nil]
      rfl

/-! ## Rows -/

theorem drop_start : rows.flatten.drop (start rows i) = (rows.drop i).flatten := by
  have hsplit : rows.flatten = (rows.take i).flatten ++ (rows.drop i).flatten := by
    rw [← List.flatten_append, List.take_append_drop]
  rw [hsplit, start, List.drop_left]

/-- The cells of a row. -/
theorem take_drop_start (hi : i < rows.length) :
    (rows.flatten.drop (start rows i)).take rows[i].length = rows[i] := by
  rw [drop_start, List.drop_eq_getElem_cons hi, List.flatten_cons, List.take_left]

theorem row_offsets (rows : List (List α)) (i : Nat) :
    row (offsets rows) rows.flatten i = rows[i]? := by
  by_cases hi : i < rows.length
  · have hsub : start rows (i + 1) - start rows i = rows[i].length := by
      rw [start_succ hi, Nat.add_sub_cancel_left]
    rw [row, offsets_getElem? (Nat.le_of_lt hi), offsets_getElem? hi, List.getElem?_eq_getElem hi]
    simp only []
    rw [hsub, take_drop_start hi]
  · have hend : (offsets rows)[i + 1]? = none := by
      rw [List.getElem?_eq_none_iff, length_offsets]
      omega
    rw [row, hend, List.getElem?_eq_none (Nat.le_of_not_lt hi)]
    split
    · next h => cases h
    · rfl

theorem wellFormed_offsets (rows : List (List α)) : WellFormed (offsets rows) rows.flatten := by
  refine ⟨?_, ?_, offsets_getLast?⟩
  · rw [List.head?_eq_getElem?, offsets_getElem? (Nat.zero_le _)]
    rfl
  · rw [offsets, List.pairwise_map]
    exact List.pairwise_lt_range.imp fun hlt => start_mono (Nat.le_of_lt hlt)

/-- Offsets up to the cell `m` come from rows. -/
theorem exists_rows_take {m : Nat} (h0 : offs.head? = some 0) (hs : offs.Pairwise (· ≤ ·))
    (hm : offs.getLast? = some m) (hle : m ≤ cells.length) :
    ∃ rows, offs = offsets rows ∧ cells.take m = rows.flatten := by
  induction offs using List.reverseRecOn generalizing m with
  | nil => cases h0
  | append_singleton l a ih =>
      rw [List.getLast?_concat] at hm
      cases hm
      obtain ⟨hl, -, hlast⟩ := List.pairwise_append.mp hs
      cases hprev : l.getLast? with
      | none =>
          obtain rfl := List.getLast?_eq_none_iff.mp hprev
          cases h0
          exact ⟨[], rfl, rfl⟩
      | some b =>
          have hb : b ≤ a := hlast b (List.mem_of_getLast? hprev) a List.mem_cons_self
          have hhead : l.head? = some 0 := by
            cases l with
            | nil => cases hprev
            | cons c l => exact h0
          obtain ⟨rows, rfl, htake⟩ := ih hhead hl hprev (Nat.le_trans hb hle)
          have hlen : rows.flatten.length = b := by
            rw [← htake, List.length_take, Nat.min_eq_left (Nat.le_trans hb hle)]
          refine ⟨rows ++ [(cells.take a).drop b], ?_, ?_⟩
          · rw [offsets_append, hlen, List.length_drop, List.length_take, Nat.min_eq_left hle,
              Nat.add_sub_cancel' hb]
          · rw [List.flatten_append, ← htake, List.flatten_cons, List.flatten_nil, List.append_nil]
            have hpre : cells.take b = (cells.take a).take b := by
              rw [List.take_take, Nat.min_eq_left hb]
            rw [hpre, List.take_append_drop]

/-- Offsets of well-formed rows come from rows. -/
theorem WellFormed.exists_rows (h : WellFormed offs cells) :
    ∃ rows, offs = offsets rows ∧ cells = rows.flatten := by
  obtain ⟨rows, hoffs, hcells⟩ := exists_rows_take h.first h.ordered h.last (Nat.le_refl _)
  rw [List.take_length] at hcells
  exact ⟨rows, hoffs, hcells⟩

end Compressed
