import Poseidon.Analytics.CsrDelta
import Poseidon.Lib.Compressed

/-!
# The rows of a CSR

A well-formed CSR is a list of rows, each a list of neighbours with values.
The update goes through the nodes in the order of their ids, and after each
loop the new arrays hold the rows of the nodes up to the next id: for a node
that is in the map its adjacency list, otherwise its old row, or none. The
loops are described for any assignment of rows to nodes that they are
consistent with.
-/

namespace Poseidon

variable {φ δ : Type}

/-- The row of a node. -/
def CsrArrays.row (csr : CsrArrays φ) (n : Nat) : Option (List (Nat × φ)) :=
  Compressed.row csr.rowOffsets (csr.colIndices.zip csr.edgeValues) n

/-- The number of rows. -/
def CsrArrays.nodes (csr : CsrArrays φ) : Nat := csr.rowOffsets.length - 1

/-- The offsets start at 0, do not decrease and end with the number of edges,
and every edge has a value. -/
structure CsrArrays.WellFormed (csr : CsrArrays φ) : Prop where
  offsets : Compressed.WellFormed csr.rowOffsets csr.colIndices
  values : csr.edgeValues.length = csr.colIndices.length

/-- The adjacency list of a delta. -/
def Delta.row (narrow : δ → φ) (d : Delta δ) : List (Nat × φ) := d.ids.zip (d.weights.map narrow)

theorem Delta.row_ids (narrow : δ → φ) (d : Delta δ) : (d.row narrow).map Prod.fst = d.ids := by
  refine List.map_fst_zip ?_
  rw [List.length_map, d.aligned]

theorem Delta.row_weights (narrow : δ → φ) (d : Delta δ) :
    (d.row narrow).map Prod.snd = d.weights.map narrow := by
  refine List.map_snd_zip ?_
  rw [List.length_map, d.aligned]

namespace Csr

variable {csr old : CsrArrays φ} {rows : List (List (Nat × φ))} {r : List (Nat × φ)} {i n : Nat}

/-- The arrays hold these rows. -/
structure Holds (csr : CsrArrays φ) (rows : List (List (Nat × φ))) : Prop where
  offsets : csr.rowOffsets = Compressed.offsets rows
  ids : csr.colIndices = rows.flatten.map Prod.fst
  vals : csr.edgeValues = rows.flatten.map Prod.snd

theorem Holds.length (h : Holds csr rows) : csr.rowOffsets.length = rows.length + 1 := by
  rw [h.offsets, Compressed.length_offsets]

theorem Holds.nodes (h : Holds csr rows) : csr.nodes = rows.length := by
  rw [CsrArrays.nodes, h.length, Nat.add_sub_cancel]

theorem Holds.cells (h : Holds csr rows) : csr.colIndices.zip csr.edgeValues = rows.flatten := by
  rw [h.ids, h.vals]
  exact (List.zip_of_prod rfl rfl).symm

theorem Holds.row (h : Holds csr rows) (n : Nat) : csr.row n = rows[n]? := by
  rw [CsrArrays.row, h.cells, h.offsets, Compressed.row_offsets]

theorem Holds.wellFormed (h : Holds csr rows) : csr.WellFormed := by
  have hoffs := Compressed.wellFormed_offsets rows
  refine ⟨⟨h.offsets ▸ hoffs.first, h.offsets ▸ hoffs.ordered, ?_⟩, ?_⟩
  · rw [h.offsets, hoffs.last, h.ids, List.length_map]
  · rw [h.ids, h.vals, List.length_map, List.length_map]

theorem exists_rows (h : csr.WellFormed) : ∃ rows, Holds csr rows := by
  have hcells : Compressed.WellFormed csr.rowOffsets (csr.colIndices.zip csr.edgeValues) := by
    refine ⟨h.offsets.first, h.offsets.ordered, ?_⟩
    rw [List.length_zip, h.values, Nat.min_self]
    exact h.offsets.last
  obtain ⟨rows, hoffs, hcells⟩ := hcells.exists_rows
  refine ⟨rows, hoffs, ?_, ?_⟩
  · rw [← hcells, List.map_fst_zip (Nat.le_of_eq h.values.symm)]
  · rw [← hcells, List.map_snd_zip (Nat.le_of_eq h.values)]

/-! ## Reading the old arrays -/

theorem Holds.elem (h : Holds old rows) (hi : i ≤ rows.length) :
    elem old.rowOffsets i = .ok (Compressed.start rows i) := by
  rw [Csr.elem, h.offsets, Compressed.offsets_getElem? hi]

theorem copyRange_row {α β : Type} {rows : List (List α)} (f : α → β) (hi : i < rows.length) :
    copyRange (rows.flatten.map f) (Compressed.start rows i) (Compressed.start rows (i + 1)) =
      .ok (rows[i].map f) := by
  have hle := Compressed.start_le hi
  rw [copyRange, List.length_map, if_pos ⟨Compressed.start_mono (Nat.le_succ i), hle⟩,
    Compressed.start_succ hi, Nat.add_sub_cancel_left, ← List.map_drop, ← List.map_take,
    Compressed.take_drop_start hi]

theorem copyRange_rest {α β : Type} {rows : List (List α)} (f : α → β) (hi : i ≤ rows.length) :
    copyRange (rows.flatten.map f) (Compressed.start rows i) (rows.flatten.map f).length =
      .ok ((rows.drop i).flatten.map f) := by
  have hle := Compressed.start_le hi
  rw [copyRange, List.length_map, if_pos ⟨hle, Nat.le_refl _⟩, ← List.map_drop,
    ← Compressed.drop_start, List.take_of_length_le]
  rw [List.length_map, List.length_drop]

/-! ## The loops -/

theorem Holds.back (h : Holds csr rows) : back csr.rowOffsets = rows.flatten.length := by
  rw [Csr.back, List.getLastD_eq_getLast?, h.offsets, Compressed.offsets_getLast?]
  rfl

/-- One more row. -/
theorem Holds.pushRow (h : Holds csr rows) {ids : List Nat} {vals : List φ}
    (hids : r.map Prod.fst = ids) (hvals : r.map Prod.snd = vals) :
    Holds (pushRow csr ids vals) (rows ++ [r]) := by
  refine ⟨?_, ?_, ?_⟩
  · rw [Csr.pushRow, h.back, h.offsets, Compressed.offsets_append, ← hids, List.length_map]
  · rw [Csr.pushRow, h.ids, List.flatten_append, List.map_append, ← hids, List.flatten_cons,
      List.flatten_nil, List.append_nil]
  · rw [Csr.pushRow, h.vals, List.flatten_append, List.map_append, ← hvals, List.flatten_cons,
      List.flatten_nil, List.append_nil]

/-- The rows of the first `n` nodes. -/
def firstRows (g : Nat → List (Nat × φ)) (n : Nat) : List (List (Nat × φ)) := (List.range n).map g

variable {g : Nat → List (Nat × φ)} {nextNid : Nat}

theorem firstRows_succ : firstRows g (n + 1) = firstRows g n ++ [g n] := by
  rw [firstRows, List.range_succ, List.map_append, List.map_singleton, firstRows]

/-- Rows of nodes that are not in the map. -/
theorem copyRows_holds (hold : Holds old rows) (h : Holds csr (firstRows g nextNid))
    (hg : ∀ i, nextNid ≤ i → i < nextNid + n → rows[i]? = some (g i)) :
    ∃ csr', copyRows old n nextNid csr = .ok csr' ∧ Holds csr' (firstRows g (nextNid + n)) := by
  induction n generalizing nextNid csr with
  | zero => exact ⟨csr, rfl, h⟩
  | succ n ih =>
      obtain ⟨hlt, hrow⟩ := List.getElem?_eq_some_iff.mp (hg nextNid (Nat.le_refl _) (by omega))
      have hnew : Holds (pushRow csr (rows[nextNid].map Prod.fst) (rows[nextNid].map Prod.snd))
          (firstRows g (nextNid + 1)) := by
        rw [firstRows_succ, ← hrow]
        exact h.pushRow rfl rfl
      obtain ⟨csr', hrun, hcsr'⟩ := ih hnew fun i hi hn => hg i (by omega) (by omega)
      refine ⟨csr', ?_, by rw [← Nat.add_right_comm, Nat.add_assoc] at hcsr'; exact hcsr'⟩
      rw [copyRows, hold.elem hlt, hold.elem (Nat.le_of_lt hlt), hold.ids, hold.vals]
      simp only [bind, Except.bind, copyRange_row Prod.fst hlt, copyRange_row Prod.snd hlt]
      exact hrun

/-- The loop over the updated nodes. -/
theorem updateRows_holds (narrow : δ → φ) (ds : List (Nat × Delta δ)) (hold : Holds old rows)
    (h : Holds csr (firstRows g nextNid))
    (hs : ds.Pairwise fun a b => a.1 < b.1) (hge : ∀ e ∈ ds, nextNid ≤ e.1)
    (hlt : ∀ e ∈ ds, e.1 < rows.length) (hds : ∀ e ∈ ds, g e.1 = e.2.row narrow)
    (hg : ∀ i, nextNid ≤ i → i < rows.length → (∀ e ∈ ds, e.1 ≠ i) → rows[i]? = some (g i))
    (hle : nextNid ≤ rows.length) :
    ∃ n csr', updateRows narrow old ds nextNid csr = .ok (n, csr') ∧ nextNid ≤ n ∧
      n ≤ rows.length ∧ (∀ e ∈ ds, e.1 < n) ∧ Holds csr' (firstRows g n) := by
  induction ds generalizing nextNid csr with
  | nil => exact ⟨nextNid, csr, rfl, Nat.le_refl _, hle, fun _ he => (by cases he), h⟩
  | cons e ds ih =>
      obtain ⟨nid, delta⟩ := e
      obtain ⟨hfirst, hs⟩ := List.pairwise_cons.mp hs
      have hnid : nextNid ≤ nid := hge _ List.mem_cons_self
      have hnlt : nid < rows.length := hlt _ List.mem_cons_self
      obtain ⟨csr1, hcopy, h1⟩ := copyRows_holds (n := nid - nextNid) hold h fun i hi hlt' => by
        refine hg i hi (by omega) fun e he => ?_
        rcases List.mem_cons.mp he with rfl | he
        · omega
        · have := hfirst e he
          omega
      rw [Nat.add_sub_cancel' hnid] at h1
      have hnew : Holds (pushRow csr1 delta.ids (delta.weights.map narrow))
          (firstRows g (nid + 1)) := by
        rw [firstRows_succ, hds _ List.mem_cons_self]
        exact h1.pushRow (delta.row_ids narrow) (delta.row_weights narrow)
      obtain ⟨n, csr', hrun, hn, hnle, hkeys, h'⟩ := ih hnew hs (fun e he => hfirst e he)
        (fun e he => hlt e (List.mem_cons_of_mem _ he))
        (fun e he => hds e (List.mem_cons_of_mem _ he))
        (fun i hi hlt' hne => by
          refine hg i (by omega) hlt' fun e he => ?_
          rcases List.mem_cons.mp he with rfl | he
          · exact Nat.ne_of_lt hi
          · exact hne e he) hnlt
      refine ⟨n, csr', ?_, by omega, hnle, fun e he => ?_, h'⟩
      · rw [updateRows, hcopy, Nat.max_eq_right hnid]
        exact hrun
      · rcases List.mem_cons.mp he with rfl | he
        · exact hn
        · exact hkeys e he

/-- The offsets of the rows that are left. -/
theorem copyOffsets_eq (hold : Holds old rows)
    (hg : ∀ i, nextNid ≤ i → i < nextNid + n → rows[i]? = some (g i)) :
    copyOffsets old.rowOffsets n nextNid (Compressed.offsets (firstRows g nextNid)) =
      .ok (Compressed.offsets (firstRows g (nextNid + n))) := by
  induction n generalizing nextNid with
  | zero => rfl
  | succ n ih =>
      obtain ⟨hlt, hrow⟩ := List.getElem?_eq_some_iff.mp (hg nextNid (Nat.le_refl _) (by omega))
      have hback : back (Compressed.offsets (firstRows g nextNid)) =
          (firstRows g nextNid).flatten.length := by
        rw [back, List.getLastD_eq_getLast?, Compressed.offsets_getLast?]
        rfl
      have hrest : copyOffsets old.rowOffsets n (nextNid + 1)
          (Compressed.offsets (firstRows g (nextNid + 1))) =
            .ok (Compressed.offsets (firstRows g (nextNid + 1 + n))) :=
        ih fun i hi hn => hg i (by omega) (by omega)
      rw [firstRows_succ, Compressed.offsets_append, ← hrow] at hrest
      rw [copyOffsets, hold.elem hlt, hold.elem (Nat.le_of_lt hlt)]
      simp only [bind, Except.bind]
      rw [hback, Compressed.start_succ hlt, Nat.add_sub_cancel_left, hrest, Nat.add_right_comm,
        Nat.add_assoc]

theorem firstRows_append_drop (hle : nextNid ≤ rows.length)
    (hg : ∀ i, nextNid ≤ i → i < rows.length → rows[i]? = some (g i)) :
    firstRows g rows.length = firstRows g nextNid ++ rows.drop nextNid := by
  refine List.ext_getElem? fun i => ?_
  have hlen : (firstRows g nextNid).length = nextNid := by
    rw [firstRows, List.length_map, List.length_range]
  rcases Nat.lt_or_ge i nextNid with hi | hi
  · rw [List.getElem?_append_left (hlen.symm ▸ hi), firstRows, firstRows, List.getElem?_map,
      List.getElem?_map, List.getElem?_range hi, List.getElem?_range (by omega)]
  · rw [List.getElem?_append_right (hlen.symm ▸ hi), hlen, List.getElem?_drop,
      Nat.add_sub_cancel' hi]
    rcases Nat.lt_or_ge i rows.length with hlt | hge
    · rw [hg i hi hlt, firstRows, List.getElem?_map, List.getElem?_range hlt]
      rfl
    · rw [List.getElem?_eq_none hge, List.getElem?_eq_none]
      rw [firstRows, List.length_map, List.length_range]
      exact hge

/-- The rows after the last updated one. -/
theorem copyRest_holds (hold : Holds old rows) (h : Holds csr (firstRows g nextNid))
    (hle : nextNid ≤ rows.length)
    (hg : ∀ i, nextNid ≤ i → i < rows.length → rows[i]? = some (g i)) :
    ∃ offs, copyOffsets old.rowOffsets (rows.length - nextNid) nextNid csr.rowOffsets = .ok offs ∧
      Holds ⟨offs, csr.colIndices ++ (rows.drop nextNid).flatten.map Prod.fst,
        csr.edgeValues ++ (rows.drop nextNid).flatten.map Prod.snd⟩ (firstRows g rows.length) := by
  have hoffs := copyOffsets_eq (n := rows.length - nextNid) hold fun i hi hn =>
    hg i hi (by omega)
  rw [Nat.add_sub_cancel' hle] at hoffs
  refine ⟨_, h.offsets ▸ hoffs, rfl, ?_, ?_⟩
  · rw [firstRows_append_drop hle hg, List.flatten_append, List.map_append, h.ids]
  · rw [firstRows_append_drop hle hg, List.flatten_append, List.map_append, h.vals]

/-- Slots that are not in use. -/
theorem Holds.gap (h : Holds csr (firstRows g nextNid))
    (hg : ∀ i, nextNid ≤ i → i < nextNid + n → g i = []) :
    Holds { csr with rowOffsets := csr.rowOffsets ++ List.replicate n (Csr.back csr.rowOffsets) }
      (firstRows g (nextNid + n)) := by
  have hrows : firstRows g (nextNid + n) = firstRows g nextNid ++ List.replicate n [] := by
    induction n with
    | zero => rw [List.replicate_zero, List.append_nil, Nat.add_zero]
    | succ n ih =>
        rw [← Nat.add_assoc, firstRows_succ, ih fun i hi hn => hg i hi (by omega),
          hg (nextNid + n) (by omega) (by omega), List.replicate_succ', List.append_assoc]
  rw [hrows]
  refine ⟨?_, ?_, ?_⟩
  · rw [Compressed.offsets_replicate, ← h.back, h.offsets]
  · rw [Compressed.flatten_replicate_nil, h.ids]
  · rw [Compressed.flatten_replicate_nil, h.vals]

/-- The loop over the new nodes. -/
theorem appendRows_holds (narrow : δ → φ) (ds : List (Nat × Delta δ))
    (h : Holds csr (firstRows g nextNid))
    (hs : ds.Pairwise fun a b => a.1 < b.1) (hge : ∀ e ∈ ds, nextNid ≤ e.1)
    (hds : ∀ e ∈ ds, g e.1 = e.2.row narrow)
    (hg : ∀ i, nextNid ≤ i → (∀ e ∈ ds, e.1 ≠ i) → g i = []) :
    ∃ m, Holds (appendRows narrow ds nextNid csr) (firstRows g m) ∧
      ∀ i, i < m ↔ i < nextNid ∨ ∃ e ∈ ds, i ≤ e.1 := by
  induction ds generalizing nextNid csr with
  | nil => exact ⟨nextNid, h, fun i => by simp⟩
  | cons e ds ih =>
      obtain ⟨nid, delta⟩ := e
      obtain ⟨hfirst, hs⟩ := List.pairwise_cons.mp hs
      have hnid : nextNid ≤ nid := hge _ List.mem_cons_self
      have hgap := h.gap (n := nid - nextNid) fun i hi hlt => by
        refine hg i hi fun e he => ?_
        rcases List.mem_cons.mp he with rfl | he
        · omega
        · have := hfirst e he
          omega
      rw [Nat.add_sub_cancel' hnid] at hgap
      have hnew := hgap.pushRow (delta.row_ids narrow) (delta.row_weights narrow)
      rw [← hds _ List.mem_cons_self, ← firstRows_succ] at hnew
      obtain ⟨m, hm, hiff⟩ := ih hnew hs (fun e he => hfirst e he)
        (fun e he => hds e (List.mem_cons_of_mem _ he))
        (fun i hi hne => by
          refine hg i (by omega) fun e he => ?_
          rcases List.mem_cons.mp he with rfl | he
          · exact Nat.ne_of_lt hi
          · exact hne e he)
      refine ⟨m, ?_, fun i => ?_⟩
      · rw [appendRows, Nat.max_eq_right hnid]
        exact hm
      · rw [hiff]
        constructor
        · rintro (hlt | ⟨e, he, hle⟩)
          · exact .inr ⟨_, List.mem_cons_self, Nat.le_of_lt_succ hlt⟩
          · exact .inr ⟨e, List.mem_cons_of_mem _ he, hle⟩
        · rintro (hlt | ⟨e, he, hle⟩)
          · exact .inl (by omega)
          · rcases List.mem_cons.mp he with rfl | he
            · exact .inl (Nat.lt_succ_of_le hle)
            · exact .inr ⟨e, he, hle⟩

end Csr

end Poseidon
