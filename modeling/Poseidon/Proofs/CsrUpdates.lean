import Poseidon.Proofs.CsrRows
import Mathlib.Algebra.BigOperators.Group.List.Basic
import Mathlib.Algebra.Ring.Int.Defs
import Mathlib.Algebra.Ring.Nat

/-!
# When the update of a CSR splices the deltas

The arrays are those that the deltas ask for, once the update gets there. Two
things can go wrong before. The id of the last node is two less than the number
of offsets, and a CSR without nodes has one offset: the id is then that of no
node, every node counts as one that the CSR has, and its offsets are read
outside of the array. And the counters for the size of the new arrays are of
type `int`, so they can overflow, or ask for more than a vector can reserve.
-/

namespace Poseidon

variable {φ δ : Type}

/-- What the update asks for: the rows of the map, the old rows of the other
nodes, and empty rows in between. -/
structure Spliced (narrow : δ → φ) (old : CsrArrays φ) (deltas : OrdMap Nat (Delta δ))
    (csr : CsrArrays φ) : Prop where
  wellFormed : csr.WellFormed
  delta : ∀ e ∈ deltas.entries, csr.row e.1 = some (e.2.row narrow)
  kept : ∀ n, n < old.nodes → deltas.lookup n = none → csr.row n = old.row n
  gap : ∀ n, old.nodes ≤ n → deltas.lookup n = none → n < csr.nodes → csr.row n = some []
  nodes : ∀ n, n < csr.nodes ↔ n < old.nodes ∨ ∃ e ∈ deltas.entries, n ≤ e.1

namespace Csr

/-- The difference that a node makes to the number of edges, as it is
counted. -/
def rowDiff (old : CsrArrays φ) (e : Nat × Delta δ) : Int :=
  toInt e.2.ids.length - toInt ((old.row e.1).getD []).length

/-- The entries of the map for nodes that the CSR has. -/
def updated (old : CsrArrays φ) (deltas : OrdMap Nat (Delta δ)) : List (Nat × Delta δ) :=
  deltas.entries.filter fun e => e.1 < old.nodes

/-- The entries for nodes after them. -/
def appended (old : CsrArrays φ) (deltas : OrdMap Nat (Delta δ)) : List (Nat × Delta δ) :=
  deltas.entries.filter fun e => old.nodes ≤ e.1

/-- The counters do not overflow, and a vector can have the sizes that they
give. -/
structure CountersFit (old : CsrArrays φ) (deltas : OrdMap Nat (Delta δ)) : Prop where
  diff : ∀ e ∈ updated old deltas, IsInt (rowDiff old e)
  sums : ∀ ds, ds <+: updated old deltas → IsInt (ds.map (rowDiff old)).sum
  nodes : (appended old deltas).length < 2 ^ 31
  offsets : (old.rowOffsets.length + (appended old deltas).length) % 2 ^ 64 ≤ maxSize 8
  edges : (old.colIndices.length + ((updated old deltas).map (rowDiff old)).sum +
    toInt (((appended old deltas).map fun e => e.2.ids.length).sum : Nat)) % 2 ^ 64 ≤ maxSize 8

variable {old : CsrArrays φ} {rows : List (List (Nat × φ))} {ds : List (Nat × Delta δ)}

theorem ok_bind {α β : Type} (a : α) (f : α → Except CsrErr β) : (.ok a >>= f) = f a := rfl

theorem error_bind {α β : Type} (e : CsrErr) (f : α → Except CsrErr β) :
    (.error e >>= f) = .error e := rfl

theorem checkInt_pos {n : Int} (h : IsInt n) : checkInt n = .ok n := by
  rw [checkInt, if_pos h]

theorem checkInt_neg {n : Int} (h : ¬IsInt n) : checkInt n = .error .undefined := by
  rw [checkInt, if_neg h]

/-- The differences are those of the lengths of the rows. -/
theorem edgeDiff_cons (hold : Holds old rows) {e : Nat × Delta δ} (hlt : e.1 < rows.length)
    (sum : Int) : edgeDiff old (e :: ds) sum =
      checkInt (rowDiff old e) >>= fun diff =>
        checkInt (sum + diff) >>= fun sum => edgeDiff old ds sum := by
  obtain ⟨nid, delta⟩ := e
  have hlen : ((old.row nid).getD []).length =
      Compressed.start rows (nid + 1) - Compressed.start rows nid := by
    rw [hold.row, List.getElem?_eq_getElem hlt, Compressed.start_succ hlt,
      Nat.add_sub_cancel_left]
    rfl
  rw [edgeDiff, hold.elem hlt, hold.elem (Nat.le_of_lt hlt), ok_bind, ok_bind, rowDiff, hlen]

/-- The sums of the first numbers of a list. -/
theorem forall_prefix_cons {α : Type} {p : Int → Prop} {f : α → Int} {e : α} {l : List α}
    {sum : Int} : (∀ es, es <+: e :: l → es ≠ [] → p (sum + (es.map f).sum)) ↔
      p (sum + f e) ∧ ∀ es, es <+: l → es ≠ [] → p (sum + f e + (es.map f).sum) := by
  constructor
  · refine fun h => ⟨?_, fun es hes hne => ?_⟩
    · have hone := h [e] (List.prefix_cons_iff.mpr (.inr ⟨[], rfl, List.nil_prefix⟩))
        (List.cons_ne_nil _ _)
      rw [List.map_singleton, List.sum_singleton] at hone
      exact hone
    · have hone := h (e :: es) (List.prefix_cons_iff.mpr (.inr ⟨es, rfl, hes⟩))
        (List.cons_ne_nil _ _)
      rw [List.map_cons, List.sum_cons, ← Int.add_assoc] at hone
      exact hone
  · rintro ⟨hone, h⟩ es hes hne
    obtain rfl | ⟨es', rfl, hes'⟩ := List.prefix_cons_iff.mp hes
    · exact absurd rfl hne
    · rw [List.map_cons, List.sum_cons, ← Int.add_assoc]
      by_cases hnil : es' = []
      · rw [hnil, List.map_nil, List.sum_nil, Int.add_zero]
        exact hone
      · exact h es' hes' hnil

/-- The loop over the updated nodes gives the sum, if it does not overflow. -/
theorem edgeDiff_eq_ok (hold : Holds old rows) (hlt : ∀ e ∈ ds, e.1 < rows.length) {sum s : Int} :
    edgeDiff old ds sum = .ok s ↔ s = sum + (ds.map (rowDiff old)).sum ∧
      (∀ e ∈ ds, IsInt (rowDiff old e)) ∧
      ∀ es, es <+: ds → es ≠ [] → IsInt (sum + (es.map (rowDiff old)).sum) := by
  induction ds generalizing sum with
  | nil => simp [edgeDiff, eq_comm]
  | cons e ds ih =>
      have hlt' := fun e he => hlt e (List.mem_cons_of_mem _ he)
      rw [edgeDiff_cons hold (hlt e List.mem_cons_self), forall_prefix_cons, List.forall_mem_cons]
      by_cases hfit : IsInt (rowDiff old e)
      · rw [checkInt_pos hfit]
        by_cases hsum : IsInt (sum + rowDiff old e)
        · rw [ok_bind, checkInt_pos hsum, ok_bind, ih hlt', List.map_cons, List.sum_cons,
            ← Int.add_assoc, and_iff_right hfit,
            and_iff_right hsum]
        · rw [ok_bind, checkInt_neg hsum, error_bind]
          exact ⟨fun h => (by cases h), fun h => absurd h.2.2.1 hsum⟩
      · rw [checkInt_neg hfit, error_bind]
        exact ⟨fun h => (by cases h), fun h => absurd h.2.1.1 hfit⟩

/-- The loop over the new nodes. -/
theorem newCounts_eq_ok {nodes edges : Int} {c : Int × Int} (h0 : 0 ≤ nodes)
    (h1 : nodes < 2 ^ 31) (he : toInt edges = edges) :
    newCounts ds nodes edges = .ok c ↔ nodes + ds.length < 2 ^ 31 ∧
      c = (nodes + ds.length, toInt (edges + ((ds.map fun e => e.2.ids.length).sum : Nat))) := by
  induction ds generalizing nodes edges with
  | nil =>
      rw [newCounts, List.length_nil, List.map_nil, List.sum_nil, Int.natCast_zero, Int.add_zero,
        Int.add_zero, he, Except.ok.injEq, and_iff_right h1]
      exact eq_comm
  | cons e ds ih =>
      obtain ⟨nid, delta⟩ := e
      rw [newCounts]
      by_cases hone : nodes + 1 < 2 ^ 31
      · have hfit : IsInt (nodes + 1) := ⟨by omega, hone⟩
        have hmod : toInt (toInt (edges + delta.ids.length)) = toInt (edges + delta.ids.length) :=
          Int.bmod_bmod
        have hnodes : nodes + 1 + (ds.length : Int) = nodes + (ds.length + 1 : Nat) := by omega
        have hedges : ∀ n : Nat, toInt (toInt (edges + delta.ids.length) + n) =
            toInt (edges + (delta.ids.length + n : Nat)) := by
          intro n
          rw [toInt, toInt, toInt, Int.bmod_add_bmod, Int.natCast_add, Int.add_assoc]
        rw [checkInt_pos hfit, ok_bind, ih (by omega) hone hmod, List.length_cons, List.map_cons,
          List.sum_cons, hnodes, hedges]
      · have hfit : ¬IsInt (nodes + 1) := fun h => hone h.2
        rw [checkInt_neg hfit, error_bind]
        refine ⟨fun h => (by cases h), fun h => ?_⟩
        rw [List.length_cons] at h
        omega

variable {deltas : OrdMap Nat (Delta δ)} {narrow : δ → φ} {csr : CsrArrays φ}

theorem reserve_eq_ok {bytes : Nat} {n : Int} {u : Unit} :
    reserve bytes n = .ok u ↔ n % 2 ^ 64 ≤ maxSize bytes := by
  rw [reserve]
  split
  · next h => exact iff_of_true rfl h
  · next h => exact iff_of_false (fun hok => by cases hok) h

theorem bind_eq_ok {α β : Type} {x : Except CsrErr α} {f : α → Except CsrErr β} {b : β}
    (h : (x >>= f) = .ok b) : ∃ a, x = .ok a ∧ f a = .ok b := by
  cases x with
  | error e => cases h
  | ok a => exact ⟨a, rfl, h⟩

/-- With a node in the CSR, the map is split at the end of the CSR. -/
theorem split_updated (deltas : OrdMap Nat (Delta δ)) (hold : Holds old rows) (hne : rows ≠ []) :
    deltas.upTo (lastNodeId old) = updated old deltas ∧
      deltas.beyond (lastNodeId old) = appended old deltas := by
  have hpos : 0 < rows.length := List.length_pos_iff.mpr hne
  have hlast : lastNodeId old = rows.length - 1 := by
    rw [lastNodeId, hold.length, if_pos (by omega)]
    omega
  obtain ⟨hupTo, hbeyond⟩ := OrdMap.takeWhile_of_sorted deltas.sorted (lastNodeId old)
  rw [OrdMap.upTo, OrdMap.beyond, hupTo, hbeyond, updated, appended, hold.nodes, hlast]
  refine ⟨List.filter_congr fun e _ => ?_, List.filter_congr fun e _ => ?_⟩
  · rw [decide_eq_decide]
    omega
  · rw [decide_eq_decide]
    omega

/-- Without one, the first access to the offsets is outside of the array. -/
theorem updateWithDelta_empty (hold : Holds old []) (hne : deltas.entries ≠ [])
    (hid : ∀ e ∈ deltas.entries, e.1 < UNKNOWN) (new : CsrArrays φ) :
    updateWithDelta narrow old deltas new = .error .undefined := by
  have hlast : lastNodeId old = UNKNOWN := by
    rw [lastNodeId, hold.length]
    rfl
  have hall : deltas.upTo (lastNodeId old) = deltas.entries := by
    rw [OrdMap.upTo, (OrdMap.takeWhile_of_sorted deltas.sorted _).1, hlast]
    exact List.filter_eq_self.mpr fun e he => decide_eq_true (Nat.le_of_lt (hid e he))
  have hdiff : edgeDiff old deltas.entries 0 = .error .undefined := by
    obtain ⟨e, ds, hcons⟩ := List.exists_cons_of_ne_nil hne
    rw [hcons, edgeDiff, elem, hold.offsets]
    rfl
  rw [updateWithDelta, hall, hdiff]
  rfl

/-- The counters have not overflown if the update ends with arrays. -/
theorem countersFit_of_ok (hold : Holds old rows) (hne : rows ≠ []) {new : CsrArrays φ}
    (h : updateWithDelta narrow old deltas new = .ok csr) : CountersFit old deltas := by
  obtain ⟨hupTo, hbeyond⟩ := split_updated deltas hold hne
  have hlt : ∀ e ∈ updated old deltas, e.1 < rows.length := by
    intro e he
    simpa [hold.nodes] using (List.mem_filter.mp he).2
  rw [updateWithDelta, hupTo, hbeyond] at h
  obtain ⟨sum, hsum, h⟩ := bind_eq_ok h
  obtain ⟨⟨numNewNodes, numNewEdges⟩, hcounts, h⟩ := bind_eq_ok h
  obtain ⟨_, hoffs, h⟩ := bind_eq_ok h
  obtain ⟨_, hedges, -⟩ := bind_eq_ok h
  obtain ⟨rfl, hfit, hsums⟩ := (edgeDiff_eq_ok hold hlt).mp hsum
  obtain ⟨hnodes, heq⟩ := (newCounts_eq_ok (Int.le_refl 0) (by decide) (by decide)).mp hcounts
  rw [Prod.mk.injEq] at heq
  rw [reserve_eq_ok, heq.1] at hoffs
  rw [reserve_eq_ok, heq.2, Int.zero_add, Int.zero_add] at hedges
  refine ⟨hfit, fun ds hds => ?_, by omega, ?_, ?_⟩
  · by_cases hnil : ds = []
    · rw [hnil, List.map_nil, List.sum_nil]
      decide
    · have hone := hsums ds hds hnil
      rw [Int.zero_add] at hone
      exact hone
  · omega
  · exact hedges

/-- The row that a node has after the update. -/
def splicedRow (narrow : δ → φ) (rows : List (List (Nat × φ))) (deltas : OrdMap Nat (Delta δ))
    (n : Nat) : List (Nat × φ) :=
  match deltas.lookup n with
  | some d => d.row narrow
  | none => rows[n]?.getD []

theorem splicedRow_of_mem {e : Nat × Delta δ} (he : e ∈ deltas.entries) :
    splicedRow narrow rows deltas e.1 = e.2.row narrow := by
  rw [splicedRow, OrdMap.lookup_eq_some.mpr he]

theorem splicedRow_of_none {n : Nat} (hn : deltas.lookup n = none) :
    splicedRow narrow rows deltas n = rows[n]?.getD [] := by
  rw [splicedRow, hn]

theorem lookup_eq_none {n : Nat} : deltas.lookup n = none ↔ ∀ e ∈ deltas.entries, e.1 ≠ n := by
  constructor
  · rintro h e he rfl
    rw [OrdMap.lookup_eq_some.mpr he] at h
    cases h
  · intro h
    cases hn : deltas.lookup n with
    | none => rfl
    | some d => exact absurd rfl (h (n, d) (OrdMap.lookup_eq_some.mp hn))

theorem firstRows_getElem? {g : Nat → List (Nat × φ)} {m n : Nat} :
    (firstRows g m)[n]? = if n < m then some (g n) else none := by
  rw [firstRows, List.getElem?_map]
  split
  · next h => rw [List.getElem?_range h]; rfl
  · next h => rw [List.getElem?_eq_none (by rw [List.length_range]; omega)]; rfl

theorem length_firstRows {g : Nat → List (Nat × φ)} {m : Nat} : (firstRows g m).length = m := by
  rw [firstRows, List.length_map, List.length_range]

/-- Arrays with these rows up to the last one that is needed are the result. -/
theorem spliced_of_holds (hold : Holds old rows) {m : Nat}
    (h : Holds csr (firstRows (splicedRow narrow rows deltas) m))
    (hm : ∀ n, n < m ↔ n < rows.length ∨ ∃ e ∈ deltas.entries, n ≤ e.1) :
    Spliced narrow old deltas csr := by
  have hrow : ∀ n, n < m → csr.row n = some (splicedRow narrow rows deltas n) := by
    intro n hn
    rw [h.row, firstRows_getElem?, if_pos hn]
  have hnodes : csr.nodes = m := by rw [h.nodes, length_firstRows]
  refine ⟨h.wellFormed, fun e he => ?_, fun n hn hnone => ?_, fun n hn hnone hlt => ?_,
    fun n => ?_⟩
  · rw [hrow e.1 ((hm e.1).mpr (.inr ⟨e, he, Nat.le_refl _⟩)), splicedRow_of_mem he]
  · rw [hold.nodes] at hn
    rw [hrow n ((hm n).mpr (.inl hn)), splicedRow_of_none hnone, hold.row,
      List.getElem?_eq_getElem hn]
    rfl
  · rw [hold.nodes] at hn
    rw [hrow n (hnodes ▸ hlt), splicedRow_of_none hnone, List.getElem?_eq_none hn]
    rfl
  · rw [hnodes, hold.nodes, hm]

theorem mem_updated (hold : Holds old rows) {e : Nat × Delta δ} :
    e ∈ updated old deltas ↔ e ∈ deltas.entries ∧ e.1 < rows.length := by
  rw [updated, List.mem_filter, decide_eq_true_eq, hold.nodes]

theorem mem_appended (hold : Holds old rows) {e : Nat × Delta δ} :
    e ∈ appended old deltas ↔ e ∈ deltas.entries ∧ rows.length ≤ e.1 := by
  rw [appended, List.mem_filter, decide_eq_true_eq, hold.nodes]

/-- The update splices the rows when the counters fit. -/
theorem updateWithDelta_spliced (hold : Holds old rows) (hne : rows ≠ [])
    (hfit : CountersFit old deltas) :
    ∃ csr, updateWithDelta narrow old deltas ⟨[], [], []⟩ = .ok csr ∧
      Spliced narrow old deltas csr := by
  obtain ⟨hupTo, hbeyond⟩ := split_updated deltas hold hne
  have hsum := (edgeDiff_eq_ok hold fun e he => ((mem_updated hold).mp he).2).mpr
    ⟨rfl, hfit.diff, fun es hes _ => by rw [Int.zero_add]; exact hfit.sums es hes⟩
  have hcounts : newCounts (appended old deltas) 0 0 = .ok (0 + (appended old deltas).length,
      toInt (0 + (((appended old deltas).map fun e => e.2.ids.length).sum : Nat))) := by
    have hnodes := hfit.nodes
    exact (newCounts_eq_ok (Int.le_refl 0) (by decide) (by decide)).mpr ⟨by omega, rfl⟩
  have hreserve : reserve 8 (old.rowOffsets.length + (0 + (appended old deltas).length)) =
      .ok () := by
    have hoffs := hfit.offsets
    rw [reserve_eq_ok]
    omega
  have hedges : ∀ bytes, bytes = 8 ∨ bytes = 4 → reserve bytes (old.colIndices.length +
      (0 + ((updated old deltas).map (rowDiff old)).sum) +
        toInt (0 + (((appended old deltas).map fun e => e.2.ids.length).sum : Nat))) =
      .ok () := by
    intro bytes hbytes
    have hmax : maxSize 8 ≤ maxSize bytes := by
      rcases hbytes with rfl | rfl
      · exact Nat.le_refl _
      · decide
    have hfits := hfit.edges
    rw [reserve_eq_ok, Int.zero_add, Int.zero_add]
    omega
  have hstart : Holds ⟨[] ++ [0], [], []⟩ (firstRows (splicedRow narrow rows deltas) 0) :=
    ⟨rfl, rfl, rfl⟩
  have hkeep : ∀ i, i < rows.length → (∀ e ∈ updated old deltas, e.1 ≠ i) →
      rows[i]? = some (splicedRow narrow rows deltas i) := by
    intro i hi hkeys
    have hnone : deltas.lookup i = none := by
      refine lookup_eq_none.mpr fun e he heq => ?_
      exact hkeys e ((mem_updated hold).mpr ⟨he, heq ▸ hi⟩) heq
    rw [splicedRow_of_none hnone, List.getElem?_eq_getElem hi]
    rfl
  obtain ⟨n, csr1, hupdate, -, hn, hkeys, h1⟩ :=
    updateRows_holds narrow (updated old deltas) hold hstart
    (deltas.sorted.sublist List.filter_sublist) (fun _ _ => Nat.zero_le _)
    (fun e he => ((mem_updated hold).mp he).2)
    (fun e he => splicedRow_of_mem ((mem_updated hold).mp he).1) (fun i _ => hkeep i)
    (Nat.zero_le _)
  obtain ⟨offs, hoffs, h2⟩ := copyRest_holds hold h1 hn fun i hi hlt =>
    hkeep i hlt fun e he => Nat.ne_of_lt (Nat.lt_of_lt_of_le (hkeys e he) hi)
  obtain ⟨m, h3, hm⟩ := appendRows_holds narrow (appended old deltas) h2
    (deltas.sorted.sublist List.filter_sublist) (fun e he => ((mem_appended hold).mp he).2)
    (fun e he => splicedRow_of_mem ((mem_appended hold).mp he).1) fun i hi hkeys' => by
      have hnone : deltas.lookup i = none := by
        refine lookup_eq_none.mpr fun e he heq => ?_
        exact hkeys' e ((mem_appended hold).mpr ⟨he, heq ▸ hi⟩) heq
      rw [splicedRow_of_none hnone, List.getElem?_eq_none hi]
      rfl
  refine ⟨_, ?_, spliced_of_holds hold h3 fun i => ?_⟩
  · rw [updateWithDelta, hupTo, hbeyond, hsum, ok_bind, hcounts, ok_bind]
    simp only []
    rw [hreserve, ok_bind, hedges 8 (.inl rfl), ok_bind, hedges 4 (.inr rfl), ok_bind, hupdate,
      ok_bind]
    simp only []
    rw [hold.elem hn, ok_bind, hold.ids, hold.vals, copyRange_rest Prod.fst hn, ok_bind,
      copyRange_rest Prod.snd hn, ok_bind, hold.length, Nat.add_sub_cancel, hoffs, ok_bind,
      Nat.max_eq_right hn]
  · rw [hm]
    constructor
    · rintro (hlt | ⟨e, he, hle⟩)
      · exact .inl hlt
      · exact .inr ⟨e, ((mem_appended hold).mp he).1, hle⟩
    · rintro (hlt | ⟨e, he, hle⟩)
      · exact .inl hlt
      · rcases Nat.lt_or_ge e.1 rows.length with hlt | hge
        · exact .inl (Nat.lt_of_le_of_lt hle hlt)
        · exact .inr ⟨e, (mem_appended hold).mpr ⟨he, hge⟩, hle⟩

end Csr

/-- For every well-formed CSR and every map of deltas that is not empty, the
update splices the deltas exactly when the CSR has a node and the counters
fit. -/
theorem csr_splice_iff (narrow : δ → φ) (old : CsrArrays φ) (hold : old.WellFormed)
    (deltas : OrdMap Nat (Delta δ)) (hne : deltas.entries ≠ [])
    (hid : ∀ e ∈ deltas.entries, e.1 < UNKNOWN) :
    (∃ csr, Csr.updateWithDelta narrow old deltas ⟨[], [], []⟩ = .ok csr ∧
      Spliced narrow old deltas csr) ↔ old.nodes ≠ 0 ∧ Csr.CountersFit old deltas := by
  obtain ⟨rows, hrows⟩ := Csr.exists_rows hold
  rw [hrows.nodes, Ne, List.length_eq_zero_iff]
  constructor
  · rintro ⟨csr, hok, -⟩
    have hsome : rows ≠ [] := by
      rintro rfl
      rw [Csr.updateWithDelta_empty hrows hne hid] at hok
      cases hok
    exact ⟨hsome, Csr.countersFit_of_ok hrows hsome hok⟩
  · rintro ⟨hsome, hfit⟩
    exact Csr.updateWithDelta_spliced hrows hsome hfit

/-- Three nodes, with new neighbours for the one in the middle, and a new node
behind a gap. -/
theorem csr_splice_iff_gap : ∃ csr, Csr.updateWithDelta id ⟨[0, 2, 3, 3], [1, 2, 0], [7, 8, 9]⟩
      ⟨[(1, ⟨[2, 4], [5, 6], rfl⟩), (4, ⟨[0], [3], rfl⟩)], by decide⟩ ⟨[], [], []⟩ = .ok csr ∧
    Spliced id ⟨[0, 2, 3, 3], [1, 2, 0], [7, 8, 9]⟩
      ⟨[(1, ⟨[2, 4], [5, 6], rfl⟩), (4, ⟨[0], [3], rfl⟩)], by decide⟩ csr := by
  refine (csr_splice_iff (δ := Nat) (φ := Nat) id ⟨[0, 2, 3, 3], [1, 2, 0], [7, 8, 9]⟩
    ⟨⟨rfl, by decide, rfl⟩, rfl⟩ ⟨[(1, ⟨[2, 4], [5, 6], rfl⟩), (4, ⟨[0], [3], rfl⟩)], by decide⟩
    (by decide) (by decide)).mpr ⟨by decide, ?_⟩
  refine ⟨by decide, fun ds hds => ?_, by decide, by decide, by decide⟩
  obtain rfl | ⟨_, rfl, hnil⟩ := List.prefix_cons_iff.mp hds
  · decide
  · obtain rfl := List.prefix_nil.mp hnil
    decide

/-- The first update of the CSR of an empty graph. -/
theorem csr_without_nodes : ¬∃ csr, Csr.updateWithDelta (id : Nat → Nat) ⟨[0], [], []⟩
      ⟨[(0, ⟨[], [], rfl⟩)], by decide⟩ ⟨[], [], []⟩ = .ok csr ∧
    Spliced (id : Nat → Nat) ⟨[0], [], []⟩ ⟨[(0, ⟨[], [], rfl⟩)], by decide⟩ csr := by
  rintro ⟨csr, hok, -⟩
  cases hok

end Poseidon
