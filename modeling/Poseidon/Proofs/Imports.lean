import Mathlib.Data.Set.List
import Poseidon.Proofs.TypedLoad
import Poseidon.Store.Import

/-!
# Which rows are loaded as they are

Types and values of the first row stay in the vectors, without gaps, and every
row is loaded with them. So a file is loaded as it is when the fields of the
first row fit the names, and all other rows have the same properties.
-/

namespace Poseidon

open Numeral Wp PropertyList

variable {c : Conversions} {connected : List String → Nat × Nat} {label : Nat} {names : List Nat}
  {db db' : ImportDb} {slot fromId toId : Nat} {columns : List (Column String)}
  {items : List PItem}

/-! ## One relationship -/

/-- The list has these items, but for some that have been lost. -/
def Saved (t : PropertyList) (pl : Nat) (items : List PItem) (complete : Prop) : Prop :=
  ∃ ids groups lost m, t.Lists pl ids groups ∧
    (groups.flatten ++ lost).Perm (items ++ List.replicate m PItem.filler) ∧
    (∀ p ∈ lost, p ∈ items) ∧ (lost = [] ↔ complete)

/-- The relationship in the slot is between these nodes. -/
structure Between (r : RshipData) (fromId toId label : Nat) : Prop where
  src : r.srcNode = fromId
  dest : r.destNode = toId
  label : r.rshipLabel = label

/-- What a load leaves as it was. -/
structure LoadedInto (db db' : ImportDb) (slot : Nat) : Prop where
  nodes : ∀ i, (db.nodes i).isSome = true → (db'.nodes i).isSome = true
  rships : ∀ i, i ≠ slot → db'.rships i = db.rships i
  grows : PropertyList.Grows db.properties db'.properties
  bounded : db'.properties.Bounded

/-- All sets of the row are full, or its last column is not empty. -/
def FillsSets (c : Conversions) (columns : List (Column String)) : Prop :=
  EndsEmpty (stringItem c.convert) columns →
    (columns.filterMap (stringItem c.convert)).length % 3 = 0

theorem getNode_wp {Q : NodeData → ImportDb → Prop} {E : ImportErr → ImportDb → Prop} {id : Nat}
    (h : (db.nodes id).isSome = true) (hQ : ∀ n, Q n db) : wp (getNode id) Q E db := by
  obtain ⟨n, hn⟩ := Option.isSome_iff_exists.mp h
  simp only [getNode, wp_bind, wp_get, hn]
  exact hQ n

theorem appendRship_wp {Q : RshipData → ImportDb → Prop} {E : ImportErr → ImportDb → Prop}
    (hfree : db.rships slot = none) (hslot : slot ≠ UNKNOWN)
    (hQ : Q ⟨slot, fromId, toId, UNKNOWN, UNKNOWN, UNKNOWN, label⟩
      (db.setRship slot ⟨slot, fromId, toId, UNKNOWN, UNKNOWN, UNKNOWN, label⟩)) :
    wp (appendRship slot label fromId toId) Q E db := by
  simp only [appendRship, wp_bind, wp_get]
  refine wp_ite (fun hused => ?_) fun _ => hQ
  rcases hused with hused | hunknown
  · rw [hfree] at hused
    cases hused
  · exact absurd hunknown hslot

theorem saveProperties_wp {Q : Nat → ImportDb → Prop} {E : ImportErr → ImportDb → Prop}
    (hb : db.properties.Bounded)
    (hitems : columns.filterMap (stringItem c.convert) = items.map .ok)
    (hQ : ∀ pid t, PropertyList.Grows db.properties t → t.Bounded →
      Saved t pid items (FillsSets c columns) → Q pid { db with properties := t }) :
    wp (saveProperties c slot columns) Q E db := by
  obtain ⟨pid, t, hload, new, sets, lost, m, hnew, hperm, hsub, hlost⟩ :=
    wp_exists (appendTypedLoop_wp slot UNKNOWN columns [] hitems (Nat.zero_add _)
      (Nat.zero_lt_succ 2) hb)
  have hsets := hnew.lists (lists_unknown db.properties)
  rw [List.append_nil, List.append_nil] at hsets
  have hload' : appendTypedStrings c.convert slot columns db.properties = .ok pid t := hload
  simp only [saveProperties, wp_bind, wp_get, hload', wp_set, wp_pure]
  refine hQ pid t hnew.grows hnew.bounded ⟨new, sets, lost, m, hsets, hperm, hsub, ?_⟩
  rw [hlost, FillsSets, hitems, List.length_map, List.length_nil, Nat.zero_add]

theorem saved_empty (t : PropertyList) : Saved t UNKNOWN [] (FillsSets c []) :=
  ⟨[], [], [], 0, lists_unknown t, List.Perm.nil, fun _ h => h, iff_of_true rfl fun _ => rfl⟩

theorem isSome_update {α : Type} {f : Nat → Option α} {i j : Nat} {a : α}
    (h : (f j).isSome = true) : (Function.update f i (some a) j).isSome = true := by
  by_cases hj : j = i
  · rw [hj, Function.update_self]
    rfl
  · rw [Function.update_of_ne hj, h]

theorem linkRship_wp {r : RshipData} (hfrom : (db.nodes fromId).isSome = true)
    (hto : (db.nodes toId).isSome = true) :
    wp (linkRship slot fromId toId r)
      (fun _ db' => (∀ i, (db.nodes i).isSome = true → (db'.nodes i).isSome = true) ∧
        (∀ i, i ≠ slot → db'.rships i = db.rships i) ∧ db'.properties = db.properties ∧
        ∃ r', db'.rships slot = some r' ∧ r'.propertyList = r.propertyList ∧
          Between r' r.srcNode r.destNode r.rshipLabel)
      (fun _ _ => False) db := by
  rw [linkRship]
  simp only [wp_bind, wp_modify]
  refine getNode_wp hfrom fun n => getNode_wp (isSome_update hto) fun n' => ?_
  refine ⟨fun i hi => isSome_update (isSome_update hi),
    fun i hi => Function.update_of_ne hi _ _, rfl,
    _, Function.update_self _ _ _, ?_, ?_⟩
  · split
    · split
      · rfl
      · rfl
    · split
      · rfl
      · rfl
  · split
    · split
      · exact ⟨rfl, rfl, rfl⟩
      · exact ⟨rfl, rfl, rfl⟩
    · split
      · exact ⟨rfl, rfl, rfl⟩
      · exact ⟨rfl, rfl, rfl⟩

theorem importTypedRelationship_wp (hfrom : (db.nodes fromId).isSome = true)
    (hto : (db.nodes toId).isSome = true) (hfree : db.rships slot = none) (hslot : slot ≠ UNKNOWN)
    (hb : db.properties.Bounded)
    (hitems : columns.filterMap (stringItem c.convert) = items.map .ok) :
    wp (importTypedRelationship c slot fromId toId label columns)
      (fun _ db' => LoadedInto db db' slot ∧ ∃ r, db'.rships slot = some r ∧
        Between r fromId toId label ∧ Saved db'.properties r.propertyList items
        (FillsSets c columns))
      (fun _ _ => False) db := by
  -- the end of the function, whatever the list of properties is
  have hend : ∀ (pid : Nat) (t : PropertyList), PropertyList.Grows db.properties t → t.Bounded →
      Saved t pid items (FillsSets c columns) →
      wp (linkRship slot fromId toId ⟨slot, fromId, toId, UNKNOWN, UNKNOWN, pid, label⟩)
        (fun _ db' => LoadedInto db db' slot ∧ ∃ r, db'.rships slot = some r ∧
          Between r fromId toId label ∧ Saved db'.properties r.propertyList items
          (FillsSets c columns))
        (fun _ _ => False)
        { db.setRship slot ⟨slot, fromId, toId, UNKNOWN, UNKNOWN, UNKNOWN, label⟩ with
        properties := t } := by
    intro pid t hgrows hbounded hsaved
    refine wp_mono (linkRship_wp hfrom hto) ?_ fun _ _ h => h
    rintro _ db' ⟨hnodes, hother, hprops, r, hr, hpl, hends⟩
    have hprops' : db'.properties = t := hprops
    rw [← hprops'] at hgrows hbounded
    refine ⟨⟨hnodes, fun i hi => ?_, hgrows, hbounded⟩, r, hr, hends, ?_⟩
    · rw [hother i hi]
      exact Function.update_of_ne hi _ _
    · rw [hprops, hpl]
      exact hsaved
  rw [importTypedRelationship]
  simp only [wp_bind]
  refine getNode_wp hfrom fun _ => getNode_wp hto fun _ => appendRship_wp hfree hslot ?_
  refine wp_ite (fun hempty => ?_) fun _ => ?_
  · obtain rfl := List.isEmpty_iff.mp hempty
    obtain rfl : items = [] := List.map_eq_nil_iff.mp hitems.symm
    exact hend UNKNOWN db.properties (.refl _) hb (saved_empty _)
  · exact saveProperties_wp hb hitems hend

/-! ## All rows -/

/-- The nodes of the rows are there, and the record vector hands out a new slot
for each of them. -/
structure Resolves (connected : List String → Nat × Nat) (db : ImportDb) (rows : List CsvRow) :
    Prop where
  nodes : ∀ r ∈ rows, (db.nodes (connected r.row).1).isSome = true ∧
    (db.nodes (connected r.row).2).isSome = true
  free : ∀ r ∈ rows, db.rships r.slot = none ∧ r.slot ≠ UNKNOWN
  distinct : (rows.map CsvRow.slot).Nodup

/-- The relationship of a row, with these items. -/
def Stored (c : Conversions) (connected : List String → Nat × Nat) (label : Nat) (names : List Nat)
    (cells : List TypedField) (items : List PItem) (db : ImportDb) (row : CsvRow) : Prop :=
  ∃ r, db.rships row.slot = some r ∧
    Between r (connected row.row).1 (connected row.row).2 label ∧
    Saved db.properties r.propertyList items (FillsSets c (columnsOf names cells))

variable {cells : List TypedField} {row : CsvRow} {rows : List CsvRow} {num : Nat}
  {t t' : PropertyList}
  {pl : Nat} {complete : Prop}

theorem Saved.grows (h : Saved t pl items complete) (hg : PropertyList.Grows t t') :
    Saved t' pl items complete := by
  obtain ⟨ids, groups, lost, m, hlists, hrest⟩ := h
  exact ⟨ids, groups, lost, m, hlists.grows hg, hrest⟩

theorem Stored.loaded (h : Stored c connected label names cells items db row)
    (hsame : db'.rships row.slot = db.rships row.slot)
    (hg : PropertyList.Grows db.properties db'.properties) :
    Stored c connected label names cells items db' row := by
  obtain ⟨r, hr, hends, hsaved⟩ := h
  exact ⟨r, by rw [hsame, hr], hends, hsaved.grows hg⟩

/-- One turn of the loop, with the vectors as they are when the row is loaded. -/
theorem importRow_step {old : List TypedField} (hres : Resolves connected db (row :: rows))
    (hb : db.properties.Bounded)
    (hcells : (if num = 1 then fillCells row.fields old else old) = cells)
    (hitems : (columnsOf names cells).filterMap (stringItem c.convert) = items.map .ok) :
    ∃ db', importRow c connected label names ⟨db, num, old⟩ row = ⟨db', num + 1, cells⟩ ∧
      LoadedInto db db' row.slot ∧ Stored c connected label names cells items db' row ∧
      Resolves connected db' rows := by
  obtain ⟨hnodes, hnodes'⟩ := hres.nodes row List.mem_cons_self
  obtain ⟨hfree, hslot⟩ := hres.free row List.mem_cons_self
  obtain ⟨hnew, hdistinct⟩ := List.nodup_cons.mp hres.distinct
  obtain ⟨id, db', hrun, hload, hstored⟩ :=
    wp_exists (@importTypedRelationship_wp c label db row.slot _ _ _ items hnodes hnodes' hfree
    hslot hb hitems)
  refine ⟨db', ?_, hload, hstored, fun r hr => ?_, fun r hr => ?_, hdistinct⟩
  · rw [importRow]
    simp only [hcells, hrun]
  · obtain ⟨hsrc, hdest⟩ := hres.nodes r (List.mem_cons_of_mem _ hr)
    exact ⟨hload.nodes _ hsrc, hload.nodes _ hdest⟩
  · obtain ⟨hr', hunknown⟩ := hres.free r (List.mem_cons_of_mem _ hr)
    have hne : r.slot ≠ row.slot := by
      intro heq
      exact hnew (heq ▸ List.mem_map_of_mem hr)
    exact ⟨by rw [hload.rships _ hne, hr'], hunknown⟩

/-- After the first row the vectors stay as they are. -/
theorem foldl_importRow
    (hitems : (columnsOf names cells).filterMap (stringItem c.convert) = items.map .ok) :
    ∀ (rows : List CsvRow) (db : ImportDb) (num : Nat), 2 ≤ num → Resolves connected db rows →
      db.properties.Bounded →
      ∃ db', rows.foldl (importRow c connected label names) ⟨db, num, cells⟩ =
          ⟨db', num + rows.length, cells⟩ ∧
        (∀ i, i ∉ rows.map CsvRow.slot → db'.rships i = db.rships i) ∧
        PropertyList.Grows db.properties db'.properties ∧
        ∀ r ∈ rows, Stored c connected label names cells items db' r := by
  intro rows
  induction rows with
  | nil =>
      intro db num _ _ _
      exact ⟨db, rfl, fun _ _ => rfl, .refl _, fun r hr => absurd hr List.not_mem_nil⟩
  | cons row rows ih =>
      intro db num hnum hres hb
      have hnew := (List.nodup_cons.mp hres.distinct).1
      obtain ⟨db1, hstep, hload, hstored, hres1⟩ :=
        @importRow_step c connected label names db items cells row rows num cells hres hb
          (if_neg (by omega)) hitems
      obtain ⟨db', hrun, hother, hgrows, hall⟩ := ih db1 (num + 1) (by omega) hres1 hload.bounded
      refine ⟨db', ?_, fun i hi => ?_, hload.grows.trans hgrows, fun r hr => ?_⟩
      · rw [List.foldl_cons, hstep, hrun, List.length_cons]
        congr 1
        omega
      · rw [List.map_cons, List.mem_cons, not_or] at hi
        rw [hother i hi.2, hload.rships i hi.1]
      · rcases List.mem_cons.mp hr with rfl | hr
        · exact hstored.loaded (hother _ hnew) hgrows
        · exact hall r hr

/-! ## The fields of a row -/

def typedField (field : String) : TypedField := (getDatatype field, field)

/-- The fields of a row under the names of their own columns. -/
def ownColumns (names : List Nat) (row : CsvRow) : List (Column String) :=
  columnsOf names (row.fields.map typedField)

/-- The fields of a row that are not empty, under the first names. -/
def packedColumns (names : List Nat) (row : CsvRow) : List (Column String) :=
  columnsOf names ((row.fields.filter fun f => !f.isEmpty).map typedField)

/-- The properties for some columns, or exceptions. -/
def itemsOf (c : Conversions) (columns : List (Column String)) : List (Except StdError PItem) :=
  columns.filterMap (stringItem c.convert)

/-- Every field that is not empty has a value of the type that it looks like. -/
def Convertible (c : Conversions) (row : CsvRow) : Prop :=
  ∀ f ∈ row.fields, f.isEmpty = false → ∃ v, c.convert (getDatatype f) f = .ok v

theorem itemsOf_cons {k : Nat} (f : String) : itemsOf c
    (columnsOf (k :: names) (typedField f :: cells)) =
    if f.isEmpty then itemsOf c (columnsOf names cells)
    else PItem.ofString c.convert k (getDatatype f) f :: itemsOf c (columnsOf names cells) := by
  show (⟨k, getDatatype f, f⟩ :: columnsOf names cells).filterMap (stringItem c.convert) = _
  by_cases hf : f.isEmpty = true
  · have hitem : stringItem c.convert ⟨k, getDatatype f, f⟩ = none := if_pos hf
    rw [if_pos hf, List.filterMap_cons_none hitem]
    rfl
  · have hitem : stringItem c.convert ⟨k, getDatatype f, f⟩ =
        some (PItem.ofString c.convert k (getDatatype f) f) := if_neg hf
    rw [if_neg hf, List.filterMap_cons_some hitem]
    rfl

theorem itemsOf_columns {fields : List String} (names : List Nat)
    (h : ∀ f ∈ fields, f.isEmpty = false → ∃ v, c.convert (getDatatype f) f = .ok v) :
    ∃ items : List PItem, itemsOf c (columnsOf names (fields.map typedField)) = items.map .ok := by
  induction fields generalizing names with
  | nil => exact ⟨[], by cases names <;> rfl⟩
  | cons f fields ih =>
      obtain ⟨hf, hrest⟩ := List.forall_mem_cons.mp h
      cases names with
      | nil => exact ⟨[], rfl⟩
      | cons k names =>
          obtain ⟨items, hitems⟩ := ih names hrest
          rw [List.map_cons, itemsOf_cons, hitems]
          by_cases hempty : f.isEmpty = true
          · exact ⟨items, if_pos hempty⟩
          · obtain ⟨v, hv⟩ := hf (Bool.not_eq_true _ ▸ hempty)
            rw [if_neg hempty, PItem.ofString, hv]
            exact ⟨_ :: items, rfl⟩

theorem convertible_of_items {fields : List String} (hlen : fields.length = names.length)
    (h : itemsOf c (columnsOf names (fields.map typedField)) = items.map .ok) :
    ∀ f ∈ fields, f.isEmpty = false → ∃ v, c.convert (getDatatype f) f = .ok v := by
  induction fields generalizing names items with
  | nil => exact fun f hf => absurd hf List.not_mem_nil
  | cons f fields ih =>
      obtain ⟨k, names, rfl⟩ := List.exists_cons_of_length_eq_add_one hlen.symm
      have hlen' : fields.length = names.length := Nat.succ.inj hlen
      rw [List.map_cons, itemsOf_cons] at h
      refine List.forall_mem_cons.mpr ?_
      split at h
      · next hempty =>
          refine ⟨fun hne => ?_, ih hlen' h⟩
          rw [hempty] at hne
          cases hne
      · cases items with
        | nil => cases h
        | cons p items =>
            obtain ⟨hp, hrest⟩ := List.cons.inj h
            refine ⟨fun _ => ?_, ih hlen' hrest⟩
            rw [PItem.ofString] at hp
            cases hv : c.convert (getDatatype f) f with
            | ok v => exact ⟨v, rfl⟩
            | error e =>
                rw [hv] at hp
                cases hp

theorem itemsOf_length {fields : List String} (hlen : fields.length ≤ names.length) :
    (itemsOf c (columnsOf names (fields.map typedField))).length =
      (fields.filter fun f => !f.isEmpty).length := by
  induction fields generalizing names with
  | nil => cases names <;> rfl
  | cons f fields ih =>
      cases names with
      | nil => exact absurd hlen (Nat.not_succ_le_zero _)
      | cons k names =>
          rw [List.map_cons, itemsOf_cons]
          by_cases hf : f.isEmpty = true
          · rw [if_pos hf, List.filter_cons_of_neg (by simp [hf]), ih (Nat.le_of_succ_le_succ hlen)]
          · rw [if_neg hf, List.filter_cons_of_pos (by simp [hf]), List.length_cons,
              List.length_cons,
              ih (Nat.le_of_succ_le_succ hlen)]

/-- The first row leaves no gaps in the vectors. -/
theorem fillCells_eq (fields : List String) {n : Nat} (h : fields.length ≤ n) :
    fillCells fields (List.replicate n (.dcode, "")) =
      (fields.filter fun f => !f.isEmpty).map typedField ++
        List.replicate (n - (fields.filter fun f => !f.isEmpty).length) (.dcode, "") := by
  induction fields generalizing n with
  | nil => rfl
  | cons f fields ih =>
      obtain ⟨n, rfl⟩ : ∃ m, n = m + 1 := ⟨n - 1, by simp at h; omega⟩
      have hle : fields.length ≤ n := Nat.le_of_succ_le_succ h
      rw [List.replicate_succ, fillCells]
      by_cases hf : f.isEmpty = true
      · rw [if_pos hf, List.filter_cons_of_neg (by simp [hf]), ← List.replicate_succ,
          ih (Nat.le_succ_of_le hle)]
      · rw [if_neg hf, List.filter_cons_of_pos (by simp [hf]), ih hle, List.map_cons,
          List.length_cons,
          Nat.add_sub_add_right]
        rfl

theorem itemsOf_blank (n : Nat) :
    itemsOf c (columnsOf names (List.replicate n (.dcode, ""))) = [] := by
  induction n generalizing names with
  | zero => cases names <;> rfl
  | succ n ih =>
      cases names with
      | nil => rfl
      | cons k names => exact ih

/-- Empty columns behind the others are left out. -/
theorem itemsOf_append_blank (fields : List String) (n : Nat) :
    itemsOf c (columnsOf names (fields.map typedField ++ List.replicate n (.dcode, ""))) =
      itemsOf c (columnsOf names (fields.map typedField)) := by
  induction fields generalizing names with
  | nil =>
      rw [List.map_nil, List.nil_append, itemsOf_blank]
      cases names <;> rfl
  | cons f fields ih =>
      cases names with
      | nil => rfl
      | cons k names =>
          rw [List.map_cons, List.cons_append, itemsOf_cons, itemsOf_cons, ih]

theorem columnsOf_eq_nil (hlen : cells.length = names.length) : columnsOf names cells = [] ↔
    names = [] := by
  cases names with
  | nil => exact iff_of_true rfl rfl
  | cons k names =>
      cases cells with
      | nil => cases hlen
      | cons cell cells => exact iff_of_false (List.cons_ne_nil _ _) (List.cons_ne_nil _ _)

/-- The last column is empty when there are fewer fields than names. -/
theorem endsEmpty_packed {fields : List String}
    (hfields : ∀ f ∈ fields, f.isEmpty = false) {n : Nat}
    (hlen : fields.length + n = names.length) :
    EndsEmpty (stringItem c.convert)
      (columnsOf names (fields.map typedField ++ List.replicate n (.dcode, ""))) ↔
      0 < n ∨ names = [] := by
  induction fields generalizing names with
  | nil =>
      have hblank : itemsOf c (columnsOf names (List.replicate n (.dcode, ""))) = [] :=
        itemsOf_blank n
      refine iff_of_true (fun col hcol => ?_) ?_
      · exact List.filterMap_eq_nil_iff.mp hblank col (List.mem_of_getLast? hcol)
      · rcases Nat.eq_zero_or_pos n with hzero | hpos
        · rw [hzero, List.length_nil] at hlen
          exact .inr (List.length_eq_zero_iff.mp hlen.symm)
        · exact .inl hpos
  | cons f fields ih =>
      obtain ⟨hf, hrest⟩ := List.forall_mem_cons.mp hfields
      obtain ⟨k, names, rfl⟩ : ∃ k names', names = k :: names' := by
        cases names with
        | nil => simp at hlen
        | cons k names => exact ⟨k, names, rfl⟩
      have hlen' : fields.length + n = names.length := by
        rw [List.length_cons, List.length_cons] at hlen
        omega
      have hitem : stringItem c.convert ⟨k, getDatatype f, f⟩ ≠ none := by
        rw [stringItem, if_neg (by rw [hf]; exact Bool.false_ne_true)]
        exact Option.some_ne_none _
      have hcons : columnsOf (k :: names)
        ((f :: fields).map typedField ++ List.replicate n (.dcode, "")) =
          ⟨k, getDatatype f, f⟩ ::
            columnsOf names (fields.map typedField ++ List.replicate n (.dcode, "")) := rfl
      rw [hcons, endsEmpty_cons, ih hrest hlen', columnsOf_eq_nil (by simp [hlen'])]
      constructor
      · rintro ⟨hpos | hnil, hlast⟩
        · exact .inl hpos
        · exact absurd (hlast hnil) hitem
      · rintro (hpos | hnil)
        · refine ⟨.inl hpos, fun hnil => ?_⟩
          rw [hnil, List.length_nil] at hlen'
          omega
        · cases hnil

/-- What the vectors hold after the first row. -/
def firstCells (names : List Nat) (row : CsvRow) : List TypedField :=
  fillCells row.fields (List.replicate names.length (.dcode, ""))

theorem itemsOf_firstCells (hlen : row.fields.length ≤ names.length) :
    itemsOf c (columnsOf names (firstCells names row)) = itemsOf c (packedColumns names row) := by
  rw [firstCells, fillCells_eq _ hlen, itemsOf_append_blank, packedColumns]

theorem fillsSets_firstCells (hlen : row.fields.length ≤ names.length) :
    FillsSets c (columnsOf names (firstCells names row)) ↔
      (row.fields.filter fun f => !f.isEmpty).length = names.length ∨
        (row.fields.filter fun f => !f.isEmpty).length % 3 = 0 := by
  have hcount : (row.fields.filter fun f => !f.isEmpty).length ≤ names.length :=
    Nat.le_trans (List.length_filter_le _ _) hlen
  have hlength : (itemsOf c (packedColumns names row)).length =
      (row.fields.filter fun f => !f.isEmpty).length := by
    rw [packedColumns, itemsOf_length hcount, List.filter_filter]
    simp only [Bool.and_self]
  have hitems := @itemsOf_firstCells c names row hlen
  rw [itemsOf] at hitems
  rw [FillsSets, hitems, hlength, firstCells, fillCells_eq _ hlen,
    endsEmpty_packed (fun f hf => by simpa using (List.mem_filter.mp hf).2) (by omega)]
  constructor
  · intro h
    rcases Nat.lt_or_eq_of_le hcount with hlt | heq
    · exact .inr (h (.inl (by omega)))
    · exact .inl heq
  · rintro (heq | hmod)
    · rintro (hpos | hnil)
      · omega
      · rw [heq, hnil]
        rfl
    · exact fun _ => hmod

/-! ## Files -/

/-- The relationship of the row is between its nodes, and its properties are the
fields that are not empty. -/
def Imported (c : Conversions) (connected : List String → Nat × Nat) (label : Nat)
    (names : List Nat)
    (db : ImportDb) (row : CsvRow) : Prop :=
  ∃ r items ids groups m, db.rships row.slot = some r ∧
    Between r (connected row.row).1 (connected row.row).2 label ∧
    itemsOf c (ownColumns names row) = items.map .ok ∧
    db.properties.Lists r.propertyList ids groups ∧
    groups.flatten.Perm (items ++ List.replicate m PItem.filler)

/-- Every row has become one relationship, and there are no others. -/
structure Faithful (c : Conversions) (connected : List String → Nat × Nat) (label : Nat)
    (names : List Nat) (rows : List CsvRow) (db : ImportDb) (result : Nat × ImportDb) : Prop where
  count : result.1 = rows.length
  imported : ∀ row ∈ rows, Imported c connected label names result.2 row
  others : ∀ i, i ∉ rows.map CsvRow.slot → result.2.rships i = db.rships i

/-- The properties of the first row are the same when its fields are moved to
the front, and no set is lost. -/
structure FirstRowFits (c : Conversions) (names : List Nat) (row : CsvRow) : Prop where
  convertible : Convertible c row
  packed : (itemsOf c (packedColumns names row)).Perm (itemsOf c (ownColumns names row))
  sets : (row.fields.filter fun f => !f.isEmpty).length = names.length ∨
    (row.fields.filter fun f => !f.isEmpty).length % 3 = 0

/-- The first row fits, and all others have the same properties. -/
def AllLikeFirst (c : Conversions) (names : List Nat) : List CsvRow → Prop
  | [] => True
  | first :: rest => FirstRowFits c names first ∧
      ∀ row ∈ rest, (itemsOf c (ownColumns names row)).Perm (itemsOf c (ownColumns names first))

theorem itemsOf_stored (h : itemsOf c columns = items.map .ok) :
    ∀ p ∈ items, p.typecode.stored = true := by
  intro p hp
  have hmem : Except.ok p ∈ itemsOf c columns := by
    rw [h]
    exact List.mem_map_of_mem hp
  obtain ⟨col, -, hcol⟩ := List.mem_filterMap.mp hmem
  exact stringItem_stored c.convert col p hcol

/-- What is read is what has been saved without what has been lost. -/
theorem Saved.read {ids : List Nat} {groups : List (List PItem)} {items' : List PItem} {m : Nat}
    (h : Saved t pl items complete) (hstored : ∀ p ∈ items, p.typecode.stored = true)
    (hstored' : ∀ p ∈ items', p.typecode.stored = true) (hlists : t.Lists pl ids groups)
    (hperm : groups.flatten.Perm (items' ++ List.replicate m PItem.filler)) :
    ∃ lost, (items' ++ lost).Perm items ∧ (lost = [] ↔ complete) := by
  obtain ⟨ids', groups', lost, m', hlists', hperm', hsub, hlost⟩ := h
  obtain rfl := hlists.unique hlists'
  refine ⟨lost, ?_, hlost⟩
  have hkeep : ∀ {l : List PItem}, (∀ p ∈ l, p.typecode.stored = true) →
      l.filter (fun p => p.typecode.stored) = l := fun hl => List.filter_eq_self.mpr hl
  have hread := hperm.filter fun p => p.typecode.stored
  have hsaved := hperm'.filter fun p => p.typecode.stored
  rw [filter_fillers rfl, hkeep hstored'] at hread
  rw [filter_fillers rfl, hkeep hstored, List.filter_append,
    hkeep fun p hp => hstored p (hsub p hp)] at hsaved
  exact (hread.symm.append_right lost).trans hsaved

theorem Saved.readAll (h : Saved t pl items complete) (hcomplete : complete) :
    ∃ ids groups m, t.Lists pl ids groups ∧
      groups.flatten.Perm (items ++ List.replicate m PItem.filler) := by
  obtain ⟨ids, groups, lost, m, hlists, hperm, -, hlost⟩ := h
  rw [hlost.mpr hcomplete, List.append_nil] at hperm
  exact ⟨ids, groups, m, hlists, hperm⟩

/-- A permutation of values without exceptions. -/
theorem exists_of_perm_ok {l : List (Except StdError PItem)} (h : l.Perm (items.map .ok)) :
    ∃ items' : List PItem, l = items'.map .ok ∧ items'.Perm items := by
  have hall : l ∈ Set.range (List.map (Except.ok : PItem → Except StdError PItem)) := by
    rw [Set.range_list_map]
    intro x hx
    obtain ⟨p, -, hp⟩ := List.mem_map.mp (h.mem_iff.mp hx)
    exact ⟨p, hp⟩
  obtain ⟨items', rfl⟩ := hall
  exact ⟨items', rfl, (List.map_perm_map_iff fun _ _ => Except.ok.inj).mp h⟩

/-- When the first row can be loaded, all of them are, with its vectors. -/
theorem foldl_importRow_first {first : CsvRow} {rest : List CsvRow}
    (hres : Resolves connected db (first :: rest)) (hb : db.properties.Bounded)
    (hitems : itemsOf c (columnsOf names (firstCells names first)) = items.map .ok) :
    ∃ db', (first :: rest).foldl (importRow c connected label names)
        ⟨db, 1, List.replicate names.length (.dcode, "")⟩ =
          ⟨db', (first :: rest).length + 1, firstCells names first⟩ ∧
      (∀ i, i ∉ (first :: rest).map CsvRow.slot → db'.rships i = db.rships i) ∧
      ∀ row ∈ first :: rest, Stored c connected label names
      (firstCells names first) items db' row := by
  have hnew := (List.nodup_cons.mp hres.distinct).1
  obtain ⟨db1, hstep, hload, hstored, hres1⟩ :=
    @importRow_step c connected label names db items _ first rest 1 _ hres hb (if_pos rfl) hitems
  obtain ⟨db', hrun, hother, hgrows, hall⟩ :=
    @foldl_importRow c connected label names items _ hitems rest db1 2
    (Nat.le_refl 2) hres1 hload.bounded
  refine ⟨db', ?_, fun i hi => ?_, fun row hrow => ?_⟩
  · rw [List.foldl_cons, hstep, List.length_cons]
    exact hrun.trans (by rw [Nat.add_right_comm, Nat.add_comm 2])
  · rw [List.map_cons, List.mem_cons, not_or] at hi
    rw [hother i hi.2, hload.rships i hi.1]
  · rcases List.mem_cons.mp hrow with rfl | hrow
    · exact hstored.loaded (hother _ hnew) hgrows
    · exact hall row hrow

/-- The properties of a row that has been loaded as it is are among those that
have been stored for it. -/
theorem Stored.imported (h : Stored c connected label names cells items db row)
    (hstored : ∀ p ∈ items, p.typecode.stored = true)
    (himported : Imported c connected label names db row) :
    ∃ own lost : List PItem, itemsOf c (ownColumns names row) = own.map .ok ∧
      (own ++ lost).Perm items ∧ (lost = [] ↔ FillsSets c (columnsOf names cells)) := by
  obtain ⟨r, hr, -, hsaved⟩ := h
  obtain ⟨r', own, ids, groups, m, hr', -, hown, hlists, hperm⟩ := himported
  obtain rfl : r = r' := Option.some.inj (hr.symm.trans hr')
  obtain ⟨lost, hlost⟩ := hsaved.read hstored (itemsOf_stored hown) hlists hperm
  exact ⟨own, lost, hown, hlost⟩

theorem Stored.asIs (h : Stored c connected label names cells items db row)
    (hfull : FillsSets c (columnsOf names cells))
    (hown : (itemsOf c (ownColumns names row)).Perm (items.map .ok)) :
    Imported c connected label names db row := by
  obtain ⟨r, hr, hends, hsaved⟩ := h
  obtain ⟨ids, groups, m, hlists, hperm⟩ := hsaved.readAll hfull
  obtain ⟨own, hitems, hsame⟩ := exists_of_perm_ok hown
  exact ⟨r, own, ids, groups, m, hr, hends, hitems, hlists, hperm.trans (hsame.symm.append_right _)⟩

theorem faithful_first_iff {first : CsvRow} {rest : List CsvRow}
    (hres : Resolves connected db (first :: rest)) (hb : db.properties.Bounded)
    (hfields : first.fields.length = names.length) (hconv : Convertible c first) :
    Faithful c connected label names (first :: rest) db
        (((first :: rest).foldl (importRow c connected label names)
            ⟨db, 1, List.replicate names.length (.dcode, "")⟩).num - 1,
          ((first :: rest).foldl (importRow c connected label names)
            ⟨db, 1, List.replicate names.length (.dcode, "")⟩).db) ↔
      AllLikeFirst c names (first :: rest) := by
  have hle : first.fields.length ≤ names.length := Nat.le_of_eq hfields
  have hsets := @fillsSets_firstCells c names first hle
  obtain ⟨items, hpacked⟩ : ∃ items : List PItem, itemsOf c (packedColumns names first) =
    items.map .ok :=
    itemsOf_columns names fun f hf => hconv f (List.mem_of_mem_filter hf)
  obtain ⟨db', hrun, hother, hall⟩ :=
    @foldl_importRow_first c connected label names db items first rest
    hres hb ((itemsOf_firstCells hle).trans hpacked)
  have hstored := itemsOf_stored hpacked
  have hfirst := hall first List.mem_cons_self
  rw [hrun]
  constructor
  · intro hfaithful
    obtain ⟨own, lost, hown, hperm, hlost⟩ :=
      hfirst.imported hstored (hfaithful.imported first List.mem_cons_self)
    have hnil : lost = [] := by
      have hcount := congrArg List.length hown
      have hcount' := congrArg List.length hpacked
      rw [ownColumns, itemsOf_length hle, List.length_map] at hcount
      rw [packedColumns, itemsOf_length (Nat.le_trans (List.length_filter_le _ _) hle),
        List.filter_filter,
        List.length_map] at hcount'
      simp only [Bool.and_self] at hcount'
      have hlen := hperm.length_eq
      rw [List.length_append] at hlen
      exact List.length_eq_zero_iff.mp (by omega)
    have hfull := hlost.mp hnil
    rw [hnil, List.append_nil] at hperm
    refine ⟨⟨hconv, ?_, hsets.mp hfull⟩, fun row hrow => ?_⟩
    · rw [hown, hpacked]
      exact hperm.symm.map _
    · obtain ⟨own', lost', hown', hperm', hlost'⟩ :=
        (hall row (List.mem_cons_of_mem _ hrow)).imported hstored
          (hfaithful.imported row (List.mem_cons_of_mem _ hrow))
      rw [hlost'.mpr hfull, List.append_nil] at hperm'
      rw [hown, hown']
      exact (hperm'.trans hperm.symm).map _
  · rintro ⟨hfits, hsame⟩
    have hfull := hsets.mpr hfits.sets
    have hown : (itemsOf c (ownColumns names first)).Perm (items.map .ok) :=
      hpacked ▸ hfits.packed.symm
    refine ⟨rfl, fun row hrow => ?_, hother⟩
    rcases List.mem_cons.mp hrow with rfl | hrow
    · exact hfirst.asIs hfull hown
    · exact (hall row (List.mem_cons_of_mem _ hrow)).asIs hfull ((hsame row hrow).trans hown)

/-- A file is loaded as it is exactly when its first row fits the names and all
other rows have the same properties. -/
theorem csv_faithful_iff
    {connected : String × String → String × String → List String → Nat × Nat}
    {source dest : String} {columns : List String} (hsource : (getRshipNode source).2 ≠ "")
    (hdest : (getRshipNode dest).2 ≠ "")
    (hres : Resolves (connected (getRshipNode source) (getRshipNode dest)) db rows)
    (hrows : ∀ row ∈ rows, row.row.length = columns.length + 2) (hb : db.properties.Bounded) :
    Faithful c (connected (getRshipNode source) (getRshipNode dest)) label
    (columns.map c.insert) rows
        db (importTypedRelationshipsFromCsv c label connected (source :: dest :: columns) rows db) ↔
      AllLikeFirst c (columns.map c.insert) rows := by
  have hheader : ¬((getRshipNode source).2.isEmpty = true ∨
    (getRshipNode dest).2.isEmpty = true) := by
    rw [String.isEmpty_iff, String.isEmpty_iff]
    rintro (h | h)
    · exact hsource h
    · exact hdest h
  have hfields : ∀ row ∈ rows, row.fields.length = (columns.map c.insert).length := by
    intro row hrow
    rw [CsvRow.fields, List.length_drop, hrows row hrow, List.length_map]
    rfl
  rw [importTypedRelationshipsFromCsv, if_neg hheader]
  simp only []
  cases rows with
  | nil => exact iff_of_true ⟨rfl, fun row hrow => absurd hrow List.not_mem_nil,
      fun _ _ => rfl⟩ trivial
  | cons first rest =>
      have hfirst := hfields first List.mem_cons_self
      by_cases hconv : Convertible c first
      · have hcells : List.replicate columns.length ((.dcode, "") : TypedField) =
            List.replicate (columns.map c.insert).length (.dcode, "") := by rw [List.length_map]
        rw [hcells]
        exact faithful_first_iff hres hb hfirst hconv
      · refine iff_of_false (fun hfaithful => ?_) fun hall => hconv hall.1.convertible
        obtain ⟨r, items, -, -, -, -, -, hitems, -⟩ := hfaithful.imported first List.mem_cons_self
        exact hconv (convertible_of_items hfirst hitems)

section

/-- The code of a string is its length, and there are no doubles and dates. -/
def lengthCodes : Conversions where
  insert := String.length
  stod _ := .error .invalidArgument
  fromSimpleString _ := .error .invalidArgument
  timeFromString _ := .error .invalidArgument

/-- The nodes 1 and 2. -/
def twoNodes : ImportDb where
  nodes i := if i = 1 ∨ i = 2 then some ⟨i, UNKNOWN, UNKNOWN, UNKNOWN, 0⟩ else none
  rships _ := none
  properties := .empty

def yearRow (slot : Nat) (year : String) : CsvRow := ⟨slot, ["1", "2", year]⟩

theorem yearRow_fits : FirstRowFits lengthCodes [4] (yearRow 0 "1999") := by
  refine ⟨fun f hf _ => ?_, List.Perm.refl _, .inl rfl⟩
  obtain rfl := List.mem_singleton.mp hf
  exact ⟨1999, by rfl⟩

theorem yearRows_resolve (year : String) :
    Resolves (fun _ => (1, 2)) twoNodes [yearRow 0 "1999", yearRow 1 year] := by
  have hslots : ([0, 1] : List Nat).Nodup := by decide
  refine ⟨fun _ _ => ⟨rfl, rfl⟩, fun r hr => ⟨rfl, ?_⟩, hslots⟩
  rcases List.mem_pair.mp hr with rfl | rfl
  · exact (show 0 ≠ UNKNOWN by decide)
  · exact (show 1 ≠ UNKNOWN by decide)

theorem yearRows_length (year : String) :
    ∀ row ∈ [yearRow 0 "1999", yearRow 1 year], row.row.length = ["year"].length + 2 := by
  intro row hrow
  rcases List.mem_pair.mp hrow with rfl | rfl
  · rfl
  · rfl

/-- Two films of one year. -/
theorem csv_faithful_same_year :
    Faithful lengthCodes (fun _ => (1, 2)) 3 [4] [yearRow 0 "1999", yearRow 1 "1999"] twoNodes
      (importTypedRelationshipsFromCsv lengthCodes 3 (fun _ _ _ => (1, 2))
        ["actor_id", "film_id", "year"] [yearRow 0 "1999", yearRow 1 "1999"] twoNodes) := by
  refine (@csv_faithful_iff lengthCodes 3 twoNodes _ (fun _ _ _ => (1, 2)) "actor_id"
    "film_id" ["year"]
    (by decide) (by decide) (yearRows_resolve _) (yearRows_length _) bounded_empty).mpr
    ⟨yearRow_fits, ?_⟩
  intro row hrow
  obtain rfl := List.mem_singleton.mp hrow
  exact List.Perm.refl _

/-- The second film is from 2003, and gets the year of the first one. -/
theorem csv_second_row_differs :
    ¬Faithful lengthCodes (fun _ => (1, 2)) 3 [4] [yearRow 0 "1999", yearRow 1 "2003"] twoNodes
      (importTypedRelationshipsFromCsv lengthCodes 3 (fun _ _ _ => (1, 2))
        ["actor_id", "film_id", "year"] [yearRow 0 "1999", yearRow 1 "2003"] twoNodes) := by
  intro hfaithful
  have hall := (@faithful_first_iff lengthCodes (fun _ => (1, 2)) 3 [4] twoNodes (yearRow 0 "1999")
    [yearRow 1 "2003"] (yearRows_resolve _) bounded_empty rfl yearRow_fits.convertible).mp hfaithful
  have hfirst : itemsOf lengthCodes (ownColumns [4] (yearRow 0 "1999")) = [.ok ⟨4, .int, 1999⟩] :=
    by rfl
  have hsecond : itemsOf lengthCodes (ownColumns [4] (yearRow 1 "2003")) = [.ok ⟨4, .int, 2003⟩] :=
    by rfl
  have hsame := hall.2 (yearRow 1 "2003") List.mem_cons_self
  rw [hfirst, hsecond, List.perm_singleton] at hsame
  cases hsame

end

end Poseidon
