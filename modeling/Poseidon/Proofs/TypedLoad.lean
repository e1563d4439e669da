import Poseidon.Proofs.PropertySets

/-!
# When a row is loaded completely

`append_typed_properties` collects the items of a row and appends a set when it
has three of them, or when it is at the last column. A column that is empty is
left out before this test, so when the last column is empty, the items that
have been collected since the last set are not stored.

The two overloads differ in the test for an empty value and in the conversion
of a value to an item.
-/

namespace Poseidon

open Wp

namespace PropertyList

variable {β ε : Type} {item : Column β → Option (Except ε PItem)} {nid size : Nat}
  {t : PropertyList}

/-- The values of the row that are not empty are in the chain that the load
returns, each once, and the rest of the chain are fillers. -/
def LoadsAll (item : Column β → Option (Except ε PItem)) (columns : List (Column β))
    (load : EStateM ε PropertyList Nat) (t : PropertyList) : Prop :=
  ∃ items id t' ids groups m, columns.filterMap item = items.map .ok ∧ load t = .ok id t' ∧
    t'.Lists id ids groups ∧ groups.flatten.Perm (items ++ List.replicate m PItem.filler)

/-- The last column is empty, if there is one. -/
def EndsEmpty (item : Column β → Option (Except ε PItem)) (columns : List (Column β)) : Prop :=
  ∀ c, columns.getLast? = some c → item c = none

/-- Every value can be converted, and if the last column is empty, then the
others fill their sets. -/
def Loadable (item : Column β → Option (Except ε PItem)) (columns : List (Column β)) : Prop :=
  (∀ c ∈ columns, ∀ e, item c ≠ some (.error e)) ∧
    (EndsEmpty item columns → (columns.filterMap item).length % 3 = 0)

theorem endsEmpty_cons {c : Column β} {cs : List (Column β)} :
    EndsEmpty item (c :: cs) ↔ EndsEmpty item cs ∧ (cs = [] → item c = none) := by
  cases cs with
  | nil => simp [EndsEmpty]
  | cons d cs => simp [EndsEmpty, List.getLast?_cons_cons]

/-- A set is appended. -/
theorem perm_flush {sets : List (List PItem)} {lost its pil : List PItem} {p : PItem} {m : Nat}
    (h : (sets.flatten ++ lost).Perm ([] ++ its ++ List.replicate m PItem.filler)) :
    ((sets ++ [fillItems (pil ++ [p])]).flatten ++ lost).Perm (pil ++ p :: its ++
      List.replicate (m + (3 - (pil ++ [p]).length)) PItem.filler) := by
  rw [List.perm_iff_count] at h ⊢
  intro a
  have ha := h a
  simp only [fillItems, List.flatten_append, List.flatten_cons, List.flatten_nil,
    List.count_append, List.count_cons, List.count_nil, List.nil_append, List.append_nil,
    List.count_replicate] at ha ⊢
  split at ha
  · split
    · omega
    · omega
  · split
    · omega
    · omega

/-- The loop from a column on: what is collected at the end is lost. -/
theorem appendTypedLoop_wp (nid : Nat) : ∀ (next : Nat) (cs : List (Column β)) (pil : List PItem)
      {its : List PItem} {i : Nat} {t : PropertyList}, cs.filterMap item = its.map .ok →
      i + cs.length = size → pil.length < 3 → t.Bounded →
      wp (appendTypedLoop item nid size cs i pil next)
        (fun id t' => ∃ new sets lost m, Prepended t next t' id new sets ∧
          (sets.flatten ++ lost).Perm (pil ++ its ++ List.replicate m PItem.filler) ∧
          (∀ p ∈ lost, p ∈ pil ++ its) ∧
          (lost = [] ↔ (EndsEmpty item cs → (pil.length + its.length) % 3 = 0)))
        (fun _ _ => False) t := by
  intro next cs
  induction cs generalizing next with
  | nil =>
      intro pil its i t hits _ hpil hb
      have hnil : its = [] := List.map_eq_nil_iff.mp hits.symm
      refine ⟨[], [], pil, 0, .refl hb, by simp [hnil], fun p hp => List.mem_append_left _ hp, ?_⟩
      rw [hnil, List.length_nil, Nat.add_zero, Nat.mod_eq_of_lt hpil, List.length_eq_zero_iff]
      simp [EndsEmpty]
  | cons c cs ih =>
      intro pil its i t hits hsize hpil hb
      have hsize' : i + 1 + cs.length = size := by
        rw [List.length_cons] at hsize
        omega
      rw [appendTypedLoop]
      cases hc : item c with
      | none =>
          rw [List.filterMap_cons_none hc] at hits
          have hends : EndsEmpty item (c :: cs) ↔ EndsEmpty item cs := by
            rw [endsEmpty_cons]
            exact and_iff_left fun _ => hc
          rw [hends]
          exact ih _ _ hits hsize' hpil hb
      | some r =>
          rw [List.filterMap_cons_some hc] at hits
          cases its with
          | nil => cases hits
          | cons p its =>
              obtain ⟨rfl, hrest⟩ := List.cons.inj hits
              have hends : EndsEmpty item (c :: cs) ↔ EndsEmpty item cs ∧ cs ≠ [] := by
                rw [endsEmpty_cons, hc]
                simp
              simp only []
              refine wp_ite (fun hflush => ?_) fun hkeep => ?_
              · simp only [wp_bind, wp_get, wp_set]
                have hp := placed_append hb ⟨next, nid, fillItems (pil ++ [p])⟩
                refine wp_mono (ih _ _ hrest hsize' (Nat.zero_lt_succ 2) (hp.bounded hb)) ?_
                  fun _ _ h => h
                rintro id t' ⟨new, sets, lost, m, hnew, hperm, hsub, hlost⟩
                refine ⟨_, _, lost, m + (3 - (pil ++ [p]).length), hp.prepended hnew rfl,
                  perm_flush hperm, fun q hq => ?_, ?_⟩
                · exact List.mem_append_right _ (List.mem_cons_of_mem _ (hsub q hq))
                rw [hlost, hends]
                cases cs with
                | nil =>
                    have hnil : its = [] := List.map_eq_nil_iff.mp hrest.symm
                    rw [hnil]
                    simp
                | cons d cs =>
                    rw [List.length_cons] at hsize'
                    have hlen : pil.length + 1 = 3 := hflush.resolve_left (by omega)
                    rw [and_iff_left (List.cons_ne_nil d cs)]
                    refine imp_congr_right fun _ => ?_
                    rw [List.length_nil, List.length_cons]
                    omega
              · rw [not_or] at hkeep
                have hne : cs ≠ [] := by
                  rintro rfl
                  exact hkeep.1 hsize'
                refine wp_mono (ih _ _ hrest hsize' ?_ hb) ?_ fun _ _ h => h
                · rw [List.length_append, List.length_singleton]
                  omega
                · rintro id t' ⟨new, sets, lost, m, hnew, hperm, hsub, hlost⟩
                  refine ⟨new, sets, lost, m, hnew, by simpa using hperm, by simpa using hsub, ?_⟩
                  rw [hlost, hends, and_iff_left hne, List.length_append, List.length_cons,
                    List.length_cons, List.length_nil, Nat.zero_add, Nat.add_assoc, Nat.add_comm 1]

/-- The items of a row whose values can be converted. -/
theorem exists_items {columns : List (Column β)}
    (hconv : ∀ c ∈ columns, ∀ e, item c ≠ some (.error e)) :
    ∃ items : List PItem, columns.filterMap item = items.map .ok := by
  induction columns with
  | nil => exact ⟨[], rfl⟩
  | cons c cs ih =>
      obtain ⟨hc, hrest⟩ := List.forall_mem_cons.mp hconv
      obtain ⟨items, hitems⟩ := ih hrest
      cases hi : item c with
      | none => exact ⟨items, by rw [List.filterMap_cons_none hi, hitems]⟩
      | some r =>
          cases r with
          | error e => exact absurd hi (hc e)
          | ok p => exact ⟨p :: items, by rw [List.filterMap_cons_some hi, hitems]; rfl⟩

/-- Both overloads. -/
theorem loadsAll_iff (hstored : ∀ c p, item c = some (.ok p) → p.typecode.stored = true)
    (hb : t.Bounded) (columns : List (Column β)) :
    LoadsAll item columns (appendTypedLoop item nid columns.length columns 0 [] UNKNOWN) t ↔
      Loadable item columns := by
  have hrun := fun (items : List PItem) (hitems : columns.filterMap item = items.map .ok) =>
    appendTypedLoop_wp nid UNKNOWN columns [] hitems (Nat.zero_add _) (Nat.zero_lt_succ 2) hb
  constructor
  · rintro ⟨items, id, t', ids, groups, m, hitems, hload, hlists, hperm⟩
    refine ⟨fun c hc e he => ?_, fun hends => ?_⟩
    · have hmem : .error e ∈ columns.filterMap item := List.mem_filterMap.mpr ⟨c, hc, he⟩
      rw [hitems] at hmem
      obtain ⟨p, -, hp⟩ := List.mem_map.mp hmem
      cases hp
    · obtain ⟨new, sets, lost, m', hnew, hperm', hsub, hlost⟩ := wp_ok (hrun items hitems) hload
      have hsets := hnew.lists (lists_unknown t)
      rw [List.append_nil, List.append_nil] at hsets
      obtain rfl := hsets.unique hlists
      have hall : ∀ p ∈ items, p.typecode.stored = true := by
        intro p hp
        have hmem : Except.ok p ∈ columns.filterMap item := by
          rw [hitems]
          exact List.mem_map_of_mem hp
        obtain ⟨c, -, hc⟩ := List.mem_filterMap.mp hmem
        exact hstored c p hc
      have hitems' : items.filter (fun p => p.typecode.stored) = items :=
        List.filter_eq_self.mpr hall
      have hlost' : lost.filter (fun p => p.typecode.stored) = lost :=
        List.filter_eq_self.mpr fun p hp => hall p (hsub p hp)
      have hnil : lost = [] := by
        have h1 := (hperm.filter fun p => p.typecode.stored).length_eq
        have h2 := (hperm'.filter fun p => p.typecode.stored).length_eq
        rw [filter_fillers rfl, hitems'] at h1
        rw [filter_fillers rfl, List.nil_append, hitems', List.filter_append, hlost',
          List.length_append, h1] at h2
        exact List.length_eq_zero_iff.mp (by omega)
      rw [hitems, List.length_map]
      simpa using hlost.mp hnil hends
  · rintro ⟨hconv, hfull⟩
    obtain ⟨items, hitems⟩ := exists_items hconv
    obtain ⟨id, t', hload, new, sets, lost, m, hnew, hperm, -, hlost⟩ :=
      wp_exists (hrun items hitems)
    rw [hitems, List.length_map] at hfull
    have hnil : lost = [] := hlost.mpr (by simpa using hfull)
    have hsets := hnew.lists (lists_unknown t)
    rw [List.append_nil, List.append_nil] at hsets
    rw [hnil, List.append_nil] at hperm
    exact ⟨items, id, t', new, sets, m, hitems, hload, hsets, hperm⟩

theorem anyItem_stored (c : Column (Option AnyValue)) (p : PItem)
    (h : anyItem c = some (.ok p)) : p.typecode.stored = true := by
  obtain ⟨v, -, hv⟩ := Option.map_eq_some_iff.mp h
  unfold PItem.ofAny at hv
  split at hv
  all_goals
    cases hv
    try rfl

theorem ColumnType.typecode_stored (tc : ColumnType) : tc.typecode.stored = true := by
  cases tc <;> rfl

theorem stringItem_stored (conv : ColumnType → String → Except ε Nat) (c : Column String)
    (p : PItem) (h : stringItem conv c = some (.ok p)) : p.typecode.stored = true := by
  unfold stringItem at h
  split at h
  · cases h
  · cases hconv : conv c.type c.value with
    | error e =>
        rw [PItem.ofString, hconv] at h
        cases h
    | ok v =>
        rw [PItem.ofString, hconv] at h
        cases h
        exact ColumnType.typecode_stored c.type

end PropertyList

/-- For every content of the property table and every row, both overloads load
all values of the row exactly when every value can be converted and, if the last
column is empty, the number of values is a multiple of the size of a set. -/
theorem typed_load_iff (t : PropertyList) (ht : t.Bounded) (nid : Nat) :
    (∀ columns, PropertyList.LoadsAll PropertyList.anyItem columns
        (PropertyList.appendTypedProperties nid columns) t ↔
      PropertyList.Loadable PropertyList.anyItem columns) ∧
    ∀ (ε : Type) (conv : ColumnType → String → Except ε Nat) (columns : List (Column String)),
      PropertyList.LoadsAll (PropertyList.stringItem conv) columns
        (PropertyList.appendTypedStrings conv nid columns) t ↔
      PropertyList.Loadable (PropertyList.stringItem conv) columns :=
  ⟨PropertyList.loadsAll_iff PropertyList.anyItem_stored ht,
    fun _ conv => PropertyList.loadsAll_iff (PropertyList.stringItem_stored conv) ht⟩

/-- An empty column in the middle of a row. -/
theorem typed_load_iff_gap :
    PropertyList.LoadsAll PropertyList.anyItem
      [⟨1, .int, some (.int 10)⟩, ⟨2, .int, none⟩, ⟨3, .date, some (.ptime 30)⟩]
      (PropertyList.appendTypedProperties 7
        [⟨1, .int, some (.int 10)⟩, ⟨2, .int, none⟩, ⟨3, .date, some (.ptime 30)⟩]) .empty := by
  refine ((typed_load_iff .empty PropertyList.bounded_empty 7).1 _).mpr ⟨?_, fun hends => ?_⟩
  · intro c hc e
    simp only [List.mem_cons, List.not_mem_nil, or_false] at hc
    rcases hc with rfl | rfl | rfl <;> exact nofun
  · cases hends _ rfl

/-- The value before an empty last column is lost. -/
theorem empty_last_column_loses_values :
    ¬PropertyList.LoadsAll PropertyList.anyItem
      [⟨1, .int, some (.int 10)⟩, ⟨2, .int, none⟩]
      (PropertyList.appendTypedProperties 7 [⟨1, .int, some (.int 10)⟩, ⟨2, .int, none⟩])
      .empty := by
  rintro ⟨items, id, t', ids, groups, m, hitems, hload, hlists, hperm⟩
  cases hload
  obtain rfl := (PropertyList.lists_unknown _).unique hlists
  have hlen := hperm.length_eq
  have hone := congrArg List.length hitems
  rw [List.length_map] at hone
  rw [List.length_append, ← hone] at hlen
  exact absurd hlen (by simp [PropertyList.anyItem]; omega)

end Poseidon
