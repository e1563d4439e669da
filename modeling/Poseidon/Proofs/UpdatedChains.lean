import Mathlib.Data.Fintype.EquivFin
import Poseidon.Proofs.PropertyUpdates

/-!
# Chains after any number of updates

`Built t id l` are the chains that the store makes: `add_pitems` starts one,
`update_pitems` writes an updated list over it, and in between other chains
change. Such a chain holds the items of its list and the fillers of one set,
in as few sets as there can be; which set is the one with the fillers depends
on the updates.

`update_properties` gives the same properties, but it needs a set to start at,
and the first set that it appends has never been filled: when fewer than three
items are left for it, the others are what happens to be in memory.
-/

namespace Poseidon

open Wp

namespace PropertyList

variable {t t' : PropertyList} {id id' nid : Nat} {l l' props : List PItem} {ids : List Nat}
  {groups : List (List PItem)}

/-- The chain from `id` holds the items of the list, in as few sets as
possible. -/
structure Packed (t : PropertyList) (id : Nat) (l : List PItem) (ids : List Nat)
    (groups : List (List PItem)) : Prop where
  lists : t.Lists id ids groups
  perm : groups.flatten.Perm (l ++ List.replicate (fillers l) PItem.filler)
  length : ids.length = (l.length + 2) / 3

theorem addPitems_packed (hb : t.Bounded) (nid : Nat) (l : List PItem) :
    (t.addPitems nid l).2.Bounded ∧
      ∃ ids groups, Packed (t.addPitems nid l).2 (t.addPitems nid l).1 l ids groups := by
  obtain ⟨new, hnew⟩ := addGroups_prepended hb nid (triples l) UNKNOWN
  have hlists := hnew.lists (lists_unknown t)
  rw [List.append_nil, List.append_nil] at hlists
  refine ⟨hnew.bounded, new, _, hlists, flatten_fill_perm l, ?_⟩
  rw [hlists.length_eq, List.length_map, List.length_reverse, triples_length]

/-- A longer list is written over the chain. -/
theorem updatePitems_packed (h : Packed t id l ids groups) (hb : t.Bounded)
    (hle : l.length ≤ l'.length) (nid : Nat) :
    ∃ id' t' new groups', updatePitems nid id l' t = .ok id' t' ∧ t'.Bounded ∧
      Packed t' id' l' (new ++ ids) groups' ∧ t.capacity ≤ t'.capacity ∧
      (∀ i ∈ new, t.sets i = none) ∧ ∀ i, i ∉ new ++ ids → t'.sets i = t.sets i := by
  have hlen : ((triples l').take ids.length).length = ids.length := by
    rw [List.length_take, triples_length, h.length]
    omega
  obtain ⟨t1, hover, hrun⟩ := updateGroups_overwritten nid id ((triples l').drop ids.length)
    h.lists hlen
  rw [List.take_append_drop, updateGroups_unknown] at hrun
  obtain ⟨new, hnew⟩ := addGroups_prepended (hover.bounded hb) nid
    ((triples l').drop ids.length) id
  have hlists := hnew.lists hover.lists
  refine ⟨_, _, new, _, hrun, hnew.bounded, ⟨hlists, ?_, ?_⟩, hover.capacity ▸ hnew.capacity,
    fun i hi => ?_, fun i hi => ?_⟩
  · have hsplit : (triples l').map fillItems = ((triples l').take ids.length).map fillItems ++
        ((triples l').drop ids.length).map fillItems := by
      rw [← List.map_append, List.take_append_drop]
    rw [← flatten_fill, hsplit]
    refine (List.perm_append_comm.trans (List.Perm.append_left _ ?_)).flatten
    exact (List.reverse_perm _).map _
  · rw [hlists.length_eq, List.length_append, List.length_map, List.length_map,
      List.length_reverse, List.length_drop, hlen, triples_length, h.length]
    omega
  · have hfree := hnew.fresh i hi
    rw [hover.other i fun hmem => hover.lists.used i hmem hfree] at hfree
    exact hfree
  · rw [List.mem_append, not_or] at hi
    rw [hnew.other i hi.1, hover.other i hi.2]

/-- The chains that `add_pitems` and `update_pitems` make. -/
inductive Built : PropertyList → Nat → List PItem → Prop
  | add {t : PropertyList} {l : List PItem} (nid : Nat) (hb : t.Bounded)
      (h0 : ∀ p ∈ l, p.key ≠ 0) (hd : (l.map PItem.key).Nodup) :
      Built (t.addPitems nid l).2 (t.addPitems nid l).1 l
  | update {t t' : PropertyList} {id id' : Nat} {l l' : List PItem} (nid : Nat)
      (props : Properties) (h : Built t id l) (hl : l'.Perm l)
      (hrun : updatePitems nid id (applyUpdates l' props.items) t = .ok id' t') :
      Built t' id' (applyUpdates l' props.items)
  -- whatever happens to the other slots
  | other {t t' : PropertyList} {id : Nat} {l : List PItem} {ids : List Nat}
      {groups : List (List PItem)} (h : Built t id l) (hlists : t.Lists id ids groups)
      (hb : t'.Bounded) (hcap : t.capacity ≤ t'.capacity)
      (hsets : ∀ i ∈ ids, t'.sets i = t.sets i) : Built t' id l

/-- What is the case in every table that has such a chain. -/
structure Kept (t : PropertyList) (id : Nat) (l : List PItem) : Prop where
  bounded : t.Bounded
  keys : ∀ p ∈ l, p.key ≠ 0
  distinct : (l.map PItem.key).Nodup
  packed : ∃ ids groups, Packed t id l ids groups

theorem Packed.of_perm (h : Packed t id l ids groups) (hl : l'.Perm l) :
    Packed t id l' ids groups := by
  have hlen := hl.length_eq
  refine ⟨h.lists, h.perm.trans ?_, by rw [hlen, h.length]⟩
  rw [fillers, fillers, hlen]
  exact hl.symm.append_right _

theorem Kept.of_perm (h : Kept t id l) (hl : l'.Perm l) : Kept t id l' := by
  obtain ⟨ids, groups, hpacked⟩ := h.packed
  exact ⟨h.bounded, fun p hp => h.keys p (hl.mem_iff.mp hp), (hl.map _).nodup_iff.mpr h.distinct,
    ids, groups, hpacked.of_perm hl⟩

theorem applyUpdates_keys (h0 : ∀ p ∈ l, p.key ≠ 0) (hp : ∀ p ∈ props, p.key ≠ 0) :
    ∀ p ∈ applyUpdates l props, p.key ≠ 0 := by
  intro p hmem
  rcases mem_applyUpdates p hmem with h | h
  · exact h0 p h
  · exact hp p h

theorem length_le_applyUpdates (hd : (l.map PItem.key).Nodup) (hp : (props.map PItem.key).Nodup) :
    l.length ≤ (applyUpdates l props).length := by
  rw [applyUpdates_eq hd hp, List.length_append, List.length_map]
  exact Nat.le_add_right _ _

theorem Built.kept (h : Built t id l) : Kept t id l := by
  induction h with
  | add nid hb h0 hd =>
      obtain ⟨hb', hpacked⟩ := addPitems_packed hb nid _
      exact ⟨hb', h0, hd, hpacked⟩
  | update nid props _ hl hrun ih =>
      have hk := ih.of_perm hl
      obtain ⟨ids, groups, hpacked⟩ := hk.packed
      obtain ⟨id', t', new, groups', hrun', hb', hpacked', -⟩ := updatePitems_packed hpacked
        hk.bounded (length_le_applyUpdates hk.distinct props.distinct) nid
      rw [hrun] at hrun'
      cases hrun'
      exact ⟨hb', applyUpdates_keys hk.keys fun p hp => (props.typed p hp).1,
        applyUpdates_keys_nodup hk.distinct props.distinct, _, _, hpacked'⟩
  | other _ hlists hb hcap hsets ih =>
      obtain ⟨ids', groups', hpacked⟩ := ih.packed
      obtain rfl := hlists.path.unique hpacked.lists.path
      exact ⟨hb, ih.keys, ih.distinct, _, _, hpacked.lists.congr hcap hsets, hpacked.perm,
        hpacked.length⟩

/-! ## The properties after an update -/

section

variable {c : List PItem} {m : Nat} (hc : c.Perm (l ++ List.replicate m PItem.filler))
include hc

theorem newItems_of_perm (hp : ∀ p ∈ props, p.key ≠ 0) : newItems c props = newItems l props := by
  refine List.filter_congr fun p hmem => ?_
  have hkeys : p.key ∈ c.map PItem.key ↔ p.key ∈ l.map PItem.key := by
    rw [(hc.map _).mem_iff, List.map_append, List.mem_append]
    refine or_iff_left fun hfill => hp p hmem ?_
    rw [List.map_replicate] at hfill
    exact (List.mem_replicate.mp hfill).2
  rw [decide_eq_decide, hkeys]

theorem override_of_perm (hp : ∀ p ∈ props, p.key ≠ 0) : (c.map (overrideItem props)).Perm
    (l.map (overrideItem props) ++ List.replicate m PItem.filler) := by
  have hfill : overrideItem props PItem.filler = PItem.filler := by
    refine overrideItem_of_absent fun hmem => ?_
    obtain ⟨p, hmem, hkey⟩ := List.mem_map.mp hmem
    exact hp p hmem hkey
  have hmap := hc.map (overrideItem props)
  rw [List.map_append, List.map_replicate, hfill] at hmap
  exact hmap

end

/-- Three items need no filler. -/
theorem appendGroups_raw {rest : List PItem} (raw : Nat → PItem)
    (h : rest.length ≠ 1 ∧ rest.length ≠ 2) :
    appendGroups nid (rawItems raw) (triples rest) id t =
      appendGroups nid fillItems (triples rest) id t := by
  match rest with
  | [] => rfl
  | [_] => exact absurd rfl h.1
  | [_, _] => exact absurd rfl h.2
  | a :: b :: c :: rest => rfl

/-- The first set has its own items, and then what is in memory. -/
theorem appendGroups_short {rest : List PItem} (raw : Nat → PItem)
    (h : rest.length = 1 ∨ rest.length = 2) :
    appendGroups nid (rawItems raw) (triples rest) id t =
    t.append ⟨id, nid, rawItems raw rest⟩ := by
  match rest with
  | [] => simp at h
  | [_] => rfl
  | [_, _] => rfl
  | a :: b :: c :: rest => simp at h

/-- What `update_properties` does to a chain: what it overwrites, and what it
appends. -/
theorem updateProperties_wp (h : Packed t id l ids groups) (hk : Kept t id l) (props : Properties)
    (hne : l ≠ [] ∨ props.items = []) (raw : Nat → PItem) (nid : Nat) :
    wp (updateProperties raw nid id props.items)
      (fun id' t' => ∃ t1, Overwritten t id ids t1
          (groups.map (List.map (overrideItem props.items))) ∧
        (id', t') = appendGroups nid (rawItems raw) (triples (newItems l props.items)) id t1)
      (fun _ _ => False) t := by
  have hkeyed := keyed_of_perm h.perm hk.keys
  have hnd := (hkeyed.map PItem.key).nodup_iff.mpr hk.distinct
  have hp0 : ∀ p ∈ props.items, p.key ≠ 0 := fun p hp => (props.typed p hp).1
  have hids : props.items = [] ∨ ids ≠ [] := by
    refine hne.symm.imp_right fun hl hids => hl ?_
    have hlen := h.length
    rw [hids, List.length_nil] at hlen
    exact List.length_eq_zero_iff.mp (by omega)
  have hle := h.lists.path.length_le h.lists.lt_capacity
  simp only [updateProperties, wp_bind, wp_get]
  refine wp_mono (updateLoop_wp ids h.lists (by omega) hnd props.distinct hp0 hids) ?_
    fun _ _ h => h
  rintro rest t1 ⟨rfl, hover⟩
  simp only [wp_set, wp_pure]
  rw [newItems_of_perm h.perm hp0]
  exact ⟨t1, hover, rfl⟩

/-- A call gives a chain with these properties. -/
def Yields (call : EStateM Err PropertyList Nat) (t : PropertyList) (l : List PItem) : Prop :=
  ∃ id t' pmap, call t = .ok id t' ∧ t'.allProperties id = .ok pmap ∧
    pmap.Perm (buildPropertiesFromPitems l)

/-- Three or more new properties are stored as they are. -/
theorem updateProperties_yields (hk : Kept t id l) (props : Properties)
    (hne : l ≠ [] ∨ props.items = [])
    (hr : (newItems l props.items).length ≠ 1 ∧ (newItems l props.items).length ≠ 2)
    (raw : Nat → PItem) (nid : Nat) :
    Yields (updateProperties raw nid id props.items) t (applyUpdates l props.items) := by
  obtain ⟨ids, groups, h⟩ := hk.packed
  obtain ⟨id', t', hrun, t1, hover, heq⟩ := wp_exists (updateProperties_wp h hk props hne raw nid)
  rw [appendGroups_raw raw hr] at heq
  obtain ⟨new, hnew⟩ := appendGroups_prepended (hover.bounded hk.bounded) nid
    (triples (newItems l props.items)) id
  rw [← heq] at hnew
  have hlists := hnew.lists hover.lists
  refine ⟨id', t', _, hrun, hlists.allProperties, ?_⟩
  have hover' := override_of_perm h.perm fun p hp => (props.typed p hp).1
  rw [List.map_flatten] at hover'
  refine buildProperties_of_perm (m := fillers (newItems l props.items) + fillers l) ?_
    (applyUpdates_keys_nodup hk.distinct props.distinct)
  rw [applyUpdates_eq hk.distinct props.distinct, List.flatten_append]
  refine ((flatten_fill_perm _).append hover').trans ?_
  rw [List.perm_iff_count]
  intro a
  simp only [List.count_append, List.count_replicate]
  split
  · omega
  · omega

/-- A chain without sets is not extended. -/
theorem updateProperties_unknown (hk : Kept t id []) (props : List PItem) (hne : props ≠ [])
    (raw : Nat → PItem) (nid : Nat) : ¬Yields (updateProperties raw nid id props) t l := by
  obtain ⟨ids, groups, h⟩ := hk.packed
  obtain rfl := List.length_eq_zero_iff.mp h.length
  obtain rfl := h.lists.path.eq_nil_iff.mp rfl
  have hrun : updateProperties raw nid UNKNOWN props t = .error .indexOutOfRange t := by
    have hloop : updateLoop (t.capacity + 1) props UNKNOWN t = .error .indexOutOfRange t := by
      rw [updateLoop, if_neg hne, if_pos rfl]
      rfl
    simp only [updateProperties, bind, EStateM.bind, get_apply,
      hloop]
  rintro ⟨id', t', pmap, hok, -⟩
  rw [hrun] at hok
  cases hok

/-- With one or two new properties, there is an item that nobody has
written. -/
theorem updateProperties_unfilled (hk : Kept t id l) (props : Properties)
    (hr : (newItems l props.items).length = 1 ∨ (newItems l props.items).length = 2) (nid : Nat) :
    ∃ raw, ¬Yields (updateProperties raw nid id props.items) t (applyUpdates l props.items) := by
  by_cases hl : l = []
  · subst hl
    refine ⟨fun _ => PItem.filler, updateProperties_unknown hk _ (fun hnil => ?_) _ nid⟩
    rw [hnil] at hr
    simp [newItems] at hr
  obtain ⟨ids, groups, h⟩ := hk.packed
  obtain ⟨k, hfresh⟩ :=
    Infinite.exists_notMem_finset ((applyUpdates l props.items).map PItem.key).toFinset
  rw [List.mem_toFinset] at hfresh
  have hrest : lookupItem (newItems l props.items) k = none := by
    refine lookupItem_eq_none_iff.mpr fun hmem => hfresh ?_
    rw [applyUpdates_eq hk.distinct props.distinct, List.map_append]
    exact List.mem_append_right _ hmem
  refine ⟨fun _ => ⟨k, .int, 0⟩, ?_⟩
  obtain ⟨id', t', hrun, t1, hover, heq⟩ :=
    wp_exists (updateProperties_wp h hk props (.inl hl) (fun _ => ⟨k, .int, 0⟩) nid)
  rw [appendGroups_short _ hr] at heq
  have hp := placed_append (hover.bounded hk.bounded)
    ⟨id, nid, rawItems (fun _ => ⟨k, .int, 0⟩) (newItems l props.items)⟩
  rw [← heq] at hp
  have hlists := hp.lists hover.lists
  have hraw : lookupItem (rawItems (fun _ => ⟨k, .int, 0⟩) (newItems l props.items)) k =
      some ⟨k, .int, 0⟩ := by
    rw [lookupItem] at hrest
    obtain ⟨m, hm⟩ : ∃ m, 3 - (newItems l props.items).length = m + 1 := by
      rcases hr with hr | hr
      · exact ⟨1, by rw [hr]⟩
      · exact ⟨0, by rw [hr]⟩
    rw [lookupItem, rawItems, List.find?_append, hrest, hm]
    simp [List.range'_succ]
  rintro ⟨id'', t'', pmap, hrun', hall, hperm⟩
  rw [hrun] at hrun'
  cases hrun'
  rw [hlists.allProperties] at hall
  cases hall
  have hfirst : ∀ gs : List PItem, lookupItem
      (rawItems (fun _ => ⟨k, .int, 0⟩) (newItems l props.items) ++ gs) k =
        some ⟨k, .int, 0⟩ := by
    intro gs
    rw [lookupItem] at hraw
    rw [lookupItem, List.find?_append, hraw]
    rfl
  obtain ⟨hmem, -⟩ := lookupItem_spec (lookupItem_buildProperties (hfirst _) rfl)
  have hbuilt := hperm.mem_iff.mp hmem
  rw [buildProperties_eq_filter ((List.filter_sublist.map _).nodup
    (applyUpdates_keys_nodup hk.distinct props.distinct))] at hbuilt
  exact hfresh (List.mem_map_of_mem (f := PItem.key) (List.mem_filter.mp hbuilt).1)

/-- An update of a chain: the list has the override of the properties,
`update_pitems` stores it and leaves the other chains as they are, and
`update_properties` gives the same properties. -/
structure UpdatesChain (t : PropertyList) (id : Nat) (l props : List PItem) (nid : Nat) :
    Prop where
  override : ∀ k, lookupItem (applyUpdates l props) k = (lookupItem props k).or (lookupItem l k)
  distinct : ((applyUpdates l props).map PItem.key).Nodup
  pitems : ∃ id' t' ids groups, updatePitems nid id (applyUpdates l props) t = .ok id' t' ∧
    Packed t' id' (applyUpdates l props) ids groups ∧
    ∀ pl others gs, t.Lists pl others gs →
      (∀ own sets, t.Lists id own sets → ∀ i ∈ others, i ∉ own) → t'.Lists pl others gs
  map : ∀ raw, Yields (updatePitems nid id (applyUpdates l props)) t (applyUpdates l props) ∧
    Yields (updateProperties raw nid id props) t (applyUpdates l props)

theorem Packed.yields (h : Packed t' id' l ids groups) (hd : (l.map PItem.key).Nodup)
    {call : EStateM Err PropertyList Nat} (hrun : call t = .ok id' t') : Yields call t l :=
  ⟨id', t', _, hrun, h.lists.allProperties, buildProperties_of_perm h.perm hd⟩

theorem updatesChain_iff (hk : Kept t id l) (props : Properties) (nid : Nat) :
    UpdatesChain t id l props.items nid ↔ (l ≠ [] ∨ props.items = []) ∧
      (newItems l props.items).length ≠ 1 ∧ (newItems l props.items).length ≠ 2 := by
  constructor
  · rintro ⟨-, -, -, hmap⟩
    refine ⟨?_, ?_⟩
    · rw [or_iff_not_imp_left, not_not]
      rintro rfl
      by_contra hne
      exact updateProperties_unknown hk _ hne (fun _ => PItem.filler) nid
        (hmap fun _ => PItem.filler).2
    · rw [← not_or]
      intro hr
      obtain ⟨raw, hraw⟩ := updateProperties_unfilled hk props hr nid
      exact hraw (hmap raw).2
  · rintro ⟨hne, hr⟩
    obtain ⟨ids, groups, hpacked⟩ := hk.packed
    have hdistinct := applyUpdates_keys_nodup hk.distinct props.distinct
    obtain ⟨id', t', new, groups', hrun, -, hpacked', hcap, hfresh, hother⟩ := updatePitems_packed
      hpacked hk.bounded (length_le_applyUpdates hk.distinct props.distinct) nid
    refine ⟨lookupItem_applyUpdates hk.distinct props.distinct, hdistinct,
      ⟨id', t', _, groups', hrun, hpacked', ?_⟩, fun raw => ⟨hpacked'.yields hdistinct hrun,
        updateProperties_yields hk props hne hr raw nid⟩⟩
    intro pl others gs hl hdisjoint
    refine hl.congr hcap fun i hi => hother i fun hmem => ?_
    rcases List.mem_append.mp hmem with hnew | hown
    · exact hl.used i hi (hfresh i hnew)
    · exact hdisjoint ids groups hpacked.lists i hi hown

end PropertyList

/-- For every chain that the store makes, every order of its items and every
update, both implementations do the override exactly when there is a set to
start at, or nothing to do, and the number of new properties is not 1 or 2. -/
theorem update_chain_iff (t : PropertyList) (id : Nat) (l : List PItem)
    (h : PropertyList.Built t id l) (l' : List PItem) (hl : l'.Perm l) (props : Properties)
    (nid : Nat) :
    PropertyList.UpdatesChain t id l' props.items nid ↔ (l' ≠ [] ∨ props.items = []) ∧
      (newItems l' props.items).length ≠ 1 ∧ (newItems l' props.items).length ≠ 2 :=
  PropertyList.updatesChain_iff (h.kept.of_perm hl) props nid

/-- Properties for an update of the second item that adds three others. -/
def fourProperties : Properties where
  items := [⟨2, .int, 21⟩, ⟨3, .int, 30⟩, ⟨4, .int, 40⟩, ⟨5, .int, 50⟩]
  typed := by decide
  distinct := by decide

/-- Four properties for a chain with two items. -/
theorem update_chain_iff_four :
    PropertyList.UpdatesChain (PropertyList.empty.addPitems 7 [⟨1, .int, 10⟩, ⟨2, .int, 20⟩]).2
      (PropertyList.empty.addPitems 7 [⟨1, .int, 10⟩, ⟨2, .int, 20⟩]).1
      [⟨2, .int, 20⟩, ⟨1, .int, 10⟩] fourProperties.items 7 :=
  (update_chain_iff _ _ [⟨1, .int, 10⟩, ⟨2, .int, 20⟩]
    (.add 7 PropertyList.bounded_empty (by decide) (by decide)) [⟨2, .int, 20⟩, ⟨1, .int, 10⟩]
    (.swap _ _ _) fourProperties 7).mpr (by decide)

/-- The set for a new property has two items that nobody has written. -/
theorem update_chain_unfilled_items :
    ¬PropertyList.UpdatesChain (PropertyList.empty.addPitems 7 [⟨1, .int, 10⟩]).2
      (PropertyList.empty.addPitems 7 [⟨1, .int, 10⟩]).1 [⟨1, .int, 10⟩] [⟨2, .int, 20⟩] 7 := by
  rintro ⟨-, -, -, hmap⟩
  obtain ⟨-, id, t, pmap, hrun, hall, hperm⟩ := hmap fun _ => ⟨3, .int, 30⟩
  cases hrun
  cases hall
  exact absurd hperm.length_eq (by decide)

end Poseidon
