import Poseidon.Proofs.PropertySets

/-!
# Reading back what was added

`add_pitems` packs a list of items into sets of three, each in front of the
one before, and fills up the last set. The readers of a chain give the list
back, up to the order. A key that no item has is the exception: the search for
it ends with a `p_item()`, and `empty` does not hold of that. Only the key 0,
which the fillers have, can be searched for with an empty item as the result.
-/

namespace Poseidon

open Wp

/-- The number of fillers in the last set. -/
def fillers (l : List PItem) : Nat := (3 - l.length % 3) % 3

theorem flatten_fill (l : List PItem) :
    ((triples l).map fillItems).flatten = l ++ List.replicate (fillers l) PItem.filler := by
  induction l using triples.induct with
  | case1 => rfl
  | case2 a => rfl
  | case3 a b => rfl
  | case4 a b c rest ih =>
      have hlen : fillers (a :: b :: c :: rest) = fillers rest := by
        simp only [fillers, List.length_cons]
        omega
      rw [triples, List.map_cons, List.flatten_cons, ih, hlen]
      rfl

/-- The items of the sets in the order of the chain. -/
theorem flatten_fill_perm (l : List PItem) :
    ((triples l).reverse.map fillItems).flatten.Perm
      (l ++ List.replicate (fillers l) PItem.filler) := by
  rw [← flatten_fill]
  exact ((List.reverse_perm _).map _).flatten

section

variable {l c : List PItem} {m k : Nat} (hc : c.Perm (l ++ List.replicate m PItem.filler))
include hc

theorem keyed_of_perm (hl : ∀ p ∈ l, p.key ≠ 0) : (PropertyList.keyed c).Perm l := by
  have hself : l.filter (fun p => decide (p.key ≠ 0)) = l :=
    List.filter_eq_self.mpr (by simpa using hl)
  have hkeyed := hc.filter fun p => decide (p.key ≠ 0)
  rw [filter_fillers (by decide), hself] at hkeyed
  exact hkeyed

theorem buildProperties_of_perm (hd : (l.map PItem.key).Nodup) :
    (buildPropertiesFromPitems c).Perm (buildPropertiesFromPitems l) := by
  have hstored := hc.filter fun p => p.typecode.stored
  rw [filter_fillers rfl] at hstored
  have hl : ((l.filter fun p => p.typecode.stored).map PItem.key).Nodup :=
    (List.filter_sublist.map _).nodup hd
  have hc' := (hstored.map PItem.key).nodup_iff.mpr hl
  rw [buildProperties_eq_filter hl, buildProperties_eq_filter hc']
  exact hstored

/-- The item with a key that is in the list. -/
theorem lookupItem_of_perm (hd : (l.map PItem.key).Nodup) (hl : ∀ p ∈ l, p.key ≠ 0) {p : PItem}
    (hp : p ∈ l) : lookupItem c p.key = some p := by
  cases hq : lookupItem c p.key with
  | none =>
      have hmem : p ∈ c := hc.mem_iff.mpr (List.mem_append_left _ hp)
      exact absurd (beq_iff_eq.mpr rfl) (List.find?_eq_none.mp hq p hmem)
  | some q =>
      obtain ⟨hmem, hkey⟩ := lookupItem_spec hq
      rcases List.mem_append.mp (hc.mem_iff.mp hmem) with hq | hq
      · rw [List.inj_on_of_nodup_map hd hq hp hkey]
      · rw [(List.mem_replicate.mp hq).2] at hkey
        exact absurd hkey.symm (hl p hp)

/-- The search for a key that is not in the list finds a filler, or nothing. -/
theorem lookup_empty_iff (hk : ∀ p ∈ l, p.key ≠ k) :
    ((lookupItem c k).getD PItem.zero).empty = true ↔ k = 0 ∧ m ≠ 0 := by
  cases hq : lookupItem c k with
  | none =>
      refine iff_of_false (by decide) ?_
      rintro ⟨rfl, hm⟩
      have hmem : PItem.filler ∈ c :=
        hc.mem_iff.mpr (List.mem_append_right _ (List.mem_replicate.mpr ⟨hm, rfl⟩))
      exact absurd rfl (List.find?_eq_none.mp hq _ hmem)
  | some q =>
      obtain ⟨hmem, hkey⟩ := lookupItem_spec hq
      rcases List.mem_append.mp (hc.mem_iff.mp hmem) with hin | hin
      · exact absurd hkey (hk q hin)
      · obtain ⟨hm, rfl⟩ := List.mem_replicate.mp hin
        exact iff_of_true rfl ⟨hkey.symm, hm⟩

end

namespace PropertyList

variable {t : PropertyList} {nid k : Nat} {l : List PItem}

/-- What `add_pitems` stores is read back by all readers, the rest of the table
stays as it is, and `remove_properties` takes back what was stored. -/
structure RoundTrip (t : PropertyList) (nid : Nat) (l : List PItem) (k : Nat) : Prop where
  dirty : ∃ items, (t.addPitems nid l).2.buildDirtyPropertyList (t.addPitems nid l).1 = .ok items ∧
    items.Perm l
  map : ∃ pmap, (t.addPitems nid l).2.allProperties (t.addPitems nid l).1 = .ok pmap ∧
    pmap.Perm (buildPropertiesFromPitems l)
  value : ∃ item, (t.addPitems nid l).2.propertyValue (t.addPitems nid l).1 k = .ok item ∧
    match lookupItem l k with
    | some p => item = p
    | none => item.empty = true
  others : ∀ pl ids groups, t.Lists pl ids groups → (t.addPitems nid l).2.Lists pl ids groups
  removed : ∃ t', removeProperties (t.addPitems nid l).1 (t.addPitems nid l).2 = .ok () t' ∧
    t'.sets = t.sets

theorem roundTrip_iff (hb : t.Bounded) (hl : ∀ p ∈ l, p.key ≠ 0) (hd : (l.map PItem.key).Nodup) :
    RoundTrip t nid l k ↔ k ∈ l.map PItem.key ∨ k = 0 ∧ l.length % 3 ≠ 0 := by
  obtain ⟨new, hnew⟩ := addGroups_prepended hb nid (triples l) UNKNOWN
  have hlists := hnew.lists (lists_unknown t)
  rw [List.append_nil, List.append_nil] at hlists
  have hperm := flatten_fill_perm l
  have hfill : fillers l ≠ 0 ↔ l.length % 3 ≠ 0 := by
    rw [fillers]
    omega
  have hvalue : ∀ item, (t.addPitems nid l).2.propertyValue (t.addPitems nid l).1 k = .ok item ↔
      item = (lookupItem ((triples l).reverse.map fillItems).flatten k).getD PItem.zero := by
    intro item
    rw [show (t.addPitems nid l).2.propertyValue (t.addPitems nid l).1 k = _ from
      hlists.propertyValue k, Except.ok.injEq]
    exact eq_comm
  constructor
  · rintro ⟨-, -, ⟨item, hitem, hmatch⟩, -, -⟩
    rw [(hvalue item).mp hitem] at hmatch
    cases hk : lookupItem l k with
    | some p =>
        obtain ⟨hp, rfl⟩ := lookupItem_spec hk
        exact .inl (List.mem_map_of_mem hp)
    | none =>
        rw [hk] at hmatch
        have habsent : ∀ p ∈ l, p.key ≠ k := fun p hp heq =>
          List.find?_eq_none.mp hk p hp (beq_iff_eq.mpr heq)
        exact .inr (((lookup_empty_iff hperm habsent).mp hmatch).imp_right hfill.mp)
  · intro hready
    refine ⟨⟨_, hlists.buildDirtyPropertyList, keyed_of_perm hperm hl⟩,
      ⟨_, hlists.allProperties, buildProperties_of_perm hperm hd⟩, ⟨_, (hvalue _).mpr rfl, ?_⟩,
      fun pl ids groups h => h.grows hnew.grows, ?_⟩
    · cases hk : lookupItem l k with
      | some p =>
          obtain ⟨hp, rfl⟩ := lookupItem_spec hk
          rw [lookupItem_of_perm hperm hd hl hp]
          rfl
      | none =>
          have habsent : ∀ p ∈ l, p.key ≠ k := fun p hp heq =>
            List.find?_eq_none.mp hk p hp (beq_iff_eq.mpr heq)
          refine (lookup_empty_iff hperm habsent).mpr ?_
          rcases hready with hmem | ⟨h0, hlen⟩
          · obtain ⟨p, hp, heq⟩ := List.mem_map.mp hmem
            exact absurd heq (habsent p hp)
          · exact ⟨h0, hfill.mpr hlen⟩
    · obtain ⟨_, t', hres, -, hsets⟩ := wp_exists hlists.removeProperties
      refine ⟨t', hres, funext fun i => ?_⟩
      rw [hsets]
      split
      · next hi => exact (hnew.fresh i hi).symm
      · next hi => exact hnew.other i hi

end PropertyList

/-- For every content of the property table and every list of items with
distinct keys, what is added is read back exactly when the key that is searched
for is in the list, or is that of the fillers and there is one. -/
theorem property_chain_round_trip (t : PropertyList) (ht : t.Bounded) (nid : Nat) (l : List PItem)
    (hl : ∀ p ∈ l, p.key ≠ 0) (hd : (l.map PItem.key).Nodup) (k : Nat) :
    PropertyList.RoundTrip t nid l k ↔ k ∈ l.map PItem.key ∨ k = 0 ∧ l.length % 3 ≠ 0 :=
  PropertyList.roundTrip_iff ht hl hd

/-- Four items, of which the last one is in a set of its own. -/
theorem property_chain_round_trip_four :
    PropertyList.RoundTrip .empty 7
      [⟨1, .int, 10⟩, ⟨2, .int, 20⟩, ⟨3, .uint64, 30⟩, ⟨4, .dcode, 40⟩] 4 :=
  (property_chain_round_trip .empty PropertyList.bounded_empty 7
    [⟨1, .int, 10⟩, ⟨2, .int, 20⟩, ⟨3, .uint64, 30⟩, ⟨4, .dcode, 40⟩] (by decide) (by decide)
    4).mpr (by decide)

/-- The search for a key that is not there returns an item that is not
empty. -/
theorem absent_key_not_empty :
    ¬PropertyList.RoundTrip .empty 7 [⟨1, .int, 10⟩] 2 := by
  rintro ⟨-, -, ⟨item, hitem, hmatch⟩, -, -⟩
  cases hitem
  cases hmatch

end Poseidon
