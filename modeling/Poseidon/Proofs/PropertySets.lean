import Poseidon.Proofs.PropertyGrowth
import Poseidon.Store.PropertyLoad

/-!
# The sets of a chain

`Chain` says which items with a key a chain has. Here a chain is described by
its sets, fillers included, in the order in which it is read: `Lists t pl ids
groups` says that the list from `pl` runs through the slots `ids` and that the
sets there have the items `groups`. What the readers of the table give is then
a function of `groups`.

`store` and `append` put a set into a slot that was not in use; which one does
not matter.
-/

namespace Poseidon

open Wp

/-- Fillers do not change what a list of items holds. -/
theorem filter_fillers {q : PItem → Bool} (hq : q PItem.filler = false) (l : List PItem) (m : Nat) :
    (l ++ List.replicate m PItem.filler).filter q = l.filter q := by
  have hrep : (List.replicate m PItem.filler).filter q = [] := by
    refine List.filter_eq_nil_iff.mpr fun p hp => ?_
    rw [(List.mem_replicate.mp hp).2, hq]
    decide
  rw [List.filter_append, hrep, List.append_nil]

namespace PropertyList

variable {t t' : PropertyList} {pl i k : Nat} {ids : List Nat} {groups : List (List PItem)}
  {p : PropertySet}

/-- The list from `pl` runs through `ids`, with these items in its sets. -/
structure Lists (t : PropertyList) (pl : Nat) (ids : List Nat) (groups : List (List PItem)) :
    Prop where
  path : LinkPath t.link UNKNOWN pl ids
  items : ids.map (fun i => (t.sets i).map PropertySet.items) = groups.map some

theorem lists_unknown (t : PropertyList) : t.Lists UNKNOWN [] [] := ⟨.nil, rfl⟩

theorem Lists.lt_capacity (h : t.Lists pl ids groups) : ∀ i ∈ ids, i < t.capacity := by
  intro i hi
  obtain ⟨j, hj⟩ := Option.isSome_iff_exists.mp (h.path.next_isSome i hi)
  rw [link] at hj
  split at hj
  · next hlt => exact hlt
  · cases hj

theorem Lists.used (h : t.Lists pl ids groups) : ∀ i ∈ ids, t.sets i ≠ none := by
  intro i hi hnone
  obtain ⟨j, hj⟩ := Option.isSome_iff_exists.mp (h.path.next_isSome i hi)
  rw [link, hnone] at hj
  split at hj
  · cases hj
  · cases hj

theorem Lists.length_eq (h : t.Lists pl ids groups) : ids.length = groups.length := by
  simpa using congrArg List.length h.items

theorem Lists.unique {ids' : List Nat} {groups' : List (List PItem)} (h : t.Lists pl ids groups)
    (h' : t.Lists pl ids' groups') : groups = groups' := by
  have hitems := h'.items
  rw [h'.path.unique h.path, h.items] at hitems
  exact List.map_injective_iff.mpr (fun _ _ => Option.some.inj) hitems

/-- All items, in the order in which they are read. -/
theorem Lists.flatten_eq (h : t.Lists pl ids groups) :
    (ids.filterMap t.sets).flatMap PropertySet.items = groups.flatten := by
  have hitems := h.items
  clear h
  induction ids generalizing groups with
  | nil =>
      cases groups with
      | nil => rfl
      | cons g groups => cases hitems
  | cons i ids ih =>
      cases groups with
      | nil => cases hitems
      | cons g groups =>
          obtain ⟨hi, hrest⟩ := List.cons.inj hitems
          obtain ⟨p, hp, rfl⟩ := Option.map_eq_some_iff.mp hi
          rw [List.filterMap_cons, hp, List.flatMap_cons, ih hrest, List.flatten_cons]

/-! ## Reading -/

theorem Lists.walk (h : t.Lists pl ids groups) :
    t.walk (t.capacity + 1) pl = .ok (ids.filterMap t.sets) := by
  have hle := h.path.length_le h.lt_capacity
  exact walk_of_path h.path _ (by omega)

theorem Lists.chainItems (h : t.Lists pl ids groups) : t.chainItems pl = .ok groups.flatten := by
  rw [PropertyList.chainItems, h.walk, ← h.flatten_eq]
  rfl

theorem Lists.buildDirtyPropertyList (h : t.Lists pl ids groups) :
    t.buildDirtyPropertyList pl = .ok (keyed groups.flatten) := by
  rw [PropertyList.buildDirtyPropertyList, h.chainItems]
  rfl

theorem Lists.propertyValue (h : t.Lists pl ids groups) (k : Nat) :
    t.propertyValue pl k = .ok ((lookupItem groups.flatten k).getD PItem.zero) := by
  have hle := h.path.length_le h.lt_capacity
  rw [PropertyList.propertyValue, propertyValueLoop_of_path h.path _ (by omega), h.flatten_eq]

theorem Lists.allProperties (h : t.Lists pl ids groups) :
    t.allProperties pl = .ok (buildPropertiesFromPitems groups.flatten) := by
  rw [PropertyList.allProperties, h.chainItems]
  split
  · next hle =>
      have hnil : groups = [] := by
        cases hpath : ids with
        | nil =>
            have hlen := h.length_eq
            rw [hpath] at hlen
            exact List.length_eq_zero_iff.mp hlen.symm
        | cons i rest =>
            have hmem : pl ∈ ids := by
              have hp := h.path
              rw [hpath] at hp ⊢
              cases hp with
              | cons _ _ _ => exact List.mem_cons_self
            exact absurd (h.lt_capacity pl hmem) (Nat.not_lt.mpr hle)
      rw [hnil]
      rfl
  · rfl

/-! ## A new set -/

/-- `p` has been put into the slot `i`, which was not in use. -/
structure Placed (t : PropertyList) (p : PropertySet) (i : Nat) (t' : PropertyList) : Prop where
  free : t.sets i = none
  known : i ≠ UNKNOWN
  lt : i < t'.capacity
  capacity : t.capacity ≤ t'.capacity
  sets : ∀ j, t'.sets j = if j = i then some p else t.sets j

theorem placed_store (hb : t.Bounded) (p : PropertySet) :
    Placed t p (t.store p).1 (t.store p).2 :=
  ⟨store_free hb p, store_fst_ne hb p, store_lt hb p, le_store_capacity t p, store_sets t p⟩

theorem placed_append (hb : t.Bounded) (p : PropertySet) :
    Placed t p (t.append p).1 (t.append p).2 := by
  have hspec := firstFree_spec hb (min setsPerChunk t.capacity) (t.capacity - setsPerChunk)
    (by omega)
  have hone : 2 ≤ setsPerChunk := by decide
  refine ⟨hspec.1, hspec.2.1, ?_, ?_, fun _ => rfl⟩
  · simp only [append]
    split
    · next hlt => exact hlt
    · omega
  · simp only [append]
    split
    · exact Nat.le_refl _
    · omega

theorem Placed.bounded (h : Placed t p i t') (hb : t.Bounded) : t'.Bounded := by
  intro j q hq
  rw [h.sets] at hq
  split at hq
  · next hj =>
      rw [hj]
      exact h.lt
  · exact Nat.lt_of_lt_of_le (hb j q hq) h.capacity

theorem Placed.grows (h : Placed t p i t') : Grows t t' := by
  refine ⟨h.capacity, fun j q hq => ?_⟩
  have hne : j ≠ i := by
    rintro rfl
    rw [h.free] at hq
    cases hq
  rw [h.sets, if_neg hne]
  exact hq

/-- Lists are not affected by what happens in other slots. -/
theorem Lists.congr (h : t.Lists pl ids groups) (hcap : t.capacity ≤ t'.capacity)
    (hsets : ∀ i ∈ ids, t'.sets i = t.sets i) : t'.Lists pl ids groups := by
  refine ⟨h.path.congr fun i hi => ?_, ?_⟩
  · have hlt := h.lt_capacity i hi
    rw [link, link, if_pos hlt, if_pos (by omega), hsets i hi]
  · rw [← h.items]
    exact List.map_congr_left fun i hi => by rw [hsets i hi]

theorem Lists.grows (h : t.Lists pl ids groups) (hg : Grows t t') : t'.Lists pl ids groups :=
  h.congr hg.capacity fun i hi => (hg.sets_eq h.path i hi).1

/-- The new set is the first one of the list that it refers to. -/
theorem Placed.lists (hp : Placed t p i t') (h : t.Lists p.next ids groups) :
    t'.Lists i (i :: ids) (p.items :: groups) := by
  have hrest := h.grows hp.grows
  have hself : t'.sets i = some p := by rw [hp.sets, if_pos rfl]
  refine ⟨.cons hp.known ?_ hrest.path, ?_⟩
  · rw [link, if_pos hp.lt, hself]
    rfl
  · rw [List.map_cons, hself, hrest.items]
    rfl

/-! ## New sets in front -/

/-- Sets with the items `sets` have been put into the slots `new`, in front of
the list from `next`; the list starts at `id` afterwards. -/
structure Prepended (t : PropertyList) (next : Nat) (t' : PropertyList) (id : Nat)
    (new : List Nat) (sets : List (List PItem)) : Prop where
  lists : ∀ {ids groups}, t.Lists next ids groups → t'.Lists id (new ++ ids) (sets ++ groups)
  fresh : ∀ i ∈ new, t.sets i = none
  other : ∀ i, i ∉ new → t'.sets i = t.sets i
  capacity : t.capacity ≤ t'.capacity
  bounded : t'.Bounded

variable {next id : Nat} {new : List Nat} {sets : List (List PItem)} {t1 : PropertyList}

theorem Prepended.refl (hb : t.Bounded) : Prepended t next t next [] [] :=
  ⟨fun h => h, fun _ hi => (by cases hi), fun _ _ => rfl, Nat.le_refl _, hb⟩

theorem Placed.prepended (hp : Placed t p i t1) (h : Prepended t1 i t' id new sets)
    (hnext : p.next = next) : Prepended t next t' id (new ++ [i]) (sets ++ [p.items]) := by
  refine ⟨fun hl => ?_, fun j hj => ?_, fun j hj => ?_, Nat.le_trans hp.capacity h.capacity,
    h.bounded⟩
  · rw [List.append_assoc, List.append_assoc]
    exact h.lists (hp.lists (hnext ▸ hl))
  · rcases List.mem_append.mp hj with hj | hj
    · have hfree := h.fresh j hj
      rw [hp.sets] at hfree
      split at hfree
      · cases hfree
      · exact hfree
    · rw [List.mem_singleton.mp hj]
      exact hp.free
  · rw [List.mem_append, List.mem_singleton, not_or] at hj
    rw [h.other j hj.1, hp.sets, if_neg hj.2]

theorem Prepended.grows (h : Prepended t next t' id new sets) : Grows t t' := by
  refine ⟨h.capacity, fun i p hp => ?_⟩
  rw [h.other i fun hi => ?_]
  · exact hp
  · rw [h.fresh i hi] at hp
    cases hp

theorem addGroups_prepended (hb : t.Bounded) (nid : Nat) (gs : List (List PItem)) (next : Nat) :
    ∃ new, Prepended t next (addGroups nid gs next t).2 (addGroups nid gs next t).1 new
      (gs.reverse.map fillItems) := by
  induction gs generalizing t next with
  | nil => exact ⟨[], .refl hb⟩
  | cons g gs ih =>
      have hp := placed_store hb ⟨next, nid, fillItems g⟩
      obtain ⟨new, h⟩ := ih (hp.bounded hb) (t.store ⟨next, nid, fillItems g⟩).1
      refine ⟨new ++ [(t.store ⟨next, nid, fillItems g⟩).1], ?_⟩
      rw [List.reverse_cons, List.map_append]
      exact hp.prepended h rfl

theorem appendGroups_prepended (hb : t.Bounded) (nid : Nat) (gs : List (List PItem)) (next : Nat) :
    ∃ new, Prepended t next (appendGroups nid fillItems gs next t).2
      (appendGroups nid fillItems gs next t).1 new (gs.reverse.map fillItems) := by
  induction gs generalizing t next with
  | nil => exact ⟨[], .refl hb⟩
  | cons g gs ih =>
      have hp := placed_append hb ⟨next, nid, fillItems g⟩
      obtain ⟨new, h⟩ := ih (hp.bounded hb) (t.append ⟨next, nid, fillItems g⟩).1
      refine ⟨new ++ [(t.append ⟨next, nid, fillItems g⟩).1], ?_⟩
      rw [List.reverse_cons, List.map_append]
      exact hp.prepended h rfl

/-! ## Removing -/

/-- The loop frees the sets of the list, and nothing else. -/
theorem removeLoop_sets : ∀ (ids : List Nat) {i fuel : Nat} {t : PropertyList},
    LinkPath t.link UNKNOWN i ids → ids.length ≤ fuel →
    wp (removeLoop fuel i)
      (fun _ t' => t'.capacity = t.capacity ∧
        ∀ j, t'.sets j = if j ∈ ids then none else t.sets j)
      (fun _ _ => False) t := by
  intro ids
  induction ids with
  | nil =>
      intro i fuel t h _
      have hi := h.eq_nil_iff.mp rfl
      cases fuel with
      | zero =>
          rw [removeLoop, if_pos hi]
          exact ⟨rfl, fun j => rfl⟩
      | succ fuel =>
          rw [removeLoop, if_pos hi]
          exact ⟨rfl, fun j => rfl⟩
  | cons a ids ih =>
      intro i fuel t h hfuel
      obtain ⟨fuel, rfl⟩ : ∃ m, fuel = m + 1 := ⟨fuel - 1, by simp at hfuel; omega⟩
      have hnd := (List.nodup_cons.mp h.nodup).1
      cases h with
      | cons hi hn hp =>
          obtain ⟨p, hat, -, rfl⟩ := atId_of_link hn
          rw [removeLoop, if_neg hi]
          simp only [wp_bind, wp_get, hat, wp_set]
          have hpath : LinkPath (t.erase a).link UNKNOWN p.next ids := by
            refine hp.congr fun b hb => ?_
            have hne : b ≠ a := fun heq => hnd (heq ▸ hb)
            simp only [link, PropertyList.erase, if_neg hne]
          refine wp_mono (ih hpath (Nat.le_of_succ_le_succ hfuel)) ?_ fun _ _ h => h
          rintro _ t' ⟨hcap, hsets⟩
          refine ⟨hcap, fun j => ?_⟩
          rw [hsets, PropertyList.erase]
          simp only [List.mem_cons]
          by_cases hj : j = a
          · simp [hj]
          · simp [hj]

theorem Lists.removeProperties (h : t.Lists pl ids groups) :
    wp (removeProperties pl)
      (fun _ t' => t'.capacity = t.capacity ∧
        ∀ j, t'.sets j = if j ∈ ids then none else t.sets j)
      (fun _ _ => False) t := by
  have hle := h.path.length_le h.lt_capacity
  simp only [PropertyList.removeProperties, wp_bind, wp_get]
  refine wp_ite (fun hpl => ?_) fun hpl => ?_
  · rw [h.path.eq_nil_iff.mpr hpl]
    exact ⟨rfl, fun _ => rfl⟩
  · have hmem : pl ∈ ids := by
      cases h.path with
      | nil => exact absurd rfl hpl
      | cons _ _ _ => exact List.mem_cons_self
    have hlt := h.lt_capacity pl hmem
    refine wp_ite (fun hcap => absurd hlt (Nat.not_lt.mpr hcap)) fun _ => ?_
    exact removeLoop_sets ids h.path (by omega)

end PropertyList

end Poseidon
