import Poseidon.Proofs.PropertyRoundTrip

/-!
# Updating a chain in place

A transaction updates properties on a list of items, with `apply_updates`, and
`update_pitems` writes the list over the sets of the chain; what does not fit
goes into new sets in front. `update_properties` does the same without the
list: it overwrites the items where they are and appends the ones it has not
found.

Both are described by the override of a list: an item is replaced when the
update has its key, and the items with new keys are added.
-/

namespace Poseidon

open Wp

/-! ## The override -/

/-- What an update leaves in the place of an item. -/
def overrideItem (props : List PItem) (p : PItem) : PItem := (lookupItem props p.key).getD p

/-- The items of an update whose keys are not in the list. -/
def newItems (l props : List PItem) : List PItem :=
  props.filter fun p => p.key ∉ l.map PItem.key

section

variable {l props : List PItem} {p pnew : PItem} {k : Nat}

theorem lookupItem_eq_none_iff : lookupItem l k = none ↔ k ∉ l.map PItem.key := by
  simp [lookupItem, List.find?_eq_none]

theorem lookupItem_cons_of_ne (h : p.key ≠ k) : lookupItem (p :: l) k = lookupItem l k :=
  List.find?_cons_of_neg (by simpa using h)

theorem lookupItem_cons_self : lookupItem (p :: l) p.key = some p :=
  List.find?_cons_of_pos (by simp)

theorem overrideItem_key : (overrideItem props p).key = p.key := by
  unfold overrideItem
  cases h : lookupItem props p.key with
  | none => rfl
  | some q => exact (lookupItem_spec h).2

theorem overrideItem_of_absent (h : p.key ∉ props.map PItem.key) : overrideItem props p = p := by
  rw [overrideItem, lookupItem_eq_none_iff.mpr h]
  rfl

theorem map_override_keys : (l.map (overrideItem props)).map PItem.key = l.map PItem.key := by
  rw [List.map_map]
  exact List.map_congr_left fun _ _ => overrideItem_key

theorem newItems_cons_of_mem (h : pnew.key ∈ l.map PItem.key) :
    newItems l (pnew :: props) = newItems l props :=
  List.filter_cons_of_neg (by simpa using h)

theorem newItems_cons_of_absent (h : pnew.key ∉ l.map PItem.key) :
    newItems l (pnew :: props) = pnew :: newItems l props :=
  List.filter_cons_of_pos (by simpa using h)

/-- An update without the keys of a list leaves it as it is. -/
theorem map_override_of_absent (h : ∀ p ∈ l, p.key ∉ props.map PItem.key) :
    l.map (overrideItem props) = l :=
  (List.map_congr_left fun p hp => overrideItem_of_absent (h p hp)).trans (List.map_id l)

/-- The list with one item replaced. -/
theorem replaceItem_eq (hd : (l.map PItem.key).Nodup) : replaceItem pnew l =
    if pnew.key ∈ l.map PItem.key then some (l.map (overrideItem [pnew])) else none := by
  induction l with
  | nil => rfl
  | cons q l ih =>
      rw [List.map_cons, List.nodup_cons] at hd
      rw [replaceItem]
      by_cases hq : q.key = pnew.key
      · have hrest : l.map (overrideItem [pnew]) = l := by
          refine map_override_of_absent fun p hp hmem => ?_
          rw [List.map_singleton, List.mem_singleton, ← hq] at hmem
          exact hd.1 (hmem ▸ List.mem_map_of_mem hp)
        have hself : overrideItem [pnew] q = pnew := by
          rw [overrideItem, hq, lookupItem_cons_self]
          rfl
        rw [if_pos hq, if_pos (by simp [hq]), List.map_cons, hself, hrest]
      · have hself : overrideItem [pnew] q = q :=
          overrideItem_of_absent (by simpa using hq)
        have hmem : pnew.key ∈ (q :: l).map PItem.key ↔ pnew.key ∈ l.map PItem.key := by
          rw [List.map_cons, List.mem_cons]
          exact or_iff_right fun h => hq h.symm
        rw [if_neg hq, ih hd.2]
        simp only [hmem]
        split
        · rw [List.map_cons, hself]
          rfl
        · rfl

/-- `apply_updates` computes the override. -/
theorem applyUpdates_eq (hd : (l.map PItem.key).Nodup) (hp : (props.map PItem.key).Nodup) :
    applyUpdates l props = l.map (overrideItem props) ++ newItems l props := by
  suffices hall : ∀ (props l todo : List PItem), (l.map PItem.key).Nodup →
      (props.map PItem.key).Nodup →
      props.foldl applyUpdate (l, todo) =
        (l.map (overrideItem props), todo ++ newItems l props) from
    congrArg (fun r => r.1 ++ r.2) (hall props l [] hd hp)
  intro props
  induction props with
  | nil =>
      intro l todo _ _
      have hself : l.map (overrideItem []) = l :=
        map_override_of_absent fun _ _ => List.not_mem_nil
      rw [hself, newItems, List.filter_nil, List.append_nil]
      rfl
  | cons pnew props ih =>
      intro l todo hd hp
      rw [List.map_cons, List.nodup_cons] at hp
      have hreplace : replaceItem pnew l =
          if pnew.key ∈ l.map PItem.key then some (l.map (overrideItem [pnew])) else none :=
        replaceItem_eq hd
      rw [List.foldl_cons]
      by_cases hmem : pnew.key ∈ l.map PItem.key
      · have hkeys : (l.map (overrideItem [pnew])).map PItem.key = l.map PItem.key :=
          map_override_keys
        have hitem : ∀ p, overrideItem props (overrideItem [pnew] p) =
            overrideItem (pnew :: props) p := by
          intro p
          by_cases hk : pnew.key = p.key
          · have hone : overrideItem [pnew] p = pnew := by
              rw [overrideItem, ← hk, lookupItem_cons_self]
              rfl
            rw [hone, overrideItem_of_absent hp.1, overrideItem, ← hk, lookupItem_cons_self]
            rfl
          · have hone : overrideItem [pnew] p = p :=
              overrideItem_of_absent (by simpa using Ne.symm hk)
            rw [hone, overrideItem, overrideItem, lookupItem_cons_of_ne hk]
        have hnew : newItems (l.map (overrideItem [pnew])) props = newItems l props := by
          rw [newItems, hkeys]
          rfl
        rw [applyUpdate_of_some (hreplace.trans (if_pos hmem)), ih _ _ (hkeys ▸ hd) hp.2,
          newItems_cons_of_mem hmem, hnew, List.map_map]
        exact congrArg (·, _) (List.map_congr_left fun p _ => hitem p)
      · have hitem : ∀ p ∈ l, overrideItem props p = overrideItem (pnew :: props) p := by
          intro p hpl
          have hk : pnew.key ≠ p.key := fun heq => hmem (heq ▸ List.mem_map_of_mem hpl)
          rw [overrideItem, overrideItem, lookupItem_cons_of_ne hk]
        rw [applyUpdate_of_none (hreplace.trans (if_neg hmem)), ih _ _ hd hp.2,
          newItems_cons_of_absent hmem, List.append_assoc, List.map_congr_left hitem]
        rfl

/-- A key of the update has the item of the update, another key that of the
list. -/
theorem lookupItem_applyUpdates (hd : (l.map PItem.key).Nodup) (hp : (props.map PItem.key).Nodup)
    (k : Nat) : lookupItem (applyUpdates l props) k =
      (lookupItem props k).or (lookupItem l k) := by
  have hmap : lookupItem (l.map (overrideItem props)) k =
      (lookupItem l k).map (overrideItem props) := by
    rw [lookupItem, List.find?_map, lookupItem]
    exact congrArg (Option.map _)
      (congrArg (List.find? · l) (funext fun p => by rw [Function.comp, overrideItem_key]))
  rw [applyUpdates_eq hd hp]
  cases hl : lookupItem l k with
  | none =>
      have habsent := lookupItem_eq_none_iff.mp hl
      have hnew : lookupItem (newItems l props) k = lookupItem props k := by
        rw [lookupItem, newItems, List.find?_filter, lookupItem]
        refine congrArg (List.find? · props) (funext fun p => ?_)
        by_cases hk : p.key = k
        · simp [hk, habsent]
        · simp [hk]
      rw [lookupItem, List.find?_append, ← lookupItem, hmap, hl, ← lookupItem, hnew]
      cases lookupItem props k <;> rfl
  | some q =>
      obtain ⟨-, rfl⟩ := lookupItem_spec hl
      rw [lookupItem, List.find?_append, ← lookupItem, hmap, hl, Option.map_some, overrideItem]
      cases lookupItem props q.key <;> rfl

theorem applyUpdates_keys_nodup (hd : (l.map PItem.key).Nodup)
    (hp : (props.map PItem.key).Nodup) : ((applyUpdates l props).map PItem.key).Nodup := by
  rw [applyUpdates_eq hd hp, List.map_append, map_override_keys, List.nodup_append]
  refine ⟨hd, (List.filter_sublist.map _).nodup hp, ?_⟩
  rintro a ha b hb rfl
  obtain ⟨p, hmem, rfl⟩ := List.mem_map.mp hb
  exact absurd ha (by simpa using (List.mem_filter.mp hmem).2)

/-- The first item with a key is the only one. -/
theorem eraseP_key (hp : (props.map PItem.key).Nodup) :
    props.eraseP (fun p => p.key == k) = props.filter fun p => p.key ≠ k := by
  induction props with
  | nil => rfl
  | cons q props ih =>
      rw [List.map_cons, List.nodup_cons] at hp
      by_cases hq : q.key = k
      · rw [List.eraseP_cons_of_pos (by simpa using hq), List.filter_cons_of_neg
          (by simpa using hq)]
        refine (List.filter_eq_self.mpr fun p hmem => ?_).symm
        have hne : p.key ≠ k := fun heq => hp.1 (by rw [hq, ← heq]; exact List.mem_map_of_mem hmem)
        exact decide_eq_true hne
      · rw [List.eraseP_cons_of_neg (by simpa using hq), List.filter_cons_of_pos
          (by simpa using hq),
          ih hp.2]

namespace PropertyList

/-- The items of a set are overridden, and what has not been found remains. -/
theorem updateItems_eq {items : List PItem} (hi : ((keyed items).map PItem.key).Nodup)
    (hp : (props.map PItem.key).Nodup) (h0 : ∀ p ∈ props, p.key ≠ 0) :
    updateItems props items = (newItems items props, items.map (overrideItem props)) := by
  induction items generalizing props with
  | nil =>
      have hall : newItems [] props = props := List.filter_eq_self.mpr fun _ _ => rfl
      rw [updateItems, hall]
      rfl
  | cons item items ih =>
      have hi' : ((keyed items).map PItem.key).Nodup :=
        (((List.sublist_cons_self item items).filter _).map _).nodup hi
      rw [updateItems]
      cases hfind : lookupItem props item.key with
      | none =>
          have habsent := lookupItem_eq_none_iff.mp hfind
          have hnew : newItems (item :: items) props = newItems items props := by
            refine List.filter_congr fun p hmem => ?_
            have hne : p.key ≠ item.key := fun heq => habsent (heq ▸ List.mem_map_of_mem hmem)
            simp [hne]
          rw [lookupItem] at hfind
          rw [hfind]
          simp only []
          rw [ih hi' hp h0, hnew, List.map_cons, overrideItem_of_absent habsent]
      | some p =>
          obtain ⟨hmem, hkey⟩ := lookupItem_spec hfind
          have hitem : item.key ≠ 0 := hkey ▸ h0 p hmem
          have hself : overrideItem props item = p := by
            rw [overrideItem, hfind]
            rfl
          have hnew : newItems items (props.filter fun p => p.key ≠ item.key) =
              newItems (item :: items) props := by
            rw [newItems, List.filter_filter, newItems]
            refine List.filter_congr fun p _ => ?_
            by_cases hk : p.key = item.key
            · simp [hk]
            · simp [hk]
          -- the key of the item is in no other item of the set
          have hrest : items.map (overrideItem (props.filter fun p => p.key ≠ item.key)) =
              items.map (overrideItem props) := by
            refine List.map_congr_left fun q hq => ?_
            have hne : q.key ≠ item.key := by
              intro heq
              rw [keyed, List.filter_cons_of_pos (by simpa using hitem), List.map_cons,
                List.nodup_cons] at hi
              refine hi.1 (heq ▸ List.mem_map_of_mem (List.mem_filter.mpr ⟨hq, ?_⟩))
              rw [heq]
              simpa using hitem
            rw [overrideItem, overrideItem, lookupItem, List.find?_filter, lookupItem]
            refine congrArg (Option.getD · q) (congrArg (List.find? · props) (funext fun p => ?_))
            by_cases hk : p.key = q.key
            · simp [hk, hne]
            · simp [hk]
          rw [lookupItem] at hfind
          rw [hfind]
          simp only []
          rw [eraseP_key hp, ih hi' ((List.filter_sublist.map _).nodup hp)
            fun q hq => h0 q (List.mem_filter.mp hq).1, hnew, hrest, List.map_cons, hself]

end PropertyList

end

/-! ## The sets of a chain are overwritten -/

namespace PropertyList

variable {t t' : PropertyList} {i id nid headId : Nat} {ids : List Nat}
  {groups groups' gs gs' : List (List PItem)} {g items props : List PItem} {p : PropertySet}

/-- The sets of the list from `id` have other items, the rest of the table is
as it was. -/
structure Overwritten (t : PropertyList) (id : Nat) (ids : List Nat) (t' : PropertyList)
    (groups : List (List PItem)) : Prop where
  lists : t'.Lists id ids groups
  capacity : t'.capacity = t.capacity
  other : ∀ j, j ∉ ids → t'.sets j = t.sets j

theorem put_sets (t : PropertyList) (i : Nat) (p : PropertySet) (j : Nat) :
    (t.put i p).sets j = if j = i then some p else t.sets j := rfl

theorem Lists.overwritten (h : t.Lists id ids groups) : Overwritten t id ids t groups :=
  ⟨h, rfl, fun _ _ => rfl⟩

theorem Overwritten.bounded (h : Overwritten t id ids t' groups) (hb : t.Bounded) :
    t'.Bounded := by
  intro j q hq
  by_cases hj : j ∈ ids
  · exact h.lists.lt_capacity j hj
  · rw [h.other j hj] at hq
    rw [h.capacity]
    exact hb j q hq

/-- The first set of a list. -/
theorem Lists.first (h : t.Lists id (i :: ids) (g :: groups)) :
    id = i ∧ i ≠ UNKNOWN ∧ i ∉ ids ∧
      ∃ p, t.atId i = .ok p ∧ t.sets i = some p ∧ p.items = g ∧ t.Lists p.next ids groups := by
  have hnd := (List.nodup_cons.mp h.path.nodup).1
  obtain ⟨hi, hrest⟩ := List.cons.inj h.items
  obtain ⟨p, hp, hg⟩ := Option.map_eq_some_iff.mp hi
  cases h.path with
  | cons hne hn hpath =>
      obtain ⟨q, hat, hq, rfl⟩ := atId_of_link hn
      rw [hp] at hq
      cases hq
      exact ⟨rfl, hne, hnd, p, hat, hp, hg, hpath, hrest⟩

/-- The first set is overwritten, and then the others. -/
theorem Overwritten.cons (hi : i ≠ UNKNOWN) (hlt : i < t.capacity) (hnd : i ∉ ids)
    (h : Overwritten (t.put i { p with items := items }) p.next ids t' groups) :
    Overwritten t i (i :: ids) t' (items :: groups) := by
  have hself : t'.sets i = some { p with items := items } := by
    rw [h.other i hnd, put_sets, if_pos rfl]
  have hcap : t'.capacity = t.capacity := h.capacity
  refine ⟨⟨.cons hi ?_ h.lists.path, ?_⟩, hcap, fun j hj => ?_⟩
  · rw [link, if_pos (hcap ▸ hlt), hself]
    rfl
  · rw [List.map_cons, hself, h.lists.items]
    rfl
  · rw [List.mem_cons, not_or] at hj
    rw [h.other j hj.2, put_sets, if_neg hj.1]

/-- The rest of a list does not run through its first set. -/
theorem Lists.put (h : t.Lists id ids groups) (hi : i ∉ ids) (q : PropertySet) :
    (t.put i q).Lists id ids groups := by
  refine h.congr (Nat.le_refl _) fun j hj => ?_
  have hne : j ≠ i := fun heq => hi (heq ▸ hj)
  rw [put_sets, if_neg hne]

/-! ## `update_pitems` -/

/-- At the end of the chain, the loop goes on as that of `add_pitems`. -/
theorem updateGroups_unknown : updateGroups nid gs UNKNOWN headId t =
    .ok (addGroups nid gs headId t).1 (addGroups nid gs headId t).2 := by
  induction gs generalizing headId t with
  | nil => rfl
  | cons g gs ih => exact ih

/-- The loop overwrites the sets of the chain first. -/
theorem updateGroups_overwritten (nid headId : Nat) (gs' : List (List PItem))
    (h : t.Lists id ids groups) (hlen : gs.length = ids.length) :
    ∃ t', Overwritten t id ids t' (gs.map fillItems) ∧
      updateGroups nid (gs ++ gs') id headId t = updateGroups nid gs' UNKNOWN headId t' := by
  induction ids generalizing t id groups gs with
  | nil =>
      obtain rfl := List.length_eq_zero_iff.mp hlen
      obtain rfl := h.path.eq_nil_iff.mp rfl
      exact ⟨t, (lists_unknown t).overwritten, rfl⟩
  | cons i ids ih =>
      cases gs with
      | nil => cases hlen
      | cons g gs =>
          cases groups with
          | nil => cases h.length_eq
          | cons g' groups =>
              have hlt := h.lt_capacity i List.mem_cons_self
              obtain ⟨rfl, hi, hnd, p, hat, -, -, hrest⟩ := h.first
              obtain ⟨t', hover, heq⟩ := ih (hrest.put hnd { p with items := fillItems g })
                (Nat.succ.inj hlen)
              refine ⟨t', hover.cons hi hlt hnd, ?_⟩
              rw [← heq, List.cons_append, updateGroups]
              simp only [bind, EStateM.bind, get_apply,
                if_pos hi, hat]
              rfl

/-! ## `update_properties` -/

theorem newItems_append : newItems (g ++ items) props = newItems items (newItems g props) := by
  rw [newItems, newItems, newItems, List.filter_filter]
  refine List.filter_congr fun p _ => ?_
  rw [Bool.eq_iff_iff, Bool.and_eq_true, decide_eq_true_eq, decide_eq_true_eq, decide_eq_true_eq,
    List.map_append, List.mem_append, not_or]
  exact and_comm

/-- What has been found in the first set is in no other one. -/
theorem override_rest (hk : ((keyed (g ++ items)).map PItem.key).Nodup)
    (h0 : ∀ p ∈ props, p.key ≠ 0) :
    ∀ q ∈ items, overrideItem (newItems g props) q = overrideItem props q := by
  intro q hq
  by_cases hg : q.key ∈ g.map PItem.key
  · have hzero : q.key = 0 := by
      by_contra hne
      rw [keyed_append, List.map_append, List.nodup_append] at hk
      obtain ⟨q', hq', heq⟩ := List.mem_map.mp hg
      refine hk.2.2 q.key ?_ q.key ?_ rfl
      · rw [← heq]
        exact List.mem_map_of_mem (List.mem_filter.mpr ⟨hq', decide_eq_true (heq ▸ hne)⟩)
      · exact List.mem_map_of_mem (List.mem_filter.mpr ⟨hq, decide_eq_true hne⟩)
    have habsent : q.key ∉ props.map PItem.key := by
      intro hmem
      obtain ⟨p, hp, heq⟩ := List.mem_map.mp hmem
      exact h0 p hp (heq.trans hzero)
    rw [overrideItem_of_absent habsent]
    exact overrideItem_of_absent fun hmem => habsent ((List.filter_sublist.map _).subset hmem)
  · rw [overrideItem, overrideItem, lookupItem, newItems, List.find?_filter, lookupItem]
    refine congrArg (Option.getD · q) (congrArg (List.find? · props) (funext fun p => ?_))
    by_cases hkey : p.key = q.key
    · simp [hkey, hg]
    · simp [hkey]

theorem override_groups (hk : ((keyed (g ++ groups.flatten)).map PItem.key).Nodup)
    (h0 : ∀ p ∈ props, p.key ≠ 0) :
    groups.map (List.map (overrideItem (newItems g props))) =
      groups.map (List.map (overrideItem props)) := by
  refine List.map_congr_left fun g' hg' => List.map_congr_left fun q hq => ?_
  exact override_rest hk h0 q (List.mem_flatten.mpr ⟨g', hg', hq⟩)

theorem override_nil : groups.map (List.map (overrideItem [])) = groups := by
  refine (List.map_congr_left fun g _ => ?_).trans (List.map_id groups)
  exact map_override_of_absent fun _ _ => List.not_mem_nil

/-- The loop overrides the items of the chain. A chain without sets has no slot
to start at. -/
theorem updateLoop_wp : ∀ (ids : List Nat) {id fuel : Nat} {t : PropertyList}
    {groups : List (List PItem)} {props : List PItem}, t.Lists id ids groups →
    ids.length < fuel → ((keyed groups.flatten).map PItem.key).Nodup →
    (props.map PItem.key).Nodup → (∀ p ∈ props, p.key ≠ 0) → (props = [] ∨ ids ≠ []) →
    wp (updateLoop fuel props id)
      (fun rest t' => rest = newItems groups.flatten props ∧
        Overwritten t id ids t' (groups.map (List.map (overrideItem props))))
      (fun _ _ => False) t := by
  intro ids
  induction ids with
  | nil =>
      intro id fuel t groups props h hfuel _ _ _ hne
      obtain rfl := hne.resolve_right fun hnil => hnil rfl
      obtain ⟨fuel, rfl⟩ : ∃ m, fuel = m + 1 := ⟨fuel - 1, by omega⟩
      rw [updateLoop, if_pos rfl, override_nil]
      exact ⟨rfl, h.overwritten⟩
  | cons i ids ih =>
      intro id fuel t groups props h hfuel hk hp h0 _
      rw [List.length_cons] at hfuel
      obtain ⟨fuel, rfl⟩ : ∃ m, fuel = m + 1 := ⟨fuel - 1, by omega⟩
      rw [updateLoop]
      refine wp_ite (fun hnil => ?_) fun _ => ?_
      · rw [hnil, override_nil]
        exact ⟨rfl, h.overwritten⟩
      cases groups with
      | nil => cases h.length_eq
      | cons g groups =>
          have hlt := h.lt_capacity i List.mem_cons_self
          obtain ⟨rfl, hi, hnd, p, hat, -, rfl, hrest⟩ := h.first
          rw [List.flatten_cons] at hk ⊢
          have hg : ((keyed p.items).map PItem.key).Nodup := by
            rw [keyed_append, List.map_append] at hk
            exact (List.nodup_append.mp hk).1
          have htail : ((keyed groups.flatten).map PItem.key).Nodup := by
            rw [keyed_append, List.map_append] at hk
            exact (List.nodup_append.mp hk).2.1
          have hover :=
            (hrest.put hnd { p with items := p.items.map (overrideItem props) }).overwritten
          rw [if_neg hi]
          simp only [wp_bind, wp_get, hat, wp_set, updateItems_eq hg hp h0]
          rw [newItems_append, List.map_cons, ← override_groups hk h0]
          refine wp_ite (fun hnil => ?_) fun _ => wp_ite (fun hend => ?_) fun hnext => ?_
          · rw [hnil, override_nil]
            exact ⟨rfl, hover.cons hi hlt hnd⟩
          · obtain rfl := hrest.path.eq_nil_iff.mpr hend
            obtain rfl := List.length_eq_zero_iff.mp hrest.length_eq.symm
            refine ⟨?_, hover.cons hi hlt hnd⟩
            exact (List.filter_eq_self.mpr fun _ _ => rfl).symm
          · refine wp_mono (ih (hrest.put hnd _) (by omega) htail
              ((List.filter_sublist.map _).nodup hp) (fun q hq => h0 q (List.mem_filter.mp hq).1)
              (.inr fun hnil => hnext (hrest.path.eq_nil_iff.mp hnil))) ?_ fun _ _ h => h
            rintro rest t' ⟨hrest', hover'⟩
            exact ⟨hrest', hover'.cons hi hlt hnd⟩

end PropertyList

end Poseidon
