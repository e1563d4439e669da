import Mathlib.Data.List.Nodup
import Poseidon.Lib.Wp
import Poseidon.Store.Properties

/-!
# Typed items

Clients hand in typed values only, and the fillers of a property set have no
key. So an item with a key has a value wherever it is kept, in the property
table or in the list of a dirty version: this module carries that through
the operations of the table.
-/

namespace Poseidon

open Wp

/-- Every item with a key has a stored type. -/
def Typed (items : List PItem) : Prop :=
  ∀ p ∈ items, p.key ≠ 0 → p.typecode.stored = true

theorem Typed.subset {l l' : List PItem} (h : Typed l)
    (hsub : ∀ p ∈ l', p ∈ l) : Typed l' := fun p hp => h p (hsub p hp)

theorem Properties.items_typed (props : Properties) : Typed props.items :=
  fun p hp _ => (props.typed p hp).2

theorem typed_append {l l' : List PItem} :
    Typed (l ++ l') ↔ Typed l ∧ Typed l' := by
  simp only [Typed, List.mem_append, or_imp, forall_and]

theorem Typed.fillItems {l : List PItem} (h : Typed l) : Typed (fillItems l) := by
  refine typed_append.mpr ⟨h, ?_⟩
  intro p hp hk
  rw [(List.mem_replicate.mp hp).2] at hk
  exact absurd rfl hk

/-- The groups of `triples` together are the list. -/
theorem flatten_triples (l : List PItem) : (triples l).flatten = l := by
  induction l using triples.induct with
  | case1 => rfl
  | case2 a => rfl
  | case3 a b => rfl
  | case4 a b c rest ih => simp [triples, ih]

theorem triples_length (l : List PItem) : (triples l).length = (l.length + 2) / 3 := by
  induction l using triples.induct with
  | case1 => rfl
  | case2 a => simp [triples]
  | case3 a b => simp [triples]
  | case4 a b c rest ih =>
      simp only [triples, List.length_cons, ih]
      omega

theorem Typed.triples {l : List PItem} (h : Typed l) :
    ∀ g ∈ triples l, Typed g := by
  intro g hg
  refine h.subset fun p hp => ?_
  rw [← flatten_triples l]
  exact List.mem_flatten.mpr ⟨g, hg, hp⟩

theorem replaceItem_mem {pnew : PItem} :
    ∀ {l l' : List PItem}, replaceItem pnew l = some l' →
      ∀ p ∈ l', p ∈ l ∨ p = pnew := by
  intro l
  induction l with
  | nil => intro l' h; cases h
  | cons pi rest ih =>
      intro l' h p hp
      simp only [replaceItem] at h
      split at h
      · cases h
        rcases List.mem_cons.mp hp with rfl | hp
        · exact .inr rfl
        · exact .inl (List.mem_cons_of_mem _ hp)
      · obtain ⟨l1, hl1, rfl⟩ := Option.map_eq_some_iff.mp h
        rcases List.mem_cons.mp hp with rfl | hp
        · exact .inl (List.mem_cons_self ..)
        · exact (ih hl1 p hp).imp_left (List.mem_cons_of_mem _)

/-- One round of the loop of `apply_updates`: the list so far and the new
items. -/
def applyUpdate (acc : List PItem × List PItem) (pnew : PItem) : List PItem × List PItem :=
  match replaceItem pnew acc.1 with
  | some l => (l, acc.2)
  | none => (acc.1, acc.2 ++ [pnew])

theorem applyUpdate_of_some {acc : List PItem × List PItem} {pnew : PItem} {l : List PItem}
    (h : replaceItem pnew acc.1 = some l) : applyUpdate acc pnew = (l, acc.2) := by
  rw [applyUpdate, h]

theorem applyUpdate_of_none {acc : List PItem × List PItem} {pnew : PItem}
    (h : replaceItem pnew acc.1 = none) : applyUpdate acc pnew = (acc.1, acc.2 ++ [pnew]) := by
  rw [applyUpdate, h]

theorem applyUpdates_eq_foldl (pitems props : List PItem) : applyUpdates pitems props =
    (props.foldl applyUpdate (pitems, [])).1 ++ (props.foldl applyUpdate (pitems, [])).2 := rfl

/-- `apply_updates` invents no item. -/
theorem mem_applyUpdates {pitems props : List PItem} :
    ∀ p ∈ applyUpdates pitems props, p ∈ pitems ∨ p ∈ props := by
  rw [applyUpdates_eq_foldl]
  suffices h : ∀ acc : List PItem × List PItem, ∀ p,
      p ∈ (props.foldl applyUpdate acc).1 ∨ p ∈ (props.foldl applyUpdate acc).2 →
      p ∈ acc.1 ∨ p ∈ acc.2 ∨ p ∈ props by
    intro p hp
    rcases h (pitems, []) p (List.mem_append.mp hp) with h | h | h
    · exact .inl h
    · cases h
    · exact .inr h
  induction props with
  | nil => intro acc p hp; exact hp.imp_right .inl
  | cons pnew props ih =>
      intro acc p hp
      rw [List.foldl_cons] at hp
      rw [List.mem_cons]
      cases hr : replaceItem pnew acc.1 with
      | some l =>
          rw [applyUpdate_of_some hr] at hp
          rcases ih _ p hp with h | h | h
          · rcases replaceItem_mem hr p h with h | h
            · exact .inl h
            · exact .inr (.inr (.inl h))
          · exact .inr (.inl h)
          · exact .inr (.inr (.inr h))
      | none =>
          rw [applyUpdate_of_none hr] at hp
          rcases ih _ p hp with h | h | h
          · exact .inl h
          · rcases List.mem_append.mp h with h | h
            · exact .inr (.inl h)
            · exact .inr (.inr (.inl (List.mem_singleton.mp h)))
          · exact .inr (.inr (.inr h))

theorem Typed.applyUpdates {pitems props : List PItem} (h : Typed pitems)
    (h' : Typed props) : Typed (applyUpdates pitems props) := by
  intro p hp
  rcases mem_applyUpdates p hp with hp | hp
  · exact h p hp
  · exact h' p hp

/-! ## Finding an item -/

theorem lookupItem_spec {items : List PItem} {k : Nat} {q : PItem}
    (h : lookupItem items k = some q) : q ∈ items ∧ q.key = k := by
  have hkey := List.find?_some h
  exact ⟨List.mem_of_find?_eq_some h, beq_iff_eq.mp hkey⟩

/-- A lookup finds the one item with the key. -/
theorem lookupItem_eq_some {items : List PItem} {p : PItem}
    (hk : (items.map PItem.key).Nodup) (hp : p ∈ items) : lookupItem items p.key = some p := by
  cases hq : lookupItem items p.key with
  | none => exact absurd (beq_iff_eq.mpr rfl) (List.find?_eq_none.mp hq p hp)
  | some q =>
      obtain ⟨hmem, hkey⟩ := lookupItem_spec hq
      rw [List.inj_on_of_nodup_map hk hmem hp hkey]

/-- The property map keeps an item with a stored type if it has none with its
key yet. -/
theorem insertProperty_eq (m : List PItem) (p : PItem) : insertProperty m p =
    if p.typecode.stored = true ∧ lookupItem m p.key = none then m ++ [p] else m := by
  cases hm : lookupItem m p.key with
  | none => cases hc : p.typecode <;> simp [insertProperty, Typecode.stored, hc, hm]
  | some q => cases hc : p.typecode <;> simp [insertProperty, Typecode.stored, hc, hm]

/-- The property map of items with distinct keys. -/
theorem buildProperties_eq_filter {items : List PItem}
    (hk : ((items.filter fun p => p.typecode.stored).map PItem.key).Nodup) :
    buildPropertiesFromPitems items = items.filter fun p => p.typecode.stored := by
  suffices hall : ∀ (l m : List PItem),
      ((m ++ l.filter fun p => p.typecode.stored).map PItem.key).Nodup →
        l.foldl insertProperty m = m ++ l.filter fun p => p.typecode.stored from
    hall items [] hk
  intro l
  induction l with
  | nil =>
      intro m _
      rw [List.filter_nil, List.append_nil]
      rfl
  | cons p l ih =>
      intro m hnd
      rw [List.foldl_cons, insertProperty_eq]
      cases hp : p.typecode.stored with
      | false =>
          rw [if_neg (by simp), List.filter_cons_of_neg (by simp [hp])]
          rw [List.filter_cons_of_neg (by simp [hp])] at hnd
          exact ih m hnd
      | true =>
          rw [List.filter_cons_of_pos (by simp [hp])] at hnd ⊢
          rw [List.append_cons] at hnd
          have hnone : lookupItem m p.key = none := by
            rw [lookupItem, List.find?_eq_none]
            intro q hq hkey
            rw [List.append_assoc, List.map_append, List.nodup_append] at hnd
            exact hnd.2.2 q.key (List.mem_map_of_mem hq) p.key (by simp) (beq_iff_eq.mp hkey)
          rw [if_pos ⟨rfl, hnone⟩, List.append_cons m p (l.filter _)]
          exact ih _ hnd

/-- Building the map keeps the first item of each key, if it is typed. -/
theorem lookupItem_buildProperties {items : List PItem} {k : Nat} {v : PItem}
    (h : lookupItem items k = some v) (hs : v.typecode.stored = true) :
    lookupItem (buildPropertiesFromPitems items) k = some v := by
  -- a key that is in the map keeps its item
  have kept : ∀ (l m : List PItem), lookupItem m k = some v →
      lookupItem (l.foldl insertProperty m) k = some v := by
    intro l
    induction l with
    | nil => intro m hm; exact hm
    | cons p l ih =>
        intro m hm
        refine ih _ ?_
        rw [insertProperty_eq]
        split
        · rw [lookupItem, List.find?_append]
          rw [lookupItem] at hm
          rw [hm]
          rfl
        · exact hm
  suffices hall : ∀ (l m : List PItem), lookupItem m k = none →
      lookupItem l k = some v →
        lookupItem (l.foldl insertProperty m) k = some v by
    exact hall items [] rfl h
  intro l
  induction l with
  | nil => intro m _ hl; cases hl
  | cons p l ih =>
      intro m hm hl
      rw [lookupItem, List.find?_cons] at hl
      by_cases hkey : (p.key == k) = true
      · rw [hkey] at hl
        obtain rfl : p = v := by simpa using hl
        refine kept l _ ?_
        have hpk : p.key = k := by simpa using hkey
        rw [insertProperty_eq, hpk, if_pos ⟨hs, hm⟩]
        rw [lookupItem] at hm
        rw [lookupItem, List.find?_append, hm, List.find?_cons, hkey]
        rfl
      · simp only [hkey] at hl
        refine ih _ ?_ hl
        have hnone : ∀ q, lookupItem (m ++ [p]) q = lookupItem m q ∨ q = p.key := by
          intro q
          by_cases hq : q = p.key
          · exact .inr hq
          · refine .inl ?_
            rw [lookupItem, List.find?_append]
            have : (p.key == q) = false := by simpa using fun h => hq h.symm
            simp [this, lookupItem]
        rw [insertProperty_eq]
        split
        · rcases hnone k with hn | hn
          · rw [hn]; exact hm
          · rw [hn] at hkey; simp at hkey
        · exact hm

namespace PropertyList

/-- A table that holds typed items only. -/
def Sound (t : PropertyList) : Prop :=
  ∀ id p, t.sets id = some p → Typed p.items

theorem Sound.put {t : PropertyList} (h : t.Sound) (id : Nat)
    {p : PropertySet} (hp : Typed p.items) : (t.put id p).Sound := by
  intro i q hq
  simp only [PropertyList.put] at hq
  split at hq
  · cases hq; exact hp
  · exact h i q hq

theorem Sound.store {t : PropertyList} (h : t.Sound) {p : PropertySet}
    (hp : Typed p.items) : (t.store p).2.Sound := by
  intro i q hq
  simp only [PropertyList.store] at hq
  split at hq
  · cases hq; exact hp
  · exact h i q hq

theorem Sound.erase {t : PropertyList} (h : t.Sound) (id : Nat) :
    (t.erase id).Sound := by
  intro i q hq
  simp only [PropertyList.erase] at hq
  split at hq
  · cases hq
  · exact h i q hq

theorem Sound.atId {t : PropertyList} (h : t.Sound) {id : Nat}
    {p : PropertySet} (hp : t.atId id = .ok p) : Typed p.items := by
  simp only [PropertyList.atId] at hp
  split at hp
  · cases hp
  · split at hp
    · next heq => cases hp; exact h id _ heq
    · cases hp

theorem Sound.addPitems {t : PropertyList} (h : t.Sound) {nid : Nat}
    {props : List PItem} (hp : Typed props) : (t.addPitems nid props).2.Sound := by
  suffices hg : ∀ (gs : List (List PItem)) (next : Nat) (t : PropertyList),
      t.Sound → (∀ g ∈ gs, Typed g) → (addGroups nid gs next t).2.Sound by
    exact hg _ _ _ h hp.triples
  intro gs
  induction gs with
  | nil => intro next t h _; exact h
  | cons g gs ih =>
      intro next t h hg
      obtain ⟨h1, h2⟩ := List.forall_mem_cons.mp hg
      exact ih _ _ (h.store h1.fillItems) h2

theorem updatePitems_sound {t : PropertyList} (h : t.Sound) {nid id : Nat}
    {props : List PItem} (hp : Typed props) :
    always (updatePitems nid id props) Sound t := by
  suffices hg : ∀ (gs : List (List PItem)) (id head : Nat) (t : PropertyList),
      t.Sound → (∀ g ∈ gs, Typed g) →
        always (updateGroups nid gs id head) Sound t by
    exact hg _ _ _ _ h hp.triples
  intro gs
  induction gs with
  | nil => intro id head t h _; exact h
  | cons g gs ih =>
      intro id head t h hg
      obtain ⟨h1, h2⟩ := List.forall_mem_cons.mp hg
      simp only [updateGroups, always, wp_bind, wp_get]
      apply wp_ite
      · intro _
        split
        · exact h
        · next old hat =>
            simp only [wp_bind, wp_set]
            exact ih _ _ _ (h.put _ h1.fillItems) h2
      · intro _
        simp only [wp_bind, wp_set]
        exact ih _ _ _ (h.store h1.fillItems) h2

theorem removeProperties_sound {t : PropertyList} (h : t.Sound) {id : Nat} :
    always (removeProperties id) Sound t := by
  have loop : ∀ (fuel : Nat) (id : Nat) (t : PropertyList), t.Sound →
      always (removeLoop fuel id) Sound t := by
    intro fuel
    induction fuel with
    | zero =>
        intro id t h
        apply wp_ite
        · intro _; exact h
        · intro _; exact h
    | succ fuel ih =>
        intro id t h
        apply wp_ite
        · intro _; exact h
        · intro _
          simp only [wp_bind, wp_get]
          split
          · exact h
          · simp only [wp_bind, wp_set]
            exact ih _ _ (h.erase id)
  simp only [removeProperties, always, wp_bind, wp_get]
  apply wp_ite
  · intro _; exact h
  · intro _
    apply wp_ite
    · intro _; exact h
    · intro _; exact loop _ _ _ h

/-- The sets that a walk visits are in the table. -/
theorem walk_typed {t : PropertyList} (h : t.Sound) :
    ∀ {fuel : Nat} {id : Nat} {ps : List PropertySet},
      t.walk fuel id = .ok ps → ∀ p ∈ ps, Typed p.items := by
  intro fuel
  induction fuel with
  | zero =>
      intro id ps hw
      simp only [walk] at hw
      split at hw
      · cases hw; intro p hp; cases hp
      · cases hw
  | succ fuel ih =>
      intro id ps hw
      simp only [walk] at hw
      split at hw
      · cases hw; intro p hp; cases hp
      · split at hw
        · cases hw
        · next p hat =>
            cases hr : t.walk fuel p.next with
            | error e => rw [hr] at hw; cases hw
            | ok rest =>
                rw [hr] at hw
                cases hw
                exact List.forall_mem_cons.mpr ⟨h.atId hat, ih hr⟩

theorem chainItems_typed {t : PropertyList} (h : t.Sound) {id : Nat}
    {items : List PItem} (hc : t.chainItems id = .ok items) : Typed items := by
  simp only [chainItems] at hc
  cases hw : t.walk (t.capacity + 1) id with
  | error e => rw [hw] at hc; cases hc
  | ok ps =>
      rw [hw] at hc
      cases hc
      intro p hp
      obtain ⟨q, hq, hpq⟩ := List.mem_flatMap.mp hp
      exact walk_typed h hw q hq p hpq

theorem buildDirtyPropertyList_typed {t : PropertyList} (h : t.Sound)
    {id : Nat} {items : List PItem}
    (hb : t.buildDirtyPropertyList id = .ok items) : Typed items := by
  simp only [buildDirtyPropertyList] at hb
  cases hc : t.chainItems id with
  | error e => rw [hc] at hb; cases hb
  | ok l =>
      rw [hc] at hb
      cases hb
      exact (chainItems_typed h hc).subset fun p hp => (List.mem_filter.mp hp).1

end PropertyList

end Poseidon
