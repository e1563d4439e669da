import Poseidon.Lib.LinkPath
import Poseidon.Proofs.Items

/-!
# Chains of property sets

Every record owns the property sets of its chain: `Chain t owner pl ids`
says that the list from `pl` runs through the slots `ids` and that these
sets name `owner`. An operation on behalf of one record leaves the sets of
all others alone (`Frame`), so their chains and what is stored in them stay
as they are. For its own record it says which items the chain holds
afterwards; their order changes, because new sets go to the front.
-/

namespace Poseidon

open Wp

namespace PropertyList

variable {t t' t'' : PropertyList} {owner pl : Nat} {ids : List Nat}

/-- The successor of a set that `atId` finds. -/
def link (t : PropertyList) (i : Nat) : Option Nat :=
  if i < t.capacity then (t.sets i).map PropertySet.next else none

/-- The list from `pl` ends, runs through `ids`, and belongs to `owner`. -/
structure Chain (t : PropertyList) (owner pl : Nat) (ids : List Nat) : Prop where
  path : LinkPath t.link UNKNOWN pl ids
  owned : ∀ i ∈ ids, ∀ p, t.sets i = some p → p.owner = owner

/-- The items with a key in the sets `ids`. -/
def cells (t : PropertyList) (ids : List Nat) : List PItem :=
  ((ids.filterMap t.sets).flatMap PropertySet.items).filter fun p => p.key ≠ 0

/-- Slots past the capacity are not in use. -/
def Bounded (t : PropertyList) : Prop :=
  ∀ i p, t.sets i = some p → i < t.capacity

/-- What changed belongs to `owner`. -/
structure Frame (owner : Nat) (t t' : PropertyList) : Prop where
  capacity : t.capacity ≤ t'.capacity
  other : ∀ i p, t.sets i = some p → p.owner ≠ owner → t'.sets i = some p

theorem Frame.refl (owner : Nat) (t : PropertyList) : Frame owner t t :=
  ⟨Nat.le_refl _, fun _ _ h _ => h⟩

theorem Frame.trans (h : Frame owner t t') (h' : Frame owner t' t'') :
    Frame owner t t'' :=
  ⟨Nat.le_trans h.capacity h'.capacity,
    fun i p hp ho => h'.other i p (h.other i p hp ho) ho⟩

theorem atId_of_link {i j : Nat} (h : t.link i = some j) :
    ∃ p, t.atId i = .ok p ∧ t.sets i = some p ∧ p.next = j := by
  simp only [link] at h
  split at h
  · next hlt =>
      obtain ⟨p, hp, hj⟩ := Option.map_eq_some_iff.mp h
      refine ⟨p, ?_, hp, hj⟩
      rw [atId, if_neg (by omega), hp]
  · cases h

theorem Chain.lt_capacity (h : Chain t owner pl ids) :
    ∀ i ∈ ids, i < t.capacity := by
  intro i hi
  have hs := h.path.next_isSome i hi
  simp only [link] at hs
  split at hs
  · next hlt => exact hlt
  · cases hs

/-- The chain of one record is not touched on behalf of another. -/
theorem Chain.frame {o : Nat} (h : Chain t owner pl ids) (hf : Frame o t t')
    (ho : owner ≠ o) : Chain t' owner pl ids ∧ t'.cells ids = t.cells ids := by
  have hsets : ∀ i ∈ ids, t'.sets i = t.sets i := by
    intro i hi
    obtain ⟨j, hj⟩ := Option.isSome_iff_exists.mp (h.path.next_isSome i hi)
    obtain ⟨p, _, hp, _⟩ := atId_of_link hj
    rw [hp]
    exact hf.other i p hp (by rw [h.owned i hi p hp]; exact ho)
  refine ⟨⟨h.path.congr ?_, ?_⟩, ?_⟩
  · intro i hi
    have hlt := h.lt_capacity i hi
    have hcap := hf.capacity
    rw [link, link, if_pos hlt, if_pos (by omega), hsets i hi]
  · intro i hi p hp
    exact h.owned i hi p ((hsets i hi).symm.trans hp)
  · rw [cells, cells, List.filterMap_congr hsets]

/-- The walk along a chain succeeds. -/
theorem walk_of_path (h : LinkPath t.link UNKNOWN pl ids) :
    ∀ fuel, ids.length ≤ fuel → t.walk fuel pl = .ok (ids.filterMap t.sets) := by
  induction h with
  | nil =>
      intro fuel _
      cases fuel <;> simp [walk]
  | @cons i j l hi hn hp ih =>
      intro fuel hfuel
      obtain ⟨p, hat, hsets, hnext⟩ := atId_of_link hn
      cases fuel with
      | zero => simp at hfuel
      | succ fuel =>
          simp only [List.length_cons] at hfuel
          rw [walk, if_neg hi, hat]
          simp only [hnext, ih fuel (by omega), Except.map]
          rw [List.filterMap_cons, hsets]

theorem Chain.walk (h : Chain t owner pl ids) :
    t.walk (t.capacity + 1) pl = .ok (ids.filterMap t.sets) := by
  have hle := h.path.length_le h.lt_capacity
  exact walk_of_path h.path _ (by omega)

theorem Chain.buildDirtyPropertyList (h : Chain t owner pl ids) :
    t.buildDirtyPropertyList pl = .ok (t.cells ids) := by
  rw [PropertyList.buildDirtyPropertyList, chainItems, h.walk]
  rfl

theorem Chain.foreachPropertySet (h : Chain t owner pl ids) :
    t.foreachPropertySet pl = .ok () := by
  rw [PropertyList.foreachPropertySet, h.walk]

/-- A search along a chain finds the first item with the key. -/
theorem propertyValueLoop_of_path {k : Nat} (h : LinkPath t.link UNKNOWN pl ids) :
    ∀ fuel, ids.length ≤ fuel → t.propertyValueLoop k fuel pl = .ok
      ((lookupItem ((ids.filterMap t.sets).flatMap PropertySet.items) k).getD
        PItem.zero) := by
  induction h with
  | nil =>
      intro fuel _
      cases fuel <;> simp [propertyValueLoop, lookupItem]
  | @cons i j l hi hn hp ih =>
      intro fuel hfuel
      obtain ⟨p, hat, hsets, hnext⟩ := atId_of_link hn
      cases fuel with
      | zero => simp at hfuel
      | succ fuel =>
          simp only [List.length_cons] at hfuel
          rw [propertyValueLoop, if_neg hi, hat]
          simp only [hnext, ih fuel (by omega)]
          rw [List.filterMap_cons, hsets]
          simp only [List.flatMap_cons, lookupItem, List.find?_append]
          cases p.items.find? (fun q => q.key == k) with
          | none => rfl
          | some q => rfl

/-- What a chain says about a key. -/
theorem Chain.propertyValue {k : Nat} (h : Chain t owner pl ids) (hk : k ≠ 0) :
    t.propertyValue pl k = .ok ((lookupItem (t.cells ids) k).getD PItem.zero) := by
  have hle := h.path.length_le h.lt_capacity
  rw [PropertyList.propertyValue, propertyValueLoop_of_path h.path _ (by omega)]
  congr 2
  simp only [lookupItem, cells, List.find?_filter]
  congr 1
  funext q
  by_cases hq : q.key = k
  · simp [hq, hk]
  · simp [hq]

theorem Chain.unknown (t : PropertyList) (owner : Nat) :
    Chain t owner UNKNOWN [] := ⟨.nil, fun _ h => (by cases h)⟩

/-! ## Storing a set -/

/-- `firstFree` finds a slot that is not in use and is not `UNKNOWN`. -/
theorem firstFree_spec (hb : t.Bounded) :
    ∀ (n i : Nat), t.capacity ≤ i + n →
      t.sets (t.firstFree n i) = none ∧ t.firstFree n i ≠ UNKNOWN ∧
        t.firstFree n i ≤ i + n + 1 := by
  have past : ∀ i, t.capacity ≤ i → t.sets i = none := by
    intro i hi
    cases hs : t.sets i with
    | none => rfl
    | some p => have := hb i p hs; omega
  intro n
  induction n with
  | zero =>
      intro i hi
      simp only [firstFree]
      split
      · next h => exact ⟨past _ (by omega), by omega, by omega⟩
      · next h => exact ⟨past _ (by omega), h, by omega⟩
  | succ n ih =>
      intro i hi
      simp only [firstFree]
      split
      · next h =>
          obtain ⟨h1, h2, h3⟩ := ih (i + 1) (by omega)
          exact ⟨h1, h2, by omega⟩
      · next h =>
          refine ⟨?_, fun hu => h (.inr hu), by omega⟩
          cases hs : t.sets i with
          | none => rfl
          | some p => exact absurd (.inl (by rw [hs]; rfl)) h

theorem store_fst_ne (hb : t.Bounded) (p : PropertySet) :
    (t.store p).1 ≠ UNKNOWN := (firstFree_spec hb _ _ (by omega)).2.1

theorem store_free (hb : t.Bounded) (p : PropertySet) :
    t.sets (t.store p).1 = none := (firstFree_spec hb _ _ (by omega)).1

theorem store_lt (hb : t.Bounded) (p : PropertySet) :
    (t.store p).1 < (t.store p).2.capacity := by
  have h := (firstFree_spec hb t.capacity 0 (by omega)).2.2
  simp only [store]
  split
  · next hlt => exact hlt
  · simp only [setsPerChunk]; omega

theorem store_sets (t : PropertyList) (p : PropertySet) (i : Nat) :
    (t.store p).2.sets i = if i = (t.store p).1 then some p else t.sets i := rfl

theorem le_store_capacity (t : PropertyList) (p : PropertySet) :
    t.capacity ≤ (t.store p).2.capacity := by
  simp only [store]
  split <;> omega

theorem bounded_empty : Bounded .empty := fun _ _ h => by cases h

theorem Bounded.store (hb : t.Bounded) (p : PropertySet) :
    (t.store p).2.Bounded := by
  intro i q hq
  rw [store_sets] at hq
  split at hq
  · next heq => rw [heq]; exact store_lt hb p
  · have h1 := hb i q hq
    have h2 := le_store_capacity t p
    omega

theorem Frame.store (hb : t.Bounded) (p : PropertySet) :
    Frame owner t (t.store p).2 := by
  refine ⟨le_store_capacity t p, fun i q hq _ => ?_⟩
  rw [store_sets, if_neg]
  · exact hq
  · intro heq
    rw [heq, store_free hb] at hq
    cases hq

/-- A new set in front of a chain. -/
theorem Chain.store (hb : t.Bounded) {p : PropertySet}
    (h : Chain t owner p.next ids) (ho : p.owner = owner) :
    Chain (t.store p).2 owner (t.store p).1 ((t.store p).1 :: ids) ∧
      (t.store p).2.cells ((t.store p).1 :: ids) =
        p.items.filter (fun q => q.key ≠ 0) ++ t.cells ids := by
  have hfree := store_free hb p
  have hnot : (t.store p).1 ∉ ids := by
    intro hmem
    obtain ⟨j, hj⟩ := Option.isSome_iff_exists.mp (h.path.next_isSome _ hmem)
    obtain ⟨q, _, hq, _⟩ := atId_of_link hj
    rw [hfree] at hq
    cases hq
  have hsets : ∀ i ∈ ids, (t.store p).2.sets i = t.sets i := by
    intro i hi
    rw [store_sets, if_neg]
    rintro rfl
    exact hnot hi
  have hself : (t.store p).2.sets (t.store p).1 = some p := by
    rw [store_sets, if_pos rfl]
  refine ⟨⟨.cons (store_fst_ne hb p) ?_ (h.path.congr ?_), ?_⟩, ?_⟩
  · rw [link, if_pos (store_lt hb p), hself]
    rfl
  · intro i hi
    have hlt := h.lt_capacity i hi
    have hcap := le_store_capacity t p
    rw [link, link, if_pos hlt, if_pos (by omega), hsets i hi]
  · refine List.forall_mem_cons.mpr ⟨fun q hq => ?_, fun i hi q hq => ?_⟩
    · rw [hself] at hq
      cases hq
      exact ho
    · exact h.owned i hi q ((hsets i hi).symm.trans hq)
  · rw [cells, List.filterMap_cons, hself, List.filterMap_congr hsets]
    simp only [List.flatMap_cons, List.filter_append]
    rfl

/-- The fillers of a set have no key. -/
theorem filter_fillItems (g : List PItem) :
    (fillItems g).filter (fun q => q.key ≠ 0) = g.filter (fun q => q.key ≠ 0) := by
  have hrep : (List.replicate (3 - g.length) PItem.filler).filter
      (fun q => q.key ≠ 0) = [] := by
    refine List.filter_eq_nil_iff.mpr fun q hq => ?_
    rw [(List.mem_replicate.mp hq).2]
    simp [PItem.filler]
  rw [fillItems, List.filter_append, hrep, List.append_nil]

/-! ## The operations of a record on its chain -/

/-- The items with a key. -/
def keyed (items : List PItem) : List PItem := items.filter fun q => q.key ≠ 0

theorem keyed_append (l l' : List PItem) : keyed (l ++ l') = keyed l ++ keyed l' :=
  List.filter_append ..

/-- What an operation of `owner` leaves: a chain through `ids`, with the
items `items` in it, and the rest of the table as it was. -/
structure Rewritten (t : PropertyList) (owner pl : Nat) (ids : List Nat)
    (items : List PItem) (t' : PropertyList) : Prop where
  chain : Chain t' owner pl ids
  frame : Frame owner t t'
  bounded : t'.Bounded
  items : (t'.cells ids).Perm items

theorem addGroups_spec {nid : Nat} :
    ∀ (gs : List (List PItem)) (next : Nat) (t : PropertyList) (ids : List Nat),
      Chain t nid next ids → t.Bounded →
      ∃ ids', ids'.length = gs.length + ids.length ∧
        Rewritten t nid (addGroups nid gs next t).1 ids'
          (keyed gs.flatten ++ t.cells ids) (addGroups nid gs next t).2 := by
  intro gs
  induction gs with
  | nil =>
      intro next t ids h hb
      exact ⟨ids, by simp, h, Frame.refl _ _, hb, List.Perm.refl _⟩
  | cons g gs ih =>
      intro next t ids h hb
      have hst := Chain.store (p := ⟨next, nid, fillItems g⟩) hb h rfl
      obtain ⟨ids', hlen, hr⟩ := ih _ _ _ hst.1 (hb.store _)
      refine ⟨ids', ?_, hr.chain, (Frame.store hb _).trans hr.frame, hr.bounded, ?_⟩
      · rw [hlen, List.length_cons, List.length_cons]
        omega
      · refine hr.items.trans ?_
        rw [hst.2, filter_fillItems, List.flatten_cons, keyed_append,
          List.append_assoc]
        exact (List.perm_append_comm_assoc _ _ _)

/-- `add_pitems` makes a chain with the items. -/
theorem addPitems_spec (hb : t.Bounded) (nid : Nat) (props : List PItem) :
    ∃ ids', ids'.length = (triples props).length ∧
      Rewritten t nid (t.addPitems nid props).1 ids' (keyed props)
        (t.addPitems nid props).2 := by
  obtain ⟨ids', hlen, hr⟩ := addGroups_spec (triples props) UNKNOWN t []
    (Chain.unknown t nid) hb
  rw [flatten_triples] at hr
  refine ⟨ids', by simpa using hlen, hr.chain, hr.frame, hr.bounded, ?_⟩
  have hitems := hr.items
  rw [show t.cells [] = [] from rfl, List.append_nil] at hitems
  exact hitems

/-- Overwriting the items of a set that keeps its successor and owner. -/
theorem Chain.put {i : Nat} {p : PropertySet} {items : List PItem}
    (h : Chain t owner pl ids) (hp : t.sets i = some p) :
    Chain (t.put i { p with items := items }) owner pl ids := by
  have hlink : ∀ a, (t.put i { p with items := items }).link a = t.link a := by
    intro a
    simp only [link, PropertyList.put]
    by_cases ha : a = i
    · subst ha
      simp [hp]
    · simp [ha]
  refine ⟨h.path.congr fun a _ => hlink a, fun a ha q hq => ?_⟩
  simp only [PropertyList.put] at hq
  split at hq
  · next heq =>
      cases hq
      subst heq
      exact h.owned a ha p hp
  · exact h.owned a ha q hq

theorem Frame.put {i : Nat} {p q : PropertySet} (hp : t.sets i = some p)
    (ho : p.owner = owner) : Frame owner t (t.put i q) := by
  refine ⟨Nat.le_refl _, fun j r hr hne => ?_⟩
  simp only [PropertyList.put]
  rw [if_neg]
  · exact hr
  · rintro rfl
    rw [hp] at hr
    cases hr
    exact hne ho

theorem Bounded.put {i : Nat} {p q : PropertySet} (hb : t.Bounded)
    (hp : t.sets i = some p) : (t.put i q).Bounded := by
  intro j r hr
  simp only [PropertyList.put] at hr ⊢
  split at hr
  · next heq => rw [heq]; exact hb i p hp
  · exact hb j r hr

theorem cells_append (t : PropertyList) (l l' : List Nat) :
    t.cells (l ++ l') = t.cells l ++ t.cells l' := by
  simp [cells, List.filterMap_append]

theorem cells_put_of_not_mem {i : Nat} {q : PropertySet} (hi : i ∉ ids) :
    (t.put i q).cells ids = t.cells ids := by
  have hsets : ∀ a ∈ ids, (t.put i q).sets a = t.sets a := by
    intro a ha
    simp only [PropertyList.put]
    rw [if_neg]
    rintro rfl
    exact hi ha
  rw [cells, cells, List.filterMap_congr hsets]

theorem cells_put_self {i : Nat} {q : PropertySet} :
    (t.put i q).cells [i] = keyed q.items := by
  simp [cells, PropertyList.put, keyed]

/-- The loop of `update_pitems`. `done` are the sets behind the head that
were overwritten or added before, `rest` those still to come. -/
theorem updateGroups_spec {nid : Nat} :
    ∀ (gs : List (List PItem)) (id head : Nat) (t : PropertyList)
      (done rest : List Nat), Chain t nid head (done ++ rest) →
      LinkPath t.link UNKNOWN id rest → t.Bounded →
      wp (updateGroups nid gs id head) (fun head' t' => ∃ ids',
        ids'.length = done.length + max rest.length gs.length ∧
        Rewritten t nid head' ids'
          (keyed gs.flatten ++ t.cells done ++ t.cells (rest.drop gs.length)) t')
        (fun _ _ => False) t := by
  intro gs
  induction gs with
  | nil =>
      intro id head t done rest h _ hb
      refine ⟨done ++ rest, by simp, h, Frame.refl _ _, hb, ?_⟩
      rw [cells_append]
      exact List.Perm.refl _
  | cons g gs ih =>
      intro id head t done rest h hp hb
      simp only [updateGroups, wp_bind, wp_get]
      refine wp_ite (fun hid => ?_) (fun hid => ?_)
      · cases hp with
        | nil => exact absurd rfl hid
        | @cons _ j rest hi hn hp =>
            obtain ⟨p, hat, hsets, hnext⟩ := atId_of_link hn
            simp only [hat, wp_bind, wp_set]
            have hmem : id ∈ done ++ id :: rest := by simp
            have hown := h.owned id hmem p hsets
            have hnd := h.path.nodup
            have hdone : id ∉ done := by
              intro hd
              exact (List.nodup_append.mp hnd).2.2 id hd id (by simp) rfl
            have hrest : id ∉ rest :=
              (List.nodup_cons.mp (List.nodup_append.mp hnd).2.1).1
            have h' : Chain (t.put id { p with items := fillItems g }) nid head
                ((done ++ [id]) ++ rest) := by
              rw [List.append_assoc]
              exact h.put hsets
            have hp' : LinkPath (t.put id { p with items := fillItems g }).link
                UNKNOWN p.next rest := by
              rw [hnext]
              refine hp.congr fun a ha => ?_
              have hne : a ≠ id := fun heq => hrest (heq ▸ ha)
              simp only [link, PropertyList.put, if_neg hne]
            refine wp_mono (ih _ _ _ (done ++ [id]) rest h' hp'
              (hb.put hsets)) ?_ (fun _ _ h => h)
            rintro head' t' ⟨ids', hlen, hr⟩
            refine ⟨ids', ?_, hr.chain, (Frame.put hsets hown).trans hr.frame,
              hr.bounded, hr.items.trans ?_⟩
            · simp only [List.length_append, List.length_cons,
                List.length_nil] at hlen ⊢
              omega
            · have hdrop : id ∉ rest.drop gs.length :=
                fun hm => hrest (List.mem_of_mem_drop hm)
              rw [cells_append, cells_put_self, cells_put_of_not_mem hdone,
                cells_put_of_not_mem hdrop, List.length_cons,
                List.drop_succ_cons, List.flatten_cons, keyed_append]
              have hfill : keyed (fillItems g) = keyed g := filter_fillItems g
              rw [hfill]
              refine List.Perm.append_right _ ?_
              rw [← List.append_assoc]
              refine List.perm_append_comm.trans ?_
              simp [List.append_assoc]
      · cases hp with
        | cons hi _ _ => exact absurd hi hid
        | nil =>
            simp only [wp_bind, wp_set]
            rw [List.append_nil] at h
            have hst := Chain.store (p := ⟨head, nid, fillItems g⟩) hb h rfl
            have h' : Chain (t.store ⟨head, nid, fillItems g⟩).2 nid
                (t.store ⟨head, nid, fillItems g⟩).1
                (((t.store ⟨head, nid, fillItems g⟩).1 :: done) ++ []) := by
              rw [List.append_nil]
              exact hst.1
            refine wp_mono (ih _ _ _ _ [] h' .nil (hb.store _)) ?_
              (fun _ _ h => h)
            rintro head' t' ⟨ids', hlen, hr⟩
            refine ⟨ids', ?_, hr.chain, (Frame.store hb _).trans hr.frame,
              hr.bounded, hr.items.trans ?_⟩
            · simp only [List.length_cons, List.length_nil] at hlen ⊢
              omega
            · rw [hst.2, filter_fillItems, List.flatten_cons, keyed_append]
              simp only [List.drop_nil, List.append_assoc]
              exact List.perm_append_comm_assoc _ _ _

/-- `update_pitems` on a chain with at most as many sets as are needed:
afterwards the chain holds the new items. -/
theorem updatePitems_spec {nid : Nat} {props : List PItem}
    (h : Chain t nid pl ids) (hb : t.Bounded)
    (hle : ids.length ≤ (triples props).length) :
    wp (updatePitems nid pl props) (fun pl' t' => ∃ ids',
        ids'.length = (triples props).length ∧
        Rewritten t nid pl' ids' (keyed props) t')
      (fun _ _ => False) t := by
  refine wp_mono (updateGroups_spec (triples props) pl pl t [] ids h h.path hb)
    ?_ (fun _ _ h => h)
  rintro pl' t' ⟨ids', hlen, hr⟩
  rw [flatten_triples, List.drop_eq_nil_of_le hle] at hr
  refine ⟨ids', ?_, hr.chain, hr.frame, hr.bounded, ?_⟩
  · simp only [List.length_nil] at hlen
    omega
  · have hitems := hr.items
    rw [show t.cells [] = [] from rfl, List.append_nil, List.append_nil] at hitems
    exact hitems

theorem Bounded.erase {i : Nat} (hb : t.Bounded) : (t.erase i).Bounded := by
  intro j r hr
  simp only [PropertyList.erase] at hr ⊢
  split at hr
  · cases hr
  · exact hb j r hr

/-- `remove_properties` frees the sets of the chain. -/
theorem removeProperties_spec (h : Chain t owner pl ids) (hb : t.Bounded) :
    wp (removeProperties pl) (fun _ t' => Frame owner t t' ∧ t'.Bounded)
      (fun _ _ => False) t := by
  have loop : ∀ (l : List Nat) (i fuel : Nat) (t : PropertyList),
      Chain t owner i l → t.Bounded → l.length ≤ fuel →
      wp (removeLoop fuel i) (fun _ t' => Frame owner t t' ∧ t'.Bounded)
        (fun _ _ => False) t := by
    intro l
    induction l with
    | nil =>
        intro i fuel t h hb _
        have hpl := h.path.eq_nil_iff.mp rfl
        cases fuel with
        | zero => rw [removeLoop, if_pos hpl]; exact ⟨Frame.refl _ _, hb⟩
        | succ fuel => rw [removeLoop, if_pos hpl]; exact ⟨Frame.refl _ _, hb⟩
    | cons a l ih =>
        intro i fuel t h hb hfuel
        cases fuel with
        | zero => simp at hfuel
        | succ fuel =>
            have hpath := h.path
            cases hpath with
            | cons hi hn hp =>
                obtain ⟨p, hat, hsets, hnext⟩ := atId_of_link hn
                have hnd := List.nodup_cons.mp h.path.nodup
                rw [removeLoop, if_neg hi]
                simp only [wp_bind, wp_get, hat, wp_set]
                have hch : Chain (t.erase a) owner p.next l := by
                  rw [hnext]
                  constructor
                  · refine hp.congr fun b hb => ?_
                    have hne : b ≠ a := fun heq => hnd.1 (heq ▸ hb)
                    simp only [link, PropertyList.erase, if_neg hne]
                  · intro b hb q hq
                    have hne : b ≠ a := fun heq => hnd.1 (heq ▸ hb)
                    simp only [PropertyList.erase, if_neg hne] at hq
                    exact h.owned b (List.mem_cons_of_mem _ hb) q hq
                have hfr : Frame owner t (t.erase a) := by
                  refine ⟨Nat.le_refl _, fun j r hr hne => ?_⟩
                  have hne' : j ≠ a := by
                    rintro rfl
                    exact hne (h.owned j (List.mem_cons_self ..) r hr)
                  simp only [PropertyList.erase, if_neg hne']
                  exact hr
                simp only [List.length_cons] at hfuel
                refine wp_mono (ih p.next fuel _ hch hb.erase (by omega)) ?_
                  (fun _ _ h => h)
                exact fun _ t' h' => ⟨hfr.trans h'.1, h'.2⟩
  simp only [removeProperties, wp_bind, wp_get]
  refine wp_ite (fun _ => ⟨Frame.refl _ _, hb⟩) (fun hpl => ?_)
  have hmem : pl ∈ ids := by
    have hpath := h.path
    cases hpath with
    | nil => exact absurd rfl hpl
    | cons _ _ _ => exact List.mem_cons_self ..
  have hlt := h.lt_capacity pl hmem
  have hle := h.path.length_le h.lt_capacity
  refine wp_ite (fun hcap => absurd hcap (by omega)) (fun _ => ?_)
  exact loop ids pl _ t h hb (by omega)

end PropertyList

end Poseidon
