import Poseidon.Proofs.Chain

/-!
# Property tables that grow

The history shares property lists: an archived version and the history record
made of it refer to the same chain, and a chain is not owned by the record
that it was made for. What keeps such a chain readable is that the table only
grows, which is all that adding properties does.
-/

namespace Poseidon.PropertyList

/-- All sets are kept. -/
structure Grows (t t' : PropertyList) : Prop where
  capacity : t.capacity ≤ t'.capacity
  sets : ∀ i p, t.sets i = some p → t'.sets i = some p

/-- The list from `pl` ends. -/
def Readable (t : PropertyList) (pl : Nat) : Prop := ∃ ids, LinkPath t.link UNKNOWN pl ids

/-- The list from `pl` ends, and these are its items with a key. -/
def Holds (t : PropertyList) (pl : Nat) (items : List PItem) : Prop :=
  ∃ ids, LinkPath t.link UNKNOWN pl ids ∧ (t.cells ids).Perm items

variable {t t' t'' : PropertyList} {pl : Nat} {ids : List Nat} {items : List PItem}

theorem Grows.refl (t : PropertyList) : Grows t t := ⟨Nat.le_refl _, fun _ _ h => h⟩

theorem Grows.trans (h : Grows t t') (h' : Grows t' t'') : Grows t t'' :=
  ⟨Nat.le_trans h.capacity h'.capacity, fun i p hp => h'.sets i p (h.sets i p hp)⟩

theorem readable_unknown (t : PropertyList) : t.Readable UNKNOWN := ⟨[], .nil⟩

theorem Holds.readable (h : t.Holds pl items) : t.Readable pl := h.imp fun _ h => h.1

/-- The sets of a list. -/
theorem Grows.sets_eq (hg : Grows t t') (h : LinkPath t.link UNKNOWN pl ids) :
    ∀ i ∈ ids, t'.sets i = t.sets i ∧ t'.link i = t.link i := by
  intro i hi
  obtain ⟨j, hj⟩ := Option.isSome_iff_exists.mp (h.next_isSome i hi)
  obtain ⟨p, -, hp, -⟩ := atId_of_link hj
  have hlt : i < t.capacity := by
    rw [link] at hj
    split at hj
    · next hlt => exact hlt
    · cases hj
  have hcap := hg.capacity
  have hs : t'.sets i = t.sets i := by rw [hp, hg.sets i p hp]
  refine ⟨hs, ?_⟩
  rw [link, link, if_pos hlt, if_pos (by omega), hs]

theorem Readable.grows (h : t.Readable pl) (hg : Grows t t') : t'.Readable pl := by
  obtain ⟨ids, hp⟩ := h
  exact ⟨ids, hp.congr fun i hi => (hg.sets_eq hp i hi).2⟩

/-- A list that ends can be read. -/
theorem Readable.walk (h : t.Readable pl) :
    ∃ ids, LinkPath t.link UNKNOWN pl ids ∧
      t.walk (t.capacity + 1) pl = .ok (ids.filterMap t.sets) := by
  obtain ⟨ids, hp⟩ := h
  have hlt : ∀ i ∈ ids, i < t.capacity := by
    intro i hi
    have hs := hp.next_isSome i hi
    rw [link] at hs
    split at hs
    · next hlt => exact hlt
    · cases hs
  have hle := hp.length_le hlt
  exact ⟨ids, hp, walk_of_path hp _ (by omega)⟩

theorem Readable.buildDirtyPropertyList (h : t.Readable pl) :
    ∃ items, t.buildDirtyPropertyList pl = .ok items := by
  obtain ⟨ids, -, hw⟩ := h.walk
  rw [PropertyList.buildDirtyPropertyList, chainItems, hw]
  exact ⟨_, rfl⟩

theorem Readable.allProperties (h : t.Readable pl) :
    ∃ items, t.allProperties pl = .ok items := by
  obtain ⟨ids, -, hw⟩ := h.walk
  rw [PropertyList.allProperties, chainItems, hw]
  split
  · exact ⟨_, rfl⟩
  · exact ⟨_, rfl⟩

theorem Grows.store (hb : t.Bounded) (p : PropertySet) : Grows t (t.store p).2 := by
  refine ⟨le_store_capacity t p, fun i q hq => ?_⟩
  rw [store_sets, if_neg]
  · exact hq
  · intro heq
    rw [heq, store_free hb] at hq
    cases hq

theorem grows_addGroups (nid : Nat) : ∀ (gs : List (List PItem)) (next : Nat) (t : PropertyList),
    t.Bounded → Grows t (addGroups nid gs next t).2 := by
  intro gs
  induction gs with
  | nil => exact fun _ t _ => .refl t
  | cons g gs ih => exact fun _ t hb => (Grows.store hb _).trans (ih _ _ (hb.store _))

/-- Adding properties makes a list of them and keeps all others. -/
theorem addPitems_grows (hb : t.Bounded) (nid : Nat) (items : List PItem) :
    (t.addPitems nid items).2.Bounded ∧ Grows t (t.addPitems nid items).2 ∧
      (t.addPitems nid items).2.Holds (t.addPitems nid items).1 (keyed items) := by
  obtain ⟨ids, -, hr⟩ := addPitems_spec hb nid items
  exact ⟨hr.bounded, grows_addGroups nid _ _ t hb, ids, hr.chain.path, hr.items⟩

end Poseidon.PropertyList
