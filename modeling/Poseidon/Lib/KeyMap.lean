/-!
# Maps with unique keys

An index maps a key to one value: inserting a key that is there replaces its
value. `KeyMap` asks for no more than that of a map that is sound, and nothing
at all of erasing: `Erases m k` says that erasing `k` from `m` does what it
should. `Holds m R` says that the map holds exactly the pairs of the relation
`R`; the rules below say what becomes of `R` when a pair is added or removed.
-/

/-- A map with unique keys, given by its operations. -/
structure KeyMap (κ ι : Type) [DecidableEq κ] where
  Map : Type
  empty : Map
  insert : Map → κ → ι → Map
  erase : Map → κ → Map
  lookup : Map → κ → Option ι
  Sound : Map → Prop
  sound_empty : Sound empty
  sound_insert : ∀ m k i, Sound m → Sound (insert m k i)
  lookup_empty : ∀ k, lookup empty k = none
  lookup_insert : ∀ m k i k', Sound m →
    lookup (insert m k i) k' = if k' = k then some i else lookup m k'

namespace KeyMap

variable {κ ι : Type} [DecidableEq κ]

/-- A map as a function. -/
def ofFun (κ ι : Type) [DecidableEq κ] : KeyMap κ ι where
  Map := κ → Option ι
  empty := fun _ => none
  insert m k i := fun k' => if k' = k then some i else m k'
  erase m k := fun k' => if k' = k then none else m k'
  lookup m k := m k
  Sound _ := True
  sound_empty := trivial
  sound_insert _ _ _ _ := trivial
  lookup_empty _ := rfl
  lookup_insert _ _ _ _ _ := rfl

/-- Erasing `k` takes away `k` and nothing else. -/
def Erases (M : KeyMap κ ι) (m : M.Map) (k : κ) : Prop :=
  M.Sound (M.erase m k) ∧
    ∀ k', M.lookup (M.erase m k) k' = if k' = k then none else M.lookup m k'

theorem erases_ofFun (m : κ → Option ι) (k : κ) : (ofFun κ ι).Erases m k :=
  ⟨trivial, fun _ => rfl⟩

variable {M : KeyMap κ ι} {m : M.Map} {R R' : κ → ι → Prop} {k : κ} {i : ι}

/-- The map holds exactly the pairs of `R`. -/
structure Holds (M : KeyMap κ ι) (m : M.Map) (R : κ → ι → Prop) : Prop where
  sound : M.Sound m
  lookup : ∀ k i, M.lookup m k = some i ↔ R k i

theorem Holds.empty (h : ∀ k i, ¬ R k i) : M.Holds M.empty R := by
  refine ⟨M.sound_empty, fun k i => ?_⟩
  rw [M.lookup_empty]
  exact ⟨fun hn => (by cases hn), fun hr => absurd hr (h k i)⟩

theorem Holds.congr (h : M.Holds m R) (heq : ∀ k i, R' k i ↔ R k i) : M.Holds m R' :=
  ⟨h.sound, fun k i => (h.lookup k i).trans (heq k i).symm⟩

theorem Holds.unique {j : ι} (h : M.Holds m R) (hi : R k i) (hj : R k j) : i = j := by
  have h1 := (h.lookup k i).mpr hi
  rw [(h.lookup k j).mpr hj] at h1
  exact (Option.some.inj h1).symm

/-- A new pair, where nobody else has the key. -/
theorem Holds.insert (h : M.Holds m R) (hfree : ∀ j, R k j → j = i) :
    M.Holds (M.insert m k i) fun k' j => R k' j ∨ (k' = k ∧ j = i) := by
  refine ⟨M.sound_insert m k i h.sound, fun k' j => ?_⟩
  rw [M.lookup_insert m k i k' h.sound]
  split
  · next heq =>
    subst heq
    refine ⟨fun hs => .inr ⟨rfl, (Option.some.inj hs).symm⟩, fun hr => ?_⟩
    rcases hr with hr | ⟨_, hj⟩
    · rw [hfree j hr]
    · rw [hj]
  · next hne =>
    rw [h.lookup k' j]
    exact ⟨.inl, fun hr => hr.resolve_right fun hk => hne hk.1⟩

/-- A pair is taken away. -/
theorem Holds.erase (h : M.Holds m R) (he : M.Erases m k) :
    M.Holds (M.erase m k) fun k' j => R k' j ∧ k' ≠ k := by
  refine ⟨he.1, fun k' j => ?_⟩
  rw [he.2]
  split
  · next heq => exact ⟨fun hn => (by cases hn), fun hr => absurd heq hr.2⟩
  · next hne =>
    rw [h.lookup k' j]
    exact ⟨fun hr => ⟨hr, hne⟩, fun hr => hr.1⟩

end KeyMap
