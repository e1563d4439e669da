import Poseidon.Lib.KeyMap
import Poseidon.Proofs.ImEraseRuns

/-!
# The tree in memory as the map of an index

Inserting keeps to the map that the tree stands for, so the tree has the laws
that an index relies on. Erasing does only where the tree has what it needs:
when a leaf has got keys from its left neighbour, the separator of another pair
of leaves is changed, and the keys that are then searched for in the wrong leaf
are lost.
-/

namespace Poseidon

open BTree Wp

namespace ImTree

open BPTree

variable {K V : Type} [LinearOrder K] {N M : Nat} {raw : Raw K V} {f : K → Option V} {key : K}
  {t : ImTree K V}

theorem next_represents (hN : 2 < N) (hM : 2 ≤ M) (raw : Raw K V) (h : Represents N M f t)
    (key : K) (val : V) :
    Represents N M (Function.update f key (some val)) (next N M raw t (key, val)) := by
  obtain ⟨_, t', hok, h'⟩ := wp_exists (insert_wp hN hM raw h key val)
  rw [next, hok]
  exact h'

theorem lookup_of_update {t' : ImTree K V} {x : Option V} (h : Represents N M f t)
    (h' : Represents N M (Function.update f key x) t') (k : K) :
    (lookup t' k).toOption.join = if k = key then x else (lookup t k).toOption.join := by
  rw [lookup_eq h' k, lookup_eq h k]
  by_cases hk : k = key
  · rw [hk, Function.update_self, if_pos rfl]
    rfl
  · rw [Function.update_of_ne hk, if_neg hk]

/-- The tree as a map. -/
def keyMap (N M : Nat) (hN : 2 < N) (hM : 2 ≤ M) (raw : Raw K V) : KeyMap K V where
  Map := ImTree K V
  empty := new raw
  insert t key val := next N M raw t (key, val)
  erase := erased N M
  lookup t key := (lookup t key).toOption.join
  Sound t := ∃ f, Represents N M f t
  sound_empty := ⟨_, represents_new raw⟩
  sound_insert _ key val h := h.elim fun _ hf => ⟨_, next_represents hN hM raw hf key val⟩
  lookup_empty key := by
    rw [lookup_eq (@represents_new _ _ _ N M raw) key]
    rfl
  lookup_insert t key val k h := h.elim fun _ hf =>
    lookup_of_update hf (next_represents hN hM raw hf key val) k

/-- A key is erased as it should be where the tree has what that needs. -/
theorem erases_of_fits (hN : 2 < N) (hM : 2 ≤ M) (h : Represents N M f t)
    (hfit : EraseFits N M t key) : (keyMap N M hN hM raw).Erases t key := by
  obtain ⟨_, t', hok, -, h'⟩ := wp_exists (erase_wp hN hM h hfit)
  have hrep : Represents N M (Function.update f key none) (erased N M t key) := by
    rw [erased, hok]
    exact h'
  exact ⟨⟨_, hrep⟩, lookup_of_update h hrep⟩

end ImTree

end Poseidon
