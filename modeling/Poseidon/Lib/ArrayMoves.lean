import Mathlib.Data.List.Range
import Poseidon.Lib.CheckedArray
import Poseidon.Lib.SearchTree

/-!
# Loops that move entries

The loops that copy a range of entries to another array, or to another place
of the same array, one entry after the other. In the same array the order
matters when the ranges overlap: upwards to the front, downwards to the back.
An array of `cap` cells with the content `f` is `full cap f`, and what the
loops leave in it is a `blit`. `segment` is a range as a list.
-/

namespace BTree

variable {α : Type} {cap cap' p lo n m : Nat} {f g : Nat → α} {a : α}

open CheckedArray

/-- All cells below `cap`. -/
def full (cap : Nat) (f : Nat → α) : CheckedArray α := fun i => if i < cap then some (f i) else none

theorem full_of_lt {i : Nat} (h : i < cap) : full cap f i = some (f i) := if_pos h

theorem full_of_ge {i : Nat} (h : cap ≤ i) : full cap f i = none := if_neg (Nat.not_lt.mpr h)

theorem store_full {i : Nat} (h : i < cap) :
    store (full cap f) i a = some (full cap (Function.update f i a)) := by
  rw [store, full_of_lt h, Option.map_some, Option.some.injEq]
  funext j
  by_cases hj : j = i
  · subst hj
    rw [Function.update_self, full_of_lt h, Function.update_self]
  · rw [Function.update_of_ne hj, full, full, Function.update_of_ne hj]

theorem store_full_of_ge {i : Nat} (h : cap ≤ i) : store (full cap f) i a = none := by
  rw [store, full_of_ge h]
  rfl

/-! ## Loops -/

/-- `dst[p + i] = src[lo + i]`. -/
def copyCell (src : CheckedArray α) (p lo : Nat) (dst : CheckedArray α) (i : Nat) :
    Option (CheckedArray α) := do
  let a ← src (lo + i)
  dst.store (p + i) a

/-- From another array. -/
def copyCells (dst : CheckedArray α) (p : Nat) (src : CheckedArray α) (lo n : Nat) :
    Option (CheckedArray α) :=
  (List.range n).foldlM (copyCell src p lo) dst

/-- In the same array, upwards. -/
def moveUp (c : CheckedArray α) (p lo n : Nat) : Option (CheckedArray α) :=
  (List.range n).foldlM (fun c i => copyCell c p lo c i) c

/-- In the same array, downwards. -/
def moveDown (c : CheckedArray α) (p lo n : Nat) : Option (CheckedArray α) :=
  (List.range n).reverse.foldlM (fun c i => copyCell c p lo c i) c

theorem copyCell_full {i : Nat} (hsrc : lo + i < cap') (hdst : p + i < cap) :
    copyCell (full cap' g) p lo (full cap f) i =
      some (full cap (Function.update f (p + i) (g (lo + i)))) := by
  rw [copyCell, full_of_lt hsrc, Option.bind_eq_bind, Option.bind_some, store_full hdst]

theorem copyCell_overflows {i : Nat} (hsrc : lo + i < cap') (hdst : cap ≤ p + i) :
    copyCell (full cap' g) p lo (full cap f) i = none := by
  rw [copyCell, full_of_lt hsrc, Option.bind_eq_bind, Option.bind_some, store_full_of_ge hdst]

theorem blit_zero : blit f p g lo 0 = f := by
  funext i
  rw [blit, if_neg (by omega)]

theorem blit_succ : blit f p g lo (n + 1) = Function.update (blit f p g lo n) (p + n)
    (g (lo + n)) := by
  funext i
  by_cases hi : i = p + n
  · subst hi
    rw [Function.update_self, blit, if_pos (by omega), Nat.add_sub_cancel_left]
  · rw [Function.update_of_ne hi, blit, blit]
    simp only [show (p ≤ i ∧ i < p + (n + 1)) ↔ (p ≤ i ∧ i < p + n) by omega]

theorem blit_cons : blit f p g lo (n + 1) =
    blit (Function.update f p (g lo)) (p + 1) g (lo + 1) n := by
  funext i
  by_cases hi : i = p
  · subst hi
    rw [blit, if_pos (by omega), blit, if_neg (by omega), Function.update_self, Nat.sub_self,
      Nat.add_zero]
  · rw [blit, blit, Function.update_of_ne hi]
    by_cases hin : p ≤ i ∧ i < p + (n + 1)
    · rw [if_pos hin, if_pos (by omega), show lo + (i - p) = lo + 1 + (i - (p + 1)) by omega]
    · rw [if_neg hin, if_neg (by omega)]

theorem blit_of_lt {i : Nat} (h : i < p) : blit f p g lo n i = f i := if_neg (by omega)

theorem blit_of_ge {i : Nat} (h : p + n ≤ i) : blit f p g lo n i = f i := if_neg (by omega)

theorem blit_of_mem {i : Nat} (h : i < n) : blit f p g lo n (p + i) = g (lo + i) := by
  rw [blit, if_pos (by omega), Nat.add_sub_cancel_left]

theorem copyCells_full (hdst : p + n ≤ cap) (hsrc : lo + n ≤ cap') :
    copyCells (full cap f) p (full cap' g) lo n = some (full cap (blit f p g lo n)) := by
  induction n with
  | zero => rw [blit_zero]; rfl
  | succ n ih =>
      rw [copyCells] at ih ⊢
      rw [List.range_succ, List.foldlM_append, ih (by omega) (by omega), Option.bind_eq_bind,
        Option.bind_some, List.foldlM_cons, copyCell_full (by omega) (by omega), blit_succ]
      rfl

/-- The last store is behind the array. -/
theorem copyCells_overflows (hdst : p + n = cap + 1) (hsrc : lo + n ≤ cap') (hn : 0 < n) :
    copyCells (full cap f) p (full cap' g) lo n = none := by
  obtain ⟨m, rfl⟩ : ∃ m, n = m + 1 := ⟨n - 1, by omega⟩
  have hrun := copyCells_full (f := f) (g := g) (show p + m ≤ cap by omega)
    (show lo + m ≤ cap' by omega)
  rw [copyCells] at hrun ⊢
  rw [List.range_succ, List.foldlM_append, hrun, Option.bind_eq_bind, Option.bind_some,
    List.foldlM_cons, copyCell_overflows (by omega) (by omega)]
  rfl

/-- To the front: what is read has not been written. -/
theorem moveUp_full (hle : p ≤ lo) (hsrc : lo + n ≤ cap) :
    moveUp (full cap f) p lo n = some (full cap (blit f p f lo n)) := by
  induction n with
  | zero => rw [blit_zero]; rfl
  | succ n ih =>
      rw [moveUp] at ih ⊢
      rw [List.range_succ, List.foldlM_append, ih (by omega), Option.bind_eq_bind, Option.bind_some,
        List.foldlM_cons, copyCell_full (by omega) (by omega), blit_of_ge (by omega), blit_succ]
      rfl

/-- To the back: the entries from `m` on have been moved. -/
theorem moveDown_from (hle : lo ≤ p) (hdst : p + n ≤ cap) : ∀ m, m ≤ n →
    (List.range m).reverse.foldlM (fun c i => copyCell c p lo c i)
        (full cap (blit f (p + m) f (lo + m) (n - m))) =
      some (full cap (blit f p f lo n)) := by
  intro m
  induction m with
  | zero => exact fun _ => rfl
  | succ m ih =>
      intro hm
      rw [List.range_succ, List.reverse_append, List.reverse_singleton, List.singleton_append,
        List.foldlM_cons, copyCell_full (by omega) (by omega), Option.bind_eq_bind,
        Option.bind_some,
        blit_of_lt (by omega), ← ih (by omega), show n - m = n - (m + 1) + 1 by omega, blit_cons]
      congr 3
      funext i
      by_cases hi : i = p + m
      · subst hi
        rw [Function.update_self, blit_of_lt (by omega), Function.update_self]
      · rw [Function.update_of_ne hi, blit, blit, Function.update_of_ne hi]
        rfl

theorem moveDown_full (hle : lo ≤ p) (hdst : p + n ≤ cap) :
    moveDown (full cap f) p lo n = some (full cap (blit f p f lo n)) := by
  have h := moveDown_from (f := f) hle hdst n (Nat.le_refl n)
  rwa [Nat.sub_self, blit_zero] at h

/-! ## Segments -/

/-- The entries from `lo` on. -/
def segment (f : Nat → α) (lo n : Nat) : List α := (List.range n).map fun i => f (lo + i)

@[simp] theorem length_segment : (segment f lo n).length = n := by simp [segment]

theorem segment_congr (h : ∀ i, i < n → f (lo + i) = g (m + i)) : segment f lo n = segment g m n :=
  List.map_congr_left fun i hi => h i (List.mem_range.mp hi)

theorem segment_append : segment f lo (n + m) = segment f lo n ++ segment f (lo + n) m := by
  rw [segment, List.range_add, List.map_append, List.map_map]
  refine congrArg (segment f lo n ++ ·) (List.map_congr_left fun i _ => ?_)
  exact congrArg f (Nat.add_assoc lo n i).symm

theorem segment_one : segment f lo 1 = [f lo] := rfl

variable {h : Nat → α} {lo' k : Nat}

/-- An array with the entries of two others one behind the other. -/
theorem segment_two (hk : k = n + m) (hfront : ∀ i, i < n → h i = f (lo + i))
    (hback : ∀ i, i < m → h (n + i) = g (lo' + i)) :
    segment h 0 k = segment f lo n ++ segment g lo' m := by
  rw [hk, segment_append, Nat.zero_add]
  refine congr (congrArg _ (segment_congr fun i hi => ?_)) (segment_congr hback)
  rw [Nat.zero_add, hfront i hi]

/-- An array with the entries of two others around one entry. -/
theorem segment_around (hk : k = n + m + 1) (hfront : ∀ i, i < n → h i = f (lo + i))
    (hmid : h n = a)
    (hback : ∀ i, i < m → h (n + 1 + i) = g (lo' + i)) :
    segment h 0 k = segment f lo n ++ a :: segment g lo' m := by
  have hall : segment h 0 k = segment f lo n ++ segment h n (1 + m) :=
    segment_two (by omega) hfront fun _ _ => rfl
  rw [hall, segment_append, segment_one, hmid, segment_congr hback]
  rfl

end BTree
