import Poseidon.Lib.SearchTree

/-!
# Sorted rows of entries

Keys and values in two arrays, in the order of the keys. `Has r k v` says that
`v` is at `k`. The lemmas say which entries there are after one has been put
in, taken out or given a new value, in a part of the rows, and in two rows
that are put together; they are stated for any arrays that agree with the
result below its number of entries, since what is behind it does not matter.
-/

namespace BTree

structure Rows (K V : Type) where
  num : Nat
  keys : Nat → K
  values : Nat → V

namespace Rows

variable {K V : Type} [LinearOrder K] {r r' u : Rows K V} {k key : K} {v val : V} {m pos i : Nat}

def Sorted (r : Rows K V) : Prop := ∀ i j, i < j → j < r.num → r.keys i < r.keys j

def Has (r : Rows K V) (k : K) (v : V) : Prop := ∃ i, i < r.num ∧ r.keys i = k ∧ r.values i = v

theorem Sorted.le (h : r.Sorted) {i j : Nat} (hij : i ≤ j) (hj : j < r.num) :
    r.keys i ≤ r.keys j := by
  rcases Nat.lt_or_eq_of_le hij with hlt | rfl
  · exact le_of_lt (h i j hlt hj)
  · exact le_refl _

theorem Sorted.inj (h : r.Sorted) {i j : Nat} (hi : i < r.num) (hj : j < r.num)
    (heq : r.keys i = r.keys j) : i = j := by
  rcases Nat.lt_trichotomy i j with hlt | heq' | hlt
  · exact absurd heq (ne_of_lt (h i j hlt hj))
  · exact heq'
  · exact absurd heq.symm (ne_of_lt (h j i hlt hi))

/-- A key is at one position. -/
theorem Sorted.has_iff (h : r.Sorted) (hi : i < r.num) : r.Has (r.keys i) v ↔ r.values i = v := by
  constructor
  · rintro ⟨j, hj, hk, hv⟩
    rw [← h.inj hj hi hk]
    exact hv
  · exact fun hv => ⟨i, hi, rfl, hv⟩

/-- `pos` is where the search for `key` ends. -/
structure Found (r : Rows K V) (key : K) (pos : Nat) : Prop where
  le : pos ≤ r.num
  below : ∀ j, j < pos → r.keys j < key
  above : pos < r.num → key ≤ r.keys pos

/-- The key is there, at that position. -/
theorem Sorted.has_at (h : r.Sorted) (hhit : pos < r.num ∧ r.keys pos = key) :
    r.Has key v ↔ r.values pos = v := by
  rw [← hhit.2]
  exact h.has_iff hhit.1

/-- The key is not there. -/
theorem Found.miss (hf : r.Found key pos) (h : r.Sorted)
    (hmiss : ¬(pos < r.num ∧ r.keys pos = key)) : ¬r.Has key v := by
  rintro ⟨i, hi, hk, -⟩
  rcases Nat.lt_trichotomy i pos with hlt | rfl | hlt
  · exact absurd hk (ne_of_lt (hf.below i hlt))
  · exact hmiss ⟨hi, hk⟩
  · have := lt_of_le_of_lt (hf.above (by omega)) (h pos i hlt hi)
    exact absurd hk.symm (ne_of_lt this)

theorem Found.lt (hf : r.Found key pos) (h : r.Sorted)
    (hmiss : ¬(pos < r.num ∧ r.keys pos = key)) (hi : pos ≤ i) (hlt : i < r.num) :
    key < r.keys i := by
  have hle := le_trans (hf.above (by omega)) (h.le hi hlt)
  refine lt_of_le_of_ne hle fun heq => ?_
  exact hf.miss (v := r.values i) h hmiss ⟨i, hlt, heq.symm, rfl⟩

/-! ## A new value -/

theorem has_setValue (h : r.Sorted) (hhit : pos < r.num ∧ r.keys pos = key) (val : V) :
    (Has { r with values := Function.update r.values pos val } k v ↔
      if k = key then v = val else r.Has k v) := by
  split
  · next hk =>
      subst hk
      constructor
      · rintro ⟨i, hi, hki, hv⟩
        have : i = pos := h.inj hi hhit.1 (hki.trans hhit.2.symm)
        subst this
        simpa using hv.symm
      · rintro rfl
        exact ⟨pos, hhit.1, hhit.2, by simp⟩
  · next hk =>
      constructor
      · rintro ⟨i, hi, hki, hv⟩
        have hki' : r.keys i = k := hki
        have hne : i ≠ pos := fun heq => hk (by rw [← hki', heq, hhit.2])
        refine ⟨i, hi, hki, ?_⟩
        simpa [hne] using hv
      · rintro ⟨i, hi, hki, hv⟩
        have hne : i ≠ pos := fun heq => hk (by rw [← hki, heq, hhit.2])
        exact ⟨i, hi, hki, by simpa [hne] using hv⟩

/-! ## A new entry -/

/-- `r` with an entry at `pos`. -/
def insert (r : Rows K V) (pos : Nat) (key : K) (val : V) : Rows K V where
  num := r.num + 1
  keys := insertAt r.keys r.num pos key
  values := insertAt r.values r.num pos val

theorem sorted_insert (h : r.Sorted) (hf : r.Found key pos)
    (hmiss : ¬(pos < r.num ∧ r.keys pos = key)) : (r.insert pos key val).Sorted := by
  intro i j hij hj
  have hj' : j ≤ r.num := Nat.le_of_lt_succ hj
  have hle := hf.le
  show insertAt r.keys r.num pos key i < insertAt r.keys r.num pos key j
  rcases Nat.lt_trichotomy i pos with hi | rfl | hi
  · rw [insertAt_lt hi]
    rcases Nat.lt_trichotomy j pos with hjp | rfl | hjp
    · rw [insertAt_lt hjp]
      exact h i j hij (by omega)
    · rw [insertAt_self]
      exact hf.below i hi
    · rw [insertAt_gt hjp hj']
      exact h i (j - 1) (by omega) (by omega)
  · rw [insertAt_self, insertAt_gt hij hj']
    exact hf.lt h hmiss (by omega) (by omega)
  · rw [insertAt_gt hi (by omega), insertAt_gt (by omega) hj']
    exact h (i - 1) (j - 1) (by omega) (by omega)

omit [LinearOrder K] in
theorem has_insert (hle : pos ≤ r.num) :
    (r.insert pos key val).Has k v ↔ (key = k ∧ val = v) ∨ r.Has k v := by
  constructor
  · rintro ⟨i, hi, hk, hv⟩
    have hi' : i ≤ r.num := Nat.le_of_lt_succ hi
    have hk' : insertAt r.keys r.num pos key i = k := hk
    have hv' : insertAt r.values r.num pos val i = v := hv
    rcases Nat.lt_trichotomy i pos with hlt | rfl | hlt
    · rw [insertAt_lt hlt] at hk' hv'
      exact .inr ⟨i, by omega, hk', hv'⟩
    · rw [insertAt_self] at hk' hv'
      exact .inl ⟨hk', hv'⟩
    · rw [insertAt_gt hlt hi'] at hk' hv'
      exact .inr ⟨i - 1, by omega, hk', hv'⟩
  · rintro (⟨rfl, rfl⟩ | ⟨i, hi, hk, hv⟩)
    · exact ⟨pos, Nat.lt_succ_of_le hle, insertAt_self, insertAt_self⟩
    · rcases Nat.lt_or_ge i pos with hlt | hge
      · exact ⟨i, Nat.lt_succ_of_lt hi, (insertAt_lt hlt).trans hk, (insertAt_lt hlt).trans hv⟩
      · refine ⟨i + 1, Nat.succ_lt_succ hi, ?_, ?_⟩
        · exact (insertAt_gt (by omega) hi).trans hk
        · exact (insertAt_gt (by omega) hi).trans hv

/-! ## Parts -/

/-- `u` has the entries of `r` from `lo` on, as many as it has. -/
structure Slice (r : Rows K V) (lo : Nat) (u : Rows K V) : Prop where
  le : lo + u.num ≤ r.num
  keys : ∀ i, i < u.num → u.keys i = r.keys (lo + i)
  values : ∀ i, i < u.num → u.values i = r.values (lo + i)

variable {lo : Nat}

theorem Slice.sorted (hu : r.Slice lo u) (h : r.Sorted) : u.Sorted := by
  intro i j hij hj
  have := hu.le
  rw [hu.keys i (by omega), hu.keys j hj]
  exact h _ _ (by omega) (by omega)

omit [LinearOrder K] in
theorem Slice.has_iff (hu : r.Slice lo u) : u.Has k v ↔
    ∃ i, lo ≤ i ∧ i < lo + u.num ∧ r.keys i = k ∧ r.values i = v := by
  constructor
  · rintro ⟨i, hi, hk, hv⟩
    rw [hu.keys i hi] at hk
    rw [hu.values i hi] at hv
    exact ⟨lo + i, by omega, by omega, hk, hv⟩
  · rintro ⟨i, hlo, hi, hk, hv⟩
    refine ⟨i - lo, by omega, ?_, ?_⟩
    · rw [hu.keys _ (by omega), show lo + (i - lo) = i by omega]
      exact hk
    · rw [hu.values _ (by omega), show lo + (i - lo) = i by omega]
      exact hv

/-- The entries in front of `s`. -/
theorem Slice.has_front (hu : r.Slice 0 u) {s : K}
    (hpart : ∀ i, i < r.num → (r.keys i < s ↔ i < u.num)) : u.Has k v ↔ r.Has k v ∧ k < s := by
  have hle := hu.le
  rw [hu.has_iff]
  constructor
  · rintro ⟨i, -, hi, rfl, hv⟩
    exact ⟨⟨i, by omega, rfl, hv⟩, (hpart i (by omega)).mpr (by omega)⟩
  · rintro ⟨⟨i, hi, rfl, hv⟩, hlt⟩
    have := (hpart i hi).mp hlt
    exact ⟨i, Nat.zero_le i, by omega, rfl, hv⟩

/-- The entries from `s` on. -/
theorem Slice.has_back (hu : r.Slice lo u) (hnum : lo + u.num = r.num) {s : K}
    (hpart : ∀ i, i < r.num → (r.keys i < s ↔ i < lo)) : u.Has k v ↔ r.Has k v ∧ s ≤ k := by
  rw [hu.has_iff]
  constructor
  · rintro ⟨i, hlo, hi, rfl, hv⟩
    refine ⟨⟨i, by omega, rfl, hv⟩, not_lt.mp fun hlt => ?_⟩
    have := (hpart i (by omega)).mp hlt
    omega
  · rintro ⟨⟨i, hi, rfl, hv⟩, hle⟩
    refine ⟨i, ?_, by omega, rfl, hv⟩
    by_contra hlt
    exact absurd ((hpart i hi).mpr (by omega)) (not_lt.mpr hle)

/-- The search in a part. -/
theorem Found.slice (hf : r.Found key pos) (hu : r.Slice lo u) (hlo : lo ≤ pos)
    (hle : pos ≤ lo + u.num) : u.Found key (pos - lo) := by
  have := hu.le
  refine ⟨by omega, fun j hj => ?_, fun hlt => ?_⟩
  · rw [hu.keys j (by omega)]
    exact hf.below _ (by omega)
  · rw [hu.keys _ hlt, show lo + (pos - lo) = pos by omega]
    exact hf.above (by omega)

end Rows

end BTree
