import Mathlib.Data.Nat.Find
import Mathlib.Logic.Function.Basic
import Mathlib.Order.Lattice

/-!
# Search trees whose branches are arrays

A branch has an array of keys and an array with one child more. The keys
separate the children: a search key goes to the child after the last
separator that is not greater than it. `Holds T R b` says that the
separators of `b` are in order and in `R`, and that each child is as `T` says
about the part of `R` that goes to it. A tree is a nesting of such branches
down to its leaves, all at one depth.

What `T` says can depend on a heap, on a map that the tree represents or on
anything else. The lemmas say how `Holds` changes with the branch: when a
child is replaced or split, and when a branch is divided. None of them looks
into `T`. While a child is being worked on, the branch holds without it;
`HoldsOn` names the children that it holds with.
-/

namespace BTree

variable {α C K : Type}

/-! ## Arrays -/

/-- `x` at `pos` in front of the entries from `pos` on, of `num`. -/
def insertAt (a : Nat → α) (num pos : Nat) (x : α) : Nat → α := fun i =>
  if i = pos then x else if pos < i ∧ i ≤ num then a (i - 1) else a i

/-- The entries after `pos`, of `num`, one position to the left. -/
def removeAt (a : Nat → α) (num pos : Nat) : Nat → α := fun i =>
  if pos ≤ i ∧ i + 1 < num then a (i + 1) else a i

/-- `len` entries of `src` from `lo` on, at `pos`. -/
def blit (dst : Nat → α) (pos : Nat) (src : Nat → α) (lo len : Nat) : Nat → α := fun i =>
  if pos ≤ i ∧ i < pos + len then src (lo + (i - pos)) else dst i

section

variable {a b : Nat → α} {num pos lo len i : Nat} {x : α}

@[simp] theorem insertAt_self : insertAt a num pos x pos = x := if_pos rfl

theorem insertAt_lt (h : i < pos) : insertAt a num pos x i = a i := by
  rw [insertAt, if_neg (by omega), if_neg (by omega)]

theorem insertAt_gt (h : pos < i) (hi : i ≤ num) : insertAt a num pos x i = a (i - 1) := by
  rw [insertAt, if_neg (by omega), if_pos ⟨h, hi⟩]

theorem blit_zero_of_lt (h : i < len) : blit a 0 b lo len i = b (lo + i) := by
  rw [blit, if_pos (by omega), Nat.sub_zero]

end

/-! ## Linear search -/

/-- The first of the positions below `n` that `p` does not hold of, or `n`. -/
def firstNot (p : Nat → Bool) (n : Nat) : Nat := ((List.range n).find? fun i => !p i).getD n

section

variable {p : Nat → Bool} {n : Nat}

theorem firstNot_spec (p : Nat → Bool) (n : Nat) :
    firstNot p n ≤ n ∧ (∀ j, j < firstNot p n → p j = true) ∧
      (firstNot p n < n → p (firstNot p n) = false) := by
  rw [firstNot]
  cases hf : (List.range n).find? fun i => !p i with
  | none =>
      refine ⟨Nat.le_refl n, fun j hj => ?_, fun hlt => absurd hlt (Nat.lt_irrefl n)⟩
      rw [List.find?_range_eq_none] at hf
      simpa using hf j hj
  | some i =>
      rw [List.find?_range_eq_some] at hf
      obtain ⟨hp, hi, hmin⟩ := hf
      refine ⟨Nat.le_of_lt (List.mem_range.mp hi), fun j hj => ?_, fun _ => ?_⟩
      · simpa using hmin j hj
      · simpa using hp

end

/-! ## Branches -/

/-- `numKeys` separators and the children they separate. -/
structure Branch (C K : Type) where
  numKeys : Nat
  keys : Nat → K
  children : Nat → C

namespace Branch

variable [LinearOrder K] {b : Branch C K} {T T' : (K → Prop) → C → Prop} {R : K → Prop}
  {D : Nat → Prop} {k s : K} {c l r : C} {i j m pos : Nat}

def Sorted (b : Branch C K) : Prop := ∀ i j, i < j → j < b.numKeys → b.keys i < b.keys j

/-- `k` goes to the child `i`. -/
def Routes (b : Branch C K) (k : K) (i : Nat) : Prop :=
  i ≤ b.numKeys ∧ (∀ j, j < i → b.keys j ≤ k) ∧ ∀ j, i ≤ j → j < b.numKeys → k < b.keys j

theorem Routes.unique (hi : b.Routes k i) (hj : b.Routes k j) : i = j := by
  obtain ⟨hi1, hi2, hi3⟩ := hi
  obtain ⟨hj1, hj2, hj3⟩ := hj
  rcases Nat.lt_trichotomy i j with hlt | heq | hlt
  · exact absurd (hj2 i hlt) (not_le_of_gt (hi3 i (Nat.le_refl i) (by omega)))
  · exact heq
  · exact absurd (hi2 j hlt) (not_le_of_gt (hj3 j (Nat.le_refl j) (by omega)))

theorem Sorted.le (h : b.Sorted) (hij : i ≤ j) (hj : j < b.numKeys) : b.keys i ≤ b.keys j := by
  rcases Nat.lt_or_eq_of_le hij with hlt | rfl
  · exact le_of_lt (h i j hlt hj)
  · exact le_refl _

/-- Of sorted separators only the neighbours matter. -/
theorem Sorted.routes_iff (h : b.Sorted) :
    b.Routes k i ↔ i ≤ b.numKeys ∧ (i = 0 ∨ b.keys (i - 1) ≤ k) ∧
      (i = b.numKeys ∨ k < b.keys i) := by
  constructor
  · rintro ⟨h1, h2, h3⟩
    refine ⟨h1, ?_, ?_⟩
    · rcases Nat.eq_zero_or_pos i with h0 | h0
      · exact .inl h0
      · exact .inr (h2 (i - 1) (by omega))
    · rcases Nat.lt_or_eq_of_le h1 with hlt | heq
      · exact .inr (h3 i (Nat.le_refl i) hlt)
      · exact .inl heq
  · rintro ⟨h1, h2, h3⟩
    refine ⟨h1, fun j hj => ?_, fun j hj hlt => ?_⟩
    · exact le_trans (h.le (Nat.le_sub_one_of_lt hj) (by omega)) (h2.resolve_left (by omega))
    · exact lt_of_lt_of_le (h3.resolve_left (by omega)) (h.le hj hlt)

/-- Every key goes somewhere. -/
theorem Sorted.exists_routes (h : b.Sorted) (k : K) : ∃ i, b.Routes k i := by
  have hex : ∃ i, i = b.numKeys ∨ k < b.keys i := ⟨b.numKeys, .inl rfl⟩
  classical
  refine ⟨Nat.find hex, h.routes_iff.mpr ⟨Nat.find_min' hex (.inl rfl), ?_, Nat.find_spec hex⟩⟩
  rcases Nat.eq_zero_or_pos (Nat.find hex) with h0 | h0
  · exact .inl h0
  · have hmin := Nat.find_min hex (Nat.sub_lt h0 Nat.one_pos)
    exact .inr (not_lt.mp fun hlt => hmin (.inr hlt))

/-- The separators are in order and in `R`, and the children in `D` are as
`T` says about their parts of `R`. -/
structure HoldsOn (T : (K → Prop) → C → Prop) (R : K → Prop) (D : Nat → Prop) (b : Branch C K) :
    Prop where
  sorted : b.Sorted
  inRange : ∀ i, i < b.numKeys → R (b.keys i)
  child : ∀ i, i ≤ b.numKeys → D i → T (fun k => R k ∧ b.Routes k i) (b.children i)

/-- All children are as `T` says. -/
abbrev Holds (T : (K → Prop) → C → Prop) (R : K → Prop) (b : Branch C K) : Prop :=
  b.HoldsOn T R fun _ => True

theorem HoldsOn.holds (h : b.HoldsOn T R D) (hD : ∀ i, i ≤ b.numKeys → D i) : b.Holds T R :=
  ⟨h.sorted, h.inRange, fun i hi _ => h.child i hi (hD i hi)⟩

theorem HoldsOn.mono (h : b.HoldsOn T R D) (hT : ∀ R' c, (∀ k, R' k → R k) → T R' c → T' R' c) :
    b.HoldsOn T' R D :=
  ⟨h.sorted, h.inRange, fun i hi hD => hT _ _ (fun _ hk => hk.1) (h.child i hi hD)⟩

/-- What changes for the keys that go to one child does not matter for the
others. -/
theorem HoldsOn.off (h : b.HoldsOn T R D)
    (hT : ∀ R' c, (∀ k, R' k → R k ∧ ¬b.Routes k pos) → T R' c → T' R' c) :
    b.HoldsOn T' R fun i => D i ∧ i ≠ pos := by
  refine ⟨h.sorted, h.inRange, fun i hi hD => ?_⟩
  exact hT _ _ (fun k hk => ⟨hk.1, fun hp => hD.2 (hk.2.unique hp)⟩) (h.child i hi hD.1)

omit [LinearOrder K] in
theorem congr_range {R R' : K → Prop} (hR : ∀ k, R k ↔ R' k) (h : T R c) : T R' c := by
  have heq : R = R' := funext fun k => propext (hR k)
  rwa [← heq]

/-! ## Replacing a child -/

def setChild (b : Branch C K) (i : Nat) (c : C) : Branch C K :=
  { b with children := Function.update b.children i c }

theorem HoldsOn.setChild (h : b.HoldsOn T R D) (hD : ∀ i, D i → i ≠ pos) (c : C) :
    (b.setChild pos c).HoldsOn T R D := by
  refine ⟨h.sorted, h.inRange, fun i hi hi' => ?_⟩
  show T (fun k => R k ∧ b.Routes k i) (Function.update b.children pos c i)
  rw [Function.update_of_ne (hD i hi')]
  exact h.child i hi hi'

/-- The child that is missing. -/
theorem HoldsOn.fill (h : b.HoldsOn T R D) (hD : ∀ i, i ≠ pos → D i)
    (hc : T (fun k => R k ∧ b.Routes k pos) c) : (b.setChild pos c).Holds T R := by
  refine ⟨h.sorted, h.inRange, fun i hi _ => ?_⟩
  show T (fun k => R k ∧ b.Routes k i) (Function.update b.children pos c i)
  by_cases hip : i = pos
  · rw [hip, Function.update_self]
    exact hc
  · rw [Function.update_of_ne hip]
    exact h.child i hi (hD i hip)

/-! ## Splitting a child -/

/-- The child `pos` becomes two with the separator `s` between them. -/
def splitChild (b : Branch C K) (pos : Nat) (s : K) (l r : C) : Branch C K where
  numKeys := b.numKeys + 1
  keys := insertAt b.keys b.numKeys pos s
  children := insertAt (Function.update b.children pos l) (b.numKeys + 1) (pos + 1) r

theorem Sorted.splitChild (h : b.Sorted) (hs : b.Routes s pos)
    (hlow : 0 < pos → b.keys (pos - 1) < s) (l r : C) : (b.splitChild pos s l r).Sorted := by
  intro i j hij hj
  obtain ⟨hs1, -, hs3⟩ := hs
  have hj' : j ≤ b.numKeys := Nat.le_of_lt_succ hj
  show insertAt b.keys b.numKeys pos s i < insertAt b.keys b.numKeys pos s j
  rcases Nat.lt_trichotomy i pos with hi | rfl | hi
  · rw [insertAt_lt hi]
    rcases Nat.lt_trichotomy j pos with hjp | rfl | hjp
    · rw [insertAt_lt hjp]
      exact h i j hij (by omega)
    · rw [insertAt_self]
      exact lt_of_le_of_lt (h.le (Nat.le_sub_one_of_lt hi) (by omega)) (hlow (by omega))
    · rw [insertAt_gt hjp hj']
      exact h i (j - 1) (by omega) (by omega)
  · rw [insertAt_self, insertAt_gt hij hj']
    exact hs3 (j - 1) (by omega) (by omega)
  · rw [insertAt_gt hi (by omega), insertAt_gt (by omega) hj']
    exact h (i - 1) (j - 1) (by omega) (by omega)

/-- Where keys go after a child has been split. -/
theorem routes_splitChild (h : b.Sorted) (hs : b.Routes s pos)
    (hlow : 0 < pos → b.keys (pos - 1) < s) (l r : C) :
    (b.splitChild pos s l r).Routes k i ↔
      if i < pos then b.Routes k i
      else if i = pos then b.Routes k pos ∧ k < s
      else if i = pos + 1 then b.Routes k pos ∧ s ≤ k
      else b.Routes k (i - 1) := by
  obtain ⟨hs1, hs2, hs3⟩ := h.routes_iff.mp hs
  rw [(h.splitChild hs hlow l r).routes_iff]
  show i ≤ b.numKeys + 1 ∧ (i = 0 ∨ insertAt b.keys b.numKeys pos s (i - 1) ≤ k) ∧
    (i = b.numKeys + 1 ∨ k < insertAt b.keys b.numKeys pos s i) ↔ _
  split
  · next hi =>
      rw [insertAt_lt hi, insertAt_lt (by omega), h.routes_iff]
      constructor
      · rintro ⟨-, h2, h3⟩
        exact ⟨by omega, h2, .inr (h3.resolve_left (by omega))⟩
      · rintro ⟨-, h2, h3⟩
        exact ⟨by omega, h2, .inr (h3.resolve_left (by omega))⟩
  · split
    · next hi =>
        subst hi
        rw [insertAt_self, h.routes_iff]
        have hprev : i = 0 ∨ insertAt b.keys b.numKeys i s (i - 1) ≤ k ↔
            i = 0 ∨ b.keys (i - 1) ≤ k := by
          rcases Nat.eq_zero_or_pos i with h0 | h0
          · simp [h0]
          · rw [insertAt_lt (by omega)]
        rw [hprev]
        constructor
        · rintro ⟨-, h2, h3⟩
          have hk := h3.resolve_left (by omega)
          exact ⟨⟨hs1, h2, hs3.imp_right fun h => lt_trans hk h⟩, hk⟩
        · rintro ⟨⟨-, h2, -⟩, hk⟩
          exact ⟨by omega, h2, .inr hk⟩
    · split
      · next hi =>
          subst hi
          rw [Nat.add_sub_cancel, insertAt_self, h.routes_iff]
          have hnext : pos + 1 = b.numKeys + 1 ∨ k < insertAt b.keys b.numKeys pos s (pos + 1) ↔
              pos = b.numKeys ∨ k < b.keys pos := by
            rcases Nat.lt_or_eq_of_le hs1 with hlt | heq
            · rw [insertAt_gt (Nat.lt_succ_self pos) hlt]
              simp
            · simp [heq]
          rw [hnext]
          constructor
          · rintro ⟨-, h2, h3⟩
            have hk := h2.resolve_left (by omega)
            exact ⟨⟨hs1, hs2.imp_right fun h => le_trans h hk, h3⟩, hk⟩
          · rintro ⟨⟨-, -, h3⟩, hk⟩
            exact ⟨by omega, .inr hk, h3⟩
      · next hlt hne hne' =>
          rw [h.routes_iff]
          by_cases hi : i ≤ b.numKeys + 1
          · rw [insertAt_gt (by omega) (by omega)]
            have hnext : i = b.numKeys + 1 ∨ k < insertAt b.keys b.numKeys pos s i ↔
                i - 1 = b.numKeys ∨ k < b.keys (i - 1) := by
              rcases Nat.lt_or_eq_of_le hi with hlt' | heq
              · rw [insertAt_gt (by omega) (by omega)]
                have : i ≠ b.numKeys + 1 := by omega
                have : i - 1 ≠ b.numKeys := by omega
                simp [*]
              · have : i - 1 = b.numKeys := by omega
                simp [heq]
            rw [hnext]
            have h0 : i ≠ 0 := by omega
            have h1 : i - 1 ≠ 0 := by omega
            simp only [h0, h1, false_or]
            constructor
            · rintro ⟨-, h2, h3⟩
              exact ⟨by omega, h2, h3⟩
            · rintro ⟨-, h2, h3⟩
              exact ⟨hi, h2, h3⟩
          · constructor
            · rintro ⟨h1, -⟩
              exact absurd h1 hi
            · rintro ⟨h1, -⟩
              omega

theorem HoldsOn.splitChild (h : b.HoldsOn T R D) (hD : ∀ i, i ≠ pos → D i)
    (hs : R s ∧ b.Routes s pos) (hlow : ∃ k, (R k ∧ b.Routes k pos) ∧ k < s)
    (hl : T (fun k => (R k ∧ b.Routes k pos) ∧ k < s) l)
    (hr : T (fun k => (R k ∧ b.Routes k pos) ∧ s ≤ k) r) :
    (b.splitChild pos s l r).Holds T R := by
  obtain ⟨hsR, hroute⟩ := hs
  have hlow' : 0 < pos → b.keys (pos - 1) < s := by
    obtain ⟨k, ⟨-, hk⟩, hks⟩ := hlow
    exact fun hpos => lt_of_le_of_lt (hk.2.1 (pos - 1) (by omega)) hks
  have hle := hroute.1
  refine ⟨h.sorted.splitChild hroute hlow' l r, fun i hi => ?_, fun i hi _ => ?_⟩
  · show R (insertAt b.keys b.numKeys pos s i)
    have hi' : i ≤ b.numKeys := Nat.le_of_lt_succ hi
    rcases Nat.lt_trichotomy i pos with hlt | rfl | hgt
    · rw [insertAt_lt hlt]
      exact h.inRange i (by omega)
    · rw [insertAt_self]
      exact hsR
    · rw [insertAt_gt hgt hi']
      exact h.inRange (i - 1) (by omega)
  · have hi' : i ≤ b.numKeys + 1 := hi
    simp only [routes_splitChild h.sorted hroute hlow']
    show T _ (insertAt (Function.update b.children pos l) (b.numKeys + 1) (pos + 1) r i)
    split
    · next hlt =>
        rw [insertAt_lt (by omega), Function.update_of_ne (by omega)]
        exact h.child i (by omega) (hD i (by omega))
    · split
      · next heq =>
          rw [insertAt_lt (by omega), heq, Function.update_self]
          simp only [← and_assoc]
          exact hl
      · split
        · next heq =>
            rw [heq, insertAt_self]
            simp only [← and_assoc]
            exact hr
        · rw [insertAt_gt (by omega) hi', Function.update_of_ne (by omega)]
          exact h.child (i - 1) (by omega) (hD (i - 1) (by omega))

/-- A branch with one separator. -/
theorem holds_one (hnum : b.numKeys = 1) (hs : R (b.keys 0))
    (hl : T (fun k => R k ∧ k < b.keys 0) (b.children 0))
    (hr : T (fun k => R k ∧ b.keys 0 ≤ k) (b.children 1)) : b.Holds T R := by
  have hsorted : b.Sorted := fun i j hij hj => by omega
  refine ⟨hsorted, fun i hi => ?_, fun i hi _ => ?_⟩
  · obtain rfl : i = 0 := by omega
    exact hs
  · obtain rfl | rfl : i = 0 ∨ i = 1 := by omega
    · refine congr_range (fun k => and_congr_right fun _ => ?_) hl
      simp [hsorted.routes_iff, hnum]
    · refine congr_range (fun k => and_congr_right fun _ => ?_) hr
      simp [hsorted.routes_iff, hnum]

/-! ## Dividing a branch -/

/-- The part of `b` below its separator `m`. -/
def lower (b : Branch C K) (m : Nat) : Branch C K := { b with numKeys := m }

/-- `u` is the part of `b` above its separator `m`. -/
structure IsUpper (b : Branch C K) (m : Nat) (u : Branch C K) : Prop where
  numKeys : m + 1 + u.numKeys = b.numKeys
  keys : ∀ i, i < u.numKeys → u.keys i = b.keys (m + 1 + i)
  children : ∀ i, i ≤ u.numKeys → u.children i = b.children (m + 1 + i)

theorem Sorted.lower (h : b.Sorted) (hm : m < b.numKeys) : (b.lower m).Sorted :=
  fun i j hij hj => h i j hij (Nat.lt_trans hj hm)

theorem routes_lower (h : b.Sorted) (hm : m < b.numKeys) (hi : i ≤ m) :
    (b.lower m).Routes k i ∧ k < b.keys m ↔ b.Routes k i := by
  rw [(h.lower hm).routes_iff, h.routes_iff]
  show (i ≤ m ∧ (i = 0 ∨ b.keys (i - 1) ≤ k) ∧ (i = m ∨ k < b.keys i)) ∧ k < b.keys m ↔ _
  constructor
  · rintro ⟨⟨-, h2, h3⟩, hk⟩
    refine ⟨by omega, h2, .inr ?_⟩
    rcases h3 with rfl | h3
    · exact hk
    · exact h3
  · rintro ⟨-, h2, h3⟩
    have hk := h3.resolve_left (by omega)
    exact ⟨⟨hi, h2, .inr hk⟩, lt_of_lt_of_le hk (h.le hi hm)⟩

theorem range_lower (R : K → Prop) (h : b.Sorted) (hm : m < b.numKeys) (hi : i ≤ m) (k : K) :
    R k ∧ b.Routes k i ↔ (R k ∧ k < b.keys m) ∧ (b.lower m).Routes k i := by
  rw [← routes_lower h hm hi, and_comm (a := (b.lower m).Routes k i), and_assoc]

theorem HoldsOn.lower (h : b.HoldsOn T R D) (hm : m < b.numKeys) :
    (b.lower m).HoldsOn T (fun k => R k ∧ k < b.keys m) D := by
  refine ⟨h.sorted.lower hm, fun i hi => ?_, fun i hi hD => ?_⟩
  · exact ⟨h.inRange i (Nat.lt_trans hi hm), h.sorted i m hi hm⟩
  · have hi' : i ≤ m := hi
    exact congr_range (range_lower R h.sorted hm hi') (h.child i (by omega) hD)

variable {u : Branch C K}

theorem Sorted.upper (h : b.Sorted) (hu : b.IsUpper m u) : u.Sorted := by
  intro i j hij hj
  have := hu.numKeys
  rw [hu.keys i (by omega), hu.keys j hj]
  exact h _ _ (by omega) (by omega)

theorem routes_upper (h : b.Sorted) (hu : b.IsUpper m u) :
    u.Routes k i ∧ b.keys m ≤ k ↔ b.Routes k (m + 1 + i) := by
  have hnum := hu.numKeys
  rw [(h.upper hu).routes_iff, h.routes_iff]
  have hnext : i ≤ u.numKeys → ((i = u.numKeys ∨ k < u.keys i) ↔
      (m + 1 + i = b.numKeys ∨ k < b.keys (m + 1 + i))) := by
    intro hi
    rcases Nat.lt_or_eq_of_le hi with hlt | heq
    · have h1 : i ≠ u.numKeys := by omega
      have h2 : m + 1 + i ≠ b.numKeys := by omega
      rw [hu.keys i hlt]
      simp [h1, h2]
    · exact iff_of_true (.inl heq) (.inl (by omega))
  constructor
  · rintro ⟨⟨h1, h2, h3⟩, hk⟩
    refine ⟨by omega, .inr ?_, (hnext h1).mp h3⟩
    rcases Nat.eq_zero_or_pos i with rfl | h0
    · exact hk
    · have := h2.resolve_left (by omega)
      rw [hu.keys (i - 1) (by omega)] at this
      rwa [show m + 1 + i - 1 = m + 1 + (i - 1) by omega]
  · rintro ⟨h1, h2, h3⟩
    have hi : i ≤ u.numKeys := by omega
    have hprev := h2.resolve_left (by omega)
    refine ⟨⟨hi, ?_, (hnext hi).mpr h3⟩, le_trans (h.le (by omega) (by omega)) hprev⟩
    rcases Nat.eq_zero_or_pos i with h0 | h0
    · exact .inl h0
    · right
      rw [hu.keys (i - 1) (by omega), show m + 1 + (i - 1) = m + 1 + i - 1 by omega]
      exact hprev

theorem range_upper (R : K → Prop) (h : b.Sorted) (hu : b.IsUpper m u) (k : K) :
    R k ∧ b.Routes k (m + 1 + i) ↔ (R k ∧ b.keys m ≤ k) ∧ u.Routes k i := by
  rw [← routes_upper h hu, and_comm (a := u.Routes k i), and_assoc]

theorem HoldsOn.upper (h : b.HoldsOn T R D) (hu : b.IsUpper m u) :
    u.HoldsOn T (fun k => R k ∧ b.keys m ≤ k) fun i => D (m + 1 + i) := by
  have hnum := hu.numKeys
  refine ⟨h.sorted.upper hu, fun i hi => ?_, fun i hi hD => ?_⟩
  · rw [hu.keys i hi]
    exact ⟨h.inRange _ (by omega), h.sorted.le (by omega) (by omega)⟩
  · rw [hu.children i hi]
    exact congr_range (range_upper R h.sorted hu) (h.child (m + 1 + i) (by omega) hD)

/-! ## The children in order -/

def kids (b : Branch C K) : List C := (List.range (b.numKeys + 1)).map b.children

omit [LinearOrder K] in
theorem getElem?_kids (i : Nat) :
    b.kids[i]? = if i ≤ b.numKeys then some (b.children i) else none := by
  rw [kids, List.getElem?_map]
  split
  · rw [List.getElem?_range (by omega)]
    rfl
  · rw [List.getElem?_eq_none (by simp; omega)]
    rfl

omit [LinearOrder K] in
theorem kids_setChild (i : Nat) (c : C) : (b.setChild i c).kids = b.kids.set i c := by
  refine List.ext_getElem? fun j => ?_
  rw [List.getElem?_set, getElem?_kids, getElem?_kids]
  show (if j ≤ b.numKeys then some (Function.update b.children i c j) else none) = _
  by_cases hij : i = j
  · subst hij
    have hlen : b.kids.length = b.numKeys + 1 := by simp [kids]
    simp only [Function.update_self, if_true, hlen, Nat.lt_succ_iff]
  · simp [hij, Function.update_of_ne (Ne.symm hij)]

omit [LinearOrder K] in
theorem kids_splitChild (hpos : pos ≤ b.numKeys) (s : K) (l r : C) :
    (b.splitChild pos s l r).kids = b.kids.take pos ++ l :: r :: b.kids.drop (pos + 1) := by
  have hlen : (b.kids.take pos).length = pos := by
    simp [kids]
    omega
  refine List.ext_getElem? fun j => ?_
  rw [getElem?_kids]
  show (if j ≤ b.numKeys + 1 then
    some (insertAt (Function.update b.children pos l) (b.numKeys + 1) (pos + 1) r j) else none) = _
  rcases Nat.lt_trichotomy j pos with hlt | rfl | hgt
  · rw [List.getElem?_append_left (by omega), List.getElem?_take_of_lt hlt, getElem?_kids,
      if_pos (by omega), if_pos (by omega), insertAt_lt (by omega),
      Function.update_of_ne (by omega)]
  · rw [List.getElem?_append_right (by omega), hlen, Nat.sub_self, if_pos (by omega),
      insertAt_lt (by omega), Function.update_self]
    rfl
  · rw [List.getElem?_append_right (by omega), hlen]
    obtain ⟨m, rfl⟩ : ∃ m, j = pos + 1 + m := ⟨j - (pos + 1), by omega⟩
    rw [show pos + 1 + m - pos = m + 1 by omega, List.getElem?_cons_succ]
    cases m with
    | zero =>
        rw [if_pos (by omega), insertAt_self]
        rfl
    | succ m =>
        rw [List.getElem?_cons_succ, List.getElem?_drop, getElem?_kids]
        by_cases hle : pos + 1 + (m + 1) ≤ b.numKeys + 1
        · rw [if_pos hle, if_pos (by omega), insertAt_gt (by omega) hle,
            Function.update_of_ne (by omega)]
          rfl
        · rw [if_neg hle, if_neg (by omega)]

omit [LinearOrder K] in
theorem kids_lower (hm : m ≤ b.numKeys) : (b.lower m).kids = b.kids.take (m + 1) := by
  rw [kids, kids, ← List.map_take, List.take_range, Nat.min_eq_left (by omega)]
  rfl

omit [LinearOrder K] in
theorem kids_upper (hu : b.IsUpper m u) : u.kids = b.kids.drop (m + 1) := by
  have hnum := hu.numKeys
  refine List.ext_getElem? fun j => ?_
  rw [List.getElem?_drop, getElem?_kids, getElem?_kids]
  by_cases hj : j ≤ u.numKeys
  · rw [if_pos hj, if_pos (by omega), hu.children j hj]
  · rw [if_neg hj, if_neg (by omega)]

end Branch

/-! ## Trees -/

/-- A pointer to a node: leaves are in a heap, branches are values. -/
inductive Node (K : Type) where
  | null
  | leaf (p : Nat)
  | branch (b : Branch (Node K) K)

/-- A tree with its leaves at depth `d`: what `P` says holds of each leaf and
its part of `R`, and what `size` says of the number of keys of each
branch. -/
def Tree [LinearOrder K] (P : (K → Prop) → Nat → Prop) (size : Nat → Prop) :
    Nat → (K → Prop) → Node K → Prop
  | 0, R, .leaf p => P R p
  | d + 1, R, .branch b => size b.numKeys ∧ b.Holds (Tree P size d) R
  | _, _, _ => False

theorem Tree.mono [LinearOrder K] {P P' : (K → Prop) → Nat → Prop} {size size' : Nat → Prop}
    {d : Nat} : ∀ {R : K → Prop} {n : Node K}, (∀ R' p, (∀ k, R' k → R k) → P R' p → P' R' p) →
      (∀ num, size num → size' num) → Tree P size d R n → Tree P' size' d R n := by
  induction d with
  | zero =>
      intro R n hP _ h
      cases n with
      | leaf p => exact hP R p (fun _ hk => hk) h
      | null => exact h
      | branch b => exact h
  | succ d ih =>
      intro R n hP hsize h
      cases n with
      | leaf p => exact h
      | null => exact h
      | branch b =>
          refine ⟨hsize _ h.1, h.2.mono fun R' c hsub hc => ih (fun R'' p hsub' => ?_) hsize hc⟩
          exact hP R'' p fun k hk => hsub k (hsub' k hk)

/-- The leaves of a tree in order. -/
def leavesOf : Nat → Node K → List Nat
  | 0, .leaf p => [p]
  | d + 1, .branch b => b.kids.flatMap (leavesOf d)
  | _, _ => []

end BTree
