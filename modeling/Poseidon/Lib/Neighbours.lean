import Poseidon.Lib.ArrayMoves
import Poseidon.Lib.Rows

/-!
# Neighbours in a search tree

Two children of a branch that are next to each other can become one, or get
another separator between them. Either way the two are put together first:
`Branch.join` and `Rows.join` hold what the two of them held, and after that
it does not matter where they are divided again.

That the separators stay in order needs a key between any two of them, so no
child may be empty.
-/

namespace BTree

section

variable {α : Type} {a : Nat → α} {num pos i : Nat}

theorem removeAt_of_lt (h : i < pos) : removeAt a num pos i = a i := if_neg (by omega)

theorem removeAt_of_le (h : pos ≤ i) (hi : i + 1 < num) : removeAt a num pos i = a (i + 1) :=
  if_pos ⟨h, hi⟩

theorem removeAt_update (a : Nat → α) (num pos : Nat) (x : α) :
    removeAt (Function.update a pos x) num (pos + 1) =
      Function.update (removeAt a num (pos + 1)) pos x := by
  funext i
  by_cases hi : i = pos
  · rw [hi, Function.update_self, removeAt_of_lt (by omega), Function.update_self]
  · rw [Function.update_of_ne hi, removeAt, removeAt, Function.update_of_ne hi]
    split
    · rw [Function.update_of_ne (by omega)]
    · rfl

end

namespace Branch

variable {C K : Type} [LinearOrder K] {b b' l r u : Branch C K} {T : (K → Prop) → C → Prop}
  {R : K → Prop} {D D' : Nat → Prop} {k s : K} {i m pos : Nat}

/-! ## The same branch -/

/-- `b` and `b'` differ at most behind their keys and children. -/
structure Same (b b' : Branch C K) : Prop where
  numKeys : b'.numKeys = b.numKeys
  keys : ∀ i, i < b.numKeys → b'.keys i = b.keys i
  children : ∀ i, i ≤ b.numKeys → b'.children i = b.children i

theorem Same.routes_iff (h : b.Same b') : b'.Routes k i ↔ b.Routes k i := by
  rw [Routes, Routes, h.numKeys]
  refine and_congr_right fun hi => and_congr (forall_congr' fun j => ?_) (forall_congr' fun j => ?_)
  · exact imp_congr_right fun hj => by rw [h.keys j (by omega)]
  · exact imp_congr_right fun _ => imp_congr_right fun hj => by rw [h.keys j hj]

theorem HoldsOn.same (hb : b.HoldsOn T R D) (h : b.Same b') : b'.HoldsOn T R D := by
  refine ⟨fun i j hij hj => ?_, fun i hi => ?_, fun i hi hD => ?_⟩
  · rw [h.numKeys] at hj
    rw [h.keys i (by omega), h.keys j hj]
    exact hb.sorted i j hij hj
  · rw [h.numKeys] at hi
    rw [h.keys i hi]
    exact hb.inRange i hi
  · rw [h.numKeys] at hi
    rw [h.children i hi]
    exact congr_range (fun k => and_congr_right fun _ => h.routes_iff.symm) (hb.child i hi hD)

/-! ## Two children -/

/-- `k` goes to the child `pos` or to the next one. -/
def Near (b : Branch C K) (pos : Nat) (k : K) : Prop := b.Routes k pos ∨ b.Routes k (pos + 1)

theorem near_lt_iff (hpos : pos < b.numKeys) :
    b.Near pos k ∧ k < b.keys pos ↔ b.Routes k pos := by
  constructor
  · rintro ⟨hk | hk, hlt⟩
    · exact hk
    · exact absurd hlt (not_lt.mpr (hk.2.1 pos (Nat.lt_succ_self pos)))
  · exact fun hk => ⟨.inl hk, hk.2.2 pos (Nat.le_refl pos) hpos⟩

theorem near_ge_iff (hpos : pos < b.numKeys) :
    b.Near pos k ∧ b.keys pos ≤ k ↔ b.Routes k (pos + 1) := by
  constructor
  · rintro ⟨hk | hk, hle⟩
    · exact absurd (hk.2.2 pos (Nat.le_refl pos) hpos) (not_lt.mpr hle)
    · exact hk
  · exact fun hk => ⟨.inr hk, hk.2.1 pos (Nat.lt_succ_self pos)⟩

theorem near_keys (h : b.Sorted) (hpos : pos < b.numKeys) : b.Near pos (b.keys pos) := by
  refine .inr (h.routes_iff.mpr ⟨hpos, .inr (by simp), ?_⟩)
  rcases Nat.lt_or_eq_of_le (Nat.succ_le_of_lt hpos) with hlt | heq
  · exact .inr (h pos (pos + 1) (Nat.lt_succ_self pos) hlt)
  · exact .inl heq

/-- What changes for the keys that go to these children does not matter for the
others. -/
theorem HoldsOn.offNear {T' : (K → Prop) → C → Prop} (h : b.HoldsOn T R D)
    (hT : ∀ R' c, (∀ k, R' k → ¬(R k ∧ b.Near pos k)) → T R' c → T' R' c) :
    b.HoldsOn T' R fun i => D i ∧ i ≠ pos ∧ i ≠ pos + 1 := by
  refine ⟨h.sorted, h.inRange, fun i hi hD => hT _ _ (fun k hk hnear => ?_) (h.child i hi hD.1)⟩
  rcases hnear.2 with hp | hp
  · exact hD.2.1 (hk.2.unique hp)
  · exact hD.2.2 (hk.2.unique hp)

/-- The children `pos` and `pos + 1` become one. -/
def joinChild (b : Branch C K) (pos : Nat) (c : C) : Branch C K where
  numKeys := b.numKeys - 1
  keys := removeAt b.keys b.numKeys pos
  children := Function.update (removeAt b.children (b.numKeys + 1) (pos + 1)) pos c

theorem Sorted.joinChild (h : b.Sorted) (pos : Nat) (c : C) : (b.joinChild pos c).Sorted := by
  intro i j hij hj
  have hj' : j + 1 < b.numKeys := Nat.add_lt_of_lt_sub hj
  show removeAt b.keys b.numKeys pos i < removeAt b.keys b.numKeys pos j
  rcases Nat.lt_or_ge j pos with hjp | hjp
  · rw [removeAt_of_lt hjp, removeAt_of_lt (by omega)]
    exact h i j hij (by omega)
  · rw [removeAt_of_le hjp hj']
    rcases Nat.lt_or_ge i pos with hip | hip
    · rw [removeAt_of_lt hip]
      exact h i (j + 1) (by omega) hj'
    · rw [removeAt_of_le hip (by omega)]
      exact h (i + 1) (j + 1) (by omega) hj'

/-- Where keys go after two children have become one. -/
theorem routes_joinChild (h : b.Sorted) (hpos : pos < b.numKeys) (c : C) :
    (b.joinChild pos c).Routes k i ↔
      if i < pos then b.Routes k i else if i = pos then b.Near pos k else b.Routes k (i + 1) := by
  rw [(h.joinChild pos c).routes_iff]
  show i ≤ b.numKeys - 1 ∧ (i = 0 ∨ removeAt b.keys b.numKeys pos (i - 1) ≤ k) ∧
    (i = b.numKeys - 1 ∨ k < removeAt b.keys b.numKeys pos i) ↔ _
  rcases Nat.lt_trichotomy i pos with hi | rfl | hi
  · rw [if_pos hi, removeAt_of_lt (by omega), removeAt_of_lt hi, h.routes_iff]
    constructor
    · rintro ⟨-, h2, h3⟩
      exact ⟨by omega, h2, .inr (h3.resolve_left (by omega))⟩
    · rintro ⟨-, h2, h3⟩
      exact ⟨by omega, h2, .inr (h3.resolve_left (by omega))⟩
  · have hprev : i = 0 ∨ removeAt b.keys b.numKeys i (i - 1) ≤ k ↔ i = 0 ∨ b.keys (i - 1) ≤ k := by
      rcases Nat.eq_zero_or_pos i with h0 | h0
      · simp [h0]
      · rw [removeAt_of_lt (by omega)]
    have hnext : i = b.numKeys - 1 ∨ k < removeAt b.keys b.numKeys i i ↔
        i + 1 = b.numKeys ∨ k < b.keys (i + 1) := by
      rcases Nat.lt_or_eq_of_le (Nat.succ_le_of_lt hpos) with hlt | heq
      · rw [removeAt_of_le (Nat.le_refl i) hlt]
        exact or_congr_left (by omega)
      · exact iff_of_true (.inl (by omega)) (.inl heq)
    rw [if_neg (Nat.lt_irrefl i), if_pos rfl, hprev, hnext, Near, h.routes_iff, h.routes_iff,
      Nat.add_sub_cancel]
    constructor
    · rintro ⟨-, h2, h3⟩
      rcases lt_or_ge k (b.keys i) with hlt | hge
      · exact .inl ⟨by omega, h2, .inr hlt⟩
      · exact .inr ⟨by omega, .inr hge, h3⟩
    · rintro (⟨-, h2, h3⟩ | ⟨-, h2, h3⟩)
      · have hk := h3.resolve_left (by omega)
        refine ⟨by omega, h2, ?_⟩
        rcases Nat.lt_or_eq_of_le (Nat.succ_le_of_lt hpos) with hlt | heq
        · exact .inr (lt_trans hk (h i (i + 1) (Nat.lt_succ_self i) hlt))
        · exact .inl heq
      · have hk := h2.resolve_left (by omega)
        refine ⟨by omega, ?_, h3⟩
        rcases Nat.eq_zero_or_pos i with h0 | h0
        · exact .inl h0
        · exact .inr (le_trans (h.le (Nat.sub_le i 1) hpos) hk)
  · rw [if_neg (by omega), if_neg (by omega), h.routes_iff, Nat.add_sub_cancel]
    by_cases hle : i + 1 ≤ b.numKeys
    · rw [removeAt_of_le (by omega) (by omega), Nat.sub_add_cancel (by omega)]
      have hnext : i = b.numKeys - 1 ∨ k < removeAt b.keys b.numKeys pos i ↔
          i + 1 = b.numKeys ∨ k < b.keys (i + 1) := by
        rcases Nat.lt_or_eq_of_le hle with hlt | heq
        · rw [removeAt_of_le (by omega) hlt]
          exact or_congr_left (by omega)
        · exact iff_of_true (.inl (by omega)) (.inl heq)
      rw [hnext]
      constructor
      · rintro ⟨-, h2, h3⟩
        exact ⟨hle, .inr (h2.resolve_left (by omega)), h3⟩
      · rintro ⟨-, h2, h3⟩
        exact ⟨by omega, .inr (h2.resolve_left (by omega)), h3⟩
    · exact iff_of_false (fun hx => hle (by omega)) fun hx => hle hx.1

theorem HoldsOn.joinChild (h : b.HoldsOn T R D) (hD : ∀ i, i ≠ pos → i ≠ pos + 1 → D i)
    (hpos : pos < b.numKeys) {c : C} (hc : D' pos → T (fun k => R k ∧ b.Near pos k) c) :
    (b.joinChild pos c).HoldsOn T R D' := by
  refine ⟨h.sorted.joinChild pos c, fun i hi => ?_, fun i hi hD' => ?_⟩
  · have hi' : i + 1 < b.numKeys := Nat.add_lt_of_lt_sub hi
    show R (removeAt b.keys b.numKeys pos i)
    rcases Nat.lt_or_ge i pos with hlt | hge
    · rw [removeAt_of_lt hlt]
      exact h.inRange i (by omega)
    · rw [removeAt_of_le hge hi']
      exact h.inRange (i + 1) hi'
  · have hi' : i ≤ b.numKeys - 1 := hi
    simp only [routes_joinChild h.sorted hpos]
    show T _ (Function.update (removeAt b.children (b.numKeys + 1) (pos + 1)) pos c i)
    rcases Nat.lt_trichotomy i pos with hlt | rfl | hgt
    · simp only [if_pos hlt]
      rw [Function.update_of_ne (by omega), removeAt_of_lt (by omega)]
      exact h.child i (by omega) (hD i (by omega) (by omega))
    · simp only [Nat.lt_irrefl, if_false, if_true]
      rw [Function.update_self]
      exact hc hD'
    · simp only [if_neg (Nat.not_lt.mpr (Nat.le_of_lt hgt)), if_neg (Nat.ne_of_gt hgt)]
      rw [Function.update_of_ne (by omega), removeAt_of_le (by omega) (by omega)]
      exact h.child (i + 1) (by omega) (hD (i + 1) (by omega) (by omega))

/-- The children `pos` and `pos + 1` get another separator. -/
def moveKey (b : Branch C K) (pos : Nat) (s : K) (l r : C) : Branch C K :=
  { b with
    keys := Function.update b.keys pos s
    children := Function.update (Function.update b.children pos l) (pos + 1) r }

omit [LinearOrder K] in
/-- Moving the separator is joining the two children and splitting them again. -/
theorem moveKey_eq (hpos : pos < b.numKeys) (c l r : C) :
    b.moveKey pos s l r = (b.joinChild pos c).splitChild pos s l r := by
  have hnum : b.numKeys = b.numKeys - 1 + 1 := by omega
  rw [moveKey, Branch.splitChild, Branch.mk.injEq]
  refine ⟨hnum, funext fun i => ?_, funext fun i => ?_⟩
  · show _ = insertAt (removeAt b.keys b.numKeys pos) (b.numKeys - 1) pos s i
    rw [Function.update_apply, insertAt]
    split
    · rfl
    · split
      · rw [removeAt_of_le (by omega) (by omega), Nat.sub_add_cancel (by omega)]
      · rw [removeAt, if_neg (by omega)]
  · show _ = insertAt (Function.update (Function.update
      (removeAt b.children (b.numKeys + 1) (pos + 1)) pos c) pos l) (b.numKeys - 1 + 1)
      (pos + 1) r i
    rw [Function.update_idem, insertAt, ← hnum]
    by_cases h1 : i = pos + 1
    · rw [if_pos h1, h1, Function.update_self]
    · rw [if_neg h1, Function.update_of_ne h1]
      split
      · rw [Function.update_of_ne (by omega), Function.update_of_ne (by omega),
          removeAt_of_le (by omega) (by omega), Nat.sub_add_cancel (by omega)]
      · by_cases h2 : i = pos
        · rw [h2, Function.update_self, Function.update_self]
        · rw [Function.update_of_ne h2, Function.update_of_ne h2, removeAt, if_neg (by omega)]

theorem HoldsOn.moveKey (h : b.HoldsOn T R D) (hD : ∀ i, i ≠ pos → i ≠ pos + 1 → D i)
    (hpos : pos < b.numKeys) {l r : C} (hs : R s ∧ b.Near pos s)
    (hlow : ∃ k, (R k ∧ b.Near pos k) ∧ k < s) (hl : T (fun k => (R k ∧ b.Near pos k) ∧ k < s) l)
    (hr : T (fun k => (R k ∧ b.Near pos k) ∧ s ≤ k) r) : (b.moveKey pos s l r).Holds T R := by
  have hroute : ∀ k, (b.joinChild pos l).Routes k pos ↔ b.Near pos k := by
    intro k
    rw [routes_joinChild h.sorted hpos, if_neg (Nat.lt_irrefl pos), if_pos rfl]
  rw [moveKey_eq hpos l]
  have hjoin : (b.joinChild pos l).HoldsOn T R (· ≠ pos) := h.joinChild hD hpos (absurd rfl ·)
  refine hjoin.splitChild (fun _ hi => hi) ⟨hs.1, (hroute s).mpr hs.2⟩ ?_ ?_ ?_
  · simpa only [hroute] using hlow
  · simpa only [hroute] using hl
  · simpa only [hroute] using hr

/-! ## Two branches -/

/-- A branch that is as it should be below the separator `m` and above it. -/
theorem holds_of_parts (hT : ∀ R' c, T R' c → ∃ k, R' k) (hm : m < b.numKeys) (hs : R (b.keys m))
    (hl : (b.lower m).Holds T fun k => R k ∧ k < b.keys m) (hu : b.IsUpper m u)
    (hr : u.Holds T fun k => R k ∧ b.keys m ≤ k) : b.Holds T R := by
  have hnum := hu.numKeys
  have hbelow : ∀ i, i < m → b.keys i < b.keys m := fun i hi => (hl.inRange i hi).2
  have hfirst : 0 < u.numKeys → b.keys m < b.keys (m + 1) := by
    intro h0
    obtain ⟨k, ⟨-, hk⟩, hroute⟩ := hT _ _ (hr.child 0 (Nat.zero_le _) trivial)
    have hlt := hroute.2.2 0 (Nat.le_refl 0) h0
    rw [hu.keys 0 h0] at hlt
    exact lt_of_le_of_lt hk hlt
  have habove : ∀ j, m < j → j < b.numKeys → b.keys m < b.keys j := by
    intro j hj hlt
    obtain ⟨x, rfl⟩ : ∃ x, j = m + 1 + x := ⟨j - (m + 1), by omega⟩
    rw [← hu.keys x (by omega)]
    refine lt_of_lt_of_le (hfirst (by omega)) ?_
    rw [← Nat.add_zero (m + 1), ← hu.keys 0 (by omega)]
    exact hr.sorted.le (Nat.zero_le x) (by omega)
  have hsorted : b.Sorted := by
    intro i j hij hj
    rcases Nat.lt_trichotomy j m with hjm | rfl | hjm
    · exact hl.sorted i j hij hjm
    · exact hbelow i hij
    · rcases Nat.lt_trichotomy i m with him | rfl | him
      · exact lt_trans (hbelow i him) (habove j hjm hj)
      · exact habove j hjm hj
      · obtain ⟨x, rfl⟩ : ∃ x, i = m + 1 + x := ⟨i - (m + 1), by omega⟩
        obtain ⟨y, rfl⟩ : ∃ y, j = m + 1 + y := ⟨j - (m + 1), by omega⟩
        rw [← hu.keys x (by omega), ← hu.keys y (by omega)]
        exact hr.sorted x y (by omega) (by omega)
  refine ⟨hsorted, fun i hi => ?_, fun i hi _ => ?_⟩
  · rcases Nat.lt_trichotomy i m with him | rfl | him
    · exact (hl.inRange i him).1
    · exact hs
    · obtain ⟨x, rfl⟩ : ∃ x, i = m + 1 + x := ⟨i - (m + 1), by omega⟩
      rw [← hu.keys x (by omega)]
      exact (hr.inRange x (by omega)).1
  · rcases Nat.lt_or_ge m i with him | him
    · obtain ⟨x, rfl⟩ : ∃ x, i = m + 1 + x := ⟨i - (m + 1), by omega⟩
      rw [← hu.children x (by omega)]
      exact congr_range (fun k => (range_upper R hsorted hu k).symm)
        (hr.child x (by omega) trivial)
    · exact congr_range (fun k => (range_lower R hsorted hm him k).symm) (hl.child i him trivial)

/-- `l` and `r` with the separator `s` between them. -/
def join (l : Branch C K) (s : K) (r : Branch C K) : Branch C K where
  numKeys := l.numKeys + (r.numKeys + 1)
  keys := blit (Function.update l.keys l.numKeys s) (l.numKeys + 1) r.keys 0 r.numKeys
  children := blit l.children (l.numKeys + 1) r.children 0 (r.numKeys + 1)

omit [LinearOrder K] in
theorem join_keys_lt (h : i < l.numKeys) : (join l s r).keys i = l.keys i :=
  (blit_of_lt (by omega)).trans (Function.update_of_ne (by omega) _ _)

omit [LinearOrder K] in
theorem join_keys_self : (join l s r).keys l.numKeys = s :=
  (blit_of_lt (by omega)).trans (Function.update_self ..)

omit [LinearOrder K] in
theorem join_keys_gt (h : i < r.numKeys) : (join l s r).keys (l.numKeys + 1 + i) = r.keys i :=
  (blit_of_mem h).trans (by rw [Nat.zero_add])

omit [LinearOrder K] in
theorem join_children_le (h : i ≤ l.numKeys) : (join l s r).children i = l.children i :=
  blit_of_lt (by omega)

omit [LinearOrder K] in
theorem join_children_gt (h : i ≤ r.numKeys) :
    (join l s r).children (l.numKeys + 1 + i) = r.children i :=
  (blit_of_mem (by omega)).trans (by rw [Nat.zero_add])

theorem holds_join (hT : ∀ R' c, T R' c → ∃ k, R' k) (hs : R s)
    (hl : l.Holds T fun k => R k ∧ k < s) (hr : r.Holds T fun k => R k ∧ s ≤ k) :
    (join l s r).Holds T R := by
  have hm : l.numKeys < (join l s r).numKeys := by
    show l.numKeys < l.numKeys + (r.numKeys + 1)
    omega
  have hu : (join l s r).IsUpper l.numKeys r := by
    refine ⟨?_, fun i hi => (join_keys_gt hi).symm, fun i hi => (join_children_gt hi).symm⟩
    show l.numKeys + 1 + r.numKeys = l.numKeys + (r.numKeys + 1)
    omega
  refine holds_of_parts hT hm (by rwa [join_keys_self]) ?_ hu ?_
  · rw [join_keys_self]
    exact hl.same ⟨rfl, fun _ hi => join_keys_lt hi, fun _ hi => join_children_le (s := s) hi⟩
  · rw [join_keys_self]
    exact hr

end Branch

namespace Rows

variable {K V : Type} [LinearOrder K] {l r u : Rows K V} {f : K → Option V} {R : K → Prop}
  {k s : K} {v : V} {m : Nat}

/-- The entries are those of the map `f` with keys in `R`. -/
structure Holds (f : K → Option V) (R : K → Prop) (r : Rows K V) : Prop where
  sorted : r.Sorted
  inRange : ∀ i, i < r.num → R (r.keys i)
  reads : ∀ k v, R k → (f k = some v ↔ r.Has k v)

theorem Holds.congr {f' : K → Option V} {R' : K → Prop} (h : r.Holds f R) (hR : ∀ k, R' k ↔ R k)
    (hf : ∀ k, R k → f' k = f k) : r.Holds f' R' :=
  ⟨h.sorted, fun i hi => (hR _).mpr (h.inRange i hi), fun k v hk => by
    rw [hf k ((hR k).mp hk)]
    exact h.reads k v ((hR k).mp hk)⟩

def join (l r : Rows K V) : Rows K V where
  num := l.num + r.num
  keys := blit l.keys l.num r.keys 0 r.num
  values := blit l.values l.num r.values 0 r.num

omit [LinearOrder K] in
/-- An entry of two rows that are put together is in one of them. -/
theorem join_at (l r : Rows K V) (i : Nat) (hi : i < (l.join r).num) :
    (i < l.num ∧ (l.join r).keys i = l.keys i ∧ (l.join r).values i = l.values i) ∨
      ∃ j, i = l.num + j ∧ j < r.num ∧ (l.join r).keys i = r.keys j ∧
        (l.join r).values i = r.values j := by
  have hi' : i < l.num + r.num := hi
  rcases Nat.lt_or_ge i l.num with hlt | hge
  · exact .inl ⟨hlt, blit_of_lt hlt, blit_of_lt hlt⟩
  · obtain ⟨j, rfl⟩ : ∃ j, i = l.num + j := ⟨i - l.num, by omega⟩
    have hj : j < r.num := by omega
    exact .inr ⟨j, rfl, hj, (blit_of_mem hj).trans (by rw [Nat.zero_add]),
      (blit_of_mem hj).trans (by rw [Nat.zero_add])⟩

omit [LinearOrder K] in
theorem has_join : (l.join r).Has k v ↔ l.Has k v ∨ r.Has k v := by
  constructor
  · rintro ⟨i, hi, rfl, rfl⟩
    rcases join_at l r i hi with ⟨hlt, hk, hv⟩ | ⟨j, -, hj, hk, hv⟩
    · exact .inl ⟨i, hlt, hk.symm, hv.symm⟩
    · exact .inr ⟨j, hj, hk.symm, hv.symm⟩
  · rintro (⟨i, hi, rfl, rfl⟩ | ⟨j, hj, rfl, rfl⟩)
    · exact ⟨i, Nat.lt_add_right _ hi, blit_of_lt hi, blit_of_lt hi⟩
    · exact ⟨l.num + j, Nat.add_lt_add_left hj _, (blit_of_mem hj).trans (by rw [Nat.zero_add]),
        (blit_of_mem hj).trans (by rw [Nat.zero_add])⟩

/-- Rows below `s` and rows from `s` on. -/
theorem Holds.join (hl : l.Holds f fun k => R k ∧ k < s) (hr : r.Holds f fun k => R k ∧ s ≤ k) :
    (l.join r).Holds f R := by
  refine ⟨fun i j hij hj => ?_, fun i hi => ?_, fun k v hk => ?_⟩
  · rcases join_at l r i (Nat.lt_trans hij hj) with ⟨hil, hki, -⟩ | ⟨i', rfl, hi', hki, -⟩
    · rcases join_at l r j hj with ⟨hjl, hkj, -⟩ | ⟨j', rfl, hj', hkj, -⟩
      · rw [hki, hkj]
        exact hl.sorted i j hij hjl
      · rw [hki, hkj]
        exact lt_of_lt_of_le (hl.inRange i hil).2 (hr.inRange j' hj').2
    · rcases join_at l r j hj with ⟨hjl, -⟩ | ⟨j', rfl, hj', hkj, -⟩
      · omega
      · rw [hki, hkj]
        exact hr.sorted i' j' (by omega) hj'
  · rcases join_at l r i hi with ⟨hlt, hk, -⟩ | ⟨j, -, hj, hk, -⟩
    · rw [hk]
      exact (hl.inRange i hlt).1
    · rw [hk]
      exact (hr.inRange j hj).1
  · rw [has_join]
    rcases lt_or_ge k s with hlt | hge
    · rw [hl.reads k v ⟨hk, hlt⟩]
      refine ⟨.inl, fun h => h.resolve_right ?_⟩
      rintro ⟨j, hj, rfl, -⟩
      exact absurd hlt (not_lt.mpr (hr.inRange j hj).2)
    · rw [hr.reads k v ⟨hk, hge⟩]
      refine ⟨.inr, fun h => h.resolve_left ?_⟩
      rintro ⟨i, hi, rfl, -⟩
      exact absurd (hl.inRange i hi).2 (not_lt.mpr hge)

/-- The first key that goes to the right part divides the keys. -/
theorem Holds.divides (h : r.Holds f R) (hm : m < r.num) :
    ∀ i, i < r.num → (r.keys i < r.keys m ↔ i < m) := by
  intro i hi
  constructor
  · intro hlt
    by_contra hge
    exact absurd (h.sorted.le (Nat.not_lt.mp hge) hi) (not_le_of_gt hlt)
  · exact fun hlt => h.sorted i m hlt hm

theorem Holds.front (h : r.Holds f R) (hu : r.Slice 0 u) (hm : u.num < r.num) :
    u.Holds f fun k => R k ∧ k < r.keys u.num := by
  refine ⟨hu.sorted h.sorted, fun i hi => ?_, fun k v hk => ?_⟩
  · rw [hu.keys i hi, Nat.zero_add]
    exact ⟨h.inRange i (by omega), h.sorted i _ hi hm⟩
  · rw [h.reads k v hk.1, hu.has_front (h.divides hm)]
    exact (and_iff_left hk.2).symm

theorem Holds.back (h : r.Holds f R) (hu : r.Slice m u) (hnum : m + u.num = r.num)
    (hm : m < r.num) : u.Holds f fun k => R k ∧ r.keys m ≤ k := by
  refine ⟨hu.sorted h.sorted, fun i hi => ?_, fun k v hk => ?_⟩
  · rw [hu.keys i hi]
    exact ⟨h.inRange _ (by omega), h.sorted.le (Nat.le_add_right m i) (by omega)⟩
  · rw [h.reads k v hk.1, hu.has_back hnum (h.divides hm)]
    exact (and_iff_left hk.2).symm

end Rows

end BTree
