import Mathlib.Data.String.Basic
import Poseidon.Query.Expr

/-!
# The order of query values

`qv_equal`, `less_than` and `greater_than` compare an `int` with a `uint64` by
casting the `int`. A negative one becomes a number above all `int`s, so it is
only compared as an integer when the other value is larger still.
-/

namespace Poseidon

/-- The three functions say that the values are in this order, and in no
other. -/
structure ComparedAs (o : Ordering) (a b : QueryResult) : Prop where
  lt : lessThan a b = decide (o = .lt)
  eq : qvEqual a b = decide (o = .eq)
  gt : greaterThan a b = decide (o = .gt)

/-- The integer that a value of integer type is. -/
def QueryResult.integer : QueryResult → Option Int
  | .int i => some i.toInt
  | .uint64 n => some n.toNat
  | _ => none

/-- The three functions are transitive on the values. -/
structure TransitiveOn (P : QueryResult → Prop) : Prop where
  lt : ∀ a b c, P a → P b → P c → lessThan a b = true → lessThan b c = true → lessThan a c = true
  eq : ∀ a b c, P a → P b → P c → qvEqual a b = true → qvEqual b c = true → qvEqual a c = true
  gt : ∀ a b c, P a → P b → P c → greaterThan a b = true → greaterThan b c = true →
    greaterThan a c = true

/-- The values are compared like the elements of a linear order that they stand
for. -/
structure ComparedLike {ι : Type} [LinearOrder ι] (value : QueryResult → Option ι)
    (P : QueryResult → Prop) : Prop where
  pairs : ∀ a b x y, P a → P b → value a = some x → value b = some y → ComparedAs (compare x y) a b
  trans : TransitiveOn P

theorem ComparedAs.lt_iff {ι : Type} [LinearOrder ι] {x y : ι} {a b : QueryResult}
    (h : ComparedAs (compare x y) a b) : lessThan a b = true ↔ x < y := by
  rw [h.lt, decide_eq_true_iff, compare_lt_iff_lt]

theorem ComparedAs.eq_iff {ι : Type} [LinearOrder ι] {x y : ι} {a b : QueryResult}
    (h : ComparedAs (compare x y) a b) : qvEqual a b = true ↔ x = y := by
  rw [h.eq, decide_eq_true_iff, compare_eq_iff_eq]

theorem ComparedAs.gt_iff {ι : Type} [LinearOrder ι] {x y : ι} {a b : QueryResult}
    (h : ComparedAs (compare x y) a b) : greaterThan a b = true ↔ y < x := by
  rw [h.gt, decide_eq_true_iff, compare_gt_iff_gt]

/-- The tests of a pair decide how it is compared. -/
theorem comparedAs_iff {ι : Type} [LinearOrder ι] {x y : ι} {a b : QueryResult} :
    ComparedAs (compare x y) a b ↔ (lessThan a b = true ↔ x < y) ∧
      (qvEqual a b = true ↔ x = y) ∧ (greaterThan a b = true ↔ y < x) := by
  refine ⟨fun h => ⟨h.lt_iff, h.eq_iff, h.gt_iff⟩, fun h => ⟨?_, ?_, ?_⟩⟩
  · rw [Bool.eq_iff_iff, decide_eq_true_iff, compare_lt_iff_lt]
    exact h.1
  · rw [Bool.eq_iff_iff, decide_eq_true_iff, compare_eq_iff_eq]
    exact h.2.1
  · rw [Bool.eq_iff_iff, decide_eq_true_iff, compare_gt_iff_gt]
    exact h.2.2

/-- Pairs that are compared like elements of a linear order are compared
transitively. -/
theorem ComparedLike.of_pairs {ι : Type} [LinearOrder ι] {value : QueryResult → Option ι}
    {P : QueryResult → Prop} (hv : ∀ a, P a → ∃ x, value a = some x)
    (hpairs : ∀ a b x y, P a → P b → value a = some x → value b = some y →
      ComparedAs (compare x y) a b) : ComparedLike value P := by
  refine ⟨hpairs, fun a b c ha hb hc h1 h2 => ?_, fun a b c ha hb hc h1 h2 => ?_,
    fun a b c ha hb hc h1 h2 => ?_⟩
  all_goals
    obtain ⟨x, hx⟩ := hv a ha
    obtain ⟨y, hy⟩ := hv b hb
    obtain ⟨z, hz⟩ := hv c hc
    have hab := hpairs a b x y ha hb hx hy
    have hbc := hpairs b c y z hb hc hy hz
    have hac := hpairs a c x z ha hc hx hz
  · exact hac.lt_iff.mpr (lt_trans (hab.lt_iff.mp h1) (hbc.lt_iff.mp h2))
  · exact hac.eq_iff.mpr ((hab.eq_iff.mp h1).trans (hbc.eq_iff.mp h2))
  · exact hac.gt_iff.mpr (lt_trans (hbc.gt_iff.mp h2) (hab.gt_iff.mp h1))

/-! ## Integers -/

/-- The cast of an `int` to `uint64_t`. -/
theorem toNat_cast (i : Int32) : (i.toInt64.toUInt64.toNat : Int) =
    if i.toInt < 0 then i.toInt + 2 ^ 64 else i.toInt := by
  have hlt := i.toInt_lt
  have hle := i.le_toInt
  have hint : i.toInt64.toBitVec.toInt = i.toInt := Int32.toInt_toInt64 i
  rw [BitVec.toInt_eq_toNat_cond] at hint
  have hnat : i.toInt64.toUInt64.toNat = i.toInt64.toBitVec.toNat := rfl
  have hbound := i.toInt64.toBitVec.isLt
  rw [hnat]
  split at hint <;> split <;> omega

/-- An `int` and a `uint64` are compared like integers if the first is not
negative or its cast is below the second. -/
theorem comparedAs_mixed (i : Int32) (n : UInt64) :
    (ComparedAs (compare i.toInt n.toNat) (.int i) (.uint64 n) ↔
      0 ≤ i.toInt ∨ i.toInt + 2 ^ 64 < n.toNat) ∧
    (ComparedAs (compare (n.toNat : Int) i.toInt) (.uint64 n) (.int i) ↔
      0 ≤ i.toInt ∨ i.toInt + 2 ^ 64 < n.toNat) := by
  have hcast := toNat_cast i
  have hi := i.le_toInt
  have hn := n.toNat_lt
  simp only [comparedAs_iff, lessThan, qvEqual, greaterThan, decide_eq_true_iff, beq_iff_eq,
    UInt64.lt_iff_toNat_lt, ← UInt64.toNat_inj]
  split at hcast <;> omega

theorem comparedAs_int (i j : Int32) :
    ComparedAs (compare i.toInt j.toInt) (.int i) (.int j) := by
  simp only [comparedAs_iff, lessThan, qvEqual, greaterThan, decide_eq_true_iff, beq_iff_eq,
    Int32.lt_iff_toInt_lt, ← Int32.toInt_inj, and_self]

theorem comparedAs_uint64 (m n : UInt64) :
    ComparedAs (compare (m.toNat : Int) n.toNat) (.uint64 m) (.uint64 n) := by
  simp only [comparedAs_iff, lessThan, qvEqual, greaterThan, decide_eq_true_iff, beq_iff_eq,
    UInt64.lt_iff_toNat_lt, ← UInt64.toNat_inj, Int.ofNat_lt, Int.natCast_inj,
    and_self]

theorem comparedAs_str (s t : String) : ComparedAs (compare s t) (.str s) (.str t) := by
  simp only [comparedAs_iff, lessThan, qvEqual, greaterThan, decide_eq_true_iff, beq_iff_eq,
    and_self]

/-- The string that a value is. -/
def QueryResult.text : QueryResult → Option String
  | .str s => some s
  | _ => none

/-- Values of integer type are compared like the integers they are, and
transitively, if no negative `int` among them meets a `uint64` that its cast is
not below; strings always are. -/
theorem value_order_iff (P : QueryResult → Prop) (hP : ∀ a, P a → ∃ x, a.integer = some x) :
    (ComparedLike QueryResult.integer P ↔ ∀ i n, P (.int i) → P (.uint64 n) →
      0 ≤ i.toInt ∨ i.toInt + 2 ^ 64 < n.toNat) ∧
      ComparedLike QueryResult.text fun a => ∃ s, a = .str s := by
  refine ⟨⟨fun h i n hi hn => ?_, fun h => .of_pairs hP ?_⟩, .of_pairs ?_ ?_⟩
  · exact (comparedAs_mixed i n).1.mp (h.pairs _ _ _ _ hi hn rfl rfl)
  · intro a b x y ha hb hx hy
    cases a with
    | int i =>
        cases hx
        cases b with
        | int j => cases hy; exact comparedAs_int i j
        | uint64 n => cases hy; exact (comparedAs_mixed i n).1.mpr (h i n ha hb)
        | _ => cases hy
    | uint64 m =>
        cases hx
        cases b with
        | int j => cases hy; exact (comparedAs_mixed j m).2.mpr (h j m hb ha)
        | uint64 n => cases hy; exact comparedAs_uint64 m n
        | _ => cases hy
    | _ => cases hx
  · rintro _ ⟨s, rfl⟩
    exact ⟨s, rfl⟩
  · rintro _ _ x y ⟨s, rfl⟩ ⟨t, rfl⟩ hx hy
    cases hx
    cases hy
    exact comparedAs_str _ _

theorem value_order_iff_mixed :
    ComparedLike QueryResult.integer fun a => a = .int (-3) ∨ a = .int 7 ∨
      a = .uint64 18446744073709551615 := by
  refine (value_order_iff _ ?_).1.mpr fun i n hi hn => ?_
  · rintro a (rfl | rfl | rfl) <;> exact ⟨_, rfl⟩
  · obtain rfl : n = 18446744073709551615 := by simpa using hn
    have hi' : i = -3 ∨ i = 7 := by simpa using hi
    rcases hi' with rfl | rfl <;> decide

/-- `-1 < 0` and `0 < 5`, but `-1` is above `5` and equal to the largest
`uint64`. -/
theorem negative_int_above_uint64 :
    (lessThan (.int (-1)) (.int 0) = true ∧ lessThan (.int 0) (.uint64 5) = true ∧
      lessThan (.int (-1)) (.uint64 5) = false ∧
      qvEqual (.int (-1)) (.uint64 18446744073709551615) = true) ∧
    ¬ComparedLike QueryResult.integer fun a => a = .int (-1) ∨ a = .int 0 ∨ a = .uint64 5 := by
  refine ⟨by decide, fun h => ?_⟩
  have hlt := h.trans.lt (.int (-1)) (.int 0) (.uint64 5) (.inl rfl) (.inr (.inl rfl))
    (.inr (.inr rfl)) (by decide) (by decide)
  exact absurd hlt (by decide)

end Poseidon
