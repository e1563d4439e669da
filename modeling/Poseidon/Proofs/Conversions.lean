import Poseidon.Store.Import

/-!
# Three ways to convert an integer

The constructor of `p_item` for `std::any` knows the type `int` only.
`get_datatype` and `infer_datatype` go on with `stoull` where the number is no
`int`. This takes negative numbers for large ones, and where `stoull` refuses
the number, `infer_datatype` returns a 0.
-/

namespace Poseidon

open Numeral RegularExpression

variable {c : Conversions} {k : Nat} {s : String}

/-! ## Integers -/

theorem isInt_digits (h : isInt s = true) : Digits s.toList := by
  have hdigit : ∀ d ∈ ['1', '2', '3', '4', '5', '6', '7', '8', '9'], d ∈ digitChars :=
    fun d hd => List.mem_cons_of_mem '0' hd
  rw [isInt, rmatch_iff_matches', intExpr, matches'_add, Language.mem_add] at h
  rcases h with hnum | hzero
  · rw [matches'_mul, matches'_mul, Language.mem_mul] at hnum
    obtain ⟨front, hfront, ds, hds, heq⟩ := hnum
    obtain ⟨sign, hsign, first, hfirst, rfl⟩ := Language.mem_mul.mp hfront
    obtain ⟨d, hd, rfl⟩ := mem_oneOf.mp hfirst
    have hall : ∀ e ∈ d :: ds, e ∈ digitChars := by
      intro e he
      rcases List.mem_cons.mp he with rfl | he
      · exact hdigit e hd
      · exact mem_star_oneOf.mp hds e he
    refine ⟨d, ds, hall, ?_⟩
    rw [← heq]
    rcases mem_optional.mp hsign with rfl | hminus
    · exact .inl rfl
    · rw [mem_char.mp hminus]
      exact .inr rfl
  · exact ⟨'0', [], List.forall_mem_singleton.mpr (by decide), .inl (mem_char.mp hzero)⟩

theorem not_quoted (h : Digits s.toList) : isQuotedString s = false := by
  obtain ⟨d, ds, hall, hs⟩ := h
  have hplain : ∀ e ∈ digitChars, e ≠ '"' ∧ e ≠ '\'' :=
    forall_digitChars.mpr (by decide)
  obtain ⟨hdouble, hsingle⟩ := hplain d (hall d List.mem_cons_self)
  rw [isQuotedString]
  rcases hs with hs | hs
  · rw [hs]
    simp [hdouble, hsingle]
  · rw [hs]
    simp

/-! ## What each of them does -/

theorem number_int {v : Int} (h : IsInt32 v) : (PItem.mk k .int (intBytes v)).number = some v := by
  obtain ⟨hlow, hhigh⟩ := h
  simp only [PItem.number, intBytes, Option.some.injEq]
  rw [Int.toNat_of_nonneg (Int.emod_nonneg _ (by decide))]
  have hmod : (v % 2 ^ 32).bmod (2 ^ 32) = v.bmod (2 ^ 32) := Int.emod_bmod _ _
  rw [hmod]
  exact Int.bmod_eq_of_le (by omega) (by omega)

/-- The constructor for `std::any`. -/
def untyped (c : Conversions) (k : Nat) (s : String) : Option PItem := (PItem.ofText c k s).toOption

/-- The constructor for what `infer_datatype` returns. -/
def inferred (c : Conversions) (k : Nat) (s : String) : Option PItem :=
  (inferDatatype c s).toOption.bind fun r => (PItem.ofAny k r.1 r.2).toOption

/-- The constructor for the type that `get_datatype` returns. -/
def typed (c : Conversions) (k : Nat) (s : String) : Option PItem :=
  (PItem.ofString c.convert k (getDatatype s) s).toOption

theorem untyped_eq (h : isInt s = true) : untyped c k s =
    if IsInt32 (valueOf s.toList) then some ⟨k, .int, intBytes (valueOf s.toList)⟩ else none := by
  have hd := isInt_digits h
  rw [untyped, PItem.ofText, not_quoted hd, if_neg Bool.false_ne_true, if_pos h, stoi_eq hd]
  by_cases hv : IsInt32 (valueOf s.toList)
  · rw [if_pos hv, if_pos hv]
    rfl
  · rw [if_neg hv, if_neg hv]
    rfl

theorem inferred_eq (h : isInt s = true) : inferred c k s =
    if IsInt32 (valueOf s.toList) then some ⟨k, .int, intBytes (valueOf s.toList)⟩
    else if (valueOf s.toList).natAbs < 2 ^ 64 then
      some ⟨k, .uint64, (valueOf s.toList % 2 ^ 64).toNat⟩
    else some ⟨k, .int, intBytes 0⟩ := by
  have hd := isInt_digits h
  rw [inferred, inferDatatype, not_quoted hd, if_neg Bool.false_ne_true, if_pos h, stoi_eq hd,
    stoull_eq hd]
  by_cases hv : IsInt32 (valueOf s.toList)
  · rw [if_pos hv, if_pos hv]
    rfl
  · rw [if_neg hv, if_neg hv]
    by_cases hfit : (valueOf s.toList).natAbs < 2 ^ 64
    · rw [if_pos hfit, if_pos hfit]
      rfl
    · rw [if_neg hfit, if_neg hfit]
      rfl

theorem isUint64_eq (h : isInt s = true) : isUint64 s =
    decide (¬IsInt32 (valueOf s.toList) ∧ (valueOf s.toList).natAbs < 2 ^ 64) := by
  have hd := isInt_digits h
  rw [isUint64, if_neg (by rw [h]; decide), stoi_eq hd, stoull_eq hd]
  by_cases hv : IsInt32 (valueOf s.toList)
  · rw [if_pos hv, decide_eq_false fun hboth => hboth.1 hv]
  · rw [if_neg hv]
    by_cases hfit : (valueOf s.toList).natAbs < 2 ^ 64
    · rw [if_pos hfit, decide_eq_true ⟨hv, hfit⟩]
      rfl
    · rw [if_neg hfit, decide_eq_false fun hboth => hfit hboth.2]
      rfl

theorem typed_eq (h : isInt s = true) : typed c k s =
    if IsInt32 (valueOf s.toList) then some ⟨k, .int, intBytes (valueOf s.toList)⟩
    else if (valueOf s.toList).natAbs < 2 ^ 64 then
      some ⟨k, .uint64, (valueOf s.toList % 2 ^ 64).toNat⟩
    else none := by
  have hd := isInt_digits h
  rw [typed, getDatatype, not_quoted hd, if_neg Bool.false_ne_true, isUint64_eq h]
  by_cases hv : IsInt32 (valueOf s.toList)
  · rw [decide_eq_false fun hboth => hboth.1 hv, if_neg Bool.false_ne_true, if_pos h, if_pos hv,
      PItem.ofString, Conversions.convert, stoi_eq hd,
      if_pos hv]
    rfl
  · by_cases hfit : (valueOf s.toList).natAbs < 2 ^ 64
    · rw [decide_eq_true ⟨hv, hfit⟩, if_pos rfl, if_neg hv, if_pos hfit, PItem.ofString,
        Conversions.convert,
        stoull_eq hd, if_pos hfit]
      rfl
    · rw [decide_eq_false fun hboth => hfit hboth.2, if_neg Bool.false_ne_true, if_pos h,
        if_neg hv, if_neg hfit, PItem.ofString,
        Conversions.convert, stoi_eq hd, if_neg hv]
      rfl

/-! ## When they agree -/

/-- All three store the number, if it is an `int` or a `uint64_t`, or refuse it. -/
def ConversionsAgree (c : Conversions) (k : Nat) (s : String) : Prop :=
  if IsInt32 (valueOf s.toList) ∨ 0 ≤ valueOf s.toList ∧ valueOf s.toList < 2 ^ 64 then
    ∃ p, untyped c k s = some p ∧ inferred c k s = some p ∧ typed c k s = some p ∧
      p.number = some (valueOf s.toList)
  else untyped c k s = none ∧ inferred c k s = none ∧ typed c k s = none

/-- A number that is no `int` is an error for one of them and not for another
one. -/
theorem conversionsAgree_iff (h : isInt s = true) :
    ConversionsAgree c k s ↔ -2 ^ 31 ≤ valueOf s.toList ∧ valueOf s.toList < 2 ^ 31 := by
  show _ ↔ IsInt32 (valueOf s.toList)
  rw [ConversionsAgree, untyped_eq h, inferred_eq h, typed_eq h]
  by_cases hv : IsInt32 (valueOf s.toList)
  · rw [if_pos (.inl hv), if_pos hv, if_pos hv, if_pos hv]
    exact iff_of_true ⟨_, rfl, rfl, rfl, number_int hv⟩ hv
  · rw [if_neg hv, if_neg hv, if_neg hv]
    refine iff_of_false ?_ hv
    split
    · rintro ⟨p, hnone, -⟩
      cases hnone
    · rintro ⟨-, hnone, -⟩
      split at hnone
      · cases hnone
      · cases hnone

/-- A library without doubles and dates. -/
def noConversions : Conversions where
  insert _ := 0
  stod _ := .error .invalidArgument
  fromSimpleString _ := .error .invalidArgument
  timeFromString _ := .error .invalidArgument

theorem conversionsAgree_small : ConversionsAgree noConversions 1 "-7" := by
  have hint : isInt "-7" = true := by decide
  have hval : valueOf "-7".toList = -7 := by decide
  rw [conversionsAgree_iff hint, hval]
  decide

/-- 3000000000 is a `uint64_t` that the constructor for `std::any` refuses, and
-3000000000 is stored as 2^64 - 3000000000. -/
theorem conversions_disagree :
    isInt "3000000000" = true ∧ ¬ConversionsAgree noConversions 1 "3000000000" ∧
      isInt "-3000000000" = true ∧ ¬ConversionsAgree noConversions 1 "-3000000000" := by
  have hpos : isInt "3000000000" = true := by decide
  have hneg : isInt "-3000000000" = true := by decide
  have hval : valueOf "3000000000".toList = 3000000000 := by decide
  have hval' : valueOf "-3000000000".toList = -3000000000 := by decide
  refine ⟨hpos, ?_, hneg, ?_⟩
  · rw [ConversionsAgree, hval, if_pos (by decide), untyped_eq hpos, hval, if_neg (by decide)]
    rintro ⟨p, hnone, -⟩
    cases hnone
  · rw [ConversionsAgree, hval', if_neg (by decide), typed_eq hneg, hval', if_neg (by decide),
      if_pos (by decide)]
    rintro ⟨-, -, hnone⟩
    cases hnone

end Poseidon
