import Mathlib.Computability.RegularExpressions
import Mathlib.Data.List.TakeWhile
import Mathlib.Data.Nat.Digits.Defs
import Mathlib.Algebra.GroupWithZero.Nat

/-!
# Numerals

Classes of characters in regular expressions, and the conversions of the C++
library from a string to an integer. `stoi` and `stoull` skip blanks and take
a sign and the digits that follow. `stoull` takes a minus sign as well: the
number is then negated modulo 2^64.
-/

namespace Poseidon

namespace Numeral

open RegularExpression

/-! ## Classes of characters -/

section

variable {α : Type}

/-- `[abc]`. -/
def oneOf (l : List α) : RegularExpression α := l.foldr (fun a r => char a + r) 0

/-- `abc`. -/
def literal (l : List α) : RegularExpression α := l.foldr (fun a r => char a * r) 1

/-- `r?`. -/
def optional (r : RegularExpression α) : RegularExpression α := 1 + r

/-- `r+`. -/
def oneOrMore (r : RegularExpression α) : RegularExpression α := r * star r

theorem mem_oneOf {l : List α} {x : List α} : x ∈ (oneOf l).matches' ↔ ∃ a ∈ l, x = [a] := by
  induction l with
  | nil => simp [oneOf, Language.notMem_zero]
  | cons b l ih =>
      have hcons : oneOf (b :: l) = char b + oneOf l := rfl
      rw [hcons, matches'_add, Language.mem_add, ih, List.exists_mem_cons_iff]
      rfl

theorem mem_char {a : α} {x : List α} : x ∈ (char a).matches' ↔ x = [a] := Iff.rfl

theorem mem_optional {r : RegularExpression α} {x : List α} :
    x ∈ (optional r).matches' ↔ x = [] ∨ x ∈ r.matches' := by
  rw [optional, matches'_add, Language.mem_add]
  rfl

theorem mem_star_oneOf {l : List α} {x : List α} :
    x ∈ (star (oneOf l)).matches' ↔ ∀ a ∈ x, a ∈ l := by
  rw [matches'_star, Language.mem_kstar]
  constructor
  · rintro ⟨parts, rfl, hparts⟩ a ha
    obtain ⟨y, hy, hay⟩ := List.mem_flatten.mp ha
    obtain ⟨b, hb, rfl⟩ := mem_oneOf.mp (hparts y hy)
    rwa [List.mem_singleton.mp hay]
  · intro h
    refine ⟨x.map fun a => [a], ?_, fun y hy => ?_⟩
    · rw [← List.flatMap_def, List.flatMap_singleton']
    · obtain ⟨a, ha, rfl⟩ := List.mem_map.mp hy
      exact mem_oneOf.mpr ⟨a, h a ha, rfl⟩

end

/-! ## Numbers -/

def digitChars : List Char := ['0', '1', '2', '3', '4', '5', '6', '7', '8', '9']

/-- The number of a digit. -/
def digitOf (c : Char) : Nat := c.toNat - '0'.toNat

/-- The number that a string of digits is in the decimal system. -/
def decimal (s : List Char) : Nat := Nat.ofDigits 10 (s.reverse.map digitOf)

/-- The number that a numeral is, with its sign. -/
def valueOf : List Char → Int
  | '-' :: s => -(decimal s : Int)
  | s => decimal s

/-- `isspace`. -/
def isBlank (c : Char) : Bool := c.toNat = 32 || (9 ≤ c.toNat && c.toNat ≤ 13)

/-- The exceptions of the conversions. -/
inductive StdError where
  | invalidArgument
  | outOfRange
  deriving DecidableEq, Repr

/-- What `strtol` and `strtoull` take from a string: is there a minus sign, and
the digits. -/
def subject (s : List Char) : Bool × List Char :=
  match s.dropWhile isBlank with
  | '-' :: r => (true, r.takeWhile Char.isDigit)
  | '+' :: r => (false, r.takeWhile Char.isDigit)
  | r => (false, r.takeWhile Char.isDigit)

/-- The digits from the left. -/
def accumulate (ds : List Char) : Nat := ds.foldl (fun n c => 10 * n + digitOf c) 0

/-- The number is an `int`. -/
def IsInt32 (v : Int) : Prop := -2 ^ 31 ≤ v ∧ v < 2 ^ 31

instance (v : Int) : Decidable (IsInt32 v) := inferInstanceAs (Decidable (_ ∧ _))

/-- `std::stoi`. -/
def stoi (s : List Char) : Except StdError Int :=
  let t := subject s
  if t.2 = [] then .error .invalidArgument
  else
    let v : Int := if t.1 then -(accumulate t.2 : Int) else accumulate t.2
    if IsInt32 v then .ok v else .error .outOfRange

/-- `std::stoull`. -/
def stoull (s : List Char) : Except StdError Nat :=
  let t := subject s
  if t.2 = [] then .error .invalidArgument
  else if accumulate t.2 < 2 ^ 64 then
    .ok (if t.1 then (2 ^ 64 - accumulate t.2) % 2 ^ 64 else accumulate t.2)
  else .error .outOfRange

theorem accumulate_eq (ds : List Char) : accumulate ds = decimal ds := by
  induction ds using List.reverseRecOn with
  | nil => rfl
  | append_singleton ds c ih =>
      have hstep : accumulate (ds ++ [c]) = 10 * accumulate ds + digitOf c := by
        rw [accumulate, List.foldl_append]
        rfl
      rw [hstep, ih, decimal, decimal, List.reverse_append, List.reverse_singleton,
        List.singleton_append, List.map_cons, Nat.ofDigits_cons, Nat.add_comm]

/-! ## Numerals without blanks -/

theorem forall_digitChars {P : Char → Prop} : (∀ c ∈ digitChars, P c) ↔
    P '0' ∧ P '1' ∧ P '2' ∧ P '3' ∧ P '4' ∧ P '5' ∧ P '6' ∧ P '7' ∧ P '8' ∧ P '9' := by
  simp [digitChars]

variable {d : Char} {ds : List Char}

theorem subject_digits (h : ∀ c ∈ d :: ds, c ∈ digitChars) : subject (d :: ds) =
    (false, d :: ds) := by
  have hfirst : d ∈ digitChars := h d List.mem_cons_self
  have hkind : ∀ c ∈ digitChars, c.isDigit = true ∧ isBlank c = false ∧ c ≠ '-' ∧ c ≠ '+' :=
    forall_digitChars.mpr (by decide)
  obtain ⟨-, hblank, hminus, hplus⟩ := hkind d hfirst
  have hall : (d :: ds).takeWhile Char.isDigit = d :: ds :=
    List.takeWhile_eq_self_iff.mpr fun c hc => (hkind c (h c hc)).1
  rw [subject, List.dropWhile_cons_of_neg (by rw [hblank]; exact Bool.false_ne_true)]
  split
  · next heq => exact absurd (List.cons.inj heq).1 hminus
  · next heq => exact absurd (List.cons.inj heq).1 hplus
  · rw [hall]

theorem subject_minus (h : ∀ c ∈ d :: ds, c ∈ digitChars) :
    subject ('-' :: d :: ds) = (true, d :: ds) := by
  have hkind : ∀ c ∈ digitChars, c.isDigit = true := forall_digitChars.mpr (by decide)
  have hall : (d :: ds).takeWhile Char.isDigit = d :: ds :=
    List.takeWhile_eq_self_iff.mpr fun c hc => hkind c (h c hc)
  show (true, (d :: ds).takeWhile Char.isDigit) = _
  rw [hall]

theorem valueOf_digits (h : d ∈ digitChars) : valueOf (d :: ds) = decimal (d :: ds) := by
  have hminus : d ≠ '-' := by
    rintro rfl
    revert h
    decide
  rw [valueOf]
  rintro s heq
  exact hminus (List.cons.inj heq).1

/-- A numeral, in front of which may be a minus sign. -/
def Digits (s : List Char) : Prop :=
  ∃ d ds, (∀ c ∈ d :: ds, c ∈ digitChars) ∧ (s = d :: ds ∨ s = '-' :: d :: ds)

theorem stoi_eq {s : List Char} (h : Digits s) : stoi s =
    if IsInt32 (valueOf s) then .ok (valueOf s) else .error .outOfRange := by
  obtain ⟨d, ds, hall, rfl | rfl⟩ := h
  · rw [stoi, subject_digits hall, valueOf_digits (hall d List.mem_cons_self)]
    simp only [accumulate_eq, reduceCtorEq, if_false, Bool.false_eq_true]
  · rw [stoi, subject_minus hall, valueOf]
    simp only [accumulate_eq, reduceCtorEq, if_false, if_true]

/-- Up to the limit a number is what it is, and a negative one is another one. -/
theorem stoull_eq {s : List Char} (h : Digits s) : stoull s =
    if (valueOf s).natAbs < 2 ^ 64 then .ok (valueOf s % 2 ^ 64).toNat else .error .outOfRange := by
  obtain ⟨d, ds, hall, rfl | rfl⟩ := h
  · rw [stoull, subject_digits hall, valueOf_digits (hall d List.mem_cons_self), Int.natAbs_natCast]
    simp only [accumulate_eq, reduceCtorEq, if_false, Bool.false_eq_true]
    refine ite_congr rfl (fun hlt => ?_) fun _ => rfl
    rw [Except.ok.injEq]
    omega
  · rw [stoull, subject_minus hall, valueOf, Int.natAbs_neg, Int.natAbs_natCast]
    simp only [accumulate_eq, reduceCtorEq, if_false, if_true]
    refine ite_congr rfl (fun hlt => ?_) fun _ => rfl
    rw [Except.ok.injEq]
    omega

end Numeral

end Poseidon
