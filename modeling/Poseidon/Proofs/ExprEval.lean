import Poseidon.Query.Expr

/-!
# The interpreter and the meaning of expressions

`denote` is the meaning of an expression in terms of its parts. A property
that a record does not have has no value, arithmetic with it has none, and a
comparison with it is false. The interpreter agrees with it, and keeps to
one value for each sub-expression, exactly when every variable pushes the
value that it stands for and no arithmetic leaves the range of `int`.
-/

namespace Poseidon

section

variable (raw : PItem) (ctx : ExprCtx) (tup : List QueryResult)

/-! ## What an expression means -/

/-- A record or one of its properties. -/
def recordDenote (self : QueryResult) (t : PropertyList) (list : Nat) (x : Variable) :
    Option QueryResult :=
  if x.pcode ≠ UNKNOWN_CODE then
    match t.propertyValue list x.pcode with
    | .ok item => pitemValue ctx item
    | .error _ => none
  else if x.pname = "" then some self
  else none

/-- A description or one of its properties. -/
def descrDenote (self : QueryResult) (d : Description) (x : Variable) : Option QueryResult :=
  if x.pname = "" ∧ x.pcode = UNKNOWN_CODE then some self
  else
    match descrProperty d x with
    | .ok v => v
    | .error _ => none

/-- The value that a variable stands for. -/
def variableDenote (x : Variable) : Option QueryResult :=
  match tup[x.id]? with
  | none => none
  | some inp =>
      match inp with
      | .node p => recordDenote ctx inp ctx.nodeProperties (ctx.nodePropertyList p) x
      | .rship p => recordDenote ctx inp ctx.rshipProperties (ctx.rshipPropertyList p) x
      | .nodeDescr d => descrDenote inp d x
      | .rshipDescr d => descrDenote inp d x
      | _ => some inp

/-- The truth of the value of a boolean expression. -/
def truth : Option QueryResult → Bool
  | some (.int i) => i != 0
  | _ => false

/-- The meaning of an operator in terms of the values of the operands. -/
def BinaryOp.denote : BinaryOp → Option QueryResult → Option QueryResult → Option QueryResult
  | .math op, some a, some b => (mathOp op a b).toOption
  | .math _, _, _ => none
  | .cmp op, some a, some b => some (ofBool (op.holds a b))
  | .cmp _, _, _ => some (ofBool false)
  | .and, a, b => some (ofBool (truth a && truth b))
  | .or, a, b => some (ofBool (truth a || truth b))

def denote : Expr → Option QueryResult
  | .intLiteral i => some (.int i)
  | .uint64Literal n => some (.uint64 n)
  | .doubleLiteral d => some (.double d)
  | .stringLiteral s => some (.str s)
  | .timeLiteral t => some (.ptime t)
  | .var x => variableDenote ctx tup x
  | .binary op l r => op.denote (denote l) (denote r)

/-! ## Expressions that the interpreter is made for -/

def ExprType.Integer : ExprType → Prop
  | .int | .uint64 => True
  | _ => False

def ExprType.Numeric : ExprType → Prop
  | .int | .uint64 | .double => True
  | _ => False

/-- Values of the two types can be compared. -/
def ExprType.Comparable (a b : ExprType) : Prop :=
  a ≠ .boolean ∧ b ≠ .boolean ∧ (a = b ∨ a.Numeric ∧ b.Numeric)

/-- Integer arithmetic, comparisons other than `<>` and the two
connectives. -/
inductive WellTyped : Expr → ExprType → Prop
  | intLiteral (i : Int32) : WellTyped (.intLiteral i) .int
  | uint64Literal (n : UInt64) : WellTyped (.uint64Literal n) .uint64
  | doubleLiteral (d : Float) : WellTyped (.doubleLiteral d) .double
  | stringLiteral (s : String) : WellTyped (.stringLiteral s) .string
  | timeLiteral (t : Int) : WellTyped (.timeLiteral t) .datetime
  | var (x : Variable) (h : x.rtype ≠ .boolean) : WellTyped (.var x) x.rtype
  | math {op : MathOp} {l r : Expr} {a b : ExprType} (hl : WellTyped l a) (hr : WellTyped r b)
      (ha : a.Integer) (hb : b.Integer) :
      WellTyped (.binary (.math op) l r) (if a = .int ∧ b = .int then .int else .uint64)
  | cmp {op : CmpOp} {l r : Expr} {a b : ExprType} (hop : op ≠ .neq) (hl : WellTyped l a)
      (hr : WellTyped r b) (hab : a.Comparable b) : WellTyped (.binary (.cmp op) l r) .boolean
  | and {l r : Expr} (hl : WellTyped l .boolean) (hr : WellTyped r .boolean) :
      WellTyped (.binary .and l r) .boolean
  | or {l r : Expr} (hl : WellTyped l .boolean) (hr : WellTyped r .boolean) :
      WellTyped (.binary .or l r) .boolean

/-- No operand values divide by zero. -/
def NoDivisionByZero : Expr → Prop
  | .binary op l r => NoDivisionByZero l ∧ NoDivisionByZero r ∧
      ∀ m a b, op = .math m → denote ctx tup l = some a → denote ctx tup r = some b →
        mathOp m a b ≠ .error .divisionByZero
  | _ => True

/-- The results of arithmetic on two `int`s are `int`s. -/
def StaysInRange : Expr → Prop
  | .binary op l r => StaysInRange l ∧ StaysInRange r ∧
      ∀ m a b, op = .math m → denote ctx tup l = some (.int a) →
        denote ctx tup r = some (.int b) → m.Fits a b
  | _ => True

/-! ## What the interpreter has to do -/

/-- The visit adds one value to the stack, the value of the expression. -/
def AddsValue (e : Expr) (st : List QueryResult) : Prop :=
  ∃ v, visit raw ctx tup e st = .ok (v :: st) ∧ denote ctx tup e = some v

/-- So do the visits of all sub-expressions, each on the stack that it is
visited with. -/
def AddsValues : Expr → List QueryResult → Prop
  | .binary op l r, st => AddsValue raw ctx tup (.binary op l r) st ∧ AddsValues l st ∧
      ∀ v, denote ctx tup l = some v → AddsValues r (v :: st)
  | e, st => AddsValue raw ctx tup e st

structure Compositional (e : Expr) : Prop where
  adds : AddsValues raw ctx tup e []
  result : ∃ v, interpretExpression raw ctx tup e = .ok v ∧ denote ctx tup e = some v
  boolResult : WellTyped e .boolean →
    interpretBoolExpression raw ctx tup e = .ok (truth (denote ctx tup e))

/-! ## When it does -/

def Expr.variables : Expr → List Variable
  | .var x => [x]
  | .binary _ l r => l.variables ++ r.variables
  | _ => []

/-- The record has the property. -/
def HasProperty (t : PropertyList) (list : Nat) (x : Variable) : Prop :=
  x.pcode ≠ UNKNOWN_CODE ∧ ∃ item, t.propertyValue list x.pcode = .ok item ∧
  item.typecode.stored = true

/-- The variable stands for a number or a string of the tuple, or for a
property that its node or relationship has. -/
def Pushes (x : Variable) : Prop :=
  match tup[x.id]? with
  | some (.uint64 _) | some (.int _) | some (.double _) | some (.str _) => True
  | some (.node p) => HasProperty ctx.nodeProperties (ctx.nodePropertyList p) x
  | some (.rship p) => HasProperty ctx.rshipProperties (ctx.rshipPropertyList p) x
  | _ => False

end

variable {raw : PItem} {ctx : ExprCtx} {tup : List QueryResult}

theorem pitemValue_of_stored (ctx : ExprCtx) {item : PItem} (h : item.typecode.stored = true) :
    ∃ v, pitemValue ctx item = some v := by
  cases hc : item.typecode with
  | none => rw [hc] at h; cases h
  | unused => rw [hc] at h; cases h
  | int => exact ⟨_, by rw [pitemValue, hc]⟩
  | double => exact ⟨_, by rw [pitemValue, hc]⟩
  | dcode => exact ⟨_, by rw [pitemValue, hc]⟩
  | uint64 => exact ⟨_, by rw [pitemValue, hc]⟩
  | ptime => exact ⟨_, by rw [pitemValue, hc]⟩

theorem stored_of_pitemValue {item : PItem} {v : QueryResult} (h : pitemValue ctx item = some v) :
    item.typecode.stored = true := by
  cases hc : item.typecode with
  | none => rw [pitemValue, hc] at h; cases h
  | unused => rw [pitemValue, hc] at h; cases h
  | int => rfl
  | double => rfl
  | dcode => rfl
  | uint64 => rfl
  | ptime => rfl

/-- A property that the record has is pushed, whatever the memory of `res` has
been before. -/
theorem finish_record {self : QueryResult} {t : PropertyList} {list : Nat} {x : Variable}
    (h : HasProperty t list x) :
    ∃ v, visitVariable.finish ctx (recordValue raw self t list x) = .ok [v] ∧
      recordDenote ctx self t list x = some v := by
  obtain ⟨hcode, item, hitem, hstored⟩ := h
  obtain ⟨v, hv⟩ := pitemValue_of_stored ctx hstored
  refine ⟨v, ?_, ?_⟩
  · rw [recordValue, if_neg hcode, hitem]
    simp only [visitVariable.finish, hv]
    rfl
  · rw [recordDenote, if_pos hcode, hitem]
    exact hv

/-- Memory that looks like a number. -/
def junk : PItem := ⟨0, .int, 0⟩

theorem hasProperty_of_finish {self v : QueryResult} {t : PropertyList} {list : Nat} {x : Variable}
    (h : visitVariable.finish ctx (recordValue junk self t list x) = .ok [v]) :
    HasProperty t list x := by
  rw [recordValue] at h
  split at h
  · cases h
  · next hcode =>
      cases hitem : t.propertyValue list x.pcode with
      | error e => rw [hitem] at h; cases h
      | ok item =>
          rw [hitem] at h
          simp only [visitVariable.finish, List.append_nil, Except.ok.injEq] at h
          exact ⟨hcode, item, hitem, stored_of_pitemValue (Option.toList_eq_singleton_iff.mp h)⟩

theorem not_finish_descr {self v : QueryResult} {d : Description} {x : Variable}
    (h : visitVariable.finish ctx (descrValue junk self d x) = .ok [v]) :
    descrDenote self d x ≠ some v := by
  rw [descrValue] at h
  rw [descrDenote]
  split at h
  · cases h
  · next hself =>
      rw [if_neg hself]
      cases hp : descrProperty d x with
      | error e => simp
      | ok w =>
          rw [hp] at h
          cases w with
          | none => simp
          | some w => cases h

theorem visitVariable_of_pushes (raw : PItem) {x : Variable} (h : Pushes ctx tup x) :
    ∃ v, visitVariable raw ctx tup x = .ok [v] ∧ variableDenote ctx tup x = some v := by
  rw [Pushes] at h
  rw [visitVariable, variableDenote]
  cases hx : tup[x.id]? with
  | none => rw [hx] at h; exact h.elim
  | some inp =>
      rw [hx] at h
      cases inp with
      | uint64 n => exact ⟨_, rfl, rfl⟩
      | int i => exact ⟨_, rfl, rfl⟩
      | double d => exact ⟨_, rfl, rfl⟩
      | str s => exact ⟨_, rfl, rfl⟩
      | node p => exact finish_record h
      | rship p => exact finish_record h
      | nodeDescr d => exact h.elim
      | rshipDescr d => exact h.elim
      | ptime t => exact h.elim
      | array elems => exact h.elim
      | null => exact h.elim

theorem pushes_of_visitVariable {x : Variable} {v : QueryResult}
    (h : visitVariable junk ctx tup x = .ok [v]) (hd : variableDenote ctx tup x = some v) :
    Pushes ctx tup x := by
  rw [visitVariable] at h
  rw [variableDenote] at hd
  rw [Pushes]
  cases hx : tup[x.id]? with
  | none => rw [hx] at h; cases h
  | some inp =>
      rw [hx] at h hd
      cases inp with
      | uint64 n => trivial
      | int i => trivial
      | double d => trivial
      | str s => trivial
      | node p => exact hasProperty_of_finish h
      | rship p => exact hasProperty_of_finish h
      | nodeDescr d => exact absurd hd (not_finish_descr h)
      | rshipDescr d => exact absurd hd (not_finish_descr h)
      | ptime t => cases h; cases hd
      | array elems => cases h; cases hd
      | null => cases h; cases hd

/-! ## Operators -/

theorem intMathOp_ok {m : MathOp} {a b : Int32} (h : intMathOp m a b ≠ .error .divisionByZero)
    (hfits : m.Fits a b) : ∃ c, intMathOp m a b = .ok c := by
  rw [intMathOp.eq_def] at h ⊢
  by_cases hzero : (m = .div ∨ m = .mod) ∧ b = 0
  · exact absurd (if_pos hzero) h
  · exact ⟨_, (if_neg hzero).trans (if_pos hfits)⟩

theorem fits_of_intMathOp {m : MathOp} {a b c : Int32} (h : intMathOp m a b = .ok c) :
    m.Fits a b := by
  rw [intMathOp.eq_def] at h
  split at h
  · cases h
  · split at h
    · next hfits => exact hfits
    · cases h

theorem uint64MathOp_ok {m : MathOp} {a b : UInt64}
    (h : uint64MathOp m a b ≠ .error .divisionByZero) :
    ∃ c, uint64MathOp m a b = .ok c := by
  cases m with
  | plus => exact ⟨_, rfl⟩
  | minus => exact ⟨_, rfl⟩
  | mult => exact ⟨_, rfl⟩
  | div =>
      rw [uint64MathOp] at h ⊢
      split
      · next hb => exact absurd (if_pos hb) h
      · exact ⟨_, rfl⟩
  | mod =>
      rw [uint64MathOp] at h ⊢
      split
      · next hb => exact absurd (if_pos hb) h
      · exact ⟨_, rfl⟩

/-- Arithmetic fails only by a division by zero, and on two `int`s when the
result is none. -/
theorem mathOp_ok {m : MathOp} {a b : QueryResult} (h : mathOp m a b ≠ .error .divisionByZero)
    (hfits : ∀ i j, a = .int i → b = .int j → m.Fits i j) : ∃ v, mathOp m a b = .ok v := by
  have hmap : ∀ {α : Type} {x : Except EvalErr α} {f : α → QueryResult},
      (x ≠ .error .divisionByZero → ∃ c, x = .ok c) → f <$> x ≠ .error .divisionByZero →
        ∃ v, f <$> x = .ok v := by
    intro α x f hx hne
    cases x with
    | ok c => exact ⟨f c, rfl⟩
    | error e =>
        obtain ⟨c, hc⟩ := hx fun heq => hne (by rw [heq]; rfl)
        cases hc
  rw [mathOp.eq_def] at h ⊢
  split
  · exact hmap (fun hne => intMathOp_ok hne (hfits _ _ rfl rfl)) h
  · exact ⟨_, rfl⟩
  · exact hmap uint64MathOp_ok h
  · exact hmap uint64MathOp_ok h
  · exact hmap uint64MathOp_ok h
  · exact ⟨_, rfl⟩
  · exact ⟨_, rfl⟩
  · exact ⟨_, rfl⟩
  · exact ⟨_, rfl⟩
  · exact ⟨_, rfl⟩

theorem truth_ofBool (b : Bool) : truth (some (ofBool b)) = b := by
  cases b with
  | false => rfl
  | true => rfl

theorem connective_ofBool (f : Bool → Bool → Bool) (a b : Bool) :
    connective f (ofBool a) (ofBool b) = .ok (ofBool (f a b)) := by
  cases a with
  | false =>
      cases b with
      | false => rfl
      | true => rfl
  | true =>
      cases b with
      | false => rfl
      | true => rfl

/-- A boolean expression always has a value. -/
theorem denote_boolean (ctx : ExprCtx) (tup : List QueryResult) {e : Expr}
    (h : WellTyped e .boolean) : ∃ b, denote ctx tup e = some (ofBool b) := by
  generalize hty : ExprType.boolean = ty at h
  cases h with
  | intLiteral i => cases hty
  | uint64Literal n => cases hty
  | doubleLiteral d => cases hty
  | stringLiteral s => cases hty
  | timeLiteral t => cases hty
  | var x hx => exact absurd hty.symm hx
  | math hl hr ha hb =>
      split at hty
      · cases hty
      · cases hty
  | @cmp op l r a b hop hl hr hab =>
      rw [denote]
      cases denote ctx tup l with
      | none => exact ⟨false, rfl⟩
      | some v1 =>
          cases denote ctx tup r with
          | none => exact ⟨false, rfl⟩
          | some v2 => exact ⟨op.holds v1 v2, rfl⟩
  | and hl hr => exact ⟨_, rfl⟩
  | or hl hr => exact ⟨_, rfl⟩

/-! ## The whole expression -/

theorem AddsValues.head {e : Expr} {st : List QueryResult} (h : AddsValues raw ctx tup e st) :
    AddsValue raw ctx tup e st := by
  cases e with
  | binary op l r => exact h.1
  | intLiteral i => exact h
  | uint64Literal n => exact h
  | doubleLiteral d => exact h
  | stringLiteral s => exact h
  | timeLiteral t => exact h
  | var x => exact h

/-- An operator on two values. -/
theorem addsValues_binary {op : BinaryOp} {l r : Expr} {st : List QueryResult}
    (hl : AddsValues raw ctx tup l st) (hr : ∀ st, AddsValues raw ctx tup r st)
    (happly : ∀ a b, denote ctx tup l = some a → denote ctx tup r = some b →
      ∃ v, op.apply a b = .ok v ∧ op.denote (some a) (some b) = some v) :
    AddsValues raw ctx tup (.binary op l r) st := by
  refine ⟨?_, hl, fun v _ => hr (v :: st)⟩
  obtain ⟨a, hva, hda⟩ := hl.head
  obtain ⟨b, hvb, hdb⟩ := (hr (a :: st)).head
  obtain ⟨v, hv, hd⟩ := happly a b hda hdb
  refine ⟨v, ?_, ?_⟩
  · simp only [visit, hva, hvb, onOperands, hv, bind, Except.bind]
  · rw [denote, hda, hdb]
    exact hd

theorem addsValues_of_pushes {e : Expr} {ty : ExprType} (hty : WellTyped e ty) :
    NoDivisionByZero ctx tup e → StaysInRange ctx tup e → (∀ x ∈ e.variables, Pushes ctx tup x) →
      ∀ st, AddsValues raw ctx tup e st := by
  induction hty with
  | intLiteral i => exact fun _ _ _ st => ⟨_, rfl, rfl⟩
  | uint64Literal n => exact fun _ _ _ st => ⟨_, rfl, rfl⟩
  | doubleLiteral d => exact fun _ _ _ st => ⟨_, rfl, rfl⟩
  | stringLiteral s => exact fun _ _ _ st => ⟨_, rfl, rfl⟩
  | timeLiteral t => exact fun _ _ _ st => ⟨_, rfl, rfl⟩
  | var x hx =>
      intro _ _ hvars st
      obtain ⟨v, hv, hd⟩ := visitVariable_of_pushes raw (hvars x List.mem_cons_self)
      refine ⟨v, ?_, hd⟩
      simp only [visit, hv, bind, Except.bind]
      rfl
  | math hl hr ha hb ihl ihr =>
      intro hdiv hrange hvars st
      obtain ⟨hdl, hdr, hzero⟩ := hdiv
      obtain ⟨hil, hir, hfits⟩ := hrange
      obtain ⟨hvl, hvr⟩ := List.forall_mem_append.mp hvars
      refine addsValues_binary (ihl hdl hil hvl st) (ihr hdr hir hvr) fun a b hda hdb => ?_
      obtain ⟨v, hv⟩ := mathOp_ok (hzero _ a b rfl hda hdb) fun i j hi hj =>
        hfits _ i j rfl (hda.trans (congrArg some hi)) (hdb.trans (congrArg some hj))
      refine ⟨v, hv, ?_⟩
      rw [BinaryOp.denote, hv]
      rfl
  | cmp hop hl hr hab ihl ihr =>
      intro hdiv hrange hvars st
      obtain ⟨hdl, hdr, -⟩ := hdiv
      obtain ⟨hil, hir, -⟩ := hrange
      obtain ⟨hvl, hvr⟩ := List.forall_mem_append.mp hvars
      exact addsValues_binary (ihl hdl hil hvl st) (ihr hdr hir hvr) fun a b _ _ => ⟨_, rfl, rfl⟩
  | and hl hr ihl ihr =>
      intro hdiv hrange hvars st
      obtain ⟨hdl, hdr, -⟩ := hdiv
      obtain ⟨hil, hir, -⟩ := hrange
      obtain ⟨hvl, hvr⟩ := List.forall_mem_append.mp hvars
      refine addsValues_binary (ihl hdl hil hvl st) (ihr hdr hir hvr) fun a b hda hdb => ?_
      obtain ⟨x, hx⟩ := denote_boolean ctx tup hl
      obtain ⟨y, hy⟩ := denote_boolean ctx tup hr
      obtain rfl := Option.some.inj (hda.symm.trans hx)
      obtain rfl := Option.some.inj (hdb.symm.trans hy)
      refine ⟨_, connective_ofBool _ x y, ?_⟩
      rw [BinaryOp.denote, truth_ofBool, truth_ofBool]
  | or hl hr ihl ihr =>
      intro hdiv hrange hvars st
      obtain ⟨hdl, hdr, -⟩ := hdiv
      obtain ⟨hil, hir, -⟩ := hrange
      obtain ⟨hvl, hvr⟩ := List.forall_mem_append.mp hvars
      refine addsValues_binary (ihl hdl hil hvl st) (ihr hdr hir hvr) fun a b hda hdb => ?_
      obtain ⟨x, hx⟩ := denote_boolean ctx tup hl
      obtain ⟨y, hy⟩ := denote_boolean ctx tup hr
      obtain rfl := Option.some.inj (hda.symm.trans hx)
      obtain rfl := Option.some.inj (hdb.symm.trans hy)
      refine ⟨_, connective_ofBool _ x y, ?_⟩
      rw [BinaryOp.denote, truth_ofBool, truth_ofBool]

/-- Every variable is visited. -/
theorem AddsValues.visited {x : Variable} {e : Expr} : ∀ {st : List QueryResult},
    AddsValues raw ctx tup e st → x ∈ e.variables →
      ∃ st', AddsValue raw ctx tup (.var x) st' := by
  induction e with
  | intLiteral i => exact fun _ hx => absurd hx List.not_mem_nil
  | uint64Literal n => exact fun _ hx => absurd hx List.not_mem_nil
  | doubleLiteral d => exact fun _ hx => absurd hx List.not_mem_nil
  | stringLiteral s => exact fun _ hx => absurd hx List.not_mem_nil
  | timeLiteral t => exact fun _ hx => absurd hx List.not_mem_nil
  | var y =>
      intro st h hx
      obtain rfl := List.mem_singleton.mp hx
      exact ⟨st, h⟩
  | binary op l r ihl ihr =>
      intro st h hx
      obtain ⟨-, hl, hr⟩ := h
      rcases List.mem_append.mp hx with hx | hx
      · exact ihl hl hx
      · obtain ⟨a, -, hda⟩ := hl.head
        exact ihr (hr a hda) hx

/-- Arithmetic that has a value stays in the range of `int`. -/
theorem AddsValues.staysInRange {e : Expr} : ∀ {st : List QueryResult},
    AddsValues raw ctx tup e st → StaysInRange ctx tup e := by
  induction e with
  | intLiteral i => exact fun _ => trivial
  | uint64Literal n => exact fun _ => trivial
  | doubleLiteral d => exact fun _ => trivial
  | stringLiteral s => exact fun _ => trivial
  | timeLiteral t => exact fun _ => trivial
  | var x => exact fun _ => trivial
  | binary op l r ihl ihr =>
      intro st h
      obtain ⟨⟨v, -, hd⟩, hl, hr⟩ := h
      obtain ⟨a, -, hda⟩ := hl.head
      refine ⟨ihl hl, ihr (hr a hda), ?_⟩
      rintro m i j rfl hi hj
      rw [denote, hi, hj, BinaryOp.denote, mathOp] at hd
      cases hint : intMathOp m i j with
      | ok c => exact fits_of_intMathOp hint
      | error err =>
          rw [hint] at hd
          cases hd

theorem compositional_of_adds {e : Expr} (h : AddsValues raw ctx tup e []) :
    Compositional raw ctx tup e := by
  obtain ⟨v, hv, hd⟩ := h.head
  refine ⟨h, ⟨v, ?_, hd⟩, fun hty => ?_⟩
  · rw [interpretExpression, hv]
    rfl
  · obtain ⟨b, hb⟩ := denote_boolean ctx tup hty
    obtain rfl := Option.some.inj (hd.symm.trans hb)
    rw [interpretBoolExpression, hv, hb, truth_ofBool]
    cases b with
    | false => rfl
    | true => rfl

/-- The interpreter computes the meaning of a well-typed expression, adding one
value to the stack for each sub-expression whatever is in memory that is not
initialised, if and only if every variable stands for a number or a string of
the tuple or for a property that its node or relationship has, and the
arithmetic on `int`s stays in their range. -/
theorem compositional_iff_pushes {ctx : ExprCtx} {tup : List QueryResult} {e : Expr} {ty : ExprType}
    (hty : WellTyped e ty) (hdiv : NoDivisionByZero ctx tup e) :
    (∀ raw, Compositional raw ctx tup e) ↔
      (∀ x ∈ e.variables, Pushes ctx tup x) ∧ StaysInRange ctx tup e := by
  constructor
  · intro h
    refine ⟨fun x hx => ?_, (h junk).adds.staysInRange⟩
    obtain ⟨st, v, hv, hd⟩ := (h junk).adds.visited hx
    simp only [visit, bind, Except.bind] at hv
    split at hv
    · cases hv
    · next vs hvs =>
        have happ : vs ++ st = [v] ++ st := Except.ok.inj hv
        obtain rfl := List.append_cancel_right happ
        exact pushes_of_visitVariable hvs hd
  · rintro ⟨hvars, hrange⟩ raw
    exact compositional_of_adds (addsValues_of_pushes hty hdiv hrange hvars [])

/-- A node at address 7 with the integer 25 as its property 3. -/
def onePropertyCtx : ExprCtx where
  nodeProperties := ⟨fun id => if id = 0 then some
  ⟨UNKNOWN, 7, [⟨3, .int, 25⟩]⟩ else none, setsPerChunk⟩
  rshipProperties := PropertyList.empty
  nodePropertyList := fun _ => 0
  rshipPropertyList := fun _ => UNKNOWN
  lookupCode := fun _ => ""

/-- `$0.age < 30 AND $1 = 5`, where the node has the property. -/
theorem compositional_iff_pushes_and :
    Compositional PItem.zero onePropertyCtx [.node 7, .int 5]
      (.binary .and (.binary (.cmp .lt) (.var ⟨0, "age", 3, .int⟩) (.intLiteral 30))
        (.binary (.cmp .eq) (.var ⟨1, "", UNKNOWN_CODE, .int⟩) (.intLiteral 5))) := by
  have hnum : ExprType.Comparable .int .int := ⟨by decide, by decide, .inl rfl⟩
  refine (compositional_iff_pushes
    (.and (.cmp (by decide) (.var ⟨0, "age", 3, .int⟩ (by decide)) (.intLiteral 30) hnum)
      (.cmp (by decide) (.var ⟨1, "", UNKNOWN_CODE, .int⟩ (by decide)) (.intLiteral 5) hnum))
    ?_).mpr ⟨?_, ?_⟩ PItem.zero
  · simp [NoDivisionByZero]
  · intro x hx
    have hx' : x = ⟨0, "age", 3, .int⟩ ∨ x = ⟨1, "", UNKNOWN_CODE, .int⟩ := by
      simpa [Expr.variables] using hx
    rcases hx' with rfl | rfl
    · exact ⟨by decide, ⟨3, .int, 25⟩, rfl, rfl⟩
    · trivial
  · simp [StaysInRange]

/-- `1 = 1 OR $0.name = 5`. -/
def orMissing : Expr :=
  .binary .or (.binary (.cmp .eq) (.intLiteral 1) (.intLiteral 1))
    (.binary (.cmp .eq) (.var ⟨0, "name", 4, .int⟩) (.intLiteral 5))

/-- When the node does not have the property, the second comparison takes the
result of the first one as its operand. -/
theorem or_with_missing_property :
    (WellTyped orMissing .boolean ∧ NoDivisionByZero onePropertyCtx [.node 7] orMissing) ∧
      interpretBoolExpression PItem.zero onePropertyCtx [.node 7] orMissing = .ok false ∧
      truth (denote onePropertyCtx [.node 7] orMissing) = true ∧
      ¬Compositional PItem.zero onePropertyCtx [.node 7] orMissing := by
  have hnum : ExprType.Comparable .int .int := ⟨by decide, by decide, .inl rfl⟩
  have hty : WellTyped orMissing .boolean :=
    .or (.cmp (by decide) (.intLiteral 1) (.intLiteral 1) hnum)
      (.cmp (by decide) (.var ⟨0, "name", 4, .int⟩ (by decide)) (.intLiteral 5) hnum)
  have hcode : interpretBoolExpression PItem.zero onePropertyCtx [.node 7] orMissing = .ok false :=
    rfl
  have hmean : truth (denote onePropertyCtx [.node 7] orMissing) = true := rfl
  refine ⟨⟨hty, by simp [orMissing, NoDivisionByZero]⟩, hcode, hmean, fun h => ?_⟩
  have hres := h.boolResult hty
  rw [hcode, hmean] at hres
  cases hres

end Poseidon
