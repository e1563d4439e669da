import Poseidon.Store.Properties

/-!
# Expressions and their interpreter

`expression.hpp` and `expr_interpreter.cpp`. The interpreter visits an
expression from the leaves up and keeps its operands on a stack. A variable
whose property is not there pushes nothing, and an operator looks only at the
height of the whole stack to see whether it has operands.

A node or a relationship in a tuple is a pointer; the context says where the
property list of the record starts. `double` is Lean's `Float`, and a time is
its number of ticks.
-/

namespace Poseidon

/-- What an evaluation can end in other than a value: the exceptions of the
source, and what is undefined there (a division by zero, a result of `int`
arithmetic that is no `int`, a stack that is popped when it is empty). -/
inductive EvalErr where
  | queryProcessingError
  | badGet
  | badOptionalAccess
  | divisionByZero
  | overflow
  | emptyStack
  | store (e : Err)
  deriving DecidableEq, Repr

mutual

/-- `query_result`. -/
inductive QueryResult where
  | node (p : Nat)
  | rship (p : Nat)
  | int (i : Int32)
  | double (d : Float)
  | str (s : String)
  | uint64 (n : UInt64)
  | ptime (t : Int)
  | array (elems : List UInt64)
  | null
  | nodeDescr (d : Description)
  | rshipDescr (d : Description)

/-- `node_description` and `rship_description`; only a relationship has
ends. -/
inductive Description where
  | mk (id : Nat) (ends : Option (Nat × Nat)) (label : String)
      (properties : List (String × QueryResult))

end

def Description.id : Description → Nat
  | .mk id _ _ _ => id

def Description.ends : Description → Option (Nat × Nat)
  | .mk _ ends _ _ => ends

def Description.label : Description → String
  | .mk _ _ label _ => label

def Description.properties : Description → List (String × QueryResult)
  | .mk _ _ _ ps => ps

/-- `expr_type`, as far as an expression can have it. -/
inductive ExprType where
  | int
  | uint64
  | double
  | string
  | datetime
  | boolean
  | node
  | relationship
  deriving DecidableEq, Repr

inductive MathOp where
  | plus
  | minus
  | mult
  | div
  | mod
  deriving DecidableEq, Repr

inductive CmpOp where
  | eq
  | neq
  | le
  | lt
  | ge
  | gt
  deriving DecidableEq, Repr

/-- `variable`; the code is `UNKNOWN_CODE` when no property is asked for. -/
structure Variable where
  id : Nat
  pname : String
  pcode : Nat
  rtype : ExprType
  deriving DecidableEq, Repr

/-- `expr_op` of a `binary_expression`. -/
inductive BinaryOp where
  | math (op : MathOp)
  | cmp (op : CmpOp)
  | and
  | or
  deriving DecidableEq, Repr

/-- `expression`, without function calls and regular expressions. -/
inductive Expr where
  | intLiteral (i : Int32)
  | uint64Literal (n : UInt64)
  | doubleLiteral (d : Float)
  | stringLiteral (s : String)
  | timeLiteral (t : Int)
  | var (x : Variable)
  | binary (op : BinaryOp) (left right : Expr)

/-! ## Values -/

/-- `qv_equal`. -/
def qvEqual : QueryResult → QueryResult → Bool
  | .node a, .node b => a == b
  | .rship a, .rship b => a == b
  | .int a, .int b => a == b
  | .double a, .double b => a == b
  | .str a, .str b => a == b
  | .uint64 a, .uint64 b => a == b
  | .ptime a, .ptime b => a == b
  | .null, .null => true
  | .int a, .uint64 b => a.toInt64.toUInt64 == b
  | .uint64 a, .int b => a == b.toInt64.toUInt64
  | .double a, .uint64 b => a == b.toFloat
  | .uint64 a, .double b => a.toFloat == b
  | .double a, .int b => a == b.toFloat
  | .int a, .double b => a.toFloat == b
  | _, _ => false

/-- `less_than`. -/
def lessThan : QueryResult → QueryResult → Bool
  | .int a, .int b => decide (a < b)
  | .double a, .double b => decide (a < b)
  | .str a, .str b => decide (a < b)
  | .uint64 a, .uint64 b => decide (a < b)
  | .ptime a, .ptime b => decide (a < b)
  | .int a, .uint64 b => decide (a.toInt64.toUInt64 < b)
  | .uint64 a, .int b => decide (a < b.toInt64.toUInt64)
  | .double a, .uint64 b => decide (a < b.toFloat)
  | .uint64 a, .double b => decide (a.toFloat < b)
  | .double a, .int b => decide (a < b.toFloat)
  | .int a, .double b => decide (a.toFloat < b)
  | _, _ => false

/-- `greater_than`. -/
def greaterThan : QueryResult → QueryResult → Bool
  | .int a, .int b => decide (a > b)
  | .double a, .double b => decide (a > b)
  | .str a, .str b => decide (a > b)
  | .uint64 a, .uint64 b => decide (a > b)
  | .ptime a, .ptime b => decide (a > b)
  | .int a, .uint64 b => decide (a.toInt64.toUInt64 > b)
  | .uint64 a, .int b => decide (a > b.toInt64.toUInt64)
  | .double a, .uint64 b => decide (a > b.toFloat)
  | .uint64 a, .double b => decide (a.toFloat > b)
  | .double a, .int b => decide (a > b.toFloat)
  | .int a, .double b => decide (a.toFloat > b)
  | _, _ => false

/-- The comparison of a predicate. -/
def CmpOp.holds : CmpOp → QueryResult → QueryResult → Bool
  | .eq, a, b => qvEqual a b
  | .neq, a, b => !qvEqual a b
  | .le, a, b => lessThan a b || qvEqual a b
  | .lt, a, b => lessThan a b
  | .ge, a, b => greaterThan a b || qvEqual a b
  | .gt, a, b => greaterThan a b

/-- The result of an operation on integers, for a remainder the quotient. -/
def MathOp.exact (op : MathOp) (a b : Int) : Int :=
  match op with
  | .plus => a + b
  | .minus => a - b
  | .mult => a * b
  | .div | .mod => a.tdiv b

/-- The result of an operation on two `int`s is an `int`. -/
def MathOp.Fits (op : MathOp) (a b : Int32) : Prop :=
  -2 ^ 31 ≤ op.exact a.toInt b.toInt ∧ op.exact a.toInt b.toInt < 2 ^ 31

instance (op : MathOp) (a b : Int32) : Decidable (op.Fits a b) :=
  inferInstanceAs (Decidable (_ ∧ _))

/-- `int_math_op`. -/
def intMathOp (op : MathOp) (a b : Int32) : Except EvalErr Int32 :=
  if (op = .div ∨ op = .mod) ∧ b = 0 then .error .divisionByZero
  else if op.Fits a b then
    .ok (match op with
      | .plus => a + b
      | .minus => a - b
      | .mult => a * b
      | .div => a / b
      | .mod => a % b)
  else .error .overflow

/-- `uint64_math_op`. -/
def uint64MathOp (op : MathOp) (a b : UInt64) : Except EvalErr UInt64 :=
  match op with
  | .plus => .ok (a + b)
  | .minus => .ok (a - b)
  | .mult => .ok (a * b)
  | .div => if b = 0 then .error .divisionByZero else .ok (a / b)
  | .mod => if b = 0 then .error .divisionByZero else .ok (a % b)

/-- `double_math_op`. -/
def doubleMathOp (op : MathOp) (a b : Float) : Float :=
  match op with
  | .plus => a + b
  | .minus => a - b
  | .mult => a * b
  | .div => a / b
  | .mod => 0

/-- The value of a `math_expression`; for other operands it is a
`query_result` that has been default-constructed, which is a null pointer. -/
def mathOp (op : MathOp) : QueryResult → QueryResult → Except EvalErr QueryResult
  | .int a, .int b => .int <$> intMathOp op a b
  | .double a, .double b => .ok (.double (doubleMathOp op a b))
  | .uint64 a, .uint64 b => .uint64 <$> uint64MathOp op a b
  | .int a, .uint64 b => .uint64 <$> uint64MathOp op a.toInt64.toUInt64 b
  | .uint64 a, .int b => .uint64 <$> uint64MathOp op a b.toInt64.toUInt64
  | .double a, .int b => .ok (.double (doubleMathOp op a b.toFloat))
  | .int a, .double b => .ok (.double (doubleMathOp op a.toFloat b))
  | .double a, .uint64 b => .ok (.double (doubleMathOp op a b.toFloat))
  | .uint64 a, .double b => .ok (.double (doubleMathOp op a.toFloat b))
  | _, _ => .ok (.node 0)

/-- `qv_get_int`. -/
def qvGetInt : QueryResult → Except EvalErr Int32
  | .int i => .ok i
  | _ => .error .badGet

/-- `query_result(res ? 1 : 0)`. -/
def ofBool (b : Bool) : QueryResult := .int (if b then 1 else 0)

/-! ## Variables -/

/-- What the interpreter reads of the database. -/
structure ExprCtx where
  nodeProperties : PropertyList
  rshipProperties : PropertyList
  nodePropertyList : Nat → Nat
  rshipPropertyList : Nat → Nat
  lookupCode : Nat → String

/-- The value of an item, for the typecodes that have one. -/
def pitemValue (ctx : ExprCtx) (res : PItem) : Option QueryResult :=
  match res.typecode with
  | .int => some (.int (UInt32.ofNat res.value).toInt32)
  | .double => some (.double (Float.ofBits (UInt64.ofNat res.value)))
  | .uint64 => some (.uint64 (UInt64.ofNat res.value))
  | .ptime => some (.ptime (UInt64.ofNat res.value).toInt64.toInt)
  | .dcode => some (.str (ctx.lookupCode res.value))
  | .unused | .none => none

/-- `get_property<T>` of a description for the result type of the variable,
and `value()`; for the other types there is nothing to push. -/
def descrProperty (d : Description) (x : Variable) : Except EvalErr (Option QueryResult) :=
  match x.rtype with
  | .boolean | .node | .relationship => .ok none
  | ty =>
      match d.properties.lookup x.pname with
      | none => .error .badOptionalAccess
      | some v =>
          match ty, v with
          | .int, .int i => .ok (some (.int i))
          | .uint64, .uint64 n => .ok (some (.uint64 n))
          | .double, .double d => .ok (some (.double d))
          | .string, .str s => .ok (some (.str s))
          | .datetime, .ptime t => .ok (some (.ptime t))
          | _, _ => .error .queryProcessingError

section

variable (raw : PItem) (ctx : ExprCtx) (tup : List QueryResult)

/-- A record or one of its properties: what is pushed, and the item `res` that
is looked at afterwards. -/
def recordValue (self : QueryResult) (t : PropertyList) (list : Nat) (x : Variable) :
    Except EvalErr (List QueryResult × PItem) :=
  if x.pcode = UNKNOWN_CODE then .ok ([self], raw)
  else
    match t.propertyValue list x.pcode with
    | .ok item => .ok ([], item)
    | .error e => .error (.store e)

/-- A description or one of its properties. -/
def descrValue (self : QueryResult) (d : Description) (x : Variable) :
    Except EvalErr (List QueryResult × PItem) :=
  if x.pname = "" ∧ x.pcode = UNKNOWN_CODE then .ok ([self], raw)
  else (descrProperty d x).map fun v => (v.toList, raw)

/-- `visit(variable)`: the values that are pushed. `raw` is what is in the
memory of `p_item res`, which is not initialised. -/
def visitVariable (x : Variable) : Except EvalErr (List QueryResult) :=
  match tup[x.id]? with
  | none => .error .queryProcessingError
  | some inp =>
      match inp with
      | .uint64 n => .ok [.uint64 n]
      | .int i => .ok [.int i]
      | .double d => .ok [.double d]
      | .str s => .ok [.str s]
      | .node p => finish (recordValue raw inp ctx.nodeProperties (ctx.nodePropertyList p) x)
      | .rship p => finish (recordValue raw inp ctx.rshipProperties (ctx.rshipPropertyList p) x)
      | .nodeDescr d => finish (descrValue raw inp d x)
      | .rshipDescr d => finish (descrValue raw inp d x)
      | .ptime _ | .array _ | .null => finish (.ok ([], raw))
where
  /-- The switch over the typecode of `res`. -/
  finish : Except EvalErr (List QueryResult × PItem) → Except EvalErr (List QueryResult)
    | .ok (vs, res) => .ok ((pitemValue ctx res).toList ++ vs)
    | .error e => .error e

/-! ## Operators -/

/-- `AND` and `OR` on two values. -/
def connective (f : Bool → Bool → Bool) (v1 v2 : QueryResult) : Except EvalErr QueryResult := do
  let a ← qvGetInt v1
  let b ← qvGetInt v2
  .ok (ofBool (f (a != 0) (b != 0)))

/-- What is pushed for the two operands. -/
def BinaryOp.apply : BinaryOp → QueryResult → QueryResult → Except EvalErr QueryResult
  | .math op, v1, v2 => mathOp op v1 v2
  | .cmp op, v1, v2 => .ok (ofBool (op.holds v1 v2))
  | .and, v1, v2 => connective (· && ·) v1 v2
  | .or, v1, v2 => connective (· || ·) v1 v2

/-- What is left to do without valid operands. -/
def BinaryOp.onInvalid : BinaryOp → Except EvalErr Unit
  | .cmp .neq => .error .queryProcessingError
  | _ => .ok ()

/-- The visit of a binary expression after those of its operands:
`valid_operands` replaces the top by 0 when there are less than two values on
the stack, otherwise two values are popped and one is pushed. -/
def onOperands (op : BinaryOp) : List QueryResult → Except EvalErr (List QueryResult)
  | v2 :: v1 :: st => do
      let v ← op.apply v1 v2
      .ok (v :: st)
  | [_] => do
      op.onInvalid
      .ok [.int 0]
  | [] => .error .emptyStack

/-- `accept` of the `expr_eval_visitor`: the stack afterwards. -/
def visit : Expr → List QueryResult → Except EvalErr (List QueryResult)
  | .intLiteral i, st => .ok (.int i :: st)
  | .uint64Literal n, st => .ok (.uint64 n :: st)
  | .doubleLiteral d, st => .ok (.double d :: st)
  | .stringLiteral s, st => .ok (.str s :: st)
  | .timeLiteral t, st => .ok (.ptime t :: st)
  | .var x, st => do
      let vs ← visitVariable raw ctx tup x
      .ok (vs ++ st)
  | .binary op l r, st => do
      let st ← visit l st
      let st ← visit r st
      onOperands op st

/-- `result`. -/
def popResult : List QueryResult → Except EvalErr QueryResult
  | v :: _ => .ok v
  | [] => .error .emptyStack

/-- `interpret_expression`. -/
def interpretExpression (ex : Expr) : Except EvalErr QueryResult := do
  let st ← visit raw ctx tup ex []
  popResult st

/-- `interpret_bool_expression`. -/
def interpretBoolExpression (ex : Expr) : Except EvalErr Bool := do
  let st ← visit raw ctx tup ex []
  let v ← popResult st
  let i ← qvGetInt v
  .ok (i != 0)

end

end Poseidon
