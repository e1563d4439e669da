import Poseidon.Lib.FallibleSort
import Poseidon.Query.Expr

/-!
# Sorting

`order_by` of `qop.hpp` and `qop.cpp`, and the sorts of `result_set`. An
operator has its own list of results, but neither the specification nor the
comparison function is a member of it: `sort_spec_` is a variable of the
program and `cmp_func_` a static member, and the constructors assign to them.

`std::list::sort` is stable, and what the comparison throws leaves it; the
elements are then in an order that is not specified.
-/

namespace Poseidon

/-- `qr_tuple`. -/
abbrev QrTuple := List QueryResult

/-- What a comparison can end in: a failed assertion, the exceptions of
`boost::get` and of a comparison, and those of the property lists. -/
inductive SortErr where
  | assertion
  | badGet
  | queryProcessingError
  | store (e : Err)
  deriving DecidableEq, Repr

/-- `qr_type`, the numbers that `which()` returns. -/
inductive QrType where
  | nodePtr
  | rshipPtr
  | int
  | double
  | string
  | uint64
  | ptime
  | array
  | null
  | nodeDescr
  | rshipDescr
  deriving DecidableEq, Repr

inductive SortOrder where
  | none
  | asc
  | desc
  deriving DecidableEq, Repr

/-- `sort_spec`. -/
structure SortSpec where
  sOrder : SortOrder
  vidx : Nat
  pcode : Nat
  cmpType : QrType
  deriving DecidableEq, Repr

/-- `qv_from_pitem`; an item of another type leaves the default-constructed
value, which is a null pointer. -/
def qvFromPItem (p : PItem) : QueryResult :=
  match p.typecode with
  | .int => .int (UInt32.ofNat p.value).toInt32
  | .double => .double (Float.ofBits (UInt64.ofNat p.value))
  | .dcode => .int (UInt32.ofNat p.value).toInt32
  | .uint64 => .uint64 (UInt64.ofNat p.value)
  | .ptime => .ptime (UInt64.ofNat p.value).toInt64.toInt
  | .unused | .none => .node 0

/-- The three results of a comparison of two values of one type. -/
def threeWay {β : Type} [BEq β] [LT β] [DecidableLT β] (i1 i2 : β) : Int :=
  if i1 == i2 then 0 else if i1 < i2 then -1 else 1

/-- One case of the switch: both values as values of the type. -/
def compareAs {β : Type} [BEq β] [LT β] [DecidableLT β] (get : QueryResult → Option β)
    (v1 v2 : QueryResult) : Except SortErr Int :=
  match get v1, get v2 with
  | some i1, some i2 => .ok (threeWay i1 i2)
  | _, _ => .error .queryProcessingError

def QueryResult.int? : QueryResult → Option Int32
  | .int i => some i
  | _ => none

def QueryResult.uint64? : QueryResult → Option UInt64
  | .uint64 n => some n
  | _ => none

def QueryResult.double? : QueryResult → Option Float
  | .double d => some d
  | _ => none

def QueryResult.string? : QueryResult → Option String
  | .str s => some s
  | _ => none

def QueryResult.ptime? : QueryResult → Option Int
  | .ptime t => some t
  | _ => none

section

variable (ctx : ExprCtx)

/-- `get_property_value` of a node. -/
def nodePropertyValue (p pcode : Nat) : Except SortErr PItem :=
  match ctx.nodeProperties.propertyValue (ctx.nodePropertyList p) pcode with
  | .ok item => .ok item
  | .error e => .error (.store e)

/-- The values that a key compares. The second value has to be a node if the
first one is; a relationship is kept. -/
def sortValues (sp : SortSpec) (v1 v2 : QueryResult) :
    Except SortErr (QueryResult × QueryResult) :=
  if sp.pcode > 0 then
    match v1 with
    | .node n1 => do
        let pv1 ← nodePropertyValue ctx n1 sp.pcode
        match v2 with
        | .node n2 =>
            let pv2 ← nodePropertyValue ctx n2 sp.pcode
            .ok (qvFromPItem pv1, qvFromPItem pv2)
        | _ => .error .badGet
    | _ => .ok (v1, v2)
  else .ok (v1, v2)

/-- The switch over the type of the comparison. -/
def compareTyped (ty : QrType) (v1 v2 : QueryResult) : Except SortErr Int :=
  match ty with
  | .uint64 => compareAs QueryResult.uint64? v1 v2
  | .string => compareAs QueryResult.string? v1 v2
  | .int => compareAs QueryResult.int? v1 v2
  | .double => compareAs QueryResult.double? v1 v2
  | .ptime => compareAs QueryResult.ptime? v1 v2
  | _ => .ok 1

/-- `qr_less`. -/
def qrLess (q1 q2 : QrTuple) (sp : SortSpec) : Except SortErr Int :=
  match q1[sp.vidx]?, q2[sp.vidx]? with
  | some v1, some v2 => do
      let (v1, v2) ← sortValues ctx sp v1 v2
      compareTyped sp.cmpType v1 v2
  | _, _ => .error .assertion

/-- `qr_compare`. -/
def qrCompare (qr1 qr2 : QrTuple) : List SortSpec → Except SortErr Bool
  | [] => .ok false
  | sp :: spec => do
      let res ← qrLess ctx qr1 qr2 sp
      if sp.sOrder = .asc ∧ res < 0 ∨ sp.sOrder = .desc ∧ res > 0 then .ok true
      else if res = 0 then qrCompare qr1 qr2 spec
      else .ok false

/-- `sort` of a `result_set` by a specification. -/
def sortBySpec (spec : List SortSpec) (data : List QrTuple) :
    Except SortErr (List QrTuple) :=
  StableSort.sortM (fun v1 v2 => qrCompare ctx v1 v2 spec) data

/-- `sort` of a `result_set` by a comparison function. -/
def sortByFunc (cmp : QrTuple → QrTuple → Bool) (data : List QrTuple) :
    Except SortErr (List QrTuple) :=
  StableSort.sortM (fun v1 v2 => .ok (cmp v1 v2)) data

end

/-! ## The operators -/

/-- What an operator is constructed with. -/
inductive Criterion where
  | spec (s : List SortSpec)
  | func (f : QrTuple → QrTuple → Bool)

/-- The two variables, and `results_` of all operators that there are. -/
structure OrderBys where
  sortSpec : List SortSpec
  cmpFunc : Option (QrTuple → QrTuple → Bool)
  results : List (List QrTuple)

namespace OrderBys

/-- No operator has been constructed. -/
def initial : OrderBys := ⟨[], none, []⟩

/-- The constructors of `order_by`. -/
def construct (st : OrderBys) : Criterion → OrderBys
  | .spec s => { st with sortSpec := s, results := st.results ++ [[]] }
  | .func f => { st with cmpFunc := some f, results := st.results ++ [[]] }

/-- `process` of operator `i`. -/
def process (st : OrderBys) (i : Nat) (v : QrTuple) : OrderBys :=
  { st with results := st.results.modify i (· ++ [v]) }

/-- The sort of `finish`. -/
def sort (st : OrderBys) (ctx : ExprCtx) (data : List QrTuple) :
    Except SortErr (List QrTuple) :=
  match st.cmpFunc with
  | some f => sortByFunc f data
  | none => sortBySpec ctx st.sortSpec data

/-- `finish` of operator `i`: what is passed on, and the state afterwards. -/
def finish (st : OrderBys) (ctx : ExprCtx) (i : Nat) :
    Except SortErr (List QrTuple × OrderBys) := do
  let data ← st.sort ctx (st.results.getD i [])
  .ok (data, { st with results := st.results.set i data })

end OrderBys

end Poseidon
