import Poseidon.Query.Ctx
import Poseidon.Query.OrderBy

/-!
# The values of a query

What the operators do with a `query_result`: property values as the values of
a type, `get_var_value`, the equality of the variant and its hash. A node or
a relationship in a tuple is a pointer; the context says which record it
points into.
-/

namespace Poseidon

/-- What an operator can end in: the exceptions of `boost::get` and of the
store, and an access behind the end of a tuple, which is not checked. -/
inductive QopErr where
  | badGet
  | outOfBounds
  | expr (e : EvalErr)
  | store (e : Err)
  deriving DecidableEq, Repr

/-- What the operators read of the database. `raw` is what is in the memory
of a `p_item` that is not initialised. -/
structure QueryCtx where
  db : GraphDb
  xid : Nat
  nodeRef : Nat → Ref
  rshipRef : Nat → Ref
  lookupString : String → Nat
  lookupCode : Nat → String
  raw : PItem

/-- The code of a property name, `UNKNOWN_CODE` if there is no name. -/
def QueryCtx.pkey (ctx : QueryCtx) (property : String) : Nat :=
  if property = "" then UNKNOWN_CODE else ctx.lookupString property

/-! ## Properties as values of a type -/

section

variable (ctx : QueryCtx)

/-- `get_valid_node_property_value` and `get_valid_rship_property_value`. -/
def validPropertyValue {α : Type} (t : Table α) (n : Ref) (pkey : Nat) : Except QopErr PItem :=
  match t.getValidPropertyValue ctx.db ctx.xid n pkey with
  | .ok item => .ok (item.getD ctx.raw)
  | .error e => .error (.store e)

/-- `get_property_value` with the code of the property. -/
def getPropertyValue (v : QrTuple) (var pkey : Nat) : Except QopErr PItem :=
  match v[var]? with
  | none => .error .outOfBounds
  | some (.node p) => validPropertyValue ctx nodeTable (ctx.nodeRef p) pkey
  | some (.rship p) => validPropertyValue ctx rshipTable (ctx.rshipRef p) pkey
  | some _ => .ok ctx.raw

namespace PItem

def int (res : PItem) : Int32 := (UInt32.ofNat res.value).toInt32

def uint64 (res : PItem) : UInt64 := UInt64.ofNat res.value

def double (res : PItem) : Float := Float.ofBits (UInt64.ofNat res.value)

/-- `get<ptime>`: the number of ticks. -/
def ptime (res : PItem) : Int := (UInt64.ofNat res.value).toInt64.toInt

/-- `get_property_value<int>`. -/
def asInt (res : PItem) : Int32 :=
  match res.typecode with
  | .int => res.int
  | .double => res.double.toInt32
  | .uint64 => res.uint64.toUInt32.toInt32
  | _ => 0

/-- `get_property_value<uint64_t>`. -/
def asUint64 (res : PItem) : UInt64 :=
  match res.typecode with
  | .int => res.int.toInt64.toUInt64
  | .double => res.double.toUInt64
  | .uint64 => res.uint64
  | _ => 0

/-- `get_property_value<double>`. -/
def asDouble (res : PItem) : Float :=
  match res.typecode with
  | .int => res.int.toFloat
  | .double => res.double
  | .uint64 => res.uint64.toFloat
  | _ => 0

/-- `get_property_value<ptime>`: the typecode is not looked at. -/
def asPtime (res : PItem) : Int := res.ptime

end PItem

/-- `std::to_string` of a `double`. -/
def doubleText (d : Float) : String :=
  if d.isNaN then if d.toBits >>> 63 = 1 then "-nan" else "nan" else d.toString

/-- `get_property_value<std::string>`. -/
def PItem.asString (lookupCode : Nat → String) (res : PItem) : String :=
  match res.typecode with
  | .dcode => lookupCode res.value
  | .int => toString res.int.toInt
  | .double => doubleText res.double
  | .uint64 => toString res.uint64.toNat
  | _ => ""

/-- `get_var_value`: a node or a relationship is replaced by a property of
it; for the other result types the result is default-constructed, which is a
null pointer. -/
def getVarValue (v : QrTuple) (x : Variable) : Except QopErr QueryResult :=
  match v[x.id]? with
  | none => .error .outOfBounds
  | some inp =>
      match inp with
      | .node _ | .rship _ =>
          match x.rtype with
          | .int => (getPropertyValue ctx v x.id x.pcode).map fun res => .int res.asInt
          | .uint64 => (getPropertyValue ctx v x.id x.pcode).map fun res => .uint64 res.asUint64
          | .double => (getPropertyValue ctx v x.id x.pcode).map fun res => .double res.asDouble
          | .string =>
              (getPropertyValue ctx v x.id x.pcode).map fun res =>
                .str (res.asString ctx.lookupCode)
          | .datetime => (getPropertyValue ctx v x.id x.pcode).map fun res => .ptime res.asPtime
          | .boolean | .node | .relationship => .ok (.node 0)
      | _ => .ok inp

end

/-! ## Equality and hash -/

/-- `==` of the variant: the same type and equal values of it. The properties
of a description are not compared. -/
def variantEq : QueryResult → QueryResult → Bool
  | .node a, .node b => a == b
  | .rship a, .rship b => a == b
  | .int a, .int b => a == b
  | .double a, .double b => a == b
  | .str a, .str b => a == b
  | .uint64 a, .uint64 b => a == b
  | .ptime a, .ptime b => a == b
  | .array a, .array b => a == b
  | .null, .null => true
  | .nodeDescr a, .nodeDescr b => a.id == b.id && a.label == b.label
  | .rshipDescr a, .rshipDescr b => a.id == b.id && a.ends == b.ends && a.label == b.label
  | _, _ => false

/-- The instances of `boost::hash` that the hash of a value uses. -/
structure BoostHash where
  int : Int32 → UInt64
  double : Float → UInt64
  string : String → UInt64
  uint64 : UInt64 → UInt64
  ptime : Int → UInt64

/-- `hash<query_result>`, which `qop::hasher` calls. -/
def BoostHash.hasher (h : BoostHash) : QueryResult → UInt64
  | .int i => h.int i
  | .double d => h.double d
  | .str s => h.string s
  | .uint64 n => h.uint64 n
  | .ptime t => h.ptime t
  | _ => 0

/-- Equal values have equal hashes, as far as equal doubles do: `0.0` and
`-0.0` are equal. -/
theorem BoostHash.hasher_congr (h : BoostHash)
    (hdouble : ∀ a b : Float, (a == b) = true → h.double a = h.double b) {a b : QueryResult}
    (heq : variantEq a b = true) : h.hasher a = h.hasher b := by
  cases a <;> cases b <;> simp only [variantEq, Bool.false_eq_true] at heq <;>
    simp only [hasher]
  all_goals first
    | rw [eq_of_beq heq]
    | exact hdouble _ _ heq

/-! ## What a value stands for -/

/-- A value without what does not tell it from others: a pointer stands for
the record it points into, a description for what `==` compares of it. -/
inductive ValueId where
  | node (id : Nat)
  | rship (id : Nat)
  | int (i : Int32)
  | double (bits : UInt64)
  | str (s : String)
  | uint64 (n : UInt64)
  | ptime (t : Int)
  | array (elems : List UInt64)
  | null
  | nodeDescr (id : Nat) (label : String)
  | rshipDescr (id : Nat) (ends : Option (Nat × Nat)) (label : String)
  deriving DecidableEq, Repr

def valueId (ctx : QueryCtx) : QueryResult → ValueId
  | .node p => .node (ctx.nodeRef p).id
  | .rship p => .rship (ctx.rshipRef p).id
  | .int i => .int i
  | .double d => .double d.toBits
  | .str s => .str s
  | .uint64 n => .uint64 n
  | .ptime t => .ptime t
  | .array elems => .array elems
  | .null => .null
  | .nodeDescr d => .nodeDescr d.id d.label
  | .rshipDescr d => .rshipDescr d.id d.ends d.label

/-- What a tuple stands for. -/
def tupleId (ctx : QueryCtx) (v : QrTuple) : List ValueId := v.map (valueId ctx)

end Poseidon
