import Poseidon.Lib.HashTable
import Poseidon.Query.Values

/-!
# Aggregation

`aggregate` and `group_by` of `qop_aggregates.cpp`, as they run without
compiled code. Both keep one value for each aggregate expression and update
it tuple by tuple; they differ in how a sum begins and in what becomes of a
value that no case of the last switch handles.

`group_by` finds the group of a tuple by a 64-bit mix of its key values. The
hashes of the standard library that go into it are parameters, and so is the
order in which the table is iterated.
-/

namespace Poseidon

inductive AggrFunc where
  | count
  | sum
  | min
  | max
  | avg
  deriving DecidableEq, Repr

/-- `aggregate::expr`. -/
structure AggrExpr where
  func : AggrFunc
  var : Nat
  property : String
  pkey : Nat
  aggrType : QrType
  deriving DecidableEq, Repr

/-- `val_t`. -/
inductive AggrVal where
  | double (d : Float)
  | int (i : Int32)
  | uint64 (n : UInt64)
  | str (s : String)
  | sumCnt (sum : Float) (cnt : Int32)

/-- A default-constructed `val_t`. -/
def AggrVal.none : AggrVal := .double 0

namespace AggrVal

def getInt : AggrVal → Except QopErr Int32
  | .int i => .ok i
  | _ => .error .badGet

def getDouble : AggrVal → Except QopErr Float
  | .double d => .ok d
  | _ => .error .badGet

def getString : AggrVal → Except QopErr String
  | .str s => .ok s
  | _ => .error .badGet

def getUint64 : AggrVal → Except QopErr UInt64
  | .uint64 n => .ok n
  | _ => .error .badGet

def getSumCnt : AggrVal → Except QopErr (Float × Int32)
  | .sumCnt sum cnt => .ok (sum, cnt)
  | _ => .error .badGet

end AggrVal

/-! ## Values of a tuple -/

section

variable (ctx : QueryCtx)

/-- The element of a tuple, as `get` reads it. -/
def getColumn {β : Type} (get : QueryResult → Option β) (v : QrTuple) (var : Nat) :
    Except QopErr β :=
  match v[var]? with
  | none => .error .outOfBounds
  | some q =>
      match get q with
      | some b => .ok b
      | none => .error .badGet

/-- `get_int_value` and its siblings: the element of the tuple, or a property
of it if there is a code. -/
def getTyped {β : Type} (get : QueryResult → Option β) (as : PItem → β) (v : QrTuple)
    (var pkey : Nat) : Except QopErr β :=
  if pkey = UNKNOWN_CODE then getColumn get v var
  else (getPropertyValue ctx v var pkey).map as

def getIntValue (v : QrTuple) (var pkey : Nat) : Except QopErr Int32 :=
  getTyped ctx QueryResult.int? PItem.asInt v var pkey

def getPtimeValue (v : QrTuple) (var pkey : Nat) : Except QopErr Int :=
  getTyped ctx QueryResult.ptime? PItem.asPtime v var pkey

/-- `qv_get_node`. -/
def QueryResult.node? : QueryResult → Option Nat
  | .node p => some p
  | _ => none

/-- `qv_get_relationship`. -/
def QueryResult.rship? : QueryResult → Option Nat
  | .rship p => some p
  | _ => none

/-- An `int` as a `double`, or a `double`. -/
def QueryResult.number? : QueryResult → Option Float
  | .int i => some i.toFloat
  | .double d => some d
  | _ => none

def getDoubleValue (v : QrTuple) (var pkey : Nat) : Except QopErr Float :=
  getTyped ctx QueryResult.number? PItem.asDouble v var pkey

def getStringValue (v : QrTuple) (var pkey : Nat) : Except QopErr String :=
  getTyped ctx QueryResult.string? (PItem.asString ctx.lookupCode) v var pkey

def getUint64Value (v : QrTuple) (var pkey : Nat) : Except QopErr UInt64 :=
  getTyped ctx QueryResult.uint64? PItem.asUint64 v var pkey

end

/-- `std::min`. -/
def stdMin {β : Type} [LT β] [DecidableLT β] (a b : β) : β := if b < a then b else a

/-- `std::max`. -/
def stdMax {β : Type} [LT β] [DecidableLT β] (a b : β) : β := if a < b then b else a

/-- The initial value of a minimum of strings. -/
def minString : String := "~~~~~~~~~~~~~~~"

/-- The initial value of a maximum of strings. -/
def maxString : String := "                "

namespace AggrExpr

/-- The constructors look the property names up. -/
def prepare (ctx : QueryCtx) (ex : AggrExpr) : AggrExpr :=
  { ex with pkey := ctx.pkey ex.property }

/-- The initial value of a minimum. The largest `double` is given by its
bits. -/
def initMin (ex : AggrExpr) : AggrVal :=
  match ex.aggrType with
  | .int => .int Int32.maxValue
  | .double => .double (Float.ofBits 0x7FEFFFFFFFFFFFFF)
  | .string => .str minString
  | .uint64 => .uint64 0xFFFFFFFFFFFFFFFF
  | _ => .none

/-- The initial value of a maximum; `min()` of `double` is the smallest
positive number. -/
def initMax (ex : AggrExpr) : AggrVal :=
  match ex.aggrType with
  | .int => .int Int32.minValue
  | .double => .double (Float.ofBits 0x0010000000000000)
  | .string => .str maxString
  | .uint64 => .uint64 0
  | _ => .none

section

variable (ctx : QueryCtx)

/-- The value that is kept and the one of the tuple, combined. -/
def combine {β : Type} (get : AggrVal → Except QopErr β) (put : β → AggrVal)
    (value : QrTuple → Nat → Nat → Except QopErr β) (op : β → β → β) (ex : AggrExpr)
    (v : QrTuple) (val : AggrVal) : Except QopErr AggrVal := do
  let a ← get val
  let b ← value v ex.var ex.pkey
  .ok (put (op a b))

/-- What a tuple makes of a value: `aggregate::process` and
`update_aggregates`. There is no sum of `uint64_t`. -/
def update (ex : AggrExpr) (v : QrTuple) (val : AggrVal) : Except QopErr AggrVal :=
  match ex.func with
  | .count => do
      let n ← val.getInt
      .ok (.int (n + 1))
  | .sum =>
      match ex.aggrType with
      | .int => combine AggrVal.getInt .int (getIntValue ctx) (· + ·) ex v val
      | .double => combine AggrVal.getDouble .double (getDoubleValue ctx) (· + ·) ex v val
      | _ => .ok val
  | .min =>
      match ex.aggrType with
      | .int => combine AggrVal.getInt .int (getIntValue ctx) stdMin ex v val
      | .double => combine AggrVal.getDouble .double (getDoubleValue ctx) stdMin ex v val
      | .string => combine AggrVal.getString .str (getStringValue ctx) stdMin ex v val
      | .uint64 => combine AggrVal.getUint64 .uint64 (getUint64Value ctx) stdMin ex v val
      | _ => .ok val
  | .max =>
      match ex.aggrType with
      | .int => combine AggrVal.getInt .int (getIntValue ctx) stdMax ex v val
      | .double => combine AggrVal.getDouble .double (getDoubleValue ctx) stdMax ex v val
      | .string => combine AggrVal.getString .str (getStringValue ctx) stdMax ex v val
      | .uint64 => combine AggrVal.getUint64 .uint64 (getUint64Value ctx) stdMax ex v val
      | _ => .ok val
  | .avg => do
      let p ← val.getSumCnt
      let d ← getDoubleValue ctx v ex.var ex.pkey
      .ok (.sumCnt (p.1 + d) (p.2 + 1))

end

/-- The value that `finish` writes, `none` where no case does. -/
def output (ex : AggrExpr) (val : AggrVal) : Except QopErr (Option QueryResult) :=
  match ex.func with
  | .count => val.getInt.map fun i => some (.int i)
  | .sum =>
      match ex.aggrType with
      | .int => val.getInt.map fun i => some (.int i)
      | .double => val.getDouble.map fun d => some (.double d)
      | _ => .ok none
  | .min | .max =>
      match ex.aggrType with
      | .int => val.getInt.map fun i => some (.int i)
      | .double => val.getDouble.map fun d => some (.double d)
      | .string => val.getString.map fun s => some (.str s)
      | .uint64 => val.getUint64.map fun n => some (.uint64 n)
      | _ => .ok none
  | .avg => val.getSumCnt.map fun p => some (.double (p.1 / p.2.toFloat))

end AggrExpr

/-! ## One group -/

/-- `aggregate`. -/
structure Aggregate where
  aggrExprs : List AggrExpr
  aggrVals : List AggrVal

namespace Aggregate

/-- The initial value of an expression. -/
def initVal (ex : AggrExpr) : AggrVal :=
  match ex.func with
  | .count => .int 0
  | .avg => .sumCnt 0 0
  | .sum =>
      match ex.aggrType with
      | .int => .int 0
      | .double => .double 0
      | .uint64 => .uint64 0
      | _ => .none
  | .min => ex.initMin
  | .max => ex.initMax

section

variable (ctx : QueryCtx)

/-- The constructor, which calls `init_aggregates`. -/
def new (exp : List AggrExpr) : Aggregate :=
  ⟨exp.map (AggrExpr.prepare ctx), exp.map initVal⟩

/-- `process`. -/
def process (st : Aggregate) (v : QrTuple) : Except QopErr Aggregate := do
  let vals ← (st.aggrExprs.zip st.aggrVals).mapM fun e => e.1.update ctx v e.2
  .ok { st with aggrVals := vals }

/-- `finish`: the only tuple. An element that no case writes is a null
pointer. -/
def finish (st : Aggregate) : Except QopErr QrTuple :=
  (st.aggrExprs.zip st.aggrVals).mapM fun e => (e.1.output e.2).map fun q => q.getD (.node 0)

/-- All tuples of the input. -/
def run (exp : List AggrExpr) (input : List QrTuple) : Except QopErr (List QrTuple) := do
  let st ← input.foldlM (process ctx) (new ctx exp)
  let v ← st.finish
  .ok [v]

end

end Aggregate

/-! ## Many groups -/

/-- `group_by::group`. -/
structure Group where
  var : Nat
  property : String
  pkey : Nat
  grpType : QrType
  deriving DecidableEq, Repr

def Group.prepare (ctx : QueryCtx) (g : Group) : Group :=
  { g with pkey := ctx.pkey g.property }

/-- The hashes of the standard library that `hasher` calls, and the one of a
time that it combines from a date and a time of day. -/
structure StdHash where
  double : Float → UInt64
  string : String → UInt64
  ptime : Int → UInt64

/-- `group_by`. -/
structure GroupBy where
  groups : List Group
  aggrExprs : List AggrExpr
  groupKeys : HashTable UInt64 QrTuple
  aggrVals : HashTable UInt64 (List AggrVal)

namespace GroupBy

/-- `h ^ (x + (h << 6) + (h >> 2))`. -/
def mix (h x : UInt64) : UInt64 := h ^^^ (x + (h <<< 6) + (h >>> 2))

/-- `i + 0x9e3779b9` for an `int`, which is a 32-bit sum. -/
def saltInt (i : Int32) : UInt64 := (i.toUInt32 + 0x9e3779b9).toUInt64

def salt (n : UInt64) : UInt64 := n + 0x9e3779b9

section

variable (hash : StdHash) (ctx : QueryCtx)

/-- The key value that `hasher` reads: the property if the group has a
property name, whatever its code is. -/
def hashed {β : Type} (get : QueryResult → Option β) (value : QrTuple → Nat → Nat → Except QopErr β)
    (g : Group) (v : QrTuple) : Except QopErr β :=
  if g.property = "" then getColumn get v g.var else value v g.var g.pkey

/-- One round of the loop of `hasher`. -/
def hashStep (v : QrTuple) (h : UInt64) (g : Group) : Except QopErr UInt64 :=
  match v[g.var]? with
  | none => .error .outOfBounds
  | some _ =>
      match g.grpType with
      | .nodePtr => do
          let p ← getColumn QueryResult.node? v g.var
          .ok (h ^^^ UInt64.ofNat (ctx.nodeRef p).id)
      | .rshipPtr => do
          let p ← getColumn QueryResult.rship? v g.var
          .ok (h ^^^ UInt64.ofNat (ctx.rshipRef p).id)
      | .int => do
          let i ← hashed QueryResult.int? (getIntValue ctx) g v
          .ok (mix h (saltInt i))
      | .uint64 => do
          let n ← hashed QueryResult.uint64? (getUint64Value ctx) g v
          .ok (mix h (salt n))
      | .double => do
          let d ← hashed QueryResult.double? (getDoubleValue ctx) g v
          .ok (mix h (salt (hash.double d)))
      | .string => do
          let s ← hashed QueryResult.string? (getStringValue ctx) g v
          .ok (mix h (salt (hash.string s)))
      | .ptime => do
          let t ← hashed QueryResult.ptime? (getPtimeValue ctx) g v
          .ok (h ^^^ hash.ptime t)
      | .nodeDescr | .rshipDescr | .array | .null => .ok h

/-- `hasher`. -/
def hasher (groups : List Group) (v : QrTuple) : Except QopErr UInt64 :=
  groups.foldlM (hashStep hash ctx v) 0

/-- What a group adds to the key tuple: nothing if its type is not
handled. -/
def keyOf (v : QrTuple) (g : Group) : Except QopErr QrTuple :=
  match g.grpType with
  | .int => (getIntValue ctx v g.var g.pkey).map fun i => [.int i]
  | .uint64 => (getUint64Value ctx v g.var g.pkey).map fun n => [.uint64 n]
  | .string => (getStringValue ctx v g.var g.pkey).map fun s => [.str s]
  | .double => (getDoubleValue ctx v g.var g.pkey).map fun d => [.double d]
  | .ptime => (getPtimeValue ctx v g.var g.pkey).map fun t => [.ptime t]
  | _ => .ok []

/-- The key tuple of a new group. -/
def keyTuple (groups : List Group) (v : QrTuple) : Except QopErr QrTuple :=
  (groups.mapM (keyOf ctx v)).map List.flatten

/-- The initial value of an expression: a sum begins with an `int` unless it
is one of doubles. -/
def initVal (ex : AggrExpr) : AggrVal :=
  match ex.func with
  | .count => .int 0
  | .avg => .sumCnt 0 0
  | .sum =>
      match ex.aggrType with
      | .double => .double 0
      | _ => .int 0
  | .min => ex.initMin
  | .max => ex.initMax

/-- `init_aggregates`. -/
def initAggregates (exprs : List AggrExpr) : List AggrVal := exprs.map initVal

/-- `update_aggregates`. -/
def updateAggregates (exprs : List AggrExpr) (aval : List AggrVal) (v : QrTuple) :
    Except QopErr (List AggrVal) :=
  (exprs.zip aval).mapM fun e => e.1.update ctx v e.2

/-- The constructor. -/
def new (grps : List Group) (exp : List AggrExpr) : GroupBy where
  groups := grps.map (Group.prepare ctx)
  aggrExprs := exp.map (AggrExpr.prepare ctx)
  groupKeys := HashTable.empty
  aggrVals := HashTable.empty

/-- `emplace`: nothing happens if the key is there. -/
def emplace (t : HashTable UInt64 QrTuple) (key : UInt64) (v2 : QrTuple) :
    HashTable UInt64 QrTuple :=
  match t.find key with
  | some _ => t
  | none => t.assign key v2

/-- `process`. -/
def process (st : GroupBy) (v : QrTuple) : Except QopErr GroupBy := do
  let key ← hasher hash ctx st.groups v
  match st.aggrVals.find key with
  | some aval => do
      let aval ← updateAggregates ctx st.aggrExprs aval v
      .ok { st with aggrVals := st.aggrVals.assign key aval }
  | none => do
      let v2 ← keyTuple ctx st.groups v
      let aval ← updateAggregates ctx st.aggrExprs (initAggregates st.aggrExprs) v
      .ok { st with
        groupKeys := emplace st.groupKeys key v2
        aggrVals := st.aggrVals.assign key aval }

end

/-- A key value as the type of its group; the values are paired with the
groups by position. -/
def writeKey (g : Group) (q : QueryResult) : Except QopErr QrTuple :=
  if g.pkey = UNKNOWN_CODE then .ok [q]
  else
    match g.grpType with
    | .int => if q.int?.isSome then .ok [q] else .error .badGet
    | .double => if q.double?.isSome then .ok [q] else .error .badGet
    | .string => if q.string?.isSome then .ok [q] else .error .badGet
    | .uint64 => if q.uint64?.isSome then .ok [q] else .error .badGet
    | .ptime => if q.ptime?.isSome then .ok [q] else .error .badGet
    | _ => .ok []

/-- The tuple of one group. -/
def groupTuple (st : GroupBy) (e : UInt64 × List AggrVal) : Except QopErr QrTuple := do
  let keys ← (st.groups.zip ((st.groupKeys.find e.1).getD [])).mapM fun p => writeKey p.1 p.2
  let aggs ← (st.aggrExprs.zip e.2).mapM fun p => (p.1.output p.2).map Option.toList
  .ok (keys.flatten ++ aggs.flatten)

/-- `finish`; `iterate` is the order in which the table is iterated. -/
def finish (iterate : HashTable UInt64 (List AggrVal) → List (UInt64 × List AggrVal))
    (st : GroupBy) : Except QopErr (List QrTuple) :=
  (iterate st.aggrVals).mapM st.groupTuple

/-- All tuples of the input. -/
def run (hash : StdHash) (ctx : QueryCtx)
    (iterate : HashTable UInt64 (List AggrVal) → List (UInt64 × List AggrVal))
    (grps : List Group) (exp : List AggrExpr) (input : List QrTuple) :
    Except QopErr (List QrTuple) := do
  let st ← input.foldlM (process hash ctx) (new ctx grps exp)
  st.finish iterate

end GroupBy

end Poseidon
