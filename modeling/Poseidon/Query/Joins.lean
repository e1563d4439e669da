import Poseidon.Lib.HashTable
import Poseidon.Query.Values

/-!
# Joins and duplicate elimination

`hash_join_op` and `left_outer_join_op` of `qop_joins.cpp`. Both are called
with the tuples of one input before those of the other; what is passed on is
returned. A call that throws has passed on nothing that matters: the query
ends.
-/

namespace Poseidon

/-- `concat` of two tuples. -/
def concat (v1 v2 : QrTuple) : QrTuple := v1 ++ v2

/-! ## Hash join -/

/-- `hash_join_op`. -/
structure HashJoin where
  phases : Nat
  htable : HashTable UInt64 (List (QueryResult × QrTuple))
  lhsVar : Variable
  rhsVar : Variable

namespace HashJoin

def new (l r : Variable) : HashJoin := ⟨0, HashTable.empty, l, r⟩

section

variable (hasher : QueryResult → UInt64) (ctx : QueryCtx)

/-- `build_phase`. -/
def buildPhase (st : HashJoin) (v : QrTuple) : Except QopErr HashJoin := do
  let jval ← getVarValue ctx v st.lhsVar
  let key := hasher jval
  match st.htable.find key with
  | some vec => .ok { st with htable := st.htable.assign key (vec ++ [(jval, v)]) }
  | none => .ok { st with htable := st.htable.assign key [(jval, v)] }

/-- The loop over a bucket. -/
def probeLoop (jval : QueryResult) (v : QrTuple) : List (QueryResult × QrTuple) → List QrTuple
  | [] => []
  | jc :: vec =>
      if variantEq jval jc.1 then concat jc.2 v :: probeLoop jval v vec
      else probeLoop jval v vec

/-- `probe_phase`. -/
def probePhase (st : HashJoin) (v : QrTuple) : Except QopErr (List QrTuple) := do
  let jval ← getVarValue ctx v st.rhsVar
  match st.htable.find (hasher jval) with
  | some vec => .ok (probeLoop jval v vec)
  | none => .ok []

/-- `finish`, and whether the subscriber's is called. -/
def finish (st : HashJoin) : HashJoin × Bool :=
  ({ st with phases := st.phases + 1 }, 1 < st.phases + 1)

/-- All tuples of the left input and then all of the right one. -/
def run (l r : Variable) (builds probes : List QrTuple) : Except QopErr (List QrTuple) := do
  let st ← builds.foldlM (buildPhase hasher ctx) (new l r)
  let st := (finish st).1
  let out ← probes.mapM (probePhase hasher ctx st)
  .ok out.flatten

end

end HashJoin

/-! ## Left outer join -/

/-- `ex_`, or `pred_` if there is no expression. -/
inductive JoinPredicate where
  | expr (ex : Expr)
  | func (pred : QrTuple → QrTuple → Bool)

/-- `left_outer_join_op`. -/
structure LeftOuterJoin where
  phases : Nat
  input : List QrTuple
  pred : JoinPredicate

namespace LeftOuterJoin

def new (pred : JoinPredicate) : LeftOuterJoin := ⟨0, [], pred⟩

/-- `process_right`. -/
def processRight (st : LeftOuterJoin) (v : QrTuple) : LeftOuterJoin :=
  { st with input := st.input ++ [v] }

section

variable (raw : PItem) (ctx : ExprCtx)

/-- The test of a pair of tuples. -/
def test (pred : JoinPredicate) (v t : QrTuple) : Except EvalErr Bool :=
  match pred with
  | .expr ex => interpretBoolExpression raw ctx (concat v t) ex
  | .func pred => .ok (pred v t)

/-- The loop over the right tuples: `dangling_tuple` and what was passed
on. -/
def leftLoop (pred : JoinPredicate) (v : QrTuple) :
    List QrTuple → Bool × List QrTuple → Except EvalErr (Bool × List QrTuple)
  | [], acc => .ok acc
  | t :: input, acc => do
      let tp ← test raw ctx pred v t
      leftLoop pred v input (if tp then (false, acc.2 ++ [concat v t]) else acc)

/-- The number of nulls for a tuple without partner. -/
def space (st : LeftOuterJoin) : Nat :=
  match st.input with
  | [] => 1
  | t :: _ => t.length

/-- `process_left`. -/
def processLeft (st : LeftOuterJoin) (v : QrTuple) : Except EvalErr (List QrTuple) := do
  let (danglingTuple, out) ← leftLoop raw ctx st.pred v st.input (true, [])
  if danglingTuple then .ok (out ++ [concat v (List.replicate st.space .null)])
  else .ok out

/-- `finish`, and whether the subscriber's is called. -/
def finish (st : LeftOuterJoin) : LeftOuterJoin × Bool :=
  ({ st with phases := st.phases + 1 }, 1 < st.phases + 1)

/-- All tuples of the right input and then all of the left one. -/
def run (pred : JoinPredicate) (rights lefts : List QrTuple) :
    Except EvalErr (List QrTuple) := do
  let st := (finish (rights.foldl processRight (new pred))).1
  let out ← lefts.mapM (processLeft raw ctx st)
  .ok out.flatten

end

end LeftOuterJoin

/-!
## Duplicate elimination

`distinct_tuples` of `qop.cpp`. A tuple is looked up by one string, to which
each of its values adds a text without anything in between; a description
adds nothing.
-/

/-- `distinct_tuples`: the texts met so far. -/
structure DistinctTuples where
  keys : List String

namespace DistinctTuples

def new : DistinctTuples := ⟨[]⟩

section

variable (isoExtended : Int → String) (ctx : QueryCtx)

/-- What a value adds to the key. `isoExtended` is
`to_iso_extended_string`. -/
def text : QueryResult → String
  | .str s => s
  | .uint64 n => toString n.toNat
  | .ptime t => isoExtended t
  | .node p => toString (ctx.nodeRef p).id
  | .rship p => toString (ctx.rshipRef p).id
  | .int i => toString i.toInt
  | .double d => doubleText d
  | .null => "NULL"
  | .array elems => elems.foldl (fun key a => key ++ toString a.toNat) ""
  | .nodeDescr _ | .rshipDescr _ => ""

/-- The loop over the values. -/
def key (v : QrTuple) : String := v.foldl (fun key qres => key ++ text isoExtended ctx qres) ""

/-- `process`: what is passed on, and the operator afterwards. -/
def process (st : DistinctTuples) (v : QrTuple) : List QrTuple × DistinctTuples :=
  let key := key isoExtended ctx v
  if key ∈ st.keys then ([], st) else ([v], ⟨key :: st.keys⟩)

/-- A sequence of tuples. -/
def run (st : DistinctTuples) : List QrTuple → List QrTuple
  | [] => []
  | v :: vs =>
      let r := process isoExtended ctx st v
      r.1 ++ run r.2 vs

end

end DistinctTuples

end Poseidon
