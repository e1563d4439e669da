import Poseidon.Lib.Dataflow
import Poseidon.Query.Aggregates
import Poseidon.Query.Joins
import Poseidon.Query.VarLength

/-!
# The operators of a query

The operators of `qop.cpp`, `qop_scans.cpp`, `qop_relationships.cpp`,
`qop_projection.cpp`, `qop_set.cpp` and `qop_algorithm.cpp`, each with its
`process` and `finish`. What an operator passes to `consume_` is handed on;
the operator after the call is returned.

A query does not change the database, apart from the read timestamps that
other transactions look at. So all operators work on the database at the
start of the query.
-/

namespace Poseidon

open Dataflow

/-- What a query can end in. -/
inductive EngineErr where
  | qop (e : QopErr)
  | sort (e : SortErr)
  | badFunctionCall
  | assertion
  | diverges
  deriving DecidableEq, Repr

/-- A parameter of an algorithm, a `std::any` with one of these types. -/
inductive AlgoParam where
  | int (i : Int32)
  | uint64 (n : UInt64)
  | double (d : Float)
  | string (s : String)

/-- What is there besides the operators: the context, the pointers to the
versions of records, `fuel` for the expansions of variable length and for the
depth of nested queries, what comes from other libraries, the two variables of
`order_by`, and the algorithms that are registered. -/
structure Env where
  ctx : QueryCtx
  nodePtr : Ref → Nat
  rshipPtr : Ref → Nat
  fuel : Nat
  isoExtended : Int → String
  boostHash : BoostHash
  stdHash : StdHash
  iterate : HashTable UInt64 (List AggrVal) → List (UInt64 × List AggrVal)
  sortSpec : List SortSpec
  cmpFunc : Option (QrTuple → QrTuple → Bool)
  tupleAlgorithms : String → Option (QrTuple → List AlgoParam → Except EngineErr (List QrTuple))
  setAlgorithms :
    String → Option (List QrTuple → List AlgoParam → Except EngineErr (List QrTuple))

/-- What an operator hands on. -/
abbrev Emits (α : Type) := Emit EngineErr QrTuple α

/-! ## Reading -/

/-- A computation of an operator that may fail. -/
def liftQop {α : Type} (x : Except QopErr α) : Emits α := .ofExcept (x.mapError .qop)

def liftEval {α : Type} (x : Except EvalErr α) : Emits α := liftQop (x.mapError .expr)

/-- The version that a pointer points to. -/
def Table.pointee {α : Type} (t : Table α) (s : GraphDb) (n : Ref) : Except QopErr α :=
  match (t.record s n.id).deref n.loc with
  | some o => .ok o.data
  | none => .error (.store .danglingReference)

/-- What the interpreter reads of the database. -/
def QueryCtx.exprCtx (ctx : QueryCtx) : ExprCtx where
  nodeProperties := ctx.db.nodeProperties
  rshipProperties := ctx.db.rshipProperties
  nodePropertyList p :=
    match (nodeTable.record ctx.db (ctx.nodeRef p).id).deref (ctx.nodeRef p).loc with
    | some o => o.data.propertyList
    | none => UNKNOWN
  rshipPropertyList p :=
    match (rshipTable.record ctx.db (ctx.rshipRef p).id).deref (ctx.rshipRef p).loc with
    | some o => o.data.propertyList
    | none => UNKNOWN
  lookupCode := ctx.lookupCode

/-- `v.back()`, or `v[npos]` if there is a position. -/
def element (npos : Option Nat) (v : QrTuple) : Except QopErr QueryResult :=
  match npos with
  | none => v.getLast?.elim (.error .outOfBounds) .ok
  | some i => v[i]?.elim (.error .outOfBounds) .ok

/-- `qv_get_node`. -/
def qvGetNode : QueryResult → Except QopErr Nat
  | .node p => .ok p
  | _ => .error .badGet

/-- `qv_get_relationship`. -/
def qvGetRelationship : QueryResult → Except QopErr Nat
  | .rship p => .ok p
  | _ => .error .badGet

section

variable (env : Env)

/-- A call of the store. -/
def runDb {α : Type} (x : DbM α) : Emits α :=
  match x env.ctx.db with
  | .ok a _ => pure a
  | .error e _ => .ofExcept (.error (.qop (.store e)))

/-! ## Sources -/

/-- The producers; a scan has a label or a list of labels. -/
inductive Source where
  | nodeScan (label : String) (labels : List String)
  | relationshipScan (label : String) (labels : List String)
  | nodeById (id : Nat)

/-- `CHUNKS_PER_THREAD`. -/
def chunksPerThread : Nat := 50

/-- The chunks of the tasks of a parallel scan. -/
def chunkRanges (numChunks : Nat) : List (Nat × Nat) :=
  (List.range ((numChunks + (chunksPerThread - 1)) / chunksPerThread)).map fun i =>
    (i * chunksPerThread, i * chunksPerThread + (chunksPerThread - 1))

/-- What a scan hands on. -/
def Scan.emits (ptr : Ref → QueryResult) (sc : Scan) : Emits Unit where
  out := sc.delivered.map fun r => [ptr r]
  ended :=
    match sc.ended with
    | none => .ok ()
    | some e => .error (.qop (.store e))

/-- The scan of a `node_scan`. -/
def Env.nodeScan (label : String) (labels : List String) : Scan :=
  let ctx := env.ctx
  let ranges := chunkRanges ((ctx.db.nodes.size + (nodesPerChunk - 1)) / nodesPerChunk)
  if label = "" ∧ labels = [] then parallelScan (nodeScanTask ctx.db ctx.xid) ranges
  else if label ≠ "" then
    parallelScan (nodeScanTaskWithLabel ctx.db ctx.xid (ctx.lookupString label)) ranges
  else nodesByLabels ctx.db ctx.xid (labels.map ctx.lookupString)

/-- The scan of a `relationship_scan`. -/
def Env.relationshipScan (label : String) (labels : List String) : Scan :=
  let ctx := env.ctx
  let ranges := chunkRanges ((ctx.db.rships.size + (rshipsPerChunk - 1)) / rshipsPerChunk)
  if label = "" ∧ labels = [] then parallelScan (rshipScanTask ctx.db ctx.xid) ranges
  else if label ≠ "" then
    parallelScan (rshipScanTaskWithLabel ctx.db ctx.xid (ctx.lookupString label)) ranges
  else relationshipsByLabels ctx.db ctx.xid (labels.map ctx.lookupString)

/-- The part of `start` before `default_finish`. -/
def Source.scan : Source → Emits Unit
  | .nodeScan label labels => do
      runDb env (checkTxContext env.ctx.xid)
      (env.nodeScan label labels).emits fun r => .node (env.nodePtr r)
  | .relationshipScan label labels => do
      runDb env (checkTxContext env.ctx.xid)
      (env.relationshipScan label labels).emits fun r => .rship (env.rshipPtr r)
  | .nodeById id => do
      let n ← runDb env (nodeTable.byId env.ctx.xid id)
      .tell [[.node (env.nodePtr n)]]

/-! ## Expanding -/

/-- `RSHIP_DIR`. -/
inductive RshipDir where
  | «from»
  | to
  | all
  deriving DecidableEq, Repr

/-- The walks over the outgoing and over the incoming relationships, the far
end of a relationship, and whether it is handed on as well. -/
structure Expansion where
  walk : NodeData → DbM (List Ref)
  far : RshipData → Nat
  withNode : Bool

/-- The walk of a `foreach_*_relationship`; the one of variable length has a
range. -/
def fromWalk (lcode : Nat) (range : Option (Nat × Nat)) (n : NodeData) : DbM (List Ref) :=
  match range with
  | none => foreachFromRelationshipOfNodeWithLabel env.ctx.xid n lcode
  | some (min, max) =>
      foreachVariableFromRelationshipOfNodeWithLabel env.ctx.xid n lcode min max env.fuel

def toWalk (lcode : Nat) (range : Option (Nat × Nat)) (n : NodeData) : DbM (List Ref) :=
  match range with
  | none => foreachToRelationshipOfNodeWithLabel env.ctx.xid n lcode
  | some (min, max) =>
      foreachVariableToRelationshipOfNodeWithLabel env.ctx.xid n lcode min max env.fuel

/-- What a direction makes of a node. -/
def RshipDir.expansions (lcode : Nat) (range : Option (Nat × Nat)) : RshipDir → List Expansion
  | .from => [⟨fromWalk env lcode range, RshipData.destNode, false⟩]
  | .to => [⟨toWalk env lcode range, RshipData.srcNode, false⟩]
  | .all => [⟨fromWalk env lcode range, RshipData.destNode, true⟩,
      ⟨toWalk env lcode range, RshipData.srcNode, true⟩]

/-- The consumer of a walk, for one relationship. -/
def Expansion.extend (x : Expansion) (v : QrTuple) (r : Ref) : Emits Unit := do
  let v2 := v ++ [.rship (env.rshipPtr r)]
  if x.withNode then do
    let d ← liftQop (rshipTable.pointee env.ctx.db r)
    let n ← runDb env (nodeById env.ctx.xid (x.far d))
    .tell [v2 ++ [.node (env.nodePtr n)]]
  else .tell [v2]

def Expansion.process (n : NodeData) (v : QrTuple) (x : Expansion) : Emits Unit := do
  let rs ← runDb env (x.walk n)
  rs.forM (x.extend env v)

/-- `process` of the six operators for relationships. -/
def foreachRelationshipProcess (dir : RshipDir) (label : String) (range : Option (Nat × Nat))
    (npos : Option Nat) (v : QrTuple) : Emits Unit := do
  let q ← liftQop (element npos v)
  let p ← liftQop (qvGetNode q)
  let n ← liftQop (nodeTable.pointee env.ctx.db (env.ctx.nodeRef p))
  (dir.expansions env (env.ctx.lookupString label) range).forM fun x => x.process env n v

/-- `get_from_node` and `get_to_node`. -/
def expandProcess (side : RshipData → Nat) (v : QrTuple) : Emits Unit := do
  let q ← liftQop (element none v)
  let p ← liftQop (qvGetRelationship q)
  let d ← liftQop (rshipTable.pointee env.ctx.db (env.ctx.rshipRef p))
  let n ← runDb env (nodeById env.ctx.xid (side d))
  .tell [v ++ [.node (env.nodePtr n)]]

/-! ## Filters -/

/-- `node_has_label`. -/
def nodeHasLabelProcess (labels : List String) (label : String) (v : QrTuple) : Emits Unit := do
  let q ← liftQop (element none v)
  let p ← liftQop (qvGetNode q)
  let n ← liftQop (nodeTable.pointee env.ctx.db (env.ctx.nodeRef p))
  let codes := if labels = [] then [env.ctx.lookupString label]
    else labels.map env.ctx.lookupString
  if n.nodeLabel ∈ codes then .tell [v] else pure ()

/-- The test of `is_property`. -/
def isPropertyHolds (pcode : Nat) (predicate : PItem → Bool) : QueryResult → Except Err Bool
  | .node p => (isNodePropertyValue env.ctx.db (env.ctx.nodeRef p) pcode).map (·.any predicate)
  | .rship p =>
      (isRelationshipPropertyValue env.ctx.db (env.ctx.rshipRef p) pcode).map (·.any predicate)
  | _ => .ok false

/-- `is_property`. -/
def isPropertyProcess (property : String) (predicate : PItem → Bool) (v : QrTuple) :
    Emits Unit := do
  let q ← liftQop (element none v)
  let holds ← liftQop ((isPropertyHolds env (env.ctx.lookupString property) predicate q).mapError
    QopErr.store)
  if holds then .tell [v] else pure ()

/-- `filter_op`. -/
def filterProcess (ex : Expr) (v : QrTuple) : Emits Unit := do
  let tp ← liftEval (interpretBoolExpression env.ctx.raw env.ctx.exprCtx v ex)
  if tp then .tell [v] else pure ()

end

/-! ## Projection -/

/-- The functions of a projection. -/
inductive Prj where
  | forward
  | property (ty : ExprType)
  | arithmeticExpr (ex : Expr)
  | caseExpr (ex ex1 ex2 : Expr)
  | label
  | function (func : QueryResult → Except EvalErr QueryResult)

/-- `projection::pexpr`. -/
structure PExpr where
  idx : Nat
  pname : String
  pfunc : Prj

/-- `get_property<T>`. -/
def getProperty (ty : ExprType) (p : List (String × QueryResult)) (key : String) :
    Except EvalErr (Option QueryResult) :=
  match p.lookup key with
  | none => .ok none
  | some v =>
      match ty, v with
      | .int, .int i => .ok (some (.int i))
      | .uint64, .uint64 n => .ok (some (.uint64 n))
      | .double, .double d => .ok (some (.double d))
      | .string, .str s => .ok (some (.str s))
      | .datetime, .ptime t => .ok (some (.ptime t))
      | _, _ => .error .queryProcessingError

/-- `int_property` and the functions for the other types. -/
def propertyOf (ty : ExprType) (pv : QueryResult) (key : String) : Except EvalErr QueryResult :=
  match pv with
  | .nodeDescr d | .rshipDescr d => (getProperty ty d.properties key).map (·.getD .null)
  | _ => .ok .null

/-- `get_label`. -/
def labelOf : QueryResult → QueryResult
  | .nodeDescr d | .rshipDescr d => .str d.label
  | _ => .null

section

variable (env : Env)

/-- The properties of a description, by name. -/
def describeProperties (ps : List PItem) : List (String × QueryResult) :=
  ps.filterMap fun p =>
    (pitemValue env.ctx.exprCtx p).map fun q => (env.ctx.lookupCode p.key, q)

/-- The entry of `v_cached` for one value. -/
def cachedValue : QueryResult → Emits QueryResult
  | .node p => do
      let d ← runDb env (getNodeDescription env.ctx.xid (env.ctx.nodeRef p).id)
      pure (.nodeDescr (.mk d.id none (env.ctx.lookupCode d.label)
        (describeProperties env d.properties)))
  | .rship p => do
      let d ← runDb env (getRshipDescription env.ctx.xid (env.ctx.rshipRef p).id)
      pure (.rshipDescr (.mk d.id (some (d.fromId, d.toId)) (env.ctx.lookupCode d.label)
        (describeProperties env d.properties)))
  | q => pure q

/-- `accessed_`, in its order. -/
def accessed (exprs : List PExpr) : List Nat :=
  (List.range (exprs.foldl (fun n ex => max n (ex.idx + 1)) 0)).filter fun i =>
    exprs.any fun ex => ex.idx == i

/-- `v_cached`. -/
def cached (v : QrTuple) : List Nat → QrTuple → Emits QrTuple
  | [], c => pure c
  | av :: rest, c => do
      let q ← liftQop (element (some av) v)
      let q ← cachedValue env q
      cached v rest (c.set av q)

/-- The function that `init_expressions` makes of an expression. -/
def PExpr.apply (ex : PExpr) (qr : QrTuple) : Except QopErr QueryResult :=
  match ex.pfunc with
  | .forward => element (some ex.idx) qr
  | .property ty => do
      let pv ← element (some ex.idx) qr
      (propertyOf ty pv ex.pname).mapError .expr
  | .arithmeticExpr pe => (interpretExpression env.ctx.raw env.ctx.exprCtx qr pe).mapError .expr
  | .caseExpr pe pe1 pe2 => do
      let c ← (interpretBoolExpression env.ctx.raw env.ctx.exprCtx qr pe).mapError QopErr.expr
      (interpretExpression env.ctx.raw env.ctx.exprCtx qr (if c then pe1 else pe2)).mapError .expr
  | .label => (element (some ex.idx) qr).map labelOf
  | .function func => do
      let pv ← element (some ex.idx) qr
      (func pv).mapError .expr

/-- One round of the loop: an unknown property leaves the value as it was
constructed, a null pointer. -/
def projected (qr : QrTuple) (ex : PExpr) : Except QopErr QueryResult :=
  match ex.apply env qr with
  | .error (.expr (.store .unknownProperty)) => .ok (.node 0)
  | r => r

/-- `projection::process`. -/
def projectionProcess (exprs : List PExpr) (v : QrTuple) : Emits Unit := do
  let c ← cached env v (accessed exprs) v
  let res ← liftQop (exprs.mapM (projected env c))
  .tell [res]

end

/-! ## Operators with one input -/

/-- `algorithm_op`; `call_mode_` is the first argument. -/
structure AlgorithmOp where
  tuple : Bool
  name : String
  args : List AlgoParam
  input : List QrTuple

/-- The operators; the nested query of an `exists_op` is the list of operators
from its `start_pipeline` on. -/
inductive UnaryOp where
  | isProperty (property : String) (predicate : PItem → Bool)
  | nodeHasLabel (labels : List String) (label : String)
  | getFromNode
  | getToNode
  | foreachRelationship (dir : RshipDir) (label : String) (range : Option (Nat × Nat))
      (npos : Option Nat)
  | filterOp (ex : Expr)
  | projection (exprs : List PExpr)
  | limitResult (num processed : Nat)
  | orderBy (results : List QrTuple)
  | distinctTuples (st : DistinctTuples)
  | aggregate (st : Aggregate)
  | groupBy (st : GroupBy)
  | algorithmOp (st : AlgorithmOp)
  | existsOp (isNot : Bool) (sub : List UnaryOp)

/-- A list of operators, each connected with the next one, and what the last
one hands on. -/
def chain (f : UnaryOp → QrTuple → Emits UnaryOp) :
    List UnaryOp → List QrTuple → Emits (List UnaryOp)
  | [], vs => do
      .tell vs
      pure []
  | u :: us, vs => do
      let x := feed f u vs
      let us ← chain f us x.out
      let u ← Emit.ofExcept x.ended
      pure (u :: us)

section

variable (env : Env)

/-- `algorithm_op::process`; the assertion fails if there is no algorithm of
that name. -/
def AlgorithmOp.process (st : AlgorithmOp) (v : QrTuple) : Emits AlgorithmOp :=
  if st.tuple then
    match env.tupleAlgorithms st.name with
    | none => .ofExcept (.error .assertion)
    | some func => do
        let res ← .ofExcept (func v st.args)
        .tell (res.map (concat v))
        pure st
  else
    match env.setAlgorithms st.name with
    | none => .ofExcept (.error .assertion)
    | some _ => pure { st with input := st.input ++ [v] }

/-- `algorithm_op::finish`, without the call of `finish_`. -/
def AlgorithmOp.finish (st : AlgorithmOp) : Emits AlgorithmOp :=
  if st.tuple then pure st
  else
    match env.setAlgorithms st.name with
    | none => .ofExcept (.error .badFunctionCall)
    | some func => do
        let res ← .ofExcept (func st.input st.args)
        .tell res
        pure st

namespace UnaryOp

/-- `process`; `f` is the one of the operators of a nested query. -/
def processWith (f : UnaryOp → QrTuple → Emits UnaryOp) (u : UnaryOp) (v : QrTuple) :
    Emits UnaryOp :=
  match u with
  | .isProperty property predicate => do
      isPropertyProcess env property predicate v
      pure u
  | .nodeHasLabel labels label => do
      nodeHasLabelProcess env labels label v
      pure u
  | .getFromNode => do
      expandProcess env RshipData.srcNode v
      pure u
  | .getToNode => do
      expandProcess env RshipData.destNode v
      pure u
  | .foreachRelationship dir label range npos => do
      foreachRelationshipProcess env dir label range npos v
      pure u
  | .filterOp ex => do
      filterProcess env ex v
      pure u
  | .projection exprs => do
      projectionProcess env exprs v
      pure u
  | .limitResult num processed =>
      if processed < num then do
        .tell [v]
        pure (.limitResult num (processed + 1))
      else pure u
  | .orderBy results => pure (.orderBy (results ++ [v]))
  | .distinctTuples st => do
      let r := st.process env.isoExtended env.ctx v
      .tell r.1
      pure (.distinctTuples r.2)
  | .aggregate st => do
      let st ← liftQop (st.process env.ctx v)
      pure (.aggregate st)
  | .groupBy st => do
      let st ← liftQop (st.process env.stdHash env.ctx v)
      pure (.groupBy st)
  | .algorithmOp st => do
      let st ← st.process env v
      pure (.algorithmOp st)
  | .existsOp isNot sub => do
      -- what reaches the end of the nested query is counted
      let x := chain f sub [v]
      let sub ← Emit.ofExcept x.ended
      .tell (if isNot == x.out.isEmpty then [v] else [])
      pure (.existsOp isNot sub)

/-- `process`, for nested queries up to a depth. -/
def process : Nat → UnaryOp → QrTuple → Emits UnaryOp
  | 0 => processWith env fun _ _ => .ofExcept (.error .diverges)
  | n + 1 => processWith env (process n)

/-- The sort of `order_by::finish`. -/
def orderByFinish (results : List QrTuple) : Except SortErr (List QrTuple) :=
  match env.cmpFunc with
  | some f => sortByFunc f results
  | none => sortBySpec env.ctx.exprCtx env.sortSpec results

/-- `finish`, without the call of `finish_`; the operators not listed do not
have their own. -/
def finish (u : UnaryOp) : Emits UnaryOp :=
  match u with
  | .orderBy results => do
      let data ← .ofExcept ((orderByFinish env results).mapError .sort)
      .tell data
      pure (.orderBy data)
  | .aggregate st => do
      let v ← liftQop st.finish
      .tell [v]
      pure u
  | .groupBy st => do
      let vs ← liftQop (st.finish env.iterate)
      .tell vs
      pure u
  | .algorithmOp st => do
      let st ← st.finish env
      pure (.algorithmOp st)
  | _ => pure u

end UnaryOp

end

/-! ## Operators with two inputs -/

/-- The operators; `phases` counts the calls of `finish`. -/
inductive BinaryQop where
  | crossJoin (phases : Nat) (input : List QrTuple)
  | hashJoin (st : HashJoin)
  | leftOuterJoin (st : LeftOuterJoin)
  | unionAll (phases : Nat)
  | exceptOp (phases : Nat) (lhsVar rhsVar : Variable) (subtrahend : List QueryResult)

/-- `which`, the position of the type in the variant. -/
def QueryResult.which : QueryResult → Nat
  | .node _ => 0
  | .rship _ => 1
  | .int _ => 2
  | .double _ => 3
  | .str _ => 4
  | .uint64 _ => 5
  | .ptime _ => 6
  | .array _ => 7
  | .null => 8
  | .nodeDescr _ => 9
  | .rshipDescr _ => 10

/-- `<` of the variant: by type, and then by the values of it. -/
def variantLess : QueryResult → QueryResult → Bool
  | .node a, .node b => decide (a < b)
  | .rship a, .rship b => decide (a < b)
  | .int a, .int b => decide (a < b)
  | .double a, .double b => decide (a < b)
  | .str a, .str b => decide (a < b)
  | .uint64 a, .uint64 b => decide (a < b)
  | .ptime a, .ptime b => decide (a < b)
  | .array a, .array b => decide (a < b)
  | .null, .null => false
  | .nodeDescr a, .nodeDescr b => decide (a.id < b.id)
  | .rshipDescr a, .rshipDescr b => decide (a.id < b.id)
  | a, b => decide (a.which < b.which)

/-- `find` of a `std::set`: an element that is neither less nor greater. -/
def setContains (s : List QueryResult) (q : QueryResult) : Bool :=
  s.any fun x => !variantLess x q && !variantLess q x

namespace BinaryQop

variable (env : Env)

/-- `process_left`, which is `probe_phase` of a hash join. -/
def processLeft (b : BinaryQop) (v : QrTuple) : Emits BinaryQop :=
  match b with
  | .crossJoin _ input => do
      .tell (input.map fun inp => concat inp v)
      pure b
  | .hashJoin st => do
      let out ← liftQop (st.probePhase env.boostHash.hasher env.ctx v)
      .tell out
      pure b
  | .leftOuterJoin st => do
      let out ← liftEval (st.processLeft env.ctx.raw env.ctx.exprCtx v)
      .tell out
      pure b
  | .unionAll _ => do
      .tell [v]
      pure b
  | .exceptOp _ lhsVar _ subtrahend => do
      let minuend ← liftQop (getVarValue env.ctx v lhsVar)
      .tell (if setContains subtrahend minuend then [] else [v])
      pure b

/-- `process_right`, which is `build_phase` of a hash join. -/
def processRight (b : BinaryQop) (v : QrTuple) : Emits BinaryQop :=
  match b with
  | .crossJoin phases input => pure (.crossJoin phases (input ++ [v]))
  | .hashJoin st => do
      let st ← liftQop (st.buildPhase env.boostHash.hasher env.ctx v)
      pure (.hashJoin st)
  | .leftOuterJoin st => pure (.leftOuterJoin (st.processRight v))
  | .unionAll _ => do
      .tell [v]
      pure b
  | .exceptOp phases lhsVar rhsVar subtrahend => do
      let q ← liftQop (getVarValue env.ctx v rhsVar)
      pure (.exceptOp phases lhsVar rhsVar
        (if setContains subtrahend q then subtrahend else subtrahend ++ [q]))

/-- `phases_`. -/
def phases : BinaryQop → Nat
  | .crossJoin phases _ | .unionAll phases | .exceptOp phases _ _ _ => phases
  | .hashJoin st => st.phases
  | .leftOuterJoin st => st.phases

/-- `finish`, and whether it calls `default_finish`. -/
def finish (b : BinaryQop) : Bool × BinaryQop :=
  (decide (1 < b.phases + 1),
    match b with
    | .crossJoin phases input => .crossJoin (phases + 1) input
    | .hashJoin st => .hashJoin st.finish.1
    | .leftOuterJoin st => .leftOuterJoin st.finish.1
    | .unionAll phases => .unionAll (phases + 1)
    | .exceptOp phases lhsVar rhsVar subtrahend =>
        .exceptOp (phases + 1) lhsVar rhsVar subtrahend)

/-- All but `union_all` store their right input. -/
def joins : BinaryQop → Bool
  | .unionAll _ => false
  | _ => true

end BinaryQop

/-- The operators as those of a dataflow. -/
def Env.ops (env : Env) : Ops EngineErr QrTuple Source UnaryOp BinaryQop where
  scan := Source.scan env
  process := UnaryOp.process env env.fuel
  finish := UnaryOp.finish env
  left := BinaryQop.processLeft env
  right := BinaryQop.processRight env
  close := BinaryQop.finish
  joins := BinaryQop.joins
  ends := BinaryQop.phases

end Poseidon
