import Mathlib.Data.List.Sort
import Poseidon.Lib.Network
import Poseidon.Query.Operators

/-!
# Query plans

`query_planner.cpp`, which makes the objects of a plan from a query of the
grammar and connects them, and `query_pipeline.cpp` and `query_batch.cpp`, which
run the plan. An object has the number of the visit that made it.

The expressions of a query are taken as the planner builds them, and a query
has no updates and no index scans.
-/

namespace Poseidon

open Dataflow

/-! ## Queries -/

/-- A value in a property list of a pattern. -/
inductive PropValue where
  | int (i : Int32)
  | double (d : Float)
  | string (s : String)

/-- `node_pattern`; the properties are in the order of their names. -/
structure NodePattern where
  label : String
  properties : List (String × PropValue)

/-- `dir_spec`. -/
inductive DirSpec where
  | left
  | right
  | no
  deriving DecidableEq, Repr

/-- `path_component`: a `rship_pattern` with a `dir_spec` on both sides, and
the node that it leads to. A cardinality need not have a maximum. -/
structure PathComponent where
  rshipLabel : String
  first : DirSpec
  second : DirSpec
  cardinality : Option (Nat × Option Nat)
  node : NodePattern

/-- `expand_dir`. -/
inductive ExpandDir where
  | inDir
  | outDir
  deriving DecidableEq, Repr

/-- The innermost operator of a nested query, which has no operand. -/
inductive NestedHead where
  | foreachRelationship (dir : RshipDir) (label : String) (cardinality : Option (Nat × Nat))
      (source : Option Nat)
  | source (s : Source)

/-- The operators of the grammar with one operand. -/
inductive Clause where
  | filter (ex : Expr)
  | project (exprs : List PExpr)
  | limit (n : Nat)
  | expand (dir : ExpandDir) (label : String)
  | foreachRelationship (dir : RshipDir) (label : String) (cardinality : Option (Nat × Nat))
      (source : Option Nat)
  | aggregate (exprs : List AggrExpr)
  | groupBy (grps : List Group) (exprs : List AggrExpr)
  | sort (spec : List SortSpec)
  | distinct
  | algorithm (name : String) (tuple : Bool) (args : List AlgoParam)
  | existsOp (isNot : Bool) (head : NestedHead) (sub : List Clause)

/-- `query_operator`. -/
inductive Query where
  | source (s : Source)
  | pattern (node : NodePattern) (path : List PathComponent)
  | op (c : Clause) (q : Query)
  | crossJoin (q1 q2 : Query)
  | hashJoin (lhs rhs : Variable) (q1 q2 : Query)
  | leftOuterJoin (ex : Expr) (q1 q2 : Query)
  | union (q1 q2 : Query)
  | except (lhs rhs : Variable) (q1 q2 : Query)

/-! ## Objects -/

/-- `qop`: the operator, what `connect` has registered, and `priority_`. -/
structure QopObj where
  op : Operator Source UnaryOp BinaryQop
  link : Option Connection
  priority : Nat

/-- The objects that there are, `sources_`, and the variable `sort_spec_`. -/
structure PlannerState where
  size : Nat
  objs : Nat → QopObj
  sources : List Nat
  sortSpec : List SortSpec

/-- `query_processing_error`. -/
inductive PlanErr where
  | queryProcessingError
  deriving DecidableEq, Repr

abbrev Planner := StateT PlannerState (Except PlanErr)

namespace PlannerState

/-- A planner that has made nothing. -/
def initial : PlannerState := ⟨0, fun _ => ⟨.sink, none, 0⟩, [], []⟩

/-- `make_shared`. -/
def make (st : PlannerState) (op : Operator Source UnaryOp BinaryQop) : PlannerState :=
  { st with size := st.size + 1, objs := Function.update st.objs st.size ⟨op, none, 0⟩ }

/-- `connect`. -/
def connect (st : PlannerState) (i : Nat) (l : Connection) : PlannerState :=
  { st with objs := Function.update st.objs i { st.objs i with link := some l } }

def setPriority (st : PlannerState) (i prio : Nat) : PlannerState :=
  { st with objs := Function.update st.objs i { st.objs i with priority := prio } }

/-- What `connect` has registered for the objects. -/
def links (st : PlannerState) (i : Nat) : Option Connection := (st.objs i).link

end PlannerState

/-- Make a producer. -/
def makeSource (s : Source) : Planner Nat := fun st =>
  .ok (st.size, { st.make (.source s) with sources := st.sources ++ [st.size] })

/-- `qop_append2`, and `qop_append` if the function for the end is the
default. -/
def qopAppend (parent : Nat) (x : UnaryOp × Bool) : Planner Nat := fun st =>
  .ok (st.size, (st.make (.unary x.1)).connect parent ⟨st.size, .process, x.2⟩)

/-- Connect two objects with an operator that has two inputs, and set their
priorities if it has an order of them. -/
def join (b : BinaryQop) (right left : Nat) : Planner Nat := fun st =>
  let st' := ((st.make (.binary b)).connect right ⟨st.size, .right, true⟩).connect left
    ⟨st.size, .left, true⟩
  .ok (st.size, if b.joins then (st'.setPriority right 1).setPriority left 0 else st')

/-! ## The planner -/

section

variable (ctx : QueryCtx)

/-- One round of the loop of `property_list_to_expr`. -/
def propertyExpr (varOffset : Nat) (p : String × PropValue) : Expr :=
  let lhs (ty : ExprType) : Expr := .var ⟨varOffset, p.1, ctx.lookupString p.1, ty⟩
  match p.2 with
  | .int i => .binary (.cmp .eq) (lhs .int) (.intLiteral i)
  | .double d => .binary (.cmp .eq) (lhs .double) (.doubleLiteral d)
  | .string s => .binary (.cmp .eq) (lhs .string) (.stringLiteral s)

/-- `property_list_to_expr`, for the filters that are needed. -/
def propertyFilter (varOffset : Nat) : List (String × PropValue) → List UnaryOp
  | [] => []
  | p :: plist => [.filterOp (plist.foldl
      (fun ex p => .binary .and ex (propertyExpr ctx varOffset p))
      (propertyExpr ctx varOffset p))]

/-- The direction of a component, and the operator for its node. -/
def componentOps : DirSpec → DirSpec → Except PlanErr (RshipDir × UnaryOp)
  | .no, .right => .ok (.from, .getToNode)
  | .left, .no => .ok (.to, .getFromNode)
  | .no, .no => .ok (.all, .getToNode)
  | _, _ => .error .queryProcessingError

/-- The loop of `visitPath_pattern`. -/
def pathOps : Nat → List PathComponent → Except PlanErr (List UnaryOp)
  | _, [] => .ok []
  | originIdx, c :: path => do
      let (dir, getOp) ← componentOps c.first c.second
      let range := c.cardinality.map fun m => (m.1, m.2.getD (2 ^ 32 - 1))
      let rest ← pathOps (originIdx + 2) path
      .ok ([.foreachRelationship dir c.rshipLabel range (some originIdx), getOp,
        .nodeHasLabel [] c.node.label] ++
        propertyFilter ctx (originIdx + 2) c.node.properties ++ rest)

/-- What `visitPath_pattern` makes besides the scan. -/
def patternOps (node : NodePattern) (path : List PathComponent) :
    Except PlanErr (List UnaryOp) := do
  let ops ← pathOps ctx 0 path
  .ok (propertyFilter ctx 0 node.properties ++ ops)

/-- What the innermost operator of a nested query is: only outgoing
relationships get a `start_pipeline`. -/
def NestedHead.op : NestedHead → Except PlanErr UnaryOp
  | .foreachRelationship .from label cardinality npos =>
      .ok (.foreachRelationship .from label cardinality npos)
  | _ => .error .queryProcessingError

mutual

/-- The operators of a clause, and whether their `finish` is registered. -/
def Clause.ops : Clause → Except PlanErr (List (UnaryOp × Bool))
  | .filter ex => .ok [(.filterOp ex, false)]
  | .project exprs => .ok [(.projection exprs, false)]
  | .limit n => .ok [(.limitResult n 0, false)]
  | .expand dir label =>
      .ok [(if dir = .inDir then .getFromNode else .getToNode, false),
        (.nodeHasLabel [] label, false)]
  | .foreachRelationship dir label cardinality npos =>
      .ok [(.foreachRelationship dir label cardinality npos, false)]
  | .aggregate exprs => .ok [(.aggregate (Aggregate.new ctx exprs), true)]
  | .groupBy grps exprs => .ok [(.groupBy (GroupBy.new ctx grps exprs), true)]
  | .sort _ => .ok [(.orderBy [], true)]
  | .distinct => .ok [(.distinctTuples DistinctTuples.new, false)]
  | .algorithm name tuple args => .ok [(.algorithmOp ⟨tuple, name, args, []⟩, false)]
  | .existsOp isNot head sub => do
      let op ← head.op
      let ops ← Clause.subOps sub
      .ok [(.existsOp isNot (op :: ops), false)]

/-- The operators of a nested query after the first one. Nothing is called at
the end of a nested query. -/
def Clause.subOps : List Clause → Except PlanErr (List UnaryOp)
  | [] => .ok []
  | c :: cs => do
      let ops ← c.ops
      let rest ← Clause.subOps cs
      .ok (ops.map Prod.fst ++ rest)

end

end

mutual

/-- What the constructors of the `order_by` objects of a clause leave in
`sort_spec_`. -/
def Clause.sortSpec : Clause → List SortSpec → List SortSpec
  | .sort spec, _ => spec
  | .existsOp _ _ sub, spec => Clause.subSortSpec sub spec
  | _, spec => spec

def Clause.subSortSpec : List Clause → List SortSpec → List SortSpec
  | [], spec => spec
  | c :: cs, spec => Clause.subSortSpec cs (c.sortSpec spec)

end

section

variable (ctx : QueryCtx)

/-- Append the operators of a list. -/
def appendAll (ops : List (UnaryOp × Bool)) (i : Nat) : Planner Nat := ops.foldlM qopAppend i

/-- Append the operators of a clause. -/
def visitClause (c : Clause) (i : Nat) : Planner Nat := do
  let ops ← liftM (c.ops ctx)
  modify fun st => { st with sortSpec := c.sortSpec st.sortSpec }
  appendAll ops i

/-- `visit`: the last operator of the query. -/
def Query.visit : Query → Planner Nat
  | .source s => makeSource s
  | .pattern node path => do
      let i ← makeSource (.nodeScan node.label [])
      let ops ← liftM (patternOps ctx node path)
      appendAll (ops.map fun u => (u, false)) i
  | .op c q => do
      let i ← q.visit
      visitClause ctx c i
  | .crossJoin q1 q2 => do
      let child1 ← q1.visit
      let child2 ← q2.visit
      join (.crossJoin 0 []) child1 child2
  | .hashJoin lhs rhs q1 q2 => do
      let child1 ← q1.visit
      let child2 ← q2.visit
      join (.hashJoin (HashJoin.new lhs rhs)) child1 child2
  | .leftOuterJoin ex q1 q2 => do
      let child1 ← q1.visit
      let child2 ← q2.visit
      join (.leftOuterJoin (LeftOuterJoin.new (.expr ex))) child2 child1
  | .union q1 q2 => do
      let child1 ← q1.visit
      let child2 ← q2.visit
      join (.unionAll 0) child1 child2
  | .except lhs rhs q1 q2 => do
      let child1 ← q1.visit
      let child2 ← q2.visit
      join (.exceptOp 0 lhs rhs []) child2 child1

end

/-! ## Pipelines -/

/-- `query_pipeline`. -/
structure QueryPipeline where
  planHead : Nat
  planTail : Nat
  priority : Nat
  deriving DecidableEq, Repr

/-- The loop of the constructor: the priority and the tail. -/
def PlannerState.pipelineLoop (st : PlannerState) : Nat → Nat → Nat → Nat × Nat
  | 0, priority, tail => (priority, tail)
  | fuel + 1, priority, tail =>
      match st.links tail with
      | none => (priority, tail)
      | some l => st.pipelineLoop fuel (max priority (st.objs tail).priority) l.subscriber

/-- The constructor of `query_pipeline`. -/
def PlannerState.pipeline (st : PlannerState) (qop : Nat) : QueryPipeline :=
  let r := st.pipelineLoop st.size 0 qop
  ⟨qop, r.2, r.1⟩

/-- `query_batch`, with the objects of the plan. -/
structure QueryBatch where
  plan : PlannerState
  pipelines : List QueryPipeline

/-- `get_query_plan`. -/
def PlannerState.getQueryPlan (st : PlannerState) : QueryBatch :=
  ⟨st, st.sources.map st.pipeline⟩

/-- `append_collect`: nothing can be appended without a pipeline. -/
def QueryBatch.appendCollect (b : QueryBatch) : Option QueryBatch :=
  match b.pipelines with
  | [] => none
  | q :: _ =>
      let st := (b.plan.make .sink).connect q.planTail ⟨b.plan.size, .process, true⟩
      some { b with plan := st }

/-- What `schedule_pipelines` can leave in `pipeline_seq_`: `std::sort` sorts by
decreasing priority, and leaves open how pipelines of the same priority are
ordered. -/
structure QueryBatch.Scheduled (b : QueryBatch) (seq : List Nat) : Prop where
  perm : seq.Perm (List.range b.pipelines.length)
  sorted : (seq.map fun i => (b.pipelines.map QueryPipeline.priority).getD i 0).Pairwise (· ≥ ·)

/-- The comparison of `schedule_pipelines`: not a smaller priority. -/
def QueryBatch.Before (b : QueryBatch) (i j : Nat) : Prop :=
  (b.pipelines.map QueryPipeline.priority).getD j 0 ≤
    (b.pipelines.map QueryPipeline.priority).getD i 0

instance (b : QueryBatch) : DecidableRel b.Before := fun _ _ => inferInstanceAs (Decidable (_ ≤ _))

/-- The sequence of an insertion sort, which `std::sort` is for few elements. -/
def QueryBatch.schedulePipelines (b : QueryBatch) : List Nat :=
  (List.range b.pipelines.length).insertionSort b.Before

/-- `query_batch::start` with a sequence of pipelines: what `collect_result` is
told. -/
def QueryBatch.start (env : Env) (b : QueryBatch) (seq : List Nat) :
    Emit EngineErr (Event QrTuple) Unit := do
  let heads := b.pipelines.map QueryPipeline.planHead
  let _ ← (seq.forM fun i =>
    Dataflow.start env.ops .badFunctionCall b.plan.links b.plan.size (heads.getD i 0) :
      Run EngineErr QrTuple Source UnaryOp BinaryQop Unit) fun i => (b.plan.objs i).op
  pure ()

/-- `prepare_query` of a query that has been parsed, and `append_collect`. -/
def prepareQuery (ctx : QueryCtx) (q : Query) : Except PlanErr (Option QueryBatch) := do
  let r ← (q.visit ctx).run .initial
  .ok r.2.getQueryPlan.appendCollect

end Poseidon
