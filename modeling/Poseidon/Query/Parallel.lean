import Poseidon.Lib.Workers
import Poseidon.Query.Planner

/-!
# Parallel scans

`parallel_nodes` and `parallel_relationships` of `query_ctx.cpp`, with the thread
pool of `thread_pool.cpp`. The chunks of a table are divided among tasks, and the
workers of the pool call the operators above the scan for the tuples of their
tasks at the same time. When there are no more tasks, the thread that has started
the scan goes on with the end of the input.

An operator whose `process` has a mutex or no state of its own is called as a
whole. `limit_result` reads its counter and increments it later, so what other
workers do can come in between.
-/

namespace Poseidon

open Dataflow Workers

/-- The operators that can be called in several threads: they have no state, or a
mutex, or their state is an atomic counter. -/
def UnaryOp.Guarded : UnaryOp → Prop
  | .orderBy _ | .existsOp _ _ => False
  | .algorithmOp st => st.tuple = true
  | _ => True

/-- What a worker has to run: the `process` of the operator at a position, or of a
`limit_result` what comes after its test. -/
inductive Call where
  | process (i : Nat) (v : QrTuple)
  | pass (i : Nat) (v : QrTuple)

/-- The operators of a pipeline, and `results_` of the `collect_result` behind
them. -/
structure PipelineState where
  ops : List UnaryOp
  results : List QrTuple

section

variable (env : Env)

/-- What a call does, and the calls that it makes. A call that throws ends its
task, and the exception comes out of `start`. -/
def Call.run : Call → PipelineState → Option (PipelineState × List Call)
  | .process i v, st =>
      match st.ops[i]? with
      | none => some ({ st with results := st.results ++ [v] }, [])
      | some (.limitResult num processed) =>
          some (st, if processed < num then [.pass i v] else [])
      | some u =>
          let x := u.process env env.fuel v
          match x.ended with
          | .ok u => some ({ st with ops := st.ops.set i u }, x.out.map (.process (i + 1)))
          | .error _ => none
  | .pass i v, st =>
      match st.ops[i]? with
      | some (.limitResult num processed) =>
          some ({ st with ops := st.ops.set i (.limitResult num (processed + 1)) },
            [.process (i + 1) v])
      | _ => none

/-- The calls at the end of the input of a pipeline, after those for the tuples
of `vs`. -/
def finishPipeline : List (UnaryOp × Bool) → List QrTuple → Emits Unit
  | [], vs => .tell vs
  | (u, own) :: ops, vs => do
      let x := feed (UnaryOp.process env env.fuel) u vs
      let u ← Emit.ofExcept x.ended
      let y := if own then u.finish env else pure u
      let _ ← Emit.ofExcept y.ended
      finishPipeline ops (x.out ++ y.out)

/-- The scans of the tasks; a scan for several labels is not a parallel one. -/
def Source.scans : Source → List (Emits Unit)
  | .nodeScan label labels =>
      let ctx := env.ctx
      let ranges := chunkRanges ((ctx.db.nodes.size + (nodesPerChunk - 1)) / nodesPerChunk)
      if label = "" ∧ labels = [] then
        ranges.map fun r => (nodeScanTask ctx.db ctx.xid r.1 r.2).emits fun r =>
          .node (env.nodePtr r)
      else if label ≠ "" then
        ranges.map fun r =>
          (nodeScanTaskWithLabel ctx.db ctx.xid (ctx.lookupString label) r.1 r.2).emits fun r =>
            .node (env.nodePtr r)
      else [(env.nodeScan label labels).emits fun r => .node (env.nodePtr r)]
  | .relationshipScan label labels =>
      let ctx := env.ctx
      let ranges := chunkRanges ((ctx.db.rships.size + (rshipsPerChunk - 1)) / rshipsPerChunk)
      if label = "" ∧ labels = [] then
        ranges.map fun r => (rshipScanTask ctx.db ctx.xid r.1 r.2).emits fun r =>
          .rship (env.rshipPtr r)
      else if label ≠ "" then
        ranges.map fun r =>
          (rshipScanTaskWithLabel ctx.db ctx.xid (ctx.lookupString label) r.1 r.2).emits fun r =>
            .rship (env.rshipPtr r)
      else [(env.relationshipScan label labels).emits fun r => .rship (env.rshipPtr r)]
  | .nodeById id => [(Source.nodeById id).scan env]

/-- What a scan checks before it makes the tasks. -/
def Source.check : Source → Except EngineErr Unit
  | .nodeById _ => .ok ()
  | _ => (runDb env (checkTxContext env.ctx.xid)).ended

/-- The tuples of the tasks, if no scan throws. -/
def Source.tasks (s : Source) : Except EngineErr (List (List QrTuple)) := do
  let _ ← s.check env
  (s.scans env).mapM fun x => x.ended.map fun _ => x.out

/-- The pool at the start of a scan. -/
def scanPool (ι : Type) (ops : List UnaryOp) (tasks : List (List QrTuple)) :
    Pool ι PipelineState Call :=
  .new ⟨ops, []⟩ (tasks.map fun vs => vs.map (.process 0))

/-- A scan with `k` workers and the operators above it: what `collect_result` is
told. -/
inductive ParallelRun (k : Nat) (s : Source) (ops : List (UnaryOp × Bool)) :
    List (Event QrTuple) → Prop where
  | intro {tasks : List (List QrTuple)} {p : Pool (Fin k) PipelineState Call} {ws : List QrTuple} :
      s.tasks env = .ok tasks →
      Relation.ReflTransGen (Workers.Step (Call.run env))
        (scanPool (Fin k) (ops.map Prod.fst) tasks) p →
      p.Done → finishPipeline env (p.state.ops.zip (ops.map Prod.snd)) [] = ⟨ws, .ok ()⟩ →
      ParallelRun k s ops ((p.state.results ++ ws).map .tuple ++ [.finish])

end

/-- The producer of a query without joins and unions, and the operators above
it. -/
def Query.pipeline (ctx : QueryCtx) :
    Query → Except PlanErr (Option (Source × List (UnaryOp × Bool)))
  | .source s => .ok (some (s, []))
  | .pattern node path => do
      let ops ← patternOps ctx node path
      .ok (some (.nodeScan node.label [], ops.map fun u => (u, false)))
  | .op c q => do
      let r ← q.pipeline ctx
      let ops ← c.ops ctx
      .ok (r.map fun p => (p.1, p.2 ++ ops))
  | _ => .ok none

/-- A run of a query with `k` workers, if its operators can be called in several
threads: what `collect_result` is told. -/
inductive Query.RunsParallel (env : Env) (k : Nat) (q : Query) : List (Event QrTuple) → Prop where
  | intro {s : Source} {ops : List (UnaryOp × Bool)} {es : List (Event QrTuple)} :
      q.pipeline env.ctx = .ok (some (s, ops)) → (∀ x ∈ ops, x.1.Guarded) →
      ParallelRun env k s ops es → Query.RunsParallel env k q es

end Poseidon
