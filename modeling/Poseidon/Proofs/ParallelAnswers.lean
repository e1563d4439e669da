import Poseidon.Proofs.Distinct
import Poseidon.Proofs.ParallelRuns

/-!
# Answers of parallel runs

What the interleaving of the workers can change in the answers of a query. If its
operators have no state, only their order; the tuples that a limit lets through,
and how many they are; of tuples with the same key, which of them is passed on as
distinct.
-/

namespace Poseidon

open Dataflow Results Relation Workers

/-! ## Operators without state -/

/-- The operators that do the same for every tuple. -/
def UnaryOp.Stateless : UnaryOp → Prop
  | .isProperty _ _ | .nodeHasLabel _ _ | .getFromNode | .getToNode => True
  | .foreachRelationship _ _ _ _ | .filterOp _ | .projection _ => True
  | .algorithmOp st => st.tuple = true
  | _ => False

def Clause.Stateless : Clause → Prop
  | .filter _ | .project _ | .expand _ _ | .foreachRelationship _ _ _ _ => True
  | .algorithm _ tuple _ => tuple = true
  | _ => False

/-- There are no joins, and the operators have no state. -/
def Query.Stateless : Query → Prop
  | .source _ | .pattern _ _ => True
  | .op c q => c.Stateless ∧ q.Stateless
  | _ => False

section

variable {env : Env} {ctx : QueryCtx} {k : Nat} {q : Query} {s : Source} {u u' : UnaryOp}
  {ops ops' : List (UnaryOp × Bool)} {vs vs' us ws ws' : List QrTuple}
  {es es' : List (Event QrTuple)}

/-- An algorithm that is called for each tuple. -/
theorem algorithm_kept (env : Env) {st : AlgorithmOp} (h : st.tuple = true) (v : QrTuple) :
    st.process env v = st.process env v >>= fun _ => pure st := by
  rw [AlgorithmOp.process, if_pos h]
  cases env.tupleAlgorithms st.name with
  | none => rfl
  | some func =>
      simp only [Emit.bind_assoc, Emit.pure_bind]

theorem stateless_process (env : Env) (hu : u.Stateless) : ∃ g : QrTuple → Emits Unit,
    ∀ v, u.process env env.fuel v = g v >>= fun _ => pure u := by
  obtain ⟨f, hf⟩ := process_eq env env.fuel
  rw [hf]
  cases u with
  | isProperty | nodeHasLabel | getFromNode | getToNode | foreachRelationship | filterOp
  | projection => exact ⟨_, fun _ => rfl⟩
  | algorithmOp st =>
      refine ⟨fun v => st.process env v >>= fun _ => pure (), fun v => ?_⟩
      have hkept := congrArg (· >>= fun st => pure (UnaryOp.algorithmOp st))
        (algorithm_kept env hu v)
      refine hkept.trans ?_
      show ((st.process env v >>= fun _ => pure st) >>= _) =
        ((st.process env v >>= fun _ => pure ()) >>= fun _ => pure (UnaryOp.algorithmOp st))
      rw [Emit.bind_assoc, Emit.bind_assoc]
      rfl
  | _ => exact hu.elim

/-- The order of the tuples does not matter to an operator without state. -/
theorem stateless_feed (hu : u.Stateless) (hp : vs'.Perm vs)
    (h : feed (UnaryOp.process env env.fuel) u vs' = ⟨us, .ok u'⟩) :
    u' = u ∧ ∃ us', feed (UnaryOp.process env env.fuel) u vs = ⟨us', .ok u⟩ ∧ us.Perm us' := by
  obtain ⟨g, hg⟩ := stateless_process env hu
  obtain ⟨rfl, hended⟩ := feed_each hg h
  cases h.symm.trans (feed_each_ok hg hended)
  exact ⟨rfl, _, feed_each_ok hg fun v hv => hended v (hp.mem_iff.mpr hv), hp.flatMap_right _⟩

/-- Operators without state below others. -/
theorem shuffled_stateless (hops : ∀ x ∈ ops, x.1.Stateless ∧ x.2 = false)
    (h : Shuffled env k (ops ++ ops') vs ws) :
    ∃ us, Through env ops vs us ∧ Shuffled env k ops' us ws := by
  induction ops generalizing vs with
  | nil => exact ⟨vs, .nil, h⟩
  | cons x ops ih =>
      have hx := hops x (List.mem_cons_self ..)
      have hrest := fun y hy => hops y (List.mem_cons_of_mem x hy)
      cases h with
      | limit _ _ _ _ => exact hx.1.elim
      | @whole u u' u'' own _ _ vs' us xs _ hu hperm hfeed hfin hshuffled =>
          obtain ⟨hstate, hown⟩ := hx
          cases hown
          cases hfin
          obtain ⟨rfl, us', hfeed', hus⟩ := stateless_feed hstate hperm hfeed
          rw [List.append_nil] at hshuffled
          obtain ⟨ws', hthrough, hshuffled'⟩ := ih hrest (hshuffled.perm hus)
          exact ⟨ws', .cons hfeed' rfl (by rwa [List.append_nil]), hshuffled'⟩

/-! ## Queries without state -/

theorem propertyFilter_stateless {i : Nat} {ps : List (String × PropValue)}
    (hu : u ∈ propertyFilter ctx i ps) : u.Stateless := by
  cases ps with
  | nil => cases hu
  | cons p ps =>
      cases List.mem_singleton.mp hu
      trivial

theorem componentOps_stateless {first second : DirSpec} {dir : RshipDir}
    (h : componentOps first second = .ok (dir, u)) : u.Stateless := by
  cases first <;> cases second <;> cases h <;> trivial

theorem pathOps_stateless {path : List PathComponent} {i : Nat} {us : List UnaryOp}
    (h : pathOps ctx i path = .ok us) : ∀ u ∈ us, u.Stateless := by
  induction path generalizing i us with
  | nil =>
      cases h
      intro u hu
      cases hu
  | cons c path ih =>
      rw [pathOps] at h
      obtain ⟨⟨dir, getOp⟩, hcomponent, h⟩ := bind_eq_ok h
      obtain ⟨rest, hrest, h⟩ := bind_eq_ok h
      cases h
      intro u hu
      rcases List.mem_append.mp hu with hu | hu
      · rcases List.mem_append.mp hu with hu | hu
        · rcases List.mem_cons.mp hu with rfl | hu
          · trivial
          · rcases List.mem_cons.mp hu with rfl | hu
            · exact componentOps_stateless hcomponent
            · cases List.mem_singleton.mp hu
              trivial
        · exact propertyFilter_stateless hu
      · exact ih hrest u hu

theorem clause_stateless {c : Clause} {ops : List (UnaryOp × Bool)} (hc : c.Stateless)
    (h : c.ops ctx = .ok ops) : ∀ x ∈ ops, x.1.Stateless ∧ x.2 = false := by
  intro x hx
  cases c with
  | filter | project | foreachRelationship =>
      cases h
      cases List.mem_singleton.mp hx
      exact ⟨trivial, rfl⟩
  | expand dir label =>
      cases h
      rcases List.mem_cons.mp hx with rfl | hx
      · cases dir <;> exact ⟨trivial, rfl⟩
      · cases List.mem_singleton.mp hx
        exact ⟨trivial, rfl⟩
  | algorithm name tuple args =>
      cases h
      cases List.mem_singleton.mp hx
      exact ⟨hc, rfl⟩
  | _ => exact hc.elim

/-- The pipeline below a clause. -/
theorem pipeline_op {c : Clause} (h : (Query.op c q).pipeline ctx = .ok (some (s, ops))) :
    ∃ us us', q.pipeline ctx = .ok (some (s, us)) ∧ c.ops ctx = .ok us' ∧ ops = us ++ us' := by
  obtain ⟨r, hr, h⟩ := bind_eq_ok h
  obtain ⟨us', hus', h⟩ := bind_eq_ok h
  cases r with
  | none => cases h
  | some p =>
      cases h
      exact ⟨p.2, us', hr, hus', rfl⟩

theorem pipeline_stateless (hq : q.Stateless) (h : q.pipeline ctx = .ok (some (s, ops))) :
    ∀ x ∈ ops, x.1.Stateless ∧ x.2 = false := by
  induction q generalizing ops with
  | source s =>
      cases h
      intro x hx
      cases hx
  | pattern node path =>
      obtain ⟨us, hus, h⟩ := bind_eq_ok h
      obtain ⟨rest, hrest, hus⟩ := bind_eq_ok hus
      cases hus
      cases h
      intro x hx
      obtain ⟨u, hu, rfl⟩ := List.mem_map.mp hx
      refine ⟨?_, rfl⟩
      rcases List.mem_append.mp hu with hu | hu
      · exact propertyFilter_stateless hu
      · exact pathOps_stateless hrest u hu
  | op c q ih =>
      obtain ⟨us, us', hus, hus', rfl⟩ := pipeline_op h
      intro x hx
      rcases List.mem_append.mp hx with hx | hx
      · exact ih hq.2 hus x hx
      · exact clause_stateless hq.1 hus' x hx
  | _ => exact hq.elim

/-- What comes through the pipeline of a query answers it. -/
theorem pipeline_answers (hq : q.pipeline env.ctx = .ok (some (s, ops)))
    (hs : s.scan env = ⟨vs, .ok ()⟩) (h : Through env ops vs ws) : q.Answers env ws := by
  induction q generalizing ops ws with
  | source s =>
      cases hq
      cases h
      exact .source hs
  | pattern node path =>
      obtain ⟨us, hus, hq⟩ := bind_eq_ok hq
      cases hq
      exact .pattern hs hus h
  | op c q ih =>
      obtain ⟨us, us', hus, hus', rfl⟩ := pipeline_op hq
      obtain ⟨vs', h1, h2⟩ := through_append h
      exact .op (ih hus h1) hus' h2
  | _ => cases hq

theorem through_unique (h : Through env ops vs ws) (h' : Through env ops vs ws') : ws = ws' := by
  induction h with
  | nil =>
      cases h'
      rfl
  | cons hfeed hfin _ ih =>
      cases h' with
      | cons hfeed' hfin' hrest =>
          cases hfeed.symm.trans hfeed'
          cases hfin.symm.trans hfin'
          exact ih hrest

theorem answers_unique (hq : q.Stateless) (h : q.Answers env vs) (h' : q.Answers env vs') :
    vs = vs' := by
  induction q generalizing vs vs' with
  | source s =>
      cases h with
      | source h =>
          cases h' with
          | source h' =>
              cases h.symm.trans h'
              rfl
  | pattern node path =>
      cases h with
      | pattern hs hops h =>
          cases h' with
          | pattern hs' hops' h' =>
              cases hs.symm.trans hs'
              cases hops.symm.trans hops'
              exact through_unique h h'
  | op c q ih =>
      cases h with
      | op h hops hthrough =>
          cases h' with
          | op h' hops' hthrough' =>
              cases ih hq.2 h h'
              cases hops.symm.trans hops'
              exact through_unique hthrough hthrough'
  | _ => exact hq.elim

theorem stateless_stores (hq : q.Stateless) : q.Stores Query.JoinFree := by
  induction q with
  | source | pattern => trivial
  | op c q ih => exact ih hq.2
  | _ => exact hq.elim

/-! ## Parallel runs of queries -/

/-- A pipeline is the plan of its query. -/
theorem pipeline_tree (h : q.pipeline ctx = .ok (some (s, ops))) (i : Nat) :
    q.tree ctx i = .ok (appendOps (.source i s) ops) := by
  induction q generalizing ops with
  | source s' =>
      cases h
      rfl
  | pattern node path =>
      obtain ⟨us, hus, h⟩ := bind_eq_ok h
      cases h
      rw [Query.tree, hus]
      rfl
  | op c q ih =>
      obtain ⟨us, us', hus, hus', rfl⟩ := pipeline_op h
      rw [Query.tree, ih hus, hus']
      exact congrArg Except.ok List.foldl_append.symm
  | _ => cases h

/-- Where the operators have no state, only the order is left open. -/
theorem Query.RunsParallel.answers (hq : q.Stateless) (h : q.RunsParallel env k es) :
    ∃ vs ws : List QrTuple, q.Answers env vs ∧ ws.Perm vs ∧ es = ws.map .tuple ++ [.finish] := by
  cases h with
  | @intro s ops _ hpipeline _ hrun =>
      obtain ⟨vs, ws, hscan, hshuffled, hes⟩ := parallelRun_shuffled hrun
      have hops := pipeline_stateless hq hpipeline
      rw [← List.append_nil ops] at hshuffled
      obtain ⟨us, hthrough, hnil⟩ := shuffled_stateless hops hshuffled
      cases hnil with
      | nil hperm => exact ⟨us, ws, pipeline_answers hpipeline hscan hthrough, hperm, hes⟩

/-- A clause above operators without state. -/
theorem Query.RunsParallel.clause {c : Clause} (hq : q.Stateless)
    (h : (Query.op c q).RunsParallel env k es) :
    ∃ (ops : List (UnaryOp × Bool)) (vs ws : List QrTuple), c.ops env.ctx = .ok ops ∧
      q.Answers env vs ∧ Shuffled env k ops vs ws ∧ es = ws.map .tuple ++ [.finish] := by
  cases h with
  | intro hpipeline _ hrun =>
      obtain ⟨vs, ws, hscan, hshuffled, hes⟩ := parallelRun_shuffled hrun
      obtain ⟨us, us', hus, hus', rfl⟩ := pipeline_op hpipeline
      obtain ⟨vs', hthrough, hrest⟩ := shuffled_stateless (pipeline_stateless hq hus) hshuffled
      exact ⟨us', vs', ws, hus', pipeline_answers hus hscan hthrough, hrest, hes⟩

/-- Two nodes in chunks that different tasks scan. -/
def Env.twoTasks : Env :=
  { Env.twoNodes with ctx := { Env.twoNodes.ctx with db := { Env.twoNodes.ctx.db with
      nodes := ⟨fun i => if i = 40850 then .committed ⟨i, UNKNOWN, UNKNOWN, UNKNOWN, 2⟩
        else slotOf [⟨0, UNKNOWN, UNKNOWN, UNKNOWN, 1⟩] i, 40851⟩ } } }

theorem filter_range_eq {n a : Nat} {p : Nat → Bool} (ha : a < n)
    (h : ∀ i < n, p i = true ↔ i = a) : (List.range n).filter p = [a] := by
  have hp : (List.range n).filter p = (List.range n).filter (· == a) :=
    List.filter_congr fun i hi => by
      rw [Bool.eq_iff_iff, h i (List.mem_range.mp hi), beq_iff_eq]
  rw [hp, List.filter_beq, List.count_eq_one_of_mem List.nodup_range (List.mem_range.mpr ha)]
  rfl

theorem twoTasks_range {first last a : Nat}
    (ha : (a = 0 ∧ first = 0 ∧ last = 49) ∨ (a = 40850 ∧ first = 50 ∧ last = 99)) :
    Env.twoTasks.ctx.db.nodes.range nodesPerChunk first last = [a] := by
  refine filter_range_eq ?_ fun i hi => ?_
  · change a < 40851
    omega
  · have hused : (Env.twoTasks.ctx.db.nodes.slots i).used = true ↔ i = 40850 ∨ i = 0 := by
      change (if i = 40850 then Record.committed _ else slotOf _ i).used = true ↔ _
      split
      · simp_all [Record.committed]
      · cases i with
        | zero => simp [slotOf, Record.committed]
        | succ i => simp_all [slotOf, Record.fresh]
    change (i : Nat) < 40851 at hi
    change (decide (first ≤ i / 817) && decide (i / 817 ≤ last) &&
      ((Env.twoTasks.ctx.db.nodes.slots i).used || i == first * 817)) = true ↔ _
    simp only [Bool.and_eq_true, Bool.or_eq_true, decide_eq_true_eq, hused, beq_iff_eq]
    omega

theorem twoTasks_tasks : (Source.nodeScan "" []).tasks Env.twoTasks =
    .ok [[[.node 0]], [[.node 81700]]] := by
  have h0 := @twoTasks_range 0 49 0 (.inl ⟨rfl, rfl, rfl⟩)
  have h1 := @twoTasks_range 50 99 40850 (.inr ⟨rfl, rfl, rfl⟩)
  have hscans : (Source.nodeScan "" []).scans Env.twoTasks = [(0, 49), (50, 99)].map fun r =>
      (nodeScanTask Env.twoTasks.ctx.db Env.twoTasks.ctx.xid r.1 r.2).emits fun r =>
        .node (Env.twoTasks.nodePtr r) := rfl
  rw [Source.tasks, hscans]
  simp only [List.map, nodeScanTask, h0, h1]
  rfl

theorem twoTasks_nodeScan : Env.twoTasks.nodeScan "" [] =
    ⟨[⟨0, .slot⟩, ⟨40850, .slot⟩], none⟩ := by
  have h0 := @twoTasks_range 0 49 0 (.inl ⟨rfl, rfl, rfl⟩)
  have h1 := @twoTasks_range 50 99 40850 (.inr ⟨rfl, rfl, rfl⟩)
  have hscan : Env.twoTasks.nodeScan "" [] = parallelScan
      (nodeScanTask Env.twoTasks.ctx.db Env.twoTasks.ctx.xid) [(0, 49), (50, 99)] := rfl
  rw [hscan, parallelScan]
  simp only [List.map, nodeScanTask, h0, h1]
  rfl


/-- The batch of `allNodes`. -/
theorem twoTasks_start : ∃ b, prepareQuery Env.twoTasks.ctx Query.allNodes = .ok (some b) ∧
    b.Scheduled [0] ∧ b.start .twoTasks [0] =
      ⟨[.tuple [.node 0], .tuple [.node 81700], .finish], .ok ()⟩ := by
  have hscan : (Source.nodeScan "" []).scan .twoTasks = ⟨[[.node 0], [.node 81700]], .ok ()⟩ := by
    rw [Source.scan, twoTasks_nodeScan]
    rfl
  obtain ⟨t, b, ht, hb, hruns⟩ := @prepareQuery_ok Env.twoTasks.ctx .allNodes _ rfl
  cases ht
  cases hb
  refine ⟨_, rfl, ⟨by decide, by decide⟩, ?_⟩
  rw [hruns.start .twoTasks [0] (by decide)]
  have hplay : (Plan.source 0 (Source.nodeScan "" []) : QopTree).play Env.twoTasks.ops [0] =
      ⟨[.tuple [.node 0], .tuple [.node 81700], .finish], .ok (.source 0 (.nodeScan "" []))⟩ := by
    rw [Plan.play, Plan.run]
    simp only [Env.ops, hscan]
    rfl
  rw [hplay]
  rfl
/-- Runs over the two nodes. -/
theorem twoTasks_runs {p : Pool (Fin 2) PipelineState Call}
    (hq : q.pipeline Env.twoTasks.ctx = .ok (some (.nodeScan "" [], ops)))
    (hops : ∀ x ∈ ops, x.1.Guarded)
    (hsteps : ReflTransGen (Workers.Step (Call.run .twoTasks))
      (scanPool (Fin 2) (ops.map Prod.fst) [[[.node 0]], [[.node 81700]]]) p)
    (hdone : p.Done)
    (hfin : finishPipeline .twoTasks (p.state.ops.zip (ops.map Prod.snd)) [] = ⟨ws, .ok ()⟩) :
    q.RunsParallel .twoTasks 2 ((p.state.results ++ ws).map .tuple ++ [.finish]) :=
  .intro hq hops (.intro twoTasks_tasks hsteps hdone hfin)

/-- Each worker takes a task. -/
theorem twoTasks_take (ops : List UnaryOp) : ReflTransGen (Workers.Step (Call.run .twoTasks))
    (scanPool (Fin 2) ops [[[.node 0]], [[.node 81700]]])
    ⟨⟨ops, []⟩, [], Function.update (Function.update (fun _ => []) 0 [.process 0 [.node 0]]) 1
      [.process 0 [.node 81700]]⟩ :=
  .tail (.single (.take (i := 0) rfl rfl)) (.take (i := 1) rfl rfl)

/-- The second worker is ahead. -/
theorem twoTasks_scan : Query.allNodes.RunsParallel .twoTasks 2
    [.tuple [.node 81700], .tuple [.node 0], .finish] := by
  have hsteps := ((twoTasks_take []).tail (.run (i := 1) rfl rfl)).tail (.run (i := 0) rfl rfl)
  exact @twoTasks_runs .allNodes [] [] _ rfl (fun x hx => by cases hx) hsteps
    ⟨rfl, Fin.forall_fin_two.mpr ⟨rfl, rfl⟩⟩ rfl

/-- A query whose operators have no state tells the same with workers as without,
apart from the order. -/
theorem parallel_run_agrees {b : QueryBatch} {seq : List Nat} (hq : q.Stateless)
    (h : q.RunsParallel env k es) (hb : prepareQuery env.ctx q = .ok (some b))
    (hs : b.Scheduled seq) (hr : b.start env seq = ⟨es', .ok ()⟩) :
    ∃ vs vs' : List QrTuple, es = vs.map .tuple ++ [.finish] ∧
      es' = vs'.map .tuple ++ [.finish] ∧ vs.Perm vs' := by
  obtain ⟨ws, vs, hanswers, hperm, hes⟩ := h.answers hq
  obtain ⟨vs', hes', hanswers'⟩ := sorted_run_answers hb (stateless_stores hq) hs hr
  cases answers_unique hq hanswers hanswers'
  exact ⟨vs, ws, hes, hes', hperm⟩

theorem twoTasks_agrees : ∃ vs vs' : List QrTuple,
    [Event.tuple [.node 81700], .tuple [.node 0], .finish] = vs.map .tuple ++ [.finish] ∧
      [Event.tuple [.node 0], .tuple [.node 81700], .finish] = vs'.map .tuple ++ [.finish] ∧
        vs.Perm vs' := by
  obtain ⟨b, hb, hs, hr⟩ := twoTasks_start
  exact parallel_run_agrees (q := .allNodes) trivial twoTasks_scan hb hs hr

/-- A limit lets through as many tuples as it should, or as many more as there are
other workers. -/
theorem parallel_limit {n : Nat} (hq : q.Stateless)
    (h : (Query.op (.limit n) q).RunsParallel env k es) :
    ∃ vs ws : List QrTuple, q.Answers env vs ∧ es = ws.map .tuple ++ [.finish] ∧ ws.Subperm vs ∧
      min n vs.length ≤ ws.length ∧ (n = 0 → ws = []) ∧ ws.length ≤ n + (k - 1) := by
  obtain ⟨ops, vs, ws, hops, hanswers, hshuffled, hes⟩ := h.clause hq
  cases hops
  refine ⟨vs, ws, hanswers, hes, ?_⟩
  cases hshuffled with
  | whole hu _ _ _ _ => exact hu.elim
  | limit hsub hleast hmost hrest =>
      cases hrest with
      | nil hperm =>
          have hlength := hperm.length_eq
          refine ⟨hperm.subperm.trans hsub, by omega, fun hn => ?_, ?_⟩
          · rw [if_pos (by omega)] at hmost
            exact List.length_eq_zero_iff.mp (by omega)
          · split at hmost <;> omega

/-- Both workers test the counter before one of them increments it. -/
theorem twoTasks_limit : ∃ vs ws : List QrTuple, Query.allNodes.Answers .twoTasks vs ∧
    [Event.tuple [.node 0], .tuple [.node 81700], .finish] = ws.map .tuple ++ [.finish] ∧
      ws.Subperm vs ∧ min 1 vs.length ≤ ws.length ∧ (1 = 0 → ws = []) ∧
        ws.length ≤ 1 + (2 - 1) := by
  have htests := ((twoTasks_take [.limitResult 1 0]).tail (.run (i := 0) rfl rfl)).tail
    (.run (i := 1) rfl rfl)
  have hpasses := (htests.tail (.run (i := 0) rfl rfl)).tail (.run (i := 1) rfl rfl)
  exact parallel_limit trivial (@twoTasks_runs (.op (.limit 1) .allNodes)
    [(.limitResult 1 0, false)] [] _ rfl (by simp [UnaryOp.Guarded])
    ((hpasses.tail (.run (i := 0) rfl rfl)).tail (.run (i := 1) rfl rfl))
    ⟨rfl, Fin.forall_fin_two.mpr ⟨rfl, rfl⟩⟩ rfl)

/-- The tuples that are passed on as distinct. -/
theorem feed_distinct {st : DistinctTuples}
    (h : feed (UnaryOp.process env env.fuel) (.distinctTuples st) vs = ⟨us, .ok u'⟩) :
    us = st.run env.isoExtended env.ctx vs := by
  obtain ⟨f, hf⟩ := process_eq env env.fuel
  rw [hf] at h
  induction vs generalizing st us with
  | nil =>
      cases h
      rfl
  | cons v vs ih =>
      obtain ⟨_, u, _, hv, hrest, rfl⟩ := Emit.bind_eq_ok.mp h
      cases hv
      rw [ih hrest]
      exact congrArg (· ++ _) (List.append_nil _)

/-- Of the tuples with a key one is passed on, whatever the order. -/
theorem parallel_distinct (hq : q.Stateless) (h : (Query.op .distinct q).RunsParallel env k es) :
    ∃ vs ws : List QrTuple, q.Answers env vs ∧ es = ws.map .tuple ++ [.finish] ∧ ws.Subperm vs ∧
      (ws.map (DistinctTuples.key env.isoExtended env.ctx)).Nodup ∧
      ∀ v ∈ vs, ∃ w ∈ ws, DistinctTuples.key env.isoExtended env.ctx w =
        DistinctTuples.key env.isoExtended env.ctx v := by
  obtain ⟨ops, vs, ws, hops, hanswers, hshuffled, hes⟩ := h.clause hq
  cases hops
  refine ⟨vs, ws, hanswers, hes, ?_⟩
  cases hshuffled with
  | whole _ hperm hfeed hfin hrest =>
      cases hfin
      cases hrest with
      | nil hperm' =>
          have hseen : ∀ key, key ∈ DistinctTuples.new.keys ↔
              ∃ v ∈ [], DistinctTuples.key env.isoExtended env.ctx v = key := by
            simp [DistinctTuples.new]
          rw [List.append_nil, feed_distinct hfeed, DistinctTuples.run_eq hseen] at hperm'
          refine ⟨hperm'.subperm.trans (Firsts.firsts_sublist.subperm.trans hperm.subperm),
            (hperm'.map _).nodup_iff.mpr Firsts.keys_nodup, fun v hv => ?_⟩
          have hfirst := @Firsts.exists_first_key _ _ _ _ _
            (DistinctTuples.key env.isoExtended env.ctx) (hperm.mem_iff.mpr hv)
          obtain ⟨w, hw, hkey⟩ := hfirst
          exact ⟨w, hperm'.mem_iff.mpr hw, hkey⟩

theorem twoTasks_distinct : ∃ vs ws : List QrTuple, Query.allNodes.Answers .twoTasks vs ∧
    [Event.tuple [.node 81700], .tuple [.node 0], .finish] = ws.map .tuple ++ [.finish] ∧
      ws.Subperm vs ∧
        (ws.map (DistinctTuples.key Env.twoTasks.isoExtended Env.twoTasks.ctx)).Nodup ∧
          ∀ v ∈ vs, ∃ w ∈ ws, DistinctTuples.key Env.twoTasks.isoExtended Env.twoTasks.ctx w =
            DistinctTuples.key Env.twoTasks.isoExtended Env.twoTasks.ctx v := by
  have hcalls := ((twoTasks_take [.distinctTuples .new]).tail (.run (i := 1) rfl rfl)).tail
    (.run (i := 0) rfl rfl)
  exact parallel_distinct trivial (@twoTasks_runs (.op .distinct .allNodes)
    [(.distinctTuples .new, false)] [] _ rfl (by simp [UnaryOp.Guarded])
    ((hcalls.tail (.run (i := 1) rfl rfl)).tail (.run (i := 0) rfl rfl))
    ⟨rfl, Fin.forall_fin_two.mpr ⟨rfl, rfl⟩⟩ rfl)

end

end Poseidon
