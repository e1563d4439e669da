import Poseidon.Proofs.QueryMatches

/-!
# Clauses

What some clauses make of a query, whatever is below them and in whatever order
its pipelines run: an algorithm that is called once for all tuples, a limit in a
nested query, and a pattern with a relationship without direction.
-/

namespace Poseidon

open Dataflow Results

section

variable {env : Env} {ctx : QueryCtx} {q : Query} {c : Clause} {t t' : QopTree} {b : QueryBatch}
  {seq : List Nat} {es : List (Event QrTuple)} {rs : List (Entry QrTuple)}
  {ops : List (UnaryOp × Bool)}

/-- The operators above a tree are given what the tree hands on. -/
theorem runs_appendOps (h : Runs (A := env.ops) (appendOps t ops) rs t') (hf : t.Fresh env.ops)
    (hn : t.labels.Nodup) (hp : (rs.map Entry.label).Perm t.labels) :
    ∃ ts t1, Runs (A := env.ops) t ts t1 ∧ rs.map Entry.label = ts.map Entry.label ∧
      Through env ops (outs ts) (outs rs) := by
  induction ops generalizing t with
  | nil => exact ⟨rs, t', h, rfl, .nil⟩
  | cons x ops ih =>
      obtain ⟨ts1, t1, h1, hlabels, hthrough⟩ := ih (t := .unary x.1 x.2 t) h hf hn hp
      obtain ⟨ts, t2, u, h2, hfed, -⟩ := runs_unary h1 rfl
      have hends : EndsOnce ts := h2.endsOnce env.ops_lawful hf hn (by
        rw [← hfed.labels, ← hlabels]
        exact hp)
      obtain ⟨ws, u1, hfeed, hdef, hown⟩ := hfed.feeds hends
      refine ⟨ts, t2, h2, hlabels.trans hfed.labels, ?_⟩
      obtain ⟨u0, own⟩ := x
      cases own with
      | false =>
          rw [hdef rfl] at hthrough
          exact .cons hfeed rfl (by rwa [List.append_nil])
      | true =>
          obtain ⟨xs, u2, hfin, hout⟩ := hown rfl
          rw [hout] at hthrough
          exact .cons hfeed hfin hthrough

/-- What a run with a clause at the top tells comes through the operators of the
clause. -/
theorem run_of_clause (h : prepareQuery env.ctx (.op c q) = .ok (some b))
    (hseq : seq.Perm (List.range b.pipelines.length)) (hr : b.start env seq = ⟨es, .ok ()⟩) :
    ∃ ops vs ws, c.ops env.ctx = .ok ops ∧ Through env ops vs ws ∧
      es = ws.map .tuple ++ [.finish] := by
  obtain ⟨t, b', ht, hb', hruns⟩ := prepareQuery_ok h
  cases hb'
  obtain ⟨rs, t', hrs, rfl, hperm, rfl⟩ := start_runs hruns hseq hr
  have hends := hrs.endsOnce env.ops_lawful (tree_fresh ht) (tree_nodup ht) hperm
  obtain ⟨t1, h1, ht⟩ := bind_eq_ok ht
  obtain ⟨ops, hops, ht⟩ := bind_eq_ok ht
  cases ht
  rw [appendOps_labels] at hperm
  obtain ⟨ts, t2, -, -, hthrough⟩ := runs_appendOps hrs (tree_fresh h1) (tree_nodup h1) hperm
  exact ⟨ops, outs ts, outs rs, hops, hthrough, hends.events⟩

/-! ## Algorithms for all tuples -/

theorem setAlgorithm_stores {name : String} {args : List AlgoParam} {input vs ws : List QrTuple}
    {u : UnaryOp}
    (h : feed (UnaryOp.process env env.fuel) (.algorithmOp ⟨false, name, args, input⟩) vs =
      ⟨ws, .ok u⟩) : ws = [] := by
  obtain ⟨f, hf⟩ := process_eq env env.fuel
  rw [hf] at h
  refine (feed_store (g := fun input v => (env.setAlgorithms name).elim (.error .assertion)
    fun _ => .ok (input ++ [v])) (c := fun input => UnaryOp.algorithmOp ⟨false, name, args, input⟩)
    (fun input v => ?_) h).1
  show (AlgorithmOp.process env ⟨false, name, args, input⟩ v >>= fun st =>
    pure (UnaryOp.algorithmOp st)) = _
  rw [AlgorithmOp.process]
  cases env.setAlgorithms name <;> rfl

/-- An algorithm for all tuples is never told that there are no more, so its query
has no answers. -/
theorem set_algorithm_delivers_nothing {name : String} {args : List AlgoParam}
    (h : prepareQuery env.ctx (.op (.algorithm name false args) q) = .ok (some b))
    (hseq : seq.Perm (List.range b.pipelines.length)) (hr : b.start env seq = ⟨es, .ok ()⟩) :
    es = [.finish] := by
  obtain ⟨ops, vs, ws, hops, hthrough, rfl⟩ := run_of_clause h hseq hr
  cases hops
  obtain ⟨us, u, hfeed, hrest⟩ := through_cons hthrough
  cases hrest
  rw [setAlgorithm_stores hfeed]
  rfl

/-- Two nodes, and an algorithm that gives back its input. -/
def Env.echo : Env :=
  { Env.twoNodes with setAlgorithms := fun _ => some fun vs _ => .ok vs }

/-- The two nodes are not given back. -/
theorem echo_delivers_nothing :
    (prepareQuery Env.echo.ctx (.op (.algorithm "echo" false []) .allNodes)).toOption.join.map
      (fun b => (b.start .echo [0]).out) = some [.finish] :=
  congrArg some
    (@set_algorithm_delivers_nothing .echo .allNodes _ [0] _ "echo" [] rfl (by decide) rfl)

/-! ## Limits in nested queries -/

/-- What is below the last operator of a nested query. -/
theorem chain_concat {f : UnaryOp → QrTuple → Emits UnaryOp} {us us' : List UnaryOp} {u : UnaryOp}
    {vs ws : List QrTuple} (h : chain f (us ++ [u]) vs = ⟨ws, .ok us'⟩) :
    ∃ ms us1 u1, chain f us vs = ⟨ms, .ok us1⟩ ∧ feed f u ms = ⟨ws, .ok u1⟩ ∧
      us' = us1 ++ [u1] := by
  induction us generalizing vs ws us' with
  | nil =>
      obtain ⟨xs, _, ys, h1, h2, rfl⟩ := Emit.bind_eq_ok.mp h
      cases h1
      obtain ⟨zs, u1, _, h3, h4, rfl⟩ := Emit.bind_eq_ok.mp h2
      cases h4
      obtain ⟨hended, rfl⟩ := Emit.ofExcept_eq_ok.mp h3
      refine ⟨vs, [], u1, congrArg (Emit.mk · _) (List.append_nil vs), ?_, rfl⟩
      rw [Emit.eq_mk hended]
      exact congrArg (Emit.mk · _) (by simp [Emit.tell, Emit.pure_eq])
  | cons w us ih =>
      obtain ⟨xs, us2, ys, h1, h2, rfl⟩ := Emit.bind_eq_ok.mp h
      obtain ⟨zs, w', _, h3, h4, rfl⟩ := Emit.bind_eq_ok.mp h2
      cases h4
      obtain ⟨hended, rfl⟩ := Emit.ofExcept_eq_ok.mp h3
      obtain ⟨ms, us3, u1, h5, h6, rfl⟩ := ih h1
      refine ⟨ms, w' :: us3, u1, ?_, ?_, rfl⟩
      · rw [chain, h5, Emit.ok_bind, hended]
        exact congrArg (Emit.mk · _) (List.append_nil ms)
      · rw [List.append_nil, List.append_nil]
        exact h6

/-- A limit hands on as many as it may, and counts them. -/
theorem feed_limit {num processed : Nat} (n : Nat) (vs : List QrTuple) :
    feed (UnaryOp.process env n) (.limitResult num processed) vs = ⟨vs.take (num - processed),
      .ok (.limitResult num (processed + (vs.take (num - processed)).length))⟩ := by
  obtain ⟨f, hf⟩ := process_eq env n
  rw [hf]
  induction vs generalizing processed with
  | nil => simp [feed_nil, Emit.pure_eq]
  | cons v vs ih =>
      rw [feed_cons]
      by_cases hlt : processed < num
      · have hone : UnaryOp.processWith env f (.limitResult num processed) v =
            ⟨[v], .ok (.limitResult num (processed + 1))⟩ := by
          rw [UnaryOp.processWith, if_pos hlt]
          rfl
        have hcount : processed + 1 + (vs.take (num - (processed + 1))).length =
            processed + ((vs.take (num - (processed + 1))).length + 1) := by omega
        rw [hone, Emit.ok_bind, ih, show num - processed = num - (processed + 1) + 1 by omega,
          List.take_succ_cons, List.length_cons, hcount]
        rfl
      · have hone : UnaryOp.processWith env f (.limitResult num processed) v =
            ⟨[], .ok (.limitResult num processed)⟩ := by
          rw [UnaryOp.processWith, if_neg hlt]
          rfl
        rw [hone, Emit.ok_bind, ih, show num - processed = 0 by omega]
        rfl

/-- The function of the operators of a nested query. -/
theorem process_nested (env : Env) (n : Nat) : ∃ f, UnaryOp.process env n =
    UnaryOp.processWith env f ∧
    ((∃ err, f = fun _ _ => .ofExcept (.error err)) ∨ ∃ m, f = UnaryOp.process env m) := by
  cases n with
  | zero => exact ⟨_, rfl, .inl ⟨.diverges, rfl⟩⟩
  | succ n => exact ⟨_, rfl, .inr ⟨n, rfl⟩⟩

/-- What the calls in a nested query do with a limit. -/
theorem nested_limit {f : UnaryOp → QrTuple → Emits UnaryOp} {num processed : Nat}
    (hf : (∃ err, f = fun _ _ => .ofExcept (.error err)) ∨ ∃ m, f = UnaryOp.process env m)
    (hle : processed ≤ num) {ms ws : List QrTuple} {u : UnaryOp}
    (h : feed f (.limitResult num processed) ms = ⟨ws, .ok u⟩) :
    processed + ws.length ≤ num ∧ u = .limitResult num (processed + ws.length) := by
  obtain ⟨err, rfl⟩ | ⟨m, rfl⟩ := hf
  · cases ms with
    | nil =>
        cases h
        exact ⟨hle, rfl⟩
    | cons v ms =>
        rw [feed_cons] at h
        cases congrArg Emit.ended h
  · rw [feed_limit] at h
    cases h
    refine ⟨?_, rfl⟩
    have := List.length_take_le (num - processed) ms
    omega

/-- Each tuple that is handed on has been counted by the limit. -/
theorem feed_exists {num processed : Nat} {us : List UnaryOp} {u : UnaryOp} {vs ws : List QrTuple}
    (hle : processed ≤ num)
    (h : feed (UnaryOp.process env env.fuel) (.existsOp false (us ++ [.limitResult num processed]))
      vs = ⟨ws, .ok u⟩) : processed + ws.length ≤ num := by
  obtain ⟨f, hf, hnested⟩ := process_nested env env.fuel
  rw [hf] at h
  induction vs generalizing us processed ws with
  | nil =>
      cases h
      exact hle
  | cons v vs ih =>
      obtain ⟨xs, u1, ys, h1, h2, rfl⟩ := Emit.bind_eq_ok.mp h
      obtain ⟨_, sub, _, h3, h4, rfl⟩ := Emit.bind_eq_ok.mp h1
      obtain ⟨hended, rfl⟩ := Emit.ofExcept_eq_ok.mp h3
      obtain ⟨ms, us1, u2, -, hlimit, rfl⟩ := chain_concat (Emit.eq_mk hended)
      obtain ⟨hcount, rfl⟩ := nested_limit hnested hle hlimit
      obtain ⟨_, _, _, h5, h6, rfl⟩ := Emit.bind_eq_ok.mp h4
      cases h5
      cases h6
      have hrest := ih hcount h2
      -- a tuple is handed on only if the limit has let something through for it
      have hone : (if false == (chain f (us ++ [.limitResult num processed]) [v]).out.isEmpty then
          [v] else []).length ≤ (chain f (us ++ [.limitResult num processed]) [v]).out.length := by
        cases (chain f (us ++ [.limitResult num processed]) [v]).out <;> simp
      simp only [List.nil_append, List.append_nil, List.length_append] at hrest ⊢
      omega

theorem subOps_concat {num : Nat} {sub : List Clause} {us : List UnaryOp}
    (h : Clause.subOps ctx (sub ++ [.limit num]) = .ok us) :
    ∃ us', us = us' ++ [.limitResult num 0] := by
  induction sub generalizing us with
  | nil =>
      cases h
      exact ⟨[], rfl⟩
  | cons c sub ih =>
      rw [List.cons_append, Clause.subOps] at h
      obtain ⟨ops, -, h⟩ := bind_eq_ok h
      obtain ⟨rest, hrest, h⟩ := bind_eq_ok h
      cases h
      obtain ⟨us', rfl⟩ := ih hrest
      exact ⟨ops.map Prod.fst ++ us', (List.append_assoc ..).symm⟩

/-- The counter of a limit in a nested query is not set back: over a whole run,
at most so many tuples have an answer of the nested query. -/
theorem exists_limit_bounds {num : Nat} {head : NestedHead} {sub : List Clause}
    (h : prepareQuery env.ctx (.op (.existsOp false head (sub ++ [.limit num])) q) = .ok (some b))
    (hseq : seq.Perm (List.range b.pipelines.length)) (hr : b.start env seq = ⟨es, .ok ()⟩) :
    ∃ vs : List QrTuple, es = vs.map .tuple ++ [.finish] ∧ vs.length ≤ num := by
  obtain ⟨ops, vs, ws, hops, hthrough, rfl⟩ := run_of_clause h hseq hr
  rw [Clause.ops] at hops
  obtain ⟨op, -, hops⟩ := bind_eq_ok hops
  obtain ⟨us, hus, hops⟩ := bind_eq_ok hops
  cases hops
  obtain ⟨us', rfl⟩ := subOps_concat hus
  obtain ⟨xs, u, hfeed, hrest⟩ := through_cons hthrough
  cases hrest
  rw [← List.cons_append] at hfeed
  exact ⟨ws, rfl, Nat.zero_add ws.length ▸ feed_exists (Nat.zero_le num) hfeed⟩

/-- Of the two nodes with a relationship, one is found. -/
theorem triangle_exists_one :
    ∃ vs : List QrTuple,
      [Event.tuple [.node 0], .finish] = vs.map .tuple ++ [.finish] ∧ vs.length ≤ 1 :=
  @exists_limit_bounds .triangle .allNodes _ [0] _ 1 (.foreachRelationship .from "" none (some 0))
    [] rfl (by decide) rfl

/-! ## Relationships without direction -/

theorem runDb_out {α : Type} (x : DbM α) : (runDb env x).out = [] := by
  rw [runDb]
  split <;> rfl

/-- What is handed on for both directions ends in a node. -/
theorem foreachAll_mem {label : String} {range : Option (Nat × Nat)} {npos : Option Nat}
    {v w : QrTuple} (h : w ∈ (foreachRelationshipProcess env .all label range npos v).out) :
    ∃ v' p, w = v' ++ [.node p] := by
  obtain h | ⟨q, -, h⟩ := Emit.mem_bind h
  · cases h
  obtain h | ⟨p, -, h⟩ := Emit.mem_bind h
  · cases h
  obtain h | ⟨n, -, h⟩ := Emit.mem_bind h
  · cases h
  obtain ⟨x, hx, h⟩ := Emit.mem_forM h
  have hnode : x.withNode = true := by
    rcases List.mem_cons.mp hx with rfl | hx
    · rfl
    · rw [List.mem_singleton.mp hx]
  obtain h | ⟨rs, -, h⟩ := Emit.mem_bind h
  · rw [runDb_out] at h
    cases h
  obtain ⟨r, -, h⟩ := Emit.mem_forM h
  rw [Expansion.extend, if_pos hnode] at h
  obtain h | ⟨d, -, h⟩ := Emit.mem_bind h
  · cases h
  obtain h | ⟨o, -, h⟩ := Emit.mem_bind h
  · rw [runDb_out] at h
    cases h
  exact ⟨_, _, List.mem_singleton.mp h⟩

/-- There is no relationship at the end of such a tuple. -/
theorem expand_node_error {side : RshipData → Nat} {v : QrTuple} {p : Nat} :
    (expandProcess env side (v ++ [.node p])).ended ≠ .ok () := by
  have hlast : element none (v ++ [.node p]) = .ok (.node p) := by
    simp [element]
  rw [expandProcess, hlast]
  intro h
  cases h

/-- The operators of a path with a component without direction. -/
theorem pathOps_undirected {c : PathComponent} {path : List PathComponent} {i : Nat}
    {us : List UnaryOp} (hc : c ∈ path) (hfirst : c.first = .no) (hsecond : c.second = .no)
    (h : pathOps env.ctx i path = .ok us) :
    ∃ pre range npos post,
      us = pre ++ .foreachRelationship .all c.rshipLabel range npos :: .getToNode :: post := by
  induction path generalizing i us with
  | nil => cases hc
  | cons c' path ih =>
      rw [pathOps] at h
      obtain ⟨⟨dir, getOp⟩, hops, h⟩ := bind_eq_ok h
      obtain ⟨rest, hrest, h⟩ := bind_eq_ok h
      cases h
      rcases List.mem_cons.mp hc with rfl | hc
      · rw [hfirst, hsecond] at hops
        cases hops
        exact ⟨[], _, _, _, rfl⟩
      · obtain ⟨pre, range, npos, post, rfl⟩ := ih hc hrest
        exact ⟨_, range, npos, post, (List.append_assoc ..).symm⟩

/-- Operators that are not told of the end hand nothing on if they are given
nothing. -/
theorem through_nothing {us : List UnaryOp} {ws : List QrTuple}
    (h : Through env (us.map fun u => (u, false)) [] ws) : ws = [] := by
  induction us with
  | nil =>
      cases h
      rfl
  | cons u us ih =>
      obtain ⟨vs, u', hfeed, hrest⟩ := through_cons h
      cases hfeed
      exact ih hrest

/-- A pattern with a relationship without direction has no answers: where there
is such a relationship, the query fails. -/
theorem undirected_pattern_delivers_nothing {node : NodePattern} {path : List PathComponent}
    {c : PathComponent} (hc : c ∈ path) (hfirst : c.first = .no) (hsecond : c.second = .no)
    (h : prepareQuery env.ctx (.pattern node path) = .ok (some b))
    (hseq : seq.Perm (List.range b.pipelines.length)) (hr : b.start env seq = ⟨es, .ok ()⟩) :
    es = [.finish] := by
  obtain ⟨t, b', ht, hb', hruns⟩ := prepareQuery_ok h
  cases hb'
  obtain ⟨rs, t', hrs, rfl, hperm, rfl⟩ := start_runs hruns hseq hr
  have hends := hrs.endsOnce env.ops_lawful (tree_fresh ht) (tree_nodup ht) hperm
  obtain ⟨us, hus, ht⟩ := bind_eq_ok ht
  cases ht
  obtain ⟨us', hus', hus⟩ := bind_eq_ok hus
  cases hus
  obtain ⟨pre, range, npos, post, rfl⟩ := pathOps_undirected hc hfirst hsecond hus'
  rw [appendOps_labels] at hperm
  have hsource : Query.tree env.ctx 0 (.source (.nodeScan node.label [])) =
    .ok (.source 0 (.nodeScan node.label [])) := rfl
  obtain ⟨ts, t2, -, -, hthrough⟩ :=
    runs_appendOps hrs (tree_fresh hsource) (tree_nodup hsource) hperm
  rw [List.map_append, List.map_append] at hthrough
  obtain ⟨vs1, -, hthrough⟩ := through_append hthrough
  obtain ⟨vs2, -, hthrough⟩ := through_append hthrough
  obtain ⟨vs3, u1, hforeach, hthrough⟩ := through_cons hthrough
  obtain ⟨vs4, u2, hget, hthrough⟩ := through_cons hthrough
  obtain ⟨rfl, -⟩ := feed_process (fun _ _ => rfl) hforeach
  obtain ⟨rfl, hended⟩ := feed_process (fun _ _ => rfl) hget
  have hnone : vs2.flatMap (fun v =>
      (foreachRelationshipProcess env .all c.rshipLabel range npos v).out) = [] := by
    refine List.eq_nil_iff_forall_not_mem.mpr fun w hw => ?_
    obtain ⟨v, -, hv⟩ := List.mem_flatMap.mp hw
    obtain ⟨v', p, rfl⟩ := foreachAll_mem hv
    exact expand_node_error (hended _ hw)
  rw [hnone] at hthrough
  rw [hends.events, through_nothing hthrough]
  rfl

/-- Two nodes without relationships. -/
theorem twoNodes_undirected :
    (prepareQuery Env.twoNodes.ctx
      (.pattern ⟨"", []⟩ [⟨"", .no, .no, none, ⟨"", []⟩⟩])).toOption.join.map
        (fun b => (b.start .twoNodes [0]).out) = some [.finish] :=
  congrArg some (@undirected_pattern_delivers_nothing .twoNodes _ [0] _ ⟨"", []⟩
    [⟨"", .no, .no, none, ⟨"", []⟩⟩] _ (List.mem_singleton_self _) rfl rfl rfl (by decide) rfl)

end

end Poseidon
