import Poseidon.Proofs.QueryRuns
import Poseidon.Proofs.Scan
import Poseidon.Proofs.VarLabels

/-!
# Patterns

A pattern with directed relationships finds the walks of the graph that the
transaction reads, each of them once. The scan hands on the nodes, the adjacency
lists are well formed, and a pointer points to what it was made from.
-/

namespace Poseidon

open Dataflow Results

/-! ## What a pattern asks for -/

/-- The component has a direction and no cardinality. -/
def PathComponent.Directed (c : PathComponent) : Prop :=
  c.cardinality = none ∧ (c.first = .no ∧ c.second = .right ∨ c.first = .left ∧ c.second = .no)

/-- The end of a relationship at which a component begins. -/
def PathComponent.near (c : PathComponent) (d : RshipData) : Nat :=
  if c.second = .right then d.srcNode else d.destNode

/-- The end to which it leads. -/
def PathComponent.far (c : PathComponent) (d : RshipData) : Nat :=
  if c.second = .right then d.destNode else d.srcNode

/-- The pointers of tuples point to what they were made from. -/
structure Env.Pointers (env : Env) : Prop where
  node : ∀ r, env.ctx.nodeRef (env.nodePtr r) = r
  rship : ∀ r, env.ctx.rshipRef (env.rshipPtr r) = r

section

variable (env : Env)

/-- The filter for the properties of a node, if there is one, holds. -/
def Passes (i : Nat) (ps : List (String × PropValue)) (w : QrTuple) : Prop :=
  ∀ ex, .filterOp ex ∈ propertyFilter env.ctx i ps →
    interpretBoolExpression env.ctx.raw env.ctx.exprCtx w ex = .ok true

/-- The tuple of a node that a pattern can begin with. -/
def PatternStart (node : NodePattern) (w : QrTuple) : Prop :=
  ∃ id l o, nodeTable.seen env.ctx.db env.ctx.xid id = some (l, o) ∧
    (node.label = "" ∨ o.data.nodeLabel = env.ctx.lookupString node.label) ∧
    w = [.node (env.nodePtr ⟨id, l⟩)] ∧ Passes env 0 node.properties w

/-- One component: a relationship from the node at position `i`, and the node that it
leads to. -/
def PatternStep (c : PathComponent) (i : Nat) (v w : QrTuple) : Prop :=
  ∃ a r l o l' o', v[i]? = some (.node (env.nodePtr a)) ∧
    rshipTable.seen env.ctx.db env.ctx.xid r = some (l, o) ∧ c.near o.data = a.id ∧
    o.data.rshipLabel = env.ctx.lookupString c.rshipLabel ∧
    nodeTable.seen env.ctx.db env.ctx.xid (c.far o.data) = some (l', o') ∧
    o'.data.nodeLabel = env.ctx.lookupString c.node.label ∧
    w = v ++ [.rship (env.rshipPtr ⟨r, l⟩), .node (env.nodePtr ⟨c.far o.data, l'⟩)] ∧
    Passes env (i + 2) c.node.properties w

/-- The components of a path, one after the other. -/
inductive PatternWalk : List PathComponent → Nat → QrTuple → QrTuple → Prop where
  | nil {i : Nat} {v : QrTuple} : PatternWalk [] i v v
  | cons {c : PathComponent} {path : List PathComponent} {i : Nat} {v w x : QrTuple} :
      PatternStep env c i v w → PatternWalk path (i + 2) w x → PatternWalk (c :: path) i v x

end

/-! ## Operators without state -/

section

variable {env : Env} {u : UnaryOp} {ops ops' : List (UnaryOp × Bool)} {us : List UnaryOp}
  {vs ws xs : List QrTuple}

theorem through_append (h : Through env (ops ++ ops') vs xs) :
    ∃ ws, Through env ops vs ws ∧ Through env ops' ws xs := by
  induction ops generalizing vs with
  | nil => exact ⟨vs, .nil, h⟩
  | cons x ops ih =>
      cases h with
      | cons hfeed hfin hrest =>
          obtain ⟨ws, h1, h2⟩ := ih hrest
          exact ⟨ws, .cons hfeed hfin h1, h2⟩

/-- An operator that is not told of the end. -/
theorem through_cons (h : Through env ((u, false) :: ops) vs xs) :
    ∃ ws u', feed (UnaryOp.process env env.fuel) u vs = ⟨ws, .ok u'⟩ ∧ Through env ops ws xs := by
  cases h with
  | cons hfeed hfin hrest =>
      cases hfin
      rw [List.append_nil] at hrest
      exact ⟨_, _, hfeed, hrest⟩

theorem process_eq (env : Env) (n : Nat) :
    ∃ f, UnaryOp.process env n = UnaryOp.processWith env f := by
  cases n with
  | zero => exact ⟨_, rfl⟩
  | succ n => exact ⟨_, rfl⟩

/-- An operator whose `process` does not change it. -/
theorem feed_process {g : QrTuple → Emits Unit} {u' : UnaryOp}
    (hg : ∀ f v, UnaryOp.processWith env f u v = g v >>= fun _ => pure u)
    (h : feed (UnaryOp.process env env.fuel) u vs = ⟨ws, .ok u'⟩) :
    ws = vs.flatMap (fun v => (g v).out) ∧ ∀ v ∈ vs, (g v).ended = .ok () := by
  obtain ⟨f, hf⟩ := process_eq env env.fuel
  rw [hf] at h
  exact feed_each (hg f) h

/-- A filter keeps the tuples for which the expression holds. -/
theorem filter_ok {ex : Expr} {v : QrTuple} (h : (filterProcess env ex v).ended = .ok ()) :
    (filterProcess env ex v).out =
      if interpretBoolExpression env.ctx.raw env.ctx.exprCtx v ex = .ok true then [v] else [] := by
  rw [filterProcess] at h ⊢
  cases hb : interpretBoolExpression env.ctx.raw env.ctx.exprCtx v ex with
  | error e =>
      rw [hb] at h
      cases h
  | ok b => cases b <;> rfl

theorem flatMap_keep {τ : Type} {f : τ → List τ} {p : τ → Bool} {vs : List τ}
    (h : ∀ v ∈ vs, f v = if p v then [v] else []) : vs.flatMap f = vs.filter p := by
  induction vs with
  | nil => rfl
  | cons v vs ih =>
      rw [List.flatMap_cons, h v (List.mem_cons_self ..), List.filter_cons,
        ih fun w hw => h w (List.mem_cons_of_mem _ hw)]
      split <;> rfl

theorem feed_filterOp {ex : Expr} {u' : UnaryOp}
    (h : feed (UnaryOp.process env env.fuel) (.filterOp ex) vs = ⟨ws, .ok u'⟩) :
    ws = vs.filter fun v =>
      decide (interpretBoolExpression env.ctx.raw env.ctx.exprCtx v ex = .ok true) := by
  obtain ⟨rfl, hended⟩ := feed_process (fun _ _ => rfl) h
  refine flatMap_keep fun v hv => ?_
  rw [filter_ok (hended v hv)]
  simp only [decide_eq_true_eq]

theorem through_propertyFilter {i : Nat} {ps : List (String × PropValue)}
    (h : Through env ((propertyFilter env.ctx i ps).map fun u => (u, false)) vs ws) :
    ws.Sublist vs ∧ ∀ w, w ∈ ws ↔ w ∈ vs ∧ Passes env i ps w := by
  cases ps with
  | nil =>
      cases h
      exact ⟨.refl _, fun w => ⟨fun hw => ⟨hw, fun ex hex => by cases hex⟩, And.left⟩⟩
  | cons p ps =>
      obtain ⟨us, u', hfeed, hrest⟩ := through_cons h
      cases hrest
      rw [feed_filterOp hfeed]
      refine ⟨List.filter_sublist, fun w => ?_⟩
      rw [List.mem_filter, decide_eq_true_eq]
      refine and_congr_right fun _ => ⟨fun hw ex hex => ?_, fun hw => hw _
        (List.mem_singleton_self _)⟩
      cases List.mem_singleton.mp hex
      exact hw

end

/-! ## Reading -/

section

variable {α : Type} {t : Table α} {s : GraphDb} {xid id : Nat} {l : Loc} {o : Obj α}

/-- The version that a read returns has the same fields before it. -/
theorem Table.seen_deref (h : t.seen s xid id = some (l, o)) :
    ∃ o', (t.record s id).deref l = some o' ∧ o'.data = o.data := by
  obtain ⟨-, -, hderef⟩ := Table.seen_iff.mp h
  cases l with
  | slot =>
      cases hderef
      exact ⟨_, rfl, (Obj.setRts_data xid (t.record s id).obj.prepare).symm⟩
  | copy a => exact ⟨o, hderef, rfl⟩

theorem Table.pointee_ok (h : t.seen s xid id = some (l, o)) :
    t.pointee s ⟨id, l⟩ = .ok o.data := by
  obtain ⟨o', hderef, hdata⟩ := Table.seen_deref h
  rw [Table.pointee, hderef, ← hdata]

end

section

variable {env : Env} {v : QrTuple} {id i : Nat} {l : Loc} {o : Obj NodeData}

theorem nodeById_read (hrun : (env.ctx.db.txs env.ctx.xid).running = true)
    (h : nodeTable.seen env.ctx.db env.ctx.xid id = some (l, o)) :
    runDb env (nodeById env.ctx.xid id) = pure ⟨id, l⟩ := by
  obtain ⟨s', hs, -⟩ := nodeById_ok hrun h
  rw [runDb, hs]

/-- The references to the relationships of a list that have a label. -/
def Env.labelled (env : Env) (label : String) (rs : List Nat) : List Ref :=
  (env.ctx.db.delivered env.ctx.xid
    (fun o => o.data.rshipLabel == env.ctx.lookupString label) rs).map Prod.fst

theorem forM_tell {ε τ α : Type} (g : α → τ) (xs : List α) :
    (xs.forM fun x => Emit.tell [g x] : Emit ε τ Unit) = ⟨xs.map g, .ok ()⟩ := by
  induction xs with
  | nil => rfl
  | cons x xs ih =>
      show (Emit.tell [g x] >>= fun _ => xs.forM fun x => Emit.tell [g x]) = _
      rw [ih]
      rfl

/-- A walk over one list of a node. -/
theorem walk_read {next : RshipData → Nat} {label : String} {head : Nat} {rs : List Nat}
    (hg : env.ctx.db.SeenGraph env.ctx.xid)
    (hpath : LinkPath (env.ctx.db.nextSeen env.ctx.xid next) UNKNOWN head rs) :
    runDb env (foreachRelationship env.ctx.xid
      (fun o => o.data.rshipLabel == env.ctx.lookupString label) next
      (env.ctx.db.rships.size + 1) head) = pure (env.labelled label rs) := by
  obtain ⟨s', hs, -⟩ := @foreachRelationship_ok _ _
    (fun o => o.data.rshipLabel == env.ctx.lookupString label) _ _ _ _ hg.running hpath
    (Nat.le_succ_of_le (seenPath_length_le hg.rshipSlots hpath))
  rw [runDb, hs]
  rfl

/-- What is done with a relationship of the list. -/
def extended (env : Env) (v : QrTuple) (r : Ref) : QrTuple := v ++ [.rship (env.rshipPtr r)]

/-- A direction that is one walk hands on what the walk finds. -/
theorem foreach_ok (hp : env.Pointers) {a : Ref} (hv : v[i]? = some (.node (env.nodePtr a)))
    (ha : nodeTable.seen env.ctx.db env.ctx.xid a.id = some (a.loc, o)) {dir : RshipDir}
    {label : String} {walk : NodeData → DbM (List Ref)} {far : RshipData → Nat} {refs : List Ref}
    (hx : dir.expansions env (env.ctx.lookupString label) none = [⟨walk, far, false⟩])
    (hwalk : runDb env (walk o.data) = pure refs) :
    foreachRelationshipProcess env dir label none (some i) v =
      ⟨refs.map (extended env v), .ok ()⟩ := by
  have hread : nodeTable.pointee env.ctx.db (env.ctx.nodeRef (env.nodePtr a)) = .ok o.data := by
    rw [hp.node]
    exact Table.pointee_ok ha
  rw [foreachRelationshipProcess, element, hv, hx]
  show (liftQop (nodeTable.pointee env.ctx.db (env.ctx.nodeRef (env.nodePtr a))) >>= fun n =>
    Expansion.process env n v ⟨walk, far, false⟩ >>= fun _ => pure ()) = _
  rw [hread]
  show ((runDb env (walk o.data) >>= fun rs => rs.forM fun r => Emit.tell [extended env v r]) >>=
    fun _ => pure ()) = _
  rw [hwalk]
  show ((refs.forM fun r => Emit.tell [extended env v r]) >>= fun _ => pure ()) = _
  rw [forM_tell, Emit.ok_bind]
  exact congrArg (Emit.mk · _) (List.append_nil _)

/-- The node at one end of a relationship that was handed on. -/
theorem expand_ok (hp : env.Pointers) (hrun : (env.ctx.db.txs env.ctx.xid).running = true)
    {r : Nat} {d : Obj RshipData} (hr : rshipTable.seen env.ctx.db env.ctx.xid r = some (l, d))
    {side : RshipData → Nat} {l' : Loc}
    (hn : nodeTable.seen env.ctx.db env.ctx.xid (side d.data) = some (l', o)) :
    expandProcess env side (extended env v ⟨r, l⟩) =
      ⟨[extended env v ⟨r, l⟩ ++ [.node (env.nodePtr ⟨side d.data, l'⟩)]], .ok ()⟩ := by
  have hread : rshipTable.pointee env.ctx.db (env.ctx.rshipRef (env.rshipPtr ⟨r, l⟩)) =
      .ok d.data := by
    rw [hp.rship]
    exact Table.pointee_ok hr
  rw [expandProcess, element, extended, List.getLast?_concat]
  show (liftQop (rshipTable.pointee env.ctx.db (env.ctx.rshipRef (env.rshipPtr ⟨r, l⟩))) >>=
    fun d => runDb env (nodeById env.ctx.xid (side d)) >>= fun n =>
      Emit.tell [extended env v ⟨r, l⟩ ++ [.node (env.nodePtr n)]]) = _
  rw [hread]
  show (runDb env (nodeById env.ctx.xid (side d.data)) >>= fun n =>
    Emit.tell [extended env v ⟨r, l⟩ ++ [.node (env.nodePtr n)]]) = _
  rw [nodeById_read hrun hn]
  rfl

/-- The label of the node at the end of a tuple. -/
theorem label_ok (hp : env.Pointers) {a : Ref}
    (ha : nodeTable.seen env.ctx.db env.ctx.xid a.id = some (a.loc, o)) (label : String) :
    nodeHasLabelProcess env [] label (v ++ [.node (env.nodePtr a)]) =
      ⟨if o.data.nodeLabel = env.ctx.lookupString label then [v ++ [.node (env.nodePtr a)]] else [],
        .ok ()⟩ := by
  have hread : nodeTable.pointee env.ctx.db (env.ctx.nodeRef (env.nodePtr a)) = .ok o.data := by
    rw [hp.node]
    exact Table.pointee_ok ha
  rw [nodeHasLabelProcess, element, List.getLast?_concat]
  show (liftQop (nodeTable.pointee env.ctx.db (env.ctx.nodeRef (env.nodePtr a))) >>= fun n =>
    if n.nodeLabel ∈ [env.ctx.lookupString label] then
      Emit.tell [v ++ [.node (env.nodePtr a)]] else pure ()) = _
  rw [hread]
  show (if o.data.nodeLabel ∈ [env.ctx.lookupString label] then
      Emit.tell [v ++ [.node (env.nodePtr a)]] else pure ()) = _
  simp only [List.mem_singleton]
  split <;> rfl

/-! ## One component -/

/-- The references with a label: each once, and all of them. -/
theorem labelled_nodup {label : String} {rs : List Nat} (hrs : rs.Nodup) :
    (env.labelled label rs).Nodup := by
  refine List.Nodup.map_on (fun e he e' he' heq => ?_) (hrs.filterMap fun r r' e he he' => ?_)
  · obtain ⟨-, hseen, -⟩ := GraphDb.mem_delivered.mp he
    obtain ⟨-, hseen', -⟩ := GraphDb.mem_delivered.mp he'
    rw [heq, hseen'] at hseen
    exact Prod.ext heq (Prod.ext_iff.mp (Option.some.inj hseen)).2.symm
  · obtain ⟨x, -, he⟩ := Option.bind_eq_some_iff.mp he
    obtain ⟨x', -, he'⟩ := Option.bind_eq_some_iff.mp he'
    split at he
    · split at he'
      · have heq := (Option.some.inj he).trans (Option.some.inj he').symm
        exact congrArg Ref.id (Prod.ext_iff.mp heq).1
      · cases he'
    · cases he

theorem mem_labelled {label : String} {rs : List Nat} {r : Ref} :
    r ∈ env.labelled label rs ↔ r.id ∈ rs ∧ ∃ d,
      rshipTable.seen env.ctx.db env.ctx.xid r.id = some (r.loc, d) ∧
        d.data.rshipLabel = env.ctx.lookupString label := by
  rw [Env.labelled, List.mem_map]
  constructor
  · rintro ⟨e, he, rfl⟩
    obtain ⟨h1, h2, h3⟩ := GraphDb.mem_delivered.mp he
    exact ⟨h1, e.2, h2, by simpa using h3⟩
  · rintro ⟨h1, d, h2, h3⟩
    exact ⟨(r, d), GraphDb.mem_delivered.mpr ⟨h1, h2, by simpa using h3⟩, rfl⟩

/-- A list that grows out of another one has no repetition if its elements say
where they come from. -/
theorem nodup_grown {α β : Type} {f : α → List β} {g : β → α} {as : List α} (has : as.Nodup)
    (hf : ∀ a ∈ as, (f a).Nodup ∧ ∀ b ∈ f a, g b = a) : (as.flatMap f).Nodup := by
  refine List.nodup_flatMap.mpr ⟨fun a ha => (hf a ha).1, has.imp_of_mem fun ha ha' hne => ?_⟩
  intro b hb hb'
  exact hne (((hf _ ha).2 b hb).symm.trans ((hf _ ha').2 b hb'))

/-- The tuple ends with a node that is read, at position `i`. -/
def EndsInNode (env : Env) (i : Nat) (v : QrTuple) : Prop :=
  v.length = i + 1 ∧ ∃ a o, v[i]? = some (.node (env.nodePtr a)) ∧
    nodeTable.seen env.ctx.db env.ctx.xid a.id = some (a.loc, o)

/-- What the two operators of a component that expand do. -/
theorem component_ok {c : PathComponent} (hp : env.Pointers)
    (hg : env.ctx.db.SeenGraph env.ctx.xid) (hc : c.Directed) :
    ∃ dir getOp, componentOps c.first c.second = .ok (dir, getOp) ∧
      (∀ f v, UnaryOp.processWith env f getOp v =
        expandProcess env c.far v >>= fun _ => pure getOp) ∧
      ∀ i v a o, v[i]? = some (.node (env.nodePtr a)) →
        nodeTable.seen env.ctx.db env.ctx.xid a.id = some (a.loc, o) →
        ∃ refs : List Ref, refs.Nodup ∧
          foreachRelationshipProcess env dir c.rshipLabel none (some i) v =
            ⟨refs.map (extended env v), .ok ()⟩ ∧
          ∀ r, r ∈ refs ↔ ∃ d, rshipTable.seen env.ctx.db env.ctx.xid r.id = some (r.loc, d) ∧
            c.near d.data = a.id ∧ d.data.rshipLabel = env.ctx.lookupString c.rshipLabel := by
  have hrefs : ∀ {rs : List Nat} {near : RshipData → Nat} {a : Nat}, (∀ r, r ∈ rs ↔ ∃ l d,
      rshipTable.seen env.ctx.db env.ctx.xid r = some (l, d) ∧ near d.data = a) →
      ∀ r, r ∈ env.labelled c.rshipLabel rs ↔ ∃ d,
        rshipTable.seen env.ctx.db env.ctx.xid r.id = some (r.loc, d) ∧
        near d.data = a ∧ d.data.rshipLabel = env.ctx.lookupString c.rshipLabel := by
    intro rs near a hmem r
    rw [mem_labelled, hmem]
    constructor
    · rintro ⟨⟨l, d, h1, h2⟩, d', h3, h4⟩
      cases h1.symm.trans h3
      exact ⟨d, h3, h2, h4⟩
    · rintro ⟨d, h1, h2, h3⟩
      exact ⟨⟨_, d, h1, h2⟩, d, h1, h3⟩
  rcases hc.2 with ⟨h1, h2⟩ | ⟨h1, h2⟩
  · have hnear : c.near = RshipData.srcNode := funext fun d => if_pos h2
    have hfar : c.far = RshipData.destNode := funext fun d => if_pos h2
    refine ⟨.from, .getToNode, by rw [h1, h2]; rfl, fun f v => by rw [hfar]; rfl, ?_⟩
    intro i v a o hv ha
    obtain ⟨rs, hpath, hmem⟩ := hg.outgoing a.id a.loc o ha
    rw [hnear]
    exact ⟨_, labelled_nodup hpath.nodup, foreach_ok hp hv ha rfl (walk_read hg hpath), hrefs hmem⟩
  · have hne : c.second ≠ .right := by
      rw [h2]
      exact fun h => by cases h
    have hnear : c.near = RshipData.destNode := funext fun d => if_neg hne
    have hfar : c.far = RshipData.srcNode := funext fun d => if_neg hne
    refine ⟨.to, .getFromNode, by rw [h1, h2]; rfl, fun f v => by rw [hfar]; rfl, ?_⟩
    intro i v a o hv ha
    obtain ⟨rs, hpath, hmem⟩ := hg.incoming a.id a.loc o ha
    rw [hnear]
    exact ⟨_, labelled_nodup hpath.nodup, foreach_ok hp hv ha rfl (walk_read hg hpath), hrefs hmem⟩

/-- A relationship from the node at position `i`. -/
def RshipStep (env : Env) (c : PathComponent) (i : Nat) (v u : QrTuple) : Prop :=
  ∃ a r l d, v[i]? = some (.node (env.nodePtr a)) ∧
    rshipTable.seen env.ctx.db env.ctx.xid r = some (l, d) ∧ c.near d.data = a.id ∧
    d.data.rshipLabel = env.ctx.lookupString c.rshipLabel ∧ u = extended env v ⟨r, l⟩

/-- A relationship, and the node that it leads to. -/
def NodeStep (env : Env) (c : PathComponent) (i : Nat) (v w : QrTuple) (o : Obj NodeData) : Prop :=
  ∃ a r l d l', v[i]? = some (.node (env.nodePtr a)) ∧
    rshipTable.seen env.ctx.db env.ctx.xid r = some (l, d) ∧ c.near d.data = a.id ∧
    d.data.rshipLabel = env.ctx.lookupString c.rshipLabel ∧
    nodeTable.seen env.ctx.db env.ctx.xid (c.far d.data) = some (l', o) ∧
    w = extended env v ⟨r, l⟩ ++ [.node (env.nodePtr ⟨c.far d.data, l'⟩)]

theorem patternStep_iff {c : PathComponent} {w : QrTuple} : PatternStep env c i v w ↔
    (∃ o, NodeStep env c i v w o ∧ o.data.nodeLabel = env.ctx.lookupString c.node.label) ∧
      Passes env (i + 2) c.node.properties w := by
  have happ : ∀ r x, extended env v r ++ [x] = v ++ [.rship (env.rshipPtr r), x] := fun r x => by
    rw [extended, List.append_assoc]
    rfl
  constructor
  · rintro ⟨a, r, l, d, l', o, h1, h2, h3, h4, h5, h6, rfl, h8⟩
    exact ⟨⟨o, ⟨a, r, l, d, l', h1, h2, h3, h4, h5, (happ _ _).symm⟩, h6⟩, h8⟩
  · rintro ⟨⟨o, ⟨a, r, l, d, l', h1, h2, h3, h4, h5, rfl⟩, h6⟩, h8⟩
    exact ⟨a, r, l, d, l', o, h1, h2, h3, h4, h5, h6, happ _ _, h8⟩

section

variable {c : PathComponent} {vs us ws : List QrTuple}

/-- The relationships of a component, each once. -/
theorem rshipSteps (hp : env.Pointers) {dir : RshipDir} (hvs : ∀ v ∈ vs, EndsInNode env i v)
    (hnd : vs.Nodup)
    (hforeach : ∀ i v a o, v[i]? = some (.node (env.nodePtr a)) →
      nodeTable.seen env.ctx.db env.ctx.xid a.id = some (a.loc, o) →
      ∃ refs : List Ref, refs.Nodup ∧
        foreachRelationshipProcess env dir c.rshipLabel none (some i) v =
          ⟨refs.map (extended env v), .ok ()⟩ ∧
        ∀ r, r ∈ refs ↔ ∃ d, rshipTable.seen env.ctx.db env.ctx.xid r.id = some (r.loc, d) ∧
          c.near d.data = a.id ∧ d.data.rshipLabel = env.ctx.lookupString c.rshipLabel)
    (hus : us = vs.flatMap fun v =>
      (foreachRelationshipProcess env dir c.rshipLabel none (some i) v).out) :
    us.Nodup ∧ ∀ u, u ∈ us ↔ ∃ v ∈ vs, RshipStep env c i v u := by
  constructor
  · rw [hus]
    refine nodup_grown (g := List.dropLast) hnd fun v hv => ?_
    obtain ⟨-, a, o, hva, ha⟩ := hvs v hv
    obtain ⟨refs, hrefs, hout, -⟩ := hforeach i v a o hva ha
    rw [hout]
    refine ⟨hrefs.map fun r r' heq => ?_, fun u hu => ?_⟩
    · have hptr := List.append_cancel_left heq
      injection hptr with hptr
      injection hptr with hptr
      rw [← hp.rship r, hptr, hp.rship]
    · obtain ⟨r, -, rfl⟩ := List.mem_map.mp hu
      exact List.dropLast_concat
  · intro u
    rw [hus, List.mem_flatMap]
    refine exists_congr fun v => and_congr_right fun hv => ?_
    obtain ⟨-, a, o, hva, ha⟩ := hvs v hv
    obtain ⟨refs, -, hout, hrefs⟩ := hforeach i v a o hva ha
    rw [hout, List.mem_map]
    constructor
    · rintro ⟨r, hr, rfl⟩
      obtain ⟨d, h1, h2, h3⟩ := (hrefs r).mp hr
      exact ⟨a, r.id, r.loc, d, hva, h1, h2, h3, rfl⟩
    · rintro ⟨a', r, l, d, hva', h1, h2, h3, rfl⟩
      have haa : a' = a := by
        rw [hva] at hva'
        injection hva' with hva'
        injection hva' with hva'
        rw [← hp.node a', ← hva', hp.node]
      rw [haa] at h2
      exact ⟨⟨r, l⟩, (hrefs _).mpr ⟨d, h1, h2, h3⟩, rfl⟩

/-- Each relationship leads to one node. -/
theorem nodeSteps (hp : env.Pointers) (hg : env.ctx.db.SeenGraph env.ctx.xid) (hnd : us.Nodup)
    (hmem : ∀ u, u ∈ us ↔ ∃ v ∈ vs, RshipStep env c i v u)
    (hws : ws = us.flatMap fun u => (expandProcess env c.far u).out) :
    ws.Nodup ∧ ∀ w, w ∈ ws ↔ ∃ v ∈ vs, ∃ o, NodeStep env c i v w o := by
  have hexpand : ∀ {u v r l d}, u = extended env v ⟨r, l⟩ →
      rshipTable.seen env.ctx.db env.ctx.xid r = some (l, d) → ∃ l' o,
        nodeTable.seen env.ctx.db env.ctx.xid (c.far d.data) = some (l', o) ∧
        (expandProcess env c.far u).out = [u ++ [.node (env.nodePtr ⟨c.far d.data, l'⟩)]] := by
    rintro u v r l d rfl hr
    have hends := hg.ends r l d hr
    have hfar : env.ctx.db.HasNode env.ctx.xid (c.far d.data) := by
      rw [PathComponent.far]
      split
      · exact hends.2
      · exact hends.1
    obtain ⟨l', o, hn⟩ := hfar
    exact ⟨l', o, hn, congrArg Emit.out (expand_ok hp hg.running hr hn)⟩
  constructor
  · rw [hws]
    refine nodup_grown (g := List.dropLast) hnd fun u hu => ?_
    obtain ⟨v, -, a, r, l, d, -, hr, -, -, hext⟩ := (hmem u).mp hu
    obtain ⟨l', o, -, hout⟩ := hexpand hext hr
    rw [hout]
    refine ⟨List.nodup_singleton _, fun w hw => ?_⟩
    rw [List.mem_singleton.mp hw]
    exact List.dropLast_concat
  · intro w
    rw [hws, List.mem_flatMap]
    constructor
    · rintro ⟨u, hu, hw⟩
      obtain ⟨v, hv, a, r, l, d, hva, hr, hnear, hlabel, rfl⟩ := (hmem u).mp hu
      obtain ⟨l', o, hn, hout⟩ := hexpand rfl hr
      rw [hout] at hw
      exact ⟨v, hv, o, a, r, l, d, l', hva, hr, hnear, hlabel, hn, List.mem_singleton.mp hw⟩
    · rintro ⟨v, hv, o, a, r, l, d, l', hva, hr, hnear, hlabel, hn, rfl⟩
      have hu := (hmem _).mpr ⟨v, hv, a, r, l, d, hva, hr, hnear, hlabel, rfl⟩
      obtain ⟨l'', o', hn', hout⟩ := hexpand rfl hr
      cases hn.symm.trans hn'
      exact ⟨_, hu, by rw [hout]; exact List.mem_singleton_self _⟩

/-- The nodes with the label are kept. -/
theorem labelSteps (hp : env.Pointers) (hnd : us.Nodup)
    (hmem : ∀ u, u ∈ us ↔ ∃ v ∈ vs, ∃ o, NodeStep env c i v u o)
    (hws : ws = us.flatMap fun u => (nodeHasLabelProcess env [] c.node.label u).out) :
    ws.Nodup ∧ ∀ w, w ∈ ws ↔ ∃ v ∈ vs, ∃ o, NodeStep env c i v w o ∧
      o.data.nodeLabel = env.ctx.lookupString c.node.label := by
  have hlabel : ∀ {u v o}, NodeStep env c i v u o →
      (nodeHasLabelProcess env [] c.node.label u).out =
        if o.data.nodeLabel = env.ctx.lookupString c.node.label then [u] else [] := by
    rintro u v o ⟨a, r, l, d, l', -, -, -, -, hn, rfl⟩
    exact congrArg Emit.out (label_ok hp (a := ⟨c.far d.data, l'⟩) hn c.node.label)
  constructor
  · rw [hws]
    refine nodup_grown (g := id) hnd fun u hu => ?_
    obtain ⟨v, -, o, hstep⟩ := (hmem u).mp hu
    rw [hlabel hstep]
    split
    · exact ⟨List.nodup_singleton _, fun w hw => List.mem_singleton.mp hw⟩
    · exact ⟨List.nodup_nil, fun w hw => by cases hw⟩
  · intro w
    rw [hws, List.mem_flatMap]
    constructor
    · rintro ⟨u, hu, hw⟩
      obtain ⟨v, hv, o, hstep⟩ := (hmem u).mp hu
      rw [hlabel hstep] at hw
      split at hw
      · rename_i hl
        rw [List.mem_singleton.mp hw]
        exact ⟨v, hv, o, hstep, hl⟩
      · cases hw
    · rintro ⟨v, hv, o, hstep, hl⟩
      refine ⟨w, (hmem w).mpr ⟨v, hv, o, hstep⟩, ?_⟩
      rw [hlabel hstep, if_pos hl]
      exact List.mem_singleton_self _

/-- A component finds each of its steps once. -/
theorem through_component {dir : RshipDir} {getOp : UnaryOp} (hp : env.Pointers)
    (hg : env.ctx.db.SeenGraph env.ctx.xid) (hc : c.Directed)
    (hops : componentOps c.first c.second = .ok (dir, getOp))
    (hvs : ∀ v ∈ vs, EndsInNode env i v) (hnd : vs.Nodup)
    (h : Through env ((.foreachRelationship dir c.rshipLabel none (some i), false) ::
      (getOp, false) :: (.nodeHasLabel [] c.node.label, false) ::
        (propertyFilter env.ctx (i + 2) c.node.properties).map fun u => (u, false)) vs ws) :
    (∀ w ∈ ws, EndsInNode env (i + 2) w) ∧ ws.Nodup ∧
      ∀ w, w ∈ ws ↔ ∃ v ∈ vs, PatternStep env c i v w := by
  obtain ⟨_, _, hops', hget, hforeach⟩ := component_ok hp hg hc
  cases hops.symm.trans hops'
  obtain ⟨us1, _, h1, h⟩ := through_cons h
  obtain ⟨us2, _, h2, h⟩ := through_cons h
  obtain ⟨us3, _, h3, h⟩ := through_cons h
  obtain ⟨hsub, hmem4⟩ := through_propertyFilter h
  obtain ⟨hnd1, hmem1⟩ := rshipSteps hp hvs hnd hforeach (feed_process (fun _ _ => rfl) h1).1
  obtain ⟨hnd2, hmem2⟩ := nodeSteps hp hg hnd1 hmem1 (feed_process hget h2).1
  obtain ⟨hnd3, hmem3⟩ := labelSteps hp hnd2 hmem2 (feed_process (fun _ _ => rfl) h3).1
  have hmem : ∀ w, w ∈ ws ↔ ∃ v ∈ vs, PatternStep env c i v w := fun w => by
    rw [hmem4, hmem3]
    constructor
    · rintro ⟨⟨v, hv, hstep⟩, hpass⟩
      exact ⟨v, hv, patternStep_iff.mpr ⟨hstep, hpass⟩⟩
    · rintro ⟨v, hv, hstep⟩
      obtain ⟨hstep, hpass⟩ := patternStep_iff.mp hstep
      exact ⟨⟨v, hv, hstep⟩, hpass⟩
  refine ⟨fun w hw => ?_, hnd3.sublist hsub, hmem⟩
  obtain ⟨v, hv, a, r, l, d, l', o', -, -, -, -, hn, -, rfl, -⟩ := (hmem w).mp hw
  have hlen := (hvs v hv).1
  refine ⟨by simp [hlen], ⟨c.far d.data, l'⟩, o', ?_, hn⟩
  rw [List.getElem?_append_right (by omega), show i + 2 - v.length = 1 by omega]
  rfl

/-- A path finds each of its walks once. -/
theorem through_path {path : List PathComponent} {ops : List UnaryOp} (hp : env.Pointers)
    (hg : env.ctx.db.SeenGraph env.ctx.xid) (hpath : ∀ c ∈ path, c.Directed)
    (hops : pathOps env.ctx i path = .ok ops) (hvs : ∀ v ∈ vs, EndsInNode env i v)
    (hnd : vs.Nodup) (h : Through env (ops.map fun u => (u, false)) vs ws) :
    ws.Nodup ∧ ∀ w, w ∈ ws ↔ ∃ v ∈ vs, PatternWalk env path i v w := by
  induction path generalizing i ops vs with
  | nil =>
      cases hops
      cases h
      refine ⟨hnd, fun w => ⟨fun hw => ⟨w, hw, .nil⟩, ?_⟩⟩
      rintro ⟨v, hv, hwalk⟩
      cases hwalk
      exact hv
  | cons c path ih =>
      have hc := hpath c (List.mem_cons_self ..)
      obtain ⟨⟨dir, getOp⟩, hcomp, hops⟩ := bind_eq_ok hops
      obtain ⟨rest, hrest, hops⟩ := bind_eq_ok hops
      cases hops
      rw [List.map_append, hc.1] at h
      obtain ⟨us, h1, h2⟩ := through_append h
      obtain ⟨hus, hndus, hmemus⟩ := through_component hp hg hc hcomp hvs hnd h1
      obtain ⟨hndws, hmemws⟩ := ih (fun c' hc' => hpath c' (List.mem_cons_of_mem _ hc')) hrest
        hus hndus h2
      refine ⟨hndws, fun w => ?_⟩
      rw [hmemws]
      constructor
      · rintro ⟨u, hu, hwalk⟩
        obtain ⟨v, hv, hstep⟩ := (hmemus u).mp hu
        exact ⟨v, hv, .cons hstep hwalk⟩
      · rintro ⟨v, hv, hwalk⟩
        cases hwalk with
        | cons hstep hwalk => exact ⟨_, (hmemus _).mpr ⟨v, hv, hstep⟩, hwalk⟩

end

end

/-! ## The scan -/

section

variable {env : Env}

/-- The chunks of the tasks of a parallel scan are all chunks. -/
theorem chunkRanges_partition {n size : Nat} (hn : 0 < n) :
    ChunkPartition n size (chunkRanges ((size + (n - 1)) / n)) where
  cover := fun i hi => by
    have hmul := Nat.div_mul_le_self i n
    have hchunk : i / n + 1 ≤ (size + (n - 1)) / n := by
      rw [Nat.le_div_iff_mul_le hn, Nat.succ_mul]
      omega
    refine ⟨_, List.mem_map.mpr ⟨i / n / chunksPerThread, List.mem_range.mpr ?_, rfl⟩, ?_, ?_⟩
    · simp only [chunksPerThread]
      omega
    · exact Nat.div_mul_le_self _ _
    · simp only [chunksPerThread]
      omega
  apart := by
    refine List.pairwise_map.mpr (List.pairwise_lt_range.imp fun h => ?_)
    simp only [chunksPerThread]
    omega

/-- The scan of a pattern hands on each node that is read and has the label. -/
theorem nodeScan_exact (hs : env.ctx.db.Sound) (hg : env.ctx.db.SeenGraph env.ctx.xid)
    (hx : env.ctx.xid ≠ 0) (hscan : env.ctx.db.nodes.ScanCondition nodesPerChunk env.ctx.xid)
    (label : String) :
    Exact nodeTable env.ctx.db env.ctx.xid
      (fun o => label = "" || o.data.nodeLabel == env.ctx.lookupString label)
      (env.nodeScan label []) := by
  have hp : ChunkPartition nodesPerChunk env.ctx.db.nodes.size _ :=
    chunkRanges_partition (by decide)
  by_cases hl : label = ""
  · have hwant : (fun o : Obj NodeData => label = "" || o.data.nodeLabel ==
        env.ctx.lookupString label) = fun _ => true := funext fun o => by simp [hl]
    rw [Env.nodeScan, if_pos ⟨hl, rfl⟩, hwant]
    exact hscan.parallel_exact nodeTable_keepsSound hs hx hg.running hs.nodes hp
  · have hwant : (fun o : Obj NodeData => label = "" || o.data.nodeLabel ==
        env.ctx.lookupString label) = fun o => o.data.nodeLabel == env.ctx.lookupString label :=
      funext fun o => by simp [hl]
    rw [Env.nodeScan, if_neg fun h => hl h.1, if_pos hl, hwant]
    exact hscan.parallel_exact nodeTable_keepsSound hs hx hg.running hs.nodes hp

/-- What the scan hands on is what `node_by_id` returns. -/
theorem exact_mem {s : GraphDb} {xid : Nat} {want : Obj NodeData → Bool} {sc : Scan}
    (hs : s.Sound) (hrun : (s.txs xid).running = true) (h : Exact nodeTable s xid want sc)
    (hwant : ∀ o o' : Obj NodeData, o.data = o'.data → want o = want o') {n : Ref} :
    n ∈ sc.delivered ↔ ∃ o, nodeTable.seen s xid n.id = some (n.loc, o) ∧ want o = true := by
  rw [h.mem, Table.byId_returns nodeTable_keepsSound hs hrun]
  constructor
  · rintro ⟨⟨-, hused, hvalid⟩, o, ho, hw⟩
    have hprep := (nodeTable_keepsSound.record s n.id hs).prepared hused
    obtain ⟨o', ho', hdata⟩ : ∃ o', ((nodeTable.record s n.id).recordRead xid).deref n.loc =
        some o' ∧ o'.data = o.data := by
      cases hl : n.loc with
      | slot =>
          rw [hl] at ho
          cases ho
          exact ⟨_, rfl, Obj.setRts_data xid _⟩
      | copy a =>
          rw [hl] at ho
          exact ⟨o, ho, rfl⟩
    refine ⟨o', Table.seen_iff.mpr ⟨hused, ?_, ho'⟩, by rw [hwant o' o hdata, hw]⟩
    rw [Record.getValidVersion_recordRead xid hprep, hvalid]
  · rintro ⟨o, hseen, hw⟩
    obtain ⟨hused, hvalid, -⟩ := Table.seen_iff.mp hseen
    have hprep := (nodeTable_keepsSound.record s n.id hs).prepared hused
    rw [Record.getValidVersion_recordRead xid hprep] at hvalid
    obtain ⟨o', ho', hdata⟩ := Table.seen_deref hseen
    exact ⟨⟨rfl, hused, hvalid⟩, o', ho', by rw [hwant o' o hdata, hw]⟩

theorem nodeScan_emits {label : String} {vs : List QrTuple}
    (h : (Source.nodeScan label []).scan env = ⟨vs, .ok ()⟩) :
    vs = (env.nodeScan label []).delivered.map fun r => [.node (env.nodePtr r)] := by
  obtain ⟨us, _, ws, h1, h2, rfl⟩ := Emit.bind_eq_ok.mp h
  have hus : us = [] := by
    rw [runDb] at h1
    split at h1 <;> cases h1
    rfl
  rw [hus, List.nil_append]
  exact (congrArg Emit.out h2).symm

/-- A pattern with directed relationships finds the walks of the graph that the
transaction reads, each of them once. -/
theorem match_finds_walks {node : NodePattern} {path : List PathComponent} {b : QueryBatch}
    {seq : List Nat} {es : List (Event QrTuple)} (hp : env.Pointers) (hs : env.ctx.db.Sound)
    (hg : env.ctx.db.SeenGraph env.ctx.xid) (hx : env.ctx.xid ≠ 0)
    (hscan : env.ctx.db.nodes.ScanCondition nodesPerChunk env.ctx.xid)
    (hpath : ∀ c ∈ path, c.Directed)
    (h : prepareQuery env.ctx (.pattern node path) = .ok (some b))
    (hseq : seq.Perm (List.range b.pipelines.length)) (hr : b.start env seq = ⟨es, .ok ()⟩) :
    ∃ ws : List QrTuple, es = ws.map .tuple ++ [.finish] ∧ ws.Nodup ∧
      ∀ w, w ∈ ws ↔ ∃ v, PatternStart env node v ∧ PatternWalk env path 0 v w := by
  obtain ⟨t, b', ht, hb', hruns⟩ := prepareQuery_ok h
  cases hb'
  obtain ⟨ws, rfl, hanswers⟩ :=
    ordered_run ht hruns hseq (joinFree_ordered (q := .pattern node path) trivial ht) hr
  refine ⟨ws, rfl, ?_⟩
  cases hanswers with
  | @pattern _ _ ops vs _ hsource hops hthrough =>
      obtain ⟨pops, hpops, hops⟩ := bind_eq_ok hops
      cases hops
      rw [List.map_append] at hthrough
      obtain ⟨us, h1, h2⟩ := through_append hthrough
      obtain ⟨hsub, hmemus⟩ := through_propertyFilter h1
      have hscanned := fun n => exact_mem hs hg.running (nodeScan_exact hs hg hx hscan node.label)
        (fun o o' hd => by rw [hd]) (n := n)
      rw [nodeScan_emits hsource] at hsub hmemus
      have hinj : ∀ r r', ([.node (env.nodePtr r)] : QrTuple) = [.node (env.nodePtr r')] → r = r' :=
        fun r r' heq => by
          injection heq with heq
          injection heq with heq
          rw [← hp.node r, heq, hp.node]
      have hndus : us.Nodup := by
        refine List.Nodup.sublist hsub (List.Nodup.map hinj ?_)
        exact (nodeScan_exact hs hg hx hscan node.label).once.of_map _
      have hstart : ∀ v, v ∈ us ↔ PatternStart env node v := fun v => by
        rw [hmemus, List.mem_map]
        constructor
        · rintro ⟨⟨r, hr, rfl⟩, hpass⟩
          obtain ⟨o, hseen, hw⟩ := (hscanned r).mp hr
          exact ⟨r.id, r.loc, o, hseen, by simpa using hw, rfl, hpass⟩
        · rintro ⟨id, l, o, hseen, hlabel, rfl, hpass⟩
          exact ⟨⟨⟨id, l⟩, (hscanned _).mpr ⟨o, hseen, by simpa using hlabel⟩, rfl⟩, hpass⟩
      have hready : ∀ v ∈ us, EndsInNode env 0 v := fun v hv => by
        obtain ⟨id, l, o, hseen, -, rfl, -⟩ := (hstart v).mp hv
        exact ⟨rfl, ⟨id, l⟩, o, rfl, hseen⟩
      obtain ⟨hnd, hmem⟩ := through_path hp hg hpath hpops hready hndus h2
      refine ⟨hnd, fun w => ?_⟩
      rw [hmem]
      exact exists_congr fun v => and_congr_left fun _ => hstart v

end

/-! ## Committed graphs -/

theorem Ref.ofPtr_toPtr (r : Ref) : Ref.ofPtr r.toPtr = r := by
  obtain ⟨id, loc⟩ := r
  cases loc with
  | slot =>
      rw [Ref.toPtr, Ref.ofPtr, if_pos (Nat.mul_mod_right 2 id)]
      simp
  | copy a =>
      have hdiv : (2 * Nat.pair id a + 1) / 2 = Nat.pair id a := by omega
      rw [Ref.toPtr, Ref.ofPtr]
      simp only []
      rw [if_neg (by omega), hdiv, Nat.unpair_pair]

section

variable {nodes : List NodeData} {rships : List RshipData}

theorem slotOf_sound {α : Type} [Inhabited α] (ds : List α) :
    (⟨slotOf ds, ds.length⟩ : Vec α).Sound := by
  refine ⟨fun id => ?_, fun id hused => slotOf_used hused⟩
  show (slotOf ds id).Sound
  rw [slotOf]
  split
  · exact ⟨fun _ => rfl, fun dn hdn => by cases hdn⟩
  · exact ⟨fun hused => (by cases hused), fun dn hdn => (by cases hdn)⟩

theorem sound_committed : (GraphDb.committed 1 nodes rships).Sound := by
  have hinit : GraphDb.initial.Sound := Sys.run_sound []
  exact ⟨slotOf_sound nodes, slotOf_sound rships, hinit.nodeProperties, hinit.rshipProperties, rfl⟩

theorem scanCondition_committed :
    (GraphDb.committed 1 nodes rships).nodes.ScanCondition nodesPerChunk 1 := by
  have hslot : ∀ id < nodes.length, ∃ d, slotOf nodes id = .committed d := fun id hid => by
    rw [slotOf, List.getElem?_eq_getElem hid]
    exact ⟨_, rfl⟩
  refine ⟨fun id hused => ?_, fun id hused _ => ⟨0, by decide, ?_⟩, fun c hc _ => ?_⟩
  · obtain ⟨d, hd⟩ := hslot id (slotOf_used hused)
    show (slotOf nodes id).obj.isValid = true ↔ (slotOf nodes id).readable 1 = true
    rw [hd]
    exact ⟨fun _ => rfl, fun _ => rfl⟩
  · obtain ⟨d, hd⟩ := hslot 0 (Nat.zero_lt_of_lt (slotOf_used hused))
    show (slotOf nodes 0).used = true
    rw [hd]
    rfl
  · obtain ⟨d, hd⟩ := hslot _ hc
    show (slotOf nodes _).used = true
    rw [hd]
    rfl

/-- A node with two relationships to another one, and one back. -/
def Env.triangle : Env :=
  .committed [⟨0, 0, 2, UNKNOWN, 0⟩, ⟨1, 2, 0, UNKNOWN, 0⟩]
    [⟨0, 0, 1, 1, 1, UNKNOWN, 0⟩, ⟨1, 0, 1, UNKNOWN, UNKNOWN, UNKNOWN, 0⟩,
      ⟨2, 1, 0, UNKNOWN, UNKNOWN, UNKNOWN, 0⟩]

/-- One relationship forwards and one backwards. -/
theorem triangle_walks :
    ∃ ws : List QrTuple, [Event.tuple [.node 0, .rship 0, .node 2, .rship 0, .node 0],
        .tuple [.node 0, .rship 0, .node 2, .rship 2, .node 0],
        .tuple [.node 0, .rship 2, .node 2, .rship 0, .node 0],
        .tuple [.node 0, .rship 2, .node 2, .rship 2, .node 0],
        .tuple [.node 2, .rship 4, .node 0, .rship 4, .node 2], .finish] =
        ws.map .tuple ++ [.finish] ∧ ws.Nodup ∧
      ∀ w, w ∈ ws ↔ ∃ v, PatternStart .triangle ⟨"", []⟩ v ∧
        PatternWalk .triangle [⟨"", .no, .right, none, ⟨"", []⟩⟩, ⟨"", .left, .no, none, ⟨"", []⟩⟩]
          0 v w :=
  @match_finds_walks .triangle _ _ _ [0] _ ⟨Ref.ofPtr_toPtr, Ref.ofPtr_toPtr⟩ sound_committed
    (seenGraph_committed (by decide) (by decide) (by decide +kernel) rfl) (by decide)
    scanCondition_committed (by
      intro c hc
      rcases List.mem_cons.mp hc with rfl | hc
      · exact ⟨rfl, .inl ⟨rfl, rfl⟩⟩
      · rw [List.mem_singleton.mp hc]
        exact ⟨rfl, .inr ⟨rfl, rfl⟩⟩) rfl (by decide) rfl

end

end Poseidon
