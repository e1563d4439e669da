import Mathlib.Data.Nat.Pairing
import Poseidon.Proofs.CommittedGraph
import Poseidon.Proofs.Joins
import Poseidon.Proofs.QueryPlans

/-!
# Runs of query plans

What a query asks for, operator by operator, and what a run of its plan tells
`collect_result`. The pipelines below the stored input of a join come first.
That is all that the priorities say, so it is the order within one priority that
decides about a join below a stored input.
-/

namespace Poseidon

open Dataflow Results

/-! ## The operators -/

theorem out_of_pure {ε τ α β : Type} (x : Except ε α) (f : α → β) :
    (Emit.ofExcept x >>= fun a => pure (f a) : Emit ε τ β) = .ofExcept (x.map f) := by
  cases x with
  | error e => rfl
  | ok a => rfl

/-- What is told between does not change the result. -/
theorem kept_of_tell {ε τ α β : Type} {x : Except ε α} {g : α → List τ} {b b' : β}
    (h : (Emit.ofExcept x >>= fun a => Emit.tell (g a) >>= fun _ => pure b).ended = .ok b') :
    b' = b := by
  cases x with
  | error e => cases h
  | ok a =>
      cases h
      rfl

theorem BinaryQop.processRight_hashJoin (env : Env) (st : HashJoin) (v : QrTuple) :
    processRight env (.hashJoin st) v =
      .ofExcept (((st.buildPhase env.boostHash.hasher env.ctx v).mapError .qop).map .hashJoin) :=
  out_of_pure _ _

theorem BinaryQop.processRight_exceptOp (env : Env) (n : Nat) (lhs rhs : Variable)
    (subtrahend : List QueryResult) (v : QrTuple) :
    processRight env (.exceptOp n lhs rhs subtrahend) v =
      .ofExcept (((getVarValue env.ctx v rhs).mapError .qop).map fun q => .exceptOp n lhs rhs
        (if setContains subtrahend q then subtrahend else subtrahend ++ [q])) :=
  out_of_pure _ _

theorem HashJoin.buildPhase_phases {hasher : QueryResult → UInt64} {ctx : QueryCtx}
    {st st' : HashJoin} {v : QrTuple} (h : st.buildPhase hasher ctx v = .ok st') :
    st'.phases = st.phases := by
  obtain ⟨jval, -, h⟩ := bind_eq_ok h
  simp only [] at h
  split at h <;> cases h <;> rfl

theorem Env.ops_lawful (env : Env) : env.ops.Lawful where
  right_join := fun b v hb => by
    cases b with
    | crossJoin | leftOuterJoin => rfl
    | hashJoin st => exact congrArg Emit.out (BinaryQop.processRight_hashJoin env st v)
    | unionAll => cases hb
    | exceptOp => exact congrArg Emit.out (BinaryQop.processRight_exceptOp env ..)
  left_join := fun b v b' hb h => by
    cases b with
    | crossJoin =>
        cases h
        rfl
    | hashJoin | leftOuterJoin | exceptOp => exact kept_of_tell h
    | unionAll => cases hb
  right_kept := fun b v b' h => by
    cases b with
    | crossJoin | leftOuterJoin | unionAll =>
        cases h
        exact ⟨rfl, rfl⟩
    | hashJoin st =>
        change (BinaryQop.processRight env (.hashJoin st) v).ended = _ at h
        rw [BinaryQop.processRight_hashJoin] at h
        obtain ⟨st', h, rfl⟩ := map_eq_ok h
        cases hst : st.buildPhase env.boostHash.hasher env.ctx v with
        | error e =>
            rw [hst] at h
            cases h
        | ok st1 =>
            rw [hst] at h
            cases h
            exact ⟨rfl, HashJoin.buildPhase_phases hst⟩
    | exceptOp =>
        change (BinaryQop.processRight env (.exceptOp ..) v).ended = _ at h
        rw [BinaryQop.processRight_exceptOp] at h
        obtain ⟨q, -, rfl⟩ := map_eq_ok h
        exact ⟨rfl, rfl⟩
  right_union := fun b v hb => by
    cases b with
    | unionAll => rfl
    | crossJoin | hashJoin | leftOuterJoin | exceptOp => cases hb
  left_union := fun b v hb => by
    cases b with
    | unionAll => rfl
    | crossJoin | hashJoin | leftOuterJoin | exceptOp => cases hb
  close_kept := fun b => by
    cases b <;> exact ⟨rfl, rfl⟩
  close_fin := fun b => rfl

/-! ## What a query asks for -/

/-- The keys of a set, one after the other. -/
def insertKeys (ks : List QueryResult) : List QueryResult :=
  ks.foldl (fun s q => if setContains s q then s else s ++ [q]) []

/-- The tuples of the left input whose key none of the right input has. -/
def exceptRun (ctx : QueryCtx) (lhs rhs : Variable) (rights lefts : List QrTuple) :
    Except QopErr (List QrTuple) := do
  let ks ← rights.mapM fun w => getVarValue ctx w rhs
  let out ← lefts.mapM fun v => (getVarValue ctx v lhs).map fun q =>
    if setContains (insertKeys ks) q then [] else [v]
  .ok out.flatten

/-- The operators of a list are given all that the one before has handed
on. -/
inductive Through (env : Env) :
    List (UnaryOp × Bool) → List QrTuple → List QrTuple → Prop where
  | nil {vs : List QrTuple} : Through env [] vs vs
  | cons {x : UnaryOp × Bool} {ops : List (UnaryOp × Bool)} {u u' : UnaryOp}
      {vs us xs ws : List QrTuple} :
      feed (UnaryOp.process env env.fuel) x.1 vs = ⟨us, .ok u⟩ →
      (if x.2 then u.finish env else pure u) = ⟨xs, .ok u'⟩ →
      Through env ops (us ++ xs) ws → Through env (x :: ops) vs ws

/-- The answers of a query. What the operators with two inputs make of the
answers of their operands does not depend on any order of calls, except that a
union can mix its operands. -/
inductive Query.Answers (env : Env) : Query → List QrTuple → Prop where
  | source {s : Source} {vs : List QrTuple} : s.scan env = ⟨vs, .ok ()⟩ →
      Query.Answers env (.source s) vs
  | pattern {node : NodePattern} {path : List PathComponent} {ops : List UnaryOp}
      {vs ws : List QrTuple} : (Source.nodeScan node.label []).scan env = ⟨vs, .ok ()⟩ →
      patternOps env.ctx node path = .ok ops → Through env (ops.map fun u => (u, false)) vs ws →
      Query.Answers env (.pattern node path) ws
  | op {c : Clause} {q : Query} {ops : List (UnaryOp × Bool)} {vs ws : List QrTuple} :
      Query.Answers env q vs → c.ops env.ctx = .ok ops → Through env ops vs ws →
      Query.Answers env (.op c q) ws
  | crossJoin {q1 q2 : Query} {vs ws : List QrTuple} : Query.Answers env q1 vs →
      Query.Answers env q2 ws →
      Query.Answers env (.crossJoin q1 q2) (ws.flatMap fun w => vs.map fun v => concat v w)
  | hashJoin {lhs rhs : Variable} {q1 q2 : Query} {vs ws xs : List QrTuple} :
      Query.Answers env q1 vs → Query.Answers env q2 ws →
      HashJoin.run env.boostHash.hasher env.ctx lhs rhs vs ws = .ok xs →
      Query.Answers env (.hashJoin lhs rhs q1 q2) xs
  | leftOuterJoin {ex : Expr} {q1 q2 : Query} {vs ws xs : List QrTuple} :
      Query.Answers env q1 vs → Query.Answers env q2 ws →
      LeftOuterJoin.run env.ctx.raw env.ctx.exprCtx (.expr ex) ws vs = .ok xs →
      Query.Answers env (.leftOuterJoin ex q1 q2) xs
  | union {q1 q2 : Query} {vs ws xs : List QrTuple} : Query.Answers env q1 vs →
      Query.Answers env q2 ws → Shuffle vs ws xs → Query.Answers env (.union q1 q2) xs
  | except {lhs rhs : Variable} {q1 q2 : Query} {vs ws xs : List QrTuple} :
      Query.Answers env q1 vs → Query.Answers env q2 ws →
      exceptRun env.ctx lhs rhs ws vs = .ok xs → Query.Answers env (.except lhs rhs q1 q2) xs

section

variable {env : Env} {q : Query} {t : QopTree} {k : Nat} {vs ws xs : List QrTuple}
  {b b' b'' : BinaryQop}

theorem delivers_appendOps {ops : List (UnaryOp × Bool)}
    (h : Delivers env.ops (appendOps t ops) ws) :
    ∃ vs, Delivers env.ops t vs ∧ Through env ops vs ws := by
  induction ops generalizing t with
  | nil => exact ⟨ws, h, .nil⟩
  | cons x ops ih =>
      obtain ⟨us, hus, hthrough⟩ := ih h
      obtain ⟨u, own⟩ := x
      cases hus with
      | through hp hfeed =>
          exact ⟨_, hp, .cons hfeed rfl (by rwa [List.append_nil])⟩
      | finished hp hfeed hfin => exact ⟨_, hp, .cons hfeed hfin hthrough⟩

/-- The two calls of a join: all of the right input, and then the left one. -/
theorem delivers_joined {p q : QopTree} (hb : b.joins = true)
    (h : Delivers env.ops (.binary b p q) xs) :
    ∃ vs ws b' b'', Delivers env.ops p vs ∧ Delivers env.ops q ws ∧
      feed (BinaryQop.processRight env) b vs = ⟨[], .ok b'⟩ ∧
      feed (BinaryQop.processLeft env) b'.finish.2 ws = ⟨xs, .ok b''⟩ := by
  cases h with
  | joined _ hp hq hr hl => exact ⟨_, _, _, _, hp, hq, hr, hl⟩
  | united hb' _ _ _ => exact absurd (hb.symm.trans hb') Bool.true_eq_false_eq_False.elim

theorem crossJoin_answers (hr : feed (BinaryQop.processRight env) (.crossJoin 0 []) vs =
      ⟨[], .ok b'⟩)
    (hl : feed (BinaryQop.processLeft env) b'.finish.2 ws = ⟨xs, .ok b''⟩) :
    xs = ws.flatMap fun w => vs.map fun v => concat v w := by
  have hkeep := feed_keep (f := BinaryQop.processRight env) (g := fun s v => s ++ [v])
    (c := BinaryQop.crossJoin 0) (fun _ _ => rfl) [] vs
  rw [List.foldl_append_eq_append (f := fun v => [v]), List.nil_append] at hkeep
  rw [← List.flatMap_def, List.flatMap_singleton'] at hkeep
  cases hr.symm.trans hkeep
  obtain ⟨-, uss, huss, rfl⟩ :=
    feed_map (g := fun w => .ok (vs.map fun v => concat v w)) (fun _ => rfl) hl
  rw [mapM_ok (f := fun w => .ok (vs.map fun v => concat v w)) fun _ _ => rfl] at huss
  cases huss
  rfl

theorem hashJoin_answers {lhs rhs : Variable}
    (hr : feed (BinaryQop.processRight env) (.hashJoin (HashJoin.new lhs rhs)) vs = ⟨[], .ok b'⟩)
    (hl : feed (BinaryQop.processLeft env) b'.finish.2 ws = ⟨xs, .ok b''⟩) :
    HashJoin.run env.boostHash.hasher env.ctx lhs rhs vs ws = .ok xs := by
  obtain ⟨-, st, hst, rfl⟩ := feed_store (BinaryQop.processRight_hashJoin env) hr
  rw [foldlM_mapError] at hst
  obtain ⟨-, uss, huss, rfl⟩ := feed_map (fun v => rfl) hl
  rw [mapM_mapError] at huss
  rw [HashJoin.run, mapError_ok hst, ok_bind]
  show (ws.mapM _ >>= _) = _
  rw [mapError_ok huss]
  rfl

theorem leftOuterJoin_answers {ex : Expr}
    (hr : feed (BinaryQop.processRight env) (.leftOuterJoin (LeftOuterJoin.new (.expr ex))) vs =
      ⟨[], .ok b'⟩)
    (hl : feed (BinaryQop.processLeft env) b'.finish.2 ws = ⟨xs, .ok b''⟩) :
    LeftOuterJoin.run env.ctx.raw env.ctx.exprCtx (.expr ex) vs ws = .ok xs := by
  cases hr.symm.trans (feed_keep (f := BinaryQop.processRight env)
    (g := LeftOuterJoin.processRight) (c := BinaryQop.leftOuterJoin) (fun _ _ => rfl) _ vs)
  obtain ⟨-, uss, huss, rfl⟩ := feed_map (fun v => rfl) hl
  rw [mapM_mapError] at huss
  have huss := mapError_ok huss
  rw [mapM_mapError] at huss
  rw [LeftOuterJoin.run]
  show (ws.mapM _ >>= _) = _
  rw [mapError_ok huss]
  rfl

theorem exceptOp_answers {lhs rhs : Variable}
    (hr : feed (BinaryQop.processRight env) (.exceptOp 0 lhs rhs []) vs = ⟨[], .ok b'⟩)
    (hl : feed (BinaryQop.processLeft env) b'.finish.2 ws = ⟨xs, .ok b''⟩) :
    exceptRun env.ctx lhs rhs vs ws = .ok xs := by
  obtain ⟨-, s, hs, rfl⟩ := feed_store
    (g := fun s v => ((getVarValue env.ctx v rhs).mapError .qop).map fun q =>
      if setContains s q then s else s ++ [q])
    (c := BinaryQop.exceptOp 0 lhs rhs) (fun s v => by
      rw [BinaryQop.processRight_exceptOp]
      cases getVarValue env.ctx v rhs <;> rfl) hr
  rw [foldlM_map (g := fun s q => if setContains s q then s else s ++ [q])] at hs
  obtain ⟨ks, hks, rfl⟩ := map_eq_ok hs
  rw [mapM_mapError] at hks
  obtain ⟨-, uss, huss, rfl⟩ := feed_map
    (g := fun v => ((getVarValue env.ctx v lhs).map fun q =>
      if setContains (insertKeys ks) q then [] else [v]).mapError .qop) (fun v => by
      show (liftQop (getVarValue env.ctx v lhs) >>= _) = _
      cases getVarValue env.ctx v lhs <;> rfl) hl
  rw [mapM_mapError] at huss
  rw [exceptRun, mapError_ok hks, ok_bind, mapError_ok huss]
  rfl

/-- What the tree of a query delivers is an answer of the query. -/
theorem delivers_answers (ht : q.tree env.ctx k = .ok t) (h : Delivers env.ops t vs) :
    q.Answers env vs := by
  induction q generalizing k t vs with
  | source s =>
      cases ht
      cases h with
      | source hs => exact .source hs
  | pattern node path =>
      obtain ⟨ops, hops, ht⟩ := bind_eq_ok ht
      cases ht
      obtain ⟨us, hus, hthrough⟩ := delivers_appendOps h
      cases hus with
      | source hs => exact .pattern hs hops hthrough
  | op c q ih =>
      obtain ⟨t1, h1, ht⟩ := bind_eq_ok ht
      obtain ⟨ops, hops, ht⟩ := bind_eq_ok ht
      cases ht
      obtain ⟨us, hus, hthrough⟩ := delivers_appendOps h
      exact .op (ih h1 hus) hops hthrough
  | crossJoin q1 q2 ih1 ih2 =>
      obtain ⟨t1, h1, ht⟩ := bind_eq_ok ht
      obtain ⟨t2, h2, ht⟩ := bind_eq_ok ht
      cases ht
      obtain ⟨_, _, _, _, hp, hq, hr, hl⟩ := delivers_joined rfl h
      rw [crossJoin_answers hr hl]
      exact .crossJoin (ih1 h1 hp) (ih2 h2 hq)
  | hashJoin lhs rhs q1 q2 ih1 ih2 =>
      obtain ⟨t1, h1, ht⟩ := bind_eq_ok ht
      obtain ⟨t2, h2, ht⟩ := bind_eq_ok ht
      cases ht
      obtain ⟨_, _, _, _, hp, hq, hr, hl⟩ := delivers_joined rfl h
      exact .hashJoin (ih1 h1 hp) (ih2 h2 hq) (hashJoin_answers hr hl)
  | leftOuterJoin ex q1 q2 ih1 ih2 =>
      obtain ⟨t1, h1, ht⟩ := bind_eq_ok ht
      obtain ⟨t2, h2, ht⟩ := bind_eq_ok ht
      cases ht
      obtain ⟨_, _, _, _, hp, hq, hr, hl⟩ := delivers_joined rfl h
      exact .leftOuterJoin (ih1 h1 hq) (ih2 h2 hp) (leftOuterJoin_answers hr hl)
  | union q1 q2 ih1 ih2 =>
      obtain ⟨t1, h1, ht⟩ := bind_eq_ok ht
      obtain ⟨t2, h2, ht⟩ := bind_eq_ok ht
      cases ht
      cases h with
      | joined hb _ _ _ _ => cases hb
      | united _ hp hq hs => exact .union (ih1 h1 hp) (ih2 h2 hq) hs
  | except lhs rhs q1 q2 ih1 ih2 =>
      obtain ⟨t1, h1, ht⟩ := bind_eq_ok ht
      obtain ⟨t2, h2, ht⟩ := bind_eq_ok ht
      cases ht
      obtain ⟨_, _, _, _, hp, hq, hr, hl⟩ := delivers_joined rfl h
      exact .except (ih1 h1 hq) (ih2 h2 hp) (exceptOp_answers hr hl)

end

/-! ## The order of the pipelines -/

/-- There is no join. -/
def Query.JoinFree : Query → Prop
  | .source _ | .pattern _ _ => True
  | .op _ q => q.JoinFree
  | .union q1 q2 => q1.JoinFree ∧ q2.JoinFree
  | _ => False

/-- Every join stores the operand that is visited first. -/
def Query.Early : Query → Prop
  | .source _ | .pattern _ _ => True
  | .op _ q => q.Early
  | .union q1 q2 | .crossJoin q1 q2 | .hashJoin _ _ q1 q2 => q1.Early ∧ q2.Early
  | _ => False

/-- The operand that a join stores has a property; that of another join below
it need not have it. -/
def Query.Stores (S : Query → Prop) : Query → Prop
  | .source _ | .pattern _ _ => True
  | .op _ q => q.Stores S
  | .union q1 q2 => q1.Stores S ∧ q2.Stores S
  | .crossJoin q1 q2 | .hashJoin _ _ q1 q2 => S q1 ∧ q2.Stores S
  | .leftOuterJoin _ q1 q2 | .except _ _ q1 q2 => q1.Stores S ∧ S q2

section

variable {ctx : QueryCtx} {env : Env} {q : Query} {t p r : QopTree} {b : BinaryQop} {k : Nat}
  {ks : List Nat} {ties : Prop}

theorem tree_labels (h : q.tree ctx k = .ok t) :
    t.labels.Perm (List.range' k q.producers) := by
  induction q generalizing k t with
  | source s =>
      cases h
      exact .refl _
  | pattern node path =>
      obtain ⟨ops, _, h⟩ := bind_eq_ok h
      cases h
      rw [appendOps_labels]
      exact .refl _
  | op c q ih =>
      obtain ⟨t1, h1, h⟩ := bind_eq_ok h
      obtain ⟨ops, _, h⟩ := bind_eq_ok h
      cases h
      rw [appendOps_labels]
      exact ih h1
  | crossJoin q1 q2 ih1 ih2 | hashJoin lhs rhs q1 q2 ih1 ih2 | union q1 q2 ih1 ih2 =>
      obtain ⟨t1, h1, h⟩ := bind_eq_ok h
      obtain ⟨t2, h2, h⟩ := bind_eq_ok h
      cases h
      rw [Plan.labels, Query.producers, ← List.range'_append_1]
      exact (ih1 h1).append (ih2 h2)
  | leftOuterJoin ex q1 q2 ih1 ih2 | except lhs rhs q1 q2 ih1 ih2 =>
      obtain ⟨t1, h1, h⟩ := bind_eq_ok h
      obtain ⟨t2, h2, h⟩ := bind_eq_ok h
      cases h
      rw [Plan.labels, Query.producers, ← List.range'_append_1]
      exact List.perm_append_comm.trans ((ih1 h1).append (ih2 h2))

theorem tree_nodup (h : q.tree ctx k = .ok t) : t.labels.Nodup :=
  (tree_labels h).nodup_iff.mpr List.nodup_range'

theorem appendOps_fresh (ops : List (UnaryOp × Bool)) (h : t.Fresh env.ops) :
    (appendOps t ops).Fresh env.ops := by
  induction ops generalizing t with
  | nil => exact h
  | cons x ops ih => exact ih (t := .unary x.1 x.2 t) h

theorem appendOps_ordered (ops : List (UnaryOp × Bool)) (h : t.Ordered env.ops ks) :
    (appendOps t ops).Ordered env.ops ks := by
  induction ops generalizing t with
  | nil => exact h
  | cons x ops ih => exact ih (t := .unary x.1 x.2 t) h

theorem appendOps_priority (ops : List (UnaryOp × Bool)) (t : QopTree) (j : Nat) :
    treePriority j (appendOps t ops) = treePriority j t := by
  induction ops generalizing t with
  | nil => rfl
  | cons x ops ih => exact ih (.unary x.1 x.2 t)

theorem tree_fresh (h : q.tree ctx k = .ok t) : t.Fresh env.ops := by
  induction q generalizing k t with
  | source s =>
      cases h
      exact trivial
  | pattern node path =>
      obtain ⟨ops, _, h⟩ := bind_eq_ok h
      cases h
      exact appendOps_fresh _ trivial
  | op c q ih =>
      obtain ⟨t1, h1, h⟩ := bind_eq_ok h
      obtain ⟨ops, _, h⟩ := bind_eq_ok h
      cases h
      exact appendOps_fresh _ (ih h1)
  | crossJoin q1 q2 ih1 ih2 | hashJoin lhs rhs q1 q2 ih1 ih2 | union q1 q2 ih1 ih2 =>
      obtain ⟨t1, h1, h⟩ := bind_eq_ok h
      obtain ⟨t2, h2, h⟩ := bind_eq_ok h
      cases h
      exact ⟨rfl, ih1 h1, ih2 h2⟩
  | leftOuterJoin ex q1 q2 ih1 ih2 | except lhs rhs q1 q2 ih1 ih2 =>
      obtain ⟨t1, h1, h⟩ := bind_eq_ok h
      obtain ⟨t2, h2, h⟩ := bind_eq_ok h
      cases h
      exact ⟨rfl, ih2 h2, ih1 h1⟩

/-! ### Priorities -/

theorem treePriority_le_one (j : Nat) (t : QopTree) : treePriority j t ≤ 1 := by
  induction t with
  | source => exact Nat.zero_le _
  | unary u own p ih => exact ih
  | binary b p q ihp ihq =>
      rw [treePriority]
      split
      · exact Nat.max_le.mpr ⟨ihp, by split <;> omega⟩
      · exact ihq

/-- What gets to the root of a tree comes in a pipeline of priority 0. -/
theorem treePriority_streams (hn : t.labels.Nodup) {j : Nat} (hj : j ∈ t.streams env.ops) :
    treePriority j t = 0 := by
  induction t with
  | source => rfl
  | unary u own p ih => exact ih hn hj
  | binary b p q ihp ihq =>
      obtain ⟨hp, hq, hdisj⟩ := List.nodup_append'.mp hn
      have hleft : j ∈ q.streams env.ops → treePriority j (.binary b p q) = 0 := fun hj => by
        rw [treePriority, if_neg fun hjp => hdisj hjp (q.streams_subset hj)]
        exact ihq hq hj
      rw [Plan.streams, show env.ops.joins b = b.joins from rfl] at hj
      by_cases hb : b.joins = true
      · rw [if_pos hb] at hj
        exact hleft hj
      · rw [if_neg hb] at hj
        rcases List.mem_append.mp hj with hj | hj
        · rw [treePriority, if_pos (p.streams_subset hj), ihp hp hj, if_neg hb]
          rfl
        · exact hleft hj

/-- A sequence of all leaves has greater priorities first, and keeps the order
of equal ones if `ties` holds. -/
def Sequenced (ties : Prop) (ks : List Nat) (t : QopTree) : Prop :=
  ∀ i ∈ t.labels, ∀ j ∈ t.labels, treePriority j t < treePriority i t ∨
    ties ∧ treePriority i t = treePriority j t ∧ i < j → [i, j].Sublist ks

theorem Sequenced.left (h : Sequenced ties ks (.binary b p r))
    (hn : (Plan.binary b p r : QopTree).labels.Nodup) : Sequenced ties ks r := by
  have hdisj := (List.nodup_append'.mp hn).2.2
  have hprio : ∀ j ∈ r.labels, treePriority j (.binary b p r) = treePriority j r := fun j hj => by
    rw [treePriority, if_neg fun hjp => hdisj hjp hj]
  intro i hi j hj hij
  rw [← hprio i hi, ← hprio j hj] at hij
  exact h i (List.mem_append_right _ hi) j (List.mem_append_right _ hj) hij

theorem Sequenced.united (h : Sequenced ties ks (.binary b p r)) (hb : b.joins = false) :
    Sequenced ties ks p := by
  have hprio : ∀ j ∈ p.labels, treePriority j (.binary b p r) = treePriority j p := fun j hj => by
    rw [treePriority, if_pos hj, hb]
    exact Nat.max_zero _
  intro i hi j hj hij
  rw [← hprio i hi, ← hprio j hj] at hij
  exact h i (List.mem_append_left _ hi) j (List.mem_append_left _ hj) hij

theorem treePriority_stored (hb : b.joins = true) {j : Nat} (hj : j ∈ p.labels) :
    treePriority j (.binary b p r) = 1 := by
  rw [treePriority, if_pos hj, hb]
  exact Nat.max_eq_right (treePriority_le_one j p)

/-- Below a stored input there is one priority only. -/
theorem Sequenced.stored (h : Sequenced ties ks (.binary b p r)) (hb : b.joins = true)
    (hties : ties) : ∀ i ∈ p.labels, ∀ j ∈ p.labels, i < j → [i, j].Sublist ks :=
  fun i hi j hj hij => h i (List.mem_append_left _ hi) j (List.mem_append_left _ hj)
    (.inr ⟨hties, by rw [treePriority_stored hb hi, treePriority_stored hb hj], hij⟩)

theorem Sequenced.join (h : Sequenced ties ks (.binary b p r)) (hb : b.joins = true)
    (hn : (Plan.binary b p r : QopTree).labels.Nodup) :
    ∀ i ∈ p.labels, ∀ j ∈ r.streams env.ops, [i, j].Sublist ks := fun i hi j hj => by
  have hstream : j ∈ (Plan.binary b p r : QopTree).streams env.ops := by
    rw [Plan.streams, if_pos (show env.ops.joins b = true from hb)]
    exact hj
  refine h i (List.mem_append_left _ hi) j (List.mem_append_right _ (r.streams_subset hj)) (.inl ?_)
  rw [treePriority_stored hb hi, treePriority_streams hn hstream]
  exact Nat.one_pos

theorem joinFree_ordered (hq : q.JoinFree) (ht : q.tree ctx k = .ok t) :
    t.Ordered env.ops ks := by
  induction q generalizing k t with
  | source s =>
      cases ht
      exact trivial
  | pattern node path =>
      obtain ⟨ops, _, ht⟩ := bind_eq_ok ht
      cases ht
      exact appendOps_ordered _ trivial
  | op c q ih =>
      obtain ⟨t1, h1, ht⟩ := bind_eq_ok ht
      obtain ⟨ops, _, ht⟩ := bind_eq_ok ht
      cases ht
      exact appendOps_ordered _ (ih hq h1)
  | union q1 q2 ih1 ih2 =>
      obtain ⟨t1, h1, ht⟩ := bind_eq_ok ht
      obtain ⟨t2, h2, ht⟩ := bind_eq_ok ht
      cases ht
      exact ⟨ih1 hq.1 h1, ih2 hq.2 h2, fun hb => by cases hb⟩
  | crossJoin | hashJoin | leftOuterJoin | except => cases hq

/-- The leaves of the second operand come after those of the first one. -/
theorem labels_lt {q1 q2 : Query} {t1 t2 : QopTree} (h1 : q1.tree ctx k = .ok t1)
    (h2 : q2.tree ctx (k + q1.producers) = .ok t2) :
    ∀ i ∈ t1.labels, ∀ j ∈ t2.labels, i < j := fun i hi j hj => by
  have hi := List.mem_range'_1.mp ((tree_labels h1).mem_iff.mp hi)
  have hj := List.mem_range'_1.mp ((tree_labels h2).mem_iff.mp hj)
  omega

theorem early_ordered (hq : q.Early) (ht : q.tree ctx k = .ok t)
    (h : ∀ i ∈ t.labels, ∀ j ∈ t.labels, i < j → [i, j].Sublist ks) : t.Ordered env.ops ks := by
  induction q generalizing k t with
  | source s =>
      cases ht
      exact trivial
  | pattern node path =>
      obtain ⟨ops, _, ht⟩ := bind_eq_ok ht
      cases ht
      exact appendOps_ordered _ trivial
  | op c q ih =>
      obtain ⟨t1, h1, ht⟩ := bind_eq_ok ht
      obtain ⟨ops, _, ht⟩ := bind_eq_ok ht
      cases ht
      rw [appendOps_labels] at h
      exact appendOps_ordered _ (ih hq h1 h)
  | crossJoin q1 q2 ih1 ih2 | hashJoin lhs rhs q1 q2 ih1 ih2 | union q1 q2 ih1 ih2 =>
      obtain ⟨t1, h1, ht⟩ := bind_eq_ok ht
      obtain ⟨t2, h2, ht⟩ := bind_eq_ok ht
      cases ht
      refine ⟨ih1 hq.1 h1 fun i hi j hj => ?_, ih2 hq.2 h2 fun i hi j hj => ?_,
        fun _ i hi j hj => ?_⟩
      · exact h i (List.mem_append_left _ hi) j (List.mem_append_left _ hj)
      · exact h i (List.mem_append_right _ hi) j (List.mem_append_right _ hj)
      · have hj := t2.streams_subset hj
        exact h i (List.mem_append_left _ hi) j (List.mem_append_right _ hj)
          (labels_lt h1 h2 i hi j hj)
  | leftOuterJoin | except => cases hq

/-- If the sequence is right for the stored operands, it is right for the
query. -/
theorem stores_ordered {S : Query → Prop}
    (hS : ∀ {q : Query} {k : Nat} {t : QopTree}, S q → q.tree ctx k = .ok t →
      (ties → ∀ i ∈ t.labels, ∀ j ∈ t.labels, i < j → [i, j].Sublist ks) → t.Ordered env.ops ks)
    (hq : q.Stores S) (ht : q.tree ctx k = .ok t) (h : Sequenced ties ks t) :
    t.Ordered env.ops ks := by
  have hn := tree_nodup ht
  induction q generalizing k t with
  | source s =>
      cases ht
      exact trivial
  | pattern node path =>
      obtain ⟨ops, _, ht⟩ := bind_eq_ok ht
      cases ht
      exact appendOps_ordered _ trivial
  | op c q ih =>
      obtain ⟨t1, h1, ht⟩ := bind_eq_ok ht
      obtain ⟨ops, _, ht⟩ := bind_eq_ok ht
      cases ht
      rw [Sequenced, appendOps_labels] at h
      simp only [appendOps_priority] at h
      exact appendOps_ordered _ (ih hq h1 h (tree_nodup h1))
  | union q1 q2 ih1 ih2 =>
      obtain ⟨t1, h1, ht⟩ := bind_eq_ok ht
      obtain ⟨t2, h2, ht⟩ := bind_eq_ok ht
      cases ht
      exact ⟨ih1 hq.1 h1 (h.united rfl) (tree_nodup h1), ih2 hq.2 h2 (h.left hn) (tree_nodup h2),
        fun hb => by cases hb⟩
  | crossJoin q1 q2 ih1 ih2 | hashJoin lhs rhs q1 q2 ih1 ih2 =>
      obtain ⟨t1, h1, ht⟩ := bind_eq_ok ht
      obtain ⟨t2, h2, ht⟩ := bind_eq_ok ht
      cases ht
      exact ⟨hS hq.1 h1 (h.stored rfl), ih2 hq.2 h2 (h.left hn) (tree_nodup h2),
        fun _ => h.join rfl hn⟩
  | leftOuterJoin ex q1 q2 ih1 ih2 | except lhs rhs q1 q2 ih1 ih2 =>
      obtain ⟨t1, h1, ht⟩ := bind_eq_ok ht
      obtain ⟨t2, h2, ht⟩ := bind_eq_ok ht
      cases ht
      exact ⟨hS hq.2 h2 (h.stored rfl), ih1 hq.1 h1 (h.left hn) (tree_nodup h1),
        fun _ => h.join rfl hn⟩

end

/-! ## Sequences of pipelines -/

theorem pair_sublist {l : List Nat} {R : Nat → Nat → Prop} (h : l.Pairwise R) {i j : Nat}
    (hi : i ∈ l) (hj : j ∈ l) (hne : i ≠ j) (hR : ¬R j i) : [i, j].Sublist l := by
  obtain ⟨xs, ys, rfl⟩ := List.append_of_mem hi
  rcases List.mem_append.mp hj with hj | hj
  · exact absurd ((List.pairwise_append.mp h).2.2 j hj i (List.mem_cons_self ..)) hR
  · have hj := (List.mem_cons.mp hj).resolve_left (Ne.symm hne)
    exact ((List.singleton_sublist.mpr hj).cons_cons i).trans (List.sublist_append_right _ _)

section

variable {b : QueryBatch} {t : QopTree} {seq : List Nat}

theorem QueryBatch.Scheduled.sequenced (hs : b.Scheduled seq) (h : b.RunsAs t) :
    Sequenced False seq t := by
  intro i hi j hj hij
  have hlt := hij.resolve_right And.left
  have hi := h.labels.mem_iff.mp hi
  have hj := h.labels.mem_iff.mp hj
  rw [← h.priority i (List.mem_range.mp hi), ← h.priority j (List.mem_range.mp hj)] at hlt
  refine pair_sublist (List.pairwise_map.mp hs.sorted) (hs.perm.mem_iff.mpr hi)
    (hs.perm.mem_iff.mpr hj) ?_ (Nat.not_le.mpr hlt)
  rintro rfl
  exact Nat.lt_irrefl _ hlt

instance (b : QueryBatch) : IsTrans Nat b.Before := ⟨fun _ _ _ h h' => Nat.le_trans h' h⟩

instance (b : QueryBatch) : Std.Total b.Before := ⟨fun _ _ => Nat.le_total _ _⟩

theorem schedulePipelines_scheduled (b : QueryBatch) : b.Scheduled b.schedulePipelines where
  perm := List.perm_insertionSort _ _
  sorted := List.pairwise_map.mpr (List.pairwise_insertionSort _ _)

theorem schedulePipelines_sequenced (h : b.RunsAs t) :
    Sequenced True b.schedulePipelines t := by
  intro i hi j hj hij
  rcases hij with hij | ⟨-, heq, hlt⟩
  · exact (schedulePipelines_scheduled b).sequenced h i hi j hj (.inl hij)
  · have hi := h.labels.mem_iff.mp hi
    have hj := h.labels.mem_iff.mp hj
    rw [← h.priority i (List.mem_range.mp hi), ← h.priority j (List.mem_range.mp hj)] at heq
    exact List.pair_sublist_insertionSort (Nat.le_of_eq heq.symm)
      (pair_sublist List.pairwise_lt_range hi hj (Nat.ne_of_lt hlt) (by omega))

end

/-! ## What a run tells -/

/-- A pointer for each reference; those to slots are even. -/
def Ref.toPtr (r : Ref) : Nat :=
  match r.loc with
  | .slot => 2 * r.id
  | .copy a => 2 * Nat.pair r.id a + 1

def Ref.ofPtr (p : Nat) : Ref :=
  if p % 2 = 0 then ⟨p / 2, .slot⟩ else ⟨(p / 2).unpair.1, .copy (p / 2).unpair.2⟩

/-- A transaction on committed records. -/
def Env.committed (nodes : List NodeData) (rships : List RshipData) : Env where
  ctx := { QueryCtx.initial with
    db := GraphDb.committed 1 nodes rships
    nodeRef := Ref.ofPtr
    rshipRef := Ref.ofPtr }
  nodePtr := Ref.toPtr
  rshipPtr := Ref.toPtr
  fuel := 10
  isoExtended _ := ""
  boostHash := .parity
  stdHash := ⟨fun _ => 0, fun _ => 0, fun _ => 0⟩
  iterate _ := []
  sortSpec := []
  cmpFunc := none
  tupleAlgorithms _ := none
  setAlgorithms _ := none

/-- Two nodes. -/
def Env.twoNodes : Env :=
  .committed [⟨0, UNKNOWN, UNKNOWN, UNKNOWN, 1⟩, ⟨1, UNKNOWN, UNKNOWN, UNKNOWN, 2⟩] []

/-- All nodes. -/
def Query.allNodes : Query := .source (.nodeScan "" [])

section

variable {env : Env} {q qa qb qc : Query} {b : QueryBatch} {t : QopTree} {seq : List Nat}
  {es : List (Event QrTuple)}

/-- A run that succeeds is one of the leaves of the tree. -/
theorem start_runs (h : b.RunsAs t) (hseq : seq.Perm (List.range b.pipelines.length))
    (hr : b.start env seq = ⟨es, .ok ()⟩) :
    ∃ rs t', Runs (A := env.ops) t rs t' ∧ rs.map Entry.label = seq ∧
      seq.Perm t.labels ∧ es = rs.flatMap Entry.events := by
  have hstart := h.start env seq fun k hk => List.mem_range.mp (hseq.mem_iff.mp hk)
  rw [hr, Emit.mk.injEq] at hstart
  obtain ⟨rfl, hended⟩ := hstart
  obtain ⟨t', ht', -⟩ := map_eq_ok hended.symm
  obtain ⟨rs, hruns, hlabels, hes⟩ := play_eq_ok.mp (Emit.eq_mk ht')
  exact ⟨rs, t', hruns, hlabels, hseq.trans h.labels.symm, hes⟩

/-- The planner makes a plan of every query that it does not reject, and the
objects of the plan, run pipeline after pipeline, tell `collect_result` what
the tree of the query does. -/
theorem network_refines_tree {ctx : QueryCtx} {r : Option QueryBatch}
    (h : prepareQuery ctx q = .ok r) :
    ∃ t b, q.tree ctx 0 = .ok t ∧ r = some b ∧ t.labels.Perm (List.range b.pipelines.length) ∧
      ∀ (env : Env) (seq : List Nat), (∀ k ∈ seq, k ∈ t.labels) → b.start env seq =
        ⟨(t.play env.ops seq).out, (t.play env.ops seq).ended.map fun _ => ()⟩ := by
  obtain ⟨t, b, ht, hr, hb⟩ := prepareQuery_ok h
  exact ⟨t, b, ht, hr, hb.labels, fun env seq hseq => hb.start env seq fun k hk =>
    List.mem_range.mp (hb.labels.mem_iff.mp (hseq k hk))⟩

theorem network_refines_tree_product :
    ∃ (r : Option QueryBatch) (t : QopTree) (b : QueryBatch),
      (Query.crossJoin .allNodes .allNodes).tree Env.twoNodes.ctx 0 = .ok t ∧ r = some b ∧
        t.labels.Perm (List.range b.pipelines.length) ∧
          ∀ (env : Env) (seq : List Nat), (∀ k ∈ seq, k ∈ t.labels) → b.start env seq =
            ⟨(t.play env.ops seq).out, (t.play env.ops seq).ended.map fun _ => ()⟩ :=
  ⟨_, network_refines_tree rfl⟩

/-- In whatever order the pipelines run, `collect_result` is told of the end
once, and after that of nothing. -/
theorem query_ends_once {ctx : QueryCtx} (h : prepareQuery ctx q = .ok (some b))
    (hseq : seq.Perm (List.range b.pipelines.length)) (hr : b.start env seq = ⟨es, .ok ()⟩) :
    ∃ vs : List QrTuple, es = vs.map .tuple ++ [.finish] := by
  obtain ⟨t, b', ht, hb', hruns⟩ := prepareQuery_ok h
  cases hb'
  obtain ⟨rs, t', hrs, rfl, hperm, rfl⟩ := start_runs hruns hseq hr
  exact ⟨outs rs, (hrs.endsOnce env.ops_lawful (tree_fresh ht) (tree_nodup ht) hperm).events⟩

/-- The pipeline of the left input first: a join that has nothing stored. -/
theorem product_ends_once :
    ∃ vs : List QrTuple, [Event.finish] = vs.map .tuple ++ [.finish] :=
  @query_ends_once .twoNodes (.crossJoin .allNodes .allNodes) _ [1, 0] _ Env.twoNodes.ctx rfl
    (by decide) rfl

/-- What an ordered run tells are the answers of the query. -/
theorem ordered_run (ht : q.tree env.ctx 0 = .ok t) (h : b.RunsAs t)
    (hseq : seq.Perm (List.range b.pipelines.length)) (ho : t.Ordered env.ops seq)
    (hr : b.start env seq = ⟨es, .ok ()⟩) :
    ∃ vs : List QrTuple, es = vs.map .tuple ++ [.finish] ∧ q.Answers env vs := by
  obtain ⟨rs, t', hrs, rfl, hperm, rfl⟩ := start_runs h hseq hr
  obtain ⟨hdel, -⟩ := hrs.delivers env.ops_lawful (tree_fresh ht) (tree_nodup ht) hperm ho
  exact ⟨outs rs, (hrs.endsOnce env.ops_lawful (tree_fresh ht) (tree_nodup ht) hperm).events,
    delivers_answers ht hdel⟩

/-- A query in which no join is below the stored operand of another one is
answered with every sequence of pipelines that is sorted by priority. -/
theorem sorted_run_answers (h : prepareQuery env.ctx q = .ok (some b))
    (hq : q.Stores Query.JoinFree) (hs : b.Scheduled seq) (hr : b.start env seq = ⟨es, .ok ()⟩) :
    ∃ vs : List QrTuple, es = vs.map .tuple ++ [.finish] ∧ q.Answers env vs := by
  obtain ⟨t, b', ht, hb', hruns⟩ := prepareQuery_ok h
  cases hb'
  exact ordered_run ht hruns hs.perm (stores_ordered (fun hq ht _ => joinFree_ordered hq ht) hq ht
    (hs.sequenced hruns)) hr

theorem product_sorted_run :
    ∃ vs : List QrTuple, [Event.tuple [.node 0, .node 0], .tuple [.node 2, .node 0],
        .tuple [.node 0, .node 2], .tuple [.node 2, .node 2], .finish] =
        vs.map .tuple ++ [.finish] ∧
      (Query.crossJoin .allNodes .allNodes).Answers .twoNodes vs :=
  @sorted_run_answers .twoNodes _ _ [0, 1] _ rfl ⟨trivial, trivial⟩ ⟨by decide, by decide⟩ rfl

/-- If the sort keeps the order of pipelines with the same priority, a query is
answered in which no left outer join and no `except` is below the stored operand
of a join. -/
theorem stable_run_answers (h : prepareQuery env.ctx q = .ok (some b))
    (hq : q.Stores Query.Early) (hr : b.start env b.schedulePipelines = ⟨es, .ok ()⟩) :
    ∃ vs : List QrTuple, es = vs.map .tuple ++ [.finish] ∧ q.Answers env vs := by
  obtain ⟨t, b', ht, hb', hruns⟩ := prepareQuery_ok h
  cases hb'
  exact ordered_run ht hruns (schedulePipelines_scheduled b).perm
    (stores_ordered (fun hq ht h => early_ordered hq ht (h trivial)) hq ht
      (schedulePipelines_sequenced hruns)) hr

theorem triple_stable_run :
    ∃ vs : List QrTuple, [Event.tuple [.node 0, .node 0, .node 0],
        .tuple [.node 2, .node 0, .node 0], .tuple [.node 0, .node 2, .node 0],
        .tuple [.node 2, .node 2, .node 0], .tuple [.node 0, .node 0, .node 2],
        .tuple [.node 2, .node 0, .node 2], .tuple [.node 0, .node 2, .node 2],
        .tuple [.node 2, .node 2, .node 2], .finish] = vs.map .tuple ++ [.finish] ∧
      (Query.crossJoin (.crossJoin .allNodes .allNodes) .allNodes).Answers .twoNodes vs :=
  @stable_run_answers .twoNodes _ _ _ rfl ⟨⟨trivial, trivial⟩, trivial⟩ rfl

theorem leftOuterJoin_unstored {ex : Expr} {vs xs : List QrTuple} {b' : BinaryQop}
    (h : feed (BinaryQop.processLeft env) (.leftOuterJoin (LeftOuterJoin.new (.expr ex))) vs =
      ⟨xs, .ok b'⟩) : xs = vs.map fun v => concat v [.null] := by
  obtain ⟨-, uss, huss, rfl⟩ := feed_map (g := fun v => .ok [concat v [.null]]) (fun _ => rfl) h
  rw [mapM_ok (f := fun v => .ok [concat v [.null]]) fun _ _ => rfl] at huss
  cases huss
  exact List.flatMap_def.symm.trans (List.flatMap_pure_eq_map _ _)

/-- The left outer join is run before the pipelines below its stored operand,
which have the same priority and are later in the sequence. So no tuple finds a
partner, whatever the operand is. -/
theorem stored_left_outer_join_lost {ex : Expr} (ha : qa.Early) (hc : qc.Stores Query.Early)
    (h : prepareQuery env.ctx (.crossJoin (.leftOuterJoin ex qa qb) qc) = .ok (some b))
    (hr : b.start env b.schedulePipelines = ⟨es, .ok ()⟩) :
    ∃ vs ws, qa.Answers env vs ∧ qc.Answers env ws ∧
      es = (ws.flatMap fun w => vs.map fun v => concat (concat v [.null]) w).map .tuple ++
        [.finish] := by
  obtain ⟨t, b', ht, hb', hruns⟩ := prepareQuery_ok h
  cases hb'
  obtain ⟨rs, t', hrs, hlabels, hperm, rfl⟩ :=
    start_runs hruns (schedulePipelines_scheduled b).perm hr
  have hseq := schedulePipelines_sequenced hruns
  rw [← hlabels] at hseq hperm
  have hnd := tree_nodup ht
  have hfresh : t.Fresh env.ops := tree_fresh ht
  rw [(hrs.endsOnce env.ops_lawful hfresh hnd hperm).events]
  obtain ⟨tj, hj, ht⟩ := bind_eq_ok ht
  obtain ⟨tc, htc, ht⟩ := bind_eq_ok ht
  obtain ⟨ta, hta, hj⟩ := bind_eq_ok hj
  obtain ⟨tb, htb, hj⟩ := bind_eq_ok hj
  cases hj
  cases ht
  obtain ⟨-, ⟨hfreshj, hfreshb, hfresha⟩, hfreshc⟩ := hfresh
  obtain ⟨rj, rc, _, _, _, hrj, hrc, hm, hpj, hpc, hfilter, -, hoc⟩ := hrs.inputs hnd hperm
  obtain ⟨hndj, hndc, -⟩ := List.nodup_append'.mp hnd
  obtain ⟨rb, ra, _, _, _, hrb, hra, hm', hpb, hpa, -, -, hoa⟩ := hrj.inputs hndj hpj
  obtain ⟨hndb, hnda, -⟩ := List.nodup_append'.mp hndj
  -- within the stored operand the sequence is that of the visits
  have hpair : ∀ i ∈ tb.labels ++ ta.labels, ∀ j ∈ tb.labels ++ ta.labels, i < j →
      [i, j].Sublist (rj.map Entry.label) := fun i hi j hj hij => by
    have hsub := (hseq.stored rfl trivial i hi j hj hij).filter (· ∈ tb.labels ++ ta.labels)
    rw [List.filter_eq_self.mpr (by simp [List.mem_append.mp hi, List.mem_append.mp hj])] at hsub
    rw [hfilter]
    exact hsub
  have hends := hrj.endsOnce env.ops_lawful ⟨hfreshj, hfreshb, hfresha⟩ hndj hpj
  have hendsa := hra.endsOnce env.ops_lawful hfresha hnda hpa
  have hendsc := hrc.endsOnce env.ops_lawful hfreshc hndc hpc
  obtain ⟨hdela, -⟩ := hra.delivers env.ops_lawful hfresha hnda hpa
    (hoa (early_ordered ha hta fun i hi j hj =>
      hpair i (List.mem_append_right _ hi) j (List.mem_append_right _ hj)))
  obtain ⟨hdelc, hquietc⟩ := hrc.delivers env.ops_lawful hfreshc hndc hpc
    (hoc (stores_ordered (fun hq ht h => early_ordered hq ht (h trivial)) hc htc (hseq.left hnd)))
  obtain ⟨_, hlate⟩ := hm'.late env.ops_lawful rfl (hpj.nodup_iff.mpr hndj) (fun j hj k hk => by
    have hj := hpa.mem_iff.mp hj
    have hk := hpb.mem_iff.mp hk
    exact hpair j (List.mem_append_right _ hj) k (List.mem_append_left _ hk)
      (labels_lt hta htb j hj k hk)) (.inr hendsa)
  have hfirst : RightFirst (tc.streams env.ops) rj rc rs :=
    ⟨hperm.nodup_iff.mpr hnd, fun j hj k _ hk => hseq.join rfl hnd j (hpj.mem_iff.mp hj) k hk,
      hquietc, .inr hends, .inr hendsc⟩
  obtain ⟨_, _, h6, h7⟩ := (hm.joined env.ops_lawful rfl hfirst).2 hends
  refine ⟨outs ra, outs rc, delivers_answers hta hdela, delivers_answers htc hdelc, ?_⟩
  rw [crossJoin_answers h6 h7, leftOuterJoin_unstored hlate]
  simp only [List.map_map]
  rfl

/-- The expression holds for every pair of nodes. -/
theorem all_pairs_lost :
    ∃ vs ws, Query.allNodes.Answers .twoNodes vs ∧ Query.allNodes.Answers .twoNodes ws ∧
      [Event.tuple [.node 0, .null, .node 0], .tuple [.node 2, .null, .node 0],
          .tuple [.node 0, .null, .node 2], .tuple [.node 2, .null, .node 2], .finish] =
        (ws.flatMap fun w => vs.map fun v => concat (concat v [.null]) w).map .tuple ++
          [.finish] :=
  @stored_left_outer_join_lost .twoNodes .allNodes .allNodes .allNodes _ _
    (.binary (.cmp .eq) (.intLiteral 1) (.intLiteral 1)) trivial trivial rfl rfl

end

end Poseidon
