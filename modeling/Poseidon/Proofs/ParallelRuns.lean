import Poseidon.Proofs.QueryClauses
import Poseidon.Query.Parallel

/-!
# Runs of parallel scans

However the calls of the workers are interleaved, each operator is given what the
one before has handed on, in some order. A limit is the exception: it hands on as
many tuples as it should at least, and at most as many more as there are other
workers.
-/

namespace Poseidon

open Dataflow Results Workers Relation

/-! ## Calls -/

/-- The operators that are called as a whole. -/
def UnaryOp.Whole : UnaryOp → Prop
  | .limitResult _ _ => False
  | _ => True

namespace Call

/-- The tuple with which a call waits for the operator at a position. -/
def waits (i : Nat) : Call → Option QrTuple
  | process j v => if j = i then some v else none
  | pass _ _ => none

/-- The tuple that the limit at a position has let through, but not counted. -/
def passes (i : Nat) : Call → Option QrTuple
  | process _ _ => none
  | pass j v => if j = i then some v else none

def IsPass : Call → Prop
  | process _ _ => False
  | pass _ _ => True

instance : DecidablePred IsPass
  | process _ _ => isFalse id
  | pass _ _ => isTrue trivial

def position : Call → Nat
  | process i _ | pass i _ => i

/-- What a call can do. -/
inductive Does (env : Env) : Call → PipelineState → PipelineState → List Call → Prop
  | collect {i : Nat} {v : QrTuple} {st : PipelineState} : st.ops[i]? = none →
      Does env (process i v) st { st with results := st.results ++ [v] } []
  | test {i num processed : Nat} {v : QrTuple} {st : PipelineState} :
      st.ops[i]? = some (.limitResult num processed) →
      Does env (process i v) st st (if processed < num then [pass i v] else [])
  | whole {i : Nat} {v : QrTuple} {st : PipelineState} {u u' : UnaryOp} {ws : List QrTuple} :
      st.ops[i]? = some u → u.Whole → u.process env env.fuel v = ⟨ws, .ok u'⟩ →
      Does env (process i v) st { st with ops := st.ops.set i u' } (ws.map (process (i + 1)))
  | count {i num processed : Nat} {v : QrTuple} {st : PipelineState} :
      st.ops[i]? = some (.limitResult num processed) →
      Does env (pass i v) st
        { st with ops := st.ops.set i (.limitResult num (processed + 1)) } [process (i + 1) v]

end Call

section

variable {env : Env} {c : Call} {st st' : PipelineState} {cs : List Call} {u u' : UnaryOp}
  {v : QrTuple} {vs ws : List QrTuple}

theorem Call.run_whole {i : Nat} (hop : st.ops[i]? = some u) (hu : u.Whole)
    (h : (process i v).run env st = some (st', cs)) : Does env (process i v) st st' cs := by
  have hrun : (process i v).run env st = (u.process env env.fuel v).ended.toOption.map fun u' =>
      ({ st with ops := st.ops.set i u' },
        (u.process env env.fuel v).out.map (process (i + 1))) := by
    rw [Call.run, hop]
    cases u with
    | limitResult num processed => exact hu.elim
    | _ =>
        simp only []
        split
        · next hended =>
            rw [hended]
            rfl
        · next hended =>
            rw [hended]
            rfl
  rw [hrun] at h
  cases hended : (u.process env env.fuel v).ended with
  | error e =>
      rw [hended] at h
      cases h
  | ok u' =>
      rw [hended] at h
      cases h
      exact .whole hop hu (Emit.eq_mk hended)

theorem Call.run_does (h : c.run env st = some (st', cs)) : c.Does env st st' cs := by
  cases c with
  | process i v =>
      cases hop : st.ops[i]? with
      | none =>
          rw [Call.run, hop] at h
          cases h
          exact .collect hop
      | some u =>
          by_cases hu : u.Whole
          · exact run_whole hop hu h
          · cases u with
            | limitResult num processed =>
                rw [Call.run, hop] at h
                cases h
                exact .test hop
            | _ => exact absurd trivial hu
  | pass i v =>
      rw [Call.run] at h
      split at h
      · next hop =>
          cases h
          exact .count hop
      · cases h

/-- A `process` leaves an operator of the same kind. -/
theorem processWith_whole {f : UnaryOp → QrTuple → Emits UnaryOp}
    (h : UnaryOp.processWith env f u v = ⟨ws, .ok u'⟩) (hu : u.Whole) : u'.Whole := by
  cases u with
  | limitResult num processed => exact hu.elim
  | orderBy results =>
      cases h
      trivial
  | existsOp isNot sub =>
      obtain ⟨_, _, _, -, h, -⟩ := Emit.bind_eq_ok.mp h
      obtain ⟨_, _, _, -, h, -⟩ := Emit.bind_eq_ok.mp h
      cases h
      trivial
  | _ =>
      obtain ⟨_, _, _, -, h, -⟩ := Emit.bind_eq_ok.mp h
      cases h
      trivial

theorem process_whole {n : Nat} (h : u.process env n v = ⟨ws, .ok u'⟩) (hu : u.Whole) :
    u'.Whole := by
  obtain ⟨f, hf⟩ := process_eq env n
  rw [hf] at h
  exact processWith_whole h hu

theorem feed_whole {n : Nat} (hu : u.Whole)
    (h : feed (UnaryOp.process env n) u vs = ⟨ws, .ok u'⟩) : u'.Whole :=
  feed_keeps (P := UnaryOp.Whole)
    (fun u v _ hu hended => process_whole (u := u) (v := v) (Emit.eq_mk hended) hu) hu h

/-! ## What an operator has done -/

/-- An operator has been called for the tuples of `log` and has handed on those of
`us`; a limit has let those of `a` through, but not counted them. There are `k`
workers. -/
inductive Did (env : Env) (k : Nat) :
    UnaryOp → UnaryOp → List QrTuple → List QrTuple → Multiset QrTuple → Prop
  | whole {u u' : UnaryOp} {log us : List QrTuple} : u.Whole →
      feed (UnaryOp.process env env.fuel) u log = ⟨us, .ok u'⟩ → Did env k u u' log us 0
  | limit {num processed : Nat} {log us : List QrTuple} {a : Multiset QrTuple} :
      ↑us + a ≤ (↑log : Multiset QrTuple) →
      (us.length + a.card < log.length → num ≤ processed + us.length) →
      (us.length + a.card = 0 ∨
        processed < num ∧ processed + us.length + a.card + 1 ≤ num + k) →
      Did env k (.limitResult num processed) (.limitResult num (processed + us.length)) log us a

namespace Did

variable {k num processed : Nat} {log us : List QrTuple} {a : Multiset QrTuple} {u'' : UnaryOp}

theorem nothing (env : Env) (k : Nat) (u : UnaryOp) : Did env k u u [] [] 0 := by
  by_cases hu : u.Whole
  · exact .whole hu rfl
  · cases u with
    | limitResult num processed =>
        have hle : ((↑([] : List QrTuple) : Multiset QrTuple) + 0) ≤ ↑([] : List QrTuple) :=
          le_refl 0
        exact .limit hle (fun h => absurd h (lt_irrefl 0)) (.inl (by simp))
    | _ => exact absurd trivial hu

theorem call (h : Did env k u u' log us a) (hu : u'.Whole)
    (hcall : u'.process env env.fuel v = ⟨ws, .ok u''⟩) :
    Did env k u u'' (log ++ [v]) (us ++ ws) a := by
  cases h with
  | limit _ _ _ => exact hu.elim
  | whole hwhole hfeed =>
      refine .whole hwhole (feed_append_ok hfeed ?_)
      rw [feed_cons]
      exact Emit.bind_eq_ok.mpr ⟨ws, u'', [], hcall, rfl, (List.append_nil ws).symm⟩

/-- The counter of a limit is how many tuples it has handed on. -/
theorem test (h : Did env k u (.limitResult num processed) log us a)
    (hk : a.card + 1 ≤ k ∨ num ≤ processed) :
    Did env k u (.limitResult num processed) (log ++ [v]) us
      (if processed < num then v ::ₘ a else a) := by
  cases h with
  | whole hwhole hfeed => exact (feed_whole hwhole hfeed).elim
  | @limit _ processed _ _ _ hle hdrop hmost =>
      have hlog : (↑(log ++ [v]) : Multiset QrTuple) = v ::ₘ ↑log := by
        rw [← Multiset.coe_add, Multiset.coe_singleton, add_comm, Multiset.singleton_add]
      by_cases hlt : processed + us.length < num
      · rw [if_pos hlt]
        refine .limit ?_ (fun h => ?_) (.inr ?_)
        · rw [hlog, Multiset.add_cons]
          exact Multiset.cons_le_cons v hle
        · rw [Multiset.card_cons, List.length_append, List.length_singleton] at h
          exact hdrop (by omega)
        · rw [Multiset.card_cons]
          omega
      · rw [if_neg hlt]
        refine .limit ?_ (fun _ => by omega) hmost
        rw [hlog]
        exact hle.trans (Multiset.le_cons_self _ v)

theorem count (h : Did env k u (.limitResult num processed) log us (v ::ₘ a)) :
    Did env k u (.limitResult num (processed + 1)) log (us ++ [v]) a := by
  generalize hb : v ::ₘ a = b at h
  cases h with
  | whole hwhole hfeed => exact (feed_whole hwhole hfeed).elim
  | @limit _ processed _ _ _ hle hdrop hmost =>
      subst hb
      have hlength : (us ++ [v]).length = us.length + 1 := List.length_append
      rw [Multiset.card_cons] at hdrop hmost
      have hdid : Did env k (.limitResult num processed)
          (.limitResult num (processed + (us ++ [v]).length)) log (us ++ [v]) a := by
        refine .limit ?_ (fun h => ?_) ?_
        · rw [← Multiset.coe_add, Multiset.coe_singleton, add_assoc, Multiset.singleton_add]
          exact hle
        · have := hdrop (by omega)
          omega
        · omega
      rwa [hlength] at hdid

end Did

/-! ## What a run keeps -/

section

variable {i j : Nat} {M : Multiset Call}

theorem waits_process (log : Nat → List QrTuple) :
    ↑(Function.update log i (log i ++ [v]) j) + M.filterMap (Call.waits j) =
      ↑(log j) + (Call.process i v ::ₘ M).filterMap (Call.waits j) := by
  by_cases hj : j = i
  · subst hj
    have hsome : Call.waits j (.process j v) = some v := if_pos rfl
    rw [Function.update_self, Multiset.filterMap_cons_some _ _ _ hsome, ← Multiset.coe_add,
      Multiset.coe_singleton, add_assoc, Multiset.singleton_add]
  · have hnone : Call.waits j (.process i v) = none := if_neg (Ne.symm hj)
    rw [Function.update_of_ne hj, Multiset.filterMap_cons_none _ _ hnone]

theorem waits_map : (↑(ws.map (Call.process i)) : Multiset Call).filterMap (Call.waits j) =
    if i = j then ↑ws else 0 := by
  rw [Multiset.filterMap_coe, List.filterMap_map]
  by_cases hi : i = j
  · have hsome : Call.waits j ∘ Call.process i = some := funext fun v => if_pos hi
    rw [hsome, List.filterMap_some, if_pos hi]
  · have hnone : Call.waits j ∘ Call.process i = fun _ => none := funext fun v => if_neg hi
    rw [hnone, List.filterMap_none, if_neg hi, Multiset.coe_nil]

theorem handed_update (us : Nat → List QrTuple) :
    (↑(Function.update us i (us i ++ ws) j) : Multiset QrTuple) =
      ↑(us j) + if i + 1 = j + 1 then ↑ws else 0 := by
  by_cases hj : j = i
  · subst hj
    rw [Function.update_self, if_pos rfl, Multiset.coe_add]
  · rw [Function.update_of_ne hj, if_neg (by omega), add_zero]

theorem passes_map : (↑(ws.map (Call.process i)) : Multiset Call).filterMap
    (Call.passes j) = 0 := by
  rw [Multiset.filterMap_coe, List.filterMap_map]
  have hnone : Call.passes j ∘ Call.process i = fun _ => none := rfl
  rw [hnone, List.filterMap_none, Multiset.coe_nil]

/-- What is let through at a position is not more than all that is. -/
theorem card_passes (M : Multiset Call) (i : Nat) :
    (M.filterMap (Call.passes i)).card ≤ M.countP Call.IsPass := by
  induction M using Multiset.induction with
  | empty => exact le_refl 0
  | cons c M ih =>
      cases c with
      | process j v =>
          rw [Multiset.filterMap_cons_none _ _ rfl, Multiset.countP_cons_of_neg _ id]
          exact ih
      | pass j v =>
          have hpass : Call.IsPass (.pass j v) := trivial
          rw [Multiset.countP_cons_of_pos _ hpass]
          by_cases hj : j = i
          · have hsome : Call.passes i (.pass j v) = some v := if_pos hj
            rw [Multiset.filterMap_cons_some _ _ _ hsome, Multiset.card_cons]
            exact Nat.succ_le_succ ih
          · have hnone : Call.passes i (.pass j v) = none := if_neg hj
            rw [Multiset.filterMap_cons_none _ _ hnone]
            exact Nat.le_succ_of_le ih

/-- Operator `i` has been called for the tuples of `log i` and has handed on those
of `us i`; what it has not been called for yet is left. -/
structure Progress (env : Env) (k : Nat) (ops : List UnaryOp) (vs : List QrTuple)
    (log us : Nat → List QrTuple) (st : PipelineState) (M : Multiset Call) : Prop where
  length : st.ops.length = ops.length
  did : ∀ i u u', ops[i]? = some u → st.ops[i]? = some u' →
    Did env k u u' (log i) (us i) (M.filterMap (Call.passes i))
  first : ↑(log 0) + M.filterMap (Call.waits 0) = (↑vs : Multiset QrTuple)
  next : ∀ i < ops.length,
    ↑(log (i + 1)) + M.filterMap (Call.waits (i + 1)) = (↑(us i) : Multiset QrTuple)
  results : st.results = log ops.length
  position : ∀ c ∈ M, c.position ≤ ops.length

namespace Progress

variable {k : Nat} {ops : List UnaryOp} {log us : Nat → List QrTuple}

theorem initial (env : Env) (k : Nat) (ops : List UnaryOp) (tasks : List (List QrTuple)) :
    Progress env k ops tasks.flatten (fun _ => []) (fun _ => []) ⟨ops, []⟩
      ↑(tasks.map fun vs => vs.map (Call.process 0)).flatten where
  length := rfl
  did := by
    rintro i u u' hu hu'
    cases hu.symm.trans hu'
    rw [← List.map_flatten, passes_map]
    exact .nothing env k u
  first := by
    rw [← List.map_flatten, waits_map, if_pos rfl, Multiset.coe_nil, zero_add]
  next := fun i _ => by
    rw [← List.map_flatten, waits_map, if_neg (by omega), add_zero]
  results := rfl
  position := fun c hc => by
    rw [← List.map_flatten] at hc
    obtain ⟨v, -, rfl⟩ := List.mem_map.mp (Multiset.mem_coe.mp hc)
    exact Nat.zero_le _

/-- `process` of `collect_result`. -/
theorem collect (h : Progress env k ops vs log us st (.process i v ::ₘ M))
    (hop : st.ops[i]? = none) :
    Progress env k ops vs (Function.update log i (log i ++ [v])) us
      { st with results := st.results ++ [v] } M := by
  have hi : i = ops.length := by
    have hlt := List.getElem?_eq_none_iff.mp hop
    have hle : i ≤ ops.length := h.position _ (Multiset.mem_cons_self _ _)
    have := h.length
    omega
  refine ⟨h.length, fun j u u' hu hu' => ?_, ?_, fun j hj => ?_, ?_, fun c hc =>
    h.position c (Multiset.mem_cons_of_mem hc)⟩
  · have hj : j < ops.length := (List.getElem?_eq_some_iff.mp hu).1
    have hdid := h.did j u u' hu hu'
    rw [Function.update_of_ne (by omega)]
    rwa [Multiset.filterMap_cons_none _ _ rfl] at hdid
  · rw [waits_process]
    exact h.first
  · rw [waits_process]
    exact h.next j hj
  · show st.results ++ [v] = _
    rw [h.results, ← hi, Function.update_self]

/-- The test of a limit. -/
theorem test {num processed : Nat} (h : Progress env k ops vs log us st (.process i v ::ₘ M))
    (hop : st.ops[i]? = some (.limitResult num processed))
    (hk : (↑(if processed < num then [Call.pass i v] else []) + M).countP Call.IsPass ≤ k) :
    Progress env k ops vs (Function.update log i (log i ++ [v])) us st
      (↑(if processed < num then [Call.pass i v] else []) + M) := by
  have hwaits : ∀ j, (↑(if processed < num then [Call.pass i v] else []) + M).filterMap
      (Call.waits j) = M.filterMap (Call.waits j) := by
    intro j
    rw [Multiset.filterMap_add]
    split <;> exact zero_add _
  have hi : i < st.ops.length := (List.getElem?_eq_some_iff.mp hop).1
  refine ⟨h.length, fun j u u' hu hu' => ?_, ?_, fun j hj => ?_, ?_, fun c hc => ?_⟩
  · have hdid := h.did j u u' hu hu'
    rw [Multiset.filterMap_cons_none _ _ rfl] at hdid
    by_cases hj : j = i
    · subst hj
      cases hop.symm.trans hu'
      have hcard := (card_passes _ j).trans hk
      by_cases hlt : processed < num
      · rw [if_pos hlt] at hcard ⊢
        have hsome : Call.passes j (.pass j v) = some v := if_pos rfl
        rw [Multiset.coe_singleton, Multiset.singleton_add,
          Multiset.filterMap_cons_some _ _ _ hsome] at hcard ⊢
        rw [Multiset.card_cons] at hcard
        have htest := hdid.test (v := v) (.inl hcard)
        rw [if_pos hlt] at htest
        rwa [Function.update_self]
      · have htest := hdid.test (v := v) (.inr (Nat.le_of_not_lt hlt))
        rw [if_neg hlt] at htest ⊢
        rwa [Function.update_self, Multiset.coe_nil, zero_add]
    · rw [Function.update_of_ne hj, Multiset.filterMap_add]
      have hnone : (↑(if processed < num then [Call.pass i v] else []) : Multiset Call).filterMap
          (Call.passes j) = 0 := by
        have hother : Call.passes j (.pass i v) = none := if_neg (Ne.symm hj)
        split
        · rw [Multiset.coe_singleton, ← Multiset.cons_zero, Multiset.filterMap_cons_none _ _ hother,
            Multiset.filterMap_zero]
        · rfl
      rwa [hnone, zero_add]
  · rw [hwaits, waits_process]
    exact h.first
  · rw [hwaits, waits_process]
    exact h.next j hj
  · have hlength := h.length
    rw [Function.update_of_ne (by omega)]
    exact h.results
  · rcases Multiset.mem_add.mp hc with hc | hc
    · split at hc
      · rw [List.mem_singleton.mp hc]
        exact h.position (.process i v) (Multiset.mem_cons_self _ _)
      · cases hc
    · exact h.position c (Multiset.mem_cons_of_mem hc)

/-- What operator `i` hands on is left for the one after it. -/
theorem handed {M' : Multiset Call} {log' : Nat → List QrTuple} {u₁ : UnaryOp}
    (h : Progress env k ops vs log us st (c ::ₘ M)) (hi : i < st.ops.length)
    (hM : M' = ↑(ws.map (Call.process (i + 1))) + M)
    (hlog : ∀ j, ↑(log' j) + M.filterMap (Call.waits j) =
      (↑(log j) + (c ::ₘ M).filterMap (Call.waits j) : Multiset QrTuple))
    (hsink : log' ops.length = log ops.length)
    (hdid : ∀ j u u', ops[j]? = some u → (st.ops.set i u₁)[j]? = some u' →
      Did env k u u' (log' j) (Function.update us i (us i ++ ws) j)
        (M.filterMap (Call.passes j))) :
    Progress env k ops vs log' (Function.update us i (us i ++ ws))
      { st with ops := st.ops.set i u₁ } M' := by
  subst hM
  refine ⟨(List.length_set ..).trans h.length, fun j u u' hu hu' => ?_, ?_, fun j hj => ?_, ?_,
    fun c hc => ?_⟩
  · rw [Multiset.filterMap_add, passes_map, zero_add]
    exact hdid j u u' hu hu'
  · rw [Multiset.filterMap_add, waits_map, if_neg (by omega), zero_add, hlog]
    exact h.first
  · rw [Multiset.filterMap_add, waits_map, add_left_comm, hlog, h.next j hj,
      handed_update, add_comm]
  · rw [hsink]
    exact h.results
  · rcases Multiset.mem_add.mp hc with hc | hc
    · obtain ⟨w, -, rfl⟩ := List.mem_map.mp (Multiset.mem_coe.mp hc)
      have hlength := h.length
      show i + 1 ≤ ops.length
      omega
    · exact h.position c (Multiset.mem_cons_of_mem hc)

theorem whole (h : Progress env k ops vs log us st (.process i v ::ₘ M))
    (hop : st.ops[i]? = some u) (hu : u.Whole) (hcall : u.process env env.fuel v = ⟨ws, .ok u'⟩) :
    Progress env k ops vs (Function.update log i (log i ++ [v]))
      (Function.update us i (us i ++ ws)) { st with ops := st.ops.set i u' }
      (↑(ws.map (Call.process (i + 1))) + M) := by
  have hi : i < st.ops.length := (List.getElem?_eq_some_iff.mp hop).1
  have hlength := h.length
  refine h.handed hi rfl (fun j => waits_process log) (Function.update_of_ne (by omega) ..)
    fun j u₀ u₁ hu₀ hu₁ => ?_
  by_cases hj : j = i
  · subst hj
    rw [List.getElem?_set_self hi] at hu₁
    cases hu₁
    have hdid := h.did j u₀ u hu₀ hop
    rw [Multiset.filterMap_cons_none _ _ rfl] at hdid
    rw [Function.update_self, Function.update_self]
    exact hdid.call hu hcall
  · rw [List.getElem?_set_ne (Ne.symm hj)] at hu₁
    have hdid := h.did j u₀ u₁ hu₀ hu₁
    rw [Multiset.filterMap_cons_none _ _ rfl] at hdid
    rwa [Function.update_of_ne hj, Function.update_of_ne hj]

theorem count {num processed : Nat} (h : Progress env k ops vs log us st (.pass i v ::ₘ M))
    (hop : st.ops[i]? = some (.limitResult num processed)) :
    Progress env k ops vs log (Function.update us i (us i ++ [v]))
      { st with ops := st.ops.set i (.limitResult num (processed + 1)) }
      (↑[Call.process (i + 1) v] + M) := by
  have hi : i < st.ops.length := (List.getElem?_eq_some_iff.mp hop).1
  have hone : ↑[Call.process (i + 1) v] + M = ↑([v].map (Call.process (i + 1))) + M := rfl
  refine h.handed hi hone (fun j => ?_) rfl fun j u₀ u₁ hu₀ hu₁ => ?_
  · rw [Multiset.filterMap_cons_none _ _ rfl]
  · by_cases hj : j = i
    · subst hj
      rw [List.getElem?_set_self hi] at hu₁
      cases hu₁
      have hdid := h.did j u₀ _ hu₀ hop
      have hsome : Call.passes j (.pass j v) = some v := if_pos rfl
      rw [Multiset.filterMap_cons_some _ _ _ hsome] at hdid
      rw [Function.update_self]
      exact hdid.count
    · rw [List.getElem?_set_ne (Ne.symm hj)] at hu₁
      have hdid := h.did j u₀ u₁ hu₀ hu₁
      have hnone : Call.passes j (.pass i v) = none := if_neg (Ne.symm hj)
      rw [Multiset.filterMap_cons_none _ _ hnone] at hdid
      rwa [Function.update_of_ne hj]

theorem step (h : Progress env k ops vs log us st (c ::ₘ M)) (hdoes : c.Does env st st' cs)
    (hk : (↑cs + M).countP Call.IsPass ≤ k) :
    ∃ log' us', Progress env k ops vs log' us' st' (↑cs + M) := by
  cases hdoes with
  | collect hop => exact ⟨_, _, (zero_add M).symm ▸ h.collect hop⟩
  | test hop => exact ⟨_, _, h.test hop hk⟩
  | whole hop hu hcall => exact ⟨_, _, h.whole hop hu hcall⟩
  | count hop => exact ⟨_, _, h.count hop⟩

end Progress

/-- A worker lets a tuple through only as the first thing it has to do. -/
theorem Call.Does.tail (h : c.Does env st st' cs) : ∀ y ∈ cs.tail, ¬y.IsPass := by
  cases h with
  | collect _ =>
      intro y hy
      cases hy
  | test _ =>
      intro y hy
      split at hy <;> cases hy
  | whole _ _ _ =>
      intro y hy
      obtain ⟨v, -, rfl⟩ := List.mem_map.mp (List.mem_of_mem_tail hy)
      exact id
  | count _ =>
      intro y hy
      cases hy

theorem run_progress {k : Nat} {ops : List UnaryOp} {tasks : List (List QrTuple)}
    {p : Pool (Fin k) PipelineState Call}
    (h : ReflTransGen (Workers.Step (Call.run env)) (scanPool (Fin k) ops tasks) p) :
    ∃ log us, Progress env k ops tasks.flatten log us p.state p.items := by
  have hheads : (scanPool (Fin k) ops tasks).Heads Call.IsPass :=
    Pool.heads_new fun t ht x hx => by
      obtain ⟨vs, -, rfl⟩ := List.mem_map.mp ht
      obtain ⟨v, -, rfl⟩ := List.mem_map.mp hx
      exact id
  refine Workers.keeps (P := fun st M => ∃ log us, Progress env k ops tasks.flatten log us st M)
    (fun c st st' cs hrun => (Call.run_does hrun).tail) ?_ h hheads ?_
  · rintro c st st' cs M hrun hcount ⟨log, us, hprogress⟩
    rw [Fintype.card_fin] at hcount
    exact hprogress.step (Call.run_does hrun) hcount
  · rw [scanPool, Pool.items_new]
    exact ⟨_, _, .initial env k ops tasks⟩

end

end

/-! ## Pipelines -/

/-- What comes through the operators of a list if each of them is given what the
one before has handed on, in any order. A limit can hand on too many. -/
inductive Shuffled (env : Env) (k : Nat) :
    List (UnaryOp × Bool) → List QrTuple → List QrTuple → Prop
  | nil {vs ws : List QrTuple} : ws.Perm vs → Shuffled env k [] vs ws
  | whole {u u' u'' : UnaryOp} {own : Bool} {ops : List (UnaryOp × Bool)}
      {vs vs' us xs ws : List QrTuple} : u.Whole → vs'.Perm vs →
      feed (UnaryOp.process env env.fuel) u vs' = ⟨us, .ok u'⟩ →
      (if own then u'.finish env else pure u') = ⟨xs, .ok u''⟩ →
      Shuffled env k ops (us ++ xs) ws → Shuffled env k ((u, own) :: ops) vs ws
  | limit {num processed : Nat} {own : Bool} {ops : List (UnaryOp × Bool)}
      {vs us ws : List QrTuple} : us.Subperm vs →
      min vs.length (num - processed) ≤ us.length →
      us.length ≤ (if num ≤ processed then 0 else num - processed + (k - 1)) →
      Shuffled env k ops us ws → Shuffled env k ((.limitResult num processed, own) :: ops) vs ws

section

variable {env : Env} {k : Nat} {ops : List (UnaryOp × Bool)} {vs vs' ws xs : List QrTuple}

theorem Shuffled.perm (h : Shuffled env k ops vs ws) (hp : vs.Perm vs') :
    Shuffled env k ops vs' ws := by
  cases h with
  | nil hperm => exact .nil (hperm.trans hp)
  | whole hu hperm hfeed hfin hrest => exact .whole hu (hperm.trans hp) hfeed hfin hrest
  | limit hsub hleast hmost hrest =>
      exact .limit (hsub.trans hp.subperm) (hp.length_eq ▸ hleast) hmost hrest

theorem limit_finish (env : Env) (own : Bool) (num processed : Nat) :
    (if own then UnaryOp.finish env (.limitResult num processed)
      else pure (.limitResult num processed)).out = [] := by
  cases own <;> rfl

/-- What the workers have done, and the calls at the end. -/
theorem shuffled_of_did {ops' : List UnaryOp} {log us : Nat → List QrTuple}
    (hlength : ops'.length = ops.length)
    (hdid : ∀ i u u', (ops.map Prod.fst)[i]? = some u → ops'[i]? = some u' →
      Did env k u u' (log i) (us i) 0)
    (hnext : ∀ i < ops.length, (log (i + 1)).Perm (us i)) (hfirst : (log 0).Perm vs)
    (hfin : finishPipeline env (ops'.zip (ops.map Prod.snd)) xs = ⟨ws, .ok ()⟩) :
    Shuffled env k ops (vs ++ xs) (log ops.length ++ ws) := by
  induction ops generalizing ops' log us vs xs with
  | nil =>
      cases List.length_eq_zero_iff.mp hlength
      cases hfin
      exact .nil (hfirst.append_right _)
  | cons x ops ih =>
      obtain ⟨u, own⟩ := x
      cases ops' with
      | nil => cases hlength
      | cons u' ops' =>
          obtain ⟨_, u₁, _, h1, h2, rfl⟩ := Emit.bind_eq_ok.mp hfin
          obtain ⟨hended, rfl⟩ := Emit.ofExcept_eq_ok.mp h1
          obtain ⟨_, u₂, _, h3, hfin', rfl⟩ := Emit.bind_eq_ok.mp h2
          obtain ⟨hended', rfl⟩ := Emit.ofExcept_eq_ok.mp h3
          have hfeed' := Emit.eq_mk hended
          have hrest := @ih _ _ _ (fun i => log (i + 1)) (fun i => us (i + 1))
            (Nat.succ_injective hlength) (fun i => hdid (i + 1))
            (fun i hi => hnext (i + 1) (Nat.succ_lt_succ hi)) (hnext 0 (Nat.succ_pos _)) hfin'
          cases hdid 0 u u' rfl rfl with
          | whole hu hfeed =>
              refine .whole hu (hfirst.append_right xs) (feed_append_ok hfeed hfeed')
                (Emit.eq_mk hended') ?_
              rw [List.append_assoc]
              exact hrest
          | @limit num processed _ _ _ hle hdrop hmost =>
              rw [feed_limit] at hfeed'
              cases hfeed'
              simp only [feed_limit, limit_finish, List.append_nil] at hrest
              have hsub : (us 0).Subperm (log 0) := Multiset.coe_le.mp (by rwa [add_zero] at hle)
              have htake := List.take_sublist (num - (processed + (us 0).length)) xs
              have hperm := hfirst.length_eq
              have hshort := hsub.length_le
              have hnum : (xs.take (num - (processed + (us 0).length))).length =
                  min (num - (processed + (us 0).length)) xs.length := List.length_take
              rw [Multiset.card_zero, add_zero] at hdrop hmost
              refine .limit ((hsub.trans hfirst.subperm).append htake.subperm) ?_ ?_ hrest
              · rw [List.length_append, List.length_append]
                omega
              · rw [List.length_append]
                split <;> omega

/-! ## The tasks of a scan -/

theorem tasks_out {xs : List (Emits Unit)} {tasks : List (List QrTuple)}
    (h : (xs.mapM fun x => x.ended.map fun _ => x.out) = .ok tasks) :
    tasks = xs.map Emit.out ∧ ∀ x ∈ xs, x.ended = .ok () := by
  have hended : ∀ x ∈ xs, x.ended = .ok () := by
    intro x hx
    obtain ⟨_, hmap, -⟩ := mem_mapM h hx
    obtain ⟨_, hended, -⟩ := map_eq_ok hmap
    exact hended
  refine ⟨?_, hended⟩
  rw [mapM_ok (g := Emit.out) fun x hx => by rw [hended x hx]; rfl] at h
  cases h
  rfl

theorem emits_ended {ptr : Ref → QueryResult} {sc : Scan} :
    (sc.emits ptr).ended = .ok () ↔ sc.ended = none := by
  rw [Scan.emits]
  cases sc.ended with
  | none => exact ⟨fun _ => rfl, fun _ => rfl⟩
  | some e =>
      refine ⟨fun h => ?_, fun h => ?_⟩ <;> cases h

/-- The tasks of a scan hand on together what the scan does. -/
theorem parallelScan_emits {ptr : Ref → QueryResult} {task : Nat → Nat → Scan}
    {ranges : List (Nat × Nat)} {tasks : List (List QrTuple)}
    (h : ((ranges.map fun r => (task r.1 r.2).emits ptr).mapM fun x =>
      x.ended.map fun _ => x.out) = .ok tasks) :
    (parallelScan task ranges).emits ptr = ⟨tasks.flatten, .ok ()⟩ := by
  obtain ⟨rfl, hended⟩ := tasks_out h
  have hnone : (parallelScan task ranges).ended = none := by
    refine List.findSome?_eq_none_iff.mpr fun sc hsc => ?_
    obtain ⟨r, hr, rfl⟩ := List.mem_map.mp hsc
    exact emits_ended.mp (hended _ (List.mem_map_of_mem hr))
  have hout : ((parallelScan task ranges).emits ptr).out =
      ((ranges.map fun r => (task r.1 r.2).emits ptr).map Emit.out).flatten := by
    rw [List.map_map, ← List.flatMap_def]
    show ((ranges.map fun r => task r.1 r.2).flatMap Scan.delivered).map _ = _
    rw [List.map_flatMap, List.flatMap_map]
    rfl
  rw [← hout]
  exact Emit.eq_mk (emits_ended.mpr hnone)

theorem tasks_single {x : Emits Unit} {tasks : List (List QrTuple)}
    (h : ([x].mapM fun x => x.ended.map fun _ => x.out) = .ok tasks) :
    x = ⟨tasks.flatten, .ok ()⟩ := by
  obtain ⟨rfl, hended⟩ := tasks_out h
  refine (Emit.eq_mk (hended x (List.mem_singleton_self x))).trans ?_
  exact congrArg (Emit.mk · _) (List.append_nil x.out).symm

/-- The tuples of all tasks are those of the scan. -/
theorem tasks_scan {s : Source} {tasks : List (List QrTuple)} (h : s.tasks env = .ok tasks) :
    s.scan env = ⟨tasks.flatten, .ok ()⟩ := by
  obtain ⟨_, hcheck, h⟩ := bind_eq_ok h
  cases s with
  | nodeScan label labels =>
      rw [Source.scan, Emit.eq_mk hcheck, runDb_out, Emit.ok_bind, List.nil_append]
      rw [Source.scans] at h
      split at h
      · next hall => rw [Env.nodeScan, if_pos hall, parallelScan_emits h]
      · next hall =>
          split at h
          · next hlabel => rw [Env.nodeScan, if_neg hall, if_pos hlabel, parallelScan_emits h]
          · rw [tasks_single h]
  | relationshipScan label labels =>
      rw [Source.scan, Emit.eq_mk hcheck, runDb_out, Emit.ok_bind, List.nil_append]
      rw [Source.scans] at h
      split at h
      · next hall => rw [Env.relationshipScan, if_pos hall, parallelScan_emits h]
      · next hall =>
          split at h
          · next hlabel => rw [Env.relationshipScan, if_neg hall, if_pos hlabel,
              parallelScan_emits h]
          · rw [tasks_single h]
  | nodeById id => exact tasks_single h

/-- What a parallel run tells has come through the operators, apart from the
order. -/
theorem parallelRun_shuffled {s : Source} {es : List (Event QrTuple)}
    (h : ParallelRun env k s ops es) :
    ∃ vs ws, s.scan env = ⟨vs, .ok ()⟩ ∧ Shuffled env k ops vs ws ∧
      es = ws.map .tuple ++ [.finish] := by
  cases h with
  | @intro tasks p ws htasks hrun hdone hfin =>
      obtain ⟨log, us, hprogress⟩ := run_progress hrun
      rw [hdone.items] at hprogress
      refine ⟨_, _, tasks_scan htasks, ?_, rfl⟩
      have hnext : ∀ i < ops.length, (log (i + 1)).Perm (us i) := fun i hi =>
        Multiset.coe_eq_coe.mp (by simpa using hprogress.next i (by simpa using hi))
      have hfirst : (log 0).Perm tasks.flatten :=
        Multiset.coe_eq_coe.mp (by simpa using hprogress.first)
      have hlength := hprogress.length
      rw [List.length_map] at hlength
      have hshuffled := shuffled_of_did hlength hprogress.did hnext hfirst hfin
      have hresults := hprogress.results
      rw [List.length_map] at hresults
      rwa [List.append_nil, ← hresults] at hshuffled

end

end Poseidon
