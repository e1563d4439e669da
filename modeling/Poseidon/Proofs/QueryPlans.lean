import Mathlib.Data.List.GetD
import Mathlib.Data.List.Range
import Poseidon.Lib.Results
import Poseidon.Query.Planner

/-!
# The objects of a plan

The planner makes the objects of a plan one after the other and connects each
with the one that it makes for the operator above. What it has made for a query
has the form of a tree, `Query.tree`, with the producers numbered in the order
of `sources_`. So the plan runs as the tree does, and the priority of a pipeline
can be read off the tree: it is 1 if the pipeline begins below the stored input
of a join.
-/

namespace Poseidon

open Dataflow Results

/-- The operators of a plan, as a tree. -/
abbrev QopTree := Plan Source UnaryOp BinaryQop

/-! ## The tree of a query -/

/-- The number of producers. -/
def Query.producers : Query → Nat
  | .source _ | .pattern _ _ => 1
  | .op _ q => q.producers
  | .crossJoin q1 q2 | .hashJoin _ _ q1 q2 | .leftOuterJoin _ q1 q2 | .union q1 q2
  | .except _ _ q1 q2 => q1.producers + q2.producers

/-- Some operators above a tree. -/
def appendOps (t : QopTree) (ops : List (UnaryOp × Bool)) : QopTree :=
  ops.foldl (fun t x => .unary x.1 x.2 t) t

/-- The tree of a query; `k` is the number of its first producer. -/
def Query.tree (ctx : QueryCtx) (k : Nat) : Query → Except PlanErr QopTree
  | .source s => .ok (.source k s)
  | .pattern node path => do
      let ops ← patternOps ctx node path
      .ok (appendOps (.source k (.nodeScan node.label [])) (ops.map fun u => (u, false)))
  | .op c q => do
      let t ← q.tree ctx k
      let ops ← c.ops ctx
      .ok (appendOps t ops)
  | .crossJoin q1 q2 => do
      let t1 ← q1.tree ctx k
      let t2 ← q2.tree ctx (k + q1.producers)
      .ok (.binary (.crossJoin 0 []) t1 t2)
  | .hashJoin lhs rhs q1 q2 => do
      let t1 ← q1.tree ctx k
      let t2 ← q2.tree ctx (k + q1.producers)
      .ok (.binary (.hashJoin (HashJoin.new lhs rhs)) t1 t2)
  | .leftOuterJoin ex q1 q2 => do
      let t1 ← q1.tree ctx k
      let t2 ← q2.tree ctx (k + q1.producers)
      .ok (.binary (.leftOuterJoin (LeftOuterJoin.new (.expr ex))) t2 t1)
  | .union q1 q2 => do
      let t1 ← q1.tree ctx k
      let t2 ← q2.tree ctx (k + q1.producers)
      .ok (.binary (.unionAll 0) t1 t2)
  | .except lhs rhs q1 q2 => do
      let t1 ← q1.tree ctx k
      let t2 ← q2.tree ctx (k + q1.producers)
      .ok (.binary (.exceptOp 0 lhs rhs []) t2 t1)

/-- The priority of the pipeline of a producer. -/
def treePriority (k : Nat) : QopTree → Nat
  | .source _ _ => 0
  | .unary _ _ p => treePriority k p
  | .binary b p q =>
      if k ∈ p.labels then max (treePriority k p) (if b.joins then 1 else 0) else treePriority k q

/-! ## Runs of the planner -/

section

variable {α β : Type} {st st' : PlannerState} {ctx : QueryCtx}

theorem planner_bind {x : Planner α} {f : α → Planner β} {r : β × PlannerState}
    (h : (x >>= f) st = .ok r) : ∃ a st1, x st = .ok (a, st1) ∧ f a st1 = .ok r := by
  change (x st >>= fun p => f p.1 p.2) = .ok r at h
  cases hx : x st with
  | error e =>
      rw [hx] at h
      cases h
  | ok p =>
      rw [hx] at h
      exact ⟨p.1, p.2, rfl, h⟩

theorem planner_lift {x : Except PlanErr α} {a : α}
    (h : (liftM x : Planner α) st = .ok (a, st')) : x = .ok a ∧ st' = st := by
  cases x with
  | error e => cases h
  | ok b =>
      cases h
      exact ⟨rfl, rfl⟩

end

/-! ## What has been made -/

namespace PlannerState

/-- The way from an object to another one, and the greatest priority on it,
that of the last object apart. -/
inductive Climbs (g : PlannerState) (h : Nat) : Nat → Nat → Prop where
  | refl : g.Climbs h h 0
  | step {i m : Nat} {l : Connection} : g.Climbs h i m → g.links i = some l →
      g.Climbs h l.subscriber (max m (g.objs i).priority)

/-- `g` has the same objects from `lo` up to `i`, and the same operator at
`i`. -/
structure Agrees (g st : PlannerState) (lo i : Nat) : Prop where
  below : ∀ j, lo ≤ j → j < i → g.objs j = st.objs j
  root : (g.objs i).op = (st.objs i).op

/-- The objects of a tree have been made and connected. What is connected with
the root later does not matter. -/
structure Part (st : PlannerState) (lo : Nat) (l : Layout) (t : QopTree) : Prop where
  ids : ∀ j ∈ l.ids, lo ≤ j ∧ j ≤ l.root
  labels : ∀ k ∈ t.labels, k < st.sources.length
  form : ∀ (g : PlannerState) (heads : Nat → Nat), g.Agrees st lo l.root →
    (∀ k ∈ t.labels, heads k = st.sources.getD k 0) →
    Represents g.links heads t l ∧ l.Holds (fun j => (g.objs j).op) t
  climbs : ∀ g : PlannerState, g.Agrees st lo l.root → ∀ k ∈ t.labels,
    g.Climbs (st.sources.getD k 0) l.root (treePriority k t)

/-- The objects of a tree have been made after `st`. -/
structure Built (st st' : PlannerState) (l : Layout) (t : QopTree) : Prop
    extends st'.Part st.size l t where
  size : st'.size = l.root + 1
  old : ∀ j < st.size, st'.objs j = st.objs j
  unlinked : st'.links l.root = none
  prio : (st'.objs l.root).priority = 0
  upward : ∀ j lk, st.size ≤ j → j < st'.size → st'.links j = some lk →
    j < lk.subscriber ∧ lk.subscriber < st'.size
  beyond : (∀ j, st.size ≤ j → st.links j = none) → ∀ j, st'.size ≤ j → st'.links j = none
  sources : ∃ new, st'.sources = st.sources ++ new ∧
    t.labels.Perm (List.range' st.sources.length new.length)

/-- The objects of two trees have been made after `st`, from `lo` and `lo'`
on; they are to be the inputs of one operator. -/
structure Inputs (st st' : PlannerState) (lo lo' : Nat) (l l' : Layout) (p q : QopTree) :
    Prop where
  right : st'.Part lo l p
  left : st'.Part lo' l' q
  after : st.size ≤ lo ∧ st.size ≤ lo'
  apart : l.root < lo' ∨ l'.root < lo
  within : l.root < st'.size ∧ l'.root < st'.size
  old : ∀ j < st.size, st'.objs j = st.objs j
  prio : (st'.objs l.root).priority = 0 ∧ (st'.objs l'.root).priority = 0
  upward : ∀ j lk, st.size ≤ j → j < st'.size → st'.links j = some lk →
    j < lk.subscriber ∧ lk.subscriber < st'.size
  beyond : (∀ j, st.size ≤ j → st.links j = none) → ∀ j, st'.size ≤ j → st'.links j = none
  sources : ∃ new, st'.sources = st.sources ++ new ∧
    (p.labels ++ q.labels).Perm (List.range' st.sources.length new.length)

end PlannerState

open PlannerState

section

variable {st st1 st2 st' g : PlannerState} {lo i : Nat} {l : Layout} {t : QopTree}

theorem PlannerState.Part.lo_le (h : st.Part lo l t) : lo ≤ l.root :=
  (h.ids l.root l.root_mem).1

/-- Later objects and connections of the root do not matter. -/
theorem PlannerState.Part.later (h : st.Part lo l t) (hobjs : st'.Agrees st lo l.root)
    (hsources : ∃ new, st'.sources = st.sources ++ new) : st'.Part lo l t := by
  obtain ⟨new, hnew⟩ := hsources
  have hget : ∀ k ∈ t.labels, st'.sources.getD k 0 = st.sources.getD k 0 := fun k hk => by
    rw [hnew, List.getD_append _ _ _ _ (h.labels k hk)]
  have htrans : ∀ g : PlannerState, g.Agrees st' lo l.root → g.Agrees st lo l.root :=
    fun g hg => ⟨fun j h1 h2 => (hg.below j h1 h2).trans (hobjs.below j h1 h2),
      hg.root.trans hobjs.root⟩
  refine ⟨h.ids, fun k hk => ?_, fun g heads hg hheads => ?_, fun g hg k hk => ?_⟩
  · rw [hnew, List.length_append]
    exact Nat.lt_of_lt_of_le (h.labels k hk) (Nat.le_add_right ..)
  · exact h.form g heads (htrans g hg) fun k hk => (hheads k hk).trans (hget k hk)
  · rw [hget k hk]
    exact h.climbs g (htrans g hg) k hk

theorem makeSource_built {s : Source} (h : makeSource s st = .ok (i, st')) :
    Built st st' (.source i) (.source st.sources.length s) := by
  cases h
  refine ⟨⟨?_, ?_, ?_, ?_⟩, rfl, ?_, ?_, ?_, ?_, ?_, ?_⟩
  · intro j hj
    rw [List.mem_singleton.mp hj]
    exact ⟨Nat.le_refl _, Nat.le_refl _⟩
  · intro k hk
    rw [List.mem_singleton.mp hk, List.length_append]
    exact Nat.lt_succ_self _
  · intro g heads hg hheads
    have hhead := hheads _ (List.mem_singleton_self _)
    rw [List.getD_append_right _ _ _ _ (Nat.le_refl _), Nat.sub_self] at hhead
    refine ⟨.source hhead, ?_⟩
    have hroot := hg.root
    simp only [Layout.root, PlannerState.make, Function.update_self] at hroot
    exact hroot
  · intro g hg k hk
    rw [List.mem_singleton.mp hk, List.getD_append_right _ _ _ _ (Nat.le_refl _), Nat.sub_self]
    exact .refl
  · intro j hj
    exact Function.update_of_ne (Nat.ne_of_lt hj) _ _
  · simp only [PlannerState.links, PlannerState.make, Layout.root, Function.update_self]
  · simp only [PlannerState.make, Layout.root, Function.update_self]
  · intro j lk h1 h2 hlk
    obtain rfl : j = st.size := by
      have : j < st.size + 1 := h2
      omega
    simp [PlannerState.links, PlannerState.make] at hlk
  · intro hold j hj
    have hj : st.size + 1 ≤ j := hj
    have hne : j ≠ st.size := by omega
    simp only [PlannerState.links, PlannerState.make, Function.update_of_ne hne]
    exact hold j (by omega)
  · exact ⟨[st.size], rfl, .refl _⟩

theorem qopAppend_objs {parent : Nat} {x : UnaryOp × Bool} (hlt : parent < st.size)
    (h : qopAppend parent x st = .ok (i, st')) :
    i = st.size ∧ st'.size = st.size + 1 ∧ st'.sources = st.sources ∧
      st'.objs st.size = ⟨.unary x.1, none, 0⟩ ∧
      st'.objs parent = { st.objs parent with link := some ⟨st.size, .process, x.2⟩ } ∧
      ∀ j, j ≠ st.size → j ≠ parent → st'.objs j = st.objs j := by
  cases h
  have hne : parent ≠ st.size := Nat.ne_of_lt hlt
  refine ⟨rfl, rfl, rfl, ?_, ?_, fun j h1 h2 => ?_⟩
  · simp only [PlannerState.connect, PlannerState.make, Function.update_of_ne hne.symm,
      Function.update_self]
  · simp only [PlannerState.connect, PlannerState.make, Function.update_self,
      Function.update_of_ne hne]
  · simp only [PlannerState.connect, PlannerState.make, Function.update_of_ne h1,
      Function.update_of_ne h2]

theorem qopAppend_built {x : UnaryOp × Bool} (h : Built st st1 l t)
    (happ : qopAppend l.root x st1 = .ok (i, st2)) :
    Built st st2 (.unary i l) (.unary x.1 x.2 t) := by
  have hlt : l.root < st1.size := by
    rw [h.size]
    exact Nat.lt_succ_self _
  have hle := h.lo_le
  obtain ⟨rfl, hsize, hsources, htop, hroot, hother⟩ := qopAppend_objs hlt happ
  have hagree : ∀ g : PlannerState, g.Agrees st2 st.size st1.size →
      g.Agrees st1 st.size l.root ∧ g.objs l.root = st2.objs l.root := fun g hg => by
    have hg1 := hg.below l.root hle hlt
    refine ⟨⟨fun j h1 h2 => ?_, by rw [hg1, hroot]⟩, hg1⟩
    rw [hg.below j h1 (by omega), hother j (by omega) (by omega)]
  refine ⟨⟨?_, ?_, ?_, ?_⟩, hsize, ?_, ?_, ?_, ?_, ?_, ?_⟩
  · intro j hj
    show st.size ≤ j ∧ j ≤ st1.size
    rcases List.mem_cons.mp hj with rfl | hj
    · exact ⟨by omega, Nat.le_refl _⟩
    · have := h.ids j hj
      omega
  · intro k hk
    rw [hsources]
    exact h.labels k hk
  · intro g heads hg hheads
    obtain ⟨hg1, hg2⟩ := hagree g hg
    rw [hsources] at hheads
    obtain ⟨hrep, hholds⟩ := h.form g heads hg1 hheads
    refine ⟨.unary hrep ?_, ?_, hholds⟩
    · rw [PlannerState.links, hg2, hroot]
    · have hop : (g.objs st1.size).op = (st2.objs st1.size).op := hg.root
      rw [htop] at hop
      exact hop
  · intro g hg k hk
    obtain ⟨hg1, hg2⟩ := hagree g hg
    rw [hsources]
    have hstep := (h.climbs g hg1 k hk).step (l := ⟨st1.size, .process, x.2⟩)
      (by rw [PlannerState.links, hg2, hroot])
    rw [hg2, hroot] at hstep
    simp only [h.prio, Nat.max_zero] at hstep
    exact hstep
  · intro j hj
    rw [hother j (by omega) (by omega), h.old j hj]
  · exact congrArg QopObj.link htop
  · exact congrArg QopObj.priority htop
  · intro j lk h1 h2 hlk
    rw [hsize] at h2 ⊢
    by_cases hj : j = st1.size
    · rw [hj, PlannerState.links, htop] at hlk
      cases hlk
    · by_cases hjr : j = l.root
      · rw [hjr, PlannerState.links, hroot] at hlk
        cases hlk
        rw [hjr]
        exact ⟨hlt, Nat.lt_succ_self _⟩
      · rw [PlannerState.links, hother j hj hjr] at hlk
        have := h.upward j lk h1 (by omega) hlk
        omega
  · intro hst j hj
    rw [hsize] at hj
    rw [PlannerState.links, hother j (by omega) (by omega)]
    exact h.beyond hst j (by omega)
  · rw [hsources]
    exact h.sources

theorem appendAll_built {ops : List (UnaryOp × Bool)} (h : Built st st1 l t)
    (happ : appendAll ops l.root st1 = .ok (i, st2)) :
    ∃ l', l'.root = i ∧ Built st st2 l' (appendOps t ops) := by
  induction ops generalizing st1 l t with
  | nil =>
      cases happ
      exact ⟨l, rfl, h⟩
  | cons x ops ih =>
      rw [appendAll, List.foldlM_cons] at happ
      obtain ⟨j, st3, h1, h2⟩ := planner_bind happ
      exact ih (qopAppend_built h h1) h2

theorem PlannerState.Built.resort (h : Built st st1 l t) (spec : List SortSpec) :
    Built st { st1 with sortSpec := spec } l t :=
  ⟨⟨h.ids, h.labels, fun g heads hg hheads => h.form g heads ⟨hg.below, hg.root⟩ hheads,
    fun g hg => h.climbs g ⟨hg.below, hg.root⟩⟩,
    h.size, h.old, h.unlinked, h.prio, h.upward, h.beyond, h.sources⟩

theorem visitClause_built {ctx : QueryCtx} {c : Clause} (h : Built st st1 l t)
    (hc : visitClause ctx c l.root st1 = .ok (i, st2)) :
    ∃ ops l', c.ops ctx = .ok ops ∧ l'.root = i ∧ Built st st2 l' (appendOps t ops) := by
  obtain ⟨ops, _, h1, h2⟩ := planner_bind hc
  obtain ⟨hops, rfl⟩ := planner_lift h1
  obtain ⟨_, _, h3, h4⟩ := planner_bind h2
  cases h3
  obtain ⟨l', hl', hbuilt⟩ := appendAll_built (h.resort _) h4
  exact ⟨ops, l', hops, hl', hbuilt⟩

/-! ## Operators with two inputs -/

section

variable {lo' : Nat} {l' : Layout} {p q : QopTree}

theorem PlannerState.Inputs.swap (h : Inputs st st' lo lo' l l' p q) :
    Inputs st st' lo' lo l' l q p := by
  obtain ⟨new, hnew, hperm⟩ := h.sources
  exact ⟨h.left, h.right, h.after.symm, h.apart.symm, h.within.symm, h.old, h.prio.symm,
    h.upward, h.beyond, new, hnew, List.perm_append_comm.trans hperm⟩

/-- What has been made second does not touch what has been made first. -/
theorem PlannerState.Built.inputs (h : Built st st1 l p) (h' : Built st1 st2 l' q) :
    Inputs st st2 st.size st1.size l l' p q := by
  have hlt : l.root < st1.size := by
    rw [h.size]
    exact Nat.lt_succ_self _
  have hlt' : l'.root < st2.size := by
    rw [h'.size]
    exact Nat.lt_succ_self _
  have hle := h.lo_le
  have hle' := h'.lo_le
  obtain ⟨new, hnew, hperm⟩ := h.sources
  obtain ⟨new', hnew', hperm'⟩ := h'.sources
  refine ⟨h.toPart.later ⟨fun j _ hj => h'.old j (by omega), ?_⟩ ⟨new', hnew'⟩, h'.toPart,
    ⟨Nat.le_refl _, by omega⟩, .inl hlt, ⟨by omega, hlt'⟩, ?_, ⟨?_, h'.prio⟩, ?_, ?_, ?_⟩
  · rw [h'.old _ hlt]
  · intro j hj
    rw [h'.old j (by omega), h.old j hj]
  · rw [h'.old _ hlt, h.prio]
  · intro j lk h1 h2 hlk
    by_cases hj : j < st1.size
    · rw [PlannerState.links, h'.old j hj] at hlk
      have := h.upward j lk h1 hj hlk
      omega
    · exact h'.upward j lk (by omega) h2 hlk
  · exact fun hold => h'.beyond (h.beyond hold)
  · refine ⟨new ++ new', by rw [hnew', hnew, List.append_assoc], ?_⟩
    rw [List.length_append, ← List.range'_append_1]
    rw [hnew, List.length_append] at hperm'
    exact hperm.append hperm'

theorem join_objs {b : BinaryQop} {right left : Nat} (hr : right < st.size) (hl : left < st.size)
    (hne : right ≠ left) (hprio : (st.objs right).priority = 0 ∧ (st.objs left).priority = 0)
    (h : join b right left st = .ok (i, st')) :
    i = st.size ∧ st'.size = st.size + 1 ∧ st'.sources = st.sources ∧
      st'.objs st.size = ⟨.binary b, none, 0⟩ ∧
      st'.objs right = ⟨(st.objs right).op, some ⟨st.size, .right, true⟩,
        if b.joins then 1 else 0⟩ ∧
      st'.objs left = ⟨(st.objs left).op, some ⟨st.size, .left, true⟩, 0⟩ ∧
      ∀ j, j ≠ st.size → j ≠ right → j ≠ left → st'.objs j = st.objs j := by
  have hr' : right ≠ st.size := Nat.ne_of_lt hr
  have hl' : left ≠ st.size := Nat.ne_of_lt hl
  cases h
  cases b.joins with
  | true =>
      refine ⟨rfl, rfl, rfl, ?_, ?_, ?_, fun j h1 h2 h3 => ?_⟩ <;>
        simp [PlannerState.setPriority, PlannerState.connect, PlannerState.make, *, Ne.symm]
  | false =>
      refine ⟨rfl, rfl, rfl, ?_, ?_, ?_, fun j h1 h2 h3 => ?_⟩ <;>
        simp [PlannerState.connect, PlannerState.make, *, Ne.symm]

theorem join_built {b : BinaryQop} (h : Inputs st st1 lo lo' l l' p q)
    (hj : join b l.root l'.root st1 = .ok (i, st2)) :
    Built st st2 (.binary i l l') (.binary b p q) := by
  obtain ⟨hlt, hlt'⟩ := h.within
  obtain ⟨hlo, hlo'⟩ := h.after
  have hle := h.right.lo_le
  have hle' := h.left.lo_le
  have hne : l.root ≠ l'.root := by
    rcases h.apart with ha | ha <;> omega
  obtain ⟨rfl, hsize, hsources, htop, hr, hl, hother⟩ := join_objs hlt hlt' hne h.prio hj
  obtain ⟨new, hnew, hperm⟩ := h.sources
  have hagree : ∀ g : PlannerState, g.Agrees st2 st.size st1.size →
      g.Agrees st1 lo l.root ∧ g.Agrees st1 lo' l'.root ∧ g.objs l.root = st2.objs l.root ∧
        g.objs l'.root = st2.objs l'.root := fun g hg => by
    have hg1 := hg.below l.root (by omega) hlt
    have hg2 := hg.below l'.root (by omega) hlt'
    refine ⟨⟨fun j h1 h2 => ?_, by rw [hg1, hr]⟩, ⟨fun j h1 h2 => ?_, by rw [hg2, hl]⟩, hg1, hg2⟩
    · rw [hg.below j (by omega) (by omega)]
      exact hother j (by omega) (by omega) (by rcases h.apart with ha | ha <;> omega)
    · rw [hg.below j (by omega) (by omega)]
      exact hother j (by omega) (by rcases h.apart with ha | ha <;> omega) (by omega)
  refine ⟨⟨?_, ?_, ?_, ?_⟩, hsize, ?_, ?_, ?_, ?_, ?_, ?_⟩
  · intro j hj
    show st.size ≤ j ∧ j ≤ st1.size
    rcases List.mem_cons.mp hj with rfl | hj
    · exact ⟨by omega, Nat.le_refl _⟩
    · rcases List.mem_append.mp hj with hj | hj
      · have := h.right.ids j hj
        omega
      · have := h.left.ids j hj
        omega
  · intro k hk
    rw [hsources]
    rcases List.mem_append.mp hk with hk | hk
    · exact h.right.labels k hk
    · exact h.left.labels k hk
  · intro g heads hg hheads
    obtain ⟨hgr, hgl, hr', hl'⟩ := hagree g hg
    rw [hsources] at hheads
    obtain ⟨hrep, hholds⟩ := h.right.form g heads hgr fun k hk =>
      hheads k (List.mem_append_left _ hk)
    obtain ⟨hrep', hholds'⟩ := h.left.form g heads hgl fun k hk =>
      hheads k (List.mem_append_right _ hk)
    refine ⟨.binary hrep hrep' ?_ ?_ ?_, ?_, hholds, hholds'⟩
    · rw [PlannerState.links, hr', hr]
    · rw [PlannerState.links, hl', hl]
    · intro j h1 h2
      have := h.right.ids j h1
      have := h.left.ids j h2
      rcases h.apart with ha | ha <;> omega
    · have hop : (g.objs st1.size).op = (st2.objs st1.size).op := hg.root
      rw [htop] at hop
      exact hop
  · intro g hg k hk
    obtain ⟨hgr, hgl, hr', hl'⟩ := hagree g hg
    rw [hsources, treePriority]
    by_cases hkp : k ∈ p.labels
    · rw [if_pos hkp]
      have hstep := (h.right.climbs g hgr k hkp).step (l := ⟨st1.size, .right, true⟩)
        (by rw [PlannerState.links, hr', hr])
      rw [hr', hr] at hstep
      exact hstep
    · rw [if_neg hkp]
      have hkq := (List.mem_append.mp hk).resolve_left hkp
      have hstep := (h.left.climbs g hgl k hkq).step (l := ⟨st1.size, .left, true⟩)
        (by rw [PlannerState.links, hl', hl])
      rw [hl', hl] at hstep
      simp only [Nat.max_zero] at hstep
      exact hstep
  · intro j hj
    rw [hother j (by omega) (by omega) (by omega), h.old j hj]
  · exact congrArg QopObj.link htop
  · exact congrArg QopObj.priority htop
  · intro j lk h1 h2 hlk
    rw [hsize] at h2 ⊢
    rw [PlannerState.links] at hlk
    by_cases hjt : j = st1.size
    · rw [hjt, htop] at hlk
      cases hlk
    by_cases hjr : j = l.root
    · rw [hjr, hr] at hlk
      cases hlk
      rw [hjr]
      exact ⟨hlt, Nat.lt_succ_self _⟩
    by_cases hjl : j = l'.root
    · rw [hjl, hl] at hlk
      cases hlk
      rw [hjl]
      exact ⟨hlt', Nat.lt_succ_self _⟩
    rw [hother j hjt hjr hjl] at hlk
    have := h.upward j lk h1 (by omega) hlk
    omega
  · intro hst j hj
    rw [hsize] at hj
    rw [PlannerState.links, hother j (by omega) (by omega) (by omega)]
    exact h.beyond hst j (by omega)
  · rw [hsources]
    exact ⟨new, hnew, hperm⟩

end

/-! ## Visits -/

section

variable {ctx : QueryCtx} {q q1 q2 : Query} {k : Nat}

theorem appendOps_labels (t : QopTree) (ops : List (UnaryOp × Bool)) :
    (appendOps t ops).labels = t.labels := by
  induction ops generalizing t with
  | nil => rfl
  | cons x ops ih => exact ih (.unary x.1 x.2 t)

theorem tree_producers (h : q.tree ctx k = .ok t) : t.labels.length = q.producers := by
  induction q generalizing k t with
  | source s =>
      cases h
      rfl
  | pattern node path =>
      obtain ⟨ops, _, h2⟩ := bind_eq_ok h
      cases h2
      rw [appendOps_labels]
      rfl
  | op c q ih =>
      obtain ⟨t1, h1, h2⟩ := bind_eq_ok h
      obtain ⟨ops, _, h3⟩ := bind_eq_ok h2
      cases h3
      rw [appendOps_labels]
      exact ih h1
  | crossJoin q1 q2 ih1 ih2 | hashJoin lhs rhs q1 q2 ih1 ih2 | union q1 q2 ih1 ih2 =>
      obtain ⟨t1, h1, h2⟩ := bind_eq_ok h
      obtain ⟨t2, h3, h4⟩ := bind_eq_ok h2
      cases h4
      rw [Plan.labels, List.length_append, ih1 h1, ih2 h3]
      rfl
  | leftOuterJoin ex q1 q2 ih1 ih2 | except lhs rhs q1 q2 ih1 ih2 =>
      obtain ⟨t1, h1, h2⟩ := bind_eq_ok h
      obtain ⟨t2, h3, h4⟩ := bind_eq_ok h2
      cases h4
      rw [Plan.labels, List.length_append, ih1 h1, ih2 h3, Nat.add_comm]
      rfl

/-- A visit makes the objects of a tree. -/
def Query.Visits (ctx : QueryCtx) (q : Query) : Prop :=
  ∀ {st : PlannerState} {i : Nat} {st' : PlannerState}, q.visit ctx st = .ok (i, st') →
    ∃ t l, q.tree ctx st.sources.length = .ok t ∧ l.root = i ∧ Built st st' l t

theorem PlannerState.Built.next (h : Built st st1 l t) (ht : q.tree ctx k = .ok t) :
    st1.sources.length = st.sources.length + q.producers := by
  obtain ⟨new, hnew, hperm⟩ := h.sources
  have hlen := hperm.length_eq
  rw [List.length_range', tree_producers ht] at hlen
  rw [hnew, List.length_append, hlen]

/-- The visits of two operands, one after the other. -/
theorem visits_two {f : Nat → Nat → Planner Nat} (ih1 : q1.Visits ctx) (ih2 : q2.Visits ctx)
    (h : (q1.visit ctx >>= fun i => q2.visit ctx >>= fun j => f i j) st = .ok (i, st')) :
    ∃ st2 lo lo' l l' t1 t2, q1.tree ctx st.sources.length = .ok t1 ∧
      q2.tree ctx (st.sources.length + q1.producers) = .ok t2 ∧
      Inputs st st2 lo lo' l l' t1 t2 ∧ f l.root l'.root st2 = .ok (i, st') := by
  obtain ⟨_, st1, h1, h2⟩ := planner_bind h
  obtain ⟨_, st2, h3, h4⟩ := planner_bind h2
  obtain ⟨t1, l, ht1, rfl, hb1⟩ := ih1 h1
  obtain ⟨t2, l', ht2, rfl, hb2⟩ := ih2 h3
  rw [hb1.next ht1] at ht2
  exact ⟨st2, _, _, l, l', t1, t2, ht1, ht2, hb1.inputs hb2, h4⟩

/-- The objects that the visit of a query makes are those of its tree. -/
theorem visit_built (q : Query) : q.Visits ctx := by
  induction q with
  | source s =>
      intro st i st' h
      exact ⟨_, _, rfl, by cases h; rfl, makeSource_built h⟩
  | pattern node path =>
      intro st i st' h
      obtain ⟨j, st1, h1, h2⟩ := planner_bind h
      obtain ⟨ops, st2, h3, h4⟩ := planner_bind h2
      obtain ⟨hops, rfl⟩ := planner_lift h3
      obtain ⟨l, hl, hbuilt⟩ := appendAll_built (makeSource_built h1) h4
      refine ⟨_, l, ?_, hl, hbuilt⟩
      rw [Query.tree, hops]
      rfl
  | op c q ih =>
      intro st i st' h
      obtain ⟨j, st1, h1, h2⟩ := planner_bind h
      obtain ⟨t, l, ht, rfl, hb⟩ := ih h1
      obtain ⟨ops, l', hops, hl', hbuilt⟩ := visitClause_built hb h2
      refine ⟨_, l', ?_, hl', hbuilt⟩
      rw [Query.tree, ht]
      show (c.ops ctx >>= fun ops => .ok (appendOps t ops)) = _
      rw [hops]
      rfl
  | crossJoin q1 q2 ih1 ih2 | hashJoin lhs rhs q1 q2 ih1 ih2 | union q1 q2 ih1 ih2 =>
      intro st i st' h
      obtain ⟨st2, _, _, l, l', t1, t2, ht1, ht2, hin, hjoin⟩ := visits_two ih1 ih2 h
      have hbuilt := join_built hin hjoin
      refine ⟨_, _, ?_, rfl, hbuilt⟩
      rw [Query.tree, ht1]
      show (q2.tree ctx _ >>= _) = _
      rw [ht2]
      rfl
  | leftOuterJoin ex q1 q2 ih1 ih2 | except lhs rhs q1 q2 ih1 ih2 =>
      intro st i st' h
      obtain ⟨st2, _, _, l, l', t1, t2, ht1, ht2, hin, hjoin⟩ := visits_two ih1 ih2 h
      have hbuilt := join_built hin.swap hjoin
      refine ⟨_, _, ?_, rfl, hbuilt⟩
      rw [Query.tree, ht1]
      show (q2.tree ctx _ >>= _) = _
      rw [ht2]
      rfl

end

/-! ## Pipelines -/

/-- The loop follows the way from an object. -/
theorem pipelineLoop_climbs {h m : Nat}
    (hup : ∀ j lk, st.links j = some lk → j < lk.subscriber) (hc : st.Climbs h i m) :
    ∃ n, h + n ≤ i ∧ ∀ fuel, st.pipelineLoop (fuel + n) 0 h = st.pipelineLoop fuel m i := by
  induction hc with
  | refl => exact ⟨0, Nat.le_refl _, fun _ => rfl⟩
  | @step i m lk _ hlk ih =>
      obtain ⟨n, hn, hloop⟩ := ih
      have := hup i lk hlk
      refine ⟨n + 1, by omega, fun fuel => ?_⟩
      rw [← Nat.add_assoc, Nat.add_right_comm, hloop, PlannerState.pipelineLoop, hlk]

theorem pipeline_climbs {h m : Nat}
    (hup : ∀ j lk, st.links j = some lk → j < lk.subscriber) (hc : st.Climbs h i m)
    (hi : i < st.size) (hnone : st.links i = none) : st.pipeline h = ⟨h, i, m⟩ := by
  obtain ⟨n, hn, hloop⟩ := pipelineLoop_climbs hup hc
  have hstop : ∀ fuel, st.pipelineLoop fuel m i = (m, i) := fun fuel => by
    cases fuel with
    | zero => rfl
    | succ fuel => rw [PlannerState.pipelineLoop, hnone]
  have hsize : st.size = st.size - n + n := by omega
  rw [PlannerState.pipeline, hsize, hloop, hstop]

section

variable {ctx : QueryCtx} {q : Query} {b : QueryBatch}

theorem getQueryPlan_built (h : Built .initial st l t) :
    st.getQueryPlan.pipelines = (List.range t.labels.length).map fun k =>
      ⟨st.sources.getD k 0, l.root, treePriority k t⟩ := by
  obtain ⟨new, hnew, hperm⟩ := h.sources
  have hlen : t.labels.length = st.sources.length := by
    rw [hperm.length_eq, List.length_range', hnew]
    rfl
  have hup : ∀ j lk, st.links j = some lk → j < lk.subscriber := fun j lk hlk => by
    by_cases hj : j < st.size
    · exact (h.upward j lk (Nat.zero_le _) hj hlk).1
    · rw [h.beyond (fun _ _ => rfl) j (Nat.le_of_not_lt hj)] at hlk
      cases hlk
  refine List.ext_getElem ?_ fun k h1 h2 => ?_
  · simp [PlannerState.getQueryPlan, hlen]
  · have hk : k < st.sources.length := by
      simpa [PlannerState.getQueryPlan] using h1
    have hmem : k ∈ t.labels := by
      rw [hperm.mem_iff, List.mem_range'_1]
      rw [hnew, List.length_append] at hk
      exact ⟨Nat.zero_le _, hk⟩
    have hpipe := pipeline_climbs hup (h.climbs st ⟨fun _ _ _ => rfl, rfl⟩ k hmem)
      (by rw [h.size]; exact Nat.lt_succ_self _) h.unlinked
    simp only [PlannerState.getQueryPlan, List.getElem_map, List.getElem_range]
    rw [← hpipe, List.getD_eq_getElem _ _ hk]

/-- What is made of a query is run as its tree. -/
structure QueryBatch.RunsAs (b : QueryBatch) (t : QopTree) : Prop where
  labels : t.labels.Perm (List.range b.pipelines.length)
  priority : ∀ k < b.pipelines.length,
    (b.pipelines.map QueryPipeline.priority).getD k 0 = treePriority k t
  start : ∀ (env : Env) (seq : List Nat), (∀ k ∈ seq, k < b.pipelines.length) →
    b.start env seq = ⟨(t.play env.ops seq).out, (t.play env.ops seq).ended.map fun _ => ()⟩

theorem bind_unit {ε τ α : Type} (x : Emit ε τ α) :
    (x >>= fun _ => pure ()) = (⟨x.out, x.ended.map fun _ => ()⟩ : Emit ε τ Unit) := by
  obtain ⟨vs, r⟩ := x
  cases r with
  | error e => rfl
  | ok a => rw [Emit.ok_bind]; exact congrArg₂ Emit.mk (List.append_nil vs) rfl

theorem appendCollect_built (h : Built .initial st l t) :
    ∃ b, st.getQueryPlan.appendCollect = some b ∧ b.RunsAs t := by
  obtain ⟨new, hnew, hperm⟩ := h.sources
  have hlen : t.labels.length = st.sources.length := by
    rw [hperm.length_eq, List.length_range', hnew]
    rfl
  have hlt : l.root < st.size := by
    rw [h.size]
    exact Nat.lt_succ_self _
  have hpipes := getQueryPlan_built h
  have hperm' : t.labels.Perm (List.range t.labels.length) := by
    rw [hperm.length_eq, List.length_range', List.range_eq_range']
    exact hperm
  -- the objects with `collect_result`
  let g := (st.make .sink).connect l.root ⟨st.size, .process, true⟩
  have hobj : ∀ j, j ≠ st.size → j ≠ l.root → g.objs j = st.objs j := fun j h1 h2 => by
    simp only [g, PlannerState.connect, PlannerState.make, Function.update_of_ne h1,
      Function.update_of_ne h2]
  have hrootobj : g.objs l.root =
    { st.objs l.root with link := some ⟨st.size, .process, true⟩ } := by
    simp only [g, PlannerState.connect, PlannerState.make, Function.update_self,
      Function.update_of_ne (Nat.ne_of_lt hlt)]
  have hsink : g.objs st.size = ⟨.sink, none, 0⟩ := by
    simp only [g, PlannerState.connect, PlannerState.make, Function.update_self,
      Function.update_of_ne (Nat.ne_of_gt hlt)]
  have hagree : g.Agrees st 0 l.root :=
    ⟨fun j _ hj => hobj j (by omega) (by omega), by rw [hrootobj]⟩
  have hascending : Ascending g.links (st.size + 1) := fun j lk hlk => by
    rw [PlannerState.links] at hlk
    by_cases hjs : j = st.size
    · rw [hjs, hsink] at hlk
      cases hlk
    by_cases hjr : j = l.root
    · rw [hjr, hrootobj] at hlk
      cases hlk
      rw [hjr]
      exact ⟨hlt, Nat.lt_succ_self _⟩
    rw [hobj j hjs hjr] at hlk
    by_cases hj : j < st.size
    · have := h.upward j lk (Nat.zero_le _) hj hlk
      omega
    · have hnone := h.beyond (fun _ _ => rfl) j (Nat.le_of_not_lt hj)
      rw [PlannerState.links] at hnone
      rw [hnone] at hlk
      cases hlk
  refine ⟨⟨g, st.getQueryPlan.pipelines⟩, ?_, ?_, ?_, ?_⟩
  · obtain ⟨n, hn⟩ := Nat.exists_eq_succ_of_ne_zero
      (mt List.length_eq_zero_iff.mp t.labels_ne_nil)
    rw [QueryBatch.appendCollect, hpipes, hn, List.range_succ_eq_map]
    rfl
  · rw [hpipes, List.length_map, List.length_range]
    exact hperm'
  · intro k hk
    rw [hpipes, List.length_map, List.length_range] at hk
    rw [hpipes, List.getD_eq_getElem _ _ (by simpa using hk)]
    simp
  · intro env seq hseq
    have hheads : ∀ k ∈ t.labels,
        (st.getQueryPlan.pipelines.map QueryPipeline.planHead).getD k 0 = st.sources.getD k 0 := by
      intro k hk
      have hk' := List.mem_range.mp ((hperm'.mem_iff).mp hk)
      rw [hpipes, List.getD_eq_getElem _ _ (by simpa using hk')]
      simp
    have hseq' : ∀ k ∈ seq, k < t.labels.length := fun k hk => by
      simpa [hpipes] using hseq k hk
    obtain ⟨hrep, hholds⟩ := h.form g _ hagree hheads
    have hmem : ∀ k ∈ seq, k ∈ t.labels := fun k hk =>
      hperm'.mem_iff.mpr (List.mem_range.mpr (hseq' k hk))
    obtain ⟨hout, hended⟩ := hrep.told (A := env.ops) (e := .badFunctionCall) (n := st.size + 1)
      hascending (by rw [PlannerState.links, hrootobj]) (by rw [hsink]) hholds hmem
    rw [QueryBatch.start, ← hout, ← hended]
    exact bind_unit _

/-- The planner makes a plan of every query that it accepts, and the plan runs as
the tree of the query. -/
theorem prepareQuery_ok {r : Option QueryBatch} (h : prepareQuery ctx q = .ok r) :
    ∃ t b, q.tree ctx 0 = .ok t ∧ r = some b ∧ b.RunsAs t := by
  obtain ⟨⟨i, st⟩, h1, h2⟩ := bind_eq_ok h
  obtain ⟨t, l, ht, _, hbuilt⟩ := visit_built q h1
  obtain ⟨b, hb, hruns⟩ := appendCollect_built hbuilt
  cases h2
  exact ⟨t, b, ht, hb, hruns⟩

end

end

end Poseidon
