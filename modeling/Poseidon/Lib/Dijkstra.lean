import Mathlib.Algebra.Order.Group.Nat
import Mathlib.Data.List.Nodup
import Mathlib.Data.List.Perm.Subperm
import Mathlib.Logic.Function.Basic

/-!
# Dijkstra's algorithm

Each node has a weight and the walk that the weight is the total of. A node
with the least weight is settled, and its steps are relaxed. A walk that
leaves the settled nodes does so by a relaxed step, so its total is not below
the weight of some node that is not settled; the weights of the settled nodes
and the least of the other weights are therefore distances.

The weights are of an ordered monoid. A node whose weight is `unknown` has not
been reached; the totals of walks without repeated nodes are below it.
-/

namespace Dijkstra

variable {α W : Type}

section

variable [AddCommMonoid W]

/-- A walk from `src`: the nodes it passes, the last of them, and its
total. -/
inductive Route (step : α → W → α → Prop) (src : α) : List α → α → W → Prop where
  | start : Route step src [src] src 0
  | snoc {p : List α} {v w : α} {x c : W} :
      Route step src p v x → step v c w → Route step src (p ++ [w]) w (x + c)

variable {step : α → W → α → Prop} {src v : α} {p : List α} {x : W}

theorem Route.src_mem (h : Route step src p v x) : src ∈ p := by
  induction h with
  | start => exact List.mem_singleton_self _
  | snoc _ _ ih => exact List.mem_append_left _ ih

end

variable [AddCommMonoid W] [LinearOrder W]

/-- A walk that no walk to its end is lighter than. -/
def Lightest (step : α → W → α → Prop) (src : α) (p : List α) (v : α) (x : W) : Prop :=
  Route step src p v x ∧ ∀ p' x', Route step src p' v x' → x ≤ x'

/-- A walk is not lighter than the level of its end, if a step climbs its
weight at most. -/
theorem Route.level_le [IsOrderedAddMonoid W]
    {step : α → W → α → Prop} {src v : α} {p : List α} {x : W} (h : Route step src p v x)
    (level : α → W) (hsrc : level src = 0) (hstep : ∀ u c v, step u c v → level v ≤ level u + c) :
    level v ≤ x := by
  induction h with
  | start => exact hsrc.le
  | snoc _ hvw ih => exact (hstep _ _ _ hvw).trans (add_le_add_left ih _)

/-- The weights of a search: no step is negative, and the totals of walks
without repeated nodes are below `unknown`. -/
structure ExactWeights (step : α → W → α → Prop) (src : α) (unknown : W) : Prop where
  nonneg : ∀ u c v, step u c v → 0 ≤ c
  small : ∀ p v x, Route step src p v x → p.Nodup → x < unknown

/-- Natural weights that are bounded, on finitely many nodes. -/
theorem ExactWeights.of_le {step : α → Nat → α → Prop} {src : α} {b : Nat} {nodes : List α}
    (hsrc : src ∈ nodes) (hstep : ∀ u c v, step u c v → c ≤ b ∧ v ∈ nodes) :
    ExactWeights step src (b * nodes.length + 1) where
  nonneg _ c _ _ := Nat.zero_le c
  small p v x hp hnodup := by
    have hbound : x ≤ b * p.length ∧ p ⊆ nodes := by
      clear hnodup
      induction hp with
      | start => exact ⟨Nat.zero_le _, List.cons_subset.mpr ⟨hsrc, List.nil_subset _⟩⟩
      | @snoc p v w x c _ hvw ih =>
          obtain ⟨hc, hw⟩ := hstep v c w hvw
          refine ⟨?_, List.append_subset.mpr ⟨ih.2, List.cons_subset.mpr ⟨hw, List.nil_subset _⟩⟩⟩
          rw [List.length_append, List.length_singleton, Nat.mul_add, Nat.mul_one]
          exact Nat.add_le_add ih.1 hc
    have hlen := Nat.mul_le_mul_left b (List.subperm_of_subset hnodup hbound.2).length_le
    exact Nat.lt_succ_of_le (hbound.1.trans hlen)

/-- What holds when `settled` has been settled and the steps `done` have been
relaxed. -/
structure Inv (step : α → W → α → Prop) (src : α) (unknown : W) (done : α → W → α → Prop)
    (settled : List α) (weight : α → W) (tree : α → List α) : Prop where
  source : weight src = 0
  le_unknown : ∀ v, weight v ≤ unknown
  route : ∀ v, weight v ≠ unknown → Route step src (tree v) v (weight v)
  simple : ∀ v, weight v ≠ unknown → (tree v).Nodup
  inside : ∀ v, weight v ≠ unknown → ∀ u ∈ tree v, u = v ∨ u ∈ settled
  known : ∀ u ∈ settled, weight u ≠ unknown
  mono : ∀ u ∈ settled, ∀ v, v ∉ settled → weight u ≤ weight v
  settledFrom : ∀ u c v, done u c v → u ∈ settled
  relaxed : ∀ u c v, done u c v → weight v ≤ weight u + c

variable {step : α → W → α → Prop} {src m v w : α} {unknown c x : W} {done : α → W → α → Prop}
  {settled p : List α} {weight : α → W} {tree : α → List α}

namespace Inv

theorem initial [DecidableEq α] (hexact : ExactWeights step src unknown) :
    Inv step src unknown (fun _ _ _ => False) [] (Function.update (fun _ => unknown) src 0)
      (fun _ => [src]) := by
  have hpos : (0 : W) < unknown := hexact.small _ _ _ .start (List.nodup_singleton src)
  have hsrc : ∀ v, Function.update (fun _ => unknown) src 0 v ≠ unknown → v = src := by
    intro v hv
    by_contra hne
    exact hv (Function.update_of_ne hne _ _)
  have hzero : Function.update (fun _ => unknown) src (0 : W) src = 0 := Function.update_self ..
  constructor
  · exact hzero
  · intro v
    rw [Function.update_apply]
    split
    · exact hpos.le
    · exact le_rfl
  · intro v hv
    rw [hsrc v hv, hzero]
    exact .start
  · exact fun v _ => List.nodup_singleton src
  · intro v hv u hu
    exact .inl ((List.mem_singleton.mp hu).trans (hsrc v hv).symm)
  · exact fun u hu => absurd hu List.not_mem_nil
  · exact fun u hu => absurd hu List.not_mem_nil
  · exact fun u c v h => h.elim
  · exact fun u c v h => h.elim

/-- A node that has the least weight is settled. -/
theorem settle (h : Inv step src unknown done settled weight tree) (hm : weight m ≠ unknown)
    (hmin : ∀ v, v ∉ settled → weight m ≤ weight v) :
    Inv step src unknown done (m :: settled) weight tree where
  source := h.source
  le_unknown := h.le_unknown
  route := h.route
  simple := h.simple
  inside v hv u hu := (h.inside v hv u hu).imp_right (List.mem_cons_of_mem _)
  known u hu := by
    rcases List.mem_cons.mp hu with rfl | hu
    · exact hm
    · exact h.known u hu
  mono u hu v hv := by
    have hv' : v ∉ settled := fun hmem => hv (List.mem_cons_of_mem _ hmem)
    rcases List.mem_cons.mp hu with rfl | hu
    · exact hmin v hv'
    · exact h.mono u hu v hv'
  settledFrom u c v hd := List.mem_cons_of_mem _ (h.settledFrom u c v hd)
  relaxed := h.relaxed

/-- The steps that count as relaxed, in other words. -/
theorem congr_done {done' : α → W → α → Prop}
    (h : Inv step src unknown done settled weight tree)
    (hdone : ∀ u c v, done' u c v → done u c v) :
    Inv step src unknown done' settled weight tree where
  source := h.source
  le_unknown := h.le_unknown
  route := h.route
  simple := h.simple
  inside := h.inside
  known := h.known
  mono := h.mono
  settledFrom u c v hd := h.settledFrom u c v (hdone u c v hd)
  relaxed u c v hd := h.relaxed u c v (hdone u c v hd)

/-- A step that does not make its end lighter. -/
theorem relax_keep (h : Inv step src unknown done settled weight tree) (hm : m ∈ settled)
    (hle : weight w ≤ weight m + c) :
    Inv step src unknown (fun u x v => done u x v ∨ (u = m ∧ x = c ∧ v = w)) settled weight
      tree where
  source := h.source
  le_unknown := h.le_unknown
  route := h.route
  simple := h.simple
  inside := h.inside
  known := h.known
  mono := h.mono
  settledFrom u x v hd := by
    rcases hd with hd | ⟨rfl, -, -⟩
    · exact h.settledFrom u x v hd
    · exact hm
  relaxed u x v hd := by
    rcases hd with hd | ⟨rfl, rfl, rfl⟩
    · exact h.relaxed u x v hd
    · exact hle

/-- A step to a node that was settled before does not make it lighter. -/
theorem le_of_settled [IsOrderedAddMonoid W] (hlast : ∀ u ∈ settled, weight u ≤ weight m)
    (hw : w ∈ settled) (hc : 0 ≤ c) : weight w ≤ weight m + c :=
  (hlast w hw).trans (le_add_of_nonneg_right hc)

/-- A step that makes its end lighter. -/
theorem relax_update [DecidableEq α] [IsOrderedAddMonoid W]
    (h : Inv step src unknown done settled weight tree) (hm : m ∈ settled)
    (hlast : ∀ u ∈ settled, weight u ≤ weight m) (hstep : step m c w) (hc : 0 ≤ c)
    (hw : w ∉ settled) (hlt : weight m + c < weight w) :
    Inv step src unknown (fun u x v => done u x v ∨ (u = m ∧ x = c ∧ v = w)) settled
      (Function.update weight w (weight m + c)) (Function.update tree w (tree m ++ [w])) := by
  have hne : ∀ u ∈ settled, u ≠ w := fun u hu huw => hw (huw ▸ hu)
  have hmw : m ≠ w := hne m hm
  have hsettled : ∀ u ∈ settled, Function.update weight w (weight m + c) u = weight u :=
    fun u hu => Function.update_of_ne (hne u hu) _ _
  have htree : ∀ u, u ∈ tree m → u ∈ settled := fun u hu =>
    (h.inside m (h.known m hm) u hu).elim (fun hum => hum ▸ hm) id
  have hle : ∀ v, Function.update weight w (weight m + c) v ≤ weight v := by
    intro v
    rw [Function.update_apply]
    split
    · rename_i hv
      exact hv ▸ hlt.le
    · exact le_rfl
  constructor
  · have hsrc : src ≠ w := by
      rintro rfl
      exact hw (htree src (h.route m (h.known m hm)).src_mem)
    rw [Function.update_of_ne hsrc]
    exact h.source
  · exact fun v => (hle v).trans (h.le_unknown v)
  · intro v hv
    by_cases hvw : v = w
    · subst hvw
      rw [Function.update_self, Function.update_self]
      exact (h.route m (h.known m hm)).snoc hstep
    · rw [Function.update_of_ne hvw] at hv ⊢
      rw [Function.update_of_ne hvw]
      exact h.route v hv
  · intro v hv
    by_cases hvw : v = w
    · subst hvw
      rw [Function.update_self]
      exact List.nodup_append.mpr ⟨h.simple m (h.known m hm), List.nodup_singleton _,
        fun a ha b hb hab => hw (List.mem_singleton.mp hb ▸ hab ▸ htree a ha)⟩
    · rw [Function.update_of_ne hvw] at hv ⊢
      exact h.simple v hv
  · intro v hv u hu
    by_cases hvw : v = w
    · subst hvw
      rw [Function.update_self] at hu
      rcases List.mem_append.mp hu with hu | hu
      · exact .inr (htree u hu)
      · exact .inl (List.mem_singleton.mp hu)
    · rw [Function.update_of_ne hvw] at hv hu
      exact h.inside v hv u hu
  · intro u hu
    rw [hsettled u hu]
    exact h.known u hu
  · intro u hu v hv
    rw [hsettled u hu]
    by_cases hvw : v = w
    · subst hvw
      rw [Function.update_self]
      exact (hlast u hu).trans (le_add_of_nonneg_right hc)
    · rw [Function.update_of_ne hvw]
      exact h.mono u hu v hv
  · intro u x v hd
    rcases hd with hd | ⟨rfl, -, -⟩
    · exact h.settledFrom u x v hd
    · exact hm
  · intro u x v hd
    rcases hd with hd | ⟨rfl, rfl, rfl⟩
    · rw [hsettled u (h.settledFrom u x v hd)]
      exact (hle v).trans (h.relaxed u x v hd)
    · rw [Function.update_self, hsettled u hm]

/-- A step from a settled node to one that is not settled is light enough. -/
theorem lt_unknown (h : Inv step src unknown done settled weight tree)
    (hexact : ExactWeights step src unknown) (hm : m ∈ settled) (hstep : step m c w)
    (hw : w ∉ settled) :
    weight m + c < unknown := by
  refine hexact.small _ _ _ ((h.route m (h.known m hm)).snoc hstep) ?_
  refine List.nodup_append.mpr ⟨h.simple m (h.known m hm), List.nodup_singleton _,
    fun a ha b hb hab => hw ?_⟩
  rw [← List.mem_singleton.mp hb, ← hab]
  exact (h.inside m (h.known m hm) a ha).elim (fun ham => ham ▸ hm) id

end Inv

/-- What holds between two rounds: the steps of all settled nodes have been
relaxed. -/
abbrev Round (step : α → W → α → Prop) (src : α) (unknown : W) (settled : List α)
    (weight : α → W) (tree : α → List α) : Prop :=
  Inv step src unknown (fun u c v => u ∈ settled ∧ step u c v) settled weight tree

namespace Round

variable [IsOrderedAddMonoid W]

/-- The end of a walk is settled and not heavier than the walk, or a node
that is not settled is not heavier than the walk. -/
theorem leaves (h : Round step src unknown settled weight tree)
    (hexact : ExactWeights step src unknown) (hp : Route step src p v x) :
    (v ∈ settled ∧ weight v ≤ x) ∨ ∃ u, u ∉ settled ∧ weight u ≤ x := by
  induction hp with
  | start =>
      by_cases hsrc : src ∈ settled
      · exact .inl ⟨hsrc, h.source.le⟩
      · exact .inr ⟨src, hsrc, h.source.le⟩
  | @snoc p v w x c hp hstep ih =>
      have hc := hexact.nonneg v c w hstep
      rcases ih with ⟨hv, hle⟩ | ⟨u, hu, hle⟩
      · have hw : weight w ≤ x + c :=
          (h.relaxed v c w ⟨hv, hstep⟩).trans (add_le_add_left hle c)
        by_cases hset : w ∈ settled
        · exact .inl ⟨hset, hw⟩
        · exact .inr ⟨w, hset, hw⟩
      · exact .inr ⟨u, hu, hle.trans (le_add_of_nonneg_right hc)⟩

/-- The least of the weights that are not settled is a distance. -/
theorem lightest (h : Round step src unknown settled weight tree)
    (hexact : ExactWeights step src unknown) (hm : m ∉ settled) (hknown : weight m ≠ unknown)
    (hmin : ∀ v, v ∉ settled → weight m ≤ weight v) :
    Lightest step src (tree m) m (weight m) := by
  refine ⟨h.route m hknown, fun p x hp => ?_⟩
  rcases h.leaves hexact hp with ⟨hset, -⟩ | ⟨u, hu, hle⟩
  · exact absurd hset hm
  · exact (hmin u hu).trans hle

/-- The weight of a settled node is its distance. -/
theorem settled_lightest (h : Round step src unknown settled weight tree)
    (hexact : ExactWeights step src unknown) (hm : m ∈ settled) :
    Lightest step src (tree m) m (weight m) := by
  refine ⟨h.route m (h.known m hm), fun p x hp => ?_⟩
  rcases h.leaves hexact hp with ⟨-, hle⟩ | ⟨u, hu, hle⟩
  · exact hle
  · exact (h.mono m hm u hu).trans hle

omit [IsOrderedAddMonoid W] in
/-- If no other node has been reached, the settled nodes are those that can
be. -/
theorem exhausted (h : Round step src unknown settled weight tree)
    (hexact : ExactWeights step src unknown) (hall : ∀ v, v ∉ settled → weight v = unknown)
    (hp : Route step src p v x) : v ∈ settled := by
  induction hp with
  | start =>
      by_contra hsrc
      have hzero := (hall src hsrc).symm.trans h.source
      exact absurd hzero (hexact.small _ _ _ .start (List.nodup_singleton src)).ne'
  | @snoc p v w x c hp hstep ih =>
      by_contra hw
      have hle := h.relaxed v c w ⟨ih, hstep⟩
      rw [hall w hw] at hle
      exact absurd (h.lt_unknown hexact ih hstep hw) (not_lt.mpr hle)

end Round

/-! ## The order in which nodes are settled -/

/-- The settled nodes are ahead of all others: they are nearer, or as near and
smaller. -/
def Ahead [LT α] (step : α → W → α → Prop) (src : α) (settled : List α) (weight : α → W) : Prop :=
  ∀ u ∈ settled, ∀ v, v ∉ settled → ∀ p x, Route step src p v x →
    weight u < x ∨ (weight u = x ∧ u < v)

namespace Round

variable [IsOrderedCancelAddMonoid W]

/-- If the steps are positive, the weight of a node that is not farther than
the least weight is its distance. -/
theorem weight_le (h : Round step src unknown settled weight tree)
    (hexact : ExactWeights step src unknown) (hpos : ∀ u c v, step u c v → 0 < c)
    (hp : Route step src p v x) (hmin : ∀ u, u ∉ settled → x ≤ weight u) : weight v ≤ x := by
  cases hp with
  | start => exact h.source.le
  | @snoc p u w x c hp hstep =>
      have hlt : x < x + c := lt_add_of_pos_right x (hpos u c v hstep)
      rcases h.leaves hexact hp with ⟨hu, hle⟩ | ⟨t, ht, hle⟩
      · exact (h.relaxed u c v ⟨hu, hstep⟩).trans (add_le_add_left hle c)
      · exact absurd (hmin t ht) (not_le.mpr (hle.trans_lt hlt))

/-- The smallest of the lightest nodes is settled. -/
theorem ahead_settle [LinearOrder α] (h : Round step src unknown settled weight tree)
    (hexact : ExactWeights step src unknown) (hpos : ∀ u c v, step u c v → 0 < c)
    (hahead : Ahead step src settled weight)
    (hmin : ∀ v, v ∉ settled → weight m ≤ weight v)
    (hfirst : ∀ v, v < m → v ∉ settled → weight m < weight v) :
    Ahead step src (m :: settled) weight := by
  intro u hu v hv p x hp
  have hvm : v ≠ m := fun heq => hv (heq ▸ List.mem_cons_self ..)
  have hv' : v ∉ settled := fun hmem => hv (List.mem_cons_of_mem _ hmem)
  rcases List.mem_cons.mp hu with rfl | hu
  · rcases h.leaves hexact hp with ⟨hset, -⟩ | ⟨t, ht, hle⟩
    · exact absurd hset hv'
    · rcases ((hmin t ht).trans hle).lt_or_eq with hlt | rfl
      · exact .inl hlt
      · -- `v` has its distance, so it was seen in the scan
        refine .inr ⟨rfl, lt_of_le_of_ne (not_lt.mp fun hlt => ?_) hvm.symm⟩
        exact absurd (h.weight_le hexact hpos hp hmin) (not_le.mpr (hfirst v hlt hv'))
  · exact hahead u hu v hv' p x hp

end Round

end Dijkstra
