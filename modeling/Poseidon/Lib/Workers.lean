import Mathlib.Algebra.BigOperators.Group.Finset.Piecewise
import Mathlib.Algebra.Order.BigOperators.Group.Finset
import Mathlib.Algebra.Order.Group.Multiset
import Mathlib.Data.Fintype.Card
import Mathlib.Logic.Relation

/-!
# Workers

Workers that take tasks from a queue. A task is a list of items; an item is run
in one piece, on a state that all workers share, and leaves items that its worker
runs before the rest of its task. Which worker runs next is left open.

A property of the state and the multiset of the items that are left is kept by a
run if every item keeps it, whichever of them is run next. Items that only
another item of the same worker makes are never more than there are workers.
-/

namespace Workers

open Relation

/-- A state, the tasks that no worker has taken, and the items that each worker
has to run. -/
structure Pool (ι σ T : Type) where
  state : σ
  queue : List (List T)
  pending : ι → List T

variable {ι σ T : Type}

/-- What the workers can do next; `run` is what an item does. -/
inductive Step [DecidableEq ι] (run : T → σ → Option (σ × List T)) : Pool ι σ T → Pool ι σ T → Prop
  | take {p : Pool ι σ T} {i : ι} {t : List T} {q : List (List T)} :
      p.pending i = [] → p.queue = t :: q →
      Step run p { p with queue := q, pending := Function.update p.pending i t }
  | run {p : Pool ι σ T} {i : ι} {x : T} {rest ys : List T} {s : σ} :
      p.pending i = x :: rest → run x p.state = some (s, ys) →
      Step run p { p with state := s, pending := Function.update p.pending i (ys ++ rest) }

namespace Pool

/-- A pool whose workers have no task. -/
def new (s : σ) (tasks : List (List T)) : Pool ι σ T := ⟨s, tasks, fun _ => []⟩

/-- All tasks have been run. -/
def Done (p : Pool ι σ T) : Prop := p.queue = [] ∧ ∀ i, p.pending i = []

section

variable [Fintype ι]

/-- The items that are left. -/
def items (p : Pool ι σ T) : Multiset T := ↑p.queue.flatten + ∑ i, (↑(p.pending i) : Multiset T)

/-- What the other workers have to run. -/
def others [DecidableEq ι] (p : Pool ι σ T) (i : ι) : Multiset T :=
  ∑ j ∈ Finset.univ.erase i, (↑(p.pending j) : Multiset T)

theorem items_stack [DecidableEq ι] (p : Pool ι σ T) (i : ι) :
    p.items = ↑p.queue.flatten + (↑(p.pending i) + p.others i) := by
  rw [items, others, Finset.add_sum_erase Finset.univ (fun j => (↑(p.pending j) : Multiset T))
    (Finset.mem_univ i)]

theorem items_update [DecidableEq ι] {p : Pool ι σ T} {i : ι} {s : σ} {q : List (List T)}
    {t : List T} :
    items ⟨s, q, Function.update p.pending i t⟩ = ↑q.flatten + (↑t + p.others i) := by
  have hothers : others ⟨s, q, Function.update p.pending i t⟩ i = p.others i :=
    Finset.sum_congr rfl fun j hj => by
      show (↑(Function.update p.pending i t j) : Multiset T) = _
      rw [Function.update_of_ne (Finset.ne_of_mem_erase hj)]
  rw [items_stack _ i, hothers]
  exact congrArg (fun t : List T => ↑q.flatten + ((↑t : Multiset T) + p.others i))
    (Function.update_self i t p.pending)

theorem items_new (s : σ) (tasks : List (List T)) :
    (new s tasks : Pool ι σ T).items = ↑tasks.flatten := by
  rw [items, new]
  simp

theorem Done.items {p : Pool ι σ T} (h : p.Done) : p.items = 0 := by
  rw [Pool.items, h.1]
  simp [h.2]

end

end Pool

section

variable [Fintype ι] [DecidableEq ι] {run : T → σ → Option (σ × List T)} {p p' : Pool ι σ T}

/-- A step takes a task, which changes neither the state nor what is left, or runs
one of the items that are left. -/
theorem step_cases (h : Step run p p') :
    (p'.state = p.state ∧ p'.items = p.items) ∨
      ∃ x ys M, p.items = x ::ₘ M ∧ run x p.state = some (p'.state, ys) ∧ p'.items = ↑ys + M := by
  cases h with
  | @take i t q hi hq =>
      refine .inl ⟨rfl, ?_⟩
      rw [Pool.items_update, Pool.items_stack p i, hi, hq, List.flatten_cons, ← Multiset.coe_add,
        Multiset.coe_nil, zero_add, add_left_comm, add_assoc]
  | @run i x rest ys s hi hrun =>
      refine .inr ⟨x, ys, ↑p.queue.flatten + (↑rest + p.others i), ?_, hrun, ?_⟩
      · rw [Pool.items_stack p i, hi, ← Multiset.cons_coe, Multiset.cons_add, Multiset.add_cons]
      · rw [Pool.items_update, ← Multiset.coe_add, add_assoc, add_left_comm]

end

/-! ## Items at the head -/

section

variable {run : T → σ → Option (σ × List T)} {H : T → Prop} {p p' : Pool ι σ T}

/-- Nothing is to be run before an item for which `H` holds. -/
structure Pool.Heads (H : T → Prop) (p : Pool ι σ T) : Prop where
  queue : ∀ t ∈ p.queue, ∀ x ∈ t, ¬H x
  tails : ∀ i, ∀ x ∈ (p.pending i).tail, ¬H x

theorem Pool.heads_new {s : σ} {tasks : List (List T)} (h : ∀ t ∈ tasks, ∀ x ∈ t, ¬H x) :
    (Pool.new s tasks : Pool ι σ T).Heads H where
  queue := h
  tails := fun _ _ hx => by cases hx

theorem Pool.Heads.countP_le [Fintype ι] [DecidablePred H] (h : p.Heads H) :
    p.items.countP H ≤ Fintype.card ι := by
  have hqueue : (↑p.queue.flatten : Multiset T).countP H = 0 := by
    refine Multiset.countP_eq_zero.mpr fun x hx => ?_
    obtain ⟨t, ht, hx⟩ := List.mem_flatten.mp hx
    exact h.queue t ht x hx
  have hone : ∀ i, (↑(p.pending i) : Multiset T).countP H ≤ 1 := by
    intro i
    have htail := h.tails i
    rw [Multiset.coe_countP]
    cases hi : p.pending i with
    | nil => exact Nat.zero_le 1
    | cons x rest =>
        rw [hi] at htail
        have hrest : rest.countP H = 0 := List.countP_eq_zero.mpr fun y hy => by
          simpa using htail y hy
        rw [List.countP_cons, hrest]
        split <;> omega
  have hsum : (∑ i, (↑(p.pending i) : Multiset T)).countP H =
      ∑ i, (↑(p.pending i) : Multiset T).countP H :=
    map_sum (Multiset.countPAddMonoidHom H) _ _
  rw [Pool.items, Multiset.countP_add, hqueue, hsum, zero_add]
  calc ∑ i, (↑(p.pending i) : Multiset T).countP H
      ≤ ∑ _i : ι, 1 := Finset.sum_le_sum fun i _ => hone i
    _ = Fintype.card ι := by simp

variable [DecidableEq ι]

theorem Pool.Heads.update (h : p.Heads H) {i : ι} {t : List T} (ht : ∀ x ∈ t.tail, ¬H x)
    (j : ι) : ∀ x ∈ (Function.update p.pending i t j).tail, ¬H x := by
  by_cases hj : j = i
  · rw [hj, Function.update_self]
    exact ht
  · rw [Function.update_of_ne hj]
    exact h.tails j

theorem Pool.Heads.step (hrun : ∀ x s s' ys, run x s = some (s', ys) → ∀ y ∈ ys.tail, ¬H y)
    (h : p.Heads H) (hstep : Step run p p') : p'.Heads H := by
  cases hstep with
  | @take i t q hi hq =>
      have ht : ∀ x ∈ t, ¬H x := h.queue t (hq ▸ List.mem_cons_self ..)
      exact ⟨fun t' ht' => h.queue t' (hq ▸ List.mem_cons_of_mem t ht'),
        h.update fun x hx => ht x (List.mem_of_mem_tail hx)⟩
  | @run i x rest ys s hi hx =>
      have hrest : ∀ y ∈ rest, ¬H y := fun y hy => h.tails i y (hi ▸ hy)
      refine ⟨h.queue, h.update fun y hy => ?_⟩
      cases ys with
      | nil => exact hrest y (List.mem_of_mem_tail hy)
      | cons z ys =>
          rcases List.mem_append.mp hy with hy | hy
          · exact hrun x _ _ _ hx y hy
          · exact hrest y hy

/-- What the state and the items that are left keep if every item keeps it; an item
may rely on it that those for which `H` holds are not more than the workers. -/
theorem keeps [Fintype ι] [DecidablePred H] {P : σ → Multiset T → Prop}
    (hheads : ∀ x s s' ys, run x s = some (s', ys) → ∀ y ∈ ys.tail, ¬H y)
    (hrun : ∀ x s s' ys M, run x s = some (s', ys) → (↑ys + M).countP H ≤ Fintype.card ι →
      P s (x ::ₘ M) → P s' (↑ys + M))
    (h : ReflTransGen (Step run) p p') (hH : p.Heads H) (hp : P p.state p.items) :
    P p'.state p'.items := by
  have hboth : p'.Heads H ∧ P p'.state p'.items := by
    induction h with
    | refl => exact ⟨hH, hp⟩
    | @tail q p' _ hstep ih =>
        have hH' := ih.1.step hheads hstep
        refine ⟨hH', ?_⟩
        obtain ⟨hstate, hitems⟩ | ⟨x, ys, M, hitems, hx, hitems'⟩ := step_cases hstep
        · rw [hstate, hitems]
          exact ih.2
        · have hle := hH'.countP_le
          rw [hitems'] at hle ⊢
          exact hrun x _ _ ys M hx hle (hitems ▸ ih.2)
  exact hboth.2

end

end Workers
