import Mathlib.Algebra.GroupWithZero.Nat
import Mathlib.Data.List.Basic

/-!
# Searches with a frontier of paths

A breadth-first search that queues whole paths. Whether a node is marked when
it is queued or only when it is taken, the entries that were taken and the
queue behind them are one list of walks whose lengths never decrease, and each
step from an entry that was taken leads to a node with an entry that is at
most one longer. An entry may be dropped if its node was taken before. From
this it follows that no walk to a node is shorter than its first entry.
-/

namespace Frontier

variable {α : Type}

/-- A walk from `src`: the nodes it passes, and the last of them. -/
inductive Walk (step : α → α → Prop) (src : α) : List α → α → Prop where
  | start : Walk step src [src] src
  | snoc {p : List α} {v w : α} : Walk step src p v → step v w → Walk step src (p ++ [w]) w

/-- A walk that no walk to its end is shorter than. -/
def Shortest (step : α → α → Prop) (src : α) (p : List α) (w : α) : Prop :=
  Walk step src p w ∧ ∀ p', Walk step src p' w → p.length ≤ p'.length

variable {step : α → α → Prop} {src v w : α} {p p' : List α} {e : List α × α}
  {done queue rest new : List (List α × α)}

theorem Walk.ne_nil (h : Walk step src p w) : p ≠ [] := by
  cases h with
  | start => exact List.cons_ne_nil _ _
  | snoc _ _ => exact List.append_ne_nil_of_right_ne_nil _ (List.cons_ne_nil _ _)

theorem Walk.getLastD (h : Walk step src p w) (d : α) : p.getLastD d = w := by
  cases h with
  | start => rfl
  | snoc _ _ => exact List.getLastD_concat

/-- A walk is longer than the level of its end, if a step climbs one level at
most. -/
theorem Walk.level_lt (h : Walk step src p w) (level : α → Nat) (hsrc : level src = 0)
    (hstep : ∀ v w, step v w → level w ≤ level v + 1) : level w < p.length := by
  induction h with
  | start =>
      rw [hsrc]
      exact Nat.zero_lt_one
  | @snoc p v w _ hvw ih =>
      have hle := hstep v w hvw
      rw [List.length_append, List.length_singleton]
      omega

/-- What holds of a search when `done` was taken from the queue. -/
structure Inv (step : α → α → Prop) (src : α) (done queue : List (List α × α)) : Prop where
  source : ∃ e ∈ done ++ queue, e.2 = src ∧ e.1.length ≤ 1
  sorted : (done ++ queue).Pairwise fun a b => a.1.length ≤ b.1.length
  near : ∀ e ∈ queue.head?, ∀ e' ∈ queue, e'.1.length ≤ e.1.length + 1
  sound : ∀ e ∈ done ++ queue, Walk step src e.1 e.2
  closed : ∀ e ∈ done, ∀ w, step e.2 w →
    ∃ e' ∈ done ++ queue, e'.2 = w ∧ e'.1.length ≤ e.1.length + 1

namespace Inv

theorem initial (step : α → α → Prop) (src : α) : Inv step src [] [([src], src)] where
  source := ⟨_, List.mem_singleton_self _, rfl, Nat.le_refl _⟩
  sorted := List.pairwise_singleton ..
  near e he e' he' := by
    cases he
    rw [List.mem_singleton.mp he']
    exact Nat.le_succ _
  sound e he := by
    rw [List.mem_singleton.mp he]
    exact .start
  closed e he := by cases he

/-- The entries that were taken are not longer than the queued ones. -/
theorem done_le (h : Inv step src done queue) {a b : List α × α} (ha : a ∈ done)
    (hb : b ∈ queue) : a.1.length ≤ b.1.length :=
  (List.pairwise_append.mp h.sorted).2.2 a ha b hb

/-- The head of the queue is the shortest queued entry. -/
theorem head_le (h : Inv step src done (e :: rest)) :
    ∀ e' ∈ e :: rest, e.1.length ≤ e'.1.length := by
  intro e' he'
  rcases List.mem_cons.mp he' with rfl | he'
  · exact Nat.le_refl _
  · exact (List.pairwise_cons.mp (List.pairwise_append.mp h.sorted).2.1).1 e' he'

/-- No entry is more than one longer than the head of the queue. -/
theorem le_succ (h : Inv step src done (e :: rest)) :
    ∀ a ∈ done ++ e :: rest, a.1.length ≤ e.1.length + 1 := by
  intro a ha
  rcases List.mem_append.mp ha with ha | ha
  · exact Nat.le_succ_of_le (h.done_le ha (List.mem_cons_self ..))
  · exact h.near e rfl a ha

/-- The head is taken, and `new` is queued. -/
theorem expand (h : Inv step src done (e :: rest))
    (hnew : ∀ n ∈ new, ∃ w, n = (e.1 ++ [w], w) ∧ step e.2 w)
    (hall : ∀ w, step e.2 w →
      ∃ e' ∈ (done ++ e :: rest) ++ new, e'.2 = w ∧ e'.1.length ≤ e.1.length + 1) :
    Inv step src (done ++ [e]) (rest ++ new) := by
  have hlist : (done ++ [e]) ++ (rest ++ new) = (done ++ e :: rest) ++ new := by
    simp only [List.append_assoc, List.cons_append, List.nil_append]
  have hlen : ∀ n ∈ new, n.1.length = e.1.length + 1 := by
    intro n hn
    obtain ⟨w, rfl, -⟩ := hnew n hn
    exact List.length_append
  have hnearly : ∀ a ∈ rest ++ new, a.1.length ≤ e.1.length + 1 ∧ e.1.length ≤ a.1.length := by
    intro a ha
    rcases List.mem_append.mp ha with ha | ha
    · exact ⟨h.near e rfl a (List.mem_cons_of_mem _ ha), h.head_le a (List.mem_cons_of_mem _ ha)⟩
    · rw [hlen a ha]
      omega
  constructor
  · obtain ⟨a, ha, hsrc⟩ := h.source
    rw [hlist]
    exact ⟨a, List.mem_append_left _ ha, hsrc⟩
  · rw [hlist, List.pairwise_append]
    refine ⟨h.sorted, List.pairwise_of_forall_mem_list fun a ha b hb => ?_, fun a ha b hb => ?_⟩
    · exact Nat.le_of_eq ((hlen a ha).trans (hlen b hb).symm)
    · rw [hlen b hb]
      exact h.le_succ a ha
  · intro a ha b hb
    have hhead := hnearly a (List.mem_of_mem_head? ha)
    have htail := hnearly b hb
    omega
  · rw [hlist]
    intro a ha
    rcases List.mem_append.mp ha with ha | ha
    · exact h.sound a ha
    · obtain ⟨w, rfl, hw⟩ := hnew a ha
      exact (h.sound e (by simp)).snoc hw
  · rw [hlist]
    intro a ha w hw
    rcases List.mem_append.mp ha with ha | ha
    · obtain ⟨b, hb, hbw⟩ := h.closed a ha w hw
      exact ⟨b, List.mem_append_left _ hb, hbw⟩
    · rw [List.mem_singleton.mp ha] at hw ⊢
      exact hall w hw

/-- The head is dropped, because its node was taken before. -/
theorem drop (h : Inv step src done (e :: rest)) (hseen : ∃ a ∈ done, a.2 = e.2) :
    Inv step src done rest := by
  obtain ⟨a, ha, hae⟩ := hseen
  have hle : a.1.length ≤ e.1.length := h.done_le ha (List.mem_cons_self ..)
  -- the entry that was taken before serves for the one that is dropped
  have hkeep : ∀ b ∈ done ++ e :: rest, ∃ b' ∈ done ++ rest, b'.2 = b.2 ∧
      b'.1.length ≤ b.1.length := by
    intro b hb
    rcases List.mem_append.mp hb with hb | hb
    · exact ⟨b, List.mem_append_left _ hb, rfl, Nat.le_refl _⟩
    · rcases List.mem_cons.mp hb with rfl | hb
      · exact ⟨a, List.mem_append_left _ ha, hae, hle⟩
      · exact ⟨b, List.mem_append_right _ hb, rfl, Nat.le_refl _⟩
  have hsub : (done ++ rest).Sublist (done ++ e :: rest) :=
    (List.sublist_cons_self e rest).append_left done
  constructor
  · obtain ⟨b, hb, hsrc, hlen⟩ := h.source
    obtain ⟨b', hb', hnode, hlen'⟩ := hkeep b hb
    exact ⟨b', hb', hnode.trans hsrc, Nat.le_trans hlen' hlen⟩
  · exact h.sorted.sublist hsub
  · intro b hb b' hb'
    have hhead := h.head_le b (List.mem_cons_of_mem _ (List.mem_of_mem_head? hb))
    have htail := h.near e rfl b' (List.mem_cons_of_mem _ hb')
    omega
  · exact fun b hb => h.sound b (hsub.subset hb)
  · intro b hb w hw
    obtain ⟨c, hc, hcw, hlen⟩ := h.closed b hb w hw
    obtain ⟨c', hc', hnode, hlen'⟩ := hkeep c hc
    exact ⟨c', hc', hnode.trans hcw, Nat.le_trans hlen' hlen⟩

/-- A walk that is not longer than any queued entry ends at a node with an
entry that is not longer than the walk. -/
theorem reached (h : Inv step src done queue) (hw : Walk step src p w)
    (hlen : ∀ e ∈ queue, p.length ≤ e.1.length) :
    ∃ e ∈ done ++ queue, e.2 = w ∧ e.1.length ≤ p.length := by
  induction hw with
  | start => exact h.source
  | @snoc p v w hv hstep ih =>
      rw [List.length_append, List.length_singleton] at hlen ⊢
      obtain ⟨a, ha, rfl, hle⟩ := ih fun b hb => Nat.le_of_succ_le (hlen b hb)
      rcases List.mem_append.mp ha with ha | ha
      · obtain ⟨b, hb, hbw, hble⟩ := h.closed a ha w hstep
        exact ⟨b, hb, hbw, by omega⟩
      · have := hlen a ha
        omega

/-- An entry that is taken for the first time is a shortest walk. -/
theorem shortest (h : Inv step src done (e :: rest)) (hfresh : ∀ a ∈ done, a.2 ≠ e.2) :
    Shortest step src e.1 e.2 := by
  refine ⟨h.sound e (by simp), fun p hp => ?_⟩
  by_contra hlt
  obtain ⟨a, ha, hae, hle⟩ := h.reached hp fun b hb => by
    have := h.head_le b hb
    omega
  rcases List.mem_append.mp ha with ha | ha
  · exact hfresh a ha hae
  · have := h.head_le a ha
    omega

/-- A step from the head to a node whose entries are longer than the head
ends a shortest walk. -/
theorem shortest_snoc (h : Inv step src done (e :: rest)) (hstep : step e.2 w)
    (hfar : ∀ a ∈ done ++ e :: rest, a.2 = w → e.1.length + 1 ≤ a.1.length) :
    Shortest step src (e.1 ++ [w]) w := by
  refine ⟨(h.sound e (by simp)).snoc hstep, fun p hp => ?_⟩
  rw [List.length_append, List.length_singleton]
  by_contra hlt
  obtain ⟨a, ha, haw, hle⟩ := h.reached hp fun b hb => by
    have := h.head_le b hb
    omega
  have := hfar a ha haw
  omega

end Inv

/-- What a breadth-first search visits: each node at the end of a walk once,
in the order of the distances, and with a shortest walk. -/
structure BreadthFirst (step : α → α → Prop) (src : α) (visits : List (List α × α)) : Prop where
  nodup : (visits.map Prod.snd).Nodup
  reached : ∀ v, v ∈ visits.map Prod.snd ↔ ∃ p, Walk step src p v
  order : visits.Pairwise fun a b => a.1.length ≤ b.1.length
  shortest : ∀ e ∈ visits, Shortest step src e.1 e.2

/-- When the queue is empty the search has visited what it should. -/
theorem Inv.breadthFirst (h : Inv step src done []) (hnodup : (done.map Prod.snd).Nodup)
    (hshort : ∀ e ∈ done, Shortest step src e.1 e.2) : BreadthFirst step src done where
  nodup := hnodup
  reached v := by
    constructor
    · intro hv
      obtain ⟨e, he, rfl⟩ := List.mem_map.mp hv
      exact ⟨e.1, (hshort e he).1⟩
    · rintro ⟨p, hp⟩
      obtain ⟨e, he, hev, -⟩ := h.reached hp fun e he => by cases he
      rw [List.append_nil] at he
      exact List.mem_map.mpr ⟨e, he, hev⟩
  order := by
    have hsorted := h.sorted
    rwa [List.append_nil] at hsorted
  shortest := hshort

/-! ## How long a search takes -/

/-- What the nodes that are not marked can still queue. -/
def pending [DecidableEq α] (deg : α → Nat) (nodes visited : List α) : Nat :=
  ((nodes.filter fun v => decide (v ∉ visited)).map deg).sum

theorem pending_cons [DecidableEq α] {deg : α → Nat} {nodes visited : List α}
    (hnodup : nodes.Nodup) (hv : v ∈ nodes) (hfresh : v ∉ visited) :
    pending deg nodes (v :: visited) + deg v = pending deg nodes visited := by
  induction nodes with
  | nil => cases hv
  | cons x xs ih =>
      obtain ⟨hx, hxs⟩ := List.nodup_cons.mp hnodup
      by_cases hxv : x = v
      · -- the other nodes are not `v`
        subst hxv
        have hrest : xs.filter (fun u => decide (u ∉ x :: visited)) =
            xs.filter fun u => decide (u ∉ visited) := by
          refine List.filter_congr fun u hu => ?_
          have hne : u ≠ x := fun h => hx (h ▸ hu)
          simp [hne]
        rw [pending, pending, List.filter_cons_of_neg (by simp),
          List.filter_cons_of_pos (by simpa using hfresh), hrest, List.map_cons, List.sum_cons,
          Nat.add_comm]
      · have hmem := (List.mem_cons.mp hv).resolve_left fun h => hxv h.symm
        have hih := ih hxs hmem
        rw [pending, pending] at hih ⊢
        by_cases hxm : x ∈ visited
        · rw [List.filter_cons_of_neg (by simp [hxm]), List.filter_cons_of_neg (by simp [hxm])]
          exact hih
        · rw [List.filter_cons_of_pos (by simp [hxm, hxv]), List.filter_cons_of_pos (by simp [hxm]),
            List.map_cons, List.map_cons, List.sum_cons, List.sum_cons, Nat.add_assoc, hih]

end Frontier
