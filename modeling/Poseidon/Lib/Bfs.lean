import Mathlib.Data.List.Basic
import Mathlib.Data.List.Nodup
import Mathlib.Data.List.Perm.Subperm
import Mathlib.Order.Lattice

/-!
# Breadth-first search

A search with a queue and a set of visited nodes. Nodes are marked when they
are queued; whether a node may be entered is tested when it is taken from the
queue, and the neighbours of one that may not be are never looked at. The
variant of the loop is the number of nodes that have not been taken yet.

What carries the proof is that the nodes taken so far and the queue behind
them are one list, in the order in which they were marked: its distances
never decrease, and none is more than one above that of the queue's head.
-/

namespace Bfs

variable {α : Type} (valid : α → Bool) (adj : α → List α)

/-- `w` ends a path of `n` steps from `src` that enters only valid nodes
before it. -/
inductive Steps (src : α) : Nat → α → Prop where
  | start : Steps src 0 src
  | step {n : Nat} {v w : α} : Steps src n v → valid v = true → w ∈ adj v →
      Steps src (n + 1) w

/-- The shortest such path has `n` steps. -/
def AtDistance (src : α) (n : Nat) (w : α) : Prop :=
  Steps valid adj src n w ∧ ∀ m, Steps valid adj src m w → n ≤ m

section

variable [DecidableEq α]

/-- Queue a node and mark it, if it is not marked. -/
def offer (hops : Nat) (acc : List (α × Nat) × List α) (w : α) : List (α × Nat) × List α :=
  if w ∈ acc.2 then acc else (acc.1 ++ [(w, hops)], acc.2 ++ [w])

/-- The queue and the marked nodes after a node was taken from the queue. -/
def next (hi : Nat) (e : α × Nat) (rest : List (α × Nat)) (visited : List α) :
    List (α × Nat) × List α :=
  if valid e.1 = true ∧ e.2 < hi then (adj e.1).foldl (offer (e.2 + 1)) (rest, visited)
  else (rest, visited)

/-- Whether a node that was taken is emitted. -/
def emits (lo hi : Nat) (e : α × Nat) : Bool := valid e.1 && decide (lo ≤ e.2 ∧ e.2 ≤ hi)

/-- The loop: the nodes that are emitted, with their distances. -/
def loop (lo hi : Nat) : Nat → List (α × Nat) → List α → Option (List (α × Nat))
  | _, [], _ => some []
  | 0, _ :: _, _ => none
  | fuel + 1, e :: rest, visited =>
      let n := next valid adj hi e rest visited
      (loop lo hi fuel n.1 n.2).map ([e].filter (emits valid lo hi) ++ ·)

end

variable {valid adj} {src v w : α} {hi h n : Nat} {nodes visited new : List α}
  {done queue rest : List (α × Nat)}

/-- What holds when `done` has been taken from the queue. -/
structure Inv (valid : α → Bool) (adj : α → List α) (src : α) (hi : Nat) (nodes : List α)
    (done queue : List (α × Nat)) (visited : List α) : Prop where
  marked : visited = (done ++ queue).map Prod.fst
  nodup : visited.Nodup
  known : ∀ w ∈ visited, w ∈ nodes
  source : (src, 0) ∈ done ++ queue
  sorted : (done ++ queue).Pairwise fun a b => a.2 ≤ b.2
  near : ∀ e ∈ queue.head?, ∀ e' ∈ done ++ queue, e'.2 ≤ e.2 + 1
  sound : ∀ e ∈ done ++ queue, Steps valid adj src e.2 e.1
  closed : ∀ e ∈ done, valid e.1 = true → e.2 < hi → ∀ w ∈ adj e.1,
    ∃ k, k ≤ e.2 + 1 ∧ (w, k) ∈ done ++ queue

namespace Inv

theorem initial (h : src ∈ nodes) : Inv valid adj src hi nodes [] [(src, 0)] [src] where
  marked := rfl
  nodup := List.nodup_singleton src
  known w hw := by rwa [List.mem_singleton.mp hw]
  source := List.mem_singleton_self _
  sorted := List.pairwise_singleton ..
  near e he e' he' := by
    cases he
    rw [List.mem_singleton.mp he']
    exact Nat.zero_le _
  sound e he := by
    rw [List.mem_singleton.mp he]
    exact .start
  closed e he := by cases he

/-- One node is taken from the queue, and `new` is queued. -/
theorem step (hinv : Inv valid adj src hi nodes done ((v, h) :: rest) visited)
    (hnodup : new.Nodup) (hfresh : ∀ w ∈ new, w ∉ visited) (hknown : ∀ w ∈ new, w ∈ nodes)
    (hsteps : ∀ w ∈ new, Steps valid adj src (h + 1) w)
    (hall : valid v = true → h < hi → ∀ w ∈ adj v, w ∈ visited ++ new) :
    Inv valid adj src hi nodes (done ++ [(v, h)]) (rest ++ new.map (·, h + 1))
      (visited ++ new) := by
  have hlist : (done ++ [(v, h)]) ++ (rest ++ new.map (·, h + 1)) =
      (done ++ (v, h) :: rest) ++ new.map (·, h + 1) := by
    simp only [List.append_assoc, List.cons_append, List.nil_append]
  have hold : ∀ e ∈ done ++ (v, h) :: rest, e.2 ≤ h + 1 := hinv.near _ rfl
  have hle : ∀ e ∈ (done ++ (v, h) :: rest) ++ new.map (·, h + 1), e.2 ≤ h + 1 := by
    intro e he
    rcases List.mem_append.mp he with he | he
    · exact hold e he
    · obtain ⟨w, -, rfl⟩ := List.mem_map.mp he
      exact Nat.le_refl _
  have hmark : visited ++ new = ((done ++ (v, h) :: rest) ++ new.map (·, h + 1)).map Prod.fst := by
    rw [List.map_append, ← hinv.marked, List.map_map]
    exact congrArg _ (List.map_id' new).symm
  constructor
  · rw [hlist, hmark]
  · exact List.nodup_append.mpr ⟨hinv.nodup, hnodup, fun a ha b hb hab =>
      hfresh b hb (hab ▸ ha)⟩
  · intro w hw
    exact (List.mem_append.mp hw).elim (hinv.known w) (hknown w)
  · rw [hlist]
    exact List.mem_append_left _ hinv.source
  · rw [hlist]
    refine List.pairwise_append.mpr ⟨hinv.sorted, List.pairwise_map.mpr ?_, fun e he e' he' => ?_⟩
    · exact List.pairwise_of_forall fun _ _ => Nat.le_refl _
    · obtain ⟨w, -, rfl⟩ := List.mem_map.mp he'
      exact hold e he
  · -- the new head is not below the node that was taken
    intro e he e' he'
    rw [hlist] at he'
    have hhead : h ≤ e.2 := by
      have hmem : e ∈ rest ++ new.map (·, h + 1) := List.mem_of_mem_head? he
      rcases List.mem_append.mp hmem with hmem | hmem
      · have hs := (List.pairwise_append.mp hinv.sorted).2.1
        exact (List.pairwise_cons.mp hs).1 e hmem
      · obtain ⟨w, -, rfl⟩ := List.mem_map.mp hmem
        exact Nat.le_succ h
    exact Nat.le_trans (hle e' he') (Nat.succ_le_succ hhead)
  · rw [hlist]
    intro e he
    rcases List.mem_append.mp he with he | he
    · exact hinv.sound e he
    · obtain ⟨w, hw, rfl⟩ := List.mem_map.mp he
      exact hsteps w hw
  · rw [hlist]
    intro e he hvalid hhi w hw
    rcases List.mem_append.mp he with he | he
    · obtain ⟨k, hk, hmem⟩ := hinv.closed e he hvalid hhi w hw
      exact ⟨k, hk, List.mem_append_left _ hmem⟩
    · cases List.mem_singleton.mp he
      have hmem := hall hvalid hhi w hw
      rw [hmark] at hmem
      obtain ⟨⟨w', k⟩, hin, rfl⟩ := List.mem_map.mp hmem
      exact ⟨k, hle _ hin, hin⟩

/-- When the queue is empty every node at the end of a path that is not too
long has been taken, at the length of the path or before. -/
theorem complete (hinv : Inv valid adj src hi nodes done [] visited)
    (hw : Steps valid adj src n w) (hn : n ≤ hi) : ∃ k, k ≤ n ∧ (w, k) ∈ done := by
  have hdone := List.append_nil done
  induction hw with
  | start =>
      have hsrc := hinv.source
      rw [hdone] at hsrc
      exact ⟨0, Nat.le_refl _, hsrc⟩
  | step hv hvalid hadj ih =>
      obtain ⟨k, hk, hmem⟩ := ih (by omega)
      obtain ⟨k', hk', hmem'⟩ := hinv.closed _ hmem hvalid (by omega) _ hadj
      rw [hdone] at hmem'
      exact ⟨k', by omega, hmem'⟩

/-- A node that was taken was taken at its distance. -/
theorem distance (hinv : Inv valid adj src hi nodes done [] visited)
    (hmem : (w, n) ∈ done) (hn : n ≤ hi) : AtDistance valid adj src n w := by
  have hdone := List.append_nil done
  refine ⟨hinv.sound (w, n) (by rwa [hdone]), fun m hm => ?_⟩
  by_contra hlt
  obtain ⟨k, hk, hmem'⟩ := hinv.complete hm (by omega)
  have hnodup := hinv.nodup
  rw [hinv.marked, hdone] at hnodup
  have heq : (w, n) = (w, k) := List.inj_on_of_nodup_map hnodup hmem hmem' rfl
  cases heq
  omega

end Inv

section

variable [DecidableEq α]

/-- What a node's neighbours add to the queue and to the marked nodes. -/
theorem foldl_offer (ws : List α) (queue : List (α × Nat)) (visited : List α) :
    ∃ new, ws.foldl (offer n) (queue, visited) = (queue ++ new.map (·, n), visited ++ new) ∧
      new.Nodup ∧ (∀ w ∈ new, w ∉ visited) ∧ (∀ w ∈ new, w ∈ ws) ∧
      ∀ w ∈ ws, w ∈ visited ++ new := by
  induction ws generalizing queue visited with
  | nil => exact ⟨[], by simp, .nil, by simp, by simp, by simp⟩
  | cons w ws ih =>
      rw [List.foldl_cons]
      by_cases hw : w ∈ visited
      · obtain ⟨new, heq, hnodup, hfresh, hsub, hall⟩ := ih queue visited
        have hoffer : offer n (queue, visited) w = (queue, visited) := if_pos hw
        refine ⟨new, by rw [hoffer, heq], hnodup, hfresh,
          fun x hx => List.mem_cons_of_mem _ (hsub x hx), fun x hx => ?_⟩
        rcases List.mem_cons.mp hx with rfl | hx
        · exact List.mem_append_left _ hw
        · exact hall x hx
      · obtain ⟨new, heq, hnodup, hfresh, hsub, hall⟩ := ih (queue ++ [(w, n)]) (visited ++ [w])
        have hoffer : offer n (queue, visited) w = (queue ++ [(w, n)], visited ++ [w]) :=
          if_neg hw
        refine ⟨w :: new, ?_, List.nodup_cons.mpr ⟨fun hmem => ?_, hnodup⟩, fun x hx => ?_,
          fun x hx => ?_, fun x hx => ?_⟩
        · rw [hoffer, heq]
          simp
        · exact hfresh w hmem (by simp)
        · rcases List.mem_cons.mp hx with rfl | hx
          · exact hw
          · exact fun h => hfresh x hx (List.mem_append_left _ h)
        · rcases List.mem_cons.mp hx with rfl | hx
          · exact List.mem_cons_self ..
          · exact List.mem_cons_of_mem _ (hsub x hx)
        · rcases List.mem_cons.mp hx with rfl | hx
          · simp
          · simpa using hall x hx

/-- One round of the loop. -/
theorem Inv.next {e : α × Nat} (hclosed : ∀ v ∈ nodes, valid v = true → ∀ w ∈ adj v, w ∈ nodes)
    (hinv : Inv valid adj src hi nodes done (e :: rest) visited) :
    Inv valid adj src hi nodes (done ++ [e]) (next valid adj hi e rest visited).1
      (next valid adj hi e rest visited).2 := by
  obtain ⟨v, h⟩ := e
  have hmem : v ∈ visited := by
    rw [hinv.marked]
    exact List.mem_map.mpr ⟨(v, h), by simp, rfl⟩
  unfold Bfs.next
  split
  · rename_i hexp
    obtain ⟨hv, -⟩ := hexp
    obtain ⟨new, heq, hnodup, hfresh, hsub, hall⟩ := foldl_offer (n := h + 1) (adj v) rest visited
    have hsteps := hinv.sound (v, h) (by simp)
    rw [heq]
    exact hinv.step hnodup hfresh (fun w hw => hclosed v (hinv.known v hmem) hv w (hsub w hw))
      (fun w hw => hsteps.step hv (hsub w hw)) fun _ _ => hall
  · rename_i hexp
    have hnil := hinv.step .nil (fun w hw => absurd hw List.not_mem_nil)
      (fun w hw => absurd hw List.not_mem_nil) (fun w hw => absurd hw List.not_mem_nil)
      fun hv hh => absurd ⟨hv, hh⟩ hexp
    rwa [List.map_nil, List.append_nil, List.append_nil] at hnil

/-- The loop goes on until the queue is empty. -/
theorem loop_of_inv {lo fuel : Nat} (hclosed : ∀ v ∈ nodes, valid v = true → ∀ w ∈ adj v, w ∈ nodes)
    (hinv : Inv valid adj src hi nodes done queue visited)
    (hfuel : nodes.length ≤ fuel + done.length) :
    ∃ out done' visited', loop valid adj lo hi fuel queue visited = some out ∧
      Inv valid adj src hi nodes done' [] visited' ∧
      done'.filter (emits valid lo hi) = done.filter (emits valid lo hi) ++ out := by
  induction fuel generalizing done queue visited with
  | zero =>
      cases queue with
      | nil => exact ⟨[], done, visited, by rw [loop], hinv, by rw [List.append_nil]⟩
      | cons e rest =>
          -- more nodes would be marked than there are
          have hlen := (hinv.nodup.subperm hinv.known).length_le
          rw [hinv.marked, List.length_map, List.length_append, List.length_cons] at hlen
          omega
  | succ fuel ih =>
      cases queue with
      | nil => exact ⟨[], done, visited, by rw [loop], hinv, by rw [List.append_nil]⟩
      | cons e rest =>
          obtain ⟨out, done', visited', hloop, hinv', hout⟩ := ih (hinv.next hclosed)
            (by rw [List.length_append, List.length_singleton]; omega)
          refine ⟨[e].filter (emits valid lo hi) ++ out, done', visited', ?_, hinv', ?_⟩
          · simp only [loop, hloop, Option.map_some]
          · rw [hout, List.filter_append, List.append_assoc]

/-- The search emits exactly the valid nodes at a distance from `lo` to `hi`,
each of them once. -/
theorem loop_correct {lo fuel : Nat} (hsrc : src ∈ nodes)
    (hclosed : ∀ v ∈ nodes, valid v = true → ∀ w ∈ adj v, w ∈ nodes)
    (hfuel : nodes.length ≤ fuel) :
    ∃ out, loop valid adj lo hi fuel [(src, 0)] [src] = some out ∧
      (out.map Prod.fst).Nodup ∧ out.Pairwise (fun a b => a.2 ≤ b.2) ∧
      ∀ w n, (w, n) ∈ out ↔
        valid w = true ∧ AtDistance valid adj src n w ∧ lo ≤ n ∧ n ≤ hi := by
  obtain ⟨out, done, visited, hloop, hinv, hout⟩ :=
    @loop_of_inv α valid adj src hi nodes [src] [] [(src, 0)] _ lo fuel hclosed
    (.initial hsrc) hfuel
  have hdone := List.append_nil done
  have hmarked := hinv.marked
  have hsorted := hinv.sorted
  rw [hdone] at hmarked hsorted
  rw [List.filter_nil, List.nil_append] at hout
  have hnodup := hinv.nodup
  rw [hmarked] at hnodup
  refine ⟨out, hloop, ?_, ?_, fun w n => ?_⟩
  · rw [← hout]
    exact hnodup.sublist (List.filter_sublist.map _)
  · rw [← hout]
    exact hsorted.sublist List.filter_sublist
  · rw [← hout, List.mem_filter, emits, Bool.and_eq_true, decide_eq_true_iff]
    constructor
    · rintro ⟨hmem, hv, hlo, hhi⟩
      exact ⟨hv, hinv.distance hmem hhi, hlo, hhi⟩
    · rintro ⟨hv, hdist, hlo, hhi⟩
      obtain ⟨k, hk, hmem⟩ := hinv.complete hdist.1 hhi
      have hle := hdist.2 k (hinv.sound (w, k) (by rwa [hdone]))
      obtain rfl : k = n := by omega
      exact ⟨hmem, hv, hlo, hhi⟩

end

end Bfs
