import Poseidon.Lib.Frontier
import Poseidon.Proofs.VisibleGraph

/-!
# Breadth-first search visits in the order of the distances

`path_bfs` on a visible graph, round by round: the entries of the frontier are
those of `Frontier`, and an entry whose node is marked is dropped. `bfs` does
the same without the paths.
-/

namespace Poseidon

open Wp Frontier

section

variable {s s1 : GraphDb} {xid start : Nat} {both : Bool} {rpred : RshipPredicate}
  {adj : Nat → List Link} {queue done : List (Path × Nat)} {visited : List Nat}

/-- What holds of the search when `done` has been visited. -/
structure Visiting (s : GraphDb) (xid : Nat) (both : Bool) (rpred : RshipPredicate)
    (start : Nat) (done queue : List (Path × Nat)) (visited : List Nat) : Prop where
  inv : Inv (s.Follows xid both rpred) start done queue
  marked : ∀ v, v ∈ visited ↔ v ∈ done.map Prod.snd
  nodup : (done.map Prod.snd).Nodup
  shortest : ∀ e ∈ done, Shortest (s.Follows xid both rpred) start e.1 e.2
  nodes : ∀ e ∈ queue, s.HasNode xid e.2

/-- The entries that a node adds to the frontier. -/
def entries (p : Path) (links : List Link) : List (Path × Nat) :=
  links.map fun l => (p ++ [l.nid], l.nid)

theorem GraphDb.VisibleGraph.hasNode_of_follows {v w : Nat} (hg : s.VisibleGraph xid)
    (h : s.Follows xid both rpred v w) : s.HasNode xid w := by
  obtain ⟨l, ⟨hrship, -, hends⟩, rfl⟩ := h
  obtain ⟨hsrc, hdest⟩ := hg.ends _ _ hrship
  rcases hends with ⟨-, hnid⟩ | ⟨-, -, hnid⟩
  · exact hnid ▸ hdest
  · exact hnid ▸ hsrc

theorem GraphDb.Presents.follows_iff {v w : Nat} (hp : s.Presents xid both rpred adj)
    (hv : s.HasNode xid v) : s.Follows xid both rpred v w ↔ ∃ l ∈ adj v, l.nid = w :=
  exists_congr fun l => and_congr_left fun _ => (hp.mem v hv l).symm

/-- A node has a slot below the size of the vector. -/
theorem GraphDb.VisibleGraph.lt_size {v : Nat} (hg : s.VisibleGraph xid) (hv : s.HasNode xid v) :
    v ∈ List.range s.nodes.size := by
  obtain ⟨l, o, hseen⟩ := hv
  exact List.mem_range.mpr (hg.nodeSlots v (Table.seen_iff.mp hseen).1)

namespace Visiting

variable {e : Path × Nat} {rest : List (Path × Nat)}

theorem initial (both : Bool) (rpred : RshipPredicate) (hstart : s.HasNode xid start) :
    Visiting s xid both rpred start [] [([start], start)] [] where
  inv := .initial _ start
  marked v := Iff.rfl
  nodup := List.nodup_nil
  shortest e he := by cases he
  nodes e he := by rwa [List.mem_singleton.mp he]

theorem drop (h : Visiting s xid both rpred start done (e :: rest) visited)
    (hmark : e.2 ∈ visited) : Visiting s xid both rpred start done rest visited where
  inv := h.inv.drop (List.mem_map.mp ((h.marked _).mp hmark))
  marked := h.marked
  nodup := h.nodup
  shortest := h.shortest
  nodes a ha := h.nodes a (List.mem_cons_of_mem _ ha)

theorem visit (h : Visiting s xid both rpred start done (e :: rest) visited)
    (hg : s.VisibleGraph xid) (hp : s.Presents xid both rpred adj) (hmark : e.2 ∉ visited) :
    Visiting s xid both rpred start (done ++ [e]) (rest ++ entries e.1 (adj e.2))
      (e.2 :: visited) := by
  have hnode := h.nodes e (List.mem_cons_self ..)
  have hfresh : ∀ a ∈ done, a.2 ≠ e.2 := fun a ha hae =>
    hmark ((h.marked _).mpr (hae ▸ List.mem_map_of_mem ha))
  constructor
  · refine h.inv.expand (fun n hn => ?_) fun w hw => ?_
    · obtain ⟨l, hl, rfl⟩ := List.mem_map.mp hn
      exact ⟨l.nid, rfl, (hp.follows_iff hnode).mpr ⟨l, hl, rfl⟩⟩
    · obtain ⟨l, hl, rfl⟩ := (hp.follows_iff hnode).mp hw
      refine ⟨_, List.mem_append_right _ (List.mem_map_of_mem hl), rfl, ?_⟩
      exact Nat.le_of_eq List.length_append
  · intro v
    rw [List.map_append, List.mem_append, List.mem_cons, h.marked, or_comm]
    exact or_congr_right List.mem_singleton.symm
  · rw [List.map_append]
    refine List.nodup_append.mpr ⟨h.nodup, List.nodup_singleton _, fun a ha b hb hab => ?_⟩
    obtain ⟨x, hx, rfl⟩ := List.mem_map.mp ha
    exact hfresh x hx (hab.trans (List.mem_singleton.mp hb))
  · intro a ha
    rcases List.mem_append.mp ha with ha | ha
    · exact h.shortest a ha
    · rw [List.mem_singleton.mp ha]
      exact h.inv.shortest hfresh
  · intro a ha
    rcases List.mem_append.mp ha with ha | ha
    · exact h.nodes a (List.mem_cons_of_mem _ ha)
    · obtain ⟨l, hl, rfl⟩ := List.mem_map.mp ha
      exact hg.hasNode_of_follows ((hp.follows_iff hnode).mpr ⟨l, hl, rfl⟩)

end Visiting

/-- The loop visits what is left to visit. -/
theorem pathBfsLoop_ok (hg : s.VisibleGraph xid) (hp : s.Presents xid both rpred adj) {n : Nat}
    (h : Visiting s xid both rpred start done queue visited) (hreads : Reads xid s s1)
    (hn : queue.length + pending (fun v => (adj v).length) (List.range s.nodes.size) visited ≤ n) :
    ∃ out s2 visited', (∀ fuel, n ≤ fuel → pathBfsLoop xid both rpred fuel (queue.map Prod.fst)
        visited s1 = .ok (out.map fun e => (s.nodeRef xid e.2, e.1)) s2) ∧
      Visiting s xid both rpred start (done ++ out) [] visited' := by
  induction n generalizing queue done visited s1 with
  | zero =>
      obtain rfl := List.length_eq_zero_iff.mp (Nat.eq_zero_of_add_eq_zero (Nat.le_zero.mp hn)).1
      refine ⟨[], s1, visited, fun fuel _ => ?_, by rwa [List.append_nil]⟩
      cases fuel <;> rfl
  | succ n ih =>
      cases queue with
      | nil =>
          refine ⟨[], s1, visited, fun fuel _ => ?_, by rwa [List.append_nil]⟩
          cases fuel <;> rfl
      | cons e rest =>
          have hback : Path.back e.1 = e.2 := (h.inv.sound e (by simp)).getLastD 0
          rw [List.length_cons] at hn
          by_cases hmark : e.2 ∈ visited
          · obtain ⟨out, s2, visited', hloop, hout⟩ := ih (h.drop hmark) hreads (by omega)
            refine ⟨out, s2, visited', fun fuel hfuel => ?_, hout⟩
            obtain ⟨fuel, rfl⟩ := Nat.exists_eq_add_of_le'
              (Nat.lt_of_lt_of_le (Nat.succ_pos n) hfuel)
            rw [List.map_cons, pathBfsLoop, hback, if_pos hmark]
            exact hloop fuel (Nat.le_of_succ_le_succ hfuel)
          · have hnode := h.nodes e (List.mem_cons_self ..)
            obtain ⟨s2, hreads2, hexpand⟩ := hp.expand e.2 hnode s1 hreads
            have hpend : pending (fun v => (adj v).length) _ (e.2 :: visited) + (adj e.2).length =
                _ := pending_cons List.nodup_range (hg.lt_size hnode) hmark
            obtain ⟨out, s3, visited', hloop, hout⟩ := ih (h.visit hg hp hmark) hreads2 (by
              rw [List.length_append, entries, List.length_map]
              omega)
            refine ⟨e :: out, s3, visited', fun fuel hfuel => ?_, by
              rwa [List.append_assoc] at hout⟩
            obtain ⟨fuel, rfl⟩ := Nat.exists_eq_add_of_le'
              (Nat.lt_of_lt_of_le (Nat.succ_pos n) hfuel)
            have hrest := hloop fuel (Nat.le_of_succ_le_succ hfuel)
            rw [List.map_append, entries, List.map_map] at hrest
            rw [List.map_cons, pathBfsLoop, hback, if_neg hmark, hexpand]
            exact bind_ok hrest

/-- `bfs` does what `path_bfs` does. -/
theorem bfsLoop_eq (fuel : Nat) (queue : List Path) (visited : List Nat) :
    bfsLoop xid both rpred fuel (queue.map Path.back) visited =
      (List.map Prod.fst <$> pathBfsLoop xid both rpred fuel queue visited) := by
  induction fuel generalizing queue visited with
  | zero => cases queue <;> rfl
  | succ fuel ih =>
      cases queue with
      | nil => rfl
      | cons p queue =>
          rw [List.map_cons, bfsLoop, pathBfsLoop]
          by_cases hmark : p.back ∈ visited
          · rw [if_pos hmark, if_pos hmark, ih]
          · rw [if_neg hmark, if_neg hmark]
            simp only [map_bind, map_pure]
            refine bind_congr fun n => bind_congr fun links => ?_
            have hqueue : queue.map Path.back ++ links.map Link.nid =
                (queue ++ links.map fun l => p ++ [l.nid]).map Path.back := by
              rw [List.map_append, List.map_map]
              refine congrArg _ (List.map_congr_left fun l _ => ?_)
              exact (Path.back_concat p l.nid).symm
            rw [hqueue, ih]
            simp only [bind_map_left, List.map_cons]

end

/-- Breadth-first search: with enough fuel `path_bfs` and `bfs` return, and
they visit the nodes that are reachable over accepted relationships, each
once, in the order of the distances, and with shortest walks. -/
theorem bfs_visits (s : GraphDb) (xid start : Nat) (both : Bool) (rpred : RshipPredicate)
    (hg : s.VisibleGraph xid) (hstart : s.HasNode xid start) :
    ∃ visits : List (Path × Nat), BreadthFirst (s.Follows xid both rpred) start visits ∧
      ∃ n, ∀ fuel, n ≤ fuel →
        (∃ s', pathBfs xid both rpred fuel start s =
          .ok (visits.map fun e => (s.nodeRef xid e.2, e.1)) s') ∧
        ∃ s', bfs xid both rpred fuel start s =
          .ok (visits.map fun e => s.nodeRef xid e.2) s' := by
  obtain ⟨adj, hp⟩ := hg.presents both rpred
  obtain ⟨out, s2, visited, hloop, hout⟩ :=
    pathBfsLoop_ok hg hp (.initial both rpred hstart) (.refl xid s) (Nat.le_refl _)
  rw [List.nil_append] at hout
  refine ⟨out, hout.inv.breadthFirst hout.nodup hout.shortest, _, fun fuel hfuel =>
    ⟨⟨s2, hloop fuel hfuel⟩, s2, ?_⟩⟩
  have hbfs := congrFun (@bfsLoop_eq xid both rpred fuel [[start]] []) s
  refine hbfs.trans ((map_ok (hloop fuel hfuel)).trans ?_)
  rw [List.map_map]
  rfl

end Poseidon
