import Poseidon.Analytics.ShortestPath
import Poseidon.Proofs.CommittedGraph

/-!
# Unweighted shortest paths

The unweighted searches mark a node when it is queued. Their entries are those
of `Frontier`, the distance of a node is one less than the length of its
entries, and a consumer queues the nodes of some of the links it is given.
-/

namespace Poseidon

open Wp Frontier

section

variable {W : Type} {s s1 : GraphDb} {xid start stop : Nat} {both : Bool} {rpred : RshipPredicate}
  {adj : Nat → List Link} {queue done : List (Path × Nat)} {st st' : HopSearch} {u : Path}
  {links : List Link} {ws : List Nat}

/-- The consumer has queued the nodes `ws` behind the path `u`. -/
structure HopSearch.Pushed (stop : Nat) (u : Path) (links : List Link) (st st' : HopSearch)
    (ws : List Nat) : Prop where
  frontier : st'.frontier = st.frontier ++ ws.map fun w => u ++ [w]
  visited : ∀ v, v ∈ st'.visited ↔ v ∈ st.visited ∨ v ∈ ws
  distance : ∀ v, st'.distance v = if v ∈ ws then st.distance u.back + 1 else st.distance v
  found : st'.found = (st.found || decide (stop ∈ ws))
  linked : ∀ w ∈ ws, ∃ l ∈ links, l.nid = w
  all : ∀ l ∈ links, l.nid ∈ st'.visited

namespace HopSearch

@[simp] theorem push_frontier (w : Nat) :
    (st.push u w).frontier = st.frontier ++ [u ++ [w]] := rfl

@[simp] theorem push_visited (w : Nat) : (st.push u w).visited = w :: st.visited := rfl

@[simp] theorem push_found (w : Nat) : (st.push u w).found = st.found := rfl

theorem push_distance (w v : Nat) : (st.push u w).distance v =
    if v = w then st.distance u.back + 1 else st.distance v := by
  simp only [push, Function.update_apply]

namespace Pushed

theorem nil (stop : Nat) (u : Path) (st : HopSearch) : Pushed stop u [] st st [] where
  frontier := (List.append_nil _).symm
  visited v := by simp
  distance v := by simp
  found := by simp
  linked w hw := by cases hw
  all l hl := by cases hl

/-- A link whose node is marked and not queued. -/
theorem skip {l : Link} (hl : l.nid ∈ st.visited) (h : Pushed stop u links st st' ws) :
    Pushed stop u (l :: links) st st' ws where
  frontier := h.frontier
  visited := h.visited
  distance := h.distance
  found := h.found
  linked w hw := by
    obtain ⟨l', hl', hnid⟩ := h.linked w hw
    exact ⟨l', List.mem_cons_of_mem _ hl', hnid⟩
  all l' hl' := by
    rcases List.mem_cons.mp hl' with rfl | hl'
    · exact (h.visited _).mpr (.inl hl)
    · exact h.all l' hl'

/-- A link whose node is queued. -/
theorem push {l : Link} {st1 : HopSearch} (hback : l.nid ≠ u.back)
    (hst1 : st1 = if l.nid = stop then { st.push u l.nid with found := true }
      else st.push u l.nid)
    (h : Pushed stop u links st1 st' ws) : Pushed stop u (l :: links) st st' (l.nid :: ws) := by
  have hfrontier : st1.frontier = st.frontier ++ [u ++ [l.nid]] := by
    rw [hst1]
    split <;> rfl
  have hvisited : st1.visited = l.nid :: st.visited := by
    rw [hst1]
    split <;> rfl
  have hdistance : ∀ v, st1.distance v =
      if v = l.nid then st.distance u.back + 1 else st.distance v := by
    intro v
    rw [hst1, ← push_distance]
    split <;> rfl
  constructor
  · rw [h.frontier, hfrontier, List.append_assoc]
    rfl
  · intro v
    rw [h.visited, hvisited, List.mem_cons, List.mem_cons]
    tauto
  · intro v
    rw [h.distance, hdistance, hdistance, if_neg (Ne.symm hback)]
    by_cases hv : v ∈ ws
    · rw [if_pos hv, if_pos (List.mem_cons_of_mem _ hv)]
    · rw [if_neg hv]
      by_cases hvl : v = l.nid
      · rw [if_pos hvl, if_pos (hvl ▸ List.mem_cons_self ..)]
      · rw [if_neg hvl, if_neg (by simp [hvl, hv])]
  · rw [h.found, hst1]
    by_cases hl : l.nid = stop
    · simp [hl]
    · have hl' : stop ≠ l.nid := fun h => hl h.symm
      simp [hl, hl']
  · intro w hw
    rcases List.mem_cons.mp hw with rfl | hw
    · exact ⟨l, List.mem_cons_self .., rfl⟩
    · obtain ⟨l', hl', hnid⟩ := h.linked w hw
      exact ⟨l', List.mem_cons_of_mem _ hl', hnid⟩
  · intro l' hl'
    rcases List.mem_cons.mp hl' with rfl | hl'
    · rw [h.visited, hvisited]
      exact .inl (List.mem_cons_self ..)
    · exact h.all l' hl'

end Pushed

end HopSearch

/-- What holds of an unweighted search when `done` has been expanded. -/
structure Searching (s : GraphDb) (xid : Nat) (both : Bool) (rpred : RshipPredicate)
    (start : Nat) (done queue : List (Path × Nat)) (st : HopSearch) : Prop where
  inv : Inv (s.Follows xid both rpred) start done queue
  frontier : st.frontier = queue.map Prod.fst
  marked : ∀ v, v ∈ st.visited ↔ ∃ e ∈ done ++ queue, e.2 = v
  distance : ∀ e ∈ done ++ queue, st.distance e.2 + 1 = e.1.length
  nodes : ∀ e ∈ done ++ queue, s.HasNode xid e.2

/-- The entries of the nodes that a consumer has queued. -/
def queued (p : Path) (ws : List Nat) : List (Path × Nat) := ws.map fun w => (p ++ [w], w)

namespace Searching

variable {e : Path × Nat} {rest : List (Path × Nat)}

theorem initial (both : Bool) (rpred : RshipPredicate) (hstart : s.HasNode xid start) :
    Searching s xid both rpred start [] [([start], start)] (.init start) where
  inv := .initial _ start
  frontier := rfl
  marked v := by simp [HopSearch.init, eq_comm]
  distance e he := by
    rw [List.mem_singleton.mp he]
    simp [HopSearch.init]
  nodes e he := by rwa [List.mem_singleton.mp he]

theorem back_head (h : Searching s xid both rpred start done (e :: rest) st) :
    Path.back e.1 = e.2 :=
  (h.inv.sound e (by simp)).getLastD 0

/-- The entries are not more than the nodes, if each node has one. -/
theorem length_le (h : Searching s xid both rpred start done queue st) (hg : s.VisibleGraph xid)
    (hnodup : ((done ++ queue).map Prod.snd).Nodup) :
    (done ++ queue).length ≤ s.nodes.size := by
  have hsub : (done ++ queue).map Prod.snd ⊆ List.range s.nodes.size := by
    intro v hv
    obtain ⟨a, ha, rfl⟩ := List.mem_map.mp hv
    exact hg.lt_size (h.nodes a ha)
  have hlen := (List.subperm_of_subset hnodup hsub).length_le
  rwa [List.length_map, List.length_range] at hlen

/-- The head is expanded. Nodes that are queued again must be as far away as
the head's neighbours. -/
theorem expand (h : Searching s xid both rpred start done (e :: rest) st)
    (hg : s.VisibleGraph xid) (hp : s.Presents xid both rpred adj)
    {visits : List (Ref × Path)}
    (hpush : HopSearch.Pushed stop e.1 (adj e.2)
      { st with frontier := rest.map Prod.fst, visits := visits } st' ws)
    (hagain : ∀ a ∈ done ++ e :: rest, a.2 ∈ ws → a.1.length = e.1.length + 1) :
    Searching s xid both rpred start (done ++ [e]) (rest ++ queued e.1 ws) st' := by
  have hnode := h.nodes e (by simp)
  have hdist : st.distance e.1.back + 1 = e.1.length := by
    rw [h.back_head]
    exact h.distance e (by simp)
  have hlist : (done ++ [e]) ++ (rest ++ queued e.1 ws) = (done ++ e :: rest) ++ queued e.1 ws := by
    simp only [List.append_assoc, List.cons_append, List.nil_append]
  have hmarked : ∀ v, v ∈ st'.visited ↔ ∃ a ∈ (done ++ e :: rest) ++ queued e.1 ws, a.2 = v := by
    intro v
    rw [hpush.visited, h.marked]
    simp only [List.mem_append (s := done ++ e :: rest), or_and_right, exists_or]
    refine or_congr_right ⟨fun hv => ⟨_, List.mem_map_of_mem hv, rfl⟩, ?_⟩
    rintro ⟨a, ha, rfl⟩
    obtain ⟨w, hw, rfl⟩ := List.mem_map.mp ha
    exact hw
  constructor
  · refine h.inv.expand (fun n hn => ?_) fun w hw => ?_
    · obtain ⟨w, hw, rfl⟩ := List.mem_map.mp hn
      exact ⟨w, rfl, (hp.follows_iff hnode).mpr (hpush.linked w hw)⟩
    · obtain ⟨l, hl, rfl⟩ := (hp.follows_iff hnode).mp hw
      obtain ⟨a, ha, hal⟩ := (hmarked _).mp (hpush.all l hl)
      refine ⟨a, ha, hal, ?_⟩
      rcases List.mem_append.mp ha with ha | ha
      · exact h.inv.le_succ a ha
      · obtain ⟨w, -, rfl⟩ := List.mem_map.mp ha
        exact Nat.le_of_eq List.length_append
  · rw [hpush.frontier, List.map_append, queued, List.map_map]
    rfl
  · rw [hlist]
    exact hmarked
  · rw [hlist]
    intro a ha
    rw [hpush.distance]
    rcases List.mem_append.mp ha with ha | ha
    · split
      · rename_i haw
        rw [hagain a ha haw, ← hdist]
      · exact h.distance a ha
    · obtain ⟨w, hw, rfl⟩ := List.mem_map.mp ha
      rw [if_pos hw, List.length_append, List.length_singleton, ← hdist]
  · rw [hlist]
    intro a ha
    rcases List.mem_append.mp ha with ha | ha
    · exact h.nodes a ha
    · obtain ⟨w, hw, rfl⟩ := List.mem_map.mp ha
      exact hg.hasNode_of_follows ((hp.follows_iff hnode).mpr (hpush.linked w hw))

end Searching

/-! ## One shortest path -/

theorem unweightedLoop_nil {fuel : Nat} (h : st.frontier = []) (spath : PathItem W) :
    unweightedLoop xid both rpred stop fuel st spath = pure (false, st, spath) := by
  cases fuel <;> simp only [unweightedLoop, h]

theorem unweightedLoop_cons {fuel : Nat} {p : Path} {ps : List Path} (h : st.frontier = p :: ps)
    (spath : PathItem W) : unweightedLoop xid both rpred stop (fuel + 1) st spath = (do
      let n ← nodeById xid p.back
      let links ← acceptedLinks xid both rpred n
      let r := links.foldl (HopSearch.meet stop p)
        ({ st with frontier := ps, visits := st.visits ++ [(n, p)] }, spath)
      if r.1.found then return (true, r)
      else unweightedLoop xid both rpred stop fuel r.1 r.2) := by
  rw [unweightedLoop.eq_def]
  simp only [h]

/-- When the queue is empty there is no path to a node that is not marked. -/
theorem Searching.unreachable (h : Searching s xid both rpred start done [] st)
    (hstop : stop ∉ st.visited) (spath : PathItem W) (s1 : GraphDb) (n : Nat) :
    ∃ r s2, (∀ fuel, n ≤ fuel →
        unweightedLoop xid both rpred stop fuel st spath s1 = .ok r s2) ∧
      (r.1 = true ↔ ∃ p, Walk (s.Follows xid both rpred) start p stop) ∧
      (r.1 = true → Shortest (s.Follows xid both rpred) start r.2.2.path stop ∧
        r.2.2.path.length = r.2.2.hops + 1) := by
  refine ⟨(false, st, spath), s1, fun fuel _ => ?_, ⟨fun h => absurd h Bool.false_ne_true, ?_⟩,
    fun h => absurd h Bool.false_ne_true⟩
  · rw [unweightedLoop_nil h.frontier]
    rfl
  · rintro ⟨p, hp⟩
    obtain ⟨e, he, hev, -⟩ := h.inv.reached hp fun e he => absurd he List.not_mem_nil
    exact absurd ((h.marked stop).mpr ⟨e, he, hev⟩) hstop

/-- The links of a node in `unweighted_shortest_path`: the nodes that were not
marked are queued, and the stop node ends the search. -/
theorem foldl_meet (hback : u.back ∈ st.visited) (spath : PathItem W) :
    ∃ st' ws, HopSearch.Pushed stop u links st st' ws ∧ ws.Nodup ∧ (∀ w ∈ ws, w ∉ st.visited) ∧
      links.foldl (HopSearch.meet stop u) (st, spath) = (st', if stop ∈ ws then
        { spath with path := u ++ [stop], hops := st.distance u.back + 1 } else spath) := by
  induction links generalizing st spath with
  | nil =>
      refine ⟨st, [], .nil stop u st, List.nodup_nil, fun w hw => absurd hw List.not_mem_nil, ?_⟩
      rw [if_neg List.not_mem_nil]
      rfl
  | cons l links ih =>
      rw [List.foldl_cons]
      by_cases hl : l.nid ∈ st.visited
      · obtain ⟨st', ws, hpush, hnodup, hfresh, hfold⟩ := ih hback spath
        refine ⟨st', ws, hpush.skip hl, hnodup, hfresh, ?_⟩
        rw [HopSearch.meet, if_pos hl, hfold]
      · have hne : l.nid ≠ u.back := fun h => hl (h ▸ hback)
        let st1 := if l.nid = stop then { st.push u l.nid with found := true } else st.push u l.nid
        let spath1 := if l.nid = stop then
          { spath with path := u ++ [stop], hops := st.distance u.back + 1 } else spath
        have hvisited : st1.visited = l.nid :: st.visited := by
          simp only [st1]
          split <;> rfl
        have hdist : st1.distance u.back = st.distance u.back := by
          have hpush := st.push_distance (u := u) l.nid u.back
          rw [if_neg (Ne.symm hne)] at hpush
          rw [← hpush]
          simp only [st1]
          split <;> rfl
        have hmeet : HopSearch.meet stop u (st, spath) l = (st1, spath1) := by
          rw [HopSearch.meet, if_neg hl]
          by_cases hstop : l.nid = stop
          · simp only [st1, spath1, if_pos hstop, HopSearch.push_distance, hstop, if_true]
          · simp only [st1, spath1, if_neg hstop]
        obtain ⟨st', ws, hpush, hnodup, hfresh, hfold⟩ :=
          @ih st1 (hvisited ▸ List.mem_cons_of_mem _ hback) spath1
        have hnotin : l.nid ∉ ws := fun h => hfresh _ h (hvisited ▸ List.mem_cons_self ..)
        refine ⟨st', l.nid :: ws, hpush.push hne rfl, List.nodup_cons.mpr ⟨hnotin, hnodup⟩,
          fun w hw => ?_, ?_⟩
        · rcases List.mem_cons.mp hw with rfl | hw
          · exact hl
          · exact fun h => hfresh w hw (hvisited ▸ List.mem_cons_of_mem _ h)
        · rw [hmeet, hfold, hdist]
          by_cases hstop : l.nid = stop
          · rw [if_neg (hstop ▸ hnotin), if_pos (hstop ▸ List.mem_cons_self ..)]
            simp only [spath1, if_pos hstop]
          · have hiff : stop ∈ l.nid :: ws ↔ stop ∈ ws := by
              simp [show stop ≠ l.nid from fun h => hstop h.symm]
            simp only [hiff, spath1, if_neg hstop]

theorem nodup_queued {e : Path × Nat} {rest : List (Path × Nat)}
    (h : ((done ++ e :: rest).map Prod.snd).Nodup) (hws : ws.Nodup)
    (hnew : ∀ a ∈ done ++ e :: rest, a.2 ∉ ws) :
    (((done ++ [e]) ++ (rest ++ queued e.1 ws)).map Prod.snd).Nodup := by
  have hlist : ((done ++ [e]) ++ (rest ++ queued e.1 ws)).map Prod.snd =
      (done ++ e :: rest).map Prod.snd ++ ws := by
    rw [queued]
    simp [Function.comp_def]
  rw [hlist]
  refine List.nodup_append.mpr ⟨h, hws, fun v hv w hw hvw => ?_⟩
  obtain ⟨a, ha, rfl⟩ := List.mem_map.mp hv
  exact hnew a ha (hvw ▸ hw)

/-- The loop finds a shortest path, if there is a path. -/
theorem unweightedLoop_ok (hg : s.VisibleGraph xid) (hp : s.Presents xid both rpred adj)
    (h : Searching s xid both rpred start done queue st) (hreads : Reads xid s s1)
    (hnodup : ((done ++ queue).map Prod.snd).Nodup) (hstop : stop ∉ st.visited)
    (hfound : st.found = false) (spath : PathItem W) {n : Nat}
    (hn : s.nodes.size ≤ done.length + n) :
    ∃ r s2, (∀ fuel, n ≤ fuel →
        unweightedLoop xid both rpred stop fuel st spath s1 = .ok r s2) ∧
      (r.1 = true ↔ ∃ p, Walk (s.Follows xid both rpred) start p stop) ∧
      (r.1 = true → Shortest (s.Follows xid both rpred) start r.2.2.path stop ∧
        r.2.2.path.length = r.2.2.hops + 1) := by
  induction n generalizing queue done st s1 with
  | zero =>
      have hlen := h.length_le hg hnodup
      rw [List.length_append] at hlen
      obtain rfl := List.length_eq_zero_iff.mp (show queue.length = 0 by omega)
      exact h.unreachable hstop spath s1 0
  | succ n ih =>
      cases queue with
      | nil => exact h.unreachable hstop spath s1 (n + 1)
      | cons e rest =>
          have hnode := h.nodes e (by simp)
          obtain ⟨s2, hreads2, hexpand⟩ := hp.expand e.2 hnode s1 hreads
          have hmark : Path.back e.1 ∈ st.visited := by
            rw [h.back_head, h.marked]
            exact ⟨e, by simp, rfl⟩
          obtain ⟨st', ws, hpush, hws, hfresh, hfold⟩ := @foldl_meet W stop
            { st with
              frontier := rest.map Prod.fst
              visits := st.visits ++ [(s.nodeRef xid e.2, e.1)] } e.1 (adj e.2) hmark spath
          have hnew : ∀ a ∈ done ++ e :: rest, a.2 ∉ ws := fun a ha hw =>
            hfresh a.2 hw ((h.marked _).mpr ⟨a, ha, rfl⟩)
          have hstep := h.expand hg hp hpush fun a ha hw => absurd hw (hnew a ha)
          let item := if stop ∈ ws then
            { spath with path := e.1 ++ [stop], hops := st.distance e.1.back + 1 } else spath
          have hround : ∀ fuel, unweightedLoop xid both rpred stop (fuel + 1) st spath s1 =
              (if st'.found then pure (true, st', item)
                else unweightedLoop xid both rpred stop fuel st' item) s2 := by
            intro fuel
            rw [unweightedLoop_cons (h.frontier.trans List.map_cons)]
            simp only [h.back_head]
            rw [hexpand, hfold]
          by_cases hmet : stop ∈ ws
          · have hfound' : st'.found = true := by
              rw [hpush.found, decide_eq_true hmet, Bool.or_true]
            have hitem : item =
                { spath with path := e.1 ++ [stop], hops := st.distance e.1.back + 1 } :=
              if_pos hmet
            have hfollows := (hp.follows_iff hnode).mpr (hpush.linked stop hmet)
            have hshort := h.inv.shortest_snoc hfollows fun a ha has =>
              absurd (has ▸ hmet) (hnew a ha)
            refine ⟨(true, st', item), s2, fun fuel hfuel => ?_, ⟨fun _ => ⟨_, hshort.1⟩,
              fun _ => rfl⟩, fun _ => ?_⟩
            · obtain ⟨fuel, rfl⟩ :=
                Nat.exists_eq_add_of_le' (Nat.lt_of_lt_of_le (Nat.succ_pos n) hfuel)
              rw [hround, if_pos hfound']
              rfl
            · rw [hitem]
              refine ⟨hshort, ?_⟩
              simp only [List.length_append, List.length_singleton]
              rw [h.back_head, h.distance e (by simp)]
          · have hfound' : st'.found = false := by
              rw [hpush.found, decide_eq_false hmet, Bool.or_false]
              exact hfound
            have hitem : item = spath := if_neg hmet
            have hstop' : stop ∉ st'.visited := by
              rw [hpush.visited]
              exact not_or.mpr ⟨hstop, hmet⟩
            obtain ⟨r, s3, hloop, hreach, hpath⟩ := ih hstep hreads2
              (nodup_queued hnodup hws hnew) hstop' hfound' (by
                rw [List.length_append, List.length_singleton]
                omega)
            refine ⟨r, s3, fun fuel hfuel => ?_, hreach, hpath⟩
            obtain ⟨fuel, rfl⟩ := Nat.exists_eq_add_of_le'
              (Nat.lt_of_lt_of_le (Nat.succ_pos n) hfuel)
            rw [hround, if_neg (by simp [hfound']), hitem]
            exact hloop fuel (Nat.le_of_succ_le_succ hfuel)

end

/-- One unweighted shortest path: with enough fuel the search returns, and it
returns true exactly when `stop` can be reached; then the path is a shortest
one, and the hops are its relationships. -/
theorem unweighted_shortest_path_iff {W : Type} (s : GraphDb) (xid start stop : Nat) (both : Bool)
    (rpred : RshipPredicate) (spath : PathItem W) (hg : s.VisibleGraph xid)
    (hstart : s.HasNode xid start) (hne : stop ≠ start) :
    ∃ (found : Bool) (visits : List (Ref × Path)) (item : PathItem W) (n : Nat),
      (∀ fuel, n ≤ fuel → ∃ s', unweightedShortestPath xid both rpred stop fuel start spath s =
        .ok (found, visits, item) s') ∧
      (found = true ↔ ∃ p, Walk (s.Follows xid both rpred) start p stop) ∧
      (found = true → Shortest (s.Follows xid both rpred) start item.path stop ∧
        item.path.length = item.hops + 1) := by
  obtain ⟨adj, hp⟩ := hg.presents both rpred
  have hstop : stop ∉ (HopSearch.init start).visited := by
    simp [HopSearch.init, hne]
  obtain ⟨r, s', hloop, hreach, hpath⟩ := unweightedLoop_ok hg hp (.initial both rpred hstart)
    (.refl xid s) (by simp) hstop rfl spath (Nat.le_add_left _ _)
  exact ⟨r.1, r.2.1.visits, r.2.2, _, fun fuel hfuel => ⟨s', bind_ok (hloop fuel hfuel)⟩, hreach,
    hpath⟩

theorem unweighted_shortest_path_circle :
    ∃ (found : Bool) (visits : List (Ref × Path)) (item : PathItem Nat) (n : Nat),
      (∀ fuel, n ≤ fuel → ∃ s', unweightedShortestPath 1 true (fun _ _ => true) 1 fuel 0 .new
        GraphDb.circle = .ok (found, visits, item) s') ∧
      (found = true ↔ ∃ p, Walk (GraphDb.circle.Follows 1 true fun _ _ => true) 0 p 1) ∧
      (found = true → Shortest (GraphDb.circle.Follows 1 true fun _ _ => true) 0 item.path 1 ∧
        item.path.length = item.hops + 1) :=
  unweighted_shortest_path_iff GraphDb.circle 1 0 1 true (fun _ _ => true) .new
    (visibleGraph_committed (by decide) (by decide) (by decide))
    ((hasNode_committed (by decide) (by decide)).mpr (by decide)) (by decide)

end Poseidon
