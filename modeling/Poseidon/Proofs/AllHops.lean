import Poseidon.Proofs.HopSearches

/-!
# All unweighted shortest paths

`all_unweighted_shortest_paths` queues the stop node again for each node that
is nearer than it. Each other node has one entry, so the search finds one path
for each node before the stop node, and further shortest paths to such a node
are not followed.
-/

namespace Poseidon

open Wp Frontier

/-- These are the shortest paths, each once and with its hops. -/
structure ExactlyShortest {W : Type} (step : Nat → Nat → Prop) (start stop : Nat)
    (items : List (PathItem W)) : Prop where
  shortest : ∀ i ∈ items, Shortest step start i.path stop ∧ i.path.length = i.hops + 1
  complete : ∀ p, Shortest step start p stop → ∃ i ∈ items, i.path = p
  once : (items.map PathItem.path).Nodup

/-- No two shortest paths come to the stop node from the same node, and none
comes over two relationships. -/
def GraphDb.EntersOnce (s : GraphDb) (xid : Nat) (both : Bool) (rpred : RshipPredicate)
    (start stop : Nat) : Prop :=
  ∀ p p' u l l', Walk (s.Follows xid both rpred) start p u →
    Walk (s.Follows xid both rpred) start p' u →
    Shortest (s.Follows xid both rpred) start (p ++ [stop]) stop →
    Shortest (s.Follows xid both rpred) start (p' ++ [stop]) stop →
    s.HasLink xid both rpred u l → s.HasLink xid both rpred u l' → l.nid = stop → l'.nid = stop →
    p = p' ∧ l = l'

section

variable {W : Type} [Zero W] {s s1 : GraphDb} {xid start stop : Nat} {both : Bool}
  {rpred : RshipPredicate} {adj : Nat → List Link} {queue done : List (Path × Nat)}
  {st st' : HopSearch} {u : Path} {links : List Link} {ws : List Nat}
  {items : List (PathItem W)}

/-- The stop node has not been found, or it is farther away than the end of
the path. -/
def HopSearch.Farther (st : HopSearch) (u : Path) (stop : Nat) : Prop :=
  stop ∉ st.visited ∨ st.distance u.back < st.distance stop

/-- What `all_unweighted_shortest_paths` queues at a node. -/
structure HopSearch.Offered (stop : Nat) (u : Path) (links : List Link) (st : HopSearch)
    (ws : List Nat) : Prop where
  sublist : ws.Sublist (links.map Link.nid)
  fresh : ∀ w ∈ ws, w ≠ stop → w ∉ st.visited
  nodup : (ws.filter (· ≠ stop)).Nodup
  farther : st.Farther u stop → ws.filter (· = stop) = (links.map Link.nid).filter (· = stop)
  nearer : ¬st.Farther u stop → stop ∉ ws

theorem HopSearch.Offered.push {l : Link} {st1 : HopSearch}
    (hskip : ¬(l.nid ∈ st.visited ∧ ¬(l.nid = stop ∧ st.distance u.back < st.distance stop)))
    (hvisited : st1.visited = l.nid :: st.visited)
    (hfarther : st1.Farther u stop ↔ l.nid = stop ∨ st.Farther u stop)
    (h : Offered stop u links st1 ws) : Offered stop u (l :: links) st (l.nid :: ws) where
  sublist := h.sublist.cons_cons _
  fresh w hw hne := by
    rcases List.mem_cons.mp hw with rfl | hw
    · exact fun hmem => hskip ⟨hmem, fun h => hne h.1⟩
    · have hw1 := h.fresh w hw hne
      rw [hvisited] at hw1
      exact fun hmem => hw1 (List.mem_cons_of_mem _ hmem)
  nodup := by
    by_cases hstop : l.nid = stop
    · rw [List.filter_cons_of_neg (by simpa using hstop)]
      exact h.nodup
    · rw [List.filter_cons_of_pos (by simpa using hstop)]
      refine List.nodup_cons.mpr ⟨fun hmem => ?_, h.nodup⟩
      have hl := h.fresh l.nid (List.mem_filter.mp hmem).1 hstop
      rw [hvisited] at hl
      exact hl (List.mem_cons_self ..)
  farther hfar := by
    have hrest := h.farther (hfarther.mpr (.inr hfar))
    rw [List.map_cons]
    by_cases hstop : l.nid = stop
    · rw [List.filter_cons_of_pos (by simpa using hstop),
        List.filter_cons_of_pos (by simpa using hstop), hrest]
    · rw [List.filter_cons_of_neg (by simpa using hstop),
        List.filter_cons_of_neg (by simpa using hstop), hrest]
  nearer hnear := by
    have hstop : l.nid ≠ stop := by
      intro heq
      obtain ⟨hmem, hlt⟩ := not_or.mp hnear
      exact hskip ⟨heq ▸ not_not.mp hmem, fun h => hlt h.2⟩
    have hrest := h.nearer fun hfar => (hfarther.mp hfar).elim hstop hnear
    exact fun hmem => (List.mem_cons.mp hmem).elim (fun heq => hstop heq.symm) hrest

/-- The links of a node in `all_unweighted_shortest_paths`. -/
theorem foldl_meetAll (hback : u.back ∈ st.visited) (items : List (PathItem W)) :
    ∃ st' ws, HopSearch.Pushed stop u links st st' ws ∧ HopSearch.Offered stop u links st ws ∧
      links.foldl (HopSearch.meetAll stop u) (st, items) = (st', items ++
        (ws.filter (· = stop)).map fun w => .counted (u ++ [w]) (st.distance u.back + 1)) := by
  induction links generalizing st items with
  | nil =>
      refine ⟨st, [], .nil stop u st, ⟨.refl _, fun w hw => absurd hw List.not_mem_nil,
        List.nodup_nil, fun _ => rfl, fun _ => List.not_mem_nil⟩, ?_⟩
      exact congrArg _ (List.append_nil items).symm
  | cons l links ih =>
      rw [List.foldl_cons]
      by_cases hskip : l.nid ∈ st.visited ∧
          ¬(l.nid = stop ∧ st.distance u.back < st.distance stop)
      · obtain ⟨st', ws, hpush, hoff, hfold⟩ := ih hback items
        refine ⟨st', ws, hpush.skip hskip.1, ⟨hoff.sublist.cons _, hoff.fresh, hoff.nodup,
          fun hfar => ?_, hoff.nearer⟩, ?_⟩
        · have hne : l.nid ≠ stop := by
            intro heq
            rcases hfar with hfar | hfar
            · exact hfar (heq ▸ hskip.1)
            · exact hskip.2 ⟨heq, hfar⟩
          rw [hoff.farther hfar, List.map_cons, List.filter_cons_of_neg (by simpa using hne)]
        · rw [HopSearch.meetAll, if_pos hskip, hfold]
      · have hne : l.nid ≠ u.back := by
          intro heq
          refine hskip ⟨heq ▸ hback, fun h => ?_⟩
          rw [← heq, h.1] at h
          exact Nat.lt_irrefl _ h.2
        let st1 := if l.nid = stop then { st.push u l.nid with found := true } else st.push u l.nid
        let items1 := if l.nid = stop then
          items ++ [.counted (u ++ [l.nid]) (st.distance u.back + 1)] else items
        have hvisited : st1.visited = l.nid :: st.visited := by
          simp only [st1]
          split <;> rfl
        have hdist : ∀ v, st1.distance v =
            if v = l.nid then st.distance u.back + 1 else st.distance v := by
          intro v
          rw [← HopSearch.push_distance]
          simp only [st1]
          split <;> rfl
        have hdistBack : st1.distance u.back = st.distance u.back := by
          rw [hdist, if_neg (Ne.symm hne)]
        have hmeet : HopSearch.meetAll stop u (st, items) l = (st1, items1) := by
          rw [HopSearch.meetAll, if_neg hskip]
          by_cases hstop : l.nid = stop
          · simp only [st1, items1, if_pos hstop, HopSearch.push_distance, if_true]
          · simp only [st1, items1, if_neg hstop]
        have hfarther : st1.Farther u stop ↔ l.nid = stop ∨ st.Farther u stop := by
          rw [HopSearch.Farther, hvisited, hdistBack, hdist, HopSearch.Farther]
          by_cases hstop : l.nid = stop
          · simp [hstop]
          · have hstop' : stop ≠ l.nid := fun h => hstop h.symm
            simp [hstop, hstop']
        obtain ⟨st', ws, hpush, hoff, hfold⟩ :=
          @ih st1 (hvisited ▸ List.mem_cons_of_mem _ hback) items1
        refine ⟨st', l.nid :: ws, hpush.push hne rfl, hoff.push hskip hvisited hfarther, ?_⟩
        rw [hmeet, hfold, hdistBack]
        by_cases hstop : l.nid = stop
        · simp [items1, hstop]
        · simp [items1, hstop]

/-- The paths to the stop node that are found when an entry is expanded. -/
noncomputable def arrivals (step : Nat → Nat → Prop) (start stop : Nat) (adj : Nat → List Link)
    (e : Path × Nat) : List Path :=
  open Classical in
  if Shortest step start (e.1 ++ [stop]) stop then
    ((adj e.2).filter (·.nid = stop)).map fun _ => e.1 ++ [stop]
  else []

/-- What holds of the search when `done` has been expanded. -/
structure AllSearching (s : GraphDb) (xid : Nat) (both : Bool) (rpred : RshipPredicate)
    (start stop : Nat) (adj : Nat → List Link) (done queue : List (Path × Nat)) (st : HopSearch)
    (items : List (PathItem W)) : Prop where
  search : Searching s xid both rpred start done queue st
  single : (((done ++ queue).filter (·.2 ≠ stop)).map Prod.snd).Nodup
  items : items = ((done ++ queue).filter (·.2 = stop)).map fun e =>
    .counted e.1 (e.1.length - 1)
  arrived : ((done ++ queue).filter (·.2 = stop)).map Prod.fst =
    done.flatMap (arrivals (s.Follows xid both rpred) start stop adj)

namespace AllSearching

variable {e : Path × Nat} {rest : List (Path × Nat)}

/-- All entries of the stop node are longer than an entry that is nearer. -/
theorem le_of_farther (h : AllSearching s xid both rpred start stop adj done (e :: rest) st items)
    (hfar : st.Farther e.1 stop) :
    ∀ a ∈ done ++ e :: rest, a.2 = stop → e.1.length + 1 ≤ a.1.length := by
  intro a ha has
  have hmark : stop ∈ st.visited := (h.search.marked stop).mpr ⟨a, ha, has⟩
  have hlt := hfar.resolve_left fun hmem => hmem hmark
  have hdist := h.search.distance a ha
  have hdistE := h.search.distance e (by simp)
  rw [h.search.back_head] at hlt
  rw [has] at hdist
  omega

/-- What is queued for the stop node. -/
theorem arrivals_head (h : AllSearching s xid both rpred start stop adj done (e :: rest) st items)
    (hp : s.Presents xid both rpred adj)
    (hoff : HopSearch.Offered stop e.1 (adj e.2) st ws) :
    arrivals (s.Follows xid both rpred) start stop adj e =
      (ws.filter (· = stop)).map fun w => e.1 ++ [w] := by
  have hnode := h.search.nodes e (by simp)
  rw [arrivals]
  by_cases hfar : st.Farther e.1 stop
  · have hlinks : (ws.filter (· = stop)).map (fun w => e.1 ++ [w]) =
        ((adj e.2).filter (·.nid = stop)).map fun _ => e.1 ++ [stop] := by
      rw [hoff.farther hfar, List.filter_map, List.map_map]
      refine List.map_congr_left fun l hl => ?_
      have hl := (List.mem_filter.mp hl).2
      exact congrArg (fun w => e.1 ++ [w]) (of_decide_eq_true hl)
    by_cases hshort : Shortest (s.Follows xid both rpred) start (e.1 ++ [stop]) stop
    · rw [if_pos hshort, hlinks]
    · rw [if_neg hshort, hlinks]
      have hnone : (adj e.2).filter (·.nid = stop) = [] := by
        refine List.filter_eq_nil_iff.mpr fun l hl hnid => hshort ?_
        exact h.search.inv.shortest_snoc
          ((hp.follows_iff hnode).mpr ⟨l, hl, of_decide_eq_true hnid⟩) (h.le_of_farther hfar)
      rw [hnone]
      rfl
  · have hnone : ws.filter (· = stop) = [] := by
      refine List.filter_eq_nil_iff.mpr fun w hw hws => hoff.nearer hfar ?_
      exact of_decide_eq_true hws ▸ hw
    have hshort : ¬Shortest (s.Follows xid both rpred) start (e.1 ++ [stop]) stop := by
      intro hshort
      obtain ⟨hmark, hlt⟩ := not_or.mp hfar
      obtain ⟨a, ha, has⟩ := (h.search.marked stop).mp (not_not.mp hmark)
      have hle := hshort.2 a.1 (has ▸ h.search.inv.sound a ha)
      have hdist := h.search.distance a ha
      have hdistE := h.search.distance e (by simp)
      rw [h.search.back_head] at hlt
      rw [has] at hdist
      rw [List.length_append, List.length_singleton] at hle
      omega
    rw [if_neg hshort, hnone]
    rfl

/-- The head is expanded. -/
theorem expand (h : AllSearching s xid both rpred start stop adj done (e :: rest) st items)
    (hg : s.VisibleGraph xid) (hp : s.Presents xid both rpred adj) {visits : List (Ref × Path)}
    (hpush : HopSearch.Pushed stop e.1 (adj e.2)
      { st with frontier := rest.map Prod.fst, visits := visits } st' ws)
    (hoff : HopSearch.Offered stop e.1 (adj e.2) st ws) :
    AllSearching s xid both rpred start stop adj (done ++ [e]) (rest ++ queued e.1 ws) st'
      (items ++ (ws.filter (· = stop)).map fun w =>
        .counted (e.1 ++ [w]) (st.distance e.1.back + 1)) := by
  have hlist : (done ++ [e]) ++ (rest ++ queued e.1 ws) = (done ++ e :: rest) ++ queued e.1 ws := by
    simp only [List.append_assoc, List.cons_append, List.nil_append]
  have hfilter : ∀ f : Nat → Bool, (queued e.1 ws).filter (fun a => f a.2) =
      queued e.1 (ws.filter f) := by
    intro f
    rw [queued, List.filter_map]
    rfl
  constructor
  · refine h.search.expand hg hp hpush fun a ha hw => ?_
    by_cases hstop : a.2 = stop
    · have hfar : st.Farther e.1 stop := by
        by_contra hnear
        exact hoff.nearer hnear (hstop ▸ hw)
      exact Nat.le_antisymm (h.search.inv.le_succ a ha) (h.le_of_farther hfar a ha hstop)
    · exact absurd ((h.search.marked a.2).mpr ⟨a, ha, rfl⟩) (hoff.fresh a.2 hw hstop)
  · rw [hlist, List.filter_append, hfilter (fun v => decide (v ≠ stop)), List.map_append]
    have hmap : (queued e.1 (ws.filter fun v => decide (v ≠ stop))).map Prod.snd =
        ws.filter fun v => decide (v ≠ stop) := by
      rw [queued, List.map_map]
      exact List.map_id _
    rw [hmap]
    refine List.nodup_append.mpr ⟨h.single, hoff.nodup, fun v hv w hw hvw => ?_⟩
    obtain ⟨a, ha, rfl⟩ := List.mem_map.mp hv
    obtain ⟨hws, hne⟩ := List.mem_filter.mp hw
    exact hoff.fresh w hws (of_decide_eq_true hne)
      ((h.search.marked w).mpr ⟨a, (List.mem_filter.mp ha).1, hvw⟩)
  · rw [hlist, List.filter_append, hfilter (fun v => decide (v = stop)), List.map_append,
      ← h.items, queued, List.map_map]
    refine congrArg _ (List.map_congr_left fun w _ => ?_)
    have hdist := h.search.distance e (by simp)
    rw [h.search.back_head, hdist]
    simp
  · rw [hlist, List.filter_append, hfilter (fun v => decide (v = stop)), List.map_append,
      h.arrived, List.flatMap_append, List.flatMap_singleton, h.arrivals_head hp hoff, queued,
      List.map_map]
    rfl

theorem initial (both : Bool) (rpred : RshipPredicate) (adj : Nat → List Link)
    (hstart : s.HasNode xid start) (hne : stop ≠ start) :
    AllSearching s xid both rpred start stop adj [] [([start], start)] (.init start)
      ([] : List (PathItem W)) where
  search := .initial both rpred hstart
  single := by simp [Ne.symm hne]
  items := by simp [Ne.symm hne]
  arrived := by simp [Ne.symm hne]

/-- An entry whose node was expanded before adds nothing. -/
theorem eq_nil (h : AllSearching s xid both rpred start stop adj done (e :: rest) st items)
    (hp : s.Presents xid both rpred adj) (hoff : HopSearch.Offered stop e.1 (adj e.2) st ws)
    (hagain : e.2 ∈ done.map Prod.snd) : ws = [] := by
  obtain ⟨a, ha, hae⟩ := List.mem_map.mp hagain
  have hnode := h.search.nodes e (by simp)
  have hstop : e.2 = stop := by
    by_contra hne
    have hsingle := h.single
    rw [List.filter_append, List.map_append] at hsingle
    refine (List.nodup_append.mp hsingle).2.2 a.2 (List.mem_map_of_mem ?_) e.2
      (List.mem_map_of_mem ?_) hae
    · exact List.mem_filter.mpr ⟨ha, by simpa [hae] using hne⟩
    · exact List.mem_filter.mpr ⟨List.mem_cons_self .., by simpa using hne⟩
  have hmark : ∀ w ∈ ws, w ∈ st.visited := by
    intro w hw
    obtain ⟨l, hl, rfl⟩ := List.mem_map.mp (hoff.sublist.subset hw)
    obtain ⟨b, hb, hbw, -⟩ := h.search.inv.closed a ha l.nid
      (hae ▸ (hp.follows_iff hnode).mpr ⟨l, hl, rfl⟩)
    exact (h.search.marked l.nid).mpr ⟨b, hb, hbw⟩
  have hnear : ¬st.Farther e.1 stop := by
    rw [HopSearch.Farther, h.search.back_head, hstop]
    refine not_or.mpr ⟨not_not.mpr ((h.search.marked stop).mpr ⟨e, by simp, hstop⟩), ?_⟩
    exact Nat.lt_irrefl _
  refine List.eq_nil_iff_forall_not_mem.mpr fun w hw => ?_
  by_cases hws : w = stop
  · exact hoff.nearer hnear (hws ▸ hw)
  · exact hoff.fresh w hw hws (hmark w hw)

end AllSearching

theorem allUnweightedLoop_nil {fuel : Nat} (h : st.frontier = []) (items : List (PathItem W)) :
    allUnweightedLoop xid both rpred stop fuel st items = pure (st, items) := by
  cases fuel <;> simp only [allUnweightedLoop, h]

theorem allUnweightedLoop_cons {fuel : Nat} {p : Path} {ps : List Path} (h : st.frontier = p :: ps)
    (items : List (PathItem W)) : allUnweightedLoop xid both rpred stop (fuel + 1) st items = (do
      let n ← nodeById xid p.back
      let links ← acceptedLinks xid both rpred n
      let r := links.foldl (HopSearch.meetAll stop p)
        ({ st with frontier := ps, visits := st.visits ++ [(n, p)] }, items)
      allUnweightedLoop xid both rpred stop fuel r.1 r.2) := by
  rw [allUnweightedLoop.eq_def]
  simp only [h]

/-- The loop expands what is left. -/
theorem allUnweightedLoop_ok (hg : s.VisibleGraph xid) (hp : s.Presents xid both rpred adj)
    (h : AllSearching s xid both rpred start stop adj done queue st items)
    (hreads : Reads xid s s1) {marks : List Nat} (hmarks : ∀ v, v ∈ marks ↔ v ∈ done.map Prod.snd)
    (base : List (PathItem W)) {n : Nat}
    (hn : queue.length + pending (fun v => (adj v).length) (List.range s.nodes.size) marks ≤ n) :
    ∃ out st' items' s2, (∀ fuel, n ≤ fuel →
        allUnweightedLoop xid both rpred stop fuel st (base ++ items) s1 =
          .ok (st', base ++ items') s2) ∧
      AllSearching s xid both rpred start stop adj out [] st' items' := by
  induction n generalizing queue done st items s1 marks with
  | zero =>
      obtain rfl := List.length_eq_zero_iff.mp (Nat.eq_zero_of_add_eq_zero (Nat.le_zero.mp hn)).1
      refine ⟨done, st, items, s1, fun fuel _ => ?_, h⟩
      rw [allUnweightedLoop_nil h.search.frontier]
      rfl
  | succ n ih =>
      cases queue with
      | nil =>
          refine ⟨done, st, items, s1, fun fuel _ => ?_, h⟩
          rw [allUnweightedLoop_nil h.search.frontier]
          rfl
      | cons e rest =>
          have hnode := h.search.nodes e (by simp)
          obtain ⟨s2, hreads2, hexpand⟩ := hp.expand e.2 hnode s1 hreads
          have hmark : Path.back e.1 ∈ st.visited := by
            rw [h.search.back_head, h.search.marked]
            exact ⟨e, by simp, rfl⟩
          obtain ⟨st', ws, hpush, hoff, hfold⟩ := @foldl_meetAll W _ stop
            { st with
              frontier := rest.map Prod.fst
              visits := st.visits ++ [(s.nodeRef xid e.2, e.1)] } e.1 (adj e.2) hmark
              (base ++ items)
          have hoff' : HopSearch.Offered stop e.1 (adj e.2) st ws :=
            ⟨hoff.sublist, hoff.fresh, hoff.nodup, hoff.farther, hoff.nearer⟩
          have hround : ∀ fuel, allUnweightedLoop xid both rpred stop (fuel + 1) st
            (base ++ items) s1 =
              allUnweightedLoop xid both rpred stop fuel st' (base ++ (items ++
                (ws.filter (· = stop)).map fun w =>
                  .counted (e.1 ++ [w]) (st.distance e.1.back + 1))) s2 := by
            intro fuel
            rw [allUnweightedLoop_cons (h.search.frontier.trans List.map_cons)]
            simp only [h.search.back_head]
            rw [hexpand, hfold, List.append_assoc, h.search.back_head]
          have hstep := h.expand hg hp hpush hoff'
          -- the nodes that are expanded, and what they may still queue
          obtain ⟨marks', hmarks', hn'⟩ : ∃ marks',
            (∀ v, v ∈ marks' ↔ v ∈ (done ++ [e]).map Prod.snd) ∧
              (rest ++ queued e.1 ws).length +
                pending (fun v => (adj v).length) (List.range s.nodes.size) marks' ≤ n := by
            rw [List.length_cons] at hn
            rw [List.length_append, queued, List.length_map]
            by_cases hagain : e.2 ∈ marks
            · refine ⟨marks, fun v => ?_, ?_⟩
              · rw [List.map_append, List.mem_append, ← hmarks]
                exact ⟨.inl, fun hv => hv.elim id fun hv => List.mem_singleton.mp hv ▸ hagain⟩
              · rw [h.eq_nil hp hoff' ((hmarks _).mp hagain), List.length_nil]
                omega
            · refine ⟨e.2 :: marks, fun v => ?_, ?_⟩
              · rw [List.map_append, List.mem_append, List.mem_cons, hmarks, or_comm]
                exact or_congr_right List.mem_singleton.symm
              · have hpend : pending (fun v => (adj v).length) _ (e.2 :: marks) +
                    (adj e.2).length = _ := pending_cons List.nodup_range (hg.lt_size hnode) hagain
                have hlen := hoff.sublist.length_le
                rw [List.length_map] at hlen
                omega
          obtain ⟨out, st2, items2, s3, hloop, hout⟩ := ih hstep hreads2 hmarks' hn'
          refine ⟨out, st2, items2, s3, fun fuel hfuel => ?_, hout⟩
          obtain ⟨fuel, rfl⟩ := Nat.exists_eq_add_of_le' (Nat.lt_of_lt_of_le (Nat.succ_pos n) hfuel)
          rw [hround]
          exact hloop fuel (Nat.le_of_succ_le_succ hfuel)

/-! ## Which shortest paths are found -/

omit [Zero W] in
/-- The last node but one of a shortest path is not the stop node. -/
theorem ne_of_shortest {step : Nat → Nat → Prop} {p : Path} {v : Nat} (hp : Walk step start p v)
    (hshort : Shortest step start (p ++ [stop]) stop) : v ≠ stop := by
  rintro rfl
  have hle := hshort.2 p hp
  rw [List.length_append, List.length_singleton] at hle
  omega

theorem mem_arrivals {step : Nat → Nat → Prop} {e : Path × Nat} {p : Path} :
    p ∈ arrivals step start stop adj e ↔ Shortest step start (e.1 ++ [stop]) stop ∧
      (∃ l ∈ adj e.2, l.nid = stop) ∧ p = e.1 ++ [stop] := by
  rw [arrivals]
  split
  · rename_i hshort
    rw [List.mem_map]
    constructor
    · rintro ⟨l, hl, rfl⟩
      obtain ⟨hl, hnid⟩ := List.mem_filter.mp hl
      exact ⟨hshort, ⟨l, hl, of_decide_eq_true hnid⟩, rfl⟩
    · rintro ⟨-, ⟨l, hl, hnid⟩, rfl⟩
      exact ⟨l, List.mem_filter.mpr ⟨hl, decide_eq_true hnid⟩, rfl⟩
  · rename_i hshort
    exact ⟨fun h => absurd h List.not_mem_nil, fun h => absurd h.1 hshort⟩

/-- A relationship to another node is met once. -/
theorem GraphDb.Presents.nodup_links (hp : s.Presents xid both rpred adj) {v w : Nat}
    (hv : s.HasNode xid v) (hne : v ≠ w) : ((adj v).filter (·.nid = w)).Nodup := by
  obtain ⟨out, inc, hadj, hout, hinc, hmemOut, hmemInc⟩ := hp.lists v hv
  rw [hadj, List.filter_append]
  refine List.nodup_append.mpr ⟨hout.filter _, hinc.filter _, fun l hl l' hl' heq => ?_⟩
  obtain ⟨hl, hnid⟩ := List.mem_filter.mp hl
  have hl' := (List.mem_filter.mp (heq ▸ hl')).1
  have hsrc := (hmemOut l hl).1
  rw [(hmemInc l hl').2, of_decide_eq_true hnid] at hsrc
  exact hne hsrc.symm

namespace AllSearching

variable (h : AllSearching s xid both rpred start stop adj done [] st items)
include h

theorem paths : items.map PathItem.path =
    done.flatMap (arrivals (s.Follows xid both rpred) start stop adj) := by
  have harrived := h.arrived
  have hitems := h.items
  rw [List.append_nil] at harrived hitems
  rw [← harrived, hitems, List.map_map]
  rfl

/-- A node before the stop node has one entry. -/
theorem entry_unique {a b : Path × Nat} (ha : a ∈ done) (hb : b ∈ done) (hab : a.2 = b.2)
    (hne : a.2 ≠ stop) : a = b := by
  have hsingle := h.single
  rw [List.append_nil] at hsingle
  refine List.inj_on_of_nodup_map hsingle ?_ ?_ hab
  · exact List.mem_filter.mpr ⟨ha, by simpa using hne⟩
  · exact List.mem_filter.mpr ⟨hb, by simpa [← hab] using hne⟩

theorem exists_entry {p : Path} {v : Nat} (hp : Walk (s.Follows xid both rpred) start p v) :
    ∃ e ∈ done, e.2 = v ∧ e.1.length ≤ p.length := by
  have hreach := h.search.inv.reached hp fun e he => absurd he List.not_mem_nil
  rwa [List.append_nil] at hreach

theorem walk_entry {e : Path × Nat} (he : e ∈ done) :
    Walk (s.Follows xid both rpred) start e.1 e.2 :=
  h.search.inv.sound e (by simpa using he)

/-- The search finds all shortest paths and each once, if they enter the stop
node once. -/
theorem exactlyShortest (hp : s.Presents xid both rpred adj) (hne : stop ≠ start)
    (honce : s.EntersOnce xid both rpred start stop) :
    ExactlyShortest (s.Follows xid both rpred) start stop items where
  shortest i hi := by
    have hpath : i.path ∈ items.map PathItem.path := List.mem_map_of_mem hi
    rw [h.paths] at hpath
    obtain ⟨e, -, he⟩ := List.mem_flatMap.mp hpath
    obtain ⟨hshort, -, heq⟩ := mem_arrivals.mp he
    refine ⟨heq ▸ hshort, ?_⟩
    rw [h.items] at hi
    obtain ⟨a, -, rfl⟩ := List.mem_map.mp hi
    have hlen := List.length_pos_of_ne_nil hshort.1.ne_nil
    rw [← heq] at hlen
    exact (Nat.sub_add_cancel hlen).symm
  complete p hshort := by
    cases hshort.1 with
    | start => exact absurd rfl hne
    | @snoc q u _ hq hstep =>
        obtain ⟨e, he, rfl, hle⟩ := h.exists_entry hq
        have hwalk := h.walk_entry he
        have hnode := h.search.nodes e (by simpa using he)
        -- the entry of the node is as short, so it is the path itself
        have hshortE : Shortest (s.Follows xid both rpred) start (e.1 ++ [stop]) stop := by
          refine ⟨hwalk.snoc hstep, fun p' hp' => ?_⟩
          have hmin := hshort.2 p' hp'
          rw [List.length_append, List.length_singleton] at hmin ⊢
          omega
        obtain ⟨l, hl, hnid⟩ := (hp.follows_iff hnode).mp hstep
        have hlink := (hp.mem e.2 hnode l).mp hl
        obtain ⟨rfl, -⟩ := honce q e.1 e.2 l l hq hwalk hshort hshortE hlink hlink hnid hnid
        have hmem : e.1 ++ [stop] ∈ items.map PathItem.path := by
          rw [h.paths]
          exact List.mem_flatMap.mpr ⟨e, he, mem_arrivals.mpr ⟨hshort, ⟨l, hl, hnid⟩, rfl⟩⟩
        exact List.mem_map.mp hmem
  once := by
    rw [h.paths]
    refine List.nodup_flatMap.mpr ⟨fun e he => ?_, ?_⟩
    · have hwalk := h.walk_entry he
      have hnode := h.search.nodes e (by simpa using he)
      rw [arrivals]
      split
      · rename_i hshort
        refine (hp.nodup_links hnode (ne_of_shortest hwalk hshort)).map_on ?_
        intro l hl l' hl' _
        obtain ⟨hl, hnid⟩ := List.mem_filter.mp hl
        obtain ⟨hl', hnid'⟩ := List.mem_filter.mp hl'
        exact (honce e.1 e.1 e.2 l l' hwalk hwalk hshort hshort ((hp.mem _ hnode _).mp hl)
          ((hp.mem _ hnode _).mp hl') (of_decide_eq_true hnid) (of_decide_eq_true hnid')).2
      · exact List.nodup_nil
    · have hsingle := h.single
      rw [List.append_nil, List.nodup_iff_pairwise_ne, List.pairwise_map,
        List.pairwise_filter] at hsingle
      refine hsingle.imp_of_mem fun {a b} ha hb hab => ?_
      intro p hpa hpb
      obtain ⟨hshort, -, rfl⟩ := mem_arrivals.mp hpa
      obtain ⟨-, -, heq⟩ := mem_arrivals.mp hpb
      have hwalk := h.walk_entry ha
      have hpath : a.1 = b.1 := List.append_cancel_right heq
      have hnode : a.2 = b.2 := by
        rw [← hwalk.getLastD 0, ← (h.walk_entry hb).getLastD 0, hpath]
      have hstop := ne_of_shortest hwalk hshort
      exact hab (by simpa using hstop) (by simpa [← hnode] using hstop) hnode

/-- It misses or repeats a path otherwise. -/
theorem entersOnce (hp : s.Presents xid both rpred adj)
    (hexact : ExactlyShortest (s.Follows xid both rpred) start stop items) :
    s.EntersOnce xid both rpred start stop := by
  intro p p' u l l' hwalk hwalk' hshort hshort' hl hl' hnid hnid'
  have hentry : ∀ q, Walk (s.Follows xid both rpred) start q u →
      Shortest (s.Follows xid both rpred) start (q ++ [stop]) stop → ∃ e ∈ done, e = (q, u) := by
    intro q hq hshort
    obtain ⟨i, hi, hpath⟩ := hexact.complete _ hshort
    have hmem : i.path ∈ items.map PathItem.path := List.mem_map_of_mem hi
    rw [h.paths, hpath] at hmem
    obtain ⟨e, he, harr⟩ := List.mem_flatMap.mp hmem
    have heq : q = e.1 := List.append_cancel_right (mem_arrivals.mp harr).2.2
    refine ⟨e, he, Prod.ext heq.symm ?_⟩
    rw [← (h.walk_entry he).getLastD 0, ← heq, hq.getLastD]
  obtain ⟨e, he, rfl⟩ := hentry p hwalk hshort
  obtain ⟨e', he', rfl⟩ := hentry p' hwalk' hshort'
  have heq := h.entry_unique he he' rfl (ne_of_shortest hwalk hshort)
  have hnode := h.search.nodes _ (by simpa using he)
  refine ⟨(Prod.ext_iff.mp heq).1, ?_⟩
  have hnodup := hexact.once
  rw [h.paths] at hnodup
  have harr := (List.nodup_flatMap.mp hnodup).1 _ he
  rw [arrivals, if_pos hshort] at harr
  refine List.inj_on_of_nodup_map harr ?_ ?_ rfl
  · exact List.mem_filter.mpr ⟨(hp.mem _ hnode _).mpr hl, decide_eq_true hnid⟩
  · exact List.mem_filter.mpr ⟨(hp.mem _ hnode _).mpr hl', decide_eq_true hnid'⟩

end AllSearching

/-- What all unweighted shortest paths are, with enough fuel. -/
theorem allUnweightedShortestPaths_ok (hg : s.VisibleGraph xid) (hstart : s.HasNode xid start)
    (hne : stop ≠ start) (both : Bool) (rpred : RshipPredicate) (base : List (PathItem W)) :
    ∃ (found : Bool) (visits : List (Ref × Path)) (items : List (PathItem W)) (n : Nat),
      (∀ fuel, n ≤ fuel → ∃ s', allUnweightedShortestPaths xid both rpred stop fuel start base s =
        .ok (found, visits, base ++ items) s') ∧
      (ExactlyShortest (s.Follows xid both rpred) start stop items ↔
        s.EntersOnce xid both rpred start stop) := by
  obtain ⟨adj, hp⟩ := hg.presents both rpred
  obtain ⟨out, st, items, s', hloop, hout⟩ := allUnweightedLoop_ok hg hp
    (.initial both rpred adj hstart hne) (.refl xid s) (fun v => Iff.rfl) base (Nat.le_refl _)
  rw [List.append_nil] at hloop
  exact ⟨st.found, st.visits, items, _, fun fuel hfuel => ⟨s', bind_ok (hloop fuel hfuel)⟩,
    hout.entersOnce hp, hout.exactlyShortest hp hne⟩

end

end Poseidon
