import Poseidon.Lib.Dijkstra
import Poseidon.Proofs.CommittedGraph
import Poseidon.Analytics.ShortestPath

/-!
# Weighted shortest paths

The weighted searches are Dijkstra's algorithm with a scan for the next node.
The walk that a weight is the total of is not stored, but it can be traced: the
parent of a node was settled before the node got its weight.
-/

namespace Poseidon

open Wp Dijkstra

/-- One accepted relationship of this weight leads from `v` to `w`. -/
def GraphDb.Weighs {W : Type} (s : GraphDb) (xid : Nat) (both : Bool) (rpred : RshipPredicate)
    (weightFunc : RshipWeight W) (v : Nat) (c : W) (w : Nat) : Prop :=
  ∃ l, s.HasLink xid both rpred v l ∧ weightFunc l.ref l.data = c ∧ l.nid = w

/-! ## The next node -/

section

variable {W : Type} [LinearOrder W]

/-- What the search for the next node returns: nothing, or the first of the
lightest nodes that are not marked. -/
structure WeightSearch.IsMin (st : WeightSearch W) (numNodes m : Nat) : Prop where
  lt : m < numNodes
  fresh : m ∉ st.visited
  le : ∀ v, v < numNodes → v ∉ st.visited → st.weight m ≤ st.weight v
  first : ∀ v, v < m → v ∉ st.visited → st.weight m < st.weight v

theorem WeightSearch.minNode_cases (st : WeightSearch W) (unknown : W) (numNodes : Nat) :
    (st.minNode unknown numNodes = (UNKNOWN, unknown) ∧
      ∀ v, v < numNodes → v ∉ st.visited → unknown ≤ st.weight v) ∨
    ∃ m, st.minNode unknown numNodes = (m, st.weight m) ∧ st.weight m < unknown ∧
      st.IsMin numNodes m := by
  induction numNodes with
  | zero => exact .inl ⟨rfl, fun v hv => absurd hv (Nat.not_lt_zero v)⟩
  | succ n ih =>
      have hstep : st.minNode unknown (n + 1) =
          if n ∉ st.visited ∧ st.weight n < (st.minNode unknown n).2 then (n, st.weight n)
          else st.minNode unknown n := by
        rw [minNode, List.range_succ, List.foldl_append]
        rfl
      rcases ih with ⟨hmin, hall⟩ | ⟨m, hmin, hlt, hleast⟩
      · rw [hstep, hmin]
        by_cases hn : n ∉ st.visited ∧ st.weight n < unknown
        · refine .inr ⟨n, if_pos hn, hn.2, Nat.lt_succ_self n, hn.1, fun v hv hfresh => ?_,
            fun v hv hfresh => hn.2.trans_le (hall v hv hfresh)⟩
          rcases Nat.lt_succ_iff_lt_or_eq.mp hv with hv | rfl
          · exact hn.2.le.trans (hall v hv hfresh)
          · exact le_rfl
        · refine .inl ⟨if_neg hn, fun v hv hfresh => ?_⟩
          rcases Nat.lt_succ_iff_lt_or_eq.mp hv with hv | rfl
          · exact hall v hv hfresh
          · exact not_lt.mp fun h => hn ⟨hfresh, h⟩
      · rw [hstep, hmin]
        by_cases hn : n ∉ st.visited ∧ st.weight n < st.weight m
        · refine .inr ⟨n, if_pos hn, hn.2.trans hlt, Nat.lt_succ_self n, hn.1,
            fun v hv hfresh => ?_, fun v hv hfresh => hn.2.trans_le (hleast.le v hv hfresh)⟩
          rcases Nat.lt_succ_iff_lt_or_eq.mp hv with hv | rfl
          · exact hn.2.le.trans (hleast.le v hv hfresh)
          · exact le_rfl
        · refine .inr ⟨m, if_neg hn, hlt, Nat.lt_succ_of_lt hleast.lt, hleast.fresh,
            fun v hv hfresh => ?_, hleast.first⟩
          rcases Nat.lt_succ_iff_lt_or_eq.mp hv with hv | rfl
          · exact hleast.le v hv hfresh
          · exact not_lt.mp fun h => hn ⟨hfresh, h⟩

end

/-! ## Rounds -/

section

variable {W : Type} [Add W] [LT W] [DecidableLT W] {weightFunc : RshipWeight W} {m : Nat}
  {st : WeightSearch W}

@[simp] theorem WeightSearch.relax_visited (l : Link) :
    (st.relax weightFunc m l).visited = st.visited := by
  rw [relax]
  split <;> rfl

@[simp] theorem WeightSearch.foldl_relax_visited (links : List Link) (st : WeightSearch W) :
    (links.foldl (WeightSearch.relax weightFunc m) st).visited = st.visited := by
  induction links generalizing st with
  | nil => rfl
  | cons l links ih => rw [List.foldl_cons, ih, relax_visited]

/-- The weights of the nodes that are marked do not change. -/
theorem WeightSearch.relax_weight {v : Nat} (hv : v ∈ st.visited) (l : Link) :
    (st.relax weightFunc m l).weight v = st.weight v := by
  rw [relax]
  split
  · rename_i hcond
    have hne : v ≠ l.nid := fun heq => hcond.1 (heq ▸ hv)
    exact Function.update_of_ne hne _ _
  · rfl

theorem WeightSearch.foldl_relax_weight {v : Nat} (hv : v ∈ st.visited) (links : List Link) :
    (links.foldl (WeightSearch.relax weightFunc m) st).weight v = st.weight v := by
  induction links generalizing st with
  | nil => rfl
  | cons l links ih =>
      rw [List.foldl_cons, ih (by rwa [relax_visited]), relax_weight hv]

end

section

variable {W : Type} [AddCommMonoid W] [LinearOrder W]

/-- What holds of a weighted search: the vectors are those of Dijkstra's
algorithm, and the parents lead along the tree. -/
structure Settling (s : GraphDb) (xid : Nat) (both : Bool) (rpred : RshipPredicate)
    (weightFunc : RshipWeight W) (start : Nat) (unknown : W) (done : Nat → W → Nat → Prop)
    (st : WeightSearch W) (tree : Nat → List Nat) : Prop where
  inv : Inv (s.Weighs xid both rpred weightFunc) start unknown done st.visited st.weight tree
  nodup : st.visited.Nodup
  root : tree start = [start] ∧ st.parent start = UNKNOWN
  parents : ∀ v, st.weight v ≠ unknown → v ≠ start →
    st.parent v ∈ st.visited ∧ tree v = tree (st.parent v) ++ [v]

variable {s s1 : GraphDb} {xid start stop : Nat} {both : Bool} {rpred : RshipPredicate}
  {adj : Nat → List Link} {weightFunc : RshipWeight W} {unknown : W} {numNodes m : Nat}
  {done : Nat → W → Nat → Prop} {st : WeightSearch W} {tree : Nat → List Nat}

omit [LinearOrder W] in
theorem GraphDb.VisibleGraph.hasNode_of_route {p : List Nat} {v : Nat} {x : W}
    (hg : s.VisibleGraph xid) (hstart : s.HasNode xid start)
    (h : Route (s.Weighs xid both rpred weightFunc) start p v x) : s.HasNode xid v := by
  cases h with
  | start => exact hstart
  | snoc _ hstep =>
      obtain ⟨l, hl, -, hnid⟩ := hstep
      exact hg.hasNode_of_follows ⟨l, hl, hnid⟩

namespace Settling

theorem initial (hexact : ExactWeights (s.Weighs xid both rpred weightFunc) start unknown) :
    Settling s xid both rpred weightFunc start unknown (fun _ _ _ => False)
      (.init unknown start) fun _ => [start] where
  inv := .initial hexact
  nodup := List.nodup_nil
  root := by
    refine ⟨rfl, ?_⟩
    simp only [WeightSearch.init, Function.update_self]
  parents v hv hne := by
    simp only [WeightSearch.init, Function.update_of_ne hne] at hv
    exact absurd rfl hv

/-- The marked nodes are nodes of the graph. -/
theorem length_le (h : Settling s xid both rpred weightFunc start unknown done st tree)
    (hg : s.VisibleGraph xid) (hstart : s.HasNode xid start)
    (hnodes : ∀ v, s.HasNode xid v → v < numNodes) {p : List Nat} (hnodup : p.Nodup)
    (hp : ∀ v ∈ p, v < numNodes ∨ v ∈ st.visited) : p.length ≤ numNodes := by
  have hsub : p ⊆ List.range numNodes := by
    intro v hv
    refine List.mem_range.mpr ((hp v hv).elim id fun hmem => hnodes v ?_)
    exact hg.hasNode_of_route hstart (h.inv.route v (h.inv.known v hmem))
  have hlen := (List.subperm_of_subset hnodup hsub).length_le
  rwa [List.length_range] at hlen

/-- The walk to a node is what its parents trace. -/
theorem tracePath_ok (h : Settling s xid both rpred weightFunc start unknown done st tree)
    (hparent : ∀ v ∈ st.visited, v ≠ UNKNOWN) {fuel v : Nat} (hv : st.weight v ≠ unknown)
    (hfuel : (tree v).length ≤ fuel) : tracePath st.parent fuel v = .ok (tree v) := by
  induction fuel generalizing v with
  | zero =>
      have hmem := (h.inv.route v hv).src_mem
      rw [List.length_eq_zero_iff.mp (Nat.le_zero.mp hfuel)] at hmem
      cases hmem
  | succ fuel ih =>
      rw [tracePath]
      by_cases hsrc : v = start
      · subst hsrc
        rw [if_pos h.root.2, h.root.1]
      · obtain ⟨hmem, htree⟩ := h.parents v hv hsrc
        rw [htree, List.length_append, List.length_singleton] at hfuel
        rw [if_neg (hparent _ hmem), ih (h.inv.known _ hmem) (Nat.le_of_succ_le_succ hfuel), htree]
        rfl

/-- A node that has been reached is below the number of nodes. -/
theorem lt_of_known (h : Settling s xid both rpred weightFunc start unknown done st tree)
    (hg : s.VisibleGraph xid) (hstart : s.HasNode xid start)
    (hnodes : ∀ v, s.HasNode xid v → v < numNodes) {v : Nat} (hv : st.weight v ≠ unknown) :
    v < numNodes :=
  hnodes v (hg.hasNode_of_route hstart (h.inv.route v hv))

/-- The walk to a node is traced with the fuel of the searches. -/
theorem trace (h : Settling s xid both rpred weightFunc start unknown done st tree)
    (hg : s.VisibleGraph xid) (hstart : s.HasNode xid start)
    (hnodes : ∀ v, s.HasNode xid v → v < numNodes) (hcap : numNodes ≤ UNKNOWN) {v : Nat}
    (hv : st.weight v ≠ unknown) : tracePath st.parent (numNodes + 1) v = .ok (tree v) := by
  have hlt := h.lt_of_known hg hstart hnodes hv
  have hlen := h.length_le hg hstart hnodes (h.inv.simple v hv) fun u hu =>
    (h.inv.inside v hv u hu).imp_left fun (huv : u = v) => huv ▸ hlt
  refine h.tracePath_ok (fun u hu => ?_) hv (Nat.le_succ_of_le hlen)
  exact Nat.ne_of_lt ((h.lt_of_known hg hstart hnodes (h.inv.known u hu)).trans_le hcap)

/-- One link is relaxed. -/
theorem relax [IsOrderedAddMonoid W]
    (h : Settling s xid both rpred weightFunc start unknown done st tree)
    (hexact : ExactWeights (s.Weighs xid both rpred weightFunc) start unknown) (hm : m ∈ st.visited)
    (hlast : ∀ u ∈ st.visited, st.weight u ≤ st.weight m) {l : Link}
    (hl : s.HasLink xid both rpred m l) :
    ∃ tree', Settling s xid both rpred weightFunc start unknown
        (fun u c v => done u c v ∨ (u = m ∧ c = weightFunc l.ref l.data ∧ v = l.nid))
        (st.relax weightFunc m l) tree' ∧
      ∀ v, (st.relax weightFunc m l).weight v = st.weight v → tree' v = tree v := by
  have hstep : s.Weighs xid both rpred weightFunc m (weightFunc l.ref l.data) l.nid :=
    ⟨l, hl, rfl, rfl⟩
  have hc := hexact.nonneg _ _ _ hstep
  rw [WeightSearch.relax]
  split
  · rename_i hcond
    have hinv := h.inv.relax_update hm hlast hstep hc hcond.1 hcond.2
    refine ⟨Function.update tree l.nid (tree m ++ [l.nid]),
      ⟨hinv, h.nodup, ?_, fun v hv hne => ?_⟩, fun v hv => ?_⟩
    · have hsrc : start ≠ l.nid := by
        rintro rfl
        have hmem := (h.inv.route m (h.inv.known m hm)).src_mem
        rcases h.inv.inside m (h.inv.known m hm) _ hmem with heq | hmem
        · exact hcond.1 (heq ▸ hm)
        · exact hcond.1 hmem
      simp only [Function.update_of_ne hsrc]
      exact h.root
    · by_cases hvl : v = l.nid
      · subst hvl
        have hml : m ≠ l.nid := fun heq => hcond.1 (heq ▸ hm)
        simp only [Function.update_self, Function.update_of_ne hml]
        exact ⟨hm, trivial⟩
      · simp only [Function.update_of_ne hvl] at hv ⊢
        obtain ⟨hmem, htree⟩ := h.parents v hv hne
        have hpl : st.parent v ≠ l.nid := fun heq => hcond.1 (heq ▸ hmem)
        rw [Function.update_of_ne hpl]
        exact ⟨hmem, htree⟩
    · have hvl : v ≠ l.nid := by
        rintro rfl
        simp only [Function.update_self] at hv
        exact hcond.2.ne hv
      exact Function.update_of_ne hvl _ _
  · rename_i hcond
    refine ⟨tree, ⟨h.inv.relax_keep hm ?_, h.nodup, h.root, h.parents⟩, fun v _ => rfl⟩
    by_cases hmem : l.nid ∈ st.visited
    · exact Inv.le_of_settled hlast hmem hc
    · exact not_lt.mp fun hlt => hcond ⟨hmem, hlt⟩

/-- The links of a node are relaxed. -/
theorem foldl_relax [IsOrderedAddMonoid W] {links : List Link}
    (h : Settling s xid both rpred weightFunc start unknown done st tree)
    (hexact : ExactWeights (s.Weighs xid both rpred weightFunc) start unknown) (hm : m ∈ st.visited)
    (hlast : ∀ u ∈ st.visited, st.weight u ≤ st.weight m)
    (hlinks : ∀ l ∈ links, s.HasLink xid both rpred m l) :
    ∃ tree', Settling s xid both rpred weightFunc start unknown
      (fun u c v => done u c v ∨ (u = m ∧ ∃ l ∈ links, c = weightFunc l.ref l.data ∧ v = l.nid))
      (links.foldl (WeightSearch.relax weightFunc m) st) tree' := by
  induction links generalizing st tree done with
  | nil =>
      refine ⟨tree, h.inv.congr_done ?_, h.nodup, h.root, h.parents⟩
      rintro u c v (hd | ⟨-, l, hl, -⟩)
      · exact hd
      · cases hl
  | cons l links ih =>
      obtain ⟨tree1, h1, -⟩ := h.relax hexact hm hlast (hlinks l (List.mem_cons_self ..))
      have hvisited : (st.relax weightFunc m l).visited = st.visited := by simp
      obtain ⟨tree2, h2⟩ := ih h1 (hvisited ▸ hm) (fun u hu => by
        rw [hvisited] at hu
        rw [WeightSearch.relax_weight hu, WeightSearch.relax_weight hm]
        exact hlast u hu) fun l' hl' => hlinks l' (List.mem_cons_of_mem _ hl')
      refine ⟨tree2, h2.inv.congr_done ?_, h2.nodup, h2.root, h2.parents⟩
      rintro u c v (hd | ⟨hu, l', hl', hcv⟩)
      · exact .inl (.inl hd)
      · rcases List.mem_cons.mp hl' with rfl | hl'
        · exact .inl (.inr ⟨hu, hcv⟩)
        · exact .inr ⟨hu, l', hl', hcv⟩

end Settling

/-- What holds of the search between two rounds. -/
abbrev Settled (s : GraphDb) (xid : Nat) (both : Bool) (rpred : RshipPredicate)
    (weightFunc : RshipWeight W) (start : Nat) (unknown : W) (st : WeightSearch W)
    (tree : Nat → List Nat) : Prop :=
  Settling s xid both rpred weightFunc start unknown
    (fun u c v => u ∈ st.visited ∧ s.Weighs xid both rpred weightFunc u c v) st tree

namespace Settled

theorem initial (hexact : ExactWeights (s.Weighs xid both rpred weightFunc) start unknown) :
    Settled s xid both rpred weightFunc start unknown (.init unknown start) fun _ => [start] := by
  have h := Settling.initial hexact
  refine ⟨h.inv.congr_done ?_, h.nodup, h.root, h.parents⟩
  rintro u c v ⟨hu, -⟩
  exact absurd hu List.not_mem_nil

/-- The node that the scan finds is the lightest of all. -/
theorem least (h : Settled s xid both rpred weightFunc start unknown st tree)
    (hg : s.VisibleGraph xid) (hstart : s.HasNode xid start)
    (hnodes : ∀ v, s.HasNode xid v → v < numNodes) (hmin : st.IsMin numNodes m) :
    ∀ v, v ∉ st.visited → st.weight m ≤ st.weight v := by
  intro v hv
  by_cases hknown : st.weight v = unknown
  · exact hknown ▸ h.inv.le_unknown m
  · exact hmin.le v (h.lt_of_known hg hstart hnodes hknown) hv

/-- The node is marked. -/
theorem mark (h : Settled s xid both rpred weightFunc start unknown st tree)
    (hmin : ∀ v, v ∉ st.visited → st.weight m ≤ st.weight v) (hm : m ∉ st.visited)
    (hknown : st.weight m ≠ unknown) :
    Settling s xid both rpred weightFunc start unknown
      (fun u c v => u ∈ st.visited ∧ s.Weighs xid both rpred weightFunc u c v)
      { st with visited := m :: st.visited } tree :=
  ⟨h.inv.settle hknown hmin, List.nodup_cons.mpr ⟨hm, h.nodup⟩, h.root,
    fun v hv hne => (h.parents v hv hne).imp_left (List.mem_cons_of_mem _)⟩

/-- The node is the last of the marked nodes. -/
theorem last (h : Settled s xid both rpred weightFunc start unknown st tree)
    (hm : m ∉ st.visited) : ∀ u ∈ m :: st.visited, st.weight u ≤ st.weight m := by
  intro u hu
  rcases List.mem_cons.mp hu with rfl | hu
  · exact le_rfl
  · exact h.inv.mono u hu m hm

omit [AddCommMonoid W] [LinearOrder W] in
/-- The links of the node are all steps from it. -/
theorem steps_of_links (hp : s.Presents xid both rpred adj) (hnode : s.HasNode xid m)
    {vs : List Nat} {u v : Nat} {c : W} (hu : u ∈ m :: vs)
    (hstep : s.Weighs xid both rpred weightFunc u c v) :
    (u ∈ vs ∧ s.Weighs xid both rpred weightFunc u c v) ∨
      (u = m ∧ ∃ l ∈ adj m, c = weightFunc l.ref l.data ∧ v = l.nid) := by
  rcases List.mem_cons.mp hu with rfl | hu
  · obtain ⟨l, hl, hc, hnid⟩ := hstep
    exact .inr ⟨rfl, l, (hp.mem _ hnode l).mpr hl, hc.symm, hnid.symm⟩
  · exact .inl ⟨hu, hstep⟩

/-- A round: a node is marked, and its links are relaxed. -/
theorem round [IsOrderedAddMonoid W]
    (h : Settled s xid both rpred weightFunc start unknown st tree)
    (hg : s.VisibleGraph xid) (hp : s.Presents xid both rpred adj) (hstart : s.HasNode xid start)
    (hexact : ExactWeights (s.Weighs xid both rpred weightFunc) start unknown)
    (hnodes : ∀ v, s.HasNode xid v → v < numNodes) (hmin : st.IsMin numNodes m)
    (hknown : st.weight m ≠ unknown) :
    ∃ tree', Settled s xid both rpred weightFunc start unknown
      ((adj m).foldl (WeightSearch.relax weightFunc m) { st with visited := m :: st.visited })
      tree' := by
  have hnode := hg.hasNode_of_route hstart (h.inv.route m hknown)
  obtain ⟨tree', h'⟩ := (h.mark (h.least hg hstart hnodes hmin) hmin.fresh hknown).foldl_relax
    hexact (List.mem_cons_self ..) (h.last hmin.fresh) fun l hl => (hp.mem m hnode l).mp hl
  refine ⟨tree', h'.inv.congr_done ?_, h'.nodup, h'.root, h'.parents⟩
  rintro u c v ⟨hu, hstep⟩
  rw [WeightSearch.foldl_relax_visited] at hu
  exact steps_of_links hp hnode hu hstep

/-- If the scan finds nothing, only the nodes that are marked can be
reached. -/
theorem exhausted (h : Settled s xid both rpred weightFunc start unknown st tree)
    (hg : s.VisibleGraph xid) (hstart : s.HasNode xid start)
    (hexact : ExactWeights (s.Weighs xid both rpred weightFunc) start unknown)
    (hnodes : ∀ v, s.HasNode xid v → v < numNodes)
    (hall : ∀ v, v < numNodes → v ∉ st.visited → unknown ≤ st.weight v) {p : List Nat} {v : Nat}
    {x : W} (hp : Route (s.Weighs xid both rpred weightFunc) start p v x) : v ∈ st.visited := by
  refine Round.exhausted h.inv hexact (fun u hu => ?_) hp
  by_contra hknown
  have hlt := h.lt_of_known hg hstart hnodes hknown
  exact hknown (le_antisymm (h.inv.le_unknown u) (hall u hlt hu))

end Settled

/-- The loop finds a lightest path, if there is a path. -/
theorem weightedLoop_ok [IsOrderedAddMonoid W] {i : Nat} (hg : s.VisibleGraph xid)
    (hp : s.Presents xid both rpred adj) (hstart : s.HasNode xid start)
    (hexact : ExactWeights (s.Weighs xid both rpred weightFunc) start unknown)
    (hnodes : ∀ v, s.HasNode xid v → v < numNodes) (hcap : numNodes ≤ UNKNOWN)
    (hstopLt : stop < numNodes)
    (h : Settled s xid both rpred weightFunc start unknown st tree) (hreads : Reads xid s s1)
    (hstop : stop ∉ st.visited) (hi : st.visited.length + i = numNodes) (spath : PathItem W) :
    ∃ r s2, weightedLoop xid both rpred weightFunc unknown numNodes stop i st spath s1 = .ok r s2 ∧
      (r.1 = true ↔ ∃ p x, Route (s.Weighs xid both rpred weightFunc) start p stop x) ∧
      (r.1 = true → ∃ p, r.2.path = spath.path ++ p ∧
        Lightest (s.Weighs xid both rpred weightFunc) start p stop r.2.weight) := by
  induction i generalizing st tree s1 with
  | zero =>
      -- all nodes are marked, and `stop` is one of them
      have hlen := h.length_le hg hstart hnodes (List.nodup_cons.mpr ⟨hstop, h.nodup⟩) fun v hv =>
        (List.mem_cons.mp hv).imp_left fun (hvs : v = stop) => hvs ▸ hstopLt
      rw [List.length_cons] at hlen
      omega
  | succ i ih =>
      rw [weightedLoop]
      rcases st.minNode_cases unknown numNodes with ⟨hmin, hall⟩ | ⟨m, hmin, hlt, hleast⟩
      · have hne : UNKNOWN ≠ stop := Nat.ne_of_gt (hstopLt.trans_le hcap)
        refine ⟨(false, spath), s1, ?_, ⟨fun h => absurd h Bool.false_ne_true, ?_⟩,
          fun h => absurd h Bool.false_ne_true⟩
        · rw [hmin]
          simp only []
          rw [if_neg hne, if_pos trivial]
          rfl
        · rintro ⟨p, x, hroute⟩
          exact absurd (h.exhausted hg hstart hexact hnodes hall hroute) hstop
      · have hknown := hlt.ne
        rw [hmin]
        simp only []
        by_cases hms : m = stop
        · subst hms
          have hshort := Round.lightest h.inv hexact hstop hknown
            (h.least hg hstart hnodes hleast)
          refine ⟨(true, { spath with path := spath.path ++ tree m, weight := st.weight m }),
            s1, ?_,
            ⟨fun _ => ⟨_, _, hshort.1⟩, fun _ => rfl⟩, fun _ => ⟨tree m, rfl, hshort⟩⟩
          rw [if_pos rfl, h.trace hg hstart hnodes hcap hknown]
          rfl
        · have hnode := hg.hasNode_of_route hstart (h.inv.route m hknown)
          obtain ⟨s2, hreads2, hexpand⟩ := hp.expand m hnode s1 hreads
          obtain ⟨tree', h'⟩ := h.round hg hp hstart hexact hnodes hleast hknown
          obtain ⟨r, s3, hloop, hreach, hpath⟩ := ih h' hreads2 (by
            rw [WeightSearch.foldl_relax_visited]
            exact fun hmem => (List.mem_cons.mp hmem).elim (fun heq => hms heq.symm) hstop) (by
            rw [WeightSearch.foldl_relax_visited, List.length_cons]
            omega)
          refine ⟨r, s3, ?_, hreach, hpath⟩
          rw [if_neg hms, if_neg hknown, hexpand]
          exact hloop

end

/-- Bounded natural weights are exact on a graph of committed records. -/
theorem exact_committed {xid start b : Nat} {both : Bool} {rpred : RshipPredicate}
    {weightFunc : RshipWeight Nat} {nodes : List NodeData} {rships : List RshipData}
    (hx : 0 < xid) (hlt : xid < INF) (h : graphOk nodes rships = true)
    (hstart : start < nodes.length)
    (hb : ∀ id d, rships[id]? = some d → weightFunc ⟨id, .slot⟩ d ≤ b) :
    ExactWeights ((GraphDb.committed xid nodes rships).Weighs xid both rpred weightFunc) start
      (b * (List.range nodes.length).length + 1) := by
  refine .of_le (List.mem_range.mpr hstart) ?_
  rintro u c v ⟨⟨nid, ⟨id, loc⟩, d⟩, hl, rfl, rfl⟩
  obtain ⟨hloc, hd⟩ := (hasRship_committed hx hlt).mp hl.1
  obtain rfl : loc = .slot := hloc
  have hnode := (visibleGraph_committed hx hlt h).hasNode_of_follows ⟨_, hl, rfl⟩
  exact ⟨hb id d hd, List.mem_range.mpr ((hasNode_committed hx hlt).mp hnode)⟩

/-- One weighted shortest path: the search returns true exactly when `stop`
can be reached; then the path that is traced is a lightest one, and the weight
is its total. -/
theorem weighted_shortest_path_iff {W : Type} [AddCommMonoid W] [LinearOrder W]
    [IsOrderedAddMonoid W] (s : GraphDb) (xid start stop numNodes : Nat) (both : Bool)
    (rpred : RshipPredicate) (weightFunc : RshipWeight W) (unknown : W) (spath : PathItem W)
    (hg : s.VisibleGraph xid) (hstart : s.HasNode xid start)
    (hexact : ExactWeights (s.Weighs xid both rpred weightFunc) start unknown)
    (hnodes : ∀ v, s.HasNode xid v → v < numNodes) (hcap : numNodes ≤ UNKNOWN)
    (hstop : stop < numNodes) :
    ∃ (found : Bool) (item : PathItem W) (s' : GraphDb),
      weightedShortestPath xid both rpred weightFunc unknown numNodes stop start spath s =
        .ok (found, item) s' ∧
      (found = true ↔ ∃ p x, Route (s.Weighs xid both rpred weightFunc) start p stop x) ∧
      (found = true → ∃ p, item.path = spath.path ++ p ∧
        Lightest (s.Weighs xid both rpred weightFunc) start p stop item.weight) := by
  obtain ⟨adj, hp⟩ := hg.presents both rpred
  obtain ⟨r, s', hloop, hreach, hpath⟩ := weightedLoop_ok hg hp hstart hexact hnodes hcap hstop
    (.initial hexact) (.refl xid s) List.not_mem_nil (Nat.zero_add numNodes) spath
  exact ⟨r.1, r.2, s', hloop, hreach, hpath⟩

theorem weighted_shortest_path_circle : ∃ (found : Bool) (item : PathItem Nat) (s' : GraphDb),
    weightedShortestPath 1 true (fun _ _ => true) (fun r _ => r.id + 1) 10 4 1 0 .new
      GraphDb.circle = .ok (found, item) s' ∧
    (found = true ↔ ∃ p x, Route
      (GraphDb.circle.Weighs 1 true (fun _ _ => true) fun r _ => r.id + 1) 0 p 1 x) ∧
    (found = true → ∃ p, item.path = [] ++ p ∧ Lightest
      (GraphDb.circle.Weighs 1 true (fun _ _ => true) fun r _ => r.id + 1) 0 p 1 item.weight) :=
  weighted_shortest_path_iff GraphDb.circle 1 0 1 4 true (fun _ _ => true) (fun r _ => r.id + 1)
    10 .new (visibleGraph_committed (by decide) (by decide) (by decide))
    ((hasNode_committed (by decide) (by decide)).mpr (by decide))
    (@exact_committed 1 0 3 true (fun _ _ => true) (fun r _ => r.id + 1) _ _ (by decide)
      (by decide) (by decide) (by decide) fun id d hd => by
        have hlt := (List.getElem?_eq_some_iff.mp hd).1
        exact hlt)
    (fun v hv => Nat.lt_succ_of_lt ((hasNode_committed (by decide) (by decide)).mp hv))
    (by decide) (by decide)

end Poseidon
