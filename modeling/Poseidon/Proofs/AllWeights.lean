import Poseidon.Lib.Extremum
import Poseidon.Proofs.AllHops
import Poseidon.Proofs.WeightedSearches

/-!
# All weighted shortest paths

`all_weighted_shortest_paths` compares the total of each relationship that
arrives at the stop node with the weight the node has. If they are equal, it
appends the path that is in the tree, not the one over the relationship. So
each tie gives an item that is not the lightest path, or gives that path once
more.
-/

namespace Poseidon

open Wp Dijkstra Extremum

/-- These are the lightest paths, each once and with its total. -/
structure ExactlyLightest {W : Type} [AddCommMonoid W] [LinearOrder W]
    (step : Nat → W → Nat → Prop) (start stop : Nat) (items : List (PathItem W)) : Prop where
  lightest : ∀ i ∈ items, Lightest step start i.path stop i.weight
  complete : ∀ p x, Lightest step start p stop x → ∃ i ∈ items, i.path = p
  once : (items.map PathItem.path).Nodup

/-- A relationship to the stop node, and the node that it is followed from. -/
structure Arrival (W : Type) where
  dist : W
  node : Nat
  link : Link

namespace Arrival

variable {W : Type}

/-- The weight that the stop node gets by it. -/
def total [Add W] (weightFunc : RshipWeight W) (a : Arrival W) : W :=
  a.dist + weightFunc a.link.ref a.link.data

/-- The order of the arrivals: by the distance of the node, then by its id;
at one node the outgoing relationships come first. -/
def Before [LT W] (a b : Arrival W) : Prop :=
  a.dist < b.dist ∨ (a.dist = b.dist ∧ (a.node < b.node ∨
    (a.node = b.node ∧ a.link.data.srcNode = a.node ∧ b.link.data.srcNode ≠ b.node)))

theorem Before.asymm [LinearOrder W] {a b : Arrival W} (h : a.Before b) : ¬b.Before a := by
  intro h'
  rcases h with hlt | ⟨heq, hnode⟩
  · rcases h' with hlt' | ⟨heq', -⟩
    · exact lt_asymm hlt hlt'
    · exact hlt.ne heq'.symm
  · rcases h' with hlt' | ⟨-, hnode'⟩
    · exact hlt'.ne heq.symm
    · rcases hnode with hlt | ⟨heq, hsrc, -⟩
      · rcases hnode' with hlt' | ⟨heq', -, -⟩
        · exact lt_asymm hlt hlt'
        · exact hlt.ne heq'.symm
      · rcases hnode' with hlt' | ⟨-, -, hsrc'⟩
        · exact hlt'.ne heq.symm
        · exact hsrc' hsrc

end Arrival

section

variable {W : Type} [AddCommMonoid W] [LinearOrder W]

/-- The relationship arrives at the stop node from a node at this distance. -/
def GraphDb.Arrives (s : GraphDb) (xid : Nat) (both : Bool) (rpred : RshipPredicate)
    (weightFunc : RshipWeight W) (start stop : Nat) (a : Arrival W) : Prop :=
  (∃ p, Lightest (s.Weighs xid both rpred weightFunc) start p a.node a.dist) ∧
    s.HasLink xid both rpred a.node a.link ∧ a.link.nid = stop

/-- No two relationships arrive with the same total, unless a lighter one has
arrived before the later of them. -/
def GraphDb.TieFree (s : GraphDb) (xid : Nat) (both : Bool) (rpred : RshipPredicate)
    (weightFunc : RshipWeight W) (start stop : Nat) : Prop :=
  ∀ a b, s.Arrives xid both rpred weightFunc start stop a →
    s.Arrives xid both rpred weightFunc start stop b → a.Before b →
    a.total weightFunc = b.total weightFunc →
    ∃ c, s.Arrives xid both rpred weightFunc start stop c ∧ c.Before b ∧
      c.total weightFunc < b.total weightFunc

/-- There is at most one lightest path. -/
def GraphDb.OneLightest (s : GraphDb) (xid : Nat) (both : Bool) (rpred : RshipPredicate)
    (weightFunc : RshipWeight W) (start stop : Nat) : Prop :=
  ∀ p p' x x', Lightest (s.Weighs xid both rpred weightFunc) start p stop x →
    Lightest (s.Weighs xid both rpred weightFunc) start p' stop x' → p = p'

end

/-- No two accepted relationships have the same source and the same
destination. -/
def GraphDb.NoParallel (s : GraphDb) (xid : Nat) (rpred : RshipPredicate) : Prop :=
  ∀ r r' d d', s.HasRship xid r d → s.HasRship xid r' d' → rpred r d = true → rpred r' d' = true →
    d.srcNode = d'.srcNode → d.destNode = d'.destNode → r = r' ∧ d = d'

/-! ## The links of a node -/

section

variable {W : Type} [AddCommMonoid W] [LinearOrder W] {s s1 : GraphDb} {xid start stop : Nat}
  {both : Bool} {rpred : RshipPredicate} {adj : Nat → List Link} {weightFunc : RshipWeight W}
  {unknown : W} {numNodes m : Nat} {done : Nat → W → Nat → Prop} {st : WeightSearch W}
  {tree : Nat → List Nat} {items : List (PathItem W)} {as : List (Arrival W)} {links : List Link}

/-- What holds of the weight of the stop node and of the items when `as` have
arrived. -/
structure Arriving (weightFunc : RshipWeight W) (unknown : W) (stop : Nat)
    (as : List (Arrival W)) (items : List (PathItem W)) (st : WeightSearch W)
    (tree : Nat → List Nat) : Prop where
  below : ∀ a ∈ as, st.weight stop ≤ a.total weightFunc
  attained : st.weight stop = unknown ∨ ∃ a ∈ as, a.total weightFunc = st.weight stop
  tied : Tied (as.map (Arrival.total weightFunc)) ↔ items ≠ []
  late : ∀ i ∈ items, st.weight stop < i.weight ∨
    (st.weight stop = i.weight ∧ i.path = tree stop)

/-- The arrivals over the links of a node. -/
def arrivalsAt (stop m : Nat) (x : W) (links : List Link) : List (Arrival W) :=
  (links.filter (·.nid = stop)).map fun l => ⟨x, m, l⟩

omit [AddCommMonoid W] [LinearOrder W] in
theorem arrivalsAt_cons (stop m : Nat) (x : W) (l : Link) (links : List Link) :
    arrivalsAt stop m x (l :: links) = arrivalsAt stop m x [l] ++ arrivalsAt stop m x links := by
  rw [arrivalsAt, arrivalsAt, arrivalsAt, ← List.map_append, ← List.filter_append]
  rfl

namespace Arriving

/-- A link to another node. -/
theorem other {tree' : Nat → List Nat} {l : Link}
    (h : Arriving weightFunc unknown stop as items st tree) (hl : l.nid ≠ stop)
    (htree : ∀ v, (st.relax weightFunc m l).weight v = st.weight v → tree' v = tree v) :
    Arriving weightFunc unknown stop as items (st.relax weightFunc m l) tree' := by
  have hweight : (st.relax weightFunc m l).weight stop = st.weight stop := by
    rw [WeightSearch.relax]
    split
    · exact Function.update_of_ne (Ne.symm hl) _ _
    · rfl
  refine ⟨?_, ?_, h.tied, ?_⟩
  · rw [hweight]
    exact h.below
  · rw [hweight]
    exact h.attained
  · rw [hweight, htree stop hweight]
    exact h.late

/-- A link that makes the stop node lighter. -/
theorem lighter {tree' : Nat → List Nat} {l : Link}
    (h : Arriving weightFunc unknown stop as items st tree) (hl : l.nid = stop)
    (hstop : stop ∉ st.visited)
    (hlt : st.weight m + weightFunc l.ref l.data < st.weight stop) :
    Arriving weightFunc unknown stop (as ++ [⟨st.weight m, m, l⟩]) items
      (st.relax weightFunc m l) tree' := by
  have hweight : (st.relax weightFunc m l).weight stop =
      st.weight m + weightFunc l.ref l.data := by
    rw [WeightSearch.relax, if_pos ⟨hl ▸ hstop, hl ▸ hlt⟩, ← hl]
    exact Function.update_self ..
  have hbelow : ∀ a ∈ as, st.weight m + weightFunc l.ref l.data < a.total weightFunc :=
    fun a ha => hlt.trans_le (h.below a ha)
  constructor
  · intro a ha
    rw [hweight]
    rcases List.mem_append.mp ha with ha | ha
    · exact (hbelow a ha).le
    · rw [List.mem_singleton.mp ha]
      exact le_rfl
  · exact .inr ⟨_, List.mem_append_right _ (List.mem_singleton_self _), hweight.symm⟩
  · rw [List.map_append, List.map_singleton, tied_concat, ← h.tied]
    refine or_iff_left fun hmem => ?_
    obtain ⟨a, ha, heq⟩ := List.mem_map.mp hmem.1
    exact (hbelow a ha).ne heq.symm
  · intro i hi
    rw [hweight]
    refine .inl ?_
    rcases h.late i hi with hle | ⟨heq, -⟩
    · exact hlt.trans hle
    · exact heq ▸ hlt

/-- A link with the weight that the stop node has. -/
theorem tie {l : Link} (h : Arriving weightFunc unknown stop as items st tree)
    (hknown : st.weight stop ≠ unknown)
    (heq : st.weight m + weightFunc l.ref l.data = st.weight stop) :
    Arriving weightFunc unknown stop (as ++ [⟨st.weight m, m, l⟩])
      (items ++ [.traced (tree stop) (st.weight stop)]) st tree := by
  obtain ⟨o, ho, hmin⟩ := h.attained.resolve_left hknown
  constructor
  · intro a ha
    rcases List.mem_append.mp ha with ha | ha
    · exact h.below a ha
    · rw [List.mem_singleton.mp ha]
      exact heq.ge
  · exact .inr ⟨o, List.mem_append_left _ ho, hmin⟩
  · rw [List.map_append, List.map_singleton, tied_concat]
    refine iff_of_true (.inr ⟨?_, fun y hy => ?_⟩)
      (List.append_ne_nil_of_right_ne_nil _ (List.cons_ne_nil _ _))
    · exact List.mem_map.mpr ⟨o, ho, hmin.trans heq.symm⟩
    · obtain ⟨a, ha, rfl⟩ := List.mem_map.mp hy
      exact heq.trans_le (h.below a ha)
  · intro i hi
    rcases List.mem_append.mp hi with hi | hi
    · exact h.late i hi
    · rw [List.mem_singleton.mp hi]
      exact .inr ⟨rfl, rfl⟩

/-- A link that is heavier than what the stop node has. -/
theorem heavier {l : Link} (h : Arriving weightFunc unknown stop as items st tree)
    (hknown : st.weight stop ≠ unknown)
    (hlt : st.weight stop < st.weight m + weightFunc l.ref l.data) :
    Arriving weightFunc unknown stop (as ++ [⟨st.weight m, m, l⟩]) items st tree := by
  obtain ⟨o, ho, hmin⟩ := h.attained.resolve_left hknown
  refine ⟨fun a ha => ?_, .inr ⟨o, List.mem_append_left _ ho, hmin⟩, ?_, h.late⟩
  · rcases List.mem_append.mp ha with ha | ha
    · exact h.below a ha
    · rw [List.mem_singleton.mp ha]
      exact hlt.le
  · rw [List.map_append, List.map_singleton, tied_concat, ← h.tied]
    refine or_iff_left fun hmem => ?_
    have hle := hmem.2 _ (List.mem_map_of_mem ho)
    exact absurd (hmin ▸ hle) (not_le.mpr hlt)

end Arriving

/-- One link is relaxed while the stop node is not marked. -/
theorem relaxAll_ok [IsOrderedAddMonoid W] {l : Link} (hg : s.VisibleGraph xid)
    (hstart : s.HasNode xid start)
    (hexact : ExactWeights (s.Weighs xid both rpred weightFunc) start unknown)
    (hnodes : ∀ v, s.HasNode xid v → v < numNodes) (hcap : numNodes ≤ UNKNOWN)
    (h : Settling s xid both rpred weightFunc start unknown done st tree)
    (ha : Arriving weightFunc unknown stop as items st tree) (hm : m ∈ st.visited)
    (hlast : ∀ u ∈ st.visited, st.weight u ≤ st.weight m) (hl : s.HasLink xid both rpred m l)
    (hstop : stop ∉ st.visited) :
    ∃ tree' items', Settling s xid both rpred weightFunc start unknown
        (fun u c v => done u c v ∨ (u = m ∧ c = weightFunc l.ref l.data ∧ v = l.nid))
        (st.relax weightFunc m l) tree' ∧
      Arriving weightFunc unknown stop (as ++ arrivalsAt stop m (st.weight m) [l]) items'
        (st.relax weightFunc m l) tree' ∧
      ∀ base, WeightSearch.relaxAll weightFunc numNodes stop m (st, base ++ items) l =
        .ok (st.relax weightFunc m l, base ++ items') := by
  obtain ⟨tree', h', htree⟩ := h.relax hexact hm hlast hl
  by_cases hnid : l.nid = stop
  · have harr : arrivalsAt stop m (st.weight m) [l] = [⟨st.weight m, m, l⟩] := by
      rw [arrivalsAt, List.filter_cons_of_pos (by simpa using hnid)]
      rfl
    have hlt := h.inv.lt_unknown hexact hm ⟨l, hl, rfl, hnid⟩ hstop
    rw [harr]
    rcases lt_trichotomy (st.weight m + weightFunc l.ref l.data) (st.weight stop) with
      hcmp | hcmp | hcmp
    · refine ⟨tree', items, h', ha.lighter hnid hstop hcmp, fun base => ?_⟩
      rw [WeightSearch.relaxAll, if_pos ⟨hnid ▸ hstop, hnid ▸ hcmp⟩]
    · have hcond : ¬(l.nid ∉ st.visited ∧
          st.weight m + weightFunc l.ref l.data < st.weight l.nid) := by
        rw [hnid, hcmp]
        exact fun h => lt_irrefl _ h.2
      have hrelax : st.relax weightFunc m l = st := by
        rw [WeightSearch.relax, if_neg hcond]
      have hknown : st.weight stop ≠ unknown := hcmp ▸ hlt.ne
      obtain rfl : tree' = tree := funext fun v => htree v (by rw [hrelax])
      refine ⟨tree', items ++ [.traced (tree' stop) (st.weight stop)], h', ?_, fun base => ?_⟩
      · rw [hrelax]
        exact ha.tie hknown hcmp
      · rw [WeightSearch.relaxAll, if_neg hcond, if_pos ⟨hnid, by rw [hnid, hcmp]⟩,
          h.trace hg hstart hnodes hcap hknown, hrelax, hnid, ← List.append_assoc]
        rfl
    · have hcond : ¬(l.nid ∉ st.visited ∧
          st.weight m + weightFunc l.ref l.data < st.weight l.nid) := by
        rw [hnid]
        exact fun h => lt_asymm hcmp h.2
      have hrelax : st.relax weightFunc m l = st := by
        rw [WeightSearch.relax, if_neg hcond]
      obtain rfl : tree' = tree := funext fun v => htree v (by rw [hrelax])
      refine ⟨tree', items, h', ?_, fun base => ?_⟩
      · rw [hrelax]
        exact ha.heavier (hcmp.trans hlt).ne hcmp
      · rw [WeightSearch.relaxAll, if_neg hcond, if_neg, hrelax]
        rw [hnid]
        exact fun h => hcmp.ne' h.2
  · have harr : arrivalsAt stop m (st.weight m) [l] = [] := by
      rw [arrivalsAt, List.filter_cons_of_neg (by simpa using hnid)]
      rfl
    rw [harr, List.append_nil]
    refine ⟨tree', items, h', ha.other hnid htree, fun base => ?_⟩
    rw [WeightSearch.relaxAll]
    split
    · rfl
    · rename_i hcond
      rw [if_neg fun h => hnid h.1, WeightSearch.relax, if_neg hcond]

/-- The links of a node are relaxed while the stop node is not marked. -/
theorem foldlM_relaxAll [IsOrderedAddMonoid W] (hg : s.VisibleGraph xid)
    (hstart : s.HasNode xid start)
    (hexact : ExactWeights (s.Weighs xid both rpred weightFunc) start unknown)
    (hnodes : ∀ v, s.HasNode xid v → v < numNodes) (hcap : numNodes ≤ UNKNOWN)
    (h : Settling s xid both rpred weightFunc start unknown done st tree)
    (ha : Arriving weightFunc unknown stop as items st tree) (hm : m ∈ st.visited)
    (hlast : ∀ u ∈ st.visited, st.weight u ≤ st.weight m)
    (hlinks : ∀ l ∈ links, s.HasLink xid both rpred m l) (hstop : stop ∉ st.visited) :
    ∃ tree' items', Settling s xid both rpred weightFunc start unknown
        (fun u c v => done u c v ∨ (u = m ∧ ∃ l ∈ links, c = weightFunc l.ref l.data ∧ v = l.nid))
        (links.foldl (WeightSearch.relax weightFunc m) st) tree' ∧
      Arriving weightFunc unknown stop (as ++ arrivalsAt stop m (st.weight m) links) items'
        (links.foldl (WeightSearch.relax weightFunc m) st) tree' ∧
      ∀ base, links.foldlM (WeightSearch.relaxAll weightFunc numNodes stop m) (st, base ++ items) =
        .ok (links.foldl (WeightSearch.relax weightFunc m) st, base ++ items') := by
  induction links generalizing st tree done as items with
  | nil =>
      refine ⟨tree, items, ⟨h.inv.congr_done ?_, h.nodup, h.root, h.parents⟩, ?_, fun base => rfl⟩
      · rintro u c v (hd | ⟨-, l, hl, -⟩)
        · exact hd
        · cases hl
      · rw [arrivalsAt, List.filter_nil, List.map_nil, List.append_nil]
        exact ha
  | cons l links ih =>
      obtain ⟨tree1, items1, h1, ha1, hstep⟩ :=
        relaxAll_ok hg hstart hexact hnodes hcap h ha hm hlast
        (hlinks l (List.mem_cons_self ..)) hstop
      have hvisited : (st.relax weightFunc m l).visited = st.visited := by simp
      have hweight : (st.relax weightFunc m l).weight m = st.weight m :=
        WeightSearch.relax_weight hm l
      obtain ⟨tree2, items2, h2, ha2, hrest⟩ := ih h1 ha1 (hvisited ▸ hm) (fun u hu => by
        rw [hvisited] at hu
        rw [WeightSearch.relax_weight hu, hweight]
        exact hlast u hu) (fun l' hl' => hlinks l' (List.mem_cons_of_mem _ hl')) (hvisited ▸ hstop)
      refine ⟨tree2, items2, ⟨h2.inv.congr_done ?_, h2.nodup, h2.root, h2.parents⟩, ?_,
        fun base => ?_⟩
      · rintro u c v (hd | ⟨hu, l', hl', hcv⟩)
        · exact .inl (.inl hd)
        · rcases List.mem_cons.mp hl' with rfl | hl'
          · exact .inl (.inr ⟨hu, hcv⟩)
          · exact .inr ⟨hu, l', hl', hcv⟩
      · rw [hweight, List.append_assoc, ← arrivalsAt_cons] at ha2
        exact ha2
      · rw [List.foldlM_cons, hstep base]
        exact hrest base

/-- The links of a node that is not nearer than the stop node. -/
theorem foldlM_quiet [IsOrderedCancelAddMonoid W] (spaths : List (PathItem W))
    (hpos : ∀ u c v, s.Weighs xid both rpred weightFunc u c v → 0 < c) (hm : m ∈ st.visited)
    (hstop : stop ∈ st.visited) (hle : st.weight stop ≤ st.weight m)
    (hlinks : ∀ l ∈ links, s.HasLink xid both rpred m l) :
    links.foldlM (WeightSearch.relaxAll weightFunc numNodes stop m) (st, spaths) =
      .ok (links.foldl (WeightSearch.relax weightFunc m) st, spaths) := by
  induction links generalizing st with
  | nil => rfl
  | cons l links ih =>
      have hstep : WeightSearch.relaxAll weightFunc numNodes stop m (st, spaths) l =
          .ok (st.relax weightFunc m l, spaths) := by
        have hc := hpos m _ _ ⟨l, hlinks l (List.mem_cons_self ..), rfl, rfl⟩
        have hlt := hle.trans_lt (lt_add_of_pos_right (st.weight m) hc)
        rw [WeightSearch.relaxAll]
        split
        · rfl
        · rename_i hcond
          rw [if_neg, WeightSearch.relax, if_neg hcond]
          rintro ⟨hnid, heq⟩
          exact hlt.ne (hnid ▸ heq.symm)
      rw [List.foldlM_cons, hstep]
      refine ih (by simpa using hm) (by simpa using hstop) ?_
        fun l' hl' => hlinks l' (List.mem_cons_of_mem _ hl')
      rwa [WeightSearch.relax_weight hstop, WeightSearch.relax_weight hm]

/-! ## Rounds until the stop node is marked -/

/-- What holds of the search until the stop node is marked. -/
structure AllSettling (s : GraphDb) (xid : Nat) (both : Bool) (rpred : RshipPredicate)
    (weightFunc : RshipWeight W) (start stop : Nat) (unknown : W) (as : List (Arrival W))
    (items : List (PathItem W)) (st : WeightSearch W) (tree : Nat → List Nat) : Prop where
  settled : Settled s xid both rpred weightFunc start unknown st tree
  ahead : Ahead (s.Weighs xid both rpred weightFunc) start st.visited st.weight
  arriving : Arriving weightFunc unknown stop as items st tree
  mem : ∀ a, a ∈ as ↔ a.node ∈ st.visited ∧ a.dist = st.weight a.node ∧
    s.HasLink xid both rpred a.node a.link ∧ a.link.nid = stop
  sorted : as.Pairwise Arrival.Before

namespace AllSettling

omit [AddCommMonoid W] in
/-- The arrivals at a node are in order. -/
theorem arrivalsAt_sorted (hp : s.Presents xid both rpred adj) (hnode : s.HasNode xid m)
    (hparallel : s.NoParallel xid rpred) (hms : m ≠ stop) (x : W) :
    (arrivalsAt stop m x (adj m)).Pairwise Arrival.Before := by
  obtain ⟨out, inc, hadj, hout, hinc, hmemOut, hmemInc⟩ := hp.lists m hnode
  have hlink : ∀ l, l ∈ adj m → s.HasLink xid both rpred m l := fun l => (hp.mem m hnode l).mp
  have heq : ∀ l ∈ adj m, ∀ l' ∈ adj m, l.nid = l'.nid → l.data.srcNode = l'.data.srcNode →
      l.data.destNode = l'.data.destNode → l = l' := by
    intro l hl l' hl' hnid hsrc hdest
    obtain ⟨href, hdata⟩ := hparallel _ _ _ _ (hlink l hl).1 (hlink l' hl').1 (hlink l hl).2.1
      (hlink l' hl').2.1 hsrc hdest
    obtain ⟨nid, ref, data⟩ := l
    simp_all
  rw [arrivalsAt, List.pairwise_map, hadj, List.filter_append, List.pairwise_append]
  rw [hadj] at heq
  refine ⟨?_, ?_, fun l hl l' hl' => ?_⟩
  · refine (hout.filter _).imp_of_mem fun {l l'} hl hl' hne => absurd ?_ hne
    obtain ⟨hl, hnid⟩ := List.mem_filter.mp hl
    obtain ⟨hl', hnid'⟩ := List.mem_filter.mp hl'
    have hnids : l.nid = l'.nid := (of_decide_eq_true hnid).trans (of_decide_eq_true hnid').symm
    refine heq l (List.mem_append_left _ hl) l' (List.mem_append_left _ hl') hnids ?_ ?_
    · rw [(hmemOut l hl).1, (hmemOut l' hl').1]
    · rw [(hmemOut l hl).2, (hmemOut l' hl').2, hnids]
  · refine (hinc.filter _).imp_of_mem fun {l l'} hl hl' hne => absurd ?_ hne
    obtain ⟨hl, hnid⟩ := List.mem_filter.mp hl
    obtain ⟨hl', hnid'⟩ := List.mem_filter.mp hl'
    have hnids : l.nid = l'.nid := (of_decide_eq_true hnid).trans (of_decide_eq_true hnid').symm
    refine heq l (List.mem_append_right _ hl) l' (List.mem_append_right _ hl') hnids ?_ ?_
    · rw [(hmemInc l hl).2, (hmemInc l' hl').2, hnids]
    · rw [(hmemInc l hl).1, (hmemInc l' hl').1]
  · obtain ⟨hl, -⟩ := List.mem_filter.mp hl
    obtain ⟨hl', hnid'⟩ := List.mem_filter.mp hl'
    refine .inr ⟨rfl, .inr ⟨rfl, (hmemOut l hl).1, ?_⟩⟩
    rw [(hmemInc l' hl').2, of_decide_eq_true hnid']
    exact hms.symm

/-- A round: a node other than the stop node is marked, and its links are
relaxed. -/
theorem round [IsOrderedCancelAddMonoid W] (hg : s.VisibleGraph xid)
    (hp : s.Presents xid both rpred adj) (hstart : s.HasNode xid start)
    (hexact : ExactWeights (s.Weighs xid both rpred weightFunc) start unknown)
    (hpos : ∀ u c v, s.Weighs xid both rpred weightFunc u c v → 0 < c)
    (hparallel : s.NoParallel xid rpred) (hnodes : ∀ v, s.HasNode xid v → v < numNodes)
    (hcap : numNodes ≤ UNKNOWN)
    (h : AllSettling s xid both rpred weightFunc start stop unknown as items st tree)
    (hmin : st.IsMin numNodes m) (hknown : st.weight m ≠ unknown) (hms : m ≠ stop)
    (hstop : stop ∉ st.visited) :
    ∃ tree' items', AllSettling s xid both rpred weightFunc start stop unknown
        (as ++ arrivalsAt stop m (st.weight m) (adj m)) items'
        ((adj m).foldl (WeightSearch.relax weightFunc m) { st with visited := m :: st.visited })
        tree' ∧
      ∀ base, (adj m).foldlM (WeightSearch.relaxAll weightFunc numNodes stop m)
          ({ st with visited := m :: st.visited }, base ++ items) =
        .ok ((adj m).foldl (WeightSearch.relax weightFunc m) { st with visited := m :: st.visited },
          base ++ items') := by
  have hroute := h.settled.inv.route m hknown
  have hnode := hg.hasNode_of_route hstart hroute
  have hleast := h.settled.least hg hstart hnodes hmin
  have hmem : ∀ l ∈ adj m, s.HasLink xid both rpred m l := fun l => (hp.mem m hnode l).mp
  obtain ⟨tree', items', hset, harr, hfold⟩ := foldlM_relaxAll hg hstart hexact hnodes hcap
    (h.settled.mark hleast hmin.fresh hknown)
    ⟨h.arriving.below, h.arriving.attained, h.arriving.tied, h.arriving.late⟩
    (List.mem_cons_self ..) (h.settled.last hmin.fresh) hmem
    fun hin => (List.mem_cons.mp hin).elim (fun heq => hms heq.symm) hstop
  have hweight : ∀ u ∈ m :: st.visited, ((adj m).foldl (WeightSearch.relax weightFunc m)
      { st with visited := m :: st.visited }).weight u = st.weight u := fun u hu =>
    WeightSearch.foldl_relax_weight hu _
  refine ⟨tree', items', ⟨⟨hset.inv.congr_done ?_, hset.nodup, hset.root, hset.parents⟩, ?_, harr,
    fun a => ?_, ?_⟩, hfold⟩
  · rintro u c v ⟨hu, hstep⟩
    rw [WeightSearch.foldl_relax_visited] at hu
    exact Settled.steps_of_links hp hnode hu hstep
  · rw [WeightSearch.foldl_relax_visited]
    intro u hu v hv p x hroute
    rw [hweight u hu]
    refine Round.ahead_settle h.settled.inv hexact hpos h.ahead hleast hmin.first u hu v hv p x ?_
    exact hroute
  · rw [WeightSearch.foldl_relax_visited, List.mem_append, h.mem]
    constructor
    · rintro (⟨hnode', hdist, hlink⟩ | hnew)
      · have hin := List.mem_cons_of_mem m hnode'
        exact ⟨hin, by rw [hweight _ hin, hdist], hlink⟩
      · obtain ⟨l, hl, rfl⟩ := List.mem_map.mp hnew
        obtain ⟨hl, hnid⟩ := List.mem_filter.mp hl
        exact ⟨List.mem_cons_self .., (hweight m (List.mem_cons_self ..)).symm, hmem l hl,
          of_decide_eq_true hnid⟩
    · rintro ⟨hin, hdist, hlink, hnid⟩
      rw [hweight _ hin] at hdist
      rcases List.mem_cons.mp hin with heq | hin
      · refine .inr (List.mem_map.mpr ⟨a.link, List.mem_filter.mpr ⟨?_, decide_eq_true hnid⟩, ?_⟩)
        · exact (hp.mem m hnode _).mpr (heq ▸ hlink)
        · obtain ⟨dist, node, link⟩ := a
          obtain rfl : node = m := heq
          obtain rfl : dist = st.weight node := hdist
          rfl
      · exact .inl ⟨hin, hdist, hlink, hnid⟩
  · refine List.pairwise_append.mpr ⟨h.sorted, arrivalsAt_sorted hp hnode hparallel hms _,
      fun a ha b hb => ?_⟩
    obtain ⟨hin, hdist, -⟩ := (h.mem a).mp ha
    obtain ⟨l, -, rfl⟩ := List.mem_map.mp hb
    rcases h.ahead a.node hin m hmin.fresh _ _ hroute with hlt | ⟨heq, hlt⟩
    · exact .inl (hdist ▸ hlt)
    · exact .inr ⟨hdist.trans heq, .inl hlt⟩

/-! ## Ties -/

variable (h : AllSettling s xid both rpred weightFunc start stop unknown as items st tree)
include h

section

variable [IsOrderedAddMonoid W]
  (hexact : ExactWeights (s.Weighs xid both rpred weightFunc) start unknown)
include hexact

theorem arrives {a : Arrival W} (ha : a ∈ as) :
    s.Arrives xid both rpred weightFunc start stop a := by
  obtain ⟨hin, hdist, hlink, hnid⟩ := (h.mem a).mp ha
  exact ⟨⟨tree a.node, hdist ▸ Round.settled_lightest h.settled.inv hexact hin⟩, hlink, hnid⟩

theorem mem_of_arrives {a : Arrival W} (ha : s.Arrives xid both rpred weightFunc start stop a)
    (hin : a.node ∈ st.visited) : a ∈ as := by
  obtain ⟨⟨p, hp⟩, hlink, hnid⟩ := ha
  have hset := Round.settled_lightest h.settled.inv hexact hin
  exact (h.mem a).mpr ⟨hin, le_antisymm (hp.2 _ _ hset.1) (hset.2 _ _ hp.1), hlink, hnid⟩

end

/-- What arrives before an arrival from a marked node comes from a marked
node. -/
theorem mem_of_before {b c : Arrival W} (hb : b ∈ as)
    (hc : s.Arrives xid both rpred weightFunc start stop c) (hbefore : c.Before b) :
    c.node ∈ st.visited := by
  by_contra hin
  obtain ⟨hinB, hdist, -⟩ := (h.mem b).mp hb
  obtain ⟨⟨p, hp⟩, -⟩ := hc
  rcases h.ahead b.node hinB c.node hin p c.dist hp.1 with hlt | ⟨heq, hlt⟩
  · rw [← hdist] at hlt
    rcases hbefore with hlt' | ⟨heq', -⟩
    · exact lt_asymm hlt hlt'
    · exact hlt.ne heq'.symm
  · rw [← hdist] at heq
    rcases hbefore with hlt' | ⟨-, hlt' | ⟨heq', -⟩⟩
    · exact hlt'.ne heq.symm
    · exact lt_asymm hlt hlt'
    · exact hlt.ne heq'.symm

/-- The arrivals before an arrival are those in front of it. -/
theorem mem_front {b c : Arrival W} {front back : List (Arrival W)}
    (has : as = front ++ b :: back) (hc : c ∈ as) : c ∈ front ↔ c.Before b := by
  have hsorted := h.sorted
  rw [has, List.pairwise_append, List.pairwise_cons] at hsorted
  constructor
  · exact fun hc => hsorted.2.2 c hc b (List.mem_cons_self ..)
  · intro hbefore
    rw [has] at hc
    rcases List.mem_append.mp hc with hc | hc
    · exact hc
    · rcases List.mem_cons.mp hc with rfl | hc
      · exact absurd hbefore hbefore.asymm
      · exact absurd hbefore (hsorted.2.1.1 c hc).asymm

/-- The totals are tied if and only if two relationships arrive with the same
total and none that is lighter has arrived. -/
theorem tied_iff [IsOrderedCancelAddMonoid W]
    (hexact : ExactWeights (s.Weighs xid both rpred weightFunc) start unknown)
    (hpos : ∀ u c v, s.Weighs xid both rpred weightFunc u c v → 0 < c)
    (hknown : st.weight stop ≠ unknown)
    (hmin : ∀ v, v ∉ st.visited → st.weight stop ≤ st.weight v) :
    Tied (as.map (Arrival.total weightFunc)) ↔
      ¬s.TieFree xid both rpred weightFunc start stop := by
  constructor
  · rintro ⟨front, x, back, hmap, hx, hle⟩ hfree
    obtain ⟨pre, rest, rfl, rfl, hrest⟩ := List.map_eq_append_iff.mp hmap
    obtain ⟨b, post, rfl, rfl, rfl⟩ := List.map_eq_cons_iff.mp hrest
    obtain ⟨a, ha, htotal⟩ := List.mem_map.mp hx
    have haIn : a ∈ pre ++ b :: post := List.mem_append_left _ ha
    have hbIn : b ∈ pre ++ b :: post := by simp
    obtain ⟨c, hc, hbefore, hlt⟩ := hfree a b (h.arrives hexact haIn) (h.arrives hexact hbIn)
      ((h.mem_front rfl haIn).mp ha) htotal
    have hcIn := h.mem_of_arrives hexact hc (h.mem_of_before hbIn hc hbefore)
    have hcPre := (h.mem_front rfl hcIn).mpr hbefore
    exact absurd (hle _ (List.mem_map_of_mem hcPre)) (not_le.mpr hlt)
  · intro htie
    by_contra hfree
    refine htie fun a b ha hb hbefore htotal => ?_
    by_contra hnone
    have hleast : ∀ c, s.Arrives xid both rpred weightFunc start stop c → c.Before b →
        b.total weightFunc ≤ c.total weightFunc := fun c hc hcb =>
      not_lt.mp fun hlt => hnone ⟨c, hc, hcb, hlt⟩
    refine hfree ?_
    have hbIn : b.node ∈ st.visited := by
      by_contra hin
      obtain ⟨⟨p, hp⟩, hlink, hnid⟩ := hb
      -- the lightest arrival comes from a marked node, so it comes before
      obtain ⟨o, ho, hmatch⟩ := h.arriving.attained.resolve_left hknown
      obtain ⟨hinO, hdist, -⟩ := (h.mem o).mp ho
      have hoBefore : o.Before b := by
        rcases h.ahead o.node hinO b.node hin p b.dist hp.1 with hlt | ⟨heq, hlt⟩
        · exact .inl (hdist ▸ hlt)
        · exact .inr ⟨hdist.trans heq, .inl hlt⟩
      have hle := hleast o (h.arrives hexact ho) hoBefore
      rw [hmatch] at hle
      have hdistB : st.weight stop ≤ b.dist := by
        rcases Round.leaves h.settled.inv hexact hp.1 with ⟨hset, -⟩ | ⟨u, hu, hle⟩
        · exact absurd hset hin
        · exact (hmin u hu).trans hle
      have hc := hpos b.node _ _ ⟨b.link, hlink, rfl, hnid⟩
      exact absurd (hdistB.trans_lt (lt_add_of_pos_right b.dist hc)) (not_lt.mpr hle)
    have hbAs := h.mem_of_arrives hexact hb hbIn
    have haAs := h.mem_of_arrives hexact ha (h.mem_of_before hbAs ha hbefore)
    obtain ⟨front, back, has⟩ := List.append_of_mem hbAs
    refine ⟨front.map (Arrival.total weightFunc), b.total weightFunc,
      back.map (Arrival.total weightFunc), by rw [has, List.map_append, List.map_cons],
      List.mem_map.mpr ⟨a, (h.mem_front has haAs).mpr hbefore, htotal⟩, fun y hy => ?_⟩
    obtain ⟨c, hc, rfl⟩ := List.mem_map.mp hy
    have hcAs : c ∈ as := has ▸ List.mem_append_left _ hc
    exact hleast c (h.arrives hexact hcAs) ((h.mem_front has hcAs).mp hc)

/-- The items when the stop node is marked: they are the lightest paths, each
once, if and only if there are no ties and there is one lightest path. -/
theorem exactlyLightest_iff [IsOrderedCancelAddMonoid W]
    (hexact : ExactWeights (s.Weighs xid both rpred weightFunc) start unknown)
    (hpos : ∀ u c v, s.Weighs xid both rpred weightFunc u c v → 0 < c)
    (hknown : st.weight stop ≠ unknown) (hstop : stop ∉ st.visited)
    (hmin : ∀ v, v ∉ st.visited → st.weight stop ≤ st.weight v) :
    ExactlyLightest (s.Weighs xid both rpred weightFunc) start stop
        (items ++ [.traced (tree stop) (st.weight stop)]) ↔
      s.TieFree xid both rpred weightFunc start stop ∧
        s.OneLightest xid both rpred weightFunc start stop := by
  have hlight := Round.lightest h.settled.inv hexact hstop hknown hmin
  have htied := h.arriving.tied.symm.trans (h.tied_iff hexact hpos hknown hmin)
  constructor
  · intro hitems
    have hnone : items = [] := by
      refine List.eq_nil_iff_forall_not_mem.mpr fun i hi => ?_
      rcases h.arriving.late i hi with hlt | ⟨-, hpath⟩
      · -- an item that is heavier than the lightest path
        have hle := (hitems.lightest i (List.mem_append_left _ hi)).2 _ _ hlight.1
        exact absurd hlt (not_lt.mpr hle)
      · -- the lightest path once more
        have honce := hitems.once
        rw [List.map_append, List.nodup_append] at honce
        exact honce.2.2 _ (List.mem_map_of_mem hi) _ (List.mem_singleton_self _) hpath
    refine ⟨not_not.mp fun hfree => htied.mpr hfree hnone, fun p p' x x' hp hp' => ?_⟩
    have hpath : ∀ q y, Lightest (s.Weighs xid both rpred weightFunc) start q stop y →
        q = tree stop := by
      intro q y hq
      obtain ⟨i, hi, rfl⟩ := hitems.complete q y hq
      rw [hnone, List.nil_append, List.mem_singleton] at hi
      rw [hi]
      rfl
    rw [hpath p x hp, hpath p' x' hp']
  · rintro ⟨hfree, hone⟩
    have hnone : items = [] := by
      by_contra hitems
      exact htied.mp hitems hfree
    rw [hnone, List.nil_append]
    refine ⟨fun i hi => ?_, fun p x hp => ?_, List.nodup_singleton _⟩
    · rw [List.mem_singleton.mp hi]
      exact hlight
    · exact ⟨_, List.mem_singleton_self _, hone _ _ _ _ hlight hp⟩

omit h in
/-- There are no paths, no ties and no items if the stop node cannot be
reached. -/
theorem exactlyLightest_of_unreachable
    (h : AllSettling s xid both rpred weightFunc start stop unknown as items st tree)
    (hnot : ∀ p x, ¬Route (s.Weighs xid both rpred weightFunc) start p stop x) :
    ExactlyLightest (s.Weighs xid both rpred weightFunc) start stop items ∧
      s.TieFree xid both rpred weightFunc start stop ∧
        s.OneLightest xid both rpred weightFunc start stop := by
  have has : as = [] := by
    refine List.eq_nil_iff_forall_not_mem.mpr fun a ha => ?_
    obtain ⟨hin, -, hlink, hnid⟩ := (h.mem a).mp ha
    have hroute := h.settled.inv.route a.node (h.settled.inv.known a.node hin)
    exact hnot _ _ (hroute.snoc ⟨a.link, hlink, rfl, hnid⟩)
  have hitems : items = [] := by
    by_contra hne
    have htied := h.arriving.tied.mpr hne
    rw [has] at htied
    exact not_tied_nil htied
  refine ⟨⟨fun i hi => ?_, fun p x hp => absurd hp.1 (hnot p x), ?_⟩, ?_, ?_⟩
  · rw [hitems] at hi
    cases hi
  · rw [hitems]
    exact List.nodup_nil
  · rintro a b ⟨⟨p, hp⟩, hlink, hnid⟩
    exact absurd (hp.1.snoc ⟨a.link, hlink, rfl, hnid⟩) (hnot _ _)
  · exact fun p _ x _ hp => absurd hp.1 (hnot p x)

end AllSettling

/-! ## The loop -/

/-- The loop ends when the scan finds nothing. -/
theorem allWeightedLoop_end (hcap : numNodes ≤ UNKNOWN) (hstop : stop < numNodes)
    (hmin : st.minNode unknown numNodes = (UNKNOWN, unknown)) (i : Nat) (found : Bool)
    (spaths : List (PathItem W)) (s1 : GraphDb) :
    allWeightedLoop xid both rpred weightFunc unknown numNodes stop (i + 1) found st spaths s1 =
      .ok (found, spaths) s1 := by
  have hne : UNKNOWN ≠ stop := Nat.ne_of_gt (hstop.trans_le hcap)
  rw [allWeightedLoop, hmin]
  simp only []
  rw [if_pos ⟨hne, trivial⟩]
  rfl

/-- One round, given what is appended for the node that is marked. -/
theorem allWeightedLoop_round {spaths spaths1 spaths2 : List (PathItem W)} {st' : WeightSearch W}
    (hp : s.Presents xid both rpred adj) (hnode : s.HasNode xid m) (hreads : Reads xid s s1)
    (hmin : st.minNode unknown numNodes = (m, st.weight m)) (hknown : st.weight m ≠ unknown)
    (htrace : (m ≠ stop ∧ spaths1 = spaths) ∨ (m = stop ∧ ∃ p,
      tracePath st.parent (numNodes + 1) stop = .ok p ∧
        spaths1 = spaths ++ [.traced p (st.weight stop)]))
    (hfold : (adj m).foldlM (WeightSearch.relaxAll weightFunc numNodes stop m)
      ({ st with visited := m :: st.visited }, spaths1) = .ok (st', spaths2)) :
    ∃ s2, Reads xid s s2 ∧ ∀ i found,
      allWeightedLoop xid both rpred weightFunc unknown numNodes stop (i + 1) found st spaths s1 =
        allWeightedLoop xid both rpred weightFunc unknown numNodes stop i
          (found || decide (m = stop)) st' spaths2 s2 := by
  obtain ⟨s2, hreads2, hexpand⟩ := hp.expand m hnode s1 hreads
  refine ⟨s2, hreads2, fun i found => ?_⟩
  have hok : ∀ p : Path, (ofExcept (.ok p) : DbM Path) = pure p := fun p => rfl
  rw [allWeightedLoop, hmin]
  simp only []
  rw [if_neg fun h => hknown h.2]
  rcases htrace with ⟨hms, rfl⟩ | ⟨hms, p, hp, rfl⟩
  · rw [if_neg hms, pure_bind, hexpand, hfold]
    rfl
  · rw [if_pos hms, hp, hok, pure_bind, pure_bind, hexpand, hfold]
    rfl

/-- The rounds after the stop node was marked add nothing. -/
theorem allWeightedLoop_quiet [IsOrderedCancelAddMonoid W] {i : Nat} (hg : s.VisibleGraph xid)
    (hp : s.Presents xid both rpred adj) (hstart : s.HasNode xid start)
    (hexact : ExactWeights (s.Weighs xid both rpred weightFunc) start unknown)
    (hpos : ∀ u c v, s.Weighs xid both rpred weightFunc u c v → 0 < c)
    (hnodes : ∀ v, s.HasNode xid v → v < numNodes) (hcap : numNodes ≤ UNKNOWN)
    (hstopLt : stop < numNodes)
    (h : Settled s xid both rpred weightFunc start unknown st tree) (hreads : Reads xid s s1)
    (hstop : stop ∈ st.visited) (found : Bool) (spaths : List (PathItem W)) :
    ∃ s2, allWeightedLoop xid both rpred weightFunc unknown numNodes stop i found st spaths s1 =
      .ok (found, spaths) s2 := by
  induction i generalizing st tree s1 with
  | zero => exact ⟨s1, rfl⟩
  | succ i ih =>
      rcases st.minNode_cases unknown numNodes with ⟨hmin, -⟩ | ⟨m, hmin, hlt, hleast⟩
      · exact ⟨s1, allWeightedLoop_end hcap hstopLt hmin i found spaths s1⟩
      · have hknown := hlt.ne
        have hms : m ≠ stop := fun heq => hleast.fresh (heq ▸ hstop)
        have hnode := hg.hasNode_of_route hstart (h.inv.route m hknown)
        obtain ⟨tree', h'⟩ := h.round hg hp hstart hexact hnodes hleast hknown
        obtain ⟨s2, hreads2, hround⟩ := allWeightedLoop_round hp hnode hreads hmin hknown
          (.inl ⟨hms, rfl⟩) (foldlM_quiet spaths hpos (List.mem_cons_self ..)
            (List.mem_cons_of_mem _ hstop) (h.inv.mono stop hstop m hleast.fresh)
            fun l => (hp.mem m hnode l).mp)
        rw [hround, decide_eq_false hms, Bool.or_false]
        refine ih h' hreads2 ?_
        rw [WeightSearch.foldl_relax_visited]
        exact List.mem_cons_of_mem _ hstop

/-- The loop returns the items, and whether they are the lightest paths. -/
theorem allWeightedLoop_ok [IsOrderedCancelAddMonoid W] {i : Nat} (hg : s.VisibleGraph xid)
    (hp : s.Presents xid both rpred adj) (hstart : s.HasNode xid start)
    (hexact : ExactWeights (s.Weighs xid both rpred weightFunc) start unknown)
    (hpos : ∀ u c v, s.Weighs xid both rpred weightFunc u c v → 0 < c)
    (hparallel : s.NoParallel xid rpred) (hnodes : ∀ v, s.HasNode xid v → v < numNodes)
    (hcap : numNodes ≤ UNKNOWN) (hstopLt : stop < numNodes)
    (h : AllSettling s xid both rpred weightFunc start stop unknown as items st tree)
    (hreads : Reads xid s s1) (hstop : stop ∉ st.visited) (hi : st.visited.length + i = numNodes)
    (found : Bool) (base : List (PathItem W)) :
    ∃ found' items' s2, allWeightedLoop xid both rpred weightFunc unknown numNodes stop i found st
        (base ++ items) s1 = .ok (found', base ++ items') s2 ∧
      (ExactlyLightest (s.Weighs xid both rpred weightFunc) start stop items' ↔
        s.TieFree xid both rpred weightFunc start stop ∧
          s.OneLightest xid both rpred weightFunc start stop) := by
  induction i generalizing st tree s1 as items with
  | zero =>
      -- all nodes are marked, and `stop` is one of them
      have hlen := h.settled.length_le hg hstart hnodes
        (List.nodup_cons.mpr ⟨hstop, h.settled.nodup⟩) fun v hv =>
          (List.mem_cons.mp hv).imp_left fun (hvs : v = stop) => hvs ▸ hstopLt
      rw [List.length_cons] at hlen
      omega
  | succ i ih =>
      rcases st.minNode_cases unknown numNodes with ⟨hmin, hall⟩ | ⟨m, hmin, hlt, hleast⟩
      · have hnot : ∀ p x, ¬Route (s.Weighs xid both rpred weightFunc) start p stop x :=
          fun p x hroute => hstop (h.settled.exhausted hg hstart hexact hnodes hall hroute)
        obtain ⟨hitems, hcond⟩ := h.exactlyLightest_of_unreachable hnot
        exact ⟨found, items, s1, allWeightedLoop_end hcap hstopLt hmin i found _ s1,
          iff_of_true hitems hcond⟩
      · have hknown := hlt.ne
        have hnode := hg.hasNode_of_route hstart (h.settled.inv.route m hknown)
        have hmem : ∀ l ∈ adj m, s.HasLink xid both rpred m l := fun l => (hp.mem m hnode l).mp
        by_cases hms : m = stop
        · subst hms
          obtain ⟨tree', h'⟩ := h.settled.round hg hp hstart hexact hnodes hleast hknown
          obtain ⟨s2, hreads2, hround⟩ := allWeightedLoop_round hp hnode hreads hmin hknown
            (.inr ⟨rfl, tree m, h.settled.trace hg hstart hnodes hcap hknown, rfl⟩)
            (foldlM_quiet ((base ++ items) ++ [.traced (tree m) (st.weight m)]) hpos
              (List.mem_cons_self ..) (List.mem_cons_self ..) le_rfl hmem)
          obtain ⟨s3, hloop⟩ := allWeightedLoop_quiet hg hp hstart hexact hpos hnodes
            hcap hstopLt h'
            hreads2 (by
              rw [WeightSearch.foldl_relax_visited]
              exact List.mem_cons_self ..) (i := i) (found || decide (m = m))
            ((base ++ items) ++ [.traced (tree m) (st.weight m)])
          refine ⟨found || decide (m = m), items ++ [.traced (tree m) (st.weight m)], s3, ?_,
            h.exactlyLightest_iff hexact hpos hknown hstop
              (h.settled.least hg hstart hnodes hleast)⟩
          rw [hround, hloop, List.append_assoc]
        · obtain ⟨tree', items', h', hfold⟩ :=
            h.round hg hp hstart hexact hpos hparallel hnodes hcap
            hleast hknown hms hstop
          obtain ⟨s2, hreads2, hround⟩ := allWeightedLoop_round hp hnode hreads hmin hknown
            (.inl ⟨hms, rfl⟩) (hfold base)
          rw [hround, decide_eq_false hms, Bool.or_false]
          refine ih h' hreads2 ?_ ?_
          · rw [WeightSearch.foldl_relax_visited]
            exact fun hin => (List.mem_cons.mp hin).elim (fun heq => hms heq.symm) hstop
          · rw [WeightSearch.foldl_relax_visited, List.length_cons]
            omega

theorem arriving_initial (hne : stop ≠ start) (tree : Nat → List Nat) :
    Arriving weightFunc unknown stop [] [] (.init unknown start) tree where
  below a ha := absurd ha List.not_mem_nil
  attained := by
    simp only [WeightSearch.init, Function.update_of_ne hne]
    exact .inl trivial
  tied := iff_of_false not_tied_nil fun h => h rfl
  late i hi := absurd hi List.not_mem_nil

/-- What all weighted shortest paths are. -/
theorem allWeightedShortestPaths_ok [IsOrderedCancelAddMonoid W] (hg : s.VisibleGraph xid)
    (hstart : s.HasNode xid start) (hne : stop ≠ start)
    (hexact : ExactWeights (s.Weighs xid both rpred weightFunc) start unknown)
    (hpos : ∀ u c v, s.Weighs xid both rpred weightFunc u c v → 0 < c)
    (hparallel : s.NoParallel xid rpred) (hnodes : ∀ v, s.HasNode xid v → v < numNodes)
    (hcap : numNodes ≤ UNKNOWN) (hstop : stop < numNodes) (base : List (PathItem W)) :
    ∃ (found : Bool) (items : List (PathItem W)) (s' : GraphDb),
      allWeightedShortestPaths xid both rpred weightFunc unknown numNodes stop start base s =
        .ok (found, base ++ items) s' ∧
      (ExactlyLightest (s.Weighs xid both rpred weightFunc) start stop items ↔
        s.TieFree xid both rpred weightFunc start stop ∧
          s.OneLightest xid both rpred weightFunc start stop) := by
  obtain ⟨adj, hp⟩ := hg.presents both rpred
  have hinit : AllSettling s xid both rpred weightFunc start stop unknown [] []
      (.init unknown start) fun _ => [start] :=
    ⟨.initial hexact, fun u hu => absurd hu List.not_mem_nil, arriving_initial hne _,
      fun a => iff_of_false List.not_mem_nil fun h => List.not_mem_nil h.1, .nil⟩
  obtain ⟨found, items, s', hloop, hiff⟩ := allWeightedLoop_ok hg hp hstart hexact hpos hparallel
    hnodes hcap hstop hinit (.refl xid s) List.not_mem_nil (Nat.zero_add numNodes) false base
  rw [List.append_nil] at hloop
  exact ⟨found, items, s', hloop, hiff⟩

end

/-! ## Two paths that join -/

theorem noParallel_committed {xid : Nat} {rpred : RshipPredicate} {nodes : List NodeData}
    {rships : List RshipData} (hx : 0 < xid) (hlt : xid < INF)
    (h : (rships.map fun d => (d.srcNode, d.destNode)).Nodup) :
    (GraphDb.committed xid nodes rships).NoParallel xid rpred := by
  intro r r' d d' hr hr' _ _ hsrc hdest
  obtain ⟨hloc, hd⟩ := (hasRship_committed hx hlt).mp hr
  obtain ⟨hloc', hd'⟩ := (hasRship_committed hx hlt).mp hr'
  have hpair : (rships.map fun d => (d.srcNode, d.destNode))[r.id]? =
      (rships.map fun d => (d.srcNode, d.destNode))[r'.id]? := by
    rw [List.getElem?_map, List.getElem?_map, hd, hd', Option.map_some,
      Option.map_some, hsrc, hdest]
  have hlen : r.id < (rships.map fun d => (d.srcNode, d.destNode)).length := by
    rw [List.length_map]
    exact (List.getElem?_eq_some_iff.mp hd).1
  have hid := (List.getElem?_inj hlen h).mp hpair
  obtain ⟨id, loc⟩ := r
  obtain ⟨id', loc'⟩ := r'
  obtain rfl : id = id' := hid
  obtain rfl : loc = .slot := hloc
  obtain rfl : loc' = .slot := hloc'
  exact ⟨rfl, Option.some.inj (hd.symm.trans hd')⟩

namespace Diamond

/-- The nodes. -/
def nodes : List NodeData :=
  [⟨0, 1, UNKNOWN, 0, 0⟩, ⟨1, 2, 0, 0, 0⟩, ⟨2, 3, 1, 0, 0⟩, ⟨3, 4, 3, 0, 0⟩, ⟨4, UNKNOWN, 4, 0, 0⟩]

/-- The relationships. -/
def rships : List RshipData :=
  [⟨0, 0, 1, UNKNOWN, UNKNOWN, 0, 0⟩, ⟨1, 0, 2, 0, UNKNOWN, 0, 0⟩,
    ⟨2, 1, 3, UNKNOWN, UNKNOWN, 0, 0⟩, ⟨3, 2, 3, UNKNOWN, 2, 0, 0⟩,
    ⟨4, 3, 4, UNKNOWN, UNKNOWN, 0, 0⟩]

/-- Two paths from the node 0 join in the node 3, before the node 4. -/
def db : GraphDb := .committed 1 nodes rships

/-- How far a node is from the node 0. -/
def level (v : Nat) : Nat := [0, 1, 1, 2, 3].getD v 0

theorem visible : db.VisibleGraph 1 :=
  visibleGraph_committed (by decide) (by decide) (by decide)

theorem hasNode {v : Nat} (h : v < 5) : db.HasNode 1 v :=
  (hasNode_committed (by decide) (by decide)).mpr h

theorem lt_of_hasNode {v : Nat} (h : db.HasNode 1 v) : v < 5 :=
  (hasNode_committed (by decide) (by decide)).mp h

theorem noParallel : db.NoParallel 1 fun _ _ => true :=
  noParallel_committed (by decide) (by decide) (by decide)

theorem exact : ExactWeights (db.Weighs 1 false (fun _ _ => true) fun _ _ => 1) 0 6 :=
  @exact_committed 1 0 1 false (fun _ _ => true) (fun _ _ => 1) nodes rships (by decide)
    (by decide) (by decide) (by decide) fun _ _ _ => Nat.le_refl 1

theorem weight_pos {u c v : Nat} (h : db.Weighs 1 false (fun _ _ => true) (fun _ _ => 1) u c v) :
    0 < c := by
  obtain ⟨l, -, rfl, -⟩ := h
  exact Nat.one_pos

/-- A relationship climbs one level. -/
theorem level_le {v w : Nat} (h : db.Follows 1 false (fun _ _ => true) v w) :
    level w ≤ level v + 1 := by
  obtain ⟨id, d, hd, -, ⟨rfl, rfl⟩ | ⟨hboth, -⟩⟩ :=
    (follows_committed (by decide) (by decide)).mp h
  · have hall : rships.all (fun d => level d.destNode ≤ level d.srcNode + 1) = true := by decide
    exact of_decide_eq_true (List.all_eq_true.mp hall d (List.mem_of_getElem? hd))
  · cases hboth

theorem shortest {p : Path} {v : Nat} (h : Frontier.Walk (db.Follows 1 false fun _ _ => true) 0 p v)
    (hlen : p.length = level v + 1) :
    Frontier.Shortest (db.Follows 1 false fun _ _ => true) 0 p v := by
  refine ⟨h, fun p' hp' => ?_⟩
  have hlt := hp'.level_lt level rfl fun _ _ => level_le
  omega

theorem lightest {p : Path} {v x : Nat}
    (h : Route (db.Weighs 1 false (fun _ _ => true) fun _ _ => 1) 0 p v x) (hx : x = level v) :
    Lightest (db.Weighs 1 false (fun _ _ => true) fun _ _ => 1) 0 p v x := by
  refine ⟨h, fun p' x' hp' => hx.trans_le (hp'.level_le level rfl ?_)⟩
  rintro u c w ⟨l, hl, rfl, hnid⟩
  exact level_le ⟨l, hl, hnid⟩

/-- A relationship of the list is followed. -/
theorem link {id v w : Nat} (h : (rships[id]?.map fun d => (d.srcNode, d.destNode)) = some (v, w)) :
    ∃ l, db.HasLink 1 false (fun _ _ => true) v l ∧ l.nid = w := by
  obtain ⟨d, hd, heq⟩ := Option.map_eq_some_iff.mp h
  obtain ⟨rfl, rfl⟩ := Prod.mk.inj heq
  exact ⟨⟨d.destNode, ⟨id, .slot⟩, d⟩, (hasLink_committed (by decide) (by decide)).mpr
    ⟨rfl, hd, rfl, .inl ⟨rfl, rfl⟩⟩, rfl⟩

theorem weighs {id v w : Nat}
    (h : (rships[id]?.map fun d => (d.srcNode, d.destNode)) = some (v, w)) :
    db.Weighs 1 false (fun _ _ => true) (fun _ _ => 1) v 1 w := by
  obtain ⟨l, hl, hnid⟩ := link h
  exact ⟨l, hl, rfl, hnid⟩

theorem walk_over_one : Frontier.Walk (db.Follows 1 false fun _ _ => true) 0 [0, 1, 3] 3 :=
  (Frontier.Walk.start.snoc (@link 0 0 1 rfl)).snoc (@link 2 1 3 rfl)

theorem walk_over_two : Frontier.Walk (db.Follows 1 false fun _ _ => true) 0 [0, 2, 3] 3 :=
  (Frontier.Walk.start.snoc (@link 1 0 2 rfl)).snoc (@link 3 2 3 rfl)

/-- The two paths come to the last node from the same node. -/
theorem not_entersOnce : ¬db.EntersOnce 1 false (fun _ _ => true) 0 4 := by
  intro h
  obtain ⟨l, hl, hnid⟩ := @link 4 3 4 rfl
  have hshort := shortest (walk_over_one.snoc ⟨l, hl, hnid⟩) rfl
  have hshort' := shortest (walk_over_two.snoc ⟨l, hl, hnid⟩) rfl
  have heq := (h _ _ 3 l l walk_over_one walk_over_two hshort hshort' hl hl hnid hnid).1
  exact absurd heq (by decide)

/-- They have the same weight. -/
theorem not_oneLightest : ¬db.OneLightest 1 false (fun _ _ => true) (fun _ _ => 1) 0 4 := by
  intro h
  have hlight := lightest (((Route.start.snoc (@weighs 0 0 1 rfl)).snoc (@weighs 2 1 3 rfl)).snoc
    (@weighs 4 3 4 rfl)) rfl
  have hlight' := lightest (((Route.start.snoc (@weighs 1 0 2 rfl)).snoc (@weighs 3 2 3 rfl)).snoc
    (@weighs 4 3 4 rfl)) rfl
  exact absurd (h _ _ _ _ hlight hlight') (by decide)

end Diamond

/-- All shortest paths. The unweighted search finds exactly the shortest
paths if and only if they enter the stop node once; the weighted search finds
exactly the lightest paths if and only if there is at most one and no ties
occur on the way to it. -/
theorem all_shortest_paths_iff {W : Type} [AddCommMonoid W] [LinearOrder W]
    [IsOrderedCancelAddMonoid W] (s : GraphDb) (xid start stop numNodes : Nat) (both : Bool)
    (rpred : RshipPredicate) (weightFunc : RshipWeight W) (unknown : W)
    (base : List (PathItem W)) (hg : s.VisibleGraph xid) (hparallel : s.NoParallel xid rpred)
    (hstart : s.HasNode xid start) (hne : stop ≠ start)
    (hexact : ExactWeights (s.Weighs xid both rpred weightFunc) start unknown)
    (hpos : ∀ u c v, s.Weighs xid both rpred weightFunc u c v → 0 < c)
    (hnodes : ∀ v, s.HasNode xid v → v < numNodes) (hcap : numNodes ≤ UNKNOWN)
    (hstop : stop < numNodes) :
    (∃ (found : Bool) (visits : List (Ref × Path)) (items : List (PathItem W)) (n : Nat),
      (∀ fuel, n ≤ fuel → ∃ s', allUnweightedShortestPaths xid both rpred stop fuel start base s =
        .ok (found, visits, base ++ items) s') ∧
      (ExactlyShortest (s.Follows xid both rpred) start stop items ↔
        s.EntersOnce xid both rpred start stop)) ∧
    ∃ (found : Bool) (items : List (PathItem W)) (s' : GraphDb),
      allWeightedShortestPaths xid both rpred weightFunc unknown numNodes stop start base s =
        .ok (found, base ++ items) s' ∧
      (ExactlyLightest (s.Weighs xid both rpred weightFunc) start stop items ↔
        s.TieFree xid both rpred weightFunc start stop ∧
          s.OneLightest xid both rpred weightFunc start stop) :=
  ⟨allUnweightedShortestPaths_ok hg hstart hne both rpred base,
    allWeightedShortestPaths_ok hg hstart hne hexact hpos hparallel hnodes hcap hstop base⟩

theorem all_shortest_paths_diamond :
    (∃ (found : Bool) (visits : List (Ref × Path)) (items : List (PathItem Nat)) (n : Nat),
      (∀ fuel, n ≤ fuel → ∃ s', allUnweightedShortestPaths 1 false (fun _ _ => true) 3 fuel 0 []
        Diamond.db = .ok (found, visits, [] ++ items) s') ∧
      (ExactlyShortest (Diamond.db.Follows 1 false fun _ _ => true) 0 3 items ↔
        Diamond.db.EntersOnce 1 false (fun _ _ => true) 0 3)) ∧
    ∃ (found : Bool) (items : List (PathItem Nat)) (s' : GraphDb),
      allWeightedShortestPaths 1 false (fun _ _ => true) (fun _ _ => 1) 6 5 3 0 [] Diamond.db =
        .ok (found, [] ++ items) s' ∧
      (ExactlyLightest (Diamond.db.Weighs 1 false (fun _ _ => true) fun _ _ => 1) 0 3 items ↔
        Diamond.db.TieFree 1 false (fun _ _ => true) (fun _ _ => 1) 0 3 ∧
          Diamond.db.OneLightest 1 false (fun _ _ => true) (fun _ _ => 1) 0 3) :=
  all_shortest_paths_iff Diamond.db 1 0 3 5 false (fun _ _ => true) (fun _ _ => 1) 6 []
    Diamond.visible Diamond.noParallel (Diamond.hasNode (by decide)) (by decide) Diamond.exact
    (fun _ _ _ => Diamond.weight_pos) (fun _ => Diamond.lt_of_hasNode) (by decide) (by decide)

/-- Neither search finds both paths. -/
theorem joined_paths_lost :
    (Diamond.db.VisibleGraph 1 ∧ Diamond.db.NoParallel 1 fun _ _ => true) ∧
    (∃ (found : Bool) (visits : List (Ref × Path)) (items : List (PathItem Nat)) (n : Nat),
      (∀ fuel, n ≤ fuel → ∃ s', allUnweightedShortestPaths 1 false (fun _ _ => true) 4 fuel 0 []
        Diamond.db = .ok (found, visits, [] ++ items) s') ∧
      ¬ExactlyShortest (Diamond.db.Follows 1 false fun _ _ => true) 0 4 items) ∧
    ∃ (found : Bool) (items : List (PathItem Nat)) (s' : GraphDb),
      allWeightedShortestPaths 1 false (fun _ _ => true) (fun _ _ => 1) 6 5 4 0 [] Diamond.db =
        .ok (found, [] ++ items) s' ∧
      ¬ExactlyLightest (Diamond.db.Weighs 1 false (fun _ _ => true) fun _ _ => 1) 0 4 items := by
  obtain ⟨found, visits, items, n, hrun, hiff⟩ := @allUnweightedShortestPaths_ok Nat _ _ _ _ 4
    Diamond.visible (@Diamond.hasNode 0 (by decide)) (by decide) false (fun _ _ => true) []
  obtain ⟨found', items', s', hrun', hiff'⟩ := @allWeightedShortestPaths_ok Nat _ _ _ _ _ 4 false
    (fun _ _ => true) (fun _ _ => 1) 6 5 _ Diamond.visible (@Diamond.hasNode 0 (by decide))
    (by decide) Diamond.exact (fun _ _ _ => Diamond.weight_pos) Diamond.noParallel
    (fun _ => Diamond.lt_of_hasNode) (by decide) (by decide) []
  exact ⟨⟨Diamond.visible, Diamond.noParallel⟩,
    ⟨found, visits, items, n, hrun, fun h => Diamond.not_entersOnce (hiff.mp h)⟩,
    found', items', s', hrun', fun h => Diamond.not_oneLightest (hiff'.mp h).2⟩

end Poseidon
