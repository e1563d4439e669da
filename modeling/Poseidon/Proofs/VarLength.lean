import Mathlib.Data.Set.Card
import Poseidon.Lib.Expansion
import Poseidon.Proofs.CommittedGraph
import Poseidon.Query.VarLength

/-!
# Variable-length expansion finds all walks

Without a label, what the loop hands to the consumer are the last
relationships of the walks of `Expansion`, which are as many as the walks. They
come by the positions of the relationships in their lists: after a long list
at the first node there are longer walks before shorter ones.
-/

namespace Poseidon

open Wp

namespace GraphDb

variable (s : GraphDb) (xid : Nat)

/-- Every relationship that is read is one that the walks hand on. -/
def AllValid : Prop := ∀ r l o, rshipTable.seen s xid r = some (l, o) → o.isValid = true

/-- The relationships lead from the node on, from each one to the next. -/
def IsWalk (near far : RshipData → Nat) : Nat → List Nat → Prop
  | _, [] => True
  | v, r :: w => ∃ l d, s.HasRship xid ⟨r, l⟩ d ∧ near d = v ∧ IsWalk near far (far d) w

/-- What `rship_by_id` returns for a relationship. -/
def rshipRef (r : Nat) : Ref := ⟨r, ((rshipTable.seen s xid r).map Prod.fst).getD .slot⟩

/-- The node that a relationship leads to. -/
def farNode (far : RshipData → Nat) (r : Nat) : Nat :=
  ((rshipTable.seen s xid r).map fun e => far e.2.data).getD 0

/-- The lists of the nodes in one direction. -/
structure Adjacency (next near far : RshipData → Nat) (list : NodeData → Nat)
    (adj : Nat → List Nat) : Prop where
  path : ∀ v l o, nodeTable.seen s xid v = some (l, o) →
    LinkPath (s.nextSeen xid next) UNKNOWN (list o.data) (adj v)
  nodup : ∀ v, (adj v).Nodup
  node : ∀ v, ∀ r ∈ adj v, s.HasNode xid v
  mem : ∀ v, s.HasNode xid v → ∀ r, r ∈ adj v ↔
    ∃ l o, rshipTable.seen s xid r = some (l, o) ∧ near o.data = v
  far : ∀ r l o, rshipTable.seen s xid r = some (l, o) → s.HasNode xid (far o.data)

variable {s xid} {next near far : RshipData → Nat} {list : NodeData → Nat}

/-- The list of a node, with all relationships that are read. -/
def SeenList (s : GraphDb) (xid : Nat) (next near : RshipData → Nat) (v head : Nat) : Prop :=
  ∃ rs, LinkPath (s.nextSeen xid next) UNKNOWN head rs ∧
    ∀ r, r ∈ rs ↔ ∃ l o, rshipTable.seen s xid r = some (l, o) ∧ near o.data = v

/-- A list hands on all that is read. -/
theorem ListOf.seenList (hall : s.AllValid xid) {v head : Nat} (h : s.ListOf xid next near v head) :
    s.SeenList xid next near v head := by
  obtain ⟨rs, hpath, hmem⟩ := h
  refine ⟨rs, hpath, fun r => ⟨fun hr => ?_, ?_⟩⟩
  · have hsome := hpath.next_isSome r hr
    rw [nextSeen, Option.isSome_map] at hsome
    obtain ⟨⟨l, o⟩, hseen⟩ := Option.isSome_iff_exists.mp hsome
    exact ⟨l, o, hseen, (hmem ⟨r, l⟩ o.data ⟨o, hseen, hall r l o hseen, rfl⟩).mpr hr⟩
  · rintro ⟨l, o, hseen, hnear⟩
    exact (hmem ⟨r, l⟩ o.data ⟨o, hseen, hall r l o hseen, rfl⟩).mp hnear

/-- The lists of all nodes. -/
theorem exists_adjacency
    (hlists : ∀ v l o, nodeTable.seen s xid v = some (l, o) →
      s.SeenList xid next near v (list o.data))
    (hfar : ∀ r l o, rshipTable.seen s xid r = some (l, o) → s.HasNode xid (far o.data)) :
    ∃ adj, s.Adjacency xid next near far list adj := by
  have hchoose : ∀ v, ∃ rs : List Nat, (∀ l o, nodeTable.seen s xid v = some (l, o) →
      LinkPath (s.nextSeen xid next) UNKNOWN (list o.data) rs) ∧ rs.Nodup ∧
      (∀ r ∈ rs, s.HasNode xid v) ∧ (s.HasNode xid v → ∀ r, r ∈ rs ↔
        ∃ l o, rshipTable.seen s xid r = some (l, o) ∧ near o.data = v) := by
    intro v
    by_cases hv : s.HasNode xid v
    · obtain ⟨l, o, hseen⟩ := hv
      obtain ⟨rs, hpath, hmem⟩ := hlists v l o hseen
      refine ⟨rs, fun l' o' hseen' => ?_, hpath.nodup, fun _ _ => ⟨l, o, hseen⟩, fun _ => hmem⟩
      rw [hseen] at hseen'
      cases hseen'
      exact hpath
    · exact ⟨[], fun l o hseen => absurd ⟨l, o, hseen⟩ hv, List.nodup_nil,
        fun r hr => absurd hr List.not_mem_nil, fun h => absurd h hv⟩
  choose adj hadj using hchoose
  exact ⟨adj, fun v => (hadj v).1, fun v => (hadj v).2.1, fun v => (hadj v).2.2.1,
    fun v => (hadj v).2.2.2, hfar⟩

end GraphDb

section

variable {s s1 : GraphDb} {xid : Nat} {next near far : RshipData → Nat} {list : NodeData → Nat}
  {adj : Nat → List Nat} {min max : Nat}

/-- What the consumer is called with for a walk. -/
def GraphDb.callOf (s : GraphDb) (xid : Nat) (w : List Nat) : Ref := s.rshipRef xid (w.getLastD 0)

/-- The loop of the expansion, on the lists of the graph. -/
theorem foreachVariableLoop_ok (hadj : s.Adjacency xid next near far list adj)
    (hrun : (s.txs xid).running = true) (hmax : max < 2 ^ 64 - 1) {n : Nat}
    {queue : List (Expansion.Entry Nat)} {rq : List (Nat × Nat)} {out : List (List Nat × Nat)}
    (hloop : Expansion.loop adj (s.farNode xid far) max n queue = some out)
    (hqueue : List.Forall₂ (fun p e => LinkPath (s.nextSeen xid next) UNKNOWN p.1 e.list ∧
      p.2 = e.walk.length + 1) rq queue) (hreads : Reads xid s s1) :
    ∃ s2, Reads xid s s2 ∧ ∀ fuel, n ≤ fuel →
      foreachVariableLoop xid next far list min max fuel rq s1 =
        .ok (((out.map Prod.fst).filter fun w => decide (min ≤ w.length)).map
        (s.callOf xid)) s2 := by
  induction n generalizing queue rq out s1 with
  | zero =>
      cases hqueue with
      | nil =>
          cases hloop
          exact ⟨s1, hreads, fun fuel _ => by cases fuel <;> rfl⟩
      | cons _ _ => cases hloop
  | succ n ih =>
      cases hqueue with
      | nil =>
          cases hloop
          exact ⟨s1, hreads, fun fuel _ => by cases fuel <;> rfl⟩
      | @cons p e rq queue hfirst hrest =>
          obtain ⟨rid, hops⟩ := p
          obtain ⟨walk, rs, depth⟩ := e
          obtain ⟨hpath, hhops⟩ := hfirst
          simp only [] at hpath hhops
          -- nothing is called for the entry
          have hskip : ∀ {out : List (List Nat × Nat)}, (rid = UNKNOWN ∨ max < hops) →
              Expansion.loop adj (s.farNode xid far) max n queue = some out →
              ∃ s2, Reads xid s s2 ∧ ∀ fuel, n + 1 ≤ fuel →
                foreachVariableLoop xid next far list min max fuel ((rid, hops) :: rq) s1 =
                  .ok (((out.map Prod.fst).filter fun w => decide (min ≤ w.length)).map
                    (s.callOf xid)) s2 := by
            intro out hend hout
            obtain ⟨s2, hs2, hall⟩ := ih hout hrest hreads
            refine ⟨s2, hs2, fun fuel hfuel => ?_⟩
            obtain ⟨fuel, rfl⟩ := Nat.exists_eq_add_of_le'
              (Nat.lt_of_lt_of_le (Nat.succ_pos n) hfuel)
            rw [foreachVariableLoop, if_pos hend]
            exact hall fuel (Nat.le_of_succ_le_succ hfuel)
          cases hpath with
          | nil => exact hskip (.inl rfl) hloop
          | @cons _ j rs hrid hnext hpath =>
              rw [Expansion.loop] at hloop
              split at hloop
              · next hlt =>
                  obtain ⟨out', hout, rfl⟩ := Option.map_eq_some_iff.mp hloop
                  obtain ⟨⟨l, o⟩, hseen, rfl⟩ := Option.map_eq_some_iff.mp hnext
                  obtain ⟨ln, on, hnode⟩ := hadj.far rid l o hseen
                  have hfar : s.farNode xid far rid = far o.data := by
                    rw [GraphDb.farNode, hseen]
                    rfl
                  obtain ⟨s2, hread, hreads2, hhold⟩ := rshipById_ok (hreads.txs ▸ hrun)
                    (hreads.keptRships.seen.trans hseen)
                  have hreads12 := hreads.trans hreads2
                  obtain ⟨s3, hread', hreads3, hhold'⟩ := nodeById_ok (hreads12.txs ▸ hrun)
                    (hreads12.keptNodes.seen.trans hnode)
                  have hqueue' : List.Forall₂ (fun p e =>
                      LinkPath (s.nextSeen xid next) UNKNOWN p.1 e.list ∧ p.2 = e.walk.length + 1)
                      (rq ++ [(next o.data, hops), (list on.data, (hops + 1) % 2 ^ 64)])
                      (queue ++ [⟨walk, rs, depth + 1⟩,
                        ⟨walk ++ [rid], adj (s.farNode xid far rid), depth + 1⟩]) := by
                    refine List.rel_append hrest (.cons ⟨hpath, hhops⟩ (.cons ⟨?_, ?_⟩ .nil))
                    · rw [hfar]
                      exact hadj.path _ _ _ hnode
                    · rw [List.length_append, List.length_singleton, hhops]
                      exact Nat.mod_eq_of_lt (by omega)
                  obtain ⟨s4, hs4, hall⟩ := ih hout hqueue' (hreads12.trans hreads3)
                  refine ⟨s4, hs4, fun fuel hfuel => ?_⟩
                  obtain ⟨fuel, rfl⟩ :=
                    Nat.exists_eq_add_of_le' (Nat.lt_of_lt_of_le (Nat.succ_pos n) hfuel)
                  have hcall : s.callOf xid (walk ++ [rid]) = ⟨rid, l⟩ := by
                    rw [GraphDb.callOf, List.getLastD_concat, GraphDb.rshipRef, hseen]
                    rfl
                  have hkeep : min ≤ (walk ++ [rid]).length ↔ min ≤ hops := by
                    rw [List.length_append, List.length_singleton, hhops]
                  have hgo : ¬(rid = UNKNOWN ∨ max < hops) := by
                    rintro (h | h)
                    · exact hrid h
                    · omega
                  rw [foreachVariableLoop, if_neg hgo, bind_ok hread, bind_ok (Table.read_ok hhold),
                    bind_ok hread', bind_ok (Table.read_ok hhold'),
                    bind_ok (hall fuel (Nat.le_of_succ_le_succ hfuel)), List.map_cons]
                  by_cases hmin : min ≤ hops
                  · rw [List.filter_cons_of_pos (by rw [decide_eq_true_iff]; exact hkeep.mpr hmin),
                      List.map_cons, hcall, if_pos hmin]
                    rfl
                  · have hless := mt hkeep.mp hmin
                    rw [List.filter_cons_of_neg (by rwa [decide_eq_true_iff]), if_neg hmin]
                    rfl
              · next hge => exact hskip (.inr (by omega)) hloop

/-- The walks over the lists are those of the graph. -/
theorem GraphDb.Adjacency.isWalk_iff (hadj : s.Adjacency xid next near far list adj)
    (hall : s.AllValid xid) {v : Nat} (hv : s.HasNode xid v) {w : List Nat} :
    Expansion.IsWalk adj (s.farNode xid far) v w ↔ s.IsWalk xid near far v w := by
  induction w generalizing v with
  | nil => exact Iff.rfl
  | cons r w ih =>
      rw [Expansion.IsWalk, GraphDb.IsWalk, hadj.mem v hv]
      have hfar : ∀ {l : Loc} {o : Obj RshipData}, rshipTable.seen s xid r = some (l, o) →
          s.farNode xid far r = far o.data := by
        intro l o hseen
        rw [GraphDb.farNode, hseen]
        rfl
      constructor
      · rintro ⟨⟨l, o, hseen, hnear⟩, hwalk⟩
        rw [hfar hseen, ih (hadj.far r l o hseen)] at hwalk
        exact ⟨l, o.data, ⟨o, hseen, hall r l o hseen, rfl⟩, hnear, hwalk⟩
      · rintro ⟨l, d, ⟨o, hseen, -, rfl⟩, hnear, hwalk⟩
        refine ⟨⟨l, o, hseen, hnear⟩, ?_⟩
        rw [hfar hseen, ih (hadj.far r l o hseen)]
        exact hwalk

/-- The walks from `v` with from `min` to `max` relationships that end with
`r`. -/
def GraphDb.walksTo (s : GraphDb) (xid : Nat) (near far : RshipData → Nat) (v min max r : Nat) :
    Set (List Nat) :=
  {w | s.IsWalk xid near far v w ∧ 1 ≤ w.length ∧ min ≤ w.length ∧ w.length ≤ max ∧
    w.getLast? = some r}

/-- The consumer is called for each of the walks with from `min` to `max`
relationships once, by the positions of the relationships in their lists. -/
structure GraphDb.CallsWalks (s : GraphDb) (xid : Nat) (next near far : RshipData → Nat)
    (list : NodeData → Nat) (v min max : Nat) (calls : List Ref) : Prop where
  count : ∀ r, ((calls.map Ref.id).count r : ENat) = (s.walksTo xid near far v min max r).encard
  seen : ∀ r ∈ calls, r = s.rshipRef xid r.id
  order : ∃ (adj : Nat → List Nat) (ws : List (List Nat)),
    s.Adjacency xid next near far list adj ∧ calls = ws.map (s.callOf xid) ∧ ws.Nodup ∧
      (∀ w, w ∈ ws ↔ s.IsWalk xid near far v w ∧ 1 ≤ w.length ∧ min ≤ w.length ∧
        w.length ≤ max) ∧
      ws.Pairwise fun a b => Expansion.place adj (s.farNode xid far) v a ≤
        Expansion.place adj (s.farNode xid far) v b

theorem count_getLast {ws : List (List Nat)} (hnodup : ws.Nodup)
    (hne : ∀ w ∈ ws, w ≠ []) (r : Nat) :
    (((ws.map fun w => w.getLastD 0).count r : Nat) : ENat) =
      {w | w ∈ ws ∧ w.getLast? = some r}.encard := by
  have hlast : ∀ w ∈ ws, (w.getLastD 0 = r ↔ w.getLast? = some r) := by
    intro w hw
    rw [List.getLastD_eq_getLast?, List.getLast?_eq_some_getLast (hne w hw), Option.getD_some,
      Option.some.injEq]
  have hset : {w | w ∈ ws ∧ w.getLast? = some r} =
      ((ws.filter fun w => decide (w.getLastD 0 = r)).toFinset : Set (List Nat)) := by
    ext w
    rw [Set.mem_ofPred_eq, Finset.mem_coe, List.mem_toFinset, List.mem_filter, decide_eq_true_iff]
    exact and_congr_right fun hw => (hlast w hw).symm
  rw [hset, Set.encard_coe_eq_coe_finsetCard, List.toFinset_card_of_nodup (hnodup.filter _),
    List.count_eq_countP, List.countP_map, List.countP_eq_length_filter]
  rfl

theorem foreachVariable_walks (hall : s.AllValid xid)
    (hlists : ∀ v l o, nodeTable.seen s xid v = some (l, o) → s.ListOf xid next near v
    (list o.data))
    (hends : ∀ r d, s.HasRship xid r d → s.HasNode xid (far d)) (hrun : (s.txs xid).running = true)
    (hmax : max < 2 ^ 64 - 1) {v : Nat} {l : Loc} {o : Obj NodeData}
    (hv : nodeTable.seen s xid v = some (l, o)) :
    ∃ calls n, (∀ fuel, n ≤ fuel → ∃ s', foreachVariableLoop xid next far list min max fuel
        [(list o.data, 1)] s = .ok calls s') ∧
      s.CallsWalks xid next near far list v min max calls := by
  obtain ⟨adj, hadj⟩ := GraphDb.exists_adjacency (fun v l o h => (hlists v l o h).seenList hall)
    fun r l o h => hends ⟨r, l⟩ o.data ⟨o, h, hall r l o h, rfl⟩
  obtain ⟨n, out, hloop, hnodup, hmem, hsorted⟩ :=
    Expansion.loop_walks hadj.nodup (s.farNode xid far) max v
  obtain ⟨s', -, hrun'⟩ := @foreachVariableLoop_ok s s xid next near far list adj min max
    hadj hrun hmax n _
    [(list o.data, 1)] out hloop (.cons ⟨hadj.path v l o hv, rfl⟩ .nil) (.refl xid s)
  let ws := (out.map Prod.fst).filter fun w => decide (min ≤ w.length)
  have hws : ∀ w, w ∈ ws ↔ s.IsWalk xid near far v w ∧ 1 ≤ w.length ∧ min ≤ w.length ∧
      w.length ≤ max := by
    intro w
    rw [List.mem_filter, hmem, hadj.isWalk_iff hall ⟨l, o, hv⟩, decide_eq_true_iff]
    tauto
  have hne : ∀ w ∈ ws, w ≠ [] := fun w hw => List.length_pos_iff.mp ((hws w).mp hw).2.1
  refine ⟨ws.map (s.callOf xid), n, fun fuel hfuel => ⟨s', hrun' fuel hfuel⟩,
    fun r => ?_, fun r hr => ?_,
    adj, ws, hadj, rfl, hnodup.filter _, hws, hsorted.filter _⟩
  · have hids : (ws.map (s.callOf xid)).map Ref.id = ws.map fun w => w.getLastD 0 := by
      rw [List.map_map]
      rfl
    have hset : s.walksTo xid near far v min max r = {w | w ∈ ws ∧ w.getLast? = some r} := by
      ext w
      rw [Set.mem_ofPred_eq, hws]
      show _ ∧ _ ↔ _
      tauto
    rw [hids, hset]
    exact count_getLast (hnodup.filter _) hne r
  · obtain ⟨w, -, rfl⟩ := List.mem_map.mp hr
    rfl

end

/-- Both directions: with enough fuel the expansion returns, and the consumer is
called for each relationship as often as there are walks to it. -/
theorem foreach_variable_calls (s : GraphDb) (xid v min max : Nat) (l : Loc) (o : Obj NodeData)
    (hg : s.VisibleGraph xid) (hall : s.AllValid xid) (hv : nodeTable.seen s xid v = some (l, o))
    (hmax : max < 2 ^ 64 - 1) :
    (∃ calls n, (∀ fuel, n ≤ fuel → ∃ s',
        foreachVariableFromRelationshipOfNode xid o.data min max fuel s = .ok calls s') ∧
      s.CallsWalks xid RshipData.nextSrcRship RshipData.srcNode RshipData.destNode
        NodeData.fromRshipList v min max calls) ∧
    ∃ calls n, (∀ fuel, n ≤ fuel → ∃ s',
        foreachVariableToRelationshipOfNode xid o.data min max fuel s = .ok calls s') ∧
      s.CallsWalks xid RshipData.nextDestRship RshipData.destNode RshipData.srcNode
        NodeData.toRshipList v min max calls :=
  ⟨foreachVariable_walks hall hg.outgoing (fun r d h => (hg.ends r d h).2) hg.running hmax hv,
    foreachVariable_walks hall hg.incoming (fun r d h => (hg.ends r d h).1) hg.running hmax hv⟩

theorem allValid_committed {xid : Nat} (hx : 0 < xid) (hlt : xid < INF) (nodes : List NodeData)
    (rships : List RshipData) : (GraphDb.committed xid nodes rships).AllValid xid := by
  intro r l o hseen
  rw [seen_committed rfl hx hlt] at hseen
  obtain ⟨d, -, heq⟩ := Option.map_eq_some_iff.mp hseen
  cases heq
  rfl

theorem seen_circle : nodeTable.seen GraphDb.circle 1 0 =
    some (.slot, ⟨0, 0, INF, 1, true, false, ⟨0, 2, 1, 0, 0⟩⟩) := by decide

theorem foreach_variable_calls_circle : ∃ calls n, (∀ fuel, n ≤ fuel → ∃ s',
      foreachVariableFromRelationshipOfNode 1 ⟨0, 2, 1, 0, 0⟩ 2 3 fuel GraphDb.circle =
        .ok calls s') ∧
    GraphDb.circle.CallsWalks 1 RshipData.nextSrcRship RshipData.srcNode RshipData.destNode
      NodeData.fromRshipList 0 2 3 calls :=
  (foreach_variable_calls GraphDb.circle 1 0 2 3 .slot _
    (visibleGraph_committed (by decide) (by decide) (by decide))
    (allValid_committed (by decide) (by decide) _ _) seen_circle (by decide)).1

/-- The calls are for walks whose lengths do not decrease. -/
def GraphDb.OrderedByLength (s : GraphDb) (xid : Nat) (near far : RshipData → Nat) (v : Nat)
    (calls : List Ref) : Prop :=
  ∃ ws : List (List Nat), calls = ws.map (s.callOf xid) ∧
    (∀ w ∈ ws, s.IsWalk xid near far v w ∧ w ≠ []) ∧ ws.Pairwise fun a b => a.length ≤ b.length

/-- From the first node three relationships lead to the others, and one leads
from the second node to the third. -/
def GraphDb.fan : GraphDb :=
  .committed 1
    [⟨0, 0, UNKNOWN, 0, 0⟩, ⟨1, 3, 0, 0, 0⟩, ⟨2, UNKNOWN, 3, 0, 0⟩, ⟨3, UNKNOWN, 2, 0, 0⟩]
    [⟨0, 0, 1, 1, UNKNOWN, 0, 0⟩, ⟨1, 0, 2, 2, UNKNOWN, 0, 0⟩,
      ⟨2, 0, 3, UNKNOWN, UNKNOWN, 0, 0⟩, ⟨3, 1, 2, UNKNOWN, 1, 0, 0⟩]

theorem fan_rship {r : Ref} {d : RshipData} (h : GraphDb.fan.HasRship 1 r d) :
    d.destNode ≠ 0 ∧ (r.id = 2 → d.srcNode = 0) ∧ (r.id = 3 → d.srcNode = 1) := by
  obtain ⟨-, hd⟩ := (hasRship_committed (by decide) (by decide)).mp h
  have hall : ∀ d ∈ [(⟨0, 0, 1, 1, UNKNOWN, 0, 0⟩ : RshipData), ⟨1, 0, 2, 2, UNKNOWN, 0, 0⟩,
      ⟨2, 0, 3, UNKNOWN, UNKNOWN, 0, 0⟩, ⟨3, 1, 2, UNKNOWN, 1, 0, 0⟩], d.destNode ≠ 0 := by decide
  refine ⟨hall d (List.mem_of_getElem? hd), fun hr => ?_, fun hr => ?_⟩
  · rw [hr] at hd
    cases hd
    rfl
  · rw [hr] at hd
    cases hd
    rfl

/-- No walk comes back to the first node, so its third relationship is the first
one of a walk. -/
theorem fan_third {v : Nat} {w : List Nat}
    (h : GraphDb.fan.IsWalk 1 RshipData.srcNode RshipData.destNode v w)
    (hlast : w.getLast? = some 2) :
    v = 0 ∧ w = [2] := by
  induction w generalizing v with
  | nil => cases hlast
  | cons r w ih =>
      obtain ⟨l, d, hd, hnear, hwalk⟩ := h
      obtain ⟨hdest, htwo, -⟩ := fan_rship hd
      cases w with
      | nil =>
          obtain rfl := Option.some.inj hlast
          exact ⟨hnear.symm.trans (htwo rfl), rfl⟩
      | cons r' w => exact absurd (ih hwalk hlast).1 hdest

theorem fan_run : ∃ (calls : List Ref) (s' : GraphDb),
    foreachVariableFromRelationshipOfNode 1 ⟨0, 0, UNKNOWN, 0, 0⟩ 1 2 20 GraphDb.fan =
      .ok calls s' ∧ calls.map Ref.id = [0, 1, 3, 2] := by
  refine wp_exists (Q := fun (calls : List Ref) _ => calls.map Ref.id = [0, 1, 3, 2]) ?_
  decide +kernel

theorem fan_unordered {calls : List Ref} (hids : calls.map Ref.id = [0, 1, 3, 2]) :
    ¬GraphDb.fan.OrderedByLength 1 RshipData.srcNode RshipData.destNode 0 calls := by
  rintro ⟨ws, hcalls, hwalks, hsorted⟩
  rw [hcalls, List.map_map] at hids
  obtain ⟨w0, ws1, rfl, -, hids⟩ := List.map_eq_cons_iff.mp hids
  obtain ⟨w1, ws2, rfl, -, hids⟩ := List.map_eq_cons_iff.mp hids
  obtain ⟨w, ws3, rfl, hthree, hids⟩ := List.map_eq_cons_iff.mp hids
  obtain ⟨w', ws4, rfl, htwo, -⟩ := List.map_eq_cons_iff.mp hids
  have hlast : ∀ {u : List Nat} {r : Nat}, u ≠ [] → u.getLastD 0 = r → u.getLast? = some r := by
    intro u r hu hr
    rw [← hr, List.getLastD_eq_getLast?, List.getLast?_eq_some_getLast hu]
    rfl
  obtain ⟨hwalk, hne⟩ := hwalks w (by simp)
  obtain ⟨hwalk', hne'⟩ := hwalks w' (by simp)
  obtain ⟨-, rfl⟩ := fan_third hwalk' (hlast hne' htwo)
  have hle : w.length ≤ 1 := (List.pairwise_cons.mp (List.pairwise_cons.mp
    (List.pairwise_cons.mp hsorted).2).2).1 [2] List.mem_cons_self
  -- a walk of one relationship does not end with one that leads from the second node
  cases w with
  | nil => exact hne rfl
  | cons r t =>
      obtain rfl := List.length_eq_zero_iff.mp (Nat.le_zero.mp (Nat.le_of_succ_le_succ hle))
      obtain ⟨l, d, hd, hnear, -⟩ := hwalk
      have hsrc := (fan_rship hd).2.2 hthree
      rw [hnear] at hsrc
      cases hsrc

/-- The walk over the second node is taken before the third relationship of the
first node. -/
theorem foreach_variable_unordered : GraphDb.fan.VisibleGraph 1 ∧ GraphDb.fan.AllValid 1 ∧
    ∃ calls s', foreachVariableFromRelationshipOfNode 1 ⟨0, 0, UNKNOWN, 0, 0⟩ 1 2 20 GraphDb.fan =
        .ok calls s' ∧
      ¬GraphDb.fan.OrderedByLength 1 RshipData.srcNode RshipData.destNode 0 calls := by
  obtain ⟨calls, s', hrun, hids⟩ := fan_run
  exact ⟨visibleGraph_committed (by decide) (by decide) (by decide +kernel),
    allValid_committed (by decide) (by decide) _ _, calls, s', hrun, fan_unordered hids⟩

end Poseidon
