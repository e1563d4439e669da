import Poseidon.Lib.Wp
import Poseidon.Temporal.VarExpand

/-!
# Variable-length expansion is a breadth-first search

Reading a node or a relationship changes the store a little (records are
prepared, read timestamps set), so what a search sees is said of all states
that its reads lead to: `Presents` gives the version of each logical id, its
description, and the neighbours that the walk over its relationships delivers.
Then the loop of the operator is that of `Bfs`.
-/

namespace Poseidon.Temporal

open Wp

namespace VarExpand

variable {q : VarExpand} {lookupCode : Nat → String} {xid : Nat} {τ : Type} {v : Tuple τ}

/-- The neighbours that the inner loop meets, in the order of the list. -/
def neighbors (q : VarExpand) (lookupCode : Nat → String) (xid : Nat) : Nat → Nat → DbM (List Nat)
  | 0, _ => throw .diverges
  | fuel + 1, rid => do
      if rid = UNKNOWN ∨ rid = 0 then return []
      else
        let first ← q.neighbor lookupCode xid rid
        let rest ← neighbors q lookupCode xid fuel (← q.nextRship rid)
        return first.toList ++ rest

/-- What a search sees from the states in `Q`: the versions of the nodes, their
descriptions and their neighbours. -/
structure Presents (q : VarExpand) (lookupCode : Nat → String) (xid : Nat) (Q : GraphDb → Prop)
    (nodes : List Nat) (version : Nat → Option Nat) (descr : Nat → NodeDescription)
    (adj : Nat → List Nat) : Prop where
  node : ∀ lid ∈ nodes, ∀ s, Q s → ∃ s', Q s' ∧
    tryGetNodeAtVt lid q.targetTime s = .ok (version lid) s'
  descr : ∀ lid ∈ nodes, ∀ nid, version lid = some nid → ∀ s, Q s → ∃ s', Q s' ∧
    getNodeDescription lookupCode xid nid s = .ok (descr lid) s'
  walk : ∀ lid ∈ nodes, ∀ nid, version lid = some nid → ∃ N, ∀ s, Q s → ∃ s', Q s' ∧
    ∀ fuel, N ≤ fuel →
      (do q.neighbors lookupCode xid fuel (← q.head lid nid)) s = .ok (adj lid) s'

theorem ok_of_bind {β γ : Type} {x : DbM β} {f : β → DbM γ} {c : γ} {s s' : GraphDb}
    (h : (x >>= f) s = .ok c s') : ∃ b s'', x s = .ok b s'' ∧ f b s'' = .ok c s' := by
  change EStateM.bind x f s = _ at h
  unfold EStateM.bind at h
  cases hx : x s with
  | error e s'' => rw [hx] at h; cases h
  | ok b s'' => rw [hx] at h; exact ⟨b, s'', rfl, h⟩

/-- The inner loop offers the neighbours one after the other. -/
theorem walk_eq {fuel hops rid : Nat} {ns : List Nat} {s s' : GraphDb}
    (h : q.neighbors lookupCode xid fuel rid s = .ok ns s') (acc : List (Nat × Nat) × List Nat) :
    q.walk lookupCode xid hops fuel rid acc s =
      .ok (ns.foldl (Bfs.offer (hops + 1)) acc) s' := by
  induction fuel generalizing rid ns s acc with
  | zero => cases h
  | succ fuel ih =>
      unfold neighbors at h
      unfold walk
      split at h
      · rename_i hend
        cases h
        rw [if_pos hend]
        rfl
      · rename_i hend
        rw [if_neg hend]
        obtain ⟨first, s1, hfirst, h⟩ := ok_of_bind h
        obtain ⟨next, s2, hnext, h⟩ := ok_of_bind h
        obtain ⟨rest, s3, hrest, h⟩ := ok_of_bind h
        cases h
        rw [bind_ok hfirst]
        cases first with
        | none =>
            simp only []
            rw [bind_ok hnext, ih hrest]
            rfl
        | some lid =>
            simp only []
            rw [bind_ok hnext, ih hrest]
            rfl

variable {Q : GraphDb → Prop} {nodes : List Nat} {version : Nat → Option Nat}
  {descr : Nat → NodeDescription} {adj : Nat → List Nat}

/-- One bound on the lengths of all adjacency lists. -/
theorem Presents.walk_bound (h : Presents q lookupCode xid Q nodes version descr adj) :
    ∃ N, ∀ lid ∈ nodes, ∀ nid, version lid = some nid → ∀ s, Q s → ∃ s', Q s' ∧
      ∀ fuel, N ≤ fuel →
        (do q.neighbors lookupCode xid fuel (← q.head lid nid)) s = .ok (adj lid) s' := by
  have hwalk := h.walk
  clear h
  induction nodes with
  | nil => exact ⟨0, fun lid hlid => absurd hlid List.not_mem_nil⟩
  | cons lid nodes ih =>
      obtain ⟨N, hN⟩ := ih fun l hl => hwalk l (List.mem_cons_of_mem _ hl)
      have hfirst := hwalk lid (List.mem_cons_self ..)
      cases hver : version lid with
      | none =>
          refine ⟨N, fun l hl nid hnid => ?_⟩
          rcases List.mem_cons.mp hl with rfl | hl
          · rw [hver] at hnid
            cases hnid
          · exact hN l hl nid hnid
      | some id =>
          obtain ⟨M, hM⟩ := hfirst id hver
          refine ⟨max M N, fun l hl nid hnid s hs => ?_⟩
          rcases List.mem_cons.mp hl with rfl | hl
          · rw [hver] at hnid
            cases hnid
            obtain ⟨s', hs', hfuel⟩ := hM s hs
            exact ⟨s', hs', fun fuel hle => hfuel fuel (le_trans (le_max_left ..) hle)⟩
          · obtain ⟨s', hs', hfuel⟩ := hN l hl nid hnid s hs
            exact ⟨s', hs', fun fuel hle => hfuel fuel (le_trans (le_max_right ..) hle)⟩

/-- The tuple that is passed on for a node at a distance. -/
def emission (v : Tuple τ) (descr : Nat → NodeDescription) (e : Nat × Nat) : Nat × Tuple τ :=
  (e.1, output v e.2 (descr e.1))

/-- The loop of the operator is that of the search. -/
theorem loop_eq (h : Presents q lookupCode xid Q nodes version descr adj)
    (hclosed : ∀ lid ∈ nodes, (version lid).isSome → ∀ w ∈ adj lid, w ∈ nodes)
    {N n : Nat} {queue out : List (Nat × Nat)} {visited : List Nat}
    (hN : ∀ lid ∈ nodes, ∀ nid, version lid = some nid → ∀ s, Q s → ∃ s', Q s' ∧
      ∀ fuel, N ≤ fuel →
        (do q.neighbors lookupCode xid fuel (← q.head lid nid)) s = .ok (adj lid) s')
    (hqueue : ∀ e ∈ queue, e.1 ∈ nodes)
    (hloop : Bfs.loop (fun lid => (version lid).isSome) adj q.minHops q.maxHops n queue visited =
      some out) {s : GraphDb} (hs : Q s) :
    ∃ s', ∀ fuel walkFuel, n ≤ fuel → N ≤ walkFuel →
      q.loop lookupCode xid v walkFuel fuel queue visited s =
        .ok (out.map (emission v descr)) s' := by
  induction n generalizing queue out visited s with
  | zero =>
      cases queue with
      | nil =>
          cases hloop
          exact ⟨s, fun fuel walkFuel _ _ => by cases fuel <;> rfl⟩
      | cons e rest => cases hloop
  | succ n ih =>
      cases queue with
      | nil =>
          cases hloop
          exact ⟨s, fun fuel walkFuel _ _ => by cases fuel <;> rfl⟩
      | cons e rest =>
          obtain ⟨lid, hops⟩ := e
          have hlid : lid ∈ nodes := hqueue _ (List.mem_cons_self ..)
          have hrest : ∀ e ∈ rest, e.1 ∈ nodes := fun e he => hqueue e (List.mem_cons_of_mem _ he)
          obtain ⟨out', hout', rfl⟩ := Option.map_eq_some_iff.mp hloop
          obtain ⟨s1, hs1, hnode⟩ := h.node lid hlid s hs
          cases hver : version lid with
          | none =>
              rw [hver] at hnode
              have hnext : Bfs.next (fun lid => (version lid).isSome) adj q.maxHops (lid, hops) rest
                  visited = (rest, visited) := if_neg fun hv => by simp [hver] at hv
              have hemit : [(lid, hops)].filter
                  (Bfs.emits (fun lid => (version lid).isSome) q.minHops q.maxHops) = [] := by
                simp [Bfs.emits, hver]
              rw [hnext] at hout'
              obtain ⟨s', hs'⟩ := ih hrest hout' hs1
              refine ⟨s', fun fuel walkFuel hf hw => ?_⟩
              obtain ⟨fuel, rfl⟩ : ∃ k, fuel = k + 1 := ⟨fuel - 1, by omega⟩
              rw [loop, bind_ok hnode, hemit]
              exact hs' fuel walkFuel (by omega) hw
          | some nid =>
              rw [hver] at hnode
              obtain ⟨s2, hs2, hdescr⟩ := h.descr lid hlid nid hver s1 hs1
              have hemit : ([(lid, hops)].filter
                  (Bfs.emits (fun lid => (version lid).isSome) q.minHops q.maxHops)).map
                    (emission v descr) =
                  if q.minHops ≤ hops ∧ hops ≤ q.maxHops then [(lid, output v hops (descr lid))]
                  else [] := by
                by_cases hin : q.minHops ≤ hops ∧ hops ≤ q.maxHops
                · simp [Bfs.emits, hver, hin, emission]
                · rw [if_neg hin, List.filter_singleton, Bfs.emits, decide_eq_false hin,
                    Bool.and_false]
                  rfl
              by_cases hmax : q.maxHops ≤ hops
              · have hnext : Bfs.next (fun lid => (version lid).isSome) adj q.maxHops (lid, hops)
                    rest visited = (rest, visited) :=
                  if_neg fun hv => absurd hv.2 (Nat.not_lt.mpr hmax)
                rw [hnext] at hout'
                obtain ⟨s', hs'⟩ := ih hrest hout' hs2
                refine ⟨s', fun fuel walkFuel hf hw => ?_⟩
                obtain ⟨fuel, rfl⟩ : ∃ k, fuel = k + 1 := ⟨fuel - 1, by omega⟩
                rw [loop, bind_ok hnode]
                simp only []
                rw [bind_ok hdescr]
                simp only [if_pos hmax]
                rw [bind_ok (hs' fuel walkFuel (by omega) hw), List.map_append, hemit]
                rfl
              · obtain ⟨s3, hs3, hwalk⟩ := hN lid hlid nid hver s2 hs2
                have hnext : Bfs.next (fun lid => (version lid).isSome) adj q.maxHops (lid, hops)
                    rest visited = (adj lid).foldl (Bfs.offer (hops + 1)) (rest, visited) :=
                  if_pos ⟨by simp [hver], Nat.not_le.mp hmax⟩
                obtain ⟨new, heq, -, -, hsub, -⟩ :=
                  Bfs.foldl_offer (n := hops + 1) (adj lid) rest visited
                rw [hnext, heq] at hout'
                have hqueue' : ∀ e ∈ rest ++ new.map (·, hops + 1), e.1 ∈ nodes := by
                  intro e he
                  rcases List.mem_append.mp he with he | he
                  · exact hrest e he
                  · obtain ⟨w, hw, rfl⟩ := List.mem_map.mp he
                    exact hclosed lid hlid (by rw [hver]; rfl) w (hsub w hw)
                obtain ⟨s', hs'⟩ := ih hqueue' hout' hs3
                refine ⟨s', fun fuel walkFuel hf hw => ?_⟩
                obtain ⟨fuel, rfl⟩ : ∃ k, fuel = k + 1 := ⟨fuel - 1, by omega⟩
                obtain ⟨head, s4, hhead, hneighbors⟩ := ok_of_bind (hwalk walkFuel hw)
                rw [loop, bind_ok hnode]
                simp only []
                rw [bind_ok hdescr]
                simp only [if_neg hmax]
                rw [bind_ok hhead, bind_ok (walk_eq hneighbors (rest, visited)), heq]
                simp only []
                rw [bind_ok (hs' fuel walkFuel (by omega) hw), List.map_append, hemit]
                rfl

/-- For every finite set of nodes that the walks do not leave, the operator
terminates, and emits every node of the time that is from `minHops` to
`maxHops` away from the source once and nothing else. -/
theorem var_expand_is_bfs (h : Presents q lookupCode xid Q nodes version descr adj)
    (hclosed : ∀ lid ∈ nodes, (version lid).isSome → ∀ w ∈ adj lid, w ∈ nodes)
    {src : NodeDescription} (hv : source v = some src) (hsrc : src.logicalId ∈ nodes)
    {s : GraphDb} (hs : Q s) :
    ∃ N out s', (∀ fuel, N ≤ fuel → q.process lookupCode xid fuel v s = .ok out s') ∧
      (out.map Prod.fst).Nodup ∧
      (∀ lid, lid ∈ out.map Prod.fst ↔ (version lid).isSome ∧
        ∃ n, Bfs.AtDistance (fun lid => (version lid).isSome) adj src.logicalId n lid ∧
          q.minHops ≤ n ∧ n ≤ q.maxHops) ∧
      ∀ e ∈ out, e.2 = if e.1 = src.logicalId then v else v ++ [.inl (descr e.1)] := by
  obtain ⟨N, hN⟩ := h.walk_bound
  obtain ⟨out, hloop, hnodup, -, hmem⟩ := @Bfs.loop_correct Nat
    (fun lid => (version lid).isSome) adj src.logicalId q.maxHops nodes _ q.minHops _ hsrc hclosed
    (Nat.le_refl _)
  obtain ⟨s', hs'⟩ := loop_eq (v := v) h hclosed hN
    (fun e he => by rw [List.mem_singleton.mp he]; exact hsrc) hloop hs
  have hfst : (out.map (emission v descr)).map Prod.fst = out.map Prod.fst := by
    rw [List.map_map]
    rfl
  refine ⟨max N nodes.length, out.map (emission v descr), s', fun fuel hf => ?_, ?_, fun lid => ?_,
    fun e he => ?_⟩
  · unfold process
    rw [hv]
    exact hs' fuel fuel (le_trans (le_max_right ..) hf) (le_trans (le_max_left ..) hf)
  · rw [hfst]
    exact hnodup
  · rw [hfst, List.mem_map]
    constructor
    · rintro ⟨⟨w, n⟩, hwn, rfl⟩
      obtain ⟨hvalid, hdist, hlo, hhi⟩ := (hmem w n).mp hwn
      exact ⟨hvalid, n, hdist, hlo, hhi⟩
    · rintro ⟨hvalid, n, hdist, hlo, hhi⟩
      exact ⟨(lid, n), (hmem lid n).mpr ⟨hvalid, hdist, hlo, hhi⟩, rfl⟩
  · obtain ⟨⟨w, n⟩, hwn, rfl⟩ := List.mem_map.mp he
    obtain ⟨-, hdist, -, -⟩ := (hmem w n).mp hwn
    -- only the source is at distance zero
    by_cases hw : w = src.logicalId
    · subst hw
      have hzero : n = 0 := Nat.le_zero.mp (hdist.2 0 .start)
      subst hzero
      simp only [emission, output]
      rfl
    · have hpos : 0 < n := by
        rcases Nat.eq_zero_or_pos n with rfl | hpos
        · cases hdist.1
          exact absurd rfl hw
        · exact hpos
      simp only [emission, output, if_neg hw, if_pos hpos]

/-- Two archived nodes: `1` with a relationship to `2` and one to itself, and
`2` with one back. -/
def cycleDb : GraphDb :=
  let s := GraphDb.initial ⟨0, UNKNOWN, UNKNOWN, 0, 0, 0, UNKNOWN, UNKNOWN, 0, ⟨UNKNOWN, UNKNOWN⟩⟩
  { s with
    nodes := { s.nodes with deltas := [
      ⟨1, 0, 5, 100, 0, 0, UNKNOWN, 1, 2, ⟨encodeHistoryId 0, UNKNOWN⟩⟩,
      ⟨2, 0, 5, 100, 0, 0, UNKNOWN, 1, 2, ⟨encodeHistoryId 2, UNKNOWN⟩⟩] }
    rships := { s.rships with deltas := [
      ⟨11, 0, 5, 100, 0, 0, UNKNOWN, 1, 2, ⟨1, 2, encodeHistoryId 1, UNKNOWN⟩⟩,
      ⟨12, 0, 5, 100, 0, 0, UNKNOWN, 1, 2, ⟨1, 1, UNKNOWN, UNKNOWN⟩⟩,
      ⟨13, 0, 5, 100, 0, 0, UNKNOWN, 1, 2, ⟨2, 1, UNKNOWN, UNKNOWN⟩⟩] }
    index := ⟨[(tiEncodeKey 1 5 false, tiEncodeVal .hist 0),
      (tiEncodeKey 2 5 false, tiEncodeVal .hist 1), (tiEncodeKey 11 5 true, tiEncodeVal .hist 0),
      (tiEncodeKey 12 5 true, tiEncodeVal .hist 1), (tiEncodeKey 13 5 true, tiEncodeVal .hist 2)],
      by decide⟩ }

def cycleQuery : VarExpand := ⟨10, true, "", 1, 3⟩

def cycleDescr (lid : Nat) : NodeDescription :=
  ⟨encodeHistoryId (lid - 1), lid, "", [], 5, 100, 1, 2⟩

theorem cycle_presents : Presents cycleQuery (fun _ => "") 7 (· = cycleDb) [1, 2]
    (fun lid => some (encodeHistoryId (lid - 1))) cycleDescr
    fun lid => if lid = 1 then [2, 1] else [1] := by
  have hcases : ∀ lid, lid ∈ [1, 2] → lid = 1 ∨ lid = 2 := by
    intro lid hlid
    simpa using hlid
  constructor
  · intro lid hlid s hs
    subst hs
    rcases hcases lid hlid with rfl | rfl
    · exact ⟨_, rfl, rfl⟩
    · exact ⟨_, rfl, rfl⟩
  · intro lid hlid nid hnid s hs
    subst hs
    cases hnid
    rcases hcases lid hlid with rfl | rfl
    · exact ⟨_, rfl, rfl⟩
    · exact ⟨_, rfl, rfl⟩
  · intro lid hlid nid hnid
    cases hnid
    refine ⟨3, fun s hs => ?_⟩
    subst hs
    refine ⟨_, rfl, fun fuel hf => ?_⟩
    obtain ⟨k, rfl⟩ : ∃ k, fuel = k + 3 := ⟨fuel - 3, by omega⟩
    rcases hcases lid hlid with rfl | rfl
    · rfl
    · rfl

/-- From the first node both nodes are in reach, the first one at distance
zero, which is too near. -/
theorem var_expand_is_bfs_cycle :
    ∃ N out s', (∀ fuel, N ≤ fuel →
        cycleQuery.process (fun _ => "") 7 fuel [.inl (cycleDescr 1), .inr ()] cycleDb =
          .ok out s') ∧
      1 ∉ out.map Prod.fst ∧ 2 ∈ out.map Prod.fst := by
  obtain ⟨N, out, s', hrun, -, hmem, -⟩ := var_expand_is_bfs (v := [.inl (cycleDescr 1), .inr ()])
    cycle_presents (by decide) rfl (by decide) rfl
  refine ⟨N, out, s', hrun, fun h => ?_, (hmem 2).mpr ⟨rfl, 1, ⟨.step .start rfl (by decide), ?_⟩,
    by decide, by decide⟩⟩
  · obtain ⟨-, n, hdist, hlo, -⟩ := (hmem 1).mp h
    have hzero := hdist.2 0 .start
    change 1 ≤ n at hlo
    omega
  · intro m hm
    rcases Nat.eq_zero_or_pos m with rfl | hpos
    · cases hm
    · exact hpos

end VarExpand

end Poseidon.Temporal
