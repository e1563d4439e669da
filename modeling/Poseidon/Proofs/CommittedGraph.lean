import Poseidon.Proofs.BfsVisits

/-!
# Graphs of committed records

A database in which every record is committed and nobody works on, given by
the fields of its nodes and relationships. Whether the lists of its nodes are
well formed can be computed; if they are, every transaction that runs sees
the graph as it was given.
-/

namespace Poseidon

/-- A record that was committed long ago. -/
def Record.committed {α : Type} (d : α) : Record α :=
  ⟨true, ⟨0, 0, INF, 0, true, false, d⟩, [], 0⟩

/-- The record of a slot. -/
def slotOf {α : Type} [Inhabited α] (ds : List α) (i : Nat) : Record α :=
  match ds[i]? with
  | some d => .committed d
  | none => .fresh

/-- The database with these nodes and relationships, in the transaction
`xid`. -/
def GraphDb.committed (xid : Nat) (nodes : List NodeData) (rships : List RshipData) : GraphDb :=
  { GraphDb.initial with
    nodes := ⟨slotOf nodes, nodes.length⟩
    rships := ⟨slotOf rships, rships.length⟩
    activeTx := [xid]
    txs := fun x => ⟨x = xid, [], []⟩ }

/-- The cells of a list, if it ends within the fuel. -/
def followList (next : Nat → Option Nat) : Nat → Nat → Option (List Nat)
  | 0, _ => none
  | fuel + 1, i =>
      if i = UNKNOWN then some []
      else (next i).bind fun j => (followList next fuel j).map (i :: ·)

theorem followList_path {next : Nat → Option Nat} {fuel i : Nat} {l : List Nat}
    (h : followList next fuel i = some l) : LinkPath next UNKNOWN i l := by
  induction fuel generalizing i l with
  | zero => cases h
  | succ fuel ih =>
      rw [followList] at h
      by_cases hi : i = UNKNOWN
      · rw [if_pos hi] at h
        cases h
        rw [hi]
        exact .nil
      · rw [if_neg hi] at h
        obtain ⟨j, hj, h⟩ := Option.bind_eq_some_iff.mp h
        obtain ⟨l', hl', rfl⟩ := Option.map_eq_some_iff.mp h
        exact .cons hi hj (ih hl')

/-- The list from `head` runs through the relationships with `v` at one
end. -/
def listOk (rships : List RshipData) (next node : RshipData → Nat) (v head : Nat) : Bool :=
  match followList (fun r => rships[r]?.map next) (rships.length + 1) head with
  | none => false
  | some rs => (List.range rships.length).all fun r =>
      (rships[r]?.map node == some v) == rs.contains r

/-- The relationships join nodes, and all lists are well formed. -/
def graphOk (nodes : List NodeData) (rships : List RshipData) : Bool :=
  (rships.all fun d => d.srcNode < nodes.length && d.destNode < nodes.length) &&
    (List.range nodes.length).all fun v =>
      match nodes[v]? with
      | none => false
      | some d => listOk rships RshipData.nextSrcRship RshipData.srcNode v d.fromRshipList &&
          listOk rships RshipData.nextDestRship RshipData.destNode v d.toRshipList

section

variable {α : Type} {xid i : Nat} {nodes : List NodeData} {rships : List RshipData}

theorem slotOf_used [Inhabited α] {ds : List α} (h : (slotOf ds i).used = true) :
    i < ds.length := by
  rw [slotOf] at h
  split at h
  · rename_i d hd
    exact (List.getElem?_eq_some_iff.mp hd).1
  · cases h

/-- What is seen of a committed record. -/
theorem seen_committed [Inhabited α] {t : Table α} {s : GraphDb} {ds : List α}
    (hrec : t.record s i = slotOf ds i) (hx : 0 < xid) (hlt : xid < INF) :
    t.seen s xid i = ds[i]?.map fun d => (.slot, ⟨0, 0, INF, xid, true, false, d⟩) := by
  rw [Table.seen, hrec, slotOf]
  cases ds[i]? with
  | none => rfl
  | some d =>
      have hread : (Record.committed d).recordRead xid =
          ⟨true, ⟨0, 0, INF, xid, true, false, d⟩, [], 0⟩ := by
        simp [Record.recordRead, Record.committed, Obj.prepare, Obj.setRts, hx]
      have hvalid : ((Record.committed d).recordRead xid).getValidVersion xid = .ok .slot := by
        have hne : 0 ≠ xid := Nat.ne_of_lt hx
        have hvis : (⟨0, 0, INF, xid, true, false, d⟩ : Obj α).isValidFor xid = true := by
          simp [Obj.isValidFor, hlt]
        rw [hread]
        simp [Record.getValidVersion, Obj.isLockedBy, Obj.isLocked, hne, hvis]
      have hused : (Record.committed d).used = true := rfl
      simp only [Option.map_some]
      rw [if_pos hused, hvalid, hread]
      rfl

section

variable (hx : 0 < xid) (hlt : xid < INF)
include hx hlt

theorem hasNode_committed {v : Nat} :
    (GraphDb.committed xid nodes rships).HasNode xid v ↔ v < nodes.length := by
  rw [GraphDb.HasNode, seen_committed rfl hx hlt]
  constructor
  · rintro ⟨l, o, h⟩
    obtain ⟨d, hd, -⟩ := Option.map_eq_some_iff.mp h
    exact (List.getElem?_eq_some_iff.mp hd).1
  · intro h
    exact ⟨_, _, by rw [List.getElem?_eq_getElem h]; rfl⟩

theorem hasRship_committed {r : Ref} {d : RshipData} :
    (GraphDb.committed xid nodes rships).HasRship xid r d ↔
      r.loc = .slot ∧ rships[r.id]? = some d := by
  rw [GraphDb.HasRship, seen_committed rfl hx hlt]
  constructor
  · rintro ⟨o, h, -, rfl⟩
    obtain ⟨d', hd, h⟩ := Option.map_eq_some_iff.mp h
    obtain ⟨hloc, rfl⟩ := Prod.ext_iff.mp h
    exact ⟨hloc.symm, hd⟩
  · obtain ⟨id, loc⟩ := r
    rintro ⟨rfl, hd⟩
    exact ⟨_, by rw [hd]; rfl, rfl, rfl⟩

theorem hasLink_committed {both : Bool} {rpred : RshipPredicate} {v : Nat} {l : Link} :
    (GraphDb.committed xid nodes rships).HasLink xid both rpred v l ↔
      l.ref.loc = .slot ∧ rships[l.ref.id]? = some l.data ∧ rpred l.ref l.data = true ∧
        GraphDb.LeadsTo both l.data v l.nid := by
  rw [GraphDb.HasLink, hasRship_committed hx hlt, and_assoc]

/-- One relationship of the list leads from the node to the other. -/
theorem follows_committed {both : Bool} {rpred : RshipPredicate} {v w : Nat} :
    (GraphDb.committed xid nodes rships).Follows xid both rpred v w ↔
      ∃ id d, rships[id]? = some d ∧ rpred ⟨id, .slot⟩ d = true ∧
        GraphDb.LeadsTo both d v w := by
  constructor
  · rintro ⟨⟨nid, ⟨id, loc⟩, d⟩, hl, rfl⟩
    obtain ⟨hloc, hd, hpred, hleads⟩ := (hasLink_committed hx hlt).mp hl
    obtain rfl : loc = .slot := hloc
    exact ⟨id, d, hd, hpred, hleads⟩
  · rintro ⟨id, d, hd, hpred, hleads⟩
    exact ⟨⟨w, ⟨id, .slot⟩, d⟩, (hasLink_committed hx hlt).mpr ⟨rfl, hd, hpred, hleads⟩, rfl⟩

theorem listOf_committed {next node : RshipData → Nat} {v head : Nat}
    (h : listOk rships next node v head = true) :
    (GraphDb.committed xid nodes rships).ListOf xid next node v head := by
  rw [listOk] at h
  split at h
  · cases h
  · rename_i rs hrs
    refine ⟨rs, (followList_path hrs).congr fun r _ => ?_, fun r d hr => ?_⟩
    · rw [GraphDb.nextSeen, seen_committed rfl hx hlt, Option.map_map]
      rfl
    · obtain ⟨-, hd⟩ := (hasRship_committed hx hlt).mp hr
      have hlen := (List.getElem?_eq_some_iff.mp hd).1
      have hiff := List.all_eq_true.mp h r.id (List.mem_range.mpr hlen)
      rw [hd, beq_iff_eq, Bool.eq_iff_iff, List.contains_iff_mem] at hiff
      rw [← hiff]
      simp

/-- A database whose lists are well formed presents its graph. -/
theorem visibleGraph_committed (h : graphOk nodes rships = true) :
    (GraphDb.committed xid nodes rships).VisibleGraph xid := by
  rw [graphOk, Bool.and_eq_true] at h
  obtain ⟨hends, hlists⟩ := h
  have hnode : ∀ v l o, nodeTable.seen (GraphDb.committed xid nodes rships) xid v = some (l, o) →
      nodes[v]? = some o.data ∧
        listOk rships RshipData.nextSrcRship RshipData.srcNode v o.data.fromRshipList = true ∧
        listOk rships RshipData.nextDestRship RshipData.destNode v o.data.toRshipList = true := by
    intro v l o hseen
    rw [seen_committed rfl hx hlt] at hseen
    obtain ⟨d, hd, heq⟩ := Option.map_eq_some_iff.mp hseen
    cases heq
    have hv := List.all_eq_true.mp hlists v
      (List.mem_range.mpr (List.getElem?_eq_some_iff.mp hd).1)
    rw [hd, Bool.and_eq_true] at hv
    exact ⟨hd, hv⟩
  constructor
  · simp [GraphDb.committed]
  · exact fun id => slotOf_used
  · exact fun id => slotOf_used
  · intro r d hr
    obtain ⟨-, hd⟩ := (hasRship_committed hx hlt).mp hr
    have hlt' := List.all_eq_true.mp hends d (List.mem_of_getElem? hd)
    rw [Bool.and_eq_true, decide_eq_true_iff, decide_eq_true_iff] at hlt'
    exact ⟨(hasNode_committed hx hlt).mpr hlt'.1, (hasNode_committed hx hlt).mpr hlt'.2⟩
  · exact fun v l o hseen => listOf_committed hx hlt (hnode v l o hseen).2.1
  · exact fun v l o hseen => listOf_committed hx hlt (hnode v l o hseen).2.2

end

end

/-- Three nodes: two relationships in a circle, and one that is parallel to
the first. -/
def GraphDb.circle : GraphDb :=
  .committed 1
    [⟨0, 2, 1, 0, 0⟩, ⟨1, 1, 2, 0, 0⟩, ⟨2, UNKNOWN, UNKNOWN, 0, 0⟩]
    [⟨0, 0, 1, UNKNOWN, UNKNOWN, 0, 0⟩, ⟨1, 1, 0, UNKNOWN, UNKNOWN, 0, 0⟩,
      ⟨2, 0, 1, 0, 0, 0, 0⟩]

theorem bfs_visits_circle : ∃ visits : List (Path × Nat),
    Frontier.BreadthFirst (GraphDb.circle.Follows 1 false fun _ _ => true) 0 visits ∧
      ∃ n, ∀ fuel, n ≤ fuel →
        (∃ s', pathBfs 1 false (fun _ _ => true) fuel 0 GraphDb.circle =
          .ok (visits.map fun e => (GraphDb.circle.nodeRef 1 e.2, e.1)) s') ∧
        ∃ s', bfs 1 false (fun _ _ => true) fuel 0 GraphDb.circle =
          .ok (visits.map fun e => GraphDb.circle.nodeRef 1 e.2) s' :=
  bfs_visits GraphDb.circle 1 0 false (fun _ _ => true)
    (visibleGraph_committed (by decide) (by decide) (by decide))
    ((hasNode_committed (by decide) (by decide)).mpr (by decide))

end Poseidon
