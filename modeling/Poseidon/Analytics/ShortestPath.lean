import Mathlib.Logic.Function.Basic
import Poseidon.Query.Ctx

/-!
# Shortest paths

`path_item` and the searches of `shortest_path.cpp`. The weights of the source
are doubles; here they are of any ordered type with an addition, and the
largest double, which stands for an unknown weight, is a parameter. So is the
capacity of the node vector, which is the number of entries that the vectors
of a search have.
-/

namespace Poseidon

/-!
## Breadth-first search

`bfs` and `path_bfs` of `bfs.cpp`. A node is marked when it is taken from the
frontier, so it may be queued several times. The searches call the visitor for
a node and then walk over its relationships; what the visitor was given is
the result.

A predicate or a weight is a function of the relationship it is given: of the
version that was read, and of its fields.
-/

/-- `path`. -/
abbrev Path := List Nat

namespace Path

/-- `back` of a vector that is not empty. -/
def back (p : Path) : Nat := p.getLastD 0

@[simp] theorem back_concat (p : Path) (v : Nat) : back (p ++ [v]) = v := by
  rw [back, List.getLastD_concat]

end Path

/-- A relationship that a consumer is given, and the node at its other
end. -/
structure Link where
  nid : Nat
  ref : Ref
  data : RshipData
  deriving DecidableEq, Repr

/-- What the walk over the outgoing relationships of a node gives the
consumer. -/
def outgoingLinks (xid : Nat) (n : Ref) : DbM (List Link) := do
  let o ← nodeTable.read n
  let refs ← foreachFromRelationshipOfNode xid o.data
  refs.mapM fun r => do
    let o ← rshipTable.read r
    return ⟨o.data.destNode, r, o.data⟩

/-- What the walk over the incoming relationships gives it. -/
def incomingLinks (xid : Nat) (n : Ref) : DbM (List Link) := do
  let o ← nodeTable.read n
  let refs ← foreachToRelationshipOfNode xid o.data
  refs.mapM fun r => do
    let o ← rshipTable.read r
    return ⟨o.data.srcNode, r, o.data⟩

/-- `rship_predicate`. -/
abbrev RshipPredicate := Ref → RshipData → Bool

/-- The walks that each search makes at a node: the outgoing relationships,
and the incoming ones if it follows both directions. The consumers do nothing
with a relationship that the predicate does not accept. -/
def acceptedLinks (xid : Nat) (both : Bool) (rpred : RshipPredicate) (n : Ref) :
    DbM (List Link) := do
  let out ← outgoingLinks xid n
  let inc ← if both then incomingLinks xid n else pure []
  return (out ++ inc).filter fun l => rpred l.ref l.data

section

variable (xid : Nat) (unidirectional : Bool) (rpred : RshipPredicate)

/-- The loop of `bfs`: the nodes that are visited. -/
def bfsLoop : Nat → List Nat → List Nat → DbM (List Ref)
  | _, [], _ => pure []
  | 0, _ :: _, _ => throw .diverges
  | fuel + 1, v :: frontier, visited =>
      if v ∈ visited then bfsLoop fuel frontier visited
      else do
        let n ← nodeById xid v
        let links ← acceptedLinks xid unidirectional rpred n
        let rest ← bfsLoop fuel (frontier ++ links.map Link.nid) (v :: visited)
        return n :: rest

/-- `bfs`: `unidirectional` means that both directions are followed. -/
def bfs (fuel start : Nat) : DbM (List Ref) := bfsLoop xid unidirectional rpred fuel [start] []

/-- The loop of `path_bfs`: the nodes that are visited, each with its path. -/
def pathBfsLoop : Nat → List Path → List Nat → DbM (List (Ref × Path))
  | _, [], _ => pure []
  | 0, _ :: _, _ => throw .diverges
  | fuel + 1, v :: frontier, visited =>
      if v.back ∈ visited then pathBfsLoop fuel frontier visited
      else do
        let n ← nodeById xid v.back
        let links ← acceptedLinks xid unidirectional rpred n
        let rest ← pathBfsLoop fuel (frontier ++ links.map fun l => v ++ [l.nid])
          (v.back :: visited)
        return (n, v) :: rest

/-- `path_bfs`. -/
def pathBfs (fuel start : Nat) : DbM (List (Ref × Path)) :=
  pathBfsLoop xid unidirectional rpred fuel [[start]] []

end

/-- `path_item`. -/
structure PathItem (W : Type) where
  path : Path
  hops : Nat
  weight : W
  deriving DecidableEq, Repr

/-- A new `path_item`. -/
def PathItem.new {W : Type} [Zero W] : PathItem W := ⟨[], 0, 0⟩

/-- A new item after `set_path` and `set_hops`. -/
def PathItem.counted {W : Type} [Zero W] (path : Path) (hops : Nat) : PathItem W :=
  ⟨path, hops, 0⟩

/-- A new item after `trace_path` and `set_weight`. -/
def PathItem.traced {W : Type} [Zero W] (path : Path) (weight : W) : PathItem W :=
  ⟨path, 0, weight⟩

/-! ## Unweighted paths -/

/-- The variables of an unweighted search. A vector is a function of the node
id; `visits` is what the visitor was given. -/
structure HopSearch where
  found : Bool
  frontier : List Path
  visited : List Nat
  distance : Nat → Nat
  visits : List (Ref × Path)

namespace HopSearch

/-- The variables before the loop. -/
def init (start : Nat) : HopSearch where
  found := false
  frontier := [[start]]
  visited := [start]
  distance := Function.update (fun _ => UNKNOWN) start 0
  visits := []

/-- Mark a node and queue the path to it. -/
def push (u : Path) (vid : Nat) (st : HopSearch) : HopSearch :=
  { st with
    visited := vid :: st.visited
    distance := Function.update st.distance vid (st.distance u.back + 1)
    frontier := st.frontier ++ [u ++ [vid]] }

end HopSearch

section

variable {W : Type} (xid : Nat) (bidirectional : Bool) (rpred : RshipPredicate) (stop : Nat)

/-- The consumer of `unweighted_shortest_path`. -/
def HopSearch.meet (u : Path) (r : HopSearch × PathItem W) (l : Link) : HopSearch × PathItem W :=
  if l.nid ∈ r.1.visited then r
  else
    let st := r.1.push u l.nid
    if l.nid = stop then
      ({ st with found := true },
        { r.2 with path := u ++ [l.nid], hops := st.distance l.nid })
    else (st, r.2)

/-- The loop of `unweighted_shortest_path`. -/
def unweightedLoop : Nat → HopSearch → PathItem W → DbM (Bool × HopSearch × PathItem W)
  | fuel, st, spath =>
      match st.frontier, fuel with
      | [], _ => pure (false, st, spath)
      | _ :: _, 0 => throw .diverges
      | u :: frontier, fuel + 1 => do
          let n ← nodeById xid u.back
          let links ← acceptedLinks xid bidirectional rpred n
          let r := links.foldl (HopSearch.meet stop u)
            ({ st with frontier := frontier, visits := st.visits ++ [(n, u)] }, spath)
          if r.1.found then return (true, r) else unweightedLoop fuel r.1 r.2

/-- `unweighted_shortest_path`: the result, what the visitor was given, and
`spath`. -/
def unweightedShortestPath (fuel start : Nat) (spath : PathItem W) :
    DbM (Bool × List (Ref × Path) × PathItem W) := do
  let r ← unweightedLoop xid bidirectional rpred stop fuel (.init start) spath
  return (r.1, r.2.1.visits, r.2.2)

/-- The consumer of `all_unweighted_shortest_paths`: the stop node may be
reached again by a node that is nearer than it. -/
def HopSearch.meetAll [Zero W] (u : Path) (r : HopSearch × List (PathItem W)) (l : Link) :
    HopSearch × List (PathItem W) :=
  if l.nid ∈ r.1.visited ∧
      ¬(l.nid = stop ∧ r.1.distance u.back < r.1.distance stop) then r
  else
    let st := r.1.push u l.nid
    if l.nid = stop then
      ({ st with found := true },
        r.2 ++ [.counted (u ++ [l.nid]) (st.distance l.nid)])
    else (st, r.2)

/-- The loop of `all_unweighted_shortest_paths`. -/
def allUnweightedLoop [Zero W] :
    Nat → HopSearch → List (PathItem W) → DbM (HopSearch × List (PathItem W))
  | fuel, st, spaths =>
      match st.frontier, fuel with
      | [], _ => pure (st, spaths)
      | _ :: _, 0 => throw .diverges
      | u :: frontier, fuel + 1 => do
          let n ← nodeById xid u.back
          let links ← acceptedLinks xid bidirectional rpred n
          let r := links.foldl (HopSearch.meetAll stop u)
            ({ st with frontier := frontier, visits := st.visits ++ [(n, u)] }, spaths)
          allUnweightedLoop fuel r.1 r.2

/-- `all_unweighted_shortest_paths`. -/
def allUnweightedShortestPaths [Zero W] (fuel start : Nat) (spaths : List (PathItem W)) :
    DbM (Bool × List (Ref × Path) × List (PathItem W)) := do
  let r ← allUnweightedLoop xid bidirectional rpred stop fuel (.init start) spaths
  return (r.1.found, r.1.visits, r.2)

end

/-! ## Weighted paths -/

/-- `rship_weight`. -/
abbrev RshipWeight (W : Type) := Ref → RshipData → W

/-- The vectors of a weighted search. -/
structure WeightSearch (W : Type) where
  visited : List Nat
  parent : Nat → Nat
  weight : Nat → W

section

variable {W : Type} [Add W] [Zero W] [DecidableEq W] [LT W] [DecidableLT W]

/-- The vectors before the loop. -/
def WeightSearch.init (unknownWeight : W) (start : Nat) : WeightSearch W where
  visited := []
  parent := Function.update (fun _ => UNKNOWN - 1) start UNKNOWN
  weight := Function.update (fun _ => unknownWeight) start 0

namespace WeightSearch

/-- The search for the next node: `min_nid` and `min_weight`. -/
def minNode (unknownWeight : W) (numNodes : Nat) (st : WeightSearch W) : Nat × W :=
  (List.range numNodes).foldl
    (fun m nid => if nid ∉ st.visited ∧ st.weight nid < m.2 then (nid, st.weight nid) else m)
    (UNKNOWN, unknownWeight)

/-- The consumer of `weighted_shortest_path`. -/
def relax (weightFunc : RshipWeight W) (minNid : Nat) (st : WeightSearch W) (l : Link) :
    WeightSearch W :=
  let vWeight := weightFunc l.ref l.data
  if l.nid ∉ st.visited ∧ st.weight minNid + vWeight < st.weight l.nid then
    { st with
      weight := Function.update st.weight l.nid (st.weight minNid + vWeight)
      parent := Function.update st.parent l.nid minNid }
  else st

end WeightSearch

/-- `trace_path`: what it appends to the path. A chain of parents that does
not end within the fuel does not end. -/
def tracePath (parent : Nat → Nat) : Nat → Nat → Except Err Path
  | 0, _ => .error .diverges
  | fuel + 1, v =>
      if parent v = UNKNOWN then .ok [v]
      else (tracePath parent fuel (parent v)).map (· ++ [v])

section

variable (xid : Nat) (bidirectional : Bool) (rpred : RshipPredicate)
  (weightFunc : RshipWeight W) (unknownWeight : W) (numNodes stop : Nat)

/-- The rounds of `weighted_shortest_path` that are left. -/
def weightedLoop : Nat → WeightSearch W → PathItem W → DbM (Bool × PathItem W)
  | 0, _, spath => pure (false, spath)
  | i + 1, st, spath => do
      let (minNid, minWeight) := st.minNode unknownWeight numNodes
      if minNid = stop then
        let p ← ofExcept (tracePath st.parent (numNodes + 1) stop)
        return (true, { spath with path := spath.path ++ p, weight := st.weight stop })
      else if minWeight = unknownWeight then return (false, spath)
      else
        let n ← nodeById xid minNid
        let links ← acceptedLinks xid bidirectional rpred n
        let st := links.foldl (WeightSearch.relax weightFunc minNid)
          { st with visited := minNid :: st.visited }
        weightedLoop i st spath

/-- `weighted_shortest_path`. -/
def weightedShortestPath (start : Nat) (spath : PathItem W) : DbM (Bool × PathItem W) :=
  weightedLoop xid bidirectional rpred weightFunc unknownWeight numNodes stop numNodes
    (.init unknownWeight start) spath

/-- The consumer of `all_weighted_shortest_paths`: a relationship to the stop
node that would give it the weight it has. -/
def WeightSearch.relaxAll (minNid : Nat) (r : WeightSearch W × List (PathItem W)) (l : Link) :
    Except Err (WeightSearch W × List (PathItem W)) :=
  let vWeight := weightFunc l.ref l.data
  if l.nid ∉ r.1.visited ∧ r.1.weight minNid + vWeight < r.1.weight l.nid then
    .ok (r.1.relax weightFunc minNid l, r.2)
  else if l.nid = stop ∧ r.1.weight minNid + vWeight = r.1.weight l.nid then
    (tracePath r.1.parent (numNodes + 1) stop).map fun p =>
      (r.1, r.2 ++ [.traced p (r.1.weight l.nid)])
  else .ok r

/-- The rounds of `all_weighted_shortest_paths` that are left. -/
def allWeightedLoop : Nat → Bool → WeightSearch W → List (PathItem W) →
    DbM (Bool × List (PathItem W))
  | 0, found, _, spaths => pure (found, spaths)
  | i + 1, found, st, spaths => do
      let (minNid, minWeight) := st.minNode unknownWeight numNodes
      if minNid ≠ stop ∧ minWeight = unknownWeight then return (found, spaths)
      else
        let spaths ← if minNid = stop then do
            let p ← ofExcept (tracePath st.parent (numNodes + 1) stop)
            pure (spaths ++ [.traced p (st.weight stop)])
          else pure spaths
        let n ← nodeById xid minNid
        let links ← acceptedLinks xid bidirectional rpred n
        let r ← ofExcept (links.foldlM
          (WeightSearch.relaxAll weightFunc numNodes stop minNid)
          ({ st with visited := minNid :: st.visited }, spaths))
        allWeightedLoop i (found || minNid = stop) r.1 r.2

/-- `all_weighted_shortest_paths`. -/
def allWeightedShortestPaths (start : Nat) (spaths : List (PathItem W)) :
    DbM (Bool × List (PathItem W)) :=
  allWeightedLoop xid bidirectional rpred weightFunc unknownWeight numNodes stop numNodes false
    (.init unknownWeight start) spaths

end

end

end Poseidon
