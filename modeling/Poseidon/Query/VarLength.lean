import Poseidon.Query.Ctx

/-!
# Variable-length expansion

`foreach_variable_from_relationship_of_node` and its mirror image for incoming
relationships. A queue holds relationships, each with the number of hops to
it. When a relationship is taken, the next one of its list is queued with the
same number, and the first one of the node at its other end with one more; a
number of hops is of 64 bits. The version with a label queues all
relationships of the other node, and keeps a counter and a position to find
the next relationship when the queue is about to run empty.

Which list is followed, `next`, where a relationship leads, `far`, and where
the list of a node begins, `list`, distinguish the two directions.
-/

namespace Poseidon

section

variable (xid : Nat) (next far : RshipData → Nat) (list : NodeData → Nat)

/-- The loop: the relationships that the consumer is called for. -/
def foreachVariableLoop (min max : Nat) : Nat → List (Nat × Nat) → DbM (List Ref)
  | _, [] => pure []
  | 0, _ :: _ => throw .diverges
  | fuel + 1, (relshipId, hops) :: queue =>
      if relshipId = UNKNOWN ∨ max < hops then foreachVariableLoop min max fuel queue
      else do
        let relship ← rshipById xid relshipId
        let o ← rshipTable.read relship
        -- scan recursively
        let dest ← nodeById xid (far o.data)
        let d ← nodeTable.read dest
        let rest ← foreachVariableLoop min max fuel
          (queue ++ [(next o.data, hops), (list d.data, (hops + 1) % 2 ^ 64)])
        return if min ≤ hops then relship :: rest else rest

/-- The loops that count the relationships from `n_hop_rship_id` on; the count
is an `int`. -/
def countNHopRships : Nat → Nat → Int → DbM Int
  | 0, rid, cnt => if rid = UNKNOWN then pure cnt else throw .diverges
  | fuel + 1, rid, cnt =>
      if rid = UNKNOWN then pure cnt
      else do
        let relship ← rshipById xid rid
        let o ← rshipTable.read relship
        countNHopRships fuel (next o.data) ((cnt + 1).bmod (2 ^ 32))

/-- The values that `path_rship_id` takes in the loop after the first one. -/
def pathRships : Nat → Nat → DbM (List Nat)
  | 0, rid => if rid = UNKNOWN then pure [] else throw .diverges
  | fuel + 1, rid =>
      if rid = UNKNOWN then pure []
      else do
        let relship ← rshipById xid rid
        let o ← rshipTable.read relship
        let rest ← pathRships fuel (next o.data)
        return next o.data :: rest

/-- The variables of the version with a label: `rship_set`, `rship_queue`,
`n_hop_rship_cnt`, `mr_n_hop` and `mr_n_hop_rship_id`. -/
structure NHopSearch where
  rshipSet : List Nat
  rshipQueue : List (Nat × Nat)
  nHopRshipCnt : Int
  mrNHop : Nat
  mrNHopRshipId : Nat

/-- Take the first entry of the queue, and keep track of the most recently
accessed relationship. -/
def NHopSearch.take (st : NHopSearch) (relshipId hops : Nat) (queue : List (Nat × Nat)) :
    NHopSearch :=
  if hops = st.mrNHop then
    { st with
      rshipQueue := queue
      mrNHopRshipId := relshipId
      nHopRshipCnt := (st.nHopRshipCnt - 1).bmod (2 ^ 32) }
  else { st with rshipQueue := queue }

/-- The loop with a label: the relationships that the consumer is called for. -/
def foreachVariableLabelLoop (lcode min max : Nat) : Nat → NHopSearch → DbM (List Ref)
  | 0, st => if st.rshipQueue = [] then pure [] else throw .diverges
  | fuel + 1, st =>
      match st.rshipQueue with
      | [] => pure []
      | (relshipId, hops) :: queue =>
          let st := st.take relshipId hops queue
          if relshipId = UNKNOWN ∨ max < hops then foreachVariableLabelLoop lcode min max fuel st
          else do
            let relship ← rshipById xid relshipId
            let o ← rshipTable.read relship
            if queue = [] ∧ o.data.rshipLabel ≠ lcode then
              -- just about to exit the loop
              if 0 < st.nHopRshipCnt then do
                let mr ← rshipById xid st.mrNHopRshipId
                let m ← rshipTable.read mr
                foreachVariableLabelLoop lcode min max fuel { st with
                  mrNHopRshipId := next m.data
                  rshipQueue := [(next m.data, st.mrNHop)] }
              else if next o.data ≠ UNKNOWN then do
                let cnt ← countNHopRships xid next ((← get).rships.size + 1) (next o.data) 0
                foreachVariableLabelLoop lcode min max fuel { st with
                  rshipQueue := [(next o.data, hops)]
                  nHopRshipCnt := cnt
                  mrNHop := hops
                  mrNHopRshipId := next o.data }
              else foreachVariableLabelLoop lcode min max fuel st
            else if o.data.rshipLabel ≠ lcode ∨ (min ≤ hops ∧ o.data.id ∈ st.rshipSet) then
              foreachVariableLabelLoop lcode min max fuel st
            else do
              -- scan recursively
              let dest ← nodeById xid (far o.data)
              let d ← nodeTable.read dest
              let path ← pathRships xid next ((← get).rships.size + 1) (list d.data)
              let rest ← foreachVariableLabelLoop lcode min max fuel { st with
                rshipSet := if min ≤ hops then o.data.id :: st.rshipSet else st.rshipSet
                rshipQueue := queue ++ (next o.data, hops) ::
                  (list d.data :: path).map fun id => (id, (hops + 1) % 2 ^ 64) }
              return if min ≤ hops then relship :: rest else rest

/-- The version with a label, from the first relationship of a node on. -/
def foreachVariableLabel (lcode min max fuel first : Nat) : DbM (List Ref) := do
  let cnt ← countNHopRships xid next ((← get).rships.size + 1) first 0
  foreachVariableLabelLoop xid next far list lcode min max fuel ⟨[], [(first, 1)], cnt, 1, first⟩

end

/-- `foreach_variable_from_relationship_of_node(n, min, max, consumer)`. -/
def foreachVariableFromRelationshipOfNode (xid : Nat) (n : NodeData) (min max fuel : Nat) :
    DbM (List Ref) :=
  foreachVariableLoop xid RshipData.nextSrcRship RshipData.destNode NodeData.fromRshipList min max
    fuel [(n.fromRshipList, 1)]

/-- `foreach_variable_to_relationship_of_node(n, min, max, consumer)`. -/
def foreachVariableToRelationshipOfNode (xid : Nat) (n : NodeData) (min max fuel : Nat) :
    DbM (List Ref) :=
  foreachVariableLoop xid RshipData.nextDestRship RshipData.srcNode NodeData.toRshipList min max
    fuel [(n.toRshipList, 1)]

/-- `foreach_variable_from_relationship_of_node(n, lcode, min, max, consumer)`. -/
def foreachVariableFromRelationshipOfNodeWithLabel (xid : Nat) (n : NodeData)
    (lcode min max fuel : Nat) : DbM (List Ref) :=
  foreachVariableLabel xid RshipData.nextSrcRship RshipData.destNode NodeData.fromRshipList
    lcode min max fuel n.fromRshipList

/-- `foreach_variable_to_relationship_of_node(n, lcode, min, max, consumer)`. -/
def foreachVariableToRelationshipOfNodeWithLabel (xid : Nat) (n : NodeData)
    (lcode min max fuel : Nat) : DbM (List Ref) :=
  foreachVariableLabel xid RshipData.nextDestRship RshipData.srcNode NodeData.toRshipList
    lcode min max fuel n.toRshipList

end Poseidon
