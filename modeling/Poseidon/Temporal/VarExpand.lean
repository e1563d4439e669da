import Poseidon.Lib.Bfs
import Poseidon.Temporal.Versions

/-!
# Variable-length expansion

`qop_temporal_var_expand`. A search from a node over the relationships that
are valid at a time. The adjacency list of a node starts where its last
checkpoint before that time says, or at the head that the version itself has,
and goes on from record to record; each of them only names a logical id, whose
version at the time is looked up anew.
-/

namespace Poseidon.Temporal

/-!
## Descriptions

What a query is given of a version: `get_node_description` and
`get_rship_description`. The version is a history record or the record of a
slot; a slot is read like any other call reads it, so its read timestamp is
set and a call outside of a transaction fails. The ends of a relationship are
logical ids if it is a history record, and otherwise the ids that the record
has.
-/

/-- `node_description`. -/
structure NodeDescription where
  id : Nat
  logicalId : Nat
  label : String
  properties : List PItem
  vtStart : Nat
  vtEnd : Nat
  ttStart : Nat
  ttEnd : Nat
  deriving DecidableEq, Repr

/-- `rship_description`. -/
structure RshipDescription where
  id : Nat
  logicalId : Nat
  fromId : Nat
  toId : Nat
  label : String
  properties : List PItem
  vtStart : Nat
  vtEnd : Nat
  ttStart : Nat
  ttEnd : Nat
  deriving DecidableEq, Repr

/-- `unknown_id` is caught, and no other exception. -/
def tryUnknown {β : Type} (x : DbM β) : DbM (Option β) := fun s =>
  match x s with
  | .ok b s' => .ok (some b) s'
  | .error .unknownId s' => .ok none s'
  | .error e s' => .error e s'

/-- `try_get_node_at_vt`. -/
def tryGetNodeAtVt (lid vt : Nat) : DbM (Option Nat) := tryUnknown (getNodeAtVt lid vt)

/-- `try_get_rship_at_vt`. -/
def tryGetRshipAtVt (lid vt : Nat) : DbM (Option Nat) := tryUnknown (getRshipAtVt lid vt)

section

variable (lookupCode : Nat → String) (xid : Nat)

/-- The label and the properties of the record in a slot: those of the table
if no transaction works on it. -/
def Table.hotContents {ε δ γ : Type} (t : Table ε δ γ) (id : Nat) (o : Obj (Versioned ε)) :
    DbM (String × List PItem) := do
  let s ← get
  let r := t.record s id
  if r.hasDirtyVersions then
    let dv ← ofExcept (r.findValidVersion xid)
    return (lookupCode dv.elem.data.label, buildPropertiesFromPitems dv.properties)
  else
    let props ← ofExcept ((t.side s).props.allProperties o.data.propertyList)
    return (lookupCode o.data.label, props)

/-- `get_node_description`. -/
def getNodeDescription (nid : Nat) : DbM NodeDescription := do
  if isHistoryId nid then
    let s ← get
    let nd ← ofExcept (s.nodes.getDelta nid)
    let props ← ofExcept (s.nodes.resolveOverlay nid)
    return ⟨nid, nd.lid, lookupCode nd.label, props, nd.vtStart, nd.vtEnd, nd.ttStart, nd.ttEnd⟩
  else
    let n ← nodeTable.byId xid nid
    let o ← nodeTable.read n
    let (label, props) ← nodeTable.hotContents lookupCode xid nid o
    return ⟨o.data.id, o.data.logicalId, label, props, o.data.vtStart, o.data.vtEnd, o.bts, o.cts⟩

/-- `get_rship_description`. -/
def getRshipDescription (rid : Nat) : DbM RshipDescription := do
  if isHistoryId rid then
    let s ← get
    let rd ← ofExcept (s.rships.getDelta rid)
    let props ← ofExcept (s.rships.resolveOverlay rid)
    return ⟨rid, rd.lid, rd.links.srcLid, rd.links.destLid, lookupCode rd.label, props,
      rd.vtStart, rd.vtEnd, rd.ttStart, rd.ttEnd⟩
  else
    let r ← rshipTable.byId xid rid
    let o ← rshipTable.read r
    let (label, props) ← rshipTable.hotContents lookupCode xid rid o
    return ⟨o.data.id, o.data.logicalId, o.data.links.srcNode, o.data.links.destNode, label, props,
      o.data.vtStart, o.data.vtEnd, o.bts, o.cts⟩

end

/-- A tuple of a query: descriptions of nodes and other values. -/
abbrev Tuple (τ : Type) := List (NodeDescription ⊕ τ)

/-- The fields of the operator. -/
structure VarExpand where
  targetTime : Nat
  isOut : Bool
  labelFilter : String
  minHops : Nat
  maxHops : Nat
  deriving DecidableEq, Repr

namespace VarExpand

variable (q : VarExpand) (lookupCode : Nat → String) (xid : Nat)

/-- The head of one of a node's two lists. -/
def headOf (l : NodeLinks) : Nat := if q.isOut then l.fromRshipList else l.toRshipList

/-- `r_head`: from the checkpoint, and if it has none from the version. -/
def head (lid nid : Nat) : DbM Nat := do
  let s ← get
  let jump := match (s.nodes.checkpoints lid).floor q.targetTime with
    | some (_, cp) => q.headOf cp.links
    | none => UNKNOWN
  if jump ≠ UNKNOWN then return jump
  else if isHistoryId nid then
    let nd ← ofExcept (s.nodes.getDelta nid)
    return q.headOf nd.links
  else
    let n ← nodeTable.getRecord nid
    return q.headOf n.obj.data.links

/-- The logical id of a relationship in a list. -/
def rshipLid (rid : Nat) : DbM Nat := do
  if isHistoryId rid then
    let rd ← ofExcept ((← get).rships.getDelta rid)
    return rd.lid
  else
    let r ← rshipTable.getRecord rid
    return r.obj.data.logicalId

/-- The next relationship in a list. -/
def nextRship (rid : Nat) : DbM Nat := do
  if isHistoryId rid then
    let rd ← ofExcept ((← get).rships.getDelta rid)
    return if q.isOut then rd.links.nextSrc else rd.links.nextDest
  else
    let r ← rshipTable.getRecord rid
    return if q.isOut then r.obj.data.links.nextSrcRship else r.obj.data.links.nextDestRship

/-- The node at the other end of a relationship that is valid at the time and
has the label. -/
def neighbor (rid : Nat) : DbM (Option Nat) := do
  let rlid ← rshipLid rid
  match ← tryGetRshipAtVt rlid q.targetTime with
  | none => return none
  | some validRid =>
      let d ← getRshipDescription lookupCode xid validRid
      if q.labelFilter = "" ∨ d.label = q.labelFilter then
        return some (if q.isOut then d.toId else d.fromId)
      else return none

/-- The inner loop, from relationship `rid` on. -/
def walk (hops : Nat) : Nat → Nat → List (Nat × Nat) × List Nat →
    DbM (List (Nat × Nat) × List Nat)
  | 0, _, _ => throw .diverges
  | fuel + 1, rid, acc => do
      if rid = UNKNOWN ∨ rid = 0 then return acc
      else
        let acc := match ← q.neighbor lookupCode xid rid with
          | some lid => Bfs.offer (hops + 1) acc lid
          | none => acc
        walk hops fuel (← q.nextRship rid) acc

/-- The tuple that is passed on for a node. -/
def output {τ : Type} (v : Tuple τ) (hops : Nat) (d : NodeDescription) : Tuple τ :=
  if 0 < hops then v ++ [.inl d] else v

/-- The outer loop: the logical ids and the tuples that are passed on.
`walkFuel` is what the inner loop has. -/
def loop {τ : Type} (v : Tuple τ) (walkFuel : Nat) : Nat → List (Nat × Nat) → List Nat →
    DbM (List (Nat × Tuple τ))
  | _, [], _ => return []
  | 0, _ :: _, _ => throw .diverges
  | fuel + 1, (lid, hops) :: queue, visited => do
      match ← tryGetNodeAtVt lid q.targetTime with
      | none => loop v walkFuel fuel queue visited
      | some nid =>
          let d ← getNodeDescription lookupCode xid nid
          let out := if q.minHops ≤ hops ∧ hops ≤ q.maxHops then [(lid, output v hops d)] else []
          if q.maxHops ≤ hops then
            return out ++ (← loop v walkFuel fuel queue visited)
          else
            let head ← q.head lid nid
            let (queue, visited) ← q.walk lookupCode xid hops walkFuel head (queue, visited)
            return out ++ (← loop v walkFuel fuel queue visited)

/-- The first node description of a tuple. -/
def source {τ : Type} (v : Tuple τ) : Option NodeDescription :=
  v.findSome? fun
    | .inl d => some d
    | .inr _ => none

/-- `process`. -/
def process {τ : Type} (fuel : Nat) (v : Tuple τ) : DbM (List (Nat × Tuple τ)) :=
  match source v with
  | none => return []
  | some src => q.loop lookupCode xid v fuel fuel [(src.logicalId, 0)] [src.logicalId]

end VarExpand

end Poseidon.Temporal
