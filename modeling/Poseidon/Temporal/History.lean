import Poseidon.Temporal.GraphDb

/-!
# The history manager

`temporal_index.hpp`, `temporal_index.cpp` and `history_manager.cpp`. The
index is a B+-tree from 64-bit keys, made of a partition bit, a logical id
and the start of a valid time, to 64-bit values, made of a type byte and a
payload of 56 bits; here it is an ordered map on these numbers. The tree does
not always behave so: where `erase` merges two leaves it can leave a wrong
separator, and a lookup then misses other keys. The runs here are those in
which it takes out the one entry and nothing else. A history id is the number
of a history record with the highest bit set, which the payload of an index
value has no room for.

Archiving a version appends a history record. It holds either all properties
of the version in a list of its own (an anchor) or the changes that
superseded the version, on top of the base list of the record before.
-/

namespace Poseidon.Temporal

/-! ## Encodings -/

/-- `ti_encode_key`. The logical id and the time are cut to 32 bits on the
way in; the three parts do not overlap, so the sum is their bitwise or. -/
def tiEncodeKey (lid vtStart : Nat) (isRel : Bool) : Nat :=
  (if isRel then 2 ^ 63 else 0) + (lid % 2 ^ 31) * 2 ^ 32 + vtStart % 2 ^ 32

/-- `ti_decode_lid`. -/
def tiDecodeLid (key : Nat) : Nat := (key / 2 ^ 32) % 2 ^ 31

/-- `ti_decode_vt_start`. -/
def tiDecodeVtStart (key : Nat) : Nat := key % 2 ^ 32

/-- `TI_PtrType`. -/
inductive PtrType where
  | hot
  | hist
  deriving DecidableEq, Repr

/-- The number of a pointer type. -/
def PtrType.code : PtrType → Nat
  | .hot => 1
  | .hist => 2

/-- `ti_encode_val`. -/
def tiEncodeVal (ty : PtrType) (payload : Nat) : Nat :=
  ty.code * 2 ^ 56 + payload % 2 ^ 56

/-- `ti_decode_type`, as a number. -/
def tiDecodeType (val : Nat) : Nat := (val / 2 ^ 56) % 2 ^ 8

/-- `ti_decode_payload`. -/
def tiDecodePayload (val : Nat) : Nat := val % 2 ^ 56

/-- `is_history_id`. -/
def isHistoryId (id : Nat) : Bool := (id / 2 ^ 63) % 2 == 1

/-- `encode_history_id`: set the highest bit. -/
def encodeHistoryId (id : Nat) : Nat := 2 ^ 63 + id % 2 ^ 63

/-- `decode_history_id`: clear the highest bit. -/
def decodeHistoryId (id : Nat) : Nat := id % 2 ^ 63

/-! ## The index -/

/-- `insert_version`. -/
def insertVersion (ix : OrdMap Nat Nat) (lid vtStart : Nat) (ty : PtrType) (payload : Nat)
    (isRel : Bool) : OrdMap Nat Nat :=
  ix.insert (tiEncodeKey lid vtStart isRel) (tiEncodeVal ty payload)

/-- `remove_version`, where the tree takes this entry out and no other. -/
def removeVersion (ix : OrdMap Nat Nat) (lid vtStart : Nat) (isRel : Bool) : OrdMap Nat Nat :=
  ix.erase (tiEncodeKey lid vtStart isRel)

/-- `lookup_exact`. -/
def lookupExact (ix : OrdMap Nat Nat) (lid vtStart : Nat) (isRel : Bool) : Option (Nat × Nat) :=
  (ix.lookup (tiEncodeKey lid vtStart isRel)).map fun v => (tiDecodeType v, tiDecodePayload v)

/-- `scan_range`: the start, the type and the payload that the function is
called with, in this order. -/
def scanRange (ix : OrdMap Nat Nat) (lid a b : Nat) (isRel : Bool) : List (Nat × Nat × Nat) :=
  (ix.scan (tiEncodeKey lid a isRel) (tiEncodeKey lid b isRel)).map fun e =>
    (tiDecodeVtStart e.1, tiDecodeType e.2, tiDecodePayload e.2)

/-- `lookup_as_of`: the last entry of the logical id between the hint and
`t`. The result is the type and the payload of its value. -/
def lookupAsOf (ix : OrdMap Nat Nat) (lid vt hint : Nat) (isRel : Bool) :
    Option (Nat × Nat) :=
  let found := (ix.scan (tiEncodeKey lid hint isRel) (tiEncodeKey lid vt isRel)).filter
    fun e => tiDecodeLid e.1 == lid % 2 ^ 32
  found.getLast?.map fun e => (tiDecodeType e.2, tiDecodePayload e.2)

/-! ## Anchors -/

/-- The second loop of `isqrt_u64`. -/
def isqrtLoop : Nat → Nat → Nat → Nat → Nat
  | 0, _, r, _ => r
  | fuel + 1, x, r, bit =>
      if bit = 0 then r
      else if r + bit ≤ x then isqrtLoop fuel (x - (r + bit)) (r / 2 + bit) (bit / 4)
      else isqrtLoop fuel x (r / 2) (bit / 4)

/-- The first loop of `isqrt_u64`. -/
def isqrtStart : Nat → Nat → Nat → Nat
  | 0, _, bit => bit
  | fuel + 1, x, bit => if x < bit then isqrtStart fuel x (bit / 4) else bit

/-- `isqrt_u64`: 32 pairs of bits. -/
def isqrtU64 (x : Nat) : Nat := isqrtLoop 32 x 0 (isqrtStart 32 x (2 ^ 62))

/-- The loops of `isqrt_u64` with every sum checked: `none` if one does not fit
in 64 bits, or if a loop goes on when `fuel` is used up. -/
def isqrtLoopChecked : Nat → Nat → Nat → Nat → Option Nat
  | 0, _, r, bit => if bit = 0 then some r else none
  | fuel + 1, x, r, bit =>
      if bit = 0 then some r
      else if 2 ^ 64 ≤ r + bit then none
      else if r + bit ≤ x then isqrtLoopChecked fuel (x - (r + bit)) (r / 2 + bit) (bit / 4)
      else isqrtLoopChecked fuel x (r / 2) (bit / 4)

def isqrtStartChecked : Nat → Nat → Nat → Option Nat
  | 0, x, bit => if x < bit then none else some bit
  | fuel + 1, x, bit => if x < bit then isqrtStartChecked fuel x (bit / 4) else some bit

def isqrtChecked (x : Nat) : Option Nat :=
  (isqrtStartChecked 32 x (2 ^ 62)).bind fun bit => isqrtLoopChecked 32 x 0 bit

/-- The loop of `snap_pow2`: the first power of two from `p` on that is not
below `x`. -/
def pow2From : Nat → Nat → Nat → Nat
  | 0, _, p => p
  | fuel + 1, x, p => if p < x then pow2From fuel x (2 * p) else p

/-- `snap_pow2`: the power of two nearest to `x`, the lower one if there are
two. -/
def snapPow2 (x : Nat) : Nat :=
  let p := pow2From 64 x 1
  let lower := p / 2
  if lower < 1 then 1 else if x - lower ≤ p - x then lower else p

/-- `adaptive_interval`. The product with `8.0` is a whole number that a
double holds exactly. -/
def adaptiveInterval (freq : Nat) : Nat :=
  if freq < 64 then 64 else snapPow2 (max 64 (min 1024 (isqrtU64 freq * 8)))

/-- Whether the archival of this number stores an anchor and a checkpoint. -/
def atInterval (count : Nat) : Bool := count % adaptiveInterval count == 0

/-! ## Property maps -/

/-- `m[key] = value` for one item. -/
def assignProperty (m : List PItem) (p : PItem) : List PItem :=
  (replaceItem p m).getD (m ++ [p])

/-- Assign all items of a map, one after the other. -/
def assignProperties (m updates : List PItem) : List PItem := updates.foldl assignProperty m

/-! ## Archiving -/

section Tables

variable {ε δ γ : Type} (t : Table ε δ γ)

/-- `append_node_delta` and `append_rship_delta`. A vector of `2 ^ 56`
records does not fit in the address space, so it never gets that long. -/
def Table.appendDelta (d : HistoryDelta δ) : DbM Nat := do
  let n := (t.side (← get)).deltas.length
  if 2 ^ 56 ≤ n then throw .slotInUse
  modify (t.modifySide fun sd => { sd with deltas := sd.deltas ++ [d] })
  return n

/-- `get_node_delta` and `get_rship_delta`. -/
def Side.getDelta (sd : Side ε δ γ) (id : Nat) : Except Err (HistoryDelta δ) :=
  match sd.deltas[decodeHistoryId id]? with
  | some d => .ok d
  | none => .error .indexOutOfRange

/-- `update_last_node_delta` and `update_last_rship_delta`. -/
def Table.setLastDelta (lid histId : Nat) : GraphDb → GraphDb :=
  t.modifySide fun sd => { sd with
    lastDelta := fun l => if l = lid then some histId else sd.lastDelta l }

/-- `index_hot_node` and `index_hot_rship`. -/
def Table.indexHot (lid vt id : Nat) (s : GraphDb) : GraphDb :=
  { s with index := insertVersion s.index lid vt .hot id t.isRel }

/-- The index entry of an archived version. -/
def Table.indexHist (lid vt histId : Nat) (s : GraphDb) : GraphDb :=
  { s with index :=
      insertVersion (removeVersion s.index lid vt t.isRel) lid vt .hist histId t.isRel }

/-- What the archiving functions do not have in common: the version, the
owner of the new property sets, how the properties of the version are read
for an anchor, the fields of the record and of a checkpoint. -/
structure ArchiveArgs (δ γ : Type) where
  xid : Nat
  lid : Nat
  label : Nat
  vtStart : Nat
  newVtStart : Nat
  owner : Nat
  baseItems : PropertyList → Except Err (List PItem)
  updates : List PItem
  links : δ
  checkpoint : Option γ

/-- The base list and the delta list of the new history record. -/
def Table.archiveLists (a : ArchiveArgs δ γ) (count prevHistId : Nat) : DbM (Nat × Nat) := do
  if atInterval count ∨ prevHistId = UNKNOWN then
    -- anchor: all properties of the version
    let items ← ofExcept (a.baseItems (t.side (← get)).props)
    let base ← t.addPitems a.owner items
    return (base, 0)
  else
    let prev ← ofExcept ((t.side (← get)).getDelta prevHistId)
    let delta ← t.addPitems a.owner a.updates
    return (prev.basePropertyList, delta)

/-- The common body of the archiving functions. -/
def Table.archiveWith (a : ArchiveArgs δ γ) : DbM Nat := do
  let count := ((← get).updateCounts a.lid + 1) % 2 ^ 32
  modify fun s => { s with
    updateCounts := fun l => if l = a.lid then count else s.updateCounts l }
  let prevHistId := ((t.side (← get)).lastDelta a.lid).getD UNKNOWN
  let lists ← t.archiveLists a count prevHistId
  let rawId ← t.appendDelta ⟨a.lid, a.label, a.vtStart, a.newVtStart, lists.1, lists.2,
    prevHistId, a.xid, 2 ^ 64 - 1, a.links⟩
  let histId := encodeHistoryId rawId
  modify (t.setLastDelta a.lid histId)
  modify (t.indexHist a.lid a.vtStart histId)
  if atInterval count then
    match a.checkpoint with
    | some c => modify (t.modifySide fun sd => { sd with
        checkpoints := fun l =>
          if l = a.lid then (sd.checkpoints l).insert a.vtStart ⟨a.lid, a.vtStart, lists.1, 0, c⟩
          else sd.checkpoints l })
    | none => pure ()
  return histId

end Tables

/-- `archive_node_delta`. -/
def archiveNodeDelta (xid : Nat) (oldNode : Versioned NodeLinks) (updates : List PItem)
    (newVtStart label : Nat) : DbM Nat :=
  nodeTable.archiveWith {
    xid := xid, lid := oldNode.logicalId, label := label, vtStart := oldNode.vtStart
    newVtStart := newVtStart, owner := oldNode.id
    baseItems := fun p => p.buildDirtyPropertyList oldNode.propertyList
    updates := updates, links := oldNode.links, checkpoint := some oldNode.links }

/-- `archive_rship_delta`. It makes no checkpoint. -/
def archiveRshipDelta (xid : Nat) (oldR : Versioned RshipLinks) (updates : List PItem)
    (newVtStart label srcLid destLid : Nat) : DbM Nat :=
  rshipTable.archiveWith {
    xid := xid, lid := oldR.logicalId, label := label, vtStart := oldR.vtStart
    newVtStart := newVtStart, owner := oldR.id
    baseItems := fun p => p.allProperties oldR.propertyList
    updates := updates
    links := ⟨srcLid, destLid, oldR.links.nextSrcRship, oldR.links.nextDestRship⟩
    checkpoint := none }

/-- `archive_node_delta_raw`. -/
def archiveNodeDeltaRaw (a : Archival NodeLinks) : DbM Nat :=
  nodeTable.archiveWith {
    xid := a.xid, lid := a.lid, label := a.label, vtStart := a.vtStart
    newVtStart := a.newVtStart, owner := 0
    baseItems := fun p => p.buildDirtyPropertyList a.pid
    updates := a.updates, links := a.links, checkpoint := some a.links }

/-- `archive_rship_delta_raw`. -/
def archiveRshipDeltaRaw (a : Archival RshipHistoryLinks) : DbM Nat :=
  rshipTable.archiveWith {
    xid := a.xid, lid := a.lid, label := a.label, vtStart := a.vtStart
    newVtStart := a.newVtStart, owner := 0
    baseItems := fun p => p.buildDirtyPropertyList a.pid
    updates := a.updates, links := a.links, checkpoint := some () }

/-! ## Reading the history -/

section Tables

variable {ε δ γ : Type}

/-- The walk of `resolve_node_overlay`: the properties of the anchor it ends
at, and the delta lists on the way, the newest first. -/
def Side.overlayWalk (sd : Side ε δ γ) : Nat → Nat → Except Err (List PItem × List Nat)
  | 0, _ => .error .diverges
  | fuel + 1, current =>
      if current = UNKNOWN ∨ ¬ isHistoryId current then .ok ([], [])
      else match sd.getDelta current with
        | .error e => .error e
        | .ok d =>
            if d.deltaPid ≠ 0 ∧ d.deltaPid ≠ UNKNOWN then
              (sd.overlayWalk fuel d.prevVersion).map fun r => (r.1, d.deltaPid :: r.2)
            else
              (sd.props.allProperties d.basePropertyList).map fun m => (m, [])

/-- The loop of `resolve_node_overlay` that applies the deltas, the oldest
first. -/
def applyDeltas (p : PropertyList) : List PItem → List Nat → Except Err (List PItem)
  | m, [] => .ok m
  | m, pid :: rest =>
      match p.allProperties pid with
      | .error e => .error e
      | .ok dp => applyDeltas p (assignProperties m dp) rest

/-- `resolve_node_overlay` and `resolve_rship_overlay`. A chain that visits
more records than there are does not end. -/
def Side.resolveOverlay (sd : Side ε δ γ) (targetId : Nat) : Except Err (List PItem) :=
  match sd.overlayWalk (sd.deltas.length + 1) targetId with
  | .error e => .error e
  | .ok (base, chain) => applyDeltas sd.props base chain.reverse

end Tables

/-- One step of the scan in `restore_state`: the maps of nodes and of
relationships. -/
def restoreEntry (maps : (Nat → Option Nat) × (Nat → Option Nat)) (e : Nat × Nat) :
    (Nat → Option Nat) × (Nat → Option Nat) :=
  if tiDecodeType e.2 = PtrType.hist.code then
    let lid := tiDecodeLid e.1
    let payload := tiDecodePayload e.2
    if e.1 / 2 ^ 63 ≠ 0 then
      (maps.1, fun l => if l = lid then some payload else maps.2 l)
    else (fun l => if l = lid then some payload else maps.1 l, maps.2)
  else maps

/-- `restore_state`. -/
def restoreState (s : GraphDb) : GraphDb :=
  let maps := s.index.entries.foldl restoreEntry (fun _ => none, fun _ => none)
  { s with
    nodes := { s.nodes with lastDelta := maps.1 }
    rships := { s.rships with lastDelta := maps.2 } }

end Poseidon.Temporal
