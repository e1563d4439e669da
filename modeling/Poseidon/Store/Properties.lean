import Poseidon.Store.Basic

/-!
# The property table

`properties.hpp`: every node and relationship owns a chain of
`property_set` records, three `p_item`s each, linked by `next` and headed by
the record's `property_list` field. The table is a vector with slots that
are reused, so `atId` has two ways to fail: an index past the capacity and a
slot that is not in use.

The loops of the source follow `next` until `UNKNOWN`. Nothing in the table
stops a chain from being circular, so the walks below carry fuel, one more
than the number of slots: a chain that needs more does not end in the source
either, which is what `Err.diverges` says.
-/

namespace Poseidon

/-- `p_item::p_typecode`, with `none` for the zero byte that a
value-initialised `p_item()` holds and that no typecode uses. -/
inductive Typecode where
  | none
  | int
  | double
  | dcode
  | uint64
  | ptime
  | unused
  deriving DecidableEq, Repr

/-- `p_item`: a property key with a typed value of eight bytes. -/
structure PItem where
  key : Nat
  typecode : Typecode
  value : Nat
  deriving DecidableEq, Repr

/-- `p_item(0)`, the filler of a property set. -/
def PItem.filler : PItem := ⟨0, .unused, 0⟩

/-- `p_item()`, value-initialised: every byte is zero. -/
def PItem.zero : PItem := ⟨0, .none, 0⟩

/-- `p_item::empty`: only the filler's typecode counts as empty, so a
value-initialised item does not. -/
def PItem.empty (p : PItem) : Bool := p.typecode == .unused

/-- The typecodes of the values that can be stored. -/
def Typecode.stored : Typecode → Bool
  | .none | .unused => false
  | _ => true

/-- The properties a client passes to an insert or update, a `properties_t`
after the dictionary has given every key its code: a map, so the keys are
distinct, with typed values. -/
structure Properties where
  items : List PItem
  typed : ∀ p ∈ items, p.key ≠ 0 ∧ p.typecode.stored = true
  distinct : (items.map PItem.key).Nodup

/-- No properties. -/
def Properties.none : Properties := ⟨[], by simp, by simp⟩

/-- The item of key `k` in a list of items, the first one if several have
that key. -/
def lookupItem (items : List PItem) (k : Nat) : Option PItem :=
  items.find? (fun p => p.key == k)

/-- `property_set`: three items, the owning record and the next set. -/
structure PropertySet where
  next : Nat
  owner : Nat
  items : List PItem
  deriving DecidableEq, Repr

/-- Fill an item list up to the three items of a set. -/
def fillItems (items : List PItem) : List PItem :=
  items ++ List.replicate (3 - items.length) PItem.filler

/-- Records per chunk of the property vector, `(65536 - 128) / 64`. -/
def setsPerChunk : Nat := 1022

/-- `property_list`: the slots in use and the capacity of the vector. -/
structure PropertyList where
  sets : Nat → Option PropertySet
  capacity : Nat

/-- The table of a new database. -/
def PropertyList.empty : PropertyList := ⟨fun _ => none, 0⟩

namespace PropertyList

/-- `properties_.at`. -/
def atId (t : PropertyList) (id : Nat) : Except Err PropertySet :=
  if t.capacity ≤ id then .error .indexOutOfRange
  else match t.sets id with
    | some p => .ok p
    | none => .error .unknownId

/-- Store a set at a slot that `atId` accepts. -/
def put (t : PropertyList) (id : Nat) (p : PropertySet) : PropertyList :=
  { t with sets := fun i => if i = id then some p else t.sets i }

/-- `properties_.erase`: the slot becomes available. -/
def erase (t : PropertyList) (id : Nat) : PropertyList :=
  { t with sets := fun i => if i = id then none else t.sets i }

/-- The first slot from `i` on that is not in use, looking at `n` slots. The
number `UNKNOWN`, which ends the chains, is never handed out. -/
def firstFree (t : PropertyList) : Nat → Nat → Nat
  | 0, i => if i = UNKNOWN then i + 1 else i
  | n + 1, i =>
      if (t.sets i).isSome ∨ i = UNKNOWN then firstFree t n (i + 1) else i

/-- `properties_.store`: the first available slot, growing the vector by a
chunk when none is left. -/
def store (t : PropertyList) (p : PropertySet) : Nat × PropertyList :=
  let id := t.firstFree t.capacity 0
  let cap := if id < t.capacity then t.capacity else t.capacity + setsPerChunk
  (id, { sets := fun i => if i = id then some p else t.sets i, capacity := cap })

end PropertyList

/-- The three items a set holds at a time, the last group possibly
shorter. -/
def triples : List PItem → List (List PItem)
  | [] => []
  | [a] => [[a]]
  | [a, b] => [[a, b]]
  | a :: b :: c :: rest => [a, b, c] :: triples rest

namespace PropertyList

/-- The loop of `add_pitems`: every group becomes a set in front of the
chain built so far. -/
def addGroups (nid : Nat) :
    List (List PItem) → Nat → PropertyList → Nat × PropertyList
  | [], nextId, t => (nextId, t)
  | g :: gs, nextId, t =>
      let st := t.store ⟨nextId, nid, fillItems g⟩
      addGroups nid gs st.1 st.2

/-- `add_pitems`. -/
def addPitems (t : PropertyList) (nid : Nat) (props : List PItem) :
    Nat × PropertyList :=
  addGroups nid (triples props) UNKNOWN t

/-- The loop of `update_pitems`: overwrite the sets of the chain one after
the other, then put new sets in front of its head. -/
def updateGroups (nid : Nat) : List (List PItem) → Nat → Nat →
    EStateM Err PropertyList Nat
  | [], _, headId => pure headId
  | g :: gs, id, headId => do
      let t ← get
      if id ≠ UNKNOWN then
        match t.atId id with
        | .error e => throw e
        | .ok old =>
            set (t.put id { old with items := fillItems g })
            updateGroups nid gs old.next headId
      else
        let st := t.store ⟨headId, nid, fillItems g⟩
        set st.2
        updateGroups nid gs UNKNOWN st.1

/-- `update_pitems`. -/
def updatePitems (nid id : Nat) (props : List PItem) :
    EStateM Err PropertyList Nat :=
  updateGroups nid (triples props) id id

/-- The loop of `remove_properties`. -/
def removeLoop : Nat → Nat → EStateM Err PropertyList Unit
  | 0, id => if id = UNKNOWN then pure () else throw .diverges
  | fuel + 1, id =>
      if id = UNKNOWN then pure ()
      else do
        let t ← get
        match t.atId id with
        | .error e => throw e
        | .ok p =>
            set (t.erase id)
            removeLoop fuel p.next

/-- `remove_properties`. -/
def removeProperties (id : Nat) : EStateM Err PropertyList Unit := do
  let t ← get
  if id = UNKNOWN then pure ()
  else if t.capacity ≤ id then throw .unknownProperty
  else removeLoop (t.capacity + 1) id

/-- The sets of a chain in order: the walk that the reading loops of
`property_list` share. -/
def walk (t : PropertyList) : Nat → Nat → Except Err (List PropertySet)
  | 0, id => if id = UNKNOWN then .ok [] else .error .diverges
  | fuel + 1, id =>
      if id = UNKNOWN then .ok []
      else match t.atId id with
        | .error e => .error e
        | .ok p => (walk t fuel p.next).map (p :: ·)

/-- All items of a chain, fillers included. -/
def chainItems (t : PropertyList) (id : Nat) : Except Err (List PItem) :=
  (t.walk (t.capacity + 1) id).map fun ps => ps.flatMap PropertySet.items

/-- `build_dirty_property_list(id)`: the items with a key. -/
def buildDirtyPropertyList (t : PropertyList) (id : Nat) :
    Except Err (List PItem) :=
  (t.chainItems id).map (List.filter fun p => p.key ≠ 0)

/-- `foreach_property_set` without a callback: it only visits the sets, and
turns a freed slot into `unknown_property`. -/
def foreachPropertySet (t : PropertyList) (id : Nat) : Except Err Unit :=
  match t.walk (t.capacity + 1) id with
  | .ok _ => .ok ()
  | .error .unknownId => .error .unknownProperty
  | .error e => .error e

/-- The loop of `property_value`: the first item with the key; a freed slot
ends the search, the end of the chain as well, both with `p_item()`. -/
def propertyValueLoop (t : PropertyList) (pkey : Nat) :
    Nat → Nat → Except Err PItem
  | 0, id => if id = UNKNOWN then .ok PItem.zero else .error .diverges
  | fuel + 1, id =>
      if id = UNKNOWN then .ok PItem.zero
      else match t.atId id with
        | .error .unknownId => .ok PItem.zero
        | .error e => .error e
        | .ok p =>
            match lookupItem p.items pkey with
            | some item => .ok item
            | none => propertyValueLoop t pkey fuel p.next

/-- `property_value`. -/
def propertyValue (t : PropertyList) (id : Nat) (pkey : Nat) :
    Except Err PItem :=
  propertyValueLoop t pkey (t.capacity + 1) id

end PropertyList

/-- `pmap.insert` for one item: an item without a stored type is passed
over, and a key that is present keeps its value. -/
def insertProperty (pmap : List PItem) (p : PItem) : List PItem :=
  match p.typecode with
  | .unused | .none => pmap
  | _ => if (lookupItem pmap p.key).isSome then pmap else pmap ++ [p]

/-- `build_properties_from_pitems`. -/
def buildPropertiesFromPitems (pitems : List PItem) : List PItem :=
  pitems.foldl insertProperty []

/-- `all_properties`. -/
def PropertyList.allProperties (t : PropertyList) (id : Nat) :
    Except Err (List PItem) :=
  if t.capacity ≤ id then .ok []
  else (t.chainItems id).map buildPropertiesFromPitems

/-- Overwrite the first item with the key of `pnew`, if there is one. -/
def replaceItem (pnew : PItem) : List PItem → Option (List PItem)
  | [] => none
  | pi :: rest =>
      if pi.key = pnew.key then some (pnew :: rest)
      else (replaceItem pnew rest).map (pi :: ·)

/-- `apply_updates`: overwrite the items whose key is present and append the
others at the end, in order. -/
def applyUpdates (pitems props : List PItem) : List PItem :=
  let r := props.foldl (fun (acc : List PItem × List PItem) pnew =>
    match replaceItem pnew acc.1 with
    | some l => (l, acc.2)
    | none => (acc.1, acc.2 ++ [pnew])) (pitems, [])
  r.1 ++ r.2

end Poseidon
