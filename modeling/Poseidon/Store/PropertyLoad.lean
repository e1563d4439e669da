import Poseidon.Store.Properties

/-!
# Properties in place and in bulk

The operations of `properties.hpp` that do not go through a list of
`p_item`s. `update_properties` overwrites the items of a chain where they are
and appends sets for the keys that it does not find. `append_typed_properties`
loads the columns of a row, in two overloads: the values are of type
`std::any`, or they are strings that are converted.

Sets are appended here: the vector uses the first free slot of its last chunk,
or a new chunk.
-/

namespace Poseidon

namespace PropertyList

/-- `properties_.append`. -/
def append (t : PropertyList) (p : PropertySet) : Nat × PropertyList :=
  let id := t.firstFree (min setsPerChunk t.capacity) (t.capacity - setsPerChunk)
  let cap := if id < t.capacity then t.capacity else t.capacity + setsPerChunk
  (id, { sets := fun i => if i = id then some p else t.sets i, capacity := cap })

/-! ## Updating in place -/

/-- The items of one set: those with a key in the list are overwritten and
taken off the list. -/
def updateItems : List PItem → List PItem → List PItem × List PItem
  | todo, [] => (todo, [])
  | todo, item :: items =>
      match todo.find? fun p => p.key == item.key with
      | some p =>
          let r := updateItems (todo.eraseP fun p => p.key == item.key) items
          (r.1, p :: r.2)
      | none =>
          let r := updateItems todo items
          (r.1, item :: r.2)

/-- The loop of `update_properties` along the chain; it returns the
properties that were not found. There is no slot `UNKNOWN`. -/
def updateLoop : Nat → List PItem → Nat → EStateM Err PropertyList (List PItem)
  | 0, _, _ => throw .diverges
  | fuel + 1, todo, id =>
      if todo = [] then pure []
      else if id = UNKNOWN then throw .indexOutOfRange
      else do
        let t ← get
        match t.atId id with
        | .error e => throw e
        | .ok pset =>
            let r := updateItems todo pset.items
            set (t.put id { pset with items := r.2 })
            if r.1 = [] then pure []
            else if pset.next = UNKNOWN then pure r.1
            else updateLoop fuel r.1 pset.next

/-- What is in the memory of an item list that has not been filled. -/
def rawItems (raw : Nat → PItem) (items : List PItem) : List PItem :=
  items ++ (List.range' items.length (3 - items.length)).map raw

/-- The loop that appends the properties that were not found. The item list is
filled after the first set only. -/
def appendGroups (nid : Nat) : (List PItem → List PItem) → List (List PItem) → Nat →
    PropertyList → Nat × PropertyList
  | _, [], nextId, t => (nextId, t)
  | fill, g :: gs, nextId, t =>
      let st := t.append ⟨nextId, nid, fill g⟩
      appendGroups nid fillItems gs st.1 st.2

/-- `update_properties`. -/
def updateProperties (raw : Nat → PItem) (nid id : Nat) (props : List PItem) :
    EStateM Err PropertyList Nat := do
  let t ← get
  let rest ← updateLoop (t.capacity + 1) props id
  let t ← get
  let r := appendGroups nid (rawItems raw) (triples rest) id t
  set r.2
  pure r.1

end PropertyList

/-! ## Loading a row -/

/-- The type of a column, an element of the type list. The typecode `p_unused`
has the same bits as `p_date`. -/
inductive ColumnType where
  | int
  | double
  | dcode
  | uint64
  | ptime
  | date
  deriving DecidableEq, Repr

/-- A column of a row: the elements of the three vectors at one index. -/
structure Column (β : Type) where
  key : Nat
  type : ColumnType
  value : β

/-- A value in a `std::any`, by its eight bytes, or of a type that no column
has. -/
inductive AnyValue where
  | int (v : Nat)
  | double (v : Nat)
  | dcode (v : Nat)
  | uint64 (v : Nat)
  | ptime (v : Nat)
  | other
  deriving DecidableEq, Repr

/-- `std::bad_any_cast`. -/
inductive BadAnyCast where
  | mk
  deriving DecidableEq, Repr

/-- `p_item(dcode_t, p_typecode, const std::any &)`. -/
def PItem.ofAny (k : Nat) : ColumnType → AnyValue → Except BadAnyCast PItem
  | .int, .int v => .ok ⟨k, .int, v⟩
  | .double, .double v => .ok ⟨k, .double, v⟩
  | .dcode, .dcode v => .ok ⟨k, .dcode, v⟩
  | .uint64, .uint64 v => .ok ⟨k, .uint64, v⟩
  | .ptime, .ptime v => .ok ⟨k, .ptime, v⟩
  | .date, .ptime v => .ok ⟨k, .ptime, v⟩
  | _, _ => .error .mk

/-- The typecode of the values in a column. -/
def ColumnType.typecode : ColumnType → Typecode
  | .int => .int
  | .double => .double
  | .dcode => .dcode
  | .uint64 => .uint64
  | .ptime => .ptime
  | .date => .ptime

/-- `p_item(dcode_t, p_typecode, const std::string &, dict_ptr &)`; `conv` is
the conversion of a string, and may throw. -/
def PItem.ofString {ε : Type} (conv : ColumnType → String → Except ε Nat) (k : Nat)
    (tc : ColumnType) (v : String) : Except ε PItem :=
  (conv tc v).map (⟨k, tc.typecode, ·⟩)

namespace PropertyList

variable {β ε : Type}

/-- The loop of `append_typed_properties` over the columns from `i` on. A set
is appended when it is full, or with the last column; `item` gives the item of
a column, and nothing for an empty one. -/
def appendTypedLoop (item : Column β → Option (Except ε PItem)) (nid size : Nat) :
    List (Column β) → Nat → List PItem → Nat → EStateM ε PropertyList Nat
  | [], _, _, nextId => pure nextId
  | c :: cs, i, pil, nextId =>
      match item c with
      | none => appendTypedLoop item nid size cs (i + 1) pil nextId
      | some (.error e) => throw e
      | some (.ok p) => do
          if i + 1 = size ∨ pil.length + 1 = 3 then
            let t ← get
            let st := t.append ⟨nextId, nid, fillItems (pil ++ [p])⟩
            set st.2
            appendTypedLoop item nid size cs (i + 1) [] st.1
          else appendTypedLoop item nid size cs (i + 1) (pil ++ [p]) nextId

/-- The item of a column of type `std::any`. -/
def anyItem (c : Column (Option AnyValue)) : Option (Except BadAnyCast PItem) :=
  c.value.map (PItem.ofAny c.key c.type)

/-- The item of a column of strings. -/
def stringItem (conv : ColumnType → String → Except ε Nat) (c : Column String) :
    Option (Except ε PItem) :=
  if c.value.isEmpty then none else some (PItem.ofString conv c.key c.type c.value)

/-- `append_typed_properties` for values of type `std::any`. -/
def appendTypedProperties (nid : Nat) (columns : List (Column (Option AnyValue))) :
    EStateM BadAnyCast PropertyList Nat :=
  appendTypedLoop anyItem nid columns.length columns 0 [] UNKNOWN

/-- `append_typed_properties` for strings. -/
def appendTypedStrings (conv : ColumnType → String → Except ε Nat) (nid : Nat)
    (columns : List (Column String)) : EStateM ε PropertyList Nat :=
  appendTypedLoop (stringItem conv) nid columns.length columns 0 [] UNKNOWN

end PropertyList

end Poseidon
