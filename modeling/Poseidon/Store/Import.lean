import Poseidon.Lib.Numerals
import Poseidon.Store.GraphDb
import Poseidon.Store.PropertyLoad

/-!
# Loading relationships from a file

`import_typed_relationships_from_csv`. The first two columns of a row refer to
the nodes, the others are properties. The loader writes into the tables of the
store, without a transaction. It is run without a mutex here; the rows come
from a parser of CSV files.

Names, types and values of the properties are in three vectors. The names are
those of the header; types and values are set while the first row is loaded,
and are used for all rows.
-/

namespace Poseidon

open Numeral RegularExpression

/-!
## Properties from text

How a string becomes a property. When no types are given, it goes to the
constructor of `p_item` for `std::any`, which looks for a type itself. A load
with types asks `get_datatype` once and then converts with this type, and
`infer_datatype` does both at once. The characters of a `std::string` are
bytes.
-/

/-! ## The expressions of `properties.cpp` -/

/-- `[0-9]`. -/
def digitExpr : RegularExpression Char := oneOf digitChars

/-- `.`, every byte that does not end a line. -/
def anyExpr : RegularExpression Char :=
  oneOf (((List.range 256).filter fun n => n ≠ 10 ∧ n ≠ 13).map Char.ofNat)

def floatExpr : RegularExpression Char :=
  optional (char '-') * oneOrMore digitExpr * char '.' * oneOrMore digitExpr

def intExpr : RegularExpression Char :=
  optional (char '-') * oneOf ['1', '2', '3', '4', '5', '6', '7', '8', '9'] * star digitExpr +
    char '0'

def yearExpr : RegularExpression Char :=
  literal ['1', '9'] * oneOf ['7', '8', '9'] * digitExpr + literal ['2', '0'] * digitExpr ^ 2

def monthExpr : RegularExpression Char :=
  char '0' * oneOf ['1', '2', '3', '4', '5', '6', '7', '8', '9'] + char '1' * oneOf ['0', '1', '2']

def dayExpr : RegularExpression Char :=
  char '0' * oneOf ['1', '2', '3', '4', '5', '6', '7', '8', '9'] + oneOf ['1', '2'] * digitExpr +
    char '3' * oneOf ['0', '1']

def dateExpr : RegularExpression Char :=
  yearExpr * char '-' * monthExpr * char '-' * dayExpr

def dtimeExpr : RegularExpression Char :=
  dateExpr * char 'T' * (oneOf ['0', '1'] * digitExpr + char '2' * oneOf ['0', '1', '2', '3']) *
    char ':' * (oneOf ['0', '1', '2', '3', '4', '5'] * digitExpr) * char ':' *
    (oneOf ['0', '1', '2', '3', '4', '5'] * digitExpr) * anyExpr * digitExpr ^ 3 * char '+' *
    (digitExpr ^ 4 + digitExpr ^ 2 * char ':' * digitExpr ^ 2)

/-- `is_quoted_string`. -/
def isQuotedString (s : String) : Bool :=
  (s.toList.head? = some '"' && s.toList.getLast? = some '"') ||
    (s.toList.head? = some '\'' && s.toList.getLast? = some '\'')

/-- `is_float`. -/
def isFloat (s : String) : Bool := floatExpr.rmatch s.toList

/-- `is_int`. -/
def isInt (s : String) : Bool := intExpr.rmatch s.toList

/-- `is_uint64`: an integer that `stoi` refuses and `stoull` takes. -/
def isUint64 (s : String) : Bool :=
  if ¬isInt s then false
  else match stoi s.toList with
    | .error .outOfRange => (stoull s.toList).isOk
    | _ => false

/-- `is_date`. -/
def isDate (s : String) : Bool := dateExpr.rmatch s.toList

/-- `is_dtime`. -/
def isDtime (s : String) : Bool := dtimeExpr.rmatch s.toList

/-! ## The conversions -/

/-- What the conversions call: the code of a string in the dictionary, and
the eight bytes of a `double` and of a point in time, if there is one. -/
structure Conversions where
  insert : String → Nat
  stod : String → Except StdError Nat
  fromSimpleString : String → Except StdError Nat
  timeFromString : String → Except StdError Nat

/-- The first `T` becomes a blank, and the time zone is cut off. -/
def timeText (s : String) : String :=
  String.ofList ((s.toList.takeWhile (· ≠ 'T') ++ ' ' ::
  (s.toList.dropWhile (· ≠ 'T')).tail).takeWhile
    (· ≠ '+'))

/-- The bytes of an `int`. -/
def intBytes (v : Int) : Nat := (v % 2 ^ 32).toNat

/-- `p_item::get<int>` and `p_item::get<uint64_t>`. -/
def PItem.number (p : PItem) : Option Int :=
  match p.typecode with
  | .int => some (Int.bmod p.value (2 ^ 32))
  | .uint64 => some p.value
  | _ => none

section

variable (c : Conversions)

/-- The conversion in the constructor of `p_item` for a type and a string. -/
def Conversions.convert : ColumnType → String → Except StdError Nat
  | .int, s => (stoi s.toList).map intBytes
  | .double, s => c.stod s
  | .dcode, s => .ok (c.insert s)
  | .uint64, s => stoull s.toList
  | .ptime, s => c.timeFromString (timeText s)
  | .date, s => c.fromSimpleString s

/-- `p_item(dcode_t, const std::any &, dict_ptr &)` with a string. -/
def PItem.ofText (k : Nat) (s : String) : Except StdError PItem :=
  if isQuotedString s then .ok ⟨k, .dcode, c.insert s⟩
  else if isInt s then (stoi s.toList).map (⟨k, .int, intBytes ·⟩)
  else if isFloat s then (c.stod s).map (⟨k, .double, ·⟩)
  else if isDate s then (c.fromSimpleString s).map (⟨k, .ptime, ·⟩)
  else if isDtime s then (c.timeFromString (timeText s)).map (⟨k, .ptime, ·⟩)
  else .ok ⟨k, .dcode, c.insert s⟩

/-- `infer_datatype`. A number that `stoull` refuses is the `int` 0. -/
def inferDatatype (s : String) : Except StdError (ColumnType × AnyValue) :=
  if isQuotedString s then .ok (.dcode, .dcode (c.insert s))
  else if isInt s then
    match stoi s.toList with
    | .ok v => .ok (.int, .int (intBytes v))
    | .error .outOfRange =>
        match stoull s.toList with
        | .ok v => .ok (.uint64, .uint64 v)
        | .error _ => .ok (.int, .int (intBytes 0))
    | .error e => .error e
  else if isFloat s then (c.stod s).map fun v => (.double, .double v)
  else if isDate s then (c.fromSimpleString s).map fun v => (.date, .ptime v)
  else if isDtime s then (c.timeFromString (timeText s)).map fun v => (.ptime, .ptime v)
  else .ok (.dcode, .dcode (c.insert s))

/-- `get_datatype`. -/
def getDatatype (s : String) : ColumnType :=
  if isQuotedString s then .dcode
  else if isUint64 s then .uint64
  else if isInt s then .int
  else if isFloat s then .double
  else if isDate s then .date
  else if isDtime s then .ptime
  else .dcode

end

/-- The tables that a load writes to. -/
structure ImportDb where
  nodes : Nat → Option NodeData
  rships : Nat → Option RshipData
  properties : PropertyList

/-- The exceptions of a load. -/
inductive ImportErr where
  | store (e : Err)
  | conversion (e : StdError)
  deriving DecidableEq, Repr

namespace ImportDb

def setNode (id : Nat) (n : NodeData) (db : ImportDb) : ImportDb :=
  { db with nodes := Function.update db.nodes id (some n) }

def setRship (id : Nat) (r : RshipData) (db : ImportDb) : ImportDb :=
  { db with rships := Function.update db.rships id (some r) }

end ImportDb

abbrev ImportM := EStateM ImportErr ImportDb

/-- `nodes_->get`. -/
def getNode (id : Nat) : ImportM NodeData := do
  match (← get).nodes id with
  | some n => pure n
  | none => throw (.store .unknownId)

/-- `rships_->append`; the slot is the one that the record vector hands out. -/
def appendRship (slot label fromId toId : Nat) : ImportM RshipData := do
  let db ← get
  if (db.rships slot).isSome ∨ slot = UNKNOWN then throw (.store .slotInUse)
  else
    let r : RshipData := ⟨slot, fromId, toId, UNKNOWN, UNKNOWN, UNKNOWN, label⟩
    set (db.setRship slot r)
    pure r

/-- `append_typed_properties` in the table of the database. -/
def saveProperties (c : Conversions) (id : Nat) (columns : List (Column String)) : ImportM Nat := do
  let db ← get
  match PropertyList.appendTypedStrings c.convert id columns db.properties with
  | .ok pid t =>
      set { db with properties := t }
      pure pid
  | .error e t =>
      set { db with properties := t }
      throw (.conversion e)

/-- The end of `import_typed_relationship`: update the list of relationships
for each of both nodes. -/
def linkRship (slot fromId toId : Nat) (r : RshipData) : ImportM Unit := do
  let fromNode ← getNode fromId
  let r := if fromNode.fromRshipList = UNKNOWN then r
    else { r with nextSrcRship := fromNode.fromRshipList }
  modify (ImportDb.setNode fromId { fromNode with fromRshipList := slot })
  let toNode ← getNode toId
  let r := if toNode.toRshipList = UNKNOWN then r
    else { r with nextDestRship := toNode.toRshipList }
  modify (ImportDb.setNode toId { toNode with toRshipList := slot })
  modify (ImportDb.setRship slot r)

/-- `import_typed_relationship`. -/
def importTypedRelationship (c : Conversions) (slot fromId toId label : Nat)
    (columns : List (Column String)) : ImportM Nat := do
  let _ ← getNode fromId
  let _ ← getNode toId
  let r ← appendRship slot label fromId toId
  -- save properties
  let pid ← (if columns.isEmpty then pure UNKNOWN else saveProperties c slot columns)
  linkRship slot fromId toId { r with propertyList := pid }
  pure slot

/-! ## The rows -/

/-- An element of `prop_types` with that of `prop_values`. The type beside an
empty value is not looked at. -/
abbrev TypedField := ColumnType × String

/-- The loop over the fields of the first row: the fields that are not empty
are put into the cells from the first one on. A row has no more fields than
there are columns. -/
def fillCells : List String → List TypedField → List TypedField
  | [], cells => cells
  | _ :: _, [] => []
  | field :: fields, cell :: cells =>
      if field.isEmpty then fillCells fields (cell :: cells)
      else (getDatatype field, field) :: fillCells fields cells

/-- The vectors at one index. -/
def columnsOf (names : List Nat) (cells : List TypedField) : List (Column String) :=
  List.zipWith (fun k cell => ⟨k, cell.1, cell.2⟩) names cells

/-- A row of the file, with the slot for its relationship. -/
structure CsvRow where
  slot : Nat
  row : List String

/-- The fields behind the nodes. -/
def CsvRow.fields (r : CsvRow) : List String := r.row.drop 2

/-- The variables of the loop. -/
structure CsvState where
  db : ImportDb
  num : Nat
  cells : List TypedField

variable (c : Conversions) (connected : List String → Nat × Nat) (label : Nat) (names : List Nat)

/-- One turn of the loop, behind the header. `connected` gives the ids of the
nodes, `get_connected_node_ids`. A row that cannot be loaded is passed over. -/
def importRow (st : CsvState) (r : CsvRow) : CsvState :=
  let cells := if st.num = 1 then fillCells r.fields st.cells else st.cells
  match importTypedRelationship c r.slot (connected r.row).1 (connected r.row).2 label
      (columnsOf names cells) st.db with
  | .ok _ db => ⟨db, st.num + 1, cells⟩
  | .error _ db => ⟨db, st.num, cells⟩

/-- `get_rship_node`: what is before and behind the first `_` or `.`. -/
def getRshipNode (column : String) : String × String :=
  let label := column.toList.takeWhile fun ch => ch ≠ '_' ∧ ch ≠ '.'
  (String.ofList label, String.ofList (column.toList.drop (label.length + 1)))

/-- `import_typed_relationships_from_csv`: the number of relationships and the
database. `connected` takes the label and the property of the source and of
the destination. -/
def importTypedRelationshipsFromCsv
    (connected : String × String → String × String → List String → Nat × Nat)
    (header : List String) (rows : List CsvRow) (db : ImportDb) : Nat × ImportDb :=
  match header with
  | source :: dest :: columns =>
      if (getRshipNode source).2.isEmpty ∨ (getRshipNode dest).2.isEmpty then (0, db)
      else
        let names := columns.map c.insert
        let cells := List.replicate columns.length (.dcode, "")
        let st := rows.foldl
          (importRow c (connected (getRshipNode source) (getRshipNode dest)) label names)
          ⟨db, 1, cells⟩
        (st.num - 1, st.db)
  | _ => (0, db)

end Poseidon
