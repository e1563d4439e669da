import Poseidon.Bp.PagedFile
import Poseidon.Lib.Bytes
import Poseidon.Lib.CStr
import Poseidon.Store.Basic

/-!
# The dictionary

`dict.hpp`, `dict.cpp`, `code_table.hpp` and `code_table.cpp`. A string pool
maps codes to strings, and a hash table in memory maps the hash of a string
to its code. The table is not stored: it is rebuilt by a scan of the pool
when the dictionary is opened.

Which of the two string pools is used is decided when the program is built,
so the dictionary is generic in it. `std::hash` is a parameter.
-/

namespace Poseidon

open CStr

/-!
## String pools

`string_pool.hpp` and `paged_string_pool.hpp` with their `.cpp` files. A pool
stores strings one after the other, each with a zero byte behind it, and the
position of a string is its code. The contiguous pool starts at position 1
and grows by a fixed step. The paged pool leaves the first four bytes of each
page to the next free position, which counts over all pages and is read from
the last page; a string never spans two pages.

Strings are lists of bytes, as `std::string` allows any. The buffer pool is
taken to be an exact page map. An access outside of the memory of a pool or
of a page is an error of its own.
-/

/-- What a call of the dictionary can end in other than a value: the
exceptions of the source, a null pointer that is followed, and an access
outside of the memory it was meant for. -/
inductive DictErr where
  | indexOutOfRange
  | outOfRange
  | nullPointer
  | outOfBounds
  deriving DecidableEq, Repr

/-- `string_pool`. -/
structure StringPool where
  pool : Nat → UInt8
  size : Nat
  expand : Nat
  last : Nat

namespace StringPool

/-- `string_pool::string_pool`; the first byte is a `#`. -/
def new (initSize expSize : Nat) : StringPool :=
  { pool := fun i => if i = 0 then 35 else 0, size := initSize, expand := expSize, last := 1 }

/-- `scan`: a string ends at each zero byte. -/
def scanFrom (p : StringPool) : Nat → Nat → Nat → List (List UInt8 × Nat)
  | 0, _, _ => []
  | k + 1, i, pos =>
      if p.pool i = 0 then
        ((cstr p.pool p.size pos).getD [], pos) :: scanFrom p k (i + 1) (i + 1)
      else scanFrom p k (i + 1) pos

def scan (p : StringPool) : List (List UInt8 × Nat) := p.scanFrom (p.last - 1) 1 1

/-- `extract`: the string at a position. -/
def extract (p : StringPool) (pos : Nat) : Except DictErr (List UInt8) :=
  match cstr p.pool p.size pos with
  | some s => .ok s
  | none => .error .outOfBounds

/-- The size after `add` has made room: one step more, in 32 bits, when the
string does not fit. -/
def grown (p : StringPool) (str : List UInt8) : Nat :=
  if p.size ≤ p.last + str.length + 1 then (p.size + p.expand) % 2 ^ 32 else p.size

/-- `add`. -/
def add (str : List UInt8) : EStateM DictErr StringPool Nat := do
  let p ← get
  let size := p.grown str
  set { p with size := size }
  if size < p.last + str.length + 1 then throw .outOfBounds
  set { p with
    pool := put p.pool p.last (str ++ [0])
    size := size
    last := p.last + str.length + 1 }
  pure p.last

end StringPool

/-- The bytes of a page, by offset. -/
abbrev PageBytes := Nat → UInt8

/-- `paged_string_pool`. -/
structure PagedStringPool where
  file : PagedFile PageBytes
  npages : Nat

namespace PagedStringPool

/-- `PF_PAGE_SIZE`. -/
def pfPageSize : Nat := 1048576

abbrev M := EStateM DictErr PagedStringPool

def fileErr : BpErr → DictErr
  | .indexOutOfRange => .indexOutOfRange
  | .outOfRange => .outOfRange
  | _ => .nullPointer

/-- A call on the file. -/
def onFile {β : Type} (x : PagedFile.M PageBytes β) : M β := fun p =>
  match x p.file with
  | .ok b f => .ok b { p with file := f }
  | .error e f => .error (fileErr e) { p with file := f }

/-- An empty file. -/
def newFile : PagedFile PageBytes := ⟨0, fun _ => false, fun _ _ => 0, PagedFile.noSlots⟩

/-- `paged_string_pool::paged_string_pool` over a file that is open; a file
without pages gets its first one. -/
def ofFile (f : PagedFile PageBytes) : Except DictErr PagedStringPool :=
  if f.npages = 0 then
    match PagedFile.allocatePage (fun _ => 0) f with
    | .ok _ f' => .ok ⟨f', 1⟩
    | .error e _ => .error (fileErr e)
  else .ok ⟨f, f.npages⟩

/-- The loop of `scan` over the bytes of a page from `i` on, of which `k` are
left. The string that starts at `lastp` is reported at the next zero byte,
unless it is empty; its code counts from `base`. -/
def scanFrom (data : PageBytes) (base : Nat) : Nat → Nat → Nat → List (List UInt8 × Nat)
  | 0, _, _ => []
  | k + 1, i, lastp =>
      if data i = 0 ∧ data lastp ≠ 0 then
        ((cstr data pfPageSize lastp).getD [], (base + lastp) % 2 ^ 32) ::
          scanFrom data base k (i + 1) (i + 1)
      else scanFrom data base k (i + 1) lastp

/-- `scan` of the page that is number `npage` among those in use. -/
def scanPage (data : PageBytes) (npage : Nat) : List (List UInt8 × Nat) :=
  scanFrom data (npage * pfPageSize % 2 ^ 32) (pfPageSize - 4) 4 4

/-- `scan`: the pages in use, in the order of the file. -/
def scan (p : PagedStringPool) : List (List UInt8 × Nat) :=
  (((List.range p.file.npages).filter p.file.slots).zipIdx).flatMap fun (i, npage) =>
    scanPage (p.file.pages i) npage

/-- `extract`: the string at a position, which counts over all pages. -/
def extract (p : PagedStringPool) (pos : Nat) : Except DictErr (List UInt8) :=
  match PagedFile.readPage (pos / pfPageSize + 1) p.file with
  | .error e _ => .error (fileErr e)
  | .ok pg _ =>
      match cstr pg pfPageSize (pos % pfPageSize) with
      | some s => .ok s
      | none => .error .outOfBounds

/-- The next free position, from the first bytes of the last page. -/
def lastPos (pg : PageBytes) : Nat :=
  let pos := ofLeBytes [pg 0, pg 1, pg 2, pg 3]
  if pos = 0 then 4 else pos

/-- `page_pos`, in 64 bits. -/
def pagePos (npages last : Nat) : Nat :=
  (last + 2 ^ 64 - (npages - 1) * pfPageSize % 2 ^ 64) % 2 ^ 64

/-- The end of `add`: the string goes to `pagePos` of page `pid`, and the next
free position to the front of that page. -/
def writeString (pid : Nat) (pg : PageBytes) (last pagePos : Nat) (str : List UInt8) : M Nat := do
  if pfPageSize < pagePos + str.length + 1 then throw .outOfBounds
  let pg := put pg pagePos (str ++ [0])
  let pg := put pg 0 (leBytes 4 (last + str.length + 1))
  modify fun p => { p with file := p.file.writeAt (pid - 1) pg }
  pure last

/-- `add`. -/
def add (str : List UInt8) : M Nat := do
  let pid ← onFile (PagedFile.lastValidPage fun _ => 0)
  let pg ← onFile (PagedFile.readPage pid)
  let p ← get
  let last := lastPos pg
  let pos := pagePos p.npages last
  if pfPageSize ≤ (pos + str.length + 1) % 2 ^ 64 then
    let pid ← onFile (PagedFile.allocatePage fun _ => 0)
    let pg ← onFile (PagedFile.readPage pid)
    modify fun p => { p with npages := p.npages + 1 }
    let p ← get
    writeString pid pg (((p.npages - 1) * pfPageSize + 4) % 2 ^ 32) 4 str
  else writeString pid pg last pos str

end PagedStringPool

/-- What the dictionary and its table use of a string pool. `reopen` closes
the pool and opens it again. -/
class StringStore (P : Type) where
  add : List UInt8 → EStateM DictErr P Nat
  extract : P → Nat → Except DictErr (List UInt8)
  scan : P → List (List UInt8 × Nat)
  reopen : P → Except DictErr P

/-- The contiguous pool is an object in persistent memory, which is found
again as it is. -/
instance : StringStore StringPool where
  add := StringPool.add
  extract := StringPool.extract
  scan := StringPool.scan
  reopen := .ok

instance : StringStore PagedStringPool where
  add := PagedStringPool.add
  extract := PagedStringPool.extract
  scan := PagedStringPool.scan
  reopen p := PagedStringPool.ofFile p.file

/-- `code_table::map_`. -/
abbrev CodeTable := UInt64 → Option Nat

variable (hash : List UInt8 → UInt64)

namespace CodeTable

/-- `find`. -/
def find (t : CodeTable) (s : List UInt8) : Nat := (t (hash s)).getD UNKNOWN_CODE

/-- `insert`; `emplace` leaves an entry that is there. -/
def insert (t : CodeTable) (s : List UInt8) (id : Nat) : CodeTable := fun h =>
  if h = hash s ∧ t h = none then some id else t h

/-- `rebuild`, of a new table. -/
def rebuild (entries : List (List UInt8 × Nat)) : CodeTable :=
  entries.foldl (fun t e => insert hash t e.1 e.2) fun _ => none

end CodeTable

/-- `dict`. -/
structure StringDict (P : Type) where
  pool : P
  table : CodeTable

namespace StringDict

variable {P : Type} [StringStore P]

/-- `initialize`: the table is rebuilt from the pool. -/
def initialise (pool : P) : StringDict P := ⟨pool, CodeTable.rebuild hash (StringStore.scan pool)⟩

/-- `insert`. -/
def insert (s : List UInt8) : EStateM DictErr (StringDict P) Nat := fun d =>
  let pos := d.table.find hash s
  if pos ≠ UNKNOWN_CODE then .ok pos d
  else
    match StringStore.add s d.pool with
    | .ok id pool => .ok id ⟨pool, d.table.insert hash s id⟩
    | .error e pool => .error e { d with pool := pool }

/-- `lookup_string`; 0 stands for a string that is not there. -/
def lookupString (d : StringDict P) (s : List UInt8) : Nat :=
  let k := d.table.find hash s
  if k ≠ UNKNOWN_CODE then k else 0

/-- `lookup_code`. -/
def lookupCode (d : StringDict P) (code : Nat) : Except DictErr (List UInt8) :=
  StringStore.extract d.pool code

/-- The dictionary is closed and opened again. -/
def reopen (d : StringDict P) : Except DictErr (StringDict P) :=
  (StringStore.reopen d.pool).map (initialise hash)

/-- The strings are inserted one after the other; the codes are those that
are returned. -/
def insertAll : List (List UInt8) → EStateM DictErr (StringDict P) (List Nat)
  | [] => pure []
  | s :: ss => do
      let c ← insert hash s
      let cs ← insertAll ss
      pure (c :: cs)

/-- The dictionary after an insert that succeeds. -/
def next (d : StringDict P) (s : List UInt8) : StringDict P :=
  match insert hash s d with
  | .ok _ d' => d'
  | .error _ d' => d'

end StringDict

end Poseidon
