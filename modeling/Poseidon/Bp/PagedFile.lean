import Mathlib.Algebra.Group.Nat.Defs
import Mathlib.Data.List.Basic

/-!
# Paged files

`paged_file.hpp` and `paged_file.cpp`: a file that is organised in pages,
with a bitset in its header that says which of them are in use. Pages are
numbered from 1.

The model follows the release build, where assertions are compiled away. A
call that fails leaves the file as it is at that point.
-/

namespace Poseidon

/-- What a call of the buffer pool can end in: the exceptions of the source,
a null or dangling pointer that is followed, or a loop that does not end. -/
inductive BpErr where
  | bufferpoolOverrun
  | indexOutOfRange
  | outOfRange
  | nullPointer
  | danglingPointer
  | diverges
  deriving DecidableEq, Repr

/-- The error is an exception, not undefined behaviour. -/
def BpErr.isException : BpErr → Bool
  | .bufferpoolOverrun => true
  | .indexOutOfRange => true
  | .outOfRange => true
  | .nullPointer => false
  | .danglingPointer => false
  | .diverges => false

/-- `file_header::slots_` has 65536 bits. -/
def maxPages : Nat := 65536

/-- `paged_file`: the pages of the file, and which of them are in use. A page
in use is there. What a page holds is left open. -/
structure PagedFile (P : Type) where
  npages : Nat
  slots : Nat → Bool
  pages : Nat → P
  used_lt : ∀ i, slots i = true → i < npages

namespace PagedFile

variable {P : Type}

theorem noSlots : ∀ i, (fun _ : Nat => false) i = true → i < 0 := fun _ h => by cases h

abbrev M (P : Type) := EStateM BpErr (PagedFile P)

/-- The page numbered `raw` is in use; pages are numbered from 1. -/
def holds (f : PagedFile P) (raw : Nat) : Bool :=
  raw ≠ 0 && decide (raw - 1 < maxPages) && f.slots (raw - 1)

/-- `find_first_slot`. -/
def findFirstSlot (f : PagedFile P) : Option Nat :=
  (List.range f.npages).find? fun i => !f.slots i

def writeAt (f : PagedFile P) (i : Nat) (pg : P) : PagedFile P :=
  { f with pages := fun j => if j = i then pg else f.pages j }

def setUsed (f : PagedFile P) (i : Nat) (h : i < f.npages) : PagedFile P :=
  { f with
    slots := fun j => j = i || f.slots j
    used_lt := by
      intro j hj
      rcases Bool.or_eq_true_iff.mp hj with hji | hj
      · rw [of_decide_eq_true hji]
        exact h
      · exact f.used_lt j hj }

def setUnused (f : PagedFile P) (i : Nat) : PagedFile P :=
  { f with
    slots := fun j => j ≠ i && f.slots j
    used_lt := by
      intro j hj
      exact f.used_lt j (Bool.and_eq_true_iff.mp hj).2 }

def grow (f : PagedFile P) : PagedFile P :=
  { f with
    npages := f.npages + 1
    used_lt := by
      intro j hj
      exact Nat.lt_succ_of_lt (f.used_lt j hj) }

/-- `allocate_page`: the first page that is not in use, or a new one at the
end, filled with zeros. The bitset refuses a page it has no bit for, when
the page is in the file already. -/
def allocatePage (zero : P) : M P Nat := do
  let f ← get
  match h : f.findFirstSlot with
  | some i =>
      let g := f.writeAt i zero
      if i < maxPages then
        set (g.setUsed i (by
          have hm := List.mem_of_find?_eq_some h
          exact List.mem_range.mp hm))
        pure (i + 1)
      else
        -- the loop of find_first_slot tests the bit
        throw .outOfRange
  | none =>
      let g := (f.writeAt f.npages zero).grow
      set g
      if f.npages < maxPages then
        set (g.setUsed f.npages (Nat.lt_succ_self _))
        pure (f.npages + 1)
      else throw .outOfRange

/-- `free_page`. -/
def freePage (raw : Nat) : M P Bool := do
  let f ← get
  if raw = 0 ∨ f.npages < raw - 1 then pure false
  else if maxPages ≤ raw - 1 then throw .outOfRange
  else if f.slots (raw - 1) then
    set (f.setUnused (raw - 1))
    pure true
  else pure false

/-- `read_page`. The message for a page that is not there tests the bit of
the page once more. -/
def readPage (raw : Nat) : M P P := do
  let f ← get
  if f.holds raw then pure (f.pages (raw - 1))
  else if raw = 0 ∨ maxPages ≤ raw - 1 then throw .outOfRange
  else throw .indexOutOfRange

/-- `write_page`. -/
def writePage (raw : Nat) (pg : P) : M P PUnit := do
  let f ← get
  if f.holds raw then set (f.writeAt (raw - 1) pg)
  else if raw = 0 ∨ f.npages < raw - 1 then throw .indexOutOfRange
  else if maxPages ≤ raw - 1 then throw .outOfRange
  else throw .indexOutOfRange

/-- `is_valid`. -/
def isValid (f : PagedFile P) (raw : Nat) : Bool :=
  raw ≠ 0 && decide (raw ≤ f.npages) && f.holds raw

/-- `last_valid_page`: the highest page in use. -/
def lastUsed (f : PagedFile P) : Option Nat :=
  (List.range f.npages).reverse.find? fun i => f.slots i

/-- `last_valid_page`; a file without pages in use gets one. The loop starts
at the last page of the file, for which there may be no bit. -/
def lastValidPage (zero : P) : M P Nat := do
  let f ← get
  if maxPages < f.npages then throw .outOfRange
  match f.lastUsed with
  | some i => pure (i + 1)
  | none => allocatePage zero

/-- `truncate`: no page is in use any more; the file keeps its length. -/
def truncate (f : PagedFile P) : PagedFile P :=
  { f with
    slots := fun _ => false
    used_lt := by
      intro i hi
      cases hi }

/-- The loop of `scan_pages` from page `i` on, with `k` pages left in the file.
The state is the page that is read into; the result are the calls of `cb`. The
loop ends with the read that runs into the end of the file, and the bit behind
the last page is tested as well. -/
def scanFrom (f : PagedFile P) : Nat → Nat → EStateM BpErr P (List (P × Nat))
  | 0, i => do
      if maxPages ≤ i then throw .outOfRange
      let pg ← get
      pure (if f.slots i then [(pg, i + 1)] else [])
  | k + 1, i => do
      set (f.pages i)
      if maxPages ≤ i then throw .outOfRange
      let calls ← f.scanFrom k (i + 1)
      pure (if f.slots i then (f.pages i, i + 1) :: calls else calls)

/-- `scan_pages`. -/
def scanPages (f : PagedFile P) : EStateM BpErr P (List (P × Nat)) := f.scanFrom f.npages 0

end PagedFile

/-- A file that is not open, as `close` left it: its type and bitset in the
header, and the pages behind the header. -/
structure StoredFile (P : Type) where
  ftype : Nat
  slots : Nat → Bool
  pages : List P
  used_lt : ∀ i, slots i = true → i < pages.length

namespace PagedFile

variable {P : Type}

/-- `close`: the header is written, the pages are in the file already. -/
def close (ftype : Nat) (f : PagedFile P) : StoredFile P where
  ftype := ftype
  slots := f.slots
  pages := (List.range f.npages).map f.pages
  used_lt := by
    intro i hi
    rw [List.length_map, List.length_range]
    exact f.used_lt i hi

/-- `open`: a file that is not there is created, and one of another type is
refused. The number of pages is that of the file. -/
def openFile [Inhabited P] (ftype : Nat) : Option (StoredFile P) → Option (PagedFile P)
  | none =>
      some
        { npages := 0
          slots := fun _ => false
          pages := fun _ => default
          used_lt := by
            intro i hi
            cases hi }
  | some d =>
      if d.ftype = ftype then
        some
          { npages := d.pages.length
            slots := d.slots
            pages := fun i => d.pages.getD i default
            used_lt := d.used_lt }
      else none

/-- `close`, and `open` for the same file again. -/
def reopen [Inhabited P] (ftype : Nat) (f : PagedFile P) : PagedFile P :=
  (openFile ftype (some (f.close ftype))).getD f

end PagedFile

/-- The calls that change a paged file. -/
inductive FileOp (P : Type) where
  | allocatePage
  | freePage (raw : Nat)
  | writePage (raw : Nat) (pg : P)
  | truncate
  | reopen

namespace PagedFile

variable {P : Type}

/-- One call on a file of type `ftype`; the result is the page id that
`allocate_page` returns. -/
def call [Inhabited P] (ftype : Nat) (zero : P) : FileOp P → M P (Option Nat)
  | .allocatePage => some <$> allocatePage zero
  | .freePage raw => (fun _ => none) <$> freePage raw
  | .writePage raw pg => (fun _ => none) <$> writePage raw pg
  | .truncate => do
      modify truncate
      pure none
  | .reopen => do
      modify (reopen ftype)
      pure none

end PagedFile

end Poseidon
