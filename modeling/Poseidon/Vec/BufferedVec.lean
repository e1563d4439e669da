import Poseidon.Bp.PagedFile
import Poseidon.Vec.Chunk

/-!
# The record vector over a file

`buffered_vec.hpp`. The vector is a paged file with a chunk of `n` records in
each page; pages are numbered from 1, chunks from 0. Free space is tracked by
a counter and by a bitset of the pages that are not full; both are kept in
the header of the file while the vector is closed.

The buffer pool is taken to be an exact page map: a page that is fetched is
the page of the file, and a change that is made in place is a change of the
file. Of the steps of the source, `set` of a chunk comes before the tests of
`is_used` and `is_full` in `store_at` and in `erase`, and the offset of the
record is computed from the number of pages in `append` and in `store`.
-/

namespace Poseidon

variable {α : Type} [Inhabited α]

structure BufVec (α : Type) where
  file : PagedFile (Chunk α)
  available : Nat
  freelist : Nat → Bool
  capacity : Nat

/-- The calls of the vector; `reopen` closes the file after a flush and opens
it again. -/
inductive BufOp (α : Type) where
  | vec (op : VecOp α)
  | clear
  | reopen

namespace BufVec

abbrev M (α : Type) := EStateM VecErr (BufVec α)

variable (n : Nat)

/-- A new vector over an empty file. -/
def empty : BufVec α :=
  ⟨⟨0, fun _ => false, fun _ => Chunk.empty, PagedFile.noSlots⟩, 0, fun _ => false, 0⟩

def fileErr : BpErr → VecErr
  | .indexOutOfRange => .indexOutOfRange
  | .outOfRange => .outOfRange
  | _ => .nullPointer

/-- A call on the file. -/
def onFile {β : Type} (x : PagedFile.M (Chunk α) β) : M α β := fun v =>
  match x v.file with
  | .ok b f => .ok b { v with file := f }
  | .error e f => .error (fileErr e) { v with file := f }

/-- A change of a page in place. -/
def putChunk (pid : Nat) (ch : Chunk α) : M α PUnit :=
  modify fun v => { v with file := v.file.writeAt (pid - 1) ch }

/-- `freelist_.set`. -/
def setFree (i : Nat) (b : Bool) : M α PUnit := do
  if i < maxPages then
    modify fun v => { v with freelist := fun j => if j = i then b else v.freelist j }
  else throw .outOfRange

/-- `remove_from_free_list`. -/
def removeFromFreeList (idx : Nat) : M α PUnit := setFree (idx / n) false

/-- `add_to_free_list`. -/
def addToFreeList (idx : Nat) : M α PUnit := setFree (idx / n) true

/-- `find_in_free_list`: the lowest page with its bit set, or 0. -/
def findInFreeList (v : BufVec α) : Nat :=
  match (List.range' 0 maxPages).find? v.freelist with
  | some i => i + 1
  | none => 0

/-- `find_chunk`: the page of an index, by number, and its chunk. -/
def findChunk (idx : Nat) : M α (Nat × Chunk α) := do
  let ch ← onFile (PagedFile.readPage (idx / n + 1))
  pure (idx / n + 1, ch)

/-- `load_chunk`; the chunk is followed at once in the release build. -/
def loadChunk (pid : Nat) : M α (Nat × Chunk α) := do
  let v ← get
  if v.file.isValid pid then
    let ch ← onFile (PagedFile.readPage pid)
    pure (pid, ch)
  else throw .nullPointer

/-- `get_last_chunk`. -/
def getLastChunk : M α (Nat × Chunk α) := do
  let pid ← onFile (PagedFile.lastValidPage Chunk.empty)
  let ch ← onFile (PagedFile.readPage pid)
  pure (pid, ch)

/-- One round of the loop of `resize`. -/
def addPage : M α PUnit := do
  let pid ← onFile (PagedFile.allocatePage Chunk.empty)
  putChunk pid Chunk.empty
  addToFreeList n (pid * n - 1)
  modify fun v =>
    { v with capacity := add64 v.capacity n, available := add64 v.available n }

/-- The loop of `resize`. -/
def addPages : Nat → M α PUnit
  | 0 => pure ⟨⟩
  | k + 1 => do
      addPage n
      addPages k

/-- `resize`. -/
def resize (nchunks : Int) : M α PUnit := addPages n nchunks.toNat

/-- `clear`. -/
def clear (v : BufVec α) : BufVec α :=
  { file := v.file.truncate, available := 0, freelist := fun _ => false, capacity := 0 }

/-- The file is closed and opened again: the counter and the bitset go
through the header, the capacity is that of the file. -/
def reopen (v : BufVec α) : BufVec α :=
  { v with capacity := v.file.npages * n }

/-- `at`. -/
def at_ (idx : Nat) : M α α := do
  let (_, ch) ← findChunk n idx
  if ch.slots (idx % n) then pure (ch.data (idx % n)) else throw .unknownId

/-- `store_at`. -/
def storeAt (idx : Nat) (o : α) : M α PUnit := do
  let (pid, ch) ← findChunk n idx
  let pos := idx % n
  let ch' := (ch.put pos o).set n pos true
  putChunk pid ch'
  if ch'.slots pos = false then modify fun v => { v with available := decr64 v.available }
  if ch'.isFull n then removeFromFreeList n idx

/-- The common end of `append` and `store`: the record goes to the first free
slot of the chunk in page `pid`. A full chunk has the position `SIZE_MAX`,
which its bitset refuses. -/
def storeIn (pid : Nat) (ch : Chunk α) (o : α) : M α Nat := do
  let v ← get
  let offs := (v.file.npages - 1) * n
  set { v with available := decr64 v.available }
  match ch.firstAvailable n with
  | none => throw .outOfRange
  | some pos =>
      let ch' := (ch.put pos o).set n pos true
      putChunk pid ch'
      if ch'.isFull n then removeFromFreeList n offs
      pure (offs + pos)

/-- The chunk that `append` uses, and `store` when it grows the vector: the
last one, or a new one when that is full. -/
def tailChunk : M α (Nat × Chunk α) := do
  let (pid, ch) ← getLastChunk
  if ch.isFull n then
    resize n 1
    getLastChunk
  else pure (pid, ch)

/-- `append`. -/
def append (o : α) : M α Nat := do
  let v ← get
  if v.available = 0 then resize n 1
  let (pid, ch) ← tailChunk n
  storeIn n pid ch o

/-- `store`. -/
def store (o : α) : M α Nat := do
  let v ← get
  if v.available = 0 then
    resize n 1
    let (pid, ch) ← tailChunk n
    storeIn n pid ch o
  else
    let (pid, ch) ← loadChunk v.findInFreeList
    storeIn n pid ch o

/-- `erase`. -/
def erase (idx : Nat) : M α PUnit := do
  let (pid, ch) ← findChunk n idx
  let pos := idx % n
  let ch' := ch.set n pos false
  putChunk pid ch'
  if ch'.slots pos then modify fun v => { v with available := add64 v.available 1 }
  if ch'.isFull n then addToFreeList n idx

/-- One call; `append` and `store` return an index. -/
def call : BufOp α → M α (Option Nat)
  | .vec (.append o) => some <$> append n o
  | .vec (.store o) => some <$> store n o
  | .vec (.storeAt idx o) => (fun _ => none) <$> storeAt n idx o
  | .vec (.erase idx) => (fun _ => none) <$> erase n idx
  | .vec (.resize k) => (fun _ => none) <$> resize n k
  | .clear => do
      modify clear
      pure none
  | .reopen => do
      modify (reopen n)
      pure none

/-- The vector after a call, also when the call throws. -/
def next (v : BufVec α) (op : BufOp α) : BufVec α :=
  match call n op v with
  | .ok _ v' => v'
  | .error _ v' => v'

end BufVec

end Poseidon
