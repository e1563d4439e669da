import Mathlib.Algebra.Group.Nat.Defs
import Mathlib.Data.List.AList
import Poseidon.Bp.PagedFile
import Poseidon.Lib.DList

/-!
# The buffer pool

`bufferpool.hpp` and `bufferpool.cpp`: a cache of the pages of up to 15
files. Three structures are kept in step: the page table, which maps a page
id to the slot that holds the page, the bitset of the slots that are free,
and the LRU list.

The model follows the release build, where assertions are compiled away. A
call that fails leaves the pool as it is at that point, and the pool is used
again afterwards; only a call that follows a pointer to nothing has no state
behind it.
-/

namespace Poseidon

/-!
## The LRU list of the buffer pool

`lru_list.hpp` and `lru_list.cpp`: a doubly linked list of page ids between
two sentinels, the least recently used page behind `head_`. The buffer pool
keeps pointers to the nodes. The nodes live in a heap of cells; a pointer
that is followed to a node that was deleted gives no result.

`remove` takes a node out of the list and does not delete it. `clear`
deletes the nodes and leaves the links of the sentinels as they are.
-/

/-- `paged_file::page_id` as the buffer pool uses it: the file in the upper
4 bits, the page of the file in the lower 60. -/
structure PageId where
  file : Nat
  raw : Nat
  deriving DecidableEq, Repr

/-- `lru_list`. The sentinels are the cells 0 and 1; `fresh` is the next
address the allocator hands out. -/
structure LruList where
  nodes : Cells PageId
  fresh : Nat
  size : Nat

namespace LruList

def head : Nat := 0

def tail : Nat := 1

/-- The page id `UNKNOWN` of the sentinels. -/
def unknown : PageId := ⟨15, 2 ^ 60 - 1⟩

/-- `lru_list::lru_list`. -/
def empty : LruList :=
  { nodes := Cells.alloc (Cells.alloc (fun _ => none) head ⟨unknown, none, some tail⟩) tail
      ⟨unknown, some head, none⟩
    fresh := 2
    size := 0 }

/-- The assignments `pn->next = nn; nn->prev = pn` for the neighbours of `n`. -/
def unlink (nodes : Cells PageId) (n : Nat) : Option (Cells PageId) := do
  let c ← nodes n
  let pn ← c.prev
  let nn ← c.next
  let nodes ← nodes.store pn fun c => { c with next := some nn }
  nodes.store nn fun c => { c with prev := some pn }

/-- The assignments that put `n` in front of `tail_`. -/
def linkLast (nodes : Cells PageId) (n : Nat) : Option (Cells PageId) := do
  let t ← nodes tail
  let tp ← t.prev
  let nodes ← nodes.store n fun c => { c with prev := some tp, next := some tail }
  let nodes ← nodes.store tp fun c => { c with next := some n }
  nodes.store tail fun c => { c with prev := some n }

def addToMru (l : LruList) (pid : PageId) : Option (Nat × LruList) := do
  let nodes ← linkLast (l.nodes.alloc l.fresh ⟨pid, none, none⟩) l.fresh
  some (l.fresh, { nodes := nodes, fresh := l.fresh + 1, size := l.size + 1 })

def moveToMru (l : LruList) (n : Nat) : Option LruList := do
  let nodes ← unlink l.nodes n
  let nodes ← linkLast nodes n
  some { l with nodes := nodes }

def remove (l : LruList) (n : Nat) : Option LruList := do
  let nodes ← unlink l.nodes n
  some { l with nodes := nodes, size := l.size - 1 }

/-- The loop of `clear` from the node `n`. -/
def deleteFrom : Nat → Cells PageId → Nat → Option (Cells PageId)
  | 0, _, _ => none
  | fuel + 1, nodes, n =>
      if n = tail then some nodes
      else do
        let c ← nodes n
        let nn ← c.next
        deleteFrom fuel (nodes.delete n) nn

def clear (l : LruList) : Option LruList := do
  let h ← l.nodes head
  let first ← h.next
  let nodes ← deleteFrom (l.fresh + 1) l.nodes first
  some { l with nodes := nodes, size := 0 }

end LruList

/-- `PF_PAGE_SIZE`. -/
def pageSize : Nat := 1048576

abbrev Page := Fin pageSize → UInt8

def Page.zero : Page := fun _ => 0

/-- `buf_slot`; the pointer `p_` is that of the page at `pos`. -/
structure BufSlot where
  dirty : Bool
  pinned : Bool
  pos : Nat
  lruNode : Nat
  deriving DecidableEq, Repr

/-- `bufferpool`. In `slots`, as in the source, a set bit is a free slot. -/
structure BufferPool where
  bsize : Nat
  buffer : Nat → Page
  lru : LruList
  ptable : AList (fun _ : PageId => BufSlot)
  slots : Nat → Bool
  files : Nat → Option (PagedFile Page)

namespace BufferPool

abbrev M := EStateM BpErr BufferPool

/-- `bufferpool::bufferpool`, with the files that are registered. -/
def new (bsize : Nat) (buffer : Nat → Page) (files : Nat → Option (PagedFile Page)) : BufferPool :=
  { bsize := bsize, buffer := buffer, lru := .empty, ptable := ∅, slots := fun _ => true,
    files := files }

def setFile (s : BufferPool) (i : Nat) (f : PagedFile Page) : BufferPool :=
  { s with files := fun j => if j = i then some f else s.files j }

/-- A call on a registered file. -/
def withFile {α : Type} (i : Nat) (x : PagedFile.M Page α) : M α := fun s =>
  match s.files i with
  | none => .error .nullPointer s
  | some f =>
      match x f with
      | .ok a f' => .ok a (s.setFile i f')
      | .error e f' => .error e (s.setFile i f')

/-- A call on the LRU list. -/
def withLru {α : Type} (x : LruList → Option (α × LruList)) : M α := fun s =>
  match x s.lru with
  | none => .error .danglingPointer s
  | some (a, l) => .ok a { s with lru := l }

def lruUnit (x : LruList → Option LruList) : M PUnit :=
  withLru fun l => (x l).map fun l => (⟨⟩, l)

/-- Change a table entry in place. -/
def updateEntry (pid : PageId) (g : BufSlot → BufSlot) : M PUnit :=
  modify fun s =>
    match s.ptable.lookup pid with
    | some b => { s with ptable := s.ptable.insert pid (g b) }
    | none => s

def pinPage (pid : PageId) : M PUnit := updateEntry pid fun b => { b with pinned := true }

def unpinPage (pid : PageId) : M PUnit := updateEntry pid fun b => { b with pinned := false }

def markDirty (pid : PageId) : M PUnit := updateEntry pid fun b => { b with dirty := true }

def setSlot (pos : Nat) (free : Bool) : M PUnit :=
  modify fun s => { s with slots := fun i => if i = pos then free else s.slots i }

def setPage (pos : Nat) (pg : Page) : M PUnit :=
  modify fun s => { s with buffer := fun i => if i = pos then pg else s.buffer i }

/-- `memset(p, 0, sizeof(PF_PAGE_SIZE))`: the macro is an `int`, so this
clears the first four bytes. -/
def wipe (pos : Nat) : M PUnit :=
  modify fun s =>
    { s with
      buffer := fun i => if i = pos then fun j => if j.val < 4 then 0 else s.buffer i j
        else s.buffer i }

def eraseEntry (pid : PageId) : M PUnit :=
  modify fun s => { s with ptable := s.ptable.erase pid }

def writePageToFile (pid : PageId) (pos : Nat) : M PUnit := do
  let s ← get
  withFile pid.file (PagedFile.writePage pid.raw (s.buffer pos))

/-- The slot that `slots_.find_first()` finds. -/
def findFirst (s : BufferPool) : Option Nat := (List.range s.bsize).find? s.slots

/-- `load_page_from_file`: the slot is marked as occupied before the page is
read. -/
def loadPageFromFile (pid : PageId) : M Nat := do
  let s ← get
  match s.findFirst with
  | none => throw .bufferpoolOverrun
  | some pos =>
      setSlot pos false
      let pg ← withFile pid.file (PagedFile.readPage pid.raw)
      setPage pos pg
      pure pos

/-- The loop of `evict_page` from the list node `n`. -/
def evictFrom : Nat → Nat → M Bool
  | 0, _ => throw .diverges
  | fuel + 1, n =>
      if n = LruList.tail then pure false
      else do
        let s ← get
        match s.lru.nodes n with
        | none => throw .danglingPointer
        | some c =>
            match s.ptable.lookup c.val, c.next with
            | some b, next =>
                if b.pinned then
                  match next with
                  | some nn => evictFrom fuel nn
                  | none => throw .danglingPointer
                else do
                  if b.dirty then writePageToFile c.val b.pos
                  setSlot b.pos true
                  wipe b.pos
                  lruUnit (·.remove b.lruNode)
                  eraseEntry c.val
                  pure true
            | none, some nn => evictFrom fuel nn
            | none, none => throw .danglingPointer

def evictPage : M Bool := do
  let s ← get
  match s.lru.nodes.nextOf LruList.head with
  | some n => evictFrom (s.lru.fresh + 1) n
  | none => throw .danglingPointer

/-- `fetch_page`; the result is the slot the returned pointer points to. -/
def fetchPage (pid : PageId) : M Nat := do
  let s ← get
  match s.ptable.lookup pid with
  | some b =>
      lruUnit (·.moveToMru b.lruNode)
      pure b.pos
  | none =>
      if s.lru.size = s.bsize then
        let _ ← evictPage
      let pos ← loadPageFromFile pid
      let node ← withLru (·.addToMru pid)
      modify fun s => { s with ptable := s.ptable.insert pid ⟨false, false, pos, node⟩ }
      pure pos

/-- `allocate_page`; besides the pointer it returns the page id. -/
def allocatePage (file : Nat) : M (Nat × PageId) := do
  let raw ← withFile file (PagedFile.allocatePage Page.zero)
  let pos ← fetchPage ⟨file, raw⟩
  pure (pos, ⟨file, raw⟩)

def freePage (pid : PageId) : M PUnit := do
  let s ← get
  match s.ptable.lookup pid with
  | none => pure ⟨⟩
  | some b =>
      wipe b.pos
      lruUnit (·.remove b.lruNode)
      eraseEntry pid
      let _ ← withFile pid.file (PagedFile.freePage pid.raw)

/-- Write a table entry back if it is dirty. -/
def flushEntry (pid : PageId) (b : BufSlot) : M PUnit := do
  if b.dirty then
    writePageToFile pid b.pos
    updateEntry pid fun b => { b with dirty := false }

def flushPage (pid : PageId) (evict : Bool) : M PUnit := do
  let s ← get
  match s.ptable.lookup pid with
  | none => pure ⟨⟩
  | some b =>
      flushEntry pid b
      if evict then
        lruUnit (·.remove b.lruNode)
        setSlot b.pos true
        wipe b.pos
        eraseEntry pid

/-- The loop of `flush_all` and `flush_pages` over the table, in the order
the hash table happens to have. -/
def flushWhere (p : PageId → Bool) : M PUnit := do
  let s ← get
  s.ptable.entries.forM fun e => if p e.1 then flushEntry e.1 e.2 else pure ⟨⟩

def flushAll : M PUnit := flushWhere fun _ => true

def flushPages (file : Nat) : M PUnit := flushWhere fun pid => pid.file = file

def purge : M PUnit := do
  modify fun s => { s with slots := fun _ => true }
  lruUnit LruList.clear
  modify fun s => { s with ptable := ∅, buffer := fun _ => Page.zero }

/-- `scan_file`: a slot is taken for the pages of the file, and released
after the scan. Without a slot `slots_.flip` writes behind the bitset. -/
def scanFile (file : Nat) : M (List (Page × Nat)) := do
  let s ← get
  if s.findFirst = none then
    let _ ← evictPage
  let s ← get
  match s.findFirst with
  | none => throw .danglingPointer
  | some pos =>
      setSlot pos false
      let s ← get
      match s.files file with
      | none => throw .nullPointer
      | some f =>
          match f.scanPages (s.buffer pos) with
          | .error e pg => do
              setPage pos pg
              throw e
          | .ok calls pg => do
              setPage pos pg
              setSlot pos true
              pure calls

/-- A caller writes to a page in place and marks it dirty. It needs a pointer
to the page, so the page has to be in the pool. -/
def writeInPlace (pid : PageId) (g : Page → Page) : M PUnit := do
  let s ← get
  match s.ptable.lookup pid with
  | none => throw .danglingPointer
  | some b =>
      setPage b.pos (g (s.buffer b.pos))
      markDirty pid

end BufferPool

/-- The calls of the buffer pool. -/
inductive PoolOp where
  | allocatePage (file : Nat)
  | fetchPage (pid : PageId)
  | writeInPlace (pid : PageId) (g : Page → Page)
  | markDirty (pid : PageId)
  | flushPage (pid : PageId) (evict : Bool)
  | flushAll
  | flushPages (file : Nat)
  | freePage (pid : PageId)
  | pinPage (pid : PageId)
  | unpinPage (pid : PageId)
  | purge

namespace BufferPool

/-- One call; the result is the page id that `allocate_page` returns. -/
def call : PoolOp → M (Option PageId)
  | .allocatePage file => (fun r => some r.2) <$> allocatePage file
  | .fetchPage pid => (fun _ => none) <$> fetchPage pid
  | .writeInPlace pid g => (fun _ => none) <$> writeInPlace pid g
  | .markDirty pid => (fun _ => none) <$> markDirty pid
  | .flushPage pid evict => (fun _ => none) <$> flushPage pid evict
  | .flushAll => (fun _ => none) <$> flushAll
  | .flushPages file => (fun _ => none) <$> flushPages file
  | .freePage pid => (fun _ => none) <$> freePage pid
  | .pinPage pid => (fun _ => none) <$> pinPage pid
  | .unpinPage pid => (fun _ => none) <$> unpinPage pid
  | .purge => (fun _ => none) <$> purge

/-- The pool after a call, also when the call throws. -/
def step (s : BufferPool) (op : PoolOp) : Option BufferPool :=
  match call op s with
  | .ok _ s' => some s'
  | .error e s' => if e.isException then some s' else none

/-- The pool after a sequence of calls. -/
def run (s : BufferPool) : List PoolOp → Option BufferPool
  | [] => some s
  | op :: ops => (s.step op).bind fun s => s.run ops

end BufferPool

end Poseidon
