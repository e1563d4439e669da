import Poseidon.Vec.Chunk

/-!
# The record vector in memory

`mem_chunked_vec.hpp`. The vector is a list of chunks of `n` records. Free
space is tracked by a counter and by a list of offsets of chunks that are
not full. `resize` adds the offset of the first slot of a new chunk to that
list; `erase` adds the index of the record it erases, and `store_at` removes
the index it stores at.

A call that throws leaves the vector as it is at that point.
-/

namespace Poseidon

variable {α : Type} [Inhabited α]

structure MemVec (α : Type) where
  capacity : Nat
  available : Nat
  chunks : List (Chunk α)
  freeList : List Nat

namespace MemVec

abbrev M (α : Type) := EStateM VecErr (MemVec α)

variable (n : Nat)

/-- A new vector. -/
def empty : MemVec α := ⟨0, 0, [], []⟩

/-- One round of the loop of `resize`. -/
def addChunk (v : MemVec α) : MemVec α :=
  { capacity := add64 v.capacity n
    available := add64 v.available n
    chunks := v.chunks ++ [Chunk.empty]
    freeList := v.freeList ++ [v.chunks.length * n] }

/-- The loop of `resize`. -/
def addChunks : Nat → MemVec α → MemVec α
  | 0, v => v
  | k + 1, v => addChunks k (v.addChunk n)

/-- `resize`. An empty vector gets a chunk whatever the number asked for. -/
def resize (nchunks : Int) (v : MemVec α) : MemVec α :=
  if v.chunks = [] then
    addChunks n (nchunks - 1).toNat
      { capacity := n, available := n, chunks := [Chunk.empty], freeList := v.freeList ++ [0] }
  else addChunks n nchunks.toNat v

/-- `at`. -/
def at_ (v : MemVec α) (idx : Nat) : Except VecErr α :=
  match v.chunks[idx / n]? with
  | none => .error .indexOutOfRange
  | some ch => if ch.slots (idx % n) then .ok (ch.data (idx % n)) else .error .unknownId

/-- `remove_from_free_list`. -/
def removeFromFreeList (fl : List Nat) (idx : Nat) : List Nat := fl.filter fun i => i ≠ idx

/-- `store_at`. -/
def storeAt (idx : Nat) (o : α) : M α PUnit := do
  let v ← get
  match v.chunks[idx / n]? with
  | none => throw .indexOutOfRange
  | some ch =>
      let pos := idx % n
      let ch' := (ch.put pos o).set n pos true
      set { v with
        chunks := v.chunks.set (idx / n) ch'
        available := if ch.slots pos then v.available else decr64 v.available
        freeList := if ch'.isFull n then removeFromFreeList v.freeList idx else v.freeList }

/-- The common end of `append` and `store`: the record goes to the first free
slot of chunk `k`, and the index counts from `offs`. A full chunk has the
position `SIZE_MAX`, which its bitset refuses. -/
def storeIn (k offs : Nat) (ch : Chunk α) (o : α) : M α Nat := do
  modify fun v => { v with available := decr64 v.available }
  match ch.firstAvailable n with
  | none => throw .outOfRange
  | some pos =>
      let ch' := (ch.put pos o).set n pos true
      modify fun v =>
        { v with
          chunks := v.chunks.set k ch'
          freeList := if ch'.isFull n then removeFromFreeList v.freeList offs else v.freeList }
      pure (offs + pos)

/-- `append`: the last chunk, or a new one when that is full. -/
def append (o : α) : M α Nat := do
  modify fun v => if v.available = 0 then v.resize n 1 else v
  modify fun v =>
    match v.chunks.getLast? with
    | some tail => if tail.isFull n then v.resize n 1 else v
    | none => v
  let v ← get
  match v.chunks.getLast? with
  | none => throw .nullPointer
  | some tail => storeIn n (v.chunks.length - 1) ((v.chunks.length - 1) * n) tail o

/-- `store`: the chunk at the front of the free list, or a new one. -/
def store (o : α) : M α Nat := do
  modify fun v => if v.freeList = [] then v.resize n 1 else v
  let v ← get
  match v.freeList with
  | [] => throw .nullPointer
  | idx :: _ =>
      match v.chunks[idx / n]? with
      | none => throw .indexOutOfRange
      | some ch => storeIn n (idx / n) idx ch o

/-- `erase`. -/
def erase (idx : Nat) : M α PUnit := do
  let v ← get
  match v.chunks[idx / n]? with
  | none => throw .indexOutOfRange
  | some ch =>
      let pos := idx % n
      set { v with
        chunks := v.chunks.set (idx / n) (ch.set n pos false)
        available := if ch.slots pos then add64 v.available 1 else v.available
        freeList := if ch.isFull n then v.freeList ++ [idx] else v.freeList }

/-- One call; `append` and `store` return an index. -/
def call : VecOp α → M α (Option Nat)
  | .append o => some <$> append n o
  | .store o => some <$> store n o
  | .storeAt idx o => (fun _ => none) <$> storeAt n idx o
  | .erase idx => (fun _ => none) <$> erase n idx
  | .resize k => do
      modify (resize n k)
      pure none

/-- The vector after a call, also when the call throws. -/
def next (v : MemVec α) (op : VecOp α) : MemVec α :=
  match call n op v with
  | .ok _ v' => v'
  | .error _ v' => v'

end MemVec

end Poseidon
