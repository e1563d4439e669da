import Poseidon.Vec.BufferedVec
import Poseidon.Vec.MemChunkedVec

/-!
# Iterators over a record vector

`iter` and `range_iter` of `mem_chunked_vec.hpp` and `buffered_vec.hpp`. An
iterator is a pointer to a chunk and a position in it; it also knows the
number of its chunk, as a `range_iter` does. The iterators of the two vectors
differ in how the next chunk is looked up only: it is the next one in the
list, or the next page of the file. The lookup may throw.

A loop over an iterator collects the records it visits with their indices.
The loops are given as many rounds as the vector has slots, and one more.
-/

namespace Poseidon

variable {α : Type}

structure ChunkIter (α : Type) where
  chunk : Nat
  cptr : Option (Chunk α)
  pos : Nat

namespace ChunkIter

variable (n : Nat)

/-- The constructor of `iter`: it looks for a slot in use from `pos` on, and
takes a chunk without one for the end. -/
def make (k : Nat) (c : Option (Chunk α)) (pos : Nat) : ChunkIter α :=
  match c with
  | none => ⟨k, none, pos⟩
  | some c =>
      match (List.range n).find? fun j => decide (pos ≤ j) && c.slots j with
      | some j => ⟨k, some c, j⟩
      | none => ⟨k, none, 0⟩

/-- The next slot, in use or not. -/
def bump (load : Nat → Except BpErr (Option (Chunk α))) (it : ChunkIter α) :
    Except BpErr (ChunkIter α) :=
  if it.pos + 1 = n then do
    let c ← load (it.chunk + 1)
    pure ⟨it.chunk + 1, c, 0⟩
  else pure { it with pos := it.pos + 1 }

/-- `operator++`: the next slot in use. A `range_iter` looks for it in the
chunks of its range only. -/
def incr (load : Nat → Except BpErr (Option (Chunk α))) (inRange : Nat → Bool) :
    Nat → ChunkIter α → Except BpErr (ChunkIter α)
  | 0, _ => .error .diverges
  | fuel + 1, it => do
      let it ← it.bump n load
      match it.cptr with
      | none => pure it
      | some c => if inRange it.chunk && !c.slots it.pos then incr load inRange fuel it else pure it

/-- A loop over an iterator; `atEnd` is its condition to end. -/
def collect (next : ChunkIter α → Except BpErr (ChunkIter α)) (atEnd : ChunkIter α → Bool) :
    Nat → ChunkIter α → Except BpErr (List (Nat × α))
  | 0, _ => .error .diverges
  | fuel + 1, it =>
      if atEnd it then pure []
      else match it.cptr with
        | none => throw .nullPointer
        | some c => do
            let it' ← next it
            let rest ← collect next atEnd fuel it'
            pure ((it.chunk * n + it.pos, c.data it.pos) :: rest)

/-- An `iter` is compared with `end()`. -/
def isEnd (it : ChunkIter α) : Bool := it.cptr.isNone && it.pos == 0

/-- A `range_iter` is tested by itself. -/
def isPast (last : Nat) (it : ChunkIter α) : Bool := !(decide (it.chunk ≤ last) && it.cptr.isSome)

/-- A loop from `begin()` to `end()` in a vector of `slots` slots. -/
def loop (load : Nat → Except BpErr (Option (Chunk α))) (slots : Nat) (it : ChunkIter α) :
    Except BpErr (List (Nat × α)) :=
  collect n (incr n load (fun _ => true) (slots + 1)) isEnd (slots + 1) it

/-- A loop over a range of chunks that ends with the chunk `last`. -/
def rangeLoop (load : Nat → Except BpErr (Option (Chunk α))) (slots last : Nat) (it : ChunkIter α) :
    Except BpErr (List (Nat × α)) :=
  collect n (incr n load (fun k => decide (k ≤ last)) (slots + 1)) (isPast last) (slots + 1) it

end ChunkIter

namespace MemVec

variable (n : Nat)

/-- The chunk behind a chunk, `next_`. -/
def load (v : MemVec α) (k : Nat) : Except BpErr (Option (Chunk α)) := .ok v.chunks[k]?

/-- A loop from `begin()` to `end()`. -/
def iterate (v : MemVec α) : Except BpErr (List (Nat × α)) :=
  ChunkIter.loop n v.load (v.chunks.length * n) (.make n 0 v.chunks.head? 0)

/-- A loop over `range(first, last)`. In a vector that is not empty the first
chunk is looked up without a test. -/
def range (first last : Nat) (v : MemVec α) : Except BpErr (List (Nat × α)) := do
  let c ← if v.chunks = [] then pure none
    else match v.chunks[first]? with
      | some c => pure (some c)
      | none => throw .danglingPointer
  ChunkIter.rangeLoop n v.load (v.chunks.length * n) last ⟨first, c, 0⟩

/-- `num_chunks`. -/
def numChunks (v : MemVec α) : Nat := v.chunks.length

end MemVec

namespace BufVec

variable (n : Nat)

/-- `load_chunk` for the chunk `k`, which is on page `k + 1`: a page that is
not valid gives no chunk, and the bitset refuses a page it has no bit for. -/
def load (v : BufVec α) (k : Nat) : Except BpErr (Option (Chunk α)) :=
  if v.file.npages < k + 1 then .ok none
  else if maxPages ≤ k then .error .outOfRange
  else .ok (if v.file.slots k then some (v.file.pages k) else none)

/-- A loop from `begin()` to `end()`. -/
def iterate (v : BufVec α) : Except BpErr (List (Nat × α)) := do
  let c ← v.load 0
  ChunkIter.loop n v.load (v.file.npages * n) (.make n 0 c 0)

/-- A loop over `range(first, last)`. -/
def range (first last : Nat) (v : BufVec α) : Except BpErr (List (Nat × α)) := do
  let c ← v.load first
  ChunkIter.rangeLoop n v.load (v.file.npages * n) last ⟨first, c, 0⟩

/-- `num_chunks`. -/
def numChunks (v : BufVec α) : Nat := v.file.npages

end BufVec

end Poseidon
