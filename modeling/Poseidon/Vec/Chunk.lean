import Mathlib.Algebra.Group.Nat.Defs

/-!
# Chunks of records

`chunk` in `mem_chunked_vec.hpp` and `bchunk` in `buffered_vec.hpp`, which
are the same up to where they live: an array of `n` records, a bitset of the
slots that are used, and the lowest slot that is not. `set` looks for the
next free slot when the lowest one is taken.

Both record vectors are sequences of such chunks, and a record's index is
split into the number of the chunk and the position in it.
-/

namespace Poseidon

variable {α : Type}

structure Chunk (α : Type) where
  data : Nat → α
  slots : Nat → Bool
  first : Nat

/-- What a call of a record vector can end in other than a value: the
exceptions of the source, `std::out_of_range` of a bitset among them, and a
null pointer that is followed. -/
inductive VecErr where
  | indexOutOfRange
  | outOfRange
  | unknownId
  | nullPointer
  deriving DecidableEq, Repr

/-- The calls of a record vector. -/
inductive VecOp (α : Type) where
  | append (o : α)
  | store (o : α)
  | storeAt (idx : Nat) (o : α)
  | erase (idx : Nat)
  | resize (nchunks : Int)

namespace Chunk

variable (n : Nat)

/-- A new chunk. -/
def empty [Inhabited α] : Chunk α := ⟨fun _ => default, fun _ => false, 0⟩

def isFull (c : Chunk α) : Bool := (List.range n).all c.slots

/-- The next free slot from `first` on. -/
def nextFree (first : Nat) (slots : Nat → Bool) : Option Nat :=
  (List.range n).find? fun j => decide (first ≤ j) && !slots j

/-- `set`. -/
def set (c : Chunk α) (i : Nat) (b : Bool) : Chunk α :=
  let slots := fun j => if j = i then b else c.slots j
  { c with
    slots := slots
    first :=
      if b = false ∧ i < c.first then i
      else if b = true ∧ i = c.first then (nextFree n c.first slots).getD n
      else c.first }

/-- `first_available`. -/
def firstAvailable (c : Chunk α) : Option Nat :=
  if c.isFull n then none else nextFree n c.first c.slots

/-- `data_[i] = o`. -/
def put (c : Chunk α) (i : Nat) (o : α) : Chunk α :=
  { c with data := fun j => if j = i then o else c.data j }

end Chunk

/-- `x--` and `x += k` on a counter of 64 bits. -/
def decr64 (x : Nat) : Nat := (x + 2 ^ 64 - 1) % 2 ^ 64

def add64 (x k : Nat) : Nat := (x + k) % 2 ^ 64

/-- What the vector that consists of the chunks `tab` holds at an index. -/
def chunkView (n : Nat) (tab : Nat → Option (Chunk α)) (j : Nat) : Option α :=
  (tab (j / n)).bind fun c => if c.slots (j % n) then some (c.data (j % n)) else none

end Poseidon
