import Mathlib.Algebra.Group.Int.Defs
import Mathlib.Algebra.Group.Nat.Defs

/-!
# Identifiers, timestamps and errors of the store

The scalar types of `defs.hpp` and `transaction.hpp` and the exceptions of
`exceptions.hpp`. Slot numbers (`offset_t`), dictionary codes (`dcode_t`),
transaction ids (`xid_t`) and timestamps (`timestamp_t`) are natural
numbers: the store compares and copies them and does no arithmetic on them,
so the only machine fact that matters is that `INF` and `UNKNOWN` are the
largest values of their types. A transaction id is also the transaction's
timestamp.

Labels and property keys appear as the dictionary codes the store keeps,
where `0` stands for "no string"; the translation of strings by `dict`
happens before any record is touched.
-/

namespace Poseidon

/-- The timestamp of a version that has not ended. -/
def INF : Nat := 2 ^ 64 - 1

/-- The offset that ends a list of records. -/
def UNKNOWN : Nat := 2 ^ 64 - 1

/-- The dictionary code that stands for no code; the dictionary hands it out
for no string. -/
def UNKNOWN_CODE : Nat := 2 ^ 32 - 1

/-- What a call can end in other than a value. The first seven are the
exceptions of the source. The other three say that a reference is used
after its version was freed, that a loop of the source does not end, and
that a record vector handed out a slot in use. -/
inductive Err where
  | unknownId
  | indexOutOfRange
  | unknownProperty
  | transactionAbort
  | orphanedRelationship
  | outOfTransactionScope
  | invalidNestedTransaction
  | danglingReference
  | diverges
  | slotInUse
  deriving DecidableEq, Repr

end Poseidon
