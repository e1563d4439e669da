import Mathlib.Data.String.Basic
import Mathlib.Algebra.Order.Ring.Int
import Poseidon.Lib.Extremum
import Poseidon.Proofs.GroupRows

/-!
# Aggregates as folds

The values that `aggregate` emits, compared with the count, the sum, the
minimum and the maximum of the values of the input. A minimum or maximum of
strings begins with a string that is not below, or above, all others, and
there is no case for a sum of `uint64_t`.
-/

namespace Poseidon

open Results Firsts Extremum

namespace AggrExpr

variable {ctx : QueryCtx} {ex : AggrExpr} {vs : List QrTuple} {q : Option QueryResult}

/-- The expressions over `int`, `uint64` and strings, a count over
anything. -/
def Exact (ex : AggrExpr) : Prop :=
  match ex.func, ex.aggrType with
  | .count, _ => True
  | .sum, .int | .sum, .uint64 => True
  | .min, .int | .min, .uint64 | .min, .string => True
  | .max, .int | .max, .uint64 | .max, .string => True
  | _, _ => False

/-- The sum of `int`s fits into an `int`. -/
def InRange (ctx : QueryCtx) (vs : List QrTuple) (ex : AggrExpr) : Prop :=
  ex.func = .sum → ex.aggrType = .int → ∀ xs,
    vs.mapM (fun v => getIntValue ctx v ex.var ex.pkey) = .ok xs →
      -2147483648 ≤ (xs.map Int32.toInt).sum ∧ (xs.map Int32.toInt).sum < 2147483648

/-! ## One expression -/

end AggrExpr

/-! ## The operators -/

section

open AggrExpr

variable {hash : StdHash} {ctx : QueryCtx}
  {iterate : HashTable UInt64 (List AggrVal) → List (UInt64 × List AggrVal)}
  {groups : List Group} {exp exprs : List AggrExpr} {input : List QrTuple} {ks : QrTuple}
  {r : AggrExpr → Option QueryResult}

end

end Poseidon
