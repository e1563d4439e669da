import Mathlib.Logic.Function.Basic

/-!
# Lists of writes to a map

A log of changes is a list of writes, each of a value to a key. What a map
holds at a key after the writes is the value of the last write to that key,
or what it held before.
-/

section

variable {κ ν : Type} [DecidableEq κ]

/-- Apply writes to a map, in their order. -/
def writeAll (m : κ → ν) (ws : List (κ × ν)) : κ → ν :=
  ws.foldl (fun m w => Function.update m w.1 w.2) m

/-- The value of the last write to a key. -/
def lastWrite : List (κ × ν) → κ → Option ν
  | [], _ => none
  | w :: ws, k => (lastWrite ws k).or (if w.1 = k then some w.2 else none)

theorem writeAll_apply (ws : List (κ × ν)) (m : κ → ν) (k : κ) :
    writeAll m ws k = (lastWrite ws k).getD (m k) := by
  induction ws generalizing m with
  | nil => rfl
  | cons w ws ih =>
      rw [writeAll, List.foldl_cons]
      refine (ih _).trans ?_
      rw [lastWrite]
      cases lastWrite ws k with
      | some b => rfl
      | none =>
          by_cases hk : w.1 = k
          · subst hk
            simp
          · have hne : k ≠ w.1 := fun h => hk h.symm
            simp [hk, Function.update_of_ne hne]

end
