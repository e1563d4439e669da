import Mathlib.Order.Lattice

/-!
# The least element of a list

A running minimum begins with some value and keeps the better of two. The
elements are compared by their rank in a linear order, so the same rules serve
for a maximum, by the opposite rank. The result is the least element of the
list exactly when an element of the list is at least as good as the beginning.
A tie is an element that is as good as the best before it.
-/

namespace Extremum

variable {β ι : Type}

section

variable [LinearOrder ι] {rank : β → ι} {op : β → β → β} {init : β} {xs : List β}

/-- `op` keeps its first argument unless the second one has a smaller rank. -/
def Keeps (rank : β → ι) (op : β → β → β) : Prop :=
  ∀ a b, op a b = if rank b < rank a then b else a

end

/-! ## Ties -/

section

variable [LinearOrder ι] {xs : List ι} {x : ι}

/-- Some element is as small as the least of those before it. -/
def Tied (xs : List ι) : Prop :=
  ∃ front x back, xs = front ++ x :: back ∧ x ∈ front ∧ ∀ y ∈ front, x ≤ y

theorem not_tied_nil : ¬Tied ([] : List ι) := by
  rintro ⟨front, x, back, h, -⟩
  exact List.append_ne_nil_of_right_ne_nil front (List.cons_ne_nil x back) h.symm

/-- One more element. -/
theorem tied_concat : Tied (xs ++ [x]) ↔ Tied xs ∨ (x ∈ xs ∧ ∀ y ∈ xs, x ≤ y) := by
  constructor
  · rintro ⟨front, y, back, h, hmem, hle⟩
    rcases List.eq_nil_or_concat back with rfl | ⟨back, z, rfl⟩
    · obtain ⟨rfl, hxy⟩ := List.append_inj' h rfl
      obtain rfl := List.singleton_inj.mp hxy
      exact .inr ⟨hmem, hle⟩
    · rw [List.concat_eq_append, ← List.cons_append, ← List.append_assoc] at h
      exact .inl ⟨front, y, back, (List.append_inj' h rfl).1, hmem, hle⟩
  · rintro (⟨front, y, back, rfl, hmem, hle⟩ | ⟨hmem, hle⟩)
    · exact ⟨front, y, back ++ [x], by simp, hmem, hle⟩
    · exact ⟨xs, x, [], rfl, hmem, hle⟩

end

end Extremum
