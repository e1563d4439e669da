import Mathlib.Data.List.Basic
import Mathlib.Data.List.Perm.Subperm

/-!
# Linked lists in a table

The cells of a table are linked by a partial function `next`: a cell that is
not in use has no successor, and the cell number `stop` ends a list.
`LinkPath next stop i l` says that the list from `i` runs through the cells `l`
and ends. Such a list is finite by definition; it has no repetitions because
`next` is a function. The lemmas say how a path changes when the table does:
not at all away from its cells, by one cell in front, and by one cell in the
middle.
-/

/-- The cells of the list that starts at `i`. -/
inductive LinkPath (next : Nat → Option Nat) (stop : Nat) : Nat → List Nat → Prop
  | nil : LinkPath next stop stop []
  | cons {i j : Nat} {l : List Nat} (hi : i ≠ stop) (hn : next i = some j)
      (hp : LinkPath next stop j l) : LinkPath next stop i (i :: l)

namespace LinkPath

variable {next next' : Nat → Option Nat} {stop i j : Nat} {l l' : List Nat}

/-- A list has one list of cells. -/
theorem unique (h : LinkPath next stop i l) (h' : LinkPath next stop i l') : l = l' := by
  induction h generalizing l' with
  | nil =>
      cases h' with
      | nil => rfl
      | cons hi _ _ => exact absurd rfl hi
  | cons hi hn _ ih =>
      cases h' with
      | nil => exact absurd rfl hi
      | cons _ hn' hp' =>
          rw [hn] at hn'
          cases hn'
          rw [ih hp']

theorem eq_nil_iff (h : LinkPath next stop i l) : l = [] ↔ i = stop := by
  cases h with
  | nil => simp
  | cons hi _ _ => simp [hi]

/-- Every cell of a path starts a path. -/
theorem of_mem (h : LinkPath next stop i l) (hj : j ∈ l) :
    ∃ l', LinkPath next stop j (j :: l') ∧ (j :: l') <:+ l := by
  induction h with
  | nil => cases hj
  | @cons a b l hi hn hp ih =>
      rcases List.mem_cons.mp hj with rfl | hj
      · exact ⟨l, .cons hi hn hp, List.suffix_refl _⟩
      · obtain ⟨l', hp', hs⟩ := ih hj
        exact ⟨l', hp', hs.trans (List.suffix_cons _ _)⟩

/-- A path does not come back to a cell. -/
theorem nodup (h : LinkPath next stop i l) : l.Nodup := by
  induction h with
  | nil => exact List.Pairwise.nil
  | @cons a b l hi hn hp ih =>
      refine List.nodup_cons.mpr ⟨fun hmem => ?_, ih⟩
      obtain ⟨l', hp', hs⟩ := hp.of_mem hmem
      have heq := (LinkPath.cons hi hn hp).unique hp'
      have hlen := hs.length_le
      simp only [List.cons.injEq, true_and] at heq
      rw [heq, List.length_cons] at hlen
      omega

/-- A path looks only at its own cells. -/
theorem congr (h : LinkPath next stop i l) (hn : ∀ a ∈ l, next' a = next a) :
    LinkPath next' stop i l := by
  induction h with
  | nil => exact .nil
  | cons hi hnext _ ih =>
      obtain ⟨h1, h2⟩ := List.forall_mem_cons.mp hn
      exact .cons hi (h1.trans hnext) (ih h2)

/-- The cells of a path are in use. -/
theorem next_isSome (h : LinkPath next stop i l) : ∀ a ∈ l, (next a).isSome := by
  induction h with
  | nil => simp
  | cons _ hn _ ih =>
      refine List.forall_mem_cons.mpr ⟨?_, ih⟩
      rw [hn]
      rfl

/-- A path through cells below `n` has at most `n` of them. -/
theorem length_le {n : Nat} (h : LinkPath next stop i l) (hlt : ∀ a ∈ l, a < n) :
    l.length ≤ n := by
  have hsub : l ⊆ List.range n := fun a ha => List.mem_range.mpr (hlt a ha)
  have hle := (List.subperm_of_subset h.nodup hsub).length_le
  rwa [List.length_range] at hle

end LinkPath
