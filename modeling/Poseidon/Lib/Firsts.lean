import Mathlib.Data.List.Basic
import Mathlib.Data.List.Nodup
import Mathlib.Data.List.Perm.Subperm

/-!
# First occurrences

`firsts r [] xs` are the elements of a list that are related to no earlier
one. When `r` is an equivalence they represent its classes, one each. The
last theorem compares two ways to tell elements apart: by a relation and by a
key on which related elements agree. The key finds as many classes only if it
has different values on all of them.
-/

namespace Firsts

variable {α κ : Type}

/-- The elements of a list to which neither an element of `seen` nor an
earlier one is related. -/
def firsts (r : α → α → Bool) : List α → List α → List α
  | _, [] => []
  | seen, x :: xs =>
      if seen.any (r · x) then firsts r (seen ++ [x]) xs
      else x :: firsts r (seen ++ [x]) xs

variable {r r' : α → α → Bool} {seen xs : List α} {x y : α}

theorem firsts_sublist : (firsts r seen xs).Sublist xs := by
  induction xs generalizing seen with
  | nil => exact .slnil
  | cons x xs ih =>
      rw [firsts]
      split
      · exact ih.cons x
      · exact ih.cons_cons x

/-- Relations that agree on the elements have the same first occurrences. -/
theorem firsts_congr (h : ∀ x ∈ seen ++ xs, ∀ y ∈ seen ++ xs, r x y = r' x y) :
    firsts r seen xs = firsts r' seen xs := by
  induction xs generalizing seen with
  | nil => rfl
  | cons x xs ih =>
      have hany : seen.any (r · x) = seen.any (r' · x) := by
        rw [Bool.eq_iff_iff, List.any_eq_true, List.any_eq_true]
        refine exists_congr fun y => and_congr_right fun hy => ?_
        rw [h y (List.mem_append_left _ hy) x (by simp)]
      have hrest := @ih (seen ++ [x]) fun a ha b hb =>
        h a (by simpa using ha) b (by simpa using hb)
      rw [firsts, firsts, hany, hrest]

/-- Every element is represented. -/
theorem exists_first (hrefl : ∀ x, r x x = true)
    (htrans : ∀ x y z, r x y = true → r y z = true → r x z = true) (hx : x ∈ xs) :
    (∃ y ∈ seen, r y x = true) ∨ ∃ y ∈ firsts r seen xs, r y x = true := by
  induction xs generalizing seen with
  | nil => cases hx
  | cons z xs ih =>
      rw [firsts]
      by_cases hany : seen.any (r · z) = true
      · rw [if_pos hany]
        obtain ⟨y, hy, hyz⟩ := List.any_eq_true.mp hany
        rcases List.mem_cons.mp hx with rfl | hx
        · exact .inl ⟨y, hy, hyz⟩
        · rcases @ih (seen ++ [z]) hx with ⟨w, hw, hwx⟩ | hfirst
          · rcases List.mem_append.mp hw with hw | hw
            · exact .inl ⟨w, hw, hwx⟩
            · rw [List.mem_singleton.mp hw] at hwx
              exact .inl ⟨y, hy, htrans _ _ _ hyz hwx⟩
          · exact .inr hfirst
      · rw [if_neg hany]
        rcases List.mem_cons.mp hx with rfl | hx
        · exact .inr ⟨x, List.mem_cons_self .., hrefl x⟩
        · rcases @ih (seen ++ [z]) hx with ⟨w, hw, hwx⟩ | ⟨w, hw, hwx⟩
          · rcases List.mem_append.mp hw with hw | hw
            · exact .inl ⟨w, hw, hwx⟩
            · rw [List.mem_singleton.mp hw] at hwx
              exact .inr ⟨z, List.mem_cons_self .., hwx⟩
          · exact .inr ⟨w, List.mem_cons_of_mem _ hw, hwx⟩

/-- A first occurrence is related to nothing before it. -/
theorem not_related (hx : x ∈ firsts r seen xs) : ∀ y ∈ seen, r y x = false := by
  induction xs generalizing seen with
  | nil => cases hx
  | cons z xs ih =>
      rw [firsts] at hx
      have hrest : x ∈ firsts r (seen ++ [z]) xs → ∀ y ∈ seen, r y x = false :=
        fun hmem y hy => ih hmem y (List.mem_append_left _ hy)
      split at hx
      · exact hrest hx
      · rename_i hany
        rcases List.mem_cons.mp hx with rfl | hx
        · intro y hy
          by_contra hne
          exact hany (List.any_eq_true.mpr ⟨y, hy, by simpa using hne⟩)
        · exact hrest hx

theorem firsts_pairwise : (firsts r seen xs).Pairwise fun a b => r a b = false := by
  induction xs generalizing seen with
  | nil => exact .nil
  | cons x xs ih =>
      rw [firsts]
      split
      · exact ih
      · refine List.pairwise_cons.mpr ⟨fun y hy => ?_, ih⟩
        exact not_related hy x (by simp)

section Keys

variable [DecidableEq κ] {key : α → κ}

/-- Elements with the same key. -/
def sameKey (key : α → κ) (x y : α) : Bool := decide (key x = key y)

theorem keys_nodup : ((firsts (sameKey key) seen xs).map key).Nodup := by
  rw [List.Nodup, List.pairwise_map]
  exact firsts_pairwise.imp fun h => of_decide_eq_false h

theorem exists_first_key (hx : x ∈ xs) : ∃ y ∈ firsts (sameKey key) [] xs, key y = key x := by
  have htrans : ∀ x y z, sameKey key x y = true → sameKey key y z = true →
      sameKey key x z = true := fun x y z h h' =>
    decide_eq_true ((of_decide_eq_true h).trans (of_decide_eq_true h'))
  rcases @exists_first α _ [] _ _ (fun _ => decide_eq_true rfl) htrans hx with
    ⟨y, hy, -⟩ | ⟨y, hy, hkey⟩
  · cases hy
  · exact ⟨y, hy, of_decide_eq_true hkey⟩

/-- A key that tells the classes apart finds the same first occurrences. -/
theorem firsts_of_injective {ι : Type} [DecidableEq ι] {ident : α → ι}
    (hkey : ∀ x ∈ xs, ∀ y ∈ xs, ident x = ident y → key x = key y)
    (hinj : ∀ x ∈ xs, ∀ y ∈ xs, key x = key y → ident x = ident y) :
    firsts (sameKey key) [] xs = firsts (sameKey ident) [] xs := by
  refine firsts_congr fun x hx y hy => Bool.eq_iff_iff.mpr ⟨fun h => ?_, fun h => ?_⟩
  · exact decide_eq_true (hinj x hx y hy (of_decide_eq_true h))
  · exact decide_eq_true (hkey x hx y hy (of_decide_eq_true h))

/-- The key tells as many classes apart as there are exactly when elements
with one key are always in one class. -/
theorem length_eq_iff {ι : Type} [DecidableEq ι] {ident : α → ι}
    (hkey : ∀ x ∈ xs, ∀ y ∈ xs, ident x = ident y → key x = key y) :
    (firsts (sameKey key) [] xs).length = (firsts (sameKey ident) [] xs).length ↔
      ∀ x ∈ xs, ∀ y ∈ xs, key x = key y → ident x = ident y := by
  constructor
  · intro hlen x hx y hy hxy
    have hfirst : ∀ z ∈ firsts (sameKey ident) [] xs, z ∈ xs :=
      fun z hz => firsts_sublist.subset hz
    have hsub : (firsts (sameKey key) [] xs).map key ⊆ (firsts (sameKey ident) [] xs).map key := by
      intro k hk
      obtain ⟨z, hz, rfl⟩ := List.mem_map.mp hk
      have hzx := firsts_sublist.subset hz
      obtain ⟨w, hw, hwz⟩ := @exists_first_key α ι _ _ _ ident hzx
      exact List.mem_map.mpr ⟨w, hw, hkey w (hfirst w hw) z hzx hwz⟩
    have hperm := (keys_nodup.subperm hsub).perm_of_length_le
      (Nat.le_of_eq (by rw [List.length_map, List.length_map, hlen]))
    have hnodup := hperm.nodup_iff.mp keys_nodup
    obtain ⟨a, ha, hax⟩ := @exists_first_key α ι _ _ _ ident hx
    obtain ⟨b, hb, hby⟩ := @exists_first_key α ι _ _ _ ident hy
    have hab : key a = key b := (hkey a (hfirst a ha) x hx hax).trans
      (hxy.trans (hkey b (hfirst b hb) y hy hby).symm)
    obtain rfl := List.inj_on_of_nodup_map hnodup ha hb hab
    exact hax.symm.trans hby
  · intro hinj
    rw [firsts_of_injective hkey hinj]

/-- The same about the first occurrences themselves. -/
theorem firsts_eq_iff {ι : Type} [DecidableEq ι] {ident : α → ι}
    (hkey : ∀ x ∈ xs, ∀ y ∈ xs, ident x = ident y → key x = key y) :
    firsts (sameKey key) [] xs = firsts (sameKey ident) [] xs ↔
      ∀ x ∈ xs, ∀ y ∈ xs, key x = key y → ident x = ident y := by
  constructor
  · intro h
    exact (length_eq_iff hkey).mp (congrArg List.length h)
  · exact firsts_of_injective hkey

end Keys

end Firsts
