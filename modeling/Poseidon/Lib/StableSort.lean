import Mathlib.Data.List.Basic
import Mathlib.Data.List.Perm.Basic

/-!
# Stable sorting by a strict weak order

`sortBy lt` sorts a list by a comparison function, and leaves elements that are
not ordered by it in the order in which they were. So the order of the result
is known for every two elements: the one that comes first was before the other
one or is less. From this follows when a list that is sorted by one comparison
function is also sorted by another one.
-/

namespace StableSort

variable {α : Type} {lt own : α → α → Bool} {l : List α} {a b x y : α}

/-- What `std::sort` and its like ask of a comparison function. -/
structure StrictWeak (lt : α → α → Bool) : Prop where
  asymm : ∀ a b, lt a b = true → lt b a = false
  negTrans : ∀ a b c, lt a b = false → lt b c = false → lt a c = false

/-- The stable sort by a comparison function. -/
def sortBy (lt : α → α → Bool) (l : List α) : List α := l.mergeSort fun a b => !lt b a

/-- No element of the list is less than one before it. -/
def SortedBy (lt : α → α → Bool) (l : List α) : Prop := l.Pairwise fun a b => lt b a = false

theorem sortBy_perm (lt : α → α → Bool) (l : List α) : (sortBy lt l).Perm l :=
  List.mergeSort_perm l _

namespace StrictWeak

theorem irrefl (h : StrictWeak lt) (a : α) : lt a a = false := by
  cases haa : lt a a with
  | false => rfl
  | true => exact haa.symm.trans (h.asymm a a haa)

theorem trans (h : StrictWeak lt) : ∀ a b c : α, (!lt b a) = true → (!lt c b) = true →
    (!lt c a) = true := by
  intro a b c hab hbc
  rw [Bool.not_eq_true'] at hab hbc ⊢
  exact h.negTrans c b a hbc hab

theorem total (h : StrictWeak lt) (a b : α) : (!lt b a || !lt a b) = true := by
  cases hab : lt a b with
  | false => exact Bool.or_true _
  | true => rw [h.asymm a b hab]; rfl

theorem sorted (h : StrictWeak lt) (l : List α) : SortedBy lt (sortBy lt l) :=
  (List.pairwise_mergeSort h.trans h.total l).imp fun hle => by
    rwa [Bool.not_eq_true'] at hle

theorem sublist (h : StrictWeak lt) {c : List α} (hc : SortedBy lt c) (hsub : c.Sublist l) :
    c.Sublist (sortBy lt l) :=
  List.sublist_mergeSort h.trans h.total (hc.imp fun hle => by rw [hle]; rfl) hsub

end StrictWeak

/-- Two different elements of a list are in one order or the other. -/
theorem pair_or_pair (hne : a ≠ b) : a ∈ l → b ∈ l → [a, b].Sublist l ∨ [b, a].Sublist l := by
  induction l with
  | nil => intro ha; cases ha
  | cons c l ih =>
      intro ha hb
      by_cases hac : a = c
      · have hbl : b ∈ l := (List.mem_cons.mp hb).resolve_left fun h => hne (hac.trans h.symm)
        rw [hac]
        exact .inl ((List.singleton_sublist.mpr hbl).cons_cons c)
      have hal : a ∈ l := (List.mem_cons.mp ha).resolve_left hac
      by_cases hbc : b = c
      · rw [hbc]
        exact .inr ((List.singleton_sublist.mpr hal).cons_cons c)
      · have hbl : b ∈ l := (List.mem_cons.mp hb).resolve_left hbc
        exact (ih hal hbl).imp (fun hs => hs.cons c) fun hs => hs.cons c

theorem pair_mem (h : [a, b].Sublist l) : a ∈ l ∧ b ∈ l :=
  ⟨h.subset (List.mem_cons_self ..), h.subset (List.mem_cons_of_mem _ (List.mem_cons_self ..))⟩

namespace StrictWeak

/-- An element before another one that is less changes places with it. -/
theorem swaps (h : StrictWeak lt) (hpair : [a, b].Sublist l) (hlt : lt b a = true) :
    [b, a].Sublist (sortBy lt l) := by
  have hne : a ≠ b := by
    rintro rfl
    rw [h.irrefl] at hlt
    cases hlt
  have hmem := pair_mem hpair
  have hperm := sortBy_perm lt l
  rcases pair_or_pair hne (hperm.mem_iff.mpr hmem.1) (hperm.mem_iff.mpr hmem.2) with hab | hba
  · have hle := List.pairwise_iff_forall_sublist.mp (h.sorted l) hab
    rw [hlt] at hle
    cases hle
  · exact hba

/-- Elements that are not ordered stay as they are: of two in the result, the
first was before the other one, or it is less. -/
theorem pair_of_sorted (h : StrictWeak lt) (hpair : [x, y].Sublist (sortBy lt l)) :
    [x, y].Sublist l ∨ lt x y = true ∧ [y, x].Sublist l := by
  have hperm := sortBy_perm lt l
  have hmem := pair_mem hpair
  have hyx : lt y x = false := List.pairwise_iff_forall_sublist.mp (h.sorted l) hpair
  cases hxy : lt x y with
  | true =>
      have hne : x ≠ y := by
        rintro rfl
        rw [hxy] at hyx
        cases hyx
      exact (pair_or_pair hne (hperm.mem_iff.mp hmem.1) (hperm.mem_iff.mp hmem.2)).imp_right
        fun hs => ⟨rfl, hs⟩
  | false =>
      -- the list of all `x` and `y` is sorted as it is, so it is part of the result
      classical
      let p : α → Bool := fun z => decide (z = x ∨ z = y)
      have hc : SortedBy lt (l.filter p) := by
        refine List.pairwise_iff_forall_sublist.mpr fun {u v} huv => ?_
        have hu := of_decide_eq_true (List.mem_filter.mp (pair_mem huv).1).2
        have hv := of_decide_eq_true (List.mem_filter.mp (pair_mem huv).2).2
        rcases hu with rfl | rfl <;> rcases hv with rfl | rfl
        · exact h.irrefl _
        · exact hyx
        · exact hxy
        · exact h.irrefl _
      have hsub := (h.sublist hc List.filter_sublist).filter p
      rw [List.filter_filter, show (fun z => p z && p z) = p from funext fun z => Bool.and_self _]
        at hsub
      have heq : l.filter p = (sortBy lt l).filter p :=
        hsub.eq_of_length (hperm.filter p).length_eq.symm
      have hxy' : [x, y].filter p = [x, y] := by simp [p]
      have hpair' := hpair.filter p
      rw [hxy', ← heq] at hpair'
      exact .inl (hpair'.trans List.filter_sublist)

/-- A list sorted by `lt` is sorted by `own`, too, if no two elements out of
order by `own` stay where they are and no two elements in order change places. -/
theorem sorted_by_iff (h : StrictWeak lt) (own : α → α → Bool) (l : List α) :
    SortedBy own (sortBy lt l) ↔ l.Pairwise fun a b =>
      (own b a = true → lt b a = true) ∧ (own a b = true → lt b a = false) := by
  constructor
  · intro hown
    refine List.pairwise_iff_forall_sublist.mpr fun {a b} hab => ⟨fun hba => ?_, fun hlt => ?_⟩
    · cases hstay : lt b a with
      | true => rfl
      | false =>
          have hpair : SortedBy lt [a, b] := List.pairwise_pair.mpr hstay
          have hkeep := List.pairwise_iff_forall_sublist.mp hown (h.sublist hpair hab)
          rw [hba] at hkeep
          cases hkeep
    · cases hswap : lt b a with
      | false => rfl
      | true =>
          have hkeep := List.pairwise_iff_forall_sublist.mp hown (h.swaps hab hswap)
          rw [hlt] at hkeep
          cases hkeep
  · intro hall
    refine List.pairwise_iff_forall_sublist.mpr fun {x y} hxy => ?_
    have hle : lt y x = false := List.pairwise_iff_forall_sublist.mp (h.sorted l) hxy
    cases hyx : own y x with
    | false => rfl
    | true =>
        rcases h.pair_of_sorted hxy with hin | ⟨hlt, hin⟩
        · have hlt := (List.pairwise_iff_forall_sublist.mp hall hin).1 hyx
          rw [hle] at hlt
          cases hlt
        · have hnlt := (List.pairwise_iff_forall_sublist.mp hall hin).2 hyx
          rw [hlt] at hnlt
          cases hnlt

end StrictWeak

/-! ## Order among the members of a list only -/

/-- `StrictWeak`, asked of the members of a list. -/
structure StrictWeakOn (lt : α → α → Bool) (l : List α) : Prop where
  asymm : ∀ a ∈ l, ∀ b ∈ l, lt a b = true → lt b a = false
  negTrans : ∀ a ∈ l, ∀ b ∈ l, ∀ c ∈ l, lt a b = false → lt b c = false → lt a c = false

theorem sortBy_attach (lt : α → α → Bool) (l : List α) :
    (sortBy (fun a b : { x // x ∈ l } => lt a.1 b.1) l.attach).map Subtype.val = sortBy lt l := by
  have hmap := List.map_mergeSort (r := fun a b : { x // x ∈ l } => !lt b.1 a.1)
    (s := fun a b => !lt b a) (f := Subtype.val) (l := l.attach) fun a _ b _ => rfl
  rw [List.attach_map_subtype_val] at hmap
  exact hmap

namespace StrictWeakOn

theorem members (h : StrictWeakOn lt l) :
    StrictWeak fun a b : { x // x ∈ l } => lt a.1 b.1 :=
  ⟨fun a b => h.asymm a.1 a.2 b.1 b.2, fun a b c => h.negTrans a.1 a.2 b.1 b.2 c.1 c.2⟩

theorem sorted (h : StrictWeakOn lt l) : SortedBy lt (sortBy lt l) := by
  rw [← sortBy_attach]
  exact List.pairwise_map.mpr (h.members.sorted l.attach)

theorem sorted_by_iff (h : StrictWeakOn lt l) (own : α → α → Bool) :
    SortedBy own (sortBy lt l) ↔ l.Pairwise fun a b =>
      (own b a = true → lt b a = true) ∧ (own a b = true → lt b a = false) := by
  have hiff := h.members.sorted_by_iff (fun a b => own a.1 b.1) l.attach
  rw [← sortBy_attach, SortedBy, List.pairwise_map]
  refine hiff.trans ?_
  conv_rhs => rw [← List.attach_map_subtype_val l, List.pairwise_map]

end StrictWeakOn

end StableSort
