import Mathlib.Data.List.Pairwise
import Mathlib.Order.Lattice
import Poseidon.Lib.StableSort

/-!
# Sorting with a comparison that can fail

A comparison of two elements says `lt`, `eq` or `gt`, or it ends in an
exception, which then ends the sort. `Compares` is what such a comparison has
to satisfy where it answers. Under it a merge sort returns exactly if every two
elements of the list can be compared: two elements that cannot be are kept
apart only by elements that lie between them, and there are none when their
runs are merged.
-/

namespace StableSort

variable {α ε : Type} {c d : α → α → Except ε Ordering} {own : α → α → Bool}
  {l xs ys : List α} {a b x y : α}

/-- A total preorder, as far as the comparison answers. -/
structure Compares (c : α → α → Except ε Ordering) : Prop where
  swap : ∀ a b o, c a b = .ok o → c b a = .ok o.swap
  trans : ∀ a b e o o', c a b = .ok o → c b e = .ok o' → o ≠ .gt → o' ≠ .gt →
    c a e = .ok (o.then o')

/-- The comparison answers. -/
def Comparable (c : α → α → Except ε Ordering) (a b : α) : Prop := ∃ o, c a b = .ok o

/-- The comparison function for sorting. -/
def less (c : α → α → Except ε Ordering) (a b : α) : Except ε Bool :=
  (c a b).map (· == .lt)

/-- `a` is less than `b`. -/
def isLess (c : α → α → Except ε Ordering) (a b : α) : Bool :=
  match c a b with
  | .ok o => o == .lt
  | .error _ => false

/-- Merges two sorted lists; of two equal elements, that of the first list is
taken first. -/
def mergeM (lt : α → α → Except ε Bool) : List α → List α → Except ε (List α)
  | [], ys => .ok ys
  | xs, [] => .ok xs
  | x :: xs, y :: ys => do
      if ← lt y x then
        let zs ← mergeM lt (x :: xs) ys
        .ok (y :: zs)
      else
        let zs ← mergeM lt xs (y :: ys)
        .ok (x :: zs)

/-- Merge sort. -/
def sortM (lt : α → α → Except ε Bool) : List α → Except ε (List α)
  | [] => .ok []
  | [a] => .ok [a]
  | a :: b :: l => do
      let n := (l.length + 3) / 2
      let left ← sortM lt ((a :: b :: l).take n)
      let right ← sortM lt ((a :: b :: l).drop n)
      mergeM lt left right
termination_by l => l.length
decreasing_by
  all_goals
    simp only [List.length_take, List.length_drop, List.length_cons]
    omega

/-! ## Comparisons made of others -/

/-- The comparison the other way round. -/
def reversed (c : α → α → Except ε Ordering) (a b : α) : Except ε Ordering :=
  (c a b).map Ordering.swap

/-- A second key, for elements that are equal in the first one. -/
def thenBy (c d : α → α → Except ε Ordering) (a b : α) : Except ε Ordering :=
  match c a b with
  | .ok .eq => d a b
  | r => r

/-- The comparison by a function that says whether one element is less. -/
def byFunction (lt : α → α → Bool) (a b : α) : Except ε Ordering :=
  .ok (if lt a b then .lt else if lt b a then .gt else .eq)

theorem reversed_ok {o : Ordering} : reversed c a b = .ok o ↔ c a b = .ok o.swap := by
  unfold reversed
  cases c a b with
  | error e => exact ⟨fun h => (by cases h), fun h => (by cases h)⟩
  | ok p =>
      constructor
      · intro h
        cases h
        rw [Ordering.swap_swap]
      · intro h
        cases h
        exact congrArg Except.ok Ordering.swap_swap

theorem thenBy_ok {o : Ordering} : thenBy c d a b = .ok o ↔
    c a b = .ok o ∧ o ≠ .eq ∨ c a b = .ok .eq ∧ d a b = .ok o := by
  unfold thenBy
  cases c a b with
  | error e => simp
  | ok p => cases p <;> cases o <;> simp

namespace Compares

theorem reversed (h : Compares c) : Compares (reversed c) := by
  constructor
  · intro a b o ho
    exact reversed_ok.mpr (h.swap a b _ (reversed_ok.mp ho))
  · intro a b e o o' ho ho' hne hne'
    have hba := h.swap a b _ (reversed_ok.mp ho)
    have heb := h.swap b e _ (reversed_ok.mp ho')
    rw [Ordering.swap_swap] at hba heb
    have hea := h.trans e b a o' o heb hba hne' hne
    have hcomm : o'.then o = o.then o' := by
      cases o <;> cases o' <;> first | rfl | contradiction
    rw [reversed_ok, h.swap e a _ hea, hcomm]

theorem thenBy (hc : Compares c) (hd : Compares d) : Compares (thenBy c d) := by
  constructor
  · intro a b o ho
    rcases thenBy_ok.mp ho with ⟨h, hne⟩ | ⟨h, h'⟩
    · have hne' : o.swap ≠ .eq := by cases o <;> simp_all
      exact thenBy_ok.mpr (.inl ⟨hc.swap a b o h, hne'⟩)
    · exact thenBy_ok.mpr (.inr ⟨hc.swap a b _ h, hd.swap a b o h'⟩)
  · intro a b e o o' ho ho' hne hne'
    rcases thenBy_ok.mp ho with ⟨h, heq⟩ | ⟨h, h'⟩ <;>
      rcases thenBy_ok.mp ho' with ⟨k, keq⟩ | ⟨k, k'⟩
    · -- the first key decides both times
      have hthen : o.then o' ≠ .eq := by cases o <;> simp_all
      exact thenBy_ok.mpr (.inl ⟨hc.trans a b e o o' h k hne hne', hthen⟩)
    · have hlt : o.then o' = .lt := by cases o <;> simp_all
      have hlt' : o.then .eq = .lt := by cases o <;> simp_all
      have hae := hc.trans a b e _ _ h k hne (by decide)
      rw [hlt'] at hae
      rw [hlt]
      exact thenBy_ok.mpr (.inl ⟨hae, by decide⟩)
    · have hlt : o' = .lt := by cases o' <;> simp_all
      subst hlt
      have hthen : o.then .lt = .lt := by cases o <;> simp_all
      rw [hthen]
      exact thenBy_ok.mpr (.inl ⟨hc.trans a b e _ _ h k (by decide) hne', by decide⟩)
    · exact thenBy_ok.mpr (.inr ⟨hc.trans a b e _ _ h k (by decide) (by decide),
        hd.trans a b e o o' h' k' hne hne'⟩)

theorem byFunction {lt : α → α → Bool} (h : StrictWeak lt) :
    Compares (byFunction lt : α → α → Except ε Ordering) := by
  have hle : ∀ {a b o}, (StableSort.byFunction lt a b : Except ε Ordering) = .ok o →
      o ≠ .gt → lt b a = false := by
    intro a b o ho hne
    cases ho
    cases hba : lt b a with
    | false => rfl
    | true => simp [hba, h.asymm b a hba] at hne
  have heq : ∀ {a b o}, (StableSort.byFunction lt a b : Except ε Ordering) = .ok o →
      (o = .lt ↔ lt a b = true) ∧ (o = .gt ↔ lt a b = false ∧ lt b a = true) := by
    intro a b o ho
    cases ho
    cases lt a b <;> cases lt b a <;> simp
  constructor
  · intro a b o ho
    cases ho
    unfold StableSort.byFunction
    cases hab : lt a b with
    | true => simp [h.asymm a b hab]
    | false => cases lt b a <;> rfl
  · intro a b e o o' ho ho' hne hne'
    have hba := hle ho hne
    have heb := hle ho' hne'
    have hea := h.negTrans e b a heb hba
    have hae : lt a e = (lt a b || lt b e) := by
      cases hab : lt a b with
      | true =>
          cases hae : lt a e with
          | true => rfl
          | false => exact absurd (h.negTrans a e b hae heb) (by rw [hab]; decide)
      | false =>
          cases hbe : lt b e with
          | true =>
              cases hae : lt a e with
              | true => rfl
              | false => exact absurd (h.negTrans b a e hba hae) (by rw [hbe]; decide)
          | false => exact h.negTrans a b e hab hbe
    have h1 := heq ho
    have h2 := heq ho'
    unfold StableSort.byFunction
    rw [hae, hea]
    cases o <;> cases o' <;> simp_all

/-- A comparison by keys, which answers if both keys are of one kind. -/
theorem of_keys {κ ι : Type} [LinearOrder ι] (key : α → Option (κ × ι))
    (h : ∀ a b o, c a b = .ok o ↔
      ∃ k x y, key a = some (k, x) ∧ key b = some (k, y) ∧ o = compare x y) : Compares c := by
  constructor
  · intro a b o ho
    obtain ⟨k, x, y, ha, hb, rfl⟩ := (h a b o).mp ho
    refine (h b a _).mpr ⟨k, y, x, hb, ha, ?_⟩
    rw [← cmp_eq_compare, ← cmp_eq_compare, cmp_swap]
  · intro a b e o o' ho ho' hne hne'
    obtain ⟨k, x, y, ha, hb, rfl⟩ := (h a b o).mp ho
    obtain ⟨k', y', z, hb', he, rfl⟩ := (h b e o').mp ho'
    rw [hb] at hb'
    cases hb'
    refine (h a e _).mpr ⟨k, x, z, ha, he, ?_⟩
    rcases (compare_le_iff_le.mp hne).lt_or_eq with hxy | rfl
    · have hxz := hxy.trans_le (compare_le_iff_le.mp hne')
      rw [compare_lt_iff_lt.mpr hxy, compare_lt_iff_lt.mpr hxz]
      rfl
    · rw [compare_eq_iff_eq.mpr rfl]
      rfl

end Compares

/-! ## When a sort returns -/

theorem Compares.symm (h : Compares c) : Std.Symm (Comparable c) :=
  ⟨fun a b hab => hab.elim fun o ho => ⟨o.swap, h.swap a b o ho⟩⟩

theorem less_of_comparable (h : Comparable c a b) : less c a b = .ok (isLess c a b) := by
  obtain ⟨o, ho⟩ := h
  unfold less isLess
  rw [ho]
  rfl

theorem comparable_of_less {r : Bool} (h : less c a b = .ok r) :
    Comparable c a b ∧ isLess c a b = r := by
  unfold less at h
  unfold isLess
  cases hc : c a b with
  | error e => rw [hc] at h; cases h
  | ok o =>
      rw [hc] at h
      cases h
      exact ⟨⟨o, hc⟩, rfl⟩

/-- What `Compares` says of `isLess` on elements that can be compared. -/
theorem Compares.strictWeakOn (h : Compares c) (hl : l.Pairwise (Comparable c)) :
    StrictWeakOn (isLess c) l := by
  have := h.symm
  have hall : ∀ a ∈ l, ∀ b ∈ l, a ≠ b → Comparable c a b := fun a ha b hb => hl.forall ha hb
  have hasymm : ∀ a b, isLess c a b = true → isLess c b a = false := by
    intro a b hab
    unfold isLess at hab ⊢
    cases hc : c a b with
    | error e => rw [hc] at hab; cases hab
    | ok o =>
        rw [hc] at hab
        rw [h.swap a b o hc]
        cases o <;> first | rfl | cases hab
  have hirrefl : ∀ a, isLess c a a = false := by
    intro a
    cases haa : isLess c a a with
    | false => rfl
    | true => exact haa.symm.trans (hasymm a a haa)
  have hge : ∀ {a b}, Comparable c a b → isLess c a b = false →
      ∃ o, c b a = .ok o ∧ o ≠ .gt := by
    rintro a b ⟨o, ho⟩ hn
    refine ⟨o.swap, h.swap a b o ho, ?_⟩
    unfold isLess at hn
    rw [ho] at hn
    cases o <;> first | decide | cases hn
  refine ⟨fun a _ b _ => hasymm a b, fun a ha b hb e he hab hbe => ?_⟩
  by_cases h1 : a = b
  · rwa [h1]
  by_cases h2 : b = e
  · rwa [← h2]
  by_cases h3 : a = e
  · rw [h3]
    exact hirrefl e
  obtain ⟨o, ho, hne⟩ := hge (hall a ha b hb h1) hab
  obtain ⟨o', ho', hne'⟩ := hge (hall b hb e he h2) hbe
  have hea := h.swap e a _ (h.trans e b a o' o ho' ho hne' hne)
  unfold isLess
  rw [hea]
  cases o <;> cases o' <;> first | rfl | contradiction

theorem mergeM_of_comparable (h : ∀ x ∈ xs, ∀ y ∈ ys, Comparable c y x) :
    mergeM (less c) xs ys = .ok (xs.merge ys fun a b => !isLess c b a) := by
  induction xs generalizing ys with
  | nil => rw [mergeM, List.nil_merge]
  | cons x xs ihx =>
      induction ys with
      | nil => rw [mergeM, List.merge_right]; exact fun h => by cases h
      | cons y ys ihy =>
          rw [mergeM, less_of_comparable (h x (List.mem_cons_self ..) y (List.mem_cons_self ..)),
            List.cons_merge_cons]
          have hx : mergeM (less c) xs (y :: ys) = _ :=
            ihx fun a ha b hb => h a (List.mem_cons_of_mem _ ha) b hb
          have hy := ihy fun a ha b hb => h a ha b (List.mem_cons_of_mem _ hb)
          cases hlt : isLess c y x with
          | true =>
              rw [hy]
              rfl
          | false =>
              rw [hx]
              rfl

/-- A run: no element is above a later one, and the comparison says so. -/
def Ascends (c : α → α → Except ε Ordering) (l : List α) : Prop :=
  l.Pairwise fun a b => ∃ o, c a b = .ok o ∧ o ≠ .gt

theorem Compares.ascends (h : Compares c) (hl : l.Pairwise (Comparable c)) :
    Ascends c (sortBy (isLess c) l) := by
  have := h.symm
  have hsorted := (h.strictWeakOn hl).sorted
  have hpairs : (sortBy (isLess c) l).Pairwise (Comparable c) :=
    (sortBy_perm _ l).symm.pairwise hl fun hab => this.symm _ _ hab
  refine (hsorted.and hpairs).imp fun {a b} hab => ?_
  obtain ⟨hle, o, ho⟩ := hab
  refine ⟨o, ho, ?_⟩
  unfold isLess at hle
  rw [h.swap a b o ho] at hle
  cases o <;> first | decide | cases hle

/-- What is not above the head of a run can be compared with all of it. -/
theorem Compares.before_all {o : Ordering} (h : Compares c) (ho : c a x = .ok o) (hne : o ≠ .gt)
    (hxs : Ascends c (x :: xs)) : ∀ x' ∈ x :: xs, Comparable c a x' := by
  intro x' hx'
  rcases List.mem_cons.mp hx' with rfl | hx'
  · exact ⟨o, ho⟩
  · obtain ⟨o', ho', hne'⟩ := (List.pairwise_cons.mp hxs).1 x' hx'
    exact ⟨_, h.trans a x x' o o' ho ho' hne hne'⟩

/-- While two runs are merged, the heads are compared. If one of them is less,
then whatever comes after the other one can be compared with it, too. -/
theorem comparable_of_mergeM {zs : List α} (h : Compares c) (hxs : Ascends c xs)
    (hys : Ascends c ys) (hm : mergeM (less c) xs ys = .ok zs) :
    ∀ x ∈ xs, ∀ y ∈ ys, Comparable c x y := by
  induction xs generalizing ys zs with
  | nil => intro x hx; cases hx
  | cons x xs ihx =>
      induction ys generalizing zs with
      | nil => intro _ _ y hy; cases hy
      | cons y ys ihy =>
          have hx := List.pairwise_cons.mp hxs
          have hy := List.pairwise_cons.mp hys
          rw [mergeM] at hm
          cases hlt : less c y x with
          | error e => rw [hlt] at hm; cases hm
          | ok r =>
              obtain ⟨⟨o, ho⟩, hr⟩ := comparable_of_less hlt
              unfold isLess at hr
              rw [ho] at hr
              rw [hlt] at hm
              cases r with
              | true =>
                  cases hm' : mergeM (less c) (x :: xs) ys with
                  | error e => simp only [hm'] at hm; cases hm
                  | ok ws =>
                      have hne : o ≠ .gt := by cases o <;> first | decide | cases hr
                      intro x' hx' y' hy'
                      rcases List.mem_cons.mp hy' with rfl | hy'
                      · exact h.symm.symm _ _ (h.before_all ho hne hxs x' hx')
                      · exact ihy hy.2 hm' x' hx' y' hy'
              | false =>
                  cases hm' : mergeM (less c) xs (y :: ys) with
                  | error e => simp only [hm'] at hm; cases hm
                  | ok ws =>
                      have hne : o.swap ≠ .gt := by cases o <;> first | decide | cases hr
                      intro x' hx' y' hy'
                      rcases List.mem_cons.mp hx' with rfl | hx'
                      · exact h.before_all (h.swap y x' o ho) hne hys y' hy'
                      · exact ihx hx.2 hys hm' x' hx' y' hy'

theorem sortM_of_comparable (h : Compares c) (hl : l.Pairwise (Comparable c)) :
    sortM (less c) l = .ok (sortBy (isLess c) l) := by
  induction l using sortM.induct with
  | case1 => rw [sortM, sortBy, List.mergeSort_nil]
  | case2 a => rw [sortM, sortBy, List.mergeSort_singleton]
  | case3 a b l n ihl ihr =>
      have hleft := hl.sublist (List.take_sublist n (a :: b :: l))
      have hright := hl.sublist (List.drop_sublist n (a :: b :: l))
      have hsplit : ((a :: b :: l).take n ++ (a :: b :: l).drop n).Pairwise (Comparable c) := by
        rwa [List.take_append_drop]
      have hcross := (List.pairwise_append.mp hsplit).2.2
      rw [sortM, sortBy, List.mergeSort]
      simp only [List.MergeSort.Internal.splitInTwo_fst,
        List.MergeSort.Internal.splitInTwo_snd, List.length_cons]
      change (sortM (less c) ((a :: b :: l).take n) >>= fun left => _) = _
      rw [ihl hleft, ihr hright]
      refine mergeM_of_comparable fun x hx y hy => ?_
      have hx' := (sortBy_perm _ _).mem_iff.mp hx
      have hy' := (sortBy_perm _ _).mem_iff.mp hy
      exact h.symm.symm _ _ (hcross x hx' y hy')

theorem comparable_of_sortM (h : Compares c) :
    ∀ r, sortM (less c) l = .ok r → l.Pairwise (Comparable c) := by
  induction l using sortM.induct with
  | case1 => exact fun _ _ => .nil
  | case2 a => exact fun _ _ => List.pairwise_singleton ..
  | case3 a b l n ihl ihr =>
      intro r hs
      rw [sortM] at hs
      change (sortM (less c) ((a :: b :: l).take n) >>= fun left => _) = _ at hs
      cases hleft : sortM (less c) ((a :: b :: l).take n) with
      | error e => rw [hleft] at hs; cases hs
      | ok left =>
          rw [hleft] at hs
          change (sortM (less c) ((a :: b :: l).drop n) >>= fun right => _) = _ at hs
          cases hright : sortM (less c) ((a :: b :: l).drop n) with
          | error e => rw [hright] at hs; cases hs
          | ok right =>
              rw [hright] at hs
              have hl := ihl left hleft
              have hr := ihr right hright
              have hl' := (sortM_of_comparable h hl).symm.trans hleft
              have hr' := (sortM_of_comparable h hr).symm.trans hright
              cases hl'
              cases hr'
              have hcross := comparable_of_mergeM h (h.ascends hl) (h.ascends hr) hs
              rw [← List.take_append_drop n (a :: b :: l)]
              refine List.pairwise_append.mpr ⟨hl, hr, fun x hx y hy => ?_⟩
              exact hcross x ((sortBy_perm _ _).mem_iff.mpr hx) y
                ((sortBy_perm _ _).mem_iff.mpr hy)

/-- A list sorted by a comparison that can fail is sorted by `own`. -/
theorem Compares.sortM_sorted_iff (h : Compares c) (own : α → α → Bool) (l : List α) :
    (∃ r, sortM (less c) l = .ok r ∧ r.Perm l ∧ SortedBy own r) ↔
      l.Pairwise fun a b => Comparable c a b ∧
        (own b a = true → isLess c b a = true) ∧ (own a b = true → isLess c b a = false) := by
  constructor
  · rintro ⟨r, hr, -, hown⟩
    have hl := comparable_of_sortM h r hr
    cases (sortM_of_comparable h hl).symm.trans hr
    exact hl.and (((h.strictWeakOn hl).sorted_by_iff own).mp hown)
  · intro hall
    have hl : l.Pairwise (Comparable c) := hall.imp fun hab => hab.1
    exact ⟨_, sortM_of_comparable h hl, sortBy_perm _ l,
      ((h.strictWeakOn hl).sorted_by_iff own).mpr (hall.imp fun hab => hab.2)⟩

end StableSort
