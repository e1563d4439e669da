import Mathlib.Data.List.Nodup
import Mathlib.Data.List.Perm.Basic
import Poseidon.Btree.FpTree

/-!
# What the helpers find

The selection gives the element of the rank; the binary search goes where the
separators say.
-/

namespace Poseidon

open BTree

variable {K : Type} [LinearOrder K] [BoundedOrder K]

/-! ## Selection -/

namespace ElementOfRankK

theorem swap_append (as bs cs : List K) (a b : K) :
    swap (as ++ a :: (bs ++ b :: cs)) as.length (as.length + 1 + bs.length) =
      as ++ b :: (bs ++ a :: cs) := by
  have hb : (as ++ a :: (bs ++ b :: cs)).getD (as.length + 1 + bs.length) ⊥ = b := by
    rw [List.getD_eq_getElem?_getD, List.getElem?_append_right (by omega),
      show as.length + 1 + bs.length - as.length = bs.length + 1 by omega, List.getElem?_cons_succ,
      List.getElem?_append_right (Nat.le_refl _), Nat.sub_self]
    rfl
  have ha : (as ++ a :: (bs ++ b :: cs)).getD as.length ⊥ = a := by
    rw [List.getD_eq_getElem?_getD, List.getElem?_append_right (Nat.le_refl _), Nat.sub_self]
    rfl
  rw [swap, ha, hb, List.set_append_right _ _ (Nat.le_refl _), Nat.sub_self, List.set_cons_zero,
    List.set_append_right _ _ (by omega),
    show as.length + 1 + bs.length - as.length = bs.length + 1 by omega, List.set_cons_succ,
    List.set_append_right _ _ (Nat.le_refl _), Nat.sub_self, List.set_cons_zero]

theorem swap_self (data : List K) (i : Nat) : swap data i i = data := by
  rw [swap, List.set_set]
  rcases Nat.lt_or_ge i data.length with hi | hi
  · rw [List.getD_eq_getElem?_getD, List.getElem?_eq_getElem hi, Option.getD_some,
      List.set_getElem_self]
  · rw [List.set_eq_of_length_le hi]

/-- The loop of `partition`, with `as` and `bs` done and `cs` to come: the
elements up to `x` are moved to the front. -/
theorem partitionLoop_eq (x : K) (cs rest : List K) : ∀ as bs : List K, (∀ a ∈ as, a ≤ x) →
    (∀ b ∈ bs, x < b) → ∃ as' bs', (List.range' (as.length + bs.length) cs.length).foldl
    (partitionStep x)
        (as ++ bs ++ cs ++ rest, as.length) = (as' ++ bs' ++ rest, as'.length) ∧
      (as' ++ bs').Perm (as ++ bs ++ cs) ∧ (∀ a ∈ as', a ≤ x) ∧ ∀ b ∈ bs', x < b := by
  induction cs with
  | nil =>
      intro as bs has hbs
      exact ⟨as, bs, by simp, by simp, has, hbs⟩
  | cons c cs ih =>
      intro as bs has hbs
      rw [List.length_cons, List.range'_succ, List.foldl_cons]
      have hget : (as ++ bs ++ c :: cs ++ rest).getD (as.length + bs.length) ⊥ = c := by
        rw [List.getD_eq_getElem?_getD, List.append_assoc, List.getElem?_append_right (by simp),
          List.length_append, Nat.sub_self]
        rfl
      by_cases hc : c ≤ x
      · have hstep : partitionStep x (as ++ bs ++ c :: cs ++ rest, as.length)
          (as.length + bs.length) =
            (swap (as ++ bs ++ c :: cs ++ rest) as.length (as.length + bs.length),
            as.length + 1) := by
          rw [partitionStep, hget, if_pos hc]
        rw [hstep]
        cases bs with
        | nil =>
            obtain ⟨as', bs', hfold, hperm, has', hbs'⟩ := ih (as ++ [c]) []
              (by simpa [or_imp, forall_and] using ⟨has, hc⟩) (by simp)
            refine ⟨as', bs', ?_, by simpa using hperm, has', hbs'⟩
            rw [List.length_nil, Nat.add_zero, swap_self]
            simpa using hfold
        | cons b bs =>
            obtain ⟨hb, hbs0⟩ := List.forall_mem_cons.mp hbs
            obtain ⟨as', bs', hfold, hperm, has', hbs'⟩ := ih (as ++ [c]) (bs ++ [b])
              (by simpa [or_imp, forall_and] using ⟨has, hc⟩)
              (by simpa [or_imp, forall_and] using ⟨hbs0, hb⟩)
            refine ⟨as', bs', ?_, ?_, has', hbs'⟩
            · have hswap := swap_append as bs (cs ++ rest) b c
              rw [List.length_cons, show as.length + (bs.length + 1) = as.length + 1 +
                bs.length by omega]
              rw [show as ++ b :: bs ++ c :: cs ++ rest = as ++ b ::
                (bs ++ c :: (cs ++ rest)) by simp,
                hswap]
              simpa [Nat.add_assoc, Nat.add_comm, Nat.add_left_comm] using hfold
            · refine hperm.trans ?_
              simp only [List.append_assoc, List.cons_append, List.nil_append]
              refine List.Perm.append_left as ?_
              have hout : (c :: bs ++ b :: cs).Perm (b :: (c :: bs ++ cs)) := List.perm_middle
              have hin : (bs ++ c :: cs).Perm (c :: (bs ++ cs)) := List.perm_middle
              exact hout.trans (hin.symm.cons b)
      · have hstep : partitionStep x (as ++ bs ++ c :: cs ++ rest, as.length)
          (as.length + bs.length) =
            (as ++ bs ++ c :: cs ++ rest, as.length) := by
          rw [partitionStep, hget, if_neg hc]
        rw [hstep]
        obtain ⟨as', bs', hfold, hperm, has', hbs'⟩ := ih as (bs ++ [c]) has
          (by simpa [or_imp, forall_and] using ⟨hbs, not_le.mp hc⟩)
        refine ⟨as', bs', ?_, by simpa using hperm, has', hbs'⟩
        simpa [Nat.add_assoc] using hfold

/-- The first of the elements that is `x` is moved to the end. -/
theorem swap_last {data : List K} {x : K} (hx : x ∈ data) :
    ∃ cs, swap data (firstNot (fun i => decide (data.getD i ⊥ ≠ x)) (data.length - 1))
      (data.length - 1) = cs ++ [x] ∧ (cs ++ [x]).Perm data := by
  obtain ⟨hle, hbefore, hafter⟩ :=
    firstNot_spec (fun i => decide (data.getD i ⊥ ≠ x)) (data.length - 1)
  generalize firstNot (fun i => decide (data.getD i ⊥ ≠ x)) (data.length - 1) =
    i at hle hbefore hafter ⊢
  obtain ⟨j, hj, hjx⟩ := List.getElem_of_mem hx
  have hi : i < data.length := by omega
  have hix : data[i] = x := by
    rcases Nat.lt_or_eq_of_le hle with hlt | heq
    · simpa [List.getD_eq_getElem?_getD, List.getElem?_eq_getElem hi] using hafter hlt
    · have hji : j = i := by
        by_contra hne
        have hno := hbefore j (by omega)
        simp [List.getD_eq_getElem?_getD, List.getElem?_eq_getElem hj, hjx] at hno
      subst hji
      exact hjx
  have hsplit : data = data.take i ++ x :: data.drop (i + 1) := by
    rw [← hix, List.getElem_cons_drop, List.take_append_drop]
  rcases Nat.lt_or_eq_of_le hle with hlt | heq
  · obtain ⟨mid, z, hmid⟩ : ∃ mid z, data.drop (i + 1) = mid ++ [z] := by
      have hne : data.drop (i + 1) ≠ [] := by
        intro hnil
        have hlen := congrArg List.length hnil
        simp at hlen
        omega
      exact ⟨_, _, (List.dropLast_append_getLast hne).symm⟩
    rw [hmid] at hsplit
    have hlen : (data.take i).length = i := List.length_take_of_le (Nat.le_of_lt hi)
    have hmlen : mid.length = data.length - (i + 1) - 1 := by
      have := congrArg List.length hmid
      simp at this
      omega
    refine ⟨data.take i ++ z :: mid, ?_, ?_⟩
    · have hswap := swap_append (data.take i) mid [] x z
      rw [hlen, ← hsplit, show i + 1 + mid.length = data.length - 1 by omega] at hswap
      rw [hswap]
      simp
    · conv_rhs => rw [hsplit]
      simp only [List.append_assoc, List.cons_append]
      refine List.Perm.append_left _ ?_
      have hz : (x :: (mid ++ [z])).Perm (z :: x :: mid) := List.perm_append_singleton z (x :: mid)
      have hxz : (z :: (mid ++ [x])).Perm (z :: x :: mid) :=
        (List.perm_append_singleton x mid).cons z
      exact hxz.trans hz.symm
  · have hnil : data.drop (i + 1) = [] := List.drop_eq_nil_of_le (by omega)
    rw [hnil] at hsplit
    refine ⟨data.take i, ?_, ?_⟩
    · rw [← heq, swap_self]
      exact hsplit
    · rw [← hsplit]

/-- What is not greater than `x` is in front of it afterwards, and what is
greater is behind it. -/
theorem partition_spec {data : List K} {x : K} (hx : x ∈ data) :
    ∃ as bs, partition data x = (as ++ x :: bs, as.length) ∧ (as ++ x :: bs).Perm data ∧
      (∀ a ∈ as, a ≤ x) ∧ ∀ b ∈ bs, x < b := by
  obtain ⟨cs, hswap, hperm⟩ := swap_last hx
  obtain ⟨as, bs, hloop, hperm', has, hbs⟩ := partitionLoop_eq x cs [x] [] [] (by simp) (by simp)
  have hlen : cs.length = data.length - 1 := by
    have := hperm.length_eq
    simp at this
    omega
  have hall : (as ++ x :: bs).Perm data := by
    refine List.Perm.trans ?_ hperm
    refine List.perm_middle.trans ?_
    exact (hperm'.cons x).trans (List.perm_append_singleton x cs).symm
  have hfold : (List.range (data.length - 1)).foldl (partitionStep x) (cs ++ [x], 0) =
      (as ++ bs ++ [x], as.length) := by
    rw [← hlen, List.range_eq_range']
    simpa using hloop
  have hlast : data.length - 1 = as.length + bs.length := by
    have := hperm'.length_eq
    simp at this
    omega
  rw [partition]
  simp only [hswap, hfold]
  cases bs with
  | nil =>
      refine ⟨as, [], ?_, hall, has, by simp⟩
      rw [hlast, List.length_nil, Nat.add_zero, swap_self]
      simp
  | cons b bs =>
      refine ⟨as, bs ++ [b], ?_, ?_, has, ?_⟩
      · have hback := swap_append as bs [] b x
        rw [show as.length + 1 + bs.length = data.length - 1 by simp at hlast; omega] at hback
        rw [show as ++ b :: bs ++ [x] = as ++ b :: (bs ++ [x]) by simp, hback]
      · refine List.Perm.trans (List.Perm.append_left as ?_) hall
        exact (List.perm_append_singleton b bs).cons x
      · obtain ⟨hb, hbs'⟩ := List.forall_mem_cons.mp hbs
        simpa [or_imp, forall_and] using ⟨hbs', hb⟩

omit [LinearOrder K] [BoundedOrder K] in
theorem flatten_groups (data : List K) : (groups data).flatten = data := by
  have hfront : ∀ p, ((List.range p).map fun i => (data.drop (i * 5)).take 5).flatten =
      data.take (p * 5) := by
    intro p
    induction p with
    | zero => simp
    | succ p ih =>
        rw [List.range_succ, List.map_append, List.flatten_append, ih]
        simp only [List.map_cons, List.map_nil, List.flatten_cons, List.flatten_nil,
          List.append_nil]
        rw [Nat.succ_mul, List.take_add]
  rw [groups, hfront, List.take_of_length_le (by omega)]

omit [LinearOrder K] [BoundedOrder K] in
theorem ne_nil_of_mem_groups {data g : List K} (hg : g ∈ groups data) : g ≠ [] := by
  simp only [groups, List.mem_map, List.mem_range] at hg
  obtain ⟨i, hi, rfl⟩ := hg
  intro hnil
  have hlen := congrArg List.length hnil
  simp at hlen
  omega

theorem perm_findMedian (data : List K) :
    (((groups data).map findMedian).flatMap Prod.fst).Perm data := by
  rw [List.flatMap_map]
  have hperm : ((groups data).flatMap fun g => (findMedian g).1).Perm ((groups data).flatMap id) :=
    List.Perm.flatMap_left _ fun g _ => List.perm_insertionSort _ g
  rw [List.flatMap_id, flatten_groups] at hperm
  exact hperm

theorem findMedian_mem {g : List K} (hg : g ≠ []) : (findMedian g).2 ∈ g := by
  have hlen : g.length / 2 < (g.insertionSort (· ≤ ·)).length := by
    have := List.length_pos_iff.mpr hg
    rw [(List.perm_insertionSort _ g).length_eq]
    omega
  refine (List.perm_insertionSort (· ≤ ·) g).mem_iff.mp ?_
  simp only [findMedian, List.getD_eq_getElem?_getD, List.getElem?_eq_getElem hlen,
    Option.getD_some]
  exact List.getElem_mem hlen

theorem mem_of_mem_medians {data : List K} {x : K}
    (hx : x ∈ ((groups data).map findMedian).map Prod.snd) : x ∈ data := by
  simp only [List.map_map, List.mem_map, Function.comp_apply] at hx
  obtain ⟨g, hg, rfl⟩ := hx
  rw [← flatten_groups data]
  exact List.mem_flatten.mpr ⟨g, hg, findMedian_mem (ne_nil_of_mem_groups hg)⟩

/-- The element that is found has the rank. -/
theorem elementOfRankK_spec (fuel : Nat) : ∀ (data : List K) (k : Nat), 1 ≤ k →
    k ≤ data.length → data.length ≤ fuel → ∃ x ∈ data, elementOfRankK fuel k data = some x ∧
      data.countP (· < x) < k ∧ k ≤ data.countP (· ≤ x) := by
  induction fuel with
  | zero =>
      intro data k hk hle hfuel
      omega
  | succ fuel ih =>
      intro data k hk hle hfuel
      have hmsub : ∀ x ∈ ((groups data).map findMedian).map Prod.snd, x ∈ data :=
        fun _ => mem_of_mem_medians
      have hmlen : (((groups data).map findMedian).map Prod.snd).length =
        (data.length + 4) / 5 := by
        simp [groups]
      have hperm := perm_findMedian data
      rw [elementOfRankK]
      generalize ((groups data).map findMedian).map Prod.snd = median at hmsub hmlen ⊢
      generalize ((groups data).map findMedian).flatMap Prod.fst = sorted at hperm ⊢
      -- the pivot is one of the elements
      obtain ⟨x, hx, hpivot⟩ : ∃ x ∈ data, (if median.length = 1 then some (median.getD 0 ⊥)
          else elementOfRankK fuel (median.length / 2) median) = some x := by
        split
        · next hone =>
            obtain ⟨m, rfl⟩ := List.length_eq_one_iff.mp hone
            exact ⟨m, hmsub m (by simp), rfl⟩
        · obtain ⟨x, hx, hres, -⟩ := ih median (median.length / 2) (by omega) (by omega)
            (by omega)
          exact ⟨x, hmsub x hx, hres⟩
      obtain ⟨as, bs, hpart, hall, has, hbs⟩ := partition_spec (hperm.mem_iff.mpr hx)
      have hdata := hall.trans hperm
      have hlen := hdata.length_eq
      have hcount : ∀ p : K → Bool, data.countP p = as.countP p + ((if p x then 1 else 0) +
          bs.countP p) := by
        intro p
        rw [← hdata.countP_eq, List.countP_append, List.countP_cons, Nat.add_comm (bs.countP p)]
      simp only [List.length_append, List.length_cons] at hlen
      -- the elements behind the pivot do not count below it, those before it do above it
      have hbelow : ∀ y, y ≤ x → bs.countP (· < y) = 0 ∧ bs.countP (· ≤ y) = 0 := by
        intro y hy
        rw [List.countP_eq_zero, List.countP_eq_zero]
        exact ⟨fun b hb => by simpa using le_trans hy (le_of_lt (hbs b hb)),
          fun b hb => by simpa using lt_of_le_of_lt hy (hbs b hb)⟩
      have habove : ∀ y, x < y → as.countP (· < y) = as.length ∧ as.countP (· ≤ y) = as.length := by
        intro y hy
        rw [List.countP_eq_length, List.countP_eq_length]
        exact ⟨fun a ha => by simpa using lt_of_le_of_lt (has a ha) hy,
          fun a ha => by simpa using le_trans (has a ha) (le_of_lt hy)⟩
      simp only [hpivot, Option.bind_some, hpart]
      split
      · next heq =>
          have has : as.countP (· ≤ x) = as.length :=
            List.countP_eq_length.mpr fun a ha => by simpa using has a ha
          have hlow : as.countP (· < x) ≤ as.length := List.countP_le_length
          refine ⟨x, hx, by simp, ?_, ?_⟩
          · rw [hcount, (hbelow x (le_refl x)).1]
            simp
            omega
          · rw [hcount, has, (hbelow x (le_refl x)).2]
            simp
            omega
      · next hne =>
          split
          · next hlt =>
              obtain ⟨y, hy, hres, hlow, hhigh⟩ := ih as k hk (by omega) (by omega)
              have hyx := has y hy
              refine ⟨y, hdata.mem_iff.mp (List.mem_append_left _ hy), by simpa using hres, ?_, ?_⟩
              · rw [hcount, (hbelow y hyx).1]
                simpa [not_lt.mpr hyx] using hlow
              · rw [hcount]
                omega
          · next hge =>
              obtain ⟨y, hy, hres, hlow, hhigh⟩ := ih bs (k - as.length - 1) (by omega)
                (by omega) (by omega)
              have hyx := hbs y hy
              refine ⟨y, hdata.mem_iff.mp (List.mem_append_right _
                (List.mem_cons_of_mem x hy)), ?_, ?_,
                ?_⟩
              · rw [List.drop_append, List.drop_eq_nil_of_le (by omega)]
                simpa using hres
              · rw [hcount, (habove y hyx).1, if_pos (by simpa using hyx)]
                omega
              · rw [hcount, (habove y hyx).2, if_pos (by simpa using le_of_lt hyx)]
                omega

end ElementOfRankK

omit [BoundedOrder K] in
/-- The loop of `findSplitKey` ends at a position of the key. -/
theorem foldl_splitPos {data : Nat → K} {s : K} {M : Nat} (pos : Nat)
    (h : ∃ i, i < M ∧ data i = s) :
    (List.range M).foldl (splitPosStep data s) pos < M ∧
      data ((List.range M).foldl (splitPosStep data s) pos) = s := by
  induction M with
  | zero =>
      obtain ⟨i, hi, -⟩ := h
      omega
  | succ M ih =>
      rw [List.range_succ, List.foldl_append, List.foldl_cons, List.foldl_nil, splitPosStep]
      by_cases hM : data M = s
      · rw [if_neg (by rw [hM]; exact lt_irrefl s), if_pos hM]
        exact ⟨Nat.lt_succ_self M, hM⟩
      · rw [if_neg hM, ite_self]
        obtain ⟨i, hi, his⟩ := h
        have hlt : i < M := Nat.lt_of_le_of_ne (Nat.le_of_lt_succ hi) fun heq => hM (heq ▸ his)
        obtain ⟨h1, h2⟩ := ih ⟨i, hlt, his⟩
        exact ⟨Nat.lt_succ_of_lt h1, h2⟩

omit [BoundedOrder K] in
theorem countP_le {data : List K} (hnd : data.Nodup) {x : K} (hx : x ∈ data) :
    data.countP (· ≤ x) = data.countP (· < x) + 1 := by
  have hall : ∀ data : List K, data.countP (· ≤ x) = data.countP (· < x) + data.count x := by
    intro data
    induction data with
    | nil => rfl
    | cons a data ih =>
        rw [List.countP_cons, List.countP_cons, List.count_cons, ih]
        rcases lt_trichotomy a x with hlt | rfl | hgt
        · simp [hlt, le_of_lt hlt, ne_of_lt hlt]
          omega
        · simp
          omega
        · simp [not_lt.mpr (le_of_lt hgt), not_le.mpr hgt, ne_of_gt hgt]
  rw [hall, List.count_eq_one_of_mem hnd hx]

/-- The keys are divided in the middle. -/
theorem findSplitKey_spec {M : Nat} {data : Nat → K} (hM : 2 ≤ M)
    (hinj : ∀ i j, i < M → j < M → data i = data j → i = j) :
    ∃ pos, pos < M ∧ findSplitKey M data = some (fun i => decide (data i < data pos), pos) ∧
      (List.range M).countP (fun i => decide (data i < data pos)) = (M + 1) / 2 := by
  have hnd : ((List.range M).map data).Nodup := by
    refine List.Nodup.map_on ?_ List.nodup_range
    intro i hi j hj heq
    exact hinj i j (List.mem_range.mp hi) (List.mem_range.mp hj) heq
  obtain ⟨s, hs, hres, hlow, hhigh⟩ :=
    ElementOfRankK.elementOfRankK_spec M ((List.range M).map data)
    ((M + 1) / 2 + 1) (by omega) (by simp; omega) (by simp)
  rw [countP_le hnd hs] at hhigh
  have hrank : ((List.range M).map data).countP (· < s) = (M + 1) / 2 := by omega
  rw [List.countP_map] at hrank
  rw [findSplitKey, hres]
  simp only [Option.bind_eq_bind, Option.bind_some]
  have hex : ∃ i, i < M ∧ data i = s := by simpa using hs
  obtain ⟨hlt, hval⟩ := foldl_splitPos M hex
  generalize (List.range M).foldl (splitPosStep data s) M = pos at hlt hval ⊢
  subst hval
  exact ⟨pos, hlt, rfl, hrank⟩

/-! ## Searches -/

omit [BoundedOrder K] in
/-- What is known while `binarySearch` goes on, and where it ends. -/
theorem binarySearchLoop_routes {C : Type} {b : Branch C K} {key : K} (hs : b.Sorted) (fuel : Nat) :
    ∀ {pos l r : Nat}, r - l ≤ fuel → l ≤ r → r ≤ b.numKeys → (l = r → pos = l) →
      (∀ j, j < l → b.keys j < key) → (∀ j, r ≤ j → j < b.numKeys → key < b.keys j) →
      b.Routes key (binarySearchLoop b.keys key fuel pos l r) := by
  induction fuel with
  | zero =>
      intro pos l r hfuel hle hr hpos hbelow habove
      obtain rfl : l = r := by omega
      rw [binarySearchLoop, hpos rfl]
      exact ⟨hr, fun j hj => le_of_lt (hbelow j hj), habove⟩
  | succ fuel ih =>
      intro pos l r hfuel hle hr hpos hbelow habove
      rw [binarySearchLoop]
      split
      · next hlt =>
          have hmid : l ≤ (l + (r - 1)) / 2 ∧ (l + (r - 1)) / 2 < r := by omega
          dsimp only
          generalize (l + (r - 1)) / 2 = mid at hmid ⊢
          split
          · next heq =>
              subst heq
              refine ⟨by omega, fun j hj => ?_, fun j hj hjn => ?_⟩
              · exact hs.le (Nat.le_of_lt_succ hj) (by omega)
              · exact hs mid j hj hjn
          · next hne =>
              split
              · next hless =>
                  refine ih (by omega) (by omega) hr (fun _ => rfl) (fun j hj => ?_) habove
                  exact lt_of_le_of_lt (hs.le (Nat.le_of_lt_succ hj) (by omega)) hless
              · next hge =>
                  refine ih (by omega) (by omega) (by omega)
                    (fun heq => heq.symm) hbelow fun j hj hjn => ?_
                  have hmore : key < b.keys mid := lt_of_le_of_ne (not_lt.mp hge) (Ne.symm hne)
                  exact lt_of_lt_of_le hmore (hs.le hj hjn)
      · next hge =>
          obtain rfl : l = r := by omega
          rw [hpos rfl]
          exact ⟨hr, fun j hj => le_of_lt (hbelow j hj), habove⟩

omit [BoundedOrder K] in
theorem binarySearch_routes {C : Type} (b : Branch C K) (key : K) (hs : b.Sorted) :
    b.Routes key (binarySearch b.keys b.numKeys key) :=
  binarySearchLoop_routes hs b.numKeys (Nat.le_refl _) (Nat.zero_le _) (Nat.le_refl _)
  (fun _ => rfl)
    (fun j hj => absurd hj (Nat.not_lt_zero j)) fun _ hj hlt => absurd hlt (Nat.not_lt.mpr hj)

end Poseidon
