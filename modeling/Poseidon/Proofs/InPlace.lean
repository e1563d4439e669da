import Mathlib.Data.List.GetD
import Poseidon.Btree.InPlace
import Poseidon.Proofs.Selection

/-!
# The selection on the array

The selection in place does on the cells from `start` on what the selection
does on the list of their keys, and uses no other cell. The array is
`put c start data` for any `c`: the loops are followed on the list, and an
access in front of the list or behind it would fail where `c` has no cell.
-/

namespace Poseidon

open BTree CheckedArray

namespace InPlace

variable {K : Type} [LinearOrder K] [BoundedOrder K] (c : CheckedArray K) (start : Nat)

omit [BoundedOrder K] in
theorem findMedian_put {data : List K} (hne : data ≠ []) (d : K) :
    findMedian (put c start data) start data.length =
      some ((data.insertionSort (· ≤ ·)).getD (data.length / 2) d,
        put c start (data.insertionSort (· ≤ ·))) := by
  have hlen : (data.insertionSort (· ≤ ·)).length = data.length :=
    (List.perm_insertionSort _ data).length_eq
  have hmid : data.length / 2 < (data.insertionSort (· ≤ ·)).length := by
    have := List.length_pos_iff.mpr hne
    omega
  rw [findMedian, read_put, Option.bind_eq_bind, Option.bind_some, write_put hlen,
    Option.bind_eq_bind, Option.bind_some, put_of_lt hmid, List.getElem?_eq_getElem hmid,
    List.getD_eq_getElem _ _ hmid]
  rfl

theorem swap_put {data : List K} {i j : Nat} (hi : i < data.length) (hj : j < data.length) :
    swap (put c start data) (start + i) (start + j) =
      some (put c start (ElementOfRankK.swap data i j)) := by
  rw [swap, put_of_lt hi, put_of_lt hj, List.getElem?_eq_getElem hi, List.getElem?_eq_getElem hj]
  simp only [Option.bind_eq_bind, Option.bind_some]
  rw [store_put hi, Option.bind_some, store_put (by simpa using hj), ElementOfRankK.swap,
    List.getD_eq_getElem _ _ hi, List.getD_eq_getElem _ _ hj]

omit [LinearOrder K] [BoundedOrder K] in
theorem firstNot_eq {p : Nat → Bool} {i n : Nat} (hi : i ≤ n) (hbefore : ∀ j, j < i → p j = true)
    (hat : i < n → p i = false) : firstNot p n = i := by
  obtain ⟨hle, hall, hno⟩ := firstNot_spec p n
  rcases Nat.lt_trichotomy (firstNot p n) i with hlt | heq | hgt
  · have := hno (by omega)
    rw [hbefore _ hlt] at this
    cases this
  · exact heq
  · have := hat (by omega)
    rw [hall _ hgt] at this
    cases this

/-- The first loop of `partition`, when none of the first `i` keys is `x`. -/
theorem findCell_put {data : List K} (x : K) {last : Nat} (hlast : last ≤ data.length) (n : Nat) :
    ∀ i, i + n = last → (∀ j, j < i → data.getD j ⊥ ≠ x) →
      findCell (put c start data) x n (start + i) =
        some (start + firstNot (fun j => decide (data.getD j ⊥ ≠ x)) last) := by
  induction n with
  | zero =>
      intro i hi hbefore
      rw [findCell, firstNot_eq (i := i) (by omega) (by simpa using hbefore) (by omega)]
  | succ n ih =>
      intro i hi hbefore
      have hlt : i < data.length := by omega
      have hget : data.getD i ⊥ = data[i] := List.getD_eq_getElem _ _ hlt
      rw [findCell, put_of_lt hlt, List.getElem?_eq_getElem hlt, Option.bind_eq_bind,
        Option.bind_some]
      split
      · next heq =>
          rw [firstNot_eq (i := i) (by omega) (by simpa using hbefore)
            fun _ => by rw [hget]; simp [heq]]
      · next hne =>
          refine ih (i + 1) (by omega) fun j hj => ?_
          rcases Nat.lt_or_eq_of_le (Nat.le_of_lt_succ hj) with hlt' | rfl
          · exact hbefore j hlt'
          · rwa [hget]

@[simp] theorem length_swap (data : List K) (i j : Nat) :
    (ElementOfRankK.swap data i j).length = data.length := by
  simp [ElementOfRankK.swap]

theorem partitionStep_put {data : List K} (x : K) {i j : Nat} (hi : i ≤ j) (hj : j < data.length) :
    let s := ElementOfRankK.partitionStep x (data, i) j
    partitionStep x (put c start data, start + i) (start + j) =
      some (put c start s.1, start + s.2) ∧ s.1.length = data.length ∧ s.2 ≤ j + 1 := by
  rw [partitionStep, ElementOfRankK.partitionStep]
  dsimp only
  rw [put_of_lt hj, List.getElem?_eq_getElem hj,
    List.getD_eq_getElem _ _ hj, Option.bind_eq_bind, Option.bind_some]
  split
  · rw [swap_put _ _ (by omega) hj]
    exact ⟨rfl, length_swap data i j, by omega⟩
  · exact ⟨rfl, rfl, by omega⟩

/-- The second loop of `partition`. -/
theorem partitionLoop_put (data : List K) (x : K) (n : Nat) (hn : n ≤ data.length) :
    let s := (List.range n).foldl (ElementOfRankK.partitionStep x) (data, 0)
    (List.range' start n).foldlM (partitionStep x) (put c start data, start) =
      some (put c start s.1, start + s.2) ∧ s.1.length = data.length ∧ s.2 ≤ n := by
  induction n with
  | zero => exact ⟨rfl, rfl, Nat.le_refl 0⟩
  | succ n ih =>
      obtain ⟨hrun, hlen, hle⟩ := ih (by omega)
      simp only [List.range_succ, List.range'_concat, List.foldl_append, List.foldlM_append,
        List.foldl_cons, List.foldl_nil, Nat.one_mul]
      rw [hrun]
      generalize (List.range n).foldl (ElementOfRankK.partitionStep x) (data, 0) = s at hlen hle ⊢
      obtain ⟨hstep, hlen', hle'⟩ := partitionStep_put c start x hle
        (show n < s.1.length by omega)
      rw [Option.bind_eq_bind, Option.bind_some, List.foldlM_cons, hstep]
      exact ⟨rfl, by rw [hlen', hlen], hle'⟩

theorem partition_put {data : List K} (hne : data ≠ []) (x : K) :
    partition (put c start data) start (start + data.length - 1) x =
        some (put c start (ElementOfRankK.partition data x).1,
          start + (ElementOfRankK.partition data x).2) ∧
      (ElementOfRankK.partition data x).1.length = data.length ∧
      (ElementOfRankK.partition data x).2 < data.length := by
  have hpos := List.length_pos_iff.mpr hne
  have hlast : start + data.length - 1 = start + (data.length - 1) := by omega
  have hfind := findCell_put c start x (show data.length - 1 ≤ data.length by omega)
    (data.length - 1) 0
    (by omega) (by simp)
  obtain ⟨hle, -, -⟩ := firstNot_spec (fun j => decide (data.getD j ⊥ ≠ x)) (data.length - 1)
  rw [partition, hlast, Nat.add_sub_cancel_left]
  rw [Nat.add_zero] at hfind
  rw [hfind, ElementOfRankK.partition]
  generalize firstNot (fun j => decide (data.getD j ⊥ ≠ x)) (data.length - 1) = i at hle ⊢
  obtain ⟨hloop, hlen, hsle⟩ := partitionLoop_put c start
    (ElementOfRankK.swap data i (data.length - 1)) x (data.length - 1) (by simp)
  rw [Option.bind_eq_bind, Option.bind_some, swap_put _ _ (by omega) (by omega),
    Option.bind_eq_bind,
    Option.bind_some, hloop]
  generalize (List.range (data.length - 1)).foldl (ElementOfRankK.partitionStep x)
    (ElementOfRankK.swap data i (data.length - 1), 0) = s at hlen hsle ⊢
  rw [length_swap] at hlen
  rw [Option.bind_eq_bind, Option.bind_some, swap_put _ _ (by omega) (by omega)]
  exact ⟨rfl, by rw [length_swap, hlen], by omega⟩

/-! ## Medians -/

/-- The groups from the first one on. -/
def found (data : List K) (n : Nat) : List (List K × K) :=
  (List.range n).map fun i => ElementOfRankK.findMedian ((data.drop (i * 5)).take 5)

theorem found_succ (data : List K) (n : Nat) : found data (n + 1) =
    found data n ++ [ElementOfRankK.findMedian ((data.drop (n * 5)).take 5)] := by
  rw [found, List.range_succ, List.map_append]
  rfl

theorem length_found (data : List K) {n : Nat} (h : n * 5 ≤ data.length) :
    ((found data n).flatMap Prod.fst).length = n * 5 := by
  induction n with
  | zero => rfl
  | succ n ih =>
      have hsort := (List.perm_insertionSort (· ≤ ·) ((data.drop (n * 5)).take 5)).length_eq
      rw [found_succ, List.flatMap_append, List.length_append, ih (by omega)]
      simp only [List.flatMap_cons, List.flatMap_nil, List.append_nil, ElementOfRankK.findMedian]
      rw [hsort, List.length_take, List.length_drop]
      omega

/-- The next group is sorted where it is. -/
theorem medianStep_put {data : List K} {n m : Nat} (hn : n * 5 + m ≤ data.length) (hm : 0 < m)
    (hm5 : ((data.drop (n * 5)).take 5).length = m) :
    medianStep start m ((found data n).map Prod.snd,
        put c start ((found data n).flatMap Prod.fst ++ data.drop (n * 5))) n =
      some ((found data (n + 1)).map Prod.snd,
        put c start ((found data (n + 1)).flatMap Prod.fst ++ data.drop (n * 5 + m))) := by
  have hlen := length_found data (show n * 5 ≤ data.length by omega)
  have hsort := (List.perm_insertionSort (· ≤ ·) ((data.drop (n * 5)).take 5)).length_eq
  have hdrop : data.drop (n * 5) = (data.drop (n * 5)).take 5 ++ data.drop (n * 5 + m) := by
    rw [List.length_take] at hm5
    rw [← List.drop_drop, List.take_eq_take_min, hm5, List.take_append_drop]
  have hne : (data.drop (n * 5)).take 5 ≠ [] := by
    intro hnil
    rw [hnil, List.length_nil] at hm5
    omega
  rw [found_succ, List.map_append, List.flatMap_append, List.append_assoc, medianStep]
  conv_lhs => rw [hdrop]
  generalize (found data n).flatMap Prod.fst = as at hlen ⊢
  have hstart : start + n * 5 = start + as.length := by rw [hlen]
  dsimp only
  rw [put_around, hstart, hm5, ← hm5, findMedian_put _ _ hne ⊥]
  simp only [List.map_cons, List.map_nil, List.flatMap_cons, List.flatMap_nil, List.append_nil,
    ElementOfRankK.findMedian]
  rw [put_around, hsort]
  rfl

theorem medians_put (data : List K) :
    medians (put c start data) start data.length =
      some (((ElementOfRankK.groups data).map ElementOfRankK.findMedian).map Prod.snd,
        put c start (((ElementOfRankK.groups data).map ElementOfRankK.findMedian).flatMap
        Prod.fst)) := by
  have hgroups : (ElementOfRankK.groups data).map ElementOfRankK.findMedian =
      found data ((data.length + 4) / 5) := by
    rw [ElementOfRankK.groups, List.map_map]
    rfl
  have hloop : ∀ n, n * 5 ≤ data.length →
      (List.range n).foldlM (medianStep start 5) ([], put c start data) =
        some ((found data n).map Prod.snd,
          put c start ((found data n).flatMap Prod.fst ++ data.drop (n * 5))) := by
    intro n
    induction n with
    | zero =>
        intro _
        rfl
    | succ n ih =>
        intro hn
        rw [List.range_succ, List.foldlM_append, ih (by omega), Option.bind_eq_bind,
          Option.bind_some,
          List.foldlM_cons, medianStep_put _ _ (by omega) (by omega) (by simp; omega), Nat.succ_mul]
        rfl
  rw [medians, hloop _ (Nat.div_mul_le_self _ _), hgroups, Option.bind_eq_bind, Option.bind_some]
  split
  · next hlt =>
      rw [medianStep_put _ _ (by omega) (by omega) (by simp; omega),
        show (data.length + 4) / 5 = data.length / 5 + 1 by omega,
        List.drop_eq_nil_of_le (by omega), List.append_nil]
  · next hge =>
      rw [show (data.length + 4) / 5 = data.length / 5 by omega, List.drop_eq_nil_of_le (by omega),
        List.append_nil]
      rfl

/-! ## Selection -/

/-- What the selection on the list finds is found in the array, whose keys are
permuted. -/
theorem elementOfRankK_refines (fuel : Nat) : ∀ (c : CheckedArray K) (start k : Nat)
    (data : List K),
    1 ≤ k → k ≤ data.length → start + data.length ≤ 2 ^ 64 → data.length ≤ fuel →
      ∃ x ys, ElementOfRankK.elementOfRankK fuel k data = some x ∧ ys.Perm data ∧
        elementOfRankK fuel k (put c start data) start data.length = some (x, put c start ys) := by
  induction fuel with
  | zero =>
      intro c start k data hk hle hsize hfuel
      omega
  | succ fuel ih =>
      intro c start k data hk hle hsize hfuel
      have hmsub : ∀ x ∈ ((ElementOfRankK.groups data).map ElementOfRankK.findMedian).map Prod.snd,
          x ∈ data := fun _ => ElementOfRankK.mem_of_mem_medians
      have hmlen : (((ElementOfRankK.groups data).map ElementOfRankK.findMedian).map
          Prod.snd).length = (data.length + 4) / 5 := by
        simp [ElementOfRankK.groups]
      have hperm := ElementOfRankK.perm_findMedian data
      rw [elementOfRankK, medians_put, ElementOfRankK.elementOfRankK, Option.bind_eq_bind,
        Option.bind_some]
      generalize ((ElementOfRankK.groups data).map ElementOfRankK.findMedian).map Prod.snd = median
        at hmsub hmlen ⊢
      generalize ((ElementOfRankK.groups data).map ElementOfRankK.findMedian).flatMap
        Prod.fst = sorted
        at hperm ⊢
      obtain ⟨x, hx, hlist, harray⟩ : ∃ x ∈ data, (if median.length = 1 then some (median.getD 0 ⊥)
          else ElementOfRankK.elementOfRankK fuel (median.length / 2) median) = some x ∧
          (if median.length = 1 then median[0]? else (elementOfRankK fuel (median.length / 2)
            (.ofList median) 0 median.length).map Prod.fst) = some x := by
        by_cases hone : median.length = 1
        · obtain ⟨m, rfl⟩ := List.length_eq_one_iff.mp hone
          exact ⟨m, hmsub m (by simp), rfl, rfl⟩
        · obtain ⟨x, ys, hres, -, hrun⟩ := ih (fun _ => none) 0 (median.length / 2) median
            (by omega) (by omega) (by omega) (by omega)
          obtain ⟨y, hy, hres', -⟩ := ElementOfRankK.elementOfRankK_spec fuel median
            (median.length / 2) (by omega) (by omega) (by omega)
          obtain rfl : x = y := Option.some.inj (hres.symm.trans hres')
          rw [if_neg hone, if_neg hone, ofList, hrun]
          exact ⟨x, hmsub x hy, hres, rfl⟩
      have hne : sorted ≠ [] := by
        rintro rfl
        have := hperm.length_eq
        rw [List.length_nil] at this
        omega
      obtain ⟨as, bs, hpart, hall, -, -⟩ := ElementOfRankK.partition_spec (hperm.mem_iff.mpr hx)
      obtain ⟨hrun, -, -⟩ := partition_put c start hne x
      have hdata := hall.trans hperm
      have hlen := hdata.length_eq
      rw [List.length_append, List.length_cons] at hlen
      rw [hpart, hperm.length_eq] at hrun
      simp only [hlist, hpart, harray, hrun, Option.bind_eq_bind, Option.bind_some,
        Nat.add_sub_cancel_left]
      split
      · next heq =>
          have hget : put c start (as ++ x :: bs) (start + as.length) = some x := by
            rw [put_of_lt (by simp), List.getElem?_append_right (Nat.le_refl _), Nat.sub_self]
            rfl
          rw [hget]
          exact ⟨x, as ++ x :: bs, by simp, hdata, rfl⟩
      · next hne =>
          split
          · next hlt =>
              have haround : put c start (as ++ x :: bs) =
                  put (around c start [] as.length (x :: bs)) start as := put_around [] _
              obtain ⟨y, ys, hres, hys, hrec⟩ := ih (around c start [] as.length (x :: bs)) start k
                as hk (by omega) (by omega) (by omega)
              have hback : put (around c start [] as.length (x :: bs)) start ys =
                  put c start (ys ++ x :: bs) := by
                rw [← hys.length_eq]
                exact (put_around [] _).symm
              rw [haround, hrec, hback, List.take_left]
              exact ⟨y, _, hres, (hys.append_right _).trans hdata, rfl⟩
          · next hge =>
              have hlist' : as ++ x :: bs = as ++ [x] ++ (bs ++ []) := by simp
              have hstart : start + as.length + 1 = start + (as ++ [x]).length := by simp; omega
              have hk' : (k + (2 ^ 64 - (start + as.length)) + start + (2 ^ 64 - 1)) % 2 ^ 64 =
                  k - as.length - 1 := by omega
              have hrest : start + data.length - 1 - (start + as.length) = bs.length := by omega
              have hdrop : (as ++ x :: bs).drop (as.length + 1) = bs := by
                rw [List.drop_append, List.drop_eq_nil_of_le (by omega)]
                simp
              obtain ⟨y, ys, hres, hys, hrec⟩ := ih (around c start (as ++ [x]) bs.length [])
                (start + (as ++ [x]).length) (k - as.length - 1) bs (by omega)
                (by omega) (by simp; omega) (by omega)
              have hback : put (around c start (as ++ [x]) bs.length [])
                (start + (as ++ [x]).length) ys =
                  put c start (as ++ [x] ++ (ys ++ [])) := by
                rw [← hys.length_eq]
                exact (put_around _ _).symm
              rw [hk', hrest, hstart, hdrop, hlist', put_around, hrec, hback]
              refine ⟨y, _, hres, List.Perm.trans ?_ hdata, rfl⟩
              rw [hlist']
              exact (hys.append_right []).append_left (as ++ [x])

omit [BoundedOrder K] in
/-- The element of a rank is where the sorted list has it. -/
theorem getElem?_sorted {data : List K} {x : K} {k : Nat} (hk : 1 ≤ k)
    (hlow : data.countP (· < x) < k)
    (hhigh : k ≤ data.countP (· ≤ x)) : (data.insertionSort (· ≤ ·))[k - 1]? = some x := by
  have hperm := List.perm_insertionSort (· ≤ ·) data
  have hsort := List.pairwise_insertionSort (· ≤ ·) data
  rw [← hperm.countP_eq] at hlow hhigh
  generalize data.insertionSort (· ≤ ·) = sorted at hsort hlow hhigh ⊢
  have hlen : k - 1 < sorted.length := by
    have := List.countP_le_length (p := fun a => decide (a ≤ x)) (l := sorted)
    omega
  have hsplit : sorted = sorted.take (k - 1) ++ sorted[k - 1] :: sorted.drop (k - 1 + 1) := by
    rw [List.getElem_cons_drop, List.take_append_drop]
  have htake : (sorted.take (k - 1)).length = k - 1 := List.length_take_of_le (Nat.le_of_lt hlen)
  rw [List.getElem?_eq_getElem hlen]
  generalize sorted[k - 1] = y at hsplit ⊢
  rw [hsplit, List.pairwise_append, List.pairwise_cons] at hsort
  obtain ⟨-, ⟨hrest, -⟩, hfront⟩ := hsort
  rw [hsplit, List.countP_append, List.countP_cons] at hlow hhigh
  rcases lt_trichotomy y x with hlt | rfl | hgt
  · -- then `k` elements are below `x`
    have hall : (sorted.take (k - 1)).countP (· < x) = (sorted.take (k - 1)).length := by
      rw [List.countP_eq_length]
      intro a ha
      simpa using lt_of_le_of_lt (hfront a ha y List.mem_cons_self) hlt
    rw [hall, htake, if_pos (by simpa using hlt)] at hlow
    omega
  · rfl
  · -- then `k - 1` elements at most are up to `x`
    have hnone : (sorted.drop (k - 1 + 1)).countP (· ≤ x) = 0 := by
      rw [List.countP_eq_zero]
      intro a ha
      simpa using lt_of_lt_of_le hgt (hrest a ha)
    have hfew := List.countP_le_length (p := fun a => decide (a ≤ x)) (l := sorted.take (k - 1))
    rw [hnone, if_neg (by simpa using hgt)] at hhigh
    omega

/-! ## The split key -/

omit [BoundedOrder K] in
theorem foldl_splitStep (data : Nat → K) (s : K) (pos m : Nat) :
    (List.range m).foldl (splitStep data s) (fun _ => false, pos) =
      (fun i => decide (i < m ∧ data i < s), (List.range m).foldl (splitPosStep data s) pos) := by
  induction m with
  | zero => simp
  | succ m ih =>
      rw [List.range_succ, List.foldl_append, List.foldl_append, ih, List.foldl_cons,
        List.foldl_nil,
        List.foldl_cons, List.foldl_nil, splitStep, splitPosStep]
      by_cases hm : data m < s
      · rw [if_pos hm, if_pos hm]
        congr 1
        funext i
        by_cases hi : i = m
        · subst hi
          simp [hm]
        · rw [Function.update_of_ne hi]
          simp [show i < m + 1 ↔ i < m by omega]
      · have hbits : (fun i => decide (i < m ∧ data i < s)) =
            fun i => decide (i < m + 1 ∧ data i < s) := by
          funext i
          by_cases hi : i = m
          · subst hi
            simp [hm]
          · simp [show i < m + 1 ↔ i < m by omega]
        rw [if_neg hm, if_neg hm, ← hbits]
        by_cases heq : data m = s
        · rw [if_pos heq, if_pos heq]
        · rw [if_neg heq, if_neg heq]

omit [BoundedOrder K] in
/-- A counter that reaches `M` takes the loop through all positions. -/
theorem splitLoop_ends {M : Nat} (hM : M < 2 ^ 32) (data : Nat → K) (x : K) (n : Nat) :
    ∀ (i : Nat) (s : (Nat → Bool) × Nat), i + n = M →
      splitLoop M data x (n + 1) i s = some ((List.range' i n).foldl (splitStep data x) s) := by
  induction n with
  | zero =>
      intro i s hi
      rw [splitLoop, if_neg (by omega)]
      rfl
  | succ n ih =>
      intro i s hi
      rw [splitLoop, if_pos (by omega), Nat.mod_eq_of_lt (by omega), ih _ _ (by omega),
        List.range'_succ, List.foldl_cons]

omit [BoundedOrder K] in
/-- A counter of 32 bits never reaches a larger `M`. -/
theorem splitLoop_never {M : Nat} (hM : 2 ^ 32 ≤ M) (data : Nat → K) (x : K) (fuel : Nat) :
    ∀ (i : Nat) (s : (Nat → Bool) × Nat), i < 2 ^ 32 → splitLoop M data x fuel i s = none := by
  induction fuel with
  | zero => intro i s hi; rfl
  | succ fuel ih =>
      intro i s hi
      rw [splitLoop, if_pos (by omega)]
      exact ih _ _ (Nat.mod_lt _ (by decide))

/-- The selection in the copy of the keys. -/
theorem findSplitKey_eq {M : Nat} (data : Nat → K) (hM : 2 ≤ M) (hsize : M < 2 ^ 64) :
    ∃ x, ElementOfRankK.elementOfRankK M ((M + 1) / 2 + 1) ((List.range M).map data) = some x ∧
      ∀ fuel, findSplitKey fuel M data = splitLoop M data x fuel 0 (fun _ => false, M) := by
  obtain ⟨x, ys, hlist, -, hrun⟩ := elementOfRankK_refines M (fun _ => none) 0 ((M + 1) / 2 + 1)
    ((List.range M).map data) (by omega) (by simp; omega)
    (by simp; omega) (by simp)
  rw [List.length_map, List.length_range] at hrun
  refine ⟨x, hlist, fun fuel => ?_⟩
  rw [findSplitKey, ofList, hrun]
  rfl

/-- With few enough keys, the split key is the one that the selection on the
list finds. -/
theorem findSplitKey_refines {M : Nat} {data : Nat → K} (hM : 2 ≤ M) (hsize : M < 2 ^ 32) :
    findSplitKey (M + 1) M data =
      (Poseidon.findSplitKey M data).map fun r => (fun i => decide (i < M) && r.1 i, r.2) := by
  obtain ⟨x, hlist, hrun⟩ := findSplitKey_eq data hM (Nat.lt_trans hsize (by decide))
  rw [hrun, splitLoop_ends hsize data x M 0 _ (Nat.zero_add M), Poseidon.findSplitKey, hlist,
    ← List.range_eq_range', foldl_splitStep]
  simp only [Option.bind_eq_bind, Option.bind_some, Option.pure_def, Option.map_some,
    Bool.decide_and]

/-- The loop of `findSplitKey` does not end for more keys than its counter can
count. -/
theorem findSplitKey_never {M : Nat} {data : Nat → K} (hM : 2 ^ 32 ≤ M) (hsize : M < 2 ^ 64)
    (fuel : Nat) : findSplitKey fuel M data = none := by
  obtain ⟨x, -, hrun⟩ := findSplitKey_eq data (by omega) hsize
  rw [hrun]
  exact splitLoop_never hM data x fuel 0 _ (by decide)

/-- Wherever the keys are in an array, with whatever cells around them, the
selection ends with the key of the rank, and leaves the keys in another order.
The smaller half of the keys is marked, and the split key found, if and only if
32 bits count the keys. -/
theorem elementOfRankK_selects_iff :
    (∀ (fuel k start : Nat) (c : CheckedArray K) (keys : List K), 1 ≤ k → k ≤ keys.length →
      start + keys.length ≤ 2 ^ 64 → keys.length ≤ fuel →
      ∃ x keys', elementOfRankK fuel k (put c start keys) start keys.length =
          some (x, put c start keys') ∧
        keys'.Perm keys ∧ (keys.insertionSort (· ≤ ·))[k - 1]? = some x) ∧
    ∀ (M : Nat) (data : Nat → K), 2 ≤ M → M < 2 ^ 64 →
      (∀ i j, i < M → j < M → data i = data j → i = j) →
      ((∃ fuel bits pos, findSplitKey fuel M data = some (bits, pos) ∧
        (List.range M).countP bits = (M + 1) / 2 ∧
        (∀ i j, i < M → j < M → bits i = true → bits j = false → data i < data j) ∧
        pos < M ∧ bits pos = false ∧ ∀ j, j < M → bits j = false → data pos ≤ data j) ↔
      M < 2 ^ 32) := by
  constructor
  · intro fuel k start c keys hk hle hsize hfuel
    obtain ⟨x, keys', hlist, hperm, hrun⟩ :=
      elementOfRankK_refines fuel c start k keys hk hle hsize hfuel
    obtain ⟨y, -, hlist', hlow, hhigh⟩ :=
      ElementOfRankK.elementOfRankK_spec fuel keys k hk hle hfuel
    obtain rfl : x = y := Option.some.inj (hlist.symm.trans hlist')
    exact ⟨x, keys', hrun, hperm, getElem?_sorted hk hlow hhigh⟩
  · intro M data hM hsize hinj
    constructor
    · rintro ⟨fuel, bits, pos, hrun, -⟩
      by_contra hlarge
      rw [findSplitKey_never (not_lt.mp hlarge) hsize] at hrun
      cases hrun
    · intro hsmall
      obtain ⟨pos, hpos, hsplit, hcount⟩ := findSplitKey_spec hM hinj
      refine ⟨M + 1, ?_⟩
      rw [findSplitKey_refines hM hsmall, hsplit]
      refine ⟨_, pos, rfl, ?_, ?_, hpos, by simp, ?_⟩
      · rw [← hcount]
        refine List.countP_congr fun i hi => ?_
        simp [List.mem_range.mp hi]
      · intro i j hi hj hbi hbj
        simp only [Bool.and_eq_true, decide_eq_true_eq, hj, decide_true, Bool.true_and,
          decide_eq_false_iff_not, not_lt] at hbi hbj
        exact lt_of_lt_of_le hbi.2 hbj
      · intro j hj hbj
        simpa [hj] using hbj

/-- Three keys of an array that has no other cells, two of them equal, and a
full node of three. -/
theorem elementOfRankK_selects_three :
    (∃ x keys', elementOfRankK 3 2 (put (fun _ => none) 5 [4, 1, (4 : Fin 8)]) 5 3 =
        some (x, put (fun _ => none) 5 keys') ∧
      keys'.Perm [4, 1, 4] ∧ ([4, 1, (4 : Fin 8)].insertionSort (· ≤ ·))[2 - 1]? = some x) ∧
    ∃ fuel bits pos, findSplitKey fuel 3 (fun i => [6, 2, (3 : Fin 8)].getD i 0) =
    some (bits, pos) ∧
      (List.range 3).countP bits = (3 + 1) / 2 ∧ pos < 3 := by
  have hne : ∀ i j : Fin 3, [6, 2, (3 : Fin 8)].getD i 0 =
    [6, 2, (3 : Fin 8)].getD j 0 → i = j := by
    decide
  obtain ⟨fuel, bits, pos, hrun, hcount, -, hpos, -⟩ :=
    ((elementOfRankK_selects_iff (K := Fin 8)).2 3
    (fun i => [6, 2, (3 : Fin 8)].getD i 0) (by decide) (by decide)
    fun i j hi hj heq => congrArg Fin.val (hne ⟨i, hi⟩ ⟨j, hj⟩ heq)).mpr (by decide)
  exact ⟨(elementOfRankK_selects_iff (K := Fin 8)).1 3 2 5 (fun _ => none) [4, 1, 4] (by decide)
    (by decide) (by decide) (by decide), fuel, bits, pos, hrun, hcount, hpos⟩

/-- For a leaf of `2 ^ 32` different keys the loop does not end. -/
theorem findSplitKey_does_not_end :
    (∀ i j, i < 2 ^ 32 → j < 2 ^ 32 → Fin.ofNat (2 ^ 64) i = Fin.ofNat (2 ^ 64) j → i = j) ∧
    ∀ fuel, findSplitKey fuel (2 ^ 32) (fun i => Fin.ofNat (2 ^ 64) i) = none := by
  refine ⟨fun i j hi hj heq => ?_, findSplitKey_never (Nat.le_refl _) (by decide)⟩
  have hval := congrArg Fin.val heq
  simp only [Fin.val_ofNat] at hval
  omega

end InPlace

end Poseidon
