import Mathlib.Data.Fintype.Card
import Poseidon.Btree.FpTree
import Poseidon.Btree.InPlace
import Poseidon.Proofs.Selection

/-!
# The binary search counts the smaller keys

Every iteration leaves the position between the fences: the keys in front of
the left one are smaller than the key, those behind the right one are greater,
and when they cross the position is where they do. The keys are in the cells
from `base` on.
-/

namespace Poseidon

open BTree CheckedArray

namespace InPlace

variable {K : Type} [LinearOrder K]

/-! ## Arithmetic -/

theorem midpoint_eq {l r : Nat} (hlt : l < r) (hsize : l + r ≤ 2 ^ 31) :
    midpoint l (r - 1) = some ((l + (r - 1)) / 2) := by
  have hsum : (l : Int) + (r - 1) = ((l + (r - 1) : Nat) : Int) := by omega
  rw [midpoint, hsum, if_pos (by omega), Option.some.injEq, ← Int.ofNat_two, ← Int.ofNat_tdiv]
  omega

theorem toInt_of_lt {n : Nat} (h : n < 2 ^ 31) : toInt n = n :=
  Int.bmod_eq_of_le_mul_two (by omega) (by omega)

/-- The position 0 has the one in front of it. -/
theorem toInt_pred {n : Nat} (h : n ≤ 2 ^ 31) : toInt ((n + (2 ^ 32 - 1)) % 2 ^ 32) = n - 1 := by
  cases n with
  | zero => decide
  | succ n =>
      rw [show (n + 1 + (2 ^ 32 - 1)) % 2 ^ 32 = n by omega, toInt_of_lt (by omega)]
      omega

/-! ## Counting -/

section

variable {xs : List K} {key : K} {a : Nat}

omit [LinearOrder K] in
theorem countP_front {p : K → Bool} (ha : a ≤ xs.length) (hfront : ∀ x ∈ xs.take a, p x = true)
    (hback : ∀ x ∈ xs.drop a, p x = false) : xs.countP p = a := by
  have hall : (xs.take a).countP p = a := by
    rw [List.countP_eq_length.mpr hfront, List.length_take_of_le ha]
  have hnone : (xs.drop a).countP p = 0 := by
    rw [List.countP_eq_zero]
    intro x hx
    rw [hback x hx]
    decide
  rw [← List.take_append_drop a xs, List.countP_append, hall, hnone, Nat.add_zero]

/-- The keys in front of position `a` are smaller, those behind it greater. -/
structure Crossed (xs : List K) (key : K) (a b : Nat) : Prop where
  below : ∀ x ∈ xs.take a, x < key
  above : ∀ x ∈ xs.drop b, key < x

/-- The number that the search is for. -/
def number (isBranch : Bool) (xs : List K) (key : K) : Nat :=
  if isBranch then xs.countP (· ≤ key) else xs.countP (· < key)

theorem Crossed.number (h : Crossed xs key a a) (ha : a ≤ xs.length) (isBranch : Bool) :
    number isBranch xs key = a := by
  cases isBranch with
  | false =>
      exact countP_front ha (fun x hx => decide_eq_true (h.below x hx))
        fun x hx => decide_eq_false (lt_asymm (h.above x hx))
  | true =>
      exact countP_front ha (fun x hx => decide_eq_true (le_of_lt (h.below x hx)))
        fun x hx => decide_eq_false (not_le.mpr (h.above x hx))

/-- The key at a position has the number of keys in front of it. -/
theorem number_getElem (hs : xs.Pairwise (· < ·)) (ha : a < xs.length) (isBranch : Bool) :
    number isBranch xs xs[a] = if isBranch then a + 1 else a := by
  have hsplit : xs = xs.take a ++ xs[a] :: xs.drop (a + 1) := by
    rw [List.getElem_cons_drop, List.take_append_drop]
  have hord := hs
  rw [hsplit, List.pairwise_append, List.pairwise_cons] at hord
  obtain ⟨-, ⟨hback, -⟩, hfront⟩ := hord
  have hlow : ∀ x ∈ xs.take a, x < xs[a] := fun x hx => hfront x hx _ List.mem_cons_self
  cases isBranch with
  | false =>
      change xs.countP (· < xs[a]) = a
      refine countP_front (Nat.le_of_lt ha) (fun x hx => decide_eq_true (hlow x hx)) fun x hx => ?_
      rw [← List.getElem_cons_drop ha, List.mem_cons] at hx
      rcases hx with rfl | hx
      · exact decide_eq_false (lt_irrefl _)
      · exact decide_eq_false (lt_asymm (hback x hx))
  | true =>
      change xs.countP (· ≤ xs[a]) = a + 1
      refine countP_front ha (fun x hx => ?_) fun x hx => decide_eq_false (not_le.mpr (hback x hx))
      rw [List.take_add_one, List.mem_append, List.getElem?_eq_getElem ha] at hx
      rcases hx with hx | hx
      · exact decide_eq_true (le_of_lt (hlow x hx))
      · rw [List.mem_singleton.mp hx]
        exact decide_eq_true (le_refl _)

/-- The left fence moves behind a smaller key. -/
theorem Crossed.right {b : Nat} (h : Crossed xs key a b) (hs : xs.Pairwise (· < ·)) {m : Nat}
    (hm : m < xs.length) (hlt : xs[m] < key) : Crossed xs key (m + 1) b := by
  refine ⟨fun x hx => ?_, h.above⟩
  obtain ⟨i, hi, rfl⟩ := List.mem_take_iff_getElem.mp hx
  rcases Nat.lt_or_eq_of_le (show i ≤ m by omega) with him | rfl
  · exact lt_trans (List.pairwise_iff_getElem.mp hs i m (by omega) hm him) hlt
  · exact hlt

/-- The right fence moves in front of a greater key. -/
theorem Crossed.left {b : Nat} (h : Crossed xs key a b) (hs : xs.Pairwise (· < ·)) {m : Nat}
    (hm : m < xs.length) (hlt : key < xs[m]) : Crossed xs key a m := by
  refine ⟨h.below, fun x hx => ?_⟩
  obtain ⟨i, hi, rfl⟩ := List.mem_drop_iff_getElem.mp hx
  cases i with
  | zero => exact hlt
  | succ i =>
      have hlater := List.pairwise_iff_getElem.mp hs m (m + (i + 1)) hm (by omega) (by omega)
      exact lt_trans hlt hlater

end

/-! ## The loop -/

variable {xs : List K} {cells : CheckedArray K}

/-- The loop, from position `a` up to, but not including, `b`, and with the
positions counted from `base` on. -/
theorem searchLoop_eq (isBranch : Bool) (cells : CheckedArray K) (key : K) (base : Nat)
    (hs : xs.Pairwise (· < ·))
    (hcells : ∀ i, i < xs.length → cells (base + i) = xs[i]?) (hsize : base + xs.length ≤ 2 ^ 30)
    (fuel : Nat) : ∀ (pos a b : Nat), b - a ≤ fuel → a ≤ b → b ≤ xs.length → Crossed xs key a b →
      (a = b → pos = base + a) →
      searchLoop isBranch cells key fuel pos ((base + a : Nat) : Int)
      (((base + b : Nat) : Int) - 1) =
        some (base + number isBranch xs key) := by
  induction fuel with
  | zero =>
      intro pos a b hfuel hab hb h hpos
      obtain rfl : a = b := by omega
      rw [searchLoop, if_neg (by omega), hpos rfl, h.number hb]
  | succ fuel ih =>
      intro pos a b hfuel hab hb h hpos
      rw [searchLoop]
      rcases Nat.lt_or_eq_of_le hab with hlt | rfl
      · have hmid : ∃ m, (base + a + (base + b - 1)) / 2 = base + m ∧ a ≤ m ∧ m < b :=
          ⟨(base + a + (base + b - 1)) / 2 - base, by omega, by omega, by omega⟩
        obtain ⟨m, hm, ham, hmb⟩ := hmid
        have hmx : m < xs.length := by omega
        rw [if_pos (by omega), midpoint_eq (by omega) (by omega), hm, Option.bind_eq_bind,
          Option.bind_some, hcells m hmx, List.getElem?_eq_getElem hmx, Option.bind_eq_bind,
          Option.bind_some]
        split
        · next heq =>
            subst heq
            rw [number_getElem hs hmx]
            cases isBranch <;> rfl
        · next hne =>
            split
            · next hless =>
                rw [toInt_of_lt (by omega)]
                exact ih _ (m + 1) b (by omega) (by omega) hb (h.right hs hmx hless) fun _ => rfl
            · next hge =>
                have hgt := lt_of_le_of_ne (not_lt.mp hge) (Ne.symm hne)
                rw [toInt_pred (by omega)]
                exact ih _ a m (by omega) (by omega) (by omega) (h.left hs hmx hgt) fun heq => by
                  rw [heq]
      · rw [if_neg (by omega), hpos rfl, h.number hb]

theorem midpoint_overflows {l r : Nat} (h : 2 ^ 31 < l + r) : midpoint l (r - 1) = none := by
  rw [midpoint, if_neg (by omega)]

/-- The way to the last one of more than `2 ^ 30` keys leaves the range of
`int`. -/
theorem searchLoop_overflows (isBranch : Bool) (hs : xs.Pairwise (· < ·))
    (hcells : ∀ i, i < xs.length → cells i = xs[i]?) (hlarge : 2 ^ 30 < xs.length)
    (hsize : xs.length ≤ 2 ^ 31) (fuel : Nat) : ∀ (pos a : Nat), a < xs.length →
      searchLoop isBranch cells (xs[xs.length - 1]) fuel pos a ((xs.length : Int) - 1) = none := by
  induction fuel with
  | zero =>
      intro pos a ha
      rw [searchLoop, if_pos (by omega)]
  | succ fuel ih =>
      intro pos a ha
      rw [searchLoop, if_pos (by omega)]
      rcases Nat.lt_or_ge (2 ^ 31) (a + xs.length) with hover | hle
      · rw [midpoint_overflows hover]
        rfl
      · have hmid : (a + (xs.length - 1)) / 2 < xs.length - 1 := by omega
        have hmx : (a + (xs.length - 1)) / 2 < xs.length := by omega
        have hless : xs[(a + (xs.length - 1)) / 2] < xs[xs.length - 1] :=
          List.pairwise_iff_getElem.mp hs _ _ _ _ hmid
        rw [midpoint_eq ha hle, Option.bind_eq_bind, Option.bind_some, hcells _ hmx,
          List.getElem?_eq_getElem hmx, Option.bind_eq_bind, Option.bind_some,
          if_neg (ne_of_lt hless),
          if_pos hless, toInt_of_lt (by omega)]
        exact ih _ _ (by omega)

omit [LinearOrder K] in
theorem put_zero (c : CheckedArray K) : ∀ i, i < xs.length → put c 0 xs i = xs[i]? := by
  intro i hi
  rw [← Nat.zero_add i, put_of_lt hi, Nat.zero_add]

theorem binarySearch_eq (isBranch : Bool) (c : CheckedArray K) (hs : xs.Pairwise (· < ·))
    (hsize : xs.length ≤ 2 ^ 30) (key : K) :
    binarySearch isBranch (put c 0 xs) 0 (xs.length - 1) key = some (number isBranch xs key) := by
  have hloop := searchLoop_eq isBranch (put c 0 xs) key 0 hs
    (fun i hi => by rw [Nat.zero_add, put_zero c i hi]) (by omega) xs.length 0 0 xs.length
    (by omega) (by omega) (Nat.le_refl _) ⟨by simp, by simp⟩ fun _ => rfl
  rw [binarySearch, show ((xs.length : Int) - 1 - 0 + 1).toNat = xs.length by omega]
  simpa using hloop

theorem lookupPositionInBranchNode_eq (keys : CheckedArray K) {num : Nat}
    (h : num ≤ 2 ^ 31) (key : K) :
    lookupPositionInBranchNode keys num key = binarySearch true keys 0 (num - 1) key := by
  rw [lookupPositionInBranchNode, toInt_pred h]

/-- The slots have eight bits, so that no range is too large. -/
theorem length_slots {slots : List (Fin 256)} {keys : CheckedArray K} (hs : xs.Pairwise (· < ·))
    (hkeys : slots.map (fun slot : Fin 256 => keys slot) = xs.map some) :
    slots.length = xs.length ∧ xs.length ≤ 256 := by
  have hlen : slots.length = xs.length := by simpa using congrArg List.length hkeys
  have hnd : (xs.map some).Nodup := List.Nodup.map (Option.some_injective K) (hs.imp ne_of_lt)
  rw [← hkeys] at hnd
  have hcard := (List.Nodup.of_map _ hnd).length_le_card
  rw [Fintype.card_fin] at hcard
  exact ⟨hlen, by omega⟩

theorem binarySearchSlots_eq (isBranch : Bool) (d : CheckedArray (Fin 256)) {slots : List (Fin 256)}
    {keys : CheckedArray K} (hs : xs.Pairwise (· < ·))
    (hkeys : slots.map (fun slot : Fin 256 => keys slot) = xs.map some) (key : K) :
    binarySearchSlots isBranch keys (put d 1 slots) 1 xs.length key =
      some (1 + number isBranch xs key) := by
  obtain ⟨hlen, hsize⟩ := length_slots hs hkeys
  have hcells : ∀ i, i < xs.length → (put d 1 slots (1 + i)).bind
    (fun slot : Fin 256 => keys slot) = xs[i]? := by
    intro i hi
    have hget := congrArg (fun l => l[i]?) hkeys
    rw [put_of_lt (by omega), List.getElem?_eq_getElem (by omega), Option.bind_some]
    simpa [List.getElem?_eq_getElem hi, List.getElem?_eq_getElem (show i < slots.length by omega)]
      using hget
  have hloop := searchLoop_eq isBranch
    (fun pos => (put d 1 slots pos).bind fun slot => keys slot) key 1
    hs hcells (by omega) xs.length 1 0 xs.length (by omega) (by omega) (Nat.le_refl _)
    ⟨by simp, by simp⟩ fun _ => rfl
  rw [binarySearchSlots, show ((xs.length : Int) - 1 + 1).toNat = xs.length by omega]
  rwa [show ((1 + xs.length : Nat) : Int) - 1 = xs.length by omega] at hloop

/-- The position that the tree descends to is the one that the search on the
list of the keys gives. -/
theorem lookupPositionInBranchNode_refines {C : Type} [BoundedOrder K] (c : CheckedArray K)
    {node : Branch C K} (hs : node.Sorted) (hsize : node.numKeys ≤ 2 ^ 30) (key : K) :
    lookupPositionInBranchNode (put c 0 ((List.range node.numKeys).map node.keys))
    node.numKeys key =
      some (FPBPTree.lookupPositionInBranchNode node key) := by
  have hsorted : ((List.range node.numKeys).map node.keys).Pairwise (· < ·) := by
    rw [List.pairwise_map]
    exact List.pairwise_lt_range.imp_of_mem fun _ hj hij => hs _ _ hij (List.mem_range.mp hj)
  have hlen : ((List.range node.numKeys).map node.keys).length = node.numKeys := by simp
  have heq := binarySearch_eq true c hsorted (by rwa [hlen]) key
  rw [hlen] at heq
  obtain ⟨hle, hbelow, habove⟩ := binarySearch_routes node key hs
  rw [lookupPositionInBranchNode_eq _ (by omega), heq, FPBPTree.lookupPositionInBranchNode]
  refine congrArg some (countP_front (by rwa [hlen]) (fun x hx => ?_) fun x hx => ?_)
  · obtain ⟨j, hj, rfl⟩ := List.mem_take_iff_getElem.mp hx
    simpa using hbelow j (by omega)
  · obtain ⟨j, hj, rfl⟩ := List.mem_drop_iff_getElem.mp hx
    simpa using habove _ (Nat.le_add_right _ j) (by simp at hj; omega)

/-- For increasing keys at the front of an array the searches give the numbers
of keys that a linear search gives, and use no other cell, if and only if the
sum of two fences always is an `int`; behind slots they always do. -/
theorem binarySearch_iff (c : CheckedArray K) {xs : List K} (hs : xs.Pairwise (· < ·))
    (hsize : xs.length ≤ 2 ^ 31) :
    ((∀ key, binarySearch true (put c 0 xs) 0 (xs.length - 1) key = some (xs.countP (· ≤ key)) ∧
        binarySearch false (put c 0 xs) 0 (xs.length - 1) key = some (xs.countP (· < key)) ∧
        lookupPositionInBranchNode (put c 0 xs) xs.length key = some (xs.countP (· ≤ key))) ↔
      xs.length ≤ 2 ^ 30) ∧
    ∀ (d : CheckedArray (Fin 256)) (slots : List (Fin 256)) (keys : CheckedArray K),
      slots.map (fun slot : Fin 256 => keys slot) = xs.map some → ∀ key,
        binarySearchSlots true keys (put d 1 slots) 1 xs.length key =
          some (1 + xs.countP (· ≤ key)) ∧
        binarySearchSlots false keys (put d 1 slots) 1 xs.length key =
          some (1 + xs.countP (· < key)) := by
  refine ⟨⟨fun h => ?_, fun hle key => ?_⟩, fun d slots keys hkeys key =>
    ⟨binarySearchSlots_eq true d hs hkeys key, binarySearchSlots_eq false d hs hkeys key⟩⟩
  · by_contra hlarge
    rw [not_le] at hlarge
    obtain ⟨hfound, -⟩ := h xs[xs.length - 1]
    have hover := searchLoop_overflows true hs (put_zero c) hlarge hsize
      ((xs.length : Int) - 1 - 0 + 1).toNat 0 0 (by omega)
    rw [binarySearch] at hfound
    cases hover.symm.trans hfound
  · rw [lookupPositionInBranchNode_eq _ hsize]
    exact ⟨binarySearch_eq true c hs hle key, binarySearch_eq false c hs hle key,
      binarySearch_eq true c hs hle key⟩

/-- Three keys, which slots of an array in another order point to. -/
theorem binarySearch_three :
    (binarySearch true (ofList [2, 5, 9]) 0 2 5 = some 2 ∧
      binarySearch false (ofList [2, 5, 9]) 0 2 5 = some 1 ∧
      lookupPositionInBranchNode (ofList [2, 5, 9]) 3 7 = some 2) ∧
    binarySearchSlots true (ofList [9, 2, 5]) (ofList [0, 1, 2, (0 : Fin 256)]) 1 3 5 = some 3 := by
  obtain ⟨hbranch, hslots⟩ := @binarySearch_iff Nat _ (fun _ => none) [2, 5, 9]
    (by decide) (by decide)
  have hall := hbranch.mpr (by decide)
  have hput : put (ofList [0, 1, 2, (0 : Fin 256)]) 1 [1, 2, 0] =
    ofList [0, 1, 2, (0 : Fin 256)] := by
    funext i
    rcases Nat.lt_or_ge i 4 with hi | hi
    · exact (by decide : ∀ i : Fin 4, put (ofList [0, 1, 2, (0 : Fin 256)]) 1 [1, 2, 0] i =
        ofList [0, 1, 2, (0 : Fin 256)] i) ⟨i, hi⟩
    · exact put_outside (.inr hi)
  have hslot := (hslots (ofList [0, 1, 2, 0]) [1, 2, 0] (ofList [9, 2, 5]) (by decide) 5).1
  rw [hput] at hslot
  exact ⟨⟨(hall 5).1, (hall 5).2.1, (hall 7).2.2⟩, hslot⟩

theorem range_overflows {n : Nat} (hlarge : 2 ^ 30 < n) (hsize : n ≤ 2 ^ 31) :
    binarySearch true (ofList (List.range n)) 0 (n - 1) (n - 1) = none := by
  have hs : (List.range n).Pairwise (· < ·) := List.pairwise_lt_range
  have h := searchLoop_overflows true hs (put_zero fun _ => none)
    (by rwa [List.length_range]) (by rwa [List.length_range]) ((n : Int) - 1 - 0 + 1).toNat 0 0
    (by rw [List.length_range]; omega)
  simp only [List.length_range, List.getElem_range] at h
  exact h

/-- The last of `2 ^ 30 + 1` keys is not found. -/
theorem binarySearch_overflows :
    binarySearch true (ofList (List.range (2 ^ 30 + 1))) 0 (2 ^ 30) (2 ^ 30) ≠
      some ((List.range (2 ^ 30 + 1)).countP (· ≤ 2 ^ 30)) := by
  have h := range_overflows (n := 2 ^ 30 + 1) (by decide) (by decide)
  intro hfound
  rw [show ((2 ^ 30 + 1 : Nat) : Int) - 1 = 2 ^ 30 by decide,
    show (2 ^ 30 + 1 : Nat) - 1 = 2 ^ 30 by decide, hfound] at h
  cases h

end InPlace

end Poseidon
