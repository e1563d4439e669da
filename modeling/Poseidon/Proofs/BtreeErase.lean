import Poseidon.Lib.Neighbours
import Poseidon.Proofs.BtreeInsert

/-!
# Erasing above the leaves

A branch that has lost a key gets entries from a neighbour, or is put
together with it. Either way the two hold what they held, as long as both
fit into one branch where they are merged, and the left one of them has a key.
-/

namespace Poseidon

open BTree Wp

namespace BPTree

variable {K L : Type} [LinearOrder K] {N M d i m pos : Nat} {key : K} {R : K → Prop}

/-! ## What will be merged -/

/-- The number of keys of a node; `num` says it of the leaves. -/
def nodeKeys (num : Nat → Nat) : Node K → Nat
  | .null => 0
  | .leaf p => num p
  | .branch b => b.numKeys

omit [LinearOrder K] in
@[simp] theorem nodeKeys_leaf (num : Nat → Nat) (p : Nat) :
    nodeKeys num (.leaf p : Node K) = num p := rfl

omit [LinearOrder K] in
@[simp] theorem nodeKeys_branch (num : Nat → Nat) (b : Branch (Node K) K) :
    nodeKeys num (.branch b) = b.numKeys := rfl

/-- The child has fewer than `middle` keys, and no neighbour has more. -/
def Merges (middle : Nat) (num : Nat → Nat) (b : Branch (Node K) K) (pos size : Nat) : Prop :=
  size < middle ∧ (0 < pos → nodeKeys num (b.children (pos - 1)) ≤ middle) ∧
    (pos < b.numKeys → nodeKeys num (b.children (pos + 1)) ≤ middle)

instance (middle : Nat) (num : Nat → Nat) (b : Branch (Node K) K) (pos size : Nat) :
    Decidable (Merges middle num b pos size) := instDecidableAnd

/-! ## Two branches -/

section

variable {C : Type} {l r l' r' J : Branch C K} {s : K} {T : (K → Prop) → C → Prop}

/-- The parts of `J` below its separator `m` and above it. -/
structure Divides (J : Branch C K) (m : Nat) (l : Branch C K) (s : K) (r : Branch C K) : Prop where
  lt : m < J.numKeys
  lower : (J.lower m).Same l
  upper : J.IsUpper m r
  key : J.keys m = s

/-- The left branch gives entries to the right one. -/
theorem balance_from_left (h : r.numKeys < l.numKeys) (hfirst : l.keys 0 < r.keys 0) :
    ∃ l' s' r', balanceBranchNodes l r s = .ok (l', r', s') ∧
      l'.numKeys = (l.numKeys + r.numKeys) / 2 ∧
      Divides (l.join s r) ((l.numKeys + r.numKeys) / 2) l' s' r' := by
  obtain ⟨m, hm⟩ : ∃ m, m = (l.numKeys + r.numKeys) / 2 := ⟨_, rfl⟩
  rw [balanceBranchNodes, if_neg (by omega), ← hm]
  simp only [if_pos hfirst]
  rw [show l.numKeys - (l.numKeys - m) = m by omega]
  refine ⟨_, _, _, rfl, rfl, ?_, ⟨rfl, fun i hi => ?_, fun i hi => ?_⟩, ⟨?_, fun i hi => ?_,
    fun i hi => ?_⟩, ?_⟩
  · show m < l.numKeys + (r.numKeys + 1)
    omega
  · have hi' : i < m := hi
    exact (@Branch.join_keys_lt _ _ l r s i (by omega)).symm
  · have hi' : i ≤ m := hi
    exact (@Branch.join_children_le _ _ l r s i (by omega)).symm
  · show m + 1 + (r.numKeys + (l.numKeys - m)) = l.numKeys + (r.numKeys + 1)
    omega
  · have hi' : i < r.numKeys + (l.numKeys - m) := hi
    show Function.update (blit (blit r.keys (l.numKeys - m) r.keys 0 r.numKeys) 0 l.keys (m + 1)
      (l.numKeys - m - 1)) (l.numKeys - m - 1) s i = _
    rcases Nat.lt_trichotomy i (l.numKeys - m - 1) with hlt | rfl | hgt
    · rw [Function.update_of_ne (by omega), blit_zero_of_lt hlt,
        Branch.join_keys_lt (by omega)]
    · rw [Function.update_self, show m + 1 + (l.numKeys - m - 1) = l.numKeys by omega,
        Branch.join_keys_self]
    · obtain ⟨x, rfl⟩ : ∃ x, i = l.numKeys - m + x := ⟨i - (l.numKeys - m), by omega⟩
      rw [Function.update_of_ne (by omega), blit_of_ge (by omega), blit_of_mem (by omega),
        Nat.zero_add, show m + 1 + (l.numKeys - m + x) = l.numKeys + 1 + x by omega,
        Branch.join_keys_gt (by omega)]
  · have hi' : i ≤ r.numKeys + (l.numKeys - m) := hi
    show blit (blit r.children (l.numKeys - m) r.children 0 (r.numKeys + 1)) 0 l.children (m + 1)
      (l.numKeys - m) i = _
    rcases Nat.lt_or_ge i (l.numKeys - m) with hlt | hge
    · rw [blit_zero_of_lt hlt, Branch.join_children_le (by omega)]
    · obtain ⟨x, rfl⟩ : ∃ x, i = l.numKeys - m + x := ⟨i - (l.numKeys - m), by omega⟩
      rw [blit_of_ge (by omega), blit_of_mem (by omega), Nat.zero_add,
        show m + 1 + (l.numKeys - m + x) = l.numKeys + 1 + x by omega,
        Branch.join_children_gt (by omega)]
  · exact Branch.join_keys_lt (by omega)

/-- The right branch gives entries to the left one. -/
theorem balance_from_right (h : l.numKeys < r.numKeys) (hfirst : ¬r.keys 0 < l.keys 0) :
    ∃ l' s' r', balanceBranchNodes r l s = .ok (r', l', s') ∧
      r'.numKeys = (r.numKeys + l.numKeys) / 2 ∧
      Divides (l.join s r) (l.numKeys + (r.numKeys - (r.numKeys + l.numKeys) / 2)) l' s' r' := by
  obtain ⟨n, hn⟩ : ∃ n, n = r.numKeys - (r.numKeys + l.numKeys) / 2 := ⟨_, rfl⟩
  rw [balanceBranchNodes, if_neg (by omega), ← hn]
  simp only [if_neg hfirst]
  refine ⟨_, _, _, rfl, ?_, ?_, ⟨rfl, fun i hi => ?_, fun i hi => ?_⟩, ⟨?_, fun i hi => ?_,
    fun i hi => ?_⟩, ?_⟩
  · show r.numKeys - n = _
    omega
  · show l.numKeys + n < l.numKeys + (r.numKeys + 1)
    omega
  · have hi' : i < l.numKeys + n := hi
    show Function.update (blit l.keys (l.numKeys + 1) r.keys 0 n) l.numKeys s i = _
    rcases Nat.lt_trichotomy i l.numKeys with hlt | rfl | hgt
    · rw [Function.update_of_ne (by omega), blit_of_lt (by omega)]
      exact (Branch.join_keys_lt hlt).symm
    · rw [Function.update_self]
      exact Branch.join_keys_self.symm
    · obtain ⟨x, rfl⟩ : ∃ x, i = l.numKeys + 1 + x := ⟨i - (l.numKeys + 1), by omega⟩
      rw [Function.update_of_ne (by omega), blit_of_mem (by omega), Nat.zero_add]
      exact (Branch.join_keys_gt (by omega)).symm
  · have hi' : i ≤ l.numKeys + n := hi
    show blit l.children (l.numKeys + 1) r.children 0 n i = _
    rcases Nat.lt_or_ge i (l.numKeys + 1) with hlt | hge
    · rw [blit_of_lt hlt]
      exact (@Branch.join_children_le _ _ l r s i (by omega)).symm
    · obtain ⟨x, rfl⟩ : ∃ x, i = l.numKeys + 1 + x := ⟨i - (l.numKeys + 1), by omega⟩
      rw [blit_of_mem (by omega), Nat.zero_add]
      exact (Branch.join_children_gt (s := s) (by omega)).symm
  · show l.numKeys + n + 1 + (r.numKeys - n) = l.numKeys + (r.numKeys + 1)
    omega
  · have hi' : i < r.numKeys - n := hi
    show blit r.keys 0 r.keys n (r.numKeys - n) i = _
    rw [blit_zero_of_lt hi', show l.numKeys + n + 1 + i = l.numKeys + 1 + (n + i) by omega,
      Branch.join_keys_gt (by omega)]
  · have hi' : i ≤ r.numKeys - n := hi
    show blit r.children 0 r.children n (r.numKeys - n + 1) i = _
    rw [blit_zero_of_lt (by omega), show l.numKeys + n + 1 + i = l.numKeys + 1 + (n + i) by omega,
      Branch.join_children_gt (by omega)]
  · show (l.join s r).keys (l.numKeys + n) = r.keys (n - 1)
    rw [show l.numKeys + n = l.numKeys + 1 + (n - 1) by omega, Branch.join_keys_gt (by omega)]

theorem pair_holds {b : Branch C K} (hT : ∀ R' c, T R' c → ∃ k, R' k) (hb : b.Sorted)
    (hi : i < b.numKeys) (hs : R (b.keys i)) (hl : l.Holds T fun k => R k ∧ b.Routes k i)
    (hr : r.Holds T fun k => R k ∧ b.Routes k (i + 1)) :
    (l.join (b.keys i) r).Holds T fun k => R k ∧ b.Near i k := by
  refine Branch.holds_join hT ⟨hs, Branch.near_keys hb hi⟩ ?_ ?_
  · refine Branch.congr_range (T := fun R c => Branch.Holds T R c) (fun k => ?_) hl
    rw [and_assoc, Branch.near_lt_iff hi]
  · refine Branch.congr_range (T := fun R c => Branch.Holds T R c) (fun k => ?_) hr
    rw [and_assoc, Branch.near_ge_iff hi]

end

section

variable {P : (K → Prop) → Nat → Prop} {b l r l' r' c : Branch (Node K) K} {s : K}
  {D : Nat → Prop}

theorem tree_nonempty {size : Nat → Prop} (hP : ∀ R p, P R p → ∃ k, R k) :
    ∀ {d : Nat} {R : K → Prop} {n : Node K}, Tree P size d R n → ∃ k, R k := by
  intro d
  induction d with
  | zero =>
      intro R n hn
      cases n with
      | null => exact hn.elim
      | branch b => exact hn.elim
      | leaf p => exact hP R p hn
  | succ d ih =>
      intro R n hn
      cases n with
      | null => exact hn.elim
      | leaf p => exact hn.elim
      | branch b =>
          obtain ⟨k, hk, -⟩ := ih (hn.2.child 0 (Nat.zero_le _) trivial)
          exact ⟨k, hk⟩

/-- Two neighbours are divided elsewhere. -/
theorem moveKey_holds (hP : ∀ R p, P R p → ∃ k, R k)
    (hb : b.HoldsOn (Tree P (Sized N) (d + 1)) R D) (hD : ∀ j, j ≠ i → j ≠ i + 1 → D j)
    (hi : i < b.numKeys) (hl : l.Holds (Tree P (Sized N) d) fun k => R k ∧ b.Routes k i)
    (hr : r.Holds (Tree P (Sized N) d) fun k => R k ∧ b.Routes k (i + 1))
    (hdiv : Divides (l.join (b.keys i) r) m l' s r') (hls : Sized N l'.numKeys)
    (hrs : Sized N r'.numKeys) :
    (b.moveKey i s (.branch l') (.branch r')).Holds (Tree P (Sized N) (d + 1)) R := by
  have hT := fun R' c => @tree_nonempty _ _ P (Sized N) hP d R' c
  have hJ := pair_holds hT hb.sorted hi (hb.inRange i hi) hl hr
  have hlow := hJ.lower hdiv.lt
  have hup := hJ.upper hdiv.upper
  have hkey := hJ.inRange m hdiv.lt
  rw [hdiv.key] at hlow hup hkey
  refine hb.moveKey hD hi hkey ?_ ⟨hls, hlow.same hdiv.lower⟩ ⟨hrs, hup.holds fun _ _ => trivial⟩
  obtain ⟨k, hk, -⟩ := hT _ _ (hlow.child 0 (Nat.zero_le _) trivial)
  exact ⟨k, hk⟩

/-- Two neighbours become one. -/
theorem joinChild_holds (hP : ∀ R p, P R p → ∃ k, R k)
    (hb : b.HoldsOn (Tree P (Sized N) (d + 1)) R D) (hD : ∀ j, j ≠ i → j ≠ i + 1 → D j)
    (hi : i < b.numKeys) (hl : l.Holds (Tree P (Sized N) d) fun k => R k ∧ b.Routes k i)
    (hr : r.Holds (Tree P (Sized N) d) fun k => R k ∧ b.Routes k (i + 1))
    (hsize : Sized N (l.numKeys + (r.numKeys + 1))) :
    (b.joinChild i (.branch (l.join (b.keys i) r))).Holds (Tree P (Sized N) (d + 1)) R := by
  have hT := fun R' c => @tree_nonempty _ _ P (Sized N) hP d R' c
  exact hb.joinChild hD hi fun _ => ⟨hsize, pair_holds hT hb.sorted hi (hb.inRange i hi) hl hr⟩

theorem mergeBranchNodes_ok (hl : 0 < l.numKeys) (hfirst : s ≤ r.keys 0)
    (hlast : l.keys (l.numKeys - 1) < s) (hfit : l.numKeys + r.numKeys + 1 ≤ N) :
    mergeBranchNodes N l s r = .ok (l.join s r) := by
  rw [mergeBranchNodes, if_neg (Nat.ne_of_gt hl), if_neg, if_neg (Nat.not_lt.mpr hfit)]
  · rfl
  · rintro (hlt | hle)
    · exact absurd hfirst (not_le.mpr hlt)
    · exact absurd hlast (not_lt.mpr hle)

theorem branch_child (hb : b.HoldsOn (Tree P (Sized N) (d + 1)) R D) (hi : i ≤ b.numKeys)
    (hD : D i) : ∃ c, b.children i = .branch c ∧ Sized N c.numKeys ∧
      c.Holds (Tree P (Sized N) d) fun k => R k ∧ b.Routes k i := by
  have hc := hb.child i hi hD
  generalize b.children i = n at hc ⊢
  cases n with
  | null => exact hc.elim
  | leaf p => exact hc.elim
  | branch c => exact ⟨c, rfl, hc⟩

omit [LinearOrder K] in
theorem branchAt_branch (h : b.children i = .branch c) : branchAt b i = .ok c := by
  rw [branchAt, h]

omit [LinearOrder K] in
theorem siblingKeys_branch (num : Nat → Nat) {there : Prop} [Decidable there]
    (h : there → ∃ c, b.children i = .branch c) :
    siblingKeys there b i = .ok (if there then nodeKeys num (b.children i) else 0) := by
  by_cases ht : there
  · obtain ⟨c, hc⟩ := h ht
    rw [siblingKeys, if_pos (decide_eq_true ht), if_pos ht, branchAt_branch hc, hc]
    rfl
  · rw [siblingKeys, if_neg (by simpa using ht), if_neg ht]
    rfl

/-- The branch after its child `c` has been dealt with: it has `size` keys, and
when there are none, the child is all that is left. -/
structure Relieved (N d : Nat) (P : (K → Prop) → Nat → Prop) (R : K → Prop) (size : Nat)
    (b c : Branch (Node K) K) : Prop where
  holds : b.Holds (Tree P (Sized N) (d + 1)) R
  numKeys : b.numKeys = size
  first : R (b.keys 0)
  only : b.numKeys = 0 → b.children 0 = .branch c

theorem relieved_moveKey {x y : Node K} (hone : 1 ≤ b.numKeys)
    (h : (b.moveKey i s x y).Holds (Tree P (Sized N) (d + 1)) R) :
    Relieved N d P R b.numKeys (b.moveKey i s x y) c where
  holds := h
  numKeys := rfl
  first := h.inRange 0 hone
  only h0 := absurd h0 (Nat.ne_of_gt hone)

theorem relieved_joinChild (hb : b.HoldsOn (Tree P (Sized N) (d + 1)) R D) (hi : i < b.numKeys)
    (h : (b.joinChild i (.branch c)).Holds (Tree P (Sized N) (d + 1)) R) :
    Relieved N d P R (b.numKeys - 1) (b.joinChild i (.branch c)) c where
  holds := h
  numKeys := rfl
  first := by
    show R (removeAt b.keys b.numKeys i 0)
    rw [removeAt]
    split
    · exact hb.inRange 1 (by omega)
    · exact hb.inRange 0 (by omega)
  only h0 := by
    have hone : b.numKeys - 1 = 0 := h0
    obtain rfl : i = 0 := by omega
    show Function.update (removeAt b.children (b.numKeys + 1) 1) 0 (.branch c) 0 = _
    rw [Function.update_self]

/-- Two neighbours that fit into one branch are merged. -/
theorem merge_neighbours (hP : ∀ R p, P R p → ∃ k, R k)
    (hb : b.HoldsOn (Tree P (Sized N) (d + 1)) R D) (hD : ∀ j, j ≠ i → j ≠ i + 1 → D j)
    (hi : i < b.numKeys) (hl : l.Holds (Tree P (Sized N) d) fun k => R k ∧ b.Routes k i)
    (hr : r.Holds (Tree P (Sized N) d) fun k => R k ∧ b.Routes k (i + 1))
    (hlone : 0 < l.numKeys) (hfirst : b.keys i ≤ r.keys 0)
    (hmin : (N - 1) / 2 ≤ l.numKeys + r.numKeys + 1) (hfit : l.numKeys + r.numKeys + 1 ≤ N) :
    mergeBranchNodes N l (b.keys i) r = .ok (l.join (b.keys i) r) ∧
      Relieved N d P R (b.numKeys - 1) (b.joinChild i (.branch (l.join (b.keys i) r)))
        (l.join (b.keys i) r) := by
  have hlast : l.keys (l.numKeys - 1) < b.keys i :=
    (hl.inRange _ (by omega)).2.2.2 i (Nat.le_refl i) hi
  have hm := joinChild_holds hP hb hD hi hl hr ⟨hmin, hfit⟩
  exact ⟨mergeBranchNodes_ok hlone hfirst hlast hfit, relieved_joinChild hb hi hm⟩

omit [LinearOrder K] in
theorem Divides.sizes (h : Divides (l.join s r) m l' key r') :
    l'.numKeys = m ∧ m + 1 + r'.numKeys = l.numKeys + (r.numKeys + 1) :=
  ⟨h.lower.numKeys, h.upper.numKeys⟩

/-- The child `i + 1` gets entries from the left. -/
theorem take_from_left (hP : ∀ R p, P R p → ∃ k, R k)
    (hb : b.HoldsOn (Tree P (Sized N) (d + 1)) R (· ≠ i + 1)) (hi : i < b.numKeys)
    (hl : l.Holds (Tree P (Sized N) d) fun k => R k ∧ b.Routes k i) (hls : Sized N l.numKeys)
    (hc : c.Holds (Tree P (Sized N) d) fun k => R k ∧ b.Routes k (i + 1))
    (hfirst : b.Routes (c.keys 0) (i + 1)) (hmin : (N - 1) / 2 ≤ c.numKeys + 1)
    (hunder : c.numKeys < (N + 1) / 2) (hmore : (N + 1) / 2 < l.numKeys) :
    ∃ l' s' c', balanceBranchNodes l c (b.keys i) = .ok (l', c', s') ∧
      (b.moveKey i s' (.branch l') (.branch c')).Holds (Tree P (Sized N) (d + 1)) R := by
  have hlt : l.keys 0 < c.keys 0 :=
    lt_of_lt_of_le ((hl.inRange 0 (by omega)).2.2.2 i (Nat.le_refl i) hi)
      (hfirst.2.1 i (Nat.lt_succ_self i))
  obtain ⟨l', s', c', hrun, -, hdiv⟩ := balance_from_left (s := b.keys i) (by omega) hlt
  obtain ⟨hl', hc'⟩ := hdiv.sizes
  have hsize := hls.2
  refine ⟨l', s', c', hrun, moveKey_holds hP hb (fun _ _ hj => hj) hi hl hc hdiv ?_ ?_⟩
  · exact ⟨by omega, by omega⟩
  · exact ⟨by omega, by omega⟩

/-- The child `i` gets entries from the right; the key too many is within the
array. -/
theorem take_from_right (hN : 2 < N) (hP : ∀ R p, P R p → ∃ k, R k)
    (hb : b.HoldsOn (Tree P (Sized N) (d + 1)) R (· ≠ i)) (hi : i < b.numKeys)
    (hr : r.Holds (Tree P (Sized N) d) fun k => R k ∧ b.Routes k (i + 1)) (hrs : Sized N r.numKeys)
    (hc : c.Holds (Tree P (Sized N) d) fun k => R k ∧ b.Routes k i)
    (hfirst : b.Routes (c.keys 0) i) (hmin : (N - 1) / 2 ≤ c.numKeys + 1)
    (hunder : c.numKeys < (N + 1) / 2) (hmore : (N + 1) / 2 < r.numKeys) :
    c.numKeys + (r.numKeys - (r.numKeys + c.numKeys) / 2) < N ∧
    ∃ c' s' r', balanceBranchNodes r c (b.keys i) = .ok (r', c', s') ∧
      (b.moveKey i s' (.branch c') (.branch r')).Holds (Tree P (Sized N) (d + 1)) R := by
  have hlt : c.keys 0 < r.keys 0 :=
    lt_of_lt_of_le (hfirst.2.2 i (Nat.le_refl i) hi)
      ((hr.inRange 0 (by omega)).2.2.1 i (Nat.lt_succ_self i))
  obtain ⟨c', s', r', hrun, -, hdiv⟩ := balance_from_right (s := b.keys i) (by omega)
    (not_lt.mpr (le_of_lt hlt))
  obtain ⟨hc', hr'⟩ := hdiv.sizes
  have hsize := hrs.2
  refine ⟨by omega, c', s', r', hrun, moveKey_holds hP hb (fun _ hj _ => hj) hi hc hr hdiv ?_ ?_⟩
  · exact ⟨by omega, by omega⟩
  · exact ⟨by omega, by omega⟩

/-- A child with too few keys gets some, or is merged with a neighbour. -/
theorem underflowAtBranchLevel_ok (hN : 2 < N) (hP : ∀ R p, P R p → ∃ k, R k) (num : Nat → Nat)
    (hb : b.HoldsOn (Tree P (Sized N) (d + 1)) R (· ≠ pos)) (hpos : pos ≤ b.numKeys)
    (hone : 1 ≤ b.numKeys) (hc : c.Holds (Tree P (Sized N) d) fun k => R k ∧ b.Routes k pos)
    (hfirst : b.Routes (c.keys 0) pos) (hmin : (N - 1) / 2 ≤ c.numKeys + 1)
    (hunder : c.numKeys < (N + 1) / 2)
    (hfits : Merges ((N + 1) / 2) num b pos c.numKeys →
      if 0 < pos then nodeKeys num (b.children (pos - 1)) + c.numKeys + 1 ≤ N
      else 0 < c.numKeys ∧ c.numKeys + nodeKeys num (b.children (pos + 1)) + 1 ≤ N) :
    ∃ b' c', underflowAtBranchLevel N b pos c = .ok (b', c') ∧ Relieved N d P R
      (if Merges ((N + 1) / 2) num b pos c.numKeys then b.numKeys - 1 else b.numKeys) b' c' := by
  have hright : pos < b.numKeys → ∃ r, b.children (pos + 1) = .branch r ∧ Sized N r.numKeys ∧
      r.Holds (Tree P (Sized N) d) fun k => R k ∧ b.Routes k (pos + 1) :=
    fun hlt => branch_child hb hlt (Nat.succ_ne_self pos)
  have hleft : 0 < pos → ∃ l, b.children (pos - 1) = .branch l ∧ Sized N l.numKeys ∧
      l.Holds (Tree P (Sized N) d) fun k => R k ∧ b.Routes k (pos - 1) :=
    fun h0 => branch_child hb (by omega) (by omega)
  have hprev := siblingKeys_branch num fun h0 => (hleft h0).imp fun _ h => h.1
  have hnext := siblingKeys_branch num fun hlt => (hright hlt).imp fun _ h => h.1
  rw [underflowAtBranchLevel, hprev, hnext]
  simp only [bind, Except.bind, pure, Except.pure]
  -- the neighbour that gives keys, if there is one
  by_cases hL : (N + 1) / 2 < if 0 < pos then nodeKeys num (b.children (pos - 1)) else 0
  · rw [if_pos hL]
    have h0 : 0 < pos := by
      by_contra h0
      rw [if_neg h0] at hL
      exact Nat.not_lt_zero _ hL
    obtain ⟨l, hl, hls, hlh⟩ := hleft h0
    rw [if_pos h0, hl] at hL
    have hno : ¬Merges ((N + 1) / 2) num b pos c.numKeys := fun hm =>
      absurd hL (Nat.not_lt.mpr (hl ▸ hm.2.1 h0))
    obtain ⟨i, rfl⟩ : ∃ i, pos = i + 1 := ⟨pos - 1, by omega⟩
    obtain ⟨l', s', c', hrun, hm⟩ := take_from_left hP hb hpos hlh hls hc hfirst hmin hunder hL
    rw [if_neg hno, branchAt_branch hl]
    simp only [Nat.add_sub_cancel, hrun]
    exact ⟨_, _, rfl, relieved_moveKey hone hm⟩
  rw [if_neg hL]
  by_cases hR : (N + 1) / 2 < if pos < b.numKeys then nodeKeys num (b.children (pos + 1)) else 0
  · rw [if_pos hR]
    have hlt : pos < b.numKeys := by
      by_contra hge
      rw [if_neg hge] at hR
      exact Nat.not_lt_zero _ hR
    obtain ⟨r, hr, hrs, hrh⟩ := hright hlt
    rw [if_pos hlt, hr] at hR ⊢
    have hno : ¬Merges ((N + 1) / 2) num b pos c.numKeys := fun hm =>
      absurd hR (Nat.not_lt.mpr (hr ▸ hm.2.2 hlt))
    rw [nodeKeys_branch] at hR
    obtain ⟨hfit, c', s', r', hrun, hm⟩ :=
      take_from_right hN hP hb hlt hrh hrs hc hfirst hmin hunder hR
    rw [if_neg hno, branchAt_branch hr]
    simp only [nodeKeys_branch, if_neg (Nat.not_le.mpr hfit), hrun]
    refine ⟨_, c', ?_, relieved_moveKey hone hm⟩
    rw [Branch.moveKey, Function.update_comm (Nat.succ_ne_self pos).symm]
    rfl
  rw [if_neg hR]
  have hmerges : Merges ((N + 1) / 2) num b pos c.numKeys := by
    refine ⟨hunder, fun h0 => ?_, fun hlt => ?_⟩
    · rw [if_pos h0] at hL
      exact Nat.not_lt.mp hL
    · rw [if_pos hlt] at hR
      exact Nat.not_lt.mp hR
  -- nobody gives any: the child and the left neighbour, or the right one, become one
  have hfit := hfits hmerges
  rw [if_pos hmerges]
  by_cases h0 : 0 < pos
  · obtain ⟨l, hl, hls, hlh⟩ := hleft h0
    obtain ⟨i, rfl⟩ : ∃ i, pos = i + 1 := ⟨pos - 1, by omega⟩
    have hlone : 0 < l.numKeys := lt_of_lt_of_le (by omega) hls.1
    rw [if_pos h0, hl, nodeKeys_branch] at hfit ⊢
    have hmin' := hls.1
    obtain ⟨hmerge, hrel⟩ := merge_neighbours hP hb (fun _ _ hj => hj) hpos hlh hc hlone
      (hfirst.2.1 i (Nat.lt_succ_self i)) (by omega) hfit
    rw [if_pos hlone, branchAt_branch hl]
    simp only [Nat.add_sub_cancel, hmerge]
    refine ⟨_, _, ?_, hrel⟩
    rw [Branch.joinChild, ← removeAt_update]
    rfl
  · obtain rfl : pos = 0 := Nat.eq_zero_of_not_pos h0
    obtain ⟨r, hr, hrs, hrh⟩ := hright hone
    have hrone : 0 < r.numKeys := lt_of_lt_of_le (by omega) hrs.1
    rw [if_neg h0, hr, nodeKeys_branch] at hfit
    rw [if_neg h0, if_pos (show 0 < b.numKeys from hone), hr, nodeKeys_branch]
    have hmin' := hrs.1
    obtain ⟨hmerge, hrel⟩ := merge_neighbours hP hb (fun _ hj _ => hj) hone hc hrh hfit.1
      ((hrh.inRange 0 hrone).2.2.1 0 Nat.one_pos) (by omega) hfit.2
    rw [if_neg (Nat.lt_irrefl 0), if_pos hrone, branchAt_branch hr]
    simp only [hmerge]
    refine ⟨_, _, ?_, hrel⟩
    rw [Branch.joinChild, ← removeAt_update]
    rfl

end

omit [LinearOrder K] in
theorem merges_setChild {n : Node K} {num : Nat → Nat} {size : Nat} {b : Branch (Node K) K} :
    Merges m num (b.setChild pos n) pos size ↔ Merges m num b pos size := by
  have hne : ∀ {j}, j ≠ pos → (b.setChild pos n).children j = b.children j :=
    fun hj => Function.update_of_ne hj _ _
  refine and_congr_right fun _ => and_congr (imp_congr_right fun h0 => ?_) ?_
  · rw [hne (by omega)]
  · rw [hne (Nat.succ_ne_self pos)]
    rfl

end BPTree

end Poseidon
