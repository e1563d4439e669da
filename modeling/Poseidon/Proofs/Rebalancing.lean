import Poseidon.Btree.InPlace
import Poseidon.Lib.Wp

/-!
# Rebalancing keeps the order

What the loops leave in the arrays is what the functions on the contents give,
and the keys and children from left to right are the same as before. Which of
two nodes is the left one is read off their first keys. The first key of a
node without keys is what happens to be there, so that such a node can be
taken for the wrong neighbour.
-/

namespace Poseidon

open BTree Wp

namespace InPlace

variable {C K V : Type} {N M : Nat}

/-! ## Contents -/

def cells (N : Nat) (b : Branch C K) : BranchNode C K :=
  ⟨b.numKeys, full N b.keys, full (N + 1) b.children⟩

def leafCells (M : Nat) (l : Poseidon.LeafNode K V) : LeafNode K V :=
  ⟨l.numKeys, full M l.keys, full M l.values⟩

section

variable (N M : Nat) (b : Branch C K) (l : Poseidon.LeafNode K V)

@[simp] theorem cells_numKeys : (cells N b).numKeys = b.numKeys := rfl

@[simp] theorem cells_keys : (cells N b).keys = full N b.keys := rfl

@[simp] theorem cells_children : (cells N b).children = full (N + 1) b.children := rfl

@[simp] theorem leafCells_numKeys : (leafCells M l).numKeys = l.numKeys := rfl

@[simp] theorem leafCells_keys : (leafCells M l).keys = full M l.keys := rfl

@[simp] theorem leafCells_values : (leafCells M l).values = full M l.values := rfl

end

/-- The keys of a branch from left to right, and its children. -/
def keyList (b : Branch C K) : List K := segment b.keys 0 b.numKeys

def childList (b : Branch C K) : List C := segment b.children 0 (b.numKeys + 1)

theorem blit_update {α : Type} {f : Nat → α} {p lo n q : Nat} {x : α} (hp : p + n ≤ q)
    (hlo : lo + n ≤ q) : blit (Function.update f q x) p (Function.update f q x) lo n =
      Function.update (blit f p f lo n) q x := by
  funext i
  by_cases hi : i = q
  · subst hi
    rw [Function.update_self, blit_of_ge hp, Function.update_self]
  · rw [Function.update_of_ne hi, blit, blit, Function.update_of_ne hi]
    by_cases hin : p ≤ i ∧ i < p + n
    · rw [if_pos hin, if_pos hin, Function.update_of_ne (by omega)]
    · rw [if_neg hin, if_neg hin]

/-! ## Balancing branches -/

variable {d r : Branch C K} {key : K} {t : Nat}

/-- The donor and the receiver when entries go to larger keys. -/
def largerDonor (d : Branch C K) (t : Nat) : Branch C K := { d with numKeys := d.numKeys - t }

def largerReceiver (d r : Branch C K) (key : K) (t : Nat) : Branch C K where
  numKeys := r.numKeys + t
  keys := Function.update
    (blit (blit r.keys t r.keys 0 r.numKeys) 0 d.keys (d.numKeys - t + 1) (t - 1)) (t - 1) key
  children :=
    blit (blit r.children t r.children 0 (r.numKeys + 1)) 0 d.children (d.numKeys - t + 1) t

/-- The donor and the receiver when entries go to smaller keys. -/
def smallerDonor (d : Branch C K) (t : Nat) : Branch C K where
  numKeys := d.numKeys - t
  keys := blit d.keys 0 d.keys t (d.numKeys - t)
  children := blit d.children 0 d.children t (d.numKeys - t + 1)

def smallerReceiver (d r : Branch C K) (key : K) (t : Nat) : Branch C K where
  numKeys := r.numKeys + t
  keys := Function.update (blit r.keys (r.numKeys + 1) d.keys 0 t) r.numKeys key
  children := blit r.children (r.numKeys + 1) d.children 0 t

theorem balanceToLarger_cells (ht : 0 < t) (htd : t ≤ d.numKeys) (hd : d.numKeys ≤ N)
    (hr : r.numKeys + t ≤ N) :
    balanceToLarger (cells N d) (cells N r) key t =
      some (cells N (largerDonor d t), cells N (largerReceiver d r key t), d.keys
      (d.numKeys - t)) := by
  have hroom : Function.update (blit r.children t r.children 0 r.numKeys) (r.numKeys + t)
      (r.children r.numKeys) = blit r.children t r.children 0 (r.numKeys + 1) := by
    rw [blit_succ, Nat.zero_add, Nat.add_comm t]
  rw [balanceToLarger]
  simp only [cells_numKeys, cells_keys, cells_children, Option.bind_eq_bind]
  rw [full_of_lt (by omega), Option.bind_some, store_full (by omega), Option.bind_some,
    moveDown_full (Nat.zero_le t) (by omega), Option.bind_some,
    moveDown_full (Nat.zero_le t) (by omega),
    Option.bind_some, blit_update (by omega) (by omega), hroom,
    copyCells_full (by omega) (by omega),
    Option.bind_some, copyCells_full (by omega) (by omega), Option.bind_some, store_full (by omega),
    Option.bind_some, full_of_lt (by omega)]
  rfl

theorem balanceToSmaller_cells (ht : 0 < t) (htd : t ≤ d.numKeys) (hd : d.numKeys ≤ N)
    (hr : r.numKeys + t < N) :
    balanceToSmaller (cells N d) (cells N r) key t =
      some (cells N (smallerDonor d t), cells N (smallerReceiver d r key t), d.keys (t - 1)) := by
  have hlast : Function.update (blit d.children 0 d.children t (d.numKeys - t)) (d.numKeys - t)
      (d.children d.numKeys) = blit d.children 0 d.children t (d.numKeys - t + 1) := by
    rw [blit_succ, Nat.zero_add, show t + (d.numKeys - t) = d.numKeys by omega]
  rw [balanceToSmaller]
  simp only [cells_numKeys, cells_keys, cells_children, Option.bind_eq_bind]
  rw [copyCells_full (by omega) (by omega), Option.bind_some, copyCells_full (by omega) (by omega),
    Option.bind_some, store_full (by omega), Option.bind_some, full_of_lt (by omega),
    Option.bind_some,
    moveUp_full (Nat.zero_le t) (by omega), Option.bind_some,
    moveUp_full (Nat.zero_le t) (by omega),
    Option.bind_some, full_of_lt (by omega), Option.bind_some, store_full (by omega),
    Option.bind_some,
    blit_of_ge (by omega), hlast]
  rfl

/-- The one key too many is written behind the keys of a full receiver. -/
theorem balanceToSmaller_overflows (ht : 0 < t) (hr : r.numKeys + t = N) :
    balanceToSmaller (cells N d) (cells N r) key t = none := by
  rw [balanceToSmaller]
  simp only [cells_numKeys, cells_keys, cells_children, Option.bind_eq_bind]
  rw [copyCells_full (by omega) (by omega), Option.bind_some,
    copyCells_overflows (by omega) (by omega) ht]
  rfl

theorem childList_largerReceiver (d r : Branch C K) (key : K) (t : Nat) :
    childList (largerReceiver d r key t) =
      segment d.children (d.numKeys - t + 1) t ++ childList r := by
  refine segment_two (show r.numKeys + t + 1 = _ by omega) (fun i hi => ?_) fun i hi => ?_
  · show blit _ 0 d.children _ t i = _
    rw [← Nat.zero_add i, blit_of_mem hi, Nat.zero_add]
  · show blit _ 0 d.children _ t _ = _
    rw [blit_of_ge (by omega), blit_of_mem hi]

theorem childList_smallerReceiver (d r : Branch C K) (key : K) (t : Nat) :
    childList (smallerReceiver d r key t) = childList r ++ segment d.children 0 t := by
  refine segment_two (show r.numKeys + t + 1 = _ by omega) (fun i hi => ?_) fun i hi => ?_
  · show blit _ (r.numKeys + 1) d.children 0 t i = _
    rw [blit_of_lt hi, Nat.zero_add]
  · exact blit_of_mem hi

theorem larger_contents (ht : 0 < t) (htd : t ≤ d.numKeys) :
    keyList (largerDonor d t) ++ d.keys (d.numKeys - t) :: keyList (largerReceiver d r key t) =
        keyList d ++ key :: keyList r ∧
      childList (largerDonor d t) ++ childList (largerReceiver d r key t) =
        childList d ++ childList r := by
  have hkeys : keyList (largerReceiver d r key t) =
      segment d.keys (d.numKeys - t + 1) (t - 1) ++ key :: keyList r := by
    refine segment_around (show r.numKeys + t = _ by omega) (fun i hi => ?_) ?_ fun i hi => ?_
    · show (Function.update _ (t - 1) key : Nat → K) i = _
      rw [Function.update_of_ne (by omega), ← Nat.zero_add i, blit_of_mem hi, Nat.zero_add]
    · exact Function.update_self _ _ _
    · show (Function.update _ (t - 1) key : Nat → K) _ = _
      rw [Function.update_of_ne (by omega), blit_of_ge (by omega),
        show t - 1 + 1 + i = t + i by omega,
        blit_of_mem hi]
  have hd : keyList d = segment d.keys 0 (d.numKeys - t) ++ d.keys (d.numKeys - t) ::
      segment d.keys (d.numKeys - t + 1) (t - 1) :=
    segment_around (by omega) (fun i _ => by rw [Nat.zero_add]) rfl fun _ _ => rfl
  have hc : childList d = segment d.children 0 (d.numKeys - t + 1) ++
      segment d.children (d.numKeys - t + 1) t :=
    segment_two (by omega) (fun i _ => by rw [Nat.zero_add]) fun _ _ => rfl
  rw [hkeys, childList_largerReceiver, hd, hc, List.append_assoc, List.append_assoc]
  exact ⟨rfl, rfl⟩

theorem smaller_contents (ht : 0 < t) (htd : t ≤ d.numKeys) :
    keyList (smallerReceiver d r key t) ++ d.keys (t - 1) :: keyList (smallerDonor d t) =
        keyList r ++ key :: keyList d ∧
      childList (smallerReceiver d r key t) ++ childList (smallerDonor d t) =
        childList r ++ childList d := by
  have hkeys : keyList (smallerReceiver d r key t) = keyList r ++ key ::
    segment d.keys 0 (t - 1) := by
    refine segment_around (show r.numKeys + t = _ by omega) (fun i hi => ?_) ?_ fun i hi => ?_
    · show (Function.update _ r.numKeys key : Nat → K) i = _
      rw [Function.update_of_ne (by omega), blit_of_lt (by omega), Nat.zero_add]
    · exact Function.update_self _ _ _
    · show (Function.update _ r.numKeys key : Nat → K) _ = _
      rw [Function.update_of_ne (by omega), blit_of_mem (by omega)]
  have hdk : keyList (smallerDonor d t) = segment d.keys t (d.numKeys - t) :=
    segment_congr fun i hi => blit_of_mem hi
  have hdc : childList (smallerDonor d t) = segment d.children t (d.numKeys - t + 1) :=
    segment_congr fun i hi => blit_of_mem hi
  have hd : keyList d = segment d.keys 0 (t - 1) ++ d.keys (t - 1) ::
      segment d.keys t (d.numKeys - t) :=
    segment_around (by omega) (fun i _ => by rw [Nat.zero_add]) rfl
      fun i _ => by rw [Nat.sub_add_cancel ht]
  have hc : childList d = segment d.children 0 t ++ segment d.children t (d.numKeys - t + 1) :=
    segment_two (by omega) (fun i _ => by rw [Nat.zero_add]) fun _ _ => rfl
  rw [hkeys, childList_smallerReceiver, hdk, hdc, hd, hc]
  simp

/-- The number of entries that are moved from a node with `m` of them to one
with `n`. -/
def toMove (m n : Nat) : Nat := m - (m + n) / 2

theorem toMove_bounds {m n : Nat} (h : n < m) : 0 < toMove m n ∧ toMove m n ≤ m ∧
    m - toMove m n ≤ n + toMove m n ∧ n + toMove m n ≤ m - toMove m n + 1 ∧
    m - toMove m n = (m + n) / 2 := by
  rw [toMove]
  omega

section

variable [LinearOrder K]

theorem balanceBranchNodes_larger (h : r.numKeys < d.numKeys) (hd : d.numKeys ≤ N)
    (hdir : d.keys 0 < r.keys 0) : balanceBranchNodes (cells N d) (cells N r) key =
      some (cells N (largerDonor d (toMove d.numKeys r.numKeys)), cells N
      (largerReceiver d r key (toMove d.numKeys r.numKeys)),
        d.keys (d.numKeys - toMove d.numKeys r.numKeys)) := by
  obtain ⟨hpos, hle, hsize, hsize', -⟩ := toMove_bounds h
  rw [← balanceToLarger_cells hpos hle hd (by omega), balanceBranchNodes]
  simp only [cells_numKeys, cells_keys, if_neg (Nat.not_le.mpr h), full_of_lt
    (show 0 < N by omega), Option.bind_eq_bind,
    Option.bind_some, if_pos hdir]
  rfl

theorem balanceBranchNodes_smaller (h : r.numKeys < d.numKeys) (hd : d.numKeys ≤ N)
    (hdir : ¬d.keys 0 < r.keys 0) : balanceBranchNodes (cells N d) (cells N r) key =
      balanceToSmaller (cells N d) (cells N r) key (toMove d.numKeys r.numKeys) := by
  rw [balanceBranchNodes]
  simp only [cells_numKeys, cells_keys, if_neg (Nat.not_le.mpr h), full_of_lt
    (show 0 < N by omega), Option.bind_eq_bind,
    Option.bind_some, if_neg hdir]
  rfl

/-- As long as the arrays are large enough for the one key too many, the nodes
are left with what the function on the contents gives. -/
theorem balanceBranchNodes_refines (h : r.numKeys < d.numKeys) (hd : d.numKeys ≤ N)
    (hfit : d.keys 0 < r.keys 0 ∨ r.numKeys + toMove d.numKeys r.numKeys < N) :
    ∃ d' r' key', BPTree.balanceBranchNodes d r key = .ok (d', r', key') ∧
      balanceBranchNodes (cells N d) (cells N r) key = some (cells N d', cells N r', key') := by
  obtain ⟨hpos, hle, -⟩ := toMove_bounds h
  rw [BPTree.balanceBranchNodes, if_neg (Nat.not_le.mpr h)]
  by_cases hdir : d.keys 0 < r.keys 0
  · rw [balanceBranchNodes_larger h hd hdir]
    simp only [if_pos hdir]
    exact ⟨_, _, _, rfl, rfl⟩
  · rw [balanceBranchNodes_smaller h hd hdir,
      balanceToSmaller_cells hpos hle hd (hfit.resolve_left hdir)]
    simp only [if_neg hdir]
    exact ⟨_, _, _, rfl, rfl⟩

/-! ## The right direction -/

/-- `key` separates the keys of `l` from those of `r`. -/
structure Separates (l : Branch C K) (key : K) (r : Branch C K) : Prop where
  below : ∀ i, i < l.numKeys → l.keys i < key
  above : ∀ i, i < r.numKeys → key ≤ r.keys i

/-- The two nodes and the key between them hold what they have held, and are
as large as each other. -/
structure Rebalanced (l : Branch C K) (key : K) (r l' : Branch C K) (key' : K) (r' : Branch C K) :
    Prop where
  keys : keyList l' ++ key' :: keyList r' = keyList l ++ key :: keyList r
  children : childList l' ++ childList r' = childList l ++ childList r
  sizes : l'.numKeys ≤ r'.numKeys + 1 ∧ r'.numKeys ≤ l'.numKeys + 1

omit [LinearOrder K] in
theorem childList_injective {b b' : Branch C K} (h : cells N b = cells N b') (hb : b.numKeys ≤ N) :
    childList b = childList b' := by
  have hnum : b.numKeys = b'.numKeys := congrArg BranchNode.numKeys h
  have hchildren : full (N + 1) b.children = full (N + 1) b'.children :=
    congrArg BranchNode.children h
  rw [childList, childList, ← hnum]
  refine segment_congr fun i hi => ?_
  have hcell := congrFun hchildren (0 + i)
  rw [full_of_lt (by omega), full_of_lt (by omega)] at hcell
  exact Option.some.inj hcell

omit [LinearOrder K] in
/-- An entry that is last and in front of another one is there twice. -/
theorem not_nodup_of_last {as bs cs : List C} {c : C} (hcs : cs ≠ [])
    (h : as ++ c :: cs = bs ++ [c]) : ¬(bs ++ [c]).Nodup := by
  intro hnd
  have hlast : cs.getLast hcs = c := by
    have hgets : (as ++ c :: cs).getLast? = (bs ++ [c]).getLast? := by rw [h]
    rw [List.getLast?_append_of_ne_nil _ (List.cons_ne_nil c cs), List.getLast?_cons_of_ne_nil hcs,
      List.getLast?_eq_some_getLast hcs, List.getLast?_concat] at hgets
    exact Option.some.inj hgets
  rw [← h, List.nodup_append, List.nodup_cons] at hnd
  exact hnd.2.1.1 (hlast ▸ List.getLast_mem hcs)

omit [LinearOrder K] in
/-- An entry that is first and behind another one is there twice. -/
theorem not_nodup_of_first {as bs cs : List C} {c : C} (has : as ≠ [])
    (h : as ++ c :: cs = c :: bs) : ¬(c :: bs).Nodup := by
  intro hnd
  cases as with
  | nil => exact has rfl
  | cons a as =>
      rw [List.cons_append, List.cons.injEq] at h
      rw [← h.2, List.nodup_cons] at hnd
      exact hnd.1 (by simp)

variable {l : Branch C K}

/-- The left node gives entries to the right one, within the arrays. -/
def KeptFromLeft (N : Nat) (l : Branch C K) (key : K) (r : Branch C K) : Prop :=
  ∃ l' r' key', balanceBranchNodes (cells N l) (cells N r) key =
    some (cells N l', cells N r', key') ∧ Rebalanced l key r l' key' r'

/-- The right node gives entries to the left one. -/
def KeptFromRight (N : Nat) (l : Branch C K) (key : K) (r : Branch C K) : Prop :=
  ∃ l' r' key', balanceBranchNodes (cells N r) (cells N l) key =
    some (cells N r', cells N l', key') ∧ Rebalanced l key r l' key' r'

theorem balance_left_iff (hsep : Separates l key r) (h : r.numKeys < l.numKeys)
    (hl : l.numKeys ≤ N) :
    (0 < r.numKeys ∨ l.keys 0 < r.keys 0 → KeptFromLeft N l key r) ∧
    ((childList l ++ childList r).Nodup → KeptFromLeft N l key r →
      0 < r.numKeys ∨ l.keys 0 < r.keys 0) := by
  obtain ⟨hpos, hle, hsize, hsize', -⟩ := toMove_bounds h
  constructor
  · intro hdir
    have hless : l.keys 0 < r.keys 0 := by
      rcases hdir with hr | hless
      · exact lt_of_lt_of_le (hsep.below 0 (by omega)) (hsep.above 0 hr)
      · exact hless
    obtain ⟨hkeys, hchildren⟩ := @larger_contents C K l r key _ hpos hle
    exact ⟨_, _, _, balanceBranchNodes_larger h hl hless, hkeys, hchildren, hsize.trans
      (Nat.le_succ _),
      hsize'⟩
  · rintro hnd ⟨l', r', key', hrun, hbal⟩
    by_contra hdir
    have hempty : r.numKeys = 0 := by omega
    rw [balanceBranchNodes_smaller h hl fun hless => hdir (.inr hless)] at hrun
    rcases Nat.lt_or_ge (r.numKeys + toMove l.numKeys r.numKeys) N with hfit | hover
    · rw [balanceToSmaller_cells hpos hle hl hfit, Option.some.injEq, Prod.mk.injEq, Prod.mk.injEq]
        at hrun
      have hleft := childList_injective hrun.1 (show l.numKeys - _ ≤ N by omega)
      have hright := childList_injective hrun.2.1 (show r.numKeys + _ ≤ N by omega)
      have hone : childList r = [r.children 0] := by
        rw [childList, hempty, Nat.zero_add, segment_one]
      have heq := hbal.children
      rw [← hleft, ← hright, childList_smallerReceiver, hone, List.singleton_append] at heq
      rw [hone] at hnd
      refine not_nodup_of_last (fun hnil => ?_) heq hnd
      have hlen := congrArg List.length hnil
      rw [length_segment, List.length_nil] at hlen
      omega
    · rw [balanceToSmaller_overflows hpos (by omega)] at hrun
      cases hrun

theorem balance_right_iff (hsep : Separates l key r) (h : l.numKeys < r.numKeys)
    (hr : r.numKeys ≤ N) :
    ((0 < l.numKeys ∨ ¬r.keys 0 < l.keys 0) ∧ ¬(r.numKeys = N ∧ l.numKeys + 1 = N) →
      KeptFromRight N l key r) ∧
    ((childList l ++ childList r).Nodup → KeptFromRight N l key r →
      (0 < l.numKeys ∨ ¬r.keys 0 < l.keys 0) ∧ ¬(r.numKeys = N ∧ l.numKeys + 1 = N)) := by
  obtain ⟨hpos, hle, hsize, hsize', hhalf⟩ := toMove_bounds h
  constructor
  · rintro ⟨hdir, hfit⟩
    have hge : ¬r.keys 0 < l.keys 0 := by
      rcases hdir with hl | hge
      · exact not_lt.mpr (le_trans (le_of_lt (hsep.below 0 hl)) (hsep.above 0 (by omega)))
      · exact hge
    obtain ⟨hkeys, hchildren⟩ := @smaller_contents C K r l key _ hpos hle
    refine ⟨_, _, _, ?_, hkeys, hchildren, hsize', hsize.trans (Nat.le_succ _)⟩
    rw [balanceBranchNodes_smaller h hr hge, balanceToSmaller_cells hpos hle hr (by omega)]
  · rintro hnd ⟨l', r', key', hrun, hbal⟩
    by_cases hdir : r.keys 0 < l.keys 0
    · rw [balanceBranchNodes_larger h hr hdir, Option.some.injEq, Prod.mk.injEq,
        Prod.mk.injEq] at hrun
      exfalso
      have hempty : l.numKeys = 0 := by
        by_contra hl
        have hless := lt_of_lt_of_le (hsep.below 0 (by omega)) (hsep.above 0 (by omega))
        exact lt_asymm hdir hless
      have hleft := childList_injective hrun.2.1 (show l.numKeys + _ ≤ N by omega)
      have hone : childList l = [l.children 0] := by
        rw [childList, hempty, Nat.zero_add, segment_one]
      have heq := hbal.children
      rw [← hleft, childList_largerReceiver, hone, List.append_assoc, List.singleton_append,
        List.singleton_append] at heq
      rw [hone, List.singleton_append] at hnd
      refine not_nodup_of_first (fun hnil => ?_) heq hnd
      have hlen := congrArg List.length hnil
      rw [length_segment, List.length_nil] at hlen
      omega
    · refine ⟨.inr hdir, ?_⟩
      rintro ⟨hrN, hlN⟩
      rw [balanceBranchNodes_smaller h hr hdir, balanceToSmaller_overflows hpos (by omega)] at hrun
      cases hrun

/-! ## Merging branches -/

/-- The merged branch. -/
def merged (l : Branch C K) (key : K) (r : Branch C K) : Branch C K where
  numKeys := l.numKeys + (r.numKeys + 1)
  keys := blit (Function.update l.keys l.numKeys key) (l.numKeys + 1) r.keys 0 r.numKeys
  children := blit l.children (l.numKeys + 1) r.children 0 (r.numKeys + 1)

omit [LinearOrder K] in
theorem merged_contents : keyList (merged l key r) = keyList l ++ key :: keyList r ∧
    childList (merged l key r) = childList l ++ childList r := by
  constructor
  · refine segment_around (show l.numKeys + (r.numKeys + 1) = _ by omega) (fun i hi => ?_) ?_
      fun i hi => ?_
    · show blit _ (l.numKeys + 1) r.keys 0 r.numKeys i = _
      rw [blit_of_lt (by omega), Function.update_of_ne (by omega), Nat.zero_add]
    · show blit _ (l.numKeys + 1) r.keys 0 r.numKeys l.numKeys = key
      rw [blit_of_lt (by omega), Function.update_self]
    · exact blit_of_mem hi
  · refine segment_two (show l.numKeys + (r.numKeys + 1) + 1 = _ by omega) (fun i hi => ?_)
      fun i hi => blit_of_mem hi
    show blit _ (l.numKeys + 1) r.children 0 (r.numKeys + 1) i = _
    rw [blit_of_lt hi, Nat.zero_add]

theorem mergeBranchNodes_cells (hl : 0 < l.numKeys) (hfit : l.numKeys + r.numKeys + 1 ≤ N)
    (hfirst : key ≤ r.keys 0) (hlast : l.keys (l.numKeys - 1) < key) :
    mergeBranchNodes (cells N l) key (cells N r) = some (cells N (merged l key r)) := by
  have hchildren : blit (Function.update l.children (l.numKeys + 1) (r.children 0)) (l.numKeys + 2)
      r.children 1 r.numKeys = blit l.children (l.numKeys + 1) r.children 0 (r.numKeys + 1) := by
    rw [blit_cons]
  rw [mergeBranchNodes, if_neg (show ¬(cells N l).numKeys = 0 from Nat.ne_of_gt hl)]
  simp only [cells_numKeys, cells_keys, cells_children, Option.bind_eq_bind]
  rw [full_of_lt (by omega), Option.bind_some, full_of_lt (by omega), Option.bind_some, if_pos
    ⟨hfirst, hlast⟩, store_full (by omega), Option.bind_some,
    full_of_lt (by omega), Option.bind_some, store_full (by omega), Option.bind_some,
    copyCells_full (by omega) (by omega), Option.bind_some, copyCells_full (by omega) (by omega),
    Option.bind_some, hchildren]
  rfl

theorem mergeBranchNodes_refines (hl : 0 < l.numKeys) (hfit : l.numKeys + r.numKeys + 1 ≤ N)
    (hfirst : key ≤ r.keys 0) (hlast : l.keys (l.numKeys - 1) < key) :
    ∃ m, BPTree.mergeBranchNodes N l key r = .ok m ∧
      mergeBranchNodes (cells N l) key (cells N r) = some (cells N m) := by
  refine ⟨_, ?_, mergeBranchNodes_cells hl hfit hfirst hlast⟩
  rw [BPTree.mergeBranchNodes, if_neg (by omega), if_neg, if_neg (by omega)]
  · rfl
  · rintro (hlt | hle)
    · exact absurd hlt (not_lt.mpr hfirst)
    · exact absurd hle (not_le.mpr hlast)

/-- The two branches are concatenated around the key. -/
def Concatenated (N : Nat) (l : Branch C K) (key : K) (r : Branch C K) : Prop :=
  ∃ m, mergeBranchNodes (cells N l) key (cells N r) = some (cells N m) ∧
    keyList m = keyList l ++ key :: keyList r ∧ childList m = childList l ++ childList r

theorem merge_iff (hsep : Separates l key r) (hfit : l.numKeys + r.numKeys + 1 ≤ N) :
    Concatenated N l key r ↔ 0 < l.numKeys ∧ (0 < r.numKeys ∨ key ≤ r.keys 0) := by
  constructor
  · rintro ⟨m, hrun, -⟩
    rw [mergeBranchNodes] at hrun
    rcases Nat.eq_zero_or_pos l.numKeys with hl | hl
    · rw [if_pos (show (cells N l).numKeys = 0 from hl), cells_keys, full_of_lt (by omega)] at hrun
      cases hrun
    · rw [if_neg (show ¬(cells N l).numKeys = 0 from Nat.ne_of_gt hl)] at hrun
      simp only [cells_numKeys, cells_keys, cells_children, Option.bind_eq_bind] at hrun
      rw [full_of_lt (by omega), Option.bind_some, full_of_lt (by omega), Option.bind_some] at hrun
      split at hrun
      · next hassert => exact ⟨hl, .inr hassert.1⟩
      · cases hrun
  · rintro ⟨hl, hr⟩
    have hfirst : key ≤ r.keys 0 := by
      rcases hr with hr | hfirst
      · exact hsep.above 0 hr
      · exact hfirst
    exact ⟨_, mergeBranchNodes_cells hl hfit hfirst (hsep.below _ (by omega)), merged_contents⟩

end

/-! ## Leaves -/

section

variable {d r l : Poseidon.LeafNode K V}

/-- The entries of a leaf from left to right. -/
def entryAt (l : Poseidon.LeafNode K V) (i : Nat) : K × V := (l.keys i, l.values i)

theorem entries_eq (l : Poseidon.LeafNode K V) : ImTree.entries l =
    segment (entryAt l) 0 l.numKeys := by
  refine List.map_congr_left fun i _ => ?_
  rw [Nat.zero_add]
  rfl

/-- The leaves when entries go to larger keys. -/
def largerLeafDonor (d : Poseidon.LeafNode K V) (t : Nat) : Poseidon.LeafNode K V :=
  { d with numKeys := d.numKeys - t }

def largerLeafReceiver (d r : Poseidon.LeafNode K V) (t : Nat) : Poseidon.LeafNode K V :=
  { r with
    keys := blit (blit r.keys t r.keys 0 r.numKeys) 0 d.keys (d.numKeys - t) t
    values := blit (blit r.values t r.values 0 r.numKeys) 0 d.values (d.numKeys - t) t
    numKeys := r.numKeys + t }

/-- The leaves when entries go to smaller keys. -/
def smallerLeafDonor (d : Poseidon.LeafNode K V) (t : Nat) : Poseidon.LeafNode K V :=
  { d with
    keys := blit d.keys 0 d.keys t (d.numKeys - t)
    values := blit d.values 0 d.values t (d.numKeys - t)
    numKeys := d.numKeys - t }

def smallerLeafReceiver (d r : Poseidon.LeafNode K V) (t : Nat) : Poseidon.LeafNode K V :=
  { r with
    keys := blit r.keys r.numKeys d.keys 0 t
    values := blit r.values r.numKeys d.values 0 t
    numKeys := r.numKeys + t }

def mergedLeaf (l r : Poseidon.LeafNode K V) : Poseidon.LeafNode K V :=
  { l with
    keys := blit l.keys l.numKeys r.keys 0 r.numKeys
    values := blit l.values l.numKeys r.values 0 r.numKeys
    numKeys := l.numKeys + r.numKeys
    nextLeaf := r.nextLeaf }

theorem larger_entries (t : Nat) :
    ImTree.entries (largerLeafDonor d t) = segment (entryAt d) 0 (d.numKeys - t) ∧
      ImTree.entries (largerLeafReceiver d r t) =
        segment (entryAt d) (d.numKeys - t) t ++ ImTree.entries r := by
  refine ⟨entries_eq _, ?_⟩
  rw [entries_eq, entries_eq]
  refine segment_two (Nat.add_comm _ _) (fun i hi => Prod.ext ?_ ?_) fun i hi => Prod.ext ?_ ?_
  · show blit _ 0 d.keys _ t i = _
    rw [← Nat.zero_add i, blit_of_mem hi, Nat.zero_add]
    rfl
  · show blit _ 0 d.values _ t i = _
    rw [← Nat.zero_add i, blit_of_mem hi, Nat.zero_add]
    rfl
  · show blit _ 0 d.keys _ t _ = _
    rw [blit_of_ge (by omega), blit_of_mem hi]
    rfl
  · show blit _ 0 d.values _ t _ = _
    rw [blit_of_ge (by omega), blit_of_mem hi]
    rfl

theorem smaller_entries (t : Nat) :
    ImTree.entries (smallerLeafDonor d t) = segment (entryAt d) t (d.numKeys - t) ∧
      ImTree.entries (smallerLeafReceiver d r t) = ImTree.entries r ++ segment (entryAt d) 0 t := by
  rw [entries_eq, entries_eq, entries_eq]
  refine ⟨segment_congr fun i hi => Prod.ext (blit_of_mem hi) (blit_of_mem hi), ?_⟩
  refine segment_two rfl (fun i hi => Prod.ext ?_ ?_) fun i hi =>
    Prod.ext (blit_of_mem hi) (blit_of_mem hi)
  · show blit _ r.numKeys d.keys 0 t i = _
    rw [blit_of_lt hi, Nat.zero_add]
    rfl
  · show blit _ r.numKeys d.values 0 t i = _
    rw [blit_of_lt hi, Nat.zero_add]
    rfl

theorem merged_entries :
    ImTree.entries (mergedLeaf l r) = ImTree.entries l ++ ImTree.entries r := by
  rw [entries_eq, entries_eq, entries_eq]
  refine segment_two rfl (fun i hi => Prod.ext ?_ ?_) fun i hi =>
    Prod.ext (blit_of_mem hi) (blit_of_mem hi)
  · show blit _ l.numKeys r.keys 0 r.numKeys i = _
    rw [blit_of_lt hi, Nat.zero_add]
    rfl
  · show blit _ l.numKeys r.values 0 r.numKeys i = _
    rw [blit_of_lt hi, Nat.zero_add]
    rfl

theorem mergeLeafNodes_cells (hfit : l.numKeys + r.numKeys ≤ M) :
    mergeLeafNodes M (leafCells M l) (leafCells M r) = some (leafCells M (mergedLeaf l r)) := by
  rw [mergeLeafNodes, if_neg (show ¬M < (leafCells M l).numKeys + (leafCells M r).numKeys from
    Nat.not_lt.mpr hfit)]
  simp only [leafCells_numKeys, leafCells_keys, leafCells_values, Option.bind_eq_bind]
  rw [copyCells_full (by omega) (by omega), Option.bind_some,
    copyCells_full (by omega) (by omega), Option.bind_some]
  rfl

variable [LinearOrder K]

theorem balanceLeafNodes_larger (h : r.numKeys < d.numKeys) (hd : d.numKeys ≤ M)
    (hdir : d.keys 0 < r.keys 0) : balanceLeafNodes (leafCells M d) (leafCells M r) =
      some (leafCells M (largerLeafDonor d (toMove d.numKeys r.numKeys)),
        leafCells M (largerLeafReceiver d r (toMove d.numKeys r.numKeys))) := by
  obtain ⟨hpos, hle, hsize, hsize', hhalf⟩ := toMove_bounds h
  rw [balanceLeafNodes, if_neg (show ¬(leafCells M d).numKeys ≤ (leafCells M r).numKeys from
    Nat.not_le.mpr h)]
  simp only [leafCells_numKeys, leafCells_keys, leafCells_values, Option.bind_eq_bind, ← hhalf]
  rw [full_of_lt (by omega), Option.bind_some, full_of_lt (by omega),
    Option.bind_some, if_pos hdir, moveDown_full (Nat.zero_le _) (by omega), Option.bind_some,
    moveDown_full (Nat.zero_le _) (by omega), Option.bind_some,
    copyCells_full (by omega) (by omega),
    Option.bind_some, copyCells_full (by omega) (by omega), Option.bind_some,
    show d.numKeys - (d.numKeys - toMove d.numKeys r.numKeys) = toMove d.numKeys r.numKeys by omega]
  rfl

theorem balanceLeafNodes_smaller (h : r.numKeys < d.numKeys) (hd : d.numKeys ≤ M)
    (hdir : ¬d.keys 0 < r.keys 0) : balanceLeafNodes (leafCells M d) (leafCells M r) =
      some (leafCells M (smallerLeafDonor d (toMove d.numKeys r.numKeys)),
        leafCells M (smallerLeafReceiver d r (toMove d.numKeys r.numKeys))) := by
  obtain ⟨hpos, hle, hsize, hsize', hhalf⟩ := toMove_bounds h
  have hmove : d.numKeys - (d.numKeys + r.numKeys) / 2 = toMove d.numKeys r.numKeys := rfl
  rw [balanceLeafNodes, if_neg (show ¬(leafCells M d).numKeys ≤ (leafCells M r).numKeys from
    Nat.not_le.mpr h)]
  simp only [leafCells_numKeys, leafCells_keys, leafCells_values, Option.bind_eq_bind, hmove]
  rw [full_of_lt (by omega), Option.bind_some, full_of_lt (by omega),
    Option.bind_some, if_neg hdir, copyCells_full (by omega) (by omega), Option.bind_some,
    copyCells_full (by omega) (by omega), Option.bind_some, moveUp_full (Nat.zero_le _) (by omega),
    Option.bind_some, moveUp_full (Nat.zero_le _) (by omega), Option.bind_some]
  rfl

/-- The keys of two leaves that are neighbours. -/
structure Ordered (l r : Poseidon.LeafNode K V) : Prop where
  left : ∀ i j, i < j → j < l.numKeys → l.keys i < l.keys j
  right : ∀ i j, i < j → j < r.numKeys → r.keys i < r.keys j
  apart : ∀ i j, i < l.numKeys → j < r.numKeys → l.keys i < r.keys j

omit [LinearOrder K] in
theorem entries_injective {l l' : Poseidon.LeafNode K V} (h : leafCells M l = leafCells M l')
    (hl : l.numKeys ≤ M) : ImTree.entries l = ImTree.entries l' := by
  have hnum : l.numKeys = l'.numKeys := congrArg LeafNode.numKeys h
  have hkeys : full M l.keys = full M l'.keys := congrArg LeafNode.keys h
  have hvalues : full M l.values = full M l'.values := congrArg LeafNode.values h
  rw [entries_eq, entries_eq, ← hnum]
  refine segment_congr fun i hi => Prod.ext ?_ ?_
  · have hcell := congrFun hkeys (0 + i)
    rw [full_of_lt (by omega), full_of_lt (by omega)] at hcell
    exact Option.some.inj hcell
  · have hcell := congrFun hvalues (0 + i)
    rw [full_of_lt (by omega), full_of_lt (by omega)] at hcell
    exact Option.some.inj hcell

omit [LinearOrder K] in
/-- The entries of a leaf in two parts. -/
theorem entries_split (l : Poseidon.LeafNode K V) {m n : Nat} (h : l.numKeys = m + n) :
    ImTree.entries l = segment (entryAt l) 0 m ++ segment (entryAt l) m n := by
  rw [entries_eq, h, segment_append, Nat.zero_add]

/-- The two parts of the entries cannot be exchanged. -/
theorem exchanged_ne {d : Poseidon.LeafNode K V}
    (hd : ∀ i j, i < j → j < d.numKeys → d.keys i < d.keys j)
    {m n : Nat} (hsum : d.numKeys = m + n) (hm : 0 < m) (hn : 0 < n) :
    segment (entryAt d) m n ++ segment (entryAt d) 0 m ≠ ImTree.entries d := by
  intro heq
  have hhead := congrArg List.head? heq
  obtain ⟨n, rfl⟩ : ∃ k, n = k + 1 := ⟨n - 1, by omega⟩
  obtain ⟨m, rfl⟩ : ∃ k, m = k + 1 := ⟨m - 1, by omega⟩
  rw [entries_split d hsum, Nat.add_comm n 1, segment_append, segment_one, Nat.add_comm m 1,
    @segment_append _ 0 1 m, segment_one] at hhead
  have hkeys : d.keys (1 + m) = d.keys 0 := congrArg Prod.fst (Option.some.inj hhead)
  exact ne_of_gt (hd 0 (1 + m) (by omega) (by omega)) hkeys

/-- The left leaf gives entries to the right one. -/
def LeafKeptFromLeft (M : Nat) (l r : Poseidon.LeafNode K V) : Prop :=
  ∃ l' r', balanceLeafNodes (leafCells M l) (leafCells M r) =
    some (leafCells M l', leafCells M r') ∧
    ImTree.entries l' ++ ImTree.entries r' = ImTree.entries l ++ ImTree.entries r

/-- The right leaf gives entries to the left one. -/
def LeafKeptFromRight (M : Nat) (l r : Poseidon.LeafNode K V) : Prop :=
  ∃ l' r', balanceLeafNodes (leafCells M r) (leafCells M l) =
    some (leafCells M r', leafCells M l') ∧
    ImTree.entries l' ++ ImTree.entries r' = ImTree.entries l ++ ImTree.entries r

theorem balanceLeaf_left_iff (hord : Ordered l r) (h : r.numKeys < l.numKeys) (hl : l.numKeys ≤ M) :
    LeafKeptFromLeft M l r ↔ 0 < r.numKeys ∨ l.keys 0 < r.keys 0 ∨ l.numKeys = 1 := by
  obtain ⟨hpos, hle, hsize, hsize', hhalf⟩ := toMove_bounds h
  have hsplit := entries_split l (show l.numKeys = l.numKeys - toMove l.numKeys r.numKeys +
    toMove l.numKeys r.numKeys by omega)
  rw [LeafKeptFromLeft]
  by_cases hless : l.keys 0 < r.keys 0
  · refine iff_of_true ⟨_, _, balanceLeafNodes_larger h hl hless, ?_⟩ (.inr (.inl hless))
    obtain ⟨hleft, hright⟩ := @larger_entries K V l r (toMove l.numKeys r.numKeys)
    rw [hleft, hright, hsplit, List.append_assoc]
  · -- then the right leaf has no keys, and its entries end up in front
    have hempty : r.numKeys = 0 := by
      by_contra hr
      exact hless (hord.apart 0 0 (by omega) (by omega))
    have hnone : ImTree.entries r = [] := by rw [entries_eq, hempty]; rfl
    obtain ⟨hleft, hright⟩ := @smaller_entries K V l r (toMove l.numKeys r.numKeys)
    rw [balanceLeafNodes_smaller h hl hless]
    have hparts : l.numKeys = toMove l.numKeys r.numKeys +
      (l.numKeys - toMove l.numKeys r.numKeys) := by
      omega
    constructor
    · rintro ⟨l', r', hrun, hsame⟩
      rw [Option.some.injEq, Prod.mk.injEq] at hrun
      rw [← entries_injective hrun.1 (show l.numKeys - _ ≤ M by omega),
        ← entries_injective hrun.2 (show r.numKeys + _ ≤ M by omega), hleft, hright, hnone,
        List.nil_append, List.append_nil] at hsame
      rcases Nat.eq_zero_or_pos (l.numKeys - toMove l.numKeys r.numKeys) with hzero | hrest
      · exact .inr (.inr (by omega))
      · exact absurd hsame (exchanged_ne hord.left hparts hpos hrest)
    · rintro (hr | hdir | hone)
      · omega
      · exact absurd hdir hless
      · refine ⟨_, _, rfl, ?_⟩
        have hmove : toMove l.numKeys r.numKeys = 1 := by omega
        rw [hleft, hright, hnone, hmove, hone, List.append_nil, entries_eq, hone]
        rfl

theorem balanceLeaf_right_iff (hord : Ordered l r) (h : l.numKeys < r.numKeys)
    (hr : r.numKeys ≤ M) :
    LeafKeptFromRight M l r ↔ 0 < l.numKeys ∨ ¬r.keys 0 < l.keys 0 ∨ r.numKeys = 1 := by
  obtain ⟨hpos, hle, hsize, hsize', hhalf⟩ := toMove_bounds h
  rw [LeafKeptFromRight]
  by_cases hless : r.keys 0 < l.keys 0
  · -- then the left leaf has no keys, and its entries end up behind
    have hempty : l.numKeys = 0 := by
      by_contra hl
      exact lt_asymm hless (hord.apart 0 0 (by omega) (by omega))
    have hnone : ImTree.entries l = [] := by rw [entries_eq, hempty]; rfl
    obtain ⟨hright, hleft⟩ := @larger_entries K V r l (toMove r.numKeys l.numKeys)
    rw [balanceLeafNodes_larger h hr hless]
    have hparts : r.numKeys = r.numKeys - toMove r.numKeys l.numKeys +
      toMove r.numKeys l.numKeys := by
      omega
    constructor
    · rintro ⟨l', r', hrun, hsame⟩
      rw [Option.some.injEq, Prod.mk.injEq] at hrun
      rw [← entries_injective hrun.1 (show r.numKeys - _ ≤ M by omega),
        ← entries_injective hrun.2 (show l.numKeys + _ ≤ M by omega), hleft, hright, hnone,
        List.nil_append, List.append_nil] at hsame
      rcases Nat.eq_zero_or_pos (r.numKeys - toMove r.numKeys l.numKeys) with hzero | hrest
      · exact .inr (.inr (by omega))
      · exact absurd hsame (exchanged_ne hord.right hparts hrest hpos)
    · rintro (hl | hdir | hone)
      · omega
      · exact absurd hless hdir
      · refine ⟨_, _, rfl, ?_⟩
        have hmove : toMove r.numKeys l.numKeys = 1 := by omega
        rw [hleft, hright, hnone, hmove, hone, List.append_nil, entries_eq, hone]
        rfl
  · refine iff_of_true ⟨_, _, balanceLeafNodes_smaller h hr hless, ?_⟩ (.inr (.inl hless))
    obtain ⟨hright, hleft⟩ := @smaller_entries K V r l (toMove r.numKeys l.numKeys)
    have hsplit := entries_split r (show r.numKeys = toMove r.numKeys l.numKeys +
      (r.numKeys - toMove r.numKeys l.numKeys) by omega)
    rw [hleft, hright, hsplit, List.append_assoc]

/-! ## Leaves in the heap -/

section

variable {t : ImTree K V} {p q : Nat}

/-- What is stored in the heap are the leaves with these arrays. -/
theorem balanceLeafNodes_refines (hp : t.leaves p = some d) (hq : t.leaves q = some r)
    (h : r.numKeys < d.numKeys) (hd : d.numKeys ≤ M) :
    ∃ d' r', balanceLeafNodes (leafCells M d) (leafCells M r) =
    some (leafCells M d', leafCells M r') ∧
      wp (ImTree.balanceLeafNodes p q) (fun _ t' => t' = { t with
        leaves := Function.update (Function.update t.leaves q (some r')) p (some d') })
        (fun _ _ => False) t := by
  by_cases hdir : d.keys 0 < r.keys 0
  · refine ⟨_, _, balanceLeafNodes_larger h hd hdir, ?_⟩
    simp only [ImTree.balanceLeafNodes, BPTree.getLeaf, wp_bind, wp_get, hp, hq, wp_pure,
      if_neg (Nat.not_le.mpr h), if_pos hdir, BPTree.setLeaf, wp_modify]
    rw [largerLeafReceiver, (toMove_bounds h).2.2.2.2]
    rfl
  · refine ⟨_, _, balanceLeafNodes_smaller h hd hdir, ?_⟩
    simp only [ImTree.balanceLeafNodes, BPTree.getLeaf, wp_bind, wp_get, hp, hq, wp_pure,
      if_neg (Nat.not_le.mpr h), if_neg hdir, BPTree.setLeaf, wp_modify]
    rfl

omit [LinearOrder K] in
theorem mergeLeafNodes_refines (hp : t.leaves p = some l) (hq : t.leaves q = some r) (hpq : p ≠ q)
    (hnext : ∀ x, r.nextLeaf = some x → x ≠ p ∧ x ≠ q ∧ ∃ n, t.leaves x = some n)
    (hfit : l.numKeys + r.numKeys ≤ M) :
    ∃ m, mergeLeafNodes M (leafCells M l) (leafCells M r) = some (leafCells M m) ∧
      wp (ImTree.mergeLeafNodes M p q) (fun _ t' => t'.leaves p = some m) (fun _ _ => False) t := by
  refine ⟨_, mergeLeafNodes_cells hfit, ?_⟩
  simp only [ImTree.mergeLeafNodes, BPTree.getLeaf, wp_bind, wp_get, hp, hq, wp_pure,
    if_neg (Nat.not_lt.mpr hfit), BPTree.setLeaf, wp_modify]
  cases hx : r.nextLeaf with
  | none =>
      simp only [wp_pure]
      rw [Function.update_of_ne hpq, Function.update_self, ← hx]
      rfl
  | some x =>
      obtain ⟨hxp, hxq, n, hn⟩ := hnext x hx
      have hget : Function.update (Function.update t.leaves p (some (mergedLeaf l r))) q
          (some { r with numKeys := 0 }) x = some n := by
        rw [Function.update_of_ne hxq, Function.update_of_ne hxp, hn]
      rw [mergedLeaf, hx] at hget
      simp only [wp_bind, wp_get, hget, wp_pure, wp_modify]
      rw [Function.update_of_ne (Ne.symm hxp), Function.update_of_ne hpq,
        Function.update_self, ← hx]
      rfl

end

/-! ## All four -/

/-- Where entries go from one node to the other, the one that gets them has
keys, or its first key happens to be on the right side; and a full right node
is not next to a left one that lacks one key. A merge needs keys in the left
node, and in the right one or a first key that happens to be large enough. -/
theorem rebalancing_iff :
    (∀ N (l r : Branch C K) key, Separates l key r →
      (r.numKeys < l.numKeys → l.numKeys ≤ N →
        (0 < r.numKeys ∨ l.keys 0 < r.keys 0 → KeptFromLeft N l key r) ∧
        ((childList l ++ childList r).Nodup → KeptFromLeft N l key r →
          0 < r.numKeys ∨ l.keys 0 < r.keys 0)) ∧
      (l.numKeys < r.numKeys → r.numKeys ≤ N →
        ((0 < l.numKeys ∨ ¬r.keys 0 < l.keys 0) ∧ ¬(r.numKeys = N ∧ l.numKeys + 1 = N) →
          KeptFromRight N l key r) ∧
        ((childList l ++ childList r).Nodup → KeptFromRight N l key r →
          (0 < l.numKeys ∨ ¬r.keys 0 < l.keys 0) ∧ ¬(r.numKeys = N ∧ l.numKeys + 1 = N))) ∧
      (l.numKeys + r.numKeys + 1 ≤ N →
        (Concatenated N l key r ↔ 0 < l.numKeys ∧ (0 < r.numKeys ∨ key ≤ r.keys 0)))) ∧
    ∀ M (l r : Poseidon.LeafNode K V),
      (l.numKeys + r.numKeys ≤ M → ∃ m, mergeLeafNodes M (leafCells M l) (leafCells M r) =
        some (leafCells M m) ∧ ImTree.entries m = ImTree.entries l ++ ImTree.entries r) ∧
      (Ordered l r → r.numKeys < l.numKeys → l.numKeys ≤ M →
        (LeafKeptFromLeft M l r ↔ 0 < r.numKeys ∨ l.keys 0 < r.keys 0 ∨ l.numKeys = 1)) ∧
      (Ordered l r → l.numKeys < r.numKeys → r.numKeys ≤ M →
        (LeafKeptFromRight M l r ↔ 0 < l.numKeys ∨ ¬r.keys 0 < l.keys 0 ∨ r.numKeys = 1)) := by
  constructor
  · intro N l r key hsep
    exact ⟨balance_left_iff hsep, balance_right_iff hsep, merge_iff hsep⟩
  · intro M l r
    exact ⟨fun hfit => ⟨_, mergeLeafNodes_cells hfit, merged_entries⟩, balanceLeaf_left_iff,
      balanceLeaf_right_iff⟩

end

section

/-- Three keys and four children, and four keys and five children. -/
def left : Branch Nat Nat := ⟨3, (1 + ·), id⟩

def right : Branch Nat Nat := ⟨4, (5 + ·), (4 + ·)⟩

theorem left_right_separated : Separates left 4 right := by
  constructor
  · intro i hi
    change i < 3 at hi
    show 1 + i < 4
    omega
  · intro i hi
    show 4 ≤ 5 + i
    omega

theorem left_right_nodup : (childList left ++ childList right).Nodup := by decide

/-- In nodes for six keys the fourth one goes up and the separator down. -/
theorem rebalancing_four : KeptFromRight 6 left 4 right ∧ ¬KeptFromRight 4 left 4 right := by
  have hsix := ((@rebalancing_iff Nat Nat Nat _).1 6 left right 4 left_right_separated).2.1
    (by decide) (by decide)
  have hfour := ((@rebalancing_iff Nat Nat Nat _).1 4 left right 4 left_right_separated).2.1
    (by decide) (by decide)
  refine ⟨hsix.1 ⟨.inl (by decide), by decide⟩, fun hkept => ?_⟩
  exact (hfour.2 left_right_nodup hkept).2 ⟨rfl, rfl⟩

/-- In nodes for four keys a fifth key is written to the left node. -/
theorem balanceBranchNodes_overflows : Separates left 4 right ∧ ¬KeptFromRight 4 left 4 right ∧
    (BPTree.balanceBranchNodes right left 4).toOption.isSome = true := by
  refine ⟨left_right_separated, ?_, by decide⟩
  rintro ⟨l', r', key', hrun, -⟩
  have hnone : balanceBranchNodes (cells 4 right) (cells 4 left) 4 = none := by
    rw [balanceBranchNodes_smaller (by decide) (by decide) (by decide)]
    exact balanceToSmaller_overflows (by decide) (by decide)
  rw [hnone] at hrun
  cases hrun

end

end InPlace

end Poseidon
