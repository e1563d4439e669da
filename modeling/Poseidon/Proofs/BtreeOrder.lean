import Mathlib.Data.List.Perm.Subperm
import Poseidon.Proofs.BtreeInsert

/-!
# The leaves in order

Inserting calls `insertInLeafNode` once, for the leaf that the search leads
to. When that leaf is split, its sibling comes right after it in the order of
the leaves, however far up the split of the branches goes; the heap is as the
call has left it.
-/

namespace Poseidon

open BTree Wp

namespace BPTree

variable {C K L : Type} {N : Nat} {key : K}

/-- `q` has been put behind `p`. -/
def Spliced (os os' : List Nat) (p : Nat) (q : Option Nat) : Prop :=
  ∃ xs ys, os = xs ++ p :: ys ∧ os' = xs ++ p :: (q.toList ++ ys)

theorem Spliced.context {os os' : List Nat} {p : Nat} {q : Option Nat} (h : Spliced os os' p q)
    (as bs : List Nat) : Spliced (as ++ os ++ bs) (as ++ os' ++ bs) p q := by
  obtain ⟨xs, ys, rfl, rfl⟩ := h
  exact ⟨as ++ xs, ys ++ bs, by simp, by simp⟩

/-- The leaves of a node and of the sibling that it has been split into. -/
def resultLeaves (d : Nat) : Node K × Option (K × Node K) → List Nat
  | (n, none) => leavesOf d n
  | (n, some (_, r)) => leavesOf d n ++ leavesOf d r

theorem kids_around {b : Branch C K} {pos : Nat} (hpos : pos ≤ b.numKeys) :
    b.kids = b.kids.take pos ++ [b.children pos] ++ b.kids.drop (pos + 1) := by
  have hget : b.kids[pos]? = some (b.children pos) := by
    rw [Branch.getElem?_kids, if_pos hpos]
  obtain ⟨hlt, heq⟩ := List.getElem?_eq_some_iff.mp hget
  rw [List.append_assoc, ← heq, List.singleton_append, List.getElem_cons_drop,
    List.take_append_drop]

theorem leavesOf_around {d pos : Nat} {b : Branch (Node K) K} (hpos : pos ≤ b.numKeys) :
    leavesOf (d + 1) (.branch b) = (b.kids.take pos).flatMap (leavesOf d) ++
      leavesOf d (b.children pos) ++ (b.kids.drop (pos + 1)).flatMap (leavesOf d) := by
  show b.kids.flatMap (leavesOf d) = _
  conv_lhs => rw [kids_around hpos]
  simp

section

variable [LinearOrder K] {find : Branch (Node K) K → K → Nat}
  (hfind : ∀ (b : Branch (Node K) K) k, b.Sorted → b.Routes k (find b k))
include hfind

/-- The children of the two parts of a full branch, with a child that has been
split. -/
theorem split_kids (hN : 2 < N) {node sibling : Branch (Node K) K} {s : K}
    (l r : Node K) {pos : Nat}
    (hnum : node.numKeys = N) (hsorted : node.Sorted) (hkey : node.Routes key pos) {splitKey : K}
    {lhs rhs : Branch (Node K) K} (hq : splitBranchNode N sibling node s = (splitKey, lhs, rhs)) :
    (if key < splitKey then (lhs.splitChild (find lhs key) s l r).kids ++ rhs.kids
      else lhs.kids ++ (rhs.splitChild (find rhs key) s l r).kids) =
      node.kids.take pos ++ l :: r :: node.kids.drop (pos + 1) := by
  obtain ⟨m, -, hmlt, rfl, rfl, hu, hwhere⟩ := split_routes hfind hN hnum hsorted hkey hq
  have hunum := hu.numKeys
  have hle := hkey.1
  split
  · next hlt =>
      rw [if_pos hlt] at hwhere
      obtain ⟨hpos, hfound⟩ := hwhere
      rw [hfound, Branch.kids_splitChild hpos, Branch.kids_lower (by omega), Branch.kids_upper hu,
        List.take_take, Nat.min_eq_left (by omega)]
      have hrest : (node.kids.take (m + 1)).drop (pos + 1) ++ node.kids.drop (m + 1) =
          node.kids.drop (pos + 1) := by
        rw [List.drop_take]
        have := List.take_append_drop (m + 1 - (pos + 1)) (node.kids.drop (pos + 1))
        rwa [List.drop_drop, show pos + 1 + (m + 1 - (pos + 1)) = m + 1 by omega] at this
      rw [← hrest]
      simp
  · next hge =>
      rw [if_neg hge] at hwhere
      obtain ⟨j, rfl, hfound⟩ := hwhere
      rw [hfound, Branch.kids_splitChild (by omega), Branch.kids_lower (by omega),
        Branch.kids_upper hu, List.drop_drop, ← List.append_assoc, ← List.take_add]
      rfl

theorem insertInNode_calls (hN : 2 < N) (raw : Nat → Nat → K)
    (insertInLeafNode : Nat → M K L (Option (K × Nat))) (key : K) {P : (K → Prop) → Nat → Prop}
    {size : Nat → Prop} :
    ∀ {d : Nat} {R : K → Prop} {n : Node K} {t : BPTree K L}, Tree P size d R n → R key →
      ∃ p, findLeafNode find key d n = .ok p ∧
        wp (insertInNode N find raw insertInLeafNode key d n)
          (fun r t' => ∃ split t1, insertInLeafNode p t = .ok split t1 ∧ t'.leaves = t1.leaves ∧
            t'.depth = t1.depth ∧ Spliced (leavesOf d n) (resultLeaves d r) p (split.map Prod.snd))
          (fun _ _ => True) t := by
  intro d
  induction d with
  | zero =>
      intro R n t hn _
      cases n with
      | null => exact hn.elim
      | branch b => exact hn.elim
      | leaf p =>
          refine ⟨p, rfl, ?_⟩
          rw [insertInNode, wp_bind]
          refine wp_mono (wp_self (insertInLeafNode p) t)
            (fun split t1 hcall => ?_) fun _ _ _ => trivial
          refine ⟨split, t1, hcall, rfl, rfl, [], [], rfl, ?_⟩
          cases split with
          | none => rfl
          | some s => rfl
  | succ d ih =>
      intro R n t hn hkey
      cases n with
      | null => exact hn.elim
      | leaf p => exact hn.elim
      | branch b =>
          obtain ⟨-, hb⟩ := hn
          have hroute := hfind b key hb.sorted
          obtain ⟨p, hp, hchild⟩ := ih (t := t) (hb.child _ hroute.1 trivial) ⟨hkey, hroute⟩
          refine ⟨p, hp, ?_⟩
          rw [insertInNode, wp_bind]
          refine wp_mono hchild ?_ fun _ _ _ => trivial
          rintro ⟨child, split⟩ t' ⟨leafSplit, t1, hcall, hleaves, hdepth, hspl⟩
          -- the leaves of the other children stay around those of this one
          have hall : Spliced (leavesOf (d + 1) (.branch b))
              ((b.kids.take (find b key)).flatMap (leavesOf d) ++ resultLeaves d (child, split) ++
                (b.kids.drop (find b key + 1)).flatMap (leavesOf d)) p
                (leafSplit.map Prod.snd) := by
            rw [leavesOf_around hroute.1]
            exact hspl.context _ _
          have hsame : (b.kids.set (find b key) child).take (find b key) =
            b.kids.take (find b key) ∧
              (b.kids.set (find b key) child).drop (find b key + 1) =
                b.kids.drop (find b key + 1) := by
            rw [List.take_set, List.drop_set, List.set_eq_of_length_le (by simp),
              if_pos (by omega)]
            exact ⟨rfl, rfl⟩
          cases split with
          | none =>
              refine ⟨leafSplit, t1, hcall, hleaves, hdepth, ?_⟩
              show Spliced _ (leavesOf (d + 1) (.branch (b.setChild (find b key) child))) _ _
              rw [leavesOf_around (b := b.setChild (find b key) child) hroute.1,
                show (b.setChild (find b key) child).children (find b key) = child from
                  Function.update_self .., Branch.kids_setChild, hsame.1, hsame.2]
              exact hall
          | some sr =>
              obtain ⟨s, right⟩ := sr
              have hjoin : Spliced (leavesOf (d + 1) (.branch b))
                  ((b.kids.take (find b key) ++ child :: right ::
                    b.kids.drop (find b key + 1)).flatMap (leavesOf d)) p
                  (leafSplit.map Prod.snd) := by
                simpa [resultLeaves] using hall
              refine wp_ite (fun hfull => ?_) fun _ => ?_
              · simp only [newBranchNode, alloc, wp_bind, wp_get, wp_set, wp_pure]
                generalize hq : splitBranchNode N _ _ s = q
                obtain ⟨splitKey, lhs, rhs⟩ := q
                have hkids := split_kids hfind hN child right hfull hb.sorted hroute hq
                rw [Branch.kids_setChild, hsame.1, hsame.2] at hkids
                rw [← hkids] at hjoin
                by_cases hlt : key < splitKey
                · simp only [if_pos hlt] at hjoin ⊢
                  rw [List.flatMap_append] at hjoin
                  exact ⟨leafSplit, t1, hcall, hleaves, hdepth, hjoin⟩
                · simp only [if_neg hlt] at hjoin ⊢
                  rw [List.flatMap_append] at hjoin
                  exact ⟨leafSplit, t1, hcall, hleaves, hdepth, hjoin⟩
              · refine ⟨leafSplit, t1, hcall, hleaves, hdepth, ?_⟩
                show Spliced _ ((Branch.splitChild _ (find b key) s child right).kids.flatMap
                  (leavesOf d)) _ _
                rw [Branch.kids_splitChild (b := b.setChild (find b key) child) hroute.1,
                  Branch.kids_setChild, hsame.1, hsame.2]
                exact hjoin

theorem insertWith_calls (hN : 2 < N) (raw : Nat → Nat → K)
    (insertInLeafNode : Nat → M K L (Option (K × Nat))) (key : K) {t : BPTree K L}
    {P₀ P : (Nat → Option L) → (K → Prop) → Nat → Prop} (h : WellFormed N P₀ P t) :
    ∃ p, findLeafNode find key t.depth t.rootNode = .ok p ∧
      wp (insertWith N find raw insertInLeafNode key)
        (fun _ t' => ∃ split t1, insertInLeafNode p t = .ok split t1 ∧ t'.leaves = t1.leaves ∧
          (t1.depth = t.depth → Spliced (leavesOf t.depth t.rootNode)
          (leavesOf t'.depth t'.rootNode) p
            (split.map Prod.snd)))
        (fun _ _ => True) t := by
  have hn := h.tree (Q := fun _ _ => True) (fun _ _ _ => trivial) fun _ _ _ => trivial
  obtain ⟨p, hp, hcalls⟩ := insertInNode_calls hfind hN raw insertInLeafNode key (t := t) hn
    trivial
  refine ⟨p, hp, ?_⟩
  rw [insertWith, wp_bind, wp_get, wp_bind]
  refine wp_mono hcalls ?_ fun _ _ _ => trivial
  rintro ⟨n, split⟩ t' ⟨leafSplit, t1, hcall, hleaves, hdepth, hspl⟩
  cases split with
  | none =>
      refine ⟨leafSplit, t1, hcall, hleaves, fun hd => ?_⟩
      show Spliced _ (leavesOf t'.depth n) _ _
      rw [hdepth, hd]
      exact hspl
  | some sr =>
      obtain ⟨s, r⟩ := sr
      refine ⟨leafSplit, t1, hcall, hleaves, fun hd => ?_⟩
      show Spliced _ (leavesOf (t'.depth + 1) (.branch _)) _ _
      rw [hdepth, hd]
      simpa [leavesOf, Branch.kids, List.range_succ, resultLeaves] using hspl

end

/-! ## What is in the leaves -/

section

variable [LinearOrder K] {P : (K → Prop) → Nat → Prop} {size : Nat → Prop}

/-- Every leaf has a part of the range. -/
theorem exists_range : ∀ {d : Nat} {R : K → Prop} {n : Node K}, Tree P size d R n →
    ∀ p ∈ leavesOf d n, ∃ R', (∀ k, R' k → R k) ∧ P R' p := by
  intro d
  induction d with
  | zero =>
      intro R n hn p hp
      cases n with
      | null => exact hn.elim
      | branch b => exact hn.elim
      | leaf q =>
          obtain rfl := List.mem_singleton.mp hp
          exact ⟨R, fun _ hk => hk, hn⟩
  | succ d ih =>
      intro R n hn p hp
      cases n with
      | null => exact hn.elim
      | leaf q => exact hn.elim
      | branch b =>
          obtain ⟨c, hc, hpc⟩ := List.mem_flatMap.mp hp
          obtain ⟨i, hi, rfl⟩ := List.mem_map.mp hc
          obtain ⟨R', hsub, hP⟩ :=
            ih (hn.2.child i (Nat.le_of_lt_succ (List.mem_range.mp hi)) trivial) p hpc
          exact ⟨R', fun k hk => (hsub k hk).1, hP⟩

/-- Every key of the range has a leaf. -/
theorem exists_leaf {k : K} : ∀ {d : Nat} {R : K → Prop} {n : Node K}, Tree P size d R n → R k →
    ∃ p ∈ leavesOf d n, ∃ R', R' k ∧ P R' p := by
  intro d
  induction d with
  | zero =>
      intro R n hn hk
      cases n with
      | null => exact hn.elim
      | branch b => exact hn.elim
      | leaf p => exact ⟨p, List.mem_singleton.mpr rfl, R, hk, hn⟩
  | succ d ih =>
      intro R n hn hk
      cases n with
      | null => exact hn.elim
      | leaf p => exact hn.elim
      | branch b =>
          obtain ⟨i, hroute⟩ := hn.2.sorted.exists_routes k
          obtain ⟨p, hp, hR⟩ := ih (hn.2.child i hroute.1 trivial) ⟨hk, hroute⟩
          refine ⟨p, List.mem_flatMap.mpr ⟨b.children i, List.mem_map.mpr ⟨i, ?_, rfl⟩, hp⟩, hR⟩
          exact List.mem_range.mpr (Nat.lt_succ_of_le hroute.1)

/-- The keys of a leaf are in front of those of the next ones. -/
theorem leaves_in_order {E : Nat → K → Prop} (hE : ∀ R p, P R p → ∀ k, E p k → R k) :
    ∀ {d : Nat} {R : K → Prop} {n : Node K}, Tree P size d R n →
      (leavesOf d n).Pairwise fun p q => ∀ k k', E p k → E q k' → k < k' := by
  intro d
  induction d with
  | zero =>
      intro R n hn
      cases n with
      | null => exact hn.elim
      | branch b => exact hn.elim
      | leaf p => exact List.pairwise_singleton ..
  | succ d ih =>
      intro R n hn
      cases n with
      | null => exact hn.elim
      | leaf p => exact hn.elim
      | branch b =>
          have hchild := fun i hi => hn.2.child i hi trivial
          show (b.kids.flatMap (leavesOf d)).Pairwise _
          rw [Branch.kids, List.flatMap_map, List.pairwise_flatMap]
          constructor
          · intro i hi
            exact ih (hchild i (Nat.le_of_lt_succ (List.mem_range.mp hi)))
          · refine List.Pairwise.imp_of_mem ?_ List.pairwise_lt_range
            intro i j hi hj hij p hp q hq k k' hk hk'
            obtain ⟨R1, hsub, hP⟩ :=
              exists_range (hchild i (Nat.le_of_lt_succ (List.mem_range.mp hi))) p hp
            obtain ⟨R2, hsub', hP'⟩ :=
              exists_range (hchild j (Nat.le_of_lt_succ (List.mem_range.mp hj))) q hq
            have hroute := (hsub k (hE _ _ hP k hk)).2
            have hroute' := (hsub' k' (hE _ _ hP' k' hk')).2
            have hj' := Nat.le_of_lt_succ (List.mem_range.mp hj)
            exact lt_of_lt_of_le (hroute.2.2 i (Nat.le_refl i) (by omega)) (hroute'.2.1 i hij)

/-- The leaves in front of the one that the search for a key leads to have
smaller keys, and those behind it greater ones. -/
theorem findLeafNode_around {find : Branch (Node K) K → K → Nat}
    (hfind : ∀ (b : Branch (Node K) K) k, b.Sorted → b.Routes k (find b k)) {E : Nat → K → Prop}
    (hE : ∀ R p, P R p → ∀ k, E p k → R k) :
    ∀ {d : Nat} {R : K → Prop} {n : Node K}, Tree P size d R n → R key →
      ∃ p xs ys R', findLeafNode find key d n = .ok p ∧ leavesOf d n = xs ++ p :: ys ∧ P R' p ∧
        (∀ a ∈ xs, ∀ k, E a k → k < key) ∧ ∀ a ∈ ys, ∀ k, E a k → key < k := by
  intro d
  induction d with
  | zero =>
      intro R n hn _
      cases n with
      | null => exact hn.elim
      | branch b => exact hn.elim
      | leaf p => exact ⟨p, [], [], R, rfl, rfl, hn, by simp, by simp⟩
  | succ d ih =>
      intro R n hn hkey
      cases n with
      | null => exact hn.elim
      | leaf p => exact hn.elim
      | branch b =>
          have hroute := hfind b key hn.2.sorted
          obtain ⟨p, xs, ys, R', hp, hleaves, hP, hbefore, hafter⟩ :=
            ih (hn.2.child _ hroute.1 trivial) ⟨hkey, hroute⟩
          -- the keys in the leaves of the child `i` go to it
          have hkeys : ∀ i c, b.kids[i]? = some c → ∀ a ∈ leavesOf d c, ∀ k, E a k →
              b.Routes k i := by
            intro i c hc a ha k hk
            rw [Branch.getElem?_kids] at hc
            split at hc
            · next hi =>
                cases hc
                obtain ⟨R1, hsub, hP1⟩ := exists_range (hn.2.child i hi trivial) a ha
                exact (hsub k (hE _ _ hP1 k hk)).2
            · cases hc
          refine ⟨p, (b.kids.take (find b key)).flatMap (leavesOf d) ++ xs,
            ys ++ (b.kids.drop (find b key + 1)).flatMap (leavesOf d), R', hp, ?_, hP, ?_, ?_⟩
          · rw [leavesOf_around hroute.1, hleaves]
            simp
          · intro a ha k hk
            rcases List.mem_append.mp ha with ha | ha
            · obtain ⟨c, hc, hac⟩ := List.mem_flatMap.mp ha
              obtain ⟨i, hi⟩ := List.mem_iff_getElem?.mp hc
              rw [List.getElem?_take] at hi
              split at hi
              · next hlt =>
                  have hkroute := hkeys i c hi a hac k hk
                  have hle := hroute.1
                  exact lt_of_lt_of_le (hkroute.2.2 i (Nat.le_refl i) (by omega)) (hroute.2.1 i hlt)
              · cases hi
            · exact hbefore a ha k hk
          · intro a ha k hk
            rcases List.mem_append.mp ha with ha | ha
            · exact hafter a ha k hk
            · obtain ⟨c, hc, hac⟩ := List.mem_flatMap.mp ha
              obtain ⟨i, hi⟩ := List.mem_iff_getElem?.mp hc
              rw [List.getElem?_drop] at hi
              have hkroute := hkeys _ c hi a hac k hk
              have hle := hkroute.1
              exact lt_of_lt_of_le (hroute.2.2 (find b key) (Nat.le_refl _) (by omega))
                (hkroute.2.1 _ (by omega))

end

/-- `scan` starts at the first leaf. -/
theorem firstLeaf_ok [LinearOrder K] {P : (K → Prop) → Nat → Prop} {size : Nat → Prop} :
    ∀ {d : Nat} {R : K → Prop} {n : Node K}, Tree P size d R n →
      ∃ p ps, leavesOf d n = p :: ps ∧ firstLeaf d n = .ok p := by
  intro d
  induction d with
  | zero =>
      intro R n hn
      cases n with
      | null => exact hn.elim
      | branch b => exact hn.elim
      | leaf p => exact ⟨p, [], rfl, rfl⟩
  | succ d ih =>
      intro R n hn
      cases n with
      | null => exact hn.elim
      | leaf p => exact hn.elim
      | branch b =>
          obtain ⟨p, ps, hleaves, hfirst⟩ := ih (hn.2.child 0 (Nat.zero_le _) trivial)
          rw [leavesOf_around (Nat.zero_le b.numKeys), hleaves]
          exact ⟨p, _, rfl, hfirst⟩

/-! ## The links -/

/-- Each of the leaves is linked to the next one, and the last one to
none. -/
def Chain (next : L → Option Nat) (h : Nat → Option L) : List Nat → Prop
  | [] => True
  | p :: ps => (∃ l, h p = some l ∧ next l = ps.head?) ∧ Chain next h ps

section

variable {next : L → Option Nat} {h h' : Nat → Option L} {ps qs xs ys : List Nat} {p : Nat}

theorem Chain.unique (hp : Chain next h ps) (hq : Chain next h qs) (hhead : ps.head? = qs.head?) :
    ps = qs := by
  induction ps generalizing qs with
  | nil => exact (List.head?_eq_none_iff.mp hhead.symm).symm
  | cons p ps ih =>
      cases qs with
      | nil => cases hhead
      | cons q qs =>
          obtain rfl : p = q := Option.some.inj hhead
          obtain ⟨⟨l, hl, hnext⟩, hps⟩ := hp
          obtain ⟨⟨l', hl', hnext'⟩, hqs⟩ := hq
          obtain rfl : l = l' := Option.some.inj (hl.symm.trans hl')
          rw [ih hps hqs (hnext.symm.trans hnext')]

theorem Chain.suffix (hc : Chain next h (xs ++ ys)) : Chain next h ys := by
  induction xs with
  | nil => exact hc
  | cons x xs ih => exact ih hc.2

/-- The links do not go in a circle. -/
theorem Chain.nodup (hc : Chain next h ps) : ps.Nodup := by
  induction ps with
  | nil => exact List.nodup_nil
  | cons p ps ih =>
      refine List.nodup_cons.mpr ⟨fun hmem => ?_, ih hc.2⟩
      obtain ⟨as, bs, hsplit⟩ := List.append_of_mem hmem
      have hback : Chain next h (p :: bs) := by
        have hps := hc.2
        rw [hsplit] at hps
        exact hps.suffix
      have hsame := hc.unique hback rfl
      rw [hsplit] at hsame
      have hlen := congrArg List.length hsame
      simp at hlen
      omega

theorem Chain.allocated (hc : Chain next h ps) : ∀ p ∈ ps, ∃ l, h p = some l := by
  induction ps with
  | nil => simp
  | cons p ps ih =>
      obtain ⟨⟨l, hl, -⟩, hps⟩ := hc
      exact List.forall_mem_cons.mpr ⟨⟨l, hl⟩, ih hps⟩

/-- There are not more leaves than nodes. -/
theorem Chain.length_le {q : Nat} (hc : Chain next h ps) (hq : Unused h q) : ps.length ≤ q := by
  have hsub : ps ⊆ List.range q := by
    intro a ha
    obtain ⟨l, hl⟩ := hc.allocated a ha
    rw [List.mem_range]
    by_contra hge
    rw [hq a (Nat.not_lt.mp hge)] at hl
    cases hl
  have hle := (List.subperm_of_subset hc.nodup hsub).length_le
  rwa [List.length_range] at hle

/-- The links are as before. -/
theorem Chain.congr (hc : Chain next h ps)
    (hsame : ∀ p ∈ ps, ∀ l, h p = some l → ∃ l', h' p = some l' ∧ next l' = next l) :
    Chain next h' ps := by
  induction ps with
  | nil => trivial
  | cons p ps ih =>
      obtain ⟨⟨l, hl, hnext⟩, hps⟩ := hc
      obtain ⟨hp, hrest⟩ := List.forall_mem_cons.mp hsame
      obtain ⟨l', hl', hnext'⟩ := hp l hl
      exact ⟨⟨l', hl', hnext'.trans hnext⟩, ih hps hrest⟩

/-- A leaf gets a new successor, which is linked to the one before. -/
theorem Chain.splice {q : Nat} {left right : L} (hc : Chain next h (xs ++ p :: ys))
    (hother : ∀ a l, a ≠ p → h a = some l → ∃ l', h' a = some l' ∧ next l' = next l)
    (hp : h' p = some left) (hleft : next left = some q) (hq : h' q = some right)
    (hright : next right = ys.head?) : Chain next h' (xs ++ p :: q :: ys) := by
  have hnd := hc.nodup
  rw [List.nodup_append, List.nodup_cons] at hnd
  obtain ⟨-, ⟨hpy, -⟩, hxp⟩ := hnd
  have hback : Chain next h' ys := by
    refine hc.suffix.2.congr fun a ha l hl => hother a l ?_ hl
    rintro rfl
    exact hpy ha
  have hpx : p ∉ xs := fun hmem => hxp p hmem p List.mem_cons_self rfl
  clear hxp hpy
  induction xs with
  | nil => exact ⟨⟨left, hp, hleft⟩, ⟨right, hq, hright⟩, hback⟩
  | cons x xs ih =>
      obtain ⟨⟨l, hl, hnext⟩, hrest⟩ := hc
      have hx : x ≠ p := fun heq => hpx (by rw [heq]; exact List.mem_cons_self)
      obtain ⟨l', hl', hnext'⟩ := hother x l hx hl
      refine ⟨⟨l', hl', ?_⟩, ih hrest fun hmem => hpx (List.mem_cons_of_mem _ hmem)⟩
      rw [hnext', hnext]
      cases xs with
      | nil => rfl
      | cons y ys => rfl

end

end BPTree

end Poseidon
