import Poseidon.Btree.Branch
import Poseidon.Lib.Wp

/-!
# Inserting above the leaves

Whatever the leaves are, when inserting into a leaf keeps what is known about
it, inserting into a tree keeps what is known about the tree: the leaf that
the search leads to is the only one that changes, a split of it is passed on
as a separator between its halves, and a branch that is full is divided
before it takes the separator, on the side that the key belongs to.

`Inserted` is what a node passes on to its parent. It is the same for leaves
and branches, so that the induction over the depth has one case for both.
-/

namespace Poseidon

open BTree Wp

namespace BPTree

variable {C K L : Type} [LinearOrder K] {N : Nat} {key : K} {R : K → Prop}

/-- The number of keys of a branch other than the root. -/
def Sized (N num : Nat) : Prop := (N - 1) / 2 ≤ num ∧ num ≤ N

/-- What is known about nodes that have no keys in `R` is known afterwards. -/
def Kept (P P' : (K → Prop) → C → Prop) (R : K → Prop) : Prop :=
  ∀ R' c, (∀ k, R' k → ¬R k) → P R' c → P' R' c

/-- A node after inserting: as it should be, or two such nodes and a key
between them. -/
def Inserted (T : (K → Prop) → C → Prop) (R : K → Prop) : C × Option (K × C) → Prop
  | (c, none) => T R c
  | (c, some (s, r)) => R s ∧ (∃ k, R k ∧ k < s) ∧ T (fun k => R k ∧ k < s) c ∧
      T (fun k => R k ∧ s ≤ k) r

/-- Inserting into a leaf. -/
structure LeafInserts (I : (Nat → Option L) → Nat → Prop)
    (P P' : (Nat → Option L) → (K → Prop) → Nat → Prop)
    (key : K) (insertInLeafNode : Nat → M K L (Option (K × Nat))) : Prop where
  alloc : ∀ {h q}, I h q → I h (q + 1)
  step : ∀ {t p R}, I t.leaves t.fresh → P t.leaves R p → R key →
    wp (insertInLeafNode p)
      (fun split t' => I t'.leaves t'.fresh ∧ t'.depth = t.depth ∧ Kept (P t.leaves)
      (P' t'.leaves) R ∧
        Inserted (P' t'.leaves) R (p, split))
      (fun _ _ => False) t

/-! ## The heap of leaves -/

section

variable {h h' : Nat → Option L} {l l' : L} {p q : Nat}

/-- No node has been allocated from `q` on. -/
def Unused (h : Nat → Option L) (q : Nat) : Prop := ∀ p, q ≤ p → h p = none

/-- The leaves other than `p` stay as they are. -/
def Untouched (h h' : Nat → Option L) (p : Nat) : Prop :=
  ∀ p' l', p' ≠ p → h p' = some l' → h' p' = some l'

theorem Unused.ne (hq : Unused h q) (hp : h p = some l) : p ≠ q := by
  rintro rfl
  rw [hq p (Nat.le_refl p)] at hp
  cases hp

theorem Unused.update (hq : Unused h q) (hp : h p = some l) (l' : L) :
    Unused (Function.update h p (some l')) q := by
  intro a ha
  have hne : a ≠ p := by
    rintro rfl
    rw [hq a ha] at hp
    cases hp
  rw [Function.update_of_ne hne]
  exact hq a ha

theorem Unused.alloc (hq : Unused h q) (l' : L) :
    Unused (Function.update h q (some l')) (q + 1) := by
  intro a ha
  rw [Function.update_of_ne (by omega)]
  exact hq a (Nat.le_of_succ_le ha)

theorem untouched_update (h : Nat → Option L) (p : Nat) (l' : L) :
    Untouched h (Function.update h p (some l')) p := by
  intro a la hne hla
  rw [Function.update_of_ne hne]
  exact hla

theorem Untouched.alloc (hun : Untouched h h' p) (hq : Unused h q) (l' : L) :
    Untouched h (Function.update h' q (some l')) p := by
  intro a la hne hla
  rw [Function.update_of_ne (hq.ne hla)]
  exact hun a la hne hla

end

/-! ## A branch that is full -/

section

variable {T : (K → Prop) → C → Prop} {node sibling : Branch C K} {s : K} {l r : C} {pos : Nat}

theorem splitMiddle_bounds (hN : 2 < N) (node : Branch C K) (s : K) :
    2 ≤ splitMiddle N node s ∧ splitMiddle N node s ≤ N ∧ (N + 1) / 2 ≤ splitMiddle N node s ∧
      splitMiddle N node s ≤ (N + 1) / 2 + 1 := by
  rw [splitMiddle]
  split <;> omega

/-- The sibling has what is above the middle. -/
theorem splitBranchNode_upper (hN : 2 < N) (hnum : node.numKeys = N)
    (sibling : Branch C K) (s : K) :
    node.IsUpper (splitMiddle N node s - 1) (splitBranchNode N sibling node s).2.2 := by
  obtain ⟨h2, hle, -⟩ := splitMiddle_bounds hN node s
  simp only [splitBranchNode]
  constructor
  · show splitMiddle N node s - 1 + 1 + (node.numKeys - splitMiddle N node s) = node.numKeys
    omega
  · intro i hi
    show blit _ 0 _ _ _ i = _
    rw [blit_zero_of_lt hi, show splitMiddle N node s - 1 + 1 = splitMiddle N node s by omega]
  · intro i hi
    show Function.update _ _ _ i = _
    rcases Nat.lt_or_eq_of_le hi with hlt | heq
    · have hlt' : i < node.numKeys - splitMiddle N node s := hlt
      rw [Function.update_of_ne (by omega), blit_zero_of_lt hlt',
        show splitMiddle N node s - 1 + 1 = splitMiddle N node s by omega]
    · have heq' : i = node.numKeys - splitMiddle N node s := heq
      rw [heq', Function.update_self]
      congr 1
      omega

variable {D : Nat → Prop} {find : Branch C K → K → Nat}
  (hfind : ∀ (b : Branch C K) k, b.Sorted → b.Routes k (find b k))
include hfind

/-- The parts of a full branch, and where the key goes in them. -/
theorem split_routes (hN : 2 < N) (hnum : node.numKeys = N) (hsorted : node.Sorted)
    (hkey : node.Routes key pos) {splitKey : K} {lhs rhs : Branch C K}
    (hq : splitBranchNode N sibling node s = (splitKey, lhs, rhs)) :
    ∃ m, m + 1 = splitMiddle N node s ∧ m < node.numKeys ∧ splitKey = node.keys m ∧
      lhs = node.lower m ∧ node.IsUpper m rhs ∧
      if key < splitKey then pos ≤ m ∧ find lhs key = pos
      else ∃ j, pos = m + 1 + j ∧ find rhs key = j := by
  have hu := splitBranchNode_upper hN hnum sibling s
  obtain ⟨h2, hle, -⟩ := splitMiddle_bounds hN node s
  obtain ⟨rfl, rfl, rfl⟩ : node.keys (splitMiddle N node s - 1) = splitKey ∧
      node.lower (splitMiddle N node s - 1) = lhs ∧
      (splitBranchNode N sibling node s).2.2 = rhs := by
    rw [splitBranchNode] at hq ⊢
    simp only [Prod.mk.injEq] at hq ⊢
    exact hq
  generalize (splitBranchNode N sibling node s).2.2 = rhs at *
  have hmlt : splitMiddle N node s - 1 < node.numKeys := by omega
  refine ⟨splitMiddle N node s - 1, by omega, hmlt, rfl, rfl, hu, ?_⟩
  generalize splitMiddle N node s - 1 = m at *
  split
  · next hlt =>
      have hpos : pos ≤ m := by
        by_contra hgt
        exact absurd (hkey.2.1 m (by omega)) (not_le_of_gt hlt)
      have hroute := ((Branch.routes_lower hsorted hmlt hpos).mpr hkey).1
      exact ⟨hpos, (hfind _ _ (hsorted.lower hmlt)).unique hroute⟩
  · next hge =>
      have hpos : m < pos := by
        by_contra hle
        exact hge (hkey.2.2 m (by omega) hmlt)
      obtain ⟨j, rfl⟩ : ∃ j, pos = m + 1 + j := ⟨pos - (m + 1), by omega⟩
      have hroute := ((Branch.routes_upper hsorted hu).mpr hkey).1
      exact ⟨j, rfl, (hfind _ _ (hsorted.upper hu)).unique hroute⟩

/-- The half that the key goes to takes the separator and the halves of the
child; it has room for them, and both halves have enough keys. -/
theorem split_insert (hN : 2 < N) (hnum : node.numKeys = N) (h : node.HoldsOn T R D)
    (hD : ∀ i, i ≠ pos → D i) (hkey : node.Routes key pos) (hs : R s ∧ node.Routes s pos)
    (hlow : ∃ k, (R k ∧ node.Routes k pos) ∧ k < s)
    (hl : T (fun k => (R k ∧ node.Routes k pos) ∧ k < s) l)
    (hr : T (fun k => (R k ∧ node.Routes k pos) ∧ s ≤ k) r)
    {splitKey : K} {lhs rhs : Branch C K}
    (hq : splitBranchNode N sibling node s = (splitKey, lhs, rhs)) :
    (R splitKey ∧ ∃ k, R k ∧ k < splitKey) ∧
    if key < splitKey then
      (Sized N (lhs.numKeys + 1) ∧ (lhs.splitChild (find lhs key) s l r).Holds T
        fun k => R k ∧ k < splitKey) ∧
      Sized N rhs.numKeys ∧ rhs.Holds T fun k => R k ∧ splitKey ≤ k
    else
      (Sized N lhs.numKeys ∧ lhs.Holds T fun k => R k ∧ k < splitKey) ∧
      Sized N (rhs.numKeys + 1) ∧ (rhs.splitChild (find rhs key) s l r).Holds T
        fun k => R k ∧ splitKey ≤ k := by
  obtain ⟨m, hm, hmlt, rfl, rfl, hu, hwhere⟩ := split_routes hfind hN hnum h.sorted hkey hq
  obtain ⟨h2, hle, hge, hle'⟩ := splitMiddle_bounds hN node s
  have hunum := hu.numKeys
  refine ⟨⟨h.inRange m hmlt, node.keys 0, h.inRange 0 (by omega), h.sorted 0 m (by omega) hmlt⟩, ?_⟩
  split
  · next hlt =>
      rw [if_pos hlt] at hwhere
      obtain ⟨hpos, hfound⟩ := hwhere
      have hiff := Branch.range_lower R h.sorted hmlt hpos
      have hmid : splitMiddle N node s = (N + 1) / 2 := by
        refine if_neg fun hbig => ?_
        have hm' : m = (N + 1) / 2 := by
          rw [splitMiddle, if_pos hbig] at hm
          omega
        rw [← hm'] at hbig
        exact lt_asymm hbig (hs.2.2.2 m hpos hmlt)
      rw [hfound]
      refine ⟨⟨⟨?_, ?_⟩, ?_⟩, ⟨by omega, by omega⟩, ?_⟩
      · show (N - 1) / 2 ≤ m + 1
        omega
      · show m + 1 ≤ N
        omega
      · refine (h.lower hmlt).splitChild hD ((hiff s).mp hs) ?_ ?_ ?_
        · obtain ⟨k, hk, hks⟩ := hlow
          exact ⟨k, (hiff k).mp hk, hks⟩
        · exact Branch.congr_range (fun k => and_congr_left' (hiff k)) hl
        · exact Branch.congr_range (fun k => and_congr_left' (hiff k)) hr
      · exact (h.upper hu).holds fun i _ => hD _ (by omega)
  · next hge =>
      rw [if_neg hge] at hwhere
      obtain ⟨j, rfl, hfound⟩ := hwhere
      have hiff := Branch.range_upper (i := j) R h.sorted hu
      rw [hfound]
      refine ⟨⟨⟨?_, ?_⟩, ?_⟩, ⟨by omega, by omega⟩, ?_⟩
      · show (N - 1) / 2 ≤ m
        omega
      · show m ≤ N
        omega
      · exact (h.lower hmlt).holds fun i hi => hD i (by have : i ≤ m := hi; omega)
      · refine (h.upper hu).splitChild (fun i hi => hD _ (by omega)) ((hiff s).mp hs) ?_ ?_ ?_
        · obtain ⟨k, hk, hks⟩ := hlow
          exact ⟨k, (hiff k).mp hk, hks⟩
        · exact Branch.congr_range (fun k => and_congr_left' (hiff k)) hl
        · exact Branch.congr_range (fun k => and_congr_left' (hiff k)) hr

end

/-! ## The way down and up -/

section

variable {I : (Nat → Option L) → Nat → Prop} {P P' : (Nat → Option L) → (K → Prop) → Nat → Prop}
  {insertInLeafNode : Nat → M K L (Option (K × Nat))} {find : Branch (Node K) K → K → Nat}
  {raw : Nat → Nat → K} {d : Nat} {t : BPTree K L}

/-- A branch after inserting: it may have one key more, or be split. -/
def InsertedBranch (N d : Nat) (P : (K → Prop) → Nat → Prop) (b : Branch (Node K) K)
    (R : K → Prop) :
    Node K × Option (K × Node K) → Prop
  | (n, none) => ∃ b', n = .branch b' ∧ b.numKeys ≤ b'.numKeys ∧ b'.numKeys ≤ N ∧
      b'.Holds (Tree P (Sized N) d) R
  | (n, some s) => Inserted (Tree P (Sized N) (d + 1)) R (n, some s)

theorem Kept.tree {P P' : (K → Prop) → Nat → Prop} {R' : K → Prop} {n : Node K} (h : Kept P P' R)
    (hR : ∀ k, R' k → ¬R k) (hn : Tree P (Sized N) d R' n) : Tree P' (Sized N) d R' n :=
  hn.mono (fun R'' p hsub => h R'' p fun k hk => hR k (hsub k hk)) fun _ hs => hs

omit [LinearOrder K] in
theorem Kept.mono {P P' : (K → Prop) → C → Prop} {R' : K → Prop} (h : Kept P P' R)
    (hR : ∀ k, R k → R' k) : Kept P P' R' :=
  fun R'' c hdis hc => h R'' c (fun k hk hin => hdis k hk (hR k hin)) hc

/-- What inserting at depth `d` has to do. -/
def InsertsAt (N : Nat) (find : Branch (Node K) K → K → Nat) (raw : Nat → Nat → K)
    (insertInLeafNode : Nat → M K L (Option (K × Nat))) (I : (Nat → Option L) → Nat → Prop)
    (P P' : (Nat → Option L) → (K → Prop) → Nat → Prop) (key : K) (d : Nat) : Prop :=
  ∀ {t R n}, I t.leaves t.fresh → Tree (P t.leaves) (Sized N) d R n → R key →
    wp (insertInNode N find raw insertInLeafNode key d n)
      (fun r t' => I t'.leaves t'.fresh ∧ t'.depth = t.depth ∧ Kept (P t.leaves) (P' t'.leaves) R ∧
        Inserted (Tree (P' t'.leaves) (Sized N) d) R r)
      (fun _ _ => False) t

/-- The search ends at a leaf that is right for the key. -/
theorem findLeafNode_ok (hfind : ∀ (b : Branch (Node K) K) k, b.Sorted → b.Routes k
    (find b k)) (key : K)
    {P : (K → Prop) → Nat → Prop} {size : Nat → Prop} :
    ∀ {d : Nat} {R : K → Prop} {n : Node K}, Tree P size d R n → R key →
      ∃ p R', findLeafNode find key d n = .ok p ∧ R' key ∧ P R' p := by
  intro d
  induction d with
  | zero =>
      intro R n hn hkey
      cases n with
      | null => exact hn.elim
      | branch b => exact hn.elim
      | leaf p => exact ⟨p, R, rfl, hkey, hn⟩
  | succ d ih =>
      intro R n hn hkey
      cases n with
      | null => exact hn.elim
      | leaf p => exact hn.elim
      | branch b =>
          have hroute := hfind b key hn.2.sorted
          exact ih (hn.2.child _ hroute.1 trivial) ⟨hkey, hroute⟩

/-- A tree whose root is a leaf as `P₀` says, or a branch with at least one
key over leaves as `P` says. -/
def WellFormed (N : Nat) (P₀ P : (Nat → Option L) → (K → Prop) → Nat → Prop)
    (t : BPTree K L) : Prop :=
  match t.depth, t.rootNode with
  | 0, .leaf p => P₀ t.leaves (fun _ => True) p
  | d + 1, .branch b =>
      (1 ≤ b.numKeys ∧ b.numKeys ≤ N) ∧ b.Holds (Tree (P t.leaves) (Sized N) d) fun _ => True
  | _, _ => False

theorem WellFormed.tree {P₀ P : (Nat → Option L) → (K → Prop) → Nat → Prop}
    {Q : (K → Prop) → Nat → Prop} (h : WellFormed N P₀ P t) (h0 : ∀ R p, P₀ t.leaves R p → Q R p)
    (h1 : ∀ R p, P t.leaves R p → Q R p) : Tree Q (· ≤ N) t.depth (fun _ => True) t.rootNode := by
  rw [WellFormed] at h
  split at h
  · next hd hn =>
      rw [hd, hn]
      exact h0 _ _ h
  · next hd hn =>
      rw [hd, hn]
      exact ⟨h.1.2, h.2.mono fun _ _ _ hc => hc.mono (fun R' p _ => h1 R' p) fun _ hs => hs.2⟩
  · exact h.elim

variable (hN : 2 < N) (hfind : ∀ (b : Branch (Node K) K) k, b.Sorted → b.Routes k (find b k))
  (hleaf : LeafInserts I P P' key insertInLeafNode)
include hN hfind hleaf

/-- One level. -/
theorem insertInBranch_wp (ih : InsertsAt N find raw insertInLeafNode I P P' key d)
    {b : Branch (Node K) K} (ht : I t.leaves t.fresh)
    (hb : b.Holds (Tree (P t.leaves) (Sized N) d) R)
    (hle : b.numKeys ≤ N) (hkey : R key) :
    wp (insertInNode N find raw insertInLeafNode key (d + 1) (.branch b))
      (fun r t' => I t'.leaves t'.fresh ∧ t'.depth = t.depth ∧ Kept (P t.leaves) (P' t'.leaves) R ∧
        InsertedBranch N d (P' t'.leaves) b R r)
      (fun _ _ => False) t := by
  have hroute := hfind b key hb.sorted
  rw [insertInNode, wp_bind]
  refine wp_mono (ih ht (hb.child (find b key) hroute.1 trivial) ⟨hkey, hroute⟩) ?_ fun _ _ h => h
  rintro ⟨child, split⟩ t' ⟨ht', hdepth, hkept, hins⟩
  have hkeptR : Kept (P t.leaves) (P' t'.leaves) R := hkept.mono fun k hk => hk.1
  have hoff : b.HoldsOn (Tree (P' t'.leaves) (Sized N) d) R fun i => True ∧ i ≠ find b key :=
    hb.off fun R' c hR' hc => hkept.tree (fun k hk hin => (hR' k hk).2 hin.2) hc
  have hset := hoff.setChild (fun i hi => hi.2) child
  have hfill : ∀ i, i ≠ find b key → True ∧ i ≠ find b key := fun i hi => ⟨trivial, hi⟩
  cases split with
  | none =>
      exact ⟨ht', hdepth, hkeptR, _, rfl, Nat.le_refl _, hle, hoff.fill hfill hins⟩
  | some sr =>
      obtain ⟨s, right⟩ := sr
      obtain ⟨hs, hlow, hl, hr⟩ := hins
      refine wp_ite (fun hfull => ?_) fun hroom => ?_
      · have halloc := hleaf.alloc ht'
        simp only [newBranchNode, alloc, wp_bind, wp_get, wp_set, wp_pure]
        generalize hq : splitBranchNode N _ _ s = q
        obtain ⟨splitKey, lhs, rhs⟩ := q
        obtain ⟨⟨hsR, hsl⟩, hsplit⟩ := split_insert hfind hN hfull hset hfill hroute hs hlow hl hr
          hq
        by_cases hlt : key < splitKey
        · rw [if_pos hlt] at hsplit
          simp only [if_pos hlt]
          exact ⟨halloc, hdepth, hkeptR, hsR, hsl, hsplit.1, hsplit.2⟩
        · rw [if_neg hlt] at hsplit
          simp only [if_neg hlt]
          exact ⟨halloc, hdepth, hkeptR, hsR, hsl, hsplit.1, hsplit.2⟩
      · have hroom' : b.numKeys ≠ N := hroom
        refine ⟨ht', hdepth, hkeptR, _, rfl, Nat.le_succ _, ?_, ?_⟩
        · show b.numKeys + 1 ≤ N
          omega
        · exact hset.splitChild hfill hs hlow hl hr

theorem insertInNode_wp (d : Nat) : InsertsAt N find raw insertInLeafNode I P P' key d := by
  induction d with
  | zero =>
      intro t R n ht hn hkey
      cases n with
      | null => exact hn.elim
      | branch b => exact hn.elim
      | leaf p =>
          rw [insertInNode, wp_bind]
          refine wp_mono (hleaf.step ht hn hkey) ?_ fun _ _ h => h
          rintro split t' ⟨ht', hdepth, hkept, hins⟩
          refine ⟨ht', hdepth, hkept, ?_⟩
          cases split with
          | none => exact hins
          | some sq => exact hins
  | succ d ih =>
      intro t R n ht hn hkey
      cases n with
      | null => exact hn.elim
      | leaf p => exact hn.elim
      | branch b =>
          obtain ⟨hsize, hb⟩ := hn
          refine wp_mono (insertInBranch_wp hN hfind hleaf ih ht hb hsize.2 hkey) ?_ fun _ _ h => h
          rintro ⟨n, split⟩ t' ⟨ht', hdepth, hkept, hins⟩
          refine ⟨ht', hdepth, hkept, ?_⟩
          cases split with
          | none =>
              obtain ⟨b', rfl, hmore, hle, hb'⟩ := hins
              exact ⟨⟨Nat.le_trans hsize.1 hmore, hle⟩, hb'⟩
          | some s => exact hins

/-- A new root has the two halves of the old one as its children. -/
theorem insertWith_wp {P₀ P₀' : (Nat → Option L) → (K → Prop) → Nat → Prop}
    (hroot : ∀ {t : BPTree K L} {p}, I t.leaves t.fresh → P₀ t.leaves (fun _ => True) p →
      wp (insertInLeafNode p)
        (fun split t' => I t'.leaves t'.fresh ∧ t'.depth = t.depth ∧
          match split with
          | none => P₀' t'.leaves (fun _ => True) p
          | some s => Inserted (P' t'.leaves) (fun _ => True) (p, some s))
        (fun _ _ => False) t)
    (ht : I t.leaves t.fresh) (h : WellFormed N P₀ P t) :
    wp (insertWith N find raw insertInLeafNode key)
      (fun _ t' => I t'.leaves t'.fresh ∧ WellFormed N P₀' P' t') (fun _ _ => False) t := by
  have hgrow : ∀ {d : Nat} {n r : Node K} {s : K} {t' : BPTree K L}, I t'.leaves t'.fresh →
      t'.depth = d → Inserted (Tree (P' t'.leaves) (Sized N) d) (fun _ => True) (n, some (s, r)) →
      ∀ keys : Nat → K, ∀ children : Nat → Node K,
      I t'.leaves (t'.fresh + 1) ∧ WellFormed N P₀' P'
        { t' with
          fresh := t'.fresh + 1
          rootNode := .branch
            { numKeys := 0 + 1
              keys := Function.update keys 0 s
              children := Function.update (Function.update children 0 n) 1 r }
          depth := t'.depth + 1 } := by
    rintro d n r s t' hI rfl ⟨hs, -, hl, hr⟩ keys children
    refine ⟨hleaf.alloc hI, ⟨by simp, by simp; omega⟩, ?_⟩
    exact Branch.holds_one rfl trivial (by simpa using hl) (by simpa using hr)
  rw [insertWith, wp_bind, wp_get, wp_bind]
  cases hd : t.depth with
  | zero =>
      rw [WellFormed, hd] at h
      cases hn : t.rootNode with
      | null =>
          rw [hn] at h
          exact h.elim
      | branch b =>
          rw [hn] at h
          exact h.elim
      | leaf p =>
          rw [hn] at h
          rw [insertInNode, wp_bind]
          refine wp_mono (hroot ht h) ?_ fun _ _ h => h
          rintro split t' ⟨hI, hdepth, hins⟩
          rw [hd] at hdepth
          cases split with
          | none =>
              refine ⟨hI, ?_⟩
              simp only [WellFormed, hdepth]
              exact hins
          | some sq => exact hgrow (n := .leaf p) (r := .leaf sq.2) (s := sq.1) hI hdepth hins _ _
  | succ d =>
      rw [WellFormed, hd] at h
      cases hn : t.rootNode with
      | null =>
          rw [hn] at h
          exact h.elim
      | leaf p =>
          rw [hn] at h
          exact h.elim
      | branch b =>
          rw [hn] at h
          obtain ⟨⟨hone, hle⟩, hb⟩ := h
          refine wp_mono (insertInBranch_wp hN hfind hleaf
            (insertInNode_wp hN hfind hleaf d) ht hb hle trivial) ?_ fun _ _ h => h
          rintro ⟨n, split⟩ t' ⟨hI, hdepth, -, hins⟩
          rw [hd] at hdepth
          cases split with
          | none =>
              obtain ⟨b', rfl, hmore, hle', hb'⟩ := hins
              refine ⟨hI, ?_⟩
              simp only [WellFormed, hdepth]
              exact ⟨⟨Nat.le_trans hone hmore, hle'⟩, hb'⟩
          | some s => exact hgrow hI hdepth hins _ _

end

/-! ## What a tree looks like -/

section

variable {has : L → K → Prop} {ok : L → Prop} {h : Nat → Option L}

/-- The keys below a node; `has` says which ones a leaf has. -/
def Stored (has : L → K → Prop) (h : Nat → Option L) : Nat → Node K → K → Prop
  | 0, .leaf p, k => ∃ l, h p = some l ∧ has l k
  | d + 1, .branch b, k => ∃ i, i ≤ b.numKeys ∧ Stored has h d (b.children i) k
  | _, _, _ => False

/-- All leaves are at depth `d` and as `ok` says; no branch has too many keys,
and a separator is greater than the keys to its left and not greater than
those to its right. -/
def Shape (N : Nat) (ok : L → Prop) (has : L → K → Prop) (h : Nat → Option L) : Nat → Node K → Prop
  | 0, .leaf p => ∃ l, h p = some l ∧ ok l
  | d + 1, .branch b => b.numKeys ≤ N ∧ (∀ i, i ≤ b.numKeys → Shape N ok has h d (b.children i)) ∧
      ∀ i j k, i < b.numKeys → j ≤ b.numKeys → Stored has h d (b.children j) k →
        if j ≤ i then k < b.keys i else b.keys i ≤ k
  | _, _ => False

theorem shape_of_tree {P : (K → Prop) → Nat → Prop} {size : Nat → Prop}
    (hsize : ∀ n, size n → n ≤ N)
    (hP : ∀ R p, P R p → ∃ l, h p = some l ∧ ok l ∧ ∀ k, has l k → R k) :
    ∀ {d : Nat} {R : K → Prop} {n : Node K}, Tree P size d R n →
      Shape N ok has h d n ∧ ∀ k, Stored has h d n k → R k := by
  intro d
  induction d with
  | zero =>
      intro R n hn
      cases n with
      | null => exact hn.elim
      | branch b => exact hn.elim
      | leaf p =>
          obtain ⟨l, hp, hok, hR⟩ := hP R p hn
          refine ⟨⟨l, hp, hok⟩, ?_⟩
          rintro k ⟨l', hp', hk⟩
          rw [hp] at hp'
          cases hp'
          exact hR k hk
  | succ d ih =>
      intro R n hn
      cases n with
      | null => exact hn.elim
      | leaf p => exact hn.elim
      | branch b =>
          obtain ⟨hnum, hb⟩ := hn
          have hchild := fun i hi => ih (hb.child i hi trivial)
          refine ⟨⟨hsize _ hnum, fun i hi => (hchild i hi).1, fun i j k hi hj hk => ?_⟩, ?_⟩
          · obtain ⟨-, -, hbelow, habove⟩ := (hchild j hj).2 k hk
            split
            · next hji => exact habove i hji hi
            · next hij => exact hbelow i (Nat.not_le.mp hij)
          · rintro k ⟨i, hi, hk⟩
            exact ((hchild i hi).2 k hk).1

end

end BPTree

end Poseidon
