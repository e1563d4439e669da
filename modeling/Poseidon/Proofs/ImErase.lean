import Poseidon.Proofs.BtreeErase
import Poseidon.Proofs.ImScan

/-!
# Erasing from a leaf in memory

What `eraseFromLeafNode` and `underflowAtLeafLevel` do to the leaves and to
their parent. The leaves that the key does not go to keep what they have. A
leaf with too few keys is put together with a neighbour and divided again, or
the neighbour goes away.

That this is so depends on what the code meets on its way, which `EraseFits`
says of the tree before: where the links of the leaf lead, which neighbour
gives keys, and how much room there is for a merge.
-/

namespace BTree.Rows

variable {K V : Type} [LinearOrder K] {r : Rows K V} {k key : K} {v : V} {pos : Nat}

/-- `r` without the entry at `pos`. -/
def remove (r : Rows K V) (pos : Nat) : Rows K V where
  num := r.num - 1
  keys := removeAt r.keys r.num pos
  values := removeAt r.values r.num pos

omit [LinearOrder K] in
/-- Where the entries in front of `pos` and behind it are. -/
theorem remove_at (r : Rows K V) (pos : Nat) {i : Nat} (hi : i + 1 < r.num) :
    (i < pos ∧ (r.remove pos).keys i = r.keys i ∧ (r.remove pos).values i = r.values i) ∨
      pos ≤ i ∧ (r.remove pos).keys i = r.keys (i + 1) ∧
        (r.remove pos).values i = r.values (i + 1) := by
  rcases Nat.lt_or_ge i pos with hlt | hle
  · exact .inl ⟨hlt, removeAt_of_lt hlt, removeAt_of_lt hlt⟩
  · exact .inr ⟨hle, removeAt_of_le hle hi, removeAt_of_le hle hi⟩

theorem sorted_remove (h : r.Sorted) (pos : Nat) : (r.remove pos).Sorted := by
  intro i j hij hj
  have hj' : j + 1 < r.num := Nat.add_lt_of_lt_sub hj
  rcases r.remove_at pos (show i + 1 < r.num by omega) with ⟨hi, hki, -⟩ | ⟨hi, hki, -⟩
  · rcases r.remove_at pos hj' with ⟨-, hkj, -⟩ | ⟨-, hkj, -⟩
    · rw [hki, hkj]
      exact h i j hij (by omega)
    · rw [hki, hkj]
      exact h i (j + 1) (by omega) hj'
  · rcases r.remove_at pos hj' with ⟨hlt, -⟩ | ⟨-, hkj, -⟩
    · omega
    · rw [hki, hkj]
      exact h (i + 1) (j + 1) (by omega) hj'

theorem has_remove (h : r.Sorted) (hhit : pos < r.num ∧ r.keys pos = key) :
    (r.remove pos).Has k v ↔ k ≠ key ∧ r.Has k v := by
  obtain ⟨hpos, rfl⟩ := hhit
  constructor
  · rintro ⟨i, hi, hk, hv⟩
    have hi' : i + 1 < r.num := Nat.add_lt_of_lt_sub hi
    rcases r.remove_at pos hi' with ⟨hlt, hki, hvi⟩ | ⟨hle, hki, hvi⟩
    · rw [← hk, ← hv, hki, hvi]
      exact ⟨ne_of_lt (h i pos hlt hpos), i, by omega, rfl, rfl⟩
    · rw [← hk, ← hv, hki, hvi]
      exact ⟨(ne_of_lt (h pos (i + 1) (by omega) hi')).symm, i + 1, hi', rfl, rfl⟩
  · rintro ⟨hne, j, hj, rfl, rfl⟩
    have hjp : j ≠ pos := fun heq => hne (congrArg r.keys heq)
    rcases Nat.lt_or_gt_of_ne hjp with hlt | hgt
    · rcases r.remove_at pos (show j + 1 < r.num by omega) with ⟨-, hk, hv⟩ | ⟨hle, -⟩
      · exact ⟨j, Nat.lt_sub_of_add_lt (by omega), hk, hv⟩
      · omega
    · rcases r.remove_at pos (show j - 1 + 1 < r.num by omega) with ⟨hlt, -⟩ | ⟨-, hk, hv⟩
      · omega
      · rw [Nat.sub_add_cancel (by omega)] at hk hv
        exact ⟨j - 1, Nat.lt_sub_of_add_lt (by omega), hk, hv⟩

theorem Holds.remove {f : K → Option V} {R : K → Prop} (h : r.Holds f R)
    (hhit : pos < r.num ∧ r.keys pos = key) :
    (r.remove pos).Holds (Function.update f key none) R := by
  refine ⟨sorted_remove h.sorted pos, fun i hi => ?_, fun k v hk => ?_⟩
  · have hi' : i + 1 < r.num := Nat.add_lt_of_lt_sub hi
    rcases r.remove_at pos hi' with ⟨-, hki, -⟩ | ⟨-, hki, -⟩
    · rw [hki]
      exact h.inRange i (by omega)
    · rw [hki]
      exact h.inRange (i + 1) hi'
  · rw [has_remove h.sorted hhit]
    by_cases hkey : k = key
    · simp [hkey]
    · rw [Function.update_of_ne hkey, h.reads k v hk]
      simp [hkey]

end BTree.Rows

namespace Poseidon

open BTree Wp

namespace ImTree

open BPTree

variable {K V : Type} [LinearOrder K] {N M lo d i pos : Nat} {f f' : K → Option V} {key : K}
  {R R' : K → Prop} {h h' : Nat → Option (LeafNode K V)} {l l' r : LeafNode K V} {p q : Nat}
  {t : ImTree K V}

/-! ## The entries in the heap -/

def rowsAt (h : Nat → Option (LeafNode K V)) (p : Nat) : Option (Rows K V) :=
  (h p).map LeafNode.rows

theorem leafAt_iff : LeafAt M lo f h R p ↔
    ∃ r, rowsAt h p = some r ∧ (lo ≤ r.num ∧ r.num ≤ M) ∧ r.Holds f R := by
  constructor
  · rintro ⟨l, hp, hl⟩
    exact ⟨l.rows, by rw [rowsAt, hp]; rfl, ⟨hl.min, hl.max⟩, hl.sorted, hl.inRange, hl.reads⟩
  · rintro ⟨r, hp, ⟨hmin, hmax⟩, hr⟩
    obtain ⟨l, hl, rfl⟩ := Option.map_eq_some_iff.mp hp
    exact ⟨l, hl, hmin, hmax, hr.sorted, hr.inRange, hr.reads⟩

/-- The leaves that have no keys in `R` keep their entries, and no leaf is new. -/
structure Spares (h h' : Nat → Option (LeafNode K V)) (R : K → Prop) : Prop where
  rows : ∀ p r, rowsAt h p = some r → rowsAt h' p = some r ∨ ∃ i, i < r.num ∧ R (r.keys i)
  none : ∀ p, h p = none → h' p = none

omit [LinearOrder K] in
theorem Spares.mono (hs : Spares h h' R) (hR : ∀ k, R k → R' k) : Spares h h' R' :=
  ⟨fun p r hp => (hs.rows p r hp).imp_right fun ⟨i, hi, hk⟩ => ⟨i, hi, hR _ hk⟩, hs.none⟩

theorem Spares.kept (hs : Spares h h' R) (hf : ∀ k, ¬R k → f' k = f k) :
    Kept (LeafAt M lo f h) (LeafAt M lo f' h') R := by
  intro R' p hdis hp
  obtain ⟨r, hr, hsize, hrows⟩ := leafAt_iff.mp hp
  refine leafAt_iff.mpr ⟨r, ?_, hsize, hrows.congr (fun _ => Iff.rfl) fun k hk => hf k (hdis k hk)⟩
  rcases hs.rows p r hr with hr' | ⟨i, hi, hk⟩
  · exact hr'
  · exact absurd hk (hdis _ (hrows.inRange i hi))

omit [LinearOrder K] in
theorem Spares.unused (hs : Spares h h' R) {n : Nat} (hn : Unused h n) : Unused h' n :=
  fun p hp => hs.none p (hn p hp)

/-! ## The leaves -/

/-- The keys of the leaf, less one if it holds the key. -/
def keysLeft (l : LeafNode K V) (key : K) : Nat := if Hit l key then l.numKeys - 1 else l.numKeys

/-- The search does not end behind the keys of the leaf at the key that is
erased, or behind the array. -/
def Erasable (M : Nat) (l : LeafNode K V) (key : K) : Prop :=
  Hit l key ∨ lookupPositionInLeafNode l key < M ∧ l.keys (lookupPositionInLeafNode l key) ≠ key

instance (M : Nat) (l : LeafNode K V) (key : K) : Decidable (Erasable M l key) := instDecidableOr

theorem eraseFromLeafNode_wp (hp : t.leaves p = some l) (hl : l.rows.Holds f R)
    (hmax : l.numKeys ≤ M) (hkey : R key) (hfit : Erasable M l key) :
    wp (eraseFromLeafNode M key p)
      (fun deleted t' => deleted = (f key).isSome ∧ ∃ l', t' =
          { t with leaves := Function.update t.leaves p (some l') } ∧
        l'.numKeys = keysLeft l key ∧ l'.prevLeaf = l.prevLeaf ∧ l'.nextLeaf = l.nextLeaf ∧
        l'.rows.Holds (Function.update f key none) R ∧ (1 ≤ l.numKeys → R (l'.keys 0)))
      (fun _ _ => False) t := by
  have hf := found_lookup l key
  have hle : lookupPositionInLeafNode l key ≤ l.numKeys := hf.le
  simp only [eraseFromLeafNode, getLeaf, wp_bind, wp_get, hp, wp_pure]
  by_cases hhit : Hit l key
  · obtain ⟨hlt, heq⟩ := hhit
    have hsome : (f key).isSome = true := by
      rw [(hl.reads key _ hkey).mpr ((hl.sorted.has_at ⟨hlt, heq⟩).mpr rfl)]
      rfl
    rw [if_neg (by omega), if_pos heq, if_neg (by omega)]
    simp only [setLeaf, wp_bind, wp_modify, wp_pure]
    refine ⟨hsome.symm, _, rfl, (if_pos ⟨hlt, heq⟩).symm, rfl, rfl, hl.remove ⟨hlt, heq⟩,
      fun hone => ?_⟩
    show R (removeAt l.keys l.numKeys (lookupPositionInLeafNode l key) 0)
    rw [removeAt]
    split
    · next hcond => exact hl.inRange 1 hcond.2
    · exact hl.inRange 0 hone
  · obtain ⟨hlt, hne⟩ := hfit.resolve_left hhit
    have hnone : f key = none := by
      rw [Option.eq_none_iff_forall_ne_some]
      intro v hv
      exact hf.miss hl.sorted hhit ((hl.reads key v hkey).mp hv)
    rw [if_neg (by omega), if_neg hne]
    refine ⟨by rw [hnone]; rfl, l, ?_, (if_neg hhit).symm, rfl, rfl, ?_, hl.inRange 0⟩
    · rw [Function.update_eq_self_iff.mpr hp.symm]
    · exact hl.congr (fun _ => Iff.rfl) fun k _ => by
        rw [Function.update_eq_self_iff.mpr hnone.symm]

omit [LinearOrder K] in
theorem blit_len {α : Type} {a b : Nat → α} {pos lo n m i : Nat} (hn : i < pos + n) (hm : n ≤ m) :
    blit a pos b lo n i = blit a pos b lo m i := by
  rw [blit, blit]
  simp only [hn, show i < pos + m by omega]

/-- The right leaf gives entries to the left one. -/
theorem balanceLeafNodes_wp (hp : t.leaves p = some l) (hq : t.leaves q = some r)
    (hlt : l.numKeys < r.numKeys) (hfirst : ¬r.keys 0 < l.keys 0) :
    wp (balanceLeafNodes q p)
      (fun _ t' => ∃ l' r' : LeafNode K V,
        t' = { t with leaves :=
          Function.update (Function.update t.leaves p (some l')) q (some r') } ∧
        (l.rows.join r.rows).Slice 0 l'.rows ∧ (l.rows.join r.rows).Slice l'.numKeys r'.rows ∧
        l'.numKeys + r'.numKeys = l.numKeys + r.numKeys ∧
        r'.numKeys = (r.numKeys + l.numKeys) / 2)
      (fun _ _ => False) t := by
  obtain ⟨n, hn⟩ : ∃ n, n = r.numKeys - (r.numKeys + l.numKeys) / 2 := ⟨_, rfl⟩
  simp only [balanceLeafNodes, getLeaf, wp_bind, wp_get, hp, hq, wp_pure,
    if_neg (Nat.not_le.mpr hlt), ← hn, if_neg hfirst, setLeaf, wp_modify]
  have hle : n ≤ r.numKeys := hn ▸ Nat.sub_le _ _
  have hback : ∀ {α : Type} (a b : Nat → α) i, i < r.numKeys - n →
      blit b 0 b n (r.numKeys - n) i = blit a l.numKeys b 0 r.numKeys (l.numKeys + n + i) := by
    intro α a b i hi
    rw [blit_zero_of_lt hi, Nat.add_assoc, blit_of_mem (by omega), Nat.zero_add]
  refine ⟨_, _, rfl, ⟨?_, fun i hi => ?_, fun i hi => ?_⟩, ⟨?_, fun i hi => hback _ _ i hi,
    fun i hi => hback _ _ i hi⟩, ?_, ?_⟩
  · show 0 + (l.numKeys + n) ≤ l.numKeys + r.numKeys
    omega
  · rw [Nat.zero_add]
    exact blit_len hi hle
  · rw [Nat.zero_add]
    exact blit_len hi hle
  · show l.numKeys + n + (r.numKeys - n) ≤ l.numKeys + r.numKeys
    omega
  · show l.numKeys + n + (r.numKeys - n) = l.numKeys + r.numKeys
    omega
  · show r.numKeys - n = _
    omega

/-- Has not been deleted. -/
def Alive (h : Nat → Option (LeafNode K V)) (q : Option Nat) : Prop :=
  (q.all fun x => (h x).isSome) = true

omit [LinearOrder K] in
theorem rowsAt_update (h : Nat → Option (LeafNode K V)) (p : Nat) (l : LeafNode K V) :
    rowsAt (Function.update h p (some l)) = Function.update (rowsAt h) p (some l.rows) := by
  funext y
  by_cases hy : y = p
  · rw [hy, rowsAt, Function.update_self, Function.update_self]
    rfl
  · rw [rowsAt, Function.update_of_ne hy, Function.update_of_ne hy, rowsAt]

omit [LinearOrder K] in
theorem mergeLeafNodes_wp (hp : t.leaves p = some l) (hq : t.leaves q = some r)
    (hfit : l.numKeys + r.numKeys ≤ M) (hnext : Alive t.leaves r.nextLeaf) :
    wp (mergeLeafNodes M p q)
      (fun _ t' => t'.depth = t.depth ∧ t'.fresh = t.fresh ∧ ∀ y, y ≠ q →
        rowsAt t'.leaves y = Function.update (rowsAt t.leaves) p (some (l.rows.join r.rows)) y)
      (fun _ _ => False) t := by
  simp only [mergeLeafNodes, getLeaf, wp_bind, wp_get, hp, hq, wp_pure,
    if_neg (Nat.not_lt.mpr hfit), setLeaf, wp_modify]
  have hmerged : ∀ (m r' : LeafNode K V), m.rows = l.rows.join r.rows → ∀ y, y ≠ q →
      rowsAt (Function.update (Function.update t.leaves p (some m)) q (some r')) y =
        Function.update (rowsAt t.leaves) p (some (l.rows.join r.rows)) y := by
    intro m r' hm y hy
    rw [rowsAt_update, rowsAt_update, Function.update_of_ne hy, hm]
  cases hx : r.nextLeaf with
  | none => exact ⟨rfl, rfl, hmerged _ _ rfl⟩
  | some x =>
      have hsome : ∀ (m r' : LeafNode K V), ∃ n,
          Function.update (Function.update t.leaves p (some m)) q (some r') x = some n := by
        intro m r'
        have hx' : (t.leaves x).isSome = true := by simpa [Alive, hx] using hnext
        rw [Function.update_apply, Function.update_apply]
        split
        · exact ⟨_, rfl⟩
        · split
          · exact ⟨_, rfl⟩
          · exact Option.isSome_iff_exists.mp hx'
      simp only [wp_bind, wp_get]
      generalize hh : Function.update (Function.update t.leaves p _) q _ = h1
      obtain ⟨n, hn⟩ : ∃ n, h1 x = some n := hh ▸ hsome _ _
      simp only [hn, wp_pure, wp_modify]
      refine ⟨trivial, trivial, fun y hy => ?_⟩
      have hsame : rowsAt (Function.update h1 x (some { n with prevLeaf := some p })) =
          rowsAt h1 := by
        rw [rowsAt_update, Function.update_eq_self_iff, rowsAt, hn]
        rfl
      rw [hsame, ← hh]
      exact hmerged _ _ rfl y hy

/-! ## What erasing needs -/

/-- The number of keys of the leaf at `p`. -/
def leafNum (h : Nat → Option (LeafNode K V)) (p : Nat) : Nat := (h p).elim 0 LeafNode.numKeys

omit [LinearOrder K] in
theorem leafNum_of (hp : h p = some l) : leafNum h p = l.numKeys := by
  rw [leafNum, hp]
  rfl

/-- The leaf that a pointer is to. -/
def leafOf : Node K → Option Nat
  | .leaf p => some p
  | _ => none

/-- The number of keys that a node at depth `d` must not be below. -/
def half (N M : Nat) : Nat → Nat
  | 0 => (M + 1) / 2
  | _ + 1 => (N + 1) / 2

section

variable (N M : Nat) (h : Nat → Option (LeafNode K V)) (key : K)

/-- The keys of a node at depth `d`, less one if it is the leaf and holds the
key, or if the child on the way is short of keys and no neighbour has any to
give. -/
def keysLeftAt : Nat → Node K → Nat
  | 0, n => ((leafOf n).bind h).elim 0 fun l => keysLeft l key
  | d + 1, .branch b =>
      let pos := lookupPositionInBranchNode b key
      let size := keysLeftAt d (b.children pos)
      if Merges (half N M d) (leafNum h) b pos size then b.numKeys - 1 else b.numKeys
  | _, _ => 0

/-- The leaf `l`, the child `pos` of `b`, is linked with its neighbours below
`b`. -/
def Linked (b : Branch (Node K) K) (pos : Nat) (l : LeafNode K V) : Prop :=
  (0 < pos → l.prevLeaf = leafOf (b.children (pos - 1))) ∧
    (pos < b.numKeys → l.nextLeaf = leafOf (b.children (pos + 1)))

/-- A leaf with too few keys gets nothing from the left, its links lead to its
neighbours, and if it is merged, the parent is the root or keeps a key. -/
def LeafUnderflowFits (root : Prop) (b : Branch (Node K) K) (pos : Nat) (l : LeafNode K V) : Prop :=
  Linked b pos l ∧
    (0 < pos → nodeKeys (leafNum h) (b.children (pos - 1)) ≤ (M + 1) / 2) ∧
    (Merges ((M + 1) / 2) (leafNum h) b pos (keysLeft l key) → (1 < b.numKeys ∨ root) ∧
      Alive h (if 0 < pos then l.nextLeaf
        else ((leafOf (b.children (pos + 1))).bind h).bind LeafNode.nextLeaf))

/-- The branch that is merged has room, and the left one of the two has keys. -/
def BranchUnderflowFits (b : Branch (Node K) K) (pos size : Nat) : Prop :=
  Merges ((N + 1) / 2) (leafNum h) b pos size →
    if 0 < pos then nodeKeys (leafNum h) (b.children (pos - 1)) + size + 1 ≤ N
    else 0 < size ∧ size + nodeKeys (leafNum h) (b.children (pos + 1)) + 1 ≤ N

/-- What erasing meets on the way from a node at depth `d`; `root` says that
the parent of the leaf is the root. -/
def Fits (root : Prop) : Nat → Node K → Prop
  | 0, n => ∃ l ∈ (leafOf n).bind h, Erasable M l key
  | 1, .branch b =>
      let pos := lookupPositionInBranchNode b key
      ∃ l ∈ (leafOf (b.children pos)).bind h, Erasable M l key ∧
        (keysLeft l key < (M + 1) / 2 → LeafUnderflowFits M h key root b pos l)
  | d + 2, .branch b =>
      let pos := lookupPositionInBranchNode b key
      Fits root (d + 1) (b.children pos) ∧
        BranchUnderflowFits N h b pos (keysLeftAt N M h key (d + 1) (b.children pos))
  | _, _ => False

end

/-- The branches of `erase` that are taken do what they should. -/
def EraseFits (N M : Nat) (t : ImTree K V) (key : K) : Prop :=
  Fits N M t.leaves key (t.depth = 1) t.depth t.rootNode

instance decidableLinked (b : Branch (Node K) K) (pos : Nat) (l : LeafNode K V) :
    Decidable (Linked b pos l) := instDecidableAnd

instance decidableLeafUnderflowFits (M : Nat) (h : Nat → Option (LeafNode K V)) (key : K)
    (root : Prop) [Decidable root] (b : Branch (Node K) K) (pos : Nat) (l : LeafNode K V) :
    Decidable (LeafUnderflowFits M h key root b pos l) :=
  inferInstanceAs (Decidable (_ ∧ _ ∧ (_ → _ ∧ (_ : Bool) = true)))

instance decidableBranchUnderflowFits (N : Nat) (h : Nat → Option (LeafNode K V))
    (b : Branch (Node K) K) (pos size : Nat) : Decidable (BranchUnderflowFits N h b pos size) :=
  inferInstanceAs (Decidable (Merges _ _ b pos size → if 0 < pos then _ ≤ N else 0 < size ∧ _ ≤ N))

instance decidableFits (N M : Nat) (h : Nat → Option (LeafNode K V)) (key : K) (root : Prop)
    [Decidable root] : ∀ d n, Decidable (Fits N M h key root d n)
  | 0, n => inferInstanceAs (Decidable (∃ l ∈ (leafOf n).bind h, Erasable M l key))
  | 1, .branch b => inferInstanceAs (Decidable (∃ l ∈ (leafOf (b.children _)).bind h, _ ∧ (_ → _)))
  | d + 2, .branch _ => @instDecidableAnd _ _ (decidableFits N M h key root (d + 1) _) inferInstance
  | 1, .leaf _ | 1, .null | _ + 2, .leaf _ | _ + 2, .null => .isFalse id

instance decidableEraseFits (N M : Nat) (t : ImTree K V) (key : K) :
    Decidable (EraseFits N M t key) :=
  decidableFits N M t.leaves key (t.depth = 1) t.depth t.rootNode

/-! ## The parent of the leaf -/

/-- A tree below the root that stands for the map `f`. -/
abbrev Subtree (N M : Nat) (f : K → Option V) (h : Nat → Option (LeafNode K V)) (d : Nat) :
    (K → Prop) → Node K → Prop :=
  Tree (LeafAt M (M / 2) f h) (Sized N) d

/-- The tree below a root pointer stands for the map `f`. -/
def RootAt (N M : Nat) (f : K → Option V) (h : Nat → Option (LeafNode K V)) :
    Nat → (K → Prop) → Node K → Prop
  | 0, R, .leaf p => LeafAt M 0 f h R p
  | d + 1, R, .branch b => (1 ≤ b.numKeys ∧ b.numKeys ≤ N) ∧
      b.Holds (Subtree N M f h d) R
  | _, _, _ => False

/-- What `eraseFromBranchNode` returns for a branch over children at depth `d`
that will have `size` keys: the branch, or another root. -/
def Returns (N M d : Nat) (f : K → Option V) (R : K → Prop) (size depth : Nat)
    (node : Branch (Node K) K) (root : Option (Node K)) (t : ImTree K V) : Prop :=
  match root with
  | none => t.depth = depth ∧ node.numKeys = size ∧ R (node.keys 0) ∧
      (depth = d + 1 → 1 ≤ size) ∧
      node.Holds (Subtree N M f t.leaves d) R
  | some n => depth = d + 1 ∧ t.depth = d ∧ RootAt N M f t.leaves d R n

variable {b : Branch (Node K) K}

theorem leaf_child (hb : b.Holds (Subtree N M f h 0) R) (hi : i ≤ b.numKeys) :
    ∃ p l, b.children i = .leaf p ∧ h p = some l ∧ M / 2 ≤ l.numKeys ∧ l.numKeys ≤ M ∧
      l.rows.Holds f fun k => R k ∧ b.Routes k i := by
  have hc := hb.child i hi trivial
  generalize b.children i = n at hc ⊢
  cases n with
  | null => exact hc.elim
  | branch c => exact hc.elim
  | leaf p =>
      obtain ⟨l, hp, hl⟩ := hc
      exact ⟨p, l, rfl, hp, hl.min, hl.max, hl.sorted, hl.inRange, hl.reads⟩

/-- Two leaves next to each other, put together. -/
theorem pair_rows (hi : i < b.numKeys)
    (hl : l.rows.Holds f fun k => R k ∧ b.Routes k i)
    (hr : r.rows.Holds f fun k => R k ∧ b.Routes k (i + 1)) :
    (l.rows.join r.rows).Holds f fun k => R k ∧ b.Near i k := by
  refine Rows.Holds.join (s := b.keys i) ?_ ?_
  · exact hl.congr (fun k => by rw [and_assoc, Branch.near_lt_iff hi]) fun _ _ => rfl
  · exact hr.congr (fun k => by rw [and_assoc, Branch.near_ge_iff hi]) fun _ _ => rfl

omit [LinearOrder K] in
/-- Only the leaves at `p` and `q` have changed, both of which have keys. -/
theorem spares_of (hp : h p = some l) (hl : ∃ i, i < l.numKeys ∧ R (l.keys i)) (hq : h q = some r)
    (hr : ∃ i, i < r.numKeys ∧ R (r.keys i))
    (hsame : ∀ y, y ≠ p → y ≠ q → rowsAt h' y = rowsAt h y) : Spares h h' R where
  rows y u hy := by
    by_cases hyp : y = p
    · rw [hyp, rowsAt, hp] at hy
      cases hy
      exact .inr hl
    · by_cases hyq : y = q
      · rw [hyq, rowsAt, hq] at hy
        cases hy
        exact .inr hr
      · exact .inl (by rw [hsame y hyp hyq, hy])
  none y hy := by
    have hyp : y ≠ p := by
      rintro rfl
      rw [hp] at hy
      cases hy
    have hyq : y ≠ q := by
      rintro rfl
      rw [hq] at hy
      cases hy
    have hrow := hsame y hyp hyq
    rw [rowsAt, rowsAt, hy] at hrow
    exact Option.map_eq_none_iff.mp hrow

/-- Two leaves next to each other have changed. -/
theorem spares_pair (hp : h p = some l) (hq : h q = some r)
    (hl : l.rows.Holds f fun k => R k ∧ b.Routes k i) (hlone : 1 ≤ l.numKeys)
    (hr : r.rows.Holds f fun k => R k ∧ b.Routes k (i + 1)) (hrone : 1 ≤ r.numKeys)
    (hsame : ∀ y, y ≠ p → y ≠ q → rowsAt h' y = rowsAt h y) :
    Spares h h' fun k => R k ∧ b.Near i k := by
  obtain ⟨hlk, hlroute⟩ := hl.inRange 0 hlone
  obtain ⟨hrk, hrroute⟩ := hr.inRange 0 hrone
  exact spares_of hp ⟨0, hlone, hlk, .inl hlroute⟩ hq ⟨0, hrone, hrk, .inr hrroute⟩ hsame

theorem update_off {x : Option V} (hkey : R key) (k : K) (hk : ¬R k) :
    Function.update f key x k = f k :=
  Function.update_of_ne (fun heq => hk (by rwa [heq])) _ _

/-- The other children of the parent. -/
theorem offNear_leaves (hb : b.Holds (Subtree N M f h 0) R)
    (hs : Spares h h' fun k => R k ∧ b.Near i k) (hkey : R key ∧ b.Near i key) :
    b.HoldsOn (Subtree N M (Function.update f key none) h' 0) R fun j => True ∧ j ≠ i ∧ j ≠ i + 1 :=
  hb.offNear fun _ _ hR' hc => (hs.kept (update_off hkey)).tree hR' hc

/-- `b` is the parent of the leaf at `p`, which was `l` in the heap `h` and is
`l'` after the key has been erased. -/
structure AtLeaf (N M : Nat) (f : K → Option V) (key : K) (R : K → Prop)
    (h : Nat → Option (LeafNode K V)) (b : Branch (Node K) K) (pos p : Nat) (l l' : LeafNode K V)
    (t : ImTree K V) : Prop where
  holds : b.Holds (Subtree N M f h 0) R
  one : 1 ≤ b.numKeys
  le : b.numKeys ≤ N
  goes : R key ∧ b.Routes key pos
  child : b.children pos = .leaf p
  old : h p = some l
  size : 1 ≤ l.numKeys ∧ M / 2 ≤ l'.numKeys + 1
  oldRows : l.rows.Holds f fun k => R k ∧ b.Routes k pos
  rows : l'.rows.Holds (Function.update f key none) fun k => R k ∧ b.Routes k pos
  first : b.Routes (l'.keys 0) pos
  leaves : t.leaves = Function.update h p (some l')

variable {depth : Nat}

/-- A neighbour of the leaf. -/
theorem AtLeaf.neighbour (ha : AtLeaf N M f key R h b pos p l l' t)
    (hi : i ≤ b.numKeys) (hne : i ≠ pos) :
    ∃ q r, b.children i = .leaf q ∧ h q = some r ∧ q ≠ p ∧ t.leaves q = some r ∧
      M / 2 ≤ r.numKeys ∧ r.numKeys ≤ M ∧ (r.rows.Holds f fun k => R k ∧ b.Routes k i) ∧
      r.rows.Holds (Function.update f key none) fun k => R k ∧ b.Routes k i := by
  obtain ⟨q, r, hq, hr, hmin, hmax, hrows⟩ := leaf_child ha.holds hi
  have hqp : q ≠ p := by
    rintro rfl
    obtain rfl : r = l := Option.some.inj (hr.symm.trans ha.old)
    exact hne ((hrows.inRange 0 ha.size.1).2.unique (ha.oldRows.inRange 0 ha.size.1).2)
  refine ⟨q, r, hq, hr, hqp, ?_, hmin, hmax, hrows, hrows.congr (fun _ => Iff.rfl) fun k hk => ?_⟩
  · rw [ha.leaves, Function.update_of_ne hqp, hr]
  · exact update_off (R := (b.Routes · pos)) ha.goes.2 k fun hp => hne (hk.2.unique hp)

/-- The leaf gets entries from the right. -/
theorem takeFromRight_wp (ha : AtLeaf N M f key R h b pos p l l' t) (hM : 2 ≤ M)
    (hunder : l'.numKeys < (M + 1) / 2) (hlt : pos < b.numKeys)
    (hq : b.children (pos + 1) = .leaf q) (hr : t.leaves q = some r)
    (hmore : (M + 1) / 2 < r.numKeys) :
    wp (balanceLeafNodes q p >>= fun _ => getLeaf q >>= fun next =>
        pure ({ b with keys := Function.update b.keys pos (next.keys 0) }, none))
      (fun (x : Branch (Node K) K × Option (Node K)) t' => t'.fresh = t.fresh ∧
        Spares h t'.leaves R ∧
        Returns N M 0 (Function.update f key none) R b.numKeys t.depth x.1 x.2 t')
      (fun _ _ => False) t := by
  obtain ⟨q', r', hq', hr', hqp, hr'', hmin, hmax, hold, hrows⟩ :=
    ha.neighbour (i := pos + 1) hlt (Nat.succ_ne_self pos)
  obtain rfl : q = q' := by
    rw [hq] at hq'
    exact Node.leaf.inj hq'
  obtain rfl : r = r' := Option.some.inj (hr.symm.trans hr'')
  have hp : t.leaves p = some l' := by rw [ha.leaves, Function.update_self]
  have hfirst : l'.keys 0 < r.keys 0 := lt_of_lt_of_le (ha.first.2.2 pos (Nat.le_refl pos) hlt)
    ((hold.inRange 0 (show 0 < r.numKeys by omega)).2.2.1 pos (Nat.lt_succ_self pos))
  rw [wp_bind]
  refine wp_mono (balanceLeafNodes_wp hp hr (by omega) (not_lt.mpr (le_of_lt hfirst))) ?_
    fun _ _ h => h
  rintro _ t' ⟨a, c, rfl, ha1, hc1, hnum, hhalf⟩
  simp only [getLeaf, wp_bind, wp_get, Function.update_self, wp_pure]
  obtain ⟨h', hh⟩ : ∃ h', h' = Function.update (Function.update t.leaves p (some a)) q (some c) :=
    ⟨_, rfl⟩
  rw [← hh]
  have hp' : rowsAt h' p = some a.rows := by
    rw [hh, rowsAt, Function.update_of_ne hqp.symm, Function.update_self]
    rfl
  have hq' : rowsAt h' q = some c.rows := by
    rw [hh, rowsAt, Function.update_self]
    rfl
  have hrow : ∀ y, y ≠ p → y ≠ q → rowsAt h' y = rowsAt h y := by
    intro y hyp hyq
    rw [hh, rowsAt, rowsAt, Function.update_of_ne hyq, Function.update_of_ne hyp, ha.leaves,
      Function.update_of_ne hyp]
  have hsize := ha.size
  have hs := spares_pair ha.old hr' ha.oldRows hsize.1 hold (by omega) hrow
  have hsum : a.numKeys + c.numKeys = (l'.rows.join r.rows).num := hnum
  have hfront := (pair_rows hlt ha.rows hrows).front ha1 (show a.numKeys < _ by omega)
  have hback := (pair_rows hlt ha.rows hrows).back hc1 hsum (by omega)
  have hkey : c.keys 0 = (l'.rows.join r.rows).keys a.numKeys := by
    rw [← Nat.add_zero a.numKeys]
    exact hc1.keys 0 (show 0 < c.numKeys by omega)
  have hholds : (b.moveKey pos (c.keys 0) (.leaf p) (.leaf q)).Holds
      (Subtree N M (Function.update f key none) h' 0) R := by
    rw [hkey]
    refine (offNear_leaves ha.holds hs ⟨ha.goes.1, .inl ha.goes.2⟩).moveKey
      (fun _ h1 h2 => ⟨trivial, h1, h2⟩) hlt ?_ ⟨_, hfront.inRange 0 (show 0 < a.numKeys by omega)⟩
      (leafAt_iff.mpr ⟨_, hp', ?_, hfront⟩) (leafAt_iff.mpr ⟨_, hq', ?_, hback⟩)
    · have hin := hback.inRange 0 (show 0 < c.numKeys by omega)
      rw [← hkey]
      exact hin.1
    · exact ⟨show M / 2 ≤ a.numKeys by omega, show a.numKeys ≤ M by omega⟩
    · exact ⟨show M / 2 ≤ c.numKeys by omega, show c.numKeys ≤ M by omega⟩
  have heq : b.moveKey pos (c.keys 0) (.leaf p) (.leaf q) =
      { b with keys := Function.update b.keys pos (c.keys 0) } := by
    rw [Branch.moveKey, ← ha.child, Function.update_eq_self, ← hq, Function.update_eq_self]
  rw [heq] at hholds
  exact ⟨trivial, hs.mono fun _ hk => hk.1, rfl, rfl, hholds.inRange 0 ha.one, fun _ => ha.one,
    hholds⟩

/-- Two leaves have become one, and the parent loses a child. -/
theorem dropLeaf_wp {J : Rows K V} (hb : b.Holds (Subtree N M f h 0) R)
    (hkey : R key ∧ b.Near i key) (hi : i < b.numKeys)
    (hpos : (if 0 < pos then pos - 1 else pos) = i)
    (hroot : 1 < b.numKeys ∨ t.depth = 1) (hs : Spares h t.leaves fun k => R k ∧ b.Near i k)
    (hp : rowsAt t.leaves p = some J) (hsize : M / 2 ≤ J.num ∧ J.num ≤ M)
    (hJ : J.Holds (Function.update f key none) fun k => R k ∧ b.Near i k) :
    wp (dropLeaf b pos p)
      (fun x t' => t'.fresh = t.fresh ∧ t'.leaves = t.leaves ∧
        Returns N M 0 (Function.update f key none) R (b.numKeys - 1) t.depth x.1 x.2 t')
      (fun _ _ => False) t := by
  have hleaf := leafAt_iff.mpr ⟨J, hp, hsize, hJ⟩
  refine wp_ite (fun hmore => ?_) fun hone => ?_
  · have hholds : (b.joinChild i (.leaf p)).Holds
        (Subtree N M (Function.update f key none) t.leaves 0) R :=
      (offNear_leaves hb hs hkey).joinChild (fun _ h1 h2 => ⟨trivial, h1, h2⟩) hi fun _ => hleaf
    simp only [wp_pure, hpos]
    exact ⟨trivial, trivial, rfl, rfl, hholds.inRange 0 (show 0 < b.numKeys - 1 by omega),
      fun _ => by omega, hholds⟩
  · simp only [wp_bind, wp_modify, wp_pure]
    have hnear : ∀ k, b.Near i k := by
      intro k
      obtain ⟨j, hj⟩ := hb.sorted.exists_routes k
      have := hj.1
      obtain rfl | rfl : j = i ∨ j = i + 1 := by omega
      · exact .inl hj
      · exact .inr hj
    refine ⟨trivial, trivial, hroot.resolve_left hone, by rw [hroot.resolve_left hone], ?_⟩
    exact leafAt_iff.mpr ⟨J, hp, ⟨Nat.zero_le _, hsize.2⟩,
      hJ.congr (fun k => (and_iff_left (hnear k)).symm) fun _ _ => rfl⟩

/-- A leaf and its right neighbour become one. -/
theorem mergeLeaves_wp {u u' : LeafNode K V} (hb : b.Holds (Subtree N M f h 0) R)
    (hkey : R key ∧ b.Near i key) (hi : i < b.numKeys)
    (hpos : (if 0 < pos then pos - 1 else pos) = i)
    (hroot : 1 < b.numKeys ∨ t.depth = 1) (hp : h p = some l) (hq : h q = some r)
    (hl : l.rows.Holds f fun k => R k ∧ b.Routes k i) (hlone : 1 ≤ l.numKeys)
    (hr : r.rows.Holds f fun k => R k ∧ b.Routes k (i + 1)) (hrone : 1 ≤ r.numKeys)
    (hp' : t.leaves p = some u) (hq' : t.leaves q = some u') (hpq : p ≠ q)
    (hu : u.rows.Holds (Function.update f key none) fun k => R k ∧ b.Routes k i)
    (hu' : u'.rows.Holds (Function.update f key none) fun k => R k ∧ b.Routes k (i + 1))
    (hsize : M / 2 ≤ u.numKeys + u'.numKeys ∧ u.numKeys + u'.numKeys ≤ M)
    (hsame : ∀ y, y ≠ p → y ≠ q → rowsAt t.leaves y = rowsAt h y)
    (hnext : Alive t.leaves u'.nextLeaf) :
    wp (mergeLeafNodes M p q >>= fun _ => deleteLeafNode q >>= fun _ => dropLeaf b pos p)
      (fun x t' => t'.fresh = t.fresh ∧ Spares h t'.leaves R ∧
        Returns N M 0 (Function.update f key none) R (b.numKeys - 1) t.depth x.1 x.2 t')
      (fun _ _ => False) t := by
  rw [wp_bind]
  refine wp_mono (mergeLeafNodes_wp hp' hq' hsize.2 hnext) ?_ fun _ _ h => h
  rintro _ t1 ⟨hd1, hf1, hrows⟩
  simp only [deleteLeafNode, wp_bind, wp_modify]
  have hrow : ∀ y, y ≠ q → rowsAt (Function.update t1.leaves q none) y = rowsAt t1.leaves y :=
    fun y hy => by rw [rowsAt, Function.update_of_ne hy, rowsAt]
  have hs : Spares h (Function.update t1.leaves q none) fun k => R k ∧ b.Near i k := by
    refine spares_pair hp hq hl hlone hr hrone fun y hyp hyq => ?_
    rw [hrow y hyq, hrows y hyq, Function.update_of_ne hyp, hsame y hyp hyq]
  refine wp_mono (dropLeaf_wp hb hkey hi hpos (by rwa [hd1]) hs ?_ hsize
    (pair_rows hi hu hu')) ?_ fun _ _ h => h
  · rw [hrow p hpq, hrows p hpq, Function.update_self]
  · rintro x t2 ⟨hf2, hl2, hret⟩
    exact ⟨hf2.trans hf1, by rw [hl2]; exact hs.mono fun _ hk => hk.1, by rw [← hd1]; exact hret⟩

omit [LinearOrder K] in
/-- The neighbour that a link leads to. -/
theorem neighbour_ok (t : ImTree K V) (there : Prop) [Decidable there] (link : Option Nat)
    (hlink : there → ∃ q r, link = some q ∧ t.leaves q = some r) :
    ∃ x, neighbour leafKeys there link t = .ok x t ∧ (¬there → x = none) ∧
      ∀ q r, there → link = some q → t.leaves q = some r → x = some (q, r.numKeys) := by
  by_cases ht : there
  · obtain ⟨q, r, rfl, hr⟩ := hlink ht
    refine ⟨some (q, r.numKeys), ?_, fun hno => absurd ht hno, fun q' r' _ hq hr' => ?_⟩
    · simp only [neighbour, if_pos (decide_eq_true ht), follow, leafKeys, getLeaf, get_apply, bind,
        EStateM.bind, pure, EStateM.pure, hr]
    · obtain rfl := Option.some.inj hq
      rw [hr] at hr'
      cases hr'
      rfl
  · refine ⟨none, ?_, fun _ => rfl, fun _ _ h => absurd h ht⟩
    rw [neighbour, if_neg (by simpa using ht)]
    rfl

/-- The leaf has too few keys. -/
theorem underflowAtLeafLevel_wp (ha : AtLeaf N M f key R h b pos p l l' t) (hM : 2 ≤ M)
    (hunder : l'.numKeys < (M + 1) / 2) (hlinks : Linked b pos l')
    (hleft : 0 < pos → nodeKeys (leafNum h) (b.children (pos - 1)) ≤ (M + 1) / 2)
    (hmerge : Merges ((M + 1) / 2) (leafNum h) b pos l'.numKeys → (1 < b.numKeys ∨ t.depth = 1) ∧
      Alive t.leaves (if 0 < pos then l'.nextLeaf
        else ((leafOf (b.children (pos + 1))).bind h).bind LeafNode.nextLeaf)) :
    wp (underflowAtLeafLevel N M b pos p)
      (fun x t' => t'.fresh = t.fresh ∧ Spares h t'.leaves R ∧
        Returns N M 0 (Function.update f key none) R
          (if Merges ((M + 1) / 2) (leafNum h) b pos l'.numKeys then b.numKeys - 1 else b.numKeys)
          t.depth x.1 x.2 t')
      (fun _ _ => False) t := by
  have hpos := ha.goes.2.1
  have hp : t.leaves p = some l' := by rw [ha.leaves, Function.update_self]
  have hsame : ∀ y, y ≠ p → rowsAt t.leaves y = rowsAt h y := fun y hy => by
    rw [rowsAt, ha.leaves, Function.update_of_ne hy, rowsAt]
  have hsize := ha.size
  have hL := fun h0 : 0 < pos => ha.neighbour (i := pos - 1) (by omega) (by omega)
  have hR := fun hlt : pos < b.numKeys => ha.neighbour (i := pos + 1) hlt (Nat.succ_ne_self pos)
  obtain ⟨prev, hprev, hnoprev, hprevIs⟩ := neighbour_ok t (0 < pos) l'.prevLeaf
    fun h0 => by
      obtain ⟨q, r, hq, -, -, hr, -⟩ := hL h0
      exact ⟨q, r, by rw [hlinks.1 h0, hq, leafOf], hr⟩
  obtain ⟨next, hnext, hnonext, hnextIs⟩ := neighbour_ok t (pos < b.numKeys) l'.nextLeaf
    fun hlt => by
      obtain ⟨q, r, hq, -, -, hr, -⟩ := hR hlt
      exact ⟨q, r, by rw [hlinks.2 hlt, hq, leafOf], hr⟩
  rw [underflowAtLeafLevel]
  refine wp_ite (fun hlt => absurd hlt (Nat.not_lt.mpr hpos)) fun _ => ?_
  simp only [getLeaf, wp_bind, wp_get, hp, wp_pure]
  refine wp_of_ok hprev ?_
  have hspare : spare ((M + 1) / 2) prev = none := by
    rcases Nat.eq_zero_or_pos pos with h0 | h0
    · rw [hnoprev (by omega)]
      rfl
    · obtain ⟨q, r, hq, hr, -, hr', -⟩ := hL h0
      have hle := hleft h0
      rw [hq, nodeKeys_leaf, leafNum_of hr] at hle
      rw [hprevIs q r h0 (by rw [hlinks.1 h0, hq, leafOf]) hr']
      exact if_neg (Nat.not_lt.mpr hle)
  simp only [hspare, wp_bind]
  refine wp_of_ok hnext ?_
  by_cases hmore : pos < b.numKeys ∧ (M + 1) / 2 < nodeKeys (leafNum h) (b.children (pos + 1))
  · obtain ⟨hlt, hmore⟩ := hmore
    obtain ⟨q, r, hq, hr, -, hr', -⟩ := hR hlt
    have hno : ¬Merges ((M + 1) / 2) (leafNum h) b pos l'.numKeys :=
      fun hm => absurd hmore (Nat.not_lt.mpr (hm.2.2 hlt))
    rw [hq, nodeKeys_leaf, leafNum_of hr] at hmore
    have hsome : spare ((M + 1) / 2) next = some q := by
      rw [hnextIs q r hlt (by rw [hlinks.2 hlt, hq, leafOf]) hr']
      exact if_pos hmore
    rw [if_neg hno]
    simp only [hsome]
    exact takeFromRight_wp ha hM hunder hlt hq hr' hmore
  have hmerges : Merges ((M + 1) / 2) (leafNum h) b pos l'.numKeys :=
    ⟨hunder, hleft, fun hlt => Nat.not_lt.mp fun hm => hmore ⟨hlt, hm⟩⟩
  obtain ⟨hroot, halive⟩ := hmerge hmerges
  rw [if_pos hmerges]
  have hsome : spare ((M + 1) / 2) next = none := by
    by_cases hlt : pos < b.numKeys
    · obtain ⟨q, r, hq, hr, -, hr', -⟩ := hR hlt
      have hle := hmerges.2.2 hlt
      rw [hq, nodeKeys_leaf, leafNum_of hr] at hle
      rw [hnextIs q r hlt (by rw [hlinks.2 hlt, hq, leafOf]) hr']
      exact if_neg (Nat.not_lt.mpr hle)
    · rw [hnonext hlt]
      rfl
  simp only [hsome]
  rcases Nat.eq_zero_or_pos pos with rfl | h0
  · obtain ⟨q, r, hq, hr, hqp, hr', hmin, hmax, hold, hrows⟩ := hR ha.one
    have hle := hmerges.2.2 ha.one
    rw [hq, nodeKeys_leaf, leafNum_of hr] at hle
    rw [if_neg (Nat.lt_irrefl 0), hq] at halive
    have halive' : Alive t.leaves r.nextLeaf := by
      simpa only [leafOf, Option.bind_some, hr] using halive
    rw [hnoprev (Nat.lt_irrefl 0), hnextIs q r ha.one (by rw [hlinks.2 ha.one, hq, leafOf]) hr']
    exact mergeLeaves_wp ha.holds ⟨ha.goes.1, .inl ha.goes.2⟩ ha.one rfl hroot ha.old hr ha.oldRows
      hsize.1 hold (by omega) hp hr' hqp.symm ha.rows hrows (by omega) (fun y hy _ => hsame y hy)
      halive'
  · obtain ⟨q, r, hq, hr, hqp, hr', hmin, hmax, hold, hrows⟩ := hL h0
    have hle := hleft h0
    rw [hq, nodeKeys_leaf, leafNum_of hr] at hle
    rw [if_pos h0] at halive
    rw [hprevIs q r h0 (by rw [hlinks.1 h0, hq, leafOf]) hr']
    obtain ⟨i, rfl⟩ : ∃ i, pos = i + 1 := ⟨pos - 1, by omega⟩
    exact mergeLeaves_wp ha.holds ⟨ha.goes.1, .inr ha.goes.2⟩ hpos rfl hroot hr ha.old hold
      (by omega) ha.oldRows hsize.1 hr' hp hqp hrows ha.rows (by omega) (fun y _ hy => hsame y hy)
      halive

end ImTree

end Poseidon
