import Poseidon.Lib.Along
import Poseidon.Proofs.BtreeOrder
import Poseidon.Proofs.ImInsert

/-!
# Scanning the tree in memory

The leaves of a tree, in order, have all entries in the order of their keys.
`scan` follows the links between the leaves instead. `insertInLeafNode` links
a leaf to its new sibling, but not the sibling to the leaf that came next, so
the links go through all leaves only as long as no leaf but the last one is
split.
-/

namespace Poseidon

open BTree Wp

namespace ImTree

open BPTree

variable {K V : Type} [LinearOrder K] {N M lo : Nat} {raw : Raw K V} {f : K → Option V} {key : K}
  {val : V} {R : K → Prop} {h h' : Nat → Option (LeafNode K V)} {l : LeafNode K V} {p : Nat}
  {t t' : ImTree K V}

/-! ## The entries in order -/

/-- The entries of the leaf at `p`. -/
def entriesAt (h : Nat → Option (LeafNode K V)) (p : Nat) : List (K × V) :=
  match h p with
  | some l => entries l
  | none => []

omit [LinearOrder K] in
theorem mem_entries {k : K} {v : V} : (k, v) ∈ entries l ↔ l.rows.Has k v := by
  simp [entries, Rows.Has, LeafNode.rows]

theorem pairwise_entries (hs : l.rows.Sorted) : (entries l).Pairwise fun a b => a.1 < b.1 := by
  rw [entries, List.pairwise_map]
  refine List.Pairwise.imp_of_mem ?_ (List.pairwise_lt_range (n := l.numKeys))
  intro i j _ hj hij
  exact hs i j hij (List.mem_range.mp hj)

/-- The leaves of a tree have the entries of the map, in order. -/
theorem entries_of_tree {size : Nat → Prop} {d : Nat} {n : Node K}
    (hn : Tree (LeafAt M lo f h) size d R n) :
    ((leavesOf d n).flatMap (entriesAt h)).Pairwise (fun a b => a.1 < b.1) ∧
      ∀ k v, (k, v) ∈ (leavesOf d n).flatMap (entriesAt h) ↔ R k ∧ f k = some v := by
  have hat : ∀ {p l}, h p = some l → entriesAt h p = entries l := fun hp => by rw [entriesAt, hp]
  have horder := leaves_in_order (E := fun p k => ∃ v, (k, v) ∈ entriesAt h p)
    (fun R p ⟨l, hp, hl⟩ k ⟨v, hv⟩ => has_inRange hl (mem_entries.mp (hat hp ▸ hv))) hn
  rw [List.pairwise_flatMap]
  refine ⟨⟨fun p hp => ?_, ?_⟩, fun k v => ?_⟩
  · obtain ⟨R', -, l, hl, hok⟩ := exists_range hn p hp
    rw [hat hl]
    exact pairwise_entries hok.sorted
  · refine horder.imp ?_
    intro p q hlt x hx y hy
    exact hlt x.1 y.1 ⟨x.2, hx⟩ ⟨y.2, hy⟩
  · rw [List.mem_flatMap]
    constructor
    · rintro ⟨p, hp, hkv⟩
      obtain ⟨R', hsub, l, hl, hok⟩ := exists_range hn p hp
      rw [hat hl, mem_entries] at hkv
      have hk := has_inRange hok hkv
      exact ⟨hsub k hk, (hok.reads k v hk).mpr hkv⟩
    · rintro ⟨hk, hf⟩
      obtain ⟨p, hp, R', hk', l, hl, hok⟩ := exists_leaf hn hk
      refine ⟨p, hp, ?_⟩
      rw [hat hl, mem_entries]
      exact (hok.reads k v hk').mp hf

omit [LinearOrder K] in
/-- `scan` follows the links. -/
theorem scanFrom_eq {ps : List Nat} (hc : Chain LeafNode.nextLeaf h ps) {fuel : Nat}
    (hfuel : ps.length ≤ fuel) :
    scanFrom h fuel ps.head? = some (ps.flatMap (entriesAt h)) := by
  induction ps generalizing fuel with
  | nil =>
      rw [List.head?_nil, ImTree.scanFrom]
      rfl
  | cons p ps ih =>
      obtain ⟨⟨l, hl, hnext⟩, hps⟩ := hc
      obtain ⟨fuel, rfl⟩ : ∃ n, fuel = n + 1 := ⟨fuel - 1, by simp at hfuel; omega⟩
      have hrest := ih hps (Nat.le_of_succ_le_succ hfuel)
      rw [← hnext] at hrest
      rw [List.head?_cons, ImTree.scanFrom]
      simp only [hl, hrest, Option.bind_eq_bind, Option.bind_some, List.flatMap_cons, entriesAt]
      rfl

/-! ## Runs -/

/-- The leaf that the search for a key leads to. -/
def leafFor (t : ImTree K V) (key : K) : Option (LeafNode K V) :=
  match findLeafNode lookupPositionInBranchNode key t.depth t.rootNode with
  | .ok p => t.leaves p
  | .error _ => none

instance decidableHit (l : LeafNode K V) (key : K) : Decidable (Hit l key) :=
  inferInstanceAs (Decidable (_ ∧ _))

/-- A leaf that is split has no successor. -/
def SplitsLast (M : Nat) (t : ImTree K V) (kv : K × V) : Prop :=
  ∀ l ∈ leafFor t kv.1, l.numKeys = M → ¬Hit l kv.1 → l.nextLeaf = none

instance decidableSplitsLast (M : Nat) (t : ImTree K V) (kv : K × V) :
    Decidable (SplitsLast M t kv) :=
  inferInstanceAs (Decidable (∀ l ∈ leafFor t kv.1, _))

/-- The tree after a call of `insert`. -/
def next (N M : Nat) (raw : Raw K V) (t : ImTree K V) (kv : K × V) : ImTree K V :=
  match insert N M raw kv.1 kv.2 t with
  | .ok _ t' => t'
  | .error _ t' => t'

/-- The links lead through all leaves. -/
structure Scannable (N M : Nat) (t : ImTree K V) : Prop where
  represents : ∃ f, Represents N M f t
  chain : Chain LeafNode.nextLeaf t.leaves (leavesOf t.depth t.rootNode)

/-- What a call of `insertInLeafNode` does to the links. -/
theorem insertInLeafNode_links (hM : Divisible M l key) (ht : Unused t.leaves t.fresh)
    (hp : t.leaves p = some l) (hmax : l.numKeys ≤ M) :
    wp (insertInLeafNode M raw key val p)
      (fun split t' => t'.depth = t.depth ∧ Untouched t.leaves t'.leaves p ∧
        match split with
        | none => ∃ l', t'.leaves p = some l' ∧ l'.nextLeaf = l.nextLeaf
        | some (_, q) => ∃ left right, (l.numKeys = M ∧ ¬Hit l key) ∧ t'.leaves p = some left ∧
            t'.leaves q = some right ∧ left.nextLeaf = some q ∧ right.nextLeaf = none)
      (fun _ _ => False) t := by
  refine insertInLeafNode_wp hM hp hmax (fun _ => ?_) (fun _ _ l' _ hnext _ => ?_)
    fun hmiss hfull left right s hh _ => ?_
  · exact ⟨rfl, untouched_update _ _ _, _, Function.update_self .., rfl⟩
  · exact ⟨rfl, untouched_update _ _ _, l', Function.update_self .., hnext⟩
  · refine ⟨rfl, (untouched_update _ _ left).alloc ht right, left, right, ⟨hfull, hmiss⟩, ?_,
      Function.update_self .., hh.left_next, hh.right_next⟩
    show Function.update (Function.update t.leaves p (some left)) t.fresh (some right) p = some left
    rw [Function.update_of_ne (ht.ne hp), Function.update_self]

/-- Inserting keeps the links. -/
theorem insert_chain (hN : 2 < N) (hM : KeyFits M f key) (raw : Raw K V)
    (ht : Unused t.leaves t.fresh) (hwf : WellFormed N (LeafAt M 0 f) (LeafAt M lo f) t)
    (hchain : Chain LeafNode.nextLeaf t.leaves (leavesOf t.depth t.rootNode))
    (hlast : SplitsLast M t (key, val)) :
    wp (insert N M raw key val)
      (fun _ t' => Chain LeafNode.nextLeaf t'.leaves (leavesOf t'.depth t'.rootNode))
      (fun _ _ => True) t := by
  have htree := hwf.tree (Q := LeafAt M 0 f t.leaves) (fun _ _ hl => hl)
    fun _ _ hl => hl.mono (Nat.zero_le _)
  obtain ⟨p, hfound, hcalls⟩ := insertWith_calls (fun b k hs => routes_lookup b k hs) hN raw.keys
    (insertInLeafNode M raw key val) key hwf
  refine wp_mono hcalls ?_ fun _ _ _ => trivial
  rintro _ t' ⟨split, t1, hcall, hleaves, hsplice⟩
  obtain ⟨p', R', hfound', -, l, hp, hl⟩ :=
    findLeafNode_ok (fun b k hs => routes_lookup b k hs) key htree trivial
  obtain rfl : p' = p := Except.ok.inj (hfound'.symm.trans hfound)
  obtain ⟨hdepth, hun, hlinks⟩ := wp_ok
    (insertInLeafNode_links (hM.divisible hl) ht hp hl.max) hcall
  obtain ⟨xs, ys, hold, hnew⟩ := hsplice hdepth
  rw [hold] at hchain
  rw [hleaves, hnew]
  cases split with
  | none =>
      obtain ⟨l', hl', hnext⟩ := hlinks
      refine hchain.congr fun a _ la hla => ?_
      by_cases ha : a = p'
      · subst ha
        rw [hp] at hla
        cases hla
        exact ⟨l', hl', hnext⟩
      · exact ⟨la, hun a la ha hla, rfl⟩
  | some sq =>
      obtain ⟨left, right, ⟨hfull, hmiss⟩, hleft, hright, hnext, hnone⟩ := hlinks
      have hend : ys = [] := by
        obtain ⟨⟨l', hl', hnext'⟩, -⟩ := hchain.suffix
        rw [hp] at hl'
        cases hl'
        have hfor : leafFor t key = some l := by
          rw [leafFor, hfound]
          exact hp
        rw [hlast l hfor hfull hmiss] at hnext'
        exact List.head?_eq_none_iff.mp hnext'.symm
      subst hend
      exact hchain.splice (fun a la ha hla => ⟨la, hun a la ha hla, rfl⟩) hleft hnext hright hnone

theorem insert_scannable (hN : 2 < N) (hM : 2 ≤ M) (raw : Raw K V) (h : Scannable N M t)
    (hlast : SplitsLast M t (key, val)) :
    wp (insert N M raw key val) (fun _ t' => Scannable N M t') (fun _ _ => False) t := by
  obtain ⟨f, hf⟩ := h.represents
  refine wp_mono (wp_and (insert_wp hN hM raw hf key val)
    (insert_chain hN (.inl hM) raw hf.unused hf.wf h.chain hlast)) ?_ fun _ _ hno => hno.1
  rintro _ t' ⟨hrep, hchain⟩
  exact ⟨⟨_, hrep⟩, hchain⟩

theorem insertAll_scannable (hN : 2 < N) (hM : 2 ≤ M) (kvs : List (K × V)) : ∀ {t : ImTree K V},
    Scannable N M t → Along (next N M raw) (SplitsLast M) t kvs →
      wp (insertAll N M raw kvs) (fun _ t' => Scannable N M t') (fun _ _ => False) t := by
  induction kvs with
  | nil => exact fun h _ => h
  | cons kv kvs ih =>
      intro t h hrun
      obtain ⟨hlast, hrest⟩ := hrun
      have hins := insert_scannable hN hM raw h hlast
      obtain ⟨_, t1, hcall, h1⟩ := wp_exists hins
      rw [show next N M raw t kv = t1 by rw [next, hcall]] at hrest
      change wp (insert N M raw kv.1 kv.2 >>= fun _ => insertAll N M raw kvs) _ _ t
      rw [wp_bind]
      exact wp_of_ok hcall (ih h1 hrest)

theorem scannable_new (raw : Raw K V) : Scannable N M (new raw) :=
  ⟨⟨_, represents_new raw⟩, ⟨newLeafNode raw 0, by simp [new], rfl⟩, trivial⟩

/-- The scan is the contents of the tree. -/
theorem Scannable.scan (h : Scannable N M t) :
    ∃ es, scan t = some es ∧ es.Pairwise (fun a b => a.1 < b.1) ∧
      ∀ k v, (k, v) ∈ es ↔ lookup t k = .ok (some v) := by
  obtain ⟨f, hf⟩ := h.represents
  obtain ⟨hsorted, hmem⟩ := entries_of_tree hf.tree
  obtain ⟨p, ps, hleaves, hfirst⟩ := firstLeaf_ok hf.tree
  refine ⟨_, ?_, hsorted, fun k v => ?_⟩
  · have hscan := scanFrom_eq h.chain (h.chain.length_le hf.unused)
    rw [hleaves, List.head?_cons] at hscan
    rw [ImTree.scan, hfirst, hleaves]
    exact hscan
  · rw [hmem, lookup_eq hf]
    simp

end ImTree

/-- In every run of `insert` that splits no leaf with a successor, `scan`
calls its function once for every entry, in the order of the keys. -/
theorem scan_is_complete {K V : Type} [LinearOrder K] (N M : Nat) (hN : 2 < N) (hM : 2 ≤ M)
    (raw : Raw K V) (kvs : List (K × V))
    (hrun : Along (ImTree.next N M raw) (ImTree.SplitsLast M) (ImTree.new raw) kvs) :
    ∃ t es, ImTree.insertAll N M raw kvs (ImTree.new raw) = .ok ⟨⟩ t ∧ ImTree.scan t = some es ∧
      es.Pairwise (fun a b => a.1 < b.1) ∧
      ∀ k v, (k, v) ∈ es ↔ ImTree.lookup t k = .ok (some v) := by
  obtain ⟨_, t, ht, h⟩ := wp_exists
    (ImTree.insertAll_scannable hN hM kvs (ImTree.scannable_new raw) hrun)
  obtain ⟨es, hscan, hsorted, hmem⟩ := h.scan
  exact ⟨t, es, ht, hscan, hsorted, hmem⟩

/-- Ascending keys, one of them twice. -/
theorem scan_is_complete_ascending :
    ∃ t es, ImTree.insertAll 3 2 ⟨fun _ _ => 7, fun _ _ => 7⟩
    [(1, 10), (2, 20), (3, 30), (4, 40), (2, 21)]
        (ImTree.new ⟨fun _ _ => 7, fun _ _ => 7⟩) = .ok ⟨⟩ t ∧ ImTree.scan t = some es ∧
      es.Pairwise (fun a b => a.1 < b.1) ∧
      ∀ k v, (k, v) ∈ es ↔ ImTree.lookup t k = .ok (some v) :=
  scan_is_complete 3 2 (by decide) (by decide) _ _ (by decide +kernel)

/-- The first leaf is split while there is a second one, which the scan then
does not reach. -/
theorem scan_misses_second_leaf :
    ∃ t, ImTree.insertAll 3 2 ⟨fun _ _ => 7, fun _ _ => 7⟩
    [(2, 20), (3, 30), (4, 40), (1, 10), (0, 0)]
        (ImTree.new ⟨fun _ _ => 7, fun _ _ => 7⟩) = .ok ⟨⟩ t ∧
      ImTree.scan t = some [(0, 0), (1, 10), (2, 20)] ∧ (ImTree.lookup t 3).toOption =
      some (some 30) := by
  obtain ⟨_, t, hrun⟩ := wp_exists
    (Q := fun _ t => ImTree.scan t = some [(0, 0), (1, 10), (2, 20)] ∧
      (ImTree.lookup t 3).toOption = some (some 30))
    (x := ImTree.insertAll 3 2 ⟨fun _ _ => 7, fun _ _ => 7⟩
      [(2, 20), (3, 30), (4, 40), (1, 10), (0, 0)])
    (s := ImTree.new ⟨fun _ _ => 7, fun _ _ => 7⟩) (by decide +kernel)
  exact ⟨t, hrun⟩

end Poseidon
