import Poseidon.Proofs.ImScan

/-!
# Scanning a range of the tree in memory

A key that is not smaller than the keys of the tree goes to its last leaf, so
keys in ascending order split the last leaf only, and the links lead through
all leaves. The scan of a range follows them from the leaf that the search
for the lower bound leads to, up to the first key beyond the upper bound. The
first leaf may have keys below the lower bound, and the scan does not leave
them out. `pfbtree.hpp` has the same loop, with the numbers of pages for the
pointers.
-/

namespace Poseidon

open BTree Wp

namespace ImTree

open BPTree

variable {K V : Type} [LinearOrder K] {N M : Nat} {raw : Raw K V} {f : K → Option V}
  {key minKey maxKey : K} {val : V} {h : Nat → Option (LeafNode K V)} {t : ImTree K V} {p q : Nat}

/-! ## Ascending keys -/

/-- The tree stands for the map `f`, no leaf but the root is empty, and the
links lead through all leaves. -/
structure Grown (N M : Nat) (f : K → Option V) (t : ImTree K V) : Prop where
  unused : Unused t.leaves t.fresh
  wf : WellFormed N (LeafAt M 0 f) (LeafAt M 1 f) t
  chain : Chain LeafNode.nextLeaf t.leaves (leavesOf t.depth t.rootNode)

theorem Grown.tree (hg : Grown N M f t) :
    Tree (LeafAt M 0 f t.leaves) (· ≤ N) t.depth (fun _ => True) t.rootNode :=
  hg.wf.tree (fun _ _ hl => hl) fun _ _ hl => hl.mono (Nat.zero_le _)

/-- Of two leaves none is empty. -/
theorem Grown.exists_entry (hg : Grown N M f t) {xs ys : List Nat}
    (hleaves : leavesOf t.depth t.rootNode = xs ++ p :: q :: ys) :
    ∃ e, e ∈ entriesAt t.leaves q := by
  have hwf := hg.wf
  rw [WellFormed] at hwf
  split at hwf
  · next hd hn =>
      rw [hd, hn] at hleaves
      have hlen := congrArg List.length hleaves
      simp [leavesOf] at hlen
      omega
  · next d b hd hn =>
      have htree : Tree (LeafAt M 1 f t.leaves) (fun _ => True) (d + 1) (fun _ => True)
          (.branch b) :=
        ⟨trivial, hwf.2.mono fun _ _ _ hc => hc.mono (fun _ _ _ hl => hl) fun _ _ => trivial⟩
      rw [hd, hn] at hleaves
      have hq : q ∈ leavesOf d.succ (.branch b) := by
        rw [hleaves]
        simp
      obtain ⟨R', -, l, hl, hok⟩ := exists_range htree q hq
      refine ⟨(l.keys 0, l.values 0), ?_⟩
      rw [entriesAt, hl]
      exact mem_entries.mpr ⟨0, hok.min, rfl, rfl⟩
  · exact hwf.elim

/-- Where a search leads to. -/
theorem Grown.around (hg : Grown N M f t) (key : K) :
    ∃ p l xs ys, findLeafNode lookupPositionInBranchNode key t.depth t.rootNode = .ok p ∧
      (t.leaves p = some l ∧ l.rows.Sorted) ∧ leavesOf t.depth t.rootNode = xs ++ p :: ys ∧
      (∀ a ∈ xs, ∀ e ∈ entriesAt t.leaves a, e.1 < key) ∧
      ∀ a ∈ ys, ∀ e ∈ entriesAt t.leaves a, key < e.1 := by
  obtain ⟨p, xs, ys, _, hp, hleaves, ⟨l, hl, hok⟩, hbefore, hafter⟩ :=
    findLeafNode_around (E := fun p k => ∃ v, (k, v) ∈ entriesAt t.leaves p)
      (fun b k hs => routes_lookup b k hs)
      (fun R p ⟨l, hp, hl⟩ k ⟨v, hv⟩ => has_inRange hl
      (mem_entries.mp (by rwa [entriesAt, hp] at hv)))
      hg.tree trivial
  exact ⟨p, l, xs, ys, hp, ⟨hl, hok.sorted⟩, hleaves, fun a ha e he => hbefore a ha e.1 ⟨e.2, he⟩,
    fun a ha e he => hafter a ha e.1 ⟨e.2, he⟩⟩

/-- A key that is not smaller than the others goes to the last leaf. -/
theorem Grown.splitsLast (hg : Grown N M f t) (hmax : ∀ k v, f k = some v → k ≤ key) :
    SplitsLast M t (key, val) := by
  obtain ⟨p, -, xs, ys, hp, -, hleaves, -, hafter⟩ := hg.around key
  intro l hl _ _
  rw [leafFor, hp] at hl
  have hchain := hg.chain
  rw [hleaves] at hchain
  obtain ⟨⟨l', hl', hnext⟩, -⟩ := hchain.suffix
  obtain rfl : l' = l := Option.some.inj (hl'.symm.trans hl)
  rw [hnext]
  cases ys with
  | nil => rfl
  | cons q ys =>
      obtain ⟨e, he⟩ := hg.exists_entry hleaves
      have hmem : e ∈ (leavesOf t.depth t.rootNode).flatMap (entriesAt t.leaves) :=
        List.mem_flatMap.mpr ⟨q, by rw [hleaves]; simp, he⟩
      have hstored := (((entries_of_tree hg.tree).2 e.1 e.2).mp hmem).2
      exact absurd (hmax _ _ hstored) (not_le_of_gt (hafter q (by simp) e he))

theorem insert_grown (hN : 2 < N) (hM : 0 < M) (raw : Raw K V) (hg : Grown N M f t)
    (hmax : ∀ k v, f k = some v → k ≤ key) (val : V) :
    wp (insert N M raw key val)
      (fun _ t' => Grown N M (Function.update f key (some val)) t') (fun _ _ => False) t := by
  have hfits : KeyFits M f key := .inr ⟨hM, hmax⟩
  refine wp_mono (wp_and
    (insert_wellFormed hN raw hfits Nat.one_pos (Nat.le_max_left _ _) hg.unused hg.wf val)
    (insert_chain hN hfits raw hg.unused hg.wf hg.chain (hg.splitsLast hmax))) ?_
    fun _ _ hno => hno.1
  rintro _ t' ⟨⟨hunused, hwf⟩, hchain⟩
  exact ⟨hunused, hwf, hchain⟩

/-- What calls of `insert` store in a tree that stands for `f`. -/
def stored (f : K → Option V) (kvs : List (K × V)) : K → Option V :=
  kvs.foldl (fun f kv => Function.update f kv.1 (some kv.2)) f

theorem insertAll_grown (hN : 2 < N) (hM : 0 < M) (raw : Raw K V) (kvs : List (K × V)) :
    ∀ {f : K → Option V} {t : ImTree K V}, Grown N M f t →
      kvs.Pairwise (fun a b => a.1 ≤ b.1) → (∀ kv ∈ kvs, ∀ k v, f k = some v → k ≤ kv.1) →
      wp (insertAll N M raw kvs) (fun _ t' => Grown N M (stored f kvs) t')
      (fun _ _ => False) t := by
  induction kvs with
  | nil => exact fun hg _ _ => hg
  | cons kv kvs ih =>
      intro f t hg hasc hmax
      obtain ⟨hfirst, hrest⟩ := List.pairwise_cons.mp hasc
      change wp (insert N M raw kv.1 kv.2 >>= fun _ => insertAll N M raw kvs) _ _ t
      rw [wp_bind]
      refine wp_mono (insert_grown hN hM raw hg (hmax kv List.mem_cons_self) kv.2) ?_
        fun _ _ hno => hno
      intro _ t' hg'
      refine ih hg' hrest fun kv' hkv' k v hk => ?_
      rw [update_eq_some_iff] at hk
      split at hk
      · next heq =>
          rw [heq]
          exact hfirst kv' hkv'
      · exact hmax kv' (List.mem_cons_of_mem _ hkv') k v hk

theorem grown_new (raw : Raw K V) : Grown N M (fun _ => none) (new raw) where
  unused := (represents_new (N := N) (M := M) raw).unused
  wf := (represents_new (N := N) (M := M) raw).wf
  chain := (scannable_new (N := N) (M := M) raw).chain

/-! ## The scan of a range -/

theorem mem_takeWhile (maxKey : K) {es : List (K × V)} (hs : es.Pairwise fun a b => a.1 < b.1)
    (e : K × V) :
    (e ∈ es.takeWhile fun e => decide (e.1 ≤ maxKey)) ↔ e ∈ es ∧ e.1 ≤ maxKey := by
  induction es with
  | nil => simp
  | cons d es ih =>
      obtain ⟨hd, hs⟩ := List.pairwise_cons.mp hs
      rw [List.takeWhile_cons]
      by_cases hle : d.1 ≤ maxKey
      · rw [if_pos (decide_eq_true hle), List.mem_cons, List.mem_cons, ih hs]
        constructor
        · rintro (rfl | ⟨he, hem⟩)
          · exact ⟨.inl rfl, hle⟩
          · exact ⟨.inr he, hem⟩
        · rintro ⟨rfl | he, hem⟩
          · exact .inl rfl
          · exact .inr ⟨he, hem⟩
      · rw [if_neg (by simpa using hle)]
        refine iff_of_false List.not_mem_nil fun ⟨he, hem⟩ => ?_
        rcases List.mem_cons.mp he with rfl | he
        · exact hle hem
        · exact hle (le_trans (le_of_lt (hd e he)) hem)

/-- The loop stops at the first key that is greater than the upper bound. -/
theorem scanRangeFrom_eq {ps : List Nat} (hc : Chain LeafNode.nextLeaf h ps) {fuel : Nat}
    (hfuel : ps.length ≤ fuel) :
    scanRangeFrom h maxKey fuel ps.head? =
      some ((ps.flatMap (entriesAt h)).takeWhile fun e => decide (e.1 ≤ maxKey)) := by
  induction ps generalizing fuel with
  | nil =>
      rw [List.head?_nil, scanRangeFrom]
      rfl
  | cons p ps ih =>
      obtain ⟨⟨l, hl, hnext⟩, hps⟩ := hc
      obtain ⟨fuel, rfl⟩ : ∃ n, fuel = n + 1 := ⟨fuel - 1, by simp at hfuel; omega⟩
      have hrest := ih hps (Nat.le_of_succ_le_succ hfuel)
      rw [← hnext] at hrest
      have hlen : (entries l).length = l.numKeys := by simp [entries]
      have hat : entriesAt h p = entries l := by rw [entriesAt, hl]
      rw [List.head?_cons, scanRangeFrom, List.flatMap_cons, List.takeWhile_append, hat, hlen]
      simp only [hl, hrest]
      have hle : (entriesUpTo maxKey l).length ≤ l.numKeys := by
        rw [← hlen]
        exact (List.takeWhile_sublist _).length_le
      rw [← entriesUpTo]
      rcases Nat.lt_or_ge (entriesUpTo maxKey l).length l.numKeys with hlt | hge
      · rw [if_pos hlt, if_neg (Nat.ne_of_lt hlt)]
      · have hnum := Nat.le_antisymm hle hge
        have hall : entriesUpTo maxKey l = entries l :=
          (List.takeWhile_sublist _).eq_of_length (hnum.trans hlen.symm)
        rw [if_neg (Nat.not_lt.mpr hge), if_pos hnum, hall]
        rfl

/-- The scan of a range calls its function for the stored entries in the range,
in the order of their keys. -/
def ScansRange (f : K → Option V) (t : ImTree K V) (minKey maxKey : K) : Prop :=
  ∃ es, scanRange t minKey maxKey = some es ∧ es.Pairwise (fun a b => a.1 < b.1) ∧
    ∀ k v, (k, v) ∈ es ↔ (minKey ≤ k ∧ k ≤ maxKey) ∧ f k = some v

/-- The leaf that the search for `minKey` leads to has no key below it. -/
def StartsAtLeaf (t : ImTree K V) (minKey : K) : Prop :=
  ∀ l ∈ leafFor t minKey, 0 < l.numKeys → minKey ≤ l.keys 0

instance decidableStartsAtLeaf (t : ImTree K V) (minKey : K) : Decidable (StartsAtLeaf t minKey) :=
  inferInstanceAs (Decidable (∀ l ∈ leafFor t minKey, _))

theorem Grown.scansRange_iff (hg : Grown N M f t) (hle : minKey ≤ maxKey) :
    ScansRange f t minKey maxKey ↔ StartsAtLeaf t minKey := by
  obtain ⟨p, l, xs, ys, hp, ⟨hl, hrows⟩, hleaves, hbefore, hafter⟩ := hg.around minKey
  obtain ⟨hsorted, hmem⟩ := entries_of_tree hg.tree
  have hchain := hg.chain
  have hfuel := hchain.length_le hg.unused
  rw [hleaves] at hchain hfuel hsorted
  have hfor : leafFor t minKey = some l := by rw [leafFor, hp]; exact hl
  have hat : entriesAt t.leaves p = entries l := by rw [entriesAt, hl]
  have hscan : scanRange t minKey maxKey =
      some (((p :: ys).flatMap (entriesAt t.leaves)).takeWhile fun e => decide (e.1 ≤ maxKey)) := by
    rw [scanRange, hp]
    have hlen : (p :: ys).length ≤ t.fresh := Nat.le_trans (by simp) hfuel
    exact scanRangeFrom_eq hchain.suffix hlen
  rw [List.flatMap_append] at hsorted
  have hsorted' := (List.pairwise_append.mp hsorted).2.1
  have hvisits := mem_takeWhile maxKey hsorted'
  constructor
  · rintro ⟨es, hes, -, hexact⟩ l' hl' hpos
    obtain rfl : l' = l := Option.some.inj (hl'.symm.trans hfor)
    rw [hscan] at hes
    cases hes
    by_contra hlt
    have hfirst : (l'.keys 0, l'.values 0) ∈ (p :: ys).flatMap (entriesAt t.leaves) := by
      rw [List.flatMap_cons, hat]
      exact List.mem_append_left _ (mem_entries.mpr ⟨0, hpos, rfl, rfl⟩)
    have hvisited := (hvisits _).mpr ⟨hfirst, le_trans (le_of_lt (not_le.mp hlt)) hle⟩
    exact hlt ((hexact _ _).mp hvisited).1.1
  · intro hstart
    refine ⟨_, hscan, hsorted'.sublist (List.takeWhile_sublist _), fun k v => ?_⟩
    have hin := hmem k v
    rw [hleaves, List.flatMap_append, List.mem_append] at hin
    rw [hvisits]
    constructor
    · rintro ⟨hkv, hmax⟩
      refine ⟨⟨?_, hmax⟩, (hin.mp (.inr hkv)).2⟩
      rw [List.flatMap_cons, List.mem_append, hat] at hkv
      rcases hkv with hkv | hkv
      · obtain ⟨i, hi, rfl, -⟩ := mem_entries.mp hkv
        have hpos : 0 < l.numKeys := Nat.lt_of_le_of_lt (Nat.zero_le i) hi
        exact le_trans (hstart l hfor hpos) (hrows.le (Nat.zero_le i) hi)
      · obtain ⟨a, ha, hkv⟩ := List.mem_flatMap.mp hkv
        exact le_of_lt (hafter a ha _ hkv)
    · rintro ⟨⟨hmin, hmax⟩, hf⟩
      refine ⟨(hin.mpr ⟨trivial, hf⟩).resolve_left fun hkv => ?_, hmax⟩
      obtain ⟨a, ha, hkv⟩ := List.mem_flatMap.mp hkv
      exact absurd hmin (not_le_of_gt (hbefore a ha _ hkv))

end ImTree

/-- After any calls of `insert` in ascending order of the keys, the scan of a
range calls its function for the stored entries in the range exactly when the
leaf that the search for the lower bound leads to has no key below it. -/
theorem range_scan_iff {K V : Type} [LinearOrder K] (N M : Nat) (hN : 2 < N) (hM : 0 < M)
    (raw : Raw K V) (kvs : List (K × V)) (hasc : kvs.Pairwise fun a b => a.1 ≤ b.1) :
    ∃ t, ImTree.insertAll N M raw kvs (ImTree.new raw) = .ok ⟨⟩ t ∧
      ∀ minKey maxKey, minKey ≤ maxKey →
        (ImTree.ScansRange (ImTree.stored (fun _ => none) kvs) t minKey maxKey ↔
          ImTree.StartsAtLeaf t minKey) := by
  obtain ⟨_, t, ht, hg⟩ := wp_exists (ImTree.insertAll_grown hN hM raw kvs
    (ImTree.grown_new (N := N) (M := M) raw) hasc fun _ _ _ _ hk => by cases hk)
  exact ⟨t, ht, fun minKey maxKey hle => hg.scansRange_iff hle⟩

/-- A range that starts with the first key of the second leaf. -/
theorem range_scan_iff_separator :
    ∃ t, ImTree.insertAll 3 2 ⟨fun _ _ => 7, fun _ _ => 7⟩ [(1, 10), (2, 20), (3, 30), (4, 40)]
        (ImTree.new ⟨fun _ _ => 7, fun _ _ => 7⟩) = .ok ⟨⟩ t ∧
      ImTree.ScansRange (ImTree.stored (fun _ => none)
      [(1, 10), (2, 20), (3, 30), (4, 40)]) t 2 3 := by
  obtain ⟨t, ht, hscan⟩ := range_scan_iff 3 2 (by decide) (by decide) ⟨fun _ _ => 7, fun _ _ => 7⟩
    [(1, 10), (2, 20), (3, 30), (4, 40)] (by decide)
  refine ⟨t, ht, (hscan 2 3 (by decide)).mpr ?_⟩
  obtain ⟨_, t', ht', hstart⟩ := wp_exists (Q := fun _ t => ImTree.StartsAtLeaf t 2)
    (x := ImTree.insertAll 3 2 ⟨fun _ _ => 7, fun _ _ => 7⟩ [(1, 10), (2, 20), (3, 30), (4, 40)])
    (s := ImTree.new ⟨fun _ _ => 7, fun _ _ => 7⟩) (by decide +kernel)
  rw [ht] at ht'
  cases ht'
  exact hstart

/-- A range that starts with the second key of the last leaf: the scan calls its
function for the first key, too. -/
theorem range_scan_below_range :
    ∃ t, ImTree.insertAll 3 2 ⟨fun _ _ => 7, fun _ _ => 7⟩ [(1, 10), (2, 20)]
        (ImTree.new ⟨fun _ _ => 7, fun _ _ => 7⟩) = .ok ⟨⟩ t ∧
      ImTree.scanRange t 2 2 = some [(1, 10), (2, 20)] ∧
      ¬ImTree.ScansRange (ImTree.stored (fun _ => none) [(1, 10), (2, 20)]) t 2 2 := by
  have hrun : wp (ImTree.insertAll 3 2 ⟨fun _ _ => 7, fun _ _ => 7⟩ [(1, 10), (2, 20)])
      (fun _ t => ImTree.scanRange t 2 2 = some [(1, 10), (2, 20)]) (fun _ _ => False)
      (ImTree.new ⟨fun _ _ => 7, fun _ _ => 7⟩) := by
    decide +kernel
  obtain ⟨_, t, ht, hscan⟩ := wp_exists hrun
  refine ⟨t, ht, hscan, ?_⟩
  rintro ⟨es, hes, -, hexact⟩
  obtain rfl := Option.some.inj (hscan.symm.trans hes)
  have hbelow := ((hexact 1 10).mp (by simp)).1.1
  exact absurd hbelow (by decide)

end Poseidon
