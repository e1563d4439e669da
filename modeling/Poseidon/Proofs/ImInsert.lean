import Poseidon.Btree.ImBtree
import Poseidon.Lib.Rows
import Poseidon.Proofs.BtreeInsert

/-!
# Inserting into the tree in memory

A leaf stands for a map on the keys that the search leads to it with. What
`insertInLeafNode` does to its entries is what `insert` does to the map, also
when the leaf is split: the entries of the two halves are those of the leaf
with the new one, divided by the first key of the right half.
-/

namespace Poseidon

open BTree Wp

namespace LeafNode

variable {K V : Type}

def rows (l : LeafNode K V) : Rows K V := ⟨l.numKeys, l.keys, l.values⟩

end LeafNode

namespace ImTree

open BPTree

variable {C K V : Type} [LinearOrder K] {N M lo : Nat} {raw : Raw K V} {f : K → Option V} {key : K}
  {val : V} {R : K → Prop} {h h' : Nat → Option (LeafNode K V)} {l : LeafNode K V} {p : Nat}
  {t : ImTree K V}

theorem routes_lookup (b : Branch C K) (k : K) (hs : b.Sorted) :
    b.Routes k (lookupPositionInBranchNode b k) := by
  obtain ⟨hle, hbefore, hafter⟩ := firstNot_spec (fun pos => decide (b.keys pos ≤ k)) b.numKeys
  refine ⟨hle, fun j hj => by simpa using hbefore j hj, fun j hj hlt => ?_⟩
  have hstop := hafter (Nat.lt_of_le_of_lt hj hlt)
  simp only [decide_eq_false_iff_not, not_le] at hstop
  exact lt_of_lt_of_le hstop (hs.le hj hlt)

theorem found_lookup (l : LeafNode K V) (k : K) : l.rows.Found k
    (lookupPositionInLeafNode l k) := by
  obtain ⟨hle, hbefore, hafter⟩ := firstNot_spec (fun pos => decide (l.keys pos < k)) l.numKeys
  refine ⟨hle, fun j hj => ?_, fun hlt => ?_⟩
  · exact of_decide_eq_true (hbefore j hj)
  · exact not_lt.mp (of_decide_eq_false (hafter hlt))

/-- The leaf has the entries of the map `f` with keys in `R`. -/
structure LeafOk (M lo : Nat) (f : K → Option V) (R : K → Prop) (l : LeafNode K V) : Prop where
  min : lo ≤ l.numKeys
  max : l.numKeys ≤ M
  sorted : l.rows.Sorted
  inRange : ∀ i, i < l.numKeys → R (l.keys i)
  reads : ∀ k v, R k → (f k = some v ↔ l.rows.Has k v)

def LeafAt (M lo : Nat) (f : K → Option V) (h : Nat → Option (LeafNode K V))
    (R : K → Prop) (p : Nat) :
    Prop :=
  ∃ l, h p = some l ∧ LeafOk M lo f R l

/-! ## A leaf -/

theorem has_inRange (hl : LeafOk M lo f R l) {k : K} {v : V} (hhas : l.rows.Has k v) : R k := by
  obtain ⟨i, hi, rfl, -⟩ := hhas
  exact hl.inRange i hi

theorem update_eq_some_iff {k : K} {v : V} :
    Function.update f key (some val) k = some v ↔ if k = key then v = val else f k = some v := by
  by_cases hk : k = key
  · rw [hk, Function.update_self, if_pos rfl]
    simp [eq_comm]
  · rw [Function.update_of_ne hk, if_neg hk]

/-- A leaf with other entries that are those of the new map. -/
theorem LeafOk.of_has {l' : LeafNode K V} {R' : K → Prop} (hl : LeafOk M lo f R l)
    {lo' : Nat} (hmin : lo' ≤ l'.numKeys) (hmax : l'.numKeys ≤ M) (hsorted : l'.rows.Sorted)
    (hR : ∀ k, R' k → R k)
    (hhas : ∀ k v, l'.rows.Has k v ↔ R' k ∧ if k = key then v = val else l.rows.Has k v) :
    LeafOk M lo' (Function.update f key (some val)) R' l' := by
  refine ⟨hmin, hmax, hsorted, fun i hi => ?_, fun k v hk => ?_⟩
  · exact ((hhas _ _).mp ⟨i, hi, rfl, rfl⟩).1
  · rw [update_eq_some_iff, hhas]
    simp only [hk, true_and]
    split
    · rfl
    · exact hl.reads k v (hR k hk)

/-- The map is changed at a key that other leaves do not have. -/
theorem LeafOk.other (hl : LeafOk M lo f R l) (hkey : ¬R key) :
    LeafOk M lo (Function.update f key (some val)) R l := by
  refine ⟨hl.min, hl.max, hl.sorted, hl.inRange, fun k v hk => ?_⟩
  have hne : k ≠ key := fun heq => hkey (heq ▸ hk)
  rw [Function.update_of_ne hne]
  exact hl.reads k v hk

/-- What a full leaf is divided into, with the new entry in one of the
parts. -/
structure Halves (M : Nat) (l : LeafNode K V) (key : K) (val : V) (p q : Nat)
    (left right : LeafNode K V) : Prop where
  parts : ∃ front back : Rows K V, l.rows.Slice 0 front ∧ front.num = (M + 1) / 2 ∧
    l.rows.Slice ((M + 1) / 2) back ∧ back.num = M - (M + 1) / 2 ∧
    if lookupPositionInLeafNode l key < (M + 1) / 2 then
      left.rows = front.insert (lookupPositionInLeafNode l key) key val ∧ right.rows = back
    else
      left.rows = front ∧
        right.rows = back.insert (lookupPositionInLeafNode l key - (M + 1) / 2) key val
  left_prev : left.prevLeaf = l.prevLeaf
  left_next : left.nextLeaf = some q
  right_prev : right.prevLeaf = some p
  right_next : right.nextLeaf = none

/-- The key is in the leaf, at the position where the search ends. -/
def Hit (l : LeafNode K V) (key : K) : Prop :=
  lookupPositionInLeafNode l key < l.numKeys ∧ l.keys (lookupPositionInLeafNode l key) = key

/-- The leaf can be divided: the order is not 1, or the key goes behind the
others. -/
def Divisible (M : Nat) (l : LeafNode K V) (key : K) : Prop :=
  2 ≤ M ∨ 0 < M ∧ (¬Hit l key → lookupPositionInLeafNode l key = l.numKeys)

theorem insertInLeafNode_wp {Q : Option (K × Nat) → ImTree K V → Prop} (hM : Divisible M l key)
    (hp : t.leaves p = some l) (hmax : l.numKeys ≤ M)
    (hhit : Hit l key → Q none { t with leaves := Function.update t.leaves p (some
      { l with values := Function.update l.values (lookupPositionInLeafNode l key) val }) })
    (hroom : ¬Hit l key → l.numKeys < M → ∀ l' : LeafNode K V,
      l'.rows = l.rows.insert (lookupPositionInLeafNode l key) key val →
      l'.nextLeaf = l.nextLeaf → l'.prevLeaf = l.prevLeaf →
      Q none { t with leaves := Function.update t.leaves p (some l') })
    (hfull : ¬Hit l key → l.numKeys = M → ∀ (left right : LeafNode K V) (s : K),
      Halves M l key val p t.fresh left right → right.keys 0 = s →
      Q (some (s, t.fresh))
        { t with
          fresh := t.fresh + 1
          leaves := Function.update (Function.update t.leaves p (some left)) t.fresh
            (some right) }) :
    wp (insertInLeafNode M raw key val p) Q (fun _ _ => False) t := by
  have hf := found_lookup l key
  have hle : lookupPositionInLeafNode l key ≤ l.numKeys := hf.le
  simp only [insertInLeafNode, getLeaf, wp_bind, wp_get, hp, wp_pure]
  refine wp_ite hhit fun hmiss => ?_
  refine wp_ite (fun hnum => ?_) fun hnum => ?_
  · simp only [alloc, wp_bind, wp_get, wp_set, wp_pure]
    have hslice : ∀ front : LeafNode K V, front.keys = l.keys → front.values = l.values →
        front.numKeys = (M + 1) / 2 → l.rows.Slice 0 front.rows := by
      intro front hk hv hn
      refine ⟨?_, fun i _ => ?_, fun i _ => ?_⟩
      · show 0 + front.numKeys ≤ l.numKeys
        omega
      · show front.keys i = l.keys (0 + i)
        rw [hk, Nat.zero_add]
      · show front.values i = l.values (0 + i)
        rw [hv, Nat.zero_add]
    have hback : l.rows.Slice ((M + 1) / 2)
        ⟨l.numKeys - (M + 1) / 2,
          blit (raw.keys t.fresh) 0 l.keys ((M + 1) / 2) (l.numKeys - (M + 1) / 2),
          blit (raw.values t.fresh) 0 l.values ((M + 1) / 2) (l.numKeys - (M + 1) / 2)⟩ := by
      refine ⟨?_, fun i hi => blit_zero_of_lt hi, fun i hi => blit_zero_of_lt hi⟩
      show (M + 1) / 2 + (l.numKeys - (M + 1) / 2) ≤ l.numKeys
      omega
    have hdiv := hM.imp_right fun h => And.intro h.1 (h.2 hmiss)
    by_cases hlt : lookupPositionInLeafNode l key < (M + 1) / 2
    · have hpos : lookupPositionInLeafNode l key < M ∧
          lookupPositionInLeafNode l key ≤ (M + 1) / 2 ∧ (M + 1) / 2 < M := by omega
      simp only [if_pos hlt, insertInLeafNodeAtPosition, if_pos hpos, orThrow, wp_pure, setLeaf,
        wp_modify]
      refine hfull hmiss hnum _ _ _ ?_ rfl
      refine ⟨⟨_, _, hslice { l with numKeys := (M + 1) / 2 } rfl rfl rfl, rfl, hback, ?_, ?_⟩,
        rfl, rfl, rfl, rfl⟩
      · show l.numKeys - (M + 1) / 2 = M - (M + 1) / 2
        omega
      · rw [if_pos hlt]
        exact ⟨rfl, rfl⟩
    · have hpos : lookupPositionInLeafNode l key - (M + 1) / 2 < M ∧
          lookupPositionInLeafNode l key - (M + 1) / 2 ≤ l.numKeys - (M + 1) / 2 ∧
          l.numKeys - (M + 1) / 2 < M := by omega
      simp only [if_neg hlt, insertInLeafNodeAtPosition, if_pos hpos, orThrow, wp_pure, setLeaf,
        wp_modify]
      refine hfull hmiss hnum _ _ _ ?_ rfl
      refine ⟨⟨_, _, hslice { l with numKeys := (M + 1) / 2 } rfl rfl rfl, rfl, hback, ?_, ?_⟩,
        rfl, rfl, rfl, rfl⟩
      · show l.numKeys - (M + 1) / 2 = M - (M + 1) / 2
        omega
      · rw [if_neg hlt]
        exact ⟨rfl, rfl⟩
  · have hpos : lookupPositionInLeafNode l key < M ∧
        lookupPositionInLeafNode l key ≤ l.numKeys ∧ l.numKeys < M := by omega
    simp only [insertInLeafNodeAtPosition, if_pos hpos, orThrow, wp_pure, setLeaf,
      wp_bind, wp_modify]
    exact hroom hmiss (by omega) _ rfl rfl rfl

/-! ## The two halves -/

section

variable {left right : LeafNode K V} {q : Nat} {s : K}

/-- The first key of the right half divides the old entries at the middle,
and the new one goes to its side. -/
theorem Halves.divides (hM : Divisible M l key) (hsorted : l.rows.Sorted) (hnum : l.numKeys = M)
    (hmiss : ¬Hit l key) (hh : Halves M l key val p q left right) (hs : right.keys 0 = s) :
    (∀ i, i < l.numKeys → (l.keys i < s ↔ i < (M + 1) / 2)) ∧
      (key < s ↔ lookupPositionInLeafNode l key < (M + 1) / 2) := by
  have hf := found_lookup l key
  have hdiv := hM.imp_right fun h => And.intro h.1 (h.2 hmiss)
  have hcut : (M + 1) / 2 < l.numKeys →
      ∀ i, i < l.numKeys → (l.keys i < l.keys ((M + 1) / 2) ↔ i < (M + 1) / 2) := by
    intro hmid i hi
    constructor
    · intro hlt
      by_contra hge
      exact absurd (hsorted.le (Nat.not_lt.mp hge) hi) (not_le_of_gt hlt)
    · exact fun hlt => hsorted i _ hlt hmid
  obtain ⟨front, back, -, -, hback, hbn, hif⟩ := hh.parts
  have hfirst : (M + 1) / 2 < l.numKeys → back.keys 0 = l.keys ((M + 1) / 2) :=
    fun hmid => hback.keys 0 (by omega)
  split at hif
  · next hlt =>
      have hmid : (M + 1) / 2 < l.numKeys := by omega
      have hrk : right.keys 0 = back.keys 0 := congrArg (fun r : Rows K V => r.keys 0) hif.2
      rw [hrk, hfirst hmid] at hs
      rw [← hs]
      exact ⟨hcut hmid, iff_of_true (hf.lt hsorted hmiss (Nat.le_of_lt hlt) hmid) hlt⟩
  · next hge =>
      have hrk : right.keys 0 = insertAt back.keys back.num
          (lookupPositionInLeafNode l key - (M + 1) / 2) key 0 :=
        congrArg (fun r : Rows K V => r.keys 0) hif.2
      rw [hs] at hrk
      rcases Nat.lt_or_eq_of_le (Nat.not_lt.mp hge) with hlt | heq
      · have hle : lookupPositionInLeafNode l key ≤ l.numKeys := hf.le
        have hmid : (M + 1) / 2 < l.numKeys := by omega
        rw [insertAt_lt (by omega), hfirst hmid] at hrk
        rw [hrk]
        exact ⟨hcut hmid, iff_of_false (not_lt.mpr (le_of_lt (hf.below _ hlt))) hge⟩
      · rw [← heq, Nat.sub_self, insertAt_self] at hrk
        rw [hrk]
        refine ⟨fun i hi => ?_, iff_of_false (lt_irrefl key) hge⟩
        rw [heq]
        constructor
        · intro hlt
          by_contra hge'
          exact lt_asymm hlt (hf.lt hsorted hmiss (Nat.not_lt.mp hge') hi)
        · exact fun hlt => hf.below i hlt

/-- The halves have the entries of the leaf and the new one. -/
theorem Halves.has (hM : Divisible M l key) (hsorted : l.rows.Sorted) (hnum : l.numKeys = M)
    (hmiss : ¬Hit l key) (hh : Halves M l key val p q left right) (hs : right.keys 0 = s) :
    (left.rows.Sorted ∧ max 1 (M / 2) ≤ left.numKeys ∧ left.numKeys ≤ M ∧
      ∀ k v, left.rows.Has k v ↔ k < s ∧ if k = key then v = val else l.rows.Has k v) ∧
    (right.rows.Sorted ∧ max 1 (M / 2) ≤ right.numKeys ∧ right.numKeys ≤ M ∧
      ∀ k v, right.rows.Has k v ↔ s ≤ k ∧ if k = key then v = val else l.rows.Has k v) := by
  obtain ⟨hpart, hkey⟩ := hh.divides hM hsorted hnum hmiss hs
  have hdiv := hM.imp_right fun h => And.intro h.1 (h.2 hmiss)
  have hf := found_lookup l key
  have hle : lookupPositionInLeafNode l key ≤ l.numKeys := hf.le
  have hnew : ∀ k v, (if k = key then v = val else l.rows.Has k v) ↔
      (key = k ∧ val = v) ∨ l.rows.Has k v := by
    intro k v
    split
    · next heq =>
        subst heq
        have := hf.miss (v := v) hsorted hmiss
        simp [this, eq_comm]
    · next hne => simp [Ne.symm hne]
  simp only [hnew]
  obtain ⟨front, back, hfront, hfn, hback, hbn, hif⟩ := hh.parts
  have hfrontHas : ∀ k v, front.Has k v ↔ l.rows.Has k v ∧ k < s := fun k v =>
    hfront.has_front (by rw [hfn]; exact hpart)
  have hbackHas : ∀ k v, back.Has k v ↔ l.rows.Has k v ∧ s ≤ k := fun k v =>
    hback.has_back (by rw [hbn]; show (M + 1) / 2 + (M - (M + 1) / 2) = l.numKeys; omega) hpart
  split at hif
  · next hlt =>
      obtain ⟨hl, hr⟩ := hif
      have hfound := hf.slice hfront (Nat.zero_le _) (by omega)
      rw [Nat.sub_zero] at hfound
      have hkeyat : front.keys (lookupPositionInLeafNode l key) =
          l.keys (lookupPositionInLeafNode l key) := by
        rw [hfront.keys _ (by omega), Nat.zero_add]
        rfl
      have hln : left.numKeys = front.num + 1 := congrArg Rows.num hl
      have hrn : right.numKeys = back.num := congrArg Rows.num hr
      refine ⟨⟨?_, by omega, by omega, fun k v => ?_⟩, ?_, by omega, by omega, fun k v => ?_⟩
      · rw [hl]
        refine Rows.sorted_insert (hfront.sorted hsorted) hfound fun hhit => hmiss ⟨by omega, ?_⟩
        rw [← hkeyat]
        exact hhit.2
      · rw [hl, Rows.has_insert (by omega), hfrontHas]
        have := hkey.mpr hlt
        grind
      · rw [hr]
        exact hback.sorted hsorted
      · rw [hr, hbackHas]
        have := hkey.mpr hlt
        grind
  · next hge =>
      obtain ⟨hl, hr⟩ := hif
      have hfound := hf.slice hback (Nat.not_lt.mp hge) (by omega)
      have hln : left.numKeys = front.num := congrArg Rows.num hl
      have hrn : right.numKeys = back.num + 1 := congrArg Rows.num hr
      have hkeyge : s ≤ key := not_lt.mp fun hlt => hge (hkey.mp hlt)
      refine ⟨⟨?_, by omega, by omega, fun k v => ?_⟩, ?_, by omega, by omega, fun k v => ?_⟩
      · rw [hl]
        exact hfront.sorted hsorted
      · rw [hl, hfrontHas]
        grind
      · rw [hr]
        refine Rows.sorted_insert (hback.sorted hsorted) hfound fun hhit => hmiss ⟨by omega, ?_⟩
        have hat := hback.keys _ hhit.1
        rw [hhit.2, Nat.add_sub_cancel' (Nat.not_lt.mp hge)] at hat
        exact hat.symm
      · rw [hr, Rows.has_insert (by omega), hbackHas]
        grind

end

/-! ## Every leaf -/

/-- Every leaf that the key can go to can be divided. -/
def KeyFits (M : Nat) (f : K → Option V) (key : K) : Prop :=
  2 ≤ M ∨ 0 < M ∧ ∀ k v, f k = some v → k ≤ key

theorem KeyFits.divisible (h : KeyFits M f key) (hl : LeafOk M lo f R l) : Divisible M l key := by
  refine h.imp_right fun ⟨hM, hmax⟩ => ⟨hM, fun hmiss => ?_⟩
  have hf := found_lookup l key
  by_contra hne
  have hlt : lookupPositionInLeafNode l key < l.numKeys := lt_of_le_of_ne hf.le hne
  have hstored : l.keys (lookupPositionInLeafNode l key) ≤ key :=
    hmax _ _ ((hl.reads _ _ (hl.inRange _ hlt)).mpr ⟨_, hlt, rfl, rfl⟩)
  exact hmiss ⟨hlt, le_antisymm hstored (hf.above hlt)⟩

theorem insertInLeafNode_ok (hM : KeyFits M f key) {m : Nat} (hm : m ≤ max 1 (M / 2))
    (ht : Unused t.leaves t.fresh) (hl : LeafAt M lo f t.leaves R p) (hkey : R key) :
    wp (insertInLeafNode M raw key val p)
      (fun split t' => (Unused t'.leaves t'.fresh ∧ t'.depth = t.depth ∧
          Untouched t.leaves t'.leaves p) ∧
        match split with
        | none => LeafAt M lo (Function.update f key (some val)) t'.leaves R p
        | some s => Inserted (LeafAt M m (Function.update f key (some val)) t'.leaves)
            R (p, some s))
      (fun _ _ => False) t := by
  obtain ⟨l, hp, hl⟩ := hl
  have hpq := ht.ne hp
  have hone : ∀ l', Unused (Function.update t.leaves p (some l')) t.fresh ∧ t.depth = t.depth ∧
      Untouched t.leaves (Function.update t.leaves p (some l')) p :=
    fun l' => ⟨ht.update hp l', rfl, untouched_update _ _ l'⟩
  have hdiv := hM.divisible hl
  refine insertInLeafNode_wp hdiv hp hl.max (fun hhit => ?_) (fun hmiss hroom l' hrows _ _ => ?_)
    fun hmiss hfull left right s hh hs => ?_
  · refine ⟨hone _, _, Function.update_self .., hl.of_has hl.min hl.max hl.sorted
      (fun _ hk => hk) ?_⟩
    intro k v
    have hset := Rows.has_setValue (k := k) (v := v) hl.sorted hhit val
    rw [show (LeafNode.rows { l with
      values := Function.update l.values (lookupPositionInLeafNode l key) val }).Has k
      v ↔ _ from hset]
    constructor
    · intro hhas
      refine ⟨?_, hhas⟩
      split at hhas
      · next heq => rw [heq]; exact hkey
      · exact has_inRange hl hhas
    · exact fun hhas => hhas.2
  · have hf := found_lookup l key
    have hnum : l'.numKeys = l.numKeys + 1 := congrArg Rows.num hrows
    refine ⟨hone _, _, Function.update_self .., hl.of_has
      (by rw [hnum]; exact Nat.le_succ_of_le hl.min)
      (by omega) ?_ (fun _ hk => hk) ?_⟩
    · rw [hrows]
      exact Rows.sorted_insert hl.sorted hf hmiss
    · intro k v
      rw [hrows, Rows.has_insert hf.le]
      constructor
      · rintro (⟨rfl, rfl⟩ | hhas)
        · exact ⟨hkey, by simp⟩
        · refine ⟨has_inRange hl hhas, ?_⟩
          rw [if_neg]
          · exact hhas
          · rintro rfl
            exact hf.miss hl.sorted hmiss hhas
      · rintro ⟨-, hhas⟩
        split at hhas
        · next heq => exact .inl ⟨heq.symm, hhas.symm⟩
        · exact .inr hhas
  · obtain ⟨⟨hls, hlmin, hlmax, hlhas⟩, hrs, hrmin, hrmax, hrhas⟩ :=
      hh.has hdiv hl.sorted hfull hmiss hs
    have hleft : Function.update (Function.update t.leaves p (some left)) t.fresh (some right) p =
        some left := by
      rw [Function.update_of_ne hpq, Function.update_self]
    have hentry : ∀ k v, (if k = key then v = val else l.rows.Has k v) → R k := by
      intro k v hhas
      split at hhas
      · next heq => rw [heq]; exact hkey
      · exact has_inRange hl hhas
    have hsR : R s := by
      have hhas : right.rows.Has s (right.values 0) :=
        ⟨0, by show 0 < right.numKeys; omega, hs, rfl⟩
      exact hentry _ _ ((hrhas _ _).mp hhas).2
    have hlow : ∃ k, R k ∧ k < s := by
      have hhas : left.rows.Has (left.keys 0) (left.values 0) :=
        ⟨0, by show 0 < left.numKeys; omega, rfl, rfl⟩
      obtain ⟨hlt, hnew⟩ := (hlhas _ _).mp hhas
      exact ⟨_, hentry _ _ hnew, hlt⟩
    refine ⟨⟨(ht.update hp left).alloc right, rfl, (untouched_update _ _ left).alloc ht right⟩, hsR,
      hlow, ⟨left, hleft, ?_⟩, right, Function.update_self .., ?_⟩
    · refine hl.of_has (Nat.le_trans hm hlmin) hlmax hls (fun _ hk => hk.1) fun k v => ?_
      rw [hlhas]
      exact ⟨fun hhas => ⟨⟨hentry k v hhas.2, hhas.1⟩, hhas.2⟩, fun hhas => ⟨hhas.1.2, hhas.2⟩⟩
    · refine hl.of_has (Nat.le_trans hm hrmin) hrmax hrs (fun _ hk => hk.1) fun k v => ?_
      rw [hrhas]
      exact ⟨fun hhas => ⟨⟨hentry k v hhas.2, hhas.1⟩, hhas.2⟩, fun hhas => ⟨hhas.1.2, hhas.2⟩⟩

/-- A leaf with a key keeps out of the way of other leaves: it cannot be one
whose keys are elsewhere. -/
theorem kept_of_untouched (hlo : 0 < lo) (hl : LeafAt M lo f h R p) (hkey : R key)
    (hun : Untouched h h' p) :
    Kept (LeafAt M lo f h) (LeafAt M lo (Function.update f key (some val)) h') R := by
  rintro R' p' hdis ⟨l', hp', hl'⟩
  have hne : p' ≠ p := by
    rintro rfl
    obtain ⟨l, hp, hl⟩ := hl
    obtain rfl : l = l' := Option.some.inj (hp.symm.trans hp')
    have hpos : 0 < l.numKeys := Nat.lt_of_lt_of_le hlo hl.min
    exact hdis _ (hl'.inRange 0 hpos) (hl.inRange 0 hpos)
  exact ⟨l', hun p' l' hne hp', hl'.other fun hk => hdis key hk hkey⟩

theorem leafInserts (hM : KeyFits M f key) (hlo : 0 < lo) (hle : lo ≤ max 1 (M / 2)) :
    LeafInserts Unused (LeafAt M lo f) (LeafAt M lo (Function.update f key (some val))) key
      (insertInLeafNode M raw key val) where
  alloc := fun hq p hp => hq p (Nat.le_of_succ_le hp)
  step := by
    intro t p R ht hl hkey
    refine wp_mono (insertInLeafNode_ok hM hle ht hl hkey) ?_ fun _ _ h => h
    rintro split t' ⟨⟨hun, hdepth, huntouched⟩, hins⟩
    refine ⟨hun, hdepth, kept_of_untouched hlo hl hkey huntouched, ?_⟩
    cases split with
    | none => exact hins
    | some s => exact hins

/-! ## The whole tree -/

/-- The tree stands for the map `f`. -/
structure Represents (N M : Nat) (f : K → Option V) (t : ImTree K V) : Prop where
  unused : Unused t.leaves t.fresh
  wf : WellFormed N (LeafAt M 0 f) (LeafAt M (M / 2) f) t

theorem insert_wellFormed (hN : 2 < N) (raw : Raw K V) (hM : KeyFits M f key) (hlo : 0 < lo)
    (hle : lo ≤ max 1 (M / 2)) (ht : Unused t.leaves t.fresh)
    (h : WellFormed N (LeafAt M 0 f) (LeafAt M lo f) t) (val : V) :
    wp (insert N M raw key val)
      (fun _ t' => Unused t'.leaves t'.fresh ∧
        WellFormed N (LeafAt M 0 (Function.update f key (some val)))
          (LeafAt M lo (Function.update f key (some val))) t')
      (fun _ _ => False) t := by
  refine insertWith_wp hN (fun b k hs => routes_lookup b k hs) (leafInserts hM hlo hle) ?_ ht h
  intro t p ht hl
  refine wp_mono (insertInLeafNode_ok hM hle ht hl trivial) ?_ fun _ _ h => h
  rintro split t' ⟨⟨hun, hdepth, -⟩, hins⟩
  exact ⟨hun, hdepth, hins⟩

theorem insert_wp (hN : 2 < N) (hM : 2 ≤ M) (raw : Raw K V) (h : Represents N M f t)
    (key : K) (val : V) :
    wp (insert N M raw key val)
      (fun _ t' => Represents N M (Function.update f key (some val)) t') (fun _ _ => False) t := by
  refine wp_mono (insert_wellFormed hN raw (.inl hM) (by omega) (by omega) h.unused h.wf val)
    (fun _ _ ht' => ⟨ht'.1, ht'.2⟩) fun _ _ h => h

theorem represents_new (raw : Raw K V) : Represents N M (fun _ => none) (new raw) where
  unused := Unused.alloc (fun _ _ => rfl) (newLeafNode raw 0)
  wf := by
    refine ⟨newLeafNode raw 0, by simp [new], Nat.le_refl 0, Nat.zero_le M, ?_, ?_, ?_⟩
    · intro i j _ hj
      exact absurd hj (Nat.not_lt_zero j)
    · intro i hi
      exact absurd hi (Nat.not_lt_zero i)
    · intro k v _
      constructor
      · intro hf
        cases hf
      · rintro ⟨i, hi, -⟩
        exact absurd hi (Nat.not_lt_zero i)

/-- A leaf gives the value of the map. -/
theorem leaf_lookup (hl : LeafOk M lo f R l) {k : K} (hk : R k) :
    (if lookupPositionInLeafNode l k < l.numKeys ∧ l.keys (lookupPositionInLeafNode l k) = k then
      some (l.values (lookupPositionInLeafNode l k)) else none) = f k := by
  split
  · next hhit => exact ((hl.reads k _ hk).mpr ((hl.sorted.has_at hhit).mpr rfl)).symm
  · next hmiss =>
      cases hf : f k with
      | none => rfl
      | some v => exact absurd ((hl.reads k v hk).mp hf) ((found_lookup l k).miss hl.sorted hmiss)

theorem LeafAt.mono {lo' : Nat} (hlo : lo' ≤ lo) (hl : LeafAt M lo f h R p) :
    LeafAt M lo' f h R p := by
  obtain ⟨l, hp, hl⟩ := hl
  exact ⟨l, hp, Nat.le_trans hlo hl.min, hl.max, hl.sorted, hl.inRange, hl.reads⟩

theorem Represents.tree (h : Represents N M f t) :
    Tree (LeafAt M 0 f t.leaves) (· ≤ N) t.depth (fun _ => True) t.rootNode :=
  h.wf.tree (fun _ _ hl => hl) fun _ _ hl => hl.mono (Nat.zero_le _)

theorem lookup_eq (h : Represents N M f t) (k : K) : lookup t k = .ok (f k) := by
  obtain ⟨p, R', hfound, hk, l, hp, hl⟩ :=
    findLeafNode_ok (fun b k hs => routes_lookup b k hs) k h.tree trivial
  simp only [lookup, hfound, hp, bind, Except.bind]
  rw [leaf_lookup hl hk]
  rfl

/-! ## What the tree looks like -/

/-- All leaves are at depth `d`, with their keys in order; no node has too
many keys, and a separator is greater than the keys to its left and not
greater than those to its right. -/
def Shape (N M : Nat) (h : Nat → Option (LeafNode K V)) (d : Nat) (n : Node K) : Prop :=
  BPTree.Shape N (fun l : LeafNode K V => l.numKeys ≤ M ∧ l.rows.Sorted)
    (fun l k => ∃ i, i < l.numKeys ∧ l.keys i = k) h d n

theorem Represents.shape (h : Represents N M f t) : Shape N M t.leaves t.depth t.rootNode :=
  (shape_of_tree (fun _ hs => hs) (fun _ _ ⟨l, hp, hl⟩ => ⟨l, hp, ⟨hl.max, hl.sorted⟩,
    fun _ ⟨i, hi, hk⟩ => hk ▸ hl.inRange i hi⟩) h.tree).1

/-- A sequence of calls of `insert`. -/
def insertAll (N M : Nat) (raw : Raw K V) (kvs : List (K × V)) : BPTree.M K (LeafNode K V) PUnit :=
  kvs.forM fun kv => insert N M raw kv.1 kv.2

theorem insertAll_wp (hN : 2 < N) (hM : 2 ≤ M) (h : Represents N M f t) (kvs : List (K × V)) :
    wp (insertAll N M raw kvs) (fun _ t' => ∃ f', Represents N M f' t') (fun _ _ => False) t := by
  refine wp_forM (P := fun _ t' => ∃ f', Represents N M f' t') (fun kv _ t' ht' => ?_) kvs t ⟨f, h⟩
  obtain ⟨f', h'⟩ := ht'
  exact wp_mono (insert_wp hN hM raw h' kv.1 kv.2) (fun _ _ h'' => ⟨_, h''⟩) fun _ _ h => h

end ImTree

/-- After any sequence of `insert` the tree is well formed, and another
`insert` changes what `lookup` returns for its key and for no other. -/
theorem insert_refines_update {K V : Type} [LinearOrder K] (N M : Nat) (hN : 2 < N) (hM : 2 ≤ M)
    (raw : Raw K V) (kvs : List (K × V)) (key : K) (val : V) :
    ∃ t t', ImTree.insertAll N M raw kvs (ImTree.new raw) = .ok ⟨⟩ t ∧
      ImTree.insert N M raw key val t = .ok ⟨⟩ t' ∧
      ImTree.Shape N M t.leaves t.depth t.rootNode ∧
      ImTree.Shape N M t'.leaves t'.depth t'.rootNode ∧
      ImTree.lookup t' key = .ok (some val) ∧
      ∀ k, k ≠ key → ∃ r, ImTree.lookup t k = .ok r ∧ ImTree.lookup t' k = .ok r := by
  obtain ⟨_, t, ht, f, h⟩ := wp_exists (ImTree.insertAll_wp hN hM (ImTree.represents_new raw) kvs)
  obtain ⟨_, t', ht', h'⟩ := wp_exists (ImTree.insert_wp hN hM raw h key val)
  refine ⟨t, t', ht, ht', h.shape, h'.shape, ?_, fun k hk => ⟨f k, ImTree.lookup_eq h k, ?_⟩⟩
  · rw [ImTree.lookup_eq h', Function.update_self]
  · rw [ImTree.lookup_eq h', Function.update_of_ne hk]

/-- With the smallest orders, a few keys make two levels. -/
theorem insert_refines_update_small_orders :
    ∃ t t', ImTree.insertAll 3 2 ⟨fun _ _ => 7, fun _ _ => 7⟩ [(5, 50), (3, 30), (8, 80), (1, 10)]
        (ImTree.new ⟨fun _ _ => 7, fun _ _ => 7⟩) = .ok ⟨⟩ t ∧
      ImTree.insert 3 2 ⟨fun _ _ => 7, fun _ _ => 7⟩ 9 90 t = .ok ⟨⟩ t' ∧
      ImTree.Shape 3 2 t.leaves t.depth t.rootNode ∧
      ImTree.Shape 3 2 t'.leaves t'.depth t'.rootNode ∧
      ImTree.lookup t' 9 = .ok (some 90) ∧
      ∀ k, k ≠ 9 → ∃ r, ImTree.lookup t k = .ok r ∧ ImTree.lookup t' k = .ok r :=
  insert_refines_update 3 2 (by decide) (by decide) _ _ 9 90

end Poseidon
