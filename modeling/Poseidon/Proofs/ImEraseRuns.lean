import Poseidon.Proofs.ImErase

/-!
# Runs of insert and erase

A node tells its parent how many keys it has left, and the parent sees to it
when they are too few; `Returns` says what comes back. By induction over the
depth a call of `erase` that has what it needs takes its key out of the map
that the tree stands for, and by induction over the calls so does a whole
run.
-/

namespace Poseidon

open BTree Wp

namespace ImTree

open BPTree

variable {K V : Type} [LinearOrder K] {N M d pos : Nat} {f : K → Option V} {key : K}
  {R : K → Prop} {h : Nat → Option (LeafNode K V)} {l : LeafNode K V} {p : Nat}
  {t : ImTree K V} {b : Branch (Node K) K}

/-! ## The way down and up -/

/-- Erasing below a branch over children at depth `d`. -/
def ErasesAt (V : Type) (N M : Nat) (key : K) (d : Nat) : Prop :=
  ∀ {f : K → Option V} {t : ImTree K V} {R : K → Prop} {b : Branch (Node K) K},
    b.Holds (Subtree N M f t.leaves d) R → 1 ≤ b.numKeys → b.numKeys ≤ N → d + 1 ≤ t.depth →
    R key → Fits N M t.leaves key (t.depth = 1) (d + 1) (.branch b) →
    wp (eraseFromBranchNode N M lookupPositionInBranchNode (eraseFromLeafNode M key) leafKeys
        (underflowAtLeafLevel N M) key d b)
      (fun r t' => r.deleted = (f key).isSome ∧ t'.fresh = t.fresh ∧ Spares t.leaves t'.leaves R ∧
        Returns N M d (Function.update f key none) R
          (keysLeftAt N M t.leaves key (d + 1) (.branch b)) t.depth r.node r.root t')
      (fun _ _ => False) t

omit [LinearOrder K] in
theorem Alive.update {q : Option Nat} (ha : Alive h q) (p : Nat) (l : LeafNode K V) :
    Alive (Function.update h p (some l)) q := by
  cases q with
  | none => rfl
  | some x =>
      by_cases hx : x = p
      · simp [Alive, hx]
      · simpa [Alive, Function.update_of_ne hx] using ha

/-- The parent of the leaf. -/
theorem eraseAtLeaves_wp (hM : 2 ≤ M) : ErasesAt V N M key 0 := by
  intro f t R b hb hone hle hdepth hkey hfits
  obtain ⟨pos, hpos⟩ : ∃ pos, pos = lookupPositionInBranchNode b key := ⟨_, rfl⟩
  have hroute := hpos ▸ routes_lookup b key hb.sorted
  obtain ⟨p, l, hp, hl, hmin, hmax, hrows⟩ := leaf_child hb hroute.1
  obtain ⟨l₀, hl₀, herase, hunder⟩ := hfits
  obtain rfl : l = l₀ := by
    rw [← hpos, hp, leafOf, Option.bind_some, hl] at hl₀
    exact Option.some.inj hl₀
  rw [← hpos] at hunder
  have hsize : keysLeftAt N M t.leaves key 1 (.branch b) =
      if Merges ((M + 1) / 2) (leafNum t.leaves) b pos (keysLeft l key) then b.numKeys - 1
      else b.numKeys := by
    rw [keysLeftAt, ← hpos, hp, keysLeftAt, leafOf, Option.bind_some, hl]
    rfl
  rw [eraseFromBranchNode, ← hpos, hsize]
  simp only [hp, wp_bind]
  refine wp_mono (eraseFromLeafNode_wp hl hrows hmax ⟨hkey, hroute⟩ herase) ?_ fun _ _ h => h
  rintro deleted _ ⟨hdel, l', rfl, hnum, hprev, hnext, hrows', hfirst⟩
  have hleft : keysLeft l key ≤ l.numKeys ∧ l.numKeys ≤ keysLeft l key + 1 := by
    rw [keysLeft]
    split <;> omega
  simp only [leafKeys, getLeaf, wp_bind, wp_get, Function.update_self, wp_pure]
  have hlone : 1 ≤ l.numKeys := by omega
  refine wp_ite (fun hlt => ?_) fun hge => ?_
  · rw [hnum] at hlt
    obtain ⟨hlinks, hspare, hmerge⟩ := hunder hlt
    have ha : AtLeaf N M f key R t.leaves b pos p l l'
        { t with leaves := Function.update t.leaves p (some l') } :=
      ⟨hb, hone, hle, ⟨hkey, hroute⟩, hp, hl, ⟨hlone, by omega⟩, hrows, hrows',
        (hfirst hlone).2, rfl⟩
    rw [wp_bind]
    refine wp_mono (underflowAtLeafLevel_wp ha hM (hnum ▸ hlt) ?_ hspare ?_) ?_ fun _ _ h => h
    · exact ⟨fun h0 => hprev.trans (hlinks.1 h0), fun h1 => hnext.trans (hlinks.2 h1)⟩
    · intro hm
      rw [hnum] at hm
      rw [hnext]
      exact ⟨(hmerge hm).1, (hmerge hm).2.update p l'⟩
    · rintro ⟨node, root⟩ t' ⟨hf, hs, hret⟩
      rw [hnum] at hret
      exact ⟨hdel, hf, hs, hret⟩
  · rw [hnum] at hge
    have hs : Spares t.leaves (Function.update t.leaves p (some l'))
        fun k => R k ∧ b.Routes k pos :=
      spares_of hl ⟨0, hlone, hrows.inRange 0 hlone⟩ hl ⟨0, hlone, hrows.inRange 0 hlone⟩
        fun y hy _ => by rw [rowsAt, Function.update_of_ne hy, ← rowsAt]
    have hoff : b.HoldsOn (Subtree N M (Function.update f key none) _ 0) R _ :=
      hb.off fun R' c hR' hc => (hs.kept (update_off ⟨hkey, hroute⟩)).tree
        (fun k hk hin => (hR' k hk).2 hin.2) hc
    have hleaf : LeafAt M (M / 2) (Function.update f key none)
        (Function.update t.leaves p (some l')) (fun k => R k ∧ b.Routes k pos) p := by
      refine leafAt_iff.mpr ⟨_, ?_, ⟨show M / 2 ≤ l'.numKeys by omega, ?_⟩, hrows'⟩
      · rw [rowsAt, Function.update_self]
        rfl
      · show l'.numKeys ≤ M
        omega
    have hholds := hoff.fill (c := Node.leaf p) (fun i hi => ⟨trivial, hi⟩) hleaf
    rw [Branch.setChild, ← hp, Function.update_eq_self] at hholds
    rw [if_neg fun hm => hge hm.1]
    exact ⟨hdel, rfl, hs.mono fun _ hk => hk.1, rfl, rfl, hholds.inRange 0 hone, fun _ => hone,
      hholds⟩

theorem keysLeftAt_bounds (N M : Nat) (h : Nat → Option (LeafNode K V)) (key : K) (d : Nat)
    (b : Branch (Node K) K) : b.numKeys ≤ keysLeftAt N M h key (d + 1) (.branch b) + 1 ∧
      keysLeftAt N M h key (d + 1) (.branch b) ≤ b.numKeys := by
  rw [keysLeftAt]
  split <;> omega

theorem leafAt_nonempty (hM : 2 ≤ M) (hl : LeafAt M (M / 2) f h R p) : ∃ k, R k := by
  obtain ⟨l, -, hl⟩ := hl
  have hmin := hl.min
  exact ⟨_, hl.inRange 0 (by omega)⟩

/-- The only child of a branch without keys is the new root. -/
theorem relieved_root {c : Branch (Node K) K} {size : Nat} (hN : 2 < N)
    (h : Relieved N d (LeafAt M (M / 2) f t.leaves) R size b c) (h0 : b.numKeys = 0) :
    RootAt N M f t.leaves (d + 1) R (.branch c) := by
  have hchild := h.holds.child 0 (Nat.zero_le _) trivial
  rw [h.only h0] at hchild
  obtain ⟨hsize, hc⟩ := hchild
  have hmin := hsize.1
  have hall : ∀ k, b.Routes k 0 := fun k =>
    ⟨Nat.zero_le _, fun j hj => absurd hj (Nat.not_lt_zero j), fun j _ hj => by omega⟩
  refine ⟨⟨by omega, hsize.2⟩, ?_⟩
  exact Branch.congr_range (T := fun R c => Branch.Holds _ R c)
    (fun k => and_iff_left (hall k)) hc

/-- The branch over a child that has too few keys. -/
theorem relieved_ok {c : Branch (Node K) K} {size : Nat} (hN : 2 < N) (hM : 2 ≤ M)
    (hset : (b.setChild pos (.branch c)).HoldsOn (Subtree N M f t.leaves (d + 1)) R (· ≠ pos))
    (hpos : pos ≤ b.numKeys) (hone : 1 ≤ b.numKeys)
    (hc : c.Holds (Subtree N M f t.leaves d) fun k => R k ∧ b.Routes k pos)
    (hfirst : b.Routes (c.keys 0) pos) (hnum : c.numKeys = size) (hmin : (N - 1) / 2 ≤ size + 1)
    (hlt : c.numKeys < (N + 1) / 2) (hfits : BranchUnderflowFits N h b pos size) :
    ∃ b' c', underflowAtBranchLevel N (b.setChild pos (.branch c)) pos c = .ok (b', c') ∧
      Relieved N d (LeafAt M (M / 2) f t.leaves) R
        (if Merges ((N + 1) / 2) (leafNum h) b pos size then b.numKeys - 1 else b.numKeys)
        b' c' := by
  have hmerges := @merges_setChild K ((N + 1) / 2) pos (.branch c) (leafNum h) size b
  have hchild : ∀ {j}, j ≠ pos → (b.setChild pos (.branch c)).children j = b.children j :=
    fun hj => Function.update_of_ne hj _ _
  obtain ⟨b', c', hrun, hrel⟩ := underflowAtBranchLevel_ok hN
    (fun _ _ hl => leafAt_nonempty hM hl) (leafNum h) hset hpos hone hc hfirst (by omega) hlt
    (fun hm => by
      rw [hnum] at hm ⊢
      have hfit := hfits (hmerges.mp hm)
      rw [hchild (Nat.succ_ne_self pos)]
      split
      · next h0 =>
          rw [if_pos h0] at hfit
          rwa [hchild (by omega)]
      · next h0 =>
          rwa [if_neg h0] at hfit)
  rw [hnum, if_congr hmerges rfl rfl] at hrel
  exact ⟨b', c', hrun, hrel⟩

/-- It returns itself, or its only child when it is the root and has no keys. -/
theorem relieved_wp {c : Branch (Node K) K} {size : Nat} (hN : 2 < N)
    (hrel : Relieved N d (LeafAt M (M / 2) f t.leaves) R size b c) (deleted : Bool) :
    wp (if d + 2 = t.depth ∧ b.numKeys = 0 then
          set { t with depth := t.depth - 1 } >>= fun _ => pure ⟨deleted, b, some (.branch c)⟩
        else pure ⟨deleted, b, none⟩ : BPTree.M K (LeafNode K V) (BPTree.Erased K))
      (fun r t' => r.deleted = deleted ∧ t'.fresh = t.fresh ∧ t'.leaves = t.leaves ∧
        Returns N M (d + 1) f R size t.depth r.node r.root t')
      (fun _ _ => False) t := by
  refine wp_ite (fun hroot => ?_) fun hno => ?_
  · simp only [wp_bind, wp_set, wp_pure]
    exact ⟨trivial, trivial, trivial, hroot.1.symm, by rw [← hroot.1]; rfl,
      relieved_root hN hrel hroot.2⟩
  · refine ⟨rfl, rfl, rfl, rfl, hrel.numKeys, hrel.first, fun hd => ?_, hrel.holds⟩
    exact Nat.pos_of_ne_zero fun h0 => hno ⟨hd.symm, hrel.numKeys.trans h0⟩

/-- A branch at any depth: the child on the way by induction, then the branch
itself. -/
theorem eraseFromBranchNode_wp (hN : 2 < N) (hM : 2 ≤ M) (d : Nat) : ErasesAt V N M key d := by
  induction d with
  | zero => exact eraseAtLeaves_wp hM
  | succ d ih =>
      intro f t R b hb hone hle hdepth hkey hfits
      obtain ⟨pos, hpos⟩ : ∃ pos, pos = lookupPositionInBranchNode b key := ⟨_, rfl⟩
      have hroute := hpos ▸ routes_lookup b key hb.sorted
      obtain ⟨c, hc, hcs, hch⟩ := branch_child hb hroute.1 trivial
      obtain ⟨hfit, hunder⟩ := hfits
      rw [← hpos, hc] at hfit hunder
      have hsize : keysLeftAt N M t.leaves key (d + 2) (.branch b) =
          if Merges ((N + 1) / 2) (leafNum t.leaves) b pos
              (keysLeftAt N M t.leaves key (d + 1) (.branch c)) then b.numKeys - 1
          else b.numKeys := by
        rw [keysLeftAt, ← hpos, hc]
        rfl
      obtain ⟨size, hsz⟩ : ∃ size, size = keysLeftAt N M t.leaves key (d + 1) (.branch c) :=
        ⟨_, rfl⟩
      have hbounds := keysLeftAt_bounds N M t.leaves key d c
      have hmin := hcs.1
      rw [eraseFromBranchNode, ← hpos, hsize]
      simp only [hc, wp_bind]
      refine wp_mono (ih hch (by omega) hcs.2 (by omega) ⟨hkey, hroute⟩ hfit) ?_ fun _ _ h => h
      rintro ⟨deleted, c', root⟩ t' ⟨hdel, hf, hs, hret⟩
      cases root with
      | some n =>
          -- the child is not the root
          have := hret.1
          omega
      | none =>
          obtain ⟨hd', hnum, hfirst, -, hch'⟩ := hret
          rw [← hsz] at hnum hunder hbounds ⊢
          -- the key does not go to the other children, so they keep what they have
          have hoff : b.HoldsOn (Subtree N M (Function.update f key none) t'.leaves (d + 1)) R
              fun i => True ∧ i ≠ pos :=
            hb.off fun R' n hR' hn => (hs.kept (update_off ⟨hkey, hroute⟩)).tree
              (fun k hk hin => (hR' k hk).2 hin.2) hn
          have hon := hoff.setChild (fun i hi => hi.2) (.branch c')
          have hset : (b.setChild pos (.branch c')).HoldsOn
              (Subtree N M (Function.update f key none) t'.leaves (d + 1)) R (· ≠ pos) :=
            ⟨hon.sorted, hon.inRange, fun i hi hne => hon.child i hi ⟨trivial, hne⟩⟩
          -- the separators are as before, so the search ends where it did
          have hagain : lookupPositionInBranchNode (b.setChild pos (.branch c')) key = pos :=
            (routes_lookup _ key hset.sorted).unique hroute
          simp only [hagain]
          refine wp_ite (fun hlt => ?_) fun hge => ?_
          · obtain ⟨b', c'', hrun, hrel⟩ := relieved_ok hN hM hset hroute.1 hone hch' hfirst.2 hnum
              (by omega) hlt hunder
            simp only [hrun, orThrow, wp_bind, wp_pure, wp_get]
            refine wp_mono (relieved_wp hN hrel deleted) ?_ fun _ _ h => h
            rintro ⟨_, node, root⟩ t1 ⟨rfl, hf1, hl1, hret⟩
            exact ⟨hdel, hf1.trans hf, by rw [hl1]; exact hs.mono fun _ hk => hk.1,
              by rw [← hd']; exact hret⟩
          · have hge' : ¬c'.numKeys < (N + 1) / 2 := hge
            have hle' : c'.numKeys ≤ N := (le_of_eq hnum).trans (hbounds.2.trans hcs.2)
            have hc' : Subtree N M (Function.update f key none) t'.leaves (d + 1)
                (fun k => R k ∧ b.Routes k pos) (.branch c') :=
              ⟨⟨by omega, hle'⟩, hch'⟩
            have hholds := hoff.fill (fun i hi => ⟨trivial, hi⟩) hc'
            rw [if_neg fun hm => hge' (hnum ▸ hm.1)]
            exact ⟨hdel, hf, hs.mono fun _ hk => hk.1, hd', rfl, hholds.inRange 0 hone,
              fun _ => hone, hholds⟩

/-! ## The whole tree -/

/-- Erasing takes the key out of the map. -/
theorem erase_wp (hN : 2 < N) (hM : 2 ≤ M) (ht : Represents N M f t) (hfit : EraseFits N M t key) :
    wp (erase N M key)
      (fun deleted t' => deleted = (f key).isSome ∧
        Represents N M (Function.update f key none) t')
      (fun _ _ => False) t := by
  have hwf := ht.wf
  rw [EraseFits] at hfit
  rw [WellFormed] at hwf
  split at hwf
  · next p hd hroot =>
      rw [hd, hroot] at hfit
      simp only [erase, eraseWith, wp_bind, wp_get, hd, hroot]
      obtain ⟨r, hr, hsize, hrows⟩ := leafAt_iff.mp hwf
      obtain ⟨l, hp, rfl⟩ := Option.map_eq_some_iff.mp hr
      obtain ⟨l₀, hl₀, herase⟩ := hfit
      obtain rfl : l = l₀ := Option.some.inj (hp.symm.trans hl₀)
      refine wp_mono (eraseFromLeafNode_wp hp hrows hsize.2 trivial herase) ?_ fun _ _ h => h
      rintro deleted _ ⟨hdel, l', rfl, hnum, -, -, hrows', -⟩
      refine ⟨hdel, ht.unused.update hp l', ?_⟩
      simp only [WellFormed, hd, hroot]
      refine leafAt_iff.mpr ⟨l'.rows, ?_, ⟨Nat.zero_le _, ?_⟩, hrows'⟩
      · rw [rowsAt, Function.update_self]
        rfl
      · have hle : l.numKeys ≤ M := hsize.2
        show l'.numKeys ≤ M
        rw [hnum, keysLeft]
        split <;> omega
  · next d b hd hroot =>
      obtain ⟨hsize, hb⟩ := hwf
      rw [hd, hroot] at hfit
      simp only [erase, eraseWith, wp_bind, wp_get, hd, hroot]
      refine wp_mono (eraseFromBranchNode_wp hN hM d hb hsize.1 hsize.2 (by omega) trivial
        (by rwa [hd])) ?_ fun _ _ h => h
      rintro ⟨deleted, node, root⟩ t' ⟨hdel, hf, hs, hret⟩
      simp only [wp_modify, wp_pure]
      refine ⟨hdel, hf ▸ hs.unused ht.unused, ?_⟩
      have hbounds := keysLeftAt_bounds N M t.leaves key d b
      cases root with
      | none =>
          obtain ⟨hd', hnum, -, hone, hholds⟩ := hret
          have hone' := hone hd
          simp only [WellFormed, hd', hd, Option.getD_none]
          rw [← hnum] at hbounds hone'
          exact ⟨⟨hone', hbounds.2.trans hsize.2⟩, hholds⟩
      | some n =>
          obtain ⟨-, hd', hroot'⟩ := hret
          simp only [WellFormed, hd', Option.getD_some]
          cases d with
          | zero =>
              cases n with
              | null => exact hroot'.elim
              | branch b => exact hroot'.elim
              | leaf p => exact hroot'
          | succ d =>
              cases n with
              | null => exact hroot'.elim
              | leaf p => exact hroot'.elim
              | branch b => exact hroot'
  · exact hwf.elim

/-- A call that changes the tree. -/
inductive Call (K V : Type) where
  | insert (key : K) (val : V)
  | erase (key : K)

/-- The tree after a call of `erase`. -/
def erased (N M : Nat) (t : ImTree K V) (key : K) : ImTree K V :=
  match erase N M key t with
  | .ok _ t' | .error _ t' => t'

section

variable (N M : Nat) (raw : Raw K V)

def call : Call K V → BPTree.M K (LeafNode K V) PUnit
  | .insert key val => insert N M raw key val
  | .erase key => do
      let _ ← erase N M key

/-- A sequence of calls. -/
def callAll (cs : List (Call K V)) : BPTree.M K (LeafNode K V) PUnit := cs.forM (call N M raw)

/-- The tree after a call. -/
def nextCall (t : ImTree K V) : Call K V → ImTree K V
  | .insert key val => next N M raw t (key, val)
  | .erase key => erased N M t key

/-- What a call of `erase` needs; a call of `insert` needs nothing. -/
def CallFits (t : ImTree K V) : Call K V → Prop
  | .insert _ _ => True
  | .erase key => EraseFits N M t key

instance decidableCallFits (t : ImTree K V) : ∀ c, Decidable (CallFits N M t c)
  | .insert _ _ => .isTrue trivial
  | .erase key => decidableEraseFits N M t key

end

/-- What a call does to the map that the tree stands for. -/
def Call.update (f : K → Option V) : Call K V → K → Option V
  | .insert key val => Function.update f key (some val)
  | .erase key => Function.update f key none

/-- The map that a sequence of calls makes of the empty one. -/
def contents (cs : List (Call K V)) : K → Option V := cs.foldl Call.update fun _ => none

/-- The tree has the entries of `f`, in the order of their keys, with all leaves
at one depth and neither too many nor too few keys in a node. -/
structure StandsFor (N M : Nat) (f : K → Option V) (t : ImTree K V) : Prop where
  represents : Represents N M f t
  shape : Shape N M t.leaves t.depth t.rootNode
  lookup : ∀ k, lookup t k = .ok (f k)

theorem Represents.standsFor (h : Represents N M f t) : StandsFor N M f t :=
  ⟨h, h.shape, lookup_eq h⟩

variable {raw : Raw K V} {c : Call K V}

theorem call_wp (raw : Raw K V) (hN : 2 < N) (hM : 2 ≤ M) (ht : Represents N M f t)
    (hfit : CallFits N M t c) :
    wp (call N M raw c) (fun _ t' => Represents N M (c.update f) t') (fun _ _ => False) t := by
  cases c with
  | insert key val => exact insert_wp hN hM raw ht key val
  | erase key =>
      simp only [call, wp_bind, wp_pure]
      exact wp_mono (erase_wp hN hM ht hfit) (fun _ _ h => h.2) fun _ _ h => h

theorem nextCall_of_ok {t' : ImTree K V} (h : call N M raw c t = .ok ⟨⟩ t') :
    nextCall N M raw t c = t' := by
  cases c with
  | insert key val =>
      have h' : insert N M raw key val t = .ok ⟨⟩ t' := h
      rw [nextCall, next, h']
  | erase key =>
      rw [nextCall, erased]
      simp only [call, bind, EStateM.bind] at h
      split at h
      · next heq =>
          cases h
          rw [heq]
      · cases h

/-- A run of calls that all have what they need. -/
theorem callAll_wp (hN : 2 < N) (hM : 2 ≤ M) (cs : List (Call K V)) :
    ∀ {f : K → Option V} {t : ImTree K V}, Represents N M f t →
      Along (nextCall N M raw) (CallFits N M) t cs →
      wp (callAll N M raw cs) (fun _ t' => Represents N M (cs.foldl Call.update f) t')
        (fun _ _ => False) t := by
  induction cs with
  | nil => exact fun h _ => h
  | cons c cs ih =>
      intro f t ht hrun
      obtain ⟨hfit, hrest⟩ := hrun
      obtain ⟨_, t1, hcall, h1⟩ := wp_exists (call_wp raw hN hM ht hfit)
      rw [nextCall_of_ok hcall] at hrest
      change wp (call N M raw c >>= fun _ => callAll N M raw cs) _ _ t
      rw [wp_bind]
      exact wp_of_ok hcall (ih h1 hrest)

end ImTree

/-- In every run whose calls of `erase` have what they need the tree stands for
the map that the calls make. Another call of `erase` that has what it needs
tells whether its key was there and takes it out of the map. -/
theorem erase_refines_remove {K V : Type} [LinearOrder K] (N M : Nat) (hN : 2 < N) (hM : 2 ≤ M)
    (raw : Raw K V) (cs : List (ImTree.Call K V))
    (hrun : Along (ImTree.nextCall N M raw) (ImTree.CallFits N M) (ImTree.new raw) cs) :
    ∃ t, ImTree.callAll N M raw cs (ImTree.new raw) = .ok ⟨⟩ t ∧
      ImTree.StandsFor N M (ImTree.contents cs) t ∧
      ∀ key, ImTree.EraseFits N M t key → ∃ t',
        ImTree.erase N M key t = .ok (ImTree.contents cs key).isSome t' ∧
        ImTree.StandsFor N M (Function.update (ImTree.contents cs) key none) t' := by
  obtain ⟨_, t, ht, h⟩ := wp_exists
    (ImTree.callAll_wp hN hM cs (ImTree.represents_new raw) hrun)
  refine ⟨t, ht, h.standsFor, fun key hfit => ?_⟩
  obtain ⟨deleted, t', hcall, rfl, h'⟩ := wp_exists (ImTree.erase_wp hN hM h hfit)
  exact ⟨t', hcall, h'.standsFor⟩

/-- All but the last two of some keys that come in ascending order are erased. -/
def ascendingCalls : List (ImTree.Call Nat Nat) :=
  (List.range 14).map (.insert · 7) ++ (List.range 12).map .erase

/-- A leaf gets keys from the right, leaves and branches are merged, and the root
is given up twice. -/
theorem erase_refines_remove_ascending :
    ∃ t, ImTree.callAll 4 4 ⟨fun _ _ => 99, fun _ _ => 99⟩ ascendingCalls
        (ImTree.new ⟨fun _ _ => 99, fun _ _ => 99⟩) = .ok ⟨⟩ t ∧
      ImTree.StandsFor 4 4 (ImTree.contents ascendingCalls) t ∧
      ∀ key, ImTree.EraseFits 4 4 t key → ∃ t',
        ImTree.erase 4 4 key t = .ok (ImTree.contents ascendingCalls key).isSome t' ∧
        ImTree.StandsFor 4 4 (Function.update (ImTree.contents ascendingCalls) key none) t' :=
  erase_refines_remove 4 4 (by decide) (by decide) _ _ (by decide +kernel)

/-- The leaf of 2 becomes empty and gets 1 from the leaf of 0 and 1, but the
separator between the two stays 2: 1 is then searched for in the left leaf. -/
theorem erase_loses_key :
    ∃ t t', ImTree.callAll 3 2 ⟨fun _ _ => 99, fun _ _ => 99⟩
        [.insert 1 10, .insert 2 20, .insert 3 30, .insert 0 0, .erase 3]
        (ImTree.new ⟨fun _ _ => 99, fun _ _ => 99⟩) = .ok ⟨⟩ t ∧
      ImTree.erase 3 2 2 t = .ok true t' ∧
      (ImTree.lookup t 1).toOption = some (some 10) ∧
      (ImTree.lookup t' 1).toOption = some none := by
  obtain ⟨_, t, ht, hrest⟩ := wp_exists
    (Q := fun _ t => (ImTree.lookup t 1).toOption = some (some 10) ∧
      wp (ImTree.erase 3 2 2) (fun deleted t' => deleted = true ∧
        (ImTree.lookup t' 1).toOption = some none) (fun _ _ => False) t)
    (x := ImTree.callAll 3 2 ⟨fun _ _ => 99, fun _ _ => 99⟩
      [.insert 1 10, .insert 2 20, .insert 3 30, .insert 0 0, .erase 3])
    (s := ImTree.new ⟨fun _ _ => 99, fun _ _ => 99⟩) (by decide +kernel)
  obtain ⟨hbefore, herase⟩ := hrest
  obtain ⟨_, t', ht', rfl, hafter⟩ := wp_exists herase
  exact ⟨t, t', ht, ht', hbefore, hafter⟩

end Poseidon
