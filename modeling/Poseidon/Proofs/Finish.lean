import Poseidon.Proofs.Abort

/-!
# How a transaction ends

`vacuum` and, with it, `commit_transaction` and `abort_transaction` as whole
calls. `vacuum` may throw, when it cannot follow the relationship list of a
node, but it does so between two items, or before it frees the record of
the item at hand, so the invariant holds in either case.
-/

namespace Poseidon

open Wp History

/-! ## Vacuum -/

/-- What the garbage collection keeps; `W` is the transaction that ends. -/
structure Sweep (W top : Nat) (L : Log) (s s' : GraphDb) : Prop where
  inv : s'.Inv top L
  nodes : ∀ id, Ends (· ∈ s.activeTx) W (L.nodes id) (nodeTable.record s id)
    (L.nodes id) (nodeTable.record s' id)
  rships : ∀ id, Ends (· ∈ s.activeTx) W (L.rships id) (rshipTable.record s id)
    (L.rships id) (rshipTable.record s' id)
  txs : s'.txs = s.txs
  activeTx : s'.activeTx = s.activeTx
  oldestXid : s'.oldestXid = s.oldestXid

section Sweeps

variable {W top : Nat} {L : Log} {s s' s'' : GraphDb}

theorem Sweep.refl (h : s.Inv top L) : Sweep W top L s s :=
  ⟨h, fun _ => Ends.refl .., fun _ => Ends.refl .., rfl, rfl, rfl⟩

theorem Sweep.trans (h : Sweep W top L s s') (h' : Sweep W top L s' s'') :
    Sweep W top L s s'' := by
  have hn := h'.nodes
  have hr := h'.rships
  rw [h.activeTx] at hn hr
  exact ⟨h'.inv, fun id => (h.nodes id).trans (hn id), fun id => (h.rships id).trans (hr id),
    h'.txs.trans h.txs, h'.activeTx.trans h.activeTx, h'.oldestXid.trans h.oldestXid⟩

section Views

variable {α κ β : Type} {t : Table α} {v : View t κ β} {H : Nat → Hist κ} {id : Nat}
  {r' : Record α} {G : List GcItem}

/-- A change of one slot and of the garbage. -/
theorem View.Inv.put (h : v.Inv top H s) (hput : v.Put id r' (t.props s) G s s')
    (hslot : SlotInv v.scheme (· ∈ s.activeTx) top (H id) (t.props s)
      (fun x => (v.dirty (s.txs x)).count id) (id ∈ garbageOf t.gcType s') id r')
    (hend : Ends (· ∈ s.activeTx) W (H id) (t.record s id) (H id) r')
    (hnd : (garbageOf t.gcType s').Nodup)
    (hmem : ∀ i, i ≠ id → (i ∈ garbageOf t.gcType s' ↔ i ∈ garbageOf t.gcType s)) :
    v.Inv top H s' ∧ ∀ i, Ends (· ∈ s.activeTx) W (H i) (t.record s i) (H i)
      (t.record s' i) := by
  refine ⟨⟨?_, hnd, fun i => ?_⟩, fun i => ?_⟩
  · rw [hput.props]
    exact h.bounded
  · rw [hput.activeTx, hput.props, hput.txs, hput.record]
    by_cases hi : i = id
    · subst hi
      rw [if_pos rfl]
      exact hslot
    · rw [if_neg hi]
      simp only [hmem i hi]
      exact h.slots i
  · rw [hput.record]
    by_cases hi : i = id
    · subst hi
      rw [if_pos rfl]
      exact hend
    · rw [if_neg hi]
      exact Ends.refl ..

/-- A table that is not touched. -/
theorem View.Inv.same (h : v.Inv top H s) (hr : ∀ i, t.record s' i = t.record s i)
    (hp : t.props s' = t.props s)
    (hd : ∀ x, v.dirty (s'.txs x) = v.dirty (s.txs x))
    (ha : s'.activeTx = s.activeTx)
    (hg : garbageOf t.gcType s' = garbageOf t.gcType s) : v.Inv top H s' := by
  refine ⟨hp ▸ h.bounded, hg ▸ h.garbage, fun id => ?_⟩
  simp only [hg, ha, hp, hd, hr]
  exact h.slots id

/-- A record in the garbage is deleted, and `gc` leaves it so. -/
theorem SlotInv.gc {k : Scheme α κ} {A : Nat → Prop} {h : Hist κ} {p : PropertyList}
    {n : Nat → Nat} {g : Prop} {r : Record α} {oldest : Nat}
    (hs : SlotInv k A top h p n g id r) (hg : g) (hold : ∀ x, A x → oldest ≤ x) :
    SlotInv k A top h p n g id (r.gc oldest) ∧ Ends A W h r h (r.gc oldest) := by
  obtain ⟨hu, hc⟩ := hs.trash hg
  obtain ⟨items, H', hp⟩ := hs.record.deleted_of_ended hu hc
  obtain ⟨hrec, hend⟩ := hs.record.gc hp.locked hold (T := W)
  refine ⟨⟨hrec, fun d hd => hs.keyed d (List.mem_filter.mp hd).1, fun _ h2 _ => absurd h2 hc,
    fun x hx => ?_, fun _ => ⟨hu, hc⟩, hs.named.slot,
    fun d hd => hs.named.copies d (List.mem_filter.mp hd).1⟩, hend⟩
  exact (hs.dirty x hx).other (fun d hf => hf.ne_zero (hf.locked.symm.trans hp.locked))
    fun d hf => hf.ne_zero (hf.locked.symm.trans hp.locked)

/-- A deleted record without dirty versions is freed. -/
theorem SlotInv.free {k : Scheme α κ} {A : Nat → Prop} {h : Hist κ} {p : PropertyList}
    {n : Nat → Nat} {g g' : Prop} {r : Record α}
    (hs : SlotInv k A top h p n g id r) (hg : g) (hnil : r.dirtyList = []) (hg' : ¬ g') :
    SlotInv k A top h p n g' id { r with used := false } ∧
      Ends A W h r h { r with used := false } := by
  obtain ⟨hu, hc⟩ := hs.trash hg
  obtain ⟨items, H', hp⟩ := hs.record.deleted_of_ended hu hc
  obtain ⟨hrec, hend⟩ := hs.record.free hp hnil (T := W)
  refine ⟨⟨hrec, hs.keyed, fun h1 _ _ => (by cases h1), fun x hx => ?_,
    fun h => absurd h hg', fun h1 => (by cases h1), hs.named.copies⟩, hend⟩
  exact (hs.dirty x hx).other (fun d hf => hf.ne_zero (hf.locked.symm.trans hp.locked))
    fun d hf => hf.ne_zero (hf.locked.symm.trans hp.locked)

end Views

/-- The invariant of a store in which the transactions are the same. -/
theorem GraphDb.Inv.same (h : s.Inv top L) (hn : nodeView.Inv top L.nodes s')
    (hr : rshipView.Inv top L.rships s') (ht : s'.txs = s.txs)
    (ha : s'.activeTx = s.activeTx) (ho : s'.oldestXid = s.oldestXid) : s'.Inv top L := by
  refine ⟨hn, hr, fun x hx => ?_, fun x hx => ?_, ho ▸ h.oldest_le⟩
  · rw [ha] at hx
    have hact := h.active x hx
    exact ⟨ha ▸ hx, hact.ne_zero, hact.le_top, hact.lt_inf, ht ▸ hact.running⟩
  · rw [ha] at hx
    rw [ho]
    exact h.oldest x hx

/-- A table in the store: its part of the log and of the invariant, and what
follows for the store from a change of this table only. -/
structure Side {α κ β : Type} {t : Table α} (v : View t κ β) where
  hist : Log → Nat → Hist κ
  inv : ∀ {top : Nat} {L : Log} {s : GraphDb}, s.Inv top L → v.Inv top (hist L) s
  alone : ∀ {W top : Nat} {L : Log} {s s' : GraphDb}, s.Inv top L →
    v.Inv top (hist L) s' → (∀ i, Ends (· ∈ s.activeTx) W (hist L i) (t.record s i)
      (hist L i) (t.record s' i)) → v.rest s' = v.rest s →
    (∀ ty, ty ≠ t.gcType → garbageOf ty s' = garbageOf ty s) → s'.txs = s.txs →
    s'.activeTx = s.activeTx → s'.oldestXid = s.oldestXid → Sweep W top L s s'

def nodeSide : Side nodeView where
  hist L := L.nodes
  inv h := h.nodes
  alone {_ _ _ s s'} h hn he hrest hg ht ha ho := by
    simp only [nodeView, Prod.mk.injEq] at hrest
    obtain ⟨h1, h2, h3⟩ := hrest
    have hr : ∀ i, rshipTable.record s' i = rshipTable.record s i := by
      intro i
      show s'.rships.slots i = s.rships.slots i
      rw [h1]
    have hi := h.rships.same hr h2 (fun x => congrFun h3 x) ha (hg .gcRship (by simp [nodeTable]))
    refine ⟨h.same hn hi ht ha ho, he, fun i => ?_, ht, ha, ho⟩
    rw [hr]
    exact Ends.refl ..

def rshipSide : Side rshipView where
  hist L := L.rships
  inv h := h.rships
  alone {_ _ _ s s'} h hr he hrest hg ht ha ho := by
    simp only [rshipView, Prod.mk.injEq] at hrest
    obtain ⟨h1, h2, h3⟩ := hrest
    have hn : ∀ i, nodeTable.record s' i = nodeTable.record s i := by
      intro i
      show s'.nodes.slots i = s.nodes.slots i
      rw [h1]
    have hi := h.nodes.same hn h2 (fun x => congrFun h3 x) ha (hg .gcNode (by simp [rshipTable]))
    refine ⟨h.same hi hr ht ha ho, fun i => ?_, he, ht, ha, ho⟩
    rw [hn]
    exact Ends.refl ..

section Sides

variable {α κ β : Type} {t : Table α} {v : View t κ β} (S : Side v) {id : Nat}
  {r' : Record α} {G : List GcItem}

/-- A change of one slot and of the table's garbage. -/
theorem Side.sweep (h : s.Inv top L) (hput : v.Put id r' (t.props s) G s s')
    (hslot : SlotInv v.scheme (· ∈ s.activeTx) top (S.hist L id) (t.props s)
      (fun x => (v.dirty (s.txs x)).count id) (id ∈ garbageOf t.gcType s') id r')
    (hend : Ends (· ∈ s.activeTx) W (S.hist L id) (t.record s id) (S.hist L id) r')
    (hnd : (garbageOf t.gcType s').Nodup)
    (hmem : ∀ i, i ≠ id → (i ∈ garbageOf t.gcType s' ↔ i ∈ garbageOf t.gcType s))
    (hother : ∀ ty, ty ≠ t.gcType → garbageOf ty s' = garbageOf ty s) :
    Sweep W top L s s' := by
  obtain ⟨hv, he⟩ := (S.inv h).put hput hslot hend hnd hmem
  exact S.alone h hv he hput.rest hother hput.txs hput.activeTx hput.oldestXid

/-- The same when the garbage stays as it is. -/
theorem Side.keep (h : s.Inv top L) (hput : v.Put id r' (t.props s) s.garbage s s')
    (hslot : SlotInv v.scheme (· ∈ s.activeTx) top (S.hist L id) (t.props s)
      (fun x => (v.dirty (s.txs x)).count id) (id ∈ garbageOf t.gcType s) id r')
    (hend : Ends (· ∈ s.activeTx) W (S.hist L id) (t.record s id) (S.hist L id) r') :
    Sweep W top L s s' := by
  have hg : ∀ ty, garbageOf ty s' = garbageOf ty s := fun _ => garbageOf_congr hput.garbage
  refine S.sweep h hput ?_ hend ?_ (fun i _ => ?_) fun ty _ => hg ty
  · rw [hg]
    exact hslot
  · rw [hg]
    exact (S.inv h).garbage
  · rw [hg]

end Sides

/-- A change that no version notices. -/
structure Relink (W top : Nat) (L : Log) (s s' : GraphDb) : Prop
    extends Sweep W top L s s' where
  garbage : s'.garbage = s.garbage
  lists : ∀ i, (rshipTable.record s' i).dirtyList = (rshipTable.record s i).dirtyList

theorem Relink.refl (h : s.Inv top L) : Relink W top L s s :=
  ⟨Sweep.refl h, rfl, fun _ => rfl⟩

theorem Relink.trans (h : Relink W top L s s') (h' : Relink W top L s' s'') :
    Relink W top L s s'' :=
  ⟨h.toSweep.trans h'.toSweep, h'.garbage.trans h.garbage,
    fun i => (h'.lists i).trans (h.lists i)⟩

theorem modifyRship_relink {rid : Nat} {f : RshipData → RshipData} (h : s.Inv top L)
    (hf : Unversioned rshipScheme f) : Relink W top L s (modifyRship rid f s) := by
  have ht := hf.touched (rshipTable.record s rid)
  have hput : rshipView.Put rid { rshipTable.record s rid with
      obj := { (rshipTable.record s rid).obj with
        data := f (rshipTable.record s rid).obj.data } }
      (rshipTable.props s) s.garbage s (modifyRship rid f s) :=
    rshipView.put_setRecord rid _ s
  refine ⟨rshipSide.keep h hput ((h.rships.slots rid).touch ht)
    (ht.ends (h.rships.slots rid).record), hput.garbage, fun i => ?_⟩
  rw [hput.record]
  split
  · next hi => rw [hi]
  · rfl

theorem modifyNode_relink {nid : Nat} {f : NodeData → NodeData} (h : s.Inv top L)
    (hf : Unversioned nodeScheme f) :
    Relink W top L s (nodeTable.modifyObj nid (fun o => { o with data := f o.data }) s) := by
  have ht := hf.touched (nodeTable.record s nid)
  have hput := nodeView.put_modifyObj nid (fun o => { o with data := f o.data }) s
  exact ⟨nodeSide.keep h hput ((h.nodes.slots nid).touch ht)
    (ht.ends (h.nodes.slots nid).record), hput.garbage, fun i => rfl⟩

theorem unlinkLoop_relink {next : RshipData → Nat} {setNext : Nat → RshipData → RshipData}
    {oid newNext : Nat}
    (hnext : ∀ n, Unversioned rshipScheme (setNext n)) (h : s.Inv top L) :
    ∀ (fuel prevId : Nat),
      always (unlinkLoop next setNext oid newNext fuel prevId) (Relink W top L s) s := by
  intro fuel
  induction fuel with
  | zero =>
      intro prevId
      exact wp_ite (fun _ => Relink.refl h) (fun _ => Relink.refl h)
  | succ fuel ih =>
      intro prevId
      refine wp_ite (fun _ => Relink.refl h) (fun _ => ?_)
      simp only [wp_bind, Table.getRecord, wp_get, wp_ofExcept]
      refine ⟨fun p _ => wp_ite (fun _ => ?_) (fun _ => ih _), fun _ _ => Relink.refl h⟩
      rw [wp_modify]
      exact modifyRship_relink h (hnext newNext)

theorem unlinkFrom_relink {head : NodeData → Nat} {setHead : Nat → NodeData → NodeData}
    {next : RshipData → Nat} {setNext : Nat → RshipData → RshipData}
    {nid oid newNext : Nat}
    (hnext : ∀ n, Unversioned rshipScheme (setNext n))
    (hhead : ∀ n, Unversioned nodeScheme (setHead n)) (h : s.Inv top L) :
    always (unlinkFrom head setHead next setNext nid oid newNext) (Relink W top L s) s := by
  simp only [unlinkFrom, always, wp_bind, Table.getRecord, wp_get, wp_ofExcept]
  refine ⟨fun n _ => wp_ite (fun _ => ?_) (fun _ => ?_), fun _ _ => Relink.refl h⟩
  · rw [wp_modify]
    exact modifyNode_relink h (hhead newNext)
  · simp only [wp_bind, wp_get]
    exact unlinkLoop_relink hnext h _ _

/-- Taking an item out of the garbage. -/
theorem garbageOf_remove {kept rest : List GcItem} {g : GcItem}
    (hg : s.garbage = kept ++ g :: rest) (hs' : s'.garbage = kept ++ rest)
    (hnd : (garbageOf g.itype s).Nodup) :
    (garbageOf g.itype s').Nodup ∧ g.oid ∉ garbageOf g.itype s' ∧
      (∀ i, i ≠ g.oid → (i ∈ garbageOf g.itype s' ↔ i ∈ garbageOf g.itype s)) ∧
      g.oid ∈ garbageOf g.itype s ∧
      ∀ ty, ty ≠ g.itype → garbageOf ty s' = garbageOf ty s := by
  simp only [garbageOf, hg, hs', List.filter_append, List.map_append, List.filter_cons,
    decide_true, if_true, List.map_cons] at hnd ⊢
  obtain ⟨h1, h2, h3⟩ := List.nodup_append.mp hnd
  obtain ⟨h4, h5⟩ := List.nodup_cons.mp h2
  refine ⟨?_, ?_, fun i hi => ?_, by simp, fun ty hty => ?_⟩
  · exact List.nodup_append.mpr ⟨h1, h5, fun a ha b hb =>
      h3 a ha b (List.mem_cons_of_mem _ hb)⟩
  · intro hm
    rcases List.mem_append.mp hm with hm | hm
    · exact h3 g.oid hm g.oid (List.mem_cons_self ..) rfl
    · exact h4 hm
  · simp [hi]
  · have hne : ¬ g.itype = ty := fun heq => hty heq.symm
    simp [hne]

/-- One item of `vacuum`: the record is freed and the item leaves the
garbage, or the record stays and with it the item. -/
theorem vacuumItem_sweep {kept rest : List GcItem} {g : GcItem} (h : s.Inv top L)
    (hg : s.garbage = kept ++ g :: rest) :
    wp (vacuumItem g)
      (fun b s' => if b then Sweep W top L s { s' with garbage := kept ++ rest }
        else Sweep W top L s s' ∧ s'.garbage = s.garbage)
      (fun _ s' => Sweep W top L s s') s := by
  have hin : g.oid ∈ garbageOf g.itype s := by
    simp [garbageOf, hg]
  simp only [vacuumItem]
  split
  · next hty =>
    simp only [wp_bind, Table.getRecord, wp_get, wp_ofExcept]
    refine ⟨fun r hr => ?_, fun _ _ => Sweep.refl h⟩
    have hr' : r = nodeTable.record s g.oid := by
      simp only [Vec.get] at hr
      split at hr
      · cases hr; rfl
      · cases hr
    subst hr'
    rw [hty] at hin
    obtain ⟨hslot, hend⟩ := (h.nodes.slots g.oid).gc hin h.oldest (W := W)
    rw [wp_modify]
    have hput := nodeView.put_setRecord g.oid ((nodeTable.record s g.oid).gc s.oldestXid) s
    have hsweep := nodeSide.keep h hput hslot hend
    refine wp_ite (fun _ => ⟨hsweep, hput.garbage⟩) (fun hclean => ?_)
    -- no version is left: the slot is freed
    have hnil : ((nodeTable.record s g.oid).gc s.oldestXid).dirtyList = [] := by
      simpa [Record.hasDirtyVersions] using hclean
    simp only [wp_bind, wp_modify, wp_pure, if_true]
    have hfree := ((hput.setRecord { (nodeTable.record s g.oid).gc s.oldestXid with
      used := false }).setGarbage (kept ++ rest))
    obtain ⟨hnd, hout, hmem, _, hother⟩ := garbageOf_remove hg hfree.garbage
      (by rw [hty]; exact h.nodes.garbage)
    rw [hty] at hnd hout hmem
    obtain ⟨hslot', hend'⟩ := hslot.free hin hnil hout (W := W)
    have hrec : nodeTable.record (nodeTable.setRecord g.oid
        ((nodeTable.record s g.oid).gc s.oldestXid) s) g.oid =
        (nodeTable.record s g.oid).gc s.oldestXid := hput.self
    rw [Table.free, hrec]
    exact nodeSide.sweep h hfree hslot' (hend.trans hend') hnd hmem fun ty hne =>
      hother ty (by rw [hty]; exact hne)
  · next hty =>
    simp only [wp_bind, Table.getRecord, wp_get, wp_ofExcept]
    refine ⟨fun r hr => ?_, fun _ _ => Sweep.refl h⟩
    have hr' : r = rshipTable.record s g.oid := by
      simp only [Vec.get] at hr
      split at hr
      · cases hr; rfl
      · cases hr
    subst hr'
    rw [hty] at hin
    obtain ⟨hslot, hend⟩ := (h.rships.slots g.oid).gc hin h.oldest (W := W)
    rw [wp_modify]
    have hput := rshipView.put_setRecord g.oid
      ((rshipTable.record s g.oid).gc s.oldestXid) s
    have hsweep := rshipSide.keep h hput hslot hend
    refine wp_ite (fun _ => ⟨hsweep, hput.garbage⟩) (fun hclean => ?_)
    have hnil : ((rshipTable.record s g.oid).gc s.oldestXid).dirtyList = [] := by
      simpa [Record.hasDirtyVersions] using hclean
    have hself := hput.self
    have hg1 := hput.garbage
    generalize rshipTable.setRecord g.oid ((rshipTable.record s g.oid).gc s.oldestXid) s =
      s1 at hsweep hself hg1 ⊢
    rw [wp_bind]
    refine wp_mono (unlinkFrom_relink (fun _ => ⟨fun _ => rfl, fun _ => rfl, fun _ => rfl⟩)
      (fun _ => ⟨fun _ => rfl, fun _ => rfl, fun _ => rfl⟩) hsweep.inv) ?_
      (fun _ _ hl => hsweep.trans hl.toSweep)
    intro _ s2 hl2
    rw [wp_bind]
    refine wp_mono (unlinkFrom_relink (fun _ => ⟨fun _ => rfl, fun _ => rfl, fun _ => rfl⟩)
      (fun _ => ⟨fun _ => rfl, fun _ => rfl, fun _ => rfl⟩) hl2.inv) ?_
      (fun _ _ hl => hsweep.trans (hl2.toSweep.trans hl.toSweep))
    intro _ s3 hl3
    simp only [wp_bind, wp_modify, wp_pure, if_true]
    have hl13 := hl2.trans hl3
    have hg3 : s3.garbage = kept ++ g :: rest := hl13.garbage.trans (hg1.trans hg)
    have hnil3 : (rshipTable.record s3 g.oid).dirtyList = [] := by
      rw [hl13.lists, hself]
      exact hnil
    have hfree := (rshipView.put_setRecord g.oid
      { rshipTable.record s3 g.oid with used := false } s3).setGarbage (kept ++ rest)
    obtain ⟨hnd, hout, hmem, hin3, hother⟩ := garbageOf_remove hg3 hfree.garbage
      (by rw [hty]; exact hl13.inv.rships.garbage)
    rw [hty] at hnd hout hmem hin3
    obtain ⟨hslot', hend'⟩ := (hl13.inv.rships.slots g.oid).free hin3 hnil3 hout (W := W)
    exact hsweep.trans (hl13.toSweep.trans (rshipSide.sweep hl13.inv hfree hslot' hend' hnd
      hmem fun ty hne => hother ty (by rw [hty]; exact hne)))

theorem vacuum_sweep (h : s.Inv top L) : always vacuum (Sweep W top L s) s := by
  have loop : ∀ (rest kept : List GcItem) (s : GraphDb), s.Inv top L →
      s.garbage = kept ++ rest → always (vacuumLoop kept rest) (Sweep W top L s) s := by
    intro rest
    induction rest with
    | nil => intro kept s h _; exact Sweep.refl h
    | cons g rest ih =>
        intro kept s h hg
        simp only [vacuumLoop, always, wp_bind]
        refine wp_mono (vacuumItem_sweep h hg) ?_ (fun _ _ hs => hs)
        intro b s1 hs1
        cases b with
        | true =>
            simp only [if_true, wp_bind, wp_modify] at hs1 ⊢
            exact always_mono (ih kept _ hs1.inv rfl) fun _ hs => hs1.trans hs
        | false =>
            simp only [Bool.false_eq_true, if_false] at hs1 ⊢
            have hg1 : s1.garbage = (kept ++ [g]) ++ rest := by
              rw [hs1.2, hg, List.append_assoc]
              rfl
            exact always_mono (ih (kept ++ [g]) s1 hs1.1.inv hg1) fun _ hs => hs1.1.trans hs
  exact loop s.garbage [] s h rfl

end Sweeps

/-! ## Begin -/

section Endings

variable {top T : Nat} {L L' : Log} {s s' : GraphDb}

section Views

variable {α κ β : Type} {t : Table α} {v : View t κ β} {H : Nat → Hist κ}

theorem SlotInv.leave {k : Scheme α κ} {A A' : Nat → Prop} {h : Hist κ}
    {p : PropertyList} {n : Nat → Nat} {g : Prop} {id : Nat} {r : Record α}
    (hs : SlotInv k A top h p n g id r) (hA : ∀ x, A' x → A x) :
    SlotInv k A' top h p n g id r :=
  ⟨hs.record.leave hA, hs.keyed, hs.backed, fun x hx => hs.dirty x (hA x hx), hs.trash,
    hs.named⟩

/-- Nobody above `top` has locked a slot. -/
theorem RecInv.txnId_le {k : Scheme α κ} {A : Nat → Prop} {h : Hist κ}
    {stored : Nat → Except Err (List PItem)} {r : Record α}
    (hs : RecInv k A top stored h r) (hu : r.used = true) : r.obj.txnId ≤ top := by
  cases hs.phase with
  | unused hp => rw [hp.used] at hu; cases hu
  | inserting hp => exact hp.known
  | live hp =>
      by_cases h0 : r.obj.txnId = 0
      · omega
      · exact (hp.lock h0).2.2.1
  | deleted hp =>
      have := hp.locked
      omega

/-- A transaction that was never seen begins, with an empty dirty list. -/
theorem View.Inv.begin (h : v.Inv top H s) (htop : top < T)
    (hr : ∀ i, t.record s' i = t.record s i) (hp : t.props s' = t.props s)
    (hg : s'.garbage = s.garbage) (ha : s'.activeTx = T :: s.activeTx)
    (hd : ∀ x, x ≠ T → v.dirty (s'.txs x) = v.dirty (s.txs x))
    (hd' : v.dirty (s'.txs T) = []) : v.Inv T H s' := by
  have hg' : garbageOf t.gcType s' = garbageOf t.gcType s := garbageOf_congr hg
  refine ⟨hp ▸ h.bounded, hg' ▸ h.garbage, fun id => ?_⟩
  have hs := h.slots id
  have hA : (fun x => x ∈ s'.activeTx) = fun x => x = T ∨ x ∈ s.activeTx := by
    funext x
    rw [ha, List.mem_cons]
  rw [hA, hp, hr, hg']
  refine ⟨hs.record.begin htop, hs.keyed, hs.backed, fun x hx => ?_, hs.trash, hs.named⟩
  by_cases hxT : x = T
  · subst hxT
    rw [hd', List.count_nil]
    have hno : ∀ dn, ¬ Front x dn (t.record s id) := by
      intro dn hf
      have hle := hs.record.txnId_le hf.used
      rw [hf.locked] at hle
      omega
    exact ⟨⟨fun h0 => absurd rfl h0, fun ⟨dn, hf⟩ => absurd hf (hno dn)⟩,
      fun dn hf => absurd hf (hno dn), fun dn _ _ hf => absurd hf (hno dn)⟩
  · rw [hd x hxT]
    exact hs.dirty x (hx.resolve_left hxT)

end Views

theorem beginTransaction_spec (h : s.Inv top L) (htop : top < T) (hinf : T < INF)
    (hrun : (s.txs T).running = false) :
    wp (beginTransaction T)
      (fun _ s' => s'.Inv T L ∧ s'.activeTx = T :: s.activeTx ∧
        (∀ i, nodeTable.record s' i = nodeTable.record s i) ∧
        (∀ i, rshipTable.record s' i = rshipTable.record s i) ∧
        ∀ x, x ≠ T → s'.txs x = s.txs x)
      (fun _ _ => False) s := by
  have htx : ∀ x, x ≠ T → (GraphDb.modifyTx T (fun _ => ⟨true, [], []⟩) s).txs x =
      s.txs x := fun x hx => if_neg hx
  have hT : (GraphDb.modifyTx T (fun _ => ⟨true, [], []⟩) s).txs T = ⟨true, [], []⟩ :=
    if_pos rfl
  simp only [beginTransaction, wp_bind, wp_get, hrun, Bool.false_eq_true, if_false,
    wp_modify]
  have hold := h.oldest_le
  refine ⟨⟨h.nodes.begin htop (fun _ => rfl) rfl rfl rfl ?_ ?_,
    h.rships.begin htop (fun _ => rfl) rfl rfl rfl ?_ ?_, fun x hx => ?_, fun x hx => ?_,
    by show s.oldestXid ≤ T; omega⟩, rfl, fun _ => rfl, fun _ => rfl, htx⟩
  · exact fun x hx => congrArg nodeView.dirty (htx x hx)
  · exact congrArg nodeView.dirty hT
  · exact fun x hx => congrArg rshipView.dirty (htx x hx)
  · exact congrArg rshipView.dirty hT
  · rcases List.mem_cons.mp hx with rfl | hx
    · exact ⟨List.mem_cons_self .., by omega, Nat.le_refl _, hinf,
        congrArg Transaction.running hT⟩
    · have ha := h.active x hx
      have hle := ha.le_top
      refine ⟨List.mem_cons_of_mem _ hx, ha.ne_zero, by omega, ha.lt_inf, ?_⟩
      exact (congrArg Transaction.running (htx x (by omega))).trans ha.running
  · show s.oldestXid ≤ x
    rcases List.mem_cons.mp hx with rfl | hx
    · omega
    · exact h.oldest x hx

/-! ## Commit and abort -/

/-- `leaveActive` computes the least active transaction. -/
theorem oldestXid_leaveActive (T : Nat) (s : GraphDb) :
    ∀ x ∈ (leaveActive T s).activeTx, (leaveActive T s).oldestXid ≤ x := by
  intro x hx
  show ((s.activeTx.filter (· ≠ T)).min?.getD T) ≤ x
  cases hm : (s.activeTx.filter (· ≠ T)).min? with
  | none =>
      have hnil := List.min?_eq_none_iff.mp hm
      have hx' : x ∈ s.activeTx.filter (· ≠ T) := hx
      rw [hnil] at hx'
      cases hx'
  | some m => exact (List.min?_eq_some_iff.mp hm).2 x hx

theorem mem_leaveActive {x : Nat} :
    x ∈ (leaveActive T s).activeTx ↔ x ∈ s.activeTx ∧ x ≠ T := by
  simp [leaveActive]

/-- A transaction that has left still has its versions and its dirty list. -/
theorem GraphDb.Inv.leave (h : s.Inv top L) (htop : T ≤ top) :
    (leaveActive T s).Inv top L := by
  have hsub : ∀ x, x ∈ (leaveActive T s).activeTx → x ∈ s.activeTx :=
    fun x hx => (mem_leaveActive.mp hx).1
  refine ⟨⟨h.nodes.bounded, h.nodes.garbage, fun id => (h.nodes.slots id).leave hsub⟩,
    ⟨h.rships.bounded, h.rships.garbage, fun id => (h.rships.slots id).leave hsub⟩,
    fun x hx => ?_, oldestXid_leaveActive T s, ?_⟩
  · have ha := h.active x (hsub x hx)
    exact ⟨hx, ha.ne_zero, ha.le_top, ha.lt_inf, ha.running⟩
  · show ((s.activeTx.filter (· ≠ T)).min?.getD T) ≤ top
    cases hm : (s.activeTx.filter (· ≠ T)).min? with
    | none => exact htop
    | some m =>
        have hmem := (List.min?_eq_some_iff.mp hm).1
        exact (h.active m (List.mem_filter.mp hmem).1).le_top

/-- The end of `W`, seen by those who are still active. -/
structure Exit (W top : Nat) (L L' : Log) (s s' : GraphDb) : Prop where
  inv : s'.Inv top L'
  nodes : ∀ id, Ends (· ∈ s'.activeTx) W (L.nodes id) (nodeTable.record s id)
    (L'.nodes id) (nodeTable.record s' id)
  rships : ∀ id, Ends (· ∈ s'.activeTx) W (L.rships id) (rshipTable.record s id)
    (L'.rships id) (rshipTable.record s' id)
  activeTx : ∀ x, x ∈ s'.activeTx ↔ x ∈ s.activeTx ∧ x ≠ W
  dirty : ∀ x, (s'.txs x).dirtyNodes = (s.txs x).dirtyNodes ∧
    (s'.txs x).dirtyRships = (s.txs x).dirtyRships
  running : ∀ x, x ≠ W → (s'.txs x).running = (s.txs x).running

theorem Exit.sweep {s'' : GraphDb} (h : Exit T top L L' s s')
    (hw : Sweep T top L' s' s'') : Exit T top L L' s s'' := by
  have ha := hw.activeTx
  refine ⟨hw.inv, fun id => ?_, fun id => ?_, fun x => ?_, fun x => ?_, fun x hx => ?_⟩
  · rw [ha]
    exact (h.nodes id).trans (hw.nodes id)
  · rw [ha]
    exact (h.rships id).trans (hw.rships id)
  · rw [ha]
    exact h.activeTx x
  · rw [hw.txs]
    exact h.dirty x
  · rw [hw.txs]
    exact h.running x hx

/-- The transaction object is given up. -/
theorem Exit.stop (h : Exit T top L L' s s') :
    Exit T top L L' s (GraphDb.modifyTx T (fun t => { t with running := false }) s') := by
  have hd : ∀ x, ((GraphDb.modifyTx T (fun t => { t with running := false }) s').txs
      x).dirtyNodes = (s'.txs x).dirtyNodes ∧
      ((GraphDb.modifyTx T (fun t => { t with running := false }) s').txs x).dirtyRships =
        (s'.txs x).dirtyRships := by
    intro x
    simp only [GraphDb.modifyTx]
    split <;> exact ⟨rfl, rfl⟩
  have hrun : ∀ x, x ≠ T → ((GraphDb.modifyTx T (fun t => { t with running := false })
      s').txs x).running = (s'.txs x).running := by
    intro x hx
    simp only [GraphDb.modifyTx, hx, if_false]
  refine ⟨⟨h.inv.nodes.same (fun _ => rfl) rfl (fun x => (hd x).1) rfl rfl,
    h.inv.rships.same (fun _ => rfl) rfl (fun x => (hd x).2) rfl rfl, fun x hx => ?_,
    h.inv.oldest, h.inv.oldest_le⟩, h.nodes, h.rships, h.activeTx, fun x => ?_,
    fun x hx => (hrun x hx).trans (h.running x hx)⟩
  · have ha := h.inv.active x hx
    have hne := ((h.activeTx x).mp hx).2
    exact ⟨hx, ha.ne_zero, ha.le_top, ha.lt_inf, (hrun x hne).trans ha.running⟩
  · exact ⟨(hd x).1.trans (h.dirty x).1, (hd x).2.trans (h.dirty x).2⟩

theorem nodeFields : CommitFields nodeView copyNodeFields copyNodeFields
    (fun d => { d with propertyList := UNKNOWN }) :=
  ⟨fun _ _ => rfl, fun _ _ => rfl, fun _ => rfl, fun _ => rfl, fun _ _ _ => rfl,
    fun _ _ _ => rfl, fun _ _ _ => rfl, fun _ => rfl⟩

theorem rshipFields : CommitFields rshipView (fun r _ => r)
    (fun r dr => { r with rshipLabel := dr.rshipLabel }) (fun d => d) :=
  ⟨fun _ _ => rfl, fun _ _ => rfl, fun _ => rfl, fun _ => rfl, fun _ _ _ => rfl,
    fun _ _ _ => rfl, fun _ _ _ => rfl, fun _ => rfl⟩

/-- The fields of a node that a commit publishes. -/
def nodeImg : Record NodeData → DirtyObject NodeData → Nat × Nat :=
  commitImg nodeScheme copyNodeFields copyNodeFields

/-- The fields of a relationship that a commit publishes. -/
def rshipImg : Record RshipData → DirtyObject RshipData → Nat × Nat × Nat × Nat :=
  commitImg rshipScheme (fun r _ => r) fun r dr => { r with rshipLabel := dr.rshipLabel }

/-- The histories after a commit of `T`: the records in its dirty lists have
a new version or have ended. -/
structure Extended (T : Nat) (s : GraphDb) (L L' : Log) : Prop where
  nodes : ∀ id ∈ (s.txs T).dirtyNodes, ∃ c, L'.nodes id = (T, c) :: L.nodes id ∧
    Outcome nodeImg T (nodeTable.record s id) c
  rships : ∀ id ∈ (s.txs T).dirtyRships, ∃ c, L'.rships id = (T, c) :: L.rships id ∧
    Outcome rshipImg T (rshipTable.record s id) c
  otherNodes : ∀ id, id ∉ (s.txs T).dirtyNodes → L'.nodes id = L.nodes id
  otherRships : ∀ id, id ∉ (s.txs T).dirtyRships → L'.rships id = L.rships id

/-- A commit of `T` between its two loops: the relationships are done, with the
histories `Hr`, and the nodes are as they were. -/
structure HalfCommitted (T top : Nat) (L : Log) (Hr : Nat → Hist (Nat × Nat × Nat × Nat))
    (s s' : GraphDb) : Prop where
  rships : rshipView.Committing rshipImg top T L.rships (leaveActive T s) [] Hr s'
  table : s'.nodes = s.nodes
  props : s'.nodeProperties = s.nodeProperties
  nodes : nodeView.Inv top L.nodes s'
  inactive : T ∉ s'.activeTx
  oldest : ∀ x ∈ s'.activeTx, s'.oldestXid ≤ x
  coherent : ∀ id, Coherent ((nodeView.dirty (s'.txs T)).count id) T (nodeTable.record s' id)
  txs : s'.txs = s.txs

theorem HalfCommitted.record {Hr : Nat → Hist (Nat × Nat × Nat × Nat)} {s1 : GraphDb}
    (h : HalfCommitted T top L Hr s s1) (i : Nat) :
    nodeTable.record s1 i = nodeTable.record s i := by
  show s1.nodes.slots i = s.nodes.slots i
  rw [h.table]

theorem commitRships_spec (h : s.Inv top L) (hact : Active top s T) :
    wp (((leaveActive T s).txs T).dirtyRships.forM (commitDirtyRelationship T))
      (fun _ s' => ∃ Hr, HalfCommitted T top L Hr s s') (fun _ _ => False)
      (leaveActive T s) := by
  have h0 := h.leave hact.le_top
  have hina : T ∉ (leaveActive T s).activeTx := fun hx => (mem_leaveActive.mp hx).2 rfl
  have hcohr : ∀ id, Coherent ((rshipView.dirty ((leaveActive T s).txs T)).count id) T
      (rshipTable.record (leaveActive T s) id) :=
    fun id => (h.rships.slots id).dirty T hact.mem
  refine wp_mono (h0.rships.commitLoop rshipFields hina hact.lt_inf h0.oldest hcohr) ?_
    (fun _ _ hf => hf.elim)
  rintro _ s1 ⟨Hr, hr⟩
  have hrest := hr.rest
  simp only [rshipView, Prod.mk.injEq] at hrest
  obtain ⟨e1, e2, e3⟩ := hrest
  have hrec : ∀ i, nodeTable.record s1 i = nodeTable.record s i := by
    intro i
    show s1.nodes.slots i = s.nodes.slots i
    rw [e1]
    rfl
  refine ⟨Hr, hr, e1, e2, ?_, hr.activeTx ▸ hina, ?_, fun id => ?_, hr.txs⟩
  · exact h0.nodes.same hrec e2 (fun x => congrFun e3 x) hr.activeTx
      (hr.garbage_other .gcNode (by decide))
  · rw [hr.activeTx, hr.oldestXid]
    exact h0.oldest
  · rw [hrec, hr.txs]
    exact (h.nodes.slots id).dirty T hact.mem

/-- After both loops. -/
theorem HalfCommitted.exit {Hr : Nat → Hist (Nat × Nat × Nat × Nat)}
    {Hn : Nat → Hist (Nat × Nat)} {s1 s2 : GraphDb} (h : s.Inv top L)
    (hact : Active top s T) (hhalf : HalfCommitted T top L Hr s s1)
    (hn : nodeView.Committing nodeImg top T L.nodes s1 [] Hn s2) :
    Extended T s L ⟨Hn, Hr⟩ ∧ Exit T top L ⟨Hn, Hr⟩ s s2 := by
  have h0 := h.leave hact.le_top
  have hr := hhalf.rships
  have hrec1 := hhalf.record
  have hrest := hn.rest
  simp only [nodeView, Prod.mk.injEq] at hrest
  obtain ⟨f1, f2, f3⟩ := hrest
  have hrec2 : ∀ i, rshipTable.record s2 i = rshipTable.record s1 i := by
    intro i
    show s2.rships.slots i = s1.rships.slots i
    rw [f1]
  have hr2 : rshipView.Inv top Hr s2 :=
    hr.inv.same hrec2 f2 (fun x => congrFun f3 x) hn.activeTx
      (hn.garbage_other .gcRship (by decide))
  have hactive : s2.activeTx = (leaveActive T s).activeTx := hn.activeTx.trans hr.activeTx
  have htxs : s2.txs = s.txs := hn.txs.trans hr.txs
  constructor
  · refine ⟨fun id hid => ?_, fun id hid => hr.visited id hid (by simp), fun id hid => ?_,
      fun id hid => hr.other id hid⟩
    · rw [← hrec1]
      refine hn.visited id ?_ (by simp)
      rw [hr.txs]
      exact hid
    · refine hn.other id ?_
      rw [hr.txs]
      exact hid
  · refine ⟨⟨hn.inv, hr2, fun x hx => ?_, ?_, ?_⟩, fun id => ?_, fun id => ?_, fun x => ?_,
      fun x => ?_, fun x _ => ?_⟩
    · rw [hactive] at hx
      have ha := h0.active x hx
      exact ⟨hactive ▸ hx, ha.ne_zero, ha.le_top, ha.lt_inf, htxs ▸ ha.running⟩
    · rw [hactive, hn.oldestXid, hr.oldestXid]
      exact h0.oldest
    · rw [hn.oldestXid, hr.oldestXid]
      exact h0.oldest_le
    · have he := hn.ends id
      rw [hn.whole id (by simp), hrec1] at he
      exact he
    · have he := hr.ends id
      rw [hr.whole id (by simp)] at he
      rw [hactive, ← hr.activeTx, hrec2]
      exact he
    · rw [hactive]
      exact mem_leaveActive
    · rw [htxs]
      exact ⟨rfl, rfl⟩
    · rw [htxs]

theorem commitTransaction_spec (h : s.Inv top L) (hact : Active top s T) :
    always (commitTransaction T)
      (fun s' => ∃ L', Extended T s L L' ∧ Exit T top L L' s s') s := by
  simp only [commitTransaction, always, wp_bind]
  refine wp_checkTxContext_active hact ?_
  simp only [wp_modify, wp_get]
  refine wp_mono (commitRships_spec h hact) ?_ (fun _ _ hf => hf.elim)
  rintro _ s1 ⟨Hr, hhalf⟩
  refine wp_mono (hhalf.nodes.commitLoop nodeFields hhalf.inactive hact.lt_inf hhalf.oldest
    hhalf.coherent) ?_ (fun _ _ hf => hf.elim)
  rintro _ s2 ⟨Hn, hn⟩
  obtain ⟨hext, hexit⟩ := hhalf.exit h hact hn
  have hstop := hexit.stop
  simp only [wp_pure]
  exact wp_mono (vacuum_sweep (W := T) hstop.inv)
    (fun _ _ hw => ⟨⟨Hn, Hr⟩, hext, hstop.sweep hw⟩)
    (fun _ _ hw => ⟨⟨Hn, Hr⟩, hext, hstop.sweep hw⟩)

theorem abortTransaction_spec (h : s.Inv top L) (hact : Active top s T) :
    always (abortTransaction T) (Exit T top L L s) s := by
  have h0 := h.leave hact.le_top
  have hina : T ∉ (leaveActive T s).activeTx := fun hx => (mem_leaveActive.mp hx).2 rfl
  simp only [abortTransaction, always, wp_bind, wp_get, hact.running, Bool.not_true,
    Bool.false_eq_true, if_false, wp_modify]
  have hcohn : ∀ id, Coherent ((nodeView.dirty ((leaveActive T s).txs T)).count id) T
      (nodeTable.record (leaveActive T s) id) :=
    fun id => (h.nodes.slots id).dirty T hact.mem
  refine wp_mono (h0.nodes.abortLoop hact.ne_zero hina hcohn) ?_ (fun _ _ hf => hf.elim)
  intro _ s1 hn
  have hrest := hn.rest
  simp only [nodeView, Prod.mk.injEq] at hrest
  obtain ⟨e1, e2, e3⟩ := hrest
  have hrec1 : ∀ i, rshipTable.record s1 i = rshipTable.record s i := by
    intro i
    show s1.rships.slots i = s.rships.slots i
    rw [e1]
    rfl
  have hr1 : rshipView.Inv top L.rships s1 :=
    h0.rships.same hrec1 e2 (fun x => congrFun e3 x) hn.activeTx
      (garbageOf_congr hn.garbage)
  have hcohr : ∀ id, Coherent ((rshipView.dirty (s1.txs T)).count id) T
      (rshipTable.record s1 id) := by
    intro id
    rw [hrec1, hn.txs]
    exact (h.rships.slots id).dirty T hact.mem
  refine wp_mono (hr1.abortLoop hact.ne_zero (hn.activeTx ▸ hina) hcohr) ?_
    (fun _ _ hf => hf.elim)
  intro _ s2 hr
  have hrest := hr.rest
  simp only [rshipView, Prod.mk.injEq] at hrest
  obtain ⟨f1, f2, f3⟩ := hrest
  have hrec2 : ∀ i, nodeTable.record s2 i = nodeTable.record s1 i := by
    intro i
    show s2.nodes.slots i = s1.nodes.slots i
    rw [f1]
  have hn2 : nodeView.Inv top L.nodes s2 :=
    hn.inv.same hrec2 f2 (fun x => congrFun f3 x) hr.activeTx (garbageOf_congr hr.garbage)
  have hactive : s2.activeTx = (leaveActive T s).activeTx := hr.activeTx.trans hn.activeTx
  have htxs : s2.txs = s.txs := hr.txs.trans hn.txs
  have hexit : Exit T top L L s s2 := by
    refine ⟨⟨hn2, hr.inv, fun x hx => ?_, ?_, ?_⟩, fun id => ?_, fun id => ?_, fun x => ?_,
      fun x => ?_, fun x _ => ?_⟩
    · rw [hactive] at hx
      have ha := h0.active x hx
      exact ⟨hactive ▸ hx, ha.ne_zero, ha.le_top, ha.lt_inf, htxs ▸ ha.running⟩
    · rw [hactive, hr.oldestXid, hn.oldestXid]
      exact h0.oldest
    · rw [hr.oldestXid, hn.oldestXid]
      exact h0.oldest_le
    · rw [hactive, ← hn.activeTx, hrec2]
      exact hn.ends id
    · have he := hr.ends id
      rw [hrec1] at he
      exact he
    · rw [hactive]
      exact mem_leaveActive
    · rw [htxs]
      exact ⟨rfl, rfl⟩
    · rw [htxs]
  refine wp_mono (vacuum_sweep (W := T) hexit.inv) (fun _ s3 hw => ?_)
    (fun _ _ hw => hexit.sweep hw)
  exact (hexit.sweep hw).stop

end Endings

end Poseidon
