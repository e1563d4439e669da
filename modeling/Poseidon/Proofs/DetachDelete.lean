import Poseidon.Proofs.CommitStamps
import Poseidon.Proofs.Links

/-!
# Deleting a node with its relationships

`detach_delete_node` collects the relationships on the two lists of the node
and deletes them one by one. It returns if and only if it can lock the node
and every relationship it has collected, and has collected none twice; a
relationship from the node to itself stands on both lists. What it has
deleted nobody sees who comes later, whatever the transaction had done to it
before (`Tombed`).
-/

namespace Poseidon

open Wp

variable {α κ β : Type}

/-! ## A deleted record -/

/-- `T` may read the record and lock what it has read. -/
def Writable (T : Nat) (r : Record α) : Prop :=
  r.used = true ∧ ∃ l r', r.getValidVersion T = .ok l ∧
    (r.recordRead T).lockForWrite l T = .ok r'

/-- A version that nobody above `T` can read. -/
structure Faded (T : Nat) (dn : DirtyObject α) : Prop where
  prepared : dn.elem.prepared = true
  closed : dn.elem.cts ≤ T ∨ dn.elem.cts ≤ dn.elem.bts

/-- A record that nobody above `T` can read. -/
structure Gone (T : Nat) (r : Record α) : Prop where
  prepared : r.obj.prepared = true
  closed : r.obj.cts ≤ T
  list : ∀ e ∈ r.dirtyList, Faded T e

/-- The record after a delete by `T`, which had it `n` times in its dirty
list. Behind the tombstone stand old versions, and before them the new one
of `T` itself, if it had one. -/
structure Tombed (T n : Nat) (r : Record α) : Prop where
  locked : r.obj.txnId = T
  cts : r.obj.cts = INF
  prepared : r.obj.prepared = true
  list : ∃ d l, r.dirtyList = d :: l ∧ IsTomb T d ∧ d.elem.prepared = true ∧
    ((∀ e ∈ l, Faded T e) ∨
      n ≠ 0 ∧ ∃ e l', l = e :: l' ∧ e.elem.cts = INF ∧ ∀ e ∈ l', Faded T e)

section Records

variable {k : Scheme α κ} {A : Nat → Prop} {top T R n oldest id : Nat} {H : Hist κ}
  {p : PropertyList} {c : Nat → Nat} {g : Prop} {r r' : Record α} {l : Loc}

theorem Writable.readable (h : Writable T r) : Readable T r := by
  obtain ⟨hu, l, -, hl, -⟩ := h
  exact ⟨hu, l, hl⟩

/-- A transaction does not read what it has deleted. -/
theorem Tombed.unreadable (h : Tombed T n r) (hT : T ≠ 0) : ¬ Readable T r := by
  rintro ⟨-, l, hl⟩
  obtain ⟨d, tl, hlist, htomb, hprep, -⟩ := h.list
  rcases (Record.getValidVersion_ok_iff hT).mp hl with ⟨h0, -⟩ | ⟨-, dn, hdn, -⟩
  · exact hT (h.locked.symm.trans h0)
  · rw [Record.findValidVersion, hlist, htomb.findValid hprep] at hdn
    cases hdn

theorem Faded.unlock {e : DirtyObject α} (h : Faded T e) :
    Faded T { e with elem := e.elem.unlock } := ⟨h.prepared, h.closed⟩

theorem Faded.invalid {e : DirtyObject α} (h : Faded T e) (hR : T < R) :
    e.elem.isValidFor R = false := by
  cases hv : e.elem.isValidFor R with
  | false => rfl
  | true =>
      obtain ⟨h1, h2⟩ := (Obj.isValidFor_iff h.prepared).mp hv
      have := h.closed
      omega

/-- It stays gone, whatever the garbage collection takes away. -/
theorem Gone.unreadable (h : Gone T r) (hf : Fewer r r') (hR : T < R) : ¬ Readable R r' := by
  rintro ⟨-, l, hl⟩
  have hprep : r'.obj.prepared = true := hf.prepared.trans h.prepared
  rcases (Record.getValidVersion_ok_iff (by omega)).mp hl with ⟨-, hv, -⟩ | ⟨-, dn, hdn, -⟩
  · have hlt := ((Obj.isValidFor_iff hprep).mp hv).2
    have := h.closed
    rw [hf.cts] at hlt
    omega
  · obtain ⟨hmem, -, hv⟩ := Record.findValidLoop_ok hdn
    rw [(h.list dn (hf.list.subset hmem)).invalid hR] at hv
    cases hv

/-- What the commit of the delete leaves. -/
theorem Tombed.visits (h : Tombed T n r) (hT : T < INF) :
    Gone T ((Record.visited T oldest)^[n + 1] r) := by
  obtain ⟨d, l, hlist, htomb, -, hrest⟩ := h.list
  have hne : T ≠ INF := Nat.ne_of_lt hT
  -- the first visit takes the tombstone away
  have hfirst : r.visited T oldest = Record.gc { r with
      obj := { r.obj with txnId := 0, cts := T }, dirtyList := unlockFront l } oldest := by
    simp only [Record.visited, h.cts, hlist, htomb.update, htomb.bts, htomb.cts, ne_eq,
      not_true_eq_false, if_false, if_true, Bool.true_eq_false]
  rw [Function.iterate_succ_apply, hfirst]
  generalize hr₁ : Record.gc { r with
    obj := { r.obj with txnId := 0, cts := T }, dirtyList := unlockFront l } oldest = r₁
  have hcts : r₁.obj.cts = T := by rw [← hr₁]; rfl
  have hprep : r₁.obj.prepared = true := by rw [← hr₁]; exact h.prepared
  have hmem : ∀ e ∈ r₁.dirtyList, e ∈ unlockFront l := by
    intro e he
    rw [← hr₁] at he
    exact (List.mem_filter.mp he).1
  have hended : r₁.obj.cts ≠ INF := by rw [hcts]; exact hne
  obtain ⟨hobj, -, hsub⟩ := Record.visits_ended T oldest hended n
  refine ⟨by rw [hobj, hprep], Nat.le_of_eq (by rw [hobj, hcts]), fun e he => ?_⟩
  rcases hrest with hfaded | ⟨hn, e₀, l', rfl, hinf, hfaded⟩
  · have hin := hmem e (hsub.subset he)
    cases l with
    | nil => cases hin
    | cons e₁ l =>
        rcases List.mem_cons.mp hin with rfl | hin
        · exact (hfaded e₁ (List.mem_cons_self ..)).unlock
        · exact hfaded e (List.mem_cons_of_mem _ hin)
  · -- the second visit takes the version of `T` away
    obtain ⟨m, rfl⟩ := Nat.exists_eq_succ_of_ne_zero hn
    rw [Nat.succ_eq_add_one, Function.iterate_succ_apply, Record.visited_ended hended] at he
    obtain ⟨-, -, hsub'⟩ := Record.visits_ended T oldest
      (r := r₁.removeDirtyVersion 0) hended m
    obtain ⟨hin, hkeep⟩ := List.mem_filter.mp (hsub'.subset he)
    rcases List.mem_cons.mp (hmem e hin) with rfl | hin
    · simp [Obj.unlock, hinf] at hkeep
    · exact hfaded e hin

/-- The read and the lock that a delete begins with. -/
theorem SlotInv.readLock (h : SlotInv k A top H p c g id r) (hA : A T) (hT : T ≠ 0)
    (htop : T ≤ top) (hinf : T < INF) (hu : r.used = true)
    (hv : r.getValidVersion T = .ok l) (hlock : (r.recordRead T).lockForWrite l T = .ok r') :
    SlotInv k A top H p c g id r' ∧ r'.dirtyList = r.dirtyList ∧
      ((∃ dn, Front T dn r' ∧ l = .copy dn.addr ∧ dn.elem.cts = INF) ∨
        (l = .slot ∧ Locked k A top p.buildDirtyPropertyList H T r')) := by
  have hread := h.touch (touched_recordRead r T)
  rw [← Record.getValidVersion_recordRead T (h.record.prepared hu)] at hv
  have href := hread.record.refOk_read hu hA hT (Record.le_recordRead_rts _ T) hv
  obtain ⟨hslot, -, hq, hcase⟩ := hread.lockForWrite hA hT htop hinf href hlock
  refine ⟨hslot, hq.1, hcase.imp_left ?_⟩
  rintro ⟨rfl, dn, hf⟩
  rcases hread.record.read hu hA hT hv with ⟨d, hd, hloc, hcts⟩ | ⟨o, x, hrc⟩
  · exact ⟨d, hd, hloc, hcts⟩
  · exact absurd hf (hrc.notOwn dn)

theorem Past.faded {owner : Nat} {e : DirtyObject α} (h : Past k A top H T owner e)
    (hp : e.elem.prepared = true) : Faded T e := by
  cases h with
  | kept _ _ hle _ _ => exact ⟨hp, .inl hle⟩
  | dead _ _ _ _ hempty _ => exact ⟨hp, .inr (Nat.le_of_eq hempty.1.symm)⟩

/-- A record that has ended was deleted before everybody who comes later. -/
theorem RecInv.gone {stored : Nat → Except Err (List PItem)} (h : RecInv k A top stored H r)
    (hu : r.used = true) (hc : r.obj.cts ≠ INF) : Gone r.obj.cts r ∧ r.obj.cts ≤ top := by
  cases h.phase with
  | unused hp => rw [hp.used] at hu; cases hu
  | inserting hp => exact absurd hp.cts hc
  | live hp => exact absurd hp.cts hc
  | @deleted items H' hp =>
      have hsorted := h.sorted
      have hmem : (r.obj.cts, none) ∈ H := hp.head ▸ List.mem_cons_self ..
      refine ⟨⟨h.prepared hu, Nat.le_refl _, fun e he => ⟨h.copies e he, ?_⟩⟩,
        (h.committed _ hmem).2.1⟩
      cases hp.past e he with
      | dead _ _ _ _ hempty _ => exact .inr (Nat.le_of_eq hempty.1.symm)
      | kept _ content _ _ _ =>
          by_cases hle : e.elem.cts ≤ r.obj.cts
          · exact .inl hle
          by_cases hle' : e.elem.cts ≤ e.elem.bts
          · exact .inr hle'
          -- it would be a version of a time after the delete
          have hlatest := content (max e.elem.bts r.obj.cts) (Nat.le_max_left ..) (by omega)
          have hhead : History.Latest H (max e.elem.bts r.obj.cts) (r.obj.cts, none) := by
            rw [hp.head] at hsorted ⊢
            exact History.latest_head hsorted (Nat.le_max_right ..)
          have heq := congrArg Prod.snd (hlatest.unique hsorted hhead)
          cases heq

theorem IsTomb.deletedVersion {e : DirtyObject α} {o : Obj α} (ho : o.txnId = T)
    (hup : e.updateMode = true) (helem : e.elem = Record.deletedVersion o T) : IsTomb T e :=
  ⟨(congrArg Obj.txnId helem).trans ho, hup, congrArg Obj.bts helem, congrArg Obj.cts helem⟩

/-- What stands behind the new version of an active transaction. -/
theorem RecInv.past_front {stored : Nat → Except Err (List PItem)} {dn : DirtyObject α}
    (h : RecInv k A top stored H r) (hf : Front T dn r) (hcts : dn.elem.cts = INF)
    (hinf : T < INF) : r.obj.cts = INF ∧
      ∃ tl, r.dirtyList = dn :: tl ∧ ∀ e ∈ tl, Faded T e := by
  have hprep := h.copies
  rcases h.front_cases hf with hp | ⟨own, rest, items, H₁, hl⟩
  · exact ⟨hp.cts, [], hp.list, fun e he => by cases he⟩
  · refine ⟨hl.cts, ?_⟩
    have howned := hl.owned
    have hlist := hl.list
    have hfront := hf.front
    have hbound : r.bound = T := by rw [Record.bound, if_neg (hf.locked ▸ hf.ne_zero), hf.locked]
    have hpast := hl.past
    rw [hf.locked] at howned hpast
    rw [hbound] at hpast
    have hfaded : ∀ e ∈ rest, Faded T e := fun e he =>
      (hpast e he).faded (hprep e (hlist ▸ List.mem_append_right _ he))
    cases howned with
    | @updated n hn =>
        rw [hlist] at hfront
        cases hfront
        exact ⟨rest, hlist, hfaded⟩
    | @deleted d hd =>
        rw [hlist] at hfront
        cases hfront
        have := hd.cts
        omega
    | @updatedDeleted d n hd hn =>
        rw [hlist] at hfront
        cases hfront
        have := hd.cts
        omega

end Records

/-! ## The end of a delete -/

section Deletes

variable {t : Table α} {A : Nat → Prop} {top T id : Nat} {H : Hist κ} {c : Nat → Nat}
  {g : Prop} {s s' : GraphDb} {r : Record α}

/-- The tombstone goes on top, whatever is in the dirty list. -/
theorem addDeleted_tombed (v : View t κ β) {n : Ref} {p : PropertyList} (hp : t.props s = p)
    (hr : t.record s n.id = r) (hslot : SlotInv v.scheme A top H p c g n.id r) (hA : A T)
    (hT : T ≠ 0) (hinf : T < INF)
    (hcase : (∃ dn, Front T dn r ∧ n.loc = .copy dn.addr ∧ dn.elem.cts = INF) ∨
      (n.loc = .slot ∧ Locked v.scheme A top p.buildDirtyPropertyList H T r)) :
    wp (t.addDeleted T n fun r => !r.hasDirtyVersions)
      (fun _ s' => ∃ r', s' = t.addDirty T n.id (t.setRecord n.id r' s) ∧ Tombed T (c T) r')
      (fun _ _ => False) s := by
  subst hp
  have hrec := hslot.record
  have hdirty : ∀ {d : DirtyObject α} {l : List (DirtyObject α)}, r.dirtyList = d :: l →
      (!r.hasDirtyVersions) = false := by
    intro d l hl
    simp only [Record.hasDirtyVersions, hl, List.isEmpty_cons, Bool.not_false, Bool.not_true]
  rcases hcase with ⟨dn, hf, hloc, hcts⟩ | ⟨hloc, hown, items, H₁, hl⟩
  · -- a version of its own
    have hmem := List.mem_of_mem_head? hf.front
    obtain ⟨hlive, tl, hlist, hfaded⟩ := hrec.past_front hf hcts hinf
    simp only [Table.addDeleted, Table.read, wp_bind, wp_get, hr, hloc,
      hrec.deref_copy hmem, wp_pure, hdirty hlist, Bool.false_eq_true, if_false, wp_modify]
    have hprep : (Record.deletedVersion dn.elem T).prepared = true := hrec.copies dn hmem
    rw [hrec.addDirtyVersion hf.used hprep]
    refine ⟨_, rfl, hf.locked, hlive, hrec.prepared hf.used, _, _, rfl,
      .deletedVersion hf.owner rfl rfl, hprep, .inr ⟨?_, dn, tl, hlist, hcts, hfaded⟩⟩
    exact (hslot.dirty T hA).front.mpr ⟨dn, hf⟩
  · have hprep := hrec.prepared hl.used
    have hbound : r.bound = T := by rw [Record.bound, if_neg (hown ▸ hT), hown]
    have hpast := hl.past
    rw [hbound] at hpast
    have hfaded : ∀ e ∈ r.dirtyList, Faded T e := fun e he =>
      (hpast e he).faded (hrec.copies e he)
    have htomb : (Record.deletedVersion r.obj T).prepared = true := hprep
    have hold : (Record.oldVersion r.obj T).prepared = true := hprep
    have hst := hl.holds
    rw [v.pl_eq] at hst
    simp only [Table.addDeleted, wp_bind, wp_get]
    refine Table.read_slot hloc ?_
    rw [hr, hloc]
    cases hd : r.dirtyList with
    | nil =>
        have hkeep : (!r.hasDirtyVersions) = true := by simp [Record.hasDirtyVersions, hd]
        simp only [hkeep, if_true, wp_bind, wp_get, hst, wp_ofExcept, wp_pure, wp_modify]
        refine ⟨fun pitems hp => ?_, fun e he => by cases he⟩
        rw [hrec.addDirtyVersions hl.used hold htomb]
        refine ⟨_, rfl, hown, hl.cts, hprep, _, _, rfl, .deletedVersion hown rfl rfl, htomb,
          .inl fun e he => ?_⟩
        rcases List.mem_cons.mp he with rfl | he
        · exact ⟨hold, .inl (Nat.le_refl _)⟩
        · exact hfaded e he
    | cons d l =>
        simp only [hdirty hd, Bool.false_eq_true, if_false, wp_bind, wp_pure, wp_modify]
        rw [hrec.addDirtyVersion hl.used htomb]
        exact ⟨_, rfl, hown, hl.cts, hprep, _, _, rfl, .deletedVersion hown rfl rfl, htomb,
          .inl hfaded⟩

/-- A read that returns, and one that does not. -/
theorem Table.byId_readable (hrun : (s.txs T).running = true)
    (hprep : (t.record s id).used = true → (t.record s id).obj.prepared = true) :
    wp (t.byId T id) (fun n s' => ReadBy t T id s n s' ∧ Readable T (t.record s id))
      (fun _ _ => ¬ Readable T (t.record s id)) s := by
  simp only [Table.byId, wp_bind, wp_checkTxContext, Table.getRecord, wp_get, hrun,
    wp_ofExcept, wp_modify, wp_pure, Vec.get]
  refine ⟨fun _ => ⟨fun r hr => ?_, fun e he => ?_⟩, fun h => (by cases h)⟩
  · split at hr
    · next hu =>
      cases hr
      have hv := Record.getValidVersion_recordRead T (hprep hu)
      refine ⟨fun l hl => ⟨⟨rfl, rfl, hu, hl⟩, hu, l, hv.symm.trans hl⟩, fun e he => ?_⟩
      rintro ⟨-, l, hl⟩
      have := (hv.trans hl).symm.trans he
      cases this
    · cases hr
  · split at he
    · cases he
    · next hu => exact fun h => hu h.1

/-- What the loop of `detach_delete_node` over the relationships `l` has
done. -/
structure Removing (T : Nat) (s : GraphDb) (l : List Nat) (s' : GraphDb) : Prop where
  others : ∀ i, i ∉ l → rshipTable.record s' i = rshipTable.record s i
  gone : ∀ i ∈ l, Tombed T ((s.txs T).dirtyRships.count i) (rshipTable.record s' i)
  txs : ∀ x, s'.txs x = { s.txs x with
    dirtyRships := if x = T then (s.txs x).dirtyRships ++ l else (s.txs x).dirtyRships }
  nodes : s'.nodes = s.nodes
  nodeProperties : s'.nodeProperties = s.nodeProperties
  rshipProperties : s'.rshipProperties = s.rshipProperties
  activeTx : s'.activeTx = s.activeTx
  oldestXid : s'.oldestXid = s.oldestXid
  garbage : s'.garbage = s.garbage

theorem Removing.refl (T : Nat) (s : GraphDb) : Removing T s [] s := by
  refine ⟨fun _ _ => rfl, fun _ h => (by cases h), fun x => ?_, rfl, rfl, rfl, rfl, rfl, rfl⟩
  rw [List.append_nil, ite_self]

theorem Removing.running {l : List Nat} (h : Removing T s l s') :
    (s'.txs T).running = (s.txs T).running := by rw [h.txs]

end Deletes

section Detach

variable {T top nid : Nat} {L : Log} {s s' : GraphDb}

/-- One more delete. It is refused if the relationship cannot be read and
locked, and if it has been deleted before. -/
theorem Removing.deleteRelationship {l : List Nat} {rid : Nat} (h : s.Inv top L)
    (hact : Active top s T) (hr : Removing T s l s') :
    wp (deleteRelationship T rid)
      (fun _ s'' => rid ∉ l ∧ Writable T (rshipTable.record s rid) ∧
        Removing T s (l ++ [rid]) s'')
      (fun _ _ => ¬ (rid ∉ l ∧ Writable T (rshipTable.record s rid))) s' := by
  have hslot := h.rships.slots rid
  have hrun : (s'.txs T).running = true := hr.running.trans hact.running
  have hprep : (rshipTable.record s' rid).used = true →
      (rshipTable.record s' rid).obj.prepared = true := by
    intro hu
    by_cases hin : rid ∈ l
    · exact (hr.gone rid hin).prepared
    · rw [hr.others rid hin] at hu ⊢
      exact hslot.record.prepared hu
  simp only [Poseidon.deleteRelationship, wp_bind]
  refine wp_checkTxContext.mpr ⟨fun _ => ?_, fun hno => by rw [hrun] at hno; cases hno⟩
  refine wp_mono (Table.byId_readable hrun hprep) ?_ fun _ _ hno => ?_
  · rintro n s1 ⟨hread, hread'⟩
    have hid := hread.ref
    have hstore := hread.store
    subst hid hstore
    have hin : n.id ∉ l := fun hin => (hr.gone _ hin).unreadable hact.ne_zero hread'
    rw [hr.others _ hin] at hread'
    have hrec := (hread.record rshipView).trans
      (congrArg (Record.recordRead · T) (hr.others _ hin))
    have hv := hread.version
    rw [hr.others _ hin] at hv
    rw [Record.getValidVersion_recordRead T (hslot.record.prepared hread'.1)] at hv
    simp only [wp_get, wp_ofExcept]
    refine ⟨fun r hlock => ?_, fun e he => ?_⟩
    · rw [hrec] at hlock
      obtain ⟨hslot', -, hcase⟩ := hslot.readLock hact.mem hact.ne_zero hact.le_top hact.lt_inf
        hread'.1 hv hlock
      rw [wp_modify]
      have hprops : ∀ r₀, rshipTable.props (rshipTable.setRecord n.id r
          (rshipTable.setRecord n.id r₀ s')) = rshipTable.props s := by
        intro r₀
        rw [rshipView.props_setRecord, rshipView.props_setRecord]
        exact hr.rshipProperties
      refine wp_mono (addDeleted_tombed rshipView (hprops _)
        (by rw [rshipView.record_setRecord, if_pos rfl]) hslot' hact.mem hact.ne_zero
        hact.lt_inf hcase) ?_ fun _ _ hf => hf.elim
      rintro _ s2 ⟨r', rfl, htomb⟩
      have hother : ∀ i, i ≠ n.id → rshipTable.record (rshipTable.addDirty T n.id
          (rshipTable.setRecord n.id r' (rshipTable.setRecord n.id r (rshipTable.setRecord n.id
            ((rshipTable.record s' n.id).recordRead T) s')))) i = rshipTable.record s' i := by
        intro i hi
        rw [rshipView.record_addDirty, rshipView.record_setRecord, if_neg hi,
          rshipView.record_setRecord, if_neg hi, rshipView.record_setRecord, if_neg hi]
      refine ⟨hin, ⟨hread'.1, _, _, hv, hlock⟩, fun i hi => ?_, fun i hi => ?_, fun x => ?_,
        hr.nodes, hr.nodeProperties, hr.rshipProperties, hr.activeTx, hr.oldestXid, hr.garbage⟩
      · rw [List.mem_append, List.mem_singleton, not_or] at hi
        rw [hother i hi.2, hr.others i hi.1]
      · by_cases heq : i = n.id
        · subst heq
          rw [rshipView.record_addDirty, rshipView.record_setRecord, if_pos rfl]
          exact htomb
        · rw [hother i heq]
          refine hr.gone i ((List.mem_append.mp hi).resolve_right fun h => heq ?_)
          exact List.mem_singleton.mp h
      · show (if x = T then { s'.txs x with dirtyRships := (s'.txs x).dirtyRships ++ [n.id] }
          else s'.txs x) = _
        rw [hr.txs x]
        split
        · rw [List.append_assoc]
        · rfl
    · rintro ⟨-, -, l', r', hl', hlock⟩
      rw [hv] at hl'
      cases hl'
      rw [hrec, hlock] at he
      cases he
  · rintro ⟨hin, hw⟩
    rw [hr.others rid hin] at hno
    exact hno hw.readable

/-- The loop returns if it meets no relationship twice and can write to all. -/
theorem deleteRelationships_removing (h : s.Inv top L) (hact : Active top s T) (l : List Nat) :
    wp (l.forM (deleteRelationship T))
      (fun _ s' => l.Nodup ∧ (∀ rid ∈ l, Writable T (rshipTable.record s rid)) ∧
        Removing T s l s')
      (fun _ _ => ¬ (l.Nodup ∧ ∀ rid ∈ l, Writable T (rshipTable.record s rid))) s := by
  have hloop := wp_forM (f := deleteRelationship T)
    (E := fun _ _ => ¬ (l.Nodup ∧ ∀ rid ∈ l, Writable T (rshipTable.record s rid)))
    (P := fun rem s' => ∃ done, l = done ++ rem ∧ done.Nodup ∧
      (∀ rid ∈ done, Writable T (rshipTable.record s rid)) ∧ Removing T s done s') ?_ l s
    ⟨[], rfl, List.nodup_nil, fun _ h => (by cases h), Removing.refl T s⟩
  · refine wp_mono hloop ?_ fun _ _ hE => hE
    rintro _ s' ⟨done, hl, hnd, hw, hr⟩
    rw [List.append_nil] at hl
    exact hl ▸ ⟨hnd, hw, hr⟩
  · rintro rid rem s1 ⟨done, hl, hnd, hw, hr⟩
    refine wp_mono (hr.deleteRelationship h hact) ?_ fun _ _ hno => ?_
    · rintro _ s2 ⟨hin, hwrid, hr2⟩
      refine ⟨done ++ [rid], by rw [hl, List.append_assoc]; rfl, ?_, fun i hi => ?_, hr2⟩
      · exact List.nodup_append.mpr ⟨hnd, List.nodup_singleton rid, fun a ha b hb heq =>
          hin (List.mem_singleton.mp hb ▸ heq ▸ ha)⟩
      · rcases List.mem_append.mp hi with hi | hi
        · exact hw i hi
        · exact List.mem_singleton.mp hi ▸ hwrid
    · rintro ⟨hnd', hw'⟩
      rw [hl] at hnd' hw'
      refine hno ⟨fun hin => ?_, hw' rid (List.mem_append_right _ (List.mem_cons_self ..))⟩
      exact (List.nodup_append.mp hnd').2.2 rid hin rid (List.mem_cons_self ..) rfl

/-! ## The whole call -/

/-- The relationships that `T` finds on the list from `head`. -/
def GraphDb.Collects (s : GraphDb) (T : Nat) (next : RshipData → Nat) (head : Nat)
    (l : List Nat) : Prop :=
  ∃ path, LinkPath (s.nextRship next) UNKNOWN head path ∧
    l = path.filter fun rid => rshipVisible (rshipTable.record s rid) T

/-- `T` can delete node `nid` together with the relationships `l`, which are
those that it finds on the two lists of the node. -/
def GraphDb.Removable (s : GraphDb) (T nid : Nat) (l : List Nat) : Prop :=
  Writable T (nodeTable.record s nid) ∧
    ∃ d outgoing incoming, s.ReadsNode T nid d ∧
      s.Collects T RshipData.nextSrcRship d.fromRshipList outgoing ∧
      s.Collects T RshipData.nextDestRship d.toRshipList incoming ∧
      l = outgoing ++ incoming ∧ l.Nodup ∧ ∀ rid ∈ l, Writable T (rshipTable.record s rid)

/-- What the call leaves when it returns. -/
structure Detached (T nid : Nat) (l : List Nat) (s s' : GraphDb) : Prop where
  nodes : ∀ i, i ≠ nid → nodeTable.record s' i = nodeTable.record s i
  node : Tombed T ((s.txs T).dirtyNodes.count nid) (nodeTable.record s' nid)
  rships : ∀ i, i ∉ l → rshipTable.record s' i = rshipTable.record s i
  gone : ∀ i ∈ l, Tombed T ((s.txs T).dirtyRships.count i) (rshipTable.record s' i)
  dirtyNodes : (s'.txs T).dirtyNodes = (s.txs T).dirtyNodes ++ [nid]
  dirtyRships : (s'.txs T).dirtyRships = (s.txs T).dirtyRships ++ l
  running : ∀ x, (s'.txs x).running = (s.txs x).running
  activeTx : s'.activeTx = s.activeTx
  oldestXid : s'.oldestXid = s.oldestXid
  garbage : s'.garbage = s.garbage

theorem collects_of_ok {next : RshipData → Nat} : ∀ {fuel i : Nat} {l : List Nat},
    collectRships s T next fuel i = .ok l → s.Collects T next i l := by
  intro fuel
  induction fuel with
  | zero =>
      intro i l hok
      simp only [collectRships] at hok
      split at hok
      · next hi =>
        cases hok
        exact ⟨[], hi ▸ .nil, rfl⟩
      · cases hok
  | succ fuel ih =>
      intro i l hok
      simp only [collectRships] at hok
      split at hok
      · next hi =>
        cases hok
        exact ⟨[], hi ▸ .nil, rfl⟩
      · next hi =>
        simp only [Vec.get] at hok
        split at hok
        · cases hok
        · next r hget =>
          split at hget
          · next hu =>
            cases hget
            cases hrest : collectRships s T next fuel (next (s.rships.slots i).obj.data) with
            | error e =>
                rw [hrest] at hok
                cases hok
            | ok l' =>
                rw [hrest] at hok
                cases hok
                obtain ⟨path, hp, rfl⟩ := ih hrest
                refine ⟨i :: path, .cons hi (if_pos hu) hp, ?_⟩
                rw [List.filter_cons]
                rfl
          · cases hget

/-- The walk collects what `Collects` says. -/
theorem GraphDb.Sound.collects {next : RshipData → Nat} {head : Nat} {l : List Nat}
    (hs : s.Sound) : collectRships s T next (s.rships.size + 1) head = .ok l ↔
      s.Collects T next head l := by
  refine ⟨collects_of_ok, ?_⟩
  rintro ⟨path, hp, rfl⟩
  exact collectRships_path hp _ (hs.length_le hp)

theorem GraphDb.ReadsNode.unique {d d' : NodeData} (h : s.ReadsNode T nid d)
    (h' : s.ReadsNode T nid d') : d = d' := by
  obtain ⟨l, o, hl, ho, rfl⟩ := h
  obtain ⟨l', o', hl', ho', rfl⟩ := h'
  rw [hl] at hl'
  cases hl'
  rw [ho] at ho'
  cases ho'
  rfl

theorem GraphDb.Collects.unique {next : RshipData → Nat} {head : Nat} {l l' : List Nat}
    (h : s.Collects T next head l) (h' : s.Collects T next head l') : l = l' := by
  obtain ⟨path, hp, rfl⟩ := h
  obtain ⟨path', hp', rfl⟩ := h'
  rw [hp.unique hp']

/-- The walks that a deletable node has, seen from the version that `T` reads. -/
theorem GraphDb.Removable.walks {l : List Nat} {d : NodeData} (h : s.Removable T nid l)
    (hd : s.ReadsNode T nid d) : ∃ outgoing incoming,
      s.Collects T RshipData.nextSrcRship d.fromRshipList outgoing ∧
      s.Collects T RshipData.nextDestRship d.toRshipList incoming ∧
      l = outgoing ++ incoming := by
  obtain ⟨-, d', outgoing, incoming, hd', hout, hin, hl, -⟩ := h
  obtain rfl := hd'.unique hd
  exact ⟨outgoing, incoming, hout, hin, hl⟩

theorem GraphDb.Removable.unique {l l' : List Nat} (h : s.Removable T nid l)
    (h' : s.Removable T nid l') : l = l' := by
  obtain ⟨-, d, outgoing, incoming, hd, hout, hin, rfl, -⟩ := h
  obtain ⟨outgoing', incoming', hout', hin', rfl⟩ := h'.walks hd
  rw [hout.unique hout', hin.unique hin']

theorem detachDeleteNode_spec (h : s.Inv top L) (hs : s.Sound) (hact : Active top s T)
    (nid : Nat) :
    wp (detachDeleteNode T nid) (fun _ s' => ∃ l, s.Removable T nid l ∧ Detached T nid l s s')
      (fun _ _ => ∀ l, ¬ s.Removable T nid l) s := by
  have hslot := h.nodes.slots nid
  simp only [detachDeleteNode, wp_bind]
  refine wp_checkTxContext_active hact ?_
  refine wp_mono (Table.byId_readable hact.running hslot.record.prepared) ?_
    fun _ _ hno l hrem => hno hrem.1.readable
  rintro n s1 ⟨hread, hread'⟩
  have hid := hread.ref
  subst hid
  have hrec := hread.record nodeView
  have hv := hread.version
  rw [Record.getValidVersion_recordRead T (hslot.record.prepared hread'.1)] at hv
  simp only [wp_get, wp_ofExcept]
  refine ⟨fun r hlock => ?_, fun e he l hrem => ?_⟩
  · rw [wp_modify]
    obtain ⟨o2, hlist, hcase⟩ := hread.lock h.nodes hact hlock
    have hw : Writable T (nodeTable.record s n.id) := ⟨hread'.1, _, _, hv, hrec ▸ hlock⟩
    have hact2 := hact.congr o2.tx
    have hi2 := (h.ofNodes o2).inv h
    have hself : nodeTable.record (nodeTable.setRecord n.id r s1) n.id = r := by
      rw [nodeView.record_setRecord, if_pos rfl]
    have hother : ∀ i, i ≠ n.id → nodeTable.record (nodeTable.setRecord n.id r s1) i =
        nodeTable.record s i := by
      intro i hi
      rw [nodeView.record_setRecord, if_neg hi, hread.store, nodeView.record_setRecord, if_neg hi]
    have hsame : (nodeTable.setRecord n.id r s1).rships = s.rships ∧
        (nodeTable.setRecord n.id r s1).txs = s.txs ∧
        (nodeTable.setRecord n.id r s1).garbage = s.garbage ∧
        (nodeTable.setRecord n.id r s1).activeTx = s.activeTx ∧
        (nodeTable.setRecord n.id r s1).oldestXid = s.oldestXid := by
      rw [hread.store]
      exact ⟨rfl, rfl, rfl, rfl, rfl⟩
    have hprops : nodeTable.props (nodeTable.setRecord n.id r s1) = nodeTable.props s := by
      rw [nodeView.props_setRecord, hread.store, nodeView.props_setRecord]
    rw [← hprops] at hcase
    generalize nodeTable.setRecord n.id r s1 = s2 at *
    obtain ⟨hrships, htxs, hgarbage, hactive, holdest⟩ := hsame
    have hrship : ∀ i, rshipTable.record s2 i = rshipTable.record s i := by
      intro i
      show s2.rships.slots i = s.rships.slots i
      rw [hrships]
    obtain ⟨o, ho⟩ : ∃ o, r.deref n.loc = some o := by
      rcases hcase with ⟨dn, hf, hloc, -⟩ | ⟨hloc, -⟩
      · have hslot2 := (hi2.nodes.slots n.id).record
        rw [hself] at hslot2
        exact ⟨_, hloc ▸ hslot2.deref_copy (List.mem_of_mem_head? hf.front)⟩
      · exact ⟨r.obj, by rw [hloc]; rfl⟩
    obtain ⟨-, o', ho', hdata⟩ := hread.deref_data h.nodes hlock hlist ho
    have hreads : s.ReadsNode T n.id o.data := ⟨_, o', hv, ho', hdata⟩
    refine Table.read_some (hself.symm ▸ ho) ?_
    rw [hrships, collectRships_congr hrships, collectRships_congr hrships]
    refine ⟨fun outgoing hout => ⟨fun incoming hin => ?_, fun e he l hrem => ?_⟩,
      fun e he l hrem => ?_⟩
    · rw [hs.collects] at hout hin
      refine wp_mono (deleteRelationships_removing hi2 hact2 (outgoing ++ incoming)) ?_
        fun _ _ hno l hrem => hno ?_
      · rintro _ s3 ⟨hnd, hwl, hrm⟩
        have hrem : s.Removable T n.id (outgoing ++ incoming) := by
          refine ⟨hw, o.data, outgoing, incoming, hreads, hout, hin, rfl, hnd, fun i hi => ?_⟩
          rw [← hrship]
          exact hwl i hi
        have hnode3 : ∀ i, nodeTable.record s3 i = nodeTable.record s2 i := by
          intro i
          show s3.nodes.slots i = s2.nodes.slots i
          rw [hrm.nodes]
        have hslot2 := hi2.nodes.slots n.id
        rw [hself] at hslot2
        refine wp_mono (addDeleted_tombed nodeView hrm.nodeProperties
          ((hnode3 n.id).trans hself) hslot2 hact2.mem hact.ne_zero hact.lt_inf ?_) ?_
          fun _ _ hf => hf.elim
        · rw [hactive]
          exact hcase
        rintro _ s4 ⟨r', rfl, htomb⟩
        refine ⟨_, hrem, ⟨fun i hi => ?_, ?_, fun i hi => ?_, fun i hi => ?_, ?_, ?_, fun x => ?_,
          hrm.activeTx.trans hactive, hrm.oldestXid.trans holdest, hrm.garbage.trans hgarbage⟩⟩
        · rw [nodeView.record_addDirty, nodeView.record_setRecord, if_neg hi, hnode3, hother i hi]
        · rw [nodeView.record_addDirty, nodeView.record_setRecord, if_pos rfl, ← htxs]
          exact htomb
        · exact (hrm.others i hi).trans (hrship i)
        · rw [← htxs]
          exact hrm.gone i hi
        · show (if T = T then { s3.txs T with dirtyNodes := (s3.txs T).dirtyNodes ++ [n.id] }
            else s3.txs T).dirtyNodes = _
          rw [if_pos rfl, hrm.txs, htxs]
        · show (if T = T then { s3.txs T with dirtyNodes := (s3.txs T).dirtyNodes ++ [n.id] }
            else s3.txs T).dirtyRships = _
          rw [if_pos rfl, hrm.txs, if_pos rfl, htxs]
        · show (if x = T then { s3.txs x with dirtyNodes := (s3.txs x).dirtyNodes ++ [n.id] }
            else s3.txs x).running = _
          rw [← htxs]
          split
          · rw [hrm.txs]
          · rw [hrm.txs]
      · obtain ⟨outgoing', incoming', hout', hin', rfl⟩ := hrem.walks hreads
        obtain rfl := hout'.unique hout
        obtain rfl := hin'.unique hin
        obtain ⟨-, _, _, _, -, -, -, -, hnd, hwl⟩ := hrem
        exact ⟨hnd, fun i hi => hrship i ▸ hwl i hi⟩
    · obtain ⟨outgoing', incoming', -, hin', -⟩ := hrem.walks hreads
      rw [hs.collects.mpr hin'] at he
      cases he
    · obtain ⟨outgoing', incoming', hout', -, -⟩ := hrem.walks hreads
      rw [hs.collects.mpr hout'] at he
      cases he
  · obtain ⟨⟨-, l', r', hl', hlock⟩, -⟩ := hrem
    rw [hv] at hl'
    cases hl'
    rw [hrec, hlock] at he
    cases he

end Detach

end Poseidon
