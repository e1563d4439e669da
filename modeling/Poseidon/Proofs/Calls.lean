import Poseidon.Proofs.Views

/-!
# What the calls of a transaction do

The two tables together: every call of an active transaction, other than
commit and abort, keeps the invariant of both and what the other active
transactions rely on (`Op`), whether it returns or throws. Three things are
asked of the caller, and each is what a delete needs and does not check. It
has not worked on a node before it deletes it, or `delete_node` may unlock
the node under its own version; a record that it deletes otherwise carries
no old versions, or no copy is kept for the older readers; and it does not
delete what it has inserted itself.
-/

namespace Poseidon

open Wp History

/-- The committed versions of all records. -/
structure Log where
  nodes : Nat → Hist (Nat × Nat)
  rships : Nat → Hist (Nat × Nat × Nat × Nat)

/-- The invariant of the store. No transaction id above `top` was given
out. -/
structure GraphDb.Inv (top : Nat) (L : Log) (s : GraphDb) : Prop where
  nodes : nodeView.Inv top L.nodes s
  rships : rshipView.Inv top L.rships s
  active : ∀ x ∈ s.activeTx, Active top s x
  oldest : ∀ x ∈ s.activeTx, s.oldestXid ≤ x
  oldest_le : s.oldestXid ≤ top

/-- What a call of `W` does, other than an end of the transaction. -/
structure Op (W top : Nat) (L : Log) (s s' : GraphDb) : Prop where
  nodes : nodeView.Moves W top L.nodes s s'
  rships : rshipView.Moves W top L.rships s s'
  tx : SameTx s s'

section Calls

variable {W top T : Nat} {L : Log} {s s' s'' : GraphDb}

theorem Op.trans (h : Op W top L s s') (h' : Op W top L s' s'') : Op W top L s s'' :=
  ⟨h.nodes.trans h.tx h'.nodes, h.rships.trans h.tx h'.rships, h.tx.trans h'.tx⟩

theorem Op.inv (h : Op W top L s s') (hi : s.Inv top L) : s'.Inv top L := by
  refine ⟨h.nodes.inv, h.rships.inv, fun x hx => ?_, fun x hx => ?_, ?_⟩
  · rw [h.tx.activeTx] at hx
    exact (hi.active x hx).congr h.tx
  · rw [h.tx.activeTx] at hx
    rw [h.tx.oldestXid]
    exact hi.oldest x hx
  · rw [h.tx.oldestXid]
    exact hi.oldest_le

theorem GraphDb.Inv.ofNodes (h : s.Inv top L)
    (ho : nodeView.Op W top L.nodes s s') : Op W top L s s' := by
  have hrest := ho.rest
  simp only [nodeView, Prod.mk.injEq] at hrest
  obtain ⟨h1, h2, h3⟩ := hrest
  refine ⟨ho.toMoves, h.rships.congr (fun i => ?_) h2 (fun x => congrFun h3 x) ho.tx, ho.tx⟩
  show s'.rships.slots i = s.rships.slots i
  rw [h1]

theorem GraphDb.Inv.ofRships (h : s.Inv top L)
    (ho : rshipView.Op W top L.rships s s') : Op W top L s s' := by
  have hrest := ho.rest
  simp only [rshipView, Prod.mk.injEq] at hrest
  obtain ⟨h1, h2, h3⟩ := hrest
  refine ⟨h.nodes.congr (fun i => ?_) h2 (fun x => congrFun h3 x) ho.tx, ho.toMoves, ho.tx⟩
  show s'.nodes.slots i = s.nodes.slots i
  rw [h1]

theorem Op.refl (h : s.Inv top L) : Op W top L s s :=
  h.ofNodes (View.Op.refl h.nodes)

/-- A call that has done something goes on. -/
theorem Op.always_trans {β : Type} {x : DbM β} (h : Op W top L s s')
    (hx : always x (Op W top L s') s') : always x (Op W top L s) s' :=
  always_mono hx fun _ h' => h.trans h'

/-- A call outside a transaction changes nothing. -/
theorem wp_checkTxContext_active {Q : Unit → GraphDb → Prop}
    {E : Err → GraphDb → Prop} (hact : Active top s T) (h : Q () s) :
    wp (checkTxContext T) Q E s := by
  refine wp_checkTxContext.mpr ⟨fun _ => h, fun hf => ?_⟩
  rw [hact.running] at hf
  cases hf

/-! ## Reads -/

theorem nodeById_spec {id : Nat} (h : s.Inv top L) (hact : Active top s T) :
    wp (nodeById T id)
      (fun n s' => nodeView.Op W top L.nodes s s' ∧ ReadBy nodeTable T id s n s')
      (fun _ s' => nodeView.Op W top L.nodes s s') s := by
  refine wp_mono (Table.byId_spec hact.running) ?_ ?_
  · intro n s' hr
    exact ⟨hr.op h.nodes, hr⟩
  · intro e s' hr
    rcases hr with rfl | rfl
    · exact View.Op.refl h.nodes
    · exact h.nodes.recordRead T id

theorem rshipById_spec {id : Nat} (h : s.Inv top L) (hact : Active top s T) :
    wp (rshipById T id)
      (fun n s' => rshipView.Op W top L.rships s s' ∧ ReadBy rshipTable T id s n s')
      (fun _ s' => rshipView.Op W top L.rships s s') s := by
  refine wp_mono (Table.byId_spec hact.running) ?_ ?_
  · intro n s' hr
    exact ⟨hr.op h.rships, hr⟩
  · intro e s' hr
    rcases hr with rfl | rfl
    · exact View.Op.refl h.rships
    · exact h.rships.recordRead T id

/-! ## Updates and inserts -/

theorem updateNode_op {n : Ref} {props : Properties} {lc : Nat} (h : s.Inv top L)
    (hact : Active top s T) (href : RefOk T (nodeTable.record s n.id) n.loc) :
    always (updateNode T n props.items lc) (Op T top L s) s := by
  simp only [updateNode, always, wp_bind, wp_pure]
  refine wp_checkTxContext_active hact ?_
  refine wp_mono (h.nodes.update_spec hact href) ?_ ?_
  · intro old s' hu
    exact h.ofNodes (hu.op h.nodes hact href (grows_applyUpdates props) fun _ => rfl)
  · intro e s' hs
    rw [hs]
    exact Op.refl h

theorem updateRelationship_op {n : Ref} {props : Properties} {lc : Nat}
    (h : s.Inv top L) (hact : Active top s T)
    (href : RefOk T (rshipTable.record s n.id) n.loc) :
    always (updateRelationship T n props.items lc) (Op T top L s) s := by
  simp only [updateRelationship, always, wp_bind, wp_pure]
  refine wp_checkTxContext_active hact ?_
  refine wp_mono (h.rships.update_spec hact href) ?_ ?_
  · intro old s' hu
    exact h.ofRships (hu.op h.rships hact href (grows_applyUpdates props) fun _ => rfl)
  · intro e s' hs
    rw [hs]
    exact Op.refl h

theorem addNode_op {slot label : Nat} {props : Properties} (h : s.Inv top L)
    (hact : Active top s T) :
    always (addNode T slot label props.items) (Op T top L s) s := by
  simp only [addNode, always, wp_bind]
  refine wp_checkTxContext_active hact ?_
  refine wp_mono Table.insert_spec ?_ ?_
  · intro _ s' hi
    exact h.ofNodes (hi.op h.nodes hact props.keyed rfl rfl)
  · intro e s' hs
    rw [hs]
    exact Op.refl h

/-- A change of the list pointers of a relationship. -/
theorem modifyRship_op {rid : Nat} {f : RshipData → RshipData} (h : s.Inv top L)
    (hdirty : rid ∈ (s.txs W).dirtyRships) (hf : Unversioned rshipScheme f) :
    rshipView.Op W top L.rships s (modifyRship rid f s) := by
  have ht := hf.touched (rshipTable.record s rid)
  exact h.rships.setRecord ((h.rships.slots rid).touch ht) ht.evolve (.inl hdirty)

theorem updateFromNode_op {n : Ref} {rid : Nat} (h : s.Inv top L)
    (hact : Active top s T) (hdirty : rid ∈ (s.txs T).dirtyRships)
    (href : RefOk T (nodeTable.record s n.id) n.loc) :
    always (updateFromNode T n rid) (Op T top L s) s := by
  simp only [updateFromNode, always, wp_bind]
  refine wp_mono (h.nodes.update_spec hact href) ?_ ?_
  · intro old s' hu
    have ho := h.ofNodes (hu.op h.nodes hact href grows_id fun _ => rfl)
    refine wp_ite (fun _ => ?_) (fun _ => ho)
    rw [wp_modify]
    exact ho.trans ((ho.inv h).ofRships
      (modifyRship_op (ho.inv h) (ho.rships.grows rid hdirty)
        ⟨fun _ => rfl, fun _ => rfl, fun _ => rfl⟩))
  · intro e s' hs
    rw [hs]
    exact Op.refl h

theorem updateToNode_op {n : Ref} {rid : Nat} (h : s.Inv top L)
    (hact : Active top s T) (hdirty : rid ∈ (s.txs T).dirtyRships)
    (href : RefOk T (nodeTable.record s n.id) n.loc) :
    always (updateToNode T n rid) (Op T top L s) s := by
  simp only [updateToNode, always, wp_bind]
  refine wp_mono (h.nodes.update_spec hact href) ?_ ?_
  · intro old s' hu
    have ho := h.ofNodes (hu.op h.nodes hact href grows_id fun _ => rfl)
    refine wp_ite (fun _ => ?_) (fun _ => ho)
    rw [wp_modify]
    exact ho.trans ((ho.inv h).ofRships
      (modifyRship_op (ho.inv h) (ho.rships.grows rid hdirty)
        ⟨fun _ => rfl, fun _ => rfl, fun _ => rfl⟩))
  · intro e s' hs
    rw [hs]
    exact Op.refl h

/-- A reference stays good through the calls of its holder. -/
theorem Op.refOk_node {id : Nat} {l : Loc} (h : Op W top L s s')
    (hact : Active top s T) (hr : RefOk T (nodeTable.record s id) l) :
    RefOk T (nodeTable.record s' id) l := (h.nodes.evolve id).ref T l hact.mem hr

theorem addRelationship_op {slot fromId toId label : Nat} {props : Properties}
    (h : s.Inv top L) (hact : Active top s T) :
    always (addRelationship T slot fromId toId label props.items) (Op T top L s) s := by
  simp only [addRelationship, always, wp_bind]
  refine wp_checkTxContext_active hact ?_
  refine wp_mono (nodeById_spec h hact) ?_ (fun _ _ ho => h.ofNodes ho)
  rintro nf s1 ⟨ho, hrf⟩
  have o1 := h.ofNodes ho
  have h1 := o1.inv h
  have hact1 := hact.congr o1.tx
  have href1 := hrf.refOk h.nodes hact
  refine wp_mono (nodeById_spec h1 hact1) ?_ (fun _ _ ho => o1.trans (h1.ofNodes ho))
  rintro nt s2 ⟨ho2, hrt⟩
  have o2 := h1.ofNodes ho2
  have h2 := o2.inv h1
  have hact2 := hact1.congr o2.tx
  have href2 := o2.refOk_node hact1 href1
  have hret2 := hrt.refOk h1.nodes hact1
  refine wp_mono Table.insert_spec ?_ ?_
  · intro _ s3 hi
    have o3 := h2.ofRships (hi.op h2.rships hact2 props.keyed rfl rfl)
    have h3 := o3.inv h2
    have hact3 := hact2.congr o3.tx
    have o13 := o1.trans (o2.trans o3)
    have hdirty : slot ∈ (s3.txs T).dirtyRships := hi.mem_dirty rshipView
    refine wp_mono (updateFromNode_op h3 hact3 hdirty (o3.refOk_node hact2 href2)) ?_ ?_
    · intro _ s4 o4
      have h4 := o4.inv h3
      have hret4 := o4.refOk_node hact3 (o3.refOk_node hact2 hret2)
      exact (o13.trans o4).always_trans
        (updateToNode_op h4 (hact3.congr o4.tx) (o4.rships.grows slot hdirty) hret4)
    · intro _ s4 o4
      exact o13.trans o4
  · intro e s3 hs
    rw [hs]
    exact o1.trans o2

/-! ## Deletes -/

/-- What a delete needs of a record that is not checked: the caller has not
inserted it, and unless the caller has updated it, its dirty list is
empty. -/
def Deletable {α : Type} (T : Nat) (r : Record α) : Prop :=
  match r.getDirtyVersion T with
  | some dn => dn.updateMode = true
  | none => r.dirtyList = []

/-- The read and the lock that a delete begins with. The caller has updated
the record, or it has just locked its slot. -/
theorem ReadBy.lock {α κ β : Type} {t : Table α} {v : View t κ β} {H : Nat → Hist κ}
    {id : Nat} {n : Ref} {r : Record α} (h : v.Inv top H s) (hact : Active top s T)
    (hr : ReadBy t T id s n s') (hlock : (t.record s' id).lockForWrite n.loc T = .ok r) :
    v.Op T top H s (t.setRecord id r s') ∧
      r.dirtyList = (t.record s id).dirtyList ∧
      ((∃ dn, Front T dn r ∧ n.loc = .copy dn.addr ∧ dn.elem.cts = INF) ∨
        (n.loc = .slot ∧ Locked v.scheme (· ∈ s.activeTx) top
          (t.props s).buildDirtyPropertyList (H id) T r)) := by
  have o1 := hr.op (W := T) h
  have hact1 := hact.congr o1.tx
  have hslot := o1.inv.slots id
  have href := hr.refOk h hact
  rw [hr.ref] at href
  obtain ⟨hslot', hev, hq, hcase⟩ := hslot.lockForWrite hact1.mem hact.ne_zero
    hact.le_top hact.lt_inf href hlock
  have hlist : (t.record s' id).dirtyList = (t.record s id).dirtyList := by
    rw [hr.record v]
    rfl
  have hprops : t.props s' = t.props s := by
    rw [hr.store, v.props_setRecord]
  refine ⟨o1.trans (o1.inv.setRecord hslot' hev (.inr hq)), hq.1.trans hlist, ?_⟩
  rcases hcase with ⟨rfl, dn, hf⟩ | ⟨hloc, hl⟩
  · have hu : (t.record s' id).used = true := hf.used
    have hv := hr.version
    rw [← hr.record v] at hv
    rcases hslot.record.read hu hact1.mem hact.ne_zero hv with
      ⟨d, hd, hloc, hcts⟩ | ⟨o, c, hrc⟩
    · exact .inl ⟨d, hd, hloc, hcts⟩
    · exact absurd hf (hrc.notOwn dn)
  · rw [o1.tx.activeTx, hprops] at hl
    exact .inr ⟨hloc, hl⟩

/-- The last part of a delete that keeps a copy only if there is none. -/
theorem addDeleted_deletable {α κ β : Type} {t : Table α} {v : View t κ β}
    {H : Nat → Hist κ} {n : Ref} {r : Record α} (h : v.Inv top H s) (hT : T ≠ 0)
    (hr : t.record s n.id = r) (hdel : Deletable T r)
    (hcase : (∃ dn, Front T dn r ∧ n.loc = .copy dn.addr ∧ dn.elem.cts = INF) ∨
      (n.loc = .slot ∧ Locked v.scheme (· ∈ s.activeTx) top
        (t.props s).buildDirtyPropertyList (H n.id) T r)) :
    wp (t.addDeleted T n fun r => !r.hasDirtyVersions)
      (fun _ s' => Removed t T n.id s s') (fun _ _ => False) s := by
  rcases hcase with ⟨dn, hf, hloc, hcts⟩ | ⟨hloc, hl⟩
  · rw [Deletable, hf.getDirtyVersion] at hdel
    refine h.addDeleted_again hr hloc ?_ hf hdel hcts
    have hfr := hf.front
    cases hd : r.dirtyList with
    | nil => rw [hd] at hfr; cases hfr
    | cons d l => simp [Record.hasDirtyVersions, hd]
  · refine h.addDeleted_first hr hloc ?_ hl
    obtain ⟨hown, items, H₁, hl⟩ := hl
    have hno : r.getDirtyVersion T = none := by
      rw [← hown, hl.getDirtyVersion (by rw [hown]; exact hT)]
      rfl
    rw [Deletable, hno] at hdel
    simp [Record.hasDirtyVersions, hdel]

/-- A delete keeps what the deletes of other records need, and the record
itself cannot be deleted a second time. -/
theorem Removed.deletable {α κ β : Type} {t : Table α} (v : View t κ β) {id : Nat}
    (hT : T ≠ 0) (hrm : Removed t T id s s') (i : Nat)
    (hdel : Deletable T (t.record s i)) : Deletable T (t.record s' i) := by
  have hfront : ∀ {r : Record α} {d : DirtyObject α}, Front T d r →
      d.updateMode = true → Deletable T r := by
    intro r d hf hu
    rw [Deletable, hf.getDirtyVersion]
    exact hu
  by_cases hi : i = id
  · subst hi
    cases hrm with
    | first hr hused hlocked hno hst =>
        rw [v.record_addDirty, v.record_setRecord, if_pos rfl]
        exact hfront ⟨hT, hused, hlocked, rfl, hlocked⟩ rfl
    | again hr hf hup hcts =>
        rw [v.record_addDirty, v.record_setRecord, if_pos rfl]
        exact hfront ⟨hT, hf.used, hf.locked, rfl, hf.owner⟩ rfl
  · cases hrm with
    | first hr hused hlocked hno hst =>
        rw [v.record_addDirty, v.record_setRecord, if_neg hi]
        exact hdel
    | again hr hf hup hcts =>
        rw [v.record_addDirty, v.record_setRecord, if_neg hi]
        exact hdel

/-- What `delete_relationship` does when it returns. -/
structure DeletedBy (T rid : Nat) (s s' : GraphDb) : Prop where
  steps : ∃ n s1 r, ReadBy rshipTable T rid s n s1 ∧
    (rshipTable.record s1 rid).lockForWrite n.loc T = .ok r ∧
    r.dirtyList = (rshipTable.record s rid).dirtyList ∧
    Removed rshipTable T rid (rshipTable.setRecord rid r s1) s'

theorem deleteRelationship_spec {rid : Nat} (h : s.Inv top L) (hact : Active top s T)
    (hdel : Deletable T (rshipTable.record s rid)) :
    wp (deleteRelationship T rid)
      (fun _ s' => rshipView.Op T top L.rships s s' ∧ DeletedBy T rid s s')
      (fun _ s' => rshipView.Op T top L.rships s s') s := by
  simp only [deleteRelationship, wp_bind]
  refine wp_checkTxContext_active hact ?_
  refine wp_mono (rshipById_spec h hact) ?_ (fun _ _ ho => ho)
  rintro n s1 ⟨o1, hr⟩
  simp only [wp_get, wp_ofExcept]
  refine ⟨fun r hlock => ?_, fun _ _ => o1⟩
  rw [wp_modify]
  obtain ⟨o2, hlist, hcase⟩ := hr.lock h.rships hact hlock
  have hrec : rshipTable.record (rshipTable.setRecord rid r s1) n.id = r := by
    rw [hr.ref, rshipView.record_setRecord, if_pos rfl]
  have hdel' : Deletable T r := by
    rw [Deletable, Record.getDirtyVersion, hlist]
    exact hdel
  rw [← hr.ref] at hcase
  have hprops : rshipTable.props (rshipTable.setRecord rid r s1) = rshipTable.props s := by
    rw [rshipView.props_setRecord, hr.store, rshipView.props_setRecord]
  rw [← o2.tx.activeTx, ← hprops] at hcase
  refine wp_mono (addDeleted_deletable o2.inv hact.ne_zero hrec hdel' hcase) ?_
    (fun _ _ hf => hf.elim)
  intro _ s3 hrm
  rw [hr.ref] at hrm
  exact ⟨o2.trans (hrm.op o2.inv (hact.congr o2.tx)), ⟨n, s1, r, hr, hlock, hlist, hrm⟩⟩

theorem DeletedBy.deletable {rid : Nat} (hT : T ≠ 0) (hd : DeletedBy T rid s s') (i : Nat)
    (hdel : Deletable T (rshipTable.record s i)) :
    Deletable T (rshipTable.record s' i) := by
  obtain ⟨n, s1, r, hr, hlock, hlist, hrm⟩ := hd.steps
  refine hrm.deletable rshipView hT i ?_
  rw [rshipView.record_setRecord]
  split
  · next hi =>
    rw [Deletable, Record.getDirtyVersion, hlist]
    rw [hi] at hdel
    exact hdel
  · next hi =>
    rw [hr.store, rshipView.record_setRecord, if_neg hi]
    exact hdel

theorem deleteRelationship_op {rid : Nat} (h : s.Inv top L) (hact : Active top s T)
    (hdel : Deletable T (rshipTable.record s rid)) :
    always (deleteRelationship T rid) (Op T top L s) s :=
  wp_mono (deleteRelationship_spec h hact hdel) (fun _ _ ho => h.ofRships ho.1)
    (fun _ _ ho => h.ofRships ho)

/-- A record that was only locked is unlocked again. -/
theorem View.Inv.unlock {α κ β : Type} {t : Table α} {v : View t κ β} {H : Nat → Hist κ}
    {id : Nat} {r : Record α} (h : v.Inv top H s) (hT : T ≠ 0) (hr : t.record s id = r)
    (hl : Locked v.scheme (· ∈ s.activeTx) top (t.props s).buildDirtyPropertyList (H id)
      T r) : v.Op T top H s (t.setRecord id { r with obj := r.obj.unlock } s) := by
  have hslot := h.slots id
  rw [hr] at hslot
  obtain ⟨hslot', hev⟩ := hslot.unlock hT hl rfl
  refine h.setRecord hslot' ?_ (.inr ?_)
  · rw [hr]
    exact hev
  · rw [hr]
    exact ⟨rfl, rfl⟩

theorem deleteNode_op {nid : Nat} (h : s.Inv top L) (hact : Active top s T)
    (hdel : (nodeTable.record s nid).getDirtyVersion T = none) :
    always (deleteNode T nid) (Op T top L s) s := by
  simp only [deleteNode, always, wp_bind]
  refine wp_checkTxContext_active hact ?_
  refine wp_mono (nodeById_spec h hact) ?_ (fun _ _ ho => h.ofNodes ho)
  rintro n s1 ⟨o1, hr⟩
  simp only [wp_get, wp_ofExcept]
  refine ⟨fun r hlock => ?_, fun _ _ => h.ofNodes o1⟩
  rw [wp_modify]
  obtain ⟨o2, hlist, hcase⟩ := hr.lock h.nodes hact hlock
  have hno : ∀ dn, ¬ Front T dn r := by
    intro dn hf
    have hg := hf.getDirtyVersion
    rw [Record.getDirtyVersion, hlist] at hg
    rw [Record.getDirtyVersion, hg] at hdel
    cases hdel
  rcases hcase with ⟨dn, hf, _⟩ | ⟨hloc, hl⟩
  · exact absurd hf (hno dn)
  have hact2 := hact.congr o2.tx
  have hrec : nodeTable.record (nodeTable.setRecord nid r s1) n.id = r := by
    rw [hr.ref, nodeView.record_setRecord, if_pos rfl]
  have hprops : nodeTable.props (nodeTable.setRecord nid r s1) = nodeTable.props s := by
    rw [nodeView.props_setRecord, hr.store, nodeView.props_setRecord]
  rw [← o2.tx.activeTx, ← hprops] at hl
  -- the node stays locked unless the delete is refused for its relationships
  have hend : always (nodeTable.addDeleted T n fun _ => true) (Op T top L s)
      (nodeTable.setRecord nid r s1) := by
    have hl' := hl
    rw [← hr.ref] at hl'
    refine wp_mono (o2.inv.addDeleted_first hrec hloc rfl hl') ?_ (fun _ _ hf => hf.elim)
    intro _ s3 hrm
    exact h.ofNodes (o2.trans (hrm.op o2.inv hact2))
  refine Table.read_slot hloc (wp_ite (fun _ => ?_) fun _ => hend)
  simp only [wp_bind, wp_get, wp_ofExcept]
  refine ⟨fun b _ => wp_ite (fun _ => ?_) fun _ => hend, fun _ _ => h.ofNodes o2⟩
  simp only [wp_bind, wp_modify, wp_throw, hloc, Record.modifyAt]
  refine h.ofNodes (o2.trans (o2.inv.unlock hact.ne_zero ?_ hl))
  rw [nodeView.record_setRecord, if_pos rfl]

/-- The relationships that `detach_delete_node` collects. -/
def GraphDb.incident (s : GraphDb) (T nid : Nat) : List Nat :=
  let r := nodeTable.record s nid
  match r.getValidVersion T with
  | .error _ => []
  | .ok l =>
      match r.deref l with
      | none => []
      | some o =>
          (collectRships s T RshipData.nextSrcRship (s.rships.size + 1)
            o.data.fromRshipList).toOption.getD [] ++
          (collectRships s T RshipData.nextDestRship (s.rships.size + 1)
            o.data.toRshipList).toOption.getD []

/-- The walks read nothing but the relationships. -/
theorem collectRships_congr {next : RshipData → Nat} (h : s'.rships = s.rships) :
    ∀ fuel rid, collectRships s' T next fuel rid = collectRships s T next fuel rid := by
  intro fuel
  induction fuel with
  | zero => intro rid; rfl
  | succ fuel ih =>
      intro rid
      simp only [collectRships, h, ih]

/-- The loop of `detach_delete_node` over the relationships. -/
theorem deleteRelationships_spec {l : List Nat} (h : s.Inv top L)
    (hact : Active top s T)
    (hdel : ∀ rid ∈ l, Deletable T (rshipTable.record s rid)) :
    always (l.forM (deleteRelationship T)) (rshipView.Op T top L.rships s) s := by
  have hloop := wp_forM (f := deleteRelationship T)
    (E := fun _ s' => rshipView.Op T top L.rships s s')
    (P := fun rem s' => rshipView.Op T top L.rships s s' ∧
      ∀ rid ∈ rem, Deletable T (rshipTable.record s' rid)) ?_ l s
    ⟨View.Op.refl h.rships, hdel⟩
  · exact wp_mono hloop (fun _ _ hP => hP.1) (fun _ _ hP => hP)
  · rintro rid rem s1 ⟨o1, hrem⟩
    have h1 := (h.ofRships o1).inv h
    refine wp_mono (deleteRelationship_spec h1 (hact.congr o1.tx)
      (hrem rid (List.mem_cons_self ..))) ?_ (fun _ _ o2 => o1.trans o2)
    rintro _ s2 ⟨o2, hd⟩
    exact ⟨o1.trans o2, fun i hi =>
      hd.deletable hact.ne_zero i (hrem i (List.mem_cons_of_mem _ hi))⟩

/-- The read that a delete begins with, seen from the state before. -/
theorem ReadBy.deref_data {α κ β : Type} {t : Table α} {v : View t κ β}
    {H : Nat → Hist κ} {id : Nat} {n : Ref} {o : Obj α} {r : Record α}
    (h : v.Inv top H s) (hr : ReadBy t T id s n s')
    (hlock : (t.record s' id).lockForWrite n.loc T = .ok r)
    (hlist : r.dirtyList = (t.record s id).dirtyList) (ho : r.deref n.loc = some o) :
    (t.record s id).getValidVersion T = .ok n.loc ∧
      ∃ o', (t.record s id).deref n.loc = some o' ∧ o'.data = o.data := by
  have hv := hr.version
  rw [Record.getValidVersion_recordRead T ((h.slots id).record.prepared hr.used)] at hv
  refine ⟨hv, ?_⟩
  cases hloc : n.loc with
  | slot =>
      rw [hloc] at hlock ho
      cases ho
      refine ⟨_, rfl, ?_⟩
      rw [Record.lockForWrite_slot hlock, hr.record v]
      show _ = ((t.record s id).obj.prepare.setRts T).data
      rw [Obj.setRts_data]
      rfl
  | copy a =>
      rw [hloc, Record.deref, hlist] at ho
      exact ⟨o, ho, rfl⟩

theorem detachDeleteNode_op {nid : Nat} (h : s.Inv top L) (hact : Active top s T)
    (hnode : Deletable T (nodeTable.record s nid))
    (hdel : ∀ rid ∈ s.incident T nid, Deletable T (rshipTable.record s rid)) :
    always (detachDeleteNode T nid) (Op T top L s) s := by
  simp only [detachDeleteNode, always, wp_bind]
  refine wp_checkTxContext_active hact ?_
  refine wp_mono (nodeById_spec h hact) ?_ (fun _ _ ho => h.ofNodes ho)
  rintro n s1 ⟨o1, hr⟩
  simp only [wp_get, wp_ofExcept]
  refine ⟨fun r hlock => ?_, fun _ _ => h.ofNodes o1⟩
  rw [wp_modify]
  obtain ⟨o2, hlist, hcase⟩ := hr.lock h.nodes hact hlock
  have hact2 := hact.congr o2.tx
  have hrec : nodeTable.record (nodeTable.setRecord nid r s1) n.id = r := by
    rw [hr.ref, nodeView.record_setRecord, if_pos rfl]
  have hprops : nodeTable.props (nodeTable.setRecord nid r s1) = nodeTable.props s := by
    rw [nodeView.props_setRecord, hr.store, nodeView.props_setRecord]
  have hrships : (nodeTable.setRecord nid r s1).rships = s.rships := by
    rw [hr.store]
    rfl
  rw [← o2.tx.activeTx, ← hprops] at hcase
  generalize nodeTable.setRecord nid r s1 = s2 at *
  rw [← hr.ref] at hcase
  cases ho : r.deref n.loc with
  | none =>
      simp only [Table.read, wp_bind, wp_get, hrec, ho, wp_throw]
      exact h.ofNodes o2
  | some o =>
      refine Table.read_some (hrec.symm ▸ ho) ?_
      refine ⟨fun outgoing hout => ⟨fun incoming hin => ?_, fun _ _ => h.ofNodes o2⟩,
        fun _ _ => h.ofNodes o2⟩
      obtain ⟨hv, o', ho', hdata⟩ := hr.deref_data h.nodes hlock hlist ho
      rw [hrships, collectRships_congr hrships] at hout hin
      have hinc : s.incident T nid = outgoing ++ incoming := by
        simp only [GraphDb.incident, hv, ho', hdata, hout, hin]
        rfl
      rw [hinc] at hdel
      have hi2 := (h.ofNodes o2).inv h
      refine wp_mono (deleteRelationships_spec hi2 hact2 fun rid hrid => ?_) ?_ ?_
      · have hrid' := hdel rid hrid
        rw [Table.record, show rshipTable.vec s2 = rshipTable.vec s from hrships]
        exact hrid'
      · intro _ s3 o3
        have hi3 := (hi2.ofRships o3).inv hi2
        have hsame := o3.rest
        simp only [rshipView, Prod.mk.injEq] at hsame
        obtain ⟨hn, hnp, _⟩ := hsame
        have hrec3 : nodeTable.record s3 n.id = r := by
          rw [← hrec]
          show s3.nodes.slots n.id = s2.nodes.slots n.id
          rw [hn]
        rw [← o3.tx.activeTx, ← show nodeTable.props s3 = nodeTable.props s2 from hnp]
          at hcase
        have hdel' : Deletable T r := by
          rw [Deletable, Record.getDirtyVersion, hlist]
          exact hnode
        refine wp_mono (addDeleted_deletable hi3.nodes hact.ne_zero hrec3 hdel' hcase) ?_
          (fun _ _ hf => hf.elim)
        intro _ s4 hrm
        have o4 := hi3.ofNodes (hrm.op hi3.nodes (hact2.congr o3.tx))
        exact (h.ofNodes o2).trans ((hi2.ofRships o3).trans o4)
      · intro _ s3 o3
        exact (h.ofNodes o2).trans (hi2.ofRships o3)

end Calls

end Poseidon
