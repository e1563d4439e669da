import Poseidon.Proofs.Joined

/-!
# What the calls do to the links of their transaction

Call by call: what a transaction does to its own links. Most calls are
`Calm`. `add_relationship` adds a relationship between two nodes that it has
just read. `delete_node` and `detach_delete_node` keep `Tidy` when their
walks along the lists of the node find what the caller sees: `ShowsNode` and
`ListsNode` say that of the state before the call.
-/

namespace Poseidon

open Wp History

section Calls

variable {W top T : Nat} {L : Log} {s s' : GraphDb}

/-! ## Reads and locks -/

theorem nodeById_calm {id : Nat} (hi : s.Inv top L) (hact : Active top s T) :
    wp (nodeById T id) (fun n s' => Calm T L s s' ∧ ReadBy nodeTable T id s n s')
      (fun _ s' => Calm T L s s') s := by
  refine wp_mono (nodeById_spec (W := 0) hi hact) ?_ ?_
  · rintro n s' ⟨ho, hr⟩
    exact ⟨(hi.ofNodes ho).calm hi hact hact.ne_zero, hr⟩
  · intro e s' ho
    exact (hi.ofNodes ho).calm hi hact hact.ne_zero

theorem rshipById_calm {id : Nat} (hi : s.Inv top L) (hact : Active top s T) :
    wp (rshipById T id) (fun n s' => Calm T L s s' ∧ ReadBy rshipTable T id s n s')
      (fun _ s' => Calm T L s s') s := by
  refine wp_mono (rshipById_spec (W := 0) hi hact) ?_ ?_
  · rintro n s' ⟨ho, hr⟩
    exact ⟨(hi.ofRships ho).calm hi hact hact.ne_zero, hr⟩
  · intro e s' ho
    exact (hi.ofRships ho).calm hi hact hact.ne_zero

/-- A read that returns, and the lock of what it has found, leave the own
versions alone. -/
theorem ReadBy.own_lock {α κ β : Type} {t : Table α} (v : View t κ β) {id : Nat} {n : Ref}
    {r : Record α} (hr : ReadBy t T id s n s')
    (hlist : r.dirtyList = (t.record s id).dirtyList) (i : Nat) :
    (t.record (t.setRecord id r s') i).getDirtyVersion T =
      (t.record s i).getDirtyVersion T := by
  refine Record.own_congr ?_
  rw [v.record_setRecord]
  split
  · next hid => rw [hid, hlist]
  · next hid => rw [hr.store, v.record_setRecord, if_neg hid]

theorem ReadBy.calm_lockNode {id : Nat} {n : Ref} {r : Record NodeData} (hi : s.Inv top L)
    (hact : Active top s T) (hr : ReadBy nodeTable T id s n s')
    (hlock : (nodeTable.record s' id).lockForWrite n.loc T = .ok r) :
    Calm T L s (nodeTable.setRecord id r s') := by
  obtain ⟨ho, hlist, _⟩ := hr.lock hi.nodes hact hlock
  refine (hi.ofNodes ho).calm_of_own hact (hr.own_lock nodeView hlist) fun rid => ?_
  rw [nodeOp_rship ho]

theorem ReadBy.calm_lockRship {id : Nat} {n : Ref} {r : Record RshipData} (hi : s.Inv top L)
    (hact : Active top s T) (hr : ReadBy rshipTable T id s n s')
    (hlock : (rshipTable.record s' id).lockForWrite n.loc T = .ok r) :
    Calm T L s (rshipTable.setRecord id r s') := by
  obtain ⟨ho, hlist, _⟩ := hr.lock hi.rships hact hlock
  refine (hi.ofRships ho).calm_of_own hact (fun nid => ?_) (hr.own_lock rshipView hlist)
  rw [rshipOp_node ho]

/-- A node that `T` could read is not deleted by `T`, and `T` holds it. -/
theorem ReadBy.holds {id : Nat} {n : Ref} (hi : s.Inv top L) (hact : Active top s T)
    (hr : ReadBy nodeTable T id s n s') : HoldsNode T L s' id ∧ ¬ Buried T s' id := by
  have ho := hr.op (W := 0) hi.nodes
  obtain ⟨hu, hrts, hv⟩ := hr.recorded nodeView
  have hrec := (ho.inv.slots id).record
  have hmem : T ∈ s'.activeTx := ho.tx.activeTx ▸ hact.mem
  rcases hrec.read hu hmem hact.ne_zero hv with ⟨dn, hf, _, hcts⟩ | ⟨o, c, hrc⟩
  · refine ⟨.inl ?_, fun ⟨d, hd, hne⟩ => ?_⟩
    · rw [hf.getDirtyVersion]
      exact Option.some_ne_none _
    · rw [hf.getDirtyVersion] at hd
      cases hd
      exact hne hcts
  · refine ⟨.inr ⟨_, hrc.latest, Option.some_ne_none c, hu, hrts, hrc.lock⟩,
      fun ⟨d, hd, _⟩ => ?_⟩
    rw [(hrec.own_none_iff hmem hact.ne_zero).mpr hrc.notOwn] at hd
    cases hd

/-! ## Updates and inserts -/

theorem updateNode_calm {n : Ref} {props : Properties} {lc : Nat} (hi : s.Inv top L)
    (hact : Active top s T) (href : RefOk T (nodeTable.record s n.id) n.loc) :
    always (updateNode T n props.items lc) (Calm T L s) s := by
  simp only [updateNode, always, wp_bind, wp_pure]
  refine wp_checkTxContext_active hact ?_
  refine wp_mono (hi.nodes.update_spec hact href) ?_ ?_
  · intro old s' hu
    exact hu.calm_node hi hact (hu.op hi.nodes hact href (grows_applyUpdates props) fun _ => rfl)
  · intro e s' hs
    rw [hs]
    exact Calm.refl ..

theorem updateRelationship_calm {n : Ref} {props : Properties} {lc : Nat} (hi : s.Inv top L)
    (hact : Active top s T) (href : RefOk T (rshipTable.record s n.id) n.loc) :
    always (updateRelationship T n props.items lc) (Calm T L s) s := by
  simp only [updateRelationship, always, wp_bind, wp_pure]
  refine wp_checkTxContext_active hact ?_
  refine wp_mono (hi.rships.update_spec hact href) ?_ ?_
  · intro old s' hu
    refine Updated.calm_rship hi hact href
      (hu.op hi.rships hact href (grows_applyUpdates props) fun _ => rfl) ?_ hu
    intro d
    rfl
  · intro e s' hs
    rw [hs]
    exact Calm.refl ..

theorem addNode_calm {slot label : Nat} {props : Properties} (hi : s.Inv top L)
    (hact : Active top s T) : always (addNode T slot label props.items) (Calm T L s) s := by
  simp only [addNode, always, wp_bind]
  refine wp_checkTxContext_active hact ?_
  refine wp_mono Table.insert_spec ?_ ?_
  · intro _ s' hins
    exact hins.calm_node hi hact (hins.op hi.nodes hact props.keyed rfl rfl)
  · intro e s' hs
    rw [hs]
    exact Calm.refl ..

theorem modifyRship_calm {rid : Nat} {f : RshipData → RshipData} (hi : s.Inv top L)
    (hact : Active top s T) (hdirty : rid ∈ (s.txs T).dirtyRships)
    (hf : Unversioned rshipScheme f) : Calm T L s (modifyRship rid f s) := by
  have ho := modifyRship_op hi hdirty hf
  refine (hi.ofRships ho).calm_of_own hact (fun nid => ?_) fun i => Record.own_congr ?_
  · rw [rshipOp_node ho]
  · rw [modifyRship, rshipView.record_setRecord]
    split
    · next hid => rw [hid]
    · rfl

theorem updateFromNode_calm {n : Ref} {rid : Nat} (hi : s.Inv top L) (hact : Active top s T)
    (hdirty : rid ∈ (s.txs T).dirtyRships)
    (href : RefOk T (nodeTable.record s n.id) n.loc) :
    always (updateFromNode T n rid) (Calm T L s) s := by
  simp only [updateFromNode, always, wp_bind]
  refine wp_mono (hi.nodes.update_spec hact href) ?_ ?_
  · intro old s' hu
    have hop := hu.op hi.nodes hact href grows_id fun _ => rfl
    have ho := hi.ofNodes hop
    have hc := hu.calm_node hi hact hop
    refine wp_ite (fun _ => ?_) (fun _ => hc)
    rw [wp_modify]
    exact hc.trans (modifyRship_calm (ho.inv hi) (hact.congr ho.tx)
      (ho.rships.grows rid hdirty) ⟨fun _ => rfl, fun _ => rfl, fun _ => rfl⟩)
  · intro e s' hs
    rw [hs]
    exact Calm.refl ..

theorem updateToNode_calm {n : Ref} {rid : Nat} (hi : s.Inv top L) (hact : Active top s T)
    (hdirty : rid ∈ (s.txs T).dirtyRships)
    (href : RefOk T (nodeTable.record s n.id) n.loc) :
    always (updateToNode T n rid) (Calm T L s) s := by
  simp only [updateToNode, always, wp_bind]
  refine wp_mono (hi.nodes.update_spec hact href) ?_ ?_
  · intro old s' hu
    have hop := hu.op hi.nodes hact href grows_id fun _ => rfl
    have ho := hi.ofNodes hop
    have hc := hu.calm_node hi hact hop
    refine wp_ite (fun _ => ?_) (fun _ => hc)
    rw [wp_modify]
    exact hc.trans (modifyRship_calm (ho.inv hi) (hact.congr ho.tx)
      (ho.rships.grows rid hdirty) ⟨fun _ => rfl, fun _ => rfl, fun _ => rfl⟩)
  · intro e s' hs
    rw [hs]
    exact Calm.refl ..

/-- A new relationship between two nodes that `T` holds and has not
deleted. -/
theorem Inserted.tidy {slot a b label : Nat} {props : List PItem} (ht : Tidy T L s)
    (hi : s.Inv top L) (hact : Active top s T) (ho : rshipView.Op T top L.rships s s')
    (hins : Inserted rshipTable T slot ⟨slot, a, b, UNKNOWN, UNKNOWN, UNKNOWN, label⟩ props
      s s')
    (ha : HoldsNode T L s a ∧ ¬ Buried T s a) (hb : HoldsNode T L s b ∧ ¬ Buried T s b) :
    Tidy T L s' := by
  obtain ⟨hother, dn', hown, hcts, hup, hdata⟩ := hins.own rshipView
  have hnode := rshipOp_node ho
  have hends : dn'.elem.data.ends = (a, b) := by
    rw [hdata]
    rfl
  have hholds : ∀ n, HoldsNode T L s n → HoldsNode T L s' n := fun n hn =>
    (hi.ofRships ho).holds hact (by rw [hnode]; exact fun h => h) hn
  refine ⟨fun n hbur rid e hs htouch => ?_, fun rid e n hadd htouch => ?_,
    fun rid dn hdn hc hu => ?_⟩
  · rw [Buried, hnode] at hbur
    by_cases hrid : rid = slot
    · obtain ⟨c, hc, rfl⟩ := hs
      rw [hrid] at hc
      cases hc with
      | committed nothing _ =>
          rw [hown] at nothing
          cases nothing
      | own latest _ content =>
          rw [hown] at latest
          cases latest
          have heq : endsOf c = (a, b) := by
            rw [content]
            exact hends
          rw [heq] at htouch
          rcases htouch with rfl | rfl
          · exact ha.2 hbur
          · exact hb.2 hbur
    · rw [SeesRship, hother rid hrid] at hs
      exact ht.buried n hbur rid e hs htouch
  · refine hholds n ?_
    by_cases hrid : rid = slot
    · obtain ⟨d, hd, _, _, rfl⟩ := hadd
      rw [hrid, hown] at hd
      cases hd
      rw [hends] at htouch
      rcases htouch with rfl | rfl
      · exact ha.1
      · exact hb.1
    · rw [Added, hother rid hrid] at hadd
      exact ht.added rid e n hadd htouch
  · by_cases hrid : rid = slot
    · rw [hrid, hown] at hdn
      cases hdn
      rw [hup] at hu
      cases hu
    · rw [hother rid hrid] at hdn
      exact ht.sameEnds rid dn hdn hc hu

theorem addRelationship_tidy {slot fromId toId label : Nat} {props : Properties}
    (ht : Tidy T L s) (hi : s.Inv top L) (hact : Active top s T) :
    always (addRelationship T slot fromId toId label props.items) (Tidy T L) s := by
  simp only [addRelationship, always, wp_bind]
  refine wp_checkTxContext_active hact ?_
  refine wp_mono (nodeById_calm hi hact) ?_ (fun _ _ hc => hc.tidy ht)
  rintro nf s1 ⟨c1, hrf⟩
  have o1 := hi.ofNodes (hrf.op (W := T) hi.nodes)
  have h1 := o1.inv hi
  have hact1 := hact.congr o1.tx
  obtain ⟨hold1, hbur1⟩ := hrf.holds hi hact
  refine wp_mono (nodeById_calm h1 hact1) ?_ (fun _ _ hc => (c1.trans hc).tidy ht)
  rintro nt s2 ⟨c2, hrt⟩
  have o2 := h1.ofNodes (hrt.op (W := T) h1.nodes)
  have h2 := o2.inv h1
  have hact2 := hact1.congr o2.tx
  have ht2 := (c1.trans c2).tidy ht
  have href2 := o2.refOk_node hact1 (hrf.refOk hi.nodes hact)
  have hret2 := hrt.refOk h1.nodes hact1
  refine wp_mono Table.insert_spec ?_ ?_
  · intro _ s3 hins
    have hop := hins.op h2.rships hact2 props.keyed rfl rfl
    have o3 := h2.ofRships hop
    have h3 := o3.inv h2
    have hact3 := hact2.congr o3.tx
    have ht3 := hins.tidy ht2 h2 hact2 hop
      ⟨c2.holds _ hold1, fun hb => hbur1 (c2.buried _ hb)⟩ (hrt.holds h1 hact1)
    have hdirty : slot ∈ (s3.txs T).dirtyRships := hins.mem_dirty rshipView
    have hboth := wp_and (updateFromNode_op h3 hact3 hdirty (o3.refOk_node hact2 href2))
      (updateFromNode_calm h3 hact3 hdirty (o3.refOk_node hact2 href2))
    refine wp_mono hboth ?_ (fun _ _ hc => hc.2.tidy ht3)
    rintro _ s4 ⟨o4, c4⟩
    have hret4 := o4.refOk_node hact3 (o3.refOk_node hact2 hret2)
    exact always_mono (updateToNode_calm (o4.inv h3) (hact3.congr o4.tx)
      (o4.rships.grows slot hdirty) hret4) fun _ c5 => (c4.trans c5).tidy ht3
  · intro e s3 hs
    rw [hs]
    exact ht2

/-! ## Deletes -/

/-- What `T` has deleted it does not see any more. -/
theorem Removed.unseen {rid : Nat} {e : Nat × Nat} (hact : Active top s T)
    (hrm : Removed rshipTable T rid s s') : ¬ SeesRship T L s' rid e := by
  obtain ⟨_, dn', hown, hcts⟩ := hrm.own rshipView hact.lt_inf
  rintro ⟨c, hc, _⟩
  cases hc with
  | own latest live _ =>
      rw [hown] at latest
      cases latest
      exact hcts live
  | committed nothing _ =>
      rw [hown] at nothing
      cases nothing

theorem deleteRelationship_calm {rid : Nat} (hi : s.Inv top L) (hact : Active top s T)
    (hdel : Deletable T (rshipTable.record s rid)) :
    wp (deleteRelationship T rid)
      (fun _ s' => Calm T L s s' ∧ ∀ e, ¬ SeesRship T L s' rid e)
      (fun _ s' => Calm T L s s') s := by
  simp only [deleteRelationship, wp_bind]
  refine wp_checkTxContext_active hact ?_
  refine wp_mono (rshipById_calm hi hact) ?_ (fun _ _ hc => hc)
  rintro n s1 ⟨c1, hr⟩
  simp only [wp_get, wp_ofExcept]
  refine ⟨fun r hlock => ?_, fun _ _ => c1⟩
  rw [wp_modify]
  have c2 := hr.calm_lockRship hi hact hlock
  obtain ⟨o2, hlist, hcase⟩ := hr.lock hi.rships hact hlock
  have hrec : rshipTable.record (rshipTable.setRecord rid r s1) n.id = r := by
    rw [hr.ref, rshipView.record_setRecord, if_pos rfl]
  have hdel' : Deletable T r := by
    rw [Deletable, Record.getDirtyVersion, hlist]
    exact hdel
  rw [← hr.ref] at hcase
  have hprops : rshipTable.props (rshipTable.setRecord rid r s1) = rshipTable.props s := by
    rw [rshipView.props_setRecord, hr.store, rshipView.props_setRecord]
  rw [← o2.tx.activeTx, ← hprops] at hcase
  refine wp_mono (addDeleted_deletable o2.inv hact.ne_zero hrec hdel' hcase) ?_
    (fun _ _ hf => hf.elim)
  intro _ s3 hrm
  rw [hr.ref] at hrm
  have hi2 := (hi.ofRships o2).inv hi
  have hact2 := hact.congr o2.tx
  exact ⟨c2.trans (hrm.calm_rship hi2 hact2 (hrm.op o2.inv hact2)),
    fun e => hrm.unseen hact2⟩

/-- The delete of a node that has no relationships. -/
theorem Removed.tidy_node {nid : Nat} (ht : Tidy T L s) (hi : s.Inv top L)
    (hact : Active top s T) (ho : nodeView.Op T top L.nodes s s')
    (hrm : Removed nodeTable T nid s s')
    (hnone : ∀ rid e, SeesRship T L s rid e → ¬ Touches e nid) : Tidy T L s' := by
  obtain ⟨hother, dn', hown, _⟩ := hrm.own nodeView hact.lt_inf
  have hrship := nodeOp_rship ho
  refine ⟨fun n hb rid e hs => ?_, fun rid e n hadd htouch => ?_, fun rid dn hdn => ?_⟩
  · rw [SeesRship, hrship] at hs
    by_cases hn : n = nid
    · rw [hn]
      exact hnone rid e hs
    · rw [Buried, hother n hn] at hb
      exact ht.buried n hb rid e hs
  · rw [Added, hrship] at hadd
    refine (hi.ofNodes ho).holds hact (fun hne => ?_) (ht.added rid e n hadd htouch)
    by_cases hn : n = nid
    · rw [hn, hown]
      exact Option.some_ne_none _
    · rw [hother n hn]
      exact hne
  · rw [hrship] at hdn
    exact ht.sameEnds rid dn hdn

/-- `d` is the version of the node that `T` reads. -/
def GraphDb.ReadsNode (s : GraphDb) (T nid : Nat) (d : NodeData) : Prop :=
  ∃ l o, (nodeTable.record s nid).getValidVersion T = .ok l ∧
    (nodeTable.record s nid).deref l = some o ∧ o.data = d

/-- The check of `delete_node` finds no relationship. -/
def GraphDb.Passes (s : GraphDb) (T : Nat) (d : NodeData) : Prop :=
  (d.fromRshipList = UNKNOWN ∧ d.toRshipList = UNKNOWN) ∨
    hasValidRshipsOf s d T = .ok false

theorem hasValidRships_congr {next : RshipData → Nat} (h : s'.rships = s.rships) :
    ∀ fuel rid, hasValidRships s' T next fuel rid = hasValidRships s T next fuel rid := by
  intro fuel
  induction fuel with
  | zero => intro rid; rfl
  | succ fuel ih =>
      intro rid
      simp only [hasValidRships, h, ih]

theorem hasValidRshipsOf_congr {d : NodeData} (h : s'.rships = s.rships) :
    hasValidRshipsOf s' d T = hasValidRshipsOf s d T := by
  simp only [hasValidRshipsOf, hasValidFromRships, hasValidToRships,
    hasValidRships_congr h, h]

/-- `delete_node` when its check is good enough: the deleted node has no
relationship that the caller sees. -/
theorem deleteNode_tidy {nid : Nat} (ht : Tidy T L s) (hi : s.Inv top L)
    (hact : Active top s T)
    (hdel : (nodeTable.record s nid).getDirtyVersion T = none)
    (hcheck : ∀ d, s.ReadsNode T nid d → s.Passes T d →
      ∀ rid e, SeesRship T L s rid e → ¬ Touches e nid) :
    wp (deleteNode T nid)
      (fun _ s' => Tidy T L s' ∧ ∀ rid e, SeesRship T L s rid e → ¬ Touches e nid)
      (fun _ s' => Tidy T L s') s := by
  simp only [deleteNode, wp_bind]
  refine wp_checkTxContext_active hact ?_
  refine wp_mono (nodeById_calm hi hact) ?_ (fun _ _ hc => hc.tidy ht)
  rintro n s1 ⟨c1, hr⟩
  simp only [wp_get, wp_ofExcept]
  refine ⟨fun r hlock => ?_, fun _ _ => c1.tidy ht⟩
  rw [wp_modify]
  have c2 := hr.calm_lockNode hi hact hlock
  obtain ⟨o2, hlist, hcase⟩ := hr.lock hi.nodes hact hlock
  have hno : ∀ dn, ¬ Front T dn r := by
    intro dn hf
    have hg := hf.getDirtyVersion
    rw [Record.getDirtyVersion, hlist] at hg
    rw [Record.getDirtyVersion, hg] at hdel
    cases hdel
  rcases hcase with ⟨dn, hf, _⟩ | ⟨hloc, hl⟩
  · exact absurd hf (hno dn)
  have hact2 := hact.congr o2.tx
  have hi2 := (hi.ofNodes o2).inv hi
  have hrec : nodeTable.record (nodeTable.setRecord nid r s1) n.id = r := by
    rw [hr.ref, nodeView.record_setRecord, if_pos rfl]
  have hprops : nodeTable.props (nodeTable.setRecord nid r s1) = nodeTable.props s := by
    rw [nodeView.props_setRecord, hr.store, nodeView.props_setRecord]
  have hrships : (nodeTable.setRecord nid r s1).rships = s.rships := by
    rw [hr.store]
    rfl
  obtain ⟨hv, o', ho', hdata⟩ := hr.deref_data hi.nodes hlock hlist
    (o := r.obj) (by rw [hloc]; rfl)
  have hreads : s.ReadsNode T nid r.obj.data := ⟨_, o', hv, ho', hdata⟩
  rw [← o2.tx.activeTx, ← hprops] at hl
  generalize nodeTable.setRecord nid r s1 = s2 at *
  rw [← hr.ref] at hl
  have hend : s.Passes T r.obj.data → wp (nodeTable.addDeleted T n fun _ => true)
      (fun _ s' => Tidy T L s' ∧ ∀ rid e, SeesRship T L s rid e → ¬ Touches e nid)
      (fun _ s' => Tidy T L s') s2 := by
    intro hpass
    have hnone := hcheck _ hreads hpass
    refine wp_mono (o2.inv.addDeleted_first hrec hloc rfl hl) ?_ (fun _ _ hf => hf.elim)
    intro _ s3 hrm
    have hop := hrm.op o2.inv hact2
    rw [hr.ref] at hrm
    exact ⟨hrm.tidy_node (c2.tidy ht) hi2 hact2 hop fun rid e hs =>
      hnone rid e (c2.sees rid e hs), hnone⟩
  refine Table.read_slot hloc ?_
  rw [hrec]
  refine wp_ite (fun _ => ?_) fun hpass => hend (.inl ?_)
  · simp only [wp_bind, wp_get, wp_ofExcept, hasValidRshipsOf_congr hrships]
    refine ⟨fun b hb => wp_ite (fun _ => ?_) fun hfalse => hend (.inr ?_),
      fun _ _ => c2.tidy ht⟩
    · -- the refused delete gives the lock back
      simp only [wp_bind, wp_modify, wp_throw, hloc, Record.modifyAt]
      rw [hr.ref] at hl hrec
      have o3 := o2.inv.unlock hact.ne_zero hrec hl
      refine (c2.trans ((hi2.ofNodes o3).calm_of_own hact2 (fun i => ?_)
        fun rid => ?_)).tidy ht
      · refine Record.own_congr ?_
        rw [nodeView.record_setRecord]
        split
        · next hid => rw [hid, hrec]
        · rfl
      · rw [nodeOp_rship o3]
    · rw [hb]
      simp only [Bool.not_eq_true] at hfalse
      rw [hfalse]
  · simpa using hpass

/-- The loop of `detach_delete_node`: what it has deleted the caller does not
see any more. -/
theorem deleteRelationships_calm {l : List Nat} (hi : s.Inv top L) (hact : Active top s T)
    (hdel : ∀ rid ∈ l, Deletable T (rshipTable.record s rid)) :
    wp (l.forM (deleteRelationship T))
      (fun _ s' => rshipView.Op T top L.rships s s' ∧ Calm T L s s' ∧
        ∀ rid ∈ l, ∀ e, ¬ SeesRship T L s' rid e) (fun _ s' => Calm T L s s') s := by
  have hloop := wp_forM (f := deleteRelationship T) (E := fun _ s' => Calm T L s s')
    (P := fun rem s' => (rshipView.Op T top L.rships s s' ∧
      ∀ rid ∈ rem, Deletable T (rshipTable.record s' rid)) ∧ Calm T L s s' ∧
        ∀ rid ∈ l, rid ∈ rem ∨ ∀ e, ¬ SeesRship T L s' rid e) ?_ l s
    ⟨⟨View.Op.refl hi.rships, hdel⟩, Calm.refl .., fun rid hrid => .inl hrid⟩
  · refine wp_mono hloop ?_ (fun _ _ hc => hc)
    rintro _ s' ⟨⟨ho, _⟩, hc, hun⟩
    exact ⟨ho, hc, fun rid hrid => (hun rid hrid).resolve_left (by simp)⟩
  · rintro rid rem s1 ⟨⟨o1, hrem⟩, c1, hun⟩
    have h1 := (hi.ofRships o1).inv hi
    have hact1 := hact.congr o1.tx
    have hdel1 := hrem rid (List.mem_cons_self ..)
    refine wp_mono (wp_and (deleteRelationship_spec h1 hact1 hdel1)
      (deleteRelationship_calm h1 hact1 hdel1)) ?_ (fun _ _ hc => c1.trans hc.2)
    rintro _ s2 ⟨⟨o2, hd⟩, c2, hgone⟩
    refine ⟨⟨o1.trans o2, fun i hin =>
      hd.deletable hact.ne_zero i (hrem i (List.mem_cons_of_mem _ hin))⟩, c1.trans c2,
      fun i hin => ?_⟩
    rcases hun i hin with hmem | hno
    · rcases List.mem_cons.mp hmem with rfl | hmem
      · exact .inr hgone
      · exact .inl hmem
    · exact .inr fun e hs => hno e (c2.sees i e hs)

/-! ## What the checks of the deletes rely on -/

/-- On one list of node `nid`, where `side` picks the end: if `T` sees a
relationship, then one that is valid for `T` stands on the list, behind none
but such that `T` has locked. -/
def GraphDb.Shows (s : GraphDb) (T : Nat) (L : Log) (nid : Nat) (side : Nat × Nat → Nat)
    (next : RshipData → Nat) (head : Nat) : Prop :=
  ∃ l, LinkPath (s.nextRship next) UNKNOWN head l ∧
    ∀ rid e, SeesRship T L s rid e → side e = nid → ∃ l₁ x l₂, l = l₁ ++ x :: l₂ ∧
      (∀ y ∈ l₁, (rshipTable.record s y).obj.isLockedBy T = true) ∧
      rshipVisible (rshipTable.record s x) T = true

/-- On one list of node `nid`: all relationships that `T` sees are there, and
are valid for `T` in their slots. -/
def GraphDb.Lists (s : GraphDb) (T : Nat) (L : Log) (nid : Nat) (side : Nat × Nat → Nat)
    (next : RshipData → Nat) (head : Nat) : Prop :=
  ∃ l, LinkPath (s.nextRship next) UNKNOWN head l ∧
    ∀ rid e, SeesRship T L s rid e → side e = nid →
      rid ∈ l ∧ rshipVisible (rshipTable.record s rid) T = true

/-- What `delete_node` relies on. -/
def GraphDb.ShowsNode (s : GraphDb) (T : Nat) (L : Log) (nid : Nat) : Prop :=
  ∀ d, s.ReadsNode T nid d →
    s.Shows T L nid Prod.fst RshipData.nextSrcRship d.fromRshipList ∧
      s.Shows T L nid Prod.snd RshipData.nextDestRship d.toRshipList

/-- What `detach_delete_node` relies on. -/
def GraphDb.ListsNode (s : GraphDb) (T : Nat) (L : Log) (nid : Nat) : Prop :=
  ∀ d, s.ReadsNode T nid d →
    s.Lists T L nid Prod.fst RshipData.nextSrcRship d.fromRshipList ∧
      s.Lists T L nid Prod.snd RshipData.nextDestRship d.toRshipList

/-- The check of `delete_node` finds a relationship if there is one. -/
theorem GraphDb.ShowsNode.found {nid rid : Nat} {e : Nat × Nat} {d : NodeData}
    (h : s.ShowsNode T L nid) (hs : s.Sound) (hd : s.ReadsNode T nid d)
    (hsee : SeesRship T L s rid e) (htouch : Touches e nid) :
    hasValidRshipsOf s d T = .ok true ∧
      (d.fromRshipList ≠ UNKNOWN ∨ d.toRshipList ≠ UNKNOWN) := by
  obtain ⟨⟨l, hp, hout⟩, l', hp', hin⟩ := h d hd
  obtain ⟨⟨b, hb⟩, hfrom⟩ := hasValidRships_path (T := T) hp _ (hs.length_le hp)
  obtain ⟨_, hto⟩ := hasValidRships_path (T := T) hp' _ (hs.length_le hp')
  have hb' : hasValidFromRships s d T = .ok b := hb
  rcases htouch with he | he
  · obtain ⟨l₁, x, l₂, hl, hlock, hx⟩ := hout rid e hsee he
    have htrue : hasValidFromRships s d T = .ok true := hfrom l₁ x l₂ hl hlock hx
    refine ⟨by simp only [hasValidRshipsOf, htrue], .inl fun hun => ?_⟩
    have hnil := hp.eq_nil_iff.mpr hun
    rw [hl] at hnil
    simp at hnil
  · obtain ⟨l₁, x, l₂, hl, hlock, hx⟩ := hin rid e hsee he
    have htrue : hasValidToRships s d T = .ok true := hto l₁ x l₂ hl hlock hx
    refine ⟨?_, .inr fun hun => ?_⟩
    · cases b with
      | true => simp only [hasValidRshipsOf, hb']
      | false => simp only [hasValidRshipsOf, hb', htrue]
    · have hnil := hp'.eq_nil_iff.mpr hun
      rw [hl] at hnil
      simp at hnil

theorem GraphDb.ShowsNode.passes {nid : Nat} {d : NodeData} (h : s.ShowsNode T L nid)
    (hs : s.Sound) (hd : s.ReadsNode T nid d) (hp : s.Passes T d) (rid : Nat)
    (e : Nat × Nat) (hsee : SeesRship T L s rid e) : ¬ Touches e nid := by
  intro htouch
  obtain ⟨htrue, hne⟩ := h.found hs hd hsee htouch
  rcases hp with ⟨h1, h2⟩ | hfalse
  · rcases hne with hne | hne
    · exact hne h1
    · exact hne h2
  · rw [htrue] at hfalse
    cases hfalse

theorem detachDeleteNode_tidy {nid : Nat} (ht : Tidy T L s) (hi : s.Inv top L)
    (hact : Active top s T) (hs : s.Sound) (hnode : Deletable T (nodeTable.record s nid))
    (hdel : ∀ rid ∈ s.incident T nid, Deletable T (rshipTable.record s rid))
    (hlists : s.ListsNode T L nid) : always (detachDeleteNode T nid) (Tidy T L) s := by
  simp only [detachDeleteNode, always, wp_bind]
  refine wp_checkTxContext_active hact ?_
  refine wp_mono (nodeById_calm hi hact) ?_ (fun _ _ hc => hc.tidy ht)
  rintro n s1 ⟨c1, hr⟩
  simp only [wp_get, wp_ofExcept]
  refine ⟨fun r hlock => ?_, fun _ _ => c1.tidy ht⟩
  rw [wp_modify]
  have c2 := hr.calm_lockNode hi hact hlock
  obtain ⟨o2, hlist, hcase⟩ := hr.lock hi.nodes hact hlock
  have hact2 := hact.congr o2.tx
  have hrec : nodeTable.record (nodeTable.setRecord nid r s1) n.id = r := by
    rw [hr.ref, nodeView.record_setRecord, if_pos rfl]
  have hprops : nodeTable.props (nodeTable.setRecord nid r s1) = nodeTable.props s := by
    rw [nodeView.props_setRecord, hr.store, nodeView.props_setRecord]
  have hrships : (nodeTable.setRecord nid r s1).rships = s.rships := by
    rw [hr.store]
    rfl
  rw [← o2.tx.activeTx, ← hprops] at hcase
  generalize nodeTable.setRecord nid r s1 = s2 at *
  rw [← hr.ref] at hcase
  cases ho : r.deref n.loc with
  | none =>
      simp only [Table.read, wp_bind, wp_get, hrec, ho, wp_throw]
      exact c2.tidy ht
  | some o =>
      refine Table.read_some (hrec.symm ▸ ho) ?_
      refine ⟨fun outgoing hout => ⟨fun incoming hin => ?_, fun _ _ => c2.tidy ht⟩,
        fun _ _ => c2.tidy ht⟩
      obtain ⟨hv, o', ho', hdata⟩ := hr.deref_data hi.nodes hlock hlist ho
      rw [hrships, collectRships_congr hrships] at hout hin
      have hinc : s.incident T nid = outgoing ++ incoming := by
        simp only [GraphDb.incident, hv, ho', hdata, hout, hin]
        rfl
      rw [hinc] at hdel
      -- the walks have collected all relationships that the caller sees
      have hall : ∀ rid e, SeesRship T L s rid e → Touches e nid →
          rid ∈ outgoing ++ incoming := by
        intro rid e hsee htouch
        obtain ⟨⟨l, hp, hl⟩, l', hp', hl'⟩ := hlists _ ⟨_, o', hv, ho', hdata⟩
        rw [collectRships_path hp _ (hs.length_le hp)] at hout
        rw [collectRships_path hp' _ (hs.length_le hp')] at hin
        rcases htouch with he | he
        · refine List.mem_append_left _ ?_
          rw [← Except.ok.inj hout]
          exact List.mem_filter.mpr (hl rid e hsee he)
        · refine List.mem_append_right _ ?_
          rw [← Except.ok.inj hin]
          exact List.mem_filter.mpr (hl' rid e hsee he)
      have hi2 := (hi.ofNodes o2).inv hi
      refine wp_mono (deleteRelationships_calm hi2 hact2 fun rid hrid => ?_) ?_ ?_
      · have hrid' := hdel rid hrid
        rw [Table.record, show rshipTable.vec s2 = rshipTable.vec s from hrships]
        exact hrid'
      · rintro _ s3 ⟨o3, c3, hgone⟩
        have hi3 := (hi2.ofRships o3).inv hi2
        have hsame := o3.rest
        simp only [rshipView, Prod.mk.injEq] at hsame
        obtain ⟨hn, hnp, _⟩ := hsame
        have hrec3 : nodeTable.record s3 n.id = r := by rw [rshipOp_node o3, hrec]
        rw [← o3.tx.activeTx, ← show nodeTable.props s3 = nodeTable.props s2 from hnp]
          at hcase
        have hdel' : Deletable T r := by
          rw [Deletable, Record.getDirtyVersion, hlist]
          exact hnode
        refine wp_mono (addDeleted_deletable hi3.nodes hact.ne_zero hrec3 hdel' hcase) ?_
          (fun _ _ hf => hf.elim)
        intro _ s4 hrm
        have hact3 := hact2.congr o3.tx
        have hop := hrm.op hi3.nodes hact3
        rw [hr.ref] at hrm
        have c13 := c2.trans c3
        refine hrm.tidy_node (c13.tidy ht) hi3 hact3 hop fun rid e hsee htouch => ?_
        exact hgone rid (hall rid e (c13.sees rid e hsee) htouch) e hsee
      · intro _ s3 c3
        exact (c2.trans c3).tidy ht

/-- `T` may read the node and lock what it has read. -/
def GraphDb.Lockable (s : GraphDb) (T nid : Nat) : Prop :=
  ∃ l r, (nodeTable.record s nid).used = true ∧
    (nodeTable.record s nid).getValidVersion T = .ok l ∧
    ((nodeTable.record s nid).recordRead T).lockForWrite l T = .ok r

/-- `delete_node` of a node that has a relationship. -/
theorem deleteNode_orphaned {nid rid : Nat} {e : Nat × Nat} (hi : s.Inv top L)
    (hact : Active top s T) (hs : s.Sound)
    (hdel : (nodeTable.record s nid).getDirtyVersion T = none) (hlk : s.Lockable T nid)
    (hshow : s.ShowsNode T L nid) (hsee : SeesRship T L s rid e) (htouch : Touches e nid) :
    ∃ s', deleteNode T nid s = .error .orphanedRelationship s' := by
  obtain ⟨l, r, hu, hv, hlock⟩ := hlk
  obtain ⟨s1, hret⟩ := (Table.byId_returns (n := ⟨nid, l⟩) nodeTable_keepsSound hs
    hact.running).mpr ⟨rfl, hu, hv⟩
  have hr : ReadBy nodeTable T nid s ⟨nid, l⟩ s1 :=
    (wp_ok (nodeById_spec (W := 0) hi hact) hret).2
  have hw : wp (deleteNode T nid) (fun _ _ => False)
      (fun e _ => e = .orphanedRelationship) s := by
    simp only [deleteNode, wp_bind]
    refine wp_checkTxContext_active hact (wp_of_ok hret ?_)
    rw [← hr.record nodeView] at hlock
    simp only [wp_get, wp_ofExcept, hlock]
    refine ⟨fun r' hr' => ?_, fun _ he => (by cases he)⟩
    cases hr'
    rw [wp_modify]
    obtain ⟨_, hlist, hcase⟩ := hr.lock hi.nodes hact hlock
    rcases hcase with ⟨dn, hf, _⟩ | ⟨hloc, _⟩
    · have hg := hf.getDirtyVersion
      rw [Record.getDirtyVersion, hlist] at hg
      rw [Record.getDirtyVersion, hg] at hdel
      cases hdel
    · obtain ⟨_, o', ho', hdata⟩ := hr.deref_data hi.nodes hlock hlist
        (o := r.obj) (by rw [hloc]; rfl)
      obtain ⟨htrue, hne⟩ := hshow.found hs ⟨_, o', hv, ho', hdata⟩ hsee htouch
      have hrec : nodeTable.record (nodeTable.setRecord nid r s1) nid = r := by
        rw [nodeView.record_setRecord, if_pos rfl]
      have hrships : (nodeTable.setRecord nid r s1).rships = s.rships := by
        rw [hr.store]
        rfl
      refine Table.read_slot hloc ?_
      rw [hrec]
      refine wp_ite (fun _ => ?_) fun hno => absurd hne hno
      simp only [wp_bind, wp_get, wp_ofExcept, hasValidRshipsOf_congr hrships, htrue]
      refine ⟨fun b hb => ?_, fun _ he => (by cases he)⟩
      cases hb
      exact wp_ite (fun _ => rfl) fun hno => absurd rfl hno
  obtain ⟨_, s', hx, rfl⟩ := wp_exists_error hw
  exact ⟨s', hx⟩

end Calls

end Poseidon
