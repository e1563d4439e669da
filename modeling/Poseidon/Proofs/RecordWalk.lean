import Poseidon.Proofs.Sound

/-!
# What every call keeps of the records

No call looks at more of a record than it needs: it changes the object in the
slot, changes dirty versions where they are, drops some of them or puts a new
one with a fresh address in front. A property of records that these changes
keep holds of every record in every state. One of them is that the addresses
of the dirty versions are below the next one and all different, so that a
reference to a version is a reference to one version only.
-/

namespace Poseidon

open Wp

/-- A property of records that the calls keep. -/
structure RecordInv (K : {α : Type} → Record α → Prop) : Prop where
  slot : ∀ {α : Type} {r : Record α} (used : Bool) (o : Obj α), K r →
    K { r with used := used, obj := o }
  list : ∀ {α : Type} {r : Record α} {l : List (DirtyObject α)},
    (l.map DirtyObject.addr).Sublist (r.dirtyList.map DirtyObject.addr) → K r →
    K { r with dirtyList := l }
  push : ∀ {α : Type} {r : Record α} (b : Bool) (o : Obj α) (ps : List PItem), K r →
    K { r with dirtyList := ⟨r.nextAddr, b, o, ps⟩ :: r.dirtyList, nextAddr := r.nextAddr + 1 }

/-- It holds of all records. -/
structure GraphDb.All (K : {α : Type} → Record α → Prop) (s : GraphDb) : Prop where
  nodes : ∀ id, K (s.nodes.slots id)
  rships : ∀ id, K (s.rships.slots id)

variable {K : {α : Type} → Record α → Prop} {α : Type}

theorem GraphDb.All.congr {s s' : GraphDb} (h : s.All K) (hn : s'.nodes = s.nodes)
    (hr : s'.rships = s.rships) : s'.All K := ⟨hn ▸ h.nodes, hr ▸ h.rships⟩

/-- What the walk over the shared code needs of a table. -/
structure Table.Walks (t : Table α) : Prop where
  record : ∀ {K : {α : Type} → Record α → Prop} s id, s.All K → K (t.record s id)
  setRecord : ∀ {K : {α : Type} → Record α → Prop} s id r, s.All K → K r →
    (t.setRecord id r s).All K
  addDirty : ∀ {K : {α : Type} → Record α → Prop} s x id, s.All K → (t.addDirty x id s).All K
  setProps : ∀ {K : {α : Type} → Record α → Prop} s p, s.All K → (t.setProps p s).All K
  record_setRecord : ∀ s id r, t.record (t.setRecord id r s) id = r
  record_setProps : ∀ s id p, t.record (t.setProps p s) id = t.record s id

theorem Vec.all_put {v : Vec α} {P : Record α → Prop} {id : Nat} {r : Record α}
    (h : ∀ i, P (v.slots i)) (hr : P r) (i : Nat) : P ((v.put id r).slots i) := by
  simp only [Vec.put]
  split
  · exact hr
  · exact h i

theorem nodeTable_walks : nodeTable.Walks where
  record _ id h := h.nodes id
  setRecord _ _ _ h hr := ⟨Vec.all_put h.nodes hr, h.rships⟩
  addDirty _ _ _ h := h.congr rfl rfl
  setProps _ _ h := h.congr rfl rfl
  record_setRecord _ _ _ := if_pos rfl
  record_setProps _ _ _ := rfl

theorem rshipTable_walks : rshipTable.Walks where
  record _ id h := h.rships id
  setRecord _ _ _ h hr := ⟨h.nodes, Vec.all_put h.rships hr⟩
  addDirty _ _ _ h := h.congr rfl rfl
  setProps _ _ h := h.congr rfl rfl
  record_setRecord _ _ _ := if_pos rfl
  record_setProps _ _ _ := rfl

/-! ## Records -/

section Records

variable (hK : RecordInv K) {r r' : Record α}
include hK

theorem RecordInv.obj (o : Obj α) (h : K r) : K { r with obj := o } := hK.slot r.used o h

theorem RecordInv.sublist {l : List (DirtyObject α)} (hl : l.Sublist r.dirtyList) (h : K r) :
    K { r with dirtyList := l } := hK.list (hl.map _) h

theorem RecordInv.map {f : DirtyObject α → DirtyObject α} (hf : ∀ dn, (f dn).addr = dn.addr)
    (h : K r) : K { r with dirtyList := r.dirtyList.map f } := by
  refine hK.list ?_ h
  have haddr : (r.dirtyList.map f).map DirtyObject.addr = r.dirtyList.map DirtyObject.addr := by
    rw [List.map_map]
    exact List.map_congr_left fun dn _ => hf dn
  rw [haddr]

theorem RecordInv.modifyAt (l : Loc) (f : Obj α → Obj α) (h : K r) : K (r.modifyAt l f) := by
  cases l with
  | slot => exact hK.obj _ h
  | copy a =>
      refine hK.map (fun dn => ?_) h
      split
      · rfl
      · rfl

theorem RecordInv.addDirtyVersion (l : Loc) (o : Obj α) (ps : List PItem) (b : Bool) (h : K r) :
    K (r.addDirtyVersion l o ps b) := hK.push b _ ps (hK.modifyAt l _ h)

theorem RecordInv.modifyDirty (a : Nat) {f : DirtyObject α → DirtyObject α}
    (hf : ∀ dn, (f dn).addr = dn.addr) (h : K r) : K (r.modifyDirty a f) := by
  refine hK.map (fun dn => ?_) h
  split
  · exact hf dn
  · rfl

theorem RecordInv.lockForWrite {l : Loc} {xid : Nat} (h : K r)
    (hl : r.lockForWrite l xid = .ok r') : K r' := by
  simp only [Record.lockForWrite] at hl
  split at hl
  · cases hl
  split at hl
  · cases hl
  split at hl
  · cases hl
    exact h
  split at hl
  · cases hl
    exact hK.modifyAt l _ h
  · cases hl

theorem RecordInv.popUnlock (h : K r) (hp : r.popUnlock = .ok r') : K r' := by
  simp only [Record.popUnlock] at hp
  split at hp
  · next dn d rest hl =>
    cases hp
    refine hK.list ?_ h
    rw [hl]
    exact List.sublist_cons_self ..
  · cases hp

end Records

/-! ## The shared code of the tables -/

section Tables

variable (hK : RecordInv K) {t : Table α} (ht : t.Walks)

theorem read_all {n : Ref} {s : GraphDb} (h : s.All K) : always (t.read n) (GraphDb.All K) s := by
  simp only [Table.read, always, wp_bind, wp_get]
  split
  · exact h
  · exact h

/-- A record is read as it is. -/
theorem wp_getRecord_self {id : Nat} {s : GraphDb} :
    wp (t.getRecord id) (fun r s' => s' = s ∧ r = t.record s id) (fun _ s' => s' = s) s := by
  unfold Table.getRecord
  rw [wp_bind, wp_get, wp_ofExcept]
  refine ⟨fun r hr => ⟨rfl, ?_⟩, fun _ _ => rfl⟩
  simp only [Vec.get] at hr
  split at hr
  · cases hr
    rfl
  · cases hr

/-- A computation on the property table changes nothing else. -/
theorem wp_onProps {β : Type} {x : EStateM Err PropertyList β} {s : GraphDb} {P : GraphDb → Prop}
    (h : ∀ p, P (t.setProps p s)) : always (t.onProps x) P s := by
  simp only [Table.onProps, always, wp]
  split
  · next heq =>
    split at heq
    · cases heq
      exact h _
    · cases heq
  · next heq =>
    split at heq
    · cases heq
    · cases heq
      exact h _

include hK ht

theorem byId_all {xid id : Nat} {s : GraphDb} (h : s.All K) :
    always (t.byId xid id) (GraphDb.All K) s := by
  simp only [Table.byId, always, wp_bind, wp_checkTxContext]
  refine ⟨fun _ => wp_mono wp_getRecord_self ?_ (fun _ _ hs => hs ▸ h), fun _ => h⟩
  rintro r s' ⟨rfl, rfl⟩
  rw [wp_modify]
  exact wp_mono (always_ofExcept (ht.setRecord _ _ _ h (hK.obj _ (ht.record _ id h))))
    (fun _ _ h => h) (fun _ _ h => h)

theorem lockRead_all {xid id : Nat} {l : Loc} {r : Record α} {s : GraphDb} (h : s.All K)
    (hr : (t.record s id).lockForWrite l xid = .ok r) : K r ∧ (t.setRecord id r s).All K := by
  have hp := hK.lockForWrite (ht.record s id h) hr
  exact ⟨hp, ht.setRecord _ _ _ h hp⟩

theorem update_all {xid : Nat} {n : Ref} {fp : List PItem → List PItem} {fd : α → α}
    {s : GraphDb} (h : s.All K) : always (t.update xid n fp fd) (GraphDb.All K) s := by
  simp only [Table.update, always, wp_bind, wp_get, wp_ofExcept]
  refine ⟨fun r hr => ?_, fun _ _ => h⟩
  obtain ⟨hrp, h1⟩ := lockRead_all hK ht h hr
  rw [wp_modify]
  split
  · simp only [wp_bind, wp_modify, wp_pure]
    exact ht.setRecord _ _ _ h1 (hK.modifyDirty _ (fun _ => rfl) hrp)
  · simp only [wp_bind]
    refine wp_mono (read_all h1) ?_ (fun _ _ h => h)
    intro o s' h'
    simp only [wp_get, wp_ofExcept, wp_modify, wp_pure]
    refine ⟨fun _ _ => ?_, fun _ _ => h'⟩
    exact ht.addDirty _ _ _ (ht.setRecord _ _ _ h'
      (hK.addDirtyVersion _ _ _ _ (hK.addDirtyVersion _ _ _ _ hrp)))

theorem addDeleted_all {xid : Nat} {n : Ref} {keep : Record α → Bool} {s : GraphDb}
    (h : s.All K) : always (t.addDeleted xid n keep) (GraphDb.All K) s := by
  simp only [Table.addDeleted, always, wp_bind, wp_get]
  refine wp_mono (read_all h) ?_ (fun _ _ h => h)
  intro o s' h'
  have hr := ht.record s n.id h
  refine wp_ite (fun _ => ?_) fun _ => ?_
  · simp only [wp_bind, wp_get, wp_ofExcept, wp_pure, wp_modify]
    refine ⟨fun _ _ => ?_, fun _ _ => h'⟩
    exact ht.addDirty _ _ _ (ht.setRecord _ _ _ h'
      (hK.addDirtyVersion _ _ _ _ (hK.addDirtyVersion _ _ _ _ hr)))
  · simp only [wp_bind, wp_pure, wp_modify]
    exact ht.addDirty _ _ _ (ht.setRecord _ _ _ h' (hK.addDirtyVersion _ _ _ _ hr))

theorem insert_all {xid slot : Nat} {d : α} {props : List PItem} {s : GraphDb} (h : s.All K) :
    always (t.insert xid slot d props) (GraphDb.All K) s := by
  simp only [Table.insert, always, wp_bind, wp_get]
  refine wp_ite (fun _ => h) fun _ => ?_
  simp only [wp_bind, wp_modify]
  refine ht.addDirty _ _ _ (ht.setRecord _ _ _ h (hK.addDirtyVersion _ _ _ _ ?_))
  exact hK.slot _ _ (hK.sublist (List.nil_sublist _) (ht.record s slot h))

theorem modifyObj_all {id : Nat} (f : Obj α → Obj α) {s : GraphDb} (h : s.All K) :
    (t.modifyObj id f s).All K := ht.setRecord _ _ _ h (hK.obj _ (ht.record s id h))

/-- Copying properties changes the property table and the slot of the record. -/
theorem copyProperties_all {id : Nat} {dn : DirtyObject α} {s : GraphDb} (h : s.All K) :
    always (t.copyProperties id dn) (fun s' => s'.All K ∧
      (t.record s' id).dirtyList = (t.record s id).dirtyList) s := by
  simp only [Table.copyProperties, always]
  refine wp_ite (fun _ => ⟨h, rfl⟩) fun _ => ?_
  simp only [wp_bind, wp_get]
  have tail : ∀ (x : EStateM Err PropertyList Nat), wp (t.onProps x)
      (fun b s' => (t.modifyObj id (fun o => { o with data := t.setPropertyList b o.data })
          s').All K ∧
        (t.record (t.modifyObj id (fun o => { o with data := t.setPropertyList b o.data }) s')
          id).dirtyList = (t.record s id).dirtyList)
      (fun _ s' => s'.All K ∧ (t.record s' id).dirtyList = (t.record s id).dirtyList) s := by
    intro x
    refine wp_mono (@wp_onProps _ _ _ x s (fun s' => s'.All K ∧
      (t.record s' id).dirtyList = (t.record s id).dirtyList) fun p => ?_) ?_ (fun _ _ h => h)
    · exact ⟨ht.setProps _ _ h, by rw [ht.record_setProps]⟩
    · rintro b s' ⟨h', hl⟩
      refine ⟨modifyObj_all hK ht _ h', ?_⟩
      rw [Table.modifyObj, ht.record_setRecord]
      exact hl
  refine wp_ite (fun _ => ?_) fun _ => ?_
  · simp only [wp_bind, wp_get, wp_modify]
    refine wp_ofExcept.mpr ⟨fun _ _ => tail _, fun _ _ => ⟨h, rfl⟩⟩
  · rw [wp_bind]
    exact tail _

theorem commitDirty_all {onInsert onUpdate : α → α → α} {onDelete : α → α} {xid id : Nat}
    {s : GraphDb} (h : s.All K) :
    always (t.commitDirty onInsert onUpdate onDelete xid id) (GraphDb.All K) s := by
  have unlockGc : ∀ s : GraphDb, s.All K →
      (t.setRecord id ((t.record (t.modifyObj id Obj.unlock s) id).gc
        (t.modifyObj id Obj.unlock s).oldestXid) (t.modifyObj id Obj.unlock s)).All K := by
    intro s h
    have h' := @modifyObj_all _ _ hK _ ht id Obj.unlock _ h
    exact ht.setRecord _ _ _ h' (hK.sublist List.filter_sublist (ht.record _ id h'))
  have pop : ∀ s : GraphDb, s.All K → ∀ r, (t.record s id).popUnlock = .ok r →
      (t.setRecord id r s).All K :=
    fun s h r hr => ht.setRecord _ _ _ h (hK.popUnlock (ht.record s id h) hr)
  simp only [Table.commitDirty, always, wp_bind]
  refine wp_mono wp_getRecord_self ?_ (fun _ _ hs => hs ▸ h)
  rintro r s1 ⟨rfl, rfl⟩
  have hr := ht.record s1 id h
  refine wp_ite (fun _ => ?_) fun _ => ?_
  · simp only [wp_bind, wp_modify, wp_pure]
    exact ht.setRecord _ _ _ h (hK.sublist List.filter_sublist hr)
  split
  · exact h
  · next dn rest hl =>
    refine wp_ite (fun _ => ?_) fun _ => ?_
    · simp only [wp_bind, wp_modify]
      refine wp_mono (copyProperties_all hK ht h) ?_ (fun _ _ h => h.1)
      rintro _ s2 ⟨h2, hl2⟩
      have h3 := @modifyObj_all _ _ hK _ ht id (fun o => { o with
        bts := xid, cts := INF, data := onInsert o.data dn.elem.data }) _ h2
      refine unlockGc _ (ht.setRecord _ _ _ h3 (hK.sublist ?_ (ht.record _ id h3)))
      rw [Table.modifyObj, ht.record_setRecord]
      change rest.Sublist (t.record s2 id).dirtyList
      rw [hl2, hl]
      exact List.sublist_cons_self ..
    refine wp_ite (fun _ => ?_) fun _ => ?_
    · simp only [wp_bind, wp_get, wp_modify]
      refine wp_mono (always_ofExcept h) ?_ (fun _ _ h => h)
      intro _ s2 h2
      have h3 : (t.modifyObj id (fun o => { o with cts := xid })
          { s2 with garbage := s2.garbage ++ [⟨xid, id, t.gcType⟩] }).All K :=
        modifyObj_all hK ht _ (h2.congr rfl rfl)
      refine wp_mono (always_ofExcept h3) ?_ (fun _ _ h => h)
      intro _ s4 h4
      rw [wp_ofExcept]
      refine ⟨fun r' hr' => ?_, fun _ _ => h4⟩
      have h5 := pop _ h4 _ hr'
      refine wp_mono (wp_onProps fun p => ht.setProps _ p h5) ?_ (fun _ _ h => h)
      intro _ s6 h6
      exact unlockGc _ (modifyObj_all hK ht _ h6)
    · simp only [wp_bind, wp_get, wp_modify]
      refine wp_mono (copyProperties_all hK ht (modifyObj_all hK ht _ h)) ?_ (fun _ _ h => h.1)
      rintro _ s2 ⟨h2, -⟩
      rw [wp_ofExcept]
      exact ⟨fun r' hr' => unlockGc _ (pop _ h2 _ hr'), fun _ _ => h2⟩

theorem abortDirty_all {xid id : Nat} {s : GraphDb} (h : s.All K) :
    always (t.abortDirty xid id) (GraphDb.All K) s := by
  simp only [Table.abortDirty, always, wp_bind]
  refine wp_mono wp_getRecord_self ?_ (fun _ _ hs => hs ▸ h)
  rintro r s1 ⟨rfl, rfl⟩
  rw [wp_modify]
  have hsub : K ((t.record s1 id).removeDirtyVersion xid) :=
    hK.sublist List.filter_sublist (ht.record s1 id h)
  refine ht.setRecord _ _ _ h ?_
  split
  · exact hK.obj _ hsub
  · exact hK.slot _ _ hsub

end Tables

/-! ## The calls -/

section Calls

variable (hK : RecordInv K) {s : GraphDb}

theorem checkTxContext_all {xid : Nat} (h : s.All K) :
    always (checkTxContext xid) (GraphDb.All K) s := wp_checkTxContext.mpr ⟨fun _ => h, fun _ => h⟩

include hK

theorem modifyRship_all {rid : Nat} (f : RshipData → RshipData) (h : s.All K) :
    (modifyRship rid f s).All K :=
  rshipTable_walks.setRecord _ _ _ h (hK.obj _ (rshipTable_walks.record s rid h))

theorem updateFromNode_all {xid : Nat} {n : Ref} {rid : Nat} (h : s.All K) :
    always (updateFromNode xid n rid) (GraphDb.All K) s := by
  refine always_bind (update_all hK nodeTable_walks h) fun old s1 h1 => ?_
  exact wp_ite (fun _ => modifyRship_all hK _ h1) fun _ => h1

theorem updateToNode_all {xid : Nat} {n : Ref} {rid : Nat} (h : s.All K) :
    always (updateToNode xid n rid) (GraphDb.All K) s := by
  refine always_bind (update_all hK nodeTable_walks h) fun old s1 h1 => ?_
  exact wp_ite (fun _ => modifyRship_all hK _ h1) fun _ => h1

theorem addRelationship_all {xid slot fromId toId label : Nat} {props : List PItem}
    (h : s.All K) :
    always (addRelationship xid slot fromId toId label props) (GraphDb.All K) s := by
  refine always_bind (checkTxContext_all h) fun _ s1 h1 => ?_
  refine always_bind (byId_all hK nodeTable_walks h1) fun fromNode s2 h2 => ?_
  refine always_bind (byId_all hK nodeTable_walks h2) fun toNode s3 h3 => ?_
  refine always_bind (insert_all hK rshipTable_walks h3) fun _ s4 h4 => ?_
  exact always_bind (updateFromNode_all hK h4) fun _ s5 h5 => updateToNode_all hK h5

theorem deleteNode_all {xid nid : Nat} (h : s.All K) :
    always (deleteNode xid nid) (GraphDb.All K) s := by
  refine always_bind (checkTxContext_all h) fun _ s1 h1 => ?_
  refine always_bind (byId_all hK nodeTable_walks h1) fun n s2 h2 => ?_
  simp only [always, wp_bind, wp_get, wp_modify, wp_ofExcept]
  refine ⟨fun r hr => ?_, fun _ _ => h2⟩
  obtain ⟨hp, h3⟩ := lockRead_all hK nodeTable_walks h2 hr
  refine wp_mono (read_all h3) ?_ (fun _ _ h => h)
  intro o s4 h4
  have hdel := @addDeleted_all _ _ hK _ nodeTable_walks xid n (fun _ => true) _ h4
  refine wp_ite (fun _ => ?_) fun _ => hdel
  simp only [wp_bind, wp_get, wp_ofExcept]
  refine ⟨fun b _ => wp_ite (fun _ => ?_) fun _ => hdel, fun _ _ => h4⟩
  simp only [wp_bind, wp_modify, wp_throw]
  exact nodeTable_walks.setRecord _ _ _ h4 (hK.modifyAt _ _ hp)

theorem deleteRelationship_all {xid rid : Nat} (h : s.All K) :
    always (deleteRelationship xid rid) (GraphDb.All K) s := by
  refine always_bind (checkTxContext_all h) fun _ s1 h1 => ?_
  refine always_bind (byId_all hK rshipTable_walks h1) fun n s2 h2 => ?_
  simp only [always, wp_bind, wp_get, wp_modify, wp_ofExcept]
  exact ⟨fun r hr => addDeleted_all hK rshipTable_walks
    (lockRead_all hK rshipTable_walks h2 hr).2, fun _ _ => h2⟩

theorem detachDeleteNode_all {xid nid : Nat} (h : s.All K) :
    always (detachDeleteNode xid nid) (GraphDb.All K) s := by
  refine always_bind (checkTxContext_all h) fun _ s1 h1 => ?_
  refine always_bind (byId_all hK nodeTable_walks h1) fun n s2 h2 => ?_
  simp only [always, wp_bind, wp_get, wp_modify, wp_ofExcept]
  refine ⟨fun r hr => ?_, fun _ _ => h2⟩
  refine wp_mono (read_all (lockRead_all hK nodeTable_walks h2 hr).2) ?_ (fun _ _ h => h)
  intro o s3 h3
  refine ⟨fun outgoing _ => ⟨fun incoming _ => ?_, fun _ _ => h3⟩, fun _ _ => h3⟩
  refine wp_mono (always_forM (fun rid _ s h => deleteRelationship_all hK h) h3) ?_
    (fun _ _ h => h)
  exact fun _ _ h4 => addDeleted_all hK nodeTable_walks h4

theorem unlinkLoop_all {next : RshipData → Nat} {setNext : Nat → RshipData → RshipData}
    {oid newNext fuel prevId : Nat} (h : s.All K) :
    always (unlinkLoop next setNext oid newNext fuel prevId) (GraphDb.All K) s := by
  induction fuel generalizing prevId with
  | zero => exact wp_ite (fun _ => h) fun _ => h
  | succ fuel ih =>
      refine wp_ite (fun _ => h) fun _ => ?_
      rw [wp_bind]
      refine wp_mono wp_getRecord_self ?_ fun _ _ hs => hs ▸ h
      rintro p s' ⟨rfl, -⟩
      exact wp_ite (fun _ => modifyRship_all hK _ h) fun _ => ih

theorem unlinkFrom_all {head : NodeData → Nat} {setHead : Nat → NodeData → NodeData}
    {next : RshipData → Nat} {setNext : Nat → RshipData → RshipData} {nid oid newNext : Nat}
    (h : s.All K) :
    always (unlinkFrom head setHead next setNext nid oid newNext) (GraphDb.All K) s := by
  unfold unlinkFrom
  rw [always, wp_bind]
  refine wp_mono wp_getRecord_self ?_ fun _ _ hs => hs ▸ h
  rintro n s' ⟨rfl, -⟩
  exact wp_ite (fun _ => modifyObj_all hK nodeTable_walks _ h) fun _ => unlinkLoop_all hK h

theorem vacuumItem_all {g : GcItem} (h : s.All K) :
    always (vacuumItem g) (GraphDb.All K) s := by
  have free : ∀ {α : Type} {t : Table α}, t.Walks → ∀ {s : GraphDb}, s.All K →
      (t.free g.oid s).All K :=
    fun ht _ h => ht.setRecord _ _ _ h (hK.slot false _ (ht.record _ g.oid h))
  have gc : ∀ {α : Type} {t : Table α}, t.Walks →
      (t.setRecord g.oid ((t.record s g.oid).gc s.oldestXid) s).All K :=
    fun ht => ht.setRecord _ _ _ h (hK.sublist List.filter_sublist (ht.record _ g.oid h))
  simp only [vacuumItem, always]
  split
  · rw [wp_bind]
    refine wp_mono wp_getRecord_self ?_ fun _ _ hs => hs ▸ h
    rintro r s1 ⟨rfl, rfl⟩
    simp only [wp_bind, wp_get, wp_modify]
    refine wp_ite (fun _ => gc nodeTable_walks) fun _ => ?_
    exact free nodeTable_walks (gc nodeTable_walks)
  · rw [wp_bind]
    refine wp_mono wp_getRecord_self ?_ fun _ _ hs => hs ▸ h
    rintro r s1 ⟨rfl, rfl⟩
    simp only [wp_bind, wp_get, wp_modify]
    refine wp_ite (fun _ => gc rshipTable_walks) fun _ => ?_
    refine always_bind (unlinkFrom_all hK (gc rshipTable_walks)) fun _ s3 h3 => ?_
    refine always_bind (unlinkFrom_all hK h3) fun _ s4 h4 => ?_
    exact free rshipTable_walks h4

theorem vacuum_all (h : s.All K) : always vacuum (GraphDb.All K) s := by
  have loop : ∀ (rest kept : List GcItem) (s : GraphDb), s.All K →
      always (vacuumLoop kept rest) (GraphDb.All K) s := by
    intro rest
    induction rest with
    | nil => exact fun _ _ h => h
    | cons g rest ih =>
        intro kept s h
        refine always_bind (vacuumItem_all hK h) fun b s1 h1 => ?_
        exact wp_ite (fun _ => ih kept _ (h1.congr rfl rfl)) fun _ => ih _ s1 h1
  exact loop s.garbage [] s h

theorem commitTransaction_all {xid : Nat} (h : s.All K) :
    always (commitTransaction xid) (GraphDb.All K) s := by
  refine always_bind (checkTxContext_all h) fun _ s1 h1 => ?_
  have h2 : (leaveActive xid s1).All K := h1.congr rfl rfl
  simp only [always, wp_bind, wp_get, wp_modify, wp_pure]
  refine wp_mono (always_forM (fun id _ s h => commitDirty_all hK rshipTable_walks h) h2) ?_
    (fun _ _ h => h)
  intro _ s3 h3
  refine wp_mono (always_forM (fun id _ s h => commitDirty_all hK nodeTable_walks h) h3) ?_
    (fun _ _ h => h)
  intro _ s4 h4
  exact wp_mono (vacuum_all hK (h4.congr rfl rfl)) (fun _ _ h => h) (fun _ _ h => h)

theorem abortTransaction_all {xid : Nat} (h : s.All K) :
    always (abortTransaction xid) (GraphDb.All K) s := by
  simp only [abortTransaction, always, wp_bind, wp_get]
  refine wp_ite (fun _ => h) fun _ => ?_
  have h2 : (leaveActive xid s).All K := h.congr rfl rfl
  simp only [wp_bind, wp_get, wp_modify, wp_pure]
  refine wp_mono (always_forM (fun id _ s h => abortDirty_all hK nodeTable_walks h) h2) ?_
    (fun _ _ h => h)
  intro _ s3 h3
  refine wp_mono (always_forM (fun id _ s h => abortDirty_all hK rshipTable_walks h) h3) ?_
    (fun _ _ h => h)
  intro _ s4 h4
  exact wp_mono (vacuum_all hK h4) (fun _ _ h => h.congr rfl rfl) (fun _ _ h => h)

/-- One step of the system. -/
theorem Sys.step_all {s : Sys} (a : Step) (h : s.db.All K) : (s.step a).db.All K := by
  simp only [Sys.step]
  cases a <;> simp only [Sys.exec]
  case begin xid =>
    split
    · exact h
    · refine Sys.call_db (fun _ _ => rfl) ?_
      simp only [beginTransaction, always, wp_bind, wp_get]
      exact wp_ite (fun _ => h) fun _ => h.congr rfl rfl
  case nodeById => exact Sys.call_db (fun _ _ => rfl) (byId_all hK nodeTable_walks h)
  case rshipById => exact Sys.call_db (fun _ _ => rfl) (byId_all hK rshipTable_walks h)
  case scanNodes => exact Sys.call_db (fun _ _ => rfl) (runScan_db h)
  case scanRships => exact Sys.call_db (fun _ _ => rfl) (runScan_db h)
  case addNode =>
    refine Sys.call_db (fun _ _ => rfl) (always_bind (checkTxContext_all h) fun _ _ h1 => ?_)
    exact insert_all hK nodeTable_walks h1
  case addRelationship => exact Sys.call_db (fun _ _ => rfl) (addRelationship_all hK h)
  case updateNode =>
    split
    · refine Sys.call_db (fun _ _ => rfl) (always_bind (checkTxContext_all h) fun _ _ h1 => ?_)
      exact always_bind (update_all hK nodeTable_walks h1) fun _ _ h2 => h2
    · exact h
  case updateRelationship =>
    split
    · refine Sys.call_db (fun _ _ => rfl) (always_bind (checkTxContext_all h) fun _ _ h1 => ?_)
      exact always_bind (update_all hK rshipTable_walks h1) fun _ _ h2 => h2
    · exact h
  case deleteNode => exact Sys.call_db (fun _ _ => rfl) (deleteNode_all hK h)
  case detachDeleteNode => exact Sys.call_db (fun _ _ => rfl) (detachDeleteNode_all hK h)
  case deleteRelationship => exact Sys.call_db (fun _ _ => rfl) (deleteRelationship_all hK h)
  case commit => exact Sys.call_db (fun _ _ => rfl) (commitTransaction_all hK h)
  case abort => exact Sys.call_db (fun _ _ => rfl) (abortTransaction_all hK h)

/-- What holds of a record that was never used holds of all records in every
state. -/
theorem Sys.run_all (hfresh : ∀ {α : Type} [Inhabited α], K (Record.fresh : Record α))
    (as : List Step) : (Sys.initial.run as).db.All K := by
  suffices h : ∀ s : Sys, s.db.All K → (s.run as).db.All K from
    h _ ⟨fun _ => hfresh, fun _ => hfresh⟩
  induction as with
  | nil => exact fun _ h => h
  | cons a as ih => exact fun s h => ih _ (Sys.step_all hK a h)

end Calls

/-! ## Addresses -/

/-- The addresses of the dirty versions are different, and the next one is not
in use. -/
structure Record.Addressed (r : Record α) : Prop where
  lt : ∀ a ∈ r.dirtyList.map DirtyObject.addr, a < r.nextAddr
  nodup : (r.dirtyList.map DirtyObject.addr).Nodup

theorem addressed_inv : RecordInv fun {_} r => r.Addressed where
  slot _ _ h := ⟨h.lt, h.nodup⟩
  list hl h := ⟨fun a ha => h.lt a (hl.subset ha), hl.nodup h.nodup⟩
  push _ _ _ h := by
    refine ⟨fun a ha => ?_, List.nodup_cons.mpr ⟨fun hm => ?_, h.nodup⟩⟩
    · rcases List.mem_cons.mp ha with rfl | ha
      · exact Nat.lt_succ_self _
      · exact Nat.lt_succ_of_lt (h.lt a ha)
    · exact Nat.lt_irrefl _ (h.lt _ hm)

theorem Sys.run_addressed (as : List Step) :
    (Sys.initial.run as).db.All fun {_} r => r.Addressed :=
  Sys.run_all addressed_inv ⟨fun _ ha => (by cases ha), .nil⟩ as

end Poseidon
