import Poseidon.Proofs.Items
import Poseidon.Store.System

/-!
# What holds in every run

`is_valid_for` lets every transaction see a record whose volatile part `d_`
is missing, so the reads are only meaningful because an insert prepares the
record before anybody else can get at it, and nothing takes the volatile
part away again. The same walk over all calls shows that a slot in use lies
below the size of its vector, which is what makes the scans complete, and
that every item with a key has a typed value.
-/

namespace Poseidon

open Wp

variable {α : Type}

/-- A record that may be put in a slot. -/
structure Record.Sound (r : Record α) : Prop where
  prepared : r.used = true → r.obj.prepared = true
  typed : ∀ dn ∈ r.dirtyList, Typed dn.properties

/-- A table of sound records, where the ones in use lie below its size. -/
structure Vec.Sound (v : Vec α) : Prop where
  slots : ∀ id, (v.slots id).Sound
  lt_size : ∀ id, (v.slots id).used = true → id < v.size

theorem Vec.Sound.put {v : Vec α} (h : v.Sound) (id : Nat)
    {r : Record α} (hr : r.Sound) : (v.put id r).Sound := by
  constructor
  · intro i
    simp only [Vec.put]
    split
    · exact hr
    · exact h.slots i
  · intro i hi
    simp only [Vec.put] at hi ⊢
    split at hi
    · next heq => omega
    · have := h.lt_size i hi
      omega

/-- The invariant of the store: prepared tables, and no transaction under
the id that stands for a free lock. -/
structure GraphDb.Sound (s : GraphDb) : Prop where
  nodes : s.nodes.Sound
  rships : s.rships.Sound
  nodeProperties : s.nodeProperties.Sound
  rshipProperties : s.rshipProperties.Sound
  noZero : (s.txs 0).running = false

/-- The parts of the store that the invariant does not look at. -/
theorem GraphDb.Sound.congr {s s' : GraphDb} (h : s.Sound)
    (hn : s'.nodes = s.nodes) (hr : s'.rships = s.rships)
    (hnp : s'.nodeProperties = s.nodeProperties)
    (hrp : s'.rshipProperties = s.rshipProperties)
    (htx : (s'.txs 0).running = (s.txs 0).running) : s'.Sound :=
  ⟨hn ▸ h.nodes, hr ▸ h.rships, hnp ▸ h.nodeProperties,
    hrp ▸ h.rshipProperties, htx.trans h.noZero⟩

theorem GraphDb.Sound.modifyTx {s : GraphDb} (h : s.Sound) (xid : Nat)
    {f : Transaction → Transaction}
    (hf : xid ≠ 0 ∨ ∀ t, t.running = false → (f t).running = false) :
    (s.modifyTx xid f).Sound := by
  refine ⟨h.nodes, h.rships, h.nodeProperties, h.rshipProperties, ?_⟩
  simp only [GraphDb.modifyTx]
  split
  · next heq =>
      rcases hf with hf | hf
      · exact absurd heq.symm hf
      · exact hf _ h.noZero
  · exact h.noZero

/-- What the walk over the shared code needs of a table. -/
structure Table.KeepsSound (t : Table α) : Prop where
  record : ∀ s id, s.Sound → (t.record s id).Sound
  setRecord : ∀ s id r, s.Sound → r.Sound → (t.setRecord id r s).Sound
  addDirty : ∀ s x id, s.Sound → (t.addDirty x id s).Sound
  props : ∀ s, s.Sound → (t.props s).Sound
  setProps : ∀ s p, s.Sound → p.Sound → (t.setProps p s).Sound

theorem nodeTable_keepsSound : nodeTable.KeepsSound where
  record _ id h := h.nodes.slots id
  setRecord _ id _ h hr := { h with nodes := h.nodes.put id hr }
  addDirty _ xid _ h := h.modifyTx xid (f := fun t => { t with
    dirtyNodes := t.dirtyNodes ++ [_] }) (.inr fun _ h => h)
  props _ h := h.nodeProperties
  setProps _ _ h hp := { h with nodeProperties := hp }

theorem rshipTable_keepsSound : rshipTable.KeepsSound where
  record _ id h := h.rships.slots id
  setRecord _ id _ h hr := { h with rships := h.rships.put id hr }
  addDirty _ xid _ h := h.modifyTx xid (f := fun t => { t with
    dirtyRships := t.dirtyRships ++ [_] }) (.inr fun _ h => h)
  props _ h := h.rshipProperties
  setProps _ _ h hp := { h with rshipProperties := hp }

/-! ## Records -/

theorem Obj.setRts_prepared (n : Obj α) (xid : Nat) :
    (n.prepare.setRts xid).prepared = true := by
  simp only [Obj.setRts]
  by_cases h : n.prepare.rts < xid
  · rw [if_pos h]; rfl
  · rw [if_neg h]; rfl

namespace Record

theorem sound_modifyAt {r : Record α} (h : r.Sound) (l : Loc)
    {f : Obj α → Obj α} (hf : ∀ o, o.prepared = true → (f o).prepared = true) :
    (r.modifyAt l f).Sound := by
  cases l with
  | slot => exact ⟨fun hu => hf _ (h.prepared hu), h.typed⟩
  | copy a =>
      refine ⟨h.prepared, fun dn hdn => ?_⟩
      obtain ⟨d, hd, rfl⟩ := List.mem_map.mp hdn
      split
      · exact h.typed d hd
      · exact h.typed d hd

theorem sound_addDirtyVersion {r : Record α} (h : r.Sound) (l : Loc)
    (o : Obj α) {ps : List PItem} (hps : Typed ps) (b : Bool) :
    (r.addDirtyVersion l o ps b).Sound := by
  have h' := sound_modifyAt h l (f := Obj.prepare) (fun _ _ => rfl)
  exact ⟨h'.prepared, List.forall_mem_cons.mpr ⟨hps, h'.typed⟩⟩

theorem sound_modifyDirty {r : Record α} (h : r.Sound) (a : Nat)
    {f : DirtyObject α → DirtyObject α}
    (hf : ∀ d, Typed d.properties → Typed (f d).properties) :
    (r.modifyDirty a f).Sound := by
  refine ⟨h.prepared, fun dn hdn => ?_⟩
  obtain ⟨d, hd, rfl⟩ := List.mem_map.mp hdn
  split
  · exact hf d (h.typed d hd)
  · exact h.typed d hd

theorem sound_subset {r : Record α} (h : r.Sound) {l : List (DirtyObject α)}
    (hl : ∀ dn ∈ l, dn ∈ r.dirtyList) : Record.Sound { r with dirtyList := l } :=
  ⟨h.prepared, fun dn hdn => h.typed dn (hl dn hdn)⟩

theorem sound_lockForWrite {r r' : Record α} {l : Loc} {xid : Nat}
    (h : r.Sound) (hl : r.lockForWrite l xid = .ok r') : r'.Sound := by
  simp only [lockForWrite] at hl
  split at hl
  · cases hl
  · next n hn =>
      split at hl
      · cases hl
      · split at hl
        · cases hl; exact h
        · split at hl
          · next n' hn' =>
              cases hl
              simp only [Obj.tryLock] at hn'
              split at hn'
              · cases hn'
                cases l with
                | slot => cases hn; exact ⟨h.prepared, h.typed⟩
                | copy a =>
                    refine ⟨h.prepared, fun dn hdn => ?_⟩
                    obtain ⟨d, hd, rfl⟩ := List.mem_map.mp hdn
                    split
                    · exact h.typed d hd
                    · exact h.typed d hd
              · cases hn'
          · cases hl

theorem sound_popUnlock {r r' : Record α} (h : r.Sound)
    (hp : r.popUnlock = .ok r') : r'.Sound := by
  simp only [popUnlock] at hp
  split at hp
  · next dn d rest hl =>
      cases hp
      have ht := h.typed
      rw [hl] at ht
      refine ⟨h.prepared, fun x hx => ?_⟩
      rcases List.mem_cons.mp hx with rfl | hx
      · exact ht d (by simp)
      · exact ht x (by simp [hx])
  · cases hp

end Record

/-! ## The shared code of the tables -/

theorem always_ofExcept {β : Type} {x : Except Err β} {P : GraphDb → Prop}
    {s : GraphDb} (h : P s) : always (ofExcept x) P s := by
  cases x with
  | ok b => exact h
  | error e => exact h

/-- The computation of an `Except` that succeeds, or its error. -/
theorem wp_ofExcept {β : Type} {x : Except Err β} {Q : β → GraphDb → Prop}
    {E : Err → GraphDb → Prop} {s : GraphDb} :
    wp (ofExcept x) Q E s ↔
      (∀ b, x = .ok b → Q b s) ∧ ∀ e, x = .error e → E e s := by
  cases x with
  | ok b =>
      constructor
      · intro h
        refine ⟨fun b hb => ?_, fun e he => (by cases he)⟩
        cases hb
        exact h
      · intro h; exact h.1 b rfl
  | error e =>
      constructor
      · intro h
        refine ⟨fun b hb => (by cases hb), fun e he => ?_⟩
        cases he
        exact h
      · intro h; exact h.2 e rfl

theorem wp_checkTxContext {xid : Nat} {Q : Unit → GraphDb → Prop}
    {E : Err → GraphDb → Prop} {s : GraphDb} :
    wp (checkTxContext xid) Q E s ↔
      ((s.txs xid).running = true → Q () s) ∧
      ((s.txs xid).running = false → E .outOfTransactionScope s) := by
  simp only [checkTxContext, wp_bind, wp_get]
  cases h : (s.txs xid).running with
  | true => simp
  | false => simp

section Tables

variable {t : Table α}

theorem Table.read_sound {n : Ref} {s : GraphDb} (h : s.Sound) :
    always (t.read n) GraphDb.Sound s := by
  simp only [Table.read, always, wp_bind, wp_get]
  split
  · exact h
  · exact h

variable (ht : t.KeepsSound)
include ht

theorem wp_getRecord {id : Nat} {s : GraphDb} (h : s.Sound) :
    wp (t.getRecord id) (fun r s' => s'.Sound ∧ r.Sound)
      (fun _ => GraphDb.Sound) s := by
  simp only [Table.getRecord, wp_bind, wp_get, wp_ofExcept]
  refine ⟨?_, fun _ _ => h⟩
  intro r hr
  simp only [Vec.get] at hr
  split at hr
  · cases hr; exact ⟨h, ht.record s id h⟩
  · cases hr

theorem Table.byId_sound {xid : Nat} {id : Nat} {s : GraphDb}
    (h : s.Sound) : always (t.byId xid id) GraphDb.Sound s := by
  simp only [Table.byId, always, wp_bind, wp_checkTxContext]
  refine ⟨fun _ => wp_mono (wp_getRecord ht h) ?_ (fun _ _ h => h), fun _ => h⟩
  rintro r s' ⟨h', hr⟩
  rw [wp_modify]
  refine wp_mono (always_ofExcept ?_) (fun _ _ h => h) (fun _ _ h => h)
  exact ht.setRecord _ _ _ h' ⟨fun _ => Obj.setRts_prepared _ _, hr.typed⟩

theorem Table.update_sound {xid : Nat} {n : Ref} {fp : List PItem → List PItem}
    (hfp : ∀ l, Typed l → Typed (fp l)) {fd : α → α} {s : GraphDb}
    (h : s.Sound) : always (t.update xid n fp fd) GraphDb.Sound s := by
  simp only [Table.update, always, wp_bind, wp_get, wp_ofExcept]
  refine ⟨?_, fun _ _ => h⟩
  intro r hr
  have hrp := Record.sound_lockForWrite (ht.record s n.id h) hr
  have h1 := ht.setRecord s n.id r h hrp
  rw [wp_modify]
  split
  · simp only [wp_bind, wp_modify, wp_pure]
    exact ht.setRecord _ _ _ h1
      (Record.sound_modifyDirty hrp _ fun _ hd => hfp _ hd)
  · simp only [wp_bind]
    refine wp_mono (Table.read_sound h1) ?_ (fun _ _ h => h)
    intro o s' h'
    simp only [wp_get, wp_ofExcept, wp_modify, wp_pure]
    refine ⟨?_, fun _ _ => h'⟩
    intro pitems hp
    have hty := PropertyList.buildDirtyPropertyList_typed (ht.props _ h') hp
    refine ht.addDirty _ _ _ (ht.setRecord _ _ _ h' ?_)
    exact Record.sound_addDirtyVersion
      (Record.sound_addDirtyVersion hrp _ _ hty _) _ _ (hfp _ hty) _

theorem Table.addDeleted_sound {xid : Nat} {n : Ref} {keep : Record α → Bool}
    {s : GraphDb} (h : s.Sound) :
    always (t.addDeleted xid n keep) GraphDb.Sound s := by
  simp only [Table.addDeleted, always, wp_bind, wp_get]
  refine wp_mono (Table.read_sound h) ?_ (fun _ _ h => h)
  intro o s' h'
  have hr := ht.record s n.id h
  have hnil : Typed [] := fun p hp => (by cases hp)
  apply wp_ite
  · intro _
    simp only [wp_bind, wp_get, wp_ofExcept, wp_pure, wp_modify]
    refine ⟨fun _ hp => ?_, fun _ _ => h'⟩
    have hty := PropertyList.buildDirtyPropertyList_typed (ht.props _ h') hp
    exact ht.addDirty _ _ _ (ht.setRecord _ _ _ h'
      (Record.sound_addDirtyVersion
        (Record.sound_addDirtyVersion hr _ _ hty _) _ _ hnil _))
  · intro _
    simp only [wp_bind, wp_pure, wp_modify]
    exact ht.addDirty _ _ _ (ht.setRecord _ _ _ h'
      (Record.sound_addDirtyVersion hr _ _ hnil _))

theorem Table.insert_sound {xid : Nat} {slot : Nat} {d : α}
    {props : List PItem} (hp : Typed props) {s : GraphDb} (h : s.Sound) :
    always (t.insert xid slot d props) GraphDb.Sound s := by
  simp only [Table.insert, always, wp_bind, wp_get]
  apply wp_ite
  · intro _; exact h
  · intro _
    simp only [wp_bind, wp_modify]
    refine ht.addDirty _ _ _ (ht.setRecord _ _ _ h ⟨fun _ => rfl, ?_⟩)
    exact List.forall_mem_singleton.mpr hp

theorem Table.modifyObj_sound {s : GraphDb} (id : Nat)
    {f : Obj α → Obj α} (hf : ∀ o, (f o).prepared = o.prepared)
    (h : s.Sound) : (t.modifyObj id f s).Sound :=
  ht.setRecord _ _ _ h ⟨fun hu => (hf _).trans ((ht.record s id h).prepared hu),
    (ht.record s id h).typed⟩

theorem Table.setDirtyList_sound {s : GraphDb} {id : Nat}
    {l : List (DirtyObject α)} (hl : ∀ dn ∈ l, Typed dn.properties)
    (h : s.Sound) :
    (t.setRecord id { t.record s id with dirtyList := l } s).Sound :=
  ht.setRecord _ _ _ h ⟨(ht.record s id h).prepared, hl⟩

theorem Table.onProps_sound {β : Type} {x : EStateM Err PropertyList β}
    {s : GraphDb} (hx : always x PropertyList.Sound (t.props s)) (h : s.Sound) :
    always (t.onProps x) GraphDb.Sound s := by
  simp only [always, wp] at hx
  simp only [Table.onProps, always, wp]
  split
  · next heq =>
      split at heq
      · next hok => cases heq; rw [hok] at hx; exact ht.setProps _ _ h hx
      · cases heq
  · next heq =>
      split at heq
      · cases heq
      · next herr => cases heq; rw [herr] at hx; exact ht.setProps _ _ h hx

theorem Table.copyProperties_sound {id : Nat} {dn : DirtyObject α}
    (hdn : Typed dn.properties) {s : GraphDb} (h : s.Sound) :
    always (t.copyProperties id dn) GraphDb.Sound s := by
  simp only [Table.copyProperties, always]
  apply wp_ite
  · intro _; exact h
  · intro _
    simp only [wp_bind, wp_get]
    have tail : ∀ (b : Nat) s', s'.Sound →
        (t.modifyObj id (fun o =>
          { o with data := t.setPropertyList b o.data }) s').Sound :=
      fun b s' h' => Table.modifyObj_sound ht _ (fun _ => rfl) h'
    apply wp_ite
    · intro _
      simp only [wp_bind, wp_get, wp_modify]
      refine wp_mono (always_ofExcept h) ?_ (fun _ _ h => h)
      intro _ s1 h1
      exact wp_mono (Table.onProps_sound ht
        (PropertyList.updatePitems_sound (ht.props _ h1) hdn) h1) tail
        (fun _ _ h => h)
    · intro _
      rw [wp_bind]
      exact wp_mono (Table.onProps_sound ht
        ((ht.props _ h).addPitems hdn) h) tail (fun _ _ h => h)

theorem Table.commitDirty_sound {onInsert onUpdate : α → α → α}
    {onDelete : α → α} {xid : Nat} {id : Nat} {s : GraphDb}
    (h : s.Sound) :
    always (t.commitDirty onInsert onUpdate onDelete xid id)
      GraphDb.Sound s := by
  have unlockGc : ∀ s : GraphDb, s.Sound →
      (t.setRecord id ((t.record (t.modifyObj id Obj.unlock s) id).gc
        (t.modifyObj id Obj.unlock s).oldestXid)
        (t.modifyObj id Obj.unlock s)).Sound := by
    intro s h
    have h' := Table.modifyObj_sound ht id (f := Obj.unlock)
      (fun _ => rfl) h
    exact ht.setRecord _ _ _ h' (Record.sound_subset (ht.record _ id h')
      fun dn hdn => (List.mem_filter.mp hdn).1)
  have pop : ∀ s : GraphDb, s.Sound →
      ∀ r, (t.record s id).popUnlock = .ok r →
        (t.setRecord id r s).Sound := by
    intro s h r hr
    exact ht.setRecord _ _ _ h (Record.sound_popUnlock (ht.record s id h) hr)
  simp only [Table.commitDirty, always, wp_bind]
  refine wp_mono (wp_getRecord ht h) ?_ (fun _ _ h => h)
  rintro r s1 ⟨h1, hr⟩
  apply wp_ite
  · intro _
    simp only [wp_bind, wp_modify, wp_pure]
    exact ht.setRecord _ _ _ h1
      (Record.sound_subset hr fun dn hdn => (List.mem_filter.mp hdn).1)
  intro _
  split
  · exact h1
  · next dn rest hl =>
      have htyped := hr.typed
      rw [hl] at htyped
      obtain ⟨hdn, hrest⟩ := List.forall_mem_cons.mp htyped
      apply wp_ite
      · intro _
        simp only [wp_bind, wp_modify]
        refine wp_mono (Table.copyProperties_sound ht hdn h1) ?_ (fun _ _ h => h)
        intro _ s2 h2
        exact unlockGc _ (Table.setDirtyList_sound ht hrest
          (Table.modifyObj_sound ht _ (fun _ => rfl) h2))
      intro _
      apply wp_ite
      · intro _
        simp only [wp_bind, wp_get, wp_modify]
        refine wp_mono (always_ofExcept h1) ?_ (fun _ _ h => h)
        intro _ s2 h2
        have h3 : (t.modifyObj id (fun o => { o with cts := xid })
            { s2 with garbage := s2.garbage ++ [⟨xid, id, t.gcType⟩] }).Sound :=
          Table.modifyObj_sound ht _ (fun _ => rfl) (h2.congr rfl rfl rfl rfl rfl)
        refine wp_mono (always_ofExcept h3) ?_ (fun _ _ h => h)
        intro _ s4 h4
        rw [wp_ofExcept]
        refine ⟨fun r' hr' => ?_, fun _ _ => h4⟩
        have h5 := pop _ h4 _ hr'
        refine wp_mono (Table.onProps_sound ht
          (PropertyList.removeProperties_sound (ht.props _ h5)) h5) ?_
          (fun _ _ h => h)
        intro _ s6 h6
        exact unlockGc _ (Table.modifyObj_sound ht _ (fun _ => rfl) h6)
      · intro _
        simp only [wp_bind, wp_get, wp_modify]
        refine wp_mono (Table.copyProperties_sound ht hdn
          (Table.modifyObj_sound ht _ (fun _ => rfl) h1)) ?_ (fun _ _ h => h)
        intro _ s2 h2
        rw [wp_ofExcept]
        exact ⟨fun r' hr' => unlockGc _ (pop _ h2 _ hr'), fun _ _ => h2⟩

theorem Table.abortDirty_sound {xid : Nat} {id : Nat} {s : GraphDb}
    (h : s.Sound) : always (t.abortDirty xid id) GraphDb.Sound s := by
  simp only [Table.abortDirty, always, wp_bind]
  refine wp_mono (wp_getRecord ht h) ?_ (fun _ _ h => h)
  rintro r s1 ⟨h1, hr⟩
  rw [wp_modify]
  have hsub := Record.sound_subset hr (l := (r.removeDirtyVersion xid).dirtyList)
    fun dn hdn => (List.mem_filter.mp hdn).1
  refine ht.setRecord _ _ _ h1 ?_
  split
  · exact ⟨hsub.prepared, hsub.typed⟩
  · exact ⟨fun hu => (by cases hu), hsub.typed⟩

end Tables

/-! ## The calls -/

theorem nodeById_sound {xid : Nat} {id : Nat} {s : GraphDb}
    (h : s.Sound) : always (nodeById xid id) GraphDb.Sound s :=
  Table.byId_sound nodeTable_keepsSound h

theorem rshipById_sound {xid : Nat} {id : Nat} {s : GraphDb}
    (h : s.Sound) : always (rshipById xid id) GraphDb.Sound s :=
  Table.byId_sound rshipTable_keepsSound h

theorem checkTxContext_sound {xid : Nat} {s : GraphDb} (h : s.Sound) :
    always (checkTxContext xid) GraphDb.Sound s :=
  wp_checkTxContext.mpr ⟨fun _ => h, fun _ => h⟩

theorem updateNode_sound {xid : Nat} {n : Ref} {props : List PItem}
    {lc : Nat} (hp : Typed props) {s : GraphDb} (h : s.Sound) :
    always (updateNode xid n props lc) GraphDb.Sound s := by
  refine always_bind (checkTxContext_sound h) fun _ s1 h1 => ?_
  exact always_bind (Table.update_sound nodeTable_keepsSound
    (fun _ hl => hl.applyUpdates hp) h1) fun _ _ h2 => h2

theorem updateRelationship_sound {xid : Nat} {n : Ref} {props : List PItem}
    {lc : Nat} (hp : Typed props) {s : GraphDb} (h : s.Sound) :
    always (updateRelationship xid n props lc) GraphDb.Sound s := by
  refine always_bind (checkTxContext_sound h) fun _ s1 h1 => ?_
  exact always_bind (Table.update_sound rshipTable_keepsSound
    (fun _ hl => hl.applyUpdates hp) h1) fun _ _ h2 => h2

theorem modifyRship_sound {rid : Nat} {f : RshipData → RshipData}
    {s : GraphDb} (h : s.Sound) : (modifyRship rid f s).Sound :=
  let hr := rshipTable_keepsSound.record s rid h
  rshipTable_keepsSound.setRecord _ _ _ h ⟨hr.prepared, hr.typed⟩

theorem updateFromNode_sound {xid : Nat} {n : Ref} {rid : Nat}
    {s : GraphDb} (h : s.Sound) :
    always (updateFromNode xid n rid) GraphDb.Sound s := by
  refine always_bind (Table.update_sound nodeTable_keepsSound
    (fun _ hl => hl) h) ?_
  intro old s1 h1
  apply wp_ite
  · intro _; exact modifyRship_sound h1
  · intro _; exact h1

theorem updateToNode_sound {xid : Nat} {n : Ref} {rid : Nat}
    {s : GraphDb} (h : s.Sound) :
    always (updateToNode xid n rid) GraphDb.Sound s := by
  refine always_bind (Table.update_sound nodeTable_keepsSound
    (fun _ hl => hl) h) ?_
  intro old s1 h1
  apply wp_ite
  · intro _; exact modifyRship_sound h1
  · intro _; exact h1

theorem addNode_sound {xid : Nat} {slot : Nat} {label : Nat}
    {props : List PItem} (hp : Typed props) {s : GraphDb} (h : s.Sound) :
    always (addNode xid slot label props) GraphDb.Sound s :=
  always_bind (checkTxContext_sound h) fun _ _ h1 =>
    Table.insert_sound nodeTable_keepsSound hp h1

theorem addRelationship_sound {xid : Nat} {slot fromId toId : Nat}
    {label : Nat} {props : List PItem} (hp : Typed props) {s : GraphDb}
    (h : s.Sound) : always (addRelationship xid slot fromId toId label props)
      GraphDb.Sound s := by
  refine always_bind (checkTxContext_sound h) fun _ s1 h1 => ?_
  refine always_bind (nodeById_sound h1) fun fromNode s2 h2 => ?_
  refine always_bind (nodeById_sound h2) fun toNode s3 h3 => ?_
  refine always_bind (Table.insert_sound rshipTable_keepsSound hp h3)
    fun _ s4 h4 => ?_
  exact always_bind (updateFromNode_sound h4) fun _ s5 h5 =>
    updateToNode_sound h5

/-- The read of the record and the lock that the delete functions begin
with. -/
theorem lockRead_sound {t : Table α} (ht : t.KeepsSound) {xid : Nat} {n : Ref}
    {id : Nat} {s : GraphDb} (h : s.Sound) :
    ∀ r, (t.record s id).lockForWrite n.loc xid = .ok r →
      r.Sound ∧ (t.setRecord id r s).Sound := by
  intro r hr
  have hp := Record.sound_lockForWrite (ht.record s id h) hr
  exact ⟨hp, ht.setRecord _ _ _ h hp⟩

theorem deleteNode_sound {xid : Nat} {nid : Nat} {s : GraphDb}
    (h : s.Sound) : always (deleteNode xid nid) GraphDb.Sound s := by
  refine always_bind (checkTxContext_sound h) fun _ s1 h1 => ?_
  refine always_bind (nodeById_sound h1) fun n s2 h2 => ?_
  simp only [always, wp_bind, wp_get, wp_modify, wp_ofExcept]
  refine ⟨fun r hr => ?_, fun _ _ => h2⟩
  obtain ⟨hp, h3⟩ := lockRead_sound nodeTable_keepsSound h2 r hr
  refine wp_mono (Table.read_sound h3) ?_ (fun _ _ h => h)
  intro o s4 h4
  apply wp_ite
  · intro _
    simp only [wp_bind, wp_get, wp_ofExcept]
    refine ⟨fun b _ => ?_, fun _ _ => h4⟩
    apply wp_ite
    · intro _
      simp only [wp_bind, wp_modify, wp_throw]
      exact nodeTable_keepsSound.setRecord _ _ _ h4
        (Record.sound_modifyAt hp _ fun _ h => h)
    · intro _
      exact Table.addDeleted_sound nodeTable_keepsSound h4
  · intro _
    exact Table.addDeleted_sound nodeTable_keepsSound h4

theorem deleteRelationship_sound {xid : Nat} {rid : Nat} {s : GraphDb}
    (h : s.Sound) :
    always (deleteRelationship xid rid) GraphDb.Sound s := by
  refine always_bind (checkTxContext_sound h) fun _ s1 h1 => ?_
  refine always_bind (rshipById_sound h1) fun n s2 h2 => ?_
  simp only [always, wp_bind, wp_get, wp_modify, wp_ofExcept]
  refine ⟨fun r hr => ?_, fun _ _ => h2⟩
  exact Table.addDeleted_sound rshipTable_keepsSound
    (lockRead_sound rshipTable_keepsSound h2 r hr).2

theorem detachDeleteNode_sound {xid : Nat} {nid : Nat} {s : GraphDb}
    (h : s.Sound) :
    always (detachDeleteNode xid nid) GraphDb.Sound s := by
  refine always_bind (checkTxContext_sound h) fun _ s1 h1 => ?_
  refine always_bind (nodeById_sound h1) fun n s2 h2 => ?_
  simp only [always, wp_bind, wp_get, wp_modify, wp_ofExcept]
  refine ⟨fun r hr => ?_, fun _ _ => h2⟩
  refine wp_mono (Table.read_sound
    (lockRead_sound nodeTable_keepsSound h2 r hr).2) ?_ (fun _ _ h => h)
  intro o s3 h3
  refine ⟨fun outgoing _ => ⟨fun incoming _ => ?_, fun _ _ => h3⟩, fun _ _ => h3⟩
  refine wp_mono (always_forM (fun rid _ s h => deleteRelationship_sound h) h3)
    ?_ (fun _ _ h => h)
  exact fun _ _ h4 => Table.addDeleted_sound nodeTable_keepsSound h4

theorem beginTransaction_sound {xid : Nat} (hx : xid ≠ 0) {s : GraphDb}
    (h : s.Sound) : always (beginTransaction xid) GraphDb.Sound s := by
  simp only [beginTransaction, always, wp_bind, wp_get]
  apply wp_ite
  · intro _; exact h
  · intro _
    have h1 := h.modifyTx xid (f := fun _ => ⟨true, [], []⟩) (.inl hx)
    exact h1.congr rfl rfl rfl rfl rfl

theorem unlinkLoop_sound {next : RshipData → Nat}
    {setNext : Nat → RshipData → RshipData} {oid newNext : Nat}
    {fuel : Nat} {prevId : Nat} {s : GraphDb} (h : s.Sound) :
    always (unlinkLoop next setNext oid newNext fuel prevId)
      GraphDb.Sound s := by
  induction fuel generalizing prevId with
  | zero =>
      apply wp_ite
      · intro _; exact h
      · intro _; exact h
  | succ fuel ih =>
      apply wp_ite
      · intro _; exact h
      · intro _
        simp only [wp_bind, Table.getRecord, wp_get, wp_ofExcept]
        refine ⟨fun p _ => ?_, fun _ _ => h⟩
        apply wp_ite
        · intro _; exact modifyRship_sound h
        · intro _; exact ih

theorem unlinkFrom_sound {head : NodeData → Nat}
    {setHead : Nat → NodeData → NodeData} {next : RshipData → Nat}
    {setNext : Nat → RshipData → RshipData} {nid oid newNext : Nat}
    {s : GraphDb} (h : s.Sound) :
    always (unlinkFrom head setHead next setNext nid oid newNext)
      GraphDb.Sound s := by
  refine always_bind (wp_mono (wp_getRecord nodeTable_keepsSound h)
    (fun _ _ h => h.1) (fun _ _ h => h)) fun n s1 h1 => ?_
  apply wp_ite
  · intro _
    exact Table.modifyObj_sound nodeTable_keepsSound _ (fun _ => rfl) h1
  · intro _; exact unlinkLoop_sound h1

theorem vacuumItem_sound {g : GcItem} {s : GraphDb} (h : s.Sound) :
    always (vacuumItem g) GraphDb.Sound s := by
  have free : ∀ {α : Type} {t : Table α}, t.KeepsSound → ∀ {s : GraphDb},
      s.Sound → (t.free g.oid s).Sound := by
    intro α t ht s h
    exact ht.setRecord _ _ _ h
      ⟨fun hu => (by cases hu), (ht.record s g.oid h).typed⟩
  simp only [vacuumItem, always]
  split
  · simp only [wp_bind]
    refine wp_mono (wp_getRecord nodeTable_keepsSound h) ?_ (fun _ _ h => h)
    rintro r s1 ⟨h1, hr⟩
    simp only [wp_get, wp_modify]
    have h2 := nodeTable_keepsSound.setRecord s1 g.oid (r.gc s1.oldestXid) h1
      (Record.sound_subset hr fun dn hdn => (List.mem_filter.mp hdn).1)
    apply wp_ite
    · intro _; exact h2
    · intro _
      simp only [wp_bind, wp_modify, wp_pure]
      exact free nodeTable_keepsSound h2
  · simp only [wp_bind]
    refine wp_mono (wp_getRecord rshipTable_keepsSound h) ?_ (fun _ _ h => h)
    rintro r s1 ⟨h1, hr⟩
    simp only [wp_get, wp_modify]
    have h2 := rshipTable_keepsSound.setRecord s1 g.oid (r.gc s1.oldestXid) h1
      (Record.sound_subset hr fun dn hdn => (List.mem_filter.mp hdn).1)
    apply wp_ite
    · intro _; exact h2
    · intro _
      refine always_bind (unlinkFrom_sound h2) fun _ s3 h3 => ?_
      refine always_bind (unlinkFrom_sound h3) fun _ s4 h4 => ?_
      exact free rshipTable_keepsSound h4

theorem vacuum_sound {s : GraphDb} (h : s.Sound) :
    always vacuum GraphDb.Sound s := by
  have loop : ∀ (rest kept : List GcItem) (s : GraphDb), s.Sound →
      always (vacuumLoop kept rest) GraphDb.Sound s := by
    intro rest
    induction rest with
    | nil => intro kept s h; exact h
    | cons g rest ih =>
        intro kept s h
        refine always_bind (vacuumItem_sound h) fun b s1 h1 => ?_
        apply wp_ite
        · intro _; exact ih kept _ (h1.congr rfl rfl rfl rfl rfl)
        · intro _; exact ih _ s1 h1
  exact loop s.garbage [] s h

theorem commitTransaction_sound {xid : Nat} {s : GraphDb}
    (h : s.Sound) :
    always (commitTransaction xid) GraphDb.Sound s := by
  refine always_bind (checkTxContext_sound h) fun _ s1 h1 => ?_
  have h2 : (leaveActive xid s1).Sound := h1.congr rfl rfl rfl rfl rfl
  simp only [always, wp_bind, wp_get, wp_modify, wp_pure]
  refine wp_mono (always_forM (fun id _ s h =>
    Table.commitDirty_sound rshipTable_keepsSound h) h2) ?_ (fun _ _ h => h)
  intro _ s3 h3
  refine wp_mono (always_forM (fun id _ s h =>
    Table.commitDirty_sound nodeTable_keepsSound h) h3) ?_ (fun _ _ h => h)
  intro _ s4 h4
  exact wp_mono (vacuum_sound (h4.modifyTx xid (.inr fun _ _ => rfl)))
    (fun _ _ h => h) (fun _ _ h => h)

theorem abortTransaction_sound {xid : Nat} {s : GraphDb}
    (h : s.Sound) :
    always (abortTransaction xid) GraphDb.Sound s := by
  simp only [abortTransaction, always, wp_bind, wp_get]
  apply wp_ite
  · intro _; exact h
  intro _
  have h2 : (leaveActive xid s).Sound := h.congr rfl rfl rfl rfl rfl
  simp only [wp_bind, wp_get, wp_modify, wp_pure]
  refine wp_mono (always_forM (fun id _ s h =>
    Table.abortDirty_sound nodeTable_keepsSound h) h2) ?_ (fun _ _ h => h)
  intro _ s3 h3
  refine wp_mono (always_forM (fun id _ s h =>
    Table.abortDirty_sound rshipTable_keepsSound h) h3) ?_ (fun _ _ h => h)
  intro _ s4 h4
  exact wp_mono (vacuum_sound h4)
    (fun _ _ h => h.modifyTx xid (.inr fun _ _ => rfl)) (fun _ _ h => h)

/-! ## Steps and runs -/

theorem Sys.call_db {β : Type} {P : GraphDb → Prop} {s : Sys} {x : DbM β}
    {reply : β → Reply} {keep : β → Sys → Sys}
    (hkeep : ∀ b s, (keep b s).db = s.db) (h : always x P s.db) :
    P (s.call x reply keep).2.db := by
  simp only [Sys.call, always, wp] at h ⊢
  split
  · next heq => rw [heq] at h; rw [hkeep]; exact h
  · next heq => rw [heq] at h; exact h

theorem runScan_db {xid : Nat} {f : GraphDb → Scan} {s : GraphDb}
    {P : GraphDb → Prop} (h : P s) : always (runScan xid f) P s := by
  simp only [runScan, always, wp_bind, wp_checkTxContext, wp_get, wp_pure]
  exact ⟨fun _ => h, fun _ => h⟩

theorem Sys.step_sound {s : Sys} (a : Step) (h : s.db.Sound) :
    (s.step a).db.Sound := by
  simp only [Sys.step]
  cases a <;> simp only [Sys.exec]
  case begin xid =>
    split
    · exact h
    · next hx =>
        exact Sys.call_db (fun _ _ => rfl)
          (beginTransaction_sound (fun h0 => hx (.inl h0)) h)
  case nodeById => exact Sys.call_db (fun _ _ => rfl) (nodeById_sound h)
  case rshipById => exact Sys.call_db (fun _ _ => rfl) (rshipById_sound h)
  case scanNodes => exact Sys.call_db (fun _ _ => rfl) (runScan_db h)
  case scanRships => exact Sys.call_db (fun _ _ => rfl) (runScan_db h)
  case addNode xid slot label props =>
    exact Sys.call_db (fun _ _ => rfl) (addNode_sound props.items_typed h)
  case addRelationship xid slot fromId toId label props =>
    exact Sys.call_db (fun _ _ => rfl) (addRelationship_sound props.items_typed h)
  case updateNode xid n props lc =>
    split
    · exact Sys.call_db (fun _ _ => rfl) (updateNode_sound props.items_typed h)
    · exact h
  case updateRelationship xid n props lc =>
    split
    · exact Sys.call_db (fun _ _ => rfl) (updateRelationship_sound props.items_typed h)
    · exact h
  case deleteNode => exact Sys.call_db (fun _ _ => rfl) (deleteNode_sound h)
  case detachDeleteNode =>
    exact Sys.call_db (fun _ _ => rfl) (detachDeleteNode_sound h)
  case deleteRelationship =>
    exact Sys.call_db (fun _ _ => rfl) (deleteRelationship_sound h)
  case commit =>
    exact Sys.call_db (fun _ _ => rfl) (commitTransaction_sound h)
  case abort =>
    exact Sys.call_db (fun _ _ => rfl) (abortTransaction_sound h)

/-- In every state that a run reaches, the records in use are prepared. -/
theorem Sys.run_sound (as : List Step) : (Sys.initial.run as).db.Sound := by
  suffices h : ∀ s : Sys, s.db.Sound → (s.run as).db.Sound by
    have hfresh : ∀ {α : Type} [Inhabited α],
        (⟨fun _ => Record.fresh, 0⟩ : Vec α).Sound := by
      intro α _
      exact ⟨fun _ => ⟨fun hu => (by cases hu), fun _ hdn => (by cases hdn)⟩,
        fun _ hu => (by cases hu)⟩
    exact h _ ⟨hfresh, hfresh, fun _ _ hp => (by cases hp),
      fun _ _ hp => (by cases hp), rfl⟩
  induction as with
  | nil => intro s h; exact h
  | cons a as ih => intro s h; exact ih _ (Sys.step_sound a h)

theorem Sys.running_ne_zero {as : List Step} {xid : Nat}
    (h : ((Sys.initial.run as).db.txs xid).running = true) : xid ≠ 0 := by
  rintro rfl
  rw [(Sys.run_sound as).noZero] at h
  cases h

end Poseidon
