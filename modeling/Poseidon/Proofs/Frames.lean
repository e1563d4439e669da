import Poseidon.Lib.Wp
import Poseidon.Temporal.System

/-!
# Calls that change records only

Most of what a call does is to change records, property lists and the lists
of its transaction. A relation that all such changes are in is a `Frame`, and
`Keeps R x` says that the store after `x`, also when it ends in an exception,
is in the relation `R` to the one before. The functions of this file change
nothing that a frame could not pass over, so they keep every frame.
-/

namespace Poseidon.Temporal

open Wp

/-- A relation between stores that sequences of calls can be checked
against. -/
class Trace (R : GraphDb → GraphDb → Prop) : Prop where
  refl : ∀ s, R s s
  trans : ∀ {s s' s''}, R s s' → R s' s'' → R s s''

/-- A relation between stores that allows any change of records, of property
lists and of the lists of garbage and tasks. -/
class Frame (R : GraphDb → GraphDb → Prop) : Prop extends Trace R where
  nodes : ∀ s v p, R s { s with nodes := { s.nodes with vec := v, props := p } }
  rships : ∀ s v p, R s { s with rships := { s.rships with vec := v, props := p } }
  rest : ∀ s counts active oldest garbage tasks, R s { s with
    updateCounts := counts, activeTx := active, oldestXid := oldest, garbage := garbage
    tasks := tasks }

/-- A frame that allows changes of the transaction objects, too. -/
class TxFrame (R : GraphDb → GraphDb → Prop) : Prop extends Frame R where
  txs : ∀ s txs, R s { s with txs := txs }

/-- `x` ends, with a value or an error, in a store related to the first. -/
structure Keeps (R : GraphDb → GraphDb → Prop) {β : Type} (x : DbM β) : Prop where
  always : ∀ s, always x (R s) s

/-- A step ends where its call ends. -/
theorem step_of_always {s : GraphDb} {a : Step} {P : GraphDb → Prop} (h : always a.exec P s) :
    P (s.step a) := by
  simp only [always, wp] at h
  rw [GraphDb.step]
  split at h
  · next h' => rw [h']; exact h
  · next h' => rw [h']; exact h

section Rules

variable {R : GraphDb → GraphDb → Prop} [Trace R] {β β' : Type}

theorem keeps_pure (b : β) : Keeps R (pure b) := ⟨fun s => Trace.refl s⟩

theorem keeps_throw (e : Err) : Keeps R (throw e : DbM β) := ⟨fun s => Trace.refl s⟩

theorem keeps_get : Keeps R (get : DbM GraphDb) := ⟨fun s => Trace.refl s⟩

theorem keeps_bind {x : DbM β} {f : β → DbM β'} (hx : Keeps R x) (hf : ∀ b, Keeps R (f b)) :
    Keeps R (x >>= f) := by
  refine ⟨fun s => always_bind (hx.always s) ?_⟩
  intro b s' h
  exact always_mono ((hf b).always s') fun _ h' => Trace.trans h h'

omit [Trace R] in
theorem keeps_modify {f : GraphDb → GraphDb} (h : ∀ s, R s (f s)) :
    Keeps R (modify f : DbM PUnit) := ⟨fun s => h s⟩

theorem keeps_ofExcept (x : Except Err β) : Keeps R (ofExcept x) := by
  cases x with
  | ok b => exact keeps_pure b
  | error e => exact keeps_throw e

omit [Trace R] in
theorem keeps_ite {c : Prop} [Decidable c] {x y : DbM β} (hx : Keeps R x) (hy : Keeps R y) :
    Keeps R (if c then x else y) := by
  split
  · exact hx
  · exact hy

theorem keeps_forM {ι : Type} {f : ι → DbM PUnit} {l : List ι} (h : ∀ i, Keeps R (f i)) :
    Keeps R (l.forM f) := by
  refine ⟨fun s => always_forM ?_ (Trace.refl s)⟩
  intro i _ s' hs
  exact always_mono ((h i).always s') fun _ h' => Trace.trans hs h'

/-- What comes after a read of the store. -/
theorem keeps_get_bind {f : GraphDb → DbM β} (hf : ∀ s, Keeps R (f s)) :
    Keeps R (get >>= f) := keeps_bind keeps_get hf

theorem keeps_ofExcept_bind {x : Except Err β} {f : β → DbM β'} (hf : ∀ b, Keeps R (f b)) :
    Keeps R (ofExcept x >>= f) := keeps_bind (keeps_ofExcept x) hf

theorem keeps_modify_bind {f : GraphDb → GraphDb} {g : PUnit → DbM β} (h : ∀ s, R s (f s))
    (hg : ∀ u, Keeps R (g u)) : Keeps R (modify f >>= g) :=
  keeps_bind (keeps_modify h) hg

theorem keeps_checkTxContext (xid : Nat) : Keeps R (checkTxContext xid) := by
  refine keeps_get_bind fun s => ?_
  split
  · exact keeps_pure _
  · exact keeps_throw _

end Rules

/-! ## The tables -/

/-- A change of the lists of active transactions, of garbage or of tasks. -/
theorem keeps_rest {R : GraphDb → GraphDb → Prop} [Frame R] {f : GraphDb → GraphDb}
    (h : ∀ s, ∃ counts active oldest garbage tasks, f s = { s with
      updateCounts := counts, activeTx := active, oldestXid := oldest, garbage := garbage
      tasks := tasks }) : Keeps R (modify f : DbM PUnit) := by
  refine keeps_modify fun s => ?_
  obtain ⟨c, a, o, g, ts, heq⟩ := h s
  rw [heq]
  exact Frame.rest s c a o g ts

/-- `R` allows any change of the records and properties of a table, and its
items of garbage. -/
class Table.RecordsBy {ε δ γ : Type} (t : Table ε δ γ) (R : GraphDb → GraphDb → Prop) :
    Prop where
  side : ∀ s v p, R s (t.setSide { t.side s with vec := v, props := p } s)
  garbage : ∀ s xid id, R s { s with garbage := s.garbage ++ [⟨xid, id, t.gcType⟩] }

/-- `R` allows any change of the adjacency fields in a table. -/
class Table.LinksBy {ε δ γ : Type} (t : Table ε δ γ) (R : GraphDb → GraphDb → Prop) :
    Prop where
  links : ∀ s id (f : ε → ε), R s (t.modifyData id (fun d => { d with links := f d.links }) s)

/-- `R` allows records of a table to be entered in the lists of transactions. -/
class Table.DirtyBy {ε δ γ : Type} (t : Table ε δ γ) (R : GraphDb → GraphDb → Prop) :
    Prop where
  dirty : ∀ xid id s, R s (t.addDirty xid id s)

/-- A table whose records and properties may change in any frame. -/
class Table.Framed {ε δ γ : Type} (t : Table ε δ γ) : Prop where
  side : ∀ {R} [Frame R], ∀ s v p, R s (t.setSide { t.side s with vec := v, props := p } s)
  dirty : ∀ {R} [TxFrame R], ∀ xid id s, R s (t.addDirty xid id s)

instance framed_nodeTable : nodeTable.Framed where
  side s v p := Frame.nodes s v p
  dirty _ _ s := TxFrame.txs s _

instance framed_rshipTable : rshipTable.Framed where
  side s v p := Frame.rships s v p
  dirty _ _ s := TxFrame.txs s _

section Instances

variable {R : GraphDb → GraphDb → Prop} {ε δ γ : Type} {t : Table ε δ γ}

instance recordsBy_frame [t.Framed] [Frame R] : t.RecordsBy R where
  side := Table.Framed.side
  garbage s _ _ := Frame.rest s s.updateCounts s.activeTx s.oldestXid _ s.tasks

instance dirtyBy_frame [t.Framed] [TxFrame R] : t.DirtyBy R where
  dirty := Table.Framed.dirty

instance linksBy_records [t.RecordsBy R] : t.LinksBy R where
  links s _ _ := Table.RecordsBy.side s _ _

end Instances

section Tables

variable {R : GraphDb → GraphDb → Prop} {ε δ γ : Type} {t : Table ε δ γ} [t.RecordsBy R]

theorem frame_setRecord (id : Nat) (r : Record (Versioned ε)) (s : GraphDb) :
    R s (t.setRecord id r s) := Table.RecordsBy.side s _ _

theorem keeps_setRecord (id : Nat) (r : Record (Versioned ε)) :
    Keeps R (modify (t.setRecord id r)) := keeps_modify (frame_setRecord id r)

theorem keeps_modifyObj (id : Nat) (f : Obj (Versioned ε) → Obj (Versioned ε)) :
    Keeps R (modify (t.modifyObj id f)) := keeps_modify fun s => frame_setRecord id _ s

theorem keeps_modifyData (id : Nat) (f : Versioned ε → Versioned ε) :
    Keeps R (modify (t.modifyData id f)) := keeps_modify fun s => frame_setRecord id _ s

theorem keeps_modifyAt (n : Ref) (f : Obj (Versioned ε) → Obj (Versioned ε)) :
    Keeps R (modify (t.modifyAt n f)) := keeps_modify fun s => frame_setRecord n.id _ s

theorem keeps_onProps {β : Type} (x : EStateM Err PropertyList β) : Keeps R (t.onProps x) := by
  refine ⟨fun s => ?_⟩
  simp only [always, wp, Table.onProps]
  cases x (t.side s).props with
  | ok b p => exact Table.RecordsBy.side s _ p
  | error e p => exact Table.RecordsBy.side s _ p

theorem keeps_addPitems (owner : Nat) (items : List PItem) : Keeps R (t.addPitems owner items) :=
  keeps_onProps _

variable [Trace R]

omit [t.RecordsBy R] in
theorem keeps_getRecord (id : Nat) : Keeps R (t.getRecord id) :=
  keeps_get_bind fun _ => keeps_ofExcept _

omit [t.RecordsBy R] in
theorem keeps_getRecord_bind {β : Type} {id : Nat} {f : Record (Versioned ε) → DbM β}
    (hf : ∀ r, Keeps R (f r)) : Keeps R (t.getRecord id >>= f) :=
  keeps_bind (keeps_getRecord id) hf

theorem keeps_byId (xid id : Nat) : Keeps R (t.byId xid id) := by
  refine keeps_bind (keeps_checkTxContext xid) fun _ => keeps_getRecord_bind fun r => ?_
  refine keeps_bind (keeps_setRecord id _) fun _ => keeps_ofExcept_bind fun l => ?_
  exact keeps_pure _

omit [t.RecordsBy R] in
theorem keeps_read (n : Ref) : Keeps R (t.read n) := by
  refine keeps_get_bind fun s => ?_
  split
  · exact keeps_pure _
  · exact keeps_throw _

theorem keeps_insertRecord (xid : Nat) (p : Stored) (d : Versioned ε) :
    Keeps R (t.insertRecord xid p d) := by
  refine keeps_get_bind fun s => keeps_ite ?_ (keeps_setRecord _ _)
  exact keeps_bind (keeps_throw _) fun _ => keeps_setRecord _ _

theorem keeps_supersede (xid : Nat) (old : Ref) (vt : Nat) : Keeps R (t.supersede xid old vt) := by
  refine keeps_bind (keeps_modifyAt _ _) fun _ => ?_
  exact keeps_modify fun s => Table.RecordsBy.garbage s xid old.id

theorem keeps_prepareHot (id : Nat) : Keeps R (t.prepareHot id) :=
  keeps_getRecord_bind fun _ => keeps_bind (keeps_setRecord _ _) fun _ =>
    keeps_pure _

omit [t.RecordsBy R] in
theorem keeps_histAt (payload vt : Nat) : Keeps R (t.histAt payload vt) :=
  keeps_get_bind fun _ => keeps_ofExcept_bind fun _ =>
    keeps_ite (keeps_pure _) (keeps_throw _)

section Reads

omit [t.RecordsBy R]

variable (hp : ∀ id, Keeps R (t.prepareHot id))

include hp

theorem keeps_fallbackAt (lid vt below : Nat) : Keeps R (t.fallbackAt lid vt below) := by
  refine keeps_get_bind fun s => ?_
  split
  · exact keeps_throw _
  · refine keeps_ite (keeps_histAt _ _) (keeps_bind (hp _) fun n => ?_)
    exact keeps_ite (keeps_pure _) (keeps_throw _)

theorem keeps_indexAt (lid vt : Nat) : Keeps R (t.indexAt lid vt) := by
  refine keeps_get_bind fun s => ?_
  split
  · exact keeps_throw _
  · refine keeps_ite (keeps_bind (hp _) fun n => ?_) ?_
    · exact keeps_ite (keeps_pure _) (keeps_fallbackAt hp _ _ _)
    · exact keeps_ite (keeps_histAt _ _) (keeps_throw _)

/-- A read by valid time changes no more than volatile parts of records. -/
theorem keeps_getAtVt_of (lid vt : Nat) : Keeps R (t.getAtVt lid vt) := by
  refine keeps_get_bind fun s => ?_
  split
  · refine keeps_bind (hp _) fun o => ?_
    exact keeps_ite (keeps_pure _) (keeps_indexAt hp _ _)
  · exact keeps_indexAt hp _ _

end Reads

theorem keeps_getAtVt (lid vt : Nat) : Keeps R (t.getAtVt lid vt) :=
  keeps_getAtVt_of keeps_prepareHot lid vt

theorem keeps_copyProperties (id : Nat) (dn : DirtyObject (Versioned ε)) :
    Keeps R (t.copyProperties id dn) := by
  refine keeps_ite (keeps_pure _) (keeps_get_bind fun s => ?_)
  refine keeps_ite (keeps_get_bind fun s => ?_) ?_
  · refine keeps_ofExcept_bind fun _ => keeps_bind (keeps_onProps _) fun _ => ?_
    exact keeps_modifyData _ _
  · exact keeps_bind (keeps_addPitems _ _) fun _ => keeps_modifyData _ _

theorem keeps_popUnlock (id : Nat) : Keeps R (t.popUnlock id) :=
  keeps_get_bind fun _ => keeps_ofExcept_bind fun _ => keeps_setRecord _ _

theorem keeps_finishCommit (id : Nat) : Keeps R (t.finishCommit id) := by
  refine keeps_bind (keeps_modifyObj _ _) fun _ => ?_
  exact keeps_modify fun s => frame_setRecord id _ s

theorem keeps_commitDirty {onInsert onDelete onUpdate : DirtyObject (Versioned ε) → DbM Unit}
    (hi : ∀ dn, Keeps R (onInsert dn)) (hd : ∀ dn, Keeps R (onDelete dn))
    (hu : ∀ dn, Keeps R (onUpdate dn)) (id : Nat) :
    Keeps R (t.commitDirty onInsert onDelete onUpdate id) := by
  have hfin : Keeps R (t.finishCommit id) := keeps_finishCommit id
  refine keeps_getRecord_bind fun r => keeps_ite (keeps_setRecord _ _) ?_
  split
  · exact keeps_pure _
  · refine keeps_ite (keeps_bind (hi _) fun _ => hfin) (keeps_ite ?_ ?_)
    · exact keeps_bind (hd _) fun _ => hfin
    · exact keeps_bind (hu _) fun _ => hfin

end Tables

/-! ## Adjacency lists and collection -/

section Lists

variable {R : GraphDb → GraphDb → Prop}

theorem keeps_modifyRshipLinks [rshipTable.LinksBy R] (rid : Nat) (f : RshipLinks → RshipLinks) :
    Keeps R (modify (modifyRshipLinks rid f)) :=
  keeps_modify fun s => Table.LinksBy.links s rid f

theorem keeps_modifyNodeLinks [nodeTable.LinksBy R] (nid : Nat) (f : NodeLinks → NodeLinks) :
    Keeps R (modify (nodeTable.modifyData nid fun d => { d with links := f d.links })) :=
  keeps_modify fun s => Table.LinksBy.links s nid f

variable [Trace R]

theorem keeps_logicalIdOf (nid : Nat) : Keeps R (logicalIdOf nid) :=
  keeps_getRecord_bind fun _ => keeps_pure _

theorem keeps_detachLoop [rshipTable.LinksBy R] (next : RshipLinks → Nat)
    (setNext : Nat → RshipLinks → RshipLinks)
    (fuel rid : Nat) : Keeps R (detachLoop next setNext fuel rid) := by
  induction fuel generalizing rid with
  | zero => exact keeps_ite (keeps_pure _) (keeps_throw _)
  | succ fuel ih =>
      refine keeps_ite (keeps_pure _) (keeps_getRecord_bind fun r => ?_)
      exact keeps_bind (keeps_modifyRshipLinks _ _) fun _ => ih _

theorem keeps_unlinkDeleted [nodeTable.LinksBy R] [rshipTable.LinksBy R] (nid rid : Nat)
    (head : NodeLinks → Nat)
    (setHead : Nat → NodeLinks → NodeLinks) (next : RshipLinks → Nat)
    (setNext : Nat → RshipLinks → RshipLinks) :
    Keeps R (unlinkDeleted nid rid head setHead next setNext) := by
  have hloop : ∀ fuel prev curr,
      Keeps R (unlinkDeletedLoop nid rid setHead next setNext fuel prev curr) := by
    intro fuel
    induction fuel with
    | zero => exact fun _ _ => keeps_ite (keeps_pure _) (keeps_throw _)
    | succ fuel ih =>
        intro prev curr
        refine keeps_ite (keeps_pure _) (keeps_getRecord_bind fun r =>
          keeps_ite ?_ (ih _ _))
        refine keeps_ite (keeps_modifyNodeLinks _ _) ?_
        exact keeps_getRecord_bind fun _ => keeps_modifyRshipLinks _ _
  refine keeps_ite (keeps_getRecord_bind fun n => ?_) (keeps_pure _)
  exact keeps_get_bind fun s => hloop _ _ _

/-- What a commit of a deleted node does after the archival. -/
theorem keeps_detachNode [nodeTable.RecordsBy R] [rshipTable.LinksBy R] (id : Nat)
    (d : Versioned NodeLinks) : Keeps R (do
    let _ ← ofExcept ((← get).nodes.props.buildDirtyPropertyList d.propertyList)
    modify (nodeTable.modifyData id fun d => { d with
      links := { d.links with fromRshipList := UNKNOWN } })
    detachLoop RshipLinks.nextSrcRship (fun h l => { l with nextSrcRship := h })
      ((← get).rships.vec.size + 1) d.links.fromRshipList
    modify (nodeTable.modifyData id fun d => { d with
      links := { d.links with toRshipList := UNKNOWN } })
    detachLoop RshipLinks.nextDestRship (fun h l => { l with nextDestRship := h })
      ((← get).rships.vec.size + 1) d.links.toRshipList
    nodeTable.popUnlock id
    nodeTable.onProps (PropertyList.removeProperties d.propertyList)
    modify (nodeTable.modifyData id fun d => { d with propertyList := UNKNOWN })) := by
  refine keeps_get_bind fun s => keeps_ofExcept_bind fun _ => ?_
  refine keeps_bind (keeps_modifyData _ _) fun _ => keeps_get_bind fun s =>
    keeps_bind (keeps_detachLoop _ _ _ _) fun _ => ?_
  refine keeps_bind (keeps_modifyData _ _) fun _ => keeps_get_bind fun s =>
    keeps_bind (keeps_detachLoop _ _ _ _) fun _ => ?_
  refine keeps_bind (keeps_popUnlock _) fun _ => keeps_bind (keeps_onProps _) fun _ => ?_
  exact keeps_modifyData _ _

/-- What a commit of a deleted relationship does after the archival and the
change of the map of current versions. -/
theorem keeps_detachRship [nodeTable.LinksBy R] [rshipTable.RecordsBy R] (id : Nat)
    (d : Versioned RshipLinks) : Keeps R (do
    let _ ← ofExcept ((← get).rships.props.buildDirtyPropertyList d.propertyList)
    unlinkDeleted d.links.srcNode id NodeLinks.fromRshipList
      (fun h l => { l with fromRshipList := h }) RshipLinks.nextSrcRship
      (fun h l => { l with nextSrcRship := h })
    unlinkDeleted d.links.destNode id NodeLinks.toRshipList
      (fun h l => { l with toRshipList := h }) RshipLinks.nextDestRship
      (fun h l => { l with nextDestRship := h })
    modify (modifyRshipLinks id fun l =>
      { l with nextSrcRship := UNKNOWN, nextDestRship := UNKNOWN })
    rshipTable.popUnlock id
    rshipTable.onProps (PropertyList.removeProperties d.propertyList)) := by
  refine keeps_get_bind fun s => keeps_ofExcept_bind fun _ => ?_
  refine keeps_bind (keeps_unlinkDeleted ..) fun _ =>
    keeps_bind (keeps_unlinkDeleted ..) fun _ => ?_
  refine keeps_bind (keeps_modifyRshipLinks _ _) fun _ => keeps_bind (keeps_popUnlock _) fun _ => ?_
  exact keeps_onProps _

theorem keeps_commitUpdateNode [nodeTable.RecordsBy R] (xid id : Nat)
    (dn : DirtyObject (Versioned NodeLinks)) :
    Keeps R (commitUpdateNode xid id dn) := by
  refine keeps_bind (keeps_modifyData _ _) fun _ =>
    keeps_bind (keeps_modifyObj id _) fun _ => keeps_get_bind fun s => ?_
  refine keeps_bind (keeps_copyProperties _ _) fun _ => keeps_bind (keeps_onProps _) fun _ => ?_
  exact keeps_bind (keeps_modifyData id _) fun _ => keeps_popUnlock _

theorem keeps_commitUpdateRship [rshipTable.RecordsBy R] (xid id : Nat)
    (dr : DirtyObject (Versioned RshipLinks)) :
    Keeps R (commitUpdateRship xid id dr) := by
  refine keeps_bind (keeps_modifyObj id _) fun _ =>
    keeps_bind (keeps_modifyData _ _) fun _ => keeps_get_bind fun s => ?_
  refine keeps_bind (keeps_copyProperties _ _) fun _ => keeps_bind (keeps_onProps _) fun _ => ?_
  exact keeps_bind (keeps_modifyData id _) fun _ => keeps_popUnlock _

theorem keeps_unlinkFrom [nodeTable.LinksBy R] [rshipTable.LinksBy R] (head : NodeLinks → Nat)
    (setHead : Nat → NodeLinks → NodeLinks)
    (next : RshipLinks → Nat) (setNext : Nat → RshipLinks → RshipLinks) (nid oid newNext : Nat) :
    Keeps R (unlinkFrom head setHead next setNext nid oid newNext) := by
  have hloop : ∀ fuel prev, Keeps R (unlinkLoop next setNext oid newNext fuel prev) := by
    intro fuel
    induction fuel with
    | zero => exact fun _ => keeps_ite (keeps_pure _) (keeps_throw _)
    | succ fuel ih =>
        intro prev
        refine keeps_ite (keeps_pure _) (keeps_getRecord_bind fun p => ?_)
        exact keeps_ite (keeps_modifyRshipLinks _ _) (ih _)
  refine keeps_getRecord_bind fun n => keeps_ite (keeps_modifyNodeLinks _ _) ?_
  exact keeps_get_bind fun s => hloop _ _

theorem keeps_vacuumNode [nodeTable.RecordsBy R] (xid id : Nat) :
    Keeps R (vacuumItem ⟨xid, id, .gcNode⟩) := by
  refine keeps_getRecord_bind fun n => keeps_get_bind fun s =>
    keeps_bind (keeps_setRecord _ _) fun _ => keeps_ite (keeps_pure _) ?_
  exact keeps_modify_bind (fun s => frame_setRecord id _ s) fun _ => keeps_pure _

theorem keeps_vacuumRship [nodeTable.LinksBy R] [rshipTable.RecordsBy R] (xid id : Nat) :
    Keeps R (vacuumItem ⟨xid, id, .gcRship⟩) := by
  refine keeps_getRecord_bind fun n => keeps_get_bind fun s =>
    keeps_bind (keeps_setRecord _ _) fun _ => keeps_ite (keeps_pure _) ?_
  refine keeps_bind (keeps_unlinkFrom ..) fun _ => keeps_bind (keeps_unlinkFrom ..) fun _ => ?_
  exact keeps_modify_bind (fun s => frame_setRecord id _ s) fun _ => keeps_pure _

theorem keeps_vacuumItem [nodeTable.RecordsBy R] [rshipTable.RecordsBy R] (g : GcItem) :
    Keeps R (vacuumItem g) := by
  obtain ⟨xid, id, ty⟩ := g
  cases ty with
  | gcNode => exact keeps_vacuumNode xid id
  | gcRship => exact keeps_vacuumRship xid id

omit [Trace R] in
/-- Collection changes records and the list of garbage only. -/
theorem keeps_vacuum [Frame R] : Keeps R vacuum := by
  have hloop : ∀ rest kept, Keeps R (vacuumLoop kept rest) := by
    intro rest
    induction rest with
    | nil => exact fun _ => keeps_pure _
    | cons g rest ih =>
        intro kept
        refine keeps_bind (keeps_vacuumItem g) fun b => keeps_ite ?_ (ih _)
        refine keeps_bind (keeps_rest fun s =>
          ⟨s.updateCounts, s.activeTx, s.oldestXid, _, s.tasks, rfl⟩) fun _ => ih _
  exact keeps_get_bind fun s => hloop _ _

omit [Trace R] in
theorem keeps_leaveActive [Frame R] (xid : Nat) : Keeps R (modify (leaveActive xid)) :=
  keeps_rest fun s => ⟨s.updateCounts, _, _, s.garbage, s.tasks, rfl⟩

omit [Trace R] in
theorem keeps_swallow {x : DbM Unit} (hx : Keeps R x) : Keeps R (swallow x) := by
  refine ⟨fun s => ?_⟩
  have h := hx.always s
  simp only [always, wp, swallow] at h ⊢
  cases hs : x s with
  | ok _ s' => simpa only [hs] using h
  | error _ s' => simpa only [hs] using h

omit [Trace R] in
theorem keeps_runTask {task : Task} (hx : Keeps R task.run) : Keeps R (runTask task) := by
  refine ⟨fun s => ?_⟩
  have h := hx.always s
  simp only [always, wp, runTask] at h ⊢
  cases hs : task.run s with
  | ok _ s' => simpa only [hs] using h
  | error e s' =>
      cases e with
      | _ => simpa only [hs] using h

end Lists

/-! ## Calls that write to the dirty lists -/

section Dirty

variable {R : GraphDb → GraphDb → Prop} {ε δ γ : Type} {t : Table ε δ γ} [t.DirtyBy R]

theorem keeps_addDirty (xid id : Nat) : Keeps R (modify (t.addDirty xid id)) :=
  keeps_modify fun s => Table.DirtyBy.dirty xid id s

variable [Trace R] [t.RecordsBy R]

theorem keeps_addInserted (xid slot : Nat) (props : List PItem) :
    Keeps R (t.addInserted xid slot props) := by
  refine keeps_get_bind fun s => keeps_bind (keeps_setRecord _ _) fun _ => ?_
  exact keeps_addDirty _ _

theorem keeps_updateLinks (xid : Nat) (n : Ref) (fd : Versioned ε → Versioned ε) :
    Keeps R (t.updateLinks xid n fd) := by
  refine keeps_get_bind fun s => keeps_ofExcept_bind fun r =>
    keeps_bind (keeps_setRecord _ _) fun _ => ?_
  split
  · exact keeps_bind (keeps_setRecord _ _) fun _ => keeps_pure _
  · refine keeps_bind (keeps_read _) fun o => keeps_get_bind fun s =>
      keeps_ofExcept_bind fun _ => keeps_bind (keeps_setRecord _ _) fun _ => ?_
    exact keeps_bind (keeps_addDirty _ _) fun _ => keeps_pure _

theorem keeps_addDeleted (xid : Nat) (n : Ref) (keep : Record (Versioned ε) → Bool) :
    Keeps R (t.addDeleted xid n keep) := by
  have hend : ∀ r : Record (Versioned ε), Keeps R (do
      modify (t.setRecord n.id r)
      modify (t.addDirty xid n.id)) := fun r =>
    keeps_bind (keeps_setRecord _ _) fun _ => keeps_addDirty _ _
  refine keeps_get_bind fun s => keeps_bind (keeps_read _) fun o => keeps_ite ?_ ?_
  · refine keeps_get_bind fun s => keeps_ofExcept_bind fun items => ?_
    exact keeps_bind (keeps_pure _) fun _ => hend _
  · exact keeps_bind (keeps_pure _) fun _ => hend _

end Dirty

section Nodes

variable {R : GraphDb → GraphDb → Prop} [Trace R] [nodeTable.RecordsBy R] [nodeTable.DirtyBy R]

theorem keeps_updateFromNode [rshipTable.LinksBy R] (xid : Nat) (n : Ref) (rid : Nat) :
    Keeps R (updateFromNode xid n rid) := by
  refine keeps_bind (keeps_updateLinks _ _ _) fun old => ?_
  exact keeps_ite (keeps_modifyRshipLinks _ _) (keeps_pure _)

theorem keeps_updateToNode [rshipTable.LinksBy R] (xid : Nat) (n : Ref) (rid : Nat) :
    Keeps R (updateToNode xid n rid) := by
  refine keeps_bind (keeps_updateLinks _ _ _) fun old => ?_
  exact keeps_ite (keeps_modifyRshipLinks _ _) (keeps_pure _)

/-- A deletion marks the record; the history does not know of it yet. -/
theorem keeps_deleteNode (xid nid : Nat) : Keeps R (deleteNode xid nid) := by
  have hend : ∀ n, Keeps R (nodeTable.addDeleted xid n fun _ => true) :=
    fun n => keeps_addDeleted _ _ _
  refine keeps_bind (keeps_checkTxContext _) fun _ => keeps_bind (keeps_byId _ _) fun n => ?_
  refine keeps_get_bind fun s => keeps_ofExcept_bind fun r => ?_
  refine keeps_bind (keeps_setRecord _ _) fun _ => keeps_bind (keeps_read _) fun d => ?_
  refine keeps_ite ?_ (hend n)
  refine keeps_get_bind fun s => keeps_ofExcept_bind fun b => keeps_ite ?_ (hend n)
  refine keeps_bind (keeps_setRecord _ _) fun _ => ?_
  exact keeps_bind (keeps_throw _) fun _ => hend n

end Nodes

theorem keeps_deleteRelationship {R : GraphDb → GraphDb → Prop} [Trace R]
    [rshipTable.RecordsBy R] [rshipTable.DirtyBy R] (xid rid : Nat) :
    Keeps R (deleteRelationship xid rid) := by
  refine keeps_bind (keeps_checkTxContext _) fun _ => keeps_bind (keeps_byId _ _) fun n => ?_
  refine keeps_get_bind fun s => keeps_ofExcept_bind fun r => ?_
  exact keeps_bind (keeps_setRecord _ _) fun _ => keeps_addDeleted _ _ _

section Transactions

variable {R : GraphDb → GraphDb → Prop} [TxFrame R]

/-- A change of a transaction object. -/
theorem keeps_modifyTx (xid : Nat) (f : Transaction → Transaction) :
    Keeps R (modify (GraphDb.modifyTx xid f)) :=
  keeps_modify fun s => TxFrame.txs s _

theorem keeps_beginTransaction (xid : Nat) : Keeps R (beginTransaction xid) := by
  have hrest : Keeps R (do
      modify (GraphDb.modifyTx xid fun _ => ⟨true, [], []⟩)
      modify fun s : GraphDb => { s with activeTx := xid :: s.activeTx }) := by
    refine keeps_bind (keeps_modifyTx xid _) fun _ => ?_
    exact keeps_rest fun s => ⟨s.updateCounts, _, s.oldestXid, s.garbage, s.tasks, rfl⟩
  refine keeps_get_bind fun s => keeps_ite ?_ hrest
  exact keeps_bind (keeps_throw _) fun _ => hrest

/-- The frame of a commit around what is done to the records. -/
theorem keeps_commitFrame {xid : Nat} (hr : ∀ id, Keeps R (commitDirtyRelationship xid id))
    (hn : ∀ id, Keeps R (commitDirtyNode xid id)) : Keeps R (commitTransaction xid) := by
  refine keeps_bind (keeps_checkTxContext xid) fun _ =>
    keeps_bind (keeps_leaveActive xid) fun _ => ?_
  refine keeps_get_bind fun s => keeps_bind (keeps_forM hr) fun _ => ?_
  refine keeps_get_bind fun s => keeps_bind (keeps_forM hn) fun _ => ?_
  refine keeps_bind (keeps_modifyTx xid _) fun _ => ?_
  exact keeps_bind keeps_vacuum fun _ => keeps_pure _

end Transactions

/-! ## The smallest frames -/

/-- Nothing but records, property lists and the lists of transactions has
changed. -/
structure RecordsOnly (s s' : GraphDb) : Prop where
  nodes : ∃ v p, s'.nodes = { s.nodes with vec := v, props := p }
  rships : ∃ v p, s'.rships = { s.rships with vec := v, props := p }
  index : s'.index = s.index

instance frame_recordsOnly : TxFrame RecordsOnly where
  refl _ := ⟨⟨_, _, rfl⟩, ⟨_, _, rfl⟩, rfl⟩
  trans := by
    rintro s s' s'' ⟨⟨v, p, hn⟩, ⟨w, q, hr⟩, hi⟩ ⟨⟨v', p', hn'⟩, ⟨w', q', hr'⟩, hi'⟩
    refine ⟨⟨v', p', ?_⟩, ⟨w', q', ?_⟩, hi'.trans hi⟩
    · rw [hn', hn]
    · rw [hr', hr]
  nodes _ v p := ⟨⟨v, p, rfl⟩, ⟨_, _, rfl⟩, rfl⟩
  rships _ v p := ⟨⟨_, _, rfl⟩, ⟨v, p, rfl⟩, rfl⟩
  rest _ _ _ _ _ _ := ⟨⟨_, _, rfl⟩, ⟨_, _, rfl⟩, rfl⟩
  txs _ _ := ⟨⟨_, _, rfl⟩, ⟨_, _, rfl⟩, rfl⟩

/-- The transaction objects are the same. -/
def SameTxs (s s' : GraphDb) : Prop := s'.txs = s.txs

instance frame_sameTxs : Frame SameTxs where
  refl _ := rfl
  trans h h' := Eq.trans h' h
  nodes _ _ _ := rfl
  rships _ _ _ := rfl
  rest _ _ _ _ _ _ := rfl

end Poseidon.Temporal
