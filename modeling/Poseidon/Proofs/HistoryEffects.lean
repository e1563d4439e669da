import Mathlib.Logic.Relation
import Poseidon.Proofs.Frames

/-!
# What a call can do to the history

The history records, the maps from logical ids to their last records and the
index are changed in a few places only. `Effect` lists these changes, and
sequences of them are a frame: a call that changes records only has no effect.
Every call and every archival task does no more than a sequence of effects, so
that an invariant of the history has to be checked once for each kind of
effect and not for each call.
-/

namespace Poseidon.Temporal

open Wp Relation

/-- The history, the last records and the index are the same. -/
structure SameHistory (s s' : GraphDb) : Prop where
  nodeDeltas : s'.nodes.deltas = s.nodes.deltas
  nodeLast : s'.nodes.lastDelta = s.nodes.lastDelta
  rshipDeltas : s'.rships.deltas = s.rships.deltas
  rshipLast : s'.rships.lastDelta = s.rships.lastDelta
  index : s'.index = s.index

/-- A history record at the end, which becomes the last of its logical id. -/
def Table.addHistory {ε δ γ : Type} (t : Table ε δ γ) (d : HistoryDelta δ) (s : GraphDb) :
    GraphDb :=
  t.setLastDelta d.lid (encodeHistoryId (t.side s).deltas.length)
    (t.modifySide (fun sd => { sd with deltas := sd.deltas ++ [d] }) s)

/-- One change of the history. -/
inductive Effect : GraphDb → GraphDb → Prop
  | quiet {s s' : GraphDb} (h : SameHistory s s') : Effect s s'
  | indexHot (s : GraphDb) (lid vt id : Nat) (isRel : Bool) :
      Effect s { s with index := insertVersion s.index lid vt .hot id isRel }
  | indexRemove (s : GraphDb) (lid vt : Nat) (isRel : Bool) :
      Effect s { s with index := removeVersion s.index lid vt isRel }
  | baseNode (s : GraphDb) (d : HistoryDelta NodeLinks) : Effect s (nodeTable.addHistory d s)
  | baseRship (s : GraphDb) (d : HistoryDelta RshipHistoryLinks) :
      Effect s (rshipTable.addHistory d s)
  | archiveNode (s : GraphDb) (d : HistoryDelta NodeLinks) (h : s.nodes.deltas.length < 2 ^ 56) :
      Effect s (nodeTable.indexHist d.lid d.vtStart (encodeHistoryId s.nodes.deltas.length)
        (nodeTable.addHistory d s))
  | archiveRship (s : GraphDb) (d : HistoryDelta RshipHistoryLinks)
      (h : s.rships.deltas.length < 2 ^ 56) :
      Effect s (rshipTable.indexHist d.lid d.vtStart (encodeHistoryId s.rships.deltas.length)
        (rshipTable.addHistory d s))

/-- A sequence of changes. -/
abbrev Effects : GraphDb → GraphDb → Prop := ReflTransGen Effect

/-- A frame that allows the changes of the history. -/
class HistFrame (R : GraphDb → GraphDb → Prop) : Prop extends Frame R where
  quiet : ∀ {s s'}, SameHistory s s' → s'.txs = s.txs → R s s'
  indexHot : ∀ s lid vt id isRel,
    R s { s with index := insertVersion s.index lid vt .hot id isRel }
  indexRemove : ∀ s lid vt isRel, R s { s with index := removeVersion s.index lid vt isRel }
  baseNode : ∀ s d, R s (nodeTable.addHistory d s)
  baseRship : ∀ s d, R s (rshipTable.addHistory d s)
  archiveNode : ∀ s d, s.nodes.deltas.length < 2 ^ 56 →
    R s (nodeTable.indexHist d.lid d.vtStart (encodeHistoryId s.nodes.deltas.length)
      (nodeTable.addHistory d s))
  archiveRship : ∀ s d, s.rships.deltas.length < 2 ^ 56 →
    R s (rshipTable.indexHist d.lid d.vtStart (encodeHistoryId s.rships.deltas.length)
      (rshipTable.addHistory d s))

instance histFrame_effects : HistFrame Effects where
  refl _ := .refl
  trans h h' := h.trans h'
  nodes _ _ _ := .single (.quiet ⟨rfl, rfl, rfl, rfl, rfl⟩)
  rships _ _ _ := .single (.quiet ⟨rfl, rfl, rfl, rfl, rfl⟩)
  rest _ _ _ _ _ _ := .single (.quiet ⟨rfl, rfl, rfl, rfl, rfl⟩)
  quiet h _ := .single (.quiet h)
  indexHot s lid vt id isRel := .single (.indexHot s lid vt id isRel)
  indexRemove s lid vt isRel := .single (.indexRemove s lid vt isRel)
  baseNode s d := .single (.baseNode s d)
  baseRship s d := .single (.baseRship s d)
  archiveNode s d h := .single (.archiveNode s d h)
  archiveRship s d h := .single (.archiveRship s d h)

instance txFrame_effects : TxFrame Effects where
  txs _ _ := .single (.quiet ⟨rfl, rfl, rfl, rfl, rfl⟩)

instance histFrame_sameTxs : HistFrame SameTxs where
  quiet _ h := h
  indexHot _ _ _ _ _ := rfl
  indexRemove _ _ _ _ := rfl
  baseNode _ _ := rfl
  baseRship _ _ := rfl
  archiveNode _ _ _ := rfl
  archiveRship _ _ _ := rfl

theorem keeps_quiet {R : GraphDb → GraphDb → Prop} [HistFrame R] {f : GraphDb → GraphDb}
    (h : ∀ s, SameHistory s (f s)) (htx : ∀ s, (f s).txs = s.txs) :
    Keeps R (modify f : DbM PUnit) := keeps_modify fun s => HistFrame.quiet (h s) (htx s)

/-! ## The tables -/

/-- The two tables change their own side only. -/
class Table.Lawful {ε δ γ : Type} (t : Table ε δ γ) : Prop extends t.Framed where
  same : ∀ (s : GraphDb) (sd : Side ε δ γ), sd.deltas = (t.side s).deltas →
    sd.lastDelta = (t.side s).lastDelta → SameHistory s (t.setSide sd s)
  sameTxs : ∀ s sd, (t.setSide sd s).txs = s.txs
  base : ∀ {R} [HistFrame R], ∀ s d, R s (t.addHistory d s)
  archive : ∀ {R} [HistFrame R], ∀ s d, (t.side s).deltas.length < 2 ^ 56 →
    R s (t.indexHist d.lid d.vtStart (encodeHistoryId (t.side s).deltas.length)
      (t.addHistory d s))

instance lawful_nodeTable : nodeTable.Lawful where
  same _ _ hd hl := ⟨hd, hl, rfl, rfl, rfl⟩
  sameTxs _ _ := rfl
  base := HistFrame.baseNode
  archive := HistFrame.archiveNode

instance lawful_rshipTable : rshipTable.Lawful where
  same _ _ hd hl := ⟨rfl, rfl, hd, hl, rfl⟩
  sameTxs _ _ := rfl
  base := HistFrame.baseRship
  archive := HistFrame.archiveRship

/-- Whether a task is one for a relationship. -/
def Task.isRel : Task → Bool
  | .node _ => false
  | .rship _ => true

/-- `R` allows the changes that calls make to the history of a table, to its
map of current versions and to its tasks. -/
class Table.HistBy {ε δ γ : Type} (t : Table ε δ γ) (R : GraphDb → GraphDb → Prop) :
    Prop where
  current : ∀ s f, R s (t.setSide { t.side s with logicalIndex := f } s)
  checkpoint : ∀ s f, R s (t.setSide { t.side s with checkpoints := f } s)
  counts : ∀ s f, R s { s with updateCounts := f }
  hot : ∀ s lid vt id, R s (t.indexHot lid vt id s)
  remove : ∀ s lid vt, R s { s with index := removeVersion s.index lid vt t.isRel }
  base : ∀ s d, R s (t.addHistory d s)
  archive : ∀ s d, (t.side s).deltas.length < 2 ^ 56 →
    R s (t.indexHist d.lid d.vtStart (encodeHistoryId (t.side s).deltas.length)
      (t.addHistory d s))
  submit : ∀ s k, k.isRel = t.isRel → R s { s with tasks := s.tasks ++ [k] }

instance histBy_lawful {R : GraphDb → GraphDb → Prop} [HistFrame R] {ε δ γ : Type}
    {t : Table ε δ γ} [t.Lawful] : t.HistBy R where
  current _ _ := HistFrame.quiet (Table.Lawful.same _ _ rfl rfl) (Table.Lawful.sameTxs _ _)
  checkpoint _ _ := HistFrame.quiet (Table.Lawful.same _ _ rfl rfl) (Table.Lawful.sameTxs _ _)
  counts _ _ := HistFrame.quiet ⟨rfl, rfl, rfl, rfl, rfl⟩ rfl
  hot s lid vt id := HistFrame.indexHot s lid vt id t.isRel
  remove s lid vt := HistFrame.indexRemove s lid vt t.isRel
  base := Table.Lawful.base
  archive := Table.Lawful.archive
  submit _ _ _ := HistFrame.quiet ⟨rfl, rfl, rfl, rfl, rfl⟩ rfl

section Tables

variable {R : GraphDb → GraphDb → Prop} {ε δ γ : Type} {t : Table ε δ γ} [t.HistBy R]

theorem keeps_setCurrent (lid id : Nat) : Keeps R (modify (t.setCurrent lid id)) :=
  keeps_modify fun s => Table.HistBy.current s _

theorem keeps_eraseCurrent (lid : Nat) : Keeps R (modify (t.eraseCurrent lid)) :=
  keeps_modify fun s => Table.HistBy.current s _

theorem keeps_indexHot (lid vt id : Nat) : Keeps R (modify (t.indexHot lid vt id)) :=
  keeps_modify fun s => Table.HistBy.hot s lid vt id

variable [Trace R]

/-! ## Archiving -/

omit [t.HistBy R] in
theorem keeps_archiveLists [t.RecordsBy R] (a : ArchiveArgs δ γ) (count prev : Nat) :
    Keeps R (t.archiveLists a count prev) := by
  refine keeps_ite ?_ ?_
  · refine keeps_get_bind fun s => keeps_ofExcept_bind fun items => ?_
    exact keeps_bind (keeps_addPitems _ _) fun _ => keeps_pure _
  · refine keeps_get_bind fun s => keeps_ofExcept_bind fun prev => ?_
    exact keeps_bind (keeps_addPitems _ _) fun _ => keeps_pure _

omit [t.HistBy R] [Trace R] in
/-- A record that is appended, and then made the last of its logical id. -/
theorem wp_appendDelta {Q : Nat → GraphDb → Prop} {E : Err → GraphDb → Prop} {s : GraphDb}
    {d : HistoryDelta δ} :
    wp (t.appendDelta d) Q E s ↔
      if 2 ^ 56 ≤ (t.side s).deltas.length then E .slotInUse s
      else Q (t.side s).deltas.length
        (t.modifySide (fun sd => { sd with deltas := sd.deltas ++ [d] }) s) := by
  simp only [Table.appendDelta, wp_bind, wp_get]
  split
  · exact Iff.rfl
  · exact Iff.rfl

theorem keeps_archiveWith [t.RecordsBy R] (a : ArchiveArgs δ γ) : Keeps R (t.archiveWith a) := by
  refine keeps_get_bind fun s => keeps_modify_bind (fun s => Table.HistBy.counts t s _) fun _ =>
    keeps_get_bind fun s' => keeps_bind (keeps_archiveLists _ _ _) fun lists => ?_
  refine ⟨fun s => ?_⟩
  rw [always, wp_bind, wp_appendDelta]
  split
  · exact Trace.refl s
  · next hlt =>
    simp only [wp_bind, wp_modify]
    have harch : R s (t.indexHist a.lid a.vtStart (encodeHistoryId (t.side s).deltas.length)
        (t.setLastDelta a.lid (encodeHistoryId (t.side s).deltas.length)
          (t.modifySide (fun sd => { sd with deltas := sd.deltas ++ [_] }) s))) :=
      Table.HistBy.archive s ⟨a.lid, a.label, a.vtStart, a.newVtStart, lists.1, lists.2,
        ((t.side s').lastDelta a.lid).getD UNKNOWN, a.xid, 2 ^ 64 - 1, a.links⟩
        (Nat.lt_of_not_le hlt)
    split
    · split
      · exact Trace.trans harch (Table.HistBy.checkpoint _ _)
      · exact harch
    · exact harch

/-! ## Versions -/

variable [t.RecordsBy R]

theorem keeps_linkVersion (lid slot vtStart : Nat) :
    Keeps R (t.linkVersion lid slot vtStart) := by
  refine keeps_get_bind fun s => ?_
  split
  · refine keeps_getRecord_bind fun _ => keeps_bind (keeps_modifyObj _ _) fun _ => ?_
    refine keeps_bind (keeps_modifyObj _ _) fun _ => ?_
    exact keeps_bind (keeps_setCurrent _ _) fun _ => keeps_indexHot _ _ _
  · exact keeps_bind (keeps_setCurrent _ _) fun _ => keeps_indexHot _ _ _

theorem keeps_addVersion [t.DirtyBy R] (xid : Nat) (p : Stored) (label : Nat)
    (props : List PItem) (vtStart vtEnd lid : Nat) (links : ε) :
    Keeps R (t.addVersion xid p label props vtStart vtEnd lid links) := by
  refine keeps_bind (keeps_insertRecord _ _ _) fun _ => keeps_getRecord_bind fun _ => ?_
  refine keeps_bind (keeps_modifyObj _ _) fun _ => keeps_ite ?_ (keeps_addInserted _ _ _)
  exact keeps_bind (keeps_linkVersion _ _ _) fun _ => keeps_addInserted _ _ _

end Tables

section Writes

variable {R : GraphDb → GraphDb → Prop} [Trace R]

theorem keeps_currentNodeOrZero [nodeTable.HistBy R] (lid : Nat) :
    Keeps R (currentNodeOrZero lid) := by
  refine keeps_get_bind fun s => ?_
  split
  · exact keeps_pure _
  · exact keeps_bind (keeps_setCurrent _ _) fun _ => keeps_pure _

section Nodes

variable [nodeTable.RecordsBy R] [nodeTable.DirtyBy R] [nodeTable.HistBy R]

theorem keeps_addNode (xid : Nat) (p : Stored) (label : Nat) (props : List PItem)
    (vtStart vtEnd lid : Nat) : Keeps R (addNode xid p label props vtStart vtEnd lid) :=
  keeps_bind (keeps_checkTxContext _) fun _ => keeps_addVersion ..

theorem keeps_updateNodeCreateVersion (xid nodeId : Nat) (p : Stored) (props : List PItem)
    (vt : Nat) : Keeps R (updateNodeCreateVersion xid nodeId p props vt) := by
  refine keeps_bind (keeps_checkTxContext _) fun _ => keeps_bind (keeps_byId _ _) fun old => ?_
  refine keeps_bind (keeps_read _) fun d => keeps_bind (keeps_addDirty _ _) fun _ => ?_
  refine keeps_get_bind fun s => keeps_ofExcept_bind fun oldProps => ?_
  refine keeps_bind (keeps_addNode ..) fun _ => keeps_bind (keeps_byId _ _) fun new => ?_
  refine keeps_bind (keeps_read _) fun o => keeps_bind (keeps_modifyAt _ _) fun _ => ?_
  refine keeps_modify_bind (fun s => Table.HistBy.submit (t := nodeTable) s _ rfl) fun _ => ?_
  exact keeps_bind (keeps_supersede _ _ _) fun _ => keeps_setCurrent _ _

theorem keeps_closeNodeAtVt (xid nodeId vt : Nat) : Keeps R (closeNodeAtVt xid nodeId vt) := by
  refine keeps_bind (keeps_checkTxContext _) fun _ => keeps_bind (keeps_byId _ _) fun n => ?_
  refine keeps_bind (keeps_addDirty _ _) fun _ =>
    keeps_bind (keeps_modifyAt _ _) fun _ => keeps_bind (keeps_read _) fun d => ?_
  refine keeps_bind (keeps_archiveWith _) fun _ => ?_
  exact keeps_eraseCurrent _

end Nodes

section Rships

variable [nodeTable.RecordsBy R] [nodeTable.DirtyBy R] [rshipTable.RecordsBy R]
variable [rshipTable.DirtyBy R] [rshipTable.HistBy R]

theorem keeps_addRelationship (xid : Nat) (p : Stored) (fromId toId label : Nat)
    (props : List PItem) (vtStart vtEnd lid : Nat) :
    Keeps R (addRelationship xid p fromId toId label props vtStart vtEnd lid) := by
  refine keeps_bind (keeps_checkTxContext _) fun _ => keeps_bind (keeps_byId _ _) fun n => ?_
  refine keeps_bind (keeps_byId _ _) fun n' => ?_
  refine keeps_bind (keeps_addVersion ..) fun _ => keeps_get_bind fun s => ?_
  exact keeps_bind (keeps_updateFromNode _ _ _) fun _ => keeps_updateToNode _ _ _

theorem keeps_updateRelationshipCreateVersion [nodeTable.HistBy R] (xid rshipId : Nat)
    (p : Stored) (props : List PItem) (vt : Nat) :
    Keeps R (updateRelationshipCreateVersion xid rshipId p props vt) := by
  refine keeps_bind (keeps_checkTxContext _) fun _ => keeps_bind (keeps_byId _ _) fun old => ?_
  refine keeps_bind (keeps_read _) fun d => keeps_bind (keeps_addDirty _ _) fun _ => ?_
  refine keeps_bind (keeps_logicalIdOf _) fun _ => keeps_bind (keeps_logicalIdOf _) fun _ => ?_
  refine keeps_modify_bind (fun s => Table.HistBy.submit (t := rshipTable) s _ rfl) fun _ => ?_
  refine keeps_bind (keeps_currentNodeOrZero _) fun _ =>
    keeps_bind (keeps_currentNodeOrZero _) fun _ => ?_
  refine keeps_get_bind fun s => keeps_ofExcept_bind fun oldProps => ?_
  refine keeps_bind (keeps_addRelationship ..) fun _ =>
    keeps_bind (keeps_byId _ _) fun new => keeps_bind (keeps_read _) fun o => ?_
  refine keeps_bind (keeps_modifyAt _ _) fun _ =>
    keeps_bind (keeps_setCurrent _ _) fun _ => ?_
  exact keeps_supersede _ _ _

omit [nodeTable.RecordsBy R] [nodeTable.DirtyBy R] in
theorem keeps_closeRelationshipAtVt (xid rshipId vt : Nat) :
    Keeps R (closeRelationshipAtVt xid rshipId vt) := by
  refine keeps_bind (keeps_checkTxContext _) fun _ => keeps_bind (keeps_byId _ _) fun n => ?_
  refine keeps_bind (keeps_addDirty _ _) fun _ =>
    keeps_bind (keeps_modifyAt _ _) fun _ => keeps_bind (keeps_read _) fun d => ?_
  refine keeps_bind (keeps_logicalIdOf _) fun _ => keeps_bind (keeps_logicalIdOf _) fun _ => ?_
  refine keeps_bind (keeps_archiveWith _) fun _ => ?_
  exact keeps_eraseCurrent _

end Rships

end Writes

/-- A write does no more to the history than the effects. -/
theorem Write.does {R : GraphDb → GraphDb → Prop} [HistFrame R] [nodeTable.DirtyBy R]
    [rshipTable.DirtyBy R] (xid : Nat) : ∀ w : Write, Keeps R (w.exec xid)
  | .addNode .. => keeps_addNode ..
  | .updateNode .. => keeps_updateNodeCreateVersion ..
  | .closeNode .. => keeps_closeNodeAtVt ..
  | .deleteNode .. => keeps_deleteNode ..
  | .addRship .. => keeps_addRelationship ..
  | .updateRship .. => keeps_updateRelationshipCreateVersion ..
  | .closeRship .. => keeps_closeRelationshipAtVt ..
  | .deleteRship .. => keeps_deleteRelationship ..

/-! ## Commit and abort -/

section Tables

variable {R : GraphDb → GraphDb → Prop} [Trace R] {ε δ γ : Type} {t : Table ε δ γ} [t.HistBy R]

theorem keeps_abortDirty [t.RecordsBy R] (xid id : Nat) : Keeps R (t.abortDirty xid id) := by
  have hremove : ∀ lid vt, Keeps R (modify fun s : GraphDb =>
      { s with index := removeVersion s.index lid vt t.isRel }) := fun lid vt =>
    keeps_modify fun s => Table.HistBy.remove s lid vt
  have hfree : Keeps R (modify (t.free id)) := keeps_modify fun s => frame_setRecord id _ s
  have herase : ∀ c : Prop, ∀ _ : Decidable c, ∀ lid,
      Keeps R (if c then modify (t.eraseCurrent lid) else pure ()) := fun c _ lid =>
    keeps_ite (keeps_eraseCurrent lid) (keeps_pure _)
  refine keeps_getRecord_bind fun r => keeps_ite (keeps_ite ?_ ?_) ?_
  · exact keeps_bind (hremove _ _) fun _ => keeps_bind hfree fun _ => herase _ _ _
  · exact keeps_bind hfree fun _ => herase _ _ _
  · refine keeps_bind (keeps_modifyObj _ _) fun _ => keeps_ite ?_ (keeps_pure _)
    refine keeps_bind (keeps_setCurrent _ _) fun _ => keeps_bind (hremove _ _) fun _ => ?_
    exact keeps_indexHot _ _ _

/-- A first history record. -/
theorem keeps_addBase (d : HistoryDelta δ) :
    Keeps R (do
      let rawId ← t.appendDelta d
      modify (t.setLastDelta d.lid (encodeHistoryId rawId))) := by
  refine ⟨fun s => ?_⟩
  rw [always, wp_bind, wp_appendDelta]
  split
  · exact Trace.refl s
  · exact Table.HistBy.base s d

end Tables

section Nodes

variable {R : GraphDb → GraphDb → Prop} [Trace R] [nodeTable.RecordsBy R] [nodeTable.HistBy R]

omit [nodeTable.RecordsBy R] in
theorem keeps_archiveBaseNode (xid id : Nat) : Keeps R (archiveBaseNode xid id) :=
  keeps_get_bind fun _ => keeps_ite (keeps_addBase _) (keeps_pure _)

theorem keeps_commitInsertNode (xid id : Nat) (dn : DirtyObject (Versioned NodeLinks)) :
    Keeps R (commitInsertNode xid id dn) := by
  refine keeps_bind (keeps_copyProperties _ _) fun _ =>
    keeps_bind (keeps_modifyData _ _) fun _ => ?_
  refine keeps_bind (keeps_modifyObj id _) fun _ =>
    keeps_bind (keeps_modifyData id _) fun _ => ?_
  refine keeps_bind (keeps_archiveBaseNode _ _) fun _ => ?_
  exact keeps_modify fun s => frame_setRecord id _ s

variable [rshipTable.LinksBy R]

theorem keeps_commitDeleteNode (xid id : Nat) (dn : DirtyObject (Versioned NodeLinks)) :
    Keeps R (commitDeleteNode xid id dn) := by
  refine keeps_get_bind fun s => keeps_get_bind fun s => keeps_ofExcept_bind fun _ => ?_
  refine keeps_modify_bind (fun s => Table.RecordsBy.garbage (t := nodeTable) s xid id) fun _ => ?_
  refine keeps_bind (keeps_modifyObj _ _) fun _ =>
    keeps_bind (keeps_eraseCurrent _) fun _ =>
    keeps_bind (keeps_modifyData _ _) fun _ => keeps_get_bind fun s => ?_
  exact keeps_bind (keeps_archiveWith _) fun _ => keeps_detachNode id _

theorem keeps_commitDirtyNode (xid id : Nat) : Keeps R (commitDirtyNode xid id) :=
  keeps_commitDirty (keeps_commitInsertNode xid id) (keeps_commitDeleteNode xid id)
    (keeps_commitUpdateNode xid id) id

end Nodes

section Rships

variable {R : GraphDb → GraphDb → Prop} [Trace R] [rshipTable.RecordsBy R] [rshipTable.HistBy R]

theorem keeps_archiveBaseRship (xid id : Nat) : Keeps R (archiveBaseRship xid id) := by
  refine keeps_get_bind fun _ => keeps_ite ?_ (keeps_pure _)
  refine keeps_get_bind fun s => keeps_ofExcept_bind fun items => ?_
  refine keeps_bind (keeps_addPitems _ _) fun _ => ?_
  refine keeps_bind (keeps_logicalIdOf _) fun _ => keeps_bind (keeps_logicalIdOf _) fun _ => ?_
  exact keeps_addBase _

theorem keeps_commitInsertRship (xid id : Nat) (dr : DirtyObject (Versioned RshipLinks)) :
    Keeps R (commitInsertRship xid id dr) := by
  refine keeps_bind (keeps_modifyObj id _) fun _ =>
    keeps_bind (keeps_modifyData _ _) fun _ => ?_
  refine keeps_bind (keeps_copyProperties _ _) fun _ =>
    keeps_bind (keeps_modifyData id _) fun _ => ?_
  refine keeps_bind (keeps_archiveBaseRship _ _) fun _ => ?_
  exact keeps_modify fun s => frame_setRecord id _ s

variable [nodeTable.LinksBy R]

theorem keeps_commitDeleteRship (xid id : Nat) (dr : DirtyObject (Versioned RshipLinks)) :
    Keeps R (commitDeleteRship xid id dr) := by
  refine keeps_get_bind fun s => keeps_bind (keeps_logicalIdOf _) fun _ =>
    keeps_bind (keeps_logicalIdOf _) fun _ => ?_
  refine keeps_bind (keeps_modifyData _ _) fun _ => keeps_get_bind fun s =>
    keeps_bind (keeps_archiveWith _) fun _ => ?_
  refine keeps_get_bind fun s => keeps_ofExcept_bind fun _ => ?_
  refine keeps_modify_bind (fun s => Table.RecordsBy.garbage (t := rshipTable) s xid id)
    fun _ => ?_
  refine keeps_bind (keeps_modifyObj _ _) fun _ =>
    keeps_bind (keeps_eraseCurrent _) fun _ => ?_
  exact keeps_detachRship id _

theorem keeps_commitDirtyRelationship (xid id : Nat) :
    Keeps R (commitDirtyRelationship xid id) :=
  keeps_commitDirty (keeps_commitInsertRship xid id)
    (keeps_commitDeleteRship xid id) (keeps_commitUpdateRship xid id) id

end Rships

/-! ## Tasks and the end of a transaction -/

theorem keeps_runNode {R : GraphDb → GraphDb → Prop} [Trace R] [nodeTable.RecordsBy R]
    [nodeTable.HistBy R] (a : Archival NodeLinks) : Keeps R (Task.run (.node a)) := by
  refine keeps_bind (keeps_archiveWith _) fun h => ?_
  split
  · exact keeps_getRecord_bind fun _ => keeps_modifyData _ _
  · exact keeps_pure _

theorem keeps_runRship {R : GraphDb → GraphDb → Prop} [Trace R] [rshipTable.RecordsBy R]
    [rshipTable.HistBy R] (a : Archival RshipHistoryLinks) : Keeps R (Task.run (.rship a)) :=
  keeps_bind (keeps_archiveWith _) fun _ => keeps_pure _

section Commit

variable {R : GraphDb → GraphDb → Prop} [HistFrame R]

theorem Task.keeps_run (task : Task) : Keeps R task.run := by
  cases task with
  | node a => exact keeps_runNode a
  | rship a => exact keeps_runRship a

theorem keeps_work (i : Nat) : Keeps R (work i) := by
  refine keeps_get_bind fun s => ?_
  split
  · refine keeps_bind (keeps_quiet (fun _ => ⟨rfl, rfl, rfl, rfl, rfl⟩) fun _ => rfl) fun _ => ?_
    exact keeps_runTask (Task.keeps_run _)
  · exact keeps_pure _

variable [TxFrame R]

theorem keeps_commitTransaction (xid : Nat) : Keeps R (commitTransaction xid) :=
  keeps_commitFrame (keeps_commitDirtyRelationship xid) (keeps_commitDirtyNode xid)

theorem keeps_abortTransaction (xid : Nat) : Keeps R (abortTransaction xid) := by
  refine keeps_get_bind fun s => keeps_ite (keeps_pure _) ?_
  refine keeps_bind (keeps_leaveActive xid) fun _ => keeps_get_bind fun s => ?_
  refine keeps_bind (keeps_forM fun id => keeps_swallow (keeps_abortDirty xid id)) fun _ => ?_
  refine keeps_get_bind fun s => ?_
  refine keeps_bind (keeps_forM fun id => keeps_swallow (keeps_abortDirty xid id)) fun _ => ?_
  refine keeps_bind keeps_vacuum fun _ => ?_
  exact keeps_bind (keeps_modifyTx xid _) fun _ => keeps_pure _

/-! ## Steps -/

/-- A step does no more to the history than the effects. -/
theorem Step.does : ∀ a : Step, Keeps R a.exec
  | .begin xid => keeps_ite (keeps_throw _) (keeps_beginTransaction xid)
  | .write xid w => w.does xid
  | .nodeAt lid vt => keeps_bind (keeps_getAtVt lid vt) fun _ => keeps_pure _
  | .rshipAt lid vt => keeps_bind (keeps_getAtVt lid vt) fun _ => keeps_pure _
  | .commit xid => keeps_bind (keeps_commitTransaction xid) fun _ => keeps_pure _
  | .abort xid => keeps_bind (keeps_abortTransaction xid) fun _ => keeps_pure _
  | .work i => keeps_work i

end Commit

/-- A run changes the history by a sequence of effects. -/
theorem GraphDb.run_effects (s : GraphDb) (as : List Step) : Effects s (s.run as) := by
  induction as generalizing s with
  | nil => exact .refl
  | cons a as ih =>
      have hstep : Effects s (s.step a) := step_of_always (a.does.always s)
      exact hstep.trans (ih _)

end Poseidon.Temporal
