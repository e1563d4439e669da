import Poseidon.Proofs.PropertyReads
import Poseidon.Proofs.RecordWalk

/-!
# A delete that is refused

`delete_node` takes the lock of the version it has read, looks for visible
relationships and, if there are some, gives the lock back before it throws.
It gives the lock back whoever has taken it: if the transaction has changed the
node before, the version that it reads is its own, and other transactions may
now write to it.
-/

namespace Poseidon

open Wp

variable {α : Type}

/-! ## Other errors -/

/-- A result that is not `orphaned_relationship`. -/
abbrev Unorphaned {β : Type} (x : Except Err β) : Prop := x ≠ .error .orphanedRelationship

theorem Unorphaned.map {β γ : Type} {x : Except Err β} (h : Unorphaned x) (f : β → γ) :
    Unorphaned (x.map f) := by
  cases x with
  | ok b => exact fun he => (by cases he)
  | error e => exact fun he => h (congrArg _ (Except.error.inj he))

theorem findValidLoop_unorphaned {xid : Nat} (l : List (DirtyObject α)) (abort : Bool) :
    Unorphaned (Record.findValidLoop xid abort l) := by
  induction l generalizing abort with
  | nil =>
      rw [Record.findValidLoop]
      split
      · exact fun h => (by cases h)
      · exact fun h => (by cases h)
  | cons dn rest ih =>
      rw [Record.findValidLoop]
      have h1 := ih true
      have h2 := ih abort
      grind

theorem getValidVersion_unorphaned (r : Record α) (xid : Nat) :
    Unorphaned (r.getValidVersion xid) := by
  have hfind := @findValidLoop_unorphaned _ xid r.dirtyList false
  have hmap := hfind.map fun dn => Loc.copy dn.addr
  unfold Record.getValidVersion Record.findValidVersion
  grind

theorem lockForWrite_unorphaned (r : Record α) (l : Loc) (xid : Nat) :
    Unorphaned (r.lockForWrite l xid) := by
  unfold Record.lockForWrite
  grind

theorem hasValidRships_unorphaned (s : GraphDb) (xid : Nat) (next : RshipData → Nat)
    (fuel rid : Nat) : Unorphaned (hasValidRships s xid next fuel rid) := by
  induction fuel generalizing rid with
  | zero =>
      rw [hasValidRships]
      grind
  | succ fuel ih =>
      rw [hasValidRships]
      unfold Vec.get
      grind

theorem hasValidRshipsOf_unorphaned (s : GraphDb) (d : NodeData) (xid : Nat) :
    Unorphaned (hasValidRshipsOf s d xid) := by
  unfold hasValidRshipsOf
  split
  · exact hasValidRships_unorphaned s xid _ _ _
  · exact hasValidRships_unorphaned s xid _ _ _

theorem walk_unorphaned (t : PropertyList) (fuel id : Nat) : Unorphaned (t.walk fuel id) := by
  induction fuel generalizing id with
  | zero =>
      rw [PropertyList.walk]
      grind
  | succ fuel ih =>
      have hmap := fun p : PropertySet => (ih p.next).map (p :: ·)
      rw [PropertyList.walk]
      unfold PropertyList.atId
      grind

theorem buildDirtyPropertyList_unorphaned (t : PropertyList) (id : Nat) :
    Unorphaned (t.buildDirtyPropertyList id) := ((walk_unorphaned t _ id).map _).map _

/-! ## The refusal -/

variable {T nid : Nat} {s s' : GraphDb}

theorem wp_read_self {n : Ref} : wp (nodeTable.read n) (fun _ s' => s' = s)
    (fun e _ => e ≠ .orphanedRelationship) s := by
  simp only [Table.read, wp_bind, wp_get]
  split
  · rfl
  · exact fun h => (by cases h)

theorem addDeleted_unorphaned {n : Ref} {keep : Record NodeData → Bool} {P : GraphDb → Prop} :
    wp (nodeTable.addDeleted T n keep) (fun _ _ => True)
      (fun e s' => e = .orphanedRelationship → P s') s := by
  simp only [Table.addDeleted, Table.read, wp_bind, wp_get]
  split
  · refine wp_ite (fun _ => ?_) fun _ => trivial
    simp only [wp_bind, wp_get, wp_ofExcept]
    refine ⟨fun _ _ => trivial, fun e he heq => ?_⟩
    exact absurd (heq ▸ he) (buildDirtyPropertyList_unorphaned _ _)
  · exact fun h => (by cases h)

/-- The store after a delete that is refused. -/
theorem deleteNode_refused : wp (deleteNode T nid) (fun _ _ => True)
    (fun e s' => e = .orphanedRelationship → ∃ l r, (s.txs T).running = true ∧
      (nodeTable.record s nid).used = true ∧
      ((nodeTable.record s nid).recordRead T).getValidVersion T = .ok l ∧
      ((nodeTable.record s nid).recordRead T).lockForWrite l T = .ok r ∧
      s' = nodeTable.setRecord nid (r.modifyAt l Obj.unlock)
        (nodeTable.setRecord nid r
          (nodeTable.setRecord nid ((nodeTable.record s nid).recordRead T) s))) s := by
  simp only [deleteNode, wp_bind, wp_checkTxContext]
  refine ⟨fun hrun => ?_, fun _ h => (by cases h)⟩
  simp only [nodeById, Table.byId, Table.getRecord, wp_bind, wp_checkTxContext, wp_get, wp_ofExcept,
    wp_modify, wp_pure]
  refine ⟨fun _ => ⟨fun r₀ hr₀ => ⟨fun l hl => ?_, ?_⟩, ?_⟩, fun _ h => (by cases h)⟩
  · have hget : r₀ = nodeTable.record s nid ∧ (nodeTable.record s nid).used = true := by
      simp only [Vec.get] at hr₀
      split at hr₀
      · next hu =>
        cases hr₀
        exact ⟨rfl, hu⟩
      · cases hr₀
    obtain ⟨rfl, hu⟩ := hget
    rw [nodeTable_record_setRecord]
    refine ⟨fun r hlock => ?_, fun e he heq => ?_⟩
    · refine wp_mono wp_read_self ?_ fun e _ he heq => absurd heq he
      rintro o _ rfl
      refine wp_ite (fun _ => ?_) fun _ => addDeleted_unorphaned
      simp only [wp_bind, wp_get, wp_ofExcept]
      refine ⟨fun b _ => wp_ite (fun _ => ?_) fun _ => addDeleted_unorphaned,
        fun e he heq => ?_⟩
      · simp only [wp_bind, wp_modify, wp_throw]
        exact fun _ => ⟨l, r, hrun, hu, hl, hlock, rfl⟩
      · exact absurd (heq ▸ he) (hasValidRshipsOf_unorphaned _ _ _)
    · exact absurd (heq ▸ he) (lockForWrite_unorphaned _ _ _)
  · exact fun e he heq => absurd (heq ▸ he) (getValidVersion_unorphaned _ _)
  · intro e he heq
    simp only [Vec.get] at he
    split at he
    · cases he
    · cases he
      cases heq

/-! ## What a refusal leaves -/

/-- The lock words, the dirty versions and the dirty lists are those of
before. -/
structure GraphDb.SameWork (s s' : GraphDb) : Prop where
  locks : ∀ id, (s'.nodes.slots id).obj.txnId = (s.nodes.slots id).obj.txnId
  versions : ∀ id, (s'.nodes.slots id).dirtyList = (s.nodes.slots id).dirtyList
  rships : s'.rships = s.rships
  txs : s'.txs = s.txs

/-- The version of the node that the transaction reads is locked by it. -/
def GraphDb.ReadsOwn (s : GraphDb) (T nid : Nat) : Prop :=
  ∃ l o, (nodeTable.record s nid).getValidVersion T = .ok l ∧
    (nodeTable.record s nid).deref l = some o ∧ o.txnId = T

/-- Changing twice what only one dirty version has the address of. -/
theorem Record.Addressed.map_eq {r : Record α} (h : r.Addressed) {dn : DirtyObject α}
    (hdn : dn ∈ r.dirtyList) {f : DirtyObject α → DirtyObject α} (hf : f dn = dn) :
    (r.dirtyList.map fun d => if d.addr = dn.addr then f d else d) = r.dirtyList := by
  refine (List.map_congr_left fun d hd => ?_).trans (List.map_id _)
  split
  · next heq => rw [List.inj_on_of_nodup_map h.nodup hd hdn heq, hf]; rfl
  · rfl

/-- A lock that is there, or one that is taken. -/
theorem lockForWrite_cases {r r' : Record α} {l : Loc} {o : Obj α}
    (hlock : r.lockForWrite l T = .ok r') (ho : r.deref l = some o) :
    (o.txnId = T ∧ r' = r) ∨
      (o.txnId ≠ T ∧ o.txnId = 0 ∧ r' = r.modifyAt l fun _ => { o with txnId := T }) := by
  rw [Record.lockForWrite, ho] at hlock
  simp only [] at hlock
  split at hlock
  · cases hlock
  split at hlock
  · next hown =>
    cases hlock
    exact .inl ⟨Obj.isLockedBy_iff.mp hown, rfl⟩
  · next hown =>
    rw [Obj.tryLock] at hlock
    split at hlock
    · next n hn =>
      split at hn
      · next h0 =>
        cases hn
        cases hlock
        exact .inr ⟨fun h => hown (Obj.isLockedBy_iff.mpr h), h0, rfl⟩
      · cases hn
    · cases hlock

/-- Giving the lock back restores a version that was not locked, and changes
one that was. -/
theorem unlock_locked {r r' : Record α} {l : Loc} {o : Obj α} (ha : r.Addressed) (hx : T ≠ 0)
    (hl : r.getValidVersion T = .ok l) (hlock : r.lockForWrite l T = .ok r')
    (ho : r.deref l = some o) :
    (o.txnId ≠ T → r'.modifyAt l Obj.unlock = r) ∧
      (o.txnId = T → (r'.modifyAt l Obj.unlock).dirtyList ≠ r.dirtyList) := by
  rcases (Record.getValidVersion_ok_iff hx).mp hl with ⟨h0, -, rfl⟩ | ⟨-, dn, hdn, rfl⟩
  · -- a slot is read only if nobody has locked it
    cases ho
    rcases lockForWrite_cases hlock rfl with ⟨hT, -⟩ | ⟨hne, -, rfl⟩
    · exact absurd (h0.symm.trans hT).symm hx
    · refine ⟨fun _ => ?_, fun h => absurd h hne⟩
      simp only [Record.modifyAt, Obj.unlock, ← h0]
  · have hmem := (Record.findValidLoop_ok hdn).1
    have helem : o = dn.elem := by
      rw [Record.deref] at ho
      obtain ⟨d, hd, rfl⟩ := Option.map_eq_some_iff.mp ho
      have haddr : d.addr = dn.addr := by simpa using List.find?_some hd
      rw [List.inj_on_of_nodup_map ha.nodup (List.mem_of_find?_eq_some hd) hmem haddr]
    subst helem
    rcases lockForWrite_cases hlock ho with ⟨hT, rfl⟩ | ⟨hne, h0, rfl⟩
    · refine ⟨fun h => absurd hT h, fun _ heq => ?_⟩
      have hdn' : dn ∈ (r'.modifyAt (.copy dn.addr) Obj.unlock).dirtyList := heq ▸ hmem
      obtain ⟨d, hd, hfd⟩ := List.mem_map.mp hdn'
      split at hfd
      · have htxn : dn.elem.txnId = 0 := hfd ▸ rfl
        exact hx (hT.symm.trans htxn)
      · next haddr => exact haddr (hfd ▸ rfl)
    · refine ⟨fun _ => ?_, fun h => absurd h hne⟩
      have hmap := ha.map_eq hmem (f := fun d => { d with elem := { dn.elem with txnId := 0 } })
        (by rw [← h0])
      simp only [Record.modifyAt, List.map_map]
      have hcomp : r.dirtyList.map ((fun d => if d.addr = dn.addr then
            { d with elem := Obj.unlock d.elem } else d) ∘
          fun d => if d.addr = dn.addr then { d with elem := { dn.elem with txnId := T } } else d) =
          r.dirtyList := by
        refine Eq.trans (List.map_congr_left fun d _ => ?_) hmap
        by_cases hd : d.addr = dn.addr
        · simp only [Function.comp_apply, if_pos hd, Obj.unlock]
        · simp only [Function.comp_apply, if_neg hd]
      rw [hcomp]

/-- A read leaves the lock words as they are. -/
theorem deref_recordRead_txnId {r : Record α} {l : Loc} {o : Obj α}
    (ho : (r.recordRead T).deref l = some o) : ∃ o', r.deref l = some o' ∧ o'.txnId = o.txnId := by
  cases l with
  | slot =>
      cases ho
      refine ⟨r.obj, rfl, ?_⟩
      simp only [Record.recordRead, Obj.setRts_txnId]
      rfl
  | copy a => exact ⟨o, ho, rfl⟩

/-- A refused delete leaves no trace if and only if the transaction does not
read a version of its own. -/
theorem refused_delete_iff (as : List Step) (T nid : Nat) (s' : GraphDb)
    (h : deleteNode T nid (Sys.initial.run as).db = .error .orphanedRelationship s') :
    (Sys.initial.run as).db.SameWork s' ↔ ¬(Sys.initial.run as).db.ReadsOwn T nid := by
  have hsound := Sys.run_sound as
  have haddr := (Sys.run_addressed as).nodes nid
  revert h hsound haddr
  generalize (Sys.initial.run as).db = s
  intro h hsound haddr
  obtain ⟨l, r, hrun, hu, hl, hlock, rfl⟩ := wp_error deleteNode_refused h rfl
  have hx : T ≠ 0 := by
    rintro rfl
    rw [hsound.noZero] at hrun
    cases hrun
  obtain ⟨o, ho⟩ := Record.deref_of_getValidVersion hx hl
  obtain ⟨o', ho', htxn⟩ := deref_recordRead_txnId ho
  have hl' : (nodeTable.record s nid).getValidVersion T = .ok l :=
    (Record.getValidVersion_recordRead T ((hsound.nodes.slots nid).prepared hu)).symm.trans hl
  obtain ⟨hback, hleft⟩ := @unlock_locked _ T ((nodeTable.record s nid).recordRead T) r l o
    ⟨haddr.lt, haddr.nodup⟩ hx hl hlock ho
  have hown : s.ReadsOwn T nid ↔ o.txnId = T := by
    constructor
    · rintro ⟨l₁, o₁, hl₁, ho₁, h₁⟩
      rw [hl'] at hl₁
      cases hl₁
      rw [ho'] at ho₁
      cases ho₁
      exact htxn ▸ h₁
    · exact fun ht => ⟨l, o', hl', ho', htxn.trans ht⟩
  rw [hown]
  constructor
  · intro hsame ht
    refine hleft ht ?_
    have hv := hsame.versions nid
    simp only [nodeTable, Table.setRecord, Vec.put, if_true] at hv
    exact hv
  · intro ht
    rw [hback ht]
    refine ⟨fun id => ?_, fun id => ?_, rfl, rfl⟩
    · simp only [nodeTable, Table.setRecord, Vec.put]
      split
      · next heq =>
        rw [heq]
        simp only [Record.recordRead, Obj.setRts_txnId]
        rfl
      · rfl
    · simp only [nodeTable, Table.setRecord, Vec.put]
      split
      · next heq =>
        rw [heq]
        rfl
      · rfl

/-- Two nodes with a relationship; transaction 2 has read the first one. -/
def joinedRun : List Step :=
  [.begin 1, .addNode 1 0 1 .none, .addNode 1 1 1 .none, .addRelationship 1 0 0 1 2 .none,
    .commit 1, .begin 2, .nodeById 2 0]

theorem refused_delete_untouched : ∃ s', deleteNode 2 0 (Sys.initial.run joinedRun).db =
      .error .orphanedRelationship s' ∧ (Sys.initial.run joinedRun).db.SameWork s' := by
  refine ⟨_, rfl, (refused_delete_iff joinedRun 2 0 _ rfl).mpr ?_⟩
  rintro ⟨l, o, hl, ho, ht⟩
  have hl' : Except.ok Loc.slot = Except.ok l := hl
  cases hl'
  cases ho
  exact absurd ht (by decide)

/-- Transaction 2 has changed the node: after the refusal its new version is not
locked. -/
theorem refused_delete_unlocks_update :
    ∃ s', deleteNode 2 0 (Sys.initial.run (joinedRun ++ [.updateNode 2 ⟨0, .slot⟩ .none 7])).db =
      .error .orphanedRelationship s' ∧
      ¬(Sys.initial.run (joinedRun ++ [.updateNode 2 ⟨0, .slot⟩ .none 7])).db.SameWork s' := by
  refine ⟨_, rfl, fun h => ?_⟩
  have hv := congrArg (List.map fun d => d.elem.txnId) (h.versions 0)
  exact absurd hv (by decide)

end Poseidon
