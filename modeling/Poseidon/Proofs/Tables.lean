import Poseidon.Proofs.Reads
import Poseidon.Temporal.System

/-!
# The two tables of the temporal store

What the proofs use of the two tables: a side is one field of the store, so
that a change of a side leaves the other fields alone and the other way
round. With these laws the elementary operations have rules that hold for
nodes and relationships alike.
-/

namespace Poseidon.Temporal

open Wp

/-- The records of a table that a transaction has touched. -/
def Table.dirty {ε δ γ : Type} (t : Table ε δ γ) (x : Transaction) : List Nat :=
  if t.isRel then x.dirtyRships else x.dirtyNodes

/-- A side is a field of the store, and the dirty lists are elsewhere. -/
class Table.Laws {ε δ γ : Type} (t : Table ε δ γ) : Prop where
  side_setSide : ∀ sd s, t.side (t.setSide sd s) = sd
  side_rest : ∀ s counts ix active oldest garbage txs tasks,
    t.side ⟨s.nodes, s.rships, counts, ix, active, oldest, garbage, txs, tasks⟩ = t.side s
  updateCounts_setSide : ∀ sd s, (t.setSide sd s).updateCounts = s.updateCounts
  index_setSide : ∀ sd s, (t.setSide sd s).index = s.index
  activeTx_setSide : ∀ sd s, (t.setSide sd s).activeTx = s.activeTx
  oldestXid_setSide : ∀ sd s, (t.setSide sd s).oldestXid = s.oldestXid
  garbage_setSide : ∀ sd s, (t.setSide sd s).garbage = s.garbage
  txs_setSide : ∀ sd s, (t.setSide sd s).txs = s.txs
  tasks_setSide : ∀ sd s, (t.setSide sd s).tasks = s.tasks
  side_addDirty : ∀ xid id s, t.side (t.addDirty xid id s) = t.side s
  index_addDirty : ∀ xid id s, (t.addDirty xid id s).index = s.index
  garbage_addDirty : ∀ xid id s, (t.addDirty xid id s).garbage = s.garbage
  tasks_addDirty : ∀ xid id s, (t.addDirty xid id s).tasks = s.tasks
  activeTx_addDirty : ∀ xid id s, (t.addDirty xid id s).activeTx = s.activeTx
  oldestXid_addDirty : ∀ xid id s, (t.addDirty xid id s).oldestXid = s.oldestXid
  running_addDirty : ∀ xid id s x, ((t.addDirty xid id s).txs x).running = (s.txs x).running
  dirty_addDirty : ∀ xid id s x, t.dirty ((t.addDirty xid id s).txs x) =
    if x = xid then t.dirty (s.txs x) ++ [id] else t.dirty (s.txs x)

instance laws_nodeTable : nodeTable.Laws where
  side_setSide _ _ := rfl
  side_rest _ _ _ _ _ _ _ _ := rfl
  updateCounts_setSide _ _ := rfl
  index_setSide _ _ := rfl
  activeTx_setSide _ _ := rfl
  oldestXid_setSide _ _ := rfl
  garbage_setSide _ _ := rfl
  txs_setSide _ _ := rfl
  tasks_setSide _ _ := rfl
  side_addDirty _ _ _ := rfl
  index_addDirty _ _ _ := rfl
  garbage_addDirty _ _ _ := rfl
  tasks_addDirty _ _ _ := rfl
  activeTx_addDirty _ _ _ := rfl
  oldestXid_addDirty _ _ _ := rfl
  running_addDirty xid id s x := by
    by_cases hx : x = xid
    · simp [nodeTable, GraphDb.modifyTx, hx]
    · simp [nodeTable, GraphDb.modifyTx, hx]
  dirty_addDirty xid id s x := by
    by_cases hx : x = xid
    · simp [nodeTable, Table.dirty, GraphDb.modifyTx, hx]
    · simp [nodeTable, Table.dirty, GraphDb.modifyTx, hx]

instance laws_rshipTable : rshipTable.Laws where
  side_setSide _ _ := rfl
  side_rest _ _ _ _ _ _ _ _ := rfl
  updateCounts_setSide _ _ := rfl
  index_setSide _ _ := rfl
  activeTx_setSide _ _ := rfl
  oldestXid_setSide _ _ := rfl
  garbage_setSide _ _ := rfl
  txs_setSide _ _ := rfl
  tasks_setSide _ _ := rfl
  side_addDirty _ _ _ := rfl
  index_addDirty _ _ _ := rfl
  garbage_addDirty _ _ _ := rfl
  tasks_addDirty _ _ _ := rfl
  activeTx_addDirty _ _ _ := rfl
  oldestXid_addDirty _ _ _ := rfl
  running_addDirty xid id s x := by
    by_cases hx : x = xid
    · simp [rshipTable, GraphDb.modifyTx, hx]
    · simp [rshipTable, GraphDb.modifyTx, hx]
  dirty_addDirty xid id s x := by
    by_cases hx : x = xid
    · simp [rshipTable, Table.dirty, GraphDb.modifyTx, hx]
    · simp [rshipTable, Table.dirty, GraphDb.modifyTx, hx]

/-- A change of the table `t` is not seen on the side of the table `u`. -/
class Table.Apart {ε δ γ ε' δ' γ' : Type} (t : Table ε δ γ) (u : Table ε' δ' γ') : Prop where
  apart_setSide : ∀ sd s, u.side (t.setSide sd s) = u.side s
  apart_addDirty : ∀ xid id s, u.side (t.addDirty xid id s) = u.side s
  apart_dirty : ∀ xid id s x, u.dirty ((t.addDirty xid id s).txs x) = u.dirty (s.txs x)
  isRel_ne : t.isRel ≠ u.isRel
  gcType_ne : t.gcType ≠ u.gcType

instance apart_nodes_rships : nodeTable.Apart rshipTable where
  apart_setSide _ _ := rfl
  apart_addDirty _ _ _ := rfl
  apart_dirty xid id s x := by
    by_cases hx : x = xid
    · simp [nodeTable, rshipTable, Table.dirty, GraphDb.modifyTx, hx]
    · simp [nodeTable, rshipTable, Table.dirty, GraphDb.modifyTx, hx]
  isRel_ne := nofun
  gcType_ne := nofun

instance apart_rships_nodes : rshipTable.Apart nodeTable where
  apart_setSide _ _ := rfl
  apart_addDirty _ _ _ := rfl
  apart_dirty xid id s x := by
    by_cases hx : x = xid
    · simp [nodeTable, rshipTable, Table.dirty, GraphDb.modifyTx, hx]
    · simp [nodeTable, rshipTable, Table.dirty, GraphDb.modifyTx, hx]
  isRel_ne := nofun
  gcType_ne := nofun

attribute [simp] Table.Apart.apart_setSide Table.Apart.apart_addDirty Table.Apart.apart_dirty
  Table.Laws.side_setSide Table.Laws.side_rest Table.Laws.updateCounts_setSide
  Table.Laws.index_setSide Table.Laws.activeTx_setSide Table.Laws.oldestXid_setSide
  Table.Laws.garbage_setSide Table.Laws.txs_setSide Table.Laws.tasks_setSide
  Table.Laws.side_addDirty Table.Laws.index_addDirty Table.Laws.garbage_addDirty
  Table.Laws.tasks_addDirty Table.Laws.activeTx_addDirty
  Table.Laws.oldestXid_addDirty Table.Laws.running_addDirty Table.Laws.dirty_addDirty

section Tables

variable {ε δ γ : Type} {t : Table ε δ γ} [t.Laws] {s : GraphDb}

@[simp] theorem record_setRecord (id i : Nat) (r : Record (Versioned ε)) :
    t.record (t.setRecord id r s) i = if i = id then r else t.record s i := by
  simp [Table.record, Table.setRecord, Table.modifySide, Vec.put]

@[simp] theorem record_modifyObj (id i : Nat) (f : Obj (Versioned ε) → Obj (Versioned ε)) :
    t.record (t.modifyObj id f s) i =
      if i = id then { t.record s id with obj := f (t.record s id).obj } else t.record s i :=
  record_setRecord id i _

@[simp] theorem record_modifyData (id i : Nat) (f : Versioned ε → Versioned ε) :
    t.record (t.modifyData id f s) i =
      if i = id then
        { t.record s id with
          obj := { (t.record s id).obj with data := f (t.record s id).obj.data } }
      else t.record s i :=
  record_setRecord id i _

@[simp] theorem record_modifyAt (n : Ref) (i : Nat) (f : Obj (Versioned ε) → Obj (Versioned ε)) :
    t.record (t.modifyAt n f s) i =
      if i = n.id then (t.record s n.id).modifyAt n.loc f else t.record s i :=
  record_setRecord n.id i _

@[simp] theorem record_setCurrent (lid id i : Nat) :
    t.record (t.setCurrent lid id s) i = t.record s i := by
  simp [Table.record, Table.setCurrent, Table.modifySide]

@[simp] theorem record_eraseCurrent (lid i : Nat) :
    t.record (t.eraseCurrent lid s) i = t.record s i := by
  simp [Table.record, Table.eraseCurrent, Table.modifySide]

@[simp] theorem record_rest (s : GraphDb) (counts ix active oldest garbage txs tasks) (i : Nat) :
    t.record ⟨s.nodes, s.rships, counts, ix, active, oldest, garbage, txs, tasks⟩ i =
      t.record s i := by
  simp [Table.record]

@[simp] theorem findCurrent_setRecord (id l : Nat) (r : Record (Versioned ε)) :
    t.findCurrent l (t.setRecord id r s) = t.findCurrent l s := by
  simp [Table.findCurrent, Table.setRecord, Table.modifySide]

@[simp] theorem findCurrent_modifyData (id l : Nat) (f : Versioned ε → Versioned ε) :
    t.findCurrent l (t.modifyData id f s) = t.findCurrent l s :=
  findCurrent_setRecord id l _

@[simp] theorem findCurrent_eraseCurrent (lid l : Nat) :
    t.findCurrent l (t.eraseCurrent lid s) = if l = lid then none else t.findCurrent l s := by
  simp [Table.findCurrent, Table.eraseCurrent, Table.modifySide]

@[simp] theorem record_addDirty (xid id i : Nat) :
    t.record (t.addDirty xid id s) i = t.record s i := by
  simp [Table.record]

end Tables

/-! ## Rules for the elementary operations -/

section Rules

variable {ε δ γ : Type} {t : Table ε δ γ} {s : GraphDb} {β : Type}

theorem wp_ofExcept {x : Except Err β} {Q : β → GraphDb → Prop} {E : Err → GraphDb → Prop} :
    wp (ofExcept x) Q E s ↔
      match x with
      | .ok b => Q b s
      | .error e => E e s := by
  cases x with
  | ok b => exact Iff.rfl
  | error e => exact Iff.rfl

/-- A computation that may fail, where only its value matters. -/
theorem wp_ofExcept_ok {x : Except Err β} {Q : β → GraphDb → Prop} {E : Err → GraphDb → Prop}
    (hQ : ∀ b, x = .ok b → Q b s) (hE : ∀ e, E e s) : wp (ofExcept x) Q E s := by
  cases x with
  | ok b => exact hQ b rfl
  | error e => exact hE e

theorem wp_checkTxContext {xid : Nat} {Q : Unit → GraphDb → Prop} {E : Err → GraphDb → Prop} :
    wp (checkTxContext xid) Q E s ↔
      if (s.txs xid).running then Q () s else E .outOfTransactionScope s := by
  simp only [checkTxContext, wp_bind, wp_get]
  split
  · exact Iff.rfl
  · exact Iff.rfl

theorem wp_getRecord {id : Nat} {Q : Record (Versioned ε) → GraphDb → Prop}
    {E : Err → GraphDb → Prop} :
    wp (t.getRecord id) Q E s ↔
      if (t.record s id).used then Q (t.record s id) s else E .unknownId s := by
  have hget : (t.side s).vec.get id =
      if (t.record s id).used then .ok (t.record s id) else .error .unknownId := rfl
  simp only [Table.getRecord, wp_bind, wp_get, hget]
  by_cases hu : (t.record s id).used = true
  · rw [if_pos hu, if_pos hu]
    exact Iff.rfl
  · rw [if_neg hu, if_neg hu]
    exact Iff.rfl

theorem wp_logicalIdOf {nid : Nat} :
    always (logicalIdOf nid) (fun s' => s' = s) s := by
  rw [always, logicalIdOf, wp_bind, wp_getRecord]
  split
  · rfl
  · rfl

theorem wp_read {n : Ref} {Q : Obj (Versioned ε) → GraphDb → Prop} {E : Err → GraphDb → Prop} :
    wp (t.read n) Q E s ↔
      match (t.record s n.id).deref n.loc with
      | some o => Q o s
      | none => E .danglingReference s := by
  simp only [Table.read, wp_bind, wp_get]
  cases (t.record s n.id).deref n.loc with
  | some o => exact Iff.rfl
  | none => exact Iff.rfl

theorem hotAt_iff {o : Obj (Versioned ε)} {vt : Nat} :
    hotAt o vt = true ↔ o.bts ≠ 0 ∧ o.data.vtStart ≤ vt ∧ vt < o.data.vtEnd := by
  simp [hotAt, and_assoc]

end Rules

/-! ## Runs without exceptions -/

theorem runOk_cons {s s' : GraphDb} {a : Step} {as : List Step} :
    s.runOk (a :: as) = some s' ↔ ∃ s₁, a.exec s = .ok () s₁ ∧ s₁.runOk as = some s' := by
  rw [GraphDb.runOk]
  cases hx : a.exec s with
  | ok u s₁ =>
      constructor
      · exact fun h => ⟨s₁, rfl, h⟩
      · rintro ⟨s₂, h₂, h⟩
        cases h₂
        exact h
  | error e s₁ =>
      constructor
      · exact fun h => by cases h
      · rintro ⟨s₂, h₂, -⟩
        cases h₂

/-- A run without exceptions ends where the run ends. -/
theorem runOk_eq_run {s : GraphDb} {as : List Step} (h : (s.runOk as).isSome = true) :
    s.runOk as = some (s.run as) := by
  induction as generalizing s with
  | nil => rfl
  | cons a as ih =>
      simp only [GraphDb.runOk, GraphDb.run, List.foldl_cons, GraphDb.step] at h ⊢
      cases hx : a.exec s with
      | ok u s₁ =>
          simp only [hx] at h ⊢
          exact ih h
      | error e s₁ =>
          simp only [hx] at h
          cases h

/-- The store after a transaction began. -/
def GraphDb.begun (xid : Nat) (s : GraphDb) : GraphDb :=
  { s.modifyTx xid (fun _ => ⟨true, [], []⟩) with activeTx := xid :: s.activeTx }

@[simp] theorem side_begun {ε δ γ : Type} {t : Table ε δ γ} [t.Laws] (xid : Nat) (s : GraphDb) :
    t.side (s.begun xid) = t.side s := by
  simp [GraphDb.begun, GraphDb.modifyTx]

theorem begin_ok {xid : Nat} {s s' : GraphDb} (h : (Step.begin xid).exec s = .ok () s') :
    0 < xid ∧ xid < INF ∧ (s.txs xid).running = false ∧ s' = s.begun xid := by
  have hwp : wp (Step.begin xid).exec (fun _ s' => 0 < xid ∧ xid < INF ∧
      (s.txs xid).running = false ∧ s' = s.begun xid) (fun _ _ => True) s := by
    refine wp_ite (fun _ => trivial) fun hx => ?_
    simp only [beginTransaction, wp_get_bind]
    refine wp_ite (fun _ => trivial) fun hr => ?_
    exact ⟨by omega, by omega, by simpa using hr, rfl⟩
  have hend := wp_ok hwp h
  exact hend

end Poseidon.Temporal
