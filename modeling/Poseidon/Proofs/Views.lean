import Poseidon.Proofs.Slots

/-!
# The invariant of a table

A view picks out of the store what belongs to one of the two tables: its
records, its properties, its part of the dirty lists and of the garbage. The
calls on a table keep the invariant of its view and do not touch the other
one (`View.Op`), and the shared code of the update and delete functions does
one of few things, which `Updated`, `Inserted` and `Removed` list.
-/

namespace Poseidon

open Wp History

variable {α κ β : Type}

/-- The slots of one table that wait for the garbage collection. -/
def garbageOf (ty : GcType) (s : GraphDb) : List Nat :=
  (s.garbage.filter fun g => g.itype = ty).map GcItem.oid

/-- The store outside the tables. -/
structure SameTx (s s' : GraphDb) : Prop where
  activeTx : s'.activeTx = s.activeTx
  oldestXid : s'.oldestXid = s.oldestXid
  garbage : s'.garbage = s.garbage
  running : ∀ x, (s'.txs x).running = (s.txs x).running

theorem SameTx.refl (s : GraphDb) : SameTx s s := ⟨rfl, rfl, rfl, fun _ => rfl⟩

theorem SameTx.trans {s s' s'' : GraphDb} (h : SameTx s s') (h' : SameTx s' s'') :
    SameTx s s'' :=
  ⟨h'.activeTx.trans h.activeTx, h'.oldestXid.trans h.oldestXid,
    h'.garbage.trans h.garbage, fun x => (h'.running x).trans (h.running x)⟩

theorem Vec.put_put (w : Vec α) (id : Nat) (r r' : Record α) :
    (w.put id r').put id r = w.put id r := by
  simp only [Vec.put, Vec.mk.injEq]
  refine ⟨?_, by omega⟩
  funext i
  split <;> rfl

/-- The view of a table: what of its data belongs to a version, its part of
the dirty lists, and what belongs to the other table. -/
structure View (t : Table α) (κ β : Type) where
  scheme : Scheme α κ
  dirty : Transaction → List Nat
  rest : GraphDb → β
  pl_eq : scheme.pl = t.propertyList
  img_setPropertyList : ∀ pl d, scheme.img (t.setPropertyList pl d) = scheme.img d
  pl_setPropertyList : ∀ pl d, t.propertyList (t.setPropertyList pl d) = pl
  record_setRecord : ∀ id r s i,
    t.record (t.setRecord id r s) i = if i = id then r else t.record s i
  setRecord_setRecord : ∀ id r r' s,
    t.setRecord id r (t.setRecord id r' s) = t.setRecord id r s
  props_setRecord : ∀ id r s, t.props (t.setRecord id r s) = t.props s
  txs_setRecord : ∀ id r s, (t.setRecord id r s).txs = s.txs
  same_setRecord : ∀ id r s, SameTx s (t.setRecord id r s)
  rest_setRecord : ∀ id r s, rest (t.setRecord id r s) = rest s
  record_setProps : ∀ p s i, t.record (t.setProps p s) i = t.record s i
  props_setProps : ∀ p s, t.props (t.setProps p s) = p
  txs_setProps : ∀ p s, (t.setProps p s).txs = s.txs
  same_setProps : ∀ p s, SameTx s (t.setProps p s)
  rest_setProps : ∀ p s, rest (t.setProps p s) = rest s
  record_addDirty : ∀ x id s i, t.record (t.addDirty x id s) i = t.record s i
  props_addDirty : ∀ x id s, t.props (t.addDirty x id s) = t.props s
  dirty_addDirty : ∀ x id s y, dirty ((t.addDirty x id s).txs y) =
    if y = x then dirty (s.txs y) ++ [id] else dirty (s.txs y)
  same_addDirty : ∀ x id s, SameTx s (t.addDirty x id s)
  rest_addDirty : ∀ x id s, rest (t.addDirty x id s) = rest s
  congr : ∀ s s', s'.nodes = s.nodes → s'.rships = s.rships →
    s'.nodeProperties = s.nodeProperties → s'.rshipProperties = s.rshipProperties →
    (∀ i, t.record s' i = t.record s i) ∧ t.props s' = t.props s ∧
      ((∀ x, (s'.txs x).dirtyNodes = (s.txs x).dirtyNodes ∧
        (s'.txs x).dirtyRships = (s.txs x).dirtyRships) →
        rest s' = rest s ∧ ∀ x, dirty (s'.txs x) = dirty (s.txs x))

/-- What of a node belongs to a version. The heads of its relationship lists
do not: the garbage collection changes them in place. -/
def nodeScheme : Scheme NodeData (Nat × Nat) where
  img d := (d.id, d.nodeLabel)
  pl d := d.propertyList
  rid d := d.id

/-- What of a relationship belongs to a version; the list pointers do not. -/
def rshipScheme : Scheme RshipData (Nat × Nat × Nat × Nat) where
  img d := (d.id, d.srcNode, d.destNode, d.rshipLabel)
  pl d := d.propertyList
  rid d := d.id

def nodeView :
    View nodeTable (Nat × Nat) (Vec RshipData × PropertyList × (Nat → List Nat)) where
  scheme := nodeScheme
  dirty tx := tx.dirtyNodes
  rest s := (s.rships, s.rshipProperties, fun x => (s.txs x).dirtyRships)
  pl_eq := rfl
  img_setPropertyList _ _ := rfl
  pl_setPropertyList _ _ := rfl
  record_setRecord _ _ _ _ := rfl
  setRecord_setRecord id r r' s := by
    simp only [Table.setRecord, nodeTable, Vec.put_put]
  props_setRecord _ _ _ := rfl
  txs_setRecord _ _ _ := rfl
  same_setRecord _ _ _ := ⟨rfl, rfl, rfl, fun _ => rfl⟩
  rest_setRecord _ _ _ := rfl
  record_setProps _ _ _ := rfl
  props_setProps _ _ := rfl
  txs_setProps _ _ := rfl
  same_setProps _ _ := ⟨rfl, rfl, rfl, fun _ => rfl⟩
  rest_setProps _ _ := rfl
  record_addDirty _ _ _ _ := rfl
  props_addDirty _ _ _ := rfl
  dirty_addDirty x id s y := by
    simp only [nodeTable, GraphDb.modifyTx]
    split <;> rfl
  same_addDirty x id s := by
    refine ⟨rfl, rfl, rfl, fun y => ?_⟩
    simp only [nodeTable, GraphDb.modifyTx]
    split <;> rfl
  rest_addDirty x id s := by
    simp only [nodeTable, GraphDb.modifyTx, Prod.mk.injEq, true_and]
    funext y
    split <;> rfl
  congr s s' h1 h2 h3 h4 := by
    refine ⟨fun i => ?_, h3, fun hd => ⟨?_, fun x => (hd x).1⟩⟩
    · show s'.nodes.slots i = s.nodes.slots i
      rw [h1]
    · simp only [h2, h4, hd]

def rshipView : View rshipTable (Nat × Nat × Nat × Nat)
    (Vec NodeData × PropertyList × (Nat → List Nat)) where
  scheme := rshipScheme
  dirty tx := tx.dirtyRships
  rest s := (s.nodes, s.nodeProperties, fun x => (s.txs x).dirtyNodes)
  pl_eq := rfl
  img_setPropertyList _ _ := rfl
  pl_setPropertyList _ _ := rfl
  record_setRecord _ _ _ _ := rfl
  setRecord_setRecord id r r' s := by
    simp only [Table.setRecord, rshipTable, Vec.put_put]
  props_setRecord _ _ _ := rfl
  txs_setRecord _ _ _ := rfl
  same_setRecord _ _ _ := ⟨rfl, rfl, rfl, fun _ => rfl⟩
  rest_setRecord _ _ _ := rfl
  record_setProps _ _ _ := rfl
  props_setProps _ _ := rfl
  txs_setProps _ _ := rfl
  same_setProps _ _ := ⟨rfl, rfl, rfl, fun _ => rfl⟩
  rest_setProps _ _ := rfl
  record_addDirty _ _ _ _ := rfl
  props_addDirty _ _ _ := rfl
  dirty_addDirty x id s y := by
    simp only [rshipTable, GraphDb.modifyTx]
    split <;> rfl
  same_addDirty x id s := by
    refine ⟨rfl, rfl, rfl, fun y => ?_⟩
    simp only [rshipTable, GraphDb.modifyTx]
    split <;> rfl
  rest_addDirty x id s := by
    simp only [rshipTable, GraphDb.modifyTx, Prod.mk.injEq, true_and]
    funext y
    split <;> rfl
  congr s s' h1 h2 h3 h4 := by
    refine ⟨fun i => ?_, h4, fun hd => ⟨?_, fun x => (hd x).2⟩⟩
    · show s'.rships.slots i = s.rships.slots i
      rw [h2]
    · simp only [h1, h3, hd]

/-- An active transaction: its id is no free lock, and no larger id was
given out before. -/
structure Active (top : Nat) (s : GraphDb) (T : Nat) : Prop where
  mem : T ∈ s.activeTx
  ne_zero : T ≠ 0
  le_top : T ≤ top
  lt_inf : T < INF
  running : (s.txs T).running = true

theorem Active.congr {top T : Nat} {s s' : GraphDb} (h : Active top s T)
    (hs : SameTx s s') : Active top s' T :=
  ⟨hs.activeTx ▸ h.mem, h.ne_zero, h.le_top, h.lt_inf, (hs.running T).trans h.running⟩

section Views

variable {t : Table α} (v : View t κ β)

/-- The invariant of a table, with the histories of its records. -/
structure View.Inv (top : Nat) (H : Nat → Hist κ) (s : GraphDb) : Prop where
  bounded : (t.props s).Bounded
  garbage : (garbageOf t.gcType s).Nodup
  slots : ∀ id, SlotInv v.scheme (· ∈ s.activeTx) top (H id) (t.props s)
    (fun T => (v.dirty (s.txs T)).count id) (id ∈ garbageOf t.gcType s) id
    (t.record s id)

/-- What a call of `W` does to the table, other than an end of the
transaction: it keeps the invariant, and it shows the versions of a record
that it does not have in its dirty list as they were. -/
structure View.Moves (W top : Nat) (H : Nat → Hist κ) (s s' : GraphDb) : Prop where
  inv : v.Inv top H s'
  evolve : ∀ id, Evolve (· ∈ s.activeTx) W (H id) (t.record s id) (H id)
    (t.record s' id)
  dirty : ∀ T, T ≠ W → v.dirty (s'.txs T) = v.dirty (s.txs T)
  grows : ∀ id ∈ v.dirty (s.txs W), id ∈ v.dirty (s'.txs W)
  quiet : ∀ id, id ∈ v.dirty (s'.txs W) ∨
    Quiet (t.record s id) (t.record s' id)

/-- A call that does not touch the other table. -/
structure View.Op (W top : Nat) (H : Nat → Hist κ) (s s' : GraphDb) : Prop
    extends v.Moves W top H s s' where
  rest : v.rest s' = v.rest s
  tx : SameTx s s'

variable {v} {W top T : Nat} {H : Nat → Hist κ} {s s' s'' : GraphDb}

theorem View.Moves.trans (h : v.Moves W top H s s') (hs : SameTx s s')
    (h' : v.Moves W top H s' s'') : v.Moves W top H s s'' := by
  have hev := h'.evolve
  rw [hs.activeTx] at hev
  refine ⟨h'.inv, fun id => (h.evolve id).trans (hev id),
    fun T hT => (h'.dirty T hT).trans (h.dirty T hT),
    fun id hid => h'.grows id (h.grows id hid), fun id => ?_⟩
  rcases h.quiet id with hin | hq
  · exact .inl (h'.grows id hin)
  · rcases h'.quiet id with hin | hq'
    · exact .inl hin
    · exact .inr ⟨hq'.1.trans hq.1, hq'.2.trans hq.2⟩

/-- What does not touch the table. -/
theorem View.Inv.congr (h : v.Inv top H s) (hr : ∀ i, t.record s' i = t.record s i)
    (hp : t.props s' = t.props s)
    (hd : ∀ x, v.dirty (s'.txs x) = v.dirty (s.txs x)) (hs : SameTx s s') :
    v.Moves W top H s s' := by
  have hg : garbageOf t.gcType s' = garbageOf t.gcType s := by
    rw [garbageOf, hs.garbage]
    rfl
  refine ⟨⟨hp ▸ h.bounded, hg ▸ h.garbage, fun id => ?_⟩, fun id => ?_,
    fun T _ => hd T, fun id hid => ?_, fun id => .inr ?_⟩
  · simp only [hg, hs.activeTx, hp, hd, hr]
    exact h.slots id
  · rw [hr]
    exact Evolve.refl ..
  · rw [hd]
    exact hid
  · rw [hr]
    exact ⟨rfl, rfl⟩

theorem View.Op.refl (h : v.Inv top H s) : v.Op W top H s s :=
  ⟨h.congr (fun _ => rfl) rfl (fun _ => rfl) (SameTx.refl s), rfl, SameTx.refl s⟩

theorem View.Op.trans (h : v.Op W top H s s') (h' : v.Op W top H s' s'') :
    v.Op W top H s s'' :=
  ⟨h.toMoves.trans h.tx h'.toMoves, h'.rest.trans h.rest, h.tx.trans h'.tx⟩

/-- A change of one slot. -/
theorem View.Inv.setRecord {id : Nat} {r' : Record α} (h : v.Inv top H s)
    (hslot : SlotInv v.scheme (· ∈ s.activeTx) top (H id) (t.props s)
      (fun T => (v.dirty (s.txs T)).count id) (id ∈ garbageOf t.gcType s) id r')
    (hev : Evolve (· ∈ s.activeTx) W (H id) (t.record s id) (H id) r')
    (hq : id ∈ v.dirty (s.txs W) ∨ Quiet (t.record s id) r') :
    v.Op W top H s (t.setRecord id r' s) := by
  have hs := v.same_setRecord id r' s
  have hg : garbageOf t.gcType (t.setRecord id r' s) = garbageOf t.gcType s := by
    rw [garbageOf, hs.garbage]
    rfl
  refine ⟨⟨⟨?_, ?_, fun i => ?_⟩, fun i => ?_, fun T _ => ?_, fun i hi => ?_,
    fun i => ?_⟩, v.rest_setRecord id r' s, hs⟩
  · rw [v.props_setRecord]
    exact h.bounded
  · rw [hg]
    exact h.garbage
  · rw [hg, hs.activeTx, v.props_setRecord, v.txs_setRecord, v.record_setRecord]
    by_cases hi : i = id
    · subst hi
      rw [if_pos rfl]
      exact hslot
    · rw [if_neg hi]
      exact h.slots i
  · rw [v.record_setRecord]
    by_cases hi : i = id
    · subst hi
      rw [if_pos rfl]
      exact hev
    · rw [if_neg hi]
      exact Evolve.refl ..
  · rw [v.txs_setRecord]
  · rw [v.txs_setRecord]
    exact hi
  · rw [v.txs_setRecord, v.record_setRecord]
    by_cases hi : i = id
    · subst hi
      rw [if_pos rfl]
      exact hq
    · rw [if_neg hi]
      exact .inr ⟨rfl, rfl⟩

/-- A change of one slot that goes into the dirty list of `W`. -/
theorem View.Inv.setRecordDirty {id : Nat} {r' : Record α} (h : v.Inv top H s)
    (hslot : SlotInv v.scheme (· ∈ s.activeTx) top (H id) (t.props s)
      (fun T => if T = W then (v.dirty (s.txs T)).count id + 1
        else (v.dirty (s.txs T)).count id) (id ∈ garbageOf t.gcType s) id r')
    (hev : Evolve (· ∈ s.activeTx) W (H id) (t.record s id) (H id) r') :
    v.Op W top H s (t.addDirty W id (t.setRecord id r' s)) := by
  have hs := (v.same_setRecord id r' s).trans (v.same_addDirty W id _)
  have hg : garbageOf t.gcType (t.addDirty W id (t.setRecord id r' s)) =
      garbageOf t.gcType s := by
    rw [garbageOf, hs.garbage]
    rfl
  have hd : ∀ x, v.dirty ((t.addDirty W id (t.setRecord id r' s)).txs x) =
      if x = W then v.dirty (s.txs x) ++ [id] else v.dirty (s.txs x) := by
    intro x
    rw [v.dirty_addDirty, v.txs_setRecord]
  have hr : ∀ i, t.record (t.addDirty W id (t.setRecord id r' s)) i =
      if i = id then r' else t.record s i := by
    intro i
    rw [v.record_addDirty, v.record_setRecord]
  refine ⟨⟨⟨?_, ?_, fun i => ?_⟩, fun i => ?_, fun T hT => ?_, fun i hi => ?_,
    fun i => ?_⟩, ?_, hs⟩
  · rw [v.props_addDirty, v.props_setRecord]
    exact h.bounded
  · rw [hg]
    exact h.garbage
  · rw [hg, hs.activeTx, v.props_addDirty, v.props_setRecord, hr]
    simp only [hd]
    by_cases hi : i = id
    · subst hi
      rw [if_pos rfl]
      have hcount : (fun T => List.count i (if T = W then v.dirty (s.txs T) ++ [i]
          else v.dirty (s.txs T))) = fun T => if T = W then
            (v.dirty (s.txs T)).count i + 1 else (v.dirty (s.txs T)).count i := by
        funext T
        split
        · rw [List.count_append, List.count_singleton_self]
        · rfl
      rw [hcount]
      exact hslot
    · rw [if_neg hi]
      have hcount : (fun T => List.count i (if T = W then v.dirty (s.txs T) ++ [id]
          else v.dirty (s.txs T))) = fun T => (v.dirty (s.txs T)).count i := by
        funext T
        split
        · rw [List.count_append, List.count_singleton]
          have hne : (id == i) = false := by simpa using fun h => hi h.symm
          rw [hne]
          rfl
        · rfl
      rw [hcount]
      exact h.slots i
  · rw [hr]
    by_cases hi : i = id
    · subst hi
      rw [if_pos rfl]
      exact hev
    · rw [if_neg hi]
      exact Evolve.refl ..
  · rw [hd, if_neg hT]
  · rw [hd, if_pos rfl]
    exact List.mem_append_left _ hi
  · rw [hd, if_pos rfl, hr]
    by_cases hi : i = id
    · subst hi
      exact .inl (by simp)
    · rw [if_neg hi]
      exact .inr ⟨rfl, rfl⟩
  · rw [v.rest_addDirty, v.rest_setRecord]

/-! ## Point reads -/

/-- The reference that a read returns. -/
theorem RecInv.refOk_read {k : Scheme α κ} {A : Nat → Prop} {stored : Nat →
    Except Err (List PItem)} {H : Hist κ} {r : Record α} {l : Loc}
    (h : RecInv k A top stored H r) (hu : r.used = true) (hA : A T) (hT : T ≠ 0)
    (hrts : T ≤ r.obj.rts) (hv : r.getValidVersion T = .ok l) : RefOk T r l := by
  have huniq : ∀ dn ∈ r.dirtyList, ∀ d ∈ r.dirtyList, d.addr = dn.addr →
      d.elem = dn.elem := by
    intro dn hdn d hd heq
    have h1 := h.deref_copy hdn
    rw [← heq, h.deref_copy hd] at h1
    exact Option.some.inj h1
  rcases h.read hu hA hT hv with ⟨dn, hf, rfl, _⟩ | ⟨o, c, hrc⟩
  · have hmem := List.mem_of_mem_head? hf.front
    refine ⟨h.addr_lt dn hmem, fun d hd heq => .inl ?_⟩
    rw [huniq dn hmem d hd heq]
    exact hf.owner
  · cases l with
    | copy a =>
        obtain ⟨dn, hdn, ha, ho, _⟩ := hrc.inCopy a rfl
        subst ha
        refine ⟨h.addr_lt dn hdn, fun d hd heq => .inr ?_⟩
        rw [huniq dn hdn d hd heq, ho]
        exact ⟨hrc.free, hrc.copy _ rfl⟩
    | slot =>
        obtain ⟨h0, hb, hc⟩ := hrc.slot rfl
        refine ⟨hu, ?_, hrts, by omega, ?_, fun hne => absurd h0 hne⟩
        · cases h.phase with
          | unused hp => rw [hp.used] at hu; cases hu
          | inserting hp => exact absurd h0 hp.locked
          | live hp => exact hp.bts_ne_zero h
          | @deleted items H₁ hp =>
              refine (h.committed (r.obj.bts, some (k.img r.obj.data, items)) ?_).2.2
              rw [hp.head]
              exact List.mem_cons_of_mem _ (List.mem_cons_self ..)
        · cases h.phase with
          | unused hp => rw [hp.used] at hu; cases hu
          | inserting hp => exact absurd h0 hp.locked
          | live hp => exact .inl hp.cts
          | deleted hp => exact .inr ⟨hc, hp.cts_le⟩

/-- What a successful point read has done: it recorded the read, and found
the version it returns. -/
structure ReadBy (t : Table α) (T id : Nat) (s : GraphDb) (n : Ref) (s' : GraphDb) :
    Prop where
  ref : n.id = id
  store : s' = t.setRecord id ((t.record s id).recordRead T) s
  used : (t.record s id).used = true
  version : ((t.record s id).recordRead T).getValidVersion T = .ok n.loc

theorem Table.byId_spec {id : Nat} (hrun : (s.txs T).running = true) :
    wp (t.byId T id) (ReadBy t T id s)
      (fun _ s' => s' = s ∨ s' = t.setRecord id ((t.record s id).recordRead T) s) s := by
  simp only [Table.byId, wp_bind, wp_checkTxContext, Table.getRecord, wp_get, hrun,
    wp_ofExcept, wp_modify, wp_pure]
  refine ⟨fun _ => ⟨fun r hr => ⟨fun l hl => ?_, fun _ _ => ?_⟩, fun _ _ => .inl trivial⟩,
    fun h => (by cases h)⟩
  · simp only [Vec.get] at hr
    split at hr
    · next hu =>
      cases hr
      exact ⟨rfl, rfl, hu, hl⟩
    · cases hr
  · simp only [Vec.get] at hr
    split at hr
    · cases hr
      exact .inr rfl
    · cases hr

theorem View.Inv.recordRead (h : v.Inv top H s) (T id : Nat) :
    v.Op W top H s (t.setRecord id ((t.record s id).recordRead T) s) := by
  have ht : Touched v.scheme (t.record s id) ((t.record s id).recordRead T) :=
    touched_recordRead _ T
  exact h.setRecord ((h.slots id).touch ht) ht.evolve (.inr ⟨ht.list, Obj.setRts_data ..⟩)

theorem ReadBy.op {id : Nat} {n : Ref} (h : v.Inv top H s) (hr : ReadBy t T id s n s') :
    v.Op W top H s s' := by
  rw [hr.store]
  exact h.recordRead T id

theorem ReadBy.record {id : Nat} {n : Ref} (v : View t κ β)
    (hr : ReadBy t T id s n s') :
    t.record s' id = (t.record s id).recordRead T := by
  rw [hr.store, v.record_setRecord, if_pos rfl]

theorem Record.le_recordRead_rts (r : Record α) (T : Nat) :
    T ≤ (r.recordRead T).obj.rts := by
  rw [Record.recordRead, Obj.setRts_rts]
  exact Nat.le_max_right ..

theorem ReadBy.refOk {id : Nat} {n : Ref} (h : v.Inv top H s) (hact : Active top s T)
    (hr : ReadBy t T id s n s') : RefOk T (t.record s' n.id) n.loc := by
  have hrec := hr.record v
  rw [hr.ref, hrec]
  have hinv := ((h.slots id).touch (touched_recordRead (t.record s id) T)).record
  exact hinv.refOk_read hr.used hact.mem hact.ne_zero
    (Record.le_recordRead_rts _ T) hr.version

/-! ## Updates -/

/-- The record with the lock of `T`. -/
def Record.lockedBy (r : Record α) (T : Nat) : Record α :=
  { r with obj := { r.obj with txnId := T } }

theorem Record.lockForWrite_slot {r r' : Record α}
    (h : r.lockForWrite .slot T = .ok r') : r' = r.lockedBy T := by
  simp only [Record.lockForWrite, Record.deref] at h
  split at h
  · cases h
  · split at h
    · next hl =>
      cases h
      rw [Record.lockedBy, ← Obj.isLockedBy_iff.mp hl]
    · split at h
      · next o ho =>
        cases h
        simp only [Obj.tryLock] at ho
        split at ho
        · cases ho
          rfl
        · cases ho
      · cases h

/-- What an update does: the first one of a transaction on a record keeps a
copy and makes a new version, the others change that version. The result is
the data before. -/
inductive Updated (t : Table α) (T : Nat) (n : Ref) (fp : List PItem → List PItem)
    (fd : α → α) (s : GraphDb) : α → GraphDb → Prop
  | again {dn : DirtyObject α} (hf : Front T dn (t.record s n.id)) :
      Updated t T n fp fd s dn.elem.data (t.setRecord n.id
        ((t.record s n.id).modifyDirty dn.addr fun d => { d with
          properties := fp d.properties
          elem := { d.elem with data := fd d.elem.data } }) s)
  | first {r : Record α} {items : List PItem} (hr : r = (t.record s n.id).lockedBy T)
      (hloc : n.loc = .slot) (hlock : (t.record s n.id).lockForWrite .slot T = .ok r)
      (hno : ∀ dn, ¬ Front T dn r)
      (hst : (t.props s).buildDirtyPropertyList (t.propertyList r.obj.data) =
        .ok items) :
      Updated t T n fp fd s r.obj.data (t.addDirty T n.id (t.setRecord n.id
        ((r.push (Record.oldVersion r.obj T) items true).push
          (Record.newVersion r.obj T fd) (fp items) true) s))

theorem Table.read_some {n : Ref} {o : Obj α} {Q : Obj α → GraphDb → Prop}
    {E : Err → GraphDb → Prop} (ho : (t.record s n.id).deref n.loc = some o)
    (h : Q o s) : wp (t.read n) Q E s := by
  simp only [Table.read, wp_bind, wp_get, ho]
  exact h

theorem Table.read_slot {n : Ref} (hloc : n.loc = .slot) {Q : Obj α → GraphDb → Prop}
    {E : Err → GraphDb → Prop} (h : Q (t.record s n.id).obj s) :
    wp (t.read n) Q E s := Table.read_some (by rw [hloc]; rfl) h

/-- On a record that keeps the invariant, `add_dirty_version` pushes. -/
theorem RecInv.addDirtyVersion {k : Scheme α κ} {A : Nat → Prop} {stored : Nat →
    Except Err (List PItem)} {H : Hist κ} {r : Record α} {l : Loc} {elem : Obj α}
    {ps : List PItem} {b : Bool} (h : RecInv k A top stored H r)
    (hu : r.used = true) (he : elem.prepared = true) :
    r.addDirtyVersion l elem ps b = r.push elem ps b :=
  Record.addDirtyVersion_eq (h.prepared hu) h.copies he

/-- The two versions that the first write of a transaction adds. -/
theorem RecInv.addDirtyVersions {k : Scheme α κ} {A : Nat → Prop} {stored : Nat →
    Except Err (List PItem)} {H : Hist κ} {r : Record α} {l : Loc} {old elem : Obj α}
    {ps qs : List PItem} {b : Bool} (h : RecInv k A top stored H r)
    (hu : r.used = true) (ho : old.prepared = true) (he : elem.prepared = true) :
    (r.addDirtyVersion l old ps b).addDirtyVersion l elem qs b =
      (r.push old ps b).push elem qs b := by
  rw [h.addDirtyVersion hu ho]
  exact Record.addDirtyVersion_eq (h.prepared hu)
    (List.forall_mem_cons.mpr ⟨ho, h.copies⟩) he

/-- An update through a reference of an active transaction; a refused one
leaves the store as it was. -/
theorem View.Inv.update_spec {n : Ref} {fp : List PItem → List PItem} {fd : α → α}
    (h : v.Inv top H s) (hact : Active top s T)
    (href : RefOk T (t.record s n.id) n.loc) :
    wp (t.update T n fp fd) (Updated t T n fp fd s) (fun _ s' => s' = s) s := by
  simp only [Table.update, wp_bind, wp_get, wp_ofExcept]
  refine ⟨fun r hr => ?_, fun _ _ => trivial⟩
  obtain ⟨hslot, _, _, hcase⟩ := (h.slots n.id).lockForWrite hact.mem hact.ne_zero
    hact.le_top hact.lt_inf href hr
  rw [wp_modify]
  rcases hcase with ⟨rfl, dn, hf⟩ | ⟨hloc, hlocked⟩
  · simp only [hf.getDirtyVersion, wp_bind, wp_modify, wp_pure, v.setRecord_setRecord]
    exact .again hf
  · obtain ⟨hown, items, H₁, hl⟩ := hlocked
    have hno : r.getDirtyVersion T = none := by
      rw [← hown, hl.getDirtyVersion (by rw [hown]; exact hact.ne_zero)]
      rfl
    have hst := hl.holds
    rw [v.pl_eq] at hst
    have hrec : t.record (t.setRecord n.id r s) n.id = r := by
      rw [v.record_setRecord, if_pos rfl]
    rw [hloc] at hr
    simp only [hno, wp_bind]
    refine Table.read_slot hloc ?_
    simp only [wp_get, wp_ofExcept, wp_modify, wp_pure, hrec, v.props_setRecord,
      v.setRecord_setRecord, hloc]
    refine ⟨fun pitems hp => ?_, fun e he => ?_⟩
    · obtain rfl := Except.ok.inj (hst.symm.trans hp)
      have hprep := hslot.record.prepared hl.used
      rw [hslot.record.addDirtyVersions hl.used
        (show (Record.oldVersion r.obj T).prepared = true from hprep)
        (show (Record.newVersion r.obj T fd).prepared = true from hprep)]
      exact .first (Record.lockForWrite_slot hr) hloc hr (fun dn => hl.no_front dn) hst
    · rw [hst] at he
      cases he

/-- After the lock of the slot, an update or delete finds it only locked. -/
theorem View.Inv.lockedBy {id : Nat} {r : Record α} (h : v.Inv top H s)
    (hact : Active top s T) (href : RefOk T (t.record s id) .slot)
    (hlock : (t.record s id).lockForWrite .slot T = .ok r)
    (hno : ∀ dn, ¬ Front T dn r) :
    SlotInv v.scheme (· ∈ s.activeTx) top (H id) (t.props s)
      (fun T => (v.dirty (s.txs T)).count id) (id ∈ garbageOf t.gcType s) id r ∧
    Evolve (· ∈ s.activeTx) T (H id) (t.record s id) (H id) r ∧
    Locked v.scheme (· ∈ s.activeTx) top (t.props s).buildDirtyPropertyList (H id) T r := by
  obtain ⟨hslot, hev, _, hcase⟩ := (h.slots id).lockForWrite hact.mem hact.ne_zero
    hact.le_top hact.lt_inf href hlock
  rcases hcase with ⟨rfl, dn, hf⟩ | ⟨_, hl⟩
  · exact absurd hf (hno dn)
  · exact ⟨hslot, hev, hl⟩

theorem Updated.op {n : Ref} {fp : List PItem → List PItem} {fd : α → α} {old : α}
    (h : v.Inv top H s) (hact : Active top s T)
    (href : RefOk T (t.record s n.id) n.loc) (hfp : Grows fp)
    (hu : Updated t T n fp fd s old s') (hfd : ∀ d, v.scheme.rid (fd d) = v.scheme.rid d) :
    v.Op T top H s s' := by
  cases hu with
  | again hf =>
      obtain ⟨hslot, hev⟩ := (h.slots n.id).setFront hf hfp hfd rfl
      refine h.setRecord hslot hev (.inl ?_)
      have hn := ((h.slots n.id).dirty T hact.mem).front.mpr ⟨_, hf⟩
      exact List.count_pos_iff.mp (Nat.pos_of_ne_zero hn)
  | first hr hloc hlock hno hst =>
      rw [hloc] at href
      obtain ⟨hslot, hev, hl⟩ := h.lockedBy hact href hlock hno
      rw [← v.pl_eq] at hst
      obtain ⟨hslot', hev'⟩ := hslot.update hact.ne_zero hl hst hfp hfd rfl
      exact h.setRecordDirty hslot' (hev.trans hev')

/-! ## Inserts -/

/-- What an insert does. -/
structure Inserted (t : Table α) (T slot : Nat) (d : α) (props : List PItem)
    (s s' : GraphDb) : Prop where
  free : (t.record s slot).used = false
  ne_unknown : slot ≠ UNKNOWN
  store : s' = t.addDirty T slot (t.setRecord slot
    ⟨true, ⟨T, 0, INF, 0, true, false, d⟩,
      [⟨(t.record s slot).nextAddr, false, ⟨T, 0, INF, 0, true, true, d⟩, props⟩],
      (t.record s slot).nextAddr + 1⟩ s)

theorem Inserted.mem_dirty {slot : Nat} {d : α} {props : List PItem} (v : View t κ β)
    (hi : Inserted t T slot d props s s') : slot ∈ v.dirty (s'.txs T) := by
  rw [hi.store, v.dirty_addDirty, if_pos rfl]
  exact List.mem_append_right _ (List.mem_singleton_self _)

theorem Table.insert_spec {slot : Nat} {d : α} {props : List PItem} :
    wp (t.insert T slot d props) (fun _ s' => Inserted t T slot d props s s')
      (fun _ s' => s' = s) s := by
  simp only [Table.insert, wp_bind, wp_get]
  refine wp_ite (fun _ => rfl) (fun hfree => ?_)
  simp only [wp_bind, wp_modify]
  simp only [not_or, Bool.not_eq_true] at hfree
  exact ⟨hfree.1, hfree.2, rfl⟩

theorem Inserted.op {slot : Nat} {d : α} {props : List PItem} (h : v.Inv top H s)
    (hact : Active top s T) (hi : Inserted t T slot d props s s') (hk : Keyed props)
    (hpl : t.propertyList d = UNKNOWN) (hrid : v.scheme.rid d = slot) :
    v.Op T top H s s' := by
  obtain ⟨hslot, hev⟩ := (h.slots slot).insert hi.free hact.mem hact.ne_zero hact.le_top
    hact.lt_inf (by rw [v.pl_eq]; exact hpl) hk hrid rfl
  rw [hi.store]
  exact h.setRecordDirty hslot hev

/-! ## Deletes -/

/-- What the end of a delete function does to a record that the transaction
has locked: with no version of its own it keeps a copy and adds a tombstone,
otherwise it puts the tombstone on top. -/
inductive Removed (t : Table α) (T id : Nat) (s : GraphDb) : GraphDb → Prop
  | first {r : Record α} {items : List PItem} (hr : t.record s id = r)
      (hused : r.used = true) (hlocked : r.obj.txnId = T) (hno : ∀ dn, ¬ Front T dn r)
      (hst : (t.props s).buildDirtyPropertyList (t.propertyList r.obj.data) =
        .ok items) :
      Removed t T id s (t.addDirty T id (t.setRecord id
        ((r.push (Record.oldVersion r.obj T) items true).push
          (Record.deletedVersion r.obj T) [] true) s))
  | again {r : Record α} {dn : DirtyObject α} (hr : t.record s id = r)
      (hf : Front T dn r) (hup : dn.updateMode = true) (hcts : dn.elem.cts = INF) :
      Removed t T id s (t.addDirty T id (t.setRecord id
        (r.push (Record.deletedVersion dn.elem T) [] true) s))

/-- The delete of a record that was only locked. -/
theorem View.Inv.addDeleted_first {n : Ref} {keep : Record α → Bool} {r : Record α}
    (h : v.Inv top H s) (hr : t.record s n.id = r)
    (hloc : n.loc = .slot) (hkeep : keep r = true)
    (hl : Locked v.scheme (· ∈ s.activeTx) top (t.props s).buildDirtyPropertyList
      (H n.id) T r) :
    wp (t.addDeleted T n keep) (fun _ s' => Removed t T n.id s s')
      (fun _ _ => False) s := by
  obtain ⟨hown, items, H₁, hl⟩ := hl
  have hrec := (h.slots n.id).record
  rw [hr] at hrec
  have hst := hl.holds
  rw [v.pl_eq] at hst
  simp only [Table.addDeleted, wp_bind, wp_get]
  refine Table.read_slot hloc ?_
  simp only [hr, hkeep, if_true, wp_bind, wp_get, wp_ofExcept, wp_pure, wp_modify, hloc]
  refine ⟨fun pitems hp => ?_, fun e he => ?_⟩
  · obtain rfl := Except.ok.inj (hst.symm.trans hp)
    have hprep := hrec.prepared hl.used
    rw [hrec.addDirtyVersions hl.used
      (show (Record.oldVersion r.obj T).prepared = true from hprep)
      (show (Record.deletedVersion r.obj T).prepared = true from hprep)]
    exact .first hr hl.used hown (fun dn => hl.no_front dn) hst
  · rw [hst] at he
    cases he

/-- The delete of a record that the transaction has updated. -/
theorem View.Inv.addDeleted_again {n : Ref} {keep : Record α → Bool} {r : Record α}
    {dn : DirtyObject α} (h : v.Inv top H s) (hr : t.record s n.id = r)
    (hloc : n.loc = .copy dn.addr) (hkeep : keep r = false) (hf : Front T dn r)
    (hup : dn.updateMode = true) (hcts : dn.elem.cts = INF) :
    wp (t.addDeleted T n keep) (fun _ s' => Removed t T n.id s s')
      (fun _ _ => False) s := by
  have hrec := (h.slots n.id).record
  rw [hr] at hrec
  have hmem := List.mem_of_mem_head? hf.front
  simp only [Table.addDeleted, Table.read, wp_bind, wp_get, hr, hloc,
    hrec.deref_copy hmem, wp_pure, hkeep, Bool.false_eq_true, if_false, wp_modify]
  rw [hrec.addDirtyVersion hf.used
    (show (Record.deletedVersion dn.elem T).prepared = true from hrec.copies dn hmem)]
  exact .again hr hf hup hcts

theorem Removed.op {id : Nat} (h : v.Inv top H s) (hact : Active top s T)
    (hrm : Removed t T id s s') : v.Op T top H s s' := by
  have hslot := h.slots id
  cases hrm with
  | first hr hused hlocked hno hst =>
      rw [hr] at hslot
      rw [← v.pl_eq] at hst
      have hl := hslot.record.locked_of_no_front hact.ne_zero hused hlocked hno
      obtain ⟨hslot', hev⟩ := hslot.delete hact.ne_zero hl hst rfl
      exact h.setRecordDirty hslot' (hr ▸ hev)
  | again hr hf hup hcts =>
      rw [hr] at hslot
      obtain ⟨hslot', hev⟩ := hslot.deleteOwn hact.mem hf hup hcts rfl
      exact h.setRecordDirty hslot' (hr ▸ hev)

end Views

end Poseidon
