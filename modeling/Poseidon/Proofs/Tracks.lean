import Poseidon.Proofs.Archive
import Poseidon.Proofs.AsOf
import Poseidon.Proofs.PropertyGrowth
import Poseidon.Temporal.System

/-!
# How a store keeps a history

Every version of a timeline has its place: the slot of a hot record, a
history record, or an archival that is still to be done. The index has an
entry for it, and no others, and the map of current versions leads to the open
ones. `Tracks T F K s` says this of one table; `F` are the slots of records
that may be new and without a begin timestamp, and `K` are the versions that
wait for their archival.

Most steps of the store are `Steady`: they leave the places alone, but for a
few slots. What the others do to them is for the modules that follow.
-/

namespace Poseidon.Temporal

open Wp

/-! ## Tasks -/

/-- The logical id of the version that a task archives. -/
def Task.lid : Task → Nat
  | .node a => a.lid
  | .rship a => a.lid

/-- Its valid time. -/
def Task.span : Task → Span Nat
  | .node a => ⟨a.vtStart, a.newVtStart⟩
  | .rship a => ⟨a.vtStart, a.newVtStart⟩

/-- Its property list. -/
def Task.pid : Task → Nat
  | .node a => a.pid
  | .rship a => a.pid

/-! ## Records -/

/-- What of a record matters to reads by valid time and to archivals. -/
structure Vital where
  used : Bool
  bts : Nat
  cts : Nat
  id : Nat
  logicalId : Nat
  vtStart : Nat
  vtEnd : Nat
  propertyList : Nat
  copies : List (Bool × Nat × Nat × Nat)

/-- The same of a dirty version. -/
def vitalCopy {ε : Type} (dn : DirtyObject (Versioned ε)) : Bool × Nat × Nat × Nat :=
  (dn.updateMode, dn.elem.data.logicalId, dn.elem.data.vtStart, dn.elem.data.propertyList)

def vital {ε : Type} (r : Record (Versioned ε)) : Vital :=
  ⟨r.used, r.obj.bts, r.obj.cts, r.obj.data.id, r.obj.data.logicalId, r.obj.data.vtStart,
    r.obj.data.vtEnd, r.obj.data.propertyList, r.dirtyList.map vitalCopy⟩

/-- A record that was committed, or will be by the running transaction. -/
def Vital.Settled (p : PropertyList) (fresh : Prop) (lid start : Nat) (c : Vital) : Prop :=
  c.bts ≠ 0 ∧ c.copies = [] ∨
    fresh ∧ c.cts = INF ∧ ∃ m pid, c.copies = [(m, lid, start, pid)] ∧ p.Readable pid

/-- The record in slot `id` is the version `v` of a logical id. -/
structure Vital.Shows (p : PropertyList) (fresh : Prop) (lid : Nat) (v : Span Nat) (id : Nat)
    (c : Vital) : Prop where
  used : c.used = true
  own : c.id = id
  logical : c.logicalId = lid
  starts : c.vtStart = v.start
  ends : v.stop ≤ c.vtEnd
  props : p.Readable c.propertyList
  settled : c.Settled p fresh lid v.start

section Tables

variable {ε δ γ : Type} (t : Table ε δ γ)

/-- The slots that wait to be collected. -/
def Table.discarded (s : GraphDb) : List Nat :=
  (s.garbage.filter fun g => g.itype = t.gcType).map GcItem.oid

/-- The tasks for versions in the table. -/
def Table.queue (s : GraphDb) : List Task := s.tasks.filter fun k => k.isRel = t.isRel

/-! ## Places -/

/-- The version is in a slot that the collector will not free. -/
structure Table.Hot (F : List Nat) (s : GraphDb) (lid : Nat) (v : Span Nat) (id : Nat) :
    Prop where
  shows : (vital (t.record s id)).Shows (t.side s).props (id ∈ F) lid v id
  kept : id ∉ t.discarded s

/-- Where a version is. A hot version that has ended has a successor. -/
inductive Table.Placed (T : Nat → Timeline Nat) (F : List Nat) (K : List (Nat × Span Nat))
    (s : GraphDb) (lid : Nat) (v : Span Nat) : Prop
  | hot (id : Nat) (he : entryAt s.index lid v.start t.isRel = some (PtrType.hot.code, id))
      (h : t.Hot F s lid v id) (hend : v.stop = MAX_TIME ∨ ∃ w ∈ (T lid).spans, w.start = v.stop)
  | hist (raw : Nat) (d : HistoryDelta δ)
      (he : entryAt s.index lid v.start t.isRel = some (PtrType.hist.code, raw))
      (hd : (t.side s).deltas[raw]? = some d)
      (hv : d.lid = lid ∧ d.vtStart = v.start ∧ d.vtEnd = v.stop) (hend : v.stop ≠ MAX_TIME)
  | pending (h : (lid, v) ∈ K)

/-- The store keeps the history `T` in the table. -/
structure Table.Tracks (T : Nat → Timeline Nat) (F : List Nat) (K : List (Nat × Span Nat))
    (s : GraphDb) : Prop where
  fits : ∀ lid, ∀ v ∈ (T lid).spans, lid < 2 ^ 31 ∧ v.start < 2 ^ 32 ∧ v.stop ≤ MAX_TIME
  only : ∀ lid st, lid < 2 ^ 31 → st < 2 ^ 32 → entryAt s.index lid st t.isRel ≠ none →
    ∃ v ∈ (T lid).spans, v.start = st
  placed : ∀ lid, ∀ v ∈ (T lid).spans, t.Placed T F K s lid v
  current : ∀ lid id, lid < 2 ^ 31 → (t.findCurrent lid s = some id ↔
    ∃ v ∈ (T lid).spans, v.stop = MAX_TIME ∧
      entryAt s.index lid v.start t.isRel = some (PtrType.hot.code, id))
  waiting : ∀ p ∈ K, p.2 ∈ (T p.1).spans ∧ p.2.stop ≠ MAX_TIME
  last : ∀ lid h, (t.side s).lastDelta lid = some h →
    ∃ n, n < (t.side s).deltas.length ∧ n < 2 ^ 56 ∧ h = encodeHistoryId n
  checkpoints : ∀ lid k, lid < 2 ^ 31 → ((t.side s).checkpoints lid).lookup k ≠ none →
    ∃ v ∈ (T lid).spans, v.start = k
  bounded : (t.side s).props.Bounded
  inserts : ∀ id, ∀ c ∈ (vital (t.record s id)).copies, c.1 = false
  distinct : (t.discarded s).Nodup
  present : ∀ id ∈ t.discarded s, (t.record s id).used = true

/-! ## Steady steps -/

/-- The places of the versions in a table are left alone, but for the slots
`X`. -/
structure Table.Steady (X : List Nat) (s s' : GraphDb) : Prop where
  records : ∀ id, id ∉ X → vital (t.record s' id) = vital (t.record s id)
  logicalIndex : (t.side s').logicalIndex = (t.side s).logicalIndex
  checkpoints : (t.side s').checkpoints = (t.side s).checkpoints
  deltas : ∃ new, (t.side s').deltas = (t.side s).deltas ++ new
  last : ∀ lid h, (t.side s').lastDelta lid = some h → (t.side s).lastDelta lid = some h ∨
    ∃ n, n < (t.side s').deltas.length ∧ n < 2 ^ 56 ∧ h = encodeHistoryId n
  props : (t.side s).props.Bounded →
    (t.side s').props.Bounded ∧ PropertyList.Grows (t.side s).props (t.side s').props
  entries : ∀ lid st, entryAt s'.index lid st t.isRel = entryAt s.index lid st t.isRel
  discarded : t.discarded s' = t.discarded s
  queue : t.queue s' = t.queue s
  dirty : ∀ x, ∀ id ∈ t.dirty (s.txs x), id ∈ t.dirty (s'.txs x)

/-- The record in a slot has changed, and shows the versions it showed before
or some that wait for their archival. -/
structure Table.Mends (T : Nat → Timeline Nat) (F F' : List Nat) (K' : List (Nat × Span Nat))
    (s s' : GraphDb) (id : Nat) : Prop where
  used : (t.record s id).used = true → (t.record s' id).used = true
  inserts : ∀ c ∈ (vital (t.record s' id)).copies, c.1 = false
  shows : ∀ lid v, v ∈ (T lid).spans →
    (vital (t.record s id)).Shows (t.side s).props (id ∈ F) lid v id →
    (vital (t.record s' id)).Shows (t.side s').props (id ∈ F') lid v id ∨ (lid, v) ∈ K'

variable {t} {T T' : Nat → Timeline Nat} {F F' X : List Nat} {K K' : List (Nat × Span Nat)}
variable {s s' s'' : GraphDb} {lid id : Nat} {v : Span Nat}

/-- A change that is not one of the table. -/
theorem Table.Steady.of_side (hside : t.side s' = t.side s)
    (he : ∀ lid st, entryAt s'.index lid st t.isRel = entryAt s.index lid st t.isRel)
    (hg : t.discarded s' = t.discarded s) (hq : t.queue s' = t.queue s)
    (hd : ∀ x, ∀ id ∈ t.dirty (s.txs x), id ∈ t.dirty (s'.txs x)) : t.Steady X s s' where
  records id _ := by rw [Table.record, Table.record, hside]
  logicalIndex := by rw [hside]
  checkpoints := by rw [hside]
  deltas := ⟨[], by rw [hside, List.append_nil]⟩
  last _ _ h := .inl (by rwa [hside] at h)
  props hb := by
    rw [hside]
    exact ⟨hb, .refl _⟩
  entries := he
  discarded := hg
  queue := hq
  dirty := hd

theorem Table.Steady.refl (s : GraphDb) : t.Steady X s s :=
  .of_side rfl (fun _ _ => rfl) rfl rfl fun _ _ h => h

theorem Table.Steady.trans (h : t.Steady X s s') (h' : t.Steady X s' s'') : t.Steady X s s'' where
  records id hid := (h'.records id hid).trans (h.records id hid)
  logicalIndex := h'.logicalIndex.trans h.logicalIndex
  checkpoints := h'.checkpoints.trans h.checkpoints
  deltas := by
    obtain ⟨new, hnew⟩ := h.deltas
    obtain ⟨new', hnew'⟩ := h'.deltas
    exact ⟨new ++ new', by rw [hnew', hnew, List.append_assoc]⟩
  last lid i hi := by
    rcases h'.last lid i hi with hi | hi
    · rcases h.last lid i hi with hi | ⟨n, hn, hlt, heq⟩
      · exact .inl hi
      · obtain ⟨new', hnew'⟩ := h'.deltas
        refine .inr ⟨n, ?_, hlt, heq⟩
        rw [hnew', List.length_append]
        omega
    · exact .inr hi
  props hb := by
    obtain ⟨hb', hg⟩ := h.props hb
    obtain ⟨hb'', hg'⟩ := h'.props hb'
    exact ⟨hb'', hg.trans hg'⟩
  entries lid st := (h'.entries lid st).trans (h.entries lid st)
  discarded := h'.discarded.trans h.discarded
  queue := h'.queue.trans h.queue
  dirty x id hid := h'.dirty x id (h.dirty x id hid)

theorem Table.Steady.widen (h : t.Steady [] s s') : t.Steady X s s' :=
  { h with records := fun id _ => h.records id (fun h => by cases h) }

instance trace_steady : Trace (t.Steady X) where
  refl := .refl
  trans := .trans

/-! ## What a steady step keeps -/

theorem Vital.Settled.mono {c : Vital} {p p' : PropertyList} {fresh fresh' : Prop}
    {lid start : Nat} (h : c.Settled p fresh lid start) (hp : PropertyList.Grows p p')
    (hf : fresh → fresh') : c.Settled p' fresh' lid start := by
  rcases h with h | ⟨hfr, hc, m, pid, hcopies, hpid⟩
  · exact .inl h
  · exact .inr ⟨hf hfr, hc, m, pid, hcopies, hpid.grows hp⟩

theorem Vital.Shows.mono {c : Vital} {p p' : PropertyList} {fresh fresh' : Prop}
    (h : c.Shows p fresh lid v id) (hp : PropertyList.Grows p p') (hf : fresh → fresh') :
    c.Shows p' fresh' lid v id :=
  ⟨h.used, h.own, h.logical, h.starts, h.ends, h.props.grows hp, h.settled.mono hp hf⟩

/-- A place that is left alone. -/
theorem Table.Placed.mono (h : t.Placed T F K s lid v)
    (he : entryAt s'.index lid v.start t.isRel = entryAt s.index lid v.start t.isRel)
    (hhot : ∀ id, t.Hot F s lid v id → t.Hot F' s' lid v id ∨ (lid, v) ∈ K')
    (hd : ∃ new, (t.side s').deltas = (t.side s).deltas ++ new)
    (hK : (lid, v) ∈ K → (lid, v) ∈ K')
    (hT : ∀ w ∈ (T lid).spans, ∃ w' ∈ (T' lid).spans, w'.start = w.start) :
    t.Placed T' F' K' s' lid v := by
  cases h with
  | hot id he' hh hend =>
      rcases hhot id hh with hh | hh
      · refine .hot id (he.trans he') hh (hend.imp (fun h => h) ?_)
        rintro ⟨w, hw, hs⟩
        obtain ⟨w', hw', hs'⟩ := hT w hw
        exact ⟨w', hw', hs'.trans hs⟩
      · exact .pending hh
  | hist raw d he' hd' hv hend =>
      obtain ⟨new, hnew⟩ := hd
      refine .hist raw d (he.trans he') ?_ hv hend
      rw [hnew, List.getElem?_append_left (List.getElem?_eq_some_iff.mp hd').1]
      exact hd'
  | pending hp => exact .pending (hK hp)

/-- The last records are still ones that exist. -/
theorem Table.Tracks.last_of (h : t.Tracks T F K s)
    (hd : ∃ new, (t.side s').deltas = (t.side s).deltas ++ new)
    (hl : ∀ lid h, (t.side s').lastDelta lid = some h → (t.side s).lastDelta lid = some h ∨
      ∃ n, n < (t.side s').deltas.length ∧ n < 2 ^ 56 ∧ h = encodeHistoryId n) (lid i : Nat)
    (hi : (t.side s').lastDelta lid = some i) :
    ∃ n, n < (t.side s').deltas.length ∧ n < 2 ^ 56 ∧ i = encodeHistoryId n := by
  rcases hl lid i hi with hi | hi
  · obtain ⟨n, hn, hlt, heq⟩ := h.last lid i hi
    obtain ⟨new, hnew⟩ := hd
    refine ⟨n, ?_, hlt, heq⟩
    rw [hnew, List.length_append]
    omega
  · exact hi

/-- A steady step keeps the history. -/
theorem Table.Tracks.steady (h : t.Tracks T F K s) (hs : t.Steady X s s')
    (hX : ∀ id ∈ X, t.Mends T F F' K' s s' id) (hF : ∀ id, id ∉ X → id ∈ F → id ∈ F')
    (hK : ∀ p ∈ K, p ∈ K') (hK' : ∀ p ∈ K', p.2 ∈ (T p.1).spans ∧ p.2.stop ≠ MAX_TIME) :
    t.Tracks T F' K' s' := by
  obtain ⟨hb, hg⟩ := hs.props h.bounded
  refine ⟨h.fits, fun lid st hl hst he => ?_, fun lid v hv => ?_, fun lid id hl => ?_, hK',
    h.last_of hs.deltas hs.last, fun lid k hl hk => ?_, hb, fun id => ?_, ?_, fun id hid => ?_⟩
  · rw [hs.entries] at he
    exact h.only lid st hl hst he
  · refine (h.placed lid v hv).mono (hs.entries _ _) (fun id hh => ?_) hs.deltas (hK _)
      fun w hw => ⟨w, hw, rfl⟩
    have hkept : id ∉ t.discarded s' := hs.discarded ▸ hh.kept
    by_cases hid : id ∈ X
    · exact ((hX id hid).shows lid v hv hh.shows).imp (fun hsh => ⟨hsh, hkept⟩) fun hp => hp
    · refine .inl ⟨?_, hkept⟩
      rw [hs.records id hid]
      exact hh.shows.mono hg (hF id hid)
  · simp only [Table.findCurrent, hs.logicalIndex, hs.entries]
    exact h.current lid id hl
  · rw [hs.checkpoints] at hk
    exact h.checkpoints lid k hl hk
  · by_cases hid : id ∈ X
    · exact (hX id hid).inserts
    · rw [hs.records id hid]
      exact h.inserts id
  · exact hs.discarded ▸ h.distinct
  · rw [hs.discarded] at hid
    by_cases hX' : id ∈ X
    · exact (hX id hX').used (h.present id hid)
    · exact (congrArg Vital.used (hs.records id hX')).trans (h.present id hid)

/-- A step that changes no slot of the table. -/
theorem Table.Tracks.quiet (h : t.Tracks T F K s) (hs : t.Steady [] s s')
    (hF : ∀ id ∈ F, id ∈ F') : t.Tracks T F' K s' :=
  h.steady hs (fun _ hid => by cases hid) (fun id _ => hF id) (fun _ hp => hp) h.waiting

end Tables

/-! ## Changes of the other table -/

section Apart

variable {ε δ γ ε' δ' γ' : Type} {t : Table ε δ γ} {u : Table ε' δ' γ'}
variable {X : List Nat} {s : GraphDb}

variable [u.Apart t]

variable (t u) in
/-- A change of the other side only. -/
theorem steady_setSide [u.Laws] (sd : Side ε' δ' γ') (s : GraphDb) :
    t.Steady X s (u.setSide sd s) :=
  .of_side (by simp) (fun _ _ => by simp) (by simp [Table.discarded]) (by simp [Table.queue])
    fun x id hid => by simpa using hid

variable [u.Laws] [t.Laws]

instance recordsBy_steady : u.RecordsBy (t.Steady X) where
  side s _ _ := steady_setSide t u _ s
  garbage s xid id := by
    have hne : u.gcType ≠ t.gcType := Table.Apart.gcType_ne
    refine .of_side (by simp) (fun _ _ => rfl) ?_ rfl fun _ _ h => h
    simp [Table.discarded, List.filter_append, hne]

omit [t.Laws] in
instance dirtyBy_steady : u.DirtyBy (t.Steady X) where
  dirty xid id s :=
    .of_side (by simp) (fun _ _ => by simp) (by simp [Table.discarded]) (by simp [Table.queue])
      fun x id hid => by simpa using hid

omit [t.Laws] in
variable (t u) in
theorem steady_addHistory (d : HistoryDelta δ') (s : GraphDb) :
    t.Steady X s (u.addHistory d s) := (steady_setSide t u _ s).trans (steady_setSide t u _ _)

instance histBy_steady : u.HistBy (t.Steady X) where
  current s _ := steady_setSide t u _ s
  checkpoint s _ := steady_setSide t u _ s
  counts s _ := .of_side (by simp) (fun _ _ => rfl) rfl rfl fun _ _ h => h
  hot s lid vt id :=
    .of_side (by simp [Table.indexHot])
      (fun _ _ => entryAt_insert_ne (Table.Apart.isRel_ne (t := u) (u := t))) rfl rfl
      fun _ _ h => h
  remove s lid vt :=
    .of_side (by simp)
      (fun _ _ => entryAt_remove_ne (Table.Apart.isRel_ne (t := u) (u := t))) rfl rfl
      fun _ _ h => h
  base s d := steady_addHistory t u d s
  archive s d _ := by
    have hne : u.isRel ≠ t.isRel := Table.Apart.isRel_ne
    refine (steady_addHistory t u d s).trans ?_
    refine .of_side (by simp [Table.indexHist]) (fun _ _ => ?_) rfl rfl fun _ _ h => h
    exact (entryAt_insert_ne hne).trans (entryAt_remove_ne hne)
  submit s k hk := by
    have hne : u.isRel ≠ t.isRel := Table.Apart.isRel_ne
    refine .of_side (by simp) (fun _ _ => rfl) rfl ?_ fun _ _ h => h
    simp [Table.queue, List.filter_append, hk, hne]

end Apart

/-! ## Changes of the table itself -/

section Own

variable {ε δ γ : Type} {t : Table ε δ γ} [t.Laws] {X : List Nat} {s : GraphDb} {id : Nat}

theorem steady_setRecord (id : Nat) (r : Record (Versioned ε)) (s : GraphDb) :
    t.Steady [id] s (t.setRecord id r s) where
  records i hi := by rw [record_setRecord, if_neg (by simpa using hi)]
  logicalIndex := by simp [Table.setRecord, Table.modifySide]
  checkpoints := by simp [Table.setRecord, Table.modifySide]
  deltas := ⟨[], by simp [Table.setRecord, Table.modifySide]⟩
  last _ _ h := .inl (by simpa [Table.setRecord, Table.modifySide] using h)
  props hb := by simpa [Table.setRecord, Table.modifySide] using ⟨hb, PropertyList.Grows.refl _⟩
  entries _ _ := by simp [Table.setRecord, Table.modifySide]
  discarded := by simp [Table.discarded, Table.setRecord, Table.modifySide]
  queue := by simp [Table.queue, Table.setRecord, Table.modifySide]
  dirty _ _ h := by simpa [Table.setRecord, Table.modifySide] using h

/-- A change of a record that no reader sees. -/
theorem steady_of_vital {r : Record (Versioned ε)} (hr : vital r = vital (t.record s id)) :
    t.Steady X s (t.setRecord id r s) :=
  { steady_setRecord id r s with
    records := fun i _ => by
      rw [record_setRecord]
      split
      · next h => rw [h, hr]
      · rfl }

instance linksBy_steady : t.LinksBy (t.Steady X) where
  links _ _ _ := steady_of_vital rfl

instance addDirty_steady : t.DirtyBy (t.Steady X) where
  dirty xid id s := .of_side (by simp) (fun _ _ => by simp) (by simp [Table.discarded])
    (by simp [Table.queue]) fun x i hi => by
      rw [Table.Laws.dirty_addDirty]
      split
      · exact List.mem_append_left _ hi
      · exact hi

theorem steady_prepareHot (id : Nat) : Keeps (t.Steady X) (t.prepareHot id) := by
  refine ⟨fun s => ?_⟩
  rw [always, Table.prepareHot, wp_bind, wp_getRecord]
  split
  · exact steady_of_vital rfl
  · exact .refl s

/-- A read by valid time is steady. -/
theorem steady_getAtVt (lid vt : Nat) : Keeps (t.Steady X) (t.getAtVt lid vt) :=
  keeps_getAtVt_of steady_prepareHot lid vt

/-- So is a read by id. -/
theorem steady_byId (xid id : Nat) :
    wp (t.byId xid id) (fun n s' => n.id = id ∧ t.Steady [] s s')
    (fun _ s' => t.Steady [] s s') s := by
  rw [Table.byId, wp_bind, wp_checkTxContext]
  split
  · rw [wp_bind, wp_getRecord]
    split
    · rw [wp_modify_bind, wp_bind]
      have hs : t.Steady [] s (t.setRecord id
          { t.record s id with obj := (t.record s id).obj.prepare.setRts xid } s) :=
        steady_of_vital (by simp [vital, Obj.prepare])
      exact wp_ofExcept_ok (fun l _ => ⟨rfl, hs⟩) fun _ => hs
    · exact .refl s
  · exact .refl s

end Own

end Poseidon.Temporal
