import Poseidon.Proofs.Writing

/-!
# A commit follows the history

The commit of a new record gives it its timestamps, its properties and a
first history record, and takes its copy off the dirty list: the record shows
the same version as before, and needs its transaction no more. The loop over
the dirty list of one table does this record by record, with what is left of
the list as the slots that may be new; the loop over the other list is
steady. The collector frees slots that show no version that is needed.
-/

namespace Poseidon.Temporal

open Wp

section Tables

variable {ε δ γ : Type} {t : Table ε δ γ} [t.Laws] {T : Nat → Timeline Nat}
variable {s s' : GraphDb} {xid id : Nat} {F l X : List Nat} {K : List (Nat × Span Nat)}

/-! ## Steps of a commit -/

@[simp] theorem record_setProps (p : PropertyList) (i : Nat) :
    t.record (t.setProps p s) i = t.record s i := by
  rw [Table.record, side_setProps, Table.record]

theorem props_setRecord (i : Nat) (r : Record (Versioned ε)) :
    (t.side (t.setRecord i r s)).props = (t.side s).props := by
  simp [Table.setRecord, Table.modifySide]

/-- Property lists that are made. -/
theorem steady_setProps {p : PropertyList}
    (hp : (t.side s).props.Bounded → p.Bounded ∧ PropertyList.Grows (t.side s).props p) :
    t.Steady X s (t.setProps p s) where
  records i _ := by rw [Table.record, side_setProps, Table.record]
  logicalIndex := by rw [side_setProps]
  checkpoints := by rw [side_setProps]
  deltas := ⟨[], by rw [side_setProps, List.append_nil]⟩
  last _ _ h := .inl (by rwa [side_setProps] at h)
  props hb := by rw [side_setProps]; exact hp hb
  entries _ _ := by simp [Table.setProps, Table.modifySide]
  discarded := by simp [Table.discarded, Table.setProps, Table.modifySide]
  queue := by simp [Table.queue, Table.setProps, Table.modifySide]
  dirty _ _ h := by simpa [Table.setProps, Table.modifySide] using h

/-- A first history record. -/
theorem steady_base {d : HistoryDelta δ} (hlen : (t.side s).deltas.length < 2 ^ 56) :
    t.Steady X s (t.addHistory d s) := by
  have hside : t.side (t.addHistory d s) = { t.side s with
      deltas := (t.side s).deltas ++ [d]
      lastDelta := fun l => if l = d.lid then some (encodeHistoryId (t.side s).deltas.length)
        else (t.side s).lastDelta l } := by
    simp [Table.addHistory, Table.setLastDelta, Table.modifySide]
  refine ⟨fun i _ => ?_, ?_, ?_, ⟨[d], by rw [hside]⟩, fun lid i hi => ?_, fun hb => ?_,
    fun _ _ => ?_, ?_, ?_, fun _ _ h => ?_⟩
  · rw [Table.record, hside, Table.record]
  · rw [hside]
  · rw [hside]
  · rw [hside] at hi ⊢
    dsimp only at hi ⊢
    split at hi
    · cases hi
      exact .inr ⟨_, by simp, hlen, rfl⟩
    · exact .inl hi
  · rw [hside]
    exact ⟨hb, .refl _⟩
  · simp [Table.addHistory, Table.setLastDelta, Table.modifySide]
  · simp [Table.discarded, Table.addHistory, Table.setLastDelta, Table.modifySide]
  · simp [Table.queue, Table.addHistory, Table.setLastDelta, Table.modifySide]
  · simpa [Table.addHistory, Table.setLastDelta, Table.modifySide] using h

omit [t.Laws] in
theorem wp_addPitems {owner : Nat} {items : List PItem} {Q : Nat → GraphDb → Prop}
    {E : Err → GraphDb → Prop} (h : Q ((t.side s).props.addPitems owner items).1
      (t.setProps ((t.side s).props.addPitems owner items).2 s)) :
    wp (t.addPitems owner items) Q E s := h

theorem steady_addPitems (owner : Nat) (items : List PItem) (s : GraphDb) :
    t.Steady X s (t.setProps ((t.side s).props.addPitems owner items).2 s) :=
  steady_setProps fun hb =>
    let ⟨hb', hg, _⟩ := PropertyList.addPitems_grows hb owner items
    ⟨hb', hg⟩

/-- A first history record, if there is room for it. -/
theorem always_addBase (d : HistoryDelta δ) :
    always (do
      let rawId ← t.appendDelta d
      modify (t.setLastDelta d.lid (encodeHistoryId rawId))) (t.Steady X s) s := by
  rw [always, wp_bind, wp_appendDelta]
  split
  · exact .refl s
  · next hlt => exact steady_base (Nat.lt_of_not_le hlt)

/-- What the commit of a new record does. -/
structure Table.Published (xid id : Nat) (s s' : GraphDb) : Prop where
  steady : t.Steady [id] s s'
  used : (vital (t.record s' id)).used = (vital (t.record s id)).used
  own : (vital (t.record s' id)).id = (vital (t.record s id)).id
  logical : (vital (t.record s' id)).logicalId = (vital (t.record s id)).logicalId
  starts : (vital (t.record s' id)).vtStart = (vital (t.record s id)).vtStart
  ends : (vital (t.record s' id)).vtEnd = (vital (t.record s id)).vtEnd ∨
    (vital (t.record s' id)).vtEnd = MAX_TIME
  bts : (vital (t.record s' id)).bts = xid
  props : (t.side s).props.Bounded →
    (vital (t.record s' id)).propertyList = (vital (t.record s id)).propertyList ∨
      (t.side s').props.Readable (vital (t.record s' id)).propertyList
  copies : ∀ c ∈ (vital (t.record s' id)).copies, c ∈ (vital (t.record s id)).copies.tail

/-- `copy_properties` of a new record. -/
theorem wp_copyProperties {dn : DirtyObject (Versioned ε)} (hm : dn.updateMode = false) :
    wp (t.copyProperties id dn) (fun _ s' => t.Steady [id] s s' ∧
      ∃ pid, vital (t.record s' id) = { vital (t.record s id) with propertyList := pid } ∧
        ((t.side s).props.Bounded → pid = (vital (t.record s id)).propertyList ∨
          (t.side s').props.Readable pid)) (fun _ _ => True) s := by
  rw [Table.copyProperties]
  refine wp_ite (fun _ => ⟨.refl s, _, rfl, fun _ => .inl rfl⟩) fun _ => ?_
  rw [wp_get_bind, if_neg (by simp [hm]), wp_bind]
  refine wp_addPitems ?_
  rw [wp_modify]
  have hs := steady_addPitems (X := [id]) (t := t) id dn.properties s
  refine ⟨hs.trans (steady_setRecord id _ _), ((t.side s).props.addPitems id dn.properties).1, ?_,
    fun hb => .inr ?_⟩
  · rw [record_modifyData, if_pos rfl, record_setProps]
    rfl
  · rw [Table.modifyData, Table.modifyObj, props_setRecord, side_setProps]
    exact (PropertyList.addPitems_grows hb id dn.properties).2.2.readable

omit [t.Laws] in
/-- Versions that are dropped. -/
theorem copies_filter {r : Record (Versioned ε)} {p : DirtyObject (Versioned ε) → Bool} :
    ∀ c ∈ (r.dirtyList.filter p).map vitalCopy, c ∈ (vital r).copies := by
  intro c hc
  obtain ⟨dn, hdn, rfl⟩ := List.mem_map.mp hc
  exact List.mem_map_of_mem (List.mem_filter.mp hdn).1

/-- The end of a commit only drops versions that have ended. -/
theorem wp_finishCommit : wp (t.finishCommit id) (fun _ s' => t.Steady [id] s s' ∧
    ∃ cs, vital (t.record s' id) = { vital (t.record s id) with copies := cs } ∧
      ∀ c ∈ cs, c ∈ (vital (t.record s id)).copies) (fun _ _ => False) s := by
  rw [Table.finishCommit, wp_modify_bind, wp_modify]
  refine ⟨(steady_setRecord id _ s).trans (steady_setRecord id _ _), ?_⟩
  rw [record_setRecord, if_pos rfl, record_modifyObj, if_pos rfl]
  exact ⟨_, rfl, copies_filter⟩

omit [t.Laws] in
theorem Table.Published.of_vital {cts pid e : Nat} {cs : List (Bool × Nat × Nat × Nat)}
    (hs : t.Steady [id] s s') (hv : vital (t.record s' id) = { vital (t.record s id) with
      propertyList := pid, bts := xid, cts := cts, vtEnd := e, copies := cs })
    (he : e = (vital (t.record s id)).vtEnd ∨ e = MAX_TIME)
    (hp : (t.side s).props.Bounded → pid = (vital (t.record s id)).propertyList ∨
      (t.side s').props.Readable pid)
    (hcs : ∀ c ∈ cs, c ∈ (vital (t.record s id)).copies.tail) : t.Published xid id s s' := by
  refine ⟨hs, ?_, ?_, ?_, ?_, ?_, ?_, ?_, ?_⟩
  · rw [hv]
  · rw [hv]
  · rw [hv]
  · rw [hv]
  · rw [hv]
    exact he
  · rw [hv]
  · rw [hv]
    exact hp
  · rw [hv]
    exact hcs

omit [t.Laws] in
/-- The record of a version that is published still shows it, and needs its
transaction no more. -/
theorem Table.Published.mends (hp : t.Published xid id s s') (h : t.Tracks T (id :: l) K s)
    (hx : xid ≠ 0) (hc : (vital (t.record s id)).copies ≠ []) :
    t.Mends T (id :: l) l K s s' id := by
  refine ⟨fun hu => hp.used.trans hu, fun c hm => ?_, fun lid v hv hsh => .inl ?_⟩
  · exact h.inserts id c (List.mem_of_mem_tail (hp.copies c hm))
  · have hempty : (vital (t.record s' id)).copies = [] := by
      refine List.eq_nil_iff_forall_not_mem.mpr fun c hm => ?_
      have hm := hp.copies c hm
      rcases hsh.settled with ⟨-, hn⟩ | ⟨-, -, m, pid, hone, -⟩
      · exact hc hn
      · rw [hone] at hm
        cases hm
    have hends : v.stop ≤ (vital (t.record s' id)).vtEnd := by
      rcases hp.ends with heq | heq
      · exact heq ▸ hsh.ends
      · exact heq ▸ (h.fits lid v hv).2.2
    refine ⟨hp.used.trans hsh.used, hp.own.trans hsh.own, hp.logical.trans hsh.logical,
      hp.starts.trans hsh.starts, hends, ?_, .inl ⟨hp.bts ▸ hx, hempty⟩⟩
    rcases hp.props h.bounded with heq | hr
    · rw [heq]
      exact hsh.props.grows (hp.steady.props h.bounded).2
    · exact hr

/-- The copy goes off the list, and the record is left behind. -/
theorem wp_popFinish : wp (t.finishCommit id) (fun _ s' => t.Steady [id] s s' ∧
    ∃ cs, vital (t.record s' id) = { vital (t.record s id) with copies := cs } ∧
      ∀ c ∈ cs, c ∈ (vital (t.record s id)).copies.tail) (fun _ _ => False) (t.popFront id s) := by
  have hpop : vital (t.record (t.popFront id s) id) =
      { vital (t.record s id) with copies := (vital (t.record s id)).copies.tail } := by
    rw [Table.popFront, record_setRecord, if_pos rfl]
    simp [vital]
  refine wp_mono wp_finishCommit ?_ fun _ _ h => h
  rintro _ s' ⟨hs, cs, hv, hcs⟩
  rw [hpop] at hv hcs
  exact ⟨(steady_setRecord id _ s).trans hs, cs, hv, hcs⟩

/-! ## The loop over a dirty list -/

/-- The records of `l` are still to be published. -/
structure Table.Publishing (t : Table ε δ γ) (T : Nat → Timeline Nat) (l : List Nat)
    (q : List Task) (s : GraphDb) : Prop where
  tracks : t.Tracks T l (waiting q) s
  queue : t.queue s = q
  readable : ∀ k ∈ q, (t.side s).props.Readable k.pid

variable {q : List Task}

omit [t.Laws] in
theorem Table.Publishing.steady (h : t.Publishing T l q s) (hs : t.Steady [] s s') :
    t.Publishing T l q s' :=
  ⟨h.tracks.quiet hs fun _ h => h, hs.queue.trans h.queue,
    fun k hk => (h.readable k hk).grows (hs.props h.tracks.bounded).2⟩

omit [t.Laws] in
/-- One record is published. -/
theorem Table.Publishing.next (h : t.Publishing T (id :: l) q s) (hs : t.Steady [id] s s')
    (hm : t.Mends T (id :: l) l (waiting q) s s' id) : t.Publishing T l q s' := by
  refine ⟨h.tracks.steady hs (fun i hi => ?_) (fun i hi hmem => ?_) (fun _ h => h) h.tracks.waiting,
    hs.queue.trans h.queue, fun k hk => (h.readable k hk).grows (hs.props h.tracks.bounded).2⟩
  · rw [List.mem_singleton.mp hi]
    exact hm
  · exact (List.mem_cons.mp hmem).resolve_left fun heq => hi (by simp [heq])

omit [t.Laws] in
/-- A record without a copy of its own shows versions that were committed. -/
theorem Table.Mends.of_committed {cs : List (Bool × Nat × Nat × Nat)} (h : t.Tracks T (id :: l) K s)
    (hs : t.Steady [id] s s') (hv : vital (t.record s' id) =
    { vital (t.record s id) with copies := cs })
    (hcs : ∀ c ∈ cs, c ∈ (vital (t.record s id)).copies)
    (hc : (vital (t.record s id)).cts ≠ INF ∨ (vital (t.record s id)).copies = []) :
    t.Mends T (id :: l) l K s s' id := by
  refine ⟨fun hu => (congrArg Vital.used hv).trans hu, fun c hm => ?_,
    fun lid v hmem hsh => .inl ?_⟩
  · rw [hv] at hm
    exact h.inserts id c (hcs c hm)
  · rw [hv]
    refine ⟨hsh.used, hsh.own, hsh.logical, hsh.starts, hsh.ends,
      hsh.props.grows (hs.props h.bounded).2, .inl ?_⟩
    rcases hsh.settled with ⟨hb, hn⟩ | ⟨-, hinf, m, pid, hone, -⟩
    · refine ⟨hb, List.eq_nil_iff_forall_not_mem.mpr fun c hm => ?_⟩
      exact List.ne_nil_of_mem (hcs c hm) hn
    · rcases hc with hc | hc
      · exact absurd hinf hc
      · rw [hone] at hc
        cases hc

theorem commitDirty_publishing {onInsert onDelete onUpdate : DirtyObject (Versioned ε) → DbM Unit}
    (h : t.Publishing T (id :: l) q s) (hx : xid ≠ 0)
    (hins : ∀ dn, dn.updateMode = false → wp (do onInsert dn; t.finishCommit id)
      (fun _ s' => t.Published xid id s s') (fun _ _ => True) s) :
    wp (t.commitDirty onInsert onDelete onUpdate id) (fun _ s' => t.Publishing T l q s')
      (fun _ _ => True) s := by
  rw [Table.commitDirty, wp_bind, wp_getRecord]
  split
  swap
  · trivial
  refine wp_ite (fun hcts => ?_) fun _ => ?_
  · -- a record that has ended
    rw [wp_modify]
    have hs : t.Steady [id] s (t.setRecord id ((t.record s id).removeDirtyVersion 0) s) :=
      steady_setRecord _ _ _
    have hv : vital (t.record (t.setRecord id ((t.record s id).removeDirtyVersion 0) s) id) =
        { vital (t.record s id) with
          copies := ((t.record s id).removeDirtyVersion 0).dirtyList.map vitalCopy } := by
      rw [record_setRecord, if_pos rfl]
      rfl
    exact h.next hs (.of_committed h.tracks hs hv copies_filter (.inl hcts))
  · split
    · next hnil =>
      have hs : t.Steady [id] s s := .refl s
      exact h.next hs (.of_committed h.tracks hs rfl (fun _ h => h) (.inr (by simp [vital, hnil])))
    · next dn rest hcons =>
      have hm : dn.updateMode = false := by
        refine h.tracks.inserts id (vitalCopy dn) ?_
        simp [vital, hcons]
      refine wp_ite (fun _ => ?_) fun hn => absurd hn (by simp [hm])
      refine wp_mono (hins dn hm) (fun _ s' hp => ?_) fun _ _ h => h
      exact h.next hp.steady (hp.mends h.tracks hx (by simp [vital, hcons]))

/-! ## Collection -/

/-- What the collector has done to an item. -/
def Table.Swept (t : Table ε δ γ) (T : Nat → Timeline Nat) (q : List Task) (id : Nat)
    (s : GraphDb) (freed : Bool) (s' : GraphDb) : Prop :=
  ∃ s₁, s' = (if freed then t.free id s₁ else s₁) ∧ t.Publishing T [] q s₁ ∧
    t.discarded s₁ = t.discarded s

/-- Dropping the versions of a record that have ended. -/
theorem Table.Publishing.gc (h : t.Publishing T [] q s) (id : Nat) :
    t.Publishing T [] q (t.setRecord id ((t.record s id).gc s.oldestXid) s) := by
  have hs : t.Steady [id] s (t.setRecord id ((t.record s id).gc s.oldestXid) s) :=
    steady_setRecord _ _ _
  have hv : vital (t.record (t.setRecord id ((t.record s id).gc s.oldestXid) s) id) =
      { vital (t.record s id) with
        copies := ((t.record s id).gc s.oldestXid).dirtyList.map vitalCopy } := by
    rw [record_setRecord, if_pos rfl]
    rfl
  refine ⟨h.tracks.steady hs (fun i hi => ?_) (fun i _ hmem => (by cases hmem)) (fun _ h => h)
    h.tracks.waiting, hs.queue.trans h.queue,
    fun k hk => (h.readable k hk).grows (hs.props h.tracks.bounded).2⟩
  rw [List.mem_singleton.mp hi]
  refine ⟨fun hu => (congrArg Vital.used hv).trans hu, fun c hm => ?_,
    fun lid v hmem hsh => .inl ?_⟩
  · rw [hv] at hm
    exact h.tracks.inserts id c (copies_filter c hm)
  · rw [hv]
    refine ⟨hsh.used, hsh.own, hsh.logical, hsh.starts, hsh.ends,
      hsh.props.grows (hs.props h.tracks.bounded).2, .inl ?_⟩
    rcases hsh.settled with ⟨hb, hn⟩ | ⟨hf, -⟩
    · refine ⟨hb, List.eq_nil_iff_forall_not_mem.mpr fun c hm => ?_⟩
      exact List.ne_nil_of_mem (copies_filter c hm) hn
    · cases hf

omit [t.Laws] in
theorem discarded_append (s : GraphDb) (gs gs' : List GcItem) :
    t.discarded { s with garbage := gs ++ gs' } =
      t.discarded { s with garbage := gs } ++ t.discarded { s with garbage := gs' } := by
  simp [Table.discarded, List.filter_append]

/-- The collector keeps the history, also when it fails. -/
theorem vacuumLoop_publishing
    (hown : ∀ xid id s, t.Publishing T [] q s → wp (vacuumItem ⟨xid, id, t.gcType⟩)
      (fun b s' => t.Swept T q id s b s') (fun _ s' => t.Publishing T [] q s') s)
    (hother : ∀ g : GcItem, g.itype ≠ t.gcType → Keeps (t.Steady []) (vacuumItem g)) :
    ∀ (rest kept : List GcItem) (s : GraphDb), t.Publishing T [] q s →
      t.discarded s = t.discarded { s with garbage := kept ++ rest } →
      always (vacuumLoop kept rest) (t.Publishing T [] q) s := by
  intro rest
  induction rest with
  | nil => exact fun _ _ h _ => h
  | cons g rest ih =>
      intro kept s h hd
      rw [always, vacuumLoop, wp_bind]
      by_cases hg : g.itype = t.gcType
      · obtain ⟨xid, id, ty⟩ := g
        cases hg
        have hd' : t.discarded s = t.discarded { s with garbage := kept } ++
            id :: t.discarded { s with garbage := rest } := by
          rw [hd, discarded_append]
          simp [Table.discarded]
        refine wp_mono (hown xid id s h) ?_ fun _ _ h => h
        rintro b _ ⟨s₁, rfl, h₁, hd₁⟩
        cases b with
        | false =>
            refine ih (kept ++ [⟨xid, id, t.gcType⟩]) s₁ h₁ ?_
            rw [hd₁, hd, List.append_assoc]
            rfl
        | true =>
            rw [if_pos rfl, if_pos rfl, wp_modify_bind]
            have hq₁ : t.queue { t.free id s₁ with garbage := kept ++ rest } = t.queue s₁ := by
              simp [Table.queue, Table.free, Table.setRecord, Table.modifySide]
            refine ih kept _ ⟨?_, hq₁.trans h₁.queue, fun k hk => ?_⟩ rfl
            · exact h₁.tracks.collect (hd₁.trans hd') (discarded_append s kept rest)
            · rw [Table.Laws.side_rest, Table.free, props_setRecord]
              exact h₁.readable k hk
      · refine wp_mono ((hother g hg).always s) ?_ fun _ _ hs => h.steady hs
        intro b s₁ hs₁
        have hd₁ : t.discarded s₁ = t.discarded { s with garbage := kept ++ rest } := by
          rw [hs₁.discarded, hd]
          simp [Table.discarded, List.filter_append, hg]
        cases b with
        | false =>
            refine ih (kept ++ [g]) s₁ (h.steady hs₁) ?_
            rw [hd₁]
            simp [Table.discarded, List.filter_append, hg]
        | true =>
            rw [if_pos rfl, wp_modify_bind]
            refine ih kept _ ((h.steady hs₁).steady ?_) rfl
            exact .of_side (by simp) (fun _ _ => rfl) hd₁.symm rfl fun _ _ h => h

end Tables

/-! ## New nodes -/

section Nodes

variable {s s' : GraphDb} {xid id : Nat}

theorem steady_archiveBaseNode (xid id : Nat) (s : GraphDb) :
    always (archiveBaseNode xid id) (nodeTable.Steady [] s) s := by
  rw [archiveBaseNode, always, wp_get_bind]
  refine wp_ite (fun _ => ?_) fun _ => .refl s
  exact always_addBase ⟨_, _, _, _, _, _, _, _, _, _⟩

theorem commitInsertNode_published {dn : DirtyObject (Versioned NodeLinks)}
    (hm : dn.updateMode = false) :
    wp (do commitInsertNode xid id dn; nodeTable.finishCommit id)
      (fun _ s' => nodeTable.Published xid id s s') (fun _ _ => True) s := by
  rw [wp_bind, commitInsertNode]
  refine wp_seq_any (wp_copyProperties hm) ?_
  rintro _ s₁ ⟨hs₁, pid, hv₁, hp₁⟩
  rw [wp_modify_bind, wp_modify_bind]
  refine wp_seq_any (P := fun _ s₂ => nodeTable.Steady [id] s₁ s₂ ∧
    (nodeTable.side s₂).props = (nodeTable.side s₁).props ∧ vital (nodeTable.record s₂ id) =
      { vital (nodeTable.record s₁ id) with bts := xid, cts := INF }) (E := fun _ _ => True) ?_ ?_
  · rw [Table.handOver, wp_modify]
    refine ⟨((steady_setRecord id _ _).trans (steady_setRecord id _ _)).trans
      (steady_setRecord id _ _), rfl, ?_⟩
    simp only [record_modifyData, Table.setTimestamps, record_modifyObj, if_pos]
    rfl
  rintro _ s₂ ⟨hs₂, hq₂, hv₂⟩
  refine wp_seq_any (steady_archiveBaseNode xid id s₂) ?_
  intro _ s₃ hs₃
  rw [wp_modify]
  refine wp_mono wp_popFinish ?_ fun _ _ h => h.elim
  rintro _ s₄ ⟨hs₄, cs, hv₄, hcs⟩
  have hv₃ : vital (nodeTable.record s₃ id) = { vital (nodeTable.record s id) with
      propertyList := pid, bts := xid, cts := INF } := by
    rw [hs₃.records id (fun h => by cases h), hv₂, hv₁]
  rw [hv₃] at hv₄ hcs
  refine Table.Published.of_vital (((hs₁.trans hs₂).trans hs₃.widen).trans hs₄) hv₄ (.inl rfl)
    (fun hb => (hp₁ hb).imp_right fun hr => ?_) hcs
  have hb₁ := (hs₁.props hb).1
  exact hr.grows ((((hs₂.trans hs₃.widen).trans hs₄)).props hb₁).2

end Nodes

/-! ## New relationships -/

section Rships

variable {s s' : GraphDb} {xid id : Nat}

theorem steady_archiveBaseRship (xid id : Nat) (s : GraphDb) :
    always (archiveBaseRship xid id) (rshipTable.Steady [] s) s := by
  rw [archiveBaseRship, always, wp_get_bind]
  refine wp_ite (fun _ => ?_) fun _ => .refl s
  rw [wp_get_bind, wp_bind]
  refine wp_ofExcept_ok (fun items _ => ?_) fun _ => .refl s
  rw [wp_bind]
  refine wp_addPitems ?_
  have hs₁ := steady_addPitems (X := []) (t := rshipTable)
    (rshipTable.record s id).obj.data.id items s
  generalize (rshipTable.setProps _ s) = s₁ at hs₁ ⊢
  rw [wp_bind]
  refine wp_mono wp_logicalIdOf ?_ fun _ s' heq => heq ▸ hs₁
  rintro srcLid s' rfl
  rw [wp_bind]
  refine wp_mono wp_logicalIdOf ?_ fun _ s' heq => heq ▸ hs₁
  rintro destLid s' rfl
  refine always_mono (always_addBase ⟨_, _, _, _, _, _, _, _, _, _⟩) fun _ hs₂ => hs₁.trans hs₂

theorem commitInsertRship_published {dn : DirtyObject (Versioned RshipLinks)}
    (hm : dn.updateMode = false) :
    wp (do commitInsertRship xid id dn; rshipTable.finishCommit id)
      (fun _ s' => rshipTable.Published xid id s s') (fun _ _ => True) s := by
  rw [wp_bind, commitInsertRship]
  rw [wp_modify_bind, wp_modify_bind]
  generalize hs₁' : rshipTable.modifyData id _ (rshipTable.setTimestamps id xid INF s) = s₁
  have hs₁ : rshipTable.Steady [id] s s₁ := by
    rw [← hs₁']
    exact (steady_setRecord id _ _).trans (steady_setRecord id _ _)
  have hv₁ : vital (rshipTable.record s₁ id) = { vital (rshipTable.record s id) with
      bts := xid, cts := INF, vtEnd := MAX_TIME } := by
    rw [← hs₁']
    simp only [record_modifyData, Table.setTimestamps, record_modifyObj, if_pos]
    rfl
  have hq₁ : (rshipTable.side s₁).props = (rshipTable.side s).props := by
    rw [← hs₁']
    rfl
  refine wp_seq_any (wp_copyProperties hm) ?_
  rintro _ s₂ ⟨hs₂, pid, hv₂, hp₂⟩
  refine wp_seq_any (P := fun _ s₃ => rshipTable.Steady [id] s₂ s₃ ∧
    vital (rshipTable.record s₃ id) = vital (rshipTable.record s₂ id)) (E := fun _ _ => True) ?_ ?_
  · rw [Table.handOver, wp_modify]
    refine ⟨steady_setRecord id _ _, ?_⟩
    simp only [record_modifyData, if_pos]
    rfl
  rintro _ s₃ ⟨hs₃, hv₃⟩
  refine wp_seq_any (steady_archiveBaseRship xid id s₃) ?_
  intro _ s₄ hs₄
  rw [wp_modify]
  refine wp_mono wp_popFinish ?_ fun _ _ h => h.elim
  rintro _ s₅ ⟨hs₅, cs, hv₅, hcs⟩
  have hv₄ : vital (rshipTable.record s₄ id) = { vital (rshipTable.record s id) with
      propertyList := pid, bts := xid, cts := INF, vtEnd := MAX_TIME } := by
    rw [hs₄.records id (fun h => by cases h), hv₃, hv₂, hv₁]
  rw [hv₄] at hv₅ hcs
  rw [hv₁, hq₁] at hp₂
  have hs₅' := ((hs₃.trans hs₄.widen).trans hs₅)
  refine Table.Published.of_vital ((hs₁.trans hs₂).trans hs₅') hv₅ (.inr rfl)
    (fun hb => (hp₂ hb).imp_right fun hr => ?_) hcs
  exact hr.grows (hs₅'.props (hs₂.props (hs₁.props hb).1).1).2

end Rships

end Poseidon.Temporal
