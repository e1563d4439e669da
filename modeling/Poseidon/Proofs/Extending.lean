import Poseidon.Proofs.Tracks

/-!
# What writes and archivals do to a history

A new version takes a free slot, ends the valid time of the version before it
and becomes the current one; closing a version takes its logical id out of the
map of current versions and leaves the version to its archival; an archival
moves a version that has ended to the history records. Each of these keeps
`Tracks`, for a timeline that is extended, closed or the same.
-/

namespace Poseidon.Temporal

open Wp

/-! ## Histories that grow -/

/-- A version of the logical id `l` after a call at `vt` on `lid`. -/
def aged (lid vt l : Nat) (v : Span Nat) : Span Nat :=
  if l = lid then Timeline.closeSpan MAX_TIME vt v else v

section Histories

variable {T : Nat → Timeline Nat} {lid vt l : Nat} {h : (T lid).Before MAX_TIME vt} {v w : Span Nat}

theorem aged_start : (aged lid vt l v).start = v.start := by
  rw [aged]
  split
  · exact Timeline.closeSpan_start
  · rfl

/-- A version that has ended stays as it is. -/
theorem aged_of_ended (hv : v.stop ≠ MAX_TIME) : aged lid vt l v = v := by
  rw [aged, Timeline.closeSpan, if_neg hv, ite_self]

theorem aged_of_ne (hl : l ≠ lid) : aged lid vt l v = v := if_neg hl

theorem aged_of_open (hv : v.stop = MAX_TIME) : aged lid vt lid v = ⟨v.start, vt⟩ := by
  rw [aged, if_pos rfl, Timeline.closeSpan, if_pos hv]

theorem aged_stop_le (h : (T lid).Before MAX_TIME vt) (hv : v ∈ (T lid).spans) :
    (aged lid vt lid v).stop ≤ vt := by
  rw [aged, if_pos rfl]
  exact Timeline.closeSpan_stop_le h hv

theorem aged_stop_le_self (hvt : vt < MAX_TIME) : (aged lid vt l v).stop ≤ v.stop := by
  rw [aged, Timeline.closeSpan]
  split
  · split
    · next hopen => exact hopen ▸ Nat.le_of_lt hvt
    · exact Nat.le_refl _
  · exact Nat.le_refl _

theorem mem_closeAt :
    w ∈ (closeAt T lid vt h l).spans ↔ ∃ v ∈ (T l).spans, aged lid vt l v = w := by
  by_cases hl : l = lid
  · subst hl
    rw [closeAt, Function.update_self, Timeline.mem_close]
    simp only [aged, if_pos]
  · rw [closeAt, Function.update_of_ne hl]
    simp only [aged_of_ne hl, exists_eq_right]

theorem mem_extendAt : w ∈ (extendAt T lid vt h l).spans ↔
    (l = lid ∧ w = ⟨vt, MAX_TIME⟩) ∨ ∃ v ∈ (T l).spans, aged lid vt l v = w := by
  by_cases hl : l = lid
  · subst hl
    rw [extendAt, Function.update_self, Timeline.mem_extend]
    simp only [aged, if_pos, true_and]
  · rw [extendAt, Function.update_of_ne hl]
    simp only [aged_of_ne hl, exists_eq_right, hl, false_and, false_or]

/-- Of one logical id at most one version is open. -/
theorem open_unique (hv : v ∈ (T l).spans) (hw : w ∈ (T l).spans) (hvo : v.stop = MAX_TIME)
    (hwo : w.stop = MAX_TIME) : v = w := by
  have hv' := (T l).proper v hv
  have hw' := (T l).proper w hw
  rcases (T l).apart hv hw with heq | hle | hle
  · exact heq
  · omega
  · omega

end Histories

section Tables

variable {ε δ γ : Type} (t : Table ε δ γ)

/-! ## A new version -/

/-- A new version of `lid` from `vt` on was put in `slot`. -/
structure Table.Added (xid slot lid vt : Nat) (s s' : GraphDb) : Prop where
  free : (t.record s slot).used = false
  small : slot < 2 ^ 56
  fresh : vital (t.record s' slot) =
    ⟨true, 0, INF, slot, lid, vt, MAX_TIME, UNKNOWN, [(false, lid, vt, UNKNOWN)]⟩
  closed : ∀ id, t.findCurrent lid s = some id →
    vital (t.record s' id) = { vital (t.record s id) with vtEnd := vt }
  records : ∀ id, id ≠ slot → t.findCurrent lid s ≠ some id →
    vital (t.record s' id) = vital (t.record s id)
  current : ∀ l, t.findCurrent l s' = if l = lid then some slot else t.findCurrent l s
  history : (t.side s').deltas = (t.side s).deltas ∧ (t.side s').lastDelta = (t.side s).lastDelta ∧
    (t.side s').checkpoints = (t.side s).checkpoints ∧ (t.side s').props = (t.side s).props
  index : s'.index = insertVersion s.index lid vt .hot slot t.isRel
  garbage : s'.garbage = s.garbage
  tasks : s'.tasks = s.tasks
  dirty : ∀ x, t.dirty (s'.txs x) =
    if x = xid then t.dirty (s.txs x) ++ [slot] else t.dirty (s.txs x)

variable {t} [t.Laws] {xid slot lid vt label id : Nat} {s s' : GraphDb}

/-- Only records have changed. -/
structure Table.VecOnly (s s' : GraphDb) : Prop where
  side : t.side s' = { t.side s with vec := (t.side s').vec }
  index : s'.index = s.index
  garbage : s'.garbage = s.garbage
  tasks : s'.tasks = s.tasks
  txs : s'.txs = s.txs

omit [t.Laws] in
theorem Table.VecOnly.trans {s'' : GraphDb} (h : t.VecOnly s s') (h' : t.VecOnly s' s'') :
    t.VecOnly s s'' where
  side := by rw [h'.side, h.side]
  index := h'.index.trans h.index
  garbage := h'.garbage.trans h.garbage
  tasks := h'.tasks.trans h.tasks
  txs := h'.txs.trans h.txs

omit [t.Laws] in
theorem Table.VecOnly.findCurrent (h : t.VecOnly s s') (l : Nat) :
    t.findCurrent l s' = t.findCurrent l s := by
  rw [Table.findCurrent, h.side, Table.findCurrent]

theorem vecOnly_setRecord (r : Record (Versioned ε)) : t.VecOnly s (t.setRecord id r s) := by
  constructor <;> simp [Table.setRecord, Table.modifySide]

theorem vecOnly_modifyData (f : Versioned ε → Versioned ε) :
    t.VecOnly s (t.modifyData id f s) := vecOnly_setRecord _

/-- The end of an insertion, when the new record and the one before it have
been linked. -/
theorem Table.VecOnly.added {s₁ : GraphDb} {props : List PItem} (h : t.VecOnly s s₁)
    (hfree : (t.record s slot).used = false) (hsmall : slot < 2 ^ 56)
    (hne : t.findCurrent lid s ≠ some slot)
    (hfresh : vital (t.record s₁ slot) =
      ⟨true, 0, INF, slot, lid, vt, MAX_TIME, UNKNOWN, []⟩)
    (hclosed : ∀ id, t.findCurrent lid s = some id →
      vital (t.record s₁ id) = { vital (t.record s id) with vtEnd := vt })
    (hrecords : ∀ id, id ≠ slot → t.findCurrent lid s ≠ some id →
      vital (t.record s₁ id) = vital (t.record s id)) :
    wp (do
      modify (t.setCurrent lid slot)
      modify (t.indexHot lid vt slot)
      t.addInserted xid slot props)
      (fun _ s' => t.Added xid slot lid vt s s') (fun _ _ => True) s₁ := by
  rw [wp_modify_bind, wp_modify_bind, Table.addInserted, wp_get_bind, wp_modify_bind, wp_modify]
  have hside : t.side (t.indexHot lid vt slot (t.setCurrent lid slot s₁)) =
      { t.side s₁ with logicalIndex := fun l =>
          if l = lid then some slot else (t.side s₁).logicalIndex l } := by
    simp [Table.indexHot, Table.setCurrent, Table.modifySide]
  have hrec : ∀ id, t.record (t.indexHot lid vt slot (t.setCurrent lid slot s₁)) id =
      t.record s₁ id := fun id => by rw [Table.record, hside, Table.record]
  have hset : ∀ id r, id ≠ slot → t.record (t.addDirty xid slot (t.setRecord slot r
      (t.indexHot lid vt slot (t.setCurrent lid slot s₁)))) id = t.record s₁
      id := fun id r hid => by
    rw [record_addDirty, record_setRecord, if_neg hid, hrec]
  refine ⟨hfree, hsmall, ?_, fun id hid => ?_, fun id hid hcid => ?_, fun l => ?_, ?_, ?_, ?_, ?_,
    fun x => ?_⟩
  · rw [record_addDirty, record_setRecord, if_pos rfl, hrec]
    simp only [vital, Vital.mk.injEq, List.map_eq_nil_iff] at hfresh
    simp [vital, vitalCopy, Record.addDirtyVersion, Record.modifyAt, Obj.prepare, hfresh]
  · have hid' : id ≠ slot := fun heq => hne (heq ▸ hid)
    rw [hset id _ hid', hclosed id hid]
  · rw [hset id _ hid, hrecords id hid hcid]
  · rw [Table.findCurrent, Table.Laws.side_addDirty, Table.setRecord, Table.modifySide,
      Table.Laws.side_setSide, hside, h.side]
    rfl
  · simp [Table.setRecord, Table.modifySide, hside]
    rw [h.side]
    simp
  · simp [Table.setRecord, Table.modifySide, Table.indexHot, Table.setCurrent, h.index]
  · simp [Table.setRecord, Table.modifySide, Table.indexHot, Table.setCurrent, h.garbage]
  · simp [Table.setRecord, Table.modifySide, Table.indexHot, Table.setCurrent, h.tasks]
  · simp [Table.setRecord, Table.modifySide, Table.indexHot, Table.setCurrent, h.txs]

/-- Storing a record in a free slot and writing its valid time. -/
theorem wp_addVersion {props : List PItem} {links : ε} (hl : lid ≠ UNKNOWN)
    (hcur : ∀ id, t.findCurrent lid s = some id → (t.record s id).used = true) :
    wp (t.addVersion xid ⟨slot, slot⟩ label props vt MAX_TIME lid links)
      (fun _ s' => t.Added xid slot lid vt s s') (fun _ _ => True) s := by
  rw [Table.addVersion, wp_bind, Table.insertRecord, wp_get_bind]
  by_cases hfree : (t.record s slot).used = true ∨ 2 ^ 56 ≤ slot
  · rw [if_pos hfree]
    trivial
  rw [if_neg hfree, if_pos hl]
  obtain ⟨hfree, hsmall⟩ := not_or.mp hfree
  have hfree : (t.record s slot).used = false := by simpa using hfree
  have hne : t.findCurrent lid s ≠ some slot := fun hc => by simp [hcur slot hc] at hfree
  have hsmall : slot < 2 ^ 56 := Nat.lt_of_not_le hsmall
  generalize hr : (⟨true, ⟨xid, 0, INF, 0, false, false, ⟨slot, lid, UNKNOWN, label, UNKNOWN,
    UNKNOWN, UNKNOWN, UNKNOWN, 0, links⟩⟩, [], (t.record s slot).nextAddr⟩ :
    Record (Versioned ε)) = r
  change wp (t.getRecord slot >>= fun _ => modify (t.modifyData slot fun d => { d with
    vtStart := vt, vtEnd := MAX_TIME, prevVersion := UNKNOWN, nextVersion := UNKNOWN }) >>=
    fun _ => t.linkVersion lid slot vt >>= fun _ => t.addInserted xid slot props) _ _
    (t.setRecord slot r s)
  rw [wp_bind, wp_getRecord, record_setRecord, if_pos rfl, if_pos (by rw [← hr]), wp_modify_bind]
  -- the record as it is linked
  generalize hs₁ : t.modifyData slot (fun d => { d with
    vtStart := vt, vtEnd := MAX_TIME, prevVersion := UNKNOWN, nextVersion := UNKNOWN })
    (t.setRecord slot r s) = s₁
  have hs : t.VecOnly s s₁ := hs₁ ▸ (vecOnly_setRecord r).trans (vecOnly_modifyData _)
  have hv : vital (t.record s₁ slot) = ⟨true, 0, INF, slot, lid, vt, MAX_TIME, UNKNOWN, []⟩ := by
    rw [← hs₁, record_modifyData, if_pos rfl, record_setRecord, if_pos rfl, ← hr]
    rfl
  have hrest : ∀ id, id ≠ slot → t.record s₁ id = t.record s id := fun id hid => by
    rw [← hs₁, record_modifyData, if_neg hid, record_setRecord, if_neg hid]
  rw [wp_bind, Table.linkVersion, wp_get_bind, hs.findCurrent]
  cases hc : t.findCurrent lid s with
  | none =>
      refine (wp_bind _ _).mp (hs.added hfree hsmall hne hv (fun id hid => ?_) fun id hid _ => ?_)
      · rw [hc] at hid
        cases hid
      · rw [hrest id hid]
  | some existing =>
      have hex : existing ≠ slot := fun heq => hne (heq ▸ hc)
      change wp (t.getRecord existing >>= _) _ _ _
      rw [wp_bind, wp_getRecord]
      split
      · rw [wp_modify_bind]
        change wp (modify _ >>= _) _ _ _
        rw [wp_modify_bind]
        refine (wp_bind _ _).mp (((hs.trans (vecOnly_modifyData _)).trans
          (vecOnly_modifyData _)).added hfree hsmall hne ?_
          (fun id hid => ?_) fun id hid hcid => ?_)
        · simp only [record_modifyData, if_pos, if_neg hex.symm]
          exact hv
        · cases hc.symm.trans hid
          simp only [record_modifyData, if_pos, if_neg hex, hrest existing hex]
          rfl
        · have hne' : id ≠ existing := fun heq => hcid (heq ▸ hc)
          simp only [record_modifyData, if_neg hid, if_neg hne', hrest id hid]
      · trivial

variable {T : Nat → Timeline Nat} {F F' : List Nat} {K K' : List (Nat × Span Nat)} {v : Span Nat}

omit [t.Laws] in
/-- The current version of a logical id is open and hot. -/
theorem Table.Tracks.hot_of_current (h : t.Tracks T F K s) (hl : lid < 2 ^ 31)
    (hc : t.findCurrent lid s = some id) : ∃ v ∈ (T lid).spans, v.stop = MAX_TIME ∧
      entryAt s.index lid v.start t.isRel = some (PtrType.hot.code, id) ∧ t.Hot F s lid v id := by
  obtain ⟨v, hv, hopen, he⟩ := (h.current lid id hl).mp hc
  refine ⟨v, hv, hopen, he, ?_⟩
  cases h.placed lid v hv with
  | hot id' he' hh hend =>
      cases he.symm.trans he'
      exact hh
  | hist raw d he' hd hv' hend => exact absurd hopen hend
  | pending hp => exact absurd hopen (h.waiting _ hp).2

omit [t.Laws] in
/-- A slot shows one version. -/
theorem Table.Hot.eq {l : Nat} {w : Span Nat} (hh : t.Hot F s lid v id) (hh' : t.Hot F s l w id)
    (hv : v ∈ (T lid).spans) (hw : w ∈ (T l).spans) : l = lid ∧ w = v := by
  have hl : l = lid := hh'.shows.logical.symm.trans hh.shows.logical
  subst hl
  exact ⟨rfl, Timeline.eq_of_start hw hv (hh'.shows.starts.symm.trans hh.shows.starts)⟩

omit [t.Laws] in
/-- A new version leaves the hot ones in their slots. -/
theorem Table.Added.hot (ha : t.Added xid slot lid vt s s') (h : t.Tracks T F K s)
    (hl : lid < 2 ^ 31) (hb : (T lid).Before MAX_TIME vt) (hF : ∀ id ∈ F, id ∈ F') {l : Nat}
    (hv : v ∈ (T l).spans) (hh : t.Hot F s l v id) : t.Hot F' s' l (aged lid vt l v) id := by
  have hne : id ≠ slot := by
    intro heq
    subst heq
    have hu := hh.shows.used
    change (t.record s id).used = true at hu
    rw [ha.free] at hu
    cases hu
  have hgarb : t.discarded s' = t.discarded s := by
    rw [Table.discarded, ha.garbage, Table.discarded]
  have hstarts : (vital (t.record s id)).vtStart = (aged lid vt l v).start := by
    rw [aged_start]
    exact hh.shows.starts
  have hsettled : (vital (t.record s id)).Settled (t.side s).props (id ∈ F') l
      (aged lid vt l v).start := by
    rw [aged_start]
    exact hh.shows.settled.mono (.refl _) (hF id)
  refine ⟨?_, hgarb ▸ hh.kept⟩
  rw [ha.history.2.2.2]
  by_cases hc : t.findCurrent lid s = some id
  · obtain ⟨w, hw, -, -, hhw⟩ := h.hot_of_current hl hc
    obtain ⟨rfl, -⟩ := hhw.eq hh hw hv
    rw [ha.closed id hc]
    exact ⟨hh.shows.used, hh.shows.own, hh.shows.logical, hstarts, aged_stop_le hb hv,
      hh.shows.props, hsettled⟩
  · rw [ha.records id hne hc]
    exact ⟨hh.shows.used, hh.shows.own, hh.shows.logical, hstarts,
      Nat.le_trans (aged_stop_le_self hb.finite) hh.shows.ends, hh.shows.props, hsettled⟩

omit [t.Laws] in
/-- The new version is in place, and those before it still are. -/
theorem Table.Tracks.extend (h : t.Tracks T F K s) (ha : t.Added xid slot lid vt s s')
    (hl : lid < 2 ^ 31) (hv : vt < 2 ^ 32) (hb : (T lid).Before MAX_TIME vt)
    (hF : ∀ id ∈ F, id ∈ F') (hslot : slot ∈ F') : t.Tracks (extendAt T lid vt hb) F' K s' := by
  obtain ⟨hdel, hlast, hcp, hprops⟩ := ha.history
  have hgarb : t.discarded s' = t.discarded s := by
    rw [Table.discarded, ha.garbage, Table.discarded]
  have hother : ∀ id, id ≠ slot → (vital (t.record s' id)).used = (vital (t.record s id)).used ∧
      (vital (t.record s' id)).copies = (vital (t.record s id)).copies := by
    intro id hid
    by_cases hc : t.findCurrent lid s = some id
    · rw [ha.closed id hc]
      exact ⟨rfl, rfl⟩
    · rw [ha.records id hid hc]
      exact ⟨rfl, rfl⟩
  have hfree : slot ∉ t.discarded s := fun hmem => by
    have hu := h.present slot hmem
    rw [ha.free] at hu
    cases hu
  have hentry : ∀ l st, l < 2 ^ 31 → st < 2 ^ 32 → entryAt s'.index l st t.isRel =
      if l = lid ∧ st = vt then some (PtrType.hot.code, slot) else entryAt s.index l
        st t.isRel := by
    intro l st hl' hst
    rw [ha.index, entryAt_insertVersion hl' hst hl hv,
      tiDecodePayload_encode (Nat.lt_of_lt_of_le ha.small (by decide))]
    simp only [and_true]
  have hfit : MAX_TIME ≠ vt := Nat.ne_of_gt hb.finite
  have hnew : (⟨vt, MAX_TIME⟩ : Span Nat) ∈ (extendAt T lid vt hb lid).spans :=
    mem_extendAt.mpr (.inl ⟨rfl, rfl⟩)
  have hold : ∀ l, ∀ v ∈ (T l).spans, aged lid vt l v ∈ (extendAt T lid vt hb l).spans :=
    fun l v hv => mem_extendAt.mpr (.inr ⟨v, hv, rfl⟩)
  -- the entries of the versions before
  have hkeep : ∀ l, ∀ v ∈ (T l).spans,
      entryAt s'.index l v.start t.isRel = entryAt s.index l v.start t.isRel := by
    intro l v hv
    obtain ⟨hl', hst, -⟩ := h.fits l v hv
    rw [hentry l _ hl' hst, if_neg]
    rintro ⟨rfl, heq⟩
    exact absurd (hb.after v hv).1 (heq ▸ Nat.lt_irrefl _)
  refine ⟨fun l w hw => ?_, fun l st hl' hst he => ?_, fun l w hw => ?_, fun l id hl' => ?_,
    fun p hp => ?_, ?_, fun l k hl' hk => ?_, ?_, fun id => ?_, ?_, fun id hid => ?_⟩
  · rcases mem_extendAt.mp hw with ⟨rfl, rfl⟩ | ⟨v, hv, rfl⟩
    · exact ⟨hl, hv, Nat.le_refl _⟩
    · obtain ⟨hl', hst, hend⟩ := h.fits l v hv
      rw [aged_start]
      exact ⟨hl', hst, Nat.le_trans (aged_stop_le_self hb.finite) hend⟩
  · rw [hentry l st hl' hst] at he
    by_cases heq : l = lid ∧ st = vt
    · obtain ⟨rfl, rfl⟩ := heq
      exact ⟨_, hnew, rfl⟩
    · rw [if_neg heq] at he
      obtain ⟨v, hv, hst'⟩ := h.only l st hl' hst he
      exact ⟨_, hold l v hv, aged_start.trans hst'⟩
  · rcases mem_extendAt.mp hw with ⟨rfl, rfl⟩ | ⟨v, hv, rfl⟩
    · refine .hot slot (by rw [hentry l vt hl hv, if_pos ⟨rfl, rfl⟩]) ⟨?_, hgarb ▸ hfree⟩ (.inl rfl)
      rw [ha.fresh]
      exact ⟨rfl, rfl, rfl, rfl, Nat.le_refl _, PropertyList.readable_unknown _,
        .inr ⟨hslot, rfl, false, UNKNOWN, rfl, PropertyList.readable_unknown _⟩⟩
    · have he : entryAt s'.index l (aged lid vt l v).start t.isRel =
          entryAt s.index l v.start t.isRel := by
        rw [aged_start]
        exact hkeep l v hv
      cases h.placed l v hv with
      | hot id he' hh hend =>
          refine .hot id (he.trans he') (ha.hot h hl hb hF hv hh) ?_
          by_cases hopen : v.stop = MAX_TIME
          · by_cases hl' : l = lid
            · subst hl'
              exact .inr ⟨_, hnew, by rw [aged_of_open hopen]⟩
            · exact .inl (by rw [aged_of_ne hl', hopen])
          · rw [aged_of_ended hopen]
            obtain ⟨w, hw, hs⟩ := hend.resolve_left hopen
            exact .inr ⟨_, hold l w hw, aged_start.trans hs⟩
      | hist raw d he' hd hv' hend =>
          rw [aged_of_ended hend] at he ⊢
          exact .hist raw d (he.trans he') (hdel ▸ hd) hv' hend
      | pending hp =>
          rw [aged_of_ended (h.waiting _ hp).2]
          exact .pending hp
  · rw [ha.current]
    by_cases heq : l = lid
    · subst heq
      rw [if_pos rfl]
      constructor
      · intro hid
        cases hid
        exact ⟨_, hnew, rfl, by rw [hentry l vt hl hv, if_pos ⟨rfl, rfl⟩]⟩
      · rintro ⟨w, hw, hopen, he⟩
        rcases mem_extendAt.mp hw with ⟨-, rfl⟩ | ⟨v, hv', rfl⟩
        · rw [hentry l vt hl hv, if_pos ⟨rfl, rfl⟩] at he
          cases he
          rfl
        · exact absurd (aged_stop_le hb hv') (Nat.not_le_of_lt (hopen ▸ hb.finite))
    · rw [if_neg heq, h.current l id hl']
      constructor
      · rintro ⟨v, hv', hopen, he⟩
        refine ⟨v, mem_extendAt.mpr (.inr ⟨v, hv', aged_of_ne heq⟩), hopen, ?_⟩
        rw [hkeep l v hv', he]
      · rintro ⟨w, hw, hopen, he⟩
        rcases mem_extendAt.mp hw with ⟨rfl, -⟩ | ⟨v, hv', rfl⟩
        · exact absurd rfl heq
        · rw [aged_of_ne heq] at hopen he
          exact ⟨v, hv', hopen, (hkeep l v hv').symm.trans he⟩
  · obtain ⟨hv, hend⟩ := h.waiting p hp
    have hm := hold p.1 p.2 hv
    rw [aged_of_ended hend] at hm
    exact ⟨hm, hend⟩
  · exact h.last_of ⟨[], by rw [hdel, List.append_nil]⟩ fun l i hi => .inl (hlast ▸ hi)
  · rw [hcp] at hk
    obtain ⟨v, hv, hst⟩ := h.checkpoints l k hl' hk
    exact ⟨_, hold l v hv, aged_start.trans hst⟩
  · rw [hprops]
    exact h.bounded
  · by_cases hid : id = slot
    · rw [hid, ha.fresh]
      simp
    · rw [(hother id hid).2]
      exact h.inserts id
  · exact hgarb ▸ h.distinct
  · have hid' := hgarb ▸ hid
    exact (hother id fun heq => hfree (heq ▸ hid')).1.trans (h.present id hid')

/-! ## The end of a version -/

/-- Closing the current version leaves it to its archival. -/
theorem Table.Tracks.close (h : t.Tracks T F K s) (hl : lid < 2 ^ 31)
    (hc : t.findCurrent lid s = some id) (hb : (T lid).Before MAX_TIME vt)
    (hs : t.Steady [id] s s') (hused : (t.record s' id).used = true)
    (hins : ∀ c ∈ (vital (t.record s' id)).copies, c.1 = false) :
    ∃ v ∈ (T lid).spans, v.stop = MAX_TIME ∧
      (⟨v.start, vt⟩ : Span Nat) ∈ (closeAt T lid vt hb lid).spans ∧
      t.Tracks (closeAt T lid vt hb) F ((lid, ⟨v.start, vt⟩) :: K) (t.eraseCurrent lid s') := by
  obtain ⟨v, hv, hopen, he, hhot⟩ := h.hot_of_current hl hc
  have hold : ∀ l, ∀ w ∈ (T l).spans, aged lid vt l w ∈ (closeAt T lid vt hb l).spans :=
    fun l w hw => mem_closeAt.mpr ⟨w, hw, rfl⟩
  have hclosed : (⟨v.start, vt⟩ : Span Nat) ∈ (closeAt T lid vt hb lid).spans := by
    rw [← aged_of_open hopen]
    exact hold lid v hv
  refine ⟨v, hv, hopen, hclosed, ?_⟩
  obtain ⟨hbd, hg⟩ := hs.props h.bounded
  have hside : t.side (t.eraseCurrent lid s') = { t.side s' with
      logicalIndex := fun l => if l = lid then none else (t.side s').logicalIndex l } := by
    simp [Table.eraseCurrent, Table.modifySide]
  have hix : (t.eraseCurrent lid s').index = s'.index := by
    simp [Table.eraseCurrent, Table.modifySide]
  have hgarb : t.discarded (t.eraseCurrent lid s') = t.discarded s := by
    rw [← hs.discarded]
    simp [Table.discarded, Table.eraseCurrent, Table.modifySide]
  have hcur : ∀ l, t.findCurrent l s' = t.findCurrent l s := fun l => by
    rw [Table.findCurrent, hs.logicalIndex, Table.findCurrent]
  refine ⟨fun l w hw => ?_, fun l st hl' hst he => ?_, fun l w hw => ?_, fun l i hl' => ?_,
    fun p hp => ?_, ?_, fun l k hl' hk => ?_, ?_, fun i => ?_, ?_, fun i hi => ?_⟩
  · obtain ⟨u, hu, rfl⟩ := mem_closeAt.mp hw
    obtain ⟨hl', hst, hend⟩ := h.fits l u hu
    rw [aged_start]
    exact ⟨hl', hst, Nat.le_trans (aged_stop_le_self hb.finite) hend⟩
  · rw [hix, hs.entries] at he
    obtain ⟨u, hu, hst'⟩ := h.only l st hl' hst he
    exact ⟨_, hold l u hu, aged_start.trans hst'⟩
  · obtain ⟨u, hu, rfl⟩ := mem_closeAt.mp hw
    by_cases huv : l = lid ∧ u = v
    · obtain ⟨rfl, rfl⟩ := huv
      rw [aged_of_open hopen]
      exact .pending (List.mem_cons_self ..)
    · have hsame : aged lid vt l u = u := by
        by_cases hl' : l = lid
        · subst hl'
          refine aged_of_ended fun huo => huv ⟨rfl, open_unique hu hv huo hopen⟩
        · exact aged_of_ne hl'
      rw [hsame]
      refine (h.placed l u hu).mono ?_ (fun i hh => .inl ⟨?_, hgarb ▸ hh.kept⟩) ?_
        (List.mem_cons_of_mem _) fun w hw => ⟨_, hold l w hw, aged_start⟩
      · rw [hix, hs.entries]
      · have hi : i ≠ id := fun heq => huv (hhot.eq (heq ▸ hh) hv hu)
        rw [record_eraseCurrent, hs.records i (by simpa using hi), hside]
        exact hh.shows.mono hg fun hf => hf
      · rw [hside]
        exact hs.deltas
  · rw [findCurrent_eraseCurrent, hix, hcur]
    simp only [hs.entries]
    by_cases heq : l = lid
    · subst heq
      rw [if_pos rfl]
      refine ⟨fun hn => (by cases hn), ?_⟩
      rintro ⟨w, hw, hwo, -⟩
      obtain ⟨u, hu, rfl⟩ := mem_closeAt.mp hw
      exact absurd (aged_stop_le hb hu) (Nat.not_le_of_lt (hwo ▸ hb.finite))
    · rw [if_neg heq, h.current l i hl']
      constructor
      · rintro ⟨u, hu, hwo, he'⟩
        exact ⟨u, mem_closeAt.mpr ⟨u, hu, aged_of_ne heq⟩, hwo, he'⟩
      · rintro ⟨w, hw, hwo, he'⟩
        obtain ⟨u, hu, rfl⟩ := mem_closeAt.mp hw
        rw [aged_of_ne heq] at hwo he'
        exact ⟨u, hu, hwo, he'⟩
  · rcases List.mem_cons.mp hp with rfl | hp
    · exact ⟨hclosed, Nat.ne_of_lt hb.finite⟩
    · obtain ⟨hp', hend⟩ := h.waiting p hp
      have hm := hold p.1 p.2 hp'
      rw [aged_of_ended hend] at hm
      exact ⟨hm, hend⟩
  · refine h.last_of ?_ ?_
    · rw [hside]
      exact hs.deltas
    · rw [hside]
      exact hs.last
  · rw [hside] at hk
    change ((t.side s').checkpoints l).lookup k ≠ none at hk
    rw [hs.checkpoints] at hk
    obtain ⟨u, hu, hst⟩ := h.checkpoints l k hl' hk
    exact ⟨_, hold l u hu, aged_start.trans hst⟩
  · rw [hside]
    exact hbd
  · rw [record_eraseCurrent]
    by_cases hi : i = id
    · exact hi ▸ hins
    · rw [hs.records i (by simpa using hi)]
      exact h.inserts i
  · exact hgarb ▸ h.distinct
  · rw [record_eraseCurrent]
    by_cases hi' : i = id
    · exact hi' ▸ hused
    · have hv' := congrArg Vital.used (hs.records i (by simpa using hi'))
      exact hv'.trans (h.present i (hgarb ▸ hi))

/-! ## Archivals -/

section Archivals

variable {a : ArchiveArgs δ γ} {p : PropertyList} {base delta : Nat}

/-- The entries after an archival. -/
theorem entryAt_archived (hl : a.lid < 2 ^ 31) (hv : a.vtStart < 2 ^ 32)
    (hlen : (t.side s).deltas.length < 2 ^ 56) {l st : Nat} (hl' : l < 2 ^ 31)
    (hst : st < 2 ^ 32) : entryAt (t.archived a p base delta s).index l st t.isRel =
      if l = a.lid ∧ st = a.vtStart then some (PtrType.hist.code, (t.side s).deltas.length)
      else entryAt s.index l st t.isRel := by
  rw [index_archived, entryAt_insertVersion hl' hst hl hv, entryAt_removeVersion hl' hst hl hv,
    tiDecodePayload_hist hlen]
  simp only [and_true]
  split
  · rfl
  · rfl

/-- The checkpoints after an archival. -/
theorem checkpoints_archived (l k : Nat) :
    ((t.side (t.archived a p base delta s)).checkpoints l).lookup k =
      ((t.side s).checkpoints l).lookup k ∨ (l = a.lid ∧ k = a.vtStart) := by
  refine archived_cases t a p base delta s (.inl ?_) fun s' c h => ?_
  · simp [Table.indexHist, Table.addHistory, Table.setLastDelta, Table.modifySide]
  · simp only [Table.addCheckpoint, Table.modifySide, Table.Laws.side_setSide]
    by_cases hl : l = a.lid
    · rw [if_pos hl, OrdMap.lookup_insert]
      by_cases hk : k = a.vtStart
      · exact .inr ⟨hl, hk⟩
      · rw [if_neg hk]
        exact h
    · rw [if_neg hl]
      exact h

/-- An archival of a version that has ended keeps the history. -/
theorem Table.Tracks.archived (h : t.Tracks T F K s) (base delta : Nat)
    (hv : v ∈ (T a.lid).spans)
    (hend : v.stop ≠ MAX_TIME) (hst : a.vtStart = v.start) (hen : a.newVtStart = v.stop)
    (hlen : (t.side s).deltas.length < 2 ^ 56)
    (hp : p.Bounded ∧ PropertyList.Grows (t.side s).props p)
    (hK : ∀ q ∈ K, q ∈ K' ∨ q = (a.lid, v)) (hK' : ∀ q ∈ K', q ∈ K) :
    t.Tracks T F K' (t.archived a p base delta s) := by
  obtain ⟨cp, hside⟩ := side_archived t a p base delta s
  obtain ⟨hgarb, -, -, -⟩ := lists_archived t a p base delta s
  have hgarb : t.discarded (t.archived a p base delta s) = t.discarded s := by
    rw [Table.discarded, hgarb, Table.discarded]
  obtain ⟨hl, hs, -⟩ := h.fits _ v hv
  have hentry : ∀ l st, l < 2 ^ 31 → st < 2 ^ 32 →
      entryAt (t.archived a p base delta s).index l st t.isRel =
        if l = a.lid ∧ st = v.start then some (PtrType.hist.code, (t.side s).deltas.length)
        else entryAt s.index l st t.isRel := by
    intro l st hl' hst'
    rw [entryAt_archived hl (hst ▸ hs) hlen hl' hst', hst]
  have hkeep : ∀ l, ∀ w ∈ (T l).spans, (l, w) ≠ (a.lid, v) →
      entryAt (t.archived a p base delta s).index l w.start t.isRel =
        entryAt s.index l w.start t.isRel := by
    intro l w hw hne
    obtain ⟨hl', hst', -⟩ := h.fits l w hw
    rw [hentry l _ hl' hst', if_neg]
    rintro ⟨rfl, heq⟩
    exact hne (by rw [Timeline.eq_of_start hw hv heq])
  have hdel : (t.side (t.archived a p base delta s)).deltas = (t.side s).deltas ++
      [a.record base delta (((t.side s).lastDelta a.lid).getD UNKNOWN)] := by rw [hside]
  have hrec : ∀ i, t.record (t.archived a p base delta s) i = t.record s i := fun i => by
    rw [Table.record, hside, Table.record]
  refine ⟨h.fits, fun l st hl' hst' he => ?_, fun l w hw => ?_, fun l i hl' => ?_,
    fun q hq => h.waiting q (hK' q hq), h.last_of ⟨_, hdel⟩ fun l i hi => ?_,
    fun l k hl' hk => ?_, ?_, fun i => ?_, hgarb ▸ h.distinct, fun i hi => ?_⟩
  · rw [hentry l st hl' hst'] at he
    by_cases heq : l = a.lid ∧ st = v.start
    · obtain ⟨rfl, rfl⟩ := heq
      exact ⟨v, hv, rfl⟩
    · rw [if_neg heq] at he
      exact h.only l st hl' hst' he
  · by_cases heq : (l, w) = (a.lid, v)
    · cases heq
      refine .hist (t.side s).deltas.length
        (a.record base delta (((t.side s).lastDelta a.lid).getD UNKNOWN))
        (by rw [hentry _ _ hl hs, if_pos ⟨rfl, rfl⟩]) ?_
        ⟨rfl, hst, hen⟩ hend
      rw [hdel]
      exact List.getElem?_concat_length
    · refine (h.placed l w hw).mono (hkeep l w hw heq) (fun i hh => .inl ⟨?_, hgarb ▸ hh.kept⟩)
        ⟨_, hdel⟩ (fun hq => (hK _ hq).resolve_right heq) fun u hu => ⟨u, hu, rfl⟩
      rw [hrec, hside]
      exact hh.shows.mono hp.2 fun hf => hf
  · have hcur : t.findCurrent l (t.archived a p base delta s) = t.findCurrent l s := by
      rw [Table.findCurrent, hside, Table.findCurrent]
    rw [hcur, h.current l i hl']
    refine exists_congr fun w => and_congr_right fun hw => and_congr_right fun hopen => ?_
    rw [hkeep l w hw]
    intro heq
    cases heq
    exact hend hopen
  · rw [hside] at hi
    change (if l = a.lid then _ else _) = _ at hi
    split at hi
    · cases hi
      refine .inr ⟨_, ?_, hlen, rfl⟩
      rw [hdel, List.length_append]
      exact Nat.lt_succ_self _
    · exact .inl hi
  · rcases checkpoints_archived (t := t) (a := a) (p := p) l k with hc | ⟨rfl, rfl⟩
    · exact h.checkpoints l k hl' (hc ▸ hk)
    · exact ⟨v, hv, hst.symm⟩
  · rw [hside]
    exact hp.1
  · rw [hrec]
    exact h.inserts i
  · rw [hrec]
    exact h.present i (hgarb ▸ hi)

end Archivals

/-! ## Garbage -/

/-- A slot that shows no version that is needed may be discarded. -/
theorem Table.Tracks.discard (h : t.Tracks T F K s) (hid : id ∉ t.discarded s)
    (hused : (t.record s id).used = true)
    (hloose : ∀ l v, v ∈ (T l).spans → t.Hot F s l v id → (l, v) ∈ K) :
    t.Tracks T F K { s with garbage := s.garbage ++ [⟨xid, id, t.gcType⟩] } := by
  have hgarb : t.discarded { s with garbage := s.garbage ++ [⟨xid, id, t.gcType⟩] } =
      t.discarded s ++ [id] := by
    simp [Table.discarded, List.filter_append]
  refine ⟨h.fits, h.only, fun l w hw => ?_, ?_, h.waiting, ?_, ?_, ?_, ?_, ?_, ?_⟩
  · refine (h.placed l w hw).mono rfl (fun i hh => ?_) ⟨[], by simp⟩ (fun hp => hp)
      fun u hu => ⟨u, hu, rfl⟩
    by_cases hi : i = id
    · exact .inr (hloose l w hw (hi ▸ hh))
    · refine .inl ⟨by simpa using hh.shows, ?_⟩
      rw [hgarb]
      simp [hi, hh.kept]
  · simpa [Table.findCurrent] using h.current
  · simpa using h.last
  · simpa using h.checkpoints
  · simpa using h.bounded
  · simpa using h.inserts
  · rw [hgarb]
    refine List.nodup_append.mpr ⟨h.distinct, by simp, ?_⟩
    rintro i hi j hj rfl
    exact hid (List.mem_singleton.mp hj ▸ hi)
  · intro i hi
    rw [hgarb] at hi
    rw [record_rest]
    rcases List.mem_append.mp hi with hi | hi
    · exact h.present i hi
    · exact List.mem_singleton.mp hi ▸ hused

/-- A discarded slot is freed. -/
theorem Table.Tracks.collect (h : t.Tracks T F K s) {gs : List GcItem} {l₁ l₂ : List Nat}
    (hid : t.discarded s = l₁ ++ id :: l₂)
    (hgs : t.discarded { t.free id s with garbage := gs } = l₁ ++ l₂) :
    t.Tracks T F K { t.free id s with garbage := gs } := by
  have hnd := h.distinct
  rw [hid] at hnd
  obtain ⟨hnot, hnd⟩ := List.nodup_cons.mp (List.perm_middle.nodup_iff.mp hnd)
  have hmem : ∀ i ∈ l₁ ++ l₂, i ∈ t.discarded s := by
    intro i hi
    rw [hid]
    rcases List.mem_append.mp hi with hi | hi
    · exact List.mem_append_left _ hi
    · exact List.mem_append_right _ (List.mem_cons_of_mem _ hi)
  have hrec : ∀ i, i ≠ id → t.record { t.free id s with garbage := gs } i = t.record s i := by
    intro i hi
    rw [record_rest, Table.free, record_setRecord, if_neg hi]
  have hside : t.side { t.free id s with garbage := gs } =
      { t.side s with vec := (t.side (t.free id s)).vec } := by
    simp [Table.free, Table.setRecord, Table.modifySide]
  have hix : (t.free id s).index = s.index := by
    simp [Table.free, Table.setRecord, Table.modifySide]
  refine ⟨h.fits, ?_, fun l w hw => ?_, ?_, h.waiting, ?_, ?_, ?_, fun i => ?_, hgs ▸ hnd,
    fun i hi => ?_⟩
  · rw [hix]
    exact h.only
  · refine (h.placed l w hw).mono (by rw [hix]) (fun i hh => .inl ?_) ⟨[], by simp [hside]⟩
      (fun hp => hp) fun u hu => ⟨u, hu, rfl⟩
    have hi : i ≠ id := fun heq => hh.kept (by rw [hid, heq]; simp)
    refine ⟨?_, ?_⟩
    · rw [hrec i hi, hside]
      exact hh.shows
    · rw [hgs]
      exact fun hm => hh.kept (hmem i hm)
  · rw [hix]
    simpa [Table.findCurrent, hside] using h.current
  · rw [hside]
    exact h.last
  · rw [hside]
    exact h.checkpoints
  · rw [hside]
    exact h.bounded
  · by_cases hi : i = id
    · subst hi
      rw [record_rest, Table.free, record_setRecord, if_pos rfl]
      exact h.inserts i
    · rw [hrec i hi]
      exact h.inserts i
  · rw [hgs] at hi
    rw [hrec i fun heq => hnot (heq ▸ hi)]
    exact h.present i (hmem i hi)

end Tables

end Poseidon.Temporal
