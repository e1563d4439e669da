import Poseidon.Proofs.Following

/-!
# Writes and archival tasks follow the history

The calls that add, update and close versions, in both tables, and the tasks
that archive what an update has superseded. In each case the call is taken
apart into the steps of `Following.lean`; what a relationship does to its
nodes is steady for the table of relationships.
-/

namespace Poseidon.Temporal

open Wp

section Tables

variable {ε δ γ : Type} {t : Table ε δ γ} [t.Laws] {T : Nat → Timeline Nat}
variable {s s' : GraphDb} {xid lid vt slot label id : Nat} {q : List Task}

/-- A new version, for a logical id and a time that fit. -/
theorem addVersion_follows {props : List PItem} {links : ε} (h : t.FollowsTo T (some xid) q s)
    (hl : lid < 2 ^ 31) :
    wp (t.addVersion xid ⟨slot, slot⟩ label props vt MAX_TIME lid links)
      (fun _ s' => t.Added xid slot lid vt s s') (fun _ _ => True) s := by
  have hne : lid ≠ UNKNOWN := Nat.ne_of_lt (Nat.lt_trans hl (by decide))
  exact wp_addVersion hne (h.tracks.current_used hl)

/-- A change of the current version that no reader sees. -/
theorem steady_modifyAt {n : Ref} {f : Obj (Versioned ε) → Obj (Versioned ε)}
    (hf : ∀ o, (f o).bts = o.bts ∧ (f o).cts = o.cts ∧ (f o).data.id = o.data.id ∧
      (f o).data.vtEnd = o.data.vtEnd) (hf' : ∀ o, (f o).data.logicalId = o.data.logicalId ∧
      (f o).data.vtStart = o.data.vtStart ∧ (f o).data.propertyList = o.data.propertyList) :
    t.Steady [] s (t.modifyAt n f s) := steady_of_vital (vital_modifyAt_eq hf hf')

/-- A logical id that leads to a slot already. -/
theorem steady_setCurrent (hc : t.findCurrent lid s = some id) :
    t.Steady [] s (t.setCurrent lid id s) := by
  have hside : t.side (t.setCurrent lid id s) = t.side s := by
    rw [Table.setCurrent, Table.modifySide, Table.Laws.side_setSide]
    have hf : (fun l => if l = lid then some id else (t.side s).logicalIndex l) =
        (t.side s).logicalIndex := by
      funext l
      split
      · next hl => rw [hl]; exact hc.symm
      · rfl
    rw [hf]
  refine .of_side hside (fun _ _ => ?_) ?_ ?_ fun y i hi => ?_
  · simp [Table.setCurrent, Table.modifySide]
  · simp [Table.discarded, Table.setCurrent, Table.modifySide]
  · simp [Table.queue, Table.setCurrent, Table.modifySide]
  · simpa [Table.setCurrent, Table.modifySide] using hi

omit [t.Laws] in
theorem read_ok {n : Ref} {o : Obj (Versioned ε)} (h : t.read n s = .ok o s') :
    (t.record s n.id).deref n.loc = some o ∧ s' = s := by
  have hwp : wp (t.read n) (fun o s' => (t.record s n.id).deref n.loc = some o ∧ s' = s)
      (fun _ _ => True) s := by
    rw [wp_read]
    cases hd : (t.record s n.id).deref n.loc with
    | some o => exact ⟨rfl, rfl⟩
    | none => trivial
  have hend := wp_ok hwp h
  exact hend

end Tables

section Nodes

variable {T : Nat → Timeline Nat} {s : GraphDb} {xid lid vt slot label id : Nat}
variable {props : List PItem} {q : List Task}

theorem addNode_added (h : nodeTable.FollowsTo T (some xid) q s) (hl : lid < 2 ^ 31) :
    wp (addNode xid ⟨slot, slot⟩ label props vt MAX_TIME lid)
      (fun _ s' => nodeTable.Added xid slot lid vt s s') (fun _ _ => True) s := by
  rw [addNode, wp_bind, wp_checkTxContext]
  split
  · exact addVersion_follows h hl
  · trivial

theorem addNode_follows (h : nodeTable.Follows T (some xid) s) (hl : lid < 2 ^ 31)
    (hv : vt < 2 ^ 32) (hb : (T lid).Before MAX_TIME vt) :
    wp (addNode xid ⟨slot, slot⟩ label props vt MAX_TIME lid)
      (fun _ s' => nodeTable.Follows (extendAt T lid vt hb) (some xid) s') (fun _ _ => True) s := by
  refine wp_mono (addNode_added h hl) (fun _ s' ha => ?_) fun _ _ _ => trivial
  have h' := h.added ha hl hv hb
  rwa [← ha.queue] at h'

theorem updateNode_follows (h : nodeTable.Follows T (some xid) s)
    (hc : nodeTable.findCurrent lid s = some id) (hl : lid < 2 ^ 31) (hv : vt < 2 ^ 32)
    (hb : (T lid).Before MAX_TIME vt) :
    wp (updateNodeCreateVersion xid id ⟨slot, slot⟩ props vt)
      (fun _ s' => nodeTable.Follows (extendAt T lid vt hb) (some xid) s') (fun _ _ => True) s := by
  obtain ⟨v, hvm, hopen, -, hhot⟩ := h.tracks.hot_of_current hl hc
  rw [updateNodeCreateVersion, wp_bind, wp_checkTxContext]
  split
  swap
  · trivial
  -- the version that is updated
  refine wp_seq_any (steady_byId xid id) ?_
  rintro old s₁ ⟨rfl, hs₁⟩
  have hhot₁ := hhot.steady h.tracks.bounded hs₁ hs₁.fresh
  refine wp_seq_any hhot₁.read ?_
  rintro o s₁ ⟨rfl, hlid, hst, hpid⟩
  dsimp only
  rw [hlid, wp_modify_bind, wp_get_bind]
  have hs₂ : nodeTable.Steady [] s₁ (nodeTable.addDirty xid old.id s₁) := Table.DirtyBy.dirty ..
  have h₂ := (Table.Working.mk (t := nodeTable) (h.steady hs₁) hvm hhot₁ hpid).steady hs₂
  refine wp_seq_any (P := fun _ s' => s' = _) (E := fun _ _ => True)
    (wp_ofExcept_ok (fun _ _ => rfl) fun _ => trivial) ?_
  rintro items s₂ rfl
  -- the new version
  refine wp_seq_any (addNode_added h₂.follows hl) ?_
  rintro _ s₃ ha
  have h₃ := h₂.added hopen ha hl hv hb
  have hcur : nodeTable.findCurrent lid s₃ = some slot := (ha.current lid).trans (if_pos rfl)
  refine wp_seq_any (steady_byId xid slot) ?_
  rintro new s₄ ⟨-, hs₄⟩
  have h₄ := h₃.steady hs₄
  refine wp_seq_any h₄.hot.read ?_
  rintro o' s₄ ⟨rfl, -⟩
  rw [wp_modify_bind, wp_modify_bind]
  have hs₅ : nodeTable.Steady [] s₄ (nodeTable.modifyAt new (fun o₁ => { o₁ with data :=
      { o₁.data with
        updateCount := (o'.data.updateCount + 1) % 2 ^ 16, links := o.data.links } }) s₄) :=
    steady_modifyAt (fun _ => ⟨rfl, rfl, rfl, rfl⟩) fun _ => ⟨rfl, rfl, rfl⟩
  have h₅ := h₄.steady hs₅
  -- the end of the old one
  generalize hk : Task.node ⟨xid, lid, o.data.label, o.data.vtStart, o.data.propertyList,
    o.data.links, props, vt, some slot⟩ = k
  have hkr : k.isRel = nodeTable.isRel := by rw [← hk]; rfl
  have hkv : k.lid = lid ∧ k.span = ⟨v.start, vt⟩ := by
    rw [← hk, ← hst]
    exact ⟨rfl, rfl⟩
  have h₆ := h₅.submit hkr (by rw [← hk]; rfl)
  refine wp_seq_any (h₆.follows.supersede h₆.mem (Nat.ne_of_lt hb.finite) h₆.hot hkv) ?_
  rintro _ s₇ ⟨h₇, hq₇, hc₇⟩
  have hcur₇ : nodeTable.findCurrent lid s₇ = some slot := by
    rw [hc₇, ← hcur, ← hs₄.findCurrent lid, ← hs₅.findCurrent lid]
    rfl
  have hs₈ := steady_setCurrent hcur₇
  refine (h₇.steady hs₈).done ?_
  rw [hs₈.queue, hq₇, queue_submit hkr, hs₅.queue, hs₄.queue, ha.queue, hs₂.queue]

theorem closeNode_follows (h : nodeTable.Follows T (some xid) s)
    (hc : nodeTable.findCurrent lid s = some id) (hl : lid < 2 ^ 31)
    (hb : (T lid).Before MAX_TIME vt) :
    wp (closeNodeAtVt xid id vt)
      (fun _ s' => nodeTable.Follows (closeAt T lid vt hb) (some xid) s') (fun _ _ => True) s := by
  rw [closeNodeAtVt, wp_bind, wp_checkTxContext]
  split
  swap
  · trivial
  refine wp_seq_any (steady_byId xid id) ?_
  rintro n s₁ ⟨rfl, hs₁⟩
  rw [wp_modify_bind, wp_modify_bind, wp_bind]
  have hs₂ : nodeTable.Steady [] s₁ (nodeTable.addDirty xid n.id s₁) := Table.DirtyBy.dirty ..
  have h₂ := (h.steady hs₁).steady hs₂
  have hc₂ : nodeTable.findCurrent lid (nodeTable.addDirty xid n.id s₁) = some n.id := by
    rw [hs₂.findCurrent, hs₁.findCurrent, hc]
  refine wp_mono (wp_self _ _) (fun o s₃ hr => ?_) fun _ _ _ => trivial
  obtain ⟨ho, rfl⟩ := read_ok hr
  refine wp_seq_any (wp_self _ _) fun i s₄ hx => ?_
  obtain ⟨h₄, hq₄⟩ := h₂.closed hl hc₂ hb rfl ho ⟨rfl, rfl, rfl⟩ hx
  exact h₄.done hq₄

end Nodes

section Rships

variable {T : Nat → Timeline Nat} {s s' : GraphDb} {xid lid vt slot fromId toId label id : Nat}
variable {props : List PItem} {q : List Task}

/-- Relationships are linked to their nodes before and after the insertion. -/
theorem addRelationship_added (h : rshipTable.FollowsTo T (some xid) q s) (hl : lid < 2 ^ 31) :
    wp (addRelationship xid ⟨slot, slot⟩ fromId toId label props vt MAX_TIME lid)
      (fun _ s' => ∃ s₁ s₂, rshipTable.Steady [] s s₁ ∧ rshipTable.Added xid slot lid vt s₁ s₂ ∧
        rshipTable.Steady [] s₂ s') (fun _ _ => True) s := by
  rw [addRelationship, wp_bind, wp_checkTxContext]
  split
  swap
  · trivial
  refine wp_seq_any ((keeps_byId (R := rshipTable.Steady [])
    (t := nodeTable) xid fromId).always s) ?_
  intro fromNode s₁ hs₁
  refine wp_seq_any ((keeps_byId (R := rshipTable.Steady [])
    (t := nodeTable) xid toId).always s₁) ?_
  intro toNode s₂ hs₂
  refine wp_seq_any (addVersion_follows (h.steady (hs₁.trans hs₂)) hl) ?_
  intro _ s₃ ha
  rw [wp_get_bind]
  refine wp_seq_any ((keeps_updateFromNode (R := rshipTable.Steady []) xid fromNode _).always s₃) ?_
  intro _ s₄ hs₄
  refine wp_mono ((keeps_updateToNode (R := rshipTable.Steady []) xid toNode _).always s₄) ?_
    fun _ _ _ => trivial
  intro _ s₅ hs₅
  exact ⟨s₂, s₃, hs₁.trans hs₂, ha, hs₄.trans hs₅⟩

theorem addRship_follows (h : rshipTable.Follows T (some xid) s) (hl : lid < 2 ^ 31)
    (hv : vt < 2 ^ 32) (hb : (T lid).Before MAX_TIME vt) :
    wp (addRelationship xid ⟨slot, slot⟩ fromId toId label props vt MAX_TIME lid)
      (fun _ s' => rshipTable.Follows (extendAt T lid vt hb) (some xid) s')
      (fun _ _ => True) s := by
  refine wp_mono (addRelationship_added h hl) ?_ fun _ _ _ => trivial
  rintro _ s' ⟨s₁, s₂, hs₁, ha, hs₂⟩
  refine (((Table.FollowsTo.steady h hs₁).added ha hl hv hb).steady hs₂).done ?_
  rw [hs₂.queue, ha.queue, hs₁.queue]

theorem updateRship_follows (h : rshipTable.Follows T (some xid) s)
    (hc : rshipTable.findCurrent lid s = some id) (hl : lid < 2 ^ 31) (hv : vt < 2 ^ 32)
    (hb : (T lid).Before MAX_TIME vt) :
    wp (updateRelationshipCreateVersion xid id ⟨slot, slot⟩ props vt)
      (fun _ s' => rshipTable.Follows (extendAt T lid vt hb) (some xid) s')
      (fun _ _ => True) s := by
  obtain ⟨v, hvm, hopen, -, hhot⟩ := h.tracks.hot_of_current hl hc
  rw [updateRelationshipCreateVersion, wp_bind, wp_checkTxContext]
  split
  swap
  · trivial
  -- the version that is updated
  refine wp_seq_any (steady_byId xid id) ?_
  rintro old s₁ ⟨rfl, hs₁⟩
  have hhot₁ := hhot.steady h.tracks.bounded hs₁ hs₁.fresh
  refine wp_seq_any hhot₁.read ?_
  rintro o s₁ ⟨rfl, hlid, hst, hpid⟩
  dsimp only
  rw [hlid, wp_modify_bind]
  have hs₂ : rshipTable.Steady [] s₁ (rshipTable.addDirty xid old.id s₁) := Table.DirtyBy.dirty ..
  have h₂ := (Table.Working.mk (t := rshipTable) (h.steady hs₁) hvm hhot₁ hpid).steady hs₂
  refine wp_seq_any wp_logicalIdOf ?_
  rintro srcLid s₂ rfl
  refine wp_seq_any wp_logicalIdOf ?_
  rintro destLid s₂ rfl
  generalize hk : Task.rship ⟨xid, lid, o.data.label, o.data.vtStart, o.data.propertyList,
    ⟨srcLid, destLid, UNKNOWN, UNKNOWN⟩, props, vt, none⟩ = k
  have hkr : k.isRel = rshipTable.isRel := by rw [← hk]; rfl
  have hkv : k.lid = lid ∧ k.span = ⟨v.start, vt⟩ := by
    rw [← hk, ← hst]
    exact ⟨rfl, rfl⟩
  rw [wp_modify_bind]
  have h₃ := h₂.submit hkr (by rw [← hk]; rfl)
  have hq₃ : rshipTable.queue _ = _ := queue_submit (s := rshipTable.addDirty xid old.id s₁) hkr
  generalize ({ rshipTable.addDirty xid old.id s₁ with
    tasks := (rshipTable.addDirty xid old.id s₁).tasks ++ [k] } : GraphDb) = s₃ at *
  refine wp_seq_any ((keeps_currentNodeOrZero (R := rshipTable.Steady []) srcLid).always _) ?_
  intro src s₄ hs₄
  refine wp_seq_any ((keeps_currentNodeOrZero (R := rshipTable.Steady []) destLid).always _) ?_
  intro dest s₅ hs₅
  have h₅ := (h₃.steady hs₄).steady hs₅
  rw [wp_get_bind]
  refine wp_seq_any (P := fun _ s' => s' = _) (E := fun _ _ => True)
    (wp_ofExcept_ok (fun _ _ => rfl) fun _ => trivial) ?_
  rintro items s₅ rfl
  -- the new version
  refine wp_seq_any (addRelationship_added h₅.follows hl) ?_
  rintro _ s₈ ⟨s₆, s₇, hs₆, ha, hs₈⟩
  have h₈ := ((h₅.steady hs₆).added hopen ha hl hv hb).steady hs₈
  refine wp_seq_any (steady_byId xid slot) ?_
  rintro new s₉ ⟨-, hs₉⟩
  have h₉ := h₈.steady hs₉
  refine wp_seq_any h₉.hot.read ?_
  rintro o' s₉ ⟨rfl, -⟩
  rw [wp_modify_bind, wp_modify_bind]
  have hs₁₀ : rshipTable.Steady [] s₉ (rshipTable.modifyAt new (fun o₁ => { o₁ with data :=
      { o₁.data with updateCount := (o'.data.updateCount + 1) % 2 ^ 16 } }) s₉) :=
    steady_modifyAt (fun _ => ⟨rfl, rfl, rfl, rfl⟩) fun _ => ⟨rfl, rfl, rfl⟩
  have hcur : rshipTable.findCurrent lid (rshipTable.modifyAt new (fun o₁ => { o₁ with data :=
      { o₁.data with updateCount := (o'.data.updateCount + 1) % 2 ^ 16 } }) s₉) = some slot := by
    rw [hs₁₀.findCurrent, hs₉.findCurrent, hs₈.findCurrent, ha.current, if_pos rfl]
  have hs₁₁ := steady_setCurrent hcur
  have h₁₁ := (h₉.steady hs₁₀).steady hs₁₁
  -- the end of the old one
  refine wp_mono (h₁₁.follows.supersede h₁₁.mem (Nat.ne_of_lt hb.finite) h₁₁.hot hkv) ?_
    fun _ _ _ => trivial
  rintro _ s₁₂ ⟨h₁₂, hq₁₂, -⟩
  refine h₁₂.done ?_
  rw [hq₁₂, hs₁₁.queue, hs₁₀.queue, hs₉.queue, hs₈.queue, ha.queue, hs₆.queue, hs₅.queue,
    hs₄.queue, hq₃, hs₂.queue]

theorem closeRship_follows (h : rshipTable.Follows T (some xid) s)
    (hc : rshipTable.findCurrent lid s = some id) (hl : lid < 2 ^ 31)
    (hb : (T lid).Before MAX_TIME vt) :
    wp (closeRelationshipAtVt xid id vt)
      (fun _ s' => rshipTable.Follows (closeAt T lid vt hb) (some xid) s') (fun _ _ => True) s := by
  rw [closeRelationshipAtVt, wp_bind, wp_checkTxContext]
  split
  swap
  · trivial
  refine wp_seq_any (steady_byId xid id) ?_
  rintro n s₁ ⟨rfl, hs₁⟩
  rw [wp_modify_bind, wp_modify_bind, wp_bind]
  have hs₂ : rshipTable.Steady [] s₁ (rshipTable.addDirty xid n.id s₁) := Table.DirtyBy.dirty ..
  have h₂ := (h.steady hs₁).steady hs₂
  have hc₂ : rshipTable.findCurrent lid (rshipTable.addDirty xid n.id s₁) = some n.id := by
    rw [hs₂.findCurrent, hs₁.findCurrent, hc]
  refine wp_mono (wp_self _ _) (fun o s₃ hr => ?_) fun _ _ _ => trivial
  obtain ⟨ho, rfl⟩ := read_ok hr
  refine wp_seq_any wp_logicalIdOf ?_
  rintro srcLid s₃ rfl
  refine wp_seq_any wp_logicalIdOf ?_
  rintro destLid s₃ rfl
  refine wp_seq_any (wp_self _ _) fun i s₄ hx => ?_
  obtain ⟨h₄, hq₄⟩ := h₂.closed hl hc₂ hb rfl ho ⟨rfl, rfl, rfl⟩ hx
  exact h₄.done hq₄

end Rships

/-! ## Tasks -/

section Tasks

variable {ε δ γ : Type} {t : Table ε δ γ} [t.Laws] {T : Nat → Timeline Nat}
variable {s s' : GraphDb} {x : Option Nat} {q q' : List Task} {v : Span Nat}

/-- An archival of a version in the queue. -/
theorem Table.FollowsTo.archived (h : t.FollowsTo T x q s) {a : ArchiveArgs δ γ} {i : Nat}
    (hx : t.archiveWith a s = .ok i s') (hv : (a.lid, v) ∈ waiting q)
    (ha : a.vtStart = v.start ∧ a.newVtStart = v.stop)
    (hq : ∀ p ∈ waiting q, p ∈ waiting q' ∨ p = (a.lid, v))
    (hq' : ∀ p ∈ waiting q', p ∈ waiting q) :
    t.FollowsTo T x q' s' ∧ t.queue s' = t.queue s := by
  obtain ⟨items, base, delta, hlen, -, rfl⟩ := archiveWith_ok hx
  obtain ⟨hbd, hgr, -⟩ := PropertyList.addPitems_grows h.tracks.bounded a.owner items
  obtain ⟨hvm, hend⟩ := h.tracks.waiting _ hv
  have harch := h.tracks.archived base delta hvm hend ha.1 ha.2 hlen
    ⟨hbd, hgr⟩ hq hq'
  obtain ⟨-, htx, hts, -⟩ := lists_archived t a ((t.side s).props.addPitems a.owner items).2 base
    delta s
  obtain ⟨cp, hside⟩ := side_archived t a ((t.side s).props.addPitems a.owner items).2 base delta s
  have hqueue : t.queue (t.archived a ((t.side s).props.addPitems a.owner items).2 base delta s) =
      t.queue s := by
    rw [Table.queue, hts, Table.queue]
  refine ⟨⟨?_, fun k hk => ?_⟩, hqueue⟩
  · have hfresh : t.fresh x (t.archived a ((t.side s).props.addPitems a.owner items).2 base delta
        s) = t.fresh x s := by
      cases x with
      | some x => rw [Table.fresh, htx, Table.fresh]
      | none => rfl
    rw [hfresh]
    exact harch
  · rw [hqueue] at hk
    rw [hside]
    exact (h.readable k hk).grows hgr

omit [t.Laws] in
/-- What a task reads is there. -/
theorem Table.FollowsTo.not_unreadable (h : t.FollowsTo T x q s) {a : ArchiveArgs δ γ} {pid : Nat}
    (hp : (t.side s).props.Readable pid)
    (ha : a.baseItems = fun p => p.buildDirtyPropertyList pid) : ¬ t.Unreadable a s := by
  rintro (⟨e, he⟩ | ⟨i, e, hi, he⟩)
  · obtain ⟨items, hitems⟩ := hp.buildDirtyPropertyList
    rw [ha] at he
    cases hitems.symm.trans he
  · obtain ⟨n, hn, hlt, rfl⟩ := h.tracks.last _ _ hi
    have hdec : decodeHistoryId (encodeHistoryId n) = n := by
      rw [decodeHistoryId, encodeHistoryId]
      omega
    rw [Side.getDelta, hdec, List.getElem?_eq_getElem hn] at he
    cases he

/-- A task is taken out of the queue. -/
theorem Table.Follows.take (h : t.Follows T x s) {i : Nat} {k : Task} (hi : s.tasks[i]? = some k) :
    t.FollowsTo T x (t.queue s) { s with tasks := s.tasks.eraseIdx i } ∧
      (t.queue s).Perm ([k].filter (fun k => k.isRel = t.isRel) ++
        t.queue { s with tasks := s.tasks.eraseIdx i }) := by
  obtain ⟨hlt, hk⟩ := List.getElem?_eq_some_iff.mp hi
  have hperm : (t.queue s).Perm ([k].filter (fun k => k.isRel = t.isRel) ++
      t.queue { s with tasks := s.tasks.eraseIdx i }) := by
    have hp := (List.getElem_cons_eraseIdx_perm hlt).symm.filter fun k => k.isRel = t.isRel
    rw [hk] at hp
    rwa [← List.singleton_append, List.filter_append] at hp
  refine ⟨⟨?_, fun k' hk' => ?_⟩, hperm⟩
  · refine Table.Tracks.of_parts h.tracks (by simp) rfl rfl ?_ fun _ => Iff.rfl
    cases x with
    | some x => exact fun _ h => h
    | none => exact fun _ h => h
  · rw [Table.Laws.side_rest]
    exact h.readable k' (hperm.mem_iff.mpr (List.mem_append_right _ hk'))

omit [t.Laws] in
/-- The waiting versions without the one of a task that was taken. -/
theorem waiting_take {k : Task} (hk : k.isRel = t.isRel)
    (hperm : (t.queue s).Perm ([k].filter (fun k => k.isRel = t.isRel) ++ q)) :
    (k.lid, k.span) ∈ waiting (t.queue s) ∧
      (∀ p ∈ waiting (t.queue s), p ∈ waiting q ∨ p = (k.lid, k.span)) ∧
      ∀ p ∈ waiting q, p ∈ waiting (t.queue s) := by
  have hp : (waiting (t.queue s)).Perm ((k.lid, k.span) :: waiting q) := by
    have := hperm.map fun k => (k.lid, k.span)
    simpa [hk, waiting] using this
  refine ⟨hp.mem_iff.mpr (List.mem_cons_self ..), fun p h => ?_, fun p h =>
    hp.mem_iff.mpr (List.mem_cons_of_mem _ h)⟩
  exact (List.mem_cons.mp (hp.mem_iff.mp h)).symm

omit [t.Laws] in
/-- An exception of a task is passed over. -/
theorem wp_runTask {k : Task} {P : GraphDb → Prop}
    (h : wp k.run (fun _ s' => P s') (fun e s' => e = .slotInUse ∨ P s') s) :
    wp (runTask k) (fun _ s' => P s') (fun _ _ => True) s := by
  simp only [wp, runTask] at h ⊢
  cases hs : k.run s with
  | ok _ s' => simpa only [hs] using h
  | error e s' =>
      simp only [hs] at h
      cases e with
      | slotInUse => trivial
      | _ => exact h.resolve_left (by simp)

/-- The queue after a task has been taken is the one that is left. -/
theorem Table.FollowsTo.worked (h : t.Follows T x s) {i : Nat} {k : Task}
    (hi : s.tasks[i]? = some k) (hk : k.isRel = t.isRel)
    (hrun : ∀ {s₁ q}, t.FollowsTo T x q s₁ → (k.lid, k.span) ∈ waiting q →
      (t.side s₁).props.Readable k.pid → ∀ {q'},
      (∀ p ∈ waiting q, p ∈ waiting q' ∨ p = (k.lid, k.span)) →
      (∀ p ∈ waiting q', p ∈ waiting q) →
      wp k.run (fun _ s' => t.FollowsTo T x q' s' ∧ t.queue s' = t.queue s₁)
        (fun e s' => e = .slotInUse ∨ t.FollowsTo T x q' s' ∧ t.queue s' = t.queue s₁) s₁) :
    wp (work i) (fun _ s' => t.Follows T x s') (fun _ _ => True) s := by
  obtain ⟨h₁, hperm⟩ := Table.Follows.take h hi
  obtain ⟨hmem, hq, hq'⟩ := waiting_take hk hperm
  have hpid : (t.side { s with tasks := s.tasks.eraseIdx i }).props.Readable k.pid := by
    rw [Table.Laws.side_rest]
    refine h.readable k (hperm.mem_iff.mpr (List.mem_append_left _ ?_))
    simp [hk]
  rw [work, wp_get_bind, hi]
  change wp (modify _ >>= fun _ => runTask k) _ _ _
  rw [wp_modify_bind]
  refine wp_mono (wp_runTask (hrun h₁ hmem hpid hq hq')) ?_ fun _ _ h => h
  rintro _ s' ⟨hs', hqs⟩
  exact hs'.done hqs

/-- A task for the other table is steady. -/
theorem Table.FollowsTo.idled (h : t.Follows T x s) {i : Nat} {k : Task}
    (hi : s.tasks[i]? = some k) (hk : k.isRel ≠ t.isRel) (hrun : Keeps (t.Steady []) k.run) :
    wp (work i) (fun _ s' => t.Follows T x s') (fun _ _ => True) s := by
  obtain ⟨h₁, hperm⟩ := Table.Follows.take h hi
  have hnil : [k].filter (fun k => k.isRel = t.isRel) = [] := by simp [hk]
  rw [hnil, List.nil_append] at hperm
  have h₁ : t.Follows T x { s with tasks := s.tasks.eraseIdx i } :=
    ⟨h₁.tracks.of_parts rfl rfl rfl (fun _ h => h) fun p => (hperm.map _).mem_iff.symm, h₁.readable⟩
  rw [work, wp_get_bind, hi]
  change wp (modify _ >>= fun _ => runTask k) _ _ _
  rw [wp_modify_bind]
  refine wp_mono ((keeps_runTask hrun).always _) (fun _ s' hs => ?_) fun _ _ _ => trivial
  exact h₁.steady hs

/-- The archival of a task, which cannot fail but for want of memory. -/
theorem Table.FollowsTo.archiveRaw (h : t.FollowsTo T x q s) {a : ArchiveArgs δ γ} {pid : Nat}
    {β : Type} {f : Nat → DbM β} (hv : (a.lid, v) ∈ waiting q)
    (ha : a.vtStart = v.start ∧ a.newVtStart = v.stop) (hp : (t.side s).props.Readable pid)
    (hbase : a.baseItems = fun p => p.buildDirtyPropertyList pid)
    (hq : ∀ p ∈ waiting q, p ∈ waiting q' ∨ p = (a.lid, v)) (hq' : ∀ p ∈ waiting q', p ∈ waiting q)
    (hf : ∀ i s₁, t.FollowsTo T x q' s₁ ∧ t.queue s₁ = t.queue s →
      always (f i) (fun s' => t.FollowsTo T x q' s' ∧ t.queue s' = t.queue s) s₁) :
    wp (t.archiveWith a >>= f) (fun _ s' => t.FollowsTo T x q' s' ∧ t.queue s' = t.queue s)
      (fun e s' => e = .slotInUse ∨ t.FollowsTo T x q' s' ∧ t.queue s' = t.queue s) s := by
  rw [wp_bind]
  refine wp_mono (wp_and (wp_self _ _) wp_archiveWith) ?_ ?_
  · rintro i s₁ ⟨hx, -⟩
    exact wp_mono (hf i s₁ (h.archived hx hv ha hq hq')) (fun _ _ h => h) fun _ _ h => .inr h
  · rintro e s₁ ⟨-, -, he | he⟩
    · exact .inl he
    · exact absurd he (h.not_unreadable hp hbase)

end Tasks

section Work

variable {T : Nat → Timeline Nat} {s : GraphDb} {x : Option Nat}

theorem workNode_follows (h : nodeTable.Follows T x s) (i : Nat) :
    wp (work i) (fun _ s' => nodeTable.Follows T x s') (fun _ _ => True) s := by
  cases hi : s.tasks[i]? with
  | none =>
      rw [work, wp_get_bind, hi]
      exact h
  | some k =>
      cases k with
      | rship a => exact Table.FollowsTo.idled h hi nofun (keeps_runRship a)
      | node a =>
          refine Table.FollowsTo.worked h hi rfl fun {s₁ q} h₁ hmem hpid {q'} hq hq' => ?_
          refine h₁.archiveRaw (v := ⟨a.vtStart, a.newVtStart⟩) hmem ⟨rfl, rfl⟩ hpid rfl hq hq' ?_
          intro i s₂ h₂
          -- the record of the new version is told of its predecessor
          have hlink : ∀ id, Keeps (nodeTable.Steady []) (do
              let _ ← nodeTable.getRecord id
              modify (nodeTable.modifyData id fun d => { d with prevVersion := i })) := by
            intro id
            refine keeps_getRecord_bind fun _ => keeps_modify fun s => steady_of_vital rfl
          have hstep : ∀ {s'}, nodeTable.Steady [] s₂ s' →
              nodeTable.FollowsTo T x q' s' ∧ nodeTable.queue s' = nodeTable.queue s₁ :=
            fun hs => ⟨h₂.1.steady hs, hs.queue.trans h₂.2⟩
          split
          · exact always_mono ((hlink _).always s₂) fun _ hs => hstep hs
          · exact h₂

theorem workRship_follows (h : rshipTable.Follows T x s) (i : Nat) :
    wp (work i) (fun _ s' => rshipTable.Follows T x s') (fun _ _ => True) s := by
  cases hi : s.tasks[i]? with
  | none =>
      rw [work, wp_get_bind, hi]
      exact h
  | some k =>
      cases k with
      | node a => exact Table.FollowsTo.idled h hi nofun (keeps_runNode a)
      | rship a =>
          refine Table.FollowsTo.worked h hi rfl fun {s₁ q} h₁ hmem hpid {q'} hq hq' => ?_
          exact h₁.archiveRaw (v := ⟨a.vtStart, a.newVtStart⟩) hmem ⟨rfl, rfl⟩ hpid rfl hq hq'
            fun _ _ h₂ => h₂

end Work

end Poseidon.Temporal
