import Poseidon.Proofs.Committing
import Poseidon.Vec.MemChunkedVec

/-!
# Reads by valid time give the committed history

Between two transactions, when all archival tasks are done, every version of
the history is hot or archived, and a read by valid time finds the one that
is valid: the current version, or the one that began last before the time.
The entry of the latter is what the search in the index ends at, wherever it
starts, since a checkpoint is at the start of a version.
-/

namespace Poseidon.Temporal

open Wp

section Reads

variable {ε δ γ : Type} {t : Table ε δ γ} {T : Nat → Timeline Nat} {s : GraphDb}
variable {lid vt hint id : Nat} {v : Span Nat}

/-- What a read finds is the version, or nothing. -/
def Table.Says (t : Table ε δ γ) (s : GraphDb) (lid : Nat) (found : Except Err Nat) :
    Option (Span Nat) → Prop
  | some v => ∃ id, found = .ok id ∧ t.versionOf s id = .ok (lid, v.start)
  | none => found = .error .unknownId

/-- A hot version that is found. -/
theorem Table.Hot.versionOf {F : List Nat} (h : t.Hot F s lid v id) (hid : id < 2 ^ 56) :
    t.versionOf s id = .ok (lid, v.start) := by
  have hlow : isHistoryId id = false := by
    have hdiv : id / 2 ^ 63 = 0 := Nat.div_eq_of_lt (Nat.lt_trans hid (by decide))
    rw [isHistoryId, hdiv]
    rfl
  rw [Table.versionOf, hlow]
  exact congrArg Except.ok (Prod.ext h.shows.logical h.shows.starts)

/-- An archived version that is found. -/
theorem versionOf_hist {raw : Nat} {d : HistoryDelta δ} (hd : (t.side s).deltas[raw]? = some d)
    (hr : raw < 2 ^ 56) : t.versionOf s (encodeHistoryId raw) = .ok (d.lid, d.vtStart) := by
  have hmod : raw % 2 ^ 63 = raw := Nat.mod_eq_of_lt (Nat.lt_trans hr (by decide))
  have hhigh : isHistoryId (encodeHistoryId raw) = true := by
    simp only [isHistoryId, encodeHistoryId, beq_iff_eq]
    omega
  have hdec : decodeHistoryId (encodeHistoryId raw) = raw := by
    simp only [decodeHistoryId, encodeHistoryId]
    omega
  rw [Table.versionOf, hhigh, if_pos rfl, Side.getDelta, hdec, hd]
  rfl

/-- The payload of an entry fits. -/
theorem payload_lt {ix : OrdMap Nat Nat} {isRel : Bool} {ty payload : Nat}
    (h : entryAt ix lid vt isRel = some (ty, payload)) : payload < 2 ^ 56 := by
  obtain ⟨w, -, heq⟩ := Option.map_eq_some_iff.mp h
  have hp : tiDecodePayload w = payload := congrArg Prod.snd heq
  rw [← hp]
  exact Nat.mod_lt _ (by decide)

theorem Table.Hot.used {F : List Nat} (h : t.Hot F s lid v id) :
    (t.record s id).used = true := h.shows.used

/-- A hot version is valid at a time if it is the committed one. -/
theorem Table.Hot.hotAt (h : t.Hot [] s lid v id) :
    hotAt (t.record s id).obj vt = true ↔
      v.start ≤ vt ∧ vt < (t.record s id).obj.data.vtEnd := by
  have hb : (t.record s id).obj.bts ≠ 0 := by
    rcases h.shows.settled with ⟨hb, -⟩ | ⟨hf, -⟩
    · exact hb
    · cases hf
  have hst : (t.record s id).obj.data.vtStart = v.start := h.shows.starts
  rw [hotAt_iff, hst]
  exact ⟨fun h => h.2, fun h => ⟨hb, h⟩⟩

/-- The search ends at the version that began last. -/
theorem Table.Tracks.lookup (h : t.Tracks T [] [] s) (hl : lid < 2 ^ 31) (hvt : vt < 2 ^ 32)
    (hv : v ∈ (T lid).spans) (hlo : v.start ≤ vt)
    (hmax : ∀ w ∈ (T lid).spans, w.start ≤ vt → w.start ≤ v.start) (hh : hint ≤ v.start) :
    lookupAsOf s.index lid vt hint t.isRel = entryAt s.index lid v.start t.isRel := by
  have hne : ∃ x, entryAt s.index lid v.start t.isRel = some x := by
    cases h.placed lid v hv with
    | hot id he _ _ => exact ⟨_, he⟩
    | hist raw d he _ _ _ => exact ⟨_, he⟩
    | pending hp => cases hp
  obtain ⟨x, hx⟩ := hne
  rw [hx, lookupAsOf_eq_some hl hvt (by omega)]
  refine ⟨v.start, hh, hlo, hx, fun st hlt hle => ?_⟩
  by_contra hsome
  obtain ⟨w, hw, rfl⟩ := h.only lid st hl (by omega) hsome
  exact absurd (hmax w hw hle) (by omega)

/-- The search in the index, from the start of a version on. -/
theorem Table.Tracks.locateIndexed (h : t.Tracks T [] [] s) (hl : lid < 2 ^ 31)
    (hvt : vt < 2 ^ 32)
    (hh : hint = 0 ∨ hint ≤ vt ∧ ∃ v ∈ (T lid).spans, v.start = hint) :
    t.Says s lid (t.locateIndexed s lid vt hint) ((T lid).find vt) := by
  rcases (T lid).exists_latest vt with hno | ⟨v, hv, hlo, hmax⟩
  · -- nothing has begun
    have hf : (T lid).find vt = none := by
      refine Timeline.find_eq_none.mpr fun v hv hle => absurd (hno v hv) ?_
      omega
    have hnone : lookupAsOf s.index lid vt hint t.isRel = none := by
      refine (lookupAsOf_eq_none hl hvt (by omega)).mpr fun st _ hle => ?_
      by_contra hsome
      obtain ⟨w, hw, rfl⟩ := h.only lid st hl (by omega) hsome
      exact absurd (hno w hw) (by omega)
    rw [hf, Table.Says, Table.locateIndexed, hnone]
  · have hhint : hint ≤ v.start := by
      rcases hh with rfl | ⟨hle, w, hw, rfl⟩
      · exact Nat.zero_le _
      · exact hmax w hw hle
    rw [Timeline.find_latest hv hlo hmax, Table.locateIndexed,
      h.lookup hl hvt hv hlo hmax hhint]
    cases h.placed lid v hv with
    | pending hp => cases hp
    | hot id he hh hend =>
        rw [he]
        dsimp only
        rw [if_pos rfl, if_pos hh.used]
        have hstop : vt < v.stop := by
          rcases hend with hopen | ⟨w, hw, hs⟩
          · rw [hopen]
            exact Nat.lt_trans hvt (by decide)
          · -- a successor that has begun would be later
            have hp := (T lid).proper v hv
            by_contra hge
            have hle := hmax w hw (by omega)
            omega
        have hends : v.stop ≤ (t.record s id).obj.data.vtEnd := hh.shows.ends
        rw [if_pos hstop, if_pos (hh.hotAt.mpr ⟨hlo, by omega⟩)]
        exact ⟨id, rfl, hh.versionOf (payload_lt he)⟩
    | hist raw d he hd hd' hend =>
        obtain ⟨hdl, hds, hde⟩ := hd'
        have hr := payload_lt he
        have hdec : decodeHistoryId raw = raw := Nat.mod_eq_of_lt (Nat.lt_trans hr (by decide))
        have hget : (t.side s).getDelta raw = .ok d := by rw [Side.getDelta, hdec, hd]
        rw [he]
        dsimp only
        rw [if_neg (by decide), if_pos rfl, Table.locateHist, hget]
        dsimp only
        rw [hds, hde]
        by_cases hlt : vt < v.stop
        · rw [if_pos hlt, if_pos ⟨hlo, hlt⟩]
          refine ⟨_, rfl, ?_⟩
          rw [versionOf_hist hd hr, hdl, hds]
        · rw [if_neg hlt, if_neg fun hn => hlt hn.2]
          rfl

/-- A checkpoint is at the start of a version. -/
theorem Table.Tracks.checkpointHint (h : t.Tracks T [] [] s) (hl : lid < 2 ^ 31) :
    (t.side s).checkpointHint lid vt = 0 ∨ (t.side s).checkpointHint lid vt ≤ vt ∧
      ∃ v ∈ (T lid).spans, v.start = (t.side s).checkpointHint lid vt := by
  rw [Side.checkpointHint]
  split
  · next k c hf =>
    obtain ⟨hmem, hp, -⟩ := OrdMap.last_eq.mp hf
    have hle : k ≤ vt := by simpa using hp
    have hat := OrdMap.lookup_eq_some.mpr hmem
    exact .inr ⟨hle, h.checkpoints lid k hl (by rw [hat]; exact Option.some_ne_none c)⟩
  · exact .inl rfl

/-- A read by valid time without its effects. -/
theorem Table.Tracks.locate (h : t.Tracks T [] [] s) (hl : lid < 2 ^ 31) (hvt : vt < 2 ^ 32) :
    t.Says s lid (t.locate s lid vt) ((T lid).find vt) := by
  have hix := h.locateIndexed hl hvt (h.checkpointHint hl)
  rw [Table.locate]
  split
  swap
  · exact hix
  · next head hc =>
    obtain ⟨v, hv, hopen, he, hh⟩ := h.hot_of_current hl hc
    rw [if_pos hh.used]
    split
    swap
    · exact hix
    · next hhot =>
      have hlt : vt < v.stop := by
        rw [hopen]
        exact Nat.lt_trans hvt (by decide)
      rw [Timeline.find_eq_some.mpr ⟨hv, (hh.hotAt.mp hhot).1, hlt⟩]
      refine ⟨_, rfl, ?_⟩
      have hown : (t.record s head).obj.data.id = head := hh.shows.own
      rw [hown]
      exact hh.versionOf (payload_lt he)

/-- Reads by valid time give the version of the history that is valid, and
none when there is none. -/
def Table.ReadsAs (t : Table ε δ γ) (T : Nat → Timeline Nat) (s : GraphDb) : Prop :=
  ∀ lid vt, lid < 2 ^ 31 → vt < 2 ^ 32 →
    match (T lid).find vt with
    | some v => t.answer s lid vt = .ok (lid, v.start)
    | none => t.found s lid vt = .error .unknownId

theorem Table.Follows.readsAs [t.Laws] (h : t.Follows T none s) (hq : s.tasks = []) :
    t.ReadsAs T s := by
  intro lid vt hl hvt
  have hnil : t.queue s = [] := by rw [Table.queue, hq, List.filter_nil]
  have htr : t.Tracks T [] [] s := by
    have htr := h.tracks
    rwa [hnil] at htr
  have hsays := htr.locate hl hvt
  split
  · next v hf =>
    rw [hf] at hsays
    obtain ⟨id, hloc, hver⟩ := hsays
    rw [answer_eq, hloc]
    exact hver
  · next hf =>
    rw [hf] at hsays
    rw [found_eq]
    exact hsays

end Reads

/-! ## Runs -/

/-- The transactions run on. -/
def SameRunning (s s' : GraphDb) : Prop := ∀ x, (s'.txs x).running = (s.txs x).running

theorem SameTxs.running {s s' : GraphDb} (h : SameTxs s s') : SameRunning s s' :=
  fun x => congrArg Transaction.running (congrFun h x)

instance histFrame_sameRunning : HistFrame SameRunning where
  refl _ _ := rfl
  trans h h' x := (h' x).trans (h x)
  nodes _ _ _ _ := rfl
  rships _ _ _ _ := rfl
  rest _ _ _ _ _ _ _ := rfl
  quiet _ h := SameTxs.running h
  indexHot _ _ _ _ _ _ := rfl
  indexRemove _ _ _ _ _ := rfl
  baseNode _ _ _ := rfl
  baseRship _ _ _ := rfl
  archiveNode _ _ _ _ := rfl
  archiveRship _ _ _ _ := rfl

instance dirtyBy_sameRunning {ε δ γ : Type} {t : Table ε δ γ} [t.Laws] :
    t.DirtyBy SameRunning where
  dirty xid id s x := Table.Laws.running_addDirty xid id s x

section Runs

variable {ε δ γ : Type} {t : Table ε δ γ} {T : Nat → Timeline Nat} {s s' : GraphDb}
variable {x : Option Nat} {xid : Nat}

/-- What is kept between two steps. -/
structure Table.Upholds (t : Table ε δ γ) (T : Nat → Timeline Nat) (x : Option Nat)
    (s : GraphDb) : Prop where
  follows : t.Follows T x s
  running : ∀ xid, x = some xid → xid ≠ 0 ∧ (s.txs xid).running = true

theorem Table.Upholds.goes (h : t.Upholds T x s) {T' : Nat → Timeline Nat}
    (hf : t.Follows T' x s') (hr : SameRunning s s') : t.Upholds T' x s' :=
  ⟨hf, fun xid hx => ⟨(h.running xid hx).1, (hr xid).trans (h.running xid hx).2⟩⟩

variable [t.Laws]

/-- A transaction begins. -/
theorem Table.Upholds.begin (h : t.Upholds T none s)
    (hx : (Step.begin xid).exec s = .ok () s') : t.Upholds T (some xid) s' := by
  obtain ⟨hpos, -, -, rfl⟩ := begin_ok hx
  refine ⟨⟨?_, fun k hk => ?_⟩, ?_⟩
  · exact h.follows.tracks.of_parts (side_begun xid s) rfl rfl (fun _ hi => by cases hi)
      fun _ => Iff.rfl
  · rw [side_begun]
    exact h.follows.readable k hk
  · rintro _ ⟨⟩
    exact ⟨by omega, by simp [GraphDb.begun, GraphDb.modifyTx]⟩

omit [t.Laws] in
/-- A read. -/
theorem Table.Upholds.read {a : Step} (h : t.Upholds T x s)
    (hs : Keeps (t.Steady []) a.exec) (hr : Keeps SameRunning a.exec) :
    t.Upholds T x (s.step a) :=
  h.goes (Table.Follows.steady h.follows (step_of_always (hs.always s)))
    (step_of_always (hr.always s))

omit [t.Laws] in
/-- A table without records keeps the empty history. -/
theorem tracks_blank (hc : ∀ id, (vital (t.record s id)).copies = [])
    (hp : (t.side s).props = PropertyList.empty) (hl : (t.side s).logicalIndex = fun _ => none)
    (hd : (t.side s).lastDelta = fun _ => none)
    (hk : (t.side s).checkpoints = fun _ => OrdMap.empty) (hi : s.index = OrdMap.empty)
    (hg : s.garbage = []) : t.Tracks (fun _ => .empty) [] [] s := by
  have hentry : ∀ lid st, entryAt s.index lid st t.isRel = none := by
    intro lid st
    rw [hi, entryAt, OrdMap.lookup_empty, Option.map_none]
  have hgarb : t.discarded s = [] := by rw [Table.discarded, hg, List.filter_nil, List.map_nil]
  refine ⟨fun _ _ hv => (by cases hv), fun lid st _ _ he => absurd (hentry lid st) he,
    fun _ _ hv => (by cases hv), fun lid id _ => ?_, fun _ hp => (by cases hp), fun lid h hh => ?_,
    fun lid k _ hne => ?_, ?_, fun id c hmem => ?_, ?_, fun id hid => ?_⟩
  · rw [Table.findCurrent, hl]
    constructor
    · intro h
      cases h
    · rintro ⟨v, hv, -⟩
      cases hv
  · rw [hd] at hh
    cases hh
  · rw [hk, OrdMap.lookup_empty] at hne
    exact absurd rfl hne
  · rw [hp]
    exact fun _ _ h => (by cases h)
  · rw [hc id] at hmem
    cases hmem
  · rw [hgarb]
    exact List.nodup_nil
  · rw [hgarb] at hid
    cases hid

end Runs

/-! ## Committed histories -/

section Histories

variable {n₀ : Versioned NodeLinks} {T T' : Timelines} {x : Option Nat} {s s' : GraphDb}
variable {xid : Nat} {w : Write}

theorem upholds_initial_nodes (n₀ : Versioned NodeLinks) :
    nodeTable.Upholds Timelines.empty.nodes none (GraphDb.initial n₀) :=
  ⟨⟨tracks_blank (fun _ => rfl) rfl rfl rfl rfl rfl rfl, fun _ hk => by cases hk⟩, nofun⟩

theorem upholds_initial_rships (n₀ : Versioned NodeLinks) :
    rshipTable.Upholds Timelines.empty.rships none (GraphDb.initial n₀) :=
  ⟨⟨tracks_blank (fun _ => rfl) rfl rfl rfl rfl rfl rfl, fun _ hk => by cases hk⟩, nofun⟩

/-- A write, seen from the nodes. -/
theorem writeNode_follows (h : nodeTable.Follows T.nodes (some xid) s) (hr : w.isRel = false)
    (hp : w.Placed) (hw : w.Extends s T T') :
    wp (w.exec xid) (fun _ s' => nodeTable.Follows T'.nodes (some xid) s') (fun _ _ => True) s := by
  cases hw with
  | @addNode p _ _ _ _ hl hv hb =>
      obtain ⟨position, slot⟩ := p
      obtain rfl : position = slot := hp
      exact addNode_follows h hl hv hb
  | @updateNode p _ _ _ _ hc hl hv hb =>
      obtain ⟨position, slot⟩ := p
      obtain rfl : position = slot := hp
      exact updateNode_follows h hc hl hv hb
  | closeNode hc hl hv hb => exact closeNode_follows h hc hl hb
  | addRship hl hv hb => cases hr
  | updateRship hc hl hv hb => cases hr
  | closeRship hc hl hv hb => cases hr

/-- A write, seen from the relationships. -/
theorem writeRship_follows (h : rshipTable.Follows T.rships (some xid) s)
    (hp : w.Placed) (hw : w.Extends s T T') :
    wp (w.exec xid) (fun _ s' => rshipTable.Follows T'.rships (some xid) s') (fun _ _ => True)
      s := by
  have hsteady : ∀ {y : DbM Unit}, Keeps (rshipTable.Steady []) y →
      wp y (fun _ s' => rshipTable.Follows T.rships (some xid) s') (fun _ _ => True) s :=
    fun hy => wp_mono (hy.always s) (fun _ _ hs => Table.Follows.steady h hs) fun _ _ _ => trivial
  cases hw with
  | addNode hl hv hb => exact hsteady (keeps_addNode ..)
  | updateNode hc hl hv hb => exact hsteady (keeps_updateNodeCreateVersion ..)
  | closeNode hc hl hv hb => exact hsteady (keeps_closeNodeAtVt ..)
  | @addRship p _ _ _ _ _ _ hl hv hb =>
      obtain ⟨position, slot⟩ := p
      obtain rfl : position = slot := hp
      exact addRship_follows h hl hv hb
  | @updateRship p _ _ _ _ hc hl hv hb =>
      obtain ⟨position, slot⟩ := p
      obtain rfl : position = slot := hp
      exact updateRship_follows h hc hl hv hb
  | closeRship hc hl hv hb => exact closeRship_follows h hc hl hb

theorem always_commit {P : GraphDb → Prop} (h : always (commitTransaction xid) P s) :
    always (Step.commit xid).exec P s := (wp_bind _ _).mpr h

/-- A store of committed node versions keeps their history. -/
theorem Committed.upholds_nodes
    (h : Committed n₀ (fun w => w.isRel = false ∧ w.Placed) T x s) :
    nodeTable.Upholds T.nodes x s := by
  induction h with
  | init => exact upholds_initial_nodes n₀
  | begin _ hx ih => exact ih.begin hx
  | @write T T' s s' xid w _ hp hw hx ih =>
      have hf := wp_ok (writeNode_follows ih.follows hp.1 hp.2 hw) hx
      have hrun := wp_ok ((w.does (R := SameRunning) xid).always s) hx
      exact ih.goes hf hrun
  | @commit T s xid _ hx ih =>
      have hrun := ih.running xid rfl
      have hc := commitNodes_follows ih.follows hrun.1 hrun.2
      exact ⟨step_of_always (always_commit hc) hx, nofun⟩
  | nodeAt lid vt _ ih =>
      exact ih.read (keeps_bind (steady_getAtVt lid vt) fun _ => keeps_pure _)
        (keeps_bind (keeps_getAtVt lid vt) fun _ => keeps_pure _)
  | rshipAt lid vt _ ih =>
      exact ih.read (keeps_bind (keeps_getAtVt lid vt) fun _ => keeps_pure _)
        (keeps_bind (keeps_getAtVt lid vt) fun _ => keeps_pure _)
  | @work T x s s' i _ hx ih =>
      have hf := wp_ok (workNode_follows ih.follows i) hx
      have hrun := wp_ok ((keeps_work (R := SameRunning) i).always s) hx
      exact ih.goes hf hrun

/-- So does a store of committed nodes and relationships for the latter. -/
theorem Committed.upholds_rships (h : Committed n₀ Write.Placed T x s) :
    rshipTable.Upholds T.rships x s := by
  induction h with
  | init => exact upholds_initial_rships n₀
  | begin _ hx ih => exact ih.begin hx
  | @write T T' s s' xid w _ hp hw hx ih =>
      have hf := wp_ok (writeRship_follows ih.follows hp hw) hx
      have hrun := wp_ok ((w.does (R := SameRunning) xid).always s) hx
      exact ih.goes hf hrun
  | @commit T s xid _ hx ih =>
      have hrun := ih.running xid rfl
      have hc := commitRships_follows ih.follows hrun.1 hrun.2
      exact ⟨step_of_always (always_commit hc) hx, nofun⟩
  | nodeAt lid vt _ ih =>
      exact ih.read (keeps_bind (keeps_getAtVt lid vt) fun _ => keeps_pure _)
        (keeps_bind (keeps_getAtVt lid vt) fun _ => keeps_pure _)
  | rshipAt lid vt _ ih =>
      exact ih.read (keeps_bind (steady_getAtVt lid vt) fun _ => keeps_pure _)
        (keeps_bind (keeps_getAtVt lid vt) fun _ => keeps_pure _)
  | @work T x s s' i _ hx ih =>
      have hf := wp_ok (workRship_follows ih.follows i) hx
      have hrun := wp_ok ((keeps_work (R := SameRunning) i).always s) hx
      exact ih.goes hf hrun

/-- When the archival tasks of committed versions are done, each of them stored at
the position that the vector has returned, a read by valid time finds the
version of the logical id that is valid at the time, hot or archived, and no
version if none is. -/
theorem as_of_reads_committed_history (n₀ : Versioned NodeLinks) :
    (∀ T s, Committed n₀ (fun w => w.isRel = false ∧ w.Placed) T none s → s.tasks = [] →
        nodeTable.ReadsAs T.nodes s) ∧
      ∀ T s, Committed n₀ Write.Placed T none s → s.tasks = [] →
        rshipTable.ReadsAs T.rships s := by
  refine ⟨fun T s h hq => ?_, fun T s h hq => ?_⟩
  · exact Table.Follows.readsAs h.upholds_nodes.follows hq
  · exact Table.Follows.readsAs h.upholds_rships.follows hq

/-- A step that ends well. -/
theorem exec_step {a : Step} (h : (s.runOk [a]).isSome = true) : a.exec s = .ok () (s.step a) := by
  obtain ⟨s₁, hx, -⟩ := runOk_cons.mp (runOk_eq_run h)
  rw [GraphDb.step, hx]

/-- A node with two versions, of which one is archived and the other closed, and a
relationship. -/
theorem as_of_reads_committed_history_run :
    let n₀ : Versioned NodeLinks := ⟨0, 0, 0, 0, 0, 0, 0, 0, 0, ⟨0, 0⟩⟩
    let s := (GraphDb.initial n₀).run [.begin 1,
      .write 1 (.addNode ⟨1, 1⟩ 5 Properties.none 10 MAX_TIME 7),
      .write 1 (.updateNode 1 ⟨2, 2⟩ Properties.none 20),
      .write 1 (.closeNode 2 30), .commit 1, .work 0]
    let s' := (GraphDb.initial n₀).run [.begin 1,
      .write 1 (.addNode ⟨1, 1⟩ 5 Properties.none 10 MAX_TIME 7),
      .write 1 (.addRship ⟨1, 1⟩ 1 1 6 Properties.none 12 MAX_TIME 9), .commit 1]
    (nodeTable.answer s 7 15 = .ok (7, 10) ∧ nodeTable.answer s 7 20 = .ok (7, 20) ∧
      nodeTable.found s 7 30 = .error .unknownId) ∧
      rshipTable.answer s' 9 12 = .ok (9, 12) ∧ rshipTable.found s' 9 11 = .error .unknownId := by
  intro n₀ s s'
  obtain ⟨s₁, hs₁⟩ : ∃ s₁, s₁ = (GraphDb.initial n₀).step (.begin 1) := ⟨_, rfl⟩
  obtain ⟨s₂, hs₂⟩ : ∃ s₂, s₂ = s₁.step
    (.write 1 (.addNode ⟨1, 1⟩ 5 Properties.none 10 MAX_TIME 7)) :=
    ⟨_, rfl⟩
  have h₁ : ∀ P, Committed n₀ P .empty (some 1) s₁ := by
    intro P
    refine .begin .init ?_
    rw [hs₁]
    exact exec_step (by decide +kernel)
  have h₂ : ∀ P : Write → Prop, P (.addNode ⟨1, 1⟩ 5 Properties.none 10 MAX_TIME 7) →
      Committed n₀ P ⟨extendAt Timelines.empty.nodes 7 10 (Timeline.before_empty (by decide)),
        Timelines.empty.rships⟩ (some 1) s₂ := by
    intro P hp
    refine (h₁ P).write (w := .addNode ⟨1, 1⟩ 5 Properties.none 10 MAX_TIME 7) hp
      (.addNode (by decide) (by decide) _) ?_
    rw [hs₂]
    refine exec_step ?_
    rw [hs₁]
    decide +kernel
  refine ⟨?_, ?_⟩
  · -- the node gets a second version and is closed
    obtain ⟨s₃, hs₃⟩ : ∃ s₃, s₃ = s₂.step (.write 1 (.updateNode 1 ⟨2, 2⟩ Properties.none 20)) :=
      ⟨_, rfl⟩
    obtain ⟨s₄, hs₄⟩ : ∃ s₄, s₄ = s₃.step (.write 1 (.closeNode 2 30)) := ⟨_, rfl⟩
    have hc₂ : nodeTable.findCurrent 7 s₂ = some 1 := by
      rw [hs₂, hs₁]
      decide +kernel
    have hx₃ : (Step.write 1 (.updateNode 1 ⟨2, 2⟩ Properties.none 20)).exec s₂ = .ok () s₃ := by
      rw [hs₃]
      refine exec_step ?_
      rw [hs₂, hs₁]
      decide +kernel
    have h₃ := (h₂ (fun w => w.isRel = false ∧ w.Placed) ⟨rfl, rfl⟩).write
      (w := .updateNode 1 ⟨2, 2⟩ Properties.none 20) ⟨rfl, rfl⟩
      (.updateNode hc₂ (by decide) (by decide) ⟨by decide, by decide⟩) hx₃
    have hc₃ : nodeTable.findCurrent 7 s₃ = some 2 := by
      rw [hs₃, hs₂, hs₁]
      decide +kernel
    have hx₄ : (Step.write 1 (.closeNode 2 30)).exec s₃ = .ok () s₄ := by
      rw [hs₄]
      refine exec_step ?_
      rw [hs₃, hs₂, hs₁]
      decide +kernel
    have h₄ := h₃.write (w := .closeNode 2 30) ⟨rfl, trivial⟩
      (.closeNode hc₃ (by decide) (by decide) ⟨by decide, by decide +kernel⟩) hx₄
    have hrun : ((s₄.step (.commit 1)).txs 1).running = false := by
      rw [hs₄, hs₃, hs₂, hs₁]
      decide +kernel
    have h₅ := h₄.commit hrun
    have hx₆ : (Step.work 0).exec (s₄.step (.commit 1)) = .ok () s := by
      have hs : s = (s₄.step (.commit 1)).step (.work 0) := by
        simp only [s, hs₄, hs₃, hs₂, hs₁, GraphDb.run, List.foldl_cons, List.foldl_nil]
      rw [hs]
      refine exec_step ?_
      rw [hs₄, hs₃, hs₂, hs₁]
      decide +kernel
    have hr := (as_of_reads_committed_history n₀).1 _ s (h₅.work hx₆) (by decide +kernel)
    exact ⟨hr 7 15 (by decide) (by decide), hr 7 20 (by decide) (by decide),
      hr 7 30 (by decide) (by decide)⟩
  · obtain ⟨s₃, hs₃⟩ : ∃ s₃, s₃ = s₂.step
        (.write 1 (.addRship ⟨1, 1⟩ 1 1 6 Properties.none 12 MAX_TIME 9)) := ⟨_, rfl⟩
    have hx₃ : (Step.write 1 (.addRship ⟨1, 1⟩ 1 1 6 Properties.none 12 MAX_TIME 9)).exec s₂ =
        .ok () s₃ := by
      rw [hs₃]
      refine exec_step ?_
      rw [hs₂, hs₁]
      decide +kernel
    have h₃ := (h₂ Write.Placed rfl).write
      (w := .addRship ⟨1, 1⟩ 1 1 6 Properties.none 12 MAX_TIME 9)
      rfl (.addRship (by decide) (by decide) (Timeline.before_empty (by decide))) hx₃
    have hrun : ((s₃.step (.commit 1)).txs 1).running = false := by
      rw [hs₃, hs₂, hs₁]
      decide +kernel
    have hs : s' = s₃.step (.commit 1) := by
      simp only [s', hs₃, hs₂, hs₁, GraphDb.run, List.foldl_cons, List.foldl_nil]
    have hr := (as_of_reads_committed_history n₀).2 _ _ (h₃.commit hrun)
      (by rw [← hs]; decide +kernel)
    rw [hs]
    exact ⟨hr 9 12 (by decide) (by decide), hr 9 11 (by decide) (by decide)⟩

/-- A node is added to a chunk of four slots that was full until the collection freed
a slot. The vector fills the free slot and returns another position, and the node
there is no longer found at the time it is valid. -/
theorem stored_node_hides_another :
    let n₀ : Versioned NodeLinks := ⟨0, 0, 0, 0, 0, 0, 0, 0, 0, ⟨0, 0⟩⟩
    let v := [VecOp.append 0, .store 7, .store 8, .store 7, .erase 1].foldl (MemVec.next 4)
      MemVec.empty
    let s₁ := (GraphDb.initial n₀).run [.begin 1,
      .write 1 (.addNode ⟨1, 1⟩ 5 Properties.none 10 MAX_TIME 7),
      .write 1 (.addNode ⟨2, 2⟩ 5 Properties.none 10 MAX_TIME 8), .commit 1, .begin 2,
      .write 2 (.updateNode 1 ⟨3, 3⟩ Properties.none 20), .work 0, .commit 2]
    let s := s₁.run [.begin 3, .write 3
      (.addNode ⟨2, 1⟩ 5 Properties.none 30 MAX_TIME 9), .commit 3]
    (∃ v', MemVec.store 4 9 v = .ok 2 v' ∧ v'.at_ 4 1 = .ok 9 ∧ v'.at_ 4 2 = .ok 8) ∧
      nodeTable.found s₁ 8 15 = .ok 2 ∧ nodeTable.found s 8 15 = .error .unknownId ∧
      ¬ ∀ T s, Committed n₀ (fun w => w.isRel = false) T none s → s.tasks = [] →
        nodeTable.ReadsAs T.nodes s := by
  intro n₀ v s₁ s
  obtain ⟨a, ha⟩ : ∃ a, a = (GraphDb.initial n₀).step (.begin 1) := ⟨_, rfl⟩
  obtain ⟨b, hb⟩ : ∃ b, b = a.step (.write 1 (.addNode ⟨1, 1⟩ 5 Properties.none 10 MAX_TIME 7)) :=
    ⟨_, rfl⟩
  obtain ⟨c, hc⟩ : ∃ c, c = b.step (.write 1 (.addNode ⟨2, 2⟩ 5 Properties.none 10 MAX_TIME 8)) :=
    ⟨_, rfl⟩
  obtain ⟨d, hd⟩ : ∃ d, d = (c.step (.commit 1)).step (.begin 2) := ⟨_, rfl⟩
  obtain ⟨e, he⟩ : ∃ e, e = d.step (.write 2 (.updateNode 1 ⟨3, 3⟩ Properties.none 20)) :=
    ⟨_, rfl⟩
  obtain ⟨f, hf⟩ : ∃ f, f = e.step (.work 0) := ⟨_, rfl⟩
  obtain ⟨g, hg⟩ : ∃ g, g = (f.step (.commit 2)).step (.begin 3) := ⟨_, rfl⟩
  obtain ⟨i, hi⟩ : ∃ i, i = g.step (.write 3 (.addNode ⟨2, 1⟩ 5 Properties.none 30 MAX_TIME 9)) :=
    ⟨_, rfl⟩
  have hs : s = i.step (.commit 3) := by
    simp only [s, s₁, hi, hg, hf, he, hd, hc, hb, ha, GraphDb.run, List.foldl_cons, List.foldl_nil]
  refine ⟨⟨_, rfl, by decide +kernel, by decide +kernel⟩, by decide +kernel, by decide +kernel,
    fun hread => ?_⟩
  let P : Write → Prop := fun w => w.isRel = false
  have h₁ : Committed n₀ P .empty (some 1) a :=
    .begin .init (by rw [ha]; exact exec_step (by decide +kernel))
  have h₂ : Committed n₀ P _ (some 1) b :=
    h₁.write (w := .addNode ⟨1, 1⟩ 5 Properties.none 10 MAX_TIME 7) rfl
      (.addNode (by decide) (by decide) (Timeline.before_empty (by decide)))
      (by rw [hb]; refine exec_step ?_; rw [ha]; decide +kernel)
  have h₃ : Committed n₀ P _ (some 1) c :=
    h₂.write (w := .addNode ⟨2, 2⟩ 5 Properties.none 10 MAX_TIME 8) rfl
      (.addNode (by decide) (by decide) ⟨by decide, by decide +kernel⟩)
      (by rw [hc]; refine exec_step ?_; rw [hb, ha]; decide +kernel)
  have h₄ : Committed n₀ P _ (some 2) d :=
    (h₃.commit (by rw [hc, hb, ha]; decide +kernel)).begin
      (by rw [hd]; refine exec_step ?_; rw [hc, hb, ha]; decide +kernel)
  have hcur : nodeTable.findCurrent 7 d = some 1 := by
    rw [hd, hc, hb, ha]
    decide +kernel
  have h₅ : Committed n₀ P _ (some 2) e :=
    h₄.write (w := .updateNode 1 ⟨3, 3⟩ Properties.none 20) rfl
      (.updateNode hcur (by decide) (by decide) ⟨by decide, by decide +kernel⟩)
      (by rw [he]; refine exec_step ?_; rw [hd, hc, hb, ha]; decide +kernel)
  have h₆ : Committed n₀ P _ (some 2) f :=
    h₅.work (i := 0) (by rw [hf]; refine exec_step ?_; rw [he, hd, hc, hb, ha]; decide +kernel)
  have h₇ : Committed n₀ P _ (some 3) g :=
    (h₆.commit (by rw [hf, he, hd, hc, hb, ha]; decide +kernel)).begin
      (by rw [hg]; refine exec_step ?_; rw [hf, he, hd, hc, hb, ha]; decide +kernel)
  have h₈ : Committed n₀ P _ (some 3) i :=
    h₇.write (w := .addNode ⟨2, 1⟩ 5 Properties.none 30 MAX_TIME 9) rfl
      (.addNode (by decide) (by decide) ⟨by decide, by decide +kernel⟩)
      (by rw [hi]; refine exec_step ?_; rw [hg, hf, he, hd, hc, hb, ha]; decide +kernel)
  have h₉ : Committed n₀ P _ none (i.step (.commit 3)) :=
    h₈.commit (by rw [hi, hg, hf, he, hd, hc, hb, ha]; decide +kernel)
  have hfound : nodeTable.answer (i.step (.commit 3)) 8 15 = .ok (8, 10) :=
    hread _ _ h₉ (by rw [← hs]; decide +kernel) 8 15 (by decide) (by decide)
  have hgone : nodeTable.answer s 8 15 = .error .unknownId := by decide +kernel
  rw [← hs, hgone] at hfound
  cases hfound

end Histories

end Poseidon.Temporal
