import Poseidon.Proofs.Extending

/-!
# Calls that follow a history

`Follows T x s` says that between two calls the store keeps the history `T`
in a table: the versions that wait for their archival are those of the tasks
in the queue, and the slots that may be new are those that the transaction
`x` has touched. Every call of a committed history takes it from the history
before to the history after; this file has the calls on the table that are
not commits.
-/

namespace Poseidon.Temporal

open Wp

section Tables

variable {ε δ γ : Type} (t : Table ε δ γ)

/-- The versions of a queue. -/
def waiting (q : List Task) : List (Nat × Span Nat) := q.map fun k => (k.lid, k.span)

/-- The slots that may be new. -/
def Table.fresh (x : Option Nat) (s : GraphDb) : List Nat :=
  match x with
  | some x => t.dirty (s.txs x)
  | none => []

/-- The store keeps the history `T`, and the archivals that are left are those
of the tasks `q`. -/
structure Table.FollowsTo (T : Nat → Timeline Nat) (x : Option Nat) (q : List Task) (s : GraphDb) :
    Prop where
  tracks : t.Tracks T (t.fresh x s) (waiting q) s
  readable : ∀ k ∈ t.queue s, (t.side s).props.Readable k.pid

/-- Between two calls these are the tasks in the queue. -/
abbrev Table.Follows (T : Nat → Timeline Nat) (x : Option Nat) (s : GraphDb) : Prop :=
  t.FollowsTo T x (t.queue s) s

variable {t} {T : Nat → Timeline Nat} {F F' X : List Nat} {K K' : List (Nat × Span Nat)}
variable {s s' : GraphDb} {x : Option Nat} {xid lid vt slot id : Nat} {v : Span Nat} {q : List Task}

theorem Table.Steady.fresh (hs : t.Steady [] s s') : ∀ id ∈ t.fresh x s, id ∈ t.fresh x s' := by
  intro id hid
  cases x with
  | some x => exact hs.dirty x id hid
  | none => exact hid

/-- A steady step goes on with the same history. -/
theorem Table.FollowsTo.steady (h : t.FollowsTo T x q s) (hs : t.Steady [] s s') :
    t.FollowsTo T x q s' := by
  refine ⟨h.tracks.quiet hs hs.fresh, fun k hk => ?_⟩
  rw [hs.queue] at hk
  exact (h.readable k hk).grows (hs.props h.tracks.bounded).2

theorem Table.FollowsTo.done (h : t.FollowsTo T x q s) (hq : t.queue s = q) : t.Follows T x s := by
  rw [Table.Follows, hq]
  exact h

theorem Table.Follows.steady (h : t.Follows T x s) (hs : t.Steady [] s s') : t.Follows T x s' :=
  (Table.FollowsTo.steady h hs).done hs.queue

theorem Table.Hot.steady (h : t.Hot F s lid v id) (hb : (t.side s).props.Bounded)
    (hs : t.Steady [] s s') (hF : ∀ i ∈ F, i ∈ F') : t.Hot F' s' lid v id := by
  refine ⟨?_, hs.discarded ▸ h.kept⟩
  rw [hs.records id (fun h => by cases h)]
  exact h.shows.mono (hs.props hb).2 (hF id)

theorem Table.Steady.findCurrent (hs : t.Steady X s s') (l : Nat) :
    t.findCurrent l s' = t.findCurrent l s := by
  rw [Table.findCurrent, hs.logicalIndex, Table.findCurrent]

/-- Only what the history refers to matters. -/
theorem Table.Tracks.of_parts (h : t.Tracks T F K s) (hside : t.side s' = t.side s)
    (hi : s'.index = s.index) (hg : s'.garbage = s.garbage) (hF : ∀ i ∈ F, i ∈ F')
    (hK : ∀ p, p ∈ K' ↔ p ∈ K) : t.Tracks T F' K' s' := by
  have hrec : ∀ i, t.record s' i = t.record s i := fun i => by
    rw [Table.record, hside, Table.record]
  have hgarb : t.discarded s' = t.discarded s := by rw [Table.discarded, hg, Table.discarded]
  refine ⟨h.fits, hi ▸ h.only, fun l v hv => ?_, ?_, fun p hp => h.waiting p ((hK p).mp hp),
    hside ▸ h.last, hside ▸ h.checkpoints, hside ▸ h.bounded, fun i => ?_, hgarb ▸ h.distinct,
    fun i hi => ?_⟩
  · refine (h.placed l v hv).mono (by rw [hi]) (fun i hh => .inl ⟨?_, hgarb ▸ hh.kept⟩)
      ⟨[], by rw [hside, List.append_nil]⟩ (hK _).mpr fun w hw => ⟨w, hw, rfl⟩
    rw [hrec, hside]
    exact hh.shows.mono (.refl _) (hF i)
  · simp only [Table.findCurrent, hside, hi]
    exact h.current
  · rw [hrec]
    exact h.inserts i
  · rw [hrec]
    exact h.present i (hgarb ▸ hi)

/-! ## Versions that are read and changed -/

/-- What a version in a slot says, also when the transaction has a copy of its
own. -/
theorem Vital.Shows.deref {r : Record (Versioned ε)} {p : PropertyList} {fresh : Prop} {loc : Loc}
    {o : Obj (Versioned ε)} (h : (vital r).Shows p fresh lid v id) (hd : r.deref loc = some o) :
    o.data.logicalId = lid ∧ o.data.vtStart = v.start ∧ p.Readable o.data.propertyList := by
  cases loc with
  | slot =>
      cases hd
      exact ⟨h.logical, h.starts, h.props⟩
  | copy a =>
      obtain ⟨dn, hf, rfl⟩ := Option.map_eq_some_iff.mp hd
      have hmem : vitalCopy dn ∈ (vital r).copies :=
        List.mem_map_of_mem (List.mem_of_find?_eq_some hf)
      rcases h.settled with ⟨-, hn⟩ | ⟨-, -, m, pid, hc, hp⟩
      · rw [hn] at hmem
        cases hmem
      · rw [hc, List.mem_singleton] at hmem
        simp only [vitalCopy, Prod.mk.injEq] at hmem
        obtain ⟨-, hl, hst, hpid⟩ := hmem
        exact ⟨hl, hst, hpid ▸ hp⟩

/-- A read of a version that is hot. -/
theorem Table.Hot.read {n : Ref} (h : t.Hot F s lid v n.id) :
    wp (t.read n) (fun o s' => s' = s ∧ o.data.logicalId = lid ∧ o.data.vtStart = v.start ∧
      (t.side s).props.Readable o.data.propertyList) (fun _ s' => s' = s) s := by
  rw [wp_read]
  cases hd : (t.record s n.id).deref n.loc with
  | some o => exact ⟨rfl, h.shows.deref hd⟩
  | none => rfl

/-- A change that does not touch the identity of a version. -/
theorem vital_modifyAt {r : Record (Versioned ε)} {l : Loc}
    {f : Obj (Versioned ε) → Obj (Versioned ε)}
    (hf : ∀ o, (f o).data.logicalId = o.data.logicalId ∧ (f o).data.vtStart = o.data.vtStart ∧
      (f o).data.propertyList = o.data.propertyList) :
    (vital (r.modifyAt l f)).used = (vital r).used ∧
      (vital (r.modifyAt l f)).logicalId = (vital r).logicalId ∧
      (vital (r.modifyAt l f)).vtStart = (vital r).vtStart ∧
      (vital (r.modifyAt l f)).copies = (vital r).copies := by
  cases l with
  | slot => exact ⟨rfl, (hf _).1, (hf _).2.1, rfl⟩
  | copy a =>
      refine ⟨rfl, rfl, rfl, ?_⟩
      simp only [vital, Record.modifyAt, List.map_map]
      refine List.map_congr_left fun dn _ => ?_
      simp only [Function.comp, vitalCopy]
      split
      · simp only [hf]
      · rfl

/-- A change that no reader sees. -/
theorem vital_modifyAt_eq {r : Record (Versioned ε)} {loc : Loc}
    {f : Obj (Versioned ε) → Obj (Versioned ε)}
    (hf : ∀ o, (f o).bts = o.bts ∧ (f o).cts = o.cts ∧ (f o).data.id = o.data.id ∧
      (f o).data.vtEnd = o.data.vtEnd) (hf' : ∀ o, (f o).data.logicalId = o.data.logicalId ∧
      (f o).data.vtStart = o.data.vtStart ∧ (f o).data.propertyList = o.data.propertyList) :
    vital (r.modifyAt loc f) = vital r := by
  cases loc with
  | slot => simp only [vital, Record.modifyAt, hf, hf']
  | copy a =>
      have hc : (vital (r.modifyAt (.copy a) f)).copies = (vital r).copies :=
        (vital_modifyAt hf').2.2.2
      simp only [vital, Record.modifyAt] at hc ⊢
      rw [hc]

/-! ## Steps of the calls -/

/-- The current version of a logical id is in use. -/
theorem Table.Tracks.current_used (h : t.Tracks T F K s) (hl : lid < 2 ^ 31) (id : Nat)
    (hc : t.findCurrent lid s = some id) : (t.record s id).used = true := by
  obtain ⟨v, -, -, -, hh⟩ := h.hot_of_current hl hc
  exact hh.shows.used

theorem Table.Added.queue (ha : t.Added xid slot lid vt s s') : t.queue s' = t.queue s := by
  rw [Table.queue, ha.tasks, Table.queue]

theorem Table.Added.fresh_eq (ha : t.Added xid slot lid vt s s') :
    t.fresh (some xid) s' = t.fresh (some xid) s ++ [slot] := by
  rw [Table.fresh, ha.dirty, if_pos rfl, Table.fresh]

/-- A new version. -/
theorem Table.FollowsTo.added (h : t.FollowsTo T (some xid) q s)
    (ha : t.Added xid slot lid vt s s') (hl : lid < 2 ^ 31) (hv : vt < 2 ^ 32)
    (hb : (T lid).Before MAX_TIME vt) : t.FollowsTo (extendAt T lid vt hb) (some xid) q s' := by
  refine ⟨?_, fun k hk => ?_⟩
  · rw [ha.fresh_eq]
    exact h.tracks.extend ha hl hv hb (fun i hi => List.mem_append_left _ hi) (by simp)
  · rw [ha.queue] at hk
    rw [ha.history.2.2.2]
    exact h.readable k hk

variable [t.Laws] {k : Task}

omit [t.Laws] in
theorem queue_submit (hk : k.isRel = t.isRel) :
    t.queue { s with tasks := s.tasks ++ [k] } = t.queue s ++ [k] := by
  simp [Table.queue, List.filter_append, hk]

/-- A task is submitted. -/
theorem Table.FollowsTo.submit (h : t.FollowsTo T x q s) (hk : k.isRel = t.isRel)
    (hp : (t.side s).props.Readable k.pid) :
    t.FollowsTo T x q { s with tasks := s.tasks ++ [k] } := by
  refine ⟨h.tracks.of_parts (by simp) rfl rfl (fun i hi => hi) fun _ => Iff.rfl, fun k' hk' => ?_⟩
  rw [queue_submit hk] at hk'
  rw [Table.Laws.side_rest]
  rcases List.mem_append.mp hk' with hk' | hk'
  · exact h.readable k' hk'
  · exact List.mem_singleton.mp hk' ▸ hp

/-- The version in a slot is left to its archival, and the slot to the
collector. -/
theorem Table.FollowsTo.supersede (h : t.FollowsTo T x q s) {old : Ref}
    (hv : v ∈ (T lid).spans) (hend : v.stop ≠ MAX_TIME)
    (hhot : t.Hot (t.fresh x s) s lid v old.id) (hk : k.lid = lid ∧ k.span = v) :
    wp (t.supersede xid old vt) (fun _ s' => t.FollowsTo T x (q ++ [k]) s' ∧
      t.queue s' = t.queue s ∧ ∀ l, t.findCurrent l s' = t.findCurrent l s)
      (fun _ _ => False) s := by
  rw [Table.supersede, wp_modify_bind, wp_modify]
  generalize hf : (fun o : Obj (Versioned ε) =>
    { o with cts := xid, data := { o.data with vtEnd := vt } }) = f
  obtain ⟨hu, hl, hst, hc⟩ := vital_modifyAt (r := t.record s old.id) (l := old.loc) (f := f)
    (by rw [← hf]; exact fun o => ⟨rfl, rfl, rfl⟩)
  have hrec : t.record (t.modifyAt old f s) old.id =
      (t.record s old.id).modifyAt old.loc f := by rw [record_modifyAt, if_pos rfl]
  have hs : t.Steady [old.id] s (t.modifyAt old f s) := steady_setRecord _ _ s
  have hfresh : t.fresh x (t.modifyAt old f s) = t.fresh x s := by
    cases x with
    | some x => simp [Table.fresh, Table.modifyAt, Table.setRecord, Table.modifySide]
    | none => rfl
  have hmem : (lid, v) ∈ waiting (q ++ [k]) := by
    simp [waiting, hk.1, hk.2]
  -- the slot shows no other version
  have honly : ∀ l w, w ∈ (T l).spans → (vital (t.record s old.id)).logicalId = l →
      (vital (t.record s old.id)).vtStart = w.start → (l, w) ∈ waiting (q ++ [k]) := by
    rintro l w hw rfl hws
    have hl' := hhot.shows.logical
    have heq : w = v := by
      subst hl'
      exact Timeline.eq_of_start hw hv (hws.symm.trans hhot.shows.starts)
    rw [hl', heq]
    exact hmem
  have htr : t.Tracks T (t.fresh x s) (waiting (q ++ [k])) (t.modifyAt old f s) := by
    refine h.tracks.steady hs (fun i hi => ?_) (fun i _ hi => hi) (fun p hp => ?_) fun p hp => ?_
    · rw [List.mem_singleton.mp hi]
      refine ⟨fun hi' => ?_, ?_, fun l w hw hsh => .inr (honly l w hw hsh.logical hsh.starts)⟩
      · rw [hrec]
        exact hu.trans hi'
      · rw [hrec, hc]
        exact h.tracks.inserts old.id
    · simp only [waiting, List.map_append] at hp ⊢
      exact List.mem_append_left _ hp
    · simp only [waiting, List.map_append, List.mem_append] at hp
      rcases hp with hp | hp
      · exact h.tracks.waiting p hp
      · simp only [List.map_cons, List.map_nil, List.mem_singleton, hk.1, hk.2] at hp
        rw [hp]
        exact ⟨hv, hend⟩
  have hdis : t.Tracks T (t.fresh x s) (waiting (q ++ [k]))
      { t.modifyAt old f s with garbage := (t.modifyAt old f s).garbage ++
        [⟨xid, old.id, t.gcType⟩] } := by
    refine htr.discard (hs.discarded ▸ hhot.kept) ?_ fun l w hw hh => ?_
    · rw [hrec]
      exact hu.trans hhot.shows.used
    · have hsh := hh.shows
      rw [hrec] at hsh
      exact honly l w hw (hl.symm.trans hsh.logical) (hst.symm.trans hsh.starts)
  refine ⟨⟨?_, fun k' hk' => ?_⟩, ?_, fun l => ?_⟩
  · rw [← hfresh] at hdis
    exact hdis
  · have hk'' : k' ∈ t.queue (t.modifyAt old f s) := hk'
    rw [hs.queue] at hk''
    rw [Table.Laws.side_rest]
    exact (h.readable k' hk'').grows (hs.props h.tracks.bounded).2
  · exact hs.queue
  · rw [Table.findCurrent, Table.Laws.side_rest]
    exact hs.findCurrent l

/-! ## A version that is updated -/

/-- A call works on the version `v` of `lid` in slot `id`, which had the
property list `pid`. -/
structure Table.Working (t : Table ε δ γ) (T : Nat → Timeline Nat) (x : Option Nat)
    (q : List Task) (lid : Nat) (v : Span Nat) (id pid : Nat) (s : GraphDb) : Prop where
  follows : t.FollowsTo T x q s
  mem : v ∈ (T lid).spans
  hot : t.Hot (t.fresh x s) s lid v id
  list : (t.side s).props.Readable pid

omit [t.Laws] in
theorem Table.Working.steady {pid : Nat} (h : t.Working T x q lid v id pid s)
    (hs : t.Steady [] s s') : t.Working T x q lid v id pid s' :=
  ⟨h.follows.steady hs, h.mem, h.hot.steady h.follows.tracks.bounded hs hs.fresh,
    h.list.grows (hs.props h.follows.tracks.bounded).2⟩

omit [t.Laws] in
/-- The new version ends it. -/
theorem Table.Working.added {pid : Nat} (h : t.Working T (some xid) q lid v id pid s)
    (hopen : v.stop = MAX_TIME) (ha : t.Added xid slot lid vt s s') (hl : lid < 2 ^ 31)
    (hv : vt < 2 ^ 32) (hb : (T lid).Before MAX_TIME vt) :
    t.Working (extendAt T lid vt hb) (some xid) q lid ⟨v.start, vt⟩ id pid s' := by
  refine ⟨h.follows.added ha hl hv hb, mem_extendAt.mpr
    (.inr ⟨v, h.mem, aged_of_open hopen⟩), ?_, ?_⟩
  · have heq : aged lid vt lid v = ⟨v.start, vt⟩ := aged_of_open hopen
    rw [← heq]
    refine ha.hot h.follows.tracks hl hb (fun i hi => ?_) h.mem h.hot
    rw [ha.fresh_eq]
    exact List.mem_append_left _ hi
  · rw [ha.history.2.2.2]
    exact h.list

theorem Table.Working.submit {pid : Nat} (h : t.Working T x q lid v id pid s)
    (hk : k.isRel = t.isRel) (hp : k.pid = pid) :
    t.Working T x q lid v id pid { s with tasks := s.tasks ++ [k] } where
  follows := h.follows.submit hk (hp ▸ h.list)
  mem := h.mem
  hot := by
    refine ⟨?_, h.hot.kept⟩
    rw [record_rest, Table.Laws.side_rest]
    cases x with
    | some x => exact h.hot.shows
    | none => exact h.hot.shows
  list := by
    rw [Table.Laws.side_rest]
    exact h.list

/-- An archival does not look at the map of current versions. -/
theorem archived_eraseCurrent (a : ArchiveArgs δ γ) (p : PropertyList) (base delta : Nat) :
    t.Steady X (t.archived a p base delta (t.eraseCurrent lid s))
      (t.eraseCurrent lid (t.archived a p base delta s)) := by
  have hcounts : (t.eraseCurrent lid s).updateCounts = s.updateCounts := by
    simp [Table.eraseCurrent, Table.modifySide]
  have hcp : (t.side (t.eraseCurrent lid (t.archived a p base delta s))).checkpoints =
      (t.side (t.archived a p base delta (t.eraseCurrent lid s))).checkpoints := by
    simp only [Table.archived, hcounts]
    split
    · split
      · simp [Table.eraseCurrent, Table.modifySide, Table.addCheckpoint, Table.indexHist,
          Table.addHistory, Table.setLastDelta]
      · simp [Table.eraseCurrent, Table.modifySide, Table.indexHist, Table.addHistory,
          Table.setLastDelta]
    · simp [Table.eraseCurrent, Table.modifySide, Table.indexHist, Table.addHistory,
        Table.setLastDelta]
  obtain ⟨cp, hside⟩ := side_archived t a p base delta s
  obtain ⟨cp', hside'⟩ := side_archived t a p base delta (t.eraseCurrent lid s)
  have herase : ∀ s : GraphDb, t.side (t.eraseCurrent lid s) = { t.side s with
      logicalIndex := fun l => if l = lid then none else (t.side s).logicalIndex l } := by
    simp [Table.eraseCurrent, Table.modifySide]
  have hlists := lists_archived t a p base delta s
  have hlists' := lists_archived t a p base delta (t.eraseCurrent lid s)
  refine ⟨fun i _ => ?_, ?_, hcp, ⟨[], ?_⟩, fun l i hi => .inl ?_, fun hb => ?_,
    fun l st => ?_, ?_, ?_,
    fun i j hj => ?_⟩
  · rw [record_eraseCurrent, Table.record, Table.record, hside, hside', herase]
  · rw [herase, hside, hside', herase]
  · rw [herase, hside, hside', herase, List.append_nil]
  · rw [herase, hside] at hi
    rw [hside', herase]
    exact hi
  · rw [herase, hside, hside'] at *
    exact ⟨hb, .refl _⟩
  · rw [index_archived, herase]
    simp only [Table.eraseCurrent, Table.modifySide, Table.Laws.index_setSide, index_archived]
  · simp only [Table.discarded, Table.eraseCurrent, Table.modifySide, Table.Laws.garbage_setSide,
      hlists.1]
    have hg : (t.archived a p base delta (t.eraseCurrent lid s)).garbage = s.garbage := by
      rw [hlists'.1]
      simp [Table.eraseCurrent, Table.modifySide]
    simp only [Table.eraseCurrent, Table.modifySide] at hg
    rw [hg]
  · simp only [Table.queue, Table.eraseCurrent, Table.modifySide, Table.Laws.tasks_setSide,
      hlists.2.2.1]
    have hg : (t.archived a p base delta (t.eraseCurrent lid s)).tasks = s.tasks := by
      rw [hlists'.2.2.1]
      simp [Table.eraseCurrent, Table.modifySide]
    simp only [Table.eraseCurrent, Table.modifySide] at hg
    rw [hg]
  · have hg : (t.archived a p base delta (t.eraseCurrent lid s)).txs = s.txs := by
      rw [hlists'.2.1]
      simp [Table.eraseCurrent, Table.modifySide]
    rw [hg] at hj
    simp only [Table.eraseCurrent, Table.modifySide, Table.Laws.txs_setSide, hlists.2.1]
    exact hj

omit [t.Laws] in
theorem deref_modifyAt {r : Record (Versioned ε)} {loc : Loc} {o : Obj (Versioned ε)}
    {f : Obj (Versioned ε) → Obj (Versioned ε)} (h : (r.modifyAt loc f).deref loc = some o) :
    ∃ o₀, r.deref loc = some o₀ ∧ o = f o₀ := by
  cases loc with
  | slot => exact ⟨r.obj, rfl, (Option.some.inj h).symm⟩
  | copy a =>
      simp only [Record.deref, Record.modifyAt, List.find?_map, Option.map_map] at h ⊢
      obtain ⟨dn, hdn, rfl⟩ := Option.map_eq_some_iff.mp h
      have hp : (fun d : DirtyObject (Versioned ε) => decide (d.addr = a)) ∘ (fun dn =>
          if dn.addr = a then { dn with elem := f dn.elem } else dn) =
          fun d => decide (d.addr = a) := by
        funext d
        simp only [Function.comp]
        split
        · rfl
        · rfl
      rw [hp] at hdn
      have ha := List.find?_some hdn
      simp only [decide_eq_true_eq] at ha
      refine ⟨dn.elem, by rw [hdn]; rfl, ?_⟩
      simp only [Function.comp, if_pos ha]

/-- The current version is closed and archived. -/
theorem Table.FollowsTo.closed (h : t.FollowsTo T x q s) {n : Ref} (hl : lid < 2 ^ 31)
    (hc : t.findCurrent lid s = some n.id) (hb : (T lid).Before MAX_TIME vt)
    {f : Obj (Versioned ε) → Obj (Versioned ε)}
    (hf : f = fun o => { o with data := { o.data with vtEnd := vt } }) {o : Obj (Versioned ε)}
    (ho : (t.record (t.modifyAt n f s) n.id).deref n.loc = some o) {a : ArchiveArgs δ γ}
    (ha : a.lid = o.data.logicalId ∧ a.vtStart = o.data.vtStart ∧ a.newVtStart = vt) {i : Nat}
    (hx : t.archiveWith a (t.modifyAt n f s) = .ok i s') :
    t.FollowsTo (closeAt T lid vt hb) x q (t.eraseCurrent o.data.logicalId s') ∧
      t.queue (t.eraseCurrent o.data.logicalId s') = t.queue s := by
  obtain ⟨v, hv, hopen, -, hhot⟩ := h.tracks.hot_of_current hl hc
  obtain ⟨hu, -, -, hcp⟩ := vital_modifyAt (r := t.record s n.id) (f := f)
    (by rw [hf]; exact fun o => ⟨rfl, rfl, rfl⟩)
  have hrec : t.record (t.modifyAt n f s) n.id = (t.record s n.id).modifyAt n.loc f := by
    rw [record_modifyAt, if_pos rfl]
  -- what is read has the identity of the version
  obtain ⟨o₀, ho₀, rfl⟩ := deref_modifyAt (hrec ▸ ho)
  obtain ⟨hlid, hst, -⟩ := hhot.shows.deref ho₀
  have hlid' : (f o₀).data.logicalId = lid := by rw [hf]; exact hlid
  have hst' : (f o₀).data.vtStart = v.start := by rw [hf]; exact hst
  rw [hlid', hst'] at ha
  rw [hlid']
  have hs : t.Steady [n.id] s (t.modifyAt n f s) := steady_setRecord _ _ s
  obtain ⟨w, hw, hwo, hmem, htr⟩ := h.tracks.close hl hc hb hs
    (by rw [hrec]; exact hu.trans hhot.shows.used)
    (by rw [hrec, hcp]; exact h.tracks.inserts n.id)
  cases open_unique hw hv hwo hopen
  obtain ⟨items, base, delta, hlen, -, rfl⟩ := archiveWith_ok hx
  have hprops : t.side (t.eraseCurrent lid (t.modifyAt n f s)) =
      { t.side (t.modifyAt n f s) with
        logicalIndex := fun l => if l =
        lid then none else (t.side (t.modifyAt n f s)).logicalIndex l } := by
    simp [Table.eraseCurrent, Table.modifySide]
  obtain ⟨hbd, hgr, -⟩ := PropertyList.addPitems_grows (hs.props h.tracks.bounded).1 a.owner items
  have harch := htr.archived (a := a)
    (p := ((t.side (t.modifyAt n f s)).props.addPitems a.owner items).2) (v := ⟨v.start, vt⟩)
    base delta (by rw [ha.1]; exact hmem) (Nat.ne_of_lt hb.finite) ha.2.1 ha.2.2
    (by rw [hprops]; exact hlen)
    (by rw [hprops]; exact ⟨hbd, hgr⟩)
    (fun p hp => by
      rcases List.mem_cons.mp hp with rfl | hp
      · exact .inr (by rw [ha.1])
      · exact .inl hp)
    fun p (hp : p ∈ waiting q) => List.mem_cons_of_mem _ hp
  obtain ⟨-, htx, hts, -⟩ := lists_archived t a
    ((t.side (t.modifyAt n f s)).props.addPitems a.owner items).2 base delta (t.modifyAt n f s)
  obtain ⟨cp, hside⟩ := side_archived t a
    ((t.side (t.modifyAt n f s)).props.addPitems a.owner items).2 base delta (t.modifyAt n f s)
  have hqueue : t.queue (t.eraseCurrent lid (t.archived a
      ((t.side (t.modifyAt n f s)).props.addPitems a.owner items).2 base delta
      (t.modifyAt n f s))) = t.queue s := by
    rw [Table.queue, Table.eraseCurrent, Table.modifySide, Table.Laws.tasks_setSide, hts]
    exact hs.queue
  refine ⟨⟨harch.quiet (archived_eraseCurrent a _ base delta) fun i hi => ?_,
    fun k hk => ?_⟩, hqueue⟩
  · cases x with
    | some x =>
        simp only [Table.fresh, Table.eraseCurrent, Table.modifySide, Table.Laws.txs_setSide, htx]
        exact hs.dirty x i hi
    | none => exact hi
  · rw [hqueue] at hk
    simp only [Table.eraseCurrent, Table.modifySide, Table.Laws.side_setSide, hside]
    exact ((h.readable k hk).grows (hs.props h.tracks.bounded).2).grows hgr

end Tables

end Poseidon.Temporal
