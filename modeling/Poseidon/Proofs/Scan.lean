import Poseidon.Proofs.Reads

/-!
# Scans and point reads

The scans of `query_ctx` decide by the commit timestamp of the slot whether
they look at a record at all, and all but one of them pass an `unknown_id`
on to the caller. The point reads look at the version list instead. This
module says when the two agree: the timestamp test has to say the same as
the version list about every record in use, and the iterators have to start
at a record in use.
-/

namespace Poseidon

open Wp

variable {α : Type}

/-- A scan that ended normally and delivered, each once, the records whose
point read returns normally and whose version is wanted. -/
structure Exact (t : Table α) (s : GraphDb) (xid : Nat) (want : Obj α → Bool)
    (sc : Scan) : Prop where
  ended : sc.ended = none
  once : (sc.delivered.map Ref.id).Nodup
  mem : ∀ n, n ∈ sc.delivered ↔ Returns (t.byId xid n.id) s n ∧
    ∃ o, (t.record s n.id).deref n.loc = some o ∧ want o = true

/-- Ranges that cut the chunks of a vector of `size` slots into pieces. -/
structure ChunkPartition (n size : Nat) (ranges : List (Nat × Nat)) : Prop where
  cover : ∀ i < size, ∃ r ∈ ranges, r.1 ≤ i / n ∧ i / n ≤ r.2
  apart : ranges.Pairwise fun a b => a.2 < b.1

/-- All scans of nodes and relationships agree with the point reads. -/
structure ScansAgree (s : GraphDb) (xid : Nat) : Prop where
  nodes : Exact nodeTable s xid (fun _ => true) (scanNodes s xid)
  byLabel : ∀ lc, Exact nodeTable s xid (fun o => o.data.nodeLabel == lc)
    (nodesByLabel s xid lc)
  byLabels : ∀ codes, Exact nodeTable s xid
    (fun o => codes.contains o.data.nodeLabel) (nodesByLabels s xid codes)
  parallel : ∀ ranges, ChunkPartition nodesPerChunk s.nodes.size ranges →
    Exact nodeTable s xid (fun _ => true)
      (parallelScan (nodeScanTask s xid) ranges)
  parallelByLabel : ∀ lc ranges,
    ChunkPartition nodesPerChunk s.nodes.size ranges →
    Exact nodeTable s xid (fun o => o.data.nodeLabel == lc)
      (parallelScan (nodeScanTaskWithLabel s xid lc) ranges)
  rshipsByLabel : ∀ lc, Exact rshipTable s xid
    (fun o => o.data.rshipLabel == lc) (relationshipsByLabel s xid lc)
  rshipsByLabels : ∀ codes, Exact rshipTable s xid
    (fun o => codes.contains o.data.rshipLabel)
    (relationshipsByLabels s xid codes)
  parallelRships : ∀ ranges, ChunkPartition rshipsPerChunk s.rships.size ranges →
    Exact rshipTable s xid (fun _ => true)
      (parallelScan (rshipScanTask s xid) ranges)
  parallelRshipsByLabel : ∀ lc ranges,
    ChunkPartition rshipsPerChunk s.rships.size ranges →
    Exact rshipTable s xid (fun o => o.data.rshipLabel == lc)
      (parallelScan (rshipScanTaskWithLabel s xid lc) ranges)

/-- When the scans of one table agree with the point reads of `xid`: the
slots in use that have not ended are those that `xid` can read, and the
iterators start at a record, that is, the first chunk has a record if any
chunk has one that has not ended, and the first slot of a chunk is in use
or holds a record that has ended. -/
structure Vec.ScanCondition (v : Vec α) (n : Nat) (xid : Nat) : Prop where
  readable : ∀ id, (v.slots id).used = true →
    ((v.slots id).obj.isValid = true ↔ (v.slots id).readable xid = true)
  first : ∀ id, (v.slots id).used = true → (v.slots id).obj.isValid = true →
    ∃ i < n, (v.slots i).used = true
  chunks : ∀ c, c * n < v.size → (v.slots (c * n)).obj.isValid = true →
    (v.slots (c * n)).used = true

/-- The condition for both tables. The scan by one label looks at every
relationship it meets, ended or not, so they all have to be readable. -/
structure ScanCondition (s : GraphDb) (xid : Nat) : Prop where
  nodes : s.nodes.ScanCondition nodesPerChunk xid
  rships : s.rships.ScanCondition rshipsPerChunk xid
  allReadable : ∀ i < rshipsPerChunk, (s.rships.slots i).used = true →
    ∀ id, (s.rships.slots id).used = true →
      (s.rships.slots id).readable xid = true

section Tables

variable {t : Table α} {s : GraphDb} {xid : Nat} {pre : Obj α → Bool}
  {skip : Err → Bool} {want : Obj α → Bool}

/-- What a scan delivers for one slot. -/
def Table.visit (t : Table α) (s : GraphDb) (xid : Nat) (pre want : Obj α → Bool)
    (id : Nat) : Option Ref :=
  if pre (t.record s id).obj then
    match (t.record s id).getValidVersion xid with
    | .error _ => none
    | .ok l => match (t.record s id).deref l with
      | none => none
      | some o => if want o then some ⟨id, l⟩ else none
  else none

/-- A scan that ends normally has delivered what it was to deliver for each
slot on its way. -/
theorem Table.scanLoop_delivered {ids : List Nat}
    (h : (t.scanLoop s xid pre skip want ids).ended = none) :
    (t.scanLoop s xid pre skip want ids).delivered =
      ids.filterMap (t.visit s xid pre want) := by
  induction ids with
  | nil => rfl
  | cons id rest ih =>
      rw [List.filterMap_cons]
      simp only [Table.scanLoop, Table.visit] at h ⊢
      by_cases hp : pre (t.record s id).obj = true
      · simp only [hp, Bool.not_true, Bool.false_eq_true, if_false, if_true]
          at h ⊢
        cases hv : (t.record s id).getValidVersion xid with
        | error e =>
            simp only [hv] at h ⊢
            split at h
            · next hs => rw [if_pos hs]; exact ih h
            · cases h
        | ok l =>
            simp only [hv] at h ⊢
            cases hd : (t.record s id).deref l with
            | none => simp only [hd] at h; cases h
            | some o =>
                simp only [hd] at h ⊢
                by_cases hw : want o = true
                · simp only [hw, if_true] at h ⊢
                  rw [ih h]
                · simp only [hw] at h ⊢
                  exact ih h
      · simp only [hp, Bool.not_false, if_true] at h ⊢
        exact ih h

/-- A scan ends normally if and only if the exceptions it meets are those it
skips. -/
theorem Table.scanLoop_ended (hx : xid ≠ 0) {ids : List Nat} :
    (t.scanLoop s xid pre skip want ids).ended = none ↔
      ∀ id ∈ ids, pre (t.record s id).obj = true →
        ∀ e, (t.record s id).getValidVersion xid = .error e → skip e = true := by
  induction ids with
  | nil => simp [Table.scanLoop]
  | cons id rest ih =>
      rw [List.forall_mem_cons, ← ih]
      simp only [Table.scanLoop]
      by_cases hp : pre (t.record s id).obj = true
      · simp only [hp, Bool.not_true, Bool.false_eq_true, if_false,
          forall_const]
        cases hv : (t.record s id).getValidVersion xid with
        | error e =>
            by_cases hs : skip e = true
            · simp [hs]
            · simp [hs]
        | ok l =>
            obtain ⟨o, ho⟩ := Record.deref_of_getValidVersion hx hv
            simp only [ho]
            by_cases hw : want o = true
            · simp [hw]
            · simp [hw]
      · simp [hp]

/-- The slots that a scan goes through: each once, those it looks at can be
read, and all that can be read are among them. -/
structure Table.Sweep (t : Table α) (s : GraphDb) (xid : Nat)
    (pre : Obj α → Bool) (ids : List Nat) : Prop where
  once : ids.Nodup
  sound : ∀ id ∈ ids, pre (t.record s id).obj = true →
    (t.record s id).used = true ∧ (t.record s id).readable xid = true
  complete : ∀ id, (t.record s id).used = true →
    (t.record s id).readable xid = true →
      id ∈ ids ∧ pre (t.record s id).obj = true

theorem Table.visit_eq_some {id : Nat} {n : Ref} :
    t.visit s xid pre want id = some n ↔
      n.id = id ∧ pre (t.record s id).obj = true ∧
        (t.record s id).getValidVersion xid = .ok n.loc ∧
        ∃ o, (t.record s id).deref n.loc = some o ∧ want o = true := by
  obtain ⟨nid, loc⟩ := n
  simp only [Table.visit]
  by_cases hp : pre (t.record s id).obj = true
  · simp only [hp, if_true, true_and]
    cases hv : (t.record s id).getValidVersion xid with
    | error e => simp
    | ok l =>
        simp only [Except.ok.injEq]
        cases hd : (t.record s id).deref l with
        | none =>
            simp only [reduceCtorEq, false_iff]
            rintro ⟨_, rfl, o, ho, _⟩
            rw [hd] at ho
            cases ho
        | some o =>
            by_cases hw : want o = true
            · simp only [hw, if_true, Option.some.injEq, Ref.mk.injEq]
              constructor
              · rintro ⟨rfl, rfl⟩; exact ⟨rfl, rfl, o, hd, hw⟩
              · rintro ⟨rfl, rfl, _⟩; exact ⟨rfl, rfl⟩
            · simp only [hw]
              constructor
              · intro h; cases h
              · rintro ⟨_, rfl, o', ho', hw'⟩
                rw [hd] at ho'
                cases ho'
                exact absurd hw' hw
  · simp [hp]

/-- What is delivered along a sweep is exact. -/
theorem Table.Sweep.exact (ht : t.KeepsSound) (hs : s.Sound) (hx : xid ≠ 0)
    (hrun : (s.txs xid).running = true) {ids : List Nat}
    (h : t.Sweep s xid pre ids) {sc : Scan} (hended : sc.ended = none)
    (hsc : sc.delivered = ids.filterMap (t.visit s xid pre want)) :
    Exact t s xid want sc where
  ended := hended
  once := by
    rw [hsc, List.map_filterMap, List.Nodup, List.pairwise_filterMap]
    refine h.once.imp ?_
    intro a b hab x hx y hy
    simp only [Option.map_eq_some_iff] at hx hy
    obtain ⟨n, hn, rfl⟩ := hx
    obtain ⟨m, hm, rfl⟩ := hy
    rw [(Table.visit_eq_some.mp hn).1, (Table.visit_eq_some.mp hm).1]
    exact hab
  mem := by
    intro n
    rw [hsc, List.mem_filterMap, Table.byId_returns ht hs hrun]
    constructor
    · rintro ⟨id, hid, hv⟩
      obtain ⟨rfl, hp, hl, ho⟩ := Table.visit_eq_some.mp hv
      exact ⟨⟨rfl, (h.sound _ hid hp).1, hl⟩, ho⟩
    · rintro ⟨⟨_, hu, hl⟩, ho⟩
      obtain ⟨hid, hp⟩ := h.complete n.id hu ((Record.readable_iff hx).mpr ⟨_, hl⟩)
      exact ⟨n.id, hid, Table.visit_eq_some.mpr ⟨rfl, hp, hl, ho⟩⟩

theorem Table.Sweep.scanLoop_exact (ht : t.KeepsSound) (hs : s.Sound)
    (hx : xid ≠ 0) (hrun : (s.txs xid).running = true) {ids : List Nat}
    (h : t.Sweep s xid pre ids) :
    Exact t s xid want (t.scanLoop s xid pre skip want ids) := by
  have hended : (t.scanLoop s xid pre skip want ids).ended = none := by
    refine (Table.scanLoop_ended hx).mpr fun id hid hp e he => ?_
    obtain ⟨l, hl⟩ := (Record.readable_iff hx).mp (h.sound id hid hp).2
    rw [hl] at he
    cases he
  exact h.exact ht hs hx hrun hended (Table.scanLoop_delivered hended)

/-! ## Parallel scans -/

theorem parallelScan_ended {task : Nat → Nat → Scan} {ranges : List (Nat × Nat)} :
    (parallelScan task ranges).ended = none ↔
      ∀ r ∈ ranges, (task r.1 r.2).ended = none := by
  simp only [parallelScan, List.findSome?_eq_none_iff, List.forall_mem_map]

theorem parallelScan_delivered {n : Nat} {ranges : List (Nat × Nat)}
    (h : (parallelScan (fun a b =>
      t.scanLoop s xid pre skip want ((t.vec s).range n a b)) ranges).ended = none) :
    (parallelScan (fun a b =>
      t.scanLoop s xid pre skip want ((t.vec s).range n a b)) ranges).delivered =
    (ranges.flatMap fun r => (t.vec s).range n r.1 r.2).filterMap
      (t.visit s xid pre want) := by
  rw [parallelScan_ended] at h
  simp only [parallelScan]
  induction ranges with
  | nil => rfl
  | cons r ranges ih =>
      obtain ⟨hr, hrest⟩ := List.forall_mem_cons.mp h
      rw [List.map_cons, List.flatMap_cons, List.flatMap_cons,
        List.filterMap_append, ih hrest, Table.scanLoop_delivered hr]

/-! ## The iterators -/

theorem Vec.mem_used {v : Vec α} (hv : v.Sound) {id : Nat} :
    id ∈ v.used ↔ (v.slots id).used = true := by
  simp only [Vec.used, List.mem_filter, List.mem_range]
  exact ⟨fun h => h.2, fun h => ⟨hv.lt_size id h, h⟩⟩

theorem Vec.nodup_used (v : Vec α) : v.used.Nodup :=
  List.nodup_range.filter _

theorem Vec.mem_range {v : Vec α} {n first last : Nat} {id : Nat} :
    id ∈ v.range n first last ↔ id < v.size ∧ first ≤ id / n ∧ id / n ≤ last ∧
      ((v.slots id).used = true ∨ id = first * n) := by
  simp [Vec.range, and_assoc]

/-- The slots that the tasks over a partition visit together. -/
theorem ChunkPartition.nodup_ranges {v : Vec α} {n size : Nat}
    {ranges : List (Nat × Nat)} (h : ChunkPartition n size ranges) :
    (ranges.flatMap fun r => v.range n r.1 r.2).Nodup := by
  have hapart := h.apart
  clear h
  induction ranges with
  | nil => exact List.Pairwise.nil
  | cons r ranges ih =>
      obtain ⟨hr, hrest⟩ := List.pairwise_cons.mp hapart
      rw [List.flatMap_cons, List.nodup_append]
      refine ⟨List.nodup_range.filter _, ih hrest, ?_⟩
      rintro a ha b hb rfl
      obtain ⟨r', hr', hb'⟩ := List.mem_flatMap.mp hb
      obtain ⟨_, _, hle, _⟩ := Vec.mem_range.mp ha
      obtain ⟨_, hge, _, _⟩ := Vec.mem_range.mp hb'
      have := hr r' hr'
      omega

theorem Vec.ScanCondition.sweep_iterate {n : Nat} (hv : (t.vec s).Sound)
    (h : (t.vec s).ScanCondition n xid) :
    t.Sweep s xid Obj.isValid ((t.vec s).iterate n) where
  once := by
    simp only [Vec.iterate]
    split
    · exact Vec.nodup_used _
    · exact List.Pairwise.nil
  sound := by
    intro id hid hp
    simp only [Vec.iterate] at hid
    split at hid
    · have hu := (Vec.mem_used hv).mp hid
      exact ⟨hu, (h.readable id hu).mp hp⟩
    · cases hid
  complete := by
    intro id hu hr
    have hval := (h.readable id hu).mpr hr
    obtain ⟨i, hi, hiu⟩ := h.first id hu hval
    refine ⟨?_, hval⟩
    rw [Vec.iterate, if_pos]
    · exact (Vec.mem_used hv).mpr hu
    · exact List.any_eq_true.mpr
        ⟨i, (Vec.mem_used hv).mpr hiu, decide_eq_true hi⟩

theorem Vec.ScanCondition.sweep_ranges {n : Nat} (hv : (t.vec s).Sound)
    (h : (t.vec s).ScanCondition n xid) {ranges : List (Nat × Nat)}
    (hp : ChunkPartition n (t.vec s).size ranges) :
    t.Sweep s xid Obj.isValid
      (ranges.flatMap fun r => (t.vec s).range n r.1 r.2) where
  once := hp.nodup_ranges
  sound := by
    intro id hid hval
    obtain ⟨r, _, hmem⟩ := List.mem_flatMap.mp hid
    obtain ⟨hlt, _, _, hu | rfl⟩ := Vec.mem_range.mp hmem
    · exact ⟨hu, (h.readable id hu).mp hval⟩
    · have hu := h.chunks r.1 hlt hval
      exact ⟨hu, (h.readable _ hu).mp hval⟩
  complete := by
    intro id hu hr
    have hlt := hv.lt_size id hu
    obtain ⟨r, hr', h1, h2⟩ := hp.cover id hlt
    exact ⟨List.mem_flatMap.mpr
      ⟨r, hr', Vec.mem_range.mpr ⟨hlt, h1, h2, .inl hu⟩⟩,
      (h.readable id hu).mpr hr⟩

/-- A parallel scan over a partition is exact under the condition. -/
theorem Vec.ScanCondition.parallel_exact (ht : t.KeepsSound) (hs : s.Sound)
    (hx : xid ≠ 0) (hrun : (s.txs xid).running = true) {n : Nat}
    (hv : (t.vec s).Sound) (h : (t.vec s).ScanCondition n xid)
    {ranges : List (Nat × Nat)} (hp : ChunkPartition n (t.vec s).size ranges) :
    Exact t s xid want (parallelScan (fun a b =>
      t.scanLoop s xid Obj.isValid skip want ((t.vec s).range n a b)) ranges) := by
  have hsweep := h.sweep_ranges hv hp
  have hended : (parallelScan (fun a b => t.scanLoop s xid Obj.isValid skip want
      ((t.vec s).range n a b)) ranges).ended = none := by
    refine parallelScan_ended.mpr fun r hr => ?_
    refine (Table.scanLoop_ended hx).mpr fun id hid hval e he => ?_
    have hmem : id ∈ ranges.flatMap fun r => (t.vec s).range n r.1 r.2 :=
      List.mem_flatMap.mpr ⟨r, hr, hid⟩
    obtain ⟨l, hl⟩ := (Record.readable_iff hx).mp (hsweep.sound id hmem hval).2
    rw [hl] at he
    cases he
  exact hsweep.exact ht hs hx hrun hended (parallelScan_delivered hended)

/-! ## From agreement to the condition -/

theorem chunkPartition_one {n size : Nat} :
    ChunkPartition n size [(0, size / n)] where
  cover := fun _ hi => ⟨_, List.mem_singleton_self _, Nat.zero_le _,
    Nat.div_le_div_right (Nat.le_of_lt hi)⟩
  apart := List.pairwise_singleton _ _

theorem chunkPartition_two {n size c : Nat} (hc : 0 < c) :
    ChunkPartition n size [(0, c - 1), (c, size / n)] where
  cover := by
    intro i hi
    have hle : i / n ≤ size / n := Nat.div_le_div_right (Nat.le_of_lt hi)
    by_cases h : i / n < c
    · exact ⟨(0, c - 1), by simp, Nat.zero_le _, Nat.le_sub_one_of_lt h⟩
    · exact ⟨(c, size / n), by simp, Nat.le_of_not_lt h, hle⟩
  apart := by
    simp only [List.pairwise_cons, List.mem_singleton, forall_eq,
      List.not_mem_nil, false_implies, implies_true, List.Pairwise.nil, and_true]
    omega

/-- A slot that a task looks at without raising an exception has been
delivered. -/
theorem parallel_delivers (hx : xid ≠ 0) {n : Nat} {ranges : List (Nat × Nat)}
    {sc : Scan} (hsc : sc = parallelScan (fun a b =>
      t.scanLoop s xid Obj.isValid (fun _ => false) (fun _ => true)
        ((t.vec s).range n a b)) ranges) (hended : sc.ended = none)
    {r : Nat × Nat} (hr : r ∈ ranges) {id : Nat}
    (hid : id ∈ (t.vec s).range n r.1 r.2)
    (hval : (t.record s id).obj.isValid = true) :
    ∃ l, (t.record s id).getValidVersion xid = .ok l ∧
      (⟨id, l⟩ : Ref) ∈ sc.delivered := by
  subst hsc
  have hone := parallelScan_ended.mp hended r hr
  have hok := (Table.scanLoop_ended hx).mp hone id hid hval
  cases hl : (t.record s id).getValidVersion xid with
  | error e => cases hok e hl
  | ok l =>
      obtain ⟨o, ho⟩ := Record.deref_of_getValidVersion hx hl
      refine ⟨l, rfl, ?_⟩
      rw [parallelScan_delivered hended]
      exact List.mem_filterMap.mpr ⟨id, List.mem_flatMap.mpr ⟨r, hr, hid⟩,
        Table.visit_eq_some.mpr ⟨rfl, hval, hl, o, ho, rfl⟩⟩

/-- What the parallel scans being exact says about the slots. -/
theorem condition_of_parallel (ht : t.KeepsSound) (hs : s.Sound) (hx : xid ≠ 0)
    (hrun : (s.txs xid).running = true) {n : Nat} (hn : 0 < n)
    (hv : (t.vec s).Sound)
    (h : ∀ ranges, ChunkPartition n (t.vec s).size ranges →
      Exact t s xid (fun _ => true) (parallelScan (fun a b =>
        t.scanLoop s xid Obj.isValid (fun _ => false) (fun _ => true)
          ((t.vec s).range n a b)) ranges)) :
    (∀ id, (t.record s id).used = true →
      ((t.record s id).obj.isValid = true ↔
        (t.record s id).readable xid = true)) ∧
    (∀ c, c * n < (t.vec s).size →
      (t.record s (c * n)).obj.isValid = true →
        (t.record s (c * n)).used = true) := by
  have hone := h _ chunkPartition_one
  refine ⟨fun id hu => ⟨fun hval => ?_, fun hr => ?_⟩, fun c hc hval => ?_⟩
  · have hlt := hv.lt_size id hu
    have hid : id ∈ (t.vec s).range n 0 ((t.vec s).size / n) :=
      Vec.mem_range.mpr ⟨hlt, Nat.zero_le _,
        Nat.div_le_div_right (Nat.le_of_lt hlt), .inl hu⟩
    obtain ⟨l, hl, _⟩ := parallel_delivers hx rfl hone.ended
      (List.mem_singleton_self _) hid hval
    exact (Record.readable_iff hx).mpr ⟨l, hl⟩
  · obtain ⟨l, hl⟩ := (Record.readable_iff hx).mp hr
    obtain ⟨o, ho⟩ := Record.deref_of_getValidVersion hx hl
    have hmem := (hone.mem ⟨id, l⟩).mpr
      ⟨(Table.byId_returns ht hs hrun).mpr ⟨rfl, hu, hl⟩, o, ho, rfl⟩
    rw [parallelScan_delivered hone.ended, List.mem_filterMap] at hmem
    obtain ⟨i, _, hi⟩ := hmem
    obtain ⟨rfl, hval, _⟩ := Table.visit_eq_some.mp hi
    exact hval
  · have hdiv : c * n / n = c := Nat.mul_div_cancel c hn
    have hle : c ≤ (t.vec s).size / n := by
      rw [← hdiv]; exact Nat.div_le_div_right (Nat.le_of_lt hc)
    have hid : c * n ∈ (t.vec s).range n c ((t.vec s).size / n) :=
      Vec.mem_range.mpr ⟨hc, Nat.le_of_eq hdiv.symm, Nat.le_trans (Nat.le_of_eq hdiv) hle, .inr rfl⟩
    have hdel : ∃ ranges, ChunkPartition n (t.vec s).size ranges ∧
        (c, (t.vec s).size / n) ∈ ranges := by
      by_cases h0 : c = 0
      · subst h0
        exact ⟨_, chunkPartition_one, List.mem_singleton_self _⟩
      · exact ⟨_, chunkPartition_two (c := c) (Nat.pos_of_ne_zero h0), by simp⟩
    obtain ⟨ranges, hp, hmem⟩ := hdel
    have hex := h ranges hp
    obtain ⟨l, _, hdl⟩ := parallel_delivers hx rfl hex.ended hmem hid hval
    exact ((Table.byId_returns ht hs hrun).mp ((hex.mem _).mp hdl).1).2.1

/-- A record that a scan over the whole vector delivers shows that the first
chunk is not empty. -/
theorem first_of_delivered {n : Nat} (hv : (t.vec s).Sound) {m : Ref}
    (hended : (t.scanLoop s xid pre skip want ((t.vec s).iterate n)).ended = none)
    (hm : m ∈ (t.scanLoop s xid pre skip want ((t.vec s).iterate n)).delivered) :
    ∃ i < n, (t.record s i).used = true := by
  rw [Table.scanLoop_delivered hended, List.mem_filterMap] at hm
  obtain ⟨id, hid, _⟩ := hm
  simp only [Vec.iterate] at hid
  split at hid
  · next hany =>
      obtain ⟨i, hi, hlt⟩ := List.any_eq_true.mp hany
      exact ⟨i, of_decide_eq_true hlt, (Vec.mem_used hv).mp hi⟩
  · cases hid

end Tables

/-- The scan by one label over the relationships, which does not look at the
slot first. -/
theorem ScanCondition.sweep_rships {s : GraphDb} {xid : Nat} (hs : s.Sound)
    (h : ScanCondition s xid) :
    rshipTable.Sweep s xid (fun _ => true) (s.rships.iterate rshipsPerChunk) where
  once := (h.rships.sweep_iterate (t := rshipTable) hs.rships).once
  sound := by
    intro id hid _
    simp only [Vec.iterate] at hid
    split at hid
    · next hany =>
        obtain ⟨i, hi, hlt⟩ := List.any_eq_true.mp hany
        have hu := (Vec.mem_used hs.rships).mp hid
        exact ⟨hu, h.allReadable i (of_decide_eq_true hlt)
          ((Vec.mem_used hs.rships).mp hi) id hu⟩
    · cases hid
  complete := fun id hu hr =>
    ⟨((h.rships.sweep_iterate (t := rshipTable) hs.rships).complete id hu hr).1,
      rfl⟩

theorem ScanCondition.scansAgree {s : GraphDb} {xid : Nat} (hs : s.Sound)
    (hx : xid ≠ 0) (hrun : (s.txs xid).running = true)
    (h : ScanCondition s xid) : ScansAgree s xid := by
  have hn := h.nodes.sweep_iterate (t := nodeTable) hs.nodes
  have hr := h.rships.sweep_iterate (t := rshipTable) hs.rships
  exact {
    nodes := hn.scanLoop_exact nodeTable_keepsSound hs hx hrun
    byLabel := fun _ => hn.scanLoop_exact nodeTable_keepsSound hs hx hrun
    byLabels := fun _ => hn.scanLoop_exact nodeTable_keepsSound hs hx hrun
    parallel := fun _ hp => h.nodes.parallel_exact (t := nodeTable)
      nodeTable_keepsSound hs hx hrun hs.nodes hp
    parallelByLabel := fun _ _ hp => h.nodes.parallel_exact (t := nodeTable)
      nodeTable_keepsSound hs hx hrun hs.nodes hp
    rshipsByLabel := fun _ =>
      (h.sweep_rships hs).scanLoop_exact rshipTable_keepsSound hs hx hrun
    rshipsByLabels := fun _ => hr.scanLoop_exact rshipTable_keepsSound hs hx hrun
    parallelRships := fun _ hp => h.rships.parallel_exact (t := rshipTable)
      rshipTable_keepsSound hs hx hrun hs.rships hp
    parallelRshipsByLabel := fun _ _ hp =>
      h.rships.parallel_exact (t := rshipTable) rshipTable_keepsSound hs hx hrun
        hs.rships hp }

theorem ScansAgree.scanCondition {s : GraphDb} {xid : Nat} (hs : s.Sound)
    (hx : xid ≠ 0) (hrun : (s.txs xid).running = true)
    (h : ScansAgree s xid) : ScanCondition s xid := by
  obtain ⟨hnr, hnc⟩ := condition_of_parallel (t := nodeTable) nodeTable_keepsSound
    hs hx hrun (by decide : 0 < nodesPerChunk) hs.nodes h.parallel
  obtain ⟨hrr, hrc⟩ := condition_of_parallel (t := rshipTable) rshipTable_keepsSound
    hs hx hrun (by decide : 0 < rshipsPerChunk) hs.rships h.parallelRships
  refine ⟨⟨hnr, ?_, hnc⟩, ⟨hrr, ?_, hrc⟩, ?_⟩
  · intro id hu hval
    obtain ⟨l, hl⟩ := (Record.readable_iff hx).mp ((hnr id hu).mp hval)
    obtain ⟨o, ho⟩ := Record.deref_of_getValidVersion hx hl
    have hmem := (h.nodes.mem ⟨id, l⟩).mpr
      ⟨(Table.byId_returns nodeTable_keepsSound hs hrun).mpr ⟨rfl, hu, hl⟩,
        o, ho, rfl⟩
    exact first_of_delivered (t := nodeTable) hs.nodes h.nodes.ended hmem
  · intro id hu hval
    obtain ⟨l, hl⟩ := (Record.readable_iff hx).mp ((hrr id hu).mp hval)
    obtain ⟨o, ho⟩ := Record.deref_of_getValidVersion hx hl
    have hex := h.rshipsByLabel o.data.rshipLabel
    have hmem := (hex.mem ⟨id, l⟩).mpr
      ⟨(Table.byId_returns rshipTable_keepsSound hs hrun).mpr ⟨rfl, hu, hl⟩,
        o, ho, beq_self_eq_true _⟩
    exact first_of_delivered (t := rshipTable) hs.rships hex.ended hmem
  · intro i hi hiu id hu
    have hiter : id ∈ s.rships.iterate rshipsPerChunk := by
      rw [Vec.iterate, if_pos]
      · exact (Vec.mem_used hs.rships).mpr hu
      · exact List.any_eq_true.mpr
          ⟨i, (Vec.mem_used hs.rships).mpr hiu, decide_eq_true hi⟩
    have hok := (Table.scanLoop_ended hx).mp (h.rshipsByLabel 0).ended id hiter rfl
    rw [Record.readable_iff hx]
    cases hl : (s.rships.slots id).getValidVersion xid with
    | ok l => exact ⟨l, rfl⟩
    | error e => cases hok e hl

/-- In every state that a run reaches, and for every transaction that runs
in it, the scans agree with the point reads exactly under the condition. -/
theorem scans_agree_iff (as : List Step) (xid : Nat)
    (hrun : ((Sys.initial.run as).db.txs xid).running = true) :
    ScansAgree (Sys.initial.run as).db xid ↔
      ScanCondition (Sys.initial.run as).db xid :=
  ⟨fun h => h.scanCondition (Sys.run_sound as) (Sys.running_ne_zero hrun) hrun,
    fun h => h.scansAgree (Sys.run_sound as) (Sys.running_ne_zero hrun) hrun⟩

/-- A node that a transaction inserted and committed, and a later
transaction. -/
def insertedRun : List Step :=
  [.begin 10, .addNode 10 0 1 .none, .commit 10, .begin 20]

theorem scans_agree_inserted : ScansAgree (Sys.initial.run insertedRun).db 20 := by
  refine (scans_agree_iff insertedRun 20 (by decide)).mpr ?_
  refine ⟨⟨?_, ?_, ?_⟩, ⟨?_, ?_, ?_⟩, ?_⟩
  · rintro (_ | id) hu
    · decide
    · cases hu
  · exact fun _ _ _ => ⟨0, by decide, rfl⟩
  · rintro (_ | c) hc _
    · rfl
    · have hsize : (Sys.initial.run insertedRun).db.nodes.size = 1 := rfl
      simp only [hsize, nodesPerChunk] at hc
      omega
  · intro id hu; cases hu
  · intro id hu; cases hu
  · intro c hc; cases hc
  · intro i _ hu; cases hu

/-- A node that transaction 30 deletes while the older transaction 20
runs. -/
def deletedUnderReaderRun : List Step :=
  [.begin 10, .addNode 10 0 1 .none, .commit 10, .begin 20, .begin 30,
    .deleteNode 30 0, .commit 30]

/-- Transaction 20 still reads the node by its id, but the scan passes over
its slot. -/
theorem scan_skips_readable_node :
    ((Sys.initial.run deletedUnderReaderRun).db.txs 20).running = true ∧
      ¬ ScansAgree (Sys.initial.run deletedUnderReaderRun).db 20 := by
  refine ⟨by decide, fun h => ?_⟩
  have hread : Returns (nodeTable.byId 20 0)
      (Sys.initial.run deletedUnderReaderRun).db ⟨0, .slot⟩ := ⟨_, rfl⟩
  have hmem := (h.nodes.mem ⟨0, .slot⟩).mpr ⟨hread, _, rfl, rfl⟩
  exact absurd hmem (by decide)

end Poseidon
