import Poseidon.Analytics.ShortestPath
import Poseidon.Lib.LinkPath
import Poseidon.Lib.Wp
import Poseidon.Proofs.Reads

/-!
# The graph that a transaction sees

A search reads nodes and relationships, and each read leaves a trace: the
record is prepared and its read timestamp raised. That changes nothing of
what the transaction sees, so what a search finds can be said about the state
it began in. There the graph of a transaction has the nodes that
`node_by_id` returns, and the relationships that `rship_by_id` returns and
the walks hand on. Its adjacency lists are well formed if the lists of a node
can be followed to their end, and run through its relationships.
-/

namespace Poseidon

open Wp

/-! ## Reads -/

theorem Record.recordRead_recordRead {α : Type} (r : Record α) (xid : Nat) :
    (r.recordRead xid).recordRead xid = r.recordRead xid := by
  rw [Record.recordRead, Record.recordRead]
  have hrts : ¬((r.obj.prepare.setRts xid).rts < xid) := by
    rw [Obj.setRts_rts]
    exact Nat.not_lt.mpr (Nat.le_max_right ..)
  have hprep : (r.obj.prepare.setRts xid).prepare = r.obj.prepare.setRts xid :=
    Obj.prepare_eq (Obj.setRts_prepared ..)
  simp only [hprep]
  rw [Obj.setRts.eq_def xid (r.obj.prepare.setRts xid), if_neg hrts]

/-- What a read of a record returns, and the version it refers to. -/
def Table.seen {α : Type} (t : Table α) (s : GraphDb) (xid id : Nat) : Option (Loc × Obj α) :=
  if (t.record s id).used then
    match ((t.record s id).recordRead xid).getValidVersion xid with
    | .ok l => (((t.record s id).recordRead xid).deref l).map fun o => (l, o)
    | .error _ => none
  else none

/-- A reference whose record has been read. -/
def Table.HasRead {α : Type} (t : Table α) (s : GraphDb) (xid : Nat) (n : Ref) (o : Obj α) : Prop :=
  (t.record s n.id).recordRead xid = t.record s n.id ∧ (t.record s n.id).deref n.loc = some o

/-- Some records have been read. -/
structure Reads (xid : Nat) (s s' : GraphDb) : Prop where
  nodes : ∀ id, nodeTable.record s' id = nodeTable.record s id ∨
    nodeTable.record s' id = (nodeTable.record s id).recordRead xid
  rships : ∀ id, rshipTable.record s' id = rshipTable.record s id ∨
    rshipTable.record s' id = (rshipTable.record s id).recordRead xid
  size : s.rships.size ≤ s'.rships.size
  txs : s'.txs = s.txs

/-- The part of `Reads` about one table. -/
def Table.Kept {α : Type} (t : Table α) (xid : Nat) (s s' : GraphDb) : Prop :=
  ∀ id, t.record s' id = t.record s id ∨ t.record s' id = (t.record s id).recordRead xid

section

variable {α : Type} {t : Table α} {xid id : Nat} {s s' s'' : GraphDb} {l : Loc} {o : Obj α}
  {n : Ref}

theorem Table.Kept.trans (h : t.Kept xid s s') (h' : t.Kept xid s' s'') : t.Kept xid s s'' := by
  intro id
  rcases h id with h | h <;> rcases h' id with h' | h'
  · exact .inl (h'.trans h)
  · exact .inr (by rw [h', h])
  · exact .inr (by rw [h', h])
  · exact .inr (by rw [h', h, Record.recordRead_recordRead])

/-- Reads do not change what is seen. -/
theorem Table.Kept.seen (h : t.Kept xid s s') : t.seen s' xid id = t.seen s xid id := by
  rw [Table.seen, Table.seen]
  rcases h id with h | h
  · rw [h]
  · rw [h, Record.recordRead_recordRead, Record.recordRead_used]

theorem Table.Kept.holds (h : t.Kept xid s s') (hn : t.HasRead s xid n o) :
    t.HasRead s' xid n o := by
  have hrec : t.record s' n.id = t.record s n.id := by
    rcases h n.id with h | h
    · exact h
    · rw [h, hn.1]
  rw [Table.HasRead, hrec]
  exact hn

theorem Table.read_ok (hn : t.HasRead s xid n o) : t.read n s = .ok o s := by
  have hwp : wp (t.read n) (fun o' s' => o' = o ∧ s' = s) (fun _ _ => False) s := by
    simp only [Table.read, wp_bind, wp_get, hn.2, wp_pure]
    trivial
  obtain ⟨_, _, hx, rfl, rfl⟩ := wp_exists hwp
  exact hx

theorem Table.seen_iff : t.seen s xid id = some (l, o) ↔ (t.record s id).used = true ∧
    ((t.record s id).recordRead xid).getValidVersion xid = .ok l ∧
      ((t.record s id).recordRead xid).deref l = some o := by
  rw [Table.seen]
  by_cases hu : (t.record s id).used = true
  · rw [if_pos hu]
    cases ((t.record s id).recordRead xid).getValidVersion xid with
    | error e => simp
    | ok l' =>
        simp only [Option.map_eq_some_iff, Prod.mk.injEq, Except.ok.injEq]
        constructor
        · rintro ⟨o', ho, rfl, rfl⟩
          exact ⟨hu, rfl, ho⟩
        · rintro ⟨-, rfl, ho⟩
          exact ⟨o, ho, rfl, rfl⟩
  · simp [hu]

/-- A read of a record that is seen. -/
theorem Table.byId_ok (hrun : (s.txs xid).running = true) (h : t.seen s xid id = some (l, o)) :
    t.byId xid id s = .ok ⟨id, l⟩ (t.setRecord id ((t.record s id).recordRead xid) s) := by
  obtain ⟨hu, hl, -⟩ := Table.seen_iff.mp h
  have hwp : wp (t.byId xid id) (fun n s' => n = ⟨id, l⟩ ∧
      s' = t.setRecord id ((t.record s id).recordRead xid) s) (fun _ _ => False) s := by
    simp only [Table.byId, wp_bind, wp_checkTxContext, Table.getRecord, wp_get, hrun,
      wp_ofExcept, wp_modify, wp_pure, Vec.get]
    have hrec : (t.vec s).slots id = t.record s id := rfl
    rw [hrec, if_pos hu]
    rw [Record.recordRead] at hl
    simp only [Except.ok.injEq, forall_eq', hl, reduceCtorEq, false_implies, implies_true,
      and_true]
    exact fun _ => ⟨trivial, rfl⟩
  obtain ⟨_, _, hx, rfl, rfl⟩ := wp_exists hwp
  exact hx

end

section

variable {xid id : Nat} {s s' s'' : GraphDb} {l : Loc}

theorem Reads.refl (xid : Nat) (s : GraphDb) : Reads xid s s :=
  ⟨fun _ => .inl rfl, fun _ => .inl rfl, Nat.le_refl _, rfl⟩

theorem Reads.keptNodes (h : Reads xid s s') : nodeTable.Kept xid s s' := h.nodes

theorem Reads.keptRships (h : Reads xid s s') : rshipTable.Kept xid s s' := h.rships

theorem Reads.trans (h : Reads xid s s') (h' : Reads xid s' s'') : Reads xid s s'' :=
  ⟨h.keptNodes.trans h'.keptNodes, h.keptRships.trans h'.keptRships, Nat.le_trans h.size h'.size,
    h'.txs.trans h.txs⟩

theorem nodeById_ok {o : Obj NodeData} (hrun : (s.txs xid).running = true)
    (h : nodeTable.seen s xid id = some (l, o)) :
    ∃ s', nodeById xid id s = .ok ⟨id, l⟩ s' ∧ Reads xid s s' ∧
      nodeTable.HasRead s' xid ⟨id, l⟩ o := by
  obtain ⟨-, -, ho⟩ := Table.seen_iff.mp h
  have hrec : ∀ i, nodeTable.record (nodeTable.setRecord id
      ((nodeTable.record s id).recordRead xid) s) i =
        if i = id then (nodeTable.record s id).recordRead xid else nodeTable.record s i :=
    fun i => rfl
  refine ⟨_, Table.byId_ok hrun h, ⟨fun i => ?_, fun i => .inl rfl, Nat.le_refl _, rfl⟩, ?_, ?_⟩
  · rw [hrec]
    by_cases hi : i = id
    · rw [if_pos hi, hi]
      exact .inr rfl
    · rw [if_neg hi]
      exact .inl rfl
  · rw [hrec, if_pos rfl, Record.recordRead_recordRead]
  · rw [hrec, if_pos rfl]
    exact ho

theorem rshipById_ok {o : Obj RshipData} (hrun : (s.txs xid).running = true)
    (h : rshipTable.seen s xid id = some (l, o)) :
    ∃ s', rshipById xid id s = .ok ⟨id, l⟩ s' ∧ Reads xid s s' ∧
      rshipTable.HasRead s' xid ⟨id, l⟩ o := by
  obtain ⟨-, -, ho⟩ := Table.seen_iff.mp h
  have hrec : ∀ i, rshipTable.record (rshipTable.setRecord id
      ((rshipTable.record s id).recordRead xid) s) i =
        if i = id then (rshipTable.record s id).recordRead xid else rshipTable.record s i :=
    fun i => rfl
  refine ⟨_, Table.byId_ok hrun h, ⟨fun i => .inl rfl, fun i => ?_, Nat.le_max_left .., rfl⟩,
    ?_, ?_⟩
  · rw [hrec]
    by_cases hi : i = id
    · rw [if_pos hi, hi]
      exact .inr rfl
    · rw [if_neg hi]
      exact .inl rfl
  · rw [hrec, if_pos rfl, Record.recordRead_recordRead]
  · rw [hrec, if_pos rfl]
    exact ho

end

/-! ## The graph -/

namespace GraphDb

variable (s : GraphDb) (xid : Nat)

/-- `node_by_id` returns the node. -/
def HasNode (v : Nat) : Prop := ∃ l o, nodeTable.seen s xid v = some (l, o)

/-- `rship_by_id` returns the relationship, and a walk that meets it hands it
on. -/
def HasRship (r : Ref) (d : RshipData) : Prop :=
  ∃ o, rshipTable.seen s xid r.id = some (r.loc, o) ∧ o.isValid = true ∧ o.data = d

/-- The link of a list to the next relationship, in the version that is
read. -/
def nextSeen (next : RshipData → Nat) (r : Nat) : Option Nat :=
  (rshipTable.seen s xid r).map fun e => next e.2.data

/-- A list of the node `v` runs through the relationships with `v` at one
end. -/
def ListOf (next : RshipData → Nat) (node : RshipData → Nat) (v head : Nat) : Prop :=
  ∃ rs, LinkPath (s.nextSeen xid next) UNKNOWN head rs ∧
    ∀ r d, s.HasRship xid r d → (node d = v ↔ r.id ∈ rs)

/-- The transaction runs, the relationships that it sees join nodes that it
sees, and both lists of each node are well formed. -/
structure VisibleGraph : Prop where
  running : (s.txs xid).running = true
  nodeSlots : ∀ id, (nodeTable.record s id).used = true → id < s.nodes.size
  rshipSlots : ∀ id, (rshipTable.record s id).used = true → id < s.rships.size
  ends : ∀ r d, s.HasRship xid r d → s.HasNode xid d.srcNode ∧ s.HasNode xid d.destNode
  outgoing : ∀ v l o, nodeTable.seen s xid v = some (l, o) →
    s.ListOf xid RshipData.nextSrcRship RshipData.srcNode v o.data.fromRshipList
  incoming : ∀ v l o, nodeTable.seen s xid v = some (l, o) →
    s.ListOf xid RshipData.nextDestRship RshipData.destNode v o.data.toRshipList

/-- A relationship leads from `v` to `w`: forwards, or backwards if both
directions are followed. -/
def LeadsTo (both : Bool) (d : RshipData) (v w : Nat) : Prop :=
  (d.srcNode = v ∧ d.destNode = w) ∨ (both = true ∧ d.destNode = v ∧ d.srcNode = w)

/-- The link is an accepted relationship from `v`. -/
def HasLink (both : Bool) (rpred : RshipPredicate) (v : Nat) (l : Link) : Prop :=
  s.HasRship xid l.ref l.data ∧ rpred l.ref l.data = true ∧ LeadsTo both l.data v l.nid

/-- One accepted relationship leads from `v` to `w`. -/
def Follows (both : Bool) (rpred : RshipPredicate) (v w : Nat) : Prop :=
  ∃ l, s.HasLink xid both rpred v l ∧ l.nid = w

end GraphDb

section

variable {xid : Nat} {s s' : GraphDb} {want : Obj RshipData → Bool} {next : RshipData → Nat}

/-- The references of a list that are handed on. -/
def GraphDb.delivered (s : GraphDb) (xid : Nat) (want : Obj RshipData → Bool) (rs : List Nat) :
    List (Ref × Obj RshipData) :=
  rs.filterMap fun r => (rshipTable.seen s xid r).bind fun e =>
    if want e.2 then some (⟨r, e.1⟩, e.2) else none

/-- A walk along a well-formed list. -/
theorem foreachRelationship_ok {fuel rid : Nat} {rs : List Nat}
    (hrun : (s.txs xid).running = true)
    (hpath : LinkPath (s.nextSeen xid next) UNKNOWN rid rs) (hfuel : rs.length ≤ fuel) :
    ∃ s', foreachRelationship xid want next fuel rid s =
        .ok ((s.delivered xid want rs).map Prod.fst) s' ∧ Reads xid s s' ∧
      ∀ e ∈ s.delivered xid want rs, rshipTable.HasRead s' xid e.1 e.2 := by
  induction fuel generalizing rid rs s with
  | zero =>
      obtain rfl := List.length_eq_zero_iff.mp (Nat.le_zero.mp hfuel)
      obtain rfl := hpath.eq_nil_iff.mp rfl
      refine ⟨s, ?_, .refl xid s, fun e he => by cases he⟩
      rw [foreachRelationship, if_pos rfl]
      rfl
  | succ fuel ih =>
      cases hpath with
      | nil =>
          refine ⟨s, ?_, .refl xid s, fun e he => by cases he⟩
          rw [foreachRelationship, if_pos rfl]
          rfl
      | @cons _ j rs hrid hnext hrest =>
          obtain ⟨e, he, rfl⟩ := Option.map_eq_some_iff.mp hnext
          obtain ⟨l, o⟩ := e
          obtain ⟨s1, hread, hreads, hholds⟩ := rshipById_ok hrun he
          have hpath1 : LinkPath (s1.nextSeen xid next) UNKNOWN (next o.data) rs :=
            hrest.congr fun r _ => by
              rw [GraphDb.nextSeen, GraphDb.nextSeen, hreads.keptRships.seen]
          have hdel : s1.delivered xid want rs = s.delivered xid want rs := by
            simp only [GraphDb.delivered, hreads.keptRships.seen]
          obtain ⟨s2, hwalk, hreads2, hholds2⟩ := ih (hreads.txs ▸ hrun) hpath1
            (Nat.le_of_succ_le_succ hfuel)
          rw [hdel] at hwalk hholds2
          have hcons : s.delivered xid want (rid :: rs) =
              (if want o then [(⟨rid, l⟩, o)] else []) ++ s.delivered xid want rs := by
            rw [GraphDb.delivered, List.filterMap_cons, he]
            simp only [Option.bind_some]
            by_cases hwant : want o = true
            · rw [if_pos hwant, if_pos hwant]
              rfl
            · rw [if_neg hwant, if_neg hwant]
              rfl
          have hwp : wp (foreachRelationship xid want next (fuel + 1) rid)
              (fun refs s' => refs = (s.delivered xid want (rid :: rs)).map Prod.fst ∧ s' = s2)
              (fun _ _ => False) s := by
            rw [foreachRelationship, if_neg hrid, wp_bind]
            refine wp_of_ok hread ?_
            rw [wp_bind]
            refine wp_of_ok (Table.read_ok hholds) ?_
            rw [wp_bind]
            refine wp_of_ok hwalk ?_
            rw [wp_pure, hcons, List.map_append]
            split <;> exact ⟨rfl, rfl⟩
          obtain ⟨_, _, hx, hb, hs⟩ := wp_exists hwp
          rw [hb, hs] at hx
          refine ⟨s2, hx, hreads.trans hreads2, fun e he => ?_⟩
          rw [hcons] at he
          rcases List.mem_append.mp he with he | he
          · split at he
            · rw [List.mem_singleton.mp he]
              exact hreads2.keptRships.holds hholds
            · cases he
          · exact hholds2 e he

/-- The fields of the relationships that were handed on. -/
theorem mapM_read_ok {β : Type} {f : Ref → RshipData → β} {es : List (Ref × Obj RshipData)}
    (h : ∀ e ∈ es, rshipTable.HasRead s xid e.1 e.2) :
    ((es.map Prod.fst).mapM fun r => do
      let o ← rshipTable.read r
      return f r o.data : DbM (List β)) s = .ok (es.map fun e => f e.1 e.2.data) s := by
  induction es with
  | nil => rfl
  | cons e es ih =>
      have hwp : wp ((((e :: es).map Prod.fst).mapM fun r => do
          let o ← rshipTable.read r
          return f r o.data) : DbM (List β))
          (fun bs s' => bs = (e :: es).map (fun e => f e.1 e.2.data) ∧ s' = s)
          (fun _ _ => False) s := by
        rw [List.map_cons, List.mapM_cons, wp_bind, wp_bind]
        refine wp_of_ok (Table.read_ok (h e (List.mem_cons_self ..))) ?_
        rw [wp_pure, wp_bind]
        refine wp_of_ok (ih fun e' he' => h e' (List.mem_cons_of_mem _ he')) ?_
        exact ⟨rfl, rfl⟩
      obtain ⟨_, _, hx, rfl, rfl⟩ := wp_exists hwp
      exact hx

theorem GraphDb.mem_delivered {rs : List Nat} {e : Ref × Obj RshipData} :
    e ∈ s.delivered xid want rs ↔ e.1.id ∈ rs ∧
      rshipTable.seen s xid e.1.id = some (e.1.loc, e.2) ∧ want e.2 = true := by
  rw [GraphDb.delivered, List.mem_filterMap]
  constructor
  · rintro ⟨r, hr, he⟩
    obtain ⟨x, hx, he⟩ := Option.bind_eq_some_iff.mp he
    split at he
    · rename_i hwant
      cases he
      exact ⟨hr, hx, hwant⟩
    · cases he
  · obtain ⟨⟨id, loc⟩, o⟩ := e
    rintro ⟨hr, hx, hwant⟩
    refine ⟨id, hr, ?_⟩
    rw [hx, Option.bind_some, if_pos hwant]

/-- A list is short enough for the fuel of a walk. -/
theorem GraphDb.VisibleGraph.length_le {head : Nat} {rs : List Nat} (hg : s.VisibleGraph xid)
    (hpath : LinkPath (s.nextSeen xid next) UNKNOWN head rs) : rs.length ≤ s.rships.size := by
  refine hpath.length_le fun r hr => hg.rshipSlots r ?_
  have hsome := hpath.next_isSome r hr
  rw [GraphDb.nextSeen, Option.isSome_map] at hsome
  obtain ⟨⟨l, o⟩, hlo⟩ := Option.isSome_iff_exists.mp hsome
  exact (Table.seen_iff.mp hlo).1

variable {v : Nat} {l : Loc} {o : Obj NodeData}

/-- The relationships that a walk over one list of a node hands on. -/
theorem links_ok {head : Nat} {far : RshipData → Nat} {rs : List Nat} {n : Ref}
    {list : NodeData → Nat} (hg : s.VisibleGraph xid) (hreads : Reads xid s s')
    (hpath : LinkPath (s.nextSeen xid next) UNKNOWN head rs)
    (hhold : nodeTable.HasRead s' xid n o) (hhead : list o.data = head) :
    ∃ s'', Reads xid s' s'' ∧ (do
      let o ← nodeTable.read n
      let refs ← foreachRelationship xid Obj.isValid next ((← get).rships.size + 1) (list o.data)
      refs.mapM fun r => do
        let o ← rshipTable.read r
        return (⟨far o.data, r, o.data⟩ : Link) : DbM (List Link)) s' =
      .ok ((s.delivered xid Obj.isValid rs).map fun e => ⟨far e.2.data, e.1, e.2.data⟩) s'' := by
  have hpath' : LinkPath (s'.nextSeen xid next) UNKNOWN head rs :=
    hpath.congr fun r _ => by
      rw [GraphDb.nextSeen, GraphDb.nextSeen, hreads.keptRships.seen]
  have hfuel : rs.length ≤ s'.rships.size + 1 :=
    Nat.le_succ_of_le (Nat.le_trans (hg.length_le hpath) hreads.size)
  obtain ⟨s2, hwalk, hreads2, hholds⟩ :=
    @foreachRelationship_ok _ _ Obj.isValid _ _ _ _ (hreads.txs ▸ hg.running) hpath' hfuel
  have hdel : s'.delivered xid Obj.isValid rs = s.delivered xid Obj.isValid rs := by
    simp only [GraphDb.delivered, hreads.keptRships.seen]
  rw [hdel] at hwalk hholds
  refine ⟨s2, hreads2, ?_⟩
  have hwp : wp (do
      let o ← nodeTable.read n
      let refs ← foreachRelationship xid Obj.isValid next ((← get).rships.size + 1) (list o.data)
      refs.mapM fun r => do
        let o ← rshipTable.read r
        return (⟨far o.data, r, o.data⟩ : Link) : DbM (List Link))
      (fun ls s'' => ls = ((s.delivered xid Obj.isValid rs).map fun e =>
        ⟨far e.2.data, e.1, e.2.data⟩) ∧ s'' = s2) (fun _ _ => False) s' := by
    rw [wp_bind]
    refine wp_of_ok (Table.read_ok hhold) ?_
    rw [hhead, wp_bind, wp_get, wp_bind]
    refine wp_of_ok hwalk ?_
    exact wp_of_ok (mapM_read_ok (f := fun r d => (⟨far d, r, d⟩ : Link)) hholds) ⟨rfl, rfl⟩
  obtain ⟨_, _, hx, hb, hs⟩ := wp_exists hwp
  rw [hb, hs] at hx
  exact hx

/-- The links of a node over one list. -/
theorem mem_links {rs : List Nat} {far : RshipData → Nat} {l : Link} :
    l ∈ ((s.delivered xid Obj.isValid rs).map fun e => (⟨far e.2.data, e.1, e.2.data⟩ : Link)) ↔
      l.ref.id ∈ rs ∧ s.HasRship xid l.ref l.data ∧ far l.data = l.nid := by
  rw [List.mem_map]
  constructor
  · rintro ⟨e, he, rfl⟩
    obtain ⟨hr, hseen, hvalid⟩ := GraphDb.mem_delivered.mp he
    exact ⟨hr, ⟨e.2, hseen, hvalid, rfl⟩, rfl⟩
  · obtain ⟨nid, ref, data⟩ := l
    rintro ⟨hr, ⟨o, hseen, hvalid, hdata⟩, hfar⟩
    simp only [] at hr hseen hdata hfar
    exact ⟨(ref, o), GraphDb.mem_delivered.mpr ⟨hr, hseen, hvalid⟩, by rw [hdata, hfar]⟩

/-- A relationship is handed on once. -/
theorem links_nodup {rs : List Nat} (far : RshipData → Nat) (hrs : rs.Nodup) :
    ((s.delivered xid Obj.isValid rs).map fun e =>
      (⟨far e.2.data, e.1, e.2.data⟩ : Link)).Nodup := by
  have hdel : (s.delivered xid Obj.isValid rs).Nodup := by
    refine hrs.filterMap fun r r' e he he' => ?_
    obtain ⟨x, -, he⟩ := Option.bind_eq_some_iff.mp he
    obtain ⟨x', -, he'⟩ := Option.bind_eq_some_iff.mp he'
    split at he
    · split at he'
      · have heq := (Option.some.inj he).trans (Option.some.inj he').symm
        exact congrArg Ref.id (Prod.ext_iff.mp heq).1
      · cases he'
    · cases he
  refine hdel.map_on fun e he e' he' heq => ?_
  have href : e.1 = e'.1 := (Link.mk.injEq .. ▸ heq).2.1
  obtain ⟨-, hseen, -⟩ := GraphDb.mem_delivered.mp he
  obtain ⟨-, hseen', -⟩ := GraphDb.mem_delivered.mp he'
  rw [href, hseen'] at hseen
  exact Prod.ext href (Prod.ext_iff.mp (Option.some.inj hseen)).2.symm

end

/-- What `node_by_id` returns for a node. -/
def GraphDb.nodeRef (s : GraphDb) (xid v : Nat) : Ref :=
  ⟨v, ((nodeTable.seen s xid v).map Prod.fst).getD .slot⟩

/-- What the searches read at a node, in all states that their reads lead
to. -/
structure GraphDb.Presents (s : GraphDb) (xid : Nat) (both : Bool) (rpred : RshipPredicate)
    (adj : Nat → List Link) : Prop where
  expand : ∀ v, s.HasNode xid v → ∀ s1, Reads xid s s1 → ∃ s2, Reads xid s s2 ∧
    ∀ {β : Type} (next : Ref → List Link → DbM β), (do
      let n ← nodeById xid v
      let links ← acceptedLinks xid both rpred n
      next n links) s1 = next (s.nodeRef xid v) (adj v) s2
  mem : ∀ v, s.HasNode xid v → ∀ l, l ∈ adj v ↔ s.HasLink xid both rpred v l
  lists : ∀ v, s.HasNode xid v → ∃ out inc, adj v = out ++ inc ∧ out.Nodup ∧ inc.Nodup ∧
    (∀ l ∈ out, l.data.srcNode = v ∧ l.data.destNode = l.nid) ∧
      ∀ l ∈ inc, l.data.destNode = v ∧ l.data.srcNode = l.nid

/-- A visible graph presents its links. -/
theorem GraphDb.VisibleGraph.presents {s : GraphDb} {xid : Nat} (hg : s.VisibleGraph xid)
    (both : Bool) (rpred : RshipPredicate) : ∃ adj, s.Presents xid both rpred adj := by
  suffices h : ∀ v, ∃ links : List Link, s.HasNode xid v →
      (∀ s1, Reads xid s s1 → ∃ s2, Reads xid s s2 ∧
        ∀ {β : Type} (next : Ref → List Link → DbM β), (do
          let n ← nodeById xid v
          let links ← acceptedLinks xid both rpred n
          next n links) s1 = next (s.nodeRef xid v) links s2) ∧
      (∀ l, l ∈ links ↔ s.HasLink xid both rpred v l) ∧
      ∃ out inc, links = out ++ inc ∧ out.Nodup ∧ inc.Nodup ∧
        (∀ l ∈ out, l.data.srcNode = v ∧ l.data.destNode = l.nid) ∧
          ∀ l ∈ inc, l.data.destNode = v ∧ l.data.srcNode = l.nid by
    choose adj hadj using h
    exact ⟨adj, fun v hv => (hadj v hv).1, fun v hv => (hadj v hv).2.1,
      fun v hv => (hadj v hv).2.2⟩
  intro v
  by_cases hv : s.HasNode xid v
  · obtain ⟨loc, o, hseen⟩ := hv
    obtain ⟨out, hout, hmemOut⟩ := hg.outgoing v loc o hseen
    obtain ⟨inc, hinc, hmemInc⟩ := hg.incoming v loc o hseen
    have hnode : s.nodeRef xid v = ⟨v, loc⟩ := by
      rw [GraphDb.nodeRef, hseen]
      rfl
    let outLinks : List Link := (s.delivered xid Obj.isValid out).map fun e =>
      ⟨e.2.data.destNode, e.1, e.2.data⟩
    let incLinks : List Link := (s.delivered xid Obj.isValid inc).map fun e =>
      ⟨e.2.data.srcNode, e.1, e.2.data⟩
    refine ⟨(outLinks ++ if both then incLinks else []).filter fun l => rpred l.ref l.data,
      fun _ => ⟨fun s1 hs1 => ?_, fun l => ?_, _, _, List.filter_append .., ?_, ?_, fun l hl => ?_,
        fun l hl => ?_⟩⟩
    · have hrun1 : (s1.txs xid).running = true := hs1.txs ▸ hg.running
      obtain ⟨s2, hread, hreads2, hhold2⟩ := nodeById_ok hrun1 (hs1.keptNodes.seen.trans hseen)
      obtain ⟨s3, hreads3, hlinks3⟩ := @links_ok _ _ _ _ _ _ RshipData.destNode _ _
        NodeData.fromRshipList hg (hs1.trans hreads2) hout hhold2 rfl
      have hhold3 := hreads3.keptNodes.holds hhold2
      have hreads : Reads xid s s3 := (hs1.trans hreads2).trans hreads3
      obtain ⟨s4, hreads4, hlinks4⟩ := @links_ok _ _ _ _ _ _ RshipData.srcNode _ _
        NodeData.toRshipList hg hreads hinc hhold3 rfl
      have hout3 : outgoingLinks xid ⟨v, loc⟩ s2 = .ok outLinks s3 := hlinks3
      have hinc4 : incomingLinks xid ⟨v, loc⟩ s3 = .ok incLinks s4 := hlinks4
      have hacc : acceptedLinks xid both rpred ⟨v, loc⟩ s2 =
          .ok ((outLinks ++ if both then incLinks else []).filter fun l => rpred l.ref l.data)
            (if both then s4 else s3) := by
        rw [acceptedLinks, bind_ok hout3]
        cases both with
        | false => rfl
        | true => exact bind_ok hinc4
      refine ⟨if both then s4 else s3, ?_, fun {β} next => ?_⟩
      · split
        · exact hreads.trans hreads4
        · exact hreads
      · rw [bind_ok hread, bind_ok hacc, hnode]
    · rw [List.mem_filter, List.mem_append]
      have hfar : l ∈ (if both then incLinks else []) ↔ both = true ∧ l ∈ incLinks := by
        cases both <;> simp
      rw [hfar, mem_links, mem_links]
      constructor
      · rintro ⟨⟨hr, hrship, hnid⟩ | ⟨hboth, hr, hrship, hnid⟩, haccept⟩
        · exact ⟨hrship, haccept, .inl ⟨(hmemOut _ _ hrship).mpr hr, hnid⟩⟩
        · exact ⟨hrship, haccept, .inr ⟨hboth, (hmemInc _ _ hrship).mpr hr, hnid⟩⟩
      · rintro ⟨hrship, haccept, ⟨hsrc, hdest⟩ | ⟨hboth, hdest, hsrc⟩⟩
        · exact ⟨.inl ⟨(hmemOut _ _ hrship).mp hsrc, hrship, hdest⟩, haccept⟩
        · exact ⟨.inr ⟨hboth, (hmemInc _ _ hrship).mp hdest, hrship, hsrc⟩, haccept⟩
    · exact (links_nodup _ hout.nodup).filter _
    · refine List.Nodup.filter _ ?_
      split
      · exact links_nodup _ hinc.nodup
      · exact List.nodup_nil
    · obtain ⟨hr, hrship, hnid⟩ := mem_links.mp (List.mem_filter.mp hl).1
      exact ⟨(hmemOut _ _ hrship).mpr hr, hnid⟩
    · have hmem := (List.mem_filter.mp hl).1
      split at hmem
      · obtain ⟨hr, hrship, hnid⟩ := mem_links.mp hmem
        exact ⟨(hmemInc _ _ hrship).mpr hr, hnid⟩
      · cases hmem
  · exact ⟨[], fun h => absurd h hv⟩

end Poseidon
