import Mathlib.Tactic.MkIffOfInductiveProp
import Poseidon.Proofs.IndexEntries
import Poseidon.Proofs.Runs
import Poseidon.Proofs.Scan

/-!
# Commits and the indexes

A commit with indexes changes the store as a commit without them does
(`commitDirtyNodeIndexed_spec`), so what `Commit` says about the loop over
the nodes holds here too. Beside it runs the index work of each visit. While
the loop is under way some nodes are published and the others are not;
`midCommit` says which version each node has at that moment, and the indexes
are right for these versions before and after every visit.

`CommitFits` is what the code relies on, visit by visit: a value that is
written must be free at that moment, not only before or after the commit, so
the order of the dirty list matters. `CommitErases` is what it relies on from
the trees: each erases what it is asked to.
-/

namespace Poseidon

open Wp History

variable {B : KeyMap Nat Nat} {d : Dict}

/-! ## The calls with their indexes -/

theorem wp_onDb {β : Type} {x : DbM β} {Q : β → IndexedDb B → Prop}
    {E : Err → IndexedDb B → Prop} {s : IndexedDb B} :
    wp (onDb x) Q E s ↔
      wp x (fun b db => Q b { s with db := db }) (fun e db => E e { s with db := db }) s.db := by
  simp only [wp, onDb]
  cases x s.db with
  | ok b db => rfl
  | error e db => rfl

/-- The work on an index within a call. -/
theorem Maintains.wp_work {ix ix' : IndexMap B} {R : String → Nat → Nat → Prop}
    {found : Option (String × Nat)} {work : String × Nat → IxM B Unit} {idx : String × Nat}
    {Q : Unit → IndexedDb B → Prop} {E : Err → IndexedDb B → Prop} {s : IndexedDb B}
    (h : Maintains ix ix' R found work) (hidx : found = some idx) (hs : s.indexes = ix)
    (hQ : Q () { s with indexes := ix' }) : wp (work idx) Q E s := by
  rw [wp, h.works idx hidx s hs]
  exact hQ

/-- The index work of one visit makes `ix'` of the indexes, which are then right
for `R`. -/
inductive IndexWork (d : Dict) (ix ix' : IndexMap B) (stored : Nat → Except Err (List PItem))
    (r : Record NodeData) (R : String → Nat → Nat → Prop) : Prop
  | skip (hc : r.obj.cts ≠ INF) (heq : ix' = ix) (h : Indexed ix R)
  | insert {dn : DirtyObject NodeData} {rest : List (DirtyObject NodeData)}
      (hc : r.obj.cts = INF) (hl : r.dirtyList = dn :: rest) (hup : dn.updateMode = false)
      (h : Maintains ix ix' R (getIndex d ix dn.elem.data.nodeLabel dn.properties)
        (indexInsert · dn.elem.data.id dn.properties))
  | delete {dn : DirtyObject NodeData} {rest : List (DirtyObject NodeData)} {items : List PItem}
      (hc : r.obj.cts = INF) (hl : r.dirtyList = dn :: rest) (hup : dn.updateMode = true)
      (hdel : dn.elem.bts = dn.elem.cts) (hst : stored r.obj.data.propertyList = .ok items)
      (h : Maintains ix ix' R (getIndex d ix dn.elem.data.nodeLabel items) (indexDelete · items))
  | update {dn old : DirtyObject NodeData} {rest : List (DirtyObject NodeData)}
      (hc : r.obj.cts = INF) (hl : r.dirtyList = dn :: old :: rest)
      (hup : dn.updateMode = true) (hne : dn.elem.bts ≠ dn.elem.cts)
      (h : Maintains ix ix' R (getIndex d ix dn.elem.data.nodeLabel dn.properties)
        (indexUpdate · dn.elem.data.id old.properties dn.properties))

theorem Table.wp_getRecord_iff {α : Type} {t : Table α} {id : Nat} {db : GraphDb}
    {Q : Record α → GraphDb → Prop} {E : Err → GraphDb → Prop} :
    wp (t.getRecord id) Q E db ↔
      if (t.record db id).used = true then Q (t.record db id) db else E .unknownId db := by
  simp only [Table.getRecord, wp_bind, wp_get, wp_ofExcept, Vec.get]
  rw [show (t.vec db).slots id = t.record db id from rfl]
  split
  · simp
  · simp

theorem IndexWork.indexed {ix ix' : IndexMap B} {stored : Nat → Except Err (List PItem)}
    {r : Record NodeData} {R : String → Nat → Nat → Prop} (h : IndexWork d ix ix' stored r R) :
    SameNames ix ix' ∧ Indexed ix' R := by
  cases h with
  | skip hc heq h =>
      subst heq
      exact ⟨.refl _, h⟩
  | insert hc hl hup h => exact ⟨h.names, h.indexed⟩
  | delete hc hl hup hdel hst h => exact ⟨h.names, h.indexed⟩
  | update hc hl hup hne h => exact ⟨h.names, h.indexed⟩

theorem commitDirtyNodeIndexed_spec {T id : Nat} {s : IndexedDb B} {ix' : IndexMap B}
    {R : String → Nat → Nat → Prop} {P : GraphDb → Prop}
    (hplain : wp (commitDirtyNode T id) (fun _ => P) (fun _ _ => False) s.db)
    (hwork : IndexWork d s.indexes ix' s.db.nodeProperties.buildDirtyPropertyList
      (nodeTable.record s.db id) R) :
    wp (commitDirtyNodeIndexed d T id) (fun _ s' => P s'.db ∧ s'.indexes = ix')
      (fun _ _ => False) s := by
  simp only [commitDirtyNode, Table.commitDirty, wp_bind, Table.wp_getRecord_iff] at hplain
  simp only [commitDirtyNodeIndexed, wp_bind, wp_onDb, Table.wp_getRecord_iff]
  split at hplain
  · next hu =>
    rw [if_pos hu]
    cases hwork with
    | skip hc heq h =>
        rw [if_pos hc] at hplain ⊢
        simp only [wp_bind, wp_onDb, wp_modify, wp_pure] at hplain ⊢
        exact ⟨hplain, heq.symm⟩
    | insert hc hl hup h =>
        rw [if_neg (not_not.mpr hc)] at hplain ⊢
        simp only [hl, hup, Bool.not_false, if_true, wp_bind, wp_onDb, wp_modify,
          wp_get] at hplain ⊢
        refine wp_mono hplain (fun _ db1 hP => ?_) fun _ _ hF => hF
        split
        · next idx hidx =>
          rw [wp_bind]
          refine h.wp_work hidx rfl ?_
          simp only [wp_bind, wp_onDb, wp_modify]
          exact ⟨hP, trivial⟩
        · next hidx =>
          have hix := h.skips (Option.eq_none_iff_forall_ne_some.mpr hidx)
          simp only [wp_bind, wp_onDb, wp_modify]
          exact ⟨hP, hix.symm⟩
    | delete hc hl hup hdel hst h =>
        rw [if_neg (not_not.mpr hc)] at hplain ⊢
        simp only [hl, hup, hdel, Bool.not_true, Bool.false_eq_true, if_false, if_true, wp_bind,
          wp_onDb, wp_modify, wp_get, wp_ofExcept] at hplain ⊢
        obtain ⟨h1, h2⟩ := hplain
        refine ⟨fun b hb => ?_, h2⟩
        obtain ⟨h3, h4⟩ := h1 b hb
        refine ⟨fun items' hitems => ?_, h4⟩
        obtain ⟨h5, h6⟩ := h3 items' hitems
        obtain rfl := Except.ok.inj (hitems.symm.trans hst)
        split
        · next idx hidx =>
          rw [wp_bind]
          refine h.wp_work hidx rfl ?_
          simp only [wp_bind, wp_onDb, wp_modify, wp_get, wp_ofExcept]
          exact ⟨fun r' hr' => wp_mono (h5 r' hr') (fun _ _ hP => ⟨hP, trivial⟩)
            fun _ _ hF => hF, h6⟩
        · next hidx =>
          have hix := h.skips (Option.eq_none_iff_forall_ne_some.mpr hidx)
          simp only [wp_bind, wp_onDb, wp_modify, wp_get, wp_ofExcept]
          exact ⟨fun r' hr' => wp_mono (h5 r' hr') (fun _ _ hP => ⟨hP, hix.symm⟩)
            fun _ _ hF => hF, h6⟩
    | update hc hl hup hne h =>
        rw [if_neg (not_not.mpr hc)] at hplain ⊢
        simp only [hl, hup, hne, Bool.not_true, Bool.false_eq_true, if_false, wp_bind,
          wp_onDb, wp_modify, wp_get, wp_ofExcept] at hplain ⊢
        refine wp_mono hplain (fun _ db1 hP => ?_) fun _ _ hF => hF
        obtain ⟨h1, h2⟩ := hP
        split
        · next idx hidx =>
          rw [wp_bind]
          refine h.wp_work hidx rfl ?_
          simp only [wp_bind, wp_onDb, wp_modify, wp_get, wp_ofExcept]
          exact ⟨fun r' hr' => ⟨h1 r' hr', trivial⟩, h2⟩
        · next hidx =>
          have hix := h.skips (Option.eq_none_iff_forall_ne_some.mpr hidx)
          simp only [wp_bind, wp_onDb, wp_modify, wp_get, wp_ofExcept]
          exact ⟨fun r' hr' => ⟨h1 r' hr', hix.symm⟩, h2⟩
  · exact hplain.elim

/-! ## Versions of nodes -/

/-- The version that a slot holds. -/
def GraphDb.heldNode (s : GraphDb) (id : Nat) : Option LabelledItems :=
  if (nodeTable.record s id).used = true ∧ (nodeTable.record s id).obj.bts ≠ 0 ∧
      (nodeTable.record s id).obj.cts = INF then
    some ((nodeTable.record s id).obj.data.nodeLabel,
      (s.nodeProperties.buildDirtyPropertyList
        (nodeTable.record s id).obj.data.propertyList).toOption.getD [])
  else none

/-- The version that a commit is going to publish, `none` for a delete. -/
def GraphDb.dirtyNode (s : GraphDb) (id : Nat) : Option LabelledItems :=
  match (nodeTable.record s id).dirtyList with
  | [] => none
  | dn :: _ => if dn.elem.cts = INF then some (dn.elem.data.nodeLabel, dn.properties) else none

/-- The versions while a commit is under way: the nodes in `pre` are
published. -/
def GraphDb.midCommit (s : GraphDb) (pre : List Nat) (id : Nat) : Option LabelledItems :=
  if id ∈ pre then s.dirtyNode id else s.heldNode id

theorem GraphDb.versions_congr {s s' : GraphDb} (hn : s'.nodes = s.nodes)
    (hp : s'.nodeProperties = s.nodeProperties) :
    s'.heldNode = s.heldNode ∧ s'.dirtyNode = s.dirtyNode := by
  have hrec : ∀ id, nodeTable.record s' id = nodeTable.record s id := by
    intro id
    show s'.nodes.slots id = s.nodes.slots id
    rw [hn]
  refine ⟨funext fun id => ?_, funext fun id => ?_⟩
  · rw [GraphDb.heldNode, GraphDb.heldNode, hrec, hp]
  · rw [GraphDb.dirtyNode, GraphDb.dirtyNode, hrec]

theorem GraphDb.midCommit_congr {s s' : GraphDb} (hn : s'.nodes = s.nodes)
    (hp : s'.nodeProperties = s.nodeProperties) : s'.midCommit = s.midCommit := by
  obtain ⟨hheld, hdirty⟩ := GraphDb.versions_congr hn hp
  funext pre id
  rw [GraphDb.midCommit, GraphDb.midCommit, hheld, hdirty]

/-- The entries of the versions `cur`. -/
def Dict.holds (d : Dict) (cur : Nat → Option LabelledItems) : String → Nat → Nat → Prop :=
  fun name v id => ∃ c ∈ cur id, (name, v) ∈ d.entries c

/-- The newest version of a history. -/
def newestNode (H : Hist (Nat × Nat)) : Option LabelledItems :=
  match H with
  | (_, some c) :: _ => some (c.1.2, c.2)
  | _ => none

/-- A slot holds the newest version. -/
theorem SlotInv.heldNode {A : Nat → Prop} {top id : Nat} {H : Hist (Nat × Nat)}
    {n : Nat → Nat} {g : Prop} {s : GraphDb}
    (h : SlotInv nodeScheme A top H s.nodeProperties n g id (nodeTable.record s id)) :
    s.heldNode id = newestNode H := by
  have ended : (∀ e ∈ H.head?, e.2 = none) → newestNode H = none := by
    intro hend
    cases H with
    | nil => rfl
    | cons e H =>
        have he : e.2 = none := hend e rfl
        obtain ⟨T, c⟩ := e
        cases he
        rfl
  rw [GraphDb.heldNode]
  cases h.record.phase with
  | unused hp =>
      rw [if_neg (fun hh => by rw [hp.used] at hh; cases hh.1), ended hp.ended]
  | inserting hp => rw [if_neg (fun hh => hh.2.1 hp.bts), ended hp.ended]
  | live hp =>
      rw [if_pos ⟨hp.used, hp.bts_ne_zero h.record, hp.cts⟩, hp.head]
      have hst := hp.holds
      simp only [nodeScheme] at hst
      rw [hst]
      rfl
  | deleted hp =>
      have hlt := hp.cts_lt
      rw [if_neg (fun hh => by have := hh.2.2; omega), hp.head]
      rfl

/-! ## What the code relies on -/

/-- What the code relies on when it publishes version `dn` of node `id`, where
`cur` are the versions of the nodes in `used` at that moment. -/
@[mk_iff]
structure VisitFits (d : Dict) (ix : IndexMap B) (used : List Nat)
    (cur : Nat → Option LabelledItems) (id : Nat) (dn : DirtyObject NodeData) : Prop where
  free : dn.elem.cts = INF →
    ∀ e ∈ (d.hits ix (dn.elem.data.nodeLabel, dn.properties)).head?,
      ∀ j ∈ used, ∀ c ∈ cur j, j ≠ id → e ∉ d.entries c
  insert : dn.elem.cts = INF → cur id = none →
    (d.hits ix (dn.elem.data.nodeLabel, dn.properties)).tail = []
  update : dn.elem.cts = INF → ∀ old ∈ cur id,
    getIndex d ix old.1 old.2 = getIndex d ix dn.elem.data.nodeLabel dn.properties ∧
      (d.hits ix old).tail = (d.hits ix (dn.elem.data.nodeLabel, dn.properties)).tail
  delete : dn.elem.cts ≠ INF → ∀ old ∈ cur id,
    getIndex d ix dn.elem.data.nodeLabel old.2 = getIndex d ix old.1 old.2 ∧
      (d.hits ix old).tail = []

/-- The same for the visits of a commit, in the order in which it makes
them. A second visit of a node finds nothing to do. -/
def CommitFits (d : Dict) (ix : IndexMap B) (s : GraphDb) : List Nat → List Nat → Prop
  | _, [] => True
  | pre, id :: rem =>
      (id ∉ pre → ∀ dn ∈ (nodeTable.record s id).dirtyList.head?,
        VisitFits d ix s.nodes.used (s.midCommit pre) id dn) ∧
      CommitFits d ix s (pre ++ [id]) rem

set_option synthInstance.maxSize 256 in
instance {ix : IndexMap B} {used : List Nat} {cur : Nat → Option LabelledItems}
    {id : Nat} {dn : DirtyObject NodeData} : Decidable (VisitFits d ix used cur id dn) :=
  decidable_of_iff' _ (visitFits_iff ..)

def decideCommitFits {ix : IndexMap B} {s : GraphDb} :
    (pre rem : List Nat) → Decidable (CommitFits d ix s pre rem)
  | _, [] => isTrue trivial
  | pre, id :: rem =>
      have : Decidable (CommitFits d ix s (pre ++ [id]) rem) := decideCommitFits _ rem
      inferInstanceAs (Decidable ((id ∉ pre → _) ∧ CommitFits d ix s (pre ++ [id]) rem))

instance {ix : IndexMap B} {s : GraphDb} {pre rem : List Nat} :
    Decidable (CommitFits d ix s pre rem) := decideCommitFits pre rem

/-- The trees erase what a commit erases from them: with each visit, the entry
of the version that the node has had. -/
def CommitErases (d : Dict) (s : GraphDb) : IndexMap B → List Nat → List Nat → Prop
  | _, _, [] => True
  | ix, pre, id :: rem =>
      if id ∈ pre then CommitErases d s ix (pre ++ [id]) rem
      else ErasesFirst d ix (s.heldNode id) ∧
        CommitErases d s (d.replaceFirst ix id (s.heldNode id) (s.dirtyNode id)) (pre ++ [id]) rem

theorem CommitErases.congr {s s' : GraphDb} (hn : s'.nodes = s.nodes)
    (hp : s'.nodeProperties = s.nodeProperties) {rem : List Nat} : ∀ {ix : IndexMap B}
      {pre : List Nat}, CommitErases d s ix pre rem → CommitErases d s' ix pre rem := by
  obtain ⟨hheld, hdirty⟩ := GraphDb.versions_congr hn hp
  induction rem with
  | nil => exact fun _ => trivial
  | cons id rem ih =>
      intro ix pre h
      rw [CommitErases] at h ⊢
      rw [hheld, hdirty]
      split at h
      · next hpre => rw [if_pos hpre]; exact ih h
      · next hpre => rw [if_neg hpre]; exact ⟨h.1, ih h.2⟩

theorem CommitFits.congr {ix : IndexMap B} {s s' : GraphDb} (hn : s'.nodes = s.nodes)
    (hp : s'.nodeProperties = s.nodeProperties) {pre rem : List Nat}
    (h : CommitFits d ix s pre rem) : CommitFits d ix s' pre rem := by
  induction rem generalizing pre with
  | nil => trivial
  | cons id rem ih =>
      refine ⟨?_, ih h.2⟩
      rw [GraphDb.midCommit_congr hn hp, hn,
        show nodeTable.record s' id = nodeTable.record s id from congrArg (Vec.slots · id) hn]
      exact h.1

theorem VisitFits.congr {ix ix' : IndexMap B} {used : List Nat}
    {cur : Nat → Option LabelledItems} {id : Nat} {dn : DirtyObject NodeData}
    (h : VisitFits d ix used cur id dn) (hn : SameNames ix ix') :
    VisitFits d ix' used cur id dn := by
  refine ⟨?_, ?_, ?_, ?_⟩
  · simp only [hn.hits]
    exact h.free
  · simp only [hn.hits]
    exact h.insert
  · simp only [hn.hits, hn.getIndex]
    exact h.update
  · simp only [hn.hits, hn.getIndex]
    exact h.delete

/-! ## The loop over the nodes -/

/-- The loop of a commit by `T` over its nodes, which began in `s1`: those in
`pre` are published, and the indexes are right for that. -/
structure NodeLoop (d : Dict) (T top : Nat) (H : Nat → Hist (Nat × Nat)) (s1 : GraphDb)
    (ix : IndexMap B) (pre rem : List Nat) (Hc : Nat → Hist (Nat × Nat))
    (s : IndexedDb B) : Prop where
  committing : nodeView.Committing nodeImg top T H s1 rem Hc s.db
  done : ∀ j ∈ pre, ∃ c, Hc j = (T, c) :: H j
  todo : ∀ j, j ∉ pre → Hc j = H j
  names : SameNames ix s.indexes
  indexed : Indexed s.indexes (d.holds (s1.midCommit pre))

section Loop

variable {T top : Nat} {H Hc : Nat → Hist (Nat × Nat)} {s1 : GraphDb} {ix : IndexMap B}
  {pre rem : List Nat} {id : Nat} {s : IndexedDb B}

theorem GraphDb.midCommit_append_self :
    s1.midCommit (pre ++ [id]) id = s1.dirtyNode id := by
  rw [GraphDb.midCommit, if_pos (by simp)]

theorem GraphDb.midCommit_append_other {j : Nat} (hj : j ≠ id) :
    s1.midCommit (pre ++ [id]) j = s1.midCommit pre j := by
  simp [GraphDb.midCommit, hj]

/-- After the visit the node has the entries of its new version. -/
theorem Dict.holds_visit {E : List (String × Nat)} {name : String} {v j : Nat}
    (hE : ∀ e, e ∈ E ↔ ∃ c ∈ s1.dirtyNode id, e ∈ d.entries c) :
    d.holds (s1.midCommit (pre ++ [id])) name v j ↔
      putEntries (d.holds (s1.midCommit pre)) id E name v j := by
  by_cases hj : j = id
  · subst hj
    rw [putEntries_self, hE, Dict.holds, GraphDb.midCommit_append_self]
  · rw [putEntries_other hj, Dict.holds, GraphDb.midCommit_append_other hj]
    rfl

/-- Only a record in use has a version. -/
theorem View.Inv.used_of_midCommit {j : Nat} {c : LabelledItems}
    (h : nodeView.Inv top H s1) (hc : c ∈ s1.midCommit pre j) :
    (nodeTable.record s1 j).used = true := by
  rw [GraphDb.midCommit, GraphDb.dirtyNode, GraphDb.heldNode] at hc
  split at hc
  · cases (h.slots j).record.phase with
    | unused hp =>
        rw [hp.list] at hc
        cases hc
    | inserting hp => exact hp.used
    | live hp => exact hp.used
    | deleted hp => exact hp.used
  · split at hc
    · next hu => exact hu.1
    · cases hc

/-- The index work of a visit. -/
theorem NodeLoop.work (h : NodeLoop d T top H s1 ix pre (id :: rem) Hc s)
    (hinv : nodeView.Inv top H s1)
    (hused : ∀ j, (nodeTable.record s1 j).used = true → j ∈ s1.nodes.used)
    (hfits : id ∉ pre → ∀ dn ∈ (nodeTable.record s1 id).dirtyList.head?,
      VisitFits d ix s1.nodes.used (s1.midCommit pre) id dn)
    (herases : CommitErases d s1 s.indexes pre (id :: rem)) :
    ∃ ix', CommitErases d s1 ix' (pre ++ [id]) rem ∧
      IndexWork d s.indexes ix' s.db.nodeProperties.buildDirtyPropertyList
        (nodeTable.record s.db id) (d.holds (s1.midCommit (pre ++ [id]))) := by
  rw [CommitErases] at herases
  cases h.committing.pending id (List.mem_cons_self ..) with
  | again hu hc hist =>
      have hpre : id ∈ pre := by
        by_contra hn
        obtain ⟨c, hc, _⟩ := hist
        rw [h.todo id hn] at hc
        exact List.ne_cons_self hc
      rw [if_pos hpre] at herases
      refine ⟨_, herases, .skip hc rfl (h.indexed.congr fun name _ v j => ?_)⟩
      by_cases hj : j = id
      · subst hj
        rw [Dict.holds, GraphDb.midCommit_append_self, Dict.holds, GraphDb.midCommit,
          if_pos hpre]
      · rw [Dict.holds, GraphDb.midCommit_append_other hj]
        rfl
  | @first dn hf hcoh hcts hist hsame =>
      have hpre : id ∉ pre := by
        intro hn
        obtain ⟨c, hc⟩ := h.done id hn
        rw [hist] at hc
        exact List.ne_cons_self hc
      rw [if_neg hpre] at herases
      obtain ⟨herase, herases⟩ := herases
      refine ⟨_, herases, ?_⟩
      have hslot := h.committing.slots id
      rw [Record.settled_live hcts] at hslot
      have hfit : VisitFits d s.indexes s1.nodes.used (s1.midCommit pre) id dn :=
        (hfits hpre dn (by rw [← hsame]; exact hf.front)).congr h.names
      have hmid : s1.midCommit pre id = s1.heldNode id := by
        rw [GraphDb.midCommit, if_neg hpre]
      have hheld : s1.midCommit pre id = newestNode (Hc id) := by
        rw [hmid, hist]
        exact (hinv.slots id).heldNode
      have hid : dn.elem.data.id = id :=
        hslot.named.copies dn (List.mem_of_mem_head? hf.front)
      obtain ⟨tl, htl⟩ := hf.list
      have hdirty : s1.dirtyNode id = if dn.elem.cts = INF then
          some (dn.elem.data.nodeLabel, dn.properties) else none := by
        rw [GraphDb.dirtyNode, ← hsame, htl]
      have hfree : dn.elem.cts = INF → FreeFor d s.indexes (d.holds (s1.midCommit pre)) id
          (dn.elem.data.nodeLabel, dn.properties) := by
        intro hinf e he j hj hR
        obtain ⟨c, hc, hm⟩ := hR
        exact hfit.free hinf e he j (hused j (hinv.used_of_midCommit hc)) c hc hj hm
      have hnew : dn.elem.cts = INF → ∀ e, e ∈ d.entries (dn.elem.data.nodeLabel, dn.properties)
          ↔ ∃ c ∈ s1.dirtyNode id, e ∈ d.entries c := by
        intro hinf e
        rw [hdirty, if_pos hinf]
        simp
      rcases hslot.record.front_cases hf with hp | ⟨own, rest, items, H₁, hl⟩
      · -- insert
        have hnone : s1.midCommit pre id = none := by
          rw [hheld]
          cases hH : Hc id with
          | nil => rfl
          | cons e H' =>
              obtain ⟨x, c⟩ := e
              have he := hp.ended (x, c) (by rw [hH]; rfl)
              cases he
              rfl
        have habsent : ∀ name v, ¬ d.holds (s1.midCommit pre) name v id := by
          rintro name v ⟨c, hc, _⟩
          rw [hnone] at hc
          cases hc
        refine .insert hcts hp.list hp.insert ?_
        rw [hid, ← hmid, hnone, hdirty, if_pos hp.dv_cts]
        exact (h.indexed.insertNode habsent (hfit.insert hp.dv_cts hnone)
          (hfree hp.dv_cts)).congr fun name v j => Dict.holds_visit (hnew hp.dv_cts)
      · have hold : s1.midCommit pre id =
            some ((nodeTable.record s.db id).obj.data.nodeLabel, items) := by
          rw [hheld, hl.head]
          rfl
        obtain ⟨ids, hb⟩ := hslot.backed hl.used hcts (hl.bts_ne_zero hslot.record)
        have hkeys : (items.map PItem.key).Nodup := by
          have hcells := hb.chain.buildDirtyPropertyList.symm.trans hl.holds
          rw [← Except.ok.inj hcells]
          exact hb.keyed.distinct
        have hR : ∀ name v, d.holds (s1.midCommit pre) name v id ↔
            (name, v) ∈ d.entries ((nodeTable.record s.db id).obj.data.nodeLabel, items) := by
          intro name v
          rw [Dict.holds, hold]
          simp
        have herase' := herase
        rw [← hmid, hold] at herase'
        have howned := hl.owned
        rw [hf.locked] at howned
        have hlt := (hl.lock (by rw [hf.locked]; exact hf.ne_zero)).2.2.2
        rw [hf.locked] at hlt
        have hdelete : IsTomb T dn → IndexWork d s.indexes
            (d.replaceFirst s.indexes id (s1.heldNode id) (s1.dirtyNode id))
            s.db.nodeProperties.buildDirtyPropertyList (nodeTable.record s.db id)
            (d.holds (s1.midCommit (pre ++ [id]))) := by
          intro ht
          have hne : dn.elem.cts ≠ INF := by
            rw [ht.cts]
            omega
          obtain ⟨h1, h2⟩ := hfit.delete hne _ hold
          refine .delete hcts htl ht.update (ht.bts.trans ht.cts.symm) hl.holds ?_
          have hnew : s1.dirtyNode id = none := hdirty.trans (if_neg hne)
          rw [← hmid, hold, hnew]
          refine (h.indexed.deleteNode hR hkeys h2 h1 herase').congr fun name v j =>
            Dict.holds_visit fun e => ?_
          rw [hnew]
          simp
        cases howned with
        | deleted ht => exact hdelete ht
        | updatedDeleted ht _ => exact hdelete ht
        | updated hn =>
            obtain ⟨o, rest', hrest, hprops⟩ := hl.kept_properties hslot.record (by simp)
            have hlist : (nodeTable.record s.db id).dirtyList = dn :: o :: rest' := by
              rw [hl.list, hrest]
              rfl
            have hne : dn.elem.bts ≠ dn.elem.cts := by
              rw [hn.bts, hn.cts]
              omega
            obtain ⟨h1, h2⟩ := hfit.update hn.cts _ hold
            refine .update hcts hlist hn.update hne ?_
            rw [hid, hprops, ← hmid, hold, hdirty, if_pos hn.cts]
            exact (h.indexed.updateNode hR hkeys h1 h2 (hfree hn.cts) herase').congr fun name v j =>
              Dict.holds_visit (hnew hn.cts)

/-- The loop goes on after a visit. -/
theorem NodeLoop.visit {Hc' : Nat → Hist (Nat × Nat)} {s' : IndexedDb B}
    (h : NodeLoop d T top H s1 ix pre (id :: rem) Hc s)
    (hc : nodeView.Committing nodeImg top T H s1 rem Hc' s'.db)
    (hv : Visit nodeImg T H (nodeTable.record s1 id) id Hc Hc')
    (hnames : SameNames s.indexes s'.indexes)
    (hix : Indexed s'.indexes (d.holds (s1.midCommit (pre ++ [id])))) :
    NodeLoop d T top H s1 ix (pre ++ [id]) rem Hc' s' := by
  refine ⟨hc, fun j hj => ?_, fun j hj => ?_, h.names.trans hnames, hix⟩
  · by_cases hid : j = id
    · obtain ⟨c, hself, _⟩ := hv.self
      rw [hid]
      exact ⟨c, hself⟩
    · rw [hv.other j hid]
      refine h.done j ((List.mem_append.mp hj).resolve_right fun hm => hid ?_)
      exact List.mem_singleton.mp hm
  · rw [List.mem_append, not_or, List.mem_singleton] at hj
    rw [hv.other j hj.2]
    exact h.todo j hj.1

/-- The loop changes the store as it does without indexes, and leaves the
indexes right. -/
theorem NodeLoop.run (hinv : nodeView.Inv top H s1)
    (hused : ∀ j, (nodeTable.record s1 j).used = true → j ∈ s1.nodes.used)
    (hina : T ∉ s1.activeTx) (hinf : T < INF)
    (hold : ∀ x ∈ s1.activeTx, s1.oldestXid ≤ x) :
    ∀ {rem pre Hc s}, NodeLoop d T top H s1 ix pre rem Hc s → CommitFits d ix s1 pre rem →
      CommitErases d s1 s.indexes pre rem →
      wp (rem.forM (commitDirtyNodeIndexed d T))
        (fun _ s' => rem.forM (commitDirtyNode T) s.db = .ok () s'.db ∧
          ∃ Hc', NodeLoop d T top H s1 ix (pre ++ rem) [] Hc' s') (fun _ _ => False) s := by
  intro rem
  induction rem with
  | nil =>
      intro pre Hc s h _ _
      rw [List.append_nil]
      exact ⟨rfl, Hc, h⟩
  | cons id rem ih =>
      intro pre Hc s h hfits herases
      obtain ⟨ix', hnext, hwork⟩ := h.work hinv hused hfits.1 herases
      obtain ⟨hnames, hix⟩ := hwork.indexed
      show wp (commitDirtyNodeIndexed d T id >>= fun _ =>
        rem.forM (commitDirtyNodeIndexed d T)) _ _ s
      rw [wp_bind]
      have hplain := wp_and (wp_self (commitDirtyNode T id) s.db)
        (h.committing.commitDirty nodeFields (h.committing.activeTx ▸ hina) hinf
          (h.committing.activeTx ▸ h.committing.oldestXid ▸ hold))
      refine wp_mono (commitDirtyNodeIndexed_spec (P := fun db' =>
        commitDirtyNode T id s.db = .ok () db' ∧ ∃ Hc',
          nodeView.Committing nodeImg top T H s1 rem Hc' db' ∧
          Visit nodeImg T H (nodeTable.record s1 id) id Hc Hc')
        (wp_mono hplain (fun _ _ hP => hP) fun _ _ hF => hF.2) hwork) ?_ fun _ _ hF => hF
      rintro _ s2 ⟨⟨hok, Hc', hc', hv⟩, rfl⟩
      refine wp_mono (ih (h.visit hc' hv hnames hix) hfits.2 hnext) ?_ fun _ _ hF => hF
      rintro _ s3 ⟨hrest, Hc'', h''⟩
      rw [List.append_assoc] at h''
      refine ⟨?_, Hc'', h''⟩
      show EStateM.bind (commitDirtyNode T id) (fun _ => rem.forM (commitDirtyNode T)) s.db = _
      rw [EStateM.bind, hok]
      exact hrest

end Loop

/-! ## The commit -/

/-- A commit of `T` ended as it does without indexes, and left them right for
what it published. -/
structure Committed (d : Dict) (T : Nat) (s s' : IndexedDb B) : Prop where
  names : SameNames s.indexes s'.indexes
  indexed : Indexed s'.indexes (d.holds (s.db.midCommit (s.db.txs T).dirtyNodes))

theorem commitTransactionIndexed_spec {T top : Nat} {L : Log} {s : IndexedDb B}
    (h : s.db.Inv top L) (hsound : s.db.Sound) (hact : Active top s.db T)
    (hix : Indexed s.indexes (d.holds s.db.heldNode))
    (hfits : CommitFits d s.indexes s.db [] (s.db.txs T).dirtyNodes)
    (herases : CommitErases d s.db s.indexes [] (s.db.txs T).dirtyNodes) :
    wp (commitTransactionIndexed d T)
      (fun b s' => commitTransaction T s.db = .ok b s'.db ∧ Committed d T s s')
      (fun e s' => commitTransaction T s.db = .error e s'.db ∧ Committed d T s s') s := by
  simp only [commitTransactionIndexed, wp_bind, wp_onDb]
  refine wp_checkTxContext_active hact ?_
  simp only [wp_modify, wp_get]
  refine wp_mono (wp_and (wp_self _ _) (commitRships_spec h hact)) ?_ fun _ _ hF => hF.2.elim
  rintro _ db1 ⟨hok1, Hr, hhalf⟩
  have hmid := GraphDb.midCommit_congr hhalf.table hhalf.props
  have hdirty : (db1.txs T).dirtyNodes = (s.db.txs T).dirtyNodes := by rw [hhalf.txs]
  have hstart : NodeLoop d T top L.nodes db1 s.indexes [] (db1.txs T).dirtyNodes L.nodes
      ⟨db1, s.indexes⟩ := by
    refine ⟨hhalf.nodes.committing hhalf.coherent, fun _ hj => (by cases hj), fun _ _ => rfl,
      SameNames.refl _, ?_⟩
    rw [hmid]
    exact hix
  have hused : ∀ j, (nodeTable.record db1 j).used = true → j ∈ db1.nodes.used := by
    rw [hhalf.table]
    intro j hj
    rw [hhalf.record] at hj
    exact (Vec.mem_used hsound.nodes).mpr hj
  have hfits1 : CommitFits d s.indexes db1 [] (db1.txs T).dirtyNodes := by
    rw [hdirty]
    exact hfits.congr hhalf.table hhalf.props
  have herases1 : CommitErases d db1 s.indexes [] (db1.txs T).dirtyNodes := by
    rw [hdirty]
    exact herases.congr hhalf.table hhalf.props
  refine wp_mono (NodeLoop.run hhalf.nodes hused hhalf.inactive hact.lt_inf hhalf.oldest hstart
    hfits1 herases1) ?_ fun _ _ hF => hF.elim
  rintro _ s2 ⟨hok2, Hc, hloop⟩
  have hcommitted : Committed d T s s2 := by
    have hix2 := hloop.indexed
    rw [hmid, List.nil_append, hdirty] at hix2
    exact ⟨hloop.names, hix2⟩
  -- the rest of the commit, with and without indexes
  have hplain : commitTransaction T s.db = EStateM.bind vacuum (fun _ => pure true)
      (GraphDb.modifyTx T (fun t => { t with running := false }) s2.db) := by
    have hctx : checkTxContext T s.db = .ok () s.db := by
      obtain ⟨_, db, hok, rfl⟩ := wp_exists (wp_checkTxContext_active
        (Q := fun _ db => db = s.db) (E := fun _ _ => False) hact rfl)
      exact hok
    simp only [commitTransaction, bind, EStateM.bind, hctx, modify_apply, get_apply,
      hok1, hok2]
  simp only [wp_pure]
  refine wp_mono (wp_self _ _) (fun _ db3 hv => ⟨?_, hcommitted.names, hcommitted.indexed⟩)
    fun _ db3 hv => ⟨?_, hcommitted.names, hcommitted.indexed⟩
  · rw [hplain, EStateM.bind, hv]
    rfl
  · rw [hplain, EStateM.bind, hv]

end Poseidon
