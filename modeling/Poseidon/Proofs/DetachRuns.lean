import Poseidon.Proofs.DetachDelete
import Poseidon.Proofs.Runs

/-!
# Who sees a deleted node

What `detach_delete_node` does for the readers: for its own transaction at
once, and for everybody who begins after the commit. The yardstick is the
same run without the delete. There is one more thing a reader could notice,
that the garbage collection has taken a record away, but a record in the
garbage has ended in both runs.
-/

namespace Poseidon

open Wp

variable {α κ β : Type}

/-! ## The commit of the delete -/

section Records

variable {t : Table α} {v : View t κ β} {T U top i n : Nat} {H : Nat → Hist κ}
  {s s₁ s₂ s₃ s₄ s' s₁' : GraphDb}

theorem Gone.alike {r r' : Record α} (h : Gone T r) (ha : Alike r r') : Gone T r' :=
  ⟨ha.prepared.trans h.prepared, ha.cts ▸ h.closed, ha.list ▸ h.list⟩

/-- A record that has ended before the garbage collection. -/
theorem View.Inv.ended_unreadable (h : v.Inv top H s) (hU : top < U)
    (hc : (t.record s i).obj.cts ≠ INF) {r : Record α} (hf : Fewer (t.record s i) r) :
    ¬ Readable U r := by
  intro hread
  obtain ⟨hgone, hle⟩ := (h.slots i).record.gone (hf.used hread.1) hc
  exact hgone.unreadable hf (by omega) hread

/-- Two commits that visit a record alike: those who come later read it
after both or after neither. -/
theorem View.Inv.readable_iff (h : v.Inv top H s₃) (hU : top < U)
    (h₃ : Alike (v.afterVisits T s i) (t.record s₃ i))
    (h₄ : Alike (v.afterVisits T s i) (t.record s₄ i))
    (htrash : i ∈ garbageOf t.gcType s → (t.record s i).obj.cts ≠ INF)
    (hG₃ : (∃ g ∈ s₃.garbage, g.itype = t.gcType ∧ g.oid = i) →
      i ∈ garbageOf t.gcType s ∨ (t.record s₃ i).obj.cts ≠ INF)
    (hG₄ : (∃ g ∈ s₄.garbage, g.itype = t.gcType ∧ g.oid = i) →
      i ∈ garbageOf t.gcType s ∨ (t.record s₄ i).obj.cts ≠ INF)
    (ht : t.Thins s₃.garbage s₃ s') (ht' : t.Thins s₄.garbage s₄ s₁') :
    Readable U (t.record s₁' i) ↔ Readable U (t.record s' i) := by
  obtain ⟨hf, hin⟩ := ht i
  obtain ⟨hf', hin'⟩ := ht' i
  have hboth : Alike (t.record s₃ i) (t.record s₄ i) := h₃.symm.trans h₄
  by_cases hc : (t.record s₃ i).obj.cts = INF
  · -- neither collection has touched it
    have hold : i ∉ garbageOf t.gcType s := by
      intro hmem
      have hended := htrash hmem
      have hobj := (Record.visits_ended T (leaveActive T s).oldestXid hended
        ((v.dirty (s.txs T)).count i)).1
      rw [h₃.cts, View.afterVisits, hobj] at hc
      exact hended hc
    have hsame := hin.resolve_left fun hg => (hG₃ hg).elim hold fun hne => hne hc
    have hsame' := hin'.resolve_left fun hg => (hG₄ hg).elim hold fun hne =>
      hne (hboth.cts.trans hc)
    exact ((hsame.symm.trans hboth).trans hsame').readable
  · have hno := h.ended_unreadable hU hc hf
    have hno' := h.ended_unreadable hU hc (hboth.fewer.trans hf')
    exact iff_of_false hno' hno

/-- Nobody who comes later reads what has been deleted. -/
theorem Tombed.unreadable_later (htomb : Tombed T n (t.record s i)) (hT : T < INF) (hU : T < U)
    (hcount : (v.dirty (s.txs T)).count i = n + 1)
    (h₄ : Alike (v.afterVisits T s i) (t.record s₄ i)) (ht : t.Thins s₄.garbage s₄ s') :
    ¬ Readable U (t.record s' i) := by
  have hgone : Gone T (v.afterVisits T s i) := by
    rw [View.afterVisits, hcount]
    exact htomb.visits hT
  exact (hgone.alike h₄).unreadable (ht i).1 hU

end Records

section Commits

variable {T U top nid : Nat} {L : Log} {l : List Nat} {s s₁ s' s₁' : GraphDb}

/-- The visits of the other records are those of the commit without the delete. -/
theorem View.afterVisits_congr {t : Table α} (v : View t κ β) {i : Nat}
    (hactive : s₁.activeTx = s.activeTx) (hrec : t.record s₁ i = t.record s i)
    (hcount : (v.dirty (s₁.txs T)).count i = (v.dirty (s.txs T)).count i) :
    v.afterVisits T s₁ i = v.afterVisits T s i := by
  rw [View.afterVisits, View.afterVisits, hcount, hrec, leaveActive, leaveActive, hactive]

theorem Detached.garbageOf (hd : Detached T nid l s s₁) (ty : GcType) :
    garbageOf ty s₁ = garbageOf ty s := by
  rw [Poseidon.garbageOf, Poseidon.garbageOf, hd.garbage]

/-- Who begins after the commit reads what it would read without the delete,
and nothing of what was deleted. -/
theorem Detached.readable_later (hd : Detached T nid l s s₁) (hnd : l.Nodup) (h : s.Inv top L)
    (hact : Active top s T) (hU : top < U)
    (hA : ∃ s₃ L', BeforeVacuum T s s₃ ∧ s₃.Inv top L' ∧ Thins s₃.garbage s₃ s')
    (hB : ∃ s₄, BeforeVacuum T s₁ s₄ ∧ Thins s₄.garbage s₄ s₁') :
    (∀ i, Readable U (nodeTable.record s₁' i) ↔ Readable U (nodeTable.record s' i) ∧ i ≠ nid) ∧
      ∀ i, Readable U (rshipTable.record s₁' i) ↔
        Readable U (rshipTable.record s' i) ∧ i ∉ l := by
  obtain ⟨s₃, L', hv₃, h₃, ht₃⟩ := hA
  obtain ⟨s₄, hv₄, ht₄⟩ := hB
  have hTU : T < U := Nat.lt_of_le_of_lt hact.le_top hU
  refine ⟨fun i => ?_, fun i => ?_⟩
  · by_cases hi : i = nid
    · subst hi
      have hno := (hd.node).unreadable_later (v := nodeView) (s := s₁) hact.lt_inf hTU (by
        show (s₁.txs T).dirtyNodes.count i = _
        rw [hd.dirtyNodes, List.count_append, List.count_singleton_self]) (hv₄.nodes i) ht₄.nodes
      exact iff_of_false hno fun hr => hr.2 rfl
    · have hsame : nodeView.afterVisits T s₁ i = nodeView.afterVisits T s i := by
        refine nodeView.afterVisits_congr hd.activeTx (hd.nodes i hi) ?_
        show (s₁.txs T).dirtyNodes.count i = _
        rw [hd.dirtyNodes, List.count_append, List.count_singleton, if_neg
          (by simpa using Ne.symm hi)]
        rfl
      have hG₄ := hv₄.nodeGarbage i
      rw [hd.garbageOf] at hG₄
      have hiff := h₃.nodes.readable_iff hU (hv₃.nodes i) (hsame ▸ hv₄.nodes i)
        (fun hg => ((h.nodes.slots i).trash hg).2) (hv₃.nodeGarbage i) hG₄ ht₃.nodes ht₄.nodes
      rw [hiff]
      exact ⟨fun hr => ⟨hr, hi⟩, fun hr => hr.1⟩
  · by_cases hi : i ∈ l
    · have hno := (hd.gone i hi).unreadable_later (v := rshipView) (s := s₁) hact.lt_inf hTU (by
        show (s₁.txs T).dirtyRships.count i = _
        rw [hd.dirtyRships, List.count_append, List.count_eq_one_of_mem hnd hi]) (hv₄.rships i)
        ht₄.rships
      exact iff_of_false hno fun hr => hr.2 hi
    · have hsame : rshipView.afterVisits T s₁ i = rshipView.afterVisits T s i := by
        refine rshipView.afterVisits_congr hd.activeTx (hd.rships i hi) ?_
        show (s₁.txs T).dirtyRships.count i = _
        rw [hd.dirtyRships, List.count_append, List.count_eq_zero_of_not_mem hi]
        rfl
      have hG₄ := hv₄.rshipGarbage i
      rw [hd.garbageOf] at hG₄
      have hiff := h₃.rships.readable_iff hU (hv₃.rships i) (hsame ▸ hv₄.rships i)
        (fun hg => ((h.rships.slots i).trash hg).2) (hv₃.rshipGarbage i) hG₄ ht₃.rships ht₄.rships
      rw [hiff]
      exact ⟨fun hr => ⟨hr, hi⟩, fun hr => hr.1⟩

/-- The transaction itself, right after the call. -/
theorem Detached.readable_own (hd : Detached T nid l s s₁) (hT : T ≠ 0) :
    (∀ i, Readable T (nodeTable.record s₁ i) ↔ Readable T (nodeTable.record s i) ∧ i ≠ nid) ∧
      ∀ i, Readable T (rshipTable.record s₁ i) ↔
        Readable T (rshipTable.record s i) ∧ i ∉ l := by
  refine ⟨fun i => ?_, fun i => ?_⟩
  · by_cases hi : i = nid
    · subst hi
      exact iff_of_false (hd.node.unreadable hT) fun hr => hr.2 rfl
    · rw [hd.nodes i hi]
      exact ⟨fun hr => ⟨hr, hi⟩, fun hr => hr.1⟩
  · by_cases hi : i ∈ l
    · exact iff_of_false ((hd.gone i hi).unreadable hT) fun hr => hr.2 hi
    · rw [hd.rships i hi]
      exact ⟨fun hr => ⟨hr, hi⟩, fun hr => hr.1⟩

end Commits

/-! ## Runs -/

/-- The call returns, and does not throw. -/
def Sys.Returns (s : Sys) (a : Step) : Prop := ∃ reply, (s.exec a).1 = .ok reply

/-- `T` sees a relationship of node `nid`: the version it reads has the node
at one of its ends. -/
def GraphDb.Joins (s : GraphDb) (T rid nid : Nat) : Prop :=
  (rshipTable.record s rid).used = true ∧
    ∃ l o, (rshipTable.record s rid).getValidVersion T = .ok l ∧
      (rshipTable.record s rid).deref l = some o ∧
      (o.data.srcNode = nid ∨ o.data.destNode = nid)

/-- `detach_delete_node` does what it is for: it returns, and afterwards its
transaction reads every node and relationship that it could read before,
except the node and its relationships; and who begins after the commit of the
transaction reads what it would read had the call not been made, with the
same exceptions. -/
structure Sys.Detaches (s : Sys) (T nid : Nat) : Prop where
  returns : s.Returns (.detachDeleteNode T nid)
  nodes : ∀ id, (s.step (.detachDeleteNode T nid)).Returns (.nodeById T id) ↔
    s.Returns (.nodeById T id) ∧ id ≠ nid
  rships : ∀ id, (s.step (.detachDeleteNode T nid)).Returns (.rshipById T id) ↔
    s.Returns (.rshipById T id) ∧ ¬ s.db.Joins T id nid
  later : ∀ U, (∀ x ∈ s.begun, x < U) →
    (s.run [.detachDeleteNode T nid]).Returns (.commit T) →
    (s.run [.detachDeleteNode T nid, .commit T]).Returns (.begin U) →
    (∀ id, (s.run [.detachDeleteNode T nid, .commit T, .begin U]).Returns (.nodeById U id) ↔
      (s.run [.commit T, .begin U]).Returns (.nodeById U id) ∧ id ≠ nid) ∧
    ∀ id, (s.run [.detachDeleteNode T nid, .commit T, .begin U]).Returns (.rshipById U id) ↔
      (s.run [.commit T, .begin U]).Returns (.rshipById U id) ∧ ¬ s.db.Joins T id nid

/-- What the call needs: it can read and lock the node and all relationships
that it collects on the two lists of the node, it collects none twice, and
they are the relationships of the node that it sees. -/
def GraphDb.Detachable (s : GraphDb) (T nid : Nat) : Prop :=
  ∃ l, s.Removable T nid l ∧ ∀ rid, rid ∈ l ↔ s.Joins T rid nid

section Systems

variable {T U nid id : Nat} {s : Sys}

/-- A point read returns if its transaction is running and can read the
record. -/
theorem Table.byId_reply {t : Table α} {db : GraphDb}
    (hprep : (t.record db id).used = true → (t.record db id).obj.prepared = true) :
    (∃ n db', t.byId T id db = .ok n db') ↔
      (db.txs T).running = true ∧ Readable T (t.record db id) := by
  cases hrun : (db.txs T).running with
  | false =>
      have hrefused : wp (t.byId T id) (fun _ _ => False) (fun _ _ => True) db := by
        rw [Table.byId, wp_bind, wp_checkTxContext, hrun]
        exact ⟨fun h => (by cases h), fun _ => trivial⟩
      refine ⟨?_, fun h => (by cases h.1)⟩
      rintro ⟨n, db', heq⟩
      exact (wp_ok hrefused heq).elim
  | true =>
      have hread := Table.byId_readable (t := t) hrun hprep
      refine ⟨?_, fun h => ?_⟩
      · rintro ⟨n, db', heq⟩
        exact ⟨rfl, (wp_ok hread heq).2⟩
      · cases heq : t.byId T id db with
        | ok n db' => exact ⟨n, db', rfl⟩
        | error e db' => exact absurd h.2 (wp_error hread heq)

theorem Sys.returns_call {β : Type} {x : DbM β} {reply : β → Reply} {keep : β → Sys → Sys} :
    (∃ r, (s.call x reply keep).1 = .ok r) ↔ ∃ b db, x s.db = .ok b db := by
  rw [Sys.call]
  cases x s.db with
  | ok b db => exact ⟨fun _ => ⟨b, db, rfl⟩, fun _ => ⟨_, rfl⟩⟩
  | error e db =>
      refine ⟨?_, ?_⟩
      · rintro ⟨_, h⟩
        cases h
      · rintro ⟨_, _, h⟩
        cases h

theorem Sys.returns_node (hs : s.db.Sound) : s.Returns (.nodeById T id) ↔
    (s.db.txs T).running = true ∧ Readable T (nodeTable.record s.db id) :=
  Sys.returns_call.trans (Table.byId_reply (hs.nodes.slots id).prepared)

theorem Sys.returns_rship (hs : s.db.Sound) : s.Returns (.rshipById T id) ↔
    (s.db.txs T).running = true ∧ Readable T (rshipTable.record s.db id) :=
  Sys.returns_call.trans (Table.byId_reply (hs.rships.slots id).prepared)

/-- A begin changes no record. -/
theorem beginTransaction_records {db : GraphDb} : wp (beginTransaction U)
    (fun _ db' => (db.txs U).running = false ∧ (db'.txs U).running = true ∧
      (∀ i, nodeTable.record db' i = nodeTable.record db i) ∧
      ∀ i, rshipTable.record db' i = rshipTable.record db i)
    (fun _ _ => (db.txs U).running = true) db := by
  simp only [beginTransaction, wp_bind, wp_get]
  refine wp_ite (fun hrun => hrun) fun hrun => ?_
  rw [wp_bind, wp_modify, wp_modify]
  refine ⟨Bool.eq_false_iff.mpr hrun, ?_, fun _ => rfl, fun _ => rfl⟩
  show (if U = U then (⟨true, [], []⟩ : Transaction) else db.txs U).running = true
  rw [if_pos rfl]

theorem Sys.returns_begin : s.Returns (.begin U) ↔
    ¬ (U = 0 ∨ INF ≤ U ∨ U ∈ s.begun) ∧ (s.db.txs U).running = false := by
  simp only [Sys.Returns, Sys.exec]
  split
  · next hx =>
    refine ⟨?_, fun h => absurd hx h.1⟩
    rintro ⟨_, h⟩
    cases h
  · next hx =>
    refine Sys.returns_call.trans ⟨?_, fun h => ?_⟩
    · rintro ⟨b, db, heq⟩
      exact ⟨hx, (wp_ok beginTransaction_records heq).1⟩
    · cases heq : beginTransaction U s.db with
      | ok b db => exact ⟨b, db, rfl⟩
      | error e db =>
          have hrun := wp_error beginTransaction_records heq
          rw [h.2] at hrun
          cases hrun

theorem Sys.step_begin (h : s.Returns (.begin U)) :
    (((s.step (.begin U)).db.txs U).running = true) ∧
      (∀ i, nodeTable.record (s.step (.begin U)).db i = nodeTable.record s.db i) ∧
      ∀ i, rshipTable.record (s.step (.begin U)).db i = rshipTable.record s.db i := by
  obtain ⟨hx, hrun⟩ := Sys.returns_begin.mp h
  simp only [Sys.step, Sys.exec, if_neg hx, Sys.call]
  cases heq : beginTransaction U s.db with
  | ok b db => exact (wp_ok beginTransaction_records heq).2
  | error e db =>
      have hrun' := wp_error beginTransaction_records heq
      rw [hrun] at hrun'
      cases hrun'

/-- What the call leaves, seen from its reply. -/
theorem Sys.returns_detach {top : Nat} {L : Log} (h : s.db.Inv top L) (hs : s.db.Sound)
    (hact : Active top s.db T) (nid : Nat) :
    (s.Returns (.detachDeleteNode T nid) ↔ ∃ l, s.db.Removable T nid l) ∧
      (s.Returns (.detachDeleteNode T nid) → ∃ l, s.db.Removable T nid l ∧
        Detached T nid l s.db (s.step (.detachDeleteNode T nid)).db) := by
  have hspec := detachDeleteNode_spec h hs hact nid
  have hreply : s.Returns (.detachDeleteNode T nid) ↔
      ∃ b db, Poseidon.detachDeleteNode T nid s.db = .ok b db := Sys.returns_call
  rw [hreply]
  simp only [Sys.step, Sys.exec, Sys.call]
  cases heq : Poseidon.detachDeleteNode T nid s.db with
  | ok b db =>
      obtain ⟨l, hrem, hd⟩ := wp_ok hspec heq
      exact ⟨⟨fun _ => ⟨l, hrem⟩, fun _ => ⟨b, db, rfl⟩⟩, fun _ => ⟨l, hrem, hd⟩⟩
  | error e db =>
      have hno := wp_error hspec heq
      refine ⟨⟨?_, ?_⟩, ?_⟩
      · rintro ⟨_, _, h⟩
        cases h
      · rintro ⟨l, hl⟩
        exact absurd hl (hno l)
      · rintro ⟨_, _, h⟩
        cases h

/-- A commit that returns is one that `BeforeVacuum` and `Thins` describe. -/
theorem Sys.step_commit (hT : T < INF) (h : s.Returns (.commit T)) :
    ∃ s₃, BeforeVacuum T s.db s₃ ∧ Thins s₃.garbage s₃ (s.step (.commit T)).db := by
  have hcall : ∃ r, (s.call (commitTransaction T) .finished fun _ s => s).1 = .ok r := h
  obtain ⟨b, db, heq⟩ := Sys.returns_call.mp hcall
  have hspec := wp_ok (commitTransaction_visits hT) heq
  simpa only [Sys.step, Sys.exec, Sys.call, heq] using hspec

theorem GraphDb.Joins.readable {db : GraphDb} {rid : Nat} (h : db.Joins T rid nid) :
    Readable T (rshipTable.record db rid) := by
  obtain ⟨hu, l, -, hl, -⟩ := h
  exact ⟨hu, l, hl⟩

/-- The relationships that were deleted are those of the node if and only if
no others are lost, and none is left. -/
theorem Detached.joins_iff {l : List Nat} {db db' : GraphDb} (hd : Detached T nid l db db')
    (hrem : db.Removable T nid l) (hT : T ≠ 0) : (∀ rid, rid ∈ l ↔ db.Joins T rid nid) ↔
      ∀ rid, Readable T (rshipTable.record db' rid) ↔
        Readable T (rshipTable.record db rid) ∧ ¬ db.Joins T rid nid := by
  obtain ⟨-, -, -, -, -, -, -, -, -, hw⟩ := hrem
  have hown := (hd.readable_own hT).2
  refine ⟨fun h rid => ?_, fun h rid => ?_⟩
  · rw [hown, h]
  · have hrid := (hown rid).symm.trans (h rid)
    by_cases hin : rid ∈ l
    · have hread := (hw rid hin).readable
      refine iff_of_true hin ?_
      by_contra hno
      exact (hrid.mpr ⟨hread, hno⟩).2 hin
    · refine iff_of_false hin fun hj => ?_
      exact (hrid.mp ⟨hj.readable, hin⟩).2 hj

/-- The run without the delete. The commit ends, and the reader can begin. -/
theorem Sys.Inv.commit_begin {top : Nat} {L : Log} (h : s.Inv top L) (hact : T ∈ s.db.activeTx)
    (hU : ∀ x ∈ s.begun, x < U) (h0 : U ≠ 0) (hinf : U < INF) :
    (s.step (.commit T)).Returns (.begin U) := by
  have hbegun : (s.step (.commit T)).begun = s.begun := Sys.begun_step fun _ h => (by cases h)
  have hnew : U ∉ s.begun := fun hin => Nat.lt_irrefl U (hU U hin)
  obtain ⟨top', h'⟩ := h.step (a := .commit T) fun _ => hact
  refine Sys.returns_begin.mpr ⟨?_, Bool.eq_false_iff.mpr fun hrun => ?_⟩
  · rintro (h | h | h)
    · exact h0 h
    · exact absurd hinf (Nat.not_lt.mpr h)
    · exact hnew (hbegun ▸ h)
  · exact hnew (hbegun ▸ h'.running U hrun)

end Systems

/-- `detach_delete_node` does what it is for if and only if the node and the
relationships it collects can be locked, none is collected twice, and they
are all the relationships of the node that the transaction sees. -/
theorem detach_delete_iff (as : List Step) (hclean : Sys.initial.CleanRun as) (T nid : Nat)
    (hT : T ∈ (Sys.initial.run as).db.activeTx) :
    (Sys.initial.run as).Detaches T nid ↔ (Sys.initial.run as).db.Detachable T nid := by
  obtain ⟨top, h⟩ := Sys.inv_run hclean
  have hs := Sys.run_sound as
  have hact := h.db.active T hT
  have hs' : ((Sys.initial.run as).step (.detachDeleteNode T nid)).db.Sound := by
    rw [← Sys.run_concat]
    exact Sys.run_sound _
  obtain ⟨hret, hpost⟩ := Sys.returns_detach h.db hs hact nid
  refine ⟨fun hdet => ?_, ?_⟩
  · obtain ⟨l, hrem, hd⟩ := hpost hdet.returns
    refine ⟨l, hrem, (hd.joins_iff hrem hact.ne_zero).mpr fun rid => ?_⟩
    have hr := hdet.rships rid
    rw [Sys.returns_rship hs', Sys.returns_rship hs, hd.running, hact.running] at hr
    simpa using hr
  · rintro ⟨l, hrem, hjoins⟩
    have hreturns := hret.mpr ⟨l, hrem⟩
    obtain ⟨l', hrem', hd⟩ := hpost hreturns
    obtain rfl := hrem.unique hrem'
    have hown := hd.readable_own hact.ne_zero
    refine ⟨hreturns, fun id => ?_, fun id => ?_, fun U hU hcommit hbegin => ?_⟩
    · rw [Sys.returns_node hs', Sys.returns_node hs, hd.running, hact.running, hown.1]
      simp
    · rw [Sys.returns_rship hs', Sys.returns_rship hs, hd.running, hact.running, hown.2, hjoins]
      simp
    · obtain ⟨hx, -⟩ := Sys.returns_begin.mp hbegin
      simp only [not_or, Nat.not_le] at hx
      have hbegin' := h.commit_begin hT hU hx.1 hx.2.1
      have hB := Sys.step_commit hact.lt_inf hcommit
      have hA : ∃ s₃ L', BeforeVacuum T (Sys.initial.run as).db s₃ ∧ s₃.Inv top L' ∧
          Thins s₃.garbage s₃ ((Sys.initial.run as).step (.commit T)).db :=
        Sys.call_db (P := fun s' => ∃ s₃ L', BeforeVacuum T (Sys.initial.run as).db s₃ ∧
          s₃.Inv top L' ∧ Thins s₃.garbage s₃ s') (fun _ _ => rfl) (h.db.commit_visits hact)
      obtain ⟨-, -, -, -, -, -, -, -, hnd, -⟩ := hrem
      have hlater := hd.readable_later hnd h.db hact (h.top_lt U hx.1 hU) hA hB
      have hrun : ∀ bs, ((Sys.initial.run as).run bs).db.Sound := by
        intro bs
        rw [← Sys.run_append]
        exact Sys.run_sound _
      obtain ⟨hr, hn, hrs⟩ := Sys.step_begin hbegin
      obtain ⟨hr', hn', hrs'⟩ := Sys.step_begin hbegin'
      have hrunA : (Sys.initial.run as).run [.commit T, .begin U] =
          ((Sys.initial.run as).step (.commit T)).step (.begin U) := rfl
      have hrunB : (Sys.initial.run as).run [.detachDeleteNode T nid, .commit T, .begin U] =
          ((Sys.initial.run as).run [.detachDeleteNode T nid, .commit T]).step (.begin U) := rfl
      refine ⟨fun id => ?_, fun id => ?_⟩
      · rw [Sys.returns_node (hrun _), Sys.returns_node (hrun _), hrunA, hrunB, hr, hr', hn, hn']
        simp only [true_and]
        exact hlater.1 id
      · rw [Sys.returns_rship (hrun _), Sys.returns_rship (hrun _), hrunA, hrunB, hr, hr', hrs,
          hrs', ← hjoins]
        simp only [true_and]
        exact hlater.2 id

/-- Two parallel relationships. -/
def parallelRun : List Step :=
  [.begin 10, .addNode 10 0 1 .none, .addNode 10 1 1 .none, .addRelationship 10 0 0 1 5 .none,
    .addRelationship 10 1 0 1 5 .none, .commit 10, .begin 20]

theorem detach_delete_parallel : (Sys.initial.run parallelRun).Detaches 20 0 := by
  refine (detach_delete_iff parallelRun (by decide) 20 0 (by decide)).mpr ⟨[1, 0],
    ⟨⟨rfl, .slot, _, rfl, rfl⟩, _, [1, 0], [], ⟨.slot, _, rfl, rfl, rfl⟩,
      ⟨[1, 0], .cons (by decide) rfl (.cons (by decide) rfl .nil), rfl⟩,
      ⟨[], .nil, rfl⟩, rfl, by decide, ?_⟩, fun rid => ?_⟩
  · intro rid hrid
    rcases List.mem_cons.mp hrid with rfl | hrid
    · exact ⟨rfl, .slot, _, rfl, rfl⟩
    · cases List.mem_singleton.mp hrid
      exact ⟨rfl, .slot, _, rfl, rfl⟩
  · rcases rid with _ | _ | rid
    · exact iff_of_true (by decide) ⟨rfl, .slot, _, rfl, rfl, .inl rfl⟩
    · exact iff_of_true (by decide) ⟨rfl, .slot, _, rfl, rfl, .inl rfl⟩
    · refine iff_of_false (by simp) fun hj => ?_
      cases hj.1

/-- A relationship from a node to itself. -/
def selfLoopRun : List Step :=
  [.begin 10, .addNode 10 0 1 .none, .addRelationship 10 0 0 0 5 .none, .commit 10, .begin 20]

/-- It is collected through both lists of the node, and the second delete
throws. -/
theorem self_loop_not_detached :
    Sys.initial.CleanRun selfLoopRun ∧
    (Sys.initial.run selfLoopRun).db.activeTx = [20] ∧
    (Sys.initial.run selfLoopRun).Returns (.nodeById 20 0) ∧
    ((Sys.initial.run selfLoopRun).exec (.detachDeleteNode 20 0)).1 = .error .unknownId ∧
    ¬ (Sys.initial.run selfLoopRun).Detaches 20 0 := by
  have hthrows : ((Sys.initial.run selfLoopRun).exec (.detachDeleteNode 20 0)).1 =
      .error .unknownId := rfl
  refine ⟨by decide, rfl, ⟨_, rfl⟩, hthrows, fun hdet => ?_⟩
  obtain ⟨reply, hreply⟩ := hdet.returns
  rw [hthrows] at hreply
  cases hreply

end Poseidon
