import Poseidon.Proofs.Runs

/-!
# Snapshot reads

What `node_by_id` and `rship_by_id` return in a clean run: the caller's own
latest version, or the version that was committed by the transaction with
the largest id not above the caller's (`Selects`). A transaction that reads
a record twice, and does not write in between, gets the same version twice.

The second half needs what a read leaves behind (`Relies`): either the
caller has versions of its own in front of the dirty list, which nobody else
removes, or the slot has recorded the read, and then nobody who is older
than the reader can write the record any more.
-/

namespace Poseidon

open Wp History

variable {α κ β : Type}

/-- `e` is the version that `T` should see of the record `r`, and `l` is
where it is. The first component of `e` is the transaction that wrote it. A
record that was deleted since keeps no properties in the table. -/
inductive Selects (k : Scheme α κ) (p : PropertyList) (H : Hist κ) (T : Nat)
    (r : Record α) (l : Loc) (e : Nat × Content κ) : Prop
  | own {dn : DirtyObject α} (latest : r.getDirtyVersion T = some dn)
      (live : dn.elem.cts = INF) (loc : l = .copy dn.addr)
      (content : e = (T, dn.content k))
  | committed {o : Obj α} (nothing : r.getDirtyVersion T = none)
      (deref : r.deref l = some o) (bts : o.bts = e.1)
      (latest : Latest H T (e.1, some e.2)) (img : k.img o.data = e.2.1)
      (inTable : l = .slot → o.cts = INF →
        p.buildDirtyPropertyList (k.pl o.data) = .ok e.2.2)
      (inCopy : ∀ a, l = .copy a → ∃ dn ∈ r.dirtyList, dn.addr = a ∧
        dn.properties = e.2.2)

/-- `e` is the version that `T` should see, as far as the history and the
front of the dirty list say. -/
inductive Sees (k : Scheme α κ) (T : Nat) (e : Nat × Content κ) (H : Hist κ)
    (r : Record α) : Prop
  | own {dn : DirtyObject α} (front : Front T dn r) (content : e = (T, dn.content k))
  | committed (latest : Latest H T (e.1, some e.2)) (nothing : ∀ dn, ¬ Front T dn r)

/-- What keeps version `e` for `T` until `T` writes or ends. -/
inductive Relies (k : Scheme α κ) (T : Nat) (e : Nat × Content κ) (H : Hist κ)
    (r : Record α) : Prop
  | own {dn : DirtyObject α} (front : Front T dn r) (content : e = (T, dn.content k))
  | seen (seen : Seen T (e.1, some e.2) H r) (nothing : ∀ dn, ¬ Front T dn r)

section Records

variable {k : Scheme α κ} {A : Nat → Prop} {top T W n : Nat} {p : PropertyList}
  {H H' : Hist κ} {r r' : Record α} {l : Loc} {e : Nat × Content κ}

theorem RecInv.getDirtyVersion_none {stored : Nat → Except Err (List PItem)}
    (h : RecInv k A top stored H r) (hA : A T) (hT : T ≠ 0)
    (hno : ∀ dn, ¬ Front T dn r) : r.getDirtyVersion T = none := by
  refine List.find?_eq_none.mpr fun dn hdn hlock => ?_
  obtain ⟨d, hd⟩ := h.front_of_mem hA hT hdn (by simpa using hlock)
  exact hno d hd

/-- Every read selects a version, and leaves behind what keeps it. -/
theorem RecInv.selects (h : RecInv k A top p.buildDirtyPropertyList H r)
    (hu : r.used = true) (hA : A T) (hT : T ≠ 0) (hrts : T ≤ r.obj.rts)
    (hv : r.getValidVersion T = .ok l) :
    ∃ e, Selects k p H T r l e ∧ Relies k T e H r := by
  rcases h.read hu hA hT hv with ⟨dn, hf, hloc, hcts⟩ | ⟨o, c, hrc⟩
  · exact ⟨(T, dn.content k), .own hf.getDirtyVersion hcts hloc rfl, .own hf rfl⟩
  · refine ⟨(o.bts, c), .committed (h.getDirtyVersion_none hA hT hrc.notOwn) hrc.deref rfl
      hrc.latest hrc.img hrc.inTable fun a ha => ?_,
      .seen ⟨hrc.latest, Option.some_ne_none c, hu, hrts, hrc.lock⟩ hrc.notOwn⟩
    obtain ⟨dn, hdn, haddr, _, hprops⟩ := hrc.inCopy a ha
    exact ⟨dn, hdn, haddr, hprops⟩

theorem Relies.sees (h : Relies k T e H r) : Sees k T e H r := by
  cases h with
  | own hf he => exact .own hf he
  | seen hs hno => exact .committed hs.latest hno

/-- A read selects the version that the reader sees. -/
theorem Sees.selects (hsee : Sees k T e H r)
    (h : RecInv k A top p.buildDirtyPropertyList H r) (hu : r.used = true) (hA : A T)
    (hT : T ≠ 0) (hv : r.getValidVersion T = .ok l) : Selects k p H T r l e := by
  cases hsee with
  | @own dn hf he =>
      rcases h.read hu hA hT hv with ⟨d, hf', hloc, hcts⟩ | ⟨o, c, hrc⟩
      · cases hf.unique hf'
        exact .own hf.getDirtyVersion hcts hloc he
      · exact absurd hf (hrc.notOwn dn)
  | committed hlatest hno =>
      rcases h.read hu hA hT hv with ⟨d, hf', hloc, hcts⟩ | ⟨o, c, hrc⟩
      · exact absurd hf' (hno d)
      · have heq := hrc.latest.unique h.sorted hlatest
        simp only [Prod.mk.injEq, Option.some.injEq] at heq
        obtain ⟨hbts, rfl⟩ := heq
        refine .committed (h.getDirtyVersion_none hA hT hno) hrc.deref hbts hlatest
          hrc.img hrc.inTable fun a ha => ?_
        obtain ⟨dn, hdn, haddr, _, hprops⟩ := hrc.inCopy a ha
        exact ⟨dn, hdn, haddr, hprops⟩

theorem Coherent.nothing (hc : Coherent n T r) (hc' : Coherent n T r')
    (hno : ∀ dn, ¬ Front T dn r) (dn : DirtyObject α) : ¬ Front T dn r' := by
  intro hf
  obtain ⟨d, hd⟩ := hc.front.mp (hc'.front.mpr ⟨dn, hf⟩)
  exact hno d hd

/-- What others do to the record, without a new version of it. -/
theorem Sees.evolve (hsee : Sees k T e H r) (hev : Evolve A W H r H r') (hA : A T)
    (hne : T ≠ W) (hc : Coherent n T r) (hc' : Coherent n T r') : Sees k T e H r' := by
  cases hsee with
  | own hf he => exact .own (hev.front T _ hA hne hf) he
  | committed hl hno => exact .committed hl (hc.nothing hc' hno)

/-- The steps of others keep it. -/
theorem Relies.evolve (hrel : Relies k T e H r) (hev : Evolve A W H r H' r') (hA : A T)
    (hne : T ≠ W) (hc : Coherent n T r) (hc' : Coherent n T r') :
    Relies k T e H' r' := by
  cases hrel with
  | own hf he => exact .own (hev.front T _ hA hne hf) he
  | seen hs hno => exact .seen (hev.seen T _ hA hs) (hc.nothing hc' hno)

end Records

/-! ## Steps that leave a transaction alone -/

section Steps

variable {top T : Nat} {L : Log} {s : Sys} {a : Step}

theorem Step.writer_eq (a : Step) : a.writer = 0 ∨ a.writer = a.xid := by
  cases a <;> first | exact .inl rfl | exact .inr rfl

/-- A step that is no write of `T` and does not end it. -/
theorem Moved.spares {s' : GraphDb} (h : Moved top L s a s') (hinv : s.db.Inv top L)
    (hw : a.xid = T → a.writes = false) (hst : Stays s s' T) :
    (L.step s a = L ∧ s' = s.db) ∨ T ≠ a.writer := by
  have hT := hinv.active T hst.1
  cases h with
  | idle log h => exact .inl ⟨log, h⟩
  | @begun T' ha _ htop _ =>
      right
      rw [ha]
      have hle := hT.le_top
      show T ≠ T'
      omega
  | call log hcall _ _ =>
      right
      intro heq
      rcases hcall with hcall | hcall
      · rcases a.writer_eq with h0 | hx
        · exact hT.ne_zero (heq.trans h0)
        · rw [hw (hx.symm.trans heq.symm)] at hcall
          cases hcall
      · exact hT.ne_zero (heq.trans hcall)
  | exit hend _ h =>
      right
      rw [Step.writer_exit hend]
      exact ((h.activeTx T).mp hst.2).2

/-- Who has begun and is active later has been active all the time. -/
theorem Moved.stays_of_begun {s' : GraphDb} (h : Moved top L s a s') (hle : T ≤ top)
    (hT : T ∈ s'.activeTx) : Stays s s' T := by
  refine ⟨?_, hT⟩
  cases h with
  | idle log h => exact h ▸ hT
  | begun ha _ htop hb =>
      rw [hb.active] at hT
      rcases List.mem_cons.mp hT with rfl | hin
      · omega
      · exact hin
  | call log _ _ h => exact (h _ (.inr rfl)).tx.activeTx ▸ hT
  | exit _ _ h => exact ((h.activeTx T).mp hT).1

theorem Sys.begun_mono {x : Nat} (hx : x ∈ s.begun) : x ∈ (s.step a).begun := by
  by_cases hbegin : ∃ T, a = .begin T
  · obtain ⟨T, rfl⟩ := hbegin
    simp only [Sys.step, Sys.exec]
    split
    · exact hx
    · simp only [Sys.call]
      split
      · exact List.mem_cons_of_mem _ hx
      · exact hx
  · rw [Sys.begun_step fun T hT => hbegin ⟨T, hT⟩]
    exact hx

theorem Sys.active_of_run {bs : List Step} (h : s.Inv top L) (hc : s.CleanRun bs)
    (hT : T ∈ s.begun) (hend : T ∈ (s.run bs).db.activeTx) : T ∈ s.db.activeTx := by
  induction bs generalizing top L s with
  | nil => exact hend
  | cons a bs ih =>
      obtain ⟨top', h'⟩ := h.step hc.1
      have hin := ih h' hc.2 (Sys.begun_mono hT) hend
      exact ((Sys.moved h hc.1).stays_of_begun (h.le_top T hT) hin).1

/-- The rule for what the steps of others keep for `T`. -/
theorem Sys.run_spares {P : Log → GraphDb → Prop} {bs : List Step}
    (step : ∀ (s : Sys) (L : Log) (top : Nat) (a : Step), s.Inv top L → s.Clean a →
      Stays s (s.step a).db T → T ≠ a.writer → P L s.db → P (L.step s a) (s.step a).db)
    (h : s.Inv top L) (hc : s.CleanRun bs)
    (hw : ∀ b ∈ bs, b.xid = T → b.writes = false) (hT : T ∈ s.db.activeTx)
    (hend : T ∈ (s.run bs).db.activeTx) (hP : P L s.db) :
    P (L.run s bs) (s.run bs).db := by
  induction bs generalizing top L s with
  | nil => exact hP
  | cons a bs ih =>
      obtain ⟨top', h'⟩ := h.step hc.1
      have hbegun := Sys.begun_mono (a := a) (h.running T (h.db.active T hT).running)
      have hT' := Sys.active_of_run h' hc.2 hbegun hend
      refine ih h' hc.2 (fun b hb => hw b (List.mem_cons_of_mem _ hb)) hT' hend ?_
      rcases (Sys.moved h hc.1).spares h.db (hw a (List.mem_cons_self ..)) ⟨hT, hT'⟩ with
        ⟨hlog, hdb⟩ | hne
      · rw [hlog, hdb]
        exact hP
      · exact step s L top a h hc.1 ⟨hT, hT'⟩ hne hP

end Steps

/-! ## Reads in a clean run -/

/-- A read by an active transaction that returns. -/
structure Sys.Reads (s : Sys) (a : Step) (n : Ref) : Prop where
  active : a.xid ∈ s.db.activeTx
  reply : (s.exec a).1 = .ok (.ref n)

/-- After the run `as`, which ends with the read, the reference `n` leads
`T` to version `e` of node `id`. -/
def NodeVersion (as : List Step) (T id : Nat) (n : Ref) (e : Nat × Content (Nat × Nat)) :
    Prop :=
  n.id = id ∧ Selects nodeScheme (Sys.initial.run as).db.nodeProperties
    ((committed as).nodes id) T (nodeTable.record (Sys.initial.run as).db id) n.loc e

/-- The same for relationships. -/
def RshipVersion (as : List Step) (T id : Nat) (n : Ref)
    (e : Nat × Content (Nat × Nat × Nat × Nat)) : Prop :=
  n.id = id ∧ Selects rshipScheme (Sys.initial.run as).db.rshipProperties
    ((committed as).rships id) T (rshipTable.record (Sys.initial.run as).db id) n.loc e

section Reads

variable {top T id : Nat} {L : Log} {s : Sys} {n : Ref}

variable {t : Table α} {v : View t κ β} {H : Nat → Hist κ} {db db' : GraphDb}

theorem ReadSide.readBy (S : ReadSide v) (h : s.Inv top L)
    (hr : s.Reads (S.read T id) n) : ReadBy t T id s.db n (s.step (S.read T id)).db := by
  have hact := h.db.active _ hr.active
  rw [S.read_xid] at hact
  have hreply := hr.reply
  simp only [Sys.step, S.exec_read, Sys.call] at hreply ⊢
  split at hreply
  · next b db heq =>
    cases hreply
    simp only [S.keep_db]
    exact wp_ok (Table.byId_spec hact.running) heq
  · cases hreply

/-- The read, after it has been recorded in the slot. -/
theorem ReadBy.recorded (v : View t κ β) (hr : ReadBy t T id db n db') :
    (t.record db' id).used = true ∧ T ≤ (t.record db' id).obj.rts ∧
      (t.record db' id).getValidVersion T = .ok n.loc := by
  rw [hr.record v]
  exact ⟨hr.used, Record.le_recordRead_rts _ T, hr.version⟩

theorem View.Inv.read_selects (h : v.Inv top H db) (hact : Active top db T)
    (hr : ReadBy t T id db n db') :
    ∃ e, Selects v.scheme (t.props db') (H id) T (t.record db' id) n.loc e ∧
      Relies v.scheme T e (H id) (t.record db' id) := by
  have ho := hr.op (W := T) h
  obtain ⟨hu, hrts, hv⟩ := hr.recorded v
  exact (ho.inv.slots id).record.selects hu (ho.tx.activeTx ▸ hact.mem) hact.ne_zero hrts hv

theorem View.Inv.read_sees {e : Nat × Content κ} (h : v.Inv top H db)
    (hact : Active top db T) (hr : ReadBy t T id db n db')
    (hsee : Sees v.scheme T e (H id) (t.record db id)) :
    Selects v.scheme (t.props db') (H id) T (t.record db' id) n.loc e := by
  have ho := hr.op (W := 0) h
  have hmem := hact.mem
  rw [← ho.tx.activeTx] at hmem
  obtain ⟨hu, _, hv⟩ := hr.recorded v
  have hc := (h.slots id).dirty T hact.mem
  have hc' := (ho.inv.slots id).dirty T hmem
  rw [ho.dirty T hact.ne_zero] at hc'
  have hsee' := hsee.evolve (ho.evolve id) hact.mem hact.ne_zero hc hc'
  exact hsee'.selects (ho.inv.slots id).record hu hmem hact.ne_zero hv

/-- What a transaction relies on outlasts the steps of others. -/
theorem ReadSide.relies_run (S : ReadSide v) {bs : List Step} {e : Nat × Content κ}
    (h : s.Inv top L) (hc : s.CleanRun bs) (hw : ∀ b ∈ bs, b.xid = T → b.writes = false)
    (hT : T ∈ s.db.activeTx) (hend : T ∈ (s.run bs).db.activeTx)
    (hrel : Relies v.scheme T e (S.hist L id) (t.record s.db id)) :
    Relies v.scheme T e (S.hist (L.run s bs) id) (t.record (s.run bs).db id) := by
  refine Sys.run_spares (T := T)
    (P := fun L db => Relies v.scheme T e (S.hist L id) (t.record db id)) ?_
    h hc hw hT hend hrel
  intro s L top a h hc hst hne hrel
  obtain ⟨top', h'⟩ := h.step hc
  have hm := Sys.moved h hc
  have hcoh := ((S.inv h.db).slots id).dirty T hst.1
  have hcoh' := ((S.inv h'.db).slots id).dirty T hst.2
  rw [S.dirty_step hm hst.1 hne h.db] at hcoh'
  exact hrel.evolve (S.evolve hm id) hst hne hcoh hcoh'

/-- The run up to a read, and the read. -/
theorem Sys.run_concat (as : List Step) (a : Step) :
    Sys.initial.run (as ++ [a]) = (Sys.initial.run as).step a := Sys.run_append _ as [a]

theorem committed_concat (as : List Step) (a : Step) :
    committed (as ++ [a]) = (committed as).step (Sys.initial.run as) a :=
  Log.run_append _ _ as [a]

/-- The versions of a table that a read leads to: `NodeVersion` and
`RshipVersion` in one. -/
def ReadSide.Version (S : ReadSide v) (as : List Step) (T id : Nat) (n : Ref)
    (e : Nat × Content κ) : Prop :=
  n.id = id ∧ Selects v.scheme (t.props (Sys.initial.run as).db)
    (S.hist (committed as) id) T (t.record (Sys.initial.run as).db id) n.loc e

/-- The reads of a record after a clean run. -/
theorem ReadSide.reads_select (S : ReadSide v) {as : List Step}
    (hclean : Sys.initial.CleanRun as)
    (hr : (Sys.initial.run as).Reads (S.read T id) n) :
    ∃ e, S.Version (as ++ [S.read T id]) T id n e ∧
      ∀ bs m, Sys.initial.CleanRun (as ++ S.read T id :: bs) →
        (∀ b ∈ bs, b.xid = T → b.writes = false) →
        (Sys.initial.run (as ++ S.read T id :: bs)).Reads (S.read T id) m →
        S.Version (as ++ S.read T id :: bs ++ [S.read T id]) T id m e := by
  obtain ⟨top, h⟩ := Sys.inv_run hclean
  have hread := S.readBy h hr
  have hT := hr.active
  rw [S.read_xid] at hT
  obtain ⟨e, hsel, hrel⟩ := (S.inv h.db).read_selects (h.db.active T hT) hread
  refine ⟨e, ⟨hread.ref, ?_⟩, fun bs m hc hw hr2 => ?_⟩
  · rw [Sys.run_concat, committed_concat, S.log_read]
    exact hsel
  · obtain ⟨_, hstep, hbs⟩ := Sys.CleanRun.append.mp hc
    obtain ⟨top1, h1⟩ := h.step hstep
    rw [S.log_read] at h1
    obtain ⟨top2, h2⟩ := h1.run hbs
    have hrun : Sys.initial.run (as ++ S.read T id :: bs) =
        ((Sys.initial.run as).step (S.read T id)).run bs := Sys.run_append ..
    have hlog : committed (as ++ S.read T id :: bs) =
        (committed as).run ((Sys.initial.run as).step (S.read T id)) bs := by
      rw [committed, Log.run_append, Log.run, S.log_read]
      rfl
    rw [hrun] at hr2
    have hT1 : T ∈ ((Sys.initial.run as).step (S.read T id)).db.activeTx := by
      rw [(hread.op (W := T) (S.inv h.db)).tx.activeTx]
      exact hT
    have hT2 := hr2.active
    rw [S.read_xid] at hT2
    have hrel2 := S.relies_run h1 hbs hw hT1 hT2 hrel
    have hread2 := S.readBy h2 hr2
    refine ⟨hread2.ref, ?_⟩
    rw [Sys.run_concat, committed_concat, S.log_read, hrun, hlog]
    exact (S.inv h2.db).read_sees (h2.db.active T hT2) hread2 hrel2.sees

end Reads

/-- Every read of an active transaction selects its own latest version, or
the version committed by the transaction with the largest id not above its
own; and it selects it again until the transaction writes. -/
theorem reads_select_snapshots (as : List Step) (hclean : Sys.initial.CleanRun as)
    (T id : Nat) :
    (∀ n, (Sys.initial.run as).Reads (.nodeById T id) n →
      ∃ e, NodeVersion (as ++ [.nodeById T id]) T id n e) ∧
    (∀ n, (Sys.initial.run as).Reads (.rshipById T id) n →
      ∃ e, RshipVersion (as ++ [.rshipById T id]) T id n e) ∧
    (∀ bs n m, Sys.initial.CleanRun (as ++ .nodeById T id :: bs) →
      (∀ b ∈ bs, b.xid = T → b.writes = false) →
      (Sys.initial.run as).Reads (.nodeById T id) n →
      (Sys.initial.run (as ++ .nodeById T id :: bs)).Reads (.nodeById T id) m →
      ∃ e, NodeVersion (as ++ [.nodeById T id]) T id n e ∧
        NodeVersion (as ++ .nodeById T id :: bs ++ [.nodeById T id]) T id m e) ∧
    ∀ bs n m, Sys.initial.CleanRun (as ++ .rshipById T id :: bs) →
      (∀ b ∈ bs, b.xid = T → b.writes = false) →
      (Sys.initial.run as).Reads (.rshipById T id) n →
      (Sys.initial.run (as ++ .rshipById T id :: bs)).Reads (.rshipById T id) m →
      ∃ e, RshipVersion (as ++ [.rshipById T id]) T id n e ∧
        RshipVersion (as ++ .rshipById T id :: bs ++ [.rshipById T id]) T id m e := by
  refine ⟨fun n hr => ?_, fun n hr => ?_, fun bs n m hc hw hr hr2 => ?_,
    fun bs n m hc hw hr hr2 => ?_⟩
  · obtain ⟨e, he, _⟩ := nodeReads.reads_select hclean hr
    exact ⟨e, he⟩
  · obtain ⟨e, he, _⟩ := rshipReads.reads_select hclean hr
    exact ⟨e, he⟩
  · obtain ⟨e, he, hagain⟩ := nodeReads.reads_select hclean hr
    exact ⟨e, he, hagain bs m hc hw hr2⟩
  · obtain ⟨e, he, hagain⟩ := rshipReads.reads_select hclean hr
    exact ⟨e, he, hagain bs m hc hw hr2⟩

/-- Transaction 20 reads a node twice, and 30 commits an update in between. -/
theorem reads_select_snapshots_overwritten :
    ∃ e, NodeVersion ([.begin 10, .addNode 10 0 1 .none, .commit 10, .begin 20] ++
        [.nodeById 20 0]) 20 0 ⟨0, .slot⟩ e ∧
      NodeVersion ([.begin 10, .addNode 10 0 1 .none, .commit 10, .begin 20] ++
        .nodeById 20 0 :: [.begin 30, .nodeById 30 0, .updateNode 30 ⟨0, .slot⟩ .none 5,
          .commit 30] ++ [.nodeById 20 0]) 20 0 ⟨0, .copy 1⟩ e :=
  (reads_select_snapshots _ (by decide) 20 0).2.2.1 _ _ _ (by decide) (by decide)
    ⟨by decide, rfl⟩ ⟨by decide, rfl⟩

/-- Transaction 20 relabels node 0 and asks for its delete, which is refused
because the node has a relationship. -/
def refusedDelete : List Step :=
  [.begin 10, .addNode 10 0 1 .none, .addNode 10 1 1 .none,
    .addRelationship 10 0 0 1 5 .none, .commit 10, .begin 20, .nodeById 20 0,
    .updateNode 20 ⟨0, .slot⟩ .none 99, .deleteNode 20 0, .begin 30]

/-- The refused delete has unlocked the uncommitted version, and 30 reads
it. -/
theorem refused_delete_exposes_update :
    (Sys.initial.run refusedDelete).Reads (.nodeById 30 0) ⟨0, .copy 2⟩ ∧
      ¬ ∃ e, NodeVersion (refusedDelete ++ [.nodeById 30 0]) 30 0 ⟨0, .copy 2⟩ e := by
  refine ⟨⟨by decide, rfl⟩, fun ⟨e, _, hsel⟩ => ?_⟩
  have hlog : (committed (refusedDelete ++ [.nodeById 30 0])).nodes 0 =
      [(10, some ((0, 1), []))] := rfl
  have hnone : (nodeTable.record (Sys.initial.run (refusedDelete ++
      [.nodeById 30 0])).db 0).getDirtyVersion 30 = none := rfl
  cases hsel with
  | own latest _ _ _ =>
      rw [hnone] at latest
      cases latest
  | @committed o _ hderef _ latest img _ _ =>
      have hin := latest.1
      rw [hlog, List.mem_singleton] at hin
      simp only [Prod.mk.injEq, Option.some.injEq] at hin
      rw [hin.2] at img
      have hlabel : nodeScheme.img o.data = (0, 99) := by
        have hat : (nodeTable.record (Sys.initial.run (refusedDelete ++
            [.nodeById 30 0])).db 0).deref (.copy 2) = some ⟨0, 20, INF, 20, true, true,
              ⟨0, 0, UNKNOWN, UNKNOWN, 99⟩⟩ := rfl
        rw [hat] at hderef
        cases hderef
        rfl
      rw [hlabel] at img
      exact absurd img (by decide)

end Poseidon
