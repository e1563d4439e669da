import Poseidon.Proofs.Links

/-!
# Referential integrity

`delete_node` looks for relationships of the node, and lets the first one on
each of its lists decide that the caller has not locked; a relationship that
is deleted, but not freed yet, may stand there and hide the others.
`Sys.Linked` says, step by step, what the checks of the store rely on. In a
run of such steps every relationship that a transaction sees has both nodes,
and `delete_node` refuses every node that has a relationship.
-/

namespace Poseidon

open Wp History

/-- What the store relies on for the links between nodes and relationships,
when a step of an active transaction is taken. -/
def Sys.Linked (s : Sys) (L : Log) : Step → Prop
  | .deleteNode T nid => T ∈ s.db.activeTx → s.db.ShowsNode T L nid
  | .detachDeleteNode T nid => T ∈ s.db.activeTx → s.db.ListsNode T L nid
  | .commit T => T ∈ s.db.activeTx → s.db.Attached T
  | _ => True

/-- A clean run of such steps, from a state where `L` is committed. -/
def Sys.LinkedRun (s : Sys) (L : Log) : List Step → Prop
  | [] => True
  | a :: as => s.Clean a ∧ s.Linked L a ∧ (s.step a).LinkedRun (L.step s a) as

theorem Sys.LinkedRun.append {s : Sys} {L : Log} {as bs : List Step} :
    s.LinkedRun L (as ++ bs) ↔
      s.LinkedRun L as ∧ (s.run as).LinkedRun (L.run s as) bs := by
  induction as generalizing s L with
  | nil => simp [Sys.LinkedRun, Sys.run, Log.run]
  | cons a as ih =>
      simp only [List.cons_append, Sys.LinkedRun, ih, and_assoc]
      rfl

theorem Sys.LinkedRun.clean {s : Sys} {L : Log} {as : List Step} (h : s.LinkedRun L as) :
    s.CleanRun as := by
  induction as generalizing s L with
  | nil => trivial
  | cons a as ih => exact ⟨h.1, ih h.2.2⟩

/-- Everything in a system hangs together. -/
structure Sys.Whole (s : Sys) (L : Log) : Prop where
  joined : L.Joined
  tidy : ∀ T ∈ s.db.activeTx, Tidy T L s.db

section Steps

variable {top T : Nat} {L : Log} {s : Sys} {a : Step}

theorem Tidy.congr {db db' : GraphDb} (h : Tidy T L db)
    (hn : ∀ i, nodeTable.record db' i = nodeTable.record db i)
    (hr : ∀ i, rshipTable.record db' i = rshipTable.record db i) : Tidy T L db' := by
  refine ⟨fun n hb rid e hs => ?_, fun rid e n ha htouch => ?_, fun rid dn hdn => ?_⟩
  · rw [Buried, hn] at hb
    rw [SeesRship, hr] at hs
    exact h.buried n hb rid e hs
  · rw [Added, hr] at ha
    rw [HoldsNode, hn]
    exact h.added rid e n ha htouch
  · rw [hr] at hdn
    exact h.sameEnds rid dn hdn

/-- A transaction that has done nothing. -/
theorem Tidy.of_nothing {db : GraphDb}
    (hn : ∀ i, (nodeTable.record db i).getDirtyVersion T = none)
    (hr : ∀ i, (rshipTable.record db i).getDirtyVersion T = none) : Tidy T L db := by
  refine ⟨fun n ⟨d, hd, _⟩ => ?_, fun rid e n ⟨d, hd, _⟩ => ?_, fun rid dn hdn => ?_⟩
  · rw [hn] at hd
    cases hd
  · rw [hr] at hd
    cases hd
  · rw [hr] at hdn
    cases hdn

/-- Nobody has versions of a transaction that has not begun. -/
theorem View.Inv.own_new {α κ β : Type} {t : Table α} {v : View t κ β} {H : Nat → Hist κ}
    {db db' : GraphDb} (h : v.Inv top H db) (h' : v.Inv T H db') (htop : top < T)
    (hT : T ∈ db'.activeTx) (hr : ∀ i, t.record db' i = t.record db i) (i : Nat) :
    (t.record db' i).getDirtyVersion T = none := by
  refine ((h'.slots i).record.own_none_iff hT (by omega)).mpr fun dn hf => ?_
  have hu := hf.used
  have hl := hf.locked
  rw [hr] at hu hl
  have hle := (h.slots i).record.txnId_le hu
  omega

/-- The calls of a transaction keep its own links. -/
theorem Sys.call_tidy (h : s.Inv top L) (hc : s.Clean a) (hl : s.Linked L a)
    (hs : s.db.Sound) (hcall : a.writes = true ∨ a.writer = 0)
    (hact : Active top s.db a.xid) (ht : Tidy a.xid L s.db) :
    Tidy a.xid L (s.step a).db := by
  have hi := h.db
  have of_calm : ∀ {β : Type} {x : DbM β}, always x (Calm a.xid L s.db) s.db →
      always x (Tidy a.xid L) s.db := fun hx => always_mono hx fun _ hc => hc.tidy ht
  cases a with
  | begin T => exact hcall.elim (fun hw => by cases hw) fun h0 => absurd h0 hact.ne_zero
  | commit T => exact hcall.elim (fun hw => by cases hw) fun h0 => absurd h0 hact.ne_zero
  | abort T => exact hcall.elim (fun hw => by cases hw) fun h0 => absurd h0 hact.ne_zero
  | nodeById T id =>
      refine Sys.call_db (P := Tidy T L) (fun _ _ => rfl) (of_calm ?_)
      exact wp_mono (nodeById_calm hi hact) (fun _ _ hc => hc.1) fun _ _ hc => hc
  | rshipById T id =>
      refine Sys.call_db (P := Tidy T L) (fun _ _ => rfl) (of_calm ?_)
      exact wp_mono (rshipById_calm hi hact) (fun _ _ hc => hc.1) fun _ _ hc => hc
  | scanNodes T => exact Sys.call_db (P := Tidy T L) (fun _ _ => rfl) (runScan_db ht)
  | scanRships T lc => exact Sys.call_db (P := Tidy T L) (fun _ _ => rfl) (runScan_db ht)
  | addNode T slot label props =>
      exact Sys.call_db (P := Tidy T L) (fun _ _ => rfl) (of_calm (addNode_calm hi hact))
  | addRelationship T slot fromId toId label props =>
      exact Sys.call_db (P := Tidy T L) (fun _ _ => rfl) (addRelationship_tidy ht hi hact)
  | updateNode T n props lc =>
      simp only [Sys.step, Sys.exec]
      split
      · next hin =>
        refine Sys.call_db (P := Tidy T L) (fun _ _ => rfl)
          (of_calm (updateNode_calm hi hact ?_))
        exact (h.nodeRefs T n (hin.elim id hc.2)).2 hact.mem
      · exact ht
  | updateRelationship T n props lc =>
      simp only [Sys.step, Sys.exec]
      split
      · next hin =>
        refine Sys.call_db (P := Tidy T L) (fun _ _ => rfl)
          (of_calm (updateRelationship_calm hi hact ?_))
        exact (h.rshipRefs T n (hin.elim id hc.2)).2 hact.mem
      · exact ht
  | deleteNode T nid =>
      refine Sys.call_db (P := Tidy T L) (fun _ _ => rfl) ?_
      exact wp_mono (deleteNode_tidy ht hi hact hc.2 fun d hd => (hl hact.mem).passes hs hd)
        (fun _ _ hp => hp.1) fun _ _ hp => hp
  | detachDeleteNode T nid =>
      exact Sys.call_db (P := Tidy T L) (fun _ _ => rfl)
        (detachDeleteNode_tidy ht hi hact hs hc.2.1 hc.2.2 (hl hact.mem))
  | deleteRelationship T rid =>
      refine Sys.call_db (P := Tidy T L) (fun _ _ => rfl) (of_calm ?_)
      exact wp_mono (deleteRelationship_calm hi hact hc.2) (fun _ _ hc => hc.1)
        fun _ _ hc => hc

/-- One step keeps it. -/
theorem Sys.Whole.step (hw : s.Whole L) (h : s.Inv top L) (hs : s.db.Sound)
    (hc : s.Clean a) (hl : s.Linked L a) : (s.step a).Whole (L.step s a) := by
  cases Sys.moved h hc with
  | idle log hdb =>
      rw [log]
      exact ⟨hw.joined, hdb ▸ hw.tidy⟩
  | @begun T ha log htop hb =>
      rw [log]
      refine ⟨hw.joined, fun T' hT' => ?_⟩
      have hmem := hT'
      rw [hb.active] at hT'
      rcases List.mem_cons.mp hT' with rfl | hT'
      · exact Tidy.of_nothing (h.db.nodes.own_new hb.inv.nodes htop hmem hb.nodes)
          (h.db.rships.own_new hb.inv.rships htop hmem hb.rships)
      · exact (hw.tidy T' hT').congr hb.nodes hb.rships
  | call log hcall hact hop =>
      rw [log]
      refine ⟨hw.joined, fun T hT => ?_⟩
      have ho := hop a.xid (.inl rfl)
      rw [ho.tx.activeTx] at hT
      by_cases hne : T = a.xid
      · rw [hne] at hT ⊢
        exact Sys.call_tidy h hc hl hs hcall hact (hw.tidy _ hT)
      · exact (ho.calm h.db (h.db.active T hT) hne).tidy (hw.tidy T hT)
  | exit hend hact he =>
      have hothers : ∀ T ∈ (s.step a).db.activeTx, T ∈ s.db.activeTx ∧ T ≠ a.xid :=
        fun T hT => (he.activeTx T).mp hT
      rcases hend with ha | ha
      · obtain ⟨Z, rfl⟩ : ∃ Z, a = .commit Z := ⟨_, ha⟩
        have hatt := hl hact.mem
        have hext := (Sys.commit_extended h.db hact).1
        refine ⟨hw.joined.commit (hw.tidy Z hact.mem) h.db hact he hext hatt, fun T hT => ?_⟩
        obtain ⟨hin, hne⟩ := hothers T hT
        exact (hw.tidy T hin).exit h.db hact (h.db.active T hin) hne he hext.grown
          (.inl hatt)
      · obtain ⟨Z, rfl⟩ : ∃ Z, a = .abort Z := ⟨_, ha⟩
        refine ⟨hw.joined, fun T hT => ?_⟩
        obtain ⟨hin, hne⟩ := hothers T hT
        exact (hw.tidy T hin).exit h.db hact (h.db.active T hin) hne he (Grown.refl Z s.db L)
          (.inr rfl)

theorem Sys.Whole.run {as : List Step} (hw : s.Whole L) (h : s.Inv top L) (hs : s.db.Sound)
    (hrun : s.LinkedRun L as) : (s.run as).Whole (L.run s as) := by
  induction as generalizing top L s with
  | nil => exact hw
  | cons a as ih =>
      obtain ⟨hc, hl, hrest⟩ := hrun
      obtain ⟨top', h'⟩ := h.step hc
      exact ih (hw.step h hs hc hl) h' (Sys.step_sound a hs) hrest

theorem Sys.whole_initial : Sys.initial.Whole Log.empty := by
  refine ⟨⟨fun x rid t c n hl => ?_, fun rid => trivial⟩, fun T hT => (by cases hT)⟩
  cases hl.1

end Steps

/-- What `rship_by_id` returns is in the snapshot of the caller. -/
theorem View.Inv.read_visible {α κ β : Type} {t : Table α} {v : View t κ β}
    {H : Nat → Hist κ} {db db' : GraphDb} {top T id : Nat} {n : Ref} (h : v.Inv top H db)
    (hact : Active top db T) (hr : ReadBy t T id db n db') :
    ∃ e, Selects v.scheme (t.props db') (H id) T (t.record db' id) n.loc e ∧
      Visible v.scheme T (H id) (t.record db id) e.2 := by
  obtain ⟨e, hsel, _⟩ := h.read_selects hact hr
  refine ⟨e, hsel, hsel.visible.congr (Record.own_congr ?_)⟩
  rw [hr.record v]
  rfl

/-- Every relationship in the snapshot of an active transaction has both
nodes in it, and so has every relationship that `rship_by_id` returns.
`delete_node` returns only if the caller sees no relationship of the node,
and refuses the node otherwise, if it can be locked. -/
theorem referential_integrity (as bs : List Step)
    (hrun : Sys.initial.LinkedRun Log.empty (as ++ bs)) (T : Nat)
    (hT : T ∈ (Sys.initial.run as).db.activeTx) :
    (∀ rid e, SeesRship T (committed as) (Sys.initial.run as).db rid e →
      SeesNode T (committed as) (Sys.initial.run as).db e.1 ∧
        SeesNode T (committed as) (Sys.initial.run as).db e.2) ∧
    (∀ rid n, (Sys.initial.run as).Reads (.rshipById T rid) n →
      ∃ v, RshipVersion (as ++ [.rshipById T rid]) T rid n v ∧
        SeesNode T (committed as) (Sys.initial.run as).db (endsOf v.2).1 ∧
        SeesNode T (committed as) (Sys.initial.run as).db (endsOf v.2).2) ∧
    ∀ nid cs, bs = .deleteNode T nid :: cs →
      (((Sys.initial.run as).exec (.deleteNode T nid)).1 = .ok .done →
        ∀ rid e, SeesRship T (committed as) (Sys.initial.run as).db rid e →
          ¬ Touches e nid) ∧
      ((∃ rid e, SeesRship T (committed as) (Sys.initial.run as).db rid e ∧ Touches e nid) →
        (Sys.initial.run as).db.Lockable T nid →
        ((Sys.initial.run as).exec (.deleteNode T nid)).1 =
          .error .orphanedRelationship) := by
  obtain ⟨has, hbs⟩ := Sys.LinkedRun.append.mp hrun
  obtain ⟨top, h⟩ := Sys.inv_run has.clean
  have hs := Sys.run_sound as
  have hw : (Sys.initial.run as).Whole (committed as) :=
    Sys.whole_initial.run Sys.inv_initial (Sys.run_sound []) has
  have hact := h.db.active T hT
  have ht := hw.tidy T hT
  have hnodes : ∀ rid e, SeesRship T (committed as) (Sys.initial.run as).db rid e →
      SeesNode T (committed as) (Sys.initial.run as).db e.1 ∧
        SeesNode T (committed as) (Sys.initial.run as).db e.2 := fun rid e hsee =>
    ⟨ht.seesNode hw.joined h.db hsee (.inl rfl), ht.seesNode hw.joined h.db hsee (.inr rfl)⟩
  refine ⟨hnodes, fun rid n hr => ?_, fun nid cs hcs => ?_⟩
  · have hread := rshipReads.readBy h hr
    obtain ⟨v, hsel, hvis⟩ := h.db.rships.read_visible hact hread
    refine ⟨v, ⟨hread.ref, ?_⟩, hnodes rid _ ⟨v.2, hvis, rfl⟩⟩
    rw [Sys.run_concat, committed_concat]
    exact hsel
  · rw [hcs] at hbs
    obtain ⟨hc, hl, _⟩ := hbs
    have hshow := hl hT
    have hdel := deleteNode_tidy ht h.db hact hc.2 fun d hd => hshow.passes hs hd
    refine ⟨fun hdone => ?_, fun ⟨rid, e, hsee, htouch⟩ hlk => ?_⟩
    · simp only [Sys.exec, Sys.call] at hdone
      split at hdone
      · next b db heq => exact (wp_ok hdel heq).2
      · cases hdone
    · obtain ⟨db, hx⟩ := deleteNode_orphaned h.db hact hs hc.2 hlk hshow hsee htouch
      simp only [Sys.exec, Sys.call, hx]

/-- A relationship with one committed version, which nobody has changed. -/
theorem seesRship_of_single {as : List Step} {T rid t : Nat}
    {c : Content (Nat × Nat × Nat × Nat)}
    (hown : (rshipTable.record (Sys.initial.run as).db rid).getDirtyVersion T = none)
    (hlog : (committed as).rships rid = [(t, some c)]) (hle : t ≤ T) :
    SeesRship T (committed as) (Sys.initial.run as).db rid (endsOf c) := by
  refine ⟨c, .committed hown (t := t) ?_, rfl⟩
  rw [hlog]
  exact latest_head (List.pairwise_singleton ..) hle

/-- Two nodes with a relationship in each direction, and a transaction that
wants to delete one of them. -/
def mutualRun : List Step :=
  [.begin 10, .addNode 10 0 1 .none, .addNode 10 1 1 .none,
    .addRelationship 10 0 0 1 5 .none, .addRelationship 10 1 1 0 5 .none, .commit 10,
    .begin 20]

/-- The delete is refused. -/
theorem referential_integrity_refused :
    ((Sys.initial.run mutualRun).exec (.deleteNode 20 0)).1 =
      .error .orphanedRelationship := by
  have hshow : (Sys.initial.run mutualRun).db.ShowsNode 20
      (Log.empty.run Sys.initial mutualRun) 0 := by
    rintro d ⟨l, o, hv, ho, hd⟩
    have hslot : l = .slot := by
      cases hv
      rfl
    subst hslot
    cases ho
    subst hd
    refine ⟨⟨[0], ?_, fun _ _ _ _ => ⟨[], 0, [], rfl, nofun, rfl⟩⟩,
      ⟨[1], ?_, fun _ _ _ _ => ⟨[], 1, [], rfl, nofun, rfl⟩⟩⟩
    · exact .cons (j := UNKNOWN) (by decide) rfl .nil
    · exact .cons (j := UNKNOWN) (by decide) rfl .nil
  have hrun : Sys.initial.LinkedRun Log.empty (mutualRun ++ [.deleteNode 20 0]) := by
    refine Sys.LinkedRun.append.mpr ⟨?_, by decide, fun _ => hshow, trivial⟩
    exact ⟨by decide, trivial, by decide, trivial, by decide, trivial, by decide, trivial,
      by decide, trivial, by decide, fun _ => by decide, by decide, trivial, trivial⟩
  refine ((referential_integrity mutualRun _ hrun 20 (by decide)).2.2 0 [] rfl).2 ?_ ?_
  · have hlog : (committed mutualRun).rships 0 = [(10, some ((0, 0, 1, 5), []))] := rfl
    exact ⟨0, (0, 1), seesRship_of_single rfl hlog (by decide), .inl rfl⟩
  · exact ⟨.slot, _, rfl, rfl, rfl⟩

/-- Relationship 1 is deleted, but 15 is still active, so that it stays at
the head of the list of node 0 and hides relationship 0 from the check. -/
def hiddenRun : List Step :=
  [.begin 10, .addNode 10 0 1 .none, .addNode 10 1 1 .none, .addNode 10 2 1 .none,
    .addRelationship 10 0 0 1 5 .none, .addRelationship 10 1 0 2 5 .none, .commit 10,
    .begin 15, .begin 20, .deleteRelationship 20 1, .commit 20, .begin 30]

/-- Transaction 30 deletes node 0 although it sees relationship 0, and 40
reads a relationship without its source node. -/
theorem hidden_rship_loses_node :
    Sys.initial.CleanRun (hiddenRun ++ [.deleteNode 30 0, .commit 30, .begin 40]) ∧
    SeesRship 30 (committed hiddenRun) (Sys.initial.run hiddenRun).db 0 (0, 1) ∧
    ((Sys.initial.run hiddenRun).exec (.deleteNode 30 0)).1 = .ok .done ∧
    (Sys.initial.run (hiddenRun ++ [.deleteNode 30 0, .commit 30, .begin 40])).Reads
      (.rshipById 40 0) ⟨0, .slot⟩ ∧
    SeesRship 40 (committed (hiddenRun ++ [.deleteNode 30 0, .commit 30, .begin 40]))
      (Sys.initial.run (hiddenRun ++ [.deleteNode 30 0, .commit 30, .begin 40])).db 0 (0, 1) ∧
    ¬ SeesNode 40 (committed (hiddenRun ++ [.deleteNode 30 0, .commit 30, .begin 40]))
      (Sys.initial.run (hiddenRun ++ [.deleteNode 30 0, .commit 30, .begin 40])).db 0 := by
  refine ⟨by decide, ?_, rfl, ⟨by decide, rfl⟩, ?_, fun ⟨c, hc⟩ => ?_⟩
  · have hlog : (committed hiddenRun).rships 0 = [(10, some ((0, 0, 1, 5), []))] := rfl
    exact seesRship_of_single rfl hlog (by decide)
  · have hlog : (committed (hiddenRun ++ [.deleteNode 30 0, .commit 30,
        .begin 40])).rships 0 = [(10, some ((0, 0, 1, 5), []))] := rfl
    exact seesRship_of_single rfl hlog (by decide)
  · cases hc with
    | own latest _ _ => cases latest
    | @committed t _ latest =>
        have hlog : (committed (hiddenRun ++ [.deleteNode 30 0, .commit 30,
          .begin 40])).nodes 0 = [(30, none), (10, some ((0, 1), []))] := rfl
        rw [hlog] at latest
        obtain ⟨hmem, _, hmax⟩ := latest
        have hle := hmax (30, none) (by decide) (by decide)
        simp only [List.mem_cons, Prod.mk.injEq, reduceCtorEq, and_false, List.not_mem_nil,
          or_false, false_or] at hmem
        have hlt : ¬ 30 ≤ 10 := by decide
        exact hlt (hmem.1 ▸ hle)

end Poseidon
