import Poseidon.Proofs.Snapshot

/-!
# What a commit, an abort and the garbage collection leave

The end of a transaction takes its versions out of the dirty lists, drops
the copies that ended before the oldest active transaction, and frees the
slots that nobody can read. In a clean run this is safe: who could read a
record before can read it after, and gets the same version.
-/

namespace Poseidon

open Wp History

variable {α κ β : Type}

section Records

variable {k : Scheme α κ} {A A' : Nat → Prop} {top R W n : Nat} {p : PropertyList}
  {H H' : Hist κ} {r r' : Record α} {l : Loc} {e : Nat × Content κ}

/-- What a reader sees, and that nobody older than the reader works on it. -/
theorem RecInv.sees (h : RecInv k A top p.buildDirtyPropertyList H r)
    (hu : r.used = true) (hA : A R) (hR : R ≠ 0) (hv : r.getValidVersion R = .ok l) :
    ∃ e, Sees k R e H r ∧ (r.obj.txnId = 0 ∨ R ≤ r.obj.txnId) := by
  rcases h.read hu hA hR hv with ⟨dn, hf, _, _⟩ | ⟨o, c, hrc⟩
  · exact ⟨_, .own hf rfl, .inr (Nat.le_of_eq hf.locked.symm)⟩
  · exact ⟨(o.bts, c), .committed hrc.latest hrc.notOwn, hrc.lock⟩

/-- The end of `W` does not change what the others see: a version that it
commits is too young for those who could read the record. -/
theorem Sees.ends (hsee : Sees k R e H r) (hlock : r.obj.txnId = 0 ∨ R ≤ r.obj.txnId)
    (hend : Ends A W H r H' r') (hA : A R) (hne : R ≠ W)
    (hlog : H' = H ∨ ∃ c dn, H' = (W, c) :: H ∧ Front W dn r)
    (hc : Coherent n R r) (hc' : Coherent n R r') : Sees k R e H' r' := by
  cases hsee with
  | own hf he => exact .own (hend.front R _ hA hne hf) he
  | committed hl hno =>
      refine .committed ?_ (hc.nothing hc' hno)
      rcases hlog with rfl | ⟨c, dn, rfl, hf⟩
      · exact hl
      · refine (latest_cons_iff ?_).mpr hl
        have hW := hf.locked
        have h0 := hf.ne_zero
        show R < W
        omega

end Records

/-! ## The garbage collection -/

section Reads

variable {top R id : Nat} {L L' : Log} {s : Sys} {n : Ref} {t : Table α} {v : View t κ β}

/-- A read returns if and only if the record has a version for the reader. -/
theorem ReadSide.reads_iff (S : ReadSide v) (hk : t.KeepsSound) (hs : s.db.Sound)
    (hact : Active top s.db R) :
    s.Reads (S.read R id) n ↔ n.id = id ∧ (t.record s.db id).used = true ∧
      (t.record s.db id).getValidVersion R = .ok n.loc := by
  rw [← Table.byId_returns hk hs hact.running]
  constructor
  · intro hr
    have hreply := hr.reply
    simp only [S.exec_read, Sys.call] at hreply
    split at hreply
    · next b db heq =>
      cases hreply
      exact ⟨db, heq⟩
    · cases hreply
  · rintro ⟨db, heq⟩
    refine ⟨?_, ?_⟩
    · rw [S.read_xid]
      exact hact.mem
    · simp only [S.exec_read, Sys.call, heq]

/-- Who could read a record before the end of `W` can read it after, and
sees the same version. -/
theorem View.Inv.sees_ends {H H' : Nat → Hist κ} {W : Nat}
    {db db' : GraphDb} {l : Loc} (h : v.Inv top H db) (h' : v.Inv top H' db')
    (hend : Ends (· ∈ db'.activeTx) W (H id) (t.record db id) (H' id) (t.record db' id))
    (hlog : H' id = H id ∨ ∃ c, H' id = (W, c) :: H id ∧ id ∈ v.dirty (db.txs W))
    (hW : W ∈ db.activeTx) (hR : Active top db R) (hR' : R ∈ db'.activeTx) (hne : R ≠ W)
    (hdirty : v.dirty (db'.txs R) = v.dirty (db.txs R))
    (hu : (t.record db id).used = true)
    (hv : (t.record db id).getValidVersion R = .ok l) :
    ∃ e l', Sees v.scheme R e (H id) (t.record db id) ∧
      (t.record db' id).used = true ∧ (t.record db' id).getValidVersion R = .ok l' ∧
      Sees v.scheme R e (H' id) (t.record db' id) := by
  have hs := h.slots id
  have hs' := h'.slots id
  obtain ⟨e, hsee, hlock⟩ := hs.record.sees hu hR.mem hR.ne_zero hv
  obtain ⟨hu', l', hv'⟩ := hend.reads R hR' hR.ne_zero hR.lt_inf ⟨hu, l, hv⟩
  have hc' := hs'.dirty R hR'
  rw [hdirty] at hc'
  refine ⟨e, l', hsee, hu', hv', hsee.ends hlock hend hR' hne ?_ (hs.dirty R hR.mem) hc'⟩
  rcases hlog with heq | ⟨c, heq, hid⟩
  · exact .inl heq
  · obtain ⟨dn, hf⟩ := (hs.dirty W hW).front.mp (Nat.ne_of_gt (List.count_pos_iff.mpr hid))
    exact .inr ⟨c, dn, heq, hf⟩

/-- A commit or an abort is refused or ends its transaction. -/
theorem Sys.exit_cases {W : Nat} {a : Step} (h : s.Inv top L) (hc : s.Clean a)
    (ha : a = .commit W ∨ a = .abort W) :
    (L.step s a = L ∧ (s.step a).db = s.db) ∨
      (Active top s.db W ∧ Exit W top L (L.step s a) s.db (s.step a).db) := by
  have hxid : a.xid = W := by rcases ha with rfl | rfl <;> rfl
  have hm := Sys.moved h hc
  cases hm with
  | idle log hdb => exact .inl ⟨log, hdb⟩
  | begun hbegin _ _ _ => rcases ha with rfl | rfl <;> cases hbegin
  | call _ hcall hact _ =>
      exfalso
      rcases hcall with hcall | hcall
      · rcases ha with rfl | rfl <;> cases hcall
      · refine hact.ne_zero ?_
        rcases ha with rfl | rfl <;> exact hcall
  | exit _ hact hexit =>
      rw [hxid] at hact hexit
      exact .inr ⟨hact, hexit⟩

/-- A read of `gc_keeps_snapshots`, before and after the step. -/
theorem ReadSide.sees_exit (S : ReadSide v) (hk : t.KeepsSound) {W : Nat} {a : Step}
    (h : s.Inv top L) (hc : s.Clean a) (ha : a = .commit W ∨ a = .abort W) (hne : R ≠ W)
    (hr : s.Reads (S.read R id) n) (hs : s.db.Sound) (hs' : (s.step a).db.Sound) :
    ∃ m e, (s.step a).Reads (S.read R id) m ∧
      Sees v.scheme R e (S.hist L id) (t.record s.db id) ∧
      Sees v.scheme R e (S.hist (L.step s a) id) (t.record (s.step a).db id) := by
  have hmem := hr.active
  rw [S.read_xid] at hmem
  have hact := h.db.active R hmem
  obtain ⟨_, hu, hv⟩ := (S.reads_iff hk hs hact).mp hr
  rcases Sys.exit_cases h hc ha with ⟨hlog, hdb⟩ | ⟨hW, hexit⟩
  · obtain ⟨e, hsee, _⟩ := ((S.inv h.db).slots id).record.sees hu hact.mem hact.ne_zero hv
    have hact' : Active top (s.step a).db R := hdb ▸ hact
    refine ⟨n, e, (S.reads_iff hk hs' hact').mpr ?_, hsee, ?_⟩
    · rw [hdb]
      exact (S.reads_iff hk hs hact).mp hr
    · rw [hlog, hdb]
      exact hsee
  · have hR' : R ∈ (s.step a).db.activeTx := (hexit.activeTx R).mpr ⟨hact.mem, hne⟩
    have hxid : a.xid = W := by rcases ha with rfl | rfl <;> rfl
    have hlog := S.hist_step L s a id
    rw [hxid] at hlog
    obtain ⟨e, l', hsee, hu', hv', hsee'⟩ := (S.inv h.db).sees_ends (S.inv hexit.inv)
      (S.exit hexit id) hlog hW.mem hact hR' hne (S.exit_dirty hexit R) hu hv
    exact ⟨⟨id, l'⟩, e, (S.reads_iff hk hs' (hexit.inv.active R hR')).mpr
      ⟨rfl, hu', hv'⟩, hsee, hsee'⟩

/-- What a reader sees after a run is what its read selects. -/
theorem ReadSide.version_of_sees (S : ReadSide v) {as : List Step} {e : Nat × Content κ}
    (h : (Sys.initial.run as).Inv top (committed as))
    (hr : (Sys.initial.run as).Reads (S.read R id) n)
    (hsee : Sees v.scheme R e (S.hist (committed as) id)
      (t.record (Sys.initial.run as).db id)) : S.Version (as ++ [S.read R id]) R id n e := by
  have hread := S.readBy h hr
  have hmem := hr.active
  rw [S.read_xid] at hmem
  refine ⟨hread.ref, ?_⟩
  rw [Sys.run_concat, committed_concat, S.log_read]
  exact (S.inv h.db).read_sees (h.db.active R hmem) hread hsee

/-- The two reads around an exit select the same version. -/
theorem ReadSide.keeps_version (S : ReadSide v) (hk : t.KeepsSound) {W : Nat} {a : Step}
    {as : List Step} (ha : a = .commit W ∨ a = .abort W)
    (hclean : Sys.initial.CleanRun (as ++ [a])) (hne : R ≠ W)
    (hr : (Sys.initial.run as).Reads (S.read R id) n) :
    ∃ m e, (Sys.initial.run (as ++ [a])).Reads (S.read R id) m ∧
      S.Version (as ++ [S.read R id]) R id n e ∧
      S.Version (as ++ [a] ++ [S.read R id]) R id m e := by
  obtain ⟨hcas, hca, _⟩ := Sys.CleanRun.append.mp hclean
  obtain ⟨top, h⟩ := Sys.inv_run hcas
  obtain ⟨top', h'⟩ := Sys.inv_run hclean
  have hs := Sys.run_sound as
  have hs' := Sys.run_sound (as ++ [a])
  rw [Sys.run_concat] at hs'
  obtain ⟨m, e, hr', hsee, hsee'⟩ := S.sees_exit hk h hca ha hne hr hs hs'
  rw [← Sys.run_concat] at hr'
  refine ⟨m, e, hr', S.version_of_sees h hr hsee, S.version_of_sees h' hr' ?_⟩
  rw [Sys.run_concat, committed_concat]
  exact hsee'

end Reads

/-- A commit or an abort, with the garbage collection that both end in, does
not take a version away from anybody who is still active: a read that
returns before it returns after it, and selects the same version. -/
theorem gc_keeps_snapshots (as : List Step) (W : Nat) (a : Step)
    (ha : a = .commit W ∨ a = .abort W) (hclean : Sys.initial.CleanRun (as ++ [a]))
    (R id : Nat) (hne : R ≠ W) :
    (∀ n, (Sys.initial.run as).Reads (.nodeById R id) n →
      ∃ m e, (Sys.initial.run (as ++ [a])).Reads (.nodeById R id) m ∧
        NodeVersion (as ++ [.nodeById R id]) R id n e ∧
        NodeVersion (as ++ [a] ++ [.nodeById R id]) R id m e) ∧
    ∀ n, (Sys.initial.run as).Reads (.rshipById R id) n →
      ∃ m e, (Sys.initial.run (as ++ [a])).Reads (.rshipById R id) m ∧
        RshipVersion (as ++ [.rshipById R id]) R id n e ∧
        RshipVersion (as ++ [a] ++ [.rshipById R id]) R id m e := by
  exact ⟨fun n hr => nodeReads.keeps_version nodeTable_keepsSound ha hclean hne hr,
    fun n hr => rshipReads.keeps_version rshipTable_keepsSound ha hclean hne hr⟩

/-- Transaction 30 updates a node that 20 can read, and commits. -/
theorem gc_keeps_snapshots_overwritten :
    ∃ m e, (Sys.initial.run ([.begin 10, .addNode 10 0 1 .none, .commit 10, .begin 20,
        .begin 30, .nodeById 30 0, .updateNode 30 ⟨0, .slot⟩ .none 6] ++
        [.commit 30])).Reads (.nodeById 20 0) m ∧
      NodeVersion ([.begin 10, .addNode 10 0 1 .none, .commit 10, .begin 20, .begin 30,
        .nodeById 30 0, .updateNode 30 ⟨0, .slot⟩ .none 6] ++ [.nodeById 20 0]) 20 0
        ⟨0, .copy 1⟩ e ∧
      NodeVersion ([.begin 10, .addNode 10 0 1 .none, .commit 10, .begin 20, .begin 30,
        .nodeById 30 0, .updateNode 30 ⟨0, .slot⟩ .none 6] ++ [.commit 30] ++
        [.nodeById 20 0]) 20 0 m e :=
  (gc_keeps_snapshots _ 30 _ (.inl rfl) (by decide) 20 0 (by decide)).1 _ ⟨by decide, rfl⟩

/-- An update of relationship 0 is aborted, and its old version stays in the
dirty list, so that 40 keeps no copy when it deletes the relationship. -/
def deleteOverLeftover : List Step :=
  [.begin 10, .addNode 10 0 1 .none, .addNode 10 1 1 .none,
    .addRelationship 10 0 0 1 5 .none, .commit 10, .begin 15, .begin 20, .rshipById 20 0,
    .updateRelationship 20 ⟨0, .slot⟩ .none 6, .abort 20, .begin 30, .begin 40,
    .deleteRelationship 40 0, .commit 40]

/-- When 15 commits, the relationship is freed while 30 still reads it. -/
theorem vacuum_frees_readable_rship :
    (Sys.initial.run deleteOverLeftover).Reads (.rshipById 30 0) ⟨0, .slot⟩ ∧
      ¬ ∃ m, (Sys.initial.run (deleteOverLeftover ++ [.commit 15])).Reads
        (.rshipById 30 0) m := by
  refine ⟨⟨by decide, rfl⟩, fun ⟨m, hr⟩ => ?_⟩
  have hgone : ((Sys.initial.run (deleteOverLeftover ++ [.commit 15])).exec
      (.rshipById 30 0)).1 = .error .unknownId := rfl
  have hreply := hr.reply
  rw [hgone] at hreply
  cases hreply

/-! ## Single writers and disjoint versions -/

/-- `T` has a lock on the record or on one of its dirty versions. -/
def Record.HeldBy (r : Record α) (T : Nat) : Prop :=
  r.obj.txnId = T ∨ ∃ dn ∈ r.dirtyList, dn.elem.txnId = T

/-- At most one active transaction holds a lock. -/
def OneWriter (active : List Nat) (r : Record α) : Prop :=
  r.used = true → ∀ T ∈ active, ∀ T' ∈ active, r.HeldBy T → r.HeldBy T' → T = T'

/-- A copy `o` of a committed version with its properties: the slot, once its
record is committed, or a dirty object that nobody has locked. A slot that
has ended has given its properties up. -/
inductive CommittedCopy (k : Scheme α κ) (p : PropertyList) (r : Record α) (o : Obj α) :
    Option (List PItem) → Prop
  | slot (used : r.used = true) (bts : r.obj.bts ≠ 0) (obj : o = r.obj)
      (cts : r.obj.cts = INF) :
      CommittedCopy k p r o (p.buildDirtyPropertyList (k.pl r.obj.data)).toOption
  | ended (used : r.used = true) (bts : r.obj.bts ≠ 0) (obj : o = r.obj)
      (cts : r.obj.cts ≠ INF) : CommittedCopy k p r o none
  | copy {dn : DirtyObject α} (used : r.used = true) (mem : dn ∈ r.dirtyList)
      (free : dn.elem.txnId = 0) (obj : o = dn.elem) (nonempty : o.bts < o.cts) :
      CommittedCopy k p r o (some dn.properties)

/-- Different committed versions of a record have disjoint intervals. -/
def DisjointVersions (k : Scheme α κ) (p : PropertyList) (r : Record α) : Prop :=
  ∀ o items o' items', CommittedCopy k p r o items → CommittedCopy k p r o' items' →
    o.bts = o'.bts ∨ ∀ x, ¬ ((o.bts ≤ x ∧ x < o.cts) ∧ o'.bts ≤ x ∧ x < o'.cts)

/-- The copies of one version, now and later, say the same. -/
def SameVersions (k : Scheme α κ) (p : PropertyList) (r : Record α) (p' : PropertyList)
    (r' : Record α) : Prop :=
  ∀ o items o' items', CommittedCopy k p r o items → CommittedCopy k p' r' o' items' →
    o.bts = o'.bts → k.img o.data = k.img o'.data ∧
      ∀ is ∈ items, ∀ is' ∈ items', is = is'

section Copies

variable {k : Scheme α κ} {A : Nat → Prop} {top T : Nat} {p p' : PropertyList}
  {H H' : Hist κ} {r r' : Record α} {o : Obj α} {items : Option (List PItem)}

/-- Whoever is active and holds a lock has locked the slot. -/
theorem RecInv.txnId_of_heldBy {stored : Nat → Except Err (List PItem)}
    (h : RecInv k A top stored H r) (hA : A T) (hT : T ≠ 0) (hheld : r.HeldBy T) :
    r.obj.txnId = T := by
  rcases hheld with hlock | ⟨dn, hdn, hlock⟩
  · exact hlock
  · obtain ⟨d, hf⟩ := h.front_of_mem hA hT hdn hlock
    exact hf.locked

/-- A committed copy is what the history says, throughout its interval. -/
theorem RecInv.copy_latest (h : RecInv k A top p.buildDirtyPropertyList H r)
    (hcopy : CommittedCopy k p r o items) :
    ∃ c, (o.bts, some c) ∈ H ∧ k.img o.data = c.1 ∧ (∀ is ∈ items, is = c.2) ∧
      ∀ x, o.bts ≤ x → x < o.cts → Latest H x (o.bts, some c) := by
  have hs := h.sorted
  cases hcopy with
  | slot hu hb ho hc =>
      subst ho
      cases h.phase with
      | unused hp => rw [hp.used] at hu; cases hu
      | inserting hp => exact absurd hp.bts hb
      | @live own rest is H₁ hp =>
          refine ⟨(k.img r.obj.data, is), hp.bts_mem, rfl, fun i hi => ?_, fun x hx _ => ?_⟩
          · rw [hp.holds] at hi
            exact (Option.some.inj hi).symm
          · rw [hp.head] at hs ⊢
            exact latest_head hs hx
      | deleted hp =>
          have := hp.cts_lt
          omega
  | ended hu hb ho hc =>
      subst ho
      obtain ⟨is, H₁, hp⟩ := h.deleted_of_ended hu hc
      refine ⟨(k.img r.obj.data, is), ?_, rfl, fun i hi => (by cases hi), fun x hx hx' => ?_⟩
      · rw [hp.head]
        exact List.mem_cons_of_mem _ (List.mem_cons_self ..)
      · rw [hp.head] at hs ⊢
        exact (latest_cons_iff hx').mpr (latest_head hs.tail hx)
  | @copy dn hu hmem hfree ho hlt =>
      subst ho
      have hpast : ∀ {b o}, Past k A top H b o dn → ∀ x, dn.elem.bts ≤ x → x < dn.elem.cts →
          Latest H x (dn.elem.bts, some (dn.content k)) := by
        intro b o hp
        cases hp with
        | kept _ content _ _ _ => exact content
        | dead hl _ _ _ _ _ => exact absurd hfree hl
      have hlatest : ∀ x, dn.elem.bts ≤ x → x < dn.elem.cts →
          Latest H x (dn.elem.bts, some (dn.content k)) := by
        cases h.phase with
        | unused hp => rw [hp.used] at hu; cases hu
        | inserting hp =>
            rw [hp.list, List.mem_singleton] at hmem
            subst hmem
            exact absurd (hp.owner.symm.trans hfree) hp.locked
        | @live own rest is H₁ hp =>
            rw [hp.list, List.mem_append] at hmem
            rcases hmem with hown | hrest
            · have hlock := (hp.owned.locked dn hown).symm.trans hfree
              rw [hp.free hlock] at hown
              cases hown
            · exact hpast (hp.past dn hrest)
        | deleted hp => exact hpast (hp.past dn hmem)
      refine ⟨dn.content k, (hlatest _ (Nat.le_refl _) hlt).1, rfl, fun i hi => ?_, hlatest⟩
      exact (Option.some.inj hi).symm

theorem RecInv.disjointVersions (h : RecInv k A top p.buildDirtyPropertyList H r) :
    DisjointVersions k p r := by
  intro o items o' items' hc hc'
  obtain ⟨c, _, _, _, hl⟩ := h.copy_latest hc
  obtain ⟨c', _, _, _, hl'⟩ := h.copy_latest hc'
  by_cases heq : o.bts = o'.bts
  · exact .inl heq
  · refine .inr fun x ⟨⟨h1, h2⟩, h3, h4⟩ => heq ?_
    have hu := (hl x h1 h2).unique h.sorted (hl' x h3 h4)
    exact congrArg Prod.fst hu

theorem RecInv.sameVersions (h : RecInv k A top p.buildDirtyPropertyList H r)
    {A' : Nat → Prop} {top' : Nat} (h' : RecInv k A' top' p'.buildDirtyPropertyList H' r')
    (hsub : ∀ e ∈ H, e ∈ H') : SameVersions k p r p' r' := by
  intro o items o' items' hc hc' hbts
  obtain ⟨c, hin, himg, hi, _⟩ := h.copy_latest hc
  obtain ⟨c', hin', himg', hi', _⟩ := h'.copy_latest hc'
  have heq := h'.sorted.eq_of_fst_eq (hsub _ hin) hin' hbts
  simp only [Prod.mk.injEq, Option.some.injEq] at heq
  obtain ⟨_, rfl⟩ := heq
  exact ⟨himg.trans himg'.symm, fun is his is' his' => (hi is his).trans (hi' is' his').symm⟩

end Copies

section Runs

variable {top : Nat} {L : Log} {s : Sys} {a : Step}

theorem View.Inv.oneWriter {t : Table α} {v : View t κ β} {H : Nat → Hist κ} {db : GraphDb}
    (h : v.Inv top H db) (hact : ∀ x ∈ db.activeTx, Active top db x) (id : Nat) :
    OneWriter db.activeTx (t.record db id) := by
  intro _ T hT T' hT' hheld hheld'
  have hrec := (h.slots id).record
  rw [← hrec.txnId_of_heldBy hT (hact T hT).ne_zero hheld,
    hrec.txnId_of_heldBy hT' (hact T' hT').ne_zero hheld']

/-- A read or a write changes only what its transaction has in its dirty
lists. -/
theorem Sys.Inv.recorded (h : s.Inv top L) (hc : s.Clean a)
    (hcall : a.writes = true ∨ a.writer = 0) (id : Nat) :
    (id ∈ ((s.step a).db.txs a.xid).dirtyNodes ∨
      Quiet (nodeTable.record s.db id) (nodeTable.record (s.step a).db id)) ∧
    (id ∈ ((s.step a).db.txs a.xid).dirtyRships ∨
      Quiet (rshipTable.record s.db id) (rshipTable.record (s.step a).db id)) := by
  cases Sys.moved h hc with
  | idle _ hdb =>
      rw [hdb]
      exact ⟨.inr ⟨rfl, rfl⟩, .inr ⟨rfl, rfl⟩⟩
  | begun _ _ _ hb =>
      rw [hb.nodes, hb.rships]
      exact ⟨.inr ⟨rfl, rfl⟩, .inr ⟨rfl, rfl⟩⟩
  | call _ _ _ hop =>
      have ho := hop a.xid (.inl rfl)
      exact ⟨ho.nodes.quiet id, ho.rships.quiet id⟩
  | exit hend hact _ =>
      exfalso
      rcases hcall with hw | h0
      · rcases hend with heq | heq <;> (rw [heq] at hw; cases hw)
      · rw [Step.writer_exit hend] at h0
        exact hact.ne_zero h0

theorem ReadSide.mem_hist_run {t : Table α} {v : View t κ β} (S : ReadSide v)
    {e : Nat × Option (Content κ)} {id : Nat} (bs : List Step) (he : e ∈ S.hist L id) :
    e ∈ S.hist (L.run s bs) id := by
  induction bs generalizing L s with
  | nil => exact he
  | cons a bs ih =>
      refine ih ?_
      rcases S.hist_step L s a id with heq | ⟨c, heq, _⟩
      · rw [heq]
        exact he
      · rw [heq]
        exact List.mem_cons_of_mem _ he

end Runs

/-- In every state that a clean run reaches: at most one active transaction
has a lock on a record or its versions, a transaction that changes a version
has the record in its dirty list, the committed versions have disjoint
intervals, and they never change from then on. -/
theorem single_writer_disjoint_versions (as bs : List Step)
    (hclean : Sys.initial.CleanRun (as ++ bs)) (id : Nat) :
    (OneWriter (Sys.initial.run as).db.activeTx
        (nodeTable.record (Sys.initial.run as).db id) ∧
      OneWriter (Sys.initial.run as).db.activeTx
        (rshipTable.record (Sys.initial.run as).db id)) ∧
    (∀ a cs, bs = a :: cs → (a.writes = true ∨ a.writer = 0) →
      (id ∈ (((Sys.initial.run as).step a).db.txs a.xid).dirtyNodes ∨
        Quiet (nodeTable.record (Sys.initial.run as).db id)
          (nodeTable.record ((Sys.initial.run as).step a).db id)) ∧
      (id ∈ (((Sys.initial.run as).step a).db.txs a.xid).dirtyRships ∨
        Quiet (rshipTable.record (Sys.initial.run as).db id)
          (rshipTable.record ((Sys.initial.run as).step a).db id))) ∧
    (DisjointVersions nodeScheme (Sys.initial.run as).db.nodeProperties
        (nodeTable.record (Sys.initial.run as).db id) ∧
      DisjointVersions rshipScheme (Sys.initial.run as).db.rshipProperties
        (rshipTable.record (Sys.initial.run as).db id)) ∧
    SameVersions nodeScheme (Sys.initial.run as).db.nodeProperties
      (nodeTable.record (Sys.initial.run as).db id)
      (Sys.initial.run (as ++ bs)).db.nodeProperties
      (nodeTable.record (Sys.initial.run (as ++ bs)).db id) ∧
    SameVersions rshipScheme (Sys.initial.run as).db.rshipProperties
      (rshipTable.record (Sys.initial.run as).db id)
      (Sys.initial.run (as ++ bs)).db.rshipProperties
      (rshipTable.record (Sys.initial.run (as ++ bs)).db id) := by
  obtain ⟨hcas, hcbs⟩ := Sys.CleanRun.append.mp hclean
  obtain ⟨top, h⟩ := Sys.inv_run hcas
  obtain ⟨top', h'⟩ := Sys.inv_run hclean
  have hlog : committed (as ++ bs) = (committed as).run (Sys.initial.run as) bs :=
    Log.run_append ..
  rw [hlog] at h'
  refine ⟨⟨h.db.nodes.oneWriter h.db.active id, h.db.rships.oneWriter h.db.active id⟩, ?_,
    ⟨(h.db.nodes.slots id).record.disjointVersions,
      (h.db.rships.slots id).record.disjointVersions⟩,
    (h.db.nodes.slots id).record.sameVersions (h'.db.nodes.slots id).record
      fun e he => nodeReads.mem_hist_run bs he,
    (h.db.rships.slots id).record.sameVersions (h'.db.rships.slots id).record
      fun e he => rshipReads.mem_hist_run bs he⟩
  intro a cs hbs hcall
  rw [hbs] at hcbs
  exact h.recorded hcbs.1 hcall id

/-- Transaction 30 updates a node while 20 is active, and commits. -/
theorem single_writer_disjoint_versions_overwritten :
    DisjointVersions nodeScheme (Sys.initial.run [.begin 10, .addNode 10 0 1 .none,
        .commit 10, .begin 20, .begin 30, .nodeById 30 0,
        .updateNode 30 ⟨0, .slot⟩ .none 6, .commit 30]).db.nodeProperties
      (nodeTable.record (Sys.initial.run [.begin 10, .addNode 10 0 1 .none, .commit 10,
        .begin 20, .begin 30, .nodeById 30 0, .updateNode 30 ⟨0, .slot⟩ .none 6,
        .commit 30]).db 0) :=
  (single_writer_disjoint_versions [.begin 10, .addNode 10 0 1 .none, .commit 10, .begin 20,
    .begin 30, .nodeById 30 0, .updateNode 30 ⟨0, .slot⟩ .none 6, .commit 30] []
    (by decide) 0).2.2.1.1

/-- Transaction 30 writes through the reference of a scan, which has not
recorded the read; 20 reads the old version and writes through that. -/
def writeThroughScan : List Step :=
  [.begin 10, .addNode 10 0 1 .none, .commit 10, .begin 20, .begin 30, .scanNodes 30,
    .updateNode 30 ⟨0, .slot⟩ .none 6, .nodeById 20 0,
    .updateNode 20 ⟨0, .copy 1⟩ .none 7]

/-- Both hold a lock on the node, the committed version has changed, and 20
does not have the node in its dirty list. -/
theorem scan_write_breaks_single_writer :
    ¬ OneWriter (Sys.initial.run writeThroughScan).db.activeTx
      (nodeTable.record (Sys.initial.run writeThroughScan).db 0) ∧
    (((Sys.initial.run writeThroughScan).db.txs 20).dirtyNodes = [] ∧
      ¬ Quiet (nodeTable.record (Sys.initial.run (writeThroughScan.take 8)).db 0)
        (nodeTable.record (Sys.initial.run writeThroughScan).db 0)) := by
  refine ⟨fun h => ?_, rfl, fun h => absurd h.1 (by decide)⟩
  have heq := h rfl 20 (by decide) 30 (by decide) (.inr (by decide)) (.inl rfl)
  exact absurd heq (by decide)

end Poseidon
