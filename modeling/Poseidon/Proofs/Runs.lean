import Poseidon.Proofs.Finish

/-!
# Runs that stay clear of the unchecked calls

The store relies on its callers in a few places. `Sys.Clean` says what it
relies on, step by step, as a condition on the state before the step: ids
are given out in increasing order, a transaction makes no calls after its
abort has thrown, it writes through the references that `node_by_id` and
`rship_by_id` gave it and not through those of a scan, and it deletes only
what `Calls` says it can. In a run of such steps the invariant of the store
holds throughout, with the committed versions kept in a log beside it.

`Sys.Moved` says once what a step can do to the store. What the other active
transactions see of it follows in `ReadSide.evolve`, once for both tables.
-/

namespace Poseidon

open Wp History

variable {α κ : Type}

/-! ## The log of committed versions -/

/-- The version that a commit of `T` has left in a slot. -/
def published (k : Scheme α κ) (p : PropertyList) (T : Nat) (r : Record α) :
    Option (Content κ) :=
  if r.used = true ∧ r.obj.bts = T ∧ r.obj.cts = INF then
    some (k.img r.obj.data, (p.buildDirtyPropertyList (k.pl r.obj.data)).toOption.getD [])
  else none

/-- Nothing is committed. -/
def Log.empty : Log := ⟨fun _ => [], fun _ => []⟩

/-- A commit of `T` from `s` to `s'` adds a version of each record that `T`
has in its dirty lists. -/
def Log.commit (L : Log) (T : Nat) (s s' : GraphDb) : Log where
  nodes id :=
    if id ∈ (s.txs T).dirtyNodes then
      (T, published nodeScheme s'.nodeProperties T (nodeTable.record s' id)) :: L.nodes id
    else L.nodes id
  rships id :=
    if id ∈ (s.txs T).dirtyRships then
      (T, published rshipScheme s'.rshipProperties T (rshipTable.record s' id)) ::
        L.rships id
    else L.rships id

/-- The log after a step from `s`. -/
def Log.step (L : Log) (s : Sys) : Step → Log
  | .commit T =>
      if (s.db.txs T).running then L.commit T s.db (s.step (.commit T)).db else L
  | _ => L

/-- The log after a run from `s`. -/
def Log.run (L : Log) (s : Sys) : List Step → Log
  | [] => L
  | a :: as => (L.step s a).run (s.step a) as

/-- What a run has committed, record by record. -/
def committed (as : List Step) : Log := Log.empty.run Sys.initial as

theorem Log.run_append (L : Log) (s : Sys) (as bs : List Step) :
    L.run s (as ++ bs) = (L.run s as).run (s.run as) bs := by
  induction as generalizing L s with
  | nil => rfl
  | cons a as ih => exact ih _ _

/-- The log holds what the slot says. -/
theorem RecInv.published_eq {k : Scheme α κ} {A : Nat → Prop} {top T : Nat} {H : Hist κ}
    {p : PropertyList} {r : Record α} {c : Option (Content κ)}
    (h : RecInv k A top p.buildDirtyPropertyList ((T, c) :: H) r) :
    published k p T r = c := by
  have hT : T ≠ 0 := (h.committed _ (List.mem_cons_self ..)).2.2
  cases h.phase with
  | unused hp =>
      have hnone : c = none := hp.ended _ rfl
      rw [published, if_neg, hnone]
      rw [hp.used]
      simp
  | inserting hp =>
      have hnone : c = none := hp.ended _ rfl
      rw [published, if_neg, hnone]
      rw [hp.bts]
      exact fun hh => hT hh.2.1.symm
  | live hp =>
      have hhead := hp.head
      simp only [List.cons.injEq, Prod.mk.injEq] at hhead
      obtain ⟨⟨hb, hc⟩, _⟩ := hhead
      rw [published, if_pos ⟨hp.used, hb.symm, hp.cts⟩, hp.holds, hc]
      rfl
  | deleted hp =>
      have hhead := hp.head
      simp only [List.cons.injEq, Prod.mk.injEq] at hhead
      have hlt := hp.cts_lt
      rw [published, if_neg, hhead.1.2]
      intro hh
      omega

/-- The histories of a commit are those of the log. -/
theorem Extended.eq_commit {top T : Nat} {L L' : Log} {s s' : GraphDb}
    (he : Extended T s L L') (h : s'.Inv top L') : L' = L.commit T s s' := by
  have hn : L'.nodes = (L.commit T s s').nodes := by
    funext id
    simp only [Log.commit]
    split
    · next hid =>
      obtain ⟨c, hc, _⟩ := he.nodes id hid
      have hrec := (h.nodes.slots id).record
      rw [hc] at hrec ⊢
      rw [show published nodeScheme s'.nodeProperties T (nodeTable.record s' id) = c
        from hrec.published_eq]
    · next hid => exact he.otherNodes id hid
  have hr : L'.rships = (L.commit T s s').rships := by
    funext id
    simp only [Log.commit]
    split
    · next hid =>
      obtain ⟨c, hc, _⟩ := he.rships id hid
      have hrec := (h.rships.slots id).record
      rw [hc] at hrec ⊢
      rw [show published rshipScheme s'.rshipProperties T (rshipTable.record s' id) = c
        from hrec.published_eq]
    · next hid => exact he.otherRships id hid
  cases L'
  simp only at hn hr
  rw [hn, hr]

/-! ## What is asked of the callers -/

instance {T : Nat} {r : Record α} : Decidable (Deletable T r) :=
  match h : r.getDirtyVersion T with
  | some dn => decidable_of_iff (dn.updateMode = true) (by rw [Deletable, h])
  | none => decidable_of_iff (r.dirtyList = []) (by rw [Deletable, h])

/-- Not a transaction whose abort has thrown. -/
def Sys.Awake (s : Sys) (xid : Nat) : Prop :=
  (s.db.txs xid).running = true → xid ∈ s.db.activeTx

instance {s : Sys} {xid : Nat} : Decidable (s.Awake xid) :=
  inferInstanceAs (Decidable (_ → _))

/-- What the store relies on when a step is taken. -/
def Sys.Clean (s : Sys) : Step → Prop
  | .begin xid => ∀ y ∈ s.begun, y < xid
  | .updateNode xid n _ _ =>
      s.Awake xid ∧ ((xid, n) ∈ s.scanNodeRefs → (xid, n) ∈ s.nodeRefs)
  | .updateRelationship xid n _ _ =>
      s.Awake xid ∧ ((xid, n) ∈ s.scanRshipRefs → (xid, n) ∈ s.rshipRefs)
  | .deleteNode xid id =>
      s.Awake xid ∧ (nodeTable.record s.db id).getDirtyVersion xid = none
  | .deleteRelationship xid id =>
      s.Awake xid ∧ Deletable xid (rshipTable.record s.db id)
  | .detachDeleteNode xid id =>
      s.Awake xid ∧ Deletable xid (nodeTable.record s.db id) ∧
        ∀ rid ∈ s.db.incident xid id, Deletable xid (rshipTable.record s.db rid)
  | .nodeById xid _ | .rshipById xid _ | .scanNodes xid | .scanRships xid _
  | .addNode xid .. | .addRelationship xid .. | .commit xid | .abort xid => s.Awake xid

instance {s : Sys} {a : Step} : Decidable (s.Clean a) :=
  match a with
  | .begin _ => inferInstanceAs (Decidable (∀ y ∈ s.begun, _))
  | .updateNode .. | .updateRelationship .. => inferInstanceAs (Decidable (_ ∧ (_ → _)))
  | .deleteNode .. | .deleteRelationship .. => inferInstanceAs (Decidable (_ ∧ _))
  | .detachDeleteNode xid id =>
      inferInstanceAs (Decidable (_ ∧ _ ∧ ∀ rid ∈ s.db.incident xid id, _))
  | .nodeById .. | .rshipById .. | .scanNodes .. | .scanRships .. | .addNode ..
  | .addRelationship .. | .commit .. | .abort .. => inferInstanceAs (Decidable (s.Awake _))

/-- A run of such steps. -/
def Sys.CleanRun (s : Sys) : List Step → Prop
  | [] => True
  | a :: as => s.Clean a ∧ (s.step a).CleanRun as

theorem Sys.CleanRun.append {s : Sys} {as bs : List Step} :
    s.CleanRun (as ++ bs) ↔ s.CleanRun as ∧ (s.run as).CleanRun bs := by
  induction as generalizing s with
  | nil => simp [Sys.CleanRun, Sys.run]
  | cons a as ih =>
      simp only [List.cons_append, Sys.CleanRun, ih, and_assoc]
      rfl

/-- Clean runs can be checked by running them. -/
def Sys.decideCleanRun (s : Sys) : (as : List Step) → Decidable (s.CleanRun as)
  | [] => isTrue trivial
  | a :: as =>
      have := (s.step a).decideCleanRun as
      inferInstanceAs (Decidable (s.Clean a ∧ (s.step a).CleanRun as))

instance {s : Sys} {as : List Step} : Decidable (s.CleanRun as) := s.decideCleanRun as

/-! ## What a step does -/

/-- The calls that insert, update or delete. -/
def Step.writes : Step → Bool
  | .addNode .. | .addRelationship .. | .updateNode .. | .updateRelationship ..
  | .deleteNode .. | .detachDeleteNode .. | .deleteRelationship .. => true
  | _ => false

/-- The transaction whose versions a step may change; reads change none. -/
def Step.writer : Step → Nat
  | .nodeById .. | .rshipById .. | .scanNodes .. | .scanRships .. => 0
  | a => a.xid

/-- The store after a begin. -/
structure Begins (T : Nat) (L : Log) (s s' : GraphDb) : Prop where
  inv : s'.Inv T L
  active : s'.activeTx = T :: s.activeTx
  nodes : ∀ i, nodeTable.record s' i = nodeTable.record s i
  rships : ∀ i, rshipTable.record s' i = rshipTable.record s i
  txs : ∀ x, x ≠ T → s'.txs x = s.txs x

/-- What a step can do to the store. -/
inductive Moved (top : Nat) (L : Log) (s : Sys) (a : Step) (s' : GraphDb) : Prop
  | idle (log : L.step s a = L) (h : s' = s.db)
  | begun {T : Nat} (ha : a = .begin T) (log : L.step s a = L) (htop : top < T)
      (h : Begins T L s.db s')
  | call (log : L.step s a = L) (hcall : a.writes = true ∨ a.writer = 0)
      (hact : Active top s.db a.xid)
      (h : ∀ W, W = a.xid ∨ W = a.writer → Op W top L s.db s')
  | exit (hend : a = .commit a.xid ∨ a = .abort a.xid) (hact : Active top s.db a.xid)
      (h : Exit a.xid top L (L.step s a) s.db s')

section Steps

variable {top : Nat} {L : Log} {s : Sys} {a : Step}

/-- A call of a transaction that is not running is refused. -/
theorem checkTxContext_refused {β : Type} {xid : Nat} {s : GraphDb}
    {f : Unit → DbM β} (h : (s.txs xid).running = false) :
    always (checkTxContext xid >>= f) (· = s) s := by
  simp only [always, wp_bind]
  refine wp_checkTxContext.mpr ⟨fun hr => ?_, fun _ => rfl⟩
  rw [h] at hr
  cases hr

/-- Only a running transaction gets an answer. -/
theorem checkTxContext_running {β : Type} {xid : Nat} {s s' : GraphDb} {f : Unit → DbM β}
    {b : β} (hok : (checkTxContext xid >>= f) s = .ok b s') :
    (s.txs xid).running = true := by
  cases hr : (s.txs xid).running with
  | true => rfl
  | false =>
      have hw : wp (checkTxContext xid >>= f) (fun _ _ => False) (fun _ _ => True) s := by
        rw [wp_bind]
        refine wp_checkTxContext.mpr ⟨fun h => ?_, fun _ => trivial⟩
        rw [hr] at h
        cases h
      exact (wp_ok hw hok).elim

/-- A call of an active transaction, or a refused one. -/
theorem Sys.moved_call {β : Type} {x : DbM β} {reply : β → Reply} {keep : β → Sys → Sys}
    (hexec : s.exec a = s.call x reply keep) (hkeep : ∀ b s, (keep b s).db = s.db)
    (h : s.db.Inv top L) (hawake : s.Awake a.xid) (log : L.step s a = L)
    (hcall : a.writes = true ∨ a.writer = 0)
    (hrefuse : (s.db.txs a.xid).running = false → always x (· = s.db) s.db)
    (hop : ∀ W, W = a.xid ∨ W = a.writer → Active top s.db a.xid →
      always x (Op W top L s.db) s.db) :
    Moved top L s a (s.step a).db := by
  rw [Sys.step, hexec]
  cases hr : (s.db.txs a.xid).running with
  | false => exact .idle log (Sys.call_db hkeep (hrefuse hr))
  | true =>
      have hact := h.active _ (hawake hr)
      exact .call log hcall hact fun W hW => Sys.call_db hkeep (hop W hW hact)

/-- A write of an active transaction, or a refused one. -/
theorem Sys.moved_write {β : Type} {x : DbM β} {reply : β → Reply}
    (hexec : s.exec a = s.call x reply fun _ s => s) (h : s.db.Inv top L)
    (hawake : s.Awake a.xid) (log : L.step s a = L)
    (hw : a.writes = true ∧ a.writer = a.xid)
    (hrefuse : (s.db.txs a.xid).running = false → always x (· = s.db) s.db)
    (hop : Active top s.db a.xid → always x (Op a.xid top L s.db) s.db) :
    Moved top L s a (s.step a).db := by
  refine Sys.moved_call hexec (fun _ _ => rfl) h hawake log (.inl hw.1) hrefuse
    fun W hW hact => ?_
  rw [hw.2, or_self] at hW
  rw [hW]
  exact hop hact

/-- The invariant of a system: that of the store, with the references that
the clients hold. -/
structure Sys.Inv (top : Nat) (L : Log) (s : Sys) : Prop where
  db : s.db.Inv top L
  le_top : ∀ x ∈ s.begun, x ≤ top
  top_lt : ∀ x, x ≠ 0 → (∀ y ∈ s.begun, y < x) → top < x
  running : ∀ x, (s.db.txs x).running = true → x ∈ s.begun
  nodeRefs : ∀ T n, (T, n) ∈ s.nodeRefs → T ∈ s.begun ∧
    (T ∈ s.db.activeTx → RefOk T (nodeTable.record s.db n.id) n.loc)
  rshipRefs : ∀ T n, (T, n) ∈ s.rshipRefs → T ∈ s.begun ∧
    (T ∈ s.db.activeTx → RefOk T (rshipTable.record s.db n.id) n.loc)

/-- A begin is refused, or it gives out an id above all others. -/
theorem Sys.begin_cases {T : Nat} (h : s.Inv top L) (hc : s.Clean (.begin T)) :
    s.step (.begin T) = s ∨ ∃ db, s.step (.begin T) =
      { s with db := db, begun := T :: s.begun } ∧ top < T ∧ Begins T L s.db db := by
  simp only [Sys.step, Sys.exec]
  split
  · exact .inl rfl
  · next hx =>
    simp only [not_or, Nat.not_le] at hx
    obtain ⟨hT, hinf, hnew⟩ := hx
    have htop := h.top_lt T hT hc
    have hrun : (s.db.txs T).running = false := by
      cases hr : (s.db.txs T).running with
      | false => rfl
      | true => exact absurd (h.running T hr) hnew
    have hb := beginTransaction_spec h.db htop hinf hrun
    simp only [wp] at hb
    right
    split at hb
    · next b db heq =>
      obtain ⟨h1, h2, h3, h4, h5⟩ := hb
      refine ⟨db, ?_, htop, ⟨h1, h2, h3, h4, h5⟩⟩
      simp only [Sys.call, heq]
    · exact hb.elim

/-- The commit of an active transaction. -/
theorem Sys.commit_extended {T : Nat} (h : s.db.Inv top L) (hact : Active top s.db T) :
    Extended T s.db L (L.step s (.commit T)) ∧
      Exit T top L (L.step s (.commit T)) s.db (s.step (.commit T)).db := by
  have hend : ∃ L', Extended T s.db L L' ∧ Exit T top L L' s.db (s.step (.commit T)).db := by
    rw [Sys.step, Sys.exec]
    exact Sys.call_db (P := fun s' => ∃ L', Extended T s.db L L' ∧
      Exit T top L L' s.db s') (fun _ _ => rfl) (commitTransaction_spec h hact)
  obtain ⟨L', hext, hexit⟩ := hend
  have hlog : L.step s (.commit T) = L' := by
    simp only [Log.step, hact.running, if_true]
    exact (hext.eq_commit hexit.inv).symm
  rw [hlog]
  exact ⟨hext, hexit⟩

theorem Sys.moved_commit {T : Nat} (h : s.Inv top L) (hc : s.Clean (.commit T)) :
    Moved top L s (.commit T) (s.step (.commit T)).db := by
  cases hr : (s.db.txs T).running with
  | false =>
      have hlog : L.step s (.commit T) = L := by simp only [Log.step, hr]; rfl
      refine .idle hlog ?_
      rw [Sys.step, Sys.exec]
      refine Sys.call_db (P := fun s' => s' = s.db) (fun _ _ => rfl) ?_
      exact checkTxContext_refused hr
  | true =>
      have hact := h.db.active T (hc hr)
      exact .exit (.inl rfl) hact (Sys.commit_extended h.db hact).2

theorem Sys.moved_abort {T : Nat} (h : s.Inv top L) (hc : s.Clean (.abort T)) :
    Moved top L s (.abort T) (s.step (.abort T)).db := by
  cases hr : (s.db.txs T).running with
  | false =>
      refine .idle rfl ?_
      rw [Sys.step, Sys.exec]
      refine Sys.call_db (P := fun s' => s' = s.db) (fun _ _ => rfl) ?_
      simp only [abortTransaction, always, wp_bind, wp_get, hr, Bool.not_false, if_true,
        wp_pure]
  | true =>
      have hact := h.db.active T (hc hr)
      refine .exit (.inr rfl) hact ?_
      rw [Sys.step, Sys.exec]
      exact Sys.call_db (P := Exit T top L L s.db) (fun _ _ => rfl)
        (abortTransaction_spec h.db hact)

/-- An update through a reference that a client holds. -/
theorem Sys.moved_update {β : Type} {c : Prop} [Decidable c] {x : DbM β}
    {reply : β → Reply} (h : s.db.Inv top L)
    (hexec : s.exec a = if c then s.call x reply fun _ s => s
      else (.error .danglingReference, s))
    (hawake : s.Awake a.xid) (log : L.step s a = L)
    (hw : a.writes = true ∧ a.writer = a.xid)
    (hrefuse : (s.db.txs a.xid).running = false → always x (· = s.db) s.db)
    (hop : c → Active top s.db a.xid → always x (Op a.xid top L s.db) s.db) :
    Moved top L s a (s.step a).db := by
  by_cases hin : c
  · rw [if_pos hin] at hexec
    exact Sys.moved_write hexec h hawake log hw hrefuse (hop hin)
  · rw [if_neg hin] at hexec
    refine .idle log ?_
    rw [Sys.step, hexec]

theorem Sys.moved (h : s.Inv top L) (hc : s.Clean a) :
    Moved top L s a (s.step a).db := by
  cases a with
  | begin T =>
      rcases Sys.begin_cases h hc with heq | ⟨db, heq, htop, hb⟩
      · rw [heq]
        exact .idle rfl rfl
      · rw [heq]
        exact .begun rfl rfl htop hb
  | nodeById T id =>
      have hexec : s.exec (.nodeById T id) = s.call (Poseidon.nodeById T id) .ref
          fun n s => { s with nodeRefs := (T, n) :: s.nodeRefs } := rfl
      refine Sys.moved_call hexec (fun _ _ => rfl) h.db hc rfl (.inr rfl)
        checkTxContext_refused fun W _ hact => ?_
      exact wp_mono (nodeById_spec h.db hact) (fun _ _ ho => h.db.ofNodes ho.1)
        (fun _ _ ho => h.db.ofNodes ho)
  | rshipById T id =>
      have hexec : s.exec (.rshipById T id) = s.call (Poseidon.rshipById T id) .ref
          fun n s => { s with rshipRefs := (T, n) :: s.rshipRefs } := rfl
      refine Sys.moved_call hexec (fun _ _ => rfl) h.db hc rfl (.inr rfl)
        checkTxContext_refused fun W _ hact => ?_
      exact wp_mono (rshipById_spec h.db hact) (fun _ _ ho => h.db.ofRships ho.1)
        (fun _ _ ho => h.db.ofRships ho)
  | scanNodes T =>
      have hexec : s.exec (.scanNodes T) = s.call (runScan T (Poseidon.scanNodes · T)) .scan
          fun sc s => { s with
            scanNodeRefs := sc.delivered.map (T, ·) ++ s.scanNodeRefs } := rfl
      exact Sys.moved_call hexec (fun _ _ => rfl) h.db hc rfl (.inr rfl)
        (fun _ => runScan_db rfl) fun W _ _ => runScan_db (Op.refl h.db)
  | scanRships T lc =>
      have hexec : s.exec (.scanRships T lc) =
          s.call (runScan T (relationshipsByLabel · T lc)) .scan
          fun sc s => { s with
            scanRshipRefs := sc.delivered.map (T, ·) ++ s.scanRshipRefs } := rfl
      exact Sys.moved_call hexec (fun _ _ => rfl) h.db hc rfl (.inr rfl)
        (fun _ => runScan_db rfl) fun W _ _ => runScan_db (Op.refl h.db)
  | addNode T slot label props =>
      exact Sys.moved_write rfl h.db hc rfl ⟨rfl, rfl⟩ checkTxContext_refused
        fun hact => addNode_op h.db hact
  | addRelationship T slot fromId toId label props =>
      exact Sys.moved_write rfl h.db hc rfl ⟨rfl, rfl⟩ checkTxContext_refused
        fun hact => addRelationship_op h.db hact
  | updateNode T n props lc =>
      refine Sys.moved_update h.db rfl hc.1 rfl ⟨rfl, rfl⟩ checkTxContext_refused
        fun hin hact => updateNode_op h.db hact ?_
      exact (h.nodeRefs T n (hin.elim id hc.2)).2 hact.mem
  | updateRelationship T n props lc =>
      refine Sys.moved_update h.db rfl hc.1 rfl ⟨rfl, rfl⟩ checkTxContext_refused
        fun hin hact => updateRelationship_op h.db hact ?_
      exact (h.rshipRefs T n (hin.elim id hc.2)).2 hact.mem
  | deleteNode T id =>
      exact Sys.moved_write rfl h.db hc.1 rfl ⟨rfl, rfl⟩ checkTxContext_refused
        fun hact => deleteNode_op h.db hact hc.2
  | detachDeleteNode T id =>
      exact Sys.moved_write rfl h.db hc.1 rfl ⟨rfl, rfl⟩ checkTxContext_refused
        fun hact => detachDeleteNode_op h.db hact hc.2.1 hc.2.2
  | deleteRelationship T id =>
      exact Sys.moved_write rfl h.db hc.1 rfl ⟨rfl, rfl⟩ checkTxContext_refused
        fun hact => deleteRelationship_op h.db hact hc.2
  | commit T => exact Sys.moved_commit h hc
  | abort T => exact Sys.moved_abort h hc

/-! ## What the others see of a step -/

/-- The ids that are active before and after a step. -/
def Stays (s : Sys) (s' : GraphDb) (T : Nat) : Prop := T ∈ s.db.activeTx ∧ T ∈ s'.activeTx

theorem Step.writer_exit (h : a = .commit a.xid ∨ a = .abort a.xid) : a.writer = a.xid := by
  rcases h with h | h <;> (rw [h]; rfl)

/-- What a client does not get from a call, it keeps. -/
theorem Sys.call_keeps {β γ : Type} (f : Sys → γ) {x : DbM β} {reply : β → Reply}
    {keep : β → Sys → Sys} (hdb : ∀ (s : Sys) db, f { s with db := db } = f s)
    (hkeep : ∀ b s, f (keep b s) = f s) : f (s.call x reply keep).2 = f s := by
  simp only [Sys.call]
  split
  · rw [hkeep, hdb]
  · exact hdb s _

/-- A step adds to what the clients hold only what its call returns. -/
theorem Sys.step_keeps {γ : Type} (f : Sys → γ)
    (hdb : ∀ (s : Sys) db, f { s with db := db } = f s)
    (hscan : ∀ (s : Sys) l l', f { s with scanNodeRefs := l, scanRshipRefs := l' } = f s)
    (hbegun : ∀ T, a = .begin T → ∀ (s : Sys) l, f { s with begun := l } = f s)
    (hnode : ∀ T id, a = .nodeById T id →
      ∀ (s : Sys) l, f { s with nodeRefs := l } = f s)
    (hrship : ∀ T id, a = .rshipById T id →
      ∀ (s : Sys) l, f { s with rshipRefs := l } = f s) : f (s.step a) = f s := by
  cases a with
  | begin T =>
      simp only [Sys.step, Sys.exec]
      split
      · rfl
      · exact Sys.call_keeps f hdb fun _ s => hbegun T rfl s _
  | updateNode T n props lc =>
      simp only [Sys.step, Sys.exec]
      split
      · exact Sys.call_keeps f hdb fun _ _ => rfl
      · rfl
  | updateRelationship T n props lc =>
      simp only [Sys.step, Sys.exec]
      split
      · exact Sys.call_keeps f hdb fun _ _ => rfl
      · rfl
  | nodeById T id => exact Sys.call_keeps f hdb fun _ s => hnode T id rfl s _
  | rshipById T id => exact Sys.call_keeps f hdb fun _ s => hrship T id rfl s _
  | scanNodes T => exact Sys.call_keeps f hdb fun _ s => hscan s _ s.scanRshipRefs
  | scanRships T lc => exact Sys.call_keeps f hdb fun _ s => hscan s s.scanNodeRefs _
  | _ => exact Sys.call_keeps f hdb fun _ _ => rfl

theorem Sys.begun_step (hb : ∀ T, a ≠ .begin T) : (s.step a).begun = s.begun :=
  Sys.step_keeps Sys.begun (fun _ _ => rfl) (fun _ _ _ => rfl)
    (fun T ha => absurd ha (hb T)) (fun _ _ _ _ _ => rfl) fun _ _ _ _ _ => rfl

/-- A table in a run: the call that reads one of its records and the
references that the clients got from it, and what the steps do to it. -/
structure ReadSide {α κ β : Type} {t : Table α} (v : View t κ β) extends Side v where
  read : Nat → Nat → Step
  refs : Sys → List (Nat × Ref)
  keep : Nat → Ref → Sys → Sys
  read_xid : ∀ T id, (read T id).xid = T
  log_read : ∀ (L : Log) s T id, L.step s (read T id) = L
  exec_read : ∀ (s : Sys) T id, s.exec (read T id) = s.call (t.byId T id) .ref (keep T)
  keep_db : ∀ T n (s : Sys), (keep T n s).db = s.db
  refs_keep : ∀ T n (s : Sys) db, refs (keep T n { s with db := db }) = (T, n) :: refs s
  refs_db : ∀ (s : Sys) db, refs { s with db := db } = refs s
  refs_step : ∀ (s : Sys) a, (∀ T id, a ≠ read T id) → refs (s.step a) = refs s
  begun : ∀ {T : Nat} {L : Log} {s s' : GraphDb}, Begins T L s s' →
    ∀ i, t.record s' i = t.record s i
  call : ∀ {W top : Nat} {L : Log} {s s' : GraphDb}, Op W top L s s' →
    v.Moves W top (hist L) s s'
  exit : ∀ {W top : Nat} {L L' : Log} {s s' : GraphDb}, Exit W top L L' s s' → ∀ id,
    Ends (· ∈ s'.activeTx) W (hist L id) (t.record s id) (hist L' id) (t.record s' id)
  exit_dirty : ∀ {W top : Nat} {L L' : Log} {s s' : GraphDb}, Exit W top L L' s s' →
    ∀ x, v.dirty (s'.txs x) = v.dirty (s.txs x)
  hist_commit : ∀ (L : Log) T s s' id, hist (L.commit T s s') id =
    if id ∈ v.dirty (s.txs T) then
      (T, published v.scheme (t.props s') T (t.record s' id)) :: hist L id
    else hist L id

def nodeReads : ReadSide nodeView where
  toSide := nodeSide
  read := .nodeById
  refs := Sys.nodeRefs
  keep T n s := { s with nodeRefs := (T, n) :: s.nodeRefs }
  read_xid _ _ := rfl
  log_read _ _ _ _ := rfl
  exec_read _ _ _ := rfl
  keep_db _ _ _ := rfl
  refs_keep _ _ _ _ := rfl
  refs_db _ _ := rfl
  refs_step _ _ ha := Sys.step_keeps Sys.nodeRefs (fun _ _ => rfl) (fun _ _ _ => rfl)
    (fun _ _ _ _ => rfl) (fun T id h => absurd h (ha T id)) fun _ _ _ _ _ => rfl
  begun h := h.nodes
  call h := h.nodes
  exit h := h.nodes
  exit_dirty h x := (h.dirty x).1
  hist_commit _ _ _ _ _ := rfl

def rshipReads : ReadSide rshipView where
  toSide := rshipSide
  read := .rshipById
  refs := Sys.rshipRefs
  keep T n s := { s with rshipRefs := (T, n) :: s.rshipRefs }
  read_xid _ _ := rfl
  log_read _ _ _ _ := rfl
  exec_read _ _ _ := rfl
  keep_db _ _ _ := rfl
  refs_keep _ _ _ _ := rfl
  refs_db _ _ := rfl
  refs_step _ _ ha := Sys.step_keeps Sys.rshipRefs (fun _ _ => rfl) (fun _ _ _ => rfl)
    (fun _ _ _ _ => rfl) (fun _ _ _ _ _ => rfl) fun T id h => absurd h (ha T id)
  begun h := h.rships
  call h := h.rships
  exit h := h.rships
  exit_dirty h x := (h.dirty x).2
  hist_commit _ _ _ _ _ := rfl

section Moves

variable {β : Type} {t : Table α} {v : View t κ β} {s' : GraphDb}

theorem ReadSide.evolve (S : ReadSide v) (h : Moved top L s a s') (id : Nat) :
    Evolve (Stays s s') a.writer (S.hist L id) (t.record s.db id)
      (S.hist (L.step s a) id) (t.record s' id) := by
  cases h with
  | idle log h =>
      rw [log, h]
      exact Evolve.refl ..
  | begun _ log _ h =>
      rw [log, S.begun h]
      exact Evolve.refl ..
  | call log _ _ h =>
      rw [log]
      exact ((S.call (h _ (.inr rfl))).evolve id).mono fun x hx => hx.1
  | exit hend _ h =>
      rw [Step.writer_exit hend]
      exact (S.exit h id).toEvolve.mono fun x hx => hx.2

/-- A step changes the dirty lists of its own transaction only. -/
theorem ReadSide.dirty_step (S : ReadSide v) {T : Nat} (h : Moved top L s a s')
    (hT : T ∈ s.db.activeTx) (hne : T ≠ a.writer) (hinv : s.db.Inv top L) :
    v.dirty (s'.txs T) = v.dirty (s.db.txs T) := by
  cases h with
  | idle log h => rw [h]
  | begun _ log htop h =>
      have hle := (hinv.active T hT).le_top
      rw [h.txs T (by omega)]
  | call log _ _ h => exact (S.call (h _ (.inr rfl))).dirty T hne
  | exit hend _ h => exact S.exit_dirty h T

/-- A commit adds a version of what is in its dirty list, and nothing else
adds one. -/
theorem ReadSide.hist_step (S : ReadSide v) (L : Log) (s : Sys) (a : Step) (id : Nat) :
    S.hist (L.step s a) id = S.hist L id ∨ ∃ c, S.hist (L.step s a) id =
      (a.xid, c) :: S.hist L id ∧ id ∈ v.dirty (s.db.txs a.xid) := by
  cases a with
  | commit T =>
      simp only [Log.step]
      split
      · rw [S.hist_commit]
        split
        · next hid => exact .inr ⟨_, rfl, hid⟩
        · exact .inl rfl
      · exact .inl rfl
  | _ => exact .inl rfl

end Moves

/-! ## The invariant along a run -/

/-- A new reference comes from a read. -/
theorem ReadSide.refs_cases {β : Type} {t : Table α} {v : View t κ β} (S : ReadSide v)
    {T : Nat} {n : Ref} (h : s.db.Inv top L) (hc : s.Clean a)
    (hclean : ∀ T' id, a = S.read T' id → s.Awake T')
    (hn : (T, n) ∈ S.refs (s.step a)) : (T, n) ∈ S.refs s ∨
      (Active top s.db T ∧ RefOk T (t.record (s.step a).db n.id) n.loc) := by
  by_cases hread : ∃ T' id, a = S.read T' id
  · obtain ⟨T', id, rfl⟩ := hread
    simp only [Sys.step, S.exec_read, Sys.call] at hn ⊢
    split at hn
    · next b db heq =>
      rw [S.refs_keep] at hn
      rcases List.mem_cons.mp hn with hp | hp
      · cases hp
        have hact := h.active T (hclean T id rfl (checkTxContext_running heq))
        simp only [S.keep_db]
        exact .inr ⟨hact, (wp_ok (Table.byId_spec hact.running) heq).refOk (S.inv h) hact⟩
      · exact .inl hp
    · rw [S.refs_db] at hn
      exact .inl hn
  · rw [S.refs_step s a fun T' id ha => hread ⟨T', id, ha⟩] at hn
    exact .inl hn

/-- Only a begin makes a transaction active. -/
theorem Moved.stays {s' : GraphDb} {T : Nat} (h : Moved top L s a s')
    (hb : ∀ x, a ≠ .begin x) (hT : T ∈ s'.activeTx) : Stays s s' T := by
  refine ⟨?_, hT⟩
  cases h with
  | idle log h => exact h ▸ hT
  | begun ha _ _ _ => exact absurd ha (hb _)
  | call log _ _ h => exact (h _ (.inr rfl)).tx.activeTx ▸ hT
  | exit _ _ h => exact ((h.activeTx T).mp hT).1

theorem Moved.inv {s' : GraphDb} (h : Moved top L s a s') (hb : ∀ x, a ≠ .begin x)
    (hinv : s.db.Inv top L) : s'.Inv top (L.step s a) ∧
      ∀ x, (s'.txs x).running = true → (s.db.txs x).running = true := by
  cases h with
  | idle log h =>
      rw [log, h]
      exact ⟨hinv, fun _ hx => hx⟩
  | begun ha _ _ _ => exact absurd ha (hb _)
  | call log _ _ h =>
      have ho := h _ (.inr rfl)
      rw [log]
      exact ⟨ho.inv hinv, fun x hx => (ho.tx.running x).symm.trans hx⟩
  | exit _ hact h =>
      refine ⟨h.inv, fun x hx => ?_⟩
      by_cases hxa : x = a.xid
      · rw [hxa]
        exact hact.running
      · exact (h.running x hxa).symm.trans hx

theorem Sys.Inv.begin {T : Nat} (h : s.Inv top L) (hc : s.Clean (.begin T)) :
    ∃ top', (s.step (.begin T)).Inv top' L := by
  rcases Sys.begin_cases h hc with heq | ⟨db, heq, htop, hb⟩
  · rw [heq]
    exact ⟨top, h⟩
  · rw [heq]
    have old : ∀ x ∈ s.begun, x ∈ db.activeTx → x ∈ s.db.activeTx := by
      intro x hx hact
      have hle := h.le_top x hx
      rw [hb.active] at hact
      rcases List.mem_cons.mp hact with rfl | hin
      · omega
      · exact hin
    refine ⟨T, hb.inv, fun x hx => ?_, fun x _ hlt => ?_, fun x hx => ?_, fun x n hn => ?_,
      fun x n hn => ?_⟩
    · rcases List.mem_cons.mp hx with rfl | hx
      · exact Nat.le_refl _
      · have := h.le_top x hx
        omega
    · exact hlt T (List.mem_cons_self ..)
    · by_cases hxT : x = T
      · exact List.mem_cons.mpr (.inl hxT)
      · rw [show db.txs x = s.db.txs x from hb.txs x hxT] at hx
        exact List.mem_cons_of_mem _ (h.running x hx)
    · obtain ⟨h1, h2⟩ := h.nodeRefs x n hn
      refine ⟨List.mem_cons_of_mem _ h1, fun hact => ?_⟩
      rw [hb.nodes]
      exact h2 (old x h1 hact)
    · obtain ⟨h1, h2⟩ := h.rshipRefs x n hn
      refine ⟨List.mem_cons_of_mem _ h1, fun hact => ?_⟩
      rw [hb.rships]
      exact h2 (old x h1 hact)

/-- One step keeps the invariant. -/
theorem Sys.Inv.step (h : s.Inv top L) (hc : s.Clean a) :
    ∃ top', (s.step a).Inv top' (L.step s a) := by
  by_cases hbegin : ∃ T, a = .begin T
  · obtain ⟨T, rfl⟩ := hbegin
    exact h.begin hc
  · have hb : ∀ x, a ≠ .begin x := fun x hx => hbegin ⟨x, hx⟩
    have hm := Sys.moved h hc
    obtain ⟨hdb, hrun⟩ := hm.inv hb h.db
    have hbegun := Sys.begun_step (s := s) hb
    refine ⟨top, hdb, ?_, ?_, fun x hx => ?_, fun T n hn => ?_, fun T n hn => ?_⟩
    · rw [hbegun]
      exact h.le_top
    · rw [hbegun]
      exact h.top_lt
    · rw [hbegun]
      exact h.running x (hrun x hx)
    · rw [hbegun]
      rcases nodeReads.refs_cases h.db hc (fun _ _ ha => by subst ha; exact hc) hn with
        hold | ⟨hact, href⟩
      · obtain ⟨h1, h2⟩ := h.nodeRefs T n hold
        refine ⟨h1, fun hT => ?_⟩
        have hst := hm.stays hb hT
        exact (nodeReads.evolve hm n.id).ref T n.loc hst (h2 hst.1)
      · exact ⟨h.running T hact.running, fun _ => href⟩
    · rw [hbegun]
      rcases rshipReads.refs_cases h.db hc (fun _ _ ha => by subst ha; exact hc) hn with
        hold | ⟨hact, href⟩
      · obtain ⟨h1, h2⟩ := h.rshipRefs T n hold
        refine ⟨h1, fun hT => ?_⟩
        have hst := hm.stays hb hT
        exact (rshipReads.evolve hm n.id).ref T n.loc hst (h2 hst.1)
      · exact ⟨h.running T hact.running, fun _ => href⟩

/-- A clean run keeps the invariant. -/
theorem Sys.Inv.run {as : List Step} (h : s.Inv top L) (hc : s.CleanRun as) :
    ∃ top', (s.run as).Inv top' (L.run s as) := by
  induction as generalizing top L s with
  | nil => exact ⟨top, h⟩
  | cons a as ih =>
      obtain ⟨top', h'⟩ := h.step hc.1
      exact ih h' hc.2

theorem Sys.inv_initial : Sys.initial.Inv 0 Log.empty := by
  have slot : ∀ {β γ : Type} [Inhabited β] (k : Scheme β γ) (p : PropertyList)
      (n : Nat → Nat) (id : Nat), SlotInv k (· ∈ ([] : List Nat)) 0 [] p n
        (id ∈ ([] : List Nat)) id Record.fresh := by
    intro β γ _ k p n id
    refine ⟨⟨List.Pairwise.nil, ?_, ?_, List.nodup_nil, ?_, ?_, .unused ⟨rfl, rfl, ?_, ?_⟩⟩,
      ?_, fun hu => (by cases hu), ?_, fun hg => (by cases hg), fun hu => (by cases hu),
      fun _ hd => (by cases hd)⟩
    · exact fun _ he => (by cases he)
    · exact fun _ hd => (by cases hd)
    · exact fun hu => (by cases hu)
    · exact fun _ hd => (by cases hd)
    · exact fun _ he => (by cases he)
    · exact fun _ he => (by cases he)
    · exact fun _ hd => (by cases hd)
    · exact fun _ hT => (by cases hT)
  have hbounded := PropertyList.bounded_empty
  refine ⟨⟨⟨hbounded, List.nodup_nil, fun id => ?_⟩, ⟨hbounded, List.nodup_nil, fun id => ?_⟩,
    fun _ hx => (by cases hx), fun _ hx => (by cases hx), Nat.le_refl _⟩,
    fun _ hx => (by cases hx), fun x h0 _ => Nat.pos_of_ne_zero h0, fun _ hx => (by cases hx),
    fun _ _ hn => (by cases hn), fun _ _ hn => (by cases hn)⟩
  · exact slot nodeScheme PropertyList.empty (fun _ => 0) id
  · exact slot rshipScheme PropertyList.empty (fun _ => 0) id

/-- The invariant holds in every state that a clean run reaches. -/
theorem Sys.inv_run {as : List Step} (hc : Sys.initial.CleanRun as) :
    ∃ top, (Sys.initial.run as).Inv top (committed as) := Sys.inv_initial.run hc

end Steps

end Poseidon
