import Poseidon.Lib.Writes
import Poseidon.Log.Recovery
import Poseidon.Proofs.BufView

/-!
# When recovery separates winners from losers

Repeating the log is a list of writes to the two tables. It goes through when
the page of every record that is repeated is in use, and a table then holds
at an index what the last of these records leaves there. The records that
should be repeated are those of transactions with a commit record, behind the
last checkpoint. Since nothing is undone, recovery is right exactly when the
last records of both lists agree at every index.
-/

namespace Poseidon

open Wp

/-! ## Changes of a table -/

namespace BufVec

variable {α : Type} {n idx : Nat} {v v' : BufVec α} {o : α} {x : Option α}

/-- A table changed at one index. -/
structure Changed (n : Nat) (v v' : BufVec α) (idx : Nat) (x : Option α) : Prop where
  holds : ∀ raw, v'.file.holds raw = v.file.holds raw
  capacity : v'.capacity = v.capacity
  view : v'.view n = Function.update (v.view n) idx x

/-- The indices of the pages in use are within the capacity. -/
def Roomy (n : Nat) (v : BufVec α) : Prop :=
  ∀ idx, v.file.holds (idx / n + 1) = true → idx < v.capacity

theorem roomy_reopen (hn : 0 < n) (v : BufVec α) : (v.reopen n).Roomy n := by
  intro idx hh
  have hslot : v.file.slots (idx / n) = true := by
    simp only [reopen, PagedFile.holds, Nat.add_sub_cancel, Bool.and_eq_true] at hh
    exact hh.2
  exact (Nat.div_lt_iff_lt_mul hn).mp (v.file.used_lt _ hslot)

theorem storeAt_changes (hn : 0 < n) (hh : v.file.holds (idx / n + 1) = true) (o : α) :
    wp (storeAt n idx o) (fun _ v' => Changed n v v' idx (some o)) (fun _ _ => False) v := by
  refine wp_mono (storeAt_wp v idx o) (fun _ v' hp => ?_) fun _ _ hp => ?_
  · obtain ⟨-, hr⟩ := hp
    refine ⟨fun raw => by rw [hr.file]; rfl, hr.capacity, funext fun j => ?_⟩
    rw [view_storeAt hn hh hr, Function.update_apply]
  · rw [hh] at hp
    cases hp.1

theorem storeAt_refuses (hh : v.file.holds (idx / n + 1) = false) (o : α) :
    wp (storeAt n idx o) (fun _ _ => False) (fun _ v' => v' = v) v := by
  refine wp_mono (storeAt_wp v idx o) (fun _ v' hp => ?_) fun _ _ hp => hp.2
  rw [hh] at hp
  cases hp.1

theorem remove_changes (hn : 0 < n) (hroom : v.Roomy n) (hh : v.file.holds (idx / n + 1) = true) :
    wp (remove n idx) (fun _ v' => Changed n v v' idx none) (fun _ _ => False) v := by
  have hlt := hroom idx hh
  simp only [remove, wp_bind, wp_get]
  refine wp_ite (fun hle => absurd hlt (by omega)) fun _ => ?_
  refine wp_mono (erase_wp hn v idx) (fun _ v' hp => ?_) fun _ _ hp => ?_
  · obtain ⟨-, hr⟩ := hp
    refine ⟨fun raw => by rw [hr.file]; rfl, hr.capacity, funext fun j => ?_⟩
    rw [view_erased hn hh hr, Function.update_apply]
  · rw [hh] at hp
    cases hp.1

theorem remove_refuses (hn : 0 < n) (hh : v.file.holds (idx / n + 1) = false) :
    wp (remove n idx) (fun _ _ => False) (fun _ _ => True) v := by
  simp only [remove, wp_bind, wp_get]
  refine wp_ite (fun _ => trivial) fun _ => ?_
  refine wp_mono (erase_wp hn v idx) (fun _ v' hp => ?_) fun _ _ _ => trivial
  rw [hh] at hp
  cases hp.1

variable [Inhabited α]

theorem redoStoreAt_changes (hn : 0 < n) (hh : v.file.holds (idx / n + 1) = true)
    (b : Bool) (o : α) :
    wp (redoStoreAt n b idx o) (fun _ v' => Changed n v v' idx (some o)) (fun _ _ => False) v := by
  obtain ⟨_, v', hres, hc⟩ := wp_exists (storeAt_changes hn hh o)
  simp only [wp, redoStoreAt, hres]
  exact hc

/-- The handler meets the missing page again. -/
theorem redoStoreAt_refuses (hh : v.file.holds (idx / n + 1) = false) (o : α) :
    wp (redoStoreAt n false idx o) (fun _ _ => False) (fun _ _ => True) v := by
  obtain ⟨e, v', hres, rfl⟩ := wp_exists_error (storeAt_refuses hh o)
  have hagain : wp (isUsed n idx >>= fun _ => lastUsed >>= fun _ => storeAt n idx o)
      (fun _ _ => False) (fun _ _ => True) v' := by
    simp only [isUsed, wp_bind]
    refine findChunk_wp (fun hh' => ?_) fun _ _ => trivial
    rw [hh] at hh'
    cases hh'
  cases e with
  | indexOutOfRange =>
      simp only [wp, redoStoreAt, hres]
      exact hagain
  | outOfRange => simp only [wp, redoStoreAt, hres]
  | unknownId => simp only [wp, redoStoreAt, hres]
  | nullPointer => simp only [wp, redoStoreAt, hres]

end BufVec

/-! ## What a record writes -/

/-- What a record of the log writes to the node table. -/
def nodeWrite (e : RedoEntry) : Option (Nat × Option NodeRow) :=
  match e.record.payload with
  | .data (.node .insert oid _ after) => some (oid.toNat, some (redoNode oid after))
  | .data (.node .update oid _ after) => some (oid.toNat, some (redoNode oid after))
  | .data (.node .delete oid _ _) => some (oid.toNat, none)
  | _ => none

/-- What a record of the log writes to the relationship table. -/
def rshipWrite (e : RedoEntry) : Option (Nat × Option RshipRow) :=
  match e.record.payload with
  | .data (.rship .insert oid _ after) => some (oid.toNat, some (redoRship e.stack after))
  | .data (.rship .update oid _ after) => some (oid.toNat, some (redoRship e.stack after))
  | .data (.rship .delete oid _ _) => some (oid.toNat, none)
  | _ => none

def nodeWrites (es : List RedoEntry) : List (Nat × Option NodeRow) := es.filterMap nodeWrite

def rshipWrites (es : List RedoEntry) : List (Nat × Option RshipRow) := es.filterMap rshipWrite

section

variable {δ : Type} {env : RedoEnv δ} {t t' t'' : Tables δ} {e : RedoEntry} {es fs : List RedoEntry}

/-- The page of the record that a log record writes is in use. -/
def PageInUse (env : RedoEnv δ) (t : Tables δ) (e : RedoEntry) : Prop :=
  (∀ w, nodeWrite e = some w → t.nodes.file.holds (w.1 / env.nodesPerPage + 1) = true) ∧
    ∀ w, rshipWrite e = some w → t.rships.file.holds (w.1 / env.rshipsPerPage + 1) = true

/-- The tables after records have been repeated. -/
structure Repeated (env : RedoEnv δ) (t t' : Tables δ) (es : List RedoEntry) : Prop where
  nodeHolds : ∀ raw, t'.nodes.file.holds raw = t.nodes.file.holds raw
  nodeCapacity : t'.nodes.capacity = t.nodes.capacity
  nodeView : t'.nodes.view env.nodesPerPage =
    writeAll (t.nodes.view env.nodesPerPage) (nodeWrites es)
  rshipHolds : ∀ raw, t'.rships.file.holds raw = t.rships.file.holds raw
  rshipCapacity : t'.rships.capacity = t.rships.capacity
  rshipView : t'.rships.view env.rshipsPerPage =
    writeAll (t.rships.view env.rshipsPerPage) (rshipWrites es)

theorem Repeated.refl (t : Tables δ) : Repeated env t t [] :=
  ⟨fun _ => rfl, rfl, rfl, fun _ => rfl, rfl, rfl⟩

theorem Repeated.trans (h : Repeated env t t' es) (h' : Repeated env t' t'' fs) :
    Repeated env t t'' (es ++ fs) where
  nodeHolds raw := (h'.nodeHolds raw).trans (h.nodeHolds raw)
  nodeCapacity := h'.nodeCapacity.trans h.nodeCapacity
  nodeView := by
    rw [h'.nodeView, h.nodeView, nodeWrites, nodeWrites, nodeWrites, List.filterMap_append]
    exact List.foldl_append.symm
  rshipHolds raw := (h'.rshipHolds raw).trans (h.rshipHolds raw)
  rshipCapacity := h'.rshipCapacity.trans h.rshipCapacity
  rshipView := by
    rw [h'.rshipView, h.rshipView, rshipWrites, rshipWrites, rshipWrites, List.filterMap_append]
    exact List.foldl_append.symm

/-- A record that writes to no table. -/
theorem repeated_none (hn : nodeWrite e = none) (hr : rshipWrite e = none) (d : δ) :
    Repeated env t { t with dict := d } [e] where
  nodeHolds _ := rfl
  nodeCapacity := rfl
  nodeView := by simp [nodeWrites, hn, writeAll]
  rshipHolds _ := rfl
  rshipCapacity := rfl
  rshipView := by simp [rshipWrites, hr, writeAll]

theorem repeated_node {v : BufVec NodeRow} {idx : Nat} {x : Option NodeRow}
    (hn : nodeWrite e = some (idx, x)) (hr : rshipWrite e = none)
    (hc : BufVec.Changed env.nodesPerPage t.nodes v idx x) :
    Repeated env t { t with nodes := v } [e] where
  nodeHolds := hc.holds
  nodeCapacity := hc.capacity
  nodeView := by
    rw [hc.view]
    simp [nodeWrites, hn, writeAll]
  rshipHolds _ := rfl
  rshipCapacity := rfl
  rshipView := by simp [rshipWrites, hr, writeAll]

theorem repeated_rship {v : BufVec RshipRow} {idx : Nat} {x : Option RshipRow}
    (hn : nodeWrite e = none) (hr : rshipWrite e = some (idx, x))
    (hc : BufVec.Changed env.rshipsPerPage t.rships v idx x) :
    Repeated env t { t with rships := v } [e] where
  nodeHolds _ := rfl
  nodeCapacity := rfl
  nodeView := by simp [nodeWrites, hn, writeAll]
  rshipHolds := hc.holds
  rshipCapacity := hc.capacity
  rshipView := by
    rw [hc.view]
    simp [rshipWrites, hr, writeAll]

theorem wp_onNodes {β : Type} {x : BufVec.M NodeRow β} {Q : β → Tables δ → Prop}
    {E : VecErr → Tables δ → Prop} :
    wp (Tables.onNodes x) Q E t ↔ wp x (fun b v => Q b { t with nodes := v })
      (fun e v => E e { t with nodes := v }) t.nodes := by
  simp only [wp, Tables.onNodes]
  cases x t.nodes with
  | ok b v => rfl
  | error e v => rfl

theorem wp_onRships {β : Type} {x : BufVec.M RshipRow β} {Q : β → Tables δ → Prop}
    {E : VecErr → Tables δ → Prop} :
    wp (Tables.onRships x) Q E t ↔ wp x (fun b v => Q b { t with rships := v })
      (fun e v => E e { t with rships := v }) t.rships := by
  simp only [wp, Tables.onRships]
  cases x t.rships with
  | ok b v => rfl
  | error e v => rfl

/-- Both tables have room for the pages in use. -/
def Tables.Roomy (env : RedoEnv δ) (t : Tables δ) : Prop :=
  t.nodes.Roomy env.nodesPerPage ∧ t.rships.Roomy env.rshipsPerPage

theorem Repeated.roomy (h : Repeated env t t' es) (hroom : t.Roomy env) : t'.Roomy env := by
  refine ⟨fun idx hh => ?_, fun idx hh => ?_⟩
  · rw [h.nodeHolds] at hh
    rw [h.nodeCapacity]
    exact hroom.1 idx hh
  · rw [h.rshipHolds] at hh
    rw [h.rshipCapacity]
    exact hroom.2 idx hh

theorem Repeated.pageInUse_iff (h : Repeated env t t' es) :
    PageInUse env t' e ↔ PageInUse env t e := by
  simp only [PageInUse, h.nodeHolds, h.rshipHolds]

variable (hn : 0 < env.nodesPerPage) (hr : 0 < env.rshipsPerPage)
include hn hr

/-- A record whose page is in use is repeated. -/
theorem applyRedo_wp (hroom : t.Roomy env) (hin : PageInUse env t e) :
    wp (applyRedo env e) (fun _ t' => Repeated env t t' [e]) (fun _ _ => False) t := by
  obtain ⟨⟨lsn, txId, prev, payload⟩, stack⟩ := e
  cases payload with
  | tx cmd => exact repeated_none rfl rfl t.dict
  | chkpt => exact repeated_none rfl rfl t.dict
  | data d =>
      cases d with
      | node op oid before after =>
          cases op with
          | tx => exact repeated_none rfl rfl t.dict
          | insert =>
              have hh := hin.1 _ rfl
              simp only [applyRedo, wp_onNodes]
              exact wp_mono (BufVec.redoStoreAt_changes hn hh _ _)
                (fun _ v hc => repeated_node rfl rfl hc) fun _ _ hf => hf
          | update =>
              have hh := hin.1 _ rfl
              simp only [applyRedo, wp_onNodes]
              exact wp_mono (BufVec.redoStoreAt_changes hn hh _ _)
                (fun _ v hc => repeated_node rfl rfl hc) fun _ _ hf => hf
          | delete =>
              have hh := hin.1 _ rfl
              simp only [applyRedo, wp_onNodes]
              exact wp_mono (BufVec.remove_changes hn hroom.1 hh)
                (fun _ v hc => repeated_node rfl rfl hc) fun _ _ hf => hf
          | chkpt => exact repeated_none rfl rfl t.dict
      | rship op oid before after =>
          cases op with
          | tx => exact repeated_none rfl rfl t.dict
          | insert =>
              have hh := hin.2 _ rfl
              simp only [applyRedo, wp_onRships]
              exact wp_mono (BufVec.storeAt_changes hr hh _)
                (fun _ v hc => repeated_rship rfl rfl hc) fun _ _ hf => hf
          | update =>
              have hh := hin.2 _ rfl
              simp only [applyRedo, wp_onRships]
              exact wp_mono (BufVec.storeAt_changes hr hh _)
                (fun _ v hc => repeated_rship rfl rfl hc) fun _ _ hf => hf
          | delete =>
              have hh := hin.2 _ rfl
              simp only [applyRedo, wp_onRships]
              exact wp_mono (BufVec.remove_changes hr hroom.2 hh)
                (fun _ v hc => repeated_rship rfl rfl hc) fun _ _ hf => hf
          | chkpt => exact repeated_none rfl rfl t.dict
      | dict code str => exact repeated_none rfl rfl _

/-- A record whose page is missing stops recovery. -/
theorem applyRedo_refuses (hfirst : env.lastUsedFirst = false) (hin : ¬PageInUse env t e) :
    wp (applyRedo env e) (fun _ _ => False) (fun _ _ => True) t := by
  obtain ⟨⟨lsn, txId, prev, payload⟩, stack⟩ := e
  -- a record that writes nothing needs no page
  have hnone : ∀ e' : RedoEntry, nodeWrite e' = none → rshipWrite e' = none →
    PageInUse env t e' := by
    intro e' h1 h2
    refine ⟨fun w hw => ?_, fun w hw => ?_⟩
    · rw [h1] at hw
      cases hw
    · rw [h2] at hw
      cases hw
  have hnode : ∀ {e' : RedoEntry} {idx : Nat} {x : Option NodeRow}, ¬PageInUse env t e' →
      nodeWrite e' = some (idx, x) → rshipWrite e' = none →
      t.nodes.file.holds (idx / env.nodesPerPage + 1) = false := by
    intro e' idx x hno h1 h2
    rw [Bool.eq_false_iff]
    intro hh
    refine hno ⟨fun w hw => ?_, fun w hw => ?_⟩
    · rw [h1] at hw
      cases hw
      exact hh
    · rw [h2] at hw
      cases hw
  have hrship : ∀ {e' : RedoEntry} {idx : Nat} {x : Option RshipRow}, ¬PageInUse env t e' →
      nodeWrite e' = none → rshipWrite e' = some (idx, x) →
      t.rships.file.holds (idx / env.rshipsPerPage + 1) = false := by
    intro e' idx x hno h1 h2
    rw [Bool.eq_false_iff]
    intro hh
    refine hno ⟨fun w hw => ?_, fun w hw => ?_⟩
    · rw [h1] at hw
      cases hw
    · rw [h2] at hw
      cases hw
      exact hh
  cases payload with
  | tx cmd => exact absurd (hnone _ rfl rfl) hin
  | chkpt => exact absurd (hnone _ rfl rfl) hin
  | data d =>
      cases d with
      | node op oid before after =>
          cases op with
          | tx => exact absurd (hnone _ rfl rfl) hin
          | insert =>
              have hh := hnode hin rfl rfl
              simp only [applyRedo, wp_onNodes, hfirst]
              exact BufVec.redoStoreAt_refuses hh _
          | update =>
              have hh := hnode hin rfl rfl
              simp only [applyRedo, wp_onNodes, hfirst]
              exact BufVec.redoStoreAt_refuses hh _
          | delete =>
              have hh := hnode hin rfl rfl
              simp only [applyRedo, wp_onNodes]
              exact BufVec.remove_refuses hn hh
          | chkpt => exact absurd (hnone _ rfl rfl) hin
      | rship op oid before after =>
          cases op with
          | tx => exact absurd (hnone _ rfl rfl) hin
          | insert =>
              have hh := hrship hin rfl rfl
              simp only [applyRedo, wp_onRships]
              exact wp_mono (BufVec.storeAt_refuses hh _) (fun _ _ hf => hf) fun _ _ _ => trivial
          | update =>
              have hh := hrship hin rfl rfl
              simp only [applyRedo, wp_onRships]
              exact wp_mono (BufVec.storeAt_refuses hh _) (fun _ _ hf => hf) fun _ _ _ => trivial
          | delete =>
              have hh := hrship hin rfl rfl
              simp only [applyRedo, wp_onRships]
              exact BufVec.remove_refuses hr hh
          | chkpt => exact absurd (hnone _ rfl rfl) hin
      | dict code str => exact absurd (hnone _ rfl rfl) hin

/-! ## The whole log -/

/-- The second loop, when no page is missing. -/
theorem redoLoop_wp (es : List RedoEntry) (hroom : t.Roomy env)
    (hin : ∀ e ∈ es, PageInUse env t e) :
    wp (es.forM (applyRedo env)) (fun _ t' => Repeated env t t' es) (fun _ _ => False) t := by
  induction es generalizing t with
  | nil => exact Repeated.refl t
  | cons e es ih =>
      change wp (applyRedo env e >>= fun _ => es.forM (applyRedo env)) _ _ t
      rw [wp_bind]
      refine wp_mono (applyRedo_wp hn hr hroom (hin e List.mem_cons_self)) (fun _ t₁ h₁ => ?_)
        fun _ _ hf => hf
      have hin₁ : ∀ e' ∈ es, PageInUse env t₁ e' := fun e' he' =>
        h₁.pageInUse_iff.mpr (hin e' (List.mem_cons_of_mem _ he'))
      exact wp_mono (ih (h₁.roomy hroom) hin₁) (fun _ t₂ h₂ => h₁.trans h₂) fun _ _ hf => hf

/-- The second loop stops at the first missing page. -/
theorem redoLoop_refuses (hfirst : env.lastUsedFirst = false) (es : List RedoEntry)
    (hroom : t.Roomy env) (hin : ∃ e ∈ es, ¬PageInUse env t e) :
    wp (es.forM (applyRedo env)) (fun _ _ => False) (fun _ _ => True) t := by
  induction es generalizing t with
  | nil =>
      obtain ⟨e, he, -⟩ := hin
      cases he
  | cons e es ih =>
      change wp (applyRedo env e >>= fun _ => es.forM (applyRedo env)) _ _ t
      rw [wp_bind]
      by_cases hpage : PageInUse env t e
      · refine wp_mono (applyRedo_wp hn hr hroom hpage) (fun _ t₁ h₁ => ?_) fun _ _ _ => trivial
        obtain ⟨e', he', hno⟩ := hin
        rcases List.mem_cons.mp he' with rfl | he'
        · exact absurd hpage hno
        · exact ih (h₁.roomy hroom) ⟨e', he', fun h => hno (h₁.pageInUse_iff.mp h)⟩
      · exact wp_mono (applyRedo_refuses hn hr hfirst hpage) (fun _ _ hf => hf.elim)
          fun _ _ _ => trivial

end

/-! ## Winners and losers -/

/-- The records behind the last checkpoint. -/
def behindCheckpoint (log : List RedoEntry) : List RedoEntry :=
  (log.reverse.takeWhile fun e => decide (e.record.payload ≠ .chkpt)).reverse

/-- The log has a commit record of the transaction. -/
def committedIn (log : List RedoEntry) (txid : UInt64) : Bool :=
  log.any fun e => decide (e.record.txId = txid) && decide (e.record.payload = .tx .commit)

/-- The records that recovery should repeat. -/
def due (log : List RedoEntry) : List RedoEntry :=
  (behindCheckpoint log).filter fun e => committedIn log e.record.txId

/-- Recovery ends with the writes of the committed transactions in the tables,
in the order of the log, and no others. -/
def RecoversCommitted {δ : Type} (env : RedoEnv δ) (log : List RedoEntry) (t : Tables δ) : Prop :=
  ∃ t', recover env log t = .ok ⟨⟩ t' ∧
    t'.nodes.view env.nodesPerPage =
      writeAll (t.nodes.view env.nodesPerPage) (nodeWrites (due log)) ∧
    t'.rships.view env.rshipsPerPage =
      writeAll (t.rships.view env.rshipsPerPage) (rshipWrites (due log))

/-- The last writes of two lists leave the same in every slot of a table. -/
def LastWritesAgree {ρ : Type} (m : Nat → Option ρ) (ws ws' : List (Nat × Option ρ)) : Prop :=
  ∀ k, (lastWrite ws k).getD (m k) = (lastWrite ws' k).getD (m k)

theorem writeAll_eq_iff {ρ : Type} {m : Nat → Option ρ} {ws ws' : List (Nat × Option ρ)} :
    writeAll m ws = writeAll m ws' ↔ LastWritesAgree m ws ws' := by
  constructor
  · intro h k
    rw [← writeAll_apply, ← writeAll_apply, h]
  · intro h
    funext k
    rw [writeAll_apply, writeAll_apply, h k]

section

variable {δ : Type} {env : RedoEnv δ} {t : Tables δ} {log : List RedoEntry}

/-- Nothing is undone. -/
theorem applyLog_wp {Q : PUnit → Tables δ → Prop} {E : VecErr → Tables δ → Prop} :
    wp (applyLog env log) Q E t ↔ wp ((redone log).forM (applyRedo env)) Q E t := by
  have hundo : ∀ (l : List UInt64) (s : Tables δ), wp (l.forM applyUndo) Q E s ↔ Q ⟨⟩ s := by
    intro l
    induction l with
    | nil => exact fun s => Iff.rfl
    | cons x l ih =>
        intro s
        change wp (applyUndo x >>= fun _ => l.forM applyUndo) Q E s ↔ _
        rw [wp_bind, applyUndo, wp_pure, ih]
  rw [applyLog, wp_bind]
  constructor
  · exact fun h => wp_mono h (fun _ s hs => (hundo _ s).mp hs) fun _ _ he => he
  · exact fun h => wp_mono h (fun _ s hs => (hundo _ s).mpr hs) fun _ _ he => he

theorem opened_roomy (hn : 0 < env.nodesPerPage) (hr : 0 < env.rshipsPerPage) (t : Tables δ) :
    (t.opened env).Roomy env :=
  ⟨BufVec.roomy_reopen hn t.nodes, BufVec.roomy_reopen hr t.rships⟩

theorem view_reopen {α : Type} {n : Nat} (v : BufVec α) : (v.reopen n).view n = v.view n := by
  funext j
  rw [BufVec.view_eq, BufVec.view_eq]
  rfl

/-- What recovery leaves, when no page is missing. -/
theorem recover_eq (env : RedoEnv δ) (hn : 0 < env.nodesPerPage) (hr : 0 < env.rshipsPerPage)
    (hin : ∀ e ∈ redone log, PageInUse env t e) :
    ∃ t', recover env log t = .ok ⟨⟩ t' ∧ Repeated env (t.opened env) t' (redone log) := by
  obtain ⟨_, t', hres, hrep⟩ := wp_exists (applyLog_wp.mpr
    (redoLoop_wp hn hr (redone log) (opened_roomy hn hr t) hin))
  exact ⟨t', hres, hrep⟩

/-- Recovery does not return when a page is missing. -/
theorem recover_needs_pages (env : RedoEnv δ) (hn : 0 < env.nodesPerPage)
    (hr : 0 < env.rshipsPerPage) (hfirst : env.lastUsedFirst = false) {t' : Tables δ}
    (hres : recover env log t = .ok ⟨⟩ t') :
    ∀ e ∈ redone log, PageInUse env t e := by
  by_contra hno
  have hex : ∃ e ∈ redone log, ¬PageInUse env t e := by
    simpa only [not_forall, exists_prop] using hno
  exact wp_ok (applyLog_wp.mpr (redoLoop_refuses hn hr hfirst (redone log) (opened_roomy hn hr t)
    hex)) hres

end

/-- Recovery leaves the writes of the committed transactions and no others, in
whichever order the arguments of the message are evaluated, exactly when the
page of every record that is repeated is in use and the last of these records
leaves in every slot what the last record of a committed transaction behind
the last checkpoint leaves there. -/
theorem recovers_committed_iff {δ : Type} (env : RedoEnv δ) (hn : 0 < env.nodesPerPage)
    (hr : 0 < env.rshipsPerPage) (log : List RedoEntry) (t : Tables δ) :
    (∀ b, RecoversCommitted { env with lastUsedFirst := b } log t) ↔
      (∀ e ∈ redone log, PageInUse env t e) ∧
      LastWritesAgree (t.nodes.view env.nodesPerPage) (nodeWrites (redone log))
        (nodeWrites (due log)) ∧
      LastWritesAgree (t.rships.view env.rshipsPerPage) (rshipWrites (redone log))
        (rshipWrites (due log)) := by
  rw [← writeAll_eq_iff, ← writeAll_eq_iff]
  constructor
  · intro h
    obtain ⟨t', hres, hnodes, hrships⟩ := h false
    have hin : ∀ e ∈ redone log, PageInUse env t e :=
      recover_needs_pages { env with lastUsedFirst := false } hn hr rfl hres
    obtain ⟨t'', hres', hrep⟩ := recover_eq { env with lastUsedFirst := false } hn hr hin
    rw [hres] at hres'
    cases hres'
    refine ⟨hin, ?_, ?_⟩
    · rw [← hnodes, hrep.nodeView]
      exact congrArg (writeAll · _) (view_reopen t.nodes).symm
    · rw [← hrships, hrep.rshipView]
      exact congrArg (writeAll · _) (view_reopen t.rships).symm
  · rintro ⟨hin, hnodes, hrships⟩ b
    obtain ⟨t', hres, hrep⟩ := recover_eq { env with lastUsedFirst := b } hn hr hin
    refine ⟨t', hres, ?_, ?_⟩
    · rw [hrep.nodeView, ← hnodes]
      exact congrArg (writeAll · _) (view_reopen t.nodes)
    · rw [hrep.rshipView, ← hrships]
      exact congrArg (writeAll · _) (view_reopen t.rships)

/-- The store of the examples: two records in a page, one page in use in each
table. -/
def onePage {α : Type} [Inhabited α] : BufVec α :=
  ⟨⟨1, fun i => decide (i = 0), fun _ => Chunk.empty, fun i h => by
    rw [of_decide_eq_true h]
    exact Nat.one_pos⟩, 0, fun _ => false, 0⟩

def smallEnv : RedoEnv Unit := ⟨2, 2, false, fun d _ => d⟩

def smallTables : Tables Unit := ⟨onePage, onePage, ()⟩

/-- A log in which transaction 7 inserts a node. -/
def insertLog (ending : List LogPayload) : List RedoEntry :=
  (LogPayload.tx .bot :: .data (.node .insert 0 ⟨0, 0, 0, 0⟩ ⟨1, -1, -1, -1⟩) :: ending).zipIdx.map
    fun p => ⟨⟨.ofNat (p.2 + 1), 7, 0, p.1⟩, ⟨0, 0⟩⟩

theorem recovers_committed_insert :
    RecoversCommitted smallEnv (insertLog [.tx .commit]) smallTables := by
  refine (recovers_committed_iff smallEnv (by decide) (by decide) _ _).mpr ⟨?_, ?_, ?_⟩ false
  · intro e he
    rw [List.mem_singleton.mp he]
    refine ⟨fun w hw => ?_, fun w hw => ?_⟩
    · cases hw
      rfl
    · cases hw
  · exact fun k => rfl
  · exact fun k => rfl

/-- The log ends before the commit record: the node is inserted all the
same. -/
theorem uncommitted_insert_is_redone :
    ¬∀ b, RecoversCommitted { smallEnv with lastUsedFirst := b } (insertLog []) smallTables := by
  intro h
  obtain ⟨t', hres, hnodes, -⟩ := h false
  cases hres
  have hat := congrFun hnodes 0
  cases hat

end Poseidon
