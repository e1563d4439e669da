import Poseidon.Proofs.Sound

/-!
# What a point read depends on

`get_valid_node_version` and `get_valid_rship_version` look at the lock word
and the timestamps of the slot and of the dirty versions. A read therefore
does not notice that it has itself raised the read timestamp, and whether it
succeeds can be told with the predicates `is_valid_for` and
`has_valid_version` alone.
-/

namespace Poseidon

open Wp

variable {α : Type}

namespace Obj

@[simp] theorem isLockedBy_iff {n : Obj α} {xid : Nat} :
    n.isLockedBy xid = true ↔ n.txnId = xid := decide_eq_true_iff

@[simp] theorem isValid_iff {n : Obj α} : n.isValid = true ↔ n.cts = INF :=
  decide_eq_true_iff

/-- The lock test of the loops: free, or ours. -/
theorem mayRead_iff {n : Obj α} {xid : Nat} :
    (!n.isLocked || n.isLockedBy xid) = true ↔ n.txnId = 0 ∨ n.txnId = xid := by
  simp [isLocked, isLockedBy]

theorem isValidFor_iff {n : Obj α} {xid : Nat} (h : n.prepared = true) :
    n.isValidFor xid = true ↔ n.bts ≤ xid ∧ xid < n.cts := by
  simp [isValidFor, h]

@[simp] theorem setRts_txnId (xid : Nat) (n : Obj α) :
    (n.setRts xid).txnId = n.txnId := by
  rw [setRts]; split <;> rfl

@[simp] theorem setRts_bts (xid : Nat) (n : Obj α) :
    (n.setRts xid).bts = n.bts := by
  rw [setRts]; split <;> rfl

@[simp] theorem setRts_cts (xid : Nat) (n : Obj α) :
    (n.setRts xid).cts = n.cts := by
  rw [setRts]; split <;> rfl

@[simp] theorem setRts_isDirty (xid : Nat) (n : Obj α) :
    (n.setRts xid).isDirty = n.isDirty := by
  rw [setRts]; split <;> rfl

@[simp] theorem setRts_data (xid : Nat) (n : Obj α) :
    (n.setRts xid).data = n.data := by
  rw [setRts]; split <;> rfl

theorem setRts_rts (xid : Nat) (n : Obj α) :
    (n.setRts xid).rts = max n.rts xid := by
  rw [setRts]
  split
  · next h => exact (Nat.max_eq_right (Nat.le_of_lt h)).symm
  · next h => exact (Nat.max_eq_left (Nat.le_of_not_lt h)).symm

@[simp] theorem prepare_eq {n : Obj α} (h : n.prepared = true) :
    n.prepare = n := by
  rw [prepare, ← h]

end Obj

namespace Record

/-- The record after a read by `xid` was recorded. -/
def recordRead (r : Record α) (xid : Nat) : Record α :=
  { r with obj := (r.obj.prepare).setRts xid }

@[simp] theorem recordRead_used (r : Record α) (xid : Nat) :
    (r.recordRead xid).used = r.used := rfl

@[simp] theorem recordRead_dirtyList (r : Record α) (xid : Nat) :
    (r.recordRead xid).dirtyList = r.dirtyList := rfl

/-- Recording the read does not change which version is found. -/
theorem getValidVersion_recordRead {r : Record α} (xid : Nat)
    (h : r.obj.prepared = true) :
    (r.recordRead xid).getValidVersion xid = r.getValidVersion xid := by
  have hv : ((r.recordRead xid).obj).isValidFor xid = r.obj.isValidFor xid := by
    simp only [recordRead, Obj.isValidFor, Obj.setRts_prepared,
      Obj.setRts_bts, Obj.setRts_cts, h]
    rfl
  have hl : (r.recordRead xid).obj.txnId = r.obj.txnId := by
    simp only [recordRead, Obj.setRts_txnId]
    rfl
  have hb : (r.recordRead xid).obj.isLockedBy xid = r.obj.isLockedBy xid := by
    simp only [Obj.isLockedBy, hl]
  have hk : (r.recordRead xid).obj.isLocked = r.obj.isLocked := by
    simp only [Obj.isLocked, hl]
  simp only [getValidVersion, hv, hb, hk, findValidVersion,
    recordRead_dirtyList]

theorem hasValidLoop_iff {xid : Nat} :
    ∀ (l : List (DirtyObject α)) (abort : Bool),
      hasValidLoop xid l = true ↔ ∃ dn, findValidLoop xid abort l = .ok dn := by
  intro l
  induction l with
  | nil =>
      intro abort
      simp only [hasValidLoop, findValidLoop, Bool.false_eq_true, false_iff]
      rintro ⟨dn, h⟩
      cases h
  | cons dn rest ih =>
      intro abort
      simp only [hasValidLoop, findValidLoop]
      split
      · split
        · simp
        · split
          · simp
          · exact ih true
      · exact ih abort

/-- `has_valid_version` says when `find_valid_version` succeeds. -/
theorem hasValidVersion_iff {r : Record α} {xid : Nat} :
    r.hasValidVersion xid = true ↔ ∃ dn, r.findValidVersion xid = .ok dn :=
  hasValidLoop_iff _ _

/-- A version that `find_valid_version` returns is in the list, and nobody
else has locked it. -/
theorem findValidLoop_ok {xid : Nat} :
    ∀ {l : List (DirtyObject α)} {abort : Bool} {dn : DirtyObject α},
      findValidLoop xid abort l = .ok dn →
        dn ∈ l ∧ (dn.elem.txnId = 0 ∨ dn.elem.txnId = xid) ∧
          dn.elem.isValidFor xid = true := by
  intro l
  induction l with
  | nil => intro abort dn h; cases h
  | cons d rest ih =>
      intro abort dn h
      have tail : ∀ b, findValidLoop xid b rest = .ok dn →
          dn ∈ d :: rest ∧ (dn.elem.txnId = 0 ∨ dn.elem.txnId = xid) ∧
            dn.elem.isValidFor xid = true := by
        intro b hb
        obtain ⟨hm, hrest⟩ := ih hb
        exact ⟨List.mem_cons_of_mem _ hm, hrest⟩
      simp only [findValidLoop] at h
      split at h
      · next hlock =>
          split at h
          · next hv =>
              cases h
              refine ⟨List.mem_cons_self .., ?_, hv⟩
              exact Obj.mayRead_iff.mp hlock
          · split at h
            · cases h
            · exact tail _ h
      · exact tail _ h

/-- Whether `xid` can read the record, in the words of the predicates of
`txn<T>`. -/
def readable (r : Record α) (xid : Nat) : Bool :=
  (!r.obj.isLocked && r.obj.isValidFor xid) || r.hasValidVersion xid

/-- A read by `xid` returns the slot if nobody works on it and it is valid,
and else the version that `find_valid_version` finds. -/
theorem getValidVersion_ok_iff {r : Record α} {xid : Nat} (hx : xid ≠ 0)
    {l : Loc} :
    r.getValidVersion xid = .ok l ↔
      (r.obj.txnId = 0 ∧ r.obj.isValidFor xid = true ∧ l = .slot) ∨
      (¬ (r.obj.txnId = 0 ∧ r.obj.isValidFor xid = true) ∧
        ∃ dn, r.findValidVersion xid = .ok dn ∧ l = .copy dn.addr) := by
  have found : ∀ {res : Except Err (DirtyObject α)},
      res.map (fun dn => Loc.copy dn.addr) = .ok l ↔
        ∃ dn, res = .ok dn ∧ l = .copy dn.addr := by
    intro res
    cases res with
    | error e => simp [Except.map]
    | ok dn => simp [Except.map, eq_comm]
  simp only [getValidVersion]
  by_cases hown : r.obj.isLockedBy xid = true
  · have h0 : r.obj.txnId ≠ 0 := by rw [Obj.isLockedBy_iff.mp hown]; exact hx
    rw [if_pos hown, found]
    simp [h0]
  · rw [if_neg hown]
    by_cases h0 : r.obj.txnId = 0
    · rw [if_pos (by simp [Obj.isLocked, h0])]
      by_cases hv : r.obj.isValidFor xid = true
      · rw [if_pos hv]; simp [h0, hv, eq_comm]
      · rw [if_neg hv, found]; simp [h0, hv]
    · rw [if_neg (by simp [Obj.isLocked, h0])]
      simp only [h0, false_and, not_false_eq_true, true_and, false_or]
      cases hf : r.findValidVersion xid with
      | error e => simp
      | ok dn =>
          -- the last check repeats one that the loop has made
          obtain ⟨_, hlock, _⟩ := findValidLoop_ok hf
          simp only [if_pos (Obj.mayRead_iff.mpr hlock), Except.ok.injEq]
          simp [eq_comm]

theorem readable_iff {r : Record α} {xid : Nat} (hx : xid ≠ 0) :
    r.readable xid = true ↔ ∃ l, r.getValidVersion xid = .ok l := by
  have hlock : (!r.obj.isLocked) = true ↔ r.obj.txnId = 0 := by
    simp [Obj.isLocked]
  simp only [readable, Bool.or_eq_true, Bool.and_eq_true, hasValidVersion_iff,
    hlock]
  constructor
  · intro h
    by_cases hs : r.obj.txnId = 0 ∧ r.obj.isValidFor xid = true
    · exact ⟨.slot, (getValidVersion_ok_iff hx).mpr (.inl ⟨hs.1, hs.2, rfl⟩)⟩
    · rcases h with h | ⟨dn, hdn⟩
      · exact absurd h hs
      · exact ⟨_, (getValidVersion_ok_iff hx).mpr (.inr ⟨hs, dn, hdn, rfl⟩)⟩
  · rintro ⟨l, hl⟩
    rcases (getValidVersion_ok_iff hx).mp hl with ⟨h0, hv, _⟩ | ⟨_, dn, hdn, _⟩
    · exact .inl ⟨h0, hv⟩
    · exact .inr ⟨dn, hdn⟩

/-- The location that a read returns can be followed. -/
theorem deref_of_getValidVersion {r : Record α} {xid : Nat} {l : Loc}
    (hx : xid ≠ 0) (h : r.getValidVersion xid = .ok l) :
    ∃ o, r.deref l = some o := by
  rcases (getValidVersion_ok_iff hx).mp h with ⟨_, _, rfl⟩ | ⟨_, dn, hdn, rfl⟩
  · exact ⟨_, rfl⟩
  · obtain ⟨hm, _⟩ := findValidLoop_ok hdn
    simp only [deref]
    cases hf : r.dirtyList.find? (fun d => d.addr = dn.addr) with
    | none => exact absurd (decide_eq_true rfl) (List.find?_eq_none.mp hf dn hm)
    | some d => exact ⟨_, rfl⟩

end Record

/-- A call returns `b`. -/
def Returns {β : Type} (x : DbM β) (s : GraphDb) (b : β) : Prop :=
  ∃ s', x s = .ok b s'

theorem returns_iff {β : Type} {x : DbM β} {s : GraphDb} {b : β} :
    Returns x s b ↔ wp x (fun b' _ => b' = b) (fun _ _ => False) s := by
  simp only [Returns, wp]
  cases x s with
  | ok b' s' =>
      constructor
      · rintro ⟨_, h⟩; cases h; rfl
      · intro h; exact ⟨s', by rw [h]⟩
  | error e s' =>
      constructor
      · rintro ⟨_, h⟩; cases h
      · intro h; exact h.elim

/-- `node_by_id` and `rship_by_id` return the valid version of a record in
use. -/
theorem Table.byId_returns {t : Table α} (ht : t.KeepsSound) {s : GraphDb}
    {xid : Nat} {id : Nat} {n : Ref} (h : s.Sound)
    (hrun : (s.txs xid).running = true) :
    Returns (t.byId xid id) s n ↔
      n.id = id ∧ (t.record s id).used = true ∧
        (t.record s id).getValidVersion xid = .ok n.loc := by
  simp only [returns_iff, Table.byId, Table.getRecord, wp_bind,
    wp_checkTxContext, wp_get, wp_modify, wp_pure, wp_ofExcept, hrun, Vec.get]
  have hrec : (t.vec s).slots id = t.record s id := rfl
  rw [hrec]
  by_cases hu : (t.record s id).used = true
  · have hv := Record.getValidVersion_recordRead xid ((ht.record s id h).prepared hu)
    simp only [Record.recordRead] at hv
    rw [if_pos hu]
    cases hg : (t.record s id).getValidVersion xid with
    | error e =>
        rw [hg] at hv
        simp [hv]
    | ok l =>
        rw [hg] at hv
        simp only [Except.ok.injEq, forall_eq', hv]
        obtain ⟨nid, loc⟩ := n
        simp [hu, eq_comm]
  · rw [if_neg hu]
    simp [hu]

end Poseidon
