import Poseidon.Proofs.Commit

/-!
# Abort and garbage collection

The undo of a record looks at the first version that carries the lock of the
transaction. A tombstone is not removed and keeps the lock, so a second
visit of a deleted record still finds it and does no harm; a second visit of
an updated record would free the slot, but does not happen.

`vacuum` frees what has ended and has no dirty versions left. That such a
record is in the garbage only once, and that nothing else is there, is part
of the invariant.
-/

namespace Poseidon

open Wp History

variable {α κ β : Type} {t : Table α} {v : View t κ β} {id top T : Nat}
  {H : Nat → Hist κ} {s s' s0 : GraphDb} {rem : List Nat}

/-! ## Abort -/

/-- A record that the loop of an abort has still to visit. -/
inductive Undone (n T : Nat) (r : Record α) : Prop
  | again {d : DirtyObject α} (hu : r.used = true) (hcts : r.obj.cts = INF)
      (h0 : r.obj.txnId = 0) (hd : d ∈ r.dirtyList) (hlock : d.elem.txnId = T)
      (hlt : d.elem.cts < INF)
  | first {dn : DirtyObject α} (hf : Front T dn r) (hc : Coherent n T r)

variable (v) in
/-- The loop of an abort by `T` that began in `s0`; the slots in `rem` are
still to be visited. -/
structure View.Aborting (top T : Nat) (H : Nat → Hist κ) (s0 : GraphDb)
    (rem : List Nat) (s : GraphDb) : Prop where
  inv : v.Inv top H s
  ends : ∀ id, Ends (· ∈ s.activeTx) T (H id) (t.record s0 id) (H id) (t.record s id)
  pending : ∀ id ∈ rem, Undone (rem.count id) T (t.record s id)
  txs : s.txs = s0.txs
  activeTx : s.activeTx = s0.activeTx
  oldestXid : s.oldestXid = s0.oldestXid
  rest : v.rest s = v.rest s0
  garbage : s.garbage = s0.garbage

/-- A record without new dirty versions that nobody works on any more. -/
theorem SlotInv.undo {k : Scheme α κ} {A : Nat → Prop} {h : Hist κ} {p : PropertyList}
    {n : Nat → Nat} {g : Prop} {r r' : Record α} (hs : SlotInv k A top h p n g id r)
    (hrec : RecInv k A top p.buildDirtyPropertyList h r') (hcts : r.obj.cts = INF)
    (hno : ∀ x, A x → ∀ dn, ¬ Front x dn r) (hobj : r'.obj = r.obj.unlock)
    (hused : r'.used = true → r.used = true)
    (hsub : ∀ dn ∈ r'.dirtyList, dn ∈ r.dirtyList) : SlotInv k A top h p n g id r' := by
  refine ⟨hrec, fun dn hdn => hs.keyed dn (hsub dn hdn), fun h1 h2 h3 => ?_,
    fun x hx => ?_, fun hg => absurd hcts (hs.trash hg).2, fun hu => ?_,
    fun dn hdn => hs.named.copies dn (hsub dn hdn)⟩
  · rw [hobj] at h2 h3 ⊢
    obtain ⟨ids, hb⟩ := hs.backed (hused h1) h2 h3
    exact ⟨ids, hb.chain, hb.keyed, hb.fits, fun dn hdn => hb.room dn (hsub dn hdn)⟩
  · refine (hs.dirty x hx).other (hno x hx) fun dn hf => ?_
    refine hf.ne_zero (hf.locked.symm.trans ?_)
    rw [hobj]
    rfl
  · rw [hobj]
    exact hs.named.slot (hused hu)

/-- The loop goes on after a visit of `id`. -/
theorem View.Aborting.visit {r' : Record α} (h : v.Aborting top T H s0 (id :: rem) s)
    (hslot : SlotInv v.scheme (· ∈ s.activeTx) top (H id) (t.props s)
      (fun x => (v.dirty (s.txs x)).count id) (id ∈ garbageOf t.gcType s) id r')
    (hev : Ends (· ∈ s.activeTx) T (H id) (t.record s id) (H id) r')
    (hrem : id ∈ rem → Undone (rem.count id) T r') :
    v.Aborting top T H s0 rem (t.setRecord id r' s) := by
  have hput := v.put_setRecord id r' s
  refine ⟨⟨?_, ?_, fun i => ?_⟩, fun i => ?_, fun i hi => ?_, hput.txs.trans h.txs,
    hput.activeTx.trans h.activeTx, hput.oldestXid.trans h.oldestXid,
    hput.rest.trans h.rest, hput.garbage.trans h.garbage⟩
  · rw [hput.props]
    exact h.inv.bounded
  · rw [garbageOf_congr hput.garbage]
    exact h.inv.garbage
  · rw [hput.activeTx, hput.props, hput.txs, garbageOf_congr hput.garbage, hput.record]
    by_cases hi : i = id
    · subst hi
      rw [if_pos rfl]
      exact hslot
    · rw [if_neg hi]
      exact h.inv.slots i
  · rw [hput.activeTx, hput.record]
    by_cases hi : i = id
    · subst hi
      rw [if_pos rfl]
      exact (h.ends i).trans hev
    · rw [if_neg hi]
      exact h.ends i
  · rw [hput.record]
    by_cases hid : i = id
    · subst hid
      rw [if_pos rfl]
      exact hrem hi
    · rw [if_neg hid]
      have hp := h.pending i (List.mem_cons_of_mem _ hi)
      rw [List.count_cons_of_ne (fun heq => hid heq.symm)] at hp
      exact hp

/-- The record after the undo of an update or delete by `T`. -/
def Record.undone (r : Record α) (T : Nat) : Record α :=
  { r with obj := r.obj.unlock, dirtyList := (r.removeDirtyVersion T).dirtyList }

/-- What an undo leaves in the dirty list. -/
theorem Record.mem_removeDirtyVersion {r : Record α} {d : DirtyObject α}
    (hd : d ∈ r.dirtyList) (hlt : d.elem.cts < INF) :
    d ∈ (r.removeDirtyVersion T).dirtyList := by
  refine List.mem_filter.mpr ⟨hd, ?_⟩
  have hne : d.elem.cts ≠ INF := by omega
  simp [hne]

/-- One visit of the loop of an abort. It does not fail. -/
theorem View.Aborting.abortDirty (h : v.Aborting top T H s0 (id :: rem) s) (hT : T ≠ 0)
    (hina : T ∉ s.activeTx) :
    wp (t.abortDirty T id) (fun _ s' => v.Aborting top T H s0 rem s')
      (fun _ _ => False) s := by
  have hslot := h.inv.slots id
  have hget : (t.record s id).used = true → ∀ {Q : Record α → GraphDb → Prop},
      Q (t.record s id) s → wp (t.getRecord id) Q (fun _ _ => False) s := by
    intro hu Q hQ
    simp only [Table.getRecord, wp_bind, wp_get, wp_ofExcept, Vec.get]
    rw [show (t.vec s).slots id = t.record s id from rfl, if_pos hu]
    refine ⟨fun r hr => ?_, fun e he => (by cases he)⟩
    cases hr
    exact hQ
  have hsub : ∀ dn ∈ ((t.record s id).removeDirtyVersion T).dirtyList,
      dn ∈ (t.record s id).dirtyList := fun dn hdn => (List.mem_filter.mp hdn).1
  simp only [Table.abortDirty, wp_bind]
  cases h.pending id (List.mem_cons_self ..) with
  | @again d hu hcts h0 hd hlock hlt =>
      refine hget hu ?_
      rw [wp_modify]
      -- the tombstone is found again
      have hup : (t.record s id).updatedInVersion T = true := by
        rw [Record.updatedInVersion]
        cases hg : (t.record s id).getDirtyVersion T with
        | none => exact absurd hlock (by simpa using List.find?_eq_none.mp hg d hd)
        | some d' =>
            have hm := List.mem_of_find?_eq_some hg
            have ht' : d'.elem.txnId = T := by simpa using List.find?_some hg
            cases hslot.record.phase with
            | unused hp => rw [hp.list] at hm; cases hm
            | inserting hp => exact absurd h0 hp.locked
            | live hp =>
                rw [hp.list, hp.free h0, List.nil_append] at hm
                cases hp.past d' hm with
                | kept hf _ _ _ _ => exact absurd (ht'.symm.trans hf) hT
                | dead _ _ _ _ _ hu => exact hu
            | deleted hp => have := hp.cts_lt; omega
      rw [hup, if_pos rfl]
      have hobj : (t.record s id).obj.unlock = (t.record s id).obj := by
        rw [Obj.unlock, ← h0]
      have heq : (t.record s id).undone T = { t.record s id with
          dirtyList := ((t.record s id).removeDirtyVersion T).dirtyList } := by
        rw [Record.undone, hobj]
      have hrec := hslot.record.drop h0
        (l := ((t.record s id).removeDirtyVersion T).dirtyList) List.filter_sublist
        (fun _ _ hlt => by omega)
      rw [← heq] at hrec
      refine h.visit (hslot.undo hrec hcts ?_ rfl (fun hu => hu) hsub) ?_ (fun _ => ?_)
      · exact fun x _ dn hf => hf.ne_zero (hf.locked.symm.trans h0)
      · rw [heq] at hrec
        show Ends (· ∈ s.activeTx) T (H id) (t.record s id) (H id) ((t.record s id).undone T)
        rw [heq]
        refine Ends.drop hslot.record hrec h0 hsub fun R _ d hd hd0 _ => ?_
        refine List.mem_filter.mpr ⟨hd, ?_⟩
        have hne : (0 : Nat) ≠ T := fun h => hT h.symm
        simp [hd0, hne]
      · exact .again hu hcts rfl (Record.mem_removeDirtyVersion hd hlt) hlock hlt
  | @first dn hf hc =>
      refine hget hf.used ?_
      rw [wp_modify]
      have hno : ∀ x, x ∈ s.activeTx → ∀ d, ¬ Front x d (t.record s id) := by
        intro x hx d hd
        exact hina (hf.locked.symm.trans hd.locked ▸ hx)
      -- a record with one version that has not ended is in the list once
      have honce : dn.elem.cts = INF → id ∉ rem := by
        intro hcts
        have h1 := hc.once dn hf hcts
        rw [List.count_cons_self] at h1
        exact List.count_eq_zero.mp (by omega)
      have hup : (t.record s id).updatedInVersion T = dn.updateMode := by
        rw [Record.updatedInVersion, hf.getDirtyVersion]
      rw [hup]
      rcases hslot.record.front_cases hf with hp | ⟨own, rest, items, H₁, hl⟩
      · rw [hp.insert, if_neg (by simp)]
        have hend : RecInv v.scheme (· ∈ s.activeTx) top
              (t.props s).buildDirtyPropertyList (H id)
              { (t.record s id).undone T with used := false } ∧
            Ends (· ∈ s.activeTx) T (H id) (t.record s id) (H id)
              { (t.record s id).undone T with used := false } :=
          hslot.record.abortInsert hp hf.locked hina rfl rfl rfl
        obtain ⟨hrec, hev⟩ := hend
        exact h.visit (hslot.undo hrec hp.cts hno rfl (fun hu => (by cases hu)) hsub) hev
          (fun hm => absurd hm (honce hp.dv_cts))
      · have howned := hl.owned
        rw [hf.locked] at howned
        have hupdate : dn.updateMode = true := by
          cases howned with
          | updated hn => exact hn.update
          | deleted hd => exact hd.update
          | updatedDeleted hd hn => exact hd.update
        rw [hupdate, if_pos rfl]
        have hend : RecInv v.scheme (· ∈ s.activeTx) top
              (t.props s).buildDirtyPropertyList (H id) ((t.record s id).undone T) ∧
            Ends (· ∈ s.activeTx) T (H id) (t.record s id) (H id)
              ((t.record s id).undone T) :=
          hslot.record.abortLive hl hf.locked hT hina rfl rfl rfl rfl
        obtain ⟨hrec, hev⟩ := hend
        refine h.visit (hslot.undo hrec hl.cts hno rfl (fun hu => hu) hsub) hev
          (fun hm => ?_)
        have hlt : dn.elem.cts < INF := by
          have hlock := (hl.lock (by rw [hf.locked]; exact hT)).2.2.2
          rw [hf.locked] at hlock
          cases howned with
          | updated hn => exact absurd hm (honce hn.cts)
          | deleted hd => rw [hd.cts]; exact hlock
          | updatedDeleted hd hn => rw [hd.cts]; exact hlock
        exact .again hl.used hl.cts rfl
          (Record.mem_removeDirtyVersion (List.mem_of_mem_head? hf.front) hlt) hf.owner hlt

/-- The loop over a dirty list does not fail. -/
theorem View.Inv.abortLoop (h : v.Inv top H s) (hT : T ≠ 0) (hina : T ∉ s.activeTx)
    (hcoh : ∀ id, Coherent ((v.dirty (s.txs T)).count id) T (t.record s id)) :
    wp ((v.dirty (s.txs T)).forM (t.abortDirty T))
      (fun _ s' => v.Aborting top T H s [] s') (fun _ _ => False) s := by
  refine wp_forM (P := fun rem s' => v.Aborting top T H s rem s') ?_ _ s
    ⟨h, fun _ => Ends.refl .., fun id hid => ?_, rfl, rfl, rfl, rfl, rfl⟩
  · intro id rem s1 h1
    refine h1.abortDirty hT ?_
    rw [h1.activeTx]
    exact hina
  · have hn : (v.dirty (s.txs T)).count id ≠ 0 :=
      Nat.ne_of_gt (List.count_pos_iff.mpr hid)
    obtain ⟨dn, hf⟩ := (hcoh id).front.mp hn
    exact .first hf (hcoh id)

end Poseidon
