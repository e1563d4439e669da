import Mathlib.Logic.Function.Iterate
import Poseidon.Proofs.Finish
import Poseidon.Proofs.RecordWalk

/-!
# A commit, seen by those who come later

Whether a transaction can read a record depends on the lock words and the
timestamps of its versions, not on what they hold. What a commit does to
these is a function of the record and of the visits it gets
(`Record.visited`), so two states that agree on a record still agree on it
after a commit from each. The garbage collection that follows looks at the
deleted records only, and takes versions away from them (`Fewer`).
-/

namespace Poseidon

open Wp

variable {α κ β : Type}

/-! ## Records that look the same -/

/-- The records differ at most in the data and the read timestamp of the slot. -/
structure Alike (r r' : Record α) : Prop where
  used : r'.used = r.used
  list : r'.dirtyList = r.dirtyList
  txnId : r'.obj.txnId = r.obj.txnId
  bts : r'.obj.bts = r.obj.bts
  cts : r'.obj.cts = r.obj.cts
  prepared : r'.obj.prepared = r.obj.prepared

/-- The second record has fewer versions, or is not in use any more. -/
structure Fewer (r r' : Record α) : Prop where
  used : r'.used = true → r.used = true
  list : r'.dirtyList.Sublist r.dirtyList
  txnId : r'.obj.txnId = r.obj.txnId
  bts : r'.obj.bts = r.obj.bts
  cts : r'.obj.cts = r.obj.cts
  prepared : r'.obj.prepared = r.obj.prepared

/-- The list without the version that was committed: what is in front now is
unlocked. -/
def unlockFront : List (DirtyObject α) → List (DirtyObject α)
  | [] => []
  | d :: l => { d with elem := d.elem.unlock } :: l

/-- What one visit of the commit loop of `T` does to the lock words and the
timestamps of a record. -/
def Record.visited (T oldest : Nat) (r : Record α) : Record α :=
  if r.obj.cts ≠ INF then r.removeDirtyVersion 0
  else
    match r.dirtyList with
    | [] => r
    | dn :: rest =>
        if dn.updateMode = false then
          Record.gc { r with
            obj := { r.obj with txnId := 0, bts := T, cts := INF }
            dirtyList := rest } oldest
        else if dn.elem.bts = dn.elem.cts then
          Record.gc { r with
            obj := { r.obj with txnId := 0, cts := T }
            dirtyList := unlockFront rest } oldest
        else
          Record.gc { r with
            obj := { r.obj with txnId := 0, bts := T, cts := INF }
            dirtyList := unlockFront rest } oldest

section Records

variable {r r' r'' : Record α} {T R oldest : Nat}

theorem Alike.refl (r : Record α) : Alike r r := ⟨rfl, rfl, rfl, rfl, rfl, rfl⟩

theorem Alike.symm (h : Alike r r') : Alike r' r :=
  ⟨h.used.symm, h.list.symm, h.txnId.symm, h.bts.symm, h.cts.symm, h.prepared.symm⟩

theorem Alike.trans (h : Alike r r') (h' : Alike r' r'') : Alike r r'' :=
  ⟨h'.used.trans h.used, h'.list.trans h.list, h'.txnId.trans h.txnId, h'.bts.trans h.bts,
    h'.cts.trans h.cts, h'.prepared.trans h.prepared⟩

theorem Alike.fewer (h : Alike r r') : Fewer r r' :=
  ⟨fun hu => h.used ▸ hu, h.list ▸ List.Sublist.refl _, h.txnId, h.bts, h.cts, h.prepared⟩

theorem Fewer.refl (r : Record α) : Fewer r r := (Alike.refl r).fewer

theorem Fewer.trans (h : Fewer r r') (h' : Fewer r' r'') : Fewer r r'' :=
  ⟨fun hu => h.used (h'.used hu), h'.list.trans h.list, h'.txnId.trans h.txnId,
    h'.bts.trans h.bts, h'.cts.trans h.cts, h'.prepared.trans h.prepared⟩

theorem Alike.isValidFor (h : Alike r r') (R : Nat) :
    r'.obj.isValidFor R = r.obj.isValidFor R := by
  simp only [Obj.isValidFor, h.prepared, h.bts, h.cts]

/-- Every reader finds the same version. -/
theorem Alike.getValidVersion (h : Alike r r') (R : Nat) :
    r'.getValidVersion R = r.getValidVersion R := by
  have hby : r'.obj.isLockedBy R = r.obj.isLockedBy R := by
    simp only [Obj.isLockedBy, h.txnId]
  have hlocked : r'.obj.isLocked = r.obj.isLocked := by
    simp only [Obj.isLocked, h.txnId]
  simp only [Record.getValidVersion, Record.findValidVersion, hby, hlocked, h.isValidFor, h.list]

theorem Alike.readable (h : Alike r r') : Readable R r' ↔ Readable R r := by
  rw [Readable, Readable, h.used, h.getValidVersion]

theorem Alike.visited (h : Alike r r') : Alike (r.visited T oldest) (r'.visited T oldest) := by
  obtain ⟨used, ⟨txnId, bts, cts, rts, prepared, dirty, data⟩, list, addr⟩ := r
  obtain ⟨used', ⟨txnId', bts', cts', rts', prepared', dirty', data'⟩, list', addr'⟩ := r'
  obtain ⟨h1, h2, h3, h4, h5, h6⟩ := h
  simp only at h1 h2 h3 h4 h5 h6
  subst h1 h2 h3 h4 h5 h6
  unfold Record.visited
  by_cases hc : cts' = INF
  · simp only [hc, ne_eq, not_true_eq_false, if_false]
    cases list' with
    | nil => exact ⟨rfl, rfl, rfl, rfl, rfl, rfl⟩
    | cons dn rest =>
        dsimp only
        split
        · exact ⟨rfl, rfl, rfl, rfl, rfl, rfl⟩
        · split
          · exact ⟨rfl, rfl, rfl, rfl, rfl, rfl⟩
          · exact ⟨rfl, rfl, rfl, rfl, rfl, rfl⟩
  · simp only [ne_eq, hc, not_false_eq_true, if_true]
    exact ⟨rfl, rfl, rfl, rfl, rfl, rfl⟩

theorem Alike.visits (h : Alike r r') (n : Nat) :
    Alike ((Record.visited T oldest)^[n] r) ((Record.visited T oldest)^[n] r') := by
  induction n generalizing r r' with
  | zero => exact h
  | succ n ih =>
      rw [Function.iterate_succ_apply, Function.iterate_succ_apply]
      exact ih h.visited

/-- A record that has ended stays so. -/
theorem Record.visited_ended (h : r.obj.cts ≠ INF) :
    r.visited T oldest = r.removeDirtyVersion 0 := if_pos h

theorem Record.visits_ended (T oldest : Nat) (h : r.obj.cts ≠ INF) (n : Nat) :
    ((Record.visited T oldest)^[n] r).obj = r.obj ∧
      ((Record.visited T oldest)^[n] r).used = r.used ∧
      ((Record.visited T oldest)^[n] r).dirtyList.Sublist r.dirtyList := by
  induction n generalizing r with
  | zero => exact ⟨rfl, rfl, List.Sublist.refl _⟩
  | succ n ih =>
      rw [Function.iterate_succ_apply, Record.visited_ended h]
      obtain ⟨h1, h2, h3⟩ := ih (r := r.removeDirtyVersion 0) h
      exact ⟨h1, h2, h3.trans List.filter_sublist⟩

end Records

/-! ## One visit -/

section Views

variable {t : Table α} (v : View t κ β) {T id : Nat} {s s' s'' : GraphDb}

/-- `copy_properties` changes the property table and the property list. -/
theorem View.copyProperties_put (v : View t κ β) (dn : DirtyObject α) :
    wp (t.copyProperties id dn) (fun _ s' => ∃ d p, v.Put id { t.record s id with
      obj := { (t.record s id).obj with data := d } } p s.garbage s s') (fun _ _ => True) s := by
  have tail : ∀ x : EStateM Err PropertyList Nat, wp (t.onProps x)
      (fun b s' => ∃ d p, v.Put id { t.record s id with
        obj := { (t.record s id).obj with data := d } } p s.garbage s
          (t.modifyObj id (fun o => { o with data := t.setPropertyList b o.data }) s'))
      (fun _ _ => True) s := by
    intro x
    simp only [Table.onProps, wp]
    split
    · next b s1 heq =>
      split at heq
      · cases heq
        exact ⟨_, _, (v.put_setProps id _ s).modifyObj fun o =>
          { o with data := t.setPropertyList b o.data }⟩
      · cases heq
    · trivial
  simp only [Table.copyProperties]
  refine wp_ite (fun _ => ⟨_, _, v.put_refl id s⟩) fun _ => ?_
  simp only [wp_bind, wp_get]
  refine wp_ite (fun _ => ?_) fun _ => ?_
  · simp only [wp_bind, wp_get, wp_modify]
    exact wp_ofExcept.mpr ⟨fun _ _ => tail _, fun _ _ => trivial⟩
  · simp only [wp_bind, wp_modify]
    exact tail _

/-- What a visit of slot `id` leaves. -/
def View.Visited (T id : Nat) (s s' : GraphDb) : Prop :=
  ∃ r p G, v.Put id r p G s s' ∧ Alike ((t.record s id).visited T s.oldestXid) r ∧
    ∀ g ∈ G, g ∈ s.garbage ∨ (g.itype = t.gcType ∧ g.oid = id ∧ r.obj.cts ≠ INF)

theorem View.commitDirty_visited {onInsert onUpdate : α → α → α} {onDelete : α → α}
    (hT : T < INF) :
    wp (t.commitDirty onInsert onUpdate onDelete T id) (fun _ s' => v.Visited T id s s')
      (fun _ _ => True) s := by
  simp only [Table.commitDirty, wp_bind]
  refine wp_mono wp_getRecord_self ?_ fun _ _ _ => trivial
  rintro r s1 ⟨rfl, rfl⟩
  refine wp_ite (fun hc => ?_) fun hc => ?_
  · -- deleted before
    rw [wp_bind, wp_modify, wp_pure]
    refine ⟨_, _, _, v.put_setRecord id _ s1, ?_, fun g hg => .inl hg⟩
    rw [Record.visited_ended hc]
    exact Alike.refl _
  have hlive : (t.record s1 id).obj.cts = INF := by simpa using hc
  split
  · trivial
  next dn rest hl =>
  refine wp_ite (fun hup => ?_) fun hup => ?_
  · -- insert
    have hup' : dn.updateMode = false := by simpa using hup
    simp only [wp_bind, wp_modify]
    refine wp_mono (v.copyProperties_put dn) ?_ fun _ _ _ => trivial
    rintro _ s2 ⟨d, p, hput⟩
    refine ⟨_, _, _, ((hput.modifyObj fun o => { o with
      bts := T, cts := INF, data := onInsert o.data dn.elem.data }).setRecord _).unlockGc, ?_,
      fun g hg => .inl hg⟩
    rw [(hput.modifyObj _).self]
    simp only [Record.visited, hlive, hl, hup', ne_eq, not_true_eq_false, if_false, if_true]
    exact ⟨rfl, rfl, rfl, rfl, rfl, rfl⟩
  have hup' : ¬ dn.updateMode = false := by simpa using hup
  have hpop : ∀ {o : Obj α} {r' : Record α},
      Record.popUnlock { t.record s1 id with obj := o } = .ok r' → ∃ d l, rest = d :: l ∧
        r' = { t.record s1 id with
          obj := o, dirtyList := { d with elem := d.elem.unlock } :: l } := by
    intro o r' hr
    simp only [Record.popUnlock, hl] at hr
    split at hr
    · next heq =>
      cases heq
      cases hr
      exact ⟨_, _, rfl, rfl⟩
    · cases hr
  refine wp_ite (fun htomb => ?_) fun htomb => ?_
  · -- delete
    simp only [wp_bind, wp_get, wp_modify]
    refine wp_ofExcept.mpr ⟨fun _ _ => ?_, fun _ _ => trivial⟩
    have hobj := (((v.put_refl id s1).setGarbage (s1.garbage ++ [⟨T, id, t.gcType⟩])).modifyObj
      fun o => { o with cts := T })
    refine wp_ofExcept.mpr ⟨fun _ _ => ?_, fun _ _ => trivial⟩
    refine wp_ofExcept.mpr ⟨fun r' hr' => ?_, fun _ _ => trivial⟩
    rw [hobj.self] at hr'
    obtain ⟨d, l, rfl, rfl⟩ := hpop hr'
    refine wp_mono (wp_onProps (P := fun s' => ∃ p, s' = t.setProps p _) fun p => ⟨p, rfl⟩) ?_
      fun _ _ _ => trivial
    rintro _ _ ⟨p, rfl⟩
    refine ⟨_, _, _, (((hobj.setRecord _).setProps p).modifyObj fun o =>
      { o with data := onDelete o.data }).unlockGc, ?_, fun g hg => ?_⟩
    · simp only [Record.visited, hlive, hl, hup', htomb, ne_eq, not_true_eq_false, if_false,
        if_true]
      exact ⟨rfl, rfl, rfl, rfl, rfl, rfl⟩
    · rcases List.mem_append.mp hg with hg | hg
      · exact .inl hg
      · rw [List.mem_singleton.mp hg]
        exact .inr ⟨rfl, rfl, Nat.ne_of_lt hT⟩
  · -- update
    simp only [wp_bind, wp_get, wp_modify]
    have hobj := (v.put_refl id s1).modifyObj fun o => { o with
      bts := T, cts := INF, data := onUpdate o.data dn.elem.data }
    refine wp_mono (v.copyProperties_put dn) ?_ fun _ _ _ => trivial
    rintro _ s2 ⟨d, p, hput⟩
    rw [hobj.self, hobj.garbage] at hput
    have hcopy := hobj.trans hput
    refine wp_ofExcept.mpr ⟨fun r' hr' => ?_, fun _ _ => trivial⟩
    rw [hcopy.self] at hr'
    obtain ⟨d, l, rfl, rfl⟩ := hpop hr'
    refine ⟨_, _, _, (hcopy.setRecord _).unlockGc, ?_, fun g hg => .inl hg⟩
    simp only [Record.visited, hlive, hl, hup', htomb, ne_eq, not_true_eq_false, if_false]
    exact ⟨rfl, rfl, rfl, rfl, rfl, rfl⟩

/-- What the loop over the slots `l` leaves. -/
structure View.Visits (T : Nat) (l : List Nat) (s s' : GraphDb) : Prop where
  record : ∀ i, Alike ((Record.visited T s.oldestXid)^[l.count i] (t.record s i)) (t.record s' i)
  garbage : ∀ g ∈ s'.garbage, g ∈ s.garbage ∨
    (g.itype = t.gcType ∧ (t.record s' g.oid).obj.cts ≠ INF)
  txs : s'.txs = s.txs
  activeTx : s'.activeTx = s.activeTx
  oldestXid : s'.oldestXid = s.oldestXid
  rest : v.rest s' = v.rest s

variable {v}

theorem View.Visits.cons {l : List Nat} (h : v.Visited T id s s') (h' : v.Visits T l s' s'') :
    v.Visits T (id :: l) s s'' := by
  obtain ⟨r, p, G, hput, hr, hG⟩ := h
  refine ⟨fun i => ?_, fun g hg => ?_, h'.txs.trans hput.txs, h'.activeTx.trans hput.activeTx,
    h'.oldestXid.trans hput.oldestXid, h'.rest.trans hput.rest⟩
  · have hi := h'.record i
    rw [hput.oldestXid, hput.record] at hi
    by_cases heq : i = id
    · subst heq
      rw [if_pos rfl] at hi
      rw [List.count_cons_self, Function.iterate_succ_apply]
      exact (hr.visits _).trans hi
    · rw [if_neg heq] at hi
      rw [List.count_cons_of_ne (Ne.symm heq)]
      exact hi
  · rcases h'.garbage g hg with hin | hnew
    · rw [hput.garbage] at hin
      refine (hG g hin).imp_right fun ⟨hty, hoid, hcts⟩ => ⟨hty, ?_⟩
      -- the visits that follow leave it ended
      have hi := h'.record g.oid
      rw [hoid] at hi ⊢
      rw [hput.self] at hi
      rw [hi.cts, (Record.visits_ended _ _ hcts _).1]
      exact hcts
    · exact .inr hnew

theorem View.commitLoop_visits (v : View t κ β) (onInsert onUpdate : α → α → α)
    (onDelete : α → α) (hT : T < INF) (l : List Nat) :
    wp (l.forM (t.commitDirty onInsert onUpdate onDelete T)) (fun _ s' => v.Visits T l s s')
      (fun _ _ => True) s := by
  induction l generalizing s with
  | nil =>
      exact ⟨fun _ => Alike.refl _, fun _ hg => .inl hg, rfl, rfl, rfl, rfl⟩
  | cons id l ih =>
      change wp (t.commitDirty onInsert onUpdate onDelete T id >>= fun _ => l.forM _) _ _ s
      rw [wp_bind]
      refine wp_mono (v.commitDirty_visited hT) ?_ fun _ _ _ => trivial
      intro _ s1 h1
      exact wp_mono ih (fun _ s2 h2 => View.Visits.cons h1 h2) fun _ _ _ => trivial

end Views

/-! ## The garbage collection -/

/-- The records of a table lose versions, and only those change that the
items `G` are about. -/
def Table.Thins (t : Table α) (G : List GcItem) (s s' : GraphDb) : Prop :=
  ∀ i, Fewer (t.record s i) (t.record s' i) ∧
    ((∃ g ∈ G, g.itype = t.gcType ∧ g.oid = i) ∨ Alike (t.record s i) (t.record s' i))

/-- Both tables do. -/
structure Thins (G : List GcItem) (s s' : GraphDb) : Prop where
  nodes : nodeTable.Thins G s s'
  rships : rshipTable.Thins G s s'

section Sweeps

variable {t : Table α} {G : List GcItem} {s s' s'' : GraphDb}

theorem Table.Thins.refl (t : Table α) (G : List GcItem) (s : GraphDb) : t.Thins G s s :=
  fun _ => ⟨Fewer.refl _, .inr (Alike.refl _)⟩

theorem Table.Thins.trans (h : t.Thins G s s') (h' : t.Thins G s' s'') : t.Thins G s s'' := by
  intro i
  obtain ⟨h1, h2⟩ := h i
  obtain ⟨h3, h4⟩ := h' i
  refine ⟨h1.trans h3, ?_⟩
  rcases h2 with hin | h2
  · exact .inl hin
  · exact h4.imp_right h2.trans

theorem Table.Thins.of_eq (h : ∀ i, t.record s' i = t.record s i) : t.Thins G s s' := by
  intro i
  rw [h]
  exact ⟨Fewer.refl _, .inr (Alike.refl _)⟩

/-- A change of one slot. -/
theorem Table.Thins.of_put {id : Nat} {r : Record α}
    (h : ∀ i, t.record s' i = if i = id then r else t.record s i) (hf : Fewer (t.record s id) r)
    (hG : (∃ g ∈ G, g.itype = t.gcType ∧ g.oid = id) ∨ Alike (t.record s id) r) :
    t.Thins G s s' := by
  intro i
  rw [h]
  split
  · next heq =>
    subst heq
    exact ⟨hf, hG⟩
  · exact ⟨Fewer.refl _, .inr (Alike.refl _)⟩

theorem Thins.refl (G : List GcItem) (s : GraphDb) : Thins G s s :=
  ⟨Table.Thins.refl _ _ _, Table.Thins.refl _ _ _⟩

theorem Thins.trans (h : Thins G s s') (h' : Thins G s' s'') : Thins G s s'' :=
  ⟨h.nodes.trans h'.nodes, h.rships.trans h'.rships⟩

theorem Thins.always_trans {β : Type} {x : DbM β} (h : Thins G s s')
    (hx : always x (Thins G s') s') : always x (Thins G s) s' :=
  always_mono hx fun _ h' => h.trans h'

theorem gc_fewer (r : Record α) (oldest : Nat) : Fewer r (r.gc oldest) :=
  ⟨id, List.filter_sublist, rfl, rfl, rfl, rfl⟩

/-- The links between records are no part of what a reader tests. -/
theorem unlinkLoop_thins {next : RshipData → Nat} {setNext : Nat → RshipData → RshipData}
    {oid newNext : Nat} : ∀ (fuel prevId : Nat) (s : GraphDb),
      always (unlinkLoop next setNext oid newNext fuel prevId) (Thins G s) s := by
  intro fuel
  induction fuel with
  | zero => exact fun prevId s => wp_ite (fun _ => Thins.refl ..) fun _ => Thins.refl ..
  | succ fuel ih =>
      intro prevId s
      refine wp_ite (fun _ => Thins.refl ..) fun _ => ?_
      rw [wp_bind]
      refine wp_mono wp_getRecord_self ?_ fun _ _ hs => hs ▸ Thins.refl ..
      rintro p s1 ⟨rfl, rfl⟩
      refine wp_ite (fun _ => ?_) fun _ => ih _ _
      rw [wp_modify]
      exact ⟨.of_eq fun _ => rfl, .of_put (rshipView.record_setRecord prevId _ s1)
        (Fewer.mk id (List.Sublist.refl _) rfl rfl rfl rfl) (.inr ⟨rfl, rfl, rfl, rfl, rfl, rfl⟩)⟩

theorem unlinkFrom_thins {head : NodeData → Nat} {setHead : Nat → NodeData → NodeData}
    {next : RshipData → Nat} {setNext : Nat → RshipData → RshipData} {nid oid newNext : Nat} :
    always (unlinkFrom head setHead next setNext nid oid newNext) (Thins G s) s := by
  simp only [unlinkFrom, always, wp_bind]
  refine wp_mono wp_getRecord_self ?_ fun _ _ hs => hs ▸ Thins.refl ..
  rintro n s1 ⟨rfl, rfl⟩
  refine wp_ite (fun _ => ?_) fun _ => ?_
  · rw [wp_modify]
    exact ⟨.of_put (nodeView.record_setRecord nid _ s1)
      (Fewer.mk id (List.Sublist.refl _) rfl rfl rfl rfl) (.inr ⟨rfl, rfl, rfl, rfl, rfl, rfl⟩),
      .of_eq fun _ => rfl⟩
  · rw [wp_bind, wp_get]
    exact unlinkLoop_thins _ _ _

theorem vacuumItem_thins {g : GcItem} (hg : g ∈ G) : always (vacuumItem g) (Thins G s) s := by
  simp only [vacuumItem, always]
  split
  · next hty =>
    have hin : ∃ g' ∈ G, g'.itype = nodeTable.gcType ∧ g'.oid = g.oid := ⟨g, hg, hty, rfl⟩
    simp only [wp_bind, wp_get]
    refine wp_mono wp_getRecord_self ?_ fun _ _ hs => hs ▸ Thins.refl ..
    rintro r s1 ⟨rfl, rfl⟩
    rw [wp_modify]
    have h1 : Thins G s1 (nodeTable.setRecord g.oid
        ((nodeTable.record s1 g.oid).gc s1.oldestXid) s1) :=
      ⟨.of_put (nodeView.record_setRecord g.oid _ s1) (gc_fewer _ _) (.inl hin),
        .of_eq fun _ => rfl⟩
    refine wp_ite (fun _ => h1) fun _ => ?_
    rw [wp_bind, wp_modify, wp_pure]
    exact h1.trans ⟨.of_put (nodeView.record_setRecord g.oid _ _)
      (Fewer.mk (fun hu => by cases hu) (List.Sublist.refl _) rfl rfl rfl rfl) (.inl hin),
      .of_eq fun _ => rfl⟩
  · next hty =>
    have hin : ∃ g' ∈ G, g'.itype = rshipTable.gcType ∧ g'.oid = g.oid := ⟨g, hg, hty, rfl⟩
    simp only [wp_bind, wp_get]
    refine wp_mono wp_getRecord_self ?_ fun _ _ hs => hs ▸ Thins.refl ..
    rintro r s1 ⟨rfl, rfl⟩
    rw [wp_modify]
    have h1 : Thins G s1 (rshipTable.setRecord g.oid
        ((rshipTable.record s1 g.oid).gc s1.oldestXid) s1) :=
      ⟨.of_eq fun _ => rfl,
        .of_put (rshipView.record_setRecord g.oid _ s1) (gc_fewer _ _) (.inl hin)⟩
    refine wp_ite (fun _ => h1) fun _ => ?_
    rw [wp_bind]
    refine wp_mono (h1.always_trans unlinkFrom_thins) ?_ fun _ _ h => h
    intro _ s2 h2
    rw [wp_bind]
    refine wp_mono (h2.always_trans unlinkFrom_thins) ?_ fun _ _ h => h
    intro _ s3 h3
    rw [wp_bind, wp_modify, wp_pure]
    exact h3.trans ⟨.of_eq fun _ => rfl, .of_put (rshipView.record_setRecord g.oid _ _)
      (Fewer.mk (fun hu => by cases hu) (List.Sublist.refl _) rfl rfl rfl rfl) (.inl hin)⟩

theorem vacuum_thins : always vacuum (Thins s.garbage s) s := by
  have loop : ∀ (rest kept : List GcItem) (s' : GraphDb), (∀ g ∈ rest, g ∈ s.garbage) →
      always (vacuumLoop kept rest) (Thins s.garbage s') s' := by
    intro rest
    induction rest with
    | nil => exact fun kept s' _ => Thins.refl ..
    | cons g rest ih =>
        intro kept s' hin
        have hrest := fun g' hg' => hin g' (List.mem_cons_of_mem _ hg')
        simp only [vacuumLoop, always, wp_bind]
        refine wp_mono (vacuumItem_thins (hin g (List.mem_cons_self ..))) ?_ fun _ _ h => h
        intro b s1 h1
        cases b with
        | true =>
            rw [if_pos rfl, wp_bind, wp_modify]
            exact Thins.always_trans (h1.trans ⟨.of_eq fun _ => rfl, .of_eq fun _ => rfl⟩)
              (ih kept _ hrest)
        | false => exact h1.always_trans (ih _ _ hrest)
  exact loop s.garbage [] s fun _ hg => hg

end Sweeps

/-! ## The whole commit -/

/-- The record after the visits of the commit of `T`. -/
def View.afterVisits {t : Table α} (v : View t κ β) (T : Nat) (s : GraphDb) (i : Nat) : Record α :=
  (Record.visited T (leaveActive T s).oldestXid)^[(v.dirty (s.txs T)).count i] (t.record s i)

/-- The store between the loops of a commit of `T` and its garbage collection. -/
structure BeforeVacuum (T : Nat) (s s' : GraphDb) : Prop where
  nodes : ∀ i, Alike (nodeView.afterVisits T s i) (nodeTable.record s' i)
  rships : ∀ i, Alike (rshipView.afterVisits T s i) (rshipTable.record s' i)
  nodeGarbage : ∀ i, (∃ g ∈ s'.garbage, g.itype = .gcNode ∧ g.oid = i) →
    i ∈ garbageOf .gcNode s ∨ (nodeTable.record s' i).obj.cts ≠ INF
  rshipGarbage : ∀ i, (∃ g ∈ s'.garbage, g.itype = .gcRship ∧ g.oid = i) →
    i ∈ garbageOf .gcRship s ∨ (rshipTable.record s' i).obj.cts ≠ INF

section Commits

variable {T top : Nat} {L : Log} {s s' s₁ s₂ : GraphDb}

theorem mem_garbageOf {ty : GcType} {i : Nat} :
    i ∈ garbageOf ty s ↔ ∃ g ∈ s.garbage, g.itype = ty ∧ g.oid = i := by
  simp [garbageOf, and_assoc]

theorem BeforeVacuum.of_visits
    (hr : rshipView.Visits T (rshipView.dirty (s.txs T)) (leaveActive T s) s₁)
    (hn : nodeView.Visits T (nodeView.dirty (s₁.txs T)) s₁ s₂) : BeforeVacuum T s s₂ := by
  have hrest := hr.rest
  simp only [rshipView, Prod.mk.injEq] at hrest
  have hrest' := hn.rest
  simp only [nodeView, Prod.mk.injEq] at hrest'
  have hnode : ∀ i, nodeTable.record s₁ i = nodeTable.record s i := by
    intro i
    show s₁.nodes.slots i = s.nodes.slots i
    rw [hrest.1]
    rfl
  have hrship : ∀ i, rshipTable.record s₂ i = rshipTable.record s₁ i := by
    intro i
    show s₂.rships.slots i = s₁.rships.slots i
    rw [hrest'.1]
  refine ⟨fun i => ?_, fun i => ?_, fun i hi => ?_, fun i hi => ?_⟩
  · have h := hn.record i
    rw [hnode, hr.oldestXid, hr.txs] at h
    exact h
  · rw [hrship]
    exact hr.record i
  · obtain ⟨g, hg, hty, hoid⟩ := hi
    rcases hn.garbage g hg with hin | ⟨-, hcts⟩
    · rcases hr.garbage g hin with hin | ⟨hty', -⟩
      · exact .inl (mem_garbageOf.mpr ⟨g, hin, hty, hoid⟩)
      · rw [hty] at hty'
        cases hty'
    · exact .inr (hoid ▸ hcts)
  · obtain ⟨g, hg, hty, hoid⟩ := hi
    rcases hn.garbage g hg with hin | ⟨hty', -⟩
    · rcases hr.garbage g hin with hin | ⟨-, hcts⟩
      · exact .inl (mem_garbageOf.mpr ⟨g, hin, hty, hoid⟩)
      · rw [hrship]
        exact .inr (hoid ▸ hcts)
    · rw [hty] at hty'
      cases hty'

/-- To give up the transaction object changes no record. -/
theorem BeforeVacuum.stop (h : BeforeVacuum T s s₂) :
    BeforeVacuum T s (GraphDb.modifyTx T (fun t => { t with running := false }) s₂) :=
  ⟨h.nodes, h.rships, h.nodeGarbage, h.rshipGarbage⟩

theorem commitRships_visits (hT : T < INF) (l : List Nat) :
    wp (l.forM (commitDirtyRelationship T)) (fun _ s' => rshipView.Visits T l s s')
      (fun _ _ => True) s :=
  rshipView.commitLoop_visits (fun r _ => r)
    (fun r dr => { r with rshipLabel := dr.rshipLabel }) (fun d => d) hT l

theorem commitNodes_visits (hT : T < INF) (l : List Nat) :
    wp (l.forM (commitDirtyNode T)) (fun _ s' => nodeView.Visits T l s s') (fun _ _ => True) s :=
  nodeView.commitLoop_visits copyNodeFields copyNodeFields
    (fun d => { d with propertyList := UNKNOWN }) hT l

/-- What follows the loops of a commit. -/
theorem commitEnd_thins :
    always (do
      modify (GraphDb.modifyTx T fun t => { t with running := false })
      vacuum
      return true)
      (Thins s₂.garbage (GraphDb.modifyTx T (fun t => { t with running := false }) s₂)) s₂ := by
  rw [always, wp_bind, wp_modify, wp_bind]
  exact wp_mono vacuum_thins (fun _ _ hs => hs) fun _ _ hs => hs

/-- A commit that returns has made all its visits. -/
theorem commitTransaction_visits (hT : T < INF) :
    wp (commitTransaction T)
      (fun _ s' => ∃ s₃, BeforeVacuum T s s₃ ∧ Thins s₃.garbage s₃ s') (fun _ _ => True) s := by
  simp only [commitTransaction]
  rw [wp_bind]
  refine wp_checkTxContext.mpr ⟨fun _ => ?_, fun _ => trivial⟩
  rw [wp_bind, wp_modify, wp_bind, wp_get, wp_bind]
  refine wp_mono (commitRships_visits hT _) ?_ fun _ _ _ => trivial
  intro _ s₁ hr
  rw [wp_bind, wp_get, wp_bind]
  refine wp_mono (commitNodes_visits hT _) ?_ fun _ _ _ => trivial
  intro _ s₂ hn
  have h : BeforeVacuum T s s₂ := .of_visits hr hn
  exact wp_mono commitEnd_thins (fun _ _ hs => ⟨_, h.stop, hs⟩) fun _ _ _ => trivial

/-- Where the invariant holds, every commit does, and the invariant holds
again before the garbage collection. -/
theorem GraphDb.Inv.commit_visits (h : s.Inv top L) (hact : Active top s T) :
    always (commitTransaction T)
      (fun s' => ∃ s₃ L', BeforeVacuum T s s₃ ∧ s₃.Inv top L' ∧ Thins s₃.garbage s₃ s') s := by
  simp only [commitTransaction, always]
  rw [wp_bind]
  refine wp_checkTxContext_active hact ?_
  rw [wp_bind, wp_modify, wp_bind, wp_get, wp_bind]
  refine wp_mono (wp_and (commitRships_visits hact.lt_inf _) (commitRships_spec h hact))
    ?_ fun _ _ hf => hf.2.elim
  rintro _ s₁ ⟨hr, Hr, hhalf⟩
  rw [wp_bind, wp_get, wp_bind]
  refine wp_mono (wp_and (commitNodes_visits hact.lt_inf _)
    (hhalf.nodes.commitLoop nodeFields hhalf.inactive hact.lt_inf hhalf.oldest hhalf.coherent))
    ?_ fun _ _ hf => hf.2.elim
  rintro _ s₂ ⟨hn, Hn, hcom⟩
  have hv : BeforeVacuum T s s₂ := .of_visits hr hn
  have hinv := (hhalf.exit h hact hcom).2.stop.inv
  have hend : ∀ s', Thins s₂.garbage (GraphDb.modifyTx T (fun t => { t with running := false })
      s₂) s' → ∃ s₃ L', BeforeVacuum T s s₃ ∧ s₃.Inv top L' ∧ Thins s₃.garbage s₃ s' :=
    fun s' hs => ⟨_, _, hv.stop, hinv, hs⟩
  exact wp_mono commitEnd_thins (fun _ s' => hend s') fun _ s' => hend s'

end Commits

end Poseidon
