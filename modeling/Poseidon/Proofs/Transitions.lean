import Poseidon.Proofs.Record

/-!
# What a call can do to a record

One lemma for each thing that happens to a record: a read is recorded, the
slot is locked or unlocked, versions are put in front of the dirty list, the
front version is changed, and the record is inserted, committed, aborted,
cleaned up and freed. Each keeps the invariant, and each keeps what the
other active transactions rely on: where their references point, what they
have read, and their own versions (`Evolve`).
-/

namespace Poseidon

open History

variable {α κ : Type}

/-- What a change made by `W` keeps for the transactions that are active
after it. -/
structure Evolve (A : Nat → Prop) (W : Nat) (H : Hist κ) (r : Record α)
    (H' : Hist κ) (r' : Record α) : Prop where
  ref : ∀ T l, A T → RefOk T r l → RefOk T r' l
  seen : ∀ T e, A T → Seen T e H r → Seen T e H' r'
  front : ∀ T dn, A T → T ≠ W → Front T dn r → Front T dn r'

section Transitions

variable {k : Scheme α κ} {A A' : Nat → Prop} {top W : Nat}
  {stored stored' : Nat → Except Err (List PItem)} {H H' H'' : Hist κ}
  {r r' r'' : Record α}

theorem Evolve.refl (A : Nat → Prop) (W : Nat) (H : Hist κ) (r : Record α) :
    Evolve A W H r H r :=
  ⟨fun _ _ _ h => h, fun _ _ _ h => h, fun _ _ _ _ h => h⟩

theorem Evolve.trans (h : Evolve A W H r H' r') (h' : Evolve A W H' r' H'' r'') :
    Evolve A W H r H'' r'' :=
  ⟨fun T l hA hr => h'.ref T l hA (h.ref T l hA hr),
    fun T e hA hr => h'.seen T e hA (h.seen T e hA hr),
    fun T dn hA hne hr => h'.front T dn hA hne (h.front T dn hA hne hr)⟩

theorem Evolve.mono (h : Evolve A W H r H' r') (hA : ∀ x, A' x → A x) :
    Evolve A' W H r H' r' :=
  ⟨fun T l h1 => h.ref T l (hA T h1), fun T e h1 => h.seen T e (hA T h1),
    fun T dn h1 => h.front T dn (hA T h1)⟩

/-! ## Changes of the slot that no version notices -/

/-- The slot holds the same version, possibly read again. -/
structure Touched (k : Scheme α κ) (r r' : Record α) : Prop where
  used : r'.used = r.used
  list : r'.dirtyList = r.dirtyList
  nextAddr : r'.nextAddr = r.nextAddr
  txnId : r'.obj.txnId = r.obj.txnId
  bts : r'.obj.bts = r.obj.bts
  cts : r'.obj.cts = r.obj.cts
  rts : r.obj.rts ≤ r'.obj.rts
  img : k.img r'.obj.data = k.img r.obj.data
  pl : k.pl r'.obj.data = k.pl r.obj.data
  rid : k.rid r'.obj.data = k.rid r.obj.data
  prepared : r.obj.prepared = true → r'.obj.prepared = true

/-- A change of fields that are not versioned: the list heads of a node, the
next pointers of a relationship. -/
structure Unversioned (k : Scheme α κ) (f : α → α) : Prop where
  img : ∀ d, k.img (f d) = k.img d
  pl : ∀ d, k.pl (f d) = k.pl d
  rid : ∀ d, k.rid (f d) = k.rid d

theorem Unversioned.touched {f : α → α} (hf : Unversioned k f) (r : Record α) :
    Touched k r { r with obj := { r.obj with data := f r.obj.data } } :=
  ⟨rfl, rfl, rfl, rfl, rfl, rfl, Nat.le_refl _, hf.img _, hf.pl _, hf.rid _, fun h => h⟩

theorem Touched.bound_le (h : Touched k r r') : r.bound ≤ r'.bound := by
  have h1 := h.rts
  simp only [Record.bound, h.txnId]
  split <;> omega

theorem Touched.evolve (h : Touched k r r') : Evolve A W H r H r' := by
  have h1 := h.rts
  refine ⟨fun T l _ hr => ?_, fun T e _ hs => ?_, fun T dn _ _ hf => ?_⟩
  · cases l with
    | slot =>
        obtain ⟨hu, hb, ht, hbr, hc, hl⟩ := hr
        refine ⟨h.used.trans hu, ?_, ?_, ?_, ?_, ?_⟩
        · rw [h.bts]; exact hb
        · omega
        · rw [h.bts]; omega
        · rw [h.cts]
          rcases hc with hc | hc
          · exact .inl hc
          · exact .inr ⟨hc.1, by omega⟩
        · rw [h.txnId]; exact hl
    | copy a =>
        rw [RefOk, h.list, h.nextAddr]
        exact hr
  · refine ⟨hs.latest, hs.content, h.used.trans hs.used, ?_, ?_⟩
    · have := hs.rts
      omega
    · rw [h.txnId]; exact hs.lock
  · refine ⟨hf.ne_zero, h.used.trans hf.used, h.txnId.trans hf.locked, ?_, hf.owner⟩
    rw [h.list]
    exact hf.front

theorem RecInv.touch (h : RecInv k A top stored H r) (ht : Touched k r r') :
    RecInv k A top stored H r' := by
  have hb := ht.bound_le
  have hrts := ht.rts
  have hpast : ∀ {dn}, Past k A top H r.bound r.obj.txnId dn →
      Past k A top H r'.bound r'.obj.txnId dn := by
    intro dn hp
    rw [ht.txnId]
    exact hp.mono (fun _ h => h) (Nat.le_refl _) hb
  refine ⟨h.sorted, h.committed, ?_, ?_, ?_, ?_, ?_⟩
  · rw [ht.list, ht.nextAddr]; exact h.addr_lt
  · rw [ht.list]; exact h.addr_nodup
  · intro hu
    exact ht.prepared (h.prepared (ht.used.symm.trans hu))
  · rw [ht.list]; exact h.copies
  cases h.phase with
  | unused hp => exact .unused ⟨ht.used.trans hp.used, ht.list.trans hp.list, hp.ended, hp.before⟩
  | inserting hp =>
      refine .inserting ⟨ht.used.trans hp.used, ?_, ?_, ?_, ?_, ?_, ?_,
        ht.list.trans hp.list, ?_, hp.insert, hp.dv_bts, hp.dv_cts, hp.ended, ?_⟩
      · rw [ht.txnId]; exact hp.locked
      · rw [ht.txnId]; exact hp.known
      · rw [ht.txnId]; exact hp.lt_inf
      · rw [ht.bts]; exact hp.bts
      · rw [ht.cts]; exact hp.cts
      · rw [ht.pl]; exact hp.pl
      · rw [ht.txnId]; exact hp.owner
      · rw [ht.txnId]; exact hp.before
  | @live own rest items H₁ hp =>
      suffices hl : Live k A top stored H r' own rest items H₁ from .live hl
      refine ⟨ht.used.trans hp.used, ?_, ?_, ?_, ht.list.trans hp.list, ?_,
        fun dn hdn => hpast (hp.past dn hdn), ?_, ?_, ?_⟩
      · rw [ht.cts]; exact hp.cts
      · rw [ht.pl]; exact hp.holds
      · rw [ht.bts, ht.img]; exact hp.head
      · rw [ht.txnId]; exact hp.owned
      · rw [ht.txnId, ht.bts]; exact hp.kept
      · rw [ht.txnId]; exact hp.free
      · rw [ht.txnId, ht.bts]
        intro h0
        have := hp.lock h0
        omega
  | @deleted items H₁ hp =>
      suffices hd : Deleted k A top H r' items H₁ from .deleted hd
      refine ⟨ht.used.trans hp.used, ?_, ?_, ?_, ?_, ?_, ?_⟩
      · rw [ht.txnId]; exact hp.locked
      · rw [ht.cts]; exact hp.cts_lt
      · rw [ht.cts, ht.bts, ht.img]; exact hp.head
      · rw [ht.list]
        exact fun dn hdn => hpast (hp.past dn hdn)
      · rw [ht.cts]
        have := hp.cts_le
        omega
      · rw [ht.cts, ht.list]; exact hp.kept

theorem touched_recordRead (r : Record α) (T : Nat) :
    Touched k r (r.recordRead T) := by
  refine ⟨rfl, rfl, rfl, ?_, ?_, ?_, ?_, ?_, ?_, ?_, ?_⟩
  · exact Obj.setRts_txnId ..
  · exact Obj.setRts_bts ..
  · exact Obj.setRts_cts ..
  · rw [Record.recordRead, Obj.setRts_rts]
    exact Nat.le_max_left ..
  · simp [Record.recordRead, Obj.prepare]
  · simp [Record.recordRead, Obj.prepare]
  · simp [Record.recordRead, Obj.prepare]
  · intro _; exact Obj.setRts_prepared ..

/-- The table may change where the record does not look. -/
theorem RecInv.congrStored (h : RecInv k A top stored H r)
    (hs : r.used = true → r.obj.cts = INF → r.obj.bts ≠ 0 →
      stored' (k.pl r.obj.data) = stored (k.pl r.obj.data)) :
    RecInv k A top stored' H r := by
  refine ⟨h.sorted, h.committed, h.addr_lt, h.addr_nodup, h.prepared, h.copies, ?_⟩
  cases h.phase with
  | unused hp => exact .unused hp
  | inserting hp => exact .inserting hp
  | live hp =>
      refine .live ⟨hp.used, hp.cts, ?_, hp.head, hp.list, hp.owned, hp.past,
        hp.kept, hp.free, hp.lock⟩
      rw [hs hp.used hp.cts (hp.bts_ne_zero h)]
      exact hp.holds
  | deleted hp => exact .deleted hp

/-! ## Transactions come and go -/

/-- A transaction that begins is younger than everything in the record. -/
theorem RecInv.begin {T : Nat} (h : RecInv k A top stored H r) (hT : top < T) :
    RecInv k (fun x => x = T ∨ A x) T stored H r := by
  have hle : ∀ e ∈ H, e.1 < T := fun e he => by
    have := (h.committed e he).2.1
    omega
  have hpast : ∀ {b o dn}, Past k A top H b o dn →
      Past k (fun x => x = T ∨ A x) T H b o dn := by
    intro b o dn hp
    cases hp with
    | kept h1 h2 h3 h4 h5 => exact .kept h1 h2 h3 h4 h5
    | dead h1 h2 h3 h4 h5 h6 =>
        refine .dead h1 h2 (fun hA => ?_) (by omega) h5 h6
        rcases hA with hA | hA
        · omega
        · exact h3 hA
  refine ⟨h.sorted, fun e he => ?_, h.addr_lt, h.addr_nodup, h.prepared,
    h.copies, ?_⟩
  · have h1 := h.committed e he
    have h2 := hle e he
    refine ⟨fun hA => ?_, by omega, h1.2.2⟩
    rcases hA with hA | hA
    · omega
    · exact h1.1 hA
  cases h.phase with
  | unused hp =>
      refine .unused ⟨hp.used, hp.list, hp.ended, fun e he x hx => ?_⟩
      rcases hx with rfl | hx
      · exact hle e he
      · exact hp.before e he x hx
  | inserting hp =>
      refine .inserting ⟨hp.used, hp.locked, ?_, hp.lt_inf, hp.bts, hp.cts, hp.pl,
        hp.list, hp.owner, hp.insert, hp.dv_bts, hp.dv_cts, hp.ended, ?_⟩
      · have := hp.known
        omega
      · intro e he
        refine ⟨(hp.before e he).1, fun x hx => ?_⟩
        rcases hx with rfl | hx
        · exact hle e he
        · exact (hp.before e he).2 x hx
  | live hp =>
      refine .live ⟨hp.used, hp.cts, hp.holds, hp.head, hp.list, hp.owned,
        fun dn hdn => hpast (hp.past dn hdn), hp.kept, hp.free, fun h0 => ?_⟩
      have := hp.lock h0
      omega
  | deleted hp =>
      refine .deleted ⟨hp.used, hp.locked, hp.cts_lt, hp.head,
        fun dn hdn => hpast (hp.past dn hdn), hp.cts_le, ?_⟩
      refine hp.kept.imp_right fun hk x hx => ?_
      rcases hx with rfl | hx
      · exact hle (r.obj.cts, none) (by rw [hp.head]; exact List.mem_cons_self ..)
      · exact hk x hx

/-- A transaction that leaves takes nothing along. -/
theorem RecInv.leave (h : RecInv k A top stored H r) (hA : ∀ x, A' x → A x) :
    RecInv k A' top stored H r := by
  refine ⟨h.sorted, fun e he => ?_, h.addr_lt, h.addr_nodup, h.prepared,
    h.copies, ?_⟩
  · have h1 := h.committed e he
    exact ⟨fun hx => h1.1 (hA _ hx), h1.2⟩
  have hpast : ∀ {b o dn}, Past k A top H b o dn → Past k A' top H b o dn :=
    fun hp => hp.mono hA (Nat.le_refl _) (Nat.le_refl _)
  cases h.phase with
  | unused hp =>
      exact .unused ⟨hp.used, hp.list, hp.ended,
        fun e he x hx => hp.before e he x (hA x hx)⟩
  | inserting hp =>
      exact .inserting ⟨hp.used, hp.locked, hp.known, hp.lt_inf, hp.bts, hp.cts,
        hp.pl, hp.list, hp.owner, hp.insert, hp.dv_bts, hp.dv_cts, hp.ended,
        fun e he => ⟨(hp.before e he).1, fun x hx => (hp.before e he).2 x (hA x hx)⟩⟩
  | live hp =>
      exact .live ⟨hp.used, hp.cts, hp.holds, hp.head, hp.list, hp.owned,
        fun dn hdn => hpast (hp.past dn hdn), hp.kept, hp.free, hp.lock⟩
  | deleted hp =>
      exact .deleted ⟨hp.used, hp.locked, hp.cts_lt, hp.head,
        fun dn hdn => hpast (hp.past dn hdn), hp.cts_le,
        hp.kept.imp_right fun hk x hx => hk x (hA x hx)⟩

/-! ## Locking the slot -/

/-- `T` has locked the slot of a live record and made no version yet. -/
def Locked (k : Scheme α κ) (A : Nat → Prop) (top : Nat)
    (stored : Nat → Except Err (List PItem)) (H : Hist κ) (T : Nat)
    (r : Record α) : Prop :=
  r.obj.txnId = T ∧ ∃ items H', Live k A top stored H r [] r.dirtyList items H'

/-- The lock of a slot. Through a reference to the slot it is granted only
to the last reader. -/
theorem RecInv.lock {T : Nat} (h : RecInv k A top stored H r) (hA : A T)
    (hT : T ≠ 0) (htop : T ≤ top) (hinf : T < INF) (href : RefOk T r .slot)
    (hrts : r.obj.rts ≤ T) (hfree : r.obj.txnId = 0) :
    RecInv k A top stored H { r with obj := { r.obj with txnId := T } } ∧
    Evolve A T H r H { r with obj := { r.obj with txnId := T } } ∧
    Locked k A top stored H T { r with obj := { r.obj with txnId := T } } := by
  obtain ⟨hu, hb0, ht, hbr, hc, _⟩ := href
  have hlive : Locked k A top stored H T
      { r with obj := { r.obj with txnId := T } } := by
    refine ⟨rfl, ?_⟩
    cases h.phase with
    | unused hp => rw [hp.used] at hu; cases hu
    | inserting hp => exact absurd hp.bts hb0
    | @live own rest items H₁ hp =>
        have hnil := hp.free hfree
        subst hnil
        refine ⟨items, H₁, hu, hp.cts, hp.holds, hp.head, rfl, .nothing, ?_,
          fun hne => absurd rfl hne, fun _ => rfl, fun _ => ?_⟩
        · intro dn hdn
          have hdn' : dn ∈ rest := by
            have hlist := hp.list
            rw [List.nil_append] at hlist
            exact hlist ▸ hdn
          have hpast := hp.past dn hdn'
          have hbd : r.bound ≤ T := by
            rw [Record.bound, if_pos hfree]
            exact hrts
          have hbd' : Record.bound { r with obj := { r.obj with txnId := T } } = T :=
            if_neg hT
          rw [hbd']
          refine (hpast.mono (fun _ h => h) (Nat.le_refl _) hbd).changeOwner ?_
          intro T' _ _ hina heq
          exact hina (heq ▸ hA)
        · have hne : r.obj.bts ≠ T := fun heq =>
            (h.committed _ hp.bts_mem).1 (heq ▸ hA)
          exact ⟨show r.obj.bts < T by omega, ht, htop, hinf⟩
    | deleted hp =>
        exfalso
        have h1 := hp.cts_lt
        rcases hc with hc | hc
        · omega
        · omega
  refine ⟨⟨h.sorted, h.committed, h.addr_lt, h.addr_nodup, h.prepared, h.copies, ?_⟩,
    ⟨?_, ?_, ?_⟩, hlive⟩
  · obtain ⟨_, items, H₁, hl⟩ := hlive
    exact .live hl
  · intro T' l hA' hr
    cases l with
    | slot =>
        obtain ⟨h1, h2, h3, h4, h5, _⟩ := hr
        exact ⟨h1, h2, h3, h4, h5, fun _ => show T' ≤ T by omega⟩
    | copy a => exact hr
  · intro T' e hA' hs
    have := hs.rts
    exact ⟨hs.latest, hs.content, hs.used, hs.rts, .inr (show T' ≤ T by omega)⟩
  · intro T' dn _ _ hf
    exact absurd (hf.locked.symm.trans hfree) hf.ne_zero

/-- Giving the lock back before any version was made. -/
theorem Locked.unlock {T : Nat} (h : RecInv k A top stored H r)
    (hl : Locked k A top stored H T r) (hT : T ≠ 0) :
    RecInv k A top stored H { r with obj := r.obj.unlock } ∧
    Evolve A T H r H { r with obj := r.obj.unlock } := by
  obtain ⟨hown, items, H₁, hl⟩ := hl
  have hlock := hl.lock (by rw [hown]; exact hT)
  constructor
  · refine ⟨h.sorted, h.committed, h.addr_lt, h.addr_nodup, h.prepared, h.copies, ?_⟩
    suffices hl' : Live k A top stored H { r with obj := r.obj.unlock } []
        r.dirtyList items H₁ from .live hl'
    refine ⟨hl.used, hl.cts, hl.holds, hl.head, rfl, .nothing, ?_,
      fun hne => absurd rfl hne, fun _ => rfl, fun h0 => absurd rfl h0⟩
    intro dn hdn
    have hb : r.bound ≤ Record.bound { r with obj := r.obj.unlock } := by
      have h1 : r.bound = T := by
        rw [Record.bound, if_neg (by rw [hown]; exact hT), hown]
      have h2 : Record.bound { r with obj := r.obj.unlock } = r.obj.rts := rfl
      omega
    refine ((hl.past dn hdn).mono (fun _ h => h) (Nat.le_refl _) hb).changeOwner ?_
    exact fun _ h0 _ _ => h0
  · refine ⟨fun T' l _ hr => ?_, fun T' e _ hs => ?_, fun T' dn _ hne hf => ?_⟩
    · cases l with
      | slot =>
          obtain ⟨h1, h2, h3, h4, h5, _⟩ := hr
          exact ⟨h1, h2, h3, h4, h5, fun h0 => absurd rfl h0⟩
      | copy a => exact hr
    · exact ⟨hs.latest, hs.content, hs.used, hs.rts, .inl rfl⟩
    · exact absurd (hf.locked.symm.trans hown) hne

/-! ## New versions -/

/-- A version in front of the dirty list. -/
def Record.push (r : Record α) (elem : Obj α) (props : List PItem)
    (update : Bool) : Record α :=
  { r with
    dirtyList := ⟨r.nextAddr, update, elem, props⟩ :: r.dirtyList
    nextAddr := r.nextAddr + 1 }

/-- On a prepared record, `add_dirty_version` only adds the version. -/
theorem Record.addDirtyVersion_eq {l : Loc} {elem : Obj α} {props : List PItem}
    {update : Bool} (hp : r.obj.prepared = true)
    (hc : ∀ dn ∈ r.dirtyList, dn.elem.prepared = true)
    (he : elem.prepared = true) :
    r.addDirtyVersion l elem props update = r.push elem props update := by
  have hmod : r.modifyAt l Obj.prepare = r := by
    cases l with
    | slot => rw [Record.modifyAt, Obj.prepare_eq hp]
    | copy a =>
        rw [Record.modifyAt]
        have hmap : r.dirtyList.map (fun dn => if dn.addr = a then
            { dn with elem := dn.elem.prepare } else dn) = r.dirtyList := by
          refine (List.map_congr_left fun dn hdn => ?_).trans (List.map_id' _)
          rw [Obj.prepare_eq (hc dn hdn)]
          split <;> rfl
        rw [hmap]
  rw [Record.addDirtyVersion, hmod, Obj.prepare_eq he]
  rfl

theorem Evolve.push {elem : Obj α} {props : List PItem} {update : Bool}
    (hlock : r.obj.txnId = W) :
    Evolve A W H r H (r.push elem props update) := by
  refine ⟨fun T l _ hr => ?_, fun T e _ hs => ?_, fun T dn _ hne hf => ?_⟩
  · cases l with
    | slot => exact hr
    | copy a =>
        obtain ⟨ha, hcopy⟩ := hr
        refine ⟨Nat.lt_succ_of_lt ha, List.forall_mem_cons.mpr ⟨?_, hcopy⟩⟩
        intro heq
        exact absurd heq (Nat.ne_of_gt ha)
  · exact ⟨hs.latest, hs.content, hs.used, hs.rts, hs.lock⟩
  · exact absurd (hf.locked.symm.trans hlock) hne

/-- The parts of the invariant that do not depend on the phase. -/
theorem RecInv.push {elem : Obj α} {props : List PItem} {update : Bool}
    (h : RecInv k A top stored H r) (he : elem.prepared = true)
    (hp : Phase k A top stored H (r.push elem props update)) :
    RecInv k A top stored H (r.push elem props update) := by
  refine ⟨h.sorted, h.committed, ?_, ?_, h.prepared,
    List.forall_mem_cons.mpr ⟨he, h.copies⟩, hp⟩
  · refine List.forall_mem_cons.mpr ⟨Nat.lt_succ_self _, fun dn hdn => ?_⟩
    exact Nat.lt_succ_of_lt (h.addr_lt dn hdn)
  · refine List.nodup_cons.mpr ⟨fun hm => ?_, h.addr_nodup⟩
    obtain ⟨dn, hdn, heq⟩ := List.mem_map.mp hm
    exact absurd heq (Nat.ne_of_lt (h.addr_lt dn hdn))

/-- The copy of the slot that an update or delete leaves for older
readers. -/
theorem Live.past_oldVersion {T : Nat} {own rest : List (DirtyObject α)}
    {items : List PItem} (hl : Live k A top stored H r own rest items H')
    (h : RecInv k A top stored H r) (hown : r.obj.txnId = T) (hT : T ≠ 0) :
    Past k A top H T T ⟨r.nextAddr, true, Record.oldVersion r.obj T, items⟩ := by
  have hlock := hl.lock (by rw [hown]; exact hT)
  refine .kept rfl (fun x hx _ => ?_) (Nat.le_refl _)
    (show T ≤ r.obj.rts by omega) (show T < INF by omega)
  have hs := h.sorted
  rw [hl.head] at hs ⊢
  exact latest_head hs hx

/-- The record after the copy for older readers was made: `T` still has no
version of its own. -/
theorem Locked.pushOld {T : Nat} {items : List PItem}
    (h : RecInv k A top stored H r) (hT : T ≠ 0) (hown : r.obj.txnId = T)
    (hl : Live k A top stored H r [] r.dirtyList items H') :
    RecInv k A top stored H (r.push (Record.oldVersion r.obj T) items true) ∧
    Live k A top stored H (r.push (Record.oldVersion r.obj T) items true) []
      (r.push (Record.oldVersion r.obj T) items true).dirtyList items H' := by
  have hb : r.bound = T := by
    rw [Record.bound, if_neg (by rw [hown]; exact hT), hown]
  have hl' : Live k A top stored H (r.push (Record.oldVersion r.obj T) items true)
      [] (r.push (Record.oldVersion r.obj T) items true).dirtyList items H' := by
    refine ⟨hl.used, hl.cts, hl.holds, hl.head, rfl, .nothing, ?_,
      fun hne => absurd rfl hne, fun _ => rfl, hl.lock⟩
    refine List.forall_mem_cons.mpr ⟨?_, hl.past⟩
    have hpast := hl.past_oldVersion h hown hT
    show Past k A top H r.bound r.obj.txnId _
    rw [hb, hown]
    exact hpast
  exact ⟨h.push (h.prepared hl.used) (.live hl'), hl'⟩

/-- A version of `T` on top of the copy it has kept. -/
theorem Live.pushOwn {T : Nat} {elem : Obj α} {props items : List PItem}
    {own rest : List (DirtyObject α)} (h : RecInv k A top stored H r)
    (hl : Live k A top stored H r own rest items H') (hown : r.obj.txnId = T)
    (hT : T ≠ 0)
    (hkept : ∃ o rest', rest = o :: rest' ∧ o.elem.txnId = 0 ∧ o.elem.cts = T ∧
      o.elem.bts = r.obj.bts)
    (he : elem.prepared = true)
    (howned : Own T (⟨r.nextAddr, true, elem, props⟩ :: own)) :
    RecInv k A top stored H (r.push elem props true) := by
  refine h.push he ?_
  suffices hl' : Live k A top stored H (r.push elem props true)
      (⟨r.nextAddr, true, elem, props⟩ :: own) rest items H' from .live hl'
  refine ⟨hl.used, hl.cts, hl.holds, hl.head, ?_, ?_, hl.past, fun _ => ?_,
    fun h0 => ?_, hl.lock⟩
  · show _ :: r.dirtyList = _
    rw [hl.list]
    rfl
  · show Own r.obj.txnId _
    rw [hown]
    exact howned
  · obtain ⟨o, rest', h1, h2, h3, h4⟩ := hkept
    exact ⟨o, rest', h1, h2, h3.trans hown.symm, h4⟩
  · exact absurd (hown.symm.trans h0) hT

/-- An update: the copy for older readers and the new version. -/
theorem Locked.pushUpdate {T : Nat} {items ps : List PItem} {fd : α → α}
    (h : RecInv k A top stored H r) (hT : T ≠ 0) (hown : r.obj.txnId = T)
    (hl : Live k A top stored H r [] r.dirtyList items H') :
    RecInv k A top stored H ((r.push (Record.oldVersion r.obj T) items true).push
      (Record.newVersion r.obj T fd) ps true) := by
  obtain ⟨h', hl'⟩ := Locked.pushOld h hT hown hl
  refine Live.pushOwn h' hl' hown hT ⟨_, _, rfl, rfl, rfl, rfl⟩ (h.prepared hl.used) ?_
  exact .updated ⟨hown, rfl, rfl, rfl⟩

/-- A delete: the copy for older readers and the tombstone. -/
theorem Locked.pushDelete {T : Nat} {items : List PItem}
    (h : RecInv k A top stored H r) (hT : T ≠ 0) (hown : r.obj.txnId = T)
    (hl : Live k A top stored H r [] r.dirtyList items H') :
    RecInv k A top stored H ((r.push (Record.oldVersion r.obj T) items true).push
      (Record.deletedVersion r.obj T) [] true) := by
  obtain ⟨h', hl'⟩ := Locked.pushOld h hT hown hl
  refine Live.pushOwn h' hl' hown hT ⟨_, _, rfl, rfl, rfl, rfl⟩ (h.prepared hl.used) ?_
  exact .deleted ⟨hown, rfl, rfl, rfl⟩

/-- A delete of what `T` itself has updated: the tombstone goes on top. -/
theorem Live.pushTomb {T : Nat} {n : DirtyObject α} {items : List PItem}
    {rest : List (DirtyObject α)} (h : RecInv k A top stored H r) (hT : T ≠ 0)
    (hown : r.obj.txnId = T) (hn : IsNew T n)
    (hl : Live k A top stored H r [n] rest items H') :
    RecInv k A top stored H (r.push (Record.deletedVersion n.elem T) [] true) := by
  have hkept := hl.kept (by simp)
  rw [hown] at hkept
  refine Live.pushOwn h hl hown hT hkept (h.copies n ?_) ?_
  · rw [hl.list]
    simp
  · exact .updatedDeleted ⟨hn.locked, rfl, rfl, rfl⟩ hn

/-! ## Changing the front version -/

/-- The same version with other data. -/
structure SameStamp (d d' : DirtyObject α) : Prop where
  addr : d'.addr = d.addr
  update : d'.updateMode = d.updateMode
  txnId : d'.elem.txnId = d.elem.txnId
  bts : d'.elem.bts = d.elem.bts
  cts : d'.elem.cts = d.elem.cts
  rts : d'.elem.rts = d.elem.rts
  prepared : d'.elem.prepared = d.elem.prepared

theorem SameStamp.isNew {T : Nat} {d d' : DirtyObject α} (hs : SameStamp d d')
    (h : IsNew T d) : IsNew T d' :=
  ⟨hs.txnId.trans h.locked, hs.update.trans h.update, hs.bts.trans h.bts,
    hs.cts.trans h.cts⟩

theorem SameStamp.isTomb {T : Nat} {d d' : DirtyObject α} (hs : SameStamp d d')
    (h : IsTomb T d) : IsTomb T d' :=
  ⟨hs.txnId.trans h.locked, hs.update.trans h.update, hs.bts.trans h.bts,
    hs.cts.trans h.cts⟩

theorem SameStamp.own {T : Nat} {d d' : DirtyObject α}
    {own : List (DirtyObject α)} (hs : SameStamp d d') (h : Own T (d :: own)) :
    Own T (d' :: own) := by
  cases h with
  | updated h => exact .updated (hs.isNew h)
  | deleted h => exact .deleted (hs.isTomb h)
  | updatedDeleted hd hn => exact .updatedDeleted (hs.isTomb hd) hn

/-- `T` changes its front version. -/
theorem RecInv.setFront {T : Nat} {d d' : DirtyObject α}
    {tl : List (DirtyObject α)} (h : RecInv k A top stored H r)
    (hf : Front T d r) (hlist : r.dirtyList = d :: tl) (hs : SameStamp d d') :
    RecInv k A top stored H { r with dirtyList := d' :: tl } ∧
    Evolve A T H r H { r with dirtyList := d' :: tl } := by
  constructor
  · have haddr := h.addr_lt
    have hnd := h.addr_nodup
    have hcopies := h.copies
    rw [hlist] at haddr hnd hcopies
    refine ⟨h.sorted, h.committed, ?_, ?_, h.prepared, ?_, ?_⟩
    · refine List.forall_mem_cons.mpr ⟨?_, fun dn hdn => haddr dn (by simp [hdn])⟩
      rw [hs.addr]
      exact haddr d (by simp)
    · rw [List.map_cons] at hnd ⊢
      rw [hs.addr]
      exact hnd
    · refine List.forall_mem_cons.mpr ⟨?_, fun dn hdn => hcopies dn (by simp [hdn])⟩
      rw [hs.prepared]
      exact hcopies d (by simp)
    cases h.phase with
    | unused hp => have := hf.used; rw [hp.used] at this; cases this
    | @inserting dv hp =>
        have hl := hp.list
        rw [hlist, List.cons.injEq] at hl
        obtain ⟨rfl, rfl⟩ := hl
        exact .inserting ⟨hp.used, hp.locked, hp.known, hp.lt_inf, hp.bts, hp.cts,
          hp.pl, rfl, hs.txnId.trans hp.owner, hs.update.trans hp.insert,
          hs.bts.trans hp.dv_bts, hs.cts.trans hp.dv_cts, hp.ended, hp.before⟩
    | @live own rest items H₁ hp =>
        have hl := hp.list
        rw [hlist] at hl
        cases own with
        | nil =>
            exfalso
            have hd := hp.past d (by rw [List.nil_append] at hl; rw [← hl]; simp)
            exact hd.ne_owner (by rw [hf.locked]; exact hf.ne_zero)
              (hf.owner.trans hf.locked.symm)
        | cons o own' =>
            rw [List.cons_append, List.cons.injEq] at hl
            obtain ⟨rfl, rfl⟩ := hl
            suffices hl' : Live k A top stored H
                { r with dirtyList := d' :: (own' ++ rest) } (d' :: own') rest items
                H₁ from .live hl'
            exact ⟨hp.used, hp.cts, hp.holds, hp.head, rfl, hs.own hp.owned, hp.past,
              fun _ => hp.kept (by simp), fun h0 => absurd (hp.free h0) (by simp),
              hp.lock⟩
    | deleted hp => exact absurd (hf.locked.symm.trans hp.locked) hf.ne_zero
  · refine ⟨fun T' l _ hr => ?_, fun T' e _ hs' => ?_, fun T' dn _ hne hf' => ?_⟩
    · cases l with
      | slot => exact hr
      | copy a =>
          obtain ⟨ha, hcopy⟩ := hr
          rw [hlist] at hcopy
          obtain ⟨h1, h2⟩ := List.forall_mem_cons.mp hcopy
          refine ⟨ha, List.forall_mem_cons.mpr ⟨?_, h2⟩⟩
          rw [hs.addr, hs.txnId, hs.rts]
          exact h1
    · exact ⟨hs'.latest, hs'.content, hs'.used, hs'.rts, hs'.lock⟩
    · exact absurd (hf'.locked.symm.trans hf.locked) hne

/-! ## Insert -/

/-- A slot that is not in use takes a new record. -/
theorem RecInv.insert {T : Nat} {d : α} {props : List PItem}
    (h : RecInv k A top stored H r) (hu : r.used = false) (hA : A T)
    (hT : T ≠ 0) (htop : T ≤ top) (hinf : T < INF) (hpl : k.pl d = UNKNOWN)
    {o : Obj α} (ho : o = ⟨T, 0, INF, 0, true, false, d⟩)
    {dv : DirtyObject α}
    (hdv : dv = ⟨r.nextAddr, false, ⟨T, 0, INF, 0, true, true, d⟩, props⟩) :
    RecInv k A top stored H ⟨true, o, [dv], r.nextAddr + 1⟩ ∧
    Evolve A T H r H ⟨true, o, [dv], r.nextAddr + 1⟩ := by
  subst ho hdv
  have hun : Unused A H r := by
    cases h.phase with
    | unused hp => exact hp
    | inserting hp => have := hp.used; rw [hu] at this; cases this
    | live hp => have := hp.used; rw [hu] at this; cases this
    | deleted hp => have := hp.used; rw [hu] at this; cases this
  constructor
  · refine ⟨h.sorted, h.committed, ?_, ?_, fun _ => rfl, ?_, ?_⟩
    · intro dn hdn
      rw [List.mem_singleton.mp hdn]
      exact Nat.lt_succ_self _
    · exact List.pairwise_singleton _ _
    · intro dn hdn
      rw [List.mem_singleton.mp hdn]
    · exact .inserting ⟨rfl, hT, htop, hinf, rfl, rfl, hpl, rfl, rfl, rfl, rfl, rfl,
        hun.ended, fun e he => ⟨hun.before e he T hA, hun.before e he⟩⟩
  · refine ⟨fun T' l _ hr => ?_, fun T' e _ hs => ?_, fun T' dn _ _ hf => ?_⟩
    · cases l with
      | slot => have := hr.1; rw [hu] at this; cases this
      | copy a =>
          obtain ⟨ha, _⟩ := hr
          refine ⟨Nat.lt_succ_of_lt ha, fun dn hdn heq => ?_⟩
          rw [List.mem_singleton.mp hdn] at heq
          exact absurd heq (Nat.ne_of_gt ha)
    · have := hs.used; rw [hu] at this; cases this
    · have := hf.used; rw [hu] at this; cases this

end Transitions

end Poseidon
