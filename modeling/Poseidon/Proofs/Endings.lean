import Poseidon.Proofs.Transitions

/-!
# What the end of a transaction does to a record

A commit turns the versions of its transaction into the committed one: the
slot takes the new data and the history grows by an entry, or the slot ends.
An abort drops them. Both leave behind only copies for older readers and
dead tombstones, and the garbage collection may drop any of these that no
active transaction can read. Here `A` are the transactions that are still
active, so the ending transaction is none of them.
-/

namespace Poseidon

open History

variable {α κ : Type} {k : Scheme α κ} {A : Nat → Prop} {top T oldest : Nat}
  {stored stored' : Nat → Except Err (List PItem)} {H H' : Hist κ}
  {r r' : Record α}

/-! ## Who can read -/

/-- `R` can read the record. -/
def Readable (R : Nat) (r : Record α) : Prop :=
  r.used = true ∧ ∃ l, r.getValidVersion R = .ok l

/-- What `R` finds, seen from the record: its own version, or the slot, or a
copy that nobody has locked. -/
inductive Finds (R : Nat) (r : Record α) : Prop
  | own {dn : DirtyObject α} (hf : Front R dn r) (hcts : dn.elem.cts = INF)
  | slot (h0 : r.obj.txnId = 0) (hb : r.obj.bts ≤ R) (hc : R < r.obj.cts)
  | copy {dn : DirtyObject α} (hno : ∀ d ∈ r.dirtyList, d.elem.txnId ≠ R)
      (hdn : dn ∈ r.dirtyList) (h0 : dn.elem.txnId = 0) (hb : dn.elem.bts ≤ R)
      (hc : R < dn.elem.cts)

theorem findValidLoop_of_mem {R : Nat} {dn : DirtyObject α} (h0 : dn.elem.txnId = 0)
    (hv : dn.elem.isValidFor R = true) :
    ∀ (l : List (DirtyObject α)) (b : Bool), (∀ d ∈ l, d.elem.txnId ≠ R) → dn ∈ l →
      ∃ d, Record.findValidLoop R b l = .ok d := by
  intro l
  induction l with
  | nil => intro b _ hm; cases hm
  | cons d l ih =>
      intro b hno hm
      have hd := hno d (List.mem_cons_self ..)
      have hrest := fun e he => hno e (List.mem_cons_of_mem _ he)
      simp only [Record.findValidLoop]
      split
      · split
        · exact ⟨d, rfl⟩
        · next hnv =>
          have hm' : dn ∈ l := by
            rcases List.mem_cons.mp hm with rfl | hm
            · exact absurd hv hnv
            · exact hm
          rw [if_neg]
          · exact ih true hrest hm'
          · simp [Obj.isLockedBy, hd]
      · next hnl =>
        have hm' : dn ∈ l := by
          rcases List.mem_cons.mp hm with rfl | hm
          · exact absurd (Obj.mayRead_iff.mpr (.inl h0)) hnl
          · exact hm
        exact ih b hrest hm'

/-- A transaction finds its front version, unless it is a tombstone. -/
theorem RecInv.findValid_front {R : Nat} {dn : DirtyObject α}
    (h : RecInv k A top stored H r) (hf : Front R dn r) (hcts : dn.elem.cts = INF)
    (hinf : R < INF) : r.findValidVersion R = .ok dn := by
  have hmem := List.mem_of_mem_head? hf.front
  have hbts : dn.elem.bts ≤ R := by
    rcases h.front_cases hf with hp | ⟨own, rest, items, H₁, hl⟩
    · rw [hp.dv_bts]
      exact Nat.zero_le R
    · have howned := hl.owned
      rw [hf.locked] at howned
      cases howned with
      | updated hn => exact Nat.le_of_eq hn.bts
      | deleted hd => exact Nat.le_of_eq hd.bts
      | updatedDeleted hd hn => exact Nat.le_of_eq hd.bts
  have hv : dn.elem.isValidFor R = true := by
    rw [Obj.isValidFor_iff (h.copies dn hmem), hcts]
    exact ⟨hbts, hinf⟩
  obtain ⟨tl, htl⟩ := hf.list
  rw [Record.findValidVersion, htl, Record.findValidLoop,
    if_pos (Obj.mayRead_iff.mpr (.inr hf.owner)), if_pos hv]

theorem RecInv.readable_iff {R : Nat} (h : RecInv k A top stored H r) (hA : A R)
    (hR : R ≠ 0) (hinf : R < INF) : Readable R r ↔ r.used = true ∧ Finds R r := by
  constructor
  · rintro ⟨hu, l, hl⟩
    refine ⟨hu, ?_⟩
    rcases h.read hu hA hR hl with ⟨dn, hf, _, hcts⟩ | ⟨o, c, hrc⟩
    · exact .own hf hcts
    · cases l with
      | slot => exact .slot (hrc.slot rfl).1 (hrc.slot rfl).2.1 (hrc.slot rfl).2.2
      | copy a =>
          obtain ⟨dn, hdn, _, ho, _⟩ := hrc.inCopy a rfl
          rw [← ho] at hrc
          refine .copy (fun d hd heq => ?_) hdn hrc.free hrc.valid.1 hrc.valid.2
          obtain ⟨d', hf⟩ := h.front_of_mem hA hR hd heq
          exact hrc.notOwn d' hf
  · rintro ⟨hu, hfind⟩
    refine ⟨hu, ?_⟩
    cases hfind with
    | @own dn hf hcts =>
        have hne : ¬ (r.obj.txnId = 0 ∧ r.obj.isValidFor R = true) :=
          fun hs => hR (hf.locked.symm.trans hs.1)
        exact ⟨.copy dn.addr, (Record.getValidVersion_ok_iff hR).mpr
          (.inr ⟨hne, dn, h.findValid_front hf hcts hinf, rfl⟩)⟩
    | slot h0 hb hc =>
        have hv := (Obj.isValidFor_iff (h.prepared hu)).mpr ⟨hb, hc⟩
        exact ⟨.slot, (Record.getValidVersion_ok_iff hR).mpr (.inl ⟨h0, hv, rfl⟩)⟩
    | @copy dn hno hdn h0 hb hc =>
        have hv := (Obj.isValidFor_iff (h.copies dn hdn)).mpr ⟨hb, hc⟩
        obtain ⟨d, hd⟩ := findValidLoop_of_mem h0 hv r.dirtyList false hno hdn
        by_cases hs : r.obj.txnId = 0 ∧ r.obj.isValidFor R = true
        · exact ⟨.slot, (Record.getValidVersion_ok_iff hR).mpr (.inl ⟨hs.1, hs.2, rfl⟩)⟩
        · exact ⟨.copy d.addr,
            (Record.getValidVersion_ok_iff hR).mpr (.inr ⟨hs, d, hd, rfl⟩)⟩

/-- What the end of `W` keeps for the transactions that are still active:
what `Evolve` says, and who could read before can read after. -/
structure Ends (A : Nat → Prop) (W : Nat) (H : Hist κ) (r : Record α) (H' : Hist κ)
    (r' : Record α) : Prop extends Evolve A W H r H' r' where
  reads : ∀ R, A R → R ≠ 0 → R < INF → Readable R r → Readable R r'

theorem Ends.refl (A : Nat → Prop) (W : Nat) (H : Hist κ) (r : Record α) :
    Ends A W H r H r := ⟨Evolve.refl .., fun _ _ _ _ h => h⟩

theorem Ends.trans {W : Nat} {H'' : Hist κ} {r'' : Record α} (h : Ends A W H r H' r')
    (h' : Ends A W H' r' H'' r'') : Ends A W H r H'' r'' :=
  ⟨h.toEvolve.trans h'.toEvolve,
    fun R hA hR hi hr => h'.reads R hA hR hi (h.reads R hA hR hi hr)⟩

theorem Ends.of_finds {W : Nat} (hev : Evolve A W H r H' r')
    (h : RecInv k A top stored H r) (h' : RecInv k A top stored' H' r')
    (hfind : ∀ R, A R → R ≠ 0 → r.used = true → Finds R r →
      r'.used = true ∧ Finds R r') : Ends A W H r H' r' := by
  refine ⟨hev, fun R hA hR hi hr => ?_⟩
  obtain ⟨hu, hf⟩ := (h.readable_iff hA hR hi).mp hr
  exact (h'.readable_iff hA hR hi).mpr (hfind R hA hR hu hf)

theorem Touched.ends {W : Nat} (ht : Touched k r r') (h : RecInv k A top stored H r) :
    Ends A W H r H r' := by
  refine Ends.of_finds ht.evolve h (h.touch ht) fun R _ _ hu hf => ⟨ht.used.trans hu, ?_⟩
  cases hf with
  | own hf hcts =>
      refine .own ⟨hf.ne_zero, ht.used.trans hf.used, ht.txnId.trans hf.locked, ?_,
        hf.owner⟩ hcts
      rw [ht.list]
      exact hf.front
  | slot h0 hb hc =>
      refine .slot (ht.txnId.trans h0) ?_ ?_
      · rw [ht.bts]
        exact hb
      · rw [ht.cts]
        exact hc
  | copy hno hdn h0 hb hc =>
      rw [← ht.list] at hno hdn
      exact .copy hno hdn h0 hb hc

/-- A transaction cannot have read a record that ended before it began. -/
theorem Seen.not_ended {R : Nat} {e : Nat × Option (Content κ)}
    (hs : Seen R e H r) (hsort : Sorted H) (hend : ∀ e ∈ H.head?, e.2 = none)
    (hbefore : ∀ e ∈ H, e.1 < R) : False := by
  obtain ⟨hmem, _, hmax⟩ := hs.latest
  cases H with
  | nil => cases hmem
  | cons a H =>
      have ha := hmax a (List.mem_cons_self ..)
        (Nat.le_of_lt (hbefore a (List.mem_cons_self ..)))
      have heq : e = a := by
        rcases List.mem_cons.mp hmem with heq | hin
        · exact heq
        · have := hsort.lt_head e hin
          omega
      rw [heq] at hs
      exact hs.content (hend a rfl)

/-- What is dropped from an unlocked record was of no use to anybody: the
references still resolve to what they did or to nothing. -/
theorem Evolve.drop {l : List (DirtyObject α)}
    (hsub : ∀ dn ∈ l, dn ∈ r.dirtyList) (h0 : r.obj.txnId = 0) :
    Evolve A T H r H { r with dirtyList := l } := by
  refine ⟨fun R loc _ hr => ?_, fun R e _ hs => ?_, fun R dn _ _ hf => ?_⟩
  · cases loc with
    | slot => exact hr
    | copy a => exact ⟨hr.1, fun dn hdn => hr.2 dn (hsub dn hdn)⟩
  · exact ⟨hs.latest, hs.content, hs.used, hs.rts, hs.lock⟩
  · exact absurd (hf.locked.symm.trans h0) hf.ne_zero

/-- The parts of the invariant that do not depend on the phase, for a record
that keeps some of its dirty versions. -/
theorem RecInv.sublist (h : RecInv k A top stored H r)
    (hsub : r'.dirtyList.Sublist r.dirtyList) (haddr : r'.nextAddr = r.nextAddr)
    (hprep : r'.used = true → r'.obj.prepared = true) (hsort : Sorted H')
    (hcom : ∀ e ∈ H', ¬ A e.1 ∧ e.1 ≤ top ∧ e.1 ≠ 0)
    (hp : Phase k A top stored' H' r') : RecInv k A top stored' H' r' := by
  refine ⟨hsort, hcom, fun dn hdn => ?_, ?_, hprep, fun dn hdn => ?_, hp⟩
  · rw [haddr]
    exact h.addr_lt dn (hsub.subset hdn)
  · exact (hsub.map DirtyObject.addr).nodup h.addr_nodup
  · exact h.copies dn (hsub.subset hdn)

/-! ## Commit -/

/-- The slot after a commit of `T`: free, and read at least by `T`. -/
structure Ended (T : Nat) (r r' : Record α) : Prop where
  used : r'.used = true
  free : r'.obj.txnId = 0
  rts : r'.obj.rts = r.obj.rts
  nextAddr : r'.nextAddr = r.nextAddr
  prepared : r'.obj.prepared = true

/-- What stands behind the versions of `T` is kept by its commit. -/
theorem Live.past_commit {own rest l : List (DirtyObject α)} {items : List PItem}
    (hl : Live k A top stored H r own rest items H') (hown : r.obj.txnId = T)
    (hT : T ≠ 0) (he : Ended T r r') (c : Option (Content κ))
    (hsub : ∀ dn ∈ l, dn ∈ rest) :
    ∀ dn ∈ l, Past k A top ((T, c) :: H) r'.bound r'.obj.txnId dn := by
  intro dn hdn
  have hb : r.bound = T := by
    rw [Record.bound, if_neg (by rw [hown]; exact hT), hown]
  have hb' : r'.bound = r.obj.rts := by
    rw [Record.bound, if_pos he.free, he.rts]
  have hlock := hl.lock (by rw [hown]; exact hT)
  have hpast := hl.past dn (hsub dn hdn)
  rw [hb] at hpast
  rw [hb', he.free]
  have hcommit := hpast.commit (e := (T, c)) (Nat.le_refl _)
  exact (hcommit.mono (fun _ h => h) (Nat.le_refl _) (by omega)).changeOwner
    fun _ h0 _ _ => h0

/-- A transaction that could read before the lock of `T` is older. -/
theorem Seen.commit {R : Nat} {e : Nat × Option (Content κ)} (hs : Seen R e H r)
    (hown : r.obj.txnId = T) (hT : T ≠ 0) (hne : R ≠ T) (he : Ended T r r')
    (c : Option (Content κ)) : Seen R e ((T, c) :: H) r' := by
  have hlt : R < T := by
    rcases hs.lock with h0 | hle
    · exact absurd (hown.symm.trans h0) hT
    · omega
  refine ⟨(latest_cons_iff hlt).mpr hs.latest, hs.content, he.used, ?_, .inl he.free⟩
  rw [he.rts]
  exact hs.rts

theorem Live.evolve_commit {own rest : List (DirtyObject α)} {items : List PItem}
    (hl : Live k A top stored H r own rest items H') (hown : r.obj.txnId = T)
    (hT : T ≠ 0) (hina : ¬ A T) (he : Ended T r r') (c : Option (Content κ))
    (hsub : ∀ dn ∈ r'.dirtyList, dn ∈ rest) (hbts : r'.obj.bts ≠ 0)
    (hbts' : r'.obj.bts ≤ r.obj.rts) (hcts : r'.obj.cts = INF ∨ r'.obj.cts = T) :
    Evolve A T H r ((T, c) :: H) r' := by
  have hlock := hl.lock (by rw [hown]; exact hT)
  refine ⟨fun R loc hR hr => ?_, fun R e hR hs => ?_, fun R dn hR _ hf => ?_⟩
  · cases loc with
    | slot =>
        obtain ⟨_, _, hrts, _, _, hle⟩ := hr
        have hlt : R < T := by
          have hle' := hle (by rw [hown]; exact hT)
          have hne : R ≠ T := fun heq => hina (heq ▸ hR)
          omega
        refine ⟨he.used, hbts, by rw [he.rts]; exact hrts, ?_, ?_,
          fun h0 => absurd he.free h0⟩
        · rw [he.rts]
          exact hbts'
        · rw [he.rts]
          rcases hcts with hc | hc
          · exact .inl hc
          · exact .inr ⟨by omega, by omega⟩
    | copy a =>
        refine ⟨by rw [he.nextAddr]; exact hr.1, fun dn hdn => hr.2 dn ?_⟩
        rw [hl.list]
        exact List.mem_append_right _ (hsub dn hdn)
  · exact hs.commit hown hT (fun heq => hina (heq ▸ hR)) he c
  · exact absurd (hf.locked.symm.trans hown ▸ hR) hina

theorem RecInv.sorted_commit {own rest : List (DirtyObject α)} {items : List PItem}
    (h : RecInv k A top stored H r)
    (hl : Live k A top stored H r own rest items H') (hown : r.obj.txnId = T)
    (hT : T ≠ 0) (hina : ¬ A T) (c : Option (Content κ)) :
    Sorted ((T, c) :: H) ∧
      ∀ e ∈ (T, c) :: H, ¬ A e.1 ∧ e.1 ≤ top ∧ e.1 ≠ 0 := by
  have hlock := hl.lock (by rw [hown]; exact hT)
  refine ⟨h.sorted.cons fun e he => ?_, ?_⟩
  · have hs := h.sorted
    rw [hl.head] at he hs
    rcases List.mem_cons.mp he with rfl | he
    · show r.obj.bts < T
      omega
    · have := hs.lt_head e he
      show e.1 < T
      omega
  · refine List.forall_mem_cons.mpr ⟨⟨hina, ?_, hT⟩, h.committed⟩
    show T ≤ top
    omega

/-- While `T` works on a record, the others read the copies behind its
versions. -/
theorem Live.finds_copy {R : Nat} {own rest : List (DirtyObject α)} {items : List PItem}
    (hl : Live k A top stored H r own rest items H') (hown : r.obj.txnId = T)
    (hT : T ≠ 0) (hne : R ≠ T) (hf : Finds R r) :
    ∃ dn ∈ rest, dn.elem.txnId = 0 ∧ dn.elem.bts ≤ R ∧ R < dn.elem.cts ∧
      ∀ d ∈ rest, d.elem.txnId ≠ R := by
  cases hf with
  | own hf _ => exact absurd (hf.locked.symm.trans hown) hne
  | slot h0 _ _ => exact absurd (hown.symm.trans h0) hT
  | @copy dn hno hdn h0 hb hc =>
      rw [hl.list] at hno hdn
      refine ⟨dn, ?_, h0, hb, hc, fun d hd => hno d (List.mem_append_right _ hd)⟩
      rcases List.mem_append.mp hdn with hdn | hdn
      · have := hl.owned.locked dn hdn
        exact absurd (hown.symm.trans (this.symm.trans h0)) hT
      · exact hdn

theorem Live.finds_commit {own rest : List (DirtyObject α)} {items : List PItem}
    (hl : Live k A top stored H r own rest items H') (hown : r.obj.txnId = T)
    (hT : T ≠ 0) (hina : ¬ A T) (he : Ended T r r') (hold : ∀ x, A x → oldest ≤ x)
    (hlist : r'.dirtyList = rest.filter fun dn => !(dn.elem.cts ≤ oldest)) :
    ∀ R, A R → R ≠ 0 → r.used = true → Finds R r → r'.used = true ∧ Finds R r' := by
  intro R hA _ _ hf
  obtain ⟨dn, hdn, h0, hb, hc, hno⟩ :=
    hl.finds_copy hown hT (fun heq => hina (heq ▸ hA)) hf
  have hge := hold R hA
  refine ⟨he.used, .copy (fun d hd => ?_) ?_ h0 hb hc⟩
  · rw [hlist] at hd
    exact hno d (List.mem_filter.mp hd).1
  · rw [hlist]
    refine List.mem_filter.mpr ⟨hdn, ?_⟩
    rw [decide_eq_false (by omega)]
    rfl

/-- The commit of an update: the slot takes the data of the new version and
the table its properties. -/
theorem RecInv.commitUpdate {n : DirtyObject α} {rest : List (DirtyObject α)}
    {items items' : List PItem} (h : RecInv k A top stored H r)
    (hl : Live k A top stored H r [n] rest items H') (hown : r.obj.txnId = T)
    (hT : T ≠ 0) (hina : ¬ A T) (he : Ended T r r') (hold : ∀ x, A x → oldest ≤ x)
    (hbts : r'.obj.bts = T) (hcts : r'.obj.cts = INF)
    (hlist : r'.dirtyList = rest.filter fun dn => !(dn.elem.cts ≤ oldest))
    (hst : stored' (k.pl r'.obj.data) = .ok items') :
    RecInv k A top stored' ((T, some (k.img r'.obj.data, items')) :: H) r' ∧
    Ends A T H r ((T, some (k.img r'.obj.data, items')) :: H) r' := by
  have hlock := hl.lock (by rw [hown]; exact hT)
  have hsub : r'.dirtyList.Sublist rest := by
    rw [hlist]
    exact List.filter_sublist
  obtain ⟨hsort, hcom⟩ := h.sorted_commit hl hown hT hina
    (some (k.img r'.obj.data, items'))
  have hsub' : r'.dirtyList.Sublist r.dirtyList := by
    rw [hl.list]
    exact hsub.trans (List.sublist_append_right ..)
  have hrec : RecInv k A top stored' ((T, some (k.img r'.obj.data, items')) :: H) r' := by
    refine h.sublist hsub' he.nextAddr (fun _ => he.prepared) hsort hcom ?_
    suffices hl' : Live k A top stored' ((T, some (k.img r'.obj.data, items')) :: H)
        r' [] r'.dirtyList items' H from .live hl'
    refine ⟨he.used, hcts, hst, by rw [hbts], rfl, .nothing, ?_,
      fun hne => absurd rfl hne, fun _ => rfl, fun h0 => absurd he.free h0⟩
    exact hl.past_commit hown hT he _ fun dn hdn => hsub.subset hdn
  refine ⟨hrec, Ends.of_finds ?_ h hrec (hl.finds_commit hown hT hina he hold hlist)⟩
  refine hl.evolve_commit hown hT hina he _ (fun dn hdn => hsub.subset hdn)
    ?_ ?_ (.inl hcts)
  · rw [hbts]
    exact hT
  · rw [hbts]
    omega

/-- The commit of a delete: the slot ends, and the copy of its version stays
until nobody can read it any more. -/
theorem RecInv.commitDelete {own rest : List (DirtyObject α)} {items : List PItem}
    (h : RecInv k A top stored H r)
    (hl : Live k A top stored H r own rest items H') (hne : own ≠ [])
    (hown : r.obj.txnId = T) (hT : T ≠ 0) (hina : ¬ A T) (he : Ended T r r')
    (hold : ∀ x, A x → oldest ≤ x) (hbts : r'.obj.bts = r.obj.bts)
    (hcts : r'.obj.cts = T) (himg : k.img r'.obj.data = k.img r.obj.data)
    (hlist : r'.dirtyList = rest.filter fun dn => !(dn.elem.cts ≤ oldest)) :
    RecInv k A top stored' ((T, none) :: H) r' ∧
    Ends A T H r ((T, none) :: H) r' := by
  have hlock := hl.lock (by rw [hown]; exact hT)
  have hsub : r'.dirtyList.Sublist rest := by
    rw [hlist]
    exact List.filter_sublist
  obtain ⟨hsort, hcom⟩ := h.sorted_commit hl hown hT hina none
  have hsub' : r'.dirtyList.Sublist r.dirtyList := by
    rw [hl.list]
    exact hsub.trans (List.sublist_append_right ..)
  have hrec : RecInv k A top stored' ((T, none) :: H) r' := by
    refine h.sublist hsub' he.nextAddr (fun _ => he.prepared) hsort hcom ?_
    suffices hd : Deleted k A top ((T, none) :: H) r' items H' from .deleted hd
    refine ⟨he.used, he.free, by omega, ?_, ?_, ?_, ?_⟩
    · rw [hcts, hbts, himg, hl.head]
    · exact hl.past_commit hown hT he none fun dn hdn => hsub.subset hdn
    · rw [hcts, he.rts]
      omega
    · -- the copy that the delete has kept ends with `T`
      obtain ⟨o, rest', hrest, _, ho, _⟩ := hl.kept hne
      rw [hown] at ho
      by_cases hge : T ≤ oldest
      · right
        intro x hx
        have hle := hold x hx
        have hneq : x ≠ T := fun heq => hina (heq ▸ hx)
        omega
      · left
        refine ⟨o, ?_, by omega⟩
        rw [hlist, hrest]
        refine List.mem_filter.mpr ⟨List.mem_cons_self .., ?_⟩
        simp only [ho, decide_eq_false hge, Bool.not_false]
  refine ⟨hrec, Ends.of_finds ?_ h hrec (hl.finds_commit hown hT hina he hold hlist)⟩
  refine hl.evolve_commit hown hT hina he _ (fun dn hdn => hsub.subset hdn)
    ?_ ?_ (.inr hcts)
  · rw [hbts]
    exact hl.bts_ne_zero h
  · rw [hbts]
    omega

/-- Nobody else can read a record that `T` has inserted. -/
theorem Inserting.no_finds {R : Nat} {dv : DirtyObject α}
    (hp : Inserting k A top H r dv) (hown : r.obj.txnId = T) (hne : R ≠ T) :
    ¬ Finds R r := by
  intro hf
  cases hf with
  | own hf _ => exact hne (hf.locked.symm.trans hown)
  | slot h0 _ _ => exact hp.locked h0
  | copy _ hdn h0 _ _ =>
      rw [hp.list, List.mem_singleton] at hdn
      rw [hdn, hp.owner] at h0
      exact hp.locked h0

/-- The commit of an insert. -/
theorem RecInv.commitInsert {dv : DirtyObject α} {items : List PItem}
    (h : RecInv k A top stored H r) (hp : Inserting k A top H r dv)
    (hown : r.obj.txnId = T) (hina : ¬ A T) (he : Ended T r r')
    (hbts : r'.obj.bts = T) (hcts : r'.obj.cts = INF) (hlist : r'.dirtyList = [])
    (hst : stored' (k.pl r'.obj.data) = .ok items) :
    RecInv k A top stored' ((T, some (k.img r'.obj.data, items)) :: H) r' ∧
    Ends A T H r ((T, some (k.img r'.obj.data, items)) :: H) r' := by
  have hT : T ≠ 0 := hown ▸ hp.locked
  have hsub : r'.dirtyList.Sublist r.dirtyList := by
    rw [hlist]
    exact List.nil_sublist _
  have hrec : RecInv k A top stored' ((T, some (k.img r'.obj.data, items)) :: H) r' := by
    refine h.sublist hsub he.nextAddr (fun _ => he.prepared) ?_ ?_ ?_
    · exact h.sorted.cons fun e hin => hown ▸ (hp.before e hin).1
    · exact List.forall_mem_cons.mpr ⟨⟨hina, hown ▸ hp.known, hT⟩, h.committed⟩
    · suffices hl' : Live k A top stored' ((T, some (k.img r'.obj.data, items)) :: H)
          r' [] [] items H from .live hl'
      exact ⟨he.used, hcts, hst, by rw [hbts], hlist, .nothing,
        fun dn hdn => (by cases hdn), fun hne => absurd rfl hne, fun _ => rfl,
        fun h0 => absurd he.free h0⟩
  refine ⟨hrec, Ends.of_finds ?_ h hrec fun R hA _ _ hf => ?_⟩
  · refine ⟨fun R loc _ hr => ?_, fun R e hR hs => ?_, fun R dn hR _ hf => ?_⟩
    · cases loc with
      | slot => exact absurd hp.bts hr.2.1
      | copy a =>
          refine ⟨by rw [he.nextAddr]; exact hr.1, fun dn hdn => ?_⟩
          rw [hlist] at hdn
          cases hdn
    · exact (hs.not_ended h.sorted hp.ended
        fun e hin => (hp.before e hin).2 R hR).elim
    · exact absurd (hf.locked.symm.trans hown ▸ hR) hina
  · exact absurd hf (hp.no_finds hown fun heq => hina (heq ▸ hA))

/-! ## Abort -/

/-- The abort of an update or a delete: the new version is dropped, a
tombstone stays behind, and the slot is free again. -/
theorem RecInv.abortLive {own rest : List (DirtyObject α)} {items : List PItem}
    (h : RecInv k A top stored H r)
    (hl : Live k A top stored H r own rest items H') (hown : r.obj.txnId = T)
    (hT : T ≠ 0) (hina : ¬ A T) (hobj : r'.obj = r.obj.unlock)
    (hused : r'.used = r.used) (haddr : r'.nextAddr = r.nextAddr)
    (hlist : r'.dirtyList = (r.removeDirtyVersion T).dirtyList) :
    RecInv k A top stored H r' ∧ Ends A T H r H r' := by
  have hlock := hl.lock (by rw [hown]; exact hT)
  have hsub : r'.dirtyList.Sublist r.dirtyList := by
    rw [hlist]
    exact List.filter_sublist
  have hfree : r'.obj.txnId = 0 := by
    rw [hobj]
    rfl
  have hb : r.bound = T := by
    rw [Record.bound, if_neg (by rw [hown]; exact hT), hown]
  have hb' : r'.bound = r.obj.rts := by
    rw [Record.bound, if_pos hfree, hobj]
    rfl
  have hprep : r'.used = true → r'.obj.prepared = true := by
    intro hu
    rw [hobj]
    exact h.prepared (hused.symm.trans hu)
  have hrec : RecInv k A top stored H r' := by
    refine h.sublist hsub haddr hprep h.sorted h.committed ?_
    suffices hl' : Live k A top stored H r' [] r'.dirtyList items H' from .live hl'
    refine ⟨hused.trans hl.used, ?_, ?_, ?_, rfl, .nothing, fun dn hdn => ?_,
      fun hne => absurd rfl hne, fun _ => rfl, fun h0 => absurd hfree h0⟩
    · rw [hobj]
      exact hl.cts
    · rw [hobj]
      exact hl.holds
    · rw [hobj]
      exact hl.head
    · rw [hlist] at hdn
      obtain ⟨hmem, hcond⟩ := List.mem_filter.mp hdn
      rw [hl.list, List.mem_append] at hmem
      rw [hb', hfree]
      rcases hmem with hmem | hmem
      · -- of the versions of `T` only a tombstone survives
        have htomb : IsTomb T dn := by
          have howned := hl.owned
          rw [hown] at howned
          cases howned with
          | nothing => cases hmem
          | updated hn =>
              rw [List.mem_singleton.mp hmem] at hcond
              simp [hn.locked, hn.cts] at hcond
          | deleted hd => rw [List.mem_singleton.mp hmem]; exact hd
          | @updatedDeleted d n hd hn =>
              rcases List.mem_cons.mp hmem with rfl | hmem
              · exact hd
              · rw [List.mem_singleton.mp hmem] at hcond
                simp [hn.locked, hn.cts] at hcond
        refine .dead ?_ ?_ ?_ ?_ ⟨htomb.bts.trans htomb.cts.symm, ?_⟩ htomb.update
        · rw [htomb.locked]
          exact hT
        · rw [htomb.locked]
          exact hT
        · rw [htomb.locked]
          exact hina
        · rw [htomb.locked]
          omega
        · rw [htomb.cts]
          omega
      · have hpast := hl.past dn hmem
        rw [hb] at hpast
        exact (hpast.mono (fun _ h => h) (Nat.le_refl _) (by omega)).changeOwner
          fun _ h0 _ _ => h0
  refine ⟨hrec, Ends.of_finds ?_ h hrec fun R hA _ _ hf => ?_⟩
  · refine ⟨fun R loc _ hr => ?_, fun R e _ hs => ?_, fun R dn hR _ hf => ?_⟩
    · cases loc with
      | slot =>
          obtain ⟨h1, h2, h3, h4, h5, _⟩ := hr
          rw [RefOk, hused, hobj]
          exact ⟨h1, h2, h3, h4, h5, fun h0 => absurd rfl h0⟩
      | copy a =>
          refine ⟨by rw [haddr]; exact hr.1, fun dn hdn => hr.2 dn ?_⟩
          exact hsub.subset hdn
    · refine ⟨hs.latest, hs.content, hused.trans hs.used, ?_, .inl hfree⟩
      rw [hobj]
      exact hs.rts
    · exact absurd (hf.locked.symm.trans hown ▸ hR) hina
  · obtain ⟨dn, hdn, h0, hb, hc, hno⟩ :=
      hl.finds_copy hown hT (fun heq => hina (heq ▸ hA)) hf
    refine ⟨hused.trans hl.used, .copy (fun d hd heq => ?_) ?_ h0 hb hc⟩
    · rw [hlist, Record.removeDirtyVersion, hl.list] at hd
      rcases List.mem_append.mp (List.mem_filter.mp hd).1 with hd | hd
      · have hlk := hl.owned.locked d hd
        exact hina (hown.symm.trans (hlk.symm.trans heq) ▸ hA)
      · exact hno d hd heq
    · rw [hlist, Record.removeDirtyVersion, hl.list]
      refine List.mem_filter.mpr ⟨List.mem_append_right _ hdn, ?_⟩
      have hne : (0 : Nat) ≠ T := fun heq => hT heq.symm
      simp [h0, hne]

/-- The abort of an insert gives the slot back. -/
theorem RecInv.abortInsert {dv : DirtyObject α} (h : RecInv k A top stored H r)
    (hp : Inserting k A top H r dv) (hown : r.obj.txnId = T) (hina : ¬ A T)
    (hused : r'.used = false) (haddr : r'.nextAddr = r.nextAddr)
    (hlist : r'.dirtyList = (r.removeDirtyVersion T).dirtyList) :
    RecInv k A top stored H r' ∧ Ends A T H r H r' := by
  have hnil : r'.dirtyList = [] := by
    rw [hlist, Record.removeDirtyVersion, hp.list]
    simp [hp.owner, hown, hp.dv_cts]
  have hsub : r'.dirtyList.Sublist r.dirtyList := by
    rw [hnil]
    exact List.nil_sublist _
  have hprep : r'.used = true → r'.obj.prepared = true := by
    intro hu
    rw [hused] at hu
    cases hu
  have hrec : RecInv k A top stored H r' := by
    refine h.sublist hsub haddr hprep h.sorted h.committed ?_
    exact .unused ⟨hused, hnil, hp.ended, fun e he => (hp.before e he).2⟩
  refine ⟨hrec, Ends.of_finds ?_ h hrec fun R hA _ _ hf => ?_⟩
  · refine ⟨fun R loc _ hr => ?_, fun R e hR hs => ?_, fun R dn hR _ hf => ?_⟩
    · cases loc with
      | slot => exact absurd hp.bts hr.2.1
      | copy a =>
          refine ⟨by rw [haddr]; exact hr.1, fun dn hdn => ?_⟩
          rw [hnil] at hdn
          cases hdn
    · exact (hs.not_ended h.sorted hp.ended
        fun e hin => (hp.before e hin).2 R hR).elim
    · exact absurd (hf.locked.symm.trans hown ▸ hR) hina
  · exact absurd hf (hp.no_finds hown fun heq => hina (heq ▸ hA))

/-! ## Garbage collection -/

/-- Dropping versions of an unlocked record, as long as the last copy of a
deleted one is kept for those who may read it. -/
theorem RecInv.drop {l : List (DirtyObject α)} (h : RecInv k A top stored H r)
    (h0 : r.obj.txnId = 0) (hsub : l.Sublist r.dirtyList)
    (hkept : ∀ dn ∈ r.dirtyList, r.obj.cts < INF → r.obj.cts ≤ dn.elem.cts →
      dn ∈ l ∨ ∀ x, A x → r.obj.cts < x) :
    RecInv k A top stored H { r with dirtyList := l } := by
  refine h.sublist hsub rfl h.prepared h.sorted h.committed ?_
  cases h.phase with
  | unused hp =>
      refine .unused ⟨hp.used, ?_, hp.ended, hp.before⟩
      rw [hp.list] at hsub
      exact List.sublist_nil.mp hsub
  | inserting hp => exact absurd h0 hp.locked
  | @live own rest items H₁ hp =>
      have hnil := hp.free h0
      have hrest := hp.list
      rw [hnil, List.nil_append] at hrest
      suffices hl : Live k A top stored H { r with dirtyList := l } [] l items H₁
        from .live hl
      refine ⟨hp.used, hp.cts, hp.holds, hp.head, rfl, .nothing, fun dn hdn => ?_,
        fun hne => absurd rfl hne, fun _ => rfl, hp.lock⟩
      exact hp.past dn (hrest ▸ hsub.subset hdn)
  | @deleted items H₁ hp =>
      suffices hd : Deleted k A top H { r with dirtyList := l } items H₁
        from .deleted hd
      refine ⟨hp.used, hp.locked, hp.cts_lt, hp.head,
        fun dn hdn => hp.past dn (hsub.subset hdn), hp.cts_le, ?_⟩
      rcases hp.kept with ⟨dn, hdn, hle⟩ | hall
      · rcases hkept dn hdn hp.cts_lt hle with hin | hall
        · exact .inl ⟨dn, hin, hle⟩
        · exact .inr hall
      · exact .inr hall

/-- What is dropped is not what a reader finds. -/
theorem Ends.drop {l : List (DirtyObject α)} (h : RecInv k A top stored H r)
    (h' : RecInv k A top stored H { r with dirtyList := l }) (h0 : r.obj.txnId = 0)
    (hsub : ∀ dn ∈ l, dn ∈ r.dirtyList)
    (hkept : ∀ R, A R → ∀ dn ∈ r.dirtyList, dn.elem.txnId = 0 → R < dn.elem.cts →
      dn ∈ l) : Ends A T H r H { r with dirtyList := l } := by
  refine Ends.of_finds (Evolve.drop hsub h0) h h' fun R hA _ hu hf => ⟨hu, ?_⟩
  cases hf with
  | own hf _ => exact absurd (hf.locked.symm.trans h0) hf.ne_zero
  | slot h0 hb hc => exact .slot h0 hb hc
  | copy hno hdn h1 hb hc =>
      exact .copy (fun d hd => hno d (hsub d hd)) (hkept R hA _ hdn h1 hc) h1 hb hc

/-- `gc` drops nothing that an active transaction can read. -/
theorem RecInv.gc (h : RecInv k A top stored H r) (h0 : r.obj.txnId = 0)
    (hold : ∀ x, A x → oldest ≤ x) :
    RecInv k A top stored H (r.gc oldest) ∧ Ends A T H r H (r.gc oldest) := by
  have hrec : RecInv k A top stored H (r.gc oldest) := by
    refine h.drop h0 List.filter_sublist fun dn hdn hlt hle => ?_
    by_cases hge : dn.elem.cts ≤ oldest
    · right
      intro x hx
      have hox := hold x hx
      have hne : r.obj.cts ≠ x := by
        intro heq
        cases h.phase with
        | unused hp => rw [hp.list] at hdn; cases hdn
        | inserting hp => exact absurd h0 hp.locked
        | live hp => have := hp.cts; omega
        | deleted hp =>
            have hcom := h.committed (r.obj.cts, none)
              (by rw [hp.head]; exact List.mem_cons_self ..)
            exact hcom.1 (heq ▸ hx)
      omega
    · left
      refine List.mem_filter.mpr ⟨hdn, ?_⟩
      simp only [decide_eq_false hge, Bool.not_false]
  refine ⟨hrec, Ends.drop h hrec h0 (fun dn hdn => (List.mem_filter.mp hdn).1) ?_⟩
  intro R hR dn hdn _ hlt
  have hge := hold R hR
  refine List.mem_filter.mpr ⟨hdn, ?_⟩
  rw [decide_eq_false (by omega)]
  rfl

/-- A deleted record without dirty versions can be freed. -/
theorem RecInv.free {items : List PItem} (h : RecInv k A top stored H r)
    (hp : Deleted k A top H r items H') (hnil : r.dirtyList = []) :
    RecInv k A top stored H { r with used := false } ∧
    Ends A T H r H { r with used := false } := by
  have hall : ∀ x, A x → r.obj.cts < x := by
    rcases hp.kept with ⟨dn, hdn, _⟩ | hall
    · rw [hnil] at hdn
      cases hdn
    · exact hall
  have hend : ∀ e ∈ H.head?, e.2 = none := by
    intro e he
    rw [hp.head] at he
    cases he
    rfl
  have hbefore : ∀ e ∈ H, ∀ x, A x → e.1 < x := by
    intro e he x hx
    have hs := h.sorted
    have hx' := hall x hx
    rw [hp.head] at he hs
    rcases List.mem_cons.mp he with rfl | he
    · exact hx'
    · have hlt : e.1 < r.obj.cts := hs.lt_head e he
      omega
  have hrec : RecInv k A top stored H { r with used := false } :=
    h.sublist (List.Sublist.refl _) rfl (fun hu => (by cases hu)) h.sorted
      h.committed (.unused ⟨rfl, hnil, hend, hbefore⟩)
  refine ⟨hrec, Ends.of_finds ?_ h hrec fun R hA hR _ hf => ?_⟩
  · refine ⟨fun R loc hR hr => ?_, fun R e hR hs => ?_, fun R dn _ _ hf => ?_⟩
    · cases loc with
      | slot =>
          exfalso
          have h1 := hp.cts_lt
          have h2 := hall R hR
          rcases hr.2.2.2.2.1 with hc | hc
          · omega
          · omega
      | copy a => exact hr
    · exact (hs.not_ended h.sorted hend fun e he => hbefore e he R hR).elim
    · exact absurd (hf.locked.symm.trans hp.locked) hf.ne_zero
  · exfalso
    cases hf with
    | own hf _ => exact hf.ne_zero (hf.locked.symm.trans hp.locked)
    | slot _ _ hc =>
        have := hall R hA
        omega
    | copy _ hdn _ _ _ =>
        rw [hnil] at hdn
        cases hdn

end Poseidon
