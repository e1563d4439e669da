import Poseidon.Proofs.Chain
import Poseidon.Proofs.Endings

/-!
# The invariant of one slot

To the record's own invariant come the facts that tie it to the rest of its
table: the property chain of a live record exists and is no longer than the
items need, the transactions that work on the record have it in their dirty
lists, once for an insert or update and twice for an update with a delete on
top, and what waits for the garbage collection has ended.

The writing calls lock a record first. Through a reference that
`node_by_id` or `rship_by_id` gave out, the lock is refused, or the caller
has versions of its own, or it has just locked the slot
(`SlotInv.lockForWrite`); the three kinds of writes start from there.
-/

namespace Poseidon

open History

variable {α κ : Type}

/-! ## Lengths of property lists -/

theorem triples_length_mono {l l' : List PItem} (h : l.length ≤ l'.length) :
    (triples l).length ≤ (triples l').length := by
  rw [triples_length, triples_length]
  omega

/-- An item is replaced by one with the same key. -/
theorem replaceItem_keys {pnew : PItem} : ∀ {l l' : List PItem},
    replaceItem pnew l = some l' → l'.map PItem.key = l.map PItem.key := by
  intro l
  induction l with
  | nil => intro l' h; cases h
  | cons pi rest ih =>
      intro l' h
      simp only [replaceItem] at h
      split at h
      · next hkey =>
        cases h
        rw [List.map_cons, List.map_cons, hkey]
      · obtain ⟨l1, hl1, rfl⟩ := Option.map_eq_some_iff.mp h
        rw [List.map_cons, List.map_cons, ih hl1]

theorem replaceItem_none {pnew : PItem} {l : List PItem} (h : replaceItem pnew l = none) :
    pnew.key ∉ l.map PItem.key := by
  induction l with
  | nil => simp
  | cons pi rest ih =>
      simp only [replaceItem] at h
      split at h
      · cases h
      · next hne =>
        rw [List.map_cons, List.mem_cons, not_or]
        exact ⟨fun heq => hne heq.symm, ih (Option.map_eq_none_iff.mp h)⟩

/-- `apply_updates` keeps the keys in their places and appends new ones. -/
theorem applyUpdates_keys (pitems props : List PItem) : ∃ new,
    (applyUpdates pitems props).map PItem.key = pitems.map PItem.key ++ new ∧
      new.Sublist (props.map PItem.key) ∧ ∀ k ∈ new, k ∉ pitems.map PItem.key := by
  rw [applyUpdates_eq_foldl, List.map_append]
  suffices h : ∀ acc : List PItem × List PItem, ∃ new,
      (props.foldl applyUpdate acc).1.map PItem.key = acc.1.map PItem.key ∧
      (props.foldl applyUpdate acc).2.map PItem.key = acc.2.map PItem.key ++ new ∧
      new.Sublist (props.map PItem.key) ∧ ∀ k ∈ new, k ∉ acc.1.map PItem.key by
    obtain ⟨new, h1, h2, h3, h4⟩ := h (pitems, [])
    exact ⟨new, congrArg₂ (· ++ ·) h1 h2, h3, h4⟩
  induction props with
  | nil => intro acc; exact ⟨[], rfl, by simp, List.Sublist.refl _, by simp⟩
  | cons pnew props ih =>
      intro acc
      rw [List.foldl_cons, List.map_cons]
      cases hr : replaceItem pnew acc.1 with
      | some l =>
          rw [applyUpdate_of_some hr]
          obtain ⟨new, h1, h2, h3, h4⟩ := ih (l, acc.2)
          rw [replaceItem_keys hr] at h1 h4
          exact ⟨new, h1, h2, h3.cons _, h4⟩
      | none =>
          rw [applyUpdate_of_none hr]
          obtain ⟨new, h1, h2, h3, h4⟩ := ih (acc.1, acc.2 ++ [pnew])
          refine ⟨pnew.key :: new, h1, ?_, h3.cons_cons _, ?_⟩
          · rw [h2, List.map_append, List.append_assoc]
            rfl
          · exact List.forall_mem_cons.mpr ⟨replaceItem_none hr, h4⟩

/-- `apply_updates` removes no item. -/
theorem length_le_applyUpdates (pitems props : List PItem) :
    pitems.length ≤ (applyUpdates pitems props).length := by
  obtain ⟨new, hkeys, _⟩ := applyUpdates_keys pitems props
  have hlen := congrArg List.length hkeys
  rw [List.length_append, List.length_map, List.length_map] at hlen
  omega

theorem nodup_applyUpdates {pitems props : List PItem}
    (h : (pitems.map PItem.key).Nodup) (h' : (props.map PItem.key).Nodup) :
    ((applyUpdates pitems props).map PItem.key).Nodup := by
  obtain ⟨new, hkeys, hsub, hnew⟩ := applyUpdates_keys pitems props
  rw [hkeys, List.nodup_append]
  refine ⟨h, hsub.nodup h', fun a ha b hb heq => ?_⟩
  exact hnew b hb (heq ▸ ha)

/-- Items with keys, each key once. -/
structure Keyed (l : List PItem) : Prop where
  ne_zero : ∀ q ∈ l, q.key ≠ 0
  distinct : (l.map PItem.key).Nodup

/-- A change of a property list that loses nothing. -/
structure Grows (fp : List PItem → List PItem) : Prop where
  length : ∀ l, l.length ≤ (fp l).length
  keyed : ∀ l, Keyed l → Keyed (fp l)

theorem grows_id : Grows (fun l => l) := ⟨fun _ => Nat.le_refl _, fun _ h => h⟩

theorem keyed_nil : Keyed [] := ⟨fun _ hq => (by cases hq), List.nodup_nil⟩

theorem Keyed.perm {l l' : List PItem} (h : Keyed l) (hp : l'.Perm l) : Keyed l' :=
  ⟨fun q hq => h.ne_zero q (hp.mem_iff.mp hq), (hp.map _).nodup_iff.mpr h.distinct⟩

theorem Properties.keyed (props : Properties) : Keyed props.items :=
  ⟨fun q hq => (props.typed q hq).1, props.distinct⟩

theorem grows_applyUpdates (props : Properties) :
    Grows (applyUpdates · props.items) := by
  refine ⟨fun l => length_le_applyUpdates l _, fun l h => ⟨fun q hq => ?_,
    nodup_applyUpdates h.distinct props.distinct⟩⟩
  rcases mem_applyUpdates q hq with hq | hq
  · exact h.ne_zero q hq
  · exact (props.typed q hq).1

theorem PropertyList.keyed_eq {l : List PItem} (h : Keyed l) :
    PropertyList.keyed l = l := by
  refine List.filter_eq_self.mpr fun q hq => ?_
  simpa using h.ne_zero q hq

/-! ## The invariant -/

/-- The chain of a live record. It has room for no more than the items of
the slot, and of a new version, need. -/
structure Backed (p : PropertyList) (id pl : Nat) (r : Record α)
    (ids : List Nat) : Prop where
  chain : p.Chain id pl ids
  keyed : Keyed (p.cells ids)
  fits : ids.length ≤ (triples (p.cells ids)).length
  room : ∀ dn ∈ r.dirtyList, dn.updateMode = true → dn.elem.cts = INF →
    ids.length ≤ (triples dn.properties).length

/-- How often a transaction has a record in its dirty list. -/
structure Coherent (n T : Nat) (r : Record α) : Prop where
  front : n ≠ 0 ↔ ∃ dn, Front T dn r
  once : ∀ dn, Front T dn r → dn.elem.cts = INF → n = 1
  twice : ∀ dn d rest, Front T dn r → r.dirtyList = dn :: d :: rest →
    d.elem.txnId = T → 2 ≤ n

/-- A record and its copies carry the number of their slot. -/
structure Named (k : Scheme α κ) (id : Nat) (r : Record α) : Prop where
  slot : r.used = true → k.rid r.obj.data = id
  copies : ∀ dn ∈ r.dirtyList, k.rid dn.elem.data = id

/-- The invariant of the slot `id` with record `r`. `n T` says how often the
slot is in the dirty list of `T`, and `g` whether it is in the garbage. -/
structure SlotInv (k : Scheme α κ) (A : Nat → Prop) (top : Nat) (H : Hist κ)
    (p : PropertyList) (n : Nat → Nat) (g : Prop) (id : Nat) (r : Record α) :
    Prop where
  record : RecInv k A top p.buildDirtyPropertyList H r
  keyed : ∀ dn ∈ r.dirtyList, Keyed dn.properties
  backed : r.used = true → r.obj.cts = INF → r.obj.bts ≠ 0 →
    ∃ ids, Backed p id (k.pl r.obj.data) r ids
  dirty : ∀ T, A T → Coherent (n T) T r
  trash : g → r.used = true ∧ r.obj.cts ≠ INF
  named : Named k id r

section Facts

variable {n n' T : Nat} {r r' : Record α}

/-- A transaction without a version of the record does not have it in its
list. -/
theorem Coherent.other (h : Coherent n T r) (h1 : ∀ dn, ¬ Front T dn r)
    (h2 : ∀ dn, ¬ Front T dn r') : Coherent n T r' := by
  have hn : ¬ n ≠ 0 := by
    intro hn
    obtain ⟨dn, hdn⟩ := h.front.mp hn
    exact h1 dn hdn
  refine ⟨⟨fun h0 => absurd h0 hn, fun ⟨dn, hdn⟩ => absurd hdn (h2 dn)⟩,
    fun dn hdn => absurd hdn (h2 dn), fun dn _ _ hdn => absurd hdn (h2 dn)⟩

theorem Front.ne_of_txnId (h : r.obj.txnId ≠ T) (dn : DirtyObject α) :
    ¬ Front T dn r := fun hf => h hf.locked

theorem Coherent.congr (h : Coherent n T r) (hu : r'.used = r.used)
    (ht : r'.obj.txnId = r.obj.txnId) (hl : r'.dirtyList = r.dirtyList) :
    Coherent n T r' := by
  have hf : ∀ dn, Front T dn r' ↔ Front T dn r := by
    intro dn
    constructor
    · intro hf
      exact ⟨hf.ne_zero, hu.symm.trans hf.used, ht.symm.trans hf.locked,
        hl ▸ hf.front, hf.owner⟩
    · intro hf
      exact ⟨hf.ne_zero, hu.trans hf.used, ht.trans hf.locked,
        hl.symm ▸ hf.front, hf.owner⟩
  refine ⟨by simp only [hf]; exact h.front, fun dn hdn => h.once dn ((hf dn).mp hdn),
    fun dn d rest hdn hlist => h.twice dn d rest ((hf dn).mp hdn) ?_⟩
  rw [← hl]
  exact hlist

variable {k : Scheme α κ} {A A' : Nat → Prop} {top : Nat} {H H' : Hist κ}
  {stored : Nat → Except Err (List PItem)}

/-- A record that `T` has locked, and has no version of. -/
theorem RecInv.locked_of_no_front (h : RecInv k A top stored H r) (hT : T ≠ 0)
    (hu : r.used = true) (hown : r.obj.txnId = T) (hno : ∀ dn, ¬ Front T dn r) :
    Locked k A top stored H T r := by
  refine ⟨hown, ?_⟩
  cases h.phase with
  | unused hp => rw [hp.used] at hu; cases hu
  | @inserting dv hp =>
      refine absurd ⟨hT, hu, hown, ?_, hp.owner.trans hown⟩ (hno dv)
      rw [hp.list]
      rfl
  | @live own rest items H₁ hp =>
      cases own with
      | nil =>
          have hlist := hp.list
          rw [List.nil_append] at hlist
          exact ⟨items, H₁, hlist ▸ hp⟩
      | cons d own => exact absurd (hp.front_own hown hT) (hno d)
  | deleted hp => exact absurd (hown.symm.trans hp.locked) hT

end Facts

/-! ## What the calls do to a slot -/

section Slots

variable {k : Scheme α κ} {A A' : Nat → Prop} {top : Nat} {H H' : Hist κ}
  {p : PropertyList} {n : Nat → Nat} {g : Prop} {id T : Nat} {r r' : Record α}

/-- The slot shows the same versions as before. -/
def Quiet (r r' : Record α) : Prop :=
  r'.dirtyList = r.dirtyList ∧ r'.obj.data = r.obj.data

theorem SlotInv.touch (h : SlotInv k A top H p n g id r) (ht : Touched k r r') :
    SlotInv k A top H p n g id r' := by
  refine ⟨h.record.touch ht, ?_, ?_, fun T hT => ?_, fun hg => ?_, fun hu => ?_, ?_⟩
  · rw [ht.list]
    exact h.keyed
  · rw [ht.used, ht.cts, ht.bts, ht.pl]
    intro h1 h2 h3
    obtain ⟨ids, hb⟩ := h.backed h1 h2 h3
    exact ⟨ids, hb.chain, hb.keyed, hb.fits, ht.list ▸ hb.room⟩
  · exact (h.dirty T hT).congr ht.used ht.txnId ht.list
  · rw [ht.used, ht.cts]
    exact h.trash hg
  · rw [ht.rid]
    exact h.named.slot (ht.used.symm.trans hu)
  · rw [ht.list]
    exact h.named.copies

/-- A dirty list without new versions. -/
theorem SlotInv.rebuild (h : SlotInv k A top H p n g id r)
    (hrec : RecInv k A top p.buildDirtyPropertyList H r')
    (hused : r'.used = r.used) (hbts : r'.obj.bts = r.obj.bts)
    (hcts : r'.obj.cts = r.obj.cts) (hdata : r'.obj.data = r.obj.data)
    (hlist : r'.dirtyList = r.dirtyList)
    (hdirty : ∀ T, A T → Coherent (n T) T r') : SlotInv k A top H p n g id r' := by
  refine ⟨hrec, ?_, ?_, hdirty, fun hg => ?_, fun hu => ?_, ?_⟩
  · rw [hlist]
    exact h.keyed
  · rw [hused, hcts, hbts, hdata]
    intro h1 h2 h3
    obtain ⟨ids, hb⟩ := h.backed h1 h2 h3
    exact ⟨ids, hb.chain, hb.keyed, hb.fits, hlist ▸ hb.room⟩
  · rw [hused, hcts]
    exact h.trash hg
  · rw [hdata]
    exact h.named.slot (hused.symm.trans hu)
  · rw [hlist]
    exact h.named.copies

/-- The lock of a slot, see `RecInv.lock`. -/
theorem SlotInv.lock (h : SlotInv k A top H p n g id r) (hA : A T) (hT : T ≠ 0)
    (htop : T ≤ top) (hinf : T < INF) (href : RefOk T r .slot)
    (hrts : r.obj.rts ≤ T) (hfree : r.obj.txnId = 0)
    (hr' : r' = { r with obj := { r.obj with txnId := T } }) :
    SlotInv k A top H p n g id r' ∧ Evolve A T H r H r' ∧
      Locked k A top p.buildDirtyPropertyList H T r' := by
  obtain ⟨hrec, hev, hl⟩ := h.record.lock hA hT htop hinf href hrts hfree
  rw [← hr'] at hrec hev hl
  refine ⟨h.rebuild hrec (by rw [hr']) (by rw [hr']) (by rw [hr']) (by rw [hr'])
    (by rw [hr']) fun T' hT' => ?_, hev, hl⟩
  refine (h.dirty T' hT').other ?_ ?_
  · intro dn hf
    exact hf.ne_zero (hf.locked.symm.trans hfree)
  · obtain ⟨_, items, H₁, hl⟩ := hl
    exact fun dn => hl.no_front dn

/-- The lock is given back. -/
theorem SlotInv.unlock (h : SlotInv k A top H p n g id r) (hT : T ≠ 0)
    (hl : Locked k A top p.buildDirtyPropertyList H T r)
    (hr' : r' = { r with obj := r.obj.unlock }) :
    SlotInv k A top H p n g id r' ∧ Evolve A T H r H r' := by
  obtain ⟨hrec, hev⟩ := Locked.unlock h.record hl hT
  rw [← hr'] at hrec hev
  refine ⟨h.rebuild hrec (by rw [hr']) (by rw [hr']; rfl) (by rw [hr']; rfl)
    (by rw [hr']; rfl) (by rw [hr']) fun T' hT' => ?_, hev⟩
  refine (h.dirty T' hT').other ?_ ?_
  · obtain ⟨_, items, H₁, hl⟩ := hl
    exact fun dn => hl.no_front dn
  · intro dn hf
    refine hf.ne_zero (hf.locked.symm.trans ?_)
    rw [hr']
    rfl

/-- What `lockForWrite` can do through a reference of an active
transaction: nothing, because the transaction has versions of its own, or
it locks the slot. -/
theorem SlotInv.lockForWrite {l : Loc} (h : SlotInv k A top H p n g id r) (hA : A T)
    (hT : T ≠ 0) (htop : T ≤ top) (hinf : T < INF) (href : RefOk T r l)
    (hok : r.lockForWrite l T = .ok r') :
    SlotInv k A top H p n g id r' ∧ Evolve A T H r H r' ∧ Quiet r r' ∧
      ((r' = r ∧ ∃ dn, Front T dn r) ∨
        (l = .slot ∧ Locked k A top p.buildDirtyPropertyList H T r')) := by
  simp only [Record.lockForWrite] at hok
  split at hok
  · cases hok
  next o ho =>
  split at hok
  · cases hok
  next hrts =>
  split at hok
  · -- the transaction has the lock already
    next hlock =>
    cases hok
    have hlock' := Obj.isLockedBy_iff.mp hlock
    refine ⟨h, Evolve.refl .., ⟨rfl, rfl⟩, ?_⟩
    cases l with
    | copy a =>
        obtain ⟨d, hd, rfl⟩ := Option.map_eq_some_iff.mp ho
        exact .inl ⟨rfl, h.record.front_of_mem hA hT (List.mem_of_find?_eq_some hd) hlock'⟩
    | slot =>
        cases ho
        by_cases hf : ∃ dn, Front T dn r
        · exact .inl ⟨rfl, hf⟩
        · refine .inr ⟨rfl, h.record.locked_of_no_front hT href.1 hlock' ?_⟩
          exact fun dn hdn => hf ⟨dn, hdn⟩
  · next hlock =>
    split at hok
    · next o' ho' =>
      cases hok
      simp only [Obj.tryLock] at ho'
      split at ho'
      · next hfree =>
        cases ho'
        cases l with
        | copy a =>
            exfalso
            obtain ⟨d, hd, rfl⟩ := Option.map_eq_some_iff.mp ho
            have haddr : d.addr = a := by simpa using List.find?_some hd
            rcases href.2 d (List.mem_of_find?_eq_some hd) haddr with h1 | h1
            · exact hT (h1.symm.trans hfree)
            · exact hrts h1.2
        | slot =>
            cases ho
            obtain ⟨h1, h2, h3⟩ := h.lock hA hT htop hinf href
              (Nat.le_of_not_lt hrts) hfree rfl
            exact ⟨h1, h2, ⟨rfl, rfl⟩, .inr ⟨rfl, h3⟩⟩
      · cases ho'
    · cases hok

/-- A new version of `T` on a record where it had none. -/
theorem SlotInv.push {elem old : Obj α} {items ps : List PItem}
    (h : SlotInv k A top H p n g id r) (hT : T ≠ 0)
    (hl : Locked k A top p.buildDirtyPropertyList H T r)
    (hst : p.buildDirtyPropertyList (k.pl r.obj.data) = .ok items)
    (hr' : r' = (r.push old items true).push elem ps true)
    (hrec : RecInv k A top p.buildDirtyPropertyList H r')
    (hold : old.txnId = 0) (hold' : old.cts ≠ INF) (helem : elem.txnId = T)
    (hps : Keyed ps) (hlen : elem.cts = INF → items.length ≤ ps.length)
    (hrid : k.rid old.data = k.rid r.obj.data ∧ k.rid elem.data = k.rid r.obj.data) :
    SlotInv k A top H p (fun x => if x = T then n x + 1 else n x) g id r' ∧
      Evolve A T H r H r' := by
  obtain ⟨hown, items₁, H₁, hl⟩ := hl
  have hev : Evolve A T H r H r' := by
    rw [hr']
    exact Evolve.trans (Evolve.push hown) (Evolve.push hown)
  have hfront : Front T ⟨r.nextAddr + 1, true, elem, ps⟩ r' := by
    rw [hr']
    exact ⟨hT, hl.used, hown, rfl, helem⟩
  have hitems : ∀ ids, Backed p id (k.pl r.obj.data) r ids → items = p.cells ids := by
    intro ids hb
    exact (Except.ok.inj (hb.chain.buildDirtyPropertyList.symm.trans hst)).symm
  have hnamed : Named k id r' := by
    have hid := h.named.slot hl.used
    rw [hr']
    refine ⟨fun _ => hid, List.forall_mem_cons.mpr ⟨hrid.2.trans hid,
      List.forall_mem_cons.mpr ⟨hrid.1.trans hid, h.named.copies⟩⟩⟩
  refine ⟨⟨hrec, ?_, ?_, fun T' hT' => ?_, fun hg => ?_, hnamed⟩, hev⟩
  · obtain ⟨ids, hb⟩ := h.backed hl.used hl.cts (hl.bts_ne_zero h.record)
    rw [hr']
    refine List.forall_mem_cons.mpr ⟨hps, List.forall_mem_cons.mpr ⟨?_, h.keyed⟩⟩
    show Keyed items
    rw [hitems ids hb]
    exact hb.keyed
  · intro h1 h2 h3
    rw [hr'] at h1 h2 h3 ⊢
    obtain ⟨ids, hb⟩ := h.backed h1 h2 h3
    refine ⟨ids, hb.chain, hb.keyed, hb.fits, ?_⟩
    refine List.forall_mem_cons.mpr ⟨fun _ hc => ?_,
      List.forall_mem_cons.mpr ⟨fun _ hc => absurd hc hold', hb.room⟩⟩
    have hgrow := triples_length_mono (hlen hc)
    have hfits := hb.fits
    rw [hitems ids hb] at hgrow
    show ids.length ≤ (triples ps).length
    omega
  · by_cases hTT : T' = T
    · subst hTT
      have h0 : n T' = 0 := by
        by_cases h0 : n T' = 0
        · exact h0
        · obtain ⟨dn, hdn⟩ := (h.dirty T' hT').front.mp h0
          exact absurd hdn (hl.no_front dn)
      rw [if_pos rfl, h0]
      refine ⟨⟨fun _ => ⟨_, hfront⟩, fun _ => Nat.one_ne_zero⟩, fun _ _ _ => rfl, ?_⟩
      intro dn d rest _ hlist hd
      rw [hr'] at hlist
      cases hlist
      exact absurd (hd.symm.trans hold) hT
    · rw [if_neg hTT]
      refine (h.dirty T' hT').other (Front.ne_of_txnId ?_) (Front.ne_of_txnId ?_)
      · rw [hown]
        exact fun heq => hTT heq.symm
      · rw [hfront.locked]
        exact fun heq => hTT heq.symm
  · exact absurd hl.cts (h.trash hg).2

/-- An update of a record that was only locked. -/
theorem SlotInv.update {fp : List PItem → List PItem} {fd : α → α}
    {items : List PItem} (h : SlotInv k A top H p n g id r) (hT : T ≠ 0)
    (hl : Locked k A top p.buildDirtyPropertyList H T r)
    (hst : p.buildDirtyPropertyList (k.pl r.obj.data) = .ok items)
    (hfp : Grows fp) (hfd : ∀ d, k.rid (fd d) = k.rid d)
    (hr' : r' = (r.push (Record.oldVersion r.obj T) items true).push
      (Record.newVersion r.obj T fd) (fp items) true) :
    SlotInv k A top H p (fun x => if x = T then n x + 1 else n x) g id r' ∧
      Evolve A T H r H r' := by
  obtain ⟨hown, items₁, H₁, hlive⟩ := hl
  obtain rfl : items₁ = items := Except.ok.inj (hlive.holds.symm.trans hst)
  have hlock := hlive.lock (by rw [hown]; exact hT)
  have hrec : RecInv k A top p.buildDirtyPropertyList H r' := by
    rw [hr']
    exact Locked.pushUpdate h.record hT hown hlive
  obtain ⟨ids, hb⟩ := h.backed hlive.used hlive.cts (hlive.bts_ne_zero h.record)
  have hcells := Except.ok.inj (hb.chain.buildDirtyPropertyList.symm.trans hst)
  refine h.push hT ⟨hown, items₁, H₁, hlive⟩ hst hr' hrec rfl ?_ hown ?_
    (fun _ => hfp.length _) ⟨rfl, hfd _⟩
  · show T ≠ INF
    omega
  · exact hfp.keyed _ (hcells ▸ hb.keyed)

/-- A delete of a record that was only locked. -/
theorem SlotInv.delete {items : List PItem} (h : SlotInv k A top H p n g id r)
    (hT : T ≠ 0) (hl : Locked k A top p.buildDirtyPropertyList H T r)
    (hst : p.buildDirtyPropertyList (k.pl r.obj.data) = .ok items)
    (hr' : r' = (r.push (Record.oldVersion r.obj T) items true).push
      (Record.deletedVersion r.obj T) [] true) :
    SlotInv k A top H p (fun x => if x = T then n x + 1 else n x) g id r' ∧
      Evolve A T H r H r' := by
  obtain ⟨hown, items₁, H₁, hlive⟩ := hl
  obtain rfl : items₁ = items := Except.ok.inj (hlive.holds.symm.trans hst)
  have hlock := hlive.lock (by rw [hown]; exact hT)
  have hrec : RecInv k A top p.buildDirtyPropertyList H r' := by
    rw [hr']
    exact Locked.pushDelete h.record hT hown hlive
  refine h.push hT ⟨hown, items₁, H₁, hlive⟩ hst hr' hrec rfl ?_ hown keyed_nil ?_
    ⟨rfl, rfl⟩
  · show T ≠ INF
    omega
  · intro hc
    exact absurd (show T = INF from hc) (by omega)

/-- A delete of a record that `T` has updated: the tombstone goes on top,
and the record is in the dirty list a second time. -/
theorem SlotInv.deleteOwn {d : DirtyObject α} (h : SlotInv k A top H p n g id r)
    (hA : A T) (hf : Front T d r) (hup : d.updateMode = true)
    (hcts : d.elem.cts = INF)
    (hr' : r' = r.push (Record.deletedVersion d.elem T) [] true) :
    SlotInv k A top H p (fun x => if x = T then n x + 1 else n x) g id r' ∧
      Evolve A T H r H r' := by
  have hT := hf.ne_zero
  have hev : Evolve A T H r H r' := by
    rw [hr']
    exact Evolve.push hf.locked
  have hlive : ∃ rest items H₁, IsNew T d ∧
      Live k A top p.buildDirtyPropertyList H r [d] rest items H₁ := by
    cases h.record.phase with
    | unused hp => have := hf.used; rw [hp.used] at this; cases this
    | inserting hp =>
        have hfr := hf.front
        rw [hp.list] at hfr
        cases hfr
        rw [hp.insert] at hup
        cases hup
    | @live own rest items H₁ hp =>
        cases own with
        | nil => exact absurd hf (hp.no_front d)
        | cons d' own =>
            have heq := hf.unique (hp.front_own hf.locked hT)
            subst heq
            have howned := hp.owned
            rw [hf.locked] at howned
            have hlt := (hp.lock (by rw [hf.locked]; exact hT)).2.2.2
            rw [hf.locked] at hlt
            cases howned with
            | updated hn => exact ⟨rest, items, H₁, hn, hp⟩
            | deleted hd => have := hd.cts; omega
            | updatedDeleted hd hn => have := hd.cts; omega
    | deleted hp => exact absurd (hf.locked.symm.trans hp.locked) hT
  obtain ⟨rest, items, H₁, hn, hlive⟩ := hlive
  have hlt := (hlive.lock (by rw [hf.locked]; exact hT)).2.2.2
  rw [hf.locked] at hlt
  have hrec : RecInv k A top p.buildDirtyPropertyList H r' := by
    rw [hr']
    exact Live.pushTomb h.record hT hf.locked hn hlive
  have hnamed : Named k id r' := by
    have hmem : d ∈ r.dirtyList := List.mem_of_mem_head? hf.front
    rw [hr']
    exact ⟨h.named.slot, List.forall_mem_cons.mpr ⟨h.named.copies d hmem, h.named.copies⟩⟩
  refine ⟨⟨hrec, ?_, ?_, fun T' hT' => ?_, fun hg => ?_, hnamed⟩, hev⟩
  · rw [hr']
    exact List.forall_mem_cons.mpr ⟨keyed_nil, h.keyed⟩
  · intro h1 h2 h3
    rw [hr'] at h1 h2 h3 ⊢
    obtain ⟨ids, hb⟩ := h.backed h1 h2 h3
    refine ⟨ids, hb.chain, hb.keyed, hb.fits,
      List.forall_mem_cons.mpr ⟨fun _ hc => ?_, hb.room⟩⟩
    exact absurd (show T = INF from hc) (by omega)
  · by_cases hTT : T' = T
    · subst hTT
      have h1 := (h.dirty T' hT').once d hf hcts
      rw [if_pos rfl, h1]
      refine ⟨⟨fun _ => ⟨⟨r.nextAddr, true, Record.deletedVersion d.elem T', []⟩, ?_⟩,
        fun _ => by omega⟩, fun dn hdn hc => ?_, fun _ _ _ _ _ _ => Nat.le_refl _⟩
      · rw [hr']
        exact ⟨hT, hf.used, hf.locked, rfl, hf.owner⟩
      · have hfr := hdn.front
        rw [hr'] at hfr
        cases hfr
        exact absurd (show T' = INF from hc) (by omega)
    · rw [if_neg hTT]
      refine (h.dirty T' hT').other (Front.ne_of_txnId ?_) (Front.ne_of_txnId ?_)
      · rw [hf.locked]
        exact fun heq => hTT heq.symm
      · rw [hr']
        show r.obj.txnId ≠ T'
        rw [hf.locked]
        exact fun heq => hTT heq.symm
  · exact absurd hlive.cts (h.trash hg).2

/-- A second write of `T` changes its front version. -/
theorem SlotInv.setFront {d : DirtyObject α} {fp : List PItem → List PItem}
    {f : α → α} (h : SlotInv k A top H p n g id r) (hf : Front T d r)
    (hfp : Grows fp) (hrid : ∀ d, k.rid (f d) = k.rid d)
    (hr' : r' = r.modifyDirty d.addr fun x => { x with
      properties := fp x.properties
      elem := { x.elem with data := f x.elem.data } }) :
    SlotInv k A top H p n g id r' ∧ Evolve A T H r H r' := by
  obtain ⟨tl, hlist⟩ := hf.list
  -- only the front version has its address
  have hmod : r' = { r with dirtyList := { d with
      properties := fp d.properties
      elem := { d.elem with data := f d.elem.data } } :: tl } := by
    have hnd := h.record.addr_nodup
    rw [hlist, List.map_cons, List.nodup_cons] at hnd
    rw [hr', Record.modifyDirty, hlist, List.map_cons, if_pos rfl]
    congr 2
    refine (List.map_congr_left fun x hx => ?_).trans (List.map_id' _)
    rw [if_neg]
    intro heq
    exact hnd.1 (List.mem_map.mpr ⟨x, hx, heq⟩)
  have hs : SameStamp d { d with
      properties := fp d.properties
      elem := { d.elem with data := f d.elem.data } } :=
    ⟨rfl, rfl, rfl, rfl, rfl, rfl, rfl⟩
  obtain ⟨hrec, hev⟩ := h.record.setFront hf hlist hs
  rw [← hmod] at hrec hev
  have hkeyed := h.keyed
  rw [hlist] at hkeyed
  obtain ⟨hk1, hk2⟩ := List.forall_mem_cons.mp hkeyed
  have hnamed : Named k id r' := by
    have hcopies := h.named.copies
    rw [hlist] at hcopies
    obtain ⟨h1, h2⟩ := List.forall_mem_cons.mp hcopies
    rw [hmod]
    exact ⟨h.named.slot, List.forall_mem_cons.mpr ⟨(hrid _).trans h1, h2⟩⟩
  refine ⟨⟨hrec, ?_, ?_, fun T' hT' => ?_, ?_, hnamed⟩, hev⟩
  · rw [hmod]
    exact List.forall_mem_cons.mpr ⟨hfp.keyed _ hk1, hk2⟩
  · intro h1 h2 h3
    rw [hmod] at h1 h2 h3 ⊢
    obtain ⟨ids, hb⟩ := h.backed h1 h2 h3
    have hroom := hb.room
    rw [hlist] at hroom
    obtain ⟨hr1, hr2⟩ := List.forall_mem_cons.mp hroom
    refine ⟨ids, hb.chain, hb.keyed, hb.fits,
      List.forall_mem_cons.mpr ⟨fun hu hc => ?_, hr2⟩⟩
    have hle := hr1 hu hc
    have hgrow := triples_length_mono (hfp.length d.properties)
    show ids.length ≤ (triples (fp d.properties)).length
    omega
  · by_cases hTT : T' = T
    · subst hTT
      have hc := h.dirty T' hT'
      have hf' : Front T' { d with
          properties := fp d.properties
          elem := { d.elem with data := f d.elem.data } } r' := by
        rw [hmod]
        exact ⟨hf.ne_zero, hf.used, hf.locked, rfl, hf.owner⟩
      refine ⟨⟨fun _ => ⟨_, hf'⟩, fun _ => hc.front.mpr ⟨d, hf⟩⟩,
        fun dn hdn hcts => ?_, fun dn e rest hdn hl he => ?_⟩
      · have heq := hdn.unique hf'
        subst heq
        exact hc.once d hf hcts
      · rw [hmod] at hl
        obtain ⟨_, htl⟩ := List.cons.inj hl
        exact hc.twice d e rest hf (by rw [hlist, htl]) he
    · refine (h.dirty T' hT').other (Front.ne_of_txnId ?_) (Front.ne_of_txnId ?_)
      · rw [hf.locked]
        exact fun heq => hTT heq.symm
      · rw [hmod]
        show r.obj.txnId ≠ T'
        rw [hf.locked]
        exact fun heq => hTT heq.symm
  · intro hg
    rw [hmod]
    exact h.trash hg

/-- A new record in a slot that is not in use. -/
theorem SlotInv.insert {d : α} {props : List PItem}
    (h : SlotInv k A top H p n g id r) (hu : r.used = false) (hA : A T)
    (hT : T ≠ 0) (htop : T ≤ top) (hinf : T < INF) (hpl : k.pl d = UNKNOWN)
    (hkeyed : Keyed props) (hrid : k.rid d = id)
    (hr' : r' = ⟨true, ⟨T, 0, INF, 0, true, false, d⟩,
      [⟨r.nextAddr, false, ⟨T, 0, INF, 0, true, true, d⟩, props⟩],
      r.nextAddr + 1⟩) :
    SlotInv k A top H p (fun x => if x = T then n x + 1 else n x) g id r' ∧
      Evolve A T H r H r' := by
  obtain ⟨hrec, hev⟩ := h.record.insert hu hA hT htop hinf hpl rfl
    (Eq.refl (DirtyObject.mk r.nextAddr false ⟨T, 0, INF, 0, true, true, d⟩ props))
  rw [← hr'] at hrec hev
  have hnamed : Named k id r' := by
    rw [hr']
    exact ⟨fun _ => hrid, List.forall_mem_singleton.mpr hrid⟩
  refine ⟨⟨hrec, ?_, ?_, fun T' hT' => ?_, fun hg => ?_, hnamed⟩, hev⟩
  · rw [hr']
    exact List.forall_mem_singleton.mpr hkeyed
  · intro _ _ h3
    rw [hr'] at h3
    exact absurd rfl h3
  · have hno : ∀ dn, ¬ Front T' dn r := by
      intro dn hf
      have := hf.used
      rw [hu] at this
      cases this
    by_cases hTT : T' = T
    · subst hTT
      have h0 : n T' = 0 := by
        by_cases h0 : n T' = 0
        · exact h0
        · obtain ⟨dn, hdn⟩ := (h.dirty T' hT').front.mp h0
          exact absurd hdn (hno dn)
      rw [if_pos rfl, h0]
      refine ⟨⟨fun _ => ⟨⟨r.nextAddr, false, ⟨T', 0, INF, 0, true, true, d⟩, props⟩, ?_⟩,
        fun _ => Nat.one_ne_zero⟩, fun _ _ _ => rfl, fun dn e rest _ hl _ => ?_⟩
      · rw [hr']
        exact ⟨hT, rfl, rfl, rfl, rfl⟩
      · rw [hr'] at hl
        cases hl
    · rw [if_neg hTT]
      refine (h.dirty T' hT').other hno (Front.ne_of_txnId ?_)
      rw [hr']
      exact fun heq => hTT heq.symm
  · have := (h.trash hg).1
    rw [hu] at this
    cases this

end Slots

end Poseidon
