import Poseidon.Lib.History
import Poseidon.Proofs.Reads

/-!
# The invariant of one record

A record is in one of four phases. Its slot is not in use; or it was just
inserted and holds one dirty version of the inserting transaction; or it is
live, and the slot holds the current version; or it was deleted, and the
slot holds the last version. What the committed versions were is kept in a
history, newest first, that the store itself does not have.

The dirty list of a live record begins with the versions of the transaction
that has locked it, if any: a new version, a tombstone, or a tombstone over
a new version. Behind them stand the copies that were kept for older
readers. A kept copy is not locked, and throughout its interval it is what
the history says. Nothing else is in the list, except the tombstones that
aborted deletes leave behind, which stay locked by a transaction that is
gone.

Three facts about the timestamps carry the whole development: a kept copy
ends no later than the read timestamp it carries, no later than the read
timestamp of the slot, and no later than the transaction that has locked
the slot. The first makes every write through a kept copy fail, the other
two keep the history sorted.
-/

namespace Poseidon

open History

variable {α κ : Type}

/-- What of a record's data belongs to a version, where the record's property
chain starts, and the slot number that the record carries. -/
structure Scheme (α κ : Type) where
  img : α → κ
  pl : α → Nat
  rid : α → Nat

/-- What a version says: the versioned data and the properties. -/
abbrev Content (κ : Type) := κ × List PItem

/-- The committed versions of a record, newest first; `none` is a delete. -/
abbrev Hist (κ : Type) := List (Nat × Option (Content κ))

def DirtyObject.content (k : Scheme α κ) (dn : DirtyObject α) : Content κ :=
  (k.img dn.elem.data, dn.properties)

/-- The new version of `T`. -/
structure IsNew (T : Nat) (dn : DirtyObject α) : Prop where
  locked : dn.elem.txnId = T
  update : dn.updateMode = true
  bts : dn.elem.bts = T
  cts : dn.elem.cts = INF

/-- The tombstone of `T`. -/
structure IsTomb (T : Nat) (dn : DirtyObject α) : Prop where
  locked : dn.elem.txnId = T
  update : dn.updateMode = true
  bts : dn.elem.bts = T
  cts : dn.elem.cts = T

/-- The versions of the transaction that works on a live record. -/
inductive Own (T : Nat) : List (DirtyObject α) → Prop
  | nothing : Own T []
  | updated {n : DirtyObject α} (h : IsNew T n) : Own T [n]
  | deleted {d : DirtyObject α} (h : IsTomb T d) : Own T [d]
  | updatedDeleted {d n : DirtyObject α} (hd : IsTomb T d) (hn : IsNew T n) :
      Own T [d, n]

/-- What may stand behind them: copies kept for older readers, and the
tombstones of transactions that are gone. -/
inductive Past (k : Scheme α κ) (A : Nat → Prop) (top : Nat) (H : Hist κ)
    (bound owner : Nat) (dn : DirtyObject α) : Prop
  | kept (free : dn.elem.txnId = 0)
      (content : ∀ x, dn.elem.bts ≤ x → x < dn.elem.cts →
        Latest H x (dn.elem.bts, some (dn.content k)))
      (cts_le : dn.elem.cts ≤ bound) (cts_le_rts : dn.elem.cts ≤ dn.elem.rts)
      (cts_lt : dn.elem.cts < INF)
  | dead (locked : dn.elem.txnId ≠ 0) (other : dn.elem.txnId ≠ owner)
      (inactive : ¬ A dn.elem.txnId) (known : dn.elem.txnId ≤ top)
      (empty : dn.elem.bts = dn.elem.cts ∧ dn.elem.cts < INF)
      (update : dn.updateMode = true)

/-- The latest end of a kept copy: the transaction that has locked the slot
if there is one, otherwise the last reader. -/
def Record.bound (r : Record α) : Nat :=
  if r.obj.txnId = 0 then r.obj.rts else r.obj.txnId

/-- A slot that is not in use: its last record was deleted, before any
transaction that is still active. -/
structure Unused (A : Nat → Prop) (H : Hist κ) (r : Record α) : Prop where
  used : r.used = false
  list : r.dirtyList = []
  ended : ∀ e ∈ H.head?, e.2 = none
  before : ∀ e ∈ H, ∀ x, A x → e.1 < x

/-- A record that its transaction has just inserted. -/
structure Inserting (k : Scheme α κ) (A : Nat → Prop) (top : Nat) (H : Hist κ)
    (r : Record α) (dv : DirtyObject α) : Prop where
  used : r.used = true
  locked : r.obj.txnId ≠ 0
  known : r.obj.txnId ≤ top
  lt_inf : r.obj.txnId < INF
  bts : r.obj.bts = 0
  cts : r.obj.cts = INF
  pl : k.pl r.obj.data = UNKNOWN
  list : r.dirtyList = [dv]
  owner : dv.elem.txnId = r.obj.txnId
  insert : dv.updateMode = false
  dv_bts : dv.elem.bts = 0
  dv_cts : dv.elem.cts = INF
  ended : ∀ e ∈ H.head?, e.2 = none
  before : ∀ e ∈ H, e.1 < r.obj.txnId ∧ ∀ x, A x → e.1 < x

/-- A live record. `stored` is what the property table holds for a chain. -/
structure Live (k : Scheme α κ) (A : Nat → Prop) (top : Nat)
    (stored : Nat → Except Err (List PItem)) (H : Hist κ) (r : Record α)
    (own rest : List (DirtyObject α)) (items : List PItem) (H' : Hist κ) :
    Prop where
  used : r.used = true
  cts : r.obj.cts = INF
  holds : stored (k.pl r.obj.data) = .ok items
  head : H = (r.obj.bts, some (k.img r.obj.data, items)) :: H'
  list : r.dirtyList = own ++ rest
  owned : Own r.obj.txnId own
  past : ∀ dn ∈ rest, Past k A top H r.bound r.obj.txnId dn
  kept : own ≠ [] → ∃ o rest', rest = o :: rest' ∧ o.elem.txnId = 0 ∧
    o.elem.cts = r.obj.txnId ∧ o.elem.bts = r.obj.bts
  free : r.obj.txnId = 0 → own = []
  lock : r.obj.txnId ≠ 0 → r.obj.bts < r.obj.txnId ∧
    r.obj.txnId ≤ r.obj.rts ∧ r.obj.txnId ≤ top ∧ r.obj.txnId < INF

/-- A deleted record. Until all transactions that were active before the
delete are gone, a copy is kept that ends with the delete or later. -/
structure Deleted (k : Scheme α κ) (A : Nat → Prop) (top : Nat) (H : Hist κ)
    (r : Record α) (items : List PItem) (H' : Hist κ) : Prop where
  used : r.used = true
  locked : r.obj.txnId = 0
  cts_lt : r.obj.cts < INF
  head : H = (r.obj.cts, none) ::
    (r.obj.bts, some (k.img r.obj.data, items)) :: H'
  past : ∀ dn ∈ r.dirtyList, Past k A top H r.bound r.obj.txnId dn
  cts_le : r.obj.cts ≤ r.obj.rts
  kept : (∃ dn ∈ r.dirtyList, r.obj.cts ≤ dn.elem.cts) ∨
    ∀ x, A x → r.obj.cts < x

inductive Phase (k : Scheme α κ) (A : Nat → Prop) (top : Nat)
    (stored : Nat → Except Err (List PItem)) (H : Hist κ) (r : Record α) : Prop
  | unused (h : Unused A H r)
  | inserting {dv : DirtyObject α} (h : Inserting k A top H r dv)
  | live {own rest : List (DirtyObject α)} {items : List PItem} {H' : Hist κ}
      (h : Live k A top stored H r own rest items H')
  | deleted {items : List PItem} {H' : Hist κ} (h : Deleted k A top H r items H')

/-- The invariant of a record, where `A` are the active transactions and no
transaction is above `top`. -/
structure RecInv (k : Scheme α κ) (A : Nat → Prop) (top : Nat)
    (stored : Nat → Except Err (List PItem)) (H : Hist κ) (r : Record α) :
    Prop where
  sorted : Sorted H
  committed : ∀ e ∈ H, ¬ A e.1 ∧ e.1 ≤ top ∧ e.1 ≠ 0
  addr_lt : ∀ dn ∈ r.dirtyList, dn.addr < r.nextAddr
  addr_nodup : (r.dirtyList.map DirtyObject.addr).Nodup
  prepared : r.used = true → r.obj.prepared = true
  copies : ∀ dn ∈ r.dirtyList, dn.elem.prepared = true
  phase : Phase k A top stored H r

/-- What a reference that active transaction `T` holds may point to. Through
the slot, `T` can write only while nobody younger has read; a kept copy has
been read by the transaction that superseded it. -/
def RefOk (T : Nat) (r : Record α) : Loc → Prop
  | .slot => r.used = true ∧ r.obj.bts ≠ 0 ∧ T ≤ r.obj.rts ∧
      r.obj.bts ≤ r.obj.rts ∧
      (r.obj.cts = INF ∨ (T < r.obj.cts ∧ r.obj.cts ≤ r.obj.rts)) ∧
      (r.obj.txnId ≠ 0 → T ≤ r.obj.txnId)
  | .copy a => a < r.nextAddr ∧ ∀ dn ∈ r.dirtyList, dn.addr = a →
      dn.elem.txnId = T ∨ (dn.elem.txnId = 0 ∧ T < dn.elem.rts)

/-- Active transaction `T` has read version `e`, and the store will not let
anybody change what `T` sees. -/
structure Seen (T : Nat) (e : Nat × Option (Content κ)) (H : Hist κ)
    (r : Record α) : Prop where
  latest : Latest H T e
  content : e.2 ≠ none
  used : r.used = true
  rts : T ≤ r.obj.rts
  lock : r.obj.txnId = 0 ∨ T ≤ r.obj.txnId

/-- The latest version of `T` itself. -/
structure Front (T : Nat) (dn : DirtyObject α) (r : Record α) : Prop where
  ne_zero : T ≠ 0
  used : r.used = true
  locked : r.obj.txnId = T
  front : r.dirtyList.head? = some dn
  owner : dn.elem.txnId = T

/-! ## Small facts -/

section Facts

variable {k : Scheme α κ} {A A' : Nat → Prop} {top top' : Nat}
  {stored stored' : Nat → Except Err (List PItem)} {H : Hist κ}
  {r : Record α} {dn : DirtyObject α} {bound bound' owner : Nat}

theorem Past.mono (h : Past k A top H bound owner dn) (hA : ∀ x, A' x → A x)
    (htop : top ≤ top') (hb : bound ≤ bound') :
    Past k A' top' H bound' owner dn := by
  cases h with
  | kept free content h1 h2 h3 =>
      exact .kept free content (Nat.le_trans h1 hb) h2 h3
  | dead h1 h2 h3 h4 h5 h6 =>
      exact .dead h1 h2 (fun h => h3 (hA _ h)) (Nat.le_trans h4 htop) h5 h6

/-- A version on top of the history does not concern what ended before. -/
theorem Past.commit (h : Past k A top H bound owner dn)
    {e : Nat × Option (Content κ)} (hb : bound ≤ e.1) :
    Past k A top (e :: H) bound owner dn := by
  cases h with
  | kept free content h1 h2 h3 =>
      refine .kept free (fun x hx hx' => ?_) h1 h2 h3
      exact (latest_cons_iff (by omega)).mpr (content x hx hx')
  | dead h1 h2 h3 h4 h5 h6 => exact .dead h1 h2 h3 h4 h5 h6

/-- Only the transaction that owns the slot may become another one. -/
theorem Past.changeOwner {owner' : Nat} (h : Past k A top H bound owner dn)
    (ho : ∀ T, T ≠ 0 → T ≠ owner → ¬ A T → T ≠ owner') :
    Past k A top H bound owner' dn := by
  cases h with
  | kept free content h1 h2 h3 => exact .kept free content h1 h2 h3
  | dead h1 h2 h3 h4 h5 h6 => exact .dead h1 (ho _ h1 h2 h3) h3 h4 h5 h6

theorem Past.ne_owner (h : Past k A top H bound owner dn) (ho : owner ≠ 0) :
    dn.elem.txnId ≠ owner := by
  cases h with
  | kept free _ _ _ _ => rw [free]; exact ho.symm
  | dead _ h2 _ _ _ _ => exact h2

theorem Own.locked {T : Nat} {own : List (DirtyObject α)} (h : Own T own) :
    ∀ dn ∈ own, dn.elem.txnId = T := by
  cases h with
  | nothing => simp
  | updated h => simpa using h.locked
  | deleted h => simpa using h.locked
  | updatedDeleted hd hn => simpa using ⟨hd.locked, hn.locked⟩

theorem Live.bts_mem {own rest : List (DirtyObject α)} {items : List PItem}
    {H' : Hist κ} (h : Live k A top stored H r own rest items H') :
    (r.obj.bts, some (k.img r.obj.data, items)) ∈ H := by
  rw [h.head]
  exact List.mem_cons_self ..

theorem Live.bts_ne_zero {own rest : List (DirtyObject α)} {items : List PItem}
    {H' : Hist κ} (h : Live k A top stored H r own rest items H')
    (hr : RecInv k A top stored H r) : r.obj.bts ≠ 0 :=
  (hr.committed _ h.bts_mem).2.2

/-- The copy that the owner of a live record has kept is the version in the
slot. -/
theorem Live.kept_properties {own rest : List (DirtyObject α)} {items : List PItem}
    {H' : Hist κ} (h : Live k A top stored H r own rest items H')
    (hr : RecInv k A top stored H r) (hown : own ≠ []) :
    ∃ o rest', rest = o :: rest' ∧ o.properties = items := by
  obtain ⟨o, rest', hrest, hfree, hcts, hbts⟩ := h.kept hown
  have hlock : r.obj.txnId ≠ 0 := fun h0 => hown (h.free h0)
  have hlt := (h.lock hlock).1
  refine ⟨o, rest', hrest, ?_⟩
  cases h.past o (by rw [hrest]; exact List.mem_cons_self ..) with
  | dead locked _ _ _ _ _ => exact absurd hfree locked
  | kept _ content _ _ _ =>
      have hsorted := hr.sorted
      have hc := content r.obj.bts (Nat.le_of_eq hbts) (by omega)
      have hhead : Latest H r.obj.bts (r.obj.bts, some (k.img r.obj.data, items)) := by
        rw [h.head] at hsorted ⊢
        exact latest_head hsorted (Nat.le_refl _)
      have heq := hc.unique hsorted hhead
      simp only [Prod.mk.injEq, Option.some.injEq, DirtyObject.content] at heq
      exact heq.2.2

/-- A transaction that is active, or that still holds the slot, finds its
own versions first. -/
theorem Live.getDirtyVersion {own rest : List (DirtyObject α)}
    {items : List PItem} {H' : Hist κ}
    (h : Live k A top stored H r own rest items H') (hT : r.obj.txnId ≠ 0) :
    r.getDirtyVersion r.obj.txnId = own.head? := by
  rw [Record.getDirtyVersion, h.list]
  cases hown : own with
  | nil =>
      simp only [List.nil_append, List.head?_nil]
      refine List.find?_eq_none.mpr fun dn hdn => ?_
      simpa using (h.past dn hdn).ne_owner hT
  | cons d own' =>
      have hd := h.owned.locked d (by rw [hown]; exact List.mem_cons_self ..)
      simp [hd]

/-- Addresses tell the dirty objects of a record apart. -/
theorem RecInv.deref_copy (h : RecInv k A top stored H r)
    (hdn : dn ∈ r.dirtyList) : r.deref (.copy dn.addr) = some dn.elem := by
  have find : ∀ l : List (DirtyObject α), (l.map DirtyObject.addr).Nodup →
      dn ∈ l → l.find? (fun d => d.addr = dn.addr) = some dn := by
    intro l
    induction l with
    | nil => intro _ hm; cases hm
    | cons d l ih =>
        intro hnd hm
        rw [List.map_cons, List.nodup_cons] at hnd
        rw [List.find?_cons]
        by_cases hd : d.addr = dn.addr
        · rcases List.mem_cons.mp hm with rfl | hm
          · simp
          · exact absurd (List.mem_map.mpr ⟨dn, hm, hd.symm⟩) hnd.1
        · rcases List.mem_cons.mp hm with rfl | hm
          · exact absurd rfl hd
          · simp only [hd, decide_false]
            exact ih hnd.2 hm
  rw [Record.deref, find r.dirtyList h.addr_nodup hdn]
  rfl

theorem IsNew.findValid {T : Nat} (h : IsNew T dn) (hT : T < INF)
    (hp : dn.elem.prepared = true) (l : List (DirtyObject α)) :
    Record.findValidLoop T false (dn :: l) = .ok dn := by
  have hv : dn.elem.isValidFor T = true := by
    rw [Obj.isValidFor_iff hp, h.bts, h.cts]
    exact ⟨Nat.le_refl _, hT⟩
  rw [Record.findValidLoop, if_pos (Obj.mayRead_iff.mpr (.inr h.locked)),
    if_pos hv]

/-- A transaction does not find what it has deleted. -/
theorem IsTomb.findValid {T : Nat} (h : IsTomb T dn)
    (hp : dn.elem.prepared = true) (l : List (DirtyObject α)) :
    Record.findValidLoop T false (dn :: l) = .error .unknownId := by
  have hv : ¬ dn.elem.isValidFor T = true := by
    rw [Obj.isValidFor_iff hp, h.bts, h.cts]
    omega
  have hd : (dn.elem.isLockedBy T && dn.elem.bts == dn.elem.cts) = true := by
    simp [Obj.isLockedBy, h.locked, h.bts, h.cts]
  rw [Record.findValidLoop, if_pos (Obj.mayRead_iff.mpr (.inr h.locked)),
    if_neg hv, if_pos hd]

/-- A transaction that has versions of its own reads the first of them. -/
theorem Live.findValid_own {own rest : List (DirtyObject α)}
    {items : List PItem} {H' : Hist κ}
    (h : Live k A top stored H r own rest items H')
    (hr : RecInv k A top stored H r) (hT : r.obj.txnId ≠ 0) (hown : own ≠ [])
    (hok : r.findValidVersion r.obj.txnId = .ok dn) :
    r.dirtyList.head? = some dn ∧ IsNew r.obj.txnId dn := by
  have hlt := (h.lock hT).2.2.2
  have hcopies := hr.copies
  rw [Record.findValidVersion] at hok
  have hlist := h.list
  cases h.owned with
  | nothing => exact absurd rfl hown
  | @updated n hn =>
      rw [hlist] at hok hcopies ⊢
      rw [List.singleton_append, hn.findValid hlt (hcopies n (by simp))] at hok
      cases hok
      exact ⟨rfl, hn⟩
  | @deleted d hd =>
      rw [hlist] at hok hcopies
      rw [List.singleton_append, hd.findValid (hcopies d (by simp))] at hok
      cases hok
  | @updatedDeleted d n hd hn =>
      rw [hlist] at hok hcopies
      rw [List.cons_append, hd.findValid (hcopies d (by simp))] at hok
      cases hok

/-! ## What a read returns -/

/-- The committed version that a read by `R` at location `l` returns, and
what protects it. -/
structure ReadsCommitted (k : Scheme α κ)
    (stored : Nat → Except Err (List PItem)) (H : Hist κ) (r : Record α)
    (R : Nat) (l : Loc) (o : Obj α) (c : Content κ) : Prop where
  deref : r.deref l = some o
  latest : Latest H R (o.bts, some c)
  img : k.img o.data = c.1
  inTable : l = .slot → o.cts = INF → stored (k.pl o.data) = .ok c.2
  inCopy : ∀ a, l = .copy a → ∃ dn ∈ r.dirtyList, dn.addr = a ∧
    dn.elem = o ∧ dn.properties = c.2
  notOwn : ∀ dn, ¬ Front R dn r
  free : o.txnId = 0
  lock : r.obj.txnId = 0 ∨ R ≤ r.obj.txnId
  slot : l = .slot → r.obj.txnId = 0 ∧ r.obj.bts ≤ R ∧ R < r.obj.cts
  copy : ∀ a, l = .copy a → R < o.rts
  valid : o.bts ≤ R ∧ R < o.cts

theorem Past.reads {R : Nat} (h : RecInv k A top stored H r) (hA : A R)
    (hdn : dn ∈ r.dirtyList) (hp : Past k A top H r.bound r.obj.txnId dn)
    (hmay : dn.elem.txnId = 0 ∨ dn.elem.txnId = R)
    (hv : dn.elem.isValidFor R = true) (hown : ∀ d, ¬ Front R d r) :
    ReadsCommitted k stored H r R (.copy dn.addr) dn.elem (dn.content k) := by
  have hiv := (Obj.isValidFor_iff (h.copies dn hdn)).mp hv
  cases hp with
  | dead hl _ hina _ _ _ =>
      rcases hmay with h0 | hR
      · exact absurd h0 hl
      · exact absurd (hR ▸ hA) hina
  | kept free content hb hrts _ =>
      refine ⟨h.deref_copy hdn, content R hiv.1 hiv.2, rfl, nofun, ?_, hown,
        free, ?_, nofun, ?_, hiv⟩
      · rintro a ⟨⟩; exact ⟨dn, hdn, rfl, rfl, rfl⟩
      · simp only [Record.bound] at hb
        split at hb
        · next h0 => exact .inl h0
        · exact .inr (by omega)
      · intro _ _; omega

/-- A read that returns gives the reader its own latest version, or the
version that the history says. -/
theorem RecInv.read {R : Nat} {l : Loc} (h : RecInv k A top stored H r)
    (hu : r.used = true) (hA : A R) (hR : R ≠ 0)
    (hv : r.getValidVersion R = .ok l) :
    (∃ dn, Front R dn r ∧ l = .copy dn.addr ∧ dn.elem.cts = INF) ∨
      ∃ o c, ReadsCommitted k stored H r R l o c := by
  rcases (Record.getValidVersion_ok_iff hR).mp hv with
    ⟨h0, hval, rfl⟩ | ⟨_, dn, hdn, rfl⟩
  · -- the slot
    have hiv := (Obj.isValidFor_iff (h.prepared hu)).mp hval
    have hnot : ∀ d, ¬ Front R d r := fun d hf => hR (hf.locked.symm.trans h0)
    refine .inr ⟨r.obj, ?_⟩
    cases h.phase with
    | unused hp => rw [hp.used] at hu; cases hu
    | inserting hp => exact absurd h0 hp.locked
    | @live own rest items H' hp =>
        refine ⟨(k.img r.obj.data, items), rfl, ?_, rfl, fun _ _ => hp.holds,
          nofun, hnot, h0, .inl h0, fun _ => ⟨h0, hiv⟩, nofun, hiv⟩
        have hs := h.sorted
        rw [hp.head] at hs ⊢
        exact latest_head hs hiv.1
    | @deleted items H' hp =>
        refine ⟨(k.img r.obj.data, items), rfl, ?_, rfl, ?_, nofun, hnot, h0,
          .inl h0, fun _ => ⟨h0, hiv⟩, nofun, hiv⟩
        · have hs := h.sorted
          rw [hp.head] at hs ⊢
          exact (latest_cons_iff hiv.2).mpr (latest_head hs.tail hiv.1)
        · intro _ hc
          have := hp.cts_lt
          omega
  · -- a copy
    obtain ⟨hmem, hmay, hval⟩ := Record.findValidLoop_ok hdn
    cases h.phase with
    | unused hp => rw [hp.used] at hu; cases hu
    | @inserting dv hp =>
        left
        rw [hp.list, List.mem_singleton] at hmem
        subst hmem
        have hlock : dn.elem.txnId = R := by
          rcases hmay with h0 | hR'
          · exact absurd (hp.owner.symm.trans h0) hp.locked
          · exact hR'
        refine ⟨dn, ⟨hR, hu, hp.owner.symm.trans hlock, ?_, hlock⟩, rfl,
          hp.dv_cts⟩
        rw [hp.list]
        rfl
    | @live own rest items H' hp =>
        by_cases hown : r.obj.txnId = R ∧ own ≠ []
        · obtain ⟨hR', hne⟩ := hown
          subst hR'
          obtain ⟨hhead, hnew⟩ := hp.findValid_own h hR hne hdn
          exact .inl ⟨dn, ⟨hR, hu, rfl, hhead, hnew.locked⟩, rfl, hnew.cts⟩
        · have hnot : ∀ d, ¬ Front R d r := by
            intro d hf
            refine hown ⟨hf.locked, fun hnil => ?_⟩
            have hfr := hf.front
            rw [hp.list, hnil, List.nil_append] at hfr
            have hd := hp.past d (List.mem_of_mem_head? hfr)
            exact hd.ne_owner (by rw [hf.locked]; exact hR)
              (hf.owner.trans hf.locked.symm)
          refine .inr ⟨dn.elem, dn.content k, ?_⟩
          refine Past.reads h hA hmem ?_ hmay hval hnot
          have hmem' := hmem
          rw [hp.list, List.mem_append] at hmem'
          rcases hmem' with ho | hrest
          · exfalso
            have hlk := hp.owned.locked dn ho
            rcases hmay with h0 | hR'
            · rw [hp.free (hlk.symm.trans h0)] at ho
              cases ho
            · refine hown ⟨hlk.symm.trans hR', ?_⟩
              intro hnil
              rw [hnil] at ho
              cases ho
          · exact hp.past dn hrest
    | @deleted items H' hp =>
        have hnot : ∀ d, ¬ Front R d r :=
          fun d hf => hR (hf.locked.symm.trans hp.locked)
        exact .inr ⟨dn.elem, dn.content k,
          Past.reads h hA hmem (hp.past dn hmem) hmay hval hnot⟩

/-! ## The front version -/

variable {T : Nat} {H' : Hist κ}

theorem Front.getDirtyVersion {dn : DirtyObject α} (h : Front T dn r) :
    r.getDirtyVersion T = some dn := by
  have hf := h.front
  rw [Record.getDirtyVersion]
  cases hl : r.dirtyList with
  | nil => rw [hl] at hf; cases hf
  | cons d l =>
      rw [hl] at hf
      cases hf
      simp [h.owner]

theorem Front.list {dn : DirtyObject α} (h : Front T dn r) :
    ∃ tl, r.dirtyList = dn :: tl := by
  have hf := h.front
  cases hl : r.dirtyList with
  | nil => rw [hl] at hf; cases hf
  | cons d tl =>
      rw [hl] at hf
      cases hf
      exact ⟨tl, rfl⟩

theorem Front.unique {dn d : DirtyObject α} (h : Front T dn r) (h' : Front T d r) :
    dn = d := Option.some.inj (h.front.symm.trans h'.front)

theorem Live.no_front {rest : List (DirtyObject α)} {items : List PItem}
    (hl : Live k A top stored H r [] rest items H') (dn : DirtyObject α) :
    ¬ Front T dn r := by
  intro hf
  have hfr := hf.front
  rw [hl.list, List.nil_append] at hfr
  have hd := hl.past dn (List.mem_of_mem_head? hfr)
  exact hd.ne_owner (by rw [hf.locked]; exact hf.ne_zero)
    (hf.owner.trans hf.locked.symm)

theorem Live.front_own {d : DirtyObject α} {own rest : List (DirtyObject α)}
    {items : List PItem} (hl : Live k A top stored H r (d :: own) rest items H')
    (hown : r.obj.txnId = T) (hT : T ≠ 0) : Front T d r := by
  refine ⟨hT, hl.used, hown, by rw [hl.list]; rfl, ?_⟩
  rw [hl.owned.locked d (List.mem_cons_self ..), hown]

/-- A version that carries the lock of an active transaction is one of the
versions in front. -/
theorem RecInv.front_of_mem {dn : DirtyObject α} (h : RecInv k A top stored H r)
    (hA : A T) (hT : T ≠ 0) (hdn : dn ∈ r.dirtyList) (hlock : dn.elem.txnId = T) :
    ∃ d, Front T d r := by
  have hpast : ∀ {b o}, ¬ Past k A top H b o dn := by
    intro b o hp
    cases hp with
    | kept h0 _ _ _ _ => exact hT (hlock.symm.trans h0)
    | dead _ _ hina _ _ _ => exact hina (hlock.symm ▸ hA)
  cases h.phase with
  | unused hp => rw [hp.list] at hdn; cases hdn
  | @inserting dv hp =>
      rw [hp.list, List.mem_singleton] at hdn
      subst hdn
      exact ⟨dn, hT, hp.used, hp.owner.symm.trans hlock, by rw [hp.list]; rfl, hlock⟩
  | @live own rest items H₁ hp =>
      rw [hp.list, List.mem_append] at hdn
      rcases hdn with hdn | hdn
      · have hown := hp.owned.locked dn hdn
        cases own with
        | nil => cases hdn
        | cons d own => exact ⟨d, hp.front_own (hown.symm.trans hlock) hT⟩
      · exact absurd (hp.past dn hdn) hpast
  | deleted hp => exact absurd (hp.past dn hdn) hpast

/-- The record that a transaction has versions of: inserted or live. -/
theorem RecInv.front_cases {dn : DirtyObject α} (h : RecInv k A top stored H r)
    (hf : Front T dn r) : Inserting k A top H r dn ∨
      ∃ own rest items H', Live k A top stored H r (dn :: own) rest items H' := by
  cases h.phase with
  | unused hp => have := hf.used; rw [hp.used] at this; cases this
  | inserting hp =>
      have hfr := hf.front
      rw [hp.list] at hfr
      cases hfr
      exact .inl hp
  | @live own rest items H₁ hp =>
      cases own with
      | nil => exact absurd hf (hp.no_front dn)
      | cons d own =>
          have heq := hf.unique (hp.front_own hf.locked hf.ne_zero)
          subst heq
          exact .inr ⟨own, rest, items, H₁, hp⟩
  | deleted hp => exact absurd (hf.locked.symm.trans hp.locked) hf.ne_zero

/-- A record in use that has ended is deleted. -/
theorem RecInv.deleted_of_ended (h : RecInv k A top stored H r) (hu : r.used = true)
    (hc : r.obj.cts ≠ INF) : ∃ items H', Deleted k A top H r items H' := by
  cases h.phase with
  | unused hp => rw [hp.used] at hu; cases hu
  | inserting hp => exact absurd hp.cts hc
  | live hp => exact absurd hp.cts hc
  | deleted hp => exact ⟨_, _, hp⟩

end Facts

end Poseidon
