import Poseidon.Proofs.Calls

/-!
# Commit

`commit_transaction` visits the records of the transaction's dirty lists one
after the other. A record that was updated and then deleted is in the list
twice, and the first visit leaves the new version, unlocked, in front of the
copies; only the second visit drops it. The loop invariant `Committing`
therefore speaks of the records as they are after such a visit
(`Record.settled`), and says which records are still to be visited.
-/

namespace Poseidon

open Wp History

variable {α κ β : Type}

/-! ## Records between two visits -/

/-- The record after a further visit of the commit loop. -/
def Record.settled (r : Record α) : Record α :=
  if r.obj.cts ≠ INF then r.removeDirtyVersion 0 else r

theorem Record.settled_live {r : Record α} (h : r.obj.cts = INF) : r.settled = r := by
  rw [Record.settled, if_neg (by simpa using h)]

theorem Record.settled_ended {r : Record α} (h : r.obj.cts ≠ INF) :
    r.settled = r.removeDirtyVersion 0 := if_pos h

theorem Record.settled_obj (r : Record α) : r.settled.obj = r.obj := by
  rw [Record.settled]
  split <;> rfl

theorem Record.settled_used (r : Record α) : r.settled.used = r.used := by
  rw [Record.settled]
  split <;> rfl

theorem Record.settled_settled (r : Record α) : r.settled.settled = r.settled := by
  by_cases h : r.obj.cts = INF
  · rw [Record.settled_live h, Record.settled_live h]
  · have h' : r.settled.obj.cts ≠ INF := by
      rw [Record.settled_obj]
      exact h
    rw [Record.settled_ended h', Record.settled_ended h]
    simp only [Record.removeDirtyVersion, List.filter_filter, Bool.and_self]

section Records

variable {k : Scheme α κ} {A : Nat → Prop} {top T oldest : Nat}
  {stored : Nat → Except Err (List PItem)} {H H' : Hist κ} {r r' : Record α}

/-- Nothing that stands behind the versions of a transaction is dropped. -/
theorem Past.settle {b o : Nat} {l : List (DirtyObject α)}
    (h : ∀ dn ∈ l, Past k A top H b o dn) :
    l.filter (fun dn => !(dn.elem.txnId = 0 && dn.elem.cts = INF)) = l := by
  refine List.filter_eq_self.mpr fun dn hdn => ?_
  cases h dn hdn with
  | kept h0 _ _ _ hlt =>
      have hne : dn.elem.cts ≠ INF := by omega
      simp [hne]
  | dead h0 _ _ _ _ _ => simp [h0]

/-- The copy behind the versions of a transaction is not locked, so to
unlock it changes nothing. -/
theorem Live.kept_unlock {d : DirtyObject α} {own rest : List (DirtyObject α)}
    {items : List PItem} (hl : Live k A top stored H r (d :: own) rest items H') :
    ∃ o rest', rest = o :: rest' ∧ { o with elem := o.elem.unlock } = o := by
  obtain ⟨o, rest', hrest, h0, _⟩ := hl.kept (by simp)
  refine ⟨o, rest', hrest, ?_⟩
  rw [Obj.unlock, ← h0]

theorem Record.popUnlock_eq {d o : DirtyObject α} {l : List (DirtyObject α)}
    (h : r.dirtyList = d :: o :: l) :
    r.popUnlock = .ok { r with dirtyList := { o with elem := o.elem.unlock } :: l } := by
  rw [Record.popUnlock, h]

end Records

/-! ## Changes of one slot -/

section Views

variable {t : Table α} (v : View t κ β)

/-- The slot `id` now holds `r`, the property table is `p` and the garbage
`G`; all else is as before. -/
structure View.Put (id : Nat) (r : Record α) (p : PropertyList) (G : List GcItem)
    (s s' : GraphDb) : Prop where
  record : ∀ i, t.record s' i = if i = id then r else t.record s i
  props : t.props s' = p
  garbage : s'.garbage = G
  txs : s'.txs = s.txs
  activeTx : s'.activeTx = s.activeTx
  oldestXid : s'.oldestXid = s.oldestXid
  rest : v.rest s' = v.rest s

variable {v} {id top T : Nat} {r r' : Record α} {p p' : PropertyList}
  {G G' : List GcItem} {s s' s'' : GraphDb}

theorem View.Put.self (h : v.Put id r p G s s') : t.record s' id = r := by
  rw [h.record, if_pos rfl]

theorem View.Put.congr (h : v.Put id r p G s s') (hr : r = r') :
    v.Put id r' p G s s' := hr ▸ h

theorem View.Put.trans (h : v.Put id r p G s s') (h' : v.Put id r' p' G' s' s'') :
    v.Put id r' p' G' s s'' := by
  refine ⟨fun i => ?_, h'.props, h'.garbage, h'.txs.trans h.txs,
    h'.activeTx.trans h.activeTx, h'.oldestXid.trans h.oldestXid, h'.rest.trans h.rest⟩
  rw [h'.record, h.record]
  split <;> rfl

theorem View.put_setRecord (v : View t κ β) (id : Nat) (r : Record α) (s : GraphDb) :
    v.Put id r (t.props s) s.garbage s (t.setRecord id r s) := by
  have hs := v.same_setRecord id r s
  exact ⟨v.record_setRecord id r s, v.props_setRecord id r s, hs.garbage,
    v.txs_setRecord id r s, hs.activeTx, hs.oldestXid, v.rest_setRecord id r s⟩

theorem View.put_modifyObj (v : View t κ β) (id : Nat) (f : Obj α → Obj α)
    (s : GraphDb) :
    v.Put id { t.record s id with obj := f (t.record s id).obj } (t.props s) s.garbage
      s (t.modifyObj id f s) := v.put_setRecord id _ s

theorem View.put_setProps (v : View t κ β) (id : Nat) (p : PropertyList)
    (s : GraphDb) : v.Put id (t.record s id) p s.garbage s (t.setProps p s) := by
  have hs := v.same_setProps p s
  refine ⟨fun i => ?_, v.props_setProps p s, hs.garbage, v.txs_setProps p s,
    hs.activeTx, hs.oldestXid, v.rest_setProps p s⟩
  rw [v.record_setProps]
  split
  · next hi => rw [hi]
  · rfl

theorem View.put_refl (v : View t κ β) (id : Nat) (s : GraphDb) :
    v.Put id (t.record s id) (t.props s) s.garbage s s := by
  refine ⟨fun i => ?_, rfl, rfl, rfl, rfl, rfl, rfl⟩
  split
  · next hi => rw [hi]
  · rfl

theorem Table.wp_onProps {γ : Type} {x : EStateM Err PropertyList γ}
    {Q : γ → PropertyList → Prop} {Q' : γ → GraphDb → Prop} {E : Err → GraphDb → Prop}
    (hx : wp x Q (fun _ _ => False) (t.props s))
    (hQ : ∀ b p, Q b p → Q' b (t.setProps p s)) : wp (t.onProps x) Q' E s := by
  simp only [wp] at hx
  simp only [Table.onProps, wp]
  cases hr : x (t.props s) with
  | ok b p =>
      rw [hr] at hx
      exact hQ b p hx
  | error e p =>
      rw [hr] at hx
      exact hx.elim

/-- What `copy_properties` leaves: the chain `pl` holds the properties of the
version, and no more sets than they need. -/
structure Copied (t : Table α) (id : Nat) (dn : DirtyObject α) (p : PropertyList)
    (pl : Nat) (p' : PropertyList) (ids : List Nat) : Prop where
  chain : p'.Chain id pl ids
  fits : ids.length ≤ (triples (p'.cells ids)).length
  frame : PropertyList.Frame id p p'
  bounded : p'.Bounded
  items : (p'.cells ids).Perm dn.properties

theorem Copied.of_rewritten {dn : DirtyObject α} {pl : Nat} {ids : List Nat}
    (hk : Keyed dn.properties) (hlen : ids.length = (triples dn.properties).length)
    (hr : PropertyList.Rewritten p id pl ids (PropertyList.keyed dn.properties) p') :
    Copied t id dn p pl p' ids := by
  have hperm := hr.items
  rw [PropertyList.keyed_eq hk] at hperm
  refine ⟨hr.chain, ?_, hr.frame, hr.bounded, hperm⟩
  exact Nat.le_of_eq (by rw [hlen, triples_length, triples_length, hperm.length_eq])

theorem Table.copyProperties_spec {dn : DirtyObject α} {ids : List Nat}
    (hb : (t.props s).Bounded) (hk : Keyed dn.properties)
    (hch : (t.props s).Chain id (t.propertyList (t.record s id).obj.data) ids)
    (hroom : ids.length ≤ (triples dn.properties).length) (v : View t κ β)
    (hself : ∀ d, t.setPropertyList (t.propertyList d) d = d) :
    wp (t.copyProperties id dn) (fun _ s' => ∃ pl p' ids',
      Copied t id dn (t.props s) pl p' ids' ∧
      v.Put id { t.record s id with obj := { (t.record s id).obj with
        data := t.setPropertyList pl (t.record s id).obj.data } } p' s.garbage s s')
      (fun _ _ => False) s := by
  simp only [Table.copyProperties]
  refine wp_ite (fun hempty => ?_) (fun _ => ?_)
  · -- nothing to copy: the chain is empty already
    have hnil : dn.properties = [] := List.isEmpty_iff.mp hempty
    have hids : ids = [] := by
      rw [hnil] at hroom
      exact List.length_eq_zero_iff.mp (Nat.le_zero.mp hroom)
    subst hids
    rw [wp_pure]
    refine ⟨_, t.props s, [], ⟨hch, Nat.zero_le _, PropertyList.Frame.refl _ _, hb, ?_⟩, ?_⟩
    · rw [hnil]
      exact List.Perm.refl _
    · rw [hself]
      exact v.put_refl id s
  · simp only [wp_bind, wp_get]
    have hend : ∀ pl p' ids', Copied t id dn (t.props s) pl p' ids' → ∀ s1,
        v.Put id (t.record s id) p' s.garbage s s1 →
        ∃ pl' p'' ids'', Copied t id dn (t.props s) pl' p'' ids'' ∧
          v.Put id { t.record s id with obj := { (t.record s id).obj with
            data := t.setPropertyList pl' (t.record s id).obj.data } } p'' s.garbage s
            (t.modifyObj id (fun o => { o with data := t.setPropertyList pl o.data }) s1) := by
      intro pl p' ids' hc s1 hput
      refine ⟨pl, p', ids', hc, hput.trans ?_⟩
      have hm := v.put_modifyObj id
        (fun o => { o with data := t.setPropertyList pl o.data }) s1
      rw [hput.self, hput.props, hput.garbage] at hm
      exact hm
    refine wp_ite (fun hup => ?_) (fun hup => ?_)
    · simp only [wp_bind, wp_get, wp_ofExcept, hch.foreachPropertySet, wp_modify]
      refine ⟨fun _ _ => ?_, fun _ he => (by cases he)⟩
      refine Table.wp_onProps (PropertyList.updatePitems_spec hch hb hroom) ?_
      rintro pl p' ⟨ids', hlen, hr⟩
      exact hend pl p' ids' (Copied.of_rewritten hk hlen hr) _ (v.put_setProps id p' s)
    · rw [wp_bind]
      obtain ⟨ids', hlen, hr⟩ := PropertyList.addPitems_spec hb id dn.properties
      refine Table.wp_onProps (Q := fun pl p' => pl = _ ∧ p' = _) ⟨rfl, rfl⟩ ?_
      rintro pl p' ⟨h1, h2⟩
      rw [wp_modify, h1, h2]
      exact hend _ _ ids' (Copied.of_rewritten hk hlen hr) _ (v.put_setProps id _ s)

/-! ## The loop invariant -/

/-- What a commit on behalf of one slot leaves of the others. -/
theorem SlotInv.frame {k : Scheme α κ} {A : Nat → Prop} {H : Hist κ}
    {n : Nat → Nat} {g : Prop} {i : Nat} (h : SlotInv k A top H p n g i r)
    (hf : PropertyList.Frame id p p') (hi : i ≠ id) :
    SlotInv k A top H p' n g i r := by
  refine ⟨h.record.congrStored fun h1 h2 h3 => ?_, h.keyed, fun h1 h2 h3 => ?_,
    h.dirty, h.trash, h.named⟩
  · obtain ⟨ids, hb⟩ := h.backed h1 h2 h3
    obtain ⟨hc, hcells⟩ := hb.chain.frame hf hi
    rw [hc.buildDirtyPropertyList, hb.chain.buildDirtyPropertyList, hcells]
  · obtain ⟨ids, hb⟩ := h.backed h1 h2 h3
    obtain ⟨hc, hcells⟩ := hb.chain.frame hf hi
    exact ⟨ids, hc, hcells ▸ hb.keyed, hcells ▸ hb.fits, hb.room⟩

/-- What a commit of `T` makes of a record: a tombstone ends it, another
version is published with its properties. `F` says what its fields are. -/
def Outcome (F : Record α → DirtyObject α → κ) (T : Nat) (r : Record α)
    (c : Option (Content κ)) : Prop :=
  ∃ dn, Front T dn r ∧ (dn.elem.cts ≠ INF → c = none) ∧
    (dn.elem.cts = INF → ∃ items, items.Perm dn.properties ∧ c = some (F r dn, items))

/-- A record that the loop has still to visit: it was deleted by an earlier
visit, or it is as it was before the loop, and the transaction has versions
of it. -/
inductive Pending (F : Record α → DirtyObject α → κ) (n T : Nat) (H Hc : Hist κ)
    (r₀ r : Record α) : Prop
  | again (hu : r.used = true) (hc : r.obj.cts ≠ INF)
      (hist : ∃ c, Hc = (T, c) :: H ∧ Outcome F T r₀ c)
  | first {dn : DirtyObject α} (hf : Front T dn r) (hc : Coherent n T r)
      (hcts : r.obj.cts = INF) (hist : Hc = H) (same : r = r₀)

variable (v)

/-- The loop of a commit by `T` that began in `s0` with the histories `H`:
the slots in `rem` are still to be visited, and the histories are now
`Hc`. -/
structure View.Committing (F : Record α → DirtyObject α → κ) (top T : Nat)
    (H : Nat → Hist κ) (s0 : GraphDb) (rem : List Nat) (Hc : Nat → Hist κ)
    (s : GraphDb) : Prop where
  bounded : (t.props s).Bounded
  garbage : (garbageOf t.gcType s).Nodup
  slots : ∀ id, SlotInv v.scheme (· ∈ s.activeTx) top (Hc id) (t.props s)
    (fun x => (v.dirty (s.txs x)).count id) (id ∈ garbageOf t.gcType s) id
    (t.record s id).settled
  ends : ∀ id, Ends (· ∈ s.activeTx) T (H id) (t.record s0 id) (Hc id)
    (t.record s id).settled
  whole : ∀ id, id ∉ rem → (t.record s id).settled = t.record s id
  pending : ∀ id ∈ rem, Pending F (rem.count id) T (H id) (Hc id) (t.record s0 id)
    (t.record s id)
  visited : ∀ id ∈ v.dirty (s0.txs T), id ∉ rem →
    ∃ c, Hc id = (T, c) :: H id ∧ Outcome F T (t.record s0 id) c
  other : ∀ id, id ∉ v.dirty (s0.txs T) → Hc id = H id
  mem : ∀ id ∈ rem, id ∈ v.dirty (s0.txs T)
  txs : s.txs = s0.txs
  activeTx : s.activeTx = s0.activeTx
  oldestXid : s.oldestXid = s0.oldestXid
  rest : v.rest s = v.rest s0
  garbage_other : ∀ ty, ty ≠ t.gcType → garbageOf ty s = garbageOf ty s0

/-- What a visit of `id` does to the histories: the record has its new version,
which stays when the record is visited again. -/
structure Visit (F : Record α → DirtyObject α → κ) (T : Nat) (H : Nat → Hist κ)
    (r₀ : Record α) (id : Nat) (Hc Hc' : Nat → Hist κ) : Prop where
  self : ∃ c, Hc' id = (T, c) :: H id ∧ Outcome F T r₀ c
  again : Hc id ≠ H id → Hc' id = Hc id
  other : ∀ i, i ≠ id → Hc' i = Hc i

variable {v} {F : Record α → DirtyObject α → κ} {H Hc : Nat → Hist κ} {s0 : GraphDb}
  {rem : List Nat}

theorem Visit.update {r₀ : Record α} {m : Hist κ}
    (hist : ∃ c, m = (T, c) :: H id ∧ Outcome F T r₀ c) (again : Hc id ≠ H id → m = Hc id) :
    Visit F T H r₀ id Hc fun i => if i = id then m else Hc i := by
  refine ⟨?_, fun hne => ?_, fun i hi => if_neg hi⟩
  · rw [if_pos rfl]
    exact hist
  · rw [if_pos rfl]
    exact again hne

/-! ## One visit -/

section Slots

variable {k : Scheme α κ} {A : Nat → Prop} {H₀ H₁ : Hist κ} {n : Nat → Nat} {g : Prop}
  {dn : DirtyObject α} {ids : List Nat} {pl : Nat}

/-- Nobody who is still active has a version of a record that `T` had. -/
theorem SlotInv.dirty_ended (h : SlotInv k A top H₀ p n g id r)
    (hown : r.obj.txnId = T) (hina : ¬ A T) (hfree : r'.obj.txnId = 0) :
    ∀ x, A x → Coherent (n x) x r' := by
  intro x hx
  refine (h.dirty x hx).other (Front.ne_of_txnId ?_) fun dn hf => ?_
  · rw [hown]
    exact fun heq => hina (heq ▸ hx)
  · exact hf.ne_zero (hf.locked.symm.trans hfree)

theorem SlotInv.commitInsert (h : SlotInv k A top H₀ p n g id r)
    (hp : Inserting k A top H₀ r dn) (hown : r.obj.txnId = T) (hina : ¬ A T)
    (he : Ended T r r') (hbts : r'.obj.bts = T) (hcts : r'.obj.cts = INF)
    (hlist : r'.dirtyList = []) (hc : Copied t id dn p (k.pl r'.obj.data) p' ids)
    (hrid : k.rid r'.obj.data = k.rid r.obj.data) :
    SlotInv k A top ((T, some (k.img r'.obj.data, p'.cells ids)) :: H₀) p' n g id r' ∧
    Ends A T H₀ r ((T, some (k.img r'.obj.data, p'.cells ids)) :: H₀) r' := by
  obtain ⟨hrec, hev⟩ := h.record.commitInsert hp hown hina he hbts hcts hlist
    hc.chain.buildDirtyPropertyList
  have hkeyed := h.keyed dn (by rw [hp.list]; exact List.mem_singleton_self _)
  refine ⟨⟨hrec, ?_, fun _ _ _ => ⟨ids, hc.chain, hkeyed.perm hc.items, hc.fits, ?_⟩,
    h.dirty_ended hown hina he.free, fun hg => absurd hp.cts (h.trash hg).2,
    fun _ => hrid.trans (h.named.slot hp.used), ?_⟩, hev⟩
  all_goals
    rw [hlist]
    exact fun _ hdn => (by cases hdn)

theorem SlotInv.commitUpdate {rest : List (DirtyObject α)} {items : List PItem}
    {oldest : Nat} (h : SlotInv k A top H₀ p n g id r)
    (hl : Live k A top p.buildDirtyPropertyList H₀ r [dn] rest items H₁)
    (hown : r.obj.txnId = T) (hT : T ≠ 0) (hina : ¬ A T) (he : Ended T r r')
    (hold : ∀ x, A x → oldest ≤ x) (hbts : r'.obj.bts = T) (hcts : r'.obj.cts = INF)
    (hlist : r'.dirtyList = rest.filter fun dn => !(dn.elem.cts ≤ oldest))
    (hc : Copied t id dn p (k.pl r'.obj.data) p' ids)
    (hrid : k.rid r'.obj.data = k.rid r.obj.data) :
    SlotInv k A top ((T, some (k.img r'.obj.data, p'.cells ids)) :: H₀) p' n g id r' ∧
    Ends A T H₀ r ((T, some (k.img r'.obj.data, p'.cells ids)) :: H₀) r' := by
  have hsub : ∀ d ∈ r'.dirtyList, d ∈ rest := by
    rw [hlist]
    exact fun d hd => (List.mem_filter.mp hd).1
  have hmem : ∀ d ∈ r'.dirtyList, d ∈ r.dirtyList := by
    intro d hd
    rw [hl.list]
    exact List.mem_append_right _ (hsub d hd)
  have hkeyed := h.keyed dn (by rw [hl.list]; exact List.mem_cons_self ..)
  obtain ⟨hrec, hev⟩ := h.record.commitUpdate hl hown hT hina he hold hbts hcts hlist
    hc.chain.buildDirtyPropertyList
  refine ⟨⟨hrec, fun d hd => h.keyed d (hmem d hd), fun _ _ _ => ⟨ids, hc.chain,
    hkeyed.perm hc.items, hc.fits, fun d hd _ hinf => ?_⟩, h.dirty_ended hown hina he.free,
    fun hg => absurd hl.cts (h.trash hg).2, fun _ => hrid.trans (h.named.slot hl.used),
    fun d hd => h.named.copies d (hmem d hd)⟩, hev⟩
  exfalso
  cases hl.past d (hsub d hd) with
  | kept _ _ _ _ hlt => omega
  | dead _ _ _ _ he _ => have := he.2; omega

theorem SlotInv.commitDelete {g' : Prop} {own rest : List (DirtyObject α)}
    {items : List PItem} {oldest : Nat} (h : SlotInv k A top H₀ p n g id r)
    (hl : Live k A top p.buildDirtyPropertyList H₀ r own rest items H₁) (hne : own ≠ [])
    (hown : r.obj.txnId = T) (hT : T ≠ 0) (hina : ¬ A T) (he : Ended T r r')
    (hold : ∀ x, A x → oldest ≤ x) (hbts : r'.obj.bts = r.obj.bts)
    (hcts : r'.obj.cts = T) (himg : k.img r'.obj.data = k.img r.obj.data)
    (hlist : r'.dirtyList = rest.filter fun dn => !(dn.elem.cts ≤ oldest))
    (hrid : k.rid r'.obj.data = k.rid r.obj.data) :
    SlotInv k A top ((T, none) :: H₀) p' n g' id r' ∧
    Ends A T H₀ r ((T, none) :: H₀) r' := by
  have hlt := (hl.lock (by rw [hown]; exact hT)).2.2.2
  have hne' : r'.obj.cts ≠ INF := by
    rw [hcts]
    omega
  obtain ⟨hrec, hev⟩ := h.record.commitDelete hl hne hown hT hina he hold hbts hcts himg
    hlist
  have hmem : ∀ d ∈ r'.dirtyList, d ∈ r.dirtyList := by
    intro d hd
    rw [hlist] at hd
    rw [hl.list]
    exact List.mem_append_right _ (List.mem_filter.mp hd).1
  exact ⟨⟨hrec, fun d hd => h.keyed d (hmem d hd), fun _ hc _ => absurd hc hne',
    h.dirty_ended hown hina he.free, fun _ => ⟨he.used, hne'⟩,
    fun _ => hrid.trans (h.named.slot hl.used),
    fun d hd => h.named.copies d (hmem d hd)⟩, hev⟩

end Slots

/-- The loop goes on after a visit of `id`. -/
theorem View.Committing.visit {m : Hist κ} (h : v.Committing F top T H s0 (id :: rem) Hc s)
    (hput : v.Put id r' p' G' s s')
    (hslot : SlotInv v.scheme (· ∈ s.activeTx) top m p'
      (fun x => (v.dirty (s.txs x)).count id) (id ∈ garbageOf t.gcType s') id r'.settled)
    (hframe : PropertyList.Frame id (t.props s) p') (hb : p'.Bounded)
    (hev : Ends (· ∈ s.activeTx) T (Hc id) (t.record s id).settled m r'.settled)
    (hwhole : id ∉ rem → r'.settled = r')
    (hist : ∃ c, m = (T, c) :: H id ∧ Outcome F T (t.record s0 id) c)
    (hpend : id ∈ rem → r'.used = true ∧ r'.obj.cts ≠ INF)
    (hnd : (garbageOf t.gcType s').Nodup)
    (hmem : ∀ i, i ≠ id → (i ∈ garbageOf t.gcType s' ↔ i ∈ garbageOf t.gcType s))
    (hother : ∀ ty, ty ≠ t.gcType → garbageOf ty s' = garbageOf ty s) :
    v.Committing F top T H s0 rem (fun i => if i = id then m else Hc i) s' := by
  refine ⟨hput.props ▸ hb, hnd, fun i => ?_, fun i => ?_, fun i hi => ?_, fun i hi => ?_,
    fun i hi hrem => ?_, fun i hi => ?_, fun i hi => h.mem i (List.mem_cons_of_mem _ hi),
    hput.txs.trans h.txs, hput.activeTx.trans h.activeTx,
    hput.oldestXid.trans h.oldestXid, hput.rest.trans h.rest,
    fun ty hty => (hother ty hty).trans (h.garbage_other ty hty)⟩
  · rw [hput.activeTx, hput.props, hput.txs, hput.record]
    by_cases hi : i = id
    · subst hi
      rw [if_pos rfl, if_pos rfl]
      exact hslot
    · rw [if_neg hi, if_neg hi]
      simp only [hmem i hi]
      exact (h.slots i).frame hframe hi
  · rw [hput.activeTx, hput.record]
    by_cases hi : i = id
    · subst hi
      rw [if_pos rfl, if_pos rfl]
      exact (h.ends i).trans hev
    · rw [if_neg hi, if_neg hi]
      exact h.ends i
  · rw [hput.record]
    by_cases hid : i = id
    · subst hid
      rw [if_pos rfl]
      exact hwhole hi
    · rw [if_neg hid]
      refine h.whole i fun hm => ?_
      rcases List.mem_cons.mp hm with heq | hm
      · exact hid heq
      · exact hi hm
  · rw [hput.record]
    by_cases hid : i = id
    · subst hid
      rw [if_pos rfl, if_pos rfl]
      exact .again (hpend hi).1 (hpend hi).2 hist
    · rw [if_neg hid, if_neg hid]
      have hp := h.pending i (List.mem_cons_of_mem _ hi)
      rw [List.count_cons_of_ne (fun heq => hid heq.symm)] at hp
      exact hp
  · by_cases hid : i = id
    · subst hid
      rw [if_pos rfl]
      exact hist
    · rw [if_neg hid]
      refine h.visited i hi fun hm => ?_
      rcases List.mem_cons.mp hm with heq | hm
      · exact hid heq
      · exact hrem hm
  · rw [if_neg]
    · exact h.other i hi
    · intro heq
      exact hi (heq ▸ h.mem id (List.mem_cons_self ..))

/-- What the commit of one record copies. The property list is set apart. -/
structure CommitFields (v : View t κ β) (onInsert onUpdate : α → α → α)
    (onDelete : α → α) : Prop where
  pl_insert : ∀ d d', t.propertyList (onInsert d d') = t.propertyList d
  pl_update : ∀ d d', t.propertyList (onUpdate d d') = t.propertyList d
  img_delete : ∀ d, v.scheme.img (onDelete d) = v.scheme.img d
  setPropertyList_self : ∀ d, t.setPropertyList (t.propertyList d) d = d
  img_insert : ∀ pl d d', v.scheme.img (onInsert (t.setPropertyList pl d) d') =
    v.scheme.img (onInsert d d')
  rid_insert : ∀ pl d d', v.scheme.rid (onInsert (t.setPropertyList pl d) d') =
    v.scheme.rid d
  rid_update : ∀ pl d d', v.scheme.rid (t.setPropertyList pl (onUpdate d d')) =
    v.scheme.rid d
  rid_delete : ∀ d, v.scheme.rid (onDelete d) = v.scheme.rid d

/-- The fields of the version that a commit publishes. -/
def commitImg (k : Scheme α κ) (onInsert onUpdate : α → α → α) (r : Record α)
    (dn : DirtyObject α) : κ :=
  k.img (if dn.updateMode then onUpdate r.obj.data dn.elem.data
    else onInsert r.obj.data dn.elem.data)

theorem View.Put.setRecord (h : v.Put id r p G s s') (r' : Record α) :
    v.Put id r' p G s (t.setRecord id r' s') := by
  have hm := v.put_setRecord id r' s'
  rw [h.props, h.garbage] at hm
  exact h.trans hm

theorem View.Put.modifyObj (h : v.Put id r p G s s') (f : Obj α → Obj α) :
    v.Put id { r with obj := f r.obj } p G s (t.modifyObj id f s') := by
  have hm := v.put_modifyObj id f s'
  rw [h.self, h.props, h.garbage] at hm
  exact h.trans hm

theorem View.Put.setProps (h : v.Put id r p G s s') (p' : PropertyList) :
    v.Put id r p' G s (t.setProps p' s') := by
  have hm := v.put_setProps id p' s'
  rw [h.self, h.garbage] at hm
  exact h.trans hm

theorem View.Put.setGarbage (h : v.Put id r p G s s') (G' : List GcItem) :
    v.Put id r p G' s { s' with garbage := G' } := by
  obtain ⟨h1, h2, h3⟩ := v.congr s' { s' with garbage := G' } rfl rfl rfl rfl
  refine ⟨fun i => ?_, h2.trans h.props, rfl, h.txs, h.activeTx, h.oldestXid,
    (h3 fun _ => ⟨rfl, rfl⟩).1.trans h.rest⟩
  rw [h1, h.record]

/-- The last two changes of a visit. -/
theorem View.Put.unlockGc (h : v.Put id r p G s s') :
    v.Put id (Record.gc { r with obj := r.obj.unlock } s.oldestXid) p G s
      (t.setRecord id ((t.record (t.modifyObj id Obj.unlock s') id).gc
        (t.modifyObj id Obj.unlock s').oldestXid) (t.modifyObj id Obj.unlock s')) := by
  have hm := h.modifyObj Obj.unlock
  have hend := hm.setRecord (((t.record (t.modifyObj id Obj.unlock s') id).gc
    (t.modifyObj id Obj.unlock s').oldestXid))
  rw [hm.self, hm.oldestXid] at hend
  rw [hm.self, hm.oldestXid]
  exact hend

theorem garbageOf_congr {ty : GcType} (h : s'.garbage = s.garbage) :
    garbageOf ty s' = garbageOf ty s := by
  rw [garbageOf, h]
  rfl

/-- A visit of a record that was deleted by an earlier one. -/
theorem View.Committing.visit_again (h : v.Committing F top T H s0 (id :: rem) Hc s)
    (hu : (t.record s id).used = true) (hc : (t.record s id).obj.cts ≠ INF)
    (hist : ∃ c, Hc id = (T, c) :: H id ∧ Outcome F T (t.record s0 id) c)
    (hput : v.Put id ((t.record s id).removeDirtyVersion 0) (t.props s) s.garbage s s') :
    ∃ Hc', v.Committing F top T H s0 rem Hc' s' ∧
      Visit F T H (t.record s0 id) id Hc Hc' := by
  rw [← Record.settled_ended hc] at hput
  have hslot := h.slots id
  refine ⟨_, h.visit (m := Hc id) hput ?_ (PropertyList.Frame.refl _ _) h.bounded ?_
    (fun _ => Record.settled_settled _) hist (fun _ => ?_) ?_ (fun i _ => ?_)
    (fun ty _ => garbageOf_congr hput.garbage), Visit.update hist fun _ => rfl⟩
  · rw [Record.settled_settled, garbageOf_congr hput.garbage]
    exact hslot
  · rw [Record.settled_settled]
    exact Ends.refl ..
  · rw [Record.settled_used, Record.settled_obj]
    exact ⟨hu, hc⟩
  · rw [garbageOf_congr hput.garbage]
    exact h.garbage
  · rw [garbageOf_congr hput.garbage]

variable {onInsert onUpdate : α → α → α} {onDelete : α → α} {dn : DirtyObject α}
  {rest own : List (DirtyObject α)} {ids : List Nat} {pl : Nat}

/-- A visit after which the record is live: it was in the list once. -/
theorem View.Committing.visit_live {c : Option (Content κ)}
    (h : v.Committing F top T H s0 (id :: rem) Hc s)
    (hput : v.Put id r' p' s.garbage s s') (hfront : Front T dn (t.record s id))
    (hcoh : Coherent ((id :: rem).count id) T (t.record s id))
    (hdn : dn.elem.cts = INF) (hcts : (t.record s id).obj.cts = INF)
    (hcts' : r'.obj.cts = INF) (hist : Hc id = H id)
    (hslot : SlotInv v.scheme (· ∈ s.activeTx) top ((T, c) :: Hc id) p'
      (fun x => (v.dirty (s.txs x)).count id) (id ∈ garbageOf t.gcType s) id r')
    (hev : Ends (· ∈ s.activeTx) T (Hc id) (t.record s id) ((T, c) :: Hc id) r')
    (hc : Copied t id dn (t.props s) pl p' ids) (hsame : t.record s id = t.record s0 id)
    (hout : Outcome F T (t.record s id) c) :
    ∃ Hc', v.Committing F top T H s0 rem Hc' s' ∧
      Visit F T H (t.record s0 id) id Hc Hc' := by
  have honce : id ∉ rem := by
    have h1 := hcoh.once dn hfront hdn
    rw [List.count_cons_self] at h1
    exact List.count_eq_zero.mp (by omega)
  have hnew : ∃ c', (T, c) :: Hc id = (T, c') :: H id ∧ Outcome F T (t.record s0 id) c' :=
    ⟨c, by rw [hist], hsame ▸ hout⟩
  refine ⟨_, h.visit (m := (T, c) :: Hc id) hput ?_ hc.frame hc.bounded ?_
    (fun _ => Record.settled_live hcts') hnew (fun hm => absurd hm honce) ?_ (fun i _ => ?_)
    (fun ty _ => garbageOf_congr hput.garbage),
    Visit.update hnew fun hne => absurd hist hne⟩
  · rw [Record.settled_live hcts', garbageOf_congr hput.garbage]
    exact hslot
  · rw [Record.settled_live hcts', Record.settled_live hcts]
    exact hev
  · rw [garbageOf_congr hput.garbage]
    exact h.garbage
  · rw [garbageOf_congr hput.garbage]

/-- A visit of an inserted record. -/
theorem View.Committing.visit_insert (hf : CommitFields v onInsert onUpdate onDelete)
    (h : v.Committing (commitImg v.scheme onInsert onUpdate) top T H s0 (id :: rem) Hc s)
    (hina : T ∉ s.activeTx) (hfront : Front T dn (t.record s id))
    (hcoh : Coherent ((id :: rem).count id) T (t.record s id))
    (hcts : (t.record s id).obj.cts = INF) (hist : Hc id = H id)
    (hsame : t.record s id = t.record s0 id)
    (hp : Inserting v.scheme (· ∈ s.activeTx) top (Hc id) (t.record s id) dn)
    (hc : Copied t id dn (t.props s) pl p' ids)
    (hput : v.Put id (Record.gc { t.record s id with
      obj := Obj.unlock { (t.record s id).obj with
        bts := T, cts := INF
        data := onInsert (t.setPropertyList pl (t.record s id).obj.data) dn.elem.data }
      dirtyList := [] } s.oldestXid) p' s.garbage s s') :
    ∃ Hc', v.Committing (commitImg v.scheme onInsert onUpdate) top T H s0 rem Hc' s' ∧
      Visit (commitImg v.scheme onInsert onUpdate) T H (t.record s0 id) id Hc Hc' := by
  generalize hr' : (Record.gc { t.record s id with
      obj := Obj.unlock { (t.record s id).obj with
        bts := T, cts := INF
        data := onInsert (t.setPropertyList pl (t.record s id).obj.data) dn.elem.data }
      dirtyList := [] } s.oldestXid) = r' at hput
  have hslot := h.slots id
  rw [Record.settled_live hcts] at hslot
  have he : Ended T (t.record s id) r' := by
    rw [← hr']
    exact ⟨hp.used, rfl, rfl, rfl, hslot.record.prepared hp.used⟩
  have hcts' : r'.obj.cts = INF := by
    rw [← hr']
    rfl
  have hpl : v.scheme.pl r'.obj.data = pl := by
    rw [← hr', v.pl_eq]
    show t.propertyList (onInsert (t.setPropertyList pl _) dn.elem.data) = pl
    rw [hf.pl_insert, v.pl_setPropertyList]
  rw [← hpl] at hc
  obtain ⟨hslot', hev⟩ := hslot.commitInsert hp hfront.locked hina he
    (by rw [← hr']; rfl) hcts' (by rw [← hr']; rfl) hc
    (by rw [← hr']; exact hf.rid_insert _ _ _)
  refine h.visit_live hput hfront hcoh hp.dv_cts hcts hcts' hist hslot' hev hc hsame
    ⟨dn, hfront, fun hn => absurd hp.dv_cts hn, fun _ => ⟨_, hc.items, ?_⟩⟩
  rw [← hr', commitImg, hp.insert]
  show some (v.scheme.img (onInsert (t.setPropertyList pl _) dn.elem.data), _) = _
  rw [hf.img_insert]
  rfl

/-- A visit of an updated record. -/
theorem View.Committing.visit_update {items : List PItem} {H₁ : Hist κ}
    (hf : CommitFields v onInsert onUpdate onDelete)
    (h : v.Committing (commitImg v.scheme onInsert onUpdate) top T H s0 (id :: rem) Hc s)
    (hina : T ∉ s.activeTx) (hsame : t.record s id = t.record s0 id)
    (hold : ∀ x ∈ s.activeTx, s.oldestXid ≤ x)
    (hfront : Front T dn (t.record s id))
    (hcoh : Coherent ((id :: rem).count id) T (t.record s id))
    (hcts : (t.record s id).obj.cts = INF) (hist : Hc id = H id) (hn : IsNew T dn)
    (hl : Live v.scheme (· ∈ s.activeTx) top (t.props s).buildDirtyPropertyList (Hc id)
      (t.record s id) [dn] rest items H₁)
    (hc : Copied t id dn (t.props s) pl p' ids)
    (hput : v.Put id (Record.gc { t.record s id with
      obj := Obj.unlock { (t.record s id).obj with
        bts := T, cts := INF
        data := t.setPropertyList pl (onUpdate (t.record s id).obj.data dn.elem.data) }
      dirtyList := rest } s.oldestXid) p' s.garbage s s') :
    ∃ Hc', v.Committing (commitImg v.scheme onInsert onUpdate) top T H s0 rem Hc' s' ∧
      Visit (commitImg v.scheme onInsert onUpdate) T H (t.record s0 id) id Hc Hc' := by
  generalize hr' : (Record.gc { t.record s id with
      obj := Obj.unlock { (t.record s id).obj with
        bts := T, cts := INF
        data := t.setPropertyList pl (onUpdate (t.record s id).obj.data dn.elem.data) }
      dirtyList := rest } s.oldestXid) = r' at hput
  have hslot := h.slots id
  rw [Record.settled_live hcts] at hslot
  have he : Ended T (t.record s id) r' := by
    rw [← hr']
    exact ⟨hl.used, rfl, rfl, rfl, hslot.record.prepared hl.used⟩
  have hcts' : r'.obj.cts = INF := by
    rw [← hr']
    rfl
  have hpl : v.scheme.pl r'.obj.data = pl := by
    rw [← hr', v.pl_eq]
    exact v.pl_setPropertyList _ _
  rw [← hpl] at hc
  obtain ⟨hslot', hev⟩ := hslot.commitUpdate hl hfront.locked hfront.ne_zero hina he
    hold (by rw [← hr']; rfl) hcts' (by rw [← hr']; rfl) hc
    (by rw [← hr']; exact hf.rid_update _ _ _)
  refine h.visit_live hput hfront hcoh hn.cts hcts hcts' hist hslot' hev hc hsame
    ⟨dn, hfront, fun hne => absurd hn.cts hne, fun _ => ⟨_, hc.items, ?_⟩⟩
  rw [← hr', commitImg, hn.update]
  show some (v.scheme.img (t.setPropertyList pl (onUpdate _ dn.elem.data)), _) = _
  rw [v.img_setPropertyList]
  rfl

/-- A visit of a deleted record. If the transaction had updated it before,
the new version is still there, and another visit follows. -/
theorem View.Committing.visit_delete {items : List PItem} {H₁ : Hist κ} {l : List (DirtyObject α)}
    (hf : CommitFields v onInsert onUpdate onDelete)
    (h : v.Committing F top T H s0 (id :: rem) Hc s) (hina : T ∉ s.activeTx)
    (hold : ∀ x ∈ s.activeTx, s.oldestXid ≤ x)
    (hfront : Front T dn (t.record s id))
    (hcoh : Coherent ((id :: rem).count id) T (t.record s id))
    (hcts : (t.record s id).obj.cts = INF) (hist : Hc id = H id)
    (hsame : t.record s id = t.record s0 id) (hdn : dn.elem.cts ≠ INF)
    (hl : Live v.scheme (· ∈ s.activeTx) top (t.props s).buildDirtyPropertyList (Hc id)
      (t.record s id) (dn :: own) rest items H₁)
    (hrest : l = own.map (fun n => { n with elem := n.elem.unlock }) ++ rest)
    (hown : own = [] ∨ ∃ n, own = [n] ∧ IsNew T n)
    (hframe : PropertyList.Frame id (t.props s) p') (hb : p'.Bounded)
    (hput : v.Put id (Record.gc { t.record s id with
      obj := Obj.unlock { (t.record s id).obj with
        cts := T, data := onDelete (t.record s id).obj.data }
      dirtyList := l } s.oldestXid) p' (s.garbage ++ [⟨T, id, t.gcType⟩]) s s') :
    ∃ Hc', v.Committing F top T H s0 rem Hc' s' ∧
      Visit F T H (t.record s0 id) id Hc Hc' := by
  generalize hr' : (Record.gc { t.record s id with
      obj := Obj.unlock { (t.record s id).obj with
        cts := T, data := onDelete (t.record s id).obj.data }
      dirtyList := l } s.oldestXid) = r' at hput
  have hT := hfront.ne_zero
  have hslot := h.slots id
  rw [Record.settled_live hcts] at hslot
  have hlt := (hl.lock (by rw [hfront.locked]; exact hT)).2.2.2
  rw [hfront.locked] at hlt
  have hcts' : r'.obj.cts ≠ INF := by
    rw [← hr']
    show T ≠ INF
    omega
  have he : Ended T (t.record s id) r'.settled := by
    rw [Record.settled_ended hcts', ← hr']
    exact ⟨hl.used, rfl, rfl, rfl, hslot.record.prepared hl.used⟩
  have hpast : (rest.filter fun dn => !(dn.elem.cts ≤ s.oldestXid)).filter
      (fun dn => !(dn.elem.txnId = 0 && dn.elem.cts = INF)) =
      rest.filter fun dn => !(dn.elem.cts ≤ s.oldestXid) :=
    Past.settle fun d hd => hl.past d (List.mem_filter.mp hd).1
  have hlist : r'.settled.dirtyList =
      rest.filter fun dn => !(dn.elem.cts ≤ s.oldestXid) := by
    rw [Record.settled_ended hcts', ← hr', hrest]
    simp only [Record.removeDirtyVersion, Record.gc, List.filter_append, hpast]
    rcases hown with rfl | ⟨n, rfl, hn⟩
    · rfl
    · -- the new version is unlocked now, and has not ended
      have h1 : n.elem.unlock.txnId = 0 := rfl
      have h2 : n.elem.unlock.cts = INF := hn.cts
      simp only [List.map_cons, List.map_nil, List.filter_filter]
      rw [List.filter_cons_of_neg (by simp [h1, h2])]
      rfl
  have hend : SlotInv v.scheme (· ∈ s.activeTx) top ((T, none) :: Hc id) p'
      (fun x => (v.dirty (s.txs x)).count id) (id ∈ garbageOf t.gcType s') id r'.settled ∧
      Ends (· ∈ s.activeTx) T (Hc id) (t.record s id) ((T, none) :: Hc id) r'.settled := by
    refine hslot.commitDelete hl (by simp) hfront.locked hT hina he hold ?_ ?_ ?_ hlist ?_
    · rw [Record.settled_obj, ← hr']
      rfl
    · rw [Record.settled_obj, ← hr']
      rfl
    · rw [Record.settled_obj, ← hr']
      exact hf.img_delete _
    · rw [Record.settled_obj, ← hr']
      exact hf.rid_delete _
  have hg : garbageOf t.gcType s' = garbageOf t.gcType s ++ [id] := by
    rw [garbageOf, hput.garbage]
    simp [garbageOf]
  have hfresh : id ∉ garbageOf t.gcType s := fun hm => absurd hcts (hslot.trash hm).2
  have hnew : ∃ c, (T, none) :: Hc id = (T, c) :: H id ∧ Outcome F T (t.record s0 id) c :=
    ⟨none, by rw [hist], dn, hsame ▸ hfront, fun _ => rfl, fun hc => absurd hc hdn⟩
  refine ⟨_, h.visit (m := (T, none) :: Hc id) hput hend.1 hframe hb ?_ (fun hm => ?_) hnew
    (fun _ => ⟨?_, hcts'⟩) ?_ (fun i hi => ?_) (fun ty hty => ?_),
    Visit.update hnew fun hne => absurd hist hne⟩
  · rw [Record.settled_live hcts]
    exact hend.2
  · -- no new version is left, because the record was in the list once
    rcases hown with rfl | ⟨n, rfl, hn⟩
    · rw [Record.settled_ended hcts', ← hr', hrest]
      simp only [Record.removeDirtyVersion, Record.gc, List.map_nil, List.nil_append, hpast]
    · exfalso
      have h2 := hcoh.twice dn n rest hfront (by rw [hl.list]; rfl) hn.locked
      rw [List.count_cons_self, List.count_eq_zero.mpr hm] at h2
      omega
  · rw [← hr']
    exact hl.used
  · rw [hg, List.nodup_append]
    refine ⟨h.garbage, by simp, fun a ha b hb heq => hfresh ?_⟩
    rw [List.mem_singleton.mp hb] at heq
    exact heq ▸ ha
  · rw [hg]
    simp [hi]
  · rw [garbageOf, hput.garbage]
    have hty' : (t.gcType = ty) = False := eq_false fun heq => hty heq.symm
    simp [garbageOf, hty']

/-- One visit of the commit loop. It does not fail. -/
theorem View.Committing.commitDirty (hf : CommitFields v onInsert onUpdate onDelete)
    (h : v.Committing (commitImg v.scheme onInsert onUpdate) top T H s0 (id :: rem) Hc s)
    (hina : T ∉ s.activeTx) (hinf : T < INF) (hold : ∀ x ∈ s.activeTx, s.oldestXid ≤ x) :
    wp (t.commitDirty onInsert onUpdate onDelete T id)
      (fun _ s' => ∃ Hc', v.Committing (commitImg v.scheme onInsert onUpdate) top T H s0 rem
        Hc' s' ∧ Visit (commitImg v.scheme onInsert onUpdate) T H (t.record s0 id) id Hc Hc')
      (fun _ _ => False) s := by
  have hget : ∀ {Q : Record α → GraphDb → Prop}, (t.record s id).used = true →
      Q (t.record s id) s → wp (t.getRecord id) Q (fun _ _ => False) s := by
    intro Q hu hQ
    simp only [Table.getRecord, wp_bind, wp_get, wp_ofExcept, Vec.get]
    rw [show (t.vec s).slots id = t.record s id from rfl, if_pos hu]
    refine ⟨fun r hr => ?_, fun e he => (by cases he)⟩
    cases hr
    exact hQ
  simp only [Table.commitDirty, wp_bind]
  cases h.pending id (List.mem_cons_self ..) with
  | again hu hc hist =>
      refine hget hu (wp_ite (fun _ => ?_) (fun hn => absurd hc hn))
      simp only [wp_bind, wp_modify, wp_pure]
      exact h.visit_again hu hc hist (v.put_setRecord id _ s)
  | @first dn hfront hcoh hcts hist hsame =>
      have hslot := h.slots id
      rw [Record.settled_live hcts] at hslot
      refine hget hfront.used (wp_ite (fun hn => absurd hcts hn) (fun _ => ?_))
      obtain ⟨tl, htl⟩ := hfront.list
      have hkeyed := hslot.keyed dn (by rw [htl]; exact List.mem_cons_self ..)
      simp only [htl]
      rcases hslot.record.front_cases hfront with hp | ⟨own, rest, items, H₁, hl⟩
      · -- insert
        have hnil : tl = [] := by
          have hlist := hp.list
          rw [htl] at hlist
          exact (List.cons.inj hlist).2
        subst hnil
        have hch : (t.props s).Chain id (t.propertyList (t.record s id).obj.data) [] := by
          rw [← v.pl_eq, hp.pl]
          exact PropertyList.Chain.unknown _ id
        refine wp_ite (fun _ => ?_) (fun hn => absurd (by simp [hp.insert]) hn)
        simp only [wp_bind, wp_modify]
        refine wp_mono (Table.copyProperties_spec h.bounded hkeyed hch (Nat.zero_le _) v
          hf.setPropertyList_self) ?_ (fun _ _ hF => hF)
        rintro _ s1 ⟨pl, p', ids', hc, hput⟩
        refine h.visit_insert hf hina hfront hcoh hcts hist hsame hp hc ?_
        have h1 := hput.modifyObj fun o => { o with
          bts := T, cts := INF, data := onInsert o.data dn.elem.data }
        have h2 := h1.setRecord { t.record (t.modifyObj id (fun o => { o with
          bts := T, cts := INF, data := onInsert o.data dn.elem.data }) s1) id with
            dirtyList := [] }
        refine h2.unlockGc.congr ?_
        rw [h1.self]
      · obtain ⟨ids, hb⟩ := hslot.backed hl.used hcts (hl.bts_ne_zero hslot.record)
        have howned := hl.owned
        rw [hfront.locked] at howned
        obtain ⟨o, rest', hrest, hunlock⟩ := hl.kept_unlock
        have hlist : dn :: tl = dn :: own ++ rest := htl.symm.trans hl.list
        have hup : dn.updateMode = true := by
          cases howned with
          | updated hn => exact hn.update
          | deleted hd => exact hd.update
          | updatedDeleted hd hn => exact hd.update
        refine wp_ite (fun hn => ?_) (fun _ => wp_ite (fun hdel => ?_) (fun hdel => ?_))
        · rw [hup] at hn
          cases hn
        · -- delete
          have hown : own = [] ∨ ∃ n, own = [n] ∧ IsNew T n := by
            cases howned with
            | updated hn =>
                rw [hn.bts, hn.cts] at hdel
                omega
            | deleted hd => exact .inl rfl
            | updatedDeleted hd hn => exact .inr ⟨_, rfl, hn⟩
          have hdn : dn.elem.cts ≠ INF := by
            have hb := (hl.lock (by rw [hfront.locked]; exact hfront.ne_zero)).2.2.2
            rw [hfront.locked] at hb
            cases howned with
            | updated hn =>
                rw [hn.bts, hn.cts] at hdel
                omega
            | deleted hd =>
                rw [hd.cts]
                omega
            | updatedDeleted hd hn =>
                rw [hd.cts]
                omega
          have hch := hb.chain
          rw [v.pl_eq] at hch
          simp only [wp_bind, wp_get, wp_ofExcept, wp_modify, hch.foreachPropertySet]
          refine ⟨fun _ _ => ?_, fun _ he => (by cases he)⟩
          have h0 := ((v.put_refl id s).setGarbage
            (s.garbage ++ [⟨T, id, t.gcType⟩])).modifyObj fun o => { o with cts := T }
          generalize t.modifyObj id (fun o => { o with cts := T })
            { s with garbage := s.garbage ++ [⟨T, id, t.gcType⟩] } = s1 at h0 ⊢
          rw [h0.props, hch.buildDirtyPropertyList]
          refine ⟨fun _ _ => ?_, fun _ he => (by cases he)⟩
          -- the list behind the tombstone
          obtain ⟨l, hl0, hl1⟩ : ∃ l, (t.record s1 id).popUnlock =
              .ok { t.record s1 id with dirtyList := l } ∧
              l = own.map (fun n => { n with elem := n.elem.unlock }) ++ rest := by
            have hd1 : (t.record s1 id).dirtyList = dn :: own ++ rest := by
              rw [h0.self]
              exact htl.trans hlist
            rcases hown with rfl | ⟨n, rfl, hn⟩
            · rw [hrest] at hd1 ⊢
              exact ⟨_, Record.popUnlock_eq hd1, by rw [hunlock]; rfl⟩
            · exact ⟨_, Record.popUnlock_eq hd1, rfl⟩
          rw [hl0]
          refine ⟨fun r₂ hr₂ => ?_, fun _ he => (by cases he)⟩
          cases hr₂
          have h1 := h0.setRecord { t.record s1 id with dirtyList := l }
          generalize t.setRecord id { t.record s1 id with dirtyList := l } s1 = s2 at h1 ⊢
          have hch2 : (t.props s2).Chain id (t.propertyList (t.record s id).obj.data) ids := by
            rw [h1.props]
            exact hch
          refine Table.wp_onProps (PropertyList.removeProperties_spec hch2
            (h1.props ▸ h.bounded)) ?_
          rintro _ p' ⟨hframe, hbd⟩
          rw [h1.props] at hframe
          have h2 := ((h1.setProps p').modifyObj fun o => { o with
            data := onDelete o.data }).unlockGc
          refine h.visit_delete hf hina hold hfront hcoh hcts hist hsame hdn hl hl1 hown
            hframe hbd (h2.congr ?_)
          rw [h0.self]
        · -- update
          have hown : own = [] ∧ IsNew T dn := by
            cases howned with
            | updated hn => exact ⟨rfl, hn⟩
            | deleted hd => exact absurd (hd.bts.trans hd.cts.symm) hdel
            | updatedDeleted hd hn => exact absurd (hd.bts.trans hd.cts.symm) hdel
          obtain ⟨rfl, hn⟩ := hown
          simp only [wp_bind, wp_modify]
          have h0 := v.put_modifyObj id (fun o => { o with
            bts := T, cts := INF, data := onUpdate o.data dn.elem.data }) s
          generalize t.modifyObj id (fun o => { o with
            bts := T, cts := INF, data := onUpdate o.data dn.elem.data }) s = s1 at h0
          have hch : (t.props s1).Chain id (t.propertyList (t.record s1 id).obj.data) ids := by
            rw [h0.props, h0.self]
            show (t.props s).Chain id (t.propertyList (onUpdate _ _)) ids
            rw [hf.pl_update, ← v.pl_eq]
            exact hb.chain
          refine wp_mono (Table.copyProperties_spec (h0.props ▸ h.bounded) hkeyed hch
            (hb.room dn (by rw [htl]; exact List.mem_cons_self ..) hup hn.cts) v
            hf.setPropertyList_self) ?_ (fun _ _ hF => hF)
          rintro _ s2 ⟨pl, p', ids', hc, hput⟩
          rw [h0.props] at hc
          rw [h0.garbage] at hput
          have h1 := h0.trans hput
          have hpop := Record.popUnlock_eq (r := t.record s2 id) (d := dn) (o := o)
            (l := rest') (by rw [h1.self, h0.self, ← hrest]; exact htl.trans hlist)
          simp only [wp_get, wp_ofExcept, hpop]
          refine ⟨fun r₂ hr₂ => ?_, fun _ he => (by cases he)⟩
          cases hr₂
          have h2 := h1.setRecord { t.record s2 id with
            dirtyList := { o with elem := o.elem.unlock } :: rest' }
          refine h.visit_update hf hina hsame hold hfront hcoh hcts hist hn hl hc
            (h2.unlockGc.congr ?_)
          rw [h1.self, h0.self, hunlock, hrest]

/-- A record that keeps the invariant is settled. -/
theorem RecInv.settled_eq {k : Scheme α κ} {A : Nat → Prop} {H : Hist κ}
    {stored : Nat → Except Err (List PItem)} (h : RecInv k A top stored H r) :
    r.settled = r := by
  by_cases hc : r.obj.cts = INF
  · exact Record.settled_live hc
  · have hlist : r.dirtyList.filter (fun dn => !(dn.elem.txnId = 0 && dn.elem.cts = INF)) =
        r.dirtyList := by
      cases h.phase with
      | unused hp => rw [hp.list]; rfl
      | inserting hp => exact absurd hp.cts hc
      | live hp => exact absurd hp.cts hc
      | deleted hp => exact Past.settle hp.past
    rw [Record.settled_ended hc, Record.removeDirtyVersion, hlist]

/-- The loop begins when the transaction has left the active ones. -/
theorem View.Inv.committing (h : v.Inv top H s)
    (hcoh : ∀ id, Coherent ((v.dirty (s.txs T)).count id) T (t.record s id)) :
    v.Committing F top T H s (v.dirty (s.txs T)) H s := by
  have hset : ∀ id, (t.record s id).settled = t.record s id :=
    fun id => (h.slots id).record.settled_eq
  refine ⟨h.bounded, h.garbage, fun id => ?_, fun id => ?_, fun id _ => hset id,
    fun id hid => ?_, fun id h1 h2 => absurd h1 h2, fun _ _ => rfl, fun _ hid => hid,
    rfl, rfl, rfl, rfl, fun _ _ => rfl⟩
  · rw [hset]
    exact h.slots id
  · rw [hset]
    exact Ends.refl ..
  · have hn : (v.dirty (s.txs T)).count id ≠ 0 :=
      Nat.ne_of_gt (List.count_pos_iff.mpr hid)
    obtain ⟨dn, hf⟩ := (hcoh id).front.mp hn
    refine .first hf (hcoh id) ?_ rfl rfl
    rcases (h.slots id).record.front_cases hf with hp | ⟨own, rest, items, H₁, hl⟩
    · exact hp.cts
    · exact hl.cts

/-- After the loop. -/
theorem View.Committing.inv (h : v.Committing F top T H s0 [] Hc s) : v.Inv top Hc s := by
  refine ⟨h.bounded, h.garbage, fun id => ?_⟩
  have hslot := h.slots id
  rw [h.whole id (by simp)] at hslot
  exact hslot

/-- The loop over a dirty list does not fail. -/
theorem View.Inv.commitLoop (hf : CommitFields v onInsert onUpdate onDelete)
    (h : v.Inv top H s) (hina : T ∉ s.activeTx) (hinf : T < INF)
    (hold : ∀ x ∈ s.activeTx, s.oldestXid ≤ x)
    (hcoh : ∀ id, Coherent ((v.dirty (s.txs T)).count id) T (t.record s id)) :
    wp ((v.dirty (s.txs T)).forM (t.commitDirty onInsert onUpdate onDelete T))
      (fun _ s' => ∃ Hc, v.Committing (commitImg v.scheme onInsert onUpdate) top T H s []
        Hc s') (fun _ _ => False) s := by
  refine wp_forM (P := fun rem s' => ∃ Hc, v.Committing (commitImg v.scheme onInsert
    onUpdate) top T H s rem Hc s') ?_ _ s
    ⟨H, h.committing hcoh⟩
  rintro id rem s1 ⟨Hc, h1⟩
  refine wp_mono (h1.commitDirty hf ?_ hinf ?_) (fun _ _ ⟨Hc', h2, _⟩ => ⟨Hc', h2⟩)
    fun _ _ hF => hF
  · rw [h1.activeTx]
    exact hina
  · rw [h1.activeTx, h1.oldestXid]
    exact hold

end Views

end Poseidon
