import Poseidon.Proofs.Versions

/-!
# What a transaction sees

A version is in the snapshot of a transaction when it is the latest version
of its own, and no tombstone, or the latest committed one that is not too
young. This module says which calls change what their own transaction sees.
The calls of the others never do, and of its own calls only two kinds add
something that matters for the links between nodes and relationships:
`add_relationship`, and the tombstone of a node. All others are `Calm`.
-/

namespace Poseidon

open Wp History

variable {α κ β : Type}

/-- Version `c` of the record `r` is in the snapshot of `T`. -/
inductive Visible (k : Scheme α κ) (T : Nat) (H : Hist κ) (r : Record α) (c : Content κ) :
    Prop
  | own {dn : DirtyObject α} (latest : r.getDirtyVersion T = some dn)
      (live : dn.elem.cts = INF) (content : c = dn.content k)
  | committed {t : Nat} (nothing : r.getDirtyVersion T = none)
      (latest : Latest H T (t, some c))

/-- What a read selects is visible. -/
theorem Selects.visible {k : Scheme α κ} {p : PropertyList} {H : Hist κ} {T : Nat}
    {r : Record α} {l : Loc} {e : Nat × Content κ} (h : Selects k p H T r l e) :
    Visible k T H r e.2 := by
  cases h with
  | own latest live _ content => exact .own latest live (by rw [content])
  | committed nothing _ _ latest _ _ _ => exact .committed nothing latest

theorem Visible.congr {k : Scheme α κ} {H : Hist κ} {T : Nat} {r r' : Record α}
    {c : Content κ} (h : Visible k T H r' c)
    (heq : r'.getDirtyVersion T = r.getDirtyVersion T) : Visible k T H r c := by
  cases h with
  | own latest live content => exact .own (heq.symm.trans latest) live content
  | committed nothing latest => exact .committed (heq.symm.trans nothing) latest

/-! ## Own versions -/

section Records

variable {k : Scheme α κ} {A : Nat → Prop} {top T : Nat} {H : Hist κ} {r r' : Record α}
  {stored : Nat → Except Err (List PItem)}

theorem RecInv.own_iff_front {dn : DirtyObject α} (h : RecInv k A top stored H r)
    (hA : A T) (hT : T ≠ 0) : r.getDirtyVersion T = some dn ↔ Front T dn r := by
  refine ⟨fun hown => ?_, Front.getDirtyVersion⟩
  have hlock : dn.elem.txnId = T := by simpa using List.find?_some hown
  obtain ⟨d, hd⟩ := h.front_of_mem hA hT (List.mem_of_find?_eq_some hown) hlock
  have heq := hd.getDirtyVersion
  rw [hown] at heq
  cases heq
  exact hd

theorem RecInv.own_none_iff (h : RecInv k A top stored H r) (hA : A T) (hT : T ≠ 0) :
    r.getDirtyVersion T = none ↔ ∀ dn, ¬ Front T dn r := by
  refine ⟨fun hown dn hf => ?_, h.getDirtyVersion_none hA hT⟩
  rw [hf.getDirtyVersion] at hown
  cases hown

theorem Record.own_of_list {l : List (DirtyObject α)} {dn : DirtyObject α}
    (hl : r.dirtyList = dn :: l) (hlock : dn.elem.txnId = T) :
    r.getDirtyVersion T = some dn := by
  rw [Record.getDirtyVersion, hl, List.find?_cons, decide_eq_true hlock]

theorem Record.own_push {elem : Obj α} {ps : List PItem} {b : Bool} (hlock : elem.txnId = T) :
    (r.push elem ps b).getDirtyVersion T = some ⟨r.nextAddr, b, elem, ps⟩ :=
  Record.own_of_list rfl hlock

theorem Record.own_congr (hl : r'.dirtyList = r.dirtyList) :
    r'.getDirtyVersion T = r.getDirtyVersion T := by
  rw [Record.getDirtyVersion, hl]
  rfl

end Records

section Tables

variable {t : Table α} {v : View t κ β} {W top T id : Nat} {H H' : Nat → Hist κ}
  {s s' : GraphDb}

/-- The others do not touch the versions of a transaction. -/
theorem View.Inv.own_eq {A : Nat → Prop} {top' : Nat} (h : v.Inv top H s)
    (h' : v.Inv top' H' s')
    (hev : Evolve A W (H id) (t.record s id) (H' id) (t.record s' id)) (hA : A T)
    (hT : T ∈ s.activeTx) (hT' : T ∈ s'.activeTx) (h0 : T ≠ 0) (hne : T ≠ W)
    (hd : v.dirty (s'.txs T) = v.dirty (s.txs T)) :
    (t.record s' id).getDirtyVersion T = (t.record s id).getDirtyVersion T := by
  have hs := h.slots id
  have hs' := h'.slots id
  have hc' := hs'.dirty T hT'
  rw [hd] at hc'
  cases hown : (t.record s id).getDirtyVersion T with
  | some dn =>
      have hf := (hs.record.own_iff_front hT h0).mp hown
      exact (hs'.record.own_iff_front hT' h0).mpr (hev.front T dn hA hne hf)
  | none =>
      have hno := (hs.record.own_none_iff hT h0).mp hown
      exact (hs'.record.own_none_iff hT' h0).mpr ((hs.dirty T hT).nothing hc' hno)

theorem View.Moves.own_eq (h : v.Inv top H s) (hm : v.Moves W top H s s')
    (ht : SameTx s s') (hact : Active top s T) (hne : T ≠ W) (id : Nat) :
    (t.record s' id).getDirtyVersion T = (t.record s id).getDirtyVersion T :=
  h.own_eq hm.inv (hm.evolve id) hact.mem hact.mem (ht.activeTx ▸ hact.mem) hact.ne_zero hne
    (hm.dirty T hne)

/-- What an update leaves as the version of its transaction. -/
inductive OwnUpdate (t : Table α) (T : Nat) (fd : α → α) (s : GraphDb) (id : Nat)
    (dn' : DirtyObject α) : Prop
  | again {dn : DirtyObject α} (own : (t.record s id).getDirtyVersion T = some dn)
      (cts : dn'.elem.cts = dn.elem.cts) (update : dn'.updateMode = dn.updateMode)
      (data : dn'.elem.data = fd dn.elem.data)
  | first (own : (t.record s id).getDirtyVersion T = none) (cts : dn'.elem.cts = INF)
      (update : dn'.updateMode = true) (data : dn'.elem.data = fd (t.record s id).obj.data)

theorem Updated.own {n : Ref} {fp : List PItem → List PItem} {fd : α → α} {old : α}
    (v : View t κ β) (h : v.Inv top H s) (hact : Active top s T)
    (hu : Updated t T n fp fd s old s') :
    (∀ i, i ≠ n.id → t.record s' i = t.record s i) ∧
      ∃ dn', (t.record s' n.id).getDirtyVersion T = some dn' ∧ OwnUpdate t T fd s n.id dn' := by
  cases hu with
  | @again dn hf =>
      obtain ⟨tl, hl⟩ := hf.list
      refine ⟨fun i hi => by rw [v.record_setRecord, if_neg hi], { dn with
        properties := fp dn.properties
        elem := { dn.elem with data := fd dn.elem.data } }, ?_,
        .again hf.getDirtyVersion rfl rfl rfl⟩
      rw [v.record_setRecord, if_pos rfl]
      simp only [Record.getDirtyVersion, Record.modifyDirty, hl, List.map_cons, if_true,
        List.find?_cons, hf.owner, decide_true]
  | @first r items hr hloc hlock hno hst =>
      have hlist : r.dirtyList = (t.record s n.id).dirtyList := by rw [hr]; rfl
      have hown : (t.record s n.id).getDirtyVersion T = none := by
        refine ((h.slots n.id).record.own_none_iff hact.mem hact.ne_zero).mpr fun dn hf => ?_
        refine hno dn ⟨hf.ne_zero, by rw [hr]; exact hf.used, by rw [hr]; rfl, ?_, hf.owner⟩
        rw [hlist]
        exact hf.front
      refine ⟨fun i hi => ?_, ⟨r.nextAddr + 1, true, Record.newVersion r.obj T fd,
        fp items⟩, ?_, .first hown rfl rfl ?_⟩
      · rw [v.record_addDirty, v.record_setRecord, if_neg hi]
      · rw [v.record_addDirty, v.record_setRecord, if_pos rfl]
        exact Record.own_push (by rw [hr]; rfl)
      · rw [hr]
        rfl

theorem Inserted.own {slot : Nat} {d : α} {props : List PItem} (v : View t κ β)
    (hi : Inserted t T slot d props s s') :
    (∀ i, i ≠ slot → t.record s' i = t.record s i) ∧
      ∃ dn', (t.record s' slot).getDirtyVersion T = some dn' ∧ dn'.elem.cts = INF ∧
        dn'.updateMode = false ∧ dn'.elem.data = d := by
  refine ⟨fun i hne => ?_, ⟨(t.record s slot).nextAddr, false, ⟨T, 0, INF, 0, true, true, d⟩,
    props⟩, ?_, rfl, rfl, rfl⟩
  · rw [hi.store, v.record_addDirty, v.record_setRecord, if_neg hne]
  · rw [hi.store, v.record_addDirty, v.record_setRecord, if_pos rfl]
    exact Record.own_of_list rfl rfl

theorem Removed.own (v : View t κ β) (hinf : T < INF) (hrm : Removed t T id s s') :
    (∀ i, i ≠ id → t.record s' i = t.record s i) ∧
      ∃ dn', (t.record s' id).getDirtyVersion T = some dn' ∧ dn'.elem.cts ≠ INF := by
  have hne : T ≠ INF := by omega
  cases hrm with
  | @first r items hr hused hlocked hno hst =>
      refine ⟨fun i hi => ?_, ⟨r.nextAddr + 1, true, Record.deletedVersion r.obj T, []⟩, ?_,
        hne⟩
      · rw [v.record_addDirty, v.record_setRecord, if_neg hi]
      · rw [v.record_addDirty, v.record_setRecord, if_pos rfl]
        exact Record.own_push hlocked
  | @again r dn hr hf hup hcts =>
      refine ⟨fun i hi => ?_, ⟨r.nextAddr, true, Record.deletedVersion dn.elem T, []⟩, ?_,
        hne⟩
      · rw [v.record_addDirty, v.record_setRecord, if_neg hi]
      · rw [v.record_addDirty, v.record_setRecord, if_pos rfl]
        exact Record.own_push hf.owner

end Tables

/-! ## Nodes and the relationships between them -/

def RshipData.ends (d : RshipData) : Nat × Nat := (d.srcNode, d.destNode)

/-- The nodes that a version of a relationship joins. -/
def endsOf (c : Content (Nat × Nat × Nat × Nat)) : Nat × Nat := (c.1.2.1, c.1.2.2.1)

def SeesNode (T : Nat) (L : Log) (s : GraphDb) (n : Nat) : Prop :=
  ∃ c, Visible nodeScheme T (L.nodes n) (nodeTable.record s n) c

/-- `T` sees a relationship that joins the nodes `e`. -/
def SeesRship (T : Nat) (L : Log) (s : GraphDb) (rid : Nat) (e : Nat × Nat) : Prop :=
  ∃ c, Visible rshipScheme T (L.rships rid) (rshipTable.record s rid) c ∧ endsOf c = e

/-- `T` has deleted the node. -/
def Buried (T : Nat) (s : GraphDb) (n : Nat) : Prop :=
  ∃ dn, (nodeTable.record s n).getDirtyVersion T = some dn ∧ dn.elem.cts ≠ INF

/-- `T` has added a relationship that joins the nodes `e`. -/
def Added (T : Nat) (s : GraphDb) (rid : Nat) (e : Nat × Nat) : Prop :=
  ∃ dn, (rshipTable.record s rid).getDirtyVersion T = some dn ∧ dn.elem.cts = INF ∧
    dn.updateMode = false ∧ dn.elem.data.ends = e

/-- `T` has versions of the node, or has read it, so that nobody who is older
can take it away. -/
def HoldsNode (T : Nat) (L : Log) (s : GraphDb) (n : Nat) : Prop :=
  (nodeTable.record s n).getDirtyVersion T ≠ none ∨
    ∃ e, Seen T e (L.nodes n) (nodeTable.record s n)

/-- The relationships that `T` has updated join what they joined before. -/
def SameEnds (T : Nat) (L : Log) (s : GraphDb) : Prop :=
  ∀ rid dn, (rshipTable.record s rid).getDirtyVersion T = some dn → dn.elem.cts = INF →
    dn.updateMode = true → ∃ t c H, L.rships rid = (t, some c) :: H ∧ t ≤ T ∧
      endsOf c = dn.elem.data.ends

/-- A call after which `T` sees no more relationships than before, has added
and deleted no more, and holds what it held. -/
structure Calm (T : Nat) (L : Log) (s s' : GraphDb) : Prop where
  buried : ∀ n, Buried T s' n → Buried T s n
  sees : ∀ rid e, SeesRship T L s' rid e → SeesRship T L s rid e
  added : ∀ rid e, Added T s' rid e → Added T s rid e
  holds : ∀ n, HoldsNode T L s n → HoldsNode T L s' n
  sameEnds : SameEnds T L s → SameEnds T L s'

section Calls

variable {W top T : Nat} {L : Log} {s s' s'' : GraphDb}

theorem Calm.refl (T : Nat) (L : Log) (s : GraphDb) : Calm T L s s :=
  ⟨fun _ h => h, fun _ _ h => h, fun _ _ h => h, fun _ h => h, fun h => h⟩

theorem Calm.trans (h : Calm T L s s') (h' : Calm T L s' s'') : Calm T L s s'' :=
  ⟨fun n hn => h.buried n (h'.buried n hn), fun rid e hr => h.sees rid e (h'.sees rid e hr),
    fun rid e hr => h.added rid e (h'.added rid e hr),
    fun n hn => h'.holds n (h.holds n hn), fun he => h'.sameEnds (h.sameEnds he)⟩

/-- What a call does to the nodes that its transaction holds. -/
theorem Op.holds {n : Nat} (h : Op W top L s s') (hact : Active top s T)
    (hown : (nodeTable.record s n).getDirtyVersion T ≠ none →
      (nodeTable.record s' n).getDirtyVersion T ≠ none)
    (hn : HoldsNode T L s n) : HoldsNode T L s' n := by
  rcases hn with hn | ⟨e, he⟩
  · exact .inl (hown hn)
  · exact .inr ⟨e, (h.nodes.evolve n).seen T e hact.mem he⟩

/-- A call that leaves the relationships of `T` alone. -/
theorem Op.calm_of_nodes (h : Op W top L s s') (hact : Active top s T)
    (hown : ∀ n, (nodeTable.record s n).getDirtyVersion T ≠ none →
      (nodeTable.record s' n).getDirtyVersion T ≠ none)
    (hbury : ∀ n, Buried T s' n → Buried T s n)
    (hr : ∀ rid, (rshipTable.record s' rid).getDirtyVersion T =
      (rshipTable.record s rid).getDirtyVersion T) : Calm T L s s' := by
  refine ⟨hbury, fun rid e ⟨c, hc, he⟩ => ⟨c, hc.congr (hr rid), he⟩, fun rid e hadd => ?_,
    fun n hn => h.holds hact (hown n) hn, fun he rid dn hdn => ?_⟩
  · rw [Added, hr] at hadd
    exact hadd
  · rw [hr] at hdn
    exact he rid dn hdn

/-- A call that leaves all versions of `T` alone. -/
theorem Op.calm_of_own (h : Op W top L s s') (hact : Active top s T)
    (hn : ∀ n, (nodeTable.record s' n).getDirtyVersion T =
      (nodeTable.record s n).getDirtyVersion T)
    (hr : ∀ rid, (rshipTable.record s' rid).getDirtyVersion T =
      (rshipTable.record s rid).getDirtyVersion T) : Calm T L s s' := by
  refine h.calm_of_nodes hact (fun n hne => ?_) (fun n hb => ?_) hr
  · rw [hn]
    exact hne
  · rw [Buried, hn] at hb
    exact hb

/-- The calls of the others are calm. -/
theorem Op.calm (h : Op W top L s s') (hi : s.Inv top L) (hact : Active top s T)
    (hne : T ≠ W) : Calm T L s s' :=
  h.calm_of_own hact (h.nodes.own_eq hi.nodes h.tx hact hne)
    (h.rships.own_eq hi.rships h.tx hact hne)

/-- A call on the nodes does not touch the relationships. -/
theorem nodeOp_rship {H : Nat → Hist (Nat × Nat)} (h : nodeView.Op W top H s s') (i : Nat) :
    rshipTable.record s' i = rshipTable.record s i := by
  have hrest := h.rest
  simp only [nodeView, Prod.mk.injEq] at hrest
  show s'.rships.slots i = s.rships.slots i
  rw [hrest.1]

theorem rshipOp_node {H : Nat → Hist (Nat × Nat × Nat × Nat)}
    (h : rshipView.Op W top H s s') (i : Nat) :
    nodeTable.record s' i = nodeTable.record s i := by
  have hrest := h.rest
  simp only [rshipView, Prod.mk.injEq] at hrest
  show s'.nodes.slots i = s.nodes.slots i
  rw [hrest.1]

/-- A call on the nodes that changes one slot, and makes no tombstone. -/
theorem GraphDb.Inv.calm_node {id : Nat} {dn' : DirtyObject NodeData} (hi : s.Inv top L)
    (hact : Active top s T) (ho : nodeView.Op W top L.nodes s s')
    (hother : ∀ i, i ≠ id → nodeTable.record s' i = nodeTable.record s i)
    (hown : (nodeTable.record s' id).getDirtyVersion T = some dn')
    (hbury : dn'.elem.cts ≠ INF → Buried T s id) : Calm T L s s' := by
  refine (hi.ofNodes ho).calm_of_nodes hact (fun n hne => ?_) (fun n hb => ?_) fun rid => ?_
  · by_cases hn : n = id
    · rw [hn, hown]
      exact Option.some_ne_none _
    · rw [hother n hn]
      exact hne
  · by_cases hn : n = id
    · rw [hn] at hb ⊢
      obtain ⟨d, hd, hcts⟩ := hb
      rw [hown] at hd
      cases hd
      exact hbury hcts
    · rw [Buried, hother n hn] at hb
      exact hb
  · rw [nodeOp_rship ho]

theorem Updated.calm_node {n : Ref} {fp : List PItem → List PItem} {fd : NodeData → NodeData}
    {old : NodeData} (hi : s.Inv top L) (hact : Active top s T)
    (ho : nodeView.Op W top L.nodes s s') (hu : Updated nodeTable T n fp fd s old s') :
    Calm T L s s' := by
  obtain ⟨hother, dn', hown, hupd⟩ := hu.own nodeView hi.nodes hact
  refine hi.calm_node hact ho hother hown fun hcts => ?_
  cases hupd with
  | again own hc _ _ => exact ⟨_, own, hc ▸ hcts⟩
  | first _ hc _ _ => exact absurd hc hcts

theorem Inserted.calm_node {slot : Nat} {d : NodeData} {props : List PItem}
    (hi : s.Inv top L) (hact : Active top s T) (ho : nodeView.Op W top L.nodes s s')
    (hins : Inserted nodeTable T slot d props s s') : Calm T L s s' := by
  obtain ⟨hother, dn', hown, hcts, _⟩ := hins.own nodeView
  exact hi.calm_node hact ho hother hown fun hne => absurd hcts hne

/-- A call on the relationships that changes one slot: `T` now has version
`dn'` of it, which is a tombstone, an update of a version of `T`, or the
first one of a relationship that was there before. -/
theorem GraphDb.Inv.calm_rship {id : Nat} {dn' : DirtyObject RshipData} (hi : s.Inv top L)
    (hact : Active top s T) (ho : rshipView.Op W top L.rships s s')
    (hother : ∀ i, i ≠ id → rshipTable.record s' i = rshipTable.record s i)
    (hown : (rshipTable.record s' id).getDirtyVersion T = some dn')
    (hlive : dn'.elem.cts = INF →
      (∃ dn, (rshipTable.record s id).getDirtyVersion T = some dn ∧ dn.elem.cts = INF ∧
        dn.updateMode = dn'.updateMode ∧ dn.elem.data.ends = dn'.elem.data.ends) ∨
      ((rshipTable.record s id).getDirtyVersion T = none ∧ dn'.updateMode = true ∧
        ∃ t c H, L.rships id = (t, some c) :: H ∧ t ≤ T ∧
          endsOf c = dn'.elem.data.ends)) : Calm T L s s' := by
  have hop := hi.ofRships ho
  have hnode : ∀ n, nodeTable.record s' n = nodeTable.record s n := rshipOp_node ho
  refine ⟨fun n hb => ?_, fun rid e hs => ?_, fun rid e ha => ?_, fun n hn => ?_,
    fun he rid dn hdn hcts hup => ?_⟩
  · rw [Buried, hnode] at hb
    exact hb
  · by_cases hrid : rid = id
    · rw [hrid] at hs ⊢
      obtain ⟨c, hc, rfl⟩ := hs
      cases hc with
      | committed nothing _ =>
          rw [hown] at nothing
          cases nothing
      | own latest live content =>
          rw [hown] at latest
          cases latest
          rw [content]
          rcases hlive live with ⟨dn, h1, h2, _, h4⟩ | ⟨h1, _, t, c, H, h3, h4, h5⟩
          · exact ⟨_, .own h1 h2 rfl, h4⟩
          · refine ⟨c, .committed h1 (t := t) ?_, h5⟩
            have hsort := (hi.rships.slots id).record.sorted
            rw [h3] at hsort ⊢
            exact latest_head hsort h4
    · rw [SeesRship, hother rid hrid] at hs
      exact hs
  · by_cases hrid : rid = id
    · rw [hrid] at ha ⊢
      obtain ⟨d, hd, hcts, hup, hends⟩ := ha
      rw [hown] at hd
      cases hd
      rcases hlive hcts with ⟨dn, h1, h2, h3, h4⟩ | ⟨_, h2, _⟩
      · exact ⟨dn, h1, h2, h3.trans hup, h4.trans hends⟩
      · rw [hup] at h2
        cases h2
    · rw [Added, hother rid hrid] at ha
      exact ha
  · refine hop.holds hact (fun hne => ?_) hn
    rw [hnode]
    exact hne
  · by_cases hrid : rid = id
    · rw [hrid] at hdn ⊢
      rw [hown] at hdn
      cases hdn
      rcases hlive hcts with ⟨d, h1, h2, h3, h4⟩ | ⟨_, _, hbase⟩
      · obtain ⟨t, c, H, h5, h6, h7⟩ := he id d h1 h2 (h3.trans hup)
        exact ⟨t, c, H, h5, h6, h7.trans h4⟩
      · exact hbase
    · rw [hother rid hrid] at hdn
      exact he rid dn hdn hcts hup

/-- Who updates a relationship for the first time has locked its slot, which
holds the latest version. -/
theorem Updated.base {t : Table α} {v : View t κ β} {H : Nat → Hist κ} {n : Ref}
    {fp : List PItem → List PItem} {fd : α → α} {old : α} (h : v.Inv top H s)
    (hact : Active top s T) (href : RefOk T (t.record s n.id) n.loc)
    (hu : Updated t T n fp fd s old s')
    (hown : (t.record s n.id).getDirtyVersion T = none) :
    ∃ b items H', H n.id = (b, some (v.scheme.img (t.record s n.id).obj.data, items)) :: H' ∧
      b ≤ T := by
  cases hu with
  | again hf =>
      rw [hf.getDirtyVersion] at hown
      cases hown
  | first hr hloc hlock hno _ =>
      rw [hloc] at href
      obtain ⟨_, _, hl, items, H', hlive⟩ := h.lockedBy hact href hlock hno
      have hlt := (hlive.lock (by rw [hl]; exact hact.ne_zero)).1
      rw [hl] at hlt
      have hhead := hlive.head
      rw [hr] at hhead
      refine ⟨_, items, H', hhead, ?_⟩
      rw [hr] at hlt
      exact Nat.le_of_lt hlt

theorem Updated.calm_rship {n : Ref} {fp : List PItem → List PItem}
    {fd : RshipData → RshipData} {old : RshipData} (hi : s.Inv top L)
    (hact : Active top s T) (href : RefOk T (rshipTable.record s n.id) n.loc)
    (ho : rshipView.Op W top L.rships s s') (hfd : ∀ d, (fd d).ends = d.ends)
    (hu : Updated rshipTable T n fp fd s old s') : Calm T L s s' := by
  obtain ⟨hother, dn', hown, hupd⟩ := hu.own rshipView hi.rships hact
  refine hi.calm_rship hact ho hother hown fun hcts => ?_
  cases hupd with
  | again own hc hup hdata =>
      exact .inl ⟨_, own, hc.symm.trans hcts, hup.symm, by rw [hdata, hfd]⟩
  | first own hc hup hdata =>
      obtain ⟨b, items, H, hhead, hle⟩ := hu.base hi.rships hact href own
      refine .inr ⟨own, hup, b, _, H, hhead, hle, ?_⟩
      rw [hdata, hfd]
      rfl

theorem Removed.calm_rship {rid : Nat} (hi : s.Inv top L) (hact : Active top s T)
    (ho : rshipView.Op W top L.rships s s') (hrm : Removed rshipTable T rid s s') :
    Calm T L s s' := by
  obtain ⟨hother, dn', hown, hcts⟩ := hrm.own rshipView hact.lt_inf
  exact hi.calm_rship hact ho hother hown fun hc => absurd hc hcts

end Calls

end Poseidon
