import Poseidon.Proofs.IndexCommit

/-!
# Lookups and scans of a settled store

A lookup through an index and a scan by label can only be compared where
both speak of the same state: nothing is uncommitted, nothing is younger than
the reader, and the scan reaches every record. In such a state a scan by
label delivers the versions in the slots, so an index that is right for them
gives the nodes that the scan gives after a filter on the property, and the
scan of `create_index` fills a new index with what it should hold.
-/

namespace Poseidon

open Wp History

variable {B : KeyMap Nat Nat} {d : Dict}

/-! ## Settled states -/

/-- Nothing is uncommitted or younger than `xid`, and the scans reach the
records in use. -/
@[mk_iff]
structure GraphDb.Settled (s : GraphDb) (xid : Nat) : Prop where
  free : ∀ id ∈ s.nodes.used, (nodeTable.record s id).obj.txnId = 0
  before : ∀ id ∈ s.nodes.used, (nodeTable.record s id).obj.bts ≤ xid
  ended : ∀ id ∈ s.nodes.used, (nodeTable.record s id).obj.cts = INF ∨
    (nodeTable.record s id).obj.cts ≤ xid
  reached : s.nodes.iterate nodesPerChunk = s.nodes.used

instance {s : GraphDb} {xid : Nat} : Decidable (s.Settled xid) :=
  decidable_of_iff' _ (GraphDb.settled_iff ..)

/-- Whether the filter `property = value` of a scan keeps a node: the values
are compared as the index does, without their types. -/
def hasValue (s : GraphDb) (pc v : Nat) (n : Ref) : Bool :=
  match nodeTable.variableValue s n pc with
  | .ok (some p) => p.value == v
  | _ => false

section Reads

variable {s : GraphDb} {top T : Nat} {L : Log}

/-- A record in use that nobody has locked is live or deleted. -/
theorem View.Inv.slot_cases {id : Nat} (h : nodeView.Inv top L.nodes s)
    (hu : (nodeTable.record s id).used = true)
    (hfree : (nodeTable.record s id).obj.txnId = 0) :
    ((nodeTable.record s id).obj.cts = INF ∧ (nodeTable.record s id).obj.bts ≠ 0) ∨
    ∃ H', L.nodes id = ((nodeTable.record s id).obj.cts, none) :: H' ∧
      (nodeTable.record s id).obj.cts ≠ INF := by
  have hrec := (h.slots id).record
  cases hrec.phase with
  | unused hp => rw [hp.used] at hu; cases hu
  | inserting hp => exact absurd hfree hp.locked
  | live hp => exact .inl ⟨hp.cts, hp.bts_ne_zero hrec⟩
  | deleted hp => exact .inr ⟨_, hp.head, Nat.ne_of_lt hp.cts_lt⟩

/-- What a reader finds in a settled state: the slot of a live record, and
nothing of a deleted one. -/
theorem GraphDb.Settled.getValidVersion {id : Nat} {l : Loc} (hs : s.Settled T)
    (h : s.Inv top L) (hsound : s.Sound) (hact : Active top s T)
    (hu : (nodeTable.record s id).used = true) :
    (nodeTable.record s id).getValidVersion T = .ok l ↔
      l = .slot ∧ (nodeTable.record s id).obj.cts = INF := by
  have hmem := (Vec.mem_used hsound.nodes).mpr hu
  have hfree := hs.free id hmem
  have hrec := (h.nodes.slots id).record
  have hlive : (nodeTable.record s id).obj.cts = INF →
      (nodeTable.record s id).getValidVersion T = .ok .slot := by
    intro hcts
    refine (Record.getValidVersion_ok_iff hact.ne_zero).mpr (.inl ⟨hfree, ?_, rfl⟩)
    rw [Obj.isValidFor_iff (hrec.prepared hu), hcts]
    exact ⟨hs.before id hmem, hact.lt_inf⟩
  constructor
  · intro hv
    rcases h.nodes.slot_cases hu hfree with ⟨hcts, _⟩ | ⟨H', hhead, hcts⟩
    · rw [hlive hcts] at hv
      exact ⟨(Except.ok.inj hv).symm, hcts⟩
    · -- the reader would see a version that has ended
      exfalso
      rcases hrec.read hu hact.mem hact.ne_zero hv with ⟨dn, hf, _, _⟩ | ⟨o, c, hrc⟩
      · exact hact.ne_zero (hf.locked.symm.trans hfree)
      · have hsorted := hrec.sorted
        have hlatest := hrc.latest
        rw [hhead] at hsorted hlatest
        have heq := hlatest.unique hsorted
          (latest_head hsorted ((hs.ended id hmem).resolve_left hcts))
        exact Option.some_ne_none c (congrArg Prod.snd heq)
  · rintro ⟨hl, hcts⟩
    rw [hl]
    exact hlive hcts

/-- The scans go through what can be read. -/
theorem GraphDb.Settled.sweep (hs : s.Settled T) (h : s.Inv top L) (hsound : s.Sound)
    (hact : Active top s T) :
    nodeTable.Sweep s T Obj.isValid (s.nodes.iterate nodesPerChunk) := by
  rw [hs.reached]
  refine ⟨Vec.nodup_used _, fun id hid hv => ?_, fun id hu hr => ?_⟩
  · have hu := (Vec.mem_used hsound.nodes).mp hid
    refine ⟨hu, (Record.readable_iff hact.ne_zero).mpr ⟨.slot, ?_⟩⟩
    exact (hs.getValidVersion h hsound hact hu).mpr ⟨rfl, Obj.isValid_iff.mp hv⟩
  · obtain ⟨l, hl⟩ := (Record.readable_iff hact.ne_zero).mp hr
    exact ⟨(Vec.mem_used hsound.nodes).mpr hu,
      Obj.isValid_iff.mpr ((hs.getValidVersion h hsound hact hu).mp hl).2⟩

/-- The version in a slot that holds one. -/
theorem GraphDb.heldNode_eq_some {id : Nat} {c : LabelledItems} (h : s.heldNode id = some c) :
    (nodeTable.record s id).used = true ∧ (nodeTable.record s id).obj.bts ≠ 0 ∧
      (nodeTable.record s id).obj.cts = INF ∧
      c.1 = (nodeTable.record s id).obj.data.nodeLabel := by
  rw [GraphDb.heldNode] at h
  split at h
  · next hc =>
    cases h
    exact ⟨hc.1, hc.2.1, hc.2.2, rfl⟩
  · cases h

/-- A scan by label delivers the slots whose version has the label. -/
theorem GraphDb.Settled.mem_nodesByLabel {lc : Nat} {n : Ref} (hs : s.Settled T)
    (h : s.Inv top L) (hsound : s.Sound) (hact : Active top s T) :
    n ∈ (nodesByLabel s T lc).delivered ↔
      n.loc = .slot ∧ ∃ items, s.heldNode n.id = some (lc, items) := by
  have hexact : Exact nodeTable s T (fun o => o.data.nodeLabel == lc) (nodesByLabel s T lc) :=
    (hs.sweep h hsound hact).scanLoop_exact nodeTable_keepsSound hsound hact.ne_zero
      hact.running
  rw [hexact.mem, Table.byId_returns nodeTable_keepsSound hsound hact.running]
  constructor
  · rintro ⟨⟨_, hu, hv⟩, o, ho, hlabel⟩
    obtain ⟨hloc, hcts⟩ := (hs.getValidVersion h hsound hact hu).mp hv
    refine ⟨hloc, ?_⟩
    rw [hloc] at ho
    cases ho
    have hfree := hs.free n.id ((Vec.mem_used hsound.nodes).mpr hu)
    rcases h.nodes.slot_cases hu hfree with ⟨_, hbts⟩ | ⟨_, _, hne⟩
    · rw [GraphDb.heldNode, if_pos ⟨hu, hbts, hcts⟩, beq_iff_eq.mp hlabel]
      exact ⟨_, rfl⟩
    · exact absurd hcts hne
  · rintro ⟨hloc, items, hheld⟩
    obtain ⟨hu, _, hcts, hlabel⟩ := GraphDb.heldNode_eq_some hheld
    refine ⟨⟨rfl, hu, (hs.getValidVersion h hsound hact hu).mpr ⟨hloc, hcts⟩⟩,
      (nodeTable.record s n.id).obj, ?_, beq_iff_eq.mpr hlabel.symm⟩
    rw [hloc]
    rfl

/-! ## Values of a property -/

/-- The items of a held version are stored, typed, and have distinct keys. -/
theorem View.Inv.heldNode_items {id : Nat} {c : LabelledItems}
    (h : nodeView.Inv top L.nodes s) (hsound : s.Sound) (hheld : s.heldNode id = some c) :
    ∃ ids, s.nodeProperties.Chain id (nodeTable.record s id).obj.data.propertyList ids ∧
      c.2 = s.nodeProperties.cells ids ∧ Keyed c.2 ∧ Typed c.2 := by
  obtain ⟨hu, hbts, hcts, _⟩ := GraphDb.heldNode_eq_some hheld
  obtain ⟨ids, hb⟩ := (h.slots id).backed hu hcts hbts
  have hchain : s.nodeProperties.Chain id
      (nodeTable.record s id).obj.data.propertyList ids := hb.chain
  have hitems : c.2 = s.nodeProperties.cells ids := by
    rw [GraphDb.heldNode, if_pos ⟨hu, hbts, hcts⟩, hchain.buildDirtyPropertyList] at hheld
    exact (congrArg Prod.snd (Option.some.inj hheld)).symm
  refine ⟨ids, hchain, hitems, hitems ▸ hb.keyed, ?_⟩
  intro p hp hk
  rw [hitems] at hp
  obtain ⟨ps, hps, hmem⟩ := List.mem_flatMap.mp (List.mem_filter.mp hp).1
  obtain ⟨i, _, hi⟩ := List.mem_filterMap.mp hps
  exact hsound.nodeProperties i ps hi p hmem hk

/-- What the table says about a property of a held version. -/
theorem View.Inv.getPropertyValue {id pc : Nat} {c : LabelledItems}
    (h : nodeView.Inv top L.nodes s) (hsound : s.Sound) (hpc : pc ≠ 0)
    (hheld : s.heldNode id = some c) :
    nodeTable.getPropertyValue s (nodeTable.record s id).obj pc =
      .ok ((lookupItem c.2 pc).getD PItem.zero) := by
  obtain ⟨ids, hchain, hitems, _⟩ := h.heldNode_items hsound hheld
  rw [hitems]
  exact hchain.propertyValue hpc

/-- The filter of a scan on a held version. -/
theorem View.Inv.hasValue_iff {n : Ref} {pc v : Nat} {c : LabelledItems}
    (h : nodeView.Inv top L.nodes s) (hsound : s.Sound) (hpc : pc ≠ 0)
    (hheld : s.heldNode n.id = some c) (hloc : n.loc = .slot) :
    hasValue s pc v n = true ↔ ∃ p ∈ c.2, p.key = pc ∧ p.value = v := by
  obtain ⟨_, _, _, hkeyed, htyped⟩ := h.heldNode_items hsound hheld
  have hvalue := h.getPropertyValue hsound hpc hheld
  have hvar : nodeTable.variableValue s n pc = .ok (lookupItem c.2 pc) := by
    simp only [Table.variableValue, hloc, Record.deref, hvalue, Except.map]
    cases hq : lookupItem c.2 pc with
    | none => rfl
    | some q =>
        have hmem := (lookupItem_spec hq).1
        have hstored := htyped q hmem (hkeyed.ne_zero q hmem)
        cases htc : q.typecode with
        | none => rw [htc] at hstored; cases hstored
        | unused => rw [htc] at hstored; cases hstored
        | int => simp only [Option.getD_some, htc]
        | double => simp only [Option.getD_some, htc]
        | dcode => simp only [Option.getD_some, htc]
        | uint64 => simp only [Option.getD_some, htc]
        | ptime => simp only [Option.getD_some, htc]
  rw [hasValue, hvar]
  constructor
  · intro hv
    cases hq : lookupItem c.2 pc with
    | none => rw [hq] at hv; cases hv
    | some q =>
        rw [hq] at hv
        exact ⟨q, (lookupItem_spec hq).1, (lookupItem_spec hq).2, beq_iff_eq.mp hv⟩
  · rintro ⟨p, hp, hkey, hval⟩
    rw [← hkey, lookupItem_eq_some hkeyed.distinct hp]
    exact beq_iff_eq.mpr hval

/-! ## Lookups -/

/-- The name of the index stands for this label and property, and for no
others that the nodes have. -/
@[mk_iff]
structure NameFits (d : Dict) (s : GraphDb) (nodeLabel propName : String) : Prop where
  known : d.lookupString propName ≠ 0
  alone : ∀ id ∈ s.nodes.used, ∀ c ∈ s.heldNode id, ∀ p ∈ c.2,
    (d.indexName c.1 p.key = indexName nodeLabel propName ↔
      c.1 = d.lookupString nodeLabel ∧ p.key = d.lookupString propName)

instance {s : GraphDb} {nodeLabel propName : String} :
    Decidable (NameFits d s nodeLabel propName) := decidable_of_iff' _ (nameFits_iff ..)

variable {nodeLabel propName : String} {tree : B.Map} {v : Nat}

/-- What a right index holds under a name that fits. -/
theorem NameFits.holds_iff {id : Nat} (hn : NameFits d s nodeLabel propName)
    (hsound : s.Sound) :
    d.holds s.heldNode (indexName nodeLabel propName) v id ↔
      ∃ items, s.heldNode id = some (d.lookupString nodeLabel, items) ∧
        ∃ p ∈ items, p.key = d.lookupString propName ∧ p.value = v := by
  constructor
  · rintro ⟨c, hc, hm⟩
    obtain ⟨p, hp, heq⟩ := List.mem_map.mp hm
    rw [Prod.mk.injEq] at heq
    have hu := (GraphDb.heldNode_eq_some hc).1
    obtain ⟨hlabel, hkey⟩ := (hn.alone id ((Vec.mem_used hsound.nodes).mpr hu) c hc p hp).mp heq.1
    exact ⟨c.2, by rw [← hlabel]; exact hc, p, hp, hkey, heq.2⟩
  · rintro ⟨items, hheld, p, hp, hkey, hval⟩
    have hu := (GraphDb.heldNode_eq_some hheld).1
    refine ⟨_, hheld, List.mem_map.mpr ⟨p, hp, ?_⟩⟩
    rw [Prod.mk.injEq]
    exact ⟨(hn.alone id ((Vec.mem_used hsound.nodes).mpr hu) _ hheld p hp).mpr ⟨rfl, hkey⟩, hval⟩

/-- The filtered scan delivers what a right index holds. -/
theorem GraphDb.Settled.mem_filter {n : Ref} (hs : s.Settled T) (h : s.Inv top L)
    (hsound : s.Sound) (hact : Active top s T) (hn : NameFits d s nodeLabel propName) :
    n ∈ (nodesByLabel s T (d.lookupString nodeLabel)).delivered.filter
        (hasValue s (d.lookupString propName) v) ↔
      n.loc = .slot ∧ d.holds s.heldNode (indexName nodeLabel propName) v n.id := by
  rw [List.mem_filter, hs.mem_nodesByLabel h hsound hact, hn.holds_iff hsound]
  constructor
  · rintro ⟨⟨hloc, items, hheld⟩, hv⟩
    exact ⟨hloc, items, hheld, (h.nodes.hasValue_iff hsound hn.known hheld hloc).mp hv⟩
  · rintro ⟨hloc, items, hheld, hp⟩
    exact ⟨⟨hloc, items, hheld⟩, (h.nodes.hasValue_iff hsound hn.known hheld hloc).mpr hp⟩

/-- A lookup through a right index yields what the filtered scan yields. -/
theorem GraphDb.Settled.indexLookup (hs : s.Settled T) (h : s.Inv top L)
    (hsound : s.Sound) (hact : Active top s T) (hn : NameFits d s nodeLabel propName)
    (htree : B.Holds tree (d.holds s.heldNode (indexName nodeLabel propName))) :
    (nodesByLabel s T (d.lookupString nodeLabel)).ended = none ∧
    Returns (indexLookup T tree v) s
      ((nodesByLabel s T (d.lookupString nodeLabel)).delivered.filter
        (hasValue s (d.lookupString propName) v)) := by
  have hexact : Exact nodeTable s T (fun o => o.data.nodeLabel == d.lookupString nodeLabel)
      (nodesByLabel s T (d.lookupString nodeLabel)) :=
    (hs.sweep h hsound hact).scanLoop_exact nodeTable_keepsSound hsound hact.ne_zero
      hact.running
  refine ⟨hexact.ended, ?_⟩
  have hmem : ∀ n, _ ↔ _ := fun n => hs.mem_filter (n := n) (v := v) h hsound hact hn
  cases hl : B.lookup tree v with
  | none =>
      have hnil : (nodesByLabel s T (d.lookupString nodeLabel)).delivered.filter
          (hasValue s (d.lookupString propName) v) = [] := by
        refine List.eq_nil_iff_forall_not_mem.mpr fun n hmem' => ?_
        have hholds := (htree.lookup v n.id).mpr ((hmem n).mp hmem').2
        rw [hl] at hholds
        cases hholds
      rw [hnil, returns_iff]
      simp only [Poseidon.indexLookup, hl, wp_pure]
  | some id =>
      have hholds := (htree.lookup v id).mp hl
      have hin := (hmem ⟨id, .slot⟩).mpr ⟨rfl, hholds⟩
      have hone : (nodesByLabel s T (d.lookupString nodeLabel)).delivered.filter
          (hasValue s (d.lookupString propName) v) = [⟨id, .slot⟩] := by
        refine List.perm_singleton.mp ((List.perm_ext_iff_of_nodup
          ((List.Nodup.of_map _ hexact.once).filter _) (List.nodup_singleton _)).mpr
          fun n => ?_)
        rw [List.mem_singleton]
        constructor
        · intro hn'
          obtain ⟨hloc, hr⟩ := (hmem n).mp hn'
          obtain ⟨nid, loc⟩ := n
          rw [Ref.mk.injEq]
          exact ⟨htree.unique hr hholds, hloc⟩
        · intro hn'
          rw [hn']
          exact hin
      obtain ⟨hret, _⟩ := (hexact.mem ⟨id, .slot⟩).mp (List.mem_filter.mp hin).1
      rw [hone, returns_iff]
      simp only [Poseidon.indexLookup, hl, wp_bind, wp_pure, nodeById]
      exact wp_mono (returns_iff.mp hret) (fun _ _ hb => by rw [hb]) fun _ _ hF => hF

/-! ## New indexes -/

/-- What `create_index` relies on: every node of the label has the property,
and no two have the same value. -/
@[mk_iff]
structure CreateFits (d : Dict) (s : GraphDb) (xid : Nat) (nodeLabel propName : String) :
    Prop where
  settled : s.Settled xid
  name : NameFits d s nodeLabel propName
  present : ∀ id ∈ s.nodes.used, ∀ c ∈ s.heldNode id, c.1 = d.lookupString nodeLabel →
    (lookupItem c.2 (d.lookupString propName)).isSome = true
  distinct : ∀ id ∈ s.nodes.used, ∀ c ∈ s.heldNode id, c.1 = d.lookupString nodeLabel →
    ∀ id' ∈ s.nodes.used, ∀ c' ∈ s.heldNode id', c'.1 = d.lookupString nodeLabel →
      (lookupItem c.2 (d.lookupString propName)).map PItem.value =
        (lookupItem c'.2 (d.lookupString propName)).map PItem.value → id = id'

instance {s : GraphDb} {xid : Nat} {nodeLabel propName : String} :
    Decidable (CreateFits d s xid nodeLabel propName) :=
  decidable_of_iff' _ (createFits_iff ..)

/-- A node that the loop of `create_index` inserts with the value `val`. -/
def Fills (s : GraphDb) (pc : Nat) (n : Ref) (val : Nat) : Prop :=
  ∃ o p, (nodeTable.record s n.id).deref n.loc = some o ∧ o.data.id = n.id ∧
    nodeTable.getPropertyValue s o pc = .ok p ∧ p.empty = false ∧ p.value = val

/-- The loop of `create_index` adds the nodes that it is given. -/
theorem fillIndex_holds (val : Ref → Nat) {pc : Nat} {ns : List Ref} :
    ∀ {tree tree' : B.Map} {R : Nat → Nat → Prop}, fillIndex s pc tree ns = .ok tree' →
      B.Holds tree R → (∀ n ∈ ns, Fills s pc n (val n)) →
      (∀ n ∈ ns, ∀ m ∈ ns, val n = val m → n.id = m.id) →
      (∀ n ∈ ns, ∀ j, R (val n) j → j = n.id) →
      B.Holds tree' fun v j => R v j ∨ ∃ n ∈ ns, val n = v ∧ n.id = j := by
  induction ns with
  | nil =>
      intro tree tree' R hok hR _ _ _
      cases hok
      exact hR.congr fun v j => by simp
  | cons n ns ih =>
      intro tree tree' R hok hR hfill hdist hfree
      obtain ⟨o, p, ho, hid, hp, hne, hval⟩ := hfill n (List.mem_cons_self ..)
      simp only [fillIndex, ho, hp, hne, Bool.false_eq_true, if_false, hval, hid] at hok
      have hins := hR.insert (hfree n (List.mem_cons_self ..))
      refine (ih hok hins (fun m hm => hfill m (List.mem_cons_of_mem _ hm))
        (fun m hm m' hm' => hdist m (List.mem_cons_of_mem _ hm) m'
          (List.mem_cons_of_mem _ hm')) fun m hm j hr => ?_).congr fun v j => ?_
      · rcases hr with hr | ⟨hv, hj⟩
        · exact hfree m (List.mem_cons_of_mem _ hm) j hr
        · rw [hj]
          exact (hdist m (List.mem_cons_of_mem _ hm) n (List.mem_cons_self ..) hv).symm
      · simp only [List.mem_cons, exists_eq_or_imp]
        rw [or_assoc, eq_comm (a := val n), eq_comm (a := n.id)]

/-- The new index is right. -/
theorem CreateFits.fillIndex (hc : CreateFits d s T nodeLabel propName) (h : s.Inv top L)
    (hsound : s.Sound) (hact : Active top s T)
    (hok : fillIndex s (d.lookupString propName) B.empty
      (nodesByLabel s T (d.lookupString nodeLabel)).delivered = .ok tree) :
    B.Holds tree (d.holds s.heldNode (indexName nodeLabel propName)) := by
  -- what the index has for a node of the label
  have held : ∀ n ∈ (nodesByLabel s T (d.lookupString nodeLabel)).delivered, ∃ items q,
      n.loc = .slot ∧ n.id ∈ s.nodes.used ∧
      s.heldNode n.id = some (d.lookupString nodeLabel, items) ∧
      lookupItem items (d.lookupString propName) = some q := by
    intro n hn
    obtain ⟨hloc, items, hheld⟩ := (hc.settled.mem_nodesByLabel h hsound hact).mp hn
    have hu := (Vec.mem_used hsound.nodes).mpr (GraphDb.heldNode_eq_some hheld).1
    obtain ⟨q, hq⟩ := Option.isSome_iff_exists.mp (hc.present n.id hu _ hheld rfl)
    exact ⟨items, q, hloc, hu, hheld, hq⟩
  have value : ∀ n items q, s.heldNode n = some (d.lookupString nodeLabel, items) →
      lookupItem items (d.lookupString propName) = some q →
      (((s.heldNode n).bind fun c => lookupItem c.2 (d.lookupString propName)).map
        PItem.value).getD 0 = q.value := by
    intro n items q hheld hq
    rw [hheld, Option.bind_some, hq]
    rfl
  have hfilled := fillIndex_holds (fun n =>
    (((s.heldNode n.id).bind fun c => lookupItem c.2 (d.lookupString propName)).map
      PItem.value).getD 0) (R := fun _ _ => False) hok (KeyMap.Holds.empty fun _ _ hr => hr)
      (fun n hn => ?_)
    (fun n hn m hm heq => ?_) fun _ _ _ hr => hr.elim
  · refine hfilled.congr fun v j => ?_
    rw [hc.name.holds_iff hsound]
    constructor
    · rintro ⟨items, hheld, p, hp, hkey, hv⟩
      obtain ⟨_, _, _, hkeyed, _⟩ := h.nodes.heldNode_items hsound hheld
      have hq : lookupItem items (d.lookupString propName) = some p := by
        rw [← hkey]
        exact lookupItem_eq_some hkeyed.distinct hp
      refine .inr ⟨⟨j, .slot⟩, ?_, (value j items p hheld hq).trans hv, rfl⟩
      exact (hc.settled.mem_nodesByLabel h hsound hact).mpr ⟨rfl, items, hheld⟩
    · intro hr
      obtain ⟨n, hn, hv, hj⟩ := hr.resolve_left fun hf => hf
      obtain ⟨items, q, _, _, hheld, hq⟩ := held n hn
      rw [← hj]
      exact ⟨items, hheld, q, (lookupItem_spec hq).1, (lookupItem_spec hq).2,
        (value n.id items q hheld hq).symm.trans hv⟩
  · obtain ⟨items, q, hloc, hu, hheld, hq⟩ := held n hn
    obtain ⟨_, _, _, hkeyed, htyped⟩ := h.nodes.heldNode_items hsound hheld
    have hgot := h.nodes.getPropertyValue hsound hc.name.known hheld
    have hmem := (lookupItem_spec hq).1
    have hstored := htyped q hmem (hkeyed.ne_zero q hmem)
    rw [hq] at hgot
    refine ⟨(nodeTable.record s n.id).obj, q, by rw [hloc]; rfl, ?_, hgot, ?_,
      (value n.id items q hheld hq).symm⟩
    · exact (h.nodes.slots n.id).named.slot ((Vec.mem_used hsound.nodes).mp hu)
    · rw [PItem.empty, beq_eq_false_iff_ne]
      intro htc
      rw [htc] at hstored
      cases hstored
  · obtain ⟨items, q, _, hu, hheld, hq⟩ := held n hn
    obtain ⟨items', q', _, hu', hheld', hq'⟩ := held m hm
    rw [value n.id items q hheld hq, value m.id items' q' hheld' hq'] at heq
    refine hc.distinct n.id hu _ hheld rfl m.id hu' _ hheld' rfl ?_
    show (lookupItem items _).map PItem.value = (lookupItem items' _).map PItem.value
    rw [hq, hq', Option.map_some, Option.map_some, heq]

/-- `create_index` leaves the store alone, and right indexes right. -/
theorem createIndex_spec {s : IndexedDb B} (h : s.db.Inv top L) (hsound : s.db.Sound)
    (hact : (s.db.txs T).running = true → Active top s.db T)
    (hix : Indexed s.indexes (d.holds s.db.heldNode))
    (hfits : (s.db.txs T).running = true → s.indexes (indexName nodeLabel propName) = none →
      CreateFits d s.db T nodeLabel propName) :
    always (createIndex d T nodeLabel propName) (fun s' => s'.db = s.db ∧
      Indexed s'.indexes (d.holds s.db.heldNode)) s := by
  simp only [createIndex, always, wp_bind, wp_onDb, wp_get]
  refine wp_checkTxContext.mpr ⟨fun hrun => ?_, fun _ => ⟨rfl, hix⟩⟩
  split
  · exact ⟨rfl, hix⟩
  · exact ⟨rfl, hix⟩
  · next tree hfill hended =>
    refine ⟨rfl, fun name t ht => ?_⟩
    simp only [IndexMap.register] at ht
    split at ht
    · next hname =>
      subst hname
      cases hold : s.indexes (indexName nodeLabel propName) with
      | some t' =>
          rw [hold] at ht
          cases ht
          exact hix _ _ hold
      | none =>
          rw [hold] at ht
          cases ht
          exact (hfits hrun hold).fillIndex h hsound (hact hrun) hfill
    · exact hix _ _ ht

end Reads

end Poseidon
