import Poseidon.Proofs.Reads

/-!
# Four ways to read a property

The descriptions, `get_valid_*_property_value`, the property tests and the
variables of the expression interpreter each choose on their own between the
property table and the items kept with a dirty version. The module states
what it means that they agree with the version that the transaction's read
returned, and when they do: the table has to hold the value, and as long as
the record has dirty versions, one of them has to be valid for the
transaction and hold the same value.
-/

namespace Poseidon

open Wp

variable {α : Type}

/-- The value of an item; an item without a stored type has none. -/
def PItem.stored (p : PItem) : Option PItem :=
  if p.typecode.stored then some p else none

/-- The item of `k` in the version behind a reference that a read returned:
the current version keeps its properties in the table, all others in a dirty
object, if there is one. -/
def Table.snapshotItem (t : Table α) (s : GraphDb) (xid : Nat) (n : Ref)
    (k : Nat) : Except Err (Option PItem) :=
  let r := t.record s n.id
  if n.loc = .slot ∧ (r.obj.isValid = true ∨ r.hasDirtyVersions = false) then
    (t.getPropertyValue s r.obj k).map some
  else (r.findValidVersion xid).map fun dn => lookupItem dn.properties k

/-- All reads of property `k` return normally and give `res`. -/
structure ReadsGive (description : DbM (List PItem)) (s : GraphDb) (k : Nat)
    (valid test expr snapshot : Except Err (Option PItem))
    (res : Option PItem) : Prop where
  description : ∃ props, Returns description s props ∧ lookupItem props k = res
  valid : valid.map (Option.bind · PItem.stored) = .ok res
  test : test = .ok res
  expr : expr = .ok res
  snapshot : snapshot.map (Option.bind · PItem.stored) = .ok res

/-- The reads of a property of a node agree. -/
def NodeReadsAgree (s : GraphDb) (xid : Nat) (n : Ref) (k : Nat) : Prop :=
  ∃ res, ReadsGive (NodeDescription.properties <$> getNodeDescription xid n.id)
    s k (nodeTable.getValidPropertyValue s xid n k) (isNodePropertyValue s n k)
    (nodeTable.variableValue s n k) (nodeTable.snapshotItem s xid n k) res

/-- The reads of a property of a relationship agree. -/
def RshipReadsAgree (s : GraphDb) (xid : Nat) (n : Ref) (k : Nat) : Prop :=
  ∃ res, ReadsGive (RshipDescription.properties <$> getRshipDescription xid n.id)
    s k (rshipTable.getValidPropertyValue s xid n k)
    (isRelationshipPropertyValue s n k) (rshipTable.variableValue s n k)
    (rshipTable.snapshotItem s xid n k) res

/-- The property table and the dirty versions hold the same value `v` of
`k` for the object `o` of a record. -/
structure Table.Holds (t : Table α) (s : GraphDb) (xid : Nat) (r : Record α)
    (o : Obj α) (k : Nat) (v : PItem) : Prop where
  stored : v.typecode.stored = true
  table : (t.props s).propertyValue (t.propertyList o.data) k = .ok v
  dirty : r.hasDirtyVersions = true →
    ∃ dn, r.findValidVersion xid = .ok dn ∧ lookupItem dn.properties k = some v

/-- When the reads of property `k` of a node agree: the table and the dirty
versions hold the same value, and the chain can be read to its end if the
description reads it. -/
def NodeReadCondition (s : GraphDb) (xid : Nat) (n : Ref) (k : Nat) : Prop :=
  ∃ o v, (nodeTable.record s n.id).deref n.loc = some o ∧
    nodeTable.Holds s xid (nodeTable.record s n.id) o k v ∧
    ((nodeTable.record s n.id).hasDirtyVersions = false ∨
        (o.isDirty = false ∧ o.isValidFor xid = true ∧ o.cts = INF) →
      ∃ items, s.nodeProperties.chainItems o.data.propertyList = .ok items)

/-- When the reads of property `k` of a relationship agree. In addition the
chain that starts at the slot number of the relationship has to hold the
same value. -/
def RshipReadCondition (s : GraphDb) (xid : Nat) (n : Ref) (k : Nat) : Prop :=
  ∃ o v, (rshipTable.record s n.id).deref n.loc = some o ∧
    rshipTable.Holds s xid (rshipTable.record s n.id) o k v ∧
    s.rshipProperties.propertyValue o.data.id k = .ok v ∧
    ((rshipTable.record s n.id).hasDirtyVersions = false ∨
        (o.isDirty = false ∧ o.isValidFor xid = true) →
      ∃ items, s.rshipProperties.chainItems o.data.propertyList = .ok items)

/-! ## The property table -/

theorem PItem.stored_eq_some {p v : PItem} :
    p.stored = some v ↔ p = v ∧ v.typecode.stored = true := by
  simp only [PItem.stored]
  split
  · next h =>
      constructor
      · intro hv; cases hv; exact ⟨rfl, h⟩
      · rintro ⟨rfl, _⟩; rfl
  · next h =>
      constructor
      · intro hv; cases hv
      · rintro ⟨rfl, hs⟩; exact absurd hs h

namespace PropertyList

/-- A value that `property_value` returns is the zero item or an item of the
key. -/
theorem propertyValueLoop_typed {t : PropertyList} (h : t.Sound) {k : Nat}
    (hk : k ≠ 0) :
    ∀ {fuel id : Nat} {v : PItem}, t.propertyValueLoop k fuel id = .ok v →
      v = PItem.zero ∨ v.typecode.stored = true := by
  intro fuel
  induction fuel with
  | zero =>
      intro id v hv
      simp only [propertyValueLoop] at hv
      split at hv
      · cases hv; exact .inl rfl
      · cases hv
  | succ fuel ih =>
      intro id v hv
      simp only [propertyValueLoop] at hv
      split at hv
      · cases hv; exact .inl rfl
      · split at hv
        · cases hv; exact .inl rfl
        · cases hv
        · next p hat =>
            split at hv
            · next hl =>
                cases hv
                have hkey : v.key = k := by
                  simpa using List.find?_some hl
                exact .inr (h.atId hat v (List.mem_of_find?_eq_some hl)
                  (by rw [hkey]; exact hk))
            · exact ih hv

/-- The first item of a key in a readable chain is what `property_value`
returns, if it is not the zero item. -/
theorem lookupItem_of_propertyValueLoop {t : PropertyList} {k : Nat} :
    ∀ {fuel id : Nat} {v : PItem} {ps : List PropertySet},
      t.propertyValueLoop k fuel id = .ok v → v.typecode.stored = true →
        t.walk fuel id = .ok ps →
          lookupItem (ps.flatMap PropertySet.items) k = some v := by
  intro fuel
  induction fuel with
  | zero =>
      intro id v ps hv hs _
      simp only [propertyValueLoop] at hv
      split at hv
      · cases hv; cases hs
      · cases hv
  | succ fuel ih =>
      intro id v ps hv hs hw
      simp only [propertyValueLoop] at hv
      simp only [walk] at hw
      split at hv
      · cases hv; cases hs
      · next hid =>
          rw [if_neg hid] at hw
          cases hat : t.atId id with
          | error e => rw [hat] at hw; cases hw
          | ok p =>
              simp only [hat] at hv hw
              cases hr : t.walk fuel p.next with
              | error e => rw [hr] at hw; cases hw
              | ok rest =>
                  rw [hr] at hw
                  cases hw
                  rw [List.flatMap_cons, lookupItem, List.find?_append]
                  cases hl : lookupItem p.items k with
                  | some item =>
                      rw [hl] at hv
                      cases hv
                      rw [lookupItem] at hl
                      rw [hl]
                      rfl
                  | none =>
                      rw [hl] at hv
                      rw [lookupItem] at hl
                      rw [hl]
                      exact ih hv hs hr

end PropertyList

/-! ## The descriptions -/

theorem Record.deref_recordRead {r : Record α} (xid : Nat) {l : Loc} {o : Obj α}
    (ho : r.deref l = some o) (hp : r.obj.prepared = true) :
    ∃ o', (r.recordRead xid).deref l = some o' ∧ o'.data = o.data ∧
      o'.isDirty = o.isDirty ∧ o'.cts = o.cts ∧
      o'.isValidFor xid = o.isValidFor xid := by
  cases l with
  | slot =>
      cases ho
      refine ⟨_, rfl, ?_⟩
      simp only [Record.recordRead, Obj.isValidFor, Obj.setRts_data,
        Obj.setRts_isDirty, Obj.setRts_cts, Obj.setRts_bts,
        Obj.setRts_prepared, hp]
      exact ⟨rfl, rfl, rfl, rfl⟩
  | copy a => exact ⟨o, ho, rfl, rfl, rfl, rfl⟩

/-- A point read that returns, as a step of a longer computation. -/
theorem Table.byId_wp {t : Table α} {s : GraphDb} {xid id : Nat} {l : Loc}
    (hrun : (s.txs xid).running = true) (hu : (t.record s id).used = true)
    (hp : (t.record s id).obj.prepared = true)
    (hl : (t.record s id).getValidVersion xid = .ok l)
    {Q : Ref → GraphDb → Prop} {E : Err → GraphDb → Prop} :
    wp (t.byId xid id) Q E s ↔
      Q ⟨id, l⟩ (t.setRecord id ((t.record s id).recordRead xid) s) := by
  simp only [Table.byId, Table.getRecord, wp_bind, wp_checkTxContext, wp_get,
    wp_modify, wp_pure, wp_ofExcept, hrun, Vec.get]
  have hrec : (t.vec s).slots id = t.record s id := rfl
  have hv := Record.getValidVersion_recordRead xid hp
  rw [hl] at hv
  rw [hrec, if_pos hu]
  simp only [Except.ok.injEq, forall_eq', reduceCtorEq, false_implies,
    implies_true, and_true, forall_const]
  constructor
  · intro h; exact h.1 l hv
  · intro h
    refine ⟨fun b hb => ?_, fun e he => ?_⟩
    · rw [Record.recordRead] at hv
      rw [hv] at hb
      cases hb
      exact h
    · rw [Record.recordRead] at hv
      rw [hv] at he
      cases he

@[simp] theorem nodeTable_record_setRecord (s : GraphDb) (id : Nat)
    (r : Record NodeData) :
    nodeTable.record (nodeTable.setRecord id r s) id = r := by
  simp [Table.record, Table.setRecord, nodeTable, Vec.put]

@[simp] theorem rshipTable_record_setRecord (s : GraphDb) (id : Nat)
    (r : Record RshipData) :
    rshipTable.record (rshipTable.setRecord id r s) id = r := by
  simp [Table.record, Table.setRecord, rshipTable, Vec.put]

section Descriptions

variable {s : GraphDb} {xid : Nat} {n : Ref} (hs : s.Sound)
  (hrun : (s.txs xid).running = true) (props : List PItem)
include hs hrun

/-- Where the description of a node takes the properties from. -/
theorem getNodeDescription_returns {o : Obj NodeData}
    (hn : Returns (nodeById xid n.id) s n)
    (ho : (nodeTable.record s n.id).deref n.loc = some o) :
    Returns (NodeDescription.properties <$> getNodeDescription xid n.id) s props ↔
      if !(nodeTable.record s n.id).hasDirtyVersions ||
          (!o.isDirty && o.isValidFor xid && o.cts == INF) then
        s.nodeProperties.allProperties o.data.propertyList = .ok props
      else ∃ dn, (nodeTable.record s n.id).findValidVersion xid = .ok dn ∧
        buildPropertiesFromPitems dn.properties = props := by
  obtain ⟨_, hu, hl⟩ := (Table.byId_returns nodeTable_keepsSound hs hrun).mp hn
  have hp := (nodeTable_keepsSound.record s n.id hs).prepared hu
  obtain ⟨o', ho', hdata, hdirty, hcts, hval⟩ :=
    Record.deref_recordRead xid ho hp
  rw [returns_iff, wp_map]
  simp only [getNodeDescription, wp_bind]
  rw [nodeById, Table.byId_wp hrun hu hp hl]
  simp only [Table.read, wp_bind, wp_get, nodeTable_record_setRecord, ho', wp_pure]
  rw [hdirty, hval, hcts, hdata]
  have hdv : ((nodeTable.record s n.id).recordRead xid).hasDirtyVersions =
      (nodeTable.record s n.id).hasDirtyVersions := rfl
  have hfv : ((nodeTable.record s n.id).recordRead xid).findValidVersion xid =
      (nodeTable.record s n.id).findValidVersion xid := rfl
  have hprops : (nodeTable.setRecord n.id
      ((nodeTable.record s n.id).recordRead xid) s).nodeProperties =
      s.nodeProperties := rfl
  rw [hdv, hfv, hprops]
  split
  · simp only [wp_bind, wp_ofExcept, wp_pure]
    cases s.nodeProperties.allProperties o.data.propertyList with
    | error e => simp
    | ok ps => simp
  · simp only [wp_bind, wp_ofExcept, wp_pure]
    cases (nodeTable.record s n.id).findValidVersion xid with
    | error e => simp
    | ok dn => simp

/-- Where the description of a relationship takes the properties from. -/
theorem getRshipDescription_returns {o : Obj RshipData}
    (hn : Returns (rshipById xid n.id) s n)
    (ho : (rshipTable.record s n.id).deref n.loc = some o) :
    Returns (RshipDescription.properties <$> getRshipDescription xid n.id) s props ↔
      if !(rshipTable.record s n.id).hasDirtyVersions ||
          (!o.isDirty && o.isValidFor xid) then
        s.rshipProperties.allProperties o.data.propertyList = .ok props
      else ∃ dn, (rshipTable.record s n.id).findValidVersion xid = .ok dn ∧
        buildPropertiesFromPitems dn.properties = props := by
  obtain ⟨_, hu, hl⟩ := (Table.byId_returns rshipTable_keepsSound hs hrun).mp hn
  have hp := (rshipTable_keepsSound.record s n.id hs).prepared hu
  obtain ⟨o', ho', hdata, hdirty, hcts, hval⟩ :=
    Record.deref_recordRead xid ho hp
  rw [returns_iff, wp_map]
  simp only [getRshipDescription, wp_bind]
  rw [rshipById, Table.byId_wp hrun hu hp hl]
  simp only [Table.read, wp_bind, wp_get, rshipTable_record_setRecord, ho', wp_pure]
  rw [hdirty, hval, hdata]
  have hdv : ((rshipTable.record s n.id).recordRead xid).hasDirtyVersions =
      (rshipTable.record s n.id).hasDirtyVersions := rfl
  have hfv : ((rshipTable.record s n.id).recordRead xid).findValidVersion xid =
      (rshipTable.record s n.id).findValidVersion xid := rfl
  have hprops : (rshipTable.setRecord n.id
      ((rshipTable.record s n.id).recordRead xid) s).rshipProperties =
      s.rshipProperties := rfl
  rw [hdv, hfv, hprops]
  split
  · simp only [wp_bind, wp_ofExcept, wp_pure]
    cases s.rshipProperties.allProperties o.data.propertyList with
    | error e => simp
    | ok ps => simp
  · simp only [wp_bind, wp_ofExcept, wp_pure]
    cases (rshipTable.record s n.id).findValidVersion xid with
    | error e => simp
    | ok dn => simp

end Descriptions

/-! ## Agreement -/

namespace PropertyList

/-- A chain that holds a value starts at a set of the table. -/
theorem propertyValue_lt {t : PropertyList} {id k : Nat} {v : PItem}
    (h : t.propertyValue id k = .ok v) (hs : v.typecode.stored = true) :
    id < t.capacity := by
  simp only [propertyValue, propertyValueLoop] at h
  split at h
  · cases h; cases hs
  · by_cases hc : t.capacity ≤ id
    · simp only [atId, if_pos hc] at h
      cases h
    · omega

theorem allProperties_of_chainItems {t : PropertyList} {id k : Nat} {v : PItem}
    {items : List PItem} (h : t.propertyValue id k = .ok v)
    (hs : v.typecode.stored = true) (hc : t.chainItems id = .ok items) :
    ∃ props, t.allProperties id = .ok props ∧ lookupItem props k = some v := by
  have hlt := propertyValue_lt h hs
  refine ⟨buildPropertiesFromPitems items, ?_, lookupItem_buildProperties ?_ hs⟩
  · rw [allProperties, if_neg (by omega), hc]
    rfl
  · simp only [chainItems] at hc
    cases hw : t.walk (t.capacity + 1) id with
    | error e => rw [hw] at hc; cases hc
    | ok ps =>
        rw [hw] at hc
        cases hc
        exact lookupItem_of_propertyValueLoop h hs hw

theorem chainItems_of_allProperties {t : PropertyList} {id k : Nat} {v : PItem}
    {props : List PItem} (h : t.allProperties id = .ok props)
    (hl : lookupItem props k = some v) : ∃ items, t.chainItems id = .ok items := by
  simp only [allProperties] at h
  split at h
  · cases h; cases hl
  · cases hc : t.chainItems id with
    | error e => rw [hc] at h; cases h
    | ok items => exact ⟨items, rfl⟩

end PropertyList

theorem Except.map_stored {x : Except Err (Option PItem)} {v : PItem} :
    x.map (Option.bind · PItem.stored) = .ok (some v) ↔
      x = .ok (some v) ∧ v.typecode.stored = true := by
  cases x with
  | error e => simp [Except.map]
  | ok p =>
      cases p with
      | none => simp [Except.map]
      | some p =>
          simp only [Except.map, Except.ok.injEq, Option.bind_some,
            PItem.stored_eq_some, Option.some.injEq]

section Agreement

variable {t : Table α} {s : GraphDb} {xid k : Nat} {n : Ref} {o : Obj α}

theorem Table.variableValue_iff
    (ho : (t.record s n.id).deref n.loc = some o) {v : PItem} :
    t.variableValue s n k = .ok (some v) ↔
      (t.props s).propertyValue (t.propertyList o.data) k = .ok v ∧
        v.typecode.stored = true := by
  simp only [Table.variableValue, ho, Table.getPropertyValue]
  cases (t.props s).propertyValue (t.propertyList o.data) k with
  | error e => simp [Except.map]
  | ok p =>
      obtain ⟨key, tc, val⟩ := p
      cases tc <;> simp only [Except.map, Except.ok.injEq, reduceCtorEq,
        Option.some.injEq, false_iff]
      · rintro ⟨rfl, h⟩; cases h
      · exact ⟨fun h => ⟨h, h ▸ rfl⟩, fun h => h.1⟩
      · exact ⟨fun h => ⟨h, h ▸ rfl⟩, fun h => h.1⟩
      · exact ⟨fun h => ⟨h, h ▸ rfl⟩, fun h => h.1⟩
      · exact ⟨fun h => ⟨h, h ▸ rfl⟩, fun h => h.1⟩
      · exact ⟨fun h => ⟨h, h ▸ rfl⟩, fun h => h.1⟩
      · rintro ⟨rfl, h⟩; cases h

theorem Table.getValidPropertyValue_iff
    (ho : (t.record s n.id).deref n.loc = some o) {v : PItem}
    (htab : (t.props s).propertyValue (t.propertyList o.data) k = .ok v) :
    t.getValidPropertyValue s xid n k = .ok (some v) ↔
      ((t.record s n.id).hasDirtyVersions = true →
        ∃ dn, (t.record s n.id).findValidVersion xid = .ok dn ∧
          lookupItem dn.properties k = some v) := by
  simp only [Table.getValidPropertyValue, ho, Table.getPropertyValue, htab]
  cases (t.record s n.id).hasDirtyVersions with
  | false => simp [Except.map]
  | true =>
      simp only [Bool.not_true, Bool.false_eq_true, if_false, forall_const]
      cases (t.record s n.id).findValidVersion xid with
      | error e => simp [Except.map]
      | ok dn => simp [Except.map]

/-- The common part of the two cases: `fromTable` says whether the
description reads the table. -/
theorem readsGive_iff {description : DbM (List PItem)} {fromTable : Bool}
    {test : Except Err (Option PItem)}
    (ho : (t.record s n.id).deref n.loc = some o)
    (hloc : n.loc = .slot ∨ ∃ dn, (t.record s n.id).findValidVersion xid = .ok dn)
    (hdesc : ∀ props, Returns description s props ↔
      if fromTable then
        (t.props s).allProperties (t.propertyList o.data) = .ok props
      else ∃ dn, (t.record s n.id).findValidVersion xid = .ok dn ∧
        buildPropertiesFromPitems dn.properties = props)
    (hclean : (t.record s n.id).hasDirtyVersions = false → fromTable = true)
    (htest : test ≠ .ok none) :
    (∃ res, ReadsGive description s k (t.getValidPropertyValue s xid n k) test
      (t.variableValue s n k) (t.snapshotItem s xid n k) res) ↔
    ∃ v, t.Holds s xid (t.record s n.id) o k v ∧ test = .ok (some v) ∧
      (fromTable = true → ∃ items,
        (t.props s).chainItems (t.propertyList o.data) = .ok items) := by
  constructor
  · rintro ⟨res, h⟩
    cases res with
    | none => exact absurd h.test htest
    | some v =>
        obtain ⟨htab, hst⟩ := (Table.variableValue_iff ho).mp h.expr
        have hvalid := (Except.map_stored.mp h.valid).1
        refine ⟨v, ⟨hst, htab, ?_⟩, h.test, fun hft => ?_⟩
        · exact (Table.getValidPropertyValue_iff ho htab).mp hvalid
        · obtain ⟨props, hret, hl⟩ := h.description
          rw [hdesc, if_pos hft] at hret
          exact PropertyList.chainItems_of_allProperties hret hl
  · rintro ⟨v, hh, htest', hchain⟩
    refine ⟨some v, ?_, ?_, htest', ?_, ?_⟩
    · by_cases hft : fromTable = true
      · obtain ⟨items, hc⟩ := hchain hft
        obtain ⟨props, hp, hl⟩ :=
          PropertyList.allProperties_of_chainItems hh.table hh.stored hc
        exact ⟨props, (hdesc props).mpr (by rw [if_pos hft]; exact hp), hl⟩
      · have hdirty : (t.record s n.id).hasDirtyVersions = true := by
          cases hd : (t.record s n.id).hasDirtyVersions with
          | true => rfl
          | false => exact absurd (hclean hd) hft
        obtain ⟨dn, hdn, hl⟩ := hh.dirty hdirty
        exact ⟨_, (hdesc _).mpr (by rw [if_neg hft]; exact ⟨dn, hdn, rfl⟩),
          lookupItem_buildProperties hl hh.stored⟩
    · exact Except.map_stored.mpr
        ⟨(Table.getValidPropertyValue_iff ho hh.table).mpr hh.dirty, hh.stored⟩
    · exact (Table.variableValue_iff ho).mpr ⟨hh.table, hh.stored⟩
    · refine Except.map_stored.mpr ⟨?_, hh.stored⟩
      simp only [Table.snapshotItem]
      split
      · next hslot =>
          rw [hslot.1] at ho
          cases ho
          simp only [Table.getPropertyValue, hh.table]
          rfl
      · next hslot =>
          have hdirty : (t.record s n.id).hasDirtyVersions = true := by
            cases hd : (t.record s n.id).hasDirtyVersions with
            | true => rfl
            | false =>
                rcases hloc with hloc | ⟨dn, hdn⟩
                · exact absurd ⟨hloc, .inr hd⟩ hslot
                · have hm := (Record.findValidLoop_ok hdn).1
                  simp only [Record.hasDirtyVersions, Bool.not_eq_false',
                    List.isEmpty_iff] at hd
                  rw [hd] at hm
                  cases hm
          obtain ⟨dn, hdn, hl⟩ := hh.dirty hdirty
          rw [hdn]
          simp only [Except.map, hl]

theorem loc_of_returns (ht : t.KeepsSound) (hs : s.Sound) (hx : xid ≠ 0)
    (hrun : (s.txs xid).running = true) (hn : Returns (t.byId xid n.id) s n) :
    (∃ o, (t.record s n.id).deref n.loc = some o) ∧
      (n.loc = .slot ∨
        ∃ dn, (t.record s n.id).findValidVersion xid = .ok dn) := by
  obtain ⟨_, _, hl⟩ := (Table.byId_returns ht hs hrun).mp hn
  refine ⟨Record.deref_of_getValidVersion hx hl, ?_⟩
  rcases (Record.getValidVersion_ok_iff hx).mp hl with ⟨_, _, h⟩ | ⟨_, dn, hdn, _⟩
  · exact .inl h
  · exact .inr ⟨dn, hdn⟩

end Agreement

/-- The value that a property test hands to its predicate. -/
theorem PropertyList.tested_iff {p : PropertyList} (hp : p.Sound) (id : Nat)
    {k : Nat} (hk : k ≠ 0) (test : Except Err (Option PItem))
    (htest : test = (p.propertyValue id k).map
      fun v => if v.empty then none else some v) :
    test ≠ .ok none ∧
      ∀ v, v.typecode.stored = true →
        (test = .ok (some v) ↔ p.propertyValue id k = .ok v) := by
  subst htest
  cases hv : p.propertyValue id k with
  | error e => simp [Except.map]
  | ok w =>
      have hne : w.empty = false := by
        rcases propertyValueLoop_typed hp hk hv with rfl | hst
        · rfl
        · cases hc : w.typecode <;> simp_all [Typecode.stored, PItem.empty]
      simp [Except.map, hne]

section Reads

variable {s : GraphDb} {xid k : Nat} {n : Ref} (hs : s.Sound) (hx : xid ≠ 0)
  (hrun : (s.txs xid).running = true) (hk : k ≠ 0)
include hs hx hrun hk

theorem nodeReadsAgree_iff (hn : Returns (nodeById xid n.id) s n) :
    NodeReadsAgree s xid n k ↔ NodeReadCondition s xid n k := by
  obtain ⟨⟨o, ho⟩, hloc⟩ := loc_of_returns nodeTable_keepsSound hs hx hrun hn
  obtain ⟨htest, hval⟩ := PropertyList.tested_iff hs.nodeProperties
    o.data.propertyList hk (isNodePropertyValue s n k)
    (by rw [isNodePropertyValue, ho])
  have hcore := readsGive_iff (k := k) ho hloc
    (fun props => getNodeDescription_returns hs hrun props hn ho)
    (fun hd => by rw [hd]; rfl) htest
  rw [NodeReadsAgree, hcore]
  have hft : (!(nodeTable.record s n.id).hasDirtyVersions ||
      (!o.isDirty && o.isValidFor xid && o.cts == INF)) = true ↔
      (nodeTable.record s n.id).hasDirtyVersions = false ∨
        (o.isDirty = false ∧ o.isValidFor xid = true ∧ o.cts = INF) := by
    simp [and_assoc]
  rw [hft]
  constructor
  · rintro ⟨v, hh, _, hc⟩; exact ⟨o, v, ho, hh, hc⟩
  · rintro ⟨o', v, ho', hh, hc⟩
    rw [ho] at ho'
    cases ho'
    exact ⟨v, hh, (hval v hh.stored).mpr hh.table, hc⟩

theorem rshipReadsAgree_iff (hn : Returns (rshipById xid n.id) s n) :
    RshipReadsAgree s xid n k ↔ RshipReadCondition s xid n k := by
  obtain ⟨⟨o, ho⟩, hloc⟩ := loc_of_returns rshipTable_keepsSound hs hx hrun hn
  obtain ⟨htest, hval⟩ := PropertyList.tested_iff hs.rshipProperties o.data.id hk
    (isRelationshipPropertyValue s n k) (by rw [isRelationshipPropertyValue, ho])
  have hcore := readsGive_iff (k := k) ho hloc
    (fun props => getRshipDescription_returns hs hrun props hn ho)
    (fun hd => by rw [hd]; rfl) htest
  rw [RshipReadsAgree, hcore]
  have hft : (!(rshipTable.record s n.id).hasDirtyVersions ||
      (!o.isDirty && o.isValidFor xid)) = true ↔
      (rshipTable.record s n.id).hasDirtyVersions = false ∨
        (o.isDirty = false ∧ o.isValidFor xid = true) := by
    simp
  rw [hft]
  constructor
  · rintro ⟨v, hh, ht, hc⟩
    exact ⟨o, v, ho, hh, (hval v hh.stored).mp ht, hc⟩
  · rintro ⟨o', v, ho', hh, hid, hc⟩
    rw [ho] at ho'
    cases ho'
    exact ⟨v, hh, (hval v hh.stored).mpr hid, hc⟩

end Reads

/-- In every state that a run reaches, for every transaction that runs in it
and every node and relationship it can read, the reads of a property agree
exactly under the condition. -/
theorem property_reads_agree_iff (as : List Step) (xid k : Nat)
    (hrun : ((Sys.initial.run as).db.txs xid).running = true) (hk : k ≠ 0) :
    (∀ n, Returns (nodeById xid n.id) (Sys.initial.run as).db n →
      (NodeReadsAgree (Sys.initial.run as).db xid n k ↔
        NodeReadCondition (Sys.initial.run as).db xid n k)) ∧
    (∀ n, Returns (rshipById xid n.id) (Sys.initial.run as).db n →
      (RshipReadsAgree (Sys.initial.run as).db xid n k ↔
        RshipReadCondition (Sys.initial.run as).db xid n k)) :=
  ⟨fun _ hn => nodeReadsAgree_iff (Sys.run_sound as) (Sys.running_ne_zero hrun)
      hrun hk hn,
    fun _ hn => rshipReadsAgree_iff (Sys.run_sound as)
      (Sys.running_ne_zero hrun) hrun hk hn⟩

/-- A committed node with a property, and a later transaction. -/
def storedPropertyRun : List Step :=
  [.begin 10, .addNode 10 0 1 ⟨[⟨7, .int, 48⟩], by decide, by decide⟩,
    .commit 10, .begin 20]

theorem property_reads_agree_stored :
    NodeReadsAgree (Sys.initial.run storedPropertyRun).db 20 ⟨0, .slot⟩ 7 := by
  refine ((property_reads_agree_iff storedPropertyRun 20 7 (by decide)
    (by decide)).1 ⟨0, .slot⟩ ⟨_, rfl⟩).mpr ?_
  exact ⟨_, ⟨7, .int, 48⟩, rfl, ⟨rfl, rfl, fun h => (by cases h)⟩,
    fun _ => ⟨_, rfl⟩⟩

/-- The same node after transaction 20 has changed the property. -/
def ownUpdateRun : List Step :=
  storedPropertyRun ++ [.nodeById 20 0,
    .updateNode 20 ⟨0, .slot⟩ ⟨[⟨7, .int, 52⟩], by decide, by decide⟩ 0]

/-- Transaction 20 reads its own version, but the property test still reads
the committed value from the table. -/
theorem property_test_misses_own_update :
    Returns (nodeById 20 0) (Sys.initial.run ownUpdateRun).db ⟨0, .copy 2⟩ ∧
      ¬ NodeReadsAgree (Sys.initial.run ownUpdateRun).db 20 ⟨0, .copy 2⟩ 7 := by
  refine ⟨⟨_, rfl⟩, ?_⟩
  rintro ⟨res, h⟩
  have htest : isNodePropertyValue (Sys.initial.run ownUpdateRun).db
      ⟨0, .copy 2⟩ 7 = .ok (some ⟨7, .int, 48⟩) := rfl
  have hvalid : (nodeTable.getValidPropertyValue (Sys.initial.run ownUpdateRun).db
      20 ⟨0, .copy 2⟩ 7).map (Option.bind · PItem.stored) =
        .ok (some ⟨7, .int, 52⟩) := rfl
  have h1 := h.test
  have h2 := h.valid
  rw [htest] at h1
  rw [hvalid] at h2
  cases h1
  cases h2

end Poseidon
