import Mathlib.Data.List.Nodup
import Poseidon.Store.Index

/-!
# What the indexes hold

A version of a node has an entry for each of its properties, under the name
that an index on its label and the property would have. An index is right if
it holds the entries with its name of all current versions, and `Indexed`
says so of all indexes at once, for an arbitrary relation between names,
values and nodes. The rules below follow the two changes that the store
makes to a tree.

The store maintains one index for each node, that of the first property with
an index (`Dict.replaceFirst`). What becomes of a right set of indexes when a
node is inserted, updated or deleted follows from the rules, under the
conditions that the code does not check: no other node has the new entry, no
other entry of the node changes, and the tree erases what it is asked to.
-/

namespace Poseidon

variable {B : KeyMap Nat Nat} {d : Dict} {ix : IndexMap B}

/-- The label and the properties of a version. -/
abbrev LabelledItems := Nat × List PItem

/-- The entries of a version, under the names that an index would have. -/
def Dict.entries (d : Dict) (c : LabelledItems) : List (String × Nat) :=
  c.2.map fun p => (d.indexName c.1 p.key, p.value)

/-- The entries for which there is an index. -/
def Dict.hits (d : Dict) (ix : IndexMap B) (c : LabelledItems) : List (String × Nat) :=
  (d.entries c).filter fun e => (ix e.1).isSome

/-! ## Names -/

/-- Under one label, names tell properties apart. -/
theorem Dict.indexName_inj {l k k' : Nat} (h : d.indexName l k = d.indexName l k') :
    k = k' := by
  have happ : d.lookupCode k = d.lookupCode k' := by
    simpa [Dict.indexName, Poseidon.indexName, String.append_right_inj] using h
  rw [← d.lookupString_lookupCode k, happ, d.lookupString_lookupCode]

theorem Dict.entries_nodup {c : LabelledItems} (h : (c.2.map PItem.key).Nodup) :
    ((d.entries c).map Prod.fst).Nodup := by
  have hmap : (d.entries c).map Prod.fst = (c.2.map PItem.key).map (d.indexName c.1) := by
    simp [Dict.entries]
  rw [hmap]
  exact List.Nodup.map (fun _ _ => Dict.indexName_inj) h

theorem Dict.mem_hits {c : LabelledItems} {e : String × Nat} :
    e ∈ d.hits ix c ↔ e ∈ d.entries c ∧ (ix e.1).isSome = true := List.mem_filter

/-- The order of the items does not matter for the entries. -/
theorem Dict.mem_entries_perm {l : Nat} {items items' : List PItem} {e : String × Nat}
    (hp : items'.Perm items) : e ∈ d.entries (l, items') ↔ e ∈ d.entries (l, items) :=
  (hp.map _).mem_iff

/-- What `get_index` finds: nothing without a hit, otherwise the first one. -/
theorem getIndexLoop_spec (d : Dict) (ix : IndexMap B) (label : Nat) (props : List PItem)
    (n : Nat) :
    (getIndexLoop d ix label n props = none ∧ d.hits ix (label, props) = []) ∨
    ∃ pos p tail, getIndexLoop d ix label n props = some (d.indexName label p.key, n + pos) ∧
      props[pos]? = some p ∧
      d.hits ix (label, props) = (d.indexName label p.key, p.value) :: tail := by
  induction props generalizing n with
  | nil => exact .inl ⟨rfl, rfl⟩
  | cons item rest ih =>
      by_cases hs : (ix (d.indexName label item.key)).isSome = true
      · refine .inr ⟨0, item, d.hits ix (label, rest), ?_, rfl, ?_⟩
        · rw [getIndexLoop, if_pos hs]
          rfl
        · exact List.filter_cons_of_pos hs
      · have hhits : d.hits ix (label, item :: rest) = d.hits ix (label, rest) :=
          List.filter_cons_of_neg hs
        rw [getIndexLoop, if_neg hs, hhits]
        rcases ih (n + 1) with hnone | ⟨pos, p, tail, h1, h2, h3⟩
        · exact .inl hnone
        · refine .inr ⟨pos + 1, p, tail, ?_, h2, h3⟩
          rw [h1, show n + 1 + pos = n + (pos + 1) by omega]

theorem getIndex_spec (d : Dict) (ix : IndexMap B) (label : Nat) (props : List PItem) :
    (getIndex d ix label props = none ∧ d.hits ix (label, props) = []) ∨
    ∃ pos p tail, getIndex d ix label props = some (d.indexName label p.key, pos) ∧
      props[pos]? = some p ∧
      d.hits ix (label, props) = (d.indexName label p.key, p.value) :: tail := by
  have h := getIndexLoop_spec d ix label props 0
  simp only [Nat.zero_add] at h
  exact h

/-! ## Right indexes -/

/-- Every index holds the entries that `R` has under its name. -/
def Indexed (ix : IndexMap B) (R : String → Nat → Nat → Prop) : Prop :=
  ∀ name tree, ix name = some tree → B.Holds tree (R name)

section Rules

variable {R R' : String → Nat → Nat → Prop} {name : String} {v i : Nat}

/-- Both have an index under the same names. -/
def SameNames (ix ix' : IndexMap B) : Prop := ∀ name, (ix' name).isSome = (ix name).isSome

theorem SameNames.refl (ix : IndexMap B) : SameNames ix ix := fun _ => rfl

theorem SameNames.trans {ix' ix'' : IndexMap B} (h : SameNames ix ix')
    (h' : SameNames ix' ix'') : SameNames ix ix'' := fun name => (h' name).trans (h name)

/-- What is found depends on the names only. -/
theorem SameNames.hits {ix' : IndexMap B} (h : SameNames ix ix') (c : LabelledItems) :
    d.hits ix' c = d.hits ix c := by
  simp only [Dict.hits, h _]

theorem SameNames.getIndex {ix' : IndexMap B} (h : SameNames ix ix') (label : Nat)
    (props : List PItem) : getIndex d ix' label props = getIndex d ix label props := by
  have loop : ∀ n, getIndexLoop d ix' label n props = getIndexLoop d ix label n props := by
    induction props with
    | nil => exact fun _ => rfl
    | cons item rest ih =>
        intro n
        rw [getIndexLoop, getIndexLoop, h, ih]
  exact loop 0

theorem Indexed.congr (h : Indexed ix R)
    (heq : ∀ name, (ix name).isSome = true → ∀ v j, R' name v j ↔ R name v j) :
    Indexed ix R' := by
  intro name tree htree
  exact (h name tree htree).congr (heq name (by rw [htree]; rfl))

theorem IndexMap.modify_sameNames {f : B.Map → B.Map} :
    SameNames ix (ix.modify name f) := by
  intro name'
  rw [IndexMap.modify]
  split
  · exact Option.isSome_map
  · rfl

/-- One index changes. -/
theorem Indexed.modify {f : B.Map → B.Map} (h : Indexed ix R)
    (hf : ∀ tree, ix name = some tree → B.Holds tree (R name) → B.Holds (f tree) (R' name))
    (hother : ∀ n, n ≠ name → ∀ v j, R' n v j ↔ R n v j) :
    Indexed (ix.modify name f) R' := by
  intro n tree htree
  rw [IndexMap.modify] at htree
  split at htree
  · next hn =>
    subst hn
    obtain ⟨tree', htree', rfl⟩ := Option.map_eq_some_iff.mp htree
    exact hf tree' htree' (h n tree' htree')
  · next hn => exact (h n tree htree).congr (hother n hn)

theorem Indexed.insert (h : Indexed ix R) (hfree : ∀ j, R name v j → j = i) :
    Indexed (ix.modify name (B.insert · v i))
      fun n k j => R n k j ∨ (n = name ∧ k = v ∧ j = i) := by
  refine h.modify (fun tree _ ht => (ht.insert hfree).congr fun k j => ?_) fun n hn k j => ?_
  · simp
  · simp [hn]

theorem Indexed.erase (h : Indexed ix R) (he : ∀ tree, ix name = some tree → B.Erases tree v) :
    Indexed (ix.modify name (B.erase · v)) fun n k j => R n k j ∧ ¬ (n = name ∧ k = v) := by
  refine h.modify (fun tree hname ht => (ht.erase (he tree hname)).congr fun k j => ?_)
    fun n hn k j => ?_
  · simp
  · simp [hn]

end Rules

/-! ## One node changes -/

/-- The entries of node `id` are now those in `E`. -/
def putEntries (R : String → Nat → Nat → Prop) (id : Nat) (E : List (String × Nat)) :
    String → Nat → Nat → Prop :=
  fun name v j => if j = id then (name, v) ∈ E else R name v j

theorem indexInsert_ok {name : String} {pos id : Nat} {props : List PItem} {p : PItem}
    {s : IndexedDb B} (hpos : props[pos]? = some p) :
    indexInsert (name, pos) id props s =
      .ok () { s with indexes := s.indexes.modify name (B.insert · p.value id) } := by
  simp only [indexInsert, itemAt, hpos]
  rfl

theorem indexDelete_ok {name : String} {pos : Nat} {props : List PItem} {p : PItem}
    {s : IndexedDb B} (hpos : props[pos]? = some p) :
    indexDelete (name, pos) props s =
      .ok () { s with indexes := s.indexes.modify name (B.erase · p.value) } := by
  simp only [indexDelete, itemAt, hpos]
  rfl

section Nodes

variable {R : String → Nat → Nat → Prop} {id : Nat} {c old : LabelledItems}

/-- Nobody else has the entry that is going to be written. -/
def FreeFor (d : Dict) (ix : IndexMap B) (R : String → Nat → Nat → Prop) (id : Nat)
    (c : LabelledItems) : Prop :=
  ∀ e ∈ (d.hits ix c).head?, ∀ j, j ≠ id → ¬ R e.1 e.2 j

/-- The first entry with an index leaves it. -/
def Dict.eraseFirst (d : Dict) (ix : IndexMap B) (c : Option LabelledItems) : IndexMap B :=
  match c.bind fun c => (d.hits ix c).head? with
  | none => ix
  | some e => ix.modify e.1 (B.erase · e.2)

/-- The first entry with an index gets into it. -/
def Dict.insertFirst (d : Dict) (ix : IndexMap B) (id : Nat) (c : Option LabelledItems) :
    IndexMap B :=
  match c.bind fun c => (d.hits ix c).head? with
  | none => ix
  | some e => ix.modify e.1 (B.insert · e.2 id)

/-- The indexes after a commit has replaced a version of node `id`. -/
def Dict.replaceFirst (d : Dict) (ix : IndexMap B) (id : Nat) (old new : Option LabelledItems) :
    IndexMap B := d.insertFirst (d.eraseFirst ix old) id new

/-- The tree erases the entry that it is asked to. -/
def ErasesFirst (d : Dict) (ix : IndexMap B) (c : Option LabelledItems) : Prop :=
  ∀ c' ∈ c, ∀ e ∈ (d.hits ix c').head?, ∀ tree, ix e.1 = some tree → B.Erases tree e.2

theorem Dict.eraseFirst_some {e : String × Nat} {tail : List (String × Nat)}
    (h : d.hits ix c = e :: tail) :
    d.eraseFirst ix (some c) = ix.modify e.1 (B.erase · e.2) := by
  rw [Dict.eraseFirst, Option.bind_some, h]
  rfl

theorem Dict.eraseFirst_nil (h : d.hits ix c = []) : d.eraseFirst ix (some c) = ix := by
  rw [Dict.eraseFirst, Option.bind_some, h]
  rfl

theorem Dict.insertFirst_some {e : String × Nat} {tail : List (String × Nat)}
    (h : d.hits ix c = e :: tail) :
    d.insertFirst ix id (some c) = ix.modify e.1 (B.insert · e.2 id) := by
  rw [Dict.insertFirst, Option.bind_some, h]
  rfl

theorem Dict.insertFirst_nil (h : d.hits ix c = []) : d.insertFirst ix id (some c) = ix := by
  rw [Dict.insertFirst, Option.bind_some, h]
  rfl

theorem putEntries_self {E : List (String × Nat)} {name : String} {v : Nat} :
    putEntries R id E name v id ↔ (name, v) ∈ E := by
  rw [putEntries, if_pos rfl]

theorem putEntries_other {E : List (String × Nat)} {name : String} {v j : Nat}
    (hj : j ≠ id) : putEntries R id E name v j ↔ R name v j := by
  rw [putEntries, if_neg hj]

/-- Under the name of an index, the entries are the hits. -/
theorem Dict.mem_entries_iff {name : String} {v : Nat} (hs : (ix name).isSome = true) :
    (name, v) ∈ d.entries c ↔ (name, v) ∈ d.hits ix c := by
  rw [Dict.mem_hits]
  exact ⟨fun hm => ⟨hm, hs⟩, fun hm => hm.1⟩

/-- The first hit has its name to itself. -/
theorem Dict.not_mem_tail {e : String × Nat} {tail : List (String × Nat)} {v : Nat}
    (hk : (c.2.map PItem.key).Nodup) (h : d.hits ix c = e :: tail) : (e.1, v) ∉ tail := by
  have hnd : ((d.hits ix c).map Prod.fst).Nodup :=
    (d.entries_nodup hk).sublist (List.filter_sublist.map _)
  rw [h, List.map_cons, List.nodup_cons] at hnd
  exact fun hm => hnd.1 (List.mem_map.mpr ⟨_, hm, rfl⟩)

theorem putEntries_put {E E' : List (String × Nat)} :
    putEntries (putEntries R id E) id E' = putEntries R id E' := by
  funext name v j
  simp only [putEntries]
  split
  · rfl
  · rfl

/-- A node that has its other entries in the indexes gets the first one. -/
theorem Indexed.insertFirst {p : PItem} {tail : List (String × Nat)} (h : Indexed ix R)
    (htail : ∀ name v, R name v id ↔ (name, v) ∈ tail)
    (hhits : d.hits ix c = (d.indexName c.1 p.key, p.value) :: tail)
    (hfree : FreeFor d ix R id c) :
    Indexed (ix.modify (d.indexName c.1 p.key) (B.insert · p.value id))
      (putEntries R id (d.entries c)) := by
  refine (h.insert (i := id) fun j hr => ?_).congr fun name hs v j => ?_
  · by_contra hj
    exact hfree _ (by rw [hhits]; rfl) j hj hr
  · rw [IndexMap.modify_sameNames _] at hs
    by_cases hj : j = id
    · subst hj
      rw [putEntries_self, Dict.mem_entries_iff hs, hhits, List.mem_cons, Prod.mk.injEq, htail]
      exact ⟨fun hm => hm.elim (fun he => .inr ⟨he.1, he.2, rfl⟩) .inl,
        fun hm => hm.elim .inr fun he => .inl ⟨he.1, he.2.1⟩⟩
    · rw [putEntries_other hj]
      exact ⟨.inl, fun hr => hr.resolve_right fun he => hj he.2.2⟩

/-- The first hit of a node leaves its index. -/
theorem Indexed.eraseFirst {p : PItem} {tail : List (String × Nat)} (h : Indexed ix R)
    (hold : ∀ name v, R name v id ↔ (name, v) ∈ d.entries old)
    (hk : (old.2.map PItem.key).Nodup)
    (hhits : d.hits ix old = (d.indexName old.1 p.key, p.value) :: tail)
    (he : ErasesFirst d ix (some old)) :
    Indexed (ix.modify (d.indexName old.1 p.key) (B.erase · p.value))
      (putEntries R id tail) := by
  have hin : (d.indexName old.1 p.key, p.value) ∈ d.hits ix old := by
    rw [hhits]
    exact List.mem_cons_self ..
  obtain ⟨hentry, hsome⟩ := Dict.mem_hits.mp hin
  have hR := (hold _ _).mpr hentry
  refine (h.erase (he old rfl _ (by rw [hhits]; rfl))).congr fun name hs v j => ?_
  rw [IndexMap.modify_sameNames _] at hs
  by_cases hj : j = id
  · subst hj
    rw [putEntries_self, hold, Dict.mem_entries_iff hs, hhits, List.mem_cons, Prod.mk.injEq]
    constructor
    · intro hm
      refine ⟨.inr hm, fun he => Dict.not_mem_tail hk hhits (v := v) ?_⟩
      rw [he.1] at hm
      exact hm
    · exact fun hm => hm.1.resolve_left hm.2
  · rw [putEntries_other hj]
    refine ⟨fun hr => ⟨hr, fun he => hj ?_⟩, fun hr => hr.1⟩
    obtain ⟨tree, htree⟩ := Option.isSome_iff_exists.mp hsome
    rw [he.1, he.2] at hr
    exact (h _ tree htree).unique hr hR

/-- The work on the index that was found, if one was: it succeeds, changes
nothing else, creates no index, and makes `ix'` of the indexes, which are then
right for `R`. -/
structure Maintains (ix ix' : IndexMap B) (R : String → Nat → Nat → Prop)
    (found : Option (String × Nat)) (work : String × Nat → IxM B Unit) : Prop where
  indexed : Indexed ix' R
  names : SameNames ix ix'
  skips : found = none → ix' = ix
  works : ∀ idx, found = some idx → ∀ s : IndexedDb B, s.indexes = ix →
    work idx s = .ok () { s with indexes := ix' }

theorem Maintains.of_none {work : String × Nat → IxM B Unit} (h : Indexed ix R) :
    Maintains ix ix R none work := ⟨h, .refl ix, fun _ => rfl, fun _ hidx => (by cases hidx)⟩

theorem Maintains.of_some {work : String × Nat → IxM B Unit} {idx : String × Nat}
    {ix' : IndexMap B}
    (hwork : ∀ s : IndexedDb B, s.indexes = ix → work idx s = .ok () { s with indexes := ix' })
    (hnames : SameNames ix ix') (h : Indexed ix' R) : Maintains ix ix' R (some idx) work := by
  refine ⟨h, hnames, fun hn => (by cases hn), fun idx' hidx s hs => ?_⟩
  cases hidx
  exact hwork s hs

theorem Maintains.congr {ix' : IndexMap B} {R' : String → Nat → Nat → Prop}
    {found : Option (String × Nat)} {work : String × Nat → IxM B Unit}
    (h : Maintains ix ix' R found work) (heq : ∀ name v j, R' name v j ↔ R name v j) :
    Maintains ix ix' R' found work :=
  ⟨h.indexed.congr fun name _ => heq name, h.names, h.skips, h.works⟩

/-- `index_insert` for a new node. -/
theorem Indexed.insertNode (h : Indexed ix R) (hnew : ∀ name v, ¬ R name v id)
    (hone : (d.hits ix c).tail = []) (hfree : FreeFor d ix R id c) :
    Maintains ix (d.insertFirst ix id (some c)) (putEntries R id (d.entries c))
      (getIndex d ix c.1 c.2) (indexInsert · id c.2) := by
  rcases getIndex_spec d ix c.1 c.2 with
    ⟨hnone, hhits⟩ | ⟨pos, p, tail, hsome, hpos, hhits⟩
  · rw [hnone, Dict.insertFirst_nil hhits]
    refine .of_none (h.congr fun name hs v j => ?_)
    by_cases hj : j = id
    · subst hj
      rw [putEntries_self, Dict.mem_entries_iff hs, hhits]
      exact ⟨fun hm => (by cases hm), fun hr => absurd hr (hnew _ _)⟩
    · exact putEntries_other hj
  · rw [hsome, Dict.insertFirst_some hhits]
    refine .of_some (fun s hs => ?_) IndexMap.modify_sameNames
      (h.insertFirst (fun name v => ?_) hhits hfree)
    · rw [← hs]
      exact indexInsert_ok hpos
    · rw [hhits] at hone
      obtain rfl : tail = [] := hone
      exact ⟨fun hr => absurd hr (hnew name v), fun hm => (by cases hm)⟩

/-- `index_delete` for a node that is deleted. -/
theorem Indexed.deleteNode {label : Nat} (h : Indexed ix R)
    (hold : ∀ name v, R name v id ↔ (name, v) ∈ d.entries old)
    (hk : (old.2.map PItem.key).Nodup) (hone : (d.hits ix old).tail = [])
    (hlabel : getIndex d ix label old.2 = getIndex d ix old.1 old.2)
    (he : ErasesFirst d ix (some old)) :
    Maintains ix (d.eraseFirst ix (some old)) (putEntries R id []) (getIndex d ix label old.2)
      (indexDelete · old.2) := by
  rw [hlabel]
  rcases getIndex_spec d ix old.1 old.2 with
    ⟨hnone, hhits⟩ | ⟨pos, p, tail, hsome, hpos, hhits⟩
  · rw [hnone, Dict.eraseFirst_nil hhits]
    refine .of_none (h.congr fun name hs v j => ?_)
    by_cases hj : j = id
    · subst hj
      rw [putEntries_self, hold, Dict.mem_entries_iff hs, hhits]
    · exact putEntries_other hj
  · rw [hsome, Dict.eraseFirst_some hhits]
    have herased := h.eraseFirst hold hk hhits he
    rw [hhits] at hone
    obtain rfl : tail = [] := hone
    refine .of_some (fun s hs => ?_) IndexMap.modify_sameNames herased
    rw [← hs]
    exact indexDelete_ok hpos

/-- `index_update` for a node that keeps its other entries. -/
theorem Indexed.updateNode (h : Indexed ix R)
    (hold : ∀ name v, R name v id ↔ (name, v) ∈ d.entries old)
    (hk : (old.2.map PItem.key).Nodup)
    (hplace : getIndex d ix old.1 old.2 = getIndex d ix c.1 c.2)
    (htail : (d.hits ix old).tail = (d.hits ix c).tail) (hfree : FreeFor d ix R id c)
    (he : ErasesFirst d ix (some old)) :
    Maintains ix (d.replaceFirst ix id (some old) (some c)) (putEntries R id (d.entries c))
      (getIndex d ix c.1 c.2) (indexUpdate · id old.2 c.2) := by
  rcases getIndex_spec d ix c.1 c.2 with
    ⟨hnone, hhits⟩ | ⟨pos, p, tail, hsome, hpos, hhits⟩
  · have hhits' : d.hits ix old = [] := by
      rcases getIndex_spec d ix old.1 old.2 with ⟨_, hh⟩ | ⟨_, _, _, hs, _⟩
      · exact hh
      · rw [hplace, hnone] at hs
        cases hs
    rw [hnone, Dict.replaceFirst, Dict.eraseFirst_nil hhits', Dict.insertFirst_nil hhits]
    refine .of_none (h.congr fun name hs v j => ?_)
    by_cases hj : j = id
    · subst hj
      rw [putEntries_self, hold, Dict.mem_entries_iff hs, Dict.mem_entries_iff hs, hhits,
        hhits']
    · exact putEntries_other hj
  · rcases getIndex_spec d ix old.1 old.2 with
      ⟨hn, _⟩ | ⟨pos', q, tail', hsome', hpos', hhits'⟩
    · rw [hplace, hsome] at hn
      cases hn
    -- both lists have the index at the same place
    rw [hplace, hsome, Option.some.injEq, Prod.mk.injEq] at hsome'
    obtain ⟨hname, rfl⟩ := hsome'
    rw [hhits, hhits', List.tail_cons, List.tail_cons] at htail
    have herased := h.eraseFirst hold hk hhits' he
    rw [htail, ← hname] at herased
    have hinserted := herased.insertFirst (c := c) (fun _ _ => putEntries_self)
      ((IndexMap.modify_sameNames.hits c).trans hhits) fun e he j hj hr => by
        rw [IndexMap.modify_sameNames.hits] at he
        exact hfree e he j hj ((putEntries_other hj).mp hr)
    rw [putEntries_put] at hinserted
    rw [hsome, Dict.replaceFirst, Dict.eraseFirst_some hhits', ← hname,
      Dict.insertFirst_some ((IndexMap.modify_sameNames.hits c).trans hhits)]
    refine .of_some (fun s hs => ?_)
      (IndexMap.modify_sameNames.trans IndexMap.modify_sameNames) hinserted
    rw [← hs]
    simp only [indexUpdate, bind, EStateM.bind]
    rw [indexDelete_ok hpos']
    exact indexInsert_ok hpos

end Nodes

end Poseidon
