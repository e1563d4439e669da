import Poseidon.Proofs.AggrValues
import Poseidon.Proofs.Joins

/-!
# Grouping

What `group_by` is for is said by key vectors: a tuple for each distinct
vector of key values, with the vector and what the aggregates give for the
tuples that have it. The operator tells groups apart by the 64-bit mix of the
key values, and it writes no key that is a node or a relationship.
-/

namespace Poseidon

open Results Firsts

namespace GroupBy

variable {hash : StdHash} {ctx : QueryCtx} {g : Group} {groups : List Group} {v : QrTuple}

/-! ## Key values -/

/-- The item of a property of a node or a relationship: what the store has
under the code of the name. -/
def propertyItem (ctx : QueryCtx) (v : QrTuple) (g : Group) : Except QopErr PItem :=
  match v[g.var]? with
  | none => .error .outOfBounds
  | some (.node _) | some (.rship _) =>
      getPropertyValue ctx v g.var (ctx.lookupString g.property)
  | some _ => .error .badGet

/-- A column, or a property. -/
def typedKey {β : Type} (ctx : QueryCtx) (get : QueryResult → Option β) (as : PItem → β)
    (v : QrTuple) (g : Group) : Except QopErr β :=
  if g.property = "" then getColumn get v g.var else (propertyItem ctx v g).map as

/-- The value of a tuple for a group key. -/
def keyValue (ctx : QueryCtx) (v : QrTuple) (g : Group) : Except QopErr QueryResult :=
  match g.grpType with
  | .nodePtr => (getColumn QueryResult.node? v g.var).map .node
  | .rshipPtr => (getColumn QueryResult.rship? v g.var).map .rship
  | .int => (typedKey ctx QueryResult.int? PItem.asInt v g).map .int
  | .uint64 => (typedKey ctx QueryResult.uint64? PItem.asUint64 v g).map .uint64
  | .string => (typedKey ctx QueryResult.string? (PItem.asString ctx.lookupCode) v g).map .str
  | _ => .error .badGet

/-- The vector of all key values. -/
def keyVector (ctx : QueryCtx) (groups : List Group) (v : QrTuple) : Except QopErr QrTuple :=
  groups.mapM (keyValue ctx v)

/-- What the key vector stands for. -/
def keyId (ctx : QueryCtx) (groups : List Group) (v : QrTuple) : Option (List ValueId) :=
  (keyVector ctx groups v).toOption.map (tupleId ctx)

/-- The key is no pointer, and the code of its property name is one. -/
def Written (ctx : QueryCtx) (g : Group) : Prop :=
  g.grpType ≠ .nodePtr ∧ g.grpType ≠ .rshipPtr ∧
    ctx.lookupString g.property ≠ UNKNOWN_CODE

/-- One round of the mix, for the key values that are written. -/
def mixValue (hash : StdHash) (h : UInt64) : QueryResult → UInt64
  | .int i => mix h (saltInt i)
  | .uint64 n => mix h (salt n)
  | .str s => mix h (salt (hash.string s))
  | _ => h

/-- The mix of the key values. -/
def mixed (hash : StdHash) (ks : QrTuple) : UInt64 := ks.foldl (mixValue hash) 0

theorem pkey_of_empty (h : g.property = "") : (g.prepare ctx).pkey = UNKNOWN_CODE := by
  rw [Group.prepare, QueryCtx.pkey]
  exact if_pos h

theorem pkey_of_property (h : g.property ≠ "") :
    (g.prepare ctx).pkey = ctx.lookupString g.property := by
  rw [Group.prepare, QueryCtx.pkey]
  exact if_neg h

section Typed

variable {β : Type} {get : QueryResult → Option β} {as : PItem → β} {b : β}

/-- A key that is written is read as its value. -/
theorem getTyped_of_written (hw : Written ctx g) (h : typedKey ctx get as v g = .ok b) :
    getTyped ctx get as v (g.prepare ctx).var (g.prepare ctx).pkey = .ok b ∧
      hashed get (getTyped ctx get as) (g.prepare ctx) v = .ok b := by
  rw [typedKey] at h
  by_cases hp : g.property = ""
  · rw [if_pos hp] at h
    refine ⟨?_, ?_⟩
    · rw [getTyped, if_pos (pkey_of_empty hp)]
      exact h
    · rw [hashed]
      exact (if_pos hp).trans h
  · rw [if_neg hp] at h
    have hknown := hw.2.2
    have hitem : (getPropertyValue ctx v g.var (ctx.lookupString g.property)).map as = .ok b := by
      rw [propertyItem] at h
      split at h
      · cases h
      · exact h
      · exact h
      · cases h
    have hget : getTyped ctx get as v (g.prepare ctx).var (g.prepare ctx).pkey = .ok b := by
      rw [pkey_of_property hp, getTyped, if_neg hknown]
      exact hitem
    refine ⟨hget, ?_⟩
    rw [hashed]
    exact (if_neg hp).trans hget

end Typed

/-- The element that a group refers to is there. -/
theorem column_of_key {q : QueryResult} (h : keyValue ctx v g = .ok q) :
    ∃ x, v[g.var]? = some x := by
  cases hv : v[g.var]? with
  | some x => exact ⟨x, rfl⟩
  | none =>
      obtain ⟨var, property, pkey, ty⟩ := g
      cases ty <;> simp only [keyValue, typedKey, getColumn, propertyItem, hv] at h <;>
        first
        | cases h
        | (split at h <;> cases h)

/-- What the operator does with a key that is written. -/
theorem written_ok {q : QueryResult} (hw : Written ctx g) (h : keyValue ctx v g = .ok q) :
    keyOf ctx v (g.prepare ctx) = .ok [q] ∧ writeKey (g.prepare ctx) q = .ok [q] ∧
      ∀ hv, hashStep hash ctx v hv (g.prepare ctx) = .ok (mixValue hash hv q) := by
  obtain ⟨x, hx⟩ := column_of_key h
  have hx' : v[(g.prepare ctx).var]? = some x := hx
  obtain ⟨hn, hr, -⟩ := id hw
  have hty : (g.prepare ctx).grpType = g.grpType := rfl
  cases hg : g.grpType with
  | nodePtr => exact absurd hg hn
  | rshipPtr => exact absurd hg hr
  | int =>
      rw [keyValue, hg] at h
      obtain ⟨i, hi, rfl⟩ := map_eq_ok h
      obtain ⟨hget, hhash⟩ := getTyped_of_written hw hi
      refine ⟨?_, ?_, fun hv => ?_⟩
      · rw [keyOf, hty, hg]
        simp only [getIntValue, hget]
        rfl
      · rw [writeKey, hty, hg]
        split <;> rfl
      · rw [hashStep, hx', hty, hg]
        show (hashed QueryResult.int? (getTyped ctx _ _) _ v >>= _) = _
        rw [hhash]
        rfl
  | uint64 =>
      rw [keyValue, hg] at h
      obtain ⟨n, hi, rfl⟩ := map_eq_ok h
      obtain ⟨hget, hhash⟩ := getTyped_of_written hw hi
      refine ⟨?_, ?_, fun hv => ?_⟩
      · rw [keyOf, hty, hg]
        simp only [getUint64Value, hget]
        rfl
      · rw [writeKey, hty, hg]
        split <;> rfl
      · rw [hashStep, hx', hty, hg]
        show (hashed QueryResult.uint64? (getTyped ctx _ _) _ v >>= _) = _
        rw [hhash]
        rfl
  | string =>
      rw [keyValue, hg] at h
      obtain ⟨s, hi, rfl⟩ := map_eq_ok h
      obtain ⟨hget, hhash⟩ := getTyped_of_written hw hi
      refine ⟨?_, ?_, fun hv => ?_⟩
      · rw [keyOf, hty, hg]
        simp only [getStringValue, hget]
        rfl
      · rw [writeKey, hty, hg]
        split <;> rfl
      · rw [hashStep, hx', hty, hg]
        show (hashed QueryResult.string? (getTyped ctx _ _) _ v >>= _) = _
        rw [hhash]
        rfl
  | double | ptime | array | null | nodeDescr | rshipDescr =>
      rw [keyValue, hg] at h
      cases h

/-- A pointer is not written. -/
theorem pointer_skipped (h : g.grpType = .nodePtr ∨ g.grpType = .rshipPtr) :
    keyOf ctx v (g.prepare ctx) = .ok [] := by
  have hty : (g.prepare ctx).grpType = g.grpType := rfl
  rcases h with h | h
  · rw [keyOf, hty, h]
  · rw [keyOf, hty, h]

/-- What the operator does with the keys when all of them are written. -/
theorem all_written {ks : QrTuple} (hw : ∀ g ∈ groups, Written ctx g)
    (h : keyVector ctx groups v = .ok ks) :
    keyTuple ctx (groups.map (Group.prepare ctx)) v = .ok ks ∧
      ((groups.map (Group.prepare ctx)).zip ks).mapM (fun p => writeKey p.1 p.2) =
        .ok (ks.map fun q => [q]) ∧
      ∀ hv, (groups.map (Group.prepare ctx)).foldlM (hashStep hash ctx v) hv =
        .ok (ks.foldl (mixValue hash) hv) := by
  induction groups generalizing ks with
  | nil =>
      cases h
      exact ⟨rfl, rfl, fun _ => rfl⟩
  | cons g groups ih =>
      rw [keyVector, List.mapM_cons] at h
      obtain ⟨q, hq, h⟩ := bind_eq_ok h
      obtain ⟨qs, hqs, h⟩ := bind_eq_ok h
      cases h
      obtain ⟨hkey, hwrite, hhash⟩ := @written_ok hash _ _ _ _ (hw g (List.mem_cons_self ..)) hq
      obtain ⟨hkeys, hwrites, hhashes⟩ := ih (fun g' hg' => hw g' (List.mem_cons_of_mem _ hg')) hqs
      refine ⟨?_, ?_, fun hv => ?_⟩
      · obtain ⟨kss, hkss, rfl⟩ := map_eq_ok hkeys
        rw [keyTuple, List.map_cons, List.mapM_cons, hkey, hkss]
        rfl
      · rw [List.map_cons, List.zip_cons_cons, List.mapM_cons, hwrite, hwrites]
        rfl
      · rw [List.map_cons, List.foldlM_cons, hhash, ok_bind, hhashes]
        rfl

/-! ## The table of groups -/

/-- The key values of a tuple that has them. -/
def keysOf (ctx : QueryCtx) (groups : List Group) (v : QrTuple) : QrTuple :=
  (keyVector ctx groups v).toOption.getD []

/-- The mix that the operator computes for a tuple. -/
def hashOf (hash : StdHash) (ctx : QueryCtx) (groups : List Group) (v : QrTuple) : UInt64 :=
  mixed hash (keysOf ctx groups v)

/-- What a tuple makes of the values of its group. -/
def updated (ctx : QueryCtx) (exprs : List AggrExpr) (aval : Option (List AggrVal))
    (v : QrTuple) : List AggrVal :=
  (updateAggregates ctx exprs (aval.getD (initAggregates exprs)) v).toOption.getD []

/-- What the operator knows after the tuples `pre`. -/
structure Tracks (hash : StdHash) (ctx : QueryCtx) (groups : List Group)
    (exprs : List AggrExpr) (pre : List QrTuple) (st : GroupBy) : Prop where
  prepared : st.groups = groups.map (Group.prepare ctx)
  aggrExprs : st.aggrExprs = exprs
  aggr : st.aggrVals =
    HashTable.gather (hashOf hash ctx groups) (updated ctx exprs) HashTable.empty pre
  keys : ∀ h, st.groupKeys.find h =
    (pre.find? fun v => decide (hashOf hash ctx groups v = h)).map (keysOf ctx groups)
  kept : ∀ h vals, st.aggrVals.find h = some vals → AggrExpr.AllKept exprs vals

theorem keysOf_eq {ks : QrTuple} (h : keyVector ctx groups v = .ok ks) :
    keysOf ctx groups v = ks := by
  rw [keysOf, h]
  rfl

theorem aggr_find {exprs : List AggrExpr} {pre : List QrTuple} {st : GroupBy}
    (ht : Tracks hash ctx groups exprs pre st) (h : UInt64) :
    st.aggrVals.find h = HashTable.collect (updated ctx exprs) none
      (pre.filter fun v => decide (hashOf hash ctx groups v = h)) := by
  rw [ht.aggr, HashTable.find_gather, HashTable.find_empty]

theorem aggr_none_iff {exprs : List AggrExpr} {pre : List QrTuple} {st : GroupBy}
    (ht : Tracks hash ctx groups exprs pre st) (h : UInt64) :
    st.aggrVals.find h = none ↔ st.groupKeys.find h = none := by
  rw [aggr_find ht, ht.keys, Option.map_eq_none_iff, List.find?_eq_none]
  constructor
  · intro hnone v hv hvh
    have hsome : (HashTable.collect (updated ctx exprs) none
        (pre.filter fun v => decide (hashOf hash ctx groups v = h))).isSome :=
      HashTable.collect_isSome (List.mem_filter.mpr ⟨hv, hvh⟩)
    rw [hnone] at hsome
    cases hsome
  · intro hall
    have hnil : pre.filter (fun v => decide (hashOf hash ctx groups v = h)) = [] :=
      List.filter_eq_nil_iff.mpr hall
    rw [hnil]
    rfl

/-- One tuple more. -/
theorem Tracks.process {exprs : List AggrExpr} {pre : List QrTuple} {st : GroupBy}
    {ks : QrTuple} (ht : Tracks hash ctx groups exprs pre st)
    (hw : ∀ g ∈ groups, Written ctx g) (hks : keyVector ctx groups v = .ok ks)
    (hread : ∀ ex ∈ exprs, ex.Readable ctx v) :
    ∃ st', process hash ctx st v = .ok st' ∧ Tracks hash ctx groups exprs (pre ++ [v]) st' := by
  obtain ⟨htuple, -, hhash⟩ := @all_written hash _ _ _ _ hw hks
  have hkey : hasher hash ctx st.groups v = .ok (hashOf hash ctx groups v) := by
    rw [hasher, ht.prepared, hhash, hashOf, keysOf_eq hks, mixed]
  have hgather : HashTable.gather (hashOf hash ctx groups) (updated ctx exprs)
      HashTable.empty (pre ++ [v]) = st.aggrVals.assign (hashOf hash ctx groups v)
        (updated ctx exprs (st.aggrVals.find (hashOf hash ctx groups v)) v) := by
    rw [HashTable.gather, List.foldl_append, ht.aggr]
    rfl
  have hkept : AggrExpr.AllKept exprs
      ((st.aggrVals.find (hashOf hash ctx groups v)).getD (initAggregates exprs)) := by
    cases hf : st.aggrVals.find (hashOf hash ctx groups v) with
    | none => exact AggrExpr.allKept_map AggrExpr.kept_groupBy exprs
    | some vals => exact ht.kept _ _ hf
  obtain ⟨vals, hvals, hkept'⟩ := AggrExpr.updateAggregates_ok hkept hread
  have hupd : updated ctx exprs (st.aggrVals.find (hashOf hash ctx groups v)) v = vals := by
    rw [updated, hvals]
    rfl
  have hkept'' : ∀ h vals', (st.aggrVals.assign (hashOf hash ctx groups v) vals).find h =
      some vals' → AggrExpr.AllKept exprs vals' := by
    intro h vals' hfind
    rw [HashTable.find_assign] at hfind
    split at hfind
    · cases hfind
      exact hkept'
    · exact ht.kept h vals' hfind
  rw [hupd] at hgather
  rw [GroupBy.process, hkey, ok_bind]
  cases hf : st.aggrVals.find (hashOf hash ctx groups v) with
  | some aval =>
      rw [hf] at hvals
      refine ⟨{ st with aggrVals := st.aggrVals.assign (hashOf hash ctx groups v) vals }, ?_,
        ht.prepared, ht.aggrExprs, hgather.symm, fun h => ?_, hkept''⟩
      · simp only [ht.aggrExprs]
        rw [Option.getD_some] at hvals
        rw [hvals]
        rfl
      · show st.groupKeys.find h = _
        rw [ht.keys, List.find?_append]
        cases hp : pre.find? fun v => decide (hashOf hash ctx groups v = h) with
        | some w => rfl
        | none =>
            by_cases hh : hashOf hash ctx groups v = h
            · -- the group is there already
              have hnone := (aggr_none_iff ht h).mpr (by rw [ht.keys, hp]; rfl)
              rw [← hh, hf] at hnone
              cases hnone
            · simp [hh]
  | none =>
      rw [hf] at hvals
      have hnone := (aggr_none_iff ht _).mp hf
      refine ⟨{ st with
        groupKeys := emplace st.groupKeys (hashOf hash ctx groups v) ks
        aggrVals := st.aggrVals.assign (hashOf hash ctx groups v) vals }, ?_,
        ht.prepared, ht.aggrExprs, hgather.symm, fun h => ?_, hkept''⟩
      · simp only [ht.aggrExprs, ht.prepared]
        rw [Option.getD_none] at hvals
        rw [htuple, ok_bind, hvals, ok_bind]
      · show (emplace st.groupKeys (hashOf hash ctx groups v) ks).find h = _
        rw [emplace, hnone, HashTable.find_assign, ht.keys, List.find?_append]
        by_cases hh : h = hashOf hash ctx groups v
        · have hp := hnone
          rw [ht.keys, Option.map_eq_none_iff, ← hh] at hp
          rw [if_pos hh, hp]
          simp [hh, keysOf_eq hks]
        · rw [if_neg hh]
          simp [Ne.symm hh]

theorem tracks_new (hash : StdHash) (ctx : QueryCtx) (groups : List Group)
    (exp : List AggrExpr) :
    Tracks hash ctx groups (exp.map (AggrExpr.prepare ctx)) [] (new ctx groups exp) :=
  ⟨rfl, rfl, rfl, fun _ => rfl, fun _ _ h => by cases h⟩

/-- All tuples of the input. -/
theorem Tracks.run {exprs : List AggrExpr} {pre : List QrTuple} {st : GroupBy}
    (ht : Tracks hash ctx groups exprs pre st) (hw : ∀ g ∈ groups, Written ctx g)
    {input : List QrTuple} (hks : ∀ v ∈ input, ∃ ks, keyVector ctx groups v = .ok ks)
    (hread : ∀ ex ∈ exprs, ∀ v ∈ input, ex.Readable ctx v) :
    ∃ st', input.foldlM (GroupBy.process hash ctx) st = .ok st' ∧
      Tracks hash ctx groups exprs (pre ++ input) st' := by
  induction input generalizing pre st with
  | nil => exact ⟨st, rfl, by rwa [List.append_nil]⟩
  | cons v input ih =>
      obtain ⟨ks, hv⟩ := hks v (List.mem_cons_self ..)
      obtain ⟨st', hst', ht'⟩ := ht.process hw hv fun ex hex =>
        hread ex hex v (List.mem_cons_self ..)
      obtain ⟨st'', hst'', ht''⟩ := ih ht' (fun w hw => hks w (List.mem_cons_of_mem _ hw))
        fun ex hex w hw => hread ex hex w (List.mem_cons_of_mem _ hw)
      refine ⟨st'', ?_, ?_⟩
      · rw [List.foldlM_cons, hst']
        exact hst''
      · rwa [List.append_assoc] at ht''

end GroupBy

end Poseidon
