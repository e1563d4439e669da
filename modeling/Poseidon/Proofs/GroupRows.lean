import Poseidon.Proofs.Grouping

/-!
# The tuples of the groups

The entry of a hash in the table gives the tuple of the group of any input
tuple that is mixed to it, if only tuples of one group are. The other way
round, a table with an entry for each hash has as many entries as there are
groups only then; and a key that is not written makes every tuple too
short.
-/

namespace Poseidon

open Results Firsts

namespace GroupBy

variable {hash : StdHash} {ctx : QueryCtx} {g : Group} {groups : List Group}
  {exprs : List AggrExpr} {input : List QrTuple} {v w : QrTuple} {st : GroupBy}

/-- The tuple of the group of `v`: its key vector, and what the aggregates
give for the tuples of the input with this vector. -/
def groupRow (ctx : QueryCtx) (groups : List Group) (exprs : List AggrExpr)
    (input : List QrTuple) (v : QrTuple) : Except QopErr QrTuple := do
  let ks ← keyVector ctx groups v
  let aggs ← exprs.mapM
    (AggrExpr.result ctx initVal (input.filter (sameKey (keyId ctx groups) v)))
  .ok (ks ++ (aggs.map Option.toList).flatten)

/-- What the operator is for: a tuple for each distinct key vector, in any
order. -/
def Groups (hash : StdHash) (ctx : QueryCtx)
    (iterate : HashTable UInt64 (List AggrVal) → List (UInt64 × List AggrVal))
    (groups : List Group) (exp : List AggrExpr) (input : List QrTuple) : Prop :=
  ∃ out rows, run hash ctx iterate groups exp input = .ok out ∧
    (firsts (sameKey (keyId ctx groups)) [] input).mapM
      (groupRow ctx groups (exp.map (AggrExpr.prepare ctx)) input) = .ok rows ∧ out.Perm rows

/-! ## Key vectors that are written -/

theorem keyValue_inj {q q' : QueryResult} (hw : Written ctx g) (h : keyValue ctx v g = .ok q)
    (h' : keyValue ctx w g = .ok q') (hid : valueId ctx q = valueId ctx q') : q = q' := by
  obtain ⟨hn, hr, -⟩ := hw
  rw [keyValue] at h h'
  cases hg : g.grpType with
  | nodePtr => exact absurd hg hn
  | rshipPtr => exact absurd hg hr
  | int | uint64 | string =>
      rw [hg] at h h'
      obtain ⟨a, -, rfl⟩ := map_eq_ok h
      obtain ⟨b, -, rfl⟩ := map_eq_ok h'
      cases hid
      rfl
  | double | ptime | array | null | nodeDescr | rshipDescr =>
      rw [hg] at h
      cases h

theorem keyVector_inj {ks ks' : QrTuple} (hw : ∀ g ∈ groups, Written ctx g)
    (h : keyVector ctx groups v = .ok ks) (h' : keyVector ctx groups w = .ok ks')
    (hid : tupleId ctx ks = tupleId ctx ks') : ks = ks' := by
  induction groups generalizing ks ks' with
  | nil =>
      cases h
      cases h'
      rfl
  | cons g groups ih =>
      rw [keyVector, List.mapM_cons] at h h'
      obtain ⟨q, hq, h⟩ := bind_eq_ok h
      obtain ⟨qs, hqs, h⟩ := bind_eq_ok h
      obtain ⟨q', hq', h'⟩ := bind_eq_ok h'
      obtain ⟨qs', hqs', h'⟩ := bind_eq_ok h'
      cases h
      cases h'
      obtain ⟨hhead, htail⟩ := List.cons.inj hid
      rw [keyValue_inj (hw g (List.mem_cons_self ..)) hq hq' hhead,
        ih (fun g' hg' => hw g' (List.mem_cons_of_mem _ hg')) hqs hqs' htail]

/-- Tuples of one group have one key vector. -/
theorem keyVector_of_keyId {ks : QrTuple} (hw : ∀ g ∈ groups, Written ctx g)
    (h : keyVector ctx groups v = .ok ks) (hid : keyId ctx groups w = keyId ctx groups v) :
    keyVector ctx groups w = .ok ks := by
  rw [keyId, keyId, h] at hid
  cases hks : keyVector ctx groups w with
  | error e =>
      rw [hks] at hid
      cases hid
  | ok ks' =>
      rw [hks] at hid
      rw [keyVector_inj hw hks h (Option.some.inj hid)]

theorem hashOf_of_keyId {ks : QrTuple} (hw : ∀ g ∈ groups, Written ctx g)
    (h : keyVector ctx groups v = .ok ks) (hid : keyId ctx groups w = keyId ctx groups v) :
    hashOf hash ctx groups w = hashOf hash ctx groups v := by
  rw [hashOf, hashOf, keysOf_eq h, keysOf_eq (keyVector_of_keyId hw h hid)]

/-! ## Entries of the table -/

theorem collect_updated {vs : List QrTuple} {aval : List AggrVal}
    (hkept : AggrExpr.AllKept exprs aval) (hread : ∀ ex ∈ exprs, ∀ v ∈ vs, ex.Readable ctx v) :
    ∃ vals, vs.foldlM (updateAggregates ctx exprs) aval = .ok vals ∧
      HashTable.collect (updated ctx exprs) (some aval) vs = some vals := by
  induction vs generalizing aval with
  | nil => exact ⟨aval, rfl, rfl⟩
  | cons v vs ih =>
      obtain ⟨aval', hupd, hkept'⟩ := AggrExpr.updateAggregates_ok hkept fun ex hex =>
        hread ex hex v (List.mem_cons_self ..)
      obtain ⟨vals, hfold, hcoll⟩ := ih hkept' fun ex hex w hw =>
        hread ex hex w (List.mem_cons_of_mem _ hw)
      refine ⟨vals, ?_, ?_⟩
      · rw [List.foldlM_cons, hupd, ok_bind, hfold]
      · show HashTable.collect _ (some (updated ctx exprs (some aval) v)) vs = _
        rw [updated, Option.getD_some, hupd]
        exact hcoll

/-- The value of a group is the fold over its tuples. -/
theorem collect_group {vs : List QrTuple} (hne : vs ≠ [])
    (hread : ∀ ex ∈ exprs, ∀ v ∈ vs, ex.Readable ctx v) :
    ∃ vals, vs.foldlM (updateAggregates ctx exprs) (initAggregates exprs) = .ok vals ∧
      HashTable.collect (updated ctx exprs) none vs = some vals := by
  cases vs with
  | nil => exact absurd rfl hne
  | cons v vs =>
      have hinit := AggrExpr.allKept_map AggrExpr.kept_groupBy exprs
      obtain ⟨vals, hfold, hcoll⟩ := collect_updated hinit hread
      exact ⟨vals, hfold, hcoll⟩

/-- The entry of a hash gives the tuple of the group, if no other group has
the hash. -/
theorem groupTuple_eq {e : UInt64 × List AggrVal} {ks : QrTuple}
    (ht : Tracks hash ctx groups exprs input st) (hw : ∀ g ∈ groups, Written ctx g)
    (hread : ∀ ex ∈ exprs, ∀ v ∈ input, ex.Readable ctx v) (hv : v ∈ input)
    (hks : keyVector ctx groups v = .ok ks) (he : e ∈ st.aggrVals.entries)
    (hhash : e.1 = hashOf hash ctx groups v)
    (hinj : ∀ w ∈ input, hashOf hash ctx groups w = hashOf hash ctx groups v →
      keyId ctx groups w = keyId ctx groups v) :
    ∃ row, st.groupTuple e = .ok row ∧ groupRow ctx groups exprs input v = .ok row := by
  -- the tuples with the hash are those with the key vector
  have hfilter : input.filter (fun w => decide (hashOf hash ctx groups w = e.1)) =
      input.filter (sameKey (keyId ctx groups) v) := by
    refine List.filter_congr fun w hwin => ?_
    rw [Bool.eq_iff_iff, decide_eq_true_iff, sameKey, decide_eq_true_iff, hhash]
    exact ⟨fun h => (hinj w hwin h).symm, fun h => hashOf_of_keyId hw hks h.symm⟩
  have hfind : st.groupKeys.find e.1 = some ks := by
    rw [ht.keys]
    cases hf : input.find? fun w => decide (hashOf hash ctx groups w = e.1) with
    | none => exact absurd (decide_eq_true hhash.symm) (List.find?_eq_none.mp hf v hv)
    | some w =>
        have hwh : hashOf hash ctx groups w = e.1 := by simpa using List.find?_some hf
        have hid := hinj w (List.mem_of_find?_eq_some hf) (hwh.trans hhash)
        rw [Option.map_some, keysOf_eq (keyVector_of_keyId hw hks hid)]
  have hne : input.filter (sameKey (keyId ctx groups) v) ≠ [] :=
    List.ne_nil_of_mem (List.mem_filter.mpr ⟨hv, decide_eq_true rfl⟩)
  have hread' : ∀ ex ∈ exprs, ∀ w ∈ input.filter (sameKey (keyId ctx groups) v),
      ex.Readable ctx w := fun ex hex w hw => hread ex hex w (List.mem_filter.mp hw).1
  obtain ⟨vals, hfold, hcoll⟩ := collect_group hne hread'
  have hvals : e.2 = vals := by
    have hval := HashTable.find_eq_some.mpr he
    rw [aggr_find ht, hfilter, hcoll] at hval
    exact (Option.some.inj hval).symm
  have hres : ∀ ex ∈ exprs, AggrExpr.result ctx initVal
      (input.filter (sameKey (keyId ctx groups) v)) ex = .ok ((AggrExpr.result ctx initVal
        (input.filter (sameKey (keyId ctx groups) v)) ex).toOption.getD none) := by
    intro ex hex
    obtain ⟨q, hq⟩ := AggrExpr.result_ok (AggrExpr.kept_groupBy ex) (hread' ex hex)
    rw [hq]
    rfl
  obtain ⟨vals', hfold', hout⟩ := AggrExpr.results_ok hres
  have hsame := hfold.symm.trans hfold'
  cases hsame
  obtain ⟨-, hwrite, -⟩ := @all_written hash _ _ _ _ hw hks
  refine ⟨ks ++ ((exprs.map fun ex => (AggrExpr.result ctx initVal
    (input.filter (sameKey (keyId ctx groups) v)) ex).toOption.getD none).map
      Option.toList).flatten, ?_, ?_⟩
  · rw [groupTuple, hfind, ht.prepared, ht.aggrExprs, Option.getD_some, hwrite, ok_bind, hvals,
      mapM_map, hout]
    show Except.ok _ = _
    rw [← List.flatMap_def, List.flatMap_singleton']
  · rw [groupRow, hks, ok_bind, mapM_ok hres]
    rfl

/-! ## The length of a tuple -/

theorem writeKey_le {q : QueryResult} {ks : QrTuple} (h : writeKey g q = .ok ks) :
    ks.length ≤ 1 := by
  rw [writeKey] at h
  split at h
  · cases h
    exact Nat.le_refl _
  · split at h
    all_goals first
      | (split at h
         · cases h
           exact Nat.le_refl _
         · cases h)
      | (cases h
         exact Nat.zero_le _)

theorem keyOf_le {ks : QrTuple} (h : keyOf ctx v g = .ok ks) : ks.length ≤ 1 := by
  rw [keyOf] at h
  split at h
  all_goals first
    | (obtain ⟨_, -, rfl⟩ := map_eq_ok h
       exact Nat.le_refl _)
    | (cases h
       exact Nat.zero_le _)

/-- With a group key that is a pointer the key tuple is too short. -/
theorem keyTuple_short {ks : QrTuple} (hg : g ∈ groups)
    (hp : g.grpType = .nodePtr ∨ g.grpType = .rshipPtr)
    (h : keyTuple ctx (groups.map (Group.prepare ctx)) v = .ok ks) :
    ks.length < groups.length := by
  obtain ⟨kss, hkss, rfl⟩ := map_eq_ok h
  rw [← List.length_map (Group.prepare ctx)]
  obtain ⟨pre, post, rfl⟩ := List.append_of_mem hg
  rw [List.map_append, List.map_cons] at hkss ⊢
  rw [List.mapM_append] at hkss
  obtain ⟨a, ha, hkss⟩ := bind_eq_ok hkss
  obtain ⟨b, hb, hkss⟩ := bind_eq_ok hkss
  cases hkss
  rw [List.mapM_cons, pointer_skipped hp, ok_bind] at hb
  obtain ⟨b', hb', hb⟩ := bind_eq_ok hb
  cases hb
  have hpre := length_flatten_le (fun _ _ _ hks => keyOf_le hks) ha
  have hpost := length_flatten_le (fun _ _ _ hks => keyOf_le hks) hb'
  rw [List.flatten_append, List.flatten_cons, List.nil_append, List.length_append,
    List.length_append, List.length_cons]
  omega

/-- What the aggregates of a table entry add to its tuple. -/
theorem outputs_le {vals : List AggrVal} {aggs : List QrTuple}
    (h : (exprs.zip vals).mapM (fun p => (p.1.output p.2).map Option.toList) = .ok aggs) :
    aggs.flatten.length ≤ exprs.countP AggrExpr.emits := by
  induction exprs generalizing vals aggs with
  | nil =>
      cases h
      exact Nat.le_refl _
  | cons ex exprs ih =>
      cases vals with
      | nil =>
          cases h
          exact Nat.zero_le _
      | cons val vals =>
          rw [List.zip_cons_cons, List.mapM_cons] at h
          obtain ⟨a, ha, h⟩ := bind_eq_ok h
          obtain ⟨as, has, h⟩ := bind_eq_ok h
          cases h
          obtain ⟨q, hq, rfl⟩ := map_eq_ok ha
          have htail := ih has
          have hhead := AggrExpr.isSome_output hq
          rw [List.flatten_cons, List.length_append, List.countP_cons, ← hhead]
          cases q with
          | none => simpa using htail
          | some q =>
              show 1 + _ ≤ _ + 1
              omega

theorem results_length {init : AggrExpr → AggrVal} {vs : List QrTuple}
    {aggs : List (Option QueryResult)}
    (h : exprs.mapM (AggrExpr.result ctx init vs) = .ok aggs) :
    (aggs.map Option.toList).flatten.length = exprs.countP AggrExpr.emits := by
  induction exprs generalizing aggs with
  | nil =>
      cases h
      rfl
  | cons ex exprs ih =>
      rw [List.mapM_cons] at h
      obtain ⟨q, hq, h⟩ := bind_eq_ok h
      obtain ⟨qs, hqs, h⟩ := bind_eq_ok h
      cases h
      have hhead := AggrExpr.isSome_result hq
      rw [List.map_cons, List.flatten_cons, List.length_append, List.countP_cons, ← hhead, ih hqs]
      cases q with
      | none => exact Nat.zero_add _
      | some q => exact Nat.add_comm ..

/-- The tuple of a group has a value for each key. -/
theorem groupRow_length {row : QrTuple} (h : groupRow ctx groups exprs input v = .ok row) :
    row.length = groups.length + exprs.countP AggrExpr.emits := by
  rw [groupRow] at h
  obtain ⟨ks, hks, h⟩ := bind_eq_ok h
  obtain ⟨aggs, haggs, h⟩ := bind_eq_ok h
  cases h
  rw [List.length_append, mapM_length hks, results_length haggs]

/-- What holds of the operator when a key is a pointer. -/
structure Short (ctx : QueryCtx) (groups : List Group) (exprs : List AggrExpr)
    (st : GroupBy) : Prop where
  prepared : st.groups = groups.map (Group.prepare ctx)
  aggrExprs : st.aggrExprs = exprs
  keys : ∀ h ks, st.groupKeys.find h = some ks → ks.length < groups.length

theorem Short.process {st' : GroupBy} (hs : Short ctx groups exprs st) (hg : g ∈ groups)
    (hp : g.grpType = .nodePtr ∨ g.grpType = .rshipPtr)
    (h : process hash ctx st v = .ok st') : Short ctx groups exprs st' := by
  rw [GroupBy.process] at h
  obtain ⟨key, -, h⟩ := bind_eq_ok h
  cases hf : st.aggrVals.find key with
  | some aval =>
      rw [hf] at h
      obtain ⟨aval', -, h⟩ := bind_eq_ok h
      cases h
      exact ⟨hs.prepared, hs.aggrExprs, hs.keys⟩
  | none =>
      rw [hf] at h
      obtain ⟨v2, hv2, h⟩ := bind_eq_ok h
      obtain ⟨aval', -, h⟩ := bind_eq_ok h
      cases h
      rw [hs.prepared] at hv2
      refine ⟨hs.prepared, hs.aggrExprs, fun k ks hk => ?_⟩
      have hk : (emplace st.groupKeys key v2).find k = some ks := hk
      rw [emplace] at hk
      split at hk
      · exact hs.keys k ks hk
      · rw [HashTable.find_assign] at hk
        split at hk
        · cases hk
          exact keyTuple_short hg hp hv2
        · exact hs.keys k ks hk

theorem groupTuple_short {e : UInt64 × List AggrVal} {row : QrTuple}
    (hs : Short ctx groups exprs st) (hg : g ∈ groups) (h : st.groupTuple e = .ok row) :
    row.length < groups.length + exprs.countP AggrExpr.emits := by
  rw [groupTuple] at h
  obtain ⟨keys, hkeys, h⟩ := bind_eq_ok h
  obtain ⟨aggs, haggs, h⟩ := bind_eq_ok h
  cases h
  rw [hs.aggrExprs] at haggs
  have haggs := outputs_le haggs
  have hlen := length_flatten_le (fun _ _ _ hks => writeKey_le hks) hkeys
  rw [List.length_zip] at hlen
  have hkeys : ((st.groupKeys.find e.1).getD []).length < groups.length := by
    cases hf : st.groupKeys.find e.1 with
    | none => exact List.length_pos_of_mem hg
    | some ks => exact hs.keys _ _ hf
  rw [List.length_append]
  omega

/-! ## The whole input -/

variable {iterate : HashTable UInt64 (List AggrVal) → List (UInt64 × List AggrVal)}
  {exp : List AggrExpr}

/-- If a tuple has a value for each key, every key is written. -/
theorem written_of_run {out : List QrTuple} {row : QrTuple}
    (hcodes : ∀ name, ctx.lookupString name ≠ UNKNOWN_CODE)
    (hrun : run hash ctx iterate groups exp input = .ok out) (hrow : row ∈ out)
    (hlong : groups.length + (exp.map (AggrExpr.prepare ctx)).countP AggrExpr.emits ≤
      row.length) :
    ∀ g ∈ groups, Written ctx g := by
  obtain ⟨st, hst, hout⟩ := bind_eq_ok hrun
  intro g hg
  have hpointer : ¬(g.grpType = .nodePtr ∨ g.grpType = .rshipPtr) := by
    intro hp
    have hshort : Short ctx groups (exp.map (AggrExpr.prepare ctx)) st :=
      foldlM_inv (fun _ _ _ _ hs hstep => hs.process hg hp hstep)
        ⟨rfl, rfl, fun _ _ h => by cases h⟩ hst
    obtain ⟨e, -, he⟩ := mem_of_mapM hout hrow
    have hlt := groupTuple_short hshort hg he
    omega
  exact ⟨fun hn => hpointer (.inl hn), fun hr => hpointer (.inr hr), hcodes _⟩

/-- If the groups come out, every key is written. -/
theorem Groups.written (h : Groups hash ctx iterate groups exp input)
    (hcodes : ∀ name, ctx.lookupString name ≠ UNKNOWN_CODE) (hne : input ≠ []) :
    ∀ g ∈ groups, Written ctx g := by
  obtain ⟨out, rows, hrun, hrows, hperm⟩ := h
  obtain ⟨v, hv⟩ := List.exists_mem_of_ne_nil input hne
  -- the first tuple has a group, whose tuple is long enough
  obtain ⟨w, hw, -⟩ := @exists_first_key _ _ _ _ _ (keyId ctx groups) hv
  obtain ⟨row, hrow, hrowIn⟩ := mem_mapM hrows hw
  exact written_of_run hcodes hrun (hperm.mem_iff.mpr hrowIn)
    (Nat.le_of_eq (groupRow_length hrow).symm)

/-- The table has an entry for each mix of an input tuple. -/
theorem Tracks.keys_eq (ht : Tracks hash ctx groups exprs input st) :
    st.aggrVals.entries.map Prod.fst =
      (firsts (sameKey (hashOf hash ctx groups)) [] input).map (hashOf hash ctx groups) := by
  have hkeys : st.aggrVals.keys = _ :=
    (congrArg HashTable.keys ht.aggr).trans HashTable.keys_gather_empty
  exact hkeys

/-- If the groups come out, tuples with one mix are in one group. -/
theorem Groups.separated (h : Groups hash ctx iterate groups exp input)
    (hiter : ∀ t, (iterate t).Perm t.entries) (hw : ∀ g ∈ groups, Written ctx g)
    (hk : ∀ v ∈ input, ∃ ks, keyVector ctx groups v = .ok ks)
    (hread : ∀ ex ∈ exp.map (AggrExpr.prepare ctx), ∀ v ∈ input, ex.Readable ctx v) :
    ∀ v ∈ input, ∀ w ∈ input, hashOf hash ctx groups v = hashOf hash ctx groups w →
      keyId ctx groups v = keyId ctx groups w := by
  obtain ⟨out, rows, hrun, hrows, hperm⟩ := h
  obtain ⟨st, hst, hout⟩ := bind_eq_ok hrun
  obtain ⟨st', hst', ht⟩ := (tracks_new hash ctx groups exp).run hw hk hread
  rw [hst] at hst'
  cases hst'
  refine (length_eq_iff fun v hv w _ hvw => ?_).mp ?_
  · obtain ⟨ks, hks⟩ := hk v hv
    exact (hashOf_of_keyId hw hks hvw.symm).symm
  · have hentries := congrArg List.length ht.keys_eq
    rw [List.length_map, List.length_map, List.nil_append] at hentries
    calc (firsts (sameKey (hashOf hash ctx groups)) [] input).length
        = st.aggrVals.entries.length := hentries.symm
      _ = (iterate st.aggrVals).length := (hiter _).length_eq.symm
      _ = out.length := (mapM_length hout).symm
      _ = rows.length := hperm.length_eq
      _ = (firsts (sameKey (keyId ctx groups)) [] input).length := mapM_length hrows

/-- If every key is written and tuples with one mix are in one group, the
groups come out. -/
theorem groups_of_separated (hiter : ∀ t, (iterate t).Perm t.entries)
    (hw : ∀ g ∈ groups, Written ctx g)
    (hk : ∀ v ∈ input, ∃ ks, keyVector ctx groups v = .ok ks)
    (hread : ∀ ex ∈ exp.map (AggrExpr.prepare ctx), ∀ v ∈ input, ex.Readable ctx v)
    (hsep : ∀ v ∈ input, ∀ w ∈ input, hashOf hash ctx groups v = hashOf hash ctx groups w →
      keyId ctx groups v = keyId ctx groups w) : Groups hash ctx iterate groups exp input := by
  obtain ⟨st, hst, ht⟩ := (tracks_new hash ctx groups exp).run hw hk hread
  rw [List.nil_append] at ht
  have hsame : firsts (sameKey (hashOf hash ctx groups)) [] input =
      firsts (sameKey (keyId ctx groups)) [] input := by
    refine firsts_of_injective (fun v hv w _ hvw => ?_) hsep
    obtain ⟨ks, hks⟩ := hk v hv
    exact (hashOf_of_keyId hw hks hvw.symm).symm
  -- the tuple of an entry and the one of the representative of its mix
  have hrow : ∀ e ∈ st.aggrVals.entries, ∀ v ∈ firsts (sameKey (hashOf hash ctx groups)) [] input,
      e.1 = hashOf hash ctx groups v → ∃ row, st.groupTuple e = .ok row ∧
        groupRow ctx groups (exp.map (AggrExpr.prepare ctx)) input v = .ok row := by
    intro e he v hv hev
    have hvin := firsts_sublist.subset hv
    obtain ⟨ks, hks⟩ := hk v hvin
    exact groupTuple_eq ht hw hread hvin hks he hev fun w hwin hwv => hsep w hwin v hvin hwv
  obtain ⟨rows, hentries, hrows⟩ := mapM_eq_of_keys ht.keys_eq hrow
  obtain ⟨out, hout, hperm⟩ := mapM_perm (hiter st.aggrVals).symm hentries
  refine ⟨out, rows, ?_, ?_, hperm.symm⟩
  · rw [run, hst, ok_bind]
    exact hout
  · rw [← hsame]
    exact hrows

/-- `group_by` emits the tuples of the groups if and only if the input is
empty, or no group key is a pointer and no two different key vectors of the
input are mixed to the same value. -/
theorem group_by_iff (hash : StdHash) (ctx : QueryCtx)
    (iterate : HashTable UInt64 (List AggrVal) → List (UInt64 × List AggrVal))
    (groups : List Group) (exp : List AggrExpr) (input : List QrTuple)
    (hiter : ∀ t, (iterate t).Perm t.entries)
    (hcodes : ∀ name, ctx.lookupString name ≠ UNKNOWN_CODE)
    (hk : ∀ v ∈ input, ∃ ks, keyVector ctx groups v = .ok ks)
    (hread : ∀ ex ∈ exp.map (AggrExpr.prepare ctx), ∀ v ∈ input, ex.Readable ctx v) :
    Groups hash ctx iterate groups exp input ↔ input = [] ∨
      ((∀ g ∈ groups, g.grpType ≠ .nodePtr ∧ g.grpType ≠ .rshipPtr) ∧
        ∀ v ∈ input, ∀ w ∈ input, hashOf hash ctx groups v = hashOf hash ctx groups w →
          keyId ctx groups v = keyId ctx groups w) := by
  constructor
  · intro h
    by_cases hne : input = []
    · exact .inl hne
    · have hw := h.written hcodes hne
      exact .inr ⟨fun g hg => ⟨(hw g hg).1, (hw g hg).2.1⟩, h.separated hiter hw hk hread⟩
  · rintro (rfl | ⟨hw, hsep⟩)
    · have hnil : iterate HashTable.empty = [] := List.perm_nil.mp (hiter _)
      refine ⟨[], [], ?_, rfl, .nil⟩
      show (iterate HashTable.empty).mapM _ = _
      rw [hnil]
      rfl
    · have hw' : ∀ g ∈ groups, Written ctx g := fun g hg => ⟨(hw g hg).1, (hw g hg).2, hcodes _⟩
      exact groups_of_separated hiter hw' hk hread hsep

/-- A hash of the standard library that knows only the length of a string. -/
def StdHash.length : StdHash :=
  ⟨fun _ => 0, fun s => UInt64.ofNat s.length, fun t => UInt64.ofNat t.toNat⟩

/-- Two groups of columns, one of them with two tuples. -/
theorem group_by_two_columns :
    Groups StdHash.length QueryCtx.initial HashTable.entries
      [⟨0, "", 0, .int⟩, ⟨1, "", 0, .string⟩] [⟨.count, 0, "", 0, .int⟩, ⟨.sum, 0, "", 0, .int⟩]
      [[.int 1, .str "a"], [.int 2, .str "bb"], [.int 1, .str "a"]] :=
  (group_by_iff _ _ _ _ _ _ (fun _ => .refl _)
    (fun _ => (by decide : 0 ≠ UNKNOWN_CODE))
    (by
      intro v hv
      simp only [List.mem_cons, List.not_mem_nil, or_false] at hv
      rcases hv with rfl | rfl | rfl <;> exact ⟨_, rfl⟩)
    (by
      intro ex hex v hv
      simp only [List.map_cons, List.map_nil, List.mem_cons, List.not_mem_nil, or_false] at hex hv
      rcases hex with rfl | rfl
      · trivial
      · rcases hv with rfl | rfl | rfl <;> exact ⟨_, rfl⟩)).mpr
    (.inr ⟨by
      intro g hg
      simp only [List.mem_cons, List.not_mem_nil, or_false] at hg
      rcases hg with rfl | rfl <;> exact ⟨by decide, by decide⟩,
      by decide⟩)

/-- Grouped by a node, the only tuple has no key. -/
theorem group_by_loses_node :
    ¬Groups StdHash.length QueryCtx.initial HashTable.entries [⟨0, "", 0, .nodePtr⟩] []
      [[.node 5]] := by
  rintro ⟨out, rows, hrun, hrows, hperm⟩
  have hout : run StdHash.length QueryCtx.initial HashTable.entries [⟨0, "", 0, .nodePtr⟩] []
      [[.node 5]] = .ok [[]] := rfl
  rw [hout] at hrun
  cases hrun
  cases hrows
  have hlen := (hperm.map List.length).sum_nat
  revert hlen
  decide

end GroupBy

end Poseidon
