import Mathlib.Data.List.ProdSigma
import Poseidon.Lib.Results
import Poseidon.Query.Joins

/-!
# Joins

The table of a hash join holds, under each hash, the build tuples whose join
values have it, in the order in which they came. Equal values are in one
bucket, so the comparison at probe time finds all of them.

The left outer join pads with as many nulls as the first right tuple has
columns, and with one null when there is no right tuple.
-/

namespace Poseidon

open Results

namespace HashJoin

variable {hasher : QueryResult → UInt64} {ctx : QueryCtx} {x : Variable}

/-- A tuple with its join value. -/
def joinValue (ctx : QueryCtx) (x : Variable) (v : QrTuple) :
    Except QopErr (QueryResult × QrTuple) :=
  (getVarValue ctx v x).map fun jval => (jval, v)

/-- What a bucket is after one more candidate. -/
def push (vec : Option (List (QueryResult × QrTuple))) (jc : QueryResult × QrTuple) :
    List (QueryResult × QrTuple) :=
  vec.getD [] ++ [jc]

theorem buildPhase_eq (st : HashJoin) (v : QrTuple) :
    buildPhase hasher ctx st v = (joinValue ctx st.lhsVar v).map fun jc =>
      { st with
        htable := st.htable.assign (hasher jc.1) (push (st.htable.find (hasher jc.1)) jc) } := by
  rw [buildPhase, joinValue]
  cases getVarValue ctx v st.lhsVar with
  | error e => rfl
  | ok jval =>
      rw [ok_bind]
      simp only [Except.map]
      cases st.htable.find (hasher jval) with
      | none => rfl
      | some vec => rfl

/-- The build phase fills the table with the candidates. -/
theorem build_eq (builds : List QrTuple) (st : HashJoin) :
    builds.foldlM (buildPhase hasher ctx) st =
      (builds.mapM (joinValue ctx st.lhsVar)).map fun bs =>
        { st with htable := HashTable.gather (fun jc => hasher jc.1) push st.htable bs } := by
  induction builds generalizing st with
  | nil => rfl
  | cons v builds ih =>
      rw [List.foldlM_cons, List.mapM_cons, buildPhase_eq]
      cases joinValue ctx st.lhsVar v with
      | error e => rfl
      | ok jc =>
          simp only [Except.map, ok_bind]
          rw [ih]
          simp only []
          cases builds.mapM (joinValue ctx st.lhsVar) with
          | error e => rfl
          | ok bs => rfl

theorem collect_push (bs : List (QueryResult × QrTuple)) (hne : bs ≠ []) :
    ∀ o, HashTable.collect push o bs = some (o.getD [] ++ bs) := by
  induction bs with
  | nil => exact absurd rfl hne
  | cons jc bs ih =>
      intro o
      show HashTable.collect push (some (push o jc)) bs = _
      cases bs with
      | nil => rfl
      | cons jc' bs =>
          rw [ih (List.cons_ne_nil jc' bs), Option.getD_some, push, List.append_assoc]
          rfl

theorem probeLoop_eq (jval : QueryResult) (v : QrTuple) (vec : List (QueryResult × QrTuple)) :
    probeLoop jval v vec =
      (vec.filter fun jc => variantEq jval jc.1).map fun jc => concat jc.2 v := by
  induction vec with
  | nil => rfl
  | cons jc vec ih =>
      rw [probeLoop, List.filter_cons, ih]
      split
      · rw [List.map_cons]
      · rfl

/-- Looking into one bucket is enough. -/
theorem probe_eq (hhash : ∀ a b, variantEq a b = true → hasher a = hasher b) (st : HashJoin)
    (bs : List (QueryResult × QrTuple))
    (ht : st.htable = HashTable.gather (fun jc => hasher jc.1) push HashTable.empty bs)
    (v : QrTuple) :
    probePhase hasher ctx st v = (joinValue ctx st.rhsVar v).map fun jc =>
      (bs.filter fun b => variantEq jc.1 b.1).map fun b => concat b.2 jc.2 := by
  rw [probePhase, joinValue]
  cases getVarValue ctx v st.rhsVar with
  | error e => rfl
  | ok jval =>
      rw [ok_bind, ht, HashTable.find_gather, HashTable.find_empty]
      have hfilter : ∀ l : List (QueryResult × QrTuple),
          (l.filter fun b => decide (hasher b.1 = hasher jval)).filter (fun b =>
            variantEq jval b.1) = l.filter fun b => variantEq jval b.1 := by
        intro l
        rw [List.filter_filter]
        refine List.filter_congr fun b _ => ?_
        cases heq : variantEq jval b.1 with
        | false => rfl
        | true => simp [hhash _ _ heq]
      cases hbucket : bs.filter fun b => decide (hasher b.1 = hasher jval) with
      | nil =>
          have hnone := hfilter bs
          rw [hbucket, List.filter_nil] at hnone
          simp only [Except.map]
          rw [← hnone]
          rfl
      | cons jc vec =>
          rw [← hbucket, collect_push _ (by rw [hbucket]; exact List.cons_ne_nil jc vec)]
          simp only [Except.map, Option.getD_none, List.nil_append]
          rw [probeLoop_eq, hfilter]

/-- The pairs of a build tuple and a probe tuple whose join values are
equal. -/
def filteredProduct (ctx : QueryCtx) (l r : Variable) (builds probes : List QrTuple) :
    Except QopErr (List QrTuple) := do
  let bs ← builds.mapM (joinValue ctx l)
  let ps ← probes.mapM (joinValue ctx r)
  .ok (((ps.product bs).filter fun e => variantEq e.1.1 e.2.1).map fun e =>
    concat e.2.2 e.1.2)

end HashJoin

/-- For a hash that is the same for equal values, a hash join passes on the
pairs of the product of its inputs whose join values are equal, in the order
of the probe tuples. -/
theorem hash_join_is_filtered_product (hasher : QueryResult → UInt64)
    (hhash : ∀ a b, variantEq a b = true → hasher a = hasher b) (ctx : QueryCtx)
    (l r : Variable) (builds probes : List QrTuple) :
    HashJoin.run hasher ctx l r builds probes =
      HashJoin.filteredProduct ctx l r builds probes := by
  rw [HashJoin.run, HashJoin.filteredProduct, HashJoin.build_eq]
  cases hb : builds.mapM (HashJoin.joinValue ctx (HashJoin.new l r).lhsVar) with
  | error e => exact congrArg (· >>= _) hb.symm
  | ok bs =>
      have hb' : builds.mapM (HashJoin.joinValue ctx l) = .ok bs := hb
      rw [hb']
      simp only [Except.map, ok_bind]
      rw [mapM_congr fun v _ => HashJoin.probe_eq hhash _ bs rfl v, mapM_map]
      show ((probes.mapM (HashJoin.joinValue ctx r)).map _ >>= _) = _
      cases probes.mapM (HashJoin.joinValue ctx r) with
      | error e => rfl
      | ok ps =>
          simp only [Except.map, ok_bind]
          rw [List.product, List.filter_flatMap, List.map_flatMap, List.flatMap_def]
          refine congrArg (fun f => Except.ok (List.map f ps).flatten) (funext fun jc => ?_)
          rw [List.filter_map, List.map_map]
          rfl

/-- An empty database. -/
def QueryCtx.initial : QueryCtx where
  db := GraphDb.initial
  xid := 1
  nodeRef p := ⟨p, .slot⟩
  rshipRef p := ⟨p, .slot⟩
  lookupString _ := 0
  lookupCode _ := ""
  raw := PItem.zero

/-- Hashes under which all odd integers, and all even ones, share a bucket. -/
def BoostHash.parity : BoostHash :=
  ⟨fun i => i.toInt64.toUInt64 % 2, fun _ => 0, fun s => s.length.toUInt64, id, fun _ => 0⟩

theorem hash_join_mixed_bucket :
    HashJoin.run BoostHash.parity.hasher QueryCtx.initial ⟨0, "", 0, .int⟩ ⟨0, "", 0, .int⟩
        [[.int 1, .str "a"], [.int 3], [.int 1]] [[.int 1], [.int 5], [.int 3]] =
      .ok [[.int 1, .str "a", .int 1], [.int 1, .int 1], [.int 3, .int 3]] :=
  (hash_join_is_filtered_product BoostHash.parity.hasher
    (fun _ _ h => BoostHash.parity.hasher_congr (fun _ _ _ => rfl) h) _ _ _ _ _).trans rfl

/-! ## Left outer join -/

namespace LeftOuterJoin

variable {raw : PItem} {ctx : ExprCtx} {pred : JoinPredicate}

/-- The right tuples that match. -/
def matching (raw : PItem) (ctx : ExprCtx) (pred : JoinPredicate) (v : QrTuple) :
    List QrTuple → Except EvalErr (List QrTuple)
  | [] => .ok []
  | t :: input => do
      let tp ← test raw ctx pred v t
      let rest ← matching raw ctx pred v input
      .ok (if tp then t :: rest else rest)

/-- What a left tuple gives with right tuples of width `w`. -/
def joined (raw : PItem) (ctx : ExprCtx) (pred : JoinPredicate) (w : Nat)
    (rights : List QrTuple) (v : QrTuple) : Except EvalErr (List QrTuple) := do
  let ms ← matching raw ctx pred v rights
  .ok (if ms = [] then [concat v (List.replicate w .null)] else ms.map (concat v))

theorem leftLoop_eq (v : QrTuple) (rights : List QrTuple) (acc : Bool × List QrTuple) :
    leftLoop raw ctx pred v rights acc = (matching raw ctx pred v rights).map fun ms =>
      (acc.1 && ms.isEmpty, acc.2 ++ ms.map (concat v)) := by
  induction rights generalizing acc with
  | nil => simp [leftLoop, matching, Except.map]
  | cons t rights ih =>
      rw [leftLoop, matching]
      cases test raw ctx pred v t with
      | error e => rfl
      | ok tp =>
          rw [ok_bind, ok_bind, ih]
          cases matching raw ctx pred v rights with
          | error e => rfl
          | ok ms =>
              cases tp with
              | false => rfl
              | true => simp [Except.map]

theorem processLeft_eq (st : LeftOuterJoin) (v : QrTuple) :
    processLeft raw ctx st v = joined raw ctx st.pred st.space st.input v := by
  rw [processLeft, joined, leftLoop_eq]
  cases matching raw ctx st.pred v st.input with
  | error e => rfl
  | ok ms =>
      cases ms with
      | nil => rfl
      | cons m ms => rfl

theorem foldl_processRight (rights : List QrTuple) (st : LeftOuterJoin) :
    rights.foldl processRight st = { st with input := st.input ++ rights } := by
  induction rights generalizing st with
  | nil => simp
  | cons t rights ih => simp [ih, processRight]

/-- The run joins each left tuple, and pads with `space` nulls. -/
theorem run_eq (rights lefts : List QrTuple) : run raw ctx pred rights lefts =
    (lefts.mapM (joined raw ctx pred (space ⟨0, rights, pred⟩) rights)).map List.flatten := by
  rw [run, foldl_processRight, mapM_congr fun v _ => processLeft_eq _ v]
  show (lefts.mapM (joined raw ctx pred (space ⟨0, rights, pred⟩) rights) >>= _) = _
  cases lefts.mapM (joined raw ctx pred (space ⟨0, rights, pred⟩) rights) with
  | error e => rfl
  | ok out => rfl

/-- What the operator is for: it joins with the right tuples, of width `w`,
and whatever it passes on for a left tuple is `w` columns wider. -/
structure Joins (raw : PItem) (ctx : ExprCtx) (pred : JoinPredicate) (w : Nat)
    (rights lefts : List QrTuple) : Prop where
  run : run raw ctx pred rights lefts =
    (lefts.mapM (joined raw ctx pred w rights)).map List.flatten
  width : ∀ v ∈ lefts, ∀ out, processLeft raw ctx ⟨1, rights, pred⟩ v = .ok out →
    ∀ t ∈ out, t.length = v.length + w

theorem matching_subset {v : QrTuple} {rights ms : List QrTuple}
    (h : matching raw ctx pred v rights = .ok ms) : ∀ t ∈ ms, t ∈ rights := by
  induction rights generalizing ms with
  | nil =>
      cases h
      exact fun _ ht => ht
  | cons r rights ih =>
      obtain ⟨tp, -, h⟩ := bind_eq_ok h
      obtain ⟨rest, hrest, h⟩ := bind_eq_ok h
      cases h
      intro t ht
      cases tp with
      | false => exact List.mem_cons_of_mem _ (ih hrest t ht)
      | true =>
          rcases List.mem_cons.mp ht with rfl | ht
          · exact List.mem_cons_self ..
          · exact List.mem_cons_of_mem _ (ih hrest t ht)

theorem joined_width {w : Nat} {rights out : List QrTuple} {v : QrTuple}
    (hw : ∀ t ∈ rights, t.length = w) (h : joined raw ctx pred w rights v = .ok out) :
    ∀ t ∈ out, t.length = v.length + w := by
  obtain ⟨ms, hms, h⟩ := bind_eq_ok h
  cases h
  intro t ht
  split at ht
  · rw [List.mem_singleton.mp ht, concat, List.length_append, List.length_replicate]
  · obtain ⟨m, hm, rfl⟩ := List.mem_map.mp ht
    rw [concat, List.length_append, hw m (matching_subset hms m hm)]

end LeftOuterJoin

/-- The operator joins as it should unless it has to pad for a right input
without tuples, whose width it does not know and takes to be one. -/
theorem left_outer_join_iff (raw : PItem) (ctx : ExprCtx) (pred : JoinPredicate) (w : Nat)
    (rights lefts : List QrTuple) (hw : ∀ t ∈ rights, t.length = w) :
    LeftOuterJoin.Joins raw ctx pred w rights lefts ↔ rights ≠ [] ∨ w = 1 ∨ lefts = [] := by
  constructor
  · intro h
    cases rights with
    | cons t rights => exact .inl (List.cons_ne_nil t rights)
    | nil =>
        cases lefts with
        | nil => exact .inr (.inr rfl)
        | cons v lefts =>
            have hpad := h.width v (List.mem_cons_self ..) _ rfl _ (List.mem_singleton_self _)
            simp only [concat, List.length_append, List.length_replicate, LeftOuterJoin.space]
              at hpad
            exact .inr (.inl (by omega))
  · intro h
    have hspace : lefts = [] ∨ LeftOuterJoin.space ⟨1, rights, pred⟩ = w := by
      cases rights with
      | cons t rights => exact .inr (hw t (List.mem_cons_self ..))
      | nil =>
          rcases h with h | h | h
          · exact absurd rfl h
          · exact .inr h.symm
          · exact .inl h
    rcases hspace with rfl | hspace
    · exact ⟨LeftOuterJoin.run_eq rights [], fun v hv => by cases hv⟩
    · refine ⟨?_, fun v _ out hout => ?_⟩
      · rw [LeftOuterJoin.run_eq]
        exact congrArg (fun n => (lefts.mapM
          (LeftOuterJoin.joined raw ctx pred n rights)).map List.flatten) hspace
      · rw [LeftOuterJoin.processLeft_eq, hspace] at hout
        exact LeftOuterJoin.joined_width hw hout

/-- A context without properties. -/
def ExprCtx.initial : ExprCtx :=
  ⟨PropertyList.empty, PropertyList.empty, fun _ => 0, fun _ => 0, fun _ => ""⟩

/-- The first columns are equal. -/
def sameHead (v t : QrTuple) : Bool :=
  match v, t with
  | a :: _, b :: _ => variantEq a b
  | _, _ => false

/-- One left tuple has a partner and the other is padded. -/
theorem left_outer_join_matched_and_dangling :
    LeftOuterJoin.Joins PItem.zero ExprCtx.initial (.func sameHead) 2 [[.int 1, .str "x"]]
      [[.int 1], [.int 2]] :=
  (left_outer_join_iff _ _ _ 2 [[.int 1, .str "x"]] [[.int 1], [.int 2]] (by simp)).mpr
    (.inl (List.cons_ne_nil _ _))

/-- No right tuple, of width two: the left tuple is padded with one null. -/
theorem left_outer_join_without_right_tuples :
    ¬LeftOuterJoin.Joins PItem.zero ExprCtx.initial (.func fun _ _ => true) 2 [] [[.int 7]] :=
  fun h => by
    have hpad := h.width [.int 7] (List.mem_singleton_self _) _ rfl _ (List.mem_singleton_self _)
    cases hpad

end Poseidon
