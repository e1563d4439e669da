import Poseidon.Query.OrderBy
import Mathlib.Data.String.Basic
import Mathlib.Order.Lattice
import Mathlib.Algebra.Order.Ring.Int

/-!
# The keys of a sort

`qr_compare` goes through the keys of a specification until one of them tells
the tuples apart. Each key is a comparison that fails where a value is of
another type, and as far as it answers it is that of the integers or of the
strings. So is the whole comparison, by the laws of `Compares`.
-/

namespace Poseidon

open StableSort

variable {ctx : ExprCtx} {sp : SortSpec} {a b : QrTuple}

/-- Ascending or descending, over `int`, `uint64` or strings. -/
def SortSpec.Valid (sp : SortSpec) : Prop :=
  (sp.sOrder = .asc ∨ sp.sOrder = .desc) ∧
    (sp.cmpType = .int ∨ sp.cmpType = .uint64 ∨ sp.cmpType = .string)

/-- The value that a key compares, and whether it is a property. -/
def SortSpec.keyOf (ctx : ExprCtx) (sp : SortSpec) (v : QueryResult) :
    Option (Bool × QueryResult) :=
  if sp.pcode > 0 then
    match v with
    | .node p => (nodePropertyValue ctx p sp.pcode).toOption.map fun item =>
        (true, qvFromPItem item)
    | v => some (false, v)
  else some (false, v)

def SortSpec.key (ctx : ExprCtx) (sp : SortSpec) (tup : QrTuple) :
    Option (Bool × QueryResult) :=
  tup[sp.vidx]?.bind (sp.keyOf ctx)

/-- The comparison by one key. -/
def keyOrdering (ctx : ExprCtx) (sp : SortSpec) (a b : QrTuple) : Except SortErr Ordering :=
  (qrLess ctx a b sp).map fun res => compare res 0

/-- The comparison by one key, in the direction of the key. -/
def directedOrdering (ctx : ExprCtx) (sp : SortSpec) : QrTuple → QrTuple →
    Except SortErr Ordering :=
  if sp.sOrder = .desc then reversed (keyOrdering ctx sp) else keyOrdering ctx sp

/-- The comparison by all keys. -/
def specOrdering (ctx : ExprCtx) : List SortSpec → QrTuple → QrTuple →
    Except SortErr Ordering
  | [] => fun _ _ => .ok .eq
  | sp :: spec => thenBy (directedOrdering ctx sp) (specOrdering ctx spec)

section

variable {β ι : Type} [BEq β] [LT β] [DecidableLT β] [LinearOrder ι]
  {get : QueryResult → Option β} {f : β → ι} {v w : QueryResult} {o : Ordering}

/-- Keys of a type are read by `get` and compared like the images under `f`. -/
structure KeyType (ty : QrType) (get : QueryResult → Option β) (f : β → ι) : Prop where
  typed : compareTyped ty = compareAs get
  node : ∀ p, get (.node p) = none
  beq : ∀ x y, (x == y) = true ↔ f x = f y
  lt : ∀ x y, x < y ↔ f x < f y

/-- The three results are those of the linear order. -/
theorem KeyType.compareAs_ok {ty : QrType} (h : KeyType ty get f) :
    (compareAs get v w).map (fun res => compare res 0) = .ok o ↔
      ∃ x y, (get v).map f = some x ∧ (get w).map f = some y ∧ o = compare x y := by
  have hres : ∀ x y : β, compare (threeWay x y) 0 = compare (f x) (f y) := by
    intro x y
    unfold threeWay
    by_cases heq : f x = f y
    · rw [if_pos ((h.beq x y).mpr heq), compare_eq_iff_eq.mpr heq]
      rfl
    · rw [if_neg fun hx => heq ((h.beq x y).mp hx)]
      by_cases hless : f x < f y
      · rw [if_pos ((h.lt x y).mpr hless), compare_lt_iff_lt.mpr hless]
        rfl
      · rw [if_neg fun hx => hless ((h.lt x y).mp hx),
          compare_gt_iff_gt.mpr (lt_of_le_of_ne (not_lt.mp hless) (Ne.symm heq))]
        rfl
  unfold compareAs
  cases hv : get v with
  | none => simp [Except.map]
  | some x =>
      cases hw : get w with
      | none => simp [Except.map]
      | some y => simp [Except.map, hres, eq_comm]

theorem compareAs_none (h : get w = none) {g : Int → Ordering} :
    (compareAs get v w).map g ≠ .ok o := by
  unfold compareAs
  rw [h]
  cases get v <;> exact fun h => by cases h

/-- Only with a property code does the kind of the value count. -/
theorem keyOf_of_not_node (hv : ∀ p, v ≠ .node p) : sp.keyOf ctx v = some (false, v) := by
  unfold SortSpec.keyOf
  split
  · cases v <;> first | rfl | exact absurd rfl (hv _)
  · rfl

theorem sortValues_of_not_node (hv : ∀ p, v ≠ .node p) : sortValues ctx sp v w = .ok (v, w) := by
  unfold sortValues
  split
  · cases v <;> first | rfl | exact absurd rfl (hv _)
  · rfl

theorem isNode_or (v : QueryResult) : (∃ p, v = .node p) ∨ ∀ p, v ≠ .node p := by
  cases v with
  | node p => exact .inl ⟨p, rfl⟩
  | _ => exact .inr fun p h => by cases h

theorem sortValues_map_ok {g : Int → Ordering} (hnode : ∀ p, get (.node p) = none) :
    (sortValues ctx sp v w >>= fun r => compareAs get r.1 r.2).map g = .ok o ↔
      ∃ k v' w', sp.keyOf ctx v = some (k, v') ∧ sp.keyOf ctx w = some (k, w') ∧
        (compareAs get v' w').map g = .ok o := by
  by_cases hp : sp.pcode > 0
  · rcases isNode_or v with ⟨p, rfl⟩ | hv
    · rcases isNode_or w with ⟨q, rfl⟩ | hw
      · simp only [sortValues, SortSpec.keyOf, hp, if_true]
        cases nodePropertyValue ctx p sp.pcode with
        | error e => simp [bind, Except.bind, Except.map, Except.toOption]
        | ok pv1 =>
            cases nodePropertyValue ctx q sp.pcode with
            | error e => simp [bind, Except.bind, Except.map, Except.toOption]
            | ok pv2 => simp [bind, Except.bind, Except.toOption]
      · -- `qv_get_node` of the second value throws, whatever the property is
        have herr : ∃ e, sortValues ctx sp (.node p) w = .error e := by
          simp only [sortValues, hp, if_true]
          cases nodePropertyValue ctx p sp.pcode with
          | error e => exact ⟨e, rfl⟩
          | ok pv1 =>
              cases w with
              | node q => exact absurd rfl (hw q)
              | _ => exact ⟨_, rfl⟩
        obtain ⟨e, he⟩ := herr
        have hkind : ∀ k v', sp.keyOf ctx (.node p) = some (k, v') → k = true := by
          intro k v' hk
          simp only [SortSpec.keyOf, hp, if_true] at hk
          cases hprop : nodePropertyValue ctx p sp.pcode with
          | error e => rw [hprop] at hk; cases hk
          | ok pv1 => rw [hprop] at hk; cases hk; rfl
        rw [he, keyOf_of_not_node hw]
        constructor
        · intro h
          cases h
        · rintro ⟨k, v', w', hv', hw', -⟩
          cases hkind k v' hv'
          cases hw'
    · rw [sortValues_of_not_node hv, keyOf_of_not_node hv]
      rcases isNode_or w with ⟨q, rfl⟩ | hw
      · constructor
        · intro h
          exact absurd h (compareAs_none (hnode q))
        · rintro ⟨k, v', w', hv', hw', -⟩
          cases hv'
          simp only [SortSpec.keyOf, hp, if_true] at hw'
          cases hprop : nodePropertyValue ctx q sp.pcode with
          | error e => rw [hprop] at hw'; cases hw'
          | ok pv2 => rw [hprop] at hw'; cases hw'
      · rw [keyOf_of_not_node hw]
        simp [bind, Except.bind]
  · simp [sortValues, SortSpec.keyOf, hp, bind, Except.bind]

/-- A key answers if the values are both properties or both not, and of the
type of the key. -/
theorem qrLess_map_ok {g : Int → Ordering} (hty : compareTyped sp.cmpType = compareAs get)
    (hnode : ∀ p, get (.node p) = none) :
    (qrLess ctx a b sp).map g = .ok o ↔ ∃ k v w, sp.key ctx a = some (k, v) ∧
      sp.key ctx b = some (k, w) ∧ (compareAs get v w).map g = .ok o := by
  unfold qrLess SortSpec.key
  cases a[sp.vidx]? with
  | none => simp [Except.map]
  | some v1 =>
      cases b[sp.vidx]? with
      | none => simp [Except.map]
      | some v2 =>
          simp only [Option.bind_some, hty]
          exact sortValues_map_ok hnode

theorem KeyType.keyOrdering_ok (h : KeyType sp.cmpType get f) :
    keyOrdering ctx sp a b = .ok o ↔ ∃ k v w x y, sp.key ctx a = some (k, v) ∧
      sp.key ctx b = some (k, w) ∧ (get v).map f = some x ∧ (get w).map f = some y ∧
      o = compare x y := by
  unfold keyOrdering
  rw [qrLess_map_ok h.typed h.node]
  constructor
  · rintro ⟨k, v, w, ha, hb, ho⟩
    obtain ⟨x, y, hx, hy, ho⟩ := h.compareAs_ok.mp ho
    exact ⟨k, v, w, x, y, ha, hb, hx, hy, ho⟩
  · rintro ⟨k, v, w, x, y, ha, hb, hx, hy, ho⟩
    exact ⟨k, v, w, ha, hb, h.compareAs_ok.mpr ⟨x, y, hx, hy, ho⟩⟩

/-- A key whose type has a linear order is a total preorder where it answers. -/
theorem KeyType.compares (h : KeyType sp.cmpType get f) : Compares (keyOrdering ctx sp) := by
  refine .of_keys (fun t => (sp.key ctx t).bind fun kv => ((get kv.2).map f).map (kv.1, ·))
    fun a b o => ?_
  rw [h.keyOrdering_ok]
  constructor
  · rintro ⟨k, v, w, x, y, ha, hb, hx, hy, ho⟩
    refine ⟨k, x, y, ?_, ?_, ho⟩
    · rw [ha, Option.bind_some, hx]
      rfl
    · rw [hb, Option.bind_some, hy]
      rfl
  · rintro ⟨k, x, y, ha, hb, ho⟩
    obtain ⟨⟨k1, v⟩, hkey1, hv⟩ := Option.bind_eq_some_iff.mp ha
    obtain ⟨⟨k2, w⟩, hkey2, hw⟩ := Option.bind_eq_some_iff.mp hb
    obtain ⟨x', hx', hx⟩ := Option.map_eq_some_iff.mp hv
    obtain ⟨y', hy', hy⟩ := Option.map_eq_some_iff.mp hw
    cases hx
    cases hy
    exact ⟨_, v, w, _, _, hkey1, hkey2, hx', hy', ho⟩

end

theorem keyType_int : KeyType .int QueryResult.int? Int32.toInt :=
  ⟨rfl, fun _ => rfl, fun x y => by rw [beq_iff_eq, Int32.toInt_inj],
    fun _ _ => Int32.lt_iff_toInt_lt⟩

theorem keyType_uint64 : KeyType .uint64 QueryResult.uint64? UInt64.toNat :=
  ⟨rfl, fun _ => rfl, fun x y => by rw [beq_iff_eq, UInt64.toNat_inj],
    fun _ _ => UInt64.lt_iff_toNat_lt⟩

theorem keyType_string : KeyType .string QueryResult.string? fun s => s :=
  ⟨rfl, fun _ => rfl, fun x y => by rw [beq_iff_eq], fun _ _ => Iff.rfl⟩

theorem SortSpec.Valid.compares (h : sp.Valid) (ctx : ExprCtx) :
    Compares (keyOrdering ctx sp) := by
  rcases h.2 with hty | hty | hty
  · exact KeyType.compares (hty ▸ keyType_int)
  · exact KeyType.compares (hty ▸ keyType_uint64)
  · exact KeyType.compares (hty ▸ keyType_string)

theorem SortSpec.Valid.directed (h : sp.Valid) (ctx : ExprCtx) :
    Compares (directedOrdering ctx sp) := by
  unfold directedOrdering
  split
  · exact (h.compares ctx).reversed
  · exact h.compares ctx

theorem specOrdering_compares (ctx : ExprCtx) {spec : List SortSpec}
    (h : ∀ sp ∈ spec, sp.Valid) : Compares (specOrdering ctx spec) := by
  induction spec with
  | nil =>
      constructor
      · intro a b o ho
        cases ho
        rfl
      · intro a b e o o' ho ho' _ _
        cases ho
        cases ho'
        rfl
  | cons sp spec ih =>
      exact ((h sp (List.mem_cons_self ..)).directed ctx).thenBy
        (ih fun sp' hsp => h sp' (List.mem_cons_of_mem _ hsp))

theorem directedOrdering_error {e : SortErr} (h : qrLess ctx a b sp = .error e) :
    directedOrdering ctx sp a b = .error e := by
  unfold directedOrdering reversed keyOrdering
  split
  all_goals
    simp only [h]
    rfl

theorem directedOrdering_ok {res : Int} (h : qrLess ctx a b sp = .ok res) :
    directedOrdering ctx sp a b =
      .ok (if sp.sOrder = .desc then (compare res 0).swap else compare res 0) := by
  unfold directedOrdering reversed keyOrdering
  split
  all_goals
    simp only [h]
    rfl

/-- `qr_compare` is the comparison by all keys. -/
theorem qrCompare_eq (ctx : ExprCtx) {spec : List SortSpec} (h : ∀ sp ∈ spec, sp.Valid)
    (a b : QrTuple) : qrCompare ctx a b spec = less (specOrdering ctx spec) a b := by
  induction spec with
  | nil => rfl
  | cons sp spec ih =>
      have hih := ih fun sp' hsp => h sp' (List.mem_cons_of_mem _ hsp)
      have hdir := (h sp (List.mem_cons_self ..)).1
      rw [qrCompare, hih, specOrdering]
      unfold less thenBy
      cases hres : qrLess ctx a b sp with
      | error e =>
          rw [directedOrdering_error hres]
          rfl
      | ok res =>
          rw [directedOrdering_ok hres]
          change (if _ then _ else _) = _
          rcases lt_trichotomy res 0 with hlt | rfl | hgt
          · rw [compare_lt_iff_lt.mpr hlt]
            rcases hdir with ho | ho
            · simp [ho, Except.map, hlt]
            · simp [ho, Except.map, hlt.le, hlt.ne]
          · rw [compare_eq_iff_eq.mpr rfl]
            rcases hdir with ho | ho <;> simp [ho]
          · rw [compare_gt_iff_gt.mpr hgt]
            rcases hdir with ho | ho
            · simp [ho, Except.map, hgt.le, hgt.ne']
            · simp [ho, Except.map, hgt]

end Poseidon
