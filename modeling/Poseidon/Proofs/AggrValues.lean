import Poseidon.Lib.Results
import Poseidon.Query.Aggregates

/-!
# Aggregate values

What holds of a single aggregate expression: the value that is kept for it
has the type that its expression asks for, so an update fails only where the
expression cannot be read, and the output never does. The values of several
expressions are updated side by side.
-/

namespace Poseidon

open Results

namespace AggrExpr

/-- The value that is kept for an expression. -/
def Kept (ex : AggrExpr) (val : AggrVal) : Prop :=
  match ex.func, ex.aggrType with
  | .count, _ => ∃ i, val = .int i
  | .avg, _ => ∃ sum cnt, val = .sumCnt sum cnt
  | _, .int => ∃ i, val = .int i
  | _, .double => ∃ d, val = .double d
  | .sum, _ => True
  | _, .string => ∃ s, val = .str s
  | _, .uint64 => ∃ n, val = .uint64 n
  | _, _ => True

/-- The expression has a value on the tuple. -/
def Readable (ctx : QueryCtx) (ex : AggrExpr) (v : QrTuple) : Prop :=
  match ex.func, ex.aggrType with
  | .count, _ => True
  | .avg, _ => ∃ d, getDoubleValue ctx v ex.var ex.pkey = .ok d
  | _, .int => ∃ i, getIntValue ctx v ex.var ex.pkey = .ok i
  | _, .double => ∃ d, getDoubleValue ctx v ex.var ex.pkey = .ok d
  | _, .string => ∃ s, getStringValue ctx v ex.var ex.pkey = .ok s
  | _, .uint64 => ∃ n, getUint64Value ctx v ex.var ex.pkey = .ok n
  | _, _ => True

variable {ctx : QueryCtx} {ex : AggrExpr} {v : QrTuple} {val : AggrVal}

theorem combine_ok {β : Type} {get : AggrVal → Except QopErr β} {put : β → AggrVal}
    {value : QrTuple → Nat → Nat → Except QopErr β} {op : β → β → β} {a b : β}
    (hget : get val = .ok a) (hvalue : value v ex.var ex.pkey = .ok b) :
    combine get put value op ex v val = .ok (put (op a b)) := by
  rw [combine, hget, ok_bind, hvalue, ok_bind]

/-- An update succeeds on a value of the right type, and keeps the type. -/
theorem update_ok (hkept : Kept ex val) (hread : Readable ctx ex v) :
    ∃ val', update ctx ex v val = .ok val' ∧ Kept ex val' := by
  obtain ⟨func, var, property, pkey, ty⟩ := ex
  cases func with
  | count =>
      obtain ⟨i, rfl⟩ := hkept
      exact ⟨_, rfl, _, rfl⟩
  | avg =>
      obtain ⟨sum, cnt, rfl⟩ := hkept
      obtain ⟨d, hd⟩ := hread
      refine ⟨.sumCnt (sum + d) (cnt + 1), ?_, _, _, rfl⟩
      simp only [update, AggrVal.getSumCnt, ok_bind, hd]
  | sum =>
      cases ty
      case int =>
        obtain ⟨a, rfl⟩ := hkept
        obtain ⟨b, hb⟩ := hread
        exact ⟨_, combine_ok rfl hb, _, rfl⟩
      case double =>
        obtain ⟨a, rfl⟩ := hkept
        obtain ⟨b, hb⟩ := hread
        exact ⟨_, combine_ok rfl hb, _, rfl⟩
      all_goals exact ⟨val, rfl, trivial⟩
  | min | max =>
      cases ty
      case int | double | string | uint64 =>
        obtain ⟨a, rfl⟩ := hkept
        obtain ⟨b, hb⟩ := hread
        exact ⟨_, combine_ok rfl hb, _, rfl⟩
      all_goals exact ⟨val, rfl, trivial⟩

theorem output_ok (hkept : Kept ex val) : ∃ q, output ex val = .ok q := by
  obtain ⟨func, var, property, pkey, ty⟩ := ex
  cases func with
  | count =>
      obtain ⟨i, rfl⟩ := hkept
      exact ⟨_, rfl⟩
  | avg =>
      obtain ⟨sum, cnt, rfl⟩ := hkept
      exact ⟨_, rfl⟩
  | sum =>
      cases ty
      case int | double =>
        obtain ⟨a, rfl⟩ := hkept
        exact ⟨_, rfl⟩
      all_goals exact ⟨_, rfl⟩
  | min | max =>
      cases ty
      case int | double | string | uint64 =>
        obtain ⟨a, rfl⟩ := hkept
        exact ⟨_, rfl⟩
      all_goals exact ⟨_, rfl⟩

theorem kept_min : (ex.func = .min) → Kept ex ex.initMin := by
  obtain ⟨func, var, property, pkey, ty⟩ := ex
  rintro ⟨⟩
  cases ty
  case int | double | string | uint64 => exact ⟨_, rfl⟩
  all_goals trivial

theorem kept_max : (ex.func = .max) → Kept ex ex.initMax := by
  obtain ⟨func, var, property, pkey, ty⟩ := ex
  rintro ⟨⟩
  cases ty
  case int | double | string | uint64 => exact ⟨_, rfl⟩
  all_goals trivial

theorem kept_groupBy (ex : AggrExpr) : Kept ex (GroupBy.initVal ex) := by
  obtain ⟨func, var, property, pkey, ty⟩ := ex
  cases func with
  | count => exact ⟨_, rfl⟩
  | avg => exact ⟨_, _, rfl⟩
  | sum =>
      cases ty
      case int | double => exact ⟨_, rfl⟩
      all_goals trivial
  | min => exact kept_min rfl
  | max => exact kept_max rfl

/-! ## Several expressions -/

/-- Every value has the type of its expression. -/
def AllKept (exprs : List AggrExpr) (vals : List AggrVal) : Prop :=
  List.Forall₂ Kept exprs vals

theorem allKept_map {init : AggrExpr → AggrVal} (h : ∀ ex, Kept ex (init ex))
    (exprs : List AggrExpr) : AllKept exprs (exprs.map init) := by
  induction exprs with
  | nil => exact .nil
  | cons ex exprs ih => exact .cons (h ex) ih

theorem updateAggregates_ok {exprs : List AggrExpr} {vals : List AggrVal}
    (hkept : AllKept exprs vals) (hread : ∀ ex ∈ exprs, Readable ctx ex v) :
    ∃ vals', GroupBy.updateAggregates ctx exprs vals v = .ok vals' ∧ AllKept exprs vals' := by
  induction hkept with
  | nil => exact ⟨[], rfl, .nil⟩
  | @cons ex val exprs vals hk _ ih =>
      obtain ⟨val', hval, hk'⟩ := update_ok hk (hread ex (List.mem_cons_self ..))
      obtain ⟨vals', hvals, hks⟩ := ih fun e he => hread e (List.mem_cons_of_mem _ he)
      refine ⟨val' :: vals', ?_, .cons hk' hks⟩
      rw [GroupBy.updateAggregates] at hvals ⊢
      rw [List.zip_cons_cons, List.mapM_cons, hval, hvals]
      rfl

/-- The expressions are folded side by side. -/
theorem fold_cons {exprs : List AggrExpr} {vals bs : List AggrVal} {a : AggrVal}
    {vs : List QrTuple} (h : vs.foldlM (fun val v => ex.update ctx v val) val = .ok a)
    (hs : vs.foldlM (GroupBy.updateAggregates ctx exprs) vals = .ok bs) :
    vs.foldlM (GroupBy.updateAggregates ctx (ex :: exprs)) (val :: vals) = .ok (a :: bs) := by
  induction vs generalizing val vals with
  | nil =>
      cases h
      cases hs
      rfl
  | cons v vs ih =>
      rw [List.foldlM_cons] at h hs ⊢
      obtain ⟨val', hval, h⟩ := bind_eq_ok h
      obtain ⟨vals', hvals, hs⟩ := bind_eq_ok hs
      have hstep : GroupBy.updateAggregates ctx (ex :: exprs) (val :: vals) v =
          .ok (val' :: vals') := by
        rw [GroupBy.updateAggregates] at hvals ⊢
        rw [List.zip_cons_cons, List.mapM_cons, hval, hvals]
        rfl
      rw [hstep, ok_bind]
      exact ih h hs

/-- What an expression gives for a list of tuples. -/
def result (ctx : QueryCtx) (init : AggrExpr → AggrVal) (vs : List QrTuple) (ex : AggrExpr) :
    Except QopErr (Option QueryResult) :=
  vs.foldlM (fun val v => ex.update ctx v val) (init ex) >>= ex.output

theorem result_ok {init : AggrExpr → AggrVal} {vs : List QrTuple} (hinit : Kept ex (init ex))
    (hread : ∀ v ∈ vs, Readable ctx ex v) : ∃ q, result ctx init vs ex = .ok q := by
  suffices h : ∀ val, Kept ex val →
      ∃ val', vs.foldlM (fun val v => ex.update ctx v val) val = .ok val' ∧ Kept ex val' by
    obtain ⟨val, hval, hkept⟩ := h _ hinit
    obtain ⟨q, hq⟩ := output_ok hkept
    exact ⟨q, by rw [result, hval, ok_bind, hq]⟩
  induction vs with
  | nil => exact fun val hval => ⟨val, rfl, hval⟩
  | cons v vs ih =>
      intro val hval
      obtain ⟨val', hupd, hval'⟩ := update_ok hval (hread v (List.mem_cons_self ..))
      obtain ⟨val'', hfold, hval''⟩ := ih (fun w hw => hread w (List.mem_cons_of_mem _ hw)) _ hval'
      exact ⟨val'', by rw [List.foldlM_cons, hupd, ok_bind, hfold], hval''⟩

/-- Whether `finish` writes a value for an expression. -/
def emits (ex : AggrExpr) : Bool :=
  match ex.func, ex.aggrType with
  | .count, _ | .avg, _ | _, .int | _, .double => true
  | .min, .string | .max, .string | .min, .uint64 | .max, .uint64 => true
  | _, _ => false

theorem isSome_output {q : Option QueryResult} (h : output ex val = .ok q) :
    q.isSome = ex.emits := by
  obtain ⟨func, var, property, pkey, ty⟩ := ex
  cases func with
  | count =>
      obtain ⟨_, -, rfl⟩ := map_eq_ok h
      rfl
  | avg =>
      obtain ⟨_, -, rfl⟩ := map_eq_ok h
      rfl
  | sum =>
      cases ty
      case int | double =>
        obtain ⟨_, -, rfl⟩ := map_eq_ok h
        rfl
      all_goals
        cases h
        rfl
  | min | max =>
      cases ty
      case int | double | string | uint64 =>
        obtain ⟨_, -, rfl⟩ := map_eq_ok h
        rfl
      all_goals
        cases h
        rfl

theorem isSome_result {init : AggrExpr → AggrVal} {vs : List QrTuple} {q : Option QueryResult}
    (h : result ctx init vs ex = .ok q) : q.isSome = ex.emits := by
  obtain ⟨val, -, hq⟩ := bind_eq_ok h
  exact isSome_output hq

/-- Together the expressions give what each of them gives. -/
theorem results_ok {init : AggrExpr → AggrVal} {exprs : List AggrExpr} {vs : List QrTuple}
    {r : AggrExpr → Option QueryResult}
    (h : ∀ ex ∈ exprs, result ctx init vs ex = .ok (r ex)) :
    ∃ vals, vs.foldlM (GroupBy.updateAggregates ctx exprs) (exprs.map init) = .ok vals ∧
      (exprs.zip vals).mapM (fun e => e.1.output e.2) = .ok (exprs.map r) := by
  induction exprs with
  | nil =>
      refine ⟨[], ?_, rfl⟩
      clear h
      induction vs with
      | nil => rfl
      | cons v vs ih => exact ih
  | cons ex exprs ih =>
      obtain ⟨vals, hvals, hout⟩ := ih fun e he => h e (List.mem_cons_of_mem _ he)
      obtain ⟨val, hval, hq⟩ := bind_eq_ok (h ex (List.mem_cons_self ..))
      refine ⟨val :: vals, fold_cons hval hvals, ?_⟩
      rw [List.zip_cons_cons, List.mapM_cons, hq, hout]
      rfl

end AggrExpr

end Poseidon
