import Poseidon.Proofs.SortKeys

/-!
# What an order_by emits

A run constructs operators, passes tuples to them and finishes them, in any
order and over any number of plans. Whatever criterion an operator was
constructed with, it sorts by the last comparison function of the run, and if
there is none by the last specification. What it emits is sorted by its own
criterion if, for every two of its tuples, the one criterion does not undo what
the other one asks.
-/

namespace Poseidon

open StableSort

/-- The element that a key refers to, or its property. -/
def SortSpec.column (ctx : ExprCtx) (sp : SortSpec) (tup : QrTuple) : Option QueryResult :=
  match tup[sp.vidx]? with
  | some (.node p) =>
      if sp.pcode = 0 then some (.node p)
      else (nodePropertyValue ctx p sp.pcode).toOption.bind (pitemValue ctx)
  | v => v

/-- The order of integers and of strings. -/
def columnCompare : Option QueryResult → Option QueryResult → Ordering
  | some (.int i), some (.int j) => compare i.toInt j.toInt
  | some (.uint64 m), some (.uint64 n) => compare m.toNat n.toNat
  | some (.str s), some (.str t) => compare s t
  | _, _ => .eq

/-- The lexicographic order of a specification. -/
def lexCompare (ctx : ExprCtx) : List SortSpec → QrTuple → QrTuple → Ordering
  | [], _, _ => .eq
  | sp :: spec, a, b =>
      let o := columnCompare (sp.column ctx a) (sp.column ctx b)
      (if sp.sOrder = .desc then o.swap else o).then (lexCompare ctx spec a b)

namespace Criterion

/-- The order that a criterion asks for. -/
def order (ctx : ExprCtx) : Criterion → QrTuple → QrTuple → Bool
  | .spec s, a, b => lexCompare ctx s a b == .lt
  | .func f, a, b => f a b

/-- The comparison of the code. -/
def compare (ctx : ExprCtx) : Criterion → QrTuple → QrTuple → Except SortErr Bool
  | .spec s, a, b => qrCompare ctx a b s
  | .func f, a, b => .ok (f a b)

def Valid : Criterion → Prop
  | .spec s => ∀ sp ∈ s, sp.Valid
  | .func f => StrictWeak f

def func? : Criterion → Option (QrTuple → QrTuple → Bool)
  | .func f => some f
  | .spec _ => none

def spec? : Criterion → Option (List SortSpec)
  | .spec s => some s
  | .func _ => none

/-- The criterion that is in use after operators have been constructed with
the given ones. -/
def active (cs : List Criterion) : Criterion :=
  match cs.reverse.findSome? func? with
  | some f => .func f
  | none => .spec ((cs.reverse.findSome? spec?).getD [])

end Criterion

/-- The runs: the criteria of the operators, and the tuples they have received. -/
inductive OrderBys.Run : OrderBys → List Criterion → List (List QrTuple) → Prop where
  | initial : Run .initial [] []
  | construct {st cs recv} (c : Criterion) :
      Run st cs recv → c.Valid → Run (st.construct c) (cs ++ [c]) (recv ++ [[]])
  | process {st cs recv} (i : Nat) (v : QrTuple) :
      Run st cs recv → Run (st.process i v) cs (recv.modify i (· ++ [v]))
  | finish {st st' cs recv out} (ctx : ExprCtx) (i : Nat) :
      Run st cs recv → st.finish ctx i = .ok (out, st') → Run st' cs recv
  | throws {st cs recv e} (ctx : ExprCtx) (i : Nat) (data : List QrTuple) :
      Run st cs recv → st.finish ctx i = .error e → data.Perm (st.results.getD i []) →
        Run { st with results := st.results.set i data } cs recv

variable {st : OrderBys} {cs : List Criterion} {recv : List (List QrTuple)}

/-- The comparison of a criterion as one that says how two tuples are ordered. -/
def Criterion.ordering (ctx : ExprCtx) : Criterion → QrTuple → QrTuple →
    Except SortErr Ordering
  | .spec s => specOrdering ctx s
  | .func f => byFunction f

theorem Criterion.Valid.compares {c : Criterion} (h : c.Valid) (ctx : ExprCtx) :
    Compares (c.ordering ctx) := by
  cases c with
  | spec s => exact specOrdering_compares ctx h
  | func f => exact .byFunction h

theorem Criterion.Valid.compare_eq {c : Criterion} (h : c.Valid) (ctx : ExprCtx) :
    c.compare ctx = less (c.ordering ctx) := by
  funext a b
  cases c with
  | spec s => exact qrCompare_eq ctx h a b
  | func f =>
      simp only [compare, less, ordering, byFunction, Except.map]
      cases f a b <;> cases f b a <;> rfl

/-- What a run keeps. -/
structure OrderBys.Keeps (st : OrderBys) (cs : List Criterion) (recv : List (List QrTuple)) :
    Prop where
  valid : ∀ c ∈ cs, c.Valid
  func : st.cmpFunc = cs.reverse.findSome? Criterion.func?
  spec : st.sortSpec = (cs.reverse.findSome? Criterion.spec?).getD []
  length : st.results.length = recv.length
  perm : ∀ i, (st.results.getD i []).Perm (recv.getD i [])

/-- The lists of the other operators are left alone. -/
theorem OrderBys.Keeps.set {i : Nat} {data : List QrTuple} (h : st.Keeps cs recv)
    (hp : data.Perm (st.results.getD i [])) :
    OrderBys.Keeps { st with results := st.results.set i data } cs recv := by
  refine ⟨h.valid, h.func, h.spec, (List.length_set ..).trans h.length, fun j => ?_⟩
  rw [List.getD_eq_getElem?_getD, List.getElem?_set]
  split
  · rename_i hij
    subst hij
    split
    · exact hp.trans (h.perm i)
    · rename_i hlt
      have hnone := h.perm i
      rwa [List.getD_eq_getElem?_getD, List.getElem?_eq_none (Nat.not_lt.mp hlt)] at hnone
  · rw [← List.getD_eq_getElem?_getD]
    exact h.perm j

theorem OrderBys.finish_ok {st' : OrderBys} {ctx : ExprCtx} {i : Nat} {out : List QrTuple}
    (h : st.finish ctx i = .ok (out, st')) : st.sort ctx (st.results.getD i []) = .ok out ∧
      st' = { st with results := st.results.set i out } := by
  unfold finish at h
  cases hs : st.sort ctx (st.results.getD i []) with
  | error e => rw [hs] at h; cases h
  | ok data =>
      rw [hs] at h
      cases h
      exact ⟨rfl, rfl⟩

theorem OrderBys.Keeps.sort_eq (h : st.Keeps cs recv) (ctx : ExprCtx) (data : List QrTuple) :
    st.sort ctx data = sortM ((Criterion.active cs).compare ctx) data := by
  unfold OrderBys.sort Criterion.active
  rw [h.func, h.spec]
  cases cs.reverse.findSome? Criterion.func? <;> rfl

theorem OrderBys.Keeps.active_valid (h : st.Keeps cs recv) : (Criterion.active cs).Valid := by
  unfold Criterion.active
  cases hf : cs.reverse.findSome? Criterion.func? with
  | some f =>
      obtain ⟨c, hc, hcf⟩ := List.exists_of_findSome?_eq_some hf
      have hvalid := h.valid c (List.mem_reverse.mp hc)
      cases c with
      | func g => cases hcf; exact hvalid
      | spec s => cases hcf
  | none =>
      cases hs : cs.reverse.findSome? Criterion.spec? with
      | none => intro sp hsp; cases hsp
      | some s =>
          obtain ⟨c, hc, hcs⟩ := List.exists_of_findSome?_eq_some hs
          have hvalid := h.valid c (List.mem_reverse.mp hc)
          cases c with
          | spec s' => cases hcs; exact hvalid
          | func g => cases hcs

theorem sortM_perm_of_ok {c : QrTuple → QrTuple → Except SortErr Ordering} (h : Compares c)
    {l r : List QrTuple} (hr : sortM (less c) l = .ok r) : r.Perm l := by
  cases (sortM_of_comparable h (comparable_of_sortM h r hr)).symm.trans hr
  exact sortBy_perm _ l

theorem OrderBys.Run.keeps (h : OrderBys.Run st cs recv) : st.Keeps cs recv := by
  induction h with
  | initial =>
      exact ⟨fun c hc => (List.not_mem_nil hc).elim, rfl, rfl, rfl, fun i => .refl _⟩
  | @construct st cs recv c _ hc ih =>
      have hpad : ∀ {l : List (List QrTuple)} {i : Nat}, (l ++ [[]]).getD i [] = l.getD i [] := by
        intro l i
        simp only [List.getD_eq_getElem?_getD, List.getElem?_append]
        split
        · rfl
        · rename_i hlt
          rw [List.getElem?_eq_none (Nat.not_lt.mp hlt)]
          cases i - l.length <;> rfl
      have hvalid : ∀ c' ∈ cs ++ [c], c'.Valid := by
        intro c' hc'
        rcases List.mem_append.mp hc' with hc' | hc'
        · exact ih.valid c' hc'
        · rw [List.mem_singleton.mp hc']
          exact hc
      refine ⟨hvalid, ?_, ?_, ?_, fun i => ?_⟩
      · rw [List.reverse_append]
        cases c with
        | spec s => exact ih.func
        | func f => rfl
      · rw [List.reverse_append]
        cases c with
        | spec s => rfl
        | func f => exact ih.spec
      · rw [List.length_append, ← ih.length]
        cases c <;> exact List.length_append
      · rw [hpad]
        cases c
        all_goals
          refine .trans (.of_eq ?_) (ih.perm i)
          exact hpad
  | @process st cs recv i v _ ih =>
      refine ⟨ih.valid, ih.func, ih.spec, ?_, fun j => ?_⟩
      · simp only [OrderBys.process, List.length_modify, ih.length]
      · have hj := ih.perm j
        have hlen := ih.length
        simp only [OrderBys.process, List.getD_eq_getElem?_getD, List.getElem?_modify] at hj ⊢
        by_cases hlt : j < recv.length
        · rw [List.getElem?_eq_getElem hlt, List.getElem?_eq_getElem (hlen ▸ hlt)] at hj ⊢
          by_cases hij : i = j
          · simp only [hij, if_true]
            exact hj.append_right [v]
          · simp only [hij, if_false]
            exact hj
        · rw [List.getElem?_eq_none (Nat.not_lt.mp hlt),
            List.getElem?_eq_none (hlen ▸ Nat.not_lt.mp hlt)]
  | @finish st st' cs recv out ctx i _ hf ih =>
      obtain ⟨hs, rfl⟩ := finish_ok hf
      rw [ih.sort_eq, ih.active_valid.compare_eq] at hs
      exact ih.set (sortM_perm_of_ok (ih.active_valid.compares ctx) hs)
  | throws ctx i data _ _ hp ih => exact ih.set hp

theorem OrderBys.Keeps.finish_sorts_iff {i : Nat} {own : QrTuple → QrTuple → Bool}
    {ts : List QrTuple} (h : st.Keeps cs recv) (hts : recv[i]? = some ts) (ctx : ExprCtx) :
    (∃ out st', st.finish ctx i = .ok (out, st') ∧ out.Perm ts ∧ SortedBy own out) ↔
      (st.results.getD i []).Pairwise fun a b =>
        ∃ r, (Criterion.active cs).compare ctx b a = .ok r ∧
          (own b a = true → r = true) ∧ (own a b = true → r = false) := by
  have hc := h.active_valid.compares ctx
  have hperm : (st.results.getD i []).Perm ts := by
    have hi := h.perm i
    rwa [List.getD_eq_getElem?_getD (l := recv), hts] at hi
  have hsort := h.sort_eq ctx (st.results.getD i [])
  rw [h.active_valid.compare_eq] at hsort ⊢
  have hpair : ∀ a b, (∃ r, less ((Criterion.active cs).ordering ctx) b a = .ok r ∧
      (own b a = true → r = true) ∧ (own a b = true → r = false)) ↔
      Comparable ((Criterion.active cs).ordering ctx) a b ∧
        (own b a = true → isLess ((Criterion.active cs).ordering ctx) b a = true) ∧
        (own a b = true → isLess ((Criterion.active cs).ordering ctx) b a = false) := by
    intro a b
    constructor
    · rintro ⟨r, hr, hback, hforth⟩
      obtain ⟨hba, rfl⟩ := comparable_of_less hr
      exact ⟨hc.symm.symm _ _ hba, hback, hforth⟩
    · rintro ⟨hab, hback, hforth⟩
      exact ⟨_, less_of_comparable (hc.symm.symm _ _ hab), hback, hforth⟩
  simp only [hpair]
  rw [← hc.sortM_sorted_iff]
  constructor
  · rintro ⟨out, st', hf, hout, hsorted⟩
    obtain ⟨hs, -⟩ := OrderBys.finish_ok hf
    exact ⟨out, hsort.symm.trans hs, hout.trans hperm.symm, hsorted⟩
  · rintro ⟨out, hs, hout, hsorted⟩
    refine ⟨out, { st with results := st.results.set i out }, ?_, hout.trans hperm, hsorted⟩
    unfold OrderBys.finish
    rw [hsort, hs]
    rfl

/-! ## The criterion of another operator -/

/-- A `finish` passes on the tuples in the order of its own criterion if no
comparison of two of them throws, and the criterion in use changes the places
of two tuples that are in the wrong order and of none that are in the right
order. -/
theorem order_by_sorts_iff {i : Nat} {own : Criterion} {ts : List QrTuple}
    (hrun : OrderBys.Run st cs recv) (_hown : cs[i]? = some own) (hts : recv[i]? = some ts)
    (ctx : ExprCtx) :
    (∃ out st', st.finish ctx i = .ok (out, st') ∧ out.Perm ts ∧
        SortedBy (own.order ctx) out) ↔
      (st.results.getD i []).Pairwise fun a b =>
        ∃ r, (Criterion.active cs).compare ctx b a = .ok r ∧
          (own.order ctx b a = true → r = true) ∧ (own.order ctx a b = true → r = false) :=
  hrun.keeps.finish_sorts_iff hts ctx

/-- A database without properties. -/
def noPropertiesCtx : ExprCtx := ⟨.empty, .empty, fun _ => 0, fun _ => 0, fun _ => ""⟩

def ascendingFirst : SortSpec := ⟨.asc, 0, 0, .int⟩

def descendingSecond : SortSpec := ⟨.desc, 1, 0, .string⟩

/-- The specification of the second operator goes on where that of the first
one ends. -/
theorem order_by_sorts_iff_refined :
    ∃ out st', (((OrderBys.initial.construct (.spec [ascendingFirst])).construct
        (.spec [ascendingFirst, descendingSecond])).process 0 [.int 2, .str "b"]
      |>.process 0 [.int 1, .str "a"]).finish noPropertiesCtx 0 = .ok (out, st') ∧
      out.Perm [[.int 2, .str "b"], [.int 1, .str "a"]] ∧
      SortedBy ((Criterion.spec [ascendingFirst]).order noPropertiesCtx) out := by
  have hfirst : ascendingFirst.Valid := ⟨.inl rfl, .inl rfl⟩
  have hsecond : descendingSecond.Valid := ⟨.inr rfl, .inr (.inr rfl)⟩
  refine (order_by_sorts_iff (.process 0 _ (.process 0 _ (.construct (.spec _)
    (.construct (.spec _) .initial ?_) ?_))) rfl rfl noPropertiesCtx).mpr ?_
  · intro sp hsp
    rw [List.mem_singleton.mp hsp]
    exact hfirst
  · intro sp hsp
    rcases List.mem_cons.mp hsp with rfl | hsp
    · exact hfirst
    · rw [List.mem_singleton.mp hsp]
      exact hsecond
  · exact List.pairwise_pair.mpr ⟨true, rfl, fun _ => rfl, fun h => by cases h⟩

/-- Two operators of one plan, the second of them in descending order. -/
def descendingAfterAscending : OrderBys :=
  (((OrderBys.initial.construct (.spec [ascendingFirst])).construct
    (.spec [⟨.desc, 0, 0, .int⟩])).process 0 [.int 1]).process 0 [.int 2]

theorem second_order_by_reverses_first :
    OrderBys.Run descendingAfterAscending
      [.spec [ascendingFirst], .spec [⟨.desc, 0, 0, .int⟩]] [[[.int 1], [.int 2]], []] ∧
    ¬∃ out st', descendingAfterAscending.finish noPropertiesCtx 0 = .ok (out, st') ∧
      out.Perm [[.int 1], [.int 2]] ∧
      SortedBy ((Criterion.spec [ascendingFirst]).order noPropertiesCtx) out := by
  have hrun : OrderBys.Run descendingAfterAscending
      [.spec [ascendingFirst], .spec [⟨.desc, 0, 0, .int⟩]] [[[.int 1], [.int 2]], []] := by
    refine .process 0 _ (.process 0 _ (.construct (.spec _)
      (.construct (.spec _) .initial ?_) ?_))
    all_goals
      intro sp hsp
      rw [List.mem_singleton.mp hsp]
    · exact ⟨.inl rfl, .inl rfl⟩
    · exact ⟨.inr rfl, .inl rfl⟩
  refine ⟨hrun, fun h => ?_⟩
  have hpair := List.pairwise_pair.mp ((hrun.keeps.finish_sorts_iff rfl noPropertiesCtx).mp h)
  obtain ⟨r, hr, -, hkeep⟩ := hpair
  have hr' : r = true := by
    cases hr
    rfl
  rw [hkeep (by decide)] at hr'
  cases hr'

end Poseidon
