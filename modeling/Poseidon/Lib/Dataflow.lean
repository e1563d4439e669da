import Mathlib.Data.List.Perm.Basic

/-!
# Push-based dataflow

A plan is a tree: its leaves produce tuples, its inner nodes are operators with
a state. A leaf is run as a whole. Each tuple that it produces is pushed through
the operators above it, and after the last one the end of the input is announced
on the same way up. An operator with two inputs takes the end of its first input
and passes on that of the second.

The leaves are run one after the other, in some order. What the plan delivers
then depends on the order: a join that stores its right input has to be given
all of it before the first tuple of the left one. `Ordered` says when an order
is right in this sense, and `delivers` that the plan then delivers what its
operators make of whole lists. The end is announced once in every order.
-/

namespace Dataflow

/-! ## Handing on -/

/-- What a computation hands on, and how it ends. -/
structure Emit (ε τ α : Type) where
  out : List τ
  ended : Except ε α

namespace Emit

variable {ε τ α β γ : Type}

/-- The second computation hands on after the first one, unless that failed. -/
def bind (x : Emit ε τ α) (f : α → Emit ε τ β) : Emit ε τ β :=
  match x.ended with
  | .error e => ⟨x.out, .error e⟩
  | .ok a => ⟨x.out ++ (f a).out, (f a).ended⟩

instance : Monad (Emit ε τ) where
  pure a := ⟨[], .ok a⟩
  bind := bind

/-- Hand on some tuples. -/
def tell (vs : List τ) : Emit ε τ Unit := ⟨vs, .ok ()⟩

/-- Hand on nothing. -/
def ofExcept (x : Except ε α) : Emit ε τ α := ⟨[], x⟩

theorem pure_eq (a : α) : (pure a : Emit ε τ α) = ⟨[], .ok a⟩ := rfl

theorem ok_bind (vs : List τ) (a : α) (f : α → Emit ε τ β) :
    (⟨vs, .ok a⟩ >>= f) = ⟨vs ++ (f a).out, (f a).ended⟩ := rfl

theorem error_bind (vs : List τ) (e : ε) (f : α → Emit ε τ β) :
    ((⟨vs, .error e⟩ : Emit ε τ α) >>= f) = ⟨vs, .error e⟩ := rfl

@[simp] theorem pure_bind (a : α) (f : α → Emit ε τ β) : ((pure a : Emit ε τ α) >>= f) = f a := rfl

@[simp] theorem bind_pure (x : Emit ε τ α) : (x >>= pure) = x := by
  rcases x with ⟨vs, r⟩
  cases r with
  | error e => rfl
  | ok a => rw [ok_bind, pure_eq, List.append_nil]

theorem bind_assoc (x : Emit ε τ α) (f : α → Emit ε τ β) (g : β → Emit ε τ γ) :
    (x >>= f >>= g) = (x >>= fun a => f a >>= g) := by
  rcases x with ⟨vs, r⟩
  cases r with
  | error e => rfl
  | ok a =>
      rw [ok_bind, ok_bind]
      rcases f a with ⟨ws, r⟩
      cases r with
      | error e => rfl
      | ok b => rw [ok_bind, ok_bind, List.append_assoc]

/-- A sequence that does not fail. -/
theorem bind_eq_ok {x : Emit ε τ α} {f : α → Emit ε τ β} {vs : List τ} {b : β} :
    (x >>= f) = ⟨vs, .ok b⟩ ↔
      ∃ us a ws, x = ⟨us, .ok a⟩ ∧ f a = ⟨ws, .ok b⟩ ∧ vs = us ++ ws := by
  rcases x with ⟨us, r⟩
  cases r with
  | error e =>
      rw [error_bind]
      constructor
      · intro h
        cases h
      · rintro ⟨_, _, _, h, _⟩
        cases h
  | ok a =>
      rw [ok_bind]
      constructor
      · intro h
        refine ⟨us, a, (f a).out, rfl, ?_, (congrArg out h).symm⟩
        have hended := congrArg ended h
        rcases hf : f a with ⟨ws, r⟩
        rw [hf] at hended
        exact congrArg (Emit.mk ws) hended
      · rintro ⟨_, _, ws, h, hf, rfl⟩
        cases h
        rw [hf]

instance : LawfulMonad (Emit ε τ) :=
  .mk' _ (fun x => bind_pure x) (fun _ _ => rfl) (fun x f g => bind_assoc x f g)

theorem eq_mk {x : Emit ε τ α} {r : Except ε α} (h : x.ended = r) : x = ⟨x.out, r⟩ := by
  rw [← h]

theorem ofExcept_eq_ok {x : Except ε α} {vs : List τ} {a : α} :
    (ofExcept x : Emit ε τ α) = ⟨vs, .ok a⟩ ↔ x = .ok a ∧ vs = [] := by
  rw [ofExcept, mk.injEq]
  exact ⟨fun h => ⟨h.2, h.1.symm⟩, fun h => ⟨h.2.symm, h.1⟩⟩

/-- A tuple is handed on by the first computation, or by what it is followed by. -/
theorem mem_bind {x : Emit ε τ α} {f : α → Emit ε τ β} {v : τ} (h : v ∈ (x >>= f).out) :
    v ∈ x.out ∨ ∃ a, x.ended = .ok a ∧ v ∈ (f a).out := by
  rcases x with ⟨us, r⟩
  cases r with
  | error e => exact .inl h
  | ok a =>
      rw [ok_bind] at h
      exact (List.mem_append.mp h).imp_right fun h => ⟨a, rfl, h⟩

theorem mem_forM {f : α → Emit ε τ Unit} {as : List α} {v : τ} (h : v ∈ (as.forM f).out) :
    ∃ a ∈ as, v ∈ (f a).out := by
  induction as with
  | nil => cases h
  | cons a as ih =>
      obtain h | ⟨-, -, h⟩ := mem_bind h
      · exact ⟨a, List.mem_cons_self .., h⟩
      · obtain ⟨a', ha, hv⟩ := ih h
        exact ⟨a', List.mem_cons_of_mem a ha, hv⟩

end Emit

section

variable {ε τ υ σ : Type}

/-- A list of tuples, one after the other. -/
def feed (f : σ → τ → Emit ε υ σ) : σ → List τ → Emit ε υ σ
  | s, [] => pure s
  | s, v :: vs => do
      let s ← f s v
      feed f s vs

theorem feed_nil (f : σ → τ → Emit ε υ σ) (s : σ) : feed f s [] = pure s := rfl

theorem feed_cons (f : σ → τ → Emit ε υ σ) (s : σ) (v : τ) (vs : List τ) :
    feed f s (v :: vs) = f s v >>= fun s => feed f s vs := rfl

theorem feed_append (f : σ → τ → Emit ε υ σ) (s : σ) (vs ws : List τ) :
    feed f s (vs ++ ws) = feed f s vs >>= fun s => feed f s ws := by
  induction vs generalizing s with
  | nil => rfl
  | cons v vs ih =>
      rw [List.cons_append, feed_cons, feed_cons, Emit.bind_assoc]
      exact congrArg _ (funext fun s => ih s)

/-- A part that is followed by another one. -/
theorem feed_append_ok {f : σ → τ → Emit ε υ σ} {s s' s'' : σ} {vs ws : List τ} {us us' : List υ}
    (h : feed f s vs = ⟨us, .ok s'⟩) (h' : feed f s' ws = ⟨us', .ok s''⟩) :
    feed f s (vs ++ ws) = ⟨us ++ us', .ok s''⟩ := by
  rw [feed_append]
  exact Emit.bind_eq_ok.mpr ⟨us, s', us', h, h', rfl⟩

/-- What every tuple keeps, a list keeps. -/
theorem feed_keeps {f : σ → τ → Emit ε υ σ} {P : σ → Prop}
    (hf : ∀ s v s', P s → (f s v).ended = .ok s' → P s') {s s' : σ} {vs : List τ} {us : List υ}
    (hs : P s) (h : feed f s vs = ⟨us, .ok s'⟩) : P s' := by
  induction vs generalizing s us with
  | nil =>
      cases h
      exact hs
  | cons v vs ih =>
      obtain ⟨_, s1, _, h1, h2, -⟩ := Emit.bind_eq_ok.mp h
      exact ih (hf s v s1 hs (congrArg Emit.ended h1)) h2

/-- Tuples that are only stored. -/
theorem feed_keep {ρ : Type} {f : σ → τ → Emit ε υ σ} {g : ρ → τ → ρ} {c : ρ → σ}
    (hf : ∀ s v, f (c s) v = pure (c (g s v))) (s : ρ) (vs : List τ) :
    feed f (c s) vs = ⟨[], .ok (c (vs.foldl g s))⟩ := by
  induction vs generalizing s with
  | nil => rfl
  | cons v vs ih =>
      rw [feed_cons, hf]
      exact ih (g s v)

/-- Tuples that are stored if that does not fail. -/
theorem feed_store {ρ : Type} {f : σ → τ → Emit ε υ σ} {g : ρ → τ → Except ε ρ} {c : ρ → σ}
    {vs : List τ} (hf : ∀ s v, f (c s) v = .ofExcept ((g s v).map c)) {s : ρ} {s' : σ} {us : List υ}
    (h : feed f (c s) vs = ⟨us, .ok s'⟩) :
    us = [] ∧ ∃ s1, vs.foldlM g s = .ok s1 ∧ s' = c s1 := by
  induction vs generalizing s us with
  | nil =>
      cases h
      exact ⟨rfl, s, rfl, rfl⟩
  | cons v vs ih =>
      rw [feed_cons, hf] at h
      obtain ⟨us1, s1, us2, h1, h2, rfl⟩ := Emit.bind_eq_ok.mp h
      obtain ⟨h1, rfl⟩ := Emit.ofExcept_eq_ok.mp h1
      cases hg : g s v with
      | error e =>
          rw [hg] at h1
          cases h1
      | ok s2 =>
          rw [hg] at h1
          cases h1
          obtain ⟨rfl, s3, h3, rfl⟩ := ih h2
          refine ⟨rfl, s3, ?_, rfl⟩
          rw [List.foldlM_cons, hg]
          exact h3

/-- An operator that does the same for every tuple. -/
theorem feed_each {f : σ → τ → Emit ε υ σ} {g : τ → Emit ε υ Unit} {s s' : σ}
    (hf : ∀ v, f s v = g v >>= fun _ => pure s) {vs : List τ} {us : List υ}
    (h : feed f s vs = ⟨us, .ok s'⟩) :
    us = vs.flatMap (fun v => (g v).out) ∧ ∀ v ∈ vs, (g v).ended = .ok () := by
  induction vs generalizing us with
  | nil =>
      cases h
      exact ⟨rfl, fun v hv => by cases hv⟩
  | cons v vs ih =>
      rw [feed_cons, hf] at h
      obtain ⟨us1, s1, us2, h1, h2, rfl⟩ := Emit.bind_eq_ok.mp h
      obtain ⟨us3, _, _, h3, h4, rfl⟩ := Emit.bind_eq_ok.mp h1
      cases h4
      obtain ⟨rfl, hended⟩ := ih h2
      refine ⟨?_, fun w hw => ?_⟩
      · rw [List.flatMap_cons, h3, List.append_nil]
      · rcases List.mem_cons.mp hw with rfl | hw
        · rw [h3]
        · exact hended w hw

/-- The same, where it fails for none of them. -/
theorem feed_each_ok {f : σ → τ → Emit ε υ σ} {g : τ → Emit ε υ Unit} {s : σ}
    (hf : ∀ v, f s v = g v >>= fun _ => pure s) {vs : List τ}
    (h : ∀ v ∈ vs, (g v).ended = .ok ()) :
    feed f s vs = ⟨vs.flatMap fun v => (g v).out, .ok s⟩ := by
  induction vs with
  | nil => rfl
  | cons v vs ih =>
      have hv := Emit.eq_mk (h v (List.mem_cons_self ..))
      rw [feed_cons, hf, hv, Emit.ok_bind, Emit.pure_eq, List.append_nil, Emit.ok_bind,
        ih fun w hw => h w (List.mem_cons_of_mem v hw)]
      rfl

/-- Tuples that give other tuples, without a change of the operator. -/
theorem feed_map {f : σ → τ → Emit ε υ σ} {g : τ → Except ε (List υ)} {s s' : σ} {vs : List τ}
    (hf : ∀ v, f s v = Emit.ofExcept (g v) >>= fun us => Emit.tell us >>= fun _ => pure s)
    {us : List υ} (h : feed f s vs = ⟨us, .ok s'⟩) :
    s' = s ∧ ∃ uss, vs.mapM g = .ok uss ∧ us = uss.flatten := by
  induction vs generalizing us with
  | nil =>
      cases h
      exact ⟨rfl, [], rfl, rfl⟩
  | cons v vs ih =>
      rw [feed_cons, hf] at h
      obtain ⟨us1, s1, us2, h1, h2, rfl⟩ := Emit.bind_eq_ok.mp h
      obtain ⟨_, ws, _, h3, h4, rfl⟩ := Emit.bind_eq_ok.mp h1
      obtain ⟨hgv, rfl⟩ := Emit.ofExcept_eq_ok.mp h3
      obtain ⟨_, _, _, h5, h6, rfl⟩ := Emit.bind_eq_ok.mp h4
      cases h5
      cases h6
      obtain ⟨rfl, uss, huss, rfl⟩ := ih h2
      refine ⟨rfl, ws :: uss, ?_, ?_⟩
      · rw [List.mapM_cons, hgv, huss]
        rfl
      · rw [List.nil_append, List.append_nil, List.flatten_cons]

end

/-! ## Plans -/

/-- The operators of a plan. An operator with two inputs either joins them, and
then it stores the right one, or it unites them. `ends` counts the inputs that
have ended. -/
structure Ops (ε τ S U B : Type) where
  scan : S → Emit ε τ Unit
  process : U → τ → Emit ε τ U
  finish : U → Emit ε τ U
  left : B → τ → Emit ε τ B
  right : B → τ → Emit ε τ B
  close : B → Bool × B
  joins : B → Bool
  ends : B → Nat

/-- A leaf has a label. An operator with one input does something at the end of
it, or only passes the end on. -/
inductive Plan (S U B : Type) where
  | source (k : Nat) (s : S)
  | unary (u : U) (own : Bool) (p : Plan S U B)
  | binary (b : B) (p q : Plan S U B)

variable {ε τ S U B : Type} (A : Ops ε τ S U B)

/-- The end of an input, if it has come. -/
def Ops.passEnd (b : B) (fin : Bool) : Bool × B := if fin then A.close b else (false, b)

namespace Plan

/-- The labels; the right input is the first one. -/
def labels : Plan S U B → List Nat
  | source k _ => [k]
  | unary _ _ p => p.labels
  | binary _ p q => p.labels ++ q.labels

/-- The leaves whose tuples get to the root. -/
def streams : Plan S U B → List Nat
  | source k _ => [k]
  | unary _ _ p => p.streams
  | binary b p q => if A.joins b then q.streams else p.streams ++ q.streams

/-- A run of the leaf with a label: what the root hands on, and whether it
announces the end. -/
def run (k : Nat) : Plan S U B → Emit ε τ (Bool × Plan S U B)
  | source j s => do
      A.scan s
      pure (true, source j s)
  | unary u own p => do
      let x := run k p
      let u ← feed A.process u x.out
      let r ← Emit.ofExcept x.ended
      if r.1 && own then do
        let u ← A.finish u
        pure (true, unary u own r.2)
      else pure (r.1, unary u own r.2)
  | binary b p q =>
      if k ∈ p.labels then do
        let x := run k p
        let b ← feed A.right b x.out
        let r ← Emit.ofExcept x.ended
        pure ((A.passEnd b r.1).1, binary (A.passEnd b r.1).2 r.2 q)
      else do
        let x := run k q
        let b ← feed A.left b x.out
        let r ← Emit.ofExcept x.ended
        pure ((A.passEnd b r.1).1, binary (A.passEnd b r.1).2 p r.2)

/-- No input has ended yet. -/
def Fresh : Plan S U B → Prop
  | source _ _ => True
  | unary _ _ p => p.Fresh
  | binary b p q => A.ends b = 0 ∧ p.Fresh ∧ q.Fresh

/-- A join has its right input before a tuple of the left one can get to it. -/
def Ordered (ks : List Nat) : Plan S U B → Prop
  | source _ _ => True
  | unary _ _ p => p.Ordered ks
  | binary b p q => p.Ordered ks ∧ q.Ordered ks ∧
      (A.joins b = true → ∀ j ∈ p.labels, ∀ k ∈ q.streams A, [j, k].Sublist ks)

end Plan

/-- The order of two lists is kept. -/
inductive Shuffle {α : Type} : List α → List α → List α → Prop where
  | nil : Shuffle [] [] []
  | left {x : α} {xs ys zs : List α} : Shuffle xs ys zs → Shuffle (x :: xs) ys (x :: zs)
  | right {y : α} {xs ys zs : List α} : Shuffle xs ys zs → Shuffle xs (y :: ys) (y :: zs)

/-- What a plan is for: each operator is given the whole of its inputs. -/
inductive Delivers : Plan S U B → List τ → Prop where
  | source {k : Nat} {s : S} {vs : List τ} : A.scan s = ⟨vs, .ok ()⟩ → Delivers (.source k s) vs
  | through {u u' : U} {p : Plan S U B} {vs ws : List τ} : Delivers p vs →
      feed A.process u vs = ⟨ws, .ok u'⟩ → Delivers (.unary u false p) ws
  | finished {u u' u'' : U} {p : Plan S U B} {vs ws xs : List τ} : Delivers p vs →
      feed A.process u vs = ⟨ws, .ok u'⟩ → A.finish u' = ⟨xs, .ok u''⟩ →
      Delivers (.unary u true p) (ws ++ xs)
  | joined {b b' b'' : B} {p q : Plan S U B} {vs ws xs : List τ} : A.joins b = true →
      Delivers p vs → Delivers q ws → feed A.right b vs = ⟨[], .ok b'⟩ →
      feed A.left (A.close b').2 ws = ⟨xs, .ok b''⟩ → Delivers (.binary b p q) xs
  | united {b : B} {p q : Plan S U B} {vs ws xs : List τ} : A.joins b = false →
      Delivers p vs → Delivers q ws → Shuffle vs ws xs → Delivers (.binary b p q) xs

/-- What the operators with two inputs have in common. A join hands on nothing
of its right input, and the left one does not change it; what is united is
handed on as it is. The second end is passed on. -/
structure Ops.Lawful : Prop where
  right_join : ∀ b v, A.joins b = true → (A.right b v).out = []
  left_join : ∀ b v b', A.joins b = true → (A.left b v).ended = .ok b' → b' = b
  right_kept : ∀ b v b', (A.right b v).ended = .ok b' →
    A.joins b' = A.joins b ∧ A.ends b' = A.ends b
  right_union : ∀ b v, A.joins b = false → A.right b v = ⟨[v], .ok b⟩
  left_union : ∀ b v, A.joins b = false → A.left b v = ⟨[v], .ok b⟩
  close_kept : ∀ b, A.joins (A.close b).2 = A.joins b ∧ A.ends (A.close b).2 = A.ends b + 1
  close_fin : ∀ b, (A.close b).1 = decide (1 < A.ends b + 1)

/-! ## Runs -/

/-- What the run of a leaf handed on, and whether it announced the end. -/
structure Entry (τ : Type) where
  label : Nat
  out : List τ
  fin : Bool

/-- Runs of leaves without a failure. -/
inductive Runs : Plan S U B → List (Entry τ) → Plan S U B → Prop where
  | nil (p : Plan S U B) : Runs p [] p
  | cons {p p' p'' : Plan S U B} {k : Nat} {vs : List τ} {fin : Bool} {es : List (Entry τ)} :
      p.run A k = ⟨vs, .ok (fin, p')⟩ → Runs p' es p'' → Runs p (⟨k, vs, fin⟩ :: es) p''

/-- All that was handed on. -/
def outs (es : List (Entry τ)) : List τ := es.flatMap Entry.out

/-- The end is announced once, in the last run. -/
inductive EndsOnce : List (Entry τ) → Prop where
  | last {e : Entry τ} : e.fin = true → EndsOnce [e]
  | cons {e : Entry τ} {es : List (Entry τ)} : e.fin = false → EndsOnce es → EndsOnce (e :: es)

/-- The runs of other leaves do nothing. -/
def Quiet (ks : List Nat) (es : List (Entry τ)) : Prop :=
  ∀ e ∈ es, e.label ∉ ks → e.out = [] ∧ e.fin = false

variable {A}

theorem outs_cons (e : Entry τ) (es : List (Entry τ)) : outs (e :: es) = e.out ++ outs es := rfl

theorem EndsOnce.ne_nil {es : List (Entry τ)} (h : EndsOnce es) : es ≠ [] := by
  cases h with
  | last => exact List.cons_ne_nil _ _
  | cons => exact List.cons_ne_nil _ _

section

variable {p p' q : Plan S U B} {k : Nat} {vs : List τ} {fin own : Bool} {u : U} {b : B}

/-- What an operator with one input does in a run. -/
theorem run_unary {P : Plan S U B} (h : (Plan.unary u own p).run A k = ⟨vs, .ok (fin, P)⟩) :
    ∃ us p' ws u', p.run A k = ⟨us, .ok (fin, p')⟩ ∧ feed A.process u us = ⟨ws, .ok u'⟩ ∧
      if fin && own then ∃ xs u'', A.finish u' = ⟨xs, .ok u''⟩ ∧ vs = ws ++ xs ∧
        P = .unary u'' own p'
      else vs = ws ∧ P = .unary u' own p' := by
  rw [Plan.run] at h
  obtain ⟨ws, u', ys, hfeed, h1, rfl⟩ := Emit.bind_eq_ok.mp h
  obtain ⟨_, r, zs, hr, h2, rfl⟩ := Emit.bind_eq_ok.mp h1
  obtain ⟨hr', rfl⟩ := Emit.ofExcept_eq_ok.mp hr
  have hrun : p.run A k = ⟨(p.run A k).out, .ok (r.1, r.2)⟩ := Emit.eq_mk hr'
  split at h2
  · next hfin =>
    obtain ⟨xs, u'', _, hx, h3, rfl⟩ := Emit.bind_eq_ok.mp h2
    rw [Emit.pure_eq, Emit.mk.injEq, Except.ok.injEq, Prod.mk.injEq] at h3
    obtain ⟨rfl, rfl, rfl⟩ := h3
    rw [Bool.and_eq_true] at hfin
    rw [hfin.1] at hrun
    refine ⟨_, r.2, ws, u', hrun, hfeed, ?_⟩
    rw [hfin.2, Bool.and_self, if_pos rfl]
    exact ⟨xs, u'', hx, by rw [List.append_nil, List.nil_append], rfl⟩
  · next hfin =>
    rw [Emit.pure_eq, Emit.mk.injEq, Except.ok.injEq, Prod.mk.injEq] at h2
    obtain ⟨rfl, rfl, rfl⟩ := h2
    refine ⟨_, r.2, ws, u', hrun, hfeed, ?_⟩
    rw [if_neg hfin]
    exact ⟨by rw [List.append_nil, List.append_nil], rfl⟩

/-- What an operator with two inputs does in a run of its right one. -/
theorem run_right {P : Plan S U B} (hk : k ∈ p.labels)
    (h : (Plan.binary b p q).run A k = ⟨vs, .ok (fin, P)⟩) :
    ∃ us fin' p' b', p.run A k = ⟨us, .ok (fin', p')⟩ ∧ feed A.right b us = ⟨vs, .ok b'⟩ ∧
      fin = (A.passEnd b' fin').1 ∧ P = .binary (A.passEnd b' fin').2 p' q := by
  rw [Plan.run, if_pos hk] at h
  obtain ⟨ws, b', ys, hfeed, h1, rfl⟩ := Emit.bind_eq_ok.mp h
  obtain ⟨_, r, zs, hr, h2, rfl⟩ := Emit.bind_eq_ok.mp h1
  obtain ⟨hr', rfl⟩ := Emit.ofExcept_eq_ok.mp hr
  rw [Emit.pure_eq, Emit.mk.injEq, Except.ok.injEq, Prod.mk.injEq] at h2
  obtain ⟨rfl, rfl, rfl⟩ := h2
  refine ⟨_, r.1, r.2, b', Emit.eq_mk hr', ?_, rfl, rfl⟩
  rw [hfeed, List.append_nil, List.append_nil]

/-- And of its left one. -/
theorem run_left {P : Plan S U B} (hk : k ∉ p.labels)
    (h : (Plan.binary b p q).run A k = ⟨vs, .ok (fin, P)⟩) :
    ∃ us fin' q' b', q.run A k = ⟨us, .ok (fin', q')⟩ ∧ feed A.left b us = ⟨vs, .ok b'⟩ ∧
      fin = (A.passEnd b' fin').1 ∧ P = .binary (A.passEnd b' fin').2 p q' := by
  rw [Plan.run, if_neg hk] at h
  obtain ⟨ws, b', ys, hfeed, h1, rfl⟩ := Emit.bind_eq_ok.mp h
  obtain ⟨_, r, zs, hr, h2, rfl⟩ := Emit.bind_eq_ok.mp h1
  obtain ⟨hr', rfl⟩ := Emit.ofExcept_eq_ok.mp hr
  rw [Emit.pure_eq, Emit.mk.injEq, Except.ok.injEq, Prod.mk.injEq] at h2
  obtain ⟨rfl, rfl, rfl⟩ := h2
  refine ⟨_, r.1, r.2, b', Emit.eq_mk hr', ?_, rfl, rfl⟩
  rw [hfeed, List.append_nil, List.append_nil]

theorem run_labels (h : p.run A k = ⟨vs, .ok (fin, p')⟩) : p'.labels = p.labels := by
  induction p generalizing p' vs fin with
  | source j s =>
      rw [Plan.run] at h
      obtain ⟨_, _, _, -, h, -⟩ := Emit.bind_eq_ok.mp h
      cases h
      rfl
  | unary u own p ih =>
      obtain ⟨_, p1, _, u', h1, -, h2⟩ := run_unary h
      split at h2
      · obtain ⟨_, u'', -, -, rfl⟩ := h2
        change p1.labels = p.labels
        exact ih h1
      · obtain ⟨-, rfl⟩ := h2
        change p1.labels = p.labels
        exact ih h1
  | binary b p q ihp ihq =>
      by_cases hk : k ∈ p.labels
      · obtain ⟨_, _, p1, _, h1, -, -, rfl⟩ := run_right hk h
        exact congrArg (· ++ q.labels) (ihp h1)
      · obtain ⟨_, _, q1, _, h1, -, -, rfl⟩ := run_left hk h
        exact congrArg (p.labels ++ ·) (ihq h1)

end

/-! ## Runs below an operator -/

/-- What an operator with one input makes of the runs of it. -/
inductive Fed (own : Bool) : U → List (Entry τ) → List (Entry τ) → U → Prop where
  | nil (u : U) : Fed own u [] [] u
  | pass {u u' u'' : U} {e : Entry τ} {es es' : List (Entry τ)} {ws : List τ} :
      (e.fin && own) = false → feed A.process u e.out = ⟨ws, .ok u'⟩ → Fed own u' es es' u'' →
      Fed own u (e :: es) (⟨e.label, ws, e.fin⟩ :: es') u''
  | finish {u u' u1 u'' : U} {e : Entry τ} {es es' : List (Entry τ)} {ws xs : List τ} :
      (e.fin && own) = true → feed A.process u e.out = ⟨ws, .ok u'⟩ →
      A.finish u' = ⟨xs, .ok u1⟩ → Fed own u1 es es' u'' →
      Fed own u (e :: es) (⟨e.label, ws ++ xs, e.fin⟩ :: es') u''

/-- What an operator with two inputs makes of the runs of them. -/
inductive Merged : B → List (Entry τ) → List (Entry τ) → List (Entry τ) → B → Prop where
  | nil (b : B) : Merged b [] [] [] b
  | right {b b' b'' : B} {e : Entry τ} {rs ls es : List (Entry τ)} {ws : List τ} :
      feed A.right b e.out = ⟨ws, .ok b'⟩ → Merged (A.passEnd b' e.fin).2 rs ls es b'' →
      Merged b (e :: rs) ls (⟨e.label, ws, (A.passEnd b' e.fin).1⟩ :: es) b''
  | left {b b' b'' : B} {e : Entry τ} {rs ls es : List (Entry τ)} {ws : List τ} :
      feed A.left b e.out = ⟨ws, .ok b'⟩ → Merged (A.passEnd b' e.fin).2 rs ls es b'' →
      Merged b rs (e :: ls) (⟨e.label, ws, (A.passEnd b' e.fin).1⟩ :: es) b''

section

variable {p q P P' : Plan S U B} {own : Bool} {u u' : U} {b b' : B} {es es' rs ls : List (Entry τ)}

theorem runs_unary (h : Runs (A := A) P es P') (hP : P = .unary u own p) :
    ∃ es' p' u', Runs (A := A) p es' p' ∧ Fed (A := A) own u es' es u' ∧ P' = .unary u' own p' := by
  induction h generalizing u p with
  | nil P => exact ⟨[], p, u, .nil p, .nil u, hP⟩
  | cons hrun _ ih =>
      subst hP
      obtain ⟨us, p1, ws, u1, h1, h2, h3⟩ := run_unary hrun
      split at h3
      · next hfin =>
        obtain ⟨xs, u2, hx, rfl, rfl⟩ := h3
        obtain ⟨es', p', u', h4, h5, h6⟩ := ih rfl
        exact ⟨_ :: es', p', u', .cons h1 h4, .finish hfin h2 hx h5, h6⟩
      · next hfin =>
        obtain ⟨rfl, rfl⟩ := h3
        obtain ⟨es', p', u', h4, h5, h6⟩ := ih rfl
        exact ⟨_ :: es', p', u', .cons h1 h4, .pass (Bool.eq_false_iff.mpr hfin) h2 h5, h6⟩

theorem runs_binary (h : Runs (A := A) P es P') (hP : P = .binary b p q) :
    ∃ rs ls p' q' b', Runs (A := A) p rs p' ∧ Runs (A := A) q ls q' ∧
    Merged (A := A) b rs ls es b' ∧
      P' = .binary b' p' q' ∧
      rs.map Entry.label = (es.map Entry.label).filter (· ∈ p.labels) ∧
      ls.map Entry.label = (es.map Entry.label).filter (· ∉ p.labels) := by
  induction h generalizing b p q with
  | nil P => exact ⟨[], [], p, q, b, .nil p, .nil q, .nil b, hP, rfl, rfl⟩
  | @cons P P1 P' k vs fin es hrun _ ih =>
      subst hP
      by_cases hk : k ∈ p.labels
      · obtain ⟨us, fin', p1, b1, h1, h2, rfl, rfl⟩ := run_right hk hrun
        obtain ⟨rs, ls, p', q', b', h3, h4, h5, h6, h7, h8⟩ := ih rfl
        rw [run_labels h1] at h7 h8
        refine ⟨⟨k, us, fin'⟩ :: rs, ls, p', q', b', .cons h1 h3, h4, .right h2 h5, h6, ?_, ?_⟩
        · simp only [List.map_cons, List.filter_cons, hk, decide_true, if_true, h7]
        · simp only [List.map_cons, List.filter_cons, hk, not_true_eq_false, decide_false,
            Bool.false_eq_true, if_false, h8]
      · obtain ⟨us, fin', q1, b1, h1, h2, rfl, rfl⟩ := run_left hk hrun
        obtain ⟨rs, ls, p', q', b', h3, h4, h5, h6, h7, h8⟩ := ih rfl
        refine ⟨rs, ⟨k, us, fin'⟩ :: ls, p', q', b', h3, .cons h1 h4, .left h2 h5, h6, ?_, ?_⟩
        · simp only [List.map_cons, List.filter_cons, hk, decide_false, Bool.false_eq_true,
            if_false, h7]
        · simp only [List.map_cons, List.filter_cons, hk, not_false_eq_true, decide_true, if_true,
            h8]

end

/-! ## The end of the input -/

namespace Ops.Lawful

variable {b b' : B} {vs ws : List τ}

theorem left_kept (hA : A.Lawful) {v : τ} (h : (A.left b v).ended = .ok b') : b' = b := by
  by_cases hj : A.joins b = true
  · exact hA.left_join b v b' hj h
  · rw [hA.left_union b v (Bool.eq_false_iff.mpr hj), Except.ok.injEq] at h
    exact h.symm

theorem feed_left (hA : A.Lawful) (h : feed A.left b vs = ⟨ws, .ok b'⟩) : b' = b :=
  feed_keeps (P := (· = b)) (fun _ _ _ hs h => (hA.left_kept h).trans hs) rfl h

theorem feed_right (hA : A.Lawful) (h : feed A.right b vs = ⟨ws, .ok b'⟩) :
    A.joins b' = A.joins b ∧ A.ends b' = A.ends b := by
  refine feed_keeps (P := fun s => A.joins s = A.joins b ∧ A.ends s = A.ends b) ?_ ⟨rfl, rfl⟩ h
  intro s v s' hs h
  obtain ⟨h1, h2⟩ := hA.right_kept s v s' h
  exact ⟨h1.trans hs.1, h2.trans hs.2⟩

/-- A join hands on nothing of its right input. -/
theorem feed_right_join (hA : A.Lawful) (hb : A.joins b = true)
    (h : feed A.right b vs = ⟨ws, .ok b'⟩) : ws = [] := by
  induction vs generalizing b ws with
  | nil =>
      cases h
      rfl
  | cons v vs ih =>
      obtain ⟨us, b1, us', h1, h2, rfl⟩ := Emit.bind_eq_ok.mp h
      have hout : us = [] := (congrArg Emit.out h1).symm.trans (hA.right_join b v hb)
      have hkept := (hA.right_kept b v b1 (congrArg Emit.ended h1)).1
      rw [hout, ih (hkept.trans hb) h2, List.append_nil]

theorem feed_right_union (hA : A.Lawful) (hb : A.joins b = false) (vs : List τ) :
    feed A.right b vs = ⟨vs, .ok b⟩ := by
  induction vs with
  | nil => rfl
  | cons v vs ih => rw [feed_cons, hA.right_union b v hb, Emit.ok_bind, ih, List.singleton_append]

theorem feed_left_union (hA : A.Lawful) (hb : A.joins b = false) (vs : List τ) :
    feed A.left b vs = ⟨vs, .ok b⟩ := by
  induction vs with
  | nil => rfl
  | cons v vs ih => rw [feed_cons, hA.left_union b v hb, Emit.ok_bind, ih, List.singleton_append]

theorem close_first (hA : A.Lawful) (h : A.ends b = 0) :
    (A.close b).1 = false ∧ A.ends (A.close b).2 = 1 := by
  rw [hA.close_fin, (hA.close_kept b).2, h]
  exact ⟨rfl, rfl⟩

theorem close_second (hA : A.Lawful) (h : A.ends b = 1) : (A.close b).1 = true := by
  rw [hA.close_fin, h]
  rfl

theorem passEnd_joins (hA : A.Lawful) (b : B) (fin : Bool) :
    A.joins (A.passEnd b fin).2 = A.joins b := by
  cases fin
  · rfl
  · exact (hA.close_kept b).1

end Ops.Lawful

section

variable {own : Bool} {u u' : U} {b b' : B} {es es' rs ls : List (Entry τ)} {ks : List Nat}

theorem passEnd_false (b : B) : A.passEnd b false = (false, b) := rfl

theorem passEnd_true (b : B) : A.passEnd b true = A.close b := rfl

theorem EndsOnce.eq_nil {e : Entry τ} (h : EndsOnce (e :: es)) (he : e.fin = true) : es = [] := by
  cases h with
  | last => rfl
  | cons he' _ =>
      rw [he] at he'
      cases he'

theorem EndsOnce.tail {e : Entry τ} (h : EndsOnce (e :: es)) (he : e.fin = false) :
    EndsOnce es := by
  cases h with
  | last he' =>
      rw [he] at he'
      cases he'
  | cons _ h => exact h

theorem Fed.endsOnce (h : Fed (A := A) own u es es' u') (hes : EndsOnce es) : EndsOnce es' := by
  induction h with
  | nil => exact hes
  | @pass _ _ _ e es es' _ _ _ hfed ih =>
      cases he : e.fin with
      | false => exact .cons rfl (ih (hes.tail he))
      | true =>
          obtain rfl := hes.eq_nil he
          cases hfed
          exact .last rfl
  | @finish _ _ _ _ e es es' _ _ hfin _ _ hfed _ =>
      have he := (Bool.and_eq_true_iff.mp hfin).1
      obtain rfl := hes.eq_nil he
      cases hfed
      exact .last he

/-- An operator is finished after the whole of its input. -/
theorem Fed.feeds (h : Fed (A := A) own u es es' u') (hes : EndsOnce es) :
    ∃ ws u1, feed A.process u (outs es) = ⟨ws, .ok u1⟩ ∧
      (own = false → outs es' = ws) ∧
      (own = true → ∃ xs u2, A.finish u1 = ⟨xs, .ok u2⟩ ∧ outs es' = ws ++ xs) := by
  induction h with
  | nil => exact absurd rfl hes.ne_nil
  | @pass u u1 u2 e es es' ws hfin h1 hfed ih =>
      cases he : e.fin with
      | false =>
          obtain ⟨ws', u', h2, h3, h4⟩ := ih (hes.tail he)
          refine ⟨ws ++ ws', u', feed_append_ok h1 h2, fun hown => ?_, fun hown => ?_⟩
          · rw [outs_cons, h3 hown]
          · obtain ⟨xs, u2, hx, h5⟩ := h4 hown
            exact ⟨xs, u2, hx, by rw [outs_cons, h5, List.append_assoc]⟩
      | true =>
          obtain rfl := hes.eq_nil he
          cases hfed
          refine ⟨ws, u1, ?_, fun _ => List.append_nil ws, fun hown => ?_⟩
          · rw [outs_cons]
            exact (List.append_nil e.out).symm ▸ h1
          · rw [he, hown] at hfin
            cases hfin
  | @finish u u1 u2 _ e es es' ws xs hfin h1 h2 hfed ih =>
      obtain ⟨he, hown⟩ := Bool.and_eq_true_iff.mp hfin
      obtain rfl := hes.eq_nil he
      cases hfed
      refine ⟨ws, u1, ?_, fun hown' => ?_, fun _ => ⟨xs, u2, h2, List.append_nil _⟩⟩
      · rw [outs_cons]
        exact (List.append_nil e.out).symm ▸ h1
      · rw [hown] at hown'
        cases hown'

theorem Fed.labels (h : Fed (A := A) own u es es' u') :
    es'.map Entry.label = es.map Entry.label := by
  induction h with
  | nil => rfl
  | pass _ _ _ ih => rw [List.map_cons, List.map_cons, ih]
  | finish _ _ _ _ ih => rw [List.map_cons, List.map_cons, ih]

theorem Quiet.tail {e : Entry τ} (h : Quiet ks (e :: es)) : Quiet ks es :=
  fun e' he' => h e' (List.mem_cons_of_mem _ he')

theorem Quiet.cons {e : Entry τ} (he : e.label ∉ ks → e.out = [] ∧ e.fin = false)
    (h : Quiet ks es) : Quiet ks (e :: es) := by
  intro e' he'
  rcases List.mem_cons.mp he' with rfl | he'
  · exact he
  · exact h e' he'

theorem Fed.quiet (h : Fed (A := A) own u es es' u') (hes : Quiet ks es) : Quiet ks es' := by
  induction h with
  | nil => exact hes
  | pass _ h1 _ ih =>
      refine .cons (fun hk => ?_) (ih hes.tail)
      obtain ⟨hout, hfin⟩ := hes _ (List.mem_cons_self ..) hk
      rw [hout] at h1
      cases h1
      exact ⟨rfl, hfin⟩
  | finish hfin _ _ _ ih =>
      refine .cons (fun hk => ?_) (ih hes.tail)
      obtain ⟨-, hfin'⟩ := hes _ (List.mem_cons_self ..) hk
      rw [hfin', Bool.false_and] at hfin
      cases hfin

/-- The second of two ends is passed on. -/
theorem Merged.endsOnce (hA : A.Lawful) (h : Merged (A := A) b rs ls es b') :
    (A.ends b = 0 → EndsOnce rs → EndsOnce ls → EndsOnce es) ∧
      (A.ends b = 1 → rs = [] → EndsOnce ls → EndsOnce es) ∧
      (A.ends b = 1 → EndsOnce rs → ls = [] → EndsOnce es) := by
  induction h with
  | nil => exact ⟨fun _ h => absurd rfl h.ne_nil, fun _ _ h => absurd rfl h.ne_nil,
      fun _ h => absurd rfl h.ne_nil⟩
  | @right b b1 b' e rs ls es ws hfeed hm ih =>
      have hends := (hA.feed_right hfeed).2
      refine ⟨fun hb hr hl => ?_, fun _ hr => (by cases hr), fun hb hr hl => ?_⟩
      all_goals cases he : e.fin
      · rw [he, passEnd_false] at ih
        exact .cons rfl (ih.1 (hends.trans hb) (hr.tail he) hl)
      · rw [he, passEnd_true] at ih
        obtain ⟨hfin, hone⟩ := hA.close_first (hends.trans hb)
        exact .cons hfin (ih.2.1 hone (hr.eq_nil he) hl)
      · rw [he, passEnd_false] at ih
        exact .cons rfl (ih.2.2 (hends.trans hb) (hr.tail he) hl)
      · obtain rfl := hr.eq_nil he
        subst hl
        cases hm
        exact .last (hA.close_second (hends.trans hb))
  | @left b b1 b' e rs ls es ws hfeed hm ih =>
      obtain rfl := hA.feed_left hfeed
      refine ⟨fun hb hr hl => ?_, fun hb hr hl => ?_, fun _ _ hl => (by cases hl)⟩
      all_goals cases he : e.fin
      · rw [he, passEnd_false] at ih
        exact .cons rfl (ih.1 hb hr (hl.tail he))
      · rw [he, passEnd_true] at ih
        obtain ⟨hfin, hone⟩ := hA.close_first hb
        exact .cons hfin (ih.2.2 hone hr (hl.eq_nil he))
      · rw [he, passEnd_false] at ih
        exact .cons rfl (ih.2.1 hb hr (hl.tail he))
      · obtain rfl := hl.eq_nil he
        subst hr
        cases hm
        exact .last (hA.close_second hb)

end

/-! ## The two inputs -/

section

variable {b b' : B} {es rs ls : List (Entry τ)} {ks : List Nat}

theorem Merged.perm (h : Merged (A := A) b rs ls es b') :
    (es.map Entry.label).Perm (rs.map Entry.label ++ ls.map Entry.label) := by
  induction h with
  | nil => exact .nil
  | right _ _ ih => exact ih.cons _
  | left _ _ ih => exact (ih.cons _).trans List.perm_middle.symm

theorem Merged.eq_nil (h : Merged (A := A) b [] [] es b') : es = [] := by
  cases h
  rfl

/-- The runs of the right input are over before the left one hands something
on. -/
structure RightFirst (ks : List Nat) (rs ls es : List (Entry τ)) : Prop where
  nodup : (es.map Entry.label).Nodup
  before : ∀ j ∈ rs.map Entry.label, ∀ k ∈ ls.map Entry.label, k ∈ ks →
    [j, k].Sublist (es.map Entry.label)
  quiet : Quiet ks ls
  rights : rs = [] ∨ EndsOnce rs
  lefts : ls = [] ∨ EndsOnce ls

theorem sublist_of_cons {α : Type} {x y : α} {xs ys : List α} (h : (x :: xs).Sublist (y :: ys))
    (hne : x ≠ y) : (x :: xs).Sublist ys := by
  cases h with
  | cons _ h => exact h
  | cons_cons _ h => exact absurd rfl hne

theorem tail_cases {e : Entry τ} (h : e :: es = [] ∨ EndsOnce (e :: es)) :
    (e.fin = true ∧ es = []) ∨ (e.fin = false ∧ EndsOnce es) := by
  rcases h with h | h
  · cases h
  · cases he : e.fin with
    | false => exact .inr ⟨rfl, h.tail he⟩
    | true => exact .inl ⟨rfl, h.eq_nil he⟩

namespace RightFirst

variable {e e' : Entry τ}

theorem right (h : RightFirst ks (e :: rs) ls (e' :: es))
    (hm : (es.map Entry.label).Perm (rs.map Entry.label ++ ls.map Entry.label)) :
    RightFirst ks rs ls es := by
  obtain ⟨hnot, hnd⟩ := List.nodup_cons.mp h.nodup
  refine ⟨hnd, fun j hj k hk hks => ?_, h.quiet, ?_, h.lefts⟩
  · refine sublist_of_cons (h.before j (List.mem_cons_of_mem _ hj) k hk hks) ?_
    rintro rfl
    exact hnot (hm.mem_iff.mpr (List.mem_append_left _ hj))
  · rcases tail_cases h.rights with ⟨-, hrs⟩ | ⟨-, hrs⟩
    · exact .inl hrs
    · exact .inr hrs

theorem left (h : RightFirst ks rs (e :: ls) (e' :: es))
    (hm : (es.map Entry.label).Perm (rs.map Entry.label ++ ls.map Entry.label)) :
    RightFirst ks rs ls es := by
  obtain ⟨hnot, hnd⟩ := List.nodup_cons.mp h.nodup
  refine ⟨hnd, fun j hj k hk hks => ?_, h.quiet.tail, h.rights, ?_⟩
  · refine sublist_of_cons (h.before j hj k (List.mem_cons_of_mem _ hk) hks) ?_
    rintro rfl
    exact hnot (hm.mem_iff.mpr (List.mem_append_left _ hj))
  · rcases tail_cases h.lefts with ⟨-, hls⟩ | ⟨-, hls⟩
    · exact .inl hls
    · exact .inr hls

/-- The left input hands something on. -/
theorem eq_nil (h : RightFirst ks rs (e :: ls) (e' :: es)) (he : e'.label = e.label)
    (hk : e.label ∈ ks) : rs = [] := by
  cases rs with
  | nil => rfl
  | cons r rs =>
      obtain ⟨hnot, -⟩ := List.nodup_cons.mp h.nodup
      have hsub := h.before r.label (List.mem_cons_self ..) e.label (List.mem_cons_self ..) hk
      rw [List.map_cons, he] at hsub
      rw [he] at hnot
      by_cases hr : r.label = e.label
      · rw [hr] at hsub
        exact absurd ((List.cons_sublist_cons.mp hsub).subset (List.mem_singleton.mpr rfl)) hnot
      · exact absurd ((sublist_of_cons hsub hr).subset (List.mem_cons_of_mem _
          (List.mem_singleton.mpr rfl))) hnot

end RightFirst

/-- A join has stored its right input when the left one comes. -/
theorem Merged.joined (hA : A.Lawful) (h : Merged (A := A) b rs ls es b')
    (hb : A.joins b = true) (ho : RightFirst ks rs ls es) :
    (rs = [] → ∃ b1, feed A.left b (outs ls) = ⟨outs es, .ok b1⟩) ∧
      (EndsOnce rs → ∃ b1 b2, feed A.right b (outs rs) = ⟨[], .ok b1⟩ ∧
        feed A.left (A.close b1).2 (outs ls) = ⟨outs es, .ok b2⟩) := by
  induction h with
  | nil b => exact ⟨fun _ => ⟨b, rfl⟩, fun h => absurd rfl h.ne_nil⟩
  | @right b b1 b' e rs ls es ws hfeed hm ih =>
      obtain rfl := hA.feed_right_join hb hfeed
      have hkept := (hA.feed_right hfeed).1
      have ih := ih ((hA.passEnd_joins b1 e.fin).trans (hkept.trans hb)) (ho.right hm.perm)
      refine ⟨fun hr => (by cases hr), fun hr => ?_⟩
      rcases tail_cases (.inr hr) with ⟨he, hrs⟩ | ⟨he, hrs⟩
      · rw [he, passEnd_true] at ih
        obtain ⟨b2, h2⟩ := ih.1 hrs
        subst hrs
        refine ⟨b1, b2, ?_, h2⟩
        rw [outs_cons]
        exact (List.append_nil e.out).symm ▸ hfeed
      · rw [he, passEnd_false] at ih
        obtain ⟨b2, b3, h2, h3⟩ := ih.2 hrs
        exact ⟨b2, b3, feed_append_ok hfeed h2, h3⟩
  | @left b b1 b' e rs ls es ws hfeed hm ih =>
      obtain rfl := hA.feed_left hfeed
      have ih := ih ((hA.passEnd_joins b1 e.fin).trans hb) (ho.left hm.perm)
      by_cases hk : e.label ∈ ks
      · obtain rfl := ho.eq_nil rfl hk
        refine ⟨fun _ => ?_, fun hr => absurd rfl hr.ne_nil⟩
        rcases tail_cases ho.lefts with ⟨-, hls⟩ | ⟨he, -⟩
        · subst hls
          obtain rfl := hm.eq_nil
          refine ⟨b1, ?_⟩
          rw [outs_cons, outs_cons]
          exact feed_append_ok hfeed rfl
        · rw [he, passEnd_false] at ih
          obtain ⟨b2, h2⟩ := ih.1 rfl
          exact ⟨b2, feed_append_ok hfeed h2⟩
      · obtain ⟨hout, hfin⟩ := ho.quiet e (List.mem_cons_self ..) hk
        rw [hfin, passEnd_false] at ih
        rw [hout] at hfeed
        cases hfeed
        rw [outs_cons, outs_cons, hout]
        exact ih

/-- A join whose left input is over before the right one begins has nothing
stored when it is given the left one. -/
theorem Merged.late (hA : A.Lawful) (h : Merged (A := A) b rs ls es b')
    (hb : A.joins b = true) (hnd : (es.map Entry.label).Nodup)
    (ho : ∀ j ∈ ls.map Entry.label, ∀ k ∈ rs.map Entry.label,
      [j, k].Sublist (es.map Entry.label)) (hls : ls = [] ∨ EndsOnce ls) :
    ∃ b1, feed A.left b (outs ls) = ⟨outs es, .ok b1⟩ := by
  induction h with
  | nil b => exact ⟨b, rfl⟩
  | @right b b1 b' e rs ls es ws hfeed hm ih =>
      have hls' : ls = [] := by
        refine List.eq_nil_iff_forall_not_mem.mpr fun e' he' => ?_
        have hsub := ho e'.label (List.mem_map_of_mem he') e.label (List.mem_cons_self ..)
        have hne : e'.label ≠ e.label := fun heq => by
          rw [heq] at hsub
          exact absurd (hnd.sublist hsub) (by simp)
        have hmem := (sublist_of_cons hsub hne).subset
          (List.mem_cons_of_mem _ (List.mem_singleton_self _))
        exact (List.nodup_cons.mp hnd).1 hmem
      subst hls'
      obtain rfl := hA.feed_right_join hb hfeed
      have hkept := (hA.feed_right hfeed).1
      obtain ⟨b2, h2⟩ := ih ((hA.passEnd_joins b1 e.fin).trans (hkept.trans hb))
        (List.nodup_cons.mp hnd).2 (fun j hj => by cases hj) (.inl rfl)
      rw [outs, List.flatMap_nil, feed_nil, Emit.pure_eq, Emit.mk.injEq] at h2
      refine ⟨b, ?_⟩
      rw [outs_cons, ← h2.1]
      rfl
  | @left b b1 b' e rs ls es ws hfeed hm ih =>
      obtain rfl := hA.feed_left hfeed
      have hnd' := (List.nodup_cons.mp hnd).2
      have ho' : ∀ j ∈ ls.map Entry.label, ∀ k ∈ rs.map Entry.label,
          [j, k].Sublist (es.map Entry.label) := fun j hj k hk => by
        refine sublist_of_cons (ho j (List.mem_cons_of_mem _ hj) k hk) ?_
        rintro rfl
        exact (List.nodup_cons.mp hnd).1
          (hm.perm.mem_iff.mpr (List.mem_append_right _ hj))
      have hlate := ih ((hA.passEnd_joins b1 e.fin).trans hb) hnd' ho'
      rw [outs_cons, outs_cons]
      rcases tail_cases hls with ⟨-, hls⟩ | ⟨he, hls⟩
      · obtain ⟨b2, h2⟩ := hlate (.inl hls)
        rw [hls, outs, List.flatMap_nil, feed_nil, Emit.pure_eq, Emit.mk.injEq] at h2
        refine ⟨b1, ?_⟩
        rw [hls, ← h2.1]
        exact feed_append_ok hfeed rfl
      · rw [he, passEnd_false] at hlate
        obtain ⟨b2, h2⟩ := hlate (.inr hls)
        exact ⟨b2, feed_append_ok hfeed h2⟩

/-- The runs of a join in which it does nothing. -/
theorem Merged.quiet_join (hA : A.Lawful) (h : Merged (A := A) b rs ls es b')
    (hb : A.joins b = true) (ho : RightFirst ks rs ls es)
    (h0 : rs = [] ∨ A.ends b = 0) : Quiet ks es := by
  induction h with
  | nil => exact fun _ he => (by cases he)
  | @right b b1 b' e rs ls es ws hfeed hm ih =>
      obtain rfl := hA.feed_right_join hb hfeed
      obtain ⟨hkept, hends⟩ := hA.feed_right hfeed
      have h0 : A.ends b1 = 0 := hends.trans (h0.resolve_left (List.cons_ne_nil _ _))
      have ih := ih ((hA.passEnd_joins b1 e.fin).trans (hkept.trans hb)) (ho.right hm.perm)
      rcases tail_cases ho.rights with ⟨he, hrs⟩ | ⟨he, -⟩
      · refine .cons (fun _ => ⟨rfl, ?_⟩) (ih (.inl hrs))
        rw [he, passEnd_true]
        exact (hA.close_first h0).1
      · rw [he] at ih ⊢
        exact .cons (fun _ => ⟨rfl, rfl⟩) (ih (.inr h0))
  | @left b b1 b' e rs ls es ws hfeed hm ih =>
      obtain rfl := hA.feed_left hfeed
      have ih := ih ((hA.passEnd_joins b1 e.fin).trans hb) (ho.left hm.perm)
      by_cases hk : e.label ∈ ks
      · exact .cons (fun hn => absurd hk hn) (ih (.inl (ho.eq_nil rfl hk)))
      · obtain ⟨hout, hfin⟩ := ho.quiet e (List.mem_cons_self ..) hk
        rw [hout] at hfeed
        cases hfeed
        rw [hfin] at ih ⊢
        exact .cons (fun _ => ⟨rfl, rfl⟩) (ih h0)

theorem Shuffle.append_left {α : Type} {xs ys zs : List α} (h : Shuffle xs ys zs) (ws : List α) :
    Shuffle (ws ++ xs) ys (ws ++ zs) := by
  induction ws with
  | nil => exact h
  | cons w ws ih => exact .left ih

theorem Shuffle.append_right {α : Type} {xs ys zs : List α} (h : Shuffle xs ys zs) (ws : List α) :
    Shuffle xs (ws ++ ys) (ws ++ zs) := by
  induction ws with
  | nil => exact h
  | cons w ws ih => exact .right ih

/-- What is united is handed on as it comes. -/
theorem Merged.shuffle (hA : A.Lawful) (h : Merged (A := A) b rs ls es b')
    (hb : A.joins b = false) : Shuffle (outs rs) (outs ls) (outs es) := by
  induction h with
  | nil => exact .nil
  | @right b b1 b' e rs ls es ws hfeed hm ih =>
      rw [hA.feed_right_union hb] at hfeed
      cases hfeed
      exact (ih ((hA.passEnd_joins _ _).trans hb)).append_left e.out
  | @left b b1 b' e rs ls es ws hfeed hm ih =>
      rw [hA.feed_left_union hb] at hfeed
      cases hfeed
      exact (ih ((hA.passEnd_joins _ _).trans hb)).append_right e.out

theorem Merged.quiet_union {ks' : List Nat} (hA : A.Lawful) (h : Merged (A := A) b rs ls es b')
    (hb : A.joins b = false) (hr : Quiet ks rs) (hl : Quiet ks' ls) : Quiet (ks ++ ks') es := by
  induction h with
  | nil => exact fun _ he => (by cases he)
  | @right b b1 b' e rs ls es ws hfeed hm ih =>
      rw [hA.feed_right_union hb] at hfeed
      cases hfeed
      refine .cons (fun hk => ?_) (ih ((hA.passEnd_joins _ _).trans hb) hr.tail hl)
      obtain ⟨hout, hfin⟩ := hr e (List.mem_cons_self ..) fun h => hk (List.mem_append_left _ h)
      rw [hfin]
      exact ⟨hout, rfl⟩
  | @left b b1 b' e rs ls es ws hfeed hm ih =>
      rw [hA.feed_left_union hb] at hfeed
      cases hfeed
      refine .cons (fun hk => ?_) (ih ((hA.passEnd_joins _ _).trans hb) hr hl.tail)
      obtain ⟨hout, hfin⟩ := hl e (List.mem_cons_self ..) fun h => hk (List.mem_append_right _ h)
      rw [hfin]
      exact ⟨hout, rfl⟩

end

/-! ## All leaves -/

section

variable {p p' q : Plan S U B} {b : B} {es : List (Entry τ)} {ks : List Nat}

theorem filter_left {ks ks' : List Nat} (h : (ks ++ ks').Nodup) :
    (ks ++ ks').filter (· ∈ ks) = ks ∧ (ks ++ ks').filter (· ∉ ks) = ks' := by
  obtain ⟨-, -, hdisj⟩ := List.nodup_append.mp h
  have hnot : ∀ k ∈ ks', k ∉ ks := fun k hk hk' => hdisj k hk' k hk rfl
  constructor
  · rw [List.filter_append, List.filter_eq_self.mpr fun k hk => decide_eq_true hk,
      List.filter_eq_nil_iff.mpr fun k hk => by simpa using hnot k hk, List.append_nil]
  · rw [List.filter_append, List.filter_eq_nil_iff.mpr fun k hk => by simpa using hk,
      List.filter_eq_self.mpr fun k hk => decide_eq_true (hnot k hk), List.nil_append]

theorem Plan.labels_ne_nil (p : Plan S U B) : p.labels ≠ [] := by
  induction p with
  | source k s => exact List.cons_ne_nil _ _
  | unary u own p ih => exact ih
  | binary b p q ihp _ => exact List.append_ne_nil_of_left_ne_nil ihp _

theorem Plan.streams_subset (p : Plan S U B) : p.streams A ⊆ p.labels := by
  induction p with
  | source => exact fun _ h => h
  | unary _ _ _ ih => exact ih
  | binary b p q ihp ihq =>
      rw [streams]
      split
      · exact fun k hk => List.mem_append_right _ (ihq hk)
      · intro k hk
        rcases List.mem_append.mp hk with hk | hk
        · exact List.mem_append_left _ (ihp hk)
        · exact List.mem_append_right _ (ihq hk)

/-- Only the order of the plan's own leaves matters. -/
theorem Plan.Ordered.filter {f : Nat → Bool} (h : p.Ordered A ks)
    (hf : ∀ k ∈ p.labels, f k = true) : p.Ordered A (ks.filter f) := by
  induction p with
  | source => exact trivial
  | unary _ _ _ ih => exact ih h hf
  | binary b p q ihp ihq =>
      obtain ⟨hp, hq, hb⟩ := h
      refine ⟨ihp hp fun k hk => hf k (List.mem_append_left _ hk),
        ihq hq fun k hk => hf k (List.mem_append_right _ hk), fun hj j hjp k hkq => ?_⟩
      have hsub := (hb hj j hjp k hkq).filter f
      have hfj := hf j (List.mem_append_left _ hjp)
      have hfk := hf k (List.mem_append_right _ (q.streams_subset hkq))
      simpa only [List.filter_cons, hfj, hfk, if_true, List.filter_nil] using hsub

theorem runs_source {k : Nat} {s : S} (h : Runs (A := A) (.source k s) es p')
    (hes : es.map Entry.label = [k]) : EndsOnce es ∧ A.scan s = ⟨outs es, .ok ()⟩ := by
  cases h with
  | nil => cases hes
  | @cons _ _ _ j vs fin es hrun hruns =>
      rw [List.map_cons, List.cons.injEq, List.map_eq_nil_iff] at hes
      obtain ⟨rfl, rfl⟩ := hes
      rw [Plan.run] at hrun
      obtain ⟨us, _, ws, h1, h2, rfl⟩ := Emit.bind_eq_ok.mp hrun
      rw [Emit.pure_eq, Emit.mk.injEq, Except.ok.injEq, Prod.mk.injEq] at h2
      obtain ⟨rfl, rfl, -⟩ := h2
      refine ⟨.last rfl, ?_⟩
      rw [h1, outs_cons]
      exact congrArg (Emit.mk · (.ok ())) ((List.append_nil us).symm.trans
        (List.append_nil (us ++ [])).symm)

/-- The runs of the two inputs; an order that is right for an input remains
so. -/
theorem Runs.inputs (h : Runs (A := A) (.binary b p q) es p')
    (hnd : (Plan.binary b p q : Plan S U B).labels.Nodup)
    (hes : (es.map Entry.label).Perm (Plan.binary b p q : Plan S U B).labels) :
    ∃ rs ls p1 q1 b1, Runs (A := A) p rs p1 ∧ Runs (A := A) q ls q1 ∧
      Merged (A := A) b rs ls es b1 ∧ (rs.map Entry.label).Perm p.labels ∧
      (ls.map Entry.label).Perm q.labels ∧
      rs.map Entry.label = (es.map Entry.label).filter (· ∈ p.labels) ∧
      (p.Ordered A (es.map Entry.label) → p.Ordered A (rs.map Entry.label)) ∧
      (q.Ordered A (es.map Entry.label) → q.Ordered A (ls.map Entry.label)) := by
  obtain ⟨rs, ls, p1, q1, b1, h1, h2, h3, -, h4, h5⟩ := runs_binary h rfl
  obtain ⟨hleft, hright⟩ := filter_left hnd
  have hdisj := (List.nodup_append.mp hnd).2.2
  refine ⟨rs, ls, p1, q1, b1, h1, h2, h3, ?_, ?_, h4, fun ho => ?_, fun ho => ?_⟩
  · rw [h4]
    exact (hes.filter _).trans (.of_eq hleft)
  · rw [h5]
    exact (hes.filter _).trans (.of_eq hright)
  · rw [h4]
    exact ho.filter fun k hk => decide_eq_true hk
  · rw [h5]
    exact ho.filter fun k hk => decide_eq_true fun hk' => hdisj k hk' k hk rfl

/-- The end is announced once, after everything else, in whatever order the
leaves are run. -/
theorem Runs.endsOnce (hA : A.Lawful) (h : Runs (A := A) p es p') (hf : p.Fresh A)
    (hnd : p.labels.Nodup) (hes : (es.map Entry.label).Perm p.labels) : EndsOnce es := by
  induction p generalizing p' es with
  | source k s => exact (runs_source h (List.perm_singleton.mp hes)).1
  | unary u own p ih =>
      obtain ⟨es', p1, u', h1, h2, -⟩ := runs_unary h rfl
      rw [h2.labels] at hes
      exact h2.endsOnce (ih h1 hf hnd hes)
  | binary b p q ihp ihq =>
      obtain ⟨rs, ls, p1, q1, b1, h1, h2, h3, hrs, hls, -⟩ := h.inputs hnd hes
      obtain ⟨hb, hfp, hfq⟩ := hf
      obtain ⟨hnp, hnq, -⟩ := List.nodup_append.mp hnd
      exact (h3.endsOnce hA).1 hb (ihp h1 hfp hnp hrs) (ihq h2 hfq hnq hls)

/-- In a right order a plan delivers what it is for, and only the leaves whose
tuples get to the root hand something on. -/
theorem Runs.delivers (hA : A.Lawful) (h : Runs (A := A) p es p') (hf : p.Fresh A)
    (hnd : p.labels.Nodup) (hes : (es.map Entry.label).Perm p.labels)
    (ho : p.Ordered A (es.map Entry.label)) :
    Delivers A p (outs es) ∧ Quiet (p.streams A) es := by
  induction p generalizing p' es with
  | source k s =>
      refine ⟨.source (runs_source h (List.perm_singleton.mp hes)).2, fun e he hk => ?_⟩
      refine absurd ?_ hk
      have hmem := List.mem_map_of_mem (f := Entry.label) he
      rwa [List.perm_singleton.mp hes] at hmem
  | unary u own p ih =>
      obtain ⟨es', p1, u', h1, h2, -⟩ := runs_unary h rfl
      rw [h2.labels] at hes ho
      obtain ⟨hdel, hquiet⟩ := ih h1 hf hnd hes ho
      refine ⟨?_, h2.quiet hquiet⟩
      obtain ⟨ws, u1, hfeed, hthrough, hfinish⟩ := h2.feeds (h1.endsOnce hA hf hnd hes)
      cases own with
      | false =>
          rw [hthrough rfl]
          exact .through hdel hfeed
      | true =>
          obtain ⟨xs, u2, hx, hout⟩ := hfinish rfl
          rw [hout]
          exact .finished hdel hfeed hx
  | binary b p q ihp ihq =>
      obtain ⟨rs, ls, p1, q1, b1, h1, h2, h3, hrs, hls, -, h4, h5⟩ := h.inputs hnd hes
      obtain ⟨hb, hfp, hfq⟩ := hf
      obtain ⟨hnp, hnq, -⟩ := List.nodup_append.mp hnd
      obtain ⟨hop, hoq, hob⟩ := ho
      have hrends := h1.endsOnce hA hfp hnp hrs
      have hlends := h2.endsOnce hA hfq hnq hls
      obtain ⟨hdelp, hquietp⟩ := ihp h1 hfp hnp hrs (h4 hop)
      obtain ⟨hdelq, hquietq⟩ := ihq h2 hfq hnq hls (h5 hoq)
      rw [Plan.streams]
      cases hj : A.joins b with
      | true =>
          have hfirst : RightFirst (q.streams A) rs ls es :=
            ⟨hes.nodup_iff.mpr hnd, fun j hj' k _ hk => hob hj j (hrs.mem_iff.mp hj') k hk,
              hquietq, .inr hrends, .inr hlends⟩
          obtain ⟨b2, b3, h6, h7⟩ := (h3.joined hA hj hfirst).2 hrends
          exact ⟨.joined hj hdelp hdelq h6 h7, h3.quiet_join hA hj hfirst (.inr hb)⟩
      | false =>
          exact ⟨.united hj hdelp hdelq (h3.shuffle hA hj), h3.quiet_union hA hj hquietp hquietq⟩

end

end Dataflow
