import Mathlib.Logic.Function.Basic
import Poseidon.Lib.Dataflow

/-!
# Networks of subscribers

The operators of a plan as objects with numbers. An object knows the one that
subscribes to it, the function of the subscriber that is called for a tuple,
and the one that is called at the end: the subscriber's own, or the default,
which only passes the end on. A tuple is pushed as far as it gets before the
next one is looked at.

A network whose links lead to greater numbers and that has the form of a plan
runs as the plan does.
-/

namespace Dataflow

/-- The function of a subscriber that is called for a tuple. -/
inductive Port where
  | process
  | left
  | right
  deriving DecidableEq, Repr

/-- The subscriber of an object; `own` says whether its own function is called
at the end. -/
structure Connection where
  subscriber : Nat
  port : Port
  own : Bool
  deriving DecidableEq, Repr

/-- An operator with its state. -/
inductive Operator (S U B : Type) where
  | source (s : S)
  | unary (u : U)
  | binary (b : B)
  | sink

/-- What a sink is told. -/
inductive Event (τ : Type) where
  | tuple (v : τ)
  | finish
  deriving DecidableEq, Repr

/-- Calls of objects. What fails leaves no operators. -/
abbrev Run (ε τ S U B α : Type) := StateT (Nat → Operator S U B) (Emit ε (Event τ)) α

variable {ε τ S U B α β : Type}

/-! ## Steps -/

def getOp (i : Nat) : Run ε τ S U B (Operator S U B) := fun σ => pure (σ i, σ)

def setOp (i : Nat) (op : Operator S U B) : Run ε τ S U B Unit :=
  fun σ => pure ((), Function.update σ i op)

def emit (es : List (Event τ)) : Run ε τ S U B Unit := fun σ => ⟨es, .ok ((), σ)⟩

def lift (x : Except ε α) : Run ε τ S U B α := fun σ => ⟨[], x.map fun a => (a, σ)⟩

/-! ## Calls -/

section

variable (A : Ops ε τ S U B) (e : ε) (links : Nat → Option Connection)

/-- A call for a tuple; `e` is the error of a function that is not there. -/
def Operator.call : Operator S U B → Port → τ → Emit ε τ (Operator S U B)
  | .unary u, .process, v => do
      let u ← A.process u v
      pure (.unary u)
  | .binary b, .left, v => do
      let b ← A.left b v
      pure (.binary b)
  | .binary b, .right, v => do
      let b ← A.right b v
      pure (.binary b)
  | _, _, _ => .ofExcept (.error e)

/-- Hand a tuple on to the subscriber. -/
def consume : Nat → Nat → τ → Run ε τ S U B Unit
  | 0, _, _ => lift (.error e)
  | fuel + 1, i, v =>
      match links i with
      | none => lift (.error e)
      | some l => do
          let op ← getOp l.subscriber
          match op with
          | .sink => emit [.tuple v]
          | op => do
              (op.call A e l.port v).out.forM (consume fuel l.subscriber)
              let op ← lift (op.call A e l.port v).ended
              setOp l.subscriber op

/-- Hand on what a computation hands on. -/
def push (fuel i : Nat) (x : Emit ε τ α) : Run ε τ S U B α := do
  x.out.forM (consume A e links fuel i)
  lift x.ended

/-- The call of a link at the end of an input. -/
def finishLink : Nat → Connection → Run ε τ S U B Unit
  | 0, _ => lift (.error e)
  | fuel + 1, l =>
      if l.own then do
        let op ← getOp l.subscriber
        match op with
        | .sink => emit [.finish]
        | .source _ => lift (.error e)
        | .unary u => do
            let u ← push A e links fuel l.subscriber (A.finish u)
            setOp l.subscriber (.unary u)
            match links l.subscriber with
            | none => lift (.error e)
            | some l => finishLink fuel l
        | .binary b => do
            setOp l.subscriber (.binary (A.close b).2)
            if (A.close b).1 then
              match links l.subscriber with
              | none => pure ()
              | some l => finishLink fuel l
            else pure ()
      else
        match links l.subscriber with
        | none => pure ()
        | some l => finishLink fuel l

/-- The end of the input of an object without a function for it. -/
def defaultFinish (fuel i : Nat) : Run ε τ S U B Unit :=
  match links i with
  | none => pure ()
  | some l => finishLink A e links fuel l

/-- Run a source. -/
def start (fuel i : Nat) : Run ε τ S U B Unit := do
  let op ← getOp i
  match op with
  | .source s => do
      push A e links fuel i (A.scan s)
      defaultFinish A e links fuel i
  | _ => pure ()

end

/-! ## Rules for steps -/

section

variable {i j : Nat} {op op' : Operator S U B}

theorem set_get (f : Operator S U B → Run ε τ S U B α) :
    (setOp i op >>= fun _ => getOp i >>= f) = (setOp i op >>= fun _ => f op) := by
  funext σ
  show f (Function.update σ i op i) _ = f op _
  rw [Function.update_self]

theorem set_set (f : Run ε τ S U B α) :
    (setOp i op >>= fun _ => setOp i op' >>= fun _ => f) = (setOp i op' >>= fun _ => f) := by
  funext σ
  show f (Function.update (Function.update σ i op) i op') = f (Function.update σ i op')
  rw [Function.update_idem]

/-- A computation that neither reads nor writes the objects of `J`. -/
def Apart (J : Nat → Prop) (m : Run ε τ S U B α) : Prop :=
  ∀ j, J j → ∀ op : Operator S U B,
    (setOp j op >>= fun _ => m) = (m >>= fun a => setOp j op >>= fun _ => pure a)

namespace Apart

variable {J J' : Nat → Prop} {m : Run ε τ S U B α}

theorem comm (h : Apart J m) (hj : J j) (f : α → Run ε τ S U B β) :
    (setOp j op >>= fun _ => m >>= f) = (m >>= fun a => setOp j op >>= fun _ => f a) := by
  have hm := congrArg (· >>= f) (h j hj op)
  simpa only [bind_assoc, pure_bind] using hm

theorem mono (h : Apart J m) (hJ : ∀ k, J' k → J k) : Apart J' m :=
  fun k hk op => h k (hJ k hk) op

theorem pure (a : α) : Apart J (pure a : Run ε τ S U B α) := fun _ _ _ => rfl

theorem bind {f : α → Run ε τ S U B β} (h : Apart J m) (hf : ∀ a, Apart J (f a)) :
    Apart J (m >>= f) := by
  intro j hj op
  rw [h.comm hj, bind_assoc]
  exact congrArg (m >>= ·) (funext fun a => hf a j hj op)

theorem get (h : ¬J j) : Apart J (getOp j : Run ε τ S U B _) := by
  intro k hk op
  funext σ
  show Pure.pure (Function.update σ k op j, _) = Pure.pure (σ j, _)
  have hne : j ≠ k := fun hjk => h (hjk ▸ hk)
  rw [Function.update_of_ne hne]

theorem set (h : ¬J j) : Apart J (setOp j op : Run ε τ S U B Unit) := by
  intro k hk op'
  funext σ
  show Pure.pure ((), Function.update (Function.update σ k op') j op) =
    Pure.pure ((), Function.update (Function.update σ j op) k op')
  have hne : k ≠ j := fun hkj => h (hkj ▸ hk)
  rw [Function.update_comm hne]

theorem emit (es : List (Event τ)) : Apart J (emit es : Run ε τ S U B Unit) := by
  intro k _ op
  funext σ
  show (⟨[] ++ es, _⟩ : Emit ε (Event τ) _) = ⟨es ++ ([] ++ []), _⟩
  rw [List.nil_append, List.append_nil, List.append_nil]
  rfl

theorem lift (x : Except ε α) : Apart J (lift x : Run ε τ S U B α) := by
  intro k _ op
  cases x <;> rfl

theorem forM {f : τ → Run ε τ S U B Unit} (h : ∀ v, Apart J (f v)) (vs : List τ) :
    Apart J (vs.forM f) := by
  induction vs with
  | nil => exact .pure ()
  | cons v vs ih => exact (h v).bind fun _ => ih

end Apart

end

/-! ## Links that lead upwards -/

/-- The links lead to greater numbers, below `n`. -/
def Ascending (links : Nat → Option Connection) (n : Nat) : Prop :=
  ∀ i l, links i = some l → i < l.subscriber ∧ l.subscriber < n

section

variable {A : Ops ε τ S U B} {e : ε} {links : Nat → Option Connection} {n f f' i : Nat}
  {l : Connection} {op : Operator S U B}

theorem consume_none (hl : links i = none) (v : τ) :
    (consume A e links f i v : Run ε τ S U B Unit) = lift (.error e) := by
  cases f with
  | zero => rfl
  | succ f => rw [consume, hl]

/-- The fuel is enough if it covers the numbers above. -/
theorem consume_fuel (h : Ascending links n) (hf : n ≤ f + i) (hf' : n ≤ f' + i) :
    (consume A e links f i : τ → Run ε τ S U B Unit) = consume A e links f' i := by
  induction f generalizing f' i with
  | zero =>
      have hl : links i = none := by
        cases hl : links i with
        | none => rfl
        | some l =>
            have := h i l hl
            omega
      funext v
      rw [consume_none hl, consume_none hl]
  | succ f ih =>
      funext v
      cases hl : links i with
      | none => rw [consume_none hl, consume_none hl]
      | some l =>
          have hlt := h i l hl
          cases f' with
          | zero => omega
          | succ f' =>
              have hsub : (consume A e links f l.subscriber : τ → Run ε τ S U B Unit) =
                  consume A e links f' l.subscriber := ih (by omega) (by omega)
              simp only [consume, hl, hsub]

theorem push_fuel (h : Ascending links n) (hf : n ≤ f + i) (hf' : n ≤ f' + i) (x : Emit ε τ α) :
    (push A e links f i x : Run ε τ S U B α) = push A e links f' i x := by
  rw [push, push, consume_fuel h hf hf']

theorem finishLink_fuel (h : Ascending links n) (hl : l.subscriber < n)
    (hf : n < f + l.subscriber) (hf' : n < f' + l.subscriber) :
    (finishLink A e links f l : Run ε τ S U B Unit) = finishLink A e links f' l := by
  induction f generalizing f' l with
  | zero => omega
  | succ f ih =>
      cases f' with
      | zero => omega
      | succ f' =>
          have hpush : ∀ x : Emit ε τ U, (push A e links f l.subscriber x : Run ε τ S U B U) =
              push A e links f' l.subscriber x :=
            fun x => push_fuel h (by omega) (by omega) x
          cases hnext : links l.subscriber with
          | none => simp only [finishLink, hpush, hnext]
          | some l' =>
              have hlt := h _ l' hnext
              have hsub : (finishLink A e links f l' : Run ε τ S U B Unit) =
                  finishLink A e links f' l' := ih hlt.2 (by omega) (by omega)
              simp only [finishLink, hpush, hnext, hsub]

theorem consume_apart (h : Ascending links n) (f i : Nat) (v : τ) :
    Apart (· ≤ i) (consume A e links f i v : Run ε τ S U B Unit) := by
  induction f generalizing i v with
  | zero => exact .lift _
  | succ f ih =>
      cases hl : links i with
      | none =>
          rw [consume_none hl]
          exact .lift _
      | some l =>
          have hlt := (h i l hl).1
          have hnot : ¬l.subscriber ≤ i := by omega
          have hcall : ∀ op : Operator S U B, Apart (· ≤ i) (do
              (op.call A e l.port v).out.forM (consume A e links f l.subscriber)
              let op ← lift (op.call A e l.port v).ended
              setOp l.subscriber op : Run ε τ S U B Unit) := fun op =>
            (Apart.forM (fun w => (ih l.subscriber w).mono fun k hk => by omega) _).bind fun _ =>
              (Apart.lift _).bind fun _ => .set hnot
          simp only [consume, hl]
          refine (Apart.get (J := (· ≤ i)) hnot).bind fun op => ?_
          cases op with
          | sink => exact .emit _
          | source s => exact hcall _
          | unary u => exact hcall _
          | binary b => exact hcall _

theorem push_apart (h : Ascending links n) (f i : Nat) (x : Emit ε τ α) :
    Apart (· ≤ i) (push A e links f i x : Run ε τ S U B α) :=
  (Apart.forM (consume_apart h f i) _).bind fun _ => .lift _

theorem push_bind (x : Emit ε τ α) (g : α → Emit ε τ β) :
    (push A e links f i (x >>= g) : Run ε τ S U B β) =
      (push A e links f i x >>= fun a => push A e links f i (g a)) := by
  rcases x with ⟨vs, r⟩
  cases r with
  | error err =>
      simp only [Emit.error_bind, push, bind_assoc]
      rfl
  | ok a =>
      have happend : ((vs ++ (g a).out).forM (consume A e links f i) : Run ε τ S U B Unit) =
          (vs.forM (consume A e links f i) >>= fun _ =>
            (g a).out.forM (consume A e links f i)) := List.forM_append
      simp only [Emit.ok_bind, push, happend, bind_assoc]
      rfl

theorem push_pure (a : α) : (push A e links f i (pure a) : Run ε τ S U B α) = pure a := rfl

theorem push_ofExcept (x : Except ε α) :
    (push A e links f i (.ofExcept x) : Run ε τ S U B α) = lift x := rfl

/-- A tuple for an object with a known operator. -/
theorem set_consume (h : Ascending links n) (hl : links i = some l) (hop : op ≠ .sink) (v : τ) :
    (setOp l.subscriber op >>= fun _ => consume A e links n i v) =
      (push A e links n l.subscriber (op.call A e l.port v) >>= setOp l.subscriber) := by
  have hlt := h i l hl
  obtain ⟨m, rfl⟩ : ∃ m, n = m + 1 := ⟨n - 1, by omega⟩
  have hsub : (consume A e links m l.subscriber : τ → Run ε τ S U B Unit) =
      consume A e links (m + 1) l.subscriber := consume_fuel h (by omega) (by omega)
  have hcons : ∀ w, Apart (· ≤ l.subscriber)
      (consume A e links (m + 1) l.subscriber w : Run ε τ S U B Unit) :=
    consume_apart h _ _
  have hcall : ∀ op : Operator S U B, (setOp l.subscriber op >>= fun _ => do
      (op.call A e l.port v).out.forM (consume A e links (m + 1) l.subscriber)
      let op' ← lift (op.call A e l.port v).ended
      setOp l.subscriber op' : Run ε τ S U B Unit) =
        (push A e links (m + 1) l.subscriber (op.call A e l.port v) >>=
          setOp l.subscriber) := by
    intro op
    rw [(Apart.forM hcons _).comm (Nat.le_refl _), push, bind_assoc]
    refine congrArg _ (funext fun _ => ?_)
    rw [(Apart.lift (J := (· ≤ l.subscriber)) _).comm (Nat.le_refl _)]
    exact congrArg _ (funext fun op' => set_set (f := pure ()))
  simp only [consume, hl, hsub]
  rw [set_get]
  cases op with
  | sink => exact absurd rfl hop
  | source s => exact hcall _
  | unary u => exact hcall _
  | binary b => exact hcall _

/-- A list of tuples for an object whose operator is always one of `c`. -/
theorem set_feed {X : Type} {c : X → Operator S U B} {g : X → τ → Emit ε τ X}
    (h : Ascending links n) (hl : links i = some l) (hc : ∀ x, c x ≠ .sink)
    (hcall : ∀ x v, (c x).call A e l.port v = (g x v >>= fun x => pure (c x)))
    (x : X) (vs : List τ) :
    (setOp l.subscriber (c x) >>= fun _ => vs.forM (consume A e links n i)) =
      (push A e links n l.subscriber (feed g x vs) >>= fun x =>
        setOp l.subscriber (c x)) := by
  induction vs generalizing x with
  | nil => rfl
  | cons v vs ih =>
      have hone := set_consume h hl (hc x) (A := A) (e := e) v
      rw [hcall, push_bind] at hone
      rw [feed_cons, push_bind, bind_assoc]
      calc (setOp l.subscriber (c x) >>= fun _ => (v :: vs).forM (consume A e links n i))
          = ((setOp l.subscriber (c x) >>= fun _ => consume A e links n i v) >>= fun _ =>
              vs.forM (consume A e links n i)) := by
            rw [bind_assoc]
            rfl
        _ = (push A e links n l.subscriber (g x v) >>= fun x =>
              setOp l.subscriber (c x) >>= fun _ => vs.forM (consume A e links n i)) := by
            rw [hone, bind_assoc, bind_assoc]
            rfl
        _ = _ := congrArg _ (funext ih)

theorem set_finish_default (hl : links i = some l) (hown : l.own = false)
    (h : Ascending links n) :
    (defaultFinish A e links n i : Run ε τ S U B Unit) =
      defaultFinish A e links n l.subscriber := by
  have hlt := h i l hl
  obtain ⟨m, rfl⟩ : ∃ m, n = m + 1 := ⟨n - 1, by omega⟩
  rw [defaultFinish, hl, defaultFinish]
  cases hnext : links l.subscriber with
  | none => simp only [finishLink, hown, hnext, Bool.false_eq_true, if_false]
  | some l' =>
      have hlt' := h _ l' hnext
      have hsub : (finishLink A e links m l' : Run ε τ S U B Unit) =
          finishLink A e links (m + 1) l' := finishLink_fuel h hlt'.2 (by omega) (by omega)
      simp only [finishLink, hown, hnext, Bool.false_eq_true, if_false] at hsub ⊢
      exact hsub

theorem set_finish_unary (h : Ascending links n) (hl : links i = some l) (hown : l.own = true)
    (hnext : (links l.subscriber).isSome) (u : U) :
    (setOp l.subscriber (.unary u) >>= fun _ => defaultFinish A e links n i) =
      (push A e links n l.subscriber (A.finish u) >>= fun u =>
        setOp l.subscriber (.unary u) >>= fun _ => defaultFinish A e links n l.subscriber) := by
  have hlt := h i l hl
  obtain ⟨m, rfl⟩ : ∃ m, n = m + 1 := ⟨n - 1, by omega⟩
  obtain ⟨l', hl'⟩ := Option.isSome_iff_exists.mp hnext
  have hlt' := h _ l' hl'
  have hsub : (finishLink A e links m l' : Run ε τ S U B Unit) =
      finishLink A e links (m + 1) l' := finishLink_fuel h hlt'.2 (by omega) (by omega)
  have hpush : (push A e links m l.subscriber (A.finish u) : Run ε τ S U B U) =
      push A e links (m + 1) l.subscriber (A.finish u) := push_fuel h (by omega) (by omega) _
  simp only [defaultFinish, hl, hl', ← hsub]
  simp only [finishLink, hown, if_true, hl']
  rw [set_get]
  refine ((push_apart h m l.subscriber _).comm (Nat.le_refl _) _).trans ?_
  rw [hpush]
  exact congrArg _ (funext fun u => set_set (f := finishLink A e links m l'))

theorem set_finish_binary (h : Ascending links n) (hl : links i = some l) (hown : l.own = true)
    (b : B) :
    (setOp l.subscriber (.binary b) >>= fun _ => defaultFinish A e links n i) =
      (setOp l.subscriber (.binary (A.close b).2) >>= fun _ =>
        if (A.close b).1 then defaultFinish A e links n l.subscriber else pure ()) := by
  have hlt := h i l hl
  obtain ⟨m, rfl⟩ : ∃ m, n = m + 1 := ⟨n - 1, by omega⟩
  simp only [defaultFinish, hl]
  rw [finishLink, if_pos hown, set_get]
  refine (set_set _).trans (congrArg _ (funext fun _ => ?_))
  cases hnext : links l.subscriber with
  | none => rfl
  | some l' =>
      have hlt' := h _ l' hnext
      have hsub : (finishLink A e links m l' : Run ε τ S U B Unit) =
          finishLink A e links (m + 1) l' := finishLink_fuel h hlt'.2 (by omega) (by omega)
      simp only [hsub]

end

/-! ## Networks with the form of a plan -/

/-- The numbers of the objects of a plan. -/
inductive Layout where
  | source (i : Nat)
  | unary (i : Nat) (l : Layout)
  | binary (i : Nat) (l r : Layout)

namespace Layout

def root : Layout → Nat
  | source i | unary i _ | binary i _ _ => i

def ids : Layout → List Nat
  | source i => [i]
  | unary i l => i :: l.ids
  | binary i l r => i :: (l.ids ++ r.ids)

theorem root_mem (l : Layout) : l.root ∈ l.ids := by
  cases l with
  | source | unary | binary => exact List.mem_cons_self ..

/-- Give the objects the operators of a plan. -/
def write : Layout → Plan S U B → Run ε τ S U B Unit
  | source i, .source _ s => setOp i (.source s)
  | unary i l, .unary u _ p => do
      setOp i (.unary u)
      l.write p
  | binary i l r, .binary b p q => do
      setOp i (.binary b)
      l.write p
      r.write q
  | _, _ => pure ()

end Layout

/-- The links join the objects as the plan joins its operators; `heads` are
the objects of the leaves. -/
inductive Represents (links : Nat → Option Connection) (heads : Nat → Nat) :
    Plan S U B → Layout → Prop where
  | source {k i : Nat} {s : S} : heads k = i → Represents links heads (.source k s) (.source i)
  | unary {u : U} {own : Bool} {p : Plan S U B} {i : Nat} {l : Layout} :
      Represents links heads p l → links l.root = some ⟨i, .process, own⟩ →
      Represents links heads (.unary u own p) (.unary i l)
  | binary {b : B} {p q : Plan S U B} {i : Nat} {l r : Layout} :
      Represents links heads p l → Represents links heads q r →
      links l.root = some ⟨i, .right, true⟩ → links r.root = some ⟨i, .left, true⟩ →
      l.ids.Disjoint r.ids → Represents links heads (.binary b p q) (.binary i l r)

section

variable {A : Ops ε τ S U B} {e : ε} {links : Nat → Option Connection} {heads : Nat → Nat}
  {n i : Nat} {l : Layout} {p : Plan S U B}

/-- What is apart from the objects of a layout can come first. -/
theorem Apart.write {J : Nat → Prop} {m : Run ε τ S U B α} (h : Apart J m)
    (hl : ∀ j ∈ l.ids, J j) (p : Plan S U B) (f : α → Run ε τ S U B β) :
    (l.write p >>= fun _ => m >>= f) = (m >>= fun a => l.write p >>= fun _ => f a) := by
  induction l generalizing p f with
  | source i =>
      cases p with
      | source k s => exact h.comm (hl i (List.mem_singleton_self i)) f
      | unary | binary => rfl
  | unary i l ih =>
      cases p with
      | unary u own p =>
          simp only [Layout.write, bind_assoc]
          rw [ih (fun j hj => hl j (List.mem_cons_of_mem i hj))]
          exact h.comm (hl i (List.mem_cons_self ..)) _
      | source | binary => rfl
  | binary i l r ihl ihr =>
      cases p with
      | binary b p q =>
          simp only [Layout.write, bind_assoc]
          rw [ihr fun j hj => hl j (List.mem_cons_of_mem i (List.mem_append_right _ hj)),
            ihl fun j hj => hl j (List.mem_cons_of_mem i (List.mem_append_left _ hj))]
          exact h.comm (hl i (List.mem_cons_self ..)) _
      | source | unary => rfl

theorem Layout.write_apart (l : Layout) (p : Plan S U B) :
    Apart (· ∉ l.ids) (l.write p : Run ε τ S U B Unit) := by
  induction l generalizing p with
  | source i =>
      cases p with
      | source k s => exact .set fun h => h (List.mem_singleton_self i)
      | unary | binary => exact .pure ()
  | unary i l ih =>
      cases p with
      | unary u own p =>
          exact (Apart.set fun h => h (List.mem_cons_self ..)).bind fun _ =>
            (ih p).mono fun j hj hjl => hj (List.mem_cons_of_mem i hjl)
      | source | binary => exact .pure ()
  | binary i l r ihl ihr =>
      cases p with
      | binary b p q =>
          exact (Apart.set fun h => h (List.mem_cons_self ..)).bind fun _ =>
            ((ihl p).mono fun j hj hjl =>
              hj (List.mem_cons_of_mem i (List.mem_append_left _ hjl))).bind fun _ =>
            (ihr q).mono fun j hj hjr =>
              hj (List.mem_cons_of_mem i (List.mem_append_right _ hjr))
      | source | unary => exact .pure ()

/-- The root has the greatest number. -/
theorem Represents.le_root (h : Represents links heads p l) (ha : Ascending links n) :
    ∀ j ∈ l.ids, j ≤ l.root := by
  induction h with
  | source => exact fun j hj => Nat.le_of_eq (List.mem_singleton.mp hj)
  | @unary u own p i l _ hl ih =>
      intro j hj
      have hlt := (ha _ _ hl).1
      rcases List.mem_cons.mp hj with rfl | hj
      · exact Nat.le_refl _
      · exact Nat.le_of_lt (Nat.lt_of_le_of_lt (ih j hj) hlt)
  | @binary b p q i l r _ _ hl hr _ ihp ihq =>
      intro j hj
      have hltl := (ha _ _ hl).1
      have hltr := (ha _ _ hr).1
      rcases List.mem_cons.mp hj with rfl | hj
      · exact Nat.le_refl _
      · rcases List.mem_append.mp hj with hj | hj
        · exact Nat.le_of_lt (Nat.lt_of_le_of_lt (ihp j hj) hltl)
        · exact Nat.le_of_lt (Nat.lt_of_le_of_lt (ihq j hj) hltr)

/-- A run of the input of an operator with one input. -/
theorem set_child_unary {u : U} {own : Bool} (ha : Ascending links n)
    (hl : links l.root = some ⟨i, .process, own⟩) (hnext : (links i).isSome)
    (hids : ∀ j ∈ l.ids, j < i) (x : Emit ε τ (Bool × Plan S U B)) :
    (setOp i (.unary u) >>= fun _ => push A e links n l.root x >>= fun r =>
      l.write r.2 >>= fun _ => if r.1 then defaultFinish A e links n l.root else pure ()) =
    (push A e links n i (feed A.process u x.out) >>= fun u => lift x.ended >>= fun r =>
      push A e links n i (if r.1 && own then A.finish u else pure u) >>= fun u =>
      setOp i (.unary u) >>= fun _ => l.write r.2 >>= fun _ =>
        if r.1 then defaultFinish A e links n i else pure ()) := by
  have hfeed := set_feed ha hl (A := A) (e := e) (c := Operator.unary)
    (fun _ h => by cases h) (fun _ _ => rfl) u x.out
  have hnot : i ∉ l.ids := fun h => Nat.lt_irrefl i (hids i h)
  have hend : ∀ (u : U) (r : Bool × Plan S U B),
      (setOp i (.unary u) >>= fun _ => l.write r.2 >>= fun _ =>
        if r.1 then defaultFinish A e links n l.root else pure ()) =
      (push A e links n i (if r.1 && own then A.finish u else pure u) >>= fun u =>
        setOp i (.unary u) >>= fun _ => l.write r.2 >>= fun _ =>
          if r.1 then defaultFinish A e links n i else pure ()) := by
    rintro u ⟨fin, p⟩
    cases fin with
    | false => rfl
    | true =>
        cases own with
        | false =>
            simp only [set_finish_default hl rfl ha]
            rfl
        | true =>
            simp only [Bool.and_self, if_true]
            rw [(l.write_apart p).comm hnot]
            have hfin := set_finish_unary ha hl rfl hnext (A := A) (e := e) u
            simp only [hfin]
            rw [(push_apart ha n i (A.finish u)).write fun j hj => Nat.le_of_lt (hids j hj)]
            exact congrArg _ (funext fun u => ((l.write_apart p).comm hnot _).symm)
  calc _ = ((setOp i (.unary u) >>= fun _ => x.out.forM (consume A e links n l.root)) >>=
          fun _ => lift x.ended >>= fun r => l.write r.2 >>= fun _ =>
            if r.1 then defaultFinish A e links n l.root else pure ()) := by
        simp only [push, bind_assoc]
    _ = (push A e links n i (feed A.process u x.out) >>= fun u => lift x.ended >>= fun r =>
          setOp i (.unary u) >>= fun _ => l.write r.2 >>= fun _ =>
            if r.1 then defaultFinish A e links n l.root else pure ()) := by
        rw [hfeed, bind_assoc]
        exact congrArg _ (funext fun u =>
          (Apart.lift (J := fun _ => True) x.ended).comm trivial _)
    _ = _ := congrArg _ (funext fun u => congrArg _ (funext fun r => hend u r))

/-- A run of one of the inputs of an operator with two of them. -/
theorem set_child_binary {b : B} {port : Port} {g : B → τ → Emit ε τ B}
    (ha : Ascending links n) (hl : links l.root = some ⟨i, port, true⟩)
    (hids : ∀ j ∈ l.ids, j < i) (hcall : ∀ b v, (Operator.binary b).call A e port v =
      (g b v >>= fun b => pure (Operator.binary b : Operator S U B)))
    (x : Emit ε τ (Bool × Plan S U B)) :
    (setOp i (.binary b) >>= fun _ => push A e links n l.root x >>= fun r =>
      l.write r.2 >>= fun _ => if r.1 then defaultFinish A e links n l.root else pure ()) =
    (push A e links n i (feed g b x.out) >>= fun b => lift x.ended >>= fun r =>
      setOp i (.binary (A.passEnd b r.1).2) >>= fun _ => l.write r.2 >>= fun _ =>
        if (A.passEnd b r.1).1 then defaultFinish A e links n i else pure ()) := by
  have hfeed := set_feed ha hl (A := A) (e := e) (c := Operator.binary)
    (fun _ h => by cases h) hcall b x.out
  have hnot : i ∉ l.ids := fun h => Nat.lt_irrefl i (hids i h)
  have hend : ∀ (b : B) (r : Bool × Plan S U B),
      (setOp i (.binary b) >>= fun _ => l.write r.2 >>= fun _ =>
        if r.1 then defaultFinish A e links n l.root else pure ()) =
      (setOp i (.binary (A.passEnd b r.1).2) >>= fun _ => l.write r.2 >>= fun _ =>
        if (A.passEnd b r.1).1 then defaultFinish A e links n i else pure ()) := by
    rintro b ⟨fin, p⟩
    cases fin with
    | false => rfl
    | true =>
        have hfin := set_finish_binary ha hl rfl (A := A) (e := e) b
        simp only [if_true, Ops.passEnd]
        rw [(l.write_apart p).comm hnot, (l.write_apart p).comm hnot]
        exact congrArg _ (funext fun _ => hfin)
  calc _ = ((setOp i (.binary b) >>= fun _ => x.out.forM (consume A e links n l.root)) >>=
          fun _ => lift x.ended >>= fun r => l.write r.2 >>= fun _ =>
            if r.1 then defaultFinish A e links n l.root else pure ()) := by
        simp only [push, bind_assoc]
    _ = (push A e links n i (feed g b x.out) >>= fun b => lift x.ended >>= fun r =>
          setOp i (.binary b) >>= fun _ => l.write r.2 >>= fun _ =>
            if r.1 then defaultFinish A e links n l.root else pure ()) := by
        rw [hfeed, bind_assoc]
        exact congrArg _ (funext fun b =>
          (Apart.lift (J := fun _ => True) x.ended).comm trivial _)
    _ = _ := congrArg _ (funext fun b => congrArg _ (funext fun r => hend b r))

theorem Represents.run {k : Nat} {vs : List τ} {fin : Bool} {p' : Plan S U B}
    (h : Represents links heads p l) (hrun : p.run A k = ⟨vs, .ok (fin, p')⟩) :
    Represents links heads p' l := by
  induction h generalizing vs fin p' with
  | source hi =>
      rw [Plan.run] at hrun
      obtain ⟨_, _, _, -, h, -⟩ := Emit.bind_eq_ok.mp hrun
      cases h
      exact .source hi
  | unary _ hl ih =>
      obtain ⟨_, p1, _, u', h1, -, h2⟩ := run_unary hrun
      split at h2
      · obtain ⟨_, u'', -, -, rfl⟩ := h2
        exact .unary (ih h1) hl
      · obtain ⟨-, rfl⟩ := h2
        exact .unary (ih h1) hl
  | @binary b p q _ _ _ hp hq hl hr hdisj ihp ihq =>
      by_cases hk : k ∈ p.labels
      · obtain ⟨_, _, p1, _, h1, -, -, rfl⟩ := run_right hk hrun
        exact .binary (ihp h1) hq hl hr hdisj
      · obtain ⟨_, _, q1, _, h1, -, -, rfl⟩ := run_left hk hrun
        exact .binary hp (ihq h1) hl hr hdisj

/-- A source of the network runs as the leaf of the plan does. -/
theorem Represents.start {k : Nat} (h : Represents links heads p l) (ha : Ascending links n)
    (hroot : (links l.root).isSome) (hk : k ∈ p.labels) :
    (l.write p >>= fun _ => start A e links n (heads k) : Run ε τ S U B Unit) =
      (push A e links n l.root (p.run A k) >>= fun r => l.write r.2 >>= fun _ =>
        if r.1 then defaultFinish A e links n l.root else pure ()) := by
  induction h with
  | @source j i s hi =>
      obtain rfl : k = j := List.mem_singleton.mp hk
      rw [hi, Plan.run, push_bind, bind_assoc]
      show (setOp i (.source s) >>= fun _ => Dataflow.start A e links n i) = _
      rw [Dataflow.start, set_get, (push_apart ha n i _).comm (Nat.le_refl i)]
      rfl
  | @unary u own p i l hp hl ih =>
      have hids : ∀ j ∈ l.ids, j < i := fun j hj =>
        Nat.lt_of_le_of_lt (hp.le_root ha j hj) (ha _ _ hl).1
      have hchild := set_child_unary ha hl hroot hids (A := A) (e := e) (u := u) (p.run A k)
      have hrec := ih (Option.isSome_iff_exists.mpr ⟨_, hl⟩) hk
      simp only [Layout.write, bind_assoc]
      rw [hrec, hchild, Plan.run]
      simp only [push_bind, bind_assoc, push_ofExcept]
      refine congrArg _ (funext fun u => congrArg _ (funext fun r => ?_))
      cases hfin : r.1 && own with
      | false =>
          simp only [Bool.false_eq_true, if_false, push_pure, pure_bind, Layout.write, bind_assoc,
            Layout.root]
      | true =>
          rw [Bool.and_eq_true] at hfin
          simp only [if_true, push_bind, bind_assoc, push_pure, pure_bind, Layout.write,
            Layout.root, hfin.1]
  | @binary b p q i l r hp hq hl hr hdisj ihp ihq =>
      have hidl : ∀ j ∈ l.ids, j < i := fun j hj =>
        Nat.lt_of_le_of_lt (hp.le_root ha j hj) (ha _ _ hl).1
      have hidr : ∀ j ∈ r.ids, j < i := fun j hj =>
        Nat.lt_of_le_of_lt (hq.le_root ha j hj) (ha _ _ hr).1
      have hnotl : i ∉ l.ids := fun h => Nat.lt_irrefl i (hidl i h)
      have hnotr : i ∉ r.ids := fun h => Nat.lt_irrefl i (hidr i h)
      by_cases hkp : k ∈ p.labels
      · have hrec := ihp (Option.isSome_iff_exists.mpr ⟨_, hl⟩) hkp
        have hchild := set_child_binary ha hl hidl (A := A) (e := e) (b := b)
          (g := A.right) (fun _ _ => rfl) (p.run A k)
        have hswap : ∀ (p' : Plan S U B) (m : Run ε τ S U B Unit),
            (l.write p' >>= fun _ => r.write q >>= fun _ => m) =
              (r.write q >>= fun _ => l.write p' >>= fun _ => m) := fun p' m =>
          ((l.write_apart p').write (fun j hj hjl => hdisj hjl hj) q fun _ => m).symm
        simp only [Layout.write, bind_assoc]
        rw [hswap, hrec, (r.write_apart q).comm hnotr, hchild, Plan.run, if_pos hkp,
          (push_apart ha n i _).write fun j hj => Nat.le_of_lt (hidr j hj)]
        simp only [push_bind, bind_assoc, push_ofExcept]
        refine congrArg _ (funext fun b => ?_)
        rw [(Apart.lift (J := fun _ => True) _).write fun _ _ => trivial]
        refine congrArg _ (funext fun r' => ?_)
        rw [push_pure, pure_bind, Layout.write, bind_assoc, bind_assoc, hswap,
          ← (r.write_apart q).comm hnotr]
        rfl
      · have hkq : k ∈ q.labels := (List.mem_append.mp hk).resolve_left hkp
        have hrec := ihq (Option.isSome_iff_exists.mpr ⟨_, hr⟩) hkq
        have hchild := set_child_binary ha hr hidr (A := A) (e := e) (b := b)
          (g := A.left) (fun _ _ => rfl) (q.run A k)
        simp only [Layout.write, bind_assoc]
        rw [hrec, (l.write_apart p).comm hnotl, hchild, Plan.run, if_neg hkp,
          (push_apart ha n i _).write fun j hj => Nat.le_of_lt (hidl j hj)]
        simp only [push_bind, bind_assoc, push_ofExcept]
        refine congrArg _ (funext fun b => ?_)
        rw [(Apart.lift (J := fun _ => True) _).write fun _ _ => trivial]
        refine congrArg _ (funext fun r' => ?_)
        rw [push_pure, pure_bind, Layout.write, bind_assoc, bind_assoc,
          ← (l.write_apart p).comm hnotl]
        rfl

end

/-! ## Whole runs -/

/-- The tuples as events. -/
def Emit.tuples (x : Emit ε τ α) : Emit ε (Event τ) α := ⟨x.out.map .tuple, x.ended⟩

/-- The leaves of some labels, one after the other, as a sink is told of them. -/
def Plan.play (A : Ops ε τ S U B) :
    List Nat → Plan S U B → Emit ε (Event τ) (Plan S U B)
  | [], p => pure p
  | k :: ks, p => do
      let r ← (p.run A k).tuples
      .tell (if r.1 then [.finish] else [])
      play A ks r.2

/-- What is told does not touch the objects. -/
def told (x : Emit ε (Event τ) α) : Run ε τ S U B α := fun σ => x >>= fun a => pure (a, σ)

/-- The objects have the operators of a plan. -/
def Layout.Holds (σ : Nat → Operator S U B) : Layout → Plan S U B → Prop
  | .source i, .source _ s => σ i = .source s
  | .unary i l, .unary u _ p => σ i = .unary u ∧ l.Holds σ p
  | .binary i l r, .binary b p q => σ i = .binary b ∧ l.Holds σ p ∧ r.Holds σ q
  | _, _ => False

/-- What a sink is told of the run of a leaf. -/
def Entry.events (e : Entry τ) : List (Event τ) :=
  e.out.map .tuple ++ if e.fin then [.finish] else []

section

variable {A : Ops ε τ S U B} {e : ε} {links : Nat → Option Connection} {heads : Nat → Nat}
  {n i s : Nat} {l : Layout} {p : Plan S U B} {σ : Nat → Operator S U B} {port : Port}

theorem emit_append (es es' : List (Event τ)) (m : Run ε τ S U B α) :
    (emit es >>= fun _ => emit es' >>= fun _ => m) = (emit (es ++ es') >>= fun _ => m) := by
  funext σ
  show (⟨es ++ (es' ++ _), _⟩ : Emit ε (Event τ) _) = ⟨es ++ es' ++ _, _⟩
  rw [List.append_assoc]
  rfl

theorem told_bind {es : List (Event τ)} {a : α} {g : α → Emit ε (Event τ) β}
    {γ : Type} (f : β → Run ε τ S U B γ) :
    (told ((⟨es, .ok a⟩ : Emit ε (Event τ) α) >>= g) >>= f) =
      (emit es >>= fun _ => told (g a) >>= f) := by
  funext σ
  show ((⟨es, .ok a⟩ >>= g) >>= fun b => pure (b, σ)) >>= (fun r => f r.1 r.2) =
    ⟨es, .ok ((), σ)⟩ >>= fun r => (g a >>= fun b => pure (b, r.2)) >>= fun r => f r.1 r.2
  rw [bind_assoc, bind_assoc, Emit.ok_bind, Emit.ok_bind, bind_assoc]

theorem set_sink_consume (ha : Ascending links n) (hl : links i = some ⟨s, port, true⟩)
    (vs : List τ) (m : Run ε τ S U B α) :
    (setOp s .sink >>= fun _ => vs.forM (consume A e links n i) >>= fun _ => m) =
      (emit (vs.map .tuple) >>= fun _ => setOp s .sink >>= fun _ => m) := by
  have hlt := ha i _ hl
  obtain ⟨n', rfl⟩ : ∃ m, n = m + 1 := ⟨n - 1, by omega⟩
  have hone : ∀ v, (consume A e links (n' + 1) i v : Run ε τ S U B Unit) =
      (getOp s >>= fun op => match op with
        | .sink => emit [.tuple v]
        | op => do
            (op.call A e port v).out.forM (consume A e links n' s)
            let op ← lift (op.call A e port v).ended
            setOp s op) := by
    intro v
    rw [consume, hl]
  induction vs with
  | nil => rfl
  | cons v vs ih =>
      show (setOp s .sink >>= fun _ => (consume A e links (n' + 1) i v >>= fun _ =>
        vs.forM (consume A e links (n' + 1) i)) >>= fun _ => m) = _
      rw [hone v, bind_assoc, bind_assoc, set_get,
        (Apart.emit (J := fun _ => True) _).comm trivial, ih, emit_append]
      rfl

theorem set_sink_finish (ha : Ascending links n) (hl : links i = some ⟨s, port, true⟩)
    (m : Run ε τ S U B α) :
    (setOp s .sink >>= fun _ => defaultFinish A e links n i >>= fun _ => m) =
      (emit [.finish] >>= fun _ => setOp s .sink >>= fun _ => m) := by
  have hlt := ha i _ hl
  obtain ⟨n', rfl⟩ : ∃ m, n = m + 1 := ⟨n - 1, by omega⟩
  rw [defaultFinish, hl]
  simp only [finishLink, if_true]
  rw [bind_assoc, set_get]
  exact (Apart.emit (J := fun _ => True) _).comm trivial _

/-- A network with a sink tells it what the plan does. -/
theorem Represents.play (h : Represents links heads p l) (ha : Ascending links n)
    (hs : links l.root = some ⟨s, port, true⟩) {ks : List Nat} (hks : ∀ k ∈ ks, k ∈ p.labels) :
    (setOp s .sink >>= fun _ => l.write p >>= fun _ =>
      ks.forM fun k => Dataflow.start A e links n (heads k)) =
    (told (p.play A ks) >>= fun p => setOp s .sink >>= fun _ => l.write p) := by
  have hnot : s ∉ l.ids := fun hmem =>
    absurd (h.le_root ha s hmem) (Nat.not_le_of_lt (ha _ _ hs).1)
  induction ks generalizing p with
  | nil =>
      show (setOp s .sink >>= fun _ => l.write p >>= fun _ => pure ()) = _
      rw [bind_pure]
      rfl
  | cons k ks ih =>
      have hstart := h.start ha (Option.isSome_iff_exists.mpr ⟨_, hs⟩)
        (hks k (List.mem_cons_self ..))
        (A := A) (e := e)
      show (setOp s .sink >>= fun _ => l.write p >>= fun _ =>
        Dataflow.start A e links n (heads k) >>= fun _ =>
          ks.forM fun k => Dataflow.start A e links n (heads k)) = _
      rw [← bind_assoc (l.write p), hstart, Plan.play]
      rcases hrun : p.run A k with ⟨vs, res⟩
      simp only [push, bind_assoc]
      rw [set_sink_consume ha hs]
      cases res with
      | error err =>
          funext σ
          show (⟨vs.map .tuple ++ [], .error err⟩ : Emit ε (Event τ) _) =
            ⟨vs.map .tuple, .error err⟩
          rw [List.append_nil]
      | ok r =>
          rcases r with ⟨fin, p'⟩
          have hrec := ih (h.run hrun) fun j hj => by
            rw [run_labels hrun]
            exact hks j (List.mem_cons_of_mem k hj)
          rw [Emit.tuples, told_bind, Emit.tell, told_bind]
          refine congrArg _ (funext fun _ => ?_)
          rw [← hrec]
          show (setOp s .sink >>= fun _ => l.write p' >>= fun _ =>
            (if fin then defaultFinish A e links n l.root else pure ()) >>= fun _ =>
              ks.forM fun k => Dataflow.start A e links n (heads k)) = _
          cases fin with
          | false =>
              funext σ
              rfl
          | true =>
              simp only [if_true]
              rw [(l.write_apart p').comm hnot, set_sink_finish ha hs,
                (Apart.emit (J := fun _ => True) _).write fun _ _ => trivial,
                ← (l.write_apart p').comm hnot]

theorem Layout.Holds.write (h : l.Holds σ p) :
    (l.write p : Run ε τ S U B Unit) σ = pure ((), σ) := by
  have hset : ∀ i op, σ i = op →
      (setOp i op : Run ε τ S U B Unit) σ = pure ((), σ) := fun i op hi => by
    rw [setOp, ← hi, Function.update_eq_self]
  induction l generalizing p with
  | source i =>
      cases p with
      | source k s => exact hset i _ h
      | unary | binary => exact h.elim
  | unary i l ih =>
      cases p with
      | unary u own p =>
          show ((setOp i (.unary u) : Run ε τ S U B Unit) σ >>= fun r =>
            (l.write p : Run ε τ S U B Unit) r.2) = _
          rw [hset i _ h.1, pure_bind]
          exact ih h.2
      | source | binary => exact h.elim
  | binary i l r ihl ihr =>
      cases p with
      | binary b p q =>
          show ((setOp i (.binary b) : Run ε τ S U B Unit) σ >>= fun x =>
            (l.write p : Run ε τ S U B Unit) x.2 >>= fun x =>
              (r.write q : Run ε τ S U B Unit) x.2) = _
          rw [hset i _ h.1, pure_bind]
          show ((l.write p : Run ε τ S U B Unit) σ >>= fun x =>
            (r.write q : Run ε τ S U B Unit) x.2) = _
          rw [ihl h.2.1, pure_bind]
          exact ihr h.2.2
      | source | unary => exact h.elim

/-- Writing operators is silent. -/
theorem Layout.write_ok (l : Layout) (p : Plan S U B) (σ : Nat → Operator S U B) :
    ∃ σ', (l.write p : Run ε τ S U B Unit) σ = pure ((), σ') := by
  induction l generalizing p σ with
  | source i =>
      cases p with
      | source | unary | binary => exact ⟨_, rfl⟩
  | unary i l ih =>
      cases p with
      | unary u own p => exact ih p _
      | source | binary => exact ⟨_, rfl⟩
  | binary i l r ihl ihr =>
      cases p with
      | binary b p q =>
          obtain ⟨σ1, h1⟩ := ihl p (Function.update σ i (.binary b))
          obtain ⟨σ2, h2⟩ := ihr q σ1
          refine ⟨σ2, ?_⟩
          show ((l.write p : Run ε τ S U B Unit) (Function.update σ i (.binary b)) >>= fun x =>
            (r.write q : Run ε τ S U B Unit) x.2) = _
          rw [h1, pure_bind]
          exact h2
      | source | unary => exact ⟨_, rfl⟩

/-- What a sink is told when the sources of a network are run, and how that
ends. -/
theorem Represents.told (h : Represents links heads p l) (ha : Ascending links n)
    (hs : links l.root = some ⟨s, port, true⟩) (hsink : σ s = .sink) (hp : l.Holds σ p)
    {ks : List Nat} (hks : ∀ k ∈ ks, k ∈ p.labels) :
    ((ks.forM fun k => Dataflow.start A e links n (heads k) : Run ε τ S U B Unit) σ).out =
        (p.play A ks).out ∧
      ((ks.forM fun k => Dataflow.start A e links n (heads k) : Run ε τ S U B Unit) σ).ended.map
          (fun _ => ()) = (p.play A ks).ended.map fun _ => () := by
  have hplay := congrFun (h.play ha hs hks (A := A) (e := e)) σ
  have hset : (setOp s .sink : Run ε τ S U B Unit) σ = pure ((), σ) := by
    rw [setOp, ← hsink, Function.update_eq_self]
  have hleft : (setOp s .sink >>= fun _ => l.write p >>= fun _ =>
      ks.forM fun k => Dataflow.start A e links n (heads k) : Run ε τ S U B Unit) σ =
        (ks.forM fun k => Dataflow.start A e links n (heads k) : Run ε τ S U B Unit) σ := by
    show ((setOp s .sink : Run ε τ S U B Unit) σ >>= fun r =>
      (l.write p : Run ε τ S U B Unit) r.2 >>= fun r =>
        (ks.forM fun k => Dataflow.start A e links n (heads k) : Run ε τ S U B Unit) r.2) = _
    rw [hset, pure_bind]
    show ((l.write p : Run ε τ S U B Unit) σ >>= fun r =>
        (ks.forM fun k => Dataflow.start A e links n (heads k) : Run ε τ S U B Unit) r.2) = _
    rw [hp.write, pure_bind]
  have hright : (Dataflow.told (p.play A ks) >>= fun p' => setOp s .sink >>= fun _ =>
      l.write p' : Run ε τ S U B Unit) σ =
        (p.play A ks >>= fun p' =>
          (l.write p' : Run ε τ S U B Unit) (Function.update σ s .sink)) :=
    bind_assoc (p.play A ks) _ _
  rw [← hleft, hplay, hright]
  rcases p.play A ks with ⟨vs, res⟩
  cases res with
  | error err => exact ⟨rfl, rfl⟩
  | ok p' =>
      obtain ⟨σ', hσ'⟩ := l.write_ok (ε := ε) (τ := τ) p' (Function.update σ s .sink)
      rw [Emit.ok_bind, hσ']
      exact ⟨List.append_nil vs, rfl⟩

end

/-! ## Runs of leaves -/

section

variable {A : Ops ε τ S U B} {p p' : Plan S U B} {es : List (Entry τ)}

theorem play_eq_ok {ks : List Nat} {vs : List (Event τ)} :
    p.play A ks = ⟨vs, .ok p'⟩ ↔ ∃ es, Runs (A := A) p es p' ∧ es.map Entry.label = ks ∧
      vs = es.flatMap Entry.events := by
  induction ks generalizing p vs with
  | nil =>
      rw [Plan.play, Emit.pure_eq, Emit.mk.injEq]
      constructor
      · rintro ⟨rfl, h⟩
        cases h
        exact ⟨[], .nil _, rfl, rfl⟩
      · rintro ⟨es, hruns, hes, rfl⟩
        rw [List.map_eq_nil_iff] at hes
        subst hes
        cases hruns
        exact ⟨rfl, rfl⟩
  | cons k ks ih =>
      rw [Plan.play]
      constructor
      · intro h
        obtain ⟨_, r, _, h1, h2, rfl⟩ := Emit.bind_eq_ok.mp h
        obtain ⟨_, _, _, h3, h4, rfl⟩ := Emit.bind_eq_ok.mp h2
        rw [Emit.tuples, Emit.mk.injEq] at h1
        rw [Emit.tell, Emit.mk.injEq] at h3
        obtain ⟨es, hruns, rfl, rfl⟩ := ih.mp h4
        refine ⟨⟨k, (p.run A k).out, r.1⟩ :: es, .cons (Emit.eq_mk h1.2) hruns, rfl, ?_⟩
        rw [← h1.1, ← h3.1, List.flatMap_cons, Entry.events, List.append_assoc]
      · rintro ⟨es, hruns, hes, rfl⟩
        cases hruns with
        | nil => cases hes
        | @cons _ p1 _ k' vs fin es hrun hruns =>
            rw [List.map_cons, List.cons.injEq] at hes
            obtain ⟨rfl, rfl⟩ := hes
            refine Emit.bind_eq_ok.mpr ⟨vs.map .tuple, (fin, p1), _, ?_, Emit.bind_eq_ok.mpr
              ⟨_, (), es.flatMap Entry.events, rfl, ih.mpr ⟨es, hruns, rfl, rfl⟩, rfl⟩, ?_⟩
            · rw [Emit.tuples, hrun]
            · rw [List.flatMap_cons, Entry.events, List.append_assoc]

/-- If the end is announced once, the sink is told all tuples, and then of the
end. -/
theorem EndsOnce.events (h : EndsOnce es) :
    es.flatMap Entry.events = (outs es).map .tuple ++ [.finish] := by
  induction h with
  | @last e he =>
      rw [List.flatMap_singleton, Entry.events, he, if_pos rfl, outs, List.flatMap_singleton]
  | @cons e es he _ ih =>
      rw [List.flatMap_cons, ih, Entry.events, he, outs_cons, List.map_append]
      simp

end

end Dataflow
