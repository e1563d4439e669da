/-!
# Weakest preconditions for state with exceptions

A computation in `EStateM` ends with a value or with an error, and in both
cases with a state. `wp x Q E s` says that from `s` it ends with a value and
state in `Q` or with an error and state in `E`; nothing is lost when an
error is thrown, so both ends are described. The rules below take a
computation apart along its binds; `wp_forM` is the rule for a loop over a
list, `wp_always` the special case where one assertion holds at both ends.
-/

namespace Wp

variable {ε σ β γ : Type}

/-- From `s`, a value of `x` is in `Q` and an error of `x` is in `E`. -/
def wp (x : EStateM ε σ β) (Q : β → σ → Prop) (E : ε → σ → Prop) (s : σ) :
    Prop :=
  match x s with
  | .ok b s' => Q b s'
  | .error e s' => E e s'

variable {Q : β → σ → Prop} {E : ε → σ → Prop} {s : σ}

instance decidableWp {x : EStateM ε σ β} [∀ b s, Decidable (Q b s)] [∀ e s, Decidable (E e s)] :
    Decidable (wp x Q E s) :=
  match hx : x s with
  | .ok b s' => decidable_of_iff (Q b s') (by rw [wp, hx])
  | .error e s' => decidable_of_iff (E e s') (by rw [wp, hx])

theorem get_apply (s : σ) : (get : EStateM ε σ σ) s = .ok s s := rfl

theorem set_apply (s' s : σ) : (set s' : EStateM ε σ PUnit) s = .ok ⟨⟩ s' := rfl

theorem modify_apply (f : σ → σ) (s : σ) :
    (modify f : EStateM ε σ PUnit) s = .ok ⟨⟩ (f s) := rfl

theorem throw_apply (e : ε) (s : σ) : (throw e : EStateM ε σ β) s = .error e s := rfl

@[simp] theorem wp_pure (b : β) :
    wp (pure b : EStateM ε σ β) Q E s ↔ Q b s := Iff.rfl

@[simp] theorem wp_throw (e : ε) :
    wp (throw e : EStateM ε σ β) Q E s ↔ E e s := Iff.rfl

@[simp] theorem wp_get {Q : σ → σ → Prop} :
    wp (get : EStateM ε σ σ) Q E s ↔ Q s s := Iff.rfl

@[simp] theorem wp_set {Q : PUnit → σ → Prop} (s' : σ) :
    wp (set s' : EStateM ε σ PUnit) Q E s ↔ Q ⟨⟩ s' := Iff.rfl

@[simp] theorem wp_modify {Q : PUnit → σ → Prop} (f : σ → σ) :
    wp (modify f : EStateM ε σ PUnit) Q E s ↔ Q ⟨⟩ (f s) := Iff.rfl

@[simp] theorem wp_bind {Q : γ → σ → Prop} (x : EStateM ε σ β)
    (f : β → EStateM ε σ γ) :
    wp (x >>= f) Q E s ↔ wp x (fun b s' => wp (f b) Q E s') E s := by
  simp only [wp, bind, EStateM.bind]
  cases x s with
  | ok b s' => rfl
  | error e s' => rfl

@[simp] theorem wp_map {Q : γ → σ → Prop} (f : β → γ) (x : EStateM ε σ β) :
    wp (f <$> x) Q E s ↔ wp x (fun b s' => Q (f b) s') E s := by
  simp only [wp, Functor.map, EStateM.map]
  cases x s with
  | ok b s' => rfl
  | error e s' => rfl

theorem wp_ite {c : Prop} [Decidable c] {x y : EStateM ε σ β}
    (hx : c → wp x Q E s) (hy : ¬ c → wp y Q E s) :
    wp (if c then x else y) Q E s := by
  split
  · next h => exact hx h
  · next h => exact hy h

/-- The consequence rule. -/
theorem wp_mono {x : EStateM ε σ β} {Q' : β → σ → Prop} {E' : ε → σ → Prop}
    (h : wp x Q E s) (hQ : ∀ b s', Q b s' → Q' b s')
    (hE : ∀ e s', E e s' → E' e s') : wp x Q' E' s := by
  simp only [wp] at h ⊢
  split at h
  · next b s' _ => exact hQ b s' h
  · next e s' _ => exact hE e s' h

/-- A sequence with an assertion in the middle. -/
theorem wp_seq {x : EStateM ε σ β} {f : β → EStateM ε σ γ} {P : β → σ → Prop}
    {Q : γ → σ → Prop} (hx : wp x P E s) (hf : ∀ b s', P b s' → wp (f b) Q E s') :
    wp (x >>= f) Q E s :=
  (wp_bind x f).mpr (wp_mono hx hf fun _ _ he => he)

/-- A sequence whose errors do not matter. -/
theorem wp_seq_any {x : EStateM ε σ β} {f : β → EStateM ε σ γ} {P : β → σ → Prop}
    {Q : γ → σ → Prop} (hx : wp x P E s)
    (hf : ∀ b s', P b s' → wp (f b) Q (fun _ _ => True) s') :
    wp (x >>= f) Q (fun _ _ => True) s :=
  (wp_bind x f).mpr (wp_mono hx hf fun _ _ _ => trivial)

theorem wp_get_bind {Q : γ → σ → Prop} {f : σ → EStateM ε σ γ} :
    wp (get >>= f) Q E s ↔ wp (f s) Q E s := Iff.rfl

theorem wp_modify_bind {Q : γ → σ → Prop} {f : σ → σ} {g : PUnit → EStateM ε σ γ} :
    wp (modify f >>= g) Q E s ↔ wp (g ⟨⟩) Q E (f s) := Iff.rfl

/-- Two things that are known about one computation. -/
theorem wp_and {x : EStateM ε σ β} {Q' : β → σ → Prop} {E' : ε → σ → Prop}
    (h : wp x Q E s) (h' : wp x Q' E' s) :
    wp x (fun b s => Q b s ∧ Q' b s) (fun e s => E e s ∧ E' e s) s := by
  simp only [wp] at h h' ⊢
  split
  · next b s' hx =>
    rw [hx] at h h'
    exact ⟨h, h'⟩
  · next e s' hx =>
    rw [hx] at h h'
    exact ⟨h, h'⟩

/-- Computations that do the same from two states. -/
theorem wp_congr {x y : EStateM ε σ β} {s' : σ} (h : x s = y s') : wp x Q E s ↔ wp y Q E s' := by
  rw [wp, wp, h]

/-- One assertion for both ends. -/
abbrev always (x : EStateM ε σ β) (P : σ → Prop) (s : σ) : Prop :=
  wp x (fun _ => P) (fun _ => P) s

theorem always_mono {x : EStateM ε σ β} {P P' : σ → Prop}
    (h : always x P s) (hP : ∀ s', P s' → P' s') : always x P' s :=
  wp_mono h (fun _ => hP) (fun _ => hP)

/-- An assertion that both computations keep is kept by their sequence. -/
theorem always_bind {x : EStateM ε σ β} {f : β → EStateM ε σ γ} {P : σ → Prop}
    (hx : always x P s) (hf : ∀ b s', P s' → always (f b) P s') :
    always (x >>= f) P s := by
  rw [always, wp_bind]
  exact wp_mono hx hf (fun _ _ h => h)

/-- The rule for a loop over a list. The assertion `P` is indexed by what is
left to do, and an iteration may end in an error. -/
theorem wp_forM {ι : Type} {f : ι → EStateM ε σ PUnit} {P : List ι → σ → Prop}
    (step : ∀ i l s, P (i :: l) s → wp (f i) (fun _ => P l) E s) :
    ∀ (l : List ι) (s : σ), P l s → wp (l.forM f) (fun _ => P []) E s := by
  intro l
  induction l with
  | nil => intro s h; exact h
  | cons i l ih =>
      intro s h
      change wp (f i >>= fun _ => l.forM f) _ _ _
      rw [wp_bind]
      exact wp_mono (step i l s h) (fun _ s' hs' => ih s' hs')
        (fun _ _ he => he)

theorem always_forM {ι : Type} {f : ι → EStateM ε σ PUnit} {P : σ → Prop}
    {l : List ι} (step : ∀ i ∈ l, ∀ s, P s → always (f i) P s) (h : P s) :
    always (l.forM f) P s := by
  induction l generalizing s with
  | nil => exact h
  | cons i l ih =>
      change always (f i >>= fun _ => l.forM f) _ _
      refine always_bind (step i (List.mem_cons_self ..) s h) ?_
      intro _ s' hs'
      exact ih (fun j hj => step j (List.mem_cons_of_mem _ hj)) hs'

/-- A computation ends as it ends. -/
theorem wp_self (x : EStateM ε σ β) (s : σ) :
    wp x (fun b s' => x s = .ok b s') (fun e s' => x s = .error e s') s := by
  simp only [wp]
  split
  · next hx => exact hx
  · next hx => exact hx

/-- What a computation really does, from what `wp` says about it. -/
theorem wp_ok {x : EStateM ε σ β} {b : β} {s' : σ} (h : wp x Q E s)
    (hx : x s = .ok b s') : Q b s' := by
  simpa only [wp, hx] using h

theorem wp_error {x : EStateM ε σ β} {e : ε} {s' : σ} (h : wp x Q E s)
    (hx : x s = .error e s') : E e s' := by
  simpa only [wp, hx] using h

theorem wp_of_ok {x : EStateM ε σ β} {b : β} {s' : σ} (hx : x s = .ok b s')
    (h : Q b s') : wp x Q E s := by
  simpa only [wp, hx] using h

/-- A sequence goes on from where its first part ended. -/
theorem bind_ok {x : EStateM ε σ β} {f : β → EStateM ε σ γ} {b : β} {s' : σ}
    (h : x s = .ok b s') : (x >>= f) s = f b s' := by
  change EStateM.bind x f s = _
  unfold EStateM.bind
  rw [h]

theorem map_ok {x : EStateM ε σ β} {f : β → γ} {b : β} {s' : σ} (h : x s = .ok b s') :
    (f <$> x) s = .ok (f b) s' := by
  change EStateM.map f x s = _
  unfold EStateM.map
  rw [h]

/-- A computation that cannot fail has a value. -/
theorem wp_exists {x : EStateM ε σ β} (h : wp x Q (fun _ _ => False) s) :
    ∃ b s', x s = .ok b s' ∧ Q b s' := by
  simp only [wp] at h
  split at h
  · next b s' hx => exact ⟨b, s', hx, h⟩
  · exact h.elim

/-- A computation that has no value fails. -/
theorem wp_exists_error {x : EStateM ε σ β} (h : wp x (fun _ _ => False) E s) :
    ∃ e s', x s = .error e s' ∧ E e s' := by
  simp only [wp] at h
  split at h
  · exact h.elim
  · next e s' hx => exact ⟨e, s', hx, h⟩

/-- A computation that ends well exactly under a condition. -/
theorem wp_exists_iff {x : EStateM ε σ β} {R : Prop}
    (h : wp x (fun b s' => Q b s' ↔ R) (fun _ _ => ¬R) s) :
    (∃ b s', x s = .ok b s' ∧ Q b s') ↔ R := by
  simp only [wp] at h
  constructor
  · rintro ⟨b, s', hx, hq⟩
    rw [hx] at h
    exact h.mp hq
  · intro hr
    split at h
    · next b s' hx => exact ⟨b, s', hx, h.mpr hr⟩
    · exact absurd hr h

end Wp
