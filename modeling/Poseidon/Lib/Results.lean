import Mathlib.Data.List.Basic

/-!
# Lists of computations that can fail

Maps and folds over a list whose steps return an `Except`: the first step
that fails decides. The rules say what such a loop is when its steps are
known.
-/

namespace Results

variable {α β γ ε : Type} {f f' : α → Except ε β} {xs : List α}

@[simp] theorem ok_bind (a : α) (f : α → Except ε β) : (.ok a >>= f) = f a := rfl

@[simp] theorem error_bind (e : ε) (f : α → Except ε β) :
    ((.error e : Except ε α) >>= f) = .error e := rfl

theorem bind_eq_ok {x : Except ε α} {b : β} (h : (x >>= f) = .ok b) :
    ∃ a, x = .ok a ∧ f a = .ok b := by
  cases x with
  | error e => cases h
  | ok a => exact ⟨a, rfl, h⟩

theorem map_eq_ok {x : Except ε α} {g : α → β} {b : β} (h : x.map g = .ok b) :
    ∃ a, x = .ok a ∧ g a = b := by
  cases x with
  | error e => cases h
  | ok a =>
      cases h
      exact ⟨a, rfl, rfl⟩

theorem mapM_congr (h : ∀ x ∈ xs, f x = f' x) : xs.mapM f = xs.mapM f' := by
  induction xs with
  | nil => rfl
  | cons x xs ih =>
      rw [List.mapM_cons, List.mapM_cons, h x (List.mem_cons_self ..),
        ih fun y hy => h y (List.mem_cons_of_mem _ hy)]

/-- All steps succeed. -/
theorem mapM_ok {g : α → β} (h : ∀ x ∈ xs, f x = .ok (g x)) : xs.mapM f = .ok (xs.map g) := by
  induction xs with
  | nil => rfl
  | cons x xs ih =>
      rw [List.mapM_cons, h x (List.mem_cons_self ..),
        ih fun y hy => h y (List.mem_cons_of_mem _ hy)]
      rfl

/-- What is done to the results can be done afterwards. -/
theorem mapM_map (g : β → γ) (xs : List α) :
    xs.mapM (fun x => (f x).map g) = (xs.mapM f).map (List.map g) := by
  induction xs with
  | nil => rfl
  | cons x xs ih =>
      rw [List.mapM_cons, List.mapM_cons, ih]
      cases f x with
      | error e => rfl
      | ok b =>
          cases xs.mapM f with
          | error e => rfl
          | ok bs => rfl

theorem mapError_ok {ε' : Type} {x : Except ε α} {g : ε → ε'} {a : α}
    (h : x.mapError g = .ok a) : x = .ok a := by
  cases x with
  | error e => cases h
  | ok b =>
      cases h
      rfl

/-- The error can be renamed afterwards. -/
theorem mapM_mapError {ε' : Type} (g : ε → ε') (xs : List α) :
    xs.mapM (fun x => (f x).mapError g) = (xs.mapM f).mapError g := by
  induction xs with
  | nil => rfl
  | cons x xs ih =>
      rw [List.mapM_cons, List.mapM_cons, ih]
      cases f x with
      | error e => rfl
      | ok b =>
          cases xs.mapM f with
          | error e => rfl
          | ok bs => rfl

theorem foldlM_mapError {ε' : Type} (g : ε → ε') (step : β → α → Except ε β) (b : β)
    (xs : List α) :
    xs.foldlM (fun b x => (step b x).mapError g) b = (xs.foldlM step b).mapError g := by
  induction xs generalizing b with
  | nil => rfl
  | cons x xs ih =>
      rw [List.foldlM_cons, List.foldlM_cons]
      cases step b x with
      | error e => rfl
      | ok b' => exact ih b'

/-- The results can be computed first. -/
theorem foldlM_map (g : γ → β → γ) (c : γ) (xs : List α) :
    xs.foldlM (fun c x => (f x).map (g c)) c = (xs.mapM f).map (List.foldl g c) := by
  induction xs generalizing c with
  | nil => rfl
  | cons x xs ih =>
      rw [List.foldlM_cons, List.mapM_cons]
      cases f x with
      | error e => rfl
      | ok b =>
          show xs.foldlM (fun c x => (f x).map (g c)) (g c b) = _
          rw [ih]
          cases xs.mapM f with
          | error e => rfl
          | ok bs => rfl

theorem mapM_length {ys : List β} (h : xs.mapM f = .ok ys) : ys.length = xs.length := by
  induction xs generalizing ys with
  | nil =>
      cases h
      rfl
  | cons x xs ih =>
      rw [List.mapM_cons] at h
      obtain ⟨y, -, h⟩ := bind_eq_ok h
      obtain ⟨ys', hys, h⟩ := bind_eq_ok h
      cases h
      rw [List.length_cons, List.length_cons, ih hys]

/-- Each result comes from an element. -/
theorem mem_of_mapM {ys : List β} {y : β} (h : xs.mapM f = .ok ys) (hy : y ∈ ys) :
    ∃ x ∈ xs, f x = .ok y := by
  induction xs generalizing ys with
  | nil =>
      cases h
      cases hy
  | cons x xs ih =>
      rw [List.mapM_cons] at h
      obtain ⟨y', hy', h⟩ := bind_eq_ok h
      obtain ⟨ys', hys, h⟩ := bind_eq_ok h
      cases h
      rcases List.mem_cons.mp hy with rfl | hy
      · exact ⟨x, List.mem_cons_self .., hy'⟩
      · obtain ⟨z, hz, hf⟩ := ih hys hy
        exact ⟨z, List.mem_cons_of_mem _ hz, hf⟩

/-- The result of each element is there. -/
theorem mem_mapM {ys : List β} {x : α} (h : xs.mapM f = .ok ys) (hx : x ∈ xs) :
    ∃ y, f x = .ok y ∧ y ∈ ys := by
  induction xs generalizing ys with
  | nil => cases hx
  | cons z zs ih =>
      rw [List.mapM_cons] at h
      obtain ⟨y, hy, h⟩ := bind_eq_ok h
      obtain ⟨ys', hys, h⟩ := bind_eq_ok h
      cases h
      rcases List.mem_cons.mp hx with rfl | hx
      · exact ⟨y, hy, List.mem_cons_self ..⟩
      · obtain ⟨y', hy', hmem⟩ := ih hys hx
        exact ⟨y', hy', List.mem_cons_of_mem _ hmem⟩

/-- In another order the results come in that order. -/
theorem mapM_perm {xs' : List α} {ys : List β} (hp : xs.Perm xs') (h : xs.mapM f = .ok ys) :
    ∃ ys', xs'.mapM f = .ok ys' ∧ ys.Perm ys' := by
  induction hp generalizing ys with
  | nil => exact ⟨ys, h, .refl _⟩
  | cons x _ ih =>
      rw [List.mapM_cons] at h
      obtain ⟨y, hy, h⟩ := bind_eq_ok h
      obtain ⟨ys', hys, h⟩ := bind_eq_ok h
      cases h
      obtain ⟨zs, hzs, hperm⟩ := ih hys
      refine ⟨y :: zs, ?_, hperm.cons y⟩
      rw [List.mapM_cons, hy, hzs]
      rfl
  | swap x x' l =>
      rw [List.mapM_cons, List.mapM_cons] at h
      obtain ⟨y', hy', h⟩ := bind_eq_ok h
      obtain ⟨ys', hys, h⟩ := bind_eq_ok h
      cases h
      obtain ⟨y, hy, hys⟩ := bind_eq_ok hys
      obtain ⟨zs, hzs, hys⟩ := bind_eq_ok hys
      cases hys
      refine ⟨y :: y' :: zs, ?_, .swap ..⟩
      rw [List.mapM_cons, List.mapM_cons, hy, hy', hzs]
      rfl
  | trans _ _ ih ih' =>
      obtain ⟨zs, hzs, hperm⟩ := ih h
      obtain ⟨ws, hws, hperm'⟩ := ih' hzs
      exact ⟨ws, hws, hperm.trans hperm'⟩

/-- Two lists with the same keys, whose elements with one key have the same
result. -/
theorem mapM_eq_of_keys {κ : Type} {f' : γ → Except ε β} {key : α → κ} {key' : γ → κ}
    {xs' : List γ} (hkeys : xs.map key = xs'.map key')
    (h : ∀ x ∈ xs, ∀ x' ∈ xs', key x = key' x' → ∃ y, f x = .ok y ∧ f' x' = .ok y) :
    ∃ ys, xs.mapM f = .ok ys ∧ xs'.mapM f' = .ok ys := by
  induction xs generalizing xs' with
  | nil =>
      obtain rfl := List.map_eq_nil_iff.mp hkeys.symm
      exact ⟨[], rfl, rfl⟩
  | cons x xs ih =>
      cases xs' with
      | nil => cases hkeys
      | cons x' xs' =>
          obtain ⟨hkey, hrest⟩ := List.cons.inj hkeys
          obtain ⟨y, hy, hy'⟩ := h x (List.mem_cons_self ..) x' (List.mem_cons_self ..) hkey
          obtain ⟨ys, hys, hys'⟩ := ih hrest fun a ha b hb =>
            h a (List.mem_cons_of_mem _ ha) b (List.mem_cons_of_mem _ hb)
          refine ⟨y :: ys, ?_, ?_⟩
          · rw [List.mapM_cons, hy, hys]
            rfl
          · rw [List.mapM_cons, hy', hys']
            rfl

/-- Steps that give at most one element each. -/
theorem length_flatten_le {f : α → Except ε (List β)}
    (hf : ∀ x ∈ xs, ∀ ys, f x = .ok ys → ys.length ≤ 1) {yss : List (List β)}
    (h : xs.mapM f = .ok yss) : yss.flatten.length ≤ xs.length := by
  induction xs generalizing yss with
  | nil =>
      cases h
      exact Nat.le_refl _
  | cons x xs ih =>
      rw [List.mapM_cons] at h
      obtain ⟨ys, hys, h⟩ := bind_eq_ok h
      obtain ⟨yss', hyss, h⟩ := bind_eq_ok h
      cases h
      have hhead := hf x (List.mem_cons_self ..) ys hys
      have htail := ih (fun y hy => hf y (List.mem_cons_of_mem _ hy)) hyss
      rw [List.flatten_cons, List.length_append, List.length_cons]
      omega

/-- What every step keeps is kept by a fold that succeeds. -/
theorem foldlM_inv {step : β → α → Except ε β} {I : β → Prop} {b b' : β}
    (hstep : ∀ b, ∀ x ∈ xs, ∀ b', I b → step b x = .ok b' → I b') (hb : I b)
    (h : xs.foldlM step b = .ok b') : I b' := by
  induction xs generalizing b with
  | nil =>
      cases h
      exact hb
  | cons x xs ih =>
      rw [List.foldlM_cons] at h
      obtain ⟨c, hc, h⟩ := bind_eq_ok h
      exact ih (fun b y hy => hstep b y (List.mem_cons_of_mem _ hy))
        (hstep b x (List.mem_cons_self ..) c hb hc) h

end Results
