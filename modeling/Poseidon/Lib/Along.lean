/-!
# What holds at every step of a run

A machine with a step function `next` is fed a list of inputs. `Along next P
s is` says that `P` holds of the state and the input at every step of the
run. Two such properties that agree wherever an invariant of the machine
holds agree along every run, and an invariant that needs a condition at each
step holds after every run that meets it.
-/

section

variable {σ ι : Type} (next : σ → ι → σ)

/-- `P` holds at every step of the run from `s`. -/
def Along (P : σ → ι → Prop) : σ → List ι → Prop
  | _, [] => True
  | s, i :: is => P s i ∧ Along P (next s i) is

instance decidableAlong {P : σ → ι → Prop} [∀ s i, Decidable (P s i)] :
    ∀ s is, Decidable (Along next P s is)
  | _, [] => inferInstanceAs (Decidable True)
  | s, i :: is => @instDecidableAnd _ _ _ (decidableAlong (next s i) is)

theorem along_congr {P Q : σ → ι → Prop} {Inv : σ → Prop}
    (hinv : ∀ s i, Inv s → Inv (next s i)) (heq : ∀ s i, Inv s → (P s i ↔ Q s i)) :
    ∀ (is : List ι) (s : σ), Inv s → (Along next P s is ↔ Along next Q s is) := by
  intro is
  induction is with
  | nil => exact fun _ _ => Iff.rfl
  | cons i is ih =>
      intro s hs
      rw [Along, Along, heq s i hs, ih (next s i) (hinv s i hs)]

/-- An invariant that each step keeps under its condition gives another
property of each step. -/
theorem along_of_along {P Q : σ → ι → Prop} {Inv : σ → Prop}
    (hinv : ∀ s i, Inv s → P s i → Q s i ∧ Inv (next s i)) :
    ∀ (is : List ι) (s : σ), Inv s → Along next P s is → Along next Q s is := by
  intro is
  induction is with
  | nil => exact fun _ _ _ => trivial
  | cons i is ih =>
      intro s hs hp
      obtain ⟨hq, hs'⟩ := hinv s i hs hp.1
      exact ⟨hq, ih (next s i) hs' hp.2⟩

/-- What each step keeps under its condition holds at the end of the run. -/
theorem foldl_of_along {P : σ → ι → Prop} {Inv : σ → Prop}
    (hinv : ∀ s i, Inv s → P s i → Inv (next s i)) :
    ∀ (is : List ι) (s : σ), Inv s → Along next P s is → Inv (is.foldl next s) := by
  intro is
  induction is with
  | nil => exact fun _ hs _ => hs
  | cons i is ih => exact fun s hs hp => ih (next s i) (hinv s i hs hp.1) hp.2

end
