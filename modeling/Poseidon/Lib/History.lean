/-!
# Histories of versions

A history lists the versions of one object, newest first, each with the
timestamp from which on it holds. `Latest h x e` says that `e` is the version
that a reader at time `x` sees: the one with the largest timestamp not
greater than `x`. A version that is added on top does not change what
earlier readers see, which is all that snapshot reads need.
-/

namespace History

variable {β : Type} {h : List (Nat × β)} {e e' : Nat × β} {x : Nat}

/-- Newest first. -/
def Sorted (h : List (Nat × β)) : Prop := h.Pairwise fun a b => b.1 < a.1

/-- The version that a reader at time `x` sees. -/
def Latest (h : List (Nat × β)) (x : Nat) (e : Nat × β) : Prop :=
  e ∈ h ∧ e.1 ≤ x ∧ ∀ e' ∈ h, e'.1 ≤ x → e'.1 ≤ e.1

theorem Sorted.tail (hs : Sorted (e :: h)) : Sorted h := (List.pairwise_cons.mp hs).2

theorem Sorted.lt_head (hs : Sorted (e :: h)) : ∀ e' ∈ h, e'.1 < e.1 :=
  (List.pairwise_cons.mp hs).1

theorem Sorted.cons (hs : Sorted h) (hlt : ∀ e' ∈ h, e'.1 < e.1) :
    Sorted (e :: h) := List.pairwise_cons.mpr ⟨hlt, hs⟩

/-- Two versions with the same timestamp are one. -/
theorem Sorted.eq_of_fst_eq (hs : Sorted h) (he : e ∈ h) (he' : e' ∈ h)
    (heq : e.1 = e'.1) : e = e' := by
  induction h with
  | nil => cases he
  | cons a h ih =>
      rcases List.mem_cons.mp he with rfl | hin
      · rcases List.mem_cons.mp he' with rfl | hin'
        · rfl
        · have := hs.lt_head e' hin'
          omega
      · rcases List.mem_cons.mp he' with rfl | hin'
        · have := hs.lt_head e hin
          omega
        · exact ih hs.tail hin hin'

theorem Latest.unique (hs : Sorted h) (hl : Latest h x e) (hl' : Latest h x e') :
    e = e' := by
  obtain ⟨hm, hle, hmax⟩ := hl
  obtain ⟨hm', hle', hmax'⟩ := hl'
  have h1 := hmax e' hm' hle'
  have h2 := hmax' e hm hle
  exact hs.eq_of_fst_eq hm hm' (by omega)

theorem latest_head (hs : Sorted (e :: h)) (hle : e.1 ≤ x) :
    Latest (e :: h) x e := by
  refine ⟨List.mem_cons_self .., hle, ?_⟩
  intro e' he' _
  rcases List.mem_cons.mp he' with rfl | he'
  · exact Nat.le_refl _
  · exact Nat.le_of_lt (hs.lt_head e' he')

/-- A version that is added on top is not seen by earlier readers. -/
theorem latest_cons_iff (hlt : x < e.1) : Latest (e :: h) x e' ↔ Latest h x e' := by
  constructor
  · rintro ⟨hm, hle, hmax⟩
    rcases List.mem_cons.mp hm with rfl | hm
    · omega
    · exact ⟨hm, hle, fun a ha => hmax a (List.mem_cons_of_mem _ ha)⟩
  · rintro ⟨hm, hle, hmax⟩
    refine ⟨List.mem_cons_of_mem _ hm, hle, ?_⟩
    intro a ha hax
    rcases List.mem_cons.mp ha with rfl | ha
    · omega
    · exact hmax a ha hax

/-! ## Objects that come and go -/

section Births

variable {γ : Type} {root root' : Nat → β → Prop} {g : β → γ} {h : List (Nat × Option β)}
  {b : β} {t : Nat}

/-- In a history where `none` is a delete, a version is the first one of its
object and has a root, or it follows a version with the same value of `g`. -/
def Born (root : Nat → β → Prop) (g : β → γ) : List (Nat × Option β) → Prop
  | [] => True
  | (_, none) :: h => Born root g h
  | (t, some b) :: h =>
      (root t b ∨ ∃ t' b' h', h = (t', some b') :: h' ∧ g b' = g b) ∧ Born root g h

theorem Born.tail {e : Nat × Option β} (hb : Born root g (e :: h)) : Born root g h := by
  obtain ⟨t, c⟩ := e
  cases c with
  | none => exact hb
  | some b => exact hb.2

theorem Born.mono (hb : Born root g h) (hroot : ∀ t b, root t b → root' t b) :
    Born root' g h := by
  induction h with
  | nil => trivial
  | cons e h ih =>
      obtain ⟨t, c⟩ := e
      cases c with
      | none => exact ih hb
      | some b => exact ⟨hb.1.imp_left (hroot t b), ih hb.2⟩

/-- A version that is seen has a root, and from the root on the object is
seen all the time. -/
theorem Born.since (hb : Born root g h) (hs : Sorted h) (hl : Latest h x (t, some b)) :
    ∃ v b₀, root v b₀ ∧ g b₀ = g b ∧ v ≤ t ∧
      ∀ y, v ≤ y → y ≤ x → ∃ t' b', Latest h y (t', some b') ∧ g b' = g b := by
  induction h generalizing x t b with
  | nil => cases hl.1
  | cons e h ih =>
      by_cases hx : x < e.1
      · obtain ⟨v, b₀, hv, hg, hle, hall⟩ := ih hb.tail hs.tail ((latest_cons_iff hx).mp hl)
        refine ⟨v, b₀, hv, hg, hle, fun y h1 h2 => ?_⟩
        obtain ⟨t', b', hl', hg'⟩ := hall y h1 h2
        exact ⟨t', b', (latest_cons_iff (by omega)).mpr hl', hg'⟩
      · have heq := hl.unique hs (latest_head hs (by omega))
        subst heq
        have hhead : ∀ y, t ≤ y → Latest ((t, some b) :: h) y (t, some b) :=
          fun y hy => latest_head hs hy
        rcases hb.1 with hroot | ⟨t₁, b₁, h₁, rfl, hg₁⟩
        · exact ⟨t, b, hroot, rfl, Nat.le_refl _, fun y h1 _ => ⟨t, b, hhead y h1, rfl⟩⟩
        · have hlt : t₁ < t := hs.lt_head _ (List.mem_cons_self ..)
          have hl₁ : Latest ((t₁, some b₁) :: h₁) (t - 1) (t₁, some b₁) :=
            latest_head hs.tail (show t₁ ≤ t - 1 by omega)
          obtain ⟨v, b₀, hv, hg, hle, hall⟩ := ih hb.2 hs.tail hl₁
          refine ⟨v, b₀, hv, hg.trans hg₁, by omega, fun y h1 _ => ?_⟩
          by_cases hy : t ≤ y
          · exact ⟨t, b, hhead y hy, rfl⟩
          · obtain ⟨t', b', hl', hg'⟩ := hall y h1 (by omega)
            exact ⟨t', b', (latest_cons_iff (show y < t by omega)).mpr hl', hg'.trans hg₁⟩

end Births

end History
