import Poseidon.Bp.PagedFile
import Poseidon.Lib.Wp

/-!
# What a call of a paged file does

The pages of a file can be read and written when they are in use. Files that
give up pages only all at once have their pages in use at the front: a page
is allocated where the first one is missing.
-/

namespace Poseidon

open Wp

namespace PagedFile

variable {P : Type} {f : PagedFile P} {u : Nat} {zero : P}

theorem readPage_wp {raw : Nat} {Q : P → PagedFile P → Prop}
    {E : BpErr → PagedFile P → Prop} (hok : f.holds raw = true → Q (f.pages (raw - 1)) f)
    (herr : f.holds raw = false → ∀ e, e ≠ .bufferpoolOverrun → E e f) :
    wp (readPage raw) Q E f := by
  simp only [readPage, wp_bind, wp_get]
  refine wp_ite hok fun hh => ?_
  have hh' := Bool.eq_false_iff.mpr hh
  refine wp_ite (fun _ => ?_) fun _ => ?_
  · exact herr hh' .outOfRange (by decide)
  · exact herr hh' .indexOutOfRange (by decide)

theorem writePage_wp {raw : Nat} {pg : P} {Q : PUnit → PagedFile P → Prop}
    {E : BpErr → PagedFile P → Prop} (hok : f.holds raw = true → Q ⟨⟩ (f.writeAt (raw - 1) pg))
    (herr : f.holds raw = false → ∀ e, e ≠ .bufferpoolOverrun → E e f) :
    wp (writePage raw pg) Q E f := by
  simp only [writePage, wp_bind, wp_get]
  refine wp_ite hok fun hh => ?_
  have hh' := Bool.eq_false_iff.mpr hh
  refine wp_ite (fun _ => ?_) fun _ => wp_ite (fun _ => ?_) fun _ => ?_
  · exact herr hh' .indexOutOfRange (by decide)
  · exact herr hh' .outOfRange (by decide)
  · exact herr hh' .indexOutOfRange (by decide)

/-- The last page is in use, and none behind it. -/
theorem lastUsed_eq {i : Nat} (hi : i < f.npages) (hs : f.slots i = true)
    (hafter : ∀ j, i < j → j < f.npages → f.slots j = false) : f.lastUsed = some i := by
  have hsplit : List.range f.npages =
      List.range i ++ i :: List.range' (i + 1) (f.npages - (i + 1)) := by
    have happ := List.range'_append_1 (s := 0) (m := i) (n := f.npages - (i + 1) + 1)
    rw [Nat.zero_add] at happ
    rw [List.range_eq_range', List.range_eq_range', ← List.range'_succ, happ]
    congr 1
    omega
  rw [lastUsed, List.find?_eq_some_iff_append]
  refine ⟨hs, (List.range' (i + 1) (f.npages - (i + 1))).reverse, (List.range i).reverse, ?_, ?_⟩
  · rw [hsplit]
    simp
  · intro j hj
    rw [List.mem_reverse, List.mem_range'_1] at hj
    rw [hafter j (by omega) (by omega)]
    rfl

/-! ## Files whose pages in use come first -/

/-- The page that is allocated next. -/
def nextPage (f : PagedFile P) : Nat := f.findFirstSlot.getD f.npages

/-- The first `u` pages are those in use. -/
structure Packed (f : PagedFile P) (u : Nat) : Prop where
  used : ∀ i, f.slots i = true ↔ i < u
  le : u ≤ maxPages

theorem Packed.le_npages (h : f.Packed u) : u ≤ f.npages := by
  by_contra hlt
  have := f.used_lt f.npages ((h.used _).mpr (by omega))
  omega

theorem Packed.slots_eq (h : f.Packed u) (i : Nat) : f.slots i = decide (i < u) := by
  rw [Bool.eq_iff_iff, h.used, decide_eq_true_iff]

theorem Packed.holds_iff (h : f.Packed u) (k : Nat) : f.holds (k + 1) = true ↔ k < u := by
  have := h.le
  simp only [holds, Nat.add_sub_cancel, h.slots_eq, Bool.and_eq_true, decide_eq_true_iff]
  constructor
  · exact fun hk => hk.2
  · exact fun hk => ⟨⟨by simp, by omega⟩, hk⟩

theorem Packed.findFirstSlot (h : f.Packed u) :
    f.findFirstSlot = if u < f.npages then some u else none := by
  rw [PagedFile.findFirstSlot]
  split
  · next hlt =>
      rw [List.find?_range_eq_some]
      refine ⟨by simp [h.slots_eq], List.mem_range.mpr hlt, ?_⟩
      intro j hj
      simp [h.slots_eq, hj]
  · rw [List.find?_eq_none]
    intro i hi
    have := List.mem_range.mp hi
    simp only [h.slots_eq, Bool.not_eq_true', decide_eq_false_iff_not]
    omega

theorem Packed.nextPage (h : f.Packed u) : f.nextPage = u := by
  have := h.le_npages
  rw [PagedFile.nextPage, h.findFirstSlot]
  split
  · rfl
  · show f.npages = u
    omega

theorem Packed.lastUsed (h : f.Packed (u + 1)) : f.lastUsed = some u := by
  have hle := h.le_npages
  refine lastUsed_eq (by omega) (by simp [h.slots_eq]) fun j hj _ => ?_
  rw [h.slots_eq, decide_eq_false_iff_not]
  omega

/-- The page after those in use is allocated, when there is a bit for it. -/
theorem Packed.allocatePage_wp (h : f.Packed u) {Q : Nat → PagedFile P → Prop}
    {E : BpErr → PagedFile P → Prop}
    (hok : u < maxPages → ∀ g : PagedFile P, g.Packed (u + 1) → g.npages = max f.npages (u + 1) →
      (g.pages = fun j => if j = u then zero else f.pages j) → Q (u + 1) g)
    (herr : u = maxPages → ∀ g : PagedFile P, g.Packed u →
      (∀ j, j < u → g.pages j = f.pages j) → E .outOfRange g) :
    wp (PagedFile.allocatePage zero) Q E f := by
  have hle := h.le_npages
  have hmax := h.le
  have hused : ∀ i, (decide (i = u) || f.slots i) = true ↔ i < u + 1 := by
    intro i
    rw [Bool.or_eq_true, decide_eq_true_iff, h.used]
    omega
  simp only [PagedFile.allocatePage, wp_bind, wp_get]
  split
  · next i hi =>
      rw [h.findFirstSlot] at hi
      split at hi
      · next hfree =>
          cases hi
          refine wp_ite (fun hlt => ?_) fun hge => ?_
          · refine hok hlt _ ⟨hused, by omega⟩ ?_ rfl
            show f.npages = _
            omega
          · exact herr (by omega) f h fun _ _ => rfl
      · cases hi
  · next hi =>
      rw [h.findFirstSlot] at hi
      split at hi
      · cases hi
      · have heq : f.npages = u := by omega
        subst heq
        simp only [wp_bind, wp_set]
        refine wp_ite (fun hlt => ?_) fun hge => ?_
        · refine hok hlt _ ⟨hused, by omega⟩ ?_ rfl
          show f.npages + 1 = _
          omega
        · refine herr (by omega) _ ⟨h.used, h.le⟩ fun j hj => ?_
          exact if_neg (by omega)

theorem Packed.lastValidPage_wp (h : f.Packed (u + 1)) {Q : Nat → PagedFile P → Prop}
    {E : BpErr → PagedFile P → Prop} (hok : f.npages ≤ maxPages → Q (u + 1) f)
    (herr : maxPages < f.npages → E .outOfRange f) :
    wp (PagedFile.lastValidPage zero) Q E f := by
  simp only [PagedFile.lastValidPage, wp_bind, wp_get, h.lastUsed]
  refine wp_ite herr fun hge => ?_
  exact hok (Nat.not_lt.mp hge)

theorem Packed.readPage_wp (h : f.Packed u) {k : Nat} {Q : P → PagedFile P → Prop}
    {E : BpErr → PagedFile P → Prop} (hok : k < u → Q (f.pages k) f)
    (herr : ¬k < u → ∀ e, E e f) : wp (PagedFile.readPage (k + 1)) Q E f := by
  refine PagedFile.readPage_wp (fun hh => hok ((h.holds_iff k).mp hh)) fun hh e _ => ?_
  refine herr (fun hk => ?_) e
  rw [(h.holds_iff k).mpr hk] at hh
  cases hh

theorem Packed.writeAt (h : f.Packed u) (k : Nat) (pg : P) : (f.writeAt k pg).Packed u :=
  ⟨h.used, h.le⟩

end PagedFile

end Poseidon
