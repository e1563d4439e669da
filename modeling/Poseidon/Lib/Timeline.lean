import Mathlib.Order.Lattice

/-!
# Timelines

The versions of one thing over time: half-open intervals that do not overlap,
the newest first. The end of an interval that is still open is a time `far`
that is after all others. A timeline is closed by ending its open interval,
and extended by a new open one; in both cases at a time after everything in
it. At every time at most one version is valid.
-/

/-- Valid from `start` on and before `stop`. -/
structure Span (τ : Type) where
  start : τ
  stop : τ
  deriving DecidableEq, Repr

/-- The versions of one thing, the newest first. -/
structure Timeline (τ : Type) [LinearOrder τ] where
  spans : List (Span τ)
  ordered : spans.Pairwise fun newer older => older.stop ≤ newer.start
  proper : ∀ v ∈ spans, v.start < v.stop

namespace Timeline

variable {τ : Type} [LinearOrder τ] {far t : τ} {T : Timeline τ} {v w : Span τ}

/-- Nothing was ever valid. -/
def empty : Timeline τ := ⟨[], .nil, fun _ h => (nomatch h)⟩

/-- The time `t` is after all times in the timeline. -/
structure Before (far : τ) (T : Timeline τ) (t : τ) : Prop where
  finite : t < far
  after : ∀ v ∈ T.spans, v.start < t ∧ (v.stop = far ∨ v.stop ≤ t)

/-- End a version that is still open. -/
def closeSpan (far t : τ) (v : Span τ) : Span τ :=
  if v.stop = far then { v with stop := t } else v

/-- The version that is valid at a time. -/
def find (T : Timeline τ) (t : τ) : Option (Span τ) :=
  T.spans.find? fun v => v.start ≤ t ∧ t < v.stop

theorem before_empty (h : t < far) : (empty : Timeline τ).Before far t :=
  ⟨h, fun _ hv => (by cases hv)⟩

/-! ## Order -/

/-- Of two versions one ends before the other begins. -/
theorem apart (T : Timeline τ) (hv : v ∈ T.spans) (hw : w ∈ T.spans) :
    v = w ∨ v.stop ≤ w.start ∨ w.stop ≤ v.start := by
  have h := T.ordered
  generalize T.spans = l at h hv hw
  induction l with
  | nil => cases hv
  | cons u l ih =>
      obtain ⟨hu, hl⟩ := List.pairwise_cons.mp h
      rcases List.mem_cons.mp hv with heq | hv'
      · rcases List.mem_cons.mp hw with heq' | hw'
        · exact .inl (heq.trans heq'.symm)
        · exact .inr (.inr (heq ▸ hu w hw'))
      · rcases List.mem_cons.mp hw with heq' | hw'
        · exact .inr (.inl (heq' ▸ hu v hv'))
        · exact ih hl hv' hw'

theorem eq_of_start (hv : v ∈ T.spans) (hw : w ∈ T.spans) (h : v.start = w.start) : v = w := by
  rcases T.apart hv hw with heq | hle | hle
  · exact heq
  · exact absurd (T.proper v hv) (not_lt.mpr (h ▸ hle))
  · exact absurd (T.proper w hw) (not_lt.mpr (h ▸ hle))

/-- A version that starts before another one ends before the other begins. -/
theorem stop_le_of_start_lt (hv : v ∈ T.spans) (hw : w ∈ T.spans) (h : v.start < w.start) :
    v.stop ≤ w.start := by
  rcases T.apart hv hw with rfl | hle | hle
  · exact absurd h (lt_irrefl _)
  · exact hle
  · exact absurd ((T.proper w hw).trans_le hle) (not_lt.mpr h.le)

theorem find_eq_some : T.find t = some v ↔ v ∈ T.spans ∧ v.start ≤ t ∧ t < v.stop := by
  constructor
  · intro h
    have hp := List.find?_some h
    exact ⟨List.mem_of_find?_eq_some h, by simpa using hp⟩
  · rintro ⟨hv, hlo, hhi⟩
    cases hf : T.find t with
    | none =>
        have hno := List.find?_eq_none.mp hf v hv
        simp [hlo, hhi] at hno
    | some w =>
        have hp := List.find?_some hf
        simp only [decide_eq_true_eq] at hp
        rcases T.apart hv (List.mem_of_find?_eq_some hf) with rfl | hle | hle
        · rfl
        · exact absurd (hhi.trans_le (hle.trans hp.1)) (lt_irrefl _)
        · exact absurd (hp.2.trans_le (hle.trans hlo)) (lt_irrefl _)

theorem find_eq_none : T.find t = none ↔ ∀ v ∈ T.spans, v.start ≤ t → v.stop ≤ t := by
  rw [find, List.find?_eq_none]
  refine forall_congr' fun v => forall_congr' fun _ => ?_
  simp

/-- If a version has begun, there is one that began last. -/
theorem exists_latest (T : Timeline τ) (t : τ) : (∀ v ∈ T.spans, t < v.start) ∨
    ∃ v ∈ T.spans, v.start ≤ t ∧ ∀ w ∈ T.spans, w.start ≤ t → w.start ≤ v.start := by
  generalize T.spans = l
  induction l with
  | nil => exact .inl fun _ h => (by cases h)
  | cons u l ih =>
      rcases lt_or_ge t u.start with hu | hu
      · rcases ih with hno | ⟨v, hv, hle, hmax⟩
        · refine .inl fun v hv => ?_
          rcases List.mem_cons.mp hv with rfl | hv
          · exact hu
          · exact hno v hv
        · refine .inr ⟨v, List.mem_cons_of_mem _ hv, hle, fun w hw hwt => ?_⟩
          rcases List.mem_cons.mp hw with rfl | hw
          · exact absurd hwt (not_le.mpr hu)
          · exact hmax w hw hwt
      · right
        rcases ih with hno | ⟨v, hv, hle, hmax⟩
        · refine ⟨u, List.mem_cons_self .., hu, fun w hw hwt => ?_⟩
          rcases List.mem_cons.mp hw with rfl | hw
          · exact le_refl _
          · exact absurd hwt (not_le.mpr (hno w hw))
        · rcases le_total u.start v.start with huv | huv
          · refine ⟨v, List.mem_cons_of_mem _ hv, hle, fun w hw hwt => ?_⟩
            rcases List.mem_cons.mp hw with rfl | hw
            · exact huv
            · exact hmax w hw hwt
          · refine ⟨u, List.mem_cons_self .., hu, fun w hw hwt => ?_⟩
            rcases List.mem_cons.mp hw with rfl | hw
            · exact le_refl _
            · exact (hmax w hw hwt).trans huv

/-- Only the version that began last can be valid. -/
theorem find_latest (hv : v ∈ T.spans) (hlo : v.start ≤ t)
    (hmax : ∀ w ∈ T.spans, w.start ≤ t → w.start ≤ v.start) :
    T.find t = if t < v.stop then some v else none := by
  split
  · next hlt => exact find_eq_some.mpr ⟨hv, hlo, hlt⟩
  · next hge =>
    refine find_eq_none.mpr fun w hw hwt => ?_
    rcases (hmax w hw hwt).eq_or_lt with heq | hlt
    · rw [eq_of_start hw hv heq]
      exact not_lt.mp hge
    · exact (stop_le_of_start_lt hw hv hlt).trans hlo

/-! ## Closing and extending -/

theorem closeSpan_start : (closeSpan far t v).start = v.start := by
  rw [closeSpan]
  split
  · rfl
  · rfl

theorem closeSpan_stop_le (h : T.Before far t) (hv : v ∈ T.spans) :
    (closeSpan far t v).stop ≤ t := by
  rw [closeSpan]
  split
  · exact le_refl t
  · next hne => exact (h.after v hv).2.resolve_left hne

/-- The timeline with its open version ended at `t`. -/
def close (far : τ) (T : Timeline τ) (t : τ) (h : T.Before far t) : Timeline τ where
  spans := T.spans.map (closeSpan far t)
  ordered := by
    refine List.pairwise_map.mpr (T.ordered.imp_of_mem fun {v w} hv hw hle => ?_)
    rw [closeSpan_start, closeSpan]
    split
    · next hfar =>
      -- the older version would be open
      have hlt := ((h.after v hv).1).trans h.finite
      exact absurd (hfar ▸ hle) (not_le.mpr hlt)
    · exact hle
  proper := by
    intro v hv
    obtain ⟨u, hu, rfl⟩ := List.mem_map.mp hv
    rw [closeSpan_start, closeSpan]
    split
    · exact (h.after u hu).1
    · exact T.proper u hu

/-- The timeline with a new version from `t` on. -/
def extend (far : τ) (T : Timeline τ) (t : τ) (h : T.Before far t) : Timeline τ where
  spans := ⟨t, far⟩ :: (T.close far t h).spans
  ordered := by
    refine List.pairwise_cons.mpr ⟨fun v hv => ?_, (T.close far t h).ordered⟩
    obtain ⟨u, hu, rfl⟩ := List.mem_map.mp hv
    exact closeSpan_stop_le h hu
  proper := by
    intro v hv
    rcases List.mem_cons.mp hv with rfl | hv
    · exact h.finite
    · exact (T.close far t h).proper v hv

theorem mem_close {h : T.Before far t} :
    w ∈ (T.close far t h).spans ↔ ∃ v ∈ T.spans, closeSpan far t v = w := List.mem_map

theorem mem_extend {h : T.Before far t} :
    w ∈ (T.extend far t h).spans ↔ w = ⟨t, far⟩ ∨ ∃ v ∈ T.spans, closeSpan far t v = w := by
  rw [extend, List.mem_cons, mem_close]

end Timeline
