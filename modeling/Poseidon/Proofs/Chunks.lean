import Poseidon.Vec.Chunk
import Mathlib.Data.List.Range
import Mathlib.Data.Nat.Init

/-!
# Chunks as parts of a map

`first` is the lowest free slot of a chunk, so `first_available` finds a
free slot whenever there is one. A table of chunks is a map from indices to
records, and storing a record in a slot or freeing the slot changes this map
at the index of the slot and nowhere else.
-/

namespace Poseidon

variable {α : Type}

/-! ## The lowest free slot -/

namespace Chunk

variable {n : Nat} {c : Chunk α}

/-- `first` is the lowest free slot, or `n`. -/
structure Ok (n : Nat) (c : Chunk α) : Prop where
  le : c.first ≤ n
  below : ∀ j, j < c.first → c.slots j = true
  free : c.first < n → c.slots c.first = false

theorem ok_empty [Inhabited α] : Ok n (empty : Chunk α) where
  le := Nat.zero_le n
  below := by
    intro j hj
    exact absurd hj (Nat.not_lt_zero j)
  free := fun _ => rfl

theorem isFull_iff : c.isFull n = true ↔ ∀ j, j < n → c.slots j = true := by
  rw [isFull, List.all_eq_true]
  constructor
  · intro h j hj
    exact h j (List.mem_range.mpr hj)
  · intro h j hj
    exact h j (List.mem_range.mp hj)

/-- A chunk with a free slot has its first one at `first`. -/
theorem Ok.first_lt (h : c.Ok n) (hfull : c.isFull n = false) :
    c.first < n ∧ c.slots c.first = false := by
  have hlt : c.first < n := by
    by_contra hge
    have hall : c.isFull n = true := isFull_iff.mpr fun j hj => h.below j (by omega)
    rw [hall] at hfull
    cases hfull
  exact ⟨hlt, h.free hlt⟩

theorem Ok.firstAvailable (h : c.Ok n) :
    c.firstAvailable n = if c.isFull n then none else some c.first := by
  rw [Chunk.firstAvailable]
  split
  · rfl
  · next hfull =>
      obtain ⟨hlt, hfree⟩ := h.first_lt (Bool.eq_false_iff.mpr hfull)
      rw [nextFree, List.find?_range_eq_some]
      refine ⟨by simp [hfree], List.mem_range.mpr hlt, ?_⟩
      intro j hj
      simp [hj]

/-- `set` keeps track of the lowest free slot. -/
theorem Ok.set (h : c.Ok n) {i : Nat} (hi : i < n) (b : Bool) : (c.set n i b).Ok n := by
  cases b with
  | false =>
      by_cases hlt : i < c.first
      · have hfirst : (c.set n i false).first = i := by
          simp [Chunk.set, hlt]
        refine ⟨by omega, ?_, ?_⟩
        · intro j hj
          rw [hfirst] at hj
          have hne : j ≠ i := by omega
          simp only [Chunk.set, hne, if_false]
          exact h.below j (by omega)
        · intro _
          rw [hfirst]
          simp [Chunk.set]
      · have hfirst : (c.set n i false).first = c.first := by
          simp [Chunk.set, hlt]
        refine ⟨by rw [hfirst]; exact h.le, ?_, ?_⟩
        · intro j hj
          rw [hfirst] at hj
          have hne : j ≠ i := by omega
          simp only [Chunk.set, hne, if_false]
          exact h.below j hj
        · intro hlt'
          rw [hfirst] at hlt' ⊢
          simp only [Chunk.set]
          split
          · rfl
          · exact h.free hlt'
  | true =>
      by_cases heq : i = c.first
      · -- the lowest free slot is taken: look for the next one
        subst heq
        have hbelow : ∀ j, j ≤ c.first → (c.set n c.first true).slots j = true := by
          intro j hj
          simp only [Chunk.set]
          split
          · rfl
          · exact h.below j (by omega)
        have hslots : (c.set n c.first true).slots = fun j => if j =
          c.first then true else c.slots j :=
          rfl
        have hfirst : (c.set n c.first true).first =
            (nextFree n c.first (c.set n c.first true).slots).getD n := by
          simp [Chunk.set]
        cases hnext : nextFree n c.first (c.set n c.first true).slots with
        | none =>
            rw [hnext, Option.getD_none] at hfirst
            refine ⟨by omega, ?_, by omega⟩
            intro j hj
            rw [hfirst] at hj
            by_cases hle : j ≤ c.first
            · exact hbelow j hle
            · have hno := List.find?_eq_none.mp hnext j (List.mem_range.mpr hj)
              have hge : c.first ≤ j := by omega
              simpa [hge] using hno
        | some k =>
            rw [hnext, Option.getD_some] at hfirst
            rw [nextFree, List.find?_range_eq_some] at hnext
            obtain ⟨hk, hkn, hmin⟩ := hnext
            have hkn' := List.mem_range.mp hkn
            simp only [Bool.and_eq_true, decide_eq_true_eq, Bool.not_eq_true'] at hk
            refine ⟨by omega, ?_, ?_⟩
            · intro j hj
              rw [hfirst] at hj
              by_cases hle : j ≤ c.first
              · exact hbelow j hle
              · have hno := hmin j hj
                have hge : c.first ≤ j := by omega
                simpa [hge] using hno
            · intro _
              rw [hfirst]
              exact hk.2
      · have hfirst : (c.set n i true).first = c.first := by
          simp [Chunk.set, heq]
        refine ⟨by rw [hfirst]; exact h.le, ?_, ?_⟩
        · intro j hj
          rw [hfirst] at hj
          simp only [Chunk.set]
          split
          · rfl
          · exact h.below j hj
        · intro hlt'
          rw [hfirst] at hlt' ⊢
          have hne : c.first ≠ i := fun h => heq h.symm
          simp only [Chunk.set, hne, if_false]
          exact h.free hlt'

theorem Ok.put (h : c.Ok n) (i : Nat) (o : α) : (c.put i o).Ok n :=
  ⟨h.le, h.below, h.free⟩

/-! ### Runs of `set` -/

/-- The calls of `set` one after another, with the slot and its new state. -/
def setAll (n : Nat) (c : Chunk α) (calls : List (Nat × Bool)) : Chunk α :=
  calls.foldl (fun c call => c.set n call.1 call.2) c

/-- What the calls leave the slots as: the last one for a slot decides. -/
def usedAfter (calls : List (Nat × Bool)) (used : Nat → Bool) : Nat → Bool :=
  calls.foldl (fun used call j => if j = call.1 then call.2 else used j) used

theorem Ok.setAll {calls : List (Nat × Bool)} (hcalls : ∀ call ∈ calls, call.1 < n) :
    ∀ {c : Chunk α}, c.Ok n → (c.setAll n calls).Ok n := by
  induction calls with
  | nil => exact fun h => h
  | cons call calls ih =>
      intro c h
      obtain ⟨hcall, hrest⟩ := List.forall_mem_cons.mp hcalls
      exact ih hrest (h.set hcall call.2)

theorem slots_setAll (n : Nat) (calls : List (Nat × Bool)) :
    ∀ c : Chunk α, (c.setAll n calls).slots = usedAfter calls c.slots := by
  induction calls with
  | nil => exact fun _ => rfl
  | cons call calls ih => exact fun c => ih (c.set n call.1 call.2)

/-- After any calls of `set` the hint is the lowest slot that is not used, and
`first_available` finds it whenever there is one. -/
theorem first_is_lowest_free [Inhabited α] (n : Nat) (calls : List (Nat × Bool))
    (hcalls : ∀ call ∈ calls, call.1 < n) :
    let c := (empty : Chunk α).setAll n calls
    let used := usedAfter calls fun _ => false
    ((∃ i, i < n ∧ used i = false) → c.first < n ∧ used c.first = false ∧
      (∀ i, i < c.first → used i = true) ∧ c.firstAvailable n = some c.first) ∧
    ((∀ i, i < n → used i = true) → c.first = n ∧ c.firstAvailable n = none) := by
  have hok : ((empty : Chunk α).setAll n calls).Ok n := Ok.setAll hcalls ok_empty
  have hslots : ((empty : Chunk α).setAll n calls).slots = usedAfter calls fun _ => false :=
    slots_setAll n calls empty
  dsimp only
  rw [← hslots]
  generalize (empty : Chunk α).setAll n calls = c at hok
  constructor
  · rintro ⟨i, hi, hfree⟩
    have hfull : c.isFull n = false := by
      rw [Bool.eq_false_iff, Ne, isFull_iff]
      intro hall
      rw [hall i hi] at hfree
      cases hfree
    obtain ⟨hlt, hfirst⟩ := hok.first_lt hfull
    exact ⟨hlt, hfirst, hok.below, by rw [hok.firstAvailable, hfull]; rfl⟩
  · intro hall
    have hfirst : c.first = n := by
      rcases Nat.lt_or_eq_of_le hok.le with hlt | heq
      · have hfree := hok.free hlt
        rw [hall c.first hlt] at hfree
        cases hfree
      · exact heq
    exact ⟨hfirst, by rw [hok.firstAvailable, if_pos (isFull_iff.mpr hall)]⟩

/-- A slot is taken twice and freed twice, and the chunk is filled. -/
theorem first_is_lowest_free_three :
    let c := (empty : Chunk Nat).setAll 3 [(0, true), (0, true), (2, true), (0, false), (0, false),
      (0, true)]
    c.first < 3 ∧ c.firstAvailable 3 = some c.first := by
  obtain ⟨hsome, -⟩ := first_is_lowest_free (α := Nat) 3
    [(0, true), (0, true), (2, true), (0, false), (0, false), (0, true)] (by decide)
  obtain ⟨hlt, -, -, havail⟩ := hsome ⟨1, by decide, by decide⟩
  exact ⟨hlt, havail⟩

end Chunk

/-! ## The view of a table of chunks -/

section

variable {n : Nat} {tab : Nat → Option (Chunk α)} {c : Chunk α} {k pos : Nat}

/-- An index is in a chunk at a position in one way. -/
theorem index_eq_iff (hpos : pos < n) (j : Nat) : j / n = k ∧ j % n = pos ↔ j = k * n + pos := by
  constructor
  · rintro ⟨rfl, rfl⟩
    rw [Nat.mul_comm, Nat.div_add_mod]
  · rintro rfl
    have hn : 0 < n := by omega
    rw [Nat.mul_comm, Nat.mul_add_div hn, Nat.mul_add_mod, Nat.div_eq_of_lt hpos,
      Nat.mod_eq_of_lt hpos]
    exact ⟨by omega, rfl⟩

/-- Storing a record in a slot changes the view at one index. -/
theorem chunkView_put (hc : tab k = some c) (hpos : pos < n) (o : α) (j : Nat) :
    chunkView n (fun i => if i = k then some ((c.put pos o).set n pos true) else tab i) j =
      if j = k * n + pos then some o else chunkView n tab j := by
  simp only [chunkView]
  by_cases hk : j / n = k
  · by_cases hp : j % n = pos
    · rw [if_pos ((index_eq_iff hpos j).mp ⟨hk, hp⟩), if_pos hk, Option.bind_some]
      simp [Chunk.set, Chunk.put, hp]
    · rw [if_neg fun hj => hp ((index_eq_iff hpos j).mpr hj).2, if_pos hk, Option.bind_some, hk, hc,
        Option.bind_some]
      simp [Chunk.set, Chunk.put, hp]
  · rw [if_neg fun hj => hk ((index_eq_iff hpos j).mpr hj).1, if_neg hk]

/-- Freeing a slot changes the view at one index. -/
theorem chunkView_erase (hc : tab k = some c) (hpos : pos < n) (j : Nat) :
    chunkView n (fun i => if i = k then some (c.set n pos false) else tab i) j =
      if j = k * n + pos then none else chunkView n tab j := by
  simp only [chunkView]
  by_cases hk : j / n = k
  · by_cases hp : j % n = pos
    · rw [if_pos ((index_eq_iff hpos j).mp ⟨hk, hp⟩), if_pos hk, Option.bind_some]
      simp [Chunk.set, hp]
    · rw [if_neg fun hj => hp ((index_eq_iff hpos j).mpr hj).2, if_pos hk, Option.bind_some, hk, hc,
        Option.bind_some]
      simp [Chunk.set, hp]
  · rw [if_neg fun hj => hk ((index_eq_iff hpos j).mpr hj).1, if_neg hk]

/-- A new chunk does not show. -/
theorem chunkView_grow [Inhabited α] (hc : tab k = none) (j : Nat) :
    chunkView n (fun i => if i = k then some Chunk.empty else tab i) j = chunkView n tab j := by
  simp only [chunkView]
  by_cases hk : j / n = k
  · rw [if_pos hk, hk, hc]
    rfl
  · rw [if_neg hk]

/-- The view at a slot of a chunk. -/
theorem chunkView_slot (hc : tab k = some c) (hpos : pos < n) :
    chunkView n tab (k * n + pos) = if c.slots pos then some (c.data pos) else none := by
  obtain ⟨h1, h2⟩ := (index_eq_iff (k := k) hpos (k * n + pos)).mpr rfl
  rw [chunkView, h1, h2, hc, Option.bind_some]

end

end Poseidon
