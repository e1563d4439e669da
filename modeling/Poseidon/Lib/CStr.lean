import Mathlib.Data.List.Basic

/-!
# Strings packed one after the other

Memory is a function from addresses to bytes, `put` is `memcpy` and `cstr`
reads a string up to its zero byte. `pack` is the image of a list of strings
that are stored one after the other, each with its zero byte, and `places`
says where each of them starts. A string without a zero byte is read back
from where it was put, whatever stands behind it.
-/

namespace CStr

/-- The bytes from `p` to the next zero byte, which has to be one of the next
`fuel`. -/
def cstrFrom (data : Nat → UInt8) : Nat → Nat → Option (List UInt8)
  | 0, _ => none
  | fuel + 1, p => if data p = 0 then some [] else (cstrFrom data fuel (p + 1)).map (data p :: ·)

/-- The string at `p` in a memory of `limit` bytes. -/
def cstr (data : Nat → UInt8) (limit p : Nat) : Option (List UInt8) := cstrFrom data (limit - p) p

/-- `memcpy(&data[p], bs, bs.length)`. -/
def put (data : Nat → UInt8) (p : Nat) (bs : List UInt8) : Nat → UInt8 := fun i =>
  if p ≤ i ∧ i < p + bs.length then bs.getD (i - p) 0 else data i

/-- The bytes `bs` stand at `p`. -/
def Lies (data : Nat → UInt8) : Nat → List UInt8 → Prop
  | _, [] => True
  | p, b :: bs => data p = b ∧ Lies data (p + 1) bs

/-- The image of strings that are stored one after the other. -/
def pack (ss : List (List UInt8)) : List UInt8 := ss.flatMap fun s => s ++ [0]

/-- The strings of a packed image, each with the address it starts at. -/
def places : Nat → List (List UInt8) → List (List UInt8 × Nat)
  | _, [] => []
  | p, s :: ss => (s, p) :: places (p + s.length + 1) ss

variable {data data' : Nat → UInt8} {p q limit c : Nat} {s bs cs : List UInt8}
  {ss ts : List (List UInt8)}

theorem lies_append : Lies data p (bs ++ cs) ↔ Lies data p bs ∧ Lies data (p + bs.length) cs := by
  induction bs generalizing p with
  | nil => simp [Lies]
  | cons b bs ih =>
      have hlen : p + 1 + bs.length = p + (b :: bs).length := by simp; omega
      rw [List.cons_append, Lies, Lies, ih, hlen, and_assoc]

theorem Lies.congr (h : Lies data p bs) (heq : ∀ i, p ≤ i → i < p + bs.length → data' i = data i) :
    Lies data' p bs := by
  induction bs generalizing p with
  | nil => exact True.intro
  | cons b bs ih =>
      simp only [List.length_cons] at heq
      refine ⟨?_, ih h.2 fun i hi hlt => heq i (by omega) (by omega)⟩
      rw [heq p (Nat.le_refl p) (by omega)]
      exact h.1

theorem put_of_lt {i : Nat} (h : i < p) : put data p bs i = data i := by
  rw [put, if_neg (by omega)]

theorem put_of_ge {i : Nat} (h : p + bs.length ≤ i) : put data p bs i = data i := by
  rw [put, if_neg (by omega)]

theorem Lies.put_left (h : Lies data q cs) (hle : q + cs.length ≤ p) : Lies (put data p bs) q cs :=
  h.congr fun _ _ hlt => put_of_lt (by omega)

theorem Lies.put_right (h : Lies data q cs) (hle : p + bs.length ≤ q) : Lies (put data p bs) q cs :=
  h.congr fun _ hi _ => put_of_ge (by omega)

theorem lies_put : Lies (put data p bs) p bs := by
  induction bs generalizing p data with
  | nil => exact True.intro
  | cons b bs ih =>
      refine ⟨?_, ?_⟩
      · simp [put]
      · have hput : Lies (put data (p + 1) bs) (p + 1) bs := ih
        refine hput.congr fun i hi hlt => ?_
        obtain ⟨k, rfl⟩ : ∃ k, i = p + 1 + k := ⟨i - (p + 1), by omega⟩
        have hk : k < bs.length := by omega
        have h1 : p + 1 + k - p = k + 1 := by omega
        have h2 : p + 1 + k - (p + 1) = k := by omega
        rw [put, put, if_pos (by simp; omega), if_pos (by omega), h1, h2]
        rfl

theorem cstrFrom_of_lies (h : Lies data p (s ++ [0])) (hz : 0 ∉ s) :
    ∀ {fuel : Nat}, s.length < fuel → cstrFrom data fuel p = some s := by
  induction s generalizing p with
  | nil =>
      intro fuel hf
      obtain ⟨f, rfl⟩ : ∃ f, fuel = f + 1 := ⟨fuel - 1, by omega⟩
      rw [cstrFrom, if_pos h.1]
  | cons b s ih =>
      intro fuel hf
      obtain ⟨f, rfl⟩ : ∃ f, fuel = f + 1 := ⟨fuel - 1, by omega⟩
      simp only [List.mem_cons, not_or] at hz
      have hb : data p ≠ 0 := by
        rw [h.1]
        exact Ne.symm hz.1
      simp only [List.length_cons] at hf
      rw [cstrFrom, if_neg hb, ih h.2 hz.2 (by omega), h.1]
      rfl

/-- A string that stands in memory is read back. -/
theorem cstr_of_lies (h : Lies data p (s ++ [0])) (hz : 0 ∉ s) (hlt : p + s.length < limit) :
    cstr data limit p = some s :=
  cstrFrom_of_lies h hz (by omega)

@[simp] theorem pack_nil : pack [] = [] := rfl

theorem pack_cons : pack (s :: ss) = s ++ 0 :: pack ss := by simp [pack]

theorem pack_append : pack (ss ++ ts) = pack ss ++ pack ts := by simp [pack]

theorem pack_snoc_length : (pack (ss ++ [s])).length = (pack ss).length + s.length + 1 := by
  simp [pack]
  omega

theorem places_append : places p (ss ++ ts) = places p ss ++ places (p + (pack ss).length) ts := by
  induction ss generalizing p with
  | nil => simp [places]
  | cons s ss ih =>
      have hp : p + s.length + 1 + (pack ss).length = p + (pack (s :: ss)).length := by
        simp [pack_cons]
        omega
      rw [List.cons_append, places, places, ih, hp, List.cons_append]

/-- Where a string of the list stands. -/
theorem mem_places (h : (s, c) ∈ places p ss) :
    ∃ xs ys, ss = xs ++ s :: ys ∧ c = p + (pack xs).length := by
  induction ss generalizing p with
  | nil => simp [places] at h
  | cons t ss ih =>
      rw [places, List.mem_cons, Prod.mk.injEq] at h
      rcases h with ⟨rfl, rfl⟩ | h
      · exact ⟨[], ss, rfl, by simp⟩
      · obtain ⟨xs, ys, rfl, rfl⟩ := ih h
        refine ⟨t :: xs, ys, rfl, ?_⟩
        simp [pack_cons]
        omega

theorem mem_of_places (h : (s, c) ∈ places p ss) : s ∈ ss := by
  obtain ⟨xs, ys, rfl, -⟩ := mem_places h
  simp

theorem exists_place (h : s ∈ ss) (p : Nat) : ∃ c, (s, c) ∈ places p ss := by
  obtain ⟨xs, ys, rfl⟩ := List.append_of_mem h
  refine ⟨p + (pack xs).length, ?_⟩
  rw [places_append]
  exact List.mem_append_right _ (List.mem_cons_self ..)

theorem places_bounds (h : (s, c) ∈ places p ss) : p ≤ c ∧ c + s.length < p + (pack ss).length := by
  obtain ⟨xs, ys, rfl, rfl⟩ := mem_places h
  rw [pack_append, pack_cons]
  simp
  omega

/-- No two strings start at the same address. -/
theorem places_sorted : (places p ss).Pairwise fun a b => a.2 < b.2 := by
  induction ss generalizing p with
  | nil => exact .nil
  | cons s ss ih =>
      refine .cons ?_ ih
      rintro ⟨t, c⟩ h
      have := places_bounds h
      show p < c
      omega

/-- The addresses count from where the image starts. -/
theorem places_add (a : Nat) : places (a + p) ss = (places p ss).map fun e => (e.1, a + e.2) := by
  induction ss generalizing p with
  | nil => rfl
  | cons s ss ih =>
      have hp : a + p + s.length + 1 = a + (p + s.length + 1) := by omega
      rw [places, places, List.map_cons, hp, ih]

/-- The strings of a packed image are read back from where they stand. -/
theorem cstr_of_places (h : Lies data p (pack ss)) (hmem : (s, c) ∈ places p ss) (hz : 0 ∉ s)
    (hlt : p + (pack ss).length ≤ limit) : cstr data limit c = some s := by
  have hb := places_bounds hmem
  obtain ⟨xs, ys, rfl, rfl⟩ := mem_places hmem
  have hpk : pack (xs ++ s :: ys) = pack xs ++ ((s ++ [0]) ++ pack ys) := by
    rw [pack_append, pack_cons]
    simp
  rw [hpk, lies_append, lies_append] at h
  exact cstr_of_lies h.2.1 hz (by omega)

end CStr
