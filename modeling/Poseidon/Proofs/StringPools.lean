import Poseidon.Dict.Dict
import Poseidon.Proofs.PagedFiles

/-!
# What a string pool holds

A pool holds a list of strings with their codes, in the order in which they
were added. `LawfulStore` is what the dictionary relies on: adding a string
appends it with a new code as long as the pool has room for it, each code
gives its string back, and a scan of the pool that is opened again finds the
list. The two pools differ in what room is and in which strings a scan finds.

In the contiguous pool the strings are packed from position 1 on. In the
paged pool each page is packed from byte 4 on, with zeros behind.
-/

namespace Poseidon

open Wp CStr

/-- What a dictionary relies on. -/
class LawfulStore (P : Type) [StringStore P] where
  /-- The strings of the pool and their codes. -/
  Holds : P → List (List UInt8 × Nat) → Prop
  /-- There is room for the string. -/
  Room : P → List UInt8 → Prop
  /-- A scan finds the string. -/
  Found : List UInt8 → Prop
  add_wp : ∀ {p es s}, Holds p es → Room p s → 0 ∉ s →
    wp (StringStore.add s) (fun c p' => Holds p' (es ++ [(s, c)])) (fun _ _ => False) p
  extract_eq : ∀ {p es s c}, Holds p es → (s, c) ∈ es → StringStore.extract p c = .ok s
  sorted : ∀ {p es}, Holds p es → es.Pairwise fun a b => a.2 < b.2
  codes : ∀ {p es s c}, Holds p es → (s, c) ∈ es → 0 < c ∧ c < UNKNOWN_CODE
  reopen_scan : ∀ {p es}, Holds p es → (∀ e ∈ es, Found e.1) →
    ∃ p', StringStore.reopen p = .ok p' ∧
    (∀ c, StringStore.extract p' c = StringStore.extract p c) ∧
      StringStore.scan p' = es

namespace StringPool

variable {p : StringPool} {es : List (List UInt8 × Nat)} {s : List UInt8} {c : Nat}

/-- The strings are packed from position 1 on. -/
structure Packs (p : StringPool) (ss : List (List UInt8)) : Prop where
  lies : Lies p.pool 1 (pack ss)
  last : p.last = 1 + (pack ss).length
  le : p.last ≤ p.size
  size : p.size < 2 ^ 32
  noZero : ∀ s ∈ ss, 0 ∉ s

def Holds (p : StringPool) (es : List (List UInt8 × Nat)) : Prop :=
  ∃ ss, p.Packs ss ∧ es = places 1 ss

/-- After at most one growth step the string fits. -/
def Room (p : StringPool) (s : List UInt8) : Prop := p.last + s.length + 1 ≤ p.grown s

instance (p : StringPool) (s : List UInt8) : Decidable (p.Room s) :=
  inferInstanceAs (Decidable (_ ≤ _))

theorem grown_lt (h : p.size < 2 ^ 32) (s : List UInt8) : p.grown s < 2 ^ 32 := by
  rw [grown]
  split
  · exact Nat.mod_lt _ (by decide)
  · exact h

theorem packs_new {initSize expSize : Nat} (h1 : 0 < initSize) (h2 : initSize < 2 ^ 32) :
    (new initSize expSize).Packs [] where
  lies := True.intro
  last := rfl
  le := h1
  size := h2
  noZero := by simp

theorem add_wp (h : p.Holds es) (hroom : p.Room s) (hz : 0 ∉ s) :
    wp (add s) (fun c p' => p'.Holds (es ++ [(s, c)])) (fun _ _ => False) p := by
  obtain ⟨ss, hp, rfl⟩ := h
  simp only [add, wp_bind, wp_get, wp_set]
  rw [Room] at hroom
  rw [if_neg (Nat.not_lt.mpr hroom)]
  simp only [wp_bind, wp_pure, wp_set]
  refine ⟨ss ++ [s], ⟨?_, ?_, hroom, grown_lt hp.size s, ?_⟩, ?_⟩
  · show Lies (put p.pool p.last (s ++ [0])) 1 (pack (ss ++ [s]))
    rw [pack_append, lies_append]
    have hput : Lies (put p.pool p.last (s ++ [0])) p.last (s ++ [0]) := lies_put
    refine ⟨hp.lies.put_left (Nat.le_of_eq hp.last.symm), ?_⟩
    rw [← hp.last]
    simpa [pack] using hput
  · show p.last + s.length + 1 = 1 + (pack (ss ++ [s])).length
    rw [pack_snoc_length, hp.last]
    omega
  · intro t ht
    rcases List.mem_append.mp ht with ht | ht
    · exact hp.noZero t ht
    · rwa [List.mem_singleton.mp ht]
  · rw [places_append, hp.last]
    rfl

theorem extract_eq (h : p.Holds es) (hmem : (s, c) ∈ es) : p.extract c = .ok s := by
  obtain ⟨ss, hp, rfl⟩ := h
  have hlim : 1 + (pack ss).length ≤ p.size := by
    rw [← hp.last]
    exact hp.le
  rw [extract, cstr_of_places hp.lies hmem (hp.noZero s (mem_of_places hmem)) hlim]

theorem codes (h : p.Holds es) (hmem : (s, c) ∈ es) : 0 < c ∧ c < UNKNOWN_CODE := by
  obtain ⟨ss, hp, rfl⟩ := h
  have hb := places_bounds hmem
  have hle := hp.le
  have hsize := hp.size
  rw [hp.last] at hle
  rw [UNKNOWN_CODE]
  omega

/-- The scan passes over the bytes of a string. -/
theorem scanFrom_pass (hz : 0 ∉ s) (pos : Nat) : ∀ {i k : Nat}, Lies p.pool i s →
    p.scanFrom (s.length + k) i pos = p.scanFrom k (i + s.length) pos := by
  induction s with
  | nil =>
      intro i k _
      simp
  | cons b s ih =>
      intro i k h
      simp only [List.mem_cons, not_or] at hz
      have hb : p.pool i ≠ 0 := by
        rw [h.1]
        exact Ne.symm hz.1
      have hlen : (b :: s).length + k = s.length + k + 1 := by simp; omega
      have hi : i + (b :: s).length = i + 1 + s.length := by simp; omega
      rw [hlen, scanFrom, if_neg hb, ih hz.2 h.2, hi]

theorem scanFrom_places {ss : List (List UInt8)} (hz : ∀ s ∈ ss, 0 ∉ s) :
    ∀ {i : Nat}, Lies p.pool i (pack ss) → i + (pack ss).length ≤ p.size →
      p.scanFrom (pack ss).length i i = places i ss := by
  induction ss with
  | nil => exact fun _ _ => rfl
  | cons s ss ih =>
      intro i h hle
      have hs := hz s (List.mem_cons_self ..)
      have hpk : pack (s :: ss) = (s ++ [0]) ++ pack ss := by rw [pack_cons]; simp
      have hlen : (pack (s :: ss)).length = s.length + ((pack ss).length + 1) := by
        simp [pack_cons]
      rw [hpk, lies_append] at h
      have hzero : p.pool (i + s.length) = 0 := ((lies_append.mp h.1).2).1
      have hrest : Lies p.pool (i + s.length + 1) (pack ss) := by
        have h2 := h.2
        rwa [List.length_append, List.length_singleton, ← Nat.add_assoc] at h2
      have hstr : cstr p.pool p.size i = some s := cstr_of_lies h.1 hs (by omega)
      rw [hlen, scanFrom_pass hs i (lies_append.mp h.1).1, scanFrom, if_pos hzero, hstr, places,
        ih (fun t ht => hz t (List.mem_cons_of_mem _ ht)) hrest (by omega)]
      rfl

theorem scan_eq (h : p.Holds es) : p.scan = es := by
  obtain ⟨ss, hp, rfl⟩ := h
  have hlast : p.last - 1 = (pack ss).length := by
    rw [hp.last]
    omega
  rw [scan, hlast]
  refine scanFrom_places hp.noZero hp.lies ?_
  rw [← hp.last]
  exact hp.le

end StringPool

instance : LawfulStore StringPool where
  Holds := StringPool.Holds
  Room := StringPool.Room
  Found _ := True
  add_wp := StringPool.add_wp
  extract_eq := StringPool.extract_eq
  sorted := by
    rintro p es ⟨ss, -, rfl⟩
    exact places_sorted
  codes := StringPool.codes
  reopen_scan h _ := ⟨_, rfl, fun _ => rfl, StringPool.scan_eq h⟩

end Poseidon
