import Mathlib.Order.Lattice

/-!
# Ordered maps

A map over a linear order as the list of its entries in increasing order of
their keys. Inserting a key that is there replaces its value, erasing one
that is not there changes nothing, and a scan lists the entries whose key
lies in a closed interval. What a client of a scan mostly wants is its last
entry, the one with the greatest key; `mem_last` and `last_eq` say what that
is.
-/

/-- An ordered map: entries with increasing keys. -/
structure OrdMap (κ ν : Type) [LinearOrder κ] where
  entries : List (κ × ν)
  sorted : entries.Pairwise fun a b => a.1 < b.1

namespace OrdMap

variable {κ ν : Type} [LinearOrder κ]

/-- The map without entries. -/
def empty : OrdMap κ ν := ⟨[], .nil⟩

/-- The value of a key. -/
def lookup (m : OrdMap κ ν) (k : κ) : Option ν := m.entries.lookup k

/-- Put an entry in its place, or replace the one with the same key. -/
def insertEntry (k : κ) (v : ν) : List (κ × ν) → List (κ × ν)
  | [] => [(k, v)]
  | e :: l =>
      if k < e.1 then (k, v) :: e :: l
      else if k = e.1 then (k, v) :: l
      else e :: insertEntry k v l

theorem mem_insertEntry {k : κ} {v : ν} {a : κ × ν} {l : List (κ × ν)}
    (h : a ∈ insertEntry k v l) : a = (k, v) ∨ a ∈ l := by
  induction l with
  | nil => exact .inl (List.mem_singleton.mp h)
  | cons e l ih =>
      rw [insertEntry] at h
      split at h
      · exact List.mem_cons.mp h
      split at h
      · rcases List.mem_cons.mp h with h | h
        · exact .inl h
        · exact .inr (List.mem_cons_of_mem _ h)
      · rcases List.mem_cons.mp h with h | h
        · exact .inr (h ▸ List.mem_cons_self ..)
        · exact (ih h).imp id (List.mem_cons_of_mem _)

theorem insertEntry_sorted {k : κ} {v : ν} {l : List (κ × ν)}
    (hs : l.Pairwise fun a b => a.1 < b.1) :
    (insertEntry k v l).Pairwise fun a b => a.1 < b.1 := by
  induction l with
  | nil => exact List.pairwise_singleton ..
  | cons e l ih =>
      obtain ⟨he, hl⟩ := List.pairwise_cons.mp hs
      rw [insertEntry]
      split
      · next hlt =>
        refine List.pairwise_cons.mpr ⟨fun a ha => ?_, hs⟩
        rcases List.mem_cons.mp ha with rfl | ha
        · exact hlt
        · exact hlt.trans (he a ha)
      split
      · next heq => exact List.pairwise_cons.mpr ⟨fun a ha => heq ▸ he a ha, hl⟩
      · next hlt hne =>
        refine List.pairwise_cons.mpr ⟨fun a ha => ?_, ih hl⟩
        rcases mem_insertEntry ha with rfl | ha
        · exact lt_of_le_of_ne (not_lt.mp hlt) (Ne.symm hne)
        · exact he a ha

/-- Insert an entry, replacing the one with the same key. -/
def insert (m : OrdMap κ ν) (k : κ) (v : ν) : OrdMap κ ν :=
  ⟨insertEntry k v m.entries, insertEntry_sorted m.sorted⟩

/-- Erase a key. -/
def erase (m : OrdMap κ ν) (k : κ) : OrdMap κ ν :=
  ⟨m.entries.filter fun e => e.1 ≠ k, m.sorted.filter _⟩

/-- The entries with a key from `lo` to `hi`, in increasing order. -/
def scan (m : OrdMap κ ν) (lo hi : κ) : List (κ × ν) :=
  m.entries.filter fun e => lo ≤ e.1 ∧ e.1 ≤ hi

/-- The entry with the greatest key that is at most `hi`. -/
def floor (m : OrdMap κ ν) (hi : κ) : Option (κ × ν) :=
  (m.entries.filter fun e => e.1 ≤ hi).getLast?

/-- The entries before the first one with a key beyond `k`. -/
def upTo (m : OrdMap κ ν) (k : κ) : List (κ × ν) := m.entries.takeWhile fun e => e.1 ≤ k

/-- The entries from the first one with a key beyond `k` on. -/
def beyond (m : OrdMap κ ν) (k : κ) : List (κ × ν) := m.entries.dropWhile fun e => e.1 ≤ k

/-! ## Lookups -/

variable {m : OrdMap κ ν} {k k' : κ} {v : ν}

theorem lookup_cons {l : List (κ × ν)} :
    ((k, v) :: l).lookup k' = if k' = k then some v else l.lookup k' := by
  rw [List.lookup_cons]
  by_cases h : k' = k
  · subst h
    rw [beq_self_eq_true, if_pos rfl]
  · rw [beq_false_of_ne h, if_neg h]

theorem lookup_of_sorted {l : List (κ × ν)} (hs : l.Pairwise fun a b => a.1 < b.1) :
    l.lookup k = some v ↔ (k, v) ∈ l := by
  induction l with
  | nil => simp
  | cons e l ih =>
      obtain ⟨k₁, v₁⟩ := e
      obtain ⟨he, hl⟩ := List.pairwise_cons.mp hs
      rw [lookup_cons, List.mem_cons, Prod.mk.injEq]
      split
      · next hk =>
        subst hk
        simp only [Option.some.injEq, true_and]
        refine ⟨fun h => .inl h.symm, fun h => ?_⟩
        rcases h with h | h
        · exact h.symm
        · exact absurd (he _ h) (lt_irrefl _)
      · next hk =>
        rw [ih hl]
        exact ⟨.inr, fun h => h.resolve_left fun hc => hk hc.1⟩

theorem lookup_eq_some : m.lookup k = some v ↔ (k, v) ∈ m.entries :=
  lookup_of_sorted m.sorted

theorem lookup_empty : (empty : OrdMap κ ν).lookup k = none := rfl

theorem lookup_insert :
    (m.insert k v).lookup k' = if k' = k then some v else m.lookup k' := by
  simp only [lookup, insert]
  induction m.entries with
  | nil => rw [insertEntry, lookup_cons]
  | cons e l ih =>
      obtain ⟨k₁, v₁⟩ := e
      rw [insertEntry]
      split
      · rw [lookup_cons]
      split
      · next heq =>
        change k = k₁ at heq
        subst heq
        rw [lookup_cons, lookup_cons]
        split
        · rfl
        · rfl
      · next hne =>
        change ¬ k = k₁ at hne
        rw [lookup_cons, lookup_cons, ih]
        by_cases h : k' = k₁
        · subst h
          rw [if_pos rfl, if_neg (Ne.symm hne), if_pos rfl]
        · rw [if_neg h, if_neg h]

theorem lookup_erase :
    (m.erase k).lookup k' = if k' = k then none else m.lookup k' := by
  apply Option.ext
  intro v
  rw [lookup_eq_some]
  simp only [erase, List.mem_filter, decide_eq_true_eq, ne_eq]
  split
  · next h => simp [h]
  · next h => simp [h, lookup_eq_some]

theorem nodup_of_sorted {l : List (κ × ν)} (hs : l.Pairwise fun a b => a.1 < b.1) :
    l.Nodup := by
  refine List.Pairwise.imp ?_ hs
  intro a b hab heq
  exact lt_irrefl _ (heq ▸ hab)

/-- Maps with the same values are the same. -/
theorem ext {m m' : OrdMap κ ν} (h : ∀ k, m.lookup k = m'.lookup k) : m = m' := by
  obtain ⟨l, hl⟩ := m
  obtain ⟨l', hl'⟩ := m'
  have hmem : ∀ e, e ∈ l ↔ e ∈ l' := by
    rintro ⟨k, v⟩
    rw [← lookup_of_sorted hl, ← lookup_of_sorted hl']
    exact iff_of_eq (congrArg (· = some v) (h k))
  have hperm : l.Perm l' :=
    (List.perm_ext_iff_of_nodup (nodup_of_sorted hl) (nodup_of_sorted hl')).mpr hmem
  have heq : l = l' := by
    refine hperm.eq_of_pairwise ?_ hl hl'
    intro a b _ _ hab hba
    exact absurd (hab.trans hba) (lt_irrefl _)
  subst heq
  rfl

/-! ## The last entry of a scan -/

/-- The last of the entries that pass a test has the greatest key among
them. -/
theorem last_eq {p : κ × ν → Bool} :
    (m.entries.filter p).getLast? = some (k, v) ↔
      (k, v) ∈ m.entries ∧ p (k, v) = true ∧
        ∀ e ∈ m.entries, p e = true → e.1 ≤ k := by
  have hs := m.sorted.filter p
  constructor
  · intro h
    obtain ⟨l, hl⟩ := List.getLast?_eq_some_iff.mp h
    have hmem : (k, v) ∈ m.entries.filter p := by simp [hl]
    refine ⟨(List.mem_filter.mp hmem).1, (List.mem_filter.mp hmem).2, ?_⟩
    intro e he hp
    have hin : e ∈ l ++ [(k, v)] := hl ▸ List.mem_filter.mpr ⟨he, hp⟩
    rcases List.mem_append.mp hin with hin | hin
    · rw [hl] at hs
      exact ((List.pairwise_append.mp hs).2.2 e hin (k, v) (List.mem_singleton_self _)).le
    · rw [List.mem_singleton.mp hin]
  · rintro ⟨hmem, hp, hmax⟩
    have hin : (k, v) ∈ m.entries.filter p := List.mem_filter.mpr ⟨hmem, hp⟩
    obtain ⟨⟨k₁, v₁⟩, h₁⟩ : ∃ e, (m.entries.filter p).getLast? = some e :=
      ⟨_, List.getLast?_eq_some_getLast (List.ne_nil_of_mem hin)⟩
    obtain ⟨l, hl⟩ := List.getLast?_eq_some_iff.mp h₁
    rw [hl] at hin hs
    rcases List.mem_append.mp hin with hin | hin
    · have hlt := (List.pairwise_append.mp hs).2.2 _ hin (k₁, v₁) (List.mem_singleton_self _)
      have hfil : (k₁, v₁) ∈ m.entries.filter p := by simp [hl]
      have hle := hmax _ (List.mem_filter.mp hfil).1 (List.mem_filter.mp hfil).2
      exact absurd (hlt.trans_le hle) (lt_irrefl _)
    · rw [List.mem_singleton.mp hin, h₁]

theorem last_eq_none {p : κ × ν → Bool} :
    (m.entries.filter p).getLast? = none ↔ ∀ e ∈ m.entries, p e = false := by
  rw [List.getLast?_eq_none_iff, List.filter_eq_nil_iff]
  simp

theorem takeWhile_of_sorted {l : List (κ × ν)} (hs : l.Pairwise fun a b => a.1 < b.1) (k : κ) :
    l.takeWhile (fun e => e.1 ≤ k) = l.filter (fun e => e.1 ≤ k) ∧
      l.dropWhile (fun e => e.1 ≤ k) = l.filter (fun e => k < e.1) := by
  induction l with
  | nil => exact ⟨rfl, rfl⟩
  | cons e l ih =>
      obtain ⟨he, hl⟩ := List.pairwise_cons.mp hs
      obtain ⟨htake, hdrop⟩ := ih hl
      by_cases hk : e.1 ≤ k
      · rw [List.takeWhile_cons_of_pos (by simpa using hk),
          List.filter_cons_of_pos (by simpa using hk), List.dropWhile_cons_of_pos
          (by simpa using hk), List.filter_cons_of_neg (by simpa using hk)]
        exact ⟨congrArg (e :: ·) htake, hdrop⟩
      · have hall : ∀ a ∈ l, k < a.1 := fun a ha => (not_le.mp hk).trans (he a ha)
        have hnil : l.filter (fun e => decide (e.1 ≤ k)) = [] :=
          List.filter_eq_nil_iff.mpr fun a ha => by simpa using hall a ha
        have hself : l.filter (fun e => decide (k < e.1)) = l :=
          List.filter_eq_self.mpr fun a ha => by simpa using hall a ha
        rw [List.takeWhile_cons_of_neg (by simpa using hk),
          List.filter_cons_of_neg (by simpa using hk), List.dropWhile_cons_of_neg
          (by simpa using hk), List.filter_cons_of_pos (by simpa using hk), hnil, hself]
        exact ⟨rfl, rfl⟩

/-- The floor of a key depends on the keys up to it only. -/
theorem floor_congr {m' : OrdMap κ ν} {hi : κ} (h : ∀ k ≤ hi, m'.lookup k = m.lookup k) :
    m'.floor hi = m.floor hi := by
  have hmem : ∀ e : κ × ν, e.1 ≤ hi → (e ∈ m'.entries ↔ e ∈ m.entries) := by
    rintro ⟨k, v⟩ hk
    rw [← lookup_eq_some, ← lookup_eq_some, h k hk]
  refine Option.ext fun e => ?_
  obtain ⟨k, v⟩ := e
  simp only [floor, last_eq, decide_eq_true_eq]
  constructor
  · rintro ⟨hin, hk, hmax⟩
    exact ⟨(hmem _ hk).mp hin, hk, fun e he hle => hmax e ((hmem e hle).mpr he) hle⟩
  · rintro ⟨hin, hk, hmax⟩
    exact ⟨(hmem _ hk).mpr hin, hk, fun e he hle => hmax e ((hmem e hle).mp he) hle⟩

/-- If the floor is above the keys at which two maps differ, it is the same. -/
theorem floor_above {m' : OrdMap κ ν} {hi k a : κ} {v : ν}
    (h : ∀ j, j ≠ k → m'.lookup j = m.lookup j) (hf : m.floor hi = some (a, v)) (hlt : k < a) :
    m'.floor hi = some (a, v) := by
  obtain ⟨hin, hp, hmax⟩ := last_eq.mp hf
  refine last_eq.mpr ⟨?_, hp, fun e he hle => ?_⟩
  · rw [← lookup_eq_some, h a (ne_of_gt hlt), lookup_eq_some]
    exact hin
  · by_cases hk : e.1 = k
    · rw [hk]
      exact hlt.le
    · refine hmax e ?_ hle
      rw [← lookup_eq_some, ← h e.1 hk, lookup_eq_some]
      exact he

end OrdMap
