import Poseidon.Lib.Firsts

/-!
# Hash tables

A hash table is kept as the list of its entries, whose keys are different. In
which order an iteration meets them is up to the table: nothing but the set
of entries is to be relied on. `gather` fills a table by updating, for each
element of a list, the entry of the element's key; what is in the table then
is said in terms of the elements with one key.
-/

/-- A table with an entry for each of some keys. -/
structure HashTable (κ ι : Type) where
  entries : List (κ × ι)
  nodup : (entries.map Prod.fst).Nodup

namespace HashTable

open Firsts

variable {α κ ι : Type} [DecidableEq κ]

def empty : HashTable κ ι := ⟨[], List.nodup_nil⟩

/-- Replace the entry of a key, or add one. -/
def assignAt (k : κ) (i : ι) : List (κ × ι) → List (κ × ι)
  | [] => [(k, i)]
  | e :: es => if e.1 = k then (k, i) :: es else e :: assignAt k i es

theorem fst_assignAt (k : κ) (i : ι) (es : List (κ × ι)) :
    (assignAt k i es).map Prod.fst =
      if k ∈ es.map Prod.fst then es.map Prod.fst else es.map Prod.fst ++ [k] := by
  induction es with
  | nil => rfl
  | cons e es ih =>
      rw [assignAt]
      by_cases he : e.1 = k
      · rw [if_pos he, if_pos (by simp [he]), List.map_cons, List.map_cons, he]
      · rw [if_neg he, List.map_cons, List.map_cons, ih]
        by_cases hmem : k ∈ es.map Prod.fst
        · rw [if_pos hmem, if_pos (List.mem_cons_of_mem _ hmem)]
        · have hnot : k ∉ e.1 :: es.map Prod.fst := fun h =>
            (List.mem_cons.mp h).elim (fun h => he h.symm) hmem
          rw [if_neg hmem, if_neg hnot, List.cons_append]

theorem nodup_assignAt {k : κ} {i : ι} {es : List (κ × ι)} (h : (es.map Prod.fst).Nodup) :
    ((assignAt k i es).map Prod.fst).Nodup := by
  rw [fst_assignAt]
  split
  · exact h
  · rename_i hk
    exact List.nodup_append.mpr ⟨h, List.nodup_singleton k, fun a ha b hb hab => hk (by
      rw [List.mem_singleton.mp hb] at hab
      exact hab ▸ ha)⟩

/-- `t[k] = i`. -/
def assign (t : HashTable κ ι) (k : κ) (i : ι) : HashTable κ ι :=
  ⟨assignAt k i t.entries, nodup_assignAt t.nodup⟩

/-- The value of a key. -/
def find (t : HashTable κ ι) (k : κ) : Option ι :=
  (t.entries.find? fun e => decide (e.1 = k)).map Prod.snd

def keys (t : HashTable κ ι) : List κ := t.entries.map Prod.fst

variable {t : HashTable κ ι} {k k' : κ} {i : ι}

@[simp] theorem find_empty : (empty : HashTable κ ι).find k = none := rfl

theorem find_assign : (t.assign k i).find k' = if k' = k then some i else t.find k' := by
  unfold find assign
  simp only []
  induction t.entries with
  | nil =>
      by_cases hk : k' = k
      · simp [assignAt, hk]
      · simp [assignAt, hk, Ne.symm hk]
  | cons e es ih =>
      rw [assignAt]
      by_cases he : e.1 = k
      · rw [if_pos he]
        by_cases hk : k' = k
        · simp [hk]
        · simp [hk, Ne.symm hk, he]
      · rw [if_neg he, List.find?_cons, List.find?_cons]
        by_cases hk : e.1 = k'
        · subst hk
          simp [he]
        · simpa [hk] using ih

theorem find_eq_some : t.find k = some i ↔ (k, i) ∈ t.entries := by
  constructor
  · intro h
    obtain ⟨e, he, rfl⟩ := Option.map_eq_some_iff.mp h
    obtain rfl : e.1 = k := by simpa using List.find?_some he
    exact List.mem_of_find?_eq_some he
  · intro h
    have hfind : ∃ e, t.entries.find? (fun e => decide (e.1 = k)) = some e := by
      cases hf : t.entries.find? (fun e => decide (e.1 = k)) with
      | some e => exact ⟨e, rfl⟩
      | none =>
          have hnone := List.find?_eq_none.mp hf (k, i) h
          exact absurd (decide_eq_true rfl) hnone
    obtain ⟨e, he⟩ := hfind
    have hkey : e.1 = k := by simpa using List.find?_some he
    have heq := List.inj_on_of_nodup_map t.nodup (List.mem_of_find?_eq_some he) h hkey
    rw [find, he, heq]
    rfl

theorem keys_assign : (t.assign k i).keys = if k ∈ t.keys then t.keys else t.keys ++ [k] :=
  fst_assignAt k i t.entries

/-! ## Filling a table -/

section Gather

variable (key : α → κ) (step : Option ι → α → ι)

/-- For each element, replace the value of its key by what `step` makes of
it. -/
def gather (t : HashTable κ ι) (xs : List α) : HashTable κ ι :=
  xs.foldl (fun t x => t.assign (key x) (step (t.find (key x)) x)) t

/-- What a list of elements makes of a value. -/
def collect (o : Option ι) (xs : List α) : Option ι :=
  xs.foldl (fun o x => some (step o x)) o

variable {key step} {xs : List α} {x : α}

theorem find_gather (t : HashTable κ ι) : (gather key step t xs).find k =
    collect step (t.find k) (xs.filter fun x => decide (key x = k)) := by
  induction xs generalizing t with
  | nil => rfl
  | cons x xs ih =>
      show (gather key step (t.assign (key x) (step (t.find (key x)) x)) xs).find k = _
      rw [ih, find_assign]
      by_cases hk : k = key x
      · rw [if_pos hk, List.filter_cons_of_pos (by simp [hk]), hk]
        rfl
      · rw [if_neg hk, List.filter_cons_of_neg (by simpa using Ne.symm hk)]

theorem collect_isSome {o : Option ι} (hx : x ∈ xs) : (collect step o xs).isSome := by
  have hsome : ∀ (ys : List α) (o : Option ι), o.isSome → (collect step o ys).isSome := by
    intro ys
    induction ys with
    | nil => exact fun _ h => h
    | cons y ys ih => exact fun o _ => ih (some (step o y)) rfl
  cases xs with
  | nil => cases hx
  | cons y ys => exact hsome ys _ rfl

theorem keys_gather {seen : List α} (hseen : ∀ k, k ∈ t.keys ↔ ∃ y ∈ seen, key y = k) :
    (gather key step t xs).keys = t.keys ++ (firsts (sameKey key) seen xs).map key := by
  induction xs generalizing t seen with
  | nil => rw [firsts, List.map_nil, List.append_nil]; rfl
  | cons x xs ih =>
      show (gather key step (t.assign (key x) (step (t.find (key x)) x)) xs).keys = _
      have hany : seen.any (sameKey key · x) = true ↔ key x ∈ t.keys := by
        rw [List.any_eq_true, hseen]
        exact exists_congr fun y => and_congr_right fun _ => decide_eq_true_iff
      have hseen' : ∀ k, k ∈ (t.assign (key x) (step (t.find (key x)) x)).keys ↔
          ∃ y ∈ seen ++ [x], key y = k := by
        intro k
        rw [keys_assign]
        by_cases hmem : key x ∈ t.keys
        · rw [if_pos hmem, hseen]
          constructor
          · rintro ⟨y, hy, rfl⟩
            exact ⟨y, List.mem_append_left _ hy, rfl⟩
          · rintro ⟨y, hy, rfl⟩
            rcases List.mem_append.mp hy with hy | hy
            · exact ⟨y, hy, rfl⟩
            · rw [List.mem_singleton.mp hy]
              exact (hseen _).mp hmem
        · rw [if_neg hmem, List.mem_append, hseen, List.mem_singleton]
          constructor
          · rintro (⟨y, hy, rfl⟩ | rfl)
            · exact ⟨y, List.mem_append_left _ hy, rfl⟩
            · exact ⟨x, by simp, rfl⟩
          · rintro ⟨y, hy, rfl⟩
            rcases List.mem_append.mp hy with hy | hy
            · exact .inl ⟨y, hy, rfl⟩
            · rw [List.mem_singleton.mp hy]
              exact .inr rfl
      rw [ih hseen', keys_assign, firsts]
      by_cases hmem : key x ∈ t.keys
      · rw [if_pos hmem, if_pos (hany.mpr hmem)]
      · rw [if_neg hmem, if_neg fun h => hmem (hany.mp h), List.map_cons, List.append_assoc]
        rfl

/-- The keys of a filled table, in the order in which they came. -/
theorem keys_gather_empty :
    (gather key step empty xs).keys = (firsts (sameKey key) [] xs).map key :=
  keys_gather fun k => ⟨fun h => (by cases h), fun h => by
    obtain ⟨_, hy, -⟩ := h
    cases hy⟩

end Gather

end HashTable
