import Mathlib.Data.List.Basic
import Mathlib.Logic.Function.Basic

/-!
# Arrays of which only some cells may be used

A cell that is `none` may be neither read nor written: the access fails. What
a function does with a part of an array is said with `put`, the array with a
list in that part. A function that succeeds on `put c start xs` whatever `c`
is uses no cell outside of the part, and when it leaves `put c start ys` it
changes none.
-/

/-- The cells by their indices. -/
abbrev CheckedArray (α : Type) := Nat → Option α

namespace CheckedArray

variable {α : Type}

def store (c : CheckedArray α) (i : Nat) (a : α) : Option (CheckedArray α) :=
  (c i).map fun _ => Function.update c i (some a)

/-- The values of `n` cells from `start` on. -/
def read (c : CheckedArray α) (start : Nat) : Nat → Option (List α)
  | 0 => some []
  | n + 1 => do
      let a ← c start
      let as ← read c (start + 1) n
      pure (a :: as)

/-- The values are written to the cells from `start` on. -/
def write (c : CheckedArray α) (start : Nat) : List α → Option (CheckedArray α)
  | [] => some c
  | a :: as => do
      let c ← store c start a
      write c (start + 1) as

def put (c : CheckedArray α) (start : Nat) (xs : List α) : CheckedArray α := fun i =>
  if start ≤ i ∧ i < start + xs.length then xs[i - start]? else c i

/-- An array of its own, with no other cells. -/
def ofList (xs : List α) : CheckedArray α := put (fun _ => none) 0 xs

variable {c : CheckedArray α} {start i : Nat} {xs ys : List α} {a : α}

theorem put_of_lt (hi : i < xs.length) : put c start xs (start + i) = xs[i]? := by
  rw [put, if_pos (by omega), Nat.add_sub_cancel_left]

theorem put_outside (h : i < start ∨ start + xs.length ≤ i) : put c start xs i = c i := by
  rw [put, if_neg (by omega)]

theorem put_append (xs ys : List α) :
    put c start (xs ++ ys) = put (put c start xs) (start + xs.length) ys := by
  funext i
  rcases Nat.lt_or_ge i start with hlt | hge
  · rw [put_outside (.inl hlt), put_outside (.inl (by omega)), put_outside (.inl hlt)]
  · obtain ⟨j, rfl⟩ := Nat.exists_eq_add_of_le hge
    rcases Nat.lt_or_ge j xs.length with hj | hj
    · rw [put_of_lt (by simp; omega), List.getElem?_append_left hj, put_outside (.inl (by omega)),
        put_of_lt hj]
    · obtain ⟨k, rfl⟩ := Nat.exists_eq_add_of_le hj
      rcases Nat.lt_or_ge k ys.length with hk | hk
      · rw [put_of_lt (by simp; omega), List.getElem?_append_right (by omega),
          Nat.add_sub_cancel_left, ← Nat.add_assoc, put_of_lt hk]
      · rw [put_outside (.inr (by simp; omega)), put_outside (.inr (by omega)),
          put_outside (.inr (by omega))]

/-- Parts that do not overlap can be filled in either order. -/
theorem put_comm {start' : Nat} (h : start + xs.length ≤ start') :
    put (put c start xs) start' ys = put (put c start' ys) start xs := by
  funext i
  by_cases hi : start ≤ i ∧ i < start + xs.length
  · obtain ⟨j, rfl⟩ := Nat.exists_eq_add_of_le hi.1
    rw [put_outside (.inl (by omega)), put_of_lt (by omega), put_of_lt (by omega)]
  · by_cases hi' : start' ≤ i ∧ i < start' + ys.length
    · obtain ⟨j, rfl⟩ := Nat.exists_eq_add_of_le hi'.1
      rw [put_of_lt (by omega), put_outside (.inr (by omega)), put_of_lt (by omega)]
    · rw [put_outside (by omega), put_outside (by omega), put_outside (by omega),
        put_outside (by omega)]

/-- The cells around a part of `n` cells, with `as` before it and `bs`
behind it. -/
def around (c : CheckedArray α) (start : Nat) (as : List α) (n : Nat) (bs : List α) :
    CheckedArray α :=
  put (put c start as) (start + as.length + n) bs

theorem put_around (as bs : List α) :
    put c start (as ++ (xs ++ bs)) = put (around c start as xs.length bs)
    (start + as.length) xs := by
  rw [put_append, put_append, put_comm (Nat.le_refl _)]
  rfl

/-! ## Accesses -/

theorem store_put (hi : i < xs.length) :
    store (put c start xs) (start + i) a = some (put c start (xs.set i a)) := by
  rw [store, put_of_lt hi, List.getElem?_eq_getElem hi, Option.map_some, Option.some.injEq]
  funext j
  by_cases hj : start ≤ j ∧ j < start + xs.length
  · obtain ⟨k, rfl⟩ := Nat.exists_eq_add_of_le hj.1
    rw [put_of_lt (by simp; omega), List.getElem?_set]
    by_cases hk : i = k
    · subst hk
      rw [Function.update_self, if_pos rfl, if_pos hi]
    · rw [Function.update_of_ne (by omega), if_neg hk, put_of_lt (by omega)]
  · rw [Function.update_of_ne (by omega), put_outside (by omega), put_outside (by simp; omega)]

theorem read_put : read (put c start xs) start xs.length = some xs := by
  induction xs generalizing c start with
  | nil => rfl
  | cons x xs ih =>
      have hhead : put c start (x :: xs) start = some x := put_of_lt (i := 0) (by simp)
      have htail : put c start (x :: xs) = put (put c start [x]) (start + 1) xs :=
        put_append [x] xs
      rw [List.length_cons, read, hhead, htail, Option.bind_eq_bind, Option.bind_some, ih]
      rfl

theorem write_put (h : ys.length = xs.length) :
    write (put c start xs) start ys = some (put c start ys) := by
  induction ys generalizing c start xs with
  | nil =>
      rw [List.length_nil] at h
      rw [List.eq_nil_of_length_eq_zero h.symm]
      rfl
  | cons y ys ih =>
      obtain ⟨x, xs, rfl⟩ := List.exists_of_length_succ xs h.symm
      have hstore : store (put c start (x :: xs)) start y = some (put c start (y :: xs)) :=
        store_put (i := 0) (by simp)
      have htail : put c start (y :: xs) = put (put c start [y]) (start + 1) xs :=
        put_append [y] xs
      rw [write, hstore, Option.bind_eq_bind, Option.bind_some, htail, ih (by simpa using h)]
      exact congrArg some (put_append [y] ys).symm

end CheckedArray
