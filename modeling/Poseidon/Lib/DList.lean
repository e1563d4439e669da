import Mathlib.Data.List.Nodup

/-!
# Doubly linked lists in a heap

Cells with two pointers, at addresses that are natural numbers; a pointer is
an address or null. `Seg h a l b` says that the cells `l` lie between `a`
and `b` and that following `next` from `a` leads through them to `b`, with
`prev` leading back. A list with two sentinels is a segment between them.

The lemmas say what relinking does: taking the cell between two segments out
joins the segments, and putting a cell in front of the end extends a segment
by it. Both are stated for any heap that has the new links and agrees with
the old one elsewhere, so that the order of the pointer assignments does not
matter.
-/

/-- A list cell. -/
structure Cell (α : Type) where
  val : α
  prev : Option Nat
  next : Option Nat
  deriving DecidableEq, Repr

/-- The cells that are allocated. -/
abbrev Cells (α : Type) := Nat → Option (Cell α)

namespace Cells

variable {α : Type}

def nextOf (h : Cells α) (a : Nat) : Option Nat := (h a).bind Cell.next

def prevOf (h : Cells α) (a : Nat) : Option Nat := (h a).bind Cell.prev

/-- Allocate a cell. -/
def alloc (h : Cells α) (a : Nat) (c : Cell α) : Cells α :=
  fun b => if b = a then some c else h b

def delete (h : Cells α) (a : Nat) : Cells α :=
  fun b => if b = a then none else h b

/-- Assign to a field of a cell; there is no result when the cell is not
allocated. -/
def store (h : Cells α) (a : Nat) (f : Cell α → Cell α) : Option (Cells α) :=
  (h a).map fun c => h.alloc a (f c)

theorem store_of_some {h : Cells α} {a : Nat} {c : Cell α} (hc : h a = some c)
    (f : Cell α → Cell α) : h.store a f = some (h.alloc a (f c)) := by
  rw [store, hc, Option.map_some]

@[simp] theorem alloc_self (h : Cells α) (a : Nat) (c : Cell α) : h.alloc a c a = some c := by
  simp [alloc]

theorem alloc_other (h : Cells α) {a b : Nat} (c : Cell α) (hb : b ≠ a) :
    h.alloc a c b = h b := by
  simp [alloc, hb]

theorem nextOf_alloc (h : Cells α) (a b : Nat) (c : Cell α) :
    (h.alloc a c).nextOf b = if b = a then c.next else h.nextOf b := by
  rw [nextOf, alloc]
  split
  · rfl
  · rfl

theorem prevOf_alloc (h : Cells α) (a b : Nat) (c : Cell α) :
    (h.alloc a c).prevOf b = if b = a then c.prev else h.prevOf b := by
  rw [prevOf, alloc]
  split
  · rfl
  · rfl

theorem nextOf_eq {h : Cells α} {a : Nat} {c : Cell α} (hc : h a = some c) :
    h.nextOf a = c.next := by
  rw [nextOf, hc, Option.bind_some]

theorem prevOf_eq {h : Cells α} {a : Nat} {c : Cell α} (hc : h a = some c) :
    h.prevOf a = c.prev := by
  rw [prevOf, hc, Option.bind_some]

/-- A cell with a successor is allocated. -/
theorem isSome_of_nextOf {h : Cells α} {a b : Nat} (hn : h.nextOf a = some b) :
    ∃ c, h a = some c ∧ c.next = some b := by
  rw [nextOf] at hn
  exact Option.bind_eq_some_iff.mp hn

theorem isSome_of_prevOf {h : Cells α} {a b : Nat} (hp : h.prevOf a = some b) :
    ∃ c, h a = some c ∧ c.prev = some b := by
  rw [prevOf] at hp
  exact Option.bind_eq_some_iff.mp hp

/-! ## Segments -/

def Link (h : Cells α) (a b : Nat) : Prop := h.nextOf a = some b ∧ h.prevOf b = some a

/-- The cells `l` are linked in both directions between `a` and `b`. -/
def Seg (h : Cells α) : Nat → List Nat → Nat → Prop
  | a, [], b => h.Link a b
  | a, x :: l, b => h.Link a x ∧ Seg h x l b

variable {h h' : Cells α} {a b n x : Nat} {l xs ys : List Nat}

theorem seg_append : Seg h a (xs ++ x :: ys) b ↔ Seg h a xs x ∧ Seg h x ys b := by
  induction xs generalizing a with
  | nil => rfl
  | cons y xs ih => simp only [List.cons_append, Seg, ih, and_assoc]

/-- The cell behind `a`. -/
theorem Seg.next (hs : Seg h a l b) : h.nextOf a = some (l.headD b) := by
  cases l with
  | nil => exact hs.1
  | cons x l => exact hs.1.1

/-- The cell in front of `b`. -/
theorem Seg.prev (hs : Seg h a l b) : h.prevOf b = some (l.getLastD a) := by
  induction l generalizing a with
  | nil => exact hs.2
  | cons x l ih =>
      rw [ih hs.2, List.getLastD_cons]

/-- The last cell points to `b`, and the first one back to `a`. -/
theorem Seg.next_last (hs : Seg h a l b) : h.nextOf (l.getLastD a) = some b := by
  induction l generalizing a with
  | nil => exact hs.1
  | cons x l ih =>
      rw [List.getLastD_cons]
      exact ih hs.2

theorem Seg.prev_head (hs : Seg h a l b) : h.prevOf (l.headD b) = some a := by
  cases l with
  | nil => exact hs.2
  | cons x l => exact hs.1.2

/-- A segment looks only at its own pointers. -/
theorem Seg.congr (hs : Seg h a l b) (hn : ∀ c ∈ a :: l, h'.nextOf c = h.nextOf c)
    (hp : ∀ c ∈ l ++ [b], h'.prevOf c = h.prevOf c) : Seg h' a l b := by
  induction l generalizing a with
  | nil => exact ⟨(hn a (by simp)).trans hs.1, (hp b (by simp)).trans hs.2⟩
  | cons x l ih =>
      refine ⟨⟨(hn a (by simp)).trans hs.1.1, (hp x (by simp)).trans hs.1.2⟩, ih hs.2 ?_ ?_⟩
      · exact fun c hc => hn c (List.mem_cons_of_mem _ hc)
      · exact fun c hc => hp c (List.mem_cons_of_mem _ hc)

theorem mem_getLastD (l : List Nat) (a : Nat) : l.getLastD a ∈ a :: l := by
  induction l generalizing a with
  | nil => simp
  | cons x l ih =>
      rw [List.getLastD_cons]
      exact List.mem_cons_of_mem _ (ih x)

theorem mem_headD (l : List Nat) (b : Nat) : l.headD b ∈ l ++ [b] := by
  cases l <;> simp

/-- Taking the cell between two segments out joins them. -/
theorem Seg.join (h1 : Seg h a xs n) (h2 : Seg h n ys b)
    (hnd : (a :: (xs ++ ys ++ [b])).Nodup)
    (hlink : h'.Link (xs.getLastD a) (ys.headD b))
    (hn : ∀ c ∈ a :: (xs ++ ys), c ≠ xs.getLastD a → h'.nextOf c = h.nextOf c)
    (hp : ∀ c ∈ xs ++ ys ++ [b], c ≠ ys.headD b → h'.prevOf c = h.prevOf c) :
    Seg h' a (xs ++ ys) b := by
  induction xs generalizing a with
  | nil =>
      cases ys with
      | nil => exact hlink
      | cons y ys =>
          refine ⟨hlink, h2.2.congr ?_ ?_⟩
          · intro c hc
            refine hn c (List.mem_cons_of_mem _ hc) ?_
            rintro rfl
            exact (List.nodup_cons.mp hnd).1 (List.mem_append_left _ hc)
          · intro c hc
            refine hp c (List.mem_cons_of_mem _ hc) ?_
            rintro rfl
            exact (List.nodup_cons.mp (List.nodup_cons.mp hnd).2).1 hc
  | cons x xs ih =>
      obtain ⟨ha, hnd'⟩ := List.nodup_cons.mp hnd
      obtain ⟨hx, -⟩ := List.nodup_cons.mp hnd'
      rw [List.getLastD_cons] at hlink hn
      refine ⟨⟨?_, ?_⟩, ih h1.2 hnd' hlink ?_ ?_⟩
      · -- the links before the last cell stay
        refine (hn a (List.mem_cons_self ..) ?_).trans h1.1.1
        intro heq
        have hmem := mem_getLastD xs x
        rw [← heq] at hmem
        exact ha (List.mem_append_left _ (List.mem_append_left _ hmem))
      · refine (hp x (by simp) ?_).trans h1.1.2
        intro heq
        have hmem := mem_headD ys b
        rw [← heq] at hmem
        have hmem' : x ∈ xs ++ ys ++ [b] := by
          rw [List.append_assoc]
          exact List.mem_append_right _ hmem
        exact hx hmem'
      · exact fun c hc => hn c (List.mem_cons_of_mem _ hc)
      · exact fun c hc => hp c (List.mem_cons_of_mem _ hc)

/-- Putting a cell in front of the end extends the segment. -/
theorem Seg.snoc (hs : Seg h a l b) (hnd : (a :: (l ++ [b])).Nodup) (hxa : x ∉ a :: (l ++ [b]))
    (hlink1 : h'.Link (l.getLastD a) x) (hlink2 : h'.Link x b)
    (hn : ∀ c ∈ a :: l, c ≠ l.getLastD a → h'.nextOf c = h.nextOf c)
    (hp : ∀ c ∈ l, h'.prevOf c = h.prevOf c) : Seg h' a (l ++ [x]) b := by
  rw [seg_append]
  refine ⟨?_, hlink2⟩
  induction l generalizing a with
  | nil => exact hlink1
  | cons y l ih =>
      obtain ⟨ha, hnd'⟩ := List.nodup_cons.mp hnd
      rw [List.getLastD_cons] at hlink1 hn
      refine ⟨⟨?_, (hp y (by simp)).trans hs.1.2⟩, ih hs.2 hnd' ?_ hlink1 ?_ ?_⟩
      · refine (hn a (List.mem_cons_self ..) ?_).trans hs.1.1
        intro heq
        have hmem := mem_getLastD l y
        rw [← heq] at hmem
        exact ha (List.mem_append_left _ hmem)
      · exact fun hmem => hxa (List.mem_cons_of_mem _ hmem)
      · exact fun c hc => hn c (List.mem_cons_of_mem _ hc)
      · exact fun c hc => hp c (List.mem_cons_of_mem _ hc)

end Cells
