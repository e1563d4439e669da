import Poseidon.Proofs.BufVec
import Poseidon.Proofs.MemVec
import Poseidon.Vec.Iter

/-!
# What the iterators of a vector visit

An iterator at chunk `k` and position `p` stands at index `k * n + p`, and
`operator++` takes it from slot to slot, so a loop visits the slots in use of
the indices that it passes over, in order. Only its start is special: `begin`
looks in the first chunk for a slot in use, and takes a first chunk without
one for the end of the vector; a range starts with the first slot of its
first chunk, in use or not.

The lookup of a chunk is a parameter: the vector in memory follows its list,
and the one over a file asks for the next page, which the bitset of the file
refuses when there is no bit for it.
-/

namespace Poseidon

variable {α : Type}

namespace ChunkIter

section

variable (n : Nat) (tab : Nat → Chunk α)

/-- The iterator at index `i`. -/
def atIndex (i : Nat) : ChunkIter α := ⟨i / n, some (tab (i / n)), i % n⟩

/-- The slot of index `i` is in use. -/
def usedAt (i : Nat) : Bool := (tab (i / n)).slots (i % n)

/-- What a loop collects at index `i`. -/
def item (i : Nat) : Nat × α := (i, (tab (i / n)).data (i % n))

/-- The records in use from index `a` up to `b`. -/
def items (a b : Nat) : List (Nat × α) :=
  ((List.range' a (b - a)).filter (usedAt n tab)).map (item n tab)

end

variable {n : Nat} {tab : Nat → Chunk α} {load : Nat → Except BpErr (Option (Chunk α))}
  {inRange : Nat → Bool} {atEnd : ChunkIter α → Bool} {L F : Nat} {fin : Except BpErr (ChunkIter α)}

theorem items_self (a : Nat) : items n tab a a = [] := by
  rw [items, Nat.sub_self]
  rfl

theorem items_cons {a b : Nat} (hab : a < b) : items n tab a b =
    if usedAt n tab a then item n tab a :: items n tab (a + 1) b else items n tab (a + 1) b := by
  obtain ⟨k, rfl⟩ : ∃ k, b = a + 1 + k := ⟨b - (a + 1), by omega⟩
  have h1 : a + 1 + k - a = k + 1 := by omega
  have h2 : a + 1 + k - (a + 1) = k := by omega
  rw [items, items, h1, h2, List.range'_succ, List.filter_cons]
  split
  · rfl
  · rfl

theorem items_append {a b c : Nat} (hab : a ≤ b) (hbc : b ≤ c) :
    items n tab a b ++ items n tab b c = items n tab a c := by
  have happ := List.range'_append_1 (s := a) (m := b - a) (n := c - b)
  have h1 : a + (b - a) = b := by omega
  have h2 : b - a + (c - b) = c - a := by omega
  rw [h1, h2] at happ
  rw [items, items, items, ← happ, List.filter_append, List.map_append]

theorem items_none {a b : Nat} (h : ∀ i, a ≤ i → i < b → usedAt n tab i = false) :
    items n tab a b = [] := by
  rw [items, List.map_eq_nil_iff, List.filter_eq_nil_iff]
  intro i hi
  rw [List.mem_range'_1] at hi
  rw [h i hi.1 (by omega)]
  decide

theorem mem_items {a b j : Nat} {o : α} : (j, o) ∈ items n tab a b ↔
    a ≤ j ∧ j < b ∧ usedAt n tab j = true ∧ (tab (j / n)).data (j % n) = o := by
  rw [items, List.mem_map]
  constructor
  · rintro ⟨i, hi, heq⟩
    rw [List.mem_filter, List.mem_range'_1] at hi
    cases heq
    exact ⟨hi.1.1, by omega, hi.2, rfl⟩
  · rintro ⟨ha, hb, hu, rfl⟩
    exact ⟨j, List.mem_filter.mpr ⟨List.mem_range'_1.mpr (by omega), hu⟩, rfl⟩

theorem items_sorted (a b : Nat) : ((items n tab a b).map Prod.fst).Pairwise (· < ·) := by
  rw [items, List.map_map]
  have hid : Prod.fst ∘ item n tab = id := rfl
  rw [hid, List.map_id]
  exact (List.pairwise_lt_range' 1).filter _

/-! ## The loops -/

section

variable {it it' : ChunkIter α} {fuel j : Nat}

theorem incr_error {e : BpErr} (hb : it.bump n load = .error e) :
    incr n load inRange (fuel + 1) it = .error e := by
  rw [incr, hb]
  rfl

theorem incr_out (hb : it.bump n load = .ok it')
    (hout : it'.cptr = none ∨ inRange it'.chunk = false) :
    incr n load inRange (fuel + 1) it = .ok it' := by
  simp only [incr, hb, bind, Except.bind]
  cases hc : it'.cptr with
  | none => rfl
  | some c =>
      rcases hout with h | h
      · rw [h] at hc
        cases hc
      · rw [h]
        rfl

theorem incr_used (hb : it.bump n load = .ok (atIndex n tab j)) (hu : usedAt n tab j = true) :
    incr n load inRange (fuel + 1) it = .ok (atIndex n tab j) := by
  have hslot : (tab (j / n)).slots (j % n) = true := hu
  simp only [incr, hb, bind, Except.bind, atIndex, hslot, Bool.not_true, Bool.and_false]
  rfl

theorem incr_skip (hb : it.bump n load = .ok (atIndex n tab j)) (hr : inRange (j / n) = true)
    (hu : usedAt n tab j = false) :
    incr n load inRange (fuel + 1) it = incr n load inRange fuel (atIndex n tab j) := by
  have hslot : (tab (j / n)).slots (j % n) = false := hu
  simp only [incr, hb, bind, Except.bind, atIndex, hslot, hr]
  rfl

theorem collect_end {next : ChunkIter α → Except BpErr (ChunkIter α)} (h : atEnd it = true) :
    collect n next atEnd (fuel + 1) it = .ok [] := by
  rw [collect, h]
  rfl

theorem collect_at {next : ChunkIter α → Except BpErr (ChunkIter α)}
    (h : atEnd (atIndex n tab j) = false) :
    collect n next atEnd (fuel + 1) (atIndex n tab j) =
      (next (atIndex n tab j) >>= collect n next atEnd fuel).map (item n tab j :: ·) := by
  have hj : j / n * n + j % n = j := by
    rw [Nat.mul_comm]
    exact Nat.div_add_mod j n
  rw [collect, h, atIndex]
  simp only [Bool.false_eq_true, if_false, hj, bind, Except.bind]
  cases next ⟨j / n, some (tab (j / n)), j % n⟩ with
  | error e => rfl
  | ok it =>
      simp only []
      cases collect n next atEnd fuel it with
      | error e => rfl
      | ok l => rfl

end

/-- The iterator goes from index to index, and from the last one below `L` to
its end. -/
structure Walks (n : Nat) (tab : Nat → Chunk α) (load : Nat → Except BpErr (Option (Chunk α)))
    (inRange : Nat → Bool) (atEnd : ChunkIter α → Bool) (L : Nat)
    (fin : Except BpErr (ChunkIter α)) : Prop where
  bump : ∀ i, i + 1 < L → (atIndex n tab i).bump n load = .ok (atIndex n tab (i + 1))
  last : ∀ i, i + 1 = L → (atIndex n tab i).bump n load = fin
  inside : ∀ i, i < L → inRange (i / n) = true ∧ atEnd (atIndex n tab i) = false
  outside : ∀ it, fin = .ok it → atEnd it = true ∧ (it.cptr = none ∨ inRange it.chunk = false)

/-- The rest of a loop that goes on from index `i`. -/
theorem Walks.rest (h : Walks n tab load inRange atEnd L fin) (hF : L ≤ F) :
    ∀ (k : Nat) {i fuel fuel' : Nat}, i + 1 + k = L → k < fuel → k < fuel' →
      (incr n load inRange fuel (atIndex n tab i) >>=
        collect n (incr n load inRange F) atEnd fuel') =
      fin.map fun _ => items n tab (i + 1) L := by
  intro k
  induction k with
  | zero =>
      intro i fuel fuel' hi hfuel hfuel'
      obtain ⟨fuel, rfl⟩ : ∃ m, fuel = m + 1 := ⟨fuel - 1, by omega⟩
      obtain ⟨fuel', rfl⟩ : ∃ m, fuel' = m + 1 := ⟨fuel' - 1, by omega⟩
      have hL : i + 1 = L := by omega
      have hlast := h.last i hL
      rw [hL, items_self]
      cases hfin : fin with
      | error e =>
          rw [incr_error (hlast.trans hfin)]
          rfl
      | ok it =>
          obtain ⟨hend, hout⟩ := h.outside it hfin
          rw [incr_out (hlast.trans hfin) hout]
          exact collect_end hend
  | succ k ih =>
      intro i fuel fuel' hi hfuel hfuel'
      obtain ⟨fuel, rfl⟩ : ∃ m, fuel = m + 1 := ⟨fuel - 1, by omega⟩
      obtain ⟨fuel', rfl⟩ : ∃ m, fuel' = m + 1 := ⟨fuel' - 1, by omega⟩
      have hbump := h.bump i (by omega)
      obtain ⟨hr, hnot⟩ := h.inside (i + 1) (by omega)
      rw [items_cons (by omega)]
      cases hu : usedAt n tab (i + 1) with
      | true =>
          rw [incr_used hbump hu]
          show collect n _ atEnd (fuel' + 1) (atIndex n tab (i + 1)) = _
          rw [collect_at hnot, ih (by omega) (by omega) (by omega), if_pos rfl]
          cases fin with
          | error e => rfl
          | ok it => rfl
      | false =>
          rw [incr_skip hbump hr hu, ih (by omega) (by omega) (by omega), if_neg (by decide)]

/-- A loop that starts at index `i`. -/
theorem Walks.collect (h : Walks n tab load inRange atEnd L fin) (hF : L ≤ F) {i fuel : Nat}
    (hi : i < L) (hfuel : L ≤ fuel) :
    ChunkIter.collect n (incr n load inRange F) atEnd (fuel + 1) (atIndex n tab i) =
      fin.map fun _ => item n tab i :: items n tab (i + 1) L := by
  rw [collect_at (h.inside i hi).2, h.rest hF (L - (i + 1)) (by omega) (by omega) (by omega)]
  cases fin with
  | error e => rfl
  | ok it => rfl

/-! ## Vectors of chunks -/

/-- Looking up a chunk of a vector that consists of the first `u` chunks of
`tab`. -/
structure Lookup (load : Nat → Except BpErr (Option (Chunk α))) (tab : Nat → Chunk α) (u : Nat) :
    Prop where
  inside : ∀ k, k < u → load k = .ok (some (tab k))
  outside : ∀ k, u ≤ k → load k = .ok none ∨ ∃ e, load k = .error e
  zero : u = 0 → load 0 = .ok none

variable {u slots f l : Nat}

/-- The next slot of the same chunk, or the first one of the next. -/
theorem bump_at (hn : 0 < n) (i : Nat) : (atIndex n tab i).bump n load =
    if (i + 1) % n = 0 then (load ((i + 1) / n)).map (⟨(i + 1) / n, ·, 0⟩)
    else .ok ⟨(i + 1) / n, some (tab ((i + 1) / n)), (i + 1) % n⟩ := by
  have hlt := Nat.mod_lt i hn
  have hdiv := Nat.div_add_mod i n
  rw [bump, atIndex]
  by_cases hwrap : i % n + 1 = n
  · have hnext : i + 1 = n * (i / n + 1) := by
      rw [Nat.mul_add, Nat.mul_one]
      omega
    have hq : (i + 1) / n = i / n + 1 := by rw [hnext, Nat.mul_div_cancel_left _ hn]
    have hr : (i + 1) % n = 0 := by rw [hnext, Nat.mul_mod_right]
    rw [if_pos hwrap, if_pos hr, hq]
    cases load (i / n + 1) with
    | error e => rfl
    | ok c => rfl
  · have hlt' : i % n + 1 < n := by omega
    have hnext : i + 1 = n * (i / n) + (i % n + 1) := by omega
    have hq : (i + 1) / n = i / n := by
      rw [hnext, Nat.mul_add_div hn, Nat.div_eq_of_lt hlt', Nat.add_zero]
    have hr : (i + 1) % n = i % n + 1 := by
      rw [hnext, Nat.mul_add_mod, Nat.mod_eq_of_lt hlt']
    rw [if_neg hwrap, if_neg (by omega), hq, hr]
    rfl

/-- A walk through the chunks below `m`. -/
theorem Lookup.walks (h : Lookup load tab u) (hn : 0 < n) {m : Nat} (hm : m ≤ u)
    (hinside : ∀ i, i < m * n → inRange (i / n) = true ∧ atEnd (atIndex n tab i) = false)
    (houtside : ∀ c, load m = .ok c → atEnd ⟨m, c, 0⟩ = true ∧ (c = none ∨ inRange m = false)) :
    Walks n tab load inRange atEnd (m * n) ((load m).map (⟨m, ·, 0⟩)) where
  bump i hi := by
    rw [bump_at hn]
    split
    · next hr =>
        have hlt : (i + 1) / n < u := by
          have := (Nat.div_lt_iff_lt_mul hn).mpr hi
          omega
        rw [h.inside _ hlt, atIndex, hr]
        rfl
    · rfl
  last i hi := by
    rw [bump_at hn, hi, Nat.mul_mod_left, if_pos rfl, Nat.mul_div_cancel _ hn]
  inside := hinside
  outside it hit := by
    cases hc : load m with
    | error e =>
        rw [hc] at hit
        cases hit
    | ok c =>
        rw [hc] at hit
        cases hit
        exact houtside c hc

/-- A loop from `begin()` when the first chunk has a record. -/
theorem Lookup.loop_eq (h : Lookup load tab u) (hn : 0 < n) (hu : 0 < u) (hslots : u * n ≤ slots)
    (hfirst : ∃ j, j < n ∧ (tab 0).slots j = true) :
    loop n load slots (make n 0 (some (tab 0)) 0) =
      (load u).map fun _ => items n tab 0 (u * n) := by
  have hwalk : Walks n tab load (fun _ => true) isEnd (u * n) ((load u).map (⟨u, ·, 0⟩)) := by
    refine h.walks hn (Nat.le_refl u) (fun i _ => ⟨rfl, rfl⟩) fun c hc => ?_
    rcases h.outside u (Nat.le_refl u) with hnone | ⟨e, he⟩
    · rw [hnone] at hc
      cases hc
      exact ⟨rfl, .inl rfl⟩
    · rw [he] at hc
      cases hc
  have hle : n ≤ u * n := Nat.le_mul_of_pos_left n hu
  rw [make]
  simp only [Nat.zero_le, decide_true, Bool.true_and]
  cases hj : (List.range n).find? (tab 0).slots with
  | none =>
      obtain ⟨j, hjn, hused⟩ := hfirst
      have hno := List.find?_eq_none.mp hj j (List.mem_range.mpr hjn)
      exact absurd hused hno
  | some j =>
      obtain ⟨hused, hmem, hbefore⟩ := List.find?_range_eq_some.mp hj
      have hjn := List.mem_range.mp hmem
      have hat : atIndex n tab j = ⟨0, some (tab 0), j⟩ := by
        rw [atIndex, Nat.div_eq_of_lt hjn, Nat.mod_eq_of_lt hjn]
      have husedAt : ∀ i, i < n → usedAt n tab i = (tab 0).slots i := by
        intro i hi
        rw [usedAt, Nat.div_eq_of_lt hi, Nat.mod_eq_of_lt hi]
      have hitems : items n tab 0 (u * n) = item n tab j :: items n tab (j + 1) (u * n) := by
        rw [← items_append (Nat.zero_le j) (show j ≤ u * n by omega), items_none, List.nil_append,
          items_cons (by omega), husedAt j hjn, hused, if_pos rfl]
        intro i _ hi
        rw [husedAt i (by omega)]
        simpa using hbefore i hi
      simp only [loop]
      rw [← hat, hwalk.collect (Nat.le_succ_of_le hslots) (by omega) hslots, hitems]
      cases load u with
      | error e => rfl
      | ok c => rfl

theorem loop_none : loop n load slots (make n 0 none 0) = .ok [] := by
  rw [loop, make]
  exact collect_end rfl

/-- A loop over a range visits the first slot of the range in any case. -/
theorem Lookup.rangeLoop_eq (h : Lookup load tab u) (hn : 0 < n) (hf : f < u) (hfl : f ≤ l)
    (hslots : u * n ≤ slots) :
    rangeLoop n load slots l ⟨f, some (tab f), 0⟩ =
      (load (min u (l + 1))).map fun _ =>
        item n tab (f * n) :: items n tab (f * n + 1) (min u (l + 1) * n) := by
  have hwalk : Walks n tab load (fun k => decide (k ≤ l)) (isPast l) (min u (l + 1) * n)
      ((load (min u (l + 1))).map (⟨min u (l + 1), ·, 0⟩)) := by
    refine h.walks hn (Nat.min_le_left _ _) (fun i hi => ?_) fun c hc => ?_
    · have hlt := (Nat.div_lt_iff_lt_mul hn).mpr hi
      have hle : i / n ≤ l := by omega
      simp [isPast, atIndex, hle]
    · rcases Nat.lt_or_ge l u with hlu | hul
      · have hmin : min u (l + 1) = l + 1 := by omega
        rw [hmin]
        simp [isPast]
      · have hmin : min u (l + 1) = u := by omega
        rw [hmin] at hc ⊢
        rcases h.outside u (Nat.le_refl u) with hnone | ⟨e, he⟩
        · rw [hnone] at hc
          cases hc
          simp [isPast]
        · rw [he] at hc
          cases hc
  have hat : atIndex n tab (f * n) = ⟨f, some (tab f), 0⟩ := by
    rw [atIndex, Nat.mul_div_cancel _ hn, Nat.mul_mod_left]
  have hlt : f * n < min u (l + 1) * n := Nat.mul_lt_mul_of_pos_right (by omega) hn
  have hle : min u (l + 1) * n ≤ u * n := Nat.mul_le_mul_right n (Nat.min_le_left _ _)
  rw [rangeLoop, ← hat, hwalk.collect (by omega) hlt (by omega)]
  cases load (min u (l + 1)) with
  | error e => rfl
  | ok c => rfl

theorem rangeLoop_none : rangeLoop n load slots l ⟨f, none, 0⟩ = .ok [] := by
  rw [rangeLoop]
  refine collect_end ?_
  simp [isPast]

end ChunkIter

/-! ## Partitions -/

/-- Consecutive ranges that make up the numbers from `a` up to `b`. -/
inductive Consecutive : Nat → Nat → List (Nat × Nat) → Prop
  | nil {a : Nat} : Consecutive a a []
  | cons {a l b : Nat} {rest : List (Nat × Nat)} (hal : a ≤ l) (h : Consecutive (l + 1) b rest) :
      Consecutive a b ((a, l) :: rest)

/-- Consecutive ranges for all the chunk numbers below `chunks`. The last one
may go beyond them, as the last one of a parallel scan does. -/
structure Partition (chunks : Nat) (parts : List (Nat × Nat)) : Prop where
  covers : ∃ b, chunks ≤ b ∧ Consecutive 0 b parts
  starts : ∀ p ∈ parts, p.1 < chunks

/-- The records that loops over the ranges visit one after the other. -/
def concatRanges (range : Nat → Nat → Except BpErr (List (Nat × α))) :
    List (Nat × Nat) → Except BpErr (List (Nat × α))
  | [] => pure []
  | p :: parts => do
      let visited ← range p.1 p.2
      let rest ← concatRanges range parts
      pure (visited ++ rest)

/-- The loop from `begin()` to `end()` visits the used indices in order, each
once, and so do the loops over the ranges together. -/
def IterationComplete (view : Nat → Option α) (iterate : Except BpErr (List (Nat × α)))
    (range : Nat → Nat → Except BpErr (List (Nat × α))) (parts : List (Nat × Nat)) : Prop :=
  ∃ visited, iterate = .ok visited ∧ (visited.map Prod.fst).Pairwise (· < ·) ∧
    (∀ j o, (j, o) ∈ visited ↔ view j = some o) ∧ concatRanges range parts = .ok visited

theorem Consecutive.le_of_mem {a b f l : Nat} {parts : List (Nat × Nat)} (h : Consecutive a b parts)
    (hp : (f, l) ∈ parts) : f ≤ l := by
  induction h with
  | nil => cases hp
  | cons hal _ ih =>
      rcases List.mem_cons.mp hp with heq | hp
      · cases heq
        exact hal
      · exact ih hp

theorem mem_concatRanges {range : Nat → Nat → Except BpErr (List (Nat × α))}
    {parts : List (Nat × Nat)} {visited : List (Nat × α)}
    (h : concatRanges range parts = .ok visited)
    {p : Nat × Nat} (hp : p ∈ parts) : ∃ own, range p.1 p.2 = .ok own ∧ ∀ e ∈ own, e ∈ visited := by
  induction parts generalizing visited with
  | nil => cases hp
  | cons q parts ih =>
      simp only [concatRanges, bind, Except.bind] at h
      cases hq : range q.1 q.2 with
      | error e =>
          rw [hq] at h
          cases h
      | ok own =>
          rw [hq] at h
          cases hr : concatRanges range parts with
          | error e =>
              rw [hr] at h
              cases h
          | ok rest =>
              rw [hr] at h
              cases h
              rcases List.mem_cons.mp hp with rfl | hp
              · exact ⟨own, hq, fun e he => List.mem_append_left _ he⟩
              · obtain ⟨own', hown, hmem⟩ := ih hr hp
                exact ⟨own', hown, fun e he => List.mem_append_right _ (hmem e he)⟩

namespace ChunkIter

variable {n u slots : Nat} {tab : Nat → Chunk α} {load : Nat → Except BpErr (Option (Chunk α))}

/-- The chunks by number. -/
def chunks (tab : Nat → Chunk α) (u : Nat) (k : Nat) : Option (Chunk α) :=
  if k < u then some (tab k) else none

theorem mem_items_iff (hn : 0 < n) (j : Nat) (o : α) :
    (j, o) ∈ items n tab 0 (u * n) ↔ chunkView n (chunks tab u) j = some o := by
  rw [mem_items, chunkView, chunks]
  constructor
  · rintro ⟨-, hlt, hused, rfl⟩
    have hused' : (tab (j / n)).slots (j % n) = true := hused
    rw [if_pos ((Nat.div_lt_iff_lt_mul hn).mpr hlt), Option.bind_some, hused', if_pos rfl]
  · intro h
    split at h
    · next hlt =>
        rw [Option.bind_some] at h
        split at h
        · next hused =>
            exact ⟨Nat.zero_le j, (Nat.div_lt_iff_lt_mul hn).mp hlt, hused, Option.some.inj h⟩
        · cases h
    · cases h

/-- Looking up works at the end of the vector and at the start of each part,
and each part starts with a slot in use if it starts in the vector. -/
def PartsReady (load : Nat → Except BpErr (Option (Chunk α))) (tab : Nat → Chunk α) (u : Nat)
    (parts : List (Nat × Nat)) : Prop :=
  (0 < u → load u = .ok none) ∧
    ∀ p ∈ parts, (u ≤ p.1 → load p.1 = .ok none) ∧ (p.1 < u → (tab p.1).slots 0 = true)

theorem usedAt_start (hn : 0 < n) (f : Nat) : usedAt n tab (f * n) = (tab f).slots 0 := by
  rw [usedAt, Nat.mul_div_cancel _ hn, Nat.mul_mod_left]

section

variable {range : Nat → Nat → Except BpErr (List (Nat × α))}

/-- Loops over ranges that are ready visit what is in use there. -/
theorem concatRanges_ready (h : Lookup load tab u) (hn : 0 < n) (hslots : u * n ≤ slots)
    {a b : Nat} {parts : List (Nat × Nat)}
    (hrange : ∀ p ∈ parts, range p.1 p.2 =
      (load p.1 >>= fun c => rangeLoop n load slots p.2 ⟨p.1, c, 0⟩))
    (hparts : Consecutive a b parts) (hb : u ≤ b) (hready : PartsReady load tab u parts) :
    concatRanges range parts = .ok (items n tab (min a u * n) (u * n)) := by
  induction hparts with
  | @nil a =>
      have hmin : min a u = u := by omega
      rw [hmin, items_self]
      rfl
  | @cons a l b rest hal hrest ih =>
      have hp := hready.2 (a, l) (List.mem_cons_self ..)
      have hrec := ih (fun p hp => hrange p (List.mem_cons_of_mem _ hp)) hb
        ⟨hready.1, fun p hp => hready.2 p (List.mem_cons_of_mem _ hp)⟩
      have hown : range a l = .ok (items n tab (min a u * n) (min (l + 1) u * n)) := by
        rw [hrange _ (List.mem_cons_self ..)]
        rcases Nat.lt_or_ge a u with hau | hua
        · have hcut : load (min u (l + 1)) = .ok none ∨ ∃ c, load (min u (l + 1)) =
            .ok (some c) := by
            rcases Nat.lt_or_ge (l + 1) u with hlu | hul
            · rw [Nat.min_eq_right (Nat.le_of_lt hlu)]
              exact .inr ⟨_, h.inside _ hlu⟩
            · rw [Nat.min_eq_left hul]
              exact .inl (hready.1 (by omega))
          have hloop := h.rangeLoop_eq hn hau hal hslots
          have hitems : items n tab (a * n) (min u (l + 1) * n) =
              item n tab (a * n) :: items n tab (a * n + 1) (min u (l + 1) * n) := by
            rw [items_cons (Nat.mul_lt_mul_of_pos_right (by omega) hn), usedAt_start hn,
              hp.2 hau, if_pos rfl]
          rw [h.inside a hau]
          show rangeLoop n load slots l ⟨a, some (tab a), 0⟩ = _
          rw [hloop, ← hitems, Nat.min_eq_left (Nat.le_of_lt hau), Nat.min_comm u]
          rcases hcut with hc | ⟨c, hc⟩
          · rw [Nat.min_comm, hc]
            rfl
          · rw [Nat.min_comm, hc]
            rfl
        · have h1 : min a u = u := by omega
          have h2 : min (l + 1) u = u := by omega
          rw [h1, h2, items_self, hp.1 hua]
          show rangeLoop n load slots l ⟨a, none, 0⟩ = .ok []
          exact rangeLoop_none
      simp only [concatRanges, bind, Except.bind, hown, hrec]
      have h1 : min a u * n ≤ min (l + 1) u * n := Nat.mul_le_mul_right n (by omega)
      have h2 : min (l + 1) u * n ≤ u * n := Nat.mul_le_mul_right n (Nat.min_le_right _ _)
      rw [items_append h1 h2]
      rfl

/-- The loops visit what is in use exactly when the parts are ready. -/
theorem complete_iff (h : Lookup load tab u) (hn : 0 < n) (hslots : u * n ≤ slots)
    {iterate : Except BpErr (List (Nat × α))} {count : Nat} {parts : List (Nat × Nat)}
    (hiter : iterate = (load 0 >>= fun c => loop n load slots (make n 0 c 0)))
    (hrange : ∀ p ∈ parts, range p.1 p.2 =
      (load p.1 >>= fun c => rangeLoop n load slots p.2 ⟨p.1, c, 0⟩))
    (hcount : u ≤ count) (hparts : Partition count parts) :
    IterationComplete (chunkView n (chunks tab u)) iterate range parts ↔
      PartsReady load tab u parts := by
  obtain ⟨b, hb, hcons⟩ := hparts.covers
  -- the first part starts in the first chunk
  have hfirst : 0 < u → ∃ l, (0, l) ∈ parts := by
    intro hu
    cases hcons with
    | nil => omega
    | cons _ _ => exact ⟨_, List.mem_cons_self ..⟩
  have hloop : 0 < u → (tab 0).slots 0 = true →
      iterate = (load u).map fun _ => items n tab 0 (u * n) := by
    intro hu hslot
    rw [hiter, h.inside 0 hu]
    exact h.loop_eq hn hu hslots ⟨0, hn, hslot⟩
  constructor
  · rintro ⟨visited, hvisited, -, hmem, hconcat⟩
    have hready : ∀ p ∈ parts, (u ≤ p.1 → load p.1 = .ok none) ∧
        (p.1 < u → (tab p.1).slots 0 = true) := by
      intro p hp
      obtain ⟨own, hown, hsub⟩ := mem_concatRanges hconcat hp
      rw [hrange p hp] at hown
      refine ⟨fun hup => ?_, fun hpu => ?_⟩
      · rcases h.outside p.1 hup with hnone | ⟨e, he⟩
        · exact hnone
        · rw [he] at hown
          cases hown
      · obtain ⟨f, l⟩ := p
        rw [h.inside f hpu] at hown
        have hfl := hcons.le_of_mem hp
        have heq : rangeLoop n load slots l ⟨f, some (tab f), 0⟩ = .ok own := hown
        rw [h.rangeLoop_eq hn hpu hfl hslots] at heq
        have hin : item n tab (f * n) ∈ own := by
          cases hc : load (min u (l + 1)) with
          | error e =>
              rw [hc] at heq
              cases heq
          | ok c =>
              rw [hc] at heq
              cases heq
              exact List.mem_cons_self ..
        have hview := (hmem _ _).mp (hsub _ hin)
        rw [← mem_items_iff hn, mem_items, usedAt_start hn] at hview
        exact hview.2.2.1
    refine ⟨fun hu => ?_, hready⟩
    obtain ⟨l, hl⟩ := hfirst hu
    rw [hloop hu ((hready _ hl).2 hu)] at hvisited
    rcases h.outside u (Nat.le_refl u) with hnone | ⟨e, he⟩
    · exact hnone
    · rw [he] at hvisited
      cases hvisited
  · intro hready
    refine ⟨items n tab 0 (u * n), ?_, items_sorted _ _, fun j o => mem_items_iff hn j o, ?_⟩
    · rcases Nat.eq_zero_or_pos u with hu | hu
      · rw [hiter, h.zero hu, hu, Nat.zero_mul, items_self]
        show loop n load slots (make n 0 none 0) = .ok []
        exact loop_none
      · obtain ⟨l, hl⟩ := hfirst hu
        rw [hloop hu ((hready.2 _ hl).2 hu), hready.1 hu]
        rfl
    · rw [concatRanges_ready h hn hslots hrange hcons (by omega) hready, Nat.zero_min, Nat.zero_mul]

end

end ChunkIter

/-! ## The two vectors -/

namespace MemVec

variable [Inhabited α] {n : Nat} {v : MemVec α} {parts : List (Nat × Nat)}

/-- Every part starts with a slot in use. -/
def IterReady (v : MemVec α) (parts : List (Nat × Nat)) : Prop :=
  ∀ p ∈ parts, ∀ c, v.chunks[p.1]? = some c → c.slots 0 = true

/-- The chunks of a vector in memory. -/
def chunkAt (v : MemVec α) (k : Nat) : Chunk α := v.chunks[k]?.getD .empty

theorem lookup (v : MemVec α) : ChunkIter.Lookup v.load v.chunkAt v.chunks.length where
  inside k hk := by
    rw [load, chunkAt, List.getElem?_eq_getElem hk]
    rfl
  outside k hk := by
    rw [load, List.getElem?_eq_none hk]
    exact .inl rfl
  zero h := by
    rw [load, List.getElem?_eq_none (Nat.le_of_eq h)]

theorem view_chunks (j : Nat) :
    v.view n j = chunkView n (ChunkIter.chunks v.chunkAt v.chunks.length) j := by
  have htab : v.tab = ChunkIter.chunks v.chunkAt v.chunks.length := by
    funext k
    rw [tab, ChunkIter.chunks, chunkAt]
    split
    · next hk =>
        rw [List.getElem?_eq_getElem hk]
        rfl
    · next hk => exact List.getElem?_eq_none (Nat.le_of_not_lt hk)
  rw [view_eq, htab]

/-- The lookups of a vector in memory do not fail. -/
theorem partsReady_iff :
    ChunkIter.PartsReady v.load v.chunkAt v.chunks.length parts ↔ v.IterReady parts := by
  constructor
  · intro h p hp c hc
    obtain ⟨hlt, -⟩ := List.getElem?_eq_some_iff.mp hc
    have hslot := (h.2 p hp).2 hlt
    rw [chunkAt, hc] at hslot
    exact hslot
  · intro h
    have hpast : ∀ k, v.chunks.length ≤ k → v.load k = .ok none := by
      intro k hk
      rw [load, List.getElem?_eq_none hk]
    refine ⟨fun _ => hpast _ (Nat.le_refl _), fun p hp => ⟨hpast p.1, fun hlt => ?_⟩⟩
    have hget := List.getElem?_eq_getElem hlt
    rw [chunkAt, hget]
    exact h p hp _ hget

/-- All loops over the vector visit what is in use. -/
def IteratesAll (n : Nat) (v : MemVec α) (parts : List (Nat × Nat)) : Prop :=
  IterationComplete (v.view n) (v.iterate n) (fun first last => v.range n first last) parts

theorem iteratesAll_iff (hn : 0 < n) (hparts : Partition v.numChunks parts) :
    v.IteratesAll n parts ↔ v.IterReady parts := by
  have hview : v.view n = chunkView n (ChunkIter.chunks v.chunkAt v.chunks.length) :=
    funext fun _ => view_chunks _
  have hiter : v.iterate n = (v.load 0 >>= fun c =>
      ChunkIter.loop n v.load (v.chunks.length * n) (.make n 0 c 0)) := by
    rw [iterate, load, List.head?_eq_getElem?]
    rfl
  have hrange : ∀ p ∈ parts, v.range n p.1 p.2 = (v.load p.1 >>= fun c =>
      ChunkIter.rangeLoop n v.load (v.chunks.length * n) p.2 ⟨p.1, c, 0⟩) := by
    intro p hp
    have hlt : p.1 < v.chunks.length := hparts.starts p hp
    have hne : v.chunks ≠ [] := List.ne_nil_of_length_pos (by omega)
    rw [range, if_neg hne, load, List.getElem?_eq_getElem hlt]
    rfl
  rw [IteratesAll, hview, ← partsReady_iff]
  exact ChunkIter.complete_iff v.lookup hn (Nat.le_refl _) hiter hrange (Nat.le_refl _) hparts

end MemVec

namespace BufVec

variable {n u : Nat} {v : BufVec α} {parts : List (Nat × Nat)}

/-- Every part starts with a slot in use, unless no chunk is there, and every
page of the file that is looked up has a bit: the one behind the chunks, and
the first one of each part. -/
structure IterReady (v : BufVec α) (parts : List (Nat × Nat)) : Prop where
  starts : ∀ p ∈ parts, v.file.holds (p.1 + 1) = true → (v.file.pages p.1).slots 0 = true
  behind : 0 < v.file.nextPage → v.file.nextPage < v.file.npages → v.file.nextPage < maxPages
  tested : ∀ p ∈ parts, p.1 < v.file.npages → p.1 < maxPages

theorem Ok.load_outside (h : v.Ok n u) {k : Nat} (hk : u ≤ k) :
    v.load k = if k < v.file.npages ∧ maxPages ≤ k then .error .outOfRange else .ok none := by
  have hslot : v.file.slots k = false := by
    rw [h.packed.slots_eq, decide_eq_false_iff_not]
    omega
  simp only [load, hslot, Bool.false_eq_true, if_false]
  rcases Nat.lt_or_ge k v.file.npages with hlt | hge
  · rw [if_neg (by omega)]
    simp only [hlt, true_and]
  · rw [if_pos (by omega), if_neg (by omega)]

theorem Ok.load_ok_iff (h : v.Ok n u) {k : Nat} (hk : u ≤ k) :
    v.load k = .ok none ↔ (k < v.file.npages → k < maxPages) := by
  rw [h.load_outside hk]
  split
  · exact iff_of_false (fun h => by cases h) (by omega)
  · exact iff_of_true rfl (by omega)

theorem Ok.lookup (h : v.Ok n u) : ChunkIter.Lookup v.load v.file.pages u where
  inside k hk := by
    have hle := h.packed.le_npages
    have hmax := h.packed.le
    rw [load, if_neg (by omega), if_neg (by omega), h.packed.slots_eq, decide_eq_true hk]
    rfl
  outside k hk := by
    rw [h.load_outside hk]
    split
    · exact .inr ⟨_, rfl⟩
    · exact .inl rfl
  zero hu := (h.load_ok_iff (Nat.le_of_eq hu)).mpr fun _ => by decide

theorem Ok.partsReady_iff (h : v.Ok n u) :
    ChunkIter.PartsReady v.load v.file.pages u parts ↔ v.IterReady parts := by
  have hmax := h.packed.le
  constructor
  · rintro ⟨hbehind, hparts⟩
    refine ⟨fun p hp hh => (hparts p hp).2 ((h.packed.holds_iff _).mp hh), ?_, fun p hp => ?_⟩
    · rw [h.packed.nextPage]
      exact fun hu => (h.load_ok_iff (Nat.le_refl u)).mp (hbehind hu)
    · rcases Nat.lt_or_ge p.1 u with hlt | hge
      · exact fun _ => by omega
      · exact (h.load_ok_iff hge).mp ((hparts p hp).1 hge)
  · intro hready
    have hbehind := hready.behind
    rw [h.packed.nextPage] at hbehind
    refine ⟨fun hu => (h.load_ok_iff (Nat.le_refl u)).mpr (hbehind hu), fun p hp => ⟨fun hge => ?_,
      fun hlt => ?_⟩⟩
    · exact (h.load_ok_iff hge).mpr (hready.tested p hp)
    · exact hready.starts p hp ((h.packed.holds_iff _).mpr hlt)

/-- All loops over the vector visit what is in use. -/
def IteratesAll (n : Nat) (v : BufVec α) (parts : List (Nat × Nat)) : Prop :=
  IterationComplete (v.view n) (v.iterate n) (fun first last => v.range n first last) parts

theorem Ok.iteratesAll_iff (h : v.Ok n u) (hn : 0 < n) (hparts : Partition v.numChunks parts) :
    v.IteratesAll n parts ↔ v.IterReady parts := by
  have hview : v.view n = chunkView n (ChunkIter.chunks v.file.pages u) := by
    funext j
    rw [view_eq, funext h.tab_eq]
    rfl
  have hle := h.packed.le_npages
  rw [IteratesAll, hview, ← h.partsReady_iff]
  exact ChunkIter.complete_iff h.lookup hn (Nat.mul_le_mul_right n hle) rfl (fun _ _ => rfl) hle
    hparts

end BufVec

/-- In every state that calls lead to and for every partition of the chunk
numbers, the iterators of both vectors visit what is in use exactly when each
part starts with a slot in use (and, in a file, the pages that are tested have
a bit). -/
theorem iteration_complete_iff {α : Type} [Inhabited α] (n : Nat) (hn : 0 < n)
    (parts : List (Nat × Nat)) :
    (∀ (ops : List (VecOp α)) (v : MemVec α), v = ops.foldl (MemVec.next n) .empty →
      Partition v.numChunks parts → (v.IteratesAll n parts ↔ v.IterReady parts)) ∧
    (∀ (ops : List (BufOp α)) (v : BufVec α), v = ops.foldl (BufVec.next n) .empty →
      Partition v.numChunks parts → (v.IteratesAll n parts ↔ v.IterReady parts)) := by
  refine ⟨fun ops v _ hparts => MemVec.iteratesAll_iff hn hparts, fun ops v hv hparts => ?_⟩
  have hok : ∃ u, v.Ok n u := by
    rw [hv]
    refine List.foldlRecOn (motive := fun w : BufVec α => ∃ u, w.Ok n u) ops _
      ⟨0, BufTrace.ok_new⟩ ?_
    rintro w ⟨u, hw⟩ op -
    exact BufTrace.next_ok (t := ⟨w, fun _ => False⟩) hn hw op
  obtain ⟨u, hu⟩ := hok
  exact hu.iteratesAll_iff hn hparts

/-- Two chunks, each a part, of which one has an unused slot. -/
theorem iteration_complete_iff_chunks :
    ([.append 1, .append 2, .append (3 : Nat), .erase 1].foldl (MemVec.next 2) .empty).IteratesAll 2
        [(0, 0), (1, 1)] ∧
      ([.vec (.append 1), .vec (.append 2), .vec (.append (3 : Nat)), .vec (.erase 1)].foldl
        (BufVec.next 2) .empty).IteratesAll 2 [(0, 0), (1, 1)] := by
  have hparts : Partition 2 [(0, 0), (1, 1)] :=
    ⟨⟨2, by decide, .cons (by decide) (.cons (by decide) .nil)⟩, by decide⟩
  obtain ⟨hmem, hbuf⟩ := iteration_complete_iff (α := Nat) 2 (by decide) [(0, 0), (1, 1)]
  refine ⟨(hmem [.append 1, .append 2, .append 3, .erase 1] _ rfl hparts).mpr ?_,
    (hbuf [.vec (.append 1), .vec (.append 2), .vec (.append 3), .vec (.erase 1)] _ rfl
      hparts).mpr ⟨by decide, fun _ _ => by decide, by decide⟩⟩
  simp only [MemVec.IterReady, List.forall_mem_cons]
  refine ⟨?_, ?_, nofun⟩
  · intro c hc
    cases hc
    rfl
  · intro c hc
    cases hc
    rfl

/-- The first chunk has been emptied, and `begin` takes it for the end. A range
that starts with the first slot of a page visits it after it was erased. -/
theorem loops_miss_and_invent_records :
    ¬([.append 1, .append 2, .append (3 : Nat), .erase 0, .erase 1].foldl
        (MemVec.next 2) .empty).IteratesAll 2 [(0, 1)] ∧
      ¬([.vec (.append 1), .vec (.append (2 : Nat)), .vec (.erase 0)].foldl
        (BufVec.next 2) .empty).IteratesAll 2 [(0, 0)] := by
  constructor
  · rintro ⟨visited, hiter, -, hmem, -⟩
    cases hiter
    have hat := (hmem 2 3).mpr rfl
    cases hat
  · rintro ⟨visited, hiter, -, -, hrange⟩
    cases hiter
    cases hrange

end Poseidon
