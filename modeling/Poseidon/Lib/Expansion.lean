import Mathlib.Algebra.GroupWithZero.Nat
import Mathlib.Algebra.Order.BigOperators.Group.List
import Mathlib.Data.List.Nodup

/-!
# Walks from a queue of lists

All walks from a node up to a length, found with one queue. An entry is a walk
and what is left of the list of edges at its end; the first of these edges
makes a longer walk, which is emitted, and the rest of the list and the list at
the other end are queued. So the edges of one list are not taken one after
the other: a walk comes at a place that is given by the positions of all its
edges in their lists, and not by its length.
-/

namespace Expansion

variable {ν ρ : Type} (adj : ν → List ρ) (far : ρ → ν)

/-- The edges lead from one node to the next. -/
def IsWalk : ν → List ρ → Prop
  | _, [] => True
  | v, r :: w => r ∈ adj v ∧ IsWalk (far r) w

/-- An entry of the queue: a walk, the edges that are left at its end, and
when the next of them is taken. -/
structure Entry (ρ : Type) where
  walk : List ρ
  list : List ρ
  depth : Nat

/-- The loop: the walks that are emitted, each with its place. -/
def loop (bound : Nat) : Nat → List (Entry ρ) → Option (List (List ρ × Nat))
  | _, [] => some []
  | 0, _ :: _ => none
  | fuel + 1, ⟨_, [], _⟩ :: queue => loop bound fuel queue
  | fuel + 1, ⟨walk, r :: rest, depth⟩ :: queue =>
      if walk.length < bound then
        (loop bound fuel (queue ++
          [⟨walk, rest, depth + 1⟩, ⟨walk ++ [r], adj (far r), depth + 1⟩])).map
            ((walk ++ [r], depth) :: ·)
      else loop bound fuel queue

/-- The walks that start with `p` and go on over an edge of `l`, at most `k`
edges longer. -/
def walks : Nat → List ρ → List ρ → List (List ρ)
  | 0, _, _ => []
  | k + 1, p, l => l.flatMap fun r => (p ++ [r]) :: walks k (p ++ [r]) (adj (far r))

/-- The number of entries that one entry leads to, itself included. -/
def work : Nat → List ρ → Nat
  | 0, _ => 1
  | k + 1, l => l.foldr (fun r n => n + work k (adj (far r)) + 1) 1

variable {adj far} {bound k : Nat} {p l w : List ρ} {queue : List (Entry ρ)}
  {out : List (List ρ × Nat)} {v : ν} {r : ρ}

theorem walks_nil : walks adj far k p [] = [] := by
  cases k <;> rfl

theorem walks_cons : walks adj far (k + 1) p (r :: l) =
    (p ++ [r]) :: walks adj far k (p ++ [r]) (adj (far r)) ++ walks adj far (k + 1) p l := rfl

theorem work_pos : 0 < work adj far k l := by
  cases k with
  | zero => exact Nat.one_pos
  | succ k =>
      cases l with
      | nil => exact Nat.one_pos
      | cons r l => exact Nat.succ_pos _

theorem work_cons : work adj far (k + 1) (r :: l) =
    work adj far (k + 1) l + work adj far k (adj (far r)) + 1 := rfl

/-- With fuel for all entries the loop returns, and emits the walks of all
entries. -/
theorem loop_perm (fuel : Nat) (queue : List (Entry ρ))
    (hfuel : (queue.map fun e => work adj far (bound - e.walk.length) e.list).sum ≤ fuel) :
    ∃ out, loop adj far bound fuel queue = some out ∧ (out.map Prod.fst).Perm
      (queue.flatMap fun e => walks adj far (bound - e.walk.length) e.walk e.list) := by
  induction fuel generalizing queue with
  | zero =>
      cases queue with
      | nil => exact ⟨[], rfl, List.Perm.nil⟩
      | cons e queue =>
          have hpos := @work_pos ν ρ adj far (bound - e.walk.length) e.list
          rw [List.map_cons, List.sum_cons] at hfuel
          omega
  | succ fuel ih =>
      cases queue with
      | nil => exact ⟨[], rfl, List.Perm.nil⟩
      | cons e queue =>
          obtain ⟨walk, list, depth⟩ := e
          have hpos := @work_pos ν ρ adj far (bound - walk.length) list
          rw [List.map_cons, List.sum_cons] at hfuel
          simp only [] at hfuel
          cases list with
          | nil =>
              obtain ⟨out, hout, hperm⟩ := ih queue (by omega)
              refine ⟨out, hout, ?_⟩
              rw [List.flatMap_cons, walks_nil]
              exact hperm
          | cons r rest =>
              by_cases hlt : walk.length < bound
              · obtain ⟨k, hk⟩ : ∃ k, bound - walk.length = k + 1 :=
                  ⟨bound - walk.length - 1, by omega⟩
                have hk' : bound - (walk ++ [r]).length = k := by
                  rw [List.length_append, List.length_singleton]
                  omega
                rw [hk, work_cons] at hfuel
                obtain ⟨out, hout, hperm⟩ := ih (queue ++
                  [⟨walk, rest, depth + 1⟩, ⟨walk ++ [r], adj (far r), depth + 1⟩]) (by
                    simp only [List.map_append, List.map_cons, List.map_nil, List.sum_append,
                      List.sum_cons, List.sum_nil, hk, hk']
                    omega)
                refine ⟨(walk ++ [r], depth) :: out, ?_, ?_⟩
                · rw [loop, if_pos hlt, hout]
                  rfl
                · simp only [List.flatMap_append, List.flatMap_cons, List.flatMap_nil, hk, hk',
                    List.append_nil] at hperm ⊢
                  rw [walks_cons, List.map_cons, List.cons_append, List.cons_append]
                  refine List.Perm.cons _ (hperm.trans ?_)
                  exact List.perm_append_comm.trans (List.Perm.append_right _ List.perm_append_comm)
              · obtain ⟨out, hout, hperm⟩ := ih queue (by omega)
                refine ⟨out, ?_, ?_⟩
                · rw [loop, if_neg hlt, hout]
                · have hzero : bound - walk.length = 0 := by omega
                  rw [List.flatMap_cons]
                  simp only [hzero]
                  exact hperm

/-! ## The walks -/

theorem mem_walks : w ∈ walks adj far k p l ↔
    ∃ r t, r ∈ l ∧ w = p ++ r :: t ∧ IsWalk adj far (far r) t ∧ t.length < k := by
  induction k generalizing p l with
  | zero =>
      refine iff_of_false List.not_mem_nil ?_
      rintro ⟨r, t, -, -, -, hlt⟩
      exact Nat.not_lt_zero _ hlt
  | succ k ih =>
      rw [walks, List.mem_flatMap]
      constructor
      · rintro ⟨r, hr, hw⟩
        rcases List.mem_cons.mp hw with rfl | hw
        · exact ⟨r, [], hr, rfl, trivial, Nat.succ_pos _⟩
        · obtain ⟨r', t, hr', rfl, hwalk, hlt⟩ := ih.mp hw
          exact ⟨r, r' :: t, hr, by rw [List.append_assoc, List.singleton_append], ⟨hr', hwalk⟩,
            Nat.succ_lt_succ hlt⟩
      · rintro ⟨r, t, hr, rfl, hwalk, hlt⟩
        refine ⟨r, hr, ?_⟩
        cases t with
        | nil => exact List.mem_cons_self
        | cons r' t =>
            obtain ⟨hr', hwalk'⟩ := hwalk
            exact List.mem_cons_of_mem _ (ih.mpr ⟨r', t, hr', by
              rw [List.append_assoc, List.singleton_append], hwalk', Nat.lt_of_succ_lt_succ hlt⟩)

theorem starts_with (h : w ∈ (p ++ [r]) :: walks adj far k (p ++ [r]) l) : ∃ t, w =
    p ++ r :: t := by
  rcases List.mem_cons.mp h with rfl | h
  · exact ⟨[], rfl⟩
  · obtain ⟨r', t, -, rfl, -⟩ := mem_walks.mp h
    exact ⟨r' :: t, by rw [List.append_assoc, List.singleton_append]⟩

theorem walks_nodup (hadj : ∀ v, (adj v).Nodup) (hl : l.Nodup) : (walks adj far k p l).Nodup := by
  induction k generalizing p l with
  | zero => exact List.nodup_nil
  | succ k ih =>
      rw [walks, List.nodup_flatMap]
      refine ⟨fun r _ => List.nodup_cons.mpr ⟨fun hmem => ?_, ih (hadj _)⟩, hl.imp ?_⟩
      · obtain ⟨r', t, -, heq, -⟩ := mem_walks.mp hmem
        exact List.cons_ne_nil r' t (List.append_right_eq_self.mp heq.symm)
      · intro r r' hne w hw hw'
        obtain ⟨t, rfl⟩ := starts_with hw
        obtain ⟨t', heq⟩ := starts_with hw'
        exact hne (List.cons.inj (List.append_cancel_left heq)).1

/-- From a node: the walks that are not empty and not too long. -/
theorem mem_walks_start : w ∈ walks adj far k [] (adj v) ↔
    IsWalk adj far v w ∧ 0 < w.length ∧ w.length ≤ k := by
  rw [mem_walks]
  constructor
  · rintro ⟨r, t, hr, rfl, hwalk, hlt⟩
    exact ⟨⟨hr, hwalk⟩, Nat.succ_pos _, hlt⟩
  · rintro ⟨hwalk, hpos, hle⟩
    cases w with
    | nil => exact absurd hpos (Nat.lt_irrefl 0)
    | cons r t => exact ⟨r, t, hwalk.1, rfl, hwalk.2, hle⟩

/-! ## Their order -/

/-- The places of the walks do not decrease. -/
theorem loop_sorted (fuel : Nat) (queue : List (Entry ρ))
    (hsorted : queue.Pairwise fun a b => a.depth ≤ b.depth)
    (hnear : ∀ e ∈ queue.head?, ∀ e' ∈ queue, e'.depth ≤ e.depth + 1)
    (h : loop adj far bound fuel queue = some out) :
    out.Pairwise (fun a b => a.2 ≤ b.2) ∧ ∀ e ∈ queue.head?, ∀ o ∈ out, e.depth ≤ o.2 := by
  induction fuel generalizing queue out with
  | zero =>
      cases queue with
      | nil =>
          cases h
          exact ⟨List.Pairwise.nil, fun _ _ o ho => absurd ho List.not_mem_nil⟩
      | cons e queue => cases h
  | succ fuel ih =>
      cases queue with
      | nil =>
          cases h
          exact ⟨List.Pairwise.nil, fun _ _ o ho => absurd ho List.not_mem_nil⟩
      | cons e queue =>
          obtain ⟨hle, hrest⟩ := List.pairwise_cons.mp hsorted
          have hnear' : ∀ e' ∈ queue, e'.depth ≤ e.depth + 1 := fun e' he' =>
            hnear e rfl e' (List.mem_cons_of_mem _ he')
          -- the rest of the queue, when nothing is added
          have hskip : ∀ {out : List (List ρ × Nat)}, loop adj far bound fuel queue = some out →
              out.Pairwise (fun a b => a.2 ≤ b.2) ∧ ∀ a ∈ (e :: queue).head?, ∀ o ∈ out,
              a.depth ≤ o.2 := by
            intro out hout
            obtain ⟨hpair, hhead⟩ := ih queue hrest (fun a ha b hb => by
              have hlow := hle a (List.mem_of_mem_head? ha)
              have hhigh := hnear' b hb
              omega) hout
            refine ⟨hpair, fun a ha o ho => ?_⟩
            cases ha
            cases queue with
            | nil =>
                rw [loop] at hout
                cases hout
                cases ho
            | cons b queue => exact Nat.le_trans (hle b List.mem_cons_self) (hhead b rfl o ho)
          obtain ⟨walk, list, depth⟩ := e
          cases list with
          | nil => exact hskip h
          | cons r rest =>
              rw [loop] at h
              split at h
              · obtain ⟨out', hout, rfl⟩ := Option.map_eq_some_iff.mp h
                have hbounds : ∀ a ∈ queue ++
                    [⟨walk, rest, depth + 1⟩, ⟨walk ++ [r], adj (far r), depth + 1⟩],
                    depth ≤ a.depth ∧ a.depth ≤ depth + 1 := by
                  intro a ha
                  rcases List.mem_append.mp ha with ha | ha
                  · exact ⟨hle a ha, hnear' a ha⟩
                  · rcases List.mem_pair.mp ha with rfl | rfl
                    · exact ⟨Nat.le_succ _, Nat.le_refl _⟩
                    · exact ⟨Nat.le_succ _, Nat.le_refl _⟩
                obtain ⟨hpair, hhead⟩ := ih _ (List.pairwise_append.mpr ⟨hrest, by simp, by
                    intro a ha b hb
                    have hhigh := hnear' a ha
                    rcases List.mem_pair.mp hb with rfl | rfl
                    · exact hhigh
                    · exact hhigh⟩) (fun a ha b hb => by
                    have hlow := (hbounds a (List.mem_of_mem_head? ha)).1
                    have hhigh := (hbounds b hb).2
                    omega) hout
                have hall : ∀ o ∈ out', depth ≤ o.2 := by
                  intro o ho
                  obtain ⟨a, ha⟩ : ∃ a, (queue ++ [⟨walk, rest, depth + 1⟩,
                      ⟨walk ++ [r], adj (far r), depth + 1⟩] : List (Entry ρ)).head? = some a :=
                    Option.isSome_iff_exists.mp (by simp [List.head?_append])
                  exact Nat.le_trans (hbounds a (List.mem_of_mem_head? ha)).1 (hhead a ha o ho)
                refine ⟨List.pairwise_cons.mpr ⟨hall, hpair⟩, fun a ha o ho => ?_⟩
                cases ha
                rcases List.mem_cons.mp ho with rfl | ho
                · exact Nat.le_refl _
                · exact hall o ho
              · exact hskip h

/-- The node at the end of a walk. -/
def target (far : ρ → ν) : ν → List ρ → ν
  | v, [] => v
  | _, r :: w => target far (far r) w

theorem target_concat : target far v (w ++ [r]) = far r := by
  induction w generalizing v with
  | nil => rfl
  | cons a w ih => exact ih

theorem isWalk_append {t : List ρ} :
    IsWalk adj far v (w ++ t) ↔ IsWalk adj far v w ∧ IsWalk adj far (target far v w) t := by
  induction w generalizing v with
  | nil => exact ⟨fun h => ⟨trivial, h⟩, fun h => h.2⟩
  | cons a w ih => rw [List.cons_append, IsWalk, IsWalk, ih, target, and_assoc]

section

variable [DecidableEq ρ]

/-- The sum of the positions of the edges in their lists, from one on. -/
def place (adj : ν → List ρ) (far : ρ → ν) : ν → List ρ → Nat
  | _, [] => 0
  | v, r :: w => (adj v).idxOf r + 1 + place adj far (far r) w

theorem place_concat : place adj far v (w ++ [r]) =
    place adj far v w + (adj (target far v w)).idxOf r + 1 := by
  induction w generalizing v with
  | nil => simp [place, target]
  | cons a w ih =>
      rw [List.cons_append, place, ih, place, target]
      omega

/-- What is left in an entry is the end of a list, and the entry is taken at the
place of the next walk. -/
def Placed (adj : ν → List ρ) (far : ρ → ν) (v : ν) (e : Entry ρ) : Prop :=
  ∃ i, e.list = (adj (target far v e.walk)).drop i ∧ e.depth = place adj far v e.walk + i + 1

theorem loop_placed (hadj : ∀ v, (adj v).Nodup) (fuel : Nat) (queue : List (Entry ρ))
    (hplaced : ∀ e ∈ queue, Placed adj far v e) (h : loop adj far bound fuel queue = some out) :
    ∀ o ∈ out, o.2 = place adj far v o.1 := by
  induction fuel generalizing queue out with
  | zero =>
      cases queue with
      | nil =>
          cases h
          exact fun o ho => absurd ho List.not_mem_nil
      | cons e queue => cases h
  | succ fuel ih =>
      cases queue with
      | nil =>
          cases h
          exact fun o ho => absurd ho List.not_mem_nil
      | cons e queue =>
          obtain ⟨hfirst, hrest⟩ := List.forall_mem_cons.mp hplaced
          obtain ⟨walk, list, depth⟩ := e
          cases list with
          | nil => exact ih queue hrest h
          | cons r rest =>
              rw [loop] at h
              split at h
              · obtain ⟨out', hout, rfl⟩ := Option.map_eq_some_iff.mp h
                obtain ⟨i, hlist, hdepth⟩ := hfirst
                simp only [] at hlist hdepth
                have hi : i < (adj (target far v walk)).length := by
                  by_contra hlen
                  rw [List.drop_eq_nil_iff.mpr (Nat.not_lt.mp hlen)] at hlist
                  cases hlist
                rw [List.drop_eq_getElem_cons hi] at hlist
                obtain ⟨hr, htail⟩ := List.cons.inj hlist
                have hidx : (adj (target far v walk)).idxOf r = i := by
                  rw [hr, (hadj _).idxOf_getElem i hi]
                have hwalk : depth = place adj far v (walk ++ [r]) := by
                  rw [place_concat, hidx, hdepth]
                refine List.forall_mem_cons.mpr ⟨hwalk, ih (queue ++
                  [⟨walk, rest, depth + 1⟩, ⟨walk ++ [r], adj (far r), depth + 1⟩])
                  (fun a ha => ?_) hout⟩
                rcases List.mem_append.mp ha with ha | ha
                · exact hrest a ha
                · rcases List.mem_pair.mp ha with rfl | rfl
                  · exact ⟨i + 1, htail, by simp only [hdepth]; omega⟩
                  · exact ⟨0, by rw [target_concat, List.drop_zero], by simp only [hwalk]⟩
              · exact ih queue hrest h

end

/-- What the loop emits, from the list of one node on. -/
theorem loop_walks [DecidableEq ρ] (hadj : ∀ v, (adj v).Nodup) (far : ρ → ν) (bound : Nat) (v : ν) :
    ∃ fuel out, loop adj far bound fuel [⟨[], adj v, 1⟩] = some out ∧ (out.map Prod.fst).Nodup ∧
      (∀ w, w ∈ out.map Prod.fst ↔ IsWalk adj far v w ∧ 0 < w.length ∧ w.length ≤ bound) ∧
      (out.map Prod.fst).Pairwise fun a b => place adj far v a ≤ place adj far v b := by
  obtain ⟨out, hout, hperm⟩ := @loop_perm ν ρ adj far bound _ [⟨[], adj v, 1⟩] (Nat.le_refl _)
  have hwalks : ([⟨[], adj v, 1⟩] : List (Entry ρ)).flatMap
      (fun e => walks adj far (bound - e.walk.length) e.walk e.list) =
      walks adj far bound [] (adj v) := by
    simp only [List.flatMap_cons, List.flatMap_nil, List.append_nil, List.length_nil, Nat.sub_zero]
  rw [hwalks] at hperm
  have hsorted := (loop_sorted _ _ (List.pairwise_singleton ..) (fun e he e' he' => by
    cases he
    rw [List.mem_singleton.mp he']
    exact Nat.le_succ _) hout).1
  have hplace := @loop_placed ν ρ adj far bound out v _ hadj _ _ (fun e he => by
    rw [List.mem_singleton.mp he]
    exact ⟨0, rfl, rfl⟩) hout
  refine ⟨_, out, hout, hperm.nodup_iff.mpr (walks_nodup hadj (hadj v)), fun w => ?_, ?_⟩
  · rw [hperm.mem_iff, mem_walks_start]
  · refine List.pairwise_map.mpr (hsorted.imp_of_mem fun {a b} ha hb hab => ?_)
    rwa [← hplace a ha, ← hplace b hb]

end Expansion
