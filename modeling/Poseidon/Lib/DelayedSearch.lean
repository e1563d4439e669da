import Mathlib.Data.List.Infix
import Mathlib.Data.List.TakeWhile
import Poseidon.Lib.Expansion

/-!
# A breadth-first search whose sources start one after the other

The edges of the first list are searched from in turn: when one of them is
taken, the next is queued. So an edge is not reached in the order of the
lengths of the walks to it, but at a time to which the position in the first
list adds. The search keeps the edges that it has called, and does not search
from them again, but only from a length `min` on; edges that are not accepted
end the walks. If of the walks to each edge the first in time is also the
shortest, then all edges are called that a walk of accepted edges with from
`min` to `max` edges ends with.
-/

/-- The lists, where the edges lead, which of them are accepted, and the lengths
of the walks. -/
structure DelayedSearch (ν ρ : Type) where
  adj : ν → List ρ
  far : ρ → ν
  ok : ρ → Bool
  source : ν
  min : Nat
  max : Nat

namespace DelayedSearch

open Expansion

variable {ν ρ : Type} [DecidableEq ρ] (S : DelayedSearch ν ρ)

/-- An entry of the queue: a walk, the edges that are left at its end, the
position of its first edge, and when the next edge is taken. -/
structure Entry (ρ : Type) where
  walk : List ρ
  list : List ρ
  start : Nat
  time : Nat

/-- The entry for the rest of a list. -/
def Entry.next (e : Entry ρ) (rest : List ρ) : Entry ρ :=
  ⟨e.walk, rest, if e.walk = [] then e.start + 1 else e.start, e.time + 1⟩

/-- What is queued for an edge: the rest of its list, and each edge at its other
end with what follows it. -/
def succs (e : Entry ρ) (r : ρ) (rest : List ρ) : List (Entry ρ) :=
  e.next rest :: (S.adj (S.far r)).tails.map fun l => ⟨e.walk ++ [r], l, e.start, e.time + 1⟩

/-- The edge is searched from. -/
def Taken (visited : List ρ) (e : Entry ρ) (r : ρ) : Prop :=
  e.walk.length < S.max ∧ S.ok r = true ∧ ¬(S.min ≤ e.walk.length + 1 ∧ r ∈ visited)

instance (visited : List ρ) (e : Entry ρ) (r : ρ) : Decidable (S.Taken visited e r) :=
  inferInstanceAs (Decidable (_ ∧ _ ∧ ¬(_ ∧ _)))

/-- The edges that are called, after those in `visited`. -/
def loop : Nat → List ρ → List (Entry ρ) → Option (List ρ)
  | _, _, [] => some []
  | 0, _, _ :: _ => none
  | fuel + 1, visited, e :: queue =>
      match e.list with
      | [] => loop fuel visited queue
      | r :: rest =>
          if S.Taken visited e r then
            if S.min ≤ e.walk.length + 1 then
              (loop fuel (r :: visited) (queue ++ S.succs e r rest)).map (r :: ·)
            else loop fuel visited (queue ++ S.succs e r rest)
          else loop fuel visited queue

/-- A walk of accepted edges from the source. -/
def Walk (w : List ρ) : Prop := IsWalk S.adj S.far S.source w ∧ ∀ r ∈ w, S.ok r = true

/-- When the last edge of a walk is taken. -/
def place : List ρ → Nat
  | [] => 0
  | r :: w => (S.adj S.source).idxOf r + w.length + 1

/-- The walks that count, to an edge. -/
structure Ends (r : ρ) (w : List ρ) : Prop where
  walk : S.Walk w
  low : S.min ≤ w.length
  high : w.length ≤ S.max
  last : w.getLast? = some r

/-- A walk that is the shortest one to its last edge, and the first one. -/
def First (r : ρ) (w : List ρ) : Prop :=
  S.Ends r w ∧ ∀ w', S.Ends r w' → w.length ≤ w'.length ∧ S.place w ≤ S.place w'

/-- To each edge some walk is both the shortest and the first one. -/
def InOrder : Prop := ∀ r w, S.Ends r w → ∃ w, S.First r w

/-! ## Entries -/

/-- What the entries of the queue stand for. -/
structure Genuine (e : Entry ρ) : Prop where
  walk : S.Walk e.walk
  list : e.list <:+ S.adj (target S.far S.source e.walk)
  root : e.walk = [] → e.list = (S.adj S.source).drop e.start ∧ e.time = e.start + 1
  start : ∀ r ∈ e.walk.head?, (S.adj S.source).idxOf r = e.start
  time : e.start + e.walk.length + 1 ≤ e.time

/-- The order of the queue. -/
structure Before (a b : Entry ρ) : Prop where
  le : a.time ≤ b.time
  near : b.time ≤ a.time + 1
  same : b.time = a.time → b.start ≤ a.start ∧ b.walk ≠ []
  later : b.time = a.time + 1 → a.start ≤ b.start ∧ a.walk ≠ []

variable {S} {visited w : List ρ} {e : Entry ρ} {queue : List (Entry ρ)} {r : ρ} {rest : List ρ}

omit [DecidableEq ρ] in
theorem walk_concat : S.Walk (w ++ [r]) ↔
    S.Walk w ∧ r ∈ S.adj (target S.far S.source w) ∧ S.ok r = true := by
  rw [Walk, Walk, isWalk_append, IsWalk, List.forall_mem_append, List.forall_mem_singleton]
  have htriv : IsWalk S.adj S.far (S.far r) [] := trivial
  tauto

theorem place_append_cons {t : List ρ} (hw : w ≠ []) :
    S.place (w ++ r :: t) = S.place w + t.length + 1 := by
  cases w with
  | nil => exact absurd rfl hw
  | cons a w =>
      rw [List.cons_append, place, place, List.length_append, List.length_cons]
      omega

section

variable (hadj : ∀ v, (S.adj v).Nodup)
include hadj

theorem Genuine.idxOf_head (he : S.Genuine e) (hlist : e.list = r :: rest) :
    ∀ a ∈ (e.walk ++ [r]).head?, (S.adj S.source).idxOf a = e.start := by
  intro a ha
  cases hw : e.walk with
  | nil =>
      rw [hw, List.nil_append, List.head?_cons] at ha
      cases ha
      obtain ⟨hdrop, -⟩ := he.root hw
      rw [hlist] at hdrop
      have hlt : e.start < (S.adj S.source).length := by
        by_contra hge
        rw [List.drop_eq_nil_iff.mpr (Nat.not_lt.mp hge)] at hdrop
        cases hdrop
      rw [List.drop_eq_getElem_cons hlt] at hdrop
      obtain ⟨hr, -⟩ := List.cons.inj hdrop
      rw [hr, (hadj _).idxOf_getElem _ hlt]
  | cons b w =>
      rw [hw, List.cons_append, List.head?_cons] at ha
      exact he.start a (by rw [hw]; exact ha)

/-- The walk to the edge that is taken, and its place. -/
theorem Genuine.extend (he : S.Genuine e) (hlist : e.list = r :: rest) (hok : S.ok r = true) :
    S.Walk (e.walk ++ [r]) ∧ S.place (e.walk ++ [r]) = e.start + e.walk.length + 1 := by
  constructor
  · exact walk_concat.mpr ⟨he.walk, he.list.subset (by rw [hlist]; exact List.mem_cons_self), hok⟩
  · have hidx := he.idxOf_head hadj hlist
    cases hw : e.walk with
    | nil =>
        rw [hw] at hidx
        rw [List.nil_append, place, hidx r rfl]
    | cons a w =>
        rw [hw] at hidx
        rw [List.cons_append, place, hidx a rfl, List.length_append, List.length_singleton,
          List.length_cons]

theorem Genuine.succs (he : S.Genuine e) (hlist : e.list = r :: rest) (hok : S.ok r = true) :
    ∀ e' ∈ S.succs e r rest, S.Genuine e' := by
  have htime := he.time
  intro e' he'
  rcases List.mem_cons.mp he' with rfl | he'
  · refine ⟨he.walk, ?_, fun hw => ?_, fun a ha => ?_, ?_⟩
    · have hsuffix := he.list
      rw [hlist] at hsuffix
      exact (List.suffix_cons r rest).trans hsuffix
    · obtain ⟨hdrop, ht⟩ := he.root hw
      show rest = _ ∧ e.time + 1 = _
      simp only [Entry.next, if_pos (show e.walk = [] from hw), ht, and_true]
      rw [hlist] at hdrop
      rw [← List.drop_drop, ← hdrop, List.drop_one, List.tail_cons]
    · have hne : e.walk ≠ [] := by
        rintro hw
        rw [Entry.next, hw] at ha
        cases ha
      rw [Entry.next, if_neg hne]
      exact he.start a ha
    · show (if e.walk = [] then e.start + 1 else e.start) + e.walk.length + 1 ≤ e.time + 1
      by_cases hw : e.walk = []
      · rw [if_pos hw]
        omega
      · rw [if_neg hw]
        omega
  · obtain ⟨l, hl, rfl⟩ := List.mem_map.mp he'
    refine ⟨(he.extend hadj hlist hok).1, ?_, fun hw => ?_, he.idxOf_head hadj hlist, ?_⟩
    · rw [target_concat]
      exact (List.mem_tails _ _).mp hl
    · exact absurd hw (List.append_ne_nil_of_right_ne_nil _ (List.cons_ne_nil _ _))
    · show e.start + (e.walk ++ [r]).length + 1 ≤ e.time + 1
      rw [List.length_append, List.length_singleton]
      omega

end

omit [DecidableEq ρ] in
/-- What is queued comes in order behind the queue. -/
theorem before_succs (h : (e :: queue).Pairwise Before) :
    (queue ++ S.succs e r rest).Pairwise Before := by
  obtain ⟨hhead, htail⟩ := List.pairwise_cons.mp h
  have hchild : ∀ e' ∈ S.succs e r rest, e'.time = e.time + 1 ∧ e.start ≤ e'.start ∧
      (e.walk ≠ [] → e'.start = e.start ∧ e'.walk ≠ []) := by
    intro e' he'
    rcases List.mem_cons.mp he' with rfl | he'
    · by_cases hw : e.walk = []
      · refine ⟨rfl, ?_, fun hne => absurd hw hne⟩
        rw [Entry.next, if_pos hw]
        exact Nat.le_succ _
      · refine ⟨rfl, ?_, fun _ => ⟨if_neg hw, hw⟩⟩
        rw [Entry.next, if_neg hw]
    · obtain ⟨l, -, rfl⟩ := List.mem_map.mp he'
      exact ⟨rfl, Nat.le_refl _, fun _ =>
        ⟨rfl, List.append_ne_nil_of_right_ne_nil _ (List.cons_ne_nil _ _)⟩⟩
  have hcons : ∀ l, (⟨e.walk ++ [r], l, e.start, e.time + 1⟩ : Entry ρ).walk ≠ [] := fun l =>
    List.append_ne_nil_of_right_ne_nil _ (List.cons_ne_nil _ _)
  refine List.pairwise_append.mpr ⟨htail, List.pairwise_cons.mpr ⟨?_, ?_⟩, ?_⟩
  · intro b hb
    obtain ⟨l, -, rfl⟩ := List.mem_map.mp hb
    have hstart := (hchild _ List.mem_cons_self).2.1
    exact ⟨Nat.le_refl _, Nat.le_succ _, fun _ => ⟨hstart, hcons l⟩, fun ht => by
      have htime : e.time + 1 = e.time + 1 + 1 := ht
      omega⟩
  · refine List.pairwise_map.mpr (List.pairwise_of_forall fun l l' => ?_)
    exact ⟨Nat.le_refl _, Nat.le_succ _, fun _ => ⟨Nat.le_refl _, hcons l'⟩, fun ht => by
      have htime : e.time + 1 = e.time + 1 + 1 := ht
      omega⟩
  · intro a ha b hb
    obtain ⟨hle, hnear, hsame, hlater⟩ := hhead a ha
    obtain ⟨htime, hstart, hne⟩ := hchild b hb
    refine ⟨by omega, by omega, fun ht => ?_, fun ht => ?_⟩
    · obtain ⟨hs, hw⟩ := hlater (by omega)
      obtain ⟨hs', hw'⟩ := hne hw
      exact ⟨by omega, hw'⟩
    · obtain ⟨hs, hw⟩ := hsame (by omega)
      exact ⟨by omega, hw⟩

theorem getLast?_tails {α : Type} {l : List α} : l.tails.getLast? = some [] := by
  induction l with
  | nil => rfl
  | cons a l ih => rw [List.tails_cons, List.getLast?_cons, ih, Option.getD_some]

omit [DecidableEq ρ] in
/-- What is queued ends with the end of a list. -/
theorem list_of_last : ∀ e' ∈ (queue ++ S.succs e r rest).getLast?, e'.list = [] := by
  intro e' he'
  rw [succs, List.getLast?_append, List.getLast?_cons, List.getLast?_map, getLast?_tails] at he'
  cases he'
  rfl

/-! ## The invariant -/

/-- The entry came by the shortest way. -/
def Entry.Direct (e : Entry ρ) : Prop := e.time = e.start + e.walk.length + 1

/-- The entry leads on to the walk. -/
def Pending (S : DelayedSearch ν ρ) (e : Entry ρ) (w : List ρ) : Prop :=
  e.Direct ∧ ∃ r t, w = e.walk ++ r :: t ∧
    (e.list.head? = some r ∨ e.walk = [] ∧ r ∈ e.list.takeWhile S.ok)

/-- What holds between the steps: of the walks of length `min` and of what comes
after a called edge nothing gets lost. -/
structure Inv (S : DelayedSearch ν ρ) (visited : List ρ) (queue : List (Entry ρ)) : Prop where
  genuine : ∀ e ∈ queue, S.Genuine e
  sorted : queue.Pairwise Before
  base : ∀ r w, S.Ends r w → w.length = S.min → r ∈ visited ∨ ∃ e ∈ queue, S.Pending e w
  found : ∀ q ∈ visited, ∃ w, S.First q w ∧ (w.length < S.max →
    ∀ r ∈ S.adj (S.far q), S.ok r = true → r ∈ visited ∨ ∃ e ∈ queue, e.Direct ∧
      e.list.head? = some r ∧ e.walk.length = w.length ∧ e.start + w.length = S.place w)
  fresh : S.min = 1 → ∀ e ∈ queue, e.walk = [] → ∀ r ∈ e.list, S.ok r = true → r ∉ visited

theorem First.unique {w' : List ρ} (h : S.First r w) (h' : S.First r w') :
    w.length = w'.length ∧ S.place w = S.place w' := by
  have hle := h.2 w' h'.1
  have hge := h'.2 w h.1
  omega

theorem Genuine.place_pending (hadj : ∀ v, (S.adj v).Nodup) {t : List ρ} (he : S.Genuine e)
    (hhead : e.list.head? = some r) : S.place (e.walk ++ r :: t) = e.start + e.walk.length +
    t.length + 1 := by
  obtain ⟨rest, hlist⟩ := List.head?_eq_some_iff.mp hhead
  have hidx := he.idxOf_head hadj hlist
  cases hw : e.walk with
  | nil =>
      rw [hw] at hidx
      rw [List.nil_append, place, hidx r rfl, List.length_nil]
      omega
  | cons a w =>
      rw [hw] at hidx
      rw [List.cons_append, place, hidx a rfl, List.length_append, List.length_cons,
        List.length_cons]
      omega

/-- An edge in the rest of the first list does not come before the head. -/
theorem Genuine.le_idxOf (hadj : ∀ v, (S.adj v).Nodup) (he : S.Genuine e) (hw : e.walk = [])
    (hr : r ∈ e.list) : e.start ≤ (S.adj S.source).idxOf r := by
  rw [(he.root hw).1] at hr
  obtain ⟨i, hi, rfl⟩ := List.mem_drop_iff_getElem.mp hr
  rw [(hadj _).idxOf_getElem _ (by omega)]
  omega

/-- A pending walk is taken in time. -/
theorem Pending.le_place (hadj : ∀ v, (S.adj v).Nodup) (he : S.Genuine e) (h : S.Pending e w) :
    e.time ≤ S.place w ∧ (e.time = S.place w → e.start + w.length = S.place w) := by
  obtain ⟨hdirect, r, t, rfl, hhead | ⟨hw, hr⟩⟩ := h
  · rw [he.place_pending hadj hhead, List.length_append, List.length_cons]
    have htime : e.time = e.start + e.walk.length + 1 := hdirect
    omega
  · have hle := he.le_idxOf hadj hw ((List.takeWhile_sublist _).subset hr)
    have htime : e.time = e.start + e.walk.length + 1 := hdirect
    rw [hw] at htime ⊢
    rw [List.nil_append, place, List.length_cons]
    rw [List.length_nil] at htime
    omega

omit [DecidableEq ρ] in
/-- A pending walk goes over the next edge of the entry, or over a later one of
the first list. -/
theorem Pending.next_edge (h : S.Pending e w) (hw : S.Walk w) : ∃ b rest, e.list = b :: rest ∧
    S.ok b = true ∧ ((∃ t, w = e.walk ++ b :: t) ∨
      e.walk = [] ∧ ∃ a t, w = a :: t ∧ a ∈ rest.takeWhile S.ok) := by
  obtain ⟨-, a, t, rfl, hhead | ⟨hwalk, ha⟩⟩ := h
  · obtain ⟨rest, hlist⟩ := List.head?_eq_some_iff.mp hhead
    exact ⟨a, rest, hlist, hw.2 a (List.mem_append_right _ List.mem_cons_self), .inl ⟨t, rfl⟩⟩
  · cases hlist : e.list with
    | nil =>
        rw [hlist] at ha
        cases ha
    | cons b rest =>
        rw [hlist, List.takeWhile_cons] at ha
        split at ha
        · next hok =>
            refine ⟨b, rest, rfl, hok, ?_⟩
            rw [hwalk]
            rcases List.mem_cons.mp ha with rfl | ha
            · exact .inl ⟨t, rfl⟩
            · exact .inr ⟨rfl, a, t, rfl, ha⟩
        · cases ha

omit [DecidableEq ρ] in
theorem Ends.target {q : ρ} (h : S.Ends q w) : target S.far S.source w = S.far q := by
  obtain ⟨u, rfl⟩ := List.getLast?_eq_some_iff.mp h.last
  exact target_concat

omit [DecidableEq ρ] in
theorem Ends.snoc {q : ρ} (h : S.Ends q w) (hlt : w.length < S.max) (hr : r ∈ S.adj (S.far q))
    (hok : S.ok r = true) : S.Ends r (w ++ [r]) := by
  have hlow := h.low
  refine ⟨walk_concat.mpr ⟨h.walk, by rwa [h.target], hok⟩, ?_, ?_, List.getLast?_concat⟩
  · rw [List.length_append, List.length_singleton]
    omega
  · rw [List.length_append, List.length_singleton]
    omega

theorem Ends.place_snoc (hpos : 0 < S.min) {q : ρ} (h : S.Ends q w) :
    S.place (w ++ [r]) = S.place w + 1 :=
  place_append_cons (List.length_pos_iff.mp (Nat.lt_of_lt_of_le hpos h.low))

/-- An entry that is not searched from is dropped. -/
theorem Inv.skip (hpos : 0 < S.min) (h : S.Inv visited (e :: queue))
    (hskip : ∀ r rest, e.list = r :: rest → ¬S.Taken visited e r) : S.Inv visited queue := by
  obtain ⟨hgenuine, hsorted, hbase, hfound, hfresh⟩ := h
  refine ⟨fun e' he' => hgenuine e' (List.mem_cons_of_mem _ he'), (List.pairwise_cons.mp hsorted).2,
    fun r w hends hlen => ?_, fun q hq => ?_,
    fun hone e' he' => hfresh hone e' (List.mem_cons_of_mem _ he')⟩
  · rcases hbase r w hends hlen with hvis | ⟨e', he', hpend⟩
    · exact .inl hvis
    · rcases List.mem_cons.mp he' with rfl | he'
      · obtain ⟨b, rest, hlist, hok, hnext⟩ := hpend.next_edge hends.walk
        have hshort : e'.walk.length + 1 ≤ w.length := by
          obtain ⟨-, a, t, rfl, -⟩ := hpend
          rw [List.length_append, List.length_cons]
          omega
        have hhigh := hends.high
        have hvis : S.min ≤ e'.walk.length + 1 ∧ b ∈ visited := by
          by_contra hnew
          exact hskip b rest hlist ⟨by omega, hok, hnew⟩
        rcases hnext with ⟨t, rfl⟩ | ⟨hwalk, -⟩
        · -- the walk ends here, with an edge that is called
          rw [List.length_append, List.length_cons] at hlen
          obtain rfl : t = [] := List.length_eq_zero_iff.mp (by omega)
          have hlast := hends.last
          rw [List.getLast?_concat] at hlast
          exact .inl (Option.some.inj hlast ▸ hvis.2)
        · rw [hwalk, List.length_nil] at hvis
          exact absurd hvis.2 (hfresh (by omega) e' List.mem_cons_self hwalk b
            (by rw [hlist]; exact List.mem_cons_self) hok)
      · exact .inr ⟨e', he', hpend⟩
  · obtain ⟨w, hw, hnext⟩ := hfound q hq
    refine ⟨w, hw, fun hlt r hr hok => ?_⟩
    rcases hnext hlt r hr hok with hvis | ⟨e', he', hdirect, hhead, hlen, hstart⟩
    · exact .inl hvis
    · rcases List.mem_cons.mp he' with rfl | he'
      · obtain ⟨rest, hlist⟩ := List.head?_eq_some_iff.mp hhead
        have hnot := hskip r rest hlist
        by_contra hnew
        refine hnot ⟨by omega, hok, fun hvis => hnew (.inl hvis.2)⟩
      · exact .inr ⟨e', he', hdirect, hhead, hlen, hstart⟩

section

variable (hpos : 0 < S.min) (hadj : ∀ v, (S.adj v).Nodup)
include hpos hadj

/-- While an edge is not called, the queue has an entry that is taken no later
than the first walk to the edge. -/
theorem Inv.soonest (h : S.Inv visited queue) (horder : S.InOrder) (hr : r ∉ visited)
    (hw : S.First r w) : ∃ e ∈ queue, e.time ≤ S.place w ∧
      (e.time = S.place w → e.start + w.length = S.place w) := by
  induction hlen : w.length using Nat.strong_induction_on generalizing r w with
  | h n ih =>
      subst hlen
      by_cases hmin : w.length = S.min
      · rcases h.base r w hw.1 hmin with hvis | ⟨e, he, hpend⟩
        · exact absurd hvis hr
        · exact ⟨e, he, hpend.le_place hadj (h.genuine e he)⟩
      · -- the walk without its last edge
        obtain ⟨⟨hwalk, hlow, hhigh, hlast⟩, hbest⟩ := hw
        obtain ⟨u, rfl⟩ := List.getLast?_eq_some_iff.mp hlast
        rw [List.length_append, List.length_singleton] at hmin hlow hhigh
        obtain ⟨hu, hmem, hok⟩ := walk_concat.mp hwalk
        obtain ⟨q, hq⟩ : ∃ q, u.getLast? = some q := by
          refine Option.isSome_iff_exists.mp (List.getLast?_isSome.mpr fun hnil => ?_)
          rw [hnil, List.length_nil] at hmin hlow
          omega
        have hends : S.Ends q u := ⟨hu, by omega, by omega, hq⟩
        rw [hends.target] at hmem
        obtain ⟨wq, hwq⟩ := horder q u hends
        have hle := hwq.2 u hends
        have hge := hbest (wq ++ [r]) (hwq.1.snoc (by omega) hmem hok)
        rw [hends.place_snoc hpos, hwq.1.place_snoc hpos, List.length_append, List.length_append,
          List.length_singleton] at hge
        rw [hends.place_snoc hpos, List.length_append, List.length_singleton]
        by_cases hvis : q ∈ visited
        · obtain ⟨w', hw', hnext⟩ := h.found q hvis
          have heq := hw'.unique hwq
          rcases hnext (by omega) r hmem hok with hvis' | ⟨e, he, hdirect, -, hlen, hstart⟩
          · exact absurd hvis' hr
          · have htime : e.time = e.start + e.walk.length + 1 := hdirect
            exact ⟨e, he, by omega, by omega⟩
        · obtain ⟨e, he, hsoon, -⟩ := ih wq.length (by
            rw [List.length_append, List.length_singleton]
            omega) hvis hwq rfl
          exact ⟨e, he, by omega, by omega⟩

/-- An edge that is called comes by a walk that is its shortest and its first
one. -/
theorem Inv.first (h : S.Inv visited (e :: queue)) (horder : S.InOrder)
    (hlist : e.list = r :: rest) (htaken : S.Taken visited e r) (hmin : S.min ≤ e.walk.length + 1) :
    S.First r (e.walk ++ [r]) ∧ e.Direct := by
  obtain ⟨hmax, hok, hnew⟩ := htaken
  have he := h.genuine e List.mem_cons_self
  obtain ⟨hwalk, hplace⟩ := he.extend hadj hlist hok
  have hlen : (e.walk ++ [r]).length = e.walk.length + 1 := by
    rw [List.length_append, List.length_singleton]
  have hends : S.Ends r (e.walk ++ [r]) := ⟨hwalk, by omega, by omega, List.getLast?_concat⟩
  obtain ⟨w, hw⟩ := horder r _ hends
  have hbest := hw.2 _ hends
  obtain ⟨e', he', hsoon, hsame⟩ := h.soonest hpos hadj horder (fun hvis => hnew ⟨hmin, hvis⟩) hw
  have htime := he.time
  -- the entry of the first walk is not before the head of the queue
  have hahead : e.time ≤ e'.time ∧ (e'.time = e.time → e'.start ≤ e.start) := by
    rcases List.mem_cons.mp he' with rfl | he'
    · exact ⟨Nat.le_refl _, fun _ => Nat.le_refl _⟩
    · have hbefore := (List.pairwise_cons.mp h.sorted).1 e' he'
      exact ⟨hbefore.le, fun ht => (hbefore.same ht).1⟩
  have hdirect : e.time = e.start + e.walk.length + 1 := by omega
  refine ⟨⟨hends, fun w' hw' => ?_⟩, hdirect⟩
  have hall := hw.2 w' hw'
  omega

/-- An edge that is searched from. -/
theorem Inv.take (h : S.Inv visited (e :: queue)) (horder : S.InOrder) (hlist : e.list = r :: rest)
    (htaken : S.Taken visited e r) :
    S.Inv (if S.min ≤ e.walk.length + 1 then r :: visited else visited)
      (queue ++ S.succs e r rest) := by
  have hfirst := h.first hpos hadj horder hlist htaken
  obtain ⟨hgenuine, hsorted, hbase, hfound, hfresh⟩ := h
  obtain ⟨hmax, hok, hnew⟩ := htaken
  have he := hgenuine e List.mem_cons_self
  -- every edge at the other end is queued
  have hchild : ∀ b ∈ S.adj (S.far r), ∃ e' ∈ queue ++ S.succs e r rest, e'.list.head? = some b ∧
      e'.walk = e.walk ++ [r] ∧ e'.start = e.start ∧ e'.time = e.time + 1 := by
    intro b hb
    obtain ⟨x, y, hxy⟩ := List.append_of_mem hb
    refine ⟨⟨e.walk ++ [r], b :: y, e.start, e.time + 1⟩, List.mem_append_right _
      (List.mem_cons_of_mem _ (List.mem_map.mpr ⟨b :: y, (List.mem_tails _ _).mpr ?_, rfl⟩)),
      rfl, rfl, rfl, rfl⟩
    rw [hxy]
    exact List.suffix_append x _
  have hkeep : ∀ q ∈ visited, q ∈ if S.min ≤ e.walk.length + 1 then r :: visited else visited := by
    intro q hq
    split
    · exact List.mem_cons_of_mem _ hq
    · exact hq
  have hwalkr := (he.extend hadj hlist hok).2
  refine ⟨fun e' he' => ?_, before_succs hsorted, fun a w hends hlen => ?_, fun q hq => ?_,
    fun hone e' he' hw a ha hoka hvis => ?_⟩
  · rcases List.mem_append.mp he' with he' | he'
    · exact hgenuine e' (List.mem_cons_of_mem _ he')
    · exact he.succs hadj hlist hok e' he'
  · rcases hbase a w hends hlen with hvis | ⟨e', he', hpend⟩
    · exact .inl (hkeep a hvis)
    rcases List.mem_cons.mp he' with rfl | he'
    · obtain ⟨b, rest', hlist', -, hnext⟩ := hpend.next_edge hends.walk
      rw [hlist] at hlist'
      obtain ⟨rfl, rfl⟩ := List.cons.inj hlist'
      have hdirect : e'.time = e'.start + e'.walk.length + 1 := hpend.1
      rcases hnext with ⟨t, rfl⟩ | ⟨hwalk, b, t, rfl, hb⟩
      · cases t with
        | nil =>
            have hlast := hends.last
            rw [List.getLast?_concat] at hlast
            rw [List.length_append, List.length_singleton] at hlen
            rw [← Option.some.inj hlast, if_pos (by omega)]
            exact .inl List.mem_cons_self
        | cons b t =>
            rw [List.append_cons] at hends ⊢
            have hmem := (isWalk_append.mp hends.walk.1).2.1
            rw [target_concat] at hmem
            obtain ⟨e'', he'', hhead, hwalk, hstart, htime⟩ := hchild b hmem
            refine .inr ⟨e'', he'', ?_, b, t, by rw [hwalk], .inl hhead⟩
            rw [Entry.Direct, hwalk, hstart, htime, List.length_append, List.length_singleton]
            omega
      · refine .inr ⟨_, List.mem_append_right _ List.mem_cons_self, ?_, b, t, ?_, .inr ⟨hwalk, hb⟩⟩
        · rw [hwalk] at hdirect
          rw [Entry.Direct, Entry.next, hwalk, if_pos rfl]
          show e'.time + 1 = e'.start + 1 + 0 + 1
          rw [hdirect]
          rfl
        · show b :: t = e'.walk ++ b :: t
          rw [hwalk, List.nil_append]
    · exact .inr ⟨e', List.mem_append_left _ he', hpend⟩
  · by_cases hold : q ∈ visited
    · obtain ⟨w, hw, hnext⟩ := hfound q hold
      refine ⟨w, hw, fun hlt b hb hokb => ?_⟩
      rcases hnext hlt b hb hokb with hvis | ⟨e', he', hdirect, hhead, hlen, hstart⟩
      · exact .inl (hkeep b hvis)
      rcases List.mem_cons.mp he' with rfl | he'
      · rw [hlist, List.head?_cons] at hhead
        have hlow := hw.1.low
        rw [← Option.some.inj hhead, if_pos (by omega)]
        exact .inl List.mem_cons_self
      · exact .inr ⟨e', List.mem_append_left _ he', hdirect, hhead, hlen, hstart⟩
    · split at hq
      · next hmin =>
          obtain rfl := (List.mem_cons.mp hq).resolve_right hold
          obtain ⟨hw, hdirect⟩ := hfirst hmin
          have hdirect' : e.time = e.start + e.walk.length + 1 := hdirect
          refine ⟨_, hw, fun _ b hb _ => ?_⟩
          obtain ⟨e'', he'', hhead, hwalk, hstart, htime⟩ := hchild b hb
          refine .inr ⟨e'', he'', ?_, hhead, by rw [hwalk], ?_⟩
          · rw [Entry.Direct, hwalk, hstart, htime, List.length_append, List.length_singleton]
            omega
          · rw [hstart, hwalkr, List.length_append, List.length_singleton]
            omega
      · exact absurd hq hold
  · -- an edge of the first list is called when it is taken there
    rw [if_pos (by omega)] at hvis
    obtain ⟨hw', hdirect⟩ := hfirst (by omega)
    rcases List.mem_append.mp he' with htail | hsucc
    · rcases List.mem_cons.mp hvis with rfl | hvis
      · have hmem : a ∈ S.adj S.source := by
          rw [((hgenuine e' (List.mem_cons_of_mem _ htail)).root hw).1] at ha
          exact List.mem_of_mem_drop ha
        have hhigh := hw'.1.high
        have hlow := hw'.1.low
        have hshort := (hw'.2 [a] ⟨⟨⟨hmem, trivial⟩, List.forall_mem_singleton.mpr hoka⟩,
          by rw [List.length_singleton]; omega, by rw [List.length_singleton]; omega, rfl⟩).1
        rw [List.length_append, List.length_singleton] at hshort
        have hnil : e.walk = [] := List.length_eq_zero_iff.mp (by omega)
        have hbefore := (List.pairwise_cons.mp hsorted).1 e' htail
        have hle := hbefore.le
        have hnear := hbefore.near
        rcases Nat.lt_or_ge e.time e'.time with hlt | hge
        · exact (hbefore.later (by omega)).2 hnil
        · exact (hbefore.same (by omega)).2 hw
      · exact hfresh hone e' (List.mem_cons_of_mem _ htail) hw a ha hoka hvis
    · rcases List.mem_cons.mp hsucc with rfl | hsucc
      · have hnodup : (r :: rest).Nodup := hlist ▸ (hadj _).sublist he.list.sublist
        rcases List.mem_cons.mp hvis with rfl | hvis
        · exact (List.nodup_cons.mp hnodup).1 ha
        · exact hfresh hone e List.mem_cons_self hw a
            (by rw [hlist]; exact List.mem_cons_of_mem _ ha) hoka hvis
      · obtain ⟨l, -, rfl⟩ := List.mem_map.mp hsucc
        exact List.append_ne_nil_of_right_ne_nil _ (List.cons_ne_nil _ _) hw

/-- The invariant holds when the queue is empty, and no edge is called again. -/
theorem Inv.loop (horder : S.InOrder) {fuel : Nat} {out : List ρ} (h : S.Inv visited queue)
    (hnodup : visited.Nodup) (hout : S.loop fuel visited queue = some out) :
    S.Inv (out.reverse ++ visited) [] ∧ (out.reverse ++ visited).Nodup := by
  induction fuel generalizing visited queue out with
  | zero =>
      cases queue with
      | nil =>
          cases hout
          exact ⟨h, hnodup⟩
      | cons e queue => cases hout
  | succ fuel ih =>
      cases queue with
      | nil =>
          cases hout
          exact ⟨h, hnodup⟩
      | cons e queue =>
          cases hlist : e.list with
          | nil =>
              simp only [DelayedSearch.loop, hlist] at hout
              exact ih (h.skip hpos fun r rest heq => by rw [hlist] at heq; cases heq) hnodup hout
          | cons r rest =>
              simp only [DelayedSearch.loop, hlist] at hout
              by_cases htaken : S.Taken visited e r
              · rw [if_pos htaken] at hout
                have hstep := h.take hpos hadj horder hlist htaken
                by_cases hmin : S.min ≤ e.walk.length + 1
                · rw [if_pos hmin] at hout hstep
                  obtain ⟨out', hout', rfl⟩ := Option.map_eq_some_iff.mp hout
                  rw [List.reverse_cons, List.append_assoc, List.singleton_append]
                  exact ih hstep (List.nodup_cons.mpr ⟨fun hvis => htaken.2.2 ⟨hmin, hvis⟩, hnodup⟩)
                    hout'
                · rw [if_neg hmin] at hout hstep
                  exact ih hstep hnodup hout
              · rw [if_neg htaken] at hout
                exact ih (h.skip hpos fun r' rest' heq => by
                  rw [hlist] at heq
                  cases heq
                  exact htaken) hnodup hout

end

/-! ## From the first accepted edge on -/

/-- The accepted edges of a list stand next to each other. -/
def OneRun (ok : ρ → Bool) (l : List ρ) : Prop :=
  ∀ r ∈ (l.dropWhile fun r => !ok r).dropWhile ok, ok r = false

/-- The entry for the first accepted edge of the source. -/
def first (S : DelayedSearch ν ρ) : Entry ρ :=
  let skipped := (S.adj S.source).takeWhile fun r => !S.ok r
  ⟨[], (S.adj S.source).dropWhile fun r => !S.ok r, skipped.length, skipped.length + 1⟩

theorem inv_first (hrun : OneRun S.ok (S.adj S.source)) : S.Inv [] [S.first] := by
  have hsplit := List.takeWhile_append_dropWhile (p := fun r => !S.ok r) (l := S.adj S.source)
  refine ⟨fun e he => ?_, List.pairwise_singleton .., fun r w hends hlen => .inr ?_,
    fun q hq => absurd hq List.not_mem_nil, fun _ e _ _ r _ _ => List.not_mem_nil⟩
  · rw [List.mem_singleton.mp he]
    refine ⟨⟨trivial, fun r hr => absurd hr List.not_mem_nil⟩, List.dropWhile_suffix _,
      fun _ => ⟨?_, rfl⟩, fun r hr => (by cases hr), Nat.le_refl _⟩
    show (S.adj S.source).dropWhile _ = (S.adj S.source).drop _
    conv_rhs => rw [← hsplit]
    exact (List.drop_left ..).symm
  · refine ⟨S.first, List.mem_singleton_self _, rfl, ?_⟩
    cases w with
    | nil => cases hends.last
    | cons a t =>
        refine ⟨a, t, rfl, .inr ⟨rfl, ?_⟩⟩
        have hmem := hends.walk.1.1
        have hok := hends.walk.2 a List.mem_cons_self
        rw [← hsplit] at hmem
        rcases List.mem_append.mp hmem with hmem | hmem
        · have hnot := List.mem_takeWhile_imp hmem
          rw [hok] at hnot
          cases hnot
        · rw [← List.takeWhile_append_dropWhile (p := S.ok)
            (l := (S.adj S.source).dropWhile fun r => !S.ok r)] at hmem
          rcases List.mem_append.mp hmem with hmem | hmem
          · exact hmem
          · have hnot := hrun a hmem
            rw [hok] at hnot
            cases hnot

/-! ## The end of the search -/

/-- The number of entries that one entry leads to while the edges may come
again, for `k` more lengths. -/
def work (S : DelayedSearch ν ρ) : Nat → List ρ → Nat
  | 0, _ => 1
  | k + 1, l => l.foldr (fun r n => n + ((S.adj (S.far r)).tails.map (work S k)).sum + 1) 1

/-- The work for the queue. -/
def load (S : DelayedSearch ν ρ) (queue : List (Entry ρ)) : Nat :=
  (queue.map fun e => S.work (S.min - (e.walk.length + 1)) e.list).sum

omit [DecidableEq ρ] in
theorem work_pos {k : Nat} {l : List ρ} : 0 < S.work k l := by
  cases k with
  | zero => exact Nat.one_pos
  | succ k =>
      cases l with
      | nil => exact Nat.one_pos
      | cons r l => exact Nat.succ_pos _

omit [DecidableEq ρ] in
theorem load_cons : S.load (e :: queue) =
    S.work (S.min - (e.walk.length + 1)) e.list + S.load queue := by
  rw [load, List.map_cons, List.sum_cons, load]

omit [DecidableEq ρ] in
/-- An edge that may come again leaves less work. -/
theorem load_succs (hlist : e.list = r :: rest) (hmin : e.walk.length + 1 < S.min) :
    S.load (queue ++ S.succs e r rest) < S.load (e :: queue) := by
  obtain ⟨k, hk⟩ : ∃ k, S.min - (e.walk.length + 1) = k + 1 :=
    ⟨S.min - (e.walk.length + 1) - 1, by omega⟩
  have hk' : S.min - ((e.walk ++ [r]).length + 1) = k := by
    rw [List.length_append, List.length_singleton]
    omega
  have hwork : S.work (k + 1) (r :: rest) =
      S.work (k + 1) rest + ((S.adj (S.far r)).tails.map (S.work k)).sum + 1 := rfl
  rw [load_cons, hlist, hk, hwork, load, List.map_append, List.sum_append, succs, List.map_cons,
    List.sum_cons, List.map_map]
  have hnext : S.min - ((e.next rest).walk.length + 1) = k + 1 := hk
  have hchildren : ((S.adj (S.far r)).tails.map ((fun e : Entry ρ =>
      S.work (S.min - (e.walk.length + 1)) e.list) ∘ fun l =>
        ⟨e.walk ++ [r], l, e.start, e.time + 1⟩)) = (S.adj (S.far r)).tails.map (S.work k) := by
    refine List.map_congr_left fun l _ => ?_
    show S.work (S.min - ((e.walk ++ [r]).length + 1)) l = _
    rw [hk']
  rw [hnext, hchildren]
  show (queue.map _).sum + (S.work (k + 1) rest + _) < _ + (queue.map _).sum
  omega

theorem filter_length_lt {edges : List ρ} (hr : r ∈ edges) (hnew : r ∉ visited) :
    (edges.filter fun a => a ∉ r :: visited).length <
    (edges.filter fun a => a ∉ visited).length := by
  have hfilter : (edges.filter fun a => a ∉ r :: visited) =
      (edges.filter fun a => a ∉ visited).filter fun a => a ≠ r := by
    rw [List.filter_filter]
    refine List.filter_congr fun a _ => ?_
    simp [not_or]
  rw [hfilter, List.length_filter_lt_length_iff_exists]
  exact ⟨r, List.mem_filter.mpr ⟨hr, decide_eq_true hnew⟩, by simp⟩

/-- With finitely many edges the search ends. -/
theorem loop_total {edges : List ρ} (hedges : ∀ v, S.adj v ⊆ edges) (visited : List ρ)
    (queue : List (Entry ρ)) (hqueue : ∀ e ∈ queue, e.list ⊆ edges) :
    ∃ fuel out, S.loop fuel visited queue = some out := by
  induction hn : (edges.filter fun r => r ∉ visited).length using Nat.strong_induction_on
    generalizing visited queue with
  | h n ihn =>
      induction hm : S.load queue using Nat.strong_induction_on generalizing queue with
      | h m ihm =>
          cases queue with
          | nil => exact ⟨0, [], rfl⟩
          | cons e queue =>
              obtain ⟨he, htail⟩ := List.forall_mem_cons.mp hqueue
              have hless : S.load queue < m := by
                have hpos := @work_pos ν ρ S (S.min - (e.walk.length + 1)) e.list
                rw [← hm, load_cons]
                omega
              obtain ⟨fuel, out, hout⟩ := ihm _ hless queue htail rfl
              cases hlist : e.list with
              | nil => exact ⟨fuel + 1, out, by simp only [loop, hlist, hout]⟩
              | cons r rest =>
                  by_cases htaken : S.Taken visited e r
                  · have hsuccs : ∀ e' ∈ queue ++ S.succs e r rest, e'.list ⊆ edges := by
                      intro e' he'
                      rcases List.mem_append.mp he' with he' | he'
                      · exact htail e' he'
                      · rcases List.mem_cons.mp he' with rfl | he'
                        · exact fun a ha => he (by rw [hlist]; exact List.mem_cons_of_mem _ ha)
                        · obtain ⟨l, hl, rfl⟩ := List.mem_map.mp he'
                          exact List.Subset.trans ((List.mem_tails _ _).mp hl).subset (hedges _)
                    by_cases hmin : S.min ≤ e.walk.length + 1
                    · -- one more edge is called
                      have hcall : (edges.filter fun a => a ∉ r :: visited).length < n := by
                        rw [← hn]
                        refine filter_length_lt (he (by rw [hlist]; exact List.mem_cons_self)) ?_
                        exact fun hvis => htaken.2.2 ⟨hmin, hvis⟩
                      obtain ⟨fuel', out', hout'⟩ := ihn _ hcall (r :: visited) _ hsuccs rfl
                      exact ⟨fuel' + 1, r :: out', by
                        simp only [loop, hlist, if_pos htaken, if_pos hmin, hout', Option.map_some]⟩
                    · obtain ⟨fuel', out', hout'⟩ := ihm _ (by
                        rw [← hm]
                        exact load_succs hlist (Nat.not_le.mp hmin)) _ hsuccs rfl
                      exact ⟨fuel' + 1, out', by
                        simp only [loop, hlist, if_pos htaken, if_neg hmin, hout']⟩
                  · exact ⟨fuel + 1, out, by simp only [loop, hlist, if_neg htaken, hout]⟩

/-- If the accepted edges of the source stand next to each other and the first
walks are the shortest, then the search ends and calls each edge once that
such a walk ends with, and no other. -/
theorem loop_calls (hpos : 0 < S.min) (hadj : ∀ v, (S.adj v).Nodup) (horder : S.InOrder)
    (hrun : OneRun S.ok (S.adj S.source)) {edges : List ρ} (hedges : ∀ v, S.adj v ⊆ edges) :
    ∃ fuel out, S.loop fuel [] [S.first] = some out ∧ out.Nodup ∧
      ∀ r, r ∈ out ↔ ∃ w, S.Ends r w := by
  obtain ⟨fuel, out, hout⟩ := loop_total hedges [] [S.first] (fun e he => by
    rw [List.mem_singleton.mp he]
    exact List.Subset.trans (List.dropWhile_suffix _).subset (hedges _))
  obtain ⟨hinv, hnodup⟩ := (inv_first hrun).loop hpos hadj horder List.nodup_nil hout
  rw [List.append_nil] at hinv hnodup
  refine ⟨fuel, out, hout, List.nodup_reverse.mp hnodup, fun r => ⟨fun hr => ?_, ?_⟩⟩
  · obtain ⟨w, hw, -⟩ := hinv.found r (List.mem_reverse.mpr hr)
    exact ⟨w, hw.1⟩
  · rintro ⟨w, hw⟩
    obtain ⟨w', hw'⟩ := horder r w hw
    by_contra hr
    obtain ⟨e, he, -⟩ := hinv.soonest hpos hadj horder
      (fun hvis => hr (List.mem_reverse.mp hvis)) hw'
    cases he

end DelayedSearch
