import Poseidon.Lib.DelayedSearch
import Poseidon.Proofs.VarLength

/-!
# Variable-length expansion with a label

With a label the loop goes over the list of the first node in turn, and over the
lists of the other nodes at once. So it is the search of `DelayedSearch`, and it
stops to go over the first list at a relationship with another label that comes
after one with the label. The counter and the position that are to prevent
this act only before the first relationship with the label.
-/

namespace Poseidon

open Wp

namespace GraphDb

variable (s : GraphDb) (xid : Nat)

/-- What a transaction reads by the ids: the relationships join nodes, each
record has its own id, and the lists of the nodes are well formed. -/
structure SeenGraph : Prop where
  running : (s.txs xid).running = true
  rshipSlots : ∀ id, (rshipTable.record s id).used = true → id < s.rships.size
  ids : ∀ r l o, rshipTable.seen s xid r = some (l, o) → o.data.id = r
  ends : ∀ r l o, rshipTable.seen s xid r = some (l, o) →
    s.HasNode xid o.data.srcNode ∧ s.HasNode xid o.data.destNode
  outgoing : ∀ v l o, nodeTable.seen s xid v = some (l, o) →
    s.SeenList xid RshipData.nextSrcRship RshipData.srcNode v o.data.fromRshipList
  incoming : ∀ v l o, nodeTable.seen s xid v = some (l, o) →
    s.SeenList xid RshipData.nextDestRship RshipData.destNode v o.data.toRshipList

/-- The relationships lead from the node on, and all have the label. -/
def IsLabelWalk (near far : RshipData → Nat) (lcode : Nat) : Nat → List Nat → Prop
  | _, [] => True
  | v, r :: w => ∃ l o, rshipTable.seen s xid r = some (l, o) ∧ o.data.rshipLabel = lcode ∧
      near o.data = v ∧ IsLabelWalk near far lcode (far o.data) w

/-- The walks from `v` with the label and from `min` to `max` relationships that
end with `r`. -/
def labelWalksTo (near far : RshipData → Nat) (lcode v min max r : Nat) : Set (List Nat) :=
  {w | s.IsLabelWalk xid near far lcode v w ∧ min ≤ w.length ∧ w.length ≤ max ∧
    w.getLast? = some r}

/-- The relationship has the label. -/
def hasLabel (lcode r : Nat) : Bool :=
  (rshipTable.seen s xid r).any fun e => e.2.data.rshipLabel == lcode

/-- The position of the first relationship of a walk in the list of the node, and
the number of relationships. -/
def takenAt (rs w : List Nat) : Nat := rs.idxOf (w.headD 0) + w.length

/-- In the list of the node, if it is looked at, the relationships with the label
stand next to each other; and of the walks to a relationship, one is the shortest and is the first
by the position of its first relationship and its length. -/
def LabelsInOrder (next near far : RshipData → Nat) (lcode v min max head : Nat) : Prop :=
  ∃ rs, LinkPath (s.nextSeen xid next) UNKNOWN head rs ∧
    (0 < max → DelayedSearch.OneRun (s.hasLabel xid lcode) rs) ∧
    ∀ r, (s.labelWalksTo xid near far lcode v min max r).Nonempty →
      ∃ w ∈ s.labelWalksTo xid near far lcode v min max r, w.length < 2 ^ 64 - 1 ∧
        ∀ w' ∈ s.labelWalksTo xid near far lcode v min max r,
          w.length ≤ w'.length ∧ takenAt rs w ≤ takenAt rs w'

/-- The consumer is called once for each relationship that one of the walks ends
with, and for no other one. -/
structure CallsLabelled (near far : RshipData → Nat) (lcode v min max : Nat) (calls : List Ref) :
    Prop where
  seen : ∀ r ∈ calls, r = s.rshipRef xid r.id
  once : (calls.map Ref.id).Nodup
  walks : ∀ r, r ∈ calls.map Ref.id ↔ (s.labelWalksTo xid near far lcode v min max r).Nonempty

end GraphDb

section

variable {s s1 : GraphDb} {xid : Nat} {next near far : RshipData → Nat} {list : NodeData → Nat}
  {adj : Nat → List Nat} {lcode min max rid : Nat} {rs : List Nat}

/-! ## The walks over one list -/

theorem seenPath_length_le (hslots : ∀ id, (rshipTable.record s id).used = true →
    id < s.rships.size) (hpath : LinkPath (s.nextSeen xid next) UNKNOWN rid rs) :
    rs.length ≤ s.rships.size := by
  refine hpath.length_le fun r hr => hslots r ?_
  have hsome := hpath.next_isSome r hr
  rw [GraphDb.nextSeen, Option.isSome_map] at hsome
  obtain ⟨⟨l, o⟩, hseen⟩ := Option.isSome_iff_exists.mp hsome
  exact (Table.seen_iff.mp hseen).1

/-- One step along a list. -/
theorem seenPath_read (hrun : (s.txs xid).running = true) (hreads : Reads xid s s1) {j : Nat}
    (hnext : s.nextSeen xid next rid = some j) : ∃ l o s2,
      rshipTable.seen s xid rid = some (l, o) ∧ next o.data = j ∧
      rshipById xid rid s1 = .ok ⟨rid, l⟩ s2 ∧ rshipTable.read ⟨rid, l⟩ s2 = .ok o s2 ∧
      Reads xid s s2 := by
  obtain ⟨⟨l, o⟩, hseen, rfl⟩ := Option.map_eq_some_iff.mp hnext
  obtain ⟨s2, hread, hreads2, hhold⟩ :=
    rshipById_ok (hreads.txs ▸ hrun) (hreads.keptRships.seen.trans hseen)
  exact ⟨l, o, s2, hseen, rfl, hread, Table.read_ok hhold, hreads.trans hreads2⟩

theorem countNHopRships_ok (hrun : (s.txs xid).running = true) (hreads : Reads xid s s1)
    (hpath : LinkPath (s.nextSeen xid next) UNKNOWN rid rs) {fuel : Nat} (hfuel : rs.length ≤ fuel)
    (cnt : Int) : ∃ cnt' s2, countNHopRships xid next fuel rid cnt s1 = .ok cnt' s2 ∧
      Reads xid s s2 := by
  induction fuel generalizing rid rs s1 cnt with
  | zero =>
      obtain rfl := hpath.eq_nil_iff.mp (List.length_eq_zero_iff.mp (Nat.le_zero.mp hfuel))
      exact ⟨cnt, s1, by rw [countNHopRships, if_pos rfl]; rfl, hreads⟩
  | succ fuel ih =>
      cases hpath with
      | nil => exact ⟨cnt, s1, by rw [countNHopRships, if_pos rfl]; rfl, hreads⟩
      | @cons _ j rs hrid hnext hpath =>
          obtain ⟨l, o, s2, -, rfl, hget, hread, hreads2⟩ := seenPath_read hrun hreads hnext
          obtain ⟨cnt', s3, hcount, hreads3⟩ := ih hreads2 hpath (Nat.le_of_succ_le_succ hfuel)
            ((cnt + 1).bmod (2 ^ 32))
          refine ⟨cnt', s3, ?_, hreads3⟩
          rw [countNHopRships, if_neg hrid, bind_ok hget, bind_ok hread]
          exact hcount

/-- What is queued for a list: each relationship with what follows it, and its
end. -/
theorem pathRships_ok (hrun : (s.txs xid).running = true) (hreads : Reads xid s s1)
    (hpath : LinkPath (s.nextSeen xid next) UNKNOWN rid rs) {fuel : Nat}
    (hfuel : rs.length ≤ fuel) : ∃ path s2, pathRships xid next fuel rid s1 = .ok path s2 ∧
      Reads xid s s2 ∧
      List.Forall₂ (LinkPath (s.nextSeen xid next) UNKNOWN) (rid :: path) rs.tails := by
  induction fuel generalizing rid rs s1 with
  | zero =>
      obtain rfl := List.length_eq_zero_iff.mp (Nat.le_zero.mp hfuel)
      obtain rfl := hpath.eq_nil_iff.mp rfl
      exact ⟨[], s1, by rw [pathRships, if_pos rfl]; rfl, hreads, .cons .nil .nil⟩
  | succ fuel ih =>
      cases hpath with
      | nil => exact ⟨[], s1, by rw [pathRships, if_pos rfl]; rfl, hreads, .cons .nil .nil⟩
      | @cons _ j rs hrid hnext hpath =>
          obtain ⟨l, o, s2, hseen, rfl, hget, hread, hreads2⟩ := seenPath_read hrun hreads hnext
          obtain ⟨path, s3, hrest, hreads3, hall⟩ := ih hreads2 hpath (Nat.le_of_succ_le_succ hfuel)
          refine ⟨next o.data :: path, s3, ?_, hreads3, .cons (.cons hrid hnext hpath) hall⟩
          rw [pathRships, if_neg hrid, bind_ok hget, bind_ok hread, bind_ok hrest]
          rfl

/-! ## The search -/

/-- The search that the loop is. Walks have one relationship at least. -/
def GraphDb.labelSearch (s : GraphDb) (xid : Nat) (far : RshipData → Nat) (adj : Nat → List Nat)
    (lcode v min max : Nat) : DelayedSearch Nat Nat :=
  ⟨adj, s.farNode xid far, s.hasLabel xid lcode, v, min + (1 - min), max⟩

@[simp] theorem NHopSearch.take_rshipSet (st : NHopSearch) (rid hops : Nat)
    (queue : List (Nat × Nat)) : (st.take rid hops queue).rshipSet = st.rshipSet := by
  unfold NHopSearch.take
  split <;> rfl

@[simp] theorem NHopSearch.take_rshipQueue (st : NHopSearch) (rid hops : Nat)
    (queue : List (Nat × Nat)) : (st.take rid hops queue).rshipQueue = queue := by
  unfold NHopSearch.take
  split <;> rfl

@[simp] theorem NHopSearch.take_mrNHop (st : NHopSearch) (rid hops : Nat)
    (queue : List (Nat × Nat)) : (st.take rid hops queue).mrNHop = st.mrNHop := by
  unfold NHopSearch.take
  split <;> rfl

theorem NHopSearch.take_mrNHopRshipId (st : NHopSearch) (rid : Nat) (queue : List (Nat × Nat)) :
    (st.take rid st.mrNHop queue).mrNHopRshipId = rid := by
  rw [NHopSearch.take, if_pos rfl]

theorem foreachVariableLabelLoop_nil (fuel : Nat) {st : NHopSearch} (hst : st.rshipQueue = []) :
    foreachVariableLabelLoop xid next far list lcode min max fuel st s = .ok [] s := by
  cases fuel with
  | zero =>
      rw [foreachVariableLabelLoop, if_pos hst]
      rfl
  | succ fuel =>
      rw [foreachVariableLabelLoop, hst]
      rfl

/-- The queue holds the entries of the search. -/
def GraphDb.Queued (s : GraphDb) (xid : Nat) (next : RshipData → Nat) :
    List (Nat × Nat) → List (DelayedSearch.Entry Nat) → Prop :=
  List.Forall₂ fun p e => LinkPath (s.nextSeen xid next) UNKNOWN p.1 e.list ∧
    p.2 = e.walk.length + 1

/-- From the first relationship with the label on: the last entry of the queue
never is a relationship with another label. -/
theorem foreachVariableLabelLoop_ok (hg : s.SeenGraph xid)
    (hadj : s.Adjacency xid next near far list adj) (hle : min ≤ max)
    (hmax : max < 2 ^ 64) {v : Nat}
    (horder : (s.labelSearch xid far adj lcode v min max).InOrder)
    (hshort : ∀ r w, (s.labelSearch xid far adj lcode v min max).Ends r w →
      ∃ w', (s.labelSearch xid far adj lcode v min max).Ends r w' ∧ w'.length < 2 ^ 64 - 1)
    {n : Nat} {visited out : List Nat} {queue : List (DelayedSearch.Entry Nat)}
    {rq : List (Nat × Nat)} (hinv : (s.labelSearch xid far adj lcode v min max).Inv visited queue)
    (hloop : (s.labelSearch xid far adj lcode v min max).loop n visited queue = some out)
    (hqueue : s.Queued xid next rq queue)
    (hlast : ∀ e ∈ queue.getLast?, ∀ r ∈ e.list.head?, s.hasLabel xid lcode r = true)
    (hreads : Reads xid s s1) {fuel : Nat} (hfuel : n ≤ fuel) {st : NHopSearch}
    (hset : st.rshipSet = visited) (hrq : st.rshipQueue = rq) :
    ∃ s2, foreachVariableLabelLoop xid next far list lcode min max fuel st s1 =
      .ok (out.map (s.rshipRef xid)) s2 := by
  induction n generalizing visited queue rq out s1 fuel st with
  | zero =>
      cases hqueue with
      | nil =>
          cases hloop
          exact ⟨s1, foreachVariableLabelLoop_nil fuel hrq⟩
      | cons _ _ => cases hloop
  | succ n ih =>
      cases hqueue with
      | nil =>
          cases hloop
          exact ⟨s1, foreachVariableLabelLoop_nil fuel hrq⟩
      | @cons p e rq queue hfirst hrest =>
          obtain ⟨rid, hops⟩ := p
          obtain ⟨hpath, hhops⟩ := hfirst
          simp only [] at hpath hhops
          obtain ⟨fuel, rfl⟩ := Nat.exists_eq_add_of_le' (Nat.lt_of_lt_of_le (Nat.succ_pos n) hfuel)
          have hfuel' := Nat.le_of_succ_le_succ hfuel
          have hpos : 0 < (s.labelSearch xid far adj lcode v min max).min := by
            show 0 < min + (1 - min)
            omega
          have hlast' : ∀ e' ∈ queue.getLast?, ∀ r ∈ e'.list.head?,
            s.hasLabel xid lcode r = true := by
            intro e' he'
            refine hlast e' ?_
            rw [List.getLast?_cons, Option.mem_def.mp he']
            rfl
          have hskip := fun {s2 : GraphDb} hnot hout hreads hset hrq =>
            @ih s2 visited out queue rq (hinv.skip hpos hnot) hout hrest hlast' hreads fuel hfuel'
              (st.take rid hops rq) hset hrq
          rw [foreachVariableLabelLoop, hrq]
          simp only []
          cases hlist : e.list with
          | nil =>
              rw [hlist] at hpath
              cases hpath
              simp only [DelayedSearch.loop, hlist] at hloop
              rw [if_pos (.inl rfl)]
              exact hskip (fun r rest heq => by rw [hlist] at heq; cases heq) hloop hreads
                (by simp [hset]) (by simp)
          | cons r rest =>
              rw [hlist] at hpath
              simp only [DelayedSearch.loop, hlist] at hloop
              cases hpath with
              | @cons _ j _ hrid hnext hpath =>
                  by_cases hhigh : max < hops
                  · have hnot : ¬(s.labelSearch xid far adj lcode v min max).Taken
                      visited e rid := by
                      intro htaken
                      have hlow : e.walk.length < max := htaken.1
                      omega
                    rw [if_neg hnot] at hloop
                    rw [if_pos (.inr hhigh)]
                    exact hskip (fun r' rest' heq => by rw [hlist] at heq; cases heq; exact hnot)
                      hloop hreads (by simp [hset]) (by simp)
                  obtain ⟨l, o, s2, hseen, rfl, hget, hread, hreads2⟩ :=
                    seenPath_read hg.running hreads hnext
                  have hlabel : s.hasLabel xid lcode rid = true ↔ o.data.rshipLabel = lcode := by
                    rw [GraphDb.hasLabel, hseen]
                    exact beq_iff_eq
                  have hexit : ¬(rq = [] ∧ o.data.rshipLabel ≠ lcode) := by
                    rintro ⟨rfl, hother⟩
                    cases hrest
                    exact hother (hlabel.mp (hlast e rfl rid (by rw [hlist]; rfl)))
                  have hid := hg.ids rid l o hseen
                  rw [if_neg (not_or.mpr ⟨hrid, hhigh⟩), bind_ok hget, bind_ok hread, if_neg hexit,
                    NHopSearch.take_rshipSet, hset, hid]
                  have hmin : (s.labelSearch xid far adj lcode v min max).min ≤ e.walk.length + 1 ↔
                      min ≤ hops := by
                    show min + (1 - min) ≤ e.walk.length + 1 ↔ min ≤ hops
                    omega
                  have htaken_iff : (s.labelSearch xid far adj lcode v min max).Taken
                    visited e rid ↔
                      ¬(o.data.rshipLabel ≠ lcode ∨ (min ≤ hops ∧ rid ∈ visited)) := by
                    rw [not_or, not_not, ← hmin, ← hlabel]
                    exact ⟨fun h => ⟨h.2.1, h.2.2⟩,
                      fun h => ⟨by show e.walk.length < max; omega, h⟩⟩
                  by_cases htaken : (s.labelSearch xid far adj lcode v min max).Taken visited e rid
                  · rw [if_pos htaken] at hloop
                    have hfar : s.farNode xid far rid = far o.data := by
                      rw [GraphDb.farNode, hseen]
                      rfl
                    obtain ⟨ln, on, hnode⟩ := hadj.far rid l o hseen
                    obtain ⟨s3, hgetn, hreads3, hhold⟩ := nodeById_ok (hreads2.txs ▸ hg.running)
                      (hreads2.keptNodes.seen.trans hnode)
                    have hpathn := hadj.path _ _ _ hnode
                    have hreads23 := hreads2.trans hreads3
                    have hsize := seenPath_length_le hg.rshipSlots hpathn
                    have hsize' := hreads23.size
                    obtain ⟨path, s4, hpaths, hreads4, hall⟩ :=
                      pathRships_ok hg.running hreads23 hpathn
                      (show (adj (far o.data)).length ≤ s3.rships.size + 1 by omega)
                    have hstep := hinv.take hpos hadj.nodup horder hlist htaken
                    have hhops' : (hops + 1) % 2 ^ 64 = hops + 1 := by
                      refine Nat.mod_eq_of_lt ?_
                      by_cases hlow : min ≤ hops
                      · obtain ⟨hfirst, -⟩ := hinv.first hpos hadj.nodup horder hlist htaken
                          (hmin.mpr hlow)
                        obtain ⟨w, hw, hwlt⟩ := hshort rid _ hfirst.1
                        have hwle := (hfirst.2 w hw).1
                        rw [List.length_append, List.length_singleton] at hwle
                        omega
                      · omega
                    have hqueue' : s.Queued xid next
                        (rq ++ (next o.data, hops) :: (list on.data :: path).map fun id =>
                          (id, (hops + 1) % 2 ^ 64))
                        (queue ++ (s.labelSearch xid far adj lcode v min max).succs e
                        rid rest) := by
                      refine List.rel_append hrest (.cons ⟨hpath, hhops⟩ ?_)
                      refine List.forall₂_map_left_iff.mpr (List.forall₂_map_right_iff.mpr ?_)
                      show List.Forall₂ _ _ (adj (s.farNode xid far rid)).tails
                      rw [hfar]
                      refine hall.imp fun id rs h => ⟨h, ?_⟩
                      rw [hhops', hhops, List.length_append, List.length_singleton]
                    have hlast'' : ∀ e' ∈ (queue ++
                        (s.labelSearch xid far adj lcode v min max).succs e rid rest).getLast?,
                        ∀ r ∈ e'.list.head?, s.hasLabel xid lcode r = true := by
                      intro e' he' r hr
                      rw [DelayedSearch.list_of_last e' he'] at hr
                      cases hr
                    rw [if_neg (htaken_iff.mp htaken), bind_ok hgetn, bind_ok (Table.read_ok hhold),
                      bind_ok (show (get : DbM GraphDb) s3 = .ok s3 s3 from rfl), bind_ok hpaths]
                    by_cases hlow : min ≤ hops
                    · rw [if_pos (hmin.mpr hlow)] at hloop hstep
                      obtain ⟨out', hout, rfl⟩ := Option.map_eq_some_iff.mp hloop
                      rw [if_pos hlow]
                      obtain ⟨s5, hend⟩ := @ih s4 _ _ _ _ hstep hout hqueue' hlast'' hreads4
                        fuel hfuel' { st.take rid hops rq with
                          rshipSet := rid :: visited
                          rshipQueue := _ } rfl rfl
                      refine ⟨s5, ?_⟩
                      rw [bind_ok hend, if_pos hlow, List.map_cons, GraphDb.rshipRef, hseen]
                      rfl
                    · rw [if_neg (mt hmin.mp hlow)] at hloop hstep
                      rw [if_neg hlow]
                      obtain ⟨s5, hend⟩ := @ih s4 _ _ _ _ hstep hloop hqueue' hlast'' hreads4
                        fuel hfuel' { st.take rid hops rq with
                          rshipSet := visited
                          rshipQueue := _ } rfl rfl
                      refine ⟨s5, ?_⟩
                      rw [bind_ok hend, if_neg hlow]
                      rfl
                  · rw [if_neg htaken] at hloop
                    rw [if_pos (not_not.mp (mt htaken_iff.mpr htaken))]
                    exact hskip (fun r' rest' heq => by rw [hlist] at heq; cases heq; exact htaken)
                      hloop hreads2 (by simp [hset]) (by simp)

theorem foreachVariableLabelLoop_unknown {fuel : Nat} {st : NHopSearch} {hops : Nat}
    (hst : st.rshipQueue = [(UNKNOWN, hops)]) :
    foreachVariableLabelLoop xid next far list lcode min max (fuel + 1) st s = .ok [] s := by
  rw [foreachVariableLabelLoop, hst]
  simp only []
  rw [if_pos (.inl trivial)]
  exact foreachVariableLabelLoop_nil fuel (NHopSearch.take_rshipQueue ..)

/-- Up to the first relationship with the label the queue has one entry, and the
loop goes over the list. -/
theorem foreachVariableLabelLoop_skip (hg : s.SeenGraph xid) (hmax : 0 < max)
    (hpath : LinkPath (s.nextSeen xid next) UNKNOWN rid rs) {calls : List Ref} {n : Nat}
    (hend : ∀ rid' s1, LinkPath (s.nextSeen xid next) UNKNOWN rid'
        (rs.dropWhile fun r => !s.hasLabel xid lcode r) → Reads xid s s1 →
      ∀ fuel st, n ≤ fuel → st.rshipSet = [] → st.rshipQueue = [(rid', 1)] →
        ∃ s2, foreachVariableLabelLoop xid next far list lcode min max fuel st s1 = .ok calls s2)
    (hreads : Reads xid s s1) {fuel : Nat} (hfuel : n + rs.length ≤ fuel) {st : NHopSearch}
    (hset : st.rshipSet = []) (hrq : st.rshipQueue = [(rid, 1)]) (hhop : st.mrNHop = 1) :
    ∃ s2, foreachVariableLabelLoop xid next far list lcode min max fuel st s1 = .ok calls s2 := by
  induction hpath generalizing s1 fuel st with
  | nil => exact hend UNKNOWN s1 .nil hreads fuel st hfuel hset hrq
  | @cons i j rs hi hnext hpath ih =>
      by_cases hok : s.hasLabel xid lcode i = true
      · refine hend i s1 ?_ hreads fuel st (Nat.le_of_add_right_le hfuel) hset hrq
        rw [List.dropWhile_cons_of_neg (by simp [hok])]
        exact .cons hi hnext hpath
      · rw [List.dropWhile_cons_of_pos (by simp [hok])] at hend
        obtain ⟨fuel, rfl⟩ := Nat.exists_eq_add_of_le' (show 1 ≤ fuel by
          rw [List.length_cons] at hfuel
          omega)
        have hfuel' : n + rs.length ≤ fuel := by
          rw [List.length_cons] at hfuel
          omega
        obtain ⟨l, o, s2, hseen, rfl, hget, hread, hreads2⟩ := seenPath_read hg.running hreads hnext
        have hlabel : o.data.rshipLabel ≠ lcode := by
          intro heq
          rw [GraphDb.hasLabel, hseen] at hok
          exact hok (beq_iff_eq.mpr heq)
        have htake : st.take i 1 [] = st.take i st.mrNHop [] := by rw [hhop]
        rw [foreachVariableLabelLoop, hrq]
        simp only []
        rw [if_neg (not_or.mpr ⟨hi, Nat.not_lt.mpr hmax⟩), bind_ok hget, bind_ok hread,
          if_pos ⟨trivial, hlabel⟩]
        split
        · -- the position is the relationship that was just taken
          obtain ⟨l', o', s3, hseen', hnext', hget', hread', hreads3⟩ :=
            seenPath_read hg.running hreads2 hnext
          rw [htake, NHopSearch.take_mrNHopRshipId, bind_ok hget', bind_ok hread']
          exact ih hend hreads3 hfuel' (by simp [hset]) (by simp [hnext', hhop]) (by simp [hhop])
        · split
          · have hsize := seenPath_length_le hg.rshipSlots hpath
            have hsize' := hreads2.size
            obtain ⟨cnt, s3, hcount, hreads3⟩ := countNHopRships_ok hg.running hreads2 hpath
              (show rs.length ≤ s2.rships.size + 1 by omega) 0
            rw [bind_ok (show (get : DbM GraphDb) s2 = .ok s2 s2 from rfl), bind_ok hcount]
            exact ih hend hreads3 hfuel' (by simp [hset]) rfl rfl
          · next hlast =>
              rw [not_not.mp hlast] at hpath
              obtain rfl := hpath.eq_nil_iff.mpr rfl
              obtain ⟨s3, hrun⟩ := hend UNKNOWN s1 .nil hreads (n + 1) ⟨[], [(UNKNOWN, 1)], 0, 0, 0⟩
                (Nat.le_succ n) rfl rfl
              rw [foreachVariableLabelLoop_unknown rfl] at hrun
              cases hrun
              exact ⟨s2, foreachVariableLabelLoop_nil fuel (NHopSearch.take_rshipQueue ..)⟩

/-! ## Walks with the label -/

theorem isLabelWalk_iff (hadj : s.Adjacency xid next near far list adj) {v : Nat}
    (hv : s.HasNode xid v) {w : List Nat} :
    (Expansion.IsWalk adj (s.farNode xid far) v w ∧ ∀ r ∈ w, s.hasLabel xid lcode r = true) ↔
      s.IsLabelWalk xid near far lcode v w := by
  induction w generalizing v with
  | nil => exact ⟨fun _ => trivial, fun _ => ⟨trivial, fun r hr => absurd hr List.not_mem_nil⟩⟩
  | cons r w ih =>
      rw [Expansion.IsWalk, List.forall_mem_cons, GraphDb.IsLabelWalk, hadj.mem v hv]
      constructor
      · rintro ⟨⟨⟨l, o, hseen, hnear⟩, hwalk⟩, hlabel, hlabels⟩
        rw [GraphDb.farNode, hseen] at hwalk
        rw [GraphDb.hasLabel, hseen] at hlabel
        exact ⟨l, o, hseen, beq_iff_eq.mp hlabel, hnear,
          (ih (hadj.far r l o hseen)).mp ⟨hwalk, hlabels⟩⟩
      · rintro ⟨l, o, hseen, hlabel, hnear, hwalk⟩
        obtain ⟨hwalk, hlabels⟩ := (ih (hadj.far r l o hseen)).mpr hwalk
        rw [GraphDb.farNode, GraphDb.hasLabel, hseen]
        exact ⟨⟨⟨l, o, rfl, hnear⟩, hwalk⟩, beq_iff_eq.mpr hlabel, hlabels⟩

/-- The walks of the search are those of the graph. -/
theorem ends_iff (hadj : s.Adjacency xid next near far list adj) {v : Nat}
    (hv : s.HasNode xid v) {r : Nat} {w : List Nat} :
    (s.labelSearch xid far adj lcode v min max).Ends r w ↔
      w ∈ s.labelWalksTo xid near far lcode v min max r := by
  have hpos : w.getLast? = some r → 0 < w.length := fun hlast => by
    cases w with
    | nil => cases hlast
    | cons a w => exact Nat.succ_pos _
  constructor
  · rintro ⟨hw, hlow, hhigh, hlast⟩
    exact ⟨(isLabelWalk_iff hadj hv).mp hw, Nat.le_of_add_right_le hlow, hhigh, hlast⟩
  · rintro ⟨hw, hlow, hhigh, hlast⟩
    refine ⟨(isLabelWalk_iff hadj hv).mpr hw, ?_, hhigh, hlast⟩
    show min + (1 - min) ≤ w.length
    have hlen := hpos hlast
    omega

theorem place_eq_takenAt {w : List Nat} {v : Nat} (hne : w ≠ []) :
    (s.labelSearch xid far adj lcode v min max).place w = GraphDb.takenAt (adj v) w := by
  cases w with
  | nil => exact absurd rfl hne
  | cons r w => rfl

/-- The whole search, in one direction. -/
theorem foreachVariableLabel_calls (hg : s.SeenGraph xid)
    (hlists : ∀ v l o, nodeTable.seen s xid v = some (l, o) →
      s.SeenList xid next near v (list o.data))
    (hends : ∀ r l o, rshipTable.seen s xid r = some (l, o) → s.HasNode xid (far o.data))
    (hle : min ≤ max) (hmax : max < 2 ^ 64) {v : Nat} {l : Loc} {o : Obj NodeData}
    (hv : nodeTable.seen s xid v = some (l, o))
    (horder : s.LabelsInOrder xid next near far lcode v min max (list o.data)) :
    ∃ calls n, (∀ fuel, n ≤ fuel → ∃ s', foreachVariableLabel xid next far list lcode min max fuel
        (list o.data) s = .ok calls s') ∧
      s.CallsLabelled xid near far lcode v min max calls := by
  obtain ⟨adj, hadj⟩ := GraphDb.exists_adjacency hlists hends
  have hpath := hadj.path v l o hv
  obtain ⟨rs, hrs, hrun, hfirst⟩ := horder
  obtain rfl := hpath.unique hrs
  have hsize := seenPath_length_le hg.rshipSlots hpath
  obtain ⟨cnt, s1, hcount, hreads⟩ := countNHopRships_ok hg.running (.refl xid s) hpath
    (show (adj v).length ≤ s.rships.size + 1 by omega) 0
  have hstart : ∀ fuel, foreachVariableLabel xid next far list lcode min max fuel (list o.data) s =
      foreachVariableLabelLoop xid next far list lcode min max fuel
        ⟨[], [(list o.data, 1)], cnt, 1, list o.data⟩ s1 := by
    intro fuel
    rw [foreachVariableLabel, bind_ok (show (get : DbM GraphDb) s = .ok s s from rfl),
      bind_ok hcount]
  by_cases hzero : max = 0
  · subst hzero
    refine ⟨[], 1, fun fuel hfuel => ⟨s1, ?_⟩, ⟨fun r hr => absurd hr List.not_mem_nil,
      List.nodup_nil, fun r => ⟨fun hr => absurd hr List.not_mem_nil, ?_⟩⟩⟩
    · obtain ⟨fuel, rfl⟩ := Nat.exists_eq_add_of_le' hfuel
      rw [hstart, foreachVariableLabelLoop]
      simp only []
      rw [if_pos (.inr Nat.one_pos)]
      exact foreachVariableLabelLoop_nil fuel (NHopSearch.take_rshipQueue ..)
    · rintro ⟨w, -, -, hlen, hlast⟩
      rw [List.length_eq_zero_iff.mp (Nat.le_zero.mp hlen)] at hlast
      cases hlast
  · have hone := hrun (Nat.pos_of_ne_zero hzero)
    have hnode : s.HasNode xid v := ⟨l, o, hv⟩
    have hplace : ∀ {r w}, w ∈ s.labelWalksTo xid near far lcode v min max r →
        (s.labelSearch xid far adj lcode v min max).place w = GraphDb.takenAt (adj v) w :=
      fun h => place_eq_takenAt fun hnil => by
        rw [hnil] at h
        cases h.2.2.2
    have hinorder : (s.labelSearch xid far adj lcode v min max).InOrder := by
      intro r w hw
      obtain ⟨w0, hw0, -, hbest⟩ := hfirst r ⟨w, (ends_iff hadj hnode).mp hw⟩
      refine ⟨w0, (ends_iff hadj hnode).mpr hw0, fun w' hw' => ?_⟩
      have hw'' := (ends_iff hadj hnode).mp hw'
      rw [hplace hw0, hplace hw'']
      exact hbest w' hw''
    have hedges : ∀ u, adj u ⊆ List.range s.rships.size := by
      intro u r hr
      obtain ⟨l', o', hseen, -⟩ := (hadj.mem u (hadj.node u r hr) r).mp hr
      exact List.mem_range.mpr (hg.rshipSlots r (Table.seen_iff.mp hseen).1)
    obtain ⟨n, out, hloop, hnodup, hmem⟩ := DelayedSearch.loop_calls
      (S := s.labelSearch xid far adj lcode v min max)
      (show 0 < min + (1 - min) by omega) hadj.nodup
      hinorder hone hedges
    refine ⟨out.map (s.rshipRef xid), n + (adj v).length, fun fuel hfuel => ?_, ?_⟩
    · rw [hstart]
      refine foreachVariableLabelLoop_skip hg (Nat.pos_of_ne_zero hzero) hpath
        (n := n) ?_ hreads hfuel
        rfl rfl rfl
      intro rid' s2 hpath' hreads' fuel' st hfuel' hset hrq
      refine foreachVariableLabelLoop_ok hg hadj hle hmax hinorder (fun r w hw => ?_)
        (DelayedSearch.inv_first hone) hloop (.cons ⟨hpath', rfl⟩ .nil)
        (fun e he r hr => ?_) hreads'
        hfuel' hset hrq
      · obtain ⟨w0, hw0, hlt, -⟩ := hfirst r ⟨w, (ends_iff hadj hnode).mp hw⟩
        exact ⟨w0, (ends_iff hadj hnode).mpr hw0, hlt⟩
      · cases he
        have hnot := List.head?_dropWhile_not (fun r => !s.hasLabel xid lcode r) (adj v)
        have hhead : ((adj v).dropWhile fun r => !s.hasLabel xid lcode r).head? = some r := hr
        rw [hhead] at hnot
        simpa using hnot
    · have hids : (out.map (s.rshipRef xid)).map Ref.id = out := by
        rw [List.map_map]
        exact List.map_id out
      refine ⟨fun r hr => ?_, ?_, fun r => ?_⟩
      · obtain ⟨i, -, rfl⟩ := List.mem_map.mp hr
        rfl
      · rw [hids]
        exact hnodup
      · rw [hids, hmem]
        exact exists_congr fun w => ends_iff hadj hnode

end

/-- Both directions: if the relationships with the label stand next to each other
and come in order, the consumer is called once for each relationship at the end
of a walk. -/
theorem foreach_variable_labels (s : GraphDb) (xid v lcode min max : Nat) (l : Loc)
    (o : Obj NodeData) (hg : s.SeenGraph xid) (hv : nodeTable.seen s xid v = some (l, o))
    (hle : min ≤ max) (hmax : max < 2 ^ 64) :
    (s.LabelsInOrder xid RshipData.nextSrcRship RshipData.srcNode RshipData.destNode lcode v min max
        o.data.fromRshipList →
      ∃ calls n, (∀ fuel, n ≤ fuel → ∃ s', foreachVariableFromRelationshipOfNodeWithLabel xid o.data
          lcode min max fuel s = .ok calls s') ∧
        s.CallsLabelled xid RshipData.srcNode RshipData.destNode lcode v min max calls) ∧
    (s.LabelsInOrder xid RshipData.nextDestRship RshipData.destNode RshipData.srcNode
    lcode v min max
        o.data.toRshipList →
      ∃ calls n, (∀ fuel, n ≤ fuel → ∃ s', foreachVariableToRelationshipOfNodeWithLabel xid o.data
          lcode min max fuel s = .ok calls s') ∧
        s.CallsLabelled xid RshipData.destNode RshipData.srcNode lcode v min max calls) :=
  ⟨foreachVariableLabel_calls hg hg.outgoing (fun r l o h => (hg.ends r l o h).2) hle hmax hv,
    foreachVariableLabel_calls hg hg.incoming (fun r l o h => (hg.ends r l o h).1) hle hmax hv⟩

theorem seenGraph_committed {xid : Nat} (hx : 0 < xid) (hlt : xid < INF) {nodes : List NodeData}
    {rships : List RshipData} (h : graphOk nodes rships = true)
    (hids : rships.map RshipData.id = List.range rships.length) :
    (GraphDb.committed xid nodes rships).SeenGraph xid := by
  have hg := visibleGraph_committed hx hlt h
  have hall := allValid_committed hx hlt nodes rships
  refine ⟨hg.running, hg.rshipSlots, fun r l o hseen => ?_, fun r l o hseen =>
    hg.ends ⟨r, l⟩ o.data ⟨o, hseen, hall r l o hseen, rfl⟩,
    fun v l o hv => (hg.outgoing v l o hv).seenList hall,
    fun v l o hv => (hg.incoming v l o hv).seenList hall⟩
  rw [seen_committed rfl hx hlt] at hseen
  obtain ⟨d, hd, heq⟩ := Option.map_eq_some_iff.mp hseen
  cases heq
  have hid := List.getElem?_map (f := RshipData.id) (l := rships) (i := r)
  rw [hids, hd, List.getElem?_range (List.getElem?_eq_some_iff.mp hd).1] at hid
  exact (Option.some.inj hid).symm

/-- The first node has a relationship with the label 2, and behind it two with
the label 1; from the other end of one of these a third one leads on. -/
def GraphDb.branches : GraphDb :=
  .committed 1
    [⟨0, 0, UNKNOWN, 0, 0⟩, ⟨1, 3, 0, 0, 0⟩, ⟨2, UNKNOWN, 2, 0, 0⟩]
    [⟨0, 0, 1, 1, 1, 0, 2⟩, ⟨1, 0, 1, 2, UNKNOWN, 0, 1⟩, ⟨2, 0, 2, UNKNOWN, 3, 0, 1⟩,
      ⟨3, 1, 2, UNKNOWN, UNKNOWN, 0, 1⟩]

theorem branches_step {v r : Nat} {w : List Nat}
    (h : GraphDb.branches.IsLabelWalk 1 RshipData.srcNode RshipData.destNode 1 v (r :: w)) :
    (v = 0 ∧ r = 1 ∧ GraphDb.branches.IsLabelWalk 1 RshipData.srcNode RshipData.destNode 1 1 w) ∨
    (v = 0 ∧ r = 2 ∧ GraphDb.branches.IsLabelWalk 1 RshipData.srcNode RshipData.destNode 1 2 w) ∨
    (v = 1 ∧ r = 3 ∧ GraphDb.branches.IsLabelWalk 1 RshipData.srcNode
    RshipData.destNode 1 2 w) := by
  obtain ⟨l, o, hseen, hlabel, hnear, hwalk⟩ := h
  rw [GraphDb.branches, seen_committed rfl (by decide) (by decide)] at hseen
  obtain ⟨d, hd, heq⟩ := Option.map_eq_some_iff.mp hseen
  cases heq
  have hlt := (List.getElem?_eq_some_iff.mp hd).1
  have hr : r = 0 ∨ r = 1 ∨ r = 2 ∨ r = 3 := by
    simp only [List.length_cons, List.length_nil] at hlt
    omega
  rcases hr with rfl | rfl | rfl | rfl
  · cases hd
    cases hlabel
  · cases hd
    exact .inl ⟨hnear.symm, rfl, hwalk⟩
  · cases hd
    exact .inr (.inl ⟨hnear.symm, rfl, hwalk⟩)
  · cases hd
    exact .inr (.inr ⟨hnear.symm, rfl, hwalk⟩)

/-- The walks with the label 1 from the first node. -/
theorem branches_walks {w : List Nat}
    (h : GraphDb.branches.IsLabelWalk 1 RshipData.srcNode RshipData.destNode 1 0 w) :
    w = [] ∨ w = [1] ∨ w = [1, 3] ∨ w = [2] := by
  have hend : ∀ {w}, GraphDb.branches.IsLabelWalk 1 RshipData.srcNode RshipData.destNode 1 2 w →
      w = [] := by
    intro w h
    cases w with
    | nil => rfl
    | cons r w =>
        rcases branches_step h with ⟨hv, -⟩ | ⟨hv, -⟩ | ⟨hv, -⟩ <;> cases hv
  cases w with
  | nil => exact .inl rfl
  | cons r w =>
      rcases branches_step h with ⟨-, rfl, hw⟩ | ⟨-, rfl, hw⟩ | ⟨hv, -⟩
      · cases w with
        | nil => exact .inr (.inl rfl)
        | cons r w =>
            rcases branches_step hw with ⟨hv, -⟩ | ⟨hv, -⟩ | ⟨-, rfl, hw'⟩
            · cases hv
            · cases hv
            · rw [hend hw']
              exact .inr (.inr (.inl rfl))
      · rw [hend hw]
        exact .inr (.inr (.inr rfl))
      · cases hv

theorem labelsInOrder_branches : GraphDb.branches.LabelsInOrder 1 RshipData.nextSrcRship
    RshipData.srcNode RshipData.destNode 1 0 1 3 0 := by
  refine ⟨[0, 1, 2], .cons (by decide) (show _ = some 1 by decide) (.cons (by decide)
    (show _ = some 2 by decide) (.cons (by decide) (show _ = some UNKNOWN by decide) .nil)),
    fun _ => show ∀ r ∈ _, _ = false by decide, fun r hne => ?_⟩
  have hlast : ∀ w ∈ GraphDb.branches.labelWalksTo 1 RshipData.srcNode RshipData.destNode 1 0 1 3 r,
      w = (if r = 1 then [1] else if r = 3 then [1, 3] else [2]) := by
    rintro w ⟨hwalk, -, -, hw⟩
    rcases branches_walks hwalk with rfl | rfl | rfl | rfl <;> cases hw <;> rfl
  obtain ⟨w, hw⟩ := hne
  refine ⟨w, hw, Nat.lt_of_le_of_lt hw.2.2.1 (by decide), fun w' hw' => ?_⟩
  rw [hlast w hw, hlast w' hw']
  exact ⟨Nat.le_refl _, Nat.le_refl _⟩

theorem foreach_variable_labels_branches : ∃ calls n, (∀ fuel, n ≤ fuel → ∃ s',
      foreachVariableFromRelationshipOfNodeWithLabel 1 ⟨0, 0, UNKNOWN, 0, 0⟩ 1 1 3 fuel
        GraphDb.branches = .ok calls s') ∧
    GraphDb.branches.CallsLabelled 1 RshipData.srcNode RshipData.destNode 1 0 1 3 calls :=
  (foreach_variable_labels GraphDb.branches 1 0 1 1 3 .slot
    ⟨0, 0, INF, 1, true, false, ⟨0, 0, UNKNOWN, 0, 0⟩⟩
    (seenGraph_committed (by decide) (by decide) (by decide +kernel) (by decide)) (by decide)
    (by decide) (by decide)).1 labelsInOrder_branches

/-- Between two relationships of the first node with the label 1 there is one
with the label 2. -/
def GraphDb.mixed : GraphDb :=
  .committed 1
    [⟨0, 0, UNKNOWN, 0, 0⟩, ⟨1, UNKNOWN, 0, 0, 0⟩, ⟨2, UNKNOWN, 1, 0, 0⟩, ⟨3, UNKNOWN, 2, 0, 0⟩]
    [⟨0, 0, 1, 1, UNKNOWN, 0, 1⟩, ⟨1, 0, 2, 2, UNKNOWN, 0, 2⟩,
      ⟨2, 0, 3, UNKNOWN, UNKNOWN, 0, 1⟩]

/-- The first relationship of the first node leads back to it, so the third one is
reached over it before it comes in the list. -/
def GraphDb.late : GraphDb :=
  .committed 1
    [⟨0, 0, 0, 0, 0⟩, ⟨1, 3, 2, 0, 0⟩, ⟨2, UNKNOWN, 3, 0, 0⟩, ⟨3, UNKNOWN, 1, 0, 0⟩]
    [⟨0, 0, 0, 1, UNKNOWN, 0, 1⟩, ⟨1, 0, 3, 2, UNKNOWN, 0, 1⟩,
      ⟨2, 0, 1, UNKNOWN, UNKNOWN, 0, 1⟩, ⟨3, 1, 2, UNKNOWN, UNKNOWN, 0, 1⟩]

theorem mixed_run : ∃ (calls : List Ref) (s' : GraphDb),
    foreachVariableFromRelationshipOfNodeWithLabel 1 ⟨0, 0, UNKNOWN, 0, 0⟩ 1 1 3 20 GraphDb.mixed =
      .ok calls s' ∧ calls.map Ref.id = [0] := by
  refine wp_exists (Q := fun (calls : List Ref) _ => calls.map Ref.id = [0]) ?_
  decide +kernel

theorem late_run : ∃ (calls : List Ref) (s' : GraphDb),
    foreachVariableFromRelationshipOfNodeWithLabel 1 ⟨0, 0, 0, 0, 0⟩ 1 1 2 40 GraphDb.late =
      .ok calls s' ∧ calls.map Ref.id = [0, 1, 2] := by
  refine wp_exists (Q := fun (calls : List Ref) _ => calls.map Ref.id = [0, 1, 2]) ?_
  decide +kernel

/-- The second relationship with the label is not called, and neither is the one
that a walk of two relationships ends with. -/
theorem foreach_variable_labels_missing :
    (GraphDb.mixed.SeenGraph 1 ∧ ∃ calls s', foreachVariableFromRelationshipOfNodeWithLabel 1
        ⟨0, 0, UNKNOWN, 0, 0⟩ 1 1 3 20 GraphDb.mixed = .ok calls s' ∧
      ¬GraphDb.mixed.CallsLabelled 1 RshipData.srcNode RshipData.destNode 1 0 1 3 calls) ∧
    GraphDb.late.SeenGraph 1 ∧ ∃ calls s', foreachVariableFromRelationshipOfNodeWithLabel 1
        ⟨0, 0, 0, 0, 0⟩ 1 1 2 40 GraphDb.late = .ok calls s' ∧
      ¬GraphDb.late.CallsLabelled 1 RshipData.srcNode RshipData.destNode 1 0 1 2 calls := by
  have htwo : rshipTable.seen GraphDb.mixed 1 2 =
      some (.slot, ⟨0, 0, INF, 1, true, false, ⟨2, 0, 3, UNKNOWN, UNKNOWN, 0, 1⟩⟩) := by decide
  have htwo' : rshipTable.seen GraphDb.late 1 2 =
      some (.slot, ⟨0, 0, INF, 1, true, false, ⟨2, 0, 1, UNKNOWN, UNKNOWN, 0, 1⟩⟩) := by decide
  have hthree : rshipTable.seen GraphDb.late 1 3 =
      some (.slot, ⟨0, 0, INF, 1, true, false, ⟨3, 1, 2, UNKNOWN, UNKNOWN, 0, 1⟩⟩) := by decide
  obtain ⟨calls, s', hrun, hids⟩ := mixed_run
  obtain ⟨calls', s'', hrun', hids'⟩ := late_run
  refine ⟨⟨seenGraph_committed (by decide) (by decide) (by decide +kernel) (by decide),
    calls, s', hrun,
    fun h => ?_⟩, seenGraph_committed (by decide) (by decide) (by decide +kernel)
    (by decide), calls',
    s'', hrun', fun h => ?_⟩
  · have hmem := (h.walks 2).mpr ⟨[2], ⟨.slot, _, htwo, rfl, rfl, trivial⟩, by decide,
      by decide, rfl⟩
    rw [hids] at hmem
    exact absurd hmem (by decide)
  · have hmem := (h.walks 3).mpr ⟨[2, 3], ⟨.slot, _, htwo', rfl, rfl, .slot, _, hthree, rfl, rfl,
      trivial⟩, by decide, by decide, rfl⟩
    rw [hids'] at hmem
    exact absurd hmem (by decide)

end Poseidon
