import Poseidon.Lib.LinkPath
import Poseidon.Proofs.Sight

/-!
# Relationships and their nodes

Two invariants say that what a transaction sees hangs together.
`Log.Joined` is about what is committed: at every timestamp a relationship
has its nodes, and the versions of a relationship go back to one whose
transaction has written both nodes. `Tidy` is about one active transaction:
it sees no relationship of a node that it has deleted, and nobody can take
away the nodes of the relationships that it has added.

A commit keeps them when the transaction has written the nodes of all
relationships that it has inserted (`Attached`). `add_relationship` inserts
before it writes the nodes, and when it throws in between the relationship
stays.

The last part is about the lists that `delete_node` and `detach_delete_node`
walk along.
-/

namespace Poseidon

open Wp History

/-- One of the ends is `n`. -/
def Touches (e : Nat × Nat) (n : Nat) : Prop := e.1 = n ∨ e.2 = n

/-- What an active transaction sees and has changed hangs together. -/
structure Tidy (T : Nat) (L : Log) (s : GraphDb) : Prop where
  buried : ∀ n, Buried T s n → ∀ rid e, SeesRship T L s rid e → ¬ Touches e n
  added : ∀ rid e n, Added T s rid e → Touches e n → HoldsNode T L s n
  sameEnds : SameEnds T L s

/-- `n` has a version from `t`. -/
def Log.HasVersion (L : Log) (t n : Nat) : Prop := ∃ c, (t, c) ∈ L.nodes n

/-- What is committed hangs together. -/
structure Log.Joined (L : Log) : Prop where
  nodes : ∀ x rid t c n, Latest (L.rships rid) x (t, some c) → Touches (endsOf c) n →
    ∃ t' c', Latest (L.nodes n) x (t', some c')
  born : ∀ rid, Born (fun t c => ∀ n, Touches (endsOf c) n → L.HasVersion t n) endsOf
    (L.rships rid)

section States

variable {top T Z : Nat} {L L' : Log} {s s' : GraphDb}

theorem Calm.tidy (h : Calm T L s s') (ht : Tidy T L s) : Tidy T L s' :=
  ⟨fun n hb rid e hs => ht.buried n (h.buried n hb) rid e (h.sees rid e hs),
    fun rid e n ha hn => h.holds n (ht.added rid e n (h.added rid e ha) hn),
    h.sameEnds ht.sameEnds⟩

/-- The nodes of a relationship that a transaction sees. -/
theorem Tidy.seesNode {rid n : Nat} {e : Nat × Nat} (ht : Tidy T L s) (hj : L.Joined)
    (hi : s.Inv top L) (hs : SeesRship T L s rid e) (hn : Touches e n) :
    SeesNode T L s n := by
  cases hown : (nodeTable.record s n).getDirtyVersion T with
  | some dn =>
      by_cases hcts : dn.elem.cts = INF
      · exact ⟨_, .own hown hcts rfl⟩
      · exact absurd hn (ht.buried n ⟨dn, hown, hcts⟩ rid e hs)
  | none =>
      suffices h : ∃ t c, Latest (L.nodes n) T (t, some c) by
        obtain ⟨t, c, hl⟩ := h
        exact ⟨c, .committed hown hl⟩
      obtain ⟨c, hc, rfl⟩ := hs
      cases hc with
      | committed _ latest => exact hj.nodes T rid _ c n latest hn
      | @own dn latest live content =>
          cases hup : dn.updateMode with
          | true =>
              obtain ⟨t, c₀, H, hhead, hle, hends⟩ := ht.sameEnds rid dn latest live hup
              have hsort := (hi.rships.slots rid).record.sorted
              refine hj.nodes T rid t c₀ n ?_ ?_
              · rw [hhead] at hsort ⊢
                exact latest_head hsort hle
              · rw [hends]
                rw [content] at hn
                exact hn
          | false =>
              have hadd : Added T s rid (endsOf c) := by
                refine ⟨dn, latest, live, hup, ?_⟩
                rw [content]
                rfl
              rcases ht.added rid _ n hadd hn with hne | ⟨⟨t, c'⟩, hseen⟩
              · exact absurd hown hne
              · have hcont := hseen.content
                cases hc' : c' with
                | none => exact absurd hc' hcont
                | some c₁ => exact ⟨t, c₁, hc' ▸ hseen.latest⟩

/-! ## The end of a transaction -/

/-- `T` has a version of node `n` that is no tombstone. -/
def GraphDb.alive (s : GraphDb) (T n : Nat) : Bool :=
  match (nodeTable.record s n).getDirtyVersion T with
  | some dn => dn.elem.cts = INF
  | none => false

theorem GraphDb.alive_iff {n : Nat} : s.alive T n = true ↔
    ∃ dn, (nodeTable.record s n).getDirtyVersion T = some dn ∧ dn.elem.cts = INF := by
  rw [GraphDb.alive]
  cases (nodeTable.record s n).getDirtyVersion T with
  | none => simp
  | some dn => simp

/-- `T` has written both nodes of every relationship that it has inserted,
and has not deleted them. -/
def GraphDb.Attached (s : GraphDb) (T : Nat) : Prop :=
  ∀ rid ∈ (s.txs T).dirtyRships, (rshipTable.record s rid).updatedInVersion T = false →
    s.alive T (rshipTable.record s rid).obj.data.srcNode = true ∧
      s.alive T (rshipTable.record s rid).obj.data.destNode = true

instance : Decidable (s.Attached T) :=
  inferInstanceAs (Decidable (∀ rid ∈ (s.txs T).dirtyRships, _))

/-- A version that a commit publishes: it joins what the one before joined,
or the relationship is new. -/
theorem Outcome.rship {A : Nat → Prop} {stored : Nat → Except Err (List PItem)}
    {H : Hist (Nat × Nat × Nat × Nat)} {r : Record RshipData}
    {c : Content (Nat × Nat × Nat × Nat)} (h : RecInv rshipScheme A top stored H r)
    (ho : Outcome rshipImg Z r (some c)) :
    ∃ dn, Front Z dn r ∧ dn.elem.cts = INF ∧ endsOf c = r.obj.data.ends ∧
      (dn.updateMode = false ∨ ∃ t c₀ H', H = (t, some c₀) :: H' ∧ t < Z ∧
        endsOf c₀ = endsOf c) := by
  obtain ⟨dn, hf, hdead, hlive⟩ := ho
  have hcts : dn.elem.cts = INF := Classical.byContradiction fun hne => by cases hdead hne
  obtain ⟨items, _, hc⟩ := hlive hcts
  have hends : endsOf c = r.obj.data.ends := by
    obtain rfl := Option.some.inj hc
    simp only [rshipImg, commitImg]
    split <;> rfl
  refine ⟨dn, hf, hcts, hends, ?_⟩
  rcases h.front_cases hf with hp | ⟨own, rest, is, H', hl⟩
  · exact .inl hp.insert
  · right
    have hlock := (hl.lock (by rw [hf.locked]; exact hf.ne_zero)).1
    rw [hf.locked] at hlock
    exact ⟨_, _, H', hl.head, hlock, hends.symm⟩

/-- The log after the end of `Z`: the records that it has written have a new
version, or nothing was committed. -/
structure Grown (Z : Nat) (s : GraphDb) (L L' : Log) : Prop where
  nodes : ∀ id, L'.nodes id = L.nodes id ∨ ∃ c, L'.nodes id = (Z, c) :: L.nodes id ∧
    Outcome nodeImg Z (nodeTable.record s id) c
  rships : ∀ id, L'.rships id = L.rships id ∨ ∃ c, L'.rships id = (Z, c) :: L.rships id ∧
    id ∈ (s.txs Z).dirtyRships ∧ Outcome rshipImg Z (rshipTable.record s id) c

theorem Grown.refl (Z : Nat) (s : GraphDb) (L : Log) : Grown Z s L L :=
  ⟨fun _ => .inl rfl, fun _ => .inl rfl⟩

theorem Extended.grown (h : Extended Z s L L') : Grown Z s L L' := by
  refine ⟨fun id => ?_, fun id => ?_⟩
  · by_cases hid : id ∈ (s.txs Z).dirtyNodes
    · exact .inr (h.nodes id hid)
    · exact .inl (h.otherNodes id hid)
  · by_cases hid : id ∈ (s.txs Z).dirtyRships
    · obtain ⟨c, hc, ho⟩ := h.rships id hid
      exact .inr ⟨c, hc, hid, ho⟩
    · exact .inl (h.otherRships id hid)

theorem Front.updatedInVersion {α : Type} {r : Record α} {dn : DirtyObject α}
    (h : Front Z dn r) : r.updatedInVersion Z = dn.updateMode := by
  rw [Record.updatedInVersion, h.getDirtyVersion]

/-- A relationship that `Z` inserts and commits has its nodes written by
`Z`. -/
theorem GraphDb.Attached.alive {rid n : Nat} {dn : DirtyObject RshipData}
    (h : s.Attached Z) (hid : rid ∈ (s.txs Z).dirtyRships)
    (hf : Front Z dn (rshipTable.record s rid)) (hins : dn.updateMode = false)
    (hn : Touches (rshipTable.record s rid).obj.data.ends n) : s.alive Z n = true := by
  obtain ⟨h1, h2⟩ := h rid hid (by rw [hf.updatedInVersion, hins])
  rcases hn with hn | hn
  · exact hn ▸ h1
  · exact hn ▸ h2

/-- Two transactions do not work on one node. -/
theorem GraphDb.Inv.one_owner {n : Nat} (hi : s.Inv top L) (hT : Active top s T)
    (hZ : Active top s Z) (hown : (nodeTable.record s n).getDirtyVersion T ≠ none)
    (hown' : (nodeTable.record s n).getDirtyVersion Z ≠ none) : T = Z := by
  obtain ⟨d, hd⟩ := Option.ne_none_iff_exists'.mp hown
  obtain ⟨d', hd'⟩ := Option.ne_none_iff_exists'.mp hown'
  have hrec := (hi.nodes.slots n).record
  have h1 := ((hrec.own_iff_front hT.mem hT.ne_zero).mp hd).locked
  have h2 := ((hrec.own_iff_front hZ.mem hZ.ne_zero).mp hd').locked
  exact h1.symm.trans h2

/-- The others see no new relationship of a node that they have deleted. -/
theorem Tidy.exit (ht : Tidy T L s) (hi : s.Inv top L) (hZ : Active top s Z)
    (hT : Active top s T) (hne : T ≠ Z) (he : Exit Z top L L' s s') (hg : Grown Z s L L')
    (ha : s.Attached Z ∨ L' = L) : Tidy T L' s' := by
  have hT' : T ∈ s'.activeTx := (he.activeTx T).mpr ⟨hT.mem, hne⟩
  have hnode : ∀ n, (nodeTable.record s' n).getDirtyVersion T =
      (nodeTable.record s n).getDirtyVersion T := fun n =>
    hi.nodes.own_eq he.inv.nodes (he.nodes n).toEvolve hT' hT.mem hT' hT.ne_zero hne
      (he.dirty T).1
  have hrship : ∀ rid, (rshipTable.record s' rid).getDirtyVersion T =
      (rshipTable.record s rid).getDirtyVersion T := fun rid =>
    hi.rships.own_eq he.inv.rships (he.rships rid).toEvolve hT' hT.mem hT' hT.ne_zero hne
      (he.dirty T).2
  refine ⟨fun n hb rid e ⟨c, hc, hce⟩ htouch => ?_, fun rid e n hadd htouch => ?_,
    fun rid dn hdn hcts hup => ?_⟩
  · rw [Buried, hnode] at hb
    subst hce
    have hold : ∀ c', Visible rshipScheme T (L.rships rid) (rshipTable.record s rid) c' →
        endsOf c' = endsOf c → False := fun c' hv heq =>
      ht.buried n hb rid _ ⟨c', hv, heq⟩ htouch
    have hc := hc.congr (r := rshipTable.record s rid) (hrship rid)
    cases hc with
    | own latest live content => exact hold c (.own latest live content) rfl
    | @committed t nothing latest =>
        rcases hg.rships rid with heq | ⟨c', heq, hid, hout⟩
        · rw [heq] at latest
          exact hold c (.committed nothing latest) rfl
        · have hsort := (he.inv.rships.slots rid).record.sorted
          rw [heq] at latest hsort
          by_cases hlt : T < Z
          · exact hold c (.committed nothing ((latest_cons_iff hlt).mp latest)) rfl
          · have hhead := latest.unique hsort (latest_head hsort (show Z ≤ T by omega))
            cases hhead
            have hrec := (hi.rships.slots rid).record
            obtain ⟨dn, hf, hcts, hends, hins | ⟨t₀, c₀, H, h1, h2, h3⟩⟩ :=
              Outcome.rship hrec hout
            · rcases ha with ha | hL
              · rw [hends] at htouch
                obtain ⟨d, hd, _⟩ := GraphDb.alive_iff.mp (ha.alive hid hf hins htouch)
                obtain ⟨d', hd', _⟩ := hb
                exact hne (hi.one_owner hT hZ (by rw [hd']; exact Option.some_ne_none _)
                  (by rw [hd]; exact Option.some_ne_none _))
              · rw [hL] at heq
                exact (List.ne_cons_self heq).elim
            · refine hold c₀ (.committed nothing (t := t₀) ?_) h3
              have hsort' := hrec.sorted
              rw [h1] at hsort' ⊢
              exact latest_head hsort' (show t₀ ≤ T by omega)
  · rw [Added, hrship] at hadd
    rcases ht.added rid e n hadd htouch with hown | ⟨e', hseen⟩
    · left
      rw [hnode]
      exact hown
    · exact .inr ⟨e', (he.nodes n).toEvolve.seen T e' hT' hseen⟩
  · rw [hrship] at hdn
    obtain ⟨t, c, H, h1, h2, h3⟩ := ht.sameEnds rid dn hdn hcts hup
    refine ⟨t, c, H, ?_, h2, h3⟩
    rcases hg.rships rid with heq | ⟨c', _, _, dz, hz, _⟩
    · rw [heq]
      exact h1
    · have hf := ((hi.rships.slots rid).record.own_iff_front hT.mem hT.ne_zero).mp hdn
      exact absurd (hf.locked.symm.trans hz.locked) hne

/-- What `Z` has deleted nobody sees after its commit. -/
theorem Tidy.not_latest {rid n x t : Nat} {c : Content (Nat × Nat × Nat × Nat)}
    (ht : Tidy Z L s) (hj : L.Joined) (hi : s.Inv top L) (hb : Buried Z s n)
    (hnew : ∀ e ∈ L.nodes n, e.1 < Z)
    (hown : (rshipTable.record s rid).getDirtyVersion Z = none) (hx : Z ≤ x)
    (hl : Latest (L.rships rid) x (t, some c)) : ¬ Touches (endsOf c) n := by
  intro htouch
  have hrec := (hi.rships.slots rid).record
  obtain ⟨v, c₀, hroot, hends, _, hall⟩ := (hj.born rid).since hrec.sorted hl
  -- the relationship began before `Z` wrote the node, so `Z` sees it
  obtain ⟨cn, hcn⟩ := hroot n (hends ▸ htouch)
  have hv := hnew _ hcn
  obtain ⟨t', c', hl', hends'⟩ := hall Z (Nat.le_of_lt hv) hx
  exact ht.buried n hb rid _ ⟨c', .committed hown hl', rfl⟩ (hends' ▸ htouch)

/-- What the log says after the commit of `Z` about a node that `Z` has
written. -/
theorem Extended.node {n : Nat} {dn : DirtyObject NodeData} (h : Extended Z s L L')
    (hi : s.Inv top L) (hZ : Active top s Z)
    (hown : (nodeTable.record s n).getDirtyVersion Z = some dn) :
    ∃ c, L'.nodes n = (Z, c) :: L.nodes n ∧ (dn.elem.cts = INF → c ≠ none) := by
  have hs := hi.nodes.slots n
  have hf := (hs.record.own_iff_front hZ.mem hZ.ne_zero).mp hown
  have hid : n ∈ (s.txs Z).dirtyNodes :=
    List.count_pos_iff.mp (Nat.pos_of_ne_zero ((hs.dirty Z hZ.mem).front.mpr ⟨dn, hf⟩))
  obtain ⟨c, hc, d, hd, _, hlive⟩ := h.nodes n hid
  cases hf.unique hd
  refine ⟨c, hc, fun hcts hnone => ?_⟩
  obtain ⟨items, _, hsome⟩ := hlive hcts
  rw [hnone] at hsome
  cases hsome

/-- A node that `Z` has written and not deleted is there after the commit. -/
theorem Extended.alive {n x : Nat} (h : Extended Z s L L') (hi : s.Inv top L)
    (hZ : Active top s Z) (hs : Sorted (L'.nodes n)) (ha : s.alive Z n = true)
    (hx : Z ≤ x) : ∃ c, Latest (L'.nodes n) x (Z, some c) := by
  obtain ⟨dn, hown, hcts⟩ := GraphDb.alive_iff.mp ha
  obtain ⟨c, hc, hne⟩ := h.node hi hZ hown
  cases hcc : c with
  | none => exact absurd hcc (hne hcts)
  | some c' =>
      rw [hc, hcc] at hs ⊢
      exact ⟨c', latest_head hs hx⟩

/-- A relationship that is there at `x ≥ Z` after the commit of `Z` was there
before, and `Z` has deleted none of its nodes; or it is new, and `Z` has
written its nodes. -/
theorem Tidy.latest_commit {rid n x t : Nat} {c : Content (Nat × Nat × Nat × Nat)}
    (ht : Tidy Z L s) (hj : L.Joined) (hi : s.Inv top L) (hZ : Active top s Z)
    (he : Exit Z top L L' s s') (hext : Extended Z s L L') (ha : s.Attached Z) (hx : Z ≤ x)
    (hl : Latest (L'.rships rid) x (t, some c)) (htouch : Touches (endsOf c) n) :
    s.alive Z n = true ∨ (∃ t₀ c₀, Latest (L.rships rid) x (t₀, some c₀) ∧
      endsOf c₀ = endsOf c ∧ (Buried Z s n → ∃ e ∈ L.nodes n, Z ≤ e.1)) := by
  have hrs := hi.rships.slots rid
  by_cases hid : rid ∈ (s.txs Z).dirtyRships
  · obtain ⟨c', heq, hout⟩ := hext.rships rid hid
    have hsort := (he.inv.rships.slots rid).record.sorted
    rw [heq] at hl hsort
    have hhead := hl.unique hsort (latest_head hsort hx)
    cases hhead
    obtain ⟨dn, hf, hcts, hends, hins | ⟨t₀, c₀, H, h1, h2, h3⟩⟩ :=
      Outcome.rship hrs.record hout
    · exact .inl (ha.alive hid hf hins (hends ▸ htouch))
    · right
      have hsort' := hrs.record.sorted
      refine ⟨t₀, c₀, ?_, h3, fun hb => ?_⟩
      · rw [h1] at hsort' ⊢
        exact latest_head hsort' (show t₀ ≤ x by omega)
      · -- `Z` has updated the relationship, and sees it
        exfalso
        have hup : dn.updateMode = true := by
          rcases hrs.record.front_cases hf with hp | ⟨own, rest, is, H', hlv⟩
          · have hend := hp.ended _ (by rw [h1]; rfl)
            cases hend
          · cases hlv.owned with
            | updated hn => exact hn.update
            | deleted hd => exact hd.update
            | updatedDeleted hd _ => exact hd.update
        obtain ⟨t₁, c₁, H₁, h4, _, h5⟩ := ht.sameEnds rid dn hf.getDirtyVersion hcts hup
        rw [h1] at h4
        cases h4
        refine ht.buried n hb rid _ ⟨_, .own hf.getDirtyVersion hcts rfl, rfl⟩ ?_
        show Touches dn.elem.data.ends n
        rw [← h5, h3]
        exact htouch
  · rw [hext.otherRships rid hid] at hl
    have hown : (rshipTable.record s rid).getDirtyVersion Z = none := by
      refine (hrs.record.own_none_iff hZ.mem hZ.ne_zero).mpr fun dn hf => hid ?_
      exact List.count_pos_iff.mp
        (Nat.pos_of_ne_zero ((hrs.dirty Z hZ.mem).front.mpr ⟨dn, hf⟩))
    refine .inr ⟨t, c, hl, rfl, fun hb => Classical.byContradiction fun hno => ?_⟩
    refine ht.not_latest hj hi hb (fun e hin => ?_) hown hx hl htouch
    exact Nat.lt_of_not_le fun hle => hno ⟨e, hin, hle⟩

/-- The commit of a transaction whose relationships are attached. -/
theorem Log.Joined.commit (hj : L.Joined) (ht : Tidy Z L s) (hi : s.Inv top L)
    (hZ : Active top s Z) (he : Exit Z top L L' s s') (hext : Extended Z s L L')
    (ha : s.Attached Z) : L'.Joined := by
  have hg := hext.grown
  refine ⟨fun x rid t c n hl htouch => ?_, fun rid => ?_⟩
  · have hsort := (he.inv.nodes.slots n).record.sorted
    by_cases hx : x < Z
    · have hl' : Latest (L.rships rid) x (t, some c) := by
        rcases hg.rships rid with heq | ⟨c', heq, _⟩
        · exact heq ▸ hl
        · rw [heq] at hl
          exact (latest_cons_iff hx).mp hl
      obtain ⟨t', c', hn⟩ := hj.nodes x rid t c n hl' htouch
      refine ⟨t', c', ?_⟩
      rcases hg.nodes n with heq | ⟨cn, heq, _⟩
      · exact heq ▸ hn
      · rw [heq]
        exact (latest_cons_iff hx).mpr hn
    · have hx' : Z ≤ x := by omega
      rcases ht.latest_commit hj hi hZ he hext ha hx' hl htouch with
        halive | ⟨t₀, c₀, hl₀, hends, hbury⟩
      · obtain ⟨c', hc'⟩ := hext.alive hi hZ hsort halive hx'
        exact ⟨Z, c', hc'⟩
      · obtain ⟨t', c', hn⟩ := hj.nodes x rid t₀ c₀ n hl₀ (hends ▸ htouch)
        rcases hg.nodes n with heq | ⟨cn, heq, dn, hf, hdead, hlive⟩
        · exact ⟨t', c', heq ▸ hn⟩
        · rw [heq] at hsort ⊢
          by_cases hcts : dn.elem.cts = INF
          · obtain ⟨items, _, hcn⟩ := hlive hcts
            rw [hcn] at hsort ⊢
            exact ⟨Z, _, latest_head hsort hx'⟩
          · obtain ⟨e, hin, hle⟩ := hbury ⟨dn, hf.getDirtyVersion, hcts⟩
            have hlt := hsort.lt_head e hin
            exact absurd hle (Nat.not_le_of_lt hlt)
  · have hgrow : ∀ t c, (∀ n, Touches (endsOf c) n → L.HasVersion t n) →
        ∀ n, Touches (endsOf c) n → L'.HasVersion t n := by
      intro t c hroot n hn
      obtain ⟨cn, hcn⟩ := hroot n hn
      rcases hg.nodes n with heq | ⟨c', heq, _⟩
      · exact ⟨cn, heq ▸ hcn⟩
      · exact ⟨cn, heq ▸ List.mem_cons_of_mem _ hcn⟩
    have hold := (hj.born rid).mono hgrow
    rcases hg.rships rid with heq | ⟨c, heq, hid, hout⟩
    · rw [heq]
      exact hold
    · rw [heq]
      cases c with
      | none => exact hold
      | some c =>
          refine ⟨?_, hold⟩
          obtain ⟨dn, hf, _, hends, hins | ⟨t₀, c₀, H, h1, _, h3⟩⟩ :=
            Outcome.rship (hi.rships.slots rid).record hout
          · refine .inl fun n hn => ?_
            obtain ⟨d, hd, _⟩ := GraphDb.alive_iff.mp (ha.alive hid hf hins (hends ▸ hn))
            obtain ⟨cn, hcn, _⟩ := hext.node hi hZ hd
            exact ⟨cn, hcn ▸ List.mem_cons_self ..⟩
          · exact .inr ⟨t₀, c₀, H, h1, h3⟩

/-! ## The lists of a node -/

/-- The relationship that follows `i` on a list, if `i` is in use. -/
def GraphDb.nextRship (s : GraphDb) (next : RshipData → Nat) (i : Nat) : Option Nat :=
  if (rshipTable.record s i).used then some (next (rshipTable.record s i).obj.data) else none

section Lists

variable {next : RshipData → Nat} {i j : Nat} {l : List Nat}

theorem GraphDb.get_of_nextRship (h : s.nextRship next i = some j) :
    s.rships.get i = .ok (rshipTable.record s i) ∧
      next (rshipTable.record s i).obj.data = j := by
  simp only [GraphDb.nextRship] at h
  split at h
  · next hu =>
    refine ⟨?_, Option.some.inj h⟩
    rw [Vec.get]
    exact if_pos hu
  · cases h

/-- The walk of `delete_node` along a list that ends. -/
theorem hasValidRships_path (hp : LinkPath (s.nextRship next) UNKNOWN i l) :
    ∀ fuel, l.length ≤ fuel → (∃ b, hasValidRships s T next fuel i = .ok b) ∧
      ∀ l₁ x l₂, l = l₁ ++ x :: l₂ →
        (∀ y ∈ l₁, (rshipTable.record s y).obj.isLockedBy T = true) →
        rshipVisible (rshipTable.record s x) T = true →
        hasValidRships s T next fuel i = .ok true := by
  induction hp with
  | nil =>
      intro fuel _
      refine ⟨⟨false, ?_⟩, fun l₁ x l₂ hl => ?_⟩
      · cases fuel with
        | zero => rfl
        | succ fuel => rfl
      · cases l₁ <;> cases hl
  | @cons i j l hi hn hp ih =>
      intro fuel hfuel
      obtain ⟨hget, rfl⟩ := GraphDb.get_of_nextRship hn
      obtain ⟨fuel, rfl⟩ : ∃ f, fuel = f + 1 := ⟨fuel - 1, by simp at hfuel; omega⟩
      obtain ⟨⟨b, hb⟩, hfound⟩ := ih fuel (by simpa using hfuel)
      simp only [hasValidRships, if_neg hi, hget]
      cases hlock : (rshipTable.record s i).obj.isLockedBy T with
      | false =>
          refine ⟨⟨_, if_neg (by simp)⟩, fun l₁ x l₂ hl hall hx => ?_⟩
          cases l₁ with
          | nil =>
              cases hl
              rw [rshipVisible, hlock] at hx
              rw [if_neg (by simp)]
              exact congrArg Except.ok hx
          | cons y l₁ =>
              cases hl
              rw [hall i (List.mem_cons_self ..)] at hlock
              cases hlock
      | true =>
          simp only [if_true]
          cases hv : (rshipTable.record s i).hasValidVersion T with
          | true => exact ⟨⟨true, rfl⟩, fun _ _ _ _ _ _ => rfl⟩
          | false =>
              refine ⟨⟨b, hb⟩, fun l₁ x l₂ hl hall hx => ?_⟩
              cases l₁ with
              | nil =>
                  cases hl
                  rw [rshipVisible, hlock, hv] at hx
                  cases hx
              | cons y l₁ =>
                  cases hl
                  exact hfound l₁ x l₂ rfl (fun y hy => hall y (List.mem_cons_of_mem _ hy)) hx

/-- The walk of `detach_delete_node`. -/
theorem collectRships_path (hp : LinkPath (s.nextRship next) UNKNOWN i l) :
    ∀ fuel, l.length ≤ fuel → collectRships s T next fuel i =
      .ok (l.filter fun x => rshipVisible (rshipTable.record s x) T) := by
  induction hp with
  | nil =>
      intro fuel _
      cases fuel with
      | zero => rfl
      | succ fuel => rfl
  | @cons i j l hi hn hp ih =>
      intro fuel hfuel
      obtain ⟨hget, rfl⟩ := GraphDb.get_of_nextRship hn
      obtain ⟨fuel, rfl⟩ : ∃ f, fuel = f + 1 := ⟨fuel - 1, by simp at hfuel; omega⟩
      simp only [collectRships, if_neg hi, hget, ih fuel (by simpa using hfuel),
        List.filter_cons]
      split <;> rfl

/-- Such a list is not longer than the table. -/
theorem GraphDb.Sound.length_le (hs : s.Sound) (hp : LinkPath (s.nextRship next) UNKNOWN i l) :
    l.length ≤ s.rships.size + 1 := by
  refine Nat.le_succ_of_le (hp.length_le fun a ha => hs.rships.lt_size a ?_)
  have hn := hp.next_isSome a ha
  simp only [GraphDb.nextRship] at hn
  split at hn
  · next hu => exact hu
  · cases hn

end Lists

end States

end Poseidon
