import Poseidon.Lib.Along
import Poseidon.Proofs.Archive
import Poseidon.Proofs.Intervals
import Poseidon.Proofs.PropertyGrowth

/-!
# How long the chains of delta records get

An anchor is made where the count of a logical id is a multiple of an interval
that depends on the count. All intervals divide 1024, so every multiple of
1024 makes an anchor, also after the counter has wrapped around, and a chain
is never longer than the count since the last multiple. The count is shared by
a node and a relationship with the same logical id: then a count that would
make an anchor can go to the other one every time.
-/

namespace Poseidon.Temporal

open Wp

/-! ## Chains -/

section Tables

variable {ε δ γ : Type}

/-- From history record `h` an anchor is reached behind the records with the
delta lists `chain`. -/
inductive Side.Chain (sd : Side ε δ γ) : Nat → List Nat → Nat → Prop where
  | anchor {h : Nat} {d : HistoryDelta δ} : h ≠ UNKNOWN → isHistoryId h = true →
      sd.getDelta h = .ok d → (d.deltaPid = 0 ∨ d.deltaPid = UNKNOWN) →
      Chain sd h [] d.basePropertyList
  | delta {h base : Nat} {chain : List Nat} {d : HistoryDelta δ} : h ≠ UNKNOWN →
      isHistoryId h = true → sd.getDelta h = .ok d → d.deltaPid ≠ 0 → d.deltaPid ≠ UNKNOWN →
      Chain sd d.prevVersion chain base → Chain sd h (d.deltaPid :: chain) base

theorem isHistoryId_ne_unknown_of_lt {i : Nat} (h : i < 2 ^ 56) :
    isHistoryId (encodeHistoryId i) = true ∧ decodeHistoryId (encodeHistoryId i) = i ∧
      encodeHistoryId i ≠ UNKNOWN := by
  simp only [isHistoryId, encodeHistoryId, decodeHistoryId, UNKNOWN, beq_iff_eq]
  omega

/-- The walk of `resolve_*_overlay` along a chain. -/
theorem Side.Chain.walk {sd : Side ε δ γ} {h base : Nat} {chain : List Nat}
    (hc : sd.Chain h chain base) {fuel : Nat} (hfuel : chain.length < fuel) :
    sd.overlayWalk fuel h = (sd.props.allProperties base).map fun m => (m, chain) := by
  induction hc generalizing fuel with
  | anchor hne hh hd hpid =>
      obtain ⟨fuel, rfl⟩ : ∃ k, fuel = k + 1 := ⟨fuel - 1, by omega⟩
      have hstop : ¬(_ = UNKNOWN ∨ ¬isHistoryId _ = true) :=
        fun h => h.elim hne fun hn => hn hh
      rw [overlayWalk, if_neg hstop, hd]
      exact if_neg fun h => hpid.elim h.1 h.2
  | @delta h base chain d hne hh hd h0 hu _ ih =>
      obtain ⟨fuel, rfl⟩ : ∃ k, fuel = k + 1 := ⟨fuel - 1, by omega⟩
      have hstop : ¬(h = UNKNOWN ∨ ¬isHistoryId h = true) := fun h => h.elim hne fun hn => hn hh
      rw [overlayWalk, if_neg hstop, hd]
      simp only [h0, hu, ne_eq, not_false_eq_true, and_self, if_true]
      rw [ih (by rw [List.length_cons] at hfuel; omega)]
      cases sd.props.allProperties base <;> rfl

theorem Side.Chain.unique {sd : Side ε δ γ} {h base base' : Nat} {chain chain' : List Nat}
    (hc : sd.Chain h chain base) (hc' : sd.Chain h chain' base') : chain = chain' := by
  induction hc generalizing chain' with
  | anchor _ _ hd hpid =>
      cases hc' with
      | anchor => rfl
      | delta _ _ hd' h0 hu _ =>
          obtain rfl := Except.ok.inj (hd.symm.trans hd')
          exact absurd hpid (not_or.mpr ⟨h0, hu⟩)
  | delta _ _ hd h0 hu _ ih =>
      cases hc' with
      | anchor _ _ hd' hpid =>
          obtain rfl := Except.ok.inj (hd.symm.trans hd')
          exact absurd hpid (not_or.mpr ⟨h0, hu⟩)
      | delta _ _ hd' _ _ hc' =>
          obtain rfl := Except.ok.inj (hd.symm.trans hd')
          rw [ih hc']

/-- A chain stays what it is when records are appended. -/
theorem Side.Chain.append {sd sd' : Side ε δ γ} {h base : Nat} {chain : List Nat}
    (hc : sd.Chain h chain base) (hpre : sd.deltas <+: sd'.deltas) : sd'.Chain h chain base := by
  have hget : ∀ {h d}, sd.getDelta h = .ok d → sd'.getDelta h = .ok d := by
    intro h d hd
    obtain ⟨new, hnew⟩ := hpre
    unfold Side.getDelta at hd ⊢
    cases hx : sd.deltas[decodeHistoryId h]? with
    | none => rw [hx] at hd; cases hd
    | some d' =>
        rw [hx] at hd
        rw [← hnew, List.getElem?_append_left (List.getElem?_eq_some_iff.mp hx).1, hx]
        exact hd
  induction hc with
  | anchor hne hh hd hpid => exact .anchor hne hh (hget hd) hpid
  | delta hne hh hd h0 hu _ ih => exact .delta hne hh (hget hd) h0 hu ih

/-- All chains of a side are short, and that of the last record of a logical id
is not longer than the count since the last multiple of 1024, as long as there
is room for another record. -/
structure Table.Short (t : Table ε δ γ) (s : GraphDb) : Prop where
  length : (t.side s).deltas.length ≤ 2 ^ 56
  record : ∀ i, i < (t.side s).deltas.length → ∃ chain base, chain.length ≤ i ∧
    chain.length < 1024 ∧ (t.side s).Chain (encodeHistoryId i) chain base
  last : (t.side s).deltas.length < 2 ^ 56 → ∀ lid h, (t.side s).lastDelta lid = some h →
    ∃ i chain base, i < (t.side s).deltas.length ∧ (∃ d ∈ (t.side s).deltas, d.lid = lid) ∧
      chain.length ≤ i ∧ chain.length ≤ s.updateCounts lid % 1024 ∧ (t.side s).Chain h chain base

variable {t : Table ε δ γ} {s s' : GraphDb} {a : ArchiveArgs δ γ}

/-- The same records, and counts that are not smaller since the last multiple
of 1024. -/
theorem Table.Short.of_counts (h : t.Short s) (hd : (t.side s').deltas = (t.side s).deltas)
    (hl : (t.side s').lastDelta = (t.side s).lastDelta)
    (hc : (t.side s).deltas.length < 2 ^ 56 → ∀ lid, (∃ d ∈ (t.side s).deltas, d.lid = lid) →
      ((t.side s).lastDelta lid).isSome →
      s.updateCounts lid % 1024 ≤ s'.updateCounts lid % 1024) : t.Short s' := by
  have hpre : (t.side s).deltas <+: (t.side s').deltas := ⟨[], by rw [List.append_nil, hd]⟩
  refine ⟨hd ▸ h.length, fun i hi => ?_, fun hlen lid hid hlast => ?_⟩
  · obtain ⟨chain, base, hle, hshort, hchain⟩ := h.record i (hd ▸ hi)
    exact ⟨chain, base, hle, hshort, hchain.append hpre⟩
  · rw [hd] at hlen ⊢
    rw [hl] at hlast
    obtain ⟨i, chain, base, hi, hmem, hle, hcount, hchain⟩ := h.last hlen lid hid hlast
    have hmono := hc hlen lid hmem (by rw [hlast]; rfl)
    exact ⟨i, chain, base, hi, hmem, hle, Nat.le_trans hcount hmono, hchain.append hpre⟩

/-- The record of a logical id can be read. -/
theorem Table.Short.getDelta (h : t.Short s) (hlen : (t.side s).deltas.length < 2 ^ 56)
    {lid hid : Nat} (hlast : (t.side s).lastDelta lid = some hid) :
    ∃ d, (t.side s).getDelta hid = .ok d := by
  obtain ⟨-, chain, base, -, -, -, -, hchain⟩ := h.last hlen lid hid hlast
  cases hchain with
  | anchor _ _ hd _ => exact ⟨_, hd⟩
  | delta _ _ hd _ _ _ => exact ⟨_, hd⟩

variable [t.Laws] {p : PropertyList} {base delta : Nat}

/-- The record that an archival appends. -/
theorem getDelta_archived (hlen : (t.side s).deltas.length < 2 ^ 56) :
    (t.side (t.archived a p base delta s)).getDelta (encodeHistoryId (t.side s).deltas.length) =
      .ok (a.record base delta (((t.side s).lastDelta a.lid).getD UNKNOWN)) := by
  obtain ⟨cp, hside⟩ := side_archived t a p base delta s
  rw [hside, Side.getDelta, (isHistoryId_ne_unknown_of_lt hlen).2.1]
  simp only [List.getElem?_concat_length]

theorem prefix_archived :
    (t.side s).deltas <+: (t.side (t.archived a p base delta s)).deltas := by
  obtain ⟨cp, hside⟩ := side_archived t a p base delta s
  rw [hside]
  exact List.prefix_append ..

/-- The chain of the record that an archival appends. -/
theorem Table.Short.newChain (h : t.Short s) (hlen : (t.side s).deltas.length < 2 ^ 56)
    (hd : t.MakesAnchor a s → delta = 0) :
    ∃ chain base', chain.length ≤ (t.side s).deltas.length ∧
      chain.length ≤ (s.updateCounts a.lid + 1) % 1024 ∧
      (t.side (t.archived a p base delta s)).Chain
        (encodeHistoryId (t.side s).deltas.length) chain base' := by
  obtain ⟨hhist, -, hne⟩ := isHistoryId_ne_unknown_of_lt hlen
  have hget := @getDelta_archived _ _ _ t s a _ p base delta hlen
  by_cases hpid : delta = 0 ∨ delta = UNKNOWN
  · exact ⟨[], base, Nat.zero_le _, Nat.zero_le _, .anchor hne hhist hget hpid⟩
  · have hno : ¬t.MakesAnchor a s := fun hm => hpid (.inl (hd hm))
    obtain ⟨hint, hprev⟩ := not_or.mp hno
    cases hlast : (t.side s).lastDelta a.lid with
    | none => exact absurd (by rw [hlast]; rfl) hprev
    | some prev =>
        obtain ⟨i, chain, base', hi, -, hle, hcount, hchain⟩ := h.last hlen a.lid prev hlast
        rw [hlast] at hget
        refine ⟨delta :: chain, base', ?_, ?_, ?_⟩
        · rw [List.length_cons]
          omega
        · -- the count does not pass a multiple of 1024 without an anchor
          have hmod : (s.updateCounts a.lid + 1) % 1024 ≠ 0 := by
            intro hzero
            exact hint (atInterval_of_dvd (by omega))
          rw [List.length_cons]
          omega
        · exact .delta hne hhist hget (fun h0 => hpid (.inl h0)) (fun hu => hpid (.inr hu))
            (hchain.append prefix_archived)

theorem Table.Short.archived (h : t.Short s) (hlen : (t.side s).deltas.length < 2 ^ 56)
    (hd : t.MakesAnchor a s → delta = 0) : t.Short (t.archived a p base delta s) := by
  obtain ⟨chain, base', hle, hcount, hchain⟩ := @h.newChain _ _ _ _ _ _ _ p base _ hlen hd
  obtain ⟨cp, hside⟩ := side_archived t a p base delta s
  have hpre := @prefix_archived _ _ _ t s a _ p base delta
  have hlen' : (t.side (t.archived a p base delta s)).deltas.length =
      (t.side s).deltas.length + 1 := by
    rw [hside]
    exact List.length_append
  refine ⟨by omega, fun i hi => ?_, fun _ lid hid hlast => ?_⟩
  · rcases Nat.lt_or_ge i (t.side s).deltas.length with hlt | hge
    · obtain ⟨chain, base, hle, hshort, hchain⟩ := h.record i hlt
      exact ⟨chain, base, hle, hshort, hchain.append hpre⟩
    · obtain rfl : i = (t.side s).deltas.length := by omega
      exact ⟨chain, base', hle, by omega, hchain⟩
  · rw [hside] at hlast
    simp only [] at hlast
    rw [updateCounts_archived, countUpdate]
    simp only []
    by_cases hlid : lid = a.lid
    · rw [if_pos hlid] at hlast ⊢
      cases hlast
      have hmem : a.record base delta (((t.side s).lastDelta a.lid).getD UNKNOWN) ∈
          (t.side (t.archived a p base delta s)).deltas := by
        rw [hside]
        exact List.mem_append_right _ (List.mem_singleton_self _)
      exact ⟨(t.side s).deltas.length, chain, base', by omega, ⟨_, hmem, hlid.symm⟩, hle, by omega,
        hchain⟩
    · rw [if_neg hlid] at hlast ⊢
      obtain ⟨i, chain, base, hi, ⟨d, hd, hdl⟩, hle, hcount, hchain⟩ := h.last hlen lid hid hlast
      exact ⟨i, chain, base, by omega, ⟨d, hpre.subset hd, hdl⟩, hle, hcount, hchain.append hpre⟩

/-- An archival keeps the chains of its own table short: one that fails does
not fail where a count is a multiple of 1024. -/
theorem Table.Short.archiveWith (h : t.Short s)
    (hread : (s.updateCounts a.lid + 1) % 1024 = 0 → ∃ l, a.baseItems (t.side s).props = .ok l) :
    always (t.archiveWith a) t.Short s := by
  refine wp_mono wp_archiveWith_delta ?_ ?_
  · rintro _ s' ⟨items, base, delta, hlen, -, rfl, hd⟩
    exact h.archived hlen hd.1
  · rintro e s' ⟨hs, he⟩
    have hsame : (t.side s').deltas = (t.side s).deltas ∧
        (t.side s').lastDelta = (t.side s).lastDelta ∧
        s'.updateCounts = (countUpdate a.lid s).updateCounts := by
      rcases hs with rfl | ⟨p, rfl⟩
      · simp
      · simp [Table.setProps, Table.modifySide]
    obtain ⟨hd, hl, hc⟩ := hsame
    refine h.of_counts hd hl fun hlen lid _ hsome => ?_
    rw [hc, countUpdate]
    simp only []
    split
    · next heq =>
      subst heq
      have hmod : (s.updateCounts a.lid + 1) % 1024 ≠ 0 := by
        intro hzero
        rcases he with ⟨-, hge⟩ | ⟨e, hbase⟩ | ⟨hid, e, hlast, hget⟩
        · omega
        · obtain ⟨l, hl⟩ := hread hzero
          rw [hl] at hbase
          cases hbase
        · obtain ⟨d, hd⟩ := h.getDelta hlen hlast
          rw [hd] at hget
          cases hget
      omega
    · exact Nat.le_refl _

/-- The table has `n` records, the last one of the logical id `lid`. -/
structure Table.At (t : Table ε δ γ) (lid n : Nat) (s : GraphDb) : Prop where
  length : (t.side s).deltas.length = n
  last : (t.side s).lastDelta lid = if n = 0 then none else some (encodeHistoryId (n - 1))

/-- An archival that finds what it reads. -/
theorem Table.At.archiveWith {n : Nat} (h : t.At a.lid n s) (hn : n < 2 ^ 56)
    (hbase : ∃ l, a.baseItems (t.side s).props = .ok l) :
    wp (t.archiveWith a) (fun _ s' => t.At a.lid (n + 1) s' ∧ ∃ items base delta,
        s' = t.archived a ((t.side s).props.addPitems a.owner items).2 base delta s ∧
        a.DeltaIs (t.side s).props (t.MakesAnchor a s) items delta)
      (fun _ _ => False) s := by
  refine wp_mono wp_archiveWith_delta ?_ ?_
  · rintro _ s' ⟨items, base, delta, -, -, rfl, hd⟩
    refine ⟨?_, items, base, delta, rfl, hd⟩
    obtain ⟨cp, hside⟩ := side_archived t a ((t.side s).props.addPitems a.owner items).2
      base delta s
    constructor
    · rw [hside, ← h.length]
      exact List.length_append
    · rw [hside, if_neg (by omega)]
      simp only [h.length, if_true, Nat.add_sub_cancel]
  · rintro e s' ⟨-, ⟨-, hge⟩ | ⟨e, he⟩ | ⟨hid, e, hlast, hget⟩⟩
    · rw [h.length] at hge
      omega
    · obtain ⟨l, hl⟩ := hbase
      rw [hl] at he
      cases he
    · rw [h.last] at hlast
      split at hlast
      · cases hlast
      · cases hlast
        have hlt : n - 1 < (t.side s).deltas.length := by
          rw [h.length]
          omega
        rw [Side.getDelta, (isHistoryId_ne_unknown_of_lt (by omega)).2.1,
          List.getElem?_eq_getElem hlt] at hget
        cases hget

end Tables

/-! ## Runs -/

/-- A call of one of the four archiving functions. -/
inductive ArchiveCall where
  | node (xid : Nat) (oldNode : Versioned NodeLinks) (updates : List PItem)
      (newVtStart label : Nat)
  | rship (xid : Nat) (oldR : Versioned RshipLinks) (updates : List PItem)
      (newVtStart label srcLid destLid : Nat)
  | nodeRaw (a : Archival NodeLinks)
  | rshipRaw (a : Archival RshipHistoryLinks)

namespace ArchiveCall

def exec : ArchiveCall → DbM Nat
  | .node xid oldNode updates newVtStart label =>
      archiveNodeDelta xid oldNode updates newVtStart label
  | .rship xid oldR updates newVtStart label srcLid destLid =>
      archiveRshipDelta xid oldR updates newVtStart label srcLid destLid
  | .nodeRaw a => archiveNodeDeltaRaw a
  | .rshipRaw a => archiveRshipDeltaRaw a

/-- The logical id that is archived. -/
def lid : ArchiveCall → Nat
  | .node _ oldNode .. => oldNode.logicalId
  | .rship _ oldR .. => oldR.logicalId
  | .nodeRaw a => a.lid
  | .rshipRaw a => a.lid

/-- The properties that an anchor would store. -/
def anchorItems (s : GraphDb) : ArchiveCall → Except Err (List PItem)
  | .node _ oldNode .. => s.nodes.props.buildDirtyPropertyList oldNode.propertyList
  | .rship _ oldR .. => s.rships.props.allProperties oldR.propertyList
  | .nodeRaw a => s.nodes.props.buildDirtyPropertyList a.pid
  | .rshipRaw a => s.rships.props.buildDirtyPropertyList a.pid

/-- No record of the other kind has the number. -/
def Alone (s : GraphDb) (c : ArchiveCall) : Prop :=
  match c with
  | .node .. | .nodeRaw _ => ∀ d ∈ s.rships.deltas, d.lid ≠ c.lid
  | .rship .. | .rshipRaw _ => ∀ d ∈ s.nodes.deltas, d.lid ≠ c.lid

instance decidableAlone (s : GraphDb) : ∀ c, Decidable (Alone s c)
  | .node .. | .nodeRaw _ => List.decidableBAll _ s.rships.deltas
  | .rship .. | .rshipRaw _ => List.decidableBAll _ s.nodes.deltas

/-- Where the count is a multiple of 1024, an anchor can be stored. -/
def Readable (s : GraphDb) (c : ArchiveCall) : Prop :=
  (s.updateCounts c.lid + 1) % 1024 = 0 → ∃ l, c.anchorItems s = .ok l

/-- The store after the call, also if it throws. -/
def next (s : GraphDb) (c : ArchiveCall) : GraphDb :=
  match c.exec s with
  | .ok _ s' => s'
  | .error _ s' => s'

theorem next_of_always {s : GraphDb} {c : ArchiveCall} {P : GraphDb → Prop}
    (h : always c.exec P s) : P (c.next s) := by
  rw [always, wp] at h
  rw [next]
  cases hx : c.exec s with
  | ok b s' =>
      rw [hx] at h
      exact h
  | error e s' =>
      rw [hx] at h
      exact h

end ArchiveCall

/-- A step of a run: a call, or something else that leaves the history and the
counts alone. -/
inductive HistoryStep where
  | call (c : ArchiveCall)
  | other (f : GraphDb → GraphDb) (same : ∀ s, SameHistory s (f s))
      (counts : ∀ s, (f s).updateCounts = s.updateCounts)

namespace HistoryStep

def next (s : GraphDb) : HistoryStep → GraphDb
  | .call c => c.next s
  | .other f _ _ => f s

/-- The number of an archived version is not that of a record of the other
kind, and an anchor can be stored. -/
def Alone (s : GraphDb) : HistoryStep → Prop
  | .call c => c.Readable s ∧ c.Alone s
  | .other _ _ _ => True

end HistoryStep

/-- From every record of a side `resolve_*_overlay` reaches an anchor behind
fewer than 1024 delta records. -/
def Side.Bounded {ε δ γ : Type} (sd : Side ε δ γ) : Prop :=
  ∀ i, i < sd.deltas.length → ∃ chain base, chain.length < 1024 ∧
    sd.Chain (encodeHistoryId i) chain base ∧
    sd.resolveOverlay (encodeHistoryId i) =
      (sd.props.allProperties base).bind fun m => applyDeltas sd.props m chain.reverse

theorem Table.Short.empty {ε δ γ : Type} {t : Table ε δ γ} {s : GraphDb}
    (hd : (t.side s).deltas = []) (hl : ∀ lid, (t.side s).lastDelta lid = none) : t.Short s := by
  refine ⟨by simp [hd], fun i hi => ?_, fun _ lid h hlast => ?_⟩
  · rw [hd] at hi
    exact absurd hi (Nat.not_lt_zero i)
  · rw [hl] at hlast
    cases hlast

theorem Table.Short.bounded {ε δ γ : Type} {t : Table ε δ γ} {s : GraphDb} (h : t.Short s) :
    (t.side s).Bounded := by
  intro i hi
  obtain ⟨chain, base, hle, hshort, hchain⟩ := h.record i hi
  refine ⟨chain, base, hshort, hchain, ?_⟩
  rw [Side.resolveOverlay, hchain.walk (by omega)]
  cases (t.side s).props.allProperties base <;> rfl

/-- The version that is archived: number 7, without properties. -/
def sevenNode : Versioned NodeLinks :=
  ⟨1, 7, UNKNOWN, 1, 0, 0, UNKNOWN, UNKNOWN, 0, ⟨UNKNOWN, UNKNOWN⟩⟩

def sevenRship : Versioned RshipLinks :=
  ⟨1, 7, UNKNOWN, 1, 0, 0, UNKNOWN, UNKNOWN, 0, ⟨1, 1, UNKNOWN, UNKNOWN⟩⟩

def sevenItem : PItem := ⟨1, .int, 5⟩

/-- Node 7 is archived, and then relationship 7. -/
def sevenTurn : List ArchiveCall :=
  [.node 1 sevenNode [sevenItem] 0 1, .rship 1 sevenRship [] 0 1 1 1]

/-- After `k` turns. -/
structure Turns (k : Nat) (s : GraphDb) : Prop where
  count : s.updateCounts 7 = 2 * k
  nodes : nodeTable.At 7 k s
  rships : rshipTable.At 7 k s
  bounded : s.nodes.props.Bounded
  taken : (s.nodes.props.sets 0).isSome
  chain : k ≠ 0 → ∃ chain base, chain.length = k - 1 ∧
    s.nodes.Chain (encodeHistoryId (k - 1)) chain base

/-- Between the two archivals of a turn. -/
structure HalfTurn (k : Nat) (s : GraphDb) : Prop where
  count : s.updateCounts 7 = 2 * k + 1
  nodes : nodeTable.At 7 (k + 1) s
  rships : rshipTable.At 7 k s
  bounded : s.nodes.props.Bounded
  taken : (s.nodes.props.sets 0).isSome
  chain : ∃ chain base, chain.length = k ∧ s.nodes.Chain (encodeHistoryId k) chain base

/-- Node 7 meets odd counts only, so that its version is an anchor the first
time only. -/
theorem Turns.archived {k : Nat} {s : GraphDb} (h : Turns k s) (hk : k < 2 ^ 31)
    {a : ArchiveArgs NodeLinks NodeLinks} (hlid : a.lid = 7) (hups : a.updates = [sevenItem])
    {p : PropertyList} {items : List PItem} {base delta : Nat}
    (hd : a.DeltaIs (nodeTable.side s).props (nodeTable.MakesAnchor a s) items delta) :
    ∃ chain base', chain.length = k ∧
      (nodeTable.archived a p base delta s).nodes.Chain (encodeHistoryId k) chain base' := by
  have hlast := h.nodes.last
  have hget := @getDelta_archived _ _ _ nodeTable s a _ p base delta
    (by rw [h.nodes.length]; omega)
  rw [h.nodes.length, hlid, hlast] at hget
  obtain ⟨hhist, -, hne⟩ := @isHistoryId_ne_unknown_of_lt k (by omega)
  by_cases hk0 : k = 0
  · -- the first record has none before it
    have hzero : delta = 0 := by
      refine hd.1 (.inr ?_)
      rw [hlid, hlast, if_pos hk0]
      rfl
    exact ⟨[], base, by rw [hk0]; rfl, .anchor hne hhist hget (.inl hzero)⟩
  · obtain ⟨-, -, hprevNe⟩ := @isHistoryId_ne_unknown_of_lt (k - 1) (by omega)
    have hno : ¬nodeTable.MakesAnchor a s := by
      rintro (hint | hprev)
      · rw [hlid, h.count, Nat.mod_eq_of_lt (by omega), atInterval_odd (by omega)] at hint
        cases hint
      · rw [hlid, hlast, if_neg hk0] at hprev
        exact hprevNe hprev
    obtain ⟨-, hdelta⟩ := hd.2 hno
    have hstore : delta = (s.nodes.props.store ⟨UNKNOWN, a.owner, fillItems [sevenItem]⟩).1 := by
      rw [hdelta, hups]
      rfl
    have hne0 : delta ≠ 0 := by
      intro hzero
      have hfree := PropertyList.store_free h.bounded ⟨UNKNOWN, a.owner, fillItems [sevenItem]⟩
      rw [← hstore, hzero] at hfree
      have htaken := h.taken
      rw [hfree] at htaken
      cases htaken
    have hneU : delta ≠ UNKNOWN := hstore ▸ PropertyList.store_fst_ne h.bounded _
    obtain ⟨chain, base', hlen, hchain⟩ := h.chain hk0
    rw [if_neg hk0] at hget
    refine ⟨delta :: chain, base', ?_, .delta hne hhist hget hne0 hneU ?_⟩
    · rw [List.length_cons, hlen]
      omega
    · exact hchain.append (@prefix_archived _ _ _ nodeTable s a _ p base delta)

theorem Turns.node {k : Nat} {s : GraphDb} (h : Turns k s) (hk : k < 2 ^ 31)
    {a : ArchiveArgs NodeLinks NodeLinks} (hlid : a.lid = 7) (hups : a.updates = [sevenItem])
    (hbase : ∃ l, a.baseItems (nodeTable.side s).props = .ok l) :
    always (nodeTable.archiveWith a) (HalfTurn k) s := by
  refine wp_mono ((hlid ▸ h.nodes).archiveWith (by omega) hbase) ?_ fun _ _ he => he.elim
  rintro _ s' ⟨hat, items, base, delta, rfl, hd⟩
  rw [hlid] at hat
  obtain ⟨hbd, hgr, -⟩ := @PropertyList.addPitems_grows (nodeTable.side s).props h.bounded a.owner
    items
  revert hat hbd hgr
  generalize ((nodeTable.side s).props.addPitems a.owner items).2 = p
  intro hat hbd hgr
  obtain ⟨cp, hside⟩ := side_archived nodeTable a p base delta s
  have hprops : (nodeTable.archived a p base delta s).nodes.props = p := congrArg Side.props hside
  have hrships := apart_archived nodeTable a p base delta s rshipTable
  have hcount : (countUpdate a.lid s).updateCounts 7 = 2 * k + 1 := by
    rw [countUpdate, hlid]
    simp only [if_true, h.count]
    omega
  obtain ⟨q, hq⟩ := Option.isSome_iff_exists.mp h.taken
  exact {
    count := (congrFun (updateCounts_archived nodeTable a p base delta s) 7).trans hcount
    nodes := hat
    rships := ⟨by rw [hrships, h.rships.length], by rw [hrships, h.rships.last]⟩
    bounded := by rw [hprops]; exact hbd
    taken := by rw [hprops, hgr.sets 0 q hq]; rfl
    chain := h.archived hk hlid hups hd }

/-- The relationship takes the even counts, and the nodes stay as they are. -/
theorem HalfTurn.rship {k : Nat} {s : GraphDb} (h : HalfTurn k s) (hk : k + 1 < 2 ^ 31)
    {a : ArchiveArgs RshipHistoryLinks Unit} (hlid : a.lid = 7)
    (hbase : ∃ l, a.baseItems (rshipTable.side s).props = .ok l) :
    always (rshipTable.archiveWith a) (Turns (k + 1)) s := by
  refine wp_mono ((hlid ▸ h.rships).archiveWith (by omega) hbase) ?_ fun _ _ he => he.elim
  rintro _ s' ⟨hat, items, base, delta, rfl, hd⟩
  rw [hlid] at hat
  revert hat
  generalize ((rshipTable.side s).props.addPitems a.owner items).2 = p
  intro hat
  have hnodes : (rshipTable.archived a p base delta s).nodes = s.nodes :=
    apart_archived rshipTable a p base delta s nodeTable
  have hcount : (countUpdate a.lid s).updateCounts 7 = 2 * (k + 1) := by
    rw [countUpdate, hlid]
    simp only [if_true, h.count]
    omega
  exact {
    count := (congrFun (updateCounts_archived rshipTable a p base delta s) 7).trans hcount
    nodes := ⟨(congrArg (fun sd => sd.deltas.length) hnodes).trans h.nodes.length,
      (congrArg (fun sd => sd.lastDelta 7) hnodes).trans h.nodes.last⟩
    rships := hat
    bounded := hnodes ▸ h.bounded
    taken := hnodes ▸ h.taken
    chain := fun _ => hnodes ▸ h.chain }

theorem Turns.step {k : Nat} {s : GraphDb} (h : Turns k s) (hk : k + 1 < 2 ^ 31) :
    Turns (k + 1) (sevenTurn.foldl ArchiveCall.next s) := by
  refine ArchiveCall.next_of_always (HalfTurn.rship ?_ hk rfl ?_)
  · refine ArchiveCall.next_of_always (h.node (by omega) rfl rfl ?_)
    exact (PropertyList.readable_unknown s.nodes.props).buildDirtyPropertyList
  · exact PropertyList.Readable.allProperties (PropertyList.readable_unknown _)

end Poseidon.Temporal
