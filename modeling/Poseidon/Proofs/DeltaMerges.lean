import Poseidon.Analytics.CsrDelta
import Poseidon.Lib.Along
import Poseidon.Lib.Newest

/-!
# Which records a merge uses

A merge gives every node the newest list among the records that the reader may
see and that no merge has used, and the records that it passes over for a newer
one have been used as well. The code marks the records whose list it takes. One
that is stored later than a newer one of its node is not taken, and is not
marked: when a record of a later transaction keeps the merge from clearing the
store, a later merge takes it for a new one.
-/

namespace Poseidon

namespace DeltaStore

variable {δ : Type} {s : DeltaStore δ} {rec : DeltaRec} {txid nid last : Nat} {d : Delta δ}

/-! ## Records and what they stand for -/

/-- A list of neighbours with the transaction and the node it belongs to. -/
abbrev Entry (δ : Type) := Stamped Nat (Delta δ)

/-- A record stands for an entry. -/
structure Reads (s : DeltaStore δ) (rec : DeltaRec) (e : Entry δ) : Prop where
  txid : rec.txid = e.stamp
  nodeId : rec.nodeId = e.key
  slice : s.slice rec = .ok e.value

/-- The records of the store, and the entries that no merge has used. -/
inductive Pending (s : DeltaStore δ) (last : Nat) : List DeltaRec → List (Entry δ) → Prop where
  | nil : Pending s last [] []
  | used {rec : DeltaRec} {recs : List DeltaRec} {unused : List (Entry δ)} :
      rec.merged = true → rec.txid < last → Pending s last recs unused →
      Pending s last (rec :: recs) unused
  | unused {rec : DeltaRec} {e : Entry δ} {recs : List DeltaRec} {unused : List (Entry δ)} :
      rec.merged = false → Reads s rec e → Pending s last recs unused →
      Pending s last (rec :: recs) (e :: unused)

/-- The vectors are as long as the records take them to be. -/
structure Filled (s : DeltaStore δ) : Prop where
  ids : s.ids.length = s.nextPos
  weights : s.weights.length = s.nextPos

theorem Filled.storeDelta (h : s.Filled) : (s.storeDelta txid nid d).Filled where
  ids := by rw [DeltaStore.storeDelta, List.length_append, h.ids]
  weights := by rw [DeltaStore.storeDelta, List.length_append, h.weights, d.aligned]

theorem slice_eq_ok : s.slice rec = .ok d ↔
    s.InRange rec ∧ d.ids = (s.ids.drop rec.pos).take rec.count.toNat ∧
      d.weights = (s.weights.drop rec.pos).take rec.count.toNat := by
  obtain ⟨ids, weights, aligned⟩ := d
  unfold slice
  split
  · next h =>
    simp only [Except.ok.injEq, Delta.mk.injEq, h, true_and]
    exact ⟨fun h => ⟨h.1.symm, h.2.symm⟩, fun h => ⟨h.1.symm, h.2.symm⟩⟩
  · next h => simp [h]

/-- What is in a vector stays where it is. -/
theorem slice_append {α : Type} {v w : List α} {pos n : Nat} (h : pos + n ≤ v.length) :
    ((v ++ w).drop pos).take n = (v.drop pos).take n := by
  rw [List.drop_append_of_le_length (by omega), List.take_append_of_le_length]
  rw [List.length_drop]
  omega

theorem Reads.storeDelta {e : Entry δ} (h : Reads s rec e) :
    Reads (s.storeDelta txid nid d) rec e := by
  obtain ⟨⟨hc, hi, hw⟩, hids, hws⟩ := slice_eq_ok.mp h.slice
  refine ⟨h.txid, h.nodeId, slice_eq_ok.mpr ⟨⟨hc, ?_, ?_⟩, ?_, ?_⟩⟩
  · rw [DeltaStore.storeDelta, List.length_append]
    omega
  · rw [DeltaStore.storeDelta, List.length_append]
    omega
  · rw [hids, DeltaStore.storeDelta, slice_append hi]
  · rw [hws, DeltaStore.storeDelta, slice_append hw]

theorem toInt_of_lt {n : Nat} (h : n < 2 ^ 31) : Csr.toInt n = n := by
  unfold Csr.toInt Int.bmod
  simp only []
  split
  · omega
  · omega

/-- The record of a list that is short enough. -/
theorem reads_stored (h : s.Filled) (hlen : d.ids.length < 2 ^ 31) :
    Reads (s.storeDelta txid nid d) ⟨txid, nid, s.nextPos, Csr.toInt d.ids.length, false⟩
      ⟨txid, nid, d⟩ := by
  have hws := d.aligned
  have hi := h.ids
  have hw := h.weights
  refine ⟨rfl, rfl, slice_eq_ok.mpr ?_⟩
  simp only [InRange, DeltaStore.storeDelta, toInt_of_lt hlen, Int.toNat_natCast,
    List.length_append]
  refine ⟨⟨by omega, by omega, by omega⟩, ?_, ?_⟩
  · rw [← hi, List.drop_left, List.take_length]
  · rw [← hw, List.drop_left, hws, List.take_length]

theorem Pending.storeDelta {recs : List DeltaRec} {unused : List (Entry δ)}
    (h : Pending s last recs unused) (hf : s.Filled) (hlen : d.ids.length < 2 ^ 31) :
    Pending (s.storeDelta txid nid d) last
      (recs ++ [⟨txid, nid, s.nextPos, Csr.toInt d.ids.length, false⟩])
      (unused ++ [⟨txid, nid, d⟩]) := by
  induction h with
  | nil => exact .unused rfl (reads_stored hf hlen) .nil
  | used hm ht _ ih => exact .used hm ht ih
  | unused hm hr _ ih => exact .unused hm hr.storeDelta ih

/-! ## One merge -/

open Stamped

/-- The variables of a merge after it has met the entries `done`. -/
structure Gathered (m : Merge δ) (done : List (Entry δ)) : Prop where
  txids : ∀ nid, m.nidToTxid.lookup nid = (newest done nid).map Stamped.stamp
  deltas : ∀ nid, m.deltas.lookup nid = (newest done nid).map Stamped.value

variable {m : Merge δ} {done unused : List (Entry δ)} {e : Entry δ}

/-- A record whose lists are taken. -/
theorem Gathered.take (h : Gathered m done) (hr : Reads s rec e)
    (hnew : newest (done ++ [e]) e.key = some e) :
    ∃ m', s.takeRec m rec = .ok (m', { rec with merged := true }) ∧ m'.clear = m.clear ∧
      Gathered m' (done ++ [e]) := by
  have hother : ∀ nid, nid ≠ e.key → newest (done ++ [e]) nid = newest done nid := by
    intro nid hne
    rw [newest_concat, if_neg (Ne.symm hne)]
  rw [takeRec, hr.slice]
  refine ⟨_, rfl, rfl, fun nid => ?_, fun nid => ?_⟩
  · rw [OrdMap.lookup_insert, hr.nodeId, hr.txid]
    split
    · next heq =>
      rw [heq, hnew]
      rfl
    · next hne => rw [h.txids, hother nid hne]
  · rw [OrdMap.lookup_insert, hr.nodeId]
    split
    · next heq =>
      rw [heq, hnew]
      rfl
    · next hne => rw [h.deltas, hother nid hne]

/-- A record that the reader may see and that no merge has used is taken, or
passed over for one that is not older. -/
theorem Gathered.mergeRec (h : Gathered m done) (hm : rec.merged = false) (hr : Reads s rec e)
    (hle : e.stamp ≤ txid) :
    ∃ m' rec', s.mergeRec txid m rec = .ok (m', rec') ∧ m'.clear = m.clear ∧
      Gathered m' (done ++ [e]) ∧ (rec'.merged = true ∧ rec'.txid = e.stamp ∨
        rec' = rec ∧ ∃ b, newest done e.key = some b ∧ e.stamp ≤ b.stamp) := by
  have hseen : ¬txid < rec.txid := by
    rw [hr.txid]
    omega
  have hunused : ¬(rec.txid < s.lastTxnId ∧ rec.merged = true) := fun h => by
    rw [hm] at h
    exact Bool.noConfusion h.2
  have hself : newest (done ++ [e]) e.key = newer (newest done e.key) e := by
    rw [newest_concat, if_pos rfl]
  rw [DeltaStore.mergeRec, if_neg hseen, if_neg hunused, h.txids, hr.nodeId]
  cases hb : newest done e.key with
  | none =>
      obtain ⟨m', hx, hc, hg⟩ := h.take hr (by rw [hself, hb]; rfl)
      exact ⟨m', _, hx, hc, hg, .inl ⟨rfl, hr.txid⟩⟩
  | some b =>
      simp only [Option.map_some]
      rw [hr.txid]
      split
      · next hlt =>
        obtain ⟨m', hx, hc, hg⟩ := h.take hr (by rw [hself, hb, newer, if_pos hlt])
        exact ⟨m', _, hx, hc, hg, .inl ⟨rfl, hr.txid⟩⟩
      · next hge =>
        have hsame : ∀ nid, newest (done ++ [e]) nid = newest done nid := by
          intro nid
          rw [newest_concat]
          split
          · next heq => rw [← heq, hb, newer, if_neg hge]
          · rfl
        refine ⟨m, rec, rfl, rfl, ⟨fun nid => ?_, fun nid => ?_⟩, .inr ⟨rfl, b, rfl, by omega⟩⟩
        · rw [hsame, h.txids]
        · rw [hsame, h.deltas]

/-- The entries that the reader may see. -/
def visible (unused : List (Entry δ)) (txid : Nat) : List (Entry δ) :=
  unused.filter fun e => e.stamp ≤ txid

/-- The entries that are left for later merges. -/
def later (unused : List (Entry δ)) (txid : Nat) : List (Entry δ) :=
  unused.filter fun e => txid < e.stamp

theorem visible_cons : visible (e :: unused) txid =
    if e.stamp ≤ txid then e :: visible unused txid else visible unused txid := by
  simp only [visible, List.filter_cons, decide_eq_true_eq]

theorem later_cons : later (e :: unused) txid =
    if txid < e.stamp then e :: later unused txid else later unused txid := by
  simp only [later, List.filter_cons, decide_eq_true_eq]

/-- The entries of each node are in the order of their transactions. -/
def InOrder (l : List (Entry δ)) : Prop := l.Pairwise fun a b => a.key = b.key → a.stamp < b.stamp

theorem mergeLoop_spec {recs : List DeltaRec} (hp : Pending s s.lastTxnId recs unused)
    (hlast : s.lastTxnId ≤ txid) (hg : Gathered m done) (hne : ∀ e ∈ unused, e.stamp ≠ txid) :
    ∃ m' recs', s.mergeLoop txid recs m = .ok (m', recs') ∧
      Gathered m' (done ++ visible unused txid) ∧
      m'.clear = (m.clear && decide (later unused txid = [])) ∧
      (visible unused txid = [] → recs' = recs) ∧
      (InOrder (done ++ visible unused txid) → Pending s txid recs' (later unused txid)) := by
  induction hp generalizing m done with
  | nil =>
      refine ⟨m, [], rfl, ?_, ?_, fun _ => rfl, fun _ => .nil⟩
      · rw [visible, List.filter_nil, List.append_nil]
        exact hg
      · simp [later]
  | @used rec recs unused hm ht _ ih =>
      have hseen : ¬txid < rec.txid := by omega
      obtain ⟨m', recs', hx, hg', hc, hsame, hpend⟩ := ih hg hne
      refine ⟨m', rec :: recs', ?_, hg', hc, fun hv => by rw [hsame hv],
        fun ho => .used hm (by omega) (hpend ho)⟩
      rw [mergeLoop, mergeRec, if_neg hseen, if_pos ⟨ht, hm⟩]
      simp only [Except.bind, bind, hx]
  | @unused rec e recs unused hm hr _ ih =>
      have hne' : ∀ e ∈ unused, e.stamp ≠ txid := fun e he => hne e (List.mem_cons_of_mem _ he)
      by_cases hle : e.stamp ≤ txid
      · have hvis : visible (e :: unused) txid = e :: visible unused txid := by
          rw [visible_cons, if_pos hle]
        have hlater : later (e :: unused) txid = later unused txid := by
          rw [later_cons, if_neg (by omega)]
        obtain ⟨m₁, rec', hx, hc₁, hg₁, hrec⟩ := hg.mergeRec hm hr hle
        obtain ⟨m', recs', hx', hg', hc, -, hpend⟩ := ih hg₁ hne'
        have happ : done ++ [e] ++ visible unused txid = done ++ visible (e :: unused) txid := by
          rw [hvis, List.append_assoc]
          rfl
        refine ⟨m', rec' :: recs', ?_, happ ▸ hg', ?_, fun hv => ?_, fun ho => ?_⟩
        · rw [mergeLoop, hx]
          simp only [Except.bind, bind, hx']
        · rw [hc, hc₁, hlater]
        · rw [hvis] at hv
          cases hv
        · rw [hlater]
          rcases hrec with ⟨hm', ht'⟩ | ⟨-, b, hb, hge⟩
          · have hother := hne e List.mem_cons_self
            exact .used hm' (by omega) (hpend (happ ▸ ho))
          · -- an older entry of the node would have been met before
            obtain ⟨hmem, hkey⟩ := (newest_spec done e.key).1 b hb
            rw [hvis] at ho
            have hlt := (List.pairwise_append.mp ho).2.2 b hmem e List.mem_cons_self hkey
            omega
      · have hvis : visible (e :: unused) txid = visible unused txid := by
          rw [visible_cons, if_neg hle]
        have hlater : later (e :: unused) txid = e :: later unused txid := by
          rw [later_cons, if_pos (by omega)]
        obtain ⟨m', recs', hx, hg', hc, hsame, hpend⟩ :=
          @ih { m with clear := false } done ⟨hg.txids, hg.deltas⟩ hne'
        have hhid : txid < rec.txid := by
          rw [hr.txid]
          omega
        refine ⟨m', rec :: recs', ?_, hvis ▸ hg', ?_, fun hv => by rw [hsame (hvis ▸ hv)],
          fun ho => ?_⟩
        · rw [mergeLoop, mergeRec, if_pos hhid]
          simp only [Except.bind, bind, hx]
        · rw [hc, hlater]
          simp
        · rw [hlater]
          exact .unused hm hr (hpend (hvis ▸ ho))

theorem Pending.congr {s' : DeltaStore δ} {recs : List DeltaRec} (h : Pending s last recs unused)
    (hids : s'.ids = s.ids) (hws : s'.weights = s.weights) : Pending s' last recs unused := by
  have hslice : ∀ rec d, s.slice rec = .ok d → s'.slice rec = .ok d := by
    intro rec d
    rw [slice_eq_ok, slice_eq_ok, InRange, InRange, hids, hws]
    exact id
  induction h with
  | nil => exact .nil
  | used hm ht _ ih => exact .used hm ht ih
  | unused hm hr _ ih => exact .unused hm ⟨hr.txid, hr.nodeId, hslice _ _ hr.slice⟩ ih

/-- What a merge returns, and what it leaves. -/
theorem mergeDeltas_spec (hp : Pending s s.lastTxnId s.deltaRecs unused)
    (hlast : s.lastTxnId ≤ txid) (hne : ∀ e ∈ unused, e.stamp ≠ txid) :
    ∃ deltas recs', s.mergeDeltas txid = .ok (deltas, { s with deltaRecs := recs' }) ∧
      (∀ nid, deltas.lookup nid = (newest (visible unused txid) nid).map Stamped.value) ∧
      (visible unused txid = [] → later unused txid = [] ∧ recs' = [] ∨ recs' = s.deltaRecs) ∧
      (later unused txid = [] ∨ InOrder (visible unused txid) →
        Pending s txid recs' (later unused txid)) := by
  obtain ⟨m', recs', hx, hg, hc, hsame, hpend⟩ := @mergeLoop_spec _ _ _
    ⟨true, OrdMap.empty, OrdMap.empty⟩ [] _ _ hp hlast ⟨fun _ => rfl, fun _ => rfl⟩ hne
  rw [List.nil_append] at hg hpend
  rw [Bool.true_and] at hc
  by_cases hl : later unused txid = []
  · refine ⟨m'.deltas, [], ?_, hg.deltas, fun _ => .inl ⟨hl, rfl⟩, fun _ => hl ▸ .nil⟩
    have hclear : m'.clear = true := by
      rw [hc, hl]
      rfl
    rw [mergeDeltas, hx]
    simp only [Except.bind, bind, hclear, if_true]
    rfl
  · refine ⟨m'.deltas, recs', ?_, hg.deltas, fun hv => .inr (hsame hv), fun ho => ?_⟩
    · have hclear : m'.clear = false := by
        rw [hc]
        exact decide_eq_false hl
      rw [mergeDeltas, hx]
      simp only [Except.bind, bind, hclear, Bool.false_eq_true, if_false]
    · exact hpend (ho.resolve_left hl)

/-- The records after the CSR has been built from the graph. -/
theorem Pending.marked {recs : List DeltaRec} (h : Pending s last recs unused)
    (hnone : ∀ rec ∈ recs, rec.merged = false) (hne : ∀ e ∈ unused, e.stamp ≠ txid) :
    Pending s txid (recs.map fun rec => if rec.txid <
    txid then { rec with merged := true } else rec)
      (later unused txid) := by
  induction h with
  | nil => exact .nil
  | used hm => exact absurd hm (by rw [hnone _ List.mem_cons_self]; exact Bool.noConfusion)
  | @unused rec e recs unused hm hr _ ih =>
      have hrest := ih (fun rec h => hnone rec (List.mem_cons_of_mem _ h))
        (fun e h => hne e (List.mem_cons_of_mem _ h))
      have hother := hne e List.mem_cons_self
      rw [List.map_cons]
      split
      · next hlt =>
        rw [later_cons, if_neg (by rw [← hr.txid]; omega)]
        exact .used rfl hlt hrest
      · next hge =>
        have htxid := hr.txid
        rw [later_cons, if_pos (by omega)]
        exact .unused hm hr hrest

/-- No record is left for later. -/
theorem Pending.later_eq_nil {recs : List DeltaRec} (h : Pending s last recs unused)
    (hnone : ∀ rec ∈ recs, rec.txid ≤ txid) : later unused txid = [] := by
  induction h with
  | nil => rfl
  | used _ _ _ ih => exact ih fun rec h => hnone rec (List.mem_cons_of_mem _ h)
  | @unused rec e recs unused _ hr _ ih =>
      have hle := hnone rec List.mem_cons_self
      rw [later_cons, if_neg (by rw [← hr.txid]; omega)]
      exact ih fun rec h => hnone rec (List.mem_cons_of_mem _ h)

theorem afterBuild_spec (hp : Pending s last s.deltaRecs unused)
    (hnone : ∀ rec ∈ s.deltaRecs, rec.merged = false) (hne : ∀ e ∈ unused, e.stamp ≠ txid) :
    ∃ recs', s.afterBuild txid = { s with lastTxnId := txid, deltaRecs := recs' } ∧
      Pending s txid recs' (later unused txid) := by
  unfold afterBuild
  simp only []
  split
  · exact ⟨_, rfl, hp.marked hnone hne⟩
  · next hany =>
    refine ⟨[], rfl, ?_⟩
    rw [hp.later_eq_nil fun rec hrec => ?_]
    · exact .nil
    · rw [List.any_map, List.any_eq_true] at hany
      by_contra hlt
      refine hany ⟨rec, hrec, ?_⟩
      simp only [Function.comp_apply]
      split
      · exact decide_eq_true (by omega)
      · exact decide_eq_true (by omega)

/-! ## Runs -/

/-- The store, and the entries that no merge or build has used. -/
structure DeltaRun (δ : Type) where
  store : DeltaStore δ
  unused : List (Entry δ)

/-- What transactions do with the store: one that commits stores its lists, and
one that wants the CSR gets it. -/
inductive DeltaCall (δ : Type) where
  | store (txid nid : Nat) (d : Delta δ)
  | update (txid : Nat)

namespace DeltaRun

/-- Nothing has been stored and no CSR has been built. -/
def initial : DeltaRun δ := ⟨DeltaStore.initial, []⟩

/-- A build and a merge use all entries of transactions before the reader. -/
def next (r : DeltaRun δ) : DeltaCall δ → DeltaRun δ
  | .store txid nid d => ⟨r.store.storeDelta txid nid d, r.unused ++ [⟨txid, nid, d⟩]⟩
  | .update txid =>
      match r.store.updateWithDelta txid with
      | .ok (.invalid, store) => ⟨store, r.unused⟩
      | .ok (_, store) => ⟨store, later r.unused txid⟩
      | .error _ => r

/-- A merge gives every node the newest list of those that the reader may see
and that are not used yet. -/
def Newest (r : DeltaRun δ) : DeltaCall δ → Prop
  | .store .. => True
  | .update txid => ∃ res store, r.store.updateWithDelta txid = .ok (res, store) ∧
      ∀ deltas, res = .merged deltas → ∀ nid d,
        deltas.lookup nid = some d ↔ IsNewest (visible r.unused txid) nid d

/-- A transaction stores one list for a node, and it does not read the CSR
after it has committed. -/
def Legal (r : DeltaRun δ) : DeltaCall δ → Prop
  | .store txid nid _ => ∀ e ∈ r.unused, e.key = nid → e.stamp ≠ txid
  | .update txid => txid < UNKNOWN ∧ ∀ e ∈ r.unused, e.stamp ≠ txid

/-- A list is not too long for its size to be an `int`; and if a merge keeps
lists for later, the ones it uses are in the order of their transactions. -/
def Ordered (r : DeltaRun δ) : DeltaCall δ → Prop
  | .store _ _ d => d.ids.length < 2 ^ 31
  | .update txid => r.store.lastTxnId = UNKNOWN ∨ txid < r.store.lastTxnId ∨
      later r.unused txid = [] ∨ InOrder (visible r.unused txid)

instance decidableLegal (r : DeltaRun δ) : ∀ c, Decidable (r.Legal c)
  | .store _ _ _ => List.decidableBAll _ r.unused
  | .update _ => @instDecidableAnd _ _ _ (List.decidableBAll _ r.unused)

instance decidableOrdered (r : DeltaRun δ) : ∀ c, Decidable (r.Ordered c)
  | .store _ _ _ => Nat.decLt _ _
  | .update _ => inferInstanceAs (Decidable (_ ∨ _ ∨ _ ∨ List.Pairwise _ _))

/-- The records of the store are those of the entries. -/
structure Tracked (r : DeltaRun δ) : Prop where
  filled : r.store.Filled
  pending : Pending r.store r.store.lastTxnId r.store.deltaRecs r.unused
  distinct : Distinct r.unused
  unbuilt : r.store.lastTxnId = UNKNOWN → ∀ rec ∈ r.store.deltaRecs, rec.merged = false

theorem tracked_initial : (initial : DeltaRun δ).Tracked where
  filled := ⟨rfl, rfl⟩
  pending := .nil
  distinct := .nil
  unbuilt _ rec h := (by cases h)

variable {r : DeltaRun δ}

theorem Tracked.store (h : r.Tracked) (hnew : ∀ e ∈ r.unused, e.key = nid → e.stamp ≠ txid)
    (hlen : d.ids.length < 2 ^ 31) : (r.next (.store txid nid d)).Tracked where
  filled := h.filled.storeDelta
  pending := h.pending.storeDelta h.filled hlen
  distinct := by
    refine List.pairwise_append.mpr ⟨h.distinct, List.pairwise_singleton .., fun a ha b hb hk => ?_⟩
    rw [List.mem_singleton.mp hb] at hk ⊢
    exact hnew a ha hk
  unbuilt hu rec hrec := by
    rcases List.mem_append.mp hrec with hrec | hrec
    · exact h.unbuilt hu rec hrec
    · rw [List.mem_singleton.mp hrec]

theorem distinct_later (h : Distinct r.unused) : Distinct (later r.unused txid) := h.filter _

theorem distinct_visible (h : Distinct r.unused) : Distinct (visible r.unused txid) := h.filter _

/-- All entries are left if none is visible. -/
theorem later_eq_self {unused : List (Entry δ)} (h : visible unused txid = []) :
    later unused txid = unused := by
  refine List.filter_eq_self.mpr fun e he => ?_
  have hnot : e ∉ visible unused txid := by
    rw [h]
    exact List.not_mem_nil
  rw [decide_eq_true_iff]
  by_contra hle
  exact hnot (List.mem_filter.mpr ⟨he, decide_eq_true (by omega)⟩)

/-- A merge without deltas has met no visible entry. -/
theorem visible_eq_nil {unused : List (Entry δ)} {deltas : OrdMap Nat (Delta δ)}
    (hlook : ∀ nid, deltas.lookup nid = (newest (visible unused txid) nid).map Stamped.value)
    (hnil : deltas.entries = []) : visible unused txid = [] := by
  refine List.eq_nil_iff_forall_not_mem.mpr fun e he => ?_
  obtain ⟨b, hb, -⟩ := (newest_spec (visible unused txid) e.key).2 e he rfl
  have hl := hlook e.key
  rw [OrdMap.lookup, hnil, hb] at hl
  cases hl

theorem Tracked.build (h : r.Tracked) (hu : r.store.lastTxnId = UNKNOWN) (hx : txid < UNKNOWN)
    (hne : ∀ e ∈ r.unused, e.stamp ≠ txid) :
    (r.next (.update txid)).Tracked ∧ r.Newest (.update txid) := by
  have heq : r.store.updateWithDelta txid = .ok (.built, r.store.afterBuild txid) := if_pos hu
  obtain ⟨recs', hs, hp⟩ := afterBuild_spec h.pending (h.unbuilt hu) hne
  constructor
  · rw [next, heq, hs]
    exact ⟨⟨h.filled.ids, h.filled.weights⟩, hp.congr rfl rfl, distinct_later h.distinct,
      fun he => absurd he (Nat.ne_of_lt hx)⟩
  · exact ⟨_, _, heq, fun deltas hd => (by cases hd)⟩

theorem Tracked.invalid (h : r.Tracked) (hu : r.store.lastTxnId ≠ UNKNOWN)
    (hlt : txid < r.store.lastTxnId) :
    (r.next (.update txid)).Tracked ∧ r.Newest (.update txid) := by
  have heq : r.store.updateWithDelta txid = .ok (.invalid, r.store) := by
    rw [updateWithDelta, if_neg hu, if_pos hlt]
  constructor
  · rw [next, heq]
    exact h
  · exact ⟨_, _, heq, fun deltas hd => (by cases hd)⟩

theorem Tracked.merge (h : r.Tracked) (hu : r.store.lastTxnId ≠ UNKNOWN)
    (hge : ¬txid < r.store.lastTxnId) (hx : txid < UNKNOWN) (hne : ∀ e ∈ r.unused, e.stamp ≠ txid)
    (ho : later r.unused txid = [] ∨ InOrder (visible r.unused txid)) :
    (r.next (.update txid)).Tracked ∧ r.Newest (.update txid) := by
  obtain ⟨deltas, recs', hx', hlook, hkeep, hpend⟩ :=
    mergeDeltas_spec h.pending (Nat.le_of_not_lt hge) hne
  have hnewest : ∀ nid d, deltas.lookup nid = some d ↔ IsNewest (visible r.unused txid) nid d := by
    intro nid d
    rw [hlook, newest_iff (distinct_visible h.distinct)]
  by_cases hnil : deltas.entries = []
  · have heq : r.store.updateWithDelta txid =
        .ok (.merged deltas, { r.store with deltaRecs := recs' }) := by
      rw [updateWithDelta, if_neg hu, if_neg hge, hx']
      simp only [Except.bind, bind, hnil, if_true]
    have hvis := visible_eq_nil hlook hnil
    refine ⟨?_, _, _, heq, fun deltas' hd => ?_⟩
    · rw [next, heq]
      refine ⟨⟨h.filled.ids, h.filled.weights⟩, ?_, distinct_later h.distinct,
        fun he => absurd he hu⟩
      rcases hkeep hvis with ⟨hl, rfl⟩ | rfl
      · rw [hl]
        exact .nil
      · rw [later_eq_self hvis]
        exact h.pending.congr rfl rfl
    · cases hd
      exact hnewest
  · have heq : r.store.updateWithDelta txid =
        .ok (.merged deltas, { r.store with deltaRecs := recs', lastTxnId := txid }) := by
      rw [updateWithDelta, if_neg hu, if_neg hge, hx']
      simp only [Except.bind, bind, hnil, if_false]
    refine ⟨?_, _, _, heq, fun deltas' hd => ?_⟩
    · rw [next, heq]
      exact ⟨⟨h.filled.ids, h.filled.weights⟩, (hpend ho).congr rfl rfl,
        distinct_later h.distinct, fun he => absurd he (Nat.ne_of_lt hx)⟩
    · cases hd
      exact hnewest

/-- One call. -/
theorem Tracked.next {c : DeltaCall δ} (h : r.Tracked) (hl : r.Legal c) (ho : r.Ordered c) :
    (r.next c).Tracked ∧ r.Newest c := by
  cases c with
  | store txid nid d => exact ⟨h.store hl ho, trivial⟩
  | update txid =>
      by_cases hu : r.store.lastTxnId = UNKNOWN
      · exact h.build hu hl.1 hl.2
      · by_cases hlt : txid < r.store.lastTxnId
        · exact h.invalid hu hlt
        · exact h.merge hu hlt hl.1 hl.2 ((ho.resolve_left hu).resolve_left hlt)

/-- In a run whose calls are legal and in order every merge gives the newest
lists. -/
theorem merges_newest (calls : List (DeltaCall δ))
    (h : Along (fun r c => DeltaRun.next r c) (fun r c => r.Legal c ∧ r.Ordered c) initial calls) :
    Along (fun r c => DeltaRun.next r c) (fun r c => r.Newest c) initial calls :=
  @along_of_along _ _ _ _ _ Tracked (fun _ _ hr hc => (hr.next hc.1 hc.2).symm) calls initial
    tracked_initial h

/-- The list with one neighbour. -/
def oneNeighbour (id : Nat) : Delta Unit := ⟨[id], [()], rfl⟩

/-- Transactions 3 and 5 commit one after the other, and 9 before the readers. -/
def orderedCalls : List (DeltaCall Unit) :=
  [.update 2, .store 3 1 (oneNeighbour 20), .store 5 1 (oneNeighbour 10),
    .store 9 2 (oneNeighbour 30), .update 7, .update 8]

theorem merges_newest_ordered : Along (fun r c => DeltaRun.next r c) (fun r c => r.Newest c)
    initial orderedCalls := merges_newest orderedCalls (by decide)

/-- Transaction 5 commits before transaction 3. -/
def staleCalls : List (DeltaCall Unit) :=
  [.update 2, .store 5 1 (oneNeighbour 10), .store 3 1 (oneNeighbour 20),
    .store 9 2 (oneNeighbour 30), .update 7, .update 8]

def staleRun : DeltaRun Unit := (staleCalls.take 5).foldl next initial

theorem stale_update : ∃ deltas store, staleRun.store.updateWithDelta 8 =
    .ok (.merged deltas, store) ∧ deltas.lookup 1 = some (oneNeighbour 20) :=
  ⟨_, _, rfl, rfl⟩

/-- The merge for transaction 7 takes the list of transaction 5, and the one
for transaction 8 that of transaction 3. -/
theorem stale_list_merged : Along (fun r c => DeltaRun.next r c) (fun r c => r.Legal c)
      initial staleCalls ∧
    ¬Along (fun r c => DeltaRun.next r c) (fun r c => r.Newest c) initial staleCalls := by
  refine ⟨by decide, fun h => ?_⟩
  have hlast : staleRun.Newest (.update 8) := h.2.2.2.2.2.1
  obtain ⟨res, store, hx, hnewest⟩ := hlast
  obtain ⟨deltas, store', hx', hlook⟩ := stale_update
  rw [hx] at hx'
  obtain ⟨rfl, -⟩ := Prod.mk.inj (Except.ok.inj hx')
  obtain ⟨e, he, -⟩ := (hnewest deltas rfl 1 _).mp hlook
  cases he

end DeltaRun

end DeltaStore

end Poseidon
