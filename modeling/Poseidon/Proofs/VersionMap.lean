import Mathlib.Data.List.Induction
import Mathlib.Tactic.IntervalCases
import Poseidon.Proofs.VersionIndex

/-!
# The index is a map of versions

Calls for any logical ids and for both kinds go to one map with packed keys.
What is read for a logical id and a kind depends on the calls for this id and
kind only: an exact search gives what the last call for the start time left,
an as-of search the latest entry of an interval, a scan all of its entries.
-/

namespace Poseidon.Temporal

/-- A call that changes the index. -/
inductive IndexCall where
  | insertVersion (lid vt : Nat) (ty : PtrType) (payload : Nat) (isRel : Bool)
  | removeVersion (lid vt : Nat) (isRel : Bool)
  deriving DecidableEq, Repr

namespace IndexCall

def apply (ix : OrdMap Nat Nat) : IndexCall → OrdMap Nat Nat
  | .insertVersion lid vt ty payload isRel => Temporal.insertVersion ix lid vt ty payload isRel
  | .removeVersion lid vt isRel => Temporal.removeVersion ix lid vt isRel

/-- The logical id, the start and the kind of the version that is meant. -/
def version : IndexCall → Nat × Nat × Bool
  | .insertVersion lid vt _ _ isRel => (lid, vt, isRel)
  | .removeVersion lid vt isRel => (lid, vt, isRel)

/-- What the call leaves for its version. -/
def entry : IndexCall → Option (Nat × Nat)
  | .insertVersion _ _ ty payload _ => some (ty.code, payload)
  | .removeVersion .. => none

/-- The id, the time and the payload fit in their bits. -/
def Fits : IndexCall → Prop
  | .insertVersion lid vt _ payload _ => lid < 2 ^ 31 ∧ vt < 2 ^ 32 ∧ payload < 2 ^ 56
  | .removeVersion lid vt _ => lid < 2 ^ 31 ∧ vt < 2 ^ 32

instance (c : IndexCall) : Decidable c.Fits :=
  match c with
  | .insertVersion .. => inferInstanceAs (Decidable (_ ∧ _ ∧ _))
  | .removeVersion .. => inferInstanceAs (Decidable (_ ∧ _))

end IndexCall

/-- The index after calls. -/
def indexAfter (calls : List IndexCall) : OrdMap Nat Nat :=
  calls.foldl IndexCall.apply .empty

/-- What the last call for a version left of it. -/
def lastEntry (calls : List IndexCall) (lid vt : Nat) (isRel : Bool) : Option (Nat × Nat) :=
  (calls.reverse.find? fun c => c.version = (lid, vt, isRel)).bind IndexCall.entry

variable {ix : OrdMap Nat Nat} {calls : List IndexCall} {lid vt : Nat} {isRel : Bool}

theorem lastEntry_append (c : IndexCall) : lastEntry (calls ++ [c]) lid vt isRel =
    if c.version = (lid, vt, isRel) then c.entry else lastEntry calls lid vt isRel := by
  rw [lastEntry, List.reverse_append]
  by_cases h : c.version = (lid, vt, isRel)
  · rw [if_pos h]
    simp [h]
  · rw [if_neg h]
    simp [h, lastEntry]

/-- One call changes the entry of its version only. -/
theorem entryAt_apply {c : IndexCall} (hc : c.Fits) (hl : lid < 2 ^ 31) (hv : vt < 2 ^ 32) :
    entryAt (c.apply ix) lid vt isRel =
      if c.version = (lid, vt, isRel) then c.entry else entryAt ix lid vt isRel := by
  cases c with
  | insertVersion lid' vt' ty payload isRel' =>
      obtain ⟨hl', hv', hp⟩ := hc
      rw [IndexCall.apply, entryAt_insertVersion hl hv hl' hv', tiDecodePayload_encode hp]
      simp only [IndexCall.version, IndexCall.entry, Prod.mk.injEq, eq_comm]
  | removeVersion lid' vt' isRel' =>
      obtain ⟨hl', hv'⟩ := hc
      rw [IndexCall.apply, entryAt_removeVersion hl hv hl' hv']
      simp only [IndexCall.version, IndexCall.entry, Prod.mk.injEq, eq_comm]

theorem entryAt_indexAfter (hcalls : ∀ c ∈ calls, c.Fits) (hl : lid < 2 ^ 31)
    (hv : vt < 2 ^ 32) : entryAt (indexAfter calls) lid vt isRel =
    lastEntry calls lid vt isRel := by
  induction calls using List.reverseRecOn with
  | nil => rfl
  | append_singleton calls c ih =>
      have hc := hcalls c (List.mem_append_right _ (List.mem_singleton_self c))
      rw [indexAfter, List.foldl_append, List.foldl_cons, List.foldl_nil, entryAt_apply hc hl hv,
        lastEntry_append]
      split
      · rfl
      · exact ih fun c' hc' => hcalls c' (List.mem_append_left _ hc')

/-- The keys between two keys of a logical id are keys of the id. -/
theorem between_keys {a b k : Nat} (ha : a < 2 ^ 32) (hb : b < 2 ^ 32) :
    tiEncodeKey lid a isRel ≤ k ∧ k ≤ tiEncodeKey lid b isRel ↔
      k = tiEncodeKey lid (tiDecodeVtStart k) isRel ∧ a ≤ tiDecodeVtStart k ∧
        tiDecodeVtStart k ≤ b := by
  simp only [tiEncodeKey, tiDecodeVtStart]
  cases isRel with
  | false => simp only [Bool.false_eq_true, ↓reduceIte]; omega
  | true => simp only [↓reduceIte]; omega

theorem mem_scanRange {a b ty payload : Nat} (ha : a < 2 ^ 32)
    (hb : b < 2 ^ 32) : (vt, ty, payload) ∈ scanRange ix lid a b isRel ↔
      a ≤ vt ∧ vt ≤ b ∧ entryAt ix lid vt isRel = some (ty, payload) := by
  simp only [scanRange, OrdMap.scan, List.mem_map, List.mem_filter, decide_eq_true_eq,
    between_keys ha hb]
  constructor
  · rintro ⟨⟨k, v⟩, ⟨hin, hk, hlo, hhi⟩, heq⟩
    cases heq
    refine ⟨hlo, hhi, ?_⟩
    change k = _ at hk
    rw [entryAt, ← hk, OrdMap.lookup_eq_some.mpr hin]
    rfl
  · rintro ⟨hlo, hhi, h⟩
    obtain ⟨v, hv, heq⟩ := Option.map_eq_some_iff.mp h
    cases heq
    have hst : tiDecodeVtStart (tiEncodeKey lid vt isRel) = vt := by
      simp only [tiDecodeVtStart, tiEncodeKey]
      split
      all_goals omega
    refine ⟨(_, v), ⟨OrdMap.lookup_eq_some.mp hv, ?_⟩, ?_⟩
    · rw [hst]
      exact ⟨rfl, hlo, hhi⟩
    · rw [hst]

/-- A scan goes forward in time. -/
theorem scanRange_increasing {a b : Nat} (ha : a < 2 ^ 32)
    (hb : b < 2 ^ 32) : (scanRange ix lid a b isRel).Pairwise fun e e' => e.1 < e'.1 := by
  rw [scanRange, List.pairwise_map]
  have hsorted : (ix.scan (tiEncodeKey lid a isRel) (tiEncodeKey lid b isRel)).Pairwise
      fun e e' => e.1 < e'.1 := ix.sorted.filter _
  refine hsorted.imp_of_mem fun {e e'} he he' hlt => ?_
  have h := (between_keys ha hb).mp (of_decide_eq_true (List.mem_filter.mp he).2)
  have h' := (between_keys ha hb).mp (of_decide_eq_true (List.mem_filter.mp he').2)
  have hk := h.1
  have hk' := h'.1
  simp only [tiEncodeKey] at hk hk'
  change tiDecodeVtStart e.1 < tiDecodeVtStart e'.1
  omega

/-- What the searches for a logical id and a kind return after any calls. -/
theorem index_is_version_map (hcalls : ∀ c ∈ calls, c.Fits) (hl : lid < 2 ^ 31) :
    (∀ vt < 2 ^ 32, lookupExact (indexAfter calls) lid vt isRel =
      lastEntry calls lid vt isRel) ∧
    (∀ t < 2 ^ 32, ∀ hint < 2 ^ 32,
      (∀ x, lookupAsOf (indexAfter calls) lid t hint isRel = some x ↔
        ∃ vt, hint ≤ vt ∧ vt ≤ t ∧ lastEntry calls lid vt isRel = some x ∧
          ∀ vt', vt < vt' → vt' ≤ t → lastEntry calls lid vt' isRel = none) ∧
      (lookupAsOf (indexAfter calls) lid t hint isRel = none ↔
        ∀ vt, hint ≤ vt → vt ≤ t → lastEntry calls lid vt isRel = none)) ∧
    ∀ a < 2 ^ 32, ∀ b < 2 ^ 32,
      ((scanRange (indexAfter calls) lid a b isRel).Pairwise fun e e' => e.1 < e'.1) ∧
      ∀ vt ty payload, (vt, ty, payload) ∈ scanRange (indexAfter calls) lid a b isRel ↔
        a ≤ vt ∧ vt ≤ b ∧ lastEntry calls lid vt isRel = some (ty, payload) := by
  have hentry : ∀ {vt}, vt < 2 ^ 32 →
      entryAt (indexAfter calls) lid vt isRel = lastEntry calls lid vt isRel :=
    fun hv => entryAt_indexAfter hcalls hl hv
  refine ⟨fun vt hv => hentry hv, fun t ht hint hh => ⟨fun x => ?_, ?_⟩, fun a ha b hb =>
    ⟨scanRange_increasing ha hb, fun vt ty payload => ?_⟩⟩
  · rw [lookupAsOf_eq_some hl ht hh]
    refine exists_congr fun vt => ⟨?_, ?_⟩
    · rintro ⟨hlo, hhi, hx, hno⟩
      rw [hentry (by omega)] at hx
      refine ⟨hlo, hhi, hx, fun vt' hlt hle => ?_⟩
      rw [← hentry (by omega)]
      exact hno vt' hlt hle
    · rintro ⟨hlo, hhi, hx, hno⟩
      rw [← hentry (by omega)] at hx
      refine ⟨hlo, hhi, hx, fun vt' hlt hle => ?_⟩
      rw [hentry (by omega)]
      exact hno vt' hlt hle
  · rw [lookupAsOf_eq_none hl ht hh]
    refine forall_congr' fun vt => forall_congr' fun _ => forall_congr' fun hle => ?_
    rw [hentry (by omega)]
  · rw [mem_scanRange ha hb]
    refine and_congr_right fun _ => and_congr_right fun hle => ?_
    rw [hentry (by omega)]

/-- A node and a relationship of one number. -/
def sharedNumberCalls : List IndexCall :=
  [.insertVersion 7 10 .hist 3 false, .insertVersion 7 10 .hot 4 true,
    .insertVersion 7 20 .hot 5 false, .removeVersion 7 10 true]

theorem index_is_version_map_shared_number :
    lookupExact (indexAfter sharedNumberCalls) 7 10 false = some (2, 3) ∧
      lookupAsOf (indexAfter sharedNumberCalls) 7 19 0 false = some (2, 3) ∧
      (20, 1, 5) ∈ scanRange (indexAfter sharedNumberCalls) 7 11 20 false := by
  have h := @index_is_version_map sharedNumberCalls 7 false (by decide) (by decide)
  refine ⟨h.1 10 (by decide), ?_, ?_⟩
  · refine ((h.2.1 19 (by decide) 0 (by decide)).1 _).mpr ⟨10, by decide, by decide, rfl, ?_⟩
    intro vt' hlt hle
    interval_cases vt' <;> rfl
  · exact ((h.2.2 11 (by decide) 20 (by decide)).2 20 1 5).mpr ⟨by decide, by decide, rfl⟩

end Poseidon.Temporal
