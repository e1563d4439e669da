import Poseidon.Temporal.History

/-!
# The index of versions

An index key packs a partition bit, a logical id and a time into one number,
and an as-of search is a scan between two keys. For logical ids and times
that fit, the scan sees exactly the entries of one logical id: `entryAt` is
the entry of one start time, and the search returns the last one between the
hint and the time asked for.
-/

namespace Poseidon.Temporal

/-! ## Keys and values -/

theorem tiEncodeKey_partition (lid vt : Nat) (isRel : Bool) :
    tiEncodeKey lid vt isRel / 2 ^ 63 = if isRel then 1 else 0 := by
  simp only [tiEncodeKey]
  cases isRel with
  | false =>
      simp only [Bool.false_eq_true, ↓reduceIte]
      omega
  | true =>
      simp only [↓reduceIte]
      omega

theorem tiDecodeLid_encode (lid vt : Nat) (isRel : Bool) :
    tiDecodeLid (tiEncodeKey lid vt isRel) = lid % 2 ^ 31 := by
  simp only [tiDecodeLid, tiEncodeKey]
  cases isRel with
  | false =>
      simp only [Bool.false_eq_true, ↓reduceIte]
      omega
  | true =>
      simp only [↓reduceIte]
      omega

theorem tiDecodeType_encode (ty : PtrType) (payload : Nat) :
    tiDecodeType (tiEncodeVal ty payload) = ty.code := by
  cases ty with
  | hot => simp only [tiDecodeType, tiEncodeVal, PtrType.code]; omega
  | hist => simp only [tiDecodeType, tiEncodeVal, PtrType.code]; omega

theorem tiDecodePayload_encode {ty : PtrType} {payload : Nat} (h : payload < 2 ^ 56) :
    tiDecodePayload (tiEncodeVal ty payload) = payload := by
  simp only [tiDecodePayload, tiEncodeVal]
  omega

/-- The payload of a history id is the number of its record. -/
theorem tiDecodePayload_hist {n : Nat} (h : n < 2 ^ 56) :
    tiDecodePayload (tiEncodeVal .hist (encodeHistoryId n)) = n := by
  simp only [tiDecodePayload, tiEncodeVal, encodeHistoryId]
  omega

/-- Keys of different partitions are different. -/
theorem tiEncodeKey_ne {lid vt lid' vt' : Nat} {isRel isRel' : Bool} (h : isRel ≠ isRel') :
    tiEncodeKey lid vt isRel ≠ tiEncodeKey lid' vt' isRel' := by
  intro heq
  have hp := tiEncodeKey_partition lid vt isRel
  rw [heq, tiEncodeKey_partition] at hp
  cases isRel with
  | false => cases isRel' with
    | false => exact h rfl
    | true => simp at hp
  | true => cases isRel' with
    | false => simp at hp
    | true => exact h rfl

/-- Keys of logical ids and times that fit are all different. -/
theorem tiEncodeKey_inj {lid vt lid' vt' : Nat} {isRel isRel' : Bool} (hl : lid < 2 ^ 31)
    (hl' : lid' < 2 ^ 31) (hv : vt < 2 ^ 32) (hv' : vt' < 2 ^ 32)
    (h : tiEncodeKey lid vt isRel = tiEncodeKey lid' vt' isRel') :
    lid = lid' ∧ vt = vt' ∧ isRel = isRel' := by
  have hd := tiDecodeLid_encode lid vt isRel
  rw [h, tiDecodeLid_encode] at hd
  have hr : isRel = isRel' := by
    by_contra hne
    exact tiEncodeKey_ne hne h
  subst hr
  simp only [tiEncodeKey] at h
  refine ⟨by omega, by omega, rfl⟩

/-! ## Searches -/

/-- The type and the payload of the entry of a start time. -/
def entryAt (ix : OrdMap Nat Nat) (lid vt : Nat) (isRel : Bool) : Option (Nat × Nat) :=
  (ix.lookup (tiEncodeKey lid vt isRel)).map fun v => (tiDecodeType v, tiDecodePayload v)

variable {ix : OrdMap Nat Nat} {lid vt hint : Nat} {isRel : Bool}

/-- A search at the start of a version finds nothing or its entry, whatever
the hint. -/
theorem lookupAsOf_at_entry {x : Nat × Nat} (h : entryAt ix lid vt isRel = some x) :
    lookupAsOf ix lid vt hint isRel = none ∨ lookupAsOf ix lid vt hint isRel = some x := by
  obtain ⟨v, hv, rfl⟩ := Option.map_eq_some_iff.mp h
  have hmem := OrdMap.lookup_eq_some.mp hv
  simp only [lookupAsOf, OrdMap.scan, List.filter_filter]
  cases hlast : (ix.entries.filter _).getLast? with
  | none => exact .inl rfl
  | some e =>
      right
      obtain ⟨k, w⟩ := e
      obtain ⟨hin, hp, hmax⟩ := OrdMap.last_eq.mp hlast
      simp only [Bool.and_eq_true, decide_eq_true_eq, beq_iff_eq] at hp
      -- the entry that was found has the logical id, so the id fits
      have hlt : tiDecodeLid k < 2 ^ 31 := Nat.mod_lt _ (by decide)
      have hle := hmax _ hmem (by
        simp only [Bool.and_eq_true, decide_eq_true_eq, beq_iff_eq, tiDecodeLid_encode]
        omega)
      have hk : k = tiEncodeKey lid vt isRel := Nat.le_antisymm hp.2.2 hle
      subst hk
      rw [OrdMap.lookup_eq_some.mpr hin] at hv
      cases hv
      rfl

/-- The keys a search passes are those of the logical id between the hint and
the time. -/
theorem scanned_iff {k : Nat} (hl : lid < 2 ^ 31) (hv : vt < 2 ^ 32) (hh : hint < 2 ^ 32) :
    tiDecodeLid k = lid % 2 ^ 32 ∧ tiEncodeKey lid hint isRel ≤ k ∧ k ≤ tiEncodeKey lid vt isRel ↔
      ∃ st, hint ≤ st ∧ st ≤ vt ∧ k = tiEncodeKey lid st isRel := by
  constructor
  · rintro ⟨hd, hlo, hhi⟩
    refine ⟨k % 2 ^ 32, ?_⟩
    simp only [tiDecodeLid, tiEncodeKey] at hd hlo hhi ⊢
    cases isRel with
    | false => simp only [Bool.false_eq_true, ↓reduceIte] at hlo hhi ⊢; omega
    | true => simp only [↓reduceIte] at hlo hhi ⊢; omega
  · rintro ⟨st, hlo, hhi, rfl⟩
    rw [tiDecodeLid_encode]
    simp only [tiEncodeKey]
    refine ⟨by omega, by omega, by omega⟩

/-- A search finds the last entry between the hint and the time. -/
theorem lookupAsOf_eq_some {x : Nat × Nat} (hl : lid < 2 ^ 31) (hv : vt < 2 ^ 32)
    (hh : hint < 2 ^ 32) :
    lookupAsOf ix lid vt hint isRel = some x ↔
      ∃ st, hint ≤ st ∧ st ≤ vt ∧ entryAt ix lid st isRel = some x ∧
        ∀ st', st < st' → st' ≤ vt → entryAt ix lid st' isRel = none := by
  have hscan : ∀ e : Nat × Nat, ((tiDecodeLid e.1 == lid % 2 ^ 32) &&
      decide (tiEncodeKey lid hint isRel ≤ e.1 ∧ e.1 ≤ tiEncodeKey lid vt isRel)) = true ↔
        ∃ st, hint ≤ st ∧ st ≤ vt ∧ e.1 = tiEncodeKey lid st isRel := by
    intro e
    rw [← scanned_iff hl hv hh]
    simp
  simp only [lookupAsOf, OrdMap.scan, List.filter_filter, Option.map_eq_some_iff]
  constructor
  · rintro ⟨⟨k, v⟩, hlast, rfl⟩
    obtain ⟨hin, hp, hmax⟩ := OrdMap.last_eq.mp hlast
    obtain ⟨st, hlo, hhi, rfl⟩ := (hscan _).mp hp
    refine ⟨st, hlo, hhi, ?_, ?_⟩
    · rw [entryAt, OrdMap.lookup_eq_some.mpr hin]
      rfl
    · intro st' hlt hle
      by_contra hne
      obtain ⟨y, hy⟩ := Option.ne_none_iff_exists'.mp hne
      obtain ⟨w, hw, -⟩ := Option.map_eq_some_iff.mp hy
      have hle' := hmax _ (OrdMap.lookup_eq_some.mp hw) ((hscan _).mpr ⟨st', by omega, hle, rfl⟩)
      simp only [tiEncodeKey] at hle'
      omega
  · rintro ⟨st, hlo, hhi, hx, hno⟩
    obtain ⟨v, hw, rfl⟩ := Option.map_eq_some_iff.mp hx
    refine ⟨(tiEncodeKey lid st isRel, v), ?_, rfl⟩
    refine OrdMap.last_eq.mpr ⟨OrdMap.lookup_eq_some.mp hw, (hscan _).mpr ⟨st, hlo, hhi, rfl⟩, ?_⟩
    rintro ⟨k, w⟩ he hp
    obtain ⟨st', hlo', hhi', hk⟩ := (hscan _).mp hp
    change k = _ at hk
    subst hk
    by_contra hgt
    have hlt : st < st' := by
      simp only [tiEncodeKey] at hgt
      omega
    have hnone := hno st' hlt hhi'
    rw [entryAt, OrdMap.lookup_eq_some.mpr he] at hnone
    cases hnone

/-- A search finds nothing exactly when there is no entry between the hint
and the time. -/
theorem lookupAsOf_eq_none (hl : lid < 2 ^ 31) (hv : vt < 2 ^ 32) (hh : hint < 2 ^ 32) :
    lookupAsOf ix lid vt hint isRel = none ↔
      ∀ st, hint ≤ st → st ≤ vt → entryAt ix lid st isRel = none := by
  simp only [lookupAsOf, OrdMap.scan, List.filter_filter, Option.map_eq_none_iff,
    OrdMap.last_eq_none]
  constructor
  · intro h st hlo hhi
    by_contra hne
    obtain ⟨y, hy⟩ := Option.ne_none_iff_exists'.mp hne
    obtain ⟨w, hw, -⟩ := Option.map_eq_some_iff.mp hy
    have hno := h _ (OrdMap.lookup_eq_some.mp hw)
    have hin : tiDecodeLid (tiEncodeKey lid st isRel) = lid % 2 ^ 32 ∧
        tiEncodeKey lid hint isRel ≤ tiEncodeKey lid st isRel ∧
        tiEncodeKey lid st isRel ≤ tiEncodeKey lid vt isRel :=
      (scanned_iff hl hv hh).mpr ⟨st, hlo, hhi, rfl⟩
    simp [hin] at hno
  · rintro h ⟨k, w⟩ he
    by_contra hne
    have hp : tiDecodeLid k = lid % 2 ^ 32 ∧ tiEncodeKey lid hint isRel ≤ k ∧
        k ≤ tiEncodeKey lid vt isRel := by simpa using hne
    obtain ⟨st, hlo, hhi, rfl⟩ := (scanned_iff hl hv hh).mp hp
    have hnone := h st hlo hhi
    rw [entryAt, OrdMap.lookup_eq_some.mpr he] at hnone
    cases hnone

/-- A hint at an entry is as good as any before it. -/
theorem lookupAsOf_hint {k v : Nat} (hk : ix.lookup (tiEncodeKey lid k isRel) = some v)
    (hfit : k < 2 ^ 32) (hle : hint ≤ k) (hvt : k ≤ vt % 2 ^ 32) :
    lookupAsOf ix lid vt hint isRel = lookupAsOf ix lid vt k isRel := by
  have hmem := OrdMap.lookup_eq_some.mp hk
  have hkey : tiEncodeKey lid hint isRel ≤ tiEncodeKey lid k isRel := by
    simp only [tiEncodeKey]
    omega
  have hkvt : tiEncodeKey lid k isRel ≤ tiEncodeKey lid vt isRel := by
    simp only [tiEncodeKey]
    omega
  simp only [lookupAsOf, OrdMap.scan, List.filter_filter]
  refine congrArg _ (Option.ext fun e => ?_)
  obtain ⟨a, w⟩ := e
  simp only [OrdMap.last_eq, Bool.and_eq_true, decide_eq_true_eq, beq_iff_eq]
  constructor
  · rintro ⟨hin, ⟨hd, hlo, hhi⟩, hmax⟩
    have hlt : tiDecodeLid a < 2 ^ 31 := Nat.mod_lt _ (by decide)
    have hge := hmax _ hmem (by rw [tiDecodeLid_encode]; omega)
    exact ⟨hin, ⟨hd, hge, hhi⟩, fun e he hp => hmax e he ⟨hp.1, by omega, hp.2.2⟩⟩
  · rintro ⟨hin, ⟨hd, hlo, hhi⟩, hmax⟩
    refine ⟨hin, ⟨hd, by omega, hhi⟩, fun e he hp => ?_⟩
    by_cases hge : tiEncodeKey lid k isRel ≤ e.1
    · exact hmax e he ⟨hp.1, hge, hp.2.2⟩
    · change e.1 ≤ a
      omega

/-- What a search finds is in the index, in the partition it was made for. -/
theorem lookupAsOf_mem {ty payload : Nat}
    (h : lookupAsOf ix lid vt hint isRel = some (ty, payload)) :
    ∃ e ∈ ix.entries, tiDecodeType e.2 = ty ∧ tiDecodePayload e.2 = payload ∧
      (e.1 / 2 ^ 63 ≠ 0 ↔ isRel = true) := by
  simp only [lookupAsOf, OrdMap.scan, List.filter_filter, Option.map_eq_some_iff] at h
  obtain ⟨⟨k, v⟩, hlast, heq⟩ := h
  obtain ⟨hin, hp, -⟩ := OrdMap.last_eq.mp hlast
  simp only [Bool.and_eq_true, decide_eq_true_eq] at hp
  refine ⟨(k, v), hin, congrArg Prod.fst heq, congrArg Prod.snd heq, ?_⟩
  obtain ⟨-, hlo, hhi⟩ := hp
  simp only [tiEncodeKey] at hlo hhi
  cases isRel with
  | false =>
      simp only [Bool.false_eq_true, ↓reduceIte, iff_false, not_not] at hlo hhi ⊢
      omega
  | true =>
      simp only [↓reduceIte, iff_true] at hlo hhi ⊢
      omega

/-! ## Changes -/

theorem entryAt_insertVersion_self {payload : Nat} {ty : PtrType} :
    entryAt (insertVersion ix lid vt ty payload isRel) lid vt isRel =
      some (ty.code, tiDecodePayload (tiEncodeVal ty payload)) := by
  rw [entryAt, insertVersion, OrdMap.lookup_insert, if_pos rfl, Option.map_some,
    tiDecodeType_encode]

/-- The entry of a version that was inserted. -/
theorem entryAt_insertVersion {lid' vt' payload : Nat} {isRel' : Bool} {ty : PtrType}
    (hl : lid < 2 ^ 31) (hv : vt < 2 ^ 32) (hl' : lid' < 2 ^ 31) (hv' : vt' < 2 ^ 32) :
    entryAt (insertVersion ix lid' vt' ty payload isRel') lid vt isRel =
      if lid = lid' ∧ vt = vt' ∧ isRel = isRel' then
        some (ty.code, tiDecodePayload (tiEncodeVal ty payload))
      else entryAt ix lid vt isRel := by
  simp only [entryAt, insertVersion, OrdMap.lookup_insert]
  split
  · next h =>
    rw [if_pos (tiEncodeKey_inj hl hl' hv hv' h), Option.map_some, tiDecodeType_encode]
  · next h =>
    rw [if_neg]
    rintro ⟨rfl, rfl, rfl⟩
    exact h rfl

/-- The entry of a version that was removed. -/
theorem entryAt_removeVersion {lid' vt' : Nat} {isRel' : Bool}
    (hl : lid < 2 ^ 31) (hv : vt < 2 ^ 32) (hl' : lid' < 2 ^ 31) (hv' : vt' < 2 ^ 32) :
    entryAt (removeVersion ix lid' vt' isRel') lid vt isRel =
      if lid = lid' ∧ vt = vt' ∧ isRel = isRel' then none else entryAt ix lid vt isRel := by
  simp only [entryAt, removeVersion, OrdMap.lookup_erase]
  split
  · next h =>
    rw [if_pos (tiEncodeKey_inj hl hl' hv hv' h), Option.map_none]
  · next h =>
    rw [if_neg]
    rintro ⟨rfl, rfl, rfl⟩
    exact h rfl

/-- Entries of the other partition are left alone. -/
theorem entryAt_insert_ne {lid' vt' payload : Nat} {isRel' : Bool} {ty : PtrType}
    (h : isRel' ≠ isRel) : entryAt (insertVersion ix lid' vt' ty payload isRel') lid vt isRel =
      entryAt ix lid vt isRel := by
  rw [entryAt, insertVersion, OrdMap.lookup_insert, if_neg (tiEncodeKey_ne h.symm), entryAt]

theorem entryAt_remove_ne {lid' vt' : Nat} {isRel' : Bool} (h : isRel' ≠ isRel) :
    entryAt (removeVersion ix lid' vt' isRel') lid vt isRel = entryAt ix lid vt isRel := by
  rw [entryAt, removeVersion, OrdMap.lookup_erase, if_neg (tiEncodeKey_ne h.symm), entryAt]

/-! ## History entries -/

/-- An entry of a history record, of a node or of a relationship. -/
def HistEntry (isRel : Bool) (e : Nat × Nat) : Prop :=
  tiDecodeType e.2 = PtrType.hist.code ∧ (e.1 / 2 ^ 63 ≠ 0 ↔ isRel = true)

/-- The entries after an insert are old ones and the new one. -/
theorem mem_insertVersion {ix : OrdMap Nat Nat} {lid vt payload : Nat} {ty : PtrType}
    {isRel : Bool} {e : Nat × Nat} (h : e ∈ (insertVersion ix lid vt ty payload isRel).entries) :
    e = (tiEncodeKey lid vt isRel, tiEncodeVal ty payload) ∨ e ∈ ix.entries :=
  OrdMap.mem_insertEntry h

theorem mem_removeVersion {ix : OrdMap Nat Nat} {lid vt : Nat} {isRel : Bool} {e : Nat × Nat}
    (h : e ∈ (removeVersion ix lid vt isRel).entries) : e ∈ ix.entries :=
  (List.mem_filter.mp h).1

theorem not_histEntry_hot (lid vt id : Nat) (isRel isRel' : Bool) :
    ¬ HistEntry isRel (tiEncodeKey lid vt isRel', tiEncodeVal .hot id) := by
  intro h
  have ht := h.1
  rw [tiDecodeType_encode] at ht
  exact absurd ht (by decide)

/-- An archived version is no entry of the other side. -/
theorem not_histEntry_other (lid vt hist : Nat) (isRel : Bool) :
    ¬ HistEntry (!isRel) (tiEncodeKey lid vt isRel, tiEncodeVal .hist hist) := by
  intro h
  have hp := h.2
  simp only [tiEncodeKey_partition] at hp
  cases isRel with
  | false => simp at hp
  | true => simp at hp

theorem not_histEntry_archived {ix : OrdMap Nat Nat} {lid vt hist : Nat} {isRel : Bool}
    (hix : ∀ e ∈ ix.entries, ¬ HistEntry (!isRel) e) :
    ∀ e ∈ (insertVersion (removeVersion ix lid vt isRel) lid vt .hist hist isRel).entries,
      ¬ HistEntry (!isRel) e := by
  intro e he
  rcases mem_insertVersion he with rfl | he
  · exact not_histEntry_other lid vt hist isRel
  · exact hix e (mem_removeVersion he)

end Poseidon.Temporal
