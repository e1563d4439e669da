import Mathlib.Data.List.Induction

/-!
# The newest entry of a key

Entries with a key and a stamp, gathered one after the other: an entry
replaces the one that is there for its key if its stamp is greater. What is
there at the end has the greatest stamp of its key, and if no two entries of a
key have the same stamp, it is the only one that has.
-/

/-- An entry. -/
structure Stamped (κ ν : Type) where
  stamp : Nat
  key : κ
  value : ν

namespace Stamped

variable {κ ν : Type}

/-- The newer one of what is there and an entry. -/
def newer (best : Option (Stamped κ ν)) (e : Stamped κ ν) : Option (Stamped κ ν) :=
  match best with
  | none => some e
  | some b => if b.stamp < e.stamp then some e else some b

/-- What is there for a key after all entries of a list. -/
def newest [DecidableEq κ] (l : List (Stamped κ ν)) (k : κ) : Option (Stamped κ ν) :=
  l.foldl (fun best e => if e.key = k then newer best e else best) none

/-- No two entries of a key have the same stamp. -/
def Distinct (l : List (Stamped κ ν)) : Prop :=
  l.Pairwise fun a b => a.key = b.key → a.stamp ≠ b.stamp

/-- An entry of the list whose stamp no other entry of its key exceeds. -/
def IsNewest (l : List (Stamped κ ν)) (k : κ) (v : ν) : Prop :=
  ∃ e ∈ l, e.key = k ∧ e.value = v ∧ ∀ e' ∈ l, e'.key = k → e'.stamp ≤ e.stamp

variable [DecidableEq κ] {l : List (Stamped κ ν)} {k : κ} {e b : Stamped κ ν}

theorem newest_concat : newest (l ++ [e]) k =
    if e.key = k then newer (newest l k) e else newest l k := by
  rw [newest, List.foldl_append]
  rfl

omit [DecidableEq κ] in
theorem newer_spec (best : Option (Stamped κ ν)) :
    ∃ b, newer best e = some b ∧ (b = e ∨ best = some b) ∧ e.stamp ≤ b.stamp ∧
      ∀ b', best = some b' → b'.stamp ≤ b.stamp := by
  cases best with
  | none => exact ⟨e, rfl, .inl rfl, Nat.le_refl _, fun b' h => by cases h⟩
  | some b =>
      rw [newer]
      split
      · next hlt =>
        refine ⟨e, rfl, .inl rfl, Nat.le_refl _, fun b' h => ?_⟩
        cases h
        omega
      · next hge =>
        refine ⟨b, rfl, .inr rfl, by omega, fun b' h => ?_⟩
        cases h
        exact Nat.le_refl _

/-- What is there is in the list, and nothing in the list is newer. -/
theorem newest_spec (l : List (Stamped κ ν)) (k : κ) :
    (∀ b, newest l k = some b → b ∈ l ∧ b.key = k) ∧
      ∀ e ∈ l, e.key = k → ∃ b, newest l k = some b ∧ e.stamp ≤ b.stamp := by
  induction l using List.reverseRecOn with
  | nil => exact ⟨fun b h => (by cases h), fun e h => (by cases h)⟩
  | append_singleton l x ih =>
      rw [newest_concat]
      obtain ⟨ihmem, ihle⟩ := ih
      split
      · next hk =>
        obtain ⟨b, hb, hor, hxle, hle⟩ := @newer_spec _ _ x (newest l k)
        rw [hb]
        refine ⟨fun b' h => ?_, fun e he hek => ⟨b, rfl, ?_⟩⟩
        · cases h
          rcases hor with rfl | hbest
          · exact ⟨List.mem_concat_self, hk⟩
          · exact ⟨List.mem_append_left _ (ihmem b hbest).1, (ihmem b hbest).2⟩
        · rcases List.mem_append.mp he with he | he
          · obtain ⟨b', hb', hle'⟩ := ihle e he hek
            exact Nat.le_trans hle' (hle b' hb')
          · rw [List.mem_singleton.mp he]
            exact hxle
      · next hk =>
        refine ⟨fun b h => ⟨List.mem_append_left _ (ihmem b h).1, (ihmem b h).2⟩,
          fun e he hek => ?_⟩
        rcases List.mem_append.mp he with he | he
        · exact ihle e he hek
        · rw [List.mem_singleton.mp he] at hek
          exact absurd hek hk

omit [DecidableEq κ] in
theorem Distinct.eq (hd : Distinct l) {a b : Stamped κ ν} (ha : a ∈ l) (hb : b ∈ l)
    (hk : a.key = b.key) (hs : a.stamp = b.stamp) : a = b := by
  induction l with
  | nil => cases ha
  | cons x l ih =>
      obtain ⟨hx, hl⟩ := List.pairwise_cons.mp hd
      rcases List.mem_cons.mp ha with rfl | hal
      · rcases List.mem_cons.mp hb with rfl | hbl
        · rfl
        · exact absurd hs (hx b hbl hk)
      · rcases List.mem_cons.mp hb with rfl | hbl
        · exact absurd hs.symm (hx a hal hk.symm)
        · exact ih hl hal hbl

/-- The entry that is there is the newest one. -/
theorem newest_iff (hd : Distinct l) {v : ν} :
    (newest l k).map Stamped.value = some v ↔ IsNewest l k v := by
  obtain ⟨hmem, hle⟩ := newest_spec l k
  constructor
  · intro h
    obtain ⟨b, hb, rfl⟩ := Option.map_eq_some_iff.mp h
    refine ⟨b, (hmem b hb).1, (hmem b hb).2, rfl, fun e he hek => ?_⟩
    obtain ⟨b', hb', hle'⟩ := hle e he hek
    rw [hb] at hb'
    cases hb'
    exact hle'
  · rintro ⟨e, he, hek, rfl, hmax⟩
    obtain ⟨b, hb, hle'⟩ := hle e he hek
    have hge := hmax b (hmem b hb).1 (hmem b hb).2
    rw [hb, hd.eq (hmem b hb).1 he ((hmem b hb).2.trans hek.symm) (by omega)]
    rfl

end Stamped
