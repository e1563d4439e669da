import Poseidon.Proofs.Chunks
import Poseidon.Proofs.PagedFiles
import Poseidon.Vec.BufferedVec

/-!
# The record vector over a file, seen as a map

What the vector holds at an index depends on the pages in use alone. In a
page that is in use `store_at` and `erase` change the map at their index, and
they refuse all other indices; this needs no invariant of the vector.
-/

namespace Poseidon

open Wp

variable {α : Type}

namespace BufVec

variable {n k : Nat} {v v' : BufVec α} {c : Chunk α} {o : α}

/-- The chunks by number. -/
def tab (v : BufVec α) (k : Nat) : Option (Chunk α) :=
  if v.file.holds (k + 1) then some (v.file.pages k) else none

theorem holds_writeAt (f : PagedFile (Chunk α)) (raw : Nat) :
    (f.writeAt k c).holds raw = f.holds raw :=
  rfl

theorem tab_of_holds (hk : v.file.holds (k + 1) = true) : v.tab k = some (v.file.pages k) :=
  if_pos hk

/-- Replacing a chunk in its page. -/
theorem tab_replace (hk : v.file.holds (k + 1) = true) (hfile : v'.file = v.file.writeAt k c) :
    v'.tab = fun i => if i = k then some c else v.tab i := by
  funext i
  simp only [tab, hfile, holds_writeAt]
  by_cases hi : i = k
  · rw [if_pos hi, hi, if_pos hk]
    simp [PagedFile.writeAt]
  · rw [if_neg hi]
    simp [PagedFile.writeAt, hi]

section

variable {β : Type} {Q : β → BufVec α → Prop} {E : VecErr → BufVec α → Prop}

@[simp] theorem wp_onFile {x : PagedFile.M (Chunk α) β} :
    wp (onFile x) Q E v ↔ wp x (fun b f => Q b { v with file := f })
      (fun e f => E (fileErr e) { v with file := f }) v.file := by
  simp only [wp, onFile]
  cases x v.file with
  | ok b f => rfl
  | error e f => rfl

theorem setFree_wp {i : Nat} {b : Bool} {Q : PUnit → BufVec α → Prop}
    (hok : i < maxPages →
      Q ⟨⟩ { v with freelist := fun j => if j = i then b else v.freelist j })
    (herr : ¬i < maxPages → E .outOfRange v) : wp (setFree i b) Q E v := by
  rw [setFree]
  exact wp_ite hok herr

theorem findChunk_wp {idx : Nat} {Q : Nat × Chunk α → BufVec α → Prop}
    (hok : v.file.holds (idx / n + 1) = true → Q (idx / n + 1, v.file.pages (idx / n)) v)
    (herr : v.file.holds (idx / n + 1) = false → ∀ e, E e v) : wp (findChunk n idx) Q E v := by
  simp only [findChunk, wp_bind, wp_onFile]
  exact PagedFile.readPage_wp hok fun hno e _ => herr hno _

end

/-- What the vector holds at an index. -/
def view (n : Nat) (v : BufVec α) (idx : Nat) : Option α :=
  match at_ n idx v with
  | .ok o _ => some o
  | .error _ _ => none

theorem view_eq (v : BufVec α) (j : Nat) : v.view n j = chunkView n v.tab j := by
  have hat : wp (at_ n j) (fun o _ => chunkView n v.tab j = some o)
      (fun _ _ => chunkView n v.tab j = none) v := by
    simp only [at_, wp_bind]
    refine findChunk_wp (fun hh => ?_) fun hh _ => ?_
    · have hview : chunkView n v.tab j = if (v.file.pages (j / n)).slots (j % n) then
          some ((v.file.pages (j / n)).data (j % n)) else none := by
        rw [chunkView, tab_of_holds hh, Option.bind_some]
      rw [hview]
      refine wp_ite (fun hs => ?_) fun hs => ?_
      · exact if_pos hs
      · exact if_neg hs
    · rw [chunkView, tab, hh]
      rfl
  rw [view]
  split
  · next hres => exact (wp_ok hat hres).symm
  · next hres => exact (wp_error hat hres).symm

/-- The view after a record has been put in a page. -/
theorem view_put (hk : v.file.holds (k + 1) = true) {pos : Nat} (hpos : pos < n)
    (hfile : v'.file = v.file.writeAt k (((v.file.pages k).put pos o).set n pos true)) (j : Nat) :
    v'.view n j = if j = k * n + pos then some o else v.view n j := by
  rw [view_eq, view_eq, tab_replace hk hfile, chunkView_put (tab_of_holds hk) hpos]

theorem view_erase (hk : v.file.holds (k + 1) = true) {pos : Nat} (hpos : pos < n)
    (hfile : v'.file = v.file.writeAt k ((v.file.pages k).set n pos false)) (j : Nat) :
    v'.view n j = if j = k * n + pos then none else v.view n j := by
  rw [view_eq, view_eq, tab_replace hk hfile, chunkView_erase (tab_of_holds hk) hpos]

/-- A page in use has a bit. -/
theorem lt_maxPages (hk : v.file.holds (k + 1) = true) : k < maxPages := by
  simp only [PagedFile.holds, Nat.add_sub_cancel, Bool.and_eq_true, decide_eq_true_iff] at hk
  exact hk.1.2

section

variable (hn : 0 < n)
include hn

theorem div_mod_lt (idx : Nat) : idx / n * n + idx % n = idx ∧ idx % n < n := by
  refine ⟨?_, Nat.mod_lt idx hn⟩
  rw [Nat.mul_comm]
  exact Nat.div_add_mod idx n

/-- The vector with a chunk replaced; a bit of the free list may have gone. -/
structure Replaced (v v' : BufVec α) (k : Nat) (c : Chunk α) : Prop where
  file : v'.file = v.file.writeAt k c
  freelist : ∀ i, v'.freelist i = true → v.freelist i = true
  capacity : v'.capacity = v.capacity

omit hn in
/-- `store_at` stores in a page that is in use. -/
theorem storeAt_wp (v : BufVec α) (idx : Nat) (o : α) :
    wp (storeAt n idx o)
      (fun _ v' => v.file.holds (idx / n + 1) = true ∧
        Replaced v v' (idx / n) (((v.file.pages (idx / n)).put (idx % n) o).set n (idx % n) true))
      (fun _ v' => v.file.holds (idx / n + 1) = false ∧ v' = v) v := by
  simp only [storeAt, wp_bind]
  refine findChunk_wp (fun hh => ?_) fun hh _ => ⟨hh, rfl⟩
  have hmax := lt_maxPages hh
  have hset : (((v.file.pages (idx / n)).put (idx % n) o).set n (idx % n) true).slots (idx % n) =
      true := by
    simp [Chunk.set]
  simp only [putChunk, wp_modify, Nat.add_sub_cancel, hset, Bool.true_eq_false, if_false]
  refine wp_ite (fun _ => ?_) fun _ => ⟨hh, rfl, fun i hi => hi, rfl⟩
  refine setFree_wp (fun _ => ⟨hh, rfl, fun i hi => ?_, rfl⟩) fun hge => absurd hmax hge
  simp only at hi
  split at hi
  · cases hi
  · exact hi

/-- `erase` frees a slot of a page that is in use. -/
theorem erase_wp (v : BufVec α) (idx : Nat) :
    wp (erase n idx)
      (fun _ v' => v.file.holds (idx / n + 1) = true ∧
        Replaced v v' (idx / n) ((v.file.pages (idx / n)).set n (idx % n) false))
      (fun _ v' => v.file.holds (idx / n + 1) = false ∧ v' = v) v := by
  obtain ⟨-, hpos⟩ := div_mod_lt hn idx
  simp only [erase, wp_bind]
  refine findChunk_wp (fun hh => ?_) fun hh _ => ⟨hh, rfl⟩
  have hset : ((v.file.pages (idx / n)).set n (idx % n) false).slots (idx % n) = false := by
    simp [Chunk.set]
  have hnot : ¬((v.file.pages (idx / n)).set n (idx % n) false).isFull n = true := by
    intro hfull
    rw [Chunk.isFull_iff.mp hfull _ hpos] at hset
    cases hset
  simp only [putChunk, wp_modify, Nat.add_sub_cancel, hset, if_neg hnot, Bool.false_eq_true,
    if_false]
  exact ⟨hh, rfl, fun i hi => hi, rfl⟩

/-- The view after `store_at`. -/
theorem view_storeAt {idx : Nat} (hh : v.file.holds (idx / n + 1) = true)
    (hr : Replaced v v' (idx / n) (((v.file.pages (idx / n)).put (idx % n) o).set n (idx % n) true))
    (j : Nat) : v'.view n j = if j = idx then some o else v.view n j := by
  obtain ⟨hidx, hpos⟩ := div_mod_lt hn idx
  rw [view_put hh hpos hr.file, hidx]

/-- The view after `erase`. -/
theorem view_erased {idx : Nat} (hh : v.file.holds (idx / n + 1) = true)
    (hr : Replaced v v' (idx / n) ((v.file.pages (idx / n)).set n (idx % n) false))
    (j : Nat) : v'.view n j = if j = idx then none else v.view n j := by
  obtain ⟨hidx, hpos⟩ := div_mod_lt hn idx
  rw [view_erase hh hpos hr.file, hidx]

end

end BufVec

end Poseidon
