import Poseidon.Lib.Along
import Poseidon.Proofs.BufView

/-!
# When the record vector over a file is a map

The pages in use are always the first pages of the file: a page is allocated
where the first one is missing, and only `clear` gives pages up, all at once.
`clear` does not shorten the file, though, and `append` and `store` compute
the index of a record from the length of the file, so they are right only
about its last page.

`store_at` and `erase` test the slot after they have changed it. The counter
of free slots and the bitset of pages with free slots are therefore never
updated there, and what is left to rely on is little: a page whose bit is set
is in use, and a vector without pages has no free slots.
-/

namespace Poseidon

open Wp

variable {α : Type}

namespace BufVec

variable {n u k : Nat} {v v' : BufVec α} {c : Chunk α} {o : α}

/-- The first `u` pages are the chunks, and free space is in them. -/
structure Ok (n u : Nat) (v : BufVec α) : Prop where
  packed : v.file.Packed u
  chunk : ∀ k, k < u → (v.file.pages k).Ok n
  listed : ∀ i, v.freelist i = true → i < u
  start : u = 0 → v.available = 0

theorem Ok.tab_eq (h : v.Ok n u) (k : Nat) :
    v.tab k = if k < u then some (v.file.pages k) else none := by
  rw [tab]
  simp only [h.packed.holds_iff]

/-- Replacing a chunk in its page. -/
theorem Ok.replace (h : v.Ok n u) (hk : k < u) (hc : c.Ok n) (hfile : v'.file = v.file.writeAt k c)
    (hfree : ∀ i, v'.freelist i = true → v.freelist i = true) : v'.Ok n u := by
  refine ⟨?_, ?_, fun i hi => h.listed i (hfree i hi), by omega⟩
  · rw [hfile]
    exact h.packed.writeAt k c
  · intro i hi
    rw [hfile]
    simp only [PagedFile.writeAt]
    split
    · exact hc
    · exact h.chunk i hi

theorem Ok.view_free (h : v.Ok n u) (hk : k < u) (hfull : (v.file.pages k).isFull n = false) :
    v.view n (k * n + (v.file.pages k).first) = none := by
  obtain ⟨hlt, hfree⟩ := (h.chunk k hk).first_lt hfull
  have hc := tab_of_holds ((h.packed.holds_iff k).mpr hk)
  rw [view_eq, chunkView_slot hc hlt, hfree]
  rfl

/-- Vectors with the same chunks hold the same. -/
theorem Ok.view_congr (h : v.Ok n u) (h' : v'.Ok n u)
    (hpages : ∀ k, k < u → v'.file.pages k = v.file.pages k) (j : Nat) :
    v'.view n j = v.view n j := by
  have htab : v'.tab = v.tab := by
    funext i
    rw [h'.tab_eq, h.tab_eq]
    split
    · next hi => rw [hpages i hi]
    · rfl
  rw [view_eq, view_eq, htab]

/-! ## The calls that work -/

section

variable (hn : 0 < n)
include hn

/-- `store_at` stores at its index. -/
theorem Ok.storeAt_wp (h : v.Ok n u) (idx : Nat) (o : α) :
    wp (storeAt n idx o)
      (fun _ v' => v.file.holds (idx / n + 1) = true ∧ v'.Ok n u ∧
        ∀ j, v'.view n j = if j = idx then some o else v.view n j)
      (fun _ v' => v.file.holds (idx / n + 1) = false ∧ v' = v) v := by
  refine wp_mono (BufVec.storeAt_wp v idx o) (fun _ v' hp => ?_) fun _ _ hp => hp
  obtain ⟨hh, hr⟩ := hp
  have hlt := (h.packed.holds_iff _).mp hh
  have hch := ((h.chunk _ hlt).put (idx % n) o).set (Nat.mod_lt idx hn) true
  exact ⟨hh, h.replace hlt hch hr.file hr.freelist, view_storeAt hn hh hr⟩

/-- `erase` frees its index. -/
theorem Ok.erase_wp (h : v.Ok n u) (idx : Nat) :
    wp (erase n idx)
      (fun _ v' => v.file.holds (idx / n + 1) = true ∧ v'.Ok n u ∧
        ∀ j, v'.view n j = if j = idx then none else v.view n j)
      (fun _ v' => v.file.holds (idx / n + 1) = false ∧ v' = v) v := by
  refine wp_mono (BufVec.erase_wp hn v idx) (fun _ v' hp => ?_) fun _ _ hp => hp
  obtain ⟨hh, hr⟩ := hp
  have hlt := (h.packed.holds_iff _).mp hh
  have hch := (h.chunk _ hlt).set (Nat.mod_lt idx hn) false
  exact ⟨hh, h.replace hlt hch hr.file hr.freelist, view_erased hn hh hr⟩

/-! ## Storing in a page -/

/-- A call has stored a record at an index that was free. -/
def Added (n : Nat) (v v' : BufVec α) (o : α) (i : Nat) : Prop :=
  v.view n i = none ∧ ∀ j, v'.view n j = if j = i then some o else v.view n j

omit hn in
/-- A full chunk refuses the record. -/
theorem storeIn_full (h : v.Ok n u) (hk : k < u)
    (hfull : (v.file.pages k).isFull n = true) (o : α) :
    wp (storeIn n (k + 1) (v.file.pages k) o) (fun _ _ => False) (fun _ v' => v'.Ok n u) v := by
  simp only [storeIn, wp_bind, wp_get, wp_set, (h.chunk k hk).firstAvailable, if_pos hfull]
  exact ⟨h.packed, h.chunk, h.listed, by omega⟩

/-- The record is where `storeIn` says exactly when the page is the last one
of the file. -/
theorem storeIn_wp (h : v.Ok n u) (hk : k < u) (hfull : (v.file.pages k).isFull n = false) (o : α) :
    wp (storeIn n (k + 1) (v.file.pages k) o)
      (fun i v' => v'.Ok n u ∧ i / n + 1 = v.file.npages ∧
        (Added n v v' o i ↔ k + 1 = v.file.npages))
      (fun _ v' => v'.Ok n u ∧ k + 1 ≠ v.file.npages) v := by
  have hle := h.packed.le_npages
  have hmax := h.packed.le
  have hch := h.chunk k hk
  obtain ⟨hlt, -⟩ := hch.first_lt hfull
  have hnot : ¬(v.file.pages k).isFull n = true := by
    rw [hfull]
    simp
  obtain ⟨hdiv, -⟩ := (index_eq_iff (k := v.file.npages - 1) hlt _).mpr rfl
  have hkeep : ∀ w : BufVec α, w.file = v.file.writeAt k
      (((v.file.pages k).put (v.file.pages k).first o).set n (v.file.pages k).first true) →
      (∀ i, w.freelist i = true → v.freelist i = true) →
      w.Ok n u ∧ ∀ j, w.view n j =
        if j = k * n + (v.file.pages k).first then some o else v.view n j := by
    intro w hfile hfree
    have hok := h.replace hk ((hch.put _ o).set hlt true) hfile hfree
    exact ⟨hok, view_put ((h.packed.holds_iff k).mpr hk) hlt hfile⟩
  have hend : ∀ w : BufVec α, w.file = v.file.writeAt k
      (((v.file.pages k).put (v.file.pages k).first o).set n (v.file.pages k).first true) →
      (∀ i, w.freelist i = true → v.freelist i = true) →
      w.Ok n u ∧ ((v.file.npages - 1) * n + (v.file.pages k).first) / n + 1 = v.file.npages ∧
        (Added n v w o ((v.file.npages - 1) * n + (v.file.pages k).first) ↔
          k + 1 = v.file.npages) := by
    intro w hfile hfree
    obtain ⟨hok, hview⟩ := hkeep w hfile hfree
    refine ⟨hok, by omega, ?_, ?_⟩
    · rintro ⟨hnone, hadd⟩
      have hat := hadd ((v.file.npages - 1) * n + (v.file.pages k).first)
      rw [if_pos rfl, hview] at hat
      split at hat
      · next heq =>
          have hkk : k = v.file.npages - 1 := by
            obtain ⟨hdiv', -⟩ := (index_eq_iff hlt _).mpr heq
            omega
          omega
      · rw [hnone] at hat
        cases hat
    · intro heq
      have hkk : v.file.npages - 1 = k := by omega
      rw [hkk]
      exact ⟨h.view_free hk hfull, hview⟩
  simp only [storeIn, wp_bind, wp_get, wp_set, hch.firstAvailable, if_neg hnot, putChunk, wp_modify,
    Nat.add_sub_cancel]
  refine wp_ite (fun _ => ?_) fun _ => hend _ rfl fun i hi => hi
  rw [wp_bind]
  refine setFree_wp (fun _ => hend _ rfl fun i hi => ?_) fun hge => ?_
  · simp only at hi
    split at hi
    · cases hi
    · exact hi
  · rw [Nat.mul_div_cancel _ hn] at hge
    refine ⟨(hkeep _ ?_ ?_).1, by omega⟩
    · rfl
    · exact fun i hi => hi

/-! ## Growing -/

variable [Inhabited α]

/-- The vector has one page more, which is the last one in use. -/
structure Grown (n u : Nat) (v w : BufVec α) : Prop where
  ok : w.Ok n (u + 1)
  view : ∀ j, w.view n j = v.view n j
  npages : w.file.npages = max v.file.npages (u + 1)
  page : w.file.pages u = Chunk.empty
  lt : u < maxPages

theorem addPage_wp (h : v.Ok n u) :
    wp (addPage n) (fun _ w => Grown n u v w)
      (fun _ w => u = maxPages ∧ w.Ok n u ∧ ∀ j, w.view n j = v.view n j) v := by
  have hdiv : (u + 1) * n - 1 = u * n + (n - 1) := by
    rw [Nat.add_mul]
    omega
  obtain ⟨hdiv', -⟩ := (index_eq_iff (n := n) (k := u) (by omega) _).mpr hdiv
  simp only [addPage, wp_bind, wp_onFile]
  refine h.packed.allocatePage_wp (fun hlt g hg hnp hpages => ?_) fun hmax g hg hpages => ?_
  · simp only [putChunk, wp_modify, Nat.add_sub_cancel, addToFreeList, hdiv']
    refine setFree_wp (fun _ => ?_) fun hge => absurd hlt hge
    have hsame : ∀ k, k < u → g.pages k = v.file.pages k := by
      intro k hk
      rw [hpages]
      exact if_neg (by omega)
    have hok : Ok n (u + 1) { v with
        file := g.writeAt u Chunk.empty
        freelist := fun j => if j = u then true else v.freelist j
        capacity := add64 v.capacity n
        available := add64 v.available n } := by
      refine ⟨hg.writeAt u _, ?_, ?_, by omega⟩
      · intro k hk
        simp only [PagedFile.writeAt]
        by_cases hku : k = u
        · rw [if_pos hku]
          exact Chunk.ok_empty
        · rw [if_neg hku, hsame k (by omega)]
          exact h.chunk k (by omega)
      · intro i hi
        simp only at hi
        split at hi
        · omega
        · have := h.listed i hi
          omega
    refine ⟨hok, fun j => ?_, hnp, by simp [PagedFile.writeAt], hlt⟩
    have hnone : v.tab u = none := by
      rw [h.tab_eq, if_neg (Nat.lt_irrefl u)]
    rw [view_eq, view_eq, ← chunkView_grow hnone]
    congr 1
    funext i
    rw [hok.tab_eq, h.tab_eq]
    simp only [PagedFile.writeAt]
    by_cases hi : i = u
    · rw [if_pos hi, if_pos hi, if_pos (by omega)]
    · rw [if_neg hi, if_neg hi]
      by_cases hlt' : i < u
      · rw [if_pos hlt', if_pos (by omega), hsame i hlt']
      · rw [if_neg hlt', if_neg (by omega)]
  · have hok : Ok n u { v with file := g } := by
      refine ⟨hg, fun k hk => ?_, h.listed, h.start⟩
      rw [hpages k hk]
      exact h.chunk k hk
    exact ⟨hmax, hok, h.view_congr hok hpages⟩

/-- Resizing does not show. -/
theorem addPages_wp (m : Nat) (h : v.Ok n u) :
    always (addPages n m) (fun w => (∃ u', w.Ok n u') ∧ ∀ j, w.view n j = v.view n j) v := by
  induction m generalizing u v with
  | zero => exact ⟨⟨u, h⟩, fun _ => rfl⟩
  | succ m ih =>
      rw [addPages, always, wp_bind]
      refine wp_mono (addPage_wp hn h) (fun _ w hw => ?_) fun _ w hw => ⟨⟨u, hw.2.1⟩, hw.2.2⟩
      exact always_mono (ih hw.ok) fun w' hw' => ⟨hw'.1, fun j => (hw'.2 j).trans (hw.view j)⟩

theorem resize_one_wp (h : v.Ok n u) {Q : PUnit → BufVec α → Prop} {E : VecErr → BufVec α → Prop}
    (hok : ∀ w, Grown n u v w → Q ⟨⟩ w)
    (herr : ∀ e w, u = maxPages → w.Ok n u → E e w) : wp (resize n 1) Q E v := by
  show wp (addPage n >>= fun _ => pure ⟨⟩) Q E v
  rw [wp_bind]
  exact wp_mono (addPage_wp hn h) (fun _ w hw => hok w hw) fun e w hw => herr e w hw.1 hw.2.1

omit hn in
theorem getLastChunk_wp (h : v.Ok n (u + 1)) {Q : Nat × Chunk α → BufVec α → Prop}
    {E : VecErr → BufVec α → Prop} (hok : v.file.npages ≤ maxPages → Q (u + 1, v.file.pages u) v)
    (herr : maxPages < v.file.npages → E .outOfRange v) : wp getLastChunk Q E v := by
  simp only [getLastChunk, wp_bind, wp_onFile]
  refine h.packed.lastValidPage_wp (fun hle => ?_) herr
  exact h.packed.readPage_wp (fun _ => hok hle) fun hno => absurd (Nat.lt_succ_self u) hno

theorem empty_not_full : (Chunk.empty : Chunk α).isFull n = false := by
  rw [Bool.eq_false_iff]
  intro hfull
  have := Chunk.isFull_iff.mp hfull 0 hn
  cases this

/-- One more page can be allocated, and it is the last one of the file. -/
def CanGrow (v : BufVec α) : Prop :=
  v.file.npages ≤ v.file.nextPage + 1 ∧ v.file.nextPage < maxPages

omit hn [Inhabited α] in
theorem Ok.canGrow_iff (h : v.Ok n u) : v.CanGrow ↔ v.file.npages ≤ u + 1 ∧ u < maxPages := by
  rw [CanGrow, h.packed.nextPage]

/-- What becomes of a record that goes to a new page. -/
theorem Grown.storeIn_wp {w : BufVec α} (h : v.Ok n u) (hg : Grown n u v w) (o : α) :
    wp (storeIn n (u + 1) (w.file.pages u) o)
      (fun i w' => (∃ u', w'.Ok n u') ∧ (Added n v w' o i ↔ v.CanGrow) ∧ (v.CanGrow → i / n = u))
      (fun _ w' => (∃ u', w'.Ok n u') ∧ ¬v.CanGrow) w := by
  have hnp := hg.npages
  have hlt := hg.lt
  have hfull : (w.file.pages u).isFull n = false := by
    rw [hg.page]
    exact empty_not_full hn
  rw [h.canGrow_iff]
  refine wp_mono (BufVec.storeIn_wp hn hg.ok (Nat.lt_succ_self u) hfull o) ?_ ?_
  · rintro i w' ⟨hok, hi, hadd⟩
    have hview : Added n v w' o i ↔ Added n w w' o i := by
      simp only [Added, hg.view]
    refine ⟨⟨_, hok⟩, ?_, by omega⟩
    rw [hview, hadd]
    omega
  · rintro e w' ⟨hok, hne⟩
    exact ⟨⟨_, hok⟩, by omega⟩

/-- The same after the page has been looked up. -/
theorem Grown.last_wp {w : BufVec α} (h : v.Ok n u) (hg : Grown n u v w) (o : α) :
    wp (getLastChunk >>= fun r => storeIn n r.1 r.2 o)
      (fun i w' => (∃ u', w'.Ok n u') ∧ (Added n v w' o i ↔ v.CanGrow) ∧ (v.CanGrow → i / n = u))
      (fun _ w' => (∃ u', w'.Ok n u') ∧ ¬v.CanGrow) w := by
  have hnp := hg.npages
  have hlt := hg.lt
  rw [wp_bind]
  refine getLastChunk_wp hg.ok (fun _ => Grown.storeIn_wp hn h hg o) fun hgt => ?_
  rw [h.canGrow_iff]
  exact ⟨⟨_, hg.ok⟩, by omega⟩

/-- What becomes of a record when the vector has to grow. -/
theorem grow_wp (h : v.Ok n u) (o : α) :
    wp (do
        resize n 1
        let r ← tailChunk n
        storeIn n r.1 r.2 o)
      (fun i v' => (∃ u', v'.Ok n u') ∧ (Added n v v' o i ↔ v.CanGrow) ∧ (v.CanGrow → i / n = u))
      (fun _ v' => (∃ u', v'.Ok n u') ∧ ¬v.CanGrow) v := by
  rw [wp_bind]
  refine resize_one_wp hn h (fun w hg => ?_) fun _ w hmax hok => ?_
  · have hfull : ¬(w.file.pages u).isFull n = true := by
      rw [hg.page, empty_not_full hn]
      simp
    simp only [tailChunk, wp_bind]
    refine getLastChunk_wp hg.ok (fun _ => ?_) fun hgt => ?_
    · rw [if_neg hfull, wp_pure]
      exact hg.storeIn_wp hn h o
    · have hnp := hg.npages
      have hlt := hg.lt
      rw [h.canGrow_iff]
      exact ⟨⟨_, hg.ok⟩, by omega⟩
  · rw [h.canGrow_iff]
    exact ⟨⟨_, hok⟩, by omega⟩

/-! ## The calls that may go wrong -/

/-- The page that `append` takes is the last one of the file. -/
def AppendReady (n : Nat) (v : BufVec α) : Prop :=
  if v.available = 0 ∨ (v.file.pages (v.file.nextPage - 1)).isFull n then v.CanGrow
  else v.file.nextPage = v.file.npages

theorem append_wp (h : v.Ok n u) (o : α) :
    wp (append n o)
      (fun i v' => (∃ u', v'.Ok n u') ∧ (Added n v v' o i ↔ v.AppendReady n))
      (fun _ v' => (∃ u', v'.Ok n u') ∧ ¬v.AppendReady n) v := by
  rw [AppendReady, h.packed.nextPage]
  simp only [append, wp_bind, wp_get]
  refine wp_ite (fun hav => ?_) fun hav => ?_
  · rw [if_pos (.inl hav)]
    exact wp_mono (grow_wp hn h o) (fun i v' hp => ⟨hp.1, hp.2.1⟩) fun _ v' hp => hp
  · obtain ⟨t, rfl⟩ : ∃ t, u = t + 1 := by
      have : u ≠ 0 := fun hu => hav (h.start hu)
      exact ⟨u - 1, by omega⟩
    have hle := h.packed.le_npages
    have hmax := h.packed.le
    simp only [Nat.add_sub_cancel, hav, false_or, tailChunk, wp_bind]
    refine getLastChunk_wp h (fun hnp => ?_) fun hgt => ?_
    · by_cases hfull : (v.file.pages t).isFull n = true
      · rw [if_pos hfull, if_pos hfull, wp_bind]
        refine resize_one_wp hn h (fun w hg => ?_) fun _ w hm hok => ?_
        · have hlast := hg.last_wp hn h o
          rw [wp_bind] at hlast
          exact wp_mono hlast (fun r w' hr => wp_mono hr (fun i v' hp => ⟨hp.1, hp.2.1⟩)
            fun _ _ hp => hp) fun _ _ hp => hp
        · rw [h.canGrow_iff]
          exact ⟨⟨_, hok⟩, by omega⟩
      · rw [if_neg hfull, if_neg hfull, wp_pure]
        refine wp_mono (BufVec.storeIn_wp hn h (Nat.lt_succ_self t) (Bool.eq_false_iff.mpr hfull) o)
          (fun i v' hp => ⟨⟨_, hp.1⟩, hp.2.2⟩) fun _ v' hp => ⟨⟨_, hp.1⟩, hp.2⟩
    · refine ⟨⟨_, h⟩, ?_⟩
      split
      · rw [h.canGrow_iff]
        omega
      · omega

/-- The page that `store` takes is the last one of the file and has a free
slot, and `store` does not grow the vector when it has freed slots. -/
def StoreReady (n : Nat) (v : BufVec α) (freed : Nat → Prop) : Prop :=
  if v.available = 0 then (∀ j, ¬freed j) ∧ v.CanGrow
  else v.findInFreeList = v.file.npages ∧ (v.file.pages (v.file.npages - 1)).isFull n = false

/-- A free slot of a page in use is found before the vector grows. -/
def Reuses (n : Nat) (v : BufVec α) (freed : Nat → Prop) (i : Nat) : Prop :=
  (∃ j, freed j) → v.file.holds (i / n + 1) = true

theorem store_wp (h : v.Ok n u) (freed : Nat → Prop) (o : α) :
    wp (store n o)
      (fun i v' => (∃ u', v'.Ok n u') ∧
        (Added n v v' o i ∧ v.Reuses n freed i ↔ v.StoreReady n freed))
      (fun _ v' => (∃ u', v'.Ok n u') ∧ ¬v.StoreReady n freed) v := by
  rw [StoreReady]
  simp only [store, wp_bind, wp_get]
  refine wp_ite (fun hav => ?_) fun hav => ?_
  · rw [if_pos hav]
    refine wp_mono (grow_wp hn h o) (fun i v' hp => ?_) fun _ v' hp => ⟨hp.1, fun hr => hp.2 hr.2⟩
    obtain ⟨hok, hadd, hi⟩ := hp
    refine ⟨hok, ?_⟩
    rw [hadd]
    constructor
    · rintro ⟨hgrow, hreuse⟩
      refine ⟨fun j hj => ?_, hgrow⟩
      have hhold := (h.packed.holds_iff _).mp (hreuse ⟨j, hj⟩)
      have := hi hgrow
      omega
    · rintro ⟨hno, hgrow⟩
      refine ⟨hgrow, ?_⟩
      rintro ⟨j, hj⟩
      exact absurd hj (hno j)
  · rw [if_neg hav]
    have hu : u ≠ 0 := fun hu => hav (h.start hu)
    have hle := h.packed.le_npages
    rw [findInFreeList]
    cases hfind : (List.range' 0 maxPages).find? v.freelist with
    | none =>
        simp only [loadChunk, wp_bind, wp_get]
        exact ⟨⟨u, h⟩, fun hr => by omega⟩
    | some k =>
        have hk : k < u := h.listed k (List.find?_some hfind)
        have hvalid : v.file.isValid (k + 1) = true := by
          have := (h.packed.holds_iff k).mpr hk
          simp only [PagedFile.isValid, this, Bool.and_true, Bool.and_eq_true, decide_eq_true_iff]
          exact ⟨by simp, by omega⟩
        simp only [loadChunk, wp_bind, wp_get, if_pos hvalid, wp_onFile]
        refine h.packed.readPage_wp (fun _ => ?_) fun hno => absurd hk hno
        rw [wp_pure]
        cases hfull : (v.file.pages k).isFull n with
        | true =>
            refine wp_mono (storeIn_full h hk hfull o) (fun _ _ hf => hf.elim) fun _ v' hok =>
              ⟨⟨u, hok⟩, ?_⟩
            rintro ⟨heq, hnf⟩
            rw [← heq, Nat.add_sub_cancel, hfull] at hnf
            cases hnf
        | false =>
            have hlast : k + 1 = v.file.npages →
                (v.file.pages (v.file.npages - 1)).isFull n = false := by
              intro heq
              rw [← heq, Nat.add_sub_cancel]
              exact hfull
            refine wp_mono (storeIn_wp hn h hk hfull o) (fun i v' hp => ?_) fun _ v' hp =>
              ⟨⟨u, hp.1⟩, fun hr => hp.2 hr.1⟩
            obtain ⟨hok, hi, hadd⟩ := hp
            refine ⟨⟨u, hok⟩, ?_⟩
            rw [hadd]
            constructor
            · rintro ⟨heq, -⟩
              exact ⟨heq, hlast heq⟩
            · rintro ⟨heq, -⟩
              refine ⟨heq, fun _ => (h.packed.holds_iff _).mpr ?_⟩
              omega

end

theorem next_of_always [Inhabited α] {op : BufOp α} {P : BufVec α → Prop}
    (h : always (call n op) P v) :
    P (v.next n op) := by
  rw [next]
  cases hr : call n op v with
  | ok r v' =>
      have hp := wp_ok h hr
      exact hp
  | error e v' =>
      have hp := wp_error h hr
      exact hp

/-- A vector that has been cleared, or is new, holds nothing. -/
theorem ok_clear (v : BufVec α) : v.clear.Ok n 0 where
  packed := ⟨fun i => by simp [clear, PagedFile.truncate], Nat.zero_le _⟩
  chunk := by
    intro k hk
    omega
  listed := by
    intro i hi
    cases hi
  start := fun _ => rfl

theorem view_clear (v : BufVec α) (j : Nat) : v.clear.view n j = none := by
  rw [view_eq, chunkView, (ok_clear (n := n) v).tab_eq]
  rfl

end BufVec

/-! ## Runs -/

/-- A vector with the indices that `erase` has freed and that have not been
used since. -/
structure BufTrace (α : Type) where
  vec : BufVec α
  freed : Nat → Prop

namespace BufTrace

variable [Inhabited α]

def empty : BufTrace α := ⟨.empty, fun _ => False⟩

def next (n : Nat) (t : BufTrace α) (op : BufOp α) : BufTrace α where
  vec := t.vec.next n op
  freed j := (t.vec.next n op).view n j = none ∧
    match op with
    | .vec (.erase _) => t.vec.view n j ≠ none ∨ t.freed j
    | .clear => False
    | _ => t.freed j

/-- What a call should do to the map. -/
def Fulfils (n : Nat) (t : BufTrace α) : BufOp α → Prop
  | .vec (.append o) => ∃ i v', BufVec.append n o t.vec = .ok i v' ∧ BufVec.Added n t.vec v' o i
  | .vec (.store o) => ∃ i v', BufVec.store n o t.vec = .ok i v' ∧ BufVec.Added n t.vec v' o i ∧
      t.vec.Reuses n t.freed i
  | .vec (.storeAt idx o) =>
      if t.vec.file.holds (idx / n + 1) then
        ∃ v', BufVec.storeAt n idx o t.vec = .ok ⟨⟩ v' ∧
          ∀ j, v'.view n j = if j = idx then some o else t.vec.view n j
      else ∃ e, BufVec.storeAt n idx o t.vec = .error e t.vec
  | .vec (.erase idx) =>
      if t.vec.file.holds (idx / n + 1) then
        ∃ v', BufVec.erase n idx t.vec = .ok ⟨⟩ v' ∧
          ∀ j, v'.view n j = if j = idx then none else t.vec.view n j
      else ∃ e, BufVec.erase n idx t.vec = .error e t.vec
  | .vec (.resize m) => ∀ j, (t.vec.next n (.vec (.resize m))).view n j = t.vec.view n j
  | .clear => ∀ j, t.vec.clear.view n j = none
  | .reopen => ∀ j, (t.vec.reopen n).view n j = t.vec.view n j

def Ready (n : Nat) (t : BufTrace α) : BufOp α → Prop
  | .vec (.append _) => t.vec.AppendReady n
  | .vec (.store _) => t.vec.StoreReady n t.freed
  | _ => True

variable {n u : Nat} {t : BufTrace α}

section

variable (hn : 0 < n)
include hn

theorem next_ok (h : t.vec.Ok n u) (op : BufOp α) : ∃ u', (t.next n op).vec.Ok n u' := by
  have hcall : always (BufVec.call n op) (fun v' => ∃ u', v'.Ok n u') t.vec := by
    cases op with
    | vec op =>
        cases op with
        | append o =>
            rw [BufVec.call, always, wp_map]
            exact wp_mono (BufVec.append_wp hn h o) (fun _ _ hs => hs.1) fun _ _ hs => hs.1
        | store o =>
            rw [BufVec.call, always, wp_map]
            exact wp_mono (BufVec.store_wp hn h t.freed o) (fun _ _ hs => hs.1) fun _ _ hs => hs.1
        | storeAt idx o =>
            rw [BufVec.call, always, wp_map]
            exact wp_mono (h.storeAt_wp hn idx o) (fun _ _ hs => ⟨u, hs.2.1⟩)
              fun _ _ hs => ⟨u, by rw [hs.2]; exact h⟩
        | erase idx =>
            rw [BufVec.call, always, wp_map]
            exact wp_mono (h.erase_wp hn idx) (fun _ _ hs => ⟨u, hs.2.1⟩)
              fun _ _ hs => ⟨u, by rw [hs.2]; exact h⟩
        | resize m =>
            rw [BufVec.call, always, wp_map]
            exact always_mono (BufVec.addPages_wp hn m.toNat h) fun _ hs => hs.1
    | clear => exact ⟨0, BufVec.ok_clear t.vec⟩
    | reopen => exact ⟨u, h.packed, h.chunk, h.listed, h.start⟩
  exact BufVec.next_of_always hcall

omit [Inhabited α] hn in
/-- A call that works on the pages in use, and refuses the others. -/
theorem works_or_refuses {x : BufVec.M α PUnit} {idx : Nat} {Q : BufVec α → Prop}
    (hx : wp x (fun _ v' => t.vec.file.holds (idx / n + 1) = true ∧ v'.Ok n u ∧ Q v')
      (fun _ v' => t.vec.file.holds (idx / n + 1) = false ∧ v' = t.vec) t.vec) :
    if t.vec.file.holds (idx / n + 1) then ∃ v', x t.vec = .ok ⟨⟩ v' ∧ Q v'
    else ∃ e, x t.vec = .error e t.vec := by
  cases hh : t.vec.file.holds (idx / n + 1) with
  | true =>
      rw [hh] at hx
      obtain ⟨_, v', hres, hq⟩ := wp_exists (wp_mono hx (fun _ _ hs => hs.2.2) fun _ _ hs =>
        Bool.noConfusion hs.1)
      exact ⟨v', hres, hq⟩
  | false =>
      rw [hh] at hx
      obtain ⟨e, v', hres, rfl⟩ := wp_exists_error (wp_mono hx (fun _ _ hs => Bool.noConfusion hs.1)
        fun _ _ hs => hs.2)
      exact ⟨e, hres⟩

theorem fulfils_iff (h : t.vec.Ok n u) (op : BufOp α) : t.Fulfils n op ↔ t.Ready n op := by
  cases op with
  | vec op =>
      cases op with
      | append o =>
          exact wp_exists_iff (wp_mono (BufVec.append_wp hn h o) (fun _ _ hs => hs.2) fun _ _ hs =>
            hs.2)
      | store o =>
          exact wp_exists_iff (wp_mono (BufVec.store_wp hn h t.freed o) (fun _ _ hs => hs.2)
            fun _ _ hs => hs.2)
      | storeAt idx o =>
          exact iff_of_true (works_or_refuses (h.storeAt_wp hn idx o)) trivial
      | erase idx => exact iff_of_true (works_or_refuses (h.erase_wp hn idx)) trivial
      | resize m =>
          refine iff_of_true ?_ trivial
          have hcall : always (BufVec.call n (.vec (.resize m)))
              (fun w => ∀ j, w.view n j = t.vec.view n j) t.vec := by
            rw [BufVec.call, always, wp_map]
            exact always_mono (BufVec.addPages_wp hn m.toNat h) fun _ hs => hs.2
          exact BufVec.next_of_always hcall
  | clear => exact iff_of_true (fun j => BufVec.view_clear t.vec j) trivial
  | reopen =>
      have hok : (t.vec.reopen n).Ok n u := ⟨h.packed, h.chunk, h.listed, h.start⟩
      exact iff_of_true (fun j => h.view_congr hok (fun _ _ => rfl) j) trivial

end

theorem ok_new : (BufVec.empty : BufVec α).Ok n 0 :=
  BufVec.ok_clear BufVec.empty

end BufTrace

/-- In every run, all calls treat the vector as a map exactly when every
`append` and `store` takes the last page of the file for its record, and every
`store` a page with a free slot. -/
theorem buf_vec_is_map_iff {α : Type} [Inhabited α] (n : Nat) (hn : 0 < n) (ops : List (BufOp α)) :
    Along (BufTrace.next n) (BufTrace.Fulfils n) BufTrace.empty ops ↔
      Along (BufTrace.next n) (BufTrace.Ready n) BufTrace.empty ops := by
  have hinv : ∀ (t : BufTrace α) op, (∃ u, t.vec.Ok n u) → ∃ u, (t.next n op).vec.Ok n u :=
    fun t op ⟨_, h⟩ => BufTrace.next_ok hn h op
  have heq : ∀ (t : BufTrace α) op, (∃ u, t.vec.Ok n u) → (t.Fulfils n op ↔ t.Ready n op) :=
    fun t op ⟨_, h⟩ => BufTrace.fulfils_iff hn h op
  exact along_congr (BufTrace.next n) hinv heq ops BufTrace.empty ⟨0, BufTrace.ok_new⟩

/-- Two records are stored, read back after the file is opened again, and a
third one goes to a page of its own. -/
theorem buf_vec_survives_reopen :
    Along (BufTrace.next 2) (BufTrace.Fulfils 2) BufTrace.empty
      [.vec (.append 1), .vec (.store 2), .reopen, .vec (.append (3 : Nat))] := by
  refine (buf_vec_is_map_iff 2 (by decide) _).mpr ⟨?_, ?_, trivial, ?_, trivial⟩
  · rw [BufTrace.Ready, BufVec.AppendReady, if_pos (by decide)]
    exact ⟨by decide, by decide⟩
  · rw [BufTrace.Ready, BufVec.StoreReady, if_neg (by decide)]
    exact ⟨rfl, by decide⟩
  · rw [BufTrace.Ready, BufVec.AppendReady, if_pos (by decide)]
    exact ⟨by decide, by decide⟩

/-- A slot that is freed in a vector without free slots: `erase` does not count
it, and `store` grows the vector. -/
theorem freed_slot_is_lost :
    ¬Along (BufTrace.next 1) (BufTrace.Fulfils 1) BufTrace.empty
      [.vec (.append 1), .vec (.erase 0), .vec (.store (2 : Nat))] := by
  rintro ⟨-, -, hstore, -⟩
  obtain ⟨i, v', hres, -, hreuse⟩ := hstore
  cases hres
  have hat := hreuse ⟨0, rfl, .inl (by decide)⟩
  cases hat

end Poseidon
