import Poseidon.Proofs.PagedFiles

/-!
# The pages of a file

Bitset, page counter and pages of a file say together which pages there are
and what they hold (`content`). Each call changes this map the way its name
says, and the three ways to look at a file (the search for a free page, the
search for the last page and the scan) agree with it.

The page counter never falls, so a run that ends below the capacity of the
bitset has been below it all the time.
-/

namespace Poseidon

open Wp

namespace PagedFile

variable {P : Type} {f g : PagedFile P} {zero pg : P} {raw : Nat}

/-- What is in the page `raw`, when it is in use. -/
def content (f : PagedFile P) (raw : Nat) : Option P :=
  if f.holds raw then some (f.pages (raw - 1)) else none

theorem content_isSome : (f.content raw).isSome = f.holds raw := by
  rw [content]
  cases f.holds raw with
  | true => rfl
  | false => rfl

theorem content_succ (i : Nat) : f.content (i + 1) =
    if i < maxPages ∧ f.slots i = true then some (f.pages i) else none := by
  simp [content, holds]

theorem content_lt (h : (f.content raw).isSome = true) : 0 < raw ∧ raw ≤ f.npages ∧ raw ≤
    maxPages := by
  cases raw with
  | zero => cases h
  | succ i =>
      rw [content_succ] at h
      split at h
      · next hi =>
          have hlt := f.used_lt i hi.2
          omega
      · cases h

theorem content_eq_some : f.content raw = some pg ↔ f.holds raw = true ∧
    f.pages (raw - 1) = pg := by
  rw [content]
  cases f.holds raw with
  | true => simp
  | false => simp

/-- Two files that differ in page `i` at most. -/
theorem content_update {i : Nat} {x : Option P} (hi : g.content (i + 1) = x)
    (hslots : ∀ j, j ≠ i → g.slots j = f.slots j) (hpages : ∀ j, j ≠ i → g.pages j = f.pages j)
    (r : Nat) : g.content r = if r = i + 1 then x else f.content r := by
  split
  · next heq => rw [heq, hi]
  · next hne =>
      cases r with
      | zero => rfl
      | succ j =>
          have hj : j ≠ i := fun h => hne (by rw [h])
          rw [content_succ, content_succ, hslots j hj, hpages j hj]

/-! ## The calls -/

/-- A page is allocated that is not in use; this fails only when there is no
bit for it. -/
theorem allocatePage_content {Q : Nat → PagedFile P → Prop} {E : BpErr → PagedFile P → Prop}
    (hok : ∀ raw g, f.content raw = none →
      (∀ r, g.content r = if r = raw then some zero else f.content r) → f.npages ≤ g.npages →
      Q raw g)
    (herr : ∀ g, maxPages ≤ f.npages → (∀ r, g.content r = f.content r) → f.npages ≤ g.npages →
      E .outOfRange g) :
    wp (allocatePage zero) Q E f := by
  simp only [allocatePage, wp_bind, wp_get]
  split
  · next i hi =>
      have hfree : f.slots i = false := by
        have hfound := List.find?_some hi
        simpa using hfound
      have hlt : i < f.npages := List.mem_range.mp (List.mem_of_find?_eq_some hi)
      refine wp_ite (fun hmax => ?_) fun hmax => ?_
      · simp only [wp_bind, wp_set, wp_pure]
        refine hok _ _ ?_ (content_update ?_ ?_ ?_) (Nat.le_refl _)
        · rw [content_succ, hfree, if_neg (by simp)]
        · rw [content_succ, if_pos ⟨hmax, by simp [setUsed]⟩]
          simp [setUsed, writeAt]
        · intro j hj
          simp [setUsed, writeAt, hj]
        · intro j hj
          simp [setUsed, writeAt, hj]
      · exact herr f (by omega) (fun _ => rfl) (Nat.le_refl _)
  · have hfree : f.slots f.npages = false := by
      cases hs : f.slots f.npages with
      | false => rfl
      | true => exact absurd (f.used_lt _ hs) (Nat.lt_irrefl _)
    simp only [wp_bind, wp_set]
    refine wp_ite (fun hmax => ?_) fun hmax => ?_
    · simp only [wp_bind, wp_set, wp_pure]
      refine hok _ _ ?_ (content_update ?_ ?_ ?_) (Nat.le_succ _)
      · rw [content_succ, hfree, if_neg (by simp)]
      · rw [content_succ, if_pos ⟨hmax, by simp [setUsed]⟩]
        simp [setUsed, writeAt, grow]
      · intro j hj
        simp [setUsed, writeAt, grow, hj]
      · intro j hj
        simp [setUsed, writeAt, grow, hj]
    · refine herr _ (by omega) (fun r => ?_) (Nat.le_succ _)
      cases r with
      | zero => rfl
      | succ i =>
          rw [content_succ, content_succ]
          by_cases hi : i = f.npages
          · rw [if_neg (by omega), if_neg (by omega)]
          · simp [writeAt, grow, hi]

/-- `free_page` says whether the page was in use; it fails only when there is
no bit for the page. -/
theorem freePage_content {Q : Bool → PagedFile P → Prop} {E : BpErr → PagedFile P → Prop}
    (hok : ∀ g, (∀ r, g.content r = if r = raw then none else f.content r) → g.npages = f.npages →
      Q (f.content raw).isSome g)
    (herr : maxPages ≤ f.npages → E .outOfRange f) :
    wp (freePage raw) Q E f := by
  have hsame : f.content raw = none → Q false f := by
    intro hnone
    have hq := hok f (fun r => ?_) rfl
    · rwa [hnone] at hq
    · split
      · next heq => rw [heq, hnone]
      · rfl
  simp only [freePage, wp_bind, wp_get]
  refine wp_ite (fun hout => ?_) fun hin => wp_ite (fun hmax => herr (by omega)) fun hmax => ?_
  · refine hsame ?_
    cases hx : f.content raw with
    | none => rfl
    | some x =>
        have hlt := content_lt (show (f.content raw).isSome = true by rw [hx]; rfl)
        omega
  · obtain ⟨i, rfl⟩ : ∃ i, raw = i + 1 := ⟨raw - 1, by omega⟩
    simp only [Nat.add_sub_cancel] at hmax ⊢
    refine wp_ite (fun hs => ?_) fun hs => ?_
    · have hsome : (f.content (i + 1)).isSome = true := by
        rw [content_succ, if_pos ⟨by omega, hs⟩]
        rfl
      simp only [wp_bind, wp_set, wp_pure]
      have hq := hok (f.setUnused i) (content_update ?_ ?_ ?_) rfl
      · rwa [hsome] at hq
      · rw [content_succ]
        simp [setUnused]
      · intro j hj
        simp [setUnused, hj]
      · intro j hj
        rfl
    · refine hsame ?_
      rw [content_succ, if_neg fun h => hs h.2]

theorem readPage_content {Q : P → PagedFile P → Prop} {E : BpErr → PagedFile P → Prop}
    (hok : ∀ pg, f.content raw = some pg → Q pg f) (herr : f.content raw = none → ∀ e, E e f) :
    wp (readPage raw) Q E f := by
  refine readPage_wp (fun hh => hok _ ?_) fun hh e _ => herr ?_ e
  · rw [content, if_pos hh]
  · rw [content, hh, if_neg (by decide)]

theorem writePage_content {Q : PUnit → PagedFile P → Prop} {E : BpErr → PagedFile P → Prop}
    (hok : ∀ g, (f.content raw).isSome = true →
      (∀ r, g.content r = if r = raw then some pg else f.content r) → g.npages = f.npages → Q ⟨⟩ g)
    (herr : f.content raw = none → ∀ e, E e f) : wp (writePage raw pg) Q E f := by
  refine writePage_wp (fun hh => ?_) fun hh e _ => herr ?_ e
  · have hsome := content_isSome.trans hh
    refine hok _ hsome ?_ rfl
    have hpos := (content_lt hsome).1
    obtain ⟨i, rfl⟩ : ∃ i, raw = i + 1 := ⟨raw - 1, by omega⟩
    rw [content_succ] at hsome
    refine content_update ?_ ?_ ?_
    · split at hsome
      · next hi =>
          rw [content_succ]
          simp [writeAt, hi]
      · cases hsome
    · intro j _
      rfl
    · intro j hj
      simp [writeAt, hj]
  · rw [content, hh, if_neg (by decide)]

theorem content_truncate : f.truncate.content raw = none := by
  simp [content, holds, truncate]

/-- A file is opened as it was closed. -/
theorem content_reopen [Inhabited P] (ftype : Nat) (f : PagedFile P) (r : Nat) :
    (reopen ftype f).content r = f.content r := by
  cases r with
  | zero => rfl
  | succ i =>
      have hslots : (reopen ftype f).slots i = f.slots i := by simp [reopen, openFile, close]
      rw [content_succ, content_succ, hslots]
      split
      · next hi =>
          have hlt := f.used_lt i hi.2
          simp [reopen, openFile, close, hlt]
      · rfl

theorem npages_reopen [Inhabited P] (ftype : Nat) (f : PagedFile P) :
    (reopen ftype f).npages = f.npages := by
  simp [reopen, openFile, close]

/-! ## The scan and the last page -/

/-- The scan from page `i` on reports the pages in use, in order. -/
theorem scanFrom_ok (hmax : f.npages < maxPages) : ∀ {k i : Nat}, i + k = f.npages → ∀ buf,
    ∃ calls buf', f.scanFrom k i buf = .ok calls buf' ∧
      (calls.map Prod.snd).Pairwise (· < ·) ∧
      ∀ raw pg, (pg, raw) ∈ calls ↔ i < raw ∧ f.content raw = some pg := by
  intro k
  induction k with
  | zero =>
      intro i hi buf
      -- the read behind the last page, which is not in use
      have hfree : f.slots i = false := by
        cases hs : f.slots i with
        | false => rfl
        | true => exact absurd (f.used_lt i hs) (by omega)
      have hlt : ¬maxPages ≤ i := by omega
      refine ⟨[], buf, ?_, .nil, fun raw pg => ⟨nofun, fun h => ?_⟩⟩
      · simp [scanFrom, hlt, hfree, pure, EStateM.pure, bind, EStateM.bind, get_apply]
      · have hlt := content_lt (show (f.content raw).isSome = true by rw [h.2]; rfl)
        omega
  | succ k ih =>
      intro i hi buf
      have hlt : ¬maxPages ≤ i := by omega
      obtain ⟨calls, buf', hrun, hsorted, hmem⟩ := ih (i := i + 1) (by omega) (f.pages i)
      have hsplit : ∀ raw pg, i < raw ∧ f.content raw = some pg ↔
          raw = i + 1 ∧ f.content (i + 1) = some pg ∨ i + 1 < raw ∧ f.content raw = some pg := by
        intro raw pg
        constructor
        · intro h
          rcases Nat.lt_or_ge (i + 1) raw with hraw | hraw
          · exact .inr ⟨hraw, h.2⟩
          · have heq : raw = i + 1 := by omega
            exact .inl ⟨heq, heq ▸ h.2⟩
        · intro h
          rcases h with h | h
          · exact ⟨by omega, h.1 ▸ h.2⟩
          · exact ⟨by omega, h.2⟩
      refine ⟨if f.slots i then (f.pages i, i + 1) :: calls else calls, buf', ?_, ?_, ?_⟩
      · simp [scanFrom, hlt, hrun, pure, EStateM.pure, bind, EStateM.bind, set_apply]
      · split
        · refine List.pairwise_cons.mpr ⟨fun raw hraw => ?_, hsorted⟩
          obtain ⟨⟨pg, raw⟩, hin, rfl⟩ := List.mem_map.mp hraw
          exact ((hmem raw pg).mp hin).1
        · exact hsorted
      · intro raw pg
        rw [hsplit, content_succ]
        split
        · next hs =>
            rw [List.mem_cons, hmem, if_pos ⟨by omega, hs⟩, Prod.mk.injEq, Option.some.injEq]
            constructor
            · intro h
              exact h.imp_left fun h => ⟨h.2, h.1.symm⟩
            · intro h
              exact h.imp_left fun h => ⟨h.2.symm, h.1⟩
        · next hs =>
            rw [hmem, if_neg fun h => hs h.2]
            simp

theorem lastValidPage_ok (hmax : f.npages ≤ maxPages) (hraw : (f.content raw).isSome = true)
    (hlast : ∀ r, (f.content r).isSome = true → r ≤ raw) :
    lastValidPage zero f = .ok raw f := by
  obtain ⟨hpos, hle, hle'⟩ := content_lt hraw
  obtain ⟨i, rfl⟩ : ∃ i, raw = i + 1 := ⟨raw - 1, by omega⟩
  have hslot : ∀ j, j < maxPages → f.slots j = (f.content (j + 1)).isSome := by
    intro j hj
    rw [content_isSome, holds]
    simp [hj]
  have hlastUsed : f.lastUsed = some i := by
    refine lastUsed_eq (by omega) (by rw [hslot i (by omega), hraw]) fun j hij hj => ?_
    rw [hslot j (by omega)]
    cases hc : (f.content (j + 1)).isSome with
    | false => rfl
    | true =>
        have hle := hlast (j + 1) hc
        omega
  have hnot : ¬maxPages < f.npages := by omega
  simp [lastValidPage, hlastUsed, hnot, pure, EStateM.pure, bind, EStateM.bind, get_apply]

/-! ## Runs -/

/-- The pages that should be there after a call that went well, and what they
should hold. -/
def expect (zero : P) (m : Nat → Option P) : FileOp P → Option Nat → Nat → Option P
  | .allocatePage, some raw => fun r => if r = raw then some zero else m r
  | .freePage raw, _ => fun r => if r = raw then none else m r
  | .writePage raw pg, _ => fun r => if r = raw then (m r).map fun _ => pg else m r
  | .truncate, _ => fun _ => none
  | _, _ => m

variable {ftype : Nat} {m : Nat → Option P}

section

variable [Inhabited P]

/-- A run, with the pages that should be there. A call that throws leaves them
as they are. -/
def trace (ftype : Nat) (zero : P) (f : PagedFile P) (m : Nat → Option P) :
    List (FileOp P) → PagedFile P × (Nat → Option P)
  | [] => (f, m)
  | op :: ops =>
      match call ftype zero op f with
      | .ok r g => trace ftype zero g (expect zero m op r) ops
      | .error _ g => trace ftype zero g m ops

/-- A call does to the pages what is expected of it, and the file does not
get shorter. -/
theorem call_content (ftype : Nat) (zero : P) (op : FileOp P) (h : ∀ r, f.content r = m r) :
    wp (call ftype zero op)
      (fun x g => (∀ r, g.content r = expect zero m op x r) ∧ f.npages ≤ g.npages)
      (fun _ g => (∀ r, g.content r = m r) ∧ f.npages ≤ g.npages) f := by
  cases op with
  | allocatePage =>
      rw [call, wp_map]
      refine allocatePage_content (fun raw g _ hg hn => ⟨fun r => ?_, hn⟩)
        fun g _ hg hn => ⟨fun r => by rw [hg, h], hn⟩
      rw [hg, h]
      rfl
  | freePage raw =>
      rw [call, wp_map]
      refine freePage_content (fun g hg hn => ⟨fun r => ?_, Nat.le_of_eq hn.symm⟩)
        fun _ => ⟨h, Nat.le_refl _⟩
      rw [hg, h]
      rfl
  | writePage raw pg =>
      rw [call, wp_map]
      refine writePage_content (fun g hsome hg hn => ⟨fun r => ?_, Nat.le_of_eq hn.symm⟩)
        fun _ _ => ⟨h, Nat.le_refl _⟩
      rw [hg, h]
      show _ = if r = raw then (m r).map fun _ => pg else m r
      split
      · next heq =>
          rw [h] at hsome
          obtain ⟨x, hx⟩ := Option.isSome_iff_exists.mp hsome
          rw [heq, hx, Option.map_some]
      · rfl
  | truncate =>
      exact ⟨fun r => content_truncate, Nat.le_refl _⟩
  | reopen =>
      exact ⟨fun r => (content_reopen ftype f r).trans (h r), Nat.le_of_eq
        (npages_reopen ftype f).symm⟩

/-- A run does to the pages what is expected of it. -/
theorem trace_content {ops : List (FileOp P)} {m' : Nat → Option P}
    (ht : trace ftype zero f m ops = (g, m')) (h : ∀ r, f.content r = m r) :
    ∀ r, g.content r = m' r := by
  induction ops generalizing f m with
  | nil =>
      cases ht
      exact h
  | cons op ops ih =>
      have hcall := call_content ftype zero op h
      rw [trace] at ht
      cases hr : call ftype zero op f with
      | ok r g' =>
          rw [hr] at ht
          exact ih ht (wp_ok hcall hr).1
      | error e g' =>
          rw [hr] at ht
          exact ih ht (wp_error hcall hr).1

end

/-- Every call does with the pages in `m` what it is for. -/
structure Allocates (zero : P) (f : PagedFile P) (m : Nat → Option P) : Prop where
  allocate : ∃ raw g, allocatePage zero f = .ok raw g ∧ m raw = none ∧
    ∀ r, g.content r = if r = raw then some zero else m r
  free : ∀ raw, ∃ g, freePage raw f = .ok (m raw).isSome g ∧
    ∀ r, g.content r = if r = raw then none else m r
  last : ∀ raw, (m raw).isSome = true → (∀ r, (m r).isSome = true → r ≤ raw) →
    lastValidPage zero f = .ok raw f
  read : ∀ raw pg, readPage raw f = .ok pg f ↔ m raw = some pg
  fails : ∀ raw, m raw = none → ∃ e, readPage raw f = .error e f
  scan : ∀ buf, ∃ calls buf', f.scanPages buf = .ok calls buf' ∧
    (calls.map Prod.snd).Pairwise (· < ·) ∧ ∀ raw pg, (pg, raw) ∈ calls ↔ m raw = some pg

/-- A file whose pages are those in `m`, below the capacity of the bitset. -/
theorem allocates_of_content (h : ∀ r, f.content r = m r) (hmax : f.npages < maxPages) :
    Allocates zero f m where
  allocate := by
    have hwp : wp (allocatePage zero) (fun raw g => f.content raw = none ∧
        ∀ r, g.content r = if r = raw then some zero else f.content r) (fun _ _ => False) f :=
      allocatePage_content (fun raw g hnone hg _ => ⟨hnone, hg⟩) fun g hle _ _ => by omega
    cases hr : allocatePage zero f with
    | ok raw g =>
        obtain ⟨hnone, hg⟩ := wp_ok hwp hr
        exact ⟨raw, g, rfl, by rw [← h, hnone], fun r => by rw [hg, h]⟩
    | error e g => exact (wp_error hwp hr).elim
  free raw := by
    have hwp : wp (freePage raw) (fun b g => b = (f.content raw).isSome ∧
        ∀ r, g.content r = if r = raw then none else f.content r) (fun _ _ => False) f :=
      freePage_content (fun g hg _ => ⟨rfl, hg⟩) fun hle => by omega
    cases hr : freePage raw f with
    | ok b g =>
        obtain ⟨hb, hg⟩ := wp_ok hwp hr
        exact ⟨g, by rw [hb, h], fun r => by rw [hg, h]⟩
    | error e g => exact (wp_error hwp hr).elim
  last raw hraw hlast := by
    refine lastValidPage_ok (Nat.le_of_lt hmax) (by rw [h, hraw]) fun r hr => hlast r ?_
    rw [← h, hr]
  read raw pg := by
    have hwp : wp (readPage raw) (fun pg g => f.content raw = some pg ∧ g = f)
        (fun _ _ => f.content raw = none) f :=
      readPage_content (fun pg hpg => ⟨hpg, rfl⟩) fun hnone _ => hnone
    rw [← h]
    constructor
    · intro hr
      exact (wp_ok hwp hr).1
    · intro hpg
      cases hr : readPage raw f with
      | ok pg' g =>
          obtain ⟨hpg', rfl⟩ := wp_ok hwp hr
          rw [hpg, Option.some.injEq] at hpg'
          rw [hpg']
      | error e g =>
          have hnone := wp_error hwp hr
          rw [hpg] at hnone
          cases hnone
  fails raw hnone := by
    have hwp : wp (readPage raw) (fun _ _ => False) (fun _ g => g = f) f := by
      refine readPage_wp (fun hh => ?_) fun _ _ _ => rfl
      rw [← h, content, if_pos hh] at hnone
      cases hnone
    cases hr : readPage raw f with
    | ok pg g => exact (wp_ok hwp hr).elim
    | error e g => exact ⟨e, by rw [wp_error hwp hr]⟩
  scan buf := by
    obtain ⟨calls, buf', hrun, hsorted, hmem⟩ := scanFrom_ok hmax (Nat.zero_add _) buf
    refine ⟨calls, buf', hrun, hsorted, fun raw pg => ?_⟩
    rw [hmem, h, and_iff_right_iff_imp]
    intro hm
    have hlt := content_lt (show (f.content raw).isSome = true by rw [h, hm]; rfl)
    exact hlt.1

/-- After every run from a new file, as long as the file has fewer pages than
the bitset has bits, pages are allocated, freed, found, read and scanned as
the calls of the run left them. -/
theorem runs_allocate_pages [Inhabited P] (ftype : Nat) (zero : P) (ops : List (FileOp P))
    (created : PagedFile P) (hnew : openFile ftype none = some created)
    (f : PagedFile P) (m : Nat → Option P)
    (hrun : trace ftype zero created (fun _ => none) ops = (f, m))
    (hmax : f.npages < maxPages) : Allocates zero f m := by
  refine allocates_of_content (trace_content hrun fun r => ?_) hmax
  cases hnew
  cases r with
  | zero => rfl
  | succ i => rw [content_succ, if_neg (by simp)]

end PagedFile

/-- A file with a hole in the middle that was closed and opened again. -/
theorem runs_allocate_pages_reopened : ∃ (created f : PagedFile Nat) (m : Nat → Option Nat),
    PagedFile.openFile 0 none = some created ∧
    PagedFile.trace 0 0 created (fun _ => none)
      [.allocatePage, .allocatePage, .allocatePage, .writePage 3 7, .freePage 2, .reopen] = (f, m) ∧
    f.npages < maxPages ∧ m 2 = none ∧ m 3 = some 7 ∧ PagedFile.Allocates 0 f m :=
  ⟨_, _, _, rfl, rfl, by decide, rfl, rfl,
    PagedFile.runs_allocate_pages 0 0
      [.allocatePage, .allocatePage, .allocatePage, .writePage 3 7, .freePage 2, .reopen]
      _ rfl _ _ rfl (by decide)⟩

end Poseidon
