import Poseidon.Proofs.PoolContents

/-!
# Scanning a file through the pool

`scan_file` reads the pages of a file with `scan_pages`, past the pages that
are in the pool. It only takes a slot of the pool, and when there is none
free, the page at the front of the LRU list is evicted first, and written
back. So a scan shows what is in the file, and this is what a fetch shows
exactly when no page of the file but that one differs from the file.
-/

namespace Poseidon

open Wp

namespace PagedFile

variable {P : Type} {f : PagedFile P}

/-- With as many pages as bits or more, the scan tests a bit that is not
there. -/
theorem scanFrom_error : ∀ {k i : Nat}, maxPages ≤ i + k → ∀ buf,
    ∃ buf', f.scanFrom k i buf = .error .outOfRange buf' := by
  intro k
  induction k with
  | zero =>
      intro i hi buf
      have hle : maxPages ≤ i := by omega
      exact ⟨buf, by simp [scanFrom, hle, bind, EStateM.bind, throw_apply]⟩
  | succ k ih =>
      intro i hi buf
      by_cases hle : maxPages ≤ i
      · exact ⟨f.pages i, by simp [scanFrom, hle, bind, EStateM.bind, set_apply, throw_apply]⟩
      · obtain ⟨buf', hrun⟩ := ih (i := i + 1) (by omega) (f.pages i)
        exact ⟨buf', by simp [scanFrom, hle, hrun, pure, bind, EStateM.bind, set_apply]⟩

end PagedFile

namespace BufferPool

variable {s s' : BufferPool} {ns : List (Nat × PageId)} {pid : PageId} {b : BufSlot}
  {m : PageId → Option Page} {file : Nat}

/-- The page at the front of the LRU list. -/
def frontPage (s : BufferPool) : Option PageId :=
  (s.lru.nodes.nextOf LruList.head).bind fun n => (s.lru.nodes n).map fun c => c.val

/-- The page is in the pool and differs from its file. -/
def Unsaved (s : BufferPool) (pid : PageId) : Prop :=
  ∃ b, s.ptable.lookup pid = some b ∧ b.dirty = true ∧ s.fileContent pid ≠ some (s.buffer b.pos)

/-- The content that `fetch_page` would return a pointer to. -/
def fetched (s : BufferPool) (pid : PageId) : Option Page :=
  match fetchPage pid s with
  | .ok pos s' => some (s'.buffer pos)
  | .error _ _ => none

/-- The pages of the file fit in its bitset, and none of them differs from
the file, except for the one that is evicted to make room. -/
def ScanReady (s : BufferPool) (file : Nat) : Prop :=
  (∃ f, s.files file = some f ∧ f.npages < maxPages) ∧
    ∀ pid, pid.file = file → s.Unsaved pid → s.findFirst = none ∧ s.frontPage = some pid

/-- The scan delivers the pages that can be fetched, each once and with the
content that a fetch shows. -/
def ScanShows (s : BufferPool) (file : Nat) : Prop :=
  ∃ calls s', scanFile file s = .ok calls s' ∧ (calls.map Prod.snd).Pairwise (· < ·) ∧
    ∀ raw pg, (pg, raw) ∈ calls ↔ s.fetched ⟨file, raw⟩ = some pg

/-! ## What a fetch shows -/

theorem Shows.fetched (h : s.Shows m) (pid : PageId) : s.fetched pid = m pid := by
  cases hm : m pid with
  | some pg =>
      have hsome : (s.view pid).isSome = true := by
        rw [h.view, hm]
        rfl
      have hwp := h.fetch hsome
      rw [BufferPool.fetched]
      cases hr : fetchPage pid s with
      | ok pos s' =>
          rw [← hm]
          exact (wp_ok hwp hr).2
      | error e s' => exact (wp_error hwp hr).elim
  | none =>
      have hview : s.view pid = none := by rw [h.view, hm]
      have hwp : wp (fetchPage pid) (fun _ _ => False) (fun _ _ => True) s := by
        obtain ⟨ns, hk⟩ := h.kept
        refine fetchPage_wp hk ?_ ?_ (fun _ _ => trivial) (fun _ _ _ _ _ _ _ => trivial)
          fun _ _ _ _ _ _ _ _ => trivial
        · intro b l' hb _
          rw [view_cached hb] at hview
          cases hview
        · intro s1 pos pg s' hnone hm1 hpg _
          have hview1 := ((h.madeRoom hm1).view pid).trans hm
          rw [view_uncached (hm1.lookup_none hnone), hpg] at hview1
          cases hview1
      rw [BufferPool.fetched]
      cases hr : fetchPage pid s with
      | ok pos s' => exact (wp_ok hwp hr).elim
      | error e s' => rfl

/-- What the files show agrees with what the pool shows unless a page is
unsaved. -/
theorem Shows.fileContent_eq_iff (h : s.Shows m) (pid : PageId) :
    s.fileContent pid = m pid ↔ ¬s.Unsaved pid := by
  rw [← h.view pid]
  cases hb : s.ptable.lookup pid with
  | none =>
      rw [view_uncached hb]
      refine ⟨fun _ hu => ?_, fun _ => rfl⟩
      obtain ⟨b, hb', -⟩ := hu
      rw [hb] at hb'
      cases hb'
  | some b =>
      rw [view_cached hb]
      constructor
      · rintro heq ⟨c, hc, -, hne⟩
        rw [hb, Option.some.injEq] at hc
        exact hne (hc ▸ heq)
      · intro hu
        cases hd : b.dirty with
        | false => exact h.coherent.clean hb hd
        | true =>
            by_contra hne
            exact hu ⟨b, hb, hd, hne⟩

/-! ## The scan -/

/-- The part of the scan for which there is a free slot. -/
theorem scanSlot_wp {pos : Nat} {Q : List (Page × Nat) → BufferPool → Prop}
    {E : BpErr → BufferPool → Prop} (hpos : s.findFirst = some pos)
    (hok : ∀ f calls s', s.files file = some f → f.npages < maxPages →
      (calls.map Prod.snd).Pairwise (· < ·) →
      (∀ raw pg, (pg, raw) ∈ calls ↔ s.fileContent ⟨file, raw⟩ = some pg) → Q calls s')
    (herr : ∀ e s', (∀ f, s.files file = some f → ¬f.npages < maxPages) → E e s') :
    wp (do
      let s ← get
      match s.findFirst with
      | none => throw .danglingPointer
      | some pos =>
          setSlot pos false
          let s ← get
          match s.files file with
          | none => throw .nullPointer
          | some f =>
              match f.scanPages (s.buffer pos) with
              | .error e pg => do
                  setPage pos pg
                  throw e
              | .ok calls pg => do
                  setPage pos pg
                  setSlot pos true
                  pure calls : M (List (Page × Nat))) Q E s := by
  simp only [wp_bind, wp_get, hpos, setSlot, wp_modify]
  cases hf : s.files file with
  | none =>
      refine herr _ _ fun f hf' => ?_
      rw [hf] at hf'
      cases hf'
  | some f =>
      rcases Nat.lt_or_ge f.npages maxPages with hmax | hmax
      · obtain ⟨calls, buf, hrun, hsorted, hmem⟩ :=
          PagedFile.scanFrom_ok hmax (Nat.zero_add _) (s.buffer pos)
        simp only [PagedFile.scanPages, hrun, setPage, wp_bind, wp_modify, wp_pure]
        refine hok f calls _ hf hmax hsorted fun raw pg => ?_
        have hcont : s.fileContent ⟨file, raw⟩ = f.content raw := by
          rw [fileContent, hf]
          rfl
        rw [hmem, hcont, and_iff_right_iff_imp]
        intro hc
        exact (PagedFile.content_lt (show (f.content raw).isSome = true by rw [hc]; rfl)).1
      · obtain ⟨buf, hrun⟩ := PagedFile.scanFrom_error (f := f) (k := f.npages) (i := 0) (by omega)
          (s.buffer pos)
        simp only [PagedFile.scanPages, hrun, setPage, wp_bind, wp_modify, wp_throw]
        refine herr _ _ fun f' hf' => ?_
        rw [hf, Option.some.injEq] at hf'
        subst hf'
        omega

/-! Eviction keeps the length of the files. -/

theorem writePageToFile_npages {i pos : Nat} {x : Option Nat}
    (h : (s.files i).map PagedFile.npages = x) :
    always (writePageToFile pid pos) (fun s => (s.files i).map PagedFile.npages = x) s := by
  simp only [always, writePageToFile, wp_bind, wp_get]
  refine withFile_wp (fun _ => h) fun f hf => ?_
  have hlen : ∀ g : PagedFile Page, g.npages = f.npages →
      ((s.setFile pid.file g).files i).map PagedFile.npages = x := by
    intro g hg
    rw [← h]
    simp only [setFile]
    split
    · next heq => rw [heq, hf, Option.map_some, Option.map_some, hg]
    · rfl
  exact PagedFile.writePage_wp (fun _ => hlen _ rfl) fun _ _ _ => hlen f rfl

theorem dropEntry_npages {i : Nat} {x : Option Nat} (h : (s.files i).map PagedFile.npages = x) :
    always (do
      setSlot b.pos true
      wipe b.pos
      lruUnit (·.remove b.lruNode)
      eraseEntry pid
      pure true : M Bool) (fun s => (s.files i).map PagedFile.npages = x) s := by
  simp only [always, setSlot, wipe, eraseEntry, wp_bind, wp_modify, wp_pure]
  simp only [wp, lruUnit, withLru]
  split
  · next heq =>
      split at heq
      · cases heq
      · cases heq
        exact h
  · next heq =>
      split at heq
      · cases heq
        exact h
      · cases heq

theorem evictFrom_npages (i : Nat) (x : Option Nat) : ∀ (fuel n : Nat) (s : BufferPool),
    (s.files i).map PagedFile.npages = x →
      always (evictFrom fuel n) (fun s => (s.files i).map PagedFile.npages = x) s := by
  intro fuel
  induction fuel with
  | zero => exact fun _ _ h => h
  | succ fuel ih =>
      intro n s h
      rw [evictFrom]
      refine wp_ite (fun _ => h) fun _ => ?_
      rw [wp_get_bind]
      cases hn : s.lru.nodes n with
      | none => exact h
      | some c =>
          simp only []
          cases s.ptable.lookup c.val with
          | none =>
              cases c.next with
              | none => exact h
              | some nn => exact ih nn s h
          | some b =>
              refine wp_ite (fun _ => ?_) fun _ => ?_
              · cases c.next with
                | none => exact h
                | some nn => exact ih nn s h
              · refine wp_ite (fun _ => ?_) fun _ => dropEntry_npages h
                exact wp_seq (writePageToFile_npages h) fun _ _ h' => dropEntry_npages h'

theorem evictPage_npages (i : Nat) {x : Option Nat} (h : (s.files i).map PagedFile.npages = x) :
    always evictPage (fun s => (s.files i).map PagedFile.npages = x) s := by
  rw [evictPage]
  refine (wp_get_bind).mpr ?_
  split
  · exact evictFrom_npages i x _ _ s h
  · exact h

/-- What a scan shows of a page: the file, after the page at the front of the
list was written back if there was no free slot. -/
def scanned (s : BufferPool) (m : PageId → Option Page) (pid : PageId) : Option Page :=
  if s.findFirst = none ∧ s.frontPage = some pid then m pid else s.fileContent pid

/-- The page that is evicted is the one at the front of the list. -/
theorem Tracked.frontPage {a : Nat} {rest : List (Nat × PageId)}
    (h : s.Tracked ((a, pid) :: rest)) : s.frontPage = some pid := by
  obtain ⟨c, hc, hval⟩ := h.lru.page (a, pid) (List.mem_cons_self ..)
  have hnext : s.lru.nodes.nextOf LruList.head = some a := h.lru.seg.next
  rw [BufferPool.frontPage, hnext, Option.bind_some, show s.lru.nodes a = some c from hc,
    Option.map_some, hval]

/-- Without a free slot, the page at the front of the list goes, and its file
shows then what the pool showed. -/
theorem Shows.evicted (h : s.Shows m) (hfull : s.findFirst = none) :
    wp evictPage (fun _ s' => s'.findFirst ≠ none ∧ ∀ q, s'.fileContent q = s.scanned m q)
      (fun _ _ => False) s := by
  obtain ⟨ns, hk⟩ := h.kept
  refine evictPage_front_wp hk ?_ ?_ ?_
  · intro pre a pid rest b s1 s' hns hpre hb hpin hc hr
    refine ⟨hr.findFirst_ne (hc.tracked hk) (by rw [hc.ptable]; exact hb), fun q => ?_⟩
    -- no page is pinned, so it is the first of the list
    have hnil : pre = [] := by
      cases pre with
      | nil => rfl
      | cons e pre =>
          have hmem : e ∈ ns := by rw [hns]; simp
          obtain ⟨i, hi⟩ := hk.listed hmem
          obtain ⟨c, hc, -, -⟩ := lookup_of_placeOf hi
          have hcp := hpre e.1 e.2 (List.mem_cons_self ..) c hc
          rw [h.unpinned hc] at hcp
          cases hcp
    subst hnil
    subst hns
    have hfile : s'.fileContent q = s1.fileContent q := by
      rw [fileContent, hr.files, ← fileContent]
    rw [hfile, scanned, hk.frontPage]
    by_cases hq : q = pid
    · subst hq
      rw [if_pos ⟨hfull, rfl⟩, ← h.view q, view_cached hb]
      cases hd : b.dirty with
      | true => rw [(hc.dirty hd).file, if_pos rfl]
      | false => rw [hc.clean hd, h.coherent.clean hb hd]
    · rw [if_neg fun hc' => hq (Option.some.inj hc'.2).symm]
      cases hd : b.dirty with
      | true => rw [(hc.dirty hd).file, if_neg hq]
      | false => rw [hc.clean hd]
  · intro hall
    exact (h.exists_unpinned hfull hall).elim
  · intro q b e hb _ hcont _
    exact (h.coherent.content_ne hb hcont).elim

theorem Shows.scanFile (h : s.Shows m) (file : Nat) :
    wp (BufferPool.scanFile file)
      (fun calls _ => (∃ f, s.files file = some f ∧ f.npages < maxPages) ∧
        (calls.map Prod.snd).Pairwise (· < ·) ∧
        ∀ raw pg, (pg, raw) ∈ calls ↔ s.scanned m ⟨file, raw⟩ = some pg)
      (fun _ _ => ¬∃ f, s.files file = some f ∧ f.npages < maxPages) s := by
  simp only [BufferPool.scanFile, wp_bind, wp_get]
  cases hfree : s.findFirst with
  | some pos =>
      refine wp_ite (fun hnone => by cases hnone) fun _ => ?_
      refine scanSlot_wp hfree (fun f calls _ hf hmax hsorted hmem => ?_) fun e s' hno => ?_
      · refine ⟨⟨f, hf, hmax⟩, hsorted, fun raw pg => ?_⟩
        rw [hmem, scanned, if_neg fun hc => by rw [hfree] at hc; cases hc.1]
      · rintro ⟨f, hf, hmax⟩
        exact hno f hf hmax
  | none =>
      refine wp_ite (fun _ => ?_) fun hne => absurd rfl hne
      rw [wp_bind]
      refine wp_mono (wp_and (h.evicted hfree) (evictPage_npages file rfl)) ?_ fun e s'
        hf => hf.1.elim
      rintro b s' ⟨⟨hne, hcont⟩, hlen⟩
      obtain ⟨pos, hpos⟩ := Option.ne_none_iff_exists'.mp hne
      -- the file has kept its length
      have hfile : (∃ f, s'.files file = some f ∧ f.npages < maxPages) ↔
          ∃ f, s.files file = some f ∧ f.npages < maxPages := by
        cases hf : s.files file with
        | none =>
            rw [hf, Option.map_none, Option.map_eq_none_iff] at hlen
            simp [hlen]
        | some f =>
            rw [hf, Option.map_some, Option.map_eq_some_iff] at hlen
            obtain ⟨g, hg, hgf⟩ := hlen
            simp [hg, hgf]
      refine scanSlot_wp hpos (fun f calls _ hf hmax hsorted hmem => ?_) fun e s' hno => ?_
      · refine ⟨hfile.mp ⟨f, hf, hmax⟩, hsorted, fun raw pg => ?_⟩
        rw [hmem, hcont]
      · intro hf
        obtain ⟨f, hf, hmax⟩ := hfile.mpr hf
        exact hno f hf hmax

/-- A scan shows what fetches show exactly when it shows every page as the
pool does. -/
theorem Shows.scanShows_iff (h : s.Shows m) (file : Nat) : s.ScanShows file ↔ s.ScanReady file := by
  have hpages : (∀ raw pg, s.scanned m ⟨file, raw⟩ = some pg ↔ s.fetched ⟨file, raw⟩ = some pg) ↔
      ∀ pid, pid.file = file → s.Unsaved pid → s.findFirst = none ∧ s.frontPage = some pid := by
    have hsame : ∀ pid, (∀ pg, s.scanned m pid = some pg ↔ s.fetched pid = some pg) ↔
        (s.Unsaved pid → s.findFirst = none ∧ s.frontPage = some pid) := by
      intro pid
      rw [h.fetched, ← Option.ext_iff, scanned]
      split
      · next hc => exact ⟨fun _ _ => hc, fun _ => rfl⟩
      · next hc =>
          rw [h.fileContent_eq_iff]
          exact ⟨fun hu hu' => absurd hu' hu, fun hu hu' => hc (hu hu')⟩
    constructor
    · rintro hall ⟨_, raw⟩ rfl
      exact (hsame _).mp (hall raw)
    · intro hall raw
      exact (hsame _).mpr (hall _ rfl)
  have hscan := h.scanFile file
  rw [ScanReady, ← hpages]
  constructor
  · rintro ⟨calls, s', hr, -, hmem⟩
    obtain ⟨hf, -, hmem'⟩ := wp_ok hscan hr
    refine ⟨hf, fun raw pg => ?_⟩
    rw [← hmem', hmem]
  · rintro ⟨hf, hall⟩
    cases hr : BufferPool.scanFile file s with
    | ok calls s' =>
        obtain ⟨-, hsorted, hmem⟩ := wp_ok hscan hr
        exact ⟨calls, s', hr, hsorted, fun raw pg => (hmem raw pg).trans (hall raw pg)⟩
    | error e s' => exact absurd hf (wp_error hscan hr)

/-- Every run has what it should hold. -/
theorem exists_trace {ops : List PoolOp} (hr : s.run ops = some s') :
    ∃ m', s.trace m ops = some (s', m') := by
  induction ops generalizing s m with
  | nil =>
      cases hr
      exact ⟨m, rfl⟩
  | cons op ops ih =>
      rw [run, step] at hr
      rw [trace]
      cases hc : call op s with
      | ok r t =>
          rw [hc] at hr
          exact ih hr
      | error e t =>
          rw [hc] at hr
          simp only at hr ⊢
          split at hr
          · next he =>
              rw [if_pos he]
              exact ih hr
          · cases hr

end BufferPool

/-- After every plain run, a scan of a file delivers what fetches show exactly
when no page of the file waits to be written back, the page that makes room
for the scan apart. -/
theorem scan_shows_iff_ready (bsize : Nat) (hpos : 0 < bsize) (buffer : Nat → Page)
    (files : Nat → Option (PagedFile Page)) (ops : List PoolOp) (s : BufferPool)
    (hplain : (BufferPool.new bsize buffer files).PlainRun ops)
    (hrun : (BufferPool.new bsize buffer files).run ops = some s) (file : Nat) :
    s.ScanShows file ↔ s.ScanReady file := by
  obtain ⟨m, ht⟩ := BufferPool.exists_trace hrun
  exact ((BufferPool.shows_new hpos buffer files).trace hplain ht).scanShows_iff file

/-- A page that was written and flushed, in a pool of two slots. -/
theorem scan_shows_iff_ready_flushed : ∃ s,
    (BufferPool.new 2 (fun _ => Page.zero) fun i => if i = 0 then some emptyFile else none).run
      [.allocatePage 0, .writeInPlace ⟨0, 1⟩ fun _ _ => 7, .flushAll] = some s ∧
    (s.ScanShows 0 ↔ s.ScanReady 0) := by
  obtain ⟨s, hs⟩ : ∃ s, (BufferPool.new 2 (fun _ => Page.zero)
      fun i => if i = 0 then some emptyFile else none).run
      [.allocatePage 0, .writeInPlace ⟨0, 1⟩ fun _ _ => 7, .flushAll] = some s := ⟨_, rfl⟩
  refine ⟨s, hs, scan_shows_iff_ready 2 (by decide) _ _ _ s ?_ hs 0⟩
  exact ⟨trivial, fun _ _ => ⟨trivial, fun _ _ => ⟨trivial, fun _ _ => trivial⟩⟩⟩

/-- Without the flush, the scan delivers the page as it was allocated. -/
theorem scan_misses_write : ∃ s,
    (BufferPool.new 2 (fun _ => Page.zero) fun i => if i = 0 then some emptyFile else none).run
      [.allocatePage 0, .writeInPlace ⟨0, 1⟩ fun _ _ => 7] = some s ∧
    ¬s.ScanShows 0 := by
  refine ⟨_, rfl, ?_⟩
  rintro ⟨calls, s', hr, -, hmem⟩
  have hzero : (Page.zero, 1) ∈ calls := by
    cases hr
    exact List.mem_cons_self ..
  have hpg : some (fun _ => 7) = some Page.zero := (hmem 1 Page.zero).mp hzero
  have hbyte := congrFun (Option.some.inj hpg) ⟨0, by decide⟩
  exact absurd hbyte (by decide)

end Poseidon
