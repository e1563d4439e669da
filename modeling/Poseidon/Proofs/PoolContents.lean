import Poseidon.Proofs.PoolBookkeeping

/-!
# The buffer pool is a page map

Seen from outside, the pool maps a page id to a content: that of the slot
when the page is cached, and that of the file when it is not (`view`). The
simulation says that fetching, flushing and evicting do not change this map,
that allocating adds a page of zeros, and that a write changes one page. It
rests on the pages that are cached and not dirty being the same in the file
(`Coherent`).

A fetch of a page that does not exist breaks this: it takes a slot away for
good, and with the last slot the pages that do exist cannot be fetched any
more.
-/

namespace Poseidon

open Wp

namespace BufferPool

/-- The content of a page, wherever it is. -/
def view (s : BufferPool) (pid : PageId) : Option Page :=
  match s.ptable.lookup pid with
  | some b => some (s.buffer b.pos)
  | none => s.fileContent pid

/-- Cached pages exist, and are the same in the file unless they are dirty. -/
structure Coherent (s : BufferPool) : Prop where
  onFile : ∀ {pid b}, s.ptable.lookup pid = some b → (s.fileContent pid).isSome = true
  clean : ∀ {pid b}, s.ptable.lookup pid = some b → b.dirty = false →
    s.fileContent pid = some (s.buffer b.pos)

/-- What the pages should hold after a call. -/
def expect (m : PageId → Option Page) : PoolOp → Option PageId → PageId → Option Page
  | .allocatePage _, some pid => fun q => if q = pid then some Page.zero else m q
  | .writeInPlace pid g, _ => fun q => if q = pid then (m q).map g else m q
  | _, _ => m

/-- A run, with what the pages should hold. -/
def trace (s : BufferPool) (m : PageId → Option Page) :
    List PoolOp → Option (BufferPool × (PageId → Option Page))
  | [] => some (s, m)
  | op :: ops =>
      match call op s with
      | .ok r s' => s'.trace (expect m op r) ops
      | .error e s' => if e.isException then s'.trace m ops else none

/-- The calls in question: no page is freed or pinned, the pool is not purged,
and a page that is fetched exists. -/
def PlainCall (s : BufferPool) : PoolOp → Prop
  | .fetchPage pid => (s.view pid).isSome = true
  | .freePage _ => False
  | .pinPage _ => False
  | .unpinPage _ => False
  | .purge => False
  | _ => True

/-- Every call of the run is plain in the state it is made in. -/
def PlainRun : BufferPool → List PoolOp → Prop
  | _, [] => True
  | s, op :: ops => s.PlainCall op ∧ ∀ s', s.step op = some s' → s'.PlainRun ops

variable {s s' : BufferPool} {ns : List (Nat × PageId)} {pid : PageId} {b : BufSlot}
  {m : PageId → Option Page}

theorem view_cached (hb : s.ptable.lookup pid = some b) : s.view pid = some (s.buffer b.pos) := by
  simp only [view, hb]

theorem view_uncached (hb : s.ptable.lookup pid = none) : s.view pid = s.fileContent pid := by
  simp only [view, hb]

/-- The simulation relation: the pool holds the pages of the map `m`. -/
structure Shows (s : BufferPool) (m : PageId → Option Page) : Prop where
  kept : s.Kept
  coherent : s.Coherent
  unpinned : ∀ {pid b}, s.ptable.lookup pid = some b → b.pinned = false
  room : 0 < s.bsize
  view : ∀ pid, s.view pid = m pid

/-- Two pages do not share a slot. -/
theorem Kept.pos_ne (h : s.Kept) {q : PageId} {c : BufSlot} (hb : s.ptable.lookup pid = some b)
    (hc : s.ptable.lookup q = some c) (hne : q ≠ pid) : c.pos ≠ b.pos := by
  obtain ⟨ns, h⟩ := h
  intro heq
  have hq := placeOf_of_lookup hc
  rw [heq] at hq
  exact hne (h.distinct hq (placeOf_of_lookup hb))

/-- Writing a page back does not show. -/
theorem Shows.flushed (h : s.Shows m) (hb : s.ptable.lookup pid = some b)
    (hf : Flushed s s' pid b) : s'.Shows m := by
  have hlook : ∀ {q c'}, s'.ptable.lookup q = some c' →
      ∃ c, s.ptable.lookup q = some c ∧ c'.pos = c.pos ∧ c'.pinned = c.pinned ∧
        (c'.dirty = false → (q = pid ∧ b.dirty = true) ∨ c.dirty = false) := by
    intro q c' hc'
    rw [hf.lookup] at hc'
    split at hc'
    · next heq =>
        cases hc'
        refine ⟨b, by rw [heq]; exact hb, rfl, rfl, fun _ => ?_⟩
        cases hd : b.dirty with
        | true => exact .inl ⟨heq, rfl⟩
        | false => exact .inr rfl
    · exact ⟨c', hc', rfl, rfl, fun hd => .inr hd⟩
  refine ⟨?_, ⟨?_, ?_⟩, ?_, by rw [hf.bsize]; exact h.room, ?_⟩
  · obtain ⟨ns, hk⟩ := h.kept
    exact ⟨ns, hf.tracked hb hk⟩
  · intro q c' hc'
    obtain ⟨c, hc, -⟩ := hlook hc'
    rw [hf.file]
    split
    · rfl
    · exact h.coherent.onFile hc
  · intro q c' hc' hd
    obtain ⟨c, hc, hpos, -, hdirty⟩ := hlook hc'
    rw [hf.file, hf.buffer, hpos]
    split
    · next hq =>
        rw [hq.1, hb, Option.some.injEq] at hc
        rw [hc]
    · next hq =>
        rcases hdirty hd with hq' | hd'
        · exact absurd hq' hq
        · exact h.coherent.clean hc hd'
  · intro q c' hc'
    obtain ⟨c, hc, -, hpin, -⟩ := hlook hc'
    rw [hpin]
    exact h.unpinned hc
  · intro q
    rw [← h.view q]
    cases hc : s.ptable.lookup q with
    | some c =>
        by_cases hq : q = pid
        · rw [hq, hb, Option.some.injEq] at hc
          have hc' : s'.ptable.lookup q = some { b with dirty := false } := by
            rw [hf.lookup, if_pos hq]
          rw [view_cached hc', hq, view_cached hb, hf.buffer]
        · have hc' : s'.ptable.lookup q = some c := by
            rw [hf.lookup, if_neg hq, hc]
          rw [view_cached hc', view_cached hc, hf.buffer]
    | none =>
        have hq : q ≠ pid := by
          rintro rfl
          rw [hb] at hc
          cases hc
        have hc' : s'.ptable.lookup q = none := by
          rw [hf.lookup, if_neg hq, hc]
        rw [view_uncached hc', view_uncached hc, hf.file, if_neg fun h => hq h.1]

/-- Taking a page out that is the same in the file does not show. -/
theorem Shows.removed (h : s.Shows m) (hb : s.ptable.lookup pid = some b)
    (hclean : s.fileContent pid = some (s.buffer b.pos)) (hr : Removed s s' pid b) :
    s'.Shows m := by
  have hfile : ∀ q, s'.fileContent q = s.fileContent q := by
    intro q
    rw [fileContent, hr.files, ← fileContent]
  have hlook : ∀ {q c}, s'.ptable.lookup q = some c →
      q ≠ pid ∧ s.ptable.lookup q = some c ∧ s'.buffer c.pos = s.buffer c.pos := by
    intro q c hc
    rw [hr.lookup] at hc
    split at hc
    · cases hc
    · next hne => exact ⟨hne, hc, hr.buffer _ (h.kept.pos_ne hb hc hne)⟩
  refine ⟨?_, ⟨?_, ?_⟩, ?_, by rw [hr.bsize]; exact h.room, ?_⟩
  · obtain ⟨ns, hk⟩ := h.kept
    obtain ⟨xs, ys, rfl⟩ := hk.split hb
    exact ⟨xs ++ ys, hk.removed hb hr⟩
  · intro q c hc
    rw [hfile]
    exact h.coherent.onFile (hlook hc).2.1
  · intro q c hc hd
    obtain ⟨-, hc0, hbuf⟩ := hlook hc
    rw [hfile, hbuf]
    exact h.coherent.clean hc0 hd
  · intro q c hc
    exact h.unpinned (hlook hc).2.1
  · intro q
    rw [← h.view q]
    cases hc : s'.ptable.lookup q with
    | some c =>
        obtain ⟨-, hc0, hbuf⟩ := hlook hc
        rw [view_cached hc, view_cached hc0, hbuf]
    | none =>
        rw [view_uncached hc, hfile]
        by_cases hq : q = pid
        · rw [hq, view_cached hb, hclean]
        · rw [hr.lookup, if_neg hq] at hc
          rw [view_uncached hc]

/-- Loading a page does not show. -/
theorem Shows.inserted {pos : Nat} {pg : Page} (h : s.Shows m)
    (hnone : s.ptable.lookup pid = none) (hpg : s.fileContent pid = some pg)
    (hi : Inserted s s' pid pos pg) : s'.Shows m := by
  have hfile : ∀ q, s'.fileContent q = s.fileContent q := by
    intro q
    rw [fileContent, hi.files, ← fileContent]
  have hother : ∀ {q c}, s.ptable.lookup q = some c → s'.buffer c.pos = s.buffer c.pos := by
    intro q c hc
    obtain ⟨ns, hk⟩ := h.kept
    have hocc := (hk.entry (placeOf_of_lookup hc)).2.2
    have hne : c.pos ≠ pos := by
      rintro rfl
      rw [(findFirst_spec hi.free).2] at hocc
      cases hocc
    rw [hi.buffer]
    simp only [hne, if_false]
  refine ⟨?_, ⟨?_, ?_⟩, ?_, by rw [hi.bsize]; exact h.room, ?_⟩
  · obtain ⟨ns, hk⟩ := h.kept
    exact ⟨_, hk.inserted hnone hi⟩
  · intro q c hc
    rw [hfile]
    rw [hi.lookup] at hc
    split at hc
    · next hq =>
        rw [hq, hpg]
        rfl
    · exact h.coherent.onFile hc
  · intro q c hc hd
    rw [hfile]
    rw [hi.lookup] at hc
    split at hc
    · next hq =>
        cases hc
        rw [hq, hpg, hi.buffer]
        simp
    · rw [hother hc]
      exact h.coherent.clean hc hd
  · intro q c hc
    rw [hi.lookup] at hc
    split at hc
    · cases hc
      rfl
    · exact h.unpinned hc
  · intro q
    rw [← h.view q]
    by_cases hq : q = pid
    · have hc : s'.ptable.lookup q = some ⟨false, false, pos, s.lru.fresh⟩ := by
        rw [hi.lookup, if_pos hq]
      rw [view_cached hc, hq, view_uncached hnone, hpg, hi.buffer]
      simp
    · have hlook := hi.lookup q
      rw [if_neg hq] at hlook
      cases hc : s.ptable.lookup q with
      | some c =>
          rw [hc] at hlook
          rw [view_cached hlook, view_cached hc, hother hc]
      | none =>
          rw [hc] at hlook
          rw [view_uncached hlook, view_uncached hc, hfile]

/-- Making room does not show. -/
theorem Shows.madeRoom (h : s.Shows m) (hm : MadeRoom s s') : s'.Shows m := by
  cases hm with
  | same => exact h
  | @evicted q b s1 _ hb hpin hc hr =>
      cases hd : b.dirty with
      | false =>
          rw [hc.clean hd] at hr
          exact h.removed hb (h.coherent.clean hb hd) hr
      | true =>
          -- eviction is flushing without resetting the flag, and then removing
          have hw := hc.dirty hd
          have hb1 : s1.ptable.lookup q = some b := by
            rw [hw.ptable]
            exact hb
          have h1 : s1.Shows m := by
            refine ⟨?_, ⟨?_, ?_⟩, ?_, by rw [hw.bsize]; exact h.room, ?_⟩
            · obtain ⟨ns, hk⟩ := h.kept
              exact ⟨ns, hw.tracked hk⟩
            · intro p c hp
              rw [hw.ptable] at hp
              rw [hw.file]
              split
              · rfl
              · exact h.coherent.onFile hp
            · intro p c hp hcd
              rw [hw.ptable] at hp
              rw [hw.file, hw.buffer]
              split
              · next heq =>
                  rw [heq, hb, Option.some.injEq] at hp
                  rw [hp]
              · exact h.coherent.clean hp hcd
            · intro p c hp
              rw [hw.ptable] at hp
              exact h.unpinned hp
            · intro p
              rw [← h.view p]
              cases hp : s.ptable.lookup p with
              | some c =>
                  rw [view_cached (by rw [hw.ptable]; exact hp), view_cached hp, hw.buffer]
              | none =>
                  have hne : p ≠ q := by
                    rintro rfl
                    rw [hb] at hp
                    cases hp
                  rw [view_uncached (by rw [hw.ptable]; exact hp), view_uncached hp, hw.file,
                    if_neg hne]
          refine h1.removed hb1 ?_ hr
          rw [hw.file, if_pos rfl, hw.buffer]

/-- A pool of at least one slot always has a page that is not pinned. -/
theorem Shows.exists_unpinned (h : s.Shows m) (hfull : s.findFirst = none) :
    ¬∀ pid b, s.ptable.lookup pid = some b → b.pinned = true := by
  intro hall
  obtain ⟨ns, hk⟩ := h.kept
  have hlen := hk.full hfull
  have hroom := h.room
  cases ns with
  | nil =>
      rw [List.length_nil] at hlen
      omega
  | cons e ns =>
      obtain ⟨i, hi⟩ := hk.listed (List.mem_cons_self (a := e))
      obtain ⟨b, hb, -, -⟩ := lookup_of_placeOf hi
      have hpin := hall _ _ hb
      rw [h.unpinned hb] at hpin
      cases hpin

theorem Coherent.content_ne (h : s.Coherent) (hb : s.ptable.lookup pid = some b) :
    s.fileContent pid ≠ none := by
  intro hnone
  have hon := h.onFile hb
  rw [hnone] at hon
  cases hon

/-- A page that exists can be fetched, the pointer shows its content, and the
rest of the pool shows the same as before. -/
theorem Shows.fetch (h : s.Shows m) (hsome : (s.view pid).isSome = true) :
    wp (fetchPage pid) (fun pos s' => s'.Shows m ∧ some (s'.buffer pos) = m pid)
      (fun _ _ => False) s := by
  obtain ⟨ns, hk⟩ := h.kept
  refine fetchPage_wp hk ?_ ?_ ?_ ?_ ?_
  · intro b l' hb hl'
    obtain ⟨l'', hl'', ns', hk'⟩ := hk.moved hb
    rw [hl', Option.some.injEq] at hl''
    subst hl''
    have hcoh : ({ s with lru := l' } : BufferPool).Coherent :=
      ⟨h.coherent.onFile, h.coherent.clean⟩
    refine ⟨⟨⟨ns', hk'⟩, hcoh, h.unpinned, h.room, h.view⟩, ?_⟩
    rw [← h.view pid, view_cached hb]
  · intro s1 pos pg s' hnone hm hpg hi
    have h1 := h.madeRoom hm
    refine ⟨h1.inserted (hm.lookup_none hnone) hpg hi, ?_⟩
    rw [← h1.view pid, view_uncached (hm.lookup_none hnone), hpg, hi.buffer]
    simp
  · intro hfull hall
    exact (h.exists_unpinned hfull hall).elim
  · intro q b e hb _ hcont _
    exact (h.coherent.content_ne hb hcont).elim
  · intro s1 pos hnone hm _ hcont _ _
    rw [view_uncached hnone, hm.fileContent_none hcont] at hsome
    cases hsome

/-! ## The other calls -/

/-- `allocate_page` adds a page of zeros. -/
theorem Shows.allocate (h : s.Shows m) (file : Nat) :
    wp (allocatePage file) (fun r s' => s'.Shows (expect m (.allocatePage file) (some r.2)))
      (fun _ s' => s'.Shows m) s := by
  rw [allocatePage, wp_bind]
  refine withFile_wp (fun _ => h) fun f hf => ?_
  have hsame : ∀ f', (∀ r, f'.holds r = f.holds r ∧
      (f.holds r = true → f'.pages (r - 1) = f.pages (r - 1))) → ∀ q,
      (s.setFile file f').fileContent q = s.fileContent q := by
    intro f' hf' q
    rw [fileContent_setFile]
    split
    · next hq =>
        rw [fileContent, hq, hf, Option.bind_some, (hf' q.raw).1]
        split
        · next hh => rw [(hf' q.raw).2 hh]
        · rfl
    · rfl
  refine allocatePage_wp (fun raw f' hal => ?_) fun e f' _ hf' => ?_
  · -- the file content of all other pages stays
    have hcont : ∀ q, (s.setFile file f').fileContent q =
        if q = ⟨file, raw⟩ then some Page.zero else s.fileContent q := by
      intro q
      rw [fileContent_setFile]
      by_cases hq : q = ⟨file, raw⟩
      · rw [hq, if_pos rfl, if_pos hal.used, if_pos rfl, hal.zero]
      · rw [if_neg hq]
        split
        · next hfile =>
            have hraw : q.raw ≠ raw := by
              intro heq
              apply hq
              cases q
              cases hfile
              cases heq
              rfl
            rw [fileContent, hfile, hf, Option.bind_some, (hal.other q.raw hraw).1]
            split
            · next hh => rw [(hal.other q.raw hraw).2 hh]
            · rfl
        · rfl
    have huncached : s.ptable.lookup ⟨file, raw⟩ = none := by
      cases hb : s.ptable.lookup ⟨file, raw⟩ with
      | none => rfl
      | some b =>
          have hon := h.coherent.onFile hb
          rw [fileContent, show s.files file = some f from hf, Option.bind_some, hal.unused] at hon
          cases hon
    have hne : ∀ {q b}, s.ptable.lookup q = some b → q ≠ ⟨file, raw⟩ := by
      rintro q b hb rfl
      rw [huncached] at hb
      cases hb
    have h1 : (s.setFile file f').Shows (expect m (.allocatePage file) (some ⟨file, raw⟩)) := by
      refine ⟨h.kept.congr rfl rfl rfl fun _ => rfl, ⟨?_, ?_⟩, h.unpinned, h.room, ?_⟩
      · intro q b hb
        rw [hcont, if_neg (hne hb)]
        exact h.coherent.onFile hb
      · intro q b hb hd
        rw [hcont, if_neg (hne hb)]
        exact h.coherent.clean hb hd
      · intro q
        show _ = if q = ⟨file, raw⟩ then some Page.zero else m q
        cases hb : s.ptable.lookup q with
        | some b =>
            rw [if_neg (hne hb), ← h.view q, view_cached hb]
            exact view_cached hb
        | none =>
            rw [← h.view q, view_uncached hb, ← hcont q]
            exact view_uncached hb
    rw [wp_bind]
    have hview : ((s.setFile file f').view ⟨file, raw⟩).isSome = true := by
      rw [h1.view]
      simp [expect]
    exact wp_mono (h1.fetch hview) (fun pos s' hs => hs.1) fun _ _ hf => hf.elim
  · have hcont := hsame f' hf'
    refine ⟨h.kept.congr rfl rfl rfl fun _ => rfl, ⟨?_, ?_⟩, h.unpinned, h.room, ?_⟩
    · intro q b hb
      rw [hcont]
      exact h.coherent.onFile hb
    · intro q b hb hd
      rw [hcont]
      exact h.coherent.clean hb hd
    · intro q
      rw [← h.view q]
      cases hb : s.ptable.lookup q with
      | some b =>
          rw [view_cached hb]
          exact view_cached hb
      | none =>
          rw [view_uncached hb, ← hcont q]
          exact view_uncached hb

/-- A cached page that gets a new content and is marked as dirty shows the new
content. -/
theorem Shows.written (h : s.Shows m) (hb : s.ptable.lookup pid = some b) (pg : Page) :
    ({ s with
      buffer := fun i => if i = b.pos then pg else s.buffer i
      ptable := s.ptable.insert pid { b with dirty := true } } : BufferPool).Shows
      fun q => if q = pid then some pg else m q := by
  have hlook : ∀ q, (s.ptable.insert pid { b with dirty := true }).lookup q =
      if q = pid then some { b with dirty := true } else s.ptable.lookup q := by
    intro q
    split
    · next heq => rw [heq, AList.lookup_insert]
    · next hne => rw [AList.lookup_insert_ne hne]
  have hother : ∀ {q c}, s.ptable.lookup q = some c → q ≠ pid →
      (if c.pos = b.pos then pg else s.buffer c.pos) = s.buffer c.pos := by
    intro q c hc hne
    rw [if_neg (h.kept.pos_ne hb hc hne)]
  refine ⟨?_, ⟨?_, ?_⟩, ?_, h.room, ?_⟩
  · refine h.kept.congr rfl rfl rfl fun q => ?_
    simp only [placeOf, hlook]
    split
    · next heq =>
        rw [heq, hb]
        rfl
    · rfl
  · intro q c hc
    have hc' := (hlook q).symm.trans hc
    show (s.fileContent q).isSome = true
    split at hc'
    · next heq =>
        rw [heq]
        exact h.coherent.onFile hb
    · exact h.coherent.onFile hc'
  · intro q c hc hd
    have hc' := (hlook q).symm.trans hc
    show s.fileContent q = some (if c.pos = b.pos then pg else s.buffer c.pos)
    split at hc'
    · cases hc'
      cases hd
    · next hne =>
        rw [hother hc' hne]
        exact h.coherent.clean hc' hd
  · intro q c hc
    have hc' := (hlook q).symm.trans hc
    split at hc'
    · cases hc'
      show b.pinned = false
      exact h.unpinned hb
    · exact h.unpinned hc'
  · intro q
    simp only [BufferPool.view, hlook]
    by_cases hq : q = pid
    · simp only [hq, if_true]
    · simp only [hq, if_false]
      rw [← h.view q]
      cases hc : s.ptable.lookup q with
      | some c =>
          rw [view_cached hc]
          exact congrArg some (hother hc hq)
      | none => exact (view_uncached hc).symm

/-- Marking a page as dirty does not show. -/
theorem Shows.markDirty (h : s.Shows m) :
    wp (BufferPool.markDirty pid) (fun _ s' => s'.Shows m) (fun _ _ => False) s := by
  refine updateEntry_wp (fun _ => h) fun b hb => ?_
  have hw := h.written hb (s.buffer b.pos)
  have hbuf : (fun i => if i = b.pos then s.buffer b.pos else s.buffer i) = s.buffer := by
    funext i
    split
    · next heq => rw [heq]
    · rfl
  have hmap : (fun q => if q = pid then some (s.buffer b.pos) else m q) = m := by
    funext q
    split
    · next heq => rw [heq, ← h.view pid, view_cached hb]
    · rfl
  rwa [hbuf, hmap] at hw

/-- A write in place changes the page it writes to. -/
theorem Shows.writeInPlace (h : s.Shows m) (g : Page → Page) :
    wp (BufferPool.writeInPlace pid g)
      (fun _ s' => s'.Shows (expect m (.writeInPlace pid g) none))
      (fun e _ => e.isException = false) s := by
  simp only [BufferPool.writeInPlace, wp_bind, wp_get]
  cases hb : s.ptable.lookup pid with
  | none => exact rfl
  | some b =>
      simp only [setPage, wp_bind, wp_modify]
      refine updateEntry_wp (fun hnone => ?_) fun c hc => ?_
      · rw [show s.ptable.lookup pid = none from hnone] at hb
        cases hb
      · have heq : c = b := Option.some.inj
          ((show s.ptable.lookup pid = some c from hc).symm.trans hb)
        subst heq
        have hw := h.written hb (g (s.buffer c.pos))
        have hmap : expect m (.writeInPlace pid g) none =
            fun q => if q = pid then some (g (s.buffer c.pos)) else m q := by
          funext q
          simp only [expect]
          split
          · next hq => rw [hq, ← h.view pid, view_cached hb, Option.map_some]
          · rfl
        rw [hmap]
        exact hw

theorem Shows.flushPage (h : s.Shows m) (evict : Bool) :
    wp (BufferPool.flushPage pid evict) (fun _ s' => s'.Shows m) (fun _ _ => False) s := by
  obtain ⟨ns, hk⟩ := h.kept
  refine flushPage_wp hk (fun _ => h) (fun b s1 hb hf => h.flushed hb hf) ?_ ?_
  · intro b s1 s' hb hf hr
    have h1 := h.flushed hb hf
    have hb1 : s1.ptable.lookup pid = some { b with dirty := false } := by
      rw [hf.lookup, if_pos rfl]
    exact h1.removed hb1 (h1.coherent.clean hb1 rfl) hr
  · intro b e hb _ hcont _
    exact (h.coherent.content_ne hb hcont).elim

/-- Flushing does not show, and leaves the flushed pages clean. -/
theorem Shows.flushWhere (h : s.Shows m) (p : PageId → Bool) :
    wp (BufferPool.flushWhere p)
      (fun _ s' => s'.Shows m ∧
        ∀ pid b, s'.ptable.lookup pid = some b → p pid = true → b.dirty = false)
      (fun _ _ => False) s := by
  refine flushWhere_wp (fun t => t.Shows m) h (fun t q b t' ht hb hf => ht.flushed hb hf)
    (fun s' hs hd => ⟨hs, hd⟩) ?_
  intro t q b e ht hb _ hcont _
  exact (ht.coherent.content_ne hb hcont).elim

/-- A plain call keeps the simulation. -/
theorem Shows.call (h : s.Shows m) {op : PoolOp} (hplain : s.PlainCall op) :
    wp (call op) (fun r s' => s'.Shows (expect m op r))
      (fun e s' => e.isException = true → s'.Shows m) s := by
  cases op with
  | allocatePage file =>
      rw [BufferPool.call, wp_map]
      exact wp_mono (h.allocate file) (fun _ _ hs => hs) fun _ _ hs _ => hs
  | fetchPage pid =>
      rw [BufferPool.call, wp_map]
      exact wp_mono (h.fetch hplain) (fun _ _ hs => hs.1) fun _ _ hf => hf.elim
  | writeInPlace pid g =>
      rw [BufferPool.call, wp_map]
      refine wp_mono (h.writeInPlace g) (fun _ _ hs => hs) fun e _ hf he => ?_
      rw [hf] at he
      cases he
  | markDirty pid =>
      rw [BufferPool.call, wp_map]
      exact wp_mono h.markDirty (fun _ _ hs => hs) fun _ _ hf => hf.elim
  | flushPage pid evict =>
      rw [BufferPool.call, wp_map]
      exact wp_mono (h.flushPage evict) (fun _ _ hs => hs) fun _ _ hf => hf.elim
  | flushAll =>
      rw [BufferPool.call, wp_map]
      exact wp_mono (h.flushWhere _) (fun _ _ hs => hs.1) fun _ _ hf => hf.elim
  | flushPages file =>
      rw [BufferPool.call, wp_map]
      exact wp_mono (h.flushWhere _) (fun _ _ hs => hs.1) fun _ _ hf => hf.elim
  | freePage pid => exact hplain.elim
  | pinPage pid => exact hplain.elim
  | unpinPage pid => exact hplain.elim
  | purge => exact hplain.elim

/-- A run of plain calls keeps the simulation. -/
theorem Shows.trace (h : s.Shows m) {ops : List PoolOp} (hplain : s.PlainRun ops)
    {m' : PageId → Option Page} (ht : s.trace m ops = some (s', m')) : s'.Shows m' := by
  induction ops generalizing s m with
  | nil =>
      cases ht
      exact h
  | cons op ops ih =>
      obtain ⟨hop, hrest⟩ := hplain
      have hcall := h.call hop
      rw [BufferPool.trace] at ht
      cases hr : BufferPool.call op s with
      | ok r t =>
          rw [hr] at ht
          have hs := wp_ok hcall hr
          exact ih hs (hrest t (by rw [BufferPool.step, hr])) ht
      | error e t =>
          rw [hr] at ht
          simp only at ht
          split at ht
          · next he =>
              have hs := wp_error hcall hr he
              exact ih hs
                (hrest t (by simp only [BufferPool.step, hr, he, if_true])) ht
          · cases ht

theorem shows_new {bsize : Nat} (hpos : 0 < bsize) (buffer : Nat → Page)
    (files : Nat → Option (PagedFile Page)) :
    (new bsize buffer files).Shows (new bsize buffer files).fileContent := by
  have hnone : ∀ q, (new bsize buffer files).ptable.lookup q = none := fun q => rfl
  refine ⟨kept_new bsize buffer files, ⟨?_, ?_⟩, ?_, hpos, fun q => view_uncached (hnone q)⟩
  · intro q b hb
    rw [hnone] at hb
    cases hb
  · intro q b hb
    rw [hnone] at hb
    cases hb
  · intro q b hb
    rw [hnone] at hb
    cases hb

end BufferPool

/-- The pool gives out the expected contents, and flushing puts exactly these
in the files. -/
structure Transparent (s : BufferPool) (m : PageId → Option Page) : Prop where
  fetch : ∀ pid pg, m pid = some pg →
    ∃ pos s', BufferPool.fetchPage pid s = .ok pos s' ∧ s'.buffer pos = pg
  flush : ∃ s', BufferPool.flushAll s = .ok ⟨⟩ s' ∧ ∀ pid, s'.fileContent pid = m pid

theorem BufferPool.Shows.transparent {s : BufferPool} {m : PageId → Option Page}
    (h : s.Shows m) : Transparent s m := by
  constructor
  · intro pid pg hpg
    have hsome : (s.view pid).isSome = true := by
      rw [h.view, hpg]
      rfl
    have hf := h.fetch hsome
    cases hr : BufferPool.fetchPage pid s with
    | ok pos s' =>
        obtain ⟨-, hbuf⟩ := wp_ok hf hr
        rw [hpg, Option.some.injEq] at hbuf
        exact ⟨pos, s', rfl, hbuf⟩
    | error e s' => exact (wp_error hf hr).elim
  · have hf := h.flushWhere fun _ => true
    cases hr : BufferPool.flushWhere (fun _ => true) s with
    | ok r s' =>
        obtain ⟨hs', hclean⟩ := wp_ok hf hr
        refine ⟨s', hr, fun pid => ?_⟩
        rw [← hs'.view pid]
        cases hb : s'.ptable.lookup pid with
        | some b =>
            rw [BufferPool.view_cached hb]
            exact hs'.coherent.clean hb (hclean pid b hb rfl)
        | none => rw [BufferPool.view_uncached hb]
    | error e s' => exact (wp_error hf hr).elim

/-- A pool of at least one page is transparent after every run in which no
page is fetched that does not exist: whatever has been evicted, a page holds
what was last written to it. -/
theorem plain_runs_are_transparent (bsize : Nat) (hpos : 0 < bsize) (buffer : Nat → Page)
    (files : Nat → Option (PagedFile Page)) (ops : List PoolOp) (s : BufferPool)
    (m : PageId → Option Page) (hplain : (BufferPool.new bsize buffer files).PlainRun ops)
    (hrun : (BufferPool.new bsize buffer files).trace
      (BufferPool.new bsize buffer files).fileContent ops = some (s, m)) : Transparent s m :=
  ((BufferPool.shows_new hpos buffer files).trace hplain hrun).transparent

/-- Two pages in a pool of one slot, so that the second allocation evicts the
page that was written. -/
theorem plain_runs_are_transparent_evicting : ∃ s m,
    (BufferPool.new 1 (fun _ => Page.zero) fun i => if i = 0 then some emptyFile else none).trace
      (BufferPool.new 1 (fun _ => Page.zero)
        fun i => if i = 0 then some emptyFile else none).fileContent
      [.allocatePage 0, .writeInPlace ⟨0, 1⟩ fun _ _ => 7, .allocatePage 0, .fetchPage ⟨0, 1⟩] =
        some (s, m) ∧ m ⟨0, 1⟩ = some (fun _ => 7) ∧ Transparent s m := by
  obtain ⟨s, m, hs, hm⟩ : ∃ s m, (BufferPool.new 1 (fun _ => Page.zero)
      fun i => if i = 0 then some emptyFile else none).trace
      (BufferPool.new 1 (fun _ => Page.zero)
        fun i => if i = 0 then some emptyFile else none).fileContent
      [.allocatePage 0, .writeInPlace ⟨0, 1⟩ fun _ _ => 7, .allocatePage 0, .fetchPage ⟨0, 1⟩] =
        some (s, m) ∧ m ⟨0, 1⟩ = some (fun _ => 7) := ⟨_, _, rfl, rfl⟩
  refine ⟨s, m, hs, hm, plain_runs_are_transparent 1 (by decide) _ _ _ s m ?_ hs⟩
  refine ⟨trivial, fun _ h1 => ⟨trivial, fun _ h2 => ⟨trivial, fun _ h3 => ?_⟩⟩⟩
  cases h1
  cases h2
  cases h3
  exact ⟨rfl, fun _ _ => trivial⟩

/-- One slot and one page, which has been flushed: a fetch of a second page,
which is not there, fails and keeps the slot, so the first page cannot be
fetched any more. -/
theorem failed_fetch_blocks_pool : ∃ s m,
    (BufferPool.new 1 (fun _ => Page.zero) fun i => if i = 0 then some emptyFile else none).trace
      (BufferPool.new 1 (fun _ => Page.zero)
        fun i => if i = 0 then some emptyFile else none).fileContent
      [.allocatePage 0, .flushPage ⟨0, 1⟩ true, .fetchPage ⟨0, 2⟩] = some (s, m) ∧
    ¬Transparent s m := by
  refine ⟨_, _, rfl, fun h => ?_⟩
  obtain ⟨pos, s', hf, -⟩ := h.fetch ⟨0, 1⟩ Page.zero rfl
  cases hf

end Poseidon
