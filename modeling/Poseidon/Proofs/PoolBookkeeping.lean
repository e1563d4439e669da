import Poseidon.Proofs.PoolSpecs

/-!
# Bookkeeping of the buffer pool

Page table, slot bitset and LRU list stay in step through every run whose
calls keep out of three traps. `free_page` takes a cached page out of table
and list and forgets its slot. `fetch_page` of a page that its file does not
have throws after the slot has been marked as occupied. `purge` deletes the
list nodes and leaves the sentinels pointing at them.
-/

namespace Poseidon

open Wp

namespace BufferPool

/-- Every slot holds a pinned page. -/
def AllPinned (s : BufferPool) : Prop :=
  ∀ i, i < s.bsize → ∃ pid b, s.ptable.lookup pid = some b ∧ b.pos = i ∧ b.pinned = true

/-- What the three structures should say about each other. -/
structure Bookkept (s : BufferPool) : Prop where
  list : ∃ ns, s.lru.Repr ns ∧ (ns.map Prod.snd).Nodup ∧
    ∀ pid, pid ∈ ns.map Prod.snd ↔ pid ∈ s.ptable.keys
  pos_lt : ∀ p b, s.ptable.lookup p = some b → b.pos < s.bsize
  distinct : ∀ p q b c, s.ptable.lookup p = some b → s.ptable.lookup q = some c →
    b.pos = c.pos → p = q
  count : (List.range s.bsize).countP s.slots + s.ptable.keys.length = s.bsize
  overrun : ∀ pid s', fetchPage pid s = .error .bufferpoolOverrun s' → s.AllPinned

variable {s s' : BufferPool} {ns : List (Nat × PageId)} {pid : PageId}

theorem Tracked.allPinned (h : s.Tracked ns) (hnone : s.findFirst = none)
    (hall : ∀ pid b, s.ptable.lookup pid = some b → b.pinned = true) : s.AllPinned := by
  intro i hi
  have hocc : s.slots i = false := by
    have := List.find?_eq_none.mp hnone i (List.mem_range.mpr hi)
    simpa using this
  obtain ⟨q, a, hq⟩ := h.owned hi hocc
  obtain ⟨b, hb, hpos, -⟩ := lookup_of_placeOf hq
  exact ⟨q, b, hb, hpos, hall q b hb⟩

/-- When every slot holds a pinned page there is no room and none can be
made. -/
theorem Tracked.no_room (h : s.Tracked ns) (hall : s.AllPinned) :
    s.findFirst = none ∧ ∀ q b, s.ptable.lookup q = some b → b.pinned = true := by
  constructor
  · refine List.find?_eq_none.mpr fun i hi => ?_
    obtain ⟨q, b, hb, rfl, -⟩ := hall i (List.mem_range.mp hi)
    have hocc := (h.entry (placeOf_of_lookup hb)).2.2
    simp [hocc]
  · intro q b hb
    have hplace := placeOf_of_lookup hb
    obtain ⟨p, c, hc, hpos, hpin⟩ := hall b.pos (h.entry hplace).2.1
    have hplace' := placeOf_of_lookup hc
    rw [hpos] at hplace'
    have heq := h.distinct hplace hplace'
    rw [heq, hc, Option.some.injEq] at hb
    rw [← hb]
    exact hpin

/-- The invariant gives the bookkeeping. -/
theorem Tracked.bookkept (h : s.Tracked ns) : s.Bookkept where
  list := ⟨ns, h.lru, h.pages, fun q => by rw [h.mem_pages, mem_keys_iff]⟩
  pos_lt := fun p b hb => (h.entry (placeOf_of_lookup hb)).2.1
  distinct := by
    intro p q b c hb hc hpos
    have hp := placeOf_of_lookup hb
    rw [hpos] at hp
    exact h.distinct hp (placeOf_of_lookup hc)
  count := h.count
  overrun := by
    intro q s' hfetch
    have hspec : wp (fetchPage q) (fun _ _ => True)
        (fun e _ => e = .bufferpoolOverrun → s.AllPinned) s := by
      refine fetchPage_wp h (fun _ _ _ _ => trivial) (fun _ _ _ _ _ _ _ _ => trivial)
        (fun hnone hall _ => h.allPinned hnone hall) ?_ ?_
      · intro q b e _ _ _ he heq
        exact absurd heq he
      · intro s1 pos _ _ _ _ e he heq
        exact absurd heq he
    exact wp_error hspec hfetch rfl

/-! ## The calls -/

/-- The call keeps out of the three traps. -/
def CleanCall (s : BufferPool) : PoolOp → Prop
  | .fetchPage pid =>
      s.ptable.lookup pid = none → (s.fileContent pid).isSome = true ∨ s.AllPinned
  | .freePage pid => s.ptable.lookup pid = none
  | .purge => s.ptable.keys = []
  | _ => True

/-- Some list of nodes is tracked. -/
def Kept (s : BufferPool) : Prop := ∃ ns, s.Tracked ns

theorem Kept.congr (h : s.Kept) (hl : s'.lru = s.lru) (hz : s'.bsize = s.bsize)
    (hs : s'.slots = s.slots) (hp : ∀ pid, s'.placeOf pid = s.placeOf pid) : s'.Kept := by
  obtain ⟨ns, h⟩ := h
  exact ⟨ns, h.congr hl hz hs hp⟩

/-- A table entry keeps its place when its flags change. -/
theorem Kept.update {g : BufSlot → BufSlot} (h : s.Kept)
    (hg : ∀ b, (g b).pos = b.pos ∧ (g b).lruNode = b.lruNode) :
    always (updateEntry pid g) Kept s := by
  refine updateEntry_wp (fun _ => h) fun b hb => ?_
  refine h.congr rfl rfl rfl fun q => ?_
  simp only [placeOf]
  by_cases hq : q = pid
  · rw [hq, AList.lookup_insert, hb, Option.map_some, Option.map_some, (hg b).1, (hg b).2]
  · rw [AList.lookup_insert_ne hq]

/-- Making room does not take a page out of its file. -/
theorem MadeRoom.fileContent_none (hm : MadeRoom s s') (hnone : s'.fileContent pid = none) :
    s.fileContent pid = none := by
  cases hm with
  | same => exact hnone
  | @evicted q b s1 _ hb hpin hc hr =>
      have h1 : s1.fileContent pid = none := by
        rw [fileContent, ← hr.files, ← fileContent]
        exact hnone
      cases hd : b.dirty with
      | false => rwa [hc.clean hd] at h1
      | true =>
          rw [(hc.dirty hd).file] at h1
          split at h1
          · cases h1
          · exact h1

theorem Kept.fetch (h : s.Kept)
    (hclean : s.ptable.lookup pid = none → (s.fileContent pid).isSome = true ∨ s.AllPinned) :
    always (fetchPage pid) Kept s := by
  obtain ⟨ns, h⟩ := h
  refine fetchPage_wp h ?_ ?_ (fun _ _ => ⟨ns, h⟩) (fun _ _ _ _ _ _ _ => ⟨ns, h⟩) ?_
  · intro b l' hb hl'
    obtain ⟨l'', hl'', ns', h'⟩ := h.moved hb
    rw [hl', Option.some.injEq] at hl''
    rw [hl'']
    exact ⟨ns', h'⟩
  · intro s1 pos pg s' hnone hm _ hi
    obtain ⟨ns1, h1⟩ := hm.tracked h
    exact ⟨_, h1.inserted (hm.lookup_none hnone) hi⟩
  · intro s1 pos hnone hm hfree hcont e _
    rcases hclean hnone with hsome | hall
    · rw [hm.fileContent_none hcont] at hsome
      cases hsome
    · -- no room can be made when every page is pinned
      obtain ⟨hfull, hpinned⟩ := h.no_room hall
      cases hm with
      | same =>
          rw [hfull] at hfree
          cases hfree
      | evicted hb hpin _ _ =>
          rw [hpinned _ _ hb] at hpin
          cases hpin

theorem Kept.allocate (h : s.Kept) (file : Nat) : always (allocatePage file) Kept s := by
  rw [allocatePage, always, wp_bind]
  refine withFile_wp (fun _ => h) fun f hf => ?_
  refine allocatePage_wp (fun raw f' hal => ?_) fun e f' _ _ => ?_
  · have h1 : (s.setFile file f').Kept := h.congr rfl rfl rfl fun _ => rfl
    refine always_bind (h1.fetch fun _ => .inl ?_) fun _ _ hs => hs
    rw [fileContent_setFile, if_pos rfl, if_pos hal.used]
    rfl
  · exact h.congr rfl rfl rfl fun _ => rfl

theorem Kept.flushPage (h : s.Kept) (evict : Bool) :
    always (BufferPool.flushPage pid evict) Kept s := by
  obtain ⟨ns, h⟩ := h
  refine flushPage_wp h (fun _ => ⟨ns, h⟩) ?_ ?_ fun _ _ _ _ _ _ => ⟨ns, h⟩
  · intro b s1 hb hf
    exact ⟨ns, hf.tracked hb h⟩
  · intro b s1 s' hb hf hr
    have h1 := hf.tracked hb h
    have hb1 : s1.ptable.lookup pid = some { b with dirty := false } := by
      rw [hf.lookup, if_pos rfl]
    obtain ⟨xs, ys, rfl⟩ := h1.split hb1
    exact ⟨xs ++ ys, h1.removed hb1 hr⟩

theorem Kept.flushWhere (h : s.Kept) (p : PageId → Bool) :
    always (BufferPool.flushWhere p) Kept s := by
  refine flushWhere_wp Kept h ?_ (fun _ hs _ => hs) fun _ _ _ _ ht _ _ _ _ => ht
  rintro t q b t' ⟨ns, ht⟩ hb hf
  exact ⟨ns, hf.tracked hb ht⟩

theorem Kept.writeInPlace (h : s.Kept) (g : Page → Page) :
    always (BufferPool.writeInPlace pid g) Kept s := by
  simp only [BufferPool.writeInPlace, wp_bind, wp_get]
  cases hb : s.ptable.lookup pid with
  | none => exact h
  | some b =>
      simp only [setPage, wp_bind, wp_modify]
      have h1 : ({ s with
          buffer := fun i => if i = b.pos then g (s.buffer b.pos) else s.buffer i } :
          BufferPool).Kept :=
        h.congr rfl rfl rfl fun _ => rfl
      exact h1.update fun _ => ⟨rfl, rfl⟩

/-- A pool without pages and with all slots free is in step. -/
theorem tracked_empty (hl : s.lru.Repr []) (hp : ∀ q, s.placeOf q = none)
    (hs : ∀ i, s.slots i = true) : s.Tracked [] where
  lru := hl
  pages := List.Pairwise.nil
  entry := by
    intro q i a hq
    rw [hp] at hq
    cases hq
  listed := by
    intro q a hq
    cases hq
  distinct := by
    intro p q i a b hq
    rw [hp] at hq
    cases hq
  owned := by
    intro i _ hocc
    rw [hs] at hocc
    cases hocc

/-- Purging an empty pool changes nothing that matters. -/
theorem Kept.purge (h : s.Kept) (hempty : s.ptable.keys = []) : always BufferPool.purge Kept s := by
  obtain ⟨ns, h⟩ := h
  have hns : ns = [] := by
    have hlen := h.length_eq
    rw [hempty, List.length_nil] at hlen
    exact List.eq_nil_of_length_eq_zero hlen
  subst hns
  obtain ⟨c, hc, hnext⟩ := Cells.isSome_of_nextOf h.lru.seg.next
  have hclear : s.lru.clear = some { s.lru with size := 0 } := by
    simp only [LruList.clear, hc, hnext, Option.bind_eq_bind, Option.bind_some]
    rfl
  simp only [BufferPool.purge, always, wp_bind, wp_modify]
  refine lruUnit_wp hclear ?_
  refine ⟨[], tracked_empty ?_ (fun _ => rfl) fun _ => rfl⟩
  exact ⟨h.lru.seg, h.lru.nodup, h.lru.page, h.lru.lt_fresh, rfl⟩

/-- A clean call keeps the invariant, also when it throws. -/
theorem Kept.call (h : s.Kept) {op : PoolOp} (hclean : s.CleanCall op) :
    always (call op) Kept s := by
  have hmap : ∀ {α : Type} {f : α → Option PageId} {x : M α}, always x Kept s →
      always (f <$> x) Kept s := by
    intro α f x hx
    rw [always, wp_map]
    exact hx
  cases op with
  | allocatePage file => exact hmap (h.allocate file)
  | fetchPage pid => exact hmap (h.fetch hclean)
  | writeInPlace pid g => exact hmap (h.writeInPlace g)
  | markDirty pid => exact hmap (h.update fun _ => ⟨rfl, rfl⟩)
  | flushPage pid evict => exact hmap (h.flushPage evict)
  | flushAll => exact hmap (h.flushWhere _)
  | flushPages file => exact hmap (h.flushWhere _)
  | freePage pid =>
      refine hmap ?_
      simp only [BufferPool.freePage, always, wp_bind, wp_get,
        show s.ptable.lookup pid = none from hclean]
      exact h
  | pinPage pid => exact hmap (h.update fun _ => ⟨rfl, rfl⟩)
  | unpinPage pid => exact hmap (h.update fun _ => ⟨rfl, rfl⟩)
  | purge => exact hmap (h.purge hclean)

theorem Kept.step (h : s.Kept) {op : PoolOp} (hclean : s.CleanCall op) (hs : s.step op = some s') :
    s'.Kept := by
  have hcall := h.call hclean
  rw [BufferPool.step] at hs
  cases hr : BufferPool.call op s with
  | ok r t =>
      rw [hr] at hs
      cases hs
      exact wp_ok hcall hr
  | error e t =>
      rw [hr] at hs
      simp only at hs
      split at hs
      · cases hs
        exact wp_error hcall hr
      · cases hs

/-! ## Runs -/

/-- Every call of the run is clean in the state it is made in. -/
def CleanRun : BufferPool → List PoolOp → Prop
  | _, [] => True
  | s, op :: ops => s.CleanCall op ∧ ∀ s', s.step op = some s' → s'.CleanRun ops

theorem Kept.run (h : s.Kept) {ops : List PoolOp} (hclean : s.CleanRun ops)
    (hrun : s.run ops = some s') : s'.Kept := by
  induction ops generalizing s with
  | nil =>
      cases hrun
      exact h
  | cons op ops ih =>
      obtain ⟨hop, hrest⟩ := hclean
      obtain ⟨t, ht, hrun⟩ := Option.bind_eq_some_iff.mp hrun
      exact ih (h.step hop ht) (hrest t ht) hrun

theorem kept_new (bsize : Nat) (buffer : Nat → Page) (files : Nat → Option (PagedFile Page)) :
    (new bsize buffer files).Kept :=
  ⟨[], tracked_empty LruList.empty_repr (fun _ => rfl) fun _ => rfl⟩

end BufferPool

open BufferPool

/-- In every pool that a run of clean calls leads to, page table, slots and
LRU list say the same, and a fetch finds no slot only if all are pinned. -/
theorem clean_runs_keep_books (bsize : Nat) (buffer : Nat → Page)
    (files : Nat → Option (PagedFile Page)) (ops : List PoolOp) (s : BufferPool)
    (hclean : (BufferPool.new bsize buffer files).CleanRun ops)
    (hrun : (BufferPool.new bsize buffer files).run ops = some s) : s.Bookkept := by
  obtain ⟨ns, h⟩ := (kept_new bsize buffer files).run hclean hrun
  exact h.bookkept

/-- A file without pages. -/
def emptyFile : PagedFile Page := ⟨0, fun _ => false, fun _ => Page.zero, PagedFile.noSlots⟩

/-- A pool of two slots with three pages, one of them evicted on the way. -/
theorem clean_runs_keep_books_evicting : ∃ s,
    (BufferPool.new 2 (fun _ => Page.zero) fun i => if i = 0 then some emptyFile else none).run
      [.allocatePage 0, .allocatePage 0, .markDirty ⟨0, 1⟩, .allocatePage 0, .fetchPage ⟨0, 1⟩] =
        some s ∧ s.Bookkept := by
  obtain ⟨s, hs⟩ : ∃ s, (BufferPool.new 2 (fun _ => Page.zero)
      fun i => if i = 0 then some emptyFile else none).run
      [.allocatePage 0, .allocatePage 0, .markDirty ⟨0, 1⟩, .allocatePage 0, .fetchPage ⟨0, 1⟩] =
        some s := ⟨_, rfl⟩
  refine ⟨s, hs, clean_runs_keep_books _ _ _ _ s ?_ hs⟩
  refine ⟨trivial, fun _ h1 => ⟨trivial,
    fun _ h2 => ⟨trivial, fun _ h3 => ⟨trivial, fun _ h4 => ?_⟩⟩⟩⟩
  cases h1
  cases h2
  cases h3
  cases h4
  exact ⟨fun _ => .inl rfl, fun _ _ => trivial⟩

/-- One slot, one page that is allocated and freed: the slot stays occupied
with nothing in it. -/
theorem free_page_leaks_slot : ∃ s,
    (BufferPool.new 1 (fun _ => Page.zero) fun i => if i = 0 then some emptyFile else none).run
      [.allocatePage 0, .freePage ⟨0, 1⟩] = some s ∧ ¬s.Bookkept := by
  refine ⟨_, rfl, fun h => ?_⟩
  have hcount := h.count
  revert hcount
  decide

end Poseidon
