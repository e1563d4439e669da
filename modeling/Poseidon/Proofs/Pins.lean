import Poseidon.Proofs.PoolBookkeeping

/-!
# Pinned pages stay

A pin is a flag of the table entry, so it protects a page for one holder at a
time: the first `unpin_page` takes the protection from all of them. The ghost
map `held` of `Secure` says which pages are protected, where they are and
what they hold. Fetching and allocating pages leave all of it alone, whatever
they evict and also when they throw: a pinned page is never evicted, and no
two pages share a slot.

For the latter nothing is needed of the LRU list, and a slot that a failed
fetch has taken away does no harm.
-/

namespace Poseidon

open Wp

namespace BufferPool

/-- Cached pages have slots of their own, which are not free. -/
structure Apart (s : BufferPool) : Prop where
  occupied : ∀ {pid b}, s.ptable.lookup pid = some b → s.slots b.pos = false
  distinct : ∀ {p q b c}, s.ptable.lookup p = some b → s.ptable.lookup q = some c →
    b.pos = c.pos → p = q

/-- The page is in the slot `pos`, pinned, and holds `pg`. -/
def PinnedAt (s : BufferPool) (pid : PageId) (pos : Nat) (pg : Page) : Prop :=
  ∃ b, s.ptable.lookup pid = some b ∧ b.pos = pos ∧ b.pinned = true ∧ s.buffer pos = pg

/-- The pages of `held` are pinned where it says. -/
structure Secure (s : BufferPool) (held : PageId → Option (Nat × Page)) : Prop where
  apart : s.Apart
  pinned : ∀ {pid pos pg}, held pid = some (pos, pg) → s.PinnedAt pid pos pg

variable {s s' : BufferPool} {held : PageId → Option (Nat × Page)} {pid q : PageId} {pos : Nat}
  {pg : Page} {b : BufSlot}

/-- Nothing has happened to table, slots and pages. -/
structure SameCache (s s' : BufferPool) : Prop where
  ptable : s'.ptable = s.ptable
  slots : s'.slots = s.slots
  buffer : s'.buffer = s.buffer

theorem Secure.congr (h : s.Secure held) (hs : SameCache s s') : s'.Secure held where
  apart := by
    refine ⟨fun hp => ?_, fun hp hq => ?_⟩
    · rw [hs.ptable] at hp
      rw [hs.slots]
      exact h.apart.occupied hp
    · rw [hs.ptable] at hp hq
      exact h.apart.distinct hp hq
  pinned := by
    intro pid pos pg hpid
    obtain ⟨b, hb, hrest⟩ := h.pinned hpid
    exact ⟨b, by rw [hs.ptable]; exact hb, by rw [hs.buffer]; exact hrest⟩

theorem withFile_same {α : Type} {i : Nat} {x : PagedFile.M Page α} :
    always (withFile i x) (SameCache s) s := by
  simp only [always, wp, withFile]
  cases hf : s.files i with
  | none => exact ⟨rfl, rfl, rfl⟩
  | some f =>
      simp only []
      cases x f with
      | ok a f' => exact ⟨rfl, rfl, rfl⟩
      | error e f' => exact ⟨rfl, rfl, rfl⟩

theorem withLru_same {α : Type} {x : LruList → Option (α × LruList)} :
    always (withLru x) (SameCache s) s := by
  simp only [always, wp, withLru]
  cases hx : x s.lru with
  | none => exact ⟨rfl, rfl, rfl⟩
  | some r => exact ⟨rfl, rfl, rfl⟩

/-- The computation leaves the protected pages alone, also when it throws. -/
abbrev Secures {α : Type} (x : M α) (held : PageId → Option (Nat × Page)) (s : BufferPool) : Prop :=
  wp x (fun _ s => s.Secure held) (fun e s => e.isException = true → s.Secure held) s

/-! ## Eviction -/

/-- A page that is not pinned is not protected. -/
theorem Secure.ne_of_unpinned (h : s.Secure held) (hb : s.ptable.lookup pid = some b)
    (hpin : b.pinned = false) {x : Nat × Page} (hq : held q = some x) : q ≠ pid := by
  rintro rfl
  obtain ⟨c, hc, -, hcp, -⟩ := h.pinned hq
  rw [hb, Option.some.injEq] at hc
  rw [← hc, hpin] at hcp
  cases hcp

/-- `s'` is `s` without the page `pid`; other slots are as before. -/
structure Dropped (s s' : BufferPool) (pid : PageId) (b : BufSlot) : Prop where
  ptable : s'.ptable = s.ptable.erase pid
  slots : ∀ i, i ≠ b.pos → s'.slots i = s.slots i
  buffer : ∀ i, i ≠ b.pos → s'.buffer i = s.buffer i

theorem Secure.dropped (h : s.Secure held) (hb : s.ptable.lookup pid = some b)
    (hpin : b.pinned = false) (hd : Dropped s s' pid b) : s'.Secure held := by
  have hne : ∀ {p c}, s.ptable.lookup p = some c → p ≠ pid → c.pos ≠ b.pos :=
    fun hc hp heq => hp (h.apart.distinct hc hb heq)
  have hlook : ∀ {p c}, s'.ptable.lookup p = some c → p ≠ pid ∧ s.ptable.lookup p = some c := by
    intro p c hc
    rw [hd.ptable] at hc
    by_cases hp : p = pid
    · rw [hp, AList.lookup_erase] at hc
      cases hc
    · rw [AList.lookup_erase_ne hp] at hc
      exact ⟨hp, hc⟩
  refine ⟨⟨fun hc => ?_, fun hc he => ?_⟩, fun {p pos pg} hp => ?_⟩
  · obtain ⟨hp, hc⟩ := hlook hc
    rw [hd.slots _ (hne hc hp)]
    exact h.apart.occupied hc
  · exact h.apart.distinct (hlook hc).2 (hlook he).2
  · have hpne := h.ne_of_unpinned hb hpin hp
    obtain ⟨c, hc, rfl, hcp, hpg⟩ := h.pinned hp
    refine ⟨c, ?_, rfl, hcp, ?_⟩
    · rw [hd.ptable, AList.lookup_erase_ne hpne, hc]
    · rw [hd.buffer _ (hne hc hpne), hpg]

section

variable {K : BufferPool → Prop}

theorem dropEntry_keeps
    (hdrop : ∀ s s' pid b, K s → s.ptable.lookup pid = some b → b.pinned = false →
      Dropped s s' pid b → K s') (h : K s) (hb : s.ptable.lookup pid = some b)
    (hpin : b.pinned = false) :
    wp (do
      setSlot b.pos true
      wipe b.pos
      lruUnit (·.remove b.lruNode)
      eraseEntry pid
      pure true : M Bool) (fun _ => K) (fun e s => e.isException = true → K s) s := by
  simp only [setSlot, wipe, eraseEntry, wp_bind, wp_modify, wp_pure]
  simp only [wp, lruUnit, withLru]
  cases hx : s.lru.remove b.lruNode with
  | none => exact fun he => by cases he
  | some l =>
      refine hdrop s _ pid b h hb hpin ⟨rfl, fun i hi => ?_, fun i hi => ?_⟩
      · exact if_neg hi
      · exact if_neg hi

/-- Eviction keeps what does not depend on files and list, nor on a page that
is not pinned. -/
theorem evictFrom_keeps (hsame : ∀ s s', K s → SameCache s s' → K s')
    (hdrop : ∀ s s' pid b, K s → s.ptable.lookup pid = some b → b.pinned = false →
      Dropped s s' pid b → K s') : ∀ (fuel n : Nat) (s : BufferPool), K s →
    wp (evictFrom fuel n) (fun _ => K) (fun e s => e.isException = true → K s) s := by
  intro fuel
  induction fuel with
  | zero => exact fun _ _ h _ => h
  | succ fuel ih =>
      intro n s h
      rw [evictFrom]
      refine wp_ite (fun _ => h) fun _ => ?_
      rw [wp_get_bind]
      cases s.lru.nodes n with
      | none => exact fun _ => h
      | some c =>
          simp only []
          cases hb : s.ptable.lookup c.val with
          | none =>
              cases c.next with
              | none => exact fun _ => h
              | some nn => exact ih nn s h
          | some b =>
              refine wp_ite (fun _ => ?_) fun hpin => ?_
              · cases c.next with
                | none => exact fun _ => h
                | some nn => exact ih nn s h
              · have hpin := Bool.eq_false_iff.mpr hpin
                refine wp_ite (fun _ => ?_) fun _ => dropEntry_keeps hdrop h hb hpin
                rw [writePageToFile, wp_bind, wp_get_bind]
                refine wp_mono withFile_same (fun _ s' hs => ?_) fun e s' hs _ => hsame s s' h hs
                exact dropEntry_keeps hdrop (hsame s s' h hs) (by rw [hs.ptable]; exact hb) hpin

theorem evictPage_keeps (hsame : ∀ s s', K s → SameCache s s' → K s')
    (hdrop : ∀ s s' pid b, K s → s.ptable.lookup pid = some b → b.pinned = false →
      Dropped s s' pid b → K s') (h : K s) :
    wp evictPage (fun _ => K) (fun e s => e.isException = true → K s) s := by
  rw [evictPage, wp_get_bind]
  split
  · exact evictFrom_keeps hsame hdrop _ _ s h
  · exact fun _ => h

end

/-- A pinned page is not evicted. -/
theorem Secure.evictPage (h : s.Secure held) : Secures BufferPool.evictPage held s :=
  evictPage_keeps (fun _ _ h hs => h.congr hs) (fun _ _ _ _ h hb hpin hd => h.dropped hb hpin hd) h

/-- Eviction puts nothing in. -/
theorem Secure.evictPage_uncached (h : s.Secure held) (hnone : s.ptable.lookup pid = none) :
    wp BufferPool.evictPage (fun _ s => s.Secure held ∧ s.ptable.lookup pid = none)
      (fun e s => e.isException = true → s.Secure held ∧ s.ptable.lookup pid = none) s := by
  refine evictPage_keeps (fun _ _ h hs => ⟨h.1.congr hs, by rw [hs.ptable, h.2]⟩)
    (fun t t' q b h hb hpin hd => ⟨h.1.dropped hb hpin hd, ?_⟩) ⟨h, hnone⟩
  rw [hd.ptable]
  by_cases hq : pid = q
  · rw [hq, AList.lookup_erase]
  · rw [AList.lookup_erase_ne hq, h.2]

/-! ## Fetching and allocating -/

/-- An entry for a page that was not cached, in a slot of its own. -/
theorem Secure.inserted (h : s.Secure held) (hnone : s.ptable.lookup pid = none)
    (hocc : s.slots b.pos = false) (hown : ∀ q c, s.ptable.lookup q = some c → c.pos ≠ b.pos) :
    ({ s with ptable := s.ptable.insert pid b } : BufferPool).Secure held := by
  have hlook : ∀ {q c}, (s.ptable.insert pid b).lookup q = some c →
      q = pid ∧ c = b ∨ s.ptable.lookup q = some c := by
    intro q c hc
    by_cases hq : q = pid
    · rw [hq, AList.lookup_insert] at hc
      exact .inl ⟨hq, (Option.some.inj hc).symm⟩
    · rw [AList.lookup_insert_ne hq] at hc
      exact .inr hc
  refine ⟨⟨fun {q c} hc => ?_, fun {p q c d} hc hd heq => ?_⟩, fun {q pos pg} hq => ?_⟩
  · rcases hlook hc with ⟨-, rfl⟩ | hc
    · exact hocc
    · exact h.apart.occupied hc
  · rcases hlook hc with ⟨hp, hcb⟩ | hc'
    · rcases hlook hd with ⟨hq, -⟩ | hd'
      · rw [hp, hq]
      · rw [hcb] at heq
        exact absurd heq.symm (hown q d hd')
    · rcases hlook hd with ⟨-, hdb⟩ | hd'
      · rw [hdb] at heq
        exact absurd heq (hown p c hc')
      · exact h.apart.distinct hc' hd' heq
  · obtain ⟨c, hc, hrest⟩ := h.pinned hq
    refine ⟨c, ?_, hrest⟩
    have hne : q ≠ pid := by
      rintro rfl
      rw [hnone] at hc
      cases hc
    show (s.ptable.insert pid b).lookup q = some c
    rw [AList.lookup_insert_ne hne, hc]

/-- Taking a slot that is free and filling it. -/
theorem Secure.taken (h : s.Secure held) (hfree : s.slots pos = true) (ht : s'.ptable = s.ptable)
    (hslots : s'.slots = fun i => if i = pos then false else s.slots i)
    (hbuf : ∀ i, i ≠ pos → s'.buffer i = s.buffer i) :
    s'.Secure held ∧ s'.slots pos = false ∧ ∀ q c, s'.ptable.lookup q = some c → c.pos ≠ pos := by
  have hne : ∀ q c, s.ptable.lookup q = some c → c.pos ≠ pos := by
    rintro q c hc rfl
    rw [h.apart.occupied hc] at hfree
    cases hfree
  refine ⟨⟨⟨fun {q c} hc => ?_, fun hc hd => ?_⟩, fun {q i pg} hq => ?_⟩, ?_, ?_⟩
  · rw [ht] at hc
    rw [hslots]
    simp only [hne q c hc, if_false]
    exact h.apart.occupied hc
  · rw [ht] at hc hd
    exact h.apart.distinct hc hd
  · obtain ⟨c, hc, rfl, hcp, hpg⟩ := h.pinned hq
    exact ⟨c, by rw [ht, hc], rfl, hcp, by rw [hbuf _ (hne q c hc), hpg]⟩
  · rw [hslots]
    exact if_pos rfl
  · rw [ht]
    exact hne

/-- Loading a page that is not cached, and entering it in list and table. -/
theorem Secure.loadPage (h : s.Secure held) (hnone : s.ptable.lookup pid = none) :
    Secures (do
      let pos ← loadPageFromFile pid
      let node ← withLru (·.addToMru pid)
      modify fun s => { s with ptable := s.ptable.insert pid ⟨false, false, pos, node⟩ }
      pure pos : M Nat) held s := by
  rw [Secures, loadPageFromFile, wp_bind, wp_get_bind]
  cases hpos : s.findFirst with
  | none => exact fun _ => h
  | some pos =>
      have hfree : s.slots pos = true := List.find?_some hpos
      simp only [setSlot, wp_bind, wp_modify]
      refine wp_mono withFile_same (fun pg t ht => ?_) fun e t ht _ => ?_
      · simp only [setPage, wp_modify, wp_pure]
        have hbuf : ∀ i, i ≠ pos → (if i = pos then pg else t.buffer i) = s.buffer i := by
          intro i hi
          rw [if_neg hi, ht.buffer]
        obtain ⟨hsec, hocc, hown⟩ : Secure
          { t with buffer := fun i => if i = pos then pg else t.buffer i }
          held ∧ _ := h.taken hfree ht.ptable ht.slots hbuf
        refine wp_mono withLru_same (fun node u hu => ?_) fun e u hu _ => hsec.congr hu
        refine (hsec.congr hu).inserted ?_ ?_ ?_
        · rw [hu.ptable]
          exact ht.ptable ▸ hnone
        · rw [hu.slots]
          exact hocc
        · rw [hu.ptable]
          exact hown
      · exact (h.taken hfree ht.ptable ht.slots fun i _ => by rw [ht.buffer]).1

theorem Secure.fetchPage (h : s.Secure held) (pid : PageId) :
    Secures (BufferPool.fetchPage pid) held s := by
  rw [Secures, BufferPool.fetchPage, wp_get_bind]
  cases hb : s.ptable.lookup pid with
  | some b =>
      simp only [lruUnit, wp_bind, wp_pure]
      exact wp_mono withLru_same (fun _ _ hs => h.congr hs) fun _ _ hs _ => h.congr hs
  | none =>
      refine wp_ite (fun _ => ?_) fun _ => h.loadPage hb
      rw [wp_bind]
      exact wp_mono (h.evictPage_uncached hb) (fun _ s' hs => hs.1.loadPage hs.2)
        fun e s' hs he => (hs he).1

theorem Secure.allocatePage (h : s.Secure held) (file : Nat) :
    Secures (BufferPool.allocatePage file) held s := by
  rw [Secures, BufferPool.allocatePage, wp_bind]
  refine wp_mono withFile_same (fun raw t ht => ?_) fun e t ht _ => h.congr ht
  rw [wp_bind]
  exact (h.congr ht).fetchPage _

/-! ## Changing an entry -/

/-- An entry that changes and keeps its slot. -/
theorem Secure.updated {held' : PageId → Option (Nat × Page)} {c : BufSlot} (h : s.Secure held)
    (hb : s.ptable.lookup pid = some b) (hpos : c.pos = b.pos)
    (hheld : ∀ q x, held' q = some x → q ≠ pid ∧ held q = some x ∨
      q = pid ∧ c.pinned = true ∧ x = (b.pos, s.buffer b.pos)) :
    ({ s with ptable := s.ptable.insert pid c } : BufferPool).Secure held' := by
  have hlook : ∀ {q d}, (s.ptable.insert pid c).lookup q = some d →
      ∃ d', s.ptable.lookup q = some d' ∧ d'.pos = d.pos := by
    intro q d hd
    by_cases hq : q = pid
    · rw [hq, AList.lookup_insert, Option.some.injEq] at hd
      exact ⟨b, by rw [hq, hb], by rw [← hd, hpos]⟩
    · rw [AList.lookup_insert_ne hq] at hd
      exact ⟨d, hd, rfl⟩
  refine ⟨⟨fun hd => ?_, fun hd he heq => ?_⟩, fun {q pos pg} hq => ?_⟩
  · obtain ⟨d', hd', hp⟩ := hlook hd
    rw [← hp]
    exact h.apart.occupied hd'
  · obtain ⟨d', hd', hp⟩ := hlook hd
    obtain ⟨e', he', hp'⟩ := hlook he
    exact h.apart.distinct hd' he' (by rw [hp, hp', heq])
  · rcases hheld q _ hq with ⟨hne, hq⟩ | ⟨rfl, hpin, hx⟩
    · obtain ⟨d, hd, hrest⟩ := h.pinned hq
      refine ⟨d, ?_, hrest⟩
      show (s.ptable.insert pid c).lookup q = some d
      rw [AList.lookup_insert_ne hne, hd]
    · cases hx
      exact ⟨c, AList.lookup_insert _, hpos, hpin, rfl⟩

theorem Secure.markDirty (h : s.Secure held) (pid : PageId) :
    Secures (BufferPool.markDirty pid) held s := by
  simp only [Secures, BufferPool.markDirty, updateEntry, wp_modify]
  cases hb : s.ptable.lookup pid with
  | none => exact h
  | some b =>
      refine h.updated hb rfl fun q x hq => ?_
      by_cases hne : q = pid
      · obtain ⟨c, hc, hpos, hpin, hpg⟩ := h.pinned hq
        rw [hne, hb, Option.some.injEq] at hc
        rw [← hc] at hpos hpin
        exact .inr ⟨hne, hpin, by rw [hpos, hpg]⟩
      · exact .inl ⟨hne, hq⟩

/-- The page after a call, when nobody else writes to it. -/
def rewrites (pid : PageId) : PoolOp → Page → Page
  | .writeInPlace q g, pg => if q = pid then g pg else pg
  | _, pg => pg

theorem Secure.writeInPlace (h : s.Secure held) (pid : PageId) (g : Page → Page) :
    Secures (BufferPool.writeInPlace pid g)
      (fun q => (held q).map fun x => (x.1, rewrites q (.writeInPlace pid g) x.2)) s := by
  rw [Secures, BufferPool.writeInPlace, wp_get_bind]
  cases hb : s.ptable.lookup pid with
  | none => exact fun he => by cases he
  | some b =>
      simp only [setPage, wp_bind, wp_modify]
      have hsec : ({ s with
          buffer := fun i => if i = b.pos then g (s.buffer b.pos) else s.buffer i } :
          BufferPool).Secure
          fun q => (held q).map fun x => (x.1, rewrites q (.writeInPlace pid g) x.2) := by
        refine ⟨⟨h.apart.occupied, h.apart.distinct⟩, fun {q pos pg} hq => ?_⟩
        obtain ⟨x, hx, heq⟩ := Option.map_eq_some_iff.mp hq
        cases heq
        obtain ⟨c, hc, hpos, hpin, hpg⟩ := h.pinned hx
        refine ⟨c, hc, hpos, hpin, ?_⟩
        show (if x.1 = b.pos then g (s.buffer b.pos) else s.buffer x.1) =
          if pid = q then g x.2 else x.2
        by_cases hq : pid = q
        · subst hq
          rw [hb, Option.some.injEq] at hc
          rw [← hc] at hpos
          rw [← hpos, if_pos rfl, if_pos rfl, hpos, hpg]
        · have hne : x.1 ≠ b.pos := by
            intro heq
            rw [← hpos] at heq
            exact hq (h.apart.distinct hb hc heq.symm)
          rw [if_neg hne, if_neg hq, hpg]
      exact hsec.markDirty pid

theorem Secure.pinPage (h : s.Secure held) (hb : s.ptable.lookup pid = some b) :
    Secures (BufferPool.pinPage pid)
      (fun q => if q = pid then some (b.pos, s.buffer b.pos) else held q) s := by
  simp only [Secures, BufferPool.pinPage, updateEntry, wp_modify, hb]
  refine h.updated hb rfl fun q x hq => ?_
  split at hq
  · next heq => exact .inr ⟨heq, rfl, (Option.some.inj hq).symm⟩
  · next hne => exact .inl ⟨hne, hq⟩

theorem Secure.unpinPage (h : s.Secure held) (pid : PageId) :
    Secures (BufferPool.unpinPage pid) (fun q => if q = pid then none else held q) s := by
  simp only [Secures, BufferPool.unpinPage, updateEntry, wp_modify]
  cases hb : s.ptable.lookup pid with
  | none =>
      refine ⟨h.apart, fun {q pos pg} hq => ?_⟩
      split at hq
      · cases hq
      · exact h.pinned hq
  | some b =>
      refine h.updated hb rfl fun q x hq => ?_
      split at hq
      · cases hq
      · next hqp => exact .inl ⟨hqp, hq⟩

/-! ## Runs -/

/-- The pins minus the unpins of each page, after a call. -/
def balance (k : PageId → Int) : PoolOp → PageId → Int
  | .pinPage pid => fun q => if q = pid then k q + 1 else k q
  | .unpinPage pid => fun q => if q = pid then k q - 1 else k q
  | _ => k

/-- Calls that pin, unpin, fetch, allocate and write. A page is pinned when it
is in the pool, and unpinned by its last holder only. -/
def PinCall (s : BufferPool) (k : PageId → Int) : PoolOp → Prop
  | .pinPage pid => 0 ≤ k pid → (s.ptable.lookup pid).isSome = true
  | .unpinPage pid => k pid ≤ 1
  | .fetchPage _ => True
  | .allocatePage _ => True
  | .writeInPlace _ _ => True
  | .markDirty _ => True
  | _ => False

/-- Every call of the run is of this kind in the state it is made in. -/
def PinRun : BufferPool → (PageId → Int) → List PoolOp → Prop
  | _, _, [] => True
  | s, k, op :: ops => s.PinCall k op ∧ ∀ s', s.step op = some s' → s'.PinRun (balance k op) ops

/-- The page has a holder all the time. -/
def HeldThrough (pid : PageId) : (PageId → Int) → List PoolOp → Prop
  | k, [] => 0 < k pid
  | k, op :: ops => 0 < k pid ∧ HeldThrough pid (balance k op) ops

instance decidableHeldThrough (pid : PageId) : ∀ k ops, Decidable (HeldThrough pid k ops)
  | k, [] => inferInstanceAs (Decidable (0 < k pid))
  | k, op :: ops =>
      have := decidableHeldThrough pid (balance k op) ops
      inferInstanceAs (Decidable (0 < k pid ∧ HeldThrough pid (balance k op) ops))

variable {k : PageId → Int} {op : PoolOp} {ops : List PoolOp}

theorem secure_of_step (h : Secures (call op) held s) (hs : s.step op = some s') :
    s'.Secure held := by
  rw [step] at hs
  simp only [Secures, wp] at h
  cases hr : call op s with
  | ok r t =>
      rw [hr] at h hs
      cases hs
      exact h
  | error e t =>
      rw [hr] at h hs
      simp only at hs
      split at hs
      · next he =>
          cases hs
          exact h he
      · cases hs

/-- A call keeps the pages that have a holder before and after it. -/
theorem Secure.step (h : s.Secure held) (hk : ∀ pid, 0 < k pid → (held pid).isSome = true)
    (hop : s.PinCall k op) (hs : s.step op = some s') :
    ∃ held', s'.Secure held' ∧ (∀ pid, 0 < balance k op pid → (held' pid).isSome = true) ∧
      ∀ pid, 0 < k pid → 0 < balance k op pid →
        held' pid = (held pid).map fun x => (x.1, rewrites pid op x.2) := by
  have hid : ∀ pid, held pid = (held pid).map fun x => (x.1, x.2) := by
    intro pid
    cases held pid with
    | none => rfl
    | some x => rfl
  cases op with
  | allocatePage file =>
      refine ⟨held, secure_of_step ?_ hs, hk, fun pid _ _ => hid pid⟩
      rw [Secures, BufferPool.call, wp_map]
      exact h.allocatePage file
  | fetchPage pid =>
      refine ⟨held, secure_of_step ?_ hs, hk, fun pid _ _ => hid pid⟩
      rw [Secures, BufferPool.call, wp_map]
      exact h.fetchPage pid
  | markDirty pid =>
      refine ⟨held, secure_of_step ?_ hs, hk, fun pid _ _ => hid pid⟩
      rw [Secures, BufferPool.call, wp_map]
      exact h.markDirty pid
  | writeInPlace pid g =>
      refine ⟨_, secure_of_step ?_ hs, fun q hq => ?_, fun _ _ _ => rfl⟩
      · rw [Secures, BufferPool.call, wp_map]
        exact h.writeInPlace pid g
      · rw [Option.isSome_map]
        exact hk q hq
  | pinPage pid =>
      have hother : ∀ q, q ≠ pid → balance k (.pinPage pid) q = k q := fun q hq => if_neg hq
      cases hb : s.ptable.lookup pid with
      | none =>
          -- the pin has no effect, and makes up for an unpin without one
          have hneg : k pid < 0 := by
            by_contra hle
            have hsome := hop (by omega)
            rw [hb] at hsome
            cases hsome
          refine ⟨held, secure_of_step ?_ hs, fun q hq => ?_, fun q _ _ => hid q⟩
          · rw [Secures, BufferPool.call, wp_map]
            simp only [BufferPool.pinPage, updateEntry, wp_modify, hb]
            exact h
          · by_cases hqp : q = pid
            · have hself : balance k (.pinPage pid) pid = k pid + 1 := if_pos rfl
              rw [hqp, hself] at hq
              omega
            · rw [hother q hqp] at hq
              exact hk q hq
      | some b =>
          refine ⟨fun q => if q = pid then some (b.pos, s.buffer b.pos) else held q,
            secure_of_step ?_ hs, fun q hq => ?_, fun q hq _ => ?_⟩
          · rw [Secures, BufferPool.call, wp_map]
            exact h.pinPage hb
          · beta_reduce
            split
            · rfl
            · next hne =>
                rw [hother q hne] at hq
                exact hk q hq
          · beta_reduce
            split
            · next heq =>
                -- a page that is pinned already is where it was
                subst heq
                obtain ⟨x, hx⟩ := Option.isSome_iff_exists.mp (hk q hq)
                obtain ⟨c, hc, hpos, -, hpg⟩ := h.pinned hx
                rw [hb, Option.some.injEq] at hc
                rw [hx, Option.map_some, hc, hpos, hpg]
                rfl
            · exact hid q
  | unpinPage pid =>
      have hself : balance k (.unpinPage pid) pid = k pid - 1 := if_pos rfl
      have hlast : k pid ≤ 1 := hop
      have hne : ∀ q, 0 < balance k (.unpinPage pid) q → q ≠ pid := by
        rintro q hq rfl
        omega
      refine ⟨fun q => if q = pid then none else held q, secure_of_step ?_ hs, fun q hq => ?_,
        fun q _ hq => ?_⟩
      · rw [Secures, BufferPool.call, wp_map]
        exact h.unpinPage pid
      · have hother : balance k (.unpinPage pid) q = k q := if_neg (hne q hq)
        beta_reduce
        rw [if_neg (hne q hq)]
        rw [hother] at hq
        exact hk q hq
      · beta_reduce
        rw [if_neg (hne q hq)]
        exact hid q
  | flushPage pid evict => exact hop.elim
  | flushAll => exact hop.elim
  | flushPages file => exact hop.elim
  | freePage pid => exact hop.elim
  | purge => exact hop.elim

/-- The balance after a run. -/
def balances (k : PageId → Int) (ops : List PoolOp) : PageId → Int := ops.foldl balance k

/-- What is made of a page in a run when nobody else writes to it. -/
def rewritten (pid : PageId) (ops : List PoolOp) (pg : Page) : Page :=
  ops.foldl (fun pg op => rewrites pid op pg) pg

theorem HeldThrough.now {pid : PageId} (h : HeldThrough pid k ops) : 0 < k pid := by
  cases ops with
  | nil => exact h
  | cons op ops => exact h.1

/-- A run keeps the pages that have a holder all the time. -/
theorem Secure.run (h : s.Secure held) (hk : ∀ pid, 0 < k pid → (held pid).isSome = true)
    (hops : s.PinRun k ops) (hr : s.run ops = some s') :
    ∃ held', s'.Secure held' ∧ (∀ pid, 0 < balances k ops pid → (held' pid).isSome = true) ∧
      ∀ pid, HeldThrough pid k ops →
        held' pid = (held pid).map fun x => (x.1, rewritten pid ops x.2) := by
  induction ops generalizing s k held with
  | nil =>
      cases hr
      refine ⟨held, h, hk, fun pid _ => ?_⟩
      cases held pid with
      | none => rfl
      | some x => rfl
  | cons op ops ih =>
      obtain ⟨hop, hrest⟩ := hops
      rw [BufferPool.run] at hr
      obtain ⟨t, ht, hr⟩ := Option.bind_eq_some_iff.mp hr
      obtain ⟨held₁, h₁, hk₁, hsame₁⟩ := h.step hk hop ht
      obtain ⟨held₂, h₂, hk₂, hsame₂⟩ := ih h₁ hk₁ (hrest t ht) hr
      refine ⟨held₂, h₂, hk₂, fun pid hpid => ?_⟩
      rw [hsame₂ pid hpid.2, hsame₁ pid hpid.1 hpid.2.now, Option.map_map]
      rfl

theorem secure_new (bsize : Nat) (buffer : Nat → Page) (files : Nat → Option (PagedFile Page)) :
    (new bsize buffer files).Secure fun _ => none := by
  have hnone : ∀ q, (new bsize buffer files).ptable.lookup q = none := fun _ => rfl
  refine ⟨⟨fun {q b} hb => ?_, fun {p q b c} hb => ?_⟩, nofun⟩
  · rw [hnone] at hb
    cases hb
  · rw [hnone] at hb
    cases hb

/-- While `ops` leads from `s` to `s'`, the page stays in its slot, which a
pointer of a holder refers to, and is changed by writes to it only. In `s'` it
would not be evicted either. -/
def Protects (s s' : BufferPool) (pid : PageId) (ops : List PoolOp) : Prop :=
  ∃ b, s.ptable.lookup pid = some b ∧
    (s'.ptable.lookup pid).map BufSlot.pos = some b.pos ∧
    s'.buffer b.pos = rewritten pid ops (s.buffer b.pos) ∧
    wp evictPage (fun _ t => (t.ptable.lookup pid).map BufSlot.pos = some b.pos)
      (fun e t => e.isException = true → (t.ptable.lookup pid).map BufSlot.pos = some b.pos) s'

theorem PinnedAt.pos_eq (h : s.PinnedAt pid pos pg) :
    (s.ptable.lookup pid).map BufSlot.pos = some pos := by
  obtain ⟨b, hb, rfl, -⟩ := h
  rw [hb, Option.map_some]

end BufferPool

/-- In every run in which a page is pinned only when it is in the pool and
unpinned only by its last holder, a page that has a holder all the time is
protected all the time. -/
theorem pins_protect_pages (bsize : Nat) (buffer : Nat → Page)
    (files : Nat → Option (PagedFile Page)) (before after : List PoolOp) (s s' : BufferPool)
    (hbefore : (BufferPool.new bsize buffer files).PinRun (fun _ => 0) before)
    (hs : (BufferPool.new bsize buffer files).run before = some s)
    (hafter : s.PinRun (BufferPool.balances (fun _ => 0) before) after)
    (hs' : s.run after = some s') (pid : PageId)
    (hheld : BufferPool.HeldThrough pid (BufferPool.balances (fun _ => 0) before) after) :
    s.Protects s' pid after := by
  obtain ⟨held, h, hk, -⟩ :=
    (BufferPool.secure_new bsize buffer files).run (fun _ h0 => absurd h0 (by decide)) hbefore hs
  obtain ⟨held', h', -, hsame⟩ := h.run hk hafter hs'
  obtain ⟨⟨pos, pg⟩, hpg⟩ := Option.isSome_iff_exists.mp (hk pid hheld.now)
  have hpg' := hsame pid hheld
  rw [hpg, Option.map_some] at hpg'
  obtain ⟨b, hb, rfl, -, hbuf⟩ := h.pinned hpg
  have hpin' := h'.pinned hpg'
  refine ⟨b, hb, hpin'.pos_eq, ?_, ?_⟩
  · obtain ⟨-, -, -, -, hbuf'⟩ := hpin'
    rw [hbuf', hbuf]
  · exact Wp.wp_mono h'.evictPage (fun _ t ht => (ht.pinned hpg').pos_eq)
      fun e t ht he => ((ht he).pinned hpg').pos_eq

/-- One page is pinned and written to, and two more take turns in the other
slot. -/
theorem pins_protect_pages_evicting : ∃ s s',
    (BufferPool.new 2 (fun _ => Page.zero) fun i => if i = 0 then some emptyFile else none).run
      [.allocatePage 0, .pinPage ⟨0, 1⟩] = some s ∧
    s.run [.allocatePage 0, .writeInPlace ⟨0, 1⟩ fun _ _ => 7, .allocatePage 0] = some s' ∧
    s.Protects s' ⟨0, 1⟩ [.allocatePage 0, .writeInPlace ⟨0, 1⟩ fun _ _ => 7, .allocatePage 0] := by
  obtain ⟨s, hs, hb⟩ : ∃ s, (BufferPool.new 2 (fun _ => Page.zero)
      fun i => if i = 0 then some emptyFile else none).run
      [.allocatePage 0, .pinPage ⟨0, 1⟩] = some s ∧
      ∃ s', s.run [.allocatePage 0, .writeInPlace ⟨0, 1⟩ fun _ _ => 7, .allocatePage 0] = some s' :=
    ⟨_, rfl, _, rfl⟩
  obtain ⟨s', hs'⟩ := hb
  refine ⟨s, s', hs, hs', pins_protect_pages 2 _ _ _ _ s s' ?_ hs ?_ hs' ⟨0, 1⟩ ?_⟩
  · refine ⟨trivial, fun t ht => ⟨fun _ => ?_, fun _ _ => trivial⟩⟩
    cases ht
    rfl
  · exact ⟨trivial, fun _ _ => ⟨trivial, fun _ _ => ⟨trivial, fun _ _ => trivial⟩⟩⟩
  · decide

/-- Two holders of a page, of which one unpins it: the next allocation evicts
the page of the other one. -/
theorem second_holder_unprotected : ∃ s s',
    (BufferPool.new 1 (fun _ => Page.zero) fun i => if i = 0 then some emptyFile else none).run
      [.allocatePage 0, .pinPage ⟨0, 1⟩, .pinPage ⟨0, 1⟩] = some s ∧
    s.run [.unpinPage ⟨0, 1⟩, .allocatePage 0] = some s' ∧
    BufferPool.HeldThrough ⟨0, 1⟩ (BufferPool.balances (fun _ => 0)
      [.allocatePage 0, .pinPage ⟨0, 1⟩, .pinPage ⟨0, 1⟩]) [.unpinPage ⟨0, 1⟩, .allocatePage 0] ∧
    ¬s.Protects s' ⟨0, 1⟩ [.unpinPage ⟨0, 1⟩, .allocatePage 0] := by
  refine ⟨_, _, rfl, rfl, by decide, ?_⟩
  rintro ⟨b, -, hpos, -⟩
  cases hpos

end Poseidon
