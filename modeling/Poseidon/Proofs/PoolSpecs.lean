import Poseidon.Bp.BufferPool
import Poseidon.Lib.Wp
import Poseidon.Proofs.Lru
import Poseidon.Proofs.PageAllocation

/-!
# What a call of the buffer pool does

`Tracked s ns` is what keeps the three structures of the pool together: the
LRU list runs through the nodes `ns`, every table entry has its node in it
and a slot of its own, and no slot is occupied without an entry. Three
changes of the pool keep it: a page is taken out, a page is put in, a page
is moved to the end of the list. What else a call does (dirty flags, pins,
page contents, files) the invariant does not look at.

The lemmas below say for every call which pools it can lead to; the results
about bookkeeping and about page contents both start from them.
-/

namespace Poseidon

open Wp

namespace BufferPool

/-- The slot and the list node of a cached page. -/
def placeOf (s : BufferPool) (pid : PageId) : Option (Nat × Nat) :=
  (s.ptable.lookup pid).map fun b => (b.pos, b.lruNode)

/-- Table, slots and list belong together. -/
structure Tracked (s : BufferPool) (ns : List (Nat × PageId)) : Prop where
  lru : s.lru.Repr ns
  pages : (ns.map Prod.snd).Nodup
  entry : ∀ {pid i a}, s.placeOf pid = some (i, a) →
    (a, pid) ∈ ns ∧ i < s.bsize ∧ s.slots i = false
  listed : ∀ {pid a}, (a, pid) ∈ ns → ∃ i, s.placeOf pid = some (i, a)
  distinct : ∀ {p q i a b}, s.placeOf p = some (i, a) → s.placeOf q = some (i, b) → p = q
  owned : ∀ {i}, i < s.bsize → s.slots i = false → ∃ pid a, s.placeOf pid = some (i, a)

variable {s s' : BufferPool} {ns : List (Nat × PageId)} {pid : PageId} {b : BufSlot}

theorem placeOf_of_lookup (hb : s.ptable.lookup pid = some b) :
    s.placeOf pid = some (b.pos, b.lruNode) := by
  rw [placeOf, hb, Option.map_some]

theorem placeOf_eq_none : s.placeOf pid = none ↔ s.ptable.lookup pid = none := by
  rw [placeOf, Option.map_eq_none_iff]

theorem lookup_of_placeOf {i a : Nat} (h : s.placeOf pid = some (i, a)) :
    ∃ b, s.ptable.lookup pid = some b ∧ b.pos = i ∧ b.lruNode = a := by
  obtain ⟨b, hb, heq⟩ := Option.map_eq_some_iff.mp h
  cases heq
  exact ⟨b, hb, rfl, rfl⟩

/-- The invariant looks at the list, the slots and the places only. -/
theorem Tracked.congr (h : s.Tracked ns) (hl : s'.lru = s.lru) (hz : s'.bsize = s.bsize)
    (hs : s'.slots = s.slots) (hp : ∀ pid, s'.placeOf pid = s.placeOf pid) : s'.Tracked ns where
  lru := by rw [hl]; exact h.lru
  pages := h.pages
  entry := by
    intro pid i a hpid
    rw [hp] at hpid
    rw [hz, hs]
    exact h.entry hpid
  listed := by
    intro pid a ha
    rw [hp]
    exact h.listed ha
  distinct := by
    intro p q i a b hp1 hq1
    rw [hp] at hp1 hq1
    exact h.distinct hp1 hq1
  owned := by
    intro i hi hfree
    rw [hz] at hi
    rw [hs] at hfree
    obtain ⟨pid, a, hpid⟩ := h.owned hi hfree
    exact ⟨pid, a, by rw [hp]; exact hpid⟩

/-- The page ids on the list are those in the table. -/
theorem Tracked.mem_pages (h : s.Tracked ns) :
    pid ∈ ns.map Prod.snd ↔ (s.placeOf pid).isSome := by
  constructor
  · intro hmem
    obtain ⟨⟨a, p⟩, he, rfl⟩ := List.mem_map.mp hmem
    obtain ⟨i, hi⟩ := h.listed he
    rw [hi]
    rfl
  · intro hsome
    obtain ⟨⟨i, a⟩, hia⟩ := Option.isSome_iff_exists.mp hsome
    exact List.mem_map.mpr ⟨(a, pid), (h.entry hia).1, rfl⟩

theorem mem_keys_iff : pid ∈ s.ptable.keys ↔ (s.placeOf pid).isSome := by
  rw [← AList.mem_keys, ← AList.lookup_isSome, placeOf, Option.isSome_map]

/-- There are as many list nodes as table entries. -/
theorem Tracked.length_eq (h : s.Tracked ns) : ns.length = s.ptable.keys.length := by
  have hperm : (ns.map Prod.snd).Perm s.ptable.keys := by
    refine (List.perm_ext_iff_of_nodup h.pages s.ptable.keys_nodup).mpr fun q => ?_
    rw [h.mem_pages, mem_keys_iff]
  rw [← hperm.length_eq, List.length_map]

/-- The slots that are not free are those of the table entries, so free slots
and entries add up to the size of the pool. -/
theorem Tracked.count (h : s.Tracked ns) :
    (List.range s.bsize).countP s.slots + s.ptable.keys.length = s.bsize := by
  have hpos : ∀ pid ∈ s.ptable.keys, ∃ i a, s.placeOf pid = some (i, a) := by
    intro pid hpid
    obtain ⟨⟨i, a⟩, hia⟩ := Option.isSome_iff_exists.mp (mem_keys_iff.mp hpid)
    exact ⟨i, a, hia⟩
  -- the slots of the entries, one for each
  let slotOf : PageId → Nat := fun pid => ((s.placeOf pid).map Prod.fst).getD 0
  have hslot : ∀ {pid i a}, s.placeOf pid = some (i, a) → slotOf pid = i := by
    intro pid i a hia
    simp [slotOf, hia]
  have hinj : (s.ptable.keys.map slotOf).Nodup := by
    refine List.Nodup.map_on ?_ s.ptable.keys_nodup
    intro p hp q hq heq
    obtain ⟨i, a, hia⟩ := hpos p hp
    obtain ⟨j, c, hjc⟩ := hpos q hq
    rw [hslot hia, hslot hjc] at heq
    rw [heq] at hia
    exact h.distinct hia hjc
  have hperm : (s.ptable.keys.map slotOf).Perm
      ((List.range s.bsize).filter fun i => !s.slots i) := by
    refine (List.perm_ext_iff_of_nodup hinj (List.nodup_range.filter _)).mpr fun i => ?_
    rw [List.mem_map, List.mem_filter, List.mem_range]
    constructor
    · rintro ⟨q, hq, rfl⟩
      obtain ⟨j, a, hja⟩ := hpos q hq
      obtain ⟨-, hlt, hocc⟩ := h.entry hja
      rw [hslot hja]
      exact ⟨hlt, by rw [hocc]; rfl⟩
    · rintro ⟨hlt, hocc⟩
      obtain ⟨q, a, hqa⟩ := h.owned hlt (by simpa using hocc)
      exact ⟨q, mem_keys_iff.mpr (by rw [hqa]; rfl), hslot hqa⟩
  have hlen := hperm.length_eq
  rw [List.length_map, ← List.countP_eq_length_filter] at hlen
  have htotal : (List.range s.bsize).length = _ := List.length_eq_countP_add_countP s.slots
  rw [List.length_range] at htotal
  have hnot : (List.range s.bsize).countP (fun i => !s.slots i) =
      (List.range s.bsize).countP fun i => decide ¬s.slots i = true := by
    refine List.countP_congr fun i _ => ?_
    simp
  omega

/-- A pool without a free slot is full. -/
theorem Tracked.full (h : s.Tracked ns) (hnone : s.findFirst = none) : ns.length = s.bsize := by
  have hzero : (List.range s.bsize).countP s.slots = 0 := by
    rw [List.countP_eq_zero]
    exact List.find?_eq_none.mp hnone
  have hcount := h.count
  have hlen := h.length_eq
  omega

/-! ## Taking a page out -/

/-- The list position of a cached page. -/
theorem Tracked.split (h : s.Tracked ns) (hb : s.ptable.lookup pid = some b) :
    ∃ xs ys, ns = xs ++ (b.lruNode, pid) :: ys :=
  List.append_of_mem (h.entry (placeOf_of_lookup hb)).1

/-- `s'` is `s` without the page `pid`, whose slot is free again. The content
of the slot is of no interest any more. -/
structure Removed (s s' : BufferPool) (pid : PageId) (b : BufSlot) : Prop where
  lru : s.lru.remove b.lruNode = some s'.lru
  bsize : s'.bsize = s.bsize
  slots : s'.slots = fun i => if i = b.pos then true else s.slots i
  ptable : s'.ptable = s.ptable.erase pid
  files : s'.files = s.files
  buffer : ∀ i, i ≠ b.pos → s'.buffer i = s.buffer i

theorem Removed.lookup (hr : Removed s s' pid b) (q : PageId) :
    s'.ptable.lookup q = if q = pid then none else s.ptable.lookup q := by
  rw [hr.ptable]
  split
  · next heq => rw [heq, AList.lookup_erase]
  · next hne => rw [AList.lookup_erase_ne hne]

theorem Removed.placeOf (hr : Removed s s' pid b) (q : PageId) :
    s'.placeOf q = if q = pid then none else s.placeOf q := by
  rw [BufferPool.placeOf, hr.lookup]
  split
  · rfl
  · rfl

/-- Taking a cached page out keeps the invariant. -/
theorem Tracked.removed {xs ys : List (Nat × PageId)}
    (h : s.Tracked (xs ++ (b.lruNode, pid) :: ys)) (hb : s.ptable.lookup pid = some b)
    (hr : Removed s s' pid b) : s'.Tracked (xs ++ ys) := by
  have hplace := placeOf_of_lookup hb
  have hpages := h.pages
  rw [List.map_append, List.map_cons, List.nodup_middle, List.nodup_cons] at hpages
  obtain ⟨hnot, hnodup⟩ := hpages
  have hmem : ∀ {a q}, (a, q) ∈ xs ++ ys → (a, q) ∈ xs ++ (b.lruNode, pid) :: ys := by
    intro a q hq
    simp only [List.mem_append, List.mem_cons] at hq ⊢
    tauto
  have hne : ∀ {a q}, (a, q) ∈ xs ++ ys → q ≠ pid := by
    rintro a q hq rfl
    refine hnot ?_
    rw [← List.map_append]
    exact List.mem_map.mpr ⟨_, hq, rfl⟩
  refine ⟨?_, by rwa [List.map_append], ?_, ?_, ?_, ?_⟩
  · obtain ⟨l', hl', hrepr⟩ := h.lru.remove
    rw [hr.lru, Option.some.injEq] at hl'
    rw [hl']
    exact hrepr
  · intro q i a hq
    rw [hr.placeOf] at hq
    split at hq
    · cases hq
    · next hqp =>
        obtain ⟨hin, hlt, hocc⟩ := h.entry hq
        refine ⟨?_, by rwa [hr.bsize], ?_⟩
        · simp only [List.mem_append, List.mem_cons, Prod.mk.injEq] at hin ⊢
          tauto
        · have hi : i ≠ b.pos := by
            rintro rfl
            exact hqp (h.distinct hq hplace)
          rw [hr.slots]
          simp only [hi, if_false]
          exact hocc
  · intro q a hq
    obtain ⟨i, hi⟩ := h.listed (hmem hq)
    exact ⟨i, by rw [hr.placeOf, if_neg (hne hq)]; exact hi⟩
  · intro p q i a c hp hq
    rw [hr.placeOf] at hp hq
    split at hp
    · cases hp
    · split at hq
      · cases hq
      · exact h.distinct hp hq
  · intro i hi hocc
    rw [hr.bsize] at hi
    rw [hr.slots] at hocc
    by_cases hib : i = b.pos
    · simp [hib] at hocc
    · simp only [hib, if_false] at hocc
      obtain ⟨q, a, hq⟩ := h.owned hi hocc
      refine ⟨q, a, ?_⟩
      rw [hr.placeOf, if_neg]
      · exact hq
      · rintro rfl
        rw [hplace] at hq
        cases hq
        exact hib rfl

/-! ## Putting a page in -/

/-- `s'` is `s` with the page `pid` in the free slot `pos`. -/
structure Inserted (s s' : BufferPool) (pid : PageId) (pos : Nat) (pg : Page) : Prop where
  free : s.findFirst = some pos
  lru : s.lru.addToMru pid = some (s.lru.fresh, s'.lru)
  bsize : s'.bsize = s.bsize
  slots : s'.slots = fun i => if i = pos then false else s.slots i
  ptable : s'.ptable = s.ptable.insert pid ⟨false, false, pos, s.lru.fresh⟩
  files : s'.files = s.files
  buffer : s'.buffer = fun i => if i = pos then pg else s.buffer i

theorem findFirst_spec {pos : Nat} (h : s.findFirst = some pos) :
    pos < s.bsize ∧ s.slots pos = true :=
  ⟨List.mem_range.mp (List.mem_of_find?_eq_some h), List.find?_some h⟩

theorem Inserted.lookup {pos : Nat} {pg : Page} (hi : Inserted s s' pid pos pg) (q : PageId) :
    s'.ptable.lookup q =
      if q = pid then some ⟨false, false, pos, s.lru.fresh⟩ else s.ptable.lookup q := by
  rw [hi.ptable]
  split
  · next heq => rw [heq, AList.lookup_insert]
  · next hne => rw [AList.lookup_insert_ne hne]

theorem Inserted.placeOf {pos : Nat} {pg : Page} (hi : Inserted s s' pid pos pg) (q : PageId) :
    s'.placeOf q = if q = pid then some (pos, s.lru.fresh) else s.placeOf q := by
  rw [BufferPool.placeOf, hi.lookup]
  split
  · rfl
  · rfl

/-- Putting a page that is not cached in keeps the invariant. -/
theorem Tracked.inserted {pos : Nat} {pg : Page} (h : s.Tracked ns)
    (hnew : s.ptable.lookup pid = none) (hi : Inserted s s' pid pos pg) :
    s'.Tracked (ns ++ [(s.lru.fresh, pid)]) := by
  obtain ⟨hlt, hfree⟩ := findFirst_spec hi.free
  have hnone := placeOf_eq_none.mpr hnew
  have hother : ∀ {q i a}, s.placeOf q = some (i, a) → i ≠ pos := by
    rintro q i a hq rfl
    have hocc := (h.entry hq).2.2
    rw [hfree] at hocc
    cases hocc
  refine ⟨?_, ?_, ?_, ?_, ?_, ?_⟩
  · obtain ⟨l', hl', hrepr⟩ := h.lru.addToMru pid
    rw [hi.lru, Option.some.injEq, Prod.mk.injEq] at hl'
    rw [hl'.2]
    exact hrepr
  · rw [List.map_append, List.map_cons, List.map_nil, List.nodup_append]
    refine ⟨h.pages, by simp, ?_⟩
    intro a ha c hc heq
    rw [List.mem_singleton.mp hc] at heq
    rw [heq, h.mem_pages, hnone] at ha
    cases ha
  · intro q i a hq
    rw [hi.placeOf] at hq
    split at hq
    · next heq =>
        cases hq
        refine ⟨by simp [heq], by rwa [hi.bsize], ?_⟩
        rw [hi.slots]
        simp
    · obtain ⟨hin, hilt, hocc⟩ := h.entry hq
      refine ⟨List.mem_append_left _ hin, by rwa [hi.bsize], ?_⟩
      rw [hi.slots]
      simp only [hother hq, if_false]
      exact hocc
  · intro q a hq
    rcases List.mem_append.mp hq with hq | hq
    · obtain ⟨i, hqi⟩ := h.listed hq
      refine ⟨i, ?_⟩
      rw [hi.placeOf, if_neg]
      · exact hqi
      · rintro rfl
        rw [hnone] at hqi
        cases hqi
    · cases List.mem_singleton.mp hq
      exact ⟨pos, by rw [hi.placeOf, if_pos rfl]⟩
  · intro p q i a c hp hq
    rw [hi.placeOf] at hp hq
    split at hp
    · next hpp =>
        split at hq
        · next hqp => rw [hpp, hqp]
        · cases hp
          exact absurd rfl (hother hq)
    · split at hq
      · cases hq
        exact absurd rfl (hother hp)
      · exact h.distinct hp hq
  · intro i hib hocc
    rw [hi.bsize] at hib
    rw [hi.slots] at hocc
    by_cases hip : i = pos
    · exact ⟨pid, s.lru.fresh, by rw [hi.placeOf, if_pos rfl, hip]⟩
    · simp only [hip, if_false] at hocc
      obtain ⟨q, a, hq⟩ := h.owned hib hocc
      refine ⟨q, a, ?_⟩
      rw [hi.placeOf, if_neg]
      · exact hq
      · rintro rfl
        rw [hnone] at hq
        cases hq

/-- Moving a cached page to the end of the list keeps the invariant. -/
theorem Tracked.moved (h : s.Tracked ns) (hb : s.ptable.lookup pid = some b) :
    ∃ l', s.lru.moveToMru b.lruNode = some l' ∧
      ∃ ns', ({ s with lru := l' } : BufferPool).Tracked ns' := by
  obtain ⟨xs, ys, rfl⟩ := h.split hb
  obtain ⟨l', hl', hrepr⟩ := h.lru.moveToMru
  have hperm : (xs ++ ys ++ [(b.lruNode, pid)]).Perm (xs ++ (b.lruNode, pid) :: ys) :=
    (List.perm_append_singleton _ _).trans List.perm_middle.symm
  refine ⟨l', hl', _, hrepr, ?_, ?_, ?_, h.distinct, h.owned⟩
  · exact ((hperm.map Prod.snd).nodup_iff).mpr h.pages
  · intro q i a hq
    obtain ⟨hin, hrest⟩ := h.entry hq
    exact ⟨hperm.mem_iff.mpr hin, hrest⟩
  · intro q a hq
    exact h.listed (hperm.mem_iff.mp hq)

/-! ## Files -/

/-- The content of a page in its file. -/
def fileContent (s : BufferPool) (pid : PageId) : Option Page :=
  (s.files pid.file).bind fun f =>
    if f.holds pid.raw then some (f.pages (pid.raw - 1)) else none

/-- A call that leaves its file alone leaves the pool alone. -/
theorem setFile_self {i : Nat} {f : PagedFile Page} (hf : s.files i = some f) :
    s.setFile i f = s := by
  have hfun : (fun j => if j = i then some f else s.files j) = s.files := by
    funext j
    split
    · next h => rw [h, hf]
    · rfl
  rw [setFile, hfun]

theorem withFile_wp {α : Type} {i : Nat} {x : PagedFile.M Page α} {Q : α → BufferPool → Prop}
    {E : BpErr → BufferPool → Prop} (hnull : s.files i = none → E .nullPointer s)
    (hx : ∀ f, s.files i = some f →
      wp x (fun a f' => Q a (s.setFile i f')) (fun e f' => E e (s.setFile i f')) f) :
    wp (withFile i x) Q E s := by
  cases hf : s.files i with
  | none =>
      simp only [wp, withFile, hf]
      exact hnull hf
  | some f =>
      have h := hx f hf
      simp only [wp, withFile, hf] at h ⊢
      cases hr : x f with
      | ok a f' =>
          simp only [hr] at h ⊢
          exact h
      | error e f' =>
          simp only [hr] at h ⊢
          exact h

theorem fileContent_eq {f : PagedFile Page} (hf : s.files pid.file = some f) :
    s.fileContent pid = if f.holds pid.raw then some (f.pages (pid.raw - 1)) else none := by
  rw [fileContent, hf, Option.bind_some]

theorem fileContent_setFile {i : Nat} {f : PagedFile Page} (q : PageId) :
    (s.setFile i f).fileContent q =
      if q.file = i then (if f.holds q.raw then some (f.pages (q.raw - 1)) else none)
      else s.fileContent q := by
  simp only [fileContent, setFile]
  split
  · rfl
  · rfl

theorem holds_pos {f : PagedFile Page} {raw : Nat} (h : f.holds raw = true) : 0 < raw := by
  rcases Nat.eq_zero_or_pos raw with rfl | hpos
  · simp [PagedFile.holds] at h
  · exact hpos

/-- `s'` is `s` with the given content of a page written to its file. -/
structure WrittenBack (s s' : BufferPool) (pid : PageId) (pg : Page) : Prop where
  lru : s'.lru = s.lru
  bsize : s'.bsize = s.bsize
  slots : s'.slots = s.slots
  ptable : s'.ptable = s.ptable
  buffer : s'.buffer = s.buffer
  file : ∀ q, s'.fileContent q = if q = pid then some pg else s.fileContent q

theorem WrittenBack.tracked {pg : Page} (hw : WrittenBack s s' pid pg) (h : s.Tracked ns) :
    s'.Tracked ns :=
  h.congr hw.lru hw.bsize hw.slots fun q => by rw [placeOf, hw.ptable, placeOf]

/-- Writing into a file changes one page. -/
theorem writtenBack_setFile {f : PagedFile Page} {pg : Page} (hf : s.files pid.file = some f)
    (hh : f.holds pid.raw = true) :
    WrittenBack s (s.setFile pid.file (f.writeAt (pid.raw - 1) pg)) pid pg := by
  refine ⟨rfl, rfl, rfl, rfl, rfl, ?_⟩
  intro q
  rw [fileContent_setFile]
  by_cases hfile : q.file = pid.file
  · rw [if_pos hfile]
    by_cases hraw : q.raw = pid.raw
    · have hq : q = pid := by
        cases q
        cases pid
        cases hfile
        cases hraw
        rfl
      have hh' : (f.writeAt (pid.raw - 1) pg).holds pid.raw = true := hh
      rw [if_pos hq, hraw, if_pos hh']
      simp [PagedFile.writeAt]
    · have hq : q ≠ pid := fun heq => hraw (by rw [heq])
      rw [if_neg hq, fileContent, hfile, hf, Option.bind_some]
      show (if f.holds q.raw then _ else none) = _
      split
      · next hhq =>
          have h1 := holds_pos hhq
          have h2 := holds_pos hh
          have h3 : q.raw - 1 ≠ pid.raw - 1 := by omega
          simp [PagedFile.writeAt, h3]
      · rfl
  · have hq : q ≠ pid := fun heq => hfile (by rw [heq])
    rw [if_neg hfile, if_neg hq]

/-- Writing a page back reaches its file, or fails and changes nothing. -/
theorem writePageToFile_wp {pos : Nat} {Q : PUnit → BufferPool → Prop}
    {E : BpErr → BufferPool → Prop}
    (hok : (s.fileContent pid).isSome → ∀ s', WrittenBack s s' pid (s.buffer pos) → Q ⟨⟩ s')
    (herr : s.fileContent pid = none → ∀ e, e ≠ .bufferpoolOverrun → E e s) :
    wp (writePageToFile pid pos) Q E s := by
  simp only [writePageToFile, wp_bind, wp_get]
  refine withFile_wp (fun hf => ?_) fun f hf => ?_
  · refine herr ?_ .nullPointer (by decide)
    rw [fileContent, hf, Option.bind_none]
  · have hcont := fileContent_eq hf
    refine PagedFile.writePage_wp (fun hh => ?_) fun hh e he => ?_
    · rw [hh] at hcont
      exact hok (by rw [hcont]; rfl) _ (writtenBack_setFile hf hh)
    · rw [setFile_self hf]
      rw [hh] at hcont
      exact herr hcont e he

/-- Loading a page takes the first free slot, also when the file does not
have the page. -/
theorem loadPageFromFile_wp {Q : Nat → BufferPool → Prop} {E : BpErr → BufferPool → Prop}
    (hover : s.findFirst = none → E .bufferpoolOverrun s)
    (hok : ∀ pos pg, s.findFirst = some pos → s.fileContent pid = some pg →
      Q pos { s with
        slots := fun i => if i = pos then false else s.slots i
        buffer := fun i => if i = pos then pg else s.buffer i })
    (herr : ∀ pos, s.findFirst = some pos → s.fileContent pid = none → ∀ e,
      e ≠ .bufferpoolOverrun →
        E e { s with slots := fun i => if i = pos then false else s.slots i }) :
    wp (loadPageFromFile pid) Q E s := by
  simp only [loadPageFromFile, wp_bind, wp_get]
  cases hpos : s.findFirst with
  | none => exact hover hpos
  | some pos =>
      simp only [setSlot, wp_bind, wp_modify]
      refine withFile_wp (fun hf => ?_) fun f hf => ?_
      · refine herr pos hpos ?_ .nullPointer (by decide)
        rw [fileContent, show s.files pid.file = none from hf, Option.bind_none]
      · have hcont := @fileContent_eq s pid f hf
        refine PagedFile.readPage_wp (fun hh => ?_) fun hh e he => ?_
        · rw [setFile_self hf]
          rw [hh] at hcont
          exact hok pos _ hpos hcont
        · rw [setFile_self hf]
          rw [hh] at hcont
          exact herr pos hpos hcont e he

/-! ## Eviction -/

theorem lruUnit_wp {x : LruList → Option LruList} {l' : LruList} {Q : PUnit → BufferPool → Prop}
    {E : BpErr → BufferPool → Prop} (hx : x s.lru = some l') (h : Q ⟨⟩ { s with lru := l' }) :
    wp (lruUnit x) Q E s := by
  simp only [wp, lruUnit, withLru, hx, Option.map_some]
  exact h

/-- The page has been written back if it was dirty. -/
structure Cleaned (s s' : BufferPool) (pid : PageId) (b : BufSlot) : Prop where
  dirty : b.dirty = true → WrittenBack s s' pid (s.buffer b.pos)
  clean : b.dirty = false → s' = s

theorem Cleaned.ptable (hc : Cleaned s s' pid b) : s'.ptable = s.ptable := by
  cases hd : b.dirty with
  | true => exact (hc.dirty hd).ptable
  | false => rw [hc.clean hd]

theorem Cleaned.tracked (hc : Cleaned s s' pid b) (h : s.Tracked ns) : s'.Tracked ns := by
  cases hd : b.dirty with
  | true => exact (hc.dirty hd).tracked h
  | false =>
      rw [hc.clean hd]
      exact h

/-- What there is left to do when a page is evicted. -/
theorem dropEntry_wp {Q : Bool → BufferPool → Prop} {E : BpErr → BufferPool → Prop}
    (h : s.Tracked ns) (hb : s.ptable.lookup pid = some b)
    (hq : ∀ s', Removed s s' pid b → Q true s') :
    wp (do
      setSlot b.pos true
      wipe b.pos
      lruUnit (·.remove b.lruNode)
      eraseEntry pid
      pure true : M Bool) Q E s := by
  obtain ⟨xs, ys, rfl⟩ := h.split hb
  obtain ⟨l', hl', -⟩ := h.lru.remove
  simp only [setSlot, wipe, wp_bind, wp_modify]
  refine lruUnit_wp hl' ?_
  simp only [eraseEntry, wp_modify, wp_pure]
  refine hq _ ⟨hl', rfl, rfl, rfl, rfl, ?_⟩
  intro i hi
  simp only [hi, if_false]

section

variable {Q : Bool → BufferPool → Prop} {E : BpErr → BufferPool → Prop}

/-- The search for a page to evict, from a node of the list on. The pages in
front of the node are pinned. -/
theorem evictFrom_wp (h : s.Tracked ns)
    (htrue : ∀ pre a pid rest b s1 s', ns = pre ++ (a, pid) :: rest →
      (∀ a pid, (a, pid) ∈ pre → ∀ b, s.ptable.lookup pid = some b → b.pinned = true) →
      s.ptable.lookup pid = some b → b.pinned = false →
      Cleaned s s1 pid b → Removed s1 s' pid b → Q true s')
    (hfalse : (∀ pid b, s.ptable.lookup pid = some b → b.pinned = true) → Q false s)
    (herr : ∀ pid b e, s.ptable.lookup pid = some b → b.dirty = true →
      s.fileContent pid = none → e ≠ .bufferpoolOverrun → E e s) :
    ∀ (rest pre : List (Nat × PageId)) (fuel : Nat), ns = pre ++ rest →
      (∀ a pid, (a, pid) ∈ pre → ∀ b, s.ptable.lookup pid = some b → b.pinned = true) →
      rest.length < fuel → wp (evictFrom fuel ((rest.map Prod.fst).headD LruList.tail)) Q E s := by
  intro rest
  induction rest with
  | nil =>
      intro pre fuel hns hpre hfuel
      obtain ⟨fuel, rfl⟩ : ∃ k, fuel = k + 1 := ⟨fuel - 1, by simp at hfuel; omega⟩
      refine hfalse fun pid b hb => ?_
      have hmem := (h.entry (placeOf_of_lookup hb)).1
      rw [hns, List.append_nil] at hmem
      exact hpre _ _ hmem b hb
  | cons e rest ih =>
      intro pre fuel hns hpre hfuel
      obtain ⟨a, p⟩ := e
      obtain ⟨fuel, rfl⟩ : ∃ k, fuel = k + 1 := ⟨fuel - 1, by simp at hfuel; omega⟩
      have hmem : (a, p) ∈ ns := by
        rw [hns]
        simp
      have hat : a ≠ LruList.tail := by
        rintro rfl
        have hnd := (List.nodup_cons.mp h.lru.nodup).2
        exact List.disjoint_of_nodup_append hnd (List.mem_map.mpr ⟨_, hmem, rfl⟩) (by simp)
      obtain ⟨c, hc, hval⟩ := h.lru.page _ hmem
      change c.val = p at hval
      subst hval
      have hnext : c.next = some ((rest.map Prod.fst).headD LruList.tail) := by
        have hseg := h.lru.seg
        rw [hns, List.map_append, List.map_cons, Cells.seg_append] at hseg
        rw [← Cells.nextOf_eq hc]
        exact hseg.2.next
      obtain ⟨i, hi⟩ := h.listed hmem
      obtain ⟨b, hb, -, -⟩ := lookup_of_placeOf hi
      change wp (evictFrom (fuel + 1) a) Q E s
      rw [evictFrom, if_neg hat]
      simp only [wp_bind, wp_get, show s.lru.nodes a = some c from hc, hb, hnext]
      refine wp_ite (fun hpin => ?_) fun hpin => ?_
      · -- a pinned page stays
        refine ih (pre ++ [(a, c.val)]) fuel (by rw [hns]; simp) ?_ (by simp at hfuel; omega)
        intro a' pid hin b' hb'
        rcases List.mem_append.mp hin with hin | hin
        · exact hpre a' pid hin b' hb'
        · cases List.mem_singleton.mp hin
          rw [hb, Option.some.injEq] at hb'
          rw [← hb']
          exact hpin
      · have hpin' := Bool.eq_false_iff.mpr hpin
        cases hd : b.dirty with
        | false =>
            simp only [Bool.false_eq_true, if_false]
            exact dropEntry_wp h hb fun s' hr =>
              htrue pre a c.val rest b s s' hns hpre hb hpin'
              ⟨fun ht => absurd (hd.symm.trans ht) (by decide), fun _ => rfl⟩ hr
        | true =>
            simp only [if_true]
            rw [wp_bind]
            refine writePageToFile_wp (fun _ s1 hw => ?_) fun hnone e he => ?_
            · refine dropEntry_wp (hw.tracked h) (by rw [hw.ptable]; exact hb) fun s' hr => ?_
              exact htrue pre a c.val rest b s1 s' hns hpre hb hpin'
                ⟨fun _ => hw, fun hf => absurd (hd.symm.trans hf) (by decide)⟩ hr
            · exact herr c.val b e hb hd hnone he

/-- `evict_page` takes the first page out that is not pinned. -/
theorem evictPage_front_wp (h : s.Tracked ns)
    (htrue : ∀ pre a pid rest b s1 s', ns = pre ++ (a, pid) :: rest →
      (∀ a pid, (a, pid) ∈ pre → ∀ b, s.ptable.lookup pid = some b → b.pinned = true) →
      s.ptable.lookup pid = some b → b.pinned = false →
      Cleaned s s1 pid b → Removed s1 s' pid b → Q true s')
    (hfalse : (∀ pid b, s.ptable.lookup pid = some b → b.pinned = true) → Q false s)
    (herr : ∀ pid b e, s.ptable.lookup pid = some b → b.dirty = true →
      s.fileContent pid = none → e ≠ .bufferpoolOverrun → E e s) : wp evictPage Q E s := by
  have hlen : ns.length < s.lru.fresh + 1 := by
    have hsub : ns.map Prod.fst ⊆ List.range s.lru.fresh := by
      intro a ha
      exact List.mem_range.mpr (h.lru.lt_fresh a (by simp [ha]))
    have hnd := (List.nodup_append.mp (List.nodup_cons.mp h.lru.nodup).2).1
    have hle := (List.subperm_of_subset hnd hsub).length_le
    rw [List.length_map, List.length_range] at hle
    omega
  simp only [evictPage, wp_bind, wp_get, h.lru.seg.next]
  exact evictFrom_wp h htrue hfalse herr ns [] _ rfl (by simp) hlen

theorem evictPage_wp (h : s.Tracked ns)
    (htrue : ∀ pid b s1 s', s.ptable.lookup pid = some b → b.pinned = false →
      Cleaned s s1 pid b → Removed s1 s' pid b → Q true s')
    (hfalse : (∀ pid b, s.ptable.lookup pid = some b → b.pinned = true) → Q false s)
    (herr : ∀ pid b e, s.ptable.lookup pid = some b → b.dirty = true →
      s.fileContent pid = none → e ≠ .bufferpoolOverrun → E e s) : wp evictPage Q E s :=
  evictPage_front_wp h (fun _ _ pid _ b s1 s' _ _ hb hpin hc hr => htrue pid b s1 s' hb hpin hc hr)
    hfalse herr

end

/-! ## Fetching a page -/

/-- The pool as `fetch_page` loads a page into it: unchanged, or with one page
evicted. -/
inductive MadeRoom (s : BufferPool) : BufferPool → Prop
  | same : MadeRoom s s
  | evicted {pid : PageId} {b : BufSlot} {s1 s' : BufferPool} (hb : s.ptable.lookup pid = some b)
      (hpin : b.pinned = false) (hc : Cleaned s s1 pid b) (hr : Removed s1 s' pid b) : MadeRoom s s'

theorem MadeRoom.tracked (hm : MadeRoom s s') (h : s.Tracked ns) : ∃ ns', s'.Tracked ns' := by
  cases hm with
  | same => exact ⟨ns, h⟩
  | @evicted pid b s1 _ hb _ hc hr =>
      have h1 := hc.tracked h
      have hb1 : s1.ptable.lookup pid = some b := by
        rw [hc.ptable]
        exact hb
      obtain ⟨xs, ys, rfl⟩ := h1.split hb1
      exact ⟨xs ++ ys, h1.removed hb1 hr⟩

/-- The slot of a page that was taken out is free. -/
theorem Removed.findFirst_ne (hr : Removed s s' pid b) (h : s.Tracked ns)
    (hb : s.ptable.lookup pid = some b) : s'.findFirst ≠ none := by
  intro hnone
  have hlt := (h.entry (placeOf_of_lookup hb)).2.1
  have hno := List.find?_eq_none.mp hnone b.pos (List.mem_range.mpr (by rw [hr.bsize]; exact hlt))
  rw [hr.slots] at hno
  simp at hno

theorem MadeRoom.lookup_none (hm : MadeRoom s s') (hnone : s.ptable.lookup pid = none) :
    s'.ptable.lookup pid = none := by
  cases hm with
  | same => exact hnone
  | evicted hb hpin hc hr =>
      rw [hr.lookup, hc.ptable]
      split
      · rfl
      · exact hnone

section

variable {Q : Nat → BufferPool → Prop} {E : BpErr → BufferPool → Prop}

/-- Loading a page and entering it in list and table. -/
theorem enterPage_wp (h : s.Tracked ns)
    (hover : s.findFirst = none → E .bufferpoolOverrun s)
    (hok : ∀ pos pg s', s.fileContent pid = some pg → Inserted s s' pid pos pg → Q pos s')
    (herr : ∀ pos, s.findFirst = some pos → s.fileContent pid = none → ∀ e,
      e ≠ .bufferpoolOverrun →
        E e { s with slots := fun i => if i = pos then false else s.slots i }) :
    wp (do
      let pos ← loadPageFromFile pid
      let node ← withLru (·.addToMru pid)
      modify fun s => { s with ptable := s.ptable.insert pid ⟨false, false, pos, node⟩ }
      pure pos : M Nat) Q E s := by
  rw [wp_bind]
  refine loadPageFromFile_wp hover (fun pos pg hfree hcont => ?_) herr
  obtain ⟨l', hl', -⟩ := h.lru.addToMru pid
  rw [wp_bind]
  simp only [wp, withLru, hl']
  exact hok pos pg _ hcont ⟨hfree, hl', rfl, rfl, rfl, rfl, rfl⟩

/-- `fetch_page`: the page is there, or it is loaded after a page has been
evicted where necessary. -/
theorem fetchPage_wp (h : s.Tracked ns)
    (hhit : ∀ b l', s.ptable.lookup pid = some b → s.lru.moveToMru b.lruNode = some l' →
      Q b.pos { s with lru := l' })
    (hmiss : ∀ s1 pos pg s', s.ptable.lookup pid = none → MadeRoom s s1 →
      s1.fileContent pid = some pg → Inserted s1 s' pid pos pg → Q pos s')
    (hover : s.findFirst = none → (∀ pid b, s.ptable.lookup pid = some b → b.pinned = true) →
      E .bufferpoolOverrun s)
    (hback : ∀ q b e, s.ptable.lookup q = some b → b.dirty = true → s.fileContent q = none →
      e ≠ .bufferpoolOverrun → E e s)
    (hleak : ∀ s1 pos, s.ptable.lookup pid = none → MadeRoom s s1 → s1.findFirst = some pos →
      s1.fileContent pid = none → ∀ e, e ≠ .bufferpoolOverrun →
      E e { s1 with slots := fun i => if i = pos then false else s1.slots i }) :
    wp (fetchPage pid) Q E s := by
  simp only [fetchPage, wp_bind, wp_get]
  cases hb : s.ptable.lookup pid with
  | some b =>
      obtain ⟨l', hl', -⟩ := h.moved hb
      rw [wp_bind]
      refine lruUnit_wp hl' ?_
      exact hhit b l' hb hl'
  | none =>
      have henter : ∀ s1 ns1, MadeRoom s s1 → s1.Tracked ns1 →
          (s1.findFirst = none → E .bufferpoolOverrun s1) →
          wp (do
            let pos ← loadPageFromFile pid
            let node ← withLru (·.addToMru pid)
            modify fun s => { s with ptable := s.ptable.insert pid ⟨false, false, pos, node⟩ }
            pure pos : M Nat) Q E s1 := by
        intro s1 ns1 hm h1 hover1
        refine enterPage_wp h1 hover1 (fun pos pg s' hcont hi => ?_) fun pos hfree hcont e he => ?_
        · exact hmiss s1 pos pg s' hb hm hcont hi
        · exact hleak s1 pos hb hm hfree hcont e he
      simp only []
      refine wp_ite (fun hsize => ?_) fun hsize => ?_
      · rw [wp_bind]
        refine evictPage_wp h (fun q c s1 s' hq hpin hc hr => ?_) (fun hall => ?_)
          fun q c e hq hd hnone he => ?_
        · have hm : MadeRoom s s' := .evicted hq hpin hc hr
          obtain ⟨ns', h'⟩ := hm.tracked h
          refine henter s' ns' hm h' fun hfull => ?_
          exact absurd hfull (hr.findFirst_ne (hc.tracked h) (by rw [hc.ptable]; exact hq))
        · exact henter s ns .same h fun hnone => hover hnone hall
        · exact hback q c e hq hd hnone he
      · refine henter s ns .same h fun hnone => ?_
        have hfull := h.full hnone
        rw [h.lru.size] at hsize
        exact absurd hfull hsize

end

/-! ## Flushing -/

theorem updateEntry_wp {g : BufSlot → BufSlot} {Q : PUnit → BufferPool → Prop}
    {E : BpErr → BufferPool → Prop} (hnone : s.ptable.lookup pid = none → Q ⟨⟩ s)
    (hsome : ∀ b, s.ptable.lookup pid = some b →
      Q ⟨⟩ { s with ptable := s.ptable.insert pid (g b) }) :
    wp (updateEntry pid g) Q E s := by
  simp only [updateEntry, wp_modify]
  cases hb : s.ptable.lookup pid with
  | none => exact hnone hb
  | some b => exact hsome b hb

/-- `s'` is `s` after the entry of a page has been flushed. -/
structure Flushed (s s' : BufferPool) (pid : PageId) (b : BufSlot) : Prop where
  lru : s'.lru = s.lru
  bsize : s'.bsize = s.bsize
  slots : s'.slots = s.slots
  buffer : s'.buffer = s.buffer
  lookup : ∀ q, s'.ptable.lookup q =
    if q = pid then some { b with dirty := false } else s.ptable.lookup q
  file : ∀ q, s'.fileContent q =
    if q = pid ∧ b.dirty = true then some (s.buffer b.pos) else s.fileContent q

theorem Flushed.tracked (hf : Flushed s s' pid b) (hb : s.ptable.lookup pid = some b)
    (h : s.Tracked ns) : s'.Tracked ns := by
  refine h.congr hf.lru hf.bsize hf.slots fun q => ?_
  rw [placeOf, hf.lookup, placeOf]
  split
  · next heq =>
      rw [heq, hb]
      rfl
  · rfl

theorem flushEntry_wp {Q : PUnit → BufferPool → Prop} {E : BpErr → BufferPool → Prop}
    (hb : s.ptable.lookup pid = some b) (hok : ∀ s', Flushed s s' pid b → Q ⟨⟩ s')
    (herr : b.dirty = true → s.fileContent pid = none → ∀ e, e ≠ .bufferpoolOverrun → E e s) :
    wp (flushEntry pid b) Q E s := by
  rw [flushEntry]
  refine wp_ite (fun hd => ?_) fun hd => ?_
  · rw [wp_bind]
    refine writePageToFile_wp (fun _ s1 hw => ?_) (herr hd)
    refine updateEntry_wp (fun hnone => ?_) fun b1 hb1 => ?_
    · rw [hw.ptable, hb] at hnone
      cases hnone
    · rw [hw.ptable, hb, Option.some.injEq] at hb1
      refine hok _ ⟨hw.lru, hw.bsize, hw.slots, hw.buffer, ?_, ?_⟩
      · intro q
        show (s1.ptable.insert pid _).lookup q = _
        split
        · next heq => rw [heq, AList.lookup_insert, hb1]
        · next hne => rw [AList.lookup_insert_ne hne, hw.ptable]
      · intro q
        show s1.fileContent q = _
        rw [hw.file]
        simp only [hd, and_true]
  · have hclean : { b with dirty := false } = b := by
      rw [← Bool.eq_false_iff.mpr hd]
    refine hok s ⟨rfl, rfl, rfl, rfl, ?_, ?_⟩
    · intro q
      split
      · next heq => rw [heq, hb, hclean]
      · rfl
    · intro q
      rw [if_neg fun hq => hd hq.2]

/-- The flush loop keeps what flushing one entry keeps, and leaves the entries
it looks at clean. -/
theorem flushWhere_wp {p : PageId → Bool} {Q : PUnit → BufferPool → Prop}
    {E : BpErr → BufferPool → Prop} (R : BufferPool → Prop) (h : R s)
    (hstep : ∀ t pid b t', R t → t.ptable.lookup pid = some b → Flushed t t' pid b → R t')
    (hok : ∀ s', R s' → (∀ pid b, s'.ptable.lookup pid = some b → p pid = true → b.dirty = false) →
      Q ⟨⟩ s')
    (herr : ∀ t pid b e, R t → t.ptable.lookup pid = some b → b.dirty = true →
      t.fileContent pid = none → e ≠ .bufferpoolOverrun → E e t) :
    wp (flushWhere p) Q E s := by
  simp only [flushWhere, wp_bind, wp_get]
  -- what is left to do holds entries as they are in the table
  let P : List (Sigma fun _ : PageId => BufSlot) → BufferPool → Prop := fun rest t =>
    R t ∧ (rest.map Sigma.fst).Nodup ∧ (∀ e ∈ rest, t.ptable.lookup e.1 = some e.2) ∧
      ∀ pid b, t.ptable.lookup pid = some b → p pid = true → pid ∉ rest.map Sigma.fst →
        b.dirty = false
  have hinit : P s.ptable.entries s := by
    refine ⟨h, s.ptable.keys_nodup, fun e he => AList.mem_lookup_iff.mpr he, ?_⟩
    intro pid b hb _ hnot
    exact absurd (List.mem_map.mpr ⟨_, AList.mem_lookup_iff.mp hb, rfl⟩) hnot
  have hbody : ∀ e rest t, P (e :: rest) t →
      wp (if p e.1 then flushEntry e.1 e.2 else pure ⟨⟩ : M PUnit) (fun _ => P rest) E t := by
    rintro e rest t ⟨hR, hnd, hin, hdone⟩
    obtain ⟨hnot, hnd'⟩ := List.nodup_cons.mp hnd
    have he := hin e (List.mem_cons_self ..)
    refine wp_ite (fun hp => ?_) fun hp => ?_
    · refine flushEntry_wp he (fun t' hf => ?_) fun hd hnone e' he' => ?_
      · refine ⟨hstep t e.1 e.2 t' hR he hf, hnd', ?_, ?_⟩
        · intro e' he'
          have hne : e'.1 ≠ e.1 := fun heq => hnot (heq ▸ List.mem_map.mpr ⟨e', he', rfl⟩)
          rw [hf.lookup, if_neg hne]
          exact hin e' (List.mem_cons_of_mem _ he')
        · intro pid b hb hp' hnotin
          rw [hf.lookup] at hb
          split at hb
          · cases hb
            rfl
          · next hne =>
              refine hdone pid b hb hp' fun hmem => ?_
              rcases List.mem_cons.mp hmem with heq | hmem
              · exact hne heq
              · exact hnotin hmem
      · exact herr t e.1 e.2 e' hR he hd hnone he'
    · refine ⟨hR, hnd', fun e' he' => hin e' (List.mem_cons_of_mem _ he'), ?_⟩
      intro pid b hb hp' hnotin
      refine hdone pid b hb hp' fun hmem => ?_
      rcases List.mem_cons.mp hmem with heq | hmem
      · exact hp (heq ▸ hp')
      · exact hnotin hmem
  refine wp_mono (wp_forM hbody s.ptable.entries s hinit) (fun _ s' hs' => ?_) fun _ _ he => he
  obtain ⟨hR, -, -, hdone⟩ := hs'
  exact hok s' hR fun pid b hb hp => hdone pid b hb hp (by simp)

/-- `flush_page`: the entry is flushed and, if asked for, taken out. -/
theorem flushPage_wp {evict : Bool} {Q : PUnit → BufferPool → Prop}
    {E : BpErr → BufferPool → Prop} (h : s.Tracked ns)
    (hnone : s.ptable.lookup pid = none → Q ⟨⟩ s)
    (hkeep : ∀ b s1, s.ptable.lookup pid = some b → Flushed s s1 pid b → Q ⟨⟩ s1)
    (hdrop : ∀ b s1 s', s.ptable.lookup pid = some b → Flushed s s1 pid b →
      Removed s1 s' pid { b with dirty := false } → Q ⟨⟩ s')
    (herr : ∀ b e, s.ptable.lookup pid = some b → b.dirty = true → s.fileContent pid = none →
      e ≠ .bufferpoolOverrun → E e s) :
    wp (flushPage pid evict) Q E s := by
  simp only [flushPage, wp_bind, wp_get]
  cases hb : s.ptable.lookup pid with
  | none => exact hnone hb
  | some b =>
      simp only [wp_bind]
      refine flushEntry_wp hb (fun s1 hf => ?_) fun hd hno e he => herr b e hb hd hno he
      refine wp_ite (fun _ => ?_) fun _ => hkeep b s1 hb hf
      have h1 := hf.tracked hb h
      have hb1 : s1.ptable.lookup pid = some { b with dirty := false } := by
        rw [hf.lookup, if_pos rfl]
      obtain ⟨xs, ys, rfl⟩ := h1.split hb1
      obtain ⟨l', hl', -⟩ := h1.lru.remove
      rw [wp_bind]
      refine lruUnit_wp hl' ?_
      simp only [setSlot, wipe, eraseEntry, wp_bind, wp_modify]
      refine hdrop b s1 _ hb hf ⟨hl', rfl, rfl, rfl, rfl, ?_⟩
      intro i hi
      simp only [hi, if_false]

/-! ## Allocating a page -/

/-- `f'` is `f` with the page `raw`, not in use before, filled with zeros. -/
structure Allocated (f f' : PagedFile Page) (raw : Nat) : Prop where
  unused : f.holds raw = false
  used : f'.holds raw = true
  zero : f'.pages (raw - 1) = Page.zero
  other : ∀ r, r ≠ raw → f'.holds r = f.holds r ∧
    (f.holds r = true → f'.pages (r - 1) = f.pages (r - 1))

theorem allocatePage_wp {f : PagedFile Page} {Q : Nat → PagedFile Page → Prop}
    {E : BpErr → PagedFile Page → Prop} (hok : ∀ raw f', Allocated f f' raw → Q raw f')
    (herr : ∀ e f', e ≠ .bufferpoolOverrun → (∀ r, f'.holds r = f.holds r ∧
      (f.holds r = true → f'.pages (r - 1) = f.pages (r - 1))) → E e f') :
    wp (PagedFile.allocatePage Page.zero) Q E f := by
  have hother : ∀ {g : PagedFile Page} {r}, g.content r = f.content r → g.holds r = f.holds r ∧
      (f.holds r = true → g.pages (r - 1) = f.pages (r - 1)) := by
    intro g r heq
    refine ⟨by rw [← PagedFile.content_isSome, heq, PagedFile.content_isSome], fun hh => ?_⟩
    exact (PagedFile.content_eq_some.mp (heq.trans (PagedFile.content_eq_some.mpr ⟨hh, rfl⟩))).2
  refine PagedFile.allocatePage_content (fun raw g hnone hg _ => ?_) fun g _ hg _ => ?_
  · obtain ⟨hused, hzero⟩ := PagedFile.content_eq_some.mp ((hg raw).trans (if_pos rfl))
    refine hok raw g ⟨?_, hused, hzero, fun r hr => hother ((hg r).trans (if_neg hr))⟩
    rw [← PagedFile.content_isSome, hnone]
    rfl
  · exact herr _ g (by decide) fun r => hother (hg r)

end BufferPool

end Poseidon
