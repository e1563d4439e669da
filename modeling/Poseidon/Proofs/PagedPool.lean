import Poseidon.Proofs.StringPools

/-!
# What the paged string pool holds

Each page is packed from byte 4 on and holds zeros behind; the first four
bytes are the next free position, counted over all pages in 32 bits. So a
string is found on its page as long as there are at most 4096 pages, and the
scan of a page finds its strings up to the first empty one.
-/

namespace Poseidon

open Wp CStr

namespace PagedStringPool

variable {p : PagedStringPool} {es : List (List UInt8 × Nat)} {s : List UInt8} {c i : Nat}
  {pg : PageBytes} {ss : List (List UInt8)} {pss : List (List (List UInt8))}

@[simp] theorem wp_onFile {β : Type} {x : PagedFile.M PageBytes β} {Q : β → PagedStringPool → Prop}
    {E : DictErr → PagedStringPool → Prop} :
    wp (onFile x) Q E p ↔ wp x (fun b f => Q b { p with file := f })
      (fun e f => E (fileErr e) { p with file := f }) p.file := by
  simp only [wp, onFile]
  cases x p.file with
  | ok b f => rfl
  | error e f => rfl

/-! ## One page -/

/-- The strings are packed from byte 4 on, with zeros behind. No string starts
at the last byte. -/
structure PagePacks (pg : PageBytes) (ss : List (List UInt8)) : Prop where
  lies : Lies pg 4 (pack ss)
  behind : ∀ j, 4 + (pack ss).length ≤ j → j < pfPageSize → pg j = 0
  le : 4 + (pack ss).length ≤ pfPageSize
  noZero : ∀ s ∈ ss, 0 ∉ s
  start : ∀ e ∈ places 4 ss, e.2 + 1 < pfPageSize

theorem pagePacks_zero : PagePacks (fun _ => 0) [] where
  lies := True.intro
  behind _ _ _ := rfl
  le := by decide
  noZero := by simp
  start := by simp [places]

/-- What `lastPos` makes of the position `n`. -/
def readBack (n : Nat) : Nat := if n % 2 ^ 32 = 0 then 4 else n % 2 ^ 32

theorem readBack_of_lt {n : Nat} (h0 : 0 < n) (h : n < 2 ^ 32) : readBack n = n := by
  rw [readBack, Nat.mod_eq_of_lt h, if_neg (by omega)]

theorem lastPos_put (pg : PageBytes) (n : Nat) : lastPos (put pg 0 (leBytes 4 n)) = readBack n := by
  have hbytes : [put pg 0 (leBytes 4 n) 0, put pg 0 (leBytes 4 n) 1, put pg 0 (leBytes 4 n) 2,
      put pg 0 (leBytes 4 n) 3] = leBytes 4 n := rfl
  rw [lastPos, hbytes, ofLeBytes_leBytes]
  rfl

/-- A string is added behind the others. -/
theorem PagePacks.add (h : PagePacks pg ss) (hz : 0 ∉ s) (n : Nat)
    (hle : 4 + (pack ss).length + s.length + 1 ≤ pfPageSize)
    (hstart : 4 + (pack ss).length + 1 < pfPageSize) :
    PagePacks (put (put pg (4 + (pack ss).length) (s ++ [0])) 0 (leBytes 4 n)) (ss ++ [s]) where
  lies := by
    have hput : Lies (put pg (4 + (pack ss).length) (s ++ [0])) (4 + (pack ss).length) (s ++ [0]) :=
      lies_put
    have hpk : pack (ss ++ [s]) = pack ss ++ (s ++ [0]) := by simp [pack]
    refine Lies.put_right ?_ (by simp)
    rw [hpk, lies_append]
    exact ⟨h.lies.put_left (Nat.le_refl _), hput⟩
  behind j hj hlt := by
    rw [pack_snoc_length] at hj
    rw [put_of_ge (by simp; omega), put_of_ge (by simp; omega)]
    exact h.behind j (by omega) hlt
  le := by
    rw [pack_snoc_length]
    omega
  noZero t ht := by
    rcases List.mem_append.mp ht with ht | ht
    · exact h.noZero t ht
    · rwa [List.mem_singleton.mp ht]
  start e he := by
    rw [places_append, List.mem_append] at he
    rcases he with he | he
    · exact h.start e he
    · rw [places, places, List.mem_singleton] at he
      rw [he]
      exact hstart

/-! ## The scan of a page -/

/-- Nothing is reported behind an empty string. -/
theorem scanFrom_zero {data : PageBytes} {lastp : Nat} (h : data lastp = 0) (base : Nat) :
    ∀ k i, scanFrom data base k i lastp = [] := by
  intro k
  induction k with
  | zero => exact fun _ => rfl
  | succ k ih =>
      intro i
      rw [scanFrom, if_neg fun hc => hc.2 h]
      exact ih (i + 1)

theorem scanFrom_pass {data : PageBytes} (hz : 0 ∉ s) (base lastp : Nat) : ∀ {i k : Nat},
    Lies data i s →
      scanFrom data base (s.length + k) i lastp = scanFrom data base k (i + s.length) lastp := by
  induction s with
  | nil =>
      intro i k _
      simp
  | cons b s ih =>
      intro i k h
      simp only [List.mem_cons, not_or] at hz
      have hb : data i ≠ 0 := by
        rw [h.1]
        exact Ne.symm hz.1
      have hlen : (b :: s).length + k = s.length + k + 1 := by simp; omega
      have hi : i + (b :: s).length = i + 1 + s.length := by simp; omega
      rw [hlen, scanFrom, if_neg fun hc => hb hc.1, ih hz.2 h.2, hi]

/-- A scan finds the strings of a page when none of them is empty. -/
theorem scanFrom_places {data : PageBytes} {base : Nat} (hbase : base + pfPageSize ≤ 2 ^ 32)
    (hz : ∀ s ∈ ss, 0 ∉ s) (hne : ∀ s ∈ ss, s ≠ []) : ∀ {i k : Nat}, Lies data i (pack ss) →
      (∀ j, i + (pack ss).length ≤ j → j < pfPageSize → data j = 0) → i + k = pfPageSize →
      (pack ss).length ≤ k → scanFrom data base k i i = places (base + i) ss := by
  induction ss with
  | nil =>
      intro i k _ hbehind hik _
      cases k with
      | zero => rfl
      | succ k => exact scanFrom_zero (hbehind i (by simp) (by omega)) base _ _
  | cons s ss ih =>
      intro i k h hbehind hik hle
      have hs := hz s (List.mem_cons_self ..)
      have hpk : pack (s :: ss) = (s ++ [0]) ++ pack ss := by rw [pack_cons]; simp
      have hlen : (pack (s :: ss)).length = s.length + (pack ss).length + 1 := by
        rw [pack_cons]
        simp
        omega
      obtain ⟨m, rfl⟩ : ∃ m, k = s.length + (m + 1) := ⟨k - s.length - 1, by omega⟩
      rw [hlen] at hbehind hle
      rw [hpk, lies_append] at h
      have hbytes := lies_append.mp h.1
      have hrest : Lies data (i + s.length + 1) (pack ss) := by
        have h2 := h.2
        rwa [List.length_append, List.length_singleton, ← Nat.add_assoc] at h2
      have hfirst : data i ≠ 0 := by
        cases s with
        | nil => exact absurd rfl (hne [] (List.mem_cons_self ..))
        | cons b s =>
            rw [hbytes.1.1]
            intro hb
            exact hs (hb ▸ List.mem_cons_self ..)
      have hstr : cstr data pfPageSize i = some s := cstr_of_lies h.1 hs (by omega)
      have hcode : (base + i) % 2 ^ 32 = base + i := Nat.mod_eq_of_lt (by omega)
      have hnext : base + i + s.length + 1 = base + (i + s.length + 1) := by omega
      rw [scanFrom_pass hs base i hbytes.1, scanFrom, if_pos ⟨hbytes.2.1, hfirst⟩, hstr, hcode,
        places, hnext, ih (fun t ht => hz t (List.mem_cons_of_mem _ ht))
          (fun t ht => hne t (List.mem_cons_of_mem _ ht)) hrest
          (fun j hj hlt => hbehind j (by omega) hlt) (by omega) (by omega)]
      rfl

theorem PagePacks.scanPage (h : PagePacks pg ss) (hne : ∀ s ∈ ss, s ≠ []) (hi : i < 4096) :
    scanPage pg i = places (i * pfPageSize + 4) ss := by
  have hlt : i * pfPageSize < 2 ^ 32 := by
    simp only [pfPageSize]
    omega
  have hle := h.le
  rw [PagedStringPool.scanPage, Nat.mod_eq_of_lt hlt]
  refine scanFrom_places ?_ h.noZero hne h.lies h.behind ?_ ?_
  · simp only [pfPageSize]
    omega
  · simp only [pfPageSize]
  · omega

/-! ## All pages -/

/-- The strings of the pages from number `i` on, with their codes. -/
def pagePlaces : Nat → List (List (List UInt8)) → List (List UInt8 × Nat)
  | _, [] => []
  | i, ss :: pss => places (i * pfPageSize + 4) ss ++ pagePlaces (i + 1) pss

/-- The pages of the file are packed, each with the next free position as of
the last string on it. -/
def PagesPack (f : PagedFile PageBytes) (pss : List (List (List UInt8))) : Prop :=
  ∀ i ss, pss[i]? = some ss → PagePacks (f.pages i) ss ∧
    lastPos (f.pages i) = readBack (i * pfPageSize + (4 + (pack ss).length))

structure Packs (p : PagedStringPool) (pss : List (List (List UInt8))) : Prop where
  packed : p.file.Packed pss.length
  filePages : p.file.npages = pss.length
  npages : p.npages = pss.length
  pos : 0 < pss.length
  le : pss.length ≤ 4096
  pages : PagesPack p.file pss

def Holds (p : PagedStringPool) (es : List (List UInt8 × Nat)) : Prop :=
  ∃ pss, p.Packs pss ∧ es = pagePlaces 0 pss

/-- The string fits on the last page, or on a page of its own that still has
codes. -/
def Room (p : PagedStringPool) (s : List UInt8) : Prop :=
  pagePos p.npages (lastPos (p.file.pages (p.npages - 1))) + s.length + 1 < pfPageSize ∨
    p.npages < 4096 ∧ s.length + 5 ≤ pfPageSize

instance (p : PagedStringPool) (s : List UInt8) : Decidable (p.Room s) :=
  inferInstanceAs (Decidable (_ ∨ _))

/-- A pool over a new file has one page, which is empty. -/
theorem packs_new (h : ofFile newFile = .ok p) : p.Packs [[]] := by
  cases h
  refine ⟨⟨fun i => ?_, by decide⟩, rfl, rfl, by decide, by decide, ?_⟩
  · show (decide (i = 0) || false) = true ↔ i < 1
    simp
  · intro i ss hss
    cases i with
    | zero =>
        cases hss
        exact ⟨pagePacks_zero, rfl⟩
    | succ i => cases hss

theorem pagePlaces_append {i : Nat} {pss qss : List (List (List UInt8))} :
    pagePlaces i (pss ++ qss) = pagePlaces i pss ++ pagePlaces (i + pss.length) qss := by
  induction pss generalizing i with
  | nil => simp [pagePlaces]
  | cons ss pss ih =>
      have hi : i + 1 + pss.length = i + (ss :: pss).length := by simp; omega
      rw [List.cons_append, pagePlaces, pagePlaces, ih, List.append_assoc, hi]

theorem pagePlaces_newPage : pagePlaces 0 (pss ++ [[s]]) =
    pagePlaces 0 pss ++ [(s, pss.length * pfPageSize + 4)] := by
  rw [pagePlaces_append, Nat.zero_add]
  simp only [pagePlaces, places, List.append_nil]

theorem pagePlaces_lastPage {pre : List (List (List UInt8))} :
    pagePlaces 0 (pre ++ [ss ++ [s]]) = pagePlaces 0 (pre ++ [ss]) ++
      [(s, pre.length * pfPageSize + (4 + (pack ss).length))] := by
  rw [pagePlaces_append, pagePlaces_append, List.append_assoc]
  simp only [pagePlaces, places, Nat.zero_add, List.append_nil, places_append, Nat.add_assoc]

theorem mem_pagePlaces {i : Nat} {pss : List (List (List UInt8))} (h : (s, c) ∈ pagePlaces i pss) :
    ∃ j ss, pss[j]? = some ss ∧ (s, c) ∈ places ((i + j) * pfPageSize + 4) ss := by
  induction pss generalizing i with
  | nil => simp [pagePlaces] at h
  | cons ss pss ih =>
      rw [pagePlaces, List.mem_append] at h
      rcases h with h | h
      · exact ⟨0, ss, rfl, h⟩
      · obtain ⟨j, ts, hj, hm⟩ := ih h
        refine ⟨j + 1, ts, hj, ?_⟩
        rwa [Nat.add_assoc, Nat.add_comm 1 j] at hm

/-- The position on the last page; a pool whose codes are used up has none. -/
theorem pagePos_readBack {u n : Nat} (hu : u < 4096) (hn : n ≤ pfPageSize) (h4 : 4 ≤ n) :
    (pagePos (u + 1) (readBack (u * pfPageSize + n)) = n ∧
        readBack (u * pfPageSize + n) = u * pfPageSize + n) ∨
      pfPageSize ≤ pagePos (u + 1) (readBack (u * pfPageSize + n)) ∧ u + 1 = 4096 := by
  simp only [pfPageSize] at *
  by_cases hlt : u * 1048576 + n < 2 ^ 32
  · left
    rw [readBack_of_lt (by omega) hlt, pagePos, pfPageSize]
    omega
  · right
    have heq : u * 1048576 + n = 2 ^ 32 := by omega
    have hrb : readBack (2 ^ 32) = 4 := rfl
    rw [heq, hrb, pagePos, pfPageSize]
    omega

theorem PagesPack.congr {f g : PagedFile PageBytes} (h : PagesPack f pss)
    (heq : ∀ i, i < pss.length → g.pages i = f.pages i) : PagesPack g pss := by
  intro i ss hss
  rw [heq i (List.getElem?_eq_some_iff.mp hss).1]
  exact h i ss hss

theorem PagesPack.left {f : PagedFile PageBytes} {pre : List (List (List UInt8))}
    (h : PagesPack f (pre ++ [ss])) : PagesPack f pre := by
  intro i ts hts
  refine h i ts ?_
  rwa [List.getElem?_append_left (List.getElem?_eq_some_iff.mp hts).1]

/-- A string is written to the last page. -/
theorem writeString_wp {pre : List (List (List UInt8))} {last : Nat}
    (hp : p.file.Packed (pre.length + 1)) (hfile : p.file.npages = pre.length + 1)
    (hn : p.npages = pre.length + 1) (hle : pre.length < 4096) (hpre : PagesPack p.file pre)
    (hpg : PagePacks pg ss) (hlast : last = pre.length * pfPageSize + (4 + (pack ss).length))
    (hz : 0 ∉ s) (hfit : 4 + (pack ss).length + s.length + 1 ≤ pfPageSize)
    (hstart : 4 + (pack ss).length + 1 < pfPageSize) :
    wp (writeString (pre.length + 1) pg last (4 + (pack ss).length) s)
      (fun c p' => p'.Packs (pre ++ [ss ++ [s]]) ∧ c = last) (fun _ _ => False) p := by
  rw [writeString, if_neg (Nat.not_lt.mpr hfit)]
  simp only [wp_bind, wp_modify, wp_pure, Nat.add_sub_cancel, and_true]
  have hlen : (pre ++ [ss ++ [s]]).length = pre.length + 1 := by simp
  constructor
  · rw [hlen]
    exact hp.writeAt _ _
  · rw [hlen]
    exact hfile
  · rw [hlen]
    exact hn
  · omega
  · omega
  · intro i ts hts
    by_cases hi : i = pre.length
    · subst hi
      rw [List.getElem?_append_right (Nat.le_refl _), Nat.sub_self] at hts
      cases hts
      have hnext : last + s.length + 1 =
          pre.length * pfPageSize + (4 + (pack (ss ++ [s])).length) := by
        rw [pack_snoc_length, hlast]
        omega
      simp only [PagedFile.writeAt, if_true]
      rw [lastPos_put, hnext]
      exact ⟨hpg.add hz _ hfit hstart, rfl⟩
    · have hlt : i < pre.length := by
        have hi' := (List.getElem?_eq_some_iff.mp hts).1
        omega
      rw [List.getElem?_append_left hlt] at hts
      simp only [PagedFile.writeAt, if_neg hi]
      exact hpre i ts hts

/-- A string that gets a page of its own. -/
theorem newPage_wp {u : Nat} (h : p.Packs pss) (hu : pss.length = u) (hlt : u < 4096)
    (hz : 0 ∉ s) (hs : s.length + 5 ≤ pfPageSize) :
    wp (do
        let pid ← onFile (PagedFile.allocatePage fun _ => 0)
        let pg ← onFile (PagedFile.readPage pid)
        modify fun p => { p with npages := p.npages + 1 }
        let p ← get
        writeString pid pg (((p.npages - 1) * pfPageSize + 4) % 2 ^ 32) 4 s)
      (fun c p' => p'.Packs (pss ++ [[s]]) ∧ c = u * pfPageSize + 4) (fun _ _ => False) p := by
  subst hu
  simp only [wp_bind, wp_onFile]
  refine h.packed.allocatePage_wp (fun _ g hg hgn hgp => ?_) fun hgt => ?_
  · refine hg.readPage_wp (fun _ => ?_) (fun hge => by omega)
    simp only [wp_modify, wp_get, Nat.add_sub_cancel, h.npages]
    have hpage : g.pages pss.length = fun _ => 0 := by simp [hgp]
    have hcode : (pss.length * pfPageSize + 4) % 2 ^ 32 = pss.length * pfPageSize + 4 :=
      Nat.mod_eq_of_lt (by simp only [pfPageSize]; omega)
    rw [hpage, hcode]
    refine writeString_wp hg ?_ rfl hlt ?_ pagePacks_zero rfl hz ?_ (by decide)
    · show g.npages = _
      rw [hgn, h.filePages]
      omega
    · refine h.pages.congr fun i hi => ?_
      have hne : i ≠ pss.length := by omega
      simp [hgp, hne]
    · simp
      omega
  · rw [maxPages] at hgt
    omega

/-- The last page of a pool. -/
theorem Packs.split (h : p.Packs pss) : ∃ pre ss, pss = pre ++ [ss] := by
  have hne : pss ≠ [] := List.ne_nil_of_length_pos h.pos
  exact ⟨_, _, (List.dropLast_append_getLast hne).symm⟩

theorem add_wp (h : p.Holds es) (hroom : p.Room s) (hz : 0 ∉ s) :
    wp (add s) (fun c p' => p'.Holds (es ++ [(s, c)])) (fun _ _ => False) p := by
  obtain ⟨pss, hp, rfl⟩ := h
  obtain ⟨pre, ss, rfl⟩ := hp.split
  have hlen : (pre ++ [ss]).length = pre.length + 1 := by simp
  have hpacked := hp.packed
  have hfile := hp.filePages
  have hn := hp.npages
  have hle := hp.le
  rw [hlen] at hpacked hfile hn hle
  obtain ⟨hpg, hfront⟩ := hp.pages pre.length ss (by simp)
  have hpgle := hpg.le
  rw [Room, hn, Nat.add_sub_cancel, hfront] at hroom
  obtain ⟨f, n⟩ := p
  simp only at hn
  subst hn
  rw [add, wp_bind, wp_onFile]
  refine hpacked.lastValidPage_wp (fun _ => ?_) (fun hgt => by rw [hfile, maxPages] at hgt; omega)
  rw [wp_bind, wp_onFile]
  refine hpacked.readPage_wp (fun _ => ?_) (fun hge => by omega)
  rw [wp_bind, wp_get, hfront]
  have hu : pre.length < 4096 := by omega
  rcases pagePos_readBack hu hpgle (by omega) with ⟨hpos, hback⟩ | ⟨hpos, hmax⟩
  · show wp (if pfPageSize ≤ (pagePos (pre.length + 1)
        (readBack (pre.length * pfPageSize + (4 + (pack ss).length))) + s.length + 1) % 2 ^ 64
      then _ else writeString _ _ (readBack _) (pagePos _ (readBack _)) s) _ _
      (PagedStringPool.mk f (pre.length + 1))
    rw [hpos] at hroom
    rw [hpos, hback]
    have hmod : ∀ n, n ≤ 2 * pfPageSize → n % 2 ^ 64 = n := by
      intro n hle
      refine Nat.mod_eq_of_lt ?_
      simp only [pfPageSize] at hle
      omega
    have hs : s.length + 1 ≤ pfPageSize := by omega
    rw [hmod _ (by omega)]
    refine wp_ite (fun hfull => ?_) fun hfit => ?_
    · have hnew : pre.length + 1 < 4096 ∧ s.length + 5 ≤ pfPageSize := by omega
      refine wp_mono (newPage_wp hp hlen hnew.1 hz hnew.2) (fun c p' hc => ?_) fun _ _ hf => hf
      refine ⟨_, hc.1, ?_⟩
      rw [hc.2, pagePlaces_newPage, hlen]
    · refine wp_mono (writeString_wp hpacked hfile rfl hu hp.pages.left hpg rfl hz
        (by omega) (by omega))
        (fun c p' hc => ?_) fun _ _ hf => hf
      refine ⟨_, hc.1, ?_⟩
      rw [hc.2, pagePlaces_lastPage]
  · omega

/-- Where a string of the pool stands. -/
theorem Packs.mem (h : p.Packs pss) (hmem : (s, c) ∈ pagePlaces 0 pss) :
    ∃ j ss d, pss[j]? = some ss ∧ (s, d) ∈ places 4 ss ∧ c = j * pfPageSize + d ∧ j < 4096 ∧
      4 ≤ d ∧ d + 1 < pfPageSize := by
  obtain ⟨j, ss, hj, hm⟩ := mem_pagePlaces hmem
  rw [Nat.zero_add, places_add, List.mem_map] at hm
  obtain ⟨⟨t, d⟩, hd, heq⟩ := hm
  simp only [Prod.mk.injEq] at heq
  obtain ⟨rfl, rfl⟩ := heq
  have hlt := (List.getElem?_eq_some_iff.mp hj).1
  have hle := h.le
  exact ⟨j, ss, d, hj, hd, rfl, by omega, (places_bounds hd).1,
    (h.pages j ss hj).1.start _ hd⟩

theorem extract_eq (h : p.Holds es) (hmem : (s, c) ∈ es) : p.extract c = .ok s := by
  obtain ⟨pss, hp, rfl⟩ := h
  obtain ⟨j, ss, d, hj, hd, rfl, -, -, hlt⟩ := hp.mem hmem
  have hpg := (hp.pages j ss hj).1
  have hdiv : (j * pfPageSize + d) / pfPageSize = j := by
    simp only [pfPageSize] at hlt ⊢
    omega
  have hmod : (j * pfPageSize + d) % pfPageSize = d := by
    simp only [pfPageSize] at hlt ⊢
    omega
  have hholds : p.file.holds (j + 1) = true :=
    (hp.packed.holds_iff j).mpr (List.getElem?_eq_some_iff.mp hj).1
  have hread : PagedFile.readPage (j + 1) p.file = .ok (p.file.pages j) p.file := by
    simp only [PagedFile.readPage, bind, EStateM.bind, get_apply,
      hholds, if_true]
    rfl
  rw [extract, hdiv, hmod, hread]
  simp only [cstr_of_places hpg.lies hd (hpg.noZero s (mem_of_places hd)) hpg.le]

theorem codes (h : p.Holds es) (hmem : (s, c) ∈ es) : 0 < c ∧ c < UNKNOWN_CODE := by
  obtain ⟨pss, hp, rfl⟩ := h
  obtain ⟨j, ss, d, -, -, rfl, hj, h4, hlt⟩ := hp.mem hmem
  simp only [pfPageSize, UNKNOWN_CODE] at hlt ⊢
  omega

/-- The codes of later pages are larger. -/
theorem pagePlaces_sorted (hle : ∀ ss ∈ pss, 4 + (pack ss).length ≤ pfPageSize) :
    ∀ i, (pagePlaces i pss).Pairwise fun a b => a.2 < b.2 := by
  induction pss with
  | nil => exact fun _ => .nil
  | cons ss pss ih =>
      intro i
      rw [pagePlaces, List.pairwise_append]
      refine ⟨places_sorted, ih (fun t ht => hle t (List.mem_cons_of_mem _ ht)) _, ?_⟩
      rintro ⟨s, c⟩ hs ⟨t, d⟩ ht
      obtain ⟨j, ts, -, ht⟩ := mem_pagePlaces ht
      have hsb := (places_bounds hs).2
      have htb := (places_bounds ht).1
      have hfit := hle ss (List.mem_cons_self ..)
      have hmul : (i + 1) * pfPageSize ≤ (i + 1 + j) * pfPageSize :=
        Nat.mul_le_mul_right _ (by omega)
      rw [Nat.add_mul, Nat.one_mul] at hmul
      show c < d
      omega

/-- The pages of a pool that is found again are scanned in order. -/
theorem flatMap_scanPage {f : PagedFile PageBytes} (hne : ∀ ss ∈ pss, ∀ s ∈ ss, s ≠ []) :
    ∀ i, (∀ j ss, pss[j]? = some ss → PagePacks (f.pages (i + j)) ss) → i + pss.length ≤ 4096 →
      ((List.range' i pss.length).flatMap fun j => scanPage (f.pages j) j) = pagePlaces i pss := by
  induction pss with
  | nil => exact fun _ _ _ => rfl
  | cons ss pss ih =>
      intro i hpages hle
      simp only [List.length_cons] at hle
      rw [List.length_cons, List.range'_succ, List.flatMap_cons, pagePlaces]
      have hpg : PagePacks (f.pages i) ss := hpages 0 ss rfl
      rw [hpg.scanPage (hne ss (List.mem_cons_self ..)) (by omega),
        ih (fun t ht => hne t (List.mem_cons_of_mem _ ht)) (i + 1) ?_ (by omega)]
      intro j ts hts
      have hj : i + 1 + j = i + (j + 1) := by omega
      rw [hj]
      exact hpages (j + 1) ts hts

theorem Packs.scan_eq (h : p.Packs pss) (hne : ∀ ss ∈ pss, ∀ s ∈ ss, s ≠ []) :
    p.scan = pagePlaces 0 pss := by
  have hused : (List.range p.file.npages).filter p.file.slots = List.range p.file.npages := by
    rw [List.filter_eq_self]
    intro i hi
    rw [h.packed.slots_eq, decide_eq_true_iff, ← h.filePages]
    exact List.mem_range.mp hi
  have hzip : (List.range p.file.npages).zipIdx =
    (List.range p.file.npages).map fun i => (i, i) := by
    apply List.ext_getElem?
    intro i
    rw [List.getElem?_zipIdx, List.getElem?_map]
    rcases Nat.lt_or_ge i p.file.npages with hi | hi
    · simp [List.getElem?_range hi]
    · simp [hi]
  rw [scan, hused, hzip, List.flatMap_map, h.filePages, List.range_eq_range']
  refine flatMap_scanPage hne 0 (fun j ss hj => ?_) (by simpa using h.le)
  rw [Nat.zero_add]
  exact (h.pages j ss hj).1

/-- Of empty strings, a scan finds none. -/
theorem Packs.scan_empty (h : p.Packs pss) (hempty : ∀ ss ∈ pss, ∀ s ∈ ss, s = []) :
    p.scan = [] := by
  rw [scan, List.flatMap_eq_nil_iff]
  rintro ⟨i, npage⟩ hi
  have hmem := List.mem_filter.mp (List.fst_mem_of_mem_zipIdx hi)
  have hlt : i < pss.length := by
    rw [← h.filePages]
    exact List.mem_range.mp hmem.1
  have hpg := (h.pages i pss[i] (List.getElem?_eq_getElem hlt)).1
  have hzero : p.file.pages i 4 = 0 := by
    have hstrings := hempty pss[i] (List.getElem_mem hlt)
    generalize pss[i] = ss at hpg hstrings
    cases ss with
    | nil => exact hpg.behind 4 (by simp) (by decide)
    | cons s ss =>
        cases hstrings s (List.mem_cons_self ..)
        exact hpg.lies.1
  exact scanFrom_zero hzero _ _ _

/-- The file of a pool is opened as the pool it is. -/
theorem Packs.ofFile (h : p.Packs pss) : ofFile p.file = .ok p := by
  have hn : p.file.npages ≠ 0 := by
    rw [h.filePages]
    exact Nat.ne_of_gt h.pos
  have hsame : PagedStringPool.mk p.file p.file.npages = p := by
    rw [h.filePages, ← h.npages]
  rw [PagedStringPool.ofFile, if_neg hn, hsame]

theorem mem_pagePlaces_of_mem {t : List UInt8} (hss : ss ∈ pss) (ht : t ∈ ss) :
    ∀ i, ∃ c, (t, c) ∈ pagePlaces i pss := by
  induction pss with
  | nil => cases hss
  | cons us pss ih =>
      intro i
      rcases List.mem_cons.mp hss with rfl | hss
      · obtain ⟨c, hc⟩ := exists_place ht (i * pfPageSize + 4)
        exact ⟨c, List.mem_append_left _ hc⟩
      · obtain ⟨c, hc⟩ := ih hss (i + 1)
        exact ⟨c, List.mem_append_right _ hc⟩

end PagedStringPool

instance : LawfulStore PagedStringPool where
  Holds := PagedStringPool.Holds
  Room := PagedStringPool.Room
  Found s := s ≠ []
  add_wp := PagedStringPool.add_wp
  extract_eq := PagedStringPool.extract_eq
  sorted := by
    rintro p es ⟨pss, hp, rfl⟩
    refine PagedStringPool.pagePlaces_sorted (fun ss hss => ?_) 0
    obtain ⟨i, hi⟩ := List.getElem?_of_mem hss
    exact (hp.pages i ss hi).1.le
  codes := PagedStringPool.codes
  reopen_scan := by
    rintro p es ⟨pss, hp, rfl⟩ hfound
    refine ⟨p, hp.ofFile, fun _ => rfl, hp.scan_eq fun ss hss s hs => ?_⟩
    obtain ⟨c, hc⟩ := PagedStringPool.mem_pagePlaces_of_mem hss hs 0
    exact hfound _ hc

end Poseidon
