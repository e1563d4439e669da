import Poseidon.Lib.Along
import Poseidon.Proofs.PagedPool
import Mathlib.Data.FinEnum
import Mathlib.Data.Fintype.Pigeonhole

/-!
# The dictionary is a bijection

The pool holds a list of strings with their codes, and the code table has the
entry of each of them under its hash. As long as no two strings have the same
hash, an insert keeps this, and both directions of the dictionary can be read
off the list. Nothing is ever removed from it.

The table that is rebuilt when the dictionary is opened again has the entries
of the list the scan finds, so it is the table as it was.
-/

namespace Poseidon

open Wp CStr

/-! ## The code table -/

section

variable {hash : List UInt8 → UInt64} {es : List (List UInt8 × Nat)}

/-- The entries of a list, each under its hash. -/
def Indexes (hash : List UInt8 → UInt64) (t : CodeTable) (es : List (List UInt8 × Nat)) : Prop :=
  ∀ h c, t h = some c ↔ ∃ s, (s, c) ∈ es ∧ hash s = h

theorem Indexes.insert {t : CodeTable} (ht : Indexes hash t es) {s : List UInt8} {c : Nat}
    (hnone : t (hash s) = none) : Indexes hash (t.insert hash s c) (es ++ [(s, c)]) := by
  intro h e
  rw [CodeTable.insert]
  by_cases hh : h = hash s
  · subst hh
    rw [if_pos ⟨rfl, hnone⟩, Option.some.injEq]
    constructor
    · rintro rfl
      exact ⟨s, by simp, rfl⟩
    · rintro ⟨u, hu, hus⟩
      rcases List.mem_append.mp hu with hu | hu
      · rw [(ht (hash s) e).mpr ⟨u, hu, hus⟩] at hnone
        cases hnone
      · simp only [List.mem_singleton, Prod.mk.injEq] at hu
        exact hu.2.symm
  · rw [if_neg fun hc => hh hc.1, ht]
    constructor
    · rintro ⟨u, hu, hus⟩
      exact ⟨u, List.mem_append_left _ hu, hus⟩
    · rintro ⟨u, hu, hus⟩
      rcases List.mem_append.mp hu with hu | hu
      · exact ⟨u, hu, hus⟩
      · simp only [List.mem_singleton, Prod.mk.injEq] at hu
        exact absurd (hu.1 ▸ hus.symm) hh

theorem foldl_indexes {t t' : CodeTable} (ht' : Indexes hash t' es) :
    ∀ {done todo : List (List UInt8 × Nat)}, es = done ++ todo → Indexes hash t done →
      (es.Pairwise fun a b => a.2 < b.2) →
      Indexes hash (todo.foldl (fun t e => t.insert hash e.1 e.2) t) es := by
  intro done todo
  induction todo generalizing t done with
  | nil =>
      intro hes ht _
      rwa [hes, List.append_nil]
  | cons e todo ih =>
      intro hes ht hsorted
      refine ih (by simp [hes] : es = (done ++ [e]) ++ todo) (ht.insert ?_) hsorted
      -- an earlier entry with this hash would have the same code
      rw [Option.eq_none_iff_forall_ne_some]
      intro c hc
      obtain ⟨s, hs, hhash⟩ := (ht _ _).mp hc
      have hfirst : t' (hash e.1) = some c := (ht' _ _).mpr ⟨s, by simp [hes, hs], hhash⟩
      have hsecond : t' (hash e.1) = some e.2 := (ht' _ _).mpr ⟨e.1, by simp [hes], rfl⟩
      rw [hes, List.pairwise_append] at hsorted
      have hlt := hsorted.2.2 (s, c) hs e (List.mem_cons_self ..)
      rw [hfirst, Option.some.injEq] at hsecond
      simp only [hsecond] at hlt
      exact Nat.lt_irrefl _ hlt

/-- The table that is rebuilt from the entries of a table is that table. -/
theorem rebuild_eq {t : CodeTable} (ht : Indexes hash t es)
    (hsorted : es.Pairwise fun a b => a.2 < b.2) :
    CodeTable.rebuild hash es = t := by
  have hempty : Indexes hash (fun _ => none) [] := by
    intro h c
    simp
  have hre : Indexes hash (CodeTable.rebuild hash es) es :=
    foldl_indexes ht (List.nil_append _).symm hempty hsorted
  funext h
  apply Option.ext
  intro c
  exact (hre h c).trans (ht h c).symm

end

namespace StringDict

variable {P : Type} [StringStore P] [LawfulStore P] {hash : List UInt8 → UInt64}
  {d : StringDict P} {es : List (List UInt8 × Nat)} {s : List UInt8} {c : Nat}

/-! ## One insert -/

/-- A string that is not in the table yet can be stored. -/
def Fits (hash : List UInt8 → UInt64) (room : P → List UInt8 → Prop) (d : StringDict P)
    (s : List UInt8) : Prop :=
  d.table (hash s) = none → 0 ∉ s ∧ room d.pool s

/-- Moreover, the entry under the hash of a string is that of the string. -/
def Ready (hash : List UInt8 → UInt64) (room : P → List UInt8 → Prop) (d : StringDict P)
    (s : List UInt8) : Prop :=
  Fits hash room d s ∧ ∀ c ∈ d.table (hash s), d.lookupCode c = .ok s

/-- Moreover, a scan finds the string. -/
def Findable (hash : List UInt8 → UInt64) (room : P → List UInt8 → Prop)
    (found : List UInt8 → Prop) (d : StringDict P) (s : List UInt8) : Prop :=
  Fits hash room d s ∧ (d.table (hash s) = none → found s)

section

variable {room : P → List UInt8 → Prop} [∀ p s, Decidable (room p s)]

instance : Decidable (Fits hash room d s) := inferInstanceAs (Decidable (_ → _))

instance : Decidable (Ready hash room d s) := inferInstanceAs (Decidable (_ ∧ _))

instance {found : List UInt8 → Prop} [∀ s, Decidable (found s)] :
    Decidable (Findable hash room found d s) := inferInstanceAs (Decidable (_ ∧ _))

end

/-- The pool holds the list, and the table has its entries. -/
structure Keeps (hash : List UInt8 → UInt64) (d : StringDict P) (es : List (List UInt8 × Nat)) :
    Prop where
  holds : LawfulStore.Holds d.pool es
  table : Indexes hash d.table es

/-- What an insert returns, and what it adds to the list. -/
theorem Keeps.insert (h : d.Keeps hash es) (hfits : d.Fits hash LawfulStore.Room s) :
    (∃ c, d.table (hash s) = some c ∧ insert hash s d = .ok c d) ∨
      ∃ c d', d.table (hash s) = none ∧ insert hash s d = .ok c d' ∧
      d'.Keeps hash (es ++ [(s, c)]) := by
  cases htab : d.table (hash s) with
  | some c =>
      left
      obtain ⟨t, ht, -⟩ := (h.table _ _).mp htab
      have hne : c ≠ UNKNOWN_CODE := Nat.ne_of_lt (LawfulStore.codes h.holds ht).2
      refine ⟨c, rfl, ?_⟩
      simp only [StringDict.insert, CodeTable.find, htab, Option.getD_some, if_pos hne]
  | none =>
      right
      obtain ⟨hz, hroom⟩ := hfits htab
      obtain ⟨c, p', hadd, hp'⟩ := wp_exists (LawfulStore.add_wp h.holds hroom hz)
      refine ⟨c, ⟨p', d.table.insert hash s c⟩, rfl, ?_, hp', h.table.insert htab⟩
      simp only [StringDict.insert, CodeTable.find, htab, Option.getD_none, ne_eq, not_true,
        if_false, hadd]

theorem Keeps.lookupString (h : d.Keeps hash es) (hmem : (s, c) ∈ es) :
    d.lookupString hash s = c := by
  have htab : d.table (hash s) = some c := (h.table _ _).mpr ⟨s, hmem, rfl⟩
  have hne : c ≠ UNKNOWN_CODE := Nat.ne_of_lt (LawfulStore.codes h.holds hmem).2
  simp only [StringDict.lookupString, CodeTable.find, htab, Option.getD_some, if_pos hne]

theorem Keeps.lookupCode (h : d.Keeps hash es) (hmem : (s, c) ∈ es) : d.lookupCode c = .ok s :=
  LawfulStore.extract_eq h.holds hmem

/-! ## A run of inserts -/

/-- Every string is stored under the code its insert returns. -/
theorem Keeps.insertAll {ss : List (List UInt8)} (h : d.Keeps hash es)
    (hready : Along (StringDict.next hash) (Ready hash LawfulStore.Room) d ss) :
    ∃ cs d' new, StringDict.insertAll hash ss d = .ok cs d' ∧ d'.Keeps hash (es ++ new) ∧
      cs.length = ss.length ∧ ∀ e ∈ ss.zip cs, e ∈ es ++ new := by
  induction ss generalizing d es with
  | nil => exact ⟨[], d, [], rfl, by simpa using h, rfl, by simp⟩
  | cons s ss ih =>
      obtain ⟨⟨hfits, hsame⟩, hrest⟩ := hready
      obtain ⟨c, d1, new1, hins, hd1, hmem⟩ : ∃ c d1 new1, StringDict.insert hash s d = .ok c d1 ∧
          d1.Keeps hash (es ++ new1) ∧ (s, c) ∈ es ++ new1 := by
        rcases h.insert hfits with ⟨c, htab, hins⟩ | ⟨c, d', -, hins, hd'⟩
        · obtain ⟨t, ht, -⟩ := (h.table _ _).mp htab
          have hst := h.lookupCode ht
          rw [hsame c htab] at hst
          cases hst
          exact ⟨c, d, [], hins, by simpa using h, by simpa using ht⟩
        · exact ⟨c, d', [(s, c)], hins, hd', by simp⟩
      rw [StringDict.next, hins] at hrest
      obtain ⟨cs, d2, new2, hall, hd2, hlen, hzip⟩ := ih hd1 hrest
      refine ⟨c :: cs, d2, new1 ++ new2, ?_, by rwa [← List.append_assoc], by simp [hlen], ?_⟩
      · simp only [StringDict.insertAll, bind, EStateM.bind, hins, hall]
        rfl
      · intro e he
        rw [List.zip_cons_cons, List.mem_cons] at he
        rw [← List.append_assoc]
        rcases he with rfl | he
        · exact List.mem_append_left _ hmem
        · exact hzip e he

/-- The codes `cs` of the strings `ss`, as the dictionary has them after all
inserts. -/
structure Bijective (hash : List UInt8 → UInt64) (d : StringDict P) (ss : List (List UInt8))
    (cs : List Nat) : Prop where
  length : cs.length = ss.length
  lookupCode : ∀ s c, (s, c) ∈ ss.zip cs → d.lookupCode c = .ok s
  lookupString : ∀ s c, (s, c) ∈ ss.zip cs → d.lookupString hash s = c
  injective : ∀ s c t e, (s, c) ∈ ss.zip cs → (t, e) ∈ ss.zip cs → s ≠ t → c ≠ e
  nonzero : ∀ c ∈ cs, c ≠ 0

theorem Keeps.bijective {ss : List (List UInt8)} (h : d.Keeps hash [])
    (hready : Along (StringDict.next hash) (Ready hash LawfulStore.Room) d ss) :
    ∃ cs d', StringDict.insertAll hash ss d = .ok cs d' ∧ d'.Bijective hash ss cs := by
  obtain ⟨cs, d', new, hall, hd', hlen, hzip⟩ := h.insertAll hready
  refine ⟨cs, d', hall, hlen, fun s c hm => hd'.lookupCode (hzip _ hm),
    fun s c hm => hd'.lookupString (hzip _ hm), ?_, ?_⟩
  · rintro s c t e hs ht hne rfl
    have hst := hd'.lookupCode (hzip _ hs)
    rw [hd'.lookupCode (hzip _ ht)] at hst
    cases hst
    exact hne rfl
  · intro c hc
    obtain ⟨i, hi⟩ := List.getElem?_of_mem hc
    have hlt := (List.getElem?_eq_some_iff.mp hi).1
    have hs : ss[i]? = some ss[i] := List.getElem?_eq_getElem (by omega)
    have hm : (ss[i], c) ∈ ss.zip cs :=
      List.mem_of_getElem? (List.getElem?_zip_eq_some.mpr ⟨hs, hi⟩)
    exact Nat.ne_of_gt (LawfulStore.codes hd'.holds (hzip _ hm)).1

/-- As `insertAll`, for strings that a scan finds but that may share a hash. -/
theorem Keeps.insertFound {ss : List (List UInt8)} (h : d.Keeps hash es)
    (hes : ∀ e ∈ es, LawfulStore.Found P e.1)
    (hfind : Along (StringDict.next hash)
    (Findable hash LawfulStore.Room (LawfulStore.Found P)) d ss) :
    ∃ cs d' es', StringDict.insertAll hash ss d = .ok cs d' ∧ d'.Keeps hash es' ∧
      ∀ e ∈ es', LawfulStore.Found P e.1 := by
  induction ss generalizing d es with
  | nil => exact ⟨[], d, es, rfl, h, hes⟩
  | cons s ss ih =>
      obtain ⟨⟨hfits, hfound⟩, hrest⟩ := hfind
      obtain ⟨c, d1, es1, hins, hd1, hes1⟩ : ∃ c d1 es1, StringDict.insert hash s d = .ok c d1 ∧
          d1.Keeps hash es1 ∧ ∀ e ∈ es1, LawfulStore.Found P e.1 := by
        rcases h.insert hfits with ⟨c, -, hins⟩ | ⟨c, d', hnone, hins, hd'⟩
        · exact ⟨c, d, es, hins, h, hes⟩
        · refine ⟨c, d', _, hins, hd', fun e he => ?_⟩
          rcases List.mem_append.mp he with he | he
          · exact hes e he
          · rw [List.mem_singleton.mp he]
            exact hfound hnone
      rw [StringDict.next, hins] at hrest
      obtain ⟨cs, d2, es2, hall, hd2, hes2⟩ := ih hd1 hes1 hrest
      refine ⟨c :: cs, d2, es2, ?_, hd2, hes2⟩
      simp only [StringDict.insertAll, bind, EStateM.bind, hins, hall]
      rfl

/-- Both directions of the dictionary are the same after it is opened again. -/
theorem Keeps.reopen (h : d.Keeps hash es) (hes : ∀ e ∈ es, LawfulStore.Found P e.1) :
    ∃ d', d.reopen hash = .ok d' ∧ (∀ s, d'.lookupString hash s = d.lookupString hash s) ∧
      ∀ c, d'.lookupCode c = d.lookupCode c := by
  obtain ⟨p', hopen, hextract, hscan⟩ := LawfulStore.reopen_scan h.holds hes
  have htab : CodeTable.rebuild hash (StringStore.scan p') = d.table := by
    rw [hscan]
    exact rebuild_eq h.table (LawfulStore.sorted h.holds)
  refine ⟨⟨p', d.table⟩, ?_, fun _ => rfl, hextract⟩
  rw [StringDict.reopen, hopen, ← htab]
  rfl

/-- A dictionary over a pool without strings. -/
theorem keeps_new {p : P} (h : LawfulStore.Holds p []) (hscan : StringStore.scan p = []) :
    (initialise hash p).Keeps hash [] := by
  refine ⟨h, ?_⟩
  intro k c
  simp [initialise, hscan, CodeTable.rebuild]

theorem keeps_stringPool {initSize expSize : Nat} (h1 : 0 < initSize) (h2 : initSize < 2 ^ 32) :
    (initialise hash (StringPool.new initSize expSize)).Keeps hash [] :=
  keeps_new ⟨[], StringPool.packs_new h1 h2, rfl⟩ rfl

theorem keeps_pagedStringPool {p : PagedStringPool}
    (h : PagedStringPool.ofFile PagedStringPool.newFile = .ok p) :
    (initialise hash p).Keeps hash [] :=
  have hp := PagedStringPool.packs_new h
  keeps_new ⟨_, hp, rfl⟩ (hp.scan_eq (by simp))

end StringDict

open StringDict

/-- As long as each string that is inserted for the first time has no zero
byte, shares its hash with no other string and fits in the pool, the
dictionary is a bijection between the strings and codes other than 0. -/
theorem dict_is_bijection (hash : List UInt8 → UInt64) :
    (∀ (initSize expSize : Nat) (ss : List (List UInt8)), 0 < initSize → initSize < 2 ^ 32 →
      Along (next hash) (Ready hash StringPool.Room)
        (initialise hash (StringPool.new initSize expSize)) ss →
      ∃ cs d, insertAll hash ss (initialise hash (StringPool.new initSize expSize)) = .ok cs d ∧
        d.Bijective hash ss cs) ∧
    ∀ (p : PagedStringPool) (ss : List (List UInt8)),
      PagedStringPool.ofFile PagedStringPool.newFile = .ok p →
      Along (next hash) (Ready hash PagedStringPool.Room) (initialise hash p) ss →
      ∃ cs d, insertAll hash ss (initialise hash p) = .ok cs d ∧ d.Bijective hash ss cs :=
  ⟨fun _ _ _ h1 h2 hready => (keeps_stringPool h1 h2).bijective hready,
    fun _ _ hopen hready => (keeps_pagedStringPool hopen).bijective hready⟩

/-- A hash for small strings. -/
def polyHash (s : List UInt8) : UInt64 := UInt64.ofNat (s.foldl (fun a b => a * 256 + b.toNat) 1)

/-- A new dictionary over pages has an empty table. -/
theorem initialise_paged {hash : List UInt8 → UInt64} {p : PagedStringPool}
    (h : PagedStringPool.ofFile PagedStringPool.newFile = .ok p) :
    initialise hash p = ⟨p, fun _ => none⟩ := by
  have hscan : StringStore.scan p = [] := (PagedStringPool.packs_new h).scan_eq (by simp)
  rw [initialise, hscan]
  rfl

theorem dict_is_bijection_three_inserts :
    (∃ cs d, insertAll polyHash [[97], [], [97]]
        (initialise polyHash (StringPool.new 100000 10000)) = .ok cs d ∧
      d.Bijective polyHash [[97], [], [97]] cs) ∧
    ∃ p, PagedStringPool.ofFile PagedStringPool.newFile = .ok p ∧
      ∃ cs d, insertAll polyHash [[97], [], [97]] (initialise polyHash p) = .ok cs d ∧
        d.Bijective polyHash [[97], [], [97]] cs := by
  refine ⟨(dict_is_bijection polyHash).1 100000 10000 _ (by decide) (by decide) (by decide +kernel),
    _, rfl, (dict_is_bijection polyHash).2 _ _ rfl ?_⟩
  rw [initialise_paged rfl]
  decide +kernel

/-- Whatever the hash, there are two strings that get one code, and a string
with a zero byte in it is cut there. -/
theorem dict_shares_code :
    ¬∃ hash : List UInt8 → UInt64,
      (∀ s t, s ≠ t → ∃ cs d, insertAll hash [s, t]
        (initialise hash (StringPool.new 100000 10000)) = .ok cs d ∧ d.Bijective hash [s, t] cs) ∨
      ∃ cs d, insertAll hash [[97, 0, 98]]
        (initialise hash (StringPool.new 100000 10000)) = .ok cs d ∧
          d.Bijective hash [[97, 0, 98]] cs := by
  rintro ⟨hash, hdistinct | ⟨cs, d, hall, hb⟩⟩
  · obtain ⟨s, t, hne, hhash⟩ := Finite.exists_ne_map_eq_of_infinite hash
    obtain ⟨cs, d, hall, hb⟩ := hdistinct s t hne
    have hlen := hb.length
    match cs, hlen with
    | [c, e], _ =>
      have hc := hb.lookupString s c (by simp)
      have he := hb.lookupString t e (by simp)
      have hsame : d.lookupString hash t = d.lookupString hash s := by
        rw [lookupString, lookupString, CodeTable.find, CodeTable.find, hhash]
      rw [hc, he] at hsame
      exact hb.injective s c t e (by simp) (by simp) hne hsame.symm
  · cases hall
    have hcut : StringPool.extract ⟨put (StringPool.new 100000 10000).pool 1 [97, 0, 98, 0],
        100000, 10000, 5⟩ 1 = .ok [97, 0, 98] := hb.lookupCode _ _ (List.mem_cons_self ..)
    exact absurd hcut (by decide +kernel)

/-- As long as each string that is inserted for the first time has no zero
byte, fits in the pool and, in a paged pool, is not empty, the dictionary is
the same after it is opened again. -/
theorem dict_survives_reopen (hash : List UInt8 → UInt64) :
    (∀ (initSize expSize : Nat) (ss : List (List UInt8)), 0 < initSize → initSize < 2 ^ 32 →
      Along (next hash) (Findable hash StringPool.Room fun _ => True)
        (initialise hash (StringPool.new initSize expSize)) ss →
      ∃ cs d d', insertAll hash ss (initialise hash (StringPool.new initSize expSize)) = .ok cs d ∧
        d.reopen hash = .ok d' ∧ (∀ s, d'.lookupString hash s = d.lookupString hash s) ∧
        ∀ c, d'.lookupCode c = d.lookupCode c) ∧
    ∀ (p : PagedStringPool) (ss : List (List UInt8)),
      PagedStringPool.ofFile PagedStringPool.newFile = .ok p →
      Along (next hash) (Findable hash PagedStringPool.Room (· ≠ [])) (initialise hash p) ss →
      ∃ cs d d', insertAll hash ss (initialise hash p) = .ok cs d ∧
        d.reopen hash = .ok d' ∧ (∀ s, d'.lookupString hash s = d.lookupString hash s) ∧
        ∀ c, d'.lookupCode c = d.lookupCode c := by
  refine ⟨fun _ _ ss h1 h2 hfind => ?_, fun p ss hopen hfind => ?_⟩
  · obtain ⟨cs, d, es, hall, hd, hes⟩ := (keeps_stringPool h1 h2).insertFound (by simp) hfind
    obtain ⟨d', hre⟩ := hd.reopen hes
    exact ⟨cs, d, d', hall, hre⟩
  · obtain ⟨cs, d, es, hall, hd, hes⟩ := (keeps_pagedStringPool hopen).insertFound (by simp) hfind
    obtain ⟨d', hre⟩ := hd.reopen hes
    exact ⟨cs, d, d', hall, hre⟩

theorem dict_survives_reopen_three_inserts :
    (∃ cs d d', insertAll polyHash [[97], [], [97]]
        (initialise polyHash (StringPool.new 100000 10000)) = .ok cs d ∧
      d.reopen polyHash = .ok d' ∧
      (∀ s, d'.lookupString polyHash s = d.lookupString polyHash s) ∧
      ∀ c, d'.lookupCode c = d.lookupCode c) ∧
    ∃ p, PagedStringPool.ofFile PagedStringPool.newFile = .ok p ∧
      ∃ cs d d', insertAll polyHash [[97], [98, 99], [97]] (initialise polyHash p) = .ok cs d ∧
        d.reopen polyHash = .ok d' ∧
        (∀ s, d'.lookupString polyHash s = d.lookupString polyHash s) ∧
        ∀ c, d'.lookupCode c = d.lookupCode c := by
  refine ⟨(dict_survives_reopen polyHash).1 100000 10000 _ (by decide) (by decide)
    (by decide +kernel), _, rfl, (dict_survives_reopen polyHash).2 _ _ rfl ?_⟩
  rw [initialise_paged rfl]
  decide +kernel

/-- The empty string is not found again. -/
theorem empty_string_lost :
    ¬∃ hash : List UInt8 → UInt64, ∀ p, PagedStringPool.ofFile PagedStringPool.newFile = .ok p →
      ∀ cs d d', insertAll hash [[]] (initialise hash p) = .ok cs d → d.reopen hash = .ok d' →
        d'.lookupString hash [] = d.lookupString hash [] := by
  rintro ⟨hash, hall⟩
  obtain ⟨p, hopen, hroom⟩ : ∃ p, PagedStringPool.ofFile PagedStringPool.newFile = .ok p ∧
    p.Room [] := ⟨_, rfl, by decide +kernel⟩
  have hkeeps : (initialise hash p).Keeps hash [] := keeps_pagedStringPool hopen
  rcases hkeeps.insert fun _ => ⟨List.not_mem_nil, hroom⟩ with ⟨c, htab, -⟩ | ⟨c, d, -, hins, hd⟩
  · rw [initialise_paged hopen] at htab
    cases htab
  · obtain ⟨pss, hp, heq⟩ := hd.holds
    have hscan : d.pool.scan = [] := by
      refine hp.scan_empty fun ss hss s hs => ?_
      obtain ⟨e, he⟩ := PagedStringPool.mem_pagePlaces_of_mem hss hs 0
      rw [← heq, List.nil_append, List.mem_singleton, Prod.mk.injEq] at he
      exact he.1
    have hone : insertAll hash [[]] (initialise hash p) = .ok [c] d := by
      simp only [insertAll, bind, EStateM.bind, hins]
      rfl
    have hre : d.reopen hash = .ok (initialise hash d.pool) := by
      rw [reopen, show StringStore.reopen d.pool = .ok d.pool from hp.ofFile]
      rfl
    have hlost : lookupString hash (initialise hash d.pool) [] = 0 := by
      rw [initialise, show StringStore.scan d.pool = [] from hscan]
      rfl
    have hsame := hall p hopen [c] d _ hone hre
    rw [hlost, hd.lookupString (List.mem_singleton_self _)] at hsame
    have hpos : 0 < c := (LawfulStore.codes hd.holds (List.mem_singleton_self _)).1
    exact absurd hsame (Nat.ne_of_lt hpos)

end Poseidon
