import Poseidon.Lib.Along
import Poseidon.Lib.Wp
import Poseidon.Proofs.Chunks
import Poseidon.Vec.MemChunkedVec

/-!
# When the record vector in memory is a map

Seen through `at`, the vector is a map from indices to records. Appending,
storing at an index, erasing and resizing change this map as they should, in
every state that any calls can lead to. `store` trusts the front of the free
list to be the offset of the first slot of a chunk that is not full. `erase`
puts the index of a record there, and `store_at` and `append` do not find
such an entry again when they fill the chunk.

The invariant is what is left to rely on after such calls: a chunk that is
not full has an entry in the free list, and every entry lies in a chunk.
-/

namespace Poseidon

open Wp

variable {α : Type}

namespace MemVec

/-- What the vector holds at an index. -/
def view (n : Nat) (v : MemVec α) (idx : Nat) : Option α :=
  match v.at_ n idx with
  | .ok o => some o
  | .error _ => none

/-- The chunks by number. -/
def tab (v : MemVec α) (k : Nat) : Option (Chunk α) := v.chunks[k]?

/-- Free space can be found. -/
structure Ok (n : Nat) (v : MemVec α) : Prop where
  chunk : ∀ {k c}, v.tab k = some c → c.Ok n
  entry : ∀ e ∈ v.freeList, e / n < v.chunks.length
  listed : ∀ {k c}, v.tab k = some c → c.isFull n = false → ∃ e ∈ v.freeList, e / n = k
  start : v.chunks = [] → v.available = 0

variable {n : Nat} {v v' : MemVec α} {k : Nat} {c ch : Chunk α} {o : α}

theorem view_eq (j : Nat) : v.view n j = chunkView n v.tab j := by
  rw [view, at_, chunkView]
  show _ = (v.chunks[j / n]?).bind _
  cases v.chunks[j / n]? with
  | none => rfl
  | some ch =>
      simp only [Option.bind_some]
      cases ch.slots (j % n) with
      | true => rfl
      | false => rfl

theorem tab_isSome_iff : (v.tab k).isSome = true ↔ k < v.chunks.length := by
  rw [tab]
  simp

/-- The table after a chunk has been replaced. -/
theorem tab_set (hc : v.tab k = some ch) (w : MemVec α) (hw : w.chunks = v.chunks.set k c) :
    w.tab = fun i => if i = k then some c else v.tab i := by
  have hlt : k < v.chunks.length := tab_isSome_iff.mp (by rw [hc]; rfl)
  funext i
  rw [tab, hw, List.getElem?_set]
  by_cases hi : i = k
  · rw [if_pos hi.symm, if_pos hi, if_pos hlt]
  · rw [if_neg fun h => hi h.symm, if_neg hi, tab]

/-- Replacing a chunk keeps the invariant when its entries go only after it is
full. -/
theorem Ok.replace (h : v.Ok n) (hc : v.tab k = some ch) (hok : c.Ok n)
    (hw : v'.chunks = v.chunks.set k c) (hentry : ∀ e ∈ v'.freeList, e ∈ v.freeList ∨ e / n = k)
    (hkeep : ∀ e ∈ v.freeList, e / n ≠ k ∨ c.isFull n = false → e ∈ v'.freeList)
    (hlisted : c.isFull n = false → ∃ e ∈ v'.freeList, e / n = k) : v'.Ok n := by
  have htab := tab_set hc v' hw
  have hlt : k < v.chunks.length := tab_isSome_iff.mp (by rw [hc]; rfl)
  have hlen : v'.chunks.length = v.chunks.length := by
    rw [hw, List.length_set]
  refine ⟨?_, ?_, ?_, ?_⟩
  · intro i d hd
    rw [htab] at hd
    simp only at hd
    split at hd
    · cases hd
      exact hok
    · exact h.chunk hd
  · intro e he
    rw [hlen]
    rcases hentry e he with hin | hk
    · exact h.entry e hin
    · omega
  · intro i d hd hfull
    rw [htab] at hd
    simp only at hd
    split at hd
    · next hik =>
        cases hd
        rw [hik]
        exact hlisted hfull
    · next hik =>
        obtain ⟨e, he, hei⟩ := h.listed hd hfull
        exact ⟨e, hkeep e he (.inl (by omega)), hei⟩
  · intro hnil
    rw [hnil, List.length_nil] at hlen
    omega

theorem mem_removeFromFreeList {fl : List Nat} {idx e : Nat} :
    e ∈ removeFromFreeList fl idx ↔ e ∈ fl ∧ e ≠ idx := by
  rw [removeFromFreeList, List.mem_filter]
  simp

/-! ## Storing -/

/-- The vector after a record has been put in the first free slot of a
chunk. -/
def stored (n k offs : Nat) (ch : Chunk α) (o : α) (v : MemVec α) : MemVec α :=
  { v with
    available := decr64 v.available
    chunks := v.chunks.set k ((ch.put ch.first o).set n ch.first true)
    freeList :=
      if ((ch.put ch.first o).set n ch.first true).isFull n then
        removeFromFreeList v.freeList offs
      else v.freeList }

theorem storeIn_wp {offs : Nat} {Q : Nat → MemVec α → Prop} {E : VecErr → MemVec α → Prop}
    (hch : ch.Ok n)
    (hfull : ch.isFull n = true → E .outOfRange { v with available := decr64 v.available })
    (hok : ch.isFull n = false → Q (offs + ch.first) (stored n k offs ch o v)) :
    wp (storeIn n k offs ch o) Q E v := by
  simp only [storeIn, wp_bind, wp_modify, hch.firstAvailable]
  cases hf : ch.isFull n with
  | true => exact hfull hf
  | false => exact hok hf

theorem Ok.available (h : v.Ok n) (hne : v.chunks ≠ []) (a : Nat) :
    ({ v with available := a } : MemVec α).Ok n :=
  ⟨h.chunk, h.entry, h.listed, fun hnil => absurd hnil hne⟩

theorem Ok.stored (h : v.Ok n) (hc : v.tab k = some ch) (hfull : ch.isFull n = false) {offs : Nat}
    (hoffs : offs / n = k) (o : α) : (MemVec.stored n k offs ch o v).Ok n := by
  have hch := h.chunk hc
  obtain ⟨hlt, -⟩ := hch.first_lt hfull
  refine h.replace hc ((hch.put _ o).set hlt true) rfl ?_ ?_ ?_
  · intro e he
    refine .inl ?_
    simp only [MemVec.stored] at he
    split at he
    · exact (mem_removeFromFreeList.mp he).1
    · exact he
  · intro e he hor
    simp only [MemVec.stored]
    split
    · next hf =>
        refine mem_removeFromFreeList.mpr ⟨he, ?_⟩
        rintro rfl
        rcases hor with hne | hnf
        · exact hne hoffs
        · rw [hf] at hnf
          cases hnf
    · exact he
  · intro hnf
    obtain ⟨e, he, hek⟩ := h.listed hc hfull
    refine ⟨e, ?_, hek⟩
    simp only [MemVec.stored]
    rw [if_neg (by simp [hnf])]
    exact he

theorem view_stored (hc : v.tab k = some ch) (hlt : ch.first < n) (offs : Nat) (o : α) (j : Nat) :
    (stored n k offs ch o v).view n j =
      if j = k * n + ch.first then some o else v.view n j := by
  rw [view_eq, view_eq, tab_set hc (stored n k offs ch o v) rfl, chunkView_put hc hlt]

/-- The first free slot of a chunk is not used. -/
theorem view_first (hc : v.tab k = some ch) (hch : ch.Ok n) (hfull : ch.isFull n = false) :
    v.view n (k * n + ch.first) = none := by
  obtain ⟨hlt, hfree⟩ := hch.first_lt hfull
  rw [view_eq, chunkView_slot hc hlt, hfree]
  rfl

/-! ## Indices and chunks -/

theorem chunk_of_lt {idx : Nat} (hlt : idx < v.chunks.length * n) :
    ∃ ch, v.tab (idx / n) = some ch :=
  Option.isSome_iff_exists.mp (tab_isSome_iff.mpr (Nat.div_lt_of_lt_mul (by rwa [Nat.mul_comm])))

theorem no_chunk_of_ge (hn : 0 < n) {idx : Nat} (hge : ¬idx < v.chunks.length * n) :
    v.chunks[idx / n]? = none := by
  refine List.getElem?_eq_none ?_
  by_contra hlt
  exact hge ((Nat.div_lt_iff_lt_mul hn).mp (by omega))

theorem div_mod_index (idx : Nat) : idx / n * n + idx % n = idx := by
  rw [Nat.mul_comm]
  exact Nat.div_add_mod idx n

/-! ## Resizing -/

variable [Inhabited α]

theorem tab_addChunk (v : MemVec α) :
    (v.addChunk n).tab = fun i => if i = v.chunks.length then some Chunk.empty else v.tab i := by
  funext i
  show (v.chunks ++ [Chunk.empty])[i]? = _
  split
  · next hi => rw [hi, List.getElem?_concat_length]
  · next hi =>
      rw [tab]
      by_cases hlt : i < v.chunks.length
      · rw [List.getElem?_append_left hlt]
      · rw [List.getElem?_eq_none (by simp; omega), List.getElem?_eq_none (by omega)]

/-- One more chunk does not show and is free. -/
theorem Ok.addChunk (hn : 0 < n) (h : v.Ok n) : (v.addChunk n).Ok n := by
  have htab := tab_addChunk (n := n) v
  have hlen : (v.addChunk n).chunks.length = v.chunks.length + 1 := by
    simp [MemVec.addChunk]
  have hdiv : v.chunks.length * n / n = v.chunks.length := Nat.mul_div_cancel _ hn
  refine ⟨?_, ?_, ?_, ?_⟩
  · intro i d hd
    rw [htab] at hd
    simp only at hd
    split at hd
    · cases hd
      exact Chunk.ok_empty
    · exact h.chunk hd
  · intro e he
    rw [hlen]
    rcases List.mem_append.mp he with he | he
    · have := h.entry e he
      omega
    · rw [List.mem_singleton.mp he, hdiv]
      omega
  · intro i d hd hfull
    rw [htab] at hd
    simp only at hd
    split at hd
    · next hi => exact ⟨_, List.mem_append_right _ (List.mem_singleton.mpr rfl), by rw [hdiv, hi]⟩
    · obtain ⟨e, he, hei⟩ := h.listed hd hfull
      exact ⟨e, List.mem_append_left _ he, hei⟩
  · intro hnil
    rw [hnil] at hlen
    simp at hlen

theorem view_addChunk (v : MemVec α) (j : Nat) : (v.addChunk n).view n j = v.view n j := by
  rw [view_eq, view_eq, tab_addChunk, chunkView_grow]
  exact List.getElem?_eq_none (Nat.le_refl _)

theorem addChunks_spec (hn : 0 < n) (m : Nat) (h : v.Ok n) :
    (addChunks n m v).Ok n ∧ ∀ j, (addChunks n m v).view n j = v.view n j := by
  induction m generalizing v with
  | zero => exact ⟨h, fun _ => rfl⟩
  | succ m ih =>
      obtain ⟨hok, hview⟩ := ih (h.addChunk hn)
      refine ⟨hok, fun j => ?_⟩
      rw [addChunks, hview, view_addChunk]

/-- An empty vector is resized as if it had no counter to add to. -/
theorem resize_nil (hnil : v.chunks = []) (m : Int) :
    v.resize n m = addChunks n (m - 1).toNat
      { v.addChunk n with capacity := n, available := n } := by
  rw [resize, if_pos hnil, MemVec.addChunk, hnil]
  simp

theorem resize_spec (hn : 0 < n) (m : Int) (h : v.Ok n) :
    (v.resize n m).Ok n ∧ ∀ j, (v.resize n m).view n j = v.view n j := by
  by_cases hnil : v.chunks = []
  · have h1 := h.addChunk hn
    have h2 : ({ v.addChunk n with capacity := n, available := n } : MemVec α).Ok n :=
      ⟨h1.chunk, h1.entry, h1.listed, fun h => absurd h (by simp [MemVec.addChunk])⟩
    obtain ⟨hok, hview⟩ := addChunks_spec hn (m - 1).toNat h2
    rw [resize_nil hnil]
    exact ⟨hok, fun j => (hview j).trans (view_addChunk v j)⟩
  · rw [resize, if_neg hnil]
    exact addChunks_spec hn m.toNat h

/-- Resizing by one chunk adds one. -/
theorem resize_one (v : MemVec α) : (v.resize n 1).chunks = v.chunks ++ [Chunk.empty] ∧
    (v.resize n 1).freeList = v.freeList ++ [v.chunks.length * n] := by
  by_cases hnil : v.chunks = []
  · rw [resize_nil hnil]
    exact ⟨rfl, rfl⟩
  · rw [resize, if_neg hnil]
    exact ⟨rfl, rfl⟩

theorem empty_not_full (hn : 0 < n) : (Chunk.empty : Chunk α).isFull n = false := by
  rw [Bool.eq_false_iff]
  intro hfull
  have := Chunk.isFull_iff.mp hfull 0 hn
  cases this

/-! ## The calls -/

/-- What a call should do to the map. -/
def Fulfils (n : Nat) (v : MemVec α) : VecOp α → Prop
  | .append o => ∃ i v', append n o v = .ok i v' ∧ v.view n i = none ∧
      ∀ j, v'.view n j = if j = i then some o else v.view n j
  | .store o => ∃ i v', store n o v = .ok i v' ∧ v.view n i = none ∧
      (∀ j, v'.view n j = if j = i then some o else v.view n j) ∧
      ((∃ j, j < v.chunks.length * n ∧ v.view n j = none) →
        v'.chunks.length = v.chunks.length)
  | .storeAt idx o =>
      if idx < v.chunks.length * n then
        ∃ v', storeAt n idx o v = .ok ⟨⟩ v' ∧
          ∀ j, v'.view n j = if j = idx then some o else v.view n j
      else ∃ e, storeAt n idx o v = .error e v
  | .erase idx =>
      if idx < v.chunks.length * n then
        ∃ v', erase n idx v = .ok ⟨⟩ v' ∧
          ∀ j, v'.view n j = if j = idx then none else v.view n j
      else ∃ e, erase n idx v = .error e v
  | .resize m => ∀ j, (v.resize n m).view n j = v.view n j

/-- The front of the free list is the offset of a chunk with a free slot. -/
def StoreReady (n : Nat) (v : MemVec α) : Prop :=
  ∀ idx rest, v.freeList = idx :: rest →
    idx % n = 0 ∧ ∀ ch, v.chunks[idx / n]? = some ch → ch.isFull n = false

def Ready (n : Nat) (v : MemVec α) : VecOp α → Prop
  | .store _ => v.StoreReady n
  | _ => True

section

variable (hn : 0 < n)
include hn

/-- `store_at` stores at its index. -/
theorem storeAt_spec (h : v.Ok n) (idx : Nat) (o : α) :
    v.Fulfils n (.storeAt idx o) ∧ always (storeAt n idx o) (Ok n) v := by
  by_cases hlt : idx < v.chunks.length * n
  · obtain ⟨ch, hc⟩ := chunk_of_lt hlt
    have hpos := Nat.mod_lt idx hn
    have hch := h.chunk hc
    have hspec : wp (storeAt n idx o) (fun _ v' => v'.Ok n ∧
        ∀ j, v'.view n j = if j = idx then some o else v.view n j) (fun _ _ => False) v := by
      simp only [storeAt, wp_bind, wp_get, show v.chunks[idx / n]? = some ch from hc, wp_set]
      refine ⟨h.replace hc ((hch.put _ o).set hpos true) rfl ?_ ?_ ?_, fun j => ?_⟩
      · intro e he
        refine .inl ?_
        simp only at he
        split at he
        · exact (mem_removeFromFreeList.mp he).1
        · exact he
      · intro e he hor
        simp only
        split
        · next hf =>
            refine mem_removeFromFreeList.mpr ⟨he, ?_⟩
            rintro rfl
            rcases hor with hne | hnf
            · exact hne rfl
            · rw [hf] at hnf
              cases hnf
        · exact he
      · intro hnf
        -- a chunk with a free slot after the store had one before
        have hbefore : ch.isFull n = false := by
          rw [Bool.eq_false_iff] at hnf ⊢
          intro hfull
          refine hnf (Chunk.isFull_iff.mpr fun j hj => ?_)
          simp only [Chunk.set, Chunk.put]
          split
          · rfl
          · exact Chunk.isFull_iff.mp hfull j hj
        obtain ⟨e, he, hek⟩ := h.listed hc hbefore
        refine ⟨e, ?_, hek⟩
        simp only
        rw [if_neg (by simp [hnf])]
        exact he
      · rw [view_eq, tab_set hc _ rfl, chunkView_put hc hpos, div_mod_index, view_eq]
    refine ⟨?_, wp_mono hspec (fun _ _ hs => hs.1) fun _ _ hf => hf.elim⟩
    rw [Fulfils, if_pos hlt]
    obtain ⟨_, v', hres, -, hview⟩ := wp_exists hspec
    exact ⟨v', hres, hview⟩
  · have hnone := no_chunk_of_ge hn hlt
    have hres : storeAt n idx o v = .error .indexOutOfRange v := by
      simp only [storeAt, bind, EStateM.bind, get_apply, hnone]
      rfl
    refine ⟨?_, ?_⟩
    · rw [Fulfils, if_neg hlt]
      exact ⟨_, hres⟩
    · simp only [always, wp, hres]
      exact h

/-- `erase` frees its index. -/
theorem erase_spec (h : v.Ok n) (idx : Nat) :
    v.Fulfils n (.erase idx) ∧ always (erase n idx) (Ok n) v := by
  by_cases hlt : idx < v.chunks.length * n
  · obtain ⟨ch, hc⟩ := chunk_of_lt hlt
    have hpos := Nat.mod_lt idx hn
    have hch := h.chunk hc
    have hspec : wp (erase n idx) (fun _ v' => v'.Ok n ∧
        ∀ j, v'.view n j = if j = idx then none else v.view n j) (fun _ _ => False) v := by
      simp only [erase, wp_bind, wp_get, show v.chunks[idx / n]? = some ch from hc, wp_set]
      have hkeep : ∀ e ∈ v.freeList,
          e ∈ if ch.isFull n = true then v.freeList ++ [idx] else v.freeList := by
        intro e he
        split
        · exact List.mem_append_left _ he
        · exact he
      refine ⟨h.replace hc (hch.set hpos false) rfl ?_ ?_ ?_, fun j => ?_⟩
      · intro e he
        simp only at he
        split at he
        · rcases List.mem_append.mp he with he | he
          · exact .inl he
          · exact .inr (by rw [List.mem_singleton.mp he])
        · exact .inl he
      · intro e he _
        exact hkeep e he
      · intro _
        cases hfull : ch.isFull n with
        | true => exact ⟨idx, by simp, rfl⟩
        | false =>
            obtain ⟨e, he, hek⟩ := h.listed hc hfull
            exact ⟨e, by simpa using he, hek⟩
      · rw [view_eq, tab_set hc _ rfl, chunkView_erase hc hpos, div_mod_index, view_eq]
    refine ⟨?_, wp_mono hspec (fun _ _ hs => hs.1) fun _ _ hf => hf.elim⟩
    rw [Fulfils, if_pos hlt]
    obtain ⟨_, v', hres, -, hview⟩ := wp_exists hspec
    exact ⟨v', hres, hview⟩
  · have hnone := no_chunk_of_ge hn hlt
    have hres : erase n idx v = .error .indexOutOfRange v := by
      simp only [erase, bind, EStateM.bind, get_apply, hnone]
      rfl
    refine ⟨?_, ?_⟩
    · rw [Fulfils, if_neg hlt]
      exact ⟨_, hres⟩
    · simp only [always, wp, hres]
      exact h

/-- A vector whose last chunk is full gets a new one. -/
theorem last_after_resize (h : v.Ok n) :
    (v.resize n 1).Ok n ∧ (∀ j, (v.resize n 1).view n j = v.view n j) ∧
      (v.resize n 1).chunks.getLast? = some Chunk.empty := by
  obtain ⟨hok, hview⟩ := resize_spec hn 1 h
  refine ⟨hok, hview, ?_⟩
  rw [(resize_one v).1, List.getLast?_append]
  rfl

/-- `append` stores in a last chunk that has room. -/
theorem append_eq (h : v.Ok n) (o : α) :
    ∃ w ch, (w = v ∨ w = v.resize n 1 ∧
        (v.available = 0 ∨ ∀ c ∈ v.chunks.getLast?, c.isFull n = true)) ∧
      w.chunks.getLast? = some ch ∧ ch.isFull n = false ∧
      append n o v = storeIn n (w.chunks.length - 1) ((w.chunks.length - 1) * n) ch o w := by
  have hlast' := (last_after_resize hn h).2.2
  by_cases hav : v.available = 0
  · have hnot : ¬(Chunk.empty : Chunk α).isFull n = true := by
      rw [empty_not_full hn]
      simp
    refine ⟨_, _, .inr ⟨rfl, .inl hav⟩, hlast', empty_not_full hn, ?_⟩
    simp only [append, bind, EStateM.bind, modify_apply, get_apply, if_pos hav, hlast', if_neg hnot]
  · have hne : v.chunks ≠ [] := fun hnil => hav (h.start hnil)
    have hlast := List.getLast?_eq_getLast_of_ne_nil hne
    by_cases hfull : (v.chunks.getLast hne).isFull n = true
    · refine ⟨_, _, .inr ⟨rfl, .inr fun c hc => ?_⟩, hlast', empty_not_full hn, ?_⟩
      · rw [hlast] at hc
        cases hc
        exact hfull
      · simp only [append, bind, EStateM.bind, modify_apply, get_apply, if_neg hav, hlast,
          if_pos hfull, hlast']
    · refine ⟨v, _, .inl rfl, hlast, Bool.eq_false_iff.mpr hfull, ?_⟩
      simp only [append, bind, EStateM.bind, modify_apply, get_apply, if_neg hav, hlast,
        if_neg hfull]

/-- `append` stores at an index that was free. -/
theorem append_wp (h : v.Ok n) (o : α) :
    wp (append n o) (fun i v' => v'.Ok n ∧ v.view n i = none ∧
      ∀ j, v'.view n j = if j = i then some o else v.view n j) (fun _ _ => False) v := by
  obtain ⟨w, ch, hw, hlast, hfull, hres⟩ := append_eq hn h o
  have hsame : w.Ok n ∧ ∀ j, w.view n j = v.view n j := by
    rcases hw with rfl | ⟨rfl, -⟩
    · exact ⟨h, fun _ => rfl⟩
    · exact resize_spec hn 1 h
  obtain ⟨hok, hview⟩ := hsame
  have hc : w.tab (w.chunks.length - 1) = some ch := by
    rw [tab, ← List.getLast?_eq_getElem?]
    exact hlast
  have hch := hok.chunk hc
  rw [wp_congr hres]
  refine storeIn_wp hch (fun hf => ?_) fun _ => ?_
  · rw [hfull] at hf
    cases hf
  · refine ⟨hok.stored hc hfull (Nat.mul_div_cancel _ hn) o, ?_, fun j => ?_⟩
    · rw [← hview]
      exact view_first hc hch hfull
    · rw [view_stored hc (hch.first_lt hfull).1, hview]

omit hn in
/-- The chunk that `store` uses when the free list is not empty. -/
theorem store_cons {idx : Nat} {rest : List Nat} (h : v.Ok n) (hfl : v.freeList = idx :: rest) :
    ∃ ch, v.tab (idx / n) = some ch ∧ store n o v = storeIn n (idx / n) idx ch o v := by
  have hlt := h.entry idx (by rw [hfl]; exact List.mem_cons_self)
  obtain ⟨ch, hc⟩ := Option.isSome_iff_exists.mp (tab_isSome_iff.mpr hlt)
  refine ⟨ch, hc, ?_⟩
  have hkeep : (if v.freeList = [] then v.resize n 1 else v) = v :=
    if_neg (by rw [hfl]; exact List.cons_ne_nil idx rest)
  simp only [store, bind, EStateM.bind, modify_apply, get_apply, hkeep]
  simp only [hfl, show v.chunks[idx / n]? = some ch from hc]

/-- With an empty free list every chunk is full, and `store` makes a new
one. -/
theorem store_nil (h : v.Ok n) (hfl : v.freeList = []) :
    store n o v = storeIn n v.chunks.length (v.chunks.length * n) Chunk.empty o (v.resize n 1) ∧
      (v.resize n 1).tab v.chunks.length = some Chunk.empty ∧
      ∀ j, j < v.chunks.length * n → v.view n j ≠ none := by
  obtain ⟨hchunks, hfree⟩ := resize_one (n := n) v
  rw [hfl, List.nil_append] at hfree
  have htab : (v.resize n 1).tab v.chunks.length = some Chunk.empty := by
    rw [tab, hchunks, List.getElem?_concat_length]
  have hdiv : v.chunks.length * n / n = v.chunks.length := Nat.mul_div_cancel _ hn
  refine ⟨?_, htab, ?_⟩
  · simp only [store, bind, EStateM.bind, modify_apply, get_apply, if_pos hfl, hfree, hdiv,
      show (v.resize n 1).chunks[v.chunks.length]? = some Chunk.empty from htab]
  · intro j hj hnone
    obtain ⟨ch, hc⟩ := chunk_of_lt hj
    cases hfull : ch.isFull n with
    | false =>
        obtain ⟨e, he, -⟩ := h.listed hc hfull
        rw [hfl] at he
        cases he
    | true =>
        rw [view_eq, ← div_mod_index j, chunkView_slot hc (Nat.mod_lt j hn),
          Chunk.isFull_iff.mp hfull _ (Nat.mod_lt j hn)] at hnone
        cases hnone

/-- `store` keeps the invariant, whatever the free list starts with. -/
theorem store_keeps (h : v.Ok n) (o : α) : always (store n o) (Ok n) v := by
  cases hfl : v.freeList with
  | cons idx rest =>
      obtain ⟨ch, hc, hres⟩ := store_cons h hfl
      have hne : v.chunks ≠ [] := by
        intro hnil
        have := h.entry idx (by rw [hfl]; exact List.mem_cons_self)
        rw [hnil] at this
        simp at this
      rw [always, wp_congr hres]
      refine storeIn_wp (h.chunk hc) (fun _ => h.available hne _) fun hfull => ?_
      exact h.stored hc hfull rfl o
  | nil =>
      obtain ⟨hres, htab, -⟩ := store_nil hn h hfl
      obtain ⟨hok, -⟩ := resize_spec hn 1 h
      rw [always, wp_congr hres]
      refine storeIn_wp Chunk.ok_empty (fun hfull => ?_) fun hfull => ?_
      · rw [empty_not_full hn] at hfull
        cases hfull
      · exact hok.stored htab hfull (Nat.mul_div_cancel _ hn) o

/-- `store` does its work exactly when the front of the free list is the
offset of a chunk with a free slot. -/
theorem store_fulfils_iff (h : v.Ok n) (o : α) : v.Fulfils n (.store o) ↔ v.StoreReady n := by
  cases hfl : v.freeList with
  | nil =>
      obtain ⟨hres, htab, hused⟩ := store_nil (o := o) hn h hfl
      obtain ⟨hok, hview⟩ := resize_spec hn 1 h
      have hspec : wp (storeIn n v.chunks.length (v.chunks.length * n) Chunk.empty o)
          (fun i v' => v.view n i = none ∧
            (∀ j, v'.view n j = if j = i then some o else v.view n j))
          (fun _ _ => False) (v.resize n 1) := by
        refine storeIn_wp Chunk.ok_empty (fun hfull => ?_) fun hfull => ⟨?_, fun j => ?_⟩
        · rw [empty_not_full hn] at hfull
          cases hfull
        · rw [← hview]
          exact view_first htab Chunk.ok_empty hfull
        · rw [view_stored htab (Chunk.ok_empty.first_lt hfull).1, hview]
      obtain ⟨i, v', hv', hnone, hview'⟩ := wp_exists hspec
      refine iff_of_true ⟨i, v', hres.trans hv', hnone, hview', ?_⟩ ?_
      · rintro ⟨j, hj, hj'⟩
        exact absurd hj' (hused j hj)
      · intro idx rest hcons
        rw [hfl] at hcons
        cases hcons
  | cons idx rest =>
      obtain ⟨ch, hc, hres⟩ := store_cons (o := o) h hfl
      have hch := h.chunk hc
      have hready : v.StoreReady n ↔ idx % n = 0 ∧ ch.isFull n = false := by
        constructor
        · intro hr
          obtain ⟨h1, h2⟩ := hr idx rest hfl
          exact ⟨h1, h2 ch hc⟩
        · rintro ⟨h1, h2⟩ idx' rest' hfl'
          rw [hfl] at hfl'
          cases hfl'
          refine ⟨h1, fun ch' hc' => ?_⟩
          have heq : ch = ch' := Option.some.inj (hc.symm.trans hc')
          rw [← heq]
          exact h2
      rw [hready]
      cases hfull : ch.isFull n with
      | true =>
          have hspec : wp (storeIn n (idx / n) idx ch o) (fun _ _ => False) (fun _ _ => True) v :=
            storeIn_wp hch (fun _ => trivial) fun hf => by rw [hfull] at hf; cases hf
          refine iff_of_false ?_ (by simp)
          rintro ⟨i, v', hv', -⟩
          exact wp_ok hspec (hres.symm.trans hv')
      | false =>
          have hlt := (hch.first_lt hfull).1
          have hspec : wp (storeIn n (idx / n) idx ch o)
              (fun i v' => i = idx + ch.first ∧ v' = stored n (idx / n) idx ch o v)
              (fun _ _ => False) v := by
            refine storeIn_wp hch (fun hf => ?_) fun _ => ⟨rfl, rfl⟩
            rw [hfull] at hf
            cases hf
          obtain ⟨i, v', hv', rfl, rfl⟩ := wp_exists hspec
          have hidx := div_mod_index (n := n) idx
          constructor
          · rintro ⟨i', w, hw, hnone, hview, -⟩
            rw [hres, hv'] at hw
            cases hw
            -- the record is at the slot's index, so that is the one returned
            have hat := hview (idx + ch.first)
            rw [if_pos rfl, view_stored hc hlt] at hat
            split at hat
            · exact ⟨by omega, rfl⟩
            · rw [hnone] at hat
              cases hat
          · rintro ⟨hmod, -⟩
            have heq : idx + ch.first = idx / n * n + ch.first := by omega
            refine ⟨_, _, hres.trans hv', ?_, fun j => ?_, fun _ => ?_⟩
            · rw [heq]
              exact view_first hc hch hfull
            · rw [view_stored hc hlt, heq]
            · simp [stored]

/-! ## Runs -/

omit hn in
theorem next_of_always {op : VecOp α} {P : MemVec α → Prop} (h : always (call n op) P v) :
    P (v.next n op) := by
  rw [next]
  cases hr : call n op v with
  | ok r v' =>
      have hp := wp_ok h hr
      exact hp
  | error e v' =>
      have hp := wp_error h hr
      exact hp

theorem next_ok (h : v.Ok n) (op : VecOp α) : (v.next n op).Ok n := by
  have hcall : always (call n op) (Ok n) v := by
    cases op with
    | append o =>
        rw [call, always, wp_map]
        exact wp_mono (append_wp hn h o) (fun _ _ hs => hs.1) fun _ _ hf => hf.elim
    | store o =>
        rw [call, always, wp_map]
        exact store_keeps hn h o
    | storeAt idx o =>
        rw [call, always, wp_map]
        exact (storeAt_spec hn h idx o).2
    | erase idx =>
        rw [call, always, wp_map]
        exact (erase_spec hn h idx).2
    | resize m => exact (resize_spec hn m h).1
  exact next_of_always hcall

theorem fulfils_iff (h : v.Ok n) (op : VecOp α) : v.Fulfils n op ↔ v.Ready n op := by
  cases op with
  | append o =>
      refine iff_of_true ?_ trivial
      obtain ⟨i, v', hres, -, hnone, hview⟩ := wp_exists (append_wp hn h o)
      exact ⟨i, v', hres, hnone, hview⟩
  | store o => exact store_fulfils_iff hn h o
  | storeAt idx o => exact iff_of_true (storeAt_spec hn h idx o).1 trivial
  | erase idx => exact iff_of_true (erase_spec hn h idx).1 trivial
  | resize m => exact iff_of_true (resize_spec hn m h).2 trivial

end

omit [Inhabited α] in
theorem ok_new : (empty : MemVec α).Ok n where
  chunk := by
    intro k c hc
    cases hc
  entry := by
    intro e he
    cases he
  listed := by
    intro k c hc
    cases hc
  start := fun _ => rfl

end MemVec

/-- In every run, all calls treat the vector as a map exactly when every
`store` finds the offset of a chunk with a free slot at the front of the free
list. -/
theorem mem_vec_is_map_iff {α : Type} [Inhabited α] (n : Nat) (hn : 0 < n) (ops : List (VecOp α)) :
    Along (MemVec.next n) (MemVec.Fulfils n) MemVec.empty ops ↔
      Along (MemVec.next n) (MemVec.Ready n) MemVec.empty ops :=
  along_congr (MemVec.next n) (fun _ op h => MemVec.next_ok hn h op)
    (fun _ op h => MemVec.fulfils_iff hn h op) ops MemVec.empty MemVec.ok_new

/-- A slot that is freed before its chunk is full is found again. -/
theorem mem_vec_reuses_slot :
    Along (MemVec.next 2) (MemVec.Fulfils 2) MemVec.empty
      [.store 1, .erase 0, .store 2, .append (3 : Nat)] := by
  refine (mem_vec_is_map_iff 2 (by decide) _).mpr ⟨?_, trivial, ?_, trivial, trivial⟩
  · intro idx rest hfl
    cases hfl
  · intro idx rest hfl
    cases hfl
    refine ⟨rfl, fun ch hch => ?_⟩
    cases hch
    rfl

/-- A slot that is freed in a full chunk: `erase` adds its index to the free
list, and `store` returns the sum of this index and the slot. -/
theorem freed_slot_misplaces_record :
    ¬Along (MemVec.next 2) (MemVec.Fulfils 2) MemVec.empty
      [.append 1, .append 2, .erase 1, .store (3 : Nat)] := by
  rintro ⟨-, -, -, hstore, -⟩
  obtain ⟨i, v', hres, -, hview, -⟩ := hstore
  cases hres
  have hat := hview 1
  cases hat

end Poseidon
