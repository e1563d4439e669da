import Poseidon.Lib.Along
import Poseidon.Proofs.BufVec
import Poseidon.Proofs.MemVec
import Mathlib.Algebra.GroupWithZero.Nat
import Mathlib.Data.List.Nodup

/-!
# Free-space accounting

Both vectors count their unused slots and list their chunks that have one.
The counter and the list are right as long as each step changes both for the
chunk it works on. The vector in memory goes wrong when a chunk becomes full
that is listed under another index than the one that is removed, and the
vector over a file when a slot changes that `store_at` or `erase` tests only
afterwards, or when `store` fills a chunk that is not the last one.

The counters have 64 bits. A vector in memory must not have more slots than
that; a file has at most `maxPages` pages, and the number of records in a
chunk is an `int`.
-/

namespace Poseidon

open Wp

variable {α : Type}

namespace Chunk

variable {n pos : Nat} {c : Chunk α}

/-- The number of unused slots. -/
def free (n : Nat) (c : Chunk α) : Nat := (List.range n).countP fun j => !c.slots j

theorem free_le (n : Nat) (c : Chunk α) : c.free n ≤ n := by
  have := List.countP_le_length (l := List.range n) (p := fun j => !c.slots j)
  rwa [List.length_range] at this

theorem free_eq_zero_iff : c.free n = 0 ↔ c.isFull n = true := by
  rw [free, List.countP_eq_zero, isFull, List.all_eq_true]
  simp

theorem free_pos_iff : 0 < c.free n ↔ c.isFull n = false := by
  rw [Nat.pos_iff_ne_zero, ne_eq, free_eq_zero_iff, Bool.not_eq_true]

@[simp] theorem free_empty [Inhabited α] : (empty : Chunk α).free n = n := by
  simp [free, empty, List.countP_eq_length_filter]

@[simp] theorem free_put (i : Nat) (o : α) : (c.put i o).free n = c.free n := rfl

theorem range_split (hpos : pos < n) :
    List.range n = List.range pos ++ pos :: List.range' (pos + 1) (n - (pos + 1)) := by
  have hn : n = pos + (n - (pos + 1) + 1) := by omega
  rw [List.range_eq_range', List.range_eq_range', ← List.range'_succ]
  have happ := @List.range'_append_1 0 pos (n - (pos + 1) + 1)
  rw [Nat.zero_add] at happ
  rw [happ, ← hn]

/-- Only the slot that is set counts differently. -/
theorem free_set (hpos : pos < n) (b : Bool) :
    (c.set n pos b).free n + (if c.slots pos then 0 else 1) = c.free n + (if b then 0 else 1) := by
  have hother : ∀ l : List Nat, pos ∉ l →
      (l.countP fun j => !(c.set n pos b).slots j) = l.countP fun j => !c.slots j := by
    intro l hl
    refine List.countP_congr fun j hj => ?_
    have hne : j ≠ pos := fun h => hl (h ▸ hj)
    simp [set, hne]
  have h1 := hother (List.range pos) (by simp)
  have h2 := hother (List.range' (pos + 1) (n - (pos + 1))) (by simp [List.mem_range'_1])
  rw [free, free, range_split hpos, List.countP_append, List.countP_append, List.countP_cons,
    List.countP_cons, h1, h2]
  have hself : (c.set n pos b).slots pos = b := by simp [set]
  rw [hself]
  cases b with
  | true => cases c.slots pos <;> simp [Nat.add_assoc]
  | false => cases c.slots pos <;> simp [Nat.add_assoc]

end Chunk

/-- The unused slots of some chunks. -/
def totalFree (n : Nat) (cs : List (Chunk α)) : Nat := (cs.map (Chunk.free n)).sum

section

variable {n k : Nat} {c d : Chunk α} {cs : List (Chunk α)}

theorem totalFree_le : totalFree n cs ≤ cs.length * n := by
  induction cs with
  | nil => simp [totalFree]
  | cons c cs ih =>
      have := c.free_le n
      simp only [totalFree, List.map_cons, List.sum_cons, List.length_cons, Nat.add_mul] at ih ⊢
      omega

theorem totalFree_append : totalFree n (cs ++ [c]) = totalFree n cs + c.free n := by
  simp [totalFree]

theorem totalFree_set (hk : cs[k]? = some c) :
    totalFree n (cs.set k d) + c.free n = totalFree n cs + d.free n := by
  induction cs generalizing k with
  | nil => simp at hk
  | cons e cs ih =>
      cases k with
      | zero =>
          cases hk
          simp only [List.set_cons_zero, totalFree, List.map_cons, List.sum_cons]
          omega
      | succ k =>
          have := ih (k := k) (by simpa using hk)
          simp only [List.set_cons_succ, totalFree, List.map_cons, List.sum_cons] at this ⊢
          omega

theorem free_le_totalFree (hk : cs[k]? = some c) : c.free n ≤ totalFree n cs := by
  have hfull : (⟨c.data, fun _ => true, 0⟩ : Chunk α).free n = 0 := by simp [Chunk.free]
  have := totalFree_set (n := n) (d := ⟨c.data, fun _ => true, 0⟩) hk
  omega

end

/-! ## The vector in memory -/

namespace MemVec

variable {n k : Nat} {v v' : MemVec α} {c ch : Chunk α}

/-- The counter is the number of unused slots, and the free list has the
chunks with an unused slot, each once. -/
structure Accounted (n : Nat) (v : MemVec α) : Prop where
  available : v.available = totalFree n v.chunks
  once : (v.freeList.map (· / n)).Nodup
  listed : ∀ k, k ∈ v.freeList.map (· / n) ↔ ∃ c ∈ v.chunks[k]?, c.isFull n = false

/-- The calls after which the accounts are right: no chunk becomes full that
is listed under another index than the one that is removed, and the slots can
be counted. -/
def Accountable (n : Nat) (v : MemVec α) : VecOp α → Prop
  | .append _ =>
      ((∀ c ∈ v.chunks.getLast?, c.isFull n = true) → (v.chunks.length + 1) * n < 2 ^ 64) ∧
        ∀ c ∈ v.chunks.getLast?, c.free n = 1 → (v.chunks.length - 1) * n ∈ v.freeList
  | .store _ => v.freeList = [] → (v.chunks.length + 1) * n < 2 ^ 64
  | .storeAt idx _ => ∀ c ∈ v.chunks[idx / n]?, c.slots (idx % n) = false → c.free n = 1 →
      idx ∈ v.freeList
  | .erase _ => True
  | .resize m =>
      (v.chunks.length + if v.chunks = [] then max m.toNat 1 else m.toNat) * n < 2 ^ 64

/-- The accounts are right, and the slots can be counted. -/
structure Sound (n : Nat) (v : MemVec α) : Prop where
  ok : v.Ok n
  acc : v.Accounted n
  cap : v.chunks.length * n < 2 ^ 64

theorem removed {fl : List Nat} {idx : Nat} (hnd : (fl.map (· / n)).Nodup) (hmem : idx ∈ fl) :
    ((removeFromFreeList fl idx).map (· / n)).Nodup ∧
      ∀ k, k ∈ (removeFromFreeList fl idx).map (· / n) ↔ k ∈ fl.map (· / n) ∧ k ≠ idx / n := by
  refine ⟨List.Nodup.sublist (List.Sublist.map _ List.filter_sublist) hnd, fun k => ?_⟩
  simp only [List.mem_map, mem_removeFromFreeList]
  constructor
  · rintro ⟨e, ⟨he, hne⟩, rfl⟩
    exact ⟨⟨e, he, rfl⟩, fun heq => hne (List.inj_on_of_nodup_map hnd he hmem heq)⟩
  · rintro ⟨⟨e, he, rfl⟩, hne⟩
    exact ⟨e, ⟨he, fun heq => hne (by rw [heq])⟩, rfl⟩

theorem removed_of_notMem {fl : List Nat} {idx : Nat} (hmem : idx ∉ fl) :
    removeFromFreeList fl idx = fl := by
  rw [removeFromFreeList, List.filter_eq_self]
  intro e he
  simp only [ne_eq, decide_not, Bool.not_eq_true', decide_eq_false_iff_not]
  rintro rfl
  exact hmem he

/-- A chunk that is replaced, with the counter and the list changed to match. -/
theorem Accounted.replace (h : v.Accounted n) (hc : v.chunks[k]? = some ch)
    (hw : v'.chunks = v.chunks.set k c) (hav : v'.available + ch.free n = v.available + c.free n)
    (honce : (v'.freeList.map (· / n)).Nodup)
    (hlist : ∀ i, i ∈ v'.freeList.map (· / n) ↔
      if i = k then c.isFull n = false else i ∈ v.freeList.map (· / n)) : v'.Accounted n := by
  have hlt := (List.getElem?_eq_some_iff.mp hc).1
  refine ⟨?_, honce, fun i => ?_⟩
  · have := totalFree_set (n := n) (d := c) hc
    rw [h.available] at hav
    rw [hw]
    omega
  · rw [hlist, hw, List.getElem?_set]
    by_cases hik : i = k
    · subst hik
      simp [hlt]
    · rw [if_neg hik, if_neg (Ne.symm hik)]
      exact h.listed i

/-- A slot is taken. -/
theorem Sound.take (h : v.Sound n) (hc : v.chunks[k]? = some ch) {pos : Nat} (hpos : pos < n)
    (hfree : ch.slots pos = false) {offs : Nat} (hoffs : offs / n = k)
    (hentry : ch.free n = 1 → offs ∈ v.freeList) (o : α) (hok : v'.Ok n)
    (hw : v'.chunks = v.chunks.set k ((ch.put pos o).set n pos true))
    (hav : v'.available = decr64 v.available)
    (hfl : v'.freeList = if ((ch.put pos o).set n pos true).isFull n then
      removeFromFreeList v.freeList offs else v.freeList) : v'.Sound n := by
  have hset : ((ch.put pos o).set n pos true).free n + 1 = ch.free n := by
    have := Chunk.free_set (c := ch.put pos o) hpos true
    rw [show (ch.put pos o).slots pos = false from hfree] at this
    simpa using this
  have hle := free_le_totalFree (n := n) hc
  have htot : totalFree n v.chunks ≤ v.chunks.length * n := totalFree_le
  have hcap := h.cap
  have hcount := h.acc.available
  have hmem : k ∈ v.freeList.map (· / n) :=
    (h.acc.listed k).mpr ⟨ch, hc, Chunk.free_pos_iff.mp (by omega)⟩
  refine ⟨hok, h.acc.replace hc hw ?_ ?_ ?_, by rw [hw, List.length_set]; exact hcap⟩
  · rw [hav, decr64]
    omega
  · rw [hfl]
    split
    · next hfull =>
        exact (removed h.acc.once (hentry (by have := Chunk.free_eq_zero_iff.mpr hfull; omega))).1
    · exact h.acc.once
  · intro i
    rw [hfl]
    split
    · next hfull =>
        have hrem := removed h.acc.once
          (hentry (by have := Chunk.free_eq_zero_iff.mpr hfull; omega))
        rw [hrem.2, hoffs]
        by_cases hik : i = k
        · simp [hik, hfull]
        · simp [hik]
    · next hfull =>
        by_cases hik : i = k
        · rw [if_pos hik, hik]
          exact iff_of_true hmem (Bool.eq_false_iff.mpr hfull)
        · rw [if_neg hik]

/-- A slot is given back. -/
theorem Sound.release (h : v.Sound n) (hc : v.chunks[k]? = some ch) {pos : Nat} (hpos : pos < n)
    {idx : Nat} (hidx : idx / n = k) (hok : v'.Ok n)
    (hw : v'.chunks = v.chunks.set k (ch.set n pos false))
    (hav : v'.available = if ch.slots pos then add64 v.available 1 else v.available)
    (hfl : v'.freeList = if ch.isFull n then v.freeList ++ [idx] else v.freeList) : v'.Sound n := by
  have hset := Chunk.free_set (c := ch) hpos false
  have htot : totalFree n (v.chunks.set k (ch.set n pos false)) ≤
      (v.chunks.set k (ch.set n pos false)).length * n := totalFree_le
  rw [List.length_set] at htot
  have hsum := totalFree_set (n := n) (d := ch.set n pos false) hc
  have hcap := h.cap
  have hcount := h.acc.available
  have hnot : (ch.set n pos false).isFull n = false := by
    rw [← Chunk.free_pos_iff]
    cases hs : ch.slots pos with
    | true =>
        rw [hs] at hset
        simp at hset
        omega
    | false =>
        rw [hs] at hset
        simp at hset
        rw [hset, Chunk.free_pos_iff, Bool.eq_false_iff]
        intro hfull
        rw [Chunk.isFull_iff.mp hfull pos hpos] at hs
        cases hs
  have hlisted := h.acc.listed k
  rw [hc] at hlisted
  simp only [Option.mem_some_iff, exists_eq_left'] at hlisted
  refine ⟨hok, h.acc.replace hc hw ?_ ?_ ?_, by rw [hw, List.length_set]; exact hcap⟩
  · rw [hav]
    cases hs : ch.slots pos with
    | true =>
        rw [hs] at hset
        simp only [if_true, add64] at hset ⊢
        simp at hset
        omega
    | false =>
        rw [hs] at hset
        simp at hset ⊢
        omega
  · rw [hfl]
    split
    · next hfull =>
        rw [List.map_append, List.map_singleton, hidx]
        refine List.Nodup.append h.acc.once (List.nodup_singleton k) ?_
        intro i hi hik
        rw [List.mem_singleton.mp hik, hlisted, hfull] at hi
        cases hi
    · exact h.acc.once
  · intro i
    rw [hfl]
    by_cases hik : i = k
    · rw [if_pos hik, hik]
      refine iff_of_true ?_ hnot
      split
      · rw [List.map_append, List.map_singleton, hidx]
        simp
      · next hfull => exact hlisted.mpr (Bool.eq_false_iff.mpr hfull)
    · rw [if_neg hik]
      split
      · rw [List.map_append, List.map_singleton, hidx]
        simp [hik]
      · rfl

section

variable [Inhabited α] (hn : 0 < n)
include hn

/-- One more chunk. -/
theorem Sound.addChunk (h : v.Sound n) (hcap : (v.chunks.length + 1) * n < 2 ^ 64) :
    (v.addChunk n).Sound n := by
  have hdiv : v.chunks.length * n / n = v.chunks.length := Nat.mul_div_cancel _ hn
  have htot : totalFree n v.chunks ≤ v.chunks.length * n := totalFree_le
  rw [Nat.add_mul, Nat.one_mul] at hcap
  refine ⟨h.ok.addChunk hn, ⟨?_, ?_, fun k => ?_⟩, ?_⟩
  · show add64 v.available n = totalFree n (v.chunks ++ [Chunk.empty])
    rw [totalFree_append, Chunk.free_empty, add64, h.acc.available]
    omega
  · show ((v.freeList ++ [v.chunks.length * n]).map (· / n)).Nodup
    rw [List.map_append, List.map_singleton, hdiv]
    refine List.Nodup.append h.acc.once (List.nodup_singleton _) ?_
    intro i hi hik
    rw [List.mem_singleton.mp hik, h.acc.listed] at hi
    obtain ⟨c, hc, -⟩ := hi
    simp at hc
  · show k ∈ (v.freeList ++ [v.chunks.length * n]).map (· / n) ↔
      ∃ c ∈ (v.chunks ++ [Chunk.empty])[k]?, c.isFull n = false
    rw [List.map_append, List.map_singleton, hdiv, List.mem_append,
      List.mem_singleton, h.acc.listed]
    by_cases hk : k = v.chunks.length
    · subst hk
      simp [empty_not_full hn]
    · rcases Nat.lt_or_ge k v.chunks.length with hlt | hge
      · rw [List.getElem?_append_left hlt]
        simp [hk]
      · rw [List.getElem?_eq_none hge, List.getElem?_eq_none (by simp; omega)]
        simp [hk]
  · show (v.chunks ++ [Chunk.empty]).length * n < 2 ^ 64
    rw [List.length_append, List.length_singleton, Nat.add_mul, Nat.one_mul]
    exact hcap

theorem Sound.addChunks (m : Nat) : ∀ {v : MemVec α}, v.Sound n →
    (v.chunks.length + m) * n < 2 ^ 64 → (addChunks n m v).Sound n := by
  induction m with
  | zero => exact fun h _ => h
  | succ m ih =>
      intro v h hcap
      have hlen : (v.addChunk n).chunks.length = v.chunks.length + 1 := by simp [MemVec.addChunk]
      have hone : (v.chunks.length + 1) * n ≤ (v.chunks.length + (m + 1)) * n :=
        Nat.mul_le_mul_right _ (by omega)
      refine ih (h.addChunk hn (by omega)) ?_
      rw [hlen, Nat.add_assoc, Nat.add_comm 1 m]
      exact hcap

/-- The counter of a vector without chunks is that of no slots. -/
theorem Sound.resize (h : v.Sound n) {m : Int} (hcap : v.Accountable n (.resize m)) :
    (v.resize n m).Sound n := by
  rw [Accountable] at hcap
  by_cases hnil : v.chunks = []
  · have hav : v.available = 0 := h.ok.start hnil
    rw [if_pos hnil, hnil, List.length_nil, Nat.zero_add] at hcap
    have hmul : 1 * n ≤ max m.toNat 1 * n := Nat.mul_le_mul_right _ (by omega)
    have h1 := h.addChunk hn (by rw [hnil, List.length_nil]; omega)
    have h2 : ({ v.addChunk n with capacity := n, available := n } : MemVec α).Sound n := by
      have heq : (v.addChunk n).available = n := by
        show add64 v.available n = n
        rw [hav, add64]
        omega
      refine ⟨⟨h1.ok.chunk, h1.ok.entry, h1.ok.listed, fun hc => absurd hc
        (by simp [MemVec.addChunk])⟩,
        ⟨?_, h1.acc.once, h1.acc.listed⟩, h1.cap⟩
      rw [← h1.acc.available, heq]
    rw [resize_nil hnil]
    refine h2.addChunks hn _ ?_
    have hlen : (v.addChunk n).chunks.length = 1 := by simp [MemVec.addChunk, hnil]
    show ((v.addChunk n).chunks.length + _) * n < 2 ^ 64
    rw [hlen]
    have hle : (1 + (m - 1).toNat) * n ≤ max m.toNat 1 * n := Nat.mul_le_mul_right _ (by omega)
    omega
  · rw [if_neg hnil] at hcap
    rw [MemVec.resize, if_neg hnil]
    exact h.addChunks hn _ hcap

theorem Sound.resize_one (h : v.Sound n) (hcap : (v.chunks.length + 1) * n < 2 ^ 64) :
    (v.resize n 1).Sound n := by
  refine h.resize hn ?_
  rw [Accountable]
  split
  · exact hcap
  · exact hcap

omit hn [Inhabited α] in
theorem Sound.stored (h : v.Sound n) (hc : v.tab k = some ch) (hfull : ch.isFull n = false)
    {offs : Nat} (hoffs : offs / n = k) (hentry : ch.free n = 1 → offs ∈ v.freeList) (o : α) :
    (MemVec.stored n k offs ch o v).Sound n := by
  obtain ⟨hlt, hfree⟩ := (h.ok.chunk hc).first_lt hfull
  exact h.take hc hlt hfree hoffs hentry o (h.ok.stored hc hfull hoffs o) rfl rfl rfl

/-- The last chunk has its own offset in the list when `append` fills it. -/
theorem Sound.append (h : v.Sound n) (o : α) (hstep : v.Accountable n (.append o)) :
    always (append n o) (Sound n) v := by
  obtain ⟨hgrow, hlast⟩ := hstep
  obtain ⟨w, ch, hw, hch, hfull, hres⟩ := append_eq hn h.ok o
  have hready : w.Sound n ∧ (ch.free n = 1 → (w.chunks.length - 1) * n ∈ w.freeList) := by
    rcases hw with rfl | ⟨rfl, hor⟩
    · exact ⟨h, hlast ch hch⟩
    · obtain ⟨hchunks, hfl⟩ := MemVec.resize_one (n := n) v
      refine ⟨h.resize_one hn (hgrow fun c hc => ?_), fun _ => ?_⟩
      · rcases hor with hav | hor
        · rw [h.acc.available] at hav
          rw [Option.mem_def, List.getLast?_eq_getElem?] at hc
          have := free_le_totalFree (n := n) hc
          exact Chunk.free_eq_zero_iff.mp (by omega)
        · exact hor c hc
      · rw [hchunks, hfl]
        simp
  have hc : w.tab (w.chunks.length - 1) = some ch := by
    rw [tab, ← List.getLast?_eq_getElem?]
    exact hch
  rw [always, wp_congr hres]
  refine storeIn_wp (hready.1.ok.chunk hc) (fun hf => ?_) fun _ => ?_
  · rw [hfull] at hf
    cases hf
  · exact hready.1.stored hc hfull (Nat.mul_div_cancel _ hn) hready.2 o

/-- `store` takes the chunk at the front of the list and removes that entry. -/
theorem Sound.store (h : v.Sound n) (o : α) (hstep : v.Accountable n (.store o)) :
    always (store n o) (Sound n) v := by
  cases hfl : v.freeList with
  | cons idx rest =>
      obtain ⟨ch, hc, hres⟩ := store_cons h.ok hfl
      have hmem : idx ∈ v.freeList := by
        rw [hfl]
        exact List.mem_cons_self
      obtain ⟨c, hc', hnf⟩ := (h.acc.listed (idx / n)).mp (List.mem_map_of_mem hmem)
      have heq : c = ch := Option.some.inj (hc'.symm.trans hc)
      rw [heq] at hnf
      rw [always, wp_congr hres]
      refine storeIn_wp (h.ok.chunk hc) (fun hf => ?_) fun _ => ?_
      · rw [hnf] at hf
        cases hf
      · exact h.stored hc hnf rfl (fun _ => hmem) o
  | nil =>
      obtain ⟨hres, htab, -⟩ := store_nil hn h.ok hfl
      rw [always, wp_congr hres]
      refine storeIn_wp Chunk.ok_empty (fun hf => ?_) fun hf => ?_
      · rw [empty_not_full hn] at hf
        cases hf
      · refine (h.resize_one hn (hstep hfl)).stored htab hf (Nat.mul_div_cancel _ hn)
          (fun _ => ?_) o
        rw [(MemVec.resize_one v).2]
        simp

/-- `store_at` takes a slot or leaves the accounts alone. -/
theorem Sound.storeAt (h : v.Sound n) (idx : Nat) (o : α)
    (hstep : v.Accountable n (.storeAt idx o)) : always (storeAt n idx o) (Sound n) v := by
  have hok := (storeAt_spec hn h.ok idx o).2
  have hpos := Nat.mod_lt idx hn
  cases hc : v.chunks[idx / n]? with
  | none =>
      simp only [always, MemVec.storeAt, wp_bind, wp_get, hc, wp_throw]
      exact h
  | some ch =>
      simp only [always, MemVec.storeAt, wp_bind, wp_get, hc, wp_set] at hok ⊢
      cases hs : ch.slots (idx % n) with
      | false =>
          rw [hs] at hok
          simp only [Bool.false_eq_true, if_false] at hok ⊢
          exact h.take hc hpos hs rfl (hstep ch hc hs) o hok rfl rfl rfl
      | true =>
          rw [hs] at hok
          simp only [if_true] at hok ⊢
          have hset := Chunk.free_set (c := ch.put (idx % n) o) hpos true
          rw [show (ch.put (idx % n) o).slots (idx % n) = true from hs] at hset
          simp only [if_true, Nat.add_zero, Chunk.free_put] at hset
          have hsame : ((ch.put (idx % n) o).set n (idx % n) true).isFull n = ch.isFull n := by
            rw [Bool.eq_iff_iff, ← Chunk.free_eq_zero_iff, ← Chunk.free_eq_zero_iff, hset]
          have hlisted := h.acc.listed (idx / n)
          rw [hc] at hlisted
          simp only [Option.mem_some_iff, exists_eq_left'] at hlisted
          have hfl : (if ((ch.put (idx % n) o).set n (idx % n) true).isFull n then
              removeFromFreeList v.freeList idx else v.freeList) = v.freeList := by
            rw [hsame]
            split
            · next hfull =>
                refine removed_of_notMem fun hmem => ?_
                rw [hlisted.mp (List.mem_map_of_mem hmem)] at hfull
                cases hfull
            · rfl
          rw [hfl] at hok ⊢
          refine ⟨hok, h.acc.replace hc rfl ?_ h.acc.once fun i => ?_, ?_⟩
          · show v.available + _ = v.available + _
            rw [hset]
          · by_cases hik : i = idx / n
            · rw [if_pos hik, hik, hsame]
              exact hlisted
            · rw [if_neg hik]
          · show (v.chunks.set _ _).length * n < 2 ^ 64
            rw [List.length_set]
            exact h.cap

theorem Sound.erase (h : v.Sound n) (idx : Nat) : always (erase n idx) (Sound n) v := by
  have hok := (erase_spec hn h.ok idx).2
  cases hc : v.chunks[idx / n]? with
  | none =>
      simp only [always, MemVec.erase, wp_bind, wp_get, hc, wp_throw]
      exact h
  | some ch =>
      simp only [always, MemVec.erase, wp_bind, wp_get, hc, wp_set] at hok ⊢
      exact h.release hc (Nat.mod_lt idx hn) rfl hok rfl rfl rfl

theorem Sound.next (h : v.Sound n) (op : VecOp α) (hstep : v.Accountable n op) :
    (v.next n op).Sound n := by
  refine next_of_always ?_
  cases op with
  | append o =>
      rw [call, always, wp_map]
      exact h.append hn o hstep
  | store o =>
      rw [call, always, wp_map]
      exact h.store hn o hstep
  | storeAt idx o =>
      rw [call, always, wp_map]
      exact h.storeAt hn idx o hstep
  | erase idx =>
      rw [call, always, wp_map]
      exact h.erase hn idx
  | resize m => exact h.resize hn hstep

end

theorem sound_new : (empty : MemVec α).Sound n where
  ok := ok_new
  acc := ⟨rfl, List.nodup_nil, fun k => by simp [empty]⟩
  cap := by simp [empty]

end MemVec

/-! ## The vector over a file -/

namespace BufVec

variable {n u k : Nat} {v v' : BufVec α} {c : Chunk α}

/-- The chunks of the pages in use. -/
def chunks (v : BufVec α) : List (Chunk α) :=
  ((List.range v.file.npages).filter v.file.slots).map v.file.pages

/-- The counter is the number of unused slots, and the bits that are set are
those of the pages with an unused slot. -/
structure Accounted (n : Nat) (v : BufVec α) : Prop where
  available : v.available = totalFree n v.chunks
  listed : ∀ i, v.freelist i = true ↔ ∃ c ∈ v.tab i, c.isFull n = false

/-- The calls after which the accounts are right: `store` fills no page but
the last one of the file, and `store_at` and `erase` leave the use of the slot
as it is. -/
def Accountable (n : Nat) (v : BufVec α) : VecOp α → Prop
  | .append _ => True
  | .store _ => v.available ≠ 0 → (v.file.pages (v.findInFreeList - 1)).free n = 1 →
      v.findInFreeList = v.file.npages
  | .storeAt idx _ => ∀ c ∈ v.tab (idx / n), c.slots (idx % n) = true
  | .erase idx => ∀ c ∈ v.tab (idx / n), c.slots (idx % n) = false
  | .resize _ => True

/-- The accounts are right, and the file has no page after those in use as
long as one can be allocated. -/
structure Sound (n u : Nat) (v : BufVec α) : Prop where
  ok : v.Ok n u
  acc : v.Accounted n
  tail : v.file.npages = u ∨ u = maxPages

theorem Ok.chunks_eq (h : v.Ok n u) : v.chunks = (List.range u).map v.file.pages := by
  obtain ⟨m, hm⟩ := Nat.exists_eq_add_of_le h.packed.le_npages
  rw [chunks, hm, List.range_add, List.filter_append]
  have hin : (List.range u).filter v.file.slots = List.range u := by
    rw [List.filter_eq_self]
    exact fun i hi => (h.packed.used i).mpr (List.mem_range.mp hi)
  have hout : ((List.range m).map (u + ·)).filter v.file.slots = [] := by
    rw [List.filter_eq_nil_iff]
    intro i hi
    obtain ⟨j, -, rfl⟩ := List.mem_map.mp hi
    rw [h.packed.used]
    omega
  rw [hin, hout, List.append_nil]

theorem Ok.getElem?_chunks (h : v.Ok n u) (hk : k < u) : v.chunks[k]? = some (v.file.pages k) := by
  rw [h.chunks_eq]
  simp [hk]

theorem Ok.chunks_replace (h : v.Ok n u) (h' : v'.Ok n u) (hfile : v'.file = v.file.writeAt k c) :
    v'.chunks = v.chunks.set k c := by
  rw [h'.chunks_eq, h.chunks_eq, hfile]
  refine List.ext_getElem? fun i => ?_
  rw [List.getElem?_set]
  by_cases hik : i = k
  · subst hik
    by_cases hi : i < u
    · simp [PagedFile.writeAt, hi]
    · simp [hi]
  · rw [if_neg (Ne.symm hik)]
    by_cases hi : i < u
    · simp [PagedFile.writeAt, hi, hik]
    · simp [hi]

/-- A chunk that is replaced, with the counter and the bits changed to match. -/
theorem Sound.replace (h : v.Sound n u) (hk : k < u) (hok : v'.Ok n u)
    (hfile : v'.file = v.file.writeAt k c)
    (hav : v'.available + (v.file.pages k).free n = v.available + c.free n)
    (hlist : ∀ i, v'.freelist i = true ↔
      if i = k then c.isFull n = false else v.freelist i = true) : v'.Sound n u := by
  refine ⟨hok, ⟨?_, fun i => ?_⟩, ?_⟩
  · have := totalFree_set (n := n) (d := c) (h.ok.getElem?_chunks hk)
    rw [h.acc.available] at hav
    rw [h.ok.chunks_replace hok hfile]
    omega
  · rw [hlist, tab_replace ((h.ok.packed.holds_iff k).mpr hk) hfile]
    by_cases hik : i = k
    · simp [hik]
    · simp only [if_neg hik]
      exact h.acc.listed i
  · rw [hfile]
    exact h.tail

theorem Sound.listed_iff (h : v.Sound n u) (hk : k < u) :
    v.freelist k = true ↔ (v.file.pages k).isFull n = false := by
  rw [h.acc.listed, h.ok.tab_eq, if_pos hk]
  simp

/-- A slot that is taken, with the bit of a page that becomes full removed. -/
theorem Sound.take (hsize : n < 2 ^ 31) (h : v.Sound n u) (hk : k < u) {pos : Nat} (hpos : pos < n)
    (hfree : (v.file.pages k).slots pos = false) (o : α) (hok : v'.Ok n u)
    (hfile : v'.file = v.file.writeAt k (((v.file.pages k).put pos o).set n pos true))
    (hav : v'.available = decr64 v.available)
    (hlist : v'.freelist = if (((v.file.pages k).put pos o).set n pos true).isFull n then
      fun j => if j = k then false else v.freelist j else v.freelist) : v'.Sound n u := by
  have hset : (((v.file.pages k).put pos o).set n pos true).free n + 1 =
      (v.file.pages k).free n := by
    have := Chunk.free_set (c := (v.file.pages k).put pos o) hpos true
    rw [show ((v.file.pages k).put pos o).slots pos = false from hfree] at this
    simpa using this
  have hle := free_le_totalFree (n := n) (h.ok.getElem?_chunks hk)
  have htot : totalFree n v.chunks ≤ v.chunks.length * n := totalFree_le
  have hcount := h.acc.available
  have hlen : v.chunks.length * n ≤ maxPages * n := by
    rw [h.ok.chunks_eq, List.length_map, List.length_range]
    exact Nat.mul_le_mul_right n h.ok.packed.le
  have hmul : maxPages * n = 65536 * n := rfl
  refine h.replace hk hok hfile ?_ fun i => ?_
  · rw [hav, decr64]
    omega
  · rw [hlist]
    have hbit := (h.listed_iff hk).mpr (Chunk.free_pos_iff.mp (by omega))
    split
    · next hfull => simp [hfull]
    · next hfull =>
        by_cases hik : i = k
        · rw [if_pos hik, hik]
          exact iff_of_true hbit (Bool.eq_false_iff.mpr hfull)
        · rw [if_neg hik]

section

variable (hn : 0 < n)
include hn

/-- A record that goes to a page: when the page becomes full it has to be the
last one of the file. -/
theorem Sound.storeIn (hsize : n < 2 ^ 31) (h : v.Sound n u) (hk : k < u)
    (hfull : (v.file.pages k).isFull n = false)
    (hlast : (v.file.pages k).free n = 1 → k + 1 = v.file.npages) (o : α) :
    always (storeIn n (k + 1) (v.file.pages k) o) (Sound n u) v := by
  have hch := h.ok.chunk k hk
  obtain ⟨hlt, hfree⟩ := hch.first_lt hfull
  have hmax := h.ok.packed.le
  have hnot : ¬(v.file.pages k).isFull n = true := by
    rw [hfull]
    simp
  have htake : ∀ w : BufVec α, w.file = v.file.writeAt k
      (((v.file.pages k).put (v.file.pages k).first o).set n (v.file.pages k).first true) →
      w.available = decr64 v.available →
      (w.freelist = if (((v.file.pages k).put (v.file.pages k).first o).set n
        (v.file.pages k).first true).isFull n then
          fun j => if j = k then false else v.freelist j else v.freelist) → w.Sound n u := by
    intro w hfile hav hlist
    refine h.take hsize hk hlt hfree o ?_ hfile hav hlist
    refine h.ok.replace hk ((hch.put _ o).set hlt true) hfile fun i hi => ?_
    rw [hlist] at hi
    split at hi
    · simp only at hi
      split at hi
      · cases hi
      · exact hi
    · exact hi
  simp only [BufVec.storeIn, always, wp_bind, wp_get, wp_set, hch.firstAvailable, if_neg hnot,
    putChunk, wp_modify, Nat.add_sub_cancel]
  refine wp_ite (fun hnow => ?_) fun hnow => htake _ rfl rfl (if_neg hnow).symm
  have hone : (v.file.pages k).free n = 1 := by
    have hset := Chunk.free_set (c := (v.file.pages k).put (v.file.pages k).first o) hlt true
    rw [show ((v.file.pages k).put (v.file.pages k).first o).slots (v.file.pages k).first = false
      from hfree, Chunk.free_eq_zero_iff.mpr hnow] at hset
    simpa using hset.symm
  have hpage : (v.file.npages - 1) * n / n = k := by
    have := hlast hone
    rw [Nat.mul_div_cancel _ hn]
    omega
  simp only [BufVec.removeFromFreeList, hpage, wp_bind]
  refine setFree_wp (fun _ => ?_) fun hge => absurd (Nat.lt_of_lt_of_le hk hmax) hge
  exact htake _ rfl rfl (if_pos hnow).symm

variable [Inhabited α]

/-- What a new page does to the counter, the bits and the other pages. -/
theorem addPage_accounts (h : v.Ok n u) :
    wp (addPage n)
      (fun _ w => w.available = add64 v.available n ∧
        (w.freelist = fun j => if j = u then true else v.freelist j) ∧
        ∀ j, j < u → w.file.pages j = v.file.pages j)
      (fun _ w => w.available = v.available ∧ w.freelist = v.freelist ∧
        ∀ j, j < u → w.file.pages j = v.file.pages j) v := by
  have hdiv : (u + 1) * n - 1 = u * n + (n - 1) := by
    rw [Nat.add_mul]
    omega
  obtain ⟨hdiv', -⟩ := (index_eq_iff (n := n) (k := u) (by omega) _).mpr hdiv
  simp only [addPage, wp_bind, wp_onFile]
  refine h.packed.allocatePage_wp (fun hlt g _ _ hpages => ?_) fun _ g _ hpages => ?_
  · simp only [putChunk, wp_modify, Nat.add_sub_cancel, addToFreeList, hdiv']
    refine setFree_wp (fun _ => ⟨rfl, rfl, fun j hj => ?_⟩) fun hge => absurd hlt hge
    have hne : j ≠ u := by omega
    simp [PagedFile.writeAt, hpages, hne]
  · exact ⟨trivial, trivial, hpages⟩

theorem Sound.addPage (hsize : n < 2 ^ 31) (h : v.Sound n u) :
    wp (addPage n)
      (fun _ w => w.Sound n (u + 1) ∧ w.file.npages = u + 1 ∧ w.file.pages u = Chunk.empty)
      (fun _ w => w.Sound n u) v := by
  refine wp_mono (wp_and (addPage_wp hn h.ok) (addPage_accounts hn h.ok)) ?_ ?_
  · rintro _ w ⟨hg, hav, hlist, hpages⟩
    have hnp : w.file.npages = u + 1 := by
      have := hg.npages
      have := hg.lt
      rcases h.tail with ht | ht <;> omega
    have hchunks : w.chunks = v.chunks ++ [Chunk.empty] := by
      rw [hg.ok.chunks_eq, h.ok.chunks_eq, List.range_succ, List.map_append, List.map_singleton,
        hg.page]
      congr 1
      exact List.map_congr_left fun j hj => hpages j (List.mem_range.mp hj)
    refine ⟨⟨hg.ok, ⟨?_, fun i => ?_⟩, .inl hnp⟩, hnp, hg.page⟩
    · have htot : totalFree n v.chunks ≤ v.chunks.length * n := totalFree_le
      have hlen : v.chunks.length * n ≤ maxPages * n := by
        rw [h.ok.chunks_eq, List.length_map, List.length_range]
        exact Nat.mul_le_mul_right n h.ok.packed.le
      have hmul : maxPages * n = 65536 * n := rfl
      rw [hchunks, totalFree_append, Chunk.free_empty, hav, add64, h.acc.available]
      omega
    · rw [hlist, hg.ok.tab_eq]
      simp only
      by_cases hi : i = u
      · rw [if_pos hi, hi, if_pos (Nat.lt_succ_self u), hg.page]
        simp [empty_not_full hn]
      · rw [if_neg hi, h.acc.listed, h.ok.tab_eq]
        by_cases hlt : i < u
        · rw [if_pos hlt, if_pos (by omega), hpages i hlt]
        · rw [if_neg hlt, if_neg (by omega)]
  · rintro _ w ⟨⟨hmax, hok, -⟩, hav, hlist, hpages⟩
    have hchunks : w.chunks = v.chunks := by
      rw [hok.chunks_eq, h.ok.chunks_eq]
      exact List.map_congr_left fun j hj => hpages j (List.mem_range.mp hj)
    refine ⟨hok, ⟨?_, fun i => ?_⟩, .inr hmax⟩
    · rw [hav, hchunks]
      exact h.acc.available
    · rw [hlist, h.acc.listed, hok.tab_eq, h.ok.tab_eq]
      by_cases hlt : i < u
      · rw [if_pos hlt, if_pos hlt, hpages i hlt]
      · rw [if_neg hlt, if_neg hlt]

variable (hsize : n < 2 ^ 31)
include hsize

theorem Sound.resize_one (h : v.Sound n u) {Q : PUnit → BufVec α → Prop}
    {E : VecErr → BufVec α → Prop}
    (hok : ∀ w : BufVec α, w.Sound n (u + 1) → w.file.pages u = Chunk.empty → Q ⟨⟩ w)
    (herr : ∀ e w, Sound n u w → E e w) : wp (resize n 1) Q E v := by
  show wp (BufVec.addPage n >>= fun _ => pure ⟨⟩) Q E v
  rw [wp_bind]
  exact wp_mono (h.addPage hn hsize) (fun _ w hw => hok w hw.1 hw.2.2) herr

theorem Sound.addPages (m : Nat) : ∀ {u : Nat} {v : BufVec α}, v.Sound n u →
    always (addPages n m) (fun w => ∃ u', w.Sound n u') v := by
  induction m with
  | zero => exact fun h => ⟨_, h⟩
  | succ m ih =>
      intro u v h
      rw [BufVec.addPages, always, wp_bind]
      exact wp_mono (h.addPage hn hsize) (fun _ w hw => ih hw.1) fun _ w hw => ⟨u, hw⟩

omit [Inhabited α] in
/-- The last page in use is the last one of the file, or the file is full. -/
theorem Sound.storeLast (h : v.Sound n (u + 1)) (hnp : v.file.npages ≤ maxPages)
    (hfull : (v.file.pages u).isFull n = false) (o : α) :
    always (BufVec.storeIn n (u + 1) (v.file.pages u) o) (fun w => ∃ u', w.Sound n u') v := by
  have hle := h.ok.packed.le_npages
  refine always_mono (h.storeIn hn hsize (Nat.lt_succ_self u) hfull (fun _ => ?_) o) fun w hw =>
    ⟨_, hw⟩
  rcases h.tail with ht | ht <;> omega

theorem Sound.grow (h : v.Sound n u) (o : α) :
    always (do
        resize n 1
        let r ← tailChunk n
        BufVec.storeIn n r.1 r.2 o) (fun w => ∃ u', w.Sound n u') v := by
  rw [always, wp_bind]
  refine h.resize_one hn hsize (fun w hw hpage => ?_) fun _ w hw => ⟨u, hw⟩
  have hfull : (w.file.pages u).isFull n = false := by
    rw [hpage]
    exact empty_not_full hn
  simp only [tailChunk, wp_bind]
  refine getLastChunk_wp hw.ok (fun hnp => ?_) fun _ => ⟨_, hw⟩
  rw [if_neg (by rw [hfull]; simp), wp_pure]
  exact hw.storeLast hn hsize hnp hfull o

theorem Sound.append (h : v.Sound n u) (o : α) :
    always (append n o) (fun w => ∃ u', w.Sound n u') v := by
  simp only [BufVec.append, always, wp_bind, wp_get]
  refine wp_ite (fun _ => h.grow hn hsize o) fun hav => ?_
  obtain ⟨t, rfl⟩ : ∃ t, u = t + 1 := by
    have : u ≠ 0 := fun hu => hav (h.ok.start hu)
    exact ⟨u - 1, by omega⟩
  simp only [tailChunk, wp_bind]
  refine getLastChunk_wp h.ok (fun hnp => ?_) fun _ => ⟨_, h⟩
  refine wp_ite (fun _ => ?_) fun hfull => ?_
  · rw [wp_bind]
    refine h.resize_one hn hsize (fun w hw hpage => ?_) fun _ w hw => ⟨_, hw⟩
    refine getLastChunk_wp hw.ok (fun hnp' => ?_) fun _ => ⟨_, hw⟩
    refine hw.storeLast hn hsize hnp' ?_ o
    rw [hpage]
    exact empty_not_full hn
  · exact h.storeLast hn hsize hnp (Bool.eq_false_iff.mpr hfull) o

theorem Sound.store (h : v.Sound n u) (o : α) (hstep : v.Accountable n (.store o)) :
    always (store n o) (fun w => ∃ u', w.Sound n u') v := by
  simp only [BufVec.store, always, wp_bind, wp_get]
  refine wp_ite (fun _ => h.grow hn hsize o) fun hav => ?_
  have hlast := hstep hav
  rw [findInFreeList] at hlast ⊢
  cases hfind : (List.range' 0 maxPages).find? v.freelist with
  | none =>
      simp only [loadChunk, wp_bind, wp_get]
      exact ⟨u, h⟩
  | some k =>
      have hbit := List.find?_some hfind
      have hk : k < u := h.ok.listed k hbit
      have hle := h.ok.packed.le_npages
      have hvalid : v.file.isValid (k + 1) = true := by
        have := (h.ok.packed.holds_iff k).mpr hk
        simp only [PagedFile.isValid, this, Bool.and_true, Bool.and_eq_true, decide_eq_true_iff]
        exact ⟨by simp, by omega⟩
      rw [hfind] at hlast
      simp only [Nat.add_sub_cancel] at hlast
      simp only [loadChunk, wp_bind, wp_get, if_pos hvalid, wp_onFile]
      refine h.ok.packed.readPage_wp (fun _ => ?_) fun hno => absurd hk hno
      rw [wp_pure]
      exact always_mono (h.storeIn hn hsize hk ((h.listed_iff hk).mp hbit) hlast o) fun w hw =>
        ⟨u, hw⟩

omit hsize [Inhabited α]

/-- `store_at` to a used slot. -/
theorem Sound.storeAt (h : v.Sound n u) (idx : Nat) (o : α)
    (hstep : v.Accountable n (.storeAt idx o)) : always (storeAt n idx o) (Sound n u) v := by
  have hok := h.ok.storeAt_wp hn idx o
  have hpos := Nat.mod_lt idx hn
  have hkeep : always (BufVec.storeAt n idx o) (fun v' => v'.Ok n u → v'.Sound n u) v := by
    simp only [BufVec.storeAt, always, wp_bind]
    refine findChunk_wp (fun hh => ?_) fun _ _ _ => h
    have hk := (h.ok.packed.holds_iff _).mp hh
    have hs := hstep _ (tab_of_holds hh)
    have hset := Chunk.free_set (c := (v.file.pages (idx / n)).put (idx % n) o) hpos true
    rw [show ((v.file.pages (idx / n)).put (idx % n) o).slots (idx % n) = true from hs] at hset
    simp only [if_true, Nat.add_zero, Chunk.free_put] at hset
    have hsame : (((v.file.pages (idx / n)).put (idx % n) o).set n (idx % n) true).isFull n =
        (v.file.pages (idx / n)).isFull n := by
      rw [Bool.eq_iff_iff, ← Chunk.free_eq_zero_iff, ← Chunk.free_eq_zero_iff, hset]
    have hused : (((v.file.pages (idx / n)).put (idx % n) o).set n (idx % n) true).slots (idx % n) =
        true := by
      simp [Chunk.set]
    simp only [putChunk, wp_modify, Nat.add_sub_cancel, hused, Bool.true_eq_false, if_false]
    refine wp_ite (fun hfull => ?_) fun hfull => ?_
    · refine setFree_wp (fun _ hok => h.replace hk hok rfl ?_ fun i => ?_) fun hge =>
        absurd (lt_maxPages hh) hge
      · show v.available + _ = v.available + _
        rw [hset]
      · simp only [hfull]
        split
        · simp
        · rfl
    · refine fun hok => h.replace hk hok rfl ?_ fun i => ?_
      · show v.available + _ = v.available + _
        rw [hset]
      · by_cases hik : i = idx / n
        · rw [if_pos hik, hik, hsame]
          exact h.listed_iff hk
        · rw [if_neg hik]
  refine wp_mono (wp_and hok hkeep) (fun _ v' hp => hp.2 hp.1.2.1) fun _ v' hp => ?_
  rw [hp.1.2]
  exact h

/-- `erase` of an unused slot. -/
theorem Sound.erase (h : v.Sound n u) (idx : Nat) (hstep : v.Accountable n (.erase idx)) :
    always (erase n idx) (Sound n u) v := by
  have hpos := Nat.mod_lt idx hn
  simp only [BufVec.erase, always, wp_bind]
  refine findChunk_wp (fun hh => ?_) fun _ _ => h
  have hk := (h.ok.packed.holds_iff _).mp hh
  have hs := hstep _ (tab_of_holds hh)
  have hfree := Chunk.free_set (c := v.file.pages (idx / n)) hpos false
  rw [hs] at hfree
  have hcount : ((v.file.pages (idx / n)).set n (idx % n) false).free n =
      (v.file.pages (idx / n)).free n := Nat.add_right_cancel hfree
  have hunused : ((v.file.pages (idx / n)).set n (idx % n) false).slots (idx % n) = false := by
    simp [Chunk.set]
  have hopen : ∀ c : Chunk α, c.slots (idx % n) = false → c.isFull n = false := by
    intro c hc
    rw [Bool.eq_false_iff]
    intro hfull
    rw [Chunk.isFull_iff.mp hfull _ hpos] at hc
    cases hc
  simp only [putChunk, wp_modify, Nat.add_sub_cancel, hunused, hopen _ hunused,
    Bool.false_eq_true, if_false]
  refine h.replace hk (h.ok.replace hk ((h.ok.chunk _ hk).set hpos false) rfl fun i hi => hi) rfl
    ?_ fun i => ?_
  · show v.available + _ = v.available + _
    rw [hcount]
  · by_cases hik : i = idx / n
    · rw [if_pos hik, hik, h.listed_iff hk, hopen _ hunused, hopen _ hs]
    · rw [if_neg hik]

end

theorem Sound.next [Inhabited α] (hn : 0 < n) (hsize : n < 2 ^ 31) (h : v.Sound n u) (op : VecOp α)
    (hstep : v.Accountable n op) : ∃ u', (v.next n (.vec op)).Sound n u' := by
  refine next_of_always (P := fun w => ∃ u', w.Sound n u') ?_
  cases op with
  | append o =>
      rw [call, always, wp_map]
      exact h.append hn hsize o
  | store o =>
      rw [call, always, wp_map]
      exact h.store hn hsize o hstep
  | storeAt idx o =>
      rw [call, always, wp_map]
      exact always_mono (h.storeAt hn idx o hstep) fun w hw => ⟨u, hw⟩
  | erase idx =>
      rw [call, always, wp_map]
      exact always_mono (h.erase hn idx hstep) fun w hw => ⟨u, hw⟩
  | resize m =>
      rw [call, always, wp_map]
      exact h.addPages hn hsize m.toNat

theorem sound_new [Inhabited α] : (empty : BufVec α).Sound n 0 where
  ok := BufTrace.ok_new
  acc := ⟨rfl, fun i => by simp [empty, tab, PagedFile.holds]⟩
  tail := .inl rfl

end BufVec

/-! ## Runs -/

/-- In every run whose calls keep to the conditions, the counter is the number
of unused slots and the free list has exactly the chunks with an unused
slot. -/
theorem free_space_accounted {α : Type} [Inhabited α] (n : Nat) (hn : 0 < n) (hsize : n < 2 ^ 31)
    (ops : List (VecOp α)) :
    (Along (MemVec.next n) (MemVec.Accountable n) MemVec.empty ops →
      (ops.foldl (MemVec.next n) MemVec.empty).Accounted n) ∧
    (Along (fun v op => BufVec.next n v (.vec op)) (BufVec.Accountable n) BufVec.empty ops →
      (ops.foldl (fun v op => BufVec.next n v (.vec op)) BufVec.empty).Accounted n) := by
  constructor
  · intro hrun
    exact (foldl_of_along (MemVec.next n) (fun _ op h hstep => h.next hn op hstep) ops
      MemVec.empty MemVec.sound_new hrun).acc
  · intro hrun
    have hkeep : ∀ (v : BufVec α) op, (∃ u, v.Sound n u) → v.Accountable n op →
        ∃ u, (v.next n (.vec op)).Sound n u :=
      fun _ op ⟨_, h⟩ hstep => h.next hn hsize op hstep
    obtain ⟨_, h⟩ := foldl_of_along (fun v op => BufVec.next n v (.vec op)) hkeep ops
      BufVec.empty ⟨0, BufVec.sound_new⟩ hrun
    exact h.acc

/-- A page is filled, stored over, and another one begun. -/
theorem free_space_accounted_two_chunks :
    ([.append 1, .store 2, .storeAt 0 3, .append 4].foldl (MemVec.next 2)
      (MemVec.empty : MemVec Nat)).Accounted 2 ∧
    ([.append 1, .store 2, .storeAt 0 3, .append 4].foldl (fun v op => BufVec.next 2 v (.vec op))
      (BufVec.empty : BufVec Nat)).Accounted 2 := by
  have h := free_space_accounted (α := Nat) 2 (by decide) (by decide)
    [.append 1, .store 2, .storeAt 0 3, .append 4]
  refine ⟨h.1 ⟨?_, ?_, ?_, ?_, trivial⟩, h.2 ⟨trivial, ?_, ?_, trivial, trivial⟩⟩
  · exact ⟨fun _ => by decide, fun c hc => by cases hc⟩
  · intro hfl
    cases hfl
  · intro c hc hs
    cases hc
    cases hs
  · refine ⟨fun _ => by decide, fun c hc hone => ?_⟩
    cases hc
    cases hone
  · exact fun _ _ => rfl
  · intro c hc
    cases hc
    rfl

/-- In memory a chunk stays in the free list after the last of its slots has
been filled by `append`, since `erase` put it there under another index. Over
a file a slot that is freed is not counted. -/
theorem full_chunk_listed_freed_slot_uncounted :
    ¬([.append 1, .append 2, .erase 1, .append 3].foldl (MemVec.next 2)
      (MemVec.empty : MemVec Nat)).Accounted 2 ∧
    ¬([.append 1, .append 2, .erase 0].foldl (fun v op => BufVec.next 2 v (.vec op))
      (BufVec.empty : BufVec Nat)).Accounted 2 := by
  constructor
  · intro h
    obtain ⟨c, hc, hfull⟩ := (h.listed 0).mp (by decide)
    cases hc
    cases hfull
  · intro h
    have hav := h.available
    revert hav
    decide


end Poseidon
