import Poseidon.Bp.BufferPool

/-!
# What the LRU list does

`LruList.Repr l ns` says that the list runs through the nodes `ns`, given by
address and page id, from `head_` to `tail_` and back. Each operation that
the buffer pool uses has one lemma, which says that it follows no dangling
pointer and what the new sequence of nodes is.
-/

namespace Poseidon.LruList

/-- The list is well formed and consists of the nodes `ns`. -/
structure Repr (l : LruList) (ns : List (Nat × PageId)) : Prop where
  seg : l.nodes.Seg head (ns.map Prod.fst) tail
  nodup : (head :: (ns.map Prod.fst ++ [tail])).Nodup
  page : ∀ e ∈ ns, ∃ c, l.nodes e.1 = some c ∧ c.val = e.2
  lt_fresh : ∀ a ∈ head :: (ns.map Prod.fst ++ [tail]), a < l.fresh
  size : l.size = ns.length

theorem empty_repr : empty.Repr [] where
  seg := ⟨rfl, rfl⟩
  nodup := by decide
  page := by simp
  lt_fresh := by decide
  size := rfl

/-- No node changes its page id. -/
def SameVals (h h' : Cells PageId) : Prop := ∀ a, (h' a).map Cell.val = (h a).map Cell.val

theorem SameVals.alloc {h : Cells PageId} {a : Nat} {c : Cell PageId} (hc : h a = some c)
    (prev next : Option Nat) : SameVals h (h.alloc a ⟨c.val, prev, next⟩) := by
  intro b
  by_cases hb : b = a
  · rw [hb, Cells.alloc_self, hc, Option.map_some, Option.map_some]
  · rw [h.alloc_other _ hb]

theorem SameVals.trans {h h' h'' : Cells PageId} (h1 : SameVals h h') (h2 : SameVals h' h'') :
    SameVals h h'' :=
  fun a => (h2 a).trans (h1 a)

theorem SameVals.page {h h' : Cells PageId} (hv : SameVals h h') {a : Nat} {p : PageId}
    (ha : ∃ c, h a = some c ∧ c.val = p) : ∃ c, h' a = some c ∧ c.val = p := by
  obtain ⟨c, hc, rfl⟩ := ha
  have h1 := hv a
  rw [hc, Option.map_some] at h1
  exact Option.map_eq_some_iff.mp h1

/-- Unlinking the node between two segments joins them. -/
theorem unlink_spec {h : Cells PageId} {n : Nat} {xs ys : List Nat}
    (hs : h.Seg head (xs ++ n :: ys) tail) (hnd : (head :: (xs ++ n :: ys ++ [tail])).Nodup) :
    ∃ h', unlink h n = some h' ∧ h'.Seg head (xs ++ ys) tail ∧ SameVals h h' := by
  obtain ⟨h1, h2⟩ := Cells.seg_append.mp hs
  have hsub : (head :: (xs ++ ys ++ [tail])).Sublist (head :: (xs ++ n :: ys ++ [tail])) := by
    simp
  have hnd' := hnd.sublist hsub
  -- the two neighbours
  obtain ⟨cn, hcn, hnext⟩ := Cells.isSome_of_nextOf h2.next
  have hprev : cn.prev = some (xs.getLastD head) := by
    rw [← Cells.prevOf_eq hcn, h1.prev]
  obtain ⟨cs, hcs, -⟩ := Cells.isSome_of_prevOf h2.prev_head
  obtain ⟨cp, hcp, -⟩ := Cells.isSome_of_nextOf h1.next_last
  have hne : ys.headD tail ≠ xs.getLastD head := by
    intro heq
    have hp := Cells.mem_getLastD xs head
    have hs' := Cells.mem_headD ys tail
    rw [heq] at hs'
    rw [List.append_assoc, ← List.cons_append] at hnd'
    exact List.disjoint_of_nodup_append hnd' hp hs'
  refine ⟨(h.alloc (xs.getLastD head) { cp with next := some (ys.headD tail) }).alloc
    (ys.headD tail) { cs with prev := some (xs.getLastD head) }, ?_, ?_, ?_⟩
  · simp only [unlink, hcn, hprev, hnext, Option.bind_eq_bind, Option.bind_some,
      Cells.store_of_some hcp]
    rw [Cells.store_of_some (by rw [h.alloc_other _ hne]; exact hcs)]
  · refine h1.join h2 hnd' ⟨?_, ?_⟩ ?_ ?_
    · rw [Cells.nextOf_alloc, if_neg (Ne.symm hne), Cells.nextOf_alloc, if_pos rfl]
    · rw [Cells.prevOf_alloc, if_pos rfl]
    · intro c _ hc
      rw [Cells.nextOf_alloc, Cells.nextOf_alloc, if_neg hc]
      split
      · next heq => rw [heq, Cells.nextOf_eq hcs]
      · rfl
    · intro c _ hc
      rw [Cells.prevOf_alloc, if_neg hc, Cells.prevOf_alloc]
      split
      · next heq => rw [heq, Cells.prevOf_eq hcp]
      · rfl
  · have hcs' : (h.alloc (xs.getLastD head) { cp with next := some (ys.headD tail) })
        (ys.headD tail) = some cs := by
      rw [h.alloc_other _ hne]
      exact hcs
    exact (SameVals.alloc hcp _ _).trans (SameVals.alloc hcs' _ _)

/-- Linking a node in front of `tail_` puts it at the end of the list. -/
theorem linkLast_spec {h : Cells PageId} {n : Nat} {l : List Nat} {cn : Cell PageId}
    (hs : h.Seg head l tail) (hnd : (head :: (l ++ [tail])).Nodup)
    (hn : n ∉ head :: (l ++ [tail])) (hcn : h n = some cn) :
    ∃ h', linkLast h n = some h' ∧ h'.Seg head (l ++ [n]) tail ∧ SameVals h h' := by
  obtain ⟨ct, hct, hprev⟩ := Cells.isSome_of_prevOf hs.prev
  have hmem := Cells.mem_getLastD l head
  have hnp : l.getLastD head ≠ n := by
    intro heq
    rw [heq] at hmem
    exact hn (by rw [← List.cons_append]; exact List.mem_append_left _ hmem)
  have hnt : tail ≠ n := by
    intro heq
    exact hn (by rw [← heq]; simp)
  have htp : tail ≠ l.getLastD head := by
    intro heq
    rw [← List.cons_append] at hnd
    exact List.disjoint_of_nodup_append hnd hmem (by rw [← heq]; simp)
  obtain ⟨cp, hcp, -⟩ := Cells.isSome_of_nextOf hs.next_last
  refine ⟨((h.alloc n { cn with prev := some (l.getLastD head), next := some tail }).alloc
    (l.getLastD head) { cp with next := some n }).alloc tail { ct with prev := some n }, ?_, ?_, ?_⟩
  · simp only [linkLast, hct, hprev, Option.bind_eq_bind, Option.bind_some,
      Cells.store_of_some hcn]
    rw [Cells.store_of_some (by rw [h.alloc_other _ hnp]; exact hcp), Option.bind_some,
      Cells.store_of_some (by rw [Cells.alloc_other _ _ htp, h.alloc_other _ hnt]; exact hct)]
  · refine hs.snoc hnd hn ⟨?_, ?_⟩ ⟨?_, ?_⟩ ?_ ?_
    · rw [Cells.nextOf_alloc, if_neg (Ne.symm htp), Cells.nextOf_alloc, if_pos rfl]
    · rw [Cells.prevOf_alloc, if_neg (Ne.symm hnt), Cells.prevOf_alloc, if_neg (Ne.symm hnp),
        Cells.prevOf_alloc, if_pos rfl]
    · rw [Cells.nextOf_alloc, if_neg (Ne.symm hnt), Cells.nextOf_alloc, if_neg (Ne.symm hnp),
        Cells.nextOf_alloc, if_pos rfl]
    · rw [Cells.prevOf_alloc, if_pos rfl]
    · intro c hc hcp'
      have hcn' : c ≠ n := by
        rintro rfl
        exact hn (by rw [← List.cons_append]; exact List.mem_append_left _ hc)
      have hct' : c ≠ tail := by
        rintro rfl
        rw [← List.cons_append] at hnd
        exact List.disjoint_of_nodup_append hnd hc (by simp)
      rw [Cells.nextOf_alloc, if_neg hct', Cells.nextOf_alloc, if_neg hcp', Cells.nextOf_alloc,
        if_neg hcn']
    · intro c hc
      have hcn' : c ≠ n := by
        rintro rfl
        exact hn (List.mem_cons_of_mem _ (List.mem_append_left _ hc))
      have hct' : c ≠ tail := by
        rintro rfl
        exact List.disjoint_of_nodup_append (List.nodup_cons.mp hnd).2 hc (by simp)
      rw [Cells.prevOf_alloc, if_neg hct', Cells.prevOf_alloc, Cells.prevOf_alloc, if_neg hcn']
      split
      · next heq => rw [heq, Cells.prevOf_eq hcp]
      · rfl
  · have hcp' : (h.alloc n { cn with prev := some (l.getLastD head), next := some tail })
        (l.getLastD head) = some cp := by
      rw [h.alloc_other _ hnp]
      exact hcp
    have hct' : ((h.alloc n { cn with prev := some (l.getLastD head), next := some tail }).alloc
        (l.getLastD head) { cp with next := some n }) tail = some ct := by
      rw [Cells.alloc_other _ _ htp, h.alloc_other _ hnt]
      exact hct
    exact ((SameVals.alloc hcn _ _).trans (SameVals.alloc hcp' _ _)).trans (SameVals.alloc hct' _ _)

variable {l : LruList} {xs ys : List (Nat × PageId)} {n : Nat} {p : PageId}

/-- The addresses of the list without one node. -/
theorem Repr.nodup_erase (h : l.Repr (xs ++ (n, p) :: ys)) :
    (head :: ((xs ++ ys).map Prod.fst ++ [tail])).Nodup ∧
      n ∉ head :: ((xs ++ ys).map Prod.fst ++ [tail]) := by
  have hperm : (head :: ((xs ++ (n, p) :: ys).map Prod.fst ++ [tail])).Perm
      (n :: head :: ((xs ++ ys).map Prod.fst ++ [tail])) := by
    simp only [List.map_append, List.map_cons, List.append_assoc, List.cons_append]
    exact (List.Perm.cons head List.perm_middle).trans (List.Perm.swap _ _ _)
  have hnd := (hperm.nodup_iff).mp h.nodup
  obtain ⟨hn, hnd'⟩ := List.nodup_cons.mp hnd
  exact ⟨hnd', hn⟩

theorem Repr.unlinked (h : l.Repr (xs ++ (n, p) :: ys)) :
    ∃ nodes, unlink l.nodes n = some nodes ∧
      nodes.Seg head ((xs ++ ys).map Prod.fst) tail ∧ SameVals l.nodes nodes := by
  have hseg := h.seg
  have hnd := h.nodup
  rw [List.map_append, List.map_cons] at hseg hnd
  obtain ⟨nodes, hu, hs, hv⟩ := unlink_spec hseg hnd
  exact ⟨nodes, hu, by rwa [List.map_append], hv⟩

/-- `remove` takes the node out. -/
theorem Repr.remove (h : l.Repr (xs ++ (n, p) :: ys)) :
    ∃ l', l.remove n = some l' ∧ l'.Repr (xs ++ ys) := by
  obtain ⟨nodes, hu, hs, hv⟩ := h.unlinked
  obtain ⟨hnd, -⟩ := h.nodup_erase
  refine ⟨{ l with nodes := nodes, size := l.size - 1 }, ?_, hs, hnd, ?_, ?_, ?_⟩
  · simp only [LruList.remove, hu, Option.bind_eq_bind, Option.bind_some]
  · intro e he
    exact hv.page (h.page e (by simp only [List.mem_append, List.mem_cons] at he ⊢; tauto))
  · intro a ha
    exact h.lt_fresh a (by simp only [List.map_append, List.map_cons, List.mem_cons,
      List.mem_append] at ha ⊢; tauto)
  · show l.size - 1 = _
    rw [h.size]
    simp

/-- `move_to_mru` moves the node to the end. -/
theorem Repr.moveToMru (h : l.Repr (xs ++ (n, p) :: ys)) :
    ∃ l', l.moveToMru n = some l' ∧ l'.Repr (xs ++ ys ++ [(n, p)]) := by
  obtain ⟨nodes, hu, hs, hv⟩ := h.unlinked
  obtain ⟨hnd, hn⟩ := h.nodup_erase
  obtain ⟨c, hc, hcp⟩ := hv.page (h.page (n, p) (by simp))
  obtain ⟨nodes', hl, hs', hv'⟩ := linkLast_spec hs hnd hn hc
  refine ⟨{ l with nodes := nodes' }, ?_, ?_, ?_, ?_, ?_, ?_⟩
  · simp only [LruList.moveToMru, hu, hl, Option.bind_eq_bind, Option.bind_some]
  · rw [List.map_append]
    exact hs'
  · have hperm : (head :: ((xs ++ ys ++ [(n, p)]).map Prod.fst ++ [tail])).Perm
        (n :: head :: ((xs ++ ys).map Prod.fst ++ [tail])) := by
      simp only [List.map_append, List.map_cons, List.map_nil, List.append_assoc, List.cons_append,
        List.nil_append]
      refine (List.Perm.cons head ?_).trans (List.Perm.swap _ _ _)
      rw [← List.append_assoc, ← List.append_assoc]
      exact List.perm_middle
    exact hperm.nodup_iff.mpr (List.nodup_cons.mpr ⟨hn, hnd⟩)
  · intro e he
    exact (hv.trans hv').page
      (h.page e (by simp only [List.mem_append, List.mem_cons, List.not_mem_nil] at he ⊢; tauto))
  · intro a ha
    exact h.lt_fresh a (by simp only [List.map_append, List.map_cons, List.map_nil, List.mem_cons,
      List.mem_append, List.not_mem_nil] at ha ⊢; tauto)
  · show l.size = _
    rw [h.size]
    simp only [List.length_append, List.length_cons, List.length_nil]
    omega

/-- `add_to_mru` puts a new node at the end. -/
theorem Repr.addToMru (h : l.Repr xs) (p : PageId) :
    ∃ l', l.addToMru p = some (l.fresh, l') ∧ l'.Repr (xs ++ [(l.fresh, p)]) := by
  have hn : l.fresh ∉ head :: (xs.map Prod.fst ++ [tail]) := by
    intro hmem
    exact absurd (h.lt_fresh _ hmem) (Nat.lt_irrefl _)
  have hold : ∀ a ∈ head :: (xs.map Prod.fst ++ [tail]),
      (l.nodes.alloc l.fresh ⟨p, none, none⟩) a = l.nodes a := by
    intro a ha
    refine l.nodes.alloc_other _ ?_
    rintro rfl
    exact hn ha
  have hseg : (l.nodes.alloc l.fresh ⟨p, none, none⟩).Seg head (xs.map Prod.fst) tail := by
    refine h.seg.congr ?_ ?_
    · intro c hc
      rw [Cells.nextOf, hold c (by rw [← List.cons_append]; exact List.mem_append_left _ hc),
        Cells.nextOf]
    · intro c hc
      rw [Cells.prevOf, hold c (List.mem_cons_of_mem _ hc), Cells.prevOf]
  obtain ⟨nodes, hl, hs, hv⟩ := linkLast_spec hseg h.nodup hn (Cells.alloc_self _ _ _)
  refine ⟨{ nodes := nodes, fresh := l.fresh + 1, size := l.size + 1 }, ?_, ?_, ?_, ?_, ?_, ?_⟩
  · simp only [LruList.addToMru, hl, Option.bind_eq_bind, Option.bind_some]
  · rw [List.map_append]
    exact hs
  · have hperm : (head :: ((xs ++ [(l.fresh, p)]).map Prod.fst ++ [tail])).Perm
        (l.fresh :: head :: (xs.map Prod.fst ++ [tail])) := by
      simp only [List.map_append, List.map_cons, List.map_nil, List.append_assoc, List.cons_append,
        List.nil_append]
      exact (List.Perm.cons head List.perm_middle).trans (List.Perm.swap _ _ _)
    exact hperm.nodup_iff.mpr (List.nodup_cons.mpr ⟨hn, h.nodup⟩)
  · intro e he
    rcases List.mem_append.mp he with he | he
    · refine hv.page ?_
      have hmem : e.1 ∈ head :: (List.map Prod.fst xs ++ [tail]) :=
        List.mem_cons_of_mem _ (List.mem_append_left _ (List.mem_map_of_mem he))
      rw [hold e.1 hmem]
      exact h.page e he
    · rw [List.mem_singleton.mp he]
      exact hv.page ⟨_, Cells.alloc_self _ _ _, rfl⟩
  · intro a ha
    show a < l.fresh + 1
    simp only [List.map_append, List.map_cons, List.map_nil, List.mem_cons, List.mem_append,
      List.not_mem_nil, or_false] at ha
    by_cases hfresh : a = l.fresh
    · omega
    · have := h.lt_fresh a (by simp only [List.mem_cons, List.mem_append, List.not_mem_nil]; tauto)
      omega
  · show l.size + 1 = _
    rw [h.size, List.length_append]
    rfl

end Poseidon.LruList
