import Poseidon.Proofs.Publishing

/-!
# A transaction commits

The commit of a transaction is the loop over the two dirty lists, then the
end of the transaction, then the collection of garbage. Seen from one table,
the loop over its own list publishes the records one by one, and everything
else is steady or frees slots that show nothing. A commit that got as far as
ending its transaction therefore follows the history with no new slots left,
also when the collection fails.
-/

namespace Poseidon.Temporal

open Wp

section Tables

variable {ε δ γ : Type} {t : Table ε δ γ} {T : Nat → Timeline Nat} {s s' : GraphDb}
variable {q : List Task} {xid id : Nat} {l : List Nat}

/-! ## One item of garbage -/

/-- A record that still has versions is passed over. -/
theorem Table.Publishing.kept (h : t.Publishing T [] q s') (hd : t.discarded s' = t.discarded s) :
    t.Swept T q id s false s' := ⟨s', rfl, h, hd⟩

/-- Any other is freed. -/
theorem Table.Publishing.freed (h : t.Publishing T [] q s') (hd : t.discarded s' = t.discarded s) :
    t.Swept T q id s true (t.free id s') := ⟨s', rfl, h, hd⟩

variable [t.Laws]

theorem discarded_setRecord (id : Nat) (r : Record (Versioned ε)) :
    t.discarded (t.setRecord id r s) = t.discarded s := (steady_setRecord id r s).discarded

end Tables

section Items

variable {T : Nat → Timeline Nat} {s s' : GraphDb} {q : List Task} {xid id : Nat} {l : List Nat}

theorem vacuumNode_swept (h : nodeTable.Publishing T [] q s) :
    wp (vacuumItem ⟨xid, id, nodeTable.gcType⟩) (fun b s' => nodeTable.Swept T q id s b s')
      (fun _ s' => nodeTable.Publishing T [] q s') s := by
  change wp (do
    let n := (← nodeTable.getRecord id).gc (← get).oldestXid
    modify (nodeTable.setRecord id n)
    if n.hasDirtyVersions then return false
    modify (nodeTable.free id)
    return true) _ _ s
  rw [wp_bind, wp_getRecord]
  split
  · rw [wp_get_bind, wp_modify_bind]
    have hgc := h.gc id
    have hd := discarded_setRecord (t := nodeTable) (s := s) id
      ((nodeTable.record s id).gc s.oldestXid)
    refine wp_ite (fun _ => hgc.kept hd) fun _ => ?_
    rw [wp_modify_bind]
    exact hgc.freed hd
  · exact h

theorem vacuumRship_swept (h : rshipTable.Publishing T [] q s) :
    wp (vacuumItem ⟨xid, id, rshipTable.gcType⟩) (fun b s' => rshipTable.Swept T q id s b s')
      (fun _ s' => rshipTable.Publishing T [] q s') s := by
  change wp (do
    let r := (← rshipTable.getRecord id).gc (← get).oldestXid
    modify (rshipTable.setRecord id r)
    if r.hasDirtyVersions then return false
    let l := r.obj.data.links
    unlinkFrom NodeLinks.fromRshipList (fun h n => { n with fromRshipList := h })
      RshipLinks.nextSrcRship (fun h x => { x with nextSrcRship := h })
      l.srcNode id l.nextSrcRship
    unlinkFrom NodeLinks.toRshipList (fun h n => { n with toRshipList := h })
      RshipLinks.nextDestRship (fun h x => { x with nextDestRship := h })
      l.destNode id l.nextDestRship
    modify (rshipTable.free id)
    return true) _ _ s
  rw [wp_bind, wp_getRecord]
  split
  · rw [wp_get_bind, wp_modify_bind]
    have hgc := h.gc id
    have hd := discarded_setRecord (t := rshipTable) (s := s) id
      ((rshipTable.record s id).gc s.oldestXid)
    refine wp_ite (fun _ => hgc.kept hd) fun _ => ?_
    -- the two lists are no part of a version
    rw [wp_bind]
    refine wp_mono ((keeps_unlinkFrom (R := rshipTable.Steady []) ..).always _) ?_
      fun _ s₁ hs₁ => hgc.steady hs₁
    intro _ s₁ hs₁
    rw [wp_bind]
    refine wp_mono ((keeps_unlinkFrom (R := rshipTable.Steady []) ..).always _) ?_
      fun _ s₂ hs₂ => (hgc.steady hs₁).steady hs₂
    intro _ s₂ hs₂
    rw [wp_modify_bind]
    exact ((hgc.steady hs₁).steady hs₂).freed (hs₂.discarded.trans (hs₁.discarded.trans hd))
  · exact h

theorem gcType_eq_node {g : GcItem} (h : g.itype ≠ rshipTable.gcType) : g.itype = .gcNode := by
  cases hg : g.itype with
  | gcNode => rfl
  | gcRship => exact absurd hg h

theorem gcType_eq_rship {g : GcItem} (h : g.itype ≠ nodeTable.gcType) : g.itype = .gcRship := by
  cases hg : g.itype with
  | gcNode => exact absurd hg h
  | gcRship => rfl

/-- The collector keeps the history of the nodes. -/
theorem vacuum_publishing_nodes (h : nodeTable.Publishing T [] q s) :
    always vacuum (nodeTable.Publishing T [] q) s := by
  refine vacuumLoop_publishing (fun xid id s h => vacuumNode_swept h) (fun g hg => ?_)
    s.garbage [] s h rfl
  obtain ⟨xid, id, ty⟩ := g
  cases gcType_eq_rship hg
  exact keeps_vacuumRship xid id

/-- And that of the relationships. -/
theorem vacuum_publishing_rships (h : rshipTable.Publishing T [] q s) :
    always vacuum (rshipTable.Publishing T [] q) s := by
  refine vacuumLoop_publishing (fun xid id s h => vacuumRship_swept h) (fun g hg => ?_)
    s.garbage [] s h rfl
  obtain ⟨xid, id, ty⟩ := g
  cases gcType_eq_node hg
  exact keeps_vacuumNode xid id

end Items

/-! ## The whole commit -/

section Ends

variable {ε δ γ : Type} {t : Table ε δ γ} {T : Nat → Timeline Nat} {s s' : GraphDb}
variable {q : List Task} {xid : Nat} {l l' : List Nat}

theorem Table.Publishing.widen (h : t.Publishing T l q s) (hs : t.Steady [] s s')
    (hl : ∀ id ∈ l, id ∈ l') : t.Publishing T l' q s' :=
  ⟨h.tracks.quiet hs hl, hs.queue.trans h.queue,
    fun k hk => (h.readable k hk).grows (hs.props h.tracks.bounded).2⟩

/-- The slots that a transaction has touched are those it publishes. -/
theorem Table.Follows.publishing (h : t.Follows T (some xid) s) (hs : t.Steady [] s s') :
    t.Publishing T (t.dirty (s'.txs xid)) (t.queue s) s' :=
  ⟨h.tracks.quiet hs hs.fresh, hs.queue,
    fun k hk => (h.readable k hk).grows (hs.props h.tracks.bounded).2⟩

theorem Table.Publishing.done (h : t.Publishing T [] q s) : t.Follows T none s := by
  obtain ⟨htr, rfl, hr⟩ := h
  exact ⟨htr, hr⟩

variable [t.Laws]

theorem steady_leaveActive (xid : Nat) : t.Steady [] s (leaveActive xid s) :=
  .of_side (by simp [leaveActive]) (fun _ _ => rfl) rfl rfl fun _ _ h => h

theorem steady_stop :
    t.Steady [] s (s.modifyTx xid fun x => { x with running := false }) := by
  refine .of_side (by simp [GraphDb.modifyTx]) (fun _ _ => rfl) rfl rfl fun x id h => ?_
  rw [GraphDb.modifyTx]
  dsimp only
  split
  · exact h
  · exact h

/-- The end of a commit whose records are published. -/
theorem wp_endCommit (h : t.Publishing T [] q s)
    (hv : ∀ s, t.Publishing T [] q s → always vacuum (t.Publishing T [] q) s) :
    always (do
      modify (GraphDb.modifyTx xid fun x => { x with running := false })
      vacuum
      return true) (t.Follows T none) s := by
  rw [always, wp_modify_bind, wp_bind]
  refine wp_mono (hv _ (h.steady steady_stop)) (fun _ s' h' => h'.done) fun _ s' h' => h'.done

end Ends

section Commits

variable {T : Nat → Timeline Nat} {s : GraphDb} {xid : Nat}

/-- A transaction that was left before its end still runs. -/
theorem not_stopped {s s' : GraphDb} {P : Prop} (hr : (s.txs xid).running = true)
    (h : SameTxs s s') (hf : (s'.txs xid).running = false) : P := by
  rw [h, hr] at hf
  cases hf

theorem commitDirtyNode_publishing {id : Nat} {l : List Nat} {q : List Task}
    (h : nodeTable.Publishing T (id :: l) q s) (hx : xid ≠ 0) :
    wp (commitDirtyNode xid id) (fun _ s' => nodeTable.Publishing T l q s') (fun _ _ => True) s :=
  commitDirty_publishing h hx fun _ hm => commitInsertNode_published hm

theorem commitDirtyRship_publishing {id : Nat} {l : List Nat} {q : List Task}
    (h : rshipTable.Publishing T (id :: l) q s) (hx : xid ≠ 0) :
    wp (commitDirtyRelationship xid id) (fun _ s' => rshipTable.Publishing T l q s')
      (fun _ _ => True) s :=
  commitDirty_publishing h hx fun _ hm => commitInsertRship_published hm

/-- A commit publishes the nodes of its transaction. -/
theorem commitNodes_follows (h : nodeTable.Follows T (some xid) s) (hx : xid ≠ 0)
    (hr : (s.txs xid).running = true) :
    always (commitTransaction xid)
      (fun s' => (s'.txs xid).running = false → nodeTable.Follows T none s') s := by
  rw [always, commitTransaction, wp_bind, wp_checkTxContext, if_pos hr, wp_modify_bind,
    wp_get_bind, wp_bind]
  have h₁ := h.publishing (steady_leaveActive xid)
  -- the relationships are of no interest
  refine wp_mono (wp_and
    ((keeps_forM (R := nodeTable.Steady []) fun id => keeps_commitDirtyRelationship
    xid id).always _)
    ((keeps_forM (R := SameTxs) fun id => keeps_commitDirtyRelationship xid id).always _)) ?_
    fun _ s₂ hs₂ => not_stopped hr hs₂.2
  rintro _ s₂ ⟨hs₂, hr₂⟩
  have h₂ := h₁.widen hs₂ (hs₂.dirty xid)
  rw [wp_get_bind, wp_bind]
  have hloop := wp_forM (P := fun l => nodeTable.Publishing T l (nodeTable.queue s))
    (fun id l s₃ h₃ => commitDirtyNode_publishing h₃ hx) _ s₂ h₂
  refine wp_mono (wp_and hloop
    ((keeps_forM (R := SameTxs) fun id => keeps_commitDirtyNode xid id).always _)) ?_
    fun _ s₃ hs₃ => not_stopped hr (hs₃.2.trans hr₂)
  rintro _ s₃ ⟨h₃, -⟩
  exact always_mono (wp_endCommit h₃ fun s h => vacuum_publishing_nodes h) fun _ h _ => h

/-- A commit publishes the relationships of its transaction. -/
theorem commitRships_follows (h : rshipTable.Follows T (some xid) s) (hx : xid ≠ 0)
    (hr : (s.txs xid).running = true) :
    always (commitTransaction xid)
      (fun s' => (s'.txs xid).running = false → rshipTable.Follows T none s') s := by
  rw [always, commitTransaction, wp_bind, wp_checkTxContext, if_pos hr, wp_modify_bind,
    wp_get_bind, wp_bind]
  have h₁ := h.publishing (steady_leaveActive xid)
  have hloop := wp_forM (P := fun l => rshipTable.Publishing T l (rshipTable.queue s))
    (fun id l s₂ h₂ => commitDirtyRship_publishing h₂ hx) _ _ h₁
  refine wp_mono (wp_and hloop
    ((keeps_forM (R := SameTxs) fun id => keeps_commitDirtyRelationship xid id).always _)) ?_
    fun _ s₂ hs₂ => not_stopped hr hs₂.2
  rintro _ s₂ ⟨h₂, hr₂⟩
  rw [wp_get_bind, wp_bind]
  -- the nodes are of no interest
  refine wp_mono (wp_and
    ((keeps_forM (R := rshipTable.Steady []) fun id => keeps_commitDirtyNode xid id).always _)
    ((keeps_forM (R := SameTxs) fun id => keeps_commitDirtyNode xid id).always _)) ?_
    fun _ s₃ hs₃ => not_stopped hr (hs₃.2.trans hr₂)
  rintro _ s₃ ⟨hs₃, -⟩
  have h₃ := h₂.steady hs₃
  exact always_mono (wp_endCommit h₃ fun s h => vacuum_publishing_rships h) fun _ h _ => h

end Commits

end Poseidon.Temporal
