import Poseidon.Lib.Along
import Poseidon.Proofs.IndexReads

/-!
# Indexes over whole runs

The system with indexes runs like the one without, as far as the store goes
(`IndexedSys.step_sys`), so the invariant of the store is there in every
clean run, and with it the versions that the slots hold. What remains is
that the indexes are right for these versions in every state that is reached
by steps that meet the conditions of the index code: a commit those of
`CommitFits`, and a new index those of `CreateFits`. What a commit erases from
a tree, the tree has to erase and nothing else (`CommitErases`).

Without these conditions a lookup misses nodes: a tree has one node for each
value, so of two nodes with the same value it knows the last.
-/

namespace Poseidon

open Wp History

variable {B : KeyMap Nat Nat} {d : Dict}

/-- The transaction that a step commits. -/
def Step.commits : Step → Option Nat
  | .commit xid => some xid
  | _ => none

namespace IndexedSys

/-- What is asked of a step. -/
def Fits (d : Dict) (s : IndexedSys B) : IndexedStep → Prop
  | .call a => s.sys.Clean a ∧ ∀ xid ∈ a.commits, (s.sys.db.txs xid).running = true →
      CommitFits d s.indexes s.sys.db [] (s.sys.db.txs xid).dirtyNodes
  | .createIndex xid nodeLabel propName => s.sys.Awake xid ∧
      ((s.sys.db.txs xid).running = true → s.indexes (indexName nodeLabel propName) = none →
        CreateFits d s.sys.db xid nodeLabel propName)

/-- A run of such steps. -/
def FitsRun (d : Dict) (s : IndexedSys B) : List IndexedStep → Prop
  | [] => True
  | a :: as => s.Fits d a ∧ (s.step d a).FitsRun d as

instance {s : IndexedSys B} {a : IndexedStep} : Decidable (s.Fits d a) :=
  match a with
  | .call a => inferInstanceAs (Decidable (s.sys.Clean a ∧ ∀ xid ∈ a.commits, _))
  | .createIndex .. => inferInstanceAs (Decidable (s.sys.Awake _ ∧ (_ → _ → _)))

/-- Such runs can be checked by running them. -/
def decideFitsRun (d : Dict) (s : IndexedSys B) :
    (as : List IndexedStep) → Decidable (s.FitsRun d as)
  | [] => isTrue trivial
  | a :: as =>
      have := (s.step d a).decideFitsRun d as
      inferInstanceAs (Decidable (s.Fits d a ∧ (s.step d a).FitsRun d as))

instance {s : IndexedSys B} {as : List IndexedStep} : Decidable (s.FitsRun d as) :=
  s.decideFitsRun d as

/-- The trees erase what the step erases from them. -/
def Erases (d : Dict) (s : IndexedSys B) : IndexedStep → Prop
  | .call (.commit xid) => (s.sys.db.txs xid).running = true →
      CommitErases d s.sys.db s.indexes [] (s.sys.db.txs xid).dirtyNodes
  | _ => True

/-- A run of such steps. -/
def ErasesRun (d : Dict) : IndexedSys B → List IndexedStep → Prop := Along (step d) (Erases d)

/-- The invariant of the system: that of the store, and right indexes. -/
structure Inv (d : Dict) (top : Nat) (L : Log) (s : IndexedSys B) : Prop where
  sys : s.sys.Inv top L
  sound : s.sys.db.Sound
  indexed : Indexed s.indexes (d.holds s.sys.db.heldNode)

variable {s : IndexedSys B} {top : Nat} {L : Log}

/-- The slots hold the newest versions. -/
theorem heldNode_eq {db : GraphDb} (h : db.Inv top L) :
    db.heldNode = fun id => newestNode (L.nodes id) :=
  funext fun id => (h.nodes.slots id).heldNode

/-- A call that is no commit publishes no version. -/
theorem Inv.call {a : Step} (h : s.Inv d top L) (hc : s.sys.Clean a)
    (ha : ∀ xid, a ≠ .commit xid) :
    ∃ top' L', (IndexedSys.mk (s.sys.step a) s.indexes : IndexedSys B).Inv d top' L' := by
  obtain ⟨top', h'⟩ := h.sys.step hc
  have hlog : L.step s.sys a = L := by
    cases a with
    | commit xid => exact absurd rfl (ha xid)
    | _ => rfl
  rw [hlog] at h'
  refine ⟨top', L, h', Sys.step_sound a h.sound, ?_⟩
  show Indexed s.indexes (d.holds (s.sys.step a).db.heldNode)
  rw [heldNode_eq h'.db, ← heldNode_eq h.sys.db]
  exact h.indexed

/-- What a commit has published is in the slots afterwards. -/
theorem holds_commit {T : Nat} (h : s.sys.db.Inv top L) (hact : Active top s.sys.db T)
    (name : String) (v id : Nat) :
    d.holds (s.sys.step (.commit T)).db.heldNode name v id ↔
      d.holds (s.sys.db.midCommit (s.sys.db.txs T).dirtyNodes) name v id := by
  obtain ⟨hext, hexit⟩ := Sys.commit_extended h hact
  rw [heldNode_eq hexit.inv, Dict.holds, Dict.holds, GraphDb.midCommit]
  by_cases hid : id ∈ (s.sys.db.txs T).dirtyNodes
  · obtain ⟨c, hc, dn, hf, hdel, hlive⟩ := hext.nodes id hid
    obtain ⟨tl, htl⟩ := hf.list
    rw [if_pos hid, hc, GraphDb.dirtyNode, htl]
    by_cases hcts : dn.elem.cts = INF
    · obtain ⟨items, hperm, rfl⟩ := hlive hcts
      have hlabel : (nodeImg (nodeTable.record s.sys.db id) dn).2 = dn.elem.data.nodeLabel := by
        simp only [nodeImg, commitImg, nodeScheme]
        split
        · rfl
        · rfl
      simp only [newestNode, hlabel, hcts, if_true, Option.mem_def, Option.some.injEq,
        exists_eq_left']
      exact Dict.mem_entries_perm hperm
    · rw [hdel hcts]
      simp [newestNode, hcts]
  · rw [if_neg hid, hext.otherNodes id hid, heldNode_eq h]

/-- What a call does to the store and the indexes. -/
theorem onStore_of_always {β : Type} {x : IxM B β} {P : IndexedDb B → Prop}
    (h : always x P ⟨s.sys.db, s.indexes⟩) :
    ∃ s', P s' ∧ s.onStore x = ⟨{ s.sys with db := s'.db }, s'.indexes⟩ := by
  simp only [always, wp] at h
  rw [IndexedSys.onStore]
  cases hx : x ⟨s.sys.db, s.indexes⟩ with
  | ok b s' =>
      rw [hx] at h
      exact ⟨s', h, rfl⟩
  | error e s' =>
      rw [hx] at h
      exact ⟨s', h, rfl⟩

/-- A commit does to the store what it does without indexes. -/
theorem Inv.commit {T : Nat} (h : s.Inv d top L) (hfits : s.Fits d (.call (.commit T)))
    (herases : s.Erases d (.call (.commit T))) :
    ∃ top' L', (s.step d (.call (.commit T))).Inv d top' L' := by
  obtain ⟨hclean, hfits⟩ := hfits
  obtain ⟨top', h'⟩ := h.sys.step hclean
  cases hr : (s.sys.db.txs T).running with
  | false =>
      have hrefuse : always (commitTransactionIndexed d T) (· = ⟨s.sys.db, s.indexes⟩)
          (⟨s.sys.db, s.indexes⟩ : IndexedDb B) := by
        simp only [commitTransactionIndexed, always, wp_bind, wp_onDb]
        refine wp_checkTxContext.mpr ⟨fun hrun => ?_, fun _ => rfl⟩
        rw [hr] at hrun
        cases hrun
      obtain ⟨s', rfl, hstep⟩ := onStore_of_always hrefuse
      rw [IndexedSys.step, hstep]
      exact ⟨top, L, h⟩
  | true =>
      have hact := h.sys.db.active _ (hclean hr)
      have hspec := commitTransactionIndexed_spec (s := ⟨s.sys.db, s.indexes⟩) h.sys.db h.sound
        hact h.indexed (hfits T rfl hr) (herases hr)
      have hends : always (commitTransactionIndexed d T)
          (fun s' => { s.sys with db := s'.db } = s.sys.step (.commit T) ∧
            Committed d T ⟨s.sys.db, s.indexes⟩ s')
          (⟨s.sys.db, s.indexes⟩ : IndexedDb B) := by
        refine wp_mono hspec (fun b s' hs' => ⟨?_, hs'.2⟩) fun e s' hs' => ⟨?_, hs'.2⟩
        · simp only [Sys.step, Sys.exec, Sys.call, hs'.1]
        · simp only [Sys.step, Sys.exec, Sys.call, hs'.1]
      obtain ⟨s', ⟨hdb, hcommitted⟩, hstep⟩ := onStore_of_always hends
      rw [IndexedSys.step, hstep, hdb]
      refine ⟨top', L.step s.sys (.commit T), h', Sys.step_sound _ h.sound, ?_⟩
      exact hcommitted.indexed.congr fun name _ => holds_commit h.sys.db hact name

theorem Inv.createIndex {T : Nat} {nodeLabel propName : String} (h : s.Inv d top L)
    (hfits : s.Fits d (.createIndex T nodeLabel propName)) :
    (s.step d (.createIndex T nodeLabel propName)).Inv d top L := by
  obtain ⟨hawake, hfits⟩ := hfits
  obtain ⟨s', ⟨hdb, hix⟩, hstep⟩ := onStore_of_always (createIndex_spec
    (s := ⟨s.sys.db, s.indexes⟩) h.sys.db h.sound
    (fun hr => h.sys.db.active _ (hawake hr)) h.indexed hfits)
  rw [IndexedSys.step, hstep, hdb]
  exact ⟨h.sys, h.sound, hix⟩

/-- A step that meets its conditions keeps the invariant. -/
theorem Inv.step {a : IndexedStep} (h : s.Inv d top L) (hfits : s.Fits d a)
    (herases : s.Erases d a) :
    ∃ top' L', (s.step d a).Inv d top' L' := by
  cases a with
  | createIndex T nodeLabel propName => exact ⟨top, L, h.createIndex hfits⟩
  | call a =>
      by_cases ha : ∃ xid, a = .commit xid
      · obtain ⟨xid, rfl⟩ := ha
        exact h.commit hfits herases
      · have hne : ∀ xid, a ≠ .commit xid := fun xid heq => ha ⟨xid, heq⟩
        have hstep : s.step d (.call a) = ⟨s.sys.step a, s.indexes⟩ := by
          cases a with
          | commit xid => exact absurd rfl (hne xid)
          | _ => rfl
        rw [hstep]
        exact h.call hfits.1 hne

/-- And so does a run. -/
theorem Inv.run {as : List IndexedStep} (h : s.Inv d top L) (hfits : s.FitsRun d as)
    (herases : s.ErasesRun d as) :
    ∃ top' L', (s.run d as).Inv d top' L' := by
  induction as generalizing s top L with
  | nil => exact ⟨top, L, h⟩
  | cons a as ih =>
      obtain ⟨top', L', h'⟩ := h.step hfits.1 herases.1
      exact ih h' hfits.2 herases.2

/-- A new database has no indexes. -/
theorem inv_initial : (initial : IndexedSys B).Inv d 0 Log.empty :=
  ⟨Sys.inv_initial, Sys.run_sound [], fun _ _ htree => (by cases htree)⟩

end IndexedSys

/-- In every state that a run reaches whose steps meet the conditions of the
index code, and whose trees erase what they are asked to, a lookup yields what
the filtered scan yields. -/
theorem index_lookup_eq_scan {as : List IndexedStep}
    (hfits : (IndexedSys.initial : IndexedSys B).FitsRun d as)
    (herases : (IndexedSys.initial : IndexedSys B).ErasesRun d as) {T v : Nat}
    {nodeLabel propName : String} {tree : B.Map}
    (hT : T ∈ (IndexedSys.initial.run d as : IndexedSys B).sys.db.activeTx)
    (hs : (IndexedSys.initial.run d as : IndexedSys B).sys.db.Settled T)
    (hn : NameFits d (IndexedSys.initial.run d as : IndexedSys B).sys.db nodeLabel propName)
    (htree : (IndexedSys.initial.run d as).indexes (indexName nodeLabel propName) = some tree) :
    (nodesByLabel (IndexedSys.initial.run d as : IndexedSys B).sys.db T
      (d.lookupString nodeLabel)).ended = none ∧
    Returns (indexLookup T tree v) (IndexedSys.initial.run d as : IndexedSys B).sys.db
      ((nodesByLabel (IndexedSys.initial.run d as : IndexedSys B).sys.db T
        (d.lookupString nodeLabel)).delivered.filter
        (hasValue (IndexedSys.initial.run d as : IndexedSys B).sys.db
          (d.lookupString propName) v)) := by
  obtain ⟨top, L, h⟩ := IndexedSys.inv_initial.run hfits herases
  exact hs.indexLookup h.sys.db h.sound (h.sys.db.active T hT) hn (h.indexed _ _ htree)

/-- A dictionary whose codes are the lengths of their strings. -/
def Dict.unary : Dict where
  lookupCode c := String.ofList (List.replicate c 'a')
  lookupString s := s.length
  lookupString_lookupCode c := by simp

/-- A system with indexes as functions. -/
abbrev PlainSys := IndexedSys (KeyMap.ofFun Nat Nat)

theorem commitErases_ofFun (s : GraphDb) {rem : List Nat} :
    ∀ (ix : IndexMap (KeyMap.ofFun Nat Nat)) (pre : List Nat), CommitErases d s ix pre rem := by
  induction rem with
  | nil => exact fun _ _ => trivial
  | cons id rem ih =>
      intro ix pre
      rw [CommitErases]
      split
      · exact ih _ _
      · exact ⟨fun _ _ e _ tree _ => KeyMap.erases_ofFun tree e.2, ih _ _⟩

/-- Functions erase what they are asked to. -/
theorem erasesRun_ofFun {as : List IndexedStep} :
    ∀ s : PlainSys, IndexedSys.ErasesRun d s as := by
  induction as with
  | nil => exact fun _ => trivial
  | cons a as ih =>
      intro s
      refine ⟨?_, ih _⟩
      cases a with
      | call a =>
          cases a with
          | commit xid => exact fun _ => commitErases_ofFun _ _ _
          | _ => trivial
      | createIndex xid nodeLabel propName => trivial

def oneItem (key value : Nat) (h : key ≠ 0) : Properties :=
  ⟨[⟨key, .int, value⟩], by simp [h, Typecode.stored], by simp⟩

/-- Two nodes are inserted under an index, then one is updated and the other
one is deleted. -/
def maintainedRun : List IndexedStep :=
  [.call (.begin 10), .createIndex 10 "a" "aa",
   .call (.addNode 10 0 1 (oneItem 2 48 (by decide))),
   .call (.addNode 10 1 1 (oneItem 2 49 (by decide))), .call (.commit 10),
   .call (.begin 20), .call (.nodeById 20 0),
   .call (.updateNode 20 ⟨0, .slot⟩ (oneItem 2 50 (by decide)) 0), .call (.deleteNode 20 1),
   .call (.commit 20), .call (.begin 30)]

theorem index_lookup_eq_scan_maintained :
    ∃ tree, (IndexedSys.initial.run Dict.unary maintainedRun : PlainSys).indexes
        (indexName "a" "aa") = some tree ∧
      (nodesByLabel (IndexedSys.initial.run Dict.unary maintainedRun : PlainSys).sys.db 30
        (Dict.unary.lookupString "a")).ended = none ∧
      Returns (indexLookup 30 tree 50)
        (IndexedSys.initial.run Dict.unary maintainedRun : PlainSys).sys.db
        ((nodesByLabel (IndexedSys.initial.run Dict.unary maintainedRun : PlainSys).sys.db 30
          (Dict.unary.lookupString "a")).delivered.filter
          (hasValue (IndexedSys.initial.run Dict.unary maintainedRun : PlainSys).sys.db
            (Dict.unary.lookupString "aa") 50)) ∧
      (nodesByLabel (IndexedSys.initial.run Dict.unary maintainedRun : PlainSys).sys.db 30
          (Dict.unary.lookupString "a")).delivered.filter
          (hasValue (IndexedSys.initial.run Dict.unary maintainedRun : PlainSys).sys.db
            (Dict.unary.lookupString "aa") 50) = [⟨0, .slot⟩] := by
  have hsome : ((IndexedSys.initial.run Dict.unary maintainedRun : PlainSys).indexes
      (indexName "a" "aa")).isSome = true := by decide +kernel
  obtain ⟨tree, htree⟩ := Option.isSome_iff_exists.mp hsome
  obtain ⟨hended, hlookup⟩ := index_lookup_eq_scan (T := 30) (v := 50)
    (show IndexedSys.FitsRun Dict.unary (IndexedSys.initial : PlainSys) maintainedRun by
      decide +kernel) (erasesRun_ofFun _) (by decide +kernel) (by decide +kernel)
        (by decide +kernel) htree
  exact ⟨tree, htree, hended, hlookup, by decide +kernel⟩

/-! ## Where lookups and scans differ -/

/-- A lookup yields at most one node. -/
theorem indexLookup_length {T v : Nat} {tree : B.Map} {s : GraphDb} {ns : List Ref}
    (h : Returns (indexLookup T tree v) s ns) : ns.length ≤ 1 := by
  rw [returns_iff, indexLookup] at h
  cases hl : B.lookup tree v with
  | none =>
      simp only [hl, wp_pure] at h
      rw [← h]
      exact Nat.zero_le 1
  | some id =>
      simp only [hl, wp_bind, wp_pure] at h
      obtain ⟨n, s', _, hn⟩ := wp_exists h
      rw [← hn]
      exact Nat.le_refl 1

/-- Two nodes with one value are inserted under an index. -/
def sameValueRun : List IndexedStep :=
  [.call (.begin 10), .createIndex 10 "a" "aa",
   .call (.addNode 10 0 1 (oneItem 2 48 (by decide))),
   .call (.addNode 10 1 1 (oneItem 2 48 (by decide))), .call (.commit 10),
   .call (.begin 20)]

theorem index_lookup_misses_node :
    ∃ tree, (IndexedSys.initial.run Dict.unary sameValueRun : PlainSys).indexes
        (indexName "a" "aa") = some tree ∧
      ¬ Returns (indexLookup 20 tree 48)
        (IndexedSys.initial.run Dict.unary sameValueRun : PlainSys).sys.db
        ((nodesByLabel (IndexedSys.initial.run Dict.unary sameValueRun : PlainSys).sys.db 20
          (Dict.unary.lookupString "a")).delivered.filter
          (hasValue (IndexedSys.initial.run Dict.unary sameValueRun : PlainSys).sys.db
            (Dict.unary.lookupString "aa") 48)) := by
  have hsome : ((IndexedSys.initial.run Dict.unary sameValueRun : PlainSys).indexes
      (indexName "a" "aa")).isSome = true := by decide +kernel
  obtain ⟨tree, htree⟩ := Option.isSome_iff_exists.mp hsome
  refine ⟨tree, htree, fun hlookup => ?_⟩
  have hlen : ((nodesByLabel
      (IndexedSys.initial.run Dict.unary sameValueRun : PlainSys).sys.db 20
        (Dict.unary.lookupString "a")).delivered.filter
        (hasValue (IndexedSys.initial.run Dict.unary sameValueRun : PlainSys).sys.db
          (Dict.unary.lookupString "aa") 48)).length = 2 := by decide +kernel
  have hle := indexLookup_length hlookup
  omega

end Poseidon
