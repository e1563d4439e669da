import Mathlib.Logic.Function.Basic
import Poseidon.Lib.Timeline
import Poseidon.Temporal.Commit

/-!
# Calls and archival tasks as steps of one system

Any number of transactions run on one temporal store, and the workers of the
thread pool beside them. A step is one call of one transaction, taken as a
whole, or one archival task; a run is a list of steps in the order they
happen. A call that ends in an exception keeps what it had changed.
-/

namespace Poseidon.Temporal

/-- A temporal write, with what the record vector returns when a new version is
stored. -/
inductive Write where
  | addNode (p : Stored) (label : Nat) (props : Properties) (vtStart vtEnd lid : Nat)
  | updateNode (id : Nat) (p : Stored) (props : Properties) (vt : Nat)
  | closeNode (id vt : Nat)
  | deleteNode (id : Nat)
  | addRship (p : Stored) (fromId toId label : Nat) (props : Properties) (vtStart vtEnd lid : Nat)
  | updateRship (id : Nat) (p : Stored) (props : Properties) (vt : Nat)
  | closeRship (id vt : Nat)
  | deleteRship (id : Nat)

/-- The call of a write. -/
def Write.exec (xid : Nat) : Write → DbM Unit
  | .addNode p label props vtStart vtEnd lid =>
      Temporal.addNode xid p label props.items vtStart vtEnd lid
  | .updateNode id p props vt => updateNodeCreateVersion xid id p props.items vt
  | .closeNode id vt => closeNodeAtVt xid id vt
  | .deleteNode id => Temporal.deleteNode xid id
  | .addRship p fromId toId label props vtStart vtEnd lid =>
      addRelationship xid p fromId toId label props.items vtStart vtEnd lid
  | .updateRship id p props vt => updateRelationshipCreateVersion xid id p props.items vt
  | .closeRship id vt => closeRelationshipAtVt xid id vt
  | .deleteRship id => deleteRelationship xid id

/-- A step of the system. -/
inductive Step where
  | begin (xid : Nat)
  | write (xid : Nat) (w : Write)
  | nodeAt (lid vt : Nat)
  | rshipAt (lid vt : Nat)
  | commit (xid : Nat)
  | abort (xid : Nat)
  | work (i : Nat)

/-- The call of a step. A transaction id is the time the transaction began
at: it is not zero and before the end of time. -/
def Step.exec : Step → DbM Unit
  | .begin xid =>
      if xid = 0 ∨ INF ≤ xid then throw .invalidNestedTransaction else beginTransaction xid
  | .write xid w => w.exec xid
  | .nodeAt lid vt => do let _ ← getNodeAtVt lid vt
  | .rshipAt lid vt => do let _ ← getRshipAtVt lid vt
  | .commit xid => do let _ ← commitTransaction xid
  | .abort xid => do let _ ← abortTransaction xid
  | .work i => Temporal.work i

/-- The store after a step. -/
def GraphDb.step (s : GraphDb) (a : Step) : GraphDb :=
  match a.exec s with
  | .ok _ s' => s'
  | .error _ s' => s'

/-- The store after a run. -/
def GraphDb.run (s : GraphDb) (as : List Step) : GraphDb := as.foldl GraphDb.step s

/-- The store after a run in which no step ends in an exception. -/
def GraphDb.runOk (s : GraphDb) : List Step → Option GraphDb
  | [] => some s
  | a :: as =>
      match a.exec s with
      | .ok _ s' => s'.runOk as
      | .error _ _ => none

instance decidableEqExcept {β β' : Type} [DecidableEq β] [DecidableEq β'] :
    DecidableEq (Except β β')
  | .ok a, .ok b => decidable_of_iff (a = b) ⟨congrArg _, Except.ok.inj⟩
  | .error a, .error b => decidable_of_iff (a = b) ⟨congrArg _, Except.error.inj⟩
  | .ok _, .error _ => isFalse (by intro h; cases h)
  | .error _, .ok _ => isFalse (by intro h; cases h)

section Tables

variable {ε δ γ : Type} (t : Table ε δ γ)

/-- The version that an id stands for, hot or history: its logical id and the
start of its valid time. -/
def Table.versionOf (s : GraphDb) (id : Nat) : Except Err (Nat × Nat) :=
  if isHistoryId id then
    ((t.side s).getDelta id).map fun d => (d.lid, d.vtStart)
  else .ok ((t.record s id).obj.data.logicalId, (t.record s id).obj.data.vtStart)

/-- The id that a read by valid time returns, or its error. -/
def Table.found (s : GraphDb) (lid vt : Nat) : Except Err Nat :=
  match t.getAtVt lid vt s with
  | .ok id _ => .ok id
  | .error e _ => .error e

/-- What a read by valid time says: the version it finds, or its error. -/
def Table.answer (s : GraphDb) (lid vt : Nat) : Except Err (Nat × Nat) :=
  match t.getAtVt lid vt s with
  | .ok id s' => t.versionOf s' id
  | .error e _ => .error e

end Tables

/-!
## Committed histories

What a client means by the history of the store: for every logical id the
versions it has had, with the valid times that the calls gave them. A call
that adds a version, at a time after all earlier ones of its logical id,
extends the timeline of the id; a call that closes the current version ends
it. `Committed T x s` says that `s` has come about by such calls in
transactions that were committed one after the other, with the archival tasks
run at any time between the calls, and that `T` is the history; `x` is the
transaction that is still running, if there is one.
-/

/-- The histories of all logical nodes and relationships. -/
structure Timelines where
  nodes : Nat → Timeline Nat
  rships : Nat → Timeline Nat

/-- No logical id has had a version. -/
def Timelines.empty : Timelines := ⟨fun _ => .empty, fun _ => .empty⟩

/-- Whether a write is one to a relationship. -/
def Write.isRel : Write → Bool
  | .addNode .. | .updateNode .. | .closeNode .. | .deleteNode .. => false
  | .addRship .. | .updateRship .. | .closeRship .. | .deleteRship .. => true

/-- The position a write gets from the record vector is that of the slot the
vector has filled. -/
def Write.Placed : Write → Prop
  | .addNode p .. | .updateNode _ p .. | .addRship p .. | .updateRship _ p .. =>
      p.position = p.slot
  | .closeNode .. | .deleteNode .. | .closeRship .. | .deleteRship .. => True

/-- The timeline of `lid` gets a new version at `vt`. -/
def extendAt (T : Nat → Timeline Nat) (lid vt : Nat) (h : (T lid).Before MAX_TIME vt) :
    Nat → Timeline Nat := Function.update T lid ((T lid).extend MAX_TIME vt h)

/-- The timeline of `lid` is closed at `vt`. -/
def closeAt (T : Nat → Timeline Nat) (lid vt : Nat) (h : (T lid).Before MAX_TIME vt) :
    Nat → Timeline Nat := Function.update T lid ((T lid).close MAX_TIME vt h)

/-- What a write means for the history. The logical id and the time fit into an
index key, and a version that is updated or closed is the current one of its
logical id. -/
inductive Write.Extends (s : GraphDb) (T : Timelines) : Write → Timelines → Prop
  | addNode {p : Stored} {label lid vt : Nat} {props : Properties} (hl : lid < 2 ^ 31)
      (hv : vt < 2 ^ 32) (h : (T.nodes lid).Before MAX_TIME vt) :
      Extends s T (.addNode p label props vt MAX_TIME lid)
        { T with nodes := extendAt T.nodes lid vt h }
  | updateNode {p : Stored} {id lid vt : Nat} {props : Properties}
      (hc : nodeTable.findCurrent lid s = some id) (hl : lid < 2 ^ 31) (hv : vt < 2 ^ 32)
      (h : (T.nodes lid).Before MAX_TIME vt) :
      Extends s T (.updateNode id p props vt) { T with nodes := extendAt T.nodes lid vt h }
  | closeNode {id lid vt : Nat} (hc : nodeTable.findCurrent lid s = some id) (hl : lid < 2 ^ 31)
      (hv : vt < 2 ^ 32) (h : (T.nodes lid).Before MAX_TIME vt) :
      Extends s T (.closeNode id vt) { T with nodes := closeAt T.nodes lid vt h }
  | addRship {p : Stored} {fromId toId label lid vt : Nat} {props : Properties} (hl : lid < 2 ^ 31)
      (hv : vt < 2 ^ 32) (h : (T.rships lid).Before MAX_TIME vt) :
      Extends s T (.addRship p fromId toId label props vt MAX_TIME lid)
        { T with rships := extendAt T.rships lid vt h }
  | updateRship {p : Stored} {id lid vt : Nat} {props : Properties}
      (hc : rshipTable.findCurrent lid s = some id) (hl : lid < 2 ^ 31) (hv : vt < 2 ^ 32)
      (h : (T.rships lid).Before MAX_TIME vt) :
      Extends s T (.updateRship id p props vt) { T with rships := extendAt T.rships lid vt h }
  | closeRship {id lid vt : Nat} (hc : rshipTable.findCurrent lid s = some id)
      (hl : lid < 2 ^ 31) (hv : vt < 2 ^ 32) (h : (T.rships lid).Before MAX_TIME vt) :
      Extends s T (.closeRship id vt) { T with rships := closeAt T.rships lid vt h }

/-- The store `s` with the history `T`, by writes that satisfy `P`. A commit
publishes the versions before it collects garbage, and counts as one also if
the collection fails. -/
inductive Committed (n₀ : Versioned NodeLinks) (P : Write → Prop) :
    Timelines → Option Nat → GraphDb → Prop
  | init : Committed n₀ P .empty none (GraphDb.initial n₀)
  | begin {T : Timelines} {s s' : GraphDb} {xid : Nat} (h : Committed n₀ P T none s)
      (hx : (Step.begin xid).exec s = .ok () s') : Committed n₀ P T (some xid) s'
  | write {T T' : Timelines} {s s' : GraphDb} {xid : Nat} {w : Write}
      (h : Committed n₀ P T (some xid) s) (hp : P w)
      (hw : w.Extends s T T') (hx : (Step.write xid w).exec s = .ok () s') :
      Committed n₀ P T' (some xid) s'
  | commit {T : Timelines} {s : GraphDb} {xid : Nat} (h : Committed n₀ P T (some xid) s)
      (hx : ((s.step (.commit xid)).txs xid).running = false) :
      Committed n₀ P T none (s.step (.commit xid))
  | nodeAt {T : Timelines} {x : Option Nat} {s : GraphDb} (lid vt : Nat)
      (h : Committed n₀ P T x s) : Committed n₀ P T x (s.step (.nodeAt lid vt))
  | rshipAt {T : Timelines} {x : Option Nat} {s : GraphDb} (lid vt : Nat)
      (h : Committed n₀ P T x s) : Committed n₀ P T x (s.step (.rshipAt lid vt))
  | work {T : Timelines} {x : Option Nat} {s s' : GraphDb} {i : Nat}
      (h : Committed n₀ P T x s) (hx : (Step.work i).exec s = .ok () s') :
      Committed n₀ P T x s'

end Poseidon.Temporal
