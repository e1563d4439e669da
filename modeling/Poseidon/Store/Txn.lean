import Poseidon.Store.Properties

/-!
# Multiversion records

`txn_data.hpp`: the base class `txn<T>` of nodes and relationships and the
list of dirty versions. A record lives in a slot of its table; beside it the
store keeps the list of its dirty objects, each with a copy of the record
that carries a lock word and timestamps of its own. All copies share the
list with the record in the slot, so the model keeps the list once, next to
the slot.

Readers are handed C++ references, to the slot or to one of the copies. The
model's references are locations: `slot`, or `copy a` where `a` is the
address of a dirty object. An address is never used twice for one slot, so a
location whose dirty object has been freed does not resolve any more.
-/

namespace Poseidon

variable {α : Type}

/-- `txn<T>` together with the fields `data` of the derived class. The
volatile part `d_` is there when `prepared` is set; `isDirty` is the flag in
it. -/
structure Obj (α : Type) where
  txnId : Nat
  bts : Nat
  cts : Nat
  rts : Nat
  prepared : Bool
  isDirty : Bool
  data : α
  deriving DecidableEq, Repr

namespace Obj

def isLocked (n : Obj α) : Bool := n.txnId ≠ 0

def isLockedBy (n : Obj α) (xid : Nat) : Bool := n.txnId = xid

/-- `is_valid_for`: a record without volatile data is valid for everybody. -/
def isValidFor (n : Obj α) (xid : Nat) : Bool :=
  !n.prepared || (n.bts ≤ xid && xid < n.cts)

/-- `is_valid`: the version has not ended. -/
def isValid (n : Obj α) : Bool := n.cts = INF

/-- `set_rts` never lowers the read timestamp. -/
def setRts (xid : Nat) (n : Obj α) : Obj α :=
  if n.rts < xid then { n with rts := xid } else n

def prepare (n : Obj α) : Obj α := { n with prepared := true }

def unlock (n : Obj α) : Obj α := { n with txnId := 0 }

/-- `try_lock`: compare and swap of the lock word. -/
def tryLock (n : Obj α) (xid : Nat) : Option (Obj α) :=
  if n.txnId = 0 then some { n with txnId := xid } else none

end Obj

/-- `dirty_object<T>`, with the address the model tells it apart by. -/
structure DirtyObject (α : Type) where
  addr : Nat
  updateMode : Bool
  elem : Obj α
  properties : List PItem
  deriving DecidableEq, Repr

/-- Where a reference into a record points. -/
inductive Loc where
  | slot
  | copy (addr : Nat)
  deriving DecidableEq, Repr

/-- A reference handed out by a read: the slot number and the location. -/
structure Ref where
  id : Nat
  loc : Loc
  deriving DecidableEq, Repr

/-- A slot of a record table with the dirty list of its record. A slot that
is not in use keeps the bytes of its last record. -/
structure Record (α : Type) where
  used : Bool
  obj : Obj α
  dirtyList : List (DirtyObject α)
  nextAddr : Nat

namespace Record

def hasDirtyVersions (r : Record α) : Bool := !r.dirtyList.isEmpty

/-- The object a location points to. -/
def deref (r : Record α) : Loc → Option (Obj α)
  | .slot => some r.obj
  | .copy a => (r.dirtyList.find? (fun dn => dn.addr = a)).map DirtyObject.elem

/-- Change the object a location points to. -/
def modifyAt (r : Record α) (l : Loc) (f : Obj α → Obj α) : Record α :=
  match l with
  | .slot => { r with obj := f r.obj }
  | .copy a =>
      { r with dirtyList := r.dirtyList.map fun dn =>
          if dn.addr = a then { dn with elem := f dn.elem } else dn }

/-- The loop of `find_valid_version`. A version locked by another
transaction is passed over; one that is readable but not valid is
remembered in `abort`. -/
def findValidLoop (xid : Nat) :
    Bool → List (DirtyObject α) → Except Err (DirtyObject α)
  | abort, [] => .error (if abort then .transactionAbort else .unknownId)
  | abort, dn :: rest =>
      if !dn.elem.isLocked || dn.elem.isLockedBy xid then
        if dn.elem.isValidFor xid then .ok dn
        -- locked by us but not valid: we have deleted it already
        else if dn.elem.isLockedBy xid && dn.elem.bts == dn.elem.cts then
          .error .unknownId
        else findValidLoop xid true rest
      else findValidLoop xid abort rest

/-- `find_valid_version`. -/
def findValidVersion (r : Record α) (xid : Nat) : Except Err (DirtyObject α) :=
  findValidLoop xid false r.dirtyList

/-- The loop of `has_valid_version`. -/
def hasValidLoop (xid : Nat) : List (DirtyObject α) → Bool
  | [] => false
  | dn :: rest =>
      if !dn.elem.isLocked || dn.elem.isLockedBy xid then
        if dn.elem.isValidFor xid then true
        else if dn.elem.isLockedBy xid && dn.elem.bts == dn.elem.cts then false
        else hasValidLoop xid rest
      else hasValidLoop xid rest

/-- `has_valid_version`. -/
def hasValidVersion (r : Record α) (xid : Nat) : Bool :=
  hasValidLoop xid r.dirtyList

/-- `get_dirty_version`: the first version that carries the lock of `xid`. -/
def getDirtyVersion (r : Record α) (xid : Nat) : Option (DirtyObject α) :=
  r.dirtyList.find? (fun dn => dn.elem.txnId = xid)

/-- `remove_dirty_version`: drop the versions of `xid` that have not ended. -/
def removeDirtyVersion (r : Record α) (xid : Nat) : Record α :=
  { r with dirtyList := r.dirtyList.filter fun dn =>
      !(dn.elem.txnId = xid && dn.elem.cts = INF) }

/-- `updated_in_version`: whether the first version of `xid` is an update
rather than an insert; `false` when there is none. -/
def updatedInVersion (r : Record α) (xid : Nat) : Bool :=
  match r.getDirtyVersion xid with
  | some dn => dn.updateMode
  | none => false

/-- `gc`: drop the versions that ended at or before `oldest`. -/
def gc (r : Record α) (oldest : Nat) : Record α :=
  { r with dirtyList := r.dirtyList.filter fun dn => !(dn.elem.cts ≤ oldest) }

/-- `add_dirty_version`, called on the object at `l`: the new version goes
to the front of the list. -/
def addDirtyVersion (r : Record α) (l : Loc) (elem : Obj α)
    (properties : List PItem) (updated : Bool) : Record α :=
  let r := r.modifyAt l Obj.prepare
  { r with
    dirtyList := ⟨r.nextAddr, updated, elem.prepare, properties⟩ :: r.dirtyList
    nextAddr := r.nextAddr + 1 }

/-- The copy of `n` that an update leaves for older readers: it ends with
the updating transaction and is not locked. -/
def oldVersion (n : Obj α) (xid : Nat) : Obj α :=
  { n with txnId := 0, cts := xid, isDirty := true }

/-- The copy of `n` that an update makes its new version. -/
def newVersion (n : Obj α) (xid : Nat) (f : α → α) : Obj α :=
  { n with bts := xid, cts := INF, isDirty := true, data := f n.data }

/-- The copy of `n` that marks a delete: it ends where it begins. -/
def deletedVersion (n : Obj α) (xid : Nat) : Obj α :=
  { n with bts := xid, cts := xid, isDirty := true }

/-- The two checks every write begins with: the read timestamp, then the
lock, which is taken unless the transaction already owns it. -/
def lockForWrite (r : Record α) (l : Loc) (xid : Nat) :
    Except Err (Record α) :=
  match r.deref l with
  | none => .error .danglingReference
  | some n =>
      if n.rts > xid then .error .transactionAbort
      else if n.isLockedBy xid then .ok r
      else match n.tryLock xid with
        | some n' => .ok (r.modifyAt l fun _ => n')
        | none => .error .transactionAbort

/-- `get_valid_node_version` and `get_valid_rship_version`: the location of
the version that `xid` reads. -/
def getValidVersion (r : Record α) (xid : Nat) : Except Err Loc :=
  if r.obj.isLockedBy xid then
    (r.findValidVersion xid).map fun dn => .copy dn.addr
  else if !r.obj.isLocked then
    if r.obj.isValidFor xid then .ok .slot
    else (r.findValidVersion xid).map fun dn => .copy dn.addr
  else
    match r.findValidVersion xid with
    | .error e => .error e
    | .ok dn =>
        if !dn.elem.isLocked || dn.elem.isLockedBy xid then .ok (.copy dn.addr)
        else .error .transactionAbort

/-- Change the dirty object at an address. -/
def modifyDirty (r : Record α) (addr : Nat)
    (f : DirtyObject α → DirtyObject α) : Record α :=
  { r with dirtyList := r.dirtyList.map fun dn =>
      if dn.addr = addr then f dn else dn }

end Record

/-- A record table: its slots, and one more than the largest slot that was
ever in use. -/
structure Vec (α : Type) where
  slots : Nat → Record α
  size : Nat

namespace Vec

/-- Overwrite a slot. -/
def put (v : Vec α) (id : Nat) (r : Record α) : Vec α :=
  { slots := fun i => if i = id then r else v.slots i
    size := max v.size (id + 1) }

/-- `get`: a slot that is not in use has no record. -/
def get (v : Vec α) (id : Nat) : Except Err (Record α) :=
  if (v.slots id).used then .ok (v.slots id) else .error .unknownId

/-- The slots in use, in increasing order. -/
def used (v : Vec α) : List Nat :=
  (List.range v.size).filter fun i => (v.slots i).used

/-- The slots a `for` loop over the vector visits. The iterator stops at
once when the first chunk of `n` slots has no record. -/
def iterate (v : Vec α) (n : Nat) : List Nat :=
  if v.used.any (· < n) then v.used else []

/-- The slots a `range_iter` visits in the chunks of `n` slots from `first`
to `last`: the first slot of the range whether it is in use or not, then
the used ones. -/
def range (v : Vec α) (n first last : Nat) : List Nat :=
  (List.range v.size).filter fun i =>
    first ≤ i / n && i / n ≤ last && ((v.slots i).used || i == first * n)

end Vec

end Poseidon
