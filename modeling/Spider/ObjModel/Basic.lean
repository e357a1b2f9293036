import Spider.Lib.CInt
import Spider.Lib.Heap
import Spider.Lib.Outcome
import Mathlib.Data.Finset.Union

/-!
# Reference-counted objects: data model and memory

The object store of `obj.c`. An object is a counter, a destructor and user
data; a container (`struct obj_container`) is an object whose user data is a
hash table of entries. A bucket is the sequence of its entries: the list macros
that splice it are the subject of `Spider.LinkedList`.

`Machine` is what the store runs on. `calloc` may fail and may give any address
that is not in use, so addresses are reused. The `int` counters wrap around on
the real machine (`Counters.wrap`); on the checked one (`Counters.checked`) a
run stops where a counter would wrap, and every other run is the real one.
-/

namespace Spider.ObjModel

open Lib

/-- A pointer value. -/
abbrev Addr := Nat

/-- The null pointer. -/
def NULL : Addr := 0

/-- What `spd_atomic_fetchadd_int` does past the largest `int`. -/
inductive Counters where
  | wrap
  | checked
  deriving DecidableEq, Repr

/-- The allocator and the counter arithmetic of the machine. `calloc n live` is
    the answer to the `n`-th request while `live` is allocated. -/
structure Machine where
  calloc : Nat → Finset Addr → Option Addr
  calloc_fresh : ∀ {n live a}, calloc n live = some a → a ∉ live ∧ a ≠ NULL
  counters : Counters

/-- The same machine, stopping where a counter would wrap. -/
def Machine.toChecked (m : Machine) : Machine := { m with counters := .checked }

/-- The same machine with the wrapping counters of the hardware. -/
def Machine.toWrap (m : Machine) : Machine := { m with counters := .wrap }

/-- `enum search_flags` (`obj.h:385-424`), one field for each bit. -/
structure SearchFlags where
  unlink : Bool := false
  nodata : Bool := false
  multiple : Bool := false
  pointer : Bool := false
  continue_ : Bool := false
  nolock : Bool := false
  deriving DecidableEq, Repr

/-- The flags as the `int` they are in the source. -/
def SearchFlags.toNat (flags : SearchFlags) : Nat :=
  flags.unlink.toNat + 2 * flags.nodata.toNat + 4 * flags.multiple.toNat
    + 8 * flags.pointer.toNat + 16 * flags.continue_.toNat + 32 * flags.nolock.toNat

/-- The value of `!flags & OBJ_NOLOCK` as a condition (`obj.c:337,358`): the
    logical not binds first. -/
def SearchFlags.notAndNolock (flags : SearchFlags) : Bool :=
  (if flags.toNat = 0 then 1 else 0) &&& 32 != (0 : Nat)

/-- `enum obj_iterator_flags` (`obj.h:741-757`). -/
structure IteratorFlags where
  dontlock : Bool := false
  mallocd : Bool := false
  unlink : Bool := false
  deriving DecidableEq, Repr

/-- `CMP_MATCH` and `CMP_STOP` of `enum _cb_results` (`obj.h:376-379`). -/
def CMP_MATCH : Int32 := 1
@[inherit_doc CMP_MATCH] def CMP_STOP : Int32 := 2

/-- A `void *` as a callback sees it: the address and the user data behind it
    (`none` for a container). -/
structure Ptr (α : Type) where
  addr : Addr
  data : Option α
  deriving DecidableEq, Repr

/-- `struct bucket_entry` (`obj.c:222-226`) and the address it is stored at. -/
structure BucketEntry where
  addr : Addr
  version : Int32
  pobj : Addr
  deriving DecidableEq, Repr

/-- `struct obj_container` (`obj.c:257-265`). -/
structure ObjContainer (α : Type) where
  hashFn : Ptr α → SearchFlags → Int32
  cmpFn : Option (Ptr α → Ptr α → SearchFlags → Int32)
  nBuckets : Int32
  elements : Int32
  version : Int32
  buckets : List (List BucketEntry)

/-- The destructor of an object: client code, which reaches the store only
    through further calls, or `container_destruct`. -/
inductive DestructorFn where
  | user
  | containerDestruct
  deriving DecidableEq, Repr

/-- The user-data part of an object. -/
inductive UserData (α : Type) where
  | data (a : α)
  | container (c : ObjContainer α)

/-- `struct obj` (`obj.c:28-46`). `serial` numbers the objects in order of
    allocation; it tells apart objects that reuse one address. -/
structure Obj (α : Type) where
  refCounter : Int32
  destructorFn : Option DestructorFn
  userData : UserData α
  serial : Nat

/-- What an outside observer sees of a call. -/
inductive Event where
  /-- The destructor of object `serial` is called (if it has one) and the object freed. -/
  | destruct (serial : Nat)
  | lock (a : Addr)
  | unlock (a : Addr)
  /-- A bucket of container `c` is changed. -/
  | bucketWrite (c : Addr)
  /-- The match callback is called on the object of the entry at `e`. -/
  | callback (e : Addr)
  deriving DecidableEq, Repr

/-- The store. -/
structure State (α : Type) where
  objs : Heap (Obj α) := ∅
  /-- Requests made to `calloc` so far. -/
  callocs : Nat := 0
  /-- Objects allocated so far. -/
  serials : Nat := 0
  trace : List Event := []

variable {α : Type}

namespace State

def setObj (st : State α) (a : Addr) (p : Obj α) : State α := { st with objs := st.objs.set a p }

def freeObj (st : State α) (a : Addr) : State α := { st with objs := st.objs.free a }

def emit (st : State α) (e : Event) : State α := { st with trace := st.trace ++ [e] }

@[simp] theorem objs_setObj (st : State α) (a : Addr) (p : Obj α) :
    (st.setObj a p).objs = st.objs.set a p := rfl
@[simp] theorem serials_setObj (st : State α) (a : Addr) (p : Obj α) :
    (st.setObj a p).serials = st.serials := rfl
@[simp] theorem trace_setObj (st : State α) (a : Addr) (p : Obj α) :
    (st.setObj a p).trace = st.trace := rfl
@[simp] theorem objs_freeObj (st : State α) (a : Addr) :
    (st.freeObj a).objs = st.objs.free a := rfl
@[simp] theorem serials_freeObj (st : State α) (a : Addr) :
    (st.freeObj a).serials = st.serials := rfl
@[simp] theorem trace_freeObj (st : State α) (a : Addr) : (st.freeObj a).trace = st.trace := rfl
@[simp] theorem objs_emit (st : State α) (e : Event) : (st.emit e).objs = st.objs := rfl
@[simp] theorem serials_emit (st : State α) (e : Event) : (st.emit e).serials = st.serials := rfl
@[simp] theorem trace_emit (st : State α) (e : Event) : (st.emit e).trace = st.trace ++ [e] := rfl

end State

/-- The entries of an object: those in its buckets, for a container. -/
def Obj.entries (p : Obj α) : List BucketEntry :=
  match p.userData with
  | .data _ => []
  | .container c => c.buckets.flatten

/-- `internal_obj` (`obj.c:54-71`): the header of the object at `userData`, null
    for a null argument. An address that is not allocated must not be read. -/
def internalObj (st : State α) (userData : Addr) : Outcome (Option (Obj α)) :=
  if userData = NULL then .ok none
  else match st.objs.get userData with
    | some p => .ok (some p)
    | none => .fault

/-- The container at `c`, which the caller has checked to be an object. -/
def containerAt (st : State α) (c : Addr) : Outcome (Obj α × ObjContainer α) :=
  match st.objs.get c with
  | some p => match p.userData with
    | .container cont => .ok (p, cont)
    | .data _ => .fault
  | none => .fault

/-- Store `cont` in the container object at `c`. -/
def setContainer (st : State α) (c : Addr) (p : Obj α) (cont : ObjContainer α) : State α :=
  st.setObj c { p with userData := .container cont }

/-- `EXTERNAL_OBJ(p)` with the memory behind it, as handed to a callback. -/
def externalObj (st : State α) (a : Addr) : Outcome (Ptr α) :=
  match st.objs.get a with
  | some p => match p.userData with
    | .data d => .ok ⟨a, some d⟩
    | .container _ => .ok ⟨a, none⟩
  | none => .fault

/-- `spd_calloc` (`utils.h:62-72`): null when the allocator fails. -/
def spdCalloc (m : Machine) (st : State α) (live : Finset Addr) : Addr × State α :=
  ((m.calloc st.callocs live).getD NULL, { st with callocs := st.callocs + 1 })

/-- `spd_atomic_fetchadd_int` (`lock.h:350-358`): the new value of the counter. -/
@[irreducible] def spdAtomicFetchaddInt (m : Machine) (x d : Int32) : Outcome Int32 :=
  match m.counters with
  | .wrap => .ok (x + d)
  | .checked => if (x + d).toInt = x.toInt + d.toInt then .ok (x + d) else .overflow

/-- The `abs` macro (`utils.h:170`). It evaluates its argument twice; hash
    functions have no side effects. -/
def cAbs (x : Int32) : Int32 := if 0 ≤ x then x else -x

/-- The remainder of C: undefined for a zero divisor and for `INT_MIN % -1`. -/
def cMod (x n : Int32) : Outcome Int32 :=
  if n = 0 ∨ (x = Int32.minValue ∧ n = -1) then .fault else .ok (x % n)

/-- `__obj_lock` and `__obj_unlock` (`obj.c:97-115`). -/
def objLock (st : State α) (a : Addr) : Outcome (State α) := do
  match ← internalObj st a with
  | none => .ok st
  | some _ => .ok (st.emit (.lock a))

@[inherit_doc objLock]
def objUnlock (st : State α) (a : Addr) : Outcome (State α) := do
  match ← internalObj st a with
  | none => .ok st
  | some _ => .ok (st.emit (.unlock a))

/-- `if (cond) obj_lock(a);` and `if (cond) obj_unlock(a);`. -/
def lockIf (cond : Bool) (st : State α) (a : Addr) : Outcome (State α) :=
  if cond then objLock st a else .ok st

@[inherit_doc lockIf]
def unlockIf (cond : Bool) (st : State α) (a : Addr) : Outcome (State α) :=
  if cond then objUnlock st a else .ok st

end Spider.ObjModel
