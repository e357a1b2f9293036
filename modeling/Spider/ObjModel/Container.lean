import Spider.ObjModel.Basic

/-!
# Reference-counted objects: the functions of `obj.c`

`obj_ref` may destroy a container, whose destructor runs `internal_obj_callback`,
which drops references in turn. `Open` holds the functions with the call of
`obj_ref` as a parameter; `internalObjRef` ties the knot, with fuel for the
depth of nested destructions, and the functions after it are the interface of
`obj.h`.
-/

namespace Spider.ObjModel

open Lib

variable {α : Type}

/-- The flags every hash function is called with. -/
def OBJ_POINTER : SearchFlags := { pointer := true }

/-- `internal_obj_alloc` (`obj.c:192-211`). -/
def internalObjAlloc (m : Machine) (st : State α) (destructorFn : Option DestructorFn)
    (userData : UserData α) : Addr × State α :=
  let (p, st) := spdCalloc m st st.objs.dom
  if p = NULL then (NULL, st)
  else (p, { st.setObj p ⟨1, destructorFn, userData, st.serials⟩ with serials := st.serials + 1 })

/-- `__obj_alloc` (`obj.c:213-216`). -/
def objAlloc (m : Machine) (st : State α) (a : α) (destructorFn : Option DestructorFn) :
    Addr × State α :=
  internalObjAlloc m st destructorFn (.data a)

/-- `hash_zero` (`obj.c:275-278`). -/
def hashZero (_ : Ptr α) (_ : SearchFlags) : Int32 := 0

/-- `__obj_container_alloc` and `internal_obj_container_alloc` (`obj.c:279-305`).
    The bucket count is an `unsigned int` that becomes the `int` field. -/
def objContainerAlloc (m : Machine) (st : State α) (nBuckets : UInt32)
    (hashFn : Option (Ptr α → SearchFlags → Int32))
    (cmpFn : Option (Ptr α → Ptr α → SearchFlags → Int32)) : Addr × State α :=
  let numBucket := if hashFn.isSome then nBuckets else 1
  internalObjAlloc m st (some .containerDestruct) (.container {
    hashFn := hashFn.getD hashZero
    cmpFn := cmpFn
    nBuckets := numBucket.toInt32
    elements := 0
    version := 1
    buckets := List.replicate numBucket.toNat [] })

/-- The addresses of the entries a container holds. -/
def ObjContainer.entryAddrs (cont : ObjContainer α) : Finset Addr :=
  (cont.buckets.flatten.map BucketEntry.addr).toFinset

/-- The bucket `obj_link` puts an object in: `i = abs(hash); i %= n_buckets`
    (`obj.c:336-341`). -/
def linkIndex (cont : ObjContainer α) (userData : Ptr α) : Outcome Int32 :=
  cMod (cAbs (cont.hashFn userData OBJ_POINTER)) cont.nBuckets

/-- `c->buckets[i]` as a list index. -/
def bucketIndex (cont : ObjContainer α) (i : Int) : Outcome Nat :=
  if 0 ≤ i ∧ i.toNat < cont.buckets.length then .ok i.toNat else .fault

/-- `SPD_LIST_INSERT_TAIL(&c->buckets[i], p, entry)`. -/
def ObjContainer.insertTail (cont : ObjContainer α) (i : Nat) (p : BucketEntry) :
    ObjContainer α :=
  { cont with buckets := cont.buckets.modify i (· ++ [p]) }

/-- Removal of the entry at `e` from bucket `i`, by `SPD_LIST_REMOVE_CURRENT` or
    `SPD_LIST_REMOVE`. -/
def ObjContainer.removeEntry (cont : ObjContainer α) (i : Nat) (e : Addr) : ObjContainer α :=
  { cont with buckets := cont.buckets.modify i (·.eraseP (·.addr = e)) }

/-- `internal_obj_link` (`obj.c:318-350`). -/
def internalObjLink (m : Machine) (st : State α) (c userData : Addr) (flags : SearchFlags) :
    Outcome (Addr × State α) := do
  match ← internalObj st userData with
  | none => .ok (NULL, st)
  | some _ =>
  match ← internalObj st c with
  | none => .ok (NULL, st)
  | some _ => do
    let (_, cont) ← containerAt st c
    let (p, st) := spdCalloc m st cont.entryAddrs
    if p = NULL then .ok (NULL, st)
    else do
      let ptr ← externalObj st userData
      let st ← lockIf flags.notAndNolock st c
      let i ← linkIndex cont ptr
      let i ← bucketIndex cont i.toInt
      let version ← spdAtomicFetchaddInt m cont.version 1
      let cont := { cont.insertTail i ⟨p, cont.version, userData⟩ with version := version }
      let elements ← spdAtomicFetchaddInt m cont.elements 1
      let (ob, _) ← containerAt st c
      .ok (p, (setContainer st c ob { cont with elements := elements }).emit (.bucketWrite c))

/-- A match function of `obj_callback` applied to its fixed arguments, with the
    effect it has on the store. -/
abbrev Callback (α : Type) := State α → Ptr α → Outcome (Int32 × State α)

/-- `struct obj_iterator` (`obj.h:724-737`). -/
structure ObjIterator where
  c : Addr
  flags : IteratorFlags
  bucket : Nat := 0
  cVersion : UInt32 := 0
  obj : Addr := NULL
  version : UInt32 := 0
  deriving DecidableEq, Repr

/-- What `internal_obj_callback` returns: an object (or null), or the iterator
    over several results. -/
inductive CallbackRet where
  | obj (a : Addr)
  | iter (it : ObjIterator)
  deriving DecidableEq, Repr

/-- `cb_true` and `cb_data_true` (`obj.c:391-403`). -/
def cbTrue : Callback α := fun st _ => .ok (CMP_MATCH, st)

namespace Open

variable (objRef : State α → Addr → Int32 → Outcome (Int32 × State α)) (m : Machine)

/-- `__obj_link` (`obj.c:352-365`). -/
def objLink (st : State α) (c userData : Addr) (flags : SearchFlags) :
    Outcome (Addr × State α) := do
  let (p, st) ← internalObjLink m st c userData flags
  if p = NULL then .ok (NULL, st)
  else do
    let (_, st) ← objRef st userData 1
    let st ← unlockIf flags.notAndNolock st c
    .ok (p, st)

/-- The `OBJ_UNLINK` branch for the entry `cur` of bucket `i` (`obj.c:533-551`). -/
def unlinkCurrent (st : State α) (c : Addr) (flags : SearchFlags) (i : Nat) (cur : BucketEntry) :
    Outcome (State α) :=
  if flags.unlink then do
    let (ob, cont) ← containerAt st c
    let version ← spdAtomicFetchaddInt m cont.version 1
    let elements ← spdAtomicFetchaddInt m cont.elements (-1)
    let cont := { cont.removeEntry i cur.addr with version := version, elements := elements }
    let st := (setContainer st c ob cont).emit (.bucketWrite c)
    if flags.nodata || flags.multiple then do
      let (_, st) ← objRef st cur.pobj (-1)
      .ok st
    else .ok st
  else .ok st

/-- The returned pointer for a matching entry, with its reference
    (`obj.c:511-519`). -/
def refMatch (st : State α) (flags : SearchFlags) (cur : BucketEntry) (ret : Addr) :
    Outcome (Addr × State α) :=
  if flags.nodata then .ok (ret, st)
  else if flags.unlink || flags.multiple then .ok (cur.pobj, st)
  else do
    let (_, st) ← objRef st cur.pobj 1
    .ok (cur.pobj, st)

/-- What `internal_obj_callback` does with a matching entry before it may unlink
    it (`obj.c:511-531`): the returned pointer and the store. -/
def takeMatch (st : State α) (flags : SearchFlags) (multi : Option Addr) (cur : BucketEntry)
    (ret : Addr) : Outcome (Addr × State α) := do
  let (ret, st) ← refMatch objRef st flags cur ret
  match multi with
  | some multi =>
    if ret = NULL then .ok (ret, st)
    else do
      let (_, st) ← objLink objRef m st multi ret flags
      .ok (NULL, st)
  | none => .ok (ret, st)

/-- The body of the traversal of bucket `i` (`obj.c:490-560`). The body changes
    no other entry of the bucket, so the loop runs over the entries there at its
    start. The first component tells that the loop was left by `break` with
    `i = last`. -/
def traverseBucket (c : Addr) (flags : SearchFlags) (cb : Callback α) (multi : Option Addr)
    (i : Nat) : List BucketEntry → Addr → State α → Outcome (Bool × Addr × State α)
  | [], ret, st => .ok (false, ret, st)
  | cur :: rest, ret, st => do
    let ptr ← externalObj st cur.pobj
    let (r, st) ← cb (st.emit (.callback cur.addr)) ptr
    let mtch := (CMP_MATCH ||| CMP_STOP) &&& r
    if mtch = 0 then traverseBucket c flags cb multi i rest ret st
    else if mtch = CMP_STOP then .ok (true, ret, st)
    else do
      let (ret, st) ← takeMatch objRef m st flags multi cur ret
      let st ← unlinkCurrent objRef m st c flags i cur
      if mtch &&& CMP_STOP ≠ 0 || !flags.multiple then .ok (true, ret, st)
      else traverseBucket c flags cb multi i rest ret st

/-- The loop over the buckets `i` up to `last` (`obj.c:490-571`). -/
def bucketLoop (c : Addr) (flags : SearchFlags) (cb : Callback α) (multi : Option Addr)
    (start : Int) : Nat → Int → Int → Addr → State α → Outcome (Addr × State α)
  | 0, _, _, _, _ => .timeout
  | fuel + 1, i, last, ret, st =>
    if i < last then do
      let (_, cont) ← containerAt st c
      let k ← bucketIndex cont i
      let (stop, ret, st) ← traverseBucket objRef m c flags cb multi k (cont.buckets[k]?.getD [])
        ret st
      let i := if stop then last else i
      if ret ≠ NULL then .ok (ret, st)
      -- start over at the first bucket, so that every bucket is checked
      else if i = cont.nBuckets.toInt - 1 ∧ flags.pointer ∧ flags.continue_ then
        bucketLoop c flags cb multi start fuel 0 start ret st
      else bucketLoop c flags cb multi start fuel (i + 1) last ret st
    else .ok (ret, st)

/-- The hashed bucket, or -1 to scan them all (`obj.c:470-473`). -/
def hashedBucket (cont : ObjContainer α) (flags : SearchFlags) (arg : Ptr α) : Outcome Int :=
  if flags.pointer then do
    let r ← cMod (cont.hashFn arg OBJ_POINTER) cont.nBuckets
    .ok r.toInt
  else .ok (-1)

/-- The search boundaries `start` and `last` (`obj.c:470-484`). -/
def searchBounds (cont : ObjContainer α) (flags : SearchFlags) (arg : Ptr α) :
    Outcome (Int × Int) := do
  let i ← hashedBucket cont flags arg
  if i < 0 then .ok (0, cont.nBuckets.toInt)
  else if flags.continue_ then .ok (i, cont.nBuckets.toInt)
  else .ok (i, i + 1)

/-- Rounds that let the loop over the buckets pass every bucket twice. -/
def loopFuel (cont : ObjContainer α) : Nat := 2 * cont.nBuckets.toInt.toNat + 2

/-- `obj_iterator_init` (`obj.c:606-616`). -/
def objIteratorInit (st : State α) (c : Addr) (flags : IteratorFlags) :
    Outcome (ObjIterator × State α) := do
  let (_, st) ← objRef st c 1
  .ok ({ c := c, flags := flags }, st)

/-- The search itself, between choosing the callback and returning
    (`obj.c:465-575`). -/
def search (st : State α) (c : Addr) (flags : SearchFlags) (cb : Callback α) (arg : Ptr α)
    (multi : Option Addr) : Outcome (Addr × State α) := do
  let (_, cont) ← containerAt st c
  let (start, last) ← searchBounds cont flags arg
  let st ← lockIf (!flags.nolock) st c
  let (ret, st) ← bucketLoop objRef m c flags cb multi start (loopFuel cont) start last NULL st
  let st ← unlockIf (!flags.nolock) st c
  .ok (ret, st)

/-- `internal_obj_callback` (`obj.c:412-585`). A null callback matches every
    object. -/
def internalObjCallback (st : State α) (c : Addr) (flags : SearchFlags)
    (cbFn : Option (Callback α)) (arg : Ptr α) : Outcome (CallbackRet × State α) := do
  match ← internalObj st c with
  | none => .ok (.obj NULL, st)
  | some _ =>
    let cb := cbFn.getD cbTrue
    if flags.multiple && !flags.nodata then
      -- several results: they are linked into a new container held by an iterator
      let (multi, st) := objContainerAlloc m st 1 none none
      if multi = NULL then .ok (.obj NULL, st)
      else
        let (multiIterator, st) := spdCalloc m st ∅
        if multiIterator = NULL then do
          let (_, st) ← objRef st multi (-1)
          .ok (.obj NULL, st)
        else do
          let (_, st) ← search objRef m st c flags cb arg (some multi)
          let (it, st) ← objIteratorInit objRef st multi
            { dontlock := true, mallocd := true, unlink := true }
          let (_, st) ← objRef st multi (-1)
          .ok (.iter it, st)
    else do
      let (ret, st) ← search objRef m st c flags cb arg none
      .ok (.obj ret, st)

/-- `cd_cb` (`obj.c:721-725`). -/
def cdCb : Callback α := fun st p => do
  let (_, st) ← objRef st p.addr (-1)
  .ok (0, st)

/-- `container_destruct` (`obj.c:727-741`): drop one reference for each entry,
    then free the entries. -/
def containerDestruct (st : State α) (c : Addr) : Outcome (State α) := do
  let (_, st) ← internalObjCallback objRef m st c { unlink := true } (some (cdCb objRef))
    ⟨NULL, none⟩
  let (ob, cont) ← containerAt st c
  .ok (setContainer st c ob
    { cont with buckets := List.replicate cont.nBuckets.toInt.toNat [] ++
        cont.buckets.drop cont.nBuckets.toInt.toNat })

end Open

/-- The call of the destructor (`obj.c:170-172`). -/
def runDestructor (objRef : State α → Addr → Int32 → Outcome (Int32 × State α)) (m : Machine)
    (st : State α) (userData : Addr) : Option DestructorFn → Outcome (State α)
  | some .containerDestruct => Open.containerDestruct objRef m st userData
  | _ => .ok st

/-- `internal_obj_ref` (`obj.c:152-185`): the old counter, and the store. At zero
    the destructor runs and the object is freed. -/
def internalObjRef (m : Machine) : Nat → State α → Addr → Int32 → Outcome (Int32 × State α)
  | 0, _, _, _ => .timeout
  | fuel + 1, st, userData, delta => do
    match ← internalObj st userData with
    | none => .ok (-1, st)
    | some p =>
      if delta = 0 then .ok (p.refCounter, st)
      else do
        let currentValue ← spdAtomicFetchaddInt m p.refCounter delta
        let st := st.setObj userData { p with refCounter := currentValue }
        if currentValue ≤ 0 then do
          let st ← runDestructor (internalObjRef m fuel) m (st.emit (.destruct p.serial)) userData
            p.destructorFn
          .ok (p.refCounter, st.freeObj userData)
        else .ok (p.refCounter, st)

/-- `obj_ref` (`obj.c:142-150`). Destructions nest at most as deep as there are
    objects. -/
def objRef (m : Machine) (st : State α) (userData : Addr) (delta : Int32) :
    Outcome (Int32 × State α) :=
  internalObjRef m (st.objs.dom.card + 1) st userData delta

/-- `obj_link`, with flags as in `__obj_link`. -/
def objLink (m : Machine) : State α → Addr → Addr → SearchFlags → Outcome (Addr × State α) :=
  Open.objLink (objRef m) m

/-- `obj_match_by_addr` (`obj.c:370-373`). -/
def objMatchByAddr (userData arg : Ptr α) (_ : SearchFlags) : Int32 :=
  if userData.addr = arg.addr then CMP_MATCH ||| CMP_STOP else 0

/-- A match function without side effects as a callback. -/
def pureCallback (cbFn : Ptr α → Ptr α → SearchFlags → Int32) (arg : Ptr α)
    (flags : SearchFlags) : Callback α := fun st p => .ok (cbFn p arg flags, st)

/-- `obj_callback` (`obj.c:587-590`). -/
def objCallback (m : Machine) (st : State α) (c : Addr) (flags : SearchFlags)
    (cbFn : Option (Ptr α → Ptr α → SearchFlags → Int32)) (arg : Ptr α) :
    Outcome (CallbackRet × State α) :=
  Open.internalObjCallback (objRef m) m st c flags (cbFn.map (pureCallback · arg flags)) arg

/-- `obj_callback_data` (`obj.c:592-596`): the same with one more argument for
    the match function. -/
def objCallbackData {δ : Type} (m : Machine) (st : State α) (c : Addr) (flags : SearchFlags)
    (cbFn : Option (Ptr α → Ptr α → δ → SearchFlags → Int32)) (arg : Ptr α) (data : δ) :
    Outcome (CallbackRet × State α) :=
  Open.internalObjCallback (objRef m) m st c flags
    (cbFn.map fun f => pureCallback (fun p a fl => f p a data fl) arg flags) arg

/-- `obj_find` (`obj.c:598-601`). -/
def objFind (m : Machine) (st : State α) (c : Addr) (arg : Ptr α) (flags : SearchFlags) :
    Outcome (CallbackRet × State α) := do
  let (_, cont) ← containerAt st c
  objCallback m st c flags cont.cmpFn arg

/-- `obj_unlink` (`obj.c:375-385`). -/
def objUnlink (m : Machine) (st : State α) (c userData : Addr) (flags : SearchFlags) :
    Outcome (State α) := do
  match ← internalObj st userData with
  | none => .ok st
  | some _ => do
    let ptr ← externalObj st userData
    let (_, st) ← objCallback m st c
      { flags with unlink := true, pointer := true, nodata := true } (some objMatchByAddr) ptr
    .ok st

/-- `obj_iterator_init`. -/
def objIteratorInit (m : Machine) :
    State α → Addr → IteratorFlags → Outcome (ObjIterator × State α) :=
  Open.objIteratorInit (objRef m)

/-- The entry after the one at `e` in its bucket, `SPD_LIST_NEXT`; `none` when no
    entry is at `e`. -/
def nextInBucket (e : Addr) : List BucketEntry → Option (Option BucketEntry)
  | [] => none
  | p :: rest => if p.addr = e then some rest.head? else nextInBucket e rest

@[inherit_doc nextInBucket]
def ObjContainer.nextEntry (cont : ObjContainer α) (e : Addr) : Option (Option BucketEntry) :=
  cont.buckets.findSome? (nextInBucket e)

/-- The scan by version number (`obj.c:664-670`) over the buckets from `bucket` on:
    the entry found, and the bucket and version reached. -/
def scanBuckets : List (List BucketEntry) → Nat → UInt32 → Option BucketEntry × Nat × UInt32
  | [], bucket, version => (none, bucket, version)
  | es :: rest, bucket, version =>
    match es.find? (fun p => version < p.version.toUInt32) with
    | some p => (some p, bucket, version)
    | none => scanBuckets rest (bucket + 1) 0

/-- The scan from the position of the iterator. -/
def ObjContainer.scan (cont : ObjContainer α) (bucket : Nat) (version : UInt32) :
    Option BucketEntry × Nat × UInt32 :=
  scanBuckets ((cont.buckets.take cont.nBuckets.toInt.toNat).drop bucket) bucket version

/-- How `internal_obj_iterator_next` finds the next entry (`obj.c:646-672`): the
    saved pointer is followed when the container has the saved version, else the
    buckets are scanned. -/
def ObjIterator.advance (a : ObjIterator) (cont : ObjContainer α) :
    Outcome (Option BucketEntry × ObjIterator) :=
  if cont.version.toUInt32 = a.cVersion ∧ a.obj ≠ NULL then
    match cont.nextEntry a.obj with
    | none => .fault
    | some (some p) => .ok (some p, a)
    | some none =>
      let (p, bucket, version) := cont.scan (a.bucket + 1) 0
      .ok (p, { a with bucket := bucket, version := version, obj := NULL })
  else
    let (p, bucket, version) := cont.scan a.bucket a.version
    .ok (p, { a with bucket := bucket, version := version })

/-- `internal_obj_iterator_next` (`obj.c:633-698`): the object, whether a
    reference must be taken on it, the iterator and the store. -/
def internalObjIteratorNext (m : Machine) (st : State α) (a : ObjIterator) :
    Outcome (Addr × Bool × ObjIterator × State α) := do
  match ← internalObj st a.c with
  | none => .ok (NULL, false, a, st)
  | some _ => do
    let st ← lockIf (!a.flags.dontlock) st a.c
    let (ob, cont) ← containerAt st a.c
    let (p, a) ← a.advance cont
    match p with
    | none => .ok (NULL, false, a, st)
    | some p =>
      if a.flags.unlink then do
        -- the container is modified, and its reference passes to the caller
        let version ← spdAtomicFetchaddInt m cont.version 1
        let elements ← spdAtomicFetchaddInt m cont.elements (-1)
        let cont := { cont.removeEntry a.bucket p.addr with
          version := version, elements := elements }
        let a := { a with version := 0, obj := NULL, cVersion := version.toUInt32 }
        .ok (p.pobj, false, a, (setContainer st a.c ob cont).emit (.bucketWrite a.c))
      else
        let a := { a with
          version := p.version.toUInt32, obj := p.addr, cVersion := cont.version.toUInt32 }
        .ok (p.pobj, true, a, st)

/-- `if (p) __obj_ref(ret, 1);` of `obj_iterator_next`. -/
def refIf (m : Machine) (take : Bool) (st : State α) (ret : Addr) : Outcome (State α) :=
  if take then do
    let (_, st) ← objRef m st ret 1
    .ok st
  else .ok st

/-- `obj_iterator_next` (`obj.c:700-716`). -/
def objIteratorNext (m : Machine) (st : State α) (a : ObjIterator) :
    Outcome (Addr × ObjIterator × State α) := do
  let (ret, take, a, st) ← internalObjIteratorNext m st a
  let st ← refIf m take st ret
  let st ← unlockIf (!a.flags.dontlock) st a.c
  .ok (ret, a, st)

end Spider.ObjModel
