import Spider.Lib.CInt
import Spider.Lib.Heap
import Spider.Lib.Run

/-!
# The I/O table

The table of the version without epoll: an array for `poll` and, beside it, an
array with a callback, its data and an id for each entry. An id is a pointer to
the index of the entry. Removal clears the id, and `io_shrink` moves the entries
behind it down. `spd_io_context_create` returns a null pointer whatever happens, so
that the operations are followed from three places: from that pointer, from the
table that the rest of the function would set up, and from any table of entries in
use.
-/

namespace Spider.Io

open Lib Outcome

abbrev Addr := Nat

/-- `struct pollfd`, of eight bytes. -/
structure Pollfd where
  fd : Int32
  events : Int16
  revents : Int16
  deriving DecidableEq, Repr

/-- `struct io_rec`; the callback and the data are zero when they are null. -/
structure IoRec where
  ioCallback : Nat
  data : Nat
  id : Option Addr
  deriving DecidableEq, Repr

/-- `struct io_context`, with the elements that its two pointers reach, and what the ids point to.
    A pointer to a block that was freed reaches none. -/
structure IoContext where
  fds : List Pollfd
  ior : List IoRec
  fdcnt : UInt32
  maxfdcnt : UInt32
  currentIoc : Int32
  needshrink : Int32
  ids : Heap Int32
  deriving DecidableEq

/-- `GROW_SHRINK_SIZE`. -/
def growShrinkSize : Nat := 512

/-- `spd_io_context_create` (`io.c:46-70`). The test of line 50 ends at its semicolon, and the
    `return NULL` of line 51 is taken with memory and without. -/
def spdIoContextCreate : Option IoContext := none

/-- The table of the lines behind that `return` (`io.c:53-67`), which nothing reaches: the first
    array would get `GROW_SHRINK_SIZE` bytes and not elements. -/
def newTable : IoContext where
  fds := List.replicate (growShrinkSize / 8) ⟨0, 0, 0⟩
  ior := List.replicate (growShrinkSize / 2) ⟨0, 0, none⟩
  fdcnt := 0
  maxfdcnt := (growShrinkSize / 2).toUInt32
  currentIoc := -1
  needshrink := 0
  ids := ∅

namespace IoContext

variable (ioc : IoContext)

def fdAt (i : Nat) : Outcome Pollfd :=
  match ioc.fds[i]? with
  | some p => .ok p
  | none => .fault

def recAt (i : Nat) : Outcome IoRec :=
  match ioc.ior[i]? with
  | some r => .ok r
  | none => .fault

def setFd (i : Nat) (p : Pollfd) : Outcome IoContext :=
  if i < ioc.fds.length then .ok { ioc with fds := ioc.fds.set i p } else .fault

def setRec (i : Nat) (r : IoRec) : Outcome IoContext :=
  if i < ioc.ior.length then .ok { ioc with ior := ioc.ior.set i r } else .fault

/-- The entry is updated if the condition holds. -/
def updFd (c : Prop) [Decidable c] (i : Nat) (f : Pollfd → Pollfd) : Outcome IoContext :=
  if c then ioc.fdAt i >>= fun p => ioc.setFd i (f p) else .ok ioc

@[inherit_doc updFd] def updRec (c : Prop) [Decidable c] (i : Nat) (f : IoRec → IoRec) :
    Outcome IoContext :=
  if c then ioc.recAt i >>= fun r => ioc.setRec i (f r) else .ok ioc

def readId (id : Addr) : Outcome Int32 :=
  match ioc.ids.get id with
  | some i => .ok i
  | none => .fault

def writeId (id : Addr) (i : Int32) : Outcome IoContext :=
  if id ∈ ioc.ids.dom then .ok { ioc with ids := ioc.ids.set id i } else .fault

def freeId (id : Addr) : Outcome IoContext :=
  if id ∈ ioc.ids.dom then .ok { ioc with ids := ioc.ids.free id } else .fault

end IoContext

/-- The block that `spd_realloc` returns: whether it is another one, the old one being freed, and
    the elements behind the old ones. -/
structure Grown (α : Type) where
  moved : Bool
  fresh : Nat → α

/-- What the allocator answers in an addition: for the two arrays, and the new id. -/
structure Answers where
  ior : Option (Grown IoRec)
  fds : Option (Grown Pollfd)
  malloc : Option Addr

/-- `spd_realloc` of an array to `n` elements. -/
def realloc {α : Type} (l : List α) (n : Nat) (fresh : Nat → α) : List α :=
  (l ++ (List.range (n - l.length)).map fresh).take n

/-- `io_grow` (`io.c:83-109`). The new block of the descriptors is not stored (`io.c:91-93`):
    `ioc->fds` stays the pointer to the old one, which is freed if the block was moved. -/
def ioGrow (ioc : IoContext) (a : Answers) : Outcome (Int32 × IoContext) :=
  let maxfdcnt := ioc.maxfdcnt + growShrinkSize.toUInt32
  match a.ior with
  | none => .ok (-1, ioc)
  | some g =>
    let ioc := { ioc with ior := realloc ioc.ior (maxfdcnt + 1).toNat g.fresh }
    if ioc.fds = [] then .fault
    else
      match a.fds with
      | none => .ok (-1, ioc)
      | some g =>
        let fds := if g.moved then [] else realloc ioc.fds (maxfdcnt + 1).toNat g.fresh
        .ok (0, { ioc with fds := fds, maxfdcnt := maxfdcnt })

/-- `spd_io_context_add` (`io.c:117-150`). The new id gets as many bytes as the old one, which is
    read for it, says. The statement `ioc->fdcnt;` counts nothing. -/
def spdIoContextAdd (ioc : IoContext) (fd : Int32) (iocb data : Nat) (events : Int16)
    (a : Answers) : Outcome (Option Addr × IoContext) := do
  let (failed, ioc) ← if ioc.fdcnt > ioc.maxfdcnt then ioGrow ioc a else .ok (0, ioc)
  if failed ≠ 0 then .ok (none, ioc)
  else do
    let i := ioc.fdcnt.toNat
    let ioc ← ioc.setFd i ⟨fd, events, 0⟩
    let r ← ioc.recAt i
    let ioc ← ioc.setRec i { r with ioCallback := iocb, data := data }
    match r.id with
    | none => .fault
    | some id => do
      let size ← ioc.readId id
      match a.malloc with
      | none => do
        let ioc ← ioc.setRec i ⟨iocb, data, none⟩
        .ok (none, ioc)
      | some ret => do
        let ioc ← ioc.setRec i ⟨iocb, data, some ret⟩
        if 0 ≤ size ∧ size < 4 then .fault
        else .ok (some ret, { ioc with ids := ioc.ids.set ret ioc.fdcnt.toInt32 })

/-- `spd_io_context_change` (`io.c:152-167`). -/
def spdIoContextChange (ioc : IoContext) (id : Addr) (fd : Int32) (iocb data : Nat)
    (events : Int16) : Outcome (Option Addr × IoContext) := do
  let i ← ioc.readId id
  if i.toUInt32 > ioc.fdcnt then .ok (none, ioc)
  else do
    let i := i.toUInt32.toNat
    let ioc ← ioc.updFd (fd > -1) i fun p => { p with fd := fd }
    let ioc ← ioc.updRec (iocb ≠ 0) i fun r => { r with ioCallback := iocb }
    let ioc ← ioc.updFd (events ≠ 0) i fun p => { p with events := events }
    let ioc ← ioc.updRec (data ≠ 0) i fun r => { r with data := data }
    .ok (some id, ioc)

/-- The loop of `io_shrink` with `n` rounds to go, and the last `putto`. -/
def shrinkLoop : Nat → Nat → Nat → IoContext → Outcome (Nat × IoContext)
  | 0, _, putto, ioc => .ok (putto, ioc)
  | n + 1, getfrom, putto, ioc => do
    let r ← ioc.recAt getfrom
    match r.id with
    | none => shrinkLoop n (getfrom + 1) putto ioc
    | some id =>
      if getfrom ≠ putto then do
        let p ← ioc.fdAt getfrom
        let ioc ← ioc.setFd putto p
        let ioc ← ioc.setRec putto r
        let ioc ← ioc.writeId id (Int32.ofNat putto)
        shrinkLoop n (getfrom + 1) (putto + 1) ioc
      else shrinkLoop n (getfrom + 1) (putto + 1) ioc

/-- `io_shrink` (`io.c:169-194`). -/
def ioShrink (ioc : IoContext) : Outcome IoContext := do
  let (putto, ioc) ← shrinkLoop ioc.fdcnt.toNat 0 0 ioc
  .ok { ioc with fdcnt := UInt32.ofNat putto, needshrink := 0 }

/-- The loop of `spd_io_context_remove` with `n` rounds to go: the index of the entry. -/
def findId (ioc : IoContext) (id : Addr) : Nat → Nat → Outcome (Option Nat)
  | 0, _ => .ok none
  | n + 1, x => do
    let r ← ioc.recAt x
    if r.id = some id then .ok (some x) else findId ioc id n (x + 1)

/-- `spd_io_context_remove` (`io.c:196-220`). -/
def spdIoContextRemove (ioc : IoContext) (id : Option Addr) : Outcome (Int32 × IoContext) :=
  match id with
  | none => .ok (-1, ioc)
  | some id => do
    match ← findId ioc id ioc.fdcnt.toNat 0 with
    | none => .ok (-1, ioc)
    | some x => do
      let r ← ioc.recAt x
      let ioc ← ioc.freeId id
      let ioc ← ioc.setRec x { r with id := none }
      let p ← ioc.fdAt x
      let ioc ← ioc.setFd x { p with events := 0, revents := 0 }
      let ioc := { ioc with needshrink := 1 }
      if ioc.currentIoc = -1 then do
        let ioc ← ioShrink ioc
        .ok (0, ioc)
      else .ok (0, ioc)

/-! ## What `io_shrink` leaves -/

/-- The entries of both arrays at one index. -/
abbrev Slot := Pollfd × IoRec

/-- The entries whose id was not cleared. -/
def kept (slots : List Slot) : List Slot := slots.filter (·.2.id.isSome)

/-- Their ids. -/
def slotIds (slots : List Slot) : List Addr := slots.filterMap (·.2.id)

/-- The arrays hold the slots, and other elements behind them. -/
structure Arrays (ioc : IoContext) (slots : List Slot) (fds : List Pollfd) (ior : List IoRec) :
    Prop where
  fds : ioc.fds = slots.map Prod.fst ++ fds
  ior : ioc.ior = slots.map Prod.snd ++ ior

/-- Each id points to the index of its entry, counted from `n`. -/
def Numbered (ids : Heap Int32) (n : Nat) (slots : List Slot) : Prop :=
  ∀ j t p, slots[j]? = some t → t.2.id = some p → ids.get p = some (Int32.ofNat (n + j))

section

variable {ioc : IoContext} {pre gap todo : List Slot} {t : Slot} {fds : List Pollfd}
  {ior : List IoRec} {ids : Heap Int32} {n : Nat} {id : Addr}

theorem Numbered.head (h : Numbered ids n (t :: todo)) (hid : t.2.id = some id) :
    ids.get id = some (Int32.ofNat n) := h 0 t id rfl hid

theorem Numbered.tail (h : Numbered ids n (t :: todo)) : Numbered ids (n + 1) todo := by
  intro j t' p ht' hp
  have hj := h (j + 1) t' p ht' hp
  rwa [Nat.add_right_comm]

theorem Numbered.nil : Numbered ids n [] := by
  intro j t p ht
  cases ht

theorem Numbered.cons (hid : t.2.id = some id) (hget : ids.get id = some (Int32.ofNat n))
    (h : Numbered ids (n + 1) todo) : Numbered ids n (t :: todo) := by
  intro j t' p ht' hp
  cases j with
  | zero =>
    obtain rfl := Option.some.inj ht'
    rw [hid] at hp
    rw [← Option.some.inj hp]
    exact hget
  | succ j =>
    have hj := h j t' p ht' hp
    rwa [Nat.add_right_comm] at hj

theorem Arrays.recAt (h : Arrays ioc (pre ++ t :: todo) fds ior) :
    ioc.recAt pre.length = .ok t.2 := by
  simp [IoContext.recAt, h.ior]

theorem Arrays.fdAt (h : Arrays ioc (pre ++ t :: todo) fds ior) :
    ioc.fdAt pre.length = .ok t.1 := by
  simp [IoContext.fdAt, h.fds]

/-- An entry is copied over another one, and its id is renumbered. -/
theorem Arrays.copy (h : Arrays ioc (pre ++ t :: todo) fds ior) (t' : Slot)
    (hid : id ∈ ioc.ids.dom) (i : Int32) :
    ∃ ioc', Arrays ioc' (pre ++ t' :: todo) fds ior ∧
      ioc' = { ioc with fds := ioc'.fds, ior := ioc'.ior, ids := ioc.ids.set id i } ∧
      ∀ {β : Type} (k : IoContext → Outcome β), (ioc.setFd pre.length t'.1 >>= fun ioc =>
        ioc.setRec pre.length t'.2 >>= fun ioc => ioc.writeId id i >>= k) = k ioc' := by
  have hf : pre.length < ioc.fds.length := by simp [h.fds]
  have hr : pre.length < ioc.ior.length := by simp [h.ior]
  refine ⟨{ ioc with
    fds := ioc.fds.set pre.length t'.1
    ior := ioc.ior.set pre.length t'.2
    ids := ioc.ids.set id i }, ?_, rfl, ?_⟩
  · constructor
    · simp [h.fds]
    · simp [h.ior]
  · intro β k
    simp [IoContext.setFd, IoContext.setRec, IoContext.writeId, hf, hr, hid]

theorem slotIds_cons_none (hid : t.2.id = none) : slotIds (t :: todo) = slotIds todo := by
  simp [slotIds, hid]

theorem slotIds_cons_some (hid : t.2.id = some id) : slotIds (t :: todo) = id :: slotIds todo := by
  simp [slotIds, hid]

theorem kept_cons_none (hid : t.2.id = none) : kept (t :: todo) = kept todo := by
  simp [kept, hid]

theorem kept_cons_some (hid : t.2.id = some id) : kept (t :: todo) = t :: kept todo := by
  simp [kept, hid]

theorem mem_slotIds {j : Nat} {slots : List Slot} (ht : slots[j]? = some t)
    (hid : t.2.id = some id) : id ∈ slotIds slots :=
  List.mem_filterMap.mpr ⟨t, List.mem_of_getElem? ht, hid⟩

/-- A round of the loop for an entry in use: it is moved to the front of the gap, if there is one. -/
theorem shrinkLoop_used (n : Nat) (harrays : Arrays ioc (pre ++ gap ++ t :: todo) fds ior)
    (hid : t.2.id = some id)
    (hcell : ioc.ids.get id = some (Int32.ofNat (pre.length + gap.length))) :
    ∃ gap1 ioc1, shrinkLoop (n + 1) (pre.length + gap.length) pre.length ioc =
        shrinkLoop n (pre.length + gap.length + 1) (pre.length + 1) ioc1 ∧
      gap1.length = gap.length ∧ Arrays ioc1 (pre ++ [t] ++ gap1 ++ todo) fds ior ∧
      ioc1.ids.get id = some (Int32.ofNat pre.length) ∧
      (∀ p, p ≠ id → ioc1.ids.get p = ioc.ids.get p) ∧
      ioc1 = { ioc with fds := ioc1.fds, ior := ioc1.ior, ids := ioc1.ids } := by
  have hlen : pre.length + gap.length = (pre ++ gap).length := List.length_append.symm
  have hrec : ioc.recAt (pre.length + gap.length) = .ok t.2 := by
    rw [hlen]
    exact harrays.recAt
  rw [shrinkLoop, hrec, ok_bind, hid]
  dsimp only
  cases gap with
  | nil =>
    have hsame : ¬ pre.length + ([] : List Slot).length ≠ pre.length := by simp
    rw [if_neg hsame]
    exact ⟨[], ioc, rfl, rfl, by simpa using harrays, hcell, fun _ _ => rfl, rfl⟩
  | cons g gap =>
    rw [if_pos (by simp)]
    have hfd : ioc.fdAt (pre.length + (g :: gap).length) = .ok t.1 := by
      rw [hlen]
      exact harrays.fdAt
    have hover : Arrays ioc (pre ++ g :: (gap ++ t :: todo)) fds ior := by
      simpa using harrays
    obtain ⟨ioc1, harrays1, hioc1, hcopy⟩ :=
      hover.copy t (Heap.mem_dom_of_get hcell) (Int32.ofNat pre.length)
    have hids1 : ioc1.ids = ioc.ids.set id (Int32.ofNat pre.length) := by rw [hioc1]
    refine ⟨gap ++ [t], ioc1, ?_, ?_, ?_, ?_, ?_, ?_⟩
    · rw [hfd, ok_bind, hcopy]
    · rw [List.length_append, List.length_singleton, List.length_cons]
    · simpa using harrays1
    · rw [hids1, Heap.get_set_self]
    · intro p hp
      rw [hids1, Heap.get_set_of_ne _ _ hp]
    · rw [hioc1]

/-- The loop moves the entries that are in use over a gap and numbers them anew. -/
theorem shrinkLoop_spec (todo : List Slot) {ioc : IoContext} {pre gap : List Slot}
    (harrays : Arrays ioc (pre ++ gap ++ todo) fds ior) (hnodup : (slotIds todo).Nodup)
    (hids : Numbered ioc.ids (pre.length + gap.length) todo) :
    ∃ gap' ioc', shrinkLoop todo.length (pre.length + gap.length) pre.length ioc =
        .ok (pre.length + (kept todo).length, ioc') ∧
      Arrays ioc' (pre ++ kept todo ++ gap') fds ior ∧
      Numbered ioc'.ids pre.length (kept todo) ∧
      (∀ p, p ∉ slotIds todo → ioc'.ids.get p = ioc.ids.get p) ∧
      ioc' = { ioc with fds := ioc'.fds, ior := ioc'.ior, ids := ioc'.ids } := by
  induction todo generalizing ioc pre gap with
  | nil =>
    refine ⟨gap, ioc, rfl, ?_, nofun, fun _ _ => rfl, rfl⟩
    simpa [kept] using harrays
  | cons t todo ih =>
    rw [List.length_cons]
    cases hid : t.2.id with
    | none =>
      have hrec : ioc.recAt (pre.length + gap.length) = .ok t.2 := by
        rw [← List.length_append]
        exact harrays.recAt
      have hshift : Arrays ioc (pre ++ (gap ++ [t]) ++ todo) fds ior := by simpa using harrays
      rw [slotIds_cons_none hid] at hnodup ⊢
      rw [kept_cons_none hid, shrinkLoop, hrec, ok_bind, hid]
      have hrest := @ih ioc pre (gap ++ [t]) hshift hnodup
      rw [List.length_append] at hrest
      exact hrest hids.tail
    | some id =>
      rw [slotIds_cons_some hid] at hnodup ⊢
      rw [kept_cons_some hid]
      obtain ⟨hnew, hnodup⟩ := List.nodup_cons.mp hnodup
      obtain ⟨gap1, ioc1, hround, hgap1, harrays1, hcell1, hother1, hioc1⟩ :=
        shrinkLoop_used todo.length harrays hid (hids.head hid)
      have hdone : (pre ++ [t]).length = pre.length + 1 := List.length_append
      have hlens : (pre ++ [t]).length + gap1.length = pre.length + gap.length + 1 := by
        rw [hdone, hgap1]
        omega
      have hnumbers : Numbered ioc1.ids ((pre ++ [t]).length + gap1.length) todo := by
        rw [hlens]
        intro j t' p ht' hp
        rw [hother1 p (by rintro rfl; exact hnew (mem_slotIds ht' hp))]
        exact hids.tail j t' p ht' hp
      obtain ⟨gap', ioc', hloop, harrays', hids', hsame, hioc'⟩ :=
        @ih ioc1 (pre ++ [t]) gap1 harrays1 hnodup hnumbers
      rw [hlens, hdone] at hloop
      rw [hdone] at hids'
      refine ⟨gap', ioc', ?_, ?_, ?_, ?_, ?_⟩
      · rw [hround, hloop, List.length_cons, Nat.add_right_comm, Nat.add_assoc]
      · simpa using harrays'
      · exact hids'.cons hid ((hsame id hnew).trans hcell1)
      · intro p hp
        rw [hsame p fun hmem => hp (List.mem_cons_of_mem id hmem)]
        exact hother1 p fun heq => hp (heq ▸ List.mem_cons_self)
      · rw [hioc', hioc1]

end

/-! ## Tables of entries in use -/

/-- What a change makes of an entry. -/
def Slot.change (t : Slot) (fd : Int32) (iocb data : Nat) (events : Int16) : Slot :=
  ({ t.1 with
      fd := if fd > -1 then fd else t.1.fd
      events := if events ≠ 0 then events else t.1.events },
    { t.2 with
      ioCallback := if iocb ≠ 0 then iocb else t.2.ioCallback
      data := if data ≠ 0 then data else t.2.data })

@[simp] theorem Slot.change_id (t : Slot) (fd : Int32) (iocb data : Nat) (events : Int16) :
    (t.change fd iocb data events).2.id = t.2.id := rfl

/-- A table outside of callbacks: its entries are all in use, and their ids are apart and point to
    their indexes. -/
structure Table (ioc : IoContext) (slots : List Slot) : Prop where
  arrays : ∃ fds ior, Arrays ioc slots fds ior
  fdcnt : ioc.fdcnt.toNat = slots.length
  small : slots.length < 2 ^ 31
  used : ∀ t ∈ slots, t.2.id.isSome
  nodup : (slotIds slots).Nodup
  numbered : Numbered ioc.ids 0 slots
  idle : ioc.currentIoc = -1

section

variable {ioc : IoContext} {slots pre post : List Slot} {t : Slot} {id : Addr}

theorem kept_of_used (h : ∀ t ∈ slots, t.2.id.isSome) : kept slots = slots :=
  List.filter_eq_self.mpr h

/-- The search goes through the entries in order. -/
theorem findId_eq (todo : List Slot) {pre : List Slot} {fds : List Pollfd} {ior : List IoRec}
    (h : Arrays ioc (pre ++ todo) fds ior) (id : Addr) :
    findId ioc id todo.length pre.length =
      .ok ((todo.findIdx? fun t => t.2.id = some id).map (pre.length + ·)) := by
  induction todo generalizing pre with
  | nil => rfl
  | cons t todo ih =>
    rw [List.length_cons, findId, h.recAt, ok_bind, List.findIdx?_cons]
    by_cases hid : t.2.id = some id
    · simp [hid]
    · have hrest := @ih (pre ++ [t]) (by simpa using h)
      rw [List.length_append, List.length_singleton] at hrest
      rw [if_neg hid, hrest]
      simp [hid, Nat.add_assoc, Nat.add_comm 1, Function.comp_def]

/-- When the ids are apart, the other entries have others. -/
theorem notMem_of_nodup (hnodup : (slotIds (pre ++ t :: post)).Nodup) (hid : t.2.id = some id) :
    id ∉ slotIds pre ∧ id ∉ slotIds post := by
  rw [slotIds, List.filterMap_append, ← slotIds, ← slotIds, slotIds_cons_some hid] at hnodup
  obtain ⟨-, htail, hapart⟩ := List.nodup_append.mp hnodup
  refine ⟨?_, (List.nodup_cons.mp htail).1⟩
  intro hmem
  exact hapart id hmem id List.mem_cons_self rfl

theorem slotIds_mem {t' : Slot} (ht : t' ∈ slots) (hid : t'.2.id = some id) : id ∈ slotIds slots :=
  List.mem_filterMap.mpr ⟨t', ht, hid⟩

theorem findId_some {fds : List Pollfd} {ior : List IoRec}
    (harrays : Arrays ioc (pre ++ t :: post) fds ior)
    (hfdcnt : ioc.fdcnt.toNat = (pre ++ t :: post).length) (hid : t.2.id = some id)
    (hpre : id ∉ slotIds pre) : findId ioc id ioc.fdcnt.toNat 0 = .ok (some pre.length) := by
  have hnone : pre.findIdx? (fun t => t.2.id = some id) = none := by
    apply List.findIdx?_eq_none_iff.mpr
    intro t' ht'
    apply decide_eq_false
    intro heq
    exact hpre (slotIds_mem ht' heq)
  have hloop := @findId_eq ioc (pre ++ t :: post) [] fds ior harrays id
  rw [hfdcnt]
  refine hloop.trans ?_
  simp [List.findIdx?_append, hnone, List.findIdx?_cons, hid]

theorem findId_none {fds : List Pollfd} {ior : List IoRec} (harrays : Arrays ioc slots fds ior)
    (hfdcnt : ioc.fdcnt.toNat = slots.length) (hid : id ∉ slotIds slots) :
    findId ioc id ioc.fdcnt.toNat 0 = .ok none := by
  have hnone : slots.findIdx? (fun t => t.2.id = some id) = none := by
    apply List.findIdx?_eq_none_iff.mpr
    intro t' ht'
    apply decide_eq_false
    intro heq
    exact hid (slotIds_mem ht' heq)
  have hloop := @findId_eq ioc slots [] fds ior harrays id
  rw [hfdcnt]
  refine hloop.trans ?_
  rw [hnone]
  rfl

/-- An id that no entry has is not removed. -/
theorem spdIoContextRemove_none {fds : List Pollfd} {ior : List IoRec}
    (harrays : Arrays ioc slots fds ior) (hfdcnt : ioc.fdcnt.toNat = slots.length)
    (hid : id ∉ slotIds slots) : spdIoContextRemove ioc (some id) = .ok (-1, ioc) := by
  rw [spdIoContextRemove, findId_none harrays hfdcnt hid]
  rfl

/-- What a removal leaves of an entry until the table is shrunk. -/
def Slot.cleared (t : Slot) : Slot :=
  ({ t.1 with events := 0, revents := 0 }, { t.2 with id := none })

/-- A removal frees the id and clears its entry; outside of callbacks it shrinks the table. -/
theorem spdIoContextRemove_some {fds : List Pollfd} {ior : List IoRec}
    (harrays : Arrays ioc (pre ++ t :: post) fds ior)
    (hfdcnt : ioc.fdcnt.toNat = (pre ++ t :: post).length) (hid : t.2.id = some id)
    (hpre : id ∉ slotIds pre) (halloc : id ∈ ioc.ids.dom) :
    ∃ ioc1, Arrays ioc1 (pre ++ t.cleared :: post) fds ior ∧
      ioc1 = { ioc with
        fds := ioc1.fds
        ior := ioc1.ior
        ids := ioc.ids.free id
        needshrink := 1 } ∧
      spdIoContextRemove ioc (some id) = if ioc.currentIoc = -1 then do
          let ioc ← ioShrink ioc1
          .ok (0, ioc)
        else .ok (0, ioc1) := by
  have hf : pre.length < ioc.fds.length := by simp [harrays.fds]
  have hr : pre.length < ioc.ior.length := by simp [harrays.ior]
  refine ⟨{ ioc with
    fds := ioc.fds.set pre.length t.cleared.1
    ior := ioc.ior.set pre.length t.cleared.2
    ids := ioc.ids.free id
    needshrink := 1 }, ⟨by simp [harrays.fds], by simp [harrays.ior]⟩, rfl, ?_⟩
  have hrec : ioc.recAt pre.length = .ok t.2 := harrays.recAt
  have hfree : ioc.freeId id = .ok { ioc with ids := ioc.ids.free id } := if_pos halloc
  have hsetRec : IoContext.setRec { ioc with ids := ioc.ids.free id } pre.length
      { t.2 with id := none } =
      .ok { ioc with ids := ioc.ids.free id, ior := ioc.ior.set pre.length t.cleared.2 } :=
    if_pos hr
  have hfd : IoContext.fdAt { ioc with
      ids := ioc.ids.free id
      ior := ioc.ior.set pre.length t.cleared.2 } pre.length = .ok t.1 := harrays.fdAt
  have hsetFd : IoContext.setFd { ioc with
      ids := ioc.ids.free id
      ior := ioc.ior.set pre.length t.cleared.2 } pre.length
      { t.1 with events := 0, revents := 0 } = .ok { ioc with
      ids := ioc.ids.free id
      ior := ioc.ior.set pre.length t.cleared.2
      fds := ioc.fds.set pre.length t.cleared.1 } := if_pos hf
  rw [spdIoContextRemove, findId_some harrays hfdcnt hid hpre, ok_bind]
  dsimp only
  rw [hrec, ok_bind, hfree, ok_bind, hsetRec, ok_bind, hfd, ok_bind, hsetFd]
  rfl

/-- An id that is not in the table is not removed. -/
theorem Table.remove_none (h : Table ioc slots) (hid : id ∉ slotIds slots) :
    spdIoContextRemove ioc (some id) = .ok (-1, ioc) := by
  obtain ⟨fds, ior, harrays⟩ := h.arrays
  exact spdIoContextRemove_none harrays h.fdcnt hid

/-- `io_shrink` leaves the entries that are in use. -/
theorem ioShrink_spec {fds : List Pollfd} {ior : List IoRec} (harrays : Arrays ioc slots fds ior)
    (hfdcnt : ioc.fdcnt.toNat = slots.length) (hsmall : slots.length < 2 ^ 31)
    (hnodup : (slotIds slots).Nodup) (hnumbered : Numbered ioc.ids 0 slots)
    (hidle : ioc.currentIoc = -1) :
    ∃ ioc', ioShrink ioc = .ok ioc' ∧ Table ioc' (kept slots) := by
  obtain ⟨gap, ioc1, hloop, harrays1, hnumbered1, -, hioc1⟩ :=
    @shrinkLoop_spec fds ior slots ioc [] [] harrays hnodup hnumbered
  have hle : (kept slots).length ≤ slots.length := List.length_filter_le _ _
  have hids : slotIds (kept slots) = slotIds slots := by
    simp only [slotIds, kept, List.filterMap_filter]
    congr 1
    funext t
    cases t.2.id <;> rfl
  refine ⟨{ ioc1 with fdcnt := UInt32.ofNat (kept slots).length, needshrink := 0 }, ?_, ?_⟩
  · rw [ioShrink, hfdcnt]
    refine (congrArg (· >>= _) hloop).trans ?_
    simp
  · constructor
    · refine ⟨gap.map Prod.fst ++ fds, gap.map Prod.snd ++ ior, ?_, ?_⟩
      · rw [← List.append_assoc, ← List.map_append]
        exact harrays1.fds
      · rw [← List.append_assoc, ← List.map_append]
        exact harrays1.ior
    · show (UInt32.ofNat (kept slots).length).toNat = _
      rw [UInt32.toNat_ofNat']
      exact Nat.mod_eq_of_lt (by omega)
    · omega
    · intro t ht
      exact (List.mem_filter.mp ht).2
    · rw [hids]
      exact hnodup
    · exact hnumbered1
    · rw [hioc1]
      exact hidle

theorem slotIds_replace {t' : Slot} (hid : t'.2.id = t.2.id) :
    slotIds (pre ++ t' :: post) = slotIds (pre ++ t :: post) := by
  simp only [slotIds, List.filterMap_append, List.filterMap_cons, hid]

/-- Only one entry of the list differs. -/
theorem getElem?_replace {t' u : Slot} {j : Nat} (h : (pre ++ t' :: post)[j]? = some u) :
    j = pre.length ∧ u = t' ∨ (pre ++ t :: post)[j]? = some u := by
  have hset : pre ++ t' :: post = (pre ++ t :: post).set pre.length t' := by simp
  rw [hset, List.getElem?_set] at h
  split at h
  next heq =>
    split at h
    · exact Or.inl ⟨heq.symm, (Option.some.inj h).symm⟩
    · cases h
  next => exact Or.inr h

/-- A removal takes out the entry of the id, and nothing else. -/
theorem Table.remove (h : Table ioc (pre ++ t :: post)) (hid : t.2.id = some id) :
    ∃ ioc', spdIoContextRemove ioc (some id) = .ok (0, ioc') ∧ Table ioc' (pre ++ post) := by
  obtain ⟨fds, ior, harrays⟩ := h.arrays
  obtain ⟨hpre, hpost⟩ := notMem_of_nodup h.nodup hid
  have hget : ioc.ids.get id = some (Int32.ofNat (0 + pre.length)) :=
    h.numbered pre.length t id (by simp) hid
  -- the entry is cleared, and the table is that of the list with the cleared one
  obtain ⟨ioc1, harrays1, hioc1, hremove⟩ :=
    spdIoContextRemove_some harrays h.fdcnt hid hpre (Heap.mem_dom_of_get hget)
  have hids : slotIds (pre ++ t.cleared :: post) = slotIds (pre ++ post) := by
    simp [slotIds, Slot.cleared]
  have hnodup : (slotIds (pre ++ t.cleared :: post)).Nodup := by
    rw [hids]
    have hsub : (slotIds (pre ++ post)).Sublist (slotIds (pre ++ t :: post)) :=
      ((List.sublist_cons_self t post).append_left pre).filterMap _
    exact h.nodup.sublist hsub
  have hnumbered : Numbered ioc1.ids 0 (pre ++ t.cleared :: post) := by
    rw [hioc1]
    intro j t' p ht hp
    have hmem := mem_slotIds ht hp
    rw [hids, slotIds, List.filterMap_append] at hmem
    have hne : p ≠ id := by
      rintro rfl
      exact (List.mem_append.mp hmem).elim hpre hpost
    dsimp only
    rw [Heap.get_free_of_ne ioc.ids hne]
    rcases getElem?_replace ht with ⟨-, rfl⟩ | ht
    · cases hp
    · exact h.numbered j t' p ht hp
  have hkept : kept (pre ++ t.cleared :: post) = pre ++ post := by
    have hused : ∀ t' ∈ pre ++ post, t'.2.id.isSome := by
      intro t' ht'
      rcases List.mem_append.mp ht' with ht' | ht'
      · exact h.used t' (List.mem_append_left _ ht')
      · exact h.used t' (List.mem_append_right _ (List.mem_cons_of_mem t ht'))
    rw [← kept_of_used hused]
    simp [kept, Slot.cleared]
  have hfdcnt : ioc1.fdcnt.toNat = (pre ++ t.cleared :: post).length := by
    rw [hioc1]
    simpa using h.fdcnt
  have hidle : ioc1.currentIoc = -1 := by
    rw [hioc1]
    exact h.idle
  obtain ⟨ioc', hshrink, htable⟩ := ioShrink_spec harrays1 hfdcnt (by simpa using h.small) hnodup
    hnumbered hidle
  rw [hkept] at htable
  refine ⟨ioc', ?_, htable⟩
  rw [hremove, if_pos h.idle, hshrink, ok_bind]

theorem Arrays.updFd {fds : List Pollfd} {ior : List IoRec}
    (h : Arrays ioc (pre ++ t :: post) fds ior) (c : Prop) [Decidable c] (f : Pollfd → Pollfd) :
    ∃ ioc', ioc.updFd c pre.length f = .ok ioc' ∧
      Arrays ioc' (pre ++ (if c then f t.1 else t.1, t.2) :: post) fds ior ∧
      ioc' = { ioc with fds := ioc'.fds } := by
  have hf : pre.length < ioc.fds.length := by simp [h.fds]
  unfold IoContext.updFd
  split
  · refine ⟨{ ioc with fds := ioc.fds.set pre.length (f t.1) }, ?_, ?_, rfl⟩
    · rw [h.fdAt, ok_bind, IoContext.setFd, if_pos hf]
    · exact ⟨by simp [h.fds], h.ior.trans (by simp)⟩
  · exact ⟨ioc, rfl, h, rfl⟩

theorem Arrays.updRec {fds : List Pollfd} {ior : List IoRec}
    (h : Arrays ioc (pre ++ t :: post) fds ior) (c : Prop) [Decidable c] (f : IoRec → IoRec) :
    ∃ ioc', ioc.updRec c pre.length f = .ok ioc' ∧
      Arrays ioc' (pre ++ (t.1, if c then f t.2 else t.2) :: post) fds ior ∧
      ioc' = { ioc with ior := ioc'.ior } := by
  have hr : pre.length < ioc.ior.length := by simp [h.ior]
  unfold IoContext.updRec
  split
  · refine ⟨{ ioc with ior := ioc.ior.set pre.length (f t.2) }, ?_, ?_, rfl⟩
    · rw [h.recAt, ok_bind, IoContext.setRec, if_pos hr]
    · exact ⟨h.fds.trans (by simp), by simp [h.ior]⟩
  · exact ⟨ioc, rfl, h, rfl⟩

theorem toNat_toUInt32_ofNat {n : Nat} (h : n < 2 ^ 31) : (Int32.ofNat n).toUInt32.toNat = n := by
  have hint : (Int32.ofNat n).toInt = n := Int32.toInt_ofNat_of_lt h
  have hnat := CInt.toNat_toUInt32 (x := Int32.ofNat n) (by omega)
  omega

/-- A change is made to the entry of the id, and to nothing else. -/
theorem Table.change (h : Table ioc (pre ++ t :: post)) (hid : t.2.id = some id) (fd : Int32)
    (iocb data : Nat) (events : Int16) :
    ∃ ioc', spdIoContextChange ioc id fd iocb data events = .ok (some id, ioc') ∧
      Table ioc' (pre ++ t.change fd iocb data events :: post) := by
  obtain ⟨fds, ior, harrays⟩ := h.arrays
  have hget : ioc.readId id = .ok (Int32.ofNat pre.length) := by
    have hcell := h.numbered pre.length t id (by simp) hid
    rw [Nat.zero_add] at hcell
    rw [IoContext.readId, hcell]
  have hsmall := h.small
  have hfdcnt := h.fdcnt
  rw [List.length_append, List.length_cons] at hsmall hfdcnt
  have hindex : (Int32.ofNat pre.length).toUInt32.toNat = pre.length :=
    toNat_toUInt32_ofNat (by omega)
  have hle : ¬ (Int32.ofNat pre.length).toUInt32 > ioc.fdcnt := by
    rw [gt_iff_lt, UInt32.lt_iff_toNat_lt, hindex]
    omega
  obtain ⟨ioc1, h1, harrays1, hioc1⟩ := harrays.updFd (fd > -1) fun p => { p with fd := fd }
  obtain ⟨ioc2, h2, harrays2, hioc2⟩ :=
    harrays1.updRec (iocb ≠ 0) fun r => { r with ioCallback := iocb }
  obtain ⟨ioc3, h3, harrays3, hioc3⟩ :=
    harrays2.updFd (events ≠ 0) fun p => { p with events := events }
  obtain ⟨ioc4, h4, harrays4, hioc4⟩ := harrays3.updRec (data ≠ 0) fun r => { r with data := data }
  have hioc : ioc4 = { ioc with fds := ioc4.fds, ior := ioc4.ior } := by
    rw [hioc4, hioc3, hioc2, hioc1]
  refine ⟨ioc4, ?_, ?_⟩
  · rw [spdIoContextChange, hget, ok_bind, if_neg hle]
    dsimp only
    rw [hindex, h1, ok_bind, h2, ok_bind, h3, ok_bind, h4, ok_bind]
  · constructor
    · refine ⟨fds, ior, ?_⟩
      convert harrays4 using 3
      unfold Slot.change
      split_ifs <;> rfl
    · rw [hioc]
      simpa using h.fdcnt
    · simpa using h.small
    · intro t' ht'
      rcases List.mem_append.mp ht' with ht' | ht'
      · exact h.used t' (List.mem_append_left _ ht')
      rcases List.mem_cons.mp ht' with rfl | ht'
      · rw [Slot.change_id, hid]
        rfl
      · exact h.used t' (List.mem_append_right _ (List.mem_cons_of_mem t ht'))
    · rw [slotIds_replace (t.change_id fd iocb data events)]
      exact h.nodup
    · rw [hioc]
      intro j t' p ht hp
      rcases getElem?_replace ht with ⟨rfl, rfl⟩ | ht
      · exact h.numbered pre.length t p (by simp) hp
      · exact h.numbered j t' p ht hp
    · rw [hioc]
      exact h.idle

end

/-! ## The system -/

/-- A registration: the id that an addition returned, and what was given for it. -/
structure Reg where
  id : Addr
  fd : Int32
  events : Int16
  iocb : Nat
  data : Nat
  deriving DecidableEq, Repr

/-- A table, and the registrations that are not removed. -/
structure St where
  ioc : IoContext
  regs : List Reg

inductive Op where
  | add (fd : Int32) (iocb data : Nat) (events : Int16) (a : Answers)
  | change (id : Addr) (fd : Int32) (iocb data : Nat) (events : Int16)
  | remove (id : Option Addr)

def Op.isAdd : Op → Bool
  | .add .. => true
  | _ => false

/-- What a change means for a registration. -/
def Reg.change (g : Reg) (fd : Int32) (iocb data : Nat) (events : Int16) : Reg where
  id := g.id
  fd := if fd > -1 then fd else g.fd
  events := if events ≠ 0 then events else g.events
  iocb := if iocb ≠ 0 then iocb else g.iocb
  data := if data ≠ 0 then data else g.data

def step (s : St) : Op → Outcome St
  | .add fd iocb data events a => do
    let (ret, ioc) ← spdIoContextAdd s.ioc fd iocb data events a
    match ret with
    | none => .ok { s with ioc := ioc }
    | some id => .ok ⟨ioc, s.regs ++ [⟨id, fd, events, iocb, data⟩]⟩
  | .change id fd iocb data events => do
    let (_, ioc) ← spdIoContextChange s.ioc id fd iocb data events
    .ok ⟨ioc, s.regs.map fun g => if g.id = id then g.change fd iocb data events else g⟩
  | .remove id => do
    let (_, ioc) ← spdIoContextRemove s.ioc id
    .ok ⟨ioc, s.regs.filter fun g => some g.id ≠ id⟩

/-- A new id is a new pointer, and what is changed has been added. -/
def Enabled (s : St) : Op → Prop
  | .add _ _ _ _ a => ∀ id ∈ a.malloc, id ∉ s.ioc.ids.dom
  | .change id .. => ∃ g ∈ s.regs, g.id = id
  | .remove _ => True

instance (s : St) : ∀ o, Decidable (Enabled s o)
  | .add _ _ _ _ a => inferInstanceAs (Decidable (∀ id ∈ a.malloc, id ∉ s.ioc.ids.dom))
  | .change id .. => inferInstanceAs (Decidable (∃ g ∈ s.regs, g.id = id))
  | .remove _ => inferInstanceAs (Decidable True)

/-- Each registration is in the table, under the index that its id points to, with its own contents,
    and different ones have different indexes. -/
structure Sound (s : St) : Prop where
  entry : ∀ g ∈ s.regs, ∃ i p, s.ioc.ids.get g.id = some (Int32.ofNat i) ∧
    i < s.ioc.fdcnt.toNat ∧ s.ioc.ior[i]? = some ⟨g.iocb, g.data, some g.id⟩ ∧
    s.ioc.fds[i]? = some p ∧ p.fd = g.fd ∧ p.events = g.events
  apart : ∀ g ∈ s.regs, ∀ g' ∈ s.regs, g.id ≠ g'.id → s.ioc.ids.get g.id ≠ s.ioc.ids.get g'.id
  bounds : s.ioc.fdcnt.toNat ≤ s.ioc.fds.length ∧ s.ioc.fdcnt.toNat ≤ s.ioc.ior.length

/-- The registration that a slot in use holds. -/
def Slot.reg (t : Slot) : Reg := ⟨t.2.id.getD 0, t.1.fd, t.1.events, t.2.ioCallback, t.2.data⟩

/-- The table holds the registrations. -/
def Holds (s : St) : Prop := ∃ slots, Table s.ioc slots ∧ s.regs = slots.map Slot.reg

/-- The table that the unreached lines would set up, without registrations. -/
def start : St := ⟨newTable, []⟩

/-! ### Through the pointer that was returned -/

/-- A step of a program that holds the pointer returned by `spd_io_context_create`. Behind a null
    pointer there is no table to read; the removal of a null id returns before it is read
    (`io.c:200-203`). -/
def pointerStep : Option St → Op → Outcome (Option St)
  | some s, o => do
    let s ← step s o
    .ok (some s)
  | none, .remove none => .ok none
  | none, _ => .fault

@[inherit_doc Sound] def PointerSound (p : Option St) : Prop := ∀ s ∈ p, Sound s

/-- What `spd_io_context_create` returned, without registrations. -/
def created : Option St := spdIoContextCreate.map (⟨·, []⟩)

section

variable {s : St} {slots pre post : List Slot} {t : Slot} {id : Addr}

theorem Table.id_eq (h : Table s.ioc slots) (ht : t ∈ slots) : t.2.id = some t.reg.id := by
  have hsome := h.used t ht
  rw [Slot.reg]
  cases hid : t.2.id with
  | none =>
    rw [hid] at hsome
    cases hsome
  | some id => rfl

theorem Holds.sound (h : Holds s) : Sound s := by
  obtain ⟨slots, htable, hregs⟩ := h
  obtain ⟨fds, ior, harrays⟩ := htable.arrays
  have hslot : ∀ g ∈ s.regs, ∃ (i : Nat) (t : Slot), slots[i]? = some t ∧ t.reg = g ∧
      t.2.id = some g.id := by
    intro g hg
    rw [hregs] at hg
    obtain ⟨t, ht, rfl⟩ := List.mem_map.mp hg
    obtain ⟨i, hi⟩ := List.getElem?_of_mem ht
    exact ⟨i, t, hi, rfl, htable.id_eq ht⟩
  constructor
  · intro g hg
    obtain ⟨i, t, hi, rfl, hid⟩ := hslot g hg
    have hlt : i < slots.length := (List.getElem?_eq_some_iff.mp hi).1
    have hget := htable.numbered i t _ hi hid
    rw [Nat.zero_add] at hget
    refine ⟨i, t.1, hget, htable.fdcnt ▸ hlt, ?_, ?_, rfl, rfl⟩
    · rw [harrays.ior, List.getElem?_append_left (by simpa using hlt), List.getElem?_map, hi, ← hid]
      rfl
    · rw [harrays.fds, List.getElem?_append_left (by simpa using hlt), List.getElem?_map, hi]
      rfl
  · intro g hg g' hg' hne heq
    obtain ⟨i, t, hi, -, hid⟩ := hslot g hg
    obtain ⟨i', t', hi', -, hid'⟩ := hslot g' hg'
    have hlt : i < slots.length := (List.getElem?_eq_some_iff.mp hi).1
    have hlt' : i' < slots.length := (List.getElem?_eq_some_iff.mp hi').1
    have hsmall := htable.small
    rw [htable.numbered i t _ hi hid, htable.numbered i' t' _ hi' hid', Nat.zero_add,
      Nat.zero_add] at heq
    have hindex := congrArg (fun x => x.toUInt32.toNat) (Option.some.inj heq)
    simp only [toNat_toUInt32_ofNat (Nat.lt_trans hlt hsmall),
      toNat_toUInt32_ofNat (Nat.lt_trans hlt' hsmall)] at hindex
    rw [hindex, hi'] at hi
    obtain rfl := Option.some.inj hi
    exact hne (Option.some.inj (hid.symm.trans hid'))
  · rw [htable.fdcnt, harrays.fds, harrays.ior]
    simp

theorem exists_slot (h : id ∈ slotIds slots) :
    ∃ pre t post, slots = pre ++ t :: post ∧ t.2.id = some id := by
  obtain ⟨t, ht, hid⟩ := List.mem_filterMap.mp h
  obtain ⟨pre, post, rfl⟩ := List.append_of_mem ht
  exact ⟨pre, t, post, rfl, hid⟩

/-- The registrations of the other slots have other ids. -/
theorem reg_id_ne {slots : List Slot} (h : ∀ t ∈ slots, t.2.id = some t.reg.id)
    (hid : id ∉ slotIds slots) : ∀ g ∈ slots.map Slot.reg, g.id ≠ id := by
  intro g hg heq
  obtain ⟨t, ht, rfl⟩ := List.mem_map.mp hg
  exact hid (slotIds_mem ht (heq ▸ h t ht))

/-- A change of another registration. -/
theorem Table.map_other (h : Table s.ioc slots) (t : Slot) {others : List Slot}
    (hnot : t.reg.id ∉ slotIds others) (hsub : ∀ t' ∈ others, t' ∈ slots) {f : Reg → Reg} :
    (others.map Slot.reg).map (fun g => if g.id = t.reg.id then f g else g) =
      others.map Slot.reg := by
  have hne := reg_id_ne (fun t' ht' => h.id_eq (hsub t' ht')) hnot
  calc
    _ = (others.map Slot.reg).map id := List.map_congr_left fun g hg => if_neg (hne g hg)
    _ = others.map Slot.reg := List.map_id _

theorem Table.filter_other (h : Table s.ioc slots) {others : List Slot}
    (hnot : id ∉ slotIds others) (hsub : ∀ t' ∈ others, t' ∈ slots) :
    (others.map Slot.reg).filter (fun g => some g.id ≠ some id) = others.map Slot.reg := by
  have hne := reg_id_ne (fun t' ht' => h.id_eq (hsub t' ht')) hnot
  apply List.filter_eq_self.mpr
  intro g hg
  simpa using hne g hg

/-- From a table of entries in use, changes and removals return and keep it. -/
theorem Holds.step (h : Holds s) {o : Op} (he : Enabled s o) (ho : ¬ o.isAdd) :
    ∃ s', step s o = .ok s' ∧ Holds s' := by
  obtain ⟨slots, htable, hregs⟩ := h
  cases o with
  | add fd iocb data events a => exact absurd rfl ho
  | change id fd iocb data events =>
    obtain ⟨g, hg, rfl⟩ := he
    rw [hregs] at hg
    obtain ⟨t, ht, rfl⟩ := List.mem_map.mp hg
    have hid := htable.id_eq ht
    obtain ⟨pre, post, rfl⟩ := List.append_of_mem ht
    obtain ⟨ioc', hchange, htable'⟩ := htable.change hid fd iocb data events
    obtain ⟨hpre, hpost⟩ := notMem_of_nodup htable.nodup hid
    refine ⟨⟨ioc', _⟩, by rw [Io.step, hchange, ok_bind], _, htable', ?_⟩
    rw [hregs, List.map_append, List.map_append, List.map_append, List.map_cons, List.map_cons,
      List.map_cons, if_pos rfl, htable.map_other t hpre fun t' ht' => List.mem_append_left _ ht',
      htable.map_other t hpost fun t' ht' => List.mem_append_right _ (List.mem_cons_of_mem t ht')]
    rfl
  | remove id =>
    cases id with
    | none =>
      refine ⟨⟨s.ioc, _⟩, rfl, slots, htable, ?_⟩
      rw [← hregs]
      exact List.filter_eq_self.mpr fun g _ => rfl
    | some id =>
      by_cases hmem : id ∈ slotIds slots
      · obtain ⟨pre, t, post, rfl, hid⟩ := exists_slot hmem
        obtain ⟨ioc', hremove, htable'⟩ := htable.remove hid
        obtain ⟨hpre, hpost⟩ := notMem_of_nodup htable.nodup hid
        refine ⟨⟨ioc', _⟩, by rw [Io.step, hremove, ok_bind], _, htable', ?_⟩
        have hreg : t.reg.id = id :=
          Option.some.inj ((htable.id_eq (List.mem_append_right _ List.mem_cons_self)).symm.trans hid)
        rw [hregs, List.map_append, List.map_cons, List.filter_append, List.filter_cons,
          htable.filter_other hpre fun t' ht' => List.mem_append_left _ ht',
          htable.filter_other hpost fun t' ht' =>
            List.mem_append_right _ (List.mem_cons_of_mem t ht'), List.map_append]
        simp [hreg]
      · have hsame : s.regs.filter (fun g => some g.id ≠ some id) = slots.map Slot.reg := by
          rw [hregs]
          exact htable.filter_other hmem fun t' ht' => ht'
        refine ⟨⟨s.ioc, slots.map Slot.reg⟩, ?_, slots, htable, rfl⟩
        rw [Io.step, htable.remove_none hmem, ok_bind]
        dsimp only
        rw [hsame]

/-- The first addition reads the id that is not there yet. -/
theorem add_start (fd : Int32) (iocb data : Nat) (events : Int16) (a : Answers) :
    Io.step start (.add fd iocb data events a) = .fault := by
  have hgrow : ¬ newTable.fdcnt > newTable.maxfdcnt := by decide
  have hfd : 0 < newTable.fds.length := by
    rw [newTable, List.length_replicate]
    decide
  have hior : 0 < newTable.ior.length := by
    rw [newTable, List.length_replicate]
    decide
  have hrec : newTable.recAt 0 = .ok ⟨0, 0, none⟩ := rfl
  have hsetFd : newTable.setFd 0 ⟨fd, events, 0⟩ = .ok { newTable with
      fds := newTable.fds.set 0 ⟨fd, events, 0⟩ } := if_pos hfd
  have hrec' : IoContext.recAt { newTable with
      fds := newTable.fds.set 0 ⟨fd, events, 0⟩ } 0 = .ok ⟨0, 0, none⟩ := hrec
  have hsetRec : IoContext.setRec { newTable with
      fds := newTable.fds.set 0 ⟨fd, events, 0⟩ } 0 ⟨iocb, data, none⟩ =
      .ok { newTable with
        fds := newTable.fds.set 0 ⟨fd, events, 0⟩
        ior := newTable.ior.set 0 ⟨iocb, data, none⟩ } := if_pos hior
  have hzero : newTable.fdcnt.toNat = 0 := rfl
  rw [Io.step, start, spdIoContextAdd, if_neg hgrow, ok_bind]
  dsimp only
  rw [if_neg (by decide), hzero, hsetFd, ok_bind, hrec', ok_bind, hsetRec]
  rfl

theorem holds_start : Holds start := by
  refine ⟨[], ?_, rfl⟩
  constructor
  · exact ⟨_, _, rfl, rfl⟩
  · rfl
  · decide
  · nofun
  · exact List.nodup_nil
  · nofun
  · rfl

theorem Holds.always {os : List Op} (h : Holds s) (hl : Run.Legal Io.step Enabled s os)
    (ho : ∀ o ∈ os, ¬ o.isAdd) : Run.Always Io.step Sound s os := by
  induction os generalizing s with
  | nil => exact h.sound
  | cons o os ih =>
    obtain ⟨s', hstep, hs'⟩ := h.step hl.1 (ho o List.mem_cons_self)
    exact ⟨h.sound, s', hstep,
      ih hs' (hl.2 s' hstep) fun o' ho' => ho o' (List.mem_cons_of_mem o ho')⟩

/-- Before the first addition nothing happens to a new table. -/
theorem step_start {o : Op} {s' : St} (he : Enabled start o) (h : Io.step start o = .ok s') :
    s' = start := by
  cases o with
  | add fd iocb data events a =>
    rw [add_start] at h
    cases h
  | change id fd iocb data events =>
    obtain ⟨g, hg, -⟩ := he
    cases hg
  | remove id =>
    cases id with
    | none => exact (Outcome.ok.inj h).symm
    | some id => exact (Outcome.ok.inj h).symm

/-- A run from the table of the unreached lines is right exactly when nothing is added. -/
theorem always_start_iff (os : List Op) (hl : Run.Legal Io.step Enabled start os) :
    Run.Always Io.step Sound start os ↔ ∀ o ∈ os, ¬ o.isAdd := by
  constructor
  · intro h
    induction os with
    | nil => nofun
    | cons o os ih =>
      obtain ⟨-, s', hstep, hrest⟩ := h
      have hs' := step_start hl.1 hstep
      subst hs'
      intro o' ho'
      rcases List.mem_cons.mp ho' with rfl | ho'
      · cases o' with
        | add fd iocb data events a =>
          rw [add_start] at hstep
          cases hstep
        | change id fd iocb data events => nofun
        | remove id => nofun
      · exact ih (hl.2 _ hstep) hrest o' ho'
  · intro h
    exact holds_start.always hl h

/-- Through the null pointer only the removals of null ids return. -/
theorem always_created_iff (os : List Op) :
    Run.Always pointerStep PointerSound created os ↔ ∀ o ∈ os, o = .remove none := by
  have hsound : PointerSound created := by nofun
  induction os with
  | nil => exact ⟨fun _ => by nofun, fun _ => hsound⟩
  | cons o os ih =>
    constructor
    · intro h
      obtain ⟨-, p, hstep, hrest⟩ := h
      have ho : o = .remove none ∧ p = created := by
        cases o with
        | add fd iocb data events a => cases hstep
        | change id fd iocb data events => cases hstep
        | remove id =>
          cases id with
          | none => exact ⟨rfl, (Outcome.ok.inj hstep).symm⟩
          | some id => cases hstep
      obtain ⟨rfl, rfl⟩ := ho
      exact List.forall_mem_cons.mpr ⟨rfl, ih.mp hrest⟩
    · intro h
      obtain ⟨rfl, hos⟩ := List.forall_mem_cons.mp h
      exact ⟨hsound, created, rfl, ih.mpr hos⟩

/-- Through the pointer that `spd_io_context_create` returns, the registrations are kept exactly
    when every call is the removal of a null id; with the table that its unreached lines would set
    up, exactly when nothing is added. From any table of entries in use, changes and removals keep
    them. -/
theorem table_kept_iff (os : List Op) :
    (Run.Always pointerStep PointerSound created os ↔ ∀ o ∈ os, o = .remove none) ∧
    (Run.Legal Io.step Enabled start os →
      (Run.Always Io.step Sound start os ↔ ∀ o ∈ os, ¬ o.isAdd)) ∧
    ∀ s, Holds s → Run.Legal Io.step Enabled s os → (∀ o ∈ os, ¬ o.isAdd) →
      Run.Always Io.step Sound s os :=
  ⟨always_created_iff os, always_start_iff os, fun _ h hl ho => h.always hl ho⟩

/-- A table of three entries, with the ids 8, 16 and 24. -/
def threeEntries : St where
  ioc :=
    { fds := [⟨3, 1, 0⟩, ⟨4, 1, 0⟩, ⟨5, 1, 0⟩, ⟨0, 0, 0⟩]
      ior := [⟨100, 0, some 8⟩, ⟨200, 0, some 16⟩, ⟨300, 7, some 24⟩]
      fdcnt := 3
      maxfdcnt := 256
      currentIoc := -1
      needshrink := 0
      ids := ((Heap.set (∅ : Heap Int32) 8 0).set 16 1).set 24 2 }
  regs := [⟨8, 3, 1, 100, 0⟩, ⟨16, 4, 1, 200, 0⟩, ⟨24, 5, 1, 300, 7⟩]

theorem holds_threeEntries : Holds threeEntries := by
  refine ⟨[(⟨3, 1, 0⟩, ⟨100, 0, some 8⟩), (⟨4, 1, 0⟩, ⟨200, 0, some 16⟩),
    (⟨5, 1, 0⟩, ⟨300, 7, some 24⟩)], ?_, rfl⟩
  constructor
  case arrays => exact ⟨[⟨0, 0, 0⟩], [], rfl, rfl⟩
  case fdcnt => rfl
  case small => decide
  case used => decide
  case nodup => decide
  case numbered =>
    exact .cons rfl (by decide +kernel) (.cons rfl (by decide +kernel)
      (.cons rfl (by decide +kernel) .nil))
  case idle => rfl

/-- The first entry is removed, the others move down and are changed at their new places, and the
    last one is removed; the removals of no id and of one that is gone do nothing. -/
def changes : List Op :=
  [.change 16 9 0 0 4, .remove (some 8), .change 24 (-1) 400 0 0, .remove none, .remove (some 8),
    .change 16 (-1) 0 5 0, .remove (some 24)]

theorem legal_changes : Run.Legal Io.step Enabled threeEntries changes := by
  decide +kernel

theorem table_kept_threeEntries :
    Run.Always pointerStep PointerSound created [.remove none, .remove none] ∧
    Run.Always Io.step Sound start [.remove (some 8), .remove none] ∧
    Run.Always Io.step Sound threeEntries changes :=
  ⟨(table_kept_iff [.remove none, .remove none]).1.mpr (by simp),
    ((table_kept_iff [.remove (some 8), .remove none]).2.1 (by decide +kernel)).mpr (by decide),
    (table_kept_iff changes).2.2 threeEntries holds_threeEntries legal_changes (by decide)⟩

/-- The addition of descriptor 0 to a new table, with memory for everything. -/
def firstAdd : Op := .add 0 1 0 1 ⟨none, none, some 1⟩

/-- Neither the pointer that is returned nor the table that would be set up survives the first
    addition. -/
theorem table_lost : spdIoContextCreate = none ∧
    Run.run pointerStep created [firstAdd] = .fault ∧
    (Run.Legal Io.step Enabled start [firstAdd] ∧ Run.run Io.step start [firstAdd] = .fault) ∧
    ¬ ∀ os, Run.Legal Io.step Enabled start os → Run.Always Io.step Sound start os := by
  have hfault : Io.step start firstAdd = .fault := add_start 0 1 0 1 _
  have hlegal : Run.Legal Io.step Enabled start [firstAdd] := by
    refine ⟨fun id _ => ?_, fun _ _ => trivial⟩
    show id ∉ Heap.dom ∅
    simp
  refine ⟨rfl, rfl, ⟨hlegal, ?_⟩, ?_⟩
  · rw [Run.run, hfault]
    rfl
  · intro h
    obtain ⟨-, s', hstep, -⟩ := h _ hlegal
    rw [hfault] at hstep
    cases hstep

end

end Spider.Io
