import Spider.Times
import Spider.Lib.Heap
import Spider.Lib.Insertion
import Spider.Lib.Outcome
import Mathlib.Data.List.Nodup

/-!
# The scheduler

The entries of a context are in its queue, in its cache of unused ones, or in
the hands of a `spd_sched_runall` whose callback is running. The functions act
on the context and its heap. The removals of lines 100 and 313 are read as
removals of the first element, and the insertion of line 158 as one of `s`
before `cur`.
-/

namespace Spider.Sched

open Lib Outcome Times

abbrev Addr := Nat

/-- `struct scheduler`. -/
structure Scheduler where
  flag : Int32 := 0
  reschedule : Int32 := 0
  id : Int32 := 0
  when : Timeval := ⟨0, 0⟩
  callback : Nat := 0
  data : Nat := 0
  deriving DecidableEq, Repr

/-- `struct scheduler_context`. -/
structure Context where
  heap : Heap Scheduler
  schedulerq : List Addr
  schedulerc : List Addr
  processedcnt : UInt32
  schedsnt : UInt32
  schedccnt : UInt32
  deriving DecidableEq

/-- `spd_sched_context_create`. -/
def spdSchedContextCreate : Context where
  heap := ∅
  schedulerq := []
  schedulerc := []
  processedcnt := 1
  schedsnt := 0
  schedccnt := 0

namespace Context

def read (c : Context) (s : Addr) : Outcome Scheduler :=
  match c.heap.get s with
  | some e => .ok e
  | none => .fault

def write (c : Context) (s : Addr) (e : Scheduler) : Context := { c with heap := c.heap.set s e }

end Context

/-- `SPD_SCHED_MA_CACHE`. -/
def spdSchedMaCache : UInt32 := 128

/-- `sched_alloc` (`scheduler.c:95-108`), with the answer of `spd_calloc`. -/
def schedAlloc (con : Context) (calloc : Option Addr) : Option (Addr × Context) :=
  match con.schedulerc with
  | tmp :: rest => some (tmp, { con with schedulerc := rest, schedccnt := con.schedccnt - 1 })
  | [] =>
    match calloc with
    | some tmp => some (tmp, con.write tmp {})
    | none => none

/-- `scheduler_release` (`scheduler.c:110-123`). -/
def schedulerRelease (con : Context) (sc : Addr) : Context :=
  if con.schedccnt < spdSchedMaCache then
    { con with schedulerc := sc :: con.schedulerc, schedccnt := con.schedccnt + 1 }
  else { con with heap := con.heap.free sc }

/-- The loop of `add_scheduler`, with the insertion at the tail when it ends. -/
def insertBefore (c : Context) (when : Timeval) (s : Addr) : List Addr → Outcome (List Addr)
  | [] => .ok [s]
  | cur :: rest => do
    let e ← c.read cur
    if spdTvcmp when e.when = -1 then .ok (s :: cur :: rest)
    else do
      let rest ← insertBefore c when s rest
      .ok (cur :: rest)

/-- `add_scheduler` (`scheduler.c:152-168`). The statement `c->schedsnt;` counts nothing. -/
def addScheduler (c : Context) (s : Addr) : Outcome Context := do
  let e ← c.read s
  let q ← insertBefore c e.when s c.schedulerq
  .ok { c with schedulerq := q }

/-- `sched_settime` (`scheduler.c:175-186`): the value returned and the new `*tv`. -/
def schedSettime (tv : Timeval) (when : Int32) (now : Timeval) : Int32 × Timeval :=
  let tv := if spdTvzero tv then now else tv
  let tv := spdTvadd tv (spdSamp2tv when.toUInt32 1000)
  let tv := if spdTvcmp tv now < 0 then now else tv
  (0, tv)

/-- `spd_sched_add_flag` (`scheduler.c:191-226`). -/
def spdSchedAddFlag (con : Context) (when : Int32) (callback data : Nat) (flag : Int32)
    (calloc : Option Addr) (now : Timeval) : Outcome (Int32 × Context) :=
  if when = 0 then .ok (-1, con)
  else match schedAlloc con calloc with
    | none => .ok (-1, con)
    | some (tmp, con) => do
      let id := con.processedcnt.toInt32
      let con := { con with processedcnt := con.processedcnt + 1 }
      let (failed, tv) := schedSettime ⟨0, 0⟩ when now
      let con := con.write tmp
        { flag := flag, reschedule := when, id := id, when := tv, callback := callback,
          data := data }
      if failed ≠ 0 then .ok (-1, schedulerRelease con tmp)
      else do
        let con ← addScheduler con tmp
        let tmp ← con.read tmp
        .ok (tmp.id, con)

/-- `spd_sched_add` (`scheduler.c:228-231`). -/
def spdSchedAdd (con : Context) (when : Int32) (callback data : Nat) (calloc : Option Addr)
    (now : Timeval) : Outcome (Int32 × Context) :=
  spdSchedAddFlag con when callback data 0 calloc now

/-- The loop of `spd_sched_del`. -/
def findId (c : Context) (id : Int32) : List Addr → Outcome (Option Addr)
  | [] => .ok none
  | s :: rest => do
    let e ← c.read s
    if e.id = id then .ok (some s) else findId c id rest

/-- `spd_sched_del` (`scheduler.c:239-261`). -/
def spdSchedDel (c : Context) (id : Int32) : Outcome (Int32 × Context) := do
  match ← findId c id c.schedulerq with
  | some s =>
    let c := { c with schedulerq := c.schedulerq.erase s, schedsnt := c.schedsnt - 1 }
    .ok (0, schedulerRelease c s)
  | none => .ok (-1, c)

/-- The loop of `spd_sched_runall` up to the call (`scheduler.c:303-314`): the entry to call, or
    null when the loop ends. -/
def runallHead (c : Context) (now : Timeval) : Outcome (Option Addr × Context) :=
  match c.schedulerq with
  | [] => .ok (none, c)
  | cur :: rest => do
    let e ← c.read cur
    let tv := spdTvadd now ⟨0, 1000⟩
    if spdTvcmp e.when tv ≠ -1 then .ok (none, c)
    else .ok (some cur, { c with schedulerq := rest, schedsnt := c.schedsnt - 1 })

/-- The loop of `spd_sched_runall` after the call has returned `res` (`scheduler.c:330-342`). -/
def runallTail (c : Context) (cur : Addr) (res : Int32) (now : Timeval) : Outcome Context :=
  if res ≠ 0 then do
    let e ← c.read cur
    let (failed, tv) := schedSettime e.when (if e.flag ≠ 0 then res else e.reschedule) now
    let c := c.write cur { e with when := tv }
    if failed ≠ 0 then .ok (schedulerRelease c cur) else addScheduler c cur
  else .ok (schedulerRelease c cur)

/-! ## What they do to a context whose entries are all allocated -/

namespace Context

/-- The contents of `s`. -/
def entry (c : Context) (s : Addr) : Scheduler := (c.heap.get s).getD {}

variable {c : Context} {s : Addr}

theorem read_eq (h : s ∈ c.heap.dom) : c.read s = .ok (c.entry s) := by
  rcases Heap.mem_dom.mp h with ⟨e, he⟩
  simp only [read, entry, he, Option.getD_some]

@[simp] theorem entry_write (e : Scheduler) : (c.write s e).entry s = e := by
  simp only [entry, write, Heap.get_set_self, Option.getD_some]

theorem entry_write_of_ne {b : Addr} (e : Scheduler) (hne : b ≠ s) :
    (c.write s e).entry b = c.entry b := by
  simp only [entry, write, Heap.get_set_of_ne c.heap e hne]

/-- The entries in `held` and in the cache are allocated and apart, and their times are as the
    clock gives them. -/
structure Owns (c : Context) (held : List Addr) : Prop where
  nodup : (held ++ c.schedulerc).Nodup
  alloc : ∀ a ∈ held ++ c.schedulerc, a ∈ c.heap.dom
  normal : ∀ a, (c.entry a).when.Normal
  cached : c.schedccnt.toNat = c.schedulerc.length
  bound : c.schedulerc.length ≤ 128

/-- The order of the entries in `held` does not matter. -/
theorem Owns.perm {held held' : List Addr} (h : c.Owns held) (hp : held.Perm held') :
    c.Owns held' where
  nodup := (hp.append_right c.schedulerc).nodup_iff.mp h.nodup
  alloc a ha := h.alloc a ((hp.append_right c.schedulerc).mem_iff.mpr ha)
  normal := h.normal
  cached := h.cached
  bound := h.bound

theorem Owns.read {held : List Addr} (h : c.Owns held) (hs : s ∈ held) :
    c.read s = .ok (c.entry s) :=
  read_eq (h.alloc s (List.mem_append_left _ hs))

/-- Only the heap and the cache are looked at. -/
theorem Owns.setQueue {held : List Addr} (h : c.Owns held) (q : List Addr) (n m : UInt32) :
    Owns { c with schedulerq := q, processedcnt := n, schedsnt := m } held where
  nodup := h.nodup
  alloc := h.alloc
  normal := h.normal
  cached := h.cached
  bound := h.bound

theorem Owns.write {held : List Addr} {e : Scheduler} (h : c.Owns held) (he : e.when.Normal) :
    (c.write s e).Owns held where
  nodup := h.nodup
  alloc a ha := by
    show a ∈ (c.heap.set s e).dom
    rw [Heap.dom_set]
    exact Finset.mem_insert_of_mem (h.alloc a ha)
  normal a := by
    by_cases ha : a = s
    · rw [ha, entry_write]
      exact he
    · rw [entry_write_of_ne e ha]
      exact h.normal a
  cached := h.cached
  bound := h.bound

end Context

section Functions

variable {c c' : Context} {s : Addr} {held : List Addr} {now tv : Timeval} {when : Int32}

theorem normal_ite {a b : Timeval} (p : Prop) [Decidable p] (ha : a.Normal) (hb : b.Normal) :
    (if p then a else b).Normal := by
  split
  · exact ha
  · exact hb

theorem schedSettime_normal (htv : tv.Normal) (hnow : now.Normal) :
    (schedSettime tv when now).2.Normal := by
  have hstart := normal_ite (spdTvzero tv) hnow htv
  have hadd := spdTvadd_normal hstart (spdSamp2tv_normal when.toUInt32)
  exact normal_ite _ hnow hadd

/-- A new entry is apart from those held; nothing that is held changes. -/
theorem schedAlloc_owns (h : c.Owns held) {calloc : Option Addr}
    (hfresh : ∀ tmp, calloc = some tmp → tmp ∉ c.heap.dom)
    (halloc : schedAlloc c calloc = some (s, c')) :
    c'.Owns (s :: held) ∧ (∀ a ∈ held, c'.entry a = c.entry a) ∧
      c'.schedulerq = c.schedulerq ∧ c'.processedcnt = c.processedcnt := by
  unfold schedAlloc at halloc
  split at halloc
  next tmp rest hcache =>
    injection halloc with halloc
    injection halloc with htmp hc
    subst htmp hc
    have hperm : (held ++ tmp :: rest).Perm (tmp :: held ++ rest) := List.perm_middle
    refine ⟨⟨?_, ?_, h.normal, ?_, ?_⟩, fun _ _ => rfl, rfl, rfl⟩
    · exact hperm.nodup_iff.mp (hcache ▸ h.nodup)
    · intro a ha
      apply h.alloc a
      rw [hcache]
      exact hperm.mem_iff.mpr ha
    · have hcount := h.cached
      rw [hcache, List.length_cons] at hcount
      show (c.schedccnt - 1).toNat = rest.length
      have hle : (1 : UInt32) ≤ c.schedccnt := by
        rw [UInt32.le_iff_toNat_le, hcount]
        show 1 ≤ _
        omega
      rw [UInt32.toNat_sub_of_le _ _ hle, hcount]
      rfl
    · have hbound := h.bound
      rw [hcache, List.length_cons] at hbound
      show rest.length ≤ 128
      omega
  next hcache =>
    split at halloc
    next tmp =>
      injection halloc with halloc
      injection halloc with htmp hc
      subst htmp hc
      have hnew := hfresh tmp rfl
      have hnot : tmp ∉ held ++ c.schedulerc := fun hmem => hnew (h.alloc tmp hmem)
      have hw : (c.write tmp {}).Owns held := h.write timeval_zero_normal
      refine ⟨⟨?_, ?_, hw.normal, hw.cached, hw.bound⟩, ?_, rfl, rfl⟩
      · exact List.nodup_cons.mpr ⟨hnot, h.nodup⟩
      · intro a ha
        rcases List.mem_cons.mp ha with rfl | ha
        · show a ∈ (c.heap.set a {}).dom
          rw [Heap.dom_set]
          exact Finset.mem_insert_self a _
        · exact hw.alloc a ha
      · intro a ha
        apply Context.entry_write_of_ne
        intro heq
        exact hnot (List.mem_append_left _ (heq ▸ ha))
    next => exact absurd halloc nofun

/-- A released entry is held no longer; the others do not change. -/
theorem schedulerRelease_owns (h : c.Owns (s :: held)) :
    (schedulerRelease c s).Owns held ∧ (∀ a ∈ held, (schedulerRelease c s).entry a = c.entry a) ∧
      (schedulerRelease c s).schedulerq = c.schedulerq ∧
      (schedulerRelease c s).processedcnt = c.processedcnt := by
  have hnot := (List.nodup_cons.mp h.nodup).1
  unfold schedulerRelease
  split
  next hlt =>
    have hperm : (held ++ s :: c.schedulerc).Perm (s :: held ++ c.schedulerc) := List.perm_middle
    have hcount : c.schedccnt.toNat < 128 := UInt32.lt_iff_toNat_lt.mp hlt
    refine ⟨⟨?_, ?_, h.normal, ?_, ?_⟩, fun _ _ => rfl, rfl, rfl⟩
    · exact hperm.nodup_iff.mpr h.nodup
    · exact fun a ha => h.alloc a (hperm.mem_iff.mp ha)
    · show (c.schedccnt + 1).toNat = (s :: c.schedulerc).length
      rw [UInt32.toNat_add, List.length_cons, ← h.cached]
      show (c.schedccnt.toNat + 1) % 2 ^ 32 = _
      exact Nat.mod_eq_of_lt (by omega)
    · show (s :: c.schedulerc).length ≤ 128
      rw [List.length_cons, ← h.cached]
      omega
  next =>
    have hentry : ∀ a, a ≠ s → Context.entry { c with heap := c.heap.free s } a = c.entry a := by
      intro a ha
      simp only [Context.entry, Heap.get_free_of_ne c.heap ha]
    refine ⟨⟨(List.nodup_cons.mp h.nodup).2, ?_, ?_, h.cached, h.bound⟩, ?_, rfl, rfl⟩
    · intro a ha
      show a ∈ (c.heap.free s).dom
      rw [Heap.dom_free]
      apply Finset.mem_erase.mpr
      exact ⟨fun heq => hnot (heq ▸ ha), h.alloc a (List.mem_cons_of_mem s ha)⟩
    · intro a
      by_cases ha : a = s
      · subst ha
        simp only [Context.entry, Heap.get_free_self, Option.getD_none]
        exact timeval_zero_normal
      · rw [hentry a ha]
        exact h.normal a
    · intro a ha
      apply hentry
      intro heq
      exact hnot (heq ▸ List.mem_append_left _ ha)

/-- The due time of an entry, in microseconds. -/
def Context.due (c : Context) (s : Addr) : Int := (c.entry s).when.us

/-- `add_scheduler` puts the entry before the first that is due later. -/
theorem insertBefore_eq (h : c.Owns held) (s : Addr) {q : List Addr} (hq : ∀ a ∈ q, a ∈ held) :
    insertBefore c (c.entry s).when s q =
      .ok (q.orderedInsert (fun a b => c.due a < c.due b) s) := by
  induction q with
  | nil => rfl
  | cons cur q ih =>
    have hrest := ih fun a ha => hq a (List.mem_cons_of_mem cur ha)
    have hcmp := spdTvcmp_lt (h.normal s) (h.normal cur)
    rw [insertBefore, h.read (hq cur List.mem_cons_self), ok_bind, List.orderedInsert_cons]
    by_cases hlt : c.due s < c.due cur
    · rw [if_pos hlt, if_pos (hcmp.mpr hlt)]
    · rw [if_neg hlt, if_neg (mt hcmp.mp hlt), hrest, ok_bind]

theorem addScheduler_eq (h : c.Owns held) (hs : s ∈ held) (hq : ∀ a ∈ c.schedulerq, a ∈ held) :
    addScheduler c s = .ok { c with
      schedulerq := c.schedulerq.orderedInsert (fun a b => c.due a < c.due b) s } := by
  rw [addScheduler, h.read hs, ok_bind, insertBefore_eq h s hq, ok_bind]

/-- The loop of `spd_sched_del` finds the first entry with the id. -/
theorem findId_eq (h : c.Owns held) (id : Int32) {q : List Addr} (hq : ∀ a ∈ q, a ∈ held) :
    findId c id q = .ok (q.find? fun a => (c.entry a).id = id) := by
  induction q with
  | nil => rfl
  | cons s q ih =>
    have hrest := ih fun a ha => hq a (List.mem_cons_of_mem s ha)
    rw [findId, h.read (hq s List.mem_cons_self), ok_bind, hrest, List.find?_cons]
    by_cases hid : (c.entry s).id = id
    · rw [if_pos hid, decide_eq_true hid]
    · rw [if_neg hid, decide_eq_false hid]

/-- What `spd_sched_add_flag` writes into a new entry. -/
def newEntry (c : Context) (when : Int32) (callback data : Nat) (flag : Int32) (now : Timeval) :
    Scheduler where
  flag := flag
  reschedule := when
  id := c.processedcnt.toInt32
  when := (schedSettime ⟨0, 0⟩ when now).2
  callback := callback
  data := data

/-- `sched_settime` does not fail. -/
theorem spdSchedAddFlag_alloc {calloc : Option Addr} (callback data : Nat) (flag : Int32)
    (hwhen : when ≠ 0) (halloc : schedAlloc c calloc = some (s, c')) :
    spdSchedAddFlag c when callback data flag calloc now =
      addScheduler (Context.write { c' with processedcnt := c'.processedcnt + 1 } s
          (newEntry c' when callback data flag now)) s >>= fun con =>
        con.read s >>= fun tmp => .ok (tmp.id, con) := by
  rw [spdSchedAddFlag, if_neg hwhen, halloc]
  rfl

theorem runallTail_again {res : Int32} (hres : res ≠ 0) {e : Scheduler} (he : c.read s = .ok e) :
    runallTail c s res now = addScheduler (c.write s { e with
      when := (schedSettime e.when (if e.flag ≠ 0 then res else e.reschedule) now).2 }) s := by
  rw [runallTail, if_pos hres, he]
  rfl

end Functions

end Spider.Sched
