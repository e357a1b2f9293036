import Spider.Sched.Basic
import Spider.Lib.CInt
import Spider.Lib.Run

/-!
# Runs of the scheduler

`spd_sched_runall` is two steps: the head of its loop, up to the call, and the
rest of the loop after it. Between the two any function of the scheduler may be
called, by the callback or by another thread, another `spd_sched_runall`
included.
-/

namespace Spider.Sched

open Lib Outcome Times

/-- A reading of `gettimeofday`. -/
abbrev Clock := { t : Timeval // t.Normal }

/-- A context, the calls that are running in it and what has happened so far: when each event
    was last inserted, and which ids were added, deleted, finished and called. -/
structure St where
  con : Context
  running : List Addr
  stamp : Int32 → Nat
  inserts : Nat
  added : List Int32
  deleted : List Int32
  finished : List Int32
  calls : List Int32

inductive Op where
  | add (when : Int32) (callback data : Nat) (flag : Int32) (calloc : Option Addr) (now : Clock)
  | del (id : Int32)
  /-- The head of the loop of `spd_sched_runall`. -/
  | call (now : Clock)
  /-- The callback of `cur` has returned `res`. -/
  | ret (cur : Addr) (res : Int32) (now : Clock)

/-- An event with this id has just been inserted. -/
def St.inserted (s : St) (id : Int32) : St :=
  { s with stamp := Function.update s.stamp id s.inserts, inserts := s.inserts + 1 }

def step (s : St) : Op → Outcome St
  | .add when callback data flag calloc now => do
    let (res, con) ← spdSchedAddFlag s.con when callback data flag calloc now
    if res = -1 then .ok { s with con := con }
    else .ok { s.inserted res with con := con, added := res :: s.added }
  | .del id => do
    let (res, con) ← spdSchedDel s.con id
    if res = 0 then .ok { s with con := con, deleted := id :: s.deleted }
    else .ok { s with con := con }
  | .call now => do
    match ← runallHead s.con now with
    | (none, con) => .ok { s with con := con }
    | (some cur, con) => do
      let e ← con.read cur
      .ok { s with con := con, running := cur :: s.running, calls := s.calls ++ [e.id] }
  | .ret cur res now => do
    let e ← s.con.read cur
    let con ← runallTail s.con cur res now
    let s := { s with con := con, running := s.running.erase cur }
    if res = 0 then .ok { s with finished := e.id :: s.finished }
    else .ok (s.inserted e.id)

/-- `spd_calloc` gives a new address, and what returns has been called. -/
def Enabled (s : St) : Op → Prop
  | .add _ _ _ _ calloc _ => ∀ tmp, calloc = some tmp → tmp ∉ s.con.heap.dom
  | .ret cur _ _ => cur ∈ s.running
  | _ => True

instance : (s : St) → (o : Op) → Decidable (Enabled s o)
  | s, .add _ _ _ _ (some tmp) _ =>
    decidable_of_iff (tmp ∉ s.con.heap.dom) (by simp [Enabled])
  | _, .add _ _ _ _ none _ => isTrue nofun
  | s, .ret cur _ _ => inferInstanceAs (Decidable (cur ∈ s.running))
  | _, .del _ => isTrue trivial
  | _, .call _ => isTrue trivial

def start : St where
  con := spdSchedContextCreate
  running := []
  stamp _ := 0
  inserts := 0
  added := []
  deleted := []
  finished := []
  calls := []

/-- How many adds there are in `os`. -/
def adds (os : List Op) : Nat :=
  os.countP fun o => match o with
    | .add .. => true
    | _ => false

/-! ## What is claimed of the states -/

/-- The id of an entry. -/
def St.idOf (s : St) (a : Addr) : Int32 := (s.con.entry a).id

/-- `a` is due before `b`, or at the same time and was inserted before it. -/
def St.Before (s : St) (a b : Addr) : Prop :=
  s.con.due a < s.con.due b ∨
    s.con.due a = s.con.due b ∧ s.stamp (s.idOf a) < s.stamp (s.idOf b)

/-- What can have become of an event. -/
inductive Fate where
  | queued
  | running
  | deleted
  | finished
  deriving DecidableEq, Repr

def St.idsOf (s : St) : Fate → List Int32
  | .queued => s.con.schedulerq.map s.idOf
  | .running => s.running.map s.idOf
  | .deleted => s.deleted
  | .finished => s.finished

def Fate.all : List Fate := [.queued, .running, .deleted, .finished]

theorem Fate.mem_all (fate : Fate) : fate ∈ all := by
  cases fate <;> decide

theorem St.flatMap_idsOf (s : St) : Fate.all.flatMap s.idsOf =
    (s.con.schedulerq ++ s.running).map s.idOf ++ (s.deleted ++ s.finished) := by
  simp [Fate.all, idsOf]

/-- The queue is in order, and every event added is in one place. -/
structure Sound (s : St) : Prop where
  sorted : s.con.schedulerq.Pairwise s.Before
  distinct : (s.idsOf .queued).Nodup
  settled : ∀ id ∈ s.added, ∃! fate, id ∈ s.idsOf fate

/-- What the head of the loop of `spd_sched_runall` calls is due within a millisecond and no later
    than the rest of the queue. -/
def CallsDue (s : St) : Prop :=
  ∀ (now : Clock) (cur : Addr) (con : Context), runallHead s.con now = .ok (some cur, con) →
    cur ∈ s.con.schedulerq ∧ (∀ a ∈ s.con.schedulerq, s.con.due cur ≤ s.con.due a) ∧
      s.con.due cur < now.val.us + 1000

/-- From `s` to `s'` what was deleted has stayed so, and was not called. -/
structure Keeps (s s' : St) : Prop where
  deleted : ∀ id ∈ s.deleted, id ∈ s'.deleted
  calls : ∃ later, s'.calls = s.calls ++ later ∧ ∀ id ∈ s.deleted, id ∉ later

theorem Keeps.refl (s : St) : Keeps s s where
  deleted _ := id
  calls := ⟨[], (List.append_nil _).symm, fun _ _ => List.not_mem_nil⟩

theorem Keeps.congr {s s' s'' : St} (h : Keeps s s') (hdeleted : s''.deleted = s'.deleted)
    (hcalls : s''.calls = s'.calls) : Keeps s s'' where
  deleted := hdeleted ▸ h.deleted
  calls := hcalls ▸ h.calls

theorem Keeps.trans {s s' s'' : St} (h : Keeps s s') (h' : Keeps s' s'') : Keeps s s'' where
  deleted id hid := h'.deleted id (h.deleted id hid)
  calls := by
    rcases h.calls with ⟨later, hcalls, hnot⟩
    rcases h'.calls with ⟨later', hcalls', hnot'⟩
    refine ⟨later ++ later', ?_, ?_⟩
    · rw [hcalls', hcalls, List.append_assoc]
    · intro id hid hmem
      rcases List.mem_append.mp hmem with hmem | hmem
      · exact hnot id hid hmem
      · exact hnot' id (h.deleted id hid) hmem

/-! ## The invariant -/

/-- The entries in the queue and those being called are held; the ids are the numbers from one
    on, in the order in which they were given out. -/
structure Inv (s : St) : Prop where
  owns : s.con.Owns (s.con.schedulerq ++ s.running)
  sorted : s.con.schedulerq.Pairwise s.Before
  stamped : ∀ a ∈ s.con.schedulerq, s.stamp (s.idOf a) < s.inserts
  settled : ((s.con.schedulerq ++ s.running).map s.idOf ++ (s.deleted ++ s.finished)).Perm s.added
  distinct : s.added.Nodup
  range : ∀ id ∈ s.added, 0 < id.toInt ∧ id.toInt < s.con.processedcnt.toNat
  count : s.con.processedcnt.toNat = s.added.length + 1

theorem inv_start : Inv start where
  owns := {
    nodup := List.nodup_nil
    alloc := fun _ ha => absurd ha List.not_mem_nil
    normal := fun _ => timeval_zero_normal
    cached := rfl
    bound := Nat.zero_le _ }
  sorted := List.Pairwise.nil
  stamped _ ha := absurd ha List.not_mem_nil
  settled := List.Perm.refl []
  distinct := List.nodup_nil
  range _ hid := absurd hid List.not_mem_nil
  count := rfl

section Steps

variable {s : St} {a : Addr}

theorem Inv.nodup (h : Inv s) :
    ((s.con.schedulerq ++ s.running).map s.idOf ++ (s.deleted ++ s.finished)).Nodup :=
  h.settled.nodup_iff.mpr h.distinct

/-- Entries that are held and have the same id are the same. -/
theorem Inv.idOf_inj (h : Inv s) {b : Addr} (ha : a ∈ s.con.schedulerq ++ s.running)
    (hb : b ∈ s.con.schedulerq ++ s.running) (hid : s.idOf a = s.idOf b) : a = b :=
  List.inj_on_of_nodup_map (List.Nodup.of_append_left h.nodup) ha hb hid

theorem Inv.held_nodup (h : Inv s) : (s.con.schedulerq ++ s.running).Nodup :=
  List.Nodup.of_append_left h.owns.nodup

theorem Inv.sound (h : Inv s) : Sound s where
  sorted := h.sorted
  distinct := by
    have hmap := List.Nodup.of_append_left h.nodup
    rw [List.map_append] at hmap
    exact List.Nodup.of_append_left hmap
  settled := by
    intro id hid
    have hall := s.flatMap_idsOf
    have hmem := h.settled.mem_iff.mpr hid
    rw [← hall] at hmem
    rcases List.mem_flatMap.mp hmem with ⟨fate, -, hfate⟩
    refine ⟨fate, hfate, ?_⟩
    intro other hother
    by_contra hne
    have hdisjoint := (List.nodup_flatMap.mp (hall ▸ h.nodup)).2
    have : Std.Symm (Function.onFun List.Disjoint s.idsOf) := ⟨fun _ _ hd => hd.symm⟩
    exact hdisjoint.forall other.mem_all fate.mem_all hne hother hfate

/-- A step that leaves the entries of the queue alone keeps its order. -/
theorem Inv.sorted_congr (h : Inv s) {s' : St} (hq : s'.con.schedulerq = s.con.schedulerq)
    (hentry : ∀ b ∈ s.con.schedulerq, s'.con.entry b = s.con.entry b)
    (hstamp : s'.stamp = s.stamp) : s'.con.schedulerq.Pairwise s'.Before := by
  rw [hq]
  apply List.Pairwise.imp_of_mem ?_ h.sorted
  intro b c hb hc hbc
  unfold St.Before St.idOf Context.due
  rw [hentry b hb, hentry c hc, hstamp]
  exact hbc

theorem Inv.stamped_congr (h : Inv s) {s' : St} (hq : s'.con.schedulerq = s.con.schedulerq)
    (hentry : ∀ b ∈ s.con.schedulerq, s'.con.entry b = s.con.entry b)
    (hstamp : s'.stamp = s.stamp) (hinserts : s'.inserts = s.inserts) :
    ∀ b ∈ s'.con.schedulerq, s'.stamp (s'.idOf b) < s'.inserts := by
  intro b hb
  have hb : b ∈ s.con.schedulerq := hq ▸ hb
  unfold St.idOf
  rw [hentry b hb, hstamp, hinserts]
  exact h.stamped b hb

theorem Inv.callsDue (h : Inv s) : CallsDue s := by
  intro now cur con hcall
  unfold runallHead at hcall
  split at hcall
  next => exact absurd hcall nofun
  next a rest hq =>
    have hheld : a ∈ s.con.schedulerq ++ s.running := by
      rw [hq]
      exact List.mem_cons_self
    have htv : (spdTvadd now.val ⟨0, 1000⟩).us = now.val.us + 1000 :=
      spdTvadd_us now.property ⟨by decide, by decide⟩
    have hsorted := h.sorted
    rw [hq] at hsorted
    rw [h.owns.read hheld, ok_bind] at hcall
    dsimp only at hcall
    split at hcall
    next => exact absurd hcall nofun
    next hdue =>
      injection hcall with hcall
      injection hcall with hcur hcon
      injection hcur with hcur
      subst hcur
      refine ⟨hq ▸ List.mem_cons_self, ?_, ?_⟩
      · intro b hb
        rw [hq] at hb
        rcases List.mem_cons.mp hb with rfl | hb
        · exact Int.le_refl _
        · rcases List.rel_of_pairwise_cons hsorted hb with hlt | ⟨heq, -⟩
          · exact Int.le_of_lt hlt
          · exact Int.le_of_eq heq
      · rw [← htv]
        exact (spdTvcmp_lt (h.owns.normal a)
          (spdTvadd_normal now.property ⟨by decide, by decide⟩)).mp (Decidable.not_not.mp hdue)

/-- The contents of an entry that is being called change, its id apart. -/
theorem Inv.write (h : Inv s) (ha : a ∈ s.running) {e : Scheduler} (hid : e.id = s.idOf a)
    (he : e.when.Normal) : Inv { s with con := s.con.write a e } := by
  have hne : ∀ b ∈ s.con.schedulerq, b ≠ a := by
    intro b hb heq
    exact (List.nodup_append.mp h.held_nodup).2.2 b hb a ha heq
  have hids : ∀ b, ((s.con.write a e).entry b).id = s.idOf b := by
    intro b
    by_cases hb : b = a
    · rw [hb, Context.entry_write, hid]
    · rw [Context.entry_write_of_ne e hb]
      rfl
  have hmap : (St.idOf { s with con := s.con.write a e }) = s.idOf := funext hids
  have hentry : ∀ b ∈ s.con.schedulerq, (s.con.write a e).entry b = s.con.entry b :=
    fun b hb => Context.entry_write_of_ne e (hne b hb)
  refine ⟨h.owns.write he, h.sorted_congr rfl hentry rfl, h.stamped_congr rfl hentry rfl rfl, ?_,
    h.distinct, h.range, h.count⟩
  rw [hmap]
  exact h.settled

/-- An entry that is being called goes back into the queue. -/
theorem Inv.enqueue (h : Inv s) (ha : a ∈ s.running) : ∃ con, addScheduler s.con a = .ok con ∧
    con.read a = .ok (s.con.entry a) ∧
    Inv { s.inserted (s.idOf a) with con := con, running := s.running.erase a } := by
  have hheld : a ∈ s.con.schedulerq ++ s.running := List.mem_append_right _ ha
  have hqueue : ∀ b ∈ s.con.schedulerq, b ∈ s.con.schedulerq ++ s.running :=
    fun b hb => List.mem_append_left _ hb
  refine ⟨_, addScheduler_eq h.owns hheld hqueue, h.owns.read hheld, ?_⟩
  have hinsert := List.perm_orderedInsert (fun a b => s.con.due a < s.con.due b) a s.con.schedulerq
  have hperm := (hinsert.append_right (s.running.erase a)).trans List.perm_middle.symm
  have hperm := hperm.trans ((List.perm_cons_erase ha).symm.append_left s.con.schedulerq)
  have hold : ∀ b ∈ s.con.schedulerq,
      Function.update s.stamp (s.idOf a) s.inserts (s.idOf b) = s.stamp (s.idOf b) := by
    intro b hb
    apply Function.update_of_ne
    intro hid
    have heq := h.idOf_inj (List.mem_append_left _ hb) hheld hid
    exact (List.nodup_append.mp h.held_nodup).2.2 b hb a ha heq
  have hnew := Function.update_self (s.idOf a) s.inserts s.stamp
  refine ⟨(h.owns.perm hperm.symm).setQueue _ _ _, ?_, ?_, ?_, h.distinct, h.range, h.count⟩
  · apply pairwise_orderedInsert
    · intro b _ c _ hlt hbc
      rcases hbc with hbc | ⟨heq, -⟩
      · exact Or.inl (lt_trans hlt hbc)
      · exact Or.inl (lt_of_lt_of_eq hlt heq)
    · intro b _ hlt
      exact Or.inl hlt
    · intro b hb hnot
      rcases lt_or_eq_of_le (not_lt.mp hnot) with hlt | heq
      · exact Or.inl hlt
      · refine Or.inr ⟨heq, ?_⟩
        show Function.update s.stamp (s.idOf a) s.inserts (s.idOf b) <
          Function.update s.stamp (s.idOf a) s.inserts (s.idOf a)
        rw [hold b hb, hnew]
        exact h.stamped b hb
    · apply List.Pairwise.imp_of_mem ?_ h.sorted
      intro b c hb hc hbc
      rcases hbc with hlt | ⟨heq, hlt⟩
      · exact Or.inl hlt
      · refine Or.inr ⟨heq, ?_⟩
        show Function.update s.stamp (s.idOf a) s.inserts (s.idOf b) <
          Function.update s.stamp (s.idOf a) s.inserts (s.idOf c)
        rw [hold b hb, hold c hc]
        exact hlt
  · intro b hb
    show Function.update s.stamp (s.idOf a) s.inserts (s.idOf b) < s.inserts + 1
    rcases List.mem_cons.mp (hinsert.mem_iff.mp hb) with rfl | hb
    · rw [hnew]
      exact Nat.lt_succ_self _
    · rw [hold b hb]
      exact Nat.lt_succ_of_lt (h.stamped b hb)
  · exact ((hperm.map s.idOf).append_right _).trans h.settled

/-- An entry of the queue is called. -/
theorem Inv.take (h : Inv s) (ha : a ∈ s.con.schedulerq) (n : UInt32) (calls : List Int32) :
    Inv { s with
      con := { s.con with schedulerq := s.con.schedulerq.erase a, schedsnt := n }
      running := a :: s.running
      calls := calls } := by
  have hperm : (s.con.schedulerq ++ s.running).Perm
      (s.con.schedulerq.erase a ++ a :: s.running) :=
    ((List.perm_cons_erase ha).append_right s.running).trans List.perm_middle.symm
  refine ⟨(h.owns.perm hperm).setQueue _ _ _, ?_, ?_, ?_, h.distinct, h.range, h.count⟩
  · exact h.sorted.sublist List.erase_sublist
  · exact fun b hb => h.stamped b (List.mem_of_mem_erase hb)
  · exact ((hperm.map s.idOf).symm.append_right _).trans h.settled

/-- An entry that is being called is released. -/
theorem Inv.release (h : Inv s) (ha : a ∈ s.running) {deleted finished : List Int32}
    (hids : (deleted ++ finished).Perm (s.idOf a :: (s.deleted ++ s.finished))) :
    Inv { s with
      con := schedulerRelease s.con a
      running := s.running.erase a
      deleted := deleted
      finished := finished } := by
  have hperm : (s.con.schedulerq ++ s.running).Perm
      (a :: (s.con.schedulerq ++ s.running.erase a)) :=
    ((List.perm_cons_erase ha).append_left s.con.schedulerq).trans List.perm_middle
  rcases schedulerRelease_owns (h.owns.perm hperm) with ⟨howns, hentry, hq, hcnt⟩
  have hid : ∀ b ∈ s.con.schedulerq ++ s.running.erase a,
      ((schedulerRelease s.con a).entry b).id = s.idOf b :=
    fun b hb => congrArg Scheduler.id (hentry b hb)
  have hqueue : ∀ b ∈ s.con.schedulerq, (schedulerRelease s.con a).entry b = s.con.entry b :=
    fun b hb => hentry b (List.mem_append_left _ hb)
  constructor
  case owns =>
    show Context.Owns _ ((schedulerRelease s.con a).schedulerq ++ s.running.erase a)
    rw [hq]
    exact howns
  case sorted => exact h.sorted_congr hq hqueue rfl
  case stamped => exact h.stamped_congr hq hqueue rfl rfl
  case settled =>
    have hmap : (s.con.schedulerq ++ s.running.erase a).map
        (fun b => ((schedulerRelease s.con a).entry b).id) =
          (s.con.schedulerq ++ s.running.erase a).map s.idOf := List.map_congr_left hid
    show (((schedulerRelease s.con a).schedulerq ++ s.running.erase a).map
      (fun b => ((schedulerRelease s.con a).entry b).id) ++ (deleted ++ finished)).Perm s.added
    rw [hq, hmap]
    have hall := (hids.append_left _).trans
      (List.perm_middle.trans ((hperm.map s.idOf).symm.append_right (s.deleted ++ s.finished)))
    exact hall.trans h.settled
  case distinct => exact h.distinct
  case range =>
    show ∀ id ∈ s.added, 0 < id.toInt ∧ id.toInt < (schedulerRelease s.con a).processedcnt.toNat
    rw [hcnt]
    exact h.range
  case count =>
    show (schedulerRelease s.con a).processedcnt.toNat = _
    rw [hcnt]
    exact h.count

/-- A new entry gets the next id and joins those that are not queued. -/
theorem Inv.alloc (h : Inv s) (hbound : s.added.length + 1 < 2 ^ 31) {calloc : Option Addr}
    (hfresh : ∀ tmp, calloc = some tmp → tmp ∉ s.con.heap.dom) {c : Context}
    (halloc : schedAlloc s.con calloc = some (a, c)) {e : Scheduler}
    (hid : e.id = c.processedcnt.toInt32) (he : e.when.Normal) :
    Inv { s with
      con := Context.write { c with processedcnt := c.processedcnt + 1 } a e
      running := a :: s.running
      added := e.id :: s.added } := by
  rcases schedAlloc_owns h.owns hfresh halloc with ⟨howns, hentry, hq, hcnt⟩
  have hcount := h.count
  have hnext : (c.processedcnt + 1).toNat = s.con.processedcnt.toNat + 1 := by
    rw [UInt32.toNat_add, hcnt]
    exact Nat.mod_eq_of_lt (by show _ + 1 < _; omega)
  have hidInt : e.id.toInt = s.con.processedcnt.toNat := by
    rw [hid, hcnt]
    exact CInt.toInt_toInt32 (by omega)
  have hnotin : e.id ∉ s.added := by
    intro hmem
    have hlt := (h.range e.id hmem).2
    omega
  have hnot : ∀ b ∈ s.con.schedulerq ++ s.running, b ≠ a := by
    intro b hb heq
    exact (List.nodup_cons.mp howns.nodup).1 (List.mem_append_left _ (heq ▸ hb))
  have hsame : ∀ b ∈ s.con.schedulerq ++ s.running, Context.entry
      (Context.write { c with processedcnt := c.processedcnt + 1 } a e) b = s.con.entry b := by
    intro b hb
    rw [Context.entry_write_of_ne e (hnot b hb)]
    exact hentry b hb
  constructor
  case owns =>
    show Context.Owns _ (c.schedulerq ++ a :: s.running)
    rw [hq]
    exact ((howns.setQueue _ _ _).write he).perm List.perm_middle.symm
  case sorted => exact h.sorted_congr hq (fun b hb => hsame b (List.mem_append_left _ hb)) rfl
  case stamped =>
    exact h.stamped_congr hq (fun b hb => hsame b (List.mem_append_left _ hb)) rfl rfl
  case settled =>
    have hnew : (Context.entry
        (Context.write { c with processedcnt := c.processedcnt + 1 } a e) a).id = e.id :=
      congrArg Scheduler.id (Context.entry_write e)
    have hmap : (s.con.schedulerq ++ s.running).map (fun b => (Context.entry
        (Context.write { c with processedcnt := c.processedcnt + 1 } a e) b).id) =
          (s.con.schedulerq ++ s.running).map s.idOf :=
      List.map_congr_left fun b hb => congrArg Scheduler.id (hsame b hb)
    show ((c.schedulerq ++ a :: s.running).map (fun b => (Context.entry
      (Context.write { c with processedcnt := c.processedcnt + 1 } a e) b).id) ++
        (s.deleted ++ s.finished)).Perm (e.id :: s.added)
    have hperm : (c.schedulerq ++ a :: s.running).Perm (a :: (s.con.schedulerq ++ s.running)) := by
      rw [hq]
      exact List.perm_middle
    apply ((hperm.map _).append_right _).trans
    rw [List.map_cons, hnew, hmap]
    exact h.settled.cons e.id
  case distinct => exact List.nodup_cons.mpr ⟨hnotin, h.distinct⟩
  case range =>
    intro id hmem
    show 0 < id.toInt ∧ id.toInt < ((c.processedcnt + 1).toNat : Int)
    rw [hnext]
    rcases List.mem_cons.mp hmem with rfl | hmem
    · omega
    · have hr := h.range id hmem
      omega
  case count =>
    show (c.processedcnt + 1).toNat = _
    rw [hnext, List.length_cons]
    omega

/-- What a step does. -/
structure Advances (s s' : St) (n : Nat) : Prop where
  inv : Inv s'
  keeps : Keeps s s'
  added : s'.added.length ≤ s.added.length + n

theorem Inv.advances_self (h : Inv s) (n : Nat) : Advances s s n where
  inv := h
  keeps := Keeps.refl s
  added := Nat.le_add_right _ n

theorem step_add (h : Inv s) (when : Int32) (callback data : Nat) (flag : Int32)
    {calloc : Option Addr} {now : Clock} (he : Enabled s (.add when callback data flag calloc now))
    (hbound : s.added.length + 1 < 2 ^ 31) :
    ∃ s', step s (.add when callback data flag calloc now) = .ok s' ∧ Advances s s' 1 := by
  by_cases hwhen : when = 0
  · rw [step, spdSchedAddFlag, if_pos hwhen]
    exact ⟨s, rfl, h.advances_self 1⟩
  · rcases halloc : schedAlloc s.con calloc with _ | ⟨tmp, c⟩
    · rw [step, spdSchedAddFlag, if_neg hwhen, halloc]
      exact ⟨s, rfl, h.advances_self 1⟩
    · have hnormal : (newEntry c when callback data flag now).when.Normal :=
        schedSettime_normal timeval_zero_normal now.property
      have h1 := h.alloc hbound he halloc
        (rfl : (newEntry c when callback data flag now).id = c.processedcnt.toInt32) hnormal
      rcases h1.enqueue List.mem_cons_self with ⟨con, hadd, hread, h2⟩
      rw [Context.entry_write] at hread
      have hpos := (h1.range _ List.mem_cons_self).1
      have hne : (newEntry c when callback data flag now).id ≠ -1 :=
        fun heq => absurd hpos (heq ▸ by decide)
      simp only [St.idOf, Context.entry_write, List.erase_cons_head] at h2
      rw [step, spdSchedAddFlag_alloc callback data flag hwhen halloc, hadd, ok_bind, hread,
        ok_bind, ok_bind]
      dsimp only
      rw [if_neg hne]
      exact ⟨_, rfl, h2, (Keeps.refl s).congr rfl rfl, Nat.le_refl _⟩

theorem step_del (h : Inv s) (id : Int32) :
    ∃ s', step s (.del id) = .ok s' ∧ Advances s s' 0 := by
  have hfind := findId_eq h.owns id fun b hb => List.mem_append_left s.running hb
  rcases hfound : s.con.schedulerq.find? fun a => (s.con.entry a).id = id with _ | a
  · rw [step, spdSchedDel, hfind, hfound]
    exact ⟨s, rfl, h.advances_self 0⟩
  · have ha := List.mem_of_find?_eq_some hfound
    have hid : decide ((s.con.entry a).id = id) = true :=
      @List.find?_some _ (fun a => decide ((s.con.entry a).id = id)) _ _ hfound
    have hid : s.idOf a = id := of_decide_eq_true hid
    have h1 := h.take ha (s.con.schedsnt - 1) s.calls
    subst hid
    have hids : (s.idOf a :: s.deleted ++ s.finished).Perm
        (s.idOf a :: (s.deleted ++ s.finished)) := List.Perm.refl _
    have h2 := h1.release List.mem_cons_self hids
    rw [List.erase_cons_head] at h2
    rw [step, spdSchedDel, hfind, hfound]
    exact ⟨_, rfl, h2, ⟨fun _ hmem => List.mem_cons_of_mem _ hmem, (Keeps.refl s).calls⟩,
      Nat.le_refl _⟩

theorem step_call (h : Inv s) (now : Clock) :
    ∃ s', step s (.call now) = .ok s' ∧ Advances s s' 0 := by
  rcases hq : s.con.schedulerq with _ | ⟨cur, rest⟩
  · have hhead : runallHead s.con now = .ok (none, s.con) := by
      rw [runallHead, hq]
    rw [step, hhead]
    exact ⟨s, rfl, h.advances_self 0⟩
  · have hcur : cur ∈ s.con.schedulerq := hq ▸ List.mem_cons_self
    have hread := h.owns.read (List.mem_append_left s.running hcur)
    by_cases hdue : spdTvcmp (s.con.entry cur).when (spdTvadd now ⟨0, 1000⟩) = -1
    · have hhead : runallHead s.con now =
          .ok (some cur, { s.con with schedulerq := rest, schedsnt := s.con.schedsnt - 1 }) := by
        rw [runallHead, hq]
        dsimp only
        rw [hread, ok_bind, if_neg (not_not.mpr hdue)]
      have h1 := h.take hcur (s.con.schedsnt - 1) (s.calls ++ [s.idOf cur])
      rw [hq, List.erase_cons_head] at h1
      have hnot : s.idOf cur ∉ s.deleted := by
        intro hmem
        have hheld : s.idOf cur ∈ (s.con.schedulerq ++ s.running).map s.idOf :=
          List.mem_map_of_mem (List.mem_append_left _ hcur)
        exact (List.nodup_append.mp h.nodup).2.2 _ hheld _ (List.mem_append_left _ hmem) rfl
      have hread1 := h1.owns.read (List.mem_append_right rest List.mem_cons_self)
      rw [step, hhead, ok_bind]
      dsimp only at hread1 ⊢
      rw [hread1, ok_bind]
      refine ⟨_, rfl, h1, ⟨fun _ hmem => hmem, [s.idOf cur], rfl, ?_⟩, Nat.le_refl _⟩
      intro id hid hmem
      exact hnot (List.mem_singleton.mp hmem ▸ hid)
    · have hhead : runallHead s.con now = .ok (none, s.con) := by
        rw [runallHead, hq]
        dsimp only
        rw [hread, ok_bind, if_pos hdue]
      rw [step, hhead]
      exact ⟨s, rfl, h.advances_self 0⟩

theorem step_ret (h : Inv s) {cur : Addr} (res : Int32) (now : Clock)
    (he : Enabled s (.ret cur res now)) :
    ∃ s', step s (.ret cur res now) = .ok s' ∧ Advances s s' 0 := by
  have hcur : cur ∈ s.running := he
  have hread := h.owns.read (List.mem_append_right s.con.schedulerq hcur)
  by_cases hres : res = 0
  · have hids : (s.deleted ++ s.idOf cur :: s.finished).Perm
        (s.idOf cur :: (s.deleted ++ s.finished)) := List.perm_middle
    have h1 := h.release hcur hids
    rw [step, hread, ok_bind, runallTail, if_neg (not_not.mpr hres), ok_bind]
    dsimp only
    rw [if_pos hres]
    exact ⟨_, rfl, h1, (Keeps.refl s).congr rfl rfl, Nat.le_refl _⟩
  · let again := if (s.con.entry cur).flag ≠ 0 then res else (s.con.entry cur).reschedule
    let e := { s.con.entry cur with when := (schedSettime (s.con.entry cur).when again now).2 }
    have hnormal : e.when.Normal := schedSettime_normal (h.owns.normal cur) now.property
    have h1 := h.write hcur (rfl : e.id = s.idOf cur) hnormal
    rcases h1.enqueue hcur with ⟨con, hadd, -, h2⟩
    simp only [St.idOf, Context.entry_write] at h2
    rw [step, hread, ok_bind, runallTail_again hres hread, hadd, ok_bind]
    dsimp only
    rw [if_neg hres]
    exact ⟨_, rfl, h2, (Keeps.refl s).congr rfl rfl, Nat.le_refl _⟩

/-- Every step is taken, and keeps what there is to keep. -/
theorem step_advances (h : Inv s) (o : Op) (he : Enabled s o)
    (hbound : s.added.length + adds [o] < 2 ^ 31) :
    ∃ s', step s o = .ok s' ∧ Advances s s' (adds [o]) := by
  cases o with
  | add when callback data flag calloc now => exact step_add h when callback data flag he hbound
  | del id => exact step_del h id
  | call now => exact step_call h now
  | ret cur res now => exact step_ret h res now he

end Steps

theorem adds_cons (o : Op) (os : List Op) : adds (o :: os) = adds [o] + adds os := by
  have happend : adds ([o] ++ os) = adds [o] + adds os := List.countP_append
  exact happend

/-- A run of fewer than 2^31 adds. -/
theorem run_advances (os : List Op) {s : St} (h : Inv s) (hl : Run.Legal step Enabled s os)
    (hbound : s.added.length + adds os < 2 ^ 31) :
    ∃ s', Run.run step s os = .ok s' ∧ Advances s s' (adds os) := by
  induction os generalizing s with
  | nil => exact ⟨s, rfl, h.advances_self 0⟩
  | cons o os ih =>
    rw [adds_cons] at hbound
    rcases step_advances h o hl.1 (by omega) with ⟨s1, hstep, hs1⟩
    have hadded := hs1.added
    rcases ih hs1.inv (hl.2 s1 hstep) (by omega) with ⟨s', hrun, hs'⟩
    refine ⟨s', (Run.run_cons_of_ok hstep os).trans hrun, hs'.inv, hs1.keeps.trans hs'.keeps, ?_⟩
    have hadded' := hs'.added
    rw [adds_cons]
    omega

/-! ## Whole calls of `spd_sched_runall` -/

/-- What a round of the loop finds: the clock, what the callback does and returns, and the clock
    after it. -/
structure Round where
  now : Clock
  body : List Op
  res : Int32
  again : Clock

/-- `spd_sched_runall` (`scheduler.c:293-345`): the number of events, and the state after it. -/
def spdSchedRunall : List Round → St → Outcome (Int32 × St)
  | [], s => if s.con.schedulerq = [] then .ok (0, s) else .timeout
  | r :: rounds, s => do
    match ← runallHead s.con r.now with
    | (none, con) => .ok (0, { s with con := con })
    | (some cur, con) => do
      let e ← con.read cur
      let s := { s with con := con, running := cur :: s.running, calls := s.calls ++ [e.id] }
      let s ← Run.run step s r.body
      let s ← step s (.ret cur r.res r.again)
      let (numevents, s) ← spdSchedRunall rounds s
      .ok (numevents + 1, s)

/-- A callback adds and deletes events. -/
def Op.byCallback : Op → Bool
  | .add .. | .del _ => true
  | _ => false

/-- The callbacks only add and delete, and may do so when they do. -/
def RoundsLegal : List Round → St → Prop
  | [], _ => True
  | r :: rounds, s => ∀ cur con e, runallHead s.con r.now = .ok (some cur, con) →
      con.read cur = .ok e →
      let s1 := { s with con := con, running := cur :: s.running, calls := s.calls ++ [e.id] }
      (∀ o ∈ r.body, o.byCallback) ∧ Run.Legal step Enabled s1 r.body ∧
        ∀ s2 s3, Run.run step s1 r.body = .ok s2 →
          step s2 (.ret cur r.res r.again) = .ok s3 → RoundsLegal rounds s3

theorem step_running {o : Op} (ho : o.byCallback) {s s' : St} (h : step s o = .ok s') :
    s'.running = s.running := by
  cases o with
  | add when callback data flag calloc now =>
    rcases bind_eq_ok.mp h with ⟨⟨res, con⟩, -, h⟩
    dsimp only at h
    split at h
    · rw [← Outcome.ok.inj h]
    · rw [← Outcome.ok.inj h]
      rfl
  | del id =>
    rcases bind_eq_ok.mp h with ⟨⟨res, con⟩, -, h⟩
    dsimp only at h
    split at h
    · rw [← Outcome.ok.inj h]
    · rw [← Outcome.ok.inj h]
  | call now => exact absurd ho nofun
  | ret cur res now => exact absurd ho nofun

theorem run_running {os : List Op} (hos : ∀ o ∈ os, o.byCallback) {s s' : St}
    (h : Run.run step s os = .ok s') : s'.running = s.running := by
  induction os generalizing s with
  | nil => rw [Outcome.ok.inj h]
  | cons o os ih =>
    rcases bind_eq_ok.mp h with ⟨s1, hstep, hrun⟩
    have hrest := ih (fun o ho => hos o (List.mem_cons_of_mem _ ho)) hrun
    rw [hrest, step_running (hos o List.mem_cons_self) hstep]

/-- A whole `spd_sched_runall` is a run of the steps above. -/
theorem spdSchedRunall_run (rounds : List Round) {s s' : St} {numevents : Int32}
    (hl : RoundsLegal rounds s) (h : spdSchedRunall rounds s = .ok (numevents, s')) :
    ∃ os, Run.Legal step Enabled s os ∧ Run.run step s os = .ok s' := by
  induction rounds generalizing s numevents with
  | nil =>
    rw [spdSchedRunall] at h
    split at h
    · injection h with h
      injection h with _ h
      exact ⟨[], trivial, congrArg Outcome.ok h⟩
    · exact absurd h nofun
  | cons r rounds ih =>
    rcases bind_eq_ok.mp h with ⟨⟨found, con⟩, hhead, h⟩
    cases found with
    | none =>
      injection h with h
      injection h with _ h
      have hstep : step s (.call r.now) = .ok s' := by
        rw [step, hhead, ok_bind, ← h]
      exact ⟨[.call r.now], ⟨trivial, fun _ _ => trivial⟩, Run.run_cons_of_ok hstep []⟩
    | some cur =>
      rcases bind_eq_ok.mp h with ⟨e, hread, h⟩
      rcases bind_eq_ok.mp h with ⟨s2, hbody, h⟩
      rcases bind_eq_ok.mp h with ⟨s3, hret, h⟩
      rcases bind_eq_ok.mp h with ⟨⟨n, s4⟩, hrest, h⟩
      injection h with h
      injection h with _ h
      subst h
      rcases hl cur con e hhead hread with ⟨hcallback, hlegal, hrounds⟩
      rcases ih (hrounds s2 s3 hbody hret) hrest with ⟨os, hos, hrun⟩
      have hstep : step s (.call r.now) = .ok { s with
          con := con, running := cur :: s.running, calls := s.calls ++ [e.id] } := by
        rw [step, hhead, ok_bind]
        dsimp only
        rw [hread, ok_bind]
      have hrunning := run_running hcallback hbody
      have henabled : Enabled s2 (.ret cur r.res r.again) := by
        show cur ∈ s2.running
        rw [hrunning]
        exact List.mem_cons_self
      refine ⟨.call r.now :: (r.body ++ .ret cur r.res r.again :: os), ?_, ?_⟩
      · apply Run.legal_cons_of_ok hstep trivial
        apply Run.legal_append_iff.mpr
        refine ⟨hlegal, fun s2' hbody' => ?_⟩
        have hs2 := Outcome.ok.inj (hbody.symm.trans hbody')
        subst hs2
        exact Run.legal_cons_of_ok hret henabled hos
      · rw [Run.run_cons_of_ok hstep, Run.run_append, hbody, ok_bind, Run.run_cons_of_ok hret,
          hrun]

/-! ## The main result -/

/-- In every run the queue is in order and no event is lost or in two places, what is called is
    due and due first, and a deleted event is never called. -/
theorem scheduler_sound (os later : List Op)
    (hl : Run.Legal step Enabled start (os ++ later)) (hb : adds (os ++ later) < 2 ^ 31) :
    ∃ s s', Run.run step start os = .ok s ∧ Run.run step s later = .ok s' ∧ Sound s ∧
      CallsDue s ∧ Keeps s s' := by
  rcases Run.legal_append_iff.mp hl with ⟨hos, hlater⟩
  have hsum : adds (os ++ later) = adds os + adds later := List.countP_append
  rcases run_advances os inv_start hos (by show 0 + _ < _; omega) with ⟨s, hrun, hs⟩
  have hadded := hs.added
  have hzero : start.added.length = 0 := rfl
  rcases run_advances later hs.inv (hlater s hrun) (by omega) with ⟨s', hrun', hs'⟩
  exact ⟨s, s', hrun, hrun', hs.inv.sound, hs.inv.callsDue, hs'.keeps⟩

/-- The clock `ms` milliseconds into a second. -/
def clockAt (ms : Fin 1000) : Clock :=
  ⟨⟨5, ms * 1000⟩, by show (0 : Int) ≤ ms * 1000; omega, by show (ms * 1000 : Int) < 1000000; omega⟩

/-- Two events are added, the second is due first; it is called, and deletes the first. -/
def deleteInCallback : List Op :=
  [.add 20 1 0 0 (some 1) (clockAt 0), .add 10 2 0 0 (some 2) (clockAt 0),
    .call (clockAt 10), .del 1]

theorem scheduler_sound_deleteInCallback :
    ∃ s s', Run.run step start deleteInCallback = .ok s ∧
      Run.run step s [.ret 2 7 (clockAt 11), .call (clockAt 900)] = .ok s' ∧ Sound s ∧
      CallsDue s ∧ Keeps s s' :=
  scheduler_sound deleteInCallback [.ret 2 7 (clockAt 11), .call (clockAt 900)]
    (by decide +kernel) (by decide +kernel)

end Spider.Sched
