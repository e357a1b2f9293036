import Spider.Sched.Runs

/-!
# The counters of the scheduler

`schedccnt` is kept with the cache. `schedsnt` is taken down by each removal
from the queue and is never brought up: where `add_scheduler` should count, it
has the statement `c->schedsnt;`.
-/

namespace Spider.Sched

open Lib Outcome Times

/-- `schedccnt` is the length of the cache, which stays within its limit. -/
structure Context.CacheCounted (c : Context) : Prop where
  cached : c.schedccnt.toNat = c.schedulerc.length
  bound : c.schedccnt ≤ spdSchedMaCache

/-- Both counters are the lengths of their lists. -/
structure Context.Counted (c : Context) : Prop extends c.CacheCounted where
  queued : c.schedsnt.toNat = c.schedulerq.length

/-- An add that has an interval, and memory for its event where the cache is empty. -/
def Op.schedules : Op → Bool
  | .add when _ _ _ calloc _ => when ≠ 0 && calloc.isSome
  | _ => false

/-! ## The cache -/

/-- The entries in the queue and those being called are held. -/
def St.Held (s : St) : Prop := s.con.Owns (s.con.schedulerq ++ s.running)

section Cache

variable {s : St} {c : Context} {a : Addr} {running : List Addr}

theorem Context.Owns.cacheCounted {held : List Addr} (h : c.Owns held) : c.CacheCounted where
  cached := h.cached
  bound := by
    rw [UInt32.le_iff_toNat_le, h.cached]
    exact h.bound

/-- An entry goes from the callbacks to the queue. -/
theorem addScheduler_held (h : c.Owns (c.schedulerq ++ a :: running)) :
    ∃ q, addScheduler c a = .ok { c with schedulerq := q } ∧ q.Perm (a :: c.schedulerq) ∧
      Context.Owns { c with schedulerq := q } (q ++ running) := by
  have hheld : a ∈ c.schedulerq ++ a :: running :=
    List.mem_append_right _ List.mem_cons_self
  have hqueue : ∀ b ∈ c.schedulerq, b ∈ c.schedulerq ++ a :: running :=
    fun b hb => List.mem_append_left _ hb
  have hinsert := List.perm_orderedInsert (fun a b => c.due a < c.due b) a c.schedulerq
  have hperm := List.perm_middle.trans (hinsert.symm.append_right running)
  exact ⟨_, addScheduler_eq h hheld hqueue, hinsert, (h.perm hperm).setQueue _ _ _⟩

/-- An entry goes from the callbacks to the cache, or is freed. -/
theorem schedulerRelease_held (h : c.Owns (c.schedulerq ++ a :: running)) :
    (schedulerRelease c a).Owns ((schedulerRelease c a).schedulerq ++ running) := by
  rcases schedulerRelease_owns (h.perm List.perm_middle) with ⟨howns, -, hq, -⟩
  rw [hq]
  exact howns

theorem held_start : start.Held := inv_start.owns

theorem schedAlloc_schedsnt {calloc : Option Addr} (h : schedAlloc s.con calloc = some (a, c)) :
    c.schedsnt = s.con.schedsnt := by
  unfold schedAlloc at h
  split at h
  next =>
    injection h with h
    injection h with _ h
    rw [← h]
  next =>
    split at h
    next =>
      injection h with h
      injection h with _ h
      rw [← h]
      rfl
    next => exact absurd h nofun

/-- An event that is added is in the queue, and is not counted. -/
theorem step_schedules (h : s.Held) {when : Int32} (callback data : Nat) (flag : Int32)
    {calloc : Option Addr} {now : Clock}
    (he : Enabled s (.add when callback data flag calloc now)) (hwhen : when ≠ 0)
    (halloc : schedAlloc s.con calloc = some (a, c)) :
    ∃ s', step s (.add when callback data flag calloc now) = .ok s' ∧ s'.Held ∧
      s'.con.schedulerq.Perm (a :: s.con.schedulerq) ∧ s'.con.schedsnt = s.con.schedsnt := by
  rcases schedAlloc_owns h he halloc with ⟨howns, -, hq, -⟩
  let e := newEntry c when callback data flag now
  have hnormal : e.when.Normal := schedSettime_normal timeval_zero_normal now.property
  have hheld := ((howns.setQueue c.schedulerq (c.processedcnt + 1) c.schedsnt).write
    (s := a) hnormal).perm List.perm_middle.symm
  rw [← hq] at hheld
  rcases addScheduler_held hheld with ⟨q, hadd, hperm, hnew⟩
  have hread := hnew.read (List.mem_append_left _ (hperm.mem_iff.mpr List.mem_cons_self))
  have hperm' : q.Perm (a :: s.con.schedulerq) := hq ▸ hperm
  have hcount : c.schedsnt = s.con.schedsnt := schedAlloc_schedsnt halloc
  rw [step, spdSchedAddFlag_alloc callback data flag hwhen halloc, hadd, ok_bind, hread, ok_bind,
    ok_bind]
  dsimp only
  -- an id of -1 is taken for a failure, with the event in the queue all the same
  split
  next => exact ⟨_, rfl, hnew, hperm', hcount⟩
  next => exact ⟨_, rfl, hnew, hperm', hcount⟩

theorem step_held_add (h : s.Held) (when : Int32) (callback data : Nat) (flag : Int32)
    {calloc : Option Addr} {now : Clock}
    (he : Enabled s (.add when callback data flag calloc now)) :
    ∃ s', step s (.add when callback data flag calloc now) = .ok s' ∧ s'.Held := by
  by_cases hwhen : when = 0
  · rw [step, spdSchedAddFlag, if_pos hwhen]
    exact ⟨s, rfl, h⟩
  · rcases halloc : schedAlloc s.con calloc with _ | ⟨tmp, c⟩
    · rw [step, spdSchedAddFlag, if_neg hwhen, halloc]
      exact ⟨s, rfl, h⟩
    · rcases step_schedules h callback data flag he hwhen halloc with ⟨s', hstep, hs', -⟩
      exact ⟨s', hstep, hs'⟩

theorem step_held_del (h : s.Held) (id : Int32) :
    ∃ s', step s (.del id) = .ok s' ∧ s'.Held := by
  have hfind := findId_eq h id fun b hb => List.mem_append_left s.running hb
  rcases hfound : s.con.schedulerq.find? fun a => (s.con.entry a).id = id with _ | a
  · rw [step, spdSchedDel, hfind, hfound]
    exact ⟨s, rfl, h⟩
  · have ha := List.mem_of_find?_eq_some hfound
    have hperm : (s.con.schedulerq ++ s.running).Perm
        (s.con.schedulerq.erase a ++ a :: s.running) :=
      ((List.perm_cons_erase ha).append_right s.running).trans List.perm_middle.symm
    have hheld := (Context.Owns.perm h hperm).setQueue (s.con.schedulerq.erase a)
      s.con.processedcnt (s.con.schedsnt - 1)
    rw [step, spdSchedDel, hfind, hfound]
    exact ⟨_, rfl, schedulerRelease_held hheld⟩

theorem step_held_call (h : s.Held) (now : Clock) :
    ∃ s', step s (.call now) = .ok s' ∧ s'.Held := by
  rcases hq : s.con.schedulerq with _ | ⟨cur, rest⟩
  · rw [step, runallHead, hq]
    exact ⟨s, rfl, h⟩
  · have hcur : cur ∈ s.con.schedulerq := hq ▸ List.mem_cons_self
    have hread := Context.Owns.read h (List.mem_append_left s.running hcur)
    rw [step, runallHead, hq]
    dsimp only
    rw [hread, ok_bind]
    split
    next => exact ⟨s, rfl, h⟩
    next =>
      have hperm : (s.con.schedulerq ++ s.running).Perm (rest ++ cur :: s.running) := by
        rw [hq]
        exact List.perm_middle.symm
      have hheld := (Context.Owns.perm h hperm).setQueue rest s.con.processedcnt
        (s.con.schedsnt - 1)
      have hread := hheld.read (List.mem_append_right rest List.mem_cons_self)
      rw [ok_bind]
      dsimp only
      rw [hread, ok_bind]
      exact ⟨_, rfl, hheld⟩

theorem step_held_ret (h : s.Held) {cur : Addr} (res : Int32) (now : Clock)
    (he : Enabled s (.ret cur res now)) :
    ∃ s', step s (.ret cur res now) = .ok s' ∧ s'.Held := by
  have hcur : cur ∈ s.running := he
  have hread := Context.Owns.read h (List.mem_append_right s.con.schedulerq hcur)
  have hheld := Context.Owns.perm h ((List.perm_cons_erase hcur).append_left s.con.schedulerq)
  by_cases hres : res = 0
  · rw [step, hread, ok_bind, runallTail, if_neg (not_not.mpr hres), ok_bind]
    dsimp only
    rw [if_pos hres]
    exact ⟨_, rfl, schedulerRelease_held hheld⟩
  · let again := if (s.con.entry cur).flag ≠ 0 then res else (s.con.entry cur).reschedule
    let e := { s.con.entry cur with when := (schedSettime (s.con.entry cur).when again now).2 }
    have hnormal : e.when.Normal :=
      schedSettime_normal (Context.Owns.normal h cur) now.property
    rcases addScheduler_held (hheld.write (s := cur) hnormal) with ⟨q, hadd, -, hnew⟩
    rw [step, hread, ok_bind, runallTail_again hres hread, hadd, ok_bind]
    dsimp only
    rw [if_neg hres]
    exact ⟨_, rfl, hnew⟩

/-- Every step returns, and what is held is held on to. -/
theorem step_held (h : s.Held) (o : Op) (he : Enabled s o) :
    ∃ s', step s o = .ok s' ∧ s'.Held := by
  cases o with
  | add when callback data flag calloc now => exact step_held_add h when callback data flag he
  | del id => exact step_held_del h id
  | call now => exact step_held_call h now
  | ret cur res now => exact step_held_ret h res now he

/-- `schedccnt` is right in every state of every run. -/
theorem cacheCounted_always (os : List Op) {s : St} (h : s.Held)
    (hl : Run.Legal step Enabled s os) :
    Run.Always step (fun s => s.con.CacheCounted) s os := by
  have hiff : Run.Always step (fun s => s.con.CacheCounted) s os ↔
      Run.Legal step (fun _ _ => ¬ False) s os :=
    Run.always_iff_inv (fun s hs => Context.Owns.cacheCounted hs)
      (fun s o hs he _ => step_held hs o he) (fun s o s' _ _ hbad _ => hbad.elim) os h hl
  exact hiff.mpr (Run.legal_of_forall (fun _ _ => not_false) os)

end Cache

/-! ## The queue -/

/-- Nothing has been scheduled yet. -/
structure St.Idle (s : St) : Prop where
  held : s.Held
  queue : s.con.schedulerq = []
  cache : s.con.schedulerc = []
  running : s.running = []
  count : s.con.schedsnt = 0

theorem idle_start : start.Idle := ⟨held_start, rfl, rfl, rfl, rfl⟩

section Queue

variable {s : St} {o : Op}

theorem St.Idle.counted (h : s.Idle) : s.con.Counted where
  toCacheCounted := Context.Owns.cacheCounted h.held
  queued := by
    rw [h.count, h.queue]
    rfl

/-- Only an add that schedules its event makes a difference. -/
theorem St.Idle.step (h : s.Idle) (he : Enabled s o) (ho : ¬ o.schedules = true) :
    step s o = .ok s := by
  cases o with
  | add when callback data flag calloc now =>
    by_cases hwhen : when = 0
    · rw [Sched.step, spdSchedAddFlag, if_pos hwhen]
      rfl
    · have hcalloc : calloc = none := by
        cases calloc with
        | none => rfl
        | some tmp => exact absurd (by simp [Op.schedules, hwhen]) ho
      have halloc : schedAlloc s.con none = none := by
        rw [schedAlloc, h.cache]
      rw [Sched.step, spdSchedAddFlag, if_neg hwhen, hcalloc, halloc]
      rfl
  | del id =>
    rw [Sched.step, spdSchedDel, h.queue]
    rfl
  | call now =>
    rw [Sched.step, runallHead, h.queue]
    rfl
  | ret cur res now =>
    have hcur : cur ∈ s.running := he
    rw [h.running] at hcur
    exact absurd hcur List.not_mem_nil

/-- The first event to be scheduled is in the queue, and `schedsnt` is still 0. -/
theorem St.Idle.not_counted (h : s.Idle) (he : Enabled s o) (ho : o.schedules = true) {s' : St}
    (hstep : Sched.step s o = .ok s') : ¬ s'.con.Counted := by
  cases o with
  | add when callback data flag calloc now =>
    rw [Op.schedules, Bool.and_eq_true, decide_eq_true_eq, Option.isSome_iff_exists] at ho
    obtain ⟨hwhen, tmp, rfl⟩ := ho
    have halloc : schedAlloc s.con (some tmp) = some (tmp, s.con.write tmp {}) := by
      rw [schedAlloc, h.cache]
    rcases step_schedules h.held callback data flag he hwhen halloc with
      ⟨s1, hstep1, -, hperm, hcount⟩
    obtain rfl := Outcome.ok.inj (hstep1.symm.trans hstep)
    intro hc
    have hqueued := hc.queued
    rw [hcount, h.count, hperm.length_eq, List.length_cons] at hqueued
    exact absurd hqueued (by rw [UInt32.toNat_zero]; omega)
  | del id => exact absurd ho nofun
  | call now => exact absurd ho nofun
  | ret cur res now => exact absurd ho nofun

end Queue

theorem legal_not_schedules {os : List Op} (hl : Run.Legal step Enabled start os) :
    Run.Legal step (fun _ o => ¬ o.schedules = true) start os ↔
      ∀ o ∈ os, ¬ o.schedules = true := by
  have hall : ∀ (os : List Op) {s : St}, s.Idle → Run.Legal step Enabled s os →
      (Run.Legal step (fun _ o => ¬ o.schedules = true) s os ↔
        ∀ o ∈ os, ¬ o.schedules = true) := by
    intro os
    induction os with
    | nil => exact fun _ _ => ⟨fun _ _ ho => absurd ho List.not_mem_nil, fun _ => trivial⟩
    | cons o os ih =>
      intro s hs hl
      rw [Run.Legal, List.forall_mem_cons]
      refine and_congr_right fun ho => ?_
      have hstep := hs.step hl.1 ho
      constructor
      · intro hrest
        exact (ih hs (hl.2 s hstep)).mp (hrest s hstep)
      · intro hrest s' hstep'
        obtain rfl := Outcome.ok.inj (hstep.symm.trans hstep')
        exact (ih hs (hl.2 s hstep)).mpr hrest
  exact hall os idle_start hl

/-- In every run `schedccnt` is the length of the cache; `schedsnt` is that of the queue as long as
    nothing is put into it. -/
theorem counters_iff (os : List Op) (hl : Run.Legal step Enabled start os) :
    Run.Always step (fun s => s.con.CacheCounted) start os ∧
      (Run.Always step (fun s => s.con.Counted) start os ↔ ∀ o ∈ os, ¬ o.schedules = true) := by
  refine ⟨cacheCounted_always os held_start hl, ?_⟩
  rw [← legal_not_schedules hl]
  exact Run.always_iff_inv (fun _ hs => hs.counted)
    (fun s o hs he ho => ⟨s, hs.step he ho, hs⟩)
    (fun _ _ _ hs he ho hstep => hs.not_counted he ho hstep) os idle_start hl

/-- Two events, of which one is called and goes back to the cache, the other is deleted, and one is
    added again from the cache: `schedccnt` is right all the time, `schedsnt` is not. Without memory
    for an event both are. -/
theorem counters_two :
    let ops : List Op := deleteInCallback ++
      [.ret 2 0 (clockAt 11), .add 7 3 0 0 none (clockAt 40), .del 3]
    Run.Always step (fun s => s.con.CacheCounted) start ops ∧
      ¬ Run.Always step (fun s => s.con.Counted) start ops ∧
      Run.Always step (fun s => s.con.Counted) start
        [.add 20 1 0 0 none (clockAt 0), .del 1, .call (clockAt 30)] := by
  intro ops
  have hevents := counters_iff ops (by decide +kernel)
  have hnone := counters_iff [.add 20 1 0 0 none (clockAt 0), .del 1, .call (clockAt 30)]
    (by decide +kernel)
  exact ⟨hevents.1, mt hevents.2.mp (by decide), hnone.2.mpr (by decide)⟩

/-- After one event has been added and deleted, the queue is empty and `schedsnt` is 2^32 - 1. -/
theorem counters_wrap :
    ∃ s, Run.Legal step Enabled start [.add 20 1 0 0 (some 1) (clockAt 0), .del 1] ∧
      Run.run step start [.add 20 1 0 0 (some 1) (clockAt 0), .del 1] = .ok s ∧
      s.con.schedulerq = [] ∧ s.con.schedsnt = 4294967295 ∧ ¬ s.con.Counted := by
  refine ⟨_, by decide +kernel, rfl, by decide +kernel, by decide +kernel, ?_⟩
  intro hc
  exact absurd hc.queued (by decide +kernel)

end Spider.Sched
