import Spider.Lib.Locked
import Spider.Sched.Runs

/-!
# The lock of the scheduler

`spd_sched_wait` and `spd_sched_runall` with what they do to `c->lock`. A
callback runs without the lock and may change the context.
-/

namespace Spider.Sched.Locking

open Lib Outcome Locked Call Times

/-- `spd_sched_wait` (`scheduler.c:129-145`). -/
def spdSchedWait (c : Context) (now : Timeval) : Call Int32 := do
  lock
  access
  match c.schedulerq with
  | [] => do
    lock
    pure (-1)
  | first :: _ => do
    let e ← lift (c.read first)
    let ms := Int32.ofInt (spdTvdiffMs e.when now)
    let ms := if ms < 0 then 0 else ms
    lock
    pure ms

/-- What a round of the loop of `spd_sched_runall` finds: the clock, what the callback makes of the
    context and returns, and the clock after it. -/
structure Round where
  now : Clock
  callback : Context → Outcome Context
  res : Int32
  again : Clock

/-- The loop of `spd_sched_runall` (`scheduler.c:303-342`). -/
def runallLoop : List Round → Context → Call (Int32 × Context)
  | [], c => do
    access
    if c.schedulerq = [] then pure (0, c) else lift .timeout
  | r :: rounds, c => do
    access
    match ← lift (runallHead c r.now) with
    | (none, c) => pure (0, c)
    | (some cur, c) => do
      access
      unlock
      let c ← lift (r.callback c)
      lock
      access
      let c ← lift (runallTail c cur r.res r.again)
      unlock
      let (numevents, c) ← runallLoop rounds c
      pure (numevents + 1, c)

/-- `spd_sched_runall` (`scheduler.c:293-345`). -/
def spdSchedRunall (rounds : List Round) (c : Context) : Call (Int32 × Context) := do
  lock
  runallLoop rounds c

/-- How many events are due one after the other, and whether the loop comes to an end after
    them. -/
def dueEvents : List Round → Context → Nat × Bool
  | [], c => (0, c.schedulerq = [])
  | r :: rounds, c =>
    match runallHead c r.now with
    | .ok (none, _) => (0, true)
    | .ok (some cur, c) =>
      match r.callback c >>= fun c => runallTail c cur r.res r.again with
      | .ok c => ((dueEvents rounds c).1 + 1, (dueEvents rounds c).2)
      | _ => (0, false)
    | _ => (0, false)

/-- The first event of the queue, if there is one, is allocated. -/
def FirstAllocated (c : Context) : Prop := ∀ first ∈ c.schedulerq.head?, first ∈ c.heap.dom

section

variable {d e : Nat} {c : Context} {rounds : List Round}

theorem read_eq_ok_iff {s : Addr} : (∃ e, c.read s = .ok e) ↔ s ∈ c.heap.dom := by
  rw [Heap.mem_dom, Context.read]
  cases c.heap.get s <;> simp

/-- `spd_sched_wait` takes the lock twice and never releases it. -/
theorem ends_spdSchedWait (now : Timeval) :
    Ends d e (spdSchedWait c now) ↔ (FirstAllocated c → d + 2 = e) := by
  unfold spdSchedWait FirstAllocated
  cases c.schedulerq with
  | nil => simp [Nat.add_assoc]
  | cons first rest =>
    simp [ends_lift_bind, ← read_eq_ok_iff, Nat.add_assoc]

/-- A round with an event that is due takes the lock once and releases it twice. -/
theorem ends_round {r : Round} {con : Context} {cur : Addr}
    (hhead : runallHead c r.now = .ok (some cur, con)) :
    Ends d e (runallLoop (r :: rounds) c) ↔ 0 < d ∧
      ∀ c, (r.callback con >>= fun c => runallTail c cur r.res r.again) = .ok c →
        Ends (d - 1) e (runallLoop rounds c) := by
  have hcount : ∀ {d : Nat} (c : Context),
      Ends d e (runallLoop rounds c >>= fun v => pure (v.1 + 1, v.2)) ↔
        Ends d e (runallLoop rounds c) := fun c => ends_bind_pure _
  rw [runallLoop, hhead]
  simp only [ends_access_bind, ends_lift_bind, ends_unlock_bind, ends_lock_bind, bind_eq_ok,
    Outcome.ok.injEq, forall_eq', hcount]
  constructor
  · rintro ⟨hd, -, -, h⟩
    refine ⟨hd, ?_⟩
    rintro c ⟨c1, hcallback, htail⟩
    have hrest := (h c1 hcallback).2 c htail
    rw [Nat.sub_add_cancel hd] at hrest
    exact hrest.2
  · rintro ⟨hd, h⟩
    refine ⟨hd, hd, hd, ?_⟩
    intro c1 hcallback
    rw [Nat.sub_add_cancel hd]
    exact ⟨hd, fun c htail => ⟨hd, h c ⟨c1, hcallback, htail⟩⟩⟩

/-- So the loop ends one level lower for every event. -/
theorem ends_runallLoop : Ends d e (runallLoop rounds c) ↔
    (dueEvents rounds c).1 < d ∧ ((dueEvents rounds c).2 → d = e + (dueEvents rounds c).1) := by
  fun_induction dueEvents rounds c generalizing d with
  | case1 c =>
    rw [runallLoop, ends_access_bind]
    split <;> simp_all [ends_lift]
  | case2 r rounds c con hhead =>
    simp [runallLoop, hhead, ends_lift_bind]
  | case3 r rounds c cur con hhead c' htail ih =>
    rw [ends_round hhead, htail]
    simp only [Outcome.ok.injEq, forall_eq', ih]
    cases (dueEvents rounds c').2 with
    | false =>
      simp only [Bool.false_eq_true, false_implies, and_true]
      omega
    | true =>
      simp only [forall_const]
      omega
  | case4 r rounds c cur con hhead hfault =>
    rw [ends_round hhead]
    simp only [Nat.add_zero, Bool.false_eq_true, false_implies, and_true]
    exact and_iff_left fun c' htail => (hfault c' htail).elim
  | case5 r rounds c hnone hsome =>
    rw [runallLoop]
    simp only [ends_access_bind, ends_lift_bind, Bool.false_eq_true, false_implies, and_true]
    apply and_iff_left
    rintro ⟨cur, con⟩ hhead
    cases cur with
    | none => exact (hnone con hhead).elim
    | some cur => exact (hsome cur con hhead).elim

/-- `spd_sched_runall` keeps the lock exactly when it is entered with the lock held and comes to its
    end after one event. -/
theorem keeps_spdSchedRunall : Locked.Keeps d (spdSchedRunall rounds c) ↔
    (dueEvents rounds c).1 ≤ d ∧ ((dueEvents rounds c).2 → (dueEvents rounds c).1 = 1) := by
  rw [Locked.Keeps, spdSchedRunall, ends_lock_bind, ends_runallLoop, Nat.lt_succ_iff]
  apply and_congr_right'
  apply imp_congr_right
  intro _
  omega

/-- Without the lock it is the loop of the model above: each callback makes of the context what its
    additions and deletions make of it. -/
theorem runallLoop_outcome (rounds : List Sched.Round) {s s' : St} {numevents : Int32}
    (h : Sched.spdSchedRunall rounds s = .ok (numevents, s')) :
    ∃ rounds', (runallLoop rounds' s.con).outcome = .ok (numevents, s'.con) := by
  induction rounds generalizing s numevents with
  | nil =>
    rw [Sched.spdSchedRunall] at h
    split at h
    next hempty =>
      injection h with h
      injection h with hn hs
      refine ⟨[], ?_⟩
      simp [runallLoop, hempty, Call.access, ← hn, ← hs]
    next => cases h
  | cons r rounds ih =>
    rcases bind_eq_ok.mp h with ⟨⟨found, con⟩, hhead, h⟩
    cases found with
    | none =>
      injection h with h
      injection h with hn hs
      refine ⟨[⟨r.now, .ok, r.res, r.again⟩], ?_⟩
      simp [runallLoop, hhead, Call.access, ← hn, ← hs]
    | some cur =>
      rcases bind_eq_ok.mp h with ⟨e, hread, h⟩
      rcases bind_eq_ok.mp h with ⟨s2, hbody, h⟩
      rcases bind_eq_ok.mp h with ⟨s3, hret, h⟩
      rcases bind_eq_ok.mp h with ⟨⟨n, s4⟩, hrest, h⟩
      injection h with h
      injection h with hn hs
      subst hs
      rcases ih hrest with ⟨rounds', hrounds'⟩
      rcases bind_eq_ok.mp hret with ⟨e2, hread2, hret⟩
      rcases bind_eq_ok.mp hret with ⟨con3, htail, hret⟩
      have hcon : s3.con = con3 := by
        dsimp only at hret
        split at hret
        · rw [← Outcome.ok.inj hret]
        · rw [← Outcome.ok.inj hret]
          rfl
      refine ⟨⟨r.now, fun _ => .ok s2.con, r.res, r.again⟩ :: rounds', ?_⟩
      rw [hcon] at hrounds'
      simp [runallLoop, hhead, Call.access, Call.unlock, Call.lock, htail, hrounds', ← hn]

end

end Spider.Sched.Locking
