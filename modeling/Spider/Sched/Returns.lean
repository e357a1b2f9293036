import Mathlib.Algebra.GroupWithZero.Nat
import Spider.Sched.Counters
import Spider.Sched.Due

/-!
# Calls of `spd_sched_runall` return

A callback that returns a value other than zero is scheduled again, and may add
further events, while the loop goes on for as long as the first event is due.
What an event can cost is the number of times that it can still be due before
the clock passes its last reading; each call is paid for out of it. The lock is
left aside, and the removals of lines 100 and 313 are those of the first element.
-/

namespace Spider.Sched

open Lib Outcome Times

/-- An event of the queue: its id, and when it is due. -/
structure Event where
  id : Int32
  due : Int
  deriving DecidableEq, Repr

def St.event (s : St) (a : Addr) : Event := ⟨s.idOf a, s.con.due a⟩

def St.events (s : St) : List Event := s.con.schedulerq.map s.event

/-- The clocks that an operation or a round reads are between `t0` and `t1`. -/
def Op.Within (t0 t1 : Int) : Op → Prop
  | .add _ _ _ _ _ now | .call now | .ret _ _ now => t0 ≤ now.val.us ∧ now.val.us ≤ t1
  | .del _ => True

@[inherit_doc Op.Within]
structure Round.Within (t0 t1 : Int) (r : Round) : Prop where
  now : t0 ≤ r.now.val.us ∧ r.now.val.us ≤ t1
  body : ∀ o ∈ r.body, o.Within t0 t1
  again : t0 ≤ r.again.val.us ∧ r.again.val.us ≤ t1

/-- The milliseconds that begin between `t0` and `t1`. -/
def ticks (t0 t1 : Int) : Nat := ((t1 - t0 + 999) / 1000).toNat

/-- How often an event that is due at `due` can be called while the clock reads from `t0` to `t1`:
    once if it is late, and then once for each millisecond. -/
def credit (t0 t1 due : Int) : Nat :=
  (if due < t0 then 1 else 0) + ((t1 + 1000 - max due t0 + 999) / 1000).toNat

/-- What the events whose ids satisfy `p` can cost. -/
def cost (t0 t1 : Int) (p : Int32 → Bool) (events : List Event) : Nat :=
  ((events.filter fun e => p e.id).map fun e => credit t0 t1 e.due).sum

/-- Every event of the context has an interval. -/
def St.Intervals (s : St) : Prop :=
  ∀ a ∈ s.con.schedulerq ++ s.running, (s.con.entry a).reschedule ≠ 0

/-! ## Credit -/

section Credit

variable {t0 t1 : Int} {due : Int} {p : Int32 → Bool}

theorem credit_le (h : t0 ≤ t1) : credit t0 t1 due ≤ 2 + ticks t0 t1 := by
  unfold credit ticks
  split <;> omega

/-- An event that is added is not due within the millisecond. -/
theorem credit_added (h : t0 + 1000 ≤ due) : credit t0 t1 due ≤ ticks t0 t1 := by
  unfold credit ticks
  rw [if_neg (by omega)]
  omega

/-- What is called can pay for it. -/
theorem credit_pos (h : due < t1 + 1000) (hle : t0 ≤ t1) : 1 ≤ credit t0 t1 due := by
  unfold credit
  split <;> omega

/-- An event that is scheduled again is due an interval later, or now if that has passed. -/
theorem credit_again (h : due < t1 + 1000) {again interval : Int} (h0 : 0 ≤ t0)
    (hagain : t0 ≤ again ∧ again ≤ t1) (hinterval : 0 < interval) :
    credit t0 t1 (max again ((if due = 0 then again else due) + interval * 1000)) + 1 ≤
      credit t0 t1 due := by
  unfold credit
  split <;> split <;> split <;> omega

theorem cost_perm {events events' : List Event} (h : events.Perm events') :
    cost t0 t1 p events = cost t0 t1 p events' :=
  ((h.filter _).map _).sum_eq

theorem cost_cons (e : Event) (events : List Event) : cost t0 t1 p (e :: events) =
    (if p e.id then credit t0 t1 e.due else 0) + cost t0 t1 p events := by
  unfold cost
  rw [List.filter_cons]
  by_cases hp : p e.id = true
  · rw [if_pos hp, if_pos hp, List.map_cons, List.sum_cons]
  · rw [if_neg hp, if_neg hp, Nat.zero_add]

theorem cost_le (h : t0 ≤ t1) (events : List Event) :
    cost t0 t1 p events ≤ (events.countP fun e => p e.id) * (2 + ticks t0 t1) := by
  induction events with
  | nil => exact Nat.zero_le _
  | cons e events ih =>
    have hcredit : credit t0 t1 e.due ≤ 2 + ticks t0 t1 := credit_le h
    rw [cost_cons, List.countP_cons, Nat.add_mul]
    split
    · rw [Nat.one_mul]
      omega
    · omega

end Credit

/-! ## The queue -/

section Queue

variable {s s' : St} {a : Addr} {t0 t1 : Int} {p : Int32 → Bool}

/-- The entries `gone` have left the queue and `new` have come into it; the others that are still
    there are what they were. -/
structure Requeues (s s' : St) (gone new : List Addr) : Prop where
  queue : (gone ++ s'.con.schedulerq).Perm (new ++ s.con.schedulerq)
  kept : ∀ b ∈ s.con.schedulerq ++ s.running, b ∈ s'.con.schedulerq ++ s'.running → b ∉ new →
    s'.con.entry b = s.con.entry b

theorem event_congr (h : s'.con.entry a = s.con.entry a) : s'.event a = s.event a := by
  unfold St.event St.idOf Context.due
  rw [h]

/-- Nothing has come into the queue. -/
theorem Requeues.events_gone {gone : List Addr} (h : Requeues s s' gone []) :
    s.events.Perm (gone.map s.event ++ s'.events) := by
  have hmap : s'.events = s'.con.schedulerq.map s.event := by
    apply List.map_congr_left
    intro b hb
    apply event_congr
    have hmem := h.queue.mem_iff.mp (List.mem_append_right gone hb)
    exact h.kept b (List.mem_append_left _ hmem) (List.mem_append_left _ hb) List.not_mem_nil
  have hperm := h.queue.map s.event
  rw [List.map_append, ← hmap] at hperm
  exact hperm.symm

/-- Nothing has left the queue. -/
theorem Requeues.events_new (h : Requeues s s' [] [a]) (ha : a ∉ s.con.schedulerq) :
    s'.events.Perm (s'.event a :: s.events) := by
  have hmap : s.con.schedulerq.map s'.event = s.events := by
    apply List.map_congr_left
    intro b hb
    apply event_congr
    have hmem := h.queue.mem_iff.mpr (List.mem_append_right [a] hb)
    apply h.kept b (List.mem_append_left _ hb) (List.mem_append_left _ hmem)
    intro hnew
    exact ha (List.mem_singleton.mp hnew ▸ hb)
  have hperm := h.queue.map s'.event
  rw [List.singleton_append, List.map_cons, hmap] at hperm
  exact hperm

/-- What an add does: nothing, or one event more, which is due an interval from now. -/
theorem step_add_queue (h : Inv s) {when : Int32} {callback data : Nat} {flag : Int32}
    {calloc : Option Addr} {now : Clock} (he : Enabled s (.add when callback data flag calloc now))
    (hbound : s.added.length + 1 < 2 ^ 31)
    (hstep : step s (.add when callback data flag calloc now) = .ok s') :
    s' = s ∨ ∃ a, a ∉ s.con.schedulerq ++ s.running ∧ Requeues s s' [] [a] ∧
      s'.running = s.running ∧ s'.calls = s.calls ∧ s'.deleted = s.deleted ∧
      s'.added = s'.idOf a :: s.added ∧ (s'.con.entry a).reschedule ≠ 0 ∧
      now.val.us + 1000 ≤ s'.con.due a := by
  by_cases hwhen : when = 0
  · rw [step, spdSchedAddFlag, if_pos hwhen] at hstep
    exact Or.inl (Outcome.ok.inj hstep).symm
  · rcases halloc : schedAlloc s.con calloc with _ | ⟨tmp, c⟩
    · rw [step, spdSchedAddFlag, if_neg hwhen, halloc] at hstep
      exact Or.inl (Outcome.ok.inj hstep).symm
    · right
      have hnormal : (newEntry c when callback data flag now).when.Normal :=
        schedSettime_normal timeval_zero_normal now.property
      rcases schedAlloc_owns h.owns he halloc with ⟨howns, hentry, hq, -⟩
      have h1 := h.alloc hbound he halloc
        (rfl : (newEntry c when callback data flag now).id = c.processedcnt.toInt32) hnormal
      rcases addScheduler_held h1.owns with ⟨q, hadd, hperm, hnew⟩
      have hread := hnew.read (List.mem_append_left _ (hperm.mem_iff.mpr List.mem_cons_self))
      have hpos := (h1.range _ List.mem_cons_self).1
      have hne : (newEntry c when callback data flag now).id ≠ -1 :=
        fun heq => absurd hpos (heq ▸ by decide)
      have hentryNew : Context.entry { Context.write { c with
          processedcnt := c.processedcnt + 1 } tmp (newEntry c when callback data flag now) with
          schedulerq := q } tmp = newEntry c when callback data flag now := Context.entry_write _
      have hnot : tmp ∉ s.con.schedulerq ++ s.running :=
        fun hmem => (List.nodup_cons.mp howns.nodup).1 (List.mem_append_left _ hmem)
      rw [step, spdSchedAddFlag_alloc callback data flag hwhen halloc, hadd, ok_bind, hread,
        ok_bind, ok_bind] at hstep
      dsimp only at hstep hread
      rw [hentryNew, if_neg hne] at hstep
      obtain rfl := Outcome.ok.inj hstep
      refine ⟨tmp, hnot, ⟨?_, ?_⟩, rfl, rfl, rfl, ?_, ?_, ?_⟩
      · exact hq ▸ hperm
      · intro b hb _ hb'
        exact (Context.entry_write_of_ne _ (List.ne_of_not_mem_cons hb')).trans (hentry b hb)
      · exact congrArg (· :: s.added) (congrArg Scheduler.id hentryNew).symm
      · intro hzero
        exact hwhen ((congrArg Scheduler.reschedule hentryNew).symm.trans hzero)
      · have hdue := (congrArg (fun e => e.when.us) hentryNew).trans
          (schedSettime_us timeval_zero_normal when now)
        have hpos := intervalRead_pos hwhen
        have hzero : Timeval.us ⟨0, 0⟩ = 0 := rfl
        rw [hzero, if_pos rfl] at hdue
        exact le_of_le_of_eq (by omega) hdue.symm

/-- What a deletion does: nothing, or the event is gone. -/
theorem step_del_queue (h : Inv s) {id : Int32} (hstep : step s (.del id) = .ok s') :
    s' = s ∨ ∃ a, a ∈ s.con.schedulerq ∧ Requeues s s' [a] [] ∧ s'.running = s.running ∧
      s'.calls = s.calls ∧ s'.deleted = s.idOf a :: s.deleted ∧ s'.added = s.added := by
  have hfind := findId_eq h.owns id fun b hb => List.mem_append_left s.running hb
  rcases hfound : s.con.schedulerq.find? fun a => (s.con.entry a).id = id with _ | a
  · rw [step, spdSchedDel, hfind, hfound] at hstep
    exact Or.inl (Outcome.ok.inj hstep).symm
  · right
    have ha := List.mem_of_find?_eq_some hfound
    have hid : decide ((s.con.entry a).id = id) = true :=
      @List.find?_some _ (fun a => decide ((s.con.entry a).id = id)) _ _ hfound
    have hid : s.idOf a = id := of_decide_eq_true hid
    subst hid
    have hperm : (s.con.schedulerq ++ s.running).Perm
        (a :: (s.con.schedulerq.erase a ++ s.running)) :=
      (List.perm_cons_erase ha).append_right s.running
    have howns := (h.owns.perm hperm).setQueue (s.con.schedulerq.erase a) s.con.processedcnt
      (s.con.schedsnt - 1)
    rcases schedulerRelease_owns howns with ⟨-, hentry, hq, -⟩
    rw [step, spdSchedDel, hfind, hfound] at hstep
    obtain rfl := Outcome.ok.inj hstep
    refine ⟨a, ha, ⟨?_, ?_⟩, rfl, rfl, rfl, rfl⟩
    · show (a :: (schedulerRelease _ a).schedulerq).Perm s.con.schedulerq
      rw [hq]
      exact (List.perm_cons_erase ha).symm
    · intro b _ hb _
      dsimp only at hq hb
      rw [hq] at hb
      exact hentry b hb

/-- What the head of the loop does: the loop ends when nothing is due, and takes the first event
    otherwise. -/
theorem runallHead_cases (h : Inv s) (now : Clock) :
    (runallHead s.con now = .ok (none, s.con) ∧
      ∀ a ∈ s.con.schedulerq, now.val.us + 1000 ≤ s.con.due a) ∨
    ∃ cur rest, s.con.schedulerq = cur :: rest ∧ s.con.due cur < now.val.us + 1000 ∧
      runallHead s.con now =
        .ok (some cur, { s.con with schedulerq := rest, schedsnt := s.con.schedsnt - 1 }) := by
  have htv : (spdTvadd now.val ⟨0, 1000⟩).us = now.val.us + 1000 :=
    spdTvadd_us now.property ⟨by decide, by decide⟩
  rcases hq : s.con.schedulerq with _ | ⟨cur, rest⟩
  · left
    refine ⟨?_, fun a ha => absurd ha List.not_mem_nil⟩
    rw [runallHead, hq]
  · have hcur : cur ∈ s.con.schedulerq := hq ▸ List.mem_cons_self
    have hread := h.owns.read (List.mem_append_left s.running hcur)
    have hcmp := spdTvcmp_lt (h.owns.normal cur)
      (spdTvadd_normal now.property (b := ⟨0, 1000⟩) ⟨by decide, by decide⟩)
    rw [htv] at hcmp
    by_cases hdue : spdTvcmp (s.con.entry cur).when (spdTvadd now ⟨0, 1000⟩) = -1
    · right
      refine ⟨cur, rest, rfl, hcmp.mp hdue, ?_⟩
      rw [runallHead, hq]
      dsimp only
      rw [hread, ok_bind, if_neg (not_not.mpr hdue)]
    · left
      have hsorted := h.sorted
      rw [hq] at hsorted
      have hfirst := not_lt.mp (mt hcmp.mpr hdue)
      refine ⟨?_, ?_⟩
      · rw [runallHead, hq]
        dsimp only
        rw [hread, ok_bind, if_pos hdue]
      · intro b hb
        rcases List.mem_cons.mp hb with rfl | hb
        · exact hfirst
        · rcases List.rel_of_pairwise_cons hsorted hb with hlt | ⟨heq, -⟩
          · exact Int.le_of_lt (lt_of_le_of_lt hfirst hlt)
          · exact le_of_le_of_eq hfirst heq

/-- What the rest of the loop does: the event is gone, or is back in the queue. -/
theorem step_ret_queue (h : Inv s) (hintervals : s.Intervals) (ha : a ∈ s.running) {res : Int32}
    {now : Clock} (hstep : step s (.ret a res now) = .ok s') :
    s'.running = s.running.erase a ∧ s'.calls = s.calls ∧ s'.deleted = s.deleted ∧
      s'.added = s.added ∧ (Requeues s s' [] [] ∨ Requeues s s' [] [a] ∧ ∃ interval : Int32,
        interval ≠ 0 ∧ s'.con.entry a = { s.con.entry a with
          when := (schedSettime (s.con.entry a).when interval now).2 }) := by
  have hread := h.owns.read (List.mem_append_right s.con.schedulerq ha)
  have hheld := h.owns.perm ((List.perm_cons_erase ha).append_left s.con.schedulerq)
  by_cases hres : res = 0
  · rcases schedulerRelease_owns (hheld.perm List.perm_middle) with ⟨-, hentry, hq, -⟩
    rw [step, hread, ok_bind, runallTail, if_neg (not_not.mpr hres), ok_bind] at hstep
    dsimp only at hstep
    rw [if_pos hres] at hstep
    obtain rfl := Outcome.ok.inj hstep
    refine ⟨rfl, rfl, rfl, rfl, Or.inl ⟨?_, ?_⟩⟩
    · show (schedulerRelease s.con a).schedulerq.Perm s.con.schedulerq
      rw [hq]
    · intro b _ hb _
      exact hentry b (hq ▸ hb)
  · let again := if (s.con.entry a).flag ≠ 0 then res else (s.con.entry a).reschedule
    let e := { s.con.entry a with when := (schedSettime (s.con.entry a).when again now).2 }
    have hnormal : e.when.Normal := schedSettime_normal (h.owns.normal a) now.property
    rcases addScheduler_held (hheld.write (s := a) hnormal) with ⟨q, hadd, hperm, -⟩
    rw [step, hread, ok_bind, runallTail_again hres hread, hadd, ok_bind] at hstep
    dsimp only at hstep
    rw [if_neg hres] at hstep
    obtain rfl := Outcome.ok.inj hstep
    refine ⟨rfl, rfl, rfl, rfl, Or.inr ⟨⟨hperm, ?_⟩, again, ?_, Context.entry_write e⟩⟩
    · intro b _ _ hb
      exact Context.entry_write_of_ne e (List.ne_of_not_mem_cons hb)
    · show (if (s.con.entry a).flag ≠ 0 then res else (s.con.entry a).reschedule) ≠ 0
      split
      · exact hres
      · exact hintervals a (List.mem_append_right _ ha)

/-- What is kept and what is new has an interval. -/
theorem Requeues.intervals {gone new : List Addr} (h : Requeues s s' gone new)
    (hintervals : s.Intervals) (hrunning : ∀ b ∈ s'.running, b ∈ s.running)
    (hnew : ∀ b ∈ new, (s'.con.entry b).reschedule ≠ 0) : s'.Intervals := by
  intro b hb
  by_cases hmem : b ∈ new
  · exact hnew b hmem
  · have hold : b ∈ s.con.schedulerq ++ s.running := by
      rcases List.mem_append.mp hb with hq | hr
      · have hor := h.queue.mem_iff.mp (List.mem_append_right gone hq)
        exact List.mem_append_left _ ((List.mem_append.mp hor).resolve_left hmem)
      · exact List.mem_append_right _ (hrunning b hr)
    rw [h.kept b hold hb hmem]
    exact hintervals b hold

theorem intervals_start : start.Intervals := fun _ ha => absurd ha List.not_mem_nil

theorem step_intervals (h : Inv s) (hintervals : s.Intervals) {o : Op} (he : Enabled s o)
    (hbound : s.added.length + adds [o] < 2 ^ 31) (hstep : step s o = .ok s') : s'.Intervals := by
  cases o with
  | add when callback data flag calloc now =>
    rcases step_add_queue h he hbound hstep with rfl | ⟨a, -, hqueue, hrunning, -, -, -, hnew, -⟩
    · exact hintervals
    · apply hqueue.intervals hintervals (hrunning ▸ fun _ hb => hb)
      intro b hb
      exact List.mem_singleton.mp hb ▸ hnew
  | del id =>
    rcases step_del_queue h hstep with rfl | ⟨a, -, hqueue, hrunning, -⟩
    · exact hintervals
    · exact hqueue.intervals hintervals (hrunning ▸ fun _ hb => hb)
        fun b hb => absurd hb List.not_mem_nil
  | call now =>
    rcases runallHead_cases h now with ⟨hhead, -⟩ | ⟨cur, rest, hq, -, hhead⟩
    · rw [step, hhead] at hstep
      obtain rfl := Outcome.ok.inj hstep
      exact hintervals
    · have hcur : cur ∈ s.con.schedulerq := hq ▸ List.mem_cons_self
      have hread : Context.read { s.con with schedulerq := rest, schedsnt := s.con.schedsnt - 1 }
          cur = .ok (s.con.entry cur) := h.owns.read (List.mem_append_left _ hcur)
      rw [step, hhead, ok_bind] at hstep
      dsimp only at hstep
      rw [hread, ok_bind] at hstep
      obtain rfl := Outcome.ok.inj hstep
      intro b hb
      apply hintervals b
      rw [hq]
      exact List.perm_middle.mem_iff.mp hb
  | ret cur res now =>
    rcases step_ret_queue h hintervals he hstep with ⟨hrunning, -, -, -, hqueue | ⟨hqueue, hnew⟩⟩
    · exact hqueue.intervals hintervals (hrunning ▸ fun _ hb => List.mem_of_mem_erase hb)
        fun b hb => absurd hb List.not_mem_nil
    · rcases hnew with ⟨interval, -, hentry⟩
      apply hqueue.intervals hintervals (hrunning ▸ fun _ hb => List.mem_of_mem_erase hb)
      intro b hb
      rw [List.mem_singleton.mp hb, hentry]
      exact hintervals cur (List.mem_append_right _ he)

theorem run_intervals (os : List Op) {s s' : St} (h : Inv s) (hintervals : s.Intervals)
    (hl : Run.Legal step Enabled s os) (hbound : s.added.length + adds os < 2 ^ 31)
    (hrun : Run.run step s os = .ok s') : s'.Intervals := by
  induction os generalizing s with
  | nil => exact Outcome.ok.inj hrun ▸ hintervals
  | cons o os ih =>
    rw [adds_cons] at hbound
    rcases step_advances h o hl.1 (by omega) with ⟨s1, hstep, hs1⟩
    have hadded := hs1.added
    rw [Run.run_cons_of_ok hstep] at hrun
    exact ih hs1.inv (step_intervals h hintervals hl.1 (by omega) hstep) (hl.2 s1 hstep) (by omega)
      hrun

end Queue

/-! ## Rounds of the loop -/

/-- From `s` to `s'` the events `later` are called, and what was queued still is unless it was called
    or deleted. Each call is paid for by what the events can cost, with a tick for each millisecond
    when the event was added on the way. -/
structure Served (t0 t1 : Int) (s s' : St) (later : List Int32) : Prop where
  calls : s'.calls = s.calls ++ later
  events : ∀ e ∈ s.events, e ∈ s'.events ∨ e.id ∈ s'.deleted ∨ e.id ∈ later
  deleted : ∀ id ∈ s.deleted, id ∈ s'.deleted
  paid : ∀ p : Int32 → Bool,
    cost t0 t1 p s'.events + later.countP p + ticks t0 t1 * s.added.countP p ≤
      cost t0 t1 p s.events + ticks t0 t1 * s'.added.countP p

/-- What happens while the callback runs. -/
structure Meanwhile (t0 t1 : Int) (s s' : St) : Prop where
  inv : Inv s'
  intervals : s'.Intervals
  served : Served t0 t1 s s' []
  running : s'.running = s.running
  kept : ∀ b ∈ s.running, s'.con.entry b = s.con.entry b

section Rounds

variable {s s' s'' : St} {t0 t1 : Int}

theorem Served.refl (s : St) : Served t0 t1 s s [] where
  calls := (List.append_nil _).symm
  events _ he := Or.inl he
  deleted _ hid := hid
  paid _ := Nat.le_refl _

theorem Served.trans {later later' : List Int32} (h : Served t0 t1 s s' later)
    (h' : Served t0 t1 s' s'' later') : Served t0 t1 s s'' (later ++ later') where
  calls := by rw [h'.calls, h.calls, List.append_assoc]
  events e he := by
    rcases h.events e he with hqueued | hdeleted | hcalled
    · rcases h'.events e hqueued with hqueued | hdeleted | hcalled
      · exact Or.inl hqueued
      · exact Or.inr (Or.inl hdeleted)
      · exact Or.inr (Or.inr (List.mem_append_right _ hcalled))
    · exact Or.inr (Or.inl (h'.deleted _ hdeleted))
    · exact Or.inr (Or.inr (List.mem_append_left _ hcalled))
  deleted id hid := h'.deleted id (h.deleted id hid)
  paid p := by
    have hfirst := h.paid p
    have hsecond := h'.paid p
    rw [List.countP_append]
    omega

theorem Meanwhile.refl (h : Inv s) (hintervals : s.Intervals) : Meanwhile t0 t1 s s where
  inv := h
  intervals := hintervals
  served := Served.refl s
  running := rfl
  kept _ _ := rfl

theorem Meanwhile.trans (h : Meanwhile t0 t1 s s') (h' : Meanwhile t0 t1 s' s'') :
    Meanwhile t0 t1 s s'' where
  inv := h'.inv
  intervals := h'.intervals
  served := h.served.trans h'.served
  running := h'.running.trans h.running
  kept b hb := (h'.kept b (h.running ▸ hb)).trans (h.kept b hb)

/-- An event that is added can be called in a later millisecond, one that is deleted not at all. -/
theorem step_meanwhile (h : Inv s) (hintervals : s.Intervals) {o : Op} (ho : o.byCallback)
    (hclock : o.Within t0 t1) (he : Enabled s o) (hbound : s.added.length + adds [o] < 2 ^ 31) :
    ∃ s', step s o = .ok s' ∧ Meanwhile t0 t1 s s' ∧
      s'.added.length ≤ s.added.length + adds [o] := by
  rcases step_advances h o he hbound with ⟨s', hstep, hadvances⟩
  have hnext := step_intervals h hintervals he hbound hstep
  refine ⟨s', hstep, ?_, hadvances.added⟩
  cases o with
  | add when callback data flag calloc now =>
    rcases step_add_queue h he hbound hstep with
      rfl | ⟨a, hnot, hqueue, hrunning, hcalls, hdeleted, hadded, -, hdue⟩
    · exact Meanwhile.refl h hintervals
    · have hevents := hqueue.events_new fun hmem => hnot (List.mem_append_left _ hmem)
      refine ⟨hadvances.inv, hnext, ⟨?_, ?_, ?_, ?_⟩, hrunning, ?_⟩
      · rw [hcalls, List.append_nil]
      · exact fun e he => Or.inl (hevents.mem_iff.mpr (List.mem_cons_of_mem _ he))
      · exact hdeleted ▸ fun _ hid => hid
      · intro p
        have hcredit : credit t0 t1 (s'.con.due a) ≤ ticks t0 t1 :=
          credit_added (by have hle := hclock.1; omega)
        rw [cost_perm hevents, cost_cons, hadded, List.countP_cons, Nat.mul_add]
        show (if p (s'.idOf a) then credit t0 t1 (s'.con.due a) else 0) + _ + _ + _ ≤ _
        split
        · rw [List.countP_nil]
          omega
        · rw [List.countP_nil]
          omega
      · intro b hb
        apply hqueue.kept b (List.mem_append_right _ hb) (List.mem_append_right _ (hrunning ▸ hb))
        intro hmem
        exact hnot (List.mem_append_right _ (List.mem_singleton.mp hmem ▸ hb))
  | del id =>
    rcases step_del_queue h hstep with rfl | ⟨a, ha, hqueue, hrunning, hcalls, hdeleted, hadded⟩
    · exact Meanwhile.refl h hintervals
    · have hevents := hqueue.events_gone
      refine ⟨hadvances.inv, hnext, ⟨?_, ?_, ?_, ?_⟩, hrunning, ?_⟩
      · rw [hcalls, List.append_nil]
      · intro e he
        rcases List.mem_cons.mp (hevents.mem_iff.mp he) with rfl | he
        · exact Or.inr (Or.inl (hdeleted ▸ List.mem_cons_self))
        · exact Or.inl he
      · exact hdeleted ▸ fun _ hid => List.mem_cons_of_mem _ hid
      · intro p
        rw [cost_perm hevents, List.map_singleton, List.singleton_append, cost_cons, hadded,
          List.countP_nil]
        omega
      · intro b hb
        exact hqueue.kept b (List.mem_append_right _ hb) (List.mem_append_right _ (hrunning ▸ hb))
          List.not_mem_nil
  | call now => exact absurd ho Bool.false_ne_true
  | ret cur res now => exact absurd ho Bool.false_ne_true

theorem run_meanwhile (os : List Op) {s : St} (h : Inv s) (hintervals : s.Intervals)
    (hos : ∀ o ∈ os, o.byCallback) (hclock : ∀ o ∈ os, o.Within t0 t1)
    (hl : Run.Legal step Enabled s os) (hbound : s.added.length + adds os < 2 ^ 31) :
    ∃ s', Run.run step s os = .ok s' ∧ Meanwhile t0 t1 s s' ∧
      s'.added.length ≤ s.added.length + adds os := by
  induction os generalizing s with
  | nil => exact ⟨s, rfl, Meanwhile.refl h hintervals, Nat.le_add_right _ _⟩
  | cons o os ih =>
    rw [adds_cons] at hbound ⊢
    rcases step_meanwhile h hintervals (hos o List.mem_cons_self) (hclock o List.mem_cons_self) hl.1
      (by omega) with ⟨s1, hstep, hs1, hadded⟩
    rcases ih hs1.inv hs1.intervals (fun o ho => hos o (List.mem_cons_of_mem _ ho))
      (fun o ho => hclock o (List.mem_cons_of_mem _ ho)) (hl.2 s1 hstep) (by omega) with
        ⟨s', hrun, hs', hadded'⟩
    exact ⟨s', (Run.run_cons_of_ok hstep os).trans hrun, hs1.trans hs', by omega⟩

/-- `cur` is taken off the queue and called. -/
def St.called (s : St) (cur : Addr) (rest : List Addr) : St :=
  { s with
    con := { s.con with schedulerq := rest, schedsnt := s.con.schedsnt - 1 }
    running := cur :: s.running
    calls := s.calls ++ [s.idOf cur] }

/-- What is queued when a callback has returned was queued before, or is the event itself with a call
    less to be paid for. -/
theorem step_ret_events (h : Inv s) (hintervals : s.Intervals) (h0 : 0 ≤ t0) {cur : Addr}
    (hcur : cur ∈ s.running) (hdue : s.con.due cur < t1 + 1000) {res : Int32} {again : Clock}
    (hagain : t0 ≤ again.val.us ∧ again.val.us ≤ t1)
    (hstep : step s (.ret cur res again) = .ok s') :
    s'.events.Perm s.events ∨ ∃ due, credit t0 t1 due + 1 ≤ credit t0 t1 (s.con.due cur) ∧
      s'.events.Perm (⟨s.idOf cur, due⟩ :: s.events) := by
  rcases step_ret_queue h hintervals hcur hstep with ⟨-, -, -, -, hqueue | ⟨hqueue, hnew⟩⟩
  · exact Or.inl hqueue.events_gone.symm
  · right
    rcases hnew with ⟨interval, hne, hentry⟩
    have hnot : cur ∉ s.con.schedulerq :=
      fun hmem => (List.nodup_append.mp h.held_nodup).2.2 cur hmem cur hcur rfl
    have hid : s'.idOf cur = s.idOf cur := by
      rw [St.idOf, hentry]
      rfl
    have hsettime := schedSettime_us (h.owns.normal cur) interval again
    have hnext : s'.con.due cur = _ := (congrArg (fun e => e.when.us) hentry).trans hsettime
    refine ⟨s'.con.due cur, ?_, hid ▸ hqueue.events_new hnot⟩
    rw [hnext]
    exact credit_again hdue h0 hagain (intervalRead_pos hne)

/-- A round pays for its call. -/
theorem round_served (h : Inv s) (hintervals : s.Intervals) (h0 : 0 ≤ t0) (hle : t0 ≤ t1)
    {r : Round} (hr : r.Within t0 t1) {cur : Addr} {rest : List Addr}
    (hq : s.con.schedulerq = cur :: rest) (hdue : s.con.due cur < r.now.val.us + 1000)
    (hbody : ∀ o ∈ r.body, o.byCallback)
    (hl : Run.Legal step Enabled (s.called cur rest) r.body)
    (hbound : s.added.length + adds r.body < 2 ^ 31) :
    ∃ s2 s3, Run.run step (s.called cur rest) r.body = .ok s2 ∧
      step s2 (.ret cur r.res r.again) = .ok s3 ∧ Inv s3 ∧ s3.Intervals ∧
      Served t0 t1 s s3 [s.idOf cur] ∧ s3.added.length ≤ s.added.length + adds r.body := by
  have hcur : cur ∈ s.con.schedulerq := hq ▸ List.mem_cons_self
  have h1 : Inv (s.called cur rest) := by
    have htake := h.take hcur (s.con.schedsnt - 1) (s.calls ++ [s.idOf cur])
    rw [hq, List.erase_cons_head] at htake
    exact htake
  have hintervals1 : (s.called cur rest).Intervals := by
    intro b hb
    apply hintervals b
    rw [hq]
    exact List.perm_middle.mem_iff.mp hb
  rcases run_meanwhile r.body h1 hintervals1 hbody hr.body hl hbound with ⟨s2, hrun, hs2, hadded⟩
  have hrunning : cur ∈ s2.running := hs2.running ▸ List.mem_cons_self
  have hentry : s2.con.entry cur = s.con.entry cur := hs2.kept cur List.mem_cons_self
  rcases step_ret hs2.inv r.res r.again hrunning with ⟨s3, hstep, hadvances⟩
  have hintervals3 := step_intervals hs2.inv hs2.intervals (o := .ret cur r.res r.again) hrunning
    (lt_of_le_of_lt hadded hbound) hstep
  rcases step_ret_queue hs2.inv hs2.intervals hrunning hstep with
    ⟨-, hcalls, hdeleted, hadded3, hqueue⟩
  refine ⟨s2, s3, hrun, hstep, hadvances.inv, hintervals3, ?_, hadded3 ▸ hadded⟩
  have hevents : s.events = s.event cur :: (s.called cur rest).events := by
    unfold St.events
    rw [hq]
    rfl
  have hlate : s.con.due cur < t1 + 1000 := by
    have hnow := hr.now.2
    omega
  have hdue2 : s2.con.due cur = s.con.due cur := congrArg (fun e => e.when.us) hentry
  have hid2 : s2.idOf cur = s.idOf cur := congrArg Scheduler.id hentry
  have hnext := step_ret_events hs2.inv hs2.intervals h0 hrunning (hdue2 ▸ hlate) hr.again hstep
  rw [hdue2, hid2] at hnext
  have hcost : ∀ p : Int32 → Bool, cost t0 t1 p s3.events + (if p (s.idOf cur) then 1 else 0) ≤
      cost t0 t1 p s2.events + if p (s.idOf cur) then credit t0 t1 (s.con.due cur) else 0 := by
    intro p
    have hpos := credit_pos hlate hle
    rcases hnext with hperm | ⟨due, hcredit, hperm⟩
    · rw [cost_perm hperm]
      split <;> omega
    · rw [cost_perm hperm, cost_cons]
      dsimp only
      split <;> omega
  have hmono : ∀ e ∈ s2.events, e ∈ s3.events := by
    intro e he
    rcases hnext with hperm | ⟨due, -, hperm⟩
    · exact hperm.mem_iff.mpr he
    · exact hperm.mem_iff.mpr (List.mem_cons_of_mem _ he)
  constructor
  · rw [hcalls, hs2.served.calls, List.append_nil]
    rfl
  · intro e he
    rw [hevents] at he
    rcases List.mem_cons.mp he with rfl | he
    · exact Or.inr (Or.inr List.mem_cons_self)
    · rcases hs2.served.events e he with hqueued | hgone | hcalled
      · exact Or.inl (hmono e hqueued)
      · exact Or.inr (Or.inl (hdeleted ▸ hgone))
      · exact absurd hcalled List.not_mem_nil
  · exact hdeleted ▸ hs2.served.deleted
  · intro p
    have hpaid := hs2.served.paid p
    have hlast := hcost p
    rw [hevents, cost_cons, hadded3, List.countP_singleton]
    rw [List.countP_nil] at hpaid
    show _ + (if p (s.idOf cur) then 1 else 0) + _ ≤
      (if p (s.idOf cur) then credit t0 t1 (s.con.due cur) else 0) + _ + _
    have hsame : (s.called cur rest).added = s.added := rfl
    rw [hsame] at hpaid
    omega

/-- How many adds there are in the callbacks of the rounds. -/
def bodyAdds (rounds : List Round) : Nat := (rounds.map fun r => adds r.body).sum

theorem ofNat_succ (n : Nat) : Int32.ofNat n + 1 = Int32.ofNat (n + 1) := by
  rw [Int32.ofNat_add]
  rfl

/-- With a round more than there is to pay for, the call returns. -/
theorem runall_served (rounds : List Round) {s : St} (h : Inv s) (hintervals : s.Intervals)
    (h0 : 0 ≤ t0) (hle : t0 ≤ t1) (hclock : ∀ r ∈ rounds, r.Within t0 t1)
    (hl : RoundsLegal rounds s) (hbound : s.added.length + bodyAdds rounds < 2 ^ 31)
    (henough : cost t0 t1 (fun _ => true) s.events + ticks t0 t1 * bodyAdds rounds <
      rounds.length) :
    ∃ s' later, spdSchedRunall rounds s = .ok (Int32.ofNat later.length, s') ∧ Inv s' ∧
      Served t0 t1 s s' later ∧ ∀ a ∈ s'.con.schedulerq, t0 + 1000 ≤ s'.con.due a := by
  induction rounds generalizing s with
  | nil => exact absurd henough (Nat.not_lt_zero _)
  | cons r rounds ih =>
    have hr := hclock r List.mem_cons_self
    have hsum : bodyAdds (r :: rounds) = adds r.body + bodyAdds rounds := by
      rw [bodyAdds, List.map_cons, List.sum_cons]
      rfl
    rw [hsum] at hbound henough
    rcases runallHead_cases h r.now with ⟨hhead, hnone⟩ | ⟨cur, rest, hq, hdue, hhead⟩
    · refine ⟨s, [], ?_, h, Served.refl s, ?_⟩
      · rw [spdSchedRunall, hhead]
        rfl
      · intro a ha
        have hfrom := hr.now.1
        have hafter := hnone a ha
        omega
    · have hcur : cur ∈ s.con.schedulerq := hq ▸ List.mem_cons_self
      have hread : Context.read { s.con with schedulerq := rest, schedsnt := s.con.schedsnt - 1 }
          cur = .ok (s.con.entry cur) := h.owns.read (List.mem_append_left _ hcur)
      rcases hl cur _ _ hhead hread with ⟨hbody, hlegal, hrounds⟩
      rcases round_served h hintervals h0 hle hr hq hdue hbody hlegal (by omega) with
        ⟨s2, s3, hrun, hstep, h3, hintervals3, hserved, hadded⟩
      have hpaid := hserved.paid fun _ => true
      simp only [List.countP_true] at hpaid
      have hgrown := Nat.mul_le_mul_left (ticks t0 t1) hadded
      rw [Nat.mul_add] at hgrown henough
      rw [List.length_singleton] at hpaid
      rw [List.length_cons] at henough
      rcases ih h3 hintervals3 (fun r hr => hclock r (List.mem_cons_of_mem _ hr))
        (hrounds s2 s3 hrun hstep) (by omega) (by omega) with ⟨s', later, hloop, h', hrest, hlast⟩
      refine ⟨s', s.idOf cur :: later, ?_, h', hserved.trans hrest, hlast⟩
      rw [spdSchedRunall, hhead, ok_bind]
      dsimp only
      rw [hread, ok_bind]
      have hrun' : Run.run step { s with
          con := { s.con with schedulerq := rest, schedsnt := s.con.schedsnt - 1 }
          running := cur :: s.running
          calls := s.calls ++ [(s.con.entry cur).id] } r.body = .ok s2 := hrun
      rw [hrun', ok_bind, hstep, ok_bind, hloop, ok_bind, List.length_cons, ← ofNat_succ]

end Rounds

/-- Deletions may be made at any time. -/
theorem legal_of_del (os : List Op) (h : ∀ o ∈ os, ∃ id, o = .del id) (s : St) :
    Run.Legal step Enabled s os := by
  induction os generalizing s with
  | nil => trivial
  | cons o os ih =>
    refine ⟨?_, fun s' _ => ih (fun o ho => h o (List.mem_cons_of_mem _ ho)) s'⟩
    rcases h o List.mem_cons_self with ⟨id, rfl⟩
    trivial

@[inherit_doc legal_of_del]
theorem roundsLegal_of_del (rounds : List Round) (h : ∀ r ∈ rounds, ∀ o ∈ r.body, ∃ id, o = .del id)
    (s : St) : RoundsLegal rounds s := by
  induction rounds generalizing s with
  | nil => trivial
  | cons r rounds ih =>
    have hr := h r List.mem_cons_self
    intro cur con e _ _
    refine ⟨?_, legal_of_del r.body hr _, fun _ s3 _ _ =>
      ih (fun r hr => h r (List.mem_cons_of_mem _ hr)) s3⟩
    intro o ho
    rcases hr o ho with ⟨id, rfl⟩
    rfl

/-- No event is called more often than it can be paid for. -/
theorem Served.count_le {s s' : St} {t0 t1 : Int} {later : List Int32}
    (hserved : Served t0 t1 s s' later) (h : Inv s) (h' : Inv s') (hle : t0 ≤ t1) (id : Int32) :
    later.count id ≤ 2 + ticks t0 t1 := by
  have hpaid := hserved.paid (· == id)
  have hcost := cost_le (p := (· == id)) hle s.events
  have hids : (s.events.countP fun e => e.id == id) = (s.con.schedulerq.map s.idOf).count id := by
    rw [St.events, List.countP_map, List.count, List.countP_map]
    rfl
  have hnodup := List.Nodup.of_append_left h.nodup
  rw [List.map_append] at hnodup
  have hone := List.nodup_iff_count_le_one.mp (List.Nodup.of_append_left hnodup) id
  have hone' : s'.added.countP (· == id) ≤ 1 := List.nodup_iff_count_le_one.mp h'.distinct id
  have hticks := Nat.mul_le_mul_left (ticks t0 t1) hone'
  rw [hids] at hcost
  show later.countP (· == id) ≤ _
  by_cases hmem : id ∈ s.added
  · have hold : s.added.countP (· == id) = 1 := List.count_eq_one_of_mem h.distinct hmem
    have hcount := Nat.mul_le_mul_right (2 + ticks t0 t1) hone
    rw [hold] at hpaid
    omega
  · have hnone : (s.con.schedulerq.map s.idOf).count id = 0 := by
      apply List.count_eq_zero_of_not_mem
      intro hqueued
      apply hmem
      apply h.settled.mem_iff.mp
      rw [List.map_append]
      exact List.mem_append_left _ (List.mem_append_left _ hqueued)
    rw [hnone] at hcost
    omega

/-- A call during which the clock reads from `t0` to `t1` returns, after two rounds for each event in
    the queue and one more for each millisecond and each event in it or added by a callback. No event
    is called more often than that; what was due is called, unless it is deleted, and nothing that
    is left was due when the call began. -/
theorem spdSchedRunall_returns (os : List Op) (rounds : List Round) (s : St)
    (hl : Run.Legal step Enabled start os) (hrun : Run.run step start os = .ok s)
    (hrounds : RoundsLegal rounds s) (t0 t1 : Int) (h0 : 0 ≤ t0) (hle : t0 ≤ t1)
    (hclock : ∀ r ∈ rounds, r.Within t0 t1) (hadds : adds os + bodyAdds rounds < 2 ^ 31)
    (henough : s.con.schedulerq.length * (2 + ticks t0 t1) + ticks t0 t1 * bodyAdds rounds <
      rounds.length) :
    ∃ s' later, spdSchedRunall rounds s = .ok (Int32.ofNat later.length, s') ∧
      s'.calls = s.calls ++ later ∧ (∀ id, later.count id ≤ 2 + ticks t0 t1) ∧
      (∀ a ∈ s.con.schedulerq, s.con.due a < t0 + 1000 →
        s.idOf a ∈ later ∨ s.idOf a ∈ s'.deleted) ∧
      ∀ a ∈ s'.con.schedulerq, t0 + 1000 ≤ s'.con.due a := by
  rcases run_advances os inv_start hl (by show 0 + _ < _; omega) with ⟨s1, hrun1, hs1⟩
  obtain rfl := Outcome.ok.inj (hrun.symm.trans hrun1)
  have hadded : s.added.length ≤ adds os := by
    have hle := hs1.added
    have hzero : start.added.length = 0 := rfl
    omega
  have hintervals := run_intervals os inv_start intervals_start hl (by show 0 + _ < _; omega) hrun
  have hcost := cost_le (p := fun _ => true) hle s.events
  rw [List.countP_true, St.events, List.length_map] at hcost
  rcases runall_served rounds hs1.inv hintervals h0 hle hclock hrounds (by omega)
    (lt_of_le_of_lt (Nat.add_le_add_right hcost _) henough) with
      ⟨s', later, hloop, h', hserved, hlast⟩
  refine ⟨s', later, hloop, hserved.calls, hserved.count_le hs1.inv h' hle, ?_, hlast⟩
  · intro a ha hdue
    rcases hserved.events (s.event a) (List.mem_map_of_mem ha) with hqueued | hdeleted | hcalled
    · rcases List.mem_map.mp hqueued with ⟨b, hb, heq⟩
      have hsame : s'.con.due b = s.con.due a := congrArg Event.due heq
      have hafter := hlast b hb
      omega
    · exact Or.inr hdeleted
    · exact Or.inl hcalled

/-- Two events are due, and both are wanted again; the callback of the first deletes the second. -/
def bothDue (now : Clock) : List Op := [.add 10 1 0 0 (some 1) now, .add 20 2 0 0 (some 2) now]

@[inherit_doc bothDue]
def bothDueRounds (now : Clock) : List Round :=
  ⟨now, [.del 2], 1, now⟩ :: List.replicate 4 ⟨now, [], 1, now⟩

theorem spdSchedRunall_returns_bothDue :
    ∃ s s' later, Run.run step start (bothDue (clockAt 0)) = .ok s ∧
      spdSchedRunall (bothDueRounds (clockAt 30)) s = .ok (Int32.ofNat later.length, s') ∧
      s'.calls = s.calls ++ later ∧ (∀ id, later.count id ≤ 2 + ticks 5030000 5030000) ∧
      (∀ a ∈ s.con.schedulerq, s.con.due a < 5030000 + 1000 →
        s.idOf a ∈ later ∨ s.idOf a ∈ s'.deleted) ∧
      ∀ a ∈ s'.con.schedulerq, 5030000 + 1000 ≤ s'.con.due a := by
  rcases exists_of_run (m := Run.run step start (bothDue (clockAt 0)))
    (Q := fun s => s.con.schedulerq.length = 2) (by decide +kernel) with ⟨s, hrun, hlength⟩
  have hlegal : RoundsLegal (bothDueRounds (clockAt 30)) s := by
    apply roundsLegal_of_del
    intro r hr o ho
    rcases List.mem_cons.mp hr with rfl | hr
    · exact ⟨2, List.mem_singleton.mp ho⟩
    · rw [List.eq_of_mem_replicate hr] at ho
      exact absurd ho List.not_mem_nil
  have hclock : ∀ r ∈ bothDueRounds (clockAt 30), r.Within 5030000 5030000 := by
    intro r hr
    rcases List.mem_cons.mp hr with rfl | hr
    · refine ⟨by decide, ?_, by decide⟩
      intro o ho
      rw [List.mem_singleton.mp ho]
      trivial
    · rw [List.eq_of_mem_replicate hr]
      exact ⟨by decide, fun o ho => absurd ho List.not_mem_nil, by decide⟩
  rcases spdSchedRunall_returns (bothDue (clockAt 0)) (bothDueRounds (clockAt 30)) s
    (by decide +kernel) hrun hlegal 5030000 5030000 (by decide) (by decide) hclock (by decide)
    (by rw [hlength]; decide) with ⟨s', later, hloop⟩
  exact ⟨s, s', later, hrun, hloop⟩

end Spider.Sched
