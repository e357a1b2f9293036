import Spider.Lib.Run
import Spider.Lib.CInt
import Mathlib.Data.List.Nodup
import Mathlib.Logic.Basic

/-!
# The thread of a task queue

Any number of threads push tasks, one thread executes them, and one call of
`tps_taskqueue_destroy` ends it. What happens between `spd_mutex_lock` and
`spd_mutex_unlock` is one step, and a wait on the condition ends one and begins
another. `tps_queue_size` counts blocks in memory, so that it does not overflow a
`long`; the `int` that the thread keeps of it may.
-/

namespace Spider.TaskQueue.Worker

open Lib Outcome

/-- `struct tps_task`. The number of the push is not in it; it tells tasks apart. -/
structure TpsTask where
  number : Nat
  execute : Nat
  data : Nat
  deriving DecidableEq, Repr

/-- `struct spd_taskqueue_stats`. -/
structure Stats where
  maxQsize : UInt64 := 0
  taskProcessedCount : UInt64 := 0
  deriving DecidableEq, Repr

/-- The next statement of `tps_work_thread` (`taskqueue.c:124-179`), with its variables. -/
inductive Place where
  /-- The test of the loop. -/
  | loop
  /-- The critical section with the depth. -/
  | check
  /-- In `spd_cond_wait`, with or without a signal. -/
  | wait (size : Int32) (signalled : Bool)
  /-- The first `tps_taskqueue_pop`. -/
  | pop (size : Int32)
  | execute (size : Int32) (task : TpsTask)
  /-- The critical section with the statistics. -/
  | stats (size : Int32) (task : TpsTask)
  | free (task : TpsTask)
  /-- The `tps_taskqueue_pop` of the last loop. -/
  | drain
  /-- The `tps_task_free` of the last loop. -/
  | drop (task : TpsTask)
  | exited
  deriving DecidableEq, Repr

/-- The next statement of `tps_taskqueue_destroy` (`taskqueue.c:193-216`). -/
inductive DestroyPlace where
  /-- The critical section with the signal. -/
  | signal
  /-- `pthread_join`. -/
  | join
  | returned
  deriving DecidableEq, Repr

/-- A queue with its two threads, and what has been done with its tasks so far. -/
structure St where
  pollThreadRun : UInt8
  stats : Option Stats
  tpsQueueSize : Int
  tpsQueue : List TpsTask
  place : Place
  destroy : DestroyPlace
  /-- The tasks of the pushes that returned 0. -/
  pushed : List TpsTask
  /-- The tasks whose `execute` has been called. -/
  executed : List TpsTask
  /-- The tasks given to `tps_task_free`. -/
  freed : List TpsTask
  /-- The tasks pushed when the thread had ended. -/
  late : List TpsTask
  deriving DecidableEq, Repr

inductive Op where
  /-- `spd_taskqueue_push`, and whether its allocation succeeds. -/
  | push (taskExe : Option Nat) (data : Nat) (alloc : Bool)
  /-- The thread performs its next statement. -/
  | thread
  /-- `spd_cond_wait` returns without a signal. -/
  | spurious
  /-- `tps_taskqueue_destroy` performs its next statement. -/
  | destroy
  deriving DecidableEq, Repr

/-- `spd_cond_signal`: without a waiting thread the signal is lost. -/
def spdCondSignal : Place → Place
  | .wait size _ => .wait size true
  | p => p

/-- `spd_taskqueue_push` (`taskqueue.c:341-362`), with what it returns. -/
def spdTaskqueuePush (s : St) (taskExe : Option Nat) (data : Nat) (alloc : Bool) :
    Outcome (Int × St) :=
  match taskExe with
  | none => .ok (-1, s)
  | some exe =>
    if alloc then
      -- the lock is destroyed with the queue
      if s.destroy = .returned then .fault
      else
        let task : TpsTask := ⟨s.pushed.length, exe, data⟩
        .ok (0, { s with
          tpsQueue := s.tpsQueue ++ [task]
          tpsQueueSize := s.tpsQueueSize + 1
          place := spdCondSignal s.place
          pushed := s.pushed ++ [task]
          late := if s.place = .exited then s.late ++ [task] else s.late })
    else .ok (-1, s)

/-- `tps_taskqueue_pop` (`taskqueue.c:220-236`). -/
def tpsTaskqueuePop (s : St) : Option TpsTask × St :=
  match s.tpsQueue with
  | [] => (none, s)
  | task :: rest =>
    (some task, { s with tpsQueue := rest, tpsQueueSize := s.tpsQueueSize - 1 })

/-- `tps_taskqueue_depth` (`taskqueue.c:238-246`). -/
def tpsTaskqueueDepth (s : St) : Int32 := Int32.ofInt s.tpsQueueSize

/-- The statistics behind a task; `size` is compared as an `unsigned long`. -/
def Stats.count (stats : Stats) (size : Int32) : Stats where
  taskProcessedCount := stats.taskProcessedCount + 1
  maxQsize := if size.toInt64.toUInt64 > stats.maxQsize then size.toInt64.toUInt64
    else stats.maxQsize

/-- The end of `spd_cond_wait`, for whatever reason. -/
def wake (s : St) (size : Int32) : St :=
  if s.pollThreadRun = 0 then { s with place := .drain } else { s with place := .pop size }

/-- A statement of `tps_work_thread`. -/
def thread (s : St) : St :=
  match s.place with
  | .loop => if s.pollThreadRun = 0 then { s with place := .drain } else { s with place := .check }
  | .check =>
    if s.pollThreadRun = 0 then { s with place := .drain }
    else
      let size := tpsTaskqueueDepth s
      if size = 0 then { s with place := .wait size false } else { s with place := .pop size }
  | .wait size _ => wake s size
  | .pop size =>
    match tpsTaskqueuePop s with
    | (none, s) => { s with place := .loop }
    | (some task, s) => { s with place := .execute size task }
  | .execute size task => { s with executed := s.executed ++ [task], place := .stats size task }
  | .stats size task =>
    { s with stats := s.stats.map fun stats => stats.count size, place := .free task }
  | .free task => { s with freed := s.freed ++ [task], place := .loop }
  | .drain =>
    match tpsTaskqueuePop s with
    | (none, s) => { s with place := .exited }
    | (some task, s) => { s with place := .drop task }
  | .drop task => { s with freed := s.freed ++ [task], place := .drain }
  | .exited => s

/-- A statement of `tps_taskqueue_destroy`. -/
def destroy (s : St) : St :=
  match s.destroy with
  | .signal => { s with pollThreadRun := 0, place := spdCondSignal s.place, destroy := .join }
  | .join => { s with stats := none, destroy := .returned }
  | .returned => s

def step (s : St) : Op → Outcome St
  | .push taskExe data alloc => do
    let (_, s) ← spdTaskqueuePush s taskExe data alloc
    .ok s
  | .thread => .ok (thread s)
  | .spurious =>
    match s.place with
    | .wait size _ => .ok (wake s size)
    | _ => .ok s
  | .destroy => .ok (destroy s)

/-- The thread waits without a signal. -/
def Place.blocked : Place → Bool
  | .wait _ signalled => !signalled
  | _ => false

/-- In the wait the thread needs a signal, and the join needs the thread to have ended. -/
def Enabled (s : St) : Op → Prop
  | .push _ _ _ => True
  | .thread => s.place.blocked = false
  | .spurious => s.place.blocked = true
  | .destroy => s.destroy = .signal ∨ s.destroy = .join ∧ s.place = .exited

instance : (s : St) → (o : Op) → Decidable (Enabled s o)
  | _, .push _ _ _ => inferInstanceAs (Decidable True)
  | s, .thread => inferInstanceAs (Decidable (s.place.blocked = false))
  | s, .spurious => inferInstanceAs (Decidable (s.place.blocked = true))
  | s, .destroy =>
    inferInstanceAs (Decidable (s.destroy = .signal ∨ s.destroy = .join ∧ s.place = .exited))

/-- `spd_taskqueue_get` has just created the thread (`taskqueue.c:305-308`). -/
def start : St where
  pollThreadRun := -1
  stats := some {}
  tpsQueueSize := 0
  tpsQueue := []
  place := .loop
  destroy := .signal
  pushed := []
  executed := []
  freed := []
  late := []

/-! ## The order of the tasks -/

/-- The task between the queue and its `tps_task_free`. -/
def Place.task : Place → List TpsTask
  | .execute _ task | .stats _ task | .free task | .drop task => [task]
  | _ => []

/-- The task that has been executed and not been freed. -/
def Place.called : Place → List TpsTask
  | .stats _ task | .free task => [task]
  | _ => []

/-- The thread is in its last loop, or has ended. -/
def Place.last : Place → Bool
  | .drain | .drop _ | .exited => true
  | _ => false

/-- The tasks are freed in the order of their pushes, and executed before that until the last
    loop. -/
structure Inv (s : St) : Prop where
  size : s.tpsQueueSize = s.tpsQueue.length
  numbers : s.pushed.map TpsTask.number = List.range s.pushed.length
  order : s.pushed = s.freed ++ s.place.task ++ s.tpsQueue
  executed : s.place.last = false → s.executed = s.freed ++ s.place.called
  last : s.place.last = true → s.executed <+: s.freed
  late : s.late = if s.place = .exited then s.tpsQueue else []
  wait : ∀ size, s.place = .wait size false → s.pollThreadRun ≠ 0 ∧ tpsTaskqueueDepth s = 0

variable {s : St}

theorem inv_start : Inv start where
  size := rfl
  numbers := rfl
  order := rfl
  executed _ := rfl
  last := nofun
  late := rfl
  wait := nofun

theorem Place.called_eq_nil {p : Place} (h : p.task = []) : p.called = [] := by
  cases p with
  | stats size task => exact absurd h (List.cons_ne_nil task [])
  | free task => exact absurd h (List.cons_ne_nil task [])
  | _ => rfl

/-- The thread goes on to another place, without a task. -/
theorem Inv.move (h : Inv s) {p : Place} (hfrom : s.place.task = [] ∧ s.place.last = false)
    (hto : p.task = [] ∧ p ≠ .exited)
    (hwait : ∀ size, p = .wait size false → s.pollThreadRun ≠ 0 ∧ tpsTaskqueueDepth s = 0) :
    Inv { s with place := p } := by
  have horder := h.order
  have hexecuted := h.executed hfrom.2
  rw [hfrom.1] at horder
  rw [Place.called_eq_nil hfrom.1] at hexecuted
  constructor
  case size => exact h.size
  case numbers => exact h.numbers
  case order =>
    show s.pushed = s.freed ++ p.task ++ s.tpsQueue
    rw [hto.1]
    exact horder
  case executed =>
    intro _
    show s.executed = s.freed ++ p.called
    rw [Place.called_eq_nil hto.1]
    exact hexecuted
  case last =>
    intro _
    rw [List.append_nil] at hexecuted
    exact hexecuted ▸ List.prefix_refl _
  case late =>
    have hlate := h.late
    have hnot : s.place ≠ .exited := by
      intro hexited
      rw [hexited] at hfrom
      exact absurd hfrom.2 nofun
    rw [if_neg hnot] at hlate
    exact hlate.trans (if_neg hto.2).symm
  case wait => exact hwait

/-- A task is taken from the queue. -/
theorem Inv.take (h : Inv s) {p : Place} {task : TpsTask} {rest : List TpsTask}
    (hqueue : s.tpsQueue = task :: rest) (hfrom : s.place.task = [] ∧ s.place ≠ .exited)
    (hto : p.task = [task] ∧ p.called = [] ∧ p.last = s.place.last) :
    Inv { s with tpsQueue := rest, tpsQueueSize := s.tpsQueueSize - 1, place := p } := by
  have hnotWait : ∀ size signalled, p ≠ .wait size signalled := by
    intro size signalled hp
    rw [hp] at hto
    exact absurd hto.1 nofun
  have hnotExited : p ≠ .exited := by
    intro hp
    rw [hp] at hto
    exact absurd hto.1 nofun
  constructor
  case size =>
    have hsize := h.size
    rw [hqueue, List.length_cons] at hsize
    show s.tpsQueueSize - 1 = rest.length
    omega
  case numbers => exact h.numbers
  case order =>
    have horder := h.order
    rw [hfrom.1, hqueue, List.append_nil] at horder
    show s.pushed = s.freed ++ p.task ++ rest
    rw [hto.1, List.append_assoc]
    exact horder
  case executed =>
    intro hlast
    have hexecuted := h.executed (hto.2.2.symm.trans hlast)
    rw [Place.called_eq_nil hfrom.1] at hexecuted
    exact hexecuted.trans (congrArg (s.freed ++ ·) hto.2.1.symm)
  case last => exact fun hlast => h.last (hto.2.2.symm.trans hlast)
  case late =>
    have hlate := h.late
    rw [if_neg hfrom.2] at hlate
    exact hlate.trans (if_neg hnotExited).symm
  case wait => exact fun size hp => absurd hp (hnotWait size false)

/-- The task that the thread has is freed. -/
theorem Inv.free (h : Inv s) {p : Place} {task : TpsTask} (hfrom : s.place.task = [task])
    (hcalled : s.place.last = false → s.place.called = [task])
    (hto : p.task = [] ∧ p.last = s.place.last ∧ p ≠ .exited ∧ ∀ size, p ≠ .wait size false) :
    Inv { s with freed := s.freed ++ [task], place := p } := by
  have hnotExited : s.place ≠ .exited := by
    intro hp
    rw [hp] at hfrom
    exact absurd hfrom nofun
  constructor
  case size => exact h.size
  case numbers => exact h.numbers
  case order =>
    have horder := h.order
    rw [hfrom] at horder
    show s.pushed = s.freed ++ [task] ++ p.task ++ s.tpsQueue
    rw [hto.1, List.append_nil]
    exact horder
  case executed =>
    intro hlast
    have hlast' := hto.2.1.symm.trans hlast
    have hexecuted := h.executed hlast'
    show s.executed = s.freed ++ [task] ++ p.called
    rw [Place.called_eq_nil hto.1, List.append_nil, ← hcalled hlast']
    exact hexecuted
  case last =>
    intro hlast
    exact (h.last (hto.2.1.symm.trans hlast)).trans (List.prefix_append _ _)
  case late =>
    have hlate := h.late
    rw [if_neg hnotExited] at hlate
    exact hlate.trans (if_neg hto.2.2.1).symm
  case wait => exact fun size hp => absurd hp (hto.2.2.2 size)

/-- A statement in which the thread keeps its task. -/
theorem Inv.keep (h : Inv s) {p : Place} {executed : List TpsTask} {stats : Option Stats}
    {task : TpsTask} (hfrom : s.place.task = [task] ∧ s.place.last = false)
    (hto : p.task = [task] ∧ p.last = false) (hexecuted : executed = s.freed ++ p.called) :
    Inv { s with executed := executed, stats := stats, place := p } := by
  have hnotExited : s.place ≠ .exited := by
    intro hp
    rw [hp] at hfrom
    exact absurd hfrom.1 nofun
  constructor
  case size => exact h.size
  case numbers => exact h.numbers
  case order =>
    have horder := h.order
    rw [hfrom.1] at horder
    show s.pushed = s.freed ++ p.task ++ s.tpsQueue
    rw [hto.1]
    exact horder
  case executed => exact fun _ => hexecuted
  case last => exact fun hlast => absurd (hto.2.symm.trans hlast) nofun
  case late =>
    have hlate := h.late
    have hp : p ≠ .exited := by
      intro hp
      rw [hp] at hto
      exact absurd hto.1 nofun
    rw [if_neg hnotExited] at hlate
    exact hlate.trans (if_neg hp).symm
  case wait =>
    intro size hp
    have hp : p = .wait size false := hp
    rw [hp] at hto
    exact absurd hto.1 nofun

/-- The thread ends when it finds the queue empty. -/
theorem Inv.exit (h : Inv s) (hfrom : s.place.task = [] ∧ s.place.last = true)
    (hqueue : s.tpsQueue = []) : Inv { s with place := .exited } where
  size := h.size
  numbers := h.numbers
  order := by
    have horder := h.order
    rw [hfrom.1] at horder
    exact horder
  executed := nofun
  last _ := h.last hfrom.2
  late := by
    have hlate := h.late
    rw [hqueue, ite_self] at hlate
    show s.late = if Place.exited = .exited then s.tpsQueue else []
    rw [hqueue]
    exact hlate
  wait := nofun

theorem wake_inv (h : Inv s) {size : Int32} {signalled : Bool}
    (hplace : s.place = .wait size signalled) : Inv (wake s size) := by
  have hfrom : s.place.task = [] ∧ s.place.last = false := by
    rw [hplace]
    exact ⟨rfl, rfl⟩
  unfold wake
  split
  · exact h.move hfrom ⟨rfl, nofun⟩ nofun
  · exact h.move hfrom ⟨rfl, nofun⟩ nofun

theorem thread_inv (h : Inv s) : Inv (thread s) := by
  unfold thread
  split
  next hplace =>
    have hfrom : s.place.task = [] ∧ s.place.last = false := by
      rw [hplace]
      exact ⟨rfl, rfl⟩
    split
    · exact h.move hfrom ⟨rfl, nofun⟩ nofun
    · exact h.move hfrom ⟨rfl, nofun⟩ nofun
  next hplace =>
    have hfrom : s.place.task = [] ∧ s.place.last = false := by
      rw [hplace]
      exact ⟨rfl, rfl⟩
    split
    · exact h.move hfrom ⟨rfl, nofun⟩ nofun
    next hrun =>
      dsimp only
      split
      next hsize => exact h.move hfrom ⟨rfl, nofun⟩ fun _ _ => ⟨hrun, hsize⟩
      next => exact h.move hfrom ⟨rfl, nofun⟩ nofun
  next hplace => exact wake_inv h hplace
  next hplace =>
    have hfrom : s.place.task = [] ∧ s.place.last = false := by
      rw [hplace]
      exact ⟨rfl, rfl⟩
    unfold tpsTaskqueuePop
    cases hqueue : s.tpsQueue with
    | nil => exact h.move hfrom ⟨rfl, nofun⟩ nofun
    | cons task rest =>
      have hnot : s.place ≠ .exited := hplace ▸ nofun
      exact h.take hqueue ⟨hfrom.1, hnot⟩ ⟨rfl, rfl, hfrom.2.symm⟩
  next size task hplace =>
    have hfrom : s.place.task = [task] ∧ s.place.last = false := by
      rw [hplace]
      exact ⟨rfl, rfl⟩
    have hexecuted := h.executed hfrom.2
    have hcalled : s.place.called = [] := by
      rw [hplace]
      rfl
    rw [hcalled, List.append_nil] at hexecuted
    exact h.keep hfrom ⟨rfl, rfl⟩ (congrArg (· ++ [task]) hexecuted)
  next size task hplace =>
    have hfrom : s.place.task = [task] ∧ s.place.last = false := by
      rw [hplace]
      exact ⟨rfl, rfl⟩
    have hexecuted := h.executed hfrom.2
    rw [hplace] at hexecuted
    exact h.keep hfrom ⟨rfl, rfl⟩ hexecuted
  next task hplace =>
    have hfrom : s.place.task = [task] ∧ s.place.called = [task] ∧ s.place.last = false := by
      rw [hplace]
      exact ⟨rfl, rfl, rfl⟩
    exact h.free hfrom.1 (fun _ => hfrom.2.1) ⟨rfl, hfrom.2.2.symm, nofun, nofun⟩
  next hplace =>
    have hfrom : s.place.task = [] ∧ s.place.last = true := by
      rw [hplace]
      exact ⟨rfl, rfl⟩
    unfold tpsTaskqueuePop
    cases hqueue : s.tpsQueue with
    | nil => exact h.exit hfrom hqueue
    | cons task rest =>
      have hnot : s.place ≠ .exited := hplace ▸ nofun
      exact h.take hqueue ⟨hfrom.1, hnot⟩ ⟨rfl, rfl, hfrom.2.symm⟩
  next task hplace =>
    have hfrom : s.place.task = [task] ∧ s.place.last = true := by
      rw [hplace]
      exact ⟨rfl, rfl⟩
    have hcalled : s.place.last = false → s.place.called = [task] := by
      intro hlast
      exact absurd (hfrom.2.symm.trans hlast) nofun
    exact h.free hfrom.1 hcalled ⟨rfl, hfrom.2.symm, nofun, nofun⟩
  next => exact h

theorem spdCondSignal_task (p : Place) : (spdCondSignal p).task = p.task ∧
    (spdCondSignal p).called = p.called ∧ (spdCondSignal p).last = p.last ∧
    (spdCondSignal p = .exited ↔ p = .exited) ∧ ∀ size, spdCondSignal p ≠ .wait size false := by
  cases p with
  | wait size signalled =>
    refine ⟨rfl, rfl, rfl, ⟨nofun, nofun⟩, ?_⟩
    intro size' heq
    cases heq
  | _ => exact ⟨rfl, rfl, rfl, Iff.rfl, nofun⟩

theorem push_inv (h : Inv s) {taskExe : Option Nat} {data : Nat} {alloc : Bool} {r : Int} {s' : St}
    (hpush : spdTaskqueuePush s taskExe data alloc = .ok (r, s')) : Inv s' := by
  unfold spdTaskqueuePush at hpush
  split at hpush
  next =>
    cases hpush
    exact h
  next exe =>
    split at hpush
    next =>
      split at hpush
      next => exact absurd hpush nofun
      next =>
        cases hpush
        rcases spdCondSignal_task s.place with ⟨htask, hcalled, hlast, hexited, hwait⟩
        constructor
        case size =>
          show s.tpsQueueSize + 1 = ((s.tpsQueue ++ [_]).length : Int)
          rw [h.size, List.length_append, List.length_singleton]
          rfl
        case numbers =>
          show (s.pushed ++ [_]).map TpsTask.number = List.range (s.pushed ++ [_]).length
          rw [List.map_append, h.numbers, List.length_append, List.length_singleton,
            List.range_succ]
          rfl
        case order =>
          show s.pushed ++ [_] = s.freed ++ (spdCondSignal s.place).task ++ (s.tpsQueue ++ [_])
          rw [htask, ← List.append_assoc, ← h.order]
        case executed =>
          intro hnot
          show s.executed = s.freed ++ (spdCondSignal s.place).called
          rw [hcalled]
          exact h.executed (hlast.symm.trans hnot)
        case last => exact fun hyes => h.last (hlast.symm.trans hyes)
        case late =>
          have hlate := h.late
          dsimp only
          by_cases hplace : s.place = .exited
          · rw [if_pos hplace] at hlate
            rw [if_pos hplace, if_pos (hexited.mpr hplace), hlate]
          · rw [if_neg hplace] at hlate
            rw [if_neg hplace, if_neg (mt hexited.mp hplace), hlate]
        case wait => exact fun size hp => absurd hp (hwait size)
    next =>
      cases hpush
      exact h

theorem destroy_inv (h : Inv s) : Inv (destroy s) := by
  unfold destroy
  split
  next =>
    rcases spdCondSignal_task s.place with ⟨htask, hcalled, hlast, hexited, hwait⟩
    constructor
    case size => exact h.size
    case numbers => exact h.numbers
    case order =>
      show s.pushed = s.freed ++ (spdCondSignal s.place).task ++ s.tpsQueue
      rw [htask]
      exact h.order
    case executed =>
      intro hnot
      show s.executed = s.freed ++ (spdCondSignal s.place).called
      rw [hcalled]
      exact h.executed (hlast.symm.trans hnot)
    case last => exact fun hyes => h.last (hlast.symm.trans hyes)
    case late => exact h.late.trans (if_congr hexited.symm rfl rfl)
    case wait => exact fun size hp => absurd hp (hwait size)
  next => exact ⟨h.size, h.numbers, h.order, h.executed, h.last, h.late, h.wait⟩
  next => exact h

theorem step_inv (h : Inv s) {o : Op} {s' : St} (hstep : step s o = .ok s') : Inv s' := by
  cases o with
  | push taskExe data alloc =>
    rcases bind_eq_ok.mp hstep with ⟨⟨r, s1⟩, hpush, hstep⟩
    cases hstep
    exact push_inv h hpush
  | thread =>
    cases hstep
    exact thread_inv h
  | spurious =>
    unfold step at hstep
    dsimp only at hstep
    split at hstep
    next hplace =>
      cases hstep
      exact wake_inv h hplace
    next =>
      cases hstep
      exact h
  | destroy =>
    cases hstep
    exact destroy_inv h

/-- What holds in every state. -/
structure Ordered (s : St) : Prop where
  size : s.tpsQueueSize = s.tpsQueue.length
  fifo : s.executed <+: s.pushed
  once : s.pushed.Nodup ∧ s.executed.Nodup
  exited : s.place = .exited → ∀ task ∈ s.pushed, task ∉ s.late → s.freed.count task = 1 ∧
    Xor (s.executed.count task = 1) (task ∈ s.freed ∧ task ∉ s.executed)
  awake : ¬ Enabled s .thread → s.pollThreadRun ≠ 0 ∧ 2 ^ 32 ∣ s.tpsQueue.length

theorem Inv.nodup (h : Inv s) : s.pushed.Nodup := by
  have hnumbers : (s.pushed.map TpsTask.number).Nodup := by
    rw [h.numbers]
    exact List.nodup_range
  exact List.Nodup.of_map _ hnumbers

theorem Inv.executed_prefix (h : Inv s) : s.executed <+: s.pushed := by
  rw [h.order, List.append_assoc]
  cases hlast : s.place.last with
  | true => exact (h.last hlast).trans (List.prefix_append _ _)
  | false =>
    have hcalled : s.place.called <+: s.place.task := by
      cases s.place with
      | stats size task => exact List.prefix_refl _
      | free task => exact List.prefix_refl _
      | _ => exact List.nil_prefix
    rw [h.executed hlast]
    exact (List.prefix_append_right_inj _).mpr (hcalled.trans (List.prefix_append _ _))

/-- The depth is taken for 0 when the `int` overflows to that. -/
theorem tpsTaskqueueDepth_eq_zero (h : s.tpsQueueSize = s.tpsQueue.length) :
    tpsTaskqueueDepth s = 0 ↔ 2 ^ 32 ∣ s.tpsQueue.length := by
  rw [tpsTaskqueueDepth, h, CInt.ofInt_eq_zero]
  exact Int.natCast_dvd_natCast

theorem Inv.ordered (h : Inv s) : Ordered s where
  size := h.size
  fifo := h.executed_prefix
  once := ⟨h.nodup, h.nodup.sublist h.executed_prefix.sublist⟩
  exited := by
    intro hplace task htask hlate
    have horder := h.order
    have hqueue := h.late
    rw [if_pos hplace] at hqueue
    rw [hplace, ← hqueue] at horder
    have hfreed : task ∈ s.freed := by
      rw [horder] at htask
      rcases List.mem_append.mp htask with htask | htask
      · rcases List.mem_append.mp htask with htask | htask
        · exact htask
        · exact absurd htask List.not_mem_nil
      · exact absurd htask hlate
    have hnodup := h.nodup
    have hfreedNodup : s.freed.Nodup := by
      rw [horder, List.append_assoc] at hnodup
      exact hnodup.sublist (List.sublist_append_left _ _)
    have hexecutedNodup := hnodup.sublist h.executed_prefix.sublist
    constructor
    · exact List.count_eq_one_of_mem hfreedNodup hfreed
    · by_cases hexecuted : task ∈ s.executed
      · exact Or.inl ⟨List.count_eq_one_of_mem hexecutedNodup hexecuted, fun hno => hno.2 hexecuted⟩
      · refine Or.inr ⟨⟨hfreed, hexecuted⟩, ?_⟩
        rw [List.count_eq_zero_of_not_mem hexecuted]
        exact Nat.zero_ne_one
  awake := by
    intro hblocked
    cases hplace : s.place with
    | wait size signalled =>
      cases signalled with
      | false =>
        rcases h.wait size hplace with ⟨hrun, hdepth⟩
        exact ⟨hrun, (tpsTaskqueueDepth_eq_zero h.size).mp hdepth⟩
      | true =>
        rw [Enabled, hplace] at hblocked
        exact absurd rfl hblocked
    | _ =>
      rw [Enabled, hplace] at hblocked
      exact absurd rfl hblocked

theorem run_inv (ops : List Op) (h : Inv s) {s' : St} (hrun : Run.run step s ops = .ok s') :
    Inv s' := by
  induction ops generalizing s with
  | nil =>
    cases hrun
    exact h
  | cons o ops ih =>
    rcases bind_eq_ok.mp hrun with ⟨s1, hstep, hrun⟩
    exact ih (step_inv h hstep) hrun

/-- In every interleaving the tasks run in the order of their pushes and at most once, each that
    is not pushed too late ends executed or freed, and the thread does not sleep on a queue whose
    length it can see. -/
theorem taskqueue_ordered (ops : List Op) (hrun : Run.run step start ops = .ok s) : Ordered s :=
  (run_inv ops inv_start hrun).ordered

/-- Two tasks, one of them left for the last loop. -/
theorem taskqueue_ordered_two : ∃ s, Ordered s ∧ s.executed = [⟨0, 5, 1⟩] ∧
    s.freed = [⟨0, 5, 1⟩, ⟨1, 6, 2⟩] ∧ s.destroy = .returned := by
  have hrun : ∃ s, Run.run step start [.push (some 5) 1 true, .push (some 6) 2 true, .thread,
      .thread, .thread, .destroy, .thread, .thread, .thread, .thread, .thread, .thread, .thread,
      .destroy] = .ok s ∧ s.executed = [⟨0, 5, 1⟩] ∧ s.freed = [⟨0, 5, 1⟩, ⟨1, 6, 2⟩] ∧
      s.destroy = .returned := ⟨_, rfl, rfl, rfl, rfl⟩
  rcases hrun with ⟨s, hrun, hend⟩
  exact ⟨s, taskqueue_ordered _ hrun, hend⟩

/-- The queue behind `n` pushes of one task before the thread has done anything. -/
def pushedOnly (n : Nat) : St :=
  { start with
    tpsQueueSize := n
    tpsQueue := (List.range n).map fun i => ⟨i, 0, 0⟩
    pushed := (List.range n).map fun i => ⟨i, 0, 0⟩ }

theorem run_pushes (n : Nat) :
    Run.run step start (List.replicate n (.push (some 0) 0 true)) = .ok (pushedOnly n) ∧
      Run.Legal step Enabled start (List.replicate n (.push (some 0) 0 true)) := by
  induction n with
  | zero => exact ⟨rfl, trivial⟩
  | succ n ih =>
    have hstep : step (pushedOnly n) (.push (some 0) 0 true) = .ok (pushedOnly (n + 1)) := by
      simp [step, spdTaskqueuePush, pushedOnly, start, spdCondSignal, List.range_succ]
    rw [List.replicate_succ']
    constructor
    · rw [Run.run_append, ih.1]
      exact Run.run_cons_of_ok hstep []
    · refine Run.legal_append_iff.mpr ⟨ih.2, fun s _ => ?_⟩
      exact ⟨trivial, fun _ _ => trivial⟩

/-- The thread then waits when it cuts the depth off to 0. -/
theorem run_waits {n : Nat} (hn : 2 ^ 32 ∣ n) : ∃ ops, Run.Legal step Enabled start ops ∧
    Run.run step start ops = .ok { pushedOnly n with place := .wait 0 false } := by
  have hrun0 : ¬ (pushedOnly n).pollThreadRun = 0 := by
    show ¬ (-1 : UInt8) = 0
    decide
  have hloop : thread (pushedOnly n) = { pushedOnly n with place := .check } := by
    rw [thread]
    exact if_neg hrun0
  have hdepth : tpsTaskqueueDepth { pushedOnly n with place := .check } = 0 :=
    CInt.ofInt_eq_zero.mpr (Int.natCast_dvd_natCast.mpr hn)
  have hcheck : thread { pushedOnly n with place := .check } =
      { pushedOnly n with place := .wait 0 false } := by
    rw [thread]
    dsimp only
    rw [if_neg hrun0, hdepth, if_pos rfl]
  have hstep1 : step (pushedOnly n) .thread = .ok { pushedOnly n with place := .check } :=
    congrArg Outcome.ok hloop
  have hstep2 : step { pushedOnly n with place := .check } .thread =
      .ok { pushedOnly n with place := .wait 0 false } := congrArg Outcome.ok hcheck
  have henabled1 : Enabled (pushedOnly n) .thread := rfl
  have henabled2 : Enabled { pushedOnly n with place := .check } .thread := rfl
  rcases run_pushes n with ⟨hrun, hlegal⟩
  refine ⟨List.replicate n (.push (some 0) 0 true) ++ [.thread, .thread], ?_, ?_⟩
  · apply Run.legal_append_iff.mpr
    refine ⟨hlegal, fun s hs => ?_⟩
    cases hrun.symm.trans hs
    apply Run.legal_cons_of_ok hstep1 henabled1
    exact Run.legal_cons_of_ok hstep2 henabled2 trivial
  · rw [Run.run_append, hrun, ok_bind, Run.run_cons_of_ok hstep1, Run.run_cons_of_ok hstep2]
    rfl

/-- A task pushed when the thread has ended is neither executed nor freed, and a queue of 2^32
    tasks looks empty to the thread. -/
theorem taskqueue_limits :
    (∃ ops s task, Run.Legal step Enabled start ops ∧ Run.run step start ops = .ok s ∧
      s.place = .exited ∧ task ∈ s.pushed ∧ task ∉ s.executed ∧ task ∉ s.freed) ∧
    ∃ ops s, Run.Legal step Enabled start ops ∧ Run.run step start ops = .ok s ∧
      s.place.blocked = true ∧ s.tpsQueue ≠ [] := by
  constructor
  · refine ⟨[.destroy, .thread, .thread, .push (some 0) 0 true], _, ⟨0, 0, 0⟩, ?_, rfl, rfl, ?_⟩
    · decide
    · decide
  · rcases run_waits (Nat.dvd_refl (2 ^ 32)) with ⟨ops, hlegal, hrun⟩
    refine ⟨ops, _, hlegal, hrun, rfl, ?_⟩
    intro hqueue
    have hlength := congrArg List.length hqueue
    simp [pushedOnly] at hlength

end Spider.TaskQueue.Worker
