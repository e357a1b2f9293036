import Spider.TaskQueue.Worker

/-!
# The statistics of a task queue

`tps_work_thread` looks at the depth of the queue in one critical section and
pops the task in another, with a wait between the two when there is none. What
comes in between is not in the depth that it records.
-/

namespace Spider.TaskQueue.Worker

open Lib Outcome

/-- A pop of the main loop: the length of the queue when its depth was looked at, and when the task
    was taken. -/
structure Popped where
  sampled : Nat
  found : Nat
  deriving DecidableEq, Repr

/-- A queue with what has been seen of it: its length when its depth was last looked at, the pops,
    the last one first, and the longest it ever was. -/
structure Watch where
  st : St
  sampled : Nat
  pops : List Popped
  longest : Nat
  deriving DecidableEq, Repr

def Watch.sample (w : Watch) : Op → Nat
  | .thread =>
    match w.st.place with
    | .check => w.st.tpsQueue.length
    | _ => w.sampled
  | _ => w.sampled

def Watch.pop (w : Watch) : Op → List Popped
  | .thread =>
    match w.st.place, w.st.tpsQueue with
    | .pop _, _ :: rest => ⟨w.sampled, rest.length + 1⟩ :: w.pops
    | _, _ => w.pops
  | _ => w.pops

def watch (w : Watch) (o : Op) : Outcome Watch := do
  let st ← step w.st o
  .ok ⟨st, w.sample o, w.pop o, max w.longest st.tpsQueue.length⟩

/-- The queue is not destroyed. -/
def Working (w : Watch) (o : Op) : Prop := Enabled w.st o ∧ o ≠ .destroy

instance (w : Watch) (o : Op) : Decidable (Working w o) :=
  inferInstanceAs (Decidable (_ ∧ _))

/-- `tps_queue_size` is a `long`. -/
def Fits (w : Watch) : Op → Prop
  | .push _ _ _ => w.st.tpsQueue.length + 1 < 2 ^ 63
  | _ => True

instance (w : Watch) : (o : Op) → Decidable (Fits w o)
  | .push _ _ _ => inferInstanceAs (Decidable (_ < _))
  | .thread | .spurious | .destroy => isTrue trivial

def startWatch : Watch := ⟨start, 0, [], 0⟩

/-! ## What is claimed of the statistics -/

/-- A task has been popped and is not in the statistics. -/
def Place.pending : Place → Bool
  | .execute _ _ | .stats _ _ => true
  | _ => false

/-- A task has been executed and is not in the statistics. -/
def Place.uncounted : Place → Bool
  | .stats _ _ => true
  | _ => false

/-- The tasks executed are counted; once all that were popped are, `max_qsize` is between what the
    pops found and the longest the queue ever was. -/
structure Stats.Exact (stats : Stats) (w : Watch) : Prop where
  processed : stats.taskProcessedCount.toNat + w.st.place.uncounted.toNat = w.st.executed.length
  most : w.st.place.pending = false → ∀ p ∈ w.pops, p.found ≤ stats.maxQsize.toNat
  least : w.st.place.pending = false → stats.maxQsize.toNat ≤ w.longest

def StatsExact (w : Watch) : Prop := ∃ stats, w.st.stats = some stats ∧ stats.Exact w

/-- Nothing was pushed between the look at the depth, which fitted an `int`, and the last pop; or
    an earlier pop found as many tasks. -/
def Watch.Seen (w : Watch) : Prop :=
  match w.pops with
  | [] => True
  | p :: earlier =>
    p.sampled = p.found ∧ p.found < 2 ^ 31 ∨ ∃ q ∈ earlier, p.found ≤ q.found

instance (w : Watch) : Decidable w.Seen := by
  unfold Watch.Seen
  split
  · infer_instance
  · infer_instance

/-- A task is put into the statistics without its queue having been seen, or is the 2^64th. -/
def Unseen (w : Watch) (o : Op) : Prop :=
  o = .thread ∧ w.st.place.uncounted = true ∧ ¬ (w.Seen ∧ w.st.executed.length < 2 ^ 64)

instance (w : Watch) (o : Op) : Decidable (Unseen w o) :=
  inferInstanceAs (Decidable (_ ∧ _ ∧ _))

/-! ## The invariant -/

/-- What the thread has in `size`. -/
def Watch.SizeSampled (w : Watch) : Prop :=
  match w.st.place with
  | .loop | .check | .free _ => True
  | .wait size _ | .pop size => size = Int32.ofInt w.sampled ∧ w.sampled ≤ w.st.tpsQueue.length
  | .execute size _ | .stats size _ =>
    ∃ p earlier, w.pops = p :: earlier ∧ size = Int32.ofInt p.sampled
  | .drain | .drop _ | .exited => False

/-- The pops whose tasks are in the statistics. -/
def Watch.accounted (w : Watch) : List Popped :=
  if w.st.place.pending then w.pops.tail else w.pops

structure Stats.Sound (stats : Stats) (w : Watch) : Prop where
  kept : w.st.stats = some stats
  run : w.st.pollThreadRun ≠ 0
  alive : w.st.destroy = .signal
  size : w.st.tpsQueueSize = w.st.tpsQueue.length
  length : w.st.tpsQueue.length ≤ w.longest
  sampled : w.SizeSampled
  processed : stats.taskProcessedCount.toNat + w.st.place.uncounted.toNat = w.st.executed.length
  covers : ∀ p ∈ w.accounted, p.found ≤ stats.maxQsize.toNat
  attained : stats.maxQsize.toNat = 0 ∨ ∃ p ∈ w.accounted, stats.maxQsize.toNat ≤ p.found
  found : ∀ p ∈ w.pops, 0 < p.found ∧ p.sampled ≤ p.found ∧ p.found ≤ w.longest
  small : stats.maxQsize.toNat < 2 ^ 31

theorem sound_start : Stats.Sound {} startWatch where
  kept := rfl
  run := by decide
  alive := rfl
  size := rfl
  length := Nat.le_refl 0
  sampled := trivial
  processed := rfl
  covers _ hp := absurd hp List.not_mem_nil
  attained := Or.inl rfl
  found _ hp := absurd hp List.not_mem_nil
  small := by decide

section Steps

variable {w : Watch} {stats : Stats}

theorem Watch.accounted_subset (w : Watch) : ∀ p ∈ w.accounted, p ∈ w.pops := by
  intro p hp
  unfold accounted at hp
  split at hp
  · exact List.mem_of_mem_tail hp
  · exact hp

theorem Stats.Sound.exact (h : stats.Sound w) : StatsExact w := by
  refine ⟨stats, h.kept, h.processed, ?_, ?_⟩
  · intro hpending p hp
    apply h.covers
    rw [Watch.accounted, hpending]
    exact hp
  · intro _
    rcases h.attained with hzero | ⟨p, hp, hle⟩
    · omega
    · exact Nat.le_trans hle (h.found p (w.accounted_subset p hp)).2.2

theorem Stats.Sound.found_max (h : stats.Sound w) (n : Nat) :
    ∀ p ∈ w.pops, 0 < p.found ∧ p.sampled ≤ p.found ∧ p.found ≤ max w.longest n := by
  intro p hp
  have hfound := h.found p hp
  exact ⟨hfound.1, hfound.2.1, Nat.le_trans hfound.2.2 (Nat.le_max_left _ _)⟩

/-- The thread goes on to another place and the queue stays as it is. -/
theorem Stats.Sound.move (h : stats.Sound w) {w' : Watch} {p : Place} {freed : List TpsTask}
    {sampled : Nat} (hw' : w' = ⟨{ w.st with place := p, freed := freed }, sampled, w.pops,
      max w.longest w.st.tpsQueue.length⟩) {p' : Place} (hplace : w.st.place = p')
    (hsampled : w'.SizeSampled) (hpending : p.pending = p'.pending)
    (huncounted : p.uncounted = p'.uncounted) : stats.Sound w' := by
  subst hw'
  subst hplace
  constructor
  case kept => exact h.kept
  case run => exact h.run
  case alive => exact h.alive
  case size => exact h.size
  case length => exact Nat.le_max_right _ _
  case sampled => exact hsampled
  case processed =>
    show _ + p.uncounted.toNat = _
    rw [huncounted]
    exact h.processed
  case covers =>
    unfold Watch.accounted
    dsimp only
    rw [hpending]
    exact h.covers
  case attained =>
    unfold Watch.accounted
    dsimp only
    rw [hpending]
    exact h.attained
  case found => exact h.found_max _
  case small => exact h.small

/-- A task is pushed. -/
theorem Stats.Sound.push (h : stats.Sound w) (task : TpsTask) (late : List TpsTask) :
    stats.Sound ⟨{ w.st with
      tpsQueue := w.st.tpsQueue ++ [task]
      tpsQueueSize := w.st.tpsQueueSize + 1
      place := spdCondSignal w.st.place
      pushed := w.st.pushed ++ [task]
      late := late }, w.sampled, w.pops, max w.longest (w.st.tpsQueue ++ [task]).length⟩ := by
  have hlen : (w.st.tpsQueue ++ [task]).length = w.st.tpsQueue.length + 1 :=
    List.length_append
  have hsize := h.size
  have hsignal : (spdCondSignal w.st.place).pending = w.st.place.pending ∧
      (spdCondSignal w.st.place).uncounted = w.st.place.uncounted := by
    cases w.st.place <;> exact ⟨rfl, rfl⟩
  constructor
  case kept => exact h.kept
  case run => exact h.run
  case alive => exact h.alive
  case size =>
    dsimp only
    rw [hlen, hsize]
    rfl
  case length => exact Nat.le_max_right _ _
  case sampled =>
    have hsampled := h.sampled
    unfold Watch.SizeSampled at hsampled ⊢
    dsimp only
    rw [hlen]
    -- a signal changes a wait into a wait
    cases hplace : w.st.place with
    | wait size signalled =>
      rw [hplace] at hsampled
      exact ⟨hsampled.1, Nat.le_succ_of_le hsampled.2⟩
    | pop size =>
      rw [hplace] at hsampled
      exact ⟨hsampled.1, Nat.le_succ_of_le hsampled.2⟩
    | _ =>
      rw [hplace] at hsampled
      exact hsampled
  case processed =>
    dsimp only
    rw [hsignal.2]
    exact h.processed
  case covers =>
    unfold Watch.accounted
    dsimp only
    rw [hsignal.1]
    exact h.covers
  case attained =>
    unfold Watch.accounted
    dsimp only
    rw [hsignal.1]
    exact h.attained
  case found => exact h.found_max _
  case small => exact h.small

/-- A task is popped. -/
theorem Stats.Sound.take (h : stats.Sound w) {size : Int32} (hplace : w.st.place = .pop size)
    {task : TpsTask} {rest : List TpsTask} (hqueue : w.st.tpsQueue = task :: rest) :
    stats.Sound ⟨{ w.st with
      tpsQueue := rest
      tpsQueueSize := w.st.tpsQueueSize - 1
      place := .execute size task }, w.sampled, ⟨w.sampled, rest.length + 1⟩ :: w.pops,
      max w.longest rest.length⟩ := by
  have hsampled := h.sampled
  have hsize := h.size
  have hlength := h.length
  have hprocessed := h.processed
  have hcovers := h.covers
  have hattained := h.attained
  unfold Watch.SizeSampled at hsampled
  unfold Watch.accounted at hcovers hattained
  rw [hplace] at hsampled hprocessed hcovers hattained
  rw [hqueue, List.length_cons] at hsampled hsize hlength
  constructor
  case kept => exact h.kept
  case run => exact h.run
  case alive => exact h.alive
  case size =>
    show w.st.tpsQueueSize - 1 = rest.length
    omega
  case length => exact Nat.le_max_right _ _
  case sampled => exact ⟨_, _, rfl, hsampled.1⟩
  case processed => exact hprocessed
  case covers => exact hcovers
  case attained => exact hattained
  case found =>
    intro p hp
    rcases List.mem_cons.mp hp with rfl | hp
    · exact ⟨Nat.succ_pos _, hsampled.2, Nat.le_trans hlength (Nat.le_max_left _ _)⟩
    · exact h.found_max _ p hp
  case small => exact h.small

/-- The task is executed. -/
theorem Stats.Sound.execute (h : stats.Sound w) {size : Int32} {task : TpsTask}
    (hplace : w.st.place = .execute size task) :
    stats.Sound ⟨{ w.st with executed := w.st.executed ++ [task], place := .stats size task },
      w.sampled, w.pops, max w.longest w.st.tpsQueue.length⟩ := by
  have hsampled := h.sampled
  have hprocessed := h.processed
  have hcovers := h.covers
  have hattained := h.attained
  unfold Watch.SizeSampled at hsampled
  unfold Watch.accounted at hcovers hattained
  rw [hplace] at hsampled hprocessed hcovers hattained
  constructor
  case kept => exact h.kept
  case run => exact h.run
  case alive => exact h.alive
  case size => exact h.size
  case length => exact Nat.le_max_right _ _
  case sampled => exact hsampled
  case processed =>
    show stats.taskProcessedCount.toNat + 1 = (w.st.executed ++ [task]).length
    rw [List.length_append, ← hprocessed]
    rfl
  case covers => exact hcovers
  case attained => exact hattained
  case found => exact h.found_max _
  case small => exact h.small

theorem Stats.count_maxQsize (stats : Stats) (size : Int32) : (stats.count size).maxQsize.toNat =
    max stats.maxQsize.toNat size.toInt64.toUInt64.toNat := by
  show (if size.toInt64.toUInt64 > stats.maxQsize then size.toInt64.toUInt64
    else stats.maxQsize).toNat = _
  split
  next hgt =>
    have hlt := UInt64.lt_iff_toNat_lt.mp hgt
    omega
  next hle =>
    have hnot := mt UInt64.lt_iff_toNat_lt.mpr hle
    omega

/-- What is known of the task whose turn it is to be counted. -/
theorem Stats.Sound.counting (h : stats.Sound w) {size : Int32} {task : TpsTask}
    (hplace : w.st.place = .stats size task) : ∃ p earlier, w.pops = p :: earlier ∧
      size = Int32.ofInt p.sampled ∧ w.accounted = earlier ∧
      stats.taskProcessedCount.toNat + 1 = w.st.executed.length := by
  have hsampled := h.sampled
  have hprocessed := h.processed
  unfold Watch.SizeSampled at hsampled
  rw [hplace] at hsampled hprocessed
  rcases hsampled with ⟨p, earlier, hpops, hsize⟩
  refine ⟨p, earlier, hpops, hsize, ?_, hprocessed⟩
  rw [Watch.accounted, hplace, hpops]
  rfl

theorem Watch.seen_iff {p : Popped} {earlier : List Popped} (hpops : w.pops = p :: earlier) :
    w.Seen ↔ p.sampled = p.found ∧ p.found < 2 ^ 31 ∨ ∃ q ∈ earlier, p.found ≤ q.found := by
  rw [Watch.Seen, hpops]

/-- A task whose queue has been seen is counted. -/
theorem Stats.Sound.count (h : stats.Sound w) {size : Int32} {task : TpsTask}
    (hplace : w.st.place = .stats size task) (hseen : w.Seen)
    (hroom : w.st.executed.length < 2 ^ 64) :
    (stats.count size).Sound ⟨{ w.st with stats := some (stats.count size), place := .free task },
      w.sampled, w.pops, max w.longest w.st.tpsQueue.length⟩ := by
  rcases h.counting hplace with ⟨p, earlier, hpops, hsize, haccounted, hprocessed⟩
  have hcovers := h.covers
  have hattained := h.attained
  have hsmall := h.small
  have hmax := stats.count_maxQsize size
  have hp := h.found p (hpops ▸ List.mem_cons_self)
  rw [haccounted] at hcovers hattained
  -- the depth recorded is the one sampled, which is no longer than what was found
  have hfound : p.found < 2 ^ 31 ∧ (p.sampled = p.found ∨ p.found ≤ stats.maxQsize.toNat) := by
    rcases (Watch.seen_iff hpops).mp hseen with ⟨heq, hlt⟩ | ⟨q, hq, hle⟩
    · exact ⟨hlt, Or.inl heq⟩
    · have hq := Nat.le_trans hle (hcovers q hq)
      exact ⟨by omega, Or.inr hq⟩
  have hrecorded : size.toInt64.toUInt64.toNat = p.sampled := by
    rw [hsize]
    exact CInt.toNat_ofInt (by omega)
  rw [hrecorded] at hmax
  constructor
  case kept => rfl
  case run => exact h.run
  case alive => exact h.alive
  case size => exact h.size
  case length => exact Nat.le_max_right _ _
  case sampled => trivial
  case processed =>
    show (stats.taskProcessedCount + 1).toNat + 0 = w.st.executed.length
    have hlt : stats.taskProcessedCount.toNat + 1 < 2 ^ 64 := hprocessed ▸ hroom
    rw [UInt64.toNat_add, ← hprocessed]
    exact Nat.mod_eq_of_lt hlt
  case covers =>
    intro q hq
    have hq : q ∈ w.pops := hq
    rw [hpops] at hq
    rcases List.mem_cons.mp hq with rfl | hq
    · omega
    · have hle := hcovers q hq
      omega
  case attained =>
    show _ ∨ ∃ q ∈ w.pops, _
    rw [hpops]
    by_cases hle : p.sampled ≤ stats.maxQsize.toNat
    · rcases hattained with hzero | ⟨q, hq, hq'⟩
      · exact Or.inl (by omega)
      · exact Or.inr ⟨q, List.mem_cons_of_mem p hq, by omega⟩
    · exact Or.inr ⟨p, List.mem_cons_self, by omega⟩
  case found => exact h.found_max _
  case small => omega

/-- One whose queue has not been seen leaves the statistics wrong. -/
theorem Stats.Sound.not_exact (h : stats.Sound w) (hfits : w.longest < 2 ^ 63) {size : Int32}
    {task : TpsTask} (hplace : w.st.place = .stats size task)
    (hunseen : ¬ (w.Seen ∧ w.st.executed.length < 2 ^ 64)) :
    ¬ StatsExact ⟨{ w.st with stats := some (stats.count size), place := .free task },
      w.sampled, w.pops, max w.longest w.st.tpsQueue.length⟩ := by
  rcases h.counting hplace with ⟨p, earlier, hpops, hsize, haccounted, hprocessed⟩
  have hattained := h.attained
  have hlength := h.length
  have hmax := stats.count_maxQsize size
  have hp := h.found p (hpops ▸ List.mem_cons_self)
  rw [haccounted] at hattained
  rintro ⟨stats', hstats', hexact⟩
  obtain rfl : stats.count size = stats' := Option.some.inj hstats'
  have hroom : w.st.executed.length < 2 ^ 64 := by
    have hcount : (stats.count size).taskProcessedCount.toNat + 0 = w.st.executed.length :=
      hexact.processed
    rw [← hcount]
    exact UInt64.toNat_lt _
  have hmost : p.found ≤ (stats.count size).maxQsize.toNat :=
    hexact.most rfl p (hpops ▸ List.mem_cons_self)
  have hleast : (stats.count size).maxQsize.toNat ≤ max w.longest w.st.tpsQueue.length :=
    hexact.least rfl
  apply hunseen
  refine ⟨(Watch.seen_iff hpops).mpr ?_, hroom⟩
  by_cases hearlier : ∃ q ∈ earlier, p.found ≤ q.found
  · exact Or.inr hearlier
  · -- the maximum so far is below, so that the depth recorded must be what was found
    have hbelow : stats.maxQsize.toNat < p.found := by
      rcases hattained with hzero | ⟨q, hq, hle⟩
      · omega
      · have hlt := Nat.lt_of_not_le fun hle => hearlier ⟨q, hq, hle⟩
        omega
    have hcases := CInt.toNat_ofInt_cases p.sampled
    rw [← hsize] at hcases
    left
    omega

/-! ## The steps -/

theorem Stats.Sound.stay (h : stats.Sound w) :
    stats.Sound ⟨w.st, w.sampled, w.pops, max w.longest w.st.tpsQueue.length⟩ := by
  rw [Nat.max_eq_left h.length]
  exact h

/-- The end of a wait. -/
theorem Stats.Sound.wake (h : stats.Sound w) {size : Int32} {signalled : Bool}
    (hplace : w.st.place = .wait size signalled) :
    stats.Sound ⟨wake w.st size, w.sampled, w.pops,
      max w.longest (wake w.st size).tpsQueue.length⟩ := by
  have hsampled := h.sampled
  unfold Watch.SizeSampled at hsampled
  rw [hplace] at hsampled
  rw [Worker.wake, if_neg h.run]
  exact h.move rfl hplace hsampled rfl rfl

theorem Stats.Sound.pushed (h : stats.Sound w) (taskExe : Option Nat) (data : Nat) (alloc : Bool) :
    ∃ w', watch w (.push taskExe data alloc) = .ok w' ∧ stats.Sound w' := by
  cases taskExe with
  | none => exact ⟨_, rfl, h.stay⟩
  | some exe =>
    cases alloc with
    | false => exact ⟨_, rfl, h.stay⟩
    | true =>
      have halive : ¬ w.st.destroy = .returned := by
        rw [h.alive]
        exact nofun
      rw [watch, step, spdTaskqueuePush, if_pos rfl, if_neg halive]
      exact ⟨_, rfl, h.push _ _⟩

/-- A statement of the thread other than the count. -/
theorem Stats.Sound.thread (h : stats.Sound w) (hcounted : w.st.place.uncounted = false) :
    ∃ w', watch w .thread = .ok w' ∧ stats.Sound w' := by
  have hsampled := h.sampled
  unfold Watch.SizeSampled at hsampled
  rw [watch, step, ok_bind]
  refine ⟨_, rfl, ?_⟩
  unfold Worker.thread Watch.sample Watch.pop
  cases hplace : w.st.place with
  | loop =>
    dsimp only
    rw [if_neg h.run]
    exact h.move rfl hplace trivial rfl rfl
  | check =>
    dsimp only
    rw [if_neg h.run]
    have hdepth : tpsTaskqueueDepth w.st = Int32.ofInt w.st.tpsQueue.length := by
      rw [tpsTaskqueueDepth, h.size]
    split
    · exact h.move rfl hplace ⟨hdepth, Nat.le_refl _⟩ rfl rfl
    · exact h.move rfl hplace ⟨hdepth, Nat.le_refl _⟩ rfl rfl
  | wait size signalled => exact h.wake hplace
  | pop size =>
    dsimp only
    unfold tpsTaskqueuePop
    cases hqueue : w.st.tpsQueue with
    | nil =>
      have hmove : stats.Sound ⟨{ w.st with place := .loop, freed := w.st.freed }, w.sampled, w.pops,
          max w.longest w.st.tpsQueue.length⟩ := h.move rfl hplace trivial rfl rfl
      exact hmove
    | cons task rest => exact h.take hplace hqueue
  | execute size task => exact h.execute hplace
  | stats size task =>
    rw [hplace] at hcounted
    cases hcounted
  | free task => exact h.move rfl hplace trivial rfl rfl
  | drain =>
    rw [hplace] at hsampled
    exact absurd hsampled id
  | drop task =>
    rw [hplace] at hsampled
    exact absurd hsampled id
  | exited =>
    rw [hplace] at hsampled
    exact absurd hsampled id

/-- The count. -/
theorem watch_count (hkept : w.st.stats = some stats) {size : Int32} {task : TpsTask}
    (hplace : w.st.place = .stats size task) : watch w .thread =
      .ok ⟨{ w.st with stats := some (stats.count size), place := .free task }, w.sampled, w.pops,
        max w.longest w.st.tpsQueue.length⟩ := by
  have hthread : Worker.thread w.st =
      { w.st with stats := some (stats.count size), place := .free task } := by
    rw [Worker.thread, hplace]
    dsimp only
    rw [hkept]
    rfl
  have hsample : w.sample .thread = w.sampled := by
    rw [Watch.sample, hplace]
  have hpop : w.pop .thread = w.pops := by
    rw [Watch.pop, hplace]
  rw [watch, step, ok_bind, hthread, hsample, hpop]

theorem Place.eq_stats {p : Place} (h : p.uncounted = true) :
    ∃ size task, p = .stats size task := by
  cases p with
  | stats size task => exact ⟨size, task, rfl⟩
  | _ => exact absurd h nofun

@[simp] theorem wake_tpsQueue (s : St) (size : Int32) : (wake s size).tpsQueue = s.tpsQueue := by
  unfold Worker.wake
  split
  · rfl
  · rfl

@[simp] theorem destroy_tpsQueue (s : St) : (destroy s).tpsQueue = s.tpsQueue := by
  unfold Worker.destroy
  split
  · rfl
  · rfl
  · rfl

theorem tpsTaskqueuePop_length_le (s : St) :
    (tpsTaskqueuePop s).2.tpsQueue.length ≤ s.tpsQueue.length := by
  unfold tpsTaskqueuePop
  cases hqueue : s.tpsQueue with
  | nil => exact Nat.le_of_eq (congrArg List.length hqueue)
  | cons task rest => exact Nat.le_succ _

theorem thread_length_le (s : St) : (thread s).tpsQueue.length ≤ s.tpsQueue.length := by
  have hpop := tpsTaskqueuePop_length_le s
  unfold Worker.thread
  cases s.place with
  | loop =>
    dsimp only
    split
    · exact Nat.le_refl _
    · exact Nat.le_refl _
  | check =>
    dsimp only
    split
    · exact Nat.le_refl _
    · split
      · exact Nat.le_refl _
      · exact Nat.le_refl _
  | wait size signalled => exact Nat.le_of_eq (congrArg List.length (wake_tpsQueue s size))
  | pop size =>
    dsimp only
    split
    next heq =>
      rw [heq] at hpop
      exact hpop
    next heq =>
      rw [heq] at hpop
      exact hpop
  | drain =>
    dsimp only
    split
    next heq =>
      rw [heq] at hpop
      exact hpop
    next heq =>
      rw [heq] at hpop
      exact hpop
  | _ => exact Nat.le_refl _

/-- Only a push makes the queue longer. -/
theorem step_length {s s' : St} {o : Op} (h : step s o = .ok s') :
    s'.tpsQueue.length ≤ s.tpsQueue.length ∨
      ∃ taskExe data alloc, o = .push taskExe data alloc ∧
        s'.tpsQueue.length = s.tpsQueue.length + 1 := by
  cases o with
  | push taskExe data alloc =>
    obtain ⟨⟨_, s1⟩, hpush, hs1⟩ := Outcome.bind_eq_ok.mp h
    obtain rfl := Outcome.ok.inj hs1
    unfold spdTaskqueuePush at hpush
    cases taskExe with
    | none =>
      obtain rfl := (Prod.mk.inj (Outcome.ok.inj hpush)).2
      exact Or.inl (Nat.le_refl _)
    | some exe =>
      dsimp only at hpush
      split at hpush
      next =>
        split at hpush
        next => exact absurd hpush nofun
        next =>
          obtain rfl := (Prod.mk.inj (Outcome.ok.inj hpush)).2
          exact Or.inr ⟨_, _, _, rfl, List.length_append⟩
      next =>
        obtain rfl := (Prod.mk.inj (Outcome.ok.inj hpush)).2
        exact Or.inl (Nat.le_refl _)
  | thread =>
    obtain rfl := Outcome.ok.inj h
    exact Or.inl (thread_length_le s)
  | spurious =>
    unfold step at h
    dsimp only at h
    split at h
    next size signalled _ =>
      obtain rfl := Outcome.ok.inj h
      exact Or.inl (Nat.le_of_eq (congrArg List.length (wake_tpsQueue s size)))
    next =>
      obtain rfl := Outcome.ok.inj h
      exact Or.inl (Nat.le_refl _)
  | destroy =>
    obtain rfl := Outcome.ok.inj h
    exact Or.inl (Nat.le_of_eq (congrArg List.length (destroy_tpsQueue s)))

/-- Every step but the count of an unseen task keeps the statistics sound. -/
theorem watch_sound (h : stats.Sound w) {o : Op} (he : Working w o) (ho : ¬ Unseen w o) :
    ∃ w', watch w o = .ok w' ∧ ∃ stats' : Stats, stats'.Sound w' := by
  cases o with
  | push taskExe data alloc =>
    rcases h.pushed taskExe data alloc with ⟨w', hstep, hw'⟩
    exact ⟨w', hstep, stats, hw'⟩
  | thread =>
    cases hcounted : w.st.place.uncounted with
    | false =>
      rcases h.thread hcounted with ⟨w', hstep, hw'⟩
      exact ⟨w', hstep, stats, hw'⟩
    | true =>
      rcases Place.eq_stats hcounted with ⟨size, task, hplace⟩
      have hseen := Decidable.not_not.mp fun hnot => ho ⟨rfl, hcounted, hnot⟩
      exact ⟨_, watch_count h.kept hplace, stats.count size, h.count hplace hseen.1 hseen.2⟩
  | spurious =>
    have hblocked : w.st.place.blocked = true := he.1
    cases hplace : w.st.place with
    | wait size signalled =>
      refine ⟨_, ?_, stats, h.wake hplace⟩
      rw [watch, step, hplace, ok_bind]
      rfl
    | _ =>
      rw [hplace] at hblocked
      cases hblocked
  | destroy => exact absurd rfl he.2

theorem watch_unseen (h : stats.Sound w) (hfits : w.longest < 2 ^ 63) {o : Op} (ho : Unseen w o)
    {w' : Watch} (hstep : watch w o = .ok w') : ¬ StatsExact w' := by
  obtain ⟨rfl, hcounted, hunseen⟩ := ho
  rcases Place.eq_stats hcounted with ⟨size, task, hplace⟩
  obtain rfl := Outcome.ok.inj ((watch_count h.kept hplace).symm.trans hstep)
  exact h.not_exact hfits hplace hunseen

theorem watch_fits (h : stats.Sound w) (hfits : w.longest < 2 ^ 63) {o : Op} (ho : Fits w o)
    {w' : Watch} (hstep : watch w o = .ok w') : w'.longest < 2 ^ 63 := by
  have hlength := h.length
  obtain ⟨st, hst, hw'⟩ := Outcome.bind_eq_ok.mp hstep
  obtain rfl := Outcome.ok.inj hw'
  show max w.longest st.tpsQueue.length < 2 ^ 63
  cases step_length hst with
  | inl hle => omega
  | inr hpush =>
    obtain ⟨taskExe, data, alloc, rfl, hlen⟩ := hpush
    have hroom : w.st.tpsQueue.length + 1 < 2 ^ 63 := ho
    omega

end Steps

open Run in
/-- The statistics are right all along a run in which every task counted has been seen, and no
    longer than that. -/
theorem task_queue_statistics_exact_iff (os : List Op) (h : Legal watch Working startWatch os) :
    (Legal watch (fun w o => ¬ Unseen w o) startWatch os →
      Always watch StatsExact startWatch os) ∧
    (Legal watch Fits startWatch os → Always watch StatsExact startWatch os →
      Legal watch (fun w o => ¬ Unseen w o) startWatch os) := by
  constructor
  · have hgood : ∀ (w : Watch) (o : Op), (∃ stats : Stats, stats.Sound w) → Working w o →
        ¬ Unseen w o → ∃ w', watch w o = .ok w' ∧ ∃ stats : Stats, stats.Sound w' :=
      fun w o ⟨_, hw⟩ => watch_sound hw
    exact always_of_legal (fun w ⟨_, hw⟩ => hw.exact) hgood os ⟨_, sound_start⟩ h
  · intro hfits
    have hgood : ∀ (w : Watch) (o : Op), (∃ stats : Stats, stats.Sound w) ∧ w.longest < 2 ^ 63 →
        Working w o ∧ Fits w o → ¬ Unseen w o → ∃ w', watch w o = .ok w' ∧
          (∃ stats : Stats, stats.Sound w') ∧ w'.longest < 2 ^ 63 := by
      intro w o ⟨⟨stats, hw⟩, hlongest⟩ ⟨he, hroom⟩ ho
      obtain ⟨w', hstep, hw'⟩ := watch_sound hw he ho
      exact ⟨w', hstep, hw', watch_fits hw hlongest hroom hstep⟩
    have hbad : ∀ (w : Watch) (o : Op) (w' : Watch),
        (∃ stats : Stats, stats.Sound w) ∧ w.longest < 2 ^ 63 → Working w o ∧ Fits w o →
          Unseen w o → watch w o = .ok w' → ¬ StatsExact w' := by
      intro w o w' ⟨⟨stats, hw⟩, hlongest⟩ _ ho hstep
      exact watch_unseen hw hlongest ho hstep
    have hstart : (∃ stats : Stats, stats.Sound startWatch) ∧ startWatch.longest < 2 ^ 63 :=
      ⟨⟨_, sound_start⟩, by decide⟩
    exact (always_iff_inv (fun w ⟨⟨_, hw⟩, _⟩ => hw.exact) hgood hbad os hstart
      (legal_and h hfits)).mp

/-- A push before the thread looks at the depth. -/
def pushedFirst : List Op :=
  [.push (some 1) 0 true, .thread, .thread, .thread, .thread, .thread, .thread]
/-- A push that wakes the thread. -/
def pushedInWait : List Op :=
  [.thread, .thread, .push (some 1) 0 true, .thread, .thread, .thread, .thread]

open Run in
theorem task_queue_statistics_exact_pushedFirst : Legal watch Fits startWatch pushedFirst ∧
    Always watch StatsExact startWatch pushedFirst ∧
    Legal watch (fun w o => ¬ Unseen w o) startWatch pushedFirst := by
  have h := task_queue_statistics_exact_iff pushedFirst (by decide +kernel)
  have hfits : Legal watch Fits startWatch pushedFirst := by decide +kernel
  have hexact := h.1 (by decide +kernel)
  exact ⟨hfits, hexact, h.2 hfits hexact⟩

open Run in
/-- The thread looks at an empty queue and waits; the task that wakes it is counted with a depth
    of 0. -/
theorem task_queue_statistics_inexact : ∃ w, Legal watch Working startWatch pushedInWait ∧
    run watch startWatch pushedInWait = .ok w ∧ w.pops = [⟨0, 1⟩] ∧ w.longest = 1 ∧
    w.st.stats = some ⟨0, 1⟩ ∧ ¬ ∀ os, Legal watch Working startWatch os →
      Always watch StatsExact startWatch os := by
  have hl : Legal watch Working startWatch pushedInWait := by decide +kernel
  refine ⟨_, hl, rfl, by decide +kernel, by decide +kernel, by decide +kernel, ?_⟩
  intro h
  obtain ⟨-, w1, h1, -, w2, h2, -, w3, h3, -, w4, h4, -, w5, h5, -, w6, h6, -, w7, h7, hexact⟩ :=
    h _ hl
  obtain rfl := Outcome.ok.inj h1
  obtain rfl := Outcome.ok.inj h2
  obtain rfl := Outcome.ok.inj h3
  obtain rfl := Outcome.ok.inj h4
  obtain rfl := Outcome.ok.inj h5
  obtain rfl := Outcome.ok.inj h6
  obtain rfl := Outcome.ok.inj h7
  obtain ⟨stats, hstats, hexact⟩ := hexact
  obtain rfl := Option.some.inj hstats
  have hmost := hexact.most rfl ⟨0, 1⟩ List.mem_cons_self
  exact absurd hmost (by decide +kernel)

end Spider.TaskQueue.Worker
