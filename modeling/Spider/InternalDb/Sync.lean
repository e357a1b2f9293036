import Spider.Lib.Run

/-!
# Committing the internal database

The thread `dbsync_thread_loop` keeps a transaction open. A write goes into it
and signals `dbcond`; the thread commits when it is woken, opens the next
transaction, and sleeps for a second without the lock. `spddb_uninit` sets
`doexit`, signals, joins the thread and closes the database, which rolls an open
transaction back. A critical section of the other threads is one step; the
statements of the sync thread are steps of their own.
-/

namespace Spider.InternalDb.Sync

open Lib Outcome

/-- The next statement of `dbsync_thread_loop` (`internal_db.c:407-436`). -/
inductive Place where
  /-- `spd_mutex_lock` at the top. -/
  | lock
  /-- The first `BEGIN TRANSACTION`. -/
  | begin
  /-- Going into `spd_cond_wait`. -/
  | wait
  /-- In `spd_cond_wait`, without the lock. -/
  | waiting
  | commit
  /-- The first test of `doexit`. -/
  | test
  /-- `BEGIN TRANSACTION` in the loop. -/
  | beginAgain
  | unlock
  /-- In `sleep(1)`, before `spd_mutex_lock`. -/
  | sleep
  /-- The second test of `doexit`. -/
  | retest
  | exited
  deriving DecidableEq, Repr

/-- The thread holds `dblock`. -/
def Place.holds : Place → Bool
  | .lock | .waiting | .sleep | .exited => false
  | _ => true

/-- The next statement of `spddb_uninit` (`internal_db.c:159-175`). -/
inductive UninitPlace where
  /-- Not called yet; the first statement sets `doexit`. -/
  | raise
  /-- The critical section with the signal. -/
  | signal
  /-- `pthread_join`. -/
  | join
  /-- The critical section with `sqlite3_close`. -/
  | close
  | returned
  deriving DecidableEq, Repr

/-- The writes are numbered in the order in which they return success. -/
structure St where
  place : Place
  uninit : UninitPlace
  doexit : Bool
  /-- A signal for the waiting thread. -/
  signalled : Bool
  inTransaction : Bool
  /-- How many writes have returned success. -/
  writes : Nat
  /-- The writes in the open transaction. -/
  pending : List Nat
  committed : List Nat
  deriving DecidableEq, Repr

inductive Op where
  /-- `spd_db_put`, `spd_db_del` or `spd_db_deltree` returns success. -/
  | write
  /-- The sync thread performs its next statement. -/
  | thread
  /-- `spd_cond_wait` returns without a signal. -/
  | spurious
  /-- `spddb_uninit` performs its next statement. -/
  | uninit
  deriving DecidableEq, Repr

/-- `do_dbsync` (`internal_db.c:84-87`): without a waiting thread the signal is lost. -/
def doDbsync (s : St) : St := { s with signalled := s.signalled || s.place = .waiting }

/-- The critical section of a write. Outside a transaction it is committed at once. -/
def write (s : St) : St :=
  let s := { s with writes := s.writes + 1 }
  if s.inTransaction then doDbsync { s with pending := s.pending ++ [s.writes - 1] }
  else doDbsync { s with committed := s.committed ++ [s.writes - 1] }

/-- `COMMIT`. -/
def commit (s : St) : St :=
  { s with inTransaction := false, committed := s.committed ++ s.pending, pending := [] }

/-- A statement of the sync thread. -/
def thread (s : St) : St :=
  match s.place with
  | .lock => { s with place := .begin }
  | .begin => { s with inTransaction := true, place := .wait }
  | .wait => { s with signalled := false, place := .waiting }
  | .waiting => { s with signalled := false, place := .commit }
  | .commit => { commit s with place := .test }
  | .test => if s.doexit then { s with place := .exited } else { s with place := .beginAgain }
  | .beginAgain => { s with inTransaction := true, place := .unlock }
  | .unlock => { s with place := .sleep }
  | .sleep => { s with place := .retest }
  | .retest => if s.doexit then { s with place := .exited } else { s with place := .wait }
  | .exited => s

/-- A statement of `spddb_uninit`. -/
def uninit (s : St) : St :=
  match s.uninit with
  | .raise => { s with doexit := true, uninit := .signal }
  | .signal => { doDbsync s with uninit := .join }
  | .join => { s with uninit := .close }
  | .close => { s with inTransaction := false, pending := [], uninit := .returned }
  | .returned => s

def step (s : St) : Op → Outcome St
  | .write => .ok (write s)
  | .thread => .ok (thread s)
  | .spurious => .ok { s with place := .commit }
  | .uninit => .ok (uninit s)

/-- A critical section needs the lock, a wait without a signal goes on only spuriously, a join
    needs the thread to have ended, and the writes precede the shutdown. -/
def Enabled (s : St) : Op → Prop
  | .write => s.place.holds = false ∧ s.uninit = .raise
  | .thread => s.place = .waiting → s.signalled = true
  | .spurious => s.place = .waiting
  | .uninit =>
    match s.uninit with
    | .raise => True
    | .signal | .close => s.place.holds = false
    | .join => s.place = .exited
    | .returned => False

instance : (s : St) → (o : Op) → Decidable (Enabled s o)
  | s, .write => inferInstanceAs (Decidable (s.place.holds = false ∧ s.uninit = .raise))
  | s, .thread => inferInstanceAs (Decidable (s.place = .waiting → s.signalled = true))
  | s, .spurious => inferInstanceAs (Decidable (s.place = .waiting))
  | s, .uninit =>
    match h : s.uninit with
    | .raise => decidable_of_iff True (by simp only [Enabled, h])
    | .signal => decidable_of_iff (s.place.holds = false) (by simp only [Enabled, h])
    | .join => decidable_of_iff (s.place = .exited) (by simp only [Enabled, h])
    | .close => decidable_of_iff (s.place.holds = false) (by simp only [Enabled, h])
    | .returned => decidable_of_iff False (by simp only [Enabled, h])

/-- `spddb_init` has just created the thread. -/
def start : St where
  place := .lock
  uninit := .raise
  doexit := false
  signalled := false
  inTransaction := false
  writes := 0
  pending := []
  committed := []

/-- Every write that returned success is in a committed transaction. -/
def AllCommitted (s : St) : Prop := ∀ w, w < s.writes → w ∈ s.committed

/-- The second test ends the thread with writes in the open transaction. -/
def ExitsOpen (s : St) (o : Op) : Prop :=
  o = .thread ∧ s.place = .retest ∧ s.doexit = true ∧ s.pending ≠ []

instance (s : St) (o : Op) : Decidable (ExitsOpen s o) :=
  inferInstanceAs (Decidable (_ ∧ _ ∧ _ ∧ _))

instance (s : St) : Decidable (AllCommitted s) :=
  inferInstanceAs (Decidable (∀ w, w < s.writes → w ∈ s.committed))

/-! ## What the steps keep -/

/-- Every write is committed or in the open transaction; there are none in it between a `COMMIT`
    and the test after it and when the thread has ended, and the thread ends only in a
    shutdown. -/
structure Inv (s : St) : Prop where
  writes : ∀ w, w < s.writes ↔ w ∈ s.committed ∨ w ∈ s.pending
  disjoint : ∀ w ∈ s.pending, w ∉ s.committed
  doexit : s.doexit = false ↔ s.uninit = .raise
  closed : s.inTransaction = false → s.pending = []
  tested : s.place = .test → s.pending = []
  exited : s.place = .exited → s.doexit = true ∧ s.pending = []
  joined : s.uninit = .close ∨ s.uninit = .returned → s.place = .exited

/-- The thread has ended, and a write is not committed. -/
structure Lost (s : St) : Prop where
  exited : s.place = .exited
  doexit : s.uninit ≠ .raise
  lost : ∃ w, w < s.writes ∧ w ∉ s.committed

theorem inv_start : Inv start where
  writes := by simp [start]
  disjoint := by simp [start]
  doexit := by simp [start]
  closed _ := rfl
  tested _ := rfl
  exited h := by simp [start] at h
  joined h := by simp [start] at h

section Steps

variable {s : St}

/-- A step of the sync thread that neither commits nor ends it. -/
theorem Inv.goto (h : Inv s) {p : Place} (signalled : Bool) (htest : p ≠ .test)
    (hexit : p ≠ .exited) (hnot : s.place ≠ .exited) :
    Inv { s with signalled := signalled, place := p } where
  writes := h.writes
  disjoint := h.disjoint
  doexit := h.doexit
  closed := h.closed
  tested hp := absurd hp htest
  exited hp := absurd hp hexit
  joined hu := absurd (h.joined hu) hnot

theorem inv_begin (h : Inv s) {p : Place} (htest : p ≠ .test) (hexit : p ≠ .exited)
    (hnot : s.place ≠ .exited) : Inv { s with inTransaction := true, place := p } where
  writes := h.writes
  disjoint := h.disjoint
  doexit := h.doexit
  closed hc := absurd hc nofun
  tested hp := absurd hp htest
  exited hp := absurd hp hexit
  joined hu := absurd (h.joined hu) hnot

theorem inv_commit (h : Inv s) (hnot : s.place ≠ .exited) :
    Inv { commit s with place := .test } where
  writes := by
    intro w
    show w < s.writes ↔ w ∈ s.committed ++ s.pending ∨ w ∈ []
    rw [h.writes w, List.mem_append]
    simp
  disjoint w hw := absurd hw List.not_mem_nil
  doexit := h.doexit
  closed _ := rfl
  tested _ := rfl
  exited hp := absurd hp nofun
  joined hu := absurd (h.joined hu) hnot

theorem inv_exit (h : Inv s) (hdo : s.doexit = true) (hp : s.pending = []) :
    Inv { s with place := .exited } where
  writes := h.writes
  disjoint := h.disjoint
  doexit := h.doexit
  closed := h.closed
  tested hp := absurd hp nofun
  exited _ := ⟨hdo, hp⟩
  joined _ := rfl

theorem inv_thread (h : Inv s) (hgood : ¬ ExitsOpen s .thread) : Inv (thread s) := by
  unfold thread
  split
  next hp => exact h.goto s.signalled nofun nofun (by rw [hp]; exact nofun)
  next hp => exact inv_begin h nofun nofun (by rw [hp]; exact nofun)
  next hp => exact h.goto false nofun nofun (by rw [hp]; exact nofun)
  next hp => exact h.goto false nofun nofun (by rw [hp]; exact nofun)
  next hp => exact inv_commit h (by rw [hp]; exact nofun)
  next hp =>
    split
    next hdo => exact inv_exit h hdo (h.tested hp)
    next => exact h.goto s.signalled nofun nofun (by rw [hp]; exact nofun)
  next hp => exact inv_begin h nofun nofun (by rw [hp]; exact nofun)
  next hp => exact h.goto s.signalled nofun nofun (by rw [hp]; exact nofun)
  next hp => exact h.goto s.signalled nofun nofun (by rw [hp]; exact nofun)
  next hp =>
    split
    next hdo =>
      have hpending : s.pending = [] := by
        by_contra hne
        exact hgood ⟨rfl, hp, hdo, hne⟩
      exact inv_exit h hdo hpending
    next => exact h.goto s.signalled nofun nofun (by rw [hp]; exact nofun)
  next => exact h

theorem inv_write (h : Inv s) (he : Enabled s .write) : Inv (write s) := by
  obtain ⟨hfree, hu⟩ := he
  have hfresh : s.writes ∉ s.committed ∧ s.writes ∉ s.pending := by
    have hnot := mt (h.writes s.writes).mpr (Nat.lt_irrefl _)
    exact not_or.mp hnot
  have htest : s.place ≠ .test := by
    intro hp
    rw [hp] at hfree
    exact Bool.noConfusion hfree
  have hexit : s.place ≠ .exited := by
    intro hp
    have hdo := (h.exited hp).1
    rw [h.doexit.mpr hu] at hdo
    exact Bool.noConfusion hdo
  unfold write
  dsimp only
  split
  next htrans =>
    refine ⟨?_, ?_, h.doexit, ?_, fun hp => absurd hp htest, fun hp => absurd hp hexit, h.joined⟩
    · intro w
      show w < s.writes + 1 ↔ w ∈ s.committed ∨ w ∈ s.pending ++ [s.writes]
      rw [List.mem_append, List.mem_singleton, ← or_assoc, ← h.writes w]
      omega
    · intro w hw
      show w ∉ s.committed
      rcases List.mem_append.mp hw with hw | hw
      · exact h.disjoint w hw
      · rw [List.mem_singleton.mp hw]
        exact hfresh.1
    · intro hclosed
      exact absurd (htrans.symm.trans hclosed) nofun
  next htrans =>
    have hpending := h.closed (Bool.eq_false_iff.mpr htrans)
    refine ⟨?_, ?_, h.doexit, fun _ => hpending, fun hp => absurd hp htest,
      fun hp => absurd hp hexit, h.joined⟩
    · intro w
      show w < s.writes + 1 ↔ w ∈ s.committed ++ [s.writes] ∨ w ∈ s.pending
      rw [List.mem_append, List.mem_singleton, or_right_comm, ← h.writes w]
      omega
    · intro w hw
      have hw : w ∈ s.pending := hw
      rw [hpending] at hw
      exact absurd hw List.not_mem_nil

theorem inv_uninit (h : Inv s) (he : Enabled s .uninit) : Inv (uninit s) := by
  unfold uninit
  split
  next hu =>
    refine ⟨h.writes, h.disjoint, ?_, h.closed, h.tested, ?_, ?_⟩
    · exact ⟨nofun, nofun⟩
    · intro hp
      exact ⟨rfl, (h.exited hp).2⟩
    · rintro (hc | hc) <;> exact absurd hc nofun
  next hu =>
    refine ⟨h.writes, h.disjoint, ?_, h.closed, h.tested, h.exited, ?_⟩
    · have hdo : s.doexit ≠ false := fun hf => absurd (hu.symm.trans (h.doexit.mp hf)) nofun
      exact ⟨fun hf => absurd hf hdo, nofun⟩
    · rintro (hc | hc) <;> exact absurd hc nofun
  next hu =>
    simp only [Enabled, hu] at he
    refine ⟨h.writes, h.disjoint, ?_, h.closed, h.tested, h.exited, fun _ => he⟩
    have hdo : s.doexit ≠ false := fun hf => absurd (hu.symm.trans (h.doexit.mp hf)) nofun
    exact ⟨fun hf => absurd hf hdo, nofun⟩
  next hu =>
    have hp := h.joined (Or.inl hu)
    have hpending := (h.exited hp).2
    refine ⟨?_, ?_, ?_, fun _ => rfl, fun _ => rfl, fun _ => ⟨(h.exited hp).1, rfl⟩, fun _ => hp⟩
    · intro w
      rw [← hpending]
      exact h.writes w
    · exact fun w hw => absurd hw List.not_mem_nil
    · have hdo : s.doexit ≠ false := fun hf => absurd (hu.symm.trans (h.doexit.mp hf)) nofun
      exact ⟨fun hf => absurd hf hdo, nofun⟩
  next => exact h

/-- A step that does not end the thread over an open transaction keeps the invariant. -/
theorem inv_step (s : St) (o : Op) (s' : St) (h : Inv s) (he : Enabled s o)
    (hgood : ¬ ExitsOpen s o) (hstep : step s o = .ok s') : Inv s' := by
  cases o with
  | write => exact Outcome.ok.inj hstep ▸ inv_write h he
  | thread => exact Outcome.ok.inj hstep ▸ inv_thread h hgood
  | spurious =>
    have hp : s.place = .waiting := he
    exact Outcome.ok.inj hstep ▸ h.goto s.signalled nofun nofun (by rw [hp]; exact nofun)
  | uninit => exact Outcome.ok.inj hstep ▸ inv_uninit h he

/-- The second test over an open transaction with writes in it loses them. -/
theorem lost_exit (s : St) (o : Op) (s' : St) (h : Inv s) (_ : Enabled s o) (hbad : ExitsOpen s o)
    (hstep : step s o = .ok s') : Lost s' := by
  obtain ⟨rfl, hp, hdo, hne⟩ := hbad
  have hthread : thread s = { s with place := .exited } := by
    unfold thread
    rw [hp]
    exact if_pos hdo
  obtain rfl := hthread.symm.trans (Outcome.ok.inj hstep)
  obtain ⟨w, hw⟩ := List.exists_mem_of_ne_nil _ hne
  refine ⟨rfl, ?_, w, (h.writes w).mpr (Or.inr hw), h.disjoint w hw⟩
  intro hu
  rw [h.doexit.mpr hu] at hdo
  exact Bool.noConfusion hdo

/-- Nothing commits once the thread has ended. -/
theorem lost_step (s : St) (o : Op) (s' : St) (h : Lost s) (he : Enabled s o)
    (hstep : step s o = .ok s') : Lost s' := by
  obtain ⟨hp, hu, hlost⟩ := h
  cases o with
  | write => exact absurd he.2 hu
  | thread =>
    have hthread : thread s = s := by
      unfold thread
      rw [hp]
    exact (hthread.symm.trans (Outcome.ok.inj hstep)) ▸ ⟨hp, hu, hlost⟩
  | spurious => exact absurd (hp.symm.trans he) nofun
  | uninit =>
    obtain rfl := Outcome.ok.inj hstep
    unfold uninit
    split
    next hr => exact absurd hr hu
    next => exact ⟨hp, nofun, hlost⟩
    next => exact ⟨hp, nofun, hlost⟩
    next => exact ⟨hp, nofun, hlost⟩
    next => exact ⟨hp, hu, hlost⟩

end Steps

/-- When `spddb_uninit` has returned, every write that returned success is committed exactly if
    the sync thread did not end in its second test with writes in the open transaction. -/
theorem shutdown_keeps_iff {s : St} {os : List Op} (hl : Run.Legal step Enabled start os)
    (hrun : Run.run step start os = .ok s) (hret : s.uninit = .returned) :
    AllCommitted s ↔ Run.Legal step (fun s o => ¬ ExitsOpen s o) start os := by
  rcases Run.inv_or_lost inv_step lost_exit lost_step os inv_start hl hrun with
    ⟨hgood, hinv⟩ | ⟨hbad, hlost⟩
  · refine ⟨fun _ => hgood, fun _ => ?_⟩
    intro w hw
    have hpending := (hinv.exited (hinv.joined (Or.inr hret))).2
    rcases (hinv.writes w).mp hw with hw | hw
    · exact hw
    · rw [hpending] at hw
      exact absurd hw List.not_mem_nil
  · refine ⟨fun hall => ?_, fun hgood => absurd hgood hbad⟩
    obtain ⟨w, hw, hnot⟩ := hlost.lost
    exact absurd (hall w hw) hnot

/-- The thread commits the first write and sleeps; the second write and the shutdown come while
    it does. -/
def shutdownInSleep : List Op :=
  [.thread, .thread, .thread, .write, .thread, .thread, .thread, .thread, .thread, .write,
    .uninit, .uninit, .thread, .thread, .uninit, .uninit]

/-- The database then, with the second write rolled back. -/
def rolledBack : St where
  place := .exited
  uninit := .returned
  doexit := true
  signalled := false
  inTransaction := false
  writes := 2
  pending := []
  committed := [0]

theorem shutdown_loses : Run.Legal step Enabled start shutdownInSleep ∧
    Run.run step start shutdownInSleep = .ok rolledBack ∧ rolledBack.uninit = .returned ∧
    ¬ AllCommitted rolledBack := by
  refine ⟨?_, ?_, rfl, ?_⟩
  · decide +kernel
  · decide +kernel
  · decide +kernel

/-- The shutdown finds the thread waiting. -/
theorem shutdown_keeps_waiting : AllCommitted { rolledBack with writes := 1 } := by
  have hl : Run.Legal step Enabled start [.thread, .thread, .thread, .write, .uninit, .thread,
      .thread, .thread, .uninit, .uninit, .uninit] := by decide +kernel
  exact (shutdown_keeps_iff hl (by decide +kernel) (by decide +kernel)).mpr (by decide +kernel)

end Spider.InternalDb.Sync
