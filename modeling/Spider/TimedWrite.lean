import Mathlib.Algebra.GroupWithZero.Nat
import Mathlib.Data.List.Nodup
import Mathlib.Data.List.TakeDrop
import Spider.Times

/-!
# Writes with a timeout

`spd_timeout_write` and `spd_timeoutf_write` wait until a descriptor takes data,
write what is left, and look at the clock, until everything is written, an error
comes or the time is over. What `poll`, `write`, `fwrite`, `fflush` and the clock
answer is given for each round; a run whose answers have come to an end is still
waiting. The elements of the buffer may be bytes, or bytes with their places.
-/

namespace Spider.TimedWrite

open Times

/-- The values of `errno` that the loops look at. -/
inductive Errno where
  | eintr
  | eagain
  | other
  deriving DecidableEq, Repr

/-- The call is to be made again. -/
def Errno.again (e : Errno) : Bool := e = .eintr ∨ e = .eagain

/-- What `poll` returns for the timeout it is given, `errno`, and the clock when it is read
    behind it. -/
structure Poll where
  ret : Int32 → Int
  errno : Errno
  now : Timeval

/-- The clock at the start of a wait, and the polls of it. -/
structure Wait where
  start : Timeval
  polls : List Poll

/-- The loop of `spd_waitfor_pollout` (`poll.c:57-79`). -/
def pollLoop (start : Timeval) (ms : Int32) : List Poll → Int32 → Option Int
  | [], _ => none
  | p :: polls, escap =>
    let ret := p.ret (ms - escap)
    if ret ≤ 0 then
      if ret = 0 then some (-1)
      else if ret = -1 then
        if p.errno.again then
          let escap := Int32.ofInt (spdTvdiffMs p.now start)
          if escap > ms then some (-1) else pollLoop start ms polls escap
        else some (-1)
      else
        let escap := Int32.ofInt (spdTvdiffMs p.now start)
        if escap ≥ ms then some (-1) else pollLoop start ms polls escap
    else some 0

/-- `spd_waitfor_pollout` (`poll.c:45-82`). -/
def spdWaitforPollout (w : Wait) (ms : Int32) : Option Int := pollLoop w.start ms w.polls 0

/-- What `write` does: it takes so many bytes, or as many as it is offered when these are fewer,
    or it fails. -/
inductive Written where
  | count (n : Nat)
  | error (errno : Errno)
  deriving DecidableEq, Repr

/-- What `write` returns when it is offered `len` bytes. -/
def Written.res (w : Written) (len : Nat) : Int :=
  match w with
  | .count n => min n len
  | .error _ => -1

/-- `errno` says that the call is to be made again. -/
def Written.again : Written → Bool
  | .count _ => false
  | .error e => e.again

/-- The answers to one round of a loop. -/
structure Round (ω : Type) where
  wait : Wait
  write : ω
  now : Timeval

section

variable {α : Type}

/-- The elements accepted so far, those left, and what the call returned if it has. -/
structure Sent (α : Type) where
  accepted : List α
  rest : List α
  result : Option Int
  deriving DecidableEq, Repr

/-- The loop of `spd_timeout_write` (`utils.c:224-248`) and its return. -/
def writeLoop (start : Timeval) (timeoutms : Int32) :
    List (Round Written) → Int32 → List α → Sent α
  | [], _, s => ⟨[], s, if s.isEmpty then some 0 else none⟩
  | r :: rounds, elapsed, s =>
    if s.isEmpty then ⟨[], s, some 0⟩
    else match spdWaitforPollout r.wait (timeoutms - elapsed) with
      | none => ⟨[], s, none⟩
      | some ret =>
        if ret ≠ 0 then ⟨[], s, some (-1)⟩
        else
          let res := r.write.res s.length
          if res < 0 ∧ r.write.again = false then ⟨[], s, some (-1)⟩
          else
            let res := if res < 0 then 0 else res
            let accepted := s.take res.toNat
            let s := s.drop res.toNat
            let elapsed := Int32.ofInt (spdTvdiffMs r.now start)
            if elapsed ≥ timeoutms then ⟨accepted, s, some (if s.isEmpty then 0 else -1)⟩
            else
              let sent := writeLoop start timeoutms rounds elapsed s
              { sent with accepted := accepted ++ sent.accepted }

/-- `spd_timeout_write` (`utils.c:218-251`). -/
def spdTimeoutWrite (start : Timeval) (rounds : List (Round Written)) (s : List α)
    (timeoutms : Int32) : Sent α :=
  writeLoop start timeoutms rounds 0 s

end

/-- What `fwrite` and the stream do: so many bytes are taken, `ferror` and `errno`. -/
structure Fwritten where
  count : Nat
  ferror : Bool
  errno : Errno
  deriving DecidableEq, Repr

/-- What `fflush` does. -/
inductive Flush where
  | done
  | error (errno : Errno)
  deriving DecidableEq, Repr

section

variable {α : Type}

/-- How the first loop of `spd_timeoutf_write` is left: its answers are at an end, the call has
    returned from it, or the flush is next. -/
inductive Left where
  | waiting
  | returned
  | flush (n : Int)
  deriving DecidableEq, Repr

/-- The first loop of `spd_timeoutf_write` (`utils.c:259-283`): what is accepted, and how it is
    left. The result of `fwrite` is not used. -/
def fwriteLoop (start : Timeval) (timeoutms : Int32) :
    List (Round Fwritten) → Int32 → Int → List α → List α × Left
  | [], _, n, s => ([], if s.isEmpty then .flush n else .waiting)
  | r :: rounds, elapsed, n, s =>
    if s.isEmpty then ([], .flush n)
    else match spdWaitforPollout r.wait (timeoutms - elapsed) with
      | none => ([], .waiting)
      | some ret =>
        if ret ≠ 0 then ([], .returned)
        else
          let accepted := s.take r.write.count
          if r.write.ferror = true ∧ r.write.errno.again = false then (accepted, .flush (-1))
          else
            let s := s.drop n.toNat
            let elapsed := Int32.ofInt (spdTvdiffMs r.now start)
            if elapsed ≥ timeoutms then (accepted, .flush (if s.isEmpty then 0 else -1))
            else
              let (more, left) := fwriteLoop start timeoutms rounds elapsed n s
              (accepted ++ more, left)

/-- The loop of `fflush` (`utils.c:285-298`): `n` afterwards, if it has come to an end, and whether
    everything was flushed. -/
def flushLoop : List Flush → Int → Option Int × Bool
  | [], _ => (none, false)
  | .done :: _, n => (some n, true)
  | .error e :: flushes, n => if e.again then flushLoop flushes n else (some (-1), false)

/-- What the stream has accepted, whether it was flushed, and what the call returned. -/
structure Streamed (α : Type) where
  accepted : List α
  flushed : Bool
  result : Option Int
  deriving DecidableEq, Repr

/-- `spd_timeoutf_write` (`utils.c:253-301`). -/
def spdTimeoutfWrite (start : Timeval) (rounds : List (Round Fwritten)) (flushes : List Flush)
    (s : List α) (timeoutms : Int32) : Streamed α :=
  match fwriteLoop start timeoutms rounds 0 0 s with
  | (accepted, .waiting) => ⟨accepted, false, none⟩
  | (accepted, .returned) => ⟨accepted, false, some (-1)⟩
  | (accepted, .flush n) =>
    let (n, flushed) := flushLoop flushes n
    ⟨accepted, flushed, n.map fun n => if n < 0 then -1 else 0⟩

end

/-! ## `spd_timeout_write` -/

/-- How many bytes a call of `write` takes, if it is offered as many. -/
def Written.taken : Written → Nat
  | .count n => n
  | .error _ => 0

/-- The error is not passing. -/
def Written.fatal : Written → Bool
  | .count _ => false
  | .error e => !e.again

def taken (ws : List Written) : Nat := (ws.map Written.taken).sum

/-- The calls of `write` that are made while there is something to write, and whether a round ends
    them: each round gets to its own when the wait for it ends well, and is the last one after an
    error that is not passing or when the time is over. -/
def writes (start : Timeval) (timeoutms : Int32) :
    List (Round Written) → Int32 → List Written × Bool
  | [], _ => ([], false)
  | r :: rounds, elapsed =>
    match spdWaitforPollout r.wait (timeoutms - elapsed) with
    | none => ([], false)
    | some ret =>
      if ret ≠ 0 then ([], true)
      else if r.write.fatal ∨ Int32.ofInt (spdTvdiffMs r.now start) ≥ timeoutms then
        ([r.write], true)
      else
        let (more, ends) := writes start timeoutms rounds (Int32.ofInt (spdTvdiffMs r.now start))
        (r.write :: more, ends)

/-- What comes of these calls on a buffer, if they are as many as it takes. -/
def sentBy {α : Type} (made : List Written × Bool) (s : List α) : Sent α where
  accepted := s.take (taken made.1)
  rest := s.drop (taken made.1)
  result := if s.length ≤ taken made.1 then some 0 else if made.2 then some (-1) else none

section

variable {α : Type} {start : Timeval} {timeoutms : Int32}

theorem Written.res_toNat (w : Written) (len : Nat) :
    (if w.res len < 0 then 0 else w.res len).toNat = min w.taken len := by
  cases w with
  | count n =>
    have hres : (Written.count n).res len = min (n : Int) len := rfl
    have htaken : (Written.count n).taken = n := rfl
    rw [hres, htaken]
    split <;> omega
  | error e => exact (Nat.zero_min len).symm

theorem Written.fatal_iff (w : Written) (len : Nat) :
    w.res len < 0 ∧ w.again = false ↔ w.fatal = true := by
  cases w with
  | count n =>
    have hres : (Written.count n).res len = min (n : Int) len := rfl
    rw [hres]
    simp only [Written.fatal, Bool.false_eq_true, iff_false, not_and]
    omega
  | error e => simp [Written.res, Written.again, Written.fatal]

theorem Written.taken_of_fatal {w : Written} (h : w.fatal = true) : w.taken = 0 := by
  cases w with
  | count n => cases h
  | error e => rfl

@[simp] theorem taken_nil : taken [] = 0 := rfl

@[simp] theorem taken_cons (w : Written) (ws : List Written) :
    taken (w :: ws) = w.taken + taken ws := List.sum_cons

theorem sentBy_nil (made : List Written × Bool) : sentBy made ([] : List α) = ⟨[], [], some 0⟩ := by
  simp [sentBy]

theorem sentBy_ended {s : List α} (hs : s ≠ []) : sentBy ([], true) s = ⟨[], s, some (-1)⟩ := by
  simp [sentBy, hs]

theorem sentBy_waiting {s : List α} (hs : s ≠ []) : sentBy ([], false) s = ⟨[], s, none⟩ := by
  simp [sentBy, hs]

/-- The last call. -/
theorem sentBy_last (w : Written) (s : List α) : sentBy ([w], true) s =
    ⟨s.take w.taken, s.drop w.taken, some (if (s.drop w.taken).isEmpty then 0 else -1)⟩ := by
  have hempty : (s.drop w.taken).isEmpty = true ↔ s.length ≤ w.taken := by
    rw [List.isEmpty_iff, List.drop_eq_nil_iff]
  simp only [sentBy, taken_cons, taken_nil, Nat.add_zero, hempty, if_true, apply_ite some]

/-- A call with others behind it. -/
theorem sentBy_cons (w : Written) (ws : List Written) (ended : Bool) (s : List α) :
    sentBy (w :: ws, ended) s = { sentBy (ws, ended) (s.drop w.taken) with
      accepted := s.take w.taken ++ (sentBy (ws, ended) (s.drop w.taken)).accepted } := by
  have hle : s.length ≤ w.taken + taken ws ↔ (s.drop w.taken).length ≤ taken ws := by
    rw [List.length_drop]
    omega
  simp only [sentBy, taken_cons, List.take_add, List.drop_drop, hle]

/-- The loop comes to what its calls of `write` come to. -/
theorem writeLoop_eq (rounds : List (Round Written)) (elapsed : Int32) (s : List α) :
    writeLoop start timeoutms rounds elapsed s =
      sentBy (writes start timeoutms rounds elapsed) s := by
  induction rounds generalizing elapsed s with
  | nil => cases s <;> rfl
  | cons r rounds ih =>
    rw [writeLoop]
    by_cases hs : s = []
    · subst hs
      rw [sentBy_nil]
      rfl
    · have hempty : s.isEmpty = false := by simpa using hs
      rw [writes, hempty, if_neg Bool.false_ne_true]
      cases hpoll : spdWaitforPollout r.wait (timeoutms - elapsed) with
      | none => exact (sentBy_waiting hs).symm
      | some ret =>
        dsimp only
        by_cases hret : ret ≠ 0
        · rw [if_pos hret, if_pos hret, sentBy_ended hs]
        · rw [if_neg hret, if_neg hret]
          by_cases hfatal : r.write.fatal = true
          · rw [if_pos ((r.write.fatal_iff s.length).mpr hfatal), if_pos (.inl hfatal), sentBy_last,
              Written.taken_of_fatal hfatal, List.take_zero, List.drop_zero, hempty]
            rfl
          · rw [if_neg (mt (r.write.fatal_iff s.length).mp hfatal), r.write.res_toNat]
            -- no more is taken than is left
            have htake : s.take (min r.write.taken s.length) = s.take r.write.taken :=
              List.take_eq_take_iff.mpr (by omega)
            have hdrop : s.drop (min r.write.taken s.length) = s.drop r.write.taken :=
              List.drop_eq_drop_iff.mpr (by omega)
            rw [htake, hdrop]
            by_cases hlate : Int32.ofInt (spdTvdiffMs r.now start) ≥ timeoutms
            · have hends : r.write.fatal = true ∨
                  Int32.ofInt (spdTvdiffMs r.now start) ≥ timeoutms := .inr hlate
              rw [if_pos hlate, if_pos hends, sentBy_last]
            · rw [if_neg hlate, if_neg (not_or.mpr ⟨hfatal, hlate⟩), ih, sentBy_cons]

/-- Whatever the environment answers, what is accepted is what the calls of `write` take from the
    front of the buffer. The call returns 0 exactly when that is all of it, and -1 exactly when it
    is not and a round ends the call; it is still waiting only when the answers have come to an end
    before. -/
theorem spdTimeoutWrite_delivers (start : Timeval) (rounds : List (Round Written)) (s : List α)
    (timeoutms : Int32) :
    (spdTimeoutWrite start rounds s timeoutms).accepted =
      s.take (taken (writes start timeoutms rounds 0).1) ∧
    (spdTimeoutWrite start rounds s timeoutms).accepted <+: s ∧
    ((spdTimeoutWrite start rounds s timeoutms).result = some 0 ↔
      (spdTimeoutWrite start rounds s timeoutms).accepted = s) ∧
    ((spdTimeoutWrite start rounds s timeoutms).result = some (-1) ↔
      (spdTimeoutWrite start rounds s timeoutms).accepted ≠ s ∧
        (writes start timeoutms rounds 0).2 = true) ∧
    ((spdTimeoutWrite start rounds s timeoutms).result = none ↔
      (spdTimeoutWrite start rounds s timeoutms).accepted ≠ s ∧
        (writes start timeoutms rounds 0).2 = false) := by
  have hall : s.take (taken (writes start timeoutms rounds 0).1) = s ↔
      s.length ≤ taken (writes start timeoutms rounds 0).1 := List.take_eq_self_iff s
  rw [spdTimeoutWrite, writeLoop_eq, sentBy, hall, ne_eq, hall]
  refine ⟨rfl, List.take_prefix _ s, ?_⟩
  by_cases hle : s.length ≤ taken (writes start timeoutms rounds 0).1
  · simp [hle]
  · cases hends : (writes start timeoutms rounds 0).2 <;> simp [hle]

/-- The descriptor is ready at once, or after a signal. -/
def readyWait (start : Timeval) : Wait := ⟨start, [⟨fun _ => 1, .other, start⟩]⟩

@[inherit_doc readyWait] def signalWait (start : Timeval) : Wait :=
  ⟨start, [⟨fun _ => -1, .eintr, start⟩, ⟨fun _ => 1, .other, start⟩]⟩

/-- Two bytes are taken, none for a full pipe, and then as many as there are. -/
def partialRounds : List (Round Written) :=
  [⟨readyWait ⟨0, 0⟩, .count 2, ⟨0, 1000⟩⟩, ⟨signalWait ⟨0, 1000⟩, .error .eagain, ⟨0, 2000⟩⟩,
    ⟨readyWait ⟨0, 2000⟩, .count 7, ⟨0, 3000⟩⟩]

/-- The five bytes are written in three calls of which one takes nothing. Where the first two calls
    are all that there is time for, two bytes are; and without the last answers the call waits. -/
theorem spdTimeoutWrite_delivers_partial :
    (spdTimeoutWrite ⟨0, 0⟩ partialRounds [10, 20, 30, 40, 50] 9).accepted =
        [10, 20, 30, 40, 50] ∧
      (spdTimeoutWrite ⟨0, 0⟩ partialRounds [10, 20, 30, 40, 50] 9).result = some 0 ∧
    (spdTimeoutWrite ⟨0, 0⟩ partialRounds [10, 20, 30, 40, 50] 2).accepted = [10, 20] ∧
      (spdTimeoutWrite ⟨0, 0⟩ partialRounds [10, 20, 30, 40, 50] 2).result = some (-1) ∧
    (spdTimeoutWrite ⟨0, 0⟩ (partialRounds.take 2) [10, 20, 30, 40, 50] 9).result = none := by
  have hall := spdTimeoutWrite_delivers ⟨0, 0⟩ partialRounds [10, 20, 30, 40, 50] 9
  have hlate := spdTimeoutWrite_delivers ⟨0, 0⟩ partialRounds [10, 20, 30, 40, 50] 2
  have hwaits := spdTimeoutWrite_delivers ⟨0, 0⟩ (partialRounds.take 2) [10, 20, 30, 40, 50] 9
  have hall1 : (spdTimeoutWrite ⟨0, 0⟩ partialRounds [10, 20, 30, 40, 50] 9).accepted =
      [10, 20, 30, 40, 50] := hall.1.trans (by decide +kernel)
  have hlate1 : (spdTimeoutWrite ⟨0, 0⟩ partialRounds [10, 20, 30, 40, 50] 2).accepted =
      [10, 20] := hlate.1.trans (by decide +kernel)
  have hwaits1 : (spdTimeoutWrite ⟨0, 0⟩ (partialRounds.take 2) [10, 20, 30, 40, 50] 9).accepted =
      [10, 20] := hwaits.1.trans (by decide +kernel)
  refine ⟨hall1, hall.2.2.1.mpr hall1, hlate1, hlate.2.2.2.1.mpr ⟨?_, by decide +kernel⟩,
    hwaits.2.2.2.2.mpr ⟨?_, by decide +kernel⟩⟩
  · rw [hlate1]
    decide
  · rw [hwaits1]
    decide

end

/-! ## `spd_timeoutf_write` -/

/-- The `fwrite`s that are made while there is something to write, and whether the flush follows
    them: each round gets to its own when the wait for it ends well, and is the last one after an
    error that is not passing or when the time is over. -/
def fwrites (start : Timeval) (timeoutms : Int32) :
    List (Round Fwritten) → Int32 → List Fwritten × Bool
  | [], _ => ([], false)
  | r :: rounds, elapsed =>
    if spdWaitforPollout r.wait (timeoutms - elapsed) ≠ some 0 then ([], false)
    else if r.write.ferror = true ∧ r.write.errno.again = false ∨
        Int32.ofInt (spdTvdiffMs r.now start) ≥ timeoutms then ([r.write], true)
    else
      let (more, ends) :=
        fwrites start timeoutms rounds (Int32.ofInt (spdTvdiffMs r.now start))
      (r.write :: more, ends)

/-- The flush ends well, perhaps after errors that are passing. -/
def Flushes : List Flush → Prop
  | [] => False
  | .done :: _ => True
  | .error e :: flushes => e.again = true ∧ Flushes flushes

/-- At most one `fwrite` takes something, and it does not take all of it with a flush behind. -/
def WrittenOnce (made : List Fwritten × Bool) (flushes : List Flush) (len : Nat) : Prop :=
  made.1.countP (0 < ·.count) ≤ 1 ∧
    ¬ ((∃ w ∈ made.1, len ≤ w.count) ∧ made.2 = true ∧ Flushes flushes)

/-- What is accepted is a prefix of the buffer, and the call returns 0 exactly when that is all of
    it and it was flushed. -/
def Delivers {α : Type} (s : List α) (d : Streamed α) : Prop :=
  d.accepted <+: s ∧ ∀ r ∈ d.result, r = 0 ↔ d.accepted = s ∧ d.flushed = true

section

variable {α : Type} {start : Timeval} {timeoutms : Int32} {s : List α} {ws : List Fwritten}

/-- Every `fwrite` begins at the start of the buffer. -/
theorem fwriteLoop_eq (hs : s ≠ []) (rounds : List (Round Fwritten)) (elapsed : Int32) :
    ∃ left, fwriteLoop start timeoutms rounds elapsed 0 s =
        ((fwrites start timeoutms rounds elapsed).1.flatMap fun w => s.take w.count, left) ∧
      if (fwrites start timeoutms rounds elapsed).2 = true then left = .flush (-1)
      else left = .waiting ∨ left = .returned := by
  have hempty : s.isEmpty = false := by simpa using hs
  induction rounds generalizing elapsed with
  | nil =>
    refine ⟨.waiting, ?_, .inl rfl⟩
    rw [fwriteLoop, hempty]
    rfl
  | cons r rounds ih =>
    rw [fwriteLoop, fwrites, hempty, if_neg Bool.false_ne_true]
    cases hpoll : spdWaitforPollout r.wait (timeoutms - elapsed) with
    | none => exact ⟨.waiting, rfl, .inl rfl⟩
    | some ret =>
      dsimp only
      by_cases hret : ret = 0
      · subst hret
        have hdrop : s.drop (Int.toNat 0) = s := rfl
        rw [if_neg (not_not.mpr rfl), if_neg (not_not.mpr rfl), hdrop, hempty,
          if_neg Bool.false_ne_true]
        by_cases hfatal : r.write.ferror = true ∧ r.write.errno.again = false
        · rw [if_pos hfatal, if_pos (.inl hfatal)]
          exact ⟨.flush (-1), by simp, rfl⟩
        · rw [if_neg hfatal]
          by_cases hlate : Int32.ofInt (spdTvdiffMs r.now start) ≥ timeoutms
          · rw [if_pos hlate, if_pos (.inr hlate)]
            exact ⟨.flush (-1), by simp, rfl⟩
          · obtain ⟨left, hloop, hleft⟩ := ih (Int32.ofInt (spdTvdiffMs r.now start))
            rw [if_neg hlate, if_neg (not_or.mpr ⟨hfatal, hlate⟩), hloop]
            exact ⟨left, rfl, hleft⟩
      · rw [if_pos hret, if_pos (fun h => hret (Option.some.inj h))]
        exact ⟨.returned, rfl, .inr rfl⟩

/-- The flush keeps `n`, or makes it -1. -/
theorem flushLoop_flushes {flushes : List Flush} (h : Flushes flushes) (n : Int) :
    flushLoop flushes n = (some n, true) := by
  induction flushes with
  | nil => exact h.elim
  | cons f flushes ih =>
    cases f with
    | done => rfl
    | error e =>
      rw [flushLoop, if_pos h.1]
      exact ih h.2

theorem flushLoop_fails {flushes : List Flush} (h : ¬ Flushes flushes) (n : Int) :
    flushLoop flushes n = (none, false) ∨ flushLoop flushes n = (some (-1), false) := by
  induction flushes with
  | nil => exact .inl rfl
  | cons f flushes ih =>
    cases f with
    | done => exact absurd trivial h
    | error e =>
      rw [flushLoop]
      by_cases hagain : e.again = true
      · rw [if_pos hagain]
        exact ih fun hf => h ⟨hagain, hf⟩
      · rw [if_neg hagain]
        exact .inr rfl

/-- Nothing is taken when no `fwrite` takes anything. -/
theorem flatMap_take_eq_nil_iff (hs : s ≠ []) :
    ws.flatMap (fun w => s.take w.count) = [] ↔ ws.countP (0 < ·.count) = 0 := by
  simp [List.flatMap_eq_nil_iff, List.countP_eq_zero, List.take_eq_nil_iff, hs]

/-- Elements that are told apart are taken in order only if they are taken once. -/
theorem flatMap_take_prefix_iff (hs : s ≠ []) (hnodup : s.Nodup) :
    ws.flatMap (fun w => s.take w.count) <+: s ↔ ws.countP (0 < ·.count) ≤ 1 := by
  induction ws with
  | nil => simp
  | cons w ws ih =>
    rw [List.flatMap_cons]
    by_cases hzero : w.count = 0
    · rw [hzero, List.take_zero, List.nil_append, ih, List.countP_cons_of_neg (by simp [hzero])]
    · have hcount : (w :: ws).countP (0 < ·.count) = ws.countP (0 < ·.count) + 1 :=
        List.countP_cons_of_pos (by simpa using Nat.pos_of_ne_zero hzero)
      rw [hcount]
      constructor
      · intro hpre
        have hnil : ws.flatMap (fun w => s.take w.count) = [] := by
          by_contra hne
          obtain ⟨b, hb⟩ := List.exists_mem_of_ne_nil _ hne
          obtain ⟨w', hw', hb⟩ := List.mem_flatMap.mp hb
          -- the first element would be taken a second time
          obtain ⟨a, t, rfl⟩ := List.exists_cons_of_ne_nil hs
          have hfirst : ∀ v : Fwritten, v.count ≠ 0 → a ∈ (a :: t).take v.count := by
            intro v hv
            obtain ⟨k, hk⟩ := Nat.exists_eq_succ_of_ne_zero hv
            rw [hk, List.take_succ_cons]
            exact List.mem_cons_self
          have hcount' : w'.count ≠ 0 := by
            intro h0
            rw [h0, List.take_zero] at hb
            cases hb
          have hdisjoint := (List.nodup_append.mp (hpre.sublist.nodup hnodup)).2.2
          exact hdisjoint a (hfirst w hzero) a (List.mem_flatMap.mpr ⟨w', hw', hfirst w' hcount'⟩)
            rfl
        exact Nat.le_of_eq (congrArg (· + 1) ((flatMap_take_eq_nil_iff hs).mp hnil))
      · intro hle
        rw [(flatMap_take_eq_nil_iff hs).mpr (by omega), List.append_nil]
        exact List.take_prefix w.count s

/-- What is taken once is everything if it was everything that one `fwrite` took. -/
theorem flatMap_take_eq_iff (hs : s ≠ []) (hone : ws.countP (0 < ·.count) ≤ 1) :
    ws.flatMap (fun w => s.take w.count) = s ↔ ∃ w ∈ ws, s.length ≤ w.count := by
  have hpos := List.length_pos_iff.mpr hs
  induction ws with
  | nil => simp [Ne.symm hs]
  | cons w ws ih =>
    simp only [List.flatMap_cons, List.mem_cons, exists_eq_or_imp]
    by_cases hzero : w.count = 0
    · rw [List.countP_cons_of_neg (by simp [hzero])] at hone
      rw [hzero, List.take_zero, List.nil_append]
      simp only [ih hone, Nat.not_le.mpr hpos, false_or]
    · rw [List.countP_cons_of_pos (by simpa using Nat.pos_of_ne_zero hzero)] at hone
      have hnone : ws.countP (0 < ·.count) = 0 := by omega
      have hrest : ¬ ∃ w ∈ ws, s.length ≤ w.count := by
        rintro ⟨v, hv, hle⟩
        exact List.countP_eq_zero.mp hnone v hv (by simpa using Nat.lt_of_lt_of_le hpos hle)
      rw [(flatMap_take_eq_nil_iff hs).mpr hnone, List.append_nil, List.take_eq_self_iff]
      simp only [hrest, or_false]

theorem nodup_zipIdx (s : List α) : s.zipIdx.Nodup := by
  refine List.Nodup.of_map Prod.snd ?_
  rw [List.zipIdx_map_snd]
  exact List.nodup_range'

/-- What the call comes to when there is something to write: it does not return 0. -/
theorem spdTimeoutfWrite_eq (hs : s ≠ []) (start : Timeval) (rounds : List (Round Fwritten))
    (flushes : List Flush) (timeoutms : Int32) :
    ∃ flushed result, spdTimeoutfWrite start rounds flushes s timeoutms =
        ⟨(fwrites start timeoutms rounds 0).1.flatMap fun w => s.take w.count, flushed, result⟩ ∧
      (flushed = true ↔ (fwrites start timeoutms rounds 0).2 = true ∧ Flushes flushes) ∧
      (∀ r ∈ result, r = -1) ∧ (flushed = true → result = some (-1)) := by
  obtain ⟨left, hloop, hleft⟩ := @fwriteLoop_eq _ start timeoutms s hs rounds 0
  cases hends : (fwrites start timeoutms rounds 0).2 with
  | true =>
    rw [hends, if_pos rfl] at hleft
    subst hleft
    by_cases hflush : Flushes flushes
    · refine ⟨true, some (-1), ?_, by simp [hflush], by simp, fun _ => rfl⟩
      simp only [spdTimeoutfWrite, hloop, flushLoop_flushes hflush]
      rfl
    · rcases flushLoop_fails hflush (-1) with hfail | hfail
      · refine ⟨false, none, ?_, by simp [hflush], nofun, nofun⟩
        simp only [spdTimeoutfWrite, hloop, hfail]
        rfl
      · refine ⟨false, some (-1), ?_, by simp [hflush], by simp, nofun⟩
        simp only [spdTimeoutfWrite, hloop, hfail]
        rfl
  | false =>
    rw [hends, if_neg Bool.false_ne_true] at hleft
    rcases hleft with rfl | rfl
    · exact ⟨false, none, by rw [spdTimeoutfWrite, hloop], by simp, nofun, nofun⟩
    · exact ⟨false, some (-1), by rw [spdTimeoutfWrite, hloop], by simp, by simp, nofun⟩

/-- With nothing to write the call is the flush. -/
theorem spdTimeoutfWrite_nil (start : Timeval) (rounds : List (Round Fwritten))
    (flushes : List Flush) (timeoutms : Int32) :
    Delivers ([] : List α) (spdTimeoutfWrite start rounds flushes [] timeoutms) := by
  have hloop : fwriteLoop start timeoutms rounds 0 0 ([] : List α) = ([], .flush 0) := by
    cases rounds <;> rfl
  by_cases hflush : Flushes flushes
  · simp only [spdTimeoutfWrite, hloop, flushLoop_flushes hflush]
    exact ⟨List.prefix_refl [], by simp⟩
  · rcases flushLoop_fails hflush 0 with hfail | hfail
    · simp only [spdTimeoutfWrite, hloop, hfail]
      exact ⟨List.prefix_refl [], nofun⟩
    · simp only [spdTimeoutfWrite, hloop, hfail]
      exact ⟨List.prefix_refl [], by simp⟩

/-- The bytes, told apart by their places, are accepted in order and the result is right exactly
    when there are none, or at most one `fwrite` takes some and it does not end the call well. -/
theorem spdTimeoutfWrite_iff (start : Timeval) (rounds : List (Round Fwritten))
    (flushes : List Flush) (s : List UInt8) (timeoutms : Int32) :
    Delivers s.zipIdx (spdTimeoutfWrite start rounds flushes s.zipIdx timeoutms) ↔
      s = [] ∨ WrittenOnce (fwrites start timeoutms rounds 0) flushes s.length := by
  by_cases hs : s = []
  · subst hs
    exact ⟨fun _ => .inl rfl, fun _ => spdTimeoutfWrite_nil start rounds flushes timeoutms⟩
  · have hne : s.zipIdx ≠ [] := by simpa using hs
    obtain ⟨flushed, result, heq, hflushed, hresult, hreturns⟩ :=
      spdTimeoutfWrite_eq hne start rounds flushes timeoutms
    have htaken := @flatMap_take_prefix_iff _ s.zipIdx (fwrites start timeoutms rounds 0).1 hne
      (nodup_zipIdx s)
    have hall := @flatMap_take_eq_iff _ s.zipIdx (fwrites start timeoutms rounds 0).1 hne
    rw [List.length_zipIdx] at hall
    rw [heq]
    constructor
    · rintro ⟨hpre, hzero⟩
      have hone := htaken.mp hpre
      refine .inr ⟨hone, ?_⟩
      rintro ⟨hfull, hends, hflush⟩
      have hdone := hflushed.mpr ⟨hends, hflush⟩
      have hminus := (hzero (-1) (hreturns hdone)).mpr ⟨(hall hone).mpr hfull, hdone⟩
      exact absurd hminus (by decide)
    · rintro (hnil | ⟨hone, hnot⟩)
      · exact absurd hnil hs
      · refine ⟨htaken.mpr hone, fun r hr => ?_⟩
        rw [hresult r hr]
        constructor
        · intro h
          exact absurd h (by decide)
        · rintro ⟨hsent, hdone⟩
          exact absurd ⟨(hall hone).mp hsent, hflushed.mp hdone⟩ hnot

/-- A full `fwrite` and a flush that ends well are an error, after the same byte again. -/
theorem spdTimeoutfWrite_twice :
    ∃ rounds : List (Round Fwritten), ∃ flushes : List Flush,
      spdTimeoutfWrite ⟨0, 0⟩ rounds flushes ([97] : List UInt8).zipIdx 5 =
        ⟨[(97, 0), (97, 0)], true, some (-1)⟩ ∧
      ¬ Delivers ([97] : List UInt8).zipIdx
        (spdTimeoutfWrite ⟨0, 0⟩ rounds flushes ([97] : List UInt8).zipIdx 5) := by
  have hrun : spdTimeoutfWrite ⟨0, 0⟩
      [⟨⟨⟨0, 0⟩, [⟨fun _ => 1, .other, ⟨0, 0⟩⟩]⟩, ⟨1, false, .other⟩, ⟨0, 1000⟩⟩,
        ⟨⟨⟨0, 1000⟩, [⟨fun _ => 1, .other, ⟨0, 1000⟩⟩]⟩, ⟨1, false, .other⟩, ⟨0, 5000⟩⟩]
      [.done] ([97] : List UInt8).zipIdx 5 = ⟨[(97, 0), (97, 0)], true, some (-1)⟩ := by
    decide +kernel
  refine ⟨_, _, hrun, ?_⟩
  rw [hrun]
  rintro ⟨hpre, -⟩
  exact absurd hpre.length_le (by decide)

end

end Spider.TimedWrite
