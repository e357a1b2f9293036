import Spider.Cli.Registry
import Spider.Sched.Locking
import Spider.TestEngine

/-!
# Locks across the public operations

Whether a call of the scheduler, of the command registry or of the test engine
leaves the lock of its structure as it found it. The registry's `cli_next`, which
has no return statement, is read as returning the successor of an entry.
-/

namespace Spider.Locks

open Lib Outcome CString Locked Times

/-- A call, with the state it finds and the answers it gets. -/
inductive Op where
  | schedWait (c : Sched.Context) (now : Timeval)
  | schedRunall (c : Sched.Context) (rounds : List Sched.Locking.Round)
  | cliRegister (r : Cli.Registry) (e : Cli.Addr) (g : Cli.Registering)
  | testRun (tests : List TestEngine.SpdTest) (name category : Option CString)
      (answers : Nat → TestEngine.Answer)

/-- Entered with the lock held `d` deep, the call has it at every access, releases it only when it
    has it, and returns with it held `d` deep. -/
def Op.KeepsLock (d : Nat) : Op → Prop
  | .schedWait c now => Keeps d (Sched.Locking.spdSchedWait c now)
  | .schedRunall c rounds => Keeps d (Sched.Locking.spdSchedRunall rounds c)
  | .cliRegister r e g => Keeps d (Cli.spdCliRegister r e g)
  | .testRun tests name category answers =>
    Keeps d (TestEngine.spdTestRun name category answers tests)

/-- A wait that does not get past reading the first event; a round of events that is entered with
    the lock held and ends after one event, or has not ended after at most `d`; a registration that
    fails, or comes to an entry that has lost its full command; a test run that runs a test. -/
def Op.Balanced (d : Nat) : Op → Prop
  | .schedWait c _ => ¬ Sched.Locking.FirstAllocated c
  | .schedRunall c rounds => (Sched.Locking.dueEvents rounds c).1 ≤ d ∧
      ((Sched.Locking.dueEvents rounds c).2 → (Sched.Locking.dueEvents rounds c).1 = 1)
  | .cliRegister r e g => g.command = none ∨ Cli.Duplicate r e g ∨ g.strdupFullCmd = false ∨
      Cli.Unnamed r e g
  | .testRun tests name category _ =>
    ∀ n, TestEngine.selected (TestEngine.runMode name category) name category tests = .ok n →
      ¬ 2 ^ 32 ∣ n

theorem keepsLock_iff (d : Nat) (o : Op) : o.KeepsLock d ↔ o.Balanced d := by
  cases o with
  | schedWait c now =>
    show Ends d d _ ↔ ¬ Sched.Locking.FirstAllocated c
    rw [Sched.Locking.ends_spdSchedWait]
    constructor
    · intro h hfirst
      have hdepth := h hfirst
      omega
    · intro h hfirst
      exact absurd hfirst h
  | schedRunall c rounds => exact Sched.Locking.keeps_spdSchedRunall
  | cliRegister r e g => exact Cli.keeps_spdCliRegister
  | testRun tests name category answers => exact TestEngine.keeps_spdTestRun

/-- The registry without commands. -/
def noCommands : Cli.Registry := ⟨fun _ => ⟨[], none, 0, 0, none⟩, []⟩

/-- Entered without the lock, each of the four returns with it held: on an empty queue, for a first
    command and on an empty list of tests. -/
theorem keepsLock_empty :
    ¬ Op.KeepsLock 0 (.schedWait Sched.spdSchedContextCreate ⟨0, 0⟩) ∧
    ¬ Op.KeepsLock 0 (.schedRunall Sched.spdSchedContextCreate []) ∧
    ¬ Op.KeepsLock 0 (.cliRegister noCommands 0 ⟨some (lit "show"), true, true⟩) ∧
    (∀ answers, ¬ Op.KeepsLock 0 (.testRun [] none none answers)) ∧
    ¬ ∀ d o, Op.KeepsLock d o := by
  have hwait : ¬ Op.KeepsLock 0 (.schedWait Sched.spdSchedContextCreate ⟨0, 0⟩) := by
    rintro ⟨d, hdepth, hreturns⟩
    have hd := hreturns _ rfl
    subst hd
    exact absurd hdepth (by decide)
  refine ⟨hwait, ?_, ?_, ?_, fun h => hwait (h _ _)⟩
  · intro h
    have hone := (Sched.Locking.keeps_spdSchedRunall.mp h).2 rfl
    exact absurd hone (by decide)
  · intro h
    rcases Cli.keeps_spdCliRegister.mp h with h | h | h | h
    · cases h
    · obtain ⟨command, hcommand, hfound⟩ := h
      cases hcommand
      exact absurd hfound (by decide +kernel)
    · cases h
    · obtain ⟨command, hcommand, e, hfull, pre, cur, rest, hentrys, hlost⟩ := h
      cases pre <;> cases hentrys
  · intro answers h
    exact TestEngine.keeps_spdTestRun.mp h 0 rfl (Nat.dvd_zero _)

end Spider.Locks
