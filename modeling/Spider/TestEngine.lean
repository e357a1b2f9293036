import Spider.Lib.Locked
import Spider.Strings

/-!
# The test engine

`spd_test_run` runs the registered tests that a name and a category select and
counts their results. What a test returns, and how long it takes, is given with
the call.
-/

namespace Spider.TestEngine

open Lib Outcome CString Strings Locked Call

/-- `enum spd_test_result`. -/
inductive Result where
  | TEST_RESULT_NOT_RUN
  | TEST_RESULT_PASS
  | TEST_RESULT_FAILED
  deriving DecidableEq, Repr

open Result

/-- `struct spd_test`, what running it uses. -/
structure SpdTest where
  category : CString
  name : CString
  result : Result
  howlong : UInt32
  deriving DecidableEq, Repr

/-- `struct spd_test_execute_results` (`test_engine.c:48-56`). -/
structure Results where
  totalTests : UInt32
  totalPassed : UInt32
  totalFailed : UInt32
  totalTime : UInt32
  lastPassed : UInt32
  lastFailed : UInt32
  lastTime : UInt32
  deriving DecidableEq, Repr

/-- `enum test_type`. -/
inductive TestType where
  | TEST_NAME
  | TEST_CATEGORY
  | TEST_ALL
  deriving DecidableEq, Repr

open TestType

/-- What the callback of a test returns when it is run, and the time it takes. -/
structure Answer where
  result : Result
  howlong : UInt32

/-- `spd_test_category_cmp` (`test_engine.c:205-222`), for two strings. -/
def spdTestCategoryCmp (cat1 cat2 : CString) : Int32 :=
  if cat2.length > cat1.length then -1
  else if cat1.take cat2.length = cat2 then 0 else 1

/-- `run_one` (`test_engine.c:224-236`). -/
def runOne (test : SpdTest) (answer : Answer) : SpdTest :=
  { test with result := answer.result, howlong := answer.howlong }

/-- The mode (`test_engine.c:245-251`). -/
def runMode (name category : Option CString) : TestType :=
  if !spdStrlenZero category then if spdStrlenZero name then TEST_NAME else TEST_CATEGORY
  else TEST_ALL

/-- Whether a test is run (`test_engine.c:258-273`). -/
def selects (mode : TestType) (name category : Option CString) (test : SpdTest) : Outcome Bool :=
  let category := category.getD []
  match mode with
  | TEST_CATEGORY => .ok (spdTestCategoryCmp test.category category = 0)
  | TEST_NAME =>
    if spdTestCategoryCmp test.category category = 0 then
      match name with
      | none => .fault
      | some name => .ok (test.name = name)
    else .ok false
  | TEST_ALL => .ok true

/-- Counting a test that was run (`test_engine.c:280-285`). The second condition is an
    assignment. -/
def countRun (r : Results) (test : SpdTest) : Results × SpdTest :=
  let r := { r with lastTime := r.lastTime + test.howlong }
  if test.result = TEST_RESULT_PASS then ({ r with lastPassed := r.lastPassed + 1 }, test)
  else ({ r with lastFailed := r.lastFailed + 1 }, { test with result := TEST_RESULT_FAILED })

/-- Counting every test (`test_engine.c:288-296`). -/
def countTest (r : Results) (test : SpdTest) : Results :=
  let r := { r with totalTime := r.totalTime + test.howlong, totalTests := r.totalTests + 1 }
  if test.result ≠ TEST_RESULT_NOT_RUN then
    if test.result = TEST_RESULT_PASS then { r with totalPassed := r.totalPassed + 1 }
    else { r with totalFailed := r.totalFailed + 1 }
  else r

/-- One test of the loop, run or not. -/
def runTest (run : Bool) (r : Results) (test : SpdTest) (answer : Answer) : Results × SpdTest :=
  let (r, test) := if run then countRun r (runOne test answer) else (r, test)
  (countTest r test, test)

/-- The loop of `spd_test_run` (`test_engine.c:256-297`), from test number `i` on; the list has the
    lock. -/
def runLoop (mode : TestType) (name category : Option CString) (answers : Nat → Answer) :
    Nat → Results → List SpdTest → Call (Results × List SpdTest)
  | _, r, [] => do
    access
    pure (r, [])
  | i, r, test :: tests => do
    access
    let run ← lift (selects mode name category test)
    let (r, test) := runTest run r test (answers i)
    let (r, tests) ← runLoop mode name category answers (i + 1) r tests
    pure (r, test :: tests)

/-- `spd_test_run` (`test_engine.c:238-315`): its result, `last_results` and the list
    afterwards. -/
def spdTestRun (name category : Option CString) (answers : Nat → Answer) (tests : List SpdTest) :
    Call (UInt32 × Results × List SpdTest) := do
  lock
  let (r, tests) ←
    runLoop (runMode name category) name category answers 0 ⟨0, 0, 0, 0, 0, 0, 0⟩ tests
  let ret := r.totalPassed + r.totalFailed
  if r.lastPassed + r.lastFailed = 0 then pure (ret, r, tests)
  else do
    unlock
    pure (ret, r, tests)

/-- How many tests are run, unless the name of one is compared with a null pointer. -/
def selected (mode : TestType) (name category : Option CString) : List SpdTest → Outcome Nat
  | [] => .ok 0
  | test :: tests => do
    let run ← selects mode name category test
    let n ← selected mode name category tests
    .ok (if run then n + 1 else n)

section

variable {d e i : Nat} {mode : TestType} {name category : Option CString}
  {answers : Nat → Answer} {r : Results} {tests : List SpdTest}

/-- The sum that tells whether a test was run. -/
def Results.last (r : Results) : UInt32 := r.lastPassed + r.lastFailed

/-- Every test that is run is counted as passed or failed. -/
theorem last_countRun (r : Results) (test : SpdTest) : (countRun r test).1.last = r.last + 1 := by
  unfold countRun
  split
  · show r.lastPassed + 1 + r.lastFailed = r.lastPassed + r.lastFailed + 1
    grind
  · show r.lastPassed + (r.lastFailed + 1) = r.lastPassed + r.lastFailed + 1
    grind

theorem last_countTest (r : Results) (test : SpdTest) : (countTest r test).last = r.last := by
  unfold countTest
  split
  · split <;> rfl
  · rfl

theorem last_runTest (run : Bool) (r : Results) (test : SpdTest) (answer : Answer) :
    (runTest run r test answer).1.last = r.last + UInt32.ofNat (if run then 1 else 0) := by
  cases run with
  | false => exact (last_countTest r test).trans (UInt32.add_zero _).symm
  | true => exact (last_countTest _ _).trans (last_countRun r _)

/-- The loop only accesses the list. -/
theorem ends_runLoop (hd : 0 < d) : Ends d d (runLoop mode name category answers i r tests) := by
  induction tests generalizing i r with
  | nil => simp [runLoop, hd]
  | cons test tests ih =>
    simp only [runLoop, ends_access_bind, ends_lift_bind]
    refine ⟨hd, ?_⟩
    intro run _
    exact (ends_bind_pure _).mpr ih

/-- It returns when no null pointer is compared, and counts the tests that are run. -/
theorem runLoop_outcome : (∀ n, selected mode name category tests = .ok n →
      ∃ v, (runLoop mode name category answers i r tests).outcome = .ok v ∧
        v.1.last = r.last + UInt32.ofNat n) ∧
    ((∀ n, selected mode name category tests ≠ .ok n) →
      ∀ v, (runLoop mode name category answers i r tests).outcome ≠ .ok v) := by
  induction tests generalizing i r with
  | nil => simp [runLoop, selected, access]
  | cons test tests ih =>
    cases hrun : selects mode name category test with
    | ok run =>
      obtain ⟨hret, hne⟩ := @ih (i + 1) (runTest run r test (answers i)).1
      constructor
      · intro n hn
        rw [selected, hrun, ok_bind] at hn
        obtain ⟨m, hm, hn⟩ := bind_eq_ok.mp hn
        obtain ⟨v, hv, hsum⟩ := hret m hm
        refine ⟨(v.1, (runTest run r test (answers i)).2 :: v.2), ?_, ?_⟩
        · simp [runLoop, access, hrun, hv]
        · rw [hsum, last_runTest, ← Outcome.ok.inj hn]
          cases run with
          | false => simp
          | true =>
            simp [UInt32.ofNat_add]
            grind
      · intro hn v hv
        simp only [runLoop, access, Call.outcome_bind, outcome_emit, ok_bind, outcome_lift,
          hrun] at hv
        obtain ⟨v', hv', -⟩ := bind_eq_ok.mp hv
        refine hne ?_ v' hv'
        intro m hm
        apply hn (if run then m + 1 else m)
        rw [selected, hrun, ok_bind, hm, ok_bind]
    | fault => simp [runLoop, selected, access, hrun]
    | overflow => simp [runLoop, selected, access, hrun]
    | timeout => simp [runLoop, selected, access, hrun]

/-- `spd_test_run` gives the lock back exactly when it has run a test. -/
theorem keeps_spdTestRun : Keeps d (spdTestRun name category answers tests) ↔
    ∀ n, selected (runMode name category) name category tests = .ok n → ¬ 2 ^ 32 ∣ n := by
  obtain ⟨hret, hne⟩ := @runLoop_outcome 0 (runMode name category) name category answers
    ⟨0, 0, 0, 0, 0, 0, 0⟩ tests
  have hloop := @ends_runLoop (d + 1) 0 (runMode name category) name category answers
    ⟨0, 0, 0, 0, 0, 0, 0⟩ tests (Nat.succ_pos d)
  rw [Keeps, spdTestRun, ends_lock_bind]
  by_cases hn : ∃ n, selected (runMode name category) name category tests = .ok n
  · obtain ⟨n, hn⟩ := hn
    obtain ⟨v, hv, hlast⟩ := hret n hn
    rw [ends_bind_of_ok hloop hv, hn]
    simp only [Outcome.ok.injEq, forall_eq']
    have hzero : v.1.lastPassed + v.1.lastFailed = 0 ↔ 2 ^ 32 ∣ n := by
      have hsum : v.1.lastPassed + v.1.lastFailed = UInt32.ofNat n :=
        hlast.trans (UInt32.zero_add _)
      rw [hsum, ← UInt32.toNat_inj, UInt32.toNat_ofNat, Nat.dvd_iff_mod_eq_zero]
      rfl
    rw [← hzero]
    by_cases h0 : v.1.lastPassed + v.1.lastFailed = 0 <;> simp [h0]
  · push Not at hn
    simp only [hn, false_implies, implies_true, iff_true]
    exact hloop.bind_of_ne_ok (hne hn)

end

end Spider.TestEngine
