import Spider.TestEngine

/-!
# What a test run counts

`spd_test_run` takes its mode from the two arguments. The mode it takes for a
category alone compares names and the one it takes with a name compares none;
and the test of a result for failure stores one.
-/

namespace Spider.TestEngine

open Lib Outcome CString Strings Locked Call

open Result TestType

/-- What the loop leaves, with the numbers of the tests whose callbacks it has called. -/
structure Ran where
  results : Results
  tests : List SpdTest
  called : List Nat

/-- The loop of `spd_test_run` (`test_engine.c:256-297`) with the callbacks it calls, and without
    its lock. -/
def ranLoop (mode : TestType) (name category : Option CString) (answers : Nat → Answer) :
    Nat → Results → List SpdTest → Outcome Ran
  | _, r, [] => .ok ⟨r, [], []⟩
  | i, r, test :: tests => do
    let run ← selects mode name category test
    let (r, test) := runTest run r test (answers i)
    let ran ← ranLoop mode name category answers (i + 1) r tests
    .ok ⟨ran.results, test :: ran.tests, if run then i :: ran.called else ran.called⟩

def ranTests (name category : Option CString) (answers : Nat → Answer) (tests : List SpdTest) :
    Outcome Ran :=
  ranLoop (runMode name category) name category answers 0 ⟨0, 0, 0, 0, 0, 0, 0⟩ tests

/-- A test of the category, if one is given, with the name, if one is given. -/
def Wanted (name category : Option CString) (test : SpdTest) : Prop :=
  category.getD [] <+: test.category ∧ (spdStrlenZero name = true ∨ name = some test.name)

instance (name category : Option CString) (test : SpdTest) :
    Decidable (Wanted name category test) :=
  inferInstanceAs (Decidable (_ ∧ _))

/-- The numbers, from `i` on, of the tests that satisfy `p`. -/
def numbers (p : SpdTest → Bool) (i : Nat) (tests : List SpdTest) : List Nat :=
  ((tests.zipIdx i).filter fun x => p x.1).map Prod.snd

/-- How many of the callbacks called returned `result`. -/
def Ran.returned (ran : Ran) (answers : Nat → Answer) (result : Result) : Nat :=
  ran.called.countP fun i => (answers i).result = result

/-- How many of the tests have `result` stored. -/
def Ran.stored (ran : Ran) (result : Result) : Nat :=
  ran.tests.countP fun test => test.result = result

/-- The tests wanted have been run, each once, and are counted. -/
structure Ran.Counted (ran : Ran) (name category : Option CString) (answers : Nat → Answer)
    (tests : List SpdTest) : Prop where
  called : ran.called = numbers (fun test => Wanted name category test) 0 tests
  lastPassed : ran.results.lastPassed.toNat = ran.returned answers TEST_RESULT_PASS
  lastFailed : ran.results.lastFailed.toNat = ran.returned answers TEST_RESULT_FAILED
  totalTests : ran.results.totalTests.toNat = tests.length
  totalPassed : ran.results.totalPassed.toNat = ran.stored TEST_RESULT_PASS
  totalFailed : ran.results.totalFailed.toNat = ran.stored TEST_RESULT_FAILED
  notRun : ∀ i ∈ ran.called, (answers i).result = TEST_RESULT_NOT_RUN →
    ∀ test, ran.tests[i]? = some test → test.result = TEST_RESULT_NOT_RUN

/-- `spd_test_run` returns, having run and counted the tests wanted. -/
def AsDocumented (name category : Option CString) (answers : Nat → Answer)
    (tests : List SpdTest) : Prop :=
  ∃ ran, ranTests name category answers tests = .ok ran ∧
    (spdTestRun name category answers tests).outcome =
      .ok (ran.results.totalPassed + ran.results.totalFailed, ran.results, ran.tests) ∧
    ran.Counted name category answers tests

section

variable {i : Nat} {mode : TestType} {name category : Option CString} {answers : Nat → Answer}
  {r : Results} {tests : List SpdTest} {test : SpdTest} {run : SpdTest → Bool}

/-! ## The calls of the callbacks -/

/-- The loop with the lock does the same. -/
theorem outcome_runLoop : (runLoop mode name category answers i r tests).outcome =
    ranLoop mode name category answers i r tests >>= fun ran => .ok (ran.results, ran.tests) := by
  induction tests generalizing i r with
  | nil => rfl
  | cons test tests ih =>
    rw [runLoop, ranLoop]
    simp only [Call.outcome_bind, access, outcome_emit, ok_bind, outcome_lift, Outcome.bind_assoc,
      ih]
    rfl

theorem outcome_spdTestRun : (spdTestRun name category answers tests).outcome =
    ranTests name category answers tests >>= fun ran =>
      .ok (ran.results.totalPassed + ran.results.totalFailed, ran.results, ran.tests) := by
  rw [spdTestRun, Call.outcome_bind, lock, outcome_emit, ok_bind, Call.outcome_bind,
    outcome_runLoop, Outcome.bind_assoc, ranTests]
  congr 1
  funext ran
  rw [ok_bind]
  dsimp only
  split
  · rfl
  · rfl

/-! ## The tests that are run -/

theorem mem_numbers_zero {j : Nat} :
    j ∈ numbers run 0 tests ↔ ∃ test, tests[j]? = some test ∧ run test = true := by
  simp [numbers, List.mem_zipIdx_iff_getElem?]

/-- The numbers say which tests satisfy the predicate. -/
theorem eq_of_numbers_eq {run' : SpdTest → Bool} (h : numbers run 0 tests = numbers run' 0 tests) :
    ∀ test ∈ tests, run test = run' test := by
  intro test htest
  obtain ⟨j, hj⟩ := List.mem_iff_getElem?.mp htest
  have hmem : ∀ p : SpdTest → Bool, j ∈ numbers p 0 tests ↔ p test = true := by
    intro p
    rw [mem_numbers_zero, hj]
    constructor
    · rintro ⟨test', htest', hp⟩
      rw [Option.some.inj htest']
      exact hp
    · intro hp
      exact ⟨test, rfl, hp⟩
  rw [Bool.eq_iff_iff, ← hmem run, ← hmem run', h]

theorem numbers_cons (p : SpdTest → Bool) (i : Nat) (test : SpdTest) (tests : List SpdTest) :
    numbers p i (test :: tests) =
      if p test then i :: numbers p (i + 1) tests else numbers p (i + 1) tests := by
  unfold numbers
  rw [List.zipIdx_cons, List.filter_cons]
  split
  · rfl
  · rfl

theorem length_numbers_le : (numbers run i tests).length ≤ tests.length := by
  unfold numbers
  rw [List.length_map]
  exact Nat.le_trans (List.length_filter_le _ _) (Nat.le_of_eq List.length_zipIdx)

theorem spdTestCategoryCmp_eq_zero_iff {cat1 cat2 : CString} :
    spdTestCategoryCmp cat1 cat2 = 0 ↔ cat2 <+: cat1 := by
  unfold spdTestCategoryCmp
  rw [List.prefix_iff_eq_take]
  split
  next hlt =>
    constructor
    · intro h
      exact absurd h (by decide)
    · intro h
      have hlen := congrArg List.length h
      rw [List.length_take] at hlen
      omega
  next hle =>
    split
    next heq => exact ⟨fun _ => heq.symm, fun _ => rfl⟩
    next hne => exact ⟨fun h => absurd h (by decide), fun h => absurd h.symm hne⟩

theorem getD_of_spdStrlenZero {s : Option CString} (h : spdStrlenZero s = true) :
    s.getD [] = [] := by
  cases s with
  | none => rfl
  | some s => exact List.isEmpty_iff.mp h

/-- A test is run as wanted when nothing is asked for, or when it has the name if it is of the
    category. -/
theorem selects_wanted_iff : selects (runMode name category) name category test =
      .ok (decide (Wanted name category test)) ↔
    (spdStrlenZero name = true ∧ spdStrlenZero category = true) ∨
      (category.getD [] <+: test.category → name = some test.name) := by
  unfold runMode
  cases hcategory : spdStrlenZero category with
  | true =>
    have hstarts : category.getD [] <+: test.category := by
      rw [getD_of_spdStrlenZero hcategory]
      exact List.nil_prefix
    show Outcome.ok true = .ok (decide (Wanted name category test)) ↔ _
    rw [Outcome.ok.injEq, eq_comm, decide_eq_true_iff]
    constructor
    · rintro ⟨-, hzero | heq⟩
      · exact Or.inl ⟨hzero, rfl⟩
      · exact Or.inr fun _ => heq
    · rintro (⟨hzero, -⟩ | hall)
      · exact ⟨hstarts, Or.inl hzero⟩
      · exact ⟨hstarts, Or.inr (hall hstarts)⟩
  | false =>
    have hzero : ¬ (spdStrlenZero name = true ∧ false = true) := fun h => absurd h.2 nofun
    rw [or_iff_right hzero]
    by_cases hstarts : category.getD [] <+: test.category
    · have hcmp := spdTestCategoryCmp_eq_zero_iff.mpr hstarts
      cases hname : spdStrlenZero name with
      | true =>
        have hwanted : Wanted name category test := ⟨hstarts, Or.inl hname⟩
        show (if spdTestCategoryCmp test.category (category.getD []) = 0 then _ else _) = _ ↔ _
        rw [if_pos hcmp, decide_eq_true hwanted]
        cases name with
        | none => exact ⟨nofun, fun h => absurd (h hstarts) nofun⟩
        | some n =>
          rw [Outcome.ok.injEq, decide_eq_true_iff]
          exact ⟨fun h _ => congrArg some h.symm, fun h => (Option.some.inj (h hstarts)).symm⟩
      | false =>
        show Outcome.ok (decide (spdTestCategoryCmp test.category (category.getD []) = 0)) = _ ↔ _
        rw [decide_eq_true hcmp, Outcome.ok.injEq, eq_comm, decide_eq_true_iff]
        constructor
        · rintro ⟨-, hempty | heq⟩ _
          · rw [hname] at hempty
            exact absurd hempty nofun
          · exact heq
        · intro h
          exact ⟨hstarts, Or.inr (h hstarts)⟩
    · -- a test of another category is not run and not wanted
      have hcmp := mt spdTestCategoryCmp_eq_zero_iff.mp hstarts
      have hwanted : ¬ Wanted name category test := fun h => hstarts h.1
      have hright : category.getD [] <+: test.category → name = some test.name :=
        fun h => absurd h hstarts
      rw [decide_eq_false hwanted, iff_true_right hright]
      cases spdStrlenZero name with
      | true =>
        show (if spdTestCategoryCmp test.category (category.getD []) = 0 then _ else _) = _
        rw [if_neg hcmp]
      | false =>
        show Outcome.ok (decide (spdTestCategoryCmp test.category (category.getD []) = 0)) = _
        rw [decide_eq_false hcmp]

theorem forall_selects_wanted_iff :
    (∀ test ∈ tests, selects (runMode name category) name category test =
      .ok (decide (Wanted name category test))) ↔
    (spdStrlenZero name = true ∧ spdStrlenZero category = true) ∨
      ∀ test ∈ tests, category.getD [] <+: test.category → name = some test.name := by
  simp only [selects_wanted_iff]
  by_cases hzero : spdStrlenZero name = true ∧ spdStrlenZero category = true
  · simp only [hzero, and_self, true_or, implies_true]
  · simp only [hzero, false_or]

/-! ## The counts -/

/-- What the loop has added to the results by the time it ends. A result that is not a pass counts
    as a failure. -/
structure Ran.Tallied (ran : Ran) (run : SpdTest → Bool) (answers : Nat → Answer) (i : Nat)
    (r : Results) (tests : List SpdTest) : Prop where
  called : ran.called = numbers run i tests
  length : ran.tests.length = tests.length
  lastPassed : ran.results.lastPassed =
    r.lastPassed + UInt32.ofNat (ran.returned answers TEST_RESULT_PASS)
  lastFailed : ran.results.lastFailed = r.lastFailed +
    UInt32.ofNat (ran.called.countP fun i => (answers i).result ≠ TEST_RESULT_PASS)
  totalTests : ran.results.totalTests = r.totalTests + UInt32.ofNat tests.length
  totalPassed : ran.results.totalPassed = r.totalPassed + UInt32.ofNat (ran.stored TEST_RESULT_PASS)
  totalFailed : ran.results.totalFailed =
    r.totalFailed + UInt32.ofNat (ran.stored TEST_RESULT_FAILED)

theorem last_runTest_counts (run : Bool) (r : Results) (test : SpdTest) (answer : Answer) :
    (runTest run r test answer).1.lastPassed = r.lastPassed +
      UInt32.ofNat (if run = true ∧ answer.result = TEST_RESULT_PASS then 1 else 0) ∧
    (runTest run r test answer).1.lastFailed = r.lastFailed +
      UInt32.ofNat (if run = true ∧ answer.result ≠ TEST_RESULT_PASS then 1 else 0) := by
  obtain ⟨result, howlong⟩ := answer
  obtain ⟨category, name, stored, time⟩ := test
  cases run <;> cases result <;> cases stored <;>
    simp [runTest, countRun, countTest, runOne]

theorem total_runTest_counts (run : Bool) (r : Results) (test : SpdTest) (answer : Answer) :
    (runTest run r test answer).1.totalTests = r.totalTests + 1 ∧
    (runTest run r test answer).1.totalPassed = r.totalPassed + UInt32.ofNat
      (if (runTest run r test answer).2.result = TEST_RESULT_PASS then 1 else 0) ∧
    (runTest run r test answer).1.totalFailed = r.totalFailed + UInt32.ofNat
      (if (runTest run r test answer).2.result = TEST_RESULT_FAILED then 1 else 0) := by
  obtain ⟨result, howlong⟩ := answer
  obtain ⟨category, name, stored, time⟩ := test
  cases run <;> cases result <;> cases stored <;>
    simp [runTest, countRun, countTest, runOne]

/-- One more counted before what has been counted. -/
theorem ofNat_count_cons (a : UInt32) (n m : Nat) :
    a + UInt32.ofNat n + UInt32.ofNat m = a + UInt32.ofNat (m + n) := by
  rw [UInt32.add_assoc, ← UInt32.ofNat_add, Nat.add_comm n m]

theorem countP_called (p : Nat → Bool) (run : Bool) (i : Nat) (called : List Nat) :
    (if run then i :: called else called).countP p =
      called.countP p + if run = true ∧ p i = true then 1 else 0 := by
  cases run with
  | false => simp
  | true => simp [List.countP_cons]

theorem ranLoop_tallied (h : ∀ test ∈ tests, selects mode name category test = .ok (run test)) :
    ∃ ran, ranLoop mode name category answers i r tests = .ok ran ∧
      ran.Tallied run answers i r tests := by
  induction tests generalizing i r with
  | nil =>
    refine ⟨_, rfl, ?_⟩
    constructor
    all_goals simp [numbers, Ran.returned, Ran.stored]
  | cons test tests ih =>
    obtain ⟨ran, hran, htallied⟩ := @ih (i + 1) (runTest (run test) r test (answers i)).1
      fun test' htest' => h test' (List.mem_cons_of_mem test htest')
    have hlast := last_runTest_counts (run test) r test (answers i)
    have htotal := total_runTest_counts (run test) r test (answers i)
    refine ⟨⟨ran.results, (runTest (run test) r test (answers i)).2 :: ran.tests,
      if run test then i :: ran.called else ran.called⟩, ?_, ?_⟩
    · rw [ranLoop, h test List.mem_cons_self, ok_bind]
      dsimp only
      rw [hran, ok_bind]
    · constructor
      case called =>
        dsimp only
        rw [numbers_cons, htallied.called]
      case length => exact congrArg (· + 1) htallied.length
      case lastPassed =>
        dsimp only
        rw [htallied.lastPassed, hlast.1, ofNat_count_cons, Ran.returned, Ran.returned,
          countP_called]
        simp only [decide_eq_true_eq]
      case lastFailed =>
        dsimp only
        rw [htallied.lastFailed, hlast.2, ofNat_count_cons, countP_called]
        simp only [decide_eq_true_eq]
      case totalTests =>
        dsimp only
        rw [htallied.totalTests, htotal.1, List.length_cons]
        exact ofNat_count_cons _ 1 _
      case totalPassed =>
        dsimp only
        rw [htallied.totalPassed, htotal.2.1, ofNat_count_cons, Ran.stored, Ran.stored,
          List.countP_cons]
        simp only [decide_eq_true_eq]
      case totalFailed =>
        dsimp only
        rw [htallied.totalFailed, htotal.2.2, ofNat_count_cons, Ran.stored, Ran.stored,
          List.countP_cons]
        simp only [decide_eq_true_eq]

/-- When it returns, every test has been compared. -/
theorem selects_of_ranLoop {ran : Ran}
    (h : ranLoop mode name category answers i r tests = .ok ran) :
    ∀ test ∈ tests, ∃ run, selects mode name category test = .ok run := by
  induction tests generalizing i r ran with
  | nil => exact fun test htest => absurd htest List.not_mem_nil
  | cons test tests ih =>
    obtain ⟨run, hrun, hrest⟩ := Outcome.bind_eq_ok.mp h
    obtain ⟨ran', hran', -⟩ := Outcome.bind_eq_ok.mp hrest
    intro test' htest'
    rcases List.mem_cons.mp htest' with rfl | htest'
    · exact ⟨run, hrun⟩
    · exact ih hran' test' htest'

/-! ## The run -/

theorem toNat_zero_add_ofNat {n m : Nat} (hn : n ≤ m) (hm : m < 2 ^ 32) :
    ((0 : UInt32) + UInt32.ofNat n).toNat = n := by
  rw [UInt32.zero_add]
  exact UInt32.toNat_ofNat_of_lt' (Nat.lt_of_le_of_lt hn hm)

theorem Ran.returned_ne_pass (ran : Ran) (answers : Nat → Answer) :
    (ran.called.countP fun i => (answers i).result ≠ TEST_RESULT_PASS) =
      ran.returned answers TEST_RESULT_FAILED + ran.returned answers TEST_RESULT_NOT_RUN := by
  unfold Ran.returned
  induction ran.called with
  | nil => rfl
  | cons i called ih =>
    simp only [List.countP_cons, ih]
    cases (answers i).result <;> simp <;> omega

/-- What fewer than 2^32 tests leave in the results. -/
theorem Ran.Tallied.counts {ran : Ran} (h : ran.Tallied run answers 0 ⟨0, 0, 0, 0, 0, 0, 0⟩ tests)
    (hlength : tests.length < 2 ^ 32) :
    ran.results.lastPassed.toNat = ran.returned answers TEST_RESULT_PASS ∧
    ran.results.lastFailed.toNat =
      ran.returned answers TEST_RESULT_FAILED + ran.returned answers TEST_RESULT_NOT_RUN ∧
    ran.results.totalTests.toNat = tests.length ∧
    ran.results.totalPassed.toNat = ran.stored TEST_RESULT_PASS ∧
    ran.results.totalFailed.toNat = ran.stored TEST_RESULT_FAILED := by
  have hcalled : ran.called.length ≤ tests.length := by
    rw [h.called]
    exact length_numbers_le
  have hpassed : ran.returned answers TEST_RESULT_PASS ≤ tests.length :=
    Nat.le_trans List.countP_le_length hcalled
  have hfailed : (ran.called.countP fun i => (answers i).result ≠ TEST_RESULT_PASS) ≤
      tests.length := Nat.le_trans List.countP_le_length hcalled
  have hstored : ∀ result, ran.stored result ≤ tests.length :=
    fun result => h.length ▸ List.countP_le_length
  rw [h.lastPassed, h.lastFailed, h.totalTests, h.totalPassed, h.totalFailed]
  refine ⟨toNat_zero_add_ofNat hpassed hlength, ?_, toNat_zero_add_ofNat (Nat.le_refl _) hlength,
    toNat_zero_add_ofNat (hstored _) hlength, toNat_zero_add_ofNat (hstored _) hlength⟩
  rw [← ran.returned_ne_pass answers]
  exact toNat_zero_add_ofNat hfailed hlength

theorem Ran.returned_eq_zero_iff {ran : Ran} {result : Result} :
    ran.returned answers result = 0 ↔ ∀ i ∈ ran.called, (answers i).result ≠ result := by
  rw [Ran.returned, List.countP_eq_zero]
  simp only [decide_eq_true_eq, ne_eq]

end

/-- `spd_test_run` does what is documented exactly when its counters hold the number of tests, the
    tests of the category all have the name that is given, and no test wanted returns that it has
    not been run. -/
theorem spdTestRun_documented_iff (name category : Option CString) (answers : Nat → Answer)
    (tests : List SpdTest) : AsDocumented name category answers tests ↔
      tests.length < 2 ^ 32 ∧
      ((spdStrlenZero name = true ∧ spdStrlenZero category = true) ∨
        ∀ test ∈ tests, category.getD [] <+: test.category → name = some test.name) ∧
      ∀ i test, tests[i]? = some test → Wanted name category test →
        (answers i).result ≠ TEST_RESULT_NOT_RUN := by
  have hmem : ∀ {i}, i ∈ numbers (fun test => Wanted name category test) 0 tests ↔
      ∃ test, tests[i]? = some test ∧ Wanted name category test := by
    intro i
    rw [mem_numbers_zero]
    simp only [decide_eq_true_eq]
  rw [← forall_selects_wanted_iff]
  constructor
  · rintro ⟨ran, hran, -, hcounted⟩
    -- what has been run is what each comparison said
    obtain ⟨run, hrun⟩ : ∃ run : SpdTest → Bool, ∀ test ∈ tests,
        selects (runMode name category) name category test = .ok (run test) := by
      have hselects := selects_of_ranLoop hran
      refine ⟨fun test => selects (runMode name category) name category test = .ok true, ?_⟩
      intro test htest
      obtain ⟨b, hb⟩ := hselects test htest
      simp only [hb, Outcome.ok.injEq, Bool.decide_eq_true]
    obtain ⟨ran', hran', htallied⟩ := ranLoop_tallied hrun
    obtain rfl := Outcome.ok.inj (hran.symm.trans hran')
    have hwanted := eq_of_numbers_eq (htallied.called.symm.trans hcounted.called)
    have hlength : tests.length < 2 ^ 32 := by
      rw [← hcounted.totalTests]
      exact UInt32.toNat_lt _
    refine ⟨hlength, ?_, ?_⟩
    · intro test htest
      rw [hrun test htest, hwanted test htest]
    · intro i test htest hw
      have hfailed := (htallied.counts hlength).2.1
      have hlast := hcounted.lastFailed
      have hnone : ran.returned answers TEST_RESULT_NOT_RUN = 0 := by omega
      apply Ran.returned_eq_zero_iff.mp hnone
      rw [hcounted.called]
      exact hmem.mpr ⟨test, htest, hw⟩
  · rintro ⟨hlength, hselects, hnotRun⟩
    obtain ⟨ran, hran, htallied⟩ : ∃ ran, ranTests name category answers tests = .ok ran ∧ _ :=
      ranLoop_tallied hselects
    have hcounts := htallied.counts hlength
    have hran' : ∀ i ∈ ran.called, (answers i).result ≠ TEST_RESULT_NOT_RUN := by
      intro i hi
      rw [htallied.called] at hi
      obtain ⟨test, htest, hw⟩ := hmem.mp hi
      exact hnotRun i test htest hw
    refine ⟨ran, hran, ?_, ?_⟩
    · rw [outcome_spdTestRun, hran, ok_bind]
    · constructor
      case called => exact htallied.called
      case lastPassed => exact hcounts.1
      case lastFailed =>
        rw [hcounts.2.1, Ran.returned_eq_zero_iff.mpr hran']
        rfl
      case totalTests => exact hcounts.2.2.1
      case totalPassed => exact hcounts.2.2.2.1
      case totalFailed => exact hcounts.2.2.2.2
      case notRun => exact fun i hi hnot => absurd hnot (hran' i hi)

/-- Two tests of a category, and one of another. -/
def threeTests : List SpdTest :=
  [⟨lit "/a/", lit "one", TEST_RESULT_NOT_RUN, 0⟩, ⟨lit "/a/b/", lit "two", TEST_RESULT_NOT_RUN, 0⟩,
    ⟨lit "/c/", lit "one", TEST_RESULT_NOT_RUN, 0⟩]

/-- Asked for the tests of `/a/`, `spd_test_run` compares a name with a null pointer; asked for the
    one named `two` it runs both; asked for all it counts those that return that they have not
    been run as failed. -/
theorem spdTestRun_undocumented :
    (∀ answers, (spdTestRun none (some (lit "/a/")) answers threeTests).outcome = .fault) ∧
    (∃ ran, ranTests (some (lit "two")) (some (lit "/a/")) (fun _ => ⟨TEST_RESULT_PASS, 0⟩)
      threeTests = .ok ran ∧ ran.called = [0, 1]) ∧
    (∃ ran, ranTests none none (fun _ => ⟨TEST_RESULT_NOT_RUN, 0⟩) threeTests = .ok ran ∧
      ran.results.lastFailed = 3 ∧ ran.results.totalFailed = 3) ∧
    ¬ ∀ name category answers tests, AsDocumented name category answers tests := by
  have hfault : ∀ answers, (spdTestRun none (some (lit "/a/")) answers threeTests).outcome =
      .fault := fun answers => rfl
  refine ⟨hfault, ⟨_, rfl, by decide +kernel⟩, ⟨_, rfl, by decide +kernel, by decide +kernel⟩, ?_⟩
  intro h
  obtain ⟨ran, -, houtcome, -⟩ :=
    h none (some (lit "/a/")) (fun _ => ⟨TEST_RESULT_PASS, 0⟩) threeTests
  rw [hfault] at houtcome
  exact absurd houtcome nofun

end Spider.TestEngine
