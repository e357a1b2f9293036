import Spider.LinkedList.SortAlpha
import Spider.LinkedList.Traverse

/-!
# The registry of tests

`spd_test_insert` and `spd_test_remove` on `spd_test_list`, which is kept sorted
by category. Beside it a run keeps what the calls were for: the tests that were
inserted and not removed, the latest first, as they were made.
-/

namespace Spider.TestEngine.Registry

open Lib Outcome CString LinkedList

variable {τ γ : Type} [DecidableEq τ] [DecidableEq γ]

/-- `struct spd_test`, what the registry reads of it. -/
structure SpdTest (γ : Type) where
  category : CString
  callback : γ

/-- `spd_test_list` and the tests. -/
structure TestList (τ γ : Type) where
  nodes : Nodes Unit τ
  test : τ → SpdTest γ

/-- No test is registered. -/
def TestList.empty (test : τ → SpdTest γ) : TestList τ γ :=
  ⟨⟨⟨fun _ => none, fun _ => {}⟩, ∅⟩, test⟩

/-- What `spd_test_create` (`test_engine.c:139-177`) makes of the memory at `t`. -/
def spdTestCreate (s : TestList τ γ) (t : τ) (test : SpdTest γ) : TestList τ γ :=
  { nodes := ⟨s.nodes.mem.setNext t none, s.nodes.freed.erase t⟩
    test := Function.update s.test t test }

/-- `spd_test_insert` (`test_engine.c:179-186`). -/
def spdTestInsert (fuel : Nat) (s : TestList τ γ) (t : τ) : Outcome (TestList τ γ) := do
  let mem ← spdListInsertSortalpha fuel s.nodes.mem () (fun t => (s.test t).category) t
  .ok { s with nodes := { s.nodes with mem := mem } }

/-- The body of the loop of `spd_test_remove`. -/
def removeBody (test : τ → SpdTest γ) (cb : γ) (t : τ) : Edit τ :=
  if (test t).callback = cb then ⟨[], .remove, true⟩ else ⟨[], .keep, false⟩

/-- `spd_test_remove` (`test_engine.c:188-203`). -/
def spdTestRemove (fuel : Nat) (s : TestList τ γ) (cb : γ) : Outcome (Option τ × TestList τ γ) := do
  let (_, cur, nodes) ← traverseSafe fuel () (removeBody s.test cb) s.nodes
  .ok (cur, { s with nodes := nodes })

/-! ## Runs -/

/-- The registry; the tests that were inserted and not removed, the latest first; and what they
    were made with. -/
structure Sys (τ γ : Type) where
  registry : TestList τ γ
  live : List τ
  test : τ → SpdTest γ

inductive Op (τ γ : Type) where
  /-- A fresh test at `t` is inserted. -/
  | insert (t : τ) (test : SpdTest γ)
  | remove (cb : γ)

/-- The tests by category, the latest first among those of one category. -/
def inOrder (test : τ → SpdTest γ) (live : List τ) : List τ :=
  live.insertionSort (NotLess fun t => (test t).category)

/-- The tests without the first of them in order that has the callback. -/
def withoutFirst (test : τ → SpdTest γ) (cb : γ) (live : List τ) : List τ :=
  match (inOrder test live).find? fun t => (test t).callback = cb with
  | some t => live.erase t
  | none => live

/-- One call. Its loop has a turn more than there are tests. -/
def step (s : Sys τ γ) : Op τ γ → Outcome (Sys τ γ)
  | .insert t test => do
    let registry ← spdTestInsert (s.live.length + 1) (spdTestCreate s.registry t test) t
    .ok ⟨registry, t :: s.live, Function.update s.test t test⟩
  | .remove cb => do
    let (_, registry) ← spdTestRemove (s.live.length + 1) s.registry cb
    .ok ⟨registry, withoutFirst s.test cb s.live, s.test⟩

/-- A fresh test is at a place that no registered one is at. -/
def Enabled (s : Sys τ γ) : Op τ γ → Prop
  | .insert t _ => t ∉ s.live
  | .remove _ => True

instance (s : Sys τ γ) (o : Op τ γ) : Decidable (Enabled s o) :=
  match o with
  | .insert _ _ => inferInstanceAs (Decidable (¬ _))
  | .remove _ => isTrue trivial

/-- `a` is to stand before `b`: its category is less, or the same and it was inserted later. -/
def Before (test : τ → SpdTest γ) (live : List τ) (a b : τ) : Prop :=
  strcmp (test a).category (test b).category < 0 ∨
    strcmp (test a).category (test b).category = 0 ∧ [a, b].Sublist live

/-- The list is well formed and holds the tests that were inserted and not removed, as they were
    made and in order. -/
structure Sorted (s : Sys τ γ) (l : List τ) : Prop where
  holds : Holds s.registry.nodes fun _ => l
  test : s.registry.test = s.test
  tests : l.Perm s.live
  ordered : l.Pairwise (Before s.test s.live)

section

variable {s : Sys τ γ} {l live : List τ} {t : τ} {test : τ → SpdTest γ}

omit [DecidableEq τ] [DecidableEq γ] in
theorem sorted_empty (test : τ → SpdTest γ) : Sorted ⟨.empty test, [], test⟩ [] where
  holds := ⟨represents_init fun _ => none, fun _ _ => nofun⟩
  test := rfl
  tests := .nil
  ordered := .nil

/-! ### The order of the tests -/

omit [DecidableEq τ] [DecidableEq γ] in
/-- The test that was inserted last stands before those that are not less. -/
theorem before_head {a : τ} (hle : strcmp (test t).category (test a).category ≤ 0)
    (ha : a ∈ live) : Before test (t :: live) t a := by
  rcases Int.lt_or_eq_of_le hle with hlt | heq
  · exact Or.inl hlt
  · exact Or.inr ⟨heq, (List.singleton_sublist.mpr ha).cons_cons t⟩

omit [DecidableEq τ] [DecidableEq γ] in
/-- The last test goes before the first one that is not less. -/
theorem pairwise_before_insert (hl : l.Pairwise (Before test live)) (hsub : l ⊆ live) :
    (l.orderedInsert (NotLess fun a => (test a).category) t).Pairwise
      (Before test (t :: live)) := by
  apply pairwise_orderedInsert
  · intro a _ b hb hta hab
    have hta' : strcmp (test t).category (test a).category ≤ 0 := by
      rw [strcmp_swap]
      exact Int.neg_nonpos_of_nonneg (Int.not_lt.mp hta)
    have hab' : strcmp (test a).category (test b).category ≤ 0 := by
      rcases hab with hlt | ⟨heq, -⟩
      · exact Int.le_of_lt hlt
      · exact Int.le_of_eq heq
    exact before_head (strcmp_le_trans hta' hab') (hsub hb)
  · intro a ha hta
    apply before_head ?_ (hsub ha)
    rw [strcmp_swap]
    exact Int.neg_nonpos_of_nonneg (Int.not_lt.mp hta)
  · exact fun a _ hta => Or.inl (not_not.mp hta)
  · exact hl.imp fun hab => hab.imp_right fun h => ⟨h.1, h.2.cons t⟩

omit [DecidableEq τ] [DecidableEq γ] in
theorem inOrder_perm (test : τ → SpdTest γ) (live : List τ) : (inOrder test live).Perm live :=
  List.perm_insertionSort _ live

omit [DecidableEq τ] [DecidableEq γ] in
theorem pairwise_inOrder (test : τ → SpdTest γ) (live : List τ) :
    (inOrder test live).Pairwise (Before test live) := by
  induction live with
  | nil => exact .nil
  | cons t live ih => exact pairwise_before_insert ih (inOrder_perm test live).subset

omit [DecidableEq τ] in
/-- Different elements stand in one order. -/
theorem pair_asymm {a b : τ} (hnodup : l.Nodup) (hab : [a, b].Sublist l) :
    ¬ [b, a].Sublist l := by
  induction l with
  | nil => cases hab
  | cons x l ih =>
    rw [List.nodup_cons] at hnodup
    intro hba
    rw [List.sublist_cons_iff] at hab hba
    rcases hab with hab | ⟨r, hr, hb⟩
    · rcases hba with hba | ⟨r, hr, ha⟩
      · exact ih hnodup.2 hab hba
      · obtain ⟨rfl, rfl⟩ := List.cons.inj hr
        exact hnodup.1 (hab.subset (by simp))
    · obtain ⟨rfl, rfl⟩ := List.cons.inj hr
      have hmem : b ∈ l := hb.subset List.mem_cons_self
      rcases hba with hba | ⟨r, hr, ha⟩
      · exact hnodup.1 (hba.subset (by simp))
      · obtain ⟨rfl, rfl⟩ := List.cons.inj hr
        exact hnodup.1 hmem

omit [DecidableEq τ] [DecidableEq γ] in
theorem before_asymm {a b : τ} (hnodup : live.Nodup) (hab : Before test live a b) :
    ¬ Before test live b a := by
  have hswap := strcmp_swap (test b).category (test a).category
  intro hba
  rcases hab with hlt | ⟨heq, hab⟩
  · rcases hba with hlt' | ⟨heq', -⟩ <;> omega
  · rcases hba with hlt' | ⟨-, hba⟩
    · omega
    · exact pair_asymm hnodup hab hba

omit [DecidableEq τ] [DecidableEq γ] in
/-- The list is the tests in order. -/
theorem Sorted.eq_inOrder (hs : Sorted s l) : l = inOrder s.test s.live := by
  have hnodup : s.live.Nodup :=
    hs.tests.nodup_iff.mp (hs.holds.represents.chain ()).nodup
  exact List.Perm.eq_of_pairwise
    (fun a b _ _ hab hba => absurd hba (before_asymm hnodup hab)) hs.ordered
    (pairwise_inOrder s.test s.live) (hs.tests.trans (inOrder_perm s.test s.live).symm)

/-! ### Insertion -/

/-- The new test goes before the first one that is not less. -/
theorem Sorted.insert (hs : Sorted s l) (ht : t ∉ s.live) (test : SpdTest γ) :
    ∃ s', step s (.insert t test) = .ok s' ∧
      Sorted s' (l.orderedInsert (NotLess fun a => (s'.test a).category) t) := by
  have htl : t ∉ l := fun hmem => ht (hs.tests.mem_iff.mp hmem)
  have hne : ∀ a ∈ l, a ≠ t := by
    rintro a ha rfl
    exact htl ha
  have htest : ∀ a ∈ l, Function.update s.test t test a = s.test a :=
    fun a ha => Function.update_of_ne (hne a ha) _ _
  have hnull : (s.registry.nodes.mem.setNext t none).next t = none := Function.update_self _ _ _
  obtain ⟨mem, hmem, hr⟩ := (hs.holds.represents.setNext_free (fun _ => htl) none).insertSortalpha
    (h := ()) (fun a => (Function.update s.registry.test t test a).category) (fun _ => htl) hnull
    (Nat.lt_succ_of_le (Nat.le_of_eq hs.tests.length_eq))
  rw [Function.update_eq_const_of_subsingleton] at hr
  refine ⟨⟨⟨⟨mem, s.registry.nodes.freed.erase t⟩, Function.update s.registry.test t test⟩,
    t :: s.live, Function.update s.test t test⟩, ?_, ⟨?_, ?_⟩, ?_, ?_, ?_⟩
  · rw [step, spdTestInsert]
    exact bind_eq_ok.mpr ⟨_, bind_eq_ok.mpr ⟨mem, hmem, rfl⟩, rfl⟩
  · rw [← hs.test]
    exact hr
  · intro _ a ha
    rw [Finset.mem_erase, not_and_or, not_not]
    rcases (List.mem_orderedInsert _).mp ha with rfl | ha
    · exact Or.inl rfl
    · exact Or.inr (hs.holds.alive () a ha)
  · rw [hs.test]
  · exact (List.perm_orderedInsert _ t l).trans (hs.tests.cons t)
  · refine pairwise_before_insert (hs.ordered.imp_of_mem ?_) hs.tests.subset
    intro a b ha hb hab
    unfold Before
    dsimp only
    rw [htest a ha, htest b hb]
    exact hab

/-! ### Removal -/

omit [DecidableEq τ] in
theorem edited_removeBody (test : τ → SpdTest γ) (cb : γ) (l : List τ) :
    edited (removeBody test cb) l = l.eraseP fun t => (test t).callback = cb := by
  induction l with
  | nil => rfl
  | cons a l ih =>
    rw [edited, List.eraseP_cons, ih, removeBody]
    by_cases hcb : (test a).callback = cb
    · simp [hcb, Edit.result]
    · simp [hcb, Edit.result]

omit [DecidableEq τ] in
theorem leftAt_removeBody (test : τ → SpdTest γ) (cb : γ) (l : List τ) :
    leftAt (removeBody test cb) l = l.find? fun t => (test t).callback = cb := by
  unfold leftAt removeBody
  congr 1
  funext a
  by_cases hcb : (test a).callback = cb
  · simp [hcb]
  · simp [hcb]

omit [DecidableEq τ] in
theorem fresh_removeBody (test : τ → SpdTest γ) (cb : γ) (ls : Lists Unit τ) (pre l : List τ) :
    Fresh () (removeBody test cb) ls pre l := by
  induction l generalizing pre with
  | nil => trivial
  | cons a l ih =>
    have hnone : (removeBody test cb a).inserts = [] := by
      unfold removeBody
      split <;> rfl
    rw [Fresh, hnone]
    exact ⟨List.nodup_nil, fun y hy => absurd hy List.not_mem_nil, fun _ => ih _⟩

/-- The first test with the callback is taken out of the list and returned. -/
theorem spdTestRemove_eq {r : TestList τ γ} (hr : Holds r.nodes fun _ => l) (cb : γ) {fuel : Nat}
    (hfuel : l.length < fuel) : ∃ nodes, spdTestRemove fuel r cb =
        .ok (l.find? fun t => (r.test t).callback = cb, { r with nodes := nodes }) ∧
      Holds nodes fun _ => l.eraseP fun t => (r.test t).callback = cb := by
  have hfresh : Fresh () (removeBody r.test cb) (fun _ => l) [] l := fresh_removeBody r.test cb _ _ _
  obtain ⟨nodes, hrun, hnodes⟩ := traverseSafe_holds (removeBody r.test cb) hr hfresh hfuel
  rw [Function.update_eq_const_of_subsingleton, edited_removeBody] at hnodes
  rw [leftAt_removeBody] at hrun
  exact ⟨nodes, bind_eq_ok.mpr ⟨_, hrun, rfl⟩, hnodes⟩

theorem eraseP_of_find?_eq_some {p : τ → Bool} (h : l.find? p = some t) :
    l.eraseP p = l.erase t := by
  obtain ⟨hp, pre, post, rfl, hpre⟩ := List.find?_eq_some_iff_append.mp h
  have hnot : ∀ a ∈ pre, ¬ p a = true := fun a ha => by simpa using hpre a ha
  have ht : t ∉ pre := fun hmem => hnot t hmem hp
  rw [List.eraseP_append_right _ hnot, List.eraseP_cons_of_pos hp, List.erase_append_right _ ht,
    List.erase_cons_head]

/-- The first test in order is the first one of the list. -/
theorem Sorted.withoutFirst_eq (hs : Sorted s l) (cb : γ) : withoutFirst s.test cb s.live =
    (l.find? fun t => (s.registry.test t).callback = cb).elim s.live s.live.erase := by
  rw [withoutFirst, ← hs.eq_inOrder, hs.test]
  cases l.find? fun t => (s.test t).callback = cb <;> rfl

theorem Sorted.remove (hs : Sorted s l) (cb : γ) :
    ∃ s' l', step s (.remove cb) = .ok s' ∧ Sorted s' l' := by
  have hnodup : l.Nodup := (hs.holds.represents.chain ()).nodup
  obtain ⟨nodes, hrun, hnodes⟩ := spdTestRemove_eq hs.holds cb
    (Nat.lt_succ_of_le (Nat.le_of_eq hs.tests.length_eq))
  cases hfind : l.find? fun t => (s.registry.test t).callback = cb with
  | none =>
    have hlive := hs.withoutFirst_eq cb
    rw [hfind] at hrun hlive
    rw [List.eraseP_of_forall_not (List.find?_eq_none.mp hfind)] at hnodes
    refine ⟨⟨{ s.registry with nodes := nodes }, s.live, s.test⟩, l, ?_, hnodes, hs.test, hs.tests,
      hs.ordered⟩
    rw [step, hrun, ok_bind]
    dsimp only
    rw [hlive, Option.elim]
  | some t =>
    have hlive := hs.withoutFirst_eq cb
    rw [hfind] at hrun hlive
    rw [eraseP_of_find?_eq_some hfind] at hnodes
    refine ⟨⟨{ s.registry with nodes := nodes }, s.live.erase t, s.test⟩, l.erase t, ?_, hnodes,
      hs.test, hs.tests.erase t, ?_⟩
    · rw [step, hrun, ok_bind]
      dsimp only
      rw [hlive, Option.elim]
    · refine (hs.ordered.sublist List.erase_sublist).imp_of_mem ?_
      intro a b ha hb hab
      have hat : t ≠ a := Ne.symm (hnodup.mem_erase_iff.mp ha).1
      have hbt : t ≠ b := Ne.symm (hnodup.mem_erase_iff.mp hb).1
      refine hab.imp_right fun h => ⟨h.1, ?_⟩
      have hsub := h.2.erase t
      rwa [List.erase_of_not_mem (by simp [hat, hbt])] at hsub

end

/-! ## The registry stays sorted -/

/-- In every run the list is well formed and holds the tests that were inserted and not removed,
    sorted by category, a test inserted later before those of the same category. -/
theorem registry_sorted (test : τ → SpdTest γ) (ops : List (Op τ γ))
    (hops : Run.Legal step Enabled ⟨.empty test, [], test⟩ ops) :
    Run.Always step (fun s => ∃ l, Sorted s l) ⟨.empty test, [], test⟩ ops := by
  have hgood : ∀ (s : Sys τ γ) o, (∃ l, Sorted s l) → Enabled s o → True →
      ∃ s', step s o = .ok s' ∧ ∃ l, Sorted s' l := by
    rintro s o ⟨l, hs⟩ ho -
    cases o with
    | insert t test =>
      obtain ⟨s', hstep, hs'⟩ := hs.insert ho test
      exact ⟨s', hstep, _, hs'⟩
    | remove cb =>
      obtain ⟨s', l', hstep, hs'⟩ := hs.remove cb
      exact ⟨s', hstep, l', hs'⟩
  exact Run.always_of_legal (fun _ h => h) hgood ops ⟨[], sorted_empty test⟩ hops
    (Run.legal_of_forall (fun _ _ => trivial) ops)

/-- Two tests of one category and one of another; the second call of the removal finds none. -/
def someOps : List (Op Nat Nat) :=
  [.insert 1 ⟨lit "/b/", 1⟩, .insert 2 ⟨lit "/a/", 2⟩, .insert 3 ⟨lit "/b/", 3⟩, .remove 2,
    .remove 2, .insert 2 ⟨lit "/c/", 4⟩]

theorem registry_sorted_some : Run.Always step (fun s : Sys Nat Nat => ∃ l, Sorted s l)
    ⟨.empty fun _ => ⟨[], 0⟩, [], fun _ => ⟨[], 0⟩⟩ someOps :=
  registry_sorted (fun _ => ⟨[], 0⟩) someOps (by decide +kernel)

end Spider.TestEngine.Registry
