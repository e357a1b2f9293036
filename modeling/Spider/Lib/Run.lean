import Spider.Lib.Outcome

/-!
# Runs of a system

A system takes an operation to an outcome. `Run.run` performs a list of
operations, `Run.Legal` says that each of them is enabled in the state it is
performed in, `Run.Always` that a property holds in every state of the run. The
invariant rule `Run.refined` is for a system that is analysed on a machine
refining the real one; `Run.always_iff_inv` is for a property that exactly one
kind of step destroys; `Run.between_of_legal` is for what each step leaves alone.
-/

namespace Lib.Run

variable {S O : Type}

/-- Perform the operations in order. -/
def run (step : S → O → Outcome S) : S → List O → Outcome S
  | s, [] => .ok s
  | s, o :: os => do
    let s ← step s o
    run step s os

/-- Every operation is enabled when its turn comes. -/
def Legal (step : S → O → Outcome S) (enabled : S → O → Prop) : S → List O → Prop
  | _, [] => True
  | s, o :: os => enabled s o ∧ ∀ s', step s o = .ok s' → Legal step enabled s' os

/-- Every step returns, and `P` holds in every state. -/
def Always (step : S → O → Outcome S) (P : S → Prop) : S → List O → Prop
  | s, [] => P s
  | s, o :: os => P s ∧ ∃ s', step s o = .ok s' ∧ Always step P s' os

/-- Every step returns, and `P` holds between the states before and after it. -/
def Between (step : S → O → Outcome S) (P : S → S → Prop) : S → List O → Prop
  | _, [] => True
  | s, o :: os => ∃ s', step s o = .ok s' ∧ P s s' ∧ Between step P s' os

variable {step real : S → O → Outcome S} {enabled : S → O → Prop} {Inv : S → Prop}

@[simp] theorem run_nil (s : S) : run step s [] = .ok s := rfl

theorem run_cons_of_ok {s s' : S} {o : O} (h : step s o = .ok s') (os : List O) :
    run step s (o :: os) = run step s' os := by
  rw [run, h, Outcome.ok_bind]

theorem legal_cons_of_ok {s s' : S} {o : O} (h : step s o = .ok s') (he : enabled s o)
    {os : List O} (hos : Legal step enabled s' os) : Legal step enabled s (o :: os) :=
  ⟨he, fun s'' h' => by
    obtain rfl := Outcome.ok.inj (h.symm.trans h')
    exact hos⟩

theorem legal_of_forall (h : ∀ s o, enabled s o) (os : List O) {s : S} :
    Legal step enabled s os := by
  induction os generalizing s with
  | nil => trivial
  | cons o os ih => exact ⟨h s o, fun _ _ => ih⟩

theorem legal_and {enabled' : S → O → Prop} {s : S} {os : List O} (h : Legal step enabled s os)
    (h' : Legal step enabled' s os) : Legal step (fun s o => enabled s o ∧ enabled' s o) s os := by
  induction os generalizing s with
  | nil => trivial
  | cons o os ih => exact ⟨⟨h.1, h'.1⟩, fun s' hstep => ih (h.2 s' hstep) (h'.2 s' hstep)⟩

/-- What always holds holds at the end. -/
theorem always_end {P : S → Prop} {s s' : S} {os : List O} (h : Always step P s os)
    (hrun : run step s os = .ok s') : P s' := by
  induction os generalizing s with
  | nil =>
    rw [run_nil] at hrun
    exact Outcome.ok.inj hrun ▸ h
  | cons o os ih =>
    obtain ⟨-, s1, hstep, hrest⟩ := h
    rw [run_cons_of_ok hstep] at hrun
    exact ih hrest hrun

theorem legal_cons_iff {s : S} {o : O} {os : List O} : Legal step enabled s (o :: os) ↔
    enabled s o ∧ match step s o with
      | .ok s' => Legal step enabled s' os
      | _ => True := by
  rw [Legal]
  cases h : step s o <;> simp

theorem run_append (s : S) (os os' : List O) :
    run step s (os ++ os') = run step s os >>= fun s' => run step s' os' := by
  induction os generalizing s with
  | nil => rfl
  | cons o os ih =>
    rw [List.cons_append, run, run, Outcome.bind_assoc]
    exact congrArg (step s o >>= ·) (funext ih)

theorem legal_append_iff {s : S} {os os' : List O} : Legal step enabled s (os ++ os') ↔
    Legal step enabled s os ∧ ∀ s', run step s os = .ok s' → Legal step enabled s' os' := by
  induction os generalizing s with
  | nil => simp [Legal]
  | cons o os ih =>
    rw [List.cons_append, Legal, Legal]
    constructor
    · intro ⟨ho, hrest⟩
      refine ⟨⟨ho, fun s1 hstep => (ih.mp (hrest s1 hstep)).1⟩, ?_⟩
      intro s' hrun
      obtain ⟨s1, hstep, hrun⟩ := Outcome.bind_eq_ok.mp hrun
      exact (ih.mp (hrest s1 hstep)).2 s' hrun
    · intro ⟨⟨ho, hos⟩, hrest⟩
      refine ⟨ho, fun s1 hstep => ih.mpr ⟨hos s1 hstep, ?_⟩⟩
      intro s' hrun
      exact hrest s' ((run_cons_of_ok hstep os).trans hrun)

/-- Whether a run is legal is computed by running it. -/
instance decidableLegal [∀ s o, Decidable (enabled s o)] :
    ∀ (s : S) (os : List O), Decidable (Legal step enabled s os)
  | _, [] => isTrue trivial
  | s, o :: os =>
    have : Decidable (match step s o with
        | .ok s' => Legal step enabled s' os
        | _ => True) :=
      match step s o with
      | .ok s' => decidableLegal s' os
      | .fault | .overflow | .timeout => isTrue trivial
    decidable_of_iff _ legal_cons_iff.symm

/-- If every enabled step of the checked system keeps the invariant, and the checked
    system refines the real one, then every legal run of the real system in which
    the checked one does not overflow returns and keeps the invariant. -/
theorem refined (href : ∀ s o, (step s o).Refines (real s o))
    (hsat : ∀ s o, Inv s → enabled s o → (step s o).Sat Inv) (os : List O) {s : S} (hs : Inv s)
    (hl : Legal real enabled s os) (hno : run step s os ≠ .overflow) :
    ∃ s', run real s os = .ok s' ∧ Inv s' := by
  induction os generalizing s with
  | nil => exact ⟨s, rfl, hs⟩
  | cons o os ih =>
    obtain ⟨he, hl⟩ := hl
    have hstep := hsat s o hs he
    cases ho : step s o with
    | ok s1 =>
      have hreal := href s o s1 ho
      rw [run_cons_of_ok ho] at hno
      obtain ⟨s', hrun, hinv⟩ := ih (hstep.of_ok ho) (hl s1 hreal) hno
      exact ⟨s', (run_cons_of_ok hreal os).trans hrun, hinv⟩
    | fault => exact (ho ▸ hstep : (Outcome.fault : Outcome S).Sat Inv).elim
    | overflow =>
      rw [run, ho] at hno
      exact absurd rfl hno
    | timeout => exact (ho ▸ hstep : (Outcome.timeout : Outcome S).Sat Inv).elim

/-- If every enabled step that meets `good` returns and keeps the invariant, then a legal run whose
    steps meet `good` returns and the invariant holds all along. -/
theorem always_of_legal {good : S → O → Prop} {P : S → Prop} (hP : ∀ s, Inv s → P s)
    (hgood : ∀ s o, Inv s → enabled s o → good s o → ∃ s', step s o = .ok s' ∧ Inv s')
    (os : List O) {s : S} (hs : Inv s) (hl : Legal step enabled s os)
    (hg : Legal step good s os) : Always step P s os := by
  induction os generalizing s with
  | nil => exact hP s hs
  | cons o os ih =>
    obtain ⟨he, hl⟩ := hl
    obtain ⟨ho, hg⟩ := hg
    obtain ⟨s', hstep, hs'⟩ := hgood s o hs he ho
    exact ⟨hP s hs, s', hstep, ih hs' (hl s' hstep) (hg s' hstep)⟩

/-- If every enabled step keeps the invariant unless it is a bad one, and a bad one destroys
    `P`, then `P` holds all along a legal run exactly when no step of it is bad. -/
theorem always_iff_inv {bad : S → O → Prop} {P : S → Prop} (hP : ∀ s, Inv s → P s)
    (hgood : ∀ s o, Inv s → enabled s o → ¬ bad s o → ∃ s', step s o = .ok s' ∧ Inv s')
    (hbad : ∀ s o s', Inv s → enabled s o → bad s o → step s o = .ok s' → ¬ P s') (os : List O)
    {s : S} (hs : Inv s) (hl : Legal step enabled s os) :
    Always step P s os ↔ Legal step (fun s o => ¬ bad s o) s os := by
  refine ⟨fun h => ?_, always_of_legal hP hgood os hs hl⟩
  induction os generalizing s with
  | nil => trivial
  | cons o os ih =>
    obtain ⟨he, hl⟩ := hl
    obtain ⟨-, s', hstep, hrest⟩ := h
    have hs' : P s' := by
      cases os with
      | nil => exact hrest
      | cons o' os => exact hrest.1
    have hnot : ¬ bad s o := fun hb => hbad s o s' hs he hb hstep hs'
    refine ⟨hnot, fun s'' hstep' => ?_⟩
    obtain rfl := Outcome.ok.inj (hstep.symm.trans hstep')
    obtain ⟨s'', hstep'', hinv⟩ := hgood s o hs he hnot
    obtain rfl := Outcome.ok.inj (hstep.symm.trans hstep'')
    exact ih hinv (hl s' hstep) hrest

/-- The same for a property that is its own invariant. -/
theorem always_iff {bad : S → O → Prop} {P : S → Prop}
    (hgood : ∀ s o, P s → enabled s o → ¬ bad s o → ∃ s', step s o = .ok s' ∧ P s')
    (hbad : ∀ s o s', P s → enabled s o → bad s o → step s o = .ok s' → ¬ P s') (os : List O)
    {s : S} (hs : P s) (hl : Legal step enabled s os) :
    Always step P s os ↔ Legal step (fun s o => ¬ bad s o) s os :=
  always_iff_inv (fun _ => id) hgood hbad os hs hl

/-- If every enabled step that meets `good` returns, keeps the invariant and satisfies `P`, then
    a legal run whose steps meet `good` satisfies `P` between any two states, and the invariant
    holds where it ends. -/
theorem between_of_legal {good : S → O → Prop} {P : S → S → Prop}
    (hgood : ∀ s o, Inv s → enabled s o → good s o → ∃ s', step s o = .ok s' ∧ P s s' ∧ Inv s')
    (os : List O) {s : S} (hs : Inv s) (hl : Legal step enabled s os) (hg : Legal step good s os) :
    Between step P s os ∧ ∀ s', run step s os = .ok s' → Inv s' := by
  induction os generalizing s with
  | nil =>
    constructor
    · trivial
    · intro s' hrun
      rw [run_nil] at hrun
      exact Outcome.ok.inj hrun ▸ hs
  | cons o os ih =>
    obtain ⟨he, hl⟩ := hl
    obtain ⟨ho, hg⟩ := hg
    obtain ⟨s1, hstep, hP, hs1⟩ := hgood s o hs he ho
    have hrest := ih hs1 (hl s1 hstep) (hg s1 hstep)
    constructor
    · exact ⟨s1, hstep, hP, hrest.1⟩
    · intro s' hrun
      rw [run_cons_of_ok hstep] at hrun
      exact hrest.2 s' hrun

/-- If a step that is not bad keeps the invariant, a bad one loses something, and what is lost
    stays lost, then a legal run ends with the invariant or with a loss, according to whether
    one of its steps was bad. -/
theorem inv_or_lost {bad : S → O → Prop} {Lost : S → Prop}
    (hinv : ∀ s o s', Inv s → enabled s o → ¬ bad s o → step s o = .ok s' → Inv s')
    (hbad : ∀ s o s', Inv s → enabled s o → bad s o → step s o = .ok s' → Lost s')
    (hlost : ∀ s o s', Lost s → enabled s o → step s o = .ok s' → Lost s') (os : List O)
    {s s' : S} (hs : Inv s) (hl : Legal step enabled s os) (hrun : run step s os = .ok s') :
    Legal step (fun s o => ¬ bad s o) s os ∧ Inv s' ∨
      ¬ Legal step (fun s o => ¬ bad s o) s os ∧ Lost s' := by
  have hstays : ∀ (os : List O) {s : S}, Lost s → Legal step enabled s os →
      run step s os = .ok s' → Lost s' := by
    intro os
    induction os with
    | nil =>
      intro s hs _ hrun
      rw [run_nil] at hrun
      exact Outcome.ok.inj hrun ▸ hs
    | cons o os ih =>
      intro s hs hl hrun
      obtain ⟨s1, hstep, hrest⟩ := Outcome.bind_eq_ok.mp hrun
      exact ih (hlost s o s1 hs hl.1 hstep) (hl.2 s1 hstep) hrest
  induction os generalizing s with
  | nil =>
    rw [run_nil] at hrun
    exact Or.inl ⟨trivial, Outcome.ok.inj hrun ▸ hs⟩
  | cons o os ih =>
    obtain ⟨he, hl⟩ := hl
    obtain ⟨s1, hstep, hrest⟩ := Outcome.bind_eq_ok.mp hrun
    by_cases hb : bad s o
    · refine Or.inr ⟨fun hgood => hgood.1 hb, ?_⟩
      exact hstays os (hbad s o s1 hs he hb hstep) (hl s1 hstep) hrest
    · rcases ih (hinv s o s1 hs he hb hstep) (hl s1 hstep) hrest with ⟨hgood, hend⟩ | ⟨hgood, hend⟩
      · exact Or.inl ⟨legal_cons_of_ok hstep hb hgood, hend⟩
      · exact Or.inr ⟨fun h => hgood (h.2 s1 hstep), hend⟩

end Lib.Run
