import Mathlib.Algebra.Group.Int.Defs
import Mathlib.Algebra.Group.Nat.Defs
import Mathlib.Tactic.Common

/-!
# Outcomes of C calls

A call of a C function returns a value, or runs into undefined behaviour, or
increments a machine counter past its largest value, or does not return within
the fuel its loops were given. `Outcome` keeps the four apart, so that a proof
can say which of them a call is free of. `Outcome.Sat` is the rule of
consequence style specification used for calls on a machine that stops at a
counter overflow, `Outcome.Ensures` the partial one; `Outcome.Refines` relates
such a machine to one that wraps.
-/

namespace Lib

/-- The result of running a C call. -/
inductive Outcome (β : Type) where
  /-- The call returns `value`. -/
  | ok (value : β)
  /-- A dangling access, a division by zero or an index outside its array. -/
  | fault
  /-- A counter was incremented past its largest value. -/
  | overflow
  /-- The fuel of a loop ran out. -/
  | timeout
  deriving DecidableEq, Repr

namespace Outcome

variable {β γ : Type}

/-- Sequencing: the first outcome that is not a return ends the run. -/
def bind (m : Outcome β) (f : β → Outcome γ) : Outcome γ :=
  match m with
  | .ok v => f v
  | .fault => .fault
  | .overflow => .overflow
  | .timeout => .timeout

instance : Monad Outcome where
  pure := .ok
  bind := Outcome.bind

@[simp] theorem pure_eq (v : β) : (pure v : Outcome β) = .ok v := rfl
@[simp] theorem ok_bind (v : β) (f : β → Outcome γ) : (Outcome.ok v >>= f) = f v := rfl
@[simp] theorem fault_bind (f : β → Outcome γ) : (Outcome.fault >>= f) = .fault := rfl
@[simp] theorem overflow_bind (f : β → Outcome γ) : (Outcome.overflow >>= f) = .overflow := rfl
@[simp] theorem timeout_bind (f : β → Outcome γ) : (Outcome.timeout >>= f) = .timeout := rfl

theorem bind_assoc {δ : Type} (m : Outcome β) (f : β → Outcome γ) (g : γ → Outcome δ) :
    ((m >>= f) >>= g) = m >>= fun v => f v >>= g := by
  cases m <;> rfl

/-- A sequence returns exactly when both of its parts do. -/
theorem bind_eq_ok {m : Outcome β} {f : β → Outcome γ} {r : γ} :
    (m >>= f) = .ok r ↔ ∃ v, m = .ok v ∧ f v = .ok r := by
  cases m <;> simp

/-- What a call returns, found by running it. -/
theorem exists_of_run {m : Outcome β} {Q : β → Prop} [DecidablePred Q]
    (h : (match m with
      | .ok v => decide (Q v)
      | _ => false) = true) : ∃ v, m = .ok v ∧ Q v := by
  cases m with
  | ok v => exact ⟨v, rfl, of_decide_eq_true h⟩
  | fault => cases h
  | overflow => cases h
  | timeout => cases h

/-- `m.Sat Q`: the call returns a value satisfying `Q`, or stopped because a
counter would have overflowed. It neither runs into undefined behaviour nor
out of fuel. -/
def Sat (m : Outcome β) (Q : β → Prop) : Prop :=
  match m with
  | .ok v => Q v
  | .overflow => True
  | .fault | .timeout => False

@[simp] theorem sat_ok {v : β} {Q : β → Prop} : (Outcome.ok v).Sat Q ↔ Q v := Iff.rfl
@[simp] theorem sat_overflow {Q : β → Prop} : (Outcome.overflow : Outcome β).Sat Q := trivial

/-- The rule of sequencing. -/
theorem Sat.bind {m : Outcome β} {f : β → Outcome γ} {Q : β → Prop} {R : γ → Prop}
    (hm : m.Sat Q) (hf : ∀ v, Q v → (f v).Sat R) : (m >>= f).Sat R := by
  cases m with
  | ok v => exact hf v hm
  | fault => exact hm.elim
  | overflow => trivial
  | timeout => exact hm.elim

/-- The rule of consequence. -/
theorem Sat.mono {m : Outcome β} {Q R : β → Prop} (hm : m.Sat Q) (h : ∀ v, Q v → R v) :
    m.Sat R := by
  cases m with
  | ok v => exact h v hm
  | fault => exact hm
  | overflow => trivial
  | timeout => exact hm

theorem Sat.of_ok {m : Outcome β} {Q : β → Prop} {v : β} (hm : m.Sat Q) (h : m = .ok v) : Q v := by
  subst h
  exact hm

/-- Where no counter overflows, the call returns. -/
theorem Sat.returns {m : Outcome β} {Q : β → Prop} (hm : m.Sat Q) (h : m ≠ .overflow) :
    ∃ v, m = .ok v ∧ Q v := by
  cases m with
  | ok v => exact ⟨v, rfl, hm⟩
  | fault => exact hm.elim
  | overflow => exact absurd rfl h
  | timeout => exact hm.elim

/-- `m.Ensures Q`: whatever `m` returns satisfies `Q`. -/
def Ensures (m : Outcome β) (Q : β → Prop) : Prop := ∀ v, m = .ok v → Q v

theorem Ensures.any (m : Outcome β) : m.Ensures fun _ => True := fun _ _ => trivial

theorem Ensures.self (m : Outcome β) : m.Ensures fun v => m = .ok v := fun _ h => h

theorem Ensures.ok {v : β} {Q : β → Prop} (h : Q v) : (Outcome.ok v).Ensures Q := by
  intro v' hv
  exact Outcome.ok.inj hv ▸ h

theorem Ensures.fault {Q : β → Prop} : (Outcome.fault : Outcome β).Ensures Q := nofun

theorem Ensures.timeout {Q : β → Prop} : (Outcome.timeout : Outcome β).Ensures Q := nofun

theorem Ensures.mono {m : Outcome β} {Q R : β → Prop} (hm : m.Ensures Q) (h : ∀ v, Q v → R v) :
    m.Ensures R := fun v hv => h v (hm v hv)

theorem Ensures.bind {m : Outcome β} {f : β → Outcome γ} {Q : β → Prop} {R : γ → Prop}
    (hm : m.Ensures Q) (hf : ∀ v, Q v → (f v).Ensures R) : (m >>= f).Ensures R := by
  intro r hr
  obtain ⟨v, hv, hr⟩ := bind_eq_ok.mp hr
  exact hf v (hm v hv) r hr

theorem Ensures.ite {c : Prop} [Decidable c] {m n : Outcome β} {Q : β → Prop}
    (hm : c → m.Ensures Q) (hn : ¬ c → n.Ensures Q) : (if c then m else n).Ensures Q := by
  split
  · next h => exact hm h
  · next h => exact hn h

/-- `m.Refines m'`: whatever `m` returns, `m'` returns too. -/
def Refines (m m' : Outcome β) : Prop := ∀ v, m = .ok v → m' = .ok v

@[refl] theorem Refines.refl (m : Outcome β) : m.Refines m := fun _ h => h

theorem Refines.bind {m m' : Outcome β} {f f' : β → Outcome γ} (hm : m.Refines m')
    (hf : ∀ v, (f v).Refines (f' v)) : (m >>= f).Refines (m' >>= f') := by
  intro r hr
  obtain ⟨v, hv, hr⟩ := bind_eq_ok.mp hr
  exact bind_eq_ok.mpr ⟨v, hm v hv, hf v r hr⟩

theorem Refines.ite {c : Prop} [Decidable c] {m m' n n' : Outcome β} (hm : m.Refines m')
    (hn : n.Refines n') : (if c then m else n).Refines (if c then m' else n') := by
  split
  · exact hm
  · exact hn

end Outcome

end Lib
