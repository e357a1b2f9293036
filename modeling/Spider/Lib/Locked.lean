import Spider.Lib.Outcome

/-!
# Calls that take a lock

A call emits an event whenever it takes or releases its lock and whenever it
looks at what the lock protects or changes it. `depth` reads the events as one
thread's nesting of the lock. `Ends d e c` says of a call entered `d` deep that
it has the lock at every access and at every release, and is `e` deep when it
returns; its rules follow the statements of the call.
-/

namespace Lib.Locked

inductive Event where
  | lock
  | unlock
  /-- What the lock protects is read or changed. -/
  | access
  deriving DecidableEq, Repr

/-- How deep the lock is held after the events; none if it was not held at an access or at a
    release. -/
def depth : Nat → List Event → Option Nat
  | d, [] => some d
  | d, .lock :: es => depth (d + 1) es
  | 0, .unlock :: _ => none
  | d + 1, .unlock :: es => depth d es
  | 0, .access :: _ => none
  | d + 1, .access :: es => depth (d + 1) es

/-- A call: its events in order, and its outcome. -/
structure Call (α : Type) where
  events : List Event
  outcome : Outcome α
  deriving DecidableEq, Repr

namespace Call

variable {α β : Type}

def emit (e : Event) : Call Unit := ⟨[e], .ok ()⟩

def lock : Call Unit := emit .lock
def unlock : Call Unit := emit .unlock
def access : Call Unit := emit .access

/-- What has nothing to do with the lock. -/
def lift (m : Outcome α) : Call α := ⟨[], m⟩

def bind (c : Call α) (f : α → Call β) : Call β :=
  match c.outcome with
  | .ok v => ⟨c.events ++ (f v).events, (f v).outcome⟩
  | .fault => ⟨c.events, .fault⟩
  | .overflow => ⟨c.events, .overflow⟩
  | .timeout => ⟨c.events, .timeout⟩

instance : Monad Call where
  pure v := lift (.ok v)
  bind := Call.bind

/-- Without its events a sequence is a sequence of outcomes. -/
@[simp] theorem outcome_bind (c : Call α) (f : α → Call β) :
    (c >>= f).outcome = c.outcome >>= fun v => (f v).outcome := by
  show (c.bind f).outcome = _
  cases h : c.outcome <;> simp [bind, h]

@[simp] theorem outcome_pure (v : α) : (pure v : Call α).outcome = .ok v := rfl
@[simp] theorem outcome_lift (m : Outcome α) : (lift m).outcome = m := rfl

@[simp] theorem outcome_emit (e : Event) : (emit e).outcome = .ok () := rfl

end Call

variable {α β : Type}

/-- Entered `d` deep, the call accesses and releases nothing that it does not hold; if it returns,
    it is `e` deep. -/
def Ends (d e : Nat) (c : Call α) : Prop :=
  ∃ d', depth d c.events = some d' ∧ ∀ v, c.outcome = .ok v → d' = e

/-- The call leaves the lock as deeply held as it found it. -/
def Keeps (d : Nat) (c : Call α) : Prop := Ends d d c

section

variable {d e : Nat} {c : Call α} {f : α → Call β} {m : Outcome α}

theorem ends_lift : Ends d e (Call.lift m) ↔ ∀ v, m = .ok v → d = e := by
  simp [Ends, Call.lift, depth]

@[simp] theorem ends_pure (v : α) : Ends d e (pure v : Call α) ↔ d = e := by
  show Ends d e (Call.lift (.ok v)) ↔ d = e
  simp [ends_lift]

@[simp] theorem ends_lock_bind (f : Unit → Call β) :
    Ends d e (Call.lock >>= f) ↔ Ends (d + 1) e (f ()) := Iff.rfl

@[simp] theorem ends_unlock_bind (f : Unit → Call β) :
    Ends d e (Call.unlock >>= f) ↔ 0 < d ∧ Ends (d - 1) e (f ()) := by
  cases d with
  | zero => exact ⟨fun h => absurd h.choose_spec.1 nofun, fun h => absurd h.1 (Nat.lt_irrefl 0)⟩
  | succ d => exact ⟨fun h => ⟨Nat.succ_pos d, h⟩, fun h => h.2⟩

@[simp] theorem ends_access_bind (f : Unit → Call β) :
    Ends d e (Call.access >>= f) ↔ 0 < d ∧ Ends d e (f ()) := by
  cases d with
  | zero => exact ⟨fun h => absurd h.choose_spec.1 nofun, fun h => absurd h.1 (Nat.lt_irrefl 0)⟩
  | succ d => exact ⟨fun h => ⟨Nat.succ_pos d, h⟩, fun h => h.2⟩

theorem ends_lift_bind :
    Ends d e (Call.lift m >>= f) ↔ ∀ v, m = .ok v → Ends d e (f v) := by
  cases m with
  | ok v =>
    constructor
    · intro h v' hv
      rw [← Outcome.ok.inj hv]
      exact h
    · intro h
      exact h v rfl
  | fault => exact ⟨fun _ => nofun, fun _ => ⟨d, rfl, nofun⟩⟩
  | overflow => exact ⟨fun _ => nofun, fun _ => ⟨d, rfl, nofun⟩⟩
  | timeout => exact ⟨fun _ => nofun, fun _ => ⟨d, rfl, nofun⟩⟩

theorem depth_append (d : Nat) (es es' : List Event) :
    depth d (es ++ es') = (depth d es).bind fun d => depth d es' := by
  fun_induction depth d es with
  | case1 d => rfl
  | case2 d es ih => exact ih
  | case3 => rfl
  | case4 d es ih => exact ih
  | case5 => rfl
  | case6 d es ih => exact ih

theorem Call.bind_of_ok {v : α} (hv : c.outcome = .ok v) :
    (c >>= f) = ⟨c.events ++ (f v).events, (f v).outcome⟩ := by
  show c.bind f = _
  simp only [Call.bind, hv]

/-- A call that comes first, leaves the lock `d'` deep and returns `v`. -/
theorem ends_bind_of_ok {d' : Nat} {v : α} (hc : Ends d d' c) (hv : c.outcome = .ok v) :
    Ends d e (c >>= f) ↔ Ends d' e (f v) := by
  obtain ⟨d1, hdepth, hreturns⟩ := hc
  have hend := hreturns v hv
  subst hend
  rw [Call.bind_of_ok hv, Ends, Ends]
  simp only [depth_append, hdepth, Option.bind_some]

/-- A call that comes first, and does not return. -/
theorem Ends.bind_of_ne_ok {d' : Nat} (hc : Ends d d' c) (hne : ∀ v, c.outcome ≠ .ok v) :
    Ends d e (c >>= f) := by
  obtain ⟨d1, hdepth, -⟩ := hc
  have hevents : (c >>= f).events = c.events := by
    show (c.bind f).events = _
    cases h : c.outcome with
    | ok v => exact absurd h (hne v)
    | fault | overflow | timeout => simp only [Call.bind, h]
  refine ⟨d1, hevents ▸ hdepth, ?_⟩
  intro v hv
  rw [Call.outcome_bind] at hv
  obtain ⟨v', hv', -⟩ := Outcome.bind_eq_ok.mp hv
  exact absurd hv' (hne v')

/-- What is done with the result of a call does not matter. -/
theorem ends_bind_pure (g : α → β) :
    Ends d e (c >>= fun v => pure (g v)) ↔ Ends d e c := by
  have hevents : (c >>= fun v => pure (g v)).events = c.events := by
    show (c.bind fun v => pure (g v)).events = _
    cases h : c.outcome <;> simp only [Call.bind, h]
    exact List.append_nil _
  rw [Ends, Ends, hevents]
  constructor
  · rintro ⟨d', hdepth, hreturns⟩
    refine ⟨d', hdepth, ?_⟩
    intro v hv
    apply hreturns (g v)
    simp [hv]
  · rintro ⟨d', hdepth, hreturns⟩
    refine ⟨d', hdepth, ?_⟩
    intro v hv
    rw [Call.outcome_bind] at hv
    obtain ⟨v', hv', -⟩ := Outcome.bind_eq_ok.mp hv
    exact hreturns v' hv'

end

end Lib.Locked
