import Mathlib.Tactic.Common
import Mathlib.Data.List.Basic

/-!
# Finite-state machines

`spd_fsm_start` looks for the first entry of the table that applies, moves to
its state, runs its `exec` function and then decides whether the machine has
terminated. The mutex is recursive, so that an `exec` function may start actions
on the machine it runs in. What conditions and `exec` functions answer, and
which actions these start, is given with each call.
-/

namespace Spider.Fsm

/-- `spd_fsm_state_any` and `spd_fsm_action_any`. -/
def spdFsmActionAny : Int32 := -0xFFFF

/-- `struct spd_fsm_entry`; `exec` says that the function is not null. -/
structure SpdFsmEntry where
  fromState : Int32
  action : Int32
  toState : Int32
  exec : Bool
  deriving DecidableEq, Repr

/-- `struct spd_fsm`; `termCb` says that the callback is not null. -/
structure SpdFsm where
  current : Int32
  term : Int32
  entryList : List SpdFsmEntry
  termCb : Bool
  deriving DecidableEq, Repr

/-- A call of `spd_fsm_start`: what the condition of each entry answers in it, the calls that the
    `exec` function makes if one is run, and its result. -/
inductive Call where
  | mk (action : Int32) (cond : Nat → Bool) (calls : List Call) (ret : Int32)

inductive Event where
  | current (state : Int32)
  | exec
  | termCb
  deriving DecidableEq, Repr

/-- The machine, how deep its mutex is held, and what has happened. -/
structure St where
  fsm : SpdFsm
  lock : Nat
  trace : List Event

def St.setCurrent (s : St) (state : Int32) : St :=
  { s with fsm := { s.fsm with current := state }, trace := s.trace ++ [.current state] }

def St.emit (s : St) (e : Event) : St := { s with trace := s.trace ++ [e] }

/-- `spd_fsm_is_terminate` (`fsm.c:205-215`). -/
def spdFsmIsTerminate (s : St) : Bool := s.fsm.current == s.fsm.term

/-- The tests of the loop over the entries (`fsm.c:141-149`), from entry `i` on. -/
def select (current action : Int32) (cond : Nat → Bool) (i : Nat) :
    List SpdFsmEntry → Option SpdFsmEntry
  | [] => none
  | tmp :: rest =>
    if tmp.fromState ≠ spdFsmActionAny ∧ tmp.fromState ≠ current then
      select current action cond (i + 1) rest
    else if tmp.action ≠ spdFsmActionAny ∧ action ≠ tmp.action then
      select current action cond (i + 1) rest
    else if cond i then some tmp
    else select current action cond (i + 1) rest

/-- The entry that a call picks. -/
def pick (s : St) : Call → Option SpdFsmEntry
  | .mk action cond _ _ => select s.fsm.current action cond 0 s.fsm.entryList

/-- With an entry whose state is any the machine stays where it is. -/
def St.moveTo (s : St) (state : Int32) : St :=
  if state ≠ spdFsmActionAny then s.setCurrent state else s

/-- The end of a call (`fsm.c:172-177`). -/
def finish (s : St) (terminate : Bool) : St :=
  if terminate then
    let s := s.setCurrent s.fsm.term
    if s.fsm.termCb then s.emit .termCb else s
  else s

mutual

/-- `spd_fsm_start` (`fsm.c:117-183`); beyond the tests at its top it ends without a result. -/
def spdFsmStart (s : St) : Call → Option Int32 × St
  | .mk action cond calls ret =>
    if spdFsmIsTerminate s then (some (-2), s)
    else
      let s := { s with lock := s.lock + 1 }
      match select s.fsm.current action cond 0 s.fsm.entryList with
      | none => (none, { s with lock := s.lock - 1 })
      | some tmp =>
        let s := s.moveTo tmp.toState
        let s := if tmp.exec then startAll (s.emit .exec) calls else s
        let ret := if tmp.exec then ret else 0
        let terminate := ret != 0 || spdFsmIsTerminate s
        (none, finish { s with lock := s.lock - 1 } terminate)

/-- Calls one after another. -/
def startAll (s : St) : List Call → St
  | [] => s
  | call :: calls => startAll (spdFsmStart s call).2 calls

end

/-- The call ends the machine: it finds it before its end and picks an entry that leads there, or
    one whose `exec` function fails. -/
def Ends (s : St) : Call → Prop
  | .mk action cond calls ret => s.fsm.current ≠ s.fsm.term ∧
    ∃ tmp, pick s (.mk action cond calls ret) = some tmp ∧
      ((s.moveTo tmp.toState).fsm.current = s.fsm.term ∨ tmp.exec = true ∧ ret ≠ 0)

mutual

/-- No call that is made inside of this one ends the machine. -/
def Calm (s : St) : Call → Prop
  | .mk action cond calls _ =>
    s.fsm.current ≠ s.fsm.term →
      match select s.fsm.current action cond 0 s.fsm.entryList with
      | none => True
      | some tmp =>
        tmp.exec = true →
          CalmInside (({ s with lock := s.lock + 1 }.moveTo tmp.toState).emit .exec) calls

def CalmInside (s : St) : List Call → Prop
  | [] => True
  | call :: calls => ¬ Ends s call ∧ Calm s call ∧ CalmInside (spdFsmStart s call).2 calls

end

/-- The same for calls one after another. -/
def CalmRun (s : St) : List Call → Prop
  | [] => True
  | call :: calls => Calm s call ∧ CalmRun (spdFsmStart s call).2 calls

/-- The callback was called once at most, in the state `term`, and after that the machine has stayed
    there and started no function. -/
structure TerminatesOnce (s : St) : Prop where
  once : s.trace.count .termCb ≤ 1
  term : ∀ before after, s.trace = before ++ .termCb :: after →
    before.getLast? = some (.current s.fsm.term)
  stays : ∀ before after, s.trace = before ++ .termCb :: after →
    s.fsm.current = s.fsm.term ∧ .exec ∉ after ∧ ∀ v, .current v ∈ after → v = s.fsm.term

section

variable {s s' : St} {call : Call} {calls : List Call} {tmp : SpdFsmEntry} {action : Int32}
  {cond : Nat → Bool} {ret : Int32} {v : Int32}

@[simp] theorem setCurrent_current : (s.setCurrent v).fsm.current = v := rfl
@[simp] theorem setCurrent_term : (s.setCurrent v).fsm.term = s.fsm.term := rfl
@[simp] theorem setCurrent_termCb : (s.setCurrent v).fsm.termCb = s.fsm.termCb := rfl
@[simp] theorem setCurrent_trace : (s.setCurrent v).trace = s.trace ++ [.current v] := rfl
@[simp] theorem emit_fsm (e : Event) : (s.emit e).fsm = s.fsm := rfl
@[simp] theorem emit_trace (e : Event) : (s.emit e).trace = s.trace ++ [e] := rfl

@[simp] theorem moveTo_term : (s.moveTo v).fsm.term = s.fsm.term := by
  rw [St.moveTo]
  split <;> rfl

@[simp] theorem moveTo_termCb : (s.moveTo v).fsm.termCb = s.fsm.termCb := by
  rw [St.moveTo]
  split <;> rfl

theorem moveTo_trace (s : St) (v : Int32) :
    ∃ events, (s.moveTo v).trace = s.trace ++ events ∧ .termCb ∉ events := by
  rw [St.moveTo]
  split
  · exact ⟨[.current v], rfl, by simp⟩
  · exact ⟨[], by simp, by simp⟩

theorem spdFsmIsTerminate_iff : spdFsmIsTerminate s = true ↔ s.fsm.current = s.fsm.term := by
  simp [spdFsmIsTerminate]

/-! ## Single calls -/

/-- On a machine that has terminated a call does nothing. -/
theorem spdFsmStart_terminated (h : s.fsm.current = s.fsm.term) (call : Call) :
    spdFsmStart s call = (some (-2), s) := by
  cases call with
  | mk action cond calls ret => simp [spdFsmStart, spdFsmIsTerminate, h]

theorem startAll_terminated (h : s.fsm.current = s.fsm.term) (calls : List Call) :
    startAll s calls = s := by
  induction calls with
  | nil => rfl
  | cons call calls ih => rw [startAll, spdFsmStart_terminated h, ih]

/-- The state in which the `exec` function of an entry is run. -/
def St.enter (s : St) (tmp : SpdFsmEntry) : St :=
  ({ s with lock := s.lock + 1 }.moveTo tmp.toState).emit .exec

@[simp] theorem enter_term : (s.enter tmp).fsm.term = s.fsm.term := by
  rw [St.enter, emit_fsm, moveTo_term]

@[simp] theorem enter_termCb : (s.enter tmp).fsm.termCb = s.fsm.termCb := by
  rw [St.enter, emit_fsm, moveTo_termCb]

theorem enter_current : (s.enter tmp).fsm.current = (s.moveTo tmp.toState).fsm.current := by
  rw [St.enter, emit_fsm, St.moveTo, St.moveTo]
  split <;> rfl

theorem enter_trace (s : St) (tmp : SpdFsmEntry) :
    ∃ events, (s.enter tmp).trace = s.trace ++ events ∧ .termCb ∉ events := by
  rcases moveTo_trace { s with lock := s.lock + 1 } tmp.toState with ⟨events, htrace, hnot⟩
  refine ⟨events ++ [.exec], ?_, by simpa using hnot⟩
  rw [St.enter, emit_trace, htrace, List.append_assoc]

/-- The state when the `exec` function of an entry has returned, if there is one. -/
def inside (s : St) (tmp : SpdFsmEntry) (calls : List Call) : St :=
  if tmp.exec then startAll (s.enter tmp) calls
  else { s with lock := s.lock + 1 }.moveTo tmp.toState

/-- A call that picks no entry leaves the machine as it is. -/
theorem spdFsmStart_none (h : pick s (.mk action cond calls ret) = none) :
    (spdFsmStart s (.mk action cond calls ret)).2 = s := by
  rw [pick] at h
  rw [spdFsmStart]
  split
  · rfl
  · simp [h]

/-- A call that picks an entry. -/
theorem spdFsmStart_some (hne : s.fsm.current ≠ s.fsm.term)
    (h : pick s (.mk action cond calls ret) = some tmp) :
    ∃ lock, spdFsmStart s (.mk action cond calls ret) =
      (none, finish { inside s tmp calls with lock := lock }
        ((tmp.exec && ret != 0) || spdFsmIsTerminate (inside s tmp calls))) := by
  rw [pick] at h
  have hnot : spdFsmIsTerminate s = false := by simpa [spdFsmIsTerminate] using hne
  refine ⟨(inside s tmp calls).lock - 1, ?_⟩
  rw [spdFsmStart, hnot]
  dsimp only
  rw [h]
  cases hexec : tmp.exec <;> simp [inside, hexec, St.enter]

theorem calm_iff (hne : s.fsm.current ≠ s.fsm.term)
    (h : pick s (.mk action cond calls ret) = some tmp) :
    Calm s (.mk action cond calls ret) ↔ (tmp.exec = true → CalmInside (s.enter tmp) calls) := by
  rw [pick] at h
  rw [Calm, h]
  exact ⟨fun hcalm => hcalm hne, fun hcalm _ => hcalm⟩

theorem calm_of_terminated (h : s.fsm.current = s.fsm.term) : Calm s call := by
  cases call with
  | mk action cond calls ret =>
    rw [Calm]
    exact fun hne => absurd h hne

theorem calmInside_of_terminated (h : s.fsm.current = s.fsm.term) : CalmInside s calls := by
  induction calls with
  | nil => trivial
  | cons call calls ih =>
    refine ⟨?_, calm_of_terminated h, ?_⟩
    · cases call with
      | mk action cond calls ret => exact fun hends => hends.1 h
    · rw [spdFsmStart_terminated h]
      exact ih

theorem finish_false : finish s false = s := rfl

theorem finish_true : (finish s true).trace = s.trace ++ [.current s.fsm.term] ++
      (if s.fsm.termCb then [.termCb] else []) ∧
    (finish s true).fsm = { s.fsm with current := s.fsm.term } := by
  rw [finish]
  cases hcb : s.fsm.termCb <;> simp [hcb, St.setCurrent, St.emit]

theorem finish_fixed (terminate : Bool) : (finish s terminate).fsm.term = s.fsm.term ∧
    (finish s terminate).fsm.termCb = s.fsm.termCb := by
  cases terminate with
  | false => exact ⟨rfl, rfl⟩
  | true => simp [finish_true.2]

/-! ## Nested calls -/

theorem inside_fixed_of (h : (startAll (s.enter tmp) calls).fsm.term = (s.enter tmp).fsm.term ∧
      (startAll (s.enter tmp) calls).fsm.termCb = (s.enter tmp).fsm.termCb) :
    (inside s tmp calls).fsm.term = s.fsm.term ∧
      (inside s tmp calls).fsm.termCb = s.fsm.termCb := by
  rw [inside]
  split
  · rw [enter_term, enter_termCb] at h
    exact h
  · exact ⟨moveTo_term, moveTo_termCb⟩

mutual

theorem spdFsmStart_fixed (s : St) (call : Call) : (spdFsmStart s call).2.fsm.term = s.fsm.term ∧
    (spdFsmStart s call).2.fsm.termCb = s.fsm.termCb := by
  cases call with
  | mk action cond calls ret =>
    by_cases hne : s.fsm.current = s.fsm.term
    · rw [spdFsmStart_terminated hne]
      exact ⟨rfl, rfl⟩
    · cases hpick : pick s (.mk action cond calls ret) with
      | none =>
        rw [spdFsmStart_none hpick]
        exact ⟨rfl, rfl⟩
      | some tmp =>
        rcases spdFsmStart_some hne hpick with ⟨lock, hstart⟩
        have hinside := inside_fixed_of (startAll_fixed (s.enter tmp) calls)
        have hfinish := @finish_fixed { inside s tmp calls with lock := lock }
          ((tmp.exec && ret != 0) || spdFsmIsTerminate (inside s tmp calls))
        rw [hstart]
        exact ⟨hfinish.1.trans hinside.1, hfinish.2.trans hinside.2⟩

theorem startAll_fixed (s : St) (calls : List Call) : (startAll s calls).fsm.term = s.fsm.term ∧
    (startAll s calls).fsm.termCb = s.fsm.termCb := by
  cases calls with
  | nil => exact ⟨rfl, rfl⟩
  | cons call calls =>
    have hcall := spdFsmStart_fixed s call
    have hcalls := startAll_fixed (spdFsmStart s call).2 calls
    rw [startAll]
    exact ⟨hcalls.1.trans hcall.1, hcalls.2.trans hcall.2⟩

end

/-- The trace goes on without the callback. -/
def Quiet (s s' : St) : Prop := ∃ events, s'.trace = s.trace ++ events ∧ .termCb ∉ events

theorem Quiet.refl (s : St) : Quiet s s := ⟨[], by simp, by simp⟩

theorem Quiet.trans {s'' : St} (h : Quiet s s') (h' : Quiet s' s'') : Quiet s s'' := by
  rcases h with ⟨events, htrace, hnot⟩
  rcases h' with ⟨events', htrace', hnot'⟩
  refine ⟨events ++ events', ?_, by simp [hnot, hnot']⟩
  rw [htrace', htrace, List.append_assoc]

theorem Quiet.count (h : Quiet s s') : s'.trace.count .termCb = s.trace.count .termCb := by
  rcases h with ⟨events, htrace, hnot⟩
  rw [htrace, List.count_append, List.count_eq_zero.mpr hnot, Nat.add_zero]

/-- The trace of a call that ends the machine, and its last state. -/
def Ended (s s' : St) : Prop :=
  s'.fsm.current = s.fsm.term ∧ ∃ events, .termCb ∉ events ∧
    s'.trace = s.trace ++ events ++ [.current s.fsm.term] ++
      (if s.fsm.termCb then [.termCb] else [])

theorem ended_finish (lock : Nat) {t : St} (hquiet : Quiet s t) (hterm : t.fsm.term = s.fsm.term)
    (hcb : t.fsm.termCb = s.fsm.termCb) : Ended s (finish { t with lock := lock } true) := by
  rcases hquiet with ⟨events, htrace, hnot⟩
  have hfinish := @finish_true { t with lock := lock }
  constructor
  · rw [hfinish.2]
    exact hterm
  · refine ⟨events, hnot, ?_⟩
    rw [hfinish.1, hterm, hcb, htrace]

theorem inside_fixed (s : St) (tmp : SpdFsmEntry) (calls : List Call) :
    (inside s tmp calls).fsm.term = s.fsm.term ∧
      (inside s tmp calls).fsm.termCb = s.fsm.termCb :=
  inside_fixed_of (startAll_fixed (s.enter tmp) calls)

theorem inside_calm (hquiet : CalmInside (s.enter tmp) calls →
      Quiet (s.enter tmp) (startAll (s.enter tmp) calls) ∧
        ((s.enter tmp).fsm.current ≠ s.fsm.term →
          (startAll (s.enter tmp) calls).fsm.current ≠ s.fsm.term))
    (h : tmp.exec = true → CalmInside (s.enter tmp) calls) : Quiet s (inside s tmp calls) ∧
      ((inside s tmp calls).fsm.current = s.fsm.term ↔
        (s.moveTo tmp.toState).fsm.current = s.fsm.term) := by
  rw [inside]
  split
  next hexec =>
    have hall := hquiet (h hexec)
    have henter : Quiet s (s.enter tmp) := enter_trace s tmp
    refine ⟨henter.trans hall.1, ?_⟩
    rw [← @enter_current s tmp]
    constructor
    · intro hend
      by_contra hne
      exact hall.2 hne hend
    · intro hend
      rw [← @enter_term s tmp] at hend
      rw [startAll_terminated hend, ← @enter_term s tmp]
      exact hend
  next =>
    refine ⟨moveTo_trace { s with lock := s.lock + 1 } tmp.toState, ?_⟩
    rw [St.moveTo, St.moveTo]
    split <;> rfl

mutual

/-- A call in which nothing ends the machine early: either it does not end it, or it ends it with
    the callback. -/
theorem spdFsmStart_calm (s : St) (call : Call) (h : Calm s call)
    (hne : s.fsm.current ≠ s.fsm.term) :
    (Ends s call → Ended s (spdFsmStart s call).2) ∧
      (¬ Ends s call → Quiet s (spdFsmStart s call).2 ∧
        (spdFsmStart s call).2.fsm.current ≠ s.fsm.term) := by
  cases call with
  | mk action cond calls ret =>
    cases hpick : pick s (.mk action cond calls ret) with
    | none =>
      rw [spdFsmStart_none hpick]
      constructor
      · rintro ⟨-, tmp, htmp, -⟩
        rw [hpick] at htmp
        cases htmp
      · exact fun _ => ⟨.refl s, hne⟩
    | some tmp =>
      rcases spdFsmStart_some hne hpick with ⟨lock, hstart⟩
      have hin := inside_calm
        (fun hc => by
          have hall := startAll_calm (s.enter tmp) calls hc
          rw [enter_term] at hall
          exact hall)
        ((calm_iff hne hpick).mp h)
      have hfixed := inside_fixed s tmp calls
      have hends : Ends s (.mk action cond calls ret) ↔
          ((tmp.exec && ret != 0) || spdFsmIsTerminate (inside s tmp calls)) = true := by
        rw [Bool.or_eq_true, spdFsmIsTerminate_iff, hfixed.1, hin.2, Bool.and_eq_true, bne_iff_ne]
        constructor
        · rintro ⟨-, tmp', htmp, hend⟩
          rw [hpick] at htmp
          cases htmp
          exact hend.symm
        · intro hend
          exact ⟨hne, tmp, hpick, hend.symm⟩
      rw [hstart]
      constructor
      · intro hend
        rw [hends.mp hend]
        exact ended_finish lock hin.1 hfixed.1 hfixed.2
      · intro hend
        have hfalse : ((tmp.exec && ret != 0) || spdFsmIsTerminate (inside s tmp calls)) = false :=
          Bool.eq_false_iff.mpr fun htrue => hend (hends.mpr htrue)
        rw [hfalse, finish_false]
        refine ⟨hin.1, fun hcur => ?_⟩
        rw [Bool.or_eq_false_iff] at hfalse
        have hterm : (inside s tmp calls).fsm.current = (inside s tmp calls).fsm.term :=
          hcur.trans hfixed.1.symm
        exact absurd (spdFsmIsTerminate_iff.mpr hterm) (Bool.eq_false_iff.mp hfalse.2)

theorem startAll_calm (s : St) (calls : List Call) (h : CalmInside s calls) :
    Quiet s (startAll s calls) ∧
      (s.fsm.current ≠ s.fsm.term → (startAll s calls).fsm.current ≠ s.fsm.term) := by
  cases calls with
  | nil => exact ⟨.refl s, id⟩
  | cons call calls =>
    rcases h with ⟨hends, hcall, hcalls⟩
    by_cases hne : s.fsm.current = s.fsm.term
    · rw [startAll_terminated hne]
      exact ⟨.refl s, id⟩
    · have hfirst := (spdFsmStart_calm s call hcall hne).2 hends
      have hrest := startAll_calm (spdFsmStart s call).2 calls hcalls
      rw [(spdFsmStart_fixed s call).1] at hrest
      rw [startAll]
      exact ⟨hfirst.1.trans hrest.1, fun _ => hrest.2 hfirst.2⟩

end

theorem ended_count (h : Ended s s') (hcb : s.fsm.termCb = true) :
    s'.trace.count .termCb = s.trace.count .termCb + 1 := by
  rcases h with ⟨-, events, hnot, htrace⟩
  rw [htrace, hcb]
  simp [List.count_append, List.count_eq_zero.mpr hnot]

/-- How often the callback has been called cannot go down. -/
theorem enter_count (s : St) (tmp : SpdFsmEntry) :
    (s.enter tmp).trace.count .termCb = s.trace.count .termCb :=
  Quiet.count (enter_trace s tmp)

mutual

/-- If a call inside ends the machine, this one calls the callback once more. -/
theorem spdFsmStart_wild (s : St) (call : Call) (hcb : s.fsm.termCb = true)
    (h : ¬ Calm s call) : s.trace.count .termCb + 2 ≤ (spdFsmStart s call).2.trace.count .termCb ∧
      (spdFsmStart s call).2.fsm.current = s.fsm.term := by
  cases call with
  | mk action cond calls ret =>
    by_cases hne : s.fsm.current = s.fsm.term
    · exact absurd (calm_of_terminated hne) h
    · cases hpick : pick s (.mk action cond calls ret) with
      | none =>
        rw [pick] at hpick
        rw [Calm, hpick] at h
        exact absurd (fun _ => trivial) h
      | some tmp =>
        rw [calm_iff hne hpick, Classical.not_imp] at h
        rcases h with ⟨hexec, hwild⟩
        have hall := startAll_wild (s.enter tmp) calls (enter_termCb.trans hcb) hwild
        rw [enter_count, enter_term] at hall
        rcases spdFsmStart_some hne hpick with ⟨lock, hstart⟩
        have hinside : inside s tmp calls = startAll (s.enter tmp) calls := by
          rw [inside, if_pos hexec]
        have hfixed := inside_fixed s tmp calls
        have hterm : spdFsmIsTerminate (inside s tmp calls) = true := by
          rw [spdFsmIsTerminate_iff, hfixed.1, hinside]
          exact hall.2
        rw [hstart, hterm, Bool.or_true]
        have hended := ended_finish lock (.refl (inside s tmp calls)) rfl rfl
        have hcount := ended_count hended (hfixed.2.trans hcb)
        rw [hinside] at hcount
        constructor
        · have hgoal : (startAll (s.enter tmp) calls).trace.count .termCb + 1 =
              (finish { inside s tmp calls with lock := lock } true).trace.count .termCb := by
            rw [hinside]
            exact hcount.symm
          have hle := hall.1
          rw [← hgoal]
          omega
        · exact hended.1.trans hfixed.1

theorem startAll_wild (s : St) (calls : List Call) (hcb : s.fsm.termCb = true)
    (h : ¬ CalmInside s calls) : s.trace.count .termCb + 1 ≤ (startAll s calls).trace.count .termCb ∧
      (startAll s calls).fsm.current = s.fsm.term := by
  cases calls with
  | nil => exact absurd trivial h
  | cons call calls =>
    have hfixed := spdFsmStart_fixed s call
    by_cases hne : s.fsm.current = s.fsm.term
    · exact absurd (calmInside_of_terminated hne) h
    · rw [startAll]
      by_cases hcall : Calm s call
      · have hfirst := spdFsmStart_calm s call hcall hne
        by_cases hends : Ends s call
        · have hended := hfirst.1 hends
          rw [startAll_terminated (hended.1.trans hfixed.1.symm), ended_count hended hcb]
          exact ⟨Nat.le_refl _, hended.1⟩
        · have hrest : ¬ CalmInside (spdFsmStart s call).2 calls := fun hc => h ⟨hends, hcall, hc⟩
          have hwild := startAll_wild (spdFsmStart s call).2 calls (hfixed.2.trans hcb) hrest
          rw [((hfirst.2 hends).1).count, hfixed.1] at hwild
          exact hwild
      · have hwild := spdFsmStart_wild s call hcb hcall
        rw [startAll_terminated (hwild.2.trans hfixed.1.symm)]
        exact ⟨by omega, hwild.2⟩

end

/-! ## Runs -/

/-- The machine runs and the callback has not been called, or it has terminated, with the callback
    as the last event. -/
def Orderly (s : St) : Prop :=
  .termCb ∉ s.trace ∨
    s.fsm.current = s.fsm.term ∧ ∃ events, .termCb ∉ events ∧
      s.trace = events ++ [.current s.fsm.term, .termCb]

theorem Orderly.terminatesOnce (h : Orderly s) : TerminatesOnce s := by
  rcases h with hnot | ⟨hcur, events, hnot, htrace⟩
  · have hnone : ∀ before after, s.trace ≠ before ++ .termCb :: after := by
      intro before after heq
      rw [heq] at hnot
      exact hnot (List.mem_append_right _ List.mem_cons_self)
    constructor
    · rw [List.count_eq_zero.mpr hnot]
      exact Nat.zero_le 1
    · exact fun before after heq => absurd heq (hnone before after)
    · exact fun before after heq => absurd heq (hnone before after)
  · have hsplit : ∀ before after, s.trace = before ++ .termCb :: after →
        before = events ++ [.current s.fsm.term] ∧ after = [] := by
      intro before after heq
      have hlast : (events ++ [.current s.fsm.term]) ++ .termCb :: [] = before ++ .termCb :: after := by
        rw [← heq, htrace, List.append_assoc]
        rfl
      have hfirst : .termCb ∉ events ++ [Event.current s.fsm.term] := by simpa using hnot
      rcases List.append_eq_append_iff.mp hlast with ⟨rest, hbefore, hafter⟩ | ⟨rest, hbefore, hafter⟩
      · cases rest with
        | nil =>
          rw [List.append_nil] at hbefore
          exact ⟨hbefore, (List.cons.inj hafter).2.symm⟩
        | cons e rest =>
          have hlength := congrArg List.length hafter
          simp at hlength
      · cases rest with
        | nil =>
          rw [List.append_nil] at hbefore
          exact ⟨hbefore.symm, (List.cons.inj hafter).2⟩
        | cons e rest =>
          rw [List.cons_append] at hafter
          have he := (List.cons.inj hafter).1
          rw [hbefore, ← he] at hfirst
          exact absurd (List.mem_append_right _ List.mem_cons_self) hfirst
    constructor
    · rw [htrace]
      simp [List.count_append, List.count_eq_zero.mpr hnot]
    · intro before after heq
      rw [(hsplit before after heq).1, List.getLast?_concat]
    · intro before after heq
      rw [(hsplit before after heq).2]
      exact ⟨hcur, List.not_mem_nil, fun v hv => absurd hv List.not_mem_nil⟩

theorem startAll_orderly (calls : List Call) (h : .termCb ∉ s.trace) (hcalm : CalmRun s calls) :
    Orderly (startAll s calls) := by
  induction calls generalizing s with
  | nil => exact Or.inl h
  | cons call calls ih =>
    rcases hcalm with ⟨hcall, hcalls⟩
    have hfixed := spdFsmStart_fixed s call
    rw [startAll]
    by_cases hne : s.fsm.current = s.fsm.term
    · rw [spdFsmStart_terminated hne] at hcalls ⊢
      exact ih h hcalls
    · have hfirst := spdFsmStart_calm s call hcall hne
      by_cases hends : Ends s call
      · rcases hfirst.1 hends with ⟨hcur, events, hnot, htrace⟩
        rw [startAll_terminated (hcur.trans hfixed.1.symm)]
        cases hcb : s.fsm.termCb with
        | true =>
          refine Or.inr ⟨hcur.trans hfixed.1.symm, s.trace ++ events, by simp [h, hnot], ?_⟩
          rw [htrace, hcb, hfixed.1, List.append_assoc (s.trace ++ events)]
          rfl
        | false =>
          left
          rw [htrace, hcb]
          simp [h, hnot]
      · rcases (hfirst.2 hends).1 with ⟨events, htrace, hnot⟩
        exact ih (by simp [htrace, h, hnot]) hcalls

theorem finish_quiet (terminate : Bool) (hcb : s.fsm.termCb = false) :
    Quiet s (finish s terminate) := by
  cases terminate with
  | false => exact .refl s
  | true =>
    refine ⟨[.current s.fsm.term], ?_, by simp⟩
    rw [finish_true.1, hcb]
    simp

mutual

/-- A machine without the callback never calls it. -/
theorem spdFsmStart_silent (s : St) (call : Call) (hcb : s.fsm.termCb = false) :
    Quiet s (spdFsmStart s call).2 := by
  cases call with
  | mk action cond calls ret =>
    by_cases hne : s.fsm.current = s.fsm.term
    · rw [spdFsmStart_terminated hne]
      exact .refl s
    · cases hpick : pick s (.mk action cond calls ret) with
      | none =>
        rw [spdFsmStart_none hpick]
        exact .refl s
      | some tmp =>
        rcases spdFsmStart_some hne hpick with ⟨lock, hstart⟩
        have hin : Quiet s (inside s tmp calls) := by
          rw [inside]
          split
          · have henter : Quiet s (s.enter tmp) := enter_trace s tmp
            exact henter.trans (startAll_silent (s.enter tmp) calls (enter_termCb.trans hcb))
          · exact moveTo_trace { s with lock := s.lock + 1 } tmp.toState
        have hend := @finish_quiet { inside s tmp calls with lock := lock }
          ((tmp.exec && ret != 0) || spdFsmIsTerminate (inside s tmp calls))
          ((inside_fixed s tmp calls).2.trans hcb)
        rw [hstart]
        exact hin.trans hend

theorem startAll_silent (s : St) (calls : List Call) (hcb : s.fsm.termCb = false) :
    Quiet s (startAll s calls) := by
  cases calls with
  | nil => exact .refl s
  | cons call calls =>
    rw [startAll]
    exact (spdFsmStart_silent s call hcb).trans (startAll_silent (spdFsmStart s call).2 calls
      ((spdFsmStart_fixed s call).2.trans hcb))

end

theorem startAll_run_wild (calls : List Call) (hcb : s.fsm.termCb = true)
    (h : ¬ CalmRun s calls) : 2 ≤ (startAll s calls).trace.count .termCb := by
  induction calls generalizing s with
  | nil => exact absurd trivial h
  | cons call calls ih =>
    have hfixed := spdFsmStart_fixed s call
    rw [startAll]
    by_cases hcall : Calm s call
    · exact ih (hfixed.2.trans hcb) fun hcalls => h ⟨hcall, hcalls⟩
    · have hwild := spdFsmStart_wild s call hcb hcall
      rw [startAll_terminated (hwild.2.trans hfixed.1.symm)]
      omega

/-- On a machine that has not terminated yet, the termination is reported once exactly when there is
    no callback, or no call that an `exec` function makes ends the machine. -/
theorem terminatesOnce_iff (fsm : SpdFsm) (calls : List Call) :
    TerminatesOnce (startAll ⟨fsm, 0, []⟩ calls) ↔
      fsm.termCb = false ∨ CalmRun ⟨fsm, 0, []⟩ calls := by
  constructor
  · intro h
    cases hcb : fsm.termCb with
    | false => exact Or.inl rfl
    | true =>
      right
      by_contra hwild
      have htwo := @startAll_run_wild ⟨fsm, 0, []⟩ calls hcb hwild
      have hone := h.once
      omega
  · rintro (hcb | hcalm)
    · rcases startAll_silent ⟨fsm, 0, []⟩ calls hcb with ⟨events, htrace, hnot⟩
      apply Orderly.terminatesOnce
      left
      rw [htrace]
      exact hnot
    · exact (startAll_orderly calls List.not_mem_nil hcalm).terminatesOnce

/-- An `exec` function that ends the machine it runs in. -/
def endsInside : Call :=
  .mk 0 (fun _ => true) [.mk 0 (fun _ => true) [] 0] 0

/-- The callback is called for the inner call and again for the outer one. -/
theorem terminatesTwice :
    let fsm : SpdFsm := ⟨0, 2, [⟨0, 0, 1, true⟩, ⟨1, 0, 2, false⟩], true⟩
    fsm.current ≠ fsm.term ∧
      (startAll ⟨fsm, 0, []⟩ [endsInside]).trace =
        [.current 1, .exec, .current 2, .current 2, .termCb, .current 2, .termCb] ∧
      ¬ TerminatesOnce (startAll ⟨fsm, 0, []⟩ [endsInside]) := by
  intro fsm
  have htrace : (startAll ⟨fsm, 0, []⟩ [endsInside]).trace =
      [.current 1, .exec, .current 2, .current 2, .termCb, .current 2, .termCb] := by
    decide +kernel
  refine ⟨by decide, htrace, ?_⟩
  intro h
  have hone := h.once
  rw [htrace] at hone
  exact absurd hone (by decide)

end

end Spider.Fsm
