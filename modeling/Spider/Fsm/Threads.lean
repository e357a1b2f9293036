import Spider.Fsm
import Spider.Lib.Mutex
import Spider.Lib.Run

/-!
# Machines that several threads use

Threads call `spd_fsm_start` on one machine, and their statements come in any
order. The mutex is held from the loop over the entries until the `exec` function
has returned; the test at the top of a call and the termination at its end are
outside of it. `exec` functions and the callback may start actions themselves.
What the calls do is compared with the same calls one after another.
-/

namespace Spider.Fsm.Threads

open Lib Outcome

/-- The next statement of a call that has got past the test at its top, with the entry it has
    picked and what the `exec` function of this has returned. -/
inductive Stage where
  /-- `fsm.c:135`. -/
  | lock
  /-- The loop is at entry `i` (`fsm.c:138-148`). -/
  | look (i : Nat)
  /-- The loop has found no entry (`fsm.c:171`). -/
  | leave
  /-- `fsm.c:153-155`. -/
  | move (tmp : SpdFsmEntry)
  /-- `fsm.c:157-163`. -/
  | start (tmp : SpdFsmEntry)
  /-- The `exec` function runs. -/
  | exec (tmp : SpdFsmEntry)
  /-- `fsm.c:164`. -/
  | check (tmp : SpdFsmEntry) (ret : Int32)
  /-- `fsm.c:171`. -/
  | unlock (tmp : SpdFsmEntry) (ret : Int32) (terminate : Bool)
  /-- `fsm.c:174`. -/
  | terminate (tmp : SpdFsmEntry) (ret : Int32)
  /-- `fsm.c:175-177`. -/
  | report (tmp : SpdFsmEntry) (ret : Int32)
  /-- The callback runs. -/
  | callback (tmp : SpdFsmEntry) (ret : Int32)
  deriving DecidableEq, Repr

/-- The call holds the mutex. -/
def Stage.holds : Stage → Bool
  | .lock | .terminate .. | .report .. | .callback .. => false
  | _ => true

/-- A function of the user runs, which may start actions. -/
def Stage.userRuns : Stage → Bool
  | .exec .. | .callback .. => true
  | _ => false

/-- A call in progress: its arguments, the calls that were made inside of it and have picked an
    entry, and its next statement. -/
structure Frame where
  action : Int32
  cond : Nat → Bool
  calls : List Call
  stage : Stage

/-- The calls in progress of each thread, the inner ones first. `log` has the calls that have picked
    an entry and are not inside of others, in the order in which they return; `ending` says that a
    call has decided to end the machine. -/
structure State where
  fsm : SpdFsm
  trace : List Event
  mutex : Mutex Nat
  threads : Nat → List Frame
  log : List (Nat × Call)
  ending : Bool

def start (fsm : SpdFsm) : State := ⟨fsm, [], .unlocked, fun _ => [], [], false⟩

namespace State

/-- The machine as a single call sees it. -/
def st (σ : State) : St := ⟨σ.fsm, σ.mutex.depth, σ.trace⟩

def put (σ : State) (s : St) : State := { σ with fsm := s.fsm, trace := s.trace }

def setThread (σ : State) (t : Nat) (frames : List Frame) : State :=
  { σ with threads := Function.update σ.threads t frames }

/-- The innermost call of a thread goes on. -/
def goto (σ : State) (t : Nat) (f : Frame) (outer : List Frame) (stage : Stage) : State :=
  σ.setThread t ({ f with stage } :: outer)

/-- A call that has picked an entry returns. -/
def finish (σ : State) (t : Nat) (f : Frame) (ret : Int32) : List Frame → State
  | [] => { σ.setThread t [] with log := σ.log ++ [(t, .mk f.action f.cond f.calls ret)] }
  | g :: outer =>
    σ.setThread t
      ({ g with calls := g.calls ++ [.mk f.action f.cond f.calls ret] } :: outer)

end State

/-- The tests of the loop for entry `i`. -/
def Frame.picks (f : Frame) (current : Int32) (i : Nat) (tmp : SpdFsmEntry) : Bool :=
  (tmp.fromState == spdFsmActionAny || tmp.fromState == current) &&
    (tmp.action == spdFsmActionAny || f.action == tmp.action) && f.cond i

/-- The next statement of a thread's innermost call; `ret` is what an `exec` function that is
    running returns. -/
def advance (σ : State) (t : Nat) (f : Frame) (outer : List Frame) (ret : Int32) : State :=
  match f.stage with
  | .lock => { σ.goto t f outer (.look 0) with mutex := σ.mutex.take t }
  | .look i =>
    match σ.fsm.entryList[i]? with
    | none => σ.goto t f outer .leave
    | some tmp =>
      σ.goto t f outer (if f.picks σ.fsm.current i tmp then .move tmp else .look (i + 1))
  | .leave => { σ.setThread t outer with mutex := σ.mutex.release }
  | .move tmp => (σ.put (σ.st.moveTo tmp.toState)).goto t f outer (.start tmp)
  | .start tmp =>
    if tmp.exec then (σ.put (σ.st.emit .exec)).goto t f outer (.exec tmp)
    else σ.goto t f outer (.check tmp 0)
  | .exec tmp => σ.goto t f outer (.check tmp ret)
  | .check tmp ret =>
    let terminate := ret != 0 || spdFsmIsTerminate σ.st
    { σ.goto t f outer (.unlock tmp ret terminate) with ending := σ.ending || terminate }
  | .unlock tmp ret terminate =>
    let σ := { σ with mutex := σ.mutex.release }
    if terminate then σ.goto t f outer (.terminate tmp ret) else σ.finish t f ret outer
  | .terminate tmp ret =>
    (σ.put (σ.st.setCurrent σ.fsm.term)).goto t f outer (.report tmp ret)
  | .report tmp ret =>
    if σ.fsm.termCb then (σ.put (σ.st.emit .termCb)).goto t f outer (.callback tmp ret)
    else σ.finish t f ret outer
  | .callback _ ret => σ.finish t f ret outer

inductive Op where
  /-- A thread calls `spd_fsm_start` and executes the test at its top (`fsm.c:130-133`). -/
  | call (t : Nat) (action : Int32) (cond : Nat → Bool)
  | advance (t : Nat) (ret : Int32)

def step (σ : State) : Op → Outcome State
  | .call t action cond =>
    if spdFsmIsTerminate σ.st then .ok σ
    else .ok (σ.setThread t (⟨action, cond, [], .lock⟩ :: σ.threads t))
  | .advance t ret =>
    match σ.threads t with
    | [] => .ok σ
    | f :: outer => .ok (advance σ t f outer ret)

/-- The innermost call of a thread. -/
def State.top (σ : State) (t : Nat) : Option Frame := (σ.threads t).head?

/-- A thread starts actions from outside of the machine, from an `exec` function and from the
    callback, and waits until it can take the mutex. -/
def Enabled (σ : State) : Op → Prop
  | .call t _ _ => ∀ f ∈ σ.top t, f.stage.userRuns = true
  | .advance t _ => ∃ f ∈ σ.top t, f.stage = .lock → σ.mutex.Free t

instance (σ : State) : (op : Op) → Decidable (Enabled σ op)
  | .call _ _ _ => inferInstanceAs (Decidable (∀ _, _))
  | .advance _ _ => inferInstanceAs (Decidable (∃ _, _))

/-- The call picks the entry at which its loop is. -/
def Frame.picksNow (f : Frame) (fsm : SpdFsm) : Bool :=
  match f.stage with
  | .look i => fsm.entryList[i]?.any (f.picks fsm.current i)
  | _ => false

/-- A call picks an entry although another one has decided to end the machine. -/
def Late (σ : State) : Op → Prop
  | .call _ _ _ => False
  | .advance t _ => σ.ending = true ∧ ∃ f ∈ σ.top t, f.picksNow σ.fsm = true

instance (σ : State) : (op : Op) → Decidable (Late σ op)
  | .call _ _ _ => inferInstanceAs (Decidable False)
  | .advance _ _ => inferInstanceAs (Decidable (_ ∧ _))

/-- How often a thread has taken the mutex. -/
def levels (frames : List Frame) : Nat := frames.countP fun f => f.stage.holds

/-- The machine after the calls of the log, one after another. -/
def replay (fsm : SpdFsm) (log : List (Nat × Call)) : St := startAll ⟨fsm, 0, []⟩ (log.map (·.2))

/-- Only one thread is at a statement that needs the mutex, and when no call is in progress it is
    unlocked. -/
structure Exclusive (σ : State) : Prop where
  exclusive : ∀ t u, (∃ f ∈ σ.threads t, f.stage.holds) → (∃ f ∈ σ.threads u, f.stage.holds) →
    t = u
  unlocked : (∀ t, σ.threads t = []) → σ.mutex = .unlocked

/-- Whenever no call is in progress, the machine and its events are those of the calls that have
    picked an entry, made one after another as they have returned; so that the termination is
    reported once at most, if none of these ends the machine from inside of another one. -/
structure Serial (fsm : SpdFsm) (σ : State) : Prop where
  replayed : (∀ t, σ.threads t = []) →
    σ.fsm = (replay fsm σ.log).fsm ∧ σ.trace = (replay fsm σ.log).trace
  once : (∀ t, σ.threads t = []) → CalmRun ⟨fsm, 0, []⟩ (σ.log.map (·.2)) → TerminatesOnce σ.st

/-! ## The mutex -/

section

variable {σ σ' : State} {t u : Nat} {f : Frame} {outer frames : List Frame} {ret : Int32}
  {stage : Stage}

@[simp] theorem levels_nil : levels [] = 0 := rfl

@[simp] theorem levels_cons : levels (f :: outer) = levels outer + if f.stage.holds then 1 else 0 :=
  List.countP_cons

theorem levels_pos_iff : 0 < levels frames ↔ ∃ f ∈ frames, f.stage.holds := by
  rw [levels, List.countP_pos_iff]

/-- The mutex is as the calls in progress hold it. -/
def MutexSound (σ : State) : Prop := σ.mutex.Sound fun t => levels (σ.threads t)

@[simp] theorem setThread_self : (σ.setThread t frames).threads t = frames :=
  Function.update_self ..

theorem setThread_of_ne (h : u ≠ t) : (σ.setThread t frames).threads u = σ.threads u :=
  Function.update_of_ne h ..

/-- What a statement does to the mutex. -/
inductive Locking (t : Nat) (σ σ' : State) : Prop
  | keep (hmutex : σ'.mutex = σ.mutex) (hlevels : levels (σ'.threads t) = levels (σ.threads t))
  | take (hfree : σ.mutex.Free t) (hmutex : σ'.mutex = σ.mutex.take t)
      (hlevels : levels (σ'.threads t) = levels (σ.threads t) + 1)
  | release (hmutex : σ'.mutex = σ.mutex.release)
      (hlevels : levels (σ.threads t) = levels (σ'.threads t) + 1)

theorem MutexSound.of_locking (h : MutexSound σ) (hlocking : Locking t σ σ')
    (hothers : ∀ u, u ≠ t → σ'.threads u = σ.threads u) : MutexSound σ' := by
  have hlevels : ∀ u, u ≠ t → levels (σ'.threads u) = levels (σ.threads u) :=
    fun u hu => congrArg levels (hothers u hu)
  rw [MutexSound]
  cases hlocking with
  | keep hmutex hkeep =>
    have hsame : (fun u => levels (σ'.threads u)) = fun u => levels (σ.threads u) := by
      funext u
      by_cases hu : u = t
      · rw [hu, hkeep]
      · exact hlevels u hu
    rw [hmutex, hsame]
    exact h
  | take hfree hmutex htake =>
    rw [hmutex]
    exact Mutex.Sound.take h hfree htake hlevels
  | release hmutex hrelease =>
    rw [hmutex]
    exact Mutex.Sound.release h (t := t) (by omega) (by omega) hlevels

theorem finish_others (hu : u ≠ t) : (σ.finish t f ret outer).threads u = σ.threads u := by
  cases outer <;> exact Function.update_of_ne hu ..

theorem finish_levels : levels ((σ.finish t f ret outer).threads t) = levels outer := by
  cases outer <;> simp [State.finish, State.setThread]

theorem finish_mutex : (σ.finish t f ret outer).mutex = σ.mutex := by
  cases outer <;> rfl

theorem advance_others (hu : u ≠ t) : (advance σ t f outer ret).threads u = σ.threads u := by
  unfold advance
  split <;> try split
  all_goals first | exact setThread_of_ne hu | exact finish_others hu

theorem locking_keep (ht : σ.threads t = f :: outer) (hmutex : σ'.mutex = σ.mutex)
    (ht' : σ'.threads t = { f with stage } :: outer) (hholds : stage.holds = f.stage.holds) :
    Locking t σ σ' :=
  .keep hmutex (by rw [ht, ht', levels_cons, levels_cons, hholds])

theorem locking_release (ht : σ.threads t = f :: outer) (hmutex : σ'.mutex = σ.mutex.release)
    (hlevels : levels (σ'.threads t) = levels outer) (hholds : f.stage.holds = true) :
    Locking t σ σ' :=
  .release hmutex (by rw [ht, levels_cons, hlevels, if_pos hholds])

/-- A statement takes the mutex when it is free, releases it when the call holds it, or has nothing
    to do with it. -/
theorem locking_advance (ht : σ.threads t = f :: outer) (hfree : f.stage = .lock → σ.mutex.Free t) :
    Locking t σ (advance σ t f outer ret) := by
  unfold advance
  cases hs : f.stage with
  | lock =>
    refine .take (hfree hs) rfl ?_
    simp [State.goto, ht, hs, Stage.holds]
  | look i =>
    dsimp only
    cases σ.fsm.entryList[i]? with
    | none => exact locking_keep ht rfl setThread_self (by rw [hs]; rfl)
    | some tmp =>
      dsimp only
      split <;> exact locking_keep ht rfl setThread_self (by rw [hs]; rfl)
  | leave => exact locking_release ht rfl (congrArg levels setThread_self) (by rw [hs]; rfl)
  | move tmp => exact locking_keep ht rfl setThread_self (by rw [hs]; rfl)
  | start tmp =>
    dsimp only
    split <;> exact locking_keep ht rfl setThread_self (by rw [hs]; rfl)
  | exec tmp => exact locking_keep ht rfl setThread_self (by rw [hs]; rfl)
  | check tmp ret => exact locking_keep ht rfl setThread_self (by rw [hs]; rfl)
  | unlock tmp ret terminate =>
    have hholds : f.stage.holds = true := by rw [hs]; rfl
    cases terminate with
    | true =>
      refine locking_release ht rfl ?_ hholds
      exact (congrArg levels setThread_self).trans (by simp [Stage.holds])
    | false => exact locking_release ht finish_mutex finish_levels hholds
  | terminate tmp ret => exact locking_keep ht rfl setThread_self (by rw [hs]; rfl)
  | report tmp ret =>
    dsimp only
    split
    · exact locking_keep ht rfl setThread_self (by rw [hs]; rfl)
    · exact .keep finish_mutex (by rw [finish_levels, ht, levels_cons, hs]; rfl)
  | callback tmp ret => exact .keep finish_mutex (by rw [finish_levels, ht, levels_cons, hs]; rfl)

theorem step_returns (σ : State) (op : Op) : ∃ σ', step σ op = .ok σ' := by
  cases op with
  | call t action cond =>
    rw [step]
    split <;> exact ⟨_, rfl⟩
  | advance t ret =>
    rw [step]
    split <;> exact ⟨_, rfl⟩

theorem MutexSound.step {op : Op} (h : MutexSound σ) (he : Enabled σ op)
    (hstep : step σ op = .ok σ') : MutexSound σ' := by
  cases op with
  | call t action cond =>
    rw [Threads.step] at hstep
    split at hstep <;> obtain rfl := Outcome.ok.inj hstep
    · exact h
    · refine h.of_locking (t := t) (.keep rfl ?_) fun u hu => setThread_of_ne hu
      simp [Stage.holds]
  | advance t ret =>
    obtain ⟨f, htop, hfree⟩ := he
    rw [Threads.step] at hstep
    cases ht : σ.threads t with
    | nil =>
      rw [ht] at hstep
      obtain rfl := Outcome.ok.inj hstep
      exact h
    | cons g outer =>
      rw [State.top, ht] at htop
      obtain rfl := Option.some.inj htop
      rw [ht] at hstep
      obtain rfl := Outcome.ok.inj hstep
      exact h.of_locking (locking_advance ht hfree) fun u hu => advance_others hu

end

/-! ## One call after another -/

/-- The same machine with the same events; the mutex is left aside. -/
def Same (s s' : St) : Prop := s.fsm = s'.fsm ∧ s.trace = s'.trace

/-- The machine inside of a call that found it as `x`. -/
def Frame.inner (f : Frame) (x : St) : St :=
  match f.stage with
  | .lock | .look _ | .leave | .move _ => x
  | .start tmp => { x with lock := x.lock + 1 }.moveTo tmp.toState
  | .exec tmp => startAll (x.enter tmp) f.calls
  | .check tmp _ | .unlock tmp _ _ | .terminate tmp _ => inside x tmp f.calls
  | .report tmp _ => (inside x tmp f.calls).setCurrent x.fsm.term
  | .callback tmp _ => ((inside x tmp f.calls).setCurrent x.fsm.term).emit .termCb

/-- The machine inside of calls the outermost of which found it as `s`. -/
def within (s : St) (frames : List Frame) : St := frames.foldr Frame.inner s

def Live (s : St) : Prop := s.fsm.current ≠ s.fsm.term

/-- The call, made on `x`, has picked `tmp`. -/
structure Picked (x : St) (f : Frame) (tmp : SpdFsmEntry) : Prop where
  live : Live x
  pick : select x.fsm.current f.action f.cond 0 x.fsm.entryList = some tmp

/-- The call has decided to end the machine. -/
def ends (x : St) (f : Frame) (tmp : SpdFsmEntry) (ret : Int32) : Bool :=
  ret != 0 || spdFsmIsTerminate (inside x tmp f.calls)

/-- A call that was made on `x` is where it can be. -/
def FrameOk (ending : Bool) (x : St) (f : Frame) : Prop :=
  match f.stage with
  | .lock => f.calls = [] ∧ (ending = false → Live x)
  | .look i => f.calls = [] ∧ (ending = false → Live x ∧
      select x.fsm.current f.action f.cond 0 x.fsm.entryList =
        select x.fsm.current f.action f.cond i (x.fsm.entryList.drop i))
  | .leave => ending = false → Live x
  | .move tmp | .start tmp => f.calls = [] ∧ Picked x f tmp
  | .exec tmp => tmp.exec = true ∧ Picked x f tmp
  | .check tmp ret => (tmp.exec = false → ret = 0) ∧ Picked x f tmp
  | .unlock tmp ret terminate =>
    (tmp.exec = false → ret = 0) ∧ Picked x f tmp ∧ terminate = ends x f tmp ret ∧
      (terminate = true → ending = true)
  | .terminate tmp ret | .report tmp ret =>
    (tmp.exec = false → ret = 0) ∧ Picked x f tmp ∧ ends x f tmp ret = true ∧ ending = true
  | .callback tmp ret =>
    (tmp.exec = false → ret = 0) ∧ Picked x f tmp ∧ ends x f tmp ret = true ∧ ending = true ∧
      x.fsm.termCb = true

def FramesOk (ending : Bool) (s : St) : List Frame → Prop
  | [] => True
  | f :: outer => FrameOk ending (within s outer) f ∧ (∀ g ∈ outer, ∃ tmp, g.stage = .exec tmp) ∧
      FramesOk ending s outer

/-- The thread has not picked an entry. -/
def Waiting (ending : Bool) (s : St) (frames : List Frame) : Prop :=
  frames = [] ∨ ∃ f, frames = [f] ∧
    (f.stage = .lock ∨ (∃ i, f.stage = .look i) ∨ f.stage = .leave) ∧ FrameOk ending s f

/-- After the calls of the log, thread `t` is in its own calls, and the others wait. -/
structure Lane (fsm : SpdFsm) (t : Nat) (σ : State) : Prop where
  same : Same σ.st (within (replay fsm σ.log) (σ.threads t))
  frames : FramesOk σ.ending (replay fsm σ.log) (σ.threads t)
  others : ∀ u, u ≠ t → Waiting σ.ending (replay fsm σ.log) (σ.threads u)

section

variable {fsm : SpdFsm} {σ σ' : State} {t u : Nat} {f : Frame} {outer frames : List Frame}
  {ret : Int32} {stage : Stage} {s s' x : St} {tmp : SpdFsmEntry} {ending ending' : Bool}

theorem Same.trans {s'' : St} (h : Same s s') (h' : Same s' s'') : Same s s'' :=
  ⟨h.1.trans h'.1, h.2.trans h'.2⟩

theorem Same.symm (h : Same s s') : Same s' s := ⟨h.1.symm, h.2.symm⟩

theorem Same.setCurrent (h : Same s s') (v : Int32) : Same (s.setCurrent v) (s'.setCurrent v) :=
  ⟨by simp [St.setCurrent, h.1], by simp [h.2]⟩

theorem Same.emit (h : Same s s') (e : Event) : Same (s.emit e) (s'.emit e) :=
  ⟨h.1, by simp [h.2]⟩

theorem Same.moveTo (h : Same s s') (v : Int32) : Same (s.moveTo v) (s'.moveTo v) := by
  rw [St.moveTo, St.moveTo]
  split
  · exact h.setCurrent v
  · exact h

theorem Same.isTerminate (h : Same s s') : spdFsmIsTerminate s = spdFsmIsTerminate s' := by
  rw [spdFsmIsTerminate, spdFsmIsTerminate, h.1]

theorem startAll_append (s : St) (calls calls' : List Call) :
    startAll s (calls ++ calls') = startAll (startAll s calls) calls' := by
  induction calls generalizing s with
  | nil => rfl
  | cons call calls ih => exact ih _

@[simp] theorem within_nil : within s [] = s := rfl
@[simp] theorem within_cons : within s (f :: outer) = f.inner (within s outer) := rfl

theorem Waiting.within (h : Waiting ending s frames) : within s frames = s := by
  rcases h with rfl | ⟨f, rfl, hs | ⟨i, hs⟩ | hs, -⟩
  · rfl
  all_goals simp [Frame.inner, hs]

theorem Waiting.framesOk (h : Waiting ending s frames) : FramesOk ending s frames := by
  rcases h with rfl | ⟨f, rfl, -, hok⟩
  · trivial
  · exact ⟨hok, by simp, trivial⟩

theorem FrameOk.mono (h : FrameOk ending x f) (ho : ending = true → ending' = true) :
    FrameOk ending' x f := by
  have hfalse : ending' = false → ending = false := by
    intro hf
    by_contra hne
    rw [ho (Bool.not_eq_false _ ▸ hne)] at hf
    cases hf
  unfold FrameOk at h ⊢
  split <;> simp_all

theorem Waiting.mono (h : Waiting ending s frames) (ho : ending = true → ending' = true) :
    Waiting ending' s frames := by
  rcases h with hnil | ⟨f, hf, hs, hok⟩
  · exact Or.inl hnil
  · exact Or.inr ⟨f, hf, hs, hok.mono ho⟩

theorem FramesOk.mono (h : FramesOk ending s frames) (ho : ending = true → ending' = true) :
    FramesOk ending' s frames := by
  induction frames with
  | nil => trivial
  | cons f outer ih => exact ⟨h.1.mono ho, h.2.1, ih h.2.2⟩

/-- A call on the way to the mutex was made before the machine ended, and so were the calls that it
    is inside of. -/
theorem FrameOk.live (h : FrameOk ending x f) (ho : ending = false) : Live x := by
  unfold FrameOk at h
  split at h
  · exact h.2 ho
  · exact (h.2 ho).1
  · exact h ho
  · exact h.2.live
  · exact h.2.live
  · exact h.2.live
  · exact h.2.live
  · exact h.2.1.live
  · exact h.2.1.live
  · exact h.2.1.live
  · exact h.2.1.live

theorem FramesOk.live (h : FramesOk ending s (f :: outer)) (ho : ending = false) : Live s := by
  induction outer generalizing f with
  | nil => exact h.1.live ho
  | cons g outer ih => exact ih h.2.2

/-- The innermost call of the thread goes on. -/
theorem Lane.goto (h : Lane fsm t σ) (ht : σ.threads t = f :: outer)
    (hthreads : σ'.threads = Function.update σ.threads t ({ f with stage } :: outer))
    (hlog : σ'.log = σ.log) (hover : σ.ending = true → σ'.ending = true)
    (hsame : Same σ'.st (Frame.inner { f with stage } (within (replay fsm σ.log) outer)))
    (hok : FrameOk σ'.ending (within (replay fsm σ.log) outer) { f with stage }) :
    Lane fsm t σ' := by
  have hframes := h.frames
  rw [ht] at hframes
  refine ⟨?_, ?_, ?_⟩
  · rw [hlog, hthreads, Function.update_self]
    exact hsame
  · rw [hlog, hthreads, Function.update_self]
    exact ⟨hok, hframes.2.1, hframes.2.2.mono hover⟩
  · intro u hu
    rw [hlog, hthreads, Function.update_of_ne hu]
    exact (h.others u hu).mono hover

/-- A call of another thread goes on and picks no entry. -/
theorem Lane.wait (h : Lane fsm t σ) (hu : u ≠ t) (hst : Same σ'.st σ.st)
    (hthreads : σ'.threads = Function.update σ.threads u frames) (hlog : σ'.log = σ.log)
    (hover : σ'.ending = σ.ending) (hwait : Waiting σ.ending (replay fsm σ.log) frames) :
    Lane fsm t σ' := by
  refine ⟨?_, ?_, ?_⟩
  · rw [hlog, hthreads, Function.update_of_ne hu.symm]
    exact hst.trans h.same
  · rw [hlog, hthreads, Function.update_of_ne hu.symm, hover]
    exact h.frames
  · intro v hv
    rw [hlog, hthreads, hover]
    by_cases hvu : v = u
    · subst hvu
      rw [Function.update_self]
      exact hwait
    · rw [Function.update_of_ne hvu]
      exact h.others v hv

/-- A thread that does not hold the mutex waits, unless a call has decided to end the machine. -/
theorem FramesOk.waiting (h : FramesOk false s frames) (hzero : levels frames = 0) :
    Waiting false s frames := by
  cases frames with
  | nil => exact Or.inl rfl
  | cons f outer =>
    rw [levels_cons] at hzero
    cases outer with
    | cons g outer =>
      obtain ⟨tmp, hg⟩ := h.2.1 g List.mem_cons_self
      rw [levels_cons, hg] at hzero
      simp [Stage.holds] at hzero
    | nil =>
      have hok := h.1
      rw [within_nil] at hok
      refine Or.inr ⟨f, rfl, ?_, hok⟩
      unfold FrameOk at hok
      cases hs : f.stage <;> simp_all [Stage.holds]

/-- Before a call has decided to end the machine, any thread may go on when no other one holds the
    mutex. -/
theorem Lane.swap (h : Lane fsm t σ) (hu : u ≠ t) (hover : σ.ending = false)
    (hzero : levels (σ.threads t) = 0) : Lane fsm u σ := by
  have hwait : Waiting σ.ending (replay fsm σ.log) (σ.threads t) := by
    rw [hover]
    exact FramesOk.waiting (hover ▸ h.frames) hzero
  have hu' := h.others u hu
  refine ⟨?_, hu'.framesOk, ?_⟩
  · rw [hu'.within, ← hwait.within]
    exact h.same
  · intro v hv
    by_cases hvt : v = t
    · exact hvt ▸ hwait
    · exact h.others v hvt

/-- Where the calls of the log have left the machine is no matter to a thread that waits, when a
    call has decided to end it or the thread is not in the loop yet. -/
theorem Waiting.move (h : Waiting ending s frames)
    (hlive : ending = false → Live s' ∧ levels frames = 0) : Waiting ending s' frames := by
  rcases h with hnil | ⟨f, rfl, hs, hok⟩
  · exact Or.inl hnil
  · refine Or.inr ⟨f, rfl, hs, ?_⟩
    unfold FrameOk at hok ⊢
    rcases hs with hs | ⟨i, hs⟩ | hs
    · rw [hs] at hok ⊢
      exact ⟨hok.1, fun ho => (hlive ho).1⟩
    · rw [hs] at hok ⊢
      refine ⟨hok.1, fun ho => ?_⟩
      have hzero := (hlive ho).2
      simp [hs, Stage.holds] at hzero
    · rw [hs]
      exact fun ho => (hlive ho).1

theorem replay_concat (log : List (Nat × Call)) (t : Nat) (call : Call) :
    replay fsm (log ++ [(t, call)]) = (spdFsmStart (replay fsm log) call).2 := by
  rw [replay, List.map_append, startAll_append]
  rfl

theorem inner_exec (hs : f.stage = .exec tmp) :
    f.inner x = startAll (x.enter tmp) f.calls := by
  rw [Frame.inner, hs]

/-- The innermost call of the thread returns. -/
theorem Lane.finish (h : Lane fsm t σ) (ht : σ.threads t = f :: outer) (mutex : Mutex Nat)
    (hsame : Same σ.st (spdFsmStart (within (replay fsm σ.log) outer)
      (.mk f.action f.cond f.calls ret)).2)
    (hlive : σ.ending = false → Live (spdFsmStart (within (replay fsm σ.log) outer)
      (.mk f.action f.cond f.calls ret)).2 ∧ ∀ u, u ≠ t → levels (σ.threads u) = 0) :
    Lane fsm t ({ σ with mutex }.finish t f ret outer) := by
  have hframes := h.frames
  rw [ht] at hframes
  cases outer with
  | nil =>
    rw [within_nil] at hsame hlive
    refine ⟨?_, ?_, ?_⟩
    · simp only [State.finish, setThread_self, replay_concat, within_nil]
      exact hsame
    · simp only [State.finish, setThread_self]
      trivial
    · intro u hu
      simp only [State.finish, setThread_of_ne hu, replay_concat]
      exact (h.others u hu).move fun ho => ⟨(hlive ho).1, (hlive ho).2 u hu⟩
  | cons g outer =>
    obtain ⟨tmp, hg⟩ := hframes.2.1 g List.mem_cons_self
    refine ⟨?_, ?_, ?_⟩
    · simp only [State.finish, setThread_self]
      have hinner := inner_exec
        (f := { g with calls := g.calls ++ [.mk f.action f.cond f.calls ret] })
        (x := within (replay fsm σ.log) outer) hg
      rw [startAll_append, ← inner_exec hg] at hinner
      exact hsame.trans ⟨congrArg St.fsm hinner.symm, congrArg St.trace hinner.symm⟩
    · simp only [State.finish, setThread_self]
      have hok := hframes.2.2
      refine ⟨?_, hok.2⟩
      have hfirst := hok.1
      rw [FrameOk, hg] at hfirst ⊢
      exact ⟨hfirst.1, hfirst.2.live, hfirst.2.pick⟩
    · intro u hu
      simp only [State.finish, setThread_of_ne hu]
      exact h.others u hu

/-- What the end of a call that has picked an entry comes to. -/
theorem Picked.start (h : Picked x f tmp) (hret : tmp.exec = false → ret = 0) :
    ∃ lock, (spdFsmStart x (.mk f.action f.cond f.calls ret)).2 =
      Fsm.finish { inside x tmp f.calls with lock := lock } (ends x f tmp ret) := by
  obtain ⟨lock, hstart⟩ := @spdFsmStart_some x f.calls tmp f.action f.cond ret h.live h.pick
  refine ⟨lock, ?_⟩
  have hends : ((tmp.exec && ret != 0) || spdFsmIsTerminate (inside x tmp f.calls)) =
      ends x f tmp ret := by
    rw [ends]
    cases hexec : tmp.exec with
    | true => rfl
    | false => simp [hret hexec]
  rw [hstart, hends]

/-- The test of the loop at one entry is one step of the search for an entry. -/
theorem select_drop {fsm' : SpdFsm} {i : Nat} (hi : fsm'.entryList[i]? = some tmp) :
    select fsm'.current f.action f.cond i (fsm'.entryList.drop i) =
      if f.picks fsm'.current i tmp then some tmp
      else select fsm'.current f.action f.cond (i + 1) (fsm'.entryList.drop (i + 1)) := by
  obtain ⟨hlt, htmp⟩ := List.getElem?_eq_some_iff.mp hi
  rw [List.drop_eq_getElem_cons hlt, htmp, select]
  unfold Frame.picks
  by_cases hfrom : tmp.fromState ≠ spdFsmActionAny ∧ tmp.fromState ≠ fsm'.current
  · simp [hfrom]
  · by_cases haction : tmp.action ≠ spdFsmActionAny ∧ f.action ≠ tmp.action
    · simp [hfrom, haction]
    · rw [if_neg hfrom, if_neg haction]
      rw [not_and_or, not_not, not_not] at hfrom haction
      simp [hfrom, haction]

/-- The innermost call of the thread returns without having picked an entry. -/
theorem Lane.leave (h : Lane fsm t σ) (ht : σ.threads t = f :: outer) (hs : f.stage = .leave)
    (mutex : Mutex Nat) : Lane fsm t { σ.setThread t outer with mutex } := by
  have hframes := h.frames
  have hsame := h.same
  rw [ht] at hframes hsame
  simp only [within_cons, Frame.inner, hs] at hsame
  refine ⟨?_, ?_, ?_⟩
  · simp only [setThread_self]
    exact hsame
  · simp only [setThread_self]
    exact hframes.2.2
  · intro u hu
    simp only [setThread_of_ne hu]
    exact h.others u hu

theorem same_put (s : St) : Same (σ.put s).st s := ⟨rfl, rfl⟩

/-- The end of a call that ends the machine. -/
theorem same_finish (s : St) (lock : Nat) : Same (Fsm.finish { s with lock := lock } true)
    (if s.fsm.termCb then (s.setCurrent s.fsm.term).emit .termCb
      else s.setCurrent s.fsm.term) := by
  unfold Fsm.finish
  cases hcb : s.fsm.termCb <;> simp [Same, St.setCurrent, St.emit, hcb]

/-- A call that has decided to end the machine returns. -/
theorem Lane.finishEnd (h : Lane fsm t σ) (ht : σ.threads t = f :: outer)
    (hpicked : Picked (within (replay fsm σ.log) outer) f tmp) (hret : tmp.exec = false → ret = 0)
    (hends : ends (within (replay fsm σ.log) outer) f tmp ret = true) (hover : σ.ending = true)
    (hsame : Same σ.st
      (if (within (replay fsm σ.log) outer).fsm.termCb then
        ((inside (within (replay fsm σ.log) outer) tmp f.calls).setCurrent
          (within (replay fsm σ.log) outer).fsm.term).emit .termCb
      else (inside (within (replay fsm σ.log) outer) tmp f.calls).setCurrent
        (within (replay fsm σ.log) outer).fsm.term)) :
    Lane fsm t (σ.finish t f ret outer) := by
  obtain ⟨lock, hstart⟩ := hpicked.start (f := f) hret
  have hfixed := inside_fixed (within (replay fsm σ.log) outer) tmp f.calls
  have hfinish := same_finish (inside (within (replay fsm σ.log) outer) tmp f.calls) lock
  rw [hfixed.1, hfixed.2] at hfinish
  refine h.finish ht σ.mutex ?_ ?_
  · rw [hstart, hends]
    exact hsame.trans hfinish.symm
  · intro ho
    rw [hover] at ho
    cases ho

/-- Where the innermost call of the thread is. -/
theorem Lane.top (h : Lane fsm t σ) (ht : σ.threads t = f :: outer) :
    FrameOk σ.ending (within (replay fsm σ.log) outer) f ∧
      Same σ.st (f.inner (within (replay fsm σ.log) outer)) := by
  have hframes := h.frames
  have hsame := h.same
  rw [ht] at hframes hsame
  exact ⟨hframes.1, hsame⟩

theorem Lane.look {i : Nat} (h : Lane fsm t σ) (ht : σ.threads t = f :: outer)
    (hs : f.stage = .look i) (hlate : σ.ending = true → f.picksNow σ.fsm = false) :
    Lane fsm t (Threads.advance σ t f outer ret) := by
  obtain ⟨hok, hsame⟩ := h.top ht
  simp only [FrameOk, Frame.inner, hs] at hok hsame
  have hfsm : σ.fsm = (within (replay fsm σ.log) outer).fsm := hsame.1
  simp only [Threads.advance, hs]
  cases hi : σ.fsm.entryList[i]? with
  | none => exact h.goto ht rfl rfl id hsame fun ho => (hok.2 ho).1
  | some tmp =>
    have hdrop := @select_drop f tmp σ.fsm i hi
    rw [hfsm] at hdrop
    dsimp only
    cases hpicks : f.picks σ.fsm.current i tmp with
    | true =>
      -- Nobody has decided to end the machine, so that it is where the call found it.
      have ho : σ.ending = false := by
        by_contra hending
        have hnot := hlate (Bool.not_eq_false _ ▸ hending)
        simp [Frame.picksNow, hs, hi, hpicks] at hnot
      rw [hfsm] at hpicks
      rw [hpicks] at hdrop
      obtain ⟨hlive, hselect⟩ := hok.2 ho
      exact h.goto ht rfl rfl id hsame ⟨hok.1, hlive, hselect.trans hdrop⟩
    | false =>
      rw [hfsm] at hpicks
      rw [hpicks] at hdrop
      refine h.goto ht rfl rfl id hsame ⟨hok.1, fun ho => ?_⟩
      obtain ⟨hlive, hselect⟩ := hok.2 ho
      exact ⟨hlive, hselect.trans hdrop⟩

theorem Lane.start (h : Lane fsm t σ) (ht : σ.threads t = f :: outer)
    (hs : f.stage = .start tmp) : Lane fsm t (Threads.advance σ t f outer ret) := by
  obtain ⟨hok, hsame⟩ := h.top ht
  simp only [FrameOk, Frame.inner, hs] at hok hsame
  simp only [Threads.advance, hs]
  cases hexec : tmp.exec with
  | true =>
    refine h.goto ht rfl rfl id ?_ ⟨hexec, hok.2.live, hok.2.pick⟩
    simp only [Frame.inner]
    rw [hok.1]
    exact (same_put _).trans (hsame.emit .exec)
  | false =>
    refine h.goto ht rfl rfl id ?_ ⟨fun _ => rfl, hok.2.live, hok.2.pick⟩
    simp only [Frame.inner, inside, hexec]
    exact hsame

theorem Lane.check {r : Int32} (h : Lane fsm t σ) (ht : σ.threads t = f :: outer)
    (hs : f.stage = .check tmp r) : Lane fsm t (Threads.advance σ t f outer ret) := by
  obtain ⟨hok, hsame⟩ := h.top ht
  simp only [FrameOk, Frame.inner, hs] at hok hsame
  simp only [Threads.advance, hs]
  have hends : (r != 0 || spdFsmIsTerminate σ.st) =
      ends (within (replay fsm σ.log) outer) f tmp r := by
    rw [ends, hsame.isTerminate]
  refine h.goto ht rfl rfl (fun ho => ?_) hsame
    ⟨hok.1, ⟨hok.2.live, hok.2.pick⟩, hends, fun hterminate => ?_⟩
  · simp only [ho, Bool.true_or]
  · simp only [hterminate, Bool.or_true]

/-- The call unlocks the mutex, and returns if it does not end the machine. -/
theorem Lane.unlock {r : Int32} {terminate : Bool} (h : Lane fsm t σ)
    (ht : σ.threads t = f :: outer) (hs : f.stage = .unlock tmp r terminate)
    (hothers : ∀ u, u ≠ t → levels (σ.threads u) = 0) :
    Lane fsm t (Threads.advance σ t f outer ret) := by
  obtain ⟨hok, hsame⟩ := h.top ht
  simp only [FrameOk, Frame.inner, hs] at hok hsame
  obtain ⟨hret, hpicked, hends, hending⟩ := hok
  simp only [Threads.advance, hs]
  cases terminate with
  | true =>
    exact h.goto ht rfl rfl id hsame
      ⟨hret, ⟨hpicked.live, hpicked.pick⟩, hends.symm, hending rfl⟩
  | false =>
    obtain ⟨lock, hstart⟩ := hpicked.start (f := f) hret
    rw [← hends, finish_false] at hstart
    refine h.finish ht _ ?_ fun _ => ⟨?_, hothers⟩
    · rw [hstart]
      exact hsame
    · rw [hstart]
      rw [ends, eq_comm, Bool.or_eq_false_iff] at hends
      exact fun hend => Bool.eq_false_iff.mp hends.2 (spdFsmIsTerminate_iff.mpr hend)

/-- The call calls the callback, if there is one. -/
theorem Lane.report {r : Int32} (h : Lane fsm t σ) (ht : σ.threads t = f :: outer)
    (hs : f.stage = .report tmp r) : Lane fsm t (Threads.advance σ t f outer ret) := by
  obtain ⟨hok, hsame⟩ := h.top ht
  simp only [FrameOk, Frame.inner, hs] at hok hsame
  have hcb : σ.fsm.termCb = (within (replay fsm σ.log) outer).fsm.termCb := by
    rw [← (inside_fixed (within (replay fsm σ.log) outer) tmp f.calls).2, ← setCurrent_termCb,
      ← hsame.1]
    rfl
  simp only [Threads.advance, hs]
  cases hterm : σ.fsm.termCb with
  | true =>
    rw [hterm] at hcb
    exact h.goto ht rfl rfl id ((same_put _).trans (hsame.emit _))
      ⟨hok.1, ⟨hok.2.1.live, hok.2.1.pick⟩, hok.2.2.1, hok.2.2.2, hcb.symm⟩
  | false =>
    rw [hterm] at hcb
    refine h.finishEnd ht hok.2.1 hok.1 hok.2.2.1 hok.2.2.2 ?_
    rw [← hcb]
    exact hsame

/-- The thread whose calls are in progress executes a statement. -/
theorem Lane.advance (h : Lane fsm t σ) (ht : σ.threads t = f :: outer)
    (hothers : f.stage.holds = true → ∀ u, u ≠ t → levels (σ.threads u) = 0)
    (hlate : σ.ending = true → f.picksNow σ.fsm = false) :
    Lane fsm t (Threads.advance σ t f outer ret) := by
  obtain ⟨hok, hsame⟩ := h.top ht
  cases hs : f.stage with
  | lock =>
    simp only [FrameOk, Frame.inner, hs] at hok hsame
    simp only [Threads.advance, hs]
    exact h.goto ht rfl rfl id hsame ⟨hok.1, fun ho => ⟨hok.2 ho, rfl⟩⟩
  | look i => exact h.look ht hs hlate
  | leave =>
    simp only [Threads.advance, hs]
    exact h.leave ht hs _
  | move tmp =>
    simp only [FrameOk, Frame.inner, hs] at hok hsame
    simp only [Threads.advance, hs]
    refine h.goto ht rfl rfl id ?_ ⟨hok.1, hok.2.live, hok.2.pick⟩
    have hlocked : Same σ.st { within (replay fsm σ.log) outer with
        lock := (within (replay fsm σ.log) outer).lock + 1 } := ⟨hsame.1, hsame.2⟩
    exact (same_put _).trans (hlocked.moveTo _)
  | start tmp => exact h.start ht hs
  | exec tmp =>
    simp only [FrameOk, Frame.inner, hs] at hok hsame
    simp only [Threads.advance, hs]
    refine h.goto ht rfl rfl id ?_ ⟨fun hexec => ?_, hok.2.live, hok.2.pick⟩
    · simp only [Frame.inner, inside, hok.1]
      exact hsame
    · rw [hok.1] at hexec
      cases hexec
  | check tmp r => exact h.check ht hs
  | unlock tmp r terminate => exact h.unlock ht hs (hothers (by rw [hs]; rfl))
  | terminate tmp r =>
    simp only [FrameOk, Frame.inner, hs] at hok hsame
    simp only [Threads.advance, hs]
    have hterm : σ.fsm.term = (within (replay fsm σ.log) outer).fsm.term := by
      rw [← (inside_fixed (within (replay fsm σ.log) outer) tmp f.calls).1, ← hsame.1]
      rfl
    refine h.goto ht rfl rfl id ?_ ⟨hok.1, ⟨hok.2.1.live, hok.2.1.pick⟩, hok.2.2⟩
    simp only [Frame.inner]
    rw [hterm]
    exact (same_put _).trans (hsame.setCurrent _)
  | report tmp r => exact h.report ht hs
  | callback tmp r =>
    simp only [FrameOk, Frame.inner, hs] at hok hsame
    simp only [Threads.advance, hs]
    refine h.finishEnd ht hok.2.1 hok.1 hok.2.2.1 hok.2.2.2.1 ?_
    rw [hok.2.2.2.2]
    exact hsame

/-- A thread that waits executes a statement and picks no entry. -/
theorem Lane.advance_other (h : Lane fsm t σ) (hu : u ≠ t) (ht : σ.threads u = f :: outer)
    (hlook : σ.ending = false → f.stage.holds = false) (hlate : f.picksNow σ.fsm = false) :
    Lane fsm t (Threads.advance σ u f outer ret) := by
  rcases h.others u hu with hnil | ⟨g, hg, hs, hok⟩
  · rw [hnil] at ht
    cases ht
  · rw [hg] at ht
    obtain ⟨rfl, rfl⟩ := List.cons.inj ht
    unfold Threads.advance
    rcases hs with hs | ⟨i, hs⟩ | hs
    · simp only [FrameOk, hs] at hok ⊢
      refine h.wait hu ⟨rfl, rfl⟩ rfl rfl rfl (Or.inr ⟨_, rfl, Or.inr (Or.inl ⟨0, rfl⟩), ?_⟩)
      exact ⟨hok.1, fun ho => ⟨hok.2 ho, rfl⟩⟩
    · have hover : ¬ σ.ending = false := by
        intro ho
        have hnot := hlook ho
        simp [hs, Stage.holds] at hnot
      simp only [FrameOk, hs] at hok ⊢
      cases hi : σ.fsm.entryList[i]? with
      | none =>
        refine h.wait hu ⟨rfl, rfl⟩ rfl rfl rfl (Or.inr ⟨_, rfl, Or.inr (Or.inr rfl), ?_⟩)
        exact fun ho => absurd ho hover
      | some tmp =>
        have hpicks : g.picks σ.fsm.current i tmp = false := by
          simpa [Frame.picksNow, hs, hi] using hlate
        dsimp only
        rw [hpicks]
        refine h.wait hu ⟨rfl, rfl⟩ rfl rfl rfl (Or.inr ⟨_, rfl, Or.inr (Or.inl ⟨i + 1, rfl⟩), ?_⟩)
        exact ⟨hok.1, fun ho => absurd ho hover⟩
    · simp only [hs]
      exact h.wait hu ⟨rfl, rfl⟩ rfl rfl rfl (Or.inl rfl)

theorem frameOk_lock {action : Int32} {cond : Nat → Bool} (h : ending = false → Live x) :
    FrameOk ending x ⟨action, cond, [], .lock⟩ :=
  ⟨rfl, h⟩

/-- A thread starts an action. -/
theorem Lane.call (h : Lane fsm t σ) (hlive : Live σ.st) (action : Int32) (cond : Nat → Bool)
    (huser : ∀ g ∈ σ.top u, g.stage.userRuns = true) :
    Lane fsm t (σ.setThread u (⟨action, cond, [], .lock⟩ :: σ.threads u)) := by
  have hwithin : Live (within (replay fsm σ.log) (σ.threads t)) := by
    have hfsm := h.same.1
    rw [Live, ← hfsm]
    exact hlive
  by_cases hu : u = t
  · subst hu
    refine ⟨?_, ?_, ?_⟩
    · simp only [setThread_self, within_cons, Frame.inner]
      exact h.same
    · simp only [setThread_self]
      refine ⟨⟨rfl, fun _ => hwithin⟩, ?_, h.frames⟩
      cases ht : σ.threads u with
      | nil => exact fun g hg => absurd hg List.not_mem_nil
      | cons g outer =>
        have hframes := h.frames
        have hg := huser g (by simp [State.top, ht])
        rw [ht] at hframes
        intro g' hg'
        rcases List.mem_cons.mp hg' with rfl | hg'
        · cases hs : g'.stage with
          | exec tmp => exact ⟨tmp, rfl⟩
          | callback tmp ret =>
            -- The callback runs on a machine that has terminated.
            rw [ht, within_cons, Frame.inner, hs] at hwithin
            refine absurd ?_ hwithin
            rw [emit_fsm, setCurrent_current, setCurrent_term]
            exact (inside_fixed _ tmp g'.calls).1.symm
          | _ => simp [hs, Stage.userRuns] at hg
        · exact hframes.2.1 g' hg'
    · intro v hv
      simp only [setThread_of_ne hv]
      exact h.others v hv
  · rcases h.others u hu with hnil | ⟨g, hg, hs, -⟩
    · refine h.wait hu ⟨rfl, rfl⟩ rfl rfl rfl
        (Or.inr ⟨_, by rw [hnil], Or.inl rfl, frameOk_lock fun ho => ?_⟩)
      cases ht : σ.threads t with
      | nil =>
        rw [ht] at hwithin
        exact hwithin
      | cons f outer =>
        have hframes := h.frames
        rw [ht] at hframes
        exact hframes.live ho
    · have hnot := huser g (by simp [State.top, hg])
      rcases hs with hs | ⟨i, hs⟩ | hs <;> simp [hs, Stage.userRuns] at hnot

/-- What is true in every state of a run in which no call is late. -/
structure Inv (fsm : SpdFsm) (σ : State) : Prop where
  mutex : MutexSound σ
  lane : ∃ t, Lane fsm t σ

theorem inv_start (fsm : SpdFsm) : Inv fsm (start fsm) where
  mutex := Mutex.sound_unlocked
  lane := ⟨0, ⟨rfl, rfl⟩, trivial, fun _ _ => Or.inl rfl⟩

theorem Inv.step {op : Op} (hi : Inv fsm σ) (he : Enabled σ op) (hlate : ¬ Late σ op) :
    ∃ σ', Threads.step σ op = .ok σ' ∧ Inv fsm σ' := by
  obtain ⟨t, hlane⟩ := hi.lane
  have hmutex : ∀ {σ'}, Threads.step σ op = .ok σ' → MutexSound σ' :=
    fun hstep => hi.mutex.step he hstep
  cases op with
  | call u action cond =>
    by_cases hend : spdFsmIsTerminate σ.st = true
    · exact ⟨σ, by rw [Threads.step, if_pos hend], hi⟩
    · have hstep : Threads.step σ (.call u action cond) =
          .ok (σ.setThread u (⟨action, cond, [], .lock⟩ :: σ.threads u)) := by
        rw [Threads.step, if_neg hend]
      exact ⟨_, hstep, hmutex hstep, t,
        hlane.call (fun hterm => hend (spdFsmIsTerminate_iff.mpr hterm)) action cond he⟩
  | advance u ret =>
    obtain ⟨f, htop, -⟩ := he
    cases hu : σ.threads u with
    | nil => simp [State.top, hu] at htop
    | cons g outer =>
      rw [State.top, hu] at htop
      obtain rfl := Option.some.inj htop
      have hstep : Threads.step σ (.advance u ret) = .ok (advance σ u g outer ret) := by
        rw [Threads.step, hu]
      have hpicks : σ.ending = true → g.picksNow σ.fsm = false := by
        intro ho
        by_contra hp
        exact hlate ⟨ho, g, by simp [State.top, hu], Bool.not_eq_false _ ▸ hp⟩
      have hothers : g.stage.holds = true → ∀ v, v ≠ u → levels (σ.threads v) = 0 := by
        intro hholds v hv
        by_contra hpos
        refine hv (Mutex.Sound.exclusive hi.mutex (Nat.pos_of_ne_zero hpos) ?_)
        simp [hu, hholds]
      refine ⟨_, hstep, hmutex hstep, ?_⟩
      by_cases hut : u = t
      · subst hut
        exact ⟨u, hlane.advance hu hothers hpicks⟩
      · by_cases hgo : σ.ending = false ∧ g.stage.holds = true
        · have hswap := hlane.swap hut hgo.1 (hothers hgo.2 t (Ne.symm hut))
          exact ⟨u, hswap.advance hu hothers hpicks⟩
        · rw [not_and] at hgo
          refine ⟨t, hlane.advance_other hut hu (fun ho => Bool.eq_false_iff.mpr (hgo ho)) ?_⟩
          cases ho : σ.ending with
          | true => exact hpicks ho
          | false =>
            have hnot := hgo ho
            unfold Frame.picksNow
            split
            next i hs => simp [hs, Stage.holds] at hnot
            next => rfl

theorem MutexSound.exclusive (h : MutexSound σ) : Exclusive σ where
  exclusive _ _ ht hu := Mutex.Sound.exclusive h (levels_pos_iff.mpr ht) (levels_pos_iff.mpr hu)
  unlocked hidle := Mutex.Sound.idle h fun t => by rw [hidle t, levels_nil]

theorem Same.terminatesOnce (h : Same s s') (hs : TerminatesOnce s) : TerminatesOnce s' := by
  obtain ⟨honce, hterm, hstays⟩ := hs
  rw [h.2] at honce hterm hstays
  rw [h.1] at hterm hstays
  exact ⟨honce, hterm, hstays⟩

theorem Lane.serial (h : Lane fsm t σ) : Serial fsm σ := by
  have hsame : (∀ u, σ.threads u = []) → Same σ.st (replay fsm σ.log) := by
    intro hidle
    have hsame := h.same
    rw [hidle t] at hsame
    exact hsame
  refine ⟨hsame, fun hidle hcalm => (hsame hidle).symm.terminatesOnce ?_⟩
  exact (startAll_orderly _ List.not_mem_nil hcalm).terminatesOnce

/-- However the statements of the threads are interleaved, one thread at a time goes through the
    table and runs an `exec` function; and as long as no call picks an entry when another one has
    already decided to end the machine, the calls that pick an entry could have been made one after
    another, those that pick none changing nothing. -/
theorem threads_serial (fsm : SpdFsm) (ops : List Op)
    (hl : Run.Legal step Enabled (start fsm) ops) :
    Run.Always step Exclusive (start fsm) ops ∧
      (Run.Legal step (fun σ op => ¬ Late σ op) (start fsm) ops →
        Run.Always step (Serial fsm) (start fsm) ops) := by
  constructor
  · refine @Run.always_of_legal _ _ step Enabled MutexSound (fun _ _ => True) Exclusive
      (fun _ => MutexSound.exclusive) ?_ ops _
      Mutex.sound_unlocked hl (Run.legal_of_forall (fun _ _ => trivial) ops)
    intro σ op h he _
    obtain ⟨σ', hstep⟩ := step_returns σ op
    exact ⟨σ', hstep, h.step he hstep⟩
  · intro htimely
    exact Run.always_of_legal (fun σ hi => by
      obtain ⟨t, hlane⟩ := hi.lane
      exact hlane.serial) (fun σ op hi he hlate => hi.step he hlate) ops (inv_start fsm) hl htimely

end

/-- Action 0 leads from state 0 to state 1 and from there to the terminal state 2; action 1 leads
    back to state 1 from anywhere. Both run an `exec` function, except for the last move. -/
def threeStates : SpdFsm := ⟨0, 2, [⟨0, 0, 1, true⟩, ⟨1, 0, 2, false⟩,
  ⟨spdFsmActionAny, 1, 1, true⟩], true⟩

/-- The steps of a call that picks entry `i` and whose `exec` function makes no calls, if there is
    one. -/
def callSteps (t i : Nat) (hasExec : Bool) : List Op :=
  List.replicate (i + if hasExec then 7 else 6) (.advance t 0)

/-- While thread 0 runs an `exec` function, which starts action 1 itself, thread 1 starts an action
    and waits. Thread 1 then ends the machine, and an action that thread 0 starts is refused. -/
def twoThreads : List Op :=
  [.call 0 0 (fun _ => true), .advance 0 0, .advance 0 0, .call 1 0 (fun _ => true), .advance 0 0,
    .advance 0 0, .call 0 1 fun _ => true] ++ callSteps 0 2 true ++
  [.advance 0 0, .advance 0 0, .advance 0 0] ++ callSteps 1 1 false ++
  [.advance 1 0, .advance 1 0, .advance 1 0, .call 0 0 fun _ => true]

theorem threads_serial_two : Run.Always step Exclusive (start threeStates) twoThreads ∧
    Run.Always step (Serial threeStates) (start threeStates) twoThreads :=
  ⟨(threads_serial threeStates twoThreads (by decide +kernel)).1,
    (threads_serial threeStates twoThreads (by decide +kernel)).2 (by decide +kernel)⟩

/-- Both calls get past the test at the top before either of them takes the mutex. -/
def lateCall : List Op :=
  [.call 0 0 (fun _ => true), .call 1 1 fun _ => true] ++ callSteps 0 1 false ++
  [.advance 0 0, .advance 0 0, .advance 0 0] ++ callSteps 1 2 true

/-- The second one finds the machine terminated, and leads it out of the terminal state. -/
example : (fun σ => (σ.fsm.current, σ.trace)) <$>
      Run.run step (start { threeStates with current := 1 }) lateCall =
    .ok (1, [.current 2, .current 2, .termCb, .current 1, .exec]) := by
  decide +kernel

end Spider.Fsm.Threads
