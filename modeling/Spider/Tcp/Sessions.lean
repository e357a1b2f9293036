import Spider.Lib.Owned
import Spider.Lib.Run

/-!
# Sessions of a TCP server

The main loop of a server accepts connections. Each gets a session, which is
allocated on the heap, and a thread of its own that opens a stream over the
descriptor and hands the session to the work function of the server, a function of
the user, who is to close the session once and to free it at last. Descriptors and
memory are shared with the rest of the program.
-/

namespace Spider.Tcp.Sessions

open Lib Outcome Owned

/-- What a work function does with its session. -/
inductive WorkStep where
  /-- It reads or writes the stream or a field. -/
  | use
  | close
  | free
  deriving DecidableEq, Repr

/-- The next statement for an accepted connection. -/
inductive Stage where
  /-- `spd_tcp_server_mainloop` (`tcp_engine.c:212-240`). -/
  | calloc
  | refuse
  | create
  | closeS
  | freeS
  /-- `handle_tcp_connection` (`tcp_engine.c:100-126`). -/
  | fdopen
  | setvbuf
  | closeFd
  | freeSession
  /-- The work function has the session; what it is going to do with it. -/
  | work (todo : List WorkStep)
  deriving DecidableEq, Repr

/-- The descriptor of the connection has still to be closed. -/
def Stage.hasFd : Stage → Bool
  | .freeS | .freeSession => false
  | .work todo => todo.contains .close
  | _ => true

/-- The session is allocated. -/
def Stage.hasSession : Stage → Bool
  | .calloc | .refuse => false
  | .work todo => todo.contains .free
  | _ => true

/-- Who executes the next statement. -/
inductive Actor where
  | mainloop
  | thread
  | work
  deriving DecidableEq, Repr

def Stage.actor : Stage → Actor
  | .calloc | .refuse | .create | .closeS | .freeS => .mainloop
  | .fdopen | .setvbuf | .closeFd | .freeSession => .thread
  | .work _ => .work

/-- An accepted connection: its descriptor, the address of its session and the next statement. -/
structure Conn where
  clientFd : Int
  session : Int
  stage : Stage
  deriving DecidableEq, Repr

/-- `workFunc` is the work function of the server, if it has one: what it does with the session of
    each connection. `current` is the connection that the main loop is about to start. -/
structure State where
  fds : Store Nat
  heap : Store Nat
  workFunc : Option (Nat → List WorkStep)
  current : Option Nat
  conns : Nat → Option Conn
  accepted : Nat

def start (workFunc : Option (Nat → List WorkStep)) : State where
  fds := .empty
  heap := .empty
  workFunc
  current := none
  conns := fun _ => none
  accepted := 0

/-- What the system answers: whether the call succeeds, and what it returns. -/
structure Answer where
  ok : Bool
  value : Int
  deriving DecidableEq, Repr

namespace State

def setConn (σ : State) (k : Nat) (c : Option Conn) : State :=
  { σ with conns := Function.update σ.conns k c }

def goto (σ : State) (k : Nat) (c : Conn) (stage : Stage) : State :=
  σ.setConn k (some { c with stage })

/-- `close`. -/
def close (σ : State) (c : Conn) : Outcome State := do
  let fds ← σ.fds.close c.clientFd
  .ok { σ with fds }

/-- `spd_safe_free`. -/
def free (σ : State) (c : Conn) : Outcome State := do
  let heap ← σ.heap.close c.session
  .ok { σ with heap }

/-- The main loop goes on to wait. -/
def wait (σ : State) (k : Nat) : State := { σ.setConn k none with current := none }

end State

/-- `spd_waitfor_pollin` and `spd_accept` (`tcp_engine.c:200-210`). -/
def accept (σ : State) (a : Answer) : State :=
  if a.ok then
    { σ.setConn σ.accepted (some ⟨a.value, 0, .calloc⟩) with
      fds := σ.fds.enter a.value σ.accepted
      current := some σ.accepted
      accepted := σ.accepted + 1 }
  else σ

/-- The next statement for a connection. -/
def advance (σ : State) (k : Nat) (c : Conn) (a : Answer) : Outcome State :=
  match c.stage with
  | .calloc =>
    if a.ok then
      .ok ({ σ with heap := σ.heap.enter a.value k }.goto k { c with session := a.value } .create)
    else .ok (σ.goto k c .refuse)
  | .refuse => do
    let σ ← σ.close c
    .ok (σ.wait k)
  | .create =>
    if a.ok then .ok { σ.goto k c .fdopen with current := none }
    else .ok (σ.goto k c .closeS)
  | .closeS => do
    let σ ← σ.close c
    .ok (σ.goto k c .freeS)
  | .freeS => do
    let σ ← σ.free c
    .ok (σ.wait k)
  | .fdopen => .ok (σ.goto k c (if a.ok then .setvbuf else .closeFd))
  | .setvbuf =>
    if a.ok then
      match σ.workFunc with
      | some work => .ok (σ.goto k c (.work (work k)))
      -- The session is what the thread returns, and nobody joins it.
      | none => .ok (σ.setConn k none)
    else do
      -- `fclose` closes the descriptor of the stream.
      let σ ← σ.close c
      .ok (σ.goto k c .closeFd)
  | .closeFd => do
    let σ ← σ.close c
    .ok (σ.goto k c .freeSession)
  | .freeSession => do
    let σ ← σ.free c
    .ok (σ.setConn k none)
  | .work [] => .ok (σ.setConn k none)
  | .work (.use :: rest) =>
    if σ.heap.Unused c.session then .fault else .ok (σ.goto k c (.work rest))
  | .work (.close :: rest) =>
    if σ.heap.Unused c.session then .fault
    else do
      let σ ← σ.close c
      .ok (σ.goto k c (.work rest))
  | .work (.free :: rest) => do
    let σ ← σ.free c
    .ok (σ.goto k c (.work rest))

/-- What may happen next. -/
inductive Op where
  /-- The main loop waits for a connection. -/
  | accept (a : Answer)
  | advance (k : Nat) (a : Answer)
  /-- The rest of the program opens or closes a descriptor, or allocates or frees memory. -/
  | openOther (n : Nat) (fd : Int)
  | closeOther (n : Nat)
  | mallocOther (n : Nat) (address : Int)
  | freeOther (n : Nat)

def step (σ : State) : Op → Outcome State
  | .accept a => .ok (accept σ a)
  | .advance k a =>
    match σ.conns k with
    | none => .ok σ
    | some c => advance σ k c a
  | .openOther n fd => .ok { σ with fds := σ.fds.enterOther fd n }
  | .closeOther n => do
    let fds ← σ.fds.closeOther n
    .ok { σ with fds }
  | .mallocOther n address => .ok { σ with heap := σ.heap.enterOther address n }
  | .freeOther n => do
    let heap ← σ.heap.closeOther n
    .ok { σ with heap }

/-- The main loop takes one connection at a time, and the system hands out what is not in use. -/
def Enabled (σ : State) : Op → Prop
  | .accept a => σ.current = none ∧ (a.ok = true → σ.fds.Unused a.value)
  | .advance k a => ∃ c ∈ σ.conns k, (c.stage.actor = .mainloop → σ.current = some k) ∧
    (c.stage = .calloc → a.ok = true → σ.heap.Unused a.value)
  | .openOther n fd => σ.fds.Unused fd ∧ σ.fds.others n = none
  | .closeOther n => (σ.fds.others n).isSome
  | .mallocOther n address => σ.heap.Unused address ∧ σ.heap.others n = none
  | .freeOther n => (σ.heap.others n).isSome

instance (σ : State) : (op : Op) → Decidable (Enabled σ op)
  | .accept _ => inferInstanceAs (Decidable (_ ∧ _))
  | .advance _ _ => inferInstanceAs (Decidable (∃ _, _))
  | .openOther _ _ => inferInstanceAs (Decidable (_ ∧ _))
  | .closeOther _ => inferInstanceAs (Decidable (_ = true))
  | .mallocOther _ _ => inferInstanceAs (Decidable (_ ∧ _))
  | .freeOther _ => inferInstanceAs (Decidable (_ = true))

/-- The descriptor that has still to be closed. -/
def Conn.fd (c : Conn) : Option Int := if c.stage.hasFd then some c.clientFd else none

/-- The session that has still to be freed. -/
def Conn.address (c : Conn) : Option Int := if c.stage.hasSession then some c.session else none

def State.fdOf (σ : State) (k : Nat) : Option Int := (σ.conns k).bind Conn.fd

def State.sessionOf (σ : State) (k : Nat) : Option Int := (σ.conns k).bind Conn.address

/-- Every descriptor and every block of memory in use has one owner, who knows it, and every
    owner's descriptor and block are in use: nothing leaks, and what is closed or freed is what
    was opened or allocated for the same connection. -/
structure Sound (σ : State) : Prop where
  fds : σ.fds.Sound σ.fdOf
  heap : σ.heap.Sound σ.sessionOf

/-- The session is closed once and then freed, and not used any more. -/
def Managed (todo : List WorkStep) : Prop :=
  todo.count .close = 1 ∧ ∃ before, todo = before ++ [.free] ∧ .free ∉ before

/-- The stream cannot be made unbuffered, or there is no work function to hand the session to. -/
def Drops (σ : State) : Op → Prop
  | .advance k a => ∃ c ∈ σ.conns k, c.stage = .setvbuf ∧ (a.ok = false ∨ σ.workFunc.isNone)
  | _ => False

instance (σ : State) : (op : Op) → Decidable (Drops σ op)
  | .advance _ _ => inferInstanceAs (Decidable (∃ _, _))
  | .accept _ | .openOther _ _ | .closeOther _ | .mallocOther _ _ | .freeOther _ =>
    inferInstanceAs (Decidable False)

section

variable {σ : State} {k : Nat} {c : Conn} {a : Answer} {o : Option Conn}

@[simp] theorem fdOf_setConn : (σ.setConn k o).fdOf = Function.update σ.fdOf k (o.bind Conn.fd) := by
  funext k'
  by_cases h : k' = k
  · subst h
    simp [State.fdOf, State.setConn]
  · simp [State.fdOf, State.setConn, h]

@[simp] theorem sessionOf_setConn :
    (σ.setConn k o).sessionOf = Function.update σ.sessionOf k (o.bind Conn.address) := by
  funext k'
  by_cases h : k' = k
  · subst h
    simp [State.sessionOf, State.setConn]
  · simp [State.sessionOf, State.setConn, h]

/-- What is left of a work function that manages its session. -/
def Left (todo : List WorkStep) : Prop :=
  todo.count .close ≤ 1 ∧ (todo = [] ∨ ∃ before, todo = before ++ [.free] ∧ .free ∉ before)

theorem Left.of_managed {todo : List WorkStep} (h : Managed todo) : Left todo :=
  ⟨Nat.le_of_eq h.1, .inr h.2⟩

theorem Left.tail {w : WorkStep} {todo : List WorkStep} (h : Left (w :: todo)) : Left todo := by
  obtain ⟨hclose, hfree⟩ := h
  refine ⟨Nat.le_trans List.count_le_count_cons hclose, ?_⟩
  rcases hfree with hnil | ⟨before, hbefore, hnot⟩
  · cases hnil
  · cases before with
    | nil => exact .inl (List.cons.inj hbefore).2
    | cons b before =>
      exact .inr ⟨before, (List.cons.inj hbefore).2, fun hmem => hnot (List.mem_cons_of_mem b hmem)⟩

/-- As long as anything is left, the session is allocated. -/
theorem Left.free_mem {w : WorkStep} {todo : List WorkStep} (h : Left (w :: todo)) :
    .free ∈ w :: todo := by
  rcases h.2 with hnil | ⟨before, hbefore, -⟩
  · cases hnil
  · rw [hbefore]
    exact List.mem_append_right before (List.mem_singleton_self _)

theorem Left.close_notMem {todo : List WorkStep} (h : Left (.close :: todo)) : .close ∉ todo := by
  have hcount := h.1
  rw [List.count_cons_self] at hcount
  exact List.count_eq_zero.mp (by omega)

theorem Left.eq_nil {todo : List WorkStep} (h : Left (.free :: todo)) : todo = [] := by
  rcases h.2 with hnil | ⟨before, hbefore, hnot⟩
  · cases hnil
  · cases before with
    | nil => exact (List.cons.inj hbefore).2
    | cons b before =>
      exact absurd List.mem_cons_self ((List.cons.inj hbefore).1 ▸ hnot)

/-- What is true in every state of a run, if the work function manages its sessions. -/
structure Inv (σ : State) : Prop extends Sound σ where
  fresh : ∀ k, σ.accepted ≤ k → σ.conns k = none
  managed : ∀ work ∈ σ.workFunc, ∀ k, Managed (work k)
  left : ∀ k c todo, σ.conns k = some c → c.stage = .work todo → Left todo

theorem inv_start {workFunc : Option (Nat → List WorkStep)}
    (hwork : ∀ work ∈ workFunc, ∀ k, Managed (work k)) : Inv (start workFunc) where
  fds := Store.sound_empty
  heap := Store.sound_empty
  fresh _ _ := rfl
  managed := hwork
  left _ _ _ hc := by cases hc

/-- What a connection has is what its statement says. -/
theorem fdOf_of_conn (hc : σ.conns k = some c) : σ.fdOf k = c.fd := by
  simp [State.fdOf, hc]

theorem sessionOf_of_conn (hc : σ.conns k = some c) : σ.sessionOf k = c.address := by
  simp [State.sessionOf, hc]

/-- A connection whose descriptor stays as it is. -/
theorem Inv.keepFd (hi : Inv σ) (hc : σ.conns k = some c) (ho : o.bind Conn.fd = c.fd) :
    σ.fds.Sound (Function.update σ.fdOf k (o.bind Conn.fd)) := by
  rw [ho, ← fdOf_of_conn hc, Function.update_eq_self]
  exact hi.fds

theorem Inv.keepSession (hi : Inv σ) (hc : σ.conns k = some c)
    (ho : o.bind Conn.address = c.address) :
    σ.heap.Sound (Function.update σ.sessionOf k (o.bind Conn.address)) := by
  rw [ho, ← sessionOf_of_conn hc, Function.update_eq_self]
  exact hi.heap

/-- A connection goes on; its descriptor and its session are what the stores say. -/
theorem Inv.setConn (hi : Inv σ) (hc : σ.conns k = some c) {fds heap : Store Nat}
    (hfds : fds.Sound (Function.update σ.fdOf k (o.bind Conn.fd)))
    (hheap : heap.Sound (Function.update σ.sessionOf k (o.bind Conn.address)))
    (hleft : ∀ c ∈ o, ∀ todo, c.stage = .work todo → Left todo) :
    Inv ({ σ with fds, heap }.setConn k o) where
  fds := by
    have h := @fdOf_setConn σ k o
    exact h ▸ hfds
  heap := by
    have h := @sessionOf_setConn σ k o
    exact h ▸ hheap
  fresh k' hk' := by
    have hne : k' ≠ k := by
      intro he
      rw [he] at hk'
      cases (hi.fresh k hk').symm.trans hc
    exact (Function.update_of_ne hne ..).trans (hi.fresh k' hk')
  managed := hi.managed
  left k' c' todo hc' htodo := by
    by_cases he : k' = k
    · subst he
      have hc' : Function.update σ.conns k' o k' = some c' := hc'
      rw [Function.update_self] at hc'
      exact hleft c' hc' todo htodo
    · have hc' : Function.update σ.conns k o k' = some c' := hc'
      rw [Function.update_of_ne he] at hc'
      exact hi.left k' c' todo hc' htodo

/-- The main loop may turn to another connection. -/
theorem Inv.setCurrent (hi : Inv σ) (current : Option Nat) : Inv { σ with current } :=
  ⟨⟨hi.fds, hi.heap⟩, hi.fresh, hi.managed, hi.left⟩

/-- A statement that opens and closes nothing. -/
theorem Inv.goto (hi : Inv σ) (hc : σ.conns k = some c) {stage : Stage}
    (hfd : stage.hasFd = c.stage.hasFd) (hsession : stage.hasSession = c.stage.hasSession)
    (hleft : ∀ todo, stage = .work todo → Left todo) : Inv (σ.goto k c stage) := by
  refine hi.setConn hc (hi.keepFd hc ?_) (hi.keepSession hc ?_) ?_
  · simp [Conn.fd, hfd]
  · simp [Conn.address, hsession]
  · intro c' hc'
    obtain rfl := Option.some.inj hc'
    exact hleft

/-- A statement that closes the descriptor. -/
theorem Inv.close (hi : Inv σ) (hc : σ.conns k = some c) (hfd : c.stage.hasFd = true)
    (ho : o.bind Conn.fd = none) (hsession : o.bind Conn.address = c.address)
    (hleft : ∀ c ∈ o, ∀ todo, c.stage = .work todo → Left todo) :
    ∃ σ', σ.close c = .ok σ' ∧ Inv (σ'.setConn k o) := by
  have hown : σ.fdOf k = some c.clientFd := by
    rw [fdOf_of_conn hc, Conn.fd, if_pos hfd]
  obtain ⟨fds, hclose, hsound⟩ := hi.fds.close hown
  refine ⟨{ σ with fds }, by simp [State.close, hclose], ?_⟩
  refine hi.setConn hc ?_ (hi.keepSession hc hsession) hleft
  rw [ho]
  exact hsound

/-- A statement that closes the descriptor of a session. -/
theorem Inv.closeGoto (hi : Inv σ) (hc : σ.conns k = some c) {stage : Stage}
    (hfd : c.stage.hasFd = true) (hfd' : stage.hasFd = false)
    (hsession : stage.hasSession = c.stage.hasSession)
    (hleft : ∀ todo, stage = .work todo → Left todo) :
    ∃ σ', (do let σ ← σ.close c
              Outcome.ok (σ.goto k c stage)) = .ok σ' ∧ Inv σ' := by
  obtain ⟨σ', hclose, hi'⟩ := hi.close (o := some { c with stage }) hc hfd
    (by simp [Conn.fd, hfd']) (by simp [Conn.address, hsession])
    (fun c' hc' => by obtain rfl := Option.some.inj hc'; exact hleft)
  exact ⟨_, by rw [hclose]; rfl, hi'⟩

/-- A statement that frees the session. -/
theorem Inv.free (hi : Inv σ) (hc : σ.conns k = some c) (hsession : c.stage.hasSession = true)
    (ho : o.bind Conn.address = none) (hfd : o.bind Conn.fd = c.fd)
    (hleft : ∀ c ∈ o, ∀ todo, c.stage = .work todo → Left todo) :
    ∃ σ', σ.free c = .ok σ' ∧ Inv (σ'.setConn k o) := by
  have hown : σ.sessionOf k = some c.session := by
    rw [sessionOf_of_conn hc, Conn.address, if_pos hsession]
  obtain ⟨heap, hclose, hsound⟩ := hi.heap.close hown
  refine ⟨{ σ with heap }, by simp [State.free, hclose], ?_⟩
  refine hi.setConn hc (hi.keepFd hc hfd) ?_ hleft
  rw [ho]
  exact hsound

theorem Inv.accept (hi : Inv σ) (ha : a.ok = true → σ.fds.Unused a.value) : Inv (accept σ a) := by
  unfold Sessions.accept
  split
  next hok =>
    have hnone := hi.fresh _ (Nat.le_refl _)
    have hfd : σ.fdOf σ.accepted = none := by simp [State.fdOf, hnone]
    have hsession : σ.sessionOf σ.accepted = none := by simp [State.sessionOf, hnone]
    refine ⟨⟨?_, ?_⟩, ?_, hi.managed, ?_⟩
    · have hsound := hi.fds.enter (ha hok) hfd
      have h := @fdOf_setConn σ σ.accepted (some ⟨a.value, 0, .calloc⟩)
      exact h ▸ hsound
    · have h := @sessionOf_setConn σ σ.accepted (some ⟨a.value, 0, .calloc⟩)
      have hsame : Function.update σ.sessionOf σ.accepted none = σ.sessionOf :=
        Function.update_eq_self_iff.mpr hsession.symm
      exact h ▸ (hsame.symm ▸ hi.heap : σ.heap.Sound (Function.update σ.sessionOf σ.accepted none))
    · intro k hk
      have hlt : σ.accepted < k := hk
      exact (Function.update_of_ne (by omega) ..).trans (hi.fresh k (Nat.le_of_lt hlt))
    · intro k c todo hc htodo
      have hc : Function.update σ.conns σ.accepted (some ⟨a.value, 0, .calloc⟩) k = some c := hc
      by_cases he : k = σ.accepted
      · rw [he, Function.update_self] at hc
        obtain rfl := Option.some.inj hc
        cases htodo
      · rw [Function.update_of_ne he] at hc
        exact hi.left k c todo hc htodo
  next => exact hi

/-- A session that is allocated may be used. -/
theorem Inv.session_used (hi : Inv σ) (hc : σ.conns k = some c)
    (hsession : c.stage.hasSession = true) : ¬ σ.heap.Unused c.session := by
  refine hi.heap.not_unused (k := k) ?_
  rw [sessionOf_of_conn hc, Conn.address, if_pos hsession]

/-- Every statement of a work function that manages its session. -/
theorem Inv.work (hi : Inv σ) (hc : σ.conns k = some c) {todo : List WorkStep}
    (hs : c.stage = .work todo) : ∃ σ', advance σ k c a = .ok σ' ∧ Inv σ' := by
  have hleft := hi.left k c todo hc hs
  unfold Sessions.advance
  rw [hs]
  cases todo with
  | nil =>
    have hfd : c.fd = none := by rw [Conn.fd, hs]; rfl
    have haddress : c.address = none := by rw [Conn.address, hs]; rfl
    exact ⟨_, rfl, hi.setConn hc (hi.keepFd (o := none) hc hfd.symm)
      (hi.keepSession (o := none) hc haddress.symm) (fun _ h => by cases h)⟩
  | cons w rest =>
    have htail := hleft.tail
    have hstage : ∀ todo, Stage.work rest = .work todo → Left todo := by
      rintro todo ⟨⟩
      exact htail
    have hsession : c.stage.hasSession = true := by
      rw [hs]
      exact List.contains_iff_mem.mpr hleft.free_mem
    have hused := hi.session_used hc hsession
    cases w with
    | use =>
      dsimp only
      rw [if_neg hused]
      exact ⟨_, rfl, hi.goto hc (by rw [hs]; rfl) (by rw [hs]; rfl) hstage⟩
    | close =>
      dsimp only
      rw [if_neg hused]
      refine hi.closeGoto hc (by rw [hs]; rfl) ?_ (by rw [hs]; rfl) hstage
      exact Bool.eq_false_iff.mpr fun h => hleft.close_notMem (List.contains_iff_mem.mp h)
    | free =>
      obtain rfl := hleft.eq_nil
      have hfd : c.fd = none := by rw [Conn.fd, hs]; rfl
      obtain ⟨σ', hfree, hi'⟩ := hi.free (o := some { c with stage := .work [] }) hc hsession rfl
        hfd.symm (fun c' hc' => by obtain rfl := Option.some.inj hc'; exact hstage)
      exact ⟨_, by dsimp only; rw [hfree]; rfl, hi'⟩

/-- Every statement returns and keeps the invariant, unless the session is dropped. -/
theorem Inv.advance (hi : Inv σ) (hc : σ.conns k = some c)
    (ha : c.stage = .calloc → a.ok = true → σ.heap.Unused a.value)
    (hdrops : ¬ Drops σ (.advance k a)) : ∃ σ', advance σ k c a = .ok σ' ∧ Inv σ' := by
  cases hs : c.stage with
  | work todo => exact hi.work hc hs
  | calloc =>
    unfold Sessions.advance
    rw [hs]
    dsimp only
    split
    next hok =>
      have hsession : σ.sessionOf k = none := by
        rw [sessionOf_of_conn hc, Conn.address, hs]
        rfl
      refine ⟨_, rfl, hi.setConn hc (hi.keepFd hc ?_) (hi.heap.enter (ha hs hok) hsession) ?_⟩
      · simp [Conn.fd, hs, Stage.hasFd]
      · intro c' hc' todo htodo
        obtain rfl := Option.some.inj hc'
        cases htodo
    next => exact ⟨_, rfl, hi.goto hc (by rw [hs]; rfl) (by rw [hs]; rfl) (fun _ h => by cases h)⟩
  | refuse =>
    obtain ⟨σ', hclose, hi'⟩ := hi.close (o := none) hc (by rw [hs]; rfl) rfl
      (by simp [Conn.address, hs, Stage.hasSession]) (fun _ h => by cases h)
    exact ⟨_, by rw [Sessions.advance, hs, hclose]; rfl, hi'.setCurrent none⟩
  | create =>
    unfold Sessions.advance
    rw [hs]
    dsimp only
    split
    next =>
      have hi' : Inv (σ.goto k c .fdopen) :=
        hi.goto hc (by rw [hs]; rfl) (by rw [hs]; rfl) (fun _ h => by cases h)
      exact ⟨_, rfl, hi'.setCurrent none⟩
    next => exact ⟨_, rfl, hi.goto hc (by rw [hs]; rfl) (by rw [hs]; rfl) (fun _ h => by cases h)⟩
  | closeS =>
    rw [Sessions.advance, hs]
    exact hi.closeGoto hc (by rw [hs]; rfl) rfl (by rw [hs]; rfl) (fun _ h => by cases h)
  | freeS =>
    obtain ⟨σ', hfree, hi'⟩ := hi.free (o := none) hc (by rw [hs]; rfl) rfl
      (by rw [Conn.fd, hs]; rfl) (fun _ h => by cases h)
    exact ⟨_, by rw [Sessions.advance, hs, hfree]; rfl, hi'.setCurrent none⟩
  | fdopen =>
    rw [Sessions.advance, hs]
    refine ⟨_, rfl, hi.goto hc ?_ ?_ ?_⟩
    · rw [hs]
      split <;> rfl
    · rw [hs]
      split <;> rfl
    · intro todo htodo
      split at htodo <;> cases htodo
  | setvbuf =>
    have hok : a.ok = true := by
      by_contra hok
      exact hdrops ⟨c, hc, hs, Or.inl (Bool.eq_false_iff.mpr hok)⟩
    obtain ⟨work, hwork⟩ : ∃ work, σ.workFunc = some work := by
      cases hwork : σ.workFunc with
      | none => exact absurd ⟨c, hc, hs, Or.inr (by rw [hwork]; rfl)⟩ hdrops
      | some work => exact ⟨work, rfl⟩
    have hmanaged := hi.managed work hwork k
    obtain ⟨hclose, before, hbefore, -⟩ := hmanaged
    rw [Sessions.advance, hs]
    dsimp only
    rw [if_pos hok, hwork]
    refine ⟨_, rfl, hi.goto hc ?_ ?_ ?_⟩
    · rw [hs]
      exact List.contains_iff_mem.mpr (List.count_pos_iff.mp (by omega))
    · rw [hs, Stage.hasSession, hbefore]
      exact List.contains_iff_mem.mpr (List.mem_append_right before (List.mem_singleton_self _))
    · rintro todo ⟨⟩
      exact .of_managed (hi.managed work hwork k)
  | closeFd =>
    rw [Sessions.advance, hs]
    exact hi.closeGoto hc (by rw [hs]; rfl) rfl (by rw [hs]; rfl) (fun _ h => by cases h)
  | freeSession =>
    obtain ⟨σ', hfree, hi'⟩ := hi.free (o := none) hc (by rw [hs]; rfl) rfl
      (by rw [Conn.fd, hs]; rfl) (fun _ h => by cases h)
    exact ⟨_, by rw [Sessions.advance, hs, hfree]; rfl, hi'⟩

theorem inv_step {op : Op} (hi : Inv σ) (he : Enabled σ op) (hdrops : ¬ Drops σ op) :
    ∃ σ', step σ op = .ok σ' ∧ Inv σ' := by
  cases op with
  | accept a => exact ⟨_, rfl, hi.accept he.2⟩
  | advance k a =>
    obtain ⟨c, hc, -, ha⟩ := he
    dsimp only [step]
    rw [Option.mem_def.mp hc]
    exact hi.advance hc ha hdrops
  | openOther n fd => exact ⟨_, rfl, ⟨hi.fds.enterOther he.1 he.2, hi.heap⟩, hi.fresh, hi.managed, hi.left⟩
  | closeOther n =>
    obtain ⟨fd, hn⟩ := Option.isSome_iff_exists.mp he
    obtain ⟨fds, hclose, hsound⟩ := hi.fds.closeOther hn
    exact ⟨{ σ with fds }, by simp [step, hclose], ⟨hsound, hi.heap⟩, hi.fresh,
      hi.managed, hi.left⟩
  | mallocOther n address => exact ⟨_, rfl, ⟨hi.fds, hi.heap.enterOther he.1 he.2⟩,
    hi.fresh, hi.managed, hi.left⟩
  | freeOther n =>
    obtain ⟨address, hn⟩ := Option.isSome_iff_exists.mp he
    obtain ⟨heap, hclose, hsound⟩ := hi.heap.closeOther hn
    exact ⟨{ σ with heap }, by simp [step, hclose], ⟨hi.fds, hsound⟩,
      hi.fresh, hi.managed, hi.left⟩

/-- When the session is dropped, its descriptor is closed but not forgotten, or forgotten but not
    closed. -/
theorem not_sound_of_drops {op : Op} {σ' : State} (hi : Inv σ) (hdrops : Drops σ op)
    (hstep : step σ op = .ok σ') : ¬ Sound σ' := by
  cases op with
  | advance k a =>
    obtain ⟨c, hc, hs, hfail⟩ := hdrops
    have hc : σ.conns k = some c := hc
    have hown : σ.fdOf k = some c.clientFd := by
      rw [fdOf_of_conn hc, Conn.fd, hs]
      rfl
    have hstep : Sessions.advance σ k c a = .ok σ' := by
      simpa only [step, hc] using hstep
    unfold Sessions.advance at hstep
    rw [hs] at hstep
    dsimp only at hstep
    intro h
    cases hok : a.ok with
    | true =>
      have hwork : σ.workFunc = none := by simpa [hok] using hfail
      rw [if_pos hok, hwork] at hstep
      obtain rfl := Outcome.ok.inj hstep
      refine Store.Sound.not_of_forgotten hi.fds hown ?_
      have hfds := h.fds
      rw [fdOf_setConn] at hfds
      exact hfds
    | false =>
      rw [if_neg (by simp [hok])] at hstep
      obtain ⟨σ₁, hclose, hgoto⟩ := Outcome.bind_eq_ok.mp hstep
      obtain ⟨fds, hfd, hσ₁⟩ := Outcome.bind_eq_ok.mp hclose
      obtain rfl := Outcome.ok.inj hσ₁
      obtain rfl := Outcome.ok.inj hgoto
      refine Store.Sound.not_of_closed (k := k) ?_ hfd h.fds
      rw [State.goto, fdOf_setConn, Function.update_self]
      rfl
  | accept a => exact hdrops.elim
  | openOther n fd => exact hdrops.elim
  | closeOther n => exact hdrops.elim
  | mallocOther n address => exact hdrops.elim
  | freeOther n => exact hdrops.elim

end

/-- Whatever the order of the steps of the main loop, of the threads, of the work functions and of
    the rest of the program, and whatever the system answers, every connection is closed once and
    every session freed once exactly as long as no session is dropped; the work function, if there
    is one, has to close and to free each session that it gets. -/
theorem sessions_sound (workFunc : Option (Nat → List WorkStep))
    (hwork : ∀ work ∈ workFunc, ∀ k, Managed (work k)) (ops : List Op)
    (hl : Run.Legal step Enabled (start workFunc) ops) :
    Run.Always step Sound (start workFunc) ops ↔
      Run.Legal step (fun σ op => ¬ Drops σ op) (start workFunc) ops :=
  Run.always_iff_inv (fun _ hi => Inv.toSound hi) (fun _ _ hi he hd => inv_step hi he hd)
    (fun _ _ _ hi _ hd hstep => not_sound_of_drops hi hd hstep) ops (inv_start hwork) hl

/-- The session is used `k` times, closed, looked at and freed. -/
def answerTimes (k : Nat) : List WorkStep := List.replicate k .use ++ [.close, .use, .free]

theorem managed_answerTimes (k : Nat) : Managed (answerTimes k) := by
  refine ⟨?_, List.replicate k .use ++ [.close, .use], by simp [answerTimes], by simp⟩
  simp [answerTimes, List.count_replicate]

/-- Three connections, one of which cannot be given a stream, and a descriptor of the rest of the
    program that is given the number of a closed one. -/
def traffic : List Op :=
  let advance (k : Nat) (ok : Bool) (value : Int) := Op.advance k ⟨ok, value⟩
  let next (k : Nat) := advance k true 0
  [.accept ⟨true, 7⟩, advance 0 true 100, next 0, .accept ⟨true, 8⟩, advance 0 false 0,
    advance 1 true 101, next 0, .openOther 0 7, next 1, next 0, .mallocOther 0 100,
    .accept ⟨true, 9⟩, advance 2 true 102, next 2, next 1, next 1, next 2, next 1, next 2, next 1,
    next 2, .closeOther 0, next 1, next 2, next 1, next 2, next 1, .freeOther 0, next 2, next 2,
    next 2]

theorem sessions_sound_traffic : Run.Always step Sound (start (some answerTimes)) traffic ∧
    ∃ σ, Run.run step (start (some answerTimes)) traffic = .ok σ ∧
      ∀ k ∈ [0, 1, 2], σ.conns k = none := by
  have hwork : ∀ work ∈ some answerTimes, ∀ k, Managed (work k) := by
    intro work h
    obtain rfl := Option.some.inj h
    exact managed_answerTimes
  exact ⟨(sessions_sound (some answerTimes) hwork traffic (by decide +kernel)).mpr
    (by decide +kernel), Outcome.exists_of_run (by decide +kernel)⟩

end Spider.Tcp.Sessions
