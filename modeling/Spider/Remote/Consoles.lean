import Spider.Lib.Owned
import Spider.Lib.Run

/-!
# Remote consoles

The daemon listens on a socket of the Unix domain. A thread accepts connections
and gives each an entry of `consoles`, a pair of sockets that log messages reach
it through, and a thread of its own. The entry is all that the two threads share,
and a broadcast reads it too; none of them takes a lock.
-/

namespace Spider.Remote

open Lib Outcome Owned

/-- `SPD_MAX_CONNECTS`. -/
def SPD_MAX_CONNECTS : Nat := 128

/-- What a console has open: its connection, the end of the pair that its thread reads, and the
    end that log messages are written to. -/
inductive End where
  | conn
  | read
  | write
  deriving DecidableEq, Repr

/-- What a descriptor stands for: an end of the `k`-th connection, or something that the rest of
    the program has open. -/
inductive File where
  | console (k : Nat) (e : End)
  | other (n : Nat)
  deriving DecidableEq, Repr

/-- `struct console` (`spider.c:72-78`); the array `p` is two fields. -/
structure Console where
  fd : Int
  p0 : Int
  p1 : Int
  mute : Bool
  deriving DecidableEq, Repr

/-- The field for an end. -/
def Console.get (c : Console) : End → Int
  | .conn => c.fd
  | .read => c.p0
  | .write => c.p1

/-- The next statement of `netconsole_thread` (`spider.c:398-449`). `pair` says that `poll`
    reported the pair as well as the connection. -/
inductive Stage where
  | greet
  | poll
  | readConn (pair : Bool)
  | command (pair : Bool)
  | readPair
  | writeConn
  | closeFd
  | closeP0
  | closeP1
  | reset
  deriving DecidableEq, Repr

/-- What the thread has yet to close. -/
def Stage.has : Stage → End → Bool
  | .closeP0, .conn => false
  | .closeP1, .conn | .closeP1, .read => false
  | .reset, _ => false
  | _, _ => true

/-- The thread reads what its client sends. -/
def Stage.reads : Stage → Bool
  | .readConn _ => true
  | _ => false

/-- A console's thread. The number of its connection names it; no statement reads it. -/
structure Thread where
  k : Nat
  stage : Stage
  deriving DecidableEq, Repr

/-- The next statement for a connection that `listener_thread` has accepted
    (`spider.c:485-519`). -/
inductive Task where
  | scan
  | socketpair
  | setFd
  | setMute
  | create
  | closeP0
  | closeP1
  | resetFd
  | closeS
  deriving DecidableEq, Repr

/-- What the listener has yet to close or to hand over. -/
def Task.has : Task → End → Bool
  | _, .conn => true
  | .setFd, _ | .setMute, _ | .create, _ | .closeP0, _ => true
  | .closeP1, .write => true
  | _, _ => false

/-- The locals of `listener_thread`, with the number of the connection. -/
structure Handling where
  k : Nat
  s : Int
  x : Nat
  task : Task
  deriving DecidableEq, Repr

/-- Where the listener finds an end: the connection is a local until it is handed over. -/
def Handling.get (h : Handling) (c : Console) : End → Int
  | .conn => h.s
  | e => c.get e

inductive Party where
  | listener
  | thread (x : Nat)
  /-- The rest of the program. -/
  | rest
  deriving DecidableEq, Repr

/-- The descriptors of the process, the entries, and where the threads are. `others` is what the
    rest of the program has open, and `accepted` counts the connections. -/
structure State where
  table : Table File
  consoles : Nat → Console
  listener : Option Handling
  threads : Nat → Option Thread
  others : Nat → Option Int
  accepted : Nat

/-- Before the first connection (`spider.c:530-531`). -/
def start : State where
  table := fun _ => none
  consoles := fun _ => ⟨-1, 0, 0, false⟩
  listener := none
  threads := fun _ => none
  others := fun _ => none
  accepted := 0

/-- What the system answers the listener: whether the call succeeds, the descriptors it returns,
    and the option `mute`. -/
structure Answer where
  ok : Bool
  s : Int
  p0 : Int
  p1 : Int
  mute : Bool
  deriving DecidableEq, Repr

/-- What the system answers a console's thread: the result of the call, and what `poll` reports. -/
structure Reply where
  res : Int
  conn : Bool
  pair : Bool
  deriving DecidableEq, Repr

namespace State

def setConsole (σ : State) (x : Nat) (c : Console) : State :=
  { σ with consoles := Function.update σ.consoles x c }

def setThread (σ : State) (x : Nat) (t : Option Thread) : State :=
  { σ with threads := Function.update σ.threads x t }

/-- `close`. -/
def close (σ : State) (fd : Int) : Outcome State := do
  let table ← σ.table.close fd
  .ok { σ with table }

/-- The next statement of the listener. -/
def goto (σ : State) (h : Handling) (task : Task) : State :=
  { σ with listener := some { h with task } }

/-- The next statement of a console's thread. -/
def next (σ : State) (x : Nat) (t : Thread) (stage : Stage) : State :=
  σ.setThread x (some { t with stage })

end State

/-- `poll` and `accept` (`spider.c:463-484`). -/
def accept (σ : State) (a : Answer) : State :=
  if a.ok then
    { σ with
      table := σ.table.enter a.s (.console σ.accepted .conn)
      listener := some ⟨σ.accepted, a.s, 0, .scan⟩
      accepted := σ.accepted + 1 }
  else σ

/-- A statement of `listener_thread` (`spider.c:485-519`). -/
def listenerThread (σ : State) (h : Handling) (a : Answer) : Outcome State :=
  let c := σ.consoles h.x
  match h.task with
  | .scan =>
    if h.x < SPD_MAX_CONNECTS then
      if c.fd < 0 then .ok (σ.goto h .socketpair)
      else .ok (σ.goto { h with x := h.x + 1 } .scan)
    -- "No more connect" is written to the connection.
    else .ok (σ.goto h .closeS)
  | .socketpair =>
    if a.ok then
      .ok ({ σ with
        table := (σ.table.enter a.p0 (.console h.k .read)).enter a.p1 (.console h.k .write)
        : State }.setConsole h.x { c with p0 := a.p0, p1 := a.p1 } |>.goto h .setFd)
    else .ok ((σ.setConsole h.x { c with fd := -1 }).goto h .closeS)
  | .setFd => .ok ((σ.setConsole h.x { c with fd := h.s }).goto h .setMute)
  | .setMute => .ok ((σ.setConsole h.x { c with mute := a.mute }).goto h .create)
  | .create =>
    if a.ok then .ok { σ.setThread h.x (some ⟨h.k, .greet⟩) with listener := none }
    else .ok (σ.goto h .closeP0)
  | .closeP0 => do
    let σ ← σ.close c.p0
    .ok (σ.goto h .closeP1)
  | .closeP1 => do
    let σ ← σ.close c.p1
    .ok (σ.goto h .resetFd)
  | .resetFd => .ok ((σ.setConsole h.x { c with fd := -1 }).goto h .closeS)
  | .closeS => do
    let σ ← σ.close h.s
    .ok { σ with listener := none }

/-- `sizeof(tmp)` in `netconsole_thread`. -/
def TMP_SIZE : Int := 512

/-- A statement of `netconsole_thread` (`spider.c:398-449`). -/
def netconsoleThread (σ : State) (x : Nat) (t : Thread) (r : Reply) : Outcome State :=
  let c := σ.consoles x
  let next := σ.next x t
  match t.stage with
  | .greet => .ok (next .poll)
  | .poll =>
    if r.res < 0 then .ok σ
    else if r.conn then .ok (next (.readConn r.pair))
    else if r.pair then .ok (next .readPair)
    else .ok σ
  | .readConn pair =>
    if r.res < 1 then .ok (next .closeFd)
    -- `tmp[res] = 0`
    else if r.res < TMP_SIZE then .ok (next (.command pair))
    else .fault
  | .command pair => .ok (next (if pair then .readPair else .poll))
  | .readPair => .ok (next (if r.res < 1 then .closeFd else .writeConn))
  | .writeConn => .ok (next (if r.res < 1 then .closeFd else .poll))
  | .closeFd => do
    let σ ← σ.close c.fd
    .ok (σ.next x t .closeP0)
  | .closeP0 => do
    let σ ← σ.close c.p0
    .ok (σ.next x t .closeP1)
  | .closeP1 => do
    let σ ← σ.close c.p1
    .ok (σ.next x t .reset)
  | .reset => .ok ((σ.setConsole x { c with fd := -1 }).setThread x none)

/-- What may happen next. -/
inductive Op where
  | listener (a : Answer)
  | thread (x : Nat) (r : Reply)
  /-- The rest of the program opens something. -/
  | openOther (n : Nat) (fd : Int)
  /-- The rest of the program closes what it has open. -/
  | closeOther (n : Nat)

def step (σ : State) : Op → Outcome State
  | .listener a =>
    match σ.listener with
    | none => .ok (accept σ a)
    | some h => listenerThread σ h a
  | .thread x r =>
    match σ.threads x with
    | none => .ok σ
    | some t => netconsoleThread σ x t r
  | .openOther n fd =>
    .ok { σ with
      table := σ.table.enter fd (.other n)
      others := Function.update σ.others n (some fd) }
  | .closeOther n =>
    match σ.others n with
    | none => .ok σ
    | some fd => do
      let σ ← σ.close fd
      .ok { σ with others := Function.update σ.others n none }

/-- A new descriptor is a number that is not in use. -/
def Unused (σ : State) (fd : Int) : Prop := 0 ≤ fd ∧ σ.table fd = none

/-- The system hands out unused descriptors, `read` fills the buffer at most, and a thread runs
    as long as it exists. -/
def Enabled (σ : State) : Op → Prop
  | .listener a => a.ok = true → (σ.listener = none → Unused σ a.s) ∧
    ∀ h ∈ σ.listener, h.task = .socketpair → Unused σ a.p0 ∧ Unused σ a.p1 ∧ a.p0 ≠ a.p1
  | .thread x r => (σ.threads x).isSome ∧ r.res ≤ TMP_SIZE
  | .openOther n fd => Unused σ fd ∧ σ.others n = none
  | .closeOther n => (σ.others n).isSome

instance (σ : State) (fd : Int) : Decidable (Unused σ fd) := inferInstanceAs (Decidable (_ ∧ _))

instance (σ : State) : (op : Op) → Decidable (Enabled σ op)
  | .listener _ => inferInstanceAs (Decidable (_ → _))
  | .thread _ _ => inferInstanceAs (Decidable (_ ∧ _))
  | .openOther _ _ => inferInstanceAs (Decidable (_ ∧ _))
  | .closeOther _ => inferInstanceAs (Decidable (_ = true))

/-- Under which number each party has what it has open. -/
def State.own (σ : State) : Owners Party File
  | .listener, .console k e => σ.listener.bind fun h =>
    if k = h.k ∧ h.task.has e then some (h.get (σ.consoles h.x) e) else none
  | .thread x, .console k e => (σ.threads x).bind fun t =>
    if k = t.k ∧ t.stage.has e then some ((σ.consoles x).get e) else none
  | .rest, .other n => σ.others n
  | _, _ => none

/-- The listener has taken the entry of a console, or gives it back. -/
def Task.takes : Task → Bool
  | .setMute | .create | .closeP0 | .closeP1 | .resetFd => true
  | _ => false

/-- An entry that is not free is the listener's or belongs to a thread. -/
def State.Taken (σ : State) (x : Nat) : Prop :=
  (σ.threads x).isSome ∨ ∃ h, σ.listener = some h ∧ h.x = x ∧ h.task.takes

/-- The consoles are in order: every descriptor that a thread is going to read, to write or to
    close stands for what the thread takes it for, every descriptor in use is known to one party
    and to no other, and an entry is free exactly when nothing uses it. -/
structure Sound (σ : State) : Prop where
  held : ∀ p f fd, σ.own p f = some fd → σ.table fd = some f
  kept : ∀ f fd, σ.table fd = some f → ∃ p, σ.own p f = some fd
  once : ∀ p q f fd fd', σ.own p f = some fd → σ.own q f = some fd' → p = q
  taken : ∀ x, 0 ≤ (σ.consoles x).fd ↔ σ.Taken x

/-- A client's message fills the buffer of its console. -/
def Fills (σ : State) : Op → Prop
  | .thread x r => ∃ t ∈ σ.threads x, t.stage.reads ∧ r.res = TMP_SIZE
  | _ => False

instance (σ : State) : (op : Op) → Decidable (Fills σ op)
  | .thread _ _ => inferInstanceAs (Decidable (∃ _, _))
  | .listener _ | .openOther _ _ | .closeOther _ => inferInstanceAs (Decidable False)

/-- The descriptors that `spd_network_puts_mutable` writes to, in order (`spider.c:262-271`). -/
def spdNetworkPutsMutable (σ : State) : List Int :=
  (List.range SPD_MAX_CONNECTS).filterMap fun x =>
    let c := σ.consoles x
    if c.mute then none else if c.fd > -1 then some c.p1 else none

/-- The connection that an entry is taken for. -/
def State.serves (σ : State) (x : Nat) : Option Nat :=
  match σ.threads x with
  | some t => some t.k
  | none => σ.listener.bind fun h => if h.x = x ∧ h.task.takes then some h.k else none

/-- The pair of an entry is closed, and its descriptor not yet reset. -/
def State.Closing (σ : State) (x : Nat) : Prop :=
  (∃ t, σ.threads x = some t ∧ t.stage = .reset) ∨
    ∃ h, σ.listener = some h ∧ h.x = x ∧ h.task = .resetFd

/-- What is broadcast reaches the consoles: the descriptor that is written to for an entry is
    the end of its own connection's pair unless the entry is being closed, and as long as none is,
    a broadcast reaches every console that is served and not muted, and nothing else. -/
structure Fed (σ : State) : Prop where
  entry : ∀ x, (σ.consoles x).fd > -1 → ∃ k, σ.serves x = some k ∧
    (σ.table (σ.consoles x).p1 = some (.console k .write) ↔ ¬ σ.Closing x)
  all : (∀ x, ¬ σ.Closing x) → (spdNetworkPutsMutable σ).map σ.table =
    ((List.range SPD_MAX_CONNECTS).filter fun x => !(σ.consoles x).mute).filterMap fun x =>
      (σ.serves x).map fun k => some (.console k .write)

end Spider.Remote
