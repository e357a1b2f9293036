import Spider.Lib.Run
import Spider.Socket

/-!
# TCP servers

`spd_tcp_server_start` takes the previous instance of a server down and starts a
new one, `spd_tcp_server_stop` takes it down for good. A descriptor and a thread
are resources: they are acquired from the system and must be released once. The
address of the server may be changed between the calls.
-/

namespace Spider.Tcp

open Lib Outcome Socket

/-- `SPD_PTHREADT_NULL`. -/
def SPD_PTHREADT_NULL : UInt64 := -1

/-- `struct spd_tcp_session_arg`. -/
structure SpdTcpSessionArg where
  serveraddr : SpdSockaddr
  oldaddr : SpdSockaddr
  serverFd : Int32
  master : UInt64
  deriving DecidableEq, Repr

/-- The resources of one kind that are held, and how often one was released that was not. -/
structure Pool (α : Type) where
  held : List α
  twice : Nat
  deriving DecidableEq, Repr

section

variable {α : Type} [DecidableEq α]

def Pool.acquire (p : Pool α) (x : α) : Pool α := { p with held := x :: p.held }

def Pool.release (p : Pool α) (x : α) : Pool α :=
  if x ∈ p.held then { p with held := p.held.erase x } else { p with twice := p.twice + 1 }

/-- The pool of a field that holds a resource, or the value that stands for none. -/
def Pool.of (none x : α) : Pool α := ⟨if x = none then [] else [x], 0⟩

theorem Pool.of_self (none : α) : Pool.of none none = ⟨[], 0⟩ := by
  simp [Pool.of]

theorem Pool.of_ne {none x : α} (h : x ≠ none) : Pool.of none x = ⟨[x], 0⟩ := by
  simp [Pool.of, h]

theorem Pool.release_of {none x : α} (h : x ≠ none) : (Pool.of none x).release x = ⟨[], 0⟩ := by
  simp [Pool.of_ne h, Pool.release]

theorem Pool.mem_of {none x : α} : x = none ∨ x ∈ (Pool.of none x).held := by
  by_cases h : x = none
  · exact Or.inl h
  · simp [Pool.of_ne h]

end

/-- A server, the sockets it has opened and the threads it has started. -/
structure Server where
  ser : SpdTcpSessionArg
  fds : Pool Int32
  threads : Pool UInt64
  deriving DecidableEq, Repr

/-- What the system answers in a start: `thread` is what `pthread_create` leaves in `master`. -/
structure Answers where
  socket : Int32
  bind : Int32
  listen : Int32
  create : Int32
  thread : UInt64
  deriving DecidableEq, Repr

def Server.setAddrs (s : Server) (serveraddr oldaddr : SpdSockaddr) : Server :=
  { s with ser := { s.ser with serveraddr := serveraddr, oldaddr := oldaddr } }

def Server.setServerFd (s : Server) (fd : Int32) : Server :=
  { s with ser := { s.ser with serverFd := fd } }

def Server.setMaster (s : Server) (thread : UInt64) : Server :=
  { s with ser := { s.ser with master := thread } }

/-- The thread is cancelled and joined, if there is one (`tcp_engine.c:254-258`, `312-315`). -/
def joinMaster (s : Server) : Server :=
  if s.ser.master ≠ SPD_PTHREADT_NULL then { s with threads := s.threads.release s.ser.master }
  else s

/-- The socket is closed, if there is one (`tcp_engine.c:260-262`, `319-321`). -/
def closeServerFd (s : Server) : Server :=
  if s.ser.serverFd ≠ -1 then { s with fds := s.fds.release s.ser.serverFd } else s

/-- The label `error` (`tcp_engine.c:306-308`). -/
def error (s : Server) : Server :=
  { s with fds := s.fds.release s.ser.serverFd }.setServerFd (-1)

/-- What a start does once the previous instance is down (`tcp_engine.c:264-304`). -/
def launch (s : Server) (answers : Answers) : Server :=
  if spdSockaddrIsnull (some s.ser.serveraddr) then s
  else
    let s := s.setServerFd answers.socket
    if answers.socket < 0 then s
    else
      let s := { s with fds := s.fds.acquire answers.socket }
      if answers.bind ≠ 0 then error s
      else if answers.listen ≠ 0 then error s
      else
        let s := s.setMaster answers.thread
        if answers.create ≠ 0 then error s
        else
          let s := { s with threads := s.threads.acquire answers.thread }
          s.setAddrs s.ser.serveraddr (spdSockaddrCopy s.ser.oldaddr s.ser.serveraddr)

/-- A start that takes the previous instance down. -/
def teardown (s : Server) : Server :=
  closeServerFd (joinMaster (s.setAddrs s.ser.serveraddr (spdSockaddrSetnull s.ser.oldaddr)))

/-- `spd_tcp_server_start` (`tcp_engine.c:243-309`). -/
def spdTcpServerStart (s : Server) (answers : Answers) : Server :=
  if spdSockaddrCmp s.ser.serveraddr s.ser.oldaddr = 0 then s
  else launch (teardown s) answers

/-- `spd_tcp_server_stop` (`tcp_engine.c:311-326`). -/
def spdTcpServerStop (s : Server) : Server :=
  let s := joinMaster s
  let s := if s.ser.master ≠ SPD_PTHREADT_NULL then s.setMaster SPD_PTHREADT_NULL else s
  (closeServerFd s).setServerFd (-1)

/-! ## The system -/

inductive Op where
  | setServeraddr (addr : SpdSockaddr)
  | start (answers : Answers)
  | stop

def step (s : Server) : Op → Outcome Server
  | .setServeraddr addr => .ok (s.setAddrs addr s.ser.oldaddr)
  | .start answers => .ok (spdTcpServerStart s answers)
  | .stop => .ok (spdTcpServerStop s)

/-- The system gives out no socket and no thread that is held. -/
def Enabled (s : Server) : Op → Prop
  | .start answers => (answers.socket = -1 ∨
        0 ≤ answers.socket ∧ answers.socket ∉ (teardown s).fds.held) ∧
      (answers.create = 0 → answers.thread ≠ SPD_PTHREADT_NULL ∧
        answers.thread ∉ (teardown s).threads.held)
  | _ => True

/-- A server that was not started yet. -/
structure Initial (s : Server) : Prop where
  serverFd : s.ser.serverFd = -1
  master : s.ser.master = SPD_PTHREADT_NULL
  fds : s.fds = ⟨[], 0⟩
  threads : s.threads = ⟨[], 0⟩

/-- The fields hold what can be released, and nothing was released twice. -/
structure Sound (s : Server) : Prop where
  serverFd : s.ser.serverFd = -1 ∨ s.ser.serverFd ∈ s.fds.held
  master : s.ser.master = SPD_PTHREADT_NULL ∨ s.ser.master ∈ s.threads.held
  closed : s.fds.twice = 0
  joined : s.threads.twice = 0

/-- A start that takes a running instance down and then ends at a null address or on a socket that
    cannot be opened, bound or listened on, or whose thread creation fails and leaves a value. -/
def Leaves (s : Server) : Op → Prop
  | .start answers => spdSockaddrCmp s.ser.serveraddr s.ser.oldaddr ≠ 0 ∧
      (s.ser.master ≠ SPD_PTHREADT_NULL ∧ (spdSockaddrIsnull (some s.ser.serveraddr) = true ∨
          answers.socket < 0 ∨ answers.bind ≠ 0 ∨ answers.listen ≠ 0) ∨
        spdSockaddrIsnull (some s.ser.serveraddr) = false ∧ 0 ≤ answers.socket ∧
          answers.bind = 0 ∧ answers.listen = 0 ∧ answers.create ≠ 0 ∧
          answers.thread ≠ SPD_PTHREADT_NULL)
  | _ => False

/-- The server runs, with a socket and a thread, or it has neither. -/
structure Inv (s : Server) : Prop where
  fds : s.fds = Pool.of (-1) s.ser.serverFd
  threads : s.threads = Pool.of SPD_PTHREADT_NULL s.ser.master
  runs : s.ser.serverFd = -1 ↔ s.ser.master = SPD_PTHREADT_NULL

section

variable {s : Server} {answers : Answers}

theorem Initial.inv (h : Initial s) : Inv s := by
  constructor
  · rw [h.serverFd, Pool.of_self]
    exact h.fds
  · rw [h.master, Pool.of_self]
    exact h.threads
  · exact ⟨fun _ => h.master, fun _ => h.serverFd⟩

theorem Inv.sound (h : Inv s) : Sound s := by
  constructor
  · rw [h.fds]
    exact Pool.mem_of
  · rw [h.threads]
    exact Pool.mem_of
  · rw [h.fds]
    rfl
  · rw [h.threads]
    rfl

/-- The thread that is joined is the one that runs. -/
theorem Inv.joinMaster (h : Inv s) : joinMaster s = { s with threads := ⟨[], 0⟩ } := by
  unfold Tcp.joinMaster
  split
  next hne => rw [h.threads, Pool.release_of hne]
  next heq =>
    have hthreads := h.threads
    rw [not_not.mp heq, Pool.of_self] at hthreads
    rw [← hthreads]

theorem closeServerFd_of (h : s.fds = Pool.of (-1) s.ser.serverFd) :
    closeServerFd s = { s with fds := ⟨[], 0⟩ } := by
  unfold closeServerFd
  split
  next hne => rw [h, Pool.release_of hne]
  next heq =>
    rw [not_not.mp heq, Pool.of_self] at h
    rw [← h]

theorem Inv.setAddrs (h : Inv s) (serveraddr oldaddr : SpdSockaddr) :
    Inv (s.setAddrs serveraddr oldaddr) := ⟨h.fds, h.threads, h.runs⟩

/-- Both resources are released, and the fields still name them. -/
theorem Inv.teardown (h : Inv s) : teardown s =
    ⟨{ s.ser with oldaddr := spdSockaddrSetnull s.ser.oldaddr }, ⟨[], 0⟩, ⟨[], 0⟩⟩ := by
  have haddrs := h.setAddrs s.ser.serveraddr (spdSockaddrSetnull s.ser.oldaddr)
  rw [Tcp.teardown, haddrs.joinMaster]
  exact closeServerFd_of haddrs.fds

/-- A socket that was just opened is closed again. -/
theorem error_acquire (ser : SpdTcpSessionArg) (threads : Pool UInt64) :
    error ⟨ser, (⟨[], 0⟩ : Pool Int32).acquire ser.serverFd, threads⟩ =
      ⟨{ ser with serverFd := -1 }, ⟨[], 0⟩, threads⟩ := by
  simp [error, Pool.acquire, Pool.release, Server.setServerFd]

/-- How a launch ends when nothing is held: with a running server, or with one that has no socket
    and names the thread it had, or what a failed creation left. -/
inductive Launched (ser : SpdTcpSessionArg) (answers : Answers) : Server → Prop where
  | noAddress (hnull : spdSockaddrIsnull (some ser.serveraddr) = true) :
    Launched ser answers ⟨ser, ⟨[], 0⟩, ⟨[], 0⟩⟩
  | noSocket (hnull : spdSockaddrIsnull (some ser.serveraddr) = false)
      (hsocket : answers.socket < 0) :
    Launched ser answers ⟨{ ser with serverFd := answers.socket }, ⟨[], 0⟩, ⟨[], 0⟩⟩
  | notListening (hnull : spdSockaddrIsnull (some ser.serveraddr) = false)
      (hsocket : 0 ≤ answers.socket) (hlisten : answers.bind ≠ 0 ∨ answers.listen ≠ 0) :
    Launched ser answers ⟨{ ser with serverFd := -1 }, ⟨[], 0⟩, ⟨[], 0⟩⟩
  | noThread (hnull : spdSockaddrIsnull (some ser.serveraddr) = false)
      (hsocket : 0 ≤ answers.socket) (hbind : answers.bind = 0) (hlisten : answers.listen = 0)
      (hcreate : answers.create ≠ 0) :
    Launched ser answers
      ⟨{ ser with serverFd := -1, master := answers.thread }, ⟨[], 0⟩, ⟨[], 0⟩⟩
  | runs (hnull : spdSockaddrIsnull (some ser.serveraddr) = false)
      (hsocket : 0 ≤ answers.socket) (hbind : answers.bind = 0) (hlisten : answers.listen = 0)
      (hcreate : answers.create = 0) :
    Launched ser answers
      ⟨⟨ser.serveraddr, spdSockaddrCopy ser.oldaddr ser.serveraddr, answers.socket,
        answers.thread⟩, ⟨[answers.socket], 0⟩, ⟨[answers.thread], 0⟩⟩

theorem launched (ser : SpdTcpSessionArg) (answers : Answers) :
    Launched ser answers (launch ⟨ser, ⟨[], 0⟩, ⟨[], 0⟩⟩ answers) := by
  unfold launch
  cases hnull : spdSockaddrIsnull (some ser.serveraddr) with
  | true => exact .noAddress hnull
  | false =>
    rw [if_neg Bool.false_ne_true]
    by_cases hsocket : answers.socket < 0
    · rw [if_pos hsocket]
      exact .noSocket hnull hsocket
    · rw [if_neg hsocket]
      have hopen : 0 ≤ answers.socket := Int32.not_lt.mp hsocket
      by_cases hbind : answers.bind = 0
      · rw [if_neg (not_not.mpr hbind)]
        by_cases hlisten : answers.listen = 0
        · rw [if_neg (not_not.mpr hlisten)]
          by_cases hcreate : answers.create = 0
          · rw [if_neg (not_not.mpr hcreate)]
            exact .runs hnull hopen hbind hlisten hcreate
          · rw [if_pos hcreate]
            dsimp only [Server.setServerFd, Server.setMaster]
            have herror := error_acquire
              { ser with serverFd := answers.socket, master := answers.thread } ⟨[], 0⟩
            rw [herror]
            exact .noThread hnull hopen hbind hlisten hcreate
        · rw [if_pos hlisten]
          dsimp only [Server.setServerFd]
          rw [error_acquire { ser with serverFd := answers.socket } ⟨[], 0⟩]
          exact .notListening hnull hopen (Or.inr hlisten)
      · rw [if_pos hbind]
        dsimp only [Server.setServerFd]
        rw [error_acquire { ser with serverFd := answers.socket } ⟨[], 0⟩]
        exact .notListening hnull hopen (Or.inl hbind)

/-- A start either changes nothing or launches from a server that holds nothing. -/
theorem Inv.start_cases (h : Inv s) (answers : Answers) :
    spdSockaddrCmp s.ser.serveraddr s.ser.oldaddr = 0 ∧ spdTcpServerStart s answers = s ∨
    spdSockaddrCmp s.ser.serveraddr s.ser.oldaddr ≠ 0 ∧
      Launched { s.ser with oldaddr := spdSockaddrSetnull s.ser.oldaddr } answers
        (spdTcpServerStart s answers) := by
  unfold spdTcpServerStart
  split
  next hsame => exact Or.inl ⟨hsame, rfl⟩
  next hchanged =>
    right
    refine ⟨hchanged, ?_⟩
    rw [h.teardown]
    exact launched _ answers

/-- A start that leaves nothing behind keeps the invariant. -/
theorem Inv.start (h : Inv s) (he : Enabled s (.start answers))
    (hleaves : ¬ Leaves s (.start answers)) : Inv (spdTcpServerStart s answers) := by
  rcases h.start_cases answers with ⟨-, hsame⟩ | ⟨hchanged, hlaunched⟩
  · rw [hsame]
    exact h
  · obtain ⟨hfresh, hthread⟩ := he
    have hidle : (spdSockaddrIsnull (some s.ser.serveraddr) = true ∨ answers.socket < 0 ∨
        answers.bind ≠ 0 ∨ answers.listen ≠ 0) → s.ser.master = SPD_PTHREADT_NULL := by
      intro hfails
      by_contra hne
      exact hleaves ⟨hchanged, Or.inl ⟨hne, hfails⟩⟩
    generalize spdTcpServerStart s answers = s' at hlaunched
    cases hlaunched with
    | noAddress hnull =>
      have hmaster := hidle (Or.inl hnull)
      exact Initial.inv ⟨h.runs.mpr hmaster, hmaster, rfl, rfl⟩
    | noSocket hnull hsocket =>
      have hfd : answers.socket = -1 := by
        rcases hfresh with hfd | ⟨hopen, -⟩
        · exact hfd
        · exact absurd hsocket (Int32.not_lt.mpr hopen)
      exact Initial.inv ⟨hfd, hidle (Or.inr (Or.inl hsocket)), rfl, rfl⟩
    | notListening hnull hsocket hlisten =>
      exact Initial.inv ⟨rfl, hidle (Or.inr (Or.inr hlisten)), rfl, rfl⟩
    | noThread hnull hsocket hbind hlisten hcreate =>
      have hmaster : answers.thread = SPD_PTHREADT_NULL := by
        by_contra hne
        exact hleaves ⟨hchanged, Or.inr ⟨hnull, hsocket, hbind, hlisten, hcreate, hne⟩⟩
      exact Initial.inv ⟨rfl, hmaster, rfl, rfl⟩
    | runs hnull hsocket hbind hlisten hcreate =>
      have hfd : answers.socket ≠ -1 := by
        rintro heq
        rw [heq] at hsocket
        exact absurd hsocket (by decide)
      have hmaster := (hthread hcreate).1
      exact ⟨(Pool.of_ne hfd).symm, (Pool.of_ne hmaster).symm,
        fun heq => absurd heq hfd, fun heq => absurd heq hmaster⟩

/-- One that does leaves a thread in `master` that was joined or never started. -/
theorem Inv.not_sound_start (h : Inv s) (hleaves : Leaves s (.start answers)) :
    ¬ Sound (spdTcpServerStart s answers) := by
  obtain ⟨hchanged, hleaves⟩ := hleaves
  rcases h.start_cases answers with ⟨hsame, -⟩ | ⟨-, hlaunched⟩
  · exact absurd hsame hchanged
  · intro hsound
    have hmaster := hsound.master
    generalize spdTcpServerStart s answers = s' at hlaunched hmaster
    cases hlaunched with
    | noAddress hnull =>
      rcases hleaves with ⟨hne, -⟩ | ⟨hsome, -⟩
      · simp [hne] at hmaster
      · rw [hnull] at hsome
        cases hsome
    | noSocket hnull hsocket =>
      rcases hleaves with ⟨hne, -⟩ | ⟨-, hopen, -⟩
      · simp [hne] at hmaster
      · exact absurd hsocket (Int32.not_lt.mpr hopen)
    | notListening hnull hsocket hlisten =>
      rcases hleaves with ⟨hne, -⟩ | ⟨-, -, hbind, hlistens, -⟩
      · simp [hne] at hmaster
      · rcases hlisten with hne | hne
        · exact absurd hbind hne
        · exact absurd hlistens hne
    | noThread hnull hsocket hbind hlisten hcreate =>
      rcases hleaves with ⟨-, hfails⟩ | ⟨-, -, -, -, -, hne⟩
      · rw [hnull] at hfails
        rcases hfails with hfails | hfails | hfails | hfails
        · cases hfails
        · exact absurd hfails (Int32.not_lt.mpr hsocket)
        · exact absurd hbind hfails
        · exact absurd hlisten hfails
      · simp [hne] at hmaster
    | runs hnull hsocket hbind hlisten hcreate =>
      rcases hleaves with ⟨-, hfails⟩ | ⟨-, -, -, -, hfails, -⟩
      · rw [hnull] at hfails
        rcases hfails with hfails | hfails | hfails | hfails
        · cases hfails
        · exact absurd hfails (Int32.not_lt.mpr hsocket)
        · exact absurd hbind hfails
        · exact absurd hlisten hfails
      · exact absurd hcreate hfails

/-- A stop leaves a server that holds nothing. -/
theorem Inv.stop (h : Inv s) : Inv (spdTcpServerStop s) := by
  have hstop : spdTcpServerStop s =
      ⟨{ s.ser with serverFd := -1, master := SPD_PTHREADT_NULL }, ⟨[], 0⟩, ⟨[], 0⟩⟩ := by
    unfold spdTcpServerStop
    rw [h.joinMaster]
    dsimp only
    split
    next hne =>
      have hclose := closeServerFd_of
        (show (({ s with threads := ⟨[], 0⟩ } : Server).setMaster SPD_PTHREADT_NULL).fds = _ from
          h.fds)
      rw [hclose]
      rfl
    next heq =>
      have hclose := closeServerFd_of (show ({ s with threads := ⟨[], 0⟩ } : Server).fds = _ from
        h.fds)
      rw [hclose, ← not_not.mp heq]
      rfl
  rw [hstop]
  exact Initial.inv ⟨rfl, rfl, rfl, rfl⟩

theorem Inv.step (h : Inv s) {o : Op} (he : Enabled s o) (hleaves : ¬ Leaves s o) :
    ∃ s', step s o = .ok s' ∧ Inv s' := by
  cases o with
  | setServeraddr addr => exact ⟨_, rfl, h.setAddrs addr s.ser.oldaddr⟩
  | start answers => exact ⟨_, rfl, h.start he hleaves⟩
  | stop => exact ⟨_, rfl, h.stop⟩

theorem Inv.not_sound {s' : Server} (h : Inv s) {o : Op} (hleaves : Leaves s o)
    (hstep : Tcp.step s o = .ok s') : ¬ Sound s' := by
  cases o with
  | setServeraddr addr => exact hleaves.elim
  | start answers =>
    rw [← Outcome.ok.inj hstep]
    exact h.not_sound_start hleaves
  | stop => exact hleaves.elim

/-- A server is sound after every call exactly when no start leaves a thread behind. -/
theorem server_sound_iff (hs : Initial s) (os : List Op) (hl : Run.Legal step Enabled s os) :
    Run.Always step Sound s os ↔ Run.Legal step (fun s o => ¬ Leaves s o) s os := by
  have hgood : ∀ s o, Inv s → Enabled s o → ¬ Leaves s o → ∃ s', step s o = .ok s' ∧ Inv s' := by
    intro s o hs he hleaves
    exact hs.step he hleaves
  have hbad : ∀ s o s', Inv s → Enabled s o → Leaves s o → step s o = .ok s' → ¬ Sound s' := by
    intro s o s' hs _ hleaves hstep
    exact hs.not_sound hleaves hstep
  exact Run.always_iff_inv (fun _ hs => hs.sound) hgood hbad os hs.inv hl

instance : ∀ (s : Server) (o : Op), Decidable (Enabled s o)
  | _, .start _ => inferInstanceAs (Decidable (_ ∧ _))
  | _, .setServeraddr _ | _, .stop => isTrue trivial

instance : ∀ (s : Server) (o : Op), Decidable (Leaves s o)
  | _, .start _ => inferInstanceAs (Decidable (_ ∧ _))
  | _, .setServeraddr _ | _, .stop => isFalse id

/-- A server without an address, and what the system answers when all goes well. -/
def server : Server :=
  ⟨⟨⟨List.replicate 128 0, 0⟩, ⟨List.replicate 128 0, 0⟩, -1, SPD_PTHREADT_NULL⟩, ⟨[], 0⟩, ⟨[], 0⟩⟩
@[inherit_doc server] def answered : Answers := ⟨3, 0, 0, 0, 7⟩

theorem initial_server : Initial server := ⟨rfl, rfl, rfl, rfl⟩

/-- A server that is started and stopped is sound. -/
theorem server_sound_stop :
    Run.Always step Sound server [.setServeraddr loopback, .start answered, .stop] :=
  (server_sound_iff initial_server _ (by decide +kernel)).mpr (by decide +kernel)

/-- The server is started, its address is taken away, and it is started again. The stop that follows
    closes its socket and joins its thread a second time. -/
theorem server_twice : ∃ os s', Run.Legal step Enabled server os ∧
    Run.run step server os = .ok s' ∧ s'.fds.twice = 1 ∧ s'.threads.twice = 1 ∧
    ¬ ∀ s, Initial s → ∀ os, Run.Legal step Enabled s os → Run.Always step Sound s os := by
  have hl : Run.Legal step Enabled server [.setServeraddr loopback, .start answered,
      .setServeraddr server.ser.serveraddr, .start answered, .stop] := by decide +kernel
  refine ⟨_, _, hl, rfl, by decide +kernel, by decide +kernel, ?_⟩
  intro h
  obtain ⟨-, s1, h1, -, s2, h2, -, s3, h3, -, s4, h4, -, s5, h5, hsound⟩ := h _ initial_server _ hl
  obtain rfl := Outcome.ok.inj h1
  obtain rfl := Outcome.ok.inj h2
  obtain rfl := Outcome.ok.inj h3
  obtain rfl := Outcome.ok.inj h4
  obtain rfl := Outcome.ok.inj h5
  exact absurd hsound.closed (by decide +kernel)

end

end Spider.Tcp
