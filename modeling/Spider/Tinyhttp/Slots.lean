import Mathlib.Data.List.Nodup
import Mathlib.Logic.Function.Basic
import Spider.Lib.Run
import Spider.Tinyhttp

/-!
# The slots of connections

The event loop of the HTTP server gives a connection the entry of `ev_handles`
that its counter points to. The slips that keep the loop from compiling are read
as what they stand for.
-/

namespace Spider.Tinyhttp.Slots

open Lib Outcome

/-- `MAX_PROCESS_CONN`. -/
def MAX_PROCESS_CONN : Int := 3

/-- An entry of `ev_handles`, with its socket. -/
structure Ev where
  socketFd : Nat
  handle : EventHandle

/-- An open connection: its socket, and the index that the kernel's data for it points to. -/
structure Conn where
  fd : Nat
  slot : Int
  deriving DecidableEq, Repr

/-- The variables of the loop, and the open connections. -/
structure Loop where
  acceptHandles : Int
  evHandles : Int → Ev
  conns : List Conn

/-- Before the loop (`tinyhttp.c:327-336`); the array holds what is in its memory. -/
def Loop.init (evHandles : Int → Ev) : Loop := ⟨0, evHandles, []⟩

/-- `&ev_handles[i]`, in an array of 256. -/
def Loop.slot (s : Loop) (i : Int) : Outcome Ev :=
  if 0 ≤ i ∧ i < 256 then .ok (s.evHandles i) else .fault

/-- `close`. -/
def Loop.close (s : Loop) (fd : Nat) : Loop :=
  { s with conns := s.conns.filter fun c => c.fd ≠ fd }

/-- A connection is accepted when there are less than the most (`tinyhttp.c:343-350`). -/
def accept (s : Loop) (fd : Nat) : Outcome Loop :=
  if s.acceptHandles < MAX_PROCESS_CONN then do
    let acceptHandles := s.acceptHandles + 1
    let _ ← s.slot acceptHandles
    .ok { acceptHandles
          evHandles := Function.update s.evHandles acceptHandles ⟨fd, initEvhandle⟩
          conns := ⟨fd, acceptHandles⟩ :: s.conns }
  else .ok s

/-- `read_hook` with the entry of a connection (`tinyhttp.c:352-356`). -/
def readable (s : Loop) (c : Conn) (recv : Recv) (temp : List UInt8) : Outcome Loop := do
  let ev ← s.slot c.slot
  let (_, handle) ← readHook { ev.handle with closed := false } recv temp
  let s := { s with evHandles := Function.update s.evHandles c.slot ⟨ev.socketFd, handle⟩ }
  .ok (if handle.closed then s.close ev.socketFd else s)

/-- What `sendfile` does: it sends bytes, none of them at the end of the file, or fails. -/
inductive Sendfile where
  | sent (n : Nat)
  | again
  | failed
  deriving DecidableEq, Repr

/-- The loop of `write_hook` (`tinyhttp.c:175-188`). A failure other than `EAGAIN` does not
    end it. -/
def sendLoop : List Sendfile → Outcome Int
  | [] => .timeout
  | .sent 0 :: _ => .ok SUCCESS
  | .sent (_ + 1) :: rest => sendLoop rest
  | .again :: _ => .ok SUCCESS
  | .failed :: rest => sendLoop rest

/-- `write_hook` (`tinyhttp.c:166-190`), when the file cannot be opened and when it can. -/
def writeHook (sendfile : Option (List Sendfile)) : Outcome Int :=
  match sendfile with
  | none => .ok ERROR
  | some results => sendLoop results

/-- `write_hook` with the entry of a connection (`tinyhttp.c:357-363`). -/
def writable (s : Loop) (c : Conn) (sendfile : Option (List Sendfile)) : Outcome Loop := do
  let _ ← s.slot c.slot
  let ret ← writeHook sendfile
  .ok (if ret = 0 then { s with acceptHandles := s.acceptHandles - 1 } else s)

/-- What `epoll_wait` reports. -/
inductive Event where
  /-- A new connection is there, and its socket will be `fd`. -/
  | accept (fd : Nat)
  | readable (c : Conn) (recv : Recv) (temp : List UInt8)
  | writable (c : Conn) (sendfile : Option (List Sendfile))

/-- A turn of the loop (`tinyhttp.c:338-365`). -/
def step (s : Loop) : Event → Outcome Loop
  | .accept fd => accept s fd
  | .readable c recv temp => readable s c recv temp
  | .writable c sendfile => writable s c sendfile

/-- A new socket is none of the open ones, an event is reported for an open connection, and `recv`
    brings no more than is asked for. -/
def Enabled (s : Loop) : Event → Prop
  | .accept fd => ∀ c ∈ s.conns, c.fd ≠ fd
  | .readable c recv _ => c ∈ s.conns ∧ match recv with
    | .error => True
    | .bytes buf => buf.length ≤ MAX_REQLEN
  | .writable c _ => c ∈ s.conns

/-- The counter is the number of the open connections and in its bounds, and the entry that the
    next connection is given is not in use. -/
structure Exclusive (s : Loop) : Prop where
  count : s.acceptHandles = s.conns.length
  bounds : 0 ≤ s.acceptHandles ∧ s.acceptHandles ≤ MAX_PROCESS_CONN
  fresh : s.acceptHandles < MAX_PROCESS_CONN → ∀ c ∈ s.conns, c.slot ≠ s.acceptHandles + 1

/-- `read_hook` closes the socket or fails. -/
def Ends (handle : EventHandle) : Recv → Prop
  | .error => True
  | .bytes buf => buf = [] ∨ handle.requestLen > MAX_REQLEN - buf.length

/-- The events after which the counter is wrong: the end of a stream, more than a request has room
    for, and everything that is written of a file. -/
def Bad (s : Loop) : Event → Prop
  | .accept _ => False
  | .readable c recv _ => Ends (s.evHandles c.slot).handle recv
  | .writable _ sendfile => sendfile ≠ none

section

variable {s : Loop} {c : Conn} {temp buf : List UInt8}

theorem parseRequest_closed {ev : EventHandle} (h : 2 ≤ ev.requestLen) :
    ∃ ev', parseRequest ev temp = .ok ev' ∧ ev'.closed = ev.closed := by
  unfold parseRequest
  rw [if_neg (by omega)]
  dsimp only
  split
  · exact ⟨_, rfl, rfl⟩
  · exact ⟨_, rfl, rfl⟩

/-- The socket is closed when there is no room for the bytes. -/
theorem appendRequest_closed (ev : EventHandle) (buf temp : List UInt8) :
    ∃ ev', appendRequest ev buf temp = .ok ev' ∧
      (ev'.closed = true ↔ ev.closed = true ∨ ev.requestLen > MAX_REQLEN - buf.length) := by
  unfold appendRequest
  dsimp only
  generalize hroom : (if ev.requestLen > MAX_REQLEN - buf.length then
    cleanRequest { ev with closed := true } else ev) = ev₁
  have hclosed : ev₁.closed = true ↔
      ev.closed = true ∨ ev.requestLen > MAX_REQLEN - buf.length := by
    rw [← hroom]
    split
    next h => exact iff_of_true rfl (Or.inr h)
    next h => exact (or_iff_left h).symm
  split
  next hcrlf =>
    have hlen : 2 ≤ ev₁.requestLen + buf.length := by omega
    obtain ⟨ev', hok, hsame⟩ := @parseRequest_closed temp { ev₁ with
      request := ev₁.request.take ev₁.requestLen ++ buf ++
        ev₁.request.drop (ev₁.requestLen + buf.length)
      requestLen := ev₁.requestLen + buf.length } hlen
    exact ⟨ev', hok, by rw [hsame]; exact hclosed⟩
  next => exact ⟨_, rfl, hclosed⟩

/-- What is received closes the socket when it is the end of the stream, or too much. -/
theorem readHook_closed (ev : EventHandle) (buf temp : List UInt8) :
    ∃ r ev', readHook { ev with closed := false } (.bytes buf) temp = .ok (r, ev') ∧
      (ev'.closed = true ↔ Ends ev (.bytes buf)) := by
  cases buf with
  | nil => exact ⟨_, _, rfl, iff_of_true rfl (Or.inl rfl)⟩
  | cons b bs =>
    obtain ⟨ev', hok, hclosed⟩ := appendRequest_closed { ev with closed := false } (b :: bs) temp
    refine ⟨_, ev', bind_eq_ok.mpr ⟨ev', hok, rfl⟩, hclosed.trans ?_⟩
    exact or_congr_left (iff_of_false nofun nofun)

/-- As long as no connection has ended, the open ones have the entries from 1 on, and each entry
    has the socket of its connection. -/
structure Inv (s : Loop) : Prop where
  count : s.acceptHandles = s.conns.length
  le : s.acceptHandles ≤ MAX_PROCESS_CONN
  slots : ∀ c ∈ s.conns, 1 ≤ c.slot ∧ c.slot ≤ s.acceptHandles
  socket : ∀ c ∈ s.conns, (s.evHandles c.slot).socketFd = c.fd

theorem inv_init (evHandles : Int → Ev) : Inv (.init evHandles) where
  count := rfl
  le := (by decide : (0 : Int) ≤ MAX_PROCESS_CONN)
  slots := nofun
  socket := nofun

namespace Inv

theorem exclusive (h : Inv s) : Exclusive s where
  count := h.count
  bounds := ⟨by rw [h.count]; exact Int.natCast_nonneg _, h.le⟩
  fresh := fun _ c hc heq => by
    have hslot := (h.slots c hc).2
    omega

/-- The entry of a connection is in the array. -/
theorem slot (h : Inv s) (hc : c ∈ s.conns) : s.slot c.slot = .ok (s.evHandles c.slot) := by
  have hslot := h.slots c hc
  have hle : s.acceptHandles ≤ 3 := h.le
  exact if_pos ⟨by omega, by omega⟩

/-- An entry may change, but for its socket. -/
theorem update (h : Inv s) (c : Conn) (handle : EventHandle) :
    Inv { s with evHandles :=
      Function.update s.evHandles c.slot ⟨(s.evHandles c.slot).socketFd, handle⟩ } where
  count := h.count
  le := h.le
  slots := h.slots
  socket := fun d hd => by
    dsimp only
    by_cases heq : d.slot = c.slot
    · rw [heq, Function.update_self, ← h.socket d hd, heq]
    · rw [Function.update_of_ne heq]
      exact h.socket d hd

theorem accept (h : Inv s) (fd : Nat) : ∃ s', Slots.accept s fd = .ok s' ∧ Inv s' := by
  unfold Slots.accept
  by_cases hroom : s.acceptHandles < MAX_PROCESS_CONN
  · have hslot : s.slot (s.acceptHandles + 1) = .ok (s.evHandles (s.acceptHandles + 1)) := by
      have hcount := h.count
      have hlt : s.acceptHandles < 3 := hroom
      exact if_pos ⟨by omega, by omega⟩
    rw [if_pos hroom]
    dsimp only
    rw [hslot, ok_bind]
    refine ⟨_, rfl, ?_, hroom, ?_, ?_⟩
    · dsimp only
      rw [h.count, List.length_cons]
      rfl
    · intro c hc
      dsimp only
      rcases List.mem_cons.mp hc with rfl | hc
      · have hcount := h.count
        exact ⟨by dsimp only; omega, Int.le_refl _⟩
      · have hslot := h.slots c hc
        exact ⟨hslot.1, by omega⟩
    · intro c hc
      dsimp only
      rcases List.mem_cons.mp hc with rfl | hc
      · rw [Function.update_self]
      · have hne : c.slot ≠ s.acceptHandles + 1 := by
          have hslot := (h.slots c hc).2
          omega
        rw [Function.update_of_ne hne]
        exact h.socket c hc
  · rw [if_neg hroom]
    exact ⟨s, rfl, h⟩

/-- When a connection is closed the counter is too large. -/
theorem close (h : Inv s) (hc : c ∈ s.conns) : ¬ Exclusive (s.close c.fd) := by
  intro hex
  have hcount : s.acceptHandles = ((s.close c.fd).conns.length : Int) := hex.count
  have hlt : (s.close c.fd).conns.length < s.conns.length := by
    apply List.length_filter_lt_length_iff_exists.mpr
    exact ⟨c, hc, by simp⟩
  have hcount' := h.count
  omega

/-- An event of the good kind leaves everything in order. -/
theorem step (h : Inv s) {e : Event} (he : Enabled s e) (hgood : ¬ Bad s e) :
    ∃ s', Slots.step s e = .ok s' ∧ Inv s' := by
  cases e with
  | accept fd => exact h.accept fd
  | readable c recv temp =>
    cases recv with
    | error => exact absurd trivial hgood
    | bytes buf =>
      obtain ⟨r, handle, hread, hclosed⟩ := readHook_closed (s.evHandles c.slot).handle buf temp
      have hopen : ¬ handle.closed = true := fun hc => hgood (hclosed.mp hc)
      refine ⟨_, ?_, h.update c handle⟩
      rw [Slots.step, readable, h.slot he.1, ok_bind, hread, ok_bind]
      dsimp only
      rw [if_neg hopen]
  | writable c sendfile =>
    have hnone : sendfile = none := not_not.mp hgood
    refine ⟨s, ?_, h⟩
    rw [Slots.step, writable, h.slot he, ok_bind, hnone, writeHook, ok_bind, if_neg (by decide)]

/-- The loop of `write_hook` ends with success. -/
theorem sendLoop_ret {results : List Sendfile} {ret : Int} (h : sendLoop results = .ok ret) :
    ret = 0 := by
  induction results with
  | nil => cases h
  | cons r rest ih =>
    match r with
    | .sent 0 => exact (Outcome.ok.inj h).symm
    | .sent (_ + 1) => exact ih h
    | .again => exact (Outcome.ok.inj h).symm
    | .failed => exact ih h

/-- One of the bad kind makes the counter wrong, or does not come to an end. -/
theorem bad (h : Inv s) {e : Event} {s' : Loop} (he : Enabled s e) (hbad : Bad s e)
    (hstep : Slots.step s e = .ok s') : ¬ Exclusive s' := by
  cases e with
  | accept fd => exact hbad.elim
  | readable c recv temp =>
    rw [Slots.step, readable, h.slot he.1, ok_bind] at hstep
    cases recv with
    | error => cases hstep
    | bytes buf =>
      obtain ⟨r, handle, hread, hclosed⟩ := readHook_closed (s.evHandles c.slot).handle buf temp
      rw [hread, ok_bind] at hstep
      dsimp only at hstep
      rw [if_pos (hclosed.mpr hbad), h.socket c he.1] at hstep
      obtain rfl := Outcome.ok.inj hstep
      have hupdate := h.update c handle
      rw [h.socket c he.1] at hupdate
      exact hupdate.close he.1
  | writable c sendfile =>
    obtain ⟨results, rfl⟩ := Option.ne_none_iff_exists'.mp hbad
    rw [Slots.step, writable, h.slot he, ok_bind] at hstep
    obtain ⟨ret, hret, hs'⟩ := bind_eq_ok.mp hstep
    obtain rfl := sendLoop_ret hret
    rw [if_pos rfl] at hs'
    obtain rfl := Outcome.ok.inj hs'
    intro hex
    have hcount : s.acceptHandles - 1 = (s.conns.length : Int) := hex.count
    have hcount' := h.count
    omega

end Inv

end

/-- The counter is the number of open connections, and the next entry is not in use, after every
    event exactly when no event ends a connection or writes anything of a file. -/
theorem slots_exclusive_iff (evHandles : Int → Ev) (es : List Event)
    (hes : Run.Legal step Enabled (.init evHandles) es) :
    Run.Always step Exclusive (.init evHandles) es ↔
      Run.Legal step (fun s e => ¬ Bad s e) (.init evHandles) es :=
  Run.always_iff_inv (fun _ h => h.exclusive) (fun _ _ h he hgood => h.step he hgood)
    (fun _ _ _ h he hbad hstep => h.bad he hbad hstep) es (inv_init evHandles) hes

/-- An array of handles. -/
def noHandles : Int → Ev := fun _ => ⟨0, initEvhandle⟩

instance (s : Loop) (e : Event) : Decidable (Enabled s e) :=
  match e with
  | .accept _ => inferInstanceAs (Decidable (∀ c ∈ s.conns, _))
  | .readable _ .error _ => inferInstanceAs (Decidable (_ ∧ True))
  | .readable _ (.bytes _) _ => inferInstanceAs (Decidable (_ ∧ _ ≤ _))
  | .writable _ _ => inferInstanceAs (Decidable (_ ∈ _))

instance (handle : EventHandle) : (recv : Recv) → Decidable (Ends handle recv)
  | .error => isTrue trivial
  | .bytes _ => inferInstanceAs (Decidable (_ ∨ _))

instance (s : Loop) : (e : Event) → Decidable (Bad s e)
  | .accept _ => isFalse id
  | .readable c recv _ => inferInstanceAs (Decidable (Ends (s.evHandles c.slot).handle recv))
  | .writable _ none => isFalse (by simp [Bad])
  | .writable _ (some _) => isTrue (by simp [Bad])

/-- Three connections are accepted, and a fourth one is not; two of them are read from, and the file
    that one asks for cannot be opened. -/
def threeConns : List Event :=
  [.accept 5, .accept 6, .readable ⟨5, 1⟩ (.bytes (CString.lit "2:f")) [], .accept 7,
    .readable ⟨7, 3⟩ (.bytes (CString.lit "3:ab")) [], .readable ⟨5, 1⟩ (.bytes CRLF) [], .accept 8,
    .writable ⟨5, 1⟩ none]

/-- They have entries of their own all the time. -/
theorem slots_exclusive_iff_three :
    Run.Always step Exclusive (.init noHandles) threeConns ∧
      ∃ s, Run.run step (.init noHandles) threeConns = .ok s ∧ s.acceptHandles = 3 ∧
        s.conns = [⟨7, 3⟩, ⟨6, 2⟩, ⟨5, 1⟩] :=
  ⟨(slots_exclusive_iff noHandles threeConns (by decide +kernel)).mpr (by decide +kernel),
    exists_of_run (by decide +kernel)⟩

/-- Two connections are accepted, the file that the first asks for is sent, and a third is
    accepted. -/
def sendAndAccept : List Event :=
  [.accept 5, .accept 6, .readable ⟨5, 1⟩ (.bytes (CString.lit "2:f")) [],
    .readable ⟨5, 1⟩ (.bytes CRLF) [], .writable ⟨5, 1⟩ (some [.sent 10, .sent 0]), .accept 7]

/-- The third is given the entry of the second. -/
theorem slots_collide :
    Run.Legal step Enabled (.init noHandles) sendAndAccept ∧
    (∃ s, Run.run step (.init noHandles) sendAndAccept = .ok s ∧ s.acceptHandles = 2 ∧
      s.conns = [⟨7, 2⟩, ⟨6, 2⟩, ⟨5, 1⟩]) ∧
    ¬ ∀ es, Run.Legal step Enabled (.init noHandles) es →
      Run.Always step Exclusive (.init noHandles) es := by
  have hlegal : Run.Legal step Enabled (.init noHandles) sendAndAccept := by decide +kernel
  have hrun : ∃ s, Run.run step (.init noHandles) sendAndAccept = .ok s ∧ s.acceptHandles = 2 ∧
      s.conns = [⟨7, 2⟩, ⟨6, 2⟩, ⟨5, 1⟩] := exists_of_run (by decide +kernel)
  refine ⟨hlegal, hrun, ?_⟩
  intro h
  obtain ⟨s, hrun, hcount, hconns⟩ := hrun
  have hend := (Run.always_end (h sendAndAccept hlegal) hrun).count
  rw [hcount, hconns] at hend
  exact absurd hend (by decide)

end Spider.Tinyhttp.Slots
