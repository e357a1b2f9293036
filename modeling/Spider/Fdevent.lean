import Mathlib.Data.Finset.Erase
import Mathlib.Data.Finset.Insert
import Mathlib.Logic.Function.Basic
import Spider.Lib.Run

/-!
# File descriptor events

The nodes of `fdevent.c` beside the descriptors that epoll watches. A turn of
`fdevent_loop` waits for events and handles one after the other; what a handler
does are the calls before the next one is handled.
-/

namespace Spider.Fdevent

open Lib Outcome

-- A handler is of type `η`, and its context of type `γ`.
variable {η γ : Type}

/-- `FDEVENT_IN` and `FDEVENT_OUT`. -/
def FDEVENT_IN : UInt32 := 1
@[inherit_doc FDEVENT_IN] def FDEVENT_OUT : UInt32 := 4

/-- The bits of epoll. -/
def EPOLLIN : UInt32 := 0x001
@[inherit_doc EPOLLIN] def EPOLLOUT : UInt32 := 0x004
@[inherit_doc EPOLLIN] def EPOLLERR : UInt32 := 0x008
@[inherit_doc EPOLLIN] def EPOLLHUP : UInt32 := 0x010

/-- `struct _fdnode`. -/
structure Fdnode (η γ : Type) where
  handler : Option η
  fd : Int
  ctx : Option γ
  status : Int

/-- `struct fdevents`, and what the kernel watches: the events of each descriptor that is in the
    interest set. -/
structure Fdevents (η γ : Type) where
  maxfds : Nat
  fdarray : Nat → Option (Fdnode η γ)
  interest : Nat → Option UInt32

/-- `fdevent_init` (`fdevent.c:32-48`), when there is memory, as there is for the nodes. -/
def fdeventInit (maxfds : Nat) : Fdevents η γ := ⟨maxfds, fun _ => none, fun _ => none⟩

/-- `fdnode_init` (`fdevent.c:168-176`). -/
def fdnodeInit : Fdnode η γ := ⟨none, -1, none, -1⟩

/-- `ev->fdarray[fd]`, which may be null. -/
def Fdevents.node (ev : Fdevents η γ) (fd : Nat) : Outcome (Option (Fdnode η γ)) :=
  if fd < ev.maxfds then .ok (ev.fdarray fd) else .fault

/-- The node behind it. -/
def Fdevents.deref (ev : Fdevents η γ) (fd : Nat) : Outcome (Fdnode η γ) := do
  match ← ev.node fd with
  | none => .fault
  | some fdn => .ok fdn

/-- `ev->fdarray[fd] = fdn`. -/
def Fdevents.setNode (ev : Fdevents η γ) (fd : Nat) (fdn : Option (Fdnode η γ)) :
    Outcome (Fdevents η γ) :=
  if fd < ev.maxfds then .ok { ev with fdarray := Function.update ev.fdarray fd fdn } else .fault

/-- The operations of `epoll_ctl`. -/
inductive EpollCtl where
  | EPOLL_CTL_ADD
  | EPOLL_CTL_MOD
  | EPOLL_CTL_DEL
  deriving DecidableEq, Repr

open EpollCtl

/-- `epoll_ctl` fails when it is to add what is watched, or to modify or delete what is not. -/
def epollCtl (ev : Fdevents η γ) (op : EpollCtl) (fd : Nat) (events : UInt32) :
    Int × Fdevents η γ :=
  match op, ev.interest fd with
  | EPOLL_CTL_ADD, none | EPOLL_CTL_MOD, some _ =>
    (0, { ev with interest := Function.update ev.interest fd (some events) })
  | EPOLL_CTL_DEL, some _ => (0, { ev with interest := Function.update ev.interest fd none })
  | EPOLL_CTL_ADD, some _ | EPOLL_CTL_MOD, none | EPOLL_CTL_DEL, none => (-1, ev)

/-- `fdevent_register` (`fdevent.c:65-75`). -/
def fdeventRegister (ev : Fdevents η γ) (fd : Nat) (handler : η) (ctx : Option γ) :
    Outcome (Int × Fdevents η γ) := do
  let fdn : Fdnode η γ :=
    { (fdnodeInit : Fdnode η γ) with handler := some handler, fd := fd, ctx := ctx }
  let ev ← ev.setNode fd (some fdn)
  .ok (0, ev)

/-- `fdevent_unregister` (`fdevent.c:77-85`). -/
def fdeventUnregister (ev : Fdevents η γ) (fd : Nat) : Outcome (Int × Fdevents η γ) := do
  let ev ← ev.setNode fd none
  .ok (0, ev)

/-- The events that are asked for (`fdevent.c:94-108`). -/
def epollEvents (events : UInt32) : UInt32 :=
  (if events &&& FDEVENT_IN ≠ 0 then EPOLLIN else 0) |||
    (if events &&& FDEVENT_OUT ≠ 0 then EPOLLOUT else 0) ||| EPOLLERR ||| EPOLLHUP

/-- `fdevent_event_add` (`fdevent.c:87-123`). -/
def fdeventEventAdd (ev : Fdevents η γ) (fd : Nat) (events : UInt32) :
    Outcome (Int × Fdevents η γ) := do
  let fdn ← ev.deref fd
  let add := fdn.status = -1
  let (ret, ev) := epollCtl ev (if add then EPOLL_CTL_ADD else EPOLL_CTL_MOD) fd
    (epollEvents events)
  if ret ≠ 0 then .ok (-1, ev)
  else if add then do
    let ev ← ev.setNode fd (some { fdn with status := 1 })
    .ok (0, ev)
  else .ok (0, ev)

/-- `fdevent_event_del` (`fdevent.c:124-142`). -/
def fdeventEventDel (ev : Fdevents η γ) (fd : Nat) : Outcome (Int × Fdevents η γ) := do
  let fdn ← ev.deref fd
  if fdn.status = -1 then .ok (0, ev)
  else
    let (ret, ev) := epollCtl ev EPOLL_CTL_DEL fd 0
    if ret ≠ 0 then .ok (-1, ev)
    else do
      let ev ← ev.setNode fd (some { fdn with status := -1 })
      .ok (0, ev)

/-- A call of a handler: its context, the descriptor and the events. -/
structure HandlerCall (η γ : Type) where
  handler : η
  fd : Nat
  ctx : Option γ
  events : UInt32

/-- What `fdevent_loop` does with an event (`fdevent.c:149-162`): the handler that it calls. -/
def fdeventHandle (ev : Fdevents η γ) (fd : Nat) (e : UInt32) : Outcome (HandlerCall η γ) := do
  let events := (if e &&& EPOLLIN ≠ 0 then FDEVENT_IN else 0) |||
    if e &&& EPOLLOUT ≠ 0 then FDEVENT_OUT else 0
  let fdn ← ev.deref fd
  match fdn.handler with
  | none => .fault
  | some handler => .ok ⟨handler, fd, fdn.ctx, events⟩

/-! ## Runs -/

/-- The nodes, the events that `epoll_wait` has reported and that are still to be handled, and the
    descriptors that were unregistered since and not registered again. -/
structure Sys (η γ : Type) where
  ev : Fdevents η γ
  pending : List (Nat × UInt32)
  dropped : Finset Nat

inductive Op (η γ : Type) where
  | register (fd : Nat) (handler : η) (ctx : Option γ)
  | unregister (fd : Nat)
  | eventAdd (fd : Nat) (events : UInt32)
  | eventDel (fd : Nat)
  /-- `epoll_wait` reports events. -/
  | wait (reported : List (Nat × UInt32))
  /-- The next event is handled. -/
  | handle

/-- One call, or the wait or an event of the loop. -/
def step (s : Sys η γ) : Op η γ → Outcome (Sys η γ)
  | .register fd handler ctx => do
    let (_, ev) ← fdeventRegister s.ev fd handler ctx
    .ok { s with ev := ev, dropped := s.dropped.erase fd }
  | .unregister fd => do
    let (_, ev) ← fdeventUnregister s.ev fd
    .ok { s with ev := ev, dropped := insert fd s.dropped }
  | .eventAdd fd events => do
    let (_, ev) ← fdeventEventAdd s.ev fd events
    .ok { s with ev := ev }
  | .eventDel fd => do
    let (_, ev) ← fdeventEventDel s.ev fd
    .ok { s with ev := ev }
  | .wait reported => .ok { s with pending := reported, dropped := ∅ }
  | .handle =>
    match s.pending with
    | [] => .ok s
    | (fd, e) :: rest => do
      let _ ← fdeventHandle s.ev fd e
      .ok { s with pending := rest }

/-- Descriptors are below `maxfds`, only registered ones are unregistered, added and deleted, and
    the loop waits when all events are handled, for what is watched. -/
def Enabled (s : Sys η γ) : Op η γ → Prop
  | .register fd _ _ => fd < s.ev.maxfds
  | .unregister fd | .eventAdd fd _ | .eventDel fd =>
    fd < s.ev.maxfds ∧ (s.ev.fdarray fd).isSome
  | .wait reported => s.pending = [] ∧ ∀ p ∈ reported, (s.ev.interest p.1).isSome
  | .handle => s.pending ≠ []

/-- What is watched has a node of status 1, and nothing else has one; and no addition for a
    registered descriptor fails. -/
structure Live (s : Sys η γ) : Prop where
  watched : ∀ fd, (s.ev.interest fd).isSome ↔ ∃ fdn, s.ev.fdarray fd = some fdn ∧ fdn.status = 1
  add : ∀ fd events, fd < s.ev.maxfds → (s.ev.fdarray fd).isSome →
    ∃ ev', fdeventEventAdd s.ev fd events = .ok (0, ev')

/-- A descriptor is registered or unregistered while it is watched, or an event is handled whose
    descriptor was unregistered since it was reported, and not registered again. -/
def Bad (s : Sys η γ) : Op η γ → Prop
  | .register fd _ _ | .unregister fd => (s.ev.interest fd).isSome
  | .handle => ∃ p ∈ s.pending.head?, p.1 ∈ s.dropped
  | _ => False

section

variable {ev : Fdevents η γ} {s : Sys η γ} {fd : Nat} {events : UInt32} {fdn : Fdnode η γ}

/-- A descriptor is given a node and a place in the interest set. -/
def Fdevents.put (ev : Fdevents η γ) (fd : Nat) (fdn : Option (Fdnode η γ)) (i : Option UInt32) :
    Fdevents η γ :=
  { ev with
    fdarray := Function.update ev.fdarray fd fdn
    interest := Function.update ev.interest fd i }

@[simp] theorem put_maxfds (fdn : Option (Fdnode η γ)) (i : Option UInt32) :
    (ev.put fd fdn i).maxfds = ev.maxfds := rfl

@[simp] theorem put_fdarray_self (fdn : Option (Fdnode η γ)) (i : Option UInt32) :
    (ev.put fd fdn i).fdarray fd = fdn :=
  Function.update_self ..

@[simp] theorem put_interest_self (fdn : Option (Fdnode η γ)) (i : Option UInt32) :
    (ev.put fd fdn i).interest fd = i :=
  Function.update_self ..

theorem put_fdarray_of_ne {fd' : Nat} (h : fd' ≠ fd) (fdn : Option (Fdnode η γ))
    (i : Option UInt32) : (ev.put fd fdn i).fdarray fd' = ev.fdarray fd' :=
  Function.update_of_ne h ..

theorem put_interest_of_ne {fd' : Nat} (h : fd' ≠ fd) (fdn : Option (Fdnode η γ))
    (i : Option UInt32) : (ev.put fd fdn i).interest fd' = ev.interest fd' :=
  Function.update_of_ne h ..

/-- What is put back as it was changes nothing. -/
theorem put_fdarray (fdn : Option (Fdnode η γ)) :
    ev.put fd fdn (ev.interest fd) = { ev with fdarray := Function.update ev.fdarray fd fdn } := by
  rw [Fdevents.put, Function.update_eq_self]

theorem put_interest (i : Option UInt32) :
    ev.put fd (ev.fdarray fd) i = { ev with interest := Function.update ev.interest fd i } := by
  rw [Fdevents.put, Function.update_eq_self]

theorem put_self : ev.put fd (ev.fdarray fd) (ev.interest fd) = ev := by
  rw [put_fdarray, Function.update_eq_self]

/-- The nodes agree with the kernel: exactly the watched descriptors have one of status 1, and the
    others that have one have a status of -1. -/
structure Nodes (ev : Fdevents η γ) : Prop where
  watched : ∀ fd, (ev.interest fd).isSome ↔ ∃ fdn, ev.fdarray fd = some fdn ∧ fdn.status = 1
  status : ∀ fd fdn, ev.fdarray fd = some fdn → fdn.status = 1 ∨ fdn.status = -1
  handler : ∀ fd fdn, ev.fdarray fd = some fdn → fdn.handler.isSome
  range : ∀ fd fdn, ev.fdarray fd = some fdn → fd < ev.maxfds

theorem nodes_init (maxfds : Nat) : Nodes (fdeventInit maxfds : Fdevents η γ) where
  watched := fun _ => iff_of_false nofun nofun
  status := nofun
  handler := nofun
  range := nofun

theorem epollCtl_add (h : ev.interest fd = none) (events : UInt32) :
    epollCtl ev EPOLL_CTL_ADD fd events =
      (0, { ev with interest := Function.update ev.interest fd (some events) }) := by
  unfold epollCtl
  rw [h]

theorem epollCtl_mod (h : (ev.interest fd).isSome) (events : UInt32) :
    epollCtl ev EPOLL_CTL_MOD fd events =
      (0, { ev with interest := Function.update ev.interest fd (some events) }) := by
  obtain ⟨i, hi⟩ := Option.isSome_iff_exists.mp h
  unfold epollCtl
  rw [hi]

theorem epollCtl_del (h : (ev.interest fd).isSome) (events : UInt32) :
    epollCtl ev EPOLL_CTL_DEL fd events =
      (0, { ev with interest := Function.update ev.interest fd none }) := by
  obtain ⟨i, hi⟩ := Option.isSome_iff_exists.mp h
  unfold epollCtl
  rw [hi]

/-- A registration makes a node that is not watched. -/
theorem fdeventRegister_eq (h : fd < ev.maxfds) (handler : η) (ctx : Option γ) :
    fdeventRegister ev fd handler ctx =
      .ok (0, ev.put fd (some ⟨some handler, fd, ctx, -1⟩) (ev.interest fd)) := by
  rw [fdeventRegister]
  dsimp only
  rw [Fdevents.setNode, if_pos h, ok_bind, put_fdarray]
  rfl

theorem fdeventUnregister_eq (h : fd < ev.maxfds) :
    fdeventUnregister ev fd = .ok (0, ev.put fd none (ev.interest fd)) := by
  rw [fdeventUnregister, Fdevents.setNode, if_pos h, ok_bind, put_fdarray]

theorem deref_eq (hlt : fd < ev.maxfds) (hfdn : ev.fdarray fd = some fdn) :
    ev.deref fd = .ok fdn := by
  rw [Fdevents.deref, Fdevents.node, if_pos hlt, ok_bind, hfdn]

/-- A status of -1 is not the one of a watched descriptor. -/
theorem not_status_one (hs : fdn.status = -1) : ¬ ∃ n, some fdn = some n ∧ n.status = 1 := by
  rintro ⟨n, hn, hs'⟩
  obtain rfl := Option.some.inj hn
  exact absurd (hs.symm.trans hs') (by decide)

namespace Nodes

/-- A node of status -1 is not watched. -/
theorem interest_none (h : Nodes ev) (hfdn : ev.fdarray fd = some fdn) (hs : fdn.status = -1) :
    ev.interest fd = none := by
  rw [← Option.not_isSome_iff_eq_none, h.watched, hfdn]
  exact not_status_one hs

theorem interest_some (h : Nodes ev) (hfdn : ev.fdarray fd = some fdn) (hs : fdn.status = 1) :
    (ev.interest fd).isSome :=
  (h.watched fd).mpr ⟨fdn, hfdn, hs⟩

/-- An addition never fails. -/
theorem fdeventEventAdd_eq (h : Nodes ev) (hfdn : ev.fdarray fd = some fdn) (events : UInt32) :
    fdeventEventAdd ev fd events =
      .ok (0, ev.put fd (some { fdn with status := 1 }) (some (epollEvents events))) := by
  have hlt := h.range fd fdn hfdn
  rw [fdeventEventAdd, deref_eq hlt hfdn, ok_bind]
  dsimp only
  rcases h.status fd fdn hfdn with hs | hs
  · have hne : ¬ fdn.status = -1 := by omega
    have hsame : some { fdn with status := 1 } = ev.fdarray fd := by rw [hfdn, ← hs]
    rw [if_neg hne, epollCtl_mod (h.interest_some hfdn hs), hsame, put_interest]
    exact (if_neg (not_not.mpr rfl)).trans (if_neg hne)
  · rw [if_pos hs, epollCtl_add (h.interest_none hfdn hs)]
    dsimp only
    rw [if_neg (not_not.mpr rfl), if_pos hs, Fdevents.setNode, if_pos hlt, ok_bind]
    rfl

/-- A deletion never fails either. -/
theorem fdeventEventDel_eq (h : Nodes ev) (hfdn : ev.fdarray fd = some fdn) :
    fdeventEventDel ev fd = .ok (0, ev.put fd (some { fdn with status := -1 }) none) := by
  have hlt := h.range fd fdn hfdn
  rw [fdeventEventDel, deref_eq hlt hfdn, ok_bind]
  rcases h.status fd fdn hfdn with hs | hs
  · rw [if_neg (by omega), epollCtl_del (h.interest_some hfdn hs)]
    dsimp only
    rw [if_neg (not_not.mpr rfl), Fdevents.setNode, if_pos hlt, ok_bind]
    rfl
  · have hsame : some { fdn with status := -1 } = ev.fdarray fd := by rw [hfdn, ← hs]
    rw [if_pos hs, hsame, ← h.interest_none hfdn hs, put_self]

/-- What is put for a descriptor has to agree with itself only. -/
theorem put (h : Nodes ev) {fdn : Option (Fdnode η γ)} {i : Option UInt32} (hlt : fd < ev.maxfds)
    (hwatched : i.isSome ↔ ∃ n, fdn = some n ∧ n.status = 1)
    (hfdn : ∀ n, fdn = some n → (n.status = 1 ∨ n.status = -1) ∧ n.handler.isSome) :
    Nodes (ev.put fd fdn i) where
  watched := fun fd' => by
    by_cases heq : fd' = fd
    · rw [heq, put_interest_self, put_fdarray_self]
      exact hwatched
    · rw [put_interest_of_ne heq, put_fdarray_of_ne heq]
      exact h.watched fd'
  status := fun fd' n hn => by
    by_cases heq : fd' = fd
    · rw [heq, put_fdarray_self] at hn
      exact (hfdn n hn).1
    · rw [put_fdarray_of_ne heq] at hn
      exact h.status fd' n hn
  handler := fun fd' n hn => by
    by_cases heq : fd' = fd
    · rw [heq, put_fdarray_self] at hn
      exact (hfdn n hn).2
    · rw [put_fdarray_of_ne heq] at hn
      exact h.handler fd' n hn
  range := fun fd' n hn => by
    by_cases heq : fd' = fd
    · exact heq ▸ hlt
    · rw [put_fdarray_of_ne heq] at hn
      exact h.range fd' n hn

end Nodes

/-- Beside that: what was dropped has no node, and of what is reported everything else has one. -/
structure Inv (s : Sys η γ) : Prop where
  nodes : Nodes s.ev
  dropped : ∀ fd ∈ s.dropped, s.ev.fdarray fd = none
  reported : ∀ p ∈ s.pending,
    p.1 < s.ev.maxfds ∧ (p.1 ∈ s.dropped ∨ ∃ fdn, s.ev.fdarray p.1 = some fdn)

/-- Before the first call. -/
def Sys.init (maxfds : Nat) : Sys η γ := ⟨fdeventInit maxfds, [], ∅⟩

theorem inv_init (maxfds : Nat) : Inv (.init maxfds : Sys η γ) where
  nodes := nodes_init maxfds
  dropped := nofun
  reported := nofun

namespace Inv

theorem live (h : Inv s) : Live s where
  watched := h.nodes.watched
  add := fun _ events _ hreg => by
    obtain ⟨_, hfdn⟩ := Option.isSome_iff_exists.mp hreg
    exact ⟨_, h.nodes.fdeventEventAdd_eq hfdn events⟩

/-- A descriptor is dropped when its node is taken away. -/
theorem put (h : Inv s) {node : Option (Fdnode η γ)} {i : Option UInt32} {dropped : Finset Nat}
    (hnodes : Nodes (s.ev.put fd node i)) (hself : fd ∈ dropped ↔ node = none)
    (hother : ∀ fd' ≠ fd, fd' ∈ dropped ↔ fd' ∈ s.dropped) :
    Inv { s with ev := s.ev.put fd node i, dropped := dropped } where
  nodes := hnodes
  dropped := fun fd' hfd' => by
    dsimp only
    by_cases heq : fd' = fd
    · rw [heq, put_fdarray_self]
      exact hself.mp (heq ▸ hfd')
    · rw [put_fdarray_of_ne heq]
      exact h.dropped fd' ((hother fd' heq).mp hfd')
  reported := fun p hp => by
    obtain ⟨hlt, hp⟩ := h.reported p hp
    refine ⟨hlt, ?_⟩
    dsimp only
    by_cases heq : p.1 = fd
    · rw [heq, put_fdarray_self, hself]
      cases node with
      | none => exact Or.inl rfl
      | some n => exact Or.inr ⟨n, rfl⟩
    · rw [put_fdarray_of_ne heq, hother p.1 heq]
      exact hp

theorem register (h : Inv s) (hlt : fd < s.ev.maxfds) (hgood : ¬ (s.ev.interest fd).isSome)
    (handler : η) (ctx : Option γ) :
    ∃ s', step s (.register fd handler ctx) = .ok s' ∧ Inv s' := by
  refine ⟨_, by rw [step, fdeventRegister_eq hlt, ok_bind], ?_⟩
  apply h.put
  · apply h.nodes.put hlt
    · exact iff_of_false hgood (not_status_one rfl)
    · intro n hn
      obtain rfl := Option.some.inj hn
      exact ⟨Or.inr rfl, rfl⟩
  · exact iff_of_false (Finset.notMem_erase fd s.dropped) nofun
  · intro fd' hne
    rw [Finset.mem_erase, and_iff_right hne]

theorem unregister (h : Inv s) (hlt : fd < s.ev.maxfds) (hgood : ¬ (s.ev.interest fd).isSome) :
    ∃ s', step s (.unregister fd) = .ok s' ∧ Inv s' := by
  refine ⟨_, by rw [step, fdeventUnregister_eq hlt, ok_bind], ?_⟩
  apply h.put
  · apply h.nodes.put hlt
    · exact iff_of_false hgood nofun
    · exact nofun
  · exact iff_of_true (Finset.mem_insert_self fd s.dropped) rfl
  · intro fd' hne
    rw [Finset.mem_insert, or_iff_right hne]

/-- A descriptor that has a node was not dropped. -/
theorem notMem_dropped (h : Inv s) (hfdn : s.ev.fdarray fd = some fdn) : fd ∉ s.dropped := by
  intro hd
  rw [h.dropped fd hd] at hfdn
  cases hfdn

theorem eventAdd (h : Inv s) (hreg : (s.ev.fdarray fd).isSome) (events : UInt32) :
    ∃ s', step s (.eventAdd fd events) = .ok s' ∧ Inv s' := by
  obtain ⟨fdn, hfdn⟩ := Option.isSome_iff_exists.mp hreg
  refine ⟨_, by rw [step, h.nodes.fdeventEventAdd_eq hfdn, ok_bind], ?_⟩
  apply h.put
  · apply h.nodes.put (h.nodes.range fd fdn hfdn)
    · exact iff_of_true rfl ⟨_, rfl, rfl⟩
    · intro n hn
      obtain rfl := Option.some.inj hn
      exact ⟨Or.inl rfl, h.nodes.handler fd fdn hfdn⟩
  · exact iff_of_false (h.notMem_dropped hfdn) nofun
  · exact fun _ _ => Iff.rfl

theorem eventDel (h : Inv s) (hreg : (s.ev.fdarray fd).isSome) :
    ∃ s', step s (.eventDel fd) = .ok s' ∧ Inv s' := by
  obtain ⟨fdn, hfdn⟩ := Option.isSome_iff_exists.mp hreg
  refine ⟨_, by rw [step, h.nodes.fdeventEventDel_eq hfdn, ok_bind], ?_⟩
  apply h.put
  · apply h.nodes.put (h.nodes.range fd fdn hfdn)
    · exact iff_of_false nofun (not_status_one rfl)
    · intro n hn
      obtain rfl := Option.some.inj hn
      exact ⟨Or.inr rfl, h.nodes.handler fd fdn hfdn⟩
  · exact iff_of_false (h.notMem_dropped hfdn) nofun
  · exact fun _ _ => Iff.rfl

/-- What epoll reports is watched, so it has a node. -/
theorem wait (h : Inv s) {reported : List (Nat × UInt32)}
    (hwatched : ∀ p ∈ reported, (s.ev.interest p.1).isSome) :
    Inv { s with pending := reported, dropped := ∅ } where
  nodes := h.nodes
  dropped := nofun
  reported := fun p hp => by
    obtain ⟨fdn, hfdn, -⟩ := (h.nodes.watched p.1).mp (hwatched p hp)
    exact ⟨h.nodes.range p.1 fdn hfdn, Or.inr ⟨fdn, hfdn⟩⟩

/-- An event that is handled finds a node, unless its descriptor was dropped. -/
theorem handle (h : Inv s) {p : Nat × UInt32} {rest : List (Nat × UInt32)}
    (hs : s.pending = p :: rest) (hgood : p.1 ∉ s.dropped) :
    ∃ s', step s .handle = .ok s' ∧ Inv s' := by
  obtain ⟨hlt, hp⟩ := h.reported p (hs ▸ List.mem_cons_self)
  obtain ⟨fdn, hfdn⟩ := hp.resolve_left hgood
  obtain ⟨handler, hhandler⟩ := Option.isSome_iff_exists.mp (h.nodes.handler p.1 fdn hfdn)
  refine ⟨{ s with pending := rest }, ?_, h.nodes, h.dropped, ?_⟩
  · rw [step, hs]
    dsimp only
    rw [fdeventHandle, deref_eq hlt hfdn, ok_bind, hhandler, ok_bind]
  · exact fun q hq => h.reported q (hs ▸ List.mem_cons_of_mem p hq)

/-- A step of the good kind keeps everything. -/
theorem step (h : Inv s) {o : Op η γ} (he : Enabled s o) (hgood : ¬ Bad s o) :
    ∃ s', Fdevent.step s o = .ok s' ∧ Inv s' := by
  cases o with
  | register fd handler ctx => exact h.register he hgood handler ctx
  | unregister fd => exact h.unregister he.1 hgood
  | eventAdd fd events => exact h.eventAdd he.2 events
  | eventDel fd => exact h.eventDel he.2
  | wait reported => exact ⟨_, rfl, h.wait he.2⟩
  | handle =>
    obtain ⟨p, rest, hs⟩ := List.exists_cons_of_ne_nil he
    apply h.handle hs
    exact fun hd => hgood ⟨p, by rw [hs]; rfl, hd⟩

/-- One of the bad kind leaves a watched descriptor without a node of status 1, or meets a null
    node. -/
theorem bad (h : Inv s) {o : Op η γ} {s' : Sys η γ} (he : Enabled s o) (hbad : Bad s o)
    (hstep : Fdevent.step s o = .ok s') : ¬ Live s' := by
  intro hlive
  cases o with
  | register fd handler ctx =>
    rw [Fdevent.step, fdeventRegister_eq he, ok_bind] at hstep
    obtain rfl := Outcome.ok.inj hstep
    have hnode := (hlive.watched fd).mp (by
      dsimp only
      rw [put_interest_self]
      exact hbad)
    rw [put_fdarray_self] at hnode
    exact not_status_one rfl hnode
  | unregister fd =>
    rw [Fdevent.step, fdeventUnregister_eq he.1, ok_bind] at hstep
    obtain rfl := Outcome.ok.inj hstep
    obtain ⟨n, hn, -⟩ := (hlive.watched fd).mp (by
      dsimp only
      rw [put_interest_self]
      exact hbad)
    rw [put_fdarray_self] at hn
    cases hn
  | eventAdd fd events => exact hbad
  | eventDel fd => exact hbad
  | wait reported => exact hbad
  | handle =>
    obtain ⟨p, hp, hd⟩ := hbad
    obtain ⟨rest, hs⟩ := List.head?_eq_some_iff.mp hp
    have hlt := (h.reported p (hs ▸ List.mem_cons_self)).1
    rw [Fdevent.step, hs] at hstep
    dsimp only at hstep
    rw [fdeventHandle, Fdevents.deref, Fdevents.node, if_pos hlt, ok_bind, h.dropped p.1 hd] at hstep
    cases hstep

end Inv

end

/-- Exactly the watched descriptors have a node of status 1, no addition fails and no event finds a
    null node, exactly when no watched descriptor is registered again or unregistered and no event
    is handled of a descriptor that was unregistered since. There is memory for the tables and for
    every node: `fdevent_init` and `fdnode_init` do not look at what `spd_calloc` returns. -/
theorem watched_live_iff (maxfds : Nat) (os : List (Op η γ))
    (hos : Run.Legal step Enabled (.init maxfds) os) :
    Run.Always step Live (.init maxfds) os ↔
      Run.Legal step (fun s o => ¬ Bad s o) (.init maxfds) os :=
  Run.always_iff_inv (fun _ h => h.live) (fun _ _ h he hgood => h.step he hgood)
    (fun _ _ _ h he hbad hstep => h.bad he hbad hstep) os (inv_init maxfds) hos

instance (s : Sys η γ) (o : Op η γ) : Decidable (Enabled s o) :=
  match o with
  | .register _ _ _ => inferInstanceAs (Decidable (_ < _))
  | .unregister _ | .eventAdd _ _ | .eventDel _ => inferInstanceAs (Decidable (_ ∧ _ = true))
  | .wait reported =>
    have : Decidable (s.pending = []) := decidable_of_iff _ List.isEmpty_iff
    inferInstanceAs (Decidable (_ ∧ ∀ p ∈ reported, (s.ev.interest p.1).isSome = true))
  | .handle =>
    have : Decidable (s.pending = []) := decidable_of_iff _ List.isEmpty_iff
    inferInstanceAs (Decidable (¬ _))

instance (s : Sys η γ) : (o : Op η γ) → Decidable (Bad s o)
  | .register _ _ _ | .unregister _ => inferInstanceAs (Decidable (_ = true))
  | .handle => inferInstanceAs (Decidable (∃ p ∈ s.pending.head?, p.1 ∈ s.dropped))
  | .eventAdd _ _ | .eventDel _ | .wait _ => isFalse id

/-- Two descriptors are watched and have events; while the event of the first is handled, it is not
    watched any more and given up, and then it is watched anew. -/
def watchTwo : List (Op Unit Unit) :=
  [.register 3 () none, .register 4 () none, .eventAdd 3 FDEVENT_IN, .eventAdd 4 FDEVENT_IN,
    .wait [(3, EPOLLIN), (4, EPOLLIN)], .handle, .eventDel 3, .unregister 3, .handle,
    .register 3 () none, .eventAdd 3 FDEVENT_OUT, .eventAdd 4 FDEVENT_OUT, .wait [(3, EPOLLOUT)],
    .handle]

theorem watched_live_iff_two : Run.Always step Live (.init 8) watchTwo ∧
    ∃ s, Run.run step (.init 8) watchTwo = .ok s ∧ (s.ev.interest 3).isSome ∧
      (s.ev.interest 4).isSome :=
  ⟨(watched_live_iff 8 watchTwo (by decide +kernel)).mpr (by decide +kernel),
    exists_of_run (by decide +kernel)⟩

/-- A descriptor is given up while it is watched, and registered anew. -/
def unregisterWatched : List (Op Unit Unit) :=
  [.register 3 () none, .eventAdd 3 FDEVENT_IN, .unregister 3, .register 3 () none]

/-- After that it has a node of status -1, and the addition of events fails. -/
theorem watched_unlive :
    Run.Legal step Enabled (.init 8) unregisterWatched ∧
    (∃ s, Run.run step (.init 8) unregisterWatched = .ok s ∧ (s.ev.interest 3).isSome ∧
      (s.ev.fdarray 3).map Fdnode.status = some (-1) ∧
      (fdeventEventAdd s.ev 3 FDEVENT_IN >>= fun r => ok r.1) = .ok (-1)) ∧
    ¬ ∀ os : List (Op Unit Unit), Run.Legal step Enabled (.init 8) os →
      Run.Always step Live (.init 8) os := by
  have hlegal : Run.Legal step Enabled (.init 8) unregisterWatched := by decide +kernel
  have hrun : ∃ s, Run.run step (.init 8) unregisterWatched = .ok s ∧ (s.ev.interest 3).isSome ∧
      (s.ev.fdarray 3).map Fdnode.status = some (-1) ∧
      (fdeventEventAdd s.ev 3 FDEVENT_IN >>= fun r => ok r.1) = .ok (-1) :=
    exists_of_run (by decide +kernel)
  refine ⟨hlegal, hrun, ?_⟩
  intro h
  obtain ⟨s, hrun, hwatched, hstatus, -⟩ := hrun
  obtain ⟨fdn, hfdn, hs⟩ := ((Run.always_end (h _ hlegal) hrun).watched 3).mp hwatched
  rw [hfdn, Option.map_some, hs] at hstatus
  exact absurd hstatus (by decide)

end Spider.Fdevent
