import Spider.Lib.CString
import Spider.Lib.Run

/-!
# Commands and the entries they run

`spd_cli_command_full` looks an entry up and counts itself in `inuse` under the
read lock of `spd_cli_entrys`, runs the handler of the entry without any lock,
and counts itself out. `__spd_cli_unregister` tests `inuse` without any lock,
takes the entry out under the write lock, and clears it. A step of the system
below is one critical section, one atomic access, or one statement between them;
the calls of all threads take their steps in any order. `find_cli` walks the list
with `cli_next`, which has no return statement and is read as returning the
successor.
-/

namespace Spider.Cli.InUse

open Lib Outcome CString

/-- The address of an entry. Entries are objects of the modules that register them. -/
abbrev Addr := Nat

/-- `struct spd_cli_entry` (`cli.h:82-95`), what the two functions use of it. -/
structure Entry where
  cmda : List CString
  usage : Option CString
  inuse : UInt32
  fullCmd : Option CString
  command : Option CString
  handler : Bool
  deriving DecidableEq, Repr

/-- `spd_atomic_fetchadd_int(&e->inuse, v)`. -/
def Entry.fetchadd (v : UInt32) (r : Entry) : Entry := { r with inuse := r.inuse + v }

/-- Where a call of `spd_cli_command_full` is. -/
inductive CommandPlace where
  /-- Past the lookup, before the handler. -/
  | handle (e : Addr)
  /-- Past the handler, before the decrement. -/
  | leave (e : Addr)
  | done
  deriving DecidableEq, Repr

/-- The call is between its increment and its decrement on `e`. -/
def CommandPlace.uses : CommandPlace → Addr → Bool
  | .handle e', e => e' == e
  | .leave e', e => e' == e
  | .done, _ => false

/-- The next statement of a call of `__spd_cli_unregister` past its test. -/
inductive UnregisterPlace where
  | remove (e : Addr)
  | freeFullCmd (e : Addr)
  | zeroCmda (e : Addr)
  | freeCommand (e : Addr)
  | clearUsage (e : Addr)
  | done
  deriving DecidableEq, Repr

/-- The entries, the list `spd_cli_entrys`, and the calls begun so far. -/
structure St where
  entry : Addr → Entry
  entrys : List Addr
  commands : List CommandPlace
  unregisters : List UnregisterPlace

/-- Changing one entry. -/
def St.update (s : St) (a : Addr) (f : Entry → Entry) : St :=
  { s with entry := fun b => if b = a then f (s.entry b) else s.entry b }

/-- How many of the calls are between their increment and their decrement on `e`. -/
def uses (commands : List CommandPlace) (e : Addr) : Nat := commands.countP (·.uses e)

def St.running (s : St) (e : Addr) : Nat := uses s.commands e

/-- A step of one of the calls. -/
inductive Op where
  /-- A new call of `spd_cli_command_full` looks its words up; `find_cli` gives `found`. -/
  | lookup (found : Option Addr)
  /-- Call `c` runs the handler, or counts itself out after it. -/
  | command (c : Nat)
  /-- A new call of `__spd_cli_unregister` tests `e->inuse`. -/
  | test (e : Addr)
  /-- Call `u` performs its next statement. -/
  | unregister (u : Nat)
  deriving DecidableEq, Repr

/-- `cli.c:620-627`. -/
def lookup (s : St) (found : Option Addr) : St :=
  match found with
  | some e =>
    { s.update e (Entry.fetchadd 1) with commands := s.commands ++ [.handle e] }
  | none => { s with commands := s.commands ++ [.done] }

/-- `e->handler(e, CLI_HANDLER, &a)` (`cli.c:644`), and the decrement (`cli.c:652`). -/
def command (s : St) (c : Nat) : Outcome St :=
  match s.commands[c]? with
  | some (.handle e) =>
    if (s.entry e).handler then .ok { s with commands := s.commands.set c (.leave e) }
    else .fault
  | some (.leave e) =>
    .ok { s.update e (Entry.fetchadd (-1)) with commands := s.commands.set c .done }
  | _ => .ok s

/-- `if(e->inuse) return -1;` (`cli.c:260-263`). -/
def test (s : St) (e : Addr) : St :=
  if (s.entry e).inuse ≠ 0 then { s with unregisters := s.unregisters ++ [.done] }
  else { s with unregisters := s.unregisters ++ [.remove e] }

/-- The statements of `__spd_cli_unregister` past the test (`cli.c:265-278`). -/
def unregister (s : St) (u : Nat) : St :=
  let goto (s : St) (p : UnregisterPlace) : St := { s with unregisters := s.unregisters.set u p }
  match s.unregisters[u]? with
  | some (.remove e) => goto { s with entrys := s.entrys.erase e } (.freeFullCmd e)
  | some (.freeFullCmd e) =>
    goto (s.update e fun r => { r with fullCmd := none })
      (if (s.entry e).handler then .zeroCmda e else .done)
  | some (.zeroCmda e) => goto (s.update e fun r => { r with cmda := [] }) (.freeCommand e)
  | some (.freeCommand e) =>
    goto (s.update e fun r => { r with command := none }) (.clearUsage e)
  | some (.clearUsage e) => goto (s.update e fun r => { r with usage := none }) .done
  | _ => s

/-- One step. -/
def step (s : St) : Op → Outcome St
  | .lookup found => .ok (lookup s found)
  | .command c => command s c
  | .test e => .ok (test s e)
  | .unregister u => .ok (unregister s u)

/-- `find_cli` gives an entry of the list or null; the calls that go on have begun. -/
def Enabled (s : St) : Op → Prop
  | .lookup found => ∀ e, found = some e → e ∈ s.entrys
  | .command c => c < s.commands.length
  | .test _ => True
  | .unregister u => u < s.unregisters.length

/-- No call has begun. The entries of the list have been registered, which calls their
    handler (`cli.c:295`). -/
structure Start (s : St) : Prop where
  nodup : s.entrys.Nodup
  commands : s.commands = []
  unregisters : s.unregisters = []
  inuse : ∀ e, (s.entry e).inuse = 0
  handler : ∀ e ∈ s.entrys, (s.entry e).handler = true

/-- Between the two states no entry was removed or cleared that some command was running. -/
def Kept (s s' : St) : Prop :=
  ∀ c ∈ s.commands, ∀ e, c.uses e = true →
    (e ∈ s.entrys → e ∈ s'.entrys) ∧ (s'.entry e).command = (s.entry e).command ∧
      (s'.entry e).fullCmd = (s.entry e).fullCmd ∧ (s'.entry e).usage = (s.entry e).usage

/-- A lookup does not find an entry that an unregistration has tested and not yet removed, and
    a test is not made while a non-zero multiple of `2^32` commands run the entry, for which
    `inuse` reads zero. -/
def Quiet (s : St) : Op → Prop
  | .lookup found => ∀ e, found = some e → .remove e ∉ s.unregisters
  | .test e => ¬ (0 < s.running e ∧ s.running e % 2 ^ 32 = 0)
  | _ => True

instance (s : St) : (o : Op) → Decidable (Enabled s o)
  | .lookup found => inferInstanceAs (Decidable (∀ e ∈ found, e ∈ s.entrys))
  | .command c => inferInstanceAs (Decidable (c < s.commands.length))
  | .test _ => isTrue trivial
  | .unregister u => inferInstanceAs (Decidable (u < s.unregisters.length))

instance (s : St) : (o : Op) → Decidable (Quiet s o)
  | .lookup found => inferInstanceAs (Decidable (∀ e ∈ found, .remove e ∉ s.unregisters))
  | .test e => inferInstanceAs (Decidable (¬ (0 < s.running e ∧ s.running e % 2 ^ 32 = 0)))
  | .command _ | .unregister _ => isTrue trivial

/-! ## What the calls keep -/

/-- The entry a call past the removal is clearing. -/
def UnregisterPlace.clears : UnregisterPlace → Addr → Bool
  | .freeFullCmd e', e | .zeroCmda e', e | .freeCommand e', e | .clearUsage e', e => e' == e
  | _, _ => false

/-- `inuse` is the number of commands on the entry, read as a C `int`; an entry that a command
    runs is in the list; past the test no command runs the entry, and past the removal the list
    does not have it. -/
structure Inv (s : St) : Prop where
  nodup : s.entrys.Nodup
  inuse : ∀ e, (s.entry e).inuse = UInt32.ofNat (s.running e)
  handler : ∀ e ∈ s.entrys, (s.entry e).handler = true
  listed : ∀ e, 0 < s.running e → e ∈ s.entrys
  tested : ∀ e, .remove e ∈ s.unregisters → s.running e = 0
  gone : ∀ p ∈ s.unregisters, ∀ e, p.clears e = true → e ∉ s.entrys

theorem inv_start {s : St} (h : Start s) : Inv s where
  nodup := h.nodup
  inuse := by
    intro e
    rw [h.inuse e, St.running, h.commands]
    rfl
  handler := h.handler
  listed := by
    intro e he
    rw [St.running, h.commands] at he
    exact absurd he (Nat.lt_irrefl 0)
  tested := by
    intro e he
    rw [h.unregisters] at he
    exact absurd he List.not_mem_nil
  gone := by
    intro p hp
    rw [h.unregisters] at hp
    exact absurd hp List.not_mem_nil

section Places

variable {s : St} {e : Addr}

theorem uses_pos {cs : List CommandPlace} : 0 < uses cs e ↔ ∃ c ∈ cs, c.uses e = true :=
  List.countP_pos_iff

/-- A call that begins is counted on the entry it uses. -/
theorem uses_append (cs : List CommandPlace) (p : CommandPlace) :
    uses (cs ++ [p]) e = uses cs e + (p.uses e).toNat := by
  simp only [uses, List.countP_append, List.countP_singleton]
  cases p.uses e <;> rfl

/-- A call that goes from `p` to `p'` leaves the entry of `p` and enters that of `p'`. -/
theorem uses_set {cs : List CommandPlace} {c : Nat} {p : CommandPlace} (hc : cs[c]? = some p)
    (p' : CommandPlace) :
    uses (cs.set c p') e + (p.uses e).toNat = uses cs e + (p'.uses e).toNat := by
  obtain ⟨hlt, rfl⟩ := List.getElem?_eq_some_iff.mp hc
  have hpos : cs[c].uses e = true → 0 < cs.countP (·.uses e) := by
    intro h
    exact List.countP_pos_iff.mpr ⟨_, List.getElem_mem hlt, h⟩
  simp only [uses, List.countP_set hlt]
  cases h : cs[c].uses e with
  | false => cases p'.uses e <;> rfl
  | true =>
    have hpos := hpos h
    cases p'.uses e
    · show _ - 1 + 0 + 1 = _ + 0
      omega
    · show _ - 1 + 1 + 1 = _ + 1
      omega

theorem CommandPlace.uses_handle (e a : Addr) :
    ((CommandPlace.handle e).uses a).toNat = if a = e then 1 else 0 := by
  by_cases h : a = e <;> simp [CommandPlace.uses, h, Ne.symm]

theorem CommandPlace.uses_leave (e a : Addr) :
    ((CommandPlace.leave e).uses a).toNat = if a = e then 1 else 0 :=
  CommandPlace.uses_handle e a

theorem update_entry (f : Entry → Entry) (a : Addr) :
    (s.update e f).entry a = if a = e then f (s.entry a) else s.entry a := rfl

theorem update_handler (v : UInt32) (a : Addr) :
    ((s.update e (Entry.fetchadd v)).entry a).handler = (s.entry a).handler := by
  rw [update_entry]
  split <;> rfl

theorem update_inuse (v : UInt32) (a : Addr) : ((s.update e (Entry.fetchadd v)).entry a).inuse =
    (s.entry a).inuse + if a = e then v else 0 := by
  rw [update_entry]
  split
  · rfl
  · rw [UInt32.add_zero]

end Places

/-! ## One lemma for each step -/

section Steps

variable {s : St}

/-- A call of `spd_cli_command_full` takes a step: the entries and the calls become `entry` and
    `cs`. -/
theorem inv_commands {entry : Addr → Entry} {cs : List CommandPlace} (h : Inv s)
    (hinuse : ∀ e, (entry e).inuse = UInt32.ofNat (uses cs e))
    (hhandler : ∀ e, (entry e).handler = (s.entry e).handler)
    (hlisted : ∀ e, s.running e < uses cs e →
      e ∈ s.entrys ∧ .remove e ∉ s.unregisters) :
    Inv { s with entry := entry, commands := cs } where
  nodup := h.nodup
  inuse := hinuse
  handler := by
    intro e he
    exact (hhandler e).trans (h.handler e he)
  listed := by
    intro e he
    by_cases hlt : s.running e < uses cs e
    · exact (hlisted e hlt).1
    · exact h.listed e (Nat.lt_of_lt_of_le he (Nat.not_lt.mp hlt))
  tested := by
    intro e he
    have hle : uses cs e ≤ s.running e := by
      apply Nat.not_lt.mp
      intro hlt
      exact (hlisted e hlt).2 he
    exact Nat.le_zero.mp (h.tested e he ▸ hle)
  gone := h.gone

theorem inv_lookup {found : Option Addr} (h : Inv s) (he : Enabled s (.lookup found))
    (hq : Quiet s (.lookup found)) : Inv (lookup s found) := by
  cases found with
  | none =>
    have hrun : ∀ a, uses (s.commands ++ [.done]) a = s.running a := by
      intro a
      exact uses_append s.commands .done
    apply inv_commands h
    · intro a
      rw [hrun a]
      exact h.inuse a
    · exact fun _ => rfl
    · intro a ha
      rw [hrun a] at ha
      exact absurd ha (Nat.lt_irrefl _)
  | some e =>
    have hrun : ∀ a, uses (s.commands ++ [.handle e]) a =
        s.running a + if a = e then 1 else 0 := by
      intro a
      rw [uses_append, CommandPlace.uses_handle]
      rfl
    apply inv_commands h
    · intro a
      rw [update_inuse, h.inuse a, hrun a]
      split
      · exact (UInt32.ofNat_add _ _).symm
      · exact UInt32.add_zero _
    · exact update_handler 1
    · intro a ha
      have hae : a = e := by
        by_contra hne
        rw [hrun a, if_neg hne] at ha
        exact Nat.lt_irrefl _ ha
      subst hae
      exact ⟨he a rfl, hq a rfl⟩

/-- The handler is there, and a command changes nothing of an entry but its count. -/
theorem inv_command {c : Nat} (h : Inv s) : ∃ s', command s c = .ok s' ∧ Inv s' ∧
    s'.entrys = s.entrys ∧ ∀ a, ∃ n, s'.entry a = { s.entry a with inuse := n } := by
  unfold command
  split
  next e hc =>
    have hrun : 0 < s.running e :=
      uses_pos.mpr ⟨_, List.mem_of_getElem? hc, beq_self_eq_true e⟩
    have hset : ∀ a, uses (s.commands.set c (.leave e)) a = s.running a := by
      intro a
      exact Nat.add_right_cancel (uses_set hc (.leave e))
    rw [if_pos (h.handler e (h.listed e hrun))]
    refine ⟨_, rfl, ?_, rfl, fun a => ⟨_, rfl⟩⟩
    apply inv_commands h
    · intro a
      rw [hset a]
      exact h.inuse a
    · exact fun _ => rfl
    · intro a ha
      rw [hset a] at ha
      exact absurd ha (Nat.lt_irrefl _)
  next e hc =>
    have hset : ∀ a, uses (s.commands.set c .done) a + (if a = e then 1 else 0) =
        s.running a := by
      intro a
      rw [← CommandPlace.uses_leave]
      exact uses_set hc .done
    refine ⟨_, rfl, ?_, rfl, ?_⟩
    · apply inv_commands h
      · intro a
        rw [update_inuse, h.inuse a, ← hset a, UInt32.ofNat_add, UInt32.add_assoc]
        split
        · exact UInt32.add_zero _
        · exact UInt32.add_zero _
      · exact update_handler (-1)
      · intro a ha
        rw [← hset a] at ha
        exact absurd ha (Nat.not_lt.mpr (Nat.le_add_right _ _))
    · intro a
      show ∃ n, (s.update e _).entry a = _
      rw [update_entry]
      split
      · exact ⟨_, rfl⟩
      · exact ⟨_, rfl⟩
  next => exact ⟨s, rfl, h, rfl, fun a => ⟨_, rfl⟩⟩

theorem ofNat_eq_zero {n : Nat} (h : UInt32.ofNat n = 0) : n % 2 ^ 32 = 0 := by
  rw [UInt32.ofNat_eq_iff_mod_eq_toNat] at h
  exact h

/-- A test that reads zero in a quiet run is one of an entry that no command runs. -/
theorem running_eq_zero {e : Addr} (h : Inv s) (hq : Quiet s (.test e))
    (hzero : (s.entry e).inuse = 0) : s.running e = 0 := by
  rw [h.inuse e] at hzero
  by_contra hne
  exact hq ⟨Nat.pos_of_ne_zero hne, ofNat_eq_zero hzero⟩

theorem inv_test {e : Addr} (h : Inv s) (hq : Quiet s (.test e)) : Inv (test s e) := by
  unfold test
  split
  next =>
    refine ⟨h.nodup, h.inuse, h.handler, h.listed, ?_, ?_⟩
    · intro a ha
      rcases List.mem_append.mp ha with ha | ha
      · exact h.tested a ha
      · exact absurd (List.mem_singleton.mp ha) nofun
    · intro p hp a ha
      rcases List.mem_append.mp hp with hp | hp
      · exact h.gone p hp a ha
      · rw [List.mem_singleton.mp hp] at ha
        exact absurd ha nofun
  next hzero =>
    refine ⟨h.nodup, h.inuse, h.handler, h.listed, ?_, ?_⟩
    · intro a ha
      rcases List.mem_append.mp ha with ha | ha
      · exact h.tested a ha
      · obtain rfl := UnregisterPlace.remove.inj (List.mem_singleton.mp ha)
        have hrun : s.running a = 0 := running_eq_zero h hq (Decidable.not_not.mp hzero)
        exact hrun
    · intro p hp a ha
      rcases List.mem_append.mp hp with hp | hp
      · exact h.gone p hp a ha
      · rw [List.mem_singleton.mp hp] at ha
        exact absurd ha nofun

/-- A call of `__spd_cli_unregister` goes on to `p`. It has taken the entry that it is
    clearing out of the list, and clears no count and no handler. -/
theorem inv_unregisters {entry : Addr → Entry} {entrys : List Addr} {u : Nat}
    {p : UnregisterPlace} (h : Inv s) (hsub : entrys.Sublist s.entrys)
    (hentry : ∀ e, (entry e).inuse = (s.entry e).inuse ∧ (entry e).handler = (s.entry e).handler)
    (hlisted : ∀ e, 0 < s.running e → e ∈ entrys) (hremove : ∀ e, p ≠ .remove e)
    (hgone : ∀ e, p.clears e = true → e ∉ entrys) :
    Inv { s with entry := entry, entrys := entrys, unregisters := s.unregisters.set u p } where
  nodup := h.nodup.sublist hsub
  inuse := by
    intro e
    exact (hentry e).1.trans (h.inuse e)
  handler := by
    intro e he
    exact (hentry e).2.trans (h.handler e (hsub.subset he))
  listed := hlisted
  tested := by
    intro e he
    rcases List.mem_or_eq_of_mem_set he with he | he
    · exact h.tested e he
    · exact absurd he.symm (hremove e)
  gone := by
    intro p' hp' e he hmem
    rcases List.mem_or_eq_of_mem_set hp' with hp' | rfl
    · exact h.gone p' hp' e he (hsub.subset hmem)
    · exact hgone e he hmem

/-- Clearing a field of an entry that is out of the list. -/
theorem inv_clear {u : Nat} {e : Addr} {f : Entry → Entry} {p : UnregisterPlace} (h : Inv s)
    (hf : ∀ r : Entry, (f r).inuse = r.inuse ∧ (f r).handler = r.handler) (he : e ∉ s.entrys)
    (hp : ∀ a, p ≠ .remove a) (hpe : ∀ a, p.clears a = true → a = e) :
    Inv { s.update e f with unregisters := s.unregisters.set u p } ∧
      Kept s { s.update e f with unregisters := s.unregisters.set u p } := by
  constructor
  · apply inv_unregisters h (List.Sublist.refl _)
    · intro a
      rw [update_entry]
      split
      · exact hf _
      · exact ⟨rfl, rfl⟩
    · exact h.listed
    · exact hp
    · intro a ha
      exact hpe a ha ▸ he
  · intro c hc a hca
    have hne : a ≠ e := by
      rintro rfl
      exact he (h.listed a (uses_pos.mpr ⟨c, hc, hca⟩))
    show (_ → _) ∧ ((s.update e f).entry a).command = _ ∧ ((s.update e f).entry a).fullCmd = _ ∧
      ((s.update e f).entry a).usage = _
    rw [update_entry, if_neg hne]
    exact ⟨id, rfl, rfl, rfl⟩

theorem inv_unregister {u : Nat} (h : Inv s) : Inv (unregister s u) ∧ Kept s (unregister s u) := by
  have hclears : ∀ {a e : Addr}, (e == a) = true → a = e := fun h => (beq_iff_eq.mp h).symm
  unfold unregister
  dsimp only
  split
  next e hu =>
    have hzero := h.tested e (List.mem_of_getElem? hu)
    have hkeep : ∀ a, 0 < s.running a → a ∈ s.entrys.erase e := by
      intro a ha
      have hne : a ≠ e := by
        rintro rfl
        exact absurd ha (hzero ▸ Nat.lt_irrefl 0)
      exact (List.mem_erase_of_ne hne).mpr (h.listed a ha)
    constructor
    · apply inv_unregisters h List.erase_sublist
      · exact fun a => ⟨rfl, rfl⟩
      · exact hkeep
      · exact fun a => nofun
      · intro a ha
        rw [hclears ha]
        exact h.nodup.not_mem_erase
    · intro c hc a hca
      exact ⟨fun _ => hkeep a (uses_pos.mpr ⟨c, hc, hca⟩), rfl, rfl, rfl⟩
  next e hu =>
    have he := h.gone _ (List.mem_of_getElem? hu) e (beq_self_eq_true e)
    apply inv_clear (f := fun r => { r with fullCmd := none }) h (fun r => ⟨rfl, rfl⟩) he
    · intro a
      split <;> exact nofun
    · intro a ha
      split at ha
      · exact hclears ha
      · exact absurd ha nofun
  next e hu =>
    have he := h.gone _ (List.mem_of_getElem? hu) e (beq_self_eq_true e)
    exact inv_clear (f := fun r => { r with cmda := [] }) h (fun r => ⟨rfl, rfl⟩) he
      (fun a => nofun) (fun a => hclears)
  next e hu =>
    have he := h.gone _ (List.mem_of_getElem? hu) e (beq_self_eq_true e)
    exact inv_clear (f := fun r => { r with command := none }) h (fun r => ⟨rfl, rfl⟩) he
      (fun a => nofun) (fun a => hclears)
  next e hu =>
    have he := h.gone _ (List.mem_of_getElem? hu) e (beq_self_eq_true e)
    exact inv_clear (f := fun r => { r with usage := none }) h (fun r => ⟨rfl, rfl⟩) he
      (fun a => nofun) (fun a => nofun)
  next =>
    constructor
    · exact h
    · exact fun c _ a _ => ⟨id, rfl, rfl, rfl⟩

/-- A quiet step returns, keeps the invariant, and leaves the entries in use alone. -/
theorem step_quiet (s : St) (o : Op) (h : Inv s) (he : Enabled s o) (hq : Quiet s o) :
    ∃ s', step s o = .ok s' ∧ Kept s s' ∧ Inv s' := by
  cases o with
  | lookup found =>
    refine ⟨_, rfl, ?_, inv_lookup h he hq⟩
    intro c _ a _
    cases found with
    | none => exact ⟨id, rfl, rfl, rfl⟩
    | some e =>
      show (_ → _) ∧ ((s.update e _).entry a).command = _ ∧
        ((s.update e _).entry a).fullCmd = _ ∧ ((s.update e _).entry a).usage = _
      rw [update_entry]
      split
      · exact ⟨id, rfl, rfl, rfl⟩
      · exact ⟨id, rfl, rfl, rfl⟩
  | command c =>
    obtain ⟨s', hs', hinv, hentrys, hentry⟩ := inv_command (c := c) h
    refine ⟨s', hs', ?_, hinv⟩
    intro c _ a _
    obtain ⟨n, hn⟩ := hentry a
    rw [hentrys, hn]
    exact ⟨id, rfl, rfl, rfl⟩
  | test e =>
    refine ⟨_, rfl, ?_, inv_test h hq⟩
    intro c _ a _
    show (a ∈ s.entrys → a ∈ (test s e).entrys) ∧ _
    unfold test
    split
    · exact ⟨id, rfl, rfl, rfl⟩
    · exact ⟨id, rfl, rfl, rfl⟩
  | unregister u => exact ⟨_, rfl, (inv_unregister h).2, (inv_unregister h).1⟩

/-- Past its test, a call removes the entry whoever runs it. -/
theorem not_kept_remove {u : Nat} {e : Addr} (hnodup : s.entrys.Nodup)
    (hu : s.unregisters[u]? = some (.remove e)) (hrun : 0 < s.running e) (he : e ∈ s.entrys) :
    ¬ Kept s (unregister s u) := by
  intro hkept
  obtain ⟨c, hc, hce⟩ := uses_pos.mp hrun
  have hmem := (hkept c hc e hce).1 he
  have hentrys : (unregister s u).entrys = s.entrys.erase e := by
    unfold unregister
    rw [hu]
  rw [hentrys] at hmem
  exact hnodup.not_mem_erase hmem

/-- A step that is not quiet lets the next one remove an entry in use. -/
theorem not_kept_of_not_quiet {o : Op} (h : Inv s) (he : Enabled s o) (hq : ¬ Quiet s o) :
    ∃ o' s1 s2, step s o = .ok s1 ∧ Enabled s1 o' ∧ step s1 o' = .ok s2 ∧ ¬ Kept s1 s2 := by
  cases o with
  | lookup found =>
    simp only [Quiet, not_forall, not_not] at hq
    obtain ⟨e, rfl, hu⟩ := hq
    obtain ⟨u, hlt, hu⟩ := List.mem_iff_getElem.mp hu
    have hmem : e ∈ s.entrys := he e rfl
    have hrun : 0 < (lookup s (some e)).running e := by
      apply uses_pos.mpr
      exact ⟨.handle e, List.mem_append_right _ (List.mem_singleton_self _), beq_self_eq_true e⟩
    refine ⟨.unregister u, lookup s (some e), _, rfl, hlt, rfl, ?_⟩
    exact not_kept_remove h.nodup (List.getElem?_eq_some_iff.mpr ⟨hlt, hu⟩) hrun hmem
  | command c => exact absurd trivial hq
  | test e =>
    obtain ⟨hrun, hmod⟩ := Decidable.not_not.mp hq
    have hzero : (s.entry e).inuse = 0 := by
      rw [h.inuse e, UInt32.ofNat_eq_iff_mod_eq_toNat]
      exact hmod
    have htest : test s e = { s with unregisters := s.unregisters ++ [.remove e] } :=
      if_neg (not_not.mpr hzero)
    refine ⟨.unregister s.unregisters.length, test s e, _, rfl, ?_, rfl, ?_⟩
    · rw [htest]
      show s.unregisters.length < (s.unregisters ++ [UnregisterPlace.remove e]).length
      rw [List.length_append]
      exact Nat.lt_add_one _
    · rw [htest]
      exact not_kept_remove h.nodup List.getElem?_concat_length hrun (h.listed e hrun)
  | unregister u => exact absurd trivial hq

end Steps

/-! ## All runs -/

/-- In every run in which no lookup finds an entry between the test and the removal of an
    unregistration, and no test meets a count that has wrapped around to zero, no entry is
    removed or cleared while a command runs it. The condition is sharp: after any such run a
    step that breaks it can be followed at once by the removal of an entry in use. -/
theorem entries_kept {s : St} (h : Start s) {os : List Op} (hl : Run.Legal step Enabled s os)
    (hq : Run.Legal step Quiet s os) :
    Run.Between step Kept s os ∧
      ∀ s', Run.run step s os = .ok s' → ∀ o, Enabled s' o → ¬ Quiet s' o →
        ∃ o' s1 s2, step s' o = .ok s1 ∧ Enabled s1 o' ∧ step s1 o' = .ok s2 ∧ ¬ Kept s1 s2 := by
  have hrun := Run.between_of_legal step_quiet os (inv_start h) hl hq
  constructor
  · exact hrun.1
  · intro s' hs' o ho hno
    exact not_kept_of_not_quiet (hrun.2 s' hs') ho hno

/-- One registered entry, and no call. -/
def oneEntry : St where
  entry _ := ⟨[lit "help"], some (lit "usage"), 0, some (lit "help"), some (lit "help"), true⟩
  entrys := [1]
  commands := []
  unregisters := []

theorem start_oneEntry : Start oneEntry where
  nodup := by decide
  commands := rfl
  unregisters := rfl
  inuse _ := rfl
  handler _ _ := rfl

/-- A lookup between the test and the removal. -/
def race : List Op := [.test 1, .lookup (some 1), .unregister 0]

theorem entries_lost : Start oneEntry ∧ Run.Legal step Enabled oneEntry race ∧
    ¬ Run.Between step Kept oneEntry race := by
  refine ⟨start_oneEntry, ?_, ?_⟩
  · apply Run.legal_cons_of_ok rfl trivial
    apply Run.legal_cons_of_ok rfl
    · intro e he
      exact Option.some.inj he ▸ List.mem_singleton_self 1
    · exact ⟨Nat.zero_lt_one, fun _ _ => trivial⟩
  · rintro ⟨s1, h1, -, s2, h2, -, s3, h3, hkept, -⟩
    obtain rfl := Outcome.ok.inj h1
    obtain rfl := Outcome.ok.inj h2
    obtain rfl := Outcome.ok.inj h3
    refine not_kept_remove ?_ (e := 1) rfl ?_ ?_ hkept
    · exact start_oneEntry.nodup
    · exact Nat.zero_lt_one
    · exact List.mem_singleton_self 1

/-- Two registered entries, and no call. -/
def twoEntries : St := { oneEntry with entrys := [1, 2] }

/-- Two commands run entry 1 one after the other, with no moment between them, and one runs
    entry 2. Entry 1 is unregistered while the first command runs, and again while the second
    one does, and once more after it. -/
def refused : List Op :=
  [.lookup (some 1), .lookup (some 2), .test 1, .unregister 0, .command 0, .lookup (some 1),
    .command 0, .test 1, .command 2, .command 1, .command 2, .test 1, .lookup none,
    .unregister 2, .unregister 2, .unregister 2, .unregister 2, .unregister 2, .command 1]

/-- The first two are refused, and the third takes the entry out. -/
theorem entries_kept_refused : Run.Between step Kept twoEntries refused ∧
    (∃ s, Run.run step twoEntries (refused.take 12) = .ok s ∧ s.entrys = [1, 2] ∧
      s.unregisters = [.done, .done, .remove 1]) ∧
    ∃ s, Run.run step twoEntries refused = .ok s ∧ s.entrys = [2] := by
  have hstart : Start twoEntries :=
    ⟨by decide, rfl, rfl, fun _ => rfl, fun _ _ => rfl⟩
  refine ⟨(entries_kept hstart (by decide +kernel) (by decide +kernel)).1, ?_, ?_⟩
  · exact exists_of_run (by decide +kernel)
  · exact exists_of_run (by decide +kernel)

end Spider.Cli.InUse
