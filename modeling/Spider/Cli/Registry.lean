import Spider.Lib.Locked
import Spider.Strings

/-!
# The registry of commands

`spd_cli_entrys` is a list of entries in order of their commands, and `find_cli`
looks a command up in it word by word. `cli_next` (`cli.c:49-56`) has no return
statement; it is read as returning the successor, which it computes.
-/

namespace Spider.Cli

open Lib Outcome CString Strings Locked Call

abbrev Addr := Nat

/-- `struct spd_cli_entry` (`cli.h:82-95`), what registering and looking up use of it; `_full_cmd`
    is null before it is set. -/
structure SpdCliEntry where
  cmda : List CString
  fullCmd : Option CString
  cmdlen : Nat
  args : Nat
  command : Option CString
  deriving DecidableEq, Repr

/-- The entries, and the list `spd_cli_entrys`. -/
structure Registry where
  entry : Addr → SpdCliEntry
  entrys : List Addr

def Registry.set (r : Registry) (a : Addr) (e : SpdCliEntry) : Registry :=
  { r with entry := Function.update r.entry a e }

/-- `cli_rsvd` (`cli.c:28`). -/
def cliRsvd : CString := lit "[]{}|*%"

/-- `strchr(cli_rsvd, c)`, which finds the null byte as well. -/
def reserved (c : UInt8) : Bool := c = 0 || c ∈ cliRsvd

/-- `cmd` occurs at position `pos`, in any case. -/
def occursAt (cmd cliWord : CString) (pos : Nat) : Bool :=
  (lower cmd).isPrefixOf (lower (cliWord.drop pos))

/-- `word_match` (`cli.c:106-139`); the loop goes over all places where `strcasestr` finds the
    command. -/
def wordMatch (cmd cliWord : CString) : Int :=
  match cmd, cliWord with
  | [], _ | _, [] => -1
  | cmd, c :: _ =>
    if !reserved c then if strcasecmp cmd cliWord = 0 then 1 else -1
    else if c = ch '%' then 1
    else if (List.range (cliWord.length + 1)).any fun pos => occursAt cmd cliWord pos &&
        (pos != 0 && reserved (cliWord.getD (pos - 1) 0) &&
          reserved (cliWord.getD (pos + cmd.length) 0)) then 1
    else -1

/-- The comparison word by word (`cli.c:206-210`): how many words match, and what is left. -/
def matchWords : List CString → List CString → Nat → Nat × List CString × List CString
  | c :: src, w :: dst, n =>
    if wordMatch c w < 0 then (n, c :: src, w :: dst) else matchWords src dst (n + 1)
  | src, dst, n => (n, src, dst)

/-- What `find_cli` makes of an entry. -/
inductive Verdict where
  | exact
  | candidate (matchlen : Nat)
  | skip
  deriving DecidableEq, Repr

/-- The body of the loop of `find_cli` (`cli.c:203-235`). -/
def verdict (cmds : List CString) (matchType : Int32) (e : SpdCliEntry) : Verdict :=
  let (n, src, dst) := matchWords cmds e.cmda 0
  if spdStrlenZero dst[0]? ∨ (dst[0]?.bind List.head? = some (ch '[') ∧ spdStrlenZero dst[1]?) then
    if spdStrlenZero src[0]? then .exact
    else if matchType ≠ 0 then .skip
    else .candidate n
  else
    if spdStrlenZero src[0]? then .skip
    else if matchType ≠ -1 ∨ ¬ spdStrlenZero src[1]? ∨ ¬ spdStrlenZero dst[1]? then .skip
    else .candidate n

/-- The loop of `find_cli`: `matchlen` is -1 before there is a candidate. -/
def findLoop (r : Registry) (cmds : List CString) (matchType : Int32) (matchlen : Int)
    (cand : Option Addr) : List Addr → Option Addr
  | [] => cand
  | e :: rest =>
    match verdict cmds matchType (r.entry e) with
    | .exact => some e
    | .skip => findLoop r cmds matchType matchlen cand rest
    | .candidate n =>
      if n > matchlen then findLoop r cmds matchType n (some e) rest
      else findLoop r cmds matchType matchlen cand rest

/-- `find_cli` (`cli.c:196-238`), for which `cli_next` returns the successor of an entry. -/
def findCli (r : Registry) (cmds : List CString) (matchType : Int32) : Option Addr :=
  findLoop r cmds matchType (-1) none r.entrys

/-- `spd_cli_set_full_cmd` (`cli.c:76-92`), with whether `spd_strdup` has memory; without it
    `_full_cmd` is null. -/
def spdCliSetFullCmd (e : SpdCliEntry) (strdup : Bool) : Outcome (Int32 × SpdCliEntry) := do
  let buf ← spdStrJoin 80 e.cmda
  if strdup then
    .ok (0, { e with
      fullCmd := some buf
      cmdlen := (buf.takeWhile (· ∉ cliRsvd)).length
      args := e.cmda.length })
  else .ok (-1, { e with fullCmd := none })

/-- The loop that cuts the command into words (`cli.c:299-306`); `n` more of them fit. -/
def commandWords : Nat → CString → List CString
  | 0, _ => []
  | n + 1, s =>
    if s.isEmpty then []
    else match spdSkipNonblanks s with
      | (word, []) => [word]
      | (word, _ :: s) => word :: commandWords n (spdSkipBlanks s)

/-- The comparison of two entries over the length of the shorter command (`cli.c:320-323`). -/
def compareFullCmd (x y : SpdCliEntry) : Outcome Int :=
  match x.fullCmd, y.fullCmd with
  | some s, some t => .ok (strncasecmp s t (min x.cmdlen y.cmdlen))
  | _, _ => .fault

/-- Both have a full command, and that of `x` is the smaller one. -/
def below (x y : SpdCliEntry) : Prop :=
  ∃ s ∈ x.fullCmd, ∃ t ∈ y.fullCmd, strncasecmp s t (min x.cmdlen y.cmdlen) < 0

instance : DecidableRel below := fun _ _ => inferInstanceAs (Decidable (∃ _ ∈ _, ∃ _ ∈ _, _ < _))

/-- The loop of `__spd_cli_register`, with the insertion at the tail when it ends
    (`cli.c:319-331`). -/
def insertEntry (r : Registry) (e : Addr) : List Addr → Outcome (List Addr)
  | [] => .ok [e]
  | cur :: rest => do
    if (← compareFullCmd (r.entry e) (r.entry cur)) < 0 then .ok (e :: cur :: rest)
    else
      let rest ← insertEntry r e rest
      .ok (cur :: rest)

/-- What happens around a registration: the command that the handler leaves in the entry, and
    whether there is memory for it and for the full command. -/
structure Registering where
  command : Option CString
  strdupCommand : Bool
  strdupFullCmd : Bool
  deriving DecidableEq, Repr

/-- The entry with a copy of the command, cut into its words. -/
def SpdCliEntry.withCommand (e : SpdCliEntry) (command : CString) (strdup : Bool) : SpdCliEntry :=
  let s := if strdup then some (spdSkipBlanks command) else none
  { e with command := s, cmda := commandWords 15 (s.getD []) }

/-- The part of `__spd_cli_register` before the lock is taken (`cli.c:294-308`). -/
def setCommand (r : Registry) (e : Addr) (command : CString) (strdup : Bool) : Registry :=
  r.set e ((r.entry e).withCommand command strdup)

/-- `__spd_cli_register` (`cli.c:281-340`). The list is looked at and changed under its write
    lock. -/
def spdCliRegister (r : Registry) (e : Addr) (g : Registering) : Call (Int32 × Registry) :=
  match g.command with
  | none => lift .fault
  | some command => do
    let r := setCommand r e command g.strdupCommand
    lock
    access
    if (findCli r (r.entry e).cmda 1).isSome then
      unlock
      pure (-1, r)
    else
      let (failed, entry) ← lift (spdCliSetFullCmd (r.entry e) g.strdupFullCmd)
      let r := r.set e entry
      if failed ≠ 0 then
        unlock
        pure (-1, r)
      else
        access
        let entrys ← lift (insertEntry r e r.entrys)
        -- returns without the unlock below the label `done`
        pure (0, { r with entrys := entrys })

/-- The command of the entry is registered already. -/
def Duplicate (r : Registry) (a : Addr) (g : Registering) : Prop :=
  ∃ command ∈ g.command, (findCli (setCommand r a command g.strdupCommand)
    ((setCommand r a command g.strdupCommand).entry a).cmda 1).isSome

/-- The registration comes to an entry of the list that has lost its full command, and would put
    its own behind all entries in front of that one. -/
def Unnamed (r : Registry) (a : Addr) (g : Registering) : Prop :=
  ∃ command ∈ g.command, ∃ e, let r := setCommand r a command g.strdupCommand
    spdCliSetFullCmd (r.entry a) true = .ok (0, e) ∧ ∃ pre cur rest, r.entrys = pre ++ cur :: rest ∧
      ((r.set a e).entry cur).fullCmd = none ∧
      ∀ b ∈ pre, ¬ below e ((r.set a e).entry b)

section

variable {d e : Nat} {r : Registry} {a : Addr} {g : Registering}

theorem spdStrJoin_returns (w : List CString) {len : Nat} (h : 0 < len) :
    ∃ s, spdStrJoin len w = .ok s := by
  unfold spdStrJoin
  dsimp only
  split
  · rw [if_neg (Nat.ne_of_gt h)]
    exact ⟨_, rfl⟩
  · exact ⟨_, rfl⟩

theorem compareFullCmd_of_some {x y : SpdCliEntry} {s t : CString} (hx : x.fullCmd = some s)
    (hy : y.fullCmd = some t) : ∃ n, compareFullCmd x y = .ok n ∧ (below x y ↔ n < 0) := by
  refine ⟨strncasecmp s t (min x.cmdlen y.cmdlen), by rw [compareFullCmd, hx, hy], ?_⟩
  simp [below, hx, hy]

theorem compareFullCmd_of_none {x y : SpdCliEntry} (hy : y.fullCmd = none) :
    compareFullCmd x y = .fault := by
  rw [compareFullCmd, hy]
  cases x.fullCmd <;> rfl

/-- The loop finds a place exactly when it comes to no entry without full command before it. -/
theorem insertEntry_returns {s : CString} (he : (r.entry a).fullCmd = some s) (l : List Addr) :
    (∃ l', insertEntry r a l = .ok l') ↔ ¬ ∃ pre cur rest, l = pre ++ cur :: rest ∧
      (r.entry cur).fullCmd = none ∧ ∀ b ∈ pre, ¬ below (r.entry a) (r.entry b) := by
  induction l with
  | nil => simp [insertEntry]
  | cons cur rest ih =>
    cases hcur : (r.entry cur).fullCmd with
    | none =>
      rw [insertEntry, compareFullCmd_of_none hcur]
      refine iff_of_false (fun h => by cases h.choose_spec) (not_not.mpr ?_)
      exact ⟨[], cur, rest, rfl, hcur, by simp⟩
    | some t =>
      obtain ⟨n, hn, hbelow⟩ := compareFullCmd_of_some he hcur
      rw [insertEntry, hn, ok_bind]
      by_cases hlt : n < 0
      · rw [if_pos hlt]
        refine iff_of_true ⟨_, rfl⟩ ?_
        rintro ⟨pre, c, post, heq, hnone, hpre⟩
        cases pre with
        | nil =>
          obtain rfl := (List.cons.inj heq).1
          rw [hcur] at hnone
          cases hnone
        | cons b pre =>
          obtain rfl := (List.cons.inj heq).1
          exact hpre cur List.mem_cons_self (hbelow.mpr hlt)
      · rw [if_neg hlt]
        have hrest : (∃ l', (insertEntry r a rest >>= fun l => ok (cur :: l)) = .ok l') ↔
            ∃ l', insertEntry r a rest = .ok l' := by
          cases insertEntry r a rest <;> simp
        rw [hrest, ih, not_iff_not]
        constructor
        · rintro ⟨pre, c, post, rfl, hnone, hpre⟩
          refine ⟨cur :: pre, c, post, rfl, hnone, ?_⟩
          intro b hb
          rcases List.mem_cons.mp hb with rfl | hb
          · exact mt hbelow.mp hlt
          · exact hpre b hb
        · rintro ⟨pre, c, post, heq, hnone, hpre⟩
          cases pre with
          | nil =>
            obtain rfl := (List.cons.inj heq).1
            rw [hcur] at hnone
            cases hnone
          | cons b pre =>
            exact ⟨pre, c, post, (List.cons.inj heq).2, hnone,
              fun b hb => hpre b (List.mem_cons_of_mem _ hb)⟩

/-- A registration gives the lock back only if it fails; it does not return at all when it compares
    an entry that has lost its full command. -/
theorem keeps_spdCliRegister : Keeps d (spdCliRegister r a g) ↔
    g.command = none ∨ Duplicate r a g ∨ g.strdupFullCmd = false ∨ Unnamed r a g := by
  unfold Keeps spdCliRegister Duplicate Unnamed
  cases hcommand : g.command with
  | none => simp [ends_lift]
  | some command =>
    simp only [ends_lock_bind, ends_access_bind, Nat.succ_pos, true_and, reduceCtorEq, false_or,
      Option.mem_def, Option.some.injEq, exists_eq_left']
    generalize setCommand r a command g.strdupCommand = r'
    by_cases hfound : (findCli r' (r'.entry a).cmda 1).isSome
    · simp [hfound]
    · obtain ⟨buf, hbuf⟩ := spdStrJoin_returns (r'.entry a).cmda (Nat.succ_pos 79)
      rw [if_neg hfound]
      cases g.strdupFullCmd with
      | false => simp [spdCliSetFullCmd, hbuf, ends_lift_bind]
      | true =>
        obtain ⟨e, hfull, he⟩ : ∃ e, spdCliSetFullCmd (r'.entry a) true = .ok (0, e) ∧
            e.fullCmd = some buf := by
          rw [spdCliSetFullCmd, hbuf]
          exact ⟨_, rfl, rfl⟩
        have hself : (r'.set a e).entry a = e := Function.update_self _ _ _
        have hplace := insertEntry_returns (r := r'.set a e) (a := a) (hself ▸ he) r'.entrys
        rw [hself] at hplace
        have hends : Ends (d + 1) d (Call.lift (insertEntry (r'.set a e) a r'.entrys) >>=
              fun entrys => pure ((0 : Int32), { r'.set a e with entrys := entrys })) ↔
            ∃ pre cur rest, r'.entrys = pre ++ cur :: rest ∧
              ((r'.set a e).entry cur).fullCmd = none ∧
              ∀ b ∈ pre, ¬ below e ((r'.set a e).entry b) := by
          rw [ends_lift_bind, ← not_iff_not, ← hplace]
          simp
        constructor
        · intro h
          have hrest := ends_lift_bind.mp h _ hfull
          simp only [ne_eq, not_true_eq_false, if_false, ends_access_bind] at hrest
          exact .inr (.inr ⟨e, hfull, hends.mp hrest.2⟩)
        · rintro (h | h | ⟨e', hfull', hnone⟩)
          · exact absurd h hfound
          · cases h
          · obtain rfl := (Prod.mk.inj (Outcome.ok.inj (hfull.symm.trans hfull'))).2
            rw [hfull, ends_lift_bind]
            intro v hv
            obtain rfl := Outcome.ok.inj hv
            simp only [ne_eq, not_true_eq_false, if_false, ends_access_bind]
            exact ⟨Nat.succ_pos d, hends.mpr hnone⟩

end

end Spider.Cli
