import Spider.Cli.Complete
import Spider.Cli.Order
import Spider.DynamicString
import Spider.Lib.Longest
import Spider.Lib.Run

/-!
# Running commands

`spd_cli_command_full` splits a line into words, looks the words up and calls
the handler of the entry it finds. What is registered is to be a table from
commands to entries: the letters' case does not matter, a command that is in
the table is not registered again, and a line runs the entry of the longest
command that it begins with. A line that begins with none is answered with the
words that can be completed, which `find_best` is to find: it is given the array
of the words where it expects a string. The answers go through a dynamic string of
the thread, which does not grow. The lock of the registry is left aside.
-/

namespace Spider.Cli.Dispatch

open Lib Outcome CString Strings Joined Longest
open DynamicString (SpdStr spdStrThreadGet spdStrSet)

/-- What a handler returns: `CLI_SUCCESS`, `CLI_SHOWUSAGE`, with the usage text of its entry,
    `CLI_FAILURE` or another pointer. -/
inductive Retval where
  | success
  | showusage (usage : Option CString)
  | failure
  | other
  deriving DecidableEq, Repr

/-- The registry, the string of the thread under `spd_cli_buf`, the calls of handlers with their
    arguments, and what `spd_cli` has written. -/
structure St where
  reg : Order.St
  cliBuf : Option SpdStr
  calls : List (Addr × List CString)
  sent : List CString

/-- `SPD_CLI_BUF_LEN` (`cli.c:23`). -/
def SPD_CLI_BUF_LEN : Nat := 256

/-- `spd_cli` (`cli.c:30-47`); `text` is what the format and its arguments make, and `calloc` tells
    whether there is memory for the string of the thread. -/
def spdCli (env : DynamicString.Env) (fuel : Nat) (st : St) (text : CString) (calloc : Bool) :
    Outcome St :=
  if st.cliBuf = none ∧ calloc = false then .ok st
  else do
    let buf ← spdStrThreadGet st.cliBuf SPD_CLI_BUF_LEN
    let (res, buf) ← spdStrSet env fuel buf 0 text
    let st := { st with cliBuf := some buf }
    .ok (if res ≠ DynamicString.spdStrBuildFailed then
      { st with sent := st.sent ++ [buf.buf.take buf.used] } else st)

/-- `spd_cli`, if there is a text for it. -/
def sendReply (env : DynamicString.Env) (fuel : Nat) (st : St) (reply : Option CString)
    (calloc : Bool) : Outcome St :=
  match reply with
  | none => .ok st
  | some text => spdCli env fuel st text calloc

/-- What is sent behind the call of a handler (`cli.c:646-651`). -/
def answer (s : CString) : Retval → Option CString
  | .success | .other => none
  | .showusage usage =>
    some (usage.getD (lit "Invalid usage, but no usage information available.\n"))
  | .failure => some (lit "Command '" ++ s ++ lit "' failed.\n")

/-- What is sent when there is no entry (`cli.c:625`). -/
def noSuchCommand (s best : CString) : CString :=
  lit "No such command '" ++ s ++ lit "' (type 'core show help " ++ best ++
    lit "' for other possible commands)\n"

/-- `find_best` (`cli.c:240-256`), as it is called: its string is the array of the words, and the
    bytes of it, `low` being the first of them, are taken for words in their turn. -/
def findBest (low : UInt8) : Outcome CString := if low = 0 then .ok [] else .fault

/-- `spd_cli_command_full` (`cli.c:603-656`) for the line `s`: `ret` is what the handler returns,
    `low` the lowest byte of the address of the first word. The entry is in use only during the
    call. -/
def spdCliCommandFull (env : DynamicString.Env) (fuel : Nat) (st : St) (s : CString) (ret : Retval)
    (low : UInt8) (strdup calloc : Bool) : Outcome (Int32 × St) := do
  match ← parseArgs strdup (some s) 64 with
  | none => .ok (-1, st)
  | some p =>
    if p.argc < 1 then .ok (0, st)
    else
      match ← Order.findCli fuel st.reg p.words 0 with
      | none => do
        let best ← findBest low
        let st ← spdCli env fuel st (noSuchCommand s best) calloc
        .ok (0, st)
      | some e => do
        let _ ← spdStrJoin 65 p.words
        let st := { st with calls := st.calls ++ [(e, p.words)] }
        let st ← sendReply env fuel st (answer s ret) calloc
        .ok (0, st)

/-! ## The table of commands -/

/-- A command as it is looked up: its words, in lower case. -/
def key (words : List CString) : List CString := words.map lower

/-- The words of a line. -/
def lineWords (s : CString) : List CString :=
  match parseArgs true (some s) 64 with
  | .ok (some p) => p.words
  | _ => []

/-- The words of a command that is registered. -/
def command (g : Registering) : List CString := commandWords 15 (spdSkipBlanks (g.command.getD []))

/-- What the registry is for. -/
structure Spec where
  table : List (List CString × Addr)
  calls : List (Addr × List CString)
  sent : List CString
  deriving DecidableEq, Repr

inductive Op where
  | register (a : Addr) (g : Registering)
  | unregister (a : Addr) (inuse handler : Bool)
  | line (s : CString) (ret : Retval) (low : UInt8) (strdup calloc : Bool)
  deriving DecidableEq, Repr

/-- What is answered to a line that has words. -/
def Spec.reply (t : Spec) (s : CString) (ret : Retval) : Option CString :=
  if longest t.table (key (lineWords s)) = none then some (noSuchCommand s []) else answer s ret

def Spec.step (t : Spec) : Op → Spec
  | .register a g =>
    if g.strdupCommand ∧ g.strdupFullCmd ∧ t.table.lookup (key (command g)) = none then
      { t with table := (key (command g), a) :: t.table }
    else t
  | .unregister a inuse _ => if inuse then t else { t with table := t.table.filter (·.2 ≠ a) }
  | .line s ret _ strdup _ =>
    if strdup = false ∨ lineWords s = [] then t
    else { t with
      calls := t.calls ++ ((longest t.table (key (lineWords s))).map (·, lineWords s)).toList
      sent := t.sent ++ (t.reply s ret).toList }

/-- The program, and the table beside it. -/
structure Sys where
  con : St
  spec : Spec

/-- The loops are given more rounds than there are entries. -/
def Sys.fuel (σ : Sys) : Nat := σ.spec.table.length + 2

def St.step (env : DynamicString.Env) (fuel : Nat) (st : St) : Op → Outcome St
  | .register a g => do
    let (_, reg) ← Order.spdCliRegister fuel st.reg a g
    .ok { st with reg := reg }
  | .unregister a inuse handler => do
    let reg ← Order.spdCliUnregister fuel st.reg a inuse handler
    .ok { st with reg := reg }
  | .line s ret low strdup calloc => do
    let (_, st) ← spdCliCommandFull env fuel st s ret low strdup calloc
    .ok st

def step (env : DynamicString.Env) (σ : Sys) (o : Op) : Outcome Sys := do
  let con ← σ.con.step env σ.fuel o
  .ok ⟨con, σ.spec.step o⟩

/-- An entry that is registered is not registered again, and its command has no patterns. -/
def Enabled (σ : Sys) : Op → Prop
  | .register a g => a ∉ σ.spec.table.map Prod.snd ∧ g.command ≠ none ∧
      ∀ w ∈ command g, ∀ c ∈ w, reserved c = false
  | _ => True

/-- Every lookup finds the longest command, and the same handlers are called and texts sent. -/
structure Refines (σ : Sys) : Prop where
  lookup : ∀ words : List CString, (∀ w ∈ words, NoNul w) →
    Order.findCli σ.fuel σ.con.reg words 0 = .ok (longest σ.spec.table (key words))
  calls : σ.con.calls = σ.spec.calls
  sent : σ.con.sent = σ.spec.sent

/-- A line begins with no command, and the address of its first word does not end in a null byte;
    the answer to a line has no room in the string of the thread, or there is no memory for that
    string; or there is no memory for the copy of a command, and it is registered without a
    word. -/
def Fails (σ : Sys) : Op → Prop
  | .register _ g => g.strdupCommand = false ∧ g.strdupFullCmd = true ∧
      σ.spec.table.lookup [] = none
  | .unregister _ _ _ => False
  | .line s ret low strdup calloc => strdup = true ∧ lineWords s ≠ [] ∧
      (low ≠ 0 ∧ longest σ.spec.table (key (lineWords s)) = none ∨
        ∃ text ∈ σ.spec.reply s ret, SPD_CLI_BUF_LEN ≤ text.length ∨
          σ.con.cliBuf = none ∧ calloc = false)

instance (σ : Sys) : (o : Op) → Decidable (Enabled σ o)
  | .register _ _ => inferInstanceAs (Decidable (_ ∧ _ ∧ _))
  | .unregister _ _ _ => isTrue trivial
  | .line _ _ _ _ _ => isTrue trivial

instance (σ : Sys) : (o : Op) → Decidable (Fails σ o)
  | .register _ _ => inferInstanceAs (Decidable (_ ∧ _ ∧ _))
  | .unregister _ _ _ => isFalse id
  | .line _ _ _ _ _ => inferInstanceAs (Decidable (_ ∧ _ ∧ (_ ∧ _ ∨ ∃ _ ∈ _, _ ∨ _ ∧ _)))

/-- The string of the thread is as it was made, but for its text. -/
def Sized (o : Option SpdStr) : Prop :=
  ∀ s ∈ o, s.len = SPD_CLI_BUF_LEN ∧ ∃ content last, DynamicString.Inv ⟨s, content, last⟩

/-- The list behind the links is the table: its entries have no patterns, and no two the same
    command. -/
structure Inv (σ : Sys) (l : List Addr) : Prop where
  list : Order.Inv σ.con.reg l
  plain : ∀ a ∈ l, Unbroken reserved (σ.con.reg.entry a).cmda
  table : (l.map fun a => (key (σ.con.reg.entry a).cmda, a)).Perm σ.spec.table
  keys : Keys σ.spec.table
  cliBuf : Sized σ.con.cliBuf
  calls : σ.con.calls = σ.spec.calls
  sent : σ.con.sent = σ.spec.sent

/-! ## Lookups -/

section Lookup

variable {σ : Sys} {l : List Addr} {words cmda : List CString} {n : Nat} {a : Addr}

/-- A command without patterns matches the words that are its own, in any case. -/
theorem covers_plain (h : Unbroken reserved cmda) (hwords : ∀ w ∈ words, NoNul w) :
    Covers cmda words n ↔ n ≤ words.length ∧ key cmda = (key words).take n := by
  have hcs : ∀ c ∈ words.take n, NoNul c := fun c hc => hwords c (List.mem_of_mem_take hc)
  have htake : (key words).take n = key (words.take n) := (List.map_take ..).symm
  rw [htake]
  constructor
  · rintro ⟨hle, ws, opt, rfl, hopt, hmatch⟩
    have hnil : opt = [] := by
      rcases hopt with rfl | ⟨w, rfl, hhead⟩
      · rfl
      · have hmem : w ∈ ws ++ [w] := by simp
        obtain ⟨t, rfl⟩ := List.head?_eq_some_iff.mp hhead
        exact absurd (h.break_eq _ hmem _ List.mem_cons_self) (by decide)
    subst hnil
    rw [List.append_nil] at h ⊢
    exact ⟨hle, ((forall₂_wordMatch h hcs).mp hmatch).symm⟩
  · rintro ⟨hle, hkey⟩
    exact ⟨hle, cmda, [], (List.append_nil _).symm, Or.inl rfl,
      (forall₂_wordMatch h hcs).mpr hkey.symm⟩

theorem Inv.mem_table (h : Inv σ l) {k : List CString} :
    (k, a) ∈ σ.spec.table ↔ a ∈ l ∧ key (σ.con.reg.entry a).cmda = k := by
  rw [← h.table.mem_iff, List.mem_map]
  constructor
  · rintro ⟨b, hb, heq⟩
    obtain ⟨rfl, rfl⟩ := Prod.mk.inj heq
    exact ⟨hb, rfl⟩
  · rintro ⟨ha, rfl⟩
    exact ⟨a, ha, rfl⟩

/-- The table has an entry for the first `n` words exactly when an entry takes them. -/
theorem Inv.lookup_take (h : Inv σ l) (hwords : ∀ w ∈ words, NoNul w) (hn : n ≤ words.length) :
    σ.spec.table.lookup ((key words).take n) = some a ↔
      a ∈ l ∧ Covers (σ.con.reg.entry a).cmda words n := by
  rw [lookup_eq_some_iff h.keys, h.mem_table]
  constructor
  · rintro ⟨ha, hkey⟩
    exact ⟨ha, (covers_plain (h.plain a ha) hwords).mpr ⟨hn, hkey⟩⟩
  · rintro ⟨ha, hcovers⟩
    exact ⟨ha, ((covers_plain (h.plain a ha) hwords).mp hcovers).2⟩

theorem Inv.lookup_none (h : Inv σ l) (hwords : ∀ w ∈ words, NoNul w)
    (hnone : ∀ d ∈ l, ¬ Covers (σ.con.reg.entry d).cmda words n) (hn : n ≤ words.length) :
    σ.spec.table.lookup ((key words).take n) = none := by
  cases hlookup : σ.spec.table.lookup ((key words).take n) with
  | none => rfl
  | some d =>
    obtain ⟨hd, hcovers⟩ := (h.lookup_take hwords hn).mp hlookup
    exact absurd hcovers (hnone d hd)

/-- What is to be found is the entry of the longest command. -/
theorem Inv.found_longest (h : Inv σ l) (hwords : ∀ w ∈ words, NoNul w) {found : Option Addr}
    (hfound : Found ⟨σ.con.reg.entry, l⟩ words found) :
    longest σ.spec.table (key words) = found := by
  have hlen : (key words).length = words.length := List.length_map _
  cases hfound with
  | @exact before e behind hlist hcovers hfirst =>
    have hlist : l = before ++ e :: behind := hlist
    have he : e ∈ l := hlist ▸ List.mem_append_right before List.mem_cons_self
    apply longest_eq_some (hlen ▸ Nat.le_refl words.length)
      ((h.lookup_take hwords (Nat.le_refl _)).mpr ⟨he, hcovers⟩)
    intro j hj hle
    omega
  | @longest before e behind n hlist hlt hcovers hexact hmost hfirst =>
    have hlist : l = before ++ e :: behind := hlist
    have he : e ∈ l := hlist ▸ List.mem_append_right before List.mem_cons_self
    apply longest_eq_some (hlen ▸ Nat.le_of_lt hlt)
      ((h.lookup_take hwords (Nat.le_of_lt hlt)).mpr ⟨he, hcovers⟩)
    intro j hj hle
    rw [hlen] at hle
    apply h.lookup_none hwords ?_ hle
    intro d hd hcovers
    rcases Nat.eq_or_lt_of_le hle with rfl | hlt
    · exact hexact d hd hcovers
    · exact absurd (hmost d hd j hlt hcovers) (Nat.not_le.mpr hj)
  | none hnone =>
    apply longest_eq_none
    intro j hle
    exact h.lookup_none hwords (fun d hd => hnone d hd j) (hlen ▸ hle)

theorem Inv.length (h : Inv σ l) : l.length < σ.fuel := by
  have hlen := h.table.length_eq
  rw [List.length_map] at hlen
  rw [hlen]
  exact Nat.lt_add_of_pos_right Nat.two_pos

theorem Inv.findCli_longest (h : Inv σ l) (hwords : ∀ w ∈ words, NoNul w) :
    Order.findCli σ.fuel σ.con.reg words 0 = .ok (longest σ.spec.table (key words)) := by
  have hfound := @findCli_found ⟨σ.con.reg.entry, l⟩ words h.list.words
  rw [h.list.findCli_eq h.length, h.found_longest hwords hfound]

/-- Looking for all of the words, a lookup stops where one for the most of them would. -/
theorem verdict_exact_iff {e : SpdCliEntry} :
    (verdict words 1 e = .exact ↔ verdict words 0 e = .exact) ∧
      ∀ n, verdict words 1 e ≠ .candidate n := by
  unfold verdict
  dsimp only
  constructor
  · split <;> split <;> simp
  · intro n
    split <;> split <;> simp

/-- A lookup for all of the words gives the first entry that has them all. -/
theorem findLoop_exact (r : Registry) (rest : List Addr) :
    findLoop r words 1 (-1) none rest =
      rest.find? fun e => verdict words 0 (r.entry e) = .exact := by
  induction rest with
  | nil => rfl
  | cons e rest ih =>
    have hiff := @verdict_exact_iff words (r.entry e)
    rw [findLoop, List.find?_cons]
    cases hverdict : verdict words 1 (r.entry e) with
    | exact =>
      rw [decide_eq_true (hiff.1.mp hverdict)]
    | skip =>
      have hnot : verdict words 0 (r.entry e) ≠ .exact := by
        intro hexact
        rw [hiff.1.mpr hexact] at hverdict
        cases hverdict
      rw [decide_eq_false hnot]
      exact ih
    | candidate n => exact absurd hverdict (hiff.2 n)

theorem verdict_exact_covers {e : SpdCliEntry} (hcmda : ∀ w ∈ e.cmda, w ≠ [])
    (hne : ∀ w ∈ words, w ≠ []) :
    verdict words 0 e = .exact ↔ Covers e.cmda words words.length := by
  rcases @verdict_cases words e hcmda with ⟨hskip, hnone⟩ | ⟨n, hcovers, hmax, hverdict⟩
  · rw [hskip]
    exact ⟨fun h => Verdict.noConfusion h, fun h => absurd h (hnone _)⟩
  · have hzero : spdStrlenZero words[n]? = true ↔ n = words.length := by
      constructor
      · intro hzero
        by_contra hlt
        have hn : n < words.length := by
          have hle := hcovers.1
          omega
        rw [List.getElem?_eq_getElem hn, spdStrlenZero, List.isEmpty_iff] at hzero
        exact hne _ (List.getElem_mem hn) hzero
      · rintro rfl
        rw [List.getElem?_eq_none (Nat.le_refl _)]
        rfl
    rw [hverdict]
    constructor
    · intro hexact
      split at hexact
      next h => exact hzero.mp h ▸ hcovers
      next => cases hexact
    · intro hfull
      rw [if_pos (hzero.mpr (Nat.le_antisymm hcovers.1 (hmax _ hfull)))]

/-- A command is a duplicate when it is in the table. -/
theorem Inv.duplicate_iff (h : Inv σ l) (hcmda : Unbroken reserved words) :
    Cli.findCli ⟨σ.con.reg.entry, l⟩ words 1 = none ↔ σ.spec.table.lookup (key words) = none := by
  have hnul : ∀ w ∈ words, NoNul w := fun w hw => noNul_of_unbroken (hcmda.break_eq w hw)
  have hfull : (key words).take words.length = key words :=
    List.take_of_length_le (Nat.le_of_eq (List.length_map _))
  have hexact : ∀ e ∈ l, verdict words 0 (σ.con.reg.entry e) = .exact ↔
      Covers (σ.con.reg.entry e).cmda words words.length :=
    fun e he => verdict_exact_covers (h.list.words e he) hcmda.ne_nil
  rw [Cli.findCli, findLoop_exact, List.find?_eq_none]
  constructor
  · intro hnone
    rw [← hfull]
    apply h.lookup_none hnul ?_ (Nat.le_refl _)
    intro d hd hcovers
    exact hnone d hd (decide_eq_true ((hexact d hd).mpr hcovers))
  · intro hnone e he hverdict
    have hcovers := (hexact e he).mp (of_decide_eq_true hverdict)
    have hsome := (h.lookup_take hnul (Nat.le_refl _)).mpr ⟨he, hcovers⟩
    rw [hfull, hnone] at hsome
    cases hsome

end Lookup

/-! ## Each step -/

section Steps

variable {env : DynamicString.Env} {σ : Sys} {l : List Addr} {a : Addr}

/-- The registry may change outside its list. -/
theorem Inv.congr (h : Inv σ l) {reg : Order.St} (hreg : Order.Inv reg l)
    (hentry : ∀ b ∈ l, reg.entry b = σ.con.reg.entry b) :
    Inv ⟨{ σ.con with reg := reg }, σ.spec⟩ l where
  list := hreg
  plain b hb := by
    rw [hentry b hb]
    exact h.plain b hb
  table := by
    have hmap : (l.map fun a => (key (reg.entry a).cmda, a)) =
        l.map fun a => (key (σ.con.reg.entry a).cmda, a) := by
      apply List.map_congr_left
      intro b hb
      rw [hentry b hb]
    dsimp only
    rw [hmap]
    exact h.table
  keys := h.keys
  cliBuf := h.cliBuf
  calls := h.calls
  sent := h.sent

theorem Inv.mem_snd (h : Inv σ l) : a ∈ σ.spec.table.map Prod.snd ↔ a ∈ l := by
  have hmap : (l.map fun a => (key (σ.con.reg.entry a).cmda, a)).map Prod.snd = l := by
    rw [List.map_map]
    exact List.map_id l
  rw [← (h.table.map Prod.snd).mem_iff, hmap]

/-- What a registration of an entry that is not in the list does. -/
theorem register_cases {s : Order.St} {fuel : Nat} (h : Order.Inv s l) (hfuel : l.length < fuel)
    (ha : a ∉ l) {g : Registering} {c : CString} (hcommand : g.command = some c) :
    let e := (s.entry a).withCommand c g.strdupCommand
    let found := Cli.findCli ⟨(s.set a e).entry, l⟩ e.cmda 1
    ∃ ret s', Order.spdCliRegister fuel s a g = .ok (ret, s') ∧
      (∀ b ∈ l, s'.entry b = s.entry b) ∧
      (found = none → g.strdupFullCmd = true →
        ∃ l', Order.Inv s' l' ∧ l'.Perm (a :: l) ∧ (s'.entry a).cmda = e.cmda) ∧
      (found ≠ none ∨ g.strdupFullCmd = false → Order.Inv s' l) := by
  have hset := h.setCommand a c g.strdupCommand
  have hwords := withCommand_words (s.entry a) c g.strdupCommand
  have hother : ∀ {s1 : Order.St} (e : SpdCliEntry), ∀ b ∈ l, (s1.set a e).entry b = s1.entry b := by
    intro s1 e b hb
    apply Function.update_of_ne
    rintro rfl
    exact ha hb
  unfold Order.spdCliRegister
  rw [hcommand]
  dsimp only
  generalize (s.entry a).withCommand c g.strdupCommand = e at *
  have hself : (s.set a e).entry a = e := Function.update_self _ _ _
  rw [hself, hset.findCli_eq hfuel, ok_bind]
  cases hfound : Cli.findCli ⟨(s.set a e).entry, l⟩ e.cmda 1 with
  | some d =>
    refine ⟨-1, s.set a e, rfl, hother e, fun hnone => ?_, fun _ => hset⟩
    cases hnone
  | none =>
    obtain ⟨buf, hbuf⟩ := spdStrJoin_returns e.cmda (Nat.succ_pos 79)
    cases hstrdup : g.strdupFullCmd with
    | false =>
      have hfull : spdCliSetFullCmd e false = .ok (-1, { e with fullCmd := none }) := by
        rw [spdCliSetFullCmd, hbuf]
        rfl
      rw [hfull]
      exact ⟨-1, (s.set a e).set a _, rfl,
        fun b hb => (hother _ b hb).trans (hother e b hb), fun _ htrue => Bool.noConfusion htrue,
        fun _ => hset.set_of_notMem ha _⟩
    | true =>
      obtain ⟨e', hfull, hcmda⟩ : ∃ e', spdCliSetFullCmd e true = .ok (0, e') ∧
          e'.cmda = e.cmda := by
        rw [spdCliSetFullCmd, hbuf]
        exact ⟨_, rfl, rfl⟩
      have hinv := hset.set_of_notMem ha e'
      have hself' : ((s.set a e).set a e').entry a = e' := Function.update_self _ _ _
      obtain ⟨m, hm, hinsert⟩ := hinv.insert ha
        (by rw [hself']; exact Order.counted_setFullCmd hfull)
        (by rw [hself', hcmda]; exact hwords) hfuel
      rw [hfull, ok_bind]
      simp only [Option.isSome_none, Bool.false_eq_true, if_false, ne_eq, not_true_eq_false, hm,
        ok_bind]
      refine ⟨0, _, rfl, fun b hb => (hother e' b hb).trans (hother e b hb), fun _ _ => ?_, ?_⟩
      · exact ⟨_, hinsert, List.perm_orderedInsert _ _ _, hself'.symm ▸ hcmda⟩
      · rintro (hne | hfalse)
        · exact hne.elim
        · cases hfalse

/-- What an unregistration does: the entry is taken out of the list, if it is in it. -/
theorem unregister_cases {s : Order.St} {fuel : Nat} (h : Order.Inv s l) (hfuel : l.length < fuel)
    (handler : Bool) : ∃ s', Order.spdCliUnregister fuel s a false handler = .ok s' ∧
      Order.Inv s' (l.erase a) ∧ ∀ b ∈ l.erase a, s'.entry b = s.entry b := by
  have hmem : a ∈ l ∨ LinkedList.Free (fun _ : Unit => l) a := by
    by_cases ha : a ∈ l
    · exact Or.inl ha
    · exact Or.inr fun _ => ha
  obtain ⟨m, hm, hr, hnull⟩ := h.list.remove (h := ()) hmem hfuel
  rw [Function.update_eq_const_of_subsingleton] at hr
  have hsub : l.erase a ⊆ l := List.erase_subset
  have ha : a ∉ l.erase a := (h.list.chain ()).nodup.not_mem_erase
  have hinv : Order.Inv { s with list := m } (l.erase a) := by
    refine ⟨hr, ?_, h.ordered.sublist List.erase_sublist, ?_, ?_⟩
    · intro b hb
      by_cases hba : b = a
      · rw [hba]
        exact hnull
      · exact LinkedList.remove_next hm
          (h.free b fun hmem => hb ((List.mem_erase_of_ne hba).mpr hmem))
    · exact fun b hb => h.counted b (hsub hb)
    · exact fun b hb => h.words b (hsub hb)
  have hother : ∀ {s1 : Order.St} (e : SpdCliEntry), ∀ b ∈ l.erase a,
      (s1.set a e).entry b = s1.entry b := by
    intro s1 e b hb
    apply Function.update_of_ne
    rintro rfl
    exact ha hb
  unfold Order.spdCliUnregister
  rw [if_neg Bool.false_ne_true, hm, ok_bind]
  cases handler with
  | true =>
    refine ⟨_, rfl, (hinv.set_of_notMem ha _).set_of_notMem ha _, ?_⟩
    exact fun b hb => (hother _ b hb).trans (hother _ b hb)
  | false => exact ⟨_, rfl, hinv.set_of_notMem ha _, fun b hb => hother _ b hb⟩

theorem step_register (h : Inv σ l) {g : Registering} (he : Enabled σ (.register a g))
    (hq : ¬ Fails σ (.register a g)) :
    ∃ σ' l', step env σ (.register a g) = .ok σ' ∧ Inv σ' l' := by
  obtain ⟨hnew, hsome, hplain⟩ := he
  have ha : a ∉ l := mt h.mem_snd.mpr hnew
  obtain ⟨c, hcommand⟩ := Option.ne_none_iff_exists'.mp hsome
  obtain ⟨ret, s', hregister, hentry, hinsert, hkeep⟩ := register_cases h.list h.length ha hcommand
  have hstep : step env σ (.register a g) =
      .ok ⟨{ σ.con with reg := s' }, σ.spec.step (.register a g)⟩ := by
    rw [step, St.step, hregister]
    rfl
  -- the words that the entry is given, and what the table says of them
  generalize hwords : ((σ.con.reg.entry a).withCommand c g.strdupCommand).cmda = words at *
  have hcut : words = if g.strdupCommand then command g else [] := by
    rw [← hwords, command, hcommand]
    cases g.strdupCommand <;> rfl
  have hunbroken : Unbroken reserved words := by
    rw [hcut]
    split
    · exact ⟨commandWords_ne_nil 15 _, hplain⟩
    · exact ⟨fun w hw => absurd hw List.not_mem_nil, fun w hw => absurd hw List.not_mem_nil⟩
  have hdup : Cli.findCli ⟨(σ.con.reg.set a ((σ.con.reg.entry a).withCommand c
      g.strdupCommand)).entry, l⟩ words 1 = none ↔ σ.spec.table.lookup (key words) = none := by
    have hset := h.congr (h.list.setCommand a c g.strdupCommand) fun b hb => by
      apply Function.update_of_ne
      rintro rfl
      exact ha hb
    exact hset.duplicate_iff hunbroken
  by_cases hfree : σ.spec.table.lookup (key words) = none ∧ g.strdupFullCmd = true
  · obtain ⟨l', hinv, hperm, hcmda⟩ := hinsert (hdup.mpr hfree.1) hfree.2
    have hmem : g.strdupCommand = true := by
      by_contra hnot
      rw [Bool.not_eq_true] at hnot
      rw [hcut, if_neg (by simp [hnot])] at hfree
      exact hq ⟨hnot, hfree.2, hfree.1⟩
    rw [if_pos hmem] at hcut
    subst hcut
    have hspec : σ.spec.step (.register a g) =
        { σ.spec with table := (key (command g), a) :: σ.spec.table } :=
      if_pos ⟨hmem, hfree.2, hfree.1⟩
    rw [hspec] at hstep
    have hmap : (l.map fun b => (key (s'.entry b).cmda, b)) =
        l.map fun b => (key (σ.con.reg.entry b).cmda, b) := by
      apply List.map_congr_left
      intro b hb
      rw [hentry b hb]
    refine ⟨_, l', hstep, hinv, ?_, ?_, ?_, h.cliBuf, h.calls, h.sent⟩
    · intro b hb
      rcases List.mem_cons.mp (hperm.mem_iff.mp hb) with rfl | hb
      · rw [hcmda]
        exact hunbroken
      · rw [hentry b hb]
        exact h.plain b hb
    · apply (hperm.map _).trans
      rw [List.map_cons, hcmda, hmap]
      exact h.table.cons _
    · apply List.nodup_cons.mpr ⟨?_, h.keys⟩
      intro hmem
      obtain ⟨⟨k, b⟩, hb, heq⟩ := List.mem_map.mp hmem
      obtain rfl : k = key (command g) := heq
      exact lookup_eq_none_iff.mp hfree.1 b hb
  · have hspec : σ.spec.step (.register a g) = σ.spec := by
      apply if_neg
      rintro ⟨hmem, hfull, hnone⟩
      rw [if_pos hmem] at hcut
      exact hfree ⟨hcut ▸ hnone, hfull⟩
    rw [hspec] at hstep
    refine ⟨_, l, hstep, h.congr (hkeep ?_) hentry⟩
    by_cases hfull : g.strdupFullCmd = true
    · exact Or.inl (mt hdup.mp fun hnone => hfree ⟨hnone, hfull⟩)
    · exact Or.inr (Bool.not_eq_true _ ▸ hfull)

theorem step_unregister (h : Inv σ l) (inuse handler : Bool) :
    ∃ σ' l', step env σ (.unregister a inuse handler) = .ok σ' ∧ Inv σ' l' := by
  cases inuse with
  | true => exact ⟨⟨σ.con, σ.spec⟩, l, rfl, h⟩
  | false =>
    obtain ⟨s', hunregister, hinv, hentry⟩ := unregister_cases h.list h.length handler
    have hstep : step env σ (.unregister a false handler) = .ok ⟨{ σ.con with reg := s' },
        { σ.spec with table := σ.spec.table.filter (·.2 ≠ a) }⟩ := by
      rw [step, St.step, hunregister]
      rfl
    have hsub : l.erase a ⊆ l := List.erase_subset
    have hnodup : l.Nodup := (h.list.list.chain ()).nodup
    have hmap : ((l.erase a).map fun b => (key (s'.entry b).cmda, b)) =
        (l.map fun b => (key (σ.con.reg.entry b).cmda, b)).filter (·.2 ≠ a) := by
      have hfilter : l.filter ((fun e : List CString × Addr => decide (e.2 ≠ a)) ∘
          fun b => (key (σ.con.reg.entry b).cmda, b)) = l.erase a := by
        rw [hnodup.erase_eq_filter]
        apply List.filter_congr
        intro b _
        by_cases hba : b = a <;> simp [hba]
      rw [List.filter_map, hfilter]
      apply List.map_congr_left
      intro b hb
      rw [hentry b hb]
    refine ⟨_, l.erase a, hstep, hinv, ?_, ?_, ?_, h.cliBuf, h.calls, h.sent⟩
    · intro b hb
      rw [hentry b hb]
      exact h.plain b (hsub hb)
    · dsimp only
      rw [hmap]
      exact h.table.filter _
    · exact h.keys.of_sublist List.filter_sublist

/-- The words that a line is split into. -/
theorem parseArgs_lineWords (s : CString) : ∃ p, parseArgs true (some s) 64 = .ok (some p) ∧
    p.words = lineWords s ∧ (p.argc < 1 ↔ lineWords s = []) ∧ ∀ w ∈ lineWords s, NoNul w := by
  obtain ⟨p, hparse, hlength, -⟩ := parseArgs_returns (by decide : (1 : Int) ≤ 64) s
  have hwords : p.words = lineWords s := by
    rw [lineWords, hparse]
  refine ⟨p, hparse, hwords, ?_, hwords ▸ p.noNul_words⟩
  rw [← hwords, ← List.length_eq_zero_iff, hlength]
  omega

/-- A text for which there is room is sent. -/
theorem spdCli_eq {st : St} (h : Sized st.cliBuf) {text : CString} {calloc : Bool}
    (hlen : text.length < SPD_CLI_BUF_LEN) (hroom : ¬ (st.cliBuf = none ∧ calloc = false))
    (fuel : Nat) : ∃ buf, Sized (some buf) ∧ spdCli env (fuel + 1) st text calloc =
      .ok { st with cliBuf := some buf, sent := st.sent ++ [text] } := by
  obtain ⟨s, hget, hsize, content, last, hs⟩ : ∃ s,
      spdStrThreadGet st.cliBuf SPD_CLI_BUF_LEN = .ok s ∧ s.len = SPD_CLI_BUF_LEN ∧
        ∃ content last, DynamicString.Inv ⟨s, content, last⟩ := by
    cases hbuf : st.cliBuf with
    | none =>
      exact ⟨_, DynamicString.spdStrThreadGet_none (by decide), rfl, [], none,
        DynamicString.inv_fresh (by decide) .thread⟩
    | some s =>
      obtain ⟨hsize, hs⟩ := h s hbuf
      have hne : ¬ s.len = 0 := hsize ▸ by decide
      exact ⟨s, congrArg ok (if_neg hne), hsize, hs⟩
  have hfits : DynamicString.Fits ⟨s, content, last⟩ text.length := by
    refine ⟨hsize ▸ hlen, ?_⟩
    rw [SPD_CLI_BUF_LEN] at hlen
    rw [DynamicString.intMax]
    omega
  obtain ⟨s', hset, hs', hlen'⟩ := DynamicString.spdStrSet_eq env fuel hs hfits
  refine ⟨s', ?_, ?_⟩
  · intro t ht
    obtain rfl := Option.some.inj ht
    exact ⟨hlen'.trans hsize, text, _, hs'⟩
  · have hcontent : s'.buf.take s'.used = text := hs'.content
    have hres : ¬ (text.length : Int) = DynamicString.spdStrBuildFailed := by
      rw [DynamicString.spdStrBuildFailed]
      omega
    rw [spdCli, if_neg hroom, hget, ok_bind, hset, ok_bind]
    dsimp only
    rw [if_pos hres, hcontent]

/-- What a line that has words comes to: the handler of the longest command is called, and the
    reply is sent. -/
theorem line_eq (h : Inv σ l) {s : CString} {ret : Retval} {low : UInt8} {calloc : Bool}
    (hne : lineWords s ≠ []) (hlow : longest σ.spec.table (key (lineWords s)) = none → low = 0) :
    step env σ (.line s ret low true calloc) = (do
      let con ← sendReply env σ.fuel { σ.con with
        calls := σ.con.calls ++
          ((longest σ.spec.table (key (lineWords s))).map (·, lineWords s)).toList }
        (σ.spec.reply s ret) calloc
      .ok ⟨con, σ.spec.step (.line s ret low true calloc)⟩) := by
  obtain ⟨p, hparse, hwords, hargc, hnul⟩ := parseArgs_lineWords s
  have hfound := h.findCli_longest hnul
  rw [step, St.step, spdCliCommandFull, hparse, ok_bind]
  dsimp only
  rw [if_neg (mt hargc.mp hne), hwords, hfound, ok_bind, Spec.reply]
  cases hlongest : longest σ.spec.table (key (lineWords s)) with
  | none =>
    rw [if_pos rfl, findBest, if_pos (hlow hlongest)]
    simp only [ok_bind, sendReply, Option.map_none, Option.toList_none, List.append_nil,
      Outcome.bind_assoc]
  | some e =>
    obtain ⟨tmp, htmp⟩ := spdStrJoin_returns (lineWords s) (Nat.succ_pos 64)
    rw [if_neg (by simp)]
    simp only [htmp, ok_bind, Option.map_some, Option.toList_some, Outcome.bind_assoc]

theorem Spec.step_line (t : Spec) {s : CString} (hne : lineWords s ≠ []) (ret : Retval) (low : UInt8)
    (calloc : Bool) : t.step (.line s ret low true calloc) = { t with
      calls := t.calls ++ ((longest t.table (key (lineWords s))).map (·, lineWords s)).toList
      sent := t.sent ++ (t.reply s ret).toList } :=
  if_neg (by simp [hne])

theorem step_line (h : Inv σ l) {s : CString} {ret : Retval} {low : UInt8} {strdup calloc : Bool}
    (hq : ¬ Fails σ (.line s ret low strdup calloc)) :
    ∃ σ' l', step env σ (.line s ret low strdup calloc) = .ok σ' ∧ Inv σ' l' := by
  cases strdup with
  | false => exact ⟨⟨σ.con, σ.spec⟩, l, rfl, h⟩
  | true =>
    by_cases hne : lineWords s = []
    · obtain ⟨p, hparse, hwords, hargc, hnul⟩ := parseArgs_lineWords s
      have hspec : σ.spec.step (.line s ret low true calloc) = σ.spec := if_pos (Or.inr hne)
      refine ⟨σ, l, ?_, h⟩
      rw [step, hspec, St.step, spdCliCommandFull, hparse, ok_bind]
      dsimp only
      rw [if_pos (hargc.mpr hne)]
      rfl
    · have hnot := fun hf => hq ⟨rfl, hne, hf⟩
      have hlow : longest σ.spec.table (key (lineWords s)) = none → low = 0 := by
        intro hnone
        by_contra hlow
        exact hnot (.inl ⟨hlow, hnone⟩)
      have hcalls : ∀ calls, σ.con.calls ++ calls = σ.spec.calls ++ calls := fun _ => by rw [h.calls]
      rw [line_eq h hne hlow, σ.spec.step_line hne]
      cases hreply : σ.spec.reply s ret with
      | none =>
        refine ⟨_, l, rfl, h.list, h.plain, h.table, h.keys, h.cliBuf, hcalls _, ?_⟩
        exact h.sent.trans (List.append_nil _).symm
      | some text =>
        have hlen : text.length < SPD_CLI_BUF_LEN :=
          Nat.lt_of_not_le fun hle => hnot (.inr ⟨text, hreply, .inl hle⟩)
        have hroom : ¬ (σ.con.cliBuf = none ∧ calloc = false) :=
          fun hnone => hnot (.inr ⟨text, hreply, .inr hnone⟩)
        let called := ((longest σ.spec.table (key (lineWords s))).map (·, lineWords s)).toList
        let st : St := { σ.con with calls := σ.con.calls ++ called }
        obtain ⟨buf, hbuf, hsend⟩ := @spdCli_eq env st h.cliBuf text calloc hlen hroom
          (σ.spec.table.length + 1)
        refine ⟨⟨{ st with cliBuf := some buf, sent := st.sent ++ [text] },
          { σ.spec with calls := σ.spec.calls ++ called, sent := σ.spec.sent ++ [text] }⟩, l, ?_, ?_⟩
        · show (spdCli env σ.fuel st text calloc >>= _) = _
          rw [Sys.fuel, hsend]
          rfl
        · exact ⟨h.list, h.plain, h.table, h.keys, hbuf, hcalls _, congrArg (· ++ [text]) h.sent⟩

theorem step_inv (h : Inv σ l) (o : Op) (he : Enabled σ o) (hq : ¬ Fails σ o) :
    ∃ σ' l', step env σ o = .ok σ' ∧ Inv σ' l' := by
  cases o with
  | register a g => exact step_register h he hq
  | unregister a inuse handler => exact step_unregister h inuse handler
  | line s ret low strdup calloc => exact step_line h hq

end Steps

/-- Nothing is registered, and nothing has been typed. -/
def start (entry : Addr → SpdCliEntry) : Sys := ⟨⟨Order.empty entry, none, [], []⟩, ⟨[], [], []⟩⟩

theorem inv_start (entry : Addr → SpdCliEntry) : Inv (start entry) [] where
  list := Order.inv_empty entry
  plain _ ha := absurd ha List.not_mem_nil
  table := List.Perm.refl []
  keys := List.nodup_nil
  cliBuf _ h := by cases h
  calls := rfl
  sent := rfl

end Spider.Cli.Dispatch
