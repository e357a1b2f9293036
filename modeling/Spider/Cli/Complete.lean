import Spider.Cli.Args
import Spider.Cli.Find
import Spider.Cli.Match

/-!
# Completing a command line

`spd_cli_generator` is called with `state` 0, 1, 2, … until it returns null, and
counts the matches anew in each call. The candidates are, in the order of the
registry, the next words of the commands that go on from the words typed.
-/

namespace Spider.Cli

open Lib Outcome CString Strings Joined

/-- `struct spd_cli_arg` (`cli.h:72-80`), what is set of it for `CLI_COMPLETE`. -/
structure SpdCliArg where
  line : CString
  word : Option CString
  pos : Nat
  n : Int
  argv : List CString
  argc : Nat

/-- The function that completes the arguments of an entry, if it has a handler; null is `none`. -/
abbrev Handlers := Addr → Option (SpdCliArg → Option CString)

/-- `is_prefix` (`cli.c:145-180`): what it returns, and the number of matches; `strdup` tells
    whether there is memory for the copy. For a word with alternatives `spd_strdupa(token + 1)`
    stands in front of the loop over them (`cli.c:169`), and that macro copies the variable `s`
    of its caller, which is not set yet, instead of its argument (`strings.h:84-92`). -/
def isPrefix (word token : Option CString) (pos : Int) (strdup : Bool) :
    Outcome (Option CString × Nat) :=
  match token with
  | none | some [] => .ok (none, 0)
  | some (c :: t) =>
    let word := word.getD []
    if (word.takeWhile (· ∉ cliRsvd)).length ≠ word.length then .ok (none, 0)
    else if reserved c then .fault
    else if strncasecmp (c :: t) word word.length ≠ 0 then .ok (none, 0)
    else .ok (if pos = 0 ∧ strdup then some (c :: t) else none, 1)

/-- `more_words` (`cli.c:501-510`). -/
def moreWords (dst : List CString) : Bool := dst.any fun w => w.head? ≠ some (ch '[')

/-- The loop of `__spd_cli_generator` (`cli.c:540-590`), for the words `argv` typed. -/
def generatorLoop (r : Registry) (handler : Handlers) (argv : List CString)
    (arg : Int → SpdCliArg) (argindex : Nat) (state : Int) (strdup : Bool) :
    List Addr → Int → Outcome (Option CString)
  | [], _ => .ok none
  | e :: rest, matchnum =>
    let next := generatorLoop r handler argv arg argindex state strdup rest
    match (r.entry e).command with
    | none => .fault
    | some command =>
      if command.head? = some (ch '_') then next matchnum
      else
        let (src, _, dst) := matchWords (argv.take argindex) (r.entry e).cmda 0
        if src ≠ argindex ∧ moreWords dst then next matchnum
        else do
          let (ret, n) ← isPrefix argv[src]? dst.head? (state - matchnum) strdup
          let matchnum := matchnum + n
          match ret with
          | some ret => if matchnum > state then .ok (some ret) else next matchnum
          | none =>
            if spdStrlenZero dst.head? then
              match (handler e).bind fun complete => complete (arg (state - matchnum)) with
              | some ret => .ok (some ret)
              | none => next matchnum
            else next matchnum

/-- `spd_cli_generator` (`cli.c:515-601`); `SPD_MAX_ARGS` is 64, and `strdup` tells whether there
    is memory for copies. -/
def spdCliGenerator (r : Registry) (handler : Handlers) (strdup : Bool) (text word : Option CString)
    (state : Int) : Outcome (Option CString) := do
  match ← parseArgs strdup text 64 with
  | none => .ok none
  | some p =>
    let argindex := if ¬ spdStrlenZero word ∧ 0 < p.argc then p.argc - 1 else p.argc
    let matchstr ← spdStrJoin 79 p.words
    let matchstr := if p.trailingwhitespace then matchstr ++ [ch ' '] else matchstr
    let arg n := ⟨matchstr, word, argindex, n, p.words, p.argc⟩
    generatorLoop r handler p.words arg argindex state strdup r.entrys 0

/-- The word that an entry adds to the first `k` of the words typed, if it goes on from them and
    begins with the next one. -/
def candidate (words : List CString) (k : Nat) (e : SpdCliEntry) : Option CString :=
  if e.command.bind List.head? = some (ch '_') ∨
      (words.take k).map lower ≠ (e.cmda.take k).map lower then none
  else e.cmda[k]?.filter fun w => (lower (words[k]?.getD [])).isPrefixOf (lower w)

/-- The words to complete with, in the order of the registry. -/
def candidates (r : Registry) (words : List CString) (k : Nat) : List CString :=
  r.entrys.filterMap fun e => candidate words k (r.entry e)

section

variable {c w token : CString} {b : UInt8} {words : List CString} {k : Nat} {pos : Int}

/-- A word without reserved characters is matched by itself only. -/
theorem wordMatch_plain (hne : w ≠ []) (hw : ∀ c ∈ w, reserved c = false) (hc : NoNul c) :
    0 ≤ wordMatch c w ↔ lower c = lower w := by
  obtain ⟨d, t, rfl⟩ := List.exists_cons_of_ne_nil hne
  cases c with
  | nil => exact iff_of_false (by rw [wordMatch_nil]; decide) (by simp [lower])
  | cons b s =>
    have hd := hw d List.mem_cons_self
    rw [← strcasecmp_eq_zero hc (noNul_of_unbroken hw)]
    simp only [wordMatch, hd, Bool.not_false, if_true]
    split
    next h => exact iff_of_true (by decide) h
    next h => exact iff_of_false (by decide) h

/-- A word that begins with a reserved character begins no word without. -/
theorem not_isPrefix_of_reserved {word : CString} (ht : ∀ c ∈ token, reserved c = false)
    (hc : b ∈ word) (hr : reserved b = true) : ¬ lower word <+: lower token := by
  intro hpre
  obtain ⟨d, hd, heq⟩ := List.mem_map.mp (hpre.subset (List.mem_map_of_mem hc))
  rw [← reserved_tolower, ← heq, reserved_tolower, ht d hd] at hr
  cases hr

/-- What `is_prefix` makes of a word without reserved characters. -/
theorem isPrefix_plain (hne : token ≠ []) (ht : ∀ c ∈ token, reserved c = false)
    {word : Option CString} (hw : NoNul (word.getD [])) : isPrefix word (some token) pos true =
      .ok (if lower (word.getD []) <+: lower token then (if pos = 0 then some token else none, 1)
      else (none, 0)) := by
  obtain ⟨d, t, rfl⟩ := List.exists_cons_of_ne_nil hne
  unfold isPrefix
  dsimp only
  generalize word.getD [] = v at *
  by_cases hclean : ∀ c ∈ v, c ∉ cliRsvd
  · have hspan : v.takeWhile (· ∉ cliRsvd) = v :=
      List.takeWhile_eq_self_iff.mpr fun c hc => by simpa using hclean c hc
    have hcompare : strncasecmp (d :: t) v v.length = 0 ↔ lower v <+: lower (d :: t) := by
      have hnul : NoNul ((d :: t).take v.length) := fun c hc =>
        noNul_of_unbroken ht c (List.mem_of_mem_take hc)
      rw [strncasecmp, List.take_length, strcasecmp_eq_zero hnul hw, List.prefix_iff_eq_take,
        eq_comm]
      simp only [lower, List.map_take, List.length_map]
    rw [if_neg (by rw [hspan]; simp), ht d List.mem_cons_self, if_neg Bool.false_ne_true]
    simp only [ne_eq, hcompare, and_true, ite_not, apply_ite ok]
  · obtain ⟨c, hc, hr⟩ : ∃ c ∈ v, c ∈ cliRsvd := by simpa using hclean
    have hshort : (v.takeWhile (· ∉ cliRsvd)).length ≠ v.length := by
      intro hlen
      have hall := List.takeWhile_eq_self_iff.mp
        ((List.takeWhile_prefix fun c => decide (c ∉ cliRsvd)).eq_of_length hlen) c hc
      exact absurd hr (by simpa using hall)
    have hreserved : reserved c = true := by simp [reserved, hr]
    rw [if_pos hshort, if_neg (not_isPrefix_of_reserved ht hc hreserved)]

/-- Words are matched one by one exactly when they are the same in any case. -/
theorem forall₂_wordMatch {cs ws : List CString} (h : Unbroken reserved ws)
    (hcs : ∀ c ∈ cs, NoNul c) :
    List.Forall₂ (fun c w => 0 ≤ wordMatch c w) cs ws ↔ cs.map lower = ws.map lower := by
  induction cs generalizing ws with
  | nil => cases ws <;> simp
  | cons c cs ih =>
    cases ws with
    | nil => simp
    | cons w ws =>
      rw [List.forall₂_cons, ih h.tail fun c hc => hcs c (List.mem_cons_of_mem _ hc),
        wordMatch_plain (h.ne_nil w List.mem_cons_self) (h.break_eq w List.mem_cons_self)
          (hcs c List.mem_cons_self), List.map_cons, List.map_cons, List.cons.injEq]

/-- The words typed up to the one to complete are matched exactly when they are the first of the
    command, in any case. -/
theorem matchWords_plain {cmda : List CString} (h : Unbroken reserved cmda)
    (hwords : ∀ c ∈ words, NoNul c) (hk : k ≤ words.length) :
    ∃ n, matchWords (words.take k) cmda 0 = (n, (words.take k).drop n, cmda.drop n) ∧
      (n = k ↔ (words.take k).map lower = (cmda.take k).map lower) := by
  obtain ⟨n, heq, hle, hmatch, hstop⟩ := matchWords_spec (words.take k) cmda 0
  have hcs : ∀ c ∈ words.take k, NoNul c := fun c hc => hwords c (List.mem_of_mem_take hc)
  have hcmda : ∀ j, Unbroken reserved (cmda.take j) := fun j =>
    ⟨fun w hw => h.ne_nil w (List.mem_of_mem_take hw),
      fun w hw => h.break_eq w (List.mem_of_mem_take hw)⟩
  rw [List.length_take, Nat.min_eq_left hk] at hle
  rw [Nat.zero_add] at heq
  refine ⟨n, heq, ?_, ?_⟩
  · rintro rfl
    rw [List.take_take, Nat.min_self] at hmatch
    exact (forall₂_wordMatch (hcmda n) hcs).mp hmatch
  · intro hsame
    by_contra hne
    have hall := (forall₂_wordMatch (hcmda k) hcs).mpr hsame
    have hlen := hall.length_eq
    rw [List.length_take, List.length_take, Nat.min_eq_left hk] at hlen
    have hpos := hall.get (show n < (words.take k).length by rw [List.length_take]; omega)
      (show n < (cmda.take k).length by rw [List.length_take]; omega)
    simp only [List.get_eq_getElem, List.getElem_take] at hpos
    have hneg := hstop words[n] cmda[n]
      (by rw [List.getElem?_take_of_lt (by omega), List.getElem?_eq_getElem (by omega)])
      (List.getElem?_eq_getElem (by omega))
    omega

end

/-! ## The candidates, one for each state -/

section

variable {r : Registry} {handler : Handlers} {arg : Int → SpdCliArg} {words : List CString}
  {k : Nat} {state matchnum : Int} {entrys : List Addr} {e : Addr}

/-- What the generator relies on: the entries have their commands, without patterns, and their
    handlers have nothing to complete with. -/
structure Completable (r : Registry) (handler : Handlers) : Prop where
  command : ∀ e ∈ r.entrys, (r.entry e).command ≠ none
  words : ∀ e ∈ r.entrys, Unbroken reserved (r.entry e).cmda
  handler : ∀ e ∈ r.entrys, ∀ complete ∈ handler e, ∀ arg, complete arg = none

/-- What is left of a command without patterns is no optional word. -/
theorem plain_moreWords {cmda : List CString} (h : Unbroken reserved cmda) (n : Nat) :
    ¬ moreWords (cmda.drop n) = true ↔ cmda.drop n = [] := by
  constructor
  · intro hnot
    cases hdrop : cmda.drop n with
    | nil => rfl
    | cons w dst =>
      have hmem : w ∈ cmda := List.mem_of_mem_drop (hdrop ▸ List.mem_cons_self)
      obtain ⟨c, t, rfl⟩ := List.exists_cons_of_ne_nil (h.ne_nil w hmem)
      have hc := h.break_eq _ hmem c List.mem_cons_self
      have hne : c ≠ ch '[' := by
        rintro rfl
        exact absurd hc (by decide +kernel)
      rw [hdrop, moreWords] at hnot
      simp [hne] at hnot
  · intro hdrop
    rw [hdrop]
    exact Bool.false_ne_true

/-- What a call makes of the next entry: a candidate is returned when it is the one asked for, and
    counted when it comes before. -/
theorem generatorLoop_cons (h : Completable r handler) (he : e ∈ r.entrys)
    (hwords : ∀ c ∈ words, NoNul c) (hk : k ≤ words.length) :
    generatorLoop r handler words arg k state true (e :: entrys) matchnum =
      match candidate words k (r.entry e) with
      | none => generatorLoop r handler words arg k state true entrys matchnum
      | some w => if matchnum = state then .ok (some w)
        else generatorLoop r handler words arg k state true entrys (matchnum + 1) := by
  have hplain := h.words e he
  obtain ⟨command, hcommand⟩ := Option.ne_none_iff_exists'.mp (h.command e he)
  obtain ⟨n, hmatch, hn⟩ := matchWords_plain hplain hwords hk
  have hquiet : ∀ a, ((handler e).bind fun complete => complete a) = none := by
    intro a
    cases hhandler : handler e with
    | none => rfl
    | some complete => exact h.handler e he complete hhandler a
  rw [generatorLoop, hcommand, candidate, hcommand, Option.bind_some]
  dsimp only
  by_cases hhidden : command.head? = some (ch '_')
  · rw [if_pos hhidden, if_pos (.inl hhidden)]
  rw [if_neg hhidden, hmatch]
  dsimp only
  by_cases hsame : n = k
  · subst hsame
    rw [if_neg fun hne => hne.1 rfl,
      if_neg (not_or.mpr ⟨hhidden, not_not.mpr (hn.mp rfl)⟩), List.head?_drop]
    cases hw : (r.entry e).cmda[n]? with
    | none =>
      simp only [isPrefix, spdStrlenZero, if_true, hquiet]
      simp
    | some w =>
      have hmem := List.mem_of_getElem? hw
      have hne := hplain.ne_nil w hmem
      have htyped : NoNul (words[n]?.getD []) := by
        cases hc : words[n]? with
        | none =>
          intro b hb
          cases hb
        | some c => exact hwords c (List.mem_of_getElem? hc)
      have hzero : spdStrlenZero (some w) = false := List.isEmpty_eq_false_iff.mpr hne
      rw [isPrefix_plain hne (hplain.break_eq w hmem) htyped]
      by_cases hpre : lower (words[n]?.getD []) <+: lower w
      · have hmine : (lower (words[n]?.getD [])).isPrefixOf (lower w) = true :=
          List.isPrefixOf_iff_prefix.mpr hpre
        rw [if_pos hpre, Option.filter_some, if_pos hmine]
        by_cases hnow : matchnum = state
        · rw [if_pos (by omega), ok_bind]
          dsimp only
          rw [if_pos (by omega), if_pos hnow]
        · rw [if_neg (by omega)]
          simp only [ok_bind, hzero, Bool.false_eq_true, if_false, hnow, Int.natCast_one]
      · have hmine : (lower (words[n]?.getD [])).isPrefixOf (lower w) = false := by
          rw [← Bool.not_eq_true, List.isPrefixOf_iff_prefix]
          exact hpre
        rw [if_neg hpre, Option.filter_some, hmine, if_neg Bool.false_ne_true]
        simp only [ok_bind, hzero, Bool.false_eq_true, if_false, Int.natCast_zero, Int.add_zero]
  · have hother := mt hn.mpr hsame
    by_cases hmore : moreWords ((r.entry e).cmda.drop n) = true
    · rw [if_pos ⟨hsame, hmore⟩, if_pos (.inr hother)]
    · -- the command ends here: its handler has nothing to add
      have hend : (r.entry e).cmda.drop n = [] := by
        rw [← plain_moreWords hplain n]
        exact hmore
      rw [if_neg fun hboth => hmore hboth.2, hend]
      simp only [List.head?_nil, isPrefix, ok_bind, spdStrlenZero, if_true, hquiet]
      rw [if_pos (.inr hother), Int.natCast_zero, Int.add_zero]

/-- The loop from any place on: the candidates before were counted. -/
theorem generatorLoop_eq (h : Completable r handler) (hentrys : entrys ⊆ r.entrys)
    (hwords : ∀ c ∈ words, NoNul c) (hk : k ≤ words.length) (hstate : matchnum ≤ state) :
    generatorLoop r handler words arg k state true entrys matchnum = .ok
      (entrys.filterMap fun e => candidate words k (r.entry e))[(state - matchnum).toNat]? := by
  induction entrys generalizing matchnum with
  | nil => rfl
  | cons e entrys ih =>
    have hrest : entrys ⊆ r.entrys := fun d hd => hentrys (List.mem_cons_of_mem e hd)
    rw [generatorLoop_cons h (hentrys List.mem_cons_self) hwords hk]
    cases hcand : candidate words k (r.entry e) with
    | none => simp only [List.filterMap_cons, hcand, ih hrest hstate]
    | some w =>
      by_cases hnow : matchnum = state
      · simp [hcand, hnow]
      · have hindex : (state - matchnum).toNat = (state - (matchnum + 1)).toNat + 1 := by omega
        simp only [List.filterMap_cons, hcand, hnow, if_false]
        rw [ih hrest (by omega), hindex, List.getElem?_cons_succ]

/-- The calls for `state` 0, 1, 2, … return the candidates in the order of the registry, each of
    them once, and null from then on. -/
theorem spdCliGenerator_candidates (h : Completable r handler) (text : CString)
    (word : Option CString) : ∃ p, parseArgs true (some text) 64 = .ok (some p) ∧
      ∀ state : Nat, spdCliGenerator r handler true (some text) word state = .ok
        (candidates r p.words
          (if ¬ spdStrlenZero word ∧ 0 < p.argc then p.argc - 1 else p.argc))[state]? := by
  obtain ⟨p, hparse, hlen, harg⟩ := parseArgs_returns (show (1 : Int) ≤ 64 by decide) text
  refine ⟨p, hparse, fun state => ?_⟩
  obtain ⟨matchstr, hjoin⟩ := spdStrJoin_returns p.words (Nat.succ_pos 78)
  have hk : (if ¬ spdStrlenZero word ∧ 0 < p.argc then p.argc - 1 else p.argc) ≤
      p.words.length := by
    rw [hlen]
    split <;> omega
  rw [spdCliGenerator, hparse, ok_bind]
  dsimp only
  rw [hjoin, ok_bind, generatorLoop_eq h (List.Subset.refl _) p.noNul_words hk (by omega)]
  simp [candidates]

end

/-- Three commands, of which one is hidden. -/
def listRegistry : Registry where
  entry a := ⟨[lit "list", if a = 1 then lit "all" else lit "Any"], none, 0, 2,
    some (if a = 3 then lit "_list any" else lit "list")⟩
  entrys := [3, 1, 2]

/-- The line `LIST a` is completed by two commands. -/
theorem spdCliGenerator_candidates_list :
    [0, 1, 2].map (fun state => spdCliGenerator listRegistry (fun _ => none) true
      (some (lit "LIST a")) (some (lit "a")) state) =
      [.ok (some (lit "all")), .ok (some (lit "Any")), .ok none] := by
  have h : Completable listRegistry fun _ => none := by
    refine ⟨by decide +kernel, fun e he => ⟨?_, ?_⟩, nofun⟩
    · revert e
      decide +kernel
    · revert e
      decide +kernel
  obtain ⟨p, hparse, hstate⟩ := spdCliGenerator_candidates h (lit "LIST a") (some (lit "a"))
  have hwords : p.argc = 2 ∧ p.words = [lit "LIST", lit "a"] := by
    have hrun : ∃ p, parseArgs true (some (lit "LIST a")) 64 = .ok p ∧
        ∃ q ∈ p, q.argc = 2 ∧ q.words = [lit "LIST", lit "a"] := exists_of_run (by decide +kernel)
    obtain ⟨q, hq, q', hq', hwords⟩ := hrun
    obtain rfl := Outcome.ok.inj (hparse.symm.trans hq)
    obtain rfl := Option.some.inj hq'
    exact hwords
  have hcast : ([0, 1, 2] : List Int) = [((0 : Nat) : Int), ((1 : Nat) : Int), ((2 : Nat) : Int)] :=
    rfl
  rw [hcast]
  simp only [List.map_cons, List.map_nil, hstate, hwords.1, hwords.2]
  decide +kernel

end Spider.Cli
