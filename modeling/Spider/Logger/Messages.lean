import Mathlib.Data.List.Forall2
import Mathlib.Data.List.Perm.Subperm
import Mathlib.Data.Nat.Bitwise
import Spider.Lib.Trim
import Spider.Logger.Buffer

/-!
# Messages reach their channels

The masks of the chains have the bits of the levels that the configuration names, so that what a
call writes is what the message is to write; what does not belong there comes from the default
settings, from files that are left open, from escapes in a message, from `SIGXFSZ`, and from a
want of memory for the strings of the threads.
-/

namespace Spider.Logger

open Lib Outcome CString Strings Terminal Escapes
open Threadprivdata (SpdDynamicStr spdDynamicStrGet)

/-! ## Masks -/

section Masks

variable {w value : CString} {level : Level} {mark lineno : Nat}

theorem word_eq_iff {level' : Level} : level.word = level'.word ↔ level = level' := by
  cases level <;> cases level' <;> decide

theorem strcasecmp_word (hw : NoNul w) (level : Level) :
    strcasecmp w level.word = 0 ↔ lower w = level.word := by
  have hword : NoNul level.word ∧ lower level.word = level.word := by
    cases level <;> exact ⟨by simp [NoNul, Level.word, lit, ch], rfl⟩
  rw [strcasecmp_eq_zero hw hword.1, hword.2]

/-- A keyword is the word of its level, in any case. -/
theorem keyword_eq_some_iff (hw : NoNul w) : keyword w = some level ↔ lower w = level.word := by
  have hcmp := strcasecmp_word hw
  unfold keyword
  constructor
  · intro h
    split at h
    next h' => exact Option.some.inj h ▸ (hcmp .error).mp h'
    next =>
    split at h
    next h' => exact Option.some.inj h ▸ (hcmp .warning).mp h'
    next =>
    split at h
    next h' => exact Option.some.inj h ▸ (hcmp .notice).mp h'
    next =>
    split at h
    next h' => exact Option.some.inj h ▸ (hcmp .debug).mp h'
    next =>
    split at h
    next h' => exact Option.some.inj h ▸ (hcmp .verbose).mp h'
    next => cases h
  · intro h
    have hother : ∀ level', level' ≠ level → ¬ strcasecmp w level'.word = 0 := by
      intro level' hne hzero
      exact hne (word_eq_iff.mp (((hcmp level').mp hzero).symm.trans h))
    have hself : strcasecmp w level.word = 0 := (hcmp level).mpr h
    show (if strcasecmp w Level.error.word = 0 then some Level.error
      else if strcasecmp w Level.warning.word = 0 then some .warning
      else if strcasecmp w Level.notice.word = 0 then some .notice
      else if strcasecmp w Level.debug.word = 0 then some .debug
      else if strcasecmp w Level.verbose.word = 0 then some .verbose
      else none) = some level
    cases level with
    | error => exact if_pos hself
    | warning => rw [if_neg (hother .error Level.noConfusion), if_pos hself]
    | notice =>
      rw [if_neg (hother .error Level.noConfusion), if_neg (hother .warning Level.noConfusion),
        if_pos hself]
    | debug =>
      rw [if_neg (hother .error Level.noConfusion), if_neg (hother .warning Level.noConfusion),
        if_neg (hother .notice Level.noConfusion), if_pos hself]
    | verbose =>
      rw [if_neg (hother .error Level.noConfusion), if_neg (hother .warning Level.noConfusion),
        if_neg (hother .notice Level.noConfusion), if_neg (hother .debug Level.noConfusion),
        if_pos hself]

theorem marks_iff {chain : Logchain} :
    chain.marks level = true ↔ chain.logmark.testBit level.number = true := by
  rw [Logchain.marks, decide_eq_true_eq, Nat.one_shiftLeft, Nat.and_two_pow]
  cases chain.logmark.testBit level.number with
  | true => simp
  | false => simp

theorem number_eq_iff {level' : Level} : level.number = level'.number ↔ level = level' := by
  cases level <;> cases level' <;> decide

/-- One word sets the bit of its level. -/
theorem testBit_component (hw : NoNul w) (res : Nat × List CString) (level : Level) :
    (component lineno res w).1.testBit level.number =
      (res.1.testBit level.number || decide (lower (spdStrip w) = level.word)) := by
  have hstrip : NoNul (spdStrip w) := fun c hc => hw c (mem_of_mem_trim hc)
  rw [component]
  by_cases hempty : spdStrlenZero (some (spdStrip w)) = true
  · rw [if_pos hempty]
    have hnil : spdStrip w = [] := List.isEmpty_iff.mp hempty
    have hne : ¬ lower (spdStrip w) = level.word := by
      rw [hnil]
      cases level <;> decide
    rw [decide_eq_false hne, Bool.or_false]
  · rw [if_neg hempty]
    cases hkey : keyword (spdStrip w) with
    | none =>
      have hne : ¬ lower (spdStrip w) = level.word := by
        intro h
        rw [(keyword_eq_some_iff hstrip).mpr h] at hkey
        cases hkey
      rw [decide_eq_false hne, Bool.or_false]
    | some level' =>
      have hword := (keyword_eq_some_iff hstrip).mp hkey
      rw [hword]
      dsimp only
      rw [Nat.testBit_or, Nat.one_shiftLeft, Nat.testBit_two_pow]
      congr 1
      rw [decide_eq_decide, number_eq_iff, word_eq_iff]

theorem mem_of_mem_splitOnP {p : UInt8 → Bool} {c : UInt8} (hw : w ∈ value.splitOnP p)
    (hc : c ∈ w) : c ∈ value := by
  induction value generalizing w with
  | nil =>
    rw [List.splitOnP_nil, List.mem_singleton] at hw
    rw [hw] at hc
    exact hc
  | cons d value ih =>
    rw [List.splitOnP_cons_eq_if_modifyHead] at hw
    split at hw
    next =>
      rcases List.mem_cons.mp hw with rfl | hw
      · exact absurd hc List.not_mem_nil
      · exact List.mem_cons_of_mem d (ih hw hc)
    next =>
      cases hsplit : value.splitOnP p with
      | nil =>
        rw [hsplit] at hw
        exact absurd hw List.not_mem_nil
      | cons w' ws =>
        rw [hsplit, List.modifyHead_cons] at hw
        rcases List.mem_cons.mp hw with rfl | hw
        · rcases List.mem_cons.mp hc with rfl | hc
          · exact List.mem_cons_self
          · exact List.mem_cons_of_mem d (ih (hsplit ▸ List.mem_cons_self) hc)
        · exact List.mem_cons_of_mem d (ih (hsplit ▸ List.mem_cons_of_mem w' hw) hc)

/-- The mask has the bits of the levels that are named. -/
theorem testBit_makeComponents (hvalue : NoNul value) (lineno : Nat) (level : Level) :
    (makeComponents value lineno).1.testBit level.number = named value level := by
  have hfold : ∀ (ws : List CString), (∀ w ∈ ws, NoNul w) → ∀ res : Nat × List CString,
      (ws.foldl (component lineno) res).1.testBit level.number =
        (res.1.testBit level.number || ws.any fun w => lower (spdStrip w) = level.word) := by
    intro ws
    induction ws with
    | nil => simp
    | cons w ws ih =>
      intro hws res
      obtain ⟨hw, hws⟩ := List.forall_mem_cons.mp hws
      rw [List.foldl_cons, ih hws, testBit_component hw, List.any_cons, Bool.or_assoc]
  have hwords : ∀ w ∈ value.splitOnP (· = ch ','), NoNul w :=
    fun w hw c hc => hvalue c (mem_of_mem_splitOnP hw hc)
  rw [makeComponents, hfold _ hwords, Nat.zero_testBit, Bool.false_or]
  rfl

end Masks

/-! ## Chains and channels -/

section Chains

variable {sys : System} {hostname : CString} {v : Logfile} {s : St} {conf : LoggerConf}

@[simp] theorem write_chains (s : St) (sink : Sink) (texts : List CString) :
    (s.write sink texts).chains = s.chains := rfl

@[simp] theorem write_handles (s : St) (sink : Sink) (texts : List CString) :
    (s.write sink texts).handles = s.handles := rfl

@[simp] theorem write_hostname (s : St) (sink : Sink) (texts : List CString) :
    (s.write sink texts).hostname = s.hostname := rfl

/-- Nothing is seen of what is written to `stderr`. -/
theorem write_stderr (s : St) (texts : List CString) :
    (s.write .stderr texts).out.filter (·.1 ≠ .stderr) = s.out.filter (·.1 ≠ .stderr) := by
  have hnone : (texts.map (Sink.stderr, ·)).filter (·.1 ≠ .stderr) = [] := by
    apply List.filter_eq_nil_iff.mpr
    intro w hw
    obtain ⟨text, -, rfl⟩ := List.mem_map.mp hw
    simp
  rw [St.write, List.filter_append, hnone, List.append_nil]

theorem strncasecmp_lit {s t : CString} (hs : NoNul s) (ht : NoNul t) (hlower : lower t = t)
    {n : Nat} (hn : t.length = n) : strncasecmp s t n = 0 ↔ (lower s).take n = t := by
  have htake : NoNul (s.take n) := fun c hc => hs c (List.mem_of_mem_take hc)
  rw [strncasecmp, List.take_of_length_le (Nat.le_of_eq hn), strcasecmp_eq_zero htake ht, hlower,
    lower, lower, List.map_take]

/-- A variable for which there is memory becomes the chain of its channel. -/
theorem makeLogchain_cases (hname : NoNul v.name) (hvalue : NoNul v.value) :
    if !v.name.isEmpty && v.calloc then
      ∃ chain warnings, makeLogchain sys hostname v = (some chain, warnings) ∧
        Matches chain (channelOf sys hostname v)
    else makeLogchain sys hostname v = (none, []) := by
  have hmarks : ∀ (type : Logtype) (fptr : Bool) (filename : CString) (level : Level),
      Logchain.marks ⟨type, (makeComponents v.value v.lineno).1, fptr, filename⟩ level =
        named v.value level := by
    intro type fptr filename level
    rw [Bool.eq_iff_iff, marks_iff, testBit_makeComponents hvalue]
  have hconsole : strncasecmp v.name (lit "console") 7 = 0 ↔
      (lower v.name).take 7 = lit "console" :=
    strncasecmp_lit hname (by simp [NoNul, lit, ch]) rfl rfl
  have hsyslog : strncasecmp v.name (lit "syslog") 6 = 0 ↔
      (lower v.name).take 6 = lit "syslog" :=
    strncasecmp_lit hname (by simp [NoNul, lit, ch]) rfl rfl
  unfold makeLogchain
  by_cases hmake : (!v.name.isEmpty && v.calloc) = true
  · have hnot : ¬ (spdStrlenZero (some v.name) || !v.calloc) = true := by
      rw [Bool.and_eq_true] at hmake
      rw [spdStrlenZero, hmake.2, Bool.not_true, Bool.or_false]
      simpa using hmake.1
    rw [if_pos hmake, if_neg hnot]
    dsimp only
    by_cases h1 : (lower v.name).take 7 = lit "console"
    · rw [if_pos (hconsole.mpr h1)]
      refine ⟨_, _, rfl, ?_, hmarks _ _ _⟩
      rw [channelOf, if_pos h1]
      rfl
    · rw [if_neg (mt hconsole.mp h1)]
      by_cases h2 : (lower v.name).take 6 = lit "syslog"
      · rw [if_pos (hsyslog.mpr h2)]
        refine ⟨_, _, rfl, ?_, hmarks _ _ _⟩
        rw [channelOf, if_neg h1, if_pos h2]
        rfl
      · rw [if_neg (mt hsyslog.mp h2)]
        cases hopen : sys.fopen (logPath hostname v.name) with
        | true =>
          refine ⟨_, _, rfl, ?_, hmarks _ _ _⟩
          rw [channelOf, if_neg h1, if_neg h2, hopen]
          rfl
        | false =>
          refine ⟨_, _, rfl, ?_, hmarks _ _ _⟩
          rw [channelOf, if_neg h1, if_neg h2, hopen]
          rfl
  · have hyes : (spdStrlenZero (some v.name) || !v.calloc) = true := by
      rw [spdStrlenZero]
      revert hmake
      cases v.name.isEmpty <;> cases v.calloc <;> decide
    rw [if_neg hmake, if_pos hyes]

/-- What the chains that are added leave of the logger. -/
structure Added (s s' : St) (channels : List Channel) : Prop where
  chains : ∃ chains, s'.chains = chains ++ s.chains ∧ List.Forall₂ Matches chains channels ∧
    s'.handles = files chains ++ s.handles
  verbosers : s'.verbosers = s.verbosers
  out : s'.out.filter (·.1 ≠ .stderr) = s.out.filter (·.1 ≠ .stderr)
  stdout : ∀ w ∈ s'.out, w.1 = .stdout → w ∈ s.out
  hostname : s'.hostname = s.hostname
  logBuf : s'.logBuf = s.logBuf
  verboseBuf : s'.verboseBuf = s.verboseBuf

theorem Added.refl (s : St) : Added s s [] where
  chains := ⟨[], rfl, List.Forall₂.nil, rfl⟩
  verbosers := rfl
  out := rfl
  stdout _ hw _ := hw
  hostname := rfl
  logBuf := rfl
  verboseBuf := rfl

theorem Added.trans {s s' s'' : St} {cs cs' : List Channel} (h : Added s s' cs)
    (h' : Added s' s'' cs') : Added s s'' (cs' ++ cs) where
  chains := by
    obtain ⟨chains, hchains, hmatches, hhandles⟩ := h.chains
    obtain ⟨chains', hchains', hmatches', hhandles'⟩ := h'.chains
    refine ⟨chains' ++ chains, ?_, List.rel_append hmatches' hmatches, ?_⟩
    · rw [hchains', hchains, List.append_assoc]
    · rw [hhandles', hhandles, files, files, files, List.filter_append, List.map_append,
        List.append_assoc]
  verbosers := h'.verbosers.trans h.verbosers
  out := h'.out.trans h.out
  stdout w hw hstdout := h.stdout w (h'.stdout w hw hstdout) hstdout
  hostname := h'.hostname.trans h.hostname
  logBuf := h'.logBuf.trans h.logBuf
  verboseBuf := h'.verboseBuf.trans h.verboseBuf

theorem mem_write_stderr {texts : List CString} {w : Sink × CString}
    (hw : w ∈ (s.write .stderr texts).out) (hstdout : w.1 = .stdout) : w ∈ s.out := by
  rcases List.mem_append.mp hw with hw | hw
  · exact hw
  · obtain ⟨text, -, rfl⟩ := List.mem_map.mp hw
    cases hstdout

theorem addLogchain_added (hname : NoNul v.name) (hvalue : NoNul v.value) (s : St) :
    Added s (addLogchain sys s v)
      (([v].filter fun v => !v.name.isEmpty && v.calloc).map (channelOf sys s.hostname)) := by
  have hcases := @makeLogchain_cases sys s.hostname v hname hvalue
  unfold addLogchain
  by_cases hmake : (!v.name.isEmpty && v.calloc) = true
  · rw [if_pos hmake] at hcases
    obtain ⟨chain, warnings, hchain, hmatches⟩ := hcases
    have hfilter : ([v].filter fun v => !v.name.isEmpty && v.calloc) = [v] :=
      List.filter_cons_of_pos hmake
    rw [hchain, hfilter]
    refine ⟨⟨[chain], rfl, List.Forall₂.cons hmatches List.Forall₂.nil, ?_⟩, rfl,
      write_stderr s warnings, fun w hw => mem_write_stderr hw, rfl, rfl, rfl⟩
    cases hfptr : chain.fptr with
    | true => simp [files, hfptr]
    | false => simp [files, hfptr]
  · rw [if_neg hmake] at hcases
    have hfilter : ([v].filter fun v => !v.name.isEmpty && v.calloc) = [] :=
      List.filter_cons_of_neg hmake
    rw [hcases, hfilter]
    exact ⟨⟨[], rfl, List.Forall₂.nil, rfl⟩, rfl, write_stderr s [],
      fun w hw => mem_write_stderr hw, rfl, rfl, rfl⟩

/-- The variables become the chains of their channels, those of the last ones first. -/
theorem addLogchains_added (vs : List Logfile) (hvs : ∀ v ∈ vs, NoNul v.name ∧ NoNul v.value)
    (s : St) : Added s (vs.foldl (addLogchain sys) s)
      ((vs.filter fun v => !v.name.isEmpty && v.calloc).map (channelOf sys s.hostname)).reverse := by
  induction vs generalizing s with
  | nil => exact Added.refl s
  | cons v vs ih =>
    obtain ⟨⟨hname, hvalue⟩, hvs⟩ := List.forall_mem_cons.mp hvs
    have hone := @addLogchain_added sys v hname hvalue s
    have hrest := ih hvs (addLogchain sys s v)
    rw [hone.hostname] at hrest
    have hboth := hone.trans hrest
    rw [List.foldl_cons]
    have hlist : ((v :: vs).filter fun v => !v.name.isEmpty && v.calloc) =
        ([v].filter fun v => !v.name.isEmpty && v.calloc) ++
          vs.filter fun v => !v.name.isEmpty && v.calloc := by
      rw [← List.filter_append]
      rfl
    rw [hlist, List.map_append, List.reverse_append]
    have hrev : ∀ cs : List Logfile, cs.length ≤ 1 →
        (cs.map (channelOf sys s.hostname)).reverse = cs.map (channelOf sys s.hostname) := by
      intro cs hcs
      rcases cs with _ | ⟨c, _ | ⟨d, cs⟩⟩
      · rfl
      · rfl
      · simp at hcs
    rw [hrev _ (List.length_filter_le _ [v])]
    exact hboth

end Chains

/-! ## Calls -/

section Calls

variable {env : Env} {m : Message} {s : St} {chain : Logchain} {channel : Channel} {t : Spec}
  {d : SpdDynamicStr} {buf : Buffer} {fuel : Nat}

/-- A thread that asks for its string gets one that is sound, if those there are are. -/
theorem getBuffer_sound {old : Option SpdDynamicStr} {longest len : Nat}
    (h : ∀ d ∈ old, Sound longest d) (hpos : 0 < len) (hle : len ≤ longest)
    (hget : getBuffer env old len = some buf) : ∃ d, buf = ⟨d, false⟩ ∧ Sound longest d := by
  rw [getBuffer] at hget
  split at hget
  next => cases hget
  next =>
    obtain rfl := Option.some.inj hget
    refine ⟨_, rfl, ?_⟩
    cases old with
    | none => exact ⟨hpos, List.length_replicate, hle⟩
    | some d =>
      have hd := h d rfl
      have hsame : spdDynamicStrGet (some d) len = d := if_neg (Nat.ne_of_gt hd.pos)
      rw [hsame]
      exact hd

theorem spdLog_none (hget : getBuffer env (s.logBuf env.thread) LOG_BUF_INIT_SIZE = none) :
    spdLog env (fuel + 1) s m = .ok s := by
  rw [spdLog, hget]

/-- A call before the signal comes, or without chains, writes what it should and returns. -/
theorem spdLog_eq (hu : Usual env) (hm : Bounded m)
    (hget : getBuffer env (s.logBuf env.thread) LOG_BUF_INIT_SIZE = some ⟨d, false⟩)
    (h : Sound BUFSIZ d) (hcalm : s.chains = [] ∨ s.filesizeReloadNeed = false)
    (hroom : HasRoom env d (s.texts env m)) (fuel : Nat) :
    ∃ d', spdLog env (fuel + 2) s m =
      .ok ((s.add (s.writes env m)).keepLog env ⟨d', false⟩) ∧ Sound BUFSIZ d' := by
  rw [St.texts] at hroom
  rw [spdLog, hget, St.writes]
  dsimp only
  by_cases hchains : s.chains = []
  · rw [if_pos hchains] at hroom
    rw [if_pos hchains, if_pos hchains]
    split
    next hlevel =>
      rw [if_pos hlevel] at hroom
      obtain ⟨d₁, hset, hput₁, hholds₁⟩ := setLog_eq hu h hm.text_lt hroom fuel
      obtain ⟨d₂, hfilter, hput₂, hholds₂⟩ := filterLog_eq hput₁ hholds₁
      refine ⟨d₂, ?_, hput₂.sound⟩
      rw [hset, ok_bind]
      dsimp only
      rw [if_pos rfl, hfilter, ok_bind, hholds₂.text_eq]
      rfl
    next => exact ⟨d, by rw [add_nil], h⟩
  · rw [if_neg hchains] at hroom
    obtain ⟨d', hloop, hput⟩ := logLoop_eq hu hm s.chains h hroom s fuel
    refine ⟨d', ?_, hput.sound⟩
    have hneed : ¬ ((s.add (s.chains.flatMap (Logchain.writes env m))).keepLog env
        ⟨d', false⟩).filesizeReloadNeed = true :=
      Bool.eq_false_iff.mp (hcalm.resolve_left hchains)
    rw [if_neg hchains, if_neg hchains, hloop, ok_bind]
    exact if_neg hneed

/-- What a chain writes, but for `stderr`, is what its channel is to get, if that needs no filter. -/
theorem writes_eq_outputs (h : Matches chain channel) (hplain : channel.kind = .console →
      channel.levels m.level = true → m.level ≠ .verbose →
      termFilterEscapes (held m.text) = held m.text) :
    (chain.writes env m).filter (·.1 ≠ .stderr) = channel.outputs env m := by
  have hlevels := h.levels m.level
  have hkind := h.kind
  unfold Logchain.writes Channel.outputs
  rw [hlevels, ← hkind, Logchain.kind]
  cases hmarks : channel.levels m.level with
  | false => simp
  | true =>
    simp only [Bool.true_and]
    by_cases hconsole : chain.type = .console
    · rw [if_pos (decide_eq_true hconsole), if_pos trivial, if_pos hconsole]
      by_cases hlevel : m.level ≠ .verbose
      · have htext := hplain (hkind.symm.trans (if_pos hconsole)) hmarks hlevel
        rw [if_pos hlevel]
        dsimp only
        rw [if_pos hlevel, htext]
        rfl
      · rw [if_neg hlevel]
        dsimp only
        rw [if_neg hlevel]
        rfl
    · rw [if_neg (by simpa using hconsole), if_neg hconsole, if_pos trivial]
      cases hfptr : chain.fptr with
      | false => rfl
      | true =>
        simp only [if_true]
        cases hfprintf : env.fprintf chain.filename with
        | true => rfl
        | false => rfl

/-- A message is plain for channels unless it has escapes that a console should not get. -/
def Plain (m : Message) (channels : List Channel) : Prop :=
  m.level ≠ .verbose → termFilterEscapes (held m.text) ≠ held m.text →
    channels.any (fun channel => channel.kind = .console && channel.levels m.level) = false

theorem plain_of_not_unfiltered (h : ¬ Unfiltered t m) : Plain m t.channels := by
  intro hlevel hne
  by_contra hany
  exact h ⟨hlevel, hne, Bool.eq_true_of_not_eq_false hany⟩

/-- What a call writes, but for `stderr`, is what the message is to write. -/
theorem writes_eq (h : List.Forall₂ Matches s.chains t.channels) (env : Env) {m : Message}
    (hplain : Plain m t.channels) :
    (s.writes env m).filter (·.1 ≠ .stderr) = t.outputs env m := by
  have hloop : ∀ (chains : List Logchain) (channels : List Channel),
      List.Forall₂ Matches chains channels → Plain m channels →
      (chains.flatMap (Logchain.writes env m)).filter (·.1 ≠ .stderr) =
        channels.flatMap (Channel.outputs env m) := by
    intro chains channels hall
    induction hall with
    | nil => exact fun _ => rfl
    | @cons chain channel chains channels hmatches hall ih =>
      intro hplain
      have hrest : Plain m channels := by
        intro hlevel hne
        have hcons := hplain hlevel hne
        rw [List.any_cons, Bool.or_eq_false_iff] at hcons
        exact hcons.2
      rw [List.flatMap_cons, List.flatMap_cons, List.filter_append, ih hrest,
        writes_eq_outputs hmatches]
      intro hkind hlevels hlevel
      by_contra hne
      have hcons := hplain hlevel hne
      rw [List.any_cons, hkind, hlevels] at hcons
      cases hcons
  have hempty : t.channels.isEmpty = decide (s.chains = []) := by
    rw [Bool.eq_iff_iff, List.isEmpty_iff, decide_eq_true_eq, ← List.length_eq_zero_iff,
      ← List.length_eq_zero_iff, h.length_eq]
  rw [St.writes, Spec.outputs, hempty]
  by_cases hchains : s.chains = []
  · rw [if_pos hchains, if_pos (decide_eq_true hchains)]
    split
    next => rfl
    next => rfl
  · rw [if_neg hchains, if_neg (by simpa using hchains)]
    exact hloop _ _ h hplain

/-- What is to be written to `stdout` has been filtered. -/
theorem outputs_filtered (t : Spec) (env : Env) (m : Message) :
    ∀ w ∈ t.outputs env m, w.1 = .stdout → termFilterEscapes w.2 = w.2 := by
  have hchannel : ∀ channel : Channel, ∀ w ∈ channel.outputs env m, w.1 = .stdout →
      termFilterEscapes w.2 = w.2 := by
    intro channel w hw hstdout
    unfold Channel.outputs at hw
    split at hw
    next =>
      split at hw
      next =>
        split at hw
        next =>
          rcases List.mem_pair.mp hw with rfl | rfl <;> exact termFilterEscapes_filtered _
        next => exact absurd hw List.not_mem_nil
      next =>
        split at hw
        next => rcases List.mem_pair.mp hw with rfl | rfl <;> cases hstdout
        next => exact absurd hw List.not_mem_nil
      next => exact absurd hw List.not_mem_nil
    next => exact absurd hw List.not_mem_nil
  intro w hw hstdout
  unfold Spec.outputs at hw
  split at hw
  next =>
    split at hw
    next =>
      rw [List.mem_singleton.mp hw]
      exact termFilterEscapes_filtered _
    next => exact absurd hw List.not_mem_nil
  next =>
    obtain ⟨channel, -, hw⟩ := List.mem_flatMap.mp hw
    exact hchannel channel w hw hstdout

theorem verbosers_foldl (fs : List Nat) (text : CString) (s : St) :
    fs.foldl (fun s f => s.write (.verboser f) [text]) s =
      s.add (fs.map fun f => (Sink.verboser f, text)) := by
  induction fs generalizing s with
  | nil => rw [List.map_nil, St.add, List.append_nil, List.foldl_nil]
  | cons f fs ih =>
    rw [List.foldl_cons, ih, List.map_cons, St.add, St.add, St.write, List.append_assoc]
    rfl

end Calls

/-! ## Each step -/

section Steps

variable {σ : Sys} {fuel : Nat}

/-- A call writes what it is to write. -/
theorem Inv.add (h : Inv σ) {out outputs : List (Sink × CString)}
    (hout : out.filter (·.1 ≠ .stderr) = outputs)
    (hfiltered : ∀ w ∈ outputs, w.1 = .stdout → termFilterEscapes w.2 = w.2) :
    Inv ⟨σ.con.add out, { σ.spec with out := σ.spec.out ++ outputs }⟩ where
  chains := h.chains
  verbosers := h.verbosers
  out := by
    show (σ.con.out ++ out).filter _ = σ.spec.out ++ outputs
    rw [List.filter_append, h.out, hout]
  handles := h.handles
  logBuf := h.logBuf
  verboseBuf := h.verboseBuf
  filtered := List.forall_mem_append.mpr ⟨h.filtered, hfiltered⟩

theorem sound_update {strings : Nat → Option SpdDynamicStr} {longest : Nat}
    (h : ∀ i, ∀ d ∈ strings i, Sound longest d) (thread : Nat) {d : SpdDynamicStr}
    (hd : Sound longest d) :
    ∀ i, ∀ d' ∈ Function.update strings thread (some d) i, Sound longest d' := by
  intro i d' hd'
  by_cases hi : i = thread
  · rw [hi, Function.update_self] at hd'
    rw [← Option.some.inj hd']
    exact hd
  · rw [Function.update_of_ne hi] at hd'
    exact h i d' hd'

theorem Inv.keepLog (h : Inv σ) (env : Env) {d : SpdDynamicStr} (hd : Sound BUFSIZ d) :
    Inv ⟨σ.con.keepLog env ⟨d, false⟩, σ.spec⟩ where
  chains := h.chains
  verbosers := h.verbosers
  out := h.out
  handles := h.handles
  logBuf := sound_update h.logBuf env.thread hd
  verboseBuf := h.verboseBuf
  filtered := h.filtered

theorem Inv.keepVerbose (h : Inv σ) (env : Env) {d : SpdDynamicStr} (hd : Sound (2 ^ 31) d) :
    Inv ⟨σ.con.keepVerbose env ⟨d, false⟩, σ.spec⟩ where
  chains := h.chains
  verbosers := h.verbosers
  out := h.out
  handles := h.handles
  logBuf := h.logBuf
  verboseBuf := sound_update h.verboseBuf env.thread hd
  filtered := h.filtered

theorem Inv.isEmpty (h : Inv σ) : σ.spec.channels.isEmpty = true ↔ σ.con.chains = [] := by
  have hlength := h.chains.length_eq
  rw [List.isEmpty_iff, ← List.length_eq_zero_iff, ← List.length_eq_zero_iff, hlength]

/-- A call of `spd_log` that does not fail. -/
theorem log_call (h : Inv σ) {env : Env} {m : Message} (hu : Usual env) (hm : Bounded m)
    (hq : ¬ LogFails σ env m) (fuel : Nat) : ∃ con, spdLog env (fuel + 2) σ.con m = .ok con ∧
      Inv ⟨con, { σ.spec with out := σ.spec.out ++ σ.spec.outputs env m }⟩ := by
  rw [LogFails, not_or] at hq
  obtain ⟨hnone, hsome⟩ := hq
  cases hget : getBuffer env (σ.con.logBuf env.thread) LOG_BUF_INIT_SIZE with
  | none =>
    have houtputs : σ.spec.outputs env m = [] := by
      by_contra hne
      exact hnone ⟨hget, hne⟩
    refine ⟨σ.con, spdLog_none hget, ?_⟩
    rw [houtputs, List.append_nil]
    exact h
  | some buf =>
    obtain ⟨d, rfl, hd⟩ := getBuffer_sound (h.logBuf env.thread) (by decide) (by decide) hget
    have hgood : ¬ (_ ∨ _) := fun hbad => hsome ⟨_, hget, hbad⟩
    rw [not_or, not_or] at hgood
    obtain ⟨hneed, hfilter, hmem⟩ := hgood
    have hcalm : σ.con.chains = [] ∨ σ.con.filesizeReloadNeed = false := by
      by_contra hnot
      rw [not_or, Bool.not_eq_false] at hnot
      exact hneed hnot
    have hroom : HasRoom env d (σ.con.texts env m) :=
      fun hfalse text htext hgrows => hmem ⟨hfalse, text, htext, hgrows⟩
    obtain ⟨d', hcall, hd'⟩ := spdLog_eq hu hm hget hd hcalm hroom fuel
    refine ⟨_, hcall, ?_⟩
    have hout := writes_eq h.chains env (plain_of_not_unfiltered hfilter)
    exact (h.add hout (outputs_filtered σ.spec env m)).keepLog env hd'

theorem step_log (h : Inv σ) {env : Env} {m : Message} (he : Enabled σ (.log env m))
    (hq : ¬ Fails σ (.log env m)) : ∃ σ', step (fuel + 2) σ (.log env m) = .ok σ' ∧ Inv σ' := by
  obtain ⟨hu, hfile, htext⟩ := he
  obtain ⟨con, hcall, hinv⟩ := log_call h hu ⟨hfile, htext⟩ hq fuel
  refine ⟨_, ?_, hinv⟩
  rw [step, St.step, hcall]
  rfl

theorem length_spoken_tail (text : CString) : (spoken text).tail.length = (cut text).length := by
  rw [spoken, List.length_tail, length_termFilterEscapes, List.length_cons, Nat.add_sub_cancel]

theorem bounded_verboseMessage {text : CString} (h : text.length ≤ LONGEST) :
    Bounded (verboseMessage text) where
  file := by
    have hlength : (lit "logger.c").length = 8 := rfl
    rw [verboseMessage, hlength]
    decide
  text := (length_spoken_tail text).trans_le ((length_cut_le text).trans h)

/-- The text for the verbosers is put into the string of the thread, and filtered. -/
theorem setVerbose_eq {env : Env} {d : SpdDynamicStr} {text : CString} (hu : Usual env)
    (hd : Sound (2 ^ 31) d) (htext : text.length ≤ LONGEST)
    (hroom : env.room = false → ¬ Grows d 0 (127 :: text)) (fuel : Nat) :
    ∃ d₁ d₂, Buffer.set env (fuel + 2) 0 (127 :: text) ⟨d, false⟩ = .ok (true, ⟨d₁, false⟩) ∧
      Buffer.filter ⟨d₁, false⟩ = .ok ⟨d₂, false⟩ ∧ Holds d₂ (spoken text) ∧
      Sound (2 ^ 31) d₂ := by
  have hlt : (127 :: text).length + 1 < 2 ^ 31 := by
    apply longest_lt
    rw [List.length_cons]
    omega
  obtain ⟨d₁, hset, hlen, hexact, hholds⟩ := set_eq hu hd (Nat.le_refl _) hlt hroom fuel
  have hle : (127 :: text).length ≤ d₁.len - 1 := by
    rw [hlen, Threadprivdata.grown]
    split
    next => rw [if_pos rfl]; exact Nat.le_refl _
    next hgrow =>
      rw [not_and_or, not_or] at hgrow
      rcases hgrow with hgrow | hgrow
      · omega
      · exact absurd rfl hgrow.1
  rw [List.take_of_length_le hle] at hholds
  obtain ⟨d₂, hfilter, hholds₂, hlen₂, hlength₂⟩ := filter_eq hholds
  refine ⟨d₁, d₂, hset, hfilter, hholds₂, ?_, ?_, ?_⟩
  · rw [hlen₂]
    rw [List.length_cons] at hle
    omega
  · rw [hlength₂, hlen₂, hexact]
  · have hmax := Threadprivdata.grown_le d.len 0 ((127 :: text).length + 1)
    have hbound := hd.le
    rw [hlen₂, hlen]
    omega

/-- The state in which the message of the verbosers is logged. -/
def Sys.spoken (σ : Sys) (env : Env) (text : CString) (d : SpdDynamicStr) : Sys :=
  let out := σ.con.verbosers.map (Sink.verboser ·, Logger.spoken text)
  ⟨(σ.con.add out).keepVerbose env ⟨d, false⟩, { σ.spec with out := σ.spec.out ++ out }⟩

theorem Inv.spoken (h : Inv σ) (env : Env) (text : CString) {d : SpdDynamicStr}
    (hd : Sound (2 ^ 31) d) : Inv (σ.spoken env text d) := by
  have hverbosers : ((σ.con.verbosers.map fun f => (Sink.verboser f, Logger.spoken text)).filter
      (·.1 ≠ .stderr)) = σ.con.verbosers.map fun f => (Sink.verboser f, Logger.spoken text) := by
    apply List.filter_eq_self.mpr
    intro w hw
    obtain ⟨f, -, rfl⟩ := List.mem_map.mp hw
    exact decide_eq_true Sink.noConfusion
  refine (h.add hverbosers ?_).keepVerbose env hd
  intro w hw hstdout
  obtain ⟨f, -, rfl⟩ := List.mem_map.mp hw
  cases hstdout

/-- A text for which there is a string is given to the verbosers, and logged as a message. -/
theorem spdVerbose_eq (h : Inv σ) {env : Env} {d : SpdDynamicStr} {text : CString}
    (hu : Usual env) (hget : getBuffer env (σ.con.verboseBuf env.thread) VERBOSE_BUF_INIT_SIZE =
      some ⟨d, false⟩) (hd : Sound (2 ^ 31) d) (htext : text.length ≤ LONGEST)
    (hroom : env.room = false → ¬ Grows d 0 (127 :: text)) (fuel : Nat) :
    ∃ d', Sound (2 ^ 31) d' ∧ step (fuel + 2) σ (.verbose env text) =
      step (fuel + 2) (σ.spoken env text d') (.log env (verboseMessage text)) := by
  obtain ⟨d₁, d₂, hset, hfilter, hholds, hsound⟩ := setVerbose_eq hu hd htext hroom fuel
  refine ⟨d₂, hsound, ?_⟩
  have hspec : σ.spec.step (.verbose env text) =
      (σ.spoken env text d₂).spec.step (.log env (verboseMessage text)) := by
    show { σ.spec with out := σ.spec.out ++ (σ.spec.verbosers.map (Sink.verboser ·, spoken text) ++
      σ.spec.outputs env (verboseMessage text)) } = _
    rw [← List.append_assoc, ← h.verbosers]
    rfl
  rw [step, hspec, St.step, spdVerbose, hget]
  dsimp only
  rw [hset, ok_bind]
  dsimp only
  rw [if_pos rfl, hfilter, ok_bind, hholds.text_eq, ok_bind, verbosers_foldl]
  rfl

/-- A text for the verbosers reaches them, and then the channels. -/
theorem step_verbose (h : Inv σ) {env : Env} {text : CString} (he : Enabled σ (.verbose env text))
    (hq : ¬ Fails σ (.verbose env text)) :
    ∃ σ', step (fuel + 2) σ (.verbose env text) = .ok σ' ∧ Inv σ' := by
  obtain ⟨hu, htext⟩ := he
  rw [Fails, VerboseFails, not_or] at hq
  obtain ⟨hnone, hsome⟩ := hq
  cases hget : getBuffer env (σ.con.verboseBuf env.thread) VERBOSE_BUF_INIT_SIZE with
  | none =>
    have houtputs : σ.spec.verboseOutputs env text = [] := by
      by_contra hne
      exact hnone ⟨hget, hne⟩
    refine ⟨σ, ?_, h⟩
    rw [step, Spec.step, houtputs, List.append_nil, St.step, spdVerbose, hget]
    rfl
  | some buf =>
    obtain ⟨d, rfl, hd⟩ := getBuffer_sound (h.verboseBuf env.thread) (by decide) (by decide) hget
    have hgood : ¬ (_ ∨ _) := fun hbad => hsome ⟨_, hget, hbad⟩
    rw [not_or] at hgood
    obtain ⟨hmem, hlog⟩ := hgood
    obtain ⟨d', hd', hstep⟩ := spdVerbose_eq h hu hget hd htext
      (fun hfalse hgrows => hmem ⟨hfalse, hgrows⟩) fuel
    rw [hstep]
    have hm := bounded_verboseMessage htext
    exact step_log (h.spoken env text hd') ⟨hu, hm.file, hm.text⟩ hlog

/-- The chains that are made anew are the channels of the configuration, when no file is open. -/
theorem step_init (h : Inv σ) {sys : System} {cfg : Option LoggerConf} {calloc : Bool}
    (he : Enabled σ (.init sys cfg calloc)) (hq : ¬ Fails σ (.init sys cfg calloc)) :
    ∃ σ', step (fuel + 2) σ (.init sys cfg calloc) = .ok σ' ∧ Inv σ' := by
  rw [Fails, not_or, not_not] at hq
  obtain ⟨hdefault, hhandles⟩ := hq
  refine ⟨_, rfl, ?_⟩
  cases cfg with
  | none =>
    have hcalloc : calloc = false := by simpa using hdefault
    subst hcalloc
    refine ⟨List.Forall₂.nil, h.verbosers, ?_, ?_, h.logBuf, h.verboseBuf, h.filtered⟩
    · exact (write_stderr { σ.con with handler := true, chains := [] } _).trans h.out
    · show σ.con.handles.Perm []
      rw [hhandles]
  | some conf =>
    have hadded := @addLogchains_added sys conf.logfiles (he conf rfl)
      { σ.con with handler := true, chains := [], hostname := hostnameOf sys conf }
    obtain ⟨chains, hchains, hmatches, hfiles⟩ := hadded.chains
    have hchains : (conf.logfiles.foldl (addLogchain sys) { σ.con with
        handler := true, chains := [], hostname := hostnameOf sys conf }).chains = chains :=
      hchains.trans (List.append_nil chains)
    refine ⟨?_, hadded.verbosers.trans h.verbosers, hadded.out.trans h.out, ?_,
      fun i d hd => h.logBuf i d (hadded.logBuf ▸ hd),
      fun i d hd => h.verboseBuf i d (hadded.verboseBuf ▸ hd), h.filtered⟩
    · show List.Forall₂ Matches (conf.logfiles.foldl (addLogchain sys) _).chains _
      rw [hchains]
      exact hmatches
    · show (conf.logfiles.foldl (addLogchain sys) _).handles.Perm
        (files (conf.logfiles.foldl (addLogchain sys) _).chains)
      rw [hfiles, hchains]
      show (files chains ++ σ.con.handles).Perm _
      rw [hhandles, List.append_nil]

theorem diff_self (l : List CString) : l.diff l = [] := by
  induction l with
  | nil => rfl
  | cons c l ih => rw [List.diff_cons, List.erase_cons_head, ih]

theorem step_close (h : Inv σ) : ∃ σ', step (fuel + 2) σ .close = .ok σ' ∧ Inv σ' := by
  refine ⟨_, rfl, ?_, h.verbosers, h.out, ?_, h.logBuf, h.verboseBuf, h.filtered⟩
  · show List.Forall₂ Matches (σ.con.chains.map _) (σ.spec.channels.map _)
    rw [List.forall₂_map_left_iff, List.forall₂_map_right_iff]
    apply h.chains.imp
    intro chain channel hmatches
    have hkind := hmatches.kind
    rw [Logchain.kind] at hkind
    constructor
    · rw [Logchain.kind]
      dsimp only
      by_cases hconsole : chain.type = .console
      · rw [if_pos hconsole] at hkind ⊢
        rw [← hkind]
        exact hkind
      · rw [if_neg hconsole] at hkind ⊢
        rw [if_neg Bool.false_ne_true]
        split at hkind
        next => rw [← hkind]
        next =>
          rw [← hkind]
          exact hkind
    · intro level
      have hlevels := hmatches.levels level
      split
      next => exact hlevels
      next => exact hlevels
  · have hnone : files (σ.con.chains.map fun chain => { chain with fptr := false }) = [] := by
      rw [files, List.map_eq_nil_iff, List.filter_eq_nil_iff]
      intro chain hchain
      obtain ⟨c, -, rfl⟩ := List.mem_map.mp hchain
      exact Bool.false_ne_true
    show (σ.con.handles.diff (files σ.con.chains)).Perm (files (σ.con.chains.map _))
    rw [hnone]
    have hperm := h.handles.diff_right (files σ.con.chains)
    rwa [diff_self] at hperm

theorem step_inv (h : Inv σ) (o : Op) (he : Enabled σ o) (hq : ¬ Fails σ o) :
    ∃ σ', step (fuel + 2) σ o = .ok σ' ∧ Inv σ' := by
  cases o with
  | init sys cfg calloc => exact step_init h he hq
  | close => exact step_close h
  | sigxfsz =>
    exact ⟨_, rfl, h.chains, h.verbosers, h.out, h.handles, h.logBuf, h.verboseBuf, h.filtered⟩
  | log env m => exact step_log h he hq
  | verbose env text => exact step_verbose h he hq
  | registerVerbose f =>
    exact ⟨_, rfl, h.chains, congrArg (f :: ·) h.verbosers, h.out, h.handles, h.logBuf,
      h.verboseBuf, h.filtered⟩
  | unregisterVerbose f =>
    exact ⟨_, rfl, h.chains, congrArg (·.erase f) h.verbosers, h.out, h.handles, h.logBuf,
      h.verboseBuf, h.filtered⟩

end Steps

/-- Nothing has been initialised or written. -/
def start : Sys :=
  ⟨⟨[], [], false, false, [], [], fun _ => none, fun _ => none, []⟩, ⟨[], [], []⟩⟩

theorem inv_start : Inv start where
  chains := List.Forall₂.nil
  verbosers := rfl
  out := rfl
  handles := List.Perm.refl []
  logBuf _ _ hd := by cases hd
  verboseBuf _ _ hd := by cases hd
  filtered _ hw := absurd hw List.not_mem_nil

/-- A console and two files, one of which cannot be opened; messages to them, which the string of
    one thread has to grow for, and one for a verboser, for which there is no memory but room in
    the strings; then the files are closed. -/
def session : List Op :=
  let sys : System := ⟨fun name => name = lit "/var/log/spider/messages", lit "denied", none⟩
  let env (room : Bool) : Env :=
    ⟨1, room, ⟨fun _ => 0, 0⟩, lit "Jan  1", 7, fun _ => true, false, []⟩
  let message (level : Level) : Message := ⟨level, lit "a.c", 7, lit "f", lit "text\n"⟩
  let conf : LoggerConf := ⟨none, [⟨lit "Console", lit "notice, WARNING", 2, true⟩,
    ⟨lit "messages", lit "error", 3, true⟩, ⟨lit "/tmp/debug", lit "all", 4, true⟩]⟩
  [.init sys (some conf) true, .registerVerbose 1, .log (env true) (message .warning),
    .log (env false) (message .error), .verbose (env true) (ESC :: lit "[2J"),
    .verbose (env false) (lit "text"), .close, .sigxfsz]

end Spider.Logger
