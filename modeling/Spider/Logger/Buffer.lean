import Spider.Logger

/-!
# The string of a thread

A call puts what it writes into the string of its thread, one text after another, and reads it
from there. The string grows as far as it may, if there is memory; if not, the pointer to it is
lost, and the string is left with a length for which there is no room.
-/

namespace Spider.Logger

open Lib Outcome CString Strings Terminal Escapes
open Threadprivdata (SpdDynamicStr helper spdDynamicStrGet grown SPD_DNMCSTR_BUILD_FAILEDD
  SPD_DNMCSTR_BUILD_RETRY)

/-- A string that holds a text. -/
structure Holds (d : SpdDynamicStr) (text : CString) : Prop where
  noNul : NoNul text
  str : ∃ behind, d.str = text ++ 0 :: behind

/-- The string after texts have been put into it: it has grown only if there is memory. -/
structure Put (env : Env) (d d' : SpdDynamicStr) : Prop where
  sound : Sound BUFSIZ d'
  same : env.room = false → d'.len = d.len

/-- There is room for the texts, or memory for it. -/
def HasRoom (env : Env) (d : SpdDynamicStr) (texts : List CString) : Prop :=
  env.room = false → ∀ text ∈ texts, ¬ Grows d BUFSIZ text

/-- What a turn of the loop of `spd_log` writes. -/
def Logchain.writes (env : Env) (m : Message) (chain : Logchain) : List (Sink × CString) :=
  if chain.marks m.level && chain.type = .console then
    if m.level ≠ .verbose then [(.stdout, header env m), (.stdout, held m.text)] else []
  else if chain.marks m.level && chain.fptr then
    if env.fprintf chain.filename then
      [(.file chain.filename, held (fileLine env m)), (.file chain.filename, held m.text)]
    else (loggingError env chain.filename).map (.stderr, ·)
  else []

/-- What a call of `spd_log` writes. -/
def St.writes (s : St) (env : Env) (m : Message) : List (Sink × CString) :=
  if s.chains = [] then
    if m.level ≠ .verbose then [(.stdout, termFilterEscapes (held m.text))] else []
  else s.chains.flatMap (Logchain.writes env m)

def St.add (s : St) (out : List (Sink × CString)) : St := { s with out := s.out ++ out }

section

variable {env : Env} {d d' d'' : SpdDynamicStr} {buf : Buffer} {text : CString} {m : Message}
  {texts texts' : List CString} {maxLen longest fuel : Nat} {s : St} {chain : Logchain} {sink : Sink}

@[simp] theorem add_nil (s : St) : s.add [] = s := by rw [St.add, List.append_nil]

@[simp] theorem add_add (s : St) (out out' : List (Sink × CString)) :
    (s.add out).add out' = s.add (out ++ out') := by
  rw [St.add, St.add, St.add, List.append_assoc]

/-! ## A text -/

theorem Holds.text_eq (h : Holds d text) : Buffer.text ⟨d, false⟩ = .ok text := by
  obtain ⟨behind, hstr⟩ := h.str
  rw [Buffer.text, hstr, cut_append_zero h.noNul, if_neg (by simp)]

theorem length_termFilterEscapes (text : CString) :
    (termFilterEscapes text).length = text.length := by
  induction text with
  | nil => rfl
  | cons c text ih => rw [termFilterEscapes, List.length_cons, ih, List.length_cons]

theorem noNul_termFilterEscapes (h : NoNul text) : NoNul (termFilterEscapes text) := by
  induction text with
  | nil => exact List.forall_mem_nil _
  | cons c text ih =>
    obtain ⟨hc, htext⟩ := List.forall_mem_cons.mp h
    rw [termFilterEscapes]
    refine List.forall_mem_cons.mpr ⟨?_, ih htext⟩
    split
    next => decide
    next => exact hc

/-- The filter works in place. -/
theorem filter_eq (h : Holds d text) : ∃ d' : SpdDynamicStr,
    Buffer.filter ⟨d, false⟩ = .ok ⟨d', false⟩ ∧ Holds d' (termFilterEscapes text) ∧
      d'.len = d.len ∧ d'.str.length = d.str.length := by
  obtain ⟨behind, hstr⟩ := h.str
  refine ⟨⟨d.len, termFilterEscapes text ++ d.str.drop text.length⟩, ?_, ?_, rfl, ?_⟩
  · rw [Buffer.filter, h.text_eq]
    rfl
  · refine ⟨noNul_termFilterEscapes h.noNul, behind, ?_⟩
    show termFilterEscapes text ++ d.str.drop text.length = _
    rw [hstr, List.drop_left]
  · show (termFilterEscapes text ++ d.str.drop text.length).length = _
    rw [hstr, List.drop_left, List.length_append, length_termFilterEscapes, ← List.length_append]

theorem Sound.front (h : Sound longest d) (hlong : longest ≤ 2 ^ 31) :
    Threadprivdata.Front d false [] where
  room := Nat.le_of_eq h.exact.symm
  bound := by
    have hle := h.le
    omega
  offset := if_neg (by simp)
  text := rfl
  fits := Or.inl h.pos
  short := by decide

/-- A text is put into a string that has room for it, or for which there is memory. -/
theorem set_eq (hu : Usual env) (h : Sound longest d) (hlong : longest ≤ 2 ^ 31)
    (htext : text.length + 1 < 2 ^ 31) (hroom : env.room = false → ¬ Grows d maxLen text)
    (fuel : Nat) : ∃ d', Buffer.set env (fuel + 2) maxLen text ⟨d, false⟩ = .ok (true, ⟨d', false⟩) ∧
      d'.len = grown d.len maxLen (text.length + 1) ∧ d'.str.length = d'.len ∧
      Holds d' (cut (text.take (d'.len - 1))) := by
  have hint : ¬ DynamicString.intMax < (([] ++ text).length + 1 : Nat) := by
    rw [DynamicString.intMax, List.nil_append]
    omega
  have hcase : env.room = true ∨ grown d.len maxLen (([] ++ text).length + 1) = d.len := by
    cases hmem : env.room with
    | true => exact .inl rfl
    | false => exact .inr (not_not.mp (hroom hmem))
  obtain ⟨str, hstr, hfront, hcall⟩ := Threadprivdata.helper_written hu.retry (h.front hlong)
    (List.forall_mem_nil _) h.exact (fun _ => rfl) hint hcase fuel
  have hpos : 0 < str.length := by
    rw [hstr]
    exact Threadprivdata.grown_pos _ _ (Nat.succ_pos _)
  obtain ⟨behind, hwritten⟩ := Threadprivdata.written_text hfront hpos text
  refine ⟨⟨str.length, Threadprivdata.written ⟨str.length, str⟩ [] text⟩, ?_, hstr,
    Threadprivdata.length_written hfront text, noNul_cut _, ?_⟩
  · have hnull : (!env.room && decide (str.length ≠ d.len)) = false := by
      rcases hcase with htrue | hsame
      · rw [htrue]
        rfl
      · rw [hstr, hsame]
        simp
    rw [Buffer.set, if_neg Bool.false_ne_true, hcall, ok_bind]
    dsimp only
    rw [hnull, decide_eq_true hu.failed]
  · obtain ⟨behind', hcut⟩ := exists_cut (text.take (str.length - 1)) behind
    exact ⟨behind', hwritten.trans hcut⟩

theorem Put.refl (h : Sound BUFSIZ d) : Put env d d := ⟨h, fun _ => rfl⟩

theorem Put.trans (h : Put env d d') (h' : Put env d' d'') : Put env d d'' :=
  ⟨h'.sound, fun hroom => (h'.same hroom).trans (h.same hroom)⟩

theorem Put.grows (h : Put env d d') (hroom : env.room = false) :
    Grows d' maxLen text ↔ Grows d maxLen text := by
  rw [Grows, Grows, h.same hroom]

theorem Put.hasRoom (h : Put env d d') (hroom : HasRoom env d texts) : HasRoom env d' texts :=
  fun hfalse text htext hgrows => hroom hfalse text htext ((h.grows hfalse).mp hgrows)

theorem HasRoom.head (h : HasRoom env d (text :: texts)) : HasRoom env d [text] := by
  intro hroom text' htext
  rw [List.mem_singleton.mp htext]
  exact h hroom text List.mem_cons_self

theorem HasRoom.tail (h : HasRoom env d (text :: texts)) : HasRoom env d texts :=
  fun hroom text' htext => h hroom text' (List.mem_cons_of_mem _ htext)

theorem HasRoom.left (h : HasRoom env d (texts ++ texts')) : HasRoom env d texts :=
  fun hroom text htext => h hroom text (List.mem_append_left _ htext)

theorem HasRoom.right (h : HasRoom env d (texts ++ texts')) : HasRoom env d texts' :=
  fun hroom text htext => h hroom text (List.mem_append_right _ htext)

/-- A string that may not become longer than `BUFSIZ` holds of a text what one of that length
    does. -/
theorem take_grown {size : Nat} (h : size ≤ BUFSIZ) (text : CString) :
    text.take (grown size BUFSIZ (text.length + 1) - 1) = text.take (BUFSIZ - 1) := by
  rw [grown]
  split
  next hgrow =>
    rw [if_neg (by decide)]
    by_cases hle : text.length + 1 ≤ BUFSIZ
    · rw [Nat.min_eq_left hle, Nat.add_sub_cancel, List.take_length,
        List.take_of_length_le (by omega)]
    · rw [Nat.min_eq_right (by omega)]
  next hgrow =>
    by_cases heq : size = BUFSIZ
    · rw [heq]
    · rw [List.take_of_length_le (by omega), List.take_of_length_le (by omega)]

/-- A text is put into the string of a message. -/
theorem setLog_eq (hu : Usual env) (h : Sound BUFSIZ d) (htext : text.length + 1 < 2 ^ 31)
    (hroom : HasRoom env d [text]) (fuel : Nat) :
    ∃ d', Buffer.set env (fuel + 2) BUFSIZ text ⟨d, false⟩ = .ok (true, ⟨d', false⟩) ∧
      Put env d d' ∧ Holds d' (held text) := by
  have hgrows : env.room = false → ¬ Grows d BUFSIZ text :=
    fun hfalse => hroom hfalse text List.mem_cons_self
  obtain ⟨d', hset, hlen, hexact, hholds⟩ := set_eq hu h (by decide) htext hgrows fuel
  refine ⟨d', hset, ⟨⟨?_, hexact, ?_⟩, ?_⟩, ?_⟩
  · rw [hlen]
    exact Threadprivdata.grown_pos _ _ (Nat.succ_pos _)
  · have hle := h.le
    rw [hlen, grown]
    split
    next =>
      rw [if_neg (by decide)]
      exact Nat.min_le_right _ _
    next => exact hle
  · exact fun hfalse => hlen.trans (not_not.mp (hgrows hfalse))
  · rw [hlen, take_grown h.le] at hholds
    exact hholds

/-- A text is put into the string of a message, and filtered. -/
theorem filterLog_eq (hput : Put env d d') (hholds : Holds d' text) : ∃ d'',
    Buffer.filter ⟨d', false⟩ = .ok ⟨d'', false⟩ ∧ Put env d d'' ∧
      Holds d'' (termFilterEscapes text) := by
  obtain ⟨d'', hfilter, hholds, hlen, hlength⟩ := filter_eq hholds
  refine ⟨d'', hfilter, ⟨⟨?_, ?_, ?_⟩, ?_⟩, hholds⟩
  · rw [hlen]
    exact hput.sound.pos
  · rw [hlen, hlength]
    exact hput.sound.exact
  · rw [hlen]
    exact hput.sound.le
  · exact fun hfalse => hlen.trans (hput.same hfalse)

theorem logText_eq (hu : Usual env) (h : Sound BUFSIZ d) (htext : text.length + 1 < 2 ^ 31)
    (hroom : HasRoom env d [text]) (sink : Sink) (s : St) (fuel : Nat) :
    ∃ d', logText env (fuel + 2) sink text s ⟨d, false⟩ =
      .ok (s.add [(sink, held text)], ⟨d', false⟩) ∧ Put env d d' := by
  obtain ⟨d', hset, hput, hholds⟩ := setLog_eq hu h htext hroom fuel
  refine ⟨d', ?_, hput⟩
  rw [logText, hset, ok_bind]
  dsimp only
  rw [if_pos rfl, hholds.text_eq]
  rfl

theorem termColor_eq (text : CString) {color : Nat} (hcolor : color ≠ 0) :
    termColor text color 0 80 = .ok (field text color) := by
  apply if_neg
  rintro (⟨hzero, -⟩ | ⟨-, hback⟩)
  · exact hcolor hzero
  · exact absurd hback (by decide)

theorem consoleLine_eq (env : Env) (m : Message) : consoleLine env m = .ok (headerLine env m) := by
  have hlevel : m.level.color ≠ 0 := by cases m.level <;> decide
  have hwhite : COLOR_BRWHITE ≠ 0 := by decide
  rw [consoleLine, termColor_eq _ hlevel, termColor_eq _ hwhite, termColor_eq _ hwhite,
    termColor_eq _ hwhite]
  rfl

theorem length_field_le (text : CString) (color : Nat) : (field text color).length ≤ 79 := by
  rw [field, List.length_take]
  exact Nat.min_le_left _ _

theorem length_dec {n : Nat} (h : n < 2 ^ 31) : (dec n).length ≤ 10 := by
  rw [dec, List.length_map]
  apply (Nat.length_toDigits_le_iff (by decide) (by decide)).mpr
  omega

theorem length_headerLine_le (hu : Usual env) (m : Message) : (headerLine env m).length ≤ 600 := by
  have h1 := length_field_le m.level.name m.level.color
  have h2 := length_field_le m.file COLOR_BRWHITE
  have h3 := length_field_le (dec m.line) COLOR_BRWHITE
  have h4 := length_field_le m.function COLOR_BRWHITE
  have hdate := hu.date
  have hpid := length_dec hu.pid
  have hlits : (lit "[").length = 1 ∧ (lit "] ").length = 2 ∧ (lit "]: ").length = 3 ∧
      (lit ":").length = 1 ∧ (lit " ").length = 1 ∧ (lit ": ").length = 2 :=
    ⟨rfl, rfl, rfl, rfl, rfl, rfl⟩
  simp only [headerLine, joined, List.length_append, hlits]
  omega

theorem length_fileLine_le (hu : Usual env) (m : Message) :
    (fileLine env m).length ≤ m.file.length + 300 := by
  have hname : m.level.name.length ≤ 7 := by cases m.level <;> decide
  have hdate := hu.date
  have hpid := length_dec hu.pid
  have hlits : (lit "[").length = 1 ∧ (lit "] ").length = 2 ∧ (lit ": ").length = 2 :=
    ⟨rfl, rfl, rfl⟩
  simp only [fileLine, List.length_append, hlits]
  omega

/-- The names and the text of a message are no longer than they may be. -/
structure Bounded (m : Message) : Prop where
  file : m.file.length ≤ LONGEST
  text : m.text.length ≤ LONGEST

theorem longest_lt {n : Nat} (h : n ≤ LONGEST + 300) : n + 1 < 2 ^ 31 := by
  rw [LONGEST] at h
  omega

theorem Bounded.text_lt (h : Bounded m) : m.text.length + 1 < 2 ^ 31 :=
  longest_lt (Nat.le_add_right_of_le h.text)

theorem Bounded.fileLine_lt (h : Bounded m) (hu : Usual env) :
    (fileLine env m).length + 1 < 2 ^ 31 :=
  longest_lt ((length_fileLine_le hu m).trans (Nat.add_le_add_right h.file 300))

theorem headerLine_lt (hu : Usual env) (m : Message) : (headerLine env m).length + 1 < 2 ^ 31 := by
  have hle := length_headerLine_le hu m
  omega

theorem logToConsole_eq (hu : Usual env) (hm : Bounded m) (h : Sound BUFSIZ d)
    (hroom : HasRoom env d [headerLine env m, m.text]) (s : St) (fuel : Nat) :
    ∃ d', logToConsole env (fuel + 2) m s ⟨d, false⟩ =
      .ok (s.add [(.stdout, header env m), (.stdout, held m.text)], ⟨d', false⟩) ∧ Put env d d' := by
  obtain ⟨d₁, hset, hput₁, hholds₁⟩ := setLog_eq hu h (headerLine_lt hu m)
    hroom.head fuel
  obtain ⟨d₂, hfilter, hput₂, hholds₂⟩ := filterLog_eq hput₁ hholds₁
  obtain ⟨d₃, hlog, hput₃⟩ := logText_eq hu hput₂.sound hm.text_lt
    (hput₂.hasRoom hroom.tail) .stdout
    (s.write .stdout [header env m]) fuel
  refine ⟨d₃, ?_, hput₂.trans hput₃⟩
  rw [logToConsole, consoleLine_eq, ok_bind, hset, ok_bind]
  dsimp only
  rw [hfilter, ok_bind, hholds₂.text_eq, ok_bind]
  exact hlog.trans (by rw [St.write, St.add, St.add, List.append_assoc]; rfl)

theorem fileLine_ne (env : Env) (m : Message) :
    spdStrlenZero (some (held (fileLine env m))) = false := by
  have hopen : lit "[" = [ch '['] := rfl
  have hline : ∃ rest, fileLine env m = ch '[' :: rest := by
    simp only [fileLine, hopen, List.cons_append]
    exact ⟨_, rfl⟩
  obtain ⟨rest, hrest⟩ := hline
  have hheld : held (fileLine env m) = ch '[' :: cut (rest.take (BUFSIZ - 2)) := by
    rw [hrest]
    rfl
  rw [hheld]
  rfl

theorem logToFile_eq (hu : Usual env) (hm : Bounded m) (h : Sound BUFSIZ d) {name : CString}
    (hroom : HasRoom env d (fileLine env m :: if env.fprintf name then [m.text] else []))
    (s : St) (fuel : Nat) :
    ∃ d', logToFile env (fuel + 2) m name s ⟨d, false⟩ =
      .ok (s.add (if env.fprintf name then
        [(.file name, held (fileLine env m)), (.file name, held m.text)]
        else (loggingError env name).map (.stderr, ·)), ⟨d', false⟩) ∧ Put env d d' := by
  obtain ⟨d₁, hset, hput₁, hholds₁⟩ := setLog_eq hu h (hm.fileLine_lt hu)
    hroom.head fuel
  rw [logToFile, hset, ok_bind]
  dsimp only
  rw [hholds₁.text_eq, ok_bind, fileLine_ne]
  cases hfprintf : env.fprintf name with
  | false => exact ⟨d₁, rfl, hput₁⟩
  | true =>
    rw [hfprintf, if_pos rfl] at hroom
    obtain ⟨d₂, hlog, hput₂⟩ := logText_eq hu hput₁.sound hm.text_lt
      (hput₁.hasRoom hroom.tail) (.file name)
      (s.write (.file name) [held (fileLine env m)]) fuel
    refine ⟨d₂, ?_, hput₁.trans hput₂⟩
    exact hlog.trans (by rw [St.write, St.add, St.add, List.append_assoc]; rfl)

/-- A turn of the loop writes what it should, if there is room for it. -/
theorem logTo_eq (hu : Usual env) (hm : Bounded m) (h : Sound BUFSIZ d)
    (hroom : HasRoom env d (chain.texts env m)) (s : St) (fuel : Nat) :
    ∃ d', logTo env (fuel + 2) m (s, ⟨d, false⟩) chain =
      .ok (s.add (chain.writes env m), ⟨d', false⟩) ∧ Put env d d' := by
  rw [Logchain.texts] at hroom
  rw [logTo, Logchain.writes]
  split
  next hmarks =>
    rw [if_pos hmarks] at hroom
    split
    next hlevel =>
      rw [if_pos hlevel] at hroom
      exact logToConsole_eq hu hm h hroom s fuel
    next => exact ⟨d, by rw [add_nil], Put.refl h⟩
  next hmarks =>
    rw [if_neg hmarks] at hroom
    split
    next hfile =>
      rw [if_pos hfile] at hroom
      exact logToFile_eq hu hm h hroom s fuel
    next => exact ⟨d, by rw [add_nil], Put.refl h⟩

theorem logLoop_eq (hu : Usual env) (hm : Bounded m) (chains : List Logchain)
    (h : Sound BUFSIZ d) (hroom : HasRoom env d (chains.flatMap (Logchain.texts env m))) (s : St)
    (fuel : Nat) : ∃ d', chains.foldlM (logTo env (fuel + 2) m) (s, ⟨d, false⟩) =
      .ok (s.add (chains.flatMap (Logchain.writes env m)), ⟨d', false⟩) ∧ Put env d d' := by
  induction chains generalizing s d with
  | nil => exact ⟨d, by rw [List.flatMap_nil, add_nil]; rfl, Put.refl h⟩
  | cons chain chains ih =>
    rw [List.flatMap_cons] at hroom
    obtain ⟨d₁, hone, hput₁⟩ := logTo_eq hu hm h hroom.left s fuel
    obtain ⟨d₂, hrest, hput₂⟩ := ih hput₁.sound (hput₁.hasRoom hroom.right)
      (s.add (chain.writes env m))
    refine ⟨d₂, ?_, hput₁.trans hput₂⟩
    rw [List.foldlM_cons, hone, ok_bind, hrest, List.flatMap_cons, add_add]

end

end Spider.Logger
