import Spider.Logger.Buffer

/-!
# What the console shows

In front of a message on a console `spd_log` writes the date, the level, the process and the
place in the source, four of them in colour. A name for which its buffer has room is shown as it
is, and the pen is set back behind it.
-/

namespace Spider.Logger

open Lib Outcome CString Strings Terminal Escapes
open Threadprivdata (SpdDynamicStr)

/-- A text in a pen. -/
def inPen (text : CString) (pen : Pen) : List (UInt8 × Pen) := text.map (·, pen)

/-- What stands in front of a message, as it is to be shown; `pen` is that of the terminal. -/
def shownHeader (pen : Pen) (env : Env) (m : Message) : List (UInt8 × Pen) :=
  let white := penOf whiteOnBlack COLOR_BRWHITE 0
  inPen (lit "[" ++ env.date ++ lit "] ") pen ++
    inPen m.level.name (penOf pen m.level.color 0) ++
    inPen (lit "[" ++ dec env.pid ++ lit "]: ") whiteOnBlack ++ inPen m.file white ++
    inPen (lit ":") whiteOnBlack ++ inPen (dec m.line) white ++ inPen (lit " ") whiteOnBlack ++
    inPen m.function white ++ inPen (lit ": ") whiteOnBlack

/-- A name that is a string without escapes. -/
def IsName (name : CString) : Prop := NoNul name ∧ ESC ∉ name

/-- The names are without escapes and there is room for them in their buffers. -/
structure Fits (env : Env) (m : Message) : Prop where
  date : IsName env.date
  file : IsName m.file
  file_le : m.file.length ≤ 59
  line : m.line < 2 ^ 31
  function : IsName m.function
  function_le : m.function.length ≤ 59

section

variable {text rest : CString} {color n : Nat} {t : Term} {env : Env} {m : Message}

theorem isName_dec (n : Nat) : IsName (dec n) := by
  refine ⟨?_, fun h => (param_dec h).2.1 rfl⟩
  intro c hc hzero
  have hlo := (mem_dec hc).1
  rw [hzero] at hlo
  exact absurd hlo (by decide)

/-- A colour that a field is written in: the filter lets what sets it pass. -/
structure OfField (color : Nat) : Prop where
  isColor : IsColor color
  length_le : (colors color 0).length ≤ 7
  noNul : NoNul (colors color 0)
  digit : ∃ d ds, colors color 0 = d :: ds ∧ colorDigit d = true

theorem ofField_level (level : Level) : OfField level.color := by
  refine ⟨?_, ?_, ?_, ?_⟩
  · cases level <;> exact Or.inr (by decide)
  · cases level <;> decide
  · cases level <;> decide +kernel
  · cases level with
    | verbose => exact ⟨0x33, _, rfl, by decide⟩
    | _ => exact ⟨0x31, _, rfl, by decide⟩

theorem ofField_white : OfField COLOR_BRWHITE :=
  ⟨Or.inr (by decide), by decide, by decide +kernel, 0x31, _, rfl, by decide⟩

theorem field_eq (h : OfField color) (htext : text.length ≤ 59) :
    field text color = colored text color 0 := by
  have hlength := length_colored text color 0
  have hle := h.length_le
  exact List.take_of_length_le (by omega)

theorem noNul_field (h : OfField color) (htext : NoNul text) : NoNul (field text color) := by
  intro c hc
  have hc := List.mem_of_mem_take hc
  have hback : NoNul (selecting back) := by decide +kernel
  rw [colored, selecting, List.mem_append, List.mem_append, List.mem_append, List.mem_append] at hc
  rcases hc with (((hc | hc) | hc) | hc) | hc
  · rcases List.mem_pair.mp hc with rfl | rfl <;> decide
  · exact h.noNul c hc
  · rw [List.mem_singleton.mp hc]
    decide
  · exact htext c hc
  · exact hback c hc

/-- A text in colour is left as it is by the filter. -/
theorem filter_colored (h : OfField color) (htext : ESC ∉ text) (rest : CString) :
    termFilterEscapes (colored text color 0 ++ rest) =
      colored text color 0 ++ termFilterEscapes rest := by
  have hparams : ESC ∉ colors color 0 := fun hmem =>
    (colors_params color 0 ESC hmem).2 rfl
  have hback : ESC ∉ back := fun hmem => (back_params ESC hmem).2 rfl
  have hdigit : ∃ d ds, back = d :: ds ∧ colorDigit d = true := ⟨0x30, _, rfl, by decide⟩
  rw [colored, List.append_assoc, List.append_assoc, termFilterEscapes_selecting hparams h.digit,
    termFilterEscapes_plain htext, termFilterEscapes_selecting hback hdigit, List.append_assoc,
    List.append_assoc]

/-- A text in colour, and what is behind it, on a terminal. -/
theorem feed_field (h : OfField color) (htext : ESC ∉ text) (rest : CString) (pen : Pen)
    (shown : List (UInt8 × Pen)) (commands : List (List UInt8 × UInt8)) :
    Term.feed ⟨.ground, pen, shown, commands⟩ (colored text color 0 ++ rest) =
      Term.feed ⟨.ground, whiteOnBlack, shown ++ inPen text (penOf pen color 0), commands⟩
        rest := by
  rw [feed_append, feed_colored h.isColor (Or.inl rfl) htext]
  rfl

theorem feed_text (htext : ESC ∉ text) (rest : CString) (pen : Pen)
    (shown : List (UInt8 × Pen)) (commands : List (List UInt8 × UInt8)) :
    Term.feed ⟨.ground, pen, shown, commands⟩ (text ++ rest) =
      Term.feed ⟨.ground, pen, shown ++ inPen text pen, commands⟩ rest := by
  rw [feed_append, feed_plain rfl htext]
  rfl

theorem isName_level (level : Level) : level.name.length ≤ 59 ∧ IsName level.name := by
  cases level <;> exact ⟨by decide, by simp [NoNul, Level.name, lit, ch], by decide⟩

/-- The whole of the line is held by the string, and read. -/
theorem held_headerLine (hu : Usual env) (h : Fits env m) :
    held (headerLine env m) = headerLine env m := by
  have hle := length_headerLine_le hu m
  have hwhite := ofField_white
  rw [held, List.take_of_length_le (by rw [BUFSIZ]; omega)]
  apply cut_of_noNul
  have hlits : NoNul (lit "[") ∧ NoNul (lit "] ") ∧ NoNul (lit "]: ") ∧ NoNul (lit ":") ∧
      NoNul (lit " ") ∧ NoNul (lit ": ") := by simp [NoNul, lit, ch]
  have hname := noNul_field (ofField_level m.level) (isName_level m.level).2.1
  have hfile := noNul_field hwhite h.file.1
  have hline := noNul_field hwhite (isName_dec m.line).1
  have hfunction := noNul_field hwhite h.function.1
  have hpid := (isName_dec env.pid).1
  simp only [headerLine, joined, noNul_append, hlits, h.date.1, hname, hpid, hfile, hline, hfunction,
    and_self]

theorem esc_notMem_opening (h : Fits env m) : ESC ∉ lit "[" ++ env.date ++ lit "] " := by
  have hlits : ESC ∉ lit "[" ∧ ESC ∉ lit "] " := by decide
  simp only [List.mem_append, not_or]
  exact ⟨⟨hlits.1, h.date.2⟩, hlits.2⟩

theorem esc_notMem_process (env : Env) : ESC ∉ lit "[" ++ dec env.pid ++ lit "]: " := by
  have hlits : ESC ∉ lit "[" ∧ ESC ∉ lit "]: " := by decide
  simp only [List.mem_append, not_or]
  exact ⟨⟨hlits.1, (isName_dec env.pid).2⟩, hlits.2⟩

theorem esc_notMem_marks : ESC ∉ lit ":" ∧ ESC ∉ lit " " ∧ ESC ∉ lit ": " := by decide

/-- The filter finds no other escapes in the line than those of the colours. -/
theorem header_eq (hu : Usual env) (h : Fits env m) :
    header env m = (lit "[" ++ env.date ++ lit "] ") ++
      (colored m.level.name m.level.color 0 ++ ((lit "[" ++ dec env.pid ++ lit "]: ") ++
      (colored m.file COLOR_BRWHITE 0 ++ (lit ":" ++ (colored (dec m.line) COLOR_BRWHITE 0 ++
      (lit " " ++ (colored m.function COLOR_BRWHITE 0 ++ lit ": "))))))) := by
  have hwhite := ofField_white
  have hlevel := ofField_level m.level
  have hname := isName_level m.level
  have hline := length_dec h.line
  have hopen := esc_notMem_opening h
  have hprocess := esc_notMem_process env
  obtain ⟨hcolon, hspace, hlast⟩ := esc_notMem_marks
  rw [header, held_headerLine hu h, headerLine, joined, field_eq hlevel hname.1,
    field_eq hwhite h.file_le, field_eq hwhite (by omega), field_eq hwhite h.function_le]
  have hend := termFilterEscapes_plain hlast []
  rw [List.append_nil] at hend
  simp only [List.append_assoc]
  simp only [← List.append_assoc (lit "["), ← List.append_assoc (lit "[" ++ _)]
  rw [termFilterEscapes_plain hopen, filter_colored hlevel hname.2.2,
    termFilterEscapes_plain hprocess, filter_colored hwhite h.file.2, termFilterEscapes_plain hcolon,
    filter_colored hwhite (isName_dec m.line).2, termFilterEscapes_plain hspace,
    filter_colored hwhite h.function.2, hend]
  rfl

/-- A terminal that is given the line. -/
theorem feed_header (hu : Usual env) (h : Fits env m) (hmode : t.mode = .ground) :
    t.feed (header env m) = { t with
      pen := whiteOnBlack
      shown := t.shown ++ shownHeader t.pen env m } := by
  have hwhite := ofField_white
  have hopen := esc_notMem_opening h
  have hprocess := esc_notMem_process env
  obtain ⟨hcolon, hspace, hlast⟩ := esc_notMem_marks
  obtain ⟨mode, pen, shown, commands⟩ := t
  obtain rfl := hmode
  rw [header_eq hu h, feed_text hopen, feed_field (ofField_level m.level) (isName_level m.level).2.2,
    feed_text hprocess, feed_field hwhite h.file.2, feed_text hcolon,
    feed_field hwhite (isName_dec m.line).2, feed_text hspace, feed_field hwhite h.function.2]
  have hend := @feed_text (lit ": ") hlast []
  rw [List.append_nil] at hend
  rw [hend, feed_nil]
  simp only [shownHeader, List.append_assoc]

end

/-- When the names fit, what is written for a message on a console shows the date, the level, the
    process and the place, the level and the place in their colours, whatever the pen of the
    terminal is; it goes on in white on black, and the text of the message comes next. -/
theorem consoleHeader_shows (env : Env) (hu : Usual env) (m : Message) (h : Fits env m)
    (htext : m.text.length ≤ LONGEST) (hlevel : m.level ≠ .verbose) (chain : Logchain)
    (hconsole : chain.type = .console) (hmarks : chain.marks m.level = true) (s : St)
    (d : SpdDynamicStr) (hsound : Sound BUFSIZ d)
    (hroom : env.room = true ∨ max (headerLine env m).length m.text.length < d.len) (fuel : Nat)
    (t : Term) (hmode : t.mode = .ground) :
    ∃ line d', logTo env (fuel + 2) m (s, ⟨d, false⟩) chain =
        .ok (s.add [(.stdout, line), (.stdout, held m.text)], ⟨d', false⟩) ∧ Sound BUFSIZ d' ∧
      t.feed line = { t with
        pen := whiteOnBlack
        shown := t.shown ++ shownHeader t.pen env m } := by
  have hbounded : Bounded m := by
    refine ⟨?_, htext⟩
    have hle := h.file_le
    rw [LONGEST]
    omega
  have hsides : (chain.marks m.level && decide (chain.type = .console)) = true := by
    rw [hmarks, decide_eq_true hconsole]
    rfl
  have hspace : HasRoom env d (chain.texts env m) := by
    intro hfalse text htext hgrows
    have hmax := hroom.resolve_left (by rw [hfalse]; exact Bool.false_ne_true)
    rw [Logchain.texts, if_pos hsides, if_pos hlevel] at htext
    rw [Grows, Threadprivdata.grown] at hgrows
    rcases List.mem_pair.mp htext with rfl | rfl
    · exact hgrows (if_neg (by omega))
    · exact hgrows (if_neg (by omega))
  obtain ⟨d', hlog, hput⟩ := logTo_eq hu hbounded hsound hspace s fuel
  have hwrites : chain.writes env m = [(.stdout, header env m), (.stdout, held m.text)] := by
    rw [Logchain.writes, if_pos hsides, if_pos hlevel]
  rw [hwrites] at hlog
  exact ⟨header env m, d', hlog, hput.sound, feed_header hu h hmode⟩

/-- A warning on a terminal with a bright red pen, with a string that grows for it. -/
theorem consoleHeader_shows_warning :
    let env : Env :=
      ⟨1, true, ⟨fun _ => 0, 0⟩, lit "Jan  1 00:00:00", 7, fun _ => true, false, []⟩
    let m : Message := ⟨.warning, lit "cli.c", 42, lit "spd_cli", lit "text\n"⟩
    let s : St := ⟨[], [], false, false, [], [], fun _ => none, fun _ => none, []⟩
    let t : Term := Term.start ⟨true, 31, 40⟩
    ∃ line d', logTo env 2 m (s, ⟨⟨128, List.replicate 128 0⟩, false⟩)
          ⟨.console, 1 <<< Level.warning.number, false, []⟩ =
        .ok (s.add [(.stdout, line), (.stdout, held m.text)], ⟨d', false⟩) ∧ Sound BUFSIZ d' ∧
      t.feed line = { t with
        pen := whiteOnBlack
        shown := t.shown ++ shownHeader t.pen env m } := by
  intro env m s t
  have hu : Usual env := by decide +kernel
  have hfits : Fits env m := by
    constructor <;> first | decide +kernel | exact ⟨by decide +kernel, by decide +kernel⟩
  have hsound : Sound BUFSIZ ⟨128, List.replicate 128 0⟩ :=
    ⟨by decide, List.length_replicate, by decide⟩
  exact consoleHeader_shows env hu m hfits (by decide +kernel) (by decide)
    ⟨.console, 1 <<< Level.warning.number, false, []⟩ rfl (by decide) s _ hsound (Or.inl rfl) 0 t
    rfl

end Spider.Logger
