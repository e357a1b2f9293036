import Mathlib.Tactic.IntervalCases
import Spider.Lib.Outcome
import Spider.Lib.Terminal
import Spider.Strings

/-!
# Colours and escapes

`term_color` puts a text between the sequences that set its colours and set them back, as far
as its buffer reaches; `term_filter_escapes` takes the escapes out of a line other than those
of such sequences. What they are for is what a terminal does with what they write.
-/

namespace Spider.Escapes

open Lib Outcome CString Strings Terminal

/-- The colours (`const.h:33-48`); with 128 they are bright ones. -/
def COLOR_BLACK : Nat := 30
@[inherit_doc COLOR_BLACK] def COLOR_GRAY : Nat := 30 ||| 128
@[inherit_doc COLOR_BLACK] def COLOR_RED : Nat := 31
@[inherit_doc COLOR_BLACK] def COLOR_BRRED : Nat := 31 ||| 128
@[inherit_doc COLOR_BLACK] def COLOR_BRGREEN : Nat := 32 ||| 128
@[inherit_doc COLOR_BLACK] def COLOR_YELLOW : Nat := 33 ||| 128
@[inherit_doc COLOR_BLACK] def COLOR_BRBLUE : Nat := 34 ||| 128
@[inherit_doc COLOR_BLACK] def COLOR_WHITE : Nat := 37
@[inherit_doc COLOR_BLACK] def COLOR_BRWHITE : Nat := 37 ||| 128

/-- `ATTR_BRIGHT`. -/
def ATTR_BRIGHT : Nat := 1

/-- `%d`. -/
def dec (n : Nat) : CString := (Nat.toDigits 10 n).map ch

/-- The digits `0`, `1` and `3`. -/
def colorDigit (c : UInt8) : Bool := c = 0x30 || c = 0x31 || c = 0x33

/-- What `term_filter_escapes` lets stand behind an escape. -/
def allowed : CString → Bool
  | c :: d :: _ => c = 0x5b && colorDigit d
  | _ => false

/-- `term_filter_escapes` (`utils.c:153-173`). -/
def termFilterEscapes : CString → CString
  | [] => []
  | c :: line => (if c = ESC ∧ ¬ allowed line then ch ' ' else c) :: termFilterEscapes line

/-- `color & 128`. -/
def highlighted (color : Nat) : Bool := color &&& 128 ≠ 0

/-- `color &= ~128`. -/
def lowered (color : Nat) : Nat := color - (color &&& 128)

/-- The parameters that set the colours (`utils.c:190-209`); the background is not zero. -/
def colors (fgcolor bgcolor : Nat) : CString :=
  let bgcolor := lowered (if bgcolor = 0 then COLOR_BLACK else bgcolor) + 10
  let tmp := if lowered fgcolor ≠ 0 then dec (lowered fgcolor) ++ lit ";" ++ dec bgcolor
    else dec bgcolor
  if highlighted fgcolor then dec ATTR_BRIGHT ++ lit ";" ++ tmp else tmp

/-- The parameters that set them back. -/
def back : CString := lit "0;" ++ dec COLOR_WHITE ++ lit ";" ++ dec (COLOR_BLACK + 10)

/-- There is no colour, or both are bright. -/
def Uncolored (fgcolor bgcolor : Nat) : Prop :=
  fgcolor = 0 ∧ bgcolor = 0 ∨ highlighted fgcolor = true ∧ highlighted bgcolor = true

instance (fgcolor bgcolor : Nat) : Decidable (Uncolored fgcolor bgcolor) :=
  inferInstanceAs (Decidable (_ ∨ _))

/-- The text of `term_color`, before it is cut. -/
def colored (inbuf : CString) (fgcolor bgcolor : Nat) : CString :=
  selecting (colors fgcolor bgcolor) ++ inbuf ++ selecting back

/-- `term_color` (`utils.c:176-215`): the string in `outbuf`. -/
def termColor (inbuf : CString) (fgcolor bgcolor maxout : Nat) : Outcome CString :=
  if Uncolored fgcolor bgcolor then spdCopyString inbuf maxout
  else .ok (snprintf maxout (colored inbuf fgcolor bgcolor)).1

/-! ## Colours -/

/-- No colour, or one of the eight, bright or not. -/
def IsColor (color : Nat) : Prop := color = 0 ∨ 30 ≤ color % 128 ∧ color % 128 ≤ 37 ∧ color < 256

/-- The pen for a text in colours. -/
def penOf (p : Pen) (fgcolor bgcolor : Nat) : Pen where
  bright := p.bright || highlighted fgcolor
  fg := if lowered fgcolor = 0 then p.fg else lowered fgcolor
  bg := lowered (if bgcolor = 0 then COLOR_BLACK else bgcolor) + 10

/-- The pen that is set behind it. -/
def whiteOnBlack : Pen := ⟨false, COLOR_WHITE, COLOR_BLACK + 10⟩

section Colors

variable {fgcolor bgcolor maxout : Nat} {inbuf : CString} {t : Term}

theorem IsColor.mem (h : IsColor fgcolor) :
    fgcolor ∈ [0, 30, 31, 32, 33, 34, 35, 36, 37, 158, 159, 160, 161, 162, 163, 164, 165] := by
  rcases h with rfl | ⟨hlo, hhi, hlt⟩
  · exact List.mem_cons_self
  · have hcases : fgcolor = fgcolor % 128 ∨ fgcolor = fgcolor % 128 + 128 := by omega
    generalize fgcolor % 128 = n at *
    interval_cases n <;> rcases hcases with rfl | rfl <;> decide

theorem mem_dec {n : Nat} {c : UInt8} (h : c ∈ dec n) : 48 ≤ c.toNat ∧ c.toNat ≤ 57 := by
  obtain ⟨d, hd, rfl⟩ := List.mem_map.mp h
  have hdigit := Nat.isDigit_of_mem_toDigits (by decide) (by decide) hd
  rw [Char.isDigit, Bool.and_eq_true, decide_eq_true_eq, decide_eq_true_eq] at hdigit
  have hlo : 48 ≤ d.toNat := UInt32.le_iff_toNat_le.mp hdigit.1
  have hhi : d.toNat ≤ 57 := UInt32.le_iff_toNat_le.mp hdigit.2
  have hcut : (ch d).toNat = d.toNat % 256 := UInt8.toNat_ofNat'
  omega

/-- A number is written in digits, and read again. -/
theorem number_dec (n : Nat) : number (dec n) = n := by
  have hfold : ∀ (ds : List Char), (∀ d ∈ ds, d.isDigit = true) → ∀ m : Nat,
      (ds.map ch).foldl (fun n d => 10 * n + (d.toNat - 48)) m = Nat.ofDigitChars 10 ds m := by
    intro ds
    induction ds with
    | nil => intro _ m; rfl
    | cons d ds ih =>
      intro hds m
      obtain ⟨hd, hds⟩ := List.forall_mem_cons.mp hds
      rw [Char.isDigit, Bool.and_eq_true, decide_eq_true_eq, decide_eq_true_eq] at hd
      have hhi : d.toNat ≤ 57 := UInt32.le_iff_toNat_le.mp hd.2
      have hcut : (ch d).toNat = d.toNat % 256 := UInt8.toNat_ofNat'
      have hzero : '0'.toNat = 48 := rfl
      rw [List.map_cons, List.foldl_cons, ih hds, Nat.ofDigitChars_cons, hcut, hzero,
        Nat.mod_eq_of_lt (by omega)]
  rw [number, dec, hfold _ fun d hd => Nat.isDigit_of_mem_toDigits (by decide) (by decide) hd]
  exact Nat.ofDigitChars_toDigits (by decide) (by decide)

theorem param_dec {n : Nat} {c : UInt8} (h : c ∈ dec n) : isParam c = true ∧ c ≠ ESC ∧ c ≠ 0x3b := by
  have hdigit := mem_dec h
  refine ⟨decide_eq_true (UInt8.lt_iff_toNat_lt.mpr ?_), ?_, ?_⟩
  · show c.toNat < 64
    omega
  · rintro rfl
    exact absurd hdigit.1 (by decide)
  · rintro rfl
    exact absurd hdigit.2 (by decide)

theorem numbers_dec (n : Nat) : numbers (dec n) = [n] := by
  rw [numbers_one fun h => (param_dec h).2.2 rfl, number_dec]

theorem numbers_dec_append (n : Nat) (s : CString) :
    numbers (dec n ++ lit ";" ++ s) = n :: numbers s := by
  have hsemicolon : dec n ++ lit ";" ++ s = dec n ++ 0x3b :: s := by
    rw [List.append_assoc]
    rfl
  rw [hsemicolon, numbers_append fun h => (param_dec h).2.2 rfl, number_dec]

/-- The colours are set by the numbers that they are. -/
theorem numbers_colors (fgcolor bgcolor : Nat) : numbers (colors fgcolor bgcolor) =
    (if highlighted fgcolor then [1] else []) ++
      (if lowered fgcolor ≠ 0 then [lowered fgcolor] else []) ++
      [lowered (if bgcolor = 0 then COLOR_BLACK else bgcolor) + 10] := by
  have hbright : ATTR_BRIGHT = 1 := rfl
  unfold colors
  dsimp only
  split
  next =>
    rw [numbers_dec_append, hbright]
    split
    next => rw [numbers_dec_append, numbers_dec]; rfl
    next => rw [numbers_dec]; rfl
  next =>
    split
    next => rw [numbers_dec_append, numbers_dec]; rfl
    next => rw [numbers_dec]; rfl

theorem colors_params (fgcolor bgcolor : Nat) :
    ∀ c ∈ colors fgcolor bgcolor, isParam c ∧ c ≠ ESC := by
  have hdec : ∀ n, ∀ c ∈ dec n, isParam c ∧ c ≠ ESC :=
    fun n c hc => ⟨(param_dec hc).1, (param_dec hc).2.1⟩
  have happend : ∀ n s, (∀ c ∈ s, isParam c ∧ c ≠ ESC) →
      ∀ c ∈ dec n ++ lit ";" ++ s, isParam c ∧ c ≠ ESC := by
    intro n s hs
    have hsemicolon : ∀ c ∈ lit ";", isParam c ∧ c ≠ ESC :=
      List.forall_mem_singleton.mpr (by decide)
    exact List.forall_mem_append.mpr ⟨List.forall_mem_append.mpr ⟨hdec n, hsemicolon⟩, hs⟩
  unfold colors
  dsimp only
  split
  next =>
    apply happend
    split
    next => exact happend _ _ (hdec _)
    next => exact hdec _
  next =>
    split
    next => exact happend _ _ (hdec _)
    next => exact hdec _

theorem set_fg (p : Pen) {n : Nat} (hlo : 30 ≤ n) (hhi : n ≤ 37) :
    p.set n = { p with fg := n } := by
  rw [Pen.set, if_neg (by omega), if_neg (by omega), if_pos ⟨hlo, hhi⟩]

theorem set_bg (p : Pen) {n : Nat} (hlo : 40 ≤ n) (hhi : n ≤ 47) :
    p.set n = { p with bg := n } := by
  rw [Pen.set, if_neg (by omega), if_neg (by omega), if_neg (by omega), if_pos ⟨hlo, hhi⟩]

theorem IsColor.lowered (h : IsColor fgcolor) : lowered fgcolor = 0 ∧ fgcolor = 0 ∨
    30 ≤ lowered fgcolor ∧ lowered fgcolor ≤ 37 := by
  have hall : ∀ color ∈ [0, 30, 31, 32, 33, 34, 35, 36, 37, 158, 159, 160, 161, 162, 163, 164, 165],
      Escapes.lowered color = 0 ∧ color = 0 ∨
        30 ≤ Escapes.lowered color ∧ Escapes.lowered color ≤ 37 := by
    decide +kernel
  exact hall _ h.mem

theorem select_colors (p : Pen) (hfg : IsColor fgcolor) (hbg : IsColor bgcolor) :
    p.select (colors fgcolor bgcolor) = penOf p fgcolor bgcolor := by
  have hback : ∀ q : Pen, q.set (lowered (if bgcolor = 0 then COLOR_BLACK else bgcolor) + 10) =
      { q with bg := lowered (if bgcolor = 0 then COLOR_BLACK else bgcolor) + 10 } := by
    intro q
    rcases hbg.lowered with ⟨-, rfl⟩ | ⟨hlo, hhi⟩
    · rfl
    · have hne : bgcolor ≠ 0 := by
        rintro rfl
        exact absurd hlo (by decide)
      rw [if_neg hne]
      exact set_bg q (by omega) (by omega)
  rw [Pen.select, numbers_colors, List.foldl_append, List.foldl_append, penOf,
    List.foldl_cons, List.foldl_nil, hback]
  rcases hfg.lowered with ⟨hzero, rfl⟩ | ⟨hlo, hhi⟩
  · have hdark : highlighted 0 = false := rfl
    rw [hzero, hdark, if_neg Bool.false_ne_true, if_neg (not_not.mpr rfl), if_pos rfl,
      Bool.or_false]
    rfl
  · have hne : lowered fgcolor ≠ 0 := by omega
    rw [if_pos hne, if_neg hne]
    rw [List.foldl_cons, List.foldl_nil, set_fg _ hlo hhi]
    cases highlighted fgcolor with
    | true =>
      rw [if_pos rfl, Bool.or_true]
      rfl
    | false =>
      rw [if_neg Bool.false_ne_true, Bool.or_false]
      rfl

theorem select_back (p : Pen) : p.select back = whiteOnBlack := by
  have hnumbers : numbers back = [0, 37, 40] := rfl
  rw [Pen.select, hnumbers]
  rfl

theorem back_params : ∀ c ∈ back, isParam c ∧ c ≠ ESC := by decide +kernel

theorem length_colored (inbuf : CString) (fgcolor bgcolor : Nat) :
    (colored inbuf fgcolor bgcolor).length =
      inbuf.length + (colors fgcolor bgcolor).length + 13 := by
  have hback : (selecting back).length = 10 := rfl
  have hon : (selecting (colors fgcolor bgcolor)).length =
      (colors fgcolor bgcolor).length + 3 := by
    simp only [selecting, List.length_append, List.length_cons, List.length_nil]
    omega
  rw [colored, List.length_append, List.length_append, hon, hback]
  omega

/-- With room for all of it, the text is shown in its colours. -/
theorem feed_colored (hfg : IsColor fgcolor) (hbg : IsColor bgcolor) (hin : ESC ∉ inbuf) (t : Term) :
    t.feed (colored inbuf fgcolor bgcolor) = { t with
      mode := .ground
      pen := whiteOnBlack
      shown := t.shown ++ inbuf.map (·, penOf t.pen fgcolor bgcolor) } := by
  rw [colored, feed_append, feed_append, feed_selecting t (colors_params fgcolor bgcolor),
    select_colors t.pen hfg hbg, feed_plain rfl hin, feed_selecting _ back_params, select_back]

/-- Cut short, it leaves a bright pen behind or a sequence that has not come to its end. -/
theorem feed_take_colored (hfg : IsColor fgcolor) (hbg : IsColor bgcolor) (hin : ESC ∉ inbuf)
    {k : Nat} (hk : k < (colored inbuf fgcolor bgcolor).length) (hbright : t.pen.bright = true) :
    (t.feed ((colored inbuf fgcolor bgcolor).take k)).mode ≠ .ground ∨
      (t.feed ((colored inbuf fgcolor bgcolor).take k)).pen.bright = true := by
  have hparams := colors_params fgcolor bgcolor
  rw [colored] at hk ⊢
  rcases Nat.lt_or_ge k (selecting (colors fgcolor bgcolor)).length with hon | hon
  · rw [List.append_assoc, List.take_append_of_le_length (Nat.le_of_lt hon)]
    rcases Nat.eq_zero_or_pos k with rfl | hpos
    · right
      exact hbright
    · left
      exact feed_take_selecting t hparams hpos hon
  · obtain ⟨j, rfl⟩ := Nat.exists_eq_add_of_le hon
    rw [List.append_assoc, List.take_length_add_append, feed_append, feed_selecting t hparams,
      select_colors t.pen hfg hbg]
    rw [List.append_assoc, List.length_append, Nat.add_lt_add_iff_left] at hk
    rcases Nat.lt_or_ge inbuf.length j with hlt | hle
    · left
      obtain ⟨i, rfl⟩ := Nat.exists_eq_add_of_le (Nat.le_of_lt hlt)
      rw [List.take_length_add_append, feed_append, feed_plain rfl hin]
      rw [List.length_append, Nat.add_lt_add_iff_left] at hk
      exact feed_take_selecting _ back_params (by omega) hk
    · right
      have htake : ESC ∉ inbuf.take j := fun hmem => hin (List.mem_of_mem_take hmem)
      rw [List.take_append_of_le_length hle, feed_plain rfl htake]
      show (t.pen.bright || highlighted fgcolor) = true
      rw [hbright, Bool.true_or]

end Colors

/-- A text is shown in its colours, on every terminal that has no sequence begun, whatever its pen,
    exactly when its buffer has room for it and for the sequences around it. -/
theorem termColor_shows_iff (inbuf : CString) (fgcolor bgcolor maxout : Nat)
    (hfg : IsColor fgcolor) (hbg : IsColor bgcolor) (hcolor : ¬ Uncolored fgcolor bgcolor)
    (hin : ESC ∉ inbuf) (hmaxout : 0 < maxout) :
    ∃ outbuf, termColor inbuf fgcolor bgcolor maxout = .ok outbuf ∧ outbuf.length < maxout ∧
      ((∀ t : Term, t.mode = .ground → t.feed outbuf = { t with
          pen := whiteOnBlack
          shown := t.shown ++ inbuf.map (·, penOf t.pen fgcolor bgcolor) }) ↔
        inbuf.length + (colors fgcolor bgcolor).length + 13 < maxout) := by
  have hlength := length_colored inbuf fgcolor bgcolor
  refine ⟨_, if_neg hcolor, ?_, ?_⟩
  · rw [snprintf, List.length_take]
    omega
  · rw [snprintf, ← hlength]
    constructor
    · intro hall
      by_contra hcut
      have h := hall ⟨.ground, ⟨true, 39, 49⟩, [], []⟩ rfl
      have hk : maxout - 1 < (colored inbuf fgcolor bgcolor).length := by omega
      rcases @feed_take_colored _ _ _ ⟨.ground, ⟨true, 39, 49⟩, [], []⟩ hfg hbg hin _ hk rfl with
        hmode | hbright
      · exact hmode (congrArg Term.mode h)
      · rw [congrArg Term.pen h] at hbright
        exact Bool.noConfusion hbright
    · intro hroom t hground
      rw [List.take_of_length_le (by omega), feed_colored hfg hbg hin, hground]

/-- The name of a file, for which there is room. -/
theorem termColor_shows_name : ∃ outbuf,
    termColor (lit "scheduler.c") COLOR_BRWHITE 0 32 = .ok outbuf ∧ outbuf.length < 32 ∧
      ((∀ t : Term, t.mode = .ground → t.feed outbuf = { t with
          pen := whiteOnBlack
          shown := t.shown ++ (lit "scheduler.c").map (·, penOf t.pen COLOR_BRWHITE 0) }) ↔
        (lit "scheduler.c").length + (colors COLOR_BRWHITE 0).length + 13 < 32) :=
  termColor_shows_iff (lit "scheduler.c") COLOR_BRWHITE 0 32 (Or.inr (by decide)) (Or.inl rfl)
    (by decide) (by decide +kernel) (by decide)

/-! ## Escapes -/

/-- Between two lines a terminal shows text or is at the parameters of a sequence, and the commands
    that it has been given begin with `0`, `1` or `3`. -/
structure Harmless (t : Term) : Prop where
  mode : t.mode = .ground ∨ ∃ d params, t.mode = .sequence (d :: params) ∧ colorDigit d = true
  commands : ∀ command ∈ t.commands, ∃ d params, command.1 = d :: params ∧ colorDigit d = true

/-- What a filtered line may still have to say. -/
def Awaits (line : CString) : Mode → Prop
  | .ground => True
  | .escape => allowed line = true
  | .sequence [] => ∃ d rest, line = d :: rest ∧ colorDigit d = true
  | .sequence (d :: _) => colorDigit d = true

section Escapes

variable {line : CString} {c d : UInt8} {t : Term}

theorem colorDigit_param (h : colorDigit d = true) : isParam d = true ∧ d ≠ ESC := by
  have hcases : d = 0x30 ∨ d = 0x31 ∨ d = 0x33 := by
    simpa [colorDigit, or_assoc] using h
  rcases hcases with rfl | rfl | rfl <;> decide

theorem allowed_iff : allowed line = true ↔
    ∃ d rest, line = 0x5b :: d :: rest ∧ colorDigit d = true := by
  constructor
  · intro h
    rcases line with _ | ⟨c, _ | ⟨d, rest⟩⟩
    · cases h
    · cases h
    · rw [allowed, Bool.and_eq_true, decide_eq_true_eq] at h
      obtain ⟨rfl, hd⟩ := h
      exact ⟨d, rest, rfl, hd⟩
  · rintro ⟨d, rest, rfl, hd⟩
    rw [allowed, hd]
    rfl

/-- A byte that stays what it is, and one that is taken out. -/
theorem termFilterEscapes_cons (c : UInt8) (line : CString) :
    c ≠ ESC ∧ termFilterEscapes (c :: line) = c :: termFilterEscapes line ∨
    c = ESC ∧ allowed line = true ∧ termFilterEscapes (c :: line) = c :: termFilterEscapes line ∨
    c = ESC ∧ allowed line = false ∧
      termFilterEscapes (c :: line) = ch ' ' :: termFilterEscapes line := by
  rw [termFilterEscapes]
  by_cases hesc : c = ESC
  · right
    cases hallowed : allowed line with
    | true => exact Or.inl ⟨hesc, rfl, by simp⟩
    | false => exact Or.inr ⟨hesc, rfl, by simp [hesc]⟩
  · exact Or.inl ⟨hesc, by simp [hesc]⟩

/-- A byte other than an escape leaves the terminal waiting for the rest of the line. -/
theorem put_awaits (hcommands : ∀ command ∈ t.commands,
      ∃ d params, command.1 = d :: params ∧ colorDigit d = true)
    (hmode : Awaits (c :: line) t.mode) (hesc : d ≠ ESC) (hc : d = c ∨ c = ESC) :
    Awaits line (t.put d).mode ∧ ∀ command ∈ (t.put d).commands,
      ∃ d params, command.1 = d :: params ∧ colorDigit d = true := by
  obtain ⟨mode, pen, shown, commands⟩ := t
  cases mode with
  | ground =>
    rw [Term.put]
    dsimp only
    rw [if_neg hesc]
    exact ⟨trivial, hcommands⟩
  | escape =>
    obtain ⟨e, rest, hcons, he⟩ := allowed_iff.mp hmode
    obtain ⟨rfl, rfl⟩ := List.cons.inj hcons
    obtain rfl := hc.resolve_right (by decide)
    exact ⟨⟨e, rest, rfl, he⟩, hcommands⟩
  | sequence params =>
    cases params with
    | nil =>
      obtain ⟨e, rest, hcons, he⟩ := hmode
      obtain ⟨rfl, rfl⟩ := List.cons.inj hcons
      obtain ⟨hparam, hne⟩ := colorDigit_param he
      obtain rfl := hc.resolve_right hne
      rw [Term.put]
      dsimp only
      rw [if_neg hesc, if_pos hparam]
      exact ⟨he, hcommands⟩
    | cons e params =>
      have he : colorDigit e = true := hmode
      rw [Term.put]
      dsimp only
      rw [if_neg hesc]
      split
      next => exact ⟨he, hcommands⟩
      next =>
        split
        next => exact ⟨trivial, hcommands⟩
        next =>
          refine ⟨trivial, List.forall_mem_append.mpr ⟨hcommands, ?_⟩⟩
          intro command hcommand
          rw [List.mem_singleton.mp hcommand]
          exact ⟨e, params, rfl, he⟩

/-- Whatever a line is, a terminal is given no other commands by it when it is filtered. -/
theorem feed_filtered (hcommands : ∀ command ∈ t.commands,
    ∃ d params, command.1 = d :: params ∧ colorDigit d = true) (hmode : Awaits line t.mode) :
    Harmless (t.feed (termFilterEscapes line)) := by
  induction line generalizing t with
  | nil =>
    obtain ⟨mode, pen, shown, commands⟩ := t
    refine ⟨?_, hcommands⟩
    cases mode with
    | ground => exact Or.inl rfl
    | escape => cases hmode
    | sequence params =>
      cases params with
      | nil =>
        obtain ⟨d, rest, hnil, -⟩ := hmode
        cases hnil
      | cons d params => exact Or.inr ⟨d, params, rfl, hmode⟩
  | cons c line ih =>
    rcases termFilterEscapes_cons c line with ⟨hesc, hline⟩ | ⟨rfl, hallowed, hline⟩ |
      ⟨rfl, -, hline⟩
    · obtain ⟨hawaits, hkept⟩ := put_awaits hcommands hmode hesc (Or.inl rfl)
      rw [hline, feed_cons]
      exact ih hkept hawaits
    · rw [hline, feed_cons, put_esc]
      exact ih hcommands hallowed
    · obtain ⟨hawaits, hkept⟩ := put_awaits hcommands hmode (by decide : ch ' ' ≠ ESC) (Or.inr rfl)
      rw [hline, feed_cons]
      exact ih hkept hawaits

theorem Harmless.feed (h : Harmless t) (line : CString) :
    Harmless (t.feed (termFilterEscapes line)) := by
  apply feed_filtered h.commands
  rcases h.mode with hground | ⟨d, params, hsequence, hd⟩
  · rw [hground]
    trivial
  · rw [hsequence]
    exact hd

/-- A line that has been filtered stays as it is. -/
theorem allowed_filtered (line : CString) : allowed (termFilterEscapes line) = allowed line := by
  rcases line with _ | ⟨c, line⟩
  · rfl
  rcases line with _ | ⟨d, rest⟩
  · rcases termFilterEscapes_cons c [] with ⟨-, h⟩ | ⟨-, -, h⟩ | ⟨-, -, h⟩ <;> rw [h] <;> rfl
  rcases termFilterEscapes_cons c (d :: rest) with ⟨-, h⟩ | ⟨rfl, -, h⟩ | ⟨rfl, -, h⟩
  · rw [h]
    rcases termFilterEscapes_cons d rest with ⟨-, h'⟩ | ⟨-, -, h'⟩ | ⟨rfl, -, h'⟩
    · rw [h', allowed, allowed]
    · rw [h', allowed, allowed]
    · have hblank : colorDigit (ch ' ') = false := by decide
      have hesc : colorDigit ESC = false := by decide
      rw [h', allowed, allowed, hblank, hesc]
  · rw [h]
    rcases termFilterEscapes_cons d rest with ⟨-, h'⟩ | ⟨-, -, h'⟩ | ⟨-, -, h'⟩ <;> rw [h'] <;> rfl
  · rw [h]
    rcases termFilterEscapes_cons d rest with ⟨-, h'⟩ | ⟨-, -, h'⟩ | ⟨-, -, h'⟩ <;> rw [h'] <;> rfl

@[simp] theorem termFilterEscapes_filtered (line : CString) :
    termFilterEscapes (termFilterEscapes line) = termFilterEscapes line := by
  induction line with
  | nil => rfl
  | cons c line ih =>
    rcases termFilterEscapes_cons c line with ⟨hesc, h⟩ | ⟨rfl, hallowed, h⟩ | ⟨rfl, -, h⟩
    · rw [h, termFilterEscapes, ih, if_neg (fun h => hesc h.1)]
    · rw [h, termFilterEscapes, ih, allowed_filtered, hallowed, if_neg (fun h => h.2 rfl)]
    · rw [h, termFilterEscapes, ih, if_neg (fun h => absurd h.1 (by decide))]

/-- A text that neither has an escape nor stands behind one is left as it is. -/
theorem termFilterEscapes_plain (h : ESC ∉ line) (rest : CString) :
    termFilterEscapes (line ++ rest) = line ++ termFilterEscapes rest := by
  induction line with
  | nil => rfl
  | cons c line ih =>
    obtain ⟨hc, hline⟩ := not_or.mp (mt List.mem_cons.mpr h)
    rw [List.cons_append, termFilterEscapes, ih hline, if_neg (fun h => hc h.1.symm)]
    rfl

/-- So is a sequence that sets colours. -/
theorem termFilterEscapes_selecting {params : CString} (hparams : ESC ∉ params)
    (hdigit : ∃ d ds, params = d :: ds ∧ colorDigit d = true) (rest : CString) :
    termFilterEscapes (selecting params ++ rest) = selecting params ++ termFilterEscapes rest := by
  obtain ⟨d, ds, rfl, hd⟩ := hdigit
  have hallowed : allowed (0x5b :: d :: (ds ++ [0x6d] ++ rest)) = true := by
    rw [allowed, hd]
    rfl
  have hplain : ESC ∉ 0x5b :: d :: (ds ++ [0x6d]) := by
    simp only [List.mem_cons, List.mem_append, List.not_mem_nil, or_false, not_or] at hparams ⊢
    exact ⟨by decide, hparams.1, hparams.2, by decide⟩
  show termFilterEscapes (ESC :: (0x5b :: d :: (ds ++ [0x6d])) ++ rest) = _
  rw [List.cons_append, termFilterEscapes, termFilterEscapes_plain hplain]
  show (if ESC = ESC ∧ ¬ allowed (0x5b :: d :: (ds ++ [0x6d] ++ rest)) then _ else _) :: _ = _
  rw [hallowed, if_neg (fun h => h.2 rfl)]
  rfl

end Escapes

end Spider.Escapes
