import Spider.Config.Reference

/-!
# The comment counter

The points that `config_text_file_load` comes through while it reads a file: the
variables of the loop over the semicolons, turn by turn and line by line. The
counter goes down at the end of a comment whether or not one is open, so that it
stays in its range exactly on the files that never end one that is not.
-/

namespace Spider.Config.Text

open Lib Outcome CString Strings

/-! ## The points of a load -/

/-- The variables when a line has been read, with what has been kept of the comments of the lines
    before (`config.c:808-821`). -/
def lineStart (p : Parsed) (comment : Int) (bytes behind : List UInt8) : Loop :=
  Loop.start bytes behind comment
    (p.buffers.map fun b => ({ comment := b.comment ++ b.lline } : Buffers))

/-- The rest of a pass, when no semicolon is left (`config.c:875-888`). -/
def Loop.process (l : Loop) (p : Parsed) : Outcome (Option Parsed) :=
  match l.processBuf with
  | some processBuf =>
    let buf := spdStrip (cut (l.buf.drop processBuf))
    if buf = [] then .ok (some { p with buffers := l.buffers })
    else processTextLine { p with buffers := l.buffers } buf
  | none =>
    let buffers := l.buffers.map fun b =>
      if l.comment ≠ 0 then { b with comment := b.comment ++ cut l.buf } else b
    .ok (some { p with buffers := buffers })

/-- The load of a file comes to the loop over the semicolons with these variables, what the lines
    before have left, and the lines that are still to be read. What is in the array behind a line
    is not known. -/
inductive Reaches (mallocs : Mallocs) (withcomments : Bool) (cfg : SpdConfig) (text : List UInt8) :
    Loop → Parsed → List (List UInt8) → Prop
  | first (commentBuffer llineBuffer : Option CString) (p : Parsed) (bytes behind : List UInt8)
      (rest : List (List UInt8))
      (hinit : (if withcomments then commentInit mallocs none none else .ok (none, none)) =
        .ok (commentBuffer, llineBuffer))
      (hbuffers : withcomments = true → commentBuffer.isSome ∧ llineBuffer.isSome)
      (hp : p = ⟨cfg, cfg.current, do
        let comment ← commentBuffer
        let lline ← llineBuffer
        pure { comment := comment, lline := lline }⟩)
      (hlines : fgetsAll 8191 [] text = bytes :: rest) :
      Reaches mallocs withcomments cfg text (lineStart p 0 bytes behind) p rest
  | turn (l l' : Loop) (p : Parsed) (rest : List (List UInt8)) (commentP : Nat)
      (hreach : Reaches mallocs withcomments cfg text l p rest)
      (hfind : strchr l.buf l.newBuf COMMENT_META = some commentP)
      (hbody : l.body commentP = .ok l') : Reaches mallocs withcomments cfg text l' p rest
  | line (l : Loop) (p p' : Parsed) (bytes behind : List UInt8) (rest : List (List UInt8))
      (hreach : Reaches mallocs withcomments cfg text l p (bytes :: rest))
      (hfind : strchr l.buf l.newBuf COMMENT_META = none)
      (hprocess : l.process p = .ok (some p')) :
      Reaches mallocs withcomments cfg text (lineStart p' l.comment bytes behind) p' rest

/-- The semicolon at `comment_p` ends a comment (`config.c:823-841`). -/
def Loop.Ends (l : Loop) (commentP : Nat) : Prop :=
  ¬ (commentP > l.newBuf ∧ l.buf[commentP - 1]? = some (ch '\\')) ∧
  ¬ (l.buf[commentP + 1]? = some COMMENT_TAG ∧ l.buf[commentP + 2]? = some COMMENT_TAG ∧
    l.buf[commentP + 3]? ≠ some (ch '-')) ∧
  commentP ≥ l.newBuf + 2 ∧ l.buf[commentP - 1]? = some COMMENT_TAG ∧
    l.buf[commentP - 2]? = some COMMENT_TAG

/-- The counter, and what depends on it: the entry of `nest` for the report of a comment that does
    not end, the one that the next turn writes, and the end of a comment when none is open. -/
structure Loop.InRange (l : Loop) : Prop where
  counter : 0 ≤ l.comment ∧ l.comment ≤ MAX_NEXT_COMMENT
  report : l.comment ≠ 0 → 0 ≤ l.comment - 1 ∧ l.comment - 1 < MAX_NEXT_COMMENT
  write : ∀ commentP, strchr l.buf l.newBuf COMMENT_META = some commentP →
    l.body commentP ≠ .fault
  stray : ∀ commentP l', strchr l.buf l.newBuf COMMENT_META = some commentP → l.Ends commentP →
    l.comment = 0 → l.body commentP = .ok l' → l'.comment = 0

/-! ## The condition on a file -/

/-- No block comment is closed outside of one, up to a semicolon that ends the line, or an opening
    that is one too many. -/
def Matched (depth : Int) : List Token → Prop
  | [] => True
  | .opening :: rest => depth < MAX_NEXT_COMMENT → Matched (depth + 1) rest
  | .closing :: rest => 0 < depth ∧ Matched (depth - 1) rest
  | .semicolon :: rest => depth = 0 ∨ Matched depth rest
  | .byte _ :: rest => Matched depth rest
  | .escaped :: rest => Matched depth rest

/-- What the text of a line does, if there is one. -/
def processText (p : Parsed) (text : CString) : Outcome (Option Parsed) :=
  if text = [] then .ok (some p) else processTextLine p text

/-- `Matched` for the lines of a file, as far as they are read: none is behind a line without an
    end, or a text that is not accepted. -/
def MatchedLines (depth : Int) (p : Parsed) : List CString → Prop
  | [] => True
  | line :: rest =>
    Matched depth (tokens [] 0 line) ∧
      (Nested depth (tokens [] 0 line) → ∀ p',
        processText p (trim blank (outside depth (tokens [] 0 line))) = .ok (some p') →
          MatchedLines (depthBehind depth (tokens [] 0 line)) p' rest)

theorem Matched.nested {depth : Int} {line : List Token} (h : Matched depth line)
    (hfits : ∀ d ∈ openings depth line, Fits d) : Nested depth line := by
  induction line generalizing depth with
  | nil => trivial
  | cons token line ih =>
    cases token with
    | byte c => exact ih h hfits
    | escaped => exact ih h hfits
    | opening =>
      have hdepth : Fits depth := hfits depth List.mem_cons_self
      refine ⟨hdepth.2, ih (h hdepth.2) fun d hd => hfits d (List.mem_cons_of_mem depth ?_)⟩
      rw [if_pos hdepth]
      exact hd
    | closing => exact ⟨h.1, ih h.2 hfits⟩
    | semicolon =>
      by_cases hzero : depth = 0
      · exact .inl hzero
      · rw [openings, if_neg hzero] at hfits
        exact .inr (ih (h.resolve_left hzero) hfits)

/-! ## A turn -/

/-- What a turn of the loop does, by the token that its semicolon is the end of. -/
inductive Loop.Turns (l : Loop) (s : Scan) (t after : List UInt8) : Prop
  | escaped (l' : Loop) (s' : Scan)
      (htokens : tokens t.reverse 0 (COMMENT_META :: after) = .escaped :: tokens [] 0 after)
      (hbody : l.body (l.newBuf + t.length) = .ok l') (hat : l'.At s' after)
      (hcomment : s'.comment = s.comment)
  | opening (l' : Loop) (s' : Scan) (rest : List UInt8)
      (htokens : tokens t.reverse 0 (COMMENT_META :: after) = .opening :: tokens [] 0 rest)
      (hbody : l.body (l.newBuf + t.length) = .ok l') (hat : l'.At s' rest)
      (hcomment : s'.comment = s.comment + 1) (hfits : Fits s.comment)
      (hlt : rest.length < after.length) (hends : ¬ l.Ends (l.newBuf + t.length))
  | full (htokens : ∃ rest, tokens t.reverse 0 (COMMENT_META :: after) = .opening :: rest)
      (hbody : l.body (l.newBuf + t.length) = .ok l) (hmax : MAX_NEXT_COMMENT ≤ s.comment)
  | below (hbody : l.body (l.newBuf + t.length) = .fault) (hneg : s.comment < 0)
  | closing (l' : Loop) (s' : Scan)
      (htokens : tokens t.reverse 0 (COMMENT_META :: after) = .closing :: tokens [] 0 after)
      (hbody : l.body (l.newBuf + t.length) = .ok l') (hat : l'.At s' after)
      (hcomment : s'.comment = s.comment - 1) (hends : l.Ends (l.newBuf + t.length))
  | stop (l' : Loop) (s' : Scan)
      (htokens : tokens t.reverse 0 (COMMENT_META :: after) = .semicolon :: tokens [] 0 after)
      (hbody : l.body (l.newBuf + t.length) = .ok l') (hat : l'.At s' [])
      (hcomment : s'.comment = 0) (hzero : s.comment = 0)
  | semicolon (l' : Loop) (s' : Scan)
      (htokens : tokens t.reverse 0 (COMMENT_META :: after) = .semicolon :: tokens [] 0 after)
      (hbody : l.body (l.newBuf + t.length) = .ok l') (hat : l'.At s' after)
      (hcomment : s'.comment = s.comment) (hne : s.comment ≠ 0)

section

variable {l : Loop} {s : Scan} {t after : List UInt8}

/-- The body takes the semicolon for an end where the line has a token that ends a comment. -/
theorem Loop.At.ends_iff (h : l.At s (t ++ COMMENT_META :: after)) :
    l.Ends (l.newBuf + t.length) ↔
      ¬ t.reverse.head? = some (ch '\\') ∧
      ¬ (after.take 2 = lit "--" ∧ after[2]? ≠ some (ch '-')) ∧ t.reverse.take 2 = lit "--" := by
  obtain ⟨hback, hahead, htwo⟩ := h.reads
  have htags : lit "--" = [COMMENT_TAG, COMMENT_TAG] := rfl
  rw [Loop.Ends, hback, hahead, htwo, htags]

/-- Step lemma of the loop over the semicolons. -/
theorem Loop.At.turns (h : l.At s (t ++ COMMENT_META :: after)) : l.Turns s t after := by
  have hbody := h.body_eq
  have hends := h.ends_iff
  have hsemi : ¬ COMMENT_META ≠ ch ';' := fun hne => hne rfl
  by_cases hescaped : t.reverse.head? = some (ch '\\')
  · rw [if_pos hescaped] at hbody
    exact .escaped _ _ (by rw [tokens, if_neg hsemi, if_pos hescaped]) hbody
      (h.pass s.comment h.inside) rfl
  rw [if_neg hescaped] at hbody
  by_cases hopening : after.take 2 = lit "--" ∧ after[2]? ≠ some (ch '-')
  · have htokens : tokens t.reverse 0 (COMMENT_META :: after) = .opening :: tokens [] 2 after := by
      rw [tokens, if_neg hsemi, if_neg hescaped, if_pos hopening]
    rw [if_pos hopening] at hbody
    by_cases hmax : s.comment < MAX_NEXT_COMMENT
    · rw [if_pos hmax] at hbody
      by_cases hneg : s.comment < 0
      · rw [if_pos hneg] at hbody
        exact .below hbody hneg
      · rw [if_neg hneg] at hbody
        obtain ⟨rest, rfl⟩ : ∃ rest, after = lit "--" ++ rest :=
          ⟨after.drop 2, by rw [← hopening.1, List.take_append_drop]⟩
        have hlt : rest.length < (lit "--" ++ rest).length := by
          rw [List.length_append]
          exact Nat.lt_add_of_pos_left (by decide)
        exact .opening _ _ rest htokens hbody h.enter rfl ⟨not_lt.mp hneg, hmax⟩ hlt
          fun hend => (hends.mp hend).2.1 hopening
    · rw [if_neg hmax] at hbody
      exact .full ⟨_, htokens⟩ hbody (not_lt.mp hmax)
  rw [if_neg hopening] at hbody
  by_cases hclosing : t.reverse.take 2 = lit "--"
  · have htokens : tokens t.reverse 0 (COMMENT_META :: after) = .closing :: tokens [] 0 after := by
      rw [tokens, if_neg hsemi, if_neg hescaped, if_neg hopening, if_pos hclosing]
    have hend := hends.mpr ⟨hescaped, hopening, hclosing⟩
    rw [if_pos hclosing] at hbody
    by_cases hone : s.comment - 1 = 0
    · rw [if_pos hone, hone] at hbody
      refine .closing _ _ htokens hbody (h.leave (by omega)) ?_ hend
      rw [Scan.leave_comment, hone]
    · rw [if_neg hone] at hbody
      have hat := h.pass (s.comment - 1) fun hp text hk => by
        have hle := h.inside hp text hk
        omega
      exact .closing _ _ htokens hbody hat rfl hend
  have htokens : tokens t.reverse 0 (COMMENT_META :: after) = .semicolon :: tokens [] 0 after := by
    rw [tokens, if_neg hsemi, if_neg hescaped, if_neg hopening, if_neg hclosing]
  rw [if_neg hclosing] at hbody
  by_cases hzero : s.comment = 0
  · rw [if_pos hzero] at hbody
    exact .stop _ _ htokens hbody (h.plain hzero) hzero hzero
  · rw [if_neg hzero] at hbody
    exact .semicolon _ _ htokens hbody (h.pass s.comment h.inside) rfl hzero

/-- The next semicolon, if there is one, and what is before and behind it. -/
theorem Loop.At.split {text : List UInt8} {commentP : Nat} (h : l.At s text)
    (hfind : strchr l.buf l.newBuf COMMENT_META = some commentP) :
    ∃ t after, text = t ++ COMMENT_META :: after ∧ COMMENT_META ∉ t ∧
      commentP = l.newBuf + t.length := by
  have hmem : COMMENT_META ∈ text := by
    by_contra hmem
    rw [strchr, h.drop_newBuf, List.idxOf?_eq_none_iff.mpr hmem] at hfind
    cases hfind
  obtain ⟨t, after, rfl, ht⟩ := List.eq_append_cons_of_mem hmem
  have hfound := h.found ht
  rw [hfind] at hfound
  exact ⟨t, after, rfl, ht, Option.some.inj hfound⟩

end

/-- The bytes before the next semicolon. -/
theorem matched_bytes (depth : Int) {t : List UInt8} (ht : COMMENT_META ∉ t)
    (back rest : List UInt8) : Matched depth (tokens back 0 (t ++ rest)) ↔
      Matched depth (tokens (t.reverse ++ back) 0 rest) := by
  induction t generalizing back with
  | nil => rfl
  | cons c t ih =>
    have hc : c ≠ ch ';' := fun hc => ht (hc ▸ List.mem_cons_self)
    have hrest := ih (fun hmem => ht (List.mem_cons_of_mem c hmem)) (c :: back)
    rw [List.cons_append, tokens, if_pos hc, Matched, hrest]
    simp

/-- One pass of the loop over the lines is the loop over the semicolons and the rest of the pass. -/
theorem loadLine_of_commentLoop {l : Loop} {p : Parsed} {comment : Int} {bytes behind : List UInt8}
    {fuel : Nat} (h : commentLoop fuel (lineStart p comment bytes behind) = .ok l) :
    loadLine comment p (cut bytes) = l.process p >>= fun r => .ok (r, l.comment) := by
  let buffers := p.buffers.map fun b => ({ comment := b.comment ++ b.lline } : Buffers)
  obtain ⟨r, hr, hended⟩ := (Loop.start_at bytes behind comment buffers).runs.settles
  have hl : r = .ok l := by
    rcases hr.sound fuel with htimeout | hrun
    · exact absurd (htimeout.symm.trans h) nofun
    · exact hrun.symm.trans h
  rw [hl] at hended
  obtain ⟨s, hscan, hleft⟩ := hended.left
  have htext := hleft.text
  have hprocess := hleft.process
  have hbuffers := hleft.buffers
  have hcomment := hleft.comment
  rw [loadLine, hscan, ok_bind, Loop.process, ← hcomment, ← hbuffers, htext]
  cases hp : l.processBuf with
  | some processBuf =>
    rw [hp] at hprocess
    by_cases hempty : spdStrip (cut (l.buf.drop processBuf)) = []
    · simp [hprocess, Kept.finish, hempty]
    · simp [hprocess, Kept.finish, hempty]
  | none =>
    rw [hp] at hprocess
    simp [hprocess, Kept.finish]

/-! ## The invariant -/

section

variable {mallocs : Mallocs} {withcomments : Bool} {cfg : SpdConfig} {text : List UInt8} {l : Loop}
  {p : Parsed} {rest : List (List UInt8)}

/-- What holds at a point of the load of a file that meets the condition: the rest of the line does,
    and so do the lines from its start, which is some turns back. -/
structure Loop.OnCourse (l : Loop) (p : Parsed) (rest : List (List UInt8)) : Prop where
  buffers : p.buffers = none
  counter : 0 ≤ l.comment ∧ l.comment ≤ MAX_NEXT_COMMENT
  ahead : ∃ s text, l.At s text ∧ Matched s.comment (tokens [] 0 text)
  line : ∃ depth bytes behind turns, 0 ≤ depth ∧
    MatchedLines depth p (cut bytes :: rest.map cut) ∧
    ∀ fuel, commentLoop (fuel + turns) (lineStart p depth bytes behind) = commentLoop fuel l

theorem Loop.OnCourse.start {comment : Int} (bytes behind : List UInt8) (hp : p.buffers = none)
    (hcomment : 0 ≤ comment ∧ comment ≤ MAX_NEXT_COMMENT)
    (hlines : MatchedLines comment p (cut bytes :: rest.map cut)) :
    (lineStart p comment bytes behind).OnCourse p rest := by
  refine ⟨hp, hcomment, ⟨_, _, Loop.start_at bytes behind comment _, hlines.1⟩, ?_⟩
  exact ⟨comment, bytes, behind, 0, hcomment.1, hlines, fun fuel => rfl⟩

/-- Where the condition is met every turn is in range. -/
theorem Loop.OnCourse.inRange (h : l.OnCourse p rest) : l.InRange := by
  obtain ⟨hzero, hmax⟩ := h.counter
  obtain ⟨s, text, hat, hmatched⟩ := h.ahead
  have hcomment := hat.comment
  have hreport : l.comment ≠ 0 → 0 ≤ l.comment - 1 ∧ l.comment - 1 < MAX_NEXT_COMMENT := by
    intro hne
    omega
  refine ⟨h.counter, hreport, ?_, ?_⟩
  · intro commentP hfind hfault
    obtain ⟨t, after, rfl, ht, rfl⟩ := hat.split hfind
    cases hat.turns with
    | escaped l' s' _ hbody => exact absurd (hfault.symm.trans hbody) nofun
    | opening l' s' rest _ hbody => exact absurd (hfault.symm.trans hbody) nofun
    | full _ hbody => exact absurd (hfault.symm.trans hbody) nofun
    | below _ hneg => omega
    | closing l' s' _ hbody => exact absurd (hfault.symm.trans hbody) nofun
    | stop l' s' _ hbody => exact absurd (hfault.symm.trans hbody) nofun
    | semicolon l' s' _ hbody => exact absurd (hfault.symm.trans hbody) nofun
  · intro commentP l' hfind hends hnone hok
    obtain ⟨t, after, rfl, ht, rfl⟩ := hat.split hfind
    have hsame : ∀ {l₂ : Loop} {s₂ : Scan} {rest₂ : List UInt8},
        l.body (l.newBuf + t.length) = .ok l₂ → l₂.At s₂ rest₂ → s₂.comment = l'.comment := by
      intro l₂ s₂ rest₂ hbody hat₂
      rw [← hat₂.comment, Outcome.ok.inj (hok.symm.trans hbody)]
    cases hat.turns with
    | escaped l₂ s₂ _ hbody hat₂ hsame₂ => rw [← hsame hbody hat₂, hsame₂, ← hcomment, hnone]
    | opening l₂ s₂ rest _ _ _ _ _ _ hnot => exact absurd hends hnot
    | full _ _ hfull =>
      rw [← hcomment, hnone] at hfull
      exact absurd hfull (by decide)
    | below hbody => exact absurd (hok.symm.trans hbody) nofun
    | closing l₂ s₂ htokens =>
      rw [matched_bytes _ ht [] (COMMENT_META :: after), List.append_nil, htokens] at hmatched
      have hpos := hmatched.1
      omega
    | stop l₂ s₂ _ hbody hat₂ hzero₂ => rw [← hsame hbody hat₂, hzero₂]
    | semicolon l₂ s₂ _ hbody hat₂ hsame₂ => rw [← hsame hbody hat₂, hsame₂, ← hcomment, hnone]

/-- The next turn of the loop over the semicolons. -/
theorem Loop.OnCourse.turn {l' : Loop} {commentP : Nat} (h : l.OnCourse p rest)
    (hfind : strchr l.buf l.newBuf COMMENT_META = some commentP) (hbody : l.body commentP = .ok l') :
    l'.OnCourse p rest := by
  obtain ⟨hzero, hmax⟩ := h.counter
  obtain ⟨s, text, hat, hmatched⟩ := h.ahead
  obtain ⟨depth, bytes, behind, turns, hdepth, hlines, hruns⟩ := h.line
  have hcomment := hat.comment
  have hturn : ∀ fuel,
      commentLoop (fuel + (turns + 1)) (lineStart p depth bytes behind) = commentLoop fuel l' := by
    intro fuel
    rw [Nat.add_comm turns 1, ← Nat.add_assoc, hruns, commentLoop, hfind]
    simp [hbody]
  obtain ⟨t, after, rfl, ht, rfl⟩ := hat.split hfind
  rw [matched_bytes _ ht [] (COMMENT_META :: after), List.append_nil] at hmatched
  have hnext : ∀ {l₂ : Loop} {s₂ : Scan} {rest₂ : List UInt8},
      l.body (l.newBuf + t.length) = .ok l₂ → l₂.At s₂ rest₂ →
      0 ≤ s₂.comment ∧ s₂.comment ≤ MAX_NEXT_COMMENT →
      Matched s₂.comment (tokens [] 0 rest₂) → l'.OnCourse p rest := by
    intro l₂ s₂ rest₂ hbody₂ hat₂ hrange hmatched₂
    obtain rfl := Outcome.ok.inj (hbody.symm.trans hbody₂)
    rw [← hat₂.comment] at hrange
    exact ⟨h.buffers, hrange, ⟨s₂, rest₂, hat₂, hmatched₂⟩,
      ⟨depth, bytes, behind, turns + 1, hdepth, hlines, hturn⟩⟩
  cases hat.turns with
  | escaped l₂ s₂ htokens hbody₂ hat₂ hsame =>
    rw [htokens] at hmatched
    exact hnext hbody₂ hat₂ (by omega) (by rw [hsame]; exact hmatched)
  | opening l₂ s₂ rest₂ htokens hbody₂ hat₂ hup hfits =>
    rw [htokens] at hmatched
    obtain ⟨hlow, hhigh⟩ := hfits
    exact hnext hbody₂ hat₂ (by omega) (by rw [hup]; exact hmatched hhigh)
  | full _ hbody₂ =>
    obtain rfl := Outcome.ok.inj (hbody.symm.trans hbody₂)
    exact ⟨h.buffers, h.counter, h.ahead,
      ⟨depth, bytes, behind, turns + 1, hdepth, hlines, hturn⟩⟩
  | below hbody₂ => cases hbody.symm.trans hbody₂
  | closing l₂ s₂ htokens hbody₂ hat₂ hdown =>
    rw [htokens] at hmatched
    obtain ⟨hpos, hmatched⟩ := hmatched
    exact hnext hbody₂ hat₂ (by omega) (by rw [hdown]; exact hmatched)
  | stop l₂ s₂ _ hbody₂ hat₂ hout =>
    exact hnext hbody₂ hat₂ (by omega) trivial
  | semicolon l₂ s₂ htokens hbody₂ hat₂ hsame hne =>
    rw [htokens] at hmatched
    exact hnext hbody₂ hat₂ (by omega) (by rw [hsame]; exact hmatched.resolve_left hne)

theorem loadLine_processText {comment : Int} {line : CString} (h0 : 0 ≤ comment)
    (hp : p.buffers = none) (hnested : Nested comment (tokens [] 0 line)) :
    loadLine comment p line =
      processText p (trim blank (outside comment (tokens [] 0 line))) >>= fun r =>
        .ok (r, depthBehind comment (tokens [] 0 line)) := by
  rw [loadLine_eq h0 hp hnested, processText]
  split
  · rfl
  · rfl

/-- The next line. -/
theorem Loop.OnCourse.next {p' : Parsed} {bytes : List UInt8} (behind : List UInt8)
    (h : l.OnCourse p (bytes :: rest)) (hfind : strchr l.buf l.newBuf COMMENT_META = none)
    (hprocess : l.process p = .ok (some p')) :
    (lineStart p' l.comment bytes behind).OnCourse p' rest := by
  obtain ⟨depth, bytes₀, behind₀, turns, hdepth, ⟨hmatched, hlines⟩, hruns⟩ := h.line
  have hrun : commentLoop (1 + turns) (lineStart p depth bytes₀ behind₀) = .ok l := by
    rw [hruns, commentLoop, hfind]
  obtain ⟨r, hr, hok, -, -⟩ := commentLoop_settles bytes₀ behind₀ depth
    (p.buffers.map fun b => ({ comment := b.comment ++ b.lline } : Buffers))
  have hreturns : ∃ l, r = .ok l := hr.returns_iff.mp ⟨_, l, hrun⟩
  have hnested := hmatched.nested (hok.mp hreturns)
  have hload := loadLine_of_commentLoop hrun
  rw [hprocess, loadLine_processText hdepth h.buffers hnested] at hload
  obtain ⟨r', htext, hr'⟩ := bind_eq_ok.mp hload
  obtain ⟨rfl, hbehind⟩ := Prod.mk.inj (Outcome.ok.inj hr')
  have hrest := hlines hnested p' htext
  rw [hbehind] at hrest
  refine .start bytes behind ?_ h.counter hrest
  unfold processText at htext
  split at htext
  · obtain rfl := Option.some.inj (Outcome.ok.inj htext)
    exact h.buffers
  · exact processTextLine_buffers h.buffers htext

/-- Run lemma: the load of a file that meets the condition stays on course. -/
theorem Reaches.onCourse (h : Reaches mallocs false cfg text l p rest)
    (hlines : MatchedLines 0 ⟨cfg, cfg.current, none⟩ (textLines text)) : l.OnCourse p rest := by
  induction h with
  | first commentBuffer llineBuffer p bytes behind rest hinit _ hp hread =>
    obtain ⟨rfl, rfl⟩ := Prod.mk.inj (Outcome.ok.inj hinit)
    subst hp
    rw [textLines, hread, List.map_cons] at hlines
    exact .start bytes behind rfl ⟨Int.le_refl 0, by decide⟩ hlines
  | turn l l' p rest commentP _ hfind hbody ih => exact ih.turn hfind hbody
  | line l p p' bytes behind rest _ hfind hprocess ih => exact ih.next behind hfind hprocess

/-- With comments the load does not come to the lines. -/
theorem not_reaches_withcomments : ¬ Reaches mallocs true cfg text l p rest := by
  intro h
  induction h with
  | first commentBuffer llineBuffer p bytes behind rest hinit hbuffers =>
    have hnone := commentInit_lline hinit
    rw [hnone] at hbuffers
    exact absurd (hbuffers rfl).2 nofun
  | turn _ _ _ _ _ _ _ _ ih => exact ih
  | line _ _ _ _ _ _ _ _ _ ih => exact ih

/-! ## The condition is met where every point is in range -/

/-- From a point on, what is left of the line. -/
theorem Reaches.matched
    (hrange : ∀ l p rest, Reaches mallocs withcomments cfg text l p rest → l.InRange)
    (h : Reaches mallocs withcomments cfg text l p rest) {s : Scan} {ahead : List UInt8}
    (hat : l.At s ahead) : Matched s.comment (tokens [] 0 ahead) := by
  induction hn : ahead.length using Nat.strong_induction_on generalizing l s ahead with
  | _ n ih =>
    subst hn
    have hin := hrange l p rest h
    by_cases hmem : COMMENT_META ∈ ahead
    · obtain ⟨t, after, rfl, ht⟩ := List.eq_append_cons_of_mem hmem
      have hlt : after.length < (t ++ COMMENT_META :: after).length := by simp; omega
      have hfind := hat.found ht
      rw [matched_bytes _ ht [] (COMMENT_META :: after), List.append_nil]
      cases hat.turns with
      | escaped l' s' htokens hbody hat' hsame =>
        have hrest := ih _ hlt (h.turn _ _ _ _ _ hfind hbody) hat' rfl
        rw [hsame] at hrest
        rw [htokens]
        exact hrest
      | opening l' s' after' htokens hbody hat' hup _ hlt' =>
        have hlt₂ : after'.length < (t ++ COMMENT_META :: after).length := hlt'.trans hlt
        have hrest := ih _ hlt₂ (h.turn _ _ _ _ _ hfind hbody) hat' rfl
        rw [hup] at hrest
        rw [htokens]
        exact fun _ => hrest
      | full htokens _ hmax =>
        obtain ⟨after', htokens⟩ := htokens
        rw [htokens]
        exact fun hroom => absurd hroom (not_lt.mpr hmax)
      | below hbody => exact absurd hbody (hin.write _ hfind)
      | closing l' s' htokens hbody hat' hdown hends =>
        have hrest := ih _ hlt (h.turn _ _ _ _ _ hfind hbody) hat' rfl
        have hstray := hin.stray _ l' hfind hends
        have hlow := hin.counter.1
        have hcomment := hat.comment
        have hcomment' := hat'.comment
        have hpos : 0 < s.comment := by
          by_contra hnot
          have hzero : l.comment = 0 := by omega
          have hzero' := hstray hzero hbody
          omega
        rw [hdown] at hrest
        rw [htokens]
        exact ⟨hpos, hrest⟩
      | stop l' s' htokens _ _ _ hzero =>
        rw [htokens]
        exact .inl hzero
      | semicolon l' s' htokens hbody hat' hsame =>
        have hrest := ih _ hlt (h.turn _ _ _ _ _ hfind hbody) hat' rfl
        rw [hsame] at hrest
        rw [htokens]
        exact .inr hrest
    · have hbytes := matched_bytes s.comment hmem [] []
      rw [List.append_nil] at hbytes
      rw [hbytes, tokens]
      trivial

/-- The points that the loop over the semicolons comes to. -/
theorem Reaches.loop (h : Reaches mallocs withcomments cfg text l p rest) {fuel : Nat} {l' : Loop}
    (hrun : commentLoop fuel l = .ok l') :
    Reaches mallocs withcomments cfg text l' p rest ∧
      strchr l'.buf l'.newBuf COMMENT_META = none := by
  induction fuel generalizing l with
  | zero => exact absurd hrun nofun
  | succ fuel ih =>
    rw [commentLoop] at hrun
    cases hfind : strchr l.buf l.newBuf COMMENT_META with
    | none =>
      rw [hfind] at hrun
      obtain rfl := Outcome.ok.inj hrun
      exact ⟨h, hfind⟩
    | some commentP =>
      rw [hfind] at hrun
      obtain ⟨l₁, hbody, hrun⟩ := bind_eq_ok.mp hrun
      exact ih (h.turn _ _ _ _ _ hfind hbody) hrun

/-- From the start of a line on. -/
theorem Reaches.matchedLines
    (hrange : ∀ l p rest, Reaches mallocs withcomments cfg text l p rest → l.InRange)
    {comment : Int} {bytes behind : List UInt8} (hp : p.buffers = none)
    (h : Reaches mallocs withcomments cfg text (lineStart p comment bytes behind) p rest) :
    MatchedLines comment p (cut bytes :: rest.map cut) := by
  induction rest generalizing comment p bytes behind with
  | nil =>
    exact ⟨h.matched hrange (Loop.start_at bytes behind comment _), fun _ _ _ => trivial⟩
  | cons bytes' rest ih =>
    refine ⟨h.matched hrange (Loop.start_at bytes behind comment _), ?_⟩
    intro hnested p' htext
    have h0 : 0 ≤ comment := (hrange _ _ _ h).counter.1
    have hstart : lineStart p comment bytes behind = Loop.start bytes behind comment none := by
      rw [lineStart, hp]
      rfl
    obtain ⟨l, hrun, -, hcomment⟩ := commentLoop_text bytes behind h0 hnested
    have hrun := hrun _ (Nat.lt_succ_self _)
    rw [← hstart] at hrun
    have hload := loadLine_of_commentLoop hrun
    rw [loadLine_processText h0 hp hnested, htext, ok_bind] at hload
    obtain ⟨r, hprocess, hr⟩ := bind_eq_ok.mp hload.symm
    obtain ⟨rfl, -⟩ := Prod.mk.inj (Outcome.ok.inj hr)
    obtain ⟨hl, hfind⟩ := h.loop hrun
    have hp' : p'.buffers = none := by
      unfold processText at htext
      split at htext
      · obtain rfl := Option.some.inj (Outcome.ok.inj htext)
        exact hp
      · exact processTextLine_buffers hp htext
    have hnext := ih hp' (hl.line l p p' bytes' [] rest hfind hprocess)
    rw [hcomment] at hnext
    exact hnext

/-- At every point of the load of a file the counter and the accesses to `nest` are in range, and
    the end of a comment that is not open leaves the counter at zero, exactly when the lines do not
    end a comment that is not open, or are not read at all. -/
theorem commentDepth_inRange_iff (mallocs : Mallocs) (withcomments : Bool) (cfg : SpdConfig)
    (text : List UInt8) :
    (∀ l p rest, Reaches mallocs withcomments cfg text l p rest → l.InRange) ↔
      withcomments = true ∨ MatchedLines 0 ⟨cfg, cfg.current, none⟩ (textLines text) := by
  cases withcomments with
  | true => exact iff_of_true (fun l p rest h => absurd h not_reaches_withcomments) (.inl rfl)
  | false =>
    constructor
    · intro hrange
      right
      cases hread : fgetsAll 8191 [] text with
      | nil =>
        rw [textLines, hread]
        trivial
      | cons bytes rest =>
        rw [textLines, hread]
        have hfirst : Reaches mallocs false cfg text (lineStart ⟨cfg, cfg.current, none⟩ 0 bytes [])
            ⟨cfg, cfg.current, none⟩ rest :=
          .first none none _ bytes [] rest rfl (absurd · Bool.false_ne_true) rfl hread
        exact hfirst.matchedLines hrange rfl
    · rintro (hwith | hlines) l p rest h
      · cases hwith
      · exact (h.onCourse hlines).inRange

/-- A line that ends a comment when none is open, between a section and its variable: the counter
    is below zero behind it. -/
theorem commentDepth_below :
    ¬ ∀ mallocs withcomments cfg text l p rest,
        Reaches mallocs withcomments cfg text l p rest → l.InRange := by
  intro h
  let text := lit "[a]\n--;\nb=1\n"
  let p : Parsed := ⟨{ root := [{ name := lit "a" }], current := some 0 }, some 0, none⟩
  have hfirst : Reaches ⟨true, none⟩ false {} text (lineStart ⟨{}, none, none⟩ 0 (lit "[a]\n") [])
      ⟨{}, none, none⟩ [lit "--;\n", lit "b=1\n"] :=
    .first none none _ _ _ _ rfl nofun rfl (by decide +kernel)
  have hline := hfirst.line _ _ p _ [] _ (by decide +kernel) (by decide +kernel)
  have hturn := hline.turn _ { lineStart p 0 (lit "--;\n") [] with comment := -1, newBuf := 3 }
    _ _ 2 (by decide +kernel) (by decide +kernel)
  exact absurd (h _ _ _ _ _ _ _ hturn).counter.1 (by decide)

end

end Spider.Config.Text
