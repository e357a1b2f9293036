import Spider.Config.Lines

/-!
# What the lines of a file say

The text of a line, stated without the loop that takes it out of the buffer: the
line is read as tokens, the depth of the block comments is counted over them,
and what is outside of them is the text, up to a semicolon that stands alone.
The loader hands these texts to `process_text_line`, one after the other, until
one is rejected.
-/

namespace Spider.Config.Text

open Lib Outcome CString Strings

/-! ## The text of a line -/

/-- What is outside of block comments, with `depth` of them open, up to the first plain semicolon
    there. -/
def outside (depth : Int) : List Token → CString
  | [] => []
  | .opening :: rest => outside (depth + 1) rest
  | .closing :: rest => outside (depth - 1) rest
  | .semicolon :: rest => if depth = 0 then [] else outside depth rest
  | .byte c :: rest => (if depth = 0 then [c] else []) ++ outside depth rest
  | .escaped :: rest => (if depth = 0 then [ch ';'] else []) ++ outside depth rest

/-- Block comments are closed inside of them only, and nest at most 128 deep. -/
def Nested (depth : Int) : List Token → Prop
  | [] => True
  | .opening :: rest => depth < MAX_NEXT_COMMENT ∧ Nested (depth + 1) rest
  | .closing :: rest => 0 < depth ∧ Nested (depth - 1) rest
  | .semicolon :: rest => depth = 0 ∨ Nested depth rest
  | .byte _ :: rest => Nested depth rest
  | .escaped :: rest => Nested depth rest

instance decidableNested : (depth : Int) → (line : List Token) → Decidable (Nested depth line)
  | _, [] => inferInstanceAs (Decidable True)
  | depth, .opening :: rest =>
    let _ := decidableNested (depth + 1) rest
    inferInstanceAs (Decidable (depth < MAX_NEXT_COMMENT ∧ Nested (depth + 1) rest))
  | depth, .closing :: rest =>
    let _ := decidableNested (depth - 1) rest
    inferInstanceAs (Decidable (0 < depth ∧ Nested (depth - 1) rest))
  | depth, .semicolon :: rest =>
    let _ := decidableNested depth rest
    inferInstanceAs (Decidable (depth = 0 ∨ Nested depth rest))
  | depth, .byte _ :: rest => decidableNested depth rest
  | depth, .escaped :: rest => decidableNested depth rest

/-- The texts of the lines, without surrounding blanks, where there is one. -/
def reference (depth : Int) : List CString → List CString
  | [] => []
  | line :: rest =>
    let text := trim blank (outside depth (tokens [] 0 line))
    (if text = [] then [] else [text]) ++ reference (depthBehind depth (tokens [] 0 line)) rest

/-- `Nested` for the lines of a file. -/
def NestedLines (depth : Int) : List CString → Prop
  | [] => True
  | line :: rest =>
    Nested depth (tokens [] 0 line) ∧ NestedLines (depthBehind depth (tokens [] 0 line)) rest

instance decidableNestedLines :
    (depth : Int) → (lines : List CString) → Decidable (NestedLines depth lines)
  | _, [] => inferInstanceAs (Decidable True)
  | depth, line :: rest =>
    let _ := decidableNestedLines (depthBehind depth (tokens [] 0 line)) rest
    inferInstanceAs (Decidable (Nested depth (tokens [] 0 line) ∧
      NestedLines (depthBehind depth (tokens [] 0 line)) rest))

/-- The lines of a file, with the newlines at their ends. -/
def fileLines : List UInt8 → List (List UInt8)
  | [] => []
  | c :: rest =>
    if c = ch '\n' then [c] :: fileLines rest
    else match fileLines rest with
    | [] => [[c]]
    | line :: lines => (c :: line) :: lines

theorem Nested.depthBehind_nonneg {depth : Int} {line : List Token} (h : Nested depth line)
    (h0 : 0 ≤ depth) : 0 ≤ depthBehind depth line := by
  induction line generalizing depth with
  | nil => exact h0
  | cons token line ih =>
    cases token with
    | byte c => exact ih h h0
    | escaped => exact ih h h0
    | opening => exact ih h.2 (by omega)
    | closing =>
      obtain ⟨hpos, hrest⟩ := h
      exact ih hrest (by omega)
    | semicolon =>
      rw [depthBehind]
      split
      · exact Int.le_refl 0
      · next hne => exact ih (h.resolve_left hne) h0

/-! ## The scan -/

/-- What the scan has kept as text: outside of comments it goes on with what has been passed, and
    inside it does not. -/
inductive Scan.Holds (s : Scan) (back : List UInt8) : CString → Prop
  | outside (text : CString) (hcomment : s.comment = 0) (hprocess : s.process = true)
      (hkept : s.kept = .live text) : Holds s back (text ++ back.reverse)
  | inside (text gap : CString) (hcomment : 0 < s.comment) (hprocess : s.process = true)
      (hkept : s.kept = .cut text gap) : Holds s back text
  | before (hcomment : 0 < s.comment) (hprocess : s.process = false) : Holds s back []

section

variable {s : Scan} {back : List UInt8} {held : CString}

/-- What a byte, or a semicolon that is kept, adds to the text. -/
def shownAt (depth : Int) (c : UInt8) : CString := if depth = 0 then [c] else []

theorem Scan.Holds.byte (h : s.Holds back held) (c : UInt8) :
    s.Holds (c :: back) (held ++ shownAt s.comment c) := by
  cases h with
  | outside text hcomment hprocess hkept =>
    have hheld : text ++ back.reverse ++ shownAt s.comment c = text ++ (c :: back).reverse := by
      simp [shownAt, hcomment]
    rw [hheld]
    exact .outside text hcomment hprocess hkept
  | inside text gap hcomment hprocess hkept =>
    rw [shownAt, if_neg (ne_of_gt hcomment), List.append_nil]
    exact .inside _ gap hcomment hprocess hkept
  | before hcomment hprocess =>
    rw [shownAt, if_neg (ne_of_gt hcomment)]
    exact .before hcomment hprocess

theorem Scan.Holds.pass (h : s.Holds back held) {n : Int}
    (hn : n = s.comment ∨ 0 < n ∧ 0 < s.comment) :
    Scan.Holds { s with comment := n, kept := s.kept.pass (back.reverse ++ lit ";") } []
      (held ++ shownAt s.comment (ch ';')) := by
  cases h with
  | outside text hcomment hprocess hkept =>
    have hheld : text ++ back.reverse ++ shownAt s.comment (ch ';') =
        text ++ (back.reverse ++ lit ";") ++ ([] : List UInt8).reverse := by
      simp [shownAt, hcomment, lit]
    have hzero : n = 0 := by omega
    rw [hheld]
    exact .outside _ hzero hprocess (by rw [hkept]; rfl)
  | inside text gap hcomment hprocess hkept =>
    have hpos : 0 < n := by omega
    rw [shownAt, if_neg (ne_of_gt hcomment), List.append_nil]
    exact .inside _ (gap ++ (back.reverse ++ lit ";")) hpos hprocess (by rw [hkept]; rfl)
  | before hcomment hprocess =>
    have hpos : 0 < n := by omega
    rw [shownAt, if_neg (ne_of_gt hcomment)]
    exact .before hpos hprocess

theorem Scan.Holds.enter (h : s.Holds back held) :
    Scan.Holds { s with comment := s.comment + 1, kept := s.kept.enter back.reverse } [] held := by
  cases h with
  | outside text hcomment hprocess hkept =>
    have hpos : 0 < s.comment + 1 := by omega
    exact .inside _ (lit "--") hpos hprocess (by rw [hkept]; rfl)
  | inside text gap hcomment hprocess hkept =>
    have hpos : 0 < s.comment + 1 := by omega
    exact .inside _ (gap ++ back.reverse ++ [0] ++ lit "--") hpos hprocess (by rw [hkept]; rfl)
  | before hcomment hprocess =>
    have hpos : 0 < s.comment + 1 := by omega
    exact .before hpos hprocess

theorem Scan.Holds.leave (h : s.Holds back held) (hone : s.comment = 1) (rest : List UInt8) :
    (Scan.leave { s with comment := 0 } back.reverse rest).Holds [] held := by
  cases h with
  | outside text hcomment => exact absurd (hcomment.symm.trans hone) (by decide)
  | inside text gap hcomment hprocess hkept =>
    obtain ⟨buffers, hleave⟩ := leave_cut { s with comment := 0 } back.reverse rest hprocess hkept
    have hout : Scan.Holds { s with comment := 0, kept := .live held, buffers := buffers } []
        (held ++ ([] : List UInt8).reverse) := .outside held rfl hprocess rfl
    rw [List.reverse_nil, List.append_nil] at hout
    rw [hleave]
    exact hout
  | before hcomment hprocess =>
    rw [leave_before { s with comment := 0 } back.reverse rest hprocess]
    exact .outside [] rfl rfl rfl

theorem Scan.Holds.finish (h : s.Holds back held) :
    (if s.process then s.kept.finish back.reverse else []) = held := by
  cases h with
  | outside text hcomment hprocess hkept => simp [hprocess, hkept, Kept.finish]
  | inside text gap hcomment hprocess hkept => simp [hprocess, hkept, Kept.finish]
  | before hcomment hprocess => simp [hprocess]

theorem Scan.Holds.nonneg (h : s.Holds back held) : 0 ≤ s.comment := by
  cases h with
  | outside text hcomment => omega
  | inside text gap hcomment => omega
  | before hcomment => omega

end

/-- The string that is processed of a line, when one is. -/
def Scan.text (s : Scan) : CString := if s.process then s.kept.finish [] else []

/-- The loop over the semicolons keeps what is outside of block comments. -/
theorem scan_text {s : Scan} {back : List UInt8} {ahead : Nat} {held : CString}
    (rest : List UInt8) (h : s.Holds back held)
    (hnested : Nested s.comment (tokens back ahead rest)) : ∃ s', scan s back ahead rest = .ok s' ∧
      s'.text = held ++ outside s.comment (tokens back ahead rest) := by
  induction rest generalizing s back ahead held with
  | nil =>
    refine ⟨_, by rw [scan], ?_⟩
    rw [tokens, Text.outside, List.append_nil, ← h.finish]
    simp [Scan.text, Kept.finish]
  | cons c rest ih =>
    cases ahead with
    | succ ahead => exact ih h hnested
    | zero =>
      cases scan_reads s back c rest with
      | byte _ htokens hscan =>
        rw [htokens] at hnested ⊢
        rw [hscan]
        obtain ⟨s', hrest, htext⟩ := ih (h.byte c) hnested
        exact ⟨s', hrest, by rw [htext, List.append_assoc]; rfl⟩
      | escaped _ _ htokens hscan =>
        rw [htokens] at hnested ⊢
        rw [hscan]
        obtain ⟨s', hrest, htext⟩ := ih (h.pass (.inl rfl)) hnested
        exact ⟨s', hrest, by rw [htext, List.append_assoc]; rfl⟩
      | opening _ htokens hscan =>
        rw [htokens] at hnested ⊢
        obtain ⟨hlt, hnested⟩ := hnested
        have hdeep : ¬ s.comment ≥ 128 := not_le.mpr hlt
        rw [hscan, if_neg hdeep, if_neg (not_lt.mpr h.nonneg)]
        exact ih h.enter hnested
      | closing _ htokens hscan =>
        rw [htokens] at hnested ⊢
        obtain ⟨hpos, hnested⟩ := hnested
        rw [hscan]
        by_cases hone : s.comment - 1 = 0
        · rw [if_pos hone, hone]
          rw [hone] at hnested
          have hleave := h.leave (by omega) rest
          have hzero := Scan.leave_comment { s with comment := 0 } back.reverse rest
          obtain ⟨s', hrest, htext⟩ := ih hleave (by rw [hzero]; exact hnested)
          refine ⟨s', hrest, ?_⟩
          rw [htext, hzero, Text.outside, hone]
        · rw [if_neg hone]
          obtain ⟨s', hrest, htext⟩ := ih (h.pass (n := s.comment - 1) (.inr (by omega))) hnested
          refine ⟨s', hrest, ?_⟩
          rw [htext, shownAt, if_neg (ne_of_gt hpos), List.append_nil]
          rfl
      | semicolon _ htokens hscan =>
        rw [htokens] at hnested ⊢
        rw [hscan, Text.outside]
        by_cases hzero : s.comment = 0
        · rw [if_pos hzero, if_pos hzero]
          refine ⟨_, rfl, ?_⟩
          rw [List.append_nil, ← h.finish]
          simp [Scan.text, Kept.finish]
        · rw [if_neg hzero, if_neg hzero]
          obtain ⟨s', hrest, htext⟩ := ih (h.pass (.inl rfl)) (hnested.resolve_left hzero)
          refine ⟨s', hrest, ?_⟩
          rw [htext, shownAt, if_neg hzero, List.append_nil]

/-- The string at `process_buf`, when that is not null. -/
def Loop.text (l : Loop) : CString :=
  match l.processBuf with
  | some processBuf => cut (l.buf.drop processBuf)
  | none => []

theorem Loop.Left.text_eq {l : Loop} {s : Scan} (h : l.Left s) : l.text = s.text := by
  have hprocess := h.process
  have htext := h.text
  unfold Loop.text Scan.text
  cases hp : l.processBuf with
  | none =>
    rw [hp] at hprocess
    simp [hprocess]
  | some processBuf =>
    rw [hp] at hprocess htext
    simp [hprocess, htext, Kept.finish]

theorem scan_start {comment : Int} {buf : CString} (h0 : 0 ≤ comment)
    (hnested : Nested comment (tokens [] 0 buf)) : ∃ s,
    scan ⟨comment, comment = 0, .live [], none⟩ [] 0 buf = .ok s ∧
      s.text = outside comment (tokens [] 0 buf) ∧
      s.comment = depthBehind comment (tokens [] 0 buf) ∧ s.buffers = none := by
  have hholds : Scan.Holds ⟨comment, comment = 0, .live [], none⟩ [] [] := by
    by_cases hzero : comment = 0
    · exact .outside [] hzero (decide_eq_true hzero) rfl
    · have hpos : 0 < comment := by omega
      exact .before hpos (decide_eq_false hzero)
  obtain ⟨s, hscan, htext⟩ := scan_text buf hholds hnested
  exact ⟨s, hscan, htext, scan_comment buf hscan, scan_buffers buf hscan rfl⟩

/-- In the buffer the loop leaves what is outside of block comments. -/
theorem commentLoop_text (bytes behind : List UInt8) {comment : Int} (h0 : 0 ≤ comment)
    (hnested : Nested comment (tokens [] 0 (cut bytes))) : ∃ l,
    (∀ fuel, (cut bytes).length < fuel →
      commentLoop fuel (Loop.start bytes behind comment none) = .ok l) ∧
    l.text = outside comment (tokens [] 0 (cut bytes)) ∧
    l.comment = depthBehind comment (tokens [] 0 (cut bytes)) := by
  have hrun := (Loop.start_at bytes behind comment none).runs
  obtain ⟨s, hscan, htext, hcomment, -⟩ := scan_start h0 hnested
  rw [hscan] at hrun
  obtain ⟨l, hfuel, hleft⟩ := hrun
  exact ⟨l, hfuel, hleft.text_eq.trans htext, hleft.comment.trans hcomment⟩

/-! ## Lines -/

/-- What is processed of a line, empty when nothing is. -/
def lineText (comment : Int) (p : Parsed) (buf : CString) : CString :=
  let buffers := p.buffers.map fun b => ({ comment := b.comment ++ b.lline } : Buffers)
  match scan ⟨comment, comment = 0, .live [], buffers⟩ [] 0 buf with
  | .ok s => spdStrip s.text
  | _ => []

/-- The texts that `process_text_line` is given while the lines are read: that of a line, if there
    is one, and those of the lines behind it, if the loader goes on. -/
def handed (comment : Int) (p : Parsed) : List CString → List CString
  | [] => []
  | buf :: rest =>
    (if lineText comment p buf = [] then [] else [lineText comment p buf]) ++
      match loadLine comment p buf with
      | .ok (some p, comment) => handed comment p rest
      | _ => []

/-- The texts up to the first one that `process_text_line` does not accept. -/
def untilRejected (p : Parsed) : List CString → List CString
  | [] => []
  | text :: rest =>
    text :: match processTextLine p text with
      | .ok (some p) => untilRejected p rest
      | _ => []

/-- The texts, handed to `process_text_line` one after the other. -/
def processTexts (p : Parsed) : List CString → Outcome (Option Parsed)
  | [] => .ok (some p)
  | text :: rest => do
    match ← processTextLine p text with
    | some p => processTexts p rest
    | none => .ok none

theorem processHeader_buffers {p p' : Parsed} {buf : CString} (hp : p.buffers = none)
    (h : processHeader p buf = .ok (some p')) : p'.buffers = none := by
  unfold processHeader at h
  rw [hp] at h
  dsimp only at h
  split at h
  next => exact absurd h nofun
  next =>
    obtain ⟨name, -, h⟩ := bind_eq_ok.mp h
    split at h
    next => exact absurd h nofun
    next =>
      obtain ⟨r, -, h⟩ := bind_eq_ok.mp h
      split at h
      next => exact absurd h nofun
      next =>
        cases h
        rfl
      next =>
        cases h
        rfl

theorem processTextLine_buffers {p p' : Parsed} {buf : CString} (hp : p.buffers = none)
    (h : processTextLine p buf = .ok (some p')) : p'.buffers = none := by
  unfold processTextLine at h
  split at h
  next => exact processHeader_buffers hp h
  next =>
    split at h
    next =>
      cases h
      exact hp
    next =>
      split at h
      next => exact absurd h nofun
      next =>
        split at h
        next =>
          cases h
          exact hp
        next =>
          cases h
          rw [hp]
          rfl

section

variable {comment : Int} {p : Parsed} {buf : CString}

theorem lineText_eq (h0 : 0 ≤ comment) (hp : p.buffers = none)
    (hnested : Nested comment (tokens [] 0 buf)) :
    lineText comment p buf = trim blank (outside comment (tokens [] 0 buf)) := by
  obtain ⟨s, hscan, htext, -, -⟩ := scan_start h0 hnested
  rw [lineText, hp, Option.map_none, hscan, ← htext]
  rfl

/-- Reading a line is processing its text, if there is one. -/
theorem loadLine_eq (h0 : 0 ≤ comment) (hp : p.buffers = none)
    (hnested : Nested comment (tokens [] 0 buf)) :
    loadLine comment p buf =
      if trim blank (outside comment (tokens [] 0 buf)) = [] then
        .ok (some p, depthBehind comment (tokens [] 0 buf))
      else
        processTextLine p (trim blank (outside comment (tokens [] 0 buf))) >>= fun r =>
          .ok (r, depthBehind comment (tokens [] 0 buf)) := by
  obtain ⟨s, hscan, htext, hcomment, hbuffers⟩ := scan_start h0 hnested
  have hsame : { p with buffers := none } = p := by rw [← hp]
  rw [loadLine, hp, Option.map_none, hscan, ok_bind, ← htext, ← hcomment]
  cases hprocess : s.process with
  | true => simp [Scan.text, hprocess, hbuffers, hsame, spdStrip_eq]
  | false => simp [Scan.text, hprocess, hbuffers, hsame, trim]

/-- Run lemma: the texts that are handed on are those of the reference, until one is rejected. -/
theorem handed_eq (lines : List CString) (h0 : 0 ≤ comment) (hp : p.buffers = none)
    (hnested : NestedLines comment lines) :
    handed comment p lines = untilRejected p (reference comment lines) := by
  induction lines generalizing comment p with
  | nil => rfl
  | cons buf lines ih =>
    obtain ⟨hline, hlines⟩ := hnested
    have hdepth := hline.depthBehind_nonneg h0
    rw [handed, reference, lineText_eq h0 hp hline, loadLine_eq h0 hp hline]
    by_cases hempty : trim blank (outside comment (tokens [] 0 buf)) = []
    · simpa [hempty] using ih hdepth hp hlines
    · simp only [if_neg hempty, List.cons_append, List.nil_append, untilRejected]
      congr 1
      cases hrun : processTextLine p (trim blank (outside comment (tokens [] 0 buf))) with
      | ok r =>
        cases r with
        | none => rfl
        | some p' => exact ih hdepth (processTextLine_buffers hp hrun) hlines
      | fault => rfl
      | overflow => rfl
      | timeout => rfl

/-- Run lemma: loading the lines is processing the texts of the reference. -/
theorem loadLines_eq (lines : List CString) (h0 : 0 ≤ comment) (hp : p.buffers = none)
    (hnested : NestedLines comment lines) :
    (loadLines comment p lines >>= fun r => if r.2 < 0 then .fault else .ok (r.1.map Parsed.cfg)) =
      processTexts p (reference comment lines) >>= fun r => .ok (r.map Parsed.cfg) := by
  induction lines generalizing comment p with
  | nil => simp [loadLines, reference, processTexts, not_lt.mpr h0]
  | cons buf lines ih =>
    obtain ⟨hline, hlines⟩ := hnested
    have hdepth := hline.depthBehind_nonneg h0
    rw [loadLines, reference, loadLine_eq h0 hp hline]
    by_cases hempty : trim blank (outside comment (tokens [] 0 buf)) = []
    · simpa [hempty] using ih hdepth hp hlines
    · simp only [if_neg hempty, List.cons_append, List.nil_append, processTexts]
      cases hrun : processTextLine p (trim blank (outside comment (tokens [] 0 buf))) with
      | ok r =>
        cases r with
        | none => simp [not_lt.mpr hdepth]
        | some p' => simpa using ih hdepth (processTextLine_buffers hp hrun) hlines
      | fault => rfl
      | overflow => rfl
      | timeout => rfl

end

theorem untilRejected_of_accepted {p p' : Parsed} {texts : List CString}
    (h : processTexts p texts = .ok (some p')) : untilRejected p texts = texts := by
  induction texts generalizing p with
  | nil => rfl
  | cons text texts ih =>
    obtain ⟨r, hrun, hrest⟩ := bind_eq_ok.mp h
    cases r with
    | none => exact absurd hrest nofun
    | some p₁ =>
      rw [untilRejected, hrun]
      exact congrArg (text :: ·) (ih hrest)

/-! ## Files -/

theorem ne_nil_of_mem_fileLines {text line : List UInt8} (h : line ∈ fileLines text) :
    line ≠ [] := by
  induction text generalizing line with
  | nil => exact absurd h List.not_mem_nil
  | cons c text ih =>
    rw [fileLines] at h
    split at h
    · rcases List.mem_cons.mp h with rfl | h
      · exact List.cons_ne_nil c []
      · exact ih h
    · split at h
      · rw [List.mem_singleton.mp h]
        exact List.cons_ne_nil c []
      · next l ls hlines =>
        rcases List.mem_cons.mp h with rfl | h
        · exact List.cons_ne_nil c l
        · exact ih (hlines ▸ List.mem_cons_of_mem l h)

/-- What `fgets` reads, call by call, when `got` is there already. -/
def behindGot (got : List UInt8) : List (List UInt8) → List (List UInt8)
  | [] => if got = [] then [] else [got]
  | line :: lines => (got ++ line) :: lines

/-- Lines that fit into the buffer are read one by one. -/
theorem fgetsAll_fileLines (text : List UInt8) {room : Nat} {got : List UInt8} (hroom : 0 < room)
    (hfirst : ∀ line ∈ (fileLines text).head?, line.length ≤ room)
    (hfits : ∀ line ∈ fileLines text, line.length ≤ 8191) :
    fgetsAll room got text = behindGot got (fileLines text) := by
  induction text generalizing room got with
  | nil => rfl
  | cons c text ih =>
    rw [fgetsAll]
    by_cases hc : c = ch '\n'
    · have hlines : fileLines (c :: text) = [c] :: fileLines text := by rw [fileLines, if_pos hc]
      rw [hlines] at hfits ⊢
      have hrest : ∀ line ∈ fileLines text, line.length ≤ 8191 := fun line hline =>
        hfits line (List.mem_cons_of_mem [c] hline)
      have hfirst : ∀ line ∈ (fileLines text).head?, line.length ≤ 8191 := fun line hline =>
        hrest line (List.mem_of_mem_head? hline)
      rw [if_pos (.inl hc), ih (by omega) hfirst hrest]
      cases fileLines text <;> rfl
    · cases hlines' : fileLines text with
      | nil =>
        have hlines : fileLines (c :: text) = [[c]] := by rw [fileLines, if_neg hc, hlines']
        have htext : text = [] := by
          cases text with
          | nil => rfl
          | cons d text =>
            rw [fileLines] at hlines'
            split at hlines'
            · cases hlines'
            · split at hlines' <;> cases hlines'
        rw [hlines, htext]
        split
        · simp [fgetsAll, behindGot]
        · simp [fgetsAll, behindGot]
      | cons line lines =>
        have hlines : fileLines (c :: text) = (c :: line) :: lines := by
          rw [fileLines, if_neg hc, hlines']
        have hne : line ≠ [] := ne_nil_of_mem_fileLines (hlines' ▸ List.mem_cons_self)
        have hpos := List.length_pos_iff.mpr hne
        rw [hlines] at hfirst hfits ⊢
        have hlen : (c :: line).length ≤ room := hfirst _ rfl
        rw [List.length_cons] at hlen
        rw [if_neg (not_or.mpr ⟨hc, by omega⟩), ih (by omega) ?_ ?_, hlines']
        · simp [behindGot]
        · rw [hlines']
          rintro _ ⟨⟩
          omega
        · intro l hl
          rw [hlines'] at hl
          rcases List.mem_cons.mp hl with rfl | hl
          · have hfit := hfits (c :: l) List.mem_cons_self
            rw [List.length_cons] at hfit
            omega
          · exact hfits l (List.mem_cons_of_mem _ hl)

theorem textLines_eq {text : List UInt8} (hfits : ∀ line ∈ fileLines text, line.length ≤ 8191) :
    textLines text = (fileLines text).map cut := by
  have hfirst : ∀ line ∈ (fileLines text).head?, line.length ≤ 8191 := fun line hline =>
    hfits line (List.mem_of_mem_head? hline)
  rw [textLines, fgetsAll_fileLines text (by decide) hfirst hfits]
  cases fileLines text <;> rfl

/-- Without comments the loader is the processing of the texts of the reference. -/
theorem configTextFileLoad_eq (mallocs : Mallocs) {text : List UInt8} (cfg : SpdConfig)
    (hfits : ∀ line ∈ fileLines text, line.length ≤ 8191)
    (hnested : NestedLines 0 ((fileLines text).map cut)) :
    configTextFileLoad mallocs (some text) cfg false =
      processTexts ⟨cfg, cfg.current, none⟩ (reference 0 ((fileLines text).map cut)) >>= fun r =>
        .ok (r.map Parsed.cfg) := by
  rw [← loadLines_eq _ (Int.le_refl 0) rfl hnested, ← textLines_eq hfits]
  rfl

/-- The texts that are handed to `process_text_line` are those of the reference, up to and including
    the first one that it rejects; when the file is loaded, none is, and they are all of them. -/
theorem handed_reference (mallocs : Mallocs) {text : List UInt8} (cfg : SpdConfig)
    (hfits : ∀ line ∈ fileLines text, line.length ≤ 8191)
    (hnested : NestedLines 0 ((fileLines text).map cut)) :
    handed 0 ⟨cfg, cfg.current, none⟩ (textLines text) =
        untilRejected ⟨cfg, cfg.current, none⟩ (reference 0 ((fileLines text).map cut)) ∧
      ∀ cfg', configTextFileLoad mallocs (some text) cfg false = .ok (some cfg') →
        handed 0 ⟨cfg, cfg.current, none⟩ (textLines text) =
          reference 0 ((fileLines text).map cut) := by
  have hhanded : handed 0 ⟨cfg, cfg.current, none⟩ (textLines text) =
      untilRejected ⟨cfg, cfg.current, none⟩ (reference 0 ((fileLines text).map cut)) := by
    rw [textLines_eq hfits]
    exact handed_eq _ (Int.le_refl 0) rfl hnested
  refine ⟨hhanded, ?_⟩
  intro cfg' hload
  rw [configTextFileLoad_eq mallocs cfg hfits hnested] at hload
  obtain ⟨r, hrun, hr⟩ := bind_eq_ok.mp hload
  cases r with
  | none => exact absurd hr nofun
  | some p => rw [hhanded, untilRejected_of_accepted hrun]

/-- A file with a comment over several lines, nested in itself, an escaped semicolon, and a comment
    that ends with its line. -/
theorem handed_reference_nested :
    handed 0 ⟨{}, none, none⟩
        (textLines (lit "[a] ;-- one\n;-- two --; \\;\n --;\nk =;-- x --; 1\\;2 ; --;\n")) =
      [lit "[a]", lit "k = 1\\;2"] :=
  (handed_reference ⟨true, none⟩ {} (by decide +kernel) (by decide +kernel)).1.trans
    (by decide +kernel)

/-- Two lines outside of a section: the first one is rejected, and the second one not read. -/
theorem handed_stops :
    ¬ ∀ (text : List UInt8) (cfg : SpdConfig),
      (∀ line ∈ fileLines text, line.length ≤ 8191) → NestedLines 0 ((fileLines text).map cut) →
      handed 0 ⟨cfg, cfg.current, none⟩ (textLines text) =
        reference 0 ((fileLines text).map cut) := by
  intro h
  have heq := h (lit "a\nb\n") {} (by decide +kernel) (by decide +kernel)
  revert heq
  decide +kernel

end Spider.Config.Text
