import Spider.Config.Comments
import Spider.Lib.Trim

/-!
# The lines of a configuration file

What the loop over the semicolons leaves of a line has no semicolon but such as
are escaped, and a line of that kind it leaves alone. Lines that fit into the
buffer of `fgets` are read one by one.
-/

namespace Spider.Config.Text

open Lib Outcome CString Strings

/-- A byte that `spd_strip` takes off. -/
def blank (c : UInt8) : Bool := c < 33

theorem spdStrip_eq (s : CString) : spdStrip s = trim blank s := rfl

/-! ## Escaped semicolons -/

/-- Every semicolon has a backslash before it; `prev` is what is before the first byte. -/
def Escaped : Option UInt8 → List UInt8 → Prop
  | _, [] => True
  | prev, c :: rest => (c = ch ';' → prev = some (ch '\\')) ∧ Escaped (some c) rest

section

variable {prev : Option UInt8} {s t : List UInt8}

theorem escaped_append : Escaped prev (s ++ t) ↔ Escaped prev s ∧ Escaped (s.getLast?.or prev) t := by
  induction s generalizing prev with
  | nil => simp [Escaped]
  | cons c s ih =>
    rw [List.cons_append, Escaped, Escaped, ih, and_assoc]
    cases s with
    | nil => rfl
    | cons d s => simp [List.getLast?_cons]

/-- What stands behind something else than a backslash can stand anywhere. -/
theorem Escaped.of_ne (h : Escaped prev s) (hprev : prev ≠ some (ch '\\')) (q : Option UInt8) :
    Escaped q s := by
  cases s with
  | nil => trivial
  | cons c s => exact ⟨fun hc => absurd (h.1 hc) hprev, h.2⟩

theorem escaped_of_notMem (h : ch ';' ∉ s) : Escaped prev s := by
  induction s generalizing prev with
  | nil => trivial
  | cons c s ih =>
    constructor
    · intro hc
      exact absurd (hc ▸ List.mem_cons_self) h
    · exact ih fun hmem => h (List.mem_cons_of_mem c hmem)

/-- A part behind something else than a backslash. -/
theorem Escaped.part (h : Escaped prev (s ++ t)) (hlast : s.getLast?.or prev ≠ some (ch '\\'))
    (q : Option UInt8) : Escaped q t :=
  (escaped_append.mp h).2.of_ne hlast q

end

/-- A line without other semicolons stays as it is. -/
theorem scan_escaped {prev : Option UInt8} (rest : List UInt8) {text back : List UInt8}
    (hback : prev = some (ch '\\') → back.head? = some (ch '\\')) (h : Escaped prev rest) :
    scan ⟨0, true, .live text, none⟩ back 0 rest =
      .ok ⟨0, true, .live (text ++ back.reverse ++ rest), none⟩ := by
  induction rest generalizing text back prev with
  | nil => simp [scan, Kept.finish]
  | cons c rest ih =>
    rw [scan]
    by_cases hc : c = ch ';'
    · rw [if_neg (not_not.mpr hc), if_pos (hback (h.1 hc))]
      have hnext : some c = some (ch '\\') → ([] : List UInt8).head? = some (ch '\\') := by
        rw [hc]
        intro heq
        exact absurd heq (by decide)
      rw [Kept.pass, ih hnext h.2, hc]
      simp [lit]
    · have hnext : some c = some (ch '\\') → (c :: back).head? = some (ch '\\') := fun heq => heq
      rw [if_pos hc, ih hnext h.2]
      simp

/-! ## What is left of a line -/

/-- What the loop can do at a byte. -/
inductive Scans (s : Scan) (back : List UInt8) (c : UInt8) (rest : List UInt8) (s' : Scan) : Prop
  | other (hc : c ≠ ch ';') (h : scan s (c :: back) 0 rest = .ok s')
  | escaped (hback : back.head? = some (ch '\\'))
      (h : scan { s with kept := s.kept.pass (back.reverse ++ [c]) } [] 0 rest = .ok s')
  | enter (hnonneg : 0 ≤ s.comment)
      (h : scan { s with comment := s.comment + 1, kept := s.kept.enter back.reverse } [] 2 rest =
        .ok s')
  | leave (hone : s.comment = 1)
      (h : scan (Scan.leave { s with comment := 0 } back.reverse rest) [] 0 rest = .ok s')
  | stay (n : Int) (hn : n ≠ 0) (hle : n = s.comment - 1 ∨ n = s.comment)
      (h : scan { s with comment := n, kept := s.kept.pass (back.reverse ++ [c]) } [] 0 rest =
        .ok s')
  | comment (hzero : s.comment = 0) (hkept : s'.kept = .live (s.kept.finish back.reverse))
      (hprocess : s'.process = s.process) (hcomment : s'.comment = 0)
      (hbuffers : s.buffers = none → s'.buffers = none)

theorem scans_of_ok {s s' : Scan} {back : List UInt8} {c : UInt8} {rest : List UInt8}
    (h : scan s back 0 (c :: rest) = .ok s') : Scans s back c rest s' := by
  have hlit : c = ch ';' → lit ";" = [c] := by
    rintro rfl
    rfl
  cases scan_reads s back c rest with
  | byte hc _ hscan => exact .other hc (hscan.symm.trans h)
  | escaped hc hback _ hscan =>
    rw [hscan, hlit hc] at h
    exact .escaped hback h
  | opening _ _ hscan =>
    rw [hscan] at h
    split at h
    next => exact absurd h nofun
    next =>
      split at h
      next => exact absurd h nofun
      next hnonneg => exact .enter (not_lt.mp hnonneg) h
  | closing hc _ hscan =>
    rw [hscan, hlit hc] at h
    split at h
    next hone =>
      rw [hone] at h
      exact .leave (by omega) h
    next hne => exact .stay (s.comment - 1) hne (Or.inl rfl) h
  | semicolon hc _ hscan =>
    rw [hscan, hlit hc] at h
    split at h
    next hzero =>
      cases h
      refine .comment hzero rfl rfl hzero fun hnone => ?_
      dsimp only
      rw [hnone]
      rfl
    next hne => exact .stay s.comment hne (Or.inr rfl) h

/-- Below zero the counter stays there, since a `;--` writes outside of `nest`. -/
theorem scan_negative {s s' : Scan} {back : List UInt8} {ahead : Nat} (rest : List UInt8)
    (h : scan s back ahead rest = .ok s') (hneg : s.comment < 0) : s'.comment < 0 := by
  induction rest generalizing s back ahead with
  | nil =>
    rw [scan] at h
    cases h
    exact hneg
  | cons c rest ih =>
    cases ahead with
    | succ ahead =>
      rw [scan] at h
      exact ih h hneg
    | zero =>
      cases scans_of_ok h with
      | other _ h => exact ih h hneg
      | escaped _ h => exact ih h hneg
      | enter hnonneg _ => exact absurd hneg (not_lt.mpr hnonneg)
      | leave hone _ => exact absurd (hone ▸ hneg) (by decide)
      | stay n _ hle h => exact ih h (show n < 0 by omega)
      | comment hzero => exact absurd (hzero ▸ hneg) (by decide)

/-- Without buffers no comment is kept. -/
theorem scan_buffers {s s' : Scan} {back : List UInt8} {ahead : Nat} (rest : List UInt8)
    (h : scan s back ahead rest = .ok s') (hnone : s.buffers = none) : s'.buffers = none := by
  induction rest generalizing s back ahead with
  | nil =>
    rw [scan] at h
    cases h
    exact hnone
  | cons c rest ih =>
    cases ahead with
    | succ ahead =>
      rw [scan] at h
      exact ih h hnone
    | zero =>
      cases scans_of_ok h with
      | other _ h => exact ih h hnone
      | escaped _ h => exact ih h hnone
      | enter _ h => exact ih h hnone
      | leave _ h =>
        apply ih h
        unfold Scan.leave
        split
        · split
          · dsimp only
            rw [hnone]
            rfl
          · exact hnone
        · exact hnone
      | stay _ _ _ h => exact ih h hnone
      | comment _ _ _ _ hbuffers => exact hbuffers hnone

/-- The kept part and what is to come are part of the line; outside of comments the string goes
    on at `new_buf`, and inside it does not. -/
inductive Scan.Good (s : Scan) (back rest line : List UInt8) : Prop
  | outside (text : CString) (hcomment : s.comment = 0) (hprocess : s.process = true)
      (hkept : s.kept = .live text) (hsub : List.Sublist (text ++ back.reverse ++ rest) line)
      (hescaped : Escaped none (text ++ back.reverse))
  | inside (text gap : CString) (hcomment : 0 < s.comment) (hprocess : s.process = true)
      (hkept : s.kept = .cut text gap) (hsub : List.Sublist (text ++ rest) line)
      (hescaped : Escaped none text)
  | before (hcomment : 0 < s.comment) (hprocess : s.process = false)
      (hsub : List.Sublist rest line)

theorem sublist_of_cons {text line rest : List UInt8} {c : UInt8}
    (h : List.Sublist (text ++ c :: rest) line) : List.Sublist (text ++ rest) line :=
  ((List.sublist_cons_self c rest).append_left text).trans h

theorem leave_cut (s : Scan) (t rest : List UInt8) (hprocess : s.process = true) {text : CString}
    {gap : List UInt8} (hkept : s.kept = .cut text gap) :
    ∃ buffers, s.leave t rest = { s with kept := .live text, buffers := buffers } := by
  simp only [Scan.leave, hprocess, if_true, hkept]
  exact ⟨_, rfl⟩

theorem leave_before (s : Scan) (t rest : List UInt8) (hprocess : s.process = false) :
    s.leave t rest = { s with process := true, kept := .live [] } := by
  simp only [Scan.leave, hprocess, Bool.false_eq_true, if_false]

namespace Scan.Good

variable {s : Scan} {back rest line : List UInt8} {c : UInt8}

/-- A byte is passed that belongs to the opening of a comment. -/
theorem skip (h : s.Good back (c :: rest) line) : s.Good back rest line := by
  cases h with
  | outside text hcomment hprocess hkept hsub hescaped =>
    exact .outside text hcomment hprocess hkept (sublist_of_cons hsub) hescaped
  | inside text gap hcomment hprocess hkept hsub hescaped =>
    exact .inside text gap hcomment hprocess hkept (sublist_of_cons hsub) hescaped
  | before hcomment hprocess hsub =>
    exact .before hcomment hprocess ((List.sublist_cons_self c rest).trans hsub)

theorem other (h : s.Good back (c :: rest) line) (hc : c ≠ ch ';') :
    s.Good (c :: back) rest line := by
  cases h with
  | outside text hcomment hprocess hkept hsub hescaped =>
    apply Scan.Good.outside text hcomment hprocess hkept
    · rw [List.reverse_cons, ← List.append_assoc, List.append_assoc _ [c]]
      exact hsub
    · rw [List.reverse_cons, ← List.append_assoc]
      exact escaped_append.mpr ⟨hescaped, fun h => absurd h hc, trivial⟩
  | inside text gap hcomment hprocess hkept hsub hescaped =>
    exact .inside text gap hcomment hprocess hkept (sublist_of_cons hsub) hescaped
  | before hcomment hprocess hsub =>
    exact .before hcomment hprocess ((List.sublist_cons_self c rest).trans hsub)

/-- A semicolon inside of comments is passed. -/
theorem stay (h : s.Good back (c :: rest) line) (hpos : 0 < s.comment) {n : Int} (hn : 0 < n)
    (t : List UInt8) :
    Scan.Good { s with comment := n, kept := s.kept.pass t } [] rest line := by
  cases h with
  | outside text hcomment => exact absurd hcomment (ne_of_gt hpos)
  | inside text gap hcomment hprocess hkept hsub hescaped =>
    refine .inside text (gap ++ t) hn hprocess ?_ (sublist_of_cons hsub) hescaped
    rw [hkept]
    rfl
  | before hcomment hprocess hsub =>
    exact .before hn hprocess ((List.sublist_cons_self c rest).trans hsub)

theorem escaped (h : s.Good back (c :: rest) line) (hback : back.head? = some (ch '\\')) :
    Scan.Good { s with kept := s.kept.pass (back.reverse ++ [c]) } [] rest line := by
  have hstay := fun hpos : 0 < s.comment => h.stay hpos hpos (back.reverse ++ [c])
  cases h with
  | outside text hcomment hprocess hkept hsub hescaped =>
    refine .outside (text ++ (back.reverse ++ [c])) hcomment hprocess ?_ ?_ ?_
    · rw [hkept]
      rfl
    · rw [List.reverse_nil, List.append_nil, ← List.append_assoc, List.append_assoc _ [c]]
      exact hsub
    · have hlast : (text ++ back.reverse).getLast? = some (ch '\\') := by
        rw [List.getLast?_append, List.getLast?_reverse, hback]
        rfl
      rw [List.reverse_nil, List.append_nil, ← List.append_assoc]
      refine escaped_append.mpr ⟨hescaped, fun _ => ?_, trivial⟩
      rw [hlast]
      rfl
  | inside text gap hcomment => exact hstay hcomment
  | before hcomment => exact hstay hcomment

theorem enter (h : s.Good back (c :: rest) line) (hnonneg : 0 ≤ s.comment) :
    Scan.Good { s with comment := s.comment + 1, kept := s.kept.enter back.reverse } [] rest
      line := by
  have hpos : 0 < s.comment + 1 := by omega
  cases h with
  | outside text _ hprocess hkept hsub hescaped =>
    refine .inside (text ++ back.reverse) (lit "--") hpos hprocess ?_ (sublist_of_cons hsub)
      hescaped
    rw [hkept]
    rfl
  | inside text gap _ hprocess hkept hsub hescaped =>
    refine .inside text (gap ++ back.reverse ++ [0] ++ lit "--") hpos hprocess ?_
      (sublist_of_cons hsub) hescaped
    rw [hkept]
    rfl
  | before _ hprocess hsub =>
    exact .before hpos hprocess ((List.sublist_cons_self c rest).trans hsub)

theorem leave (h : s.Good back (c :: rest) line) (hone : s.comment = 1) :
    (Scan.leave { s with comment := 0 } back.reverse rest).Good [] rest line := by
  cases h with
  | outside text hcomment => exact absurd (hcomment.symm.trans hone) (by decide)
  | inside text gap _ hprocess hkept hsub hescaped =>
    rcases leave_cut { s with comment := 0 } back.reverse rest hprocess hkept with ⟨buffers, hleave⟩
    rw [hleave]
    refine .outside text rfl hprocess rfl ?_ ?_
    · rw [List.reverse_nil, List.append_nil]
      exact sublist_of_cons hsub
    · rw [List.reverse_nil, List.append_nil]
      exact hescaped
  | before _ hprocess hsub =>
    rw [leave_before { s with comment := 0 } back.reverse rest hprocess]
    exact .outside [] rfl rfl rfl ((List.sublist_cons_self c rest).trans hsub) trivial

theorem finish (h : s.Good back rest line) (hprocess : s.process = true) :
    List.Sublist (s.kept.finish back.reverse) line ∧ Escaped none (s.kept.finish back.reverse) := by
  cases h with
  | outside text _ _ hkept hsub hescaped =>
    rw [hkept, Kept.finish]
    exact ⟨(List.sublist_append_left _ _).trans hsub, hescaped⟩
  | inside text gap _ _ hkept hsub hescaped =>
    rw [hkept, Kept.finish]
    exact ⟨(List.sublist_append_left _ _).trans hsub, hescaped⟩
  | before _ hnot => cases hnot.symm.trans hprocess

end Scan.Good

/-- What is handed on is a part of the line, with escaped semicolons only. -/
theorem scan_good {s s' : Scan} {back line : List UInt8} {ahead : Nat} (rest : List UInt8)
    (h : scan s back ahead rest = .ok s') (hgood : s.Good back rest line)
    (hnonneg : 0 ≤ s'.comment) : ∃ text, s'.kept = .live text ∧
      (s'.process = true → List.Sublist text line ∧ Escaped none text) := by
  induction rest generalizing s back ahead with
  | nil =>
    rw [scan] at h
    cases h
    exact ⟨s.kept.finish back.reverse, rfl, hgood.finish⟩
  | cons c rest ih =>
    cases ahead with
    | succ ahead =>
      rw [scan] at h
      exact ih h hgood.skip
    | zero =>
      cases scans_of_ok h with
      | other hc h => exact ih h (hgood.other hc)
      | escaped hback h => exact ih h (hgood.escaped hback)
      | enter hpos h => exact ih h (hgood.enter hpos)
      | leave hone h => exact ih h (hgood.leave hone)
      | stay n hn hle h =>
        -- below zero the counter would stay there
        have hn0 : 0 ≤ n := by
          by_contra hneg
          exact absurd (scan_negative rest h (not_le.mp hneg)) (not_lt.mpr hnonneg)
        exact ih h (hgood.stay (by omega) (by omega) _)
      | comment _ hkept hprocess _ _ =>
        exact ⟨s.kept.finish back.reverse, hkept, fun h => hgood.finish (hprocess ▸ h)⟩

/-! ## `fgets` -/

/-- A newline is only at the end of what one call reads. -/
theorem fgetsAll_newline {room : Nat} {got : List UInt8} (text : List UInt8) (hgot : ch '\n' ∉ got)
    {chunk : List UInt8} (h : chunk ∈ fgetsAll room got text) :
    ∃ body ending, chunk = body ++ ending ∧ ch '\n' ∉ body ∧ ∀ c ∈ ending, c = ch '\n' := by
  induction text generalizing room got with
  | nil =>
    rw [fgetsAll] at h
    split at h
    next => exact absurd h List.not_mem_nil
    next =>
      rw [List.mem_singleton.mp h]
      exact ⟨got, [], (List.append_nil got).symm, hgot, nofun⟩
  | cons c text ih =>
    rw [fgetsAll] at h
    split at h
    next hend =>
      rcases List.mem_cons.mp h with rfl | h
      · by_cases hc : c = ch '\n'
        · exact ⟨got, [c], rfl, hgot, fun d hd => (List.mem_singleton.mp hd).trans hc⟩
        · refine ⟨got ++ [c], [], (List.append_nil _).symm, ?_, nofun⟩
          intro hmem
          rcases List.mem_append.mp hmem with hmem | hmem
          · exact hgot hmem
          · exact hc (List.mem_singleton.mp hmem).symm
      · exact ih List.not_mem_nil h
    next hgo =>
      apply ih _ h
      intro hmem
      rcases List.mem_append.mp hmem with hmem | hmem
      · exact hgot hmem
      · exact hgo (Or.inl (List.mem_singleton.mp hmem).symm)

/-- A call reads a line that fits. -/
theorem fgetsAll_line {room : Nat} {got line : List UInt8} (rest : List UInt8)
    (hline : ch '\n' ∉ line) (hroom : line.length < room) :
    fgetsAll room got (line ++ ch '\n' :: rest) =
      (got ++ line ++ [ch '\n']) :: fgetsAll 8191 [] rest := by
  induction line generalizing room got with
  | nil =>
    rw [List.nil_append, fgetsAll, if_pos (Or.inl rfl), List.append_nil]
  | cons c line ih =>
    have hc : c ≠ ch '\n' := fun hc => hline (hc ▸ List.mem_cons_self)
    rw [List.length_cons] at hroom
    rw [List.cons_append, fgetsAll, if_neg (not_or.mpr ⟨hc, by omega⟩), ih, List.append_assoc got]
    · rfl
    · exact fun hmem => hline (List.mem_cons_of_mem c hmem)
    · omega

/-- A line as it is written: no newline in it, no null byte, and short enough for `fgets`. -/
structure Line (line : CString) : Prop where
  newline : ch '\n' ∉ line
  noNul : NoNul line
  length : line.length ≤ 8190

theorem textLines_flatMap {lines : List CString} (h : ∀ line ∈ lines, Line line) :
    textLines (lines.flatMap (· ++ [ch '\n'])) = lines.map (· ++ [ch '\n']) := by
  unfold textLines
  induction lines with
  | nil => rfl
  | cons line lines ih =>
    have hline := h line List.mem_cons_self
    have hrest := ih fun l hl => h l (List.mem_cons_of_mem line hl)
    have hnul : NoNul (line ++ [ch '\n']) := by
      intro c hc
      rcases List.mem_append.mp hc with hc | hc
      · exact hline.noNul c hc
      · rw [List.mem_singleton.mp hc]
        decide
    have hlen := hline.length
    rw [List.flatMap_cons, List.append_assoc, List.singleton_append,
      fgetsAll_line _ hline.newline (by omega), List.map_cons, List.map_cons, hrest,
      List.nil_append, cut_of_noNul hnul]

end Spider.Config.Text
