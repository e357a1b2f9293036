import Spider.Escapes

/-!
# Verbose messages on the console

`spd_verbose` filters a message and hands it to the verbosers. The one of the
console writes what the message begins with in grey, if it is one of the four
beginnings that stand for a level.
-/

namespace Spider.Verboser

open Lib Outcome CString Strings Terminal Escapes

/-- `VERBOSE_PREFIX_1`. -/
def VERBOSE_PREFIX_1 : CString := lit " "

/-- `VERBOSE_PREFIX_2`. -/
def VERBOSE_PREFIX_2 : CString := lit "  == "

/-- `VERBOSE_PREFIX_3`. -/
def VERBOSE_PREFIX_3 : CString := lit "    -- "

/-- `VERBOSE_PREFIX_4`. -/
def VERBOSE_PREFIX_4 : CString := lit "       > "

/-- `fix_header` (`spider.c:284-293`): what is written to `outbuf`, and the rest of the text. -/
def fixHeader (maxout : Nat) (s cmp : CString) : Outcome (Option (CString × CString)) :=
  if cmp <+: s then do
    let outbuf ← termColor cmp COLOR_GRAY 0 maxout
    .ok (some (outbuf, s.drop cmp.length))
  else .ok none

/-- The beginnings in the order in which they are looked for. -/
def headers : List CString :=
  [VERBOSE_PREFIX_4, VERBOSE_PREFIX_3, VERBOSE_PREFIX_2, VERBOSE_PREFIX_1]

/-- The condition of `console_verboser` (`spider.c:300-303`). -/
def fixHeaders (s : CString) : List CString → Outcome (Option (CString × CString))
  | [] => .ok none
  | cmp :: cmps => do
    match ← fixHeader 80 s cmp with
    | some fixed => .ok (some fixed)
    | none => fixHeaders s cmps

/-- `console_verboser` (`spider.c:295-315`): what is written to `stdout`. -/
def consoleVerboser (s : CString) : Outcome CString := do
  match ← fixHeaders s headers with
  | some (tmp, c) => .ok (tmp ++ c)
  | none => .ok (if s.head? = some 127 then s.tail else s)

/-- The longest of the beginnings that a text has. -/
def IsHeader (s cmp : CString) : Prop :=
  cmp ∈ headers ∧ cmp <+: s ∧ ∀ cmp' ∈ headers, cmp' <+: s → cmp'.length ≤ cmp.length

/-- A terminal shows a message: what it begins with in grey and the rest in white on black, or, if
    it has none of the beginnings, as it is, without a byte 127 in front of it. -/
def Shows (t : Term) (s : CString) (t' : Term) : Prop :=
  (∃ cmp rest, IsHeader s cmp ∧ s = cmp ++ rest ∧ t' = { t with
    pen := whiteOnBlack
    shown := t.shown ++ cmp.map (·, penOf t.pen COLOR_GRAY 0) ++ rest.map (·, whiteOnBlack) }) ∨
  (∀ cmp ∈ headers, ¬ cmp <+: s) ∧ ∃ rest, (s = 127 :: rest ∨ s = rest ∧ s.head? ≠ some 127) ∧
    t' = { t with shown := t.shown ++ rest.map (·, t.pen) }

section

variable {s cmp text : CString} {cmps : List CString} {t : Term}

theorem esc_notMem_header (h : cmp ∈ headers) : ESC ∉ cmp := by
  have hall : ∀ cmp ∈ headers, ESC ∉ cmp := by decide
  exact hall cmp h

/-- There is room for each of the beginnings. -/
theorem termColor_header (h : cmp ∈ headers) :
    termColor cmp COLOR_GRAY 0 80 = .ok (colored cmp COLOR_GRAY 0) := by
  have hall : ∀ cmp ∈ headers, cmp.length ≤ 9 := by decide
  have hcolors : (colors COLOR_GRAY 0).length = 7 := rfl
  have hlength := length_colored cmp COLOR_GRAY 0
  have hle := hall cmp h
  rw [termColor, if_neg (by decide), snprintf, List.take_of_length_le (by omega)]

/-- The first of the beginnings that the text has. -/
theorem fixHeaders_eq (hcmps : cmps ⊆ headers) : fixHeaders s cmps =
    .ok ((cmps.find? (· <+: s)).map fun cmp => (colored cmp COLOR_GRAY 0, s.drop cmp.length)) := by
  induction cmps with
  | nil => rfl
  | cons cmp cmps ih =>
    have hcmp := hcmps List.mem_cons_self
    have hrest := ih fun _ h => hcmps (List.mem_cons_of_mem _ h)
    rw [fixHeaders, fixHeader, List.find?_cons]
    by_cases hbegins : cmp <+: s
    · simp [hbegins, termColor_header hcmp]
    · simp [hbegins, hrest]

/-- The beginnings are looked for from the longest to the shortest. -/
theorem isHeader_of_find? (h : headers.find? (· <+: s) = some cmp) : IsHeader s cmp := by
  obtain ⟨hbegins, before, after, heq, hbefore⟩ := List.find?_eq_some_iff_append.mp h
  have hsorted : headers.Pairwise fun cmp cmp' => cmp'.length ≤ cmp.length := by decide
  rw [heq, List.pairwise_append] at hsorted
  have hafter := (List.pairwise_cons.mp hsorted.2.1).1
  refine ⟨List.mem_of_find?_eq_some h, by simpa using hbegins, ?_⟩
  intro cmp' hmem hcmp'
  rw [heq, List.mem_append, List.mem_cons] at hmem
  rcases hmem with hmem | rfl | hmem
  · have hnot := hbefore cmp' hmem
    simp [hcmp'] at hnot
  · exact Nat.le_refl _
  · exact hafter cmp' hmem

/-- What `console_verboser` writes. -/
theorem consoleVerboser_eq (s : CString) :
    (∃ cmp rest, IsHeader s cmp ∧ s = cmp ++ rest ∧
      consoleVerboser s = .ok (colored cmp COLOR_GRAY 0 ++ rest)) ∨
    (∀ cmp ∈ headers, ¬ cmp <+: s) ∧
      ∃ rest, (s = 127 :: rest ∨ s = rest ∧ s.head? ≠ some 127) ∧ consoleVerboser s = .ok rest := by
  rw [consoleVerboser, fixHeaders_eq (List.Subset.refl headers)]
  cases hfind : headers.find? (· <+: s) with
  | some cmp =>
    have hheader := isHeader_of_find? hfind
    obtain ⟨rest, hrest⟩ := hheader.2.1
    refine Or.inl ⟨cmp, rest, hheader, hrest.symm, ?_⟩
    simp [← hrest]
  | none =>
    right
    constructor
    · intro cmp hcmp hbegins
      have hnot := List.find?_eq_none.mp hfind cmp hcmp
      simp [hbegins] at hnot
    · cases s with
      | nil => exact ⟨[], Or.inr ⟨rfl, by simp⟩, rfl⟩
      | cons c s =>
        by_cases hc : c = 127
        · exact ⟨s, Or.inl (by rw [hc]), by simp [hc]⟩
        · exact ⟨c :: s, Or.inr ⟨rfl, by simpa using hc⟩, by simp [hc]⟩

/-- What is behind a part of a filtered text has been filtered. -/
theorem filtered_of_append {before rest : CString} (h : termFilterEscapes text = before ++ rest) :
    ∃ line, rest = termFilterEscapes line := by
  induction before generalizing text with
  | nil => exact ⟨text, h.symm⟩
  | cons c before ih =>
    cases text with
    | nil => cases h
    | cons d text =>
      rw [termFilterEscapes, List.cons_append] at h
      exact ih (List.cons.inj h).2

theorem filtered_plain (h : ESC ∉ text) : termFilterEscapes text = text := by
  have hplain := termFilterEscapes_plain h []
  rwa [termFilterEscapes, List.append_nil] at hplain

/-- A beginning in grey does no harm. -/
theorem harmless_colored (h : Harmless t) (hcmp : cmp ∈ headers) :
    Harmless (t.feed (colored cmp COLOR_GRAY 0)) := by
  rw [feed_colored (Or.inr (by decide)) (Or.inl rfl) (esc_notMem_header hcmp)]
  exact ⟨Or.inl rfl, h.commands⟩

end

/-- Whatever the text of a verbose message is, the console is given no command by it but those that
    the filter lets pass; and without escapes it is shown. A text of `spd_verbose` begins with byte
    127, so that it has none of the beginnings. -/
theorem consoleVerboser_shows (text : CString) :
    ∃ out, consoleVerboser (termFilterEscapes text) = .ok out ∧
      (∀ t : Term, Harmless t → Harmless (t.feed out)) ∧
      (ESC ∉ text → ∀ t : Term, t.mode = .ground → Shows t text (t.feed out)) := by
  rcases consoleVerboser_eq (termFilterEscapes text) with
    ⟨cmp, rest, hheader, hrest, hout⟩ | ⟨hnone, rest, hrest, hout⟩
  · refine ⟨_, hout, ?_, ?_⟩
    · intro t ht
      obtain ⟨line, rfl⟩ := filtered_of_append hrest
      rw [feed_append]
      exact (harmless_colored ht hheader.1).feed line
    · intro htext t hmode
      rw [filtered_plain htext] at hheader hrest
      have hesc : ESC ∉ rest := fun hmem => htext (hrest ▸ List.mem_append_right _ hmem)
      refine Or.inl ⟨cmp, rest, hheader, hrest, ?_⟩
      rw [feed_append, feed_colored (Or.inr (by decide)) (Or.inl rfl) (esc_notMem_header hheader.1),
        feed_plain rfl hesc, hmode]
  · refine ⟨rest, hout, ?_, ?_⟩
    · intro t ht
      have hline : ∃ line, rest = termFilterEscapes line := by
        rcases hrest with hrest | ⟨hrest, -⟩
        · exact @filtered_of_append text [127] rest hrest
        · exact ⟨text, hrest.symm⟩
      obtain ⟨line, rfl⟩ := hline
      exact ht.feed line
    · intro htext t hmode
      rw [filtered_plain htext] at hnone hrest
      have hesc : ESC ∉ rest := by
        rcases hrest with hrest | ⟨hrest, -⟩
        · exact fun hmem => htext (hrest ▸ List.mem_cons_of_mem _ hmem)
        · exact hrest ▸ htext
      exact Or.inr ⟨hnone, rest, hrest, feed_plain hmode hesc⟩

example : consoleVerboser (lit "  == Parsing") =
      .ok (colored (lit "  == ") COLOR_GRAY 0 ++ lit "Parsing") ∧
    consoleVerboser (127 :: lit "  == Parsing") = .ok (lit "  == Parsing") := by decide +kernel

end Spider.Verboser
