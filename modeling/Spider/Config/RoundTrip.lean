import Spider.Config.Loaded
import Spider.Config.Save

/-!
# Loading what was saved

What is written out is a sequence of lines: those of the header, which the
loader takes for comments, and then for each section an empty line, its name and
its variables. Reading them one by one rebuilds the sections and the variables
one after the other.
-/

namespace Spider.Config.Text

open Lib Outcome CString Strings

variable {configfile fn generator day : CString} {cfg : SpdConfig} {sec : Section} {v : Variable}

/-! ## The lines that are written -/

/-- The header, where the date is `day`. -/
def headerLines (configfile fn generator day : CString) : List CString :=
  [lit ";!",
    lit ";! Automatically generated configuration file",
    if configfile ≠ fn then lit ";! Filename: " ++ configfile ++ lit " (" ++ fn ++ lit ")"
    else lit ";! Filename: " ++ configfile,
    lit ";! Generator: " ++ generator,
    lit ";! Creation Date: " ++ day,
    lit ";!"]

/-- The name of a section. -/
def nameLine (sec : Section) : CString :=
  lit "[" ++ sec.name ++ lit "]" ++ (if sec.ignored then lit "(!)" else [])

def variableLine (v : Variable) : CString :=
  v.name ++ lit " " ++ (if v.object then lit "=>" else lit "=") ++ lit " " ++ v.value

def sectionLines (sec : Section) : List CString :=
  [] :: nameLine sec :: sec.root.map variableLine

def saveLines (configfile fn generator day : CString) (cfg : SpdConfig) : List CString :=
  headerLines configfile fn generator day ++ cfg.root.flatMap sectionLines

theorem headerTexts_flatten : (headerTexts configfile fn generator (day ++ [ch '\n'])).flatten =
    (headerLines configfile fn generator day).flatMap (· ++ [ch '\n']) := by
  unfold headerTexts headerLines
  by_cases hfn : configfile ≠ fn
  · simp [hfn, lit]
  · simp [hfn, lit]

theorem headTexts_flatten (h : sec.Good) :
    (headTexts sec).flatten = ([[], nameLine sec].flatMap (· ++ [ch '\n'])) := by
  rcases h.bare with ⟨hinstances, hprev, hsameline⟩
  rw [headTexts, hinstances, hprev, hsameline]
  cases hignored : sec.ignored <;> simp [nameLine, hignored, prevTexts, templateTexts, lit]

theorem variableTexts_flatten (h : sec.Good) (hv : v.Good) :
    (variableTexts sec v).flatten = variableLine v ++ [ch '\n'] := by
  rcases h.bare with ⟨hinstances, -, -⟩
  rcases hv.bare with ⟨hblanklines, hprev, hsameline⟩
  have hinherited : inherited sec v = false := by
    rw [inherited, hinstances]
    rfl
  rw [variableTexts, hinherited, hprev, hsameline, hblanklines]
  simp [variableLine, prevTexts, lit]

theorem variables_flatten (h : sec.Good) {vars : List Variable} (hvars : ∀ v ∈ vars, v.Good) :
    (vars.flatMap (variableTexts sec)).flatten =
      (vars.map variableLine).flatMap (· ++ [ch '\n']) := by
  induction vars with
  | nil => rfl
  | cons v vars ih =>
    have hv := hvars v List.mem_cons_self
    have hrest := ih fun w hw => hvars w (List.mem_cons_of_mem v hw)
    rw [List.flatMap_cons, List.flatten_append, variableTexts_flatten h hv, hrest,
      List.map_cons, List.flatMap_cons]

theorem sectionTexts_flatten (h : sec.Good) :
    (sectionTexts sec).flatten = (sectionLines sec).flatMap (· ++ [ch '\n']) := by
  rw [sectionTexts, List.flatten_append, headTexts_flatten h, variables_flatten h h.root,
    ← List.flatMap_append]
  rfl

theorem sections_flatten {root : List Section} (h : ∀ sec ∈ root, sec.Good) :
    (root.flatMap sectionTexts).flatten =
      (root.flatMap sectionLines).flatMap (· ++ [ch '\n']) := by
  induction root with
  | nil => rfl
  | cons sec root ih =>
    have hsec := h sec List.mem_cons_self
    have hrest := ih fun sec' hsec' => h sec' (List.mem_cons_of_mem sec hsec')
    rw [List.flatMap_cons, List.flatten_append, sectionTexts_flatten hsec, hrest,
      List.flatMap_cons, List.flatMap_append]

/-- The file is its lines. -/
theorem serialization_eq (h : ∀ sec ∈ cfg.root, sec.Good) :
    serialization configfile fn generator (day ++ [ch '\n']) cfg =
      (saveLines configfile fn generator day cfg).flatMap (· ++ [ch '\n']) := by
  rw [serialization, saveTexts, List.flatten_append, headerTexts_flatten, sections_flatten h,
    saveLines, List.flatMap_append]

/-! ## Reading a line -/

variable {cat : Option Nat} {root : List Section}

/-- A line without comments is handed on. -/
theorem loadLine_escaped {line : CString} (h : Escaped none line) :
    loadLine 0 ⟨cfg, cat, none⟩ (line ++ [ch '\n']) =
      if spdStrip line = [] then .ok (some ⟨cfg, cat, none⟩, 0)
      else processTextLine ⟨cfg, cat, none⟩ (spdStrip line) >>= fun r => .ok (r, 0) := by
  have hnewline : Escaped none (line ++ [ch '\n']) :=
    escaped_append.mpr ⟨h, escaped_of_notMem (by decide)⟩
  have hscan := @scan_escaped none (line ++ [ch '\n']) [] [] nofun hnewline
  have hstrip : spdStrip (line ++ [ch '\n']) = spdStrip line := by
    apply trim_append_right
    intro c hc
    rw [List.mem_singleton.mp hc]
    decide
  have hstart : scan ⟨0, decide ((0 : Int) = 0), .live [], none⟩ [] 0 (line ++ [ch '\n']) =
      .ok ⟨0, true, .live (line ++ [ch '\n']), none⟩ := hscan
  rw [loadLine]
  dsimp only [Option.map_none]
  rw [hstart, ok_bind]
  simp only [Kept.finish, List.append_nil, hstrip, if_true]

/-- A line of the header is a comment. -/
theorem loadLine_comment (rest : CString) :
    loadLine 0 ⟨cfg, cat, none⟩ (lit ";!" ++ rest ++ [ch '\n']) =
      .ok (some ⟨cfg, cat, none⟩, 0) := by
  have hscan : ∀ rest, scan ⟨0, decide ((0 : Int) = 0), .live [], none⟩ [] 0
      (ch ';' :: ch '!' :: rest) = .ok ⟨0, true, .live [], none⟩ := by
    intro rest
    have hdashes : ¬ ((ch '!' :: rest).take 2 = lit "--" ∧ (ch '!' :: rest)[2]? ≠ some (ch '-')) := by
      rintro ⟨heq, -⟩
      exact absurd (List.cons.inj heq).1 (by decide)
    rw [scan]
    dsimp only
    rw [if_neg (not_not.mpr rfl), if_neg (by decide), if_neg hdashes, if_neg (by decide), if_pos rfl]
    rfl
  rw [loadLine]
  dsimp only [Option.map_none]
  rw [show lit ";!" ++ rest ++ [ch '\n'] = ch ';' :: ch '!' :: (rest ++ [ch '\n']) from rfl, hscan]
  rfl

/-- The name of a section starts a new one. -/
theorem processTextLine_nameLine (h : sec.Good) :
    processTextLine ⟨cfg, cat, none⟩ (nameLine sec) =
      .ok (some ⟨⟨cfg.root ++ [{ name := sec.name, ignored := sec.ignored }],
        some cfg.root.length⟩, some cfg.root.length, none⟩) := by
  have hspan : ∀ c, (sec.name ++ ch ']' :: c).span (· ≠ ch ']') = (sec.name, ch ']' :: c) := by
    intro c
    have hname : ∀ d ∈ sec.name, decide (d ≠ ch ']') = true := by
      intro d hd
      exact decide_eq_true fun heq => h.nameBracket (heq ▸ hd)
    rw [List.span_eq_takeWhile_dropWhile, List.takeWhile_append_of_pos hname,
      List.dropWhile_append_of_pos hname]
    simp
  have htake : sec.name.take (80 - 1) = sec.name := List.take_of_length_le h.nameLength
  have hcopy : spdCopyString sec.name 80 = .ok sec.name := by
    rw [spdCopyString_eq _ (by decide), htake]
  have hhead : (nameLine sec).head? = some (ch '[') := rfl
  rw [processTextLine, if_pos hhead]
  cases hignored : sec.ignored with
  | false =>
    have hline : nameLine sec = ch '[' :: (sec.name ++ [ch ']']) := by
      simp [nameLine, hignored, lit]
    rw [hline, processHeader, List.tail_cons, hspan]
    dsimp only
    rw [if_neg (List.cons_ne_nil _ _), hcopy, ok_bind]
    rfl
  | true =>
    have hline : nameLine sec = ch '[' :: (sec.name ++ ch ']' :: lit "(!)") := by
      simp [nameLine, hignored, lit]
    rw [hline, processHeader, List.tail_cons, hspan]
    dsimp only
    rw [if_neg (List.cons_ne_nil _ _), hcopy, ok_bind]
    rfl

theorem loadLine_nameLine (h : sec.Good) :
    loadLine 0 ⟨cfg, cat, none⟩ (nameLine sec ++ [ch '\n']) =
      .ok (some ⟨⟨cfg.root ++ [{ name := sec.name, ignored := sec.ignored }],
        some cfg.root.length⟩, some cfg.root.length, none⟩, 0) := by
  have hescaped : Escaped none (nameLine sec) := by
    have hname : Escaped none (lit "[" ++ sec.name) :=
      escaped_append.mpr ⟨escaped_of_notMem (by decide), h.nameEscaped.of_ne nofun _⟩
    have hsign : ch ';' ∉ lit "]" ++ (if sec.ignored then lit "(!)" else []) := by
      cases sec.ignored <;> decide
    rw [nameLine, List.append_assoc]
    exact escaped_append.mpr ⟨hname, escaped_of_notMem hsign⟩
  have hstrip : spdStrip (nameLine sec) = nameLine sec := by
    have htrimmed : Trimmed blank (nameLine sec) := by
      constructor
      · intro c hc
        rw [← Option.some.inj hc]
        decide
      · intro c hc
        rw [nameLine, List.append_assoc, List.getLast?_append] at hc
        cases hignored : sec.ignored with
        | false =>
          rw [hignored] at hc
          rw [← Option.some.inj hc]
          decide
        | true =>
          rw [hignored] at hc
          rw [← Option.some.inj hc]
          decide
    exact htrimmed.trim_eq
  have hne : nameLine sec ≠ [] := List.cons_ne_nil _ _
  rw [loadLine_escaped hescaped, hstrip, if_neg hne, processTextLine_nameLine h, ok_bind]

/-- What is left of the line of a variable: a blank beside the sign is gone where there is nothing
    beyond it. -/
def strippedLine (v : Variable) : CString :=
  v.name ++ (if v.name = [] then [] else lit " ") ++ (if v.object then lit "=>" else lit "=") ++
    ((if v.value = [] then [] else lit " ") ++ v.value)

theorem blank_space : ∀ c ∈ lit " ", blank c = true := by decide +kernel

theorem strippedLine_head (v : Variable) :
    (strippedLine v).head? = v.name.head?.or (some (ch '=')) := by
  rw [strippedLine]
  cases v.name with
  | nil => cases v.object <;> rfl
  | cons c name => rfl

theorem strippedLine_last (v : Variable) : (strippedLine v).getLast? =
    v.value.getLast?.or (some (if v.object then ch '>' else ch '=')) := by
  rw [strippedLine, ← List.append_assoc, List.getLast?_append]
  by_cases hvalue : v.value = []
  · rw [hvalue, if_pos rfl, List.append_nil, List.getLast?_append]
    cases v.object <;> rfl
  · rw [List.getLast?_eq_some_getLast hvalue]
    rfl

theorem strippedLine_trimmed (h : v.Good) : Trimmed blank (strippedLine v) := by
  constructor
  · intro c hc
    rw [strippedLine_head] at hc
    rcases Option.or_eq_some_iff.mp hc with hc | ⟨-, hc⟩
    · exact h.nameTrimmed.head c hc
    · rw [← Option.some.inj hc]
      decide
  · intro c hc
    rw [strippedLine_last] at hc
    rcases Option.or_eq_some_iff.mp hc with hc | ⟨-, hc⟩
    · exact h.valueTrimmed.last c hc
    · rw [← Option.some.inj hc]
      cases v.object <;> decide

theorem strip_variableLine (h : v.Good) : spdStrip (variableLine v) = strippedLine v := by
  have hsplit : variableLine v = (if v.name = [] then lit " " else []) ++ strippedLine v ++
      (if v.value = [] then lit " " else []) := by
    rw [variableLine, strippedLine]
    by_cases hname : v.name = []
    · by_cases hvalue : v.value = []
      · simp [hname, hvalue]
      · simp [hname, hvalue]
    · by_cases hvalue : v.value = []
      · simp [hname, hvalue]
      · simp [hname, hvalue]
  have hblank : ∀ (P : Prop) [Decidable P], ∀ c ∈ (if P then lit " " else []), blank c = true := by
    intro P _
    split
    · exact blank_space
    · exact nofun
  rw [hsplit]
  exact trim_append (strippedLine_trimmed h) (hblank _) (hblank _)

/-- The sign that ends the name is found where it was written. -/
theorem strippedLine_span (h : v.Good) : (strippedLine v).span (· ≠ ch '=') =
    (v.name ++ (if v.name = [] then [] else lit " "),
      ch '=' :: ((if v.object then lit ">" else []) ++
        ((if v.value = [] then [] else lit " ") ++ v.value))) := by
  have hname : ∀ c ∈ v.name ++ (if v.name = [] then [] else lit " "),
      decide (c ≠ ch '=') = true := by
    intro c hc
    apply decide_eq_true
    rintro rfl
    rcases List.mem_append.mp hc with hc | hc
    · exact h.nameEq hc
    · split at hc
      next => exact absurd hc List.not_mem_nil
      next => exact absurd hc (by decide)
  have hsign : ∀ c : CString, (if v.object then lit "=>" else lit "=") ++ c =
      ch '=' :: ((if v.object then lit ">" else []) ++ c) := by
    intro c
    cases v.object <;> rfl
  rw [strippedLine, List.append_assoc, hsign, List.span_eq_takeWhile_dropWhile,
    List.takeWhile_append_of_pos hname, List.dropWhile_append_of_pos hname]
  simp

theorem processTextLine_strippedLine (h : v.Good) (i : Nat) :
    processTextLine ⟨cfg, some i, none⟩ (strippedLine v) =
      .ok (some ⟨{ cfg with root := cfg.root.modify i fun sec =>
        { sec with root := sec.root ++ [v] } }, some i, none⟩) := by
  have hhead : ∀ c, c ≠ ch '=' → v.name.head? ≠ some c → (strippedLine v).head? ≠ some c := by
    intro c hc hne heq
    rw [strippedLine_head] at heq
    rcases Option.or_eq_some_iff.mp heq with heq | ⟨-, heq⟩
    · exact hne heq
    · exact hc (Option.some.inj heq).symm
  have hspace : ∀ (P : Prop) [Decidable P], ∀ c ∈ (if P then [] else lit " "), blank c = true := by
    intro P _
    split
    · exact nofun
    · exact blank_space
  have hname : spdStrip (v.name ++ (if v.name = [] then [] else lit " ")) = v.name :=
    trim_append h.nameTrimmed (@List.forall_mem_nil _ _) (hspace _)
  have hvalue : spdStrip ((if v.value = [] then [] else lit " ") ++ v.value) = v.value := by
    have htrim := trim_append h.valueTrimmed (hspace (v.value = [])) (@List.forall_mem_nil _ _)
    rw [List.append_nil] at htrim
    exact htrim
  have hplain : ((if v.value = [] then [] else lit " ") ++ v.value).head? ≠ some (ch '>') := by
    by_cases hnil : v.value = []
    · rw [hnil]
      decide
    · rw [if_neg hnil]
      show some (ch ' ') ≠ some (ch '>')
      decide
  rw [processTextLine, if_neg (hhead _ (by decide) h.nameHead.1),
    if_neg (hhead _ (by decide) h.nameHead.2), strippedLine_span h]
  dsimp only
  rw [hname]
  generalize (if v.value = [] then [] else lit " ") ++ v.value = rest at hvalue hplain
  have hgt : lit ">" ++ rest = ch '>' :: rest := rfl
  rcases h.bare with ⟨hblanklines, hprev, hsameline⟩
  rcases v with ⟨name, value, object, blanklines, prev, sameline⟩
  dsimp only at hvalue hplain hblanklines hprev hsameline
  subst hblanklines hprev hsameline
  cases object with
  | false => simp [hvalue, hplain]
  | true => simp [hvalue, hgt]

/-- A variable is added to the section. -/
theorem loadLine_variableLine (h : v.Good) (i : Nat) :
    loadLine 0 ⟨cfg, some i, none⟩ (variableLine v ++ [ch '\n']) =
      .ok (some ⟨{ cfg with root := cfg.root.modify i fun sec =>
        { sec with root := sec.root ++ [v] } }, some i, none⟩, 0) := by
  have hescaped : Escaped none (variableLine v) := by
    have hsign : ch ';' ∉ (if v.object then lit "=>" else lit "=") := by
      cases v.object <;> decide
    have hvalue : ∀ q, Escaped q v.value := h.valueEscaped.of_ne nofun
    have hspace : ∀ q, Escaped q (lit " ") := fun q => escaped_of_notMem (by decide)
    rw [variableLine]
    exact escaped_append.mpr ⟨escaped_append.mpr ⟨escaped_append.mpr
      ⟨escaped_append.mpr ⟨h.nameEscaped, hspace _⟩, escaped_of_notMem hsign⟩, hspace _⟩, hvalue _⟩
  have hne : strippedLine v ≠ [] := by
    intro hnil
    have hhead := strippedLine_head v
    rw [hnil] at hhead
    cases hname : v.name with
    | nil =>
      rw [hname] at hhead
      exact absurd hhead nofun
    | cons c name =>
      rw [hname] at hhead
      exact absurd hhead nofun
  rw [loadLine_escaped hescaped, strip_variableLine h, if_neg hne, processTextLine_strippedLine h,
    ok_bind]

/-! ## Reading the file -/

theorem loadLines_cons {comment comment' : Int} {p p' : Parsed} {line : CString}
    (h : loadLine comment p line = .ok (some p', comment')) (rest : List CString) :
    loadLines comment p (line :: rest) = loadLines comment' p' rest := by
  rw [loadLines, h]
  rfl

/-- Variables are added to the last section. -/
theorem loadLines_variables {vars : List Variable} (hvars : ∀ v ∈ vars, v.Good)
    (current : Option Nat) (rest : List CString) :
    loadLines 0 ⟨⟨root ++ [sec], current⟩, some root.length, none⟩
        ((vars.map variableLine).map (· ++ [ch '\n']) ++ rest) =
      loadLines 0 ⟨⟨root ++ [{ sec with root := sec.root ++ vars }], current⟩, some root.length,
        none⟩ rest := by
  induction vars generalizing sec with
  | nil =>
    rw [List.append_nil]
    rfl
  | cons v vars ih =>
    have hv := hvars v List.mem_cons_self
    have hrest : ∀ w ∈ vars, w.Good := fun w hw => hvars w (List.mem_cons_of_mem v hw)
    have hmodify : ∀ f : Section → Section,
        (root ++ [sec]).modify root.length f = root ++ [f sec] := by
      intro f
      rw [List.modify_eq_take_drop, List.take_left, List.drop_left]
      rfl
    rw [List.map_cons, List.map_cons, List.cons_append,
      loadLines_cons (loadLine_variableLine hv root.length), hmodify, ih hrest, List.append_assoc]
    rfl

/-- A section is added. -/
theorem loadLines_section (h : sec.Good) (current : Option Nat) (rest : List CString) :
    loadLines 0 ⟨⟨root, current⟩, cat, none⟩ ((sectionLines sec).map (· ++ [ch '\n']) ++ rest) =
      loadLines 0 ⟨⟨root ++ [sec], some root.length⟩, some root.length, none⟩ rest := by
  have hempty : loadLine 0 ⟨⟨root, current⟩, cat, none⟩ ([] ++ [ch '\n']) =
      .ok (some ⟨⟨root, current⟩, cat, none⟩, 0) := loadLine_escaped trivial
  have hbare : { name := sec.name, ignored := sec.ignored, root := sec.root } = sec := by
    rcases h.bare with ⟨hinstances, hprev, hsameline⟩
    rcases sec with ⟨name, ignored, instances, prev, sameline, vars⟩
    dsimp only at hinstances hprev hsameline
    rw [hinstances, hprev, hsameline]
  rw [sectionLines, List.map_cons, List.map_cons, List.cons_append, List.cons_append,
    loadLines_cons hempty, loadLines_cons (loadLine_nameLine h), loadLines_variables h.root,
    List.nil_append, hbare]

theorem loadLines_sections {secs : List Section} (h : ∀ sec ∈ secs, sec.Good)
    (current : Option Nat) (rest : List CString) : ∃ current' cat',
    loadLines 0 ⟨⟨root, current⟩, cat, none⟩
        ((secs.flatMap sectionLines).map (· ++ [ch '\n']) ++ rest) =
      loadLines 0 ⟨⟨root ++ secs, current'⟩, cat', none⟩ rest := by
  induction secs generalizing root current cat with
  | nil =>
    rw [List.append_nil]
    exact ⟨current, cat, rfl⟩
  | cons sec secs ih =>
    have hsec := h sec List.mem_cons_self
    rcases @ih (some root.length) (root ++ [sec]) (fun s hs => h s (List.mem_cons_of_mem sec hs))
      (some root.length) with ⟨current', cat', hrest⟩
    refine ⟨current', cat', ?_⟩
    rw [List.flatMap_cons, List.map_append, List.append_assoc, loadLines_section hsec, hrest,
      List.append_assoc, List.singleton_append]

theorem headerLines_comment : ∀ line ∈ headerLines configfile fn generator day,
    ∃ rest, line = lit ";!" ++ rest := by
  intro line hline
  simp only [headerLines, List.mem_cons, List.not_mem_nil, or_false] at hline
  rcases hline with rfl | rfl | rfl | rfl | rfl | rfl
  · exact ⟨[], rfl⟩
  · exact ⟨_, rfl⟩
  · split
    · exact ⟨_, rfl⟩
    · exact ⟨_, rfl⟩
  · exact ⟨_, rfl⟩
  · exact ⟨_, rfl⟩
  · exact ⟨[], rfl⟩

theorem loadLines_comments {lines : List CString} (h : ∀ line ∈ lines, ∃ rest, line = lit ";!" ++ rest)
    (rest : List CString) :
    loadLines 0 ⟨cfg, cat, none⟩ (lines.map (· ++ [ch '\n']) ++ rest) =
      loadLines 0 ⟨cfg, cat, none⟩ rest := by
  induction lines with
  | nil => rfl
  | cons line lines ih =>
    have hrest := ih fun l hl => h l (List.mem_cons_of_mem line hl)
    rcases h line List.mem_cons_self with ⟨text, rfl⟩
    rw [List.map_cons, List.cons_append, loadLines_cons (loadLine_comment text), hrest]

/-- The lines that are written are read as the configuration. -/
theorem loadLines_saveLines (h : ∀ sec ∈ cfg.root, sec.Good) : ∃ current cat,
    loadLines 0 ⟨{}, none, none⟩
        ((saveLines configfile fn generator day cfg).map (· ++ [ch '\n'])) =
      .ok (some ⟨⟨cfg.root, current⟩, cat, none⟩, 0) := by
  rcases @loadLines_sections none [] cfg.root h none [] with ⟨current, cat, hsections⟩
  refine ⟨current, cat, ?_⟩
  rw [List.append_nil] at hsections
  rw [saveLines, List.map_append, loadLines_comments headerLines_comment, hsections]
  rfl

/-! ## The round trip -/

theorem splitOn_lines {lines : List CString} (h : ∀ line ∈ lines, ch '\n' ∉ line) :
    (lines.flatMap (· ++ [ch '\n'])).splitOn (ch '\n') = lines ++ [[]] := by
  induction lines with
  | nil => rfl
  | cons line lines ih =>
    have hrest := ih fun l hl => h l (List.mem_cons_of_mem line hl)
    rw [List.flatMap_cons, List.append_assoc, List.singleton_append,
      List.splitOn_append_cons_self_of_not_mem (h line List.mem_cons_self), hrest,
      List.cons_append]

theorem Plain.append {s t : CString} (hs : Plain s) (ht : Plain t) : Plain (s ++ t) where
  noNul c hc := (List.mem_append.mp hc).elim (hs.noNul c) (ht.noNul c)
  newline hmem := (List.mem_append.mp hmem).elim hs.newline ht.newline

theorem headerLines_plain (hconfigfile : Plain configfile) (hfn : Plain fn)
    (hgenerator : Plain generator) (hday : Plain day) :
    ∀ line ∈ headerLines configfile fn generator day, Plain line := by
  intro line hline
  simp only [headerLines, List.mem_cons, List.not_mem_nil, or_false] at hline
  rcases hline with rfl | rfl | rfl | rfl | rfl | rfl
  · decide +kernel
  · decide +kernel
  · have hinput : Plain (lit ";! Filename: ") := by decide +kernel
    split
    · have hopen : Plain (lit " (") := by decide +kernel
      have hclose : Plain (lit ")") := by decide +kernel
      exact Plain.append (.append (.append (.append hinput hconfigfile) hopen) hfn) hclose
    · exact Plain.append hinput hconfigfile
  · have hlead : Plain (lit ";! Generator: ") := by decide +kernel
    exact Plain.append hlead hgenerator
  · have hlead : Plain (lit ";! Creation Date: ") := by decide +kernel
    exact Plain.append hlead hday
  · decide +kernel

theorem sectionLines_plain (h : sec.Good) : ∀ line ∈ sectionLines sec, Plain line := by
  intro line hline
  rcases List.mem_cons.mp hline with rfl | hline
  · exact ⟨nofun, List.not_mem_nil⟩
  rcases List.mem_cons.mp hline with rfl | hline
  · have hopen : Plain (lit "[") := by decide +kernel
    have hclose : Plain (lit "]") := by decide +kernel
    have hsign : Plain (if sec.ignored then lit "(!)" else []) := by
      cases sec.ignored
      · exact ⟨nofun, List.not_mem_nil⟩
      · decide +kernel
    exact .append (.append (.append hopen h.name) hclose) hsign
  · rcases List.mem_map.mp hline with ⟨v, hv, rfl⟩
    have hgood := h.root v hv
    have hspace : Plain (lit " ") := by decide +kernel
    have hsign : Plain (if v.object then lit "=>" else lit "=") := by
      cases v.object
      · decide +kernel
      · decide +kernel
    exact .append (.append (.append (.append hgood.name hspace) hsign) hspace) hgood.value

theorem saveLines_plain (hconfigfile : Plain configfile) (hfn : Plain fn)
    (hgenerator : Plain generator) (hday : Plain day) (h : ∀ sec ∈ cfg.root, sec.Good) :
    ∀ line ∈ saveLines configfile fn generator day cfg, Plain line := by
  intro line hline
  rcases List.mem_append.mp hline with hline | hline
  · exact headerLines_plain hconfigfile hfn hgenerator hday line hline
  · rcases List.mem_flatMap.mp hline with ⟨sec, hsec, hline⟩
    exact sectionLines_plain (h sec hsec) line hline

/-- `ctime` gives one line. -/
def Answers.Dated (sys : Answers) : Prop :=
  ∃ day, Plain day ∧ day.length < 255 ∧ sys.ctime = day ++ [ch '\n']

/-- What is loaded, saved and loaded again is the same configuration. -/
theorem load_save_load {mallocs mallocs' : Mallocs} {text : List UInt8} {sys : Answers}
    {files : Files} {configDir template : CString}
    (hload : configTextFileLoad mallocs (some text) {} false = .ok (some cfg))
    (hnames : fileNames configDir configfile = .ok (template, fn))
    (hconfigfile : Plain configfile) (hfn : Plain fn) (hgenerator : Plain generator)
    (hreplaces : sys.Replaces) (hdated : sys.Dated) (hopens : Opens sys template)
    (hlinks : Links sys files fn)
    (hcomplete : Complete sys.fprintf (saveTexts configfile fn generator sys.ctime cfg))
    (hlines : ∀ line ∈ (serialization configfile fn generator sys.ctime cfg).splitOn (ch '\n'),
      line.length ≤ 8190) :
    ∃ files' cfg', configTextFileSave configDir sys files configfile cfg generator =
        .ok (0, files') ∧
      configTextFileLoad mallocs' (files' fn) {} false = .ok (some cfg') ∧
      cfg'.content = cfg.content := by
  have hgood := configTextFileLoad_good hload
  rcases hdated with ⟨day, hday, hlength, hctime⟩
  have hdate : spdCopyString sys.ctime 256 = .ok sys.ctime := by
    rw [spdCopyString_eq _ (by decide), List.take_of_length_le]
    rw [hctime, List.length_append, List.length_singleton]
    omega
  -- the file that is written
  have hne : template.take (template.length - 6) ++ sys.suffix ≠ fn := by
    rcases fileNames_eq configDir configfile with ⟨full, hfull⟩
    cases hnames.symm.trans hfull
    exact mkstemp_ne hreplaces full hopens.1
  rcases configTextFileSave_opens hnames hdate hopens hne with ⟨files', hsave, hfile⟩
  rw [if_pos hlinks] at hsave hfile
  have hwritten := (written_eq_flatten_iff _ _).mpr hcomplete
  have hserialization := @serialization_eq configfile fn generator day cfg hgood
  rw [← hctime] at hserialization
  rw [hwritten] at hfile
  have hcontent : files' fn =
      some ((saveLines configfile fn generator day cfg).flatMap (· ++ [ch '\n'])) :=
    hfile.trans (congrArg some hserialization)
  -- and how it is read
  have hplain := saveLines_plain hconfigfile hfn hgenerator hday hgood
  have hline : ∀ line ∈ saveLines configfile fn generator day cfg, Line line := by
    rw [hserialization, splitOn_lines fun line hline => (hplain line hline).newline] at hlines
    intro line hline
    exact ⟨(hplain line hline).newline, (hplain line hline).noNul,
      hlines line (List.mem_append_left _ hline)⟩
  rcases @loadLines_saveLines configfile fn generator day cfg hgood with ⟨current, cat, hread⟩
  rw [← textLines_flatMap hline] at hread
  have hreload : configTextFileLoad mallocs' (files' fn) {} false =
      .ok (some ⟨cfg.root, current⟩) := by
    rw [hcontent, configTextFileLoad, if_neg nofun, ok_bind]
    dsimp only
    rw [if_neg (fun hand => Bool.noConfusion hand.1)]
    show (loadLines 0 ⟨{}, none, none⟩ _ >>= _) = _
    rw [hread]
    rfl
  exact ⟨files', ⟨cfg.root, current⟩, hsave, hreload, rfl⟩

/-- A system where everything succeeds. -/
def allSucceeds : Answers := { linkFails with link := true }

/-- A template with a comment and an object. -/
theorem load_save_load_template : ∃ files' cfg',
    configTextFileSave [] allSucceeds oneFile (lit "/c")
        ⟨[⟨lit "a", true, [], [], [], [⟨lit "x", lit "1", false, 0, [], []⟩,
          ⟨[], lit ">", true, 0, [], []⟩]⟩], some 0⟩ (lit "g") = .ok (0, files') ∧
      configTextFileLoad ⟨true, none⟩ (files' (lit "/c")) {} false = .ok (some cfg') ∧
      cfg'.content = [(lit "a", true, [(lit "x", lit "1", false), ([], lit ">", true)])] := by
  have hload : configTextFileLoad ⟨true, none⟩ (some (lit "[a](!)\n x=1 ; b\n=>>")) {} false =
      .ok (some ⟨[⟨lit "a", true, [], [], [], [⟨lit "x", lit "1", false, 0, [], []⟩,
        ⟨[], lit ">", true, 0, [], []⟩]⟩], some 0⟩) := by decide +kernel
  have hnames : fileNames [] (lit "/c") = .ok (lit "/c.XXXXXX", lit "/c") := by decide +kernel
  have hfile : Plain (lit "/c") := by decide +kernel
  have hgenerator : Plain (lit "g") := by decide +kernel
  have hday : Plain (lit "Thu Jan  1 00:00:00 1970") := by decide +kernel
  have hopens : Opens allSucceeds (lit "/c.XXXXXX") := by
    unfold Opens
    decide +kernel
  exact load_save_load hload hnames hfile hfile hgenerator ⟨rfl, by decide⟩
    ⟨_, hday, by decide, rfl⟩ hopens (by decide +kernel) nofun (by decide +kernel)

/-- A line of the generator is read as one of the configuration. -/
theorem load_save_adds_section : ∃ files',
    configTextFileLoad ⟨true, none⟩ (some []) {} false = .ok (some {}) ∧
    configTextFileSave [] allSucceeds oneFile (lit "/c") {} (lit "g\n[a]") = .ok (0, files') ∧
      configTextFileLoad ⟨true, none⟩ (files' (lit "/c")) {} false =
        .ok (some ⟨[{ name := lit "a" }], some 0⟩) ∧
      Complete allSucceeds.fprintf (saveTexts (lit "/c") (lit "/c") (lit "g\n[a]")
        allSucceeds.ctime {}) ∧
      (∀ line ∈ (serialization (lit "/c") (lit "/c") (lit "g\n[a]") allSucceeds.ctime {}).splitOn
        (ch '\n'), line.length ≤ 8190) ∧
      SpdConfig.content ⟨[{ name := lit "a" }], some 0⟩ ≠ SpdConfig.content {} := by
  have hnames : fileNames [] (lit "/c") = .ok (lit "/c.XXXXXX", lit "/c") := by decide +kernel
  have hdate : spdCopyString allSucceeds.ctime 256 = .ok allSucceeds.ctime := by decide +kernel
  have hopens : Opens allSucceeds (lit "/c.XXXXXX") := by
    unfold Opens
    decide +kernel
  have hmain := @configTextFileSave_opens allSucceeds oneFile _ _ [] (lit "/c") (lit "g\n[a]")
    allSucceeds.ctime {} hnames hdate hopens (by decide +kernel)
  rcases hmain with ⟨files', hsave, hfile⟩
  have hread : configTextFileLoad ⟨true, none⟩ (some (serialization (lit "/c") (lit "/c")
      (lit "g\n[a]") allSucceeds.ctime {})) {} false =
      .ok (some ⟨[{ name := lit "a" }], some 0⟩) := by decide +kernel
  refine ⟨files', by decide +kernel, hsave, ?_, nofun, by decide +kernel, List.cons_ne_nil _ _⟩
  rw [hfile]
  exact hread

end Spider.Config.Text
