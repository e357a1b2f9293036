import Spider.Config.Loaded
import Spider.Config.Reference
import Spider.Config.Header

/-!
# Variables that are inherited

A header names bases, and the variables of these are cloned one after the other
into the section that it selects. What the options do is stated against the
sections as they are before the header; what the lines behind it do, as more
variables at the end of sections.
-/

namespace Spider.Config.Text

open Lib Outcome CString Strings
open Inherit (IsBase IsPlus headerLine span_ne notMem_intercalate)

/-! ## The texts of a file -/

section

variable {comment comment' : Int} {p p' : Parsed} {lines texts : List CString} {text : CString}

/-- A line that is loaded is its text, when there is one, processed. -/
theorem loadLine_processTexts {buf : CString} (hp : p.buffers = none)
    (hline : loadLine comment p buf = .ok (some p', comment')) :
    processTexts p (if lineText comment p buf = [] then [] else [lineText comment p buf]) =
      .ok (some p') := by
  obtain ⟨s, hscan, hline⟩ := bind_eq_ok.mp hline
  have htext : lineText comment p buf = spdStrip s.text := by rw [lineText, hscan]
  have hbuffers : s.buffers = none := scan_buffers buf hscan (by rw [hp]; rfl)
  have hsame : { p with buffers := s.buffers } = p := by rw [hbuffers, ← hp]
  dsimp only at hline
  cases hprocess : s.process with
  | false =>
    have hnothing : lineText comment p buf = [] := by
      rw [htext, Scan.text, hprocess, if_neg Bool.false_ne_true]
      rfl
    rw [hprocess, if_neg Bool.false_ne_true, hbuffers, Option.map_none] at hline
    rw [if_pos hnothing, processTexts]
    cases hline
    rw [← hbuffers, hsame]
  | true =>
    have hkept : spdStrip (s.kept.finish []) = lineText comment p buf := by
      rw [htext, Scan.text, if_pos hprocess]
    rw [hprocess, if_pos rfl, hkept, hsame] at hline
    split at hline
    · next hempty =>
      rw [if_pos hempty, processTexts]
      cases hline
      rfl
    · next hne =>
      obtain ⟨r, hrun, hend⟩ := bind_eq_ok.mp hline
      cases hend
      rw [if_neg hne, processTexts, hrun]
      rfl

theorem processTexts_append {before behind : List CString}
    (hrun : processTexts p (before ++ behind) = .ok (some p')) :
    ∃ q, processTexts p before = .ok (some q) ∧ processTexts q behind = .ok (some p') := by
  induction before generalizing p with
  | nil => exact ⟨p, rfl, hrun⟩
  | cons text before ih =>
    obtain ⟨r, hline, hrest⟩ := bind_eq_ok.mp hrun
    cases r with
    | none => exact absurd hrest nofun
    | some r =>
      obtain ⟨q, hbefore, hbehind⟩ := ih hrest
      exact ⟨q, by rw [processTexts, hline]; exact hbefore, hbehind⟩

theorem processTexts_cons (htext : processTextLine p text = .ok (some p')) :
    processTexts p (text :: texts) = processTexts p' texts := by
  rw [processTexts, htext]
  rfl

theorem processTexts_append_eq {before behind : List CString}
    (hbefore : processTexts p before = .ok (some p')) :
    processTexts p (before ++ behind) = processTexts p' behind := by
  induction before generalizing p with
  | nil =>
    obtain rfl := Option.some.inj (Outcome.ok.inj hbefore)
    rfl
  | cons text before ih =>
    obtain ⟨r, hline, hrest⟩ := bind_eq_ok.mp hbefore
    cases r with
    | none => exact absurd hrest nofun
    | some r =>
      rw [List.cons_append, processTexts_cons hline]
      exact ih hrest

theorem processTexts_buffers (hp : p.buffers = none)
    (hrun : processTexts p texts = .ok (some p')) : p'.buffers = none := by
  induction texts generalizing p with
  | nil =>
    obtain rfl := Option.some.inj (Outcome.ok.inj hrun)
    exact hp
  | cons text texts ih =>
    obtain ⟨r, hline, hrest⟩ := bind_eq_ok.mp hrun
    cases r with
    | none => exact absurd hrest nofun
    | some q => exact ih (processTextLine_buffers hp hline) hrest

/-- Run lemma: lines that are loaded are the texts they hand on, processed. -/
theorem loadLines_processTexts (hp : p.buffers = none)
    (hrun : loadLines comment p lines = .ok (some p', comment')) :
    processTexts p (handed comment p lines) = .ok (some p') := by
  induction lines generalizing comment p with
  | nil =>
    cases hrun
    rfl
  | cons buf lines ih =>
    obtain ⟨⟨r, comment1⟩, hline, hrest⟩ := bind_eq_ok.mp hrun
    cases r with
    | none => exact absurd hrest nofun
    | some q =>
      have htext := loadLine_processTexts hp hline
      rw [handed, hline, processTexts_append_eq htext]
      exact ih (processTexts_buffers hp htext) hrest

/-- A file that is accepted is its texts, processed. -/
theorem configTextFileLoad_processTexts {mallocs : Mallocs} {file : List UInt8}
    {cfg cfg' : SpdConfig} {withcomments : Bool}
    (hload : configTextFileLoad mallocs (some file) cfg withcomments = .ok (some cfg')) :
    ∃ p, processTexts ⟨cfg, cfg.current, none⟩
      (handed 0 ⟨cfg, cfg.current, none⟩ (textLines file)) = .ok (some p) ∧ p.cfg = cfg' := by
  cases withcomments with
  | true => exact absurd hload (configTextFileLoad_withcomments cfg cfg')
  | false =>
    obtain ⟨⟨r, comment⟩, hlines, hend⟩ := bind_eq_ok.mp
      (show (loadLines 0 ⟨cfg, cfg.current, none⟩ (textLines file) >>= fun r =>
        if r.2 < 0 then .fault else .ok (r.1.map Parsed.cfg)) = .ok (some cfg') from hload)
    dsimp only at hend
    split at hend
    · exact absurd hend nofun
    · cases r with
      | none => exact absurd hend nofun
      | some p => exact ⟨p, loadLines_processTexts rfl hlines,
          Option.some.inj (Outcome.ok.inj hend)⟩

end

/-! ## What the options of a header do -/

/-- The variables of a section. -/
def variablesAt (root : List Section) (i : Nat) : List Variable :=
  ((root[i]?).map Section.root).getD []

/-- The variables of the section that is found under a name. -/
def variablesOf (root : List Section) (name : CString) : List Variable :=
  ((sectionGet root name true).map (variablesAt root)).getD []

/-- The variables of the bases that a header names, in the order of the options. -/
def baseVariables (root : List Section) (opts : List CString) : List Variable :=
  (opts.filter fun o => IsBase o).flatMap (variablesOf root)

/-- More variables at the end of a section, which keeps its name. -/
structure Adds (f : Section → Section) (vars : List Variable) : Prop where
  name : ∀ sec, (f sec).name = sec.name
  root : ∀ sec, (f sec).root = sec.root ++ vars

/-- `*cat`, with the variables `vars` added since the header began: they are all there is of the
    new section, or the last ones of the section that `catname` stands for. -/
inductive Selects (root : List Section) (catname : CString) (vars : List Variable) :
    List Section → Cat → Prop
  | new (sec : Section) (hsec : sec.root = vars) : Selects root catname vars root (.new sec)
  | old (i : Nat) (f : Section → Section) (hi : sectionGet root catname true = some i)
      (hf : Adds f vars) : Selects root catname vars (root.modify i f) (.old i)

def Cat.isOld : Cat → Bool
  | .new _ => false
  | .old _ => true

section

variable {root root' : List Section} {cat cat' : Cat} {catname name cur : CString}
  {vars more : List Variable} {f g : Section → Section} {opts : List CString}

theorem Adds.comp (hf : Adds f vars) (hg : Adds g more) : Adds (g ∘ f) (vars ++ more) where
  name sec := (hg.name (f sec)).trans (hf.name sec)
  root sec := by rw [Function.comp_apply, hg.root, hf.root, List.append_assoc]

theorem adds_append (vars : List Variable) :
    Adds (fun sec => { sec with root := sec.root ++ vars }) vars :=
  ⟨fun _ => rfl, fun _ => rfl⟩

theorem adds_ignored : Adds (fun sec => { sec with ignored := true }) [] :=
  ⟨fun _ => rfl, fun sec => (List.append_nil sec.root).symm⟩

/-- Sections are found by name. -/
theorem sectionGet_true (root : List Section) (name : CString) :
    sectionGet root name true = Inherit.resolve (root.map Section.name) name := by
  rw [sectionGet, Inherit.resolve, List.findIdx?_map]
  congr
  funext sec
  simp

theorem map_name_modify (hname : ∀ sec, (f sec).name = sec.name) (i : Nat) :
    (root.modify i f).map Section.name = root.map Section.name := by
  induction root generalizing i with
  | nil => rw [List.modify_nil]
  | cons sec root ih =>
    cases i with
    | zero => rw [List.modify_zero_cons, List.map_cons, List.map_cons, hname]
    | succ i => rw [List.modify_succ_cons, List.map_cons, List.map_cons, ih]

theorem sectionGet_modify (hf : Adds f vars) (i : Nat) (name : CString) :
    sectionGet (root.modify i f) name true = sectionGet root name true := by
  rw [sectionGet_true, sectionGet_true, map_name_modify hf.name]

theorem Selects.sectionGet (h : Selects root catname vars root' cat) (name : CString) :
    sectionGet root' name true = sectionGet root name true := by
  cases h with
  | new => rfl
  | old i f hi hf => exact sectionGet_modify hf i name

theorem Selects.add_old {i : Nat} (h : Selects root catname vars root' (.old i))
    (hg : Adds g more) : Selects root catname (vars ++ more) (root'.modify i g) (.old i) := by
  cases h with
  | old i f hi hf =>
    rw [List.modify_modify_eq]
    exact .old i (g ∘ f) hi (hf.comp hg)

theorem baseVariables_cons (root : List Section) (cur : CString) (opts : List CString) :
    baseVariables root (cur :: opts) =
      (if IsBase cur then variablesOf root cur else []) ++ baseVariables root opts := by
  by_cases hbase : IsBase cur
  · simp [baseVariables, hbase]
  · simp [baseVariables, hbase]

/-- What is inherited is what the base has had before the header, unless it is the old section. -/
theorem Selects.inherits (h : Selects root catname vars root' cat) {base : Nat}
    (hbase : Text.sectionGet root cur true = some base)
    (hother : cat.isOld → Text.sectionGet root cur true ≠ Text.sectionGet root catname true) :
    ∃ root1 cat1, inheritSection root' cat base = .ok (root1, cat1) ∧
      Selects root catname (vars ++ (variablesOf root cur).map variableClone) root1 cat1 ∧
      cat1.isOld = cat.isOld := by
  have hvars : ((root[base]?).map Section.root).getD [] = variablesOf root cur := by
    rw [variablesOf, hbase]
    rfl
  cases h with
  | new sec hsec =>
    refine ⟨root, _, rfl, ?_, rfl⟩
    rw [hvars]
    exact .new _ (by rw [hsec])
  | old i f hi hf =>
    have hne : i ≠ base := by
      rintro rfl
      exact hother rfl (hbase.trans hi.symm)
    have hsame : (root.modify i f)[base]? = root[base]? := List.getElem?_modify_ne f root hne
    refine ⟨_, _, ?_, Selects.add_old (.old i f hi hf) (adds_append _), rfl⟩
    rw [inheritSection, hsame, hvars]
    exact if_neg fun hand => hne hand.1

/-- Step lemma: an option of a header. -/
theorem headerOptions_step {r : List Section × Cat} (h : Selects root catname vars root' cat)
    (hother : cat.isOld → IsBase cur →
      Text.sectionGet root cur true ≠ Text.sectionGet root catname true)
    (hrun : headerOptions catname (cur :: opts) root' cat = .ok (some r)) :
    ∃ root1 cat1, headerOptions catname opts root1 cat1 = .ok (some r) ∧
      Selects root catname (vars ++ (baseVariables root [cur]).map variableClone) root1 cat1 ∧
      cat1.isOld = (cat.isOld || decide (IsPlus cur)) := by
  rw [headerOptions.eq_def] at hrun
  dsimp only at hrun
  rw [baseVariables_cons, show baseVariables root [] = [] from rfl, List.append_nil]
  split at hrun
  next hbang =>
    have hbase : ¬ IsBase cur := fun hbase => hbase.1 hbang
    have hplus : ¬ IsPlus cur := fun hplus => hplus.1 hbang
    rw [if_neg hbase, List.map_nil, List.append_nil, decide_eq_false hplus, Bool.or_false]
    cases h with
    | new sec hsec => exact ⟨_, _, hrun, .new _ hsec, rfl⟩
    | old i f hi hf =>
      have hignored := Selects.add_old (.old i f hi hf) adds_ignored
      rw [List.append_nil] at hignored
      exact ⟨_, _, hrun, hignored, rfl⟩
  next hbang =>
    split at hrun
    next hplus =>
      have hbase : ¬ IsBase cur := fun hbase => hbase.2 hplus
      have hplus : IsPlus cur := ⟨hbang, hplus⟩
      rw [if_neg hbase, List.map_nil, List.append_nil, decide_eq_true hplus, Bool.or_true]
      split at hrun
      next => exact absurd hrun nofun
      next i hi =>
        rw [h.sectionGet] at hi
        cases h with
        | new sec hsec =>
          subst hsec
          exact ⟨_, _, hrun, .old i _ hi (adds_append sec.root), rfl⟩
        | old j f hj hf =>
          obtain rfl := Option.some.inj (hj.symm.trans hi)
          exact ⟨_, _, hrun, .old j f hj hf, rfl⟩
    next hplus =>
      have hbase : IsBase cur := ⟨hbang, hplus⟩
      have hnot : ¬ IsPlus cur := fun h => hplus h.2
      rw [if_pos hbase, decide_eq_false hnot, Bool.or_false]
      split at hrun
      next => exact absurd hrun nofun
      next base hget =>
        rw [h.sectionGet] at hget
        obtain ⟨root1, cat1, hinherit, hselects, hold⟩ :=
          h.inherits hget fun hold => hother hold hbase
        rw [hinherit] at hrun
        exact ⟨root1, cat1, hrun, hselects, hold⟩

/-- Run lemma: all options of a header. -/
theorem headerOptions_selects (opts : List CString) (h : Selects root catname vars root' cat)
    {rootEnd : List Section} {catEnd : Cat}
    (hother : cat.isOld ∨ (∃ o ∈ opts, IsPlus o) → ∀ o ∈ opts, IsBase o →
      Text.sectionGet root o true ≠ Text.sectionGet root catname true)
    (hrun : headerOptions catname opts root' cat = .ok (some (rootEnd, catEnd))) :
    Selects root catname (vars ++ (baseVariables root opts).map variableClone) rootEnd catEnd ∧
      (catEnd.isOld ↔ cat.isOld ∨ ∃ o ∈ opts, IsPlus o) := by
  induction opts generalizing vars root' cat with
  | nil =>
    cases hrun
    rw [show baseVariables root [] = [] from rfl, List.map_nil, List.append_nil]
    exact ⟨h, by simp⟩
  | cons cur opts ih =>
    obtain ⟨root1, cat1, hrest, hselects, hold⟩ := headerOptions_step h
      (fun hold hbase => hother (.inl hold) cur List.mem_cons_self hbase) hrun
    have hsame : cat1.isOld = true ∨ (∃ o ∈ opts, IsPlus o) ↔
        cat.isOld = true ∨ ∃ o ∈ cur :: opts, IsPlus o := by
      rw [hold]
      simp [or_assoc]
    have hrestOther : cat1.isOld ∨ (∃ o ∈ opts, IsPlus o) → ∀ o ∈ opts, IsBase o →
        Text.sectionGet root o true ≠ Text.sectionGet root catname true := fun hsome o ho =>
      hother (hsame.mp hsome) o (List.mem_cons_of_mem cur ho)
    obtain ⟨hend, holdEnd⟩ := ih hselects hrestOther hrest
    rw [List.append_assoc, ← List.map_append] at hend
    have hcons : baseVariables root [cur] ++ baseVariables root opts =
        baseVariables root (cur :: opts) := by
      rw [baseVariables_cons root cur opts, baseVariables_cons root cur [],
        show baseVariables root [] = [] from rfl, List.append_nil]
    rw [hcons] at hend
    exact ⟨hend, holdEnd.trans hsame⟩

/-! ## Sections only grow -/

/-- No section loses a variable, and new ones stand behind. -/
def Grows (root root' : List Section) : Prop :=
  ∀ i, variablesAt root i <+: variablesAt root' i

theorem Grows.refl (root : List Section) : Grows root root := fun _ => List.prefix_rfl

theorem Grows.trans {root'' : List Section} (h : Grows root root') (h' : Grows root' root'') :
    Grows root root'' := fun i => (h i).trans (h' i)

theorem variablesAt_modify (hf : Adds f vars) {i : Nat} (hi : i < root.length) :
    variablesAt (root.modify i f) i = variablesAt root i ++ vars := by
  rw [variablesAt, variablesAt, List.getElem?_modify_eq, List.getElem?_eq_getElem hi]
  exact hf.root root[i]

theorem grows_modify (hf : Adds f vars) (i : Nat) : Grows root (root.modify i f) := by
  intro j
  by_cases hij : i = j
  · subst hij
    by_cases hi : i < root.length
    · rw [variablesAt_modify hf hi]
      exact List.prefix_append _ _
    · rw [variablesAt, List.getElem?_eq_none (not_lt.mp hi)]
      exact List.nil_prefix
  · rw [variablesAt, variablesAt, List.getElem?_modify_ne f root hij]

theorem grows_append (sec : Section) : Grows root (root ++ [sec]) := by
  intro j
  by_cases hj : j < root.length
  · rw [variablesAt, variablesAt, List.getElem?_append_left hj]
  · rw [variablesAt, List.getElem?_eq_none (not_lt.mp hj)]
    exact List.nil_prefix

/-- From one option to another: no section is renamed or loses a variable, and a new section stays
    new only with its name. -/
structure Follows (root : List Section) (cat : Cat) (root' : List Section) (cat' : Cat) :
    Prop where
  grows : Grows root root'
  names : root'.map Section.name = root.map Section.name
  fresh : ∀ sec', cat' = .new sec' → ∃ sec, cat = .new sec ∧ sec'.name = sec.name

theorem Follows.refl (root : List Section) (cat : Cat) : Follows root cat root cat :=
  ⟨.refl root, rfl, fun sec hsec => ⟨sec, hsec, rfl⟩⟩

theorem Follows.trans {root'' : List Section} {cat'' : Cat} (h : Follows root cat root' cat')
    (h' : Follows root' cat' root'' cat'') : Follows root cat root'' cat'' where
  grows := h.grows.trans h'.grows
  names := h'.names.trans h.names
  fresh := by
    intro sec'' hsec''
    obtain ⟨sec', hsec', hname'⟩ := h'.fresh sec'' hsec''
    obtain ⟨sec, hsec, hname⟩ := h.fresh sec' hsec'
    exact ⟨sec, hsec, hname'.trans hname⟩

theorem follows_modify (hf : Adds f vars) (i j : Nat) (cat : Cat) :
    Follows root cat (root.modify i f) (.old j) :=
  ⟨grows_modify hf i, map_name_modify hf.name i, nofun⟩

theorem follows_new {sec sec' : Section} (hname : sec'.name = sec.name) :
    Follows root (.new sec) root (.new sec') where
  grows := .refl root
  names := rfl
  fresh := by
    rintro sec'' ⟨⟩
    exact ⟨sec, rfl, hname⟩

theorem inheritSection_follows {base : Nat}
    (hrun : inheritSection root cat base = .ok (root', cat')) : Follows root cat root' cat' := by
  cases cat with
  | new sec =>
    cases hrun
    exact follows_new rfl
  | old i =>
    rw [inheritSection] at hrun
    split at hrun
    · cases hrun
    · cases hrun
      exact follows_modify (adds_append _) i i _

theorem headerOptions_follows (opts : List CString)
    (hrun : headerOptions catname opts root cat = .ok (some (root', cat'))) :
    Follows root cat root' cat' := by
  induction opts generalizing root cat with
  | nil =>
    cases hrun
    exact .refl _ _
  | cons cur opts ih =>
    rw [headerOptions.eq_def] at hrun
    dsimp only at hrun
    split at hrun
    next =>
      cases cat with
      | new sec =>
        have hstep : Follows root (.new sec) root (.new { sec with ignored := true }) :=
          follows_new rfl
        exact hstep.trans (ih hrun)
      | old i => exact (follows_modify adds_ignored i i _).trans (ih hrun)
    next =>
      split at hrun
      next =>
        split at hrun
        next => exact absurd hrun nofun
        next i _ =>
          cases cat with
          | new sec => exact (follows_modify (adds_append sec.root) i i _).trans (ih hrun)
          | old j =>
            have hstep : Follows root (.old j) root (.old i) := ⟨.refl root, rfl, nofun⟩
            exact hstep.trans (ih hrun)
      next =>
        split at hrun
        next => exact absurd hrun nofun
        next base _ =>
          obtain ⟨⟨root1, cat1⟩, hinherit, hrest⟩ := bind_eq_ok.mp hrun
          exact (inheritSection_follows hinherit).trans (ih hrest)

end

/-! ## Lines -/

/-- The variable in a line that is no header. -/
def lineVariable (buf : CString) : Option Variable :=
  if buf.head? = some (ch '#') then none
  else
    match buf.span (· ≠ ch '=') with
    | (_, []) => none
    | (cur, _ :: c) =>
      some
        { name := spdStrip cur
          value := spdStrip (if c.head? = some (ch '>') then c.tail else c)
          object := c.head? = some (ch '>') }

section

variable {p p' : Parsed} {name text : CString} {opts own texts : List CString} {i : Nat}

/-- What is left of a header behind its options. -/
def Parsed.close (p : Parsed) : Option (List Section × Cat) → Option Parsed
  | none => none
  | some (root, .new sec) => some ⟨⟨root ++ [sec], some root.length⟩, some root.length, none⟩
  | some (root, .old i) => some ⟨{ p.cfg with root := root }, some i, none⟩

/-- What a header is read as. -/
theorem processTextLine_headerLine (hp : p.buffers = none) (hname : ch ']' ∉ name)
    (hne : opts ≠ []) (hopts : ∀ o ∈ opts, ch ',' ∉ o ∧ ch ')' ∉ o) :
    processTextLine p (headerLine name opts) =
      headerOptions name opts p.cfg.root (.new { name := name.take 79 }) >>= fun r =>
        .ok (p.close r) := by
  have hclose := notMem_intercalate (show ch ')' ≠ ch ',' by decide) fun o ho => (hopts o ho).2
  have hline : headerLine name opts
      = ch '[' :: (name ++ ch ']' :: ch '(' :: ([ch ','].intercalate opts ++ ch ')' :: [])) := by
    simp [headerLine, lit]
  have hsplit : ([ch ','].intercalate opts).splitOn (ch ',') = opts :=
    List.splitOn_intercalate (ch ',') (fun o ho => (hopts o ho).1) hne
  rw [hline, processTextLine, if_pos List.head?_cons, processHeader, List.tail_cons, span_ne hname,
    hp]
  simp only [reduceCtorEq, if_false, spdCopyString_eq _ (show 0 < 80 by decide), ok_bind,
    List.tail_cons, List.head?_cons, if_true, span_ne hclose, hsplit, Option.map_none,
    Option.getD_none]
  congr
  funext r
  rcases r with _ | ⟨root, sec | i⟩ <;> rfl

/-- A line that is no header adds the variable in it to the section. -/
theorem processTextLine_own (hp : p.buffers = none) (hcat : p.cat = some i)
    (hown : text.head? ≠ some (ch '[')) (hrun : processTextLine p text = .ok (some p')) :
    p'.cat = some i ∧ ∃ f, Adds f (lineVariable text).toList ∧
      p'.cfg.root = p.cfg.root.modify i f := by
  have hnothing : Adds id [] := ⟨fun _ => rfl, fun sec => (List.append_nil sec.root).symm⟩
  rw [processTextLine, if_neg hown] at hrun
  rw [lineVariable]
  split at hrun
  next hhash =>
    cases hrun
    rw [if_pos hhash]
    exact ⟨hcat, id, hnothing, (List.modify_id _ _).symm⟩
  next hhash =>
    rw [if_neg hhash]
    rw [hcat] at hrun
    dsimp only at hrun
    rcases hspan : text.span (· ≠ ch '=') with ⟨cur, _ | ⟨eq, c⟩⟩
    · rw [hspan] at hrun
      cases hrun
      exact ⟨hcat, id, hnothing, (List.modify_id _ _).symm⟩
    · rw [hspan, hp] at hrun
      cases hrun
      exact ⟨rfl, _, adds_append _, rfl⟩

/-- Run lemma: the lines of a section. -/
theorem processTexts_own (hp : p.buffers = none) (hcat : p.cat = some i)
    (hown : ∀ text ∈ own, text.head? ≠ some (ch '['))
    (hrun : processTexts p own = .ok (some p')) :
    p'.cat = some i ∧ ∃ f, Adds f (own.filterMap lineVariable) ∧
      p'.cfg.root = p.cfg.root.modify i f := by
  induction own generalizing p with
  | nil =>
    cases hrun
    exact ⟨hcat, id, ⟨fun _ => rfl, fun sec => (List.append_nil sec.root).symm⟩,
      (List.modify_id _ _).symm⟩
  | cons text own ih =>
    obtain ⟨r, hline, hrest⟩ := bind_eq_ok.mp hrun
    cases r with
    | none => exact absurd hrest nofun
    | some q =>
      obtain ⟨hq, f, hf, hroot⟩ := processTextLine_own hp hcat (hown text List.mem_cons_self) hline
      obtain ⟨hend, g, hg, hrootEnd⟩ := ih (processTextLine_buffers hp hline) hq
        (fun t ht => hown t (List.mem_cons_of_mem text ht)) hrest
      have hvars : (text :: own).filterMap lineVariable =
          (lineVariable text).toList ++ own.filterMap lineVariable := by
        cases hv : lineVariable text <;> simp [hv]
      refine ⟨hend, g ∘ f, hvars ▸ hf.comp hg, ?_⟩
      rw [hrootEnd, hroot, List.modify_modify_eq]

/-- The name in a header, up to the bracket. -/
def headerName (buf : CString) : CString := buf.tail.takeWhile (· ≠ ch ']')

/-- Step lemma: what a line does to the sections. A section is added by a header only, and has the
    first 79 bytes of the name there. -/
theorem processTextLine_sections (hrun : processTextLine p text = .ok (some p')) :
    Grows p.cfg.root p'.cfg.root ∧
      (p'.cfg.root.map Section.name = p.cfg.root.map Section.name ∨
        p'.cfg.root.map Section.name =
          p.cfg.root.map Section.name ++ [(headerName text).take 79]) := by
  rw [processTextLine] at hrun
  split at hrun
  next =>
    rw [processHeader, List.span_eq_takeWhile_dropWhile] at hrun
    dsimp only at hrun
    split at hrun
    next => cases hrun
    next =>
      rw [spdCopyString_eq _ (by decide), ok_bind] at hrun
      split at hrun
      next => cases hrun
      next =>
        obtain ⟨r, hopts, hrun⟩ := bind_eq_ok.mp hrun
        split at hrun
        next => cases hrun
        next root sec =>
          cases hrun
          have hfollows := headerOptions_follows _ hopts
          obtain ⟨sec', hsec', hname⟩ := hfollows.fresh sec rfl
          obtain rfl := Cat.new.inj hsec'
          refine ⟨hfollows.grows.trans (grows_append _), .inr ?_⟩
          rw [List.map_append, hfollows.names, List.map_singleton, hname]
          rfl
        next =>
          cases hrun
          have hfollows := headerOptions_follows _ hopts
          exact ⟨hfollows.grows, .inl hfollows.names⟩
  next =>
    split at hrun
    next =>
      cases hrun
      exact ⟨.refl _, .inl rfl⟩
    next =>
      split at hrun
      next => cases hrun
      next =>
        split at hrun
        next =>
          cases hrun
          exact ⟨.refl _, .inl rfl⟩
        next =>
          cases hrun
          exact ⟨grows_modify (adds_append _) _, .inl (map_name_modify (adds_append _).name _)⟩

theorem processTexts_grows (hrun : processTexts p texts = .ok (some p')) :
    Grows p.cfg.root p'.cfg.root := by
  induction texts generalizing p with
  | nil =>
    cases hrun
    exact .refl _
  | cons text texts ih =>
    obtain ⟨r, hline, hrest⟩ := bind_eq_ok.mp hrun
    cases r with
    | none => exact absurd hrest nofun
    | some q => exact (processTextLine_sections hline).1.trans (ih hrest)

end

/-! ## Sections with their bases -/

/-- The section that a header selects: a new one, or with a `+` the one of its name. -/
def selected (root : List Section) (name : CString) (opts : List CString) : Nat :=
  if ∃ o ∈ opts, IsPlus o then (sectionGet root name true).getD root.length else root.length

/-- What a variable is to a reader of the configuration. -/
def Variable.content (v : Variable) : CString × CString × Bool := (v.name, v.value, v.object)

/-- Between `p` and `p'` a header and its own lines `own` have been read: the section selected has
    the variables of the bases behind those it has had, and its own behind these, no other section
    has changed, and in the end, in `cfg`, nothing of it is lost. -/
structure Copies (p p' : Parsed) (name : CString) (opts own : List CString) (cfg : SpdConfig) :
    Prop where
  there : selected p.cfg.root name opts < p'.cfg.root.length
  contents : (variablesAt p'.cfg.root (selected p.cfg.root name opts)).map Variable.content =
    (variablesAt p.cfg.root (selected p.cfg.root name opts) ++ baseVariables p.cfg.root opts ++
      own.filterMap lineVariable).map Variable.content
  others : ∀ j, j ≠ selected p.cfg.root name opts → p'.cfg.root[j]? = p.cfg.root[j]?
  kept : variablesAt p'.cfg.root (selected p.cfg.root name opts) <+:
    variablesAt cfg.root (selected p.cfg.root name opts)

section

variable {p p' : Parsed} {name : CString} {opts own : List CString}

theorem content_variableClone (v : Variable) :
    (variableClone v).content = v.content ↔ v.object = false := by
  constructor
  · intro h
    exact (congrArg (fun c => c.2.2) h).symm
  · intro h
    rw [Variable.content, Variable.content, h]
    rfl

/-- The section with the clones of the variables of the bases. -/
theorem header_adds (hp : p.buffers = none) (hname : ch ']' ∉ name) (hne : opts ≠ [])
    (hopts : ∀ o ∈ opts, ch ',' ∉ o ∧ ch ')' ∉ o)
    (hother : (∃ o ∈ opts, IsPlus o) → ∀ o ∈ opts, IsBase o →
      sectionGet p.cfg.root o true ≠ sectionGet p.cfg.root name true)
    (hrun : processTextLine p (headerLine name opts) = .ok (some p')) :
    p'.cat = some (selected p.cfg.root name opts) ∧
      selected p.cfg.root name opts < p'.cfg.root.length ∧
      variablesAt p'.cfg.root (selected p.cfg.root name opts) =
        variablesAt p.cfg.root (selected p.cfg.root name opts) ++
          (baseVariables p.cfg.root opts).map variableClone ∧
      ∀ j, j ≠ selected p.cfg.root name opts → p'.cfg.root[j]? = p.cfg.root[j]? := by
  rw [processTextLine_headerLine hp hname hne hopts] at hrun
  obtain ⟨r, hoptions, hrun⟩ := bind_eq_ok.mp hrun
  cases r with
  | none => exact absurd hrun nofun
  | some r =>
    obtain ⟨root, cat⟩ := r
    have hstart : Selects p.cfg.root name [] p.cfg.root (.new { name := name.take 79 }) :=
      .new _ rfl
    obtain ⟨hselects, hold⟩ := headerOptions_selects opts hstart
      (fun hsome => hother (hsome.resolve_left nofun)) hoptions
    rw [List.nil_append] at hselects
    cases hselects with
    | new sec hsec =>
      have hnone : ¬ ∃ o ∈ opts, IsPlus o := fun hsome => nomatch hold.mpr (.inr hsome)
      cases hrun
      rw [selected, if_neg hnone]
      refine ⟨rfl, by simp, ?_, fun j hj => ?_⟩
      · simp [variablesAt, hsec]
      · by_cases hlt : j < p.cfg.root.length
        · exact List.getElem?_append_left hlt
        · rw [List.getElem?_eq_none (not_lt.mp hlt), List.getElem?_eq_none]
          rw [List.length_append, List.length_singleton]
          omega
    | old i f hi hf =>
      have hsome : ∃ o ∈ opts, IsPlus o := (hold.mp rfl).resolve_left nofun
      have hlt : i < p.cfg.root.length := (List.findIdx?_eq_some_iff_findIdx_eq.mp hi).1
      cases hrun
      rw [selected, if_pos hsome, hi, Option.getD_some]
      refine ⟨rfl, by rwa [List.length_modify], variablesAt_modify hf hlt, fun j hj => ?_⟩
      exact List.getElem?_modify_ne f _ hj.symm

/-- In a file that is accepted, a header gives its section the variables of the bases as they are
    exactly when none of these is an object. -/
theorem header_copies_iff (mallocs : Mallocs) (file : List UInt8) (cfg cfg' : SpdConfig)
    (withcomments : Bool) (before rest : List CString)
    (hload : configTextFileLoad mallocs (some file) cfg withcomments = .ok (some cfg'))
    (hfile : handed 0 ⟨cfg, cfg.current, none⟩ (textLines file) =
      before ++ (headerLine name opts :: own ++ rest))
    (hname : ch ']' ∉ name) (hne : opts ≠ []) (hopts : ∀ o ∈ opts, ch ',' ∉ o ∧ ch ')' ∉ o)
    (hown : ∀ text ∈ own, text.head? ≠ some (ch '['))
    (hbefore : processTexts ⟨cfg, cfg.current, none⟩ before = .ok (some p))
    (hother : (∃ o ∈ opts, IsPlus o) → ∀ o ∈ opts, IsBase o →
      sectionGet p.cfg.root o true ≠ sectionGet p.cfg.root name true) :
    (∃ p', processTexts p (headerLine name opts :: own) = .ok (some p') ∧
      Copies p p' name opts own cfg') ↔
      ∀ v ∈ baseVariables p.cfg.root opts, v.object = false := by
  obtain ⟨pEnd, hrun, rfl⟩ := configTextFileLoad_processTexts hload
  rw [hfile, processTexts_append_eq hbefore] at hrun
  obtain ⟨p', hlines, hrest⟩ := processTexts_append hrun
  obtain ⟨r, hheader, hlinesOwn⟩ := bind_eq_ok.mp hlines
  have hp : p.buffers = none := processTexts_buffers rfl hbefore
  cases r with
  | none => exact absurd hlinesOwn nofun
  | some q =>
    obtain ⟨hcat, hlt, hvars, hothers⟩ := header_adds hp hname hne hopts hother hheader
    obtain ⟨-, f, hf, hroot⟩ :=
      processTexts_own (processTextLine_buffers hp hheader) hcat hown hlinesOwn
    have hend : variablesAt p'.cfg.root (selected p.cfg.root name opts) =
        variablesAt p.cfg.root (selected p.cfg.root name opts) ++
          (baseVariables p.cfg.root opts).map variableClone ++ own.filterMap lineVariable := by
      rw [hroot, variablesAt_modify hf hlt, hvars]
    have hcontent : ∀ vars : List Variable,
        ((variablesAt p.cfg.root (selected p.cfg.root name opts) ++ vars.map variableClone ++
            own.filterMap lineVariable).map Variable.content =
          (variablesAt p.cfg.root (selected p.cfg.root name opts) ++ vars ++
            own.filterMap lineVariable).map Variable.content) ↔
          ∀ v ∈ vars, v.object = false := by
      intro vars
      simp only [List.map_append, List.append_left_inj, List.append_right_inj, List.map_map]
      rw [List.map_inj_left]
      exact forall₂_congr fun v _ => content_variableClone v
    constructor
    · rintro ⟨p₁, hlines₁, hcopies⟩
      obtain rfl := Option.some.inj (Outcome.ok.inj (hlines.symm.trans hlines₁))
      have hvariables := hcopies.contents
      rw [hend] at hvariables
      exact (hcontent _).mp hvariables
    · intro hplain
      refine ⟨p', hlines, ?_, ?_, ?_, processTexts_grows hrest _⟩
      · rwa [hroot, List.length_modify]
      · rw [hend]
        exact (hcontent _).mpr hplain
      · intro j hj
        rw [hroot, List.getElem?_modify_ne f _ hj.symm]
        exact hothers j hj

end

/-- A variable of its own behind one that is inherited. -/
theorem header_copies_iff_b : ∃ p',
    processTexts ⟨⟨[⟨lit "a", false, [], [], [], [⟨lit "x", lit "1", false, 0, [], []⟩]⟩], some 0⟩,
      some 0, none⟩ [headerLine (lit "b") [lit "a"], lit "y=>2"] = .ok (some p') ∧
    Copies ⟨⟨[⟨lit "a", false, [], [], [], [⟨lit "x", lit "1", false, 0, [], []⟩]⟩], some 0⟩,
      some 0, none⟩ p' (lit "b") [lit "a"] [lit "y=>2"]
      ⟨[⟨lit "a", false, [], [], [], [⟨lit "x", lit "1", false, 0, [], []⟩]⟩,
        ⟨lit "b", false, [], [], [], [⟨lit "x", lit "1", false, 0, [], []⟩,
          ⟨lit "y", lit "2", true, 0, [], []⟩]⟩], some 1⟩ :=
  (header_copies_iff ⟨true, none⟩ (lit "[a]\nx=1\n[b](a)\ny=>2\n") {} _ false
    [lit "[a]", lit "x=1"] [] (by decide +kernel) (by decide +kernel) (by decide +kernel)
    (by decide +kernel) (by decide +kernel) (by decide +kernel) (by decide +kernel)
    (by decide +kernel)).mpr (by decide +kernel)

/-- The object that `a` has is an ordinary variable in `b`. -/
theorem header_loses_object :
    configTextFileLoad ⟨true, none⟩ (some (lit "[a]\nx => 1\n[b](a)\n")) {} false =
        .ok (some ⟨[⟨lit "a", false, [], [], [], [⟨lit "x", lit "1", true, 0, [], []⟩]⟩,
          ⟨lit "b", false, [], [], [], [⟨lit "x", lit "1", false, 0, [], []⟩]⟩], some 1⟩) ∧
      handed 0 ⟨{}, none, none⟩ (textLines (lit "[a]\nx => 1\n[b](a)\n")) =
        [lit "[a]", lit "x => 1"] ++ (headerLine (lit "b") [lit "a"] :: [] ++ []) ∧
      ∃ p, processTexts ⟨{}, none, none⟩ [lit "[a]", lit "x => 1"] = .ok (some p) ∧
        ∀ p' cfg', processTexts p [headerLine (lit "b") [lit "a"]] = .ok (some p') →
          ¬ Copies p p' (lit "b") [lit "a"] [] cfg' := by
  refine ⟨by decide +kernel, by decide +kernel,
    ⟨⟨[⟨lit "a", false, [], [], [], [⟨lit "x", lit "1", true, 0, [], []⟩]⟩], some 0⟩, some 0, none⟩,
    by decide +kernel, ?_⟩
  intro p' cfg' hrun hcopies
  have hvariables := hcopies.contents
  have hend : processTexts ⟨⟨[⟨lit "a", false, [], [], [], [⟨lit "x", lit "1", true, 0, [], []⟩]⟩],
      some 0⟩, some 0, none⟩ [headerLine (lit "b") [lit "a"]] =
      .ok (some ⟨⟨[⟨lit "a", false, [], [], [], [⟨lit "x", lit "1", true, 0, [], []⟩]⟩,
        ⟨lit "b", false, [], [], [], [⟨lit "x", lit "1", false, 0, [], []⟩]⟩], some 1⟩, some 1,
        none⟩) := by
    decide +kernel
  obtain rfl := Option.some.inj (Outcome.ok.inj (hend.symm.trans hrun))
  revert hvariables
  decide +kernel

end Spider.Config.Text
