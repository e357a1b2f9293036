import Spider.Config.Template

/-!
# References to sections

A header refers to sections of the lines before it by their names, and
`section_get` compares these in full, but the name of a section is stored in 80
bytes. The names that the headers have had are therefore kept apart from those
that the sections have.
-/

namespace Spider.Config.Text

open Lib Outcome CString Strings
open Inherit (IsBase IsPlus headerLine resolve)

/-! ## Texts are strings -/

theorem noNul_of_subset {s t : CString} (hsub : s ⊆ t) (ht : NoNul t) : NoNul s :=
  fun c hc => ht c (hsub hc)

theorem Kept.noNul_finish {k : Kept} {u : List UInt8} (hk : NoNul k.text) (hu : NoNul u) :
    NoNul (k.finish u) := by
  cases k with
  | live text => exact noNul_append.mpr ⟨hk, hu⟩
  | cut text gap => exact hk

theorem Scan.noNul_leave {s : Scan} {t rest : List UInt8} (hkept : NoNul s.kept.text)
    (ht : NoNul t) (hrest : NoNul rest) : NoNul (s.leave t rest).kept.text := by
  unfold Scan.leave
  split
  · split
    · next text gap heq =>
      rw [heq] at hkept
      exact hkept
    · next text heq =>
      rw [heq] at hkept
      have hsemi : NoNul (lit ";") := by
        unfold NoNul
        decide +kernel
      exact noNul_append.mpr ⟨noNul_append.mpr ⟨noNul_append.mpr ⟨hkept, ht⟩, hsemi⟩, hrest⟩
  · exact fun c hc => absurd hc List.not_mem_nil

/-- What is kept of a string without null bytes has none. -/
theorem scan_noNul {s s' : Scan} {back : List UInt8} {ahead : Nat} (rest : List UInt8)
    (h : scan s back ahead rest = .ok s') (hkept : NoNul s.kept.text) (hback : NoNul back)
    (hrest : NoNul rest) : NoNul (s'.kept.finish []) := by
  have hnil : NoNul [] := fun c hc => absurd hc List.not_mem_nil
  induction rest generalizing s back ahead with
  | nil =>
    rw [scan] at h
    cases h
    rw [Kept.finish, List.append_nil]
    exact Kept.noNul_finish hkept (noNul_of_subset (List.reverse_subset.mpr (List.Subset.refl _)) hback)
  | cons c rest ih =>
    have hbehind : NoNul rest := noNul_of_subset (List.subset_cons_self c rest) hrest
    have hpassed : NoNul back.reverse :=
      noNul_of_subset (List.reverse_subset.mpr (List.Subset.refl _)) hback
    have hc : NoNul [c] := noNul_of_subset (List.cons_subset_cons c (List.nil_subset rest)) hrest
    cases ahead with
    | succ ahead =>
      rw [scan] at h
      exact ih h hkept hback hbehind
    | zero =>
      cases scans_of_ok h with
      | other _ h => exact ih h hkept (noNul_append.mpr ⟨hc, hback⟩) hbehind
      | escaped _ h => exact ih h (Kept.noNul_pass hkept (noNul_append.mpr ⟨hpassed, hc⟩)) hnil hbehind
      | enter _ h => exact ih h (Kept.noNul_enter hkept hpassed) hnil hbehind
      | leave _ h => exact ih h (Scan.noNul_leave hkept hpassed hbehind) hnil hbehind
      | stay _ _ _ h => exact ih h (Kept.noNul_pass hkept (noNul_append.mpr ⟨hpassed, hc⟩)) hnil hbehind
      | comment _ heq _ _ _ =>
        rw [heq, Kept.finish, List.append_nil]
        exact Kept.noNul_finish hkept hpassed

section

variable {comment : Int} {p p' : Parsed} {lines texts : List CString} {text name : CString}

theorem lineText_noNul {buf : CString} (hbuf : NoNul buf) : NoNul (lineText comment p buf) := by
  have hnil : NoNul [] := fun c hc => absurd hc List.not_mem_nil
  rw [lineText]
  split
  · next s hscan =>
    refine noNul_of_subset (strip_subset s.text) ?_
    rw [Scan.text]
    split
    · exact scan_noNul buf hscan hnil hnil hbuf
    · exact hnil
  · exact hnil

/-- The texts that are handed on are strings. -/
theorem handed_noNul (hlines : ∀ line ∈ lines, NoNul line) :
    ∀ text ∈ handed comment p lines, NoNul text := by
  induction lines generalizing comment p with
  | nil => exact fun text htext => absurd htext List.not_mem_nil
  | cons buf lines ih =>
    intro text htext
    rw [handed] at htext
    rcases List.mem_append.mp htext with htext | htext
    · split at htext
      · exact absurd htext List.not_mem_nil
      · rw [List.mem_singleton.mp htext]
        exact lineText_noNul (hlines buf List.mem_cons_self)
    · split at htext
      · exact ih (fun line hline => hlines line (List.mem_cons_of_mem buf hline)) text htext
      · exact absurd htext List.not_mem_nil

/-! ## Names -/

/-- The names in the headers of the sections that are appended while the texts are processed. -/
def headerNames (p : Parsed) : List CString → List CString
  | [] => []
  | text :: rest =>
    match processTextLine p text with
    | .ok (some p') =>
      (if p.cfg.root.length < p'.cfg.root.length then [headerName text] else []) ++
        headerNames p' rest
    | _ => []

/-- The first of the names that is the given one. -/
def firstNamed (names : List CString) (name : CString) : Nat :=
  names.findIdx fun n => strcasecmp n name == 0

/-- The name fits into a section, and no longer one in front of its section begins with it. -/
def Fitting (names : List CString) (name : CString) : Prop :=
  name.length ≤ 79 ∧
    ∀ n ∈ names.take (firstNamed names name), 80 ≤ n.length → strcasecmp (n.take 79) name ≠ 0

instance (names : List CString) (name : CString) : Decidable (Fitting names name) :=
  inferInstanceAs (Decidable (_ ∧ _))

/-- The sections have the names of their headers, as far as these fit. -/
theorem processTexts_names (hrun : processTexts p texts = .ok (some p')) :
    p'.cfg.root.map Section.name =
      p.cfg.root.map Section.name ++ (headerNames p texts).map (List.take 79) := by
  induction texts generalizing p with
  | nil =>
    cases hrun
    rw [headerNames, List.map_nil, List.append_nil]
  | cons text texts ih =>
    obtain ⟨r, hline, hrest⟩ := bind_eq_ok.mp hrun
    cases r with
    | none => exact absurd hrest nofun
    | some q =>
      rw [headerNames, hline, ih hrest]
      dsimp only
      rcases (processTextLine_sections hline).2 with hnames | hnames
      · have hlen : q.cfg.root.length = p.cfg.root.length := by
          simpa using congrArg List.length hnames
        rw [hnames, hlen, if_neg (lt_irrefl _), List.nil_append]
      · have hlen : q.cfg.root.length = p.cfg.root.length + 1 := by
          simpa using congrArg List.length hnames
        rw [hnames, hlen, if_pos (Nat.lt_succ_self _), List.map_append, List.append_assoc]
        rfl

theorem headerNames_noNul (htexts : ∀ text ∈ texts, NoNul text) :
    ∀ n ∈ headerNames p texts, NoNul n := by
  induction texts generalizing p with
  | nil => exact fun n hn => absurd hn List.not_mem_nil
  | cons text texts ih =>
    intro n hn
    rw [headerNames] at hn
    split at hn
    · rcases List.mem_append.mp hn with hn | hn
      · split at hn
        · rw [List.mem_singleton.mp hn]
          have hsub : headerName text ⊆ text :=
            List.Subset.trans (List.takeWhile_prefix _).subset (List.tail_sublist text).subset
          exact noNul_of_subset hsub (htexts text List.mem_cons_self)
        · exact absurd hn List.not_mem_nil
      · exact ih (fun t ht => htexts t (List.mem_cons_of_mem text ht)) n hn
    · exact absurd hn List.not_mem_nil

theorem length_eq_of_strcasecmp {s t : CString} (hs : NoNul s) (ht : NoNul t)
    (h : strcasecmp s t = 0) : s.length = t.length := by
  have hlower := congrArg List.length ((strcasecmp_eq_zero hs ht).mp h)
  rwa [lower, lower, List.length_map, List.length_map] at hlower

/-- The stored names lead to the section that has the name in its header exactly when the name
    fits. -/
theorem resolve_take_iff {names : List CString} (hnames : ∀ n ∈ names, NoNul n)
    (hname : name ∈ names) :
    resolve (names.map (List.take 79)) name = some (firstNamed names name) ↔
      Fitting names name := by
  have hlt : firstNamed names name < names.length :=
    List.findIdx_lt_length_of_exists ⟨name, hname, by simp⟩
  have hfirst : strcasecmp (names[firstNamed names name]) name = 0 := by
    have hfound := List.findIdx_getElem (w := hlt)
    exact beq_iff_eq.mp hfound
  have hstored : ∀ n ∈ names, NoNul (n.take 79) := fun n hn =>
    noNul_of_subset (List.take_subset 79 n) (hnames n hn)
  rw [resolve, List.findIdx?_eq_some_iff_getElem]
  simp only [List.getElem_map, List.length_map, beq_iff_eq, Fitting]
  constructor
  · rintro ⟨_, hfound, hbefore⟩
    have hlen := length_eq_of_strcasecmp (hstored _ (List.getElem_mem hlt)) (hnames name hname)
      hfound
    rw [List.length_take] at hlen
    refine ⟨by omega, fun n hn _ => ?_⟩
    obtain ⟨j, hj, rfl⟩ := List.mem_take_iff_getElem.mp hn
    exact hbefore j (by omega)
  · rintro ⟨hlen, hbefore⟩
    have hfits : ∀ n ∈ names, n.length ≤ 79 → n.take 79 = n := fun n _ => List.take_of_length_le
    have hsame := length_eq_of_strcasecmp (hnames _ (List.getElem_mem hlt)) (hnames name hname)
      hfirst
    refine ⟨hlt, ?_, fun j hj => ?_⟩
    · rw [hfits _ (List.getElem_mem hlt) (by omega)]
      exact hfirst
    · have hjlt : j < names.length := hj.trans hlt
      by_cases hlong : 80 ≤ names[j].length
      · exact hbefore _ (List.mem_take_iff_getElem.mpr ⟨j, by omega, rfl⟩) hlong
      · rw [hfits _ (List.getElem_mem hjlt) (by omega)]
        have hnot := List.not_of_lt_findIdx hj
        exact beq_eq_false_iff_ne.mp hnot

theorem headerNames_bracket : ∀ n ∈ headerNames p texts, ch ']' ∉ n := by
  induction texts generalizing p with
  | nil => exact fun n hn => absurd hn List.not_mem_nil
  | cons text texts ih =>
    intro n hn
    rw [headerNames] at hn
    split at hn
    · rcases List.mem_append.mp hn with hn | hn
      · split at hn
        · rw [List.mem_singleton.mp hn]
          exact notMem_takeWhile _ _
        · exact absurd hn List.not_mem_nil
      · exact ih n hn
    · exact absurd hn List.not_mem_nil

/-! ## Headers that refer to a section -/

/-- The header and the lines behind it are accepted, and leave the section with variables of these
    names and values, and the others as they are. -/
def Gives (p : Parsed) (header : CString) (own : List CString) (i : Nat) (vars : List Variable) :
    Prop :=
  ∃ p', processTexts p (header :: own) = .ok (some p') ∧
    (variablesAt p'.cfg.root i).map (fun v => (v.name, v.value)) =
      vars.map (fun v => (v.name, v.value)) ∧
    ∀ j, j ≠ i → p'.cfg.root[j]? = p.cfg.root[j]?

/-- The name stands for section `k`: a header `[name](+)` adds to it, and a header that has the name
    as its only option makes a new section that inherits from it. -/
structure Resolves (p : Parsed) (k : Nat) (name : CString) : Prop where
  found : sectionGet p.cfg.root name true = some k
  adds : ∀ own : List CString, (∀ text ∈ own, text.head? ≠ some (ch '[')) →
    Gives p (headerLine name [lit "+"]) own k
      (variablesAt p.cfg.root k ++ own.filterMap lineVariable)
  inherits : ∀ new, ch ']' ∉ new → ∀ own : List CString,
    (∀ text ∈ own, text.head? ≠ some (ch '[')) →
    Gives p (headerLine new [name]) own p.cfg.root.length
      (variablesAt p.cfg.root k ++ own.filterMap lineVariable)

theorem isBase_of_ne (hnul : NoNul name) (hbang : name ≠ lit "!") (hplus : name ≠ lit "+") :
    IsBase name :=
  ⟨fun h => hbang (eq_singleton_of_strcasecmp hnul (by decide) (by decide) h),
    fun h => hplus (eq_singleton_of_strcasecmp hnul (by decide) (by decide) h)⟩

/-- Lines that are no headers are accepted in a section. -/
theorem processTexts_own_ok {own : List CString} (hp : p.buffers = none) (hcat : p.cat ≠ none)
    (hown : ∀ text ∈ own, text.head? ≠ some (ch '[')) :
    ∃ p', processTexts p own = .ok (some p') := by
  induction own generalizing p with
  | nil => exact ⟨p, rfl⟩
  | cons text own ih =>
    obtain ⟨i, hi⟩ := Option.ne_none_iff_exists'.mp hcat
    have hline : ∃ q, processTextLine p text = .ok (some q) := by
      rw [processTextLine, if_neg (hown text List.mem_cons_self), hi]
      dsimp only
      split
      · exact ⟨p, rfl⟩
      · split
        · exact ⟨p, rfl⟩
        · exact ⟨_, rfl⟩
    obtain ⟨q, hq⟩ := hline
    obtain ⟨hqcat, -⟩ := processTextLine_own hp hi (hown text List.mem_cons_self) hq
    rw [processTexts_cons hq]
    exact ih (processTextLine_buffers hp hq) (by rw [hqcat]; exact Option.some_ne_none i)
      fun t ht => hown t (List.mem_cons_of_mem text ht)

/-- A header that is accepted gives its section what its bases have, and the lines behind it the
    rest. -/
theorem header_gives {opts own : List CString} (hp : p.buffers = none) (hname : ch ']' ∉ name)
    (hne : opts ≠ []) (hopts : ∀ o ∈ opts, ch ',' ∉ o ∧ ch ')' ∉ o)
    (hother : (∃ o ∈ opts, IsPlus o) → ∀ o ∈ opts, IsBase o →
      sectionGet p.cfg.root o true ≠ sectionGet p.cfg.root name true)
    (hown : ∀ text ∈ own, text.head? ≠ some (ch '['))
    (hrun : processTextLine p (headerLine name opts) = .ok (some p')) :
    Gives p (headerLine name opts) own (selected p.cfg.root name opts)
      (variablesAt p.cfg.root (selected p.cfg.root name opts) ++ baseVariables p.cfg.root opts ++
        own.filterMap lineVariable) := by
  obtain ⟨hcat, hlt, hvars, hothers⟩ := header_adds hp hname hne hopts hother hrun
  have hp' := processTextLine_buffers hp hrun
  obtain ⟨q, hlines⟩ := processTexts_own_ok hp' (by rw [hcat]; nofun) hown
  obtain ⟨-, f, hf, hroot⟩ := processTexts_own hp' hcat hown hlines
  refine ⟨q, by rw [processTexts_cons hrun, hlines], ?_, fun j hj => ?_⟩
  · rw [hroot, variablesAt_modify hf hlt, hvars]
    simp [variableClone]
  · rw [hroot, List.getElem?_modify_ne f _ hj.symm]
    exact hothers j hj

theorem resolves_of_found {k : Nat} (hp : p.buffers = none)
    (hfound : sectionGet p.cfg.root name true = some k) (hbracket : ch ']' ∉ name)
    (hchars : ch ',' ∉ name ∧ ch ')' ∉ name) (hbase : IsBase name) :
    Resolves p k name := by
  refine ⟨hfound, ?_, ?_⟩
  · intro own hown
    have hplus : IsPlus (lit "+") := by decide +kernel
    have hnot : ¬ IsBase (lit "+") := by decide +kernel
    have hline : ∃ q, processTextLine p (headerLine name [lit "+"]) = .ok (some q) := by
      rw [processTextLine_headerLine hp hbracket (by simp) (by decide +kernel), headerOptions,
        if_neg hplus.1, if_pos hplus.2, hfound]
      exact ⟨_, rfl⟩
    obtain ⟨q, hq⟩ := hline
    have hgives := header_gives hp hbracket (by simp) (by decide +kernel)
      (fun _ o ho hobase => absurd (List.mem_singleton.mp ho ▸ hobase) hnot) hown hq
    rw [selected, if_pos ⟨_, List.mem_singleton_self _, hplus⟩, hfound, Option.getD_some,
      baseVariables_cons, if_neg hnot, show baseVariables p.cfg.root [] = [] from rfl,
      List.append_nil, List.append_nil] at hgives
    exact hgives
  · intro new hnew own hown
    have hopts : ∀ o ∈ [name], ch ',' ∉ o ∧ ch ')' ∉ o := by
      intro o ho
      rw [List.mem_singleton.mp ho]
      exact hchars
    have hnone : ¬ ∃ o ∈ [name], IsPlus o := by
      rintro ⟨o, ho, hplus⟩
      rw [List.mem_singleton.mp ho] at hplus
      exact hbase.2 hplus.2
    have hline : ∃ q, processTextLine p (headerLine new [name]) = .ok (some q) := by
      rw [processTextLine_headerLine hp hnew (by simp) hopts, headerOptions, if_neg hbase.1,
        if_neg hbase.2, hfound]
      exact ⟨_, rfl⟩
    obtain ⟨q, hq⟩ := hline
    have hgives := header_gives hp hnew (by simp) hopts (fun hsome => absurd hsome hnone) hown hq
    have hempty : variablesAt p.cfg.root p.cfg.root.length = [] := by
      rw [variablesAt, List.getElem?_eq_none (Nat.le_refl _)]
      rfl
    rw [selected, if_neg hnone, hempty, baseVariables_cons, if_pos hbase,
      show baseVariables p.cfg.root [] = [] from rfl, variablesOf, hfound, List.nil_append,
      List.append_nil] at hgives
    exact hgives

/-- Whatever lines a file begins with: the headers behind them that refer to a section of theirs
    are accepted and lead to the first one with the name in its header exactly when the name fits. -/
theorem reference_resolves_iff (file : List UInt8) (before rest : List CString) (name : CString)
    (hfile : handed 0 ⟨{}, none, none⟩ (textLines file) = before ++ rest)
    (hbefore : processTexts ⟨{}, none, none⟩ before = .ok (some p))
    (hname : name ∈ headerNames ⟨{}, none, none⟩ before)
    (hchars : ch ',' ∉ name ∧ ch ')' ∉ name) (hbang : name ≠ lit "!") (hplus : name ≠ lit "+") :
    Resolves p (firstNamed (headerNames ⟨{}, none, none⟩ before) name) name ↔
      Fitting (headerNames ⟨{}, none, none⟩ before) name := by
  have hlines : ∀ line ∈ textLines file, NoNul line := fun line hline =>
    (textLines_read file line hline).noNul
  have htexts : ∀ text ∈ before, NoNul text := fun text htext =>
    handed_noNul hlines text (hfile ▸ List.mem_append_left _ htext)
  have hnames := headerNames_noNul (p := ⟨{}, none, none⟩) htexts
  have hstored := processTexts_names hbefore
  rw [List.map_nil, List.nil_append] at hstored
  have hfits := resolve_take_iff hnames hname
  rw [← hstored, ← sectionGet_true] at hfits
  constructor
  · intro hresolves
    exact hfits.mp hresolves.found
  · intro hfitting
    exact resolves_of_found (processTexts_buffers rfl hbefore) (hfits.mpr hfitting)
      (headerNames_bracket name hname) hchars (isBase_of_ne (hnames name hname) hbang hplus)

end

/-- Two headers with one name in two spellings: the second one stands for the first section. -/
theorem reference_resolves_iff_case :
    Resolves ⟨⟨[{ name := lit "a" }, { name := lit "A" }], some 1⟩, some 1, none⟩
      (firstNamed (headerNames ⟨{}, none, none⟩ [lit "[a]", lit "[A]"]) (lit "A")) (lit "A") ∧
    firstNamed (headerNames ⟨{}, none, none⟩ [lit "[a]", lit "[A]"]) (lit "A") = 0 :=
  ⟨(reference_resolves_iff (lit "[a]\n[A]\n[b](A)\n") [lit "[a]", lit "[A]"] [lit "[b](A)"]
    (lit "A") (by decide +kernel) (by decide +kernel) (by decide +kernel) (by decide +kernel)
    (by decide +kernel) (by decide +kernel)).mpr (by decide +kernel), by decide +kernel⟩

/-- A name of 80 bytes. -/
def longName : CString := List.replicate 80 (ch 'a')

/-- A file with a section of that name, and a header that adds to it, cannot be loaded. -/
theorem reference_too_long :
    handed 0 ⟨{}, none, none⟩ (textLines (lit "[" ++ longName ++ lit "]\n" ++
        headerLine longName [lit "+"] ++ lit "\n")) =
      [lit "[" ++ longName ++ lit "]", headerLine longName [lit "+"]] ∧
    longName ∈ headerNames ⟨{}, none, none⟩ [lit "[" ++ longName ++ lit "]"] ∧
    (∃ p, processTexts ⟨{}, none, none⟩ [lit "[" ++ longName ++ lit "]"] = .ok (some p) ∧
      ∀ k, ¬ Resolves p k longName) ∧
    configTextFileLoad ⟨true, none⟩ (some (lit "[" ++ longName ++ lit "]\n" ++
      headerLine longName [lit "+"] ++ lit "\n")) {} false = .ok none := by
  refine ⟨by decide +kernel, by decide +kernel,
    ⟨⟨⟨[{ name := longName.take 79 }], some 0⟩, some 0, none⟩, by decide +kernel, ?_⟩,
    by decide +kernel⟩
  intro k hresolves
  have hnone : sectionGet [{ name := longName.take 79 }] longName true = none := by decide +kernel
  exact absurd (hnone.symm.trans hresolves.found) nofun

end Spider.Config.Text
