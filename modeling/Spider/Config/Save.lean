import Spider.Config.Text
import Spider.Strings
import Mathlib.Logic.Function.Basic

/-!
# Saving a configuration

`config_text_file_save` prints the configuration into a temporary file, removes
the file that is there and links the temporary one in its place. The file
system is a map from names to contents; each system call and each `fprintf` may
fail, for a reason of its own or because of the files there are.
-/

namespace Spider.Config.Text

open Lib Outcome CString Strings

/-- The contents of the files there are. -/
abbrev Files := CString → Option CString

/-- What the C library and the system answer. -/
structure Answers where
  ctime : CString
  /-- The descriptor from `mkstemp`, negative when it fails, and what it puts for the `X`s. -/
  mkstemp : Int
  suffix : CString
  fdopen : Bool
  /-- For each `fprintf` that fails, how much it has written. -/
  fprintf : List (Option Nat)
  /-- The calls that may fail though the files are right for them. -/
  stat : Bool
  unlink : Bool
  link : Bool
  unlinkTmp : Bool
  deriving DecidableEq, Repr

/-- `mkstemp`: the descriptor, the name, and the files. -/
def mkstemp (sys : Answers) (files : Files) (template : CString) : Int × CString × Files :=
  let stem := template.take (template.length - 6)
  if template = stem ++ lit "XXXXXX" ∧ sys.mkstemp ≥ 0 then
    (sys.mkstemp, stem ++ sys.suffix, Function.update files (stem ++ sys.suffix) (some []))
  else (-1, template, files)

/-- `unlink`: whether it succeeds, and the files. -/
def unlink (ok : Bool) (files : Files) (name : CString) : Bool × Files :=
  if ok ∧ files name ≠ none then (true, Function.update files name none) else (false, files)

/-- `link`. -/
def link (ok : Bool) (files : Files) (old new : CString) : Bool × Files :=
  if ok ∧ files old ≠ none ∧ files new = none then (true, Function.update files new (files old))
  else (false, files)

/-- What the calls of `fprintf` leave in the file. -/
def written : List (Option Nat) → List CString → CString
  | _, [] => []
  | some n :: fails, text :: texts => text.take n ++ written fails texts
  | none :: fails, text :: texts => text ++ written fails texts
  | [], text :: texts => text ++ written [] texts

/-- The names of the temporary file and of the file itself (`config.c:926-932`). -/
def fileNames (configDir configfile : CString) : Outcome (CString × CString) :=
  if configfile.head? = some (ch '/') then do
    let fntmp := (snprintf 256 (configfile ++ lit ".XXXXXX")).1
    let fn ← spdCopyString configfile 256
    .ok (fntmp, fn)
  else
    let fntmp := (snprintf 256 (configDir ++ lit "/" ++ configfile ++ lit ".XXXXXX")).1
    let fn := (snprintf 256 (configDir ++ lit "/" ++ configfile)).1
    .ok (fntmp, fn)

/-- The file is removed, if it is there, and the temporary one gets its name
    (`config.c:1034-1038`): whether that succeeds, and the files. -/
def putInPlace (sys : Answers) (files : Files) (fntmp fn : CString) : Bool × Files :=
  let found := sys.stat = true ∧ files fn ≠ none
  let (unlinked, files) := if found then unlink sys.unlink files fn else (true, files)
  if unlinked then link sys.link files fntmp fn else (false, files)

/-- `config_text_file_save` (`config.c:911-1051`). -/
def configTextFileSave (configDir : CString) (sys : Answers) (files : Files)
    (configfile : CString) (cfg : SpdConfig) (generator : CString) : Outcome (Int × Files) := do
  let (template, fn) ← fileNames configDir configfile
  let date ← spdCopyString sys.ctime 256
  let (fd, fntmp, files) := mkstemp sys files template
  if fd > 0 ∧ sys.fdopen then
    let content := written sys.fprintf (saveTexts configfile fn generator date cfg)
    let files := Function.update files fntmp (some content)
    let (linked, files) := putInPlace sys files fntmp fn
    let (_, files) := unlink sys.unlinkTmp files fntmp
    .ok (if linked then 0 else -1, files)
  else .ok (-1, files)

/-! ## When saving is all or nothing -/

variable {sys : Answers} {files : Files} {template fn : CString}

/-- The content that a complete file has. -/
def serialization (configfile fn generator date : CString) (cfg : SpdConfig) : CString :=
  (saveTexts configfile fn generator date cfg).flatten

/-- With 0 the file holds the whole configuration, with -1 it is as it was. -/
def AllOrNothing (configDir : CString) (sys : Answers) (files : Files) (configfile : CString)
    (cfg : SpdConfig) (generator : CString) : Prop :=
  ∃ template fn date r files', fileNames configDir configfile = .ok (template, fn) ∧
    spdCopyString sys.ctime 256 = .ok date ∧
    configTextFileSave configDir sys files configfile cfg generator = .ok (r, files') ∧
    (r = 0 ∧ files' fn = some (serialization configfile fn generator date cfg) ∨
      r = -1 ∧ files' fn = files fn)

/-- `mkstemp` and `fdopen` succeed. -/
def Opens (sys : Answers) (template : CString) : Prop :=
  template = template.take (template.length - 6) ++ lit "XXXXXX" ∧ 0 < sys.mkstemp ∧
    sys.fdopen = true

/-- There is a file, and it is found and removed. -/
def Removes (sys : Answers) (files : Files) (fn : CString) : Prop :=
  files fn ≠ none ∧ sys.stat = true ∧ sys.unlink = true

/-- The temporary file gets the name of the file. -/
def Links (sys : Answers) (files : Files) (fn : CString) : Prop :=
  (files fn = none ∨ Removes sys files fn) ∧ sys.link = true

instance : Decidable (Removes sys files fn) := inferInstanceAs (Decidable (_ ∧ _ ∧ _))

instance : Decidable (Links sys files fn) := inferInstanceAs (Decidable (_ ∧ _))

/-- Every `fprintf` writes its whole text. -/
def Complete (fails : List (Option Nat)) (texts : List CString) : Prop :=
  ∀ p ∈ fails.zip texts, ∀ n, p.1 = some n → p.2.length ≤ n

/-- `link` does not fail behind a removed file, and no `fprintf` fails for a file that is put in
    place. -/
def Safe (configDir : CString) (sys : Answers) (files : Files) (configfile : CString)
    (cfg : SpdConfig) (generator : CString) : Prop :=
  ∀ template fn date, fileNames configDir configfile = .ok (template, fn) →
    spdCopyString sys.ctime 256 = .ok date → Opens sys template →
      (Removes sys files fn → sys.link = true) ∧
        (Links sys files fn → Complete sys.fprintf (saveTexts configfile fn generator date cfg))

/-- `mkstemp` replaces the six `X`s, by something else. -/
structure Answers.Replaces (sys : Answers) : Prop where
  length : sys.suffix.length = 6
  ne : sys.suffix ≠ lit "XXXXXX"

theorem written_length_le (fails : List (Option Nat)) (texts : List CString) :
    (written fails texts).length ≤ texts.flatten.length := by
  induction texts generalizing fails with
  | nil =>
    cases fails with
    | nil => exact Nat.le_refl _
    | cons fail fails => cases fail <;> exact Nat.le_refl _
  | cons text texts ih =>
    rw [List.flatten_cons, List.length_append]
    cases fails with
    | nil =>
      rw [written, List.length_append]
      exact Nat.add_le_add_left (ih []) _
    | cons fail fails =>
      have hrest := ih fails
      cases fail with
      | none =>
        rw [written, List.length_append]
        exact Nat.add_le_add_left hrest _
      | some n =>
        rw [written, List.length_append, List.length_take]
        omega

/-- What is written is everything only if every text is written whole. -/
theorem written_eq_flatten_iff (fails : List (Option Nat)) (texts : List CString) :
    written fails texts = texts.flatten ↔ Complete fails texts := by
  induction texts generalizing fails with
  | nil =>
    cases fails with
    | nil => simp [written, Complete]
    | cons fail fails => cases fail <;> simp [written, Complete]
  | cons text texts ih =>
    cases fails with
    | nil =>
      have hrest := (ih []).mpr nofun
      rw [written, hrest, List.flatten_cons]
      exact iff_of_true rfl nofun
    | cons fail fails =>
      have hcons : Complete (fail :: fails) (text :: texts) ↔
          (∀ n, fail = some n → text.length ≤ n) ∧ Complete fails texts := by
        rw [Complete, List.zip_cons_cons, List.forall_mem_cons]
        rfl
      rw [hcons, ← ih fails, List.flatten_cons]
      cases fail with
      | none =>
        rw [written, List.append_cancel_left_eq]
        exact ⟨fun h => ⟨nofun, h⟩, fun h => h.2⟩
      | some n =>
        have hle := written_length_le fails texts
        rw [written]
        constructor
        · intro heq
          have hlen := congrArg List.length heq
          rw [List.length_append, List.length_append, List.length_take] at hlen
          have hn : text.length ≤ n := by omega
          rw [List.take_of_length_le hn, List.append_cancel_left_eq] at heq
          exact ⟨fun m hm => Option.some.inj hm ▸ hn, heq⟩
        · rintro ⟨hn, heq⟩
          rw [List.take_of_length_le (hn n rfl), heq]

theorem fileNames_eq (configDir configfile : CString) : ∃ full,
    fileNames configDir configfile = .ok ((full ++ lit ".XXXXXX").take 255, full.take 255) := by
  unfold fileNames
  split
  · refine ⟨configfile, ?_⟩
    rw [spdCopyString_eq configfile (by decide)]
    rfl
  · exact ⟨configDir ++ lit "/" ++ configfile, rfl⟩

/-- The temporary file is not the file itself, also where the names are cut off. -/
theorem mkstemp_ne (h : sys.Replaces) (full : CString) {stem : CString}
    (ht : (full ++ lit ".XXXXXX").take 255 = stem ++ lit "XXXXXX") :
    stem ++ sys.suffix ≠ full.take 255 := by
  intro heq
  have hX : (lit "XXXXXX").length = 6 := rfl
  have hdot : (lit ".XXXXXX").length = 7 := rfl
  have hlen := congrArg List.length ht
  have hlen' := congrArg List.length heq
  have hsuffix := h.length
  rw [List.length_take, List.length_append, List.length_append] at hlen
  rw [List.length_take, List.length_append] at hlen'
  -- both names are cut off at the same place
  have hlong : 255 ≤ full.length := by omega
  rw [List.take_append_of_le_length hlong, ← heq, List.append_cancel_left_eq] at ht
  exact h.ne ht

theorem putInPlace_eq {fntmp content : CString} (hne : fntmp ≠ fn)
    (htmp : files fntmp = some content) :
    (putInPlace sys files fntmp fn).1 = decide (Links sys files fn) ∧
      (putInPlace sys files fntmp fn).2 fn =
        if Links sys files fn then some content
        else if Removes sys files fn then none else files fn := by
  unfold putInPlace
  by_cases hfile : files fn = none
  · have hnot : ¬ Removes sys files fn := fun h => h.1 hfile
    by_cases hlink : sys.link = true
    · simp [hfile, hlink, hnot, link, htmp, Links]
    · simp [hfile, hlink, hnot, link, Links]
  · by_cases hremoves : sys.stat = true ∧ sys.unlink = true
    · have hyes : Removes sys files fn := ⟨hfile, hremoves.1, hremoves.2⟩
      by_cases hlink : sys.link = true
      · simp [hfile, hlink, hyes, hremoves.1, hremoves.2, link, unlink, htmp, hne, Links]
      · simp [hfile, hlink, hyes, hremoves.1, hremoves.2, link, unlink, Links]
    · have hnot : ¬ Removes sys files fn := fun h => hremoves h.2
      have hlinks : ¬ Links sys files fn := fun h => h.1.elim hfile hnot
      by_cases hstat : sys.stat = true
      · have hunlink : ¬ sys.unlink = true := fun h => hremoves ⟨hstat, h⟩
        simp [hfile, hstat, hunlink, unlink, hnot, hlinks]
      · simp [hfile, hstat, link, hnot, hlinks]

/-- The files behind a call that has opened the temporary one. -/
theorem configTextFileSave_opens {configDir configfile generator date : CString} {cfg : SpdConfig}
    (hnames : fileNames configDir configfile = .ok (template, fn))
    (hdate : spdCopyString sys.ctime 256 = .ok date) (hopens : Opens sys template)
    (hne : template.take (template.length - 6) ++ sys.suffix ≠ fn) :
    ∃ files', configTextFileSave configDir sys files configfile cfg generator =
        .ok (if Links sys files fn then 0 else -1, files') ∧
      files' fn =
        if Links sys files fn then
          some (written sys.fprintf (saveTexts configfile fn generator date cfg))
        else if Removes sys files fn then none else files fn := by
  generalize htmp : template.take (template.length - 6) ++ sys.suffix = fntmp at hne
  generalize hcontent : written sys.fprintf (saveTexts configfile fn generator date cfg) = content
  have hmkstemp : mkstemp sys files template =
      (sys.mkstemp, fntmp, Function.update files fntmp (some [])) := by
    rw [mkstemp, if_pos ⟨hopens.1, Int.le_of_lt hopens.2.1⟩, htmp]
  generalize hfiles1 :
    Function.update (Function.update files fntmp (some [])) fntmp (some content) = files1
  have hfn : files1 fn = files fn := by
    rw [← hfiles1, Function.update_of_ne hne.symm, Function.update_of_ne hne.symm]
  have hnew : files1 fntmp = some content := by
    rw [← hfiles1, Function.update_self]
  have hremoves : Removes sys files1 fn ↔ Removes sys files fn := by
    rw [Removes, hfn, Removes]
  have hlinks : Links sys files1 fn ↔ Links sys files fn := by
    rw [Links, hfn, hremoves, Links]
  rcases putInPlace_eq hne hnew with ⟨hret, hfile⟩
  rw [hfn, if_congr hlinks rfl (if_congr hremoves rfl rfl)] at hfile
  refine ⟨(unlink sys.unlinkTmp (putInPlace sys files1 fntmp fn).2 fntmp).2, ?_, ?_⟩
  · rw [configTextFileSave, hnames, ok_bind]
    dsimp only
    rw [hdate, ok_bind, hmkstemp]
    dsimp only
    rw [if_pos hopens.2, hcontent, hfiles1, hret]
    simp only [decide_eq_true_eq]
    rw [if_congr hlinks rfl rfl]
  · rw [← hfile, unlink]
    split
    · exact Function.update_of_ne hne.symm _ _
    · rfl

/-- Without the temporary file nothing happens to the file. -/
theorem configTextFileSave_closed {configDir configfile generator date : CString} {cfg : SpdConfig}
    (hnames : fileNames configDir configfile = .ok (template, fn))
    (hdate : spdCopyString sys.ctime 256 = .ok date) (hclosed : ¬ Opens sys template)
    (hne : ∀ stem, template = stem ++ lit "XXXXXX" → stem ++ sys.suffix ≠ fn) :
    ∃ files', configTextFileSave configDir sys files configfile cfg generator = .ok (-1, files') ∧
      files' fn = files fn := by
  by_cases hmkstemp : template = template.take (template.length - 6) ++ lit "XXXXXX" ∧
      sys.mkstemp ≥ 0
  · have hnot : ¬ (sys.mkstemp > 0 ∧ sys.fdopen = true) := fun h => hclosed ⟨hmkstemp.1, h⟩
    refine ⟨_, ?_, Function.update_of_ne (hne _ hmkstemp.1).symm (some []) files⟩
    rw [configTextFileSave, hnames, ok_bind]
    dsimp only
    rw [hdate, ok_bind, mkstemp, if_pos hmkstemp]
    exact if_neg hnot
  · refine ⟨files, ?_, rfl⟩
    rw [configTextFileSave, hnames, ok_bind]
    dsimp only
    rw [hdate, ok_bind, mkstemp, if_neg hmkstemp]
    exact if_neg fun h => absurd h.1 (show ¬ (-1 : Int) > 0 by decide)

/-- Saving is all or nothing exactly when `link` does not fail behind a removed file and every
    `fprintf` succeeds for a file that is put in place. -/
theorem save_allOrNothing_iff (configDir : CString) (sys : Answers) (files : Files)
    (configfile : CString) (cfg : SpdConfig) (generator : CString) (h : sys.Replaces) :
    AllOrNothing configDir sys files configfile cfg generator ↔
      Safe configDir sys files configfile cfg generator := by
  rcases fileNames_eq configDir configfile with ⟨full, hnames⟩
  have hdate := spdCopyString_eq sys.ctime (show 0 < 256 by decide)
  generalize htemplate : (full ++ lit ".XXXXXX").take 255 = template at hnames
  generalize hfn : full.take 255 = fn at hnames
  generalize sys.ctime.take (256 - 1) = date at hdate
  have hne : ∀ stem, template = stem ++ lit "XXXXXX" → stem ++ sys.suffix ≠ fn := by
    intro stem hstem
    rw [← hfn]
    exact mkstemp_ne h full (htemplate.trans hstem)
  by_cases hopens : Opens sys template
  · rcases configTextFileSave_opens hnames hdate hopens (hne _ hopens.1) with
      ⟨files', hsave, hfile⟩
    constructor
    · intro hall template' fn' date' hnames' hdate' _
      rcases hall with ⟨template'', fn'', date'', r, files'', hnames'', hdate'', hsave', hcase⟩
      cases hnames.symm.trans hnames'
      cases hnames.symm.trans hnames''
      cases hdate.symm.trans hdate'
      cases hdate.symm.trans hdate''
      cases hsave.symm.trans hsave'
      by_cases hlinks : Links sys files fn
      · rw [if_pos hlinks] at hfile hcase
        rcases hcase with ⟨-, hcase⟩ | ⟨hcase, -⟩
        · rw [hcase] at hfile
          refine ⟨fun _ => hlinks.2, fun _ => ?_⟩
          exact (written_eq_flatten_iff _ _).mp (Option.some.inj hfile).symm
        · exact absurd hcase (by decide)
      · rw [if_neg hlinks] at hfile hcase
        refine ⟨fun hremoves => ?_, fun h => absurd h hlinks⟩
        rcases hcase with ⟨hcase, -⟩ | ⟨-, hcase⟩
        · exact absurd hcase (by decide)
        · rw [hcase, if_pos hremoves] at hfile
          exact absurd hfile hremoves.1
    · intro hsafe
      rcases hsafe template fn date hnames hdate hopens with ⟨hlink, hcomplete⟩
      refine ⟨template, fn, date, _, files', hnames, hdate, hsave, ?_⟩
      by_cases hlinks : Links sys files fn
      · rw [if_pos hlinks] at hfile ⊢
        have hwritten := (written_eq_flatten_iff _ _).mpr (hcomplete hlinks)
        exact Or.inl ⟨rfl, hfile.trans (congrArg some hwritten)⟩
      · have hnot : ¬ Removes sys files fn := fun h => hlinks ⟨Or.inr h, hlink h⟩
        rw [if_neg hlinks, if_neg hnot] at hfile
        rw [if_neg hlinks]
        exact Or.inr ⟨rfl, hfile⟩
  · rcases configTextFileSave_closed hnames hdate hopens hne with ⟨files', hsave, hfile⟩
    refine iff_of_true ⟨template, fn, date, -1, files', hnames, hdate, hsave, Or.inr ⟨rfl, hfile⟩⟩ ?_
    intro template' fn' date' hnames' _ hopens'
    cases hnames.symm.trans hnames'
    exact absurd hopens' hopens

/-- A system where everything but `link` succeeds. -/
def linkFails : Answers where
  ctime := lit "Thu Jan  1 00:00:00 1970\n"
  mkstemp := 3
  suffix := lit "abc123"
  fdopen := true
  fprintf := []
  stat := true
  unlink := true
  link := false
  unlinkTmp := true

/-- There is one file, `/c`. -/
def oneFile : Files := fun name => if name = lit "/c" then some (lit "[a]\n") else none

/-- The file is gone. -/
theorem save_loses_file : linkFails.Replaces ∧
    ¬ AllOrNothing [] linkFails oneFile (lit "/c") {} (lit "g") := by
  refine ⟨⟨rfl, by decide⟩, ?_⟩
  have hnames : fileNames [] (lit "/c") = .ok (lit "/c.XXXXXX", lit "/c") := by decide +kernel
  have hdate : spdCopyString linkFails.ctime 256 = .ok linkFails.ctime := by decide +kernel
  have hopens : Opens linkFails (lit "/c.XXXXXX") := by
    unfold Opens
    decide +kernel
  have hmain := @configTextFileSave_opens linkFails oneFile _ _ [] (lit "/c") (lit "g")
    linkFails.ctime {} hnames hdate hopens (by decide +kernel)
  rcases hmain with ⟨files', hsave, hfile⟩
  rintro ⟨template, fn, date, r, files'', hnames', -, hsave', hcase⟩
  cases hnames.symm.trans hnames'
  cases hsave.symm.trans hsave'
  have hgone : files' (lit "/c") = none := hfile
  rw [hgone] at hcase
  have hthere : oneFile (lit "/c") ≠ none := by decide +kernel
  rcases hcase with ⟨-, hcase⟩ | ⟨-, hcase⟩
  · exact absurd hcase nofun
  · exact hthere hcase.symm

/-- Where `link` succeeds the file is replaced. -/
theorem save_allOrNothing_replaced :
    AllOrNothing [] { linkFails with link := true } oneFile (lit "/c") {} (lit "g") := by
  refine (save_allOrNothing_iff [] _ oneFile (lit "/c") {} (lit "g") ⟨rfl, by decide⟩).mpr ?_
  intro template fn date _ _ _
  exact ⟨fun _ => rfl, fun _ => nofun⟩

end Spider.Config.Text
