import Spider.Config.Lines

/-!
# What the loader makes

Names and values are trimmed, have escaped semicolons only and no newline, and a
name neither has the sign that ends it nor starts like another kind of line.
Every line that is loaded keeps this, so that it holds for what comes of any
file.
-/

namespace Spider.Config.Text

open Lib Outcome CString Strings

/-- Neither a null byte nor a newline. -/
structure Plain (s : CString) : Prop where
  noNul : NoNul s
  newline : ch '\n' ∉ s

instance (s : CString) : Decidable (Plain s) :=
  decidable_of_iff (NoNul s ∧ ch '\n' ∉ s) ⟨fun h => ⟨h.1, h.2⟩, fun h => ⟨h.noNul, h.newline⟩⟩

structure Variable.Good (v : Variable) : Prop where
  name : Plain v.name
  nameTrimmed : Trimmed blank v.name
  nameEscaped : Escaped none v.name
  nameEq : ch '=' ∉ v.name
  nameHead : v.name.head? ≠ some (ch '[') ∧ v.name.head? ≠ some (ch '#')
  value : Plain v.value
  valueTrimmed : Trimmed blank v.value
  valueEscaped : Escaped none v.value
  bare : v.blanklines = 0 ∧ v.prev = [] ∧ v.sameline = []

structure Section.Good (sec : Section) : Prop where
  name : Plain sec.name
  nameEscaped : Escaped none sec.name
  nameBracket : ch ']' ∉ sec.name
  nameLength : sec.name.length ≤ 79
  bare : sec.templateInstances = [] ∧ sec.prev = [] ∧ sec.sameline = []
  root : ∀ v ∈ sec.root, v.Good

/-- All sections are as the loader makes them, and no comments are kept. -/
structure Parsed.Good (p : Parsed) : Prop where
  root : ∀ sec ∈ p.cfg.root, sec.Good
  buffers : p.buffers = none

def Cat.Good : Cat → Prop
  | .new sec => sec.Good
  | .old _ => True

theorem Cat.good_new {sec : Section} (h : sec.Good) : Cat.Good (.new sec) := h

theorem Cat.good_old (i : Nat) : Cat.Good (.old i) := trivial

/-- A line as `process_text_line` gets it. -/
structure Clean (buf : CString) : Prop where
  plain : Plain buf
  trimmed : Trimmed blank buf
  escaped : Escaped none buf

section

variable {p p' : Parsed} {buf catname : CString} {root root' : List Section} {cat cat' : Cat}

theorem Plain.of_subset {s t : CString} (h : Plain t) (hsub : s ⊆ t) : Plain s where
  noNul c hc := h.noNul c (hsub hc)
  newline hmem := h.newline (hsub hmem)

theorem forall_mem_modify {β : Type} {P : β → Prop} {l : List β} {f : β → β} (i : Nat)
    (h : ∀ x ∈ l, P x) (hf : ∀ x, P x → P (f x)) : ∀ x ∈ l.modify i f, P x := by
  induction l generalizing i with
  | nil =>
    intro x hx
    rw [List.modify_nil] at hx
    exact absurd hx List.not_mem_nil
  | cons y l ih =>
    have hy := h y List.mem_cons_self
    have hl : ∀ x ∈ l, P x := fun x hx => h x (List.mem_cons_of_mem y hx)
    intro x hx
    cases i with
    | zero =>
      rw [List.modify_zero_cons] at hx
      rcases List.mem_cons.mp hx with rfl | hx
      · exact hf y hy
      · exact hl x hx
    | succ i =>
      rw [List.modify_succ_cons] at hx
      rcases List.mem_cons.mp hx with rfl | hx
      · exact hy
      · exact ih i hl x hx

theorem notMem_takeWhile (c : UInt8) (l : List UInt8) : c ∉ l.takeWhile (· ≠ c) := by
  intro hmem
  have hne := List.mem_takeWhile_imp hmem
  exact of_decide_eq_true hne rfl

/-- The search for a byte stops there. -/
theorem eq_takeWhile_append {c d : UInt8} {l rest : List UInt8}
    (h : l.dropWhile (· ≠ c) = d :: rest) : l = l.takeWhile (· ≠ c) ++ c :: rest := by
  have hd := head_dropWhile (· ≠ c) l
  rw [h] at hd
  have hdc : d = c := not_not.mp (of_decide_eq_false (hd d rfl))
  rw [← hdc, ← h, hdc]
  exact List.takeWhile_append_dropWhile.symm

theorem not_blank_backslash {u : List UInt8} (hu : ∀ c ∈ u, blank c = true) {prev : Option UInt8}
    (hprev : prev ≠ some (ch '\\')) : u.getLast?.or prev ≠ some (ch '\\') := by
  intro heq
  cases hlast : u.getLast? with
  | none =>
    rw [hlast] at heq
    exact hprev heq
  | some c =>
    rw [hlast] at heq
    have hblank := hu c (List.mem_of_getLast? hlast)
    rw [Option.some.inj heq] at hblank
    exact absurd hblank (by decide)

theorem escaped_strip {prev : Option UInt8} {s : CString} (h : Escaped prev s)
    (hprev : prev ≠ some (ch '\\')) (q : Option UInt8) : Escaped q (spdStrip s) := by
  rcases exists_trim blank s with ⟨u, v, hs, hu, -, -⟩
  rw [hs, List.append_assoc] at h
  have hrest := h.part (not_blank_backslash hu hprev) q
  exact (escaped_append.mp hrest).1

theorem strip_subset (s : CString) : spdStrip s ⊆ s := fun _ hc => mem_of_mem_trim hc

theorem variableClone_good {v : Variable} (h : v.Good) : (variableClone v).Good where
  name := h.name
  nameTrimmed := h.nameTrimmed
  nameEscaped := h.nameEscaped
  nameEq := h.nameEq
  nameHead := h.nameHead
  value := h.value
  valueTrimmed := h.valueTrimmed
  valueEscaped := h.valueEscaped
  bare := ⟨h.bare.1, rfl, rfl⟩

/-- Variables are added to a section. -/
theorem Section.Good.append {sec : Section} (h : sec.Good) {vars : List Variable}
    (hvars : ∀ v ∈ vars, v.Good) : Section.Good { sec with root := sec.root ++ vars } where
  name := h.name
  nameEscaped := h.nameEscaped
  nameBracket := h.nameBracket
  nameLength := h.nameLength
  bare := h.bare
  root v hv := (List.mem_append.mp hv).elim (h.root v) (hvars v)

theorem Section.Good.ignore {sec : Section} (h : sec.Good) :
    Section.Good { sec with ignored := true } where
  name := h.name
  nameEscaped := h.nameEscaped
  nameBracket := h.nameBracket
  nameLength := h.nameLength
  bare := h.bare
  root := h.root

theorem inheritSection_good (hroot : ∀ sec ∈ root, sec.Good) (hcat : cat.Good) {base : Nat}
    (h : inheritSection root cat base = .ok (root', cat')) :
    (∀ sec ∈ root', sec.Good) ∧ cat'.Good := by
  have hvars : ∀ v ∈ (((root[base]?).map Section.root).getD []).map variableClone, v.Good := by
    intro v hv
    rcases List.mem_map.mp hv with ⟨w, hw, rfl⟩
    cases hbase : root[base]? with
    | none =>
      rw [hbase] at hw
      exact absurd hw List.not_mem_nil
    | some sec =>
      rw [hbase] at hw
      exact variableClone_good ((hroot sec (List.mem_of_getElem? hbase)).root w hw)
  cases cat with
  | new sec =>
    cases h
    exact ⟨hroot, hcat.append hvars⟩
  | old i =>
    rw [inheritSection] at h
    split at h
    next => exact absurd h nofun
    next =>
      cases h
      exact ⟨forall_mem_modify i hroot fun sec hsec => hsec.append hvars, trivial⟩

theorem headerOptions_good (options : List CString) (hroot : ∀ sec ∈ root, sec.Good)
    (hcat : cat.Good) (h : headerOptions catname options root cat = .ok (some (root', cat'))) :
    (∀ sec ∈ root', sec.Good) ∧ cat'.Good := by
  induction options generalizing root cat with
  | nil =>
    cases h
    exact ⟨hroot, hcat⟩
  | cons cur options ih =>
    rw [headerOptions.eq_def] at h
    dsimp only at h
    split at h
    next =>
      cases cat with
      | new sec => exact ih hroot (Cat.good_new hcat.ignore) h
      | old i =>
        have hroot' := forall_mem_modify i hroot fun sec hsec => hsec.ignore
        exact ih hroot' (Cat.good_old i) h
    next =>
      split at h
      next =>
        split at h
        next => exact absurd h nofun
        next i _ =>
          cases cat with
          | new newcat =>
            have hroot' := forall_mem_modify i hroot fun sec hsec =>
              hsec.append (Section.Good.root hcat)
            exact ih hroot' (Cat.good_old i) h
          | old j => exact ih hroot (Cat.good_old i) h
      next =>
        split at h
        next => exact absurd h nofun
        next base =>
          rcases bind_eq_ok.mp h with ⟨⟨root1, cat1⟩, hinherit, h⟩
          rcases inheritSection_good hroot hcat hinherit with ⟨hroot1, hcat1⟩
          exact ih hroot1 hcat1 h

/-- The name in a header, cut off where it is copied. -/
theorem headerName_good (h : Clean buf) (hhead : buf.head? = some (ch '[')) :
    Section.Good { name := (buf.tail.takeWhile (· ≠ ch ']')).take 79 } := by
  have hbuf : buf = [ch '['] ++ buf.tail := (List.cons_head?_tail hhead).symm
  have hprefix : (buf.tail.takeWhile (· ≠ ch ']')).take 79 <+: buf.tail :=
    (List.take_prefix 79 _).trans (List.takeWhile_prefix _)
  have hsub : (buf.tail.takeWhile (· ≠ ch ']')).take 79 ⊆ buf :=
    List.Subset.trans hprefix.subset (List.tail_sublist buf).subset
  refine ⟨h.plain.of_subset hsub, ?_, ?_, List.length_take_le _ _, ⟨rfl, rfl, rfl⟩, nofun⟩
  · rcases hprefix with ⟨rest, hrest⟩
    have hescaped := h.escaped
    rw [hbuf] at hescaped
    have htail := hescaped.part (by decide) none
    rw [← hrest] at htail
    exact (escaped_append.mp htail).1
  · intro hmem
    exact notMem_takeWhile _ _ (List.mem_of_mem_take hmem)

theorem processHeader_good (hp : p.Good) (h : Clean buf) (hhead : buf.head? = some (ch '['))
    (hline : processHeader p buf = .ok (some p')) : p'.Good := by
  have hname := headerName_good h hhead
  rw [processHeader, List.span_eq_takeWhile_dropWhile] at hline
  dsimp only at hline
  split at hline
  next => exact absurd hline nofun
  next =>
    rw [spdCopyString_eq _ (by decide), ok_bind, hp.buffers] at hline
    dsimp only [Option.map_none, Option.getD_none] at hline
    split at hline
    next => exact absurd hline nofun
    next options _ =>
      rcases bind_eq_ok.mp hline with ⟨r, hoptions, hline⟩
      cases r with
      | none => exact absurd hline nofun
      | some r =>
        rcases r with ⟨root, cat⟩
        rcases headerOptions_good options hp.root (Cat.good_new hname) hoptions with ⟨hroot, hcat⟩
        cases cat with
        | new sec =>
          cases hline
          refine ⟨fun x hx => ?_, rfl⟩
          rcases List.mem_append.mp hx with hx | hx
          · exact hroot x hx
          · rw [List.mem_singleton.mp hx]
            exact hcat
        | old i =>
          cases hline
          exact ⟨hroot, rfl⟩

/-- The variable in a line. -/
theorem lineVariable_good (h : Clean buf) (hbracket : buf.head? ≠ some (ch '['))
    (hhash : buf.head? ≠ some (ch '#')) {cur c : CString} (heq : buf = cur ++ ch '=' :: c)
    (hcur : ch '=' ∉ cur) (object : Bool) (hobject : object = true → c.head? = some (ch '>')) :
    Variable.Good ⟨spdStrip cur, spdStrip (if object then c.tail else c), object, 0, [], []⟩ := by
  have hcurSub : spdStrip cur ⊆ buf := by
    rw [heq]
    exact List.Subset.trans (strip_subset cur) (List.subset_append_left _ _)
  have hvalueSub : (if object then c.tail else c) ⊆ c := by
    split
    · exact (List.tail_sublist c).subset
    · exact List.Subset.refl c
  have hcSub : c ⊆ buf := by
    rw [heq]
    exact List.Subset.trans (List.subset_cons_self _ _) (List.subset_append_right _ _)
  have hescaped := h.escaped
  rw [heq] at hescaped
  have hc : Escaped none c := by
    have happend : Escaped none ((cur ++ [ch '=']) ++ c) := by
      rw [List.append_assoc]
      exact hescaped
    apply happend.part
    rw [List.getLast?_concat]
    decide
  have hvalue : Escaped none (if object then c.tail else c) := by
    cases object with
    | false => exact hc
    | true =>
      have hcons : c = [ch '>'] ++ c.tail := (List.cons_head?_tail (hobject rfl)).symm
      rw [hcons] at hc
      exact hc.part (by decide) none
  have hhead : ∀ d, (spdStrip cur).head? = some d → buf.head? = some d := by
    intro d hd
    rcases exists_trim blank cur with ⟨u, v, hs, hu, -, -⟩
    cases u with
    | nil =>
      rw [heq, hs, List.nil_append, List.append_assoc, List.head?_append]
      rw [spdStrip_eq] at hd
      rw [hd]
      rfl
    | cons d' u =>
      have htrimmed := h.trimmed.head
      rw [heq, hs] at htrimmed
      have hnot := htrimmed d' rfl
      exact absurd ((hu d' List.mem_cons_self).symm.trans hnot) nofun
  constructor
  case name => exact h.plain.of_subset hcurSub
  case nameTrimmed => exact trim_trimmed blank cur
  case nameEscaped => exact escaped_strip (escaped_append.mp hescaped).1 nofun none
  case nameEq => exact fun hmem => hcur (strip_subset cur hmem)
  case nameHead => exact ⟨fun hd => hbracket (hhead _ hd), fun hd => hhash (hhead _ hd)⟩
  case value =>
    exact h.plain.of_subset
      (List.Subset.trans (strip_subset _) (List.Subset.trans hvalueSub hcSub))
  case valueTrimmed => exact trim_trimmed blank _
  case valueEscaped => exact escaped_strip hvalue nofun none
  case bare => exact ⟨rfl, rfl, rfl⟩

theorem processTextLine_good (hp : p.Good) (h : Clean buf)
    (hline : processTextLine p buf = .ok (some p')) : p'.Good := by
  rw [processTextLine] at hline
  split at hline
  next hhead => exact processHeader_good hp h hhead hline
  next hbracket =>
    split at hline
    next =>
      cases hline
      exact hp
    next hhash =>
      split at hline
      next => exact absurd hline nofun
      next i _ =>
        split at hline
        next =>
          cases hline
          exact hp
        next cur d c hspan =>
          rw [List.span_eq_takeWhile_dropWhile] at hspan
          have htake := congrArg Prod.fst hspan
          have hdrop := congrArg Prod.snd hspan
          dsimp only at htake hdrop
          have heq := eq_takeWhile_append hdrop
          rw [htake] at heq
          have hcur : ch '=' ∉ cur := htake ▸ notMem_takeWhile _ _
          have hv := lineVariable_good h hbracket hhash heq hcur
            (decide (c.head? = some (ch '>'))) of_decide_eq_true
          simp only [decide_eq_true_eq] at hv
          rw [hp.buffers] at hline
          cases hline
          refine ⟨forall_mem_modify i hp.root fun sec hsec => hsec.append ?_, rfl⟩
          intro v hmem
          rw [List.mem_singleton.mp hmem]
          exact hv

/-- A line as `fgets` gives it: without null bytes, and with newlines only at its end. -/
structure Read (line : CString) : Prop where
  noNul : NoNul line
  newline : ∃ body ending, line = body ++ ending ∧ ch '\n' ∉ body ∧ ∀ c ∈ ending, c = ch '\n'

/-- What is stripped off a part of a line is clean. -/
theorem clean_strip {line text : CString} (hline : Read line) (hsub : List.Sublist text line)
    (hescaped : Escaped none text) : Clean (spdStrip text) where
  plain := by
    rcases hline.newline with ⟨body, ending, hline', hbody, hending⟩
    rw [hline'] at hsub
    rcases List.sublist_append_iff.mp hsub with ⟨t, e, rfl, ht, he⟩
    have hblank : ∀ c ∈ e, blank c = true := by
      intro c hc
      rw [hending c (he.subset hc)]
      decide
    have hstrip : spdStrip (t ++ e) = spdStrip t := trim_append_right hblank t
    have hbodySub : body ⊆ line := hline' ▸ List.subset_append_left _ _
    rw [hstrip]
    constructor
    · exact fun c hc => hline.noNul c (hbodySub (ht.subset (strip_subset t hc)))
    · exact fun hmem => hbody (ht.subset (strip_subset t hmem))
  trimmed := trim_trimmed blank text
  escaped := escaped_strip hescaped nofun none

/-- A counter below zero stays there. -/
theorem loadLine_negative {comment comment' : Int} {line : CString} {r : Option Parsed}
    (h : loadLine comment p line = .ok (r, comment')) (hneg : comment < 0) : comment' < 0 := by
  rcases bind_eq_ok.mp h with ⟨s, hscan, h⟩
  have hs := scan_negative line hscan hneg
  dsimp only at h
  split at h
  next =>
    split at h
    next =>
      cases h
      exact hs
    next =>
      rcases bind_eq_ok.mp h with ⟨r', -, h⟩
      cases h
      exact hs
  next =>
    cases h
    exact hs

/-- What is processed of a line is clean. -/
theorem scan_clean {comment : Int} {buffers : Option Buffers} {s : Scan} {line : CString}
    (hline : Read line)
    (hscan : scan ⟨comment, comment = 0, .live [], buffers⟩ [] 0 line = .ok s)
    (hnonneg : 0 ≤ s.comment) (hprocess : s.process = true) :
    Clean (spdStrip (s.kept.finish [])) := by
  have hcomment : 0 ≤ comment := by
    by_contra hneg
    exact absurd (scan_negative line hscan (not_le.mp hneg)) (not_lt.mpr hnonneg)
  have hgood : Scan.Good ⟨comment, comment = 0, .live [], buffers⟩ [] line line := by
    by_cases hzero : comment = 0
    · exact .outside [] hzero (decide_eq_true hzero) rfl (List.Sublist.refl line) trivial
    · exact .before (by show 0 < comment; omega) (decide_eq_false hzero) (List.Sublist.refl line)
  rcases scan_good line hscan hgood hnonneg with ⟨text, hkept, hpart⟩
  rcases hpart hprocess with ⟨hsub, hescaped⟩
  rw [hkept, Kept.finish, List.append_nil]
  exact clean_strip hline hsub hescaped

theorem loadLine_good {comment comment' : Int} {line : CString} (hp : p.Good) (hline : Read line)
    (h : loadLine comment p line = .ok (some p', comment')) (hnonneg : 0 ≤ comment') :
    p'.Good := by
  rcases bind_eq_ok.mp h with ⟨s, hscan, h⟩
  have hbuffers : s.buffers = none := by
    apply scan_buffers line hscan
    dsimp only
    rw [hp.buffers]
    rfl
  dsimp only at h
  split at h
  next hprocess =>
    have hp1 : Parsed.Good { p with buffers := s.buffers } := ⟨hp.root, hbuffers⟩
    split at h
    next =>
      cases h
      exact hp1
    next =>
      rcases bind_eq_ok.mp h with ⟨r, hr, h⟩
      cases h
      exact processTextLine_good hp1 (scan_clean hline hscan hnonneg hprocess) hr
  next =>
    cases h
    refine ⟨hp.root, ?_⟩
    dsimp only
    rw [hbuffers]
    rfl

theorem loadLines_negative {comment comment' : Int} {r : Option Parsed} (lines : List CString)
    (h : loadLines comment p lines = .ok (r, comment')) (hneg : comment < 0) : comment' < 0 := by
  induction lines generalizing comment p with
  | nil =>
    cases h
    exact hneg
  | cons line lines ih =>
    rcases bind_eq_ok.mp h with ⟨⟨r1, comment1⟩, hline, h⟩
    have hneg1 := loadLine_negative hline hneg
    cases r1 with
    | none =>
      cases h
      exact hneg1
    | some p1 => exact ih h hneg1

theorem loadLines_good {comment comment' : Int} (lines : List CString) (hp : p.Good)
    (hlines : ∀ line ∈ lines, Read line)
    (h : loadLines comment p lines = .ok (some p', comment')) (hnonneg : 0 ≤ comment') :
    p'.Good := by
  induction lines generalizing comment p with
  | nil =>
    cases h
    exact hp
  | cons line lines ih =>
    rcases bind_eq_ok.mp h with ⟨⟨r1, comment1⟩, hline, h⟩
    have hrest : ∀ l ∈ lines, Read l := fun l hl => hlines l (List.mem_cons_of_mem line hl)
    cases r1 with
    | none => exact absurd h nofun
    | some p1 =>
      have hnonneg1 : 0 ≤ comment1 := by
        by_contra hneg
        exact absurd (loadLines_negative lines h (not_le.mp hneg)) (not_lt.mpr hnonneg)
      exact ih (loadLine_good hp (hlines line List.mem_cons_self) hline hnonneg1) hrest h

theorem textLines_read (text : List UInt8) : ∀ line ∈ textLines text, Read line := by
  intro line hline
  rcases List.mem_map.mp hline with ⟨chunk, hchunk, rfl⟩
  rcases fgetsAll_newline text List.not_mem_nil hchunk with ⟨body, ending, rfl, hbody, hending⟩
  have hprefix : cut (body ++ ending) <+: body ++ ending := List.takeWhile_prefix _
  constructor
  · intro c hc
    have hcut : c ∈ List.takeWhile (· ≠ 0) (body ++ ending) := hc
    have hne := List.mem_takeWhile_imp hcut
    exact of_decide_eq_true hne
  · rcases List.sublist_append_iff.mp hprefix.sublist with ⟨b, e, hcut, hb, he⟩
    exact ⟨b, e, hcut, fun hmem => hbody (hb.subset hmem), fun c hc => hending c (he.subset hc)⟩

/-- Everything that is loaded without comments can be written out. -/
theorem configTextFileLoad_good {mallocs : Mallocs} {file : Option (List UInt8)} {cfg : SpdConfig}
    (h : configTextFileLoad mallocs file {} false = .ok (some cfg)) : ∀ sec ∈ cfg.root, sec.Good := by
  rcases bind_eq_ok.mp h with ⟨⟨comment, lline⟩, hinit, h⟩
  cases hinit
  dsimp only at h
  rw [if_neg (fun hand => Bool.noConfusion hand.1)] at h
  cases file with
  | none => exact absurd h nofun
  | some text =>
    rcases bind_eq_ok.mp h with ⟨⟨r, comment⟩, hlines, h⟩
    dsimp only at h
    split at h
    next => exact absurd h nofun
    next hnonneg =>
      cases r with
      | none => exact absurd h nofun
      | some p =>
        cases h
        have hstart : Parsed.Good ⟨{}, none, none⟩ := ⟨nofun, rfl⟩
        exact (loadLines_good _ hstart (textLines_read text) hlines (not_lt.mp hnonneg)).root

end

end Spider.Config.Text
