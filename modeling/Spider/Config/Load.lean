import Spider.Config.Text
import Spider.Config.Engine

/-!
# Loading a configuration

`config_text_file_load` reads the file line by line, takes the comments out and
hands what is left of a line to `process_text_line`. The two buffers in which it
keeps comments when it is asked to are `none` where it is not. Every allocation
but those of `comment_init` succeeds; what is in a block that `spd_malloc` gives
is not known.
-/

namespace Spider.Config.Text

open Lib Outcome CString Strings

/-! ## The comment buffers -/

/-- `comment_buffer` and `lline_buffer`. -/
structure Buffers where
  comment : CString := []
  lline : CString := []
  deriving DecidableEq, Repr

/-- What `spd_malloc` gives to `comment_init`: whether there is a first block, and the pointer
    that the start of the second one happens to be, null or some address. -/
structure Mallocs where
  comment : Bool
  line : Option (Option Nat)
  deriving DecidableEq, Repr

/-- `comment_init` (`config.c:54-72`): what `*comment_buf` and the caller's `*line_buf` point to
    afterwards. The second block is assigned to `line_buf` itself. -/
def commentInit (mallocs : Mallocs) (commentBuf lineBuf : Option CString) :
    Outcome (Option CString × Option CString) :=
  match commentBuf with
  | none =>
    if mallocs.comment then
      match mallocs.line with
      | none => .fault
      | some none => .ok (some [], lineBuf)
      -- `(*line_buf)[0] = 0` goes to whatever address the new block holds
      | some (some _) => .fault
    else .ok (none, lineBuf)
  | some _ =>
    match lineBuf with
    | none => .fault
    | some _ => .ok (some [], some [])

/-- `comment_alloc` for a buffer that is not empty. -/
def commentAlloc (buf : CString) : List CString := if buf = [] then [] else [buf]

/-! ## Comments in a line -/

/-- The string in the buffer, as far as it matters behind `new_buf`: it goes on there, or it ends
    before, with some bytes between its null byte and `new_buf`. -/
inductive Kept where
  | live (text : CString)
  | cut (text : CString) (gap : List UInt8)
  deriving DecidableEq, Repr

/-- `new_buf` moves over `t`. -/
def Kept.pass (t : List UInt8) : Kept → Kept
  | .live text => .live (text ++ t)
  | .cut text gap => .cut text (gap ++ t)

/-- The string ends behind `t`, and `new_buf` moves over that and two dashes. -/
def Kept.enter (t : List UInt8) : Kept → Kept
  | .live text => .cut (text ++ t) (lit "--")
  | .cut text gap => .cut text (gap ++ t ++ [0] ++ lit "--")

/-- The string, with `rest` at `new_buf`. -/
def Kept.finish (rest : List UInt8) : Kept → CString
  | .live text => text ++ rest
  | .cut text _ => text

/-- The variables of the loop over the semicolons. `process` says whether `process_buf` is not
    null; `kept` is the string there, or the one in `buf` when it is null. -/
structure Scan where
  comment : Int
  process : Bool
  kept : Kept
  buffers : Option Buffers
  deriving DecidableEq, Repr

/-- The end of an outermost comment (`config.c:844-860`), with `t` before the semicolon and `rest`
    behind it. -/
def Scan.leave (s : Scan) (t rest : List UInt8) : Scan :=
  if s.process then
    match s.kept with
    | .cut text gap =>
      { s with
        kept := .live text
        buffers := s.buffers.map fun b =>
          { b with comment := b.comment ++ lit ";" ++ cut (gap ++ t ++ lit ";") } }
    -- not reached: what raises the counter also cuts the string
    | .live text => { s with kept := .live (text ++ t ++ lit ";" ++ rest) }
  else { s with process := true, kept := .live [] }

/-- The loop over the semicolons (`config.c:817-874`). `back` is what has been passed since
    `new_buf`, backwards, and `ahead` how far `new_buf` is ahead. -/
def scan (s : Scan) (back : List UInt8) : Nat → List UInt8 → Outcome Scan
  | _, [] => .ok { s with kept := .live (s.kept.finish back.reverse) }
  | ahead + 1, _ :: rest => scan s back ahead rest
  | 0, c :: rest =>
    let t := back.reverse
    if c ≠ ch ';' then scan s (c :: back) 0 rest
    else if back.head? = some (ch '\\') then
      scan { s with kept := s.kept.pass (t ++ lit ";") } [] 0 rest
    else if rest.take 2 = lit "--" ∧ rest[2]? ≠ some (ch '-') then
      -- at 128 the loop finds the same semicolon again, for ever
      if s.comment ≥ 128 then .timeout
      -- `nest[comment-1]` behind the increment
      else if s.comment < 0 then .fault
      else scan { s with comment := s.comment + 1, kept := s.kept.enter t } [] 2 rest
    else if back.take 2 = lit "--" then
      let s : Scan := { s with comment := s.comment - 1 }
      if s.comment = 0 then scan (s.leave t rest) [] 0 rest
      else scan { s with kept := s.kept.pass (t ++ lit ";") } [] 0 rest
    else if s.comment = 0 then
      .ok { s with
        kept := .live (s.kept.finish t)
        buffers := s.buffers.map fun b => { b with lline := b.lline ++ c :: rest } }
    else scan { s with kept := s.kept.pass (t ++ lit ";") } [] 0 rest

/-! ## Lines -/

/-- `section_get` (`config.c:240-256`); no caller here has the `name` field of a section. -/
def sectionGet (root : List Section) (name : CString) (ignored : Bool) : Option Nat :=
  root.findIdx? fun cat => strcasecmp cat.name name == 0 && (ignored || !cat.ignored)

/-- `variable_clone` (`config.c:211-221`), which leaves `object` out. -/
def variableClone (old : Variable) : Variable :=
  { name := old.name, value := old.value, object := false, blanklines := old.blanklines }

/-- `*cat` while a header is processed: the new section, or one of the configuration. -/
inductive Cat where
  | new (sec : Section)
  | old (i : Nat)
  deriving DecidableEq, Repr

/-- `inherit_section` (`config.c:375-385`). A section with variables that inherits from itself
    grows for ever. -/
def inheritSection (root : List Section) (cat : Cat) (base : Nat) :
    Outcome (List Section × Cat) :=
  let vars := ((root[base]?).map Section.root).getD []
  match cat with
  | .new sec => .ok (root, .new { sec with root := sec.root ++ vars.map variableClone })
  | .old i =>
    if i = base ∧ vars ≠ [] then .timeout
    else
      .ok (root.modify i fun sec => { sec with root := sec.root ++ vars.map variableClone }, cat)

/-- The loop over the options of a header (`config.c:605-633`); null stands for a return of -1. -/
def headerOptions (catname : CString) :
    List CString → List Section → Cat → Outcome (Option (List Section × Cat))
  | [], root, cat => .ok (some (root, cat))
  | cur :: rest, root, cat =>
    if strcasecmp cur (lit "!") = 0 then
      match cat with
      | .new sec => headerOptions catname rest root (.new { sec with ignored := true })
      | .old i =>
        headerOptions catname rest (root.modify i fun sec => { sec with ignored := true }) cat
    else if strcasecmp cur (lit "+") = 0 then
      match sectionGet root catname true with
      | none => .ok none
      | some i =>
        match cat with
        | .new newcat =>
          headerOptions catname rest
            (root.modify i fun sec => { sec with root := sec.root ++ newcat.root }) (.old i)
        | .old _ => headerOptions catname rest root (.old i)
    else
      match sectionGet root cur true with
      | none => .ok none
      | some base => do
        let (root, cat) ← inheritSection root cat base
        headerOptions catname rest root cat

/-- What the lines before have left: the configuration, `cat`, and the comment buffers. -/
structure Parsed where
  cfg : SpdConfig
  cat : Option Nat
  buffers : Option Buffers
  deriving DecidableEq, Repr

/-- A section header (`config.c:568-637`). -/
def processHeader (p : Parsed) (buf : CString) : Outcome (Option Parsed) :=
  let (catname, c) := buf.tail.span (· ≠ ch ']')
  if c = [] then .ok none
  else do
    let name ← spdCopyString catname 80
    let newcat : Section :=
      { name := name
        prev := (p.buffers.map fun b => commentAlloc b.comment).getD []
        sameline := (p.buffers.map fun b => commentAlloc b.lline).getD [] }
    let buffers := p.buffers.map fun _ => ({} : Buffers)
    let options : Option (List CString) :=
      if c.tail.head? = some (ch '(') then
        let (opts, close) := c.tail.tail.span (· ≠ ch ')')
        if close = [] then none else some (opts.splitOn (ch ','))
      else some []
    match options with
    | none => .ok none
    | some options =>
      match ← headerOptions catname options p.cfg.root (.new newcat) with
      | none => .ok none
      | some (root, .new sec) =>
        let i := root.length
        .ok (some ⟨{ root := root ++ [sec], current := some i }, some i, buffers⟩)
      | some (root, .old i) => .ok (some ⟨{ p.cfg with root := root }, some i, buffers⟩)

/-- `process_text_line` (`config.c:557-747`); null stands for a return of -1. A directive is only
    logged: the loading of what it includes is commented out. -/
def processTextLine (p : Parsed) (buf : CString) : Outcome (Option Parsed) :=
  if buf.head? = some (ch '[') then processHeader p buf
  else if buf.head? = some (ch '#') then .ok (some p)
  else
    match p.cat with
    | none => .ok none
    | some i =>
      match buf.span (· ≠ ch '=') with
      | (_, []) => .ok (some p)
      | (cur, _ :: c) =>
        let object := c.head? = some (ch '>')
        let v : Variable :=
          { name := spdStrip cur
            value := spdStrip (if object then c.tail else c)
            object := object
            prev := (p.buffers.map fun b => commentAlloc b.comment).getD []
            sameline := (p.buffers.map fun b => commentAlloc b.lline).getD [] }
        let root := p.cfg.root.modify i fun sec => { sec with root := sec.root ++ [v] }
        .ok (some ⟨{ p.cfg with root := root }, some i, p.buffers.map fun _ => {}⟩)

/-- One pass of the loop over the lines (`config.c:798-889`), with the comment counter. -/
def loadLine (comment : Int) (p : Parsed) (buf : CString) : Outcome (Option Parsed × Int) := do
  let buffers := p.buffers.map fun b => ({ comment := b.comment ++ b.lline } : Buffers)
  let s ← scan ⟨comment, comment = 0, .live [], buffers⟩ [] 0 buf
  let text := s.kept.finish []
  if s.process then
    let buf := spdStrip text
    let p := { p with buffers := s.buffers }
    if buf = [] then .ok (some p, s.comment)
    else do
      let r ← processTextLine p buf
      .ok (r, s.comment)
  else
    -- a line that is all comment is kept with the comments
    let buffers := s.buffers.map fun b =>
      if s.comment ≠ 0 then { b with comment := b.comment ++ text } else b
    .ok (some { p with buffers := buffers }, s.comment)

def loadLines (comment : Int) (p : Parsed) : List CString → Outcome (Option Parsed × Int)
  | [] => .ok (some p, comment)
  | buf :: rest => do
    match ← loadLine comment p buf with
    | (some p, comment) => loadLines comment p rest
    | (none, comment) => .ok (none, comment)

/-- What `fgets` reads into a buffer of 8192 bytes, call by call, with `got` read so far and room
    for `room` more: up to a newline, as far as it fits. -/
def fgetsAll (room : Nat) (got : List UInt8) : List UInt8 → List (List UInt8)
  | [] => if got = [] then [] else [got]
  | c :: rest =>
    if c = ch '\n' ∨ room ≤ 1 then (got ++ [c]) :: fgetsAll 8191 [] rest
    else fgetsAll (room - 1) (got ++ [c]) rest

/-- The strings that the lines of a file are read as. -/
def textLines (text : List UInt8) : List CString := (fgetsAll 8191 [] text).map cut

/-- `config_text_file_load` (`config.c:749-909`) of a file with this content, null where it
    cannot be opened. -/
def configTextFileLoad (mallocs : Mallocs) (file : Option (List UInt8)) (cfg : SpdConfig)
    (withcomments : Bool) : Outcome (Option SpdConfig) := do
  let (comment, lline) ← if withcomments then commentInit mallocs none none else .ok (none, none)
  let buffers : Option Buffers := do
    let comment ← comment
    let lline ← lline
    pure { comment := comment, lline := lline }
  if withcomments ∧ buffers = none then .ok none
  else match file with
    | none => .ok none
    | some text => do
      let (r, comment) ← loadLines 0 ⟨cfg, cfg.current, buffers⟩ (textLines text)
      -- the message on an unterminated comment reads `nest[comment-1]`
      if comment < 0 then .fault else .ok (r.map Parsed.cfg)

/-! ## The engines -/

/-- `config_maps`: nothing calls `append_mapping`. -/
def configMaps : List Engines.ConfigMap := []

/-- What the `load_func` of another engine does. -/
abbrev LoadFunc := CString → SpdConfig → Bool → Outcome (Option SpdConfig)

/-- The loader that `spd_config_internal_load` chooses, null for the text engine
    (`config.c:1176-1192`). -/
def findLoader (engines : Engines.St) (filename : CString) : Outcome (Option Nat) :=
  if engines.configEngineList = none then .ok none
  else do
    let loadFunc := fun (found : Engines.Found) => do
      match found.ret with
      | some eng => do
        let e ← Engines.deref engines.heap eng
        .ok e.loadFunc
      | none => .ok none
    let found ← Engines.findEngine engines configMaps filename (some 256) (some 256)
    match ← loadFunc found with
    | some f => .ok (some f)
    | none => do
      let found ← Engines.findEngine engines configMaps (lit "global") (some 256) (some 256)
      loadFunc found

/-- `spd_config_internal_load` (`config.c:1169-1203`). -/
def spdConfigInternalLoad (engines : Engines.St) (loaders : Nat → LoadFunc) (mallocs : Mallocs)
    (filename : CString) (file : Option (List UInt8)) (cfg : SpdConfig) (withcomments : Bool) :
    Outcome (Option SpdConfig) := do
  match ← findLoader engines filename with
  | some f => loaders f filename cfg withcomments
  | none => configTextFileLoad mallocs file cfg withcomments

/-- `spd_config_load` (`config.c:1205-1218`). -/
def spdConfigLoad (engines : Engines.St) (loaders : Nat → LoadFunc) (mallocs : Mallocs)
    (filename : CString) (file : Option (List UInt8)) : Outcome (Option SpdConfig) :=
  spdConfigInternalLoad engines loaders mallocs filename file {} false

/-- `spd_config_load_with_comments` (`config.c:1220-1233`). -/
def spdConfigLoadWithComments (engines : Engines.St) (loaders : Nat → LoadFunc)
    (mallocs : Mallocs) (filename : CString) (file : Option (List UInt8)) :
    Outcome (Option SpdConfig) :=
  spdConfigInternalLoad engines loaders mallocs filename file {} true

/-! ## Loading with comments -/

/-- What two configurations have in common that differ only in comments: the names and ignored
    flags of the sections, and the names, values and object flags of their variables. -/
def SpdConfig.content (cfg : SpdConfig) : List (CString × Bool × List (CString × CString × Bool)) :=
  cfg.root.map fun cat => (cat.name, cat.ignored, cat.root.map fun v => (v.name, v.value, v.object))

section

variable {engines : Engines.St} {loaders : Nat → LoadFunc} {mallocs : Mallocs}
  {filename : CString} {file : Option (List UInt8)}

/-- `comment_init` never sets the pointer of its caller. -/
theorem commentInit_lline {comment lline : Option CString}
    (h : commentInit mallocs none none = .ok (comment, lline)) : lline = none := by
  unfold commentInit at h
  dsimp only at h
  split at h
  next =>
    split at h
    next => exact absurd h nofun
    next =>
      cases h
      rfl
    next => exact absurd h nofun
  next =>
    cases h
    rfl

/-- The text engine gives no configuration when it is asked to keep the comments. -/
theorem configTextFileLoad_withcomments (cfg cfg' : SpdConfig) :
    configTextFileLoad mallocs file cfg true ≠ .ok (some cfg') := by
  intro h
  rcases bind_eq_ok.mp h with ⟨⟨comment, lline⟩, hinit, h⟩
  have hnull := commentInit_lline hinit
  subst hnull
  have hbuffers : (do
      let comment ← comment
      let lline ← (none : Option CString)
      pure { comment := comment, lline := lline } : Option Buffers) = none := by
    cases comment <;> rfl
  dsimp only at h
  rw [if_pos ⟨rfl, hbuffers⟩] at h
  exact absurd h nofun

/-- Without a mapping every file is loaded by the text engine. -/
theorem findLoader_eq : findLoader engines filename = .ok none := by
  unfold findLoader
  split
  · rfl
  · rfl

/-- On every file that can be loaded, loading with comments sees the same configuration. -/
def SeesSame (engines : Engines.St) (loaders : Nat → LoadFunc) (mallocs : Mallocs)
    (filename : CString) (file : Option (List UInt8)) : Prop :=
  ∀ cfg, spdConfigLoad engines loaders mallocs filename file = .ok (some cfg) →
    ∃ cfg', spdConfigLoadWithComments engines loaders mallocs filename file = .ok (some cfg') ∧
      cfg'.content = cfg.content

/-- Loading with comments fails on every file, so that it sees the same configuration only where
    there is none to see. -/
theorem loadWithComments_fails (engines : Engines.St) (loaders : Nat → LoadFunc)
    (mallocs : Mallocs) (filename : CString) (file : Option (List UInt8)) :
    (∀ cfg, spdConfigLoadWithComments engines loaders mallocs filename file ≠ .ok (some cfg)) ∧
      (SeesSame engines loaders mallocs filename file ↔
        ∀ cfg, spdConfigLoad engines loaders mallocs filename file ≠ .ok (some cfg)) := by
  have hfails : ∀ cfg,
      spdConfigLoadWithComments engines loaders mallocs filename file ≠ .ok (some cfg) := by
    intro cfg
    rw [spdConfigLoadWithComments, spdConfigInternalLoad, findLoader_eq, ok_bind]
    exact configTextFileLoad_withcomments {} cfg
  constructor
  · exact hfails
  · constructor
    · intro hsame cfg hload
      rcases hsame cfg hload with ⟨cfg', hload', -⟩
      exact hfails cfg' hload'
    · intro hnone cfg hload
      exact absurd hload (hnone cfg)

/-- A file with one empty section. -/
theorem loadWithComments_misses : spdConfigLoad ⟨∅, none⟩ (fun _ _ _ _ => .fault) ⟨true, some none⟩
      (lit "a.conf") (some (lit "[a]\n")) = .ok (some ⟨[{ name := lit "a" }], some 0⟩) ∧
    spdConfigLoadWithComments ⟨∅, none⟩ (fun _ _ _ _ => .fault) ⟨true, some none⟩
      (lit "a.conf") (some (lit "[a]\n")) = .ok none ∧
    ¬ SeesSame ⟨∅, none⟩ (fun _ _ _ _ => .fault) ⟨true, some none⟩ (lit "a.conf")
      (some (lit "[a]\n")) := by
  have hload : spdConfigLoad ⟨∅, none⟩ (fun _ _ _ _ => .fault) ⟨true, some none⟩
      (lit "a.conf") (some (lit "[a]\n")) = .ok (some ⟨[{ name := lit "a" }], some 0⟩) := by
    decide +kernel
  have hnull : spdConfigLoadWithComments ⟨∅, none⟩ (fun _ _ _ _ => .fault) ⟨true, some none⟩
      (lit "a.conf") (some (lit "[a]\n")) = .ok none := by
    decide +kernel
  refine ⟨hload, hnull, ?_⟩
  intro hsame
  rcases hsame _ hload with ⟨cfg', hload', -⟩
  exact absurd (hnull.symm.trans hload') nofun

end

end Spider.Config.Text
