import Spider.Lib.CString

/-!
# Configurations as text

The sections of a configuration with their variables (`config.h:26-63`), as the
text engine fills them in and writes them out. The chains are plain lists: what
is in them is what matters here, and `spd_variable_append` and
`spd_section_append` keep them so. `lineno` and `include_level` are left out;
the first is only for messages, the second only decides when buffers are freed.
-/

namespace Spider.Config.Text

open Lib CString

/-- `struct spd_variable`; the comments are the texts of the two chains. -/
structure Variable where
  name : CString
  value : CString
  object : Bool
  blanklines : Nat := 0
  prev : List CString := []
  sameline : List CString := []
  deriving DecidableEq, Repr

/-- `struct spd_section_template_instance`, with the variables of the section it points to. -/
structure TemplateInstance where
  name : CString
  inst : List Variable
  deriving DecidableEq, Repr

/-- `struct spd_section`. -/
structure Section where
  name : CString
  ignored : Bool := false
  templateInstances : List TemplateInstance := []
  prev : List CString := []
  sameline : List CString := []
  root : List Variable := []
  deriving DecidableEq, Repr

/-- `struct spd_config`; `current` is a position in `root`. -/
structure SpdConfig where
  root : List Section := []
  current : Option Nat := none
  deriving DecidableEq, Repr

/-! ## The texts that `config_text_file_save` prints, one for each `fprintf` -/

/-- The header (`config.c:938-946`). -/
def headerTexts (configfile fn generator date : CString) : List CString :=
  [lit ";!\n",
    lit ";! Automatically generated configuration file\n",
    if configfile ≠ fn then lit ";! Filename: " ++ configfile ++ lit " (" ++ fn ++ lit ")\n"
    else lit ";! Filename: " ++ configfile ++ lit "\n",
    lit ";! Generator: " ++ generator ++ lit "\n",
    lit ";! Creation Date: " ++ date,
    lit ";!\n"]

/-- The loops over `prev` (`config.c:950-954` and `998-1002`). -/
def prevTexts (prev : List CString) : List CString :=
  prev.filter fun buf => buf.take 2 ≠ lit ";!"

/-- The loop over the names of the templates (`config.c:967-971`). -/
def templateTexts : List TemplateInstance → List CString
  | [] => []
  | [x] => [x.name]
  | x :: xs => x.name :: lit "," :: templateTexts xs

/-- A section without its variables (`config.c:950-980`). -/
def headTexts (cat : Section) : List CString :=
  prevTexts cat.prev ++
  (if cat.prev = [] then [lit "\n"] else []) ++
  [lit "[" ++ cat.name ++ lit "]"] ++
  (if cat.ignored ∨ cat.templateInstances ≠ [] then
    [lit "("] ++
    (if cat.ignored then [lit "!"] else []) ++
    (if cat.ignored ∧ cat.templateInstances ≠ [] then [lit ","] else []) ++
    templateTexts cat.templateInstances ++
    [lit ")"]
  else []) ++
  cat.sameline ++
  (if cat.sameline = [] then [lit "\n"] else [])

/-- The variable comes from a template unchanged (`config.c:984-997`). -/
def inherited (cat : Section) (var : Variable) : Bool :=
  cat.templateInstances.any fun x =>
    match x.inst.find? fun v2 => strcasecmp var.name v2.name == 0 with
    | some v2 => v2.value == var.value
    | none => false

/-- A variable (`config.c:998-1015`). -/
def variableTexts (cat : Section) (var : Variable) : List CString :=
  let line := var.name ++ lit " " ++ (if var.object then lit "=>" else lit "=") ++ lit " " ++
    var.value
  if inherited cat var then []
  else
    prevTexts var.prev ++
    (match var.sameline with
    | buf :: _ => [line ++ lit "  " ++ buf]
    | [] => [line ++ lit "\n"]) ++
    List.replicate var.blanklines (lit "\n")

def sectionTexts (cat : Section) : List CString :=
  headTexts cat ++ cat.root.flatMap (variableTexts cat)

/-- Everything that is printed. -/
def saveTexts (configfile fn generator date : CString) (cfg : SpdConfig) : List CString :=
  headerTexts configfile fn generator date ++ cfg.root.flatMap sectionTexts

end Spider.Config.Text
