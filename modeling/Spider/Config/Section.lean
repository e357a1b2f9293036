import Spider.Strings
import Spider.Lib.Linked
import Spider.Lib.Run

/-!
# The sections of a configuration

A configuration holds its sections in a chain, and four pointers into it:
`root`, `last`, `current` and `last_browse` (`struct spd_config`,
`config.h:63-70`). Sections are appended, deleted, browsed and made the current
one; only the deletion frees one.
-/

namespace Spider.Config.Sections

open Lib Outcome CString Strings

/-- The address of a section. -/
abbrev Addr := Nat

/-- `struct spd_section` (`config.h:51-61`); `root` is the chain of its variables. -/
structure Section where
  name : CString
  ignored : Int32
  includeLevel : Int32
  root : Option Nat
  next : Option Addr
  deriving DecidableEq, Repr

/-- `struct spd_config`. -/
structure SpdConfig where
  root : Option Addr := none
  last : Option Addr := none
  current : Option Addr := none
  lastBrowse : Option Addr := none
  includeLevel : Int32 := 0
  deriving DecidableEq, Repr

/-- The sections allocated, and a configuration. -/
structure St where
  heap : Heap Section
  cfg : SpdConfig

/-- Reading a section. -/
def deref (h : Heap Section) (a : Addr) : Outcome Section :=
  match h.get a with
  | some s => .ok s
  | none => .fault

/-- Iterations that let a loop pass every section there is and the end of the chain. -/
def St.fuel (st : St) : Nat := st.heap.dom.card + 1

/-- The search loops over the sections. -/
def St.search (st : St) (test : Addr → Section → Bool) :
    Outcome (Option Addr × Option Addr) :=
  walk Section.next st.heap test st.fuel none st.cfg.root

/-- The name of a section given to a function: some string, or the `name` field of a
    section, which the functions also compare as a pointer. -/
inductive NameArg where
  | text (s : CString)
  | nameOf (a : Addr)
  deriving DecidableEq, Repr

/-- The section's `name` field is the string passed. -/
def NameArg.isNameOf (arg : NameArg) (a : Addr) : Bool := arg == .nameOf a

/-- The string passed. -/
def NameArg.read (st : St) : NameArg → Outcome CString
  | .text s => .ok s
  | .nameOf a => do
    let s ← deref st.heap a
    .ok s.name

/-- `spd_section_new` (`config.c:231-238`) in the memory at `a`. -/
def spdSectionNew (st : St) (a : Addr) (name : CString) : Outcome St := do
  let name ← spdCopyString name 80
  .ok { st with heap := st.heap.set a ⟨name, 0, 0, none, none⟩ }

/-- `spd_section_append` (`config.c:267-276`). -/
def spdSectionAppend (st : St) (cat : Addr) : Outcome St := do
  let st ← match st.cfg.last with
    | some last => do
      let s ← deref st.heap last
      .ok { st with heap := st.heap.set last { s with next := some cat } }
    | none => .ok { st with cfg := { st.cfg with root := some cat } }
  let s ← deref st.heap cat
  let heap := st.heap.set cat { s with includeLevel := st.cfg.includeLevel }
  .ok ⟨heap, { st.cfg with last := some cat, current := some cat }⟩

/-- The body of both loops of `spd_section_delete`: the section `cat` behind `prev` is taken
    out and freed. -/
def unlink (st : St) (prev : Option Addr) (cat : Addr) : Outcome St := do
  let s ← deref st.heap cat
  let st ← match prev with
    | some p => do
      let q ← deref st.heap p
      let cfg := if st.cfg.last = some cat then { st.cfg with last := some p } else st.cfg
      .ok ⟨st.heap.set p { q with next := s.next }, cfg⟩
    | none =>
      let cfg := { st.cfg with root := s.next }
      .ok { st with cfg := if cfg.last = some cat then { cfg with last := none } else cfg }
  .ok { st with heap := st.heap.free cat }

/-- `spd_section_delete` (`config.c:486-528`). -/
def spdSectionDelete (st : St) (category : NameArg) : Outcome (Int × St) := do
  match ← st.search fun cat _ => category.isNameOf cat with
  | (prev, some cat) => do
    let st ← unlink st prev cat
    .ok (0, st)
  | (_, none) => do
    let name ← category.read st
    match ← st.search fun _ s => strcasecmp s.name name == 0 with
    | (prev, some cat) => do
      let st ← unlink st prev cat
      .ok (0, st)
    | (_, none) => .ok (-1, st)

/-- `next_available_section` (`config.c:315-320`). -/
def nextAvailableSection (st : St) (cat : Option Addr) : Outcome (Option Addr) := do
  let (_, cat) ← walk Section.next st.heap (fun _ s => s.ignored == 0) st.fuel none cat
  .ok cat

/-- A loop of `spd_section_browse`: the section behind the first that passes the test. -/
def browseFrom (st : St) (test : Addr → Section → Bool) : Outcome (Option Addr) := do
  match ← st.search test with
  | (_, some sec) => do
    let s ← deref st.heap sec
    .ok s.next
  | (_, none) => .ok none

/-- Where `spd_section_browse` goes on (`config.c:334-353`). -/
def browseStart (st : St) : Option NameArg → Outcome (Option Addr)
  | none => .ok st.cfg.root
  | some prev =>
    match st.cfg.lastBrowse.filter prev.isNameOf with
    | some b => do
      let s ← deref st.heap b
      .ok s.next
    | none => do
      match ← browseFrom st fun sec _ => prev.isNameOf sec with
      | some sec => .ok (some sec)
      | none => do
        let name ← prev.read st
        browseFrom st fun _ s => strcasecmp s.name name == 0

/-- `spd_section_browse` (`config.c:330-360`). The name returned is that of the section
    given. -/
def spdSectionBrowse (st : St) (prev : Option NameArg) : Outcome (Option Addr × St) := do
  let sec ← browseStart st prev
  let sec ← nextAvailableSection st sec
  .ok (sec, { st with cfg := { st.cfg with lastBrowse := sec } })

/-- `section_get` (`config.c:240-255`). -/
def sectionGet (st : St) (name : NameArg) (ignored : Bool) : Outcome (Option Addr) := do
  match ← st.search fun cat s => name.isNameOf cat && (ignored || s.ignored == 0) with
  | (_, some cat) => .ok (some cat)
  | (_, none) => do
    let text ← name.read st
    let (_, cat) ← st.search fun _ s =>
      strcasecmp s.name text == 0 && (ignored || s.ignored == 0)
    .ok cat

/-- `spd_variable_browse` (`config.c:168-178`): the chain of variables of a section. -/
def spdVariableBrowse (st : St) (sec : NameArg) : Outcome (Option Nat) := do
  let cat ← match st.cfg.lastBrowse.filter sec.isNameOf with
    | some b => .ok (some b)
    | none => sectionGet st sec false
  match cat with
  | some cat => do
    let s ← deref st.heap cat
    .ok s.root
  | none => .ok none

/-- `spd_config_set_current_section` (`config.c:551-555`). -/
def spdConfigSetCurrentSection (st : St) (cat : Addr) : St :=
  { st with cfg := { st.cfg with current := some cat } }

/-! ## Plain lists -/

/-- A call on the configuration. A section that is appended has just been made, in memory
    that was free, with this name and mark. -/
inductive Op where
  | append (a : Addr) (name : CString) (ignored : Int32)
  | delete (category : NameArg)
  | browse (prev : Option NameArg)
  | variableBrowse (sec : NameArg)
  | setCurrent (cat : Addr)

/-- The configuration after the call. -/
def exec (st : St) : Op → Outcome St
  | .append a name ignored => do
    let st ← spdSectionNew st a name
    let s ← deref st.heap a
    spdSectionAppend { st with heap := st.heap.set a { s with ignored := ignored } } a
  | .delete category => do
    let (_, st) ← spdSectionDelete st category
    .ok st
  | .browse prev => do
    let (_, st) ← spdSectionBrowse st prev
    .ok st
  | .variableBrowse sec => do
    let _ ← spdVariableBrowse st sec
    .ok st
  | .setCurrent cat => .ok (spdConfigSetCurrentSection st cat)

/-- The first section that passes the test. -/
def firstWhere (st : St) (ns : List Addr) (test : Addr → Section → Bool) : Option Addr :=
  ns.find? fun a => (st.heap.get a).any (test a)

/-- The section of that name: the one whose `name` field it is, or the first one with an
    equal name. -/
def named (st : St) (ns : List Addr) (category : NameArg) : Option Addr :=
  match firstWhere st ns fun cat _ => category.isNameOf cat with
  | some a => some a
  | none =>
    match category.read st with
    | .ok name => firstWhere st ns fun _ s => strcasecmp s.name name == 0
    | _ => none

/-- What the call means for the list of sections. -/
def Op.apply (st : St) (ns : List Addr) : Op → List Addr
  | .append a _ _ => ns ++ [a]
  | .delete category =>
    match named st ns category with
    | some a => ns.erase a
    | none => ns
  | .browse _ | .variableBrowse _ | .setCurrent _ => ns

/-- The configuration and its sections after a call. -/
def step (s : St × List Addr) (op : Op) : Outcome (St × List Addr) := do
  let st ← exec s.1 op
  .ok (st, op.apply s.1 s.2)

/-- A name passed can be read. -/
def NameArg.Readable (st : St) (arg : NameArg) : Prop := ∀ a, arg = .nameOf a → a ∈ st.heap.dom

/-- What the caller sees to: new sections are in free memory, names that are passed can be
    read, and the current section is set to one of the configuration. -/
def Enabled (s : St × List Addr) : Op → Prop
  | .append a _ _ => a ∉ s.1.heap.dom
  | .delete category => category.Readable s.1
  | .browse prev => ∀ arg ∈ prev, arg.Readable s.1
  | .variableBrowse sec => sec.Readable s.1
  | .setCurrent cat => cat ∈ s.2

/-- The section deleted is the current one, or the one browsed last. -/
def Forgets (s : St × List Addr) : Op → Prop
  | .delete category => ∃ a ∈ named s.1 s.2 category,
      s.1.cfg.current = some a ∨ s.1.cfg.lastBrowse = some a
  | _ => False

/-- The chain from `root` to `last` are the sections, and the other two pointers are null or
    point to one of them. -/
structure Holds (s : St × List Addr) : Prop where
  linked : Linked Section.next s.1.heap s.1.cfg.root s.1.cfg.last s.2
  current : ∀ a ∈ s.1.cfg.current, a ∈ s.2
  lastBrowse : ∀ a ∈ s.1.cfg.lastBrowse, a ∈ s.2

section

variable {h : Heap Section} {st : St} {a b : Addr} {v : Section} {first last p : Option Addr}
  {ns xs pre post : List Addr}

theorem deref_of_get (hv : h.get a = some v) : deref h a = .ok v := by
  rw [deref, hv]

theorem fuel_lt (hl : Linked Section.next st.heap first last ns) : ns.length < st.fuel :=
  Nat.lt_succ_of_le hl.length_le

theorem NameArg.read_ok {arg : NameArg} (hread : arg.Readable st) : ∃ t, arg.read st = .ok t := by
  cases arg with
  | text t => exact ⟨t, rfl⟩
  | nameOf a =>
    obtain ⟨v, hv⟩ := Heap.mem_dom.mp (hread a rfl)
    exact ⟨v.name, by rw [NameArg.read, deref_of_get hv, ok_bind]⟩

/-! ## Searches -/

/-- A search splits the list in front of what it finds. -/
theorem search_eq (hl : Linked Section.next st.heap st.cfg.root last ns)
    (test : Addr → Section → Bool) :
    ∃ pre post, ns = pre ++ post ∧ firstWhere st ns test = post.head? ∧
      st.search test = .ok (pre.getLast?, post.head?) := by
  obtain ⟨pre, post, rfl, hmiss, hhit, hwalk⟩ := hl.walk_first test (fuel_lt hl)
  exact ⟨pre, post, rfl, Linked.find?_split hmiss hhit, hwalk⟩

/-- `p` is null or a section of the list, followed by the rest of the list. -/
def Position (ns : List Addr) (p : Option Addr) : Prop :=
  ∃ pre post, ns = pre ++ post ∧ p = post.head?

theorem Position.mem (hp : Position ns p) : ∀ a ∈ p, a ∈ ns := by
  obtain ⟨pre, post, rfl, rfl⟩ := hp
  intro a ha
  exact List.mem_append_right pre (List.mem_of_mem_head? ha)

theorem position_root (hl : Linked Section.next h first last ns) : Position ns first :=
  ⟨[], ns, rfl, hl.chain.first_eq⟩

theorem position_next (hl : Linked Section.next h first last ns) (ha : a ∈ ns)
    (hv : h.get a = some v) : Position ns v.next := by
  obtain ⟨pre, post, rfl⟩ := List.append_of_mem ha
  exact ⟨pre ++ [a], post, by simp, hl.next_eq hv⟩

theorem nextAvailableSection_ok (hl : Linked Section.next st.heap first last ns)
    (hp : Position ns p) :
    ∃ q, nextAvailableSection st p = .ok q ∧ ∀ a ∈ q, a ∈ ns := by
  obtain ⟨pre, post, rfl, rfl⟩ := hp
  have hlen : post.length < st.fuel := by
    have hall := fuel_lt hl
    rw [List.length_append] at hall
    omega
  obtain ⟨as, bs, rfl, -, -, hwalk⟩ := hl.walk_eq (fun _ s => s.ignored == 0) none hlen
  refine ⟨bs.head?, ?_, ?_⟩
  · rw [nextAvailableSection, hwalk, ok_bind]
  · intro a ha
    exact List.mem_append_right _ (List.mem_append_right _ (List.mem_of_mem_head? ha))

theorem browseFrom_ok (hl : Linked Section.next st.heap st.cfg.root last ns)
    (test : Addr → Section → Bool) : ∃ q, browseFrom st test = .ok q ∧ Position ns q := by
  obtain ⟨pre, post, rfl, -, hsearch⟩ := search_eq hl test
  rw [browseFrom, hsearch, ok_bind]
  cases post with
  | nil => exact ⟨none, rfl, ⟨pre, [], rfl, rfl⟩⟩
  | cons b post =>
    obtain ⟨v, hv⟩ := hl.get (a := b) (by simp)
    simp only [List.head?_cons, deref_of_get hv, ok_bind]
    exact ⟨v.next, rfl, position_next hl (by simp) hv⟩

/-! ## The operations -/

theorem browseStart_ok {ns : List Addr} (hs : Holds (st, ns)) {prev : Option NameArg}
    (hread : ∀ arg ∈ prev, arg.Readable st) :
    ∃ q, browseStart st prev = .ok q ∧ Position ns q := by
  have hl := hs.linked
  cases prev with
  | none => exact ⟨_, rfl, position_root hl⟩
  | some prev =>
    rw [browseStart]
    cases hb : st.cfg.lastBrowse.filter prev.isNameOf with
    | some b =>
      have hmem : b ∈ ns := hs.lastBrowse b (Option.filter_eq_some_iff.mp hb).1
      obtain ⟨v, hv⟩ := hl.get hmem
      simp only [deref_of_get hv, ok_bind]
      exact ⟨v.next, rfl, position_next hl hmem hv⟩
    | none =>
      obtain ⟨q, hq, hpos⟩ := browseFrom_ok hl fun sec _ => prev.isNameOf sec
      simp only [hq, ok_bind]
      cases q with
      | some sec => exact ⟨_, rfl, hpos⟩
      | none =>
        obtain ⟨t, ht⟩ := NameArg.read_ok (hread prev rfl)
        simp only [ht, ok_bind]
        exact browseFrom_ok hl _

/-- `last_browse` becomes null or a section of the list. -/
theorem spdSectionBrowse_eq {ns : List Addr} (hs : Holds (st, ns)) {prev : Option NameArg}
    (hread : ∀ arg ∈ prev, arg.Readable st) :
    ∃ sec, spdSectionBrowse st prev
        = .ok (sec, { st with cfg := { st.cfg with lastBrowse := sec } }) ∧
      ∀ a ∈ sec, a ∈ ns := by
  obtain ⟨q, hq, hpos⟩ := browseStart_ok hs hread
  obtain ⟨sec, hsec, hmem⟩ := nextAvailableSection_ok hs.linked hpos
  refine ⟨sec, ?_, hmem⟩
  rw [spdSectionBrowse, hq, ok_bind, hsec, ok_bind]

theorem sectionGet_ok (hl : Linked Section.next st.heap st.cfg.root last ns) {name : NameArg}
    (hread : name.Readable st) (ignored : Bool) :
    ∃ q, sectionGet st name ignored = .ok q ∧ ∀ a ∈ q, a ∈ ns := by
  obtain ⟨pre, post, rfl, -, hsearch⟩ := search_eq hl fun cat s =>
    name.isNameOf cat && (ignored || s.ignored == 0)
  rw [sectionGet, hsearch, ok_bind]
  cases post with
  | cons b post =>
    refine ⟨some b, rfl, ?_⟩
    intro a ha
    obtain rfl := Option.some.inj ha
    simp
  | nil =>
    obtain ⟨t, ht⟩ := NameArg.read_ok hread
    obtain ⟨pre', post', hsplit, -, hsearch'⟩ := search_eq hl fun _ s =>
      strcasecmp s.name t == 0 && (ignored || s.ignored == 0)
    simp only [List.head?_nil, ht, ok_bind, hsearch']
    refine ⟨post'.head?, rfl, ?_⟩
    intro a ha
    rw [hsplit]
    exact List.mem_append_right pre' (List.mem_of_mem_head? ha)

/-- Looking for variables follows no dangling pointer. -/
theorem spdVariableBrowse_ok {ns : List Addr} (hs : Holds (st, ns)) {sec : NameArg}
    (hread : sec.Readable st) : ∃ p, spdVariableBrowse st sec = .ok p := by
  have hl := hs.linked
  rw [spdVariableBrowse]
  cases hb : st.cfg.lastBrowse.filter sec.isNameOf with
  | some b =>
    have hmem : b ∈ ns := hs.lastBrowse b (Option.filter_eq_some_iff.mp hb).1
    obtain ⟨v, hv⟩ := hl.get hmem
    simp only [deref_of_get hv, ok_bind]
    exact ⟨v.root, rfl⟩
  | none =>
    obtain ⟨q, hq, hmem⟩ := sectionGet_ok hl hread false
    simp only [hq, ok_bind]
    cases q with
    | none => exact ⟨none, rfl⟩
    | some b =>
      obtain ⟨v, hv⟩ := hl.get (hmem b rfl)
      simp only [deref_of_get hv, ok_bind]
      exact ⟨v.root, rfl⟩

/-- A section is taken out and freed; `current` and `last_browse` stay what they were. -/
theorem unlink_eq (hl : Linked Section.next st.heap st.cfg.root st.cfg.last (pre ++ b :: post)) :
    ∃ st', unlink st pre.getLast? b = .ok st' ∧
      Linked Section.next st'.heap st'.cfg.root st'.cfg.last (pre ++ post) ∧
      st'.cfg.current = st.cfg.current ∧ st'.cfg.lastBrowse = st.cfg.lastBrowse := by
  obtain ⟨v, hv⟩ := hl.get (a := b) (by simp)
  have hnext : v.next = linkOf Section.next st.heap b := (linkOf_of_get hv).symm
  obtain ⟨hpre, hpost⟩ := hl.chain.notMem_split
  rw [unlink, deref_of_get hv, ok_bind]
  rcases pre.eq_nil_or_concat' with rfl | ⟨pre, q, rfl⟩
  · have htail := hl.tail.free hpost
    rw [← hnext] at htail
    refine ⟨_, rfl, ?_, ?_, ?_⟩
    · by_cases hlast : st.cfg.last = some b
      · simpa [hlast] using htail
      · simpa [hlast] using htail
    · split <;> rfl
    · split <;> rfl
  · obtain ⟨w, hw⟩ := hl.get (a := q) (by simp)
    have hl' : Linked Section.next st.heap st.cfg.root st.cfg.last (pre ++ q :: b :: post) := by
      simpa using hl
    have hremove := hl'.remove (v := { w with next := v.next }) hnext
    have hb : b ∉ pre ++ q :: post := by
      simp only [List.mem_append, List.mem_cons, not_or] at hpre ⊢
      exact ⟨hpre.1, hpre.2.1, hpost⟩
    have hfree := hremove.free hb
    rw [List.append_cons] at hfree
    simp only [List.getLast?_concat, deref_of_get hw, ok_bind]
    refine ⟨_, rfl, ?_, ?_, ?_⟩
    · by_cases hlast : st.cfg.last = some b
      · simpa [hlast] using hfree
      · simpa [hlast] using hfree
    · split <;> rfl
    · split <;> rfl

/-- Deleting takes out the section of that name. -/
theorem spdSectionDelete_eq (hl : Linked Section.next st.heap st.cfg.root st.cfg.last ns)
    {category : NameArg} (hread : category.Readable st) :
    ∃ res st', spdSectionDelete st category = .ok (res, st') ∧
      Linked Section.next st'.heap st'.cfg.root st'.cfg.last (Op.apply st ns (.delete category)) ∧
      st'.cfg.current = st.cfg.current ∧ st'.cfg.lastBrowse = st.cfg.lastBrowse := by
  have herase : ∀ {pre post : List Addr} {b : Addr}, (pre ++ b :: post).Nodup →
      (pre ++ b :: post).erase b = pre ++ post := by
    intro pre post b hnodup
    have hpre : b ∉ pre := by
      intro hin
      exact (List.nodup_append.mp hnodup).2.2 b hin b (by simp) rfl
    rw [List.erase_append_right _ hpre, List.erase_cons_head]
  have hnodup := hl.chain.nodup
  obtain ⟨pre, post, rfl, hfirst, hsearch⟩ := search_eq hl fun cat _ => category.isNameOf cat
  rw [spdSectionDelete, hsearch, ok_bind, Op.apply, named, hfirst]
  cases post with
  | cons b post =>
    obtain ⟨st', hst', hl', hkeep⟩ := unlink_eq hl
    refine ⟨0, st', ?_, ?_, hkeep⟩
    · simp only [List.head?_cons, hst', ok_bind]
    · simp only [List.head?_cons]
      rw [herase hnodup]
      exact hl'
  | nil =>
    obtain ⟨t, ht⟩ := NameArg.read_ok hread
    obtain ⟨pre', post', hsplit, hfirst', hsearch'⟩ := search_eq hl fun _ s =>
      strcasecmp s.name t == 0
    simp only [List.head?_nil, ht, ok_bind, hsearch', hfirst']
    cases post' with
    | nil => exact ⟨-1, st, rfl, hl, rfl, rfl⟩
    | cons b post' =>
      rw [hsplit] at hl hnodup ⊢
      obtain ⟨st', hst', hl', hkeep⟩ := unlink_eq hl
      refine ⟨0, st', ?_, ?_, hkeep⟩
      · simp only [List.head?_cons, hst', ok_bind]
      · simp only [List.head?_cons]
        rw [herase hnodup]
        exact hl'

/-- Appending makes the section the last and the current one. -/
theorem spdSectionAppend_eq (hl : Linked Section.next st.heap st.cfg.root st.cfg.last ns)
    (ha : a ∉ ns) (hv : st.heap.get a = some v) (hnull : v.next = none) :
    ∃ st', spdSectionAppend st a = .ok st' ∧
      Linked Section.next st'.heap st'.cfg.root st'.cfg.last (ns ++ [a]) ∧
      st'.cfg.current = some a ∧ st'.cfg.lastBrowse = st.cfg.lastBrowse := by
  have hdom : a ∈ st.heap.dom := Heap.mem_dom_of_get hv
  have hnext : linkOf Section.next st.heap a = none := (linkOf_of_get hv).trans hnull
  rw [spdSectionAppend]
  cases hlast : st.cfg.last with
  | none =>
    obtain rfl : ns = [] := hl.chain.last_eq_none.mp hlast
    have hsingle : Linked Section.next st.heap (some a) (some a) [a] := .single hdom hnext
    have hsame : v.next = linkOf Section.next st.heap a := (linkOf_of_get hv).symm
    have hset := hsingle.set_same (v := { v with includeLevel := st.cfg.includeLevel }) hdom hsame
    simp only [ok_bind, deref_of_get hv]
    exact ⟨_, rfl, hset, rfl, rfl⟩
  | some l =>
    rw [hlast] at hl
    have hmem : l ∈ ns := by
      obtain ⟨ys, rfl⟩ := hl.chain.last_eq_some
      simp
    obtain ⟨w, hw⟩ := hl.get hmem
    have hal : a ≠ l := by
      rintro rfl
      exact ha hmem
    let heap' := st.heap.set l { w with next := some a }
    have hv' : heap'.get a = some v := (Heap.get_set_of_ne _ _ hal).trans hv
    have happend : Linked Section.next heap' st.cfg.root (some a) (ns ++ [a]) :=
      hl.append ha hdom hnext rfl
    have hsame : v.next = linkOf Section.next heap' a := (linkOf_of_get hv').symm
    have hset := happend.set_same (v := { v with includeLevel := st.cfg.includeLevel })
      (Heap.mem_dom_of_get hv') hsame
    simp only [deref_of_get hw, ok_bind]
    refine ⟨⟨heap'.set a { v with includeLevel := st.cfg.includeLevel },
      { st.cfg with last := some a, current := some a }⟩, ?_, hset, rfl, rfl⟩
    rw [deref_of_get hv', ok_bind]

/-! ## Runs -/

theorem exec_append_eq (hl : Linked Section.next st.heap st.cfg.root st.cfg.last ns)
    (ha : a ∉ st.heap.dom) (name : CString) (ignored : Int32) :
    ∃ st', exec st (.append a name ignored) = .ok st' ∧
      Linked Section.next st'.heap st'.cfg.root st'.cfg.last (ns ++ [a]) ∧
      st'.cfg.current = some a ∧ st'.cfg.lastBrowse = st.cfg.lastBrowse := by
  have hns : a ∉ ns := fun hin => ha (hl.alloc a hin)
  let v : Section := ⟨name.take 79, 0, 0, none, none⟩
  let st1 : St := ⟨(st.heap.set a v).set a { v with ignored := ignored }, st.cfg⟩
  have hl1 : Linked Section.next st1.heap st1.cfg.root st1.cfg.last ns :=
    (hl.alloc_cell hns v).alloc_cell hns _
  obtain ⟨st', hst', hres⟩ := spdSectionAppend_eq hl1 hns (Heap.get_set_self _ _ _) rfl
  refine ⟨st', ?_, hres⟩
  have hnew : spdSectionNew st a name = .ok ⟨st.heap.set a v, st.cfg⟩ := by
    rw [spdSectionNew, spdCopyString_eq _ (by decide), ok_bind]
  rw [exec, hnew, ok_bind, deref_of_get (Heap.get_set_self _ _ _), ok_bind]
  exact hst'

theorem step_eq {s : St × List Addr} {op : Op} {st' : St} (hexec : exec s.1 op = .ok st') :
    step s op = .ok (st', op.apply s.1 s.2) := by
  rw [step, hexec, ok_bind]

/-- What a deletion leaves: everything but the two pointers. -/
theorem exec_delete_eq (hl : Linked Section.next st.heap st.cfg.root st.cfg.last ns)
    {category : NameArg} (hread : category.Readable st) :
    ∃ st', exec st (.delete category) = .ok st' ∧
      Linked Section.next st'.heap st'.cfg.root st'.cfg.last (Op.apply st ns (.delete category)) ∧
      st'.cfg.current = st.cfg.current ∧ st'.cfg.lastBrowse = st.cfg.lastBrowse := by
  obtain ⟨res, st', hst', hkeep⟩ := spdSectionDelete_eq hl hread
  exact ⟨st', by rw [exec, hst', ok_bind], hkeep⟩

theorem step_good {s : St × List Addr} {op : Op} (hs : Holds s) (he : Enabled s op)
    (hgood : ¬ Forgets s op) : ∃ s', step s op = .ok s' ∧ Holds s' := by
  obtain ⟨st, ns⟩ := s
  have hl := hs.linked
  cases op with
  | append a name ignored =>
    obtain ⟨st', hst', hl', hcur, hbrowse⟩ := exec_append_eq hl he name ignored
    refine ⟨_, step_eq hst', hl', ?_, ?_⟩
    · intro b hb
      rw [hcur] at hb
      obtain rfl := Option.some.inj hb
      simp [Op.apply]
    · intro b hb
      rw [hbrowse] at hb
      exact List.mem_append_left _ (hs.lastBrowse b hb)
  | delete category =>
    obtain ⟨st', hst', hl', hcur, hbrowse⟩ := exec_delete_eq hl he
    -- the two pointers do not point to the section deleted
    have hkeep : ∀ b ∈ ns, (st.cfg.current = some b ∨ st.cfg.lastBrowse = some b) →
        b ∈ Op.apply st ns (.delete category) := by
      intro b hb hpoint
      rw [Op.apply]
      cases hnamed : named st ns category with
      | none => exact hb
      | some a =>
        rw [List.Nodup.mem_erase_iff hl.chain.nodup]
        refine ⟨?_, hb⟩
        rintro rfl
        exact hgood ⟨b, hnamed, hpoint⟩
    refine ⟨_, step_eq hst', hl', ?_, ?_⟩
    · intro b hb
      rw [hcur] at hb
      exact hkeep b (hs.current b hb) (Or.inl hb)
    · intro b hb
      rw [hbrowse] at hb
      exact hkeep b (hs.lastBrowse b hb) (Or.inr hb)
  | browse prev =>
    obtain ⟨sec, hsec, hmem⟩ := spdSectionBrowse_eq hs he
    have hexec : exec st (.browse prev)
        = .ok { st with cfg := { st.cfg with lastBrowse := sec } } := by
      rw [exec, hsec, ok_bind]
    exact ⟨_, step_eq hexec, hl, hs.current, hmem⟩
  | variableBrowse sec =>
    obtain ⟨p, hp⟩ := spdVariableBrowse_ok hs he
    have hexec : exec st (.variableBrowse sec) = .ok st := by rw [exec, hp, ok_bind]
    exact ⟨_, step_eq hexec, hl, hs.current, hs.lastBrowse⟩
  | setCurrent cat =>
    have hexec : exec st (.setCurrent cat) = .ok (spdConfigSetCurrentSection st cat) := rfl
    refine ⟨_, step_eq hexec, hl, ?_, hs.lastBrowse⟩
    intro b hb
    obtain rfl := Option.some.inj hb
    exact he

theorem step_bad {s s' : St × List Addr} {op : Op} (hs : Holds s) (he : Enabled s op)
    (hbad : Forgets s op) (hstep : step s op = .ok s') : ¬ Holds s' := by
  obtain ⟨st, ns⟩ := s
  have hl := hs.linked
  cases op with
  | append | browse | variableBrowse | setCurrent => exact hbad.elim
  | delete category =>
    obtain ⟨a, hnamed, hpoint⟩ := hbad
    obtain ⟨st', hst', -, hcur, hbrowse⟩ := exec_delete_eq hl he
    rw [step_eq hst'] at hstep
    obtain rfl := Outcome.ok.inj hstep
    have hgone : a ∉ Op.apply st ns (.delete category) := by
      rw [Op.apply, hnamed]
      exact hl.chain.nodup.not_mem_erase
    intro hs'
    rcases hpoint with hp | hp
    · exact hgone (hs'.current a (hcur.trans hp))
    · exact hgone (hs'.lastBrowse a (hbrowse.trans hp))

/-- The pointers into the list of sections are right in every state of a run exactly when no
    deletion of the run hits the current section or the one browsed last. -/
theorem sectionPointers_iff (ops : List Op) {s : St × List Addr} (hs : Holds s)
    (hlegal : Run.Legal step Enabled s ops) :
    Run.Always step Holds s ops ↔ Run.Legal step (fun s op => ¬ Forgets s op) s ops :=
  Run.always_iff (fun _ _ => step_good) (fun _ _ _ => step_bad) ops hs hlegal

end

/-! ## A section deleted while it is the current one -/

/-- A new configuration. -/
def newConfig : St × List Addr := (⟨(∅ : Heap Section), {}⟩, [])

theorem newConfig_holds : Holds newConfig := ⟨.nil _, by simp [newConfig], by simp [newConfig]⟩

/-- A section is appended, and deleted by its name. -/
def appendDelete : List Op := [.append 1 (lit "a") 0, .delete (.text (lit "A"))]

/-- `current` still points to the section that has been freed. -/
theorem sectionPointers_dangle : Holds newConfig ∧ Run.Legal step Enabled newConfig appendDelete ∧
    ∃ s, Run.run step newConfig appendDelete = .ok s ∧ s.2 = [] ∧ s.1.cfg.root = none ∧
      s.1.cfg.current = some 1 ∧ s.1.heap.get 1 = none ∧ ¬ Holds s := by
  let v : Section := ⟨lit "a", 0, 0, none, none⟩
  let s1 : St × List Addr :=
    (⟨(∅ : Heap Section).set 1 v, { root := some 1, last := some 1, current := some 1 }⟩, [1])
  let s2 : St × List Addr := (⟨s1.1.heap.free 1, { current := some 1 }⟩, [])
  have e1 : step newConfig (.append 1 (lit "a") 0) = .ok s1 := by with_unfolding_all rfl
  have e2 : step s1 (.delete (.text (lit "A"))) = .ok s2 := by with_unfolding_all rfl
  refine ⟨newConfig_holds, ?_, s2, ?_, rfl, rfl, rfl, by with_unfolding_all rfl, ?_⟩
  · refine Run.legal_cons_of_ok e1 ?_ ⟨?_, fun _ _ => trivial⟩
    · exact Heap.get_eq_none.mp (Heap.get_empty 1)
    · intro a ha
      cases ha
  · rw [appendDelete, Run.run_cons_of_ok e1, Run.run_cons_of_ok e2, Run.run_nil]
  · intro hs
    have hmem := hs.current 1 rfl
    cases hmem

/-- Two sections are appended, the first one is browsed and made the current one, and the
    second one deleted. -/
def deleteOther : List Op :=
  [.append 1 (lit "a") 0, .append 2 (lit "b") 0, .browse none, .setCurrent 1,
    .delete (.text (lit "b"))]

theorem sectionPointers_iff_deleteOther : Run.Always step Holds newConfig deleteOther := by
  let v (s : String) (next : Option Addr) : Section := ⟨lit s, 0, 0, none, next⟩
  let h1 : Heap Section := (∅ : Heap Section).set 1 (v "a" none)
  let h2 : Heap Section := (h1.set 1 (v "a" (some 2))).set 2 (v "b" none)
  let s1 : St × List Addr := (⟨h1, { root := some 1, last := some 1, current := some 1 }⟩, [1])
  let s2 : St × List Addr :=
    (⟨h2, { root := some 1, last := some 2, current := some 2 }⟩, [1, 2])
  let s3 : St × List Addr :=
    (⟨h2, { root := some 1, last := some 2, current := some 2, lastBrowse := some 1 }⟩, [1, 2])
  let s4 : St × List Addr :=
    (⟨h2, { root := some 1, last := some 2, current := some 1, lastBrowse := some 1 }⟩, [1, 2])
  have e1 : step newConfig (.append 1 (lit "a") 0) = .ok s1 := by with_unfolding_all rfl
  have e2 : step s1 (.append 2 (lit "b") 0) = .ok s2 := by with_unfolding_all rfl
  have e3 : step s2 (.browse none) = .ok s3 := by with_unfolding_all rfl
  have e4 : step s3 (.setCurrent 1) = .ok s4 := by with_unfolding_all rfl
  refine (sectionPointers_iff deleteOther newConfig_holds ?_).mpr ?_
  · refine Run.legal_cons_of_ok e1 ?_ (Run.legal_cons_of_ok e2 ?_ (Run.legal_cons_of_ok e3 ?_
      (Run.legal_cons_of_ok e4 ?_ ⟨?_, fun _ _ => trivial⟩)))
    · exact Heap.get_eq_none.mp (Heap.get_empty 1)
    · exact Heap.get_eq_none.mp (by with_unfolding_all rfl)
    · intro a ha
      cases ha
    · exact List.mem_cons_self
    · intro a ha
      cases ha
  · refine Run.legal_cons_of_ok e1 id (Run.legal_cons_of_ok e2 id (Run.legal_cons_of_ok e3 id
      (Run.legal_cons_of_ok e4 id ⟨?_, fun _ _ => trivial⟩)))
    have hnamed : named s4.1 s4.2 (.text (lit "b")) = some 2 := by with_unfolding_all rfl
    rintro ⟨a, ha, hpoint⟩
    obtain rfl := Option.some.inj (hnamed.symm.trans ha)
    simp [s4] at hpoint

end Spider.Config.Sections
