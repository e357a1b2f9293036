import Spider.Config.Section
import Spider.Config.Variable

/-!
# Looking a variable up

`spd_variable_retrive` looks in the section that `spd_variable_browse` gives it,
or, without a section, in all of them; `spd_config_option` looks in the section
`general` as well (`config.c:168-209`). The variables of the sections share one
heap, and each section has its own chain in it.
-/

namespace Spider.Config.Retrieve

open Lib Outcome CString

/-- A configuration with its sections and their variables. The field `last` of
    `struct spd_section` is kept beside the sections. -/
structure SpdConfig where
  sections : Sections.St
  last : Sections.Addr → Option Addr
  heap : Heap Variable

/-- Iterations that let a loop pass every variable there is and the end of the chain. -/
def SpdConfig.fuel (config : SpdConfig) : Nat := config.heap.dom.card + 1

/-- The loop over the variables of a section: a field of the first one of that name. -/
def variableLoop (h : Heap Variable) (name : CString) (field : Variable → CString) :
    Nat → Option Addr → Outcome (Option CString)
  | 0, _ => .timeout
  | _ + 1, none => .ok none
  | fuel + 1, some a => do
    let v ← deref h a
    if strcasecmp name v.name = 0 then .ok (some (field v))
    else variableLoop h name field fuel v.next

/-- The loop over the sections. -/
def sectionLoop (config : SpdConfig) (name : CString) :
    Nat → Option Sections.Addr → Outcome (Option CString)
  | 0, _ => .timeout
  | _ + 1, none => .ok none
  | fuel + 1, some cat => do
    let s ← Sections.deref config.sections.heap cat
    match ← variableLoop config.heap name Variable.value config.fuel s.root with
    | some value => .ok (some value)
    | none => sectionLoop config name fuel s.next

/-- `spd_variable_retrive` (`config.c:190-209`). With a section it returns `v->name`, without
    one `v->value`. -/
def spdVariableRetrive (config : SpdConfig) (sec : Option Sections.NameArg) (name : CString) :
    Outcome (Option CString) :=
  match sec with
  | some sec => do
    let root ← Sections.spdVariableBrowse config.sections sec
    variableLoop config.heap name Variable.name config.fuel root
  | none => sectionLoop config name config.sections.fuel config.sections.cfg.root

/-- `spd_config_option` (`config.c:180-188`). -/
def spdConfigOption (config : SpdConfig) (cat : Option Sections.NameArg) (var : CString) :
    Outcome (Option CString) := do
  match ← spdVariableRetrive config cat var with
  | some tmp => .ok (some tmp)
  | none => spdVariableRetrive config (some (.text (lit "general"))) var

/-- `spd_variable_update` on a section of the configuration. -/
def updateSection (config : SpdConfig) (cat : Sections.Addr) (newer : Option Addr)
    (name value : CString) (mtch : Option CString) (object : UInt32) :
    Outcome (Int × SpdConfig) := do
  let s ← Sections.deref config.sections.heap cat
  let (res, st) ← spdVariableUpdate ⟨config.heap, ⟨s.root, config.last cat⟩⟩ newer name value
    mtch object
  let heap := config.sections.heap.set cat { s with root := st.category.root }
  .ok (res, ⟨{ config.sections with heap := heap },
    Function.update config.last cat st.category.last, st.heap⟩)

/-! ## Plain lists -/

/-- The chain from `root` holds the variables `ns`; where `last` points does not matter. -/
def Variables (h : Heap Variable) (root : Option Addr) (ns : List Node) : Prop :=
  ChainOf h ⟨root, (ns.map Node.addr).getLast?⟩ ns

/-- The sections are `ns`, each one allocated has a chain of variables, and no variable is in
    two chains. -/
structure Holds (config : SpdConfig) (ns : List Sections.Addr)
    (vs : Sections.Addr → List Node) : Prop where
  linked : Linked Sections.Section.next config.sections.heap config.sections.cfg.root ns.getLast? ns
  chains : ∀ a s, config.sections.heap.get a = some s → Variables config.heap s.root (vs a)
  disjoint : ∀ a ∈ config.sections.heap.dom, ∀ b ∈ config.sections.heap.dom, a ≠ b →
    ((vs a).map Node.addr).Disjoint ((vs b).map Node.addr)

/-- The first variable of that name. -/
def firstNamed (name : CString) (ns : List Node) : Option Node :=
  ns.find? fun n => strcasecmp name n.name = 0

/-- The value that should be found: that of the first variable of the name in the section that
    `spd_section_get` finds, or in the first section that has one. -/
def lookup (config : SpdConfig) (ns : List Sections.Addr) (vs : Sections.Addr → List Node)
    (sec : Option Sections.NameArg) (name : CString) : Outcome (Option CString) :=
  match sec with
  | some sec => do
    let cat ← Sections.sectionGet config.sections sec false
    .ok ((cat.bind fun a => firstNamed name (vs a)).map Node.value)
  | none => .ok ((ns.findSome? fun a => firstNamed name (vs a)).map Node.value)

/-- The same lookup in the section `general` when there is nothing in this one. -/
def lookupOption (config : SpdConfig) (ns : List Sections.Addr) (vs : Sections.Addr → List Node)
    (cat : Option Sections.NameArg) (var : CString) : Outcome (Option CString) := do
  match ← lookup config ns vs cat var with
  | some tmp => .ok (some tmp)
  | none => lookup config ns vs (some (.text (lit "general"))) var

section

variable {config : SpdConfig} {ns : List Sections.Addr} {vs : Sections.Addr → List Node}
  {h : Heap Variable} {root last : Option Addr} {nodes : List Node} {name : CString}
  {st : Sections.St} {sec : Sections.NameArg}

/-! ## The loops -/

theorem variableLoop_eq {field : Variable → CString} {view : Node → CString}
    (hfield : ∀ n p, field ⟨n.name, n.value, n.object, p⟩ = view n) {pre : List Node} {k : Nat}
    (hc : Variables h root (pre ++ nodes)) (hk : nodes.length < k) :
    variableLoop h name field k (nodes.head?.map Node.addr)
      = .ok ((firstNamed name nodes).map view) := by
  induction nodes generalizing pre k with
  | nil =>
    obtain ⟨k, rfl⟩ : ∃ j, k = j + 1 := ⟨k - 1, by omega⟩
    rfl
  | cons n nodes ih =>
    obtain ⟨k, rfl⟩ : ∃ j, k = j + 1 := ⟨k - 1, by omega⟩
    have hn := hc.cells n (by simp)
    rw [List.head?_cons, Option.map_some, variableLoop, deref_of_get hn, ok_bind, firstNamed]
    by_cases hname : strcasecmp name n.name = 0
    · rw [if_pos hname, List.find?_cons_of_pos (by simpa using hname), hfield, Option.map_some]
    · have hc' : Variables h root (pre ++ [n] ++ nodes) := by simpa using hc
      rw [if_neg hname, List.find?_cons_of_neg (by simpa using hname), hc.nextOf_eq]
      exact ih hc' (by simpa using hk)

/-- The loop over the variables of an allocated section. -/
theorem Holds.variableLoop_eq (hs : Holds config ns vs) {a : Sections.Addr} {s : Sections.Section}
    (ha : config.sections.heap.get a = some s) {field : Variable → CString}
    {view : Node → CString} (hfield : ∀ n p, field ⟨n.name, n.value, n.object, p⟩ = view n) :
    variableLoop config.heap name field config.fuel s.root
      = .ok ((firstNamed name (vs a)).map view) := by
  have hc : Variables config.heap s.root ([] ++ vs a) := hs.chains a s ha
  have hroot : s.root = (vs a).head?.map Node.addr := by
    rw [← List.head?_map]
    exact hc.chain.first_eq
  rw [hroot]
  exact Retrieve.variableLoop_eq hfield hc (Nat.lt_succ_of_le hc.length_le)

theorem sectionLoop_eq {pre post : List Sections.Addr} (hs : Holds config (pre ++ post) vs)
    {k : Nat} (hk : post.length < k) : sectionLoop config name k post.head?
      = .ok ((post.findSome? fun a => firstNamed name (vs a)).map Node.value) := by
  induction post generalizing pre k with
  | nil =>
    obtain ⟨k, rfl⟩ : ∃ j, k = j + 1 := ⟨k - 1, by omega⟩
    rfl
  | cons a post ih =>
    obtain ⟨k, rfl⟩ : ∃ j, k = j + 1 := ⟨k - 1, by omega⟩
    obtain ⟨s, ha⟩ := hs.linked.get (a := a) (by simp)
    have hvalue : ∀ (n : Node) p, Variable.value ⟨n.name, n.value, n.object, p⟩ = n.value :=
      fun _ _ => rfl
    rw [List.head?_cons, sectionLoop, Sections.deref_of_get ha, ok_bind,
      hs.variableLoop_eq ha hvalue, ok_bind]
    cases hfirst : firstNamed name (vs a) with
    | some n => rw [List.findSome?_cons_of_isSome (by simp [hfirst]), hfirst]; rfl
    | none =>
      have hs' : Holds config (pre ++ [a] ++ post) vs := by simpa using hs
      rw [List.findSome?_cons_of_isNone (by simp [hfirst]), Option.map_none, hs.linked.next_eq ha]
      exact ih hs' (by simpa using hk)

/-! ## The section looked in -/

/-- The section that `spd_section_get` finds. -/
def found (st : Sections.St) (ns : List Sections.Addr) (sec : Sections.NameArg) :
    Option Sections.Addr :=
  match Sections.firstWhere st ns fun cat s => sec.isNameOf cat && (false || s.ignored == 0) with
  | some a => some a
  | none =>
    match sec.read st with
    | .ok text => Sections.firstWhere st ns fun _ s =>
        strcasecmp s.name text == 0 && (false || s.ignored == 0)
    | _ => none

/-- The section that `spd_variable_browse` takes. -/
def browsed (st : Sections.St) (ns : List Sections.Addr) (sec : Sections.NameArg) :
    Option Sections.Addr :=
  (st.cfg.lastBrowse.filter sec.isNameOf).or (found st ns sec)

theorem sectionGet_eq (hl : Linked Sections.Section.next st.heap st.cfg.root last ns)
    (hread : sec.Readable st) : Sections.sectionGet st sec false = .ok (found st ns sec) := by
  obtain ⟨pre, post, -, hfirst, hsearch⟩ := Sections.search_eq hl fun cat s =>
    sec.isNameOf cat && (false || s.ignored == 0)
  rw [Sections.sectionGet, hsearch, ok_bind, found, hfirst]
  cases post with
  | cons b post => rfl
  | nil =>
    obtain ⟨t, ht⟩ := Sections.NameArg.read_ok hread
    obtain ⟨pre', post', -, hfirst', hsearch'⟩ := Sections.search_eq hl fun _ s =>
      strcasecmp s.name t == 0 && (false || s.ignored == 0)
    simp only [List.head?_nil, ht, ok_bind, hsearch', hfirst']

theorem found_mem_dom {a : Sections.Addr} (h : found st ns sec = some a) : a ∈ st.heap.dom := by
  have hfirst : ∀ {test : Sections.Addr → Sections.Section → Bool},
      Sections.firstWhere st ns test = some a → a ∈ st.heap.dom := by
    intro test ha
    rw [Sections.firstWhere, List.find?_eq_some_iff_append] at ha
    obtain ⟨s, hs, -⟩ := (Option.any_eq_true _ _).mp ha.1
    exact Heap.mem_dom_of_get hs
  rw [found] at h
  split at h
  · next b hb =>
    obtain rfl := Option.some.inj h
    exact hfirst hb
  · split at h
    · exact hfirst h
    · cases h

theorem browsed_mem_dom (hread : sec.Readable st) {a : Sections.Addr}
    (h : browsed st ns sec = some a) : a ∈ st.heap.dom := by
  rw [browsed] at h
  cases hb : st.cfg.lastBrowse.filter sec.isNameOf with
  | none =>
    rw [hb, Option.none_or] at h
    exact found_mem_dom h
  | some b =>
    rw [hb, Option.some_or] at h
    obtain rfl := Option.some.inj h
    have hname := (Option.filter_eq_some_iff.mp hb).2
    exact hread b (by simpa [Sections.NameArg.isNameOf] using hname)

theorem spdVariableBrowse_eq (hl : Linked Sections.Section.next st.heap st.cfg.root last ns)
    (hread : sec.Readable st) : Sections.spdVariableBrowse st sec = .ok
      ((browsed st ns sec).bind fun a => (st.heap.get a).bind Sections.Section.root) := by
  rw [Sections.spdVariableBrowse, browsed]
  have hroot : ∀ {a : Sections.Addr}, a ∈ st.heap.dom → ∃ s, st.heap.get a = some s ∧
      Sections.deref st.heap a = .ok s := by
    intro a ha
    obtain ⟨s, hs⟩ := Heap.mem_dom.mp ha
    exact ⟨s, hs, Sections.deref_of_get hs⟩
  cases hb : st.cfg.lastBrowse.filter sec.isNameOf with
  | some a =>
    have hname := (Option.filter_eq_some_iff.mp hb).2
    obtain ⟨s, hs, hderef⟩ := hroot (hread a (by simpa [Sections.NameArg.isNameOf] using hname))
    simp only [ok_bind, hderef, Option.some_or, Option.bind_some, hs]
  | none =>
    simp only [sectionGet_eq hl hread, ok_bind, Option.none_or]
    cases hf : found st ns sec with
    | none => rfl
    | some a =>
      obtain ⟨s, hs, hderef⟩ := hroot (found_mem_dom hf)
      simp only [hderef, ok_bind, Option.bind_some, hs]

/-! ## What an update stores -/

section Update

variable {st r : St} {pre post : List Node} {a : Addr} {value : CString} {mtch : Option CString}
  {object : UInt32}

theorem setNext_setLast {p : Addr} {q l : Option Addr} (h : st.setNext p q = .ok r) :
    (st.setLast l).setNext p q = .ok (r.setLast l) := by
  obtain ⟨v, hv, hr⟩ := bind_eq_ok.mp h
  obtain rfl := Outcome.ok.inj hr
  exact bind_eq_ok.mpr ⟨v, hv, rfl⟩

theorem destroyOne_setLast {p : Addr} {l : Option Addr} (h : destroyOne st p = .ok r) :
    destroyOne (st.setLast l) p = .ok (r.setLast l) := by
  obtain ⟨st1, h1, h⟩ := bind_eq_ok.mp h
  obtain ⟨g, hg, hr⟩ := bind_eq_ok.mp h
  obtain rfl := Outcome.ok.inj hr
  exact bind_eq_ok.mpr ⟨_, setNext_setLast h1, bind_eq_ok.mpr ⟨g, hg, rfl⟩⟩

theorem ite_setLast (c : Prop) [Decidable c] (p : Option Addr) :
    (if c then st.setLast p else st) = st.setLast (if c then p else st.category.last) := by
  split <;> rfl

/-- The end of the loop at a match. -/
theorem destroy_setLast {cur p : Addr} (l : Option Addr)
    (h : destroyOne (if st.category.last = some cur then st.setLast (some p) else st) cur = .ok r) :
    ∃ l', destroyOne (if l = some cur then (st.setLast l).setLast (some p) else st.setLast l) cur
      = .ok (r.setLast l') := by
  have hsame : ∃ l', (if l = some cur then (st.setLast l).setLast (some p) else st.setLast l)
      = (if st.category.last = some cur then st.setLast (some p) else st).setLast l' := by
    rw [ite_setLast, ite_setLast]
    exact ⟨_, rfl⟩
  obtain ⟨l', hl'⟩ := hsame
  exact ⟨l', hl' ▸ destroyOne_setLast h⟩

/-- Where `last` points makes no difference to the chain from `root`. -/
theorem updateLoop_setLast {k : Nat} {prev cur : Option Addr} (l : Option Addr)
    (h : updateLoop a name value mtch object k st prev cur = .ok r) :
    ∃ l', updateLoop a name value mtch object k (st.setLast l) prev cur = .ok (r.setLast l') := by
  induction k generalizing prev cur with
  | zero => cases h
  | succ k ih =>
    cases cur with
    | none =>
      cases prev with
      | none =>
        obtain rfl := Outcome.ok.inj h
        exact ⟨l, rfl⟩
      | some p => exact ⟨l, setNext_setLast h⟩
    | some cur =>
      rw [updateLoop] at h ⊢
      obtain ⟨v, hv, h⟩ := bind_eq_ok.mp h
      have hv' : deref (st.setLast l).heap cur = .ok v := hv
      rw [hv', ok_bind]
      split at h
      · next hmatch =>
        rw [if_pos hmatch]
        cases prev with
        | none => exact destroy_setLast l h
        | some p =>
          obtain ⟨st1, h1, h⟩ := bind_eq_ok.mp h
          obtain ⟨l', hl'⟩ := destroy_setLast l h
          refine ⟨l', bind_eq_ok.mpr ⟨st1.setLast l, setNext_setLast h1, hl'⟩⟩
      · next hmatch =>
        rw [if_neg hmatch]
        exact ih h

theorem setNext_frame {p b : Addr} {q : Option Addr} (h : st.setNext p q = .ok r) (hb : b ≠ p) :
    r.heap.get b = st.heap.get b := by
  obtain ⟨v, hv, hr⟩ := bind_eq_ok.mp h
  obtain rfl := Outcome.ok.inj hr
  exact Heap.get_set_of_ne _ _ hb

theorem destroyOne_frame {p b : Addr} (h : destroyOne st p = .ok r) (hb : b ≠ p) :
    r.heap.get b = st.heap.get b := by
  obtain ⟨v, hv⟩ : ∃ v, st.heap.get p = some v := by
    obtain ⟨st1, h1, -⟩ := bind_eq_ok.mp h
    obtain ⟨v, hv, -⟩ := bind_eq_ok.mp h1
    rw [deref] at hv
    split at hv
    · exact ⟨_, ‹_›⟩
    · cases hv
  rw [destroyOne_eq hv] at h
  obtain rfl := Outcome.ok.inj h
  exact Heap.get_free_of_ne _ hb

theorem destroy_frame {cur p b : Addr} (hb : b ≠ cur)
    (h : destroyOne (if st.category.last = some cur then st.setLast (some p) else st) cur = .ok r) :
    r.heap.get b = st.heap.get b := by
  have hframe := destroyOne_frame h hb
  rw [ite_setLast] at hframe
  exact hframe

/-- Variables outside the chain, other than the new one, are left alone. -/
theorem updateLoop_frame {k : Nat} {prev cur : Option Addr} {chain : List Addr}
    (hclosed : ∀ x ∈ chain, ∀ v, st.heap.get x = some v → ∀ y ∈ v.next, y ∈ chain)
    (hprev : ∀ p ∈ prev, p ∈ chain) (hcur : ∀ c ∈ cur, c ∈ chain)
    (h : updateLoop a name value mtch object k st prev cur = .ok r) {b : Addr} (hb : b ∉ chain)
    (hba : b ≠ a) : r.heap.get b = st.heap.get b := by
  have hne : ∀ {x : Addr}, x ∈ chain → b ≠ x := fun hx heq => hb (heq ▸ hx)
  induction k generalizing prev cur with
  | zero => cases h
  | succ k ih =>
    cases cur with
    | none =>
      cases prev with
      | none =>
        obtain rfl := Outcome.ok.inj h
        rfl
      | some p => exact setNext_frame h (hne (hprev p rfl))
    | some cur =>
      have hmem := hcur cur rfl
      rw [updateLoop] at h
      obtain ⟨v, hv, h⟩ := bind_eq_ok.mp h
      have hv' : st.heap.get cur = some v := by
        rw [deref] at hv
        split at hv
        · rwa [← Outcome.ok.inj hv]
        · cases hv
      split at h
      · have hset : ∀ w, (st.heap.set a w).get b = st.heap.get b := fun w =>
          Heap.get_set_of_ne _ w hba
        cases prev with
        | none => exact (destroy_frame (hne hmem) h).trans (hset _)
        | some p =>
          obtain ⟨st1, h1, h⟩ := bind_eq_ok.mp h
          exact (destroy_frame (hne hmem) h).trans
            ((setNext_frame h1 (hne (hprev p rfl))).trans (hset _))
      · refine ih ?_ ?_ h
        · intro p hp
          obtain rfl := Option.some.inj hp
          exact hmem
        · exact hclosed cur hmem v hv'

/-- The loop of an update that finds no match puts the new variable behind the last one. -/
theorem updateLoop_append {k : Nat} (hc : Variables st.heap st.category.root (pre ++ post))
    (hk : post.length < k) (ha : a ∉ (pre ++ post).map Node.addr)
    (hcell : st.heap.get a = some ⟨name, value, object.toInt32, none⟩)
    (hmiss : ∀ n ∈ post, n.Matches name mtch = false) :
    ∃ r, updateLoop a name value mtch object k st (pre.getLast?.map Node.addr)
        (post.head?.map Node.addr) = .ok r ∧
      Variables r.heap r.category.root (pre ++ updateList a name value mtch object post) := by
  induction post generalizing pre k with
  | nil =>
    obtain ⟨k, rfl⟩ : ∃ j, k = j + 1 := ⟨k - 1, by omega⟩
    have hnull : nextOf st.heap a = none := by rw [nextOf, hcell, Option.bind_some]
    have hnew : Chain (nextOf st.heap) (some a) (some a) [a] := ⟨⟨rfl, hnull⟩, rfl, by simp⟩
    rcases pre.eq_nil_or_concat' with rfl | ⟨pre, q, rfl⟩
    · refine ⟨_, rfl, .of_cells hnew ?_⟩
      intro n hn
      obtain rfl := List.mem_singleton.mp hn
      exact ⟨_, hcell⟩
    · have hq := hc.cells q (by simp)
      rw [List.append_nil] at hc ha
      have haq : a ≠ q.addr := fun heq => ha (by simp [heq])
      rw [List.getLast?_concat, Option.map_some]
      refine ⟨_, setNext_eq hq _, .of_cells ?_ ?_⟩
      · have hchain := hc.chain
        rw [List.map_append, List.map_singleton, List.getLast?_concat] at hchain
        have hdisj : (pre.map Node.addr ++ [q.addr]).Disjoint [a] := by
          rw [List.disjoint_singleton]
          simpa using ha
        have happend := hchain.append hnew (by simp) hdisj
        rw [← nextOf_set _ _ ⟨q.name, q.value, q.object, some a⟩] at happend
        simpa [updateList] using happend
      · intro n hn
        rcases List.mem_append.mp hn with hin | hin
        · exact hc.cells_set (by simp) (some a) n hin
        · obtain rfl := List.mem_singleton.mp hin
          exact ⟨_, (Heap.get_set_of_ne _ _ haq).trans hcell⟩
  | cons n post ih =>
    obtain ⟨k, rfl⟩ : ∃ j, k = j + 1 := ⟨k - 1, by omega⟩
    have hn := hc.cells n (by simp)
    have hm := hmiss n (by simp)
    have hcond : ¬ nameMatches n.name n.value name mtch = true := by
      rw [Node.Matches] at hm
      simp [hm]
    have hc' : Variables st.heap st.category.root (pre ++ [n] ++ post) := by simpa using hc
    have hih := ih hc' (by simpa using hk) (by simpa using ha) fun m hm =>
      hmiss m (List.mem_cons_of_mem n hm)
    rw [List.getLast?_concat, Option.map_some, List.append_assoc, List.singleton_append] at hih
    simp only [List.head?_cons, Option.map_some, updateLoop, deref_of_get hn, ok_bind,
      hc.nextOf_eq, if_neg hcond, updateList, hm, Bool.false_eq_true, if_false]
    exact hih

/-- An update keeps the chain from `root`, with the new value in it, and the variables outside. -/
theorem spdVariableUpdate_eq {ns : List Node} (hc : Variables st.heap st.category.root ns)
    (ha : a ∉ st.heap.dom) (name value : CString) (mtch : Option CString) (object : UInt32) :
    ∃ r, spdVariableUpdate st (some a) name value mtch object = .ok (0, r) ∧
      Variables r.heap r.category.root (updateList a name value mtch object ns) ∧
      ∀ b, b ∉ ns.map Node.addr → b ≠ a → r.heap.get b = st.heap.get b := by
  let v : Variable := ⟨name, value, object.toInt32, none⟩
  let st1 : St := ⟨st.heap.set a v, st.category⟩
  have hc1 : Variables st1.heap st1.category.root ([] ++ ns) := ChainOf.alloc hc ha v
  have hnot : a ∉ ([] ++ ns).map Node.addr := by
    intro hmem
    obtain ⟨n, hn, rfl⟩ := List.mem_map.mp hmem
    exact ha (hc.mem_dom hn)
  have hroot : st1.category.root = ns.head?.map Node.addr := by
    rw [← List.head?_map]
    exact hc.chain.first_eq
  have hloop : ∃ r,
      updateLoop a name value mtch object st1.fuel st1 none st1.category.root = .ok r ∧
      Variables r.heap r.category.root (updateList a name value mtch object ns) := by
    rw [hroot]
    have hfuel : ns.length < st1.fuel := Nat.lt_succ_of_le hc1.length_le
    by_cases hhit : ∃ n ∈ ns, n.Matches name mtch = true
    · let st2 : St := st1.setLast (ns.map Node.addr).getLast?
      have hc2 : ChainOf st2.heap st2.category ([] ++ ns) := hc1
      obtain ⟨r, hr, hchain⟩ := updateLoop_hit value object hc2 hfuel hnot hhit
      obtain ⟨l', hl'⟩ := updateLoop_setLast st1.category.last hr
      exact ⟨r.setLast l', hl', ⟨hchain.chain.seg, rfl, hchain.chain.nodup⟩, hchain.cells⟩
    · refine updateLoop_append hc1 hfuel hnot (Heap.get_set_self _ _ _) ?_
      intro n hn
      cases hm : n.Matches name mtch with
      | true => exact absurd ⟨n, hn, hm⟩ hhit
      | false => rfl
  obtain ⟨r, hr, hres⟩ := hloop
  refine ⟨r, ?_, hres, ?_⟩
  · change (updateLoop a name value mtch object st1.fuel st1 none st1.category.root >>= _) = _
    rw [hr, ok_bind]
  · intro b hb hba
    have hclosed : ∀ x ∈ ns.map Node.addr, ∀ w, st1.heap.get x = some w →
        ∀ y ∈ w.next, y ∈ ns.map Node.addr := by
      intro x hx w hw y hy
      obtain ⟨n, hn, rfl⟩ := List.mem_map.mp hx
      obtain ⟨pre, post, rfl⟩ := List.append_of_mem hn
      have hcell := hc1.cells n (by simp)
      obtain rfl := Option.some.inj (hcell.symm.trans hw)
      have hnext : post.head?.map Node.addr = some y := hc1.nextOf_eq.symm.trans hy
      obtain ⟨m, hm, rfl⟩ := Option.map_eq_some_iff.mp hnext
      exact List.mem_map_of_mem (by simp [List.mem_of_mem_head? hm])
    have hcur : ∀ c ∈ st1.category.root, c ∈ ns.map Node.addr := by
      intro c hc'
      rw [hroot] at hc'
      obtain ⟨m, hm, rfl⟩ := Option.map_eq_some_iff.mp hc'
      exact List.mem_map_of_mem (List.mem_of_mem_head? hm)
    exact (updateLoop_frame hclosed (by simp) hcur hr hb hba).trans (Heap.get_set_of_ne _ _ hba)

/-- The variable stored is the first one of its name. -/
theorem firstNamed_updateList (a : Addr) (name value : CString) (object : UInt32) (ns : List Node) :
    ∃ o, firstNamed name (updateList a name value none object ns) = some ⟨a, name, value, o⟩ := by
  have hfirst : ∀ (o : Int32) (rest : List Node),
      firstNamed name (⟨a, name, value, o⟩ :: rest) = some ⟨a, name, value, o⟩ := by
    intro o rest
    rw [firstNamed, List.find?_cons_of_pos (by simp)]
  induction ns with
  | nil => exact ⟨_, hfirst _ _⟩
  | cons n ns ih =>
    rw [updateList]
    split
    · exact ⟨_, hfirst _ _⟩
    · next hm =>
      have hname : ¬ strcasecmp name n.name = 0 := by
        rw [strcasecmp_eq_zero_comm]
        simpa [Node.Matches, nameMatches, valueMatches] using hm
      rw [firstNamed, List.find?_cons_of_neg (by simpa using hname)]
      exact ih

theorem addr_updateList {name value : CString} {ns : List Node} {n : Node}
    (h : n ∈ updateList a name value mtch object ns) : n.addr = a ∨ n ∈ ns := by
  induction ns with
  | nil => exact Or.inl (congrArg Node.addr (List.mem_singleton.mp h))
  | cons m ns ih =>
    rw [updateList] at h
    split at h
    · rcases List.mem_cons.mp h with rfl | hin
      · exact Or.inl rfl
      · exact Or.inr (List.mem_cons_of_mem m hin)
    · rcases List.mem_cons.mp h with rfl | hin
      · exact Or.inr (by simp)
      · exact (ih hin).imp id (List.mem_cons_of_mem m)

end Update

/-- What an update of a section leaves of the configuration. -/
theorem updateSection_eq (hs : Holds config ns vs) {cat : Sections.Addr} {s : Sections.Section}
    (hcat : config.sections.heap.get cat = some s) {a : Addr} (ha : a ∉ config.heap.dom)
    (name value : CString) (mtch : Option CString) (object : UInt32) :
    ∃ root config', updateSection config cat (some a) name value mtch object = .ok (0, config') ∧
      config'.sections = { config.sections with
        heap := config.sections.heap.set cat { s with root := root } } ∧
      Holds config' ns
        (Function.update vs cat (updateList a name value mtch object (vs cat))) := by
  have hc : Variables (St.mk config.heap ⟨s.root, config.last cat⟩).heap
      (St.mk config.heap ⟨s.root, config.last cat⟩).category.root (vs cat) := hs.chains cat s hcat
  obtain ⟨r, hr, hchain, hframe⟩ := spdVariableUpdate_eq hc ha name value mtch object
  have hdom : cat ∈ config.sections.heap.dom := Heap.mem_dom_of_get hcat
  have hkeep := Heap.dom_set_of_mem { s with root := r.category.root } hdom
  let sections : Sections.St := { config.sections with
    heap := config.sections.heap.set cat { s with root := r.category.root } }
  let config' : SpdConfig :=
    ⟨sections, Function.update config.last cat r.category.last, r.heap⟩
  refine ⟨r.category.root, config', ?_, rfl, ?_, ?_, ?_⟩
  · rw [updateSection, Sections.deref_of_get hcat, ok_bind, hr, ok_bind]
  · have hnext : s.next = linkOf Sections.Section.next config.sections.heap cat :=
      (linkOf_of_get hcat).symm
    exact hs.linked.set_same hdom hnext
  · intro b t hb
    by_cases hbc : b = cat
    · subst hbc
      obtain rfl := Option.some.inj ((Heap.get_set_self _ _ _).symm.trans hb)
      rw [Function.update_self]
      exact hchain
    · have hb' : config.sections.heap.get b = some t := (Heap.get_set_of_ne _ _ hbc).symm.trans hb
      have hcb := hs.chains b t hb'
      rw [Function.update_of_ne hbc]
      refine ChainOf.frame hcb fun n hn => hframe n.addr ?_ ?_
      · intro hin
        exact hs.disjoint b (Heap.mem_dom_of_get hb') cat hdom hbc (List.mem_map_of_mem hn) hin
      · intro heq
        exact ha (heq ▸ hcb.mem_dom hn)
  · have hother : ∀ b ∈ config.sections.heap.dom, b ≠ cat →
        ((updateList a name value mtch object (vs cat)).map Node.addr).Disjoint
          ((vs b).map Node.addr) := by
      intro b hb hbc x hx hxb
      obtain ⟨n, hn, rfl⟩ := List.mem_map.mp hx
      rcases addr_updateList hn with heq | hin
      · obtain ⟨m, hm, hmn⟩ := List.mem_map.mp hxb
        obtain ⟨t, ht⟩ := Heap.mem_dom.mp hb
        exact ha (heq ▸ hmn ▸ ChainOf.mem_dom (hs.chains b t ht) hm)
      · exact hs.disjoint cat hdom b hb (Ne.symm hbc) (List.mem_map_of_mem hin) hxb
    intro b hb c hc' hbc
    have hb' : b ∈ config.sections.heap.dom := hkeep ▸ hb
    have hc'' : c ∈ config.sections.heap.dom := hkeep ▸ hc'
    by_cases hbcat : b = cat
    · subst hbcat
      rw [Function.update_self, Function.update_of_ne (Ne.symm hbc)]
      exact hother c hc'' (Ne.symm hbc)
    · rw [Function.update_of_ne hbcat]
      by_cases hccat : c = cat
      · subst hccat
        rw [Function.update_self]
        exact (hother b hb' hbcat).symm
      · rw [Function.update_of_ne hccat]
        exact hs.disjoint b hb' c hc'' hbc

/-! ## What is found after all -/

/-- The first variable of the name in the section that is taken. -/
def met (config : SpdConfig) (ns : List Sections.Addr) (vs : Sections.Addr → List Node)
    (sec : Sections.NameArg) (name : CString) : Option Node :=
  (browsed config.sections ns sec).bind fun a => firstNamed name (vs a)

/-- The first variable of the name in the section that `spd_section_get` finds, or in the first
    section that has one. -/
def meant (config : SpdConfig) (ns : List Sections.Addr) (vs : Sections.Addr → List Node)
    (sec : Option Sections.NameArg) (name : CString) : Option Node :=
  match sec with
  | some sec => (found config.sections ns sec).bind fun a => firstNamed name (vs a)
  | none => ns.findSome? fun a => firstNamed name (vs a)

theorem lookup_eq (hs : Holds config ns vs) {sec : Option Sections.NameArg}
    (hread : ∀ arg ∈ sec, arg.Readable config.sections) :
    lookup config ns vs sec name = .ok ((meant config ns vs sec name).map Node.value) := by
  cases sec with
  | none => rfl
  | some sec =>
    rw [lookup, sectionGet_eq hs.linked (hread sec rfl), ok_bind]
    rfl

theorem spdVariableRetrive_none (hs : Holds config ns vs) : spdVariableRetrive config none name
    = .ok ((meant config ns vs none name).map Node.value) := by
  have hs' : Holds config ([] ++ ns) vs := hs
  rw [spdVariableRetrive, hs.linked.chain.first_eq]
  exact sectionLoop_eq hs' (Sections.fuel_lt hs.linked)

theorem spdVariableRetrive_some (hs : Holds config ns vs) (hread : sec.Readable config.sections) :
    spdVariableRetrive config (some sec) name
      = .ok ((met config ns vs sec name).map Node.name) := by
  rw [spdVariableRetrive, spdVariableBrowse_eq hs.linked hread, ok_bind, met]
  cases hb : browsed config.sections ns sec with
  | none => rfl
  | some a =>
    obtain ⟨s, hs'⟩ := Heap.mem_dom.mp (browsed_mem_dom hread hb)
    have hname : ∀ (n : Node) p, Variable.name ⟨n.name, n.value, n.object, p⟩ = n.name :=
      fun _ _ => rfl
    rw [Option.bind_some, hs', Option.bind_some, Option.bind_some]
    exact hs.variableLoop_eq hs' hname

/-- The name `"general"`. -/
def general : Sections.NameArg := .text (lit "general")

/-- The variable that is taken is called what the one meant is set to. -/
def Spelled (config : SpdConfig) (ns : List Sections.Addr) (vs : Sections.Addr → List Node)
    (sec : Sections.NameArg) (name : CString) : Prop :=
  (met config ns vs sec name).map Node.name = (meant config ns vs (some sec) name).map Node.value

/-- The root of a section plays no part in finding sections. -/
theorem firstWhere_set_root {cat : Sections.Addr} {s : Sections.Section} {r : Option Addr}
    {test : Sections.Addr → Sections.Section → Bool} (hcat : st.heap.get cat = some s)
    (htest : test cat { s with root := r } = test cat s) :
    Sections.firstWhere { st with heap := st.heap.set cat { s with root := r } } ns test
      = Sections.firstWhere st ns test := by
  rw [Sections.firstWhere, Sections.firstWhere]
  congr
  funext a
  by_cases ha : a = cat
  · subst ha
    rw [Heap.get_set_self, hcat, Option.any_some, Option.any_some, htest]
  · rw [Heap.get_set_of_ne _ _ ha]

theorem found_set_root {cat : Sections.Addr} {s : Sections.Section} (r : Option Addr)
    (hcat : st.heap.get cat = some s) (sec : Sections.NameArg) :
    found { st with heap := st.heap.set cat { s with root := r } } ns sec = found st ns sec := by
  have hread : sec.read { st with heap := st.heap.set cat { s with root := r } } = sec.read st := by
    cases sec with
    | text t => rfl
    | nameOf a =>
      rw [Sections.NameArg.read, Sections.NameArg.read]
      by_cases ha : a = cat
      · subst ha
        rw [Sections.deref_of_get (Heap.get_set_self _ _ _), Sections.deref_of_get hcat]
        rfl
      · rw [Sections.deref, Sections.deref, Heap.get_set_of_ne _ _ ha]
  have hpointer := @firstWhere_set_root ns st cat s r
    (fun cat s => sec.isNameOf cat && (false || s.ignored == 0)) hcat rfl
  rw [found, found, hpointer, hread]
  split
  · rfl
  · split
    · exact firstWhere_set_root hcat rfl
    · rfl

/-- A lookup after an update gives the name of the variable it takes. -/
theorem retrive_updated (hs : Holds config ns vs) (hread : sec.Readable config.sections)
    {cat : Sections.Addr} (hcat : cat ∈ config.sections.heap.dom) {a : Addr}
    (ha : a ∉ config.heap.dom) (name value : CString) :
    ∃ config', updateSection config cat (some a) name value none 0 = .ok (0, config') ∧
      spdVariableRetrive config' (some sec) name = .ok
        (if browsed config.sections ns sec = some cat then some name
          else (met config ns vs sec name).map Node.name) := by
  obtain ⟨s, hs'⟩ := Heap.mem_dom.mp hcat
  obtain ⟨r, config', hupdate, hsections, hholds⟩ :=
    updateSection_eq hs hs' ha name value none 0
  have hread' : sec.Readable config'.sections := by
    intro b hb
    rw [hsections, Heap.dom_set_of_mem _ hcat]
    exact hread b hb
  have hbrowsed : browsed config'.sections ns sec = browsed config.sections ns sec := by
    rw [hsections, browsed, browsed, found_set_root r hs']
  refine ⟨config', hupdate, ?_⟩
  rw [spdVariableRetrive_some hholds hread', met, hbrowsed]
  cases hb : browsed config.sections ns sec with
  | none => rw [met, hb, if_neg (by simp)]; rfl
  | some b =>
    by_cases hbc : b = cat
    · subst hbc
      obtain ⟨o, ho⟩ := firstNamed_updateList a name value 0 (vs b)
      rw [if_pos rfl, Option.bind_some, Function.update_self, ho]
      rfl
    · rw [if_neg (by simpa using hbc), met, hb, Option.bind_some, Option.bind_some,
        Function.update_of_ne hbc]

/-- What makes a lookup of the name, and one after the value has been stored, give values. -/
structure Answered (config : SpdConfig) (ns : List Sections.Addr)
    (vs : Sections.Addr → List Node) (sec : Option Sections.NameArg) (name value : CString) :
    Prop where
  spelled : ∀ arg ∈ sec, Spelled config ns vs arg name
  general : meant config ns vs sec name = none → Spelled config ns vs general name
  stored : ∀ arg ∈ sec, ∀ cat ∈ found config.sections ns arg,
    if browsed config.sections ns arg = some cat then name = value
    else (met config ns vs arg name).map Node.name = some value

/-- A lookup gives the value meant exactly when the variable taken is called so. -/
theorem retrive_eq_iff (hs : Holds config ns vs) {sec : Option Sections.NameArg}
    (hread : ∀ arg ∈ sec, arg.Readable config.sections) :
    spdVariableRetrive config sec name = lookup config ns vs sec name ↔
      ∀ arg ∈ sec, Spelled config ns vs arg name := by
  rw [lookup_eq hs hread]
  cases sec with
  | none => simp [spdVariableRetrive_none hs]
  | some sec =>
    rw [spdVariableRetrive_some hs (hread sec rfl), Outcome.ok.injEq]
    simp [Spelled]

/-- So does the lookup in `general` that follows one with no result. -/
theorem option_eq_iff (hs : Holds config ns vs) {sec : Option Sections.NameArg}
    (hread : ∀ arg ∈ sec, arg.Readable config.sections)
    (hfirst : spdVariableRetrive config sec name = lookup config ns vs sec name) :
    spdConfigOption config sec name = lookupOption config ns vs sec name ↔
      (meant config ns vs sec name = none → Spelled config ns vs general name) := by
  have hgeneral : ∀ arg ∈ some general, arg.Readable config.sections := by
    intro arg harg a ha
    obtain rfl := Option.some.inj harg
    cases ha
  rw [spdConfigOption, lookupOption, hfirst, lookup_eq hs hread, ok_bind, ok_bind]
  cases meant config ns vs sec name with
  | some n => simp
  | none =>
    have hiff : spdVariableRetrive config (some general) name
        = lookup config ns vs (some general) name ↔ _ := retrive_eq_iff hs hgeneral
    simpa [general] using hiff

/-- What an update has stored in the section found is the name it was stored under, if it is in
    the section taken. -/
theorem stored_iff (hs : Holds config ns vs) {sec : Option Sections.NameArg}
    (hread : ∀ arg ∈ sec, arg.Readable config.sections) {a : Addr} (ha : a ∉ config.heap.dom)
    (name value : CString) :
    (∀ arg ∈ sec, ∀ cat, Sections.sectionGet config.sections arg false = .ok (some cat) →
      ∃ config', updateSection config cat (some a) name value none 0 = .ok (0, config') ∧
        spdVariableRetrive config' sec name = .ok (some value)) ↔
      ∀ arg ∈ sec, ∀ cat ∈ found config.sections ns arg,
        if browsed config.sections ns arg = some cat then name = value
        else (met config ns vs arg name).map Node.name = some value := by
  cases sec with
  | none => simp
  | some arg =>
    have hread' := hread arg rfl
    have hget := sectionGet_eq hs.linked hread'
    constructor
    · intro hall arg' harg cat hcat
      obtain rfl := Option.some.inj harg
      obtain ⟨config', hupdate, hretrive⟩ := hall arg rfl cat (hget.trans (congrArg _ hcat))
      obtain ⟨config'', hupdate', hretrive'⟩ :=
        retrive_updated hs hread' (found_mem_dom hcat) ha name value
      rw [hupdate] at hupdate'
      obtain rfl := (Prod.mk.inj (Outcome.ok.inj hupdate')).2
      have hsame := Outcome.ok.inj (hretrive'.symm.trans hretrive)
      split at hsame
      · next hb =>
        rw [if_pos hb]
        exact Option.some.inj hsame
      · next hb =>
        rw [if_neg hb]
        exact hsame
    · intro hall arg' harg cat hcat
      obtain rfl := Option.some.inj harg
      have hfound : found config.sections ns arg = some cat :=
        Outcome.ok.inj (hget.symm.trans hcat)
      obtain ⟨config', hupdate, hretrive⟩ :=
        retrive_updated hs hread' (found_mem_dom hfound) ha name value
      refine ⟨config', hupdate, hretrive.trans (congrArg _ ?_)⟩
      have hcond := hall arg rfl cat hfound
      split at hcond
      · next hb => rw [if_pos hb, hcond]
      · next hb => rw [if_neg hb, hcond]

/-- For every configuration: a lookup gives what is configured, in the section or in `general`,
    and what an update has stored, exactly when the variable taken is called like the value. -/
theorem spdVariableRetrive_iff (hs : Holds config ns vs) {sec : Option Sections.NameArg}
    (hread : ∀ arg ∈ sec, arg.Readable config.sections) {a : Addr} (ha : a ∉ config.heap.dom)
    (name value : CString) :
    (spdVariableRetrive config sec name = lookup config ns vs sec name ∧
      spdConfigOption config sec name = lookupOption config ns vs sec name ∧
      ∀ arg ∈ sec, ∀ cat, Sections.sectionGet config.sections arg false = .ok (some cat) →
        ∃ config', updateSection config cat (some a) name value none 0 = .ok (0, config') ∧
          spdVariableRetrive config' sec name = .ok (some value)) ↔
      Answered config ns vs sec name value := by
  have hstored := stored_iff hs hread ha name value
  constructor
  · rintro ⟨hfirst, hoption, hupdate⟩
    exact ⟨(retrive_eq_iff hs hread).mp hfirst, (option_eq_iff hs hread hfirst).mp hoption,
      hstored.mp hupdate⟩
  · rintro ⟨hspelled, hgeneral, hupdate⟩
    have hfirst := (retrive_eq_iff hs hread).mpr hspelled
    exact ⟨hfirst, (option_eq_iff hs hread hfirst).mpr hgeneral, hstored.mpr hupdate⟩

end

/-! ## Configurations -/

/-- The configuration read from a header `[a]` and a line `x = value`. -/
def oneVariable (value : CString) : SpdConfig where
  sections := ⟨(∅ : Heap Sections.Section).set 1 ⟨lit "a", 0, 0, some 1, none⟩,
    { root := some 1, last := some 1, current := some 1 }⟩
  last := fun _ => some 1
  heap := (∅ : Heap Variable).set 1 ⟨lit "x", value, 0, none⟩

/-- The variable of that section, and no others. -/
def oneNode (value : CString) (a : Sections.Addr) : List Node :=
  if a = 1 then [⟨1, lit "x", value, 0⟩] else []

theorem oneVariable_holds (value : CString) :
    Holds (oneVariable value) [1] (oneNode value) := by
  have hcell : (oneVariable value).heap.get 1 = some ⟨lit "x", value, 0, none⟩ :=
    Heap.get_set_self _ _ _
  have hsec : (oneVariable value).sections.heap.get 1 = some ⟨lit "a", 0, 0, some 1, none⟩ :=
    Heap.get_set_self _ _ _
  have honly : ∀ a ∈ (oneVariable value).sections.heap.dom, a = 1 := by
    intro a ha
    by_contra hne
    obtain ⟨s, hs⟩ := Heap.mem_dom.mp ha
    rw [oneVariable, Heap.get_set_of_ne _ _ hne, Heap.get_empty] at hs
    cases hs
  constructor
  · exact .single (Heap.mem_dom_of_get hsec) (linkOf_of_get hsec)
  · intro a s hs
    obtain rfl := honly a (Heap.mem_dom_of_get hs)
    obtain rfl := Option.some.inj (hsec.symm.trans hs)
    have hnext : nextOf (oneVariable value).heap 1 = none := by
      rw [nextOf, hcell, Option.bind_some]
    refine .of_cells ⟨⟨rfl, hnext⟩, rfl, by simp [oneNode]⟩ ?_
    intro n hn
    obtain rfl := List.mem_singleton.mp hn
    exact ⟨_, hcell⟩
  · intro a ha b hb hab
    exact absurd ((honly a ha).trans (honly b hb).symm) hab

/-- The name of the variable is returned in place of its value. -/
theorem spdVariableRetrive_name :
    Holds (oneVariable (lit "1")) [1] (oneNode (lit "1")) ∧
    lookup (oneVariable (lit "1")) [1] (oneNode (lit "1")) (some (.text (lit "A"))) (lit "X")
      = .ok (some (lit "1")) ∧
    spdVariableRetrive (oneVariable (lit "1")) (some (.text (lit "A"))) (lit "X")
      = .ok (some (lit "x")) := by
  refine ⟨oneVariable_holds _, ?_, ?_⟩
  · with_unfolding_all rfl
  · with_unfolding_all rfl

/-- The configuration read from `[general]` with a line `y = y`, and `[a]` with `x = x` and
    `z = 7`. -/
def twoSections : SpdConfig where
  sections := ⟨((∅ : Heap Sections.Section).set 1 ⟨lit "general", 0, 0, some 1, some 2⟩).set 2
    ⟨lit "a", 0, 0, some 2, none⟩, { root := some 1, last := some 2, current := some 2 }⟩
  last a := if a = 1 then some 1 else some 3
  heap := (((∅ : Heap Variable).set 1 ⟨lit "y", lit "y", 0, none⟩).set 2
    ⟨lit "x", lit "x", 0, some 3⟩).set 3 ⟨lit "z", lit "7", 0, none⟩

/-- The variables of these sections. -/
def nodesOf (a : Sections.Addr) : List Node :=
  if a = 1 then [⟨1, lit "y", lit "y", 0⟩]
  else if a = 2 then [⟨2, lit "x", lit "x", 0⟩, ⟨3, lit "z", lit "7", 0⟩]
  else []

theorem twoSections_holds : Holds twoSections [1, 2] nodesOf := by
  have honly : ∀ a ∈ twoSections.sections.heap.dom, a = 1 ∨ a = 2 := by decide +kernel
  have hone : twoSections.sections.heap.get 1 = some ⟨lit "general", 0, 0, some 1, some 2⟩ := by
    decide +kernel
  have htwo : twoSections.sections.heap.get 2 = some ⟨lit "a", 0, 0, some 2, none⟩ := by
    decide +kernel
  refine ⟨⟨by decide +kernel, by decide +kernel⟩, ?_, ?_⟩
  · intro a s hs
    rw [Variables]
    rcases honly a (Heap.mem_dom_of_get hs) with rfl | rfl
    · obtain rfl := Option.some.inj (hone.symm.trans hs)
      decide +kernel
    · obtain rfl := Option.some.inj (htwo.symm.trans hs)
      decide +kernel
  · intro a ha b hb hab
    rcases honly a ha with rfl | rfl <;> rcases honly b hb with rfl | rfl
    · exact absurd rfl hab
    · decide +kernel
    · decide +kernel
    · exact absurd rfl hab

/-- Variables that are called what they are set to are found, in another case and in the section
    `general`, and after an update; the third one is not. -/
theorem spdVariableRetrive_iff_twoSections :
    let sec := some (Sections.NameArg.text (lit "A"))
    let answers (name value : CString) : Prop :=
      spdVariableRetrive twoSections sec name = lookup twoSections [1, 2] nodesOf sec name ∧
      spdConfigOption twoSections sec name = lookupOption twoSections [1, 2] nodesOf sec name ∧
      ∀ arg ∈ sec, ∀ cat, Sections.sectionGet twoSections.sections arg false = .ok (some cat) →
        ∃ config', updateSection twoSections cat (some 4) name value none 0 = .ok (0, config') ∧
          spdVariableRetrive config' sec name = .ok (some value)
    answers (lit "X") (lit "X") ∧ lookup twoSections [1, 2] nodesOf sec (lit "X") =
        .ok (some (lit "x")) ∧
      answers (lit "Y") (lit "Y") ∧ lookupOption twoSections [1, 2] nodesOf sec (lit "Y") =
        .ok (some (lit "y")) ∧
      ¬ answers (lit "Z") (lit "7") ∧ lookup twoSections [1, 2] nodesOf sec (lit "Z") =
        .ok (some (lit "7")) := by
  intro sec answers
  have hread : ∀ arg ∈ sec, arg.Readable twoSections.sections := by
    intro arg harg a ha
    obtain rfl := Option.some.inj harg
    cases ha
  have hfree : 4 ∉ twoSections.heap.dom := by decide +kernel
  have hfound : found twoSections.sections [1, 2] (.text (lit "A")) = some 2 ∧
      browsed twoSections.sections [1, 2] (.text (lit "A")) = some 2 := by decide +kernel
  have hsame : ∀ name : CString, ∀ arg ∈ sec, ∀ cat ∈ found twoSections.sections [1, 2] arg,
      if browsed twoSections.sections [1, 2] arg = some cat then name = name
      else (met twoSections [1, 2] nodesOf arg name).map Node.name = some name := by
    intro name arg harg cat hcat
    obtain rfl := Option.some.inj harg
    obtain rfl := Option.some.inj (hfound.1.symm.trans hcat)
    rw [if_pos hfound.2]
  have hx : Answered twoSections [1, 2] nodesOf sec (lit "X") (lit "X") := by
    refine ⟨?_, ?_, hsame _⟩
    · intro arg harg
      obtain rfl := Option.some.inj harg
      rw [Spelled]
      decide +kernel
    · intro hnone
      exact absurd hnone (by decide +kernel)
  have hy : Answered twoSections [1, 2] nodesOf sec (lit "Y") (lit "Y") := by
    refine ⟨?_, ?_, hsame _⟩
    · intro arg harg
      obtain rfl := Option.some.inj harg
      rw [Spelled]
      decide +kernel
    · intro _
      rw [Spelled]
      decide +kernel
  have hz : ¬ Answered twoSections [1, 2] nodesOf sec (lit "Z") (lit "7") := by
    intro h
    have hspelled := h.spelled _ rfl
    rw [Spelled] at hspelled
    exact absurd hspelled (by decide +kernel)
  exact ⟨(spdVariableRetrive_iff twoSections_holds hread hfree _ _).mpr hx, by decide +kernel,
    (spdVariableRetrive_iff twoSections_holds hread hfree _ _).mpr hy, by decide +kernel,
    mt (spdVariableRetrive_iff twoSections_holds hread hfree _ _).mp hz, by decide +kernel⟩

end Spider.Config.Retrieve
