import Spider.Config.Text
import Spider.Config.Variable
import Spider.Strings
import Spider.Lib.Fuel

/-!
# Section headers on the chains of variables

The options of a header make it copy the variables of other sections while it
puts them behind those of its own. Here the variables are in memory, and each
section has a chain of them, so that a loop along one chain sees what is put
behind it. The fuel is that of this loop. Comments play no part.
-/

namespace Spider.Config.Inherit

open Lib Outcome CString Strings

/-- What `spd_calloc` gives for a variable: memory that is not in use. -/
structure Calloc where
  address : Heap Variable → Addr
  unused : ∀ h, address h ∉ h.dom

/-- `struct spd_section`. -/
structure Section where
  name : CString
  ignored : Bool := false
  chain : Config.Section := {}
  deriving DecidableEq, Repr

/-- `struct spd_config`, with the memory of the variables. -/
structure SpdConfig where
  sections : List Section
  heap : Heap Variable

/-- `section_get` (`config.c:240-256`). -/
def sectionGet (sections : List Section) (name : CString) (ignored : Bool) : Option Nat :=
  sections.findIdx? fun cat => strcasecmp cat.name name == 0 && (ignored || !cat.ignored)

/-- `*cat` while a header is processed: the new section, or one of the configuration. -/
inductive Cat where
  | new (sec : Section)
  | old (i : Nat)
  deriving DecidableEq, Repr

/-- A header in process. -/
structure Header where
  cfg : SpdConfig
  cat : Cat

/-- The chain of a section of the configuration. -/
def SpdConfig.chain (cfg : SpdConfig) (i : Nat) : Config.Section :=
  ((cfg.sections[i]?).map Section.chain).getD {}

/-- A section of the configuration after its chain has been changed. -/
def SpdConfig.put (cfg : SpdConfig) (i : Nat) (st : St) : SpdConfig :=
  ⟨cfg.sections.modify i fun sec => { sec with chain := st.category }, st.heap⟩

/-- The chain of `*cat`, and what a change of it makes of the header. -/
def Header.chain (s : Header) : Config.Section :=
  match s.cat with
  | .new sec => sec.chain
  | .old i => s.cfg.chain i

@[inherit_doc Header.chain]
def Header.put (s : Header) (st : St) : Header :=
  match s.cat with
  | .new sec => ⟨{ s.cfg with heap := st.heap }, .new { sec with chain := st.category }⟩
  | .old i => { s with cfg := s.cfg.put i st }

/-- `(*cat)->ignored = 1`. -/
def Header.ignore (s : Header) : Header :=
  match s.cat with
  | .new sec => { s with cat := .new { sec with ignored := true } }
  | .old i =>
    { s with
      cfg := { s.cfg with
        sections := s.cfg.sections.modify i fun sec => { sec with ignored := true } } }

variable (calloc : Calloc)

/-- The loop of `inherit_section` (`config.c:383-384`): `variable_clone` of the variable, and
    `spd_variable_append` of that. The loop goes on from what `next` is then. -/
def inheritLoop : Nat → St → Option Addr → Outcome St
  | 0, _, _ => .timeout
  | _ + 1, st, none => .ok st
  | fuel + 1, st, some var => do
    let v ← deref st.heap var
    let newvar := calloc.address st.heap
    let st ← spdVariableAppend { st with heap := st.heap.set newvar ⟨v.name, v.value, 0, none⟩ }
      (some newvar)
    let v ← deref st.heap var
    inheritLoop fuel st v.next

/-- `inherit_section` (`config.c:376-385`). -/
def inheritSection (fuel : Nat) (s : Header) (base : Nat) : Outcome Header := do
  let st ← inheritLoop calloc fuel ⟨s.cfg.heap, s.chain⟩ (s.cfg.chain base).root
  .ok (s.put st)

/-- One option of a header (`config.c:604-632`); null stands for a return of -1. -/
def headerOption (fuel : Nat) (catname : CString) (s : Header) (cur : CString) :
    Outcome (Option Header) :=
  if strcasecmp cur (lit "!") = 0 then .ok (some s.ignore)
  else if strcasecmp cur (lit "+") = 0 then
    match sectionGet s.cfg.sections catname true with
    | none => .ok none
    | some i =>
      match s.cat with
      | .new newcat => do
        let (_, st) ← moveVariables newcat.chain ⟨s.cfg.heap, s.cfg.chain i⟩
        .ok (some ⟨s.cfg.put i st, .old i⟩)
      | .old _ => .ok (some { s with cat := .old i })
  else
    match sectionGet s.cfg.sections cur true with
    | none => .ok none
    | some base => do
      let s ← inheritSection calloc fuel s base
      .ok (some s)

/-- The loop over the options. -/
def headerOptions (fuel : Nat) (catname : CString) : List CString → Header → Outcome (Option Header)
  | [], s => .ok (some s)
  | cur :: rest, s => do
    match ← headerOption calloc fuel catname s cur with
    | none => .ok none
    | some s => headerOptions fuel catname rest s

/-- What the lines before have left: the configuration and `cat`. -/
structure Parsed where
  cfg : SpdConfig
  cat : Option Nat

/-- The end of a header: a new section is appended. -/
def Header.close (s : Header) : Parsed :=
  match s.cat with
  | .new sec => ⟨{ s.cfg with sections := s.cfg.sections ++ [sec] }, some s.cfg.sections.length⟩
  | .old i => ⟨s.cfg, some i⟩

/-- A section header (`config.c:568-637`). -/
def processHeader (fuel : Nat) (p : Parsed) (buf : CString) : Outcome (Option Parsed) :=
  let (catname, c) := buf.tail.span (· ≠ ch ']')
  if c = [] then .ok none
  else do
    let name ← spdCopyString catname 80
    let options : Option (List CString) :=
      if c.tail.head? = some (ch '(') then
        let (opts, close) := c.tail.tail.span (· ≠ ch ')')
        if close = [] then none else some (opts.splitOn (ch ','))
      else some []
    match options with
    | none => .ok none
    | some options =>
      match ← headerOptions calloc fuel catname options ⟨p.cfg, .new { name := name }⟩ with
      | none => .ok none
      | some s => .ok (some s.close)

/-- A line `variable = value` (`config.c:699-744`). -/
def processVariable (p : Parsed) (buf : CString) : Outcome (Option Parsed) :=
  match p.cat with
  | none => .ok none
  | some i =>
    match buf.span (· ≠ ch '=') with
    | (_, []) => .ok (some p)
    | (cur, _ :: c) => do
      let object := c.head? = some (ch '>')
      let v : Variable :=
        { name := spdStrip cur
          value := spdStrip (if object then c.tail else c)
          object := if object then 1 else 0
          next := none }
      let a := calloc.address p.cfg.heap
      let st ← spdVariableAppend ⟨p.cfg.heap.set a v, p.cfg.chain i⟩ (some a)
      .ok (some ⟨p.cfg.put i st, some i⟩)

/-- `process_text_line` (`config.c:557-747`). -/
def processTextLine (fuel : Nat) (p : Parsed) (buf : CString) : Outcome (Option Parsed) :=
  if buf.head? = some (ch '[') then processHeader calloc fuel p buf
  else if buf.head? = some (ch '#') then .ok (some p)
  else processVariable calloc p buf

/-- The lines of a file, one after the other, up to one that is rejected. -/
def processLines (fuel : Nat) : List CString → Parsed → Outcome (Option Parsed)
  | [], p => .ok (some p)
  | buf :: rest, p => do
    match ← processTextLine calloc fuel p buf with
    | none => .ok none
    | some p => processLines fuel rest p

/-! ## Plain lists -/

/-- The section at `i` has the variables `ns i`, and no variable is in two sections. -/
structure Holds (cfg : SpdConfig) (ns : Nat → List Node) : Prop where
  chains : ∀ i sec, cfg.sections[i]? = some sec → ChainOf cfg.heap sec.chain (ns i)
  disjoint : ∀ i j, i < cfg.sections.length → j < cfg.sections.length → i ≠ j →
    ((ns i).map Node.addr).Disjoint ((ns j).map Node.addr)

/-- All sections there are while a header is processed, the new one at the end. -/
def Header.all (s : Header) : SpdConfig :=
  match s.cat with
  | .new sec => { s.cfg with sections := s.cfg.sections ++ [sec] }
  | .old _ => s.cfg

/-- The position of `*cat` among them. -/
def Header.sel (s : Header) : Nat :=
  match s.cat with
  | .new _ => s.cfg.sections.length
  | .old i => i

section

variable {calloc} {st st' : St} {h : Heap Variable} {c : Config.Section} {xs pre post : List Node}
  {n : Node} {a : Addr} {p : Option Addr}

/-! ## The loop along another chain -/

/-- `spd_variable_append` writes to the last variable of the section, and nothing else. -/
theorem append_heap {var : Addr} (happ : spdVariableAppend st (some var) = .ok st') :
    st'.heap = st.heap ∨
      ∃ l v, st.category.last = some l ∧ l ∈ st.heap.dom ∧ st'.heap = st.heap.set l v := by
  cases hlast : st.category.last with
  | none =>
    simp only [spdVariableAppend, hlast, ok_bind] at happ
    obtain ⟨l, -, hend⟩ := bind_eq_ok.mp happ
    obtain rfl := Outcome.ok.inj hend
    exact Or.inl rfl
  | some last =>
    simp only [spdVariableAppend, hlast] at happ
    obtain ⟨st1, h1, happ⟩ := bind_eq_ok.mp happ
    obtain ⟨l, -, hend⟩ := bind_eq_ok.mp happ
    obtain rfl := Outcome.ok.inj hend
    obtain ⟨v, hv, hset⟩ := bind_eq_ok.mp h1
    obtain rfl := Outcome.ok.inj hset
    rw [deref] at hv
    split at hv
    · next w hw => exact Or.inr ⟨last, _, rfl, Heap.mem_dom_of_get hw, rfl⟩
    · cases hv

theorem append_frame {var b : Addr} (happ : spdVariableAppend st (some var) = .ok st')
    (hb : st.category.last ≠ some b) : st'.heap.get b = st.heap.get b := by
  rcases append_heap happ with heq | ⟨l, v, hlast, -, heq⟩
  · rw [heq]
  · rw [heq, Heap.get_set_of_ne]
    rintro rfl
    exact hb hlast

theorem append_dom {var : Addr} (happ : spdVariableAppend st (some var) = .ok st') :
    st'.heap.dom = st.heap.dom := by
  rcases append_heap happ with heq | ⟨l, v, -, hl, heq⟩
  · rw [heq]
  · rw [heq, Heap.dom_set_of_mem _ hl]

theorem ChainOf.last_mem (hc : ChainOf st.heap st.category xs) (hl : st.category.last = some a) :
    a ∈ xs.map Node.addr := by
  have hlast := hc.chain.last
  rw [hl] at hlast
  exact List.mem_of_getLast? hlast.symm

/-- The variables of another chain are put behind the last one. -/
theorem append_list {last : Option Addr} {ys : List Node} (hc : ChainOf st.heap st.category xs)
    (hy : ChainOf st.heap ⟨p, last⟩ ys) (hdisj : (xs.map Node.addr).Disjoint (ys.map Node.addr)) :
    ∃ st', spdVariableAppend st p = .ok st' ∧ ChainOf st'.heap st'.category (xs ++ ys) ∧
      ∀ b, b ∉ xs.map Node.addr → st'.heap.get b = st.heap.get b := by
  obtain ⟨st', happ, hc'⟩ := spdVariableAppend_spec hc hy hdisj
  refine ⟨st', happ, hc', fun b hb => ?_⟩
  cases p with
  | none =>
    obtain rfl := Outcome.ok.inj happ
    rfl
  | some v => exact append_frame happ fun hl => hb (ChainOf.last_mem hc hl)

/-- A new variable is put behind the last one. -/
theorem append_new (hc : ChainOf st.heap st.category xs) (hn : n.addr ∉ st.heap.dom) :
    ∃ st', spdVariableAppend
        { st with heap := st.heap.set n.addr ⟨n.name, n.value, n.object, none⟩ } (some n.addr)
        = .ok st' ∧
      ChainOf st'.heap st'.category (xs ++ [n]) ∧
      st'.heap.dom = insert n.addr st.heap.dom ∧
      ∀ b ∈ st.heap.dom, b ∉ xs.map Node.addr → st'.heap.get b = st.heap.get b := by
  let st1 : St :=
    { st with heap := st.heap.set n.addr ⟨n.name, n.value, n.object, none⟩ }
  have hc1 : ChainOf st1.heap st1.category xs := hc.alloc hn _
  have hcell : st1.heap.get n.addr = some ⟨n.name, n.value, n.object, none⟩ :=
    Heap.get_set_self _ _ _
  have hnext : nextOf st1.heap n.addr = none := by rw [nextOf, hcell, Option.bind_some]
  have hone : ChainOf st1.heap ⟨some n.addr, some n.addr⟩ [n] := by
    refine .of_cells ⟨⟨rfl, hnext⟩, rfl, by simp⟩ ?_
    intro m hm
    obtain rfl := List.mem_singleton.mp hm
    exact ⟨_, hcell⟩
  have hdisj : (xs.map Node.addr).Disjoint ([n].map Node.addr) := by
    rw [List.map_singleton, List.disjoint_singleton]
    intro hmem
    obtain ⟨m, hm, heq⟩ := List.mem_map.mp hmem
    exact hn (heq ▸ hc.mem_dom hm)
  obtain ⟨st', happ, hc'⟩ := spdVariableAppend_spec hc1 hone hdisj
  refine ⟨st', happ, hc', ?_, ?_⟩
  · rw [append_dom happ, Heap.dom_set]
  · intro b hb hbx
    have hne : b ≠ n.addr := fun heq => hn (heq ▸ hb)
    have hlast : st1.category.last ≠ some b := fun hl => hbx (ChainOf.last_mem hc hl)
    exact (append_frame happ hlast).trans (Heap.get_set_of_ne _ _ hne)

/-- What `variable_clone` makes of a variable: all but the object flag. -/
def Copies (ys post : List Node) : Prop :=
  ys.map (fun n => (n.name, n.value, n.object)) = post.map fun n => (n.name, n.value, 0)

variable (calloc) in
/-- The copies are put behind the variables of the section, and everything else stays. -/
theorem inheritLoop_other {k : Nat} (hc : ChainOf st.heap st.category xs)
    (hbase : ChainOf st.heap c (pre ++ post))
    (hdisj : (xs.map Node.addr).Disjoint ((pre ++ post).map Node.addr)) (hk : post.length < k) :
    ∃ st' ys, inheritLoop calloc k st (post.head?.map Node.addr) = .ok st' ∧
      ChainOf st'.heap st'.category (xs ++ ys) ∧ Copies ys post ∧
      (∀ n ∈ ys, n.addr ∉ st.heap.dom) ∧ st.heap.dom ⊆ st'.heap.dom ∧
      ∀ b ∈ st.heap.dom, b ∉ xs.map Node.addr → st'.heap.get b = st.heap.get b := by
  induction post generalizing pre k st xs with
  | nil =>
    obtain ⟨k, rfl⟩ : ∃ j, k = j + 1 := ⟨k - 1, by omega⟩
    exact ⟨st, [], rfl, by simpa using hc, rfl, by simp, Finset.Subset.refl _, fun _ _ _ => rfl⟩
  | cons n post ih =>
    obtain ⟨k, rfl⟩ : ∃ j, k = j + 1 := ⟨k - 1, by omega⟩
    have hn := hbase.cells n (by simp)
    have hndom := hbase.mem_dom (n := n) (by simp)
    have hnx : n.addr ∉ xs.map Node.addr := fun hmem => hdisj hmem (by simp)
    let copy : Node := ⟨calloc.address st.heap, n.name, n.value, 0⟩
    have hfree : copy.addr ∉ st.heap.dom := calloc.unused st.heap
    obtain ⟨st1, happ, hc1, hdom1, hframe1⟩ := append_new hc hfree
    have hbase1 : ChainOf st1.heap c (pre ++ [n] ++ post) := by
      have hsplit : ChainOf st.heap c (pre ++ [n] ++ post) := by simpa using hbase
      refine hsplit.frame fun m hm => hframe1 m.addr (hsplit.mem_dom hm) fun hmem => ?_
      exact hdisj hmem (List.mem_map_of_mem (by simpa using hm))
    have hdisj1 : ((xs ++ [copy]).map Node.addr).Disjoint ((pre ++ [n] ++ post).map Node.addr) := by
      intro b hb hb'
      rw [List.map_append, List.mem_append, List.map_singleton, List.mem_singleton] at hb
      rcases hb with hin | rfl
      · exact hdisj hin (by simpa using hb')
      · obtain ⟨m, hm, heq⟩ := List.mem_map.mp hb'
        exact hfree (heq ▸ hbase.mem_dom (by simpa using hm))
    obtain ⟨st', ys, hloop, hc', hcopies, hfresh, hsub, hframe⟩ :=
      ih hc1 hbase1 hdisj1 (by simpa using hk)
    have hsub1 : st.heap.dom ⊆ st1.heap.dom := by
      rw [hdom1]
      exact Finset.subset_insert _ _
    refine ⟨st', copy :: ys, ?_, by simpa using hc', ?_, ?_, hsub1.trans hsub, ?_⟩
    · have hn1 := (hframe1 n.addr hndom hnx).trans hn
      rw [hbase.nextOf_eq] at hn1
      rw [List.head?_cons, Option.map_some, inheritLoop, deref_of_get hn, ok_bind]
      change (spdVariableAppend { st with
        heap := st.heap.set copy.addr ⟨copy.name, copy.value, copy.object, none⟩ }
        (some copy.addr) >>= _) = _
      rw [happ, ok_bind, deref_of_get hn1, ok_bind]
      exact hloop
    · rw [Copies, List.map_cons, List.map_cons, hcopies]
    · intro m hm
      rcases List.mem_cons.mp hm with rfl | hin
      · exact hfree
      · exact fun hmem => hfresh m hin (hsub1 hmem)
    · intro b hb hbx
      have hbx1 : b ∉ (xs ++ [copy]).map Node.addr := by
        rw [List.map_append, List.mem_append, List.map_singleton, List.mem_singleton, not_or]
        refine ⟨hbx, ?_⟩
        rintro rfl
        exact hfree hb
      exact (hframe b (hsub1 hb) hbx1).trans (hframe1 b hb hbx)

/-- Along its own chain the loop never ends: there is always one more variable. -/
theorem inheritLoop_self (k : Nat) (hc : ChainOf st.heap st.category (pre ++ n :: post)) :
    inheritLoop calloc k st (some n.addr) = .timeout := by
  induction k generalizing pre n post st with
  | zero => rfl
  | succ k ih =>
    have hn := hc.cells n (by simp)
    let copy : Node := ⟨calloc.address st.heap, n.name, n.value, 0⟩
    obtain ⟨st1, happ, hc1, -, -⟩ := append_new hc (n := copy) (calloc.unused st.heap)
    obtain ⟨m, rest, hrest⟩ : ∃ m rest, post ++ [copy] = m :: rest :=
      List.exists_cons_of_ne_nil (by simp)
    have hc2 : ChainOf st1.heap st1.category (pre ++ n :: m :: rest) := by
      rw [← hrest]
      simpa using hc1
    have hn1 := hc2.cells n (by simp)
    rw [hc2.nextOf_eq] at hn1
    rw [inheritLoop, deref_of_get hn, ok_bind]
    change (spdVariableAppend { st with
      heap := st.heap.set copy.addr ⟨copy.name, copy.value, copy.object, none⟩ }
      (some copy.addr) >>= _) = _
    rw [happ, ok_bind, deref_of_get hn1, ok_bind]
    have hc3 : ChainOf st1.heap st1.category ((pre ++ [n]) ++ m :: rest) := by simpa using hc2
    exact ih hc3

/-- With more fuel the loop ends as it did. -/
theorem inheritLoop_mono {k : Nat} (more : Nat) (h : inheritLoop calloc k st p ≠ .timeout) :
    inheritLoop calloc (k + more) st p = inheritLoop calloc k st p := by
  induction k generalizing st p with
  | zero => exact absurd rfl h
  | succ k ih =>
    rw [Nat.succ_add]
    cases p with
    | none => rfl
    | some var =>
      rw [inheritLoop] at h ⊢
      rw [inheritLoop]
      cases hv : deref st.heap var with
      | fault | overflow | timeout => rfl
      | ok v =>
        simp only [hv, ok_bind] at h ⊢
        cases happ : spdVariableAppend
            { st with heap := st.heap.set (calloc.address st.heap) ⟨v.name, v.value, 0, none⟩ }
            (some (calloc.address st.heap)) with
        | fault | overflow | timeout => rfl
        | ok st1 =>
          simp only [happ, ok_bind] at h ⊢
          cases hw : deref st1.heap var with
          | fault | overflow | timeout => rfl
          | ok w =>
            simp only [hw, ok_bind] at h ⊢
            exact ih h

theorem inheritLoop_settles {k : Nat} {p : Option Addr} (h : inheritLoop calloc k st p = .ok st') :
    Settles (fun fuel => inheritLoop calloc fuel st p) (.ok st') :=
  .of_mono (fun _ more => inheritLoop_mono more) h nofun

end

section

variable {calloc} {s : Header} {cfg : SpdConfig} {ns : Nat → List Node} {i j base : Nat}

/-! ## One option -/

@[simp] theorem SpdConfig.put_length (st : St) : (cfg.put i st).sections.length
    = cfg.sections.length := List.length_modify ..

theorem SpdConfig.chain_eq {sec : Section} (h : cfg.sections[i]? = some sec) :
    cfg.chain i = sec.chain := by
  rw [SpdConfig.chain, h]
  rfl

/-- A change of something else in a section leaves the names, and likewise the chains. -/
theorem map_modify {β : Type} (sections : List Section) (i : Nat) {f : Section → Section}
    {view : Section → β} (hf : ∀ sec, view (f sec) = view sec) :
    (sections.modify i f).map view = sections.map view := by
  apply List.ext_getElem?
  intro j
  rw [List.getElem?_map, List.getElem?_map, List.getElem?_modify]
  cases sections[j]? with
  | none => rfl
  | some sec =>
    simp only [Option.map_eq_map, Option.map_some]
    split
    · rw [hf]
    · rfl

theorem SpdConfig.put_names (st : St) :
    (cfg.put i st).sections.map Section.name = cfg.sections.map Section.name :=
  map_modify _ _ fun _ => rfl

theorem Holds.chain (hs : Holds cfg ns) (hi : i < cfg.sections.length) :
    ChainOf cfg.heap (cfg.chain i) (ns i) := by
  have hget := List.getElem?_eq_getElem hi
  rw [SpdConfig.chain_eq hget]
  exact hs.chains i _ hget

/-- New variables are put behind those of a section. -/
theorem Holds.put {st : St} {ys : List Node} (hs : Holds cfg ns) (hi : i < cfg.sections.length)
    (hc : ChainOf st.heap st.category (ns i ++ ys))
    (hfresh : ∀ n ∈ ys, ∀ j, j < cfg.sections.length → j ≠ i → n.addr ∉ (ns j).map Node.addr)
    (hframe : ∀ b ∈ cfg.heap.dom, b ∉ (ns i).map Node.addr → b ∉ ys.map Node.addr →
      st.heap.get b = cfg.heap.get b) :
    Holds (cfg.put i st) (Function.update ns i (ns i ++ ys)) := by
  have hother : ∀ j, j < cfg.sections.length → j ≠ i →
      ((ns i ++ ys).map Node.addr).Disjoint ((ns j).map Node.addr) := by
    intro j hj hji a ha ha'
    rw [List.map_append, List.mem_append] at ha
    rcases ha with hin | hin
    · exact hs.disjoint i j hi hj (Ne.symm hji) hin ha'
    · obtain ⟨n, hn, rfl⟩ := List.mem_map.mp hin
      exact hfresh n hn j hj hji ha'
  constructor
  · intro j sec hj
    have hlen : j < cfg.sections.length := by
      rw [← SpdConfig.put_length st]
      exact (List.getElem?_eq_some_iff.mp hj).1
    rw [SpdConfig.put, List.getElem?_modify, List.getElem?_eq_getElem hlen] at hj
    by_cases hji : j = i
    · subst hji
      obtain rfl : _ = sec := by simpa using hj
      rw [Function.update_self]
      exact hc
    · obtain rfl : _ = sec := by simpa [Ne.symm hji] using hj
      rw [Function.update_of_ne hji]
      have hcj := hs.chains j _ (List.getElem?_eq_getElem hlen)
      refine hcj.frame fun n hn => hframe n.addr (hcj.mem_dom hn) ?_ ?_
      · exact fun hmem => hs.disjoint i j hi hlen (Ne.symm hji) hmem (List.mem_map_of_mem hn)
      · intro hmem
        obtain ⟨m, hm, heq⟩ := List.mem_map.mp hmem
        exact hfresh m hm j hlen hji (heq ▸ List.mem_map_of_mem hn)
  · intro j k hj hk hjk
    rw [SpdConfig.put_length] at hj hk
    by_cases hji : j = i
    · subst hji
      rw [Function.update_self, Function.update_of_ne (Ne.symm hjk)]
      exact hother k hk (Ne.symm hjk)
    · rw [Function.update_of_ne hji]
      by_cases hki : k = i
      · subst hki
        rw [Function.update_self]
        exact (hother j hj hji).symm
      · rw [Function.update_of_ne hki]
        exact hs.disjoint j k hj hk hjk

/-- Where `*cat` is: the chains of the header are those of all its sections. -/
structure Header.Holds (s : Header) (ns : Nat → List Node) : Prop where
  all : Inherit.Holds s.all ns
  sel : s.sel < s.all.sections.length

theorem Header.all_heap : s.all.heap = s.cfg.heap := by
  cases s with
  | mk cfg cat => cases cat <;> rfl

theorem Header.all_get (h : base < s.cfg.sections.length) :
    s.all.sections[base]? = s.cfg.sections[base]? := by
  cases s with
  | mk cfg cat =>
    cases cat with
    | new sec => exact List.getElem?_append_left h
    | old i => rfl

theorem Header.length_le : s.cfg.sections.length ≤ s.all.sections.length := by
  cases s with
  | mk cfg cat =>
    cases cat with
    | new sec => simp [Header.all]
    | old i => exact Nat.le_refl _

theorem Header.chain_eq : s.chain = s.all.chain s.sel := by
  cases s with
  | mk cfg cat =>
    cases cat with
    | new sec => simp [Header.chain, Header.all, Header.sel, SpdConfig.chain]
    | old i => rfl

theorem modify_concat {β : Type} (l : List β) (b : β) (f : β → β) :
    (l ++ [b]).modify l.length f = l ++ [f b] := by
  induction l with
  | nil => rfl
  | cons x l ih => simpa using ih

theorem Header.put_all (st : St) : (s.put st).all = s.all.put s.sel st := by
  cases s with
  | mk cfg cat =>
    cases cat with
    | new sec => simp only [Header.put, Header.all, Header.sel, SpdConfig.put, modify_concat]
    | old i => rfl

theorem Header.put_sel (st : St) : (s.put st).sel = s.sel := by
  cases s with
  | mk cfg cat => cases cat <;> rfl

theorem Header.put_names (st : St) : (s.put st).cfg.sections.map Section.name
    = s.cfg.sections.map Section.name := by
  cases s with
  | mk cfg cat =>
    cases cat with
    | new sec => rfl
    | old i => exact map_modify _ _ fun _ => rfl

theorem Header.Holds.chain (hs : s.Holds ns) :
    ChainOf (St.mk s.cfg.heap s.chain).heap (St.mk s.cfg.heap s.chain).category (ns s.sel) := by
  have hsel := hs.all.chain hs.sel
  rw [Header.all_heap, ← Header.chain_eq] at hsel
  exact hsel

theorem Header.Holds.baseChain (hs : s.Holds ns) (hbase : base < s.cfg.sections.length) :
    ChainOf s.cfg.heap (s.cfg.chain base) (ns base) := by
  have hb := hs.all.chain (Nat.lt_of_lt_of_le hbase s.length_le)
  rw [Header.all_heap, SpdConfig.chain, s.all_get hbase] at hb
  exact hb

/-- The loop on a base, and what it leaves to do. -/
theorem inheritSection_of_loop {st' : St}
    (h : Settles (fun fuel => inheritLoop calloc fuel ⟨s.cfg.heap, s.chain⟩
      (s.cfg.chain base).root) (.ok st')) :
    Settles (fun fuel => inheritSection calloc fuel s base) (.ok (s.put st')) := by
  have hput : ∀ st, (Outcome.ok st' : Outcome St) = .ok st →
      Settles (fun _ : Nat => Outcome.ok (s.put st)) (Outcome.ok (s.put st)) :=
    fun st _ => .const _
  exact h.bind hput

variable (calloc) in
/-- The variables of a base are copied to `*cat`. -/
theorem inheritSection_settles (hs : s.Holds ns) (hbase : base < s.cfg.sections.length)
    (hother : base ≠ s.sel ∨ ns base = []) :
    ∃ st ys, Settles (fun fuel => inheritSection calloc fuel s base) (.ok (s.put st)) ∧
      (s.put st).Holds (Function.update ns s.sel (ns s.sel ++ ys)) ∧ Copies ys (ns base) := by
  have hb := hs.baseChain hbase
  have hroot : (s.cfg.chain base).root = (ns base).head?.map Node.addr := by
    rw [← List.head?_map]
    exact hb.chain.first_eq
  have hlt : ∀ st, (s.put st).sel < (s.put st).all.sections.length := by
    intro st
    rw [Header.put_sel, Header.put_all, SpdConfig.put_length]
    exact hs.sel
  by_cases hself : base = s.sel
  · have hnil := hother.resolve_left (fun hne => hne hself)
    have hloop : inheritLoop calloc 1 ⟨s.cfg.heap, s.chain⟩ (s.cfg.chain base).root
        = .ok ⟨s.cfg.heap, s.chain⟩ := by
      rw [hroot, hnil]
      rfl
    refine ⟨⟨s.cfg.heap, s.chain⟩, [], inheritSection_of_loop (inheritLoop_settles hloop),
      ⟨?_, hlt _⟩, ?_⟩
    · rw [Header.put_all]
      refine hs.all.put hs.sel (by simpa using hs.chain) (by simp) ?_
      intro b _ _ _
      rw [Header.all_heap]
    · rw [hnil]
      rfl
  · have hdisj : ((ns s.sel).map Node.addr).Disjoint (([] ++ ns base).map Node.addr) :=
      hs.all.disjoint s.sel base hs.sel (Nat.lt_of_lt_of_le hbase s.length_le) (Ne.symm hself)
    have hb' : ChainOf (St.mk s.cfg.heap s.chain).heap (s.cfg.chain base) ([] ++ ns base) := hb
    obtain ⟨st, ys, hloop, hc, hcopies, hfresh, -, hframe⟩ :=
      inheritLoop_other calloc hs.chain hb' hdisj (Nat.lt_succ_self _)
    rw [← hroot] at hloop
    refine ⟨st, ys, inheritSection_of_loop (inheritLoop_settles hloop), ⟨?_, hlt st⟩, hcopies⟩
    · rw [Header.put_all]
      refine hs.all.put hs.sel hc ?_ ?_
      · intro n hn j hj _ hmem
        obtain ⟨m, hm, heq⟩ := List.mem_map.mp hmem
        have hdom := (hs.all.chain hj).mem_dom hm
        rw [Header.all_heap] at hdom
        exact hfresh n hn (heq ▸ hdom)
      · intro b hb hbs _
        rw [Header.all_heap] at hb ⊢
        exact hframe b hb hbs

variable (calloc) in
/-- A section with variables that inherits from itself never has them all. -/
theorem inheritSection_self (hs : s.Holds ns) (hne : ns s.sel ≠ [])
    (hbase : s.sel < s.cfg.sections.length) :
    Settles (fun fuel => inheritSection calloc fuel s s.sel) .timeout := by
  obtain ⟨n, post, hcons⟩ := List.exists_cons_of_ne_nil hne
  have hb := hs.baseChain hbase
  have hc := hs.chain
  have hroot : (s.cfg.chain s.sel).root = some n.addr := by
    have hfirst := hb.chain.first_eq
    rw [hcons] at hfirst
    exact hfirst
  rw [hcons] at hc
  refine .of_timeout fun fuel => ?_
  have hc' : ChainOf (St.mk s.cfg.heap s.chain).heap (St.mk s.cfg.heap s.chain).category
      ([] ++ n :: post) := hc
  rw [inheritSection, hroot, inheritLoop_self fuel hc']
  rfl

theorem Header.Holds.config (hs : s.Holds ns) : Inherit.Holds s.cfg ns := by
  constructor
  · intro i sec hi
    have hlt := (List.getElem?_eq_some_iff.mp hi).1
    rw [← s.all_get hlt] at hi
    exact s.all_heap ▸ hs.all.chains i sec hi
  · intro i j hi hj hij
    exact hs.all.disjoint i j (Nat.lt_of_lt_of_le hi s.length_le)
      (Nat.lt_of_lt_of_le hj s.length_le) hij

/-- At a `+` the variables that the new section has by then are moved to the old one. -/
theorem moveVariables_eq {newcat : Section} (hs : s.Holds ns) (hcat : s.cat = .new newcat)
    (hi : i < s.cfg.sections.length) :
    ∃ st, moveVariables newcat.chain ⟨s.cfg.heap, s.cfg.chain i⟩
        = .ok ({ newcat.chain with root := none }, st) ∧
      (Header.mk (s.cfg.put i st) (.old i)).Holds (Function.update ns i (ns i ++ ns s.sel)) := by
  have hsel : s.sel = s.cfg.sections.length := by rw [Header.sel, hcat]
  have hchain : s.chain = newcat.chain := by rw [Header.chain, hcat]
  have hc : ChainOf (St.mk s.cfg.heap (s.cfg.chain i)).heap
      (St.mk s.cfg.heap (s.cfg.chain i)).category (ns i) := hs.baseChain hi
  have hnew := hs.chain
  rw [hchain] at hnew
  have hdisj := hs.all.disjoint i s.sel (Nat.lt_of_lt_of_le hi s.length_le) hs.sel (by omega)
  obtain ⟨st, happ, hc', hframe⟩ := append_list hc hnew hdisj
  refine ⟨st, by rw [moveVariables, happ, ok_bind], ?_, ?_⟩
  · refine hs.config.put hi hc' ?_ ?_
    · intro n hn j hj _ hmem
      have hother := hs.all.disjoint s.sel j hs.sel (Nat.lt_of_lt_of_le hj s.length_le) (by omega)
      exact hother (List.mem_map_of_mem hn) hmem
    · intro b _ hb _
      exact hframe b hb
  · simpa [Header.all, Header.sel] using hi

theorem Holds.of_chains {cfg' : SpdConfig} (hs : Holds cfg ns)
    (hchains : cfg'.sections.map Section.chain = cfg.sections.map Section.chain)
    (hheap : cfg'.heap = cfg.heap) : Holds cfg' ns := by
  have hlen : cfg'.sections.length = cfg.sections.length := by
    simpa using congrArg List.length hchains
  constructor
  · intro i sec hi
    have hmap := congrArg (·[i]?) hchains
    simp only [List.getElem?_map, hi, Option.map_some] at hmap
    obtain ⟨sec', hi', hchain⟩ := Option.map_eq_some_iff.mp hmap.symm
    rw [hheap, ← hchain]
    exact hs.chains i sec' hi'
  · intro i j hi hj hij
    exact hs.disjoint i j (hlen ▸ hi) (hlen ▸ hj) hij

theorem ignore_holds (hs : s.Holds ns) : s.ignore.Holds ns ∧ s.ignore.sel = s.sel ∧
    s.ignore.cfg.sections.map Section.name = s.cfg.sections.map Section.name := by
  cases s with
  | mk cfg cat =>
    cases cat with
    | new sec =>
      refine ⟨⟨hs.all.of_chains ?_ rfl, ?_⟩, rfl, rfl⟩
      · simp [Header.ignore, Header.all]
      · simp [Header.ignore, Header.all, Header.sel]
    | old i =>
      refine ⟨⟨hs.all.of_chains (map_modify _ _ fun _ => rfl) rfl, ?_⟩, rfl,
        map_modify _ _ fun _ => rfl⟩
      have hsel := hs.sel
      simpa [Header.ignore, Header.all, Header.sel] using hsel

/-! ## The options of a header -/

/-- The section of a name, ignored or not, as far as the names alone decide. -/
def resolve (names : List CString) (name : CString) : Option Nat :=
  names.findIdx? fun x => strcasecmp x name == 0

theorem sectionGet_eq (sections : List Section) (name : CString) :
    sectionGet sections name true = resolve (sections.map Section.name) name := by
  rw [sectionGet, resolve, List.findIdx?_map]
  congr
  funext sec
  simp

theorem resolve_lt {names : List CString} {name : CString} (h : resolve names name = some i) :
    i < names.length := (List.findIdx?_eq_some_iff_findIdx_eq.mp h).1

/-- The option is neither `!` nor `+`. -/
def IsBase (cur : CString) : Prop := strcasecmp cur (lit "!") ≠ 0 ∧ strcasecmp cur (lit "+") ≠ 0

/-- The option is `+`. -/
def IsPlus (cur : CString) : Prop := strcasecmp cur (lit "!") ≠ 0 ∧ strcasecmp cur (lit "+") = 0

instance (cur : CString) : Decidable (IsBase cur) := inferInstanceAs (Decidable (_ ∧ _))

instance (cur : CString) : Decidable (IsPlus cur) := inferInstanceAs (Decidable (_ ∧ _))

/-- The size of the section of that name. -/
def sizeAt (names : List CString) (size : Nat → Nat) (name : CString) : Nat :=
  ((resolve names name).map size).getD 0

/-- The options come to an end, on the sizes of the sections alone. `old` says whether there was a
    `+`, and `total` how many variables `*cat` has. -/
def Ends (names : List CString) (size : Nat → Nat) (catname : CString) :
    Bool → Nat → List CString → Prop
  | _, _, [] => True
  | old, total, cur :: rest =>
    if IsPlus cur then
      Ends names size catname true (if old then total else total + sizeAt names size catname) rest
    else if IsBase cur then
      if old ∧ resolve names cur = resolve names catname then
        total = 0 ∧ Ends names size catname old total rest
      else Ends names size catname old (total + sizeAt names size cur) rest
    else Ends names size catname old total rest

/-- The header and the sizes of the sections. -/
structure Sim (names : List CString) (size : Nat → Nat) (catname : CString) (old : Bool)
    (s : Header) (ns : Nat → List Node) : Prop where
  holds : s.Holds ns
  named : s.cfg.sections.map Section.name = names
  selected : old = true → ∃ i, s.cat = .old i ∧ resolve names catname = some i
  fresh : old = false → ∃ sec, s.cat = .new sec
  sizes : ∀ j, j < names.length → j ≠ s.sel → (ns j).length = size j

/-- A `+` stands only for a section that exists, and so does a base. -/
def Allowed (names : List CString) (catname cur : CString) : Prop :=
  (IsPlus cur → resolve names catname ≠ none) ∧ (IsBase cur → resolve names cur ≠ none)

/-- How many variables a chain has. -/
def chainLength (h : Heap Variable) : Nat → Option Addr → Nat
  | 0, _ | _ + 1, none => 0
  | fuel + 1, some a =>
    match h.get a with
    | some v => chainLength h fuel v.next + 1
    | none => 0

/-- How many variables a section has. -/
def SpdConfig.count (cfg : SpdConfig) (i : Nat) : Nat :=
  chainLength cfg.heap (cfg.heap.dom.card + 1) (cfg.chain i).root

/-- How many variables the base has that the option names. -/
def Header.baseCount (s : Header) (cur : CString) : Nat :=
  if IsBase cur then sizeAt (s.cfg.sections.map Section.name) s.cfg.count cur else 0

theorem chainLength_eq {h : Heap Variable} {c : Config.Section} {pre post : List Node} {k : Nat}
    (hc : ChainOf h c (pre ++ post)) (hk : post.length < k) :
    chainLength h k (post.head?.map Node.addr) = post.length := by
  induction post generalizing pre k with
  | nil =>
    obtain ⟨k, rfl⟩ : ∃ j, k = j + 1 := ⟨k - 1, by omega⟩
    rfl
  | cons n post ih =>
    obtain ⟨k, rfl⟩ : ∃ j, k = j + 1 := ⟨k - 1, by omega⟩
    have hc' : ChainOf h c (pre ++ [n] ++ post) := by simpa using hc
    rw [List.head?_cons, Option.map_some, chainLength, hc.cells n (by simp), hc.nextOf_eq]
    exact congrArg (· + 1) (ih hc' (by simpa using hk))

theorem Holds.count (hs : Holds cfg ns) (hi : i < cfg.sections.length) :
    cfg.count i = (ns i).length := by
  have hc := hs.chain hi
  have hnil : ChainOf cfg.heap (cfg.chain i) ([] ++ ns i) := hc
  have hroot : (cfg.chain i).root = (ns i).head?.map Node.addr := by
    rw [← List.head?_map]
    exact hc.chain.first_eq
  rw [SpdConfig.count, hroot]
  exact chainLength_eq hnil (Nat.lt_succ_of_le hc.length_le)

end

section

variable {calloc : Calloc} {s : Header} {ns : Nat → List Node} {names : List CString}
  {size : Nat → Nat} {catname cur : CString} {old : Bool}

variable (calloc) in
/-- An option `!`. -/
theorem option_exclaim (hsim : Sim names size catname old s ns) (hplus : ¬ IsPlus cur)
    (hbase : ¬ IsBase cur) :
    Settles (fun fuel => headerOption calloc fuel catname s cur) (.ok (some s.ignore)) ∧
      Sim names size catname old s.ignore ns ∧ s.ignore.sel = s.sel := by
  have hcur : strcasecmp cur (lit "!") = 0 := by
    by_contra hne
    by_cases hp : strcasecmp cur (lit "+") = 0
    · exact hplus ⟨hne, hp⟩
    · exact hbase ⟨hne, hp⟩
  obtain ⟨hholds, hsel, hnames⟩ := ignore_holds hsim.holds
  refine ⟨?_, ⟨hholds, hnames.trans hsim.named, ?_, ?_, ?_⟩, hsel⟩
  · have hconst : (fun fuel => headerOption calloc fuel catname s cur)
        = fun _ => .ok (some s.ignore) := by
      funext fuel
      rw [headerOption, if_pos hcur]
    rw [hconst]
    exact .const _
  · intro hold
    obtain ⟨i, hcat, hi⟩ := hsim.selected hold
    exact ⟨i, by rw [Header.ignore, hcat], hi⟩
  · intro hold
    obtain ⟨sec, hcat⟩ := hsim.fresh hold
    exact ⟨_, by rw [Header.ignore, hcat]⟩
  · rw [hsel]
    exact hsim.sizes

variable (calloc) in
/-- The first option `+`. -/
theorem option_plus_new (hsim : Sim names size catname false s ns) (hplus : IsPlus cur)
    {i : Nat} (hi : resolve names catname = some i) :
    ∃ s' ns', Settles (fun fuel => headerOption calloc fuel catname s cur) (.ok (some s')) ∧
      Sim names size catname true s' ns' ∧ s'.sel = i ∧
      (ns' i).length = (ns s.sel).length + size i := by
  obtain ⟨newcat, hcat⟩ := hsim.fresh rfl
  have hlen : s.cfg.sections.length = names.length := by
    rw [← hsim.named, List.length_map]
  have hlt : i < s.cfg.sections.length := hlen ▸ resolve_lt hi
  have hsel : s.sel = s.cfg.sections.length := by rw [Header.sel, hcat]
  have hget : sectionGet s.cfg.sections catname true = some i := by
    rw [sectionGet_eq, hsim.named, hi]
  obtain ⟨st, hmove, hholds⟩ := moveVariables_eq hsim.holds hcat hlt
  have hsizei := hsim.sizes i (hlen ▸ hlt) (by omega)
  refine ⟨_, _, ?_, ⟨hholds, ?_, ?_, nofun, ?_⟩, rfl, ?_⟩
  · have hconst : (fun fuel => headerOption calloc fuel catname s cur)
        = fun _ => .ok (some ⟨s.cfg.put i st, .old i⟩) := by
      funext fuel
      rw [headerOption, if_neg hplus.1, if_pos hplus.2]
      simp only [hget, hcat, hmove, ok_bind]
    rw [hconst]
    exact .const _
  · exact (SpdConfig.put_names st).trans hsim.named
  · intro _
    exact ⟨i, rfl, hi⟩
  · intro j hj hji
    have hne : j ≠ i := hji
    rw [Function.update_of_ne hne]
    exact hsim.sizes j hj (by omega)
  · rw [Function.update_self, List.length_append, hsizei, Nat.add_comm]

/-- A `+` behind another one. -/
theorem option_plus_old (hsim : Sim names size catname true s ns) (hplus : IsPlus cur) :
    Settles (fun fuel => headerOption calloc fuel catname s cur) (.ok (some s)) := by
  obtain ⟨i, hcat, hi⟩ := hsim.selected rfl
  have hget : sectionGet s.cfg.sections catname true = some i := by
    rw [sectionGet_eq, hsim.named, hi]
  have hconst : (fun fuel => headerOption calloc fuel catname s cur) = fun _ => .ok (some s) := by
    funext fuel
    rw [headerOption, if_neg hplus.1, if_pos hplus.2]
    simp only [hget, hcat]
    rw [← hcat]
  rw [hconst]
  exact .const _

variable (calloc) in
/-- A base that is not `*cat`, or has no variables. -/
theorem option_base (hsim : Sim names size catname old s ns) (hbase : IsBase cur) {base : Nat}
    (hb : resolve names cur = some base) (hother : base ≠ s.sel ∨ ns base = []) :
    ∃ s' ns', Settles (fun fuel => headerOption calloc fuel catname s cur) (.ok (some s')) ∧
      Sim names size catname old s' ns' ∧ s'.sel = s.sel ∧
      (ns' s.sel).length = (ns s.sel).length + (ns base).length := by
  have hlen : s.cfg.sections.length = names.length := by
    rw [← hsim.named, List.length_map]
  have hlt : base < s.cfg.sections.length := hlen ▸ resolve_lt hb
  have hget : sectionGet s.cfg.sections cur true = some base := by
    rw [sectionGet_eq, hsim.named, hb]
  obtain ⟨st, ys, hsettles, hholds, hcopies⟩ :=
    inheritSection_settles calloc hsim.holds hlt hother
  have hys : ys.length = (ns base).length := by
    simpa [Copies] using congrArg List.length hcopies
  have hnamed := (s.put_names st).trans hsim.named
  refine ⟨s.put st, _, ?_, ⟨hholds, hnamed, ?_, ?_, ?_⟩, s.put_sel st, ?_⟩
  · have hloop : (fun fuel => headerOption calloc fuel catname s cur)
        = fun fuel => inheritSection calloc fuel s base >>= fun s => .ok (some s) := by
      funext fuel
      rw [headerOption, if_neg hbase.1, if_neg hbase.2]
      simp only [hget]
    rw [hloop]
    exact hsettles.bind fun _ _ => .const _
  · intro hold
    obtain ⟨i, hcat, hi⟩ := hsim.selected hold
    exact ⟨i, by rw [Header.put, hcat], hi⟩
  · intro hold
    obtain ⟨sec, hcat⟩ := hsim.fresh hold
    exact ⟨_, by rw [Header.put, hcat]⟩
  · intro j hj hji
    rw [s.put_sel] at hji
    rw [Function.update_of_ne hji]
    exact hsim.sizes j hj hji
  · rw [Function.update_self, List.length_append, hys]

variable (calloc) in
/-- A base that is `*cat`, with variables. -/
theorem option_self (hsim : Sim names size catname true s ns) (hbase : IsBase cur)
    (hb : resolve names cur = some s.sel) (hne : ns s.sel ≠ []) :
    Settles (fun fuel => headerOption calloc fuel catname s cur) .timeout := by
  have hlen : s.cfg.sections.length = names.length := by
    rw [← hsim.named, List.length_map]
  have hget : sectionGet s.cfg.sections cur true = some s.sel := by
    rw [sectionGet_eq, hsim.named, hb]
  have hloop : (fun fuel => headerOption calloc fuel catname s cur)
      = fun fuel => inheritSection calloc fuel s s.sel >>= fun s => .ok (some s) := by
    funext fuel
    rw [headerOption, if_neg hbase.1, if_neg hbase.2]
    simp only [hget]
  have hend : Settles (fun fuel => inheritSection calloc fuel s s.sel >>= fun s => .ok (some s))
      (.timeout >>= fun s => .ok (some s)) :=
    (inheritSection_self calloc hsim.holds hne (hlen ▸ resolve_lt hb)).bind nofun
  rw [hloop]
  exact hend

/-- How many variables the options add, where each base counts when it is reached. -/
def baseCounts (calloc : Calloc) (fuel : Nat) (catname : CString) : List CString → Header → Nat
  | [], _ => 0
  | cur :: rest, s => s.baseCount cur +
    match headerOption calloc fuel catname s cur with
    | .ok (some s) => baseCounts calloc fuel catname rest s
    | _ => 0

theorem baseCount_eq (hsim : Sim names size catname old s ns) (hbase : IsBase cur) {base : Nat}
    (hb : resolve names cur = some base) : s.baseCount cur = (ns base).length := by
  have hlen : s.cfg.sections.length = names.length := by
    rw [← hsim.named, List.length_map]
  rw [Header.baseCount, if_pos hbase, hsim.named, sizeAt, hb]
  exact hsim.holds.config.count (hlen ▸ resolve_lt hb)

theorem headerOptions_cons {s1 : Header} {rest : List CString} {r : Outcome (Option Header)}
    (hstep : Settles (fun fuel => headerOption calloc fuel catname s cur) (.ok (some s1)))
    (hrest : Settles (fun fuel => headerOptions calloc fuel catname rest s1) r) :
    Settles (fun fuel => headerOptions calloc fuel catname (cur :: rest) s) r := by
  have hbind : Settles (fun fuel => headerOption calloc fuel catname s cur >>= fun s' =>
      match s' with
      | none => .ok none
      | some s => headerOptions calloc fuel catname rest s) (.ok (some s1) >>= fun _ => r) := by
    refine hstep.bind (g := fun s' fuel => match s' with
      | none => .ok none
      | some s => headerOptions calloc fuel catname rest s) ?_
    intro v hv
    obtain rfl := Outcome.ok.inj hv
    exact hrest
  exact hbind

/-- An option that is never done. -/
theorem headerOptions_stuck {rest : List CString}
    (hstep : Settles (fun fuel => headerOption calloc fuel catname s cur) .timeout) :
    Settles (fun fuel => headerOptions calloc fuel catname (cur :: rest) s) .timeout := by
  refine .of_timeout fun fuel => ?_
  have hnever : headerOption calloc fuel catname s cur = .timeout := by
    rcases hstep.sound fuel with h | h <;> exact h
  rw [headerOptions, hnever]
  rfl

theorem baseCounts_cons {s1 s' : Header} {rest : List CString} {fuel : Nat}
    (hstep : Settles (fun fuel => headerOption calloc fuel catname s cur) (.ok (some s1)))
    (hrun : headerOptions calloc fuel catname (cur :: rest) s = .ok (some s')) :
    headerOptions calloc fuel catname rest s1 = .ok (some s') ∧
      baseCounts calloc fuel catname (cur :: rest) s
        = s.baseCount cur + baseCounts calloc fuel catname rest s1 := by
  rcases hstep.sound fuel with htimeout | hok
  · rw [headerOptions, htimeout] at hrun
    cases hrun
  · rw [headerOptions, hok] at hrun
    exact ⟨hrun, by rw [baseCounts, hok]⟩

/-- What a `+` among the options adds to the variables of `*cat`: those the old section has. -/
def joined (names : List CString) (size : Nat → Nat) (catname : CString) (old : Bool)
    (opts : List CString) : Nat :=
  if !old ∧ ∃ o ∈ opts, IsPlus o then sizeAt names size catname else 0

/-- The options are processed to their end, and each base has added its variables, where they
    end on the sizes alone; otherwise they are never done. -/
def Decided (calloc : Calloc) (names : List CString) (size : Nat → Nat) (catname : CString)
    (old : Bool) (opts : List CString) (s : Header) (ns : Nat → List Node) : Prop :=
  (Ends names size catname old (ns s.sel).length opts → ∃ s' ns',
    Settles (fun fuel => headerOptions calloc fuel catname opts s) (.ok (some s')) ∧
    Sim names size catname (old || opts.any fun o => IsPlus o) s' ns' ∧
    ∀ fuel, headerOptions calloc fuel catname opts s = .ok (some s') →
      (ns' s'.sel).length = (ns s.sel).length + baseCounts calloc fuel catname opts s +
        joined names size catname old opts) ∧
  (¬ Ends names size catname old (ns s.sel).length opts →
    Settles (fun fuel => headerOptions calloc fuel catname opts s) .timeout)

theorem Decided.cons {s1 : Header} {ns1 : Nat → List Node} {old1 : Bool} {rest : List CString}
    (hnext : Decided calloc names size catname old1 rest s1 ns1)
    (hstep : Settles (fun fuel => headerOption calloc fuel catname s cur) (.ok (some s1)))
    (hends : Ends names size catname old (ns s.sel).length (cur :: rest) ↔
      Ends names size catname old1 (ns1 s1.sel).length rest)
    (hold : old1 = (old || decide (IsPlus cur)))
    (hcount : (ns1 s1.sel).length + joined names size catname old1 rest
      = (ns s.sel).length + s.baseCount cur + joined names size catname old (cur :: rest)) :
    Decided calloc names size catname old (cur :: rest) s ns := by
  obtain ⟨hgood, hbad⟩ := hnext
  constructor
  · intro h
    obtain ⟨s', ns', hsettles, hfinal, hsum⟩ := hgood (hends.mp h)
    refine ⟨s', ns', headerOptions_cons hstep hsettles, ?_, ?_⟩
    · rw [List.any_cons, ← Bool.or_assoc, ← hold]
      exact hfinal
    · intro fuel hrun
      obtain ⟨hrun', hcounts⟩ := baseCounts_cons hstep hrun
      have hrest := hsum fuel hrun'
      omega
  · intro h
    exact headerOptions_cons hstep (hbad fun h' => h (hends.mpr h'))

theorem sel_eq (hsim : Sim names size catname true s ns) {i : Nat}
    (hi : resolve names catname = some i) : i = s.sel := by
  obtain ⟨j, hcat, hj⟩ := hsim.selected rfl
  rw [Header.sel, hcat]
  exact Option.some.inj (hi.symm.trans hj)

theorem joined_of_old (opts : List CString) : joined names size catname true opts = 0 := by
  simp [joined]

/-- A base, where the options behind it are decided. -/
theorem decided_base {rest : List CString} (hsim : Sim names size catname old s ns)
    (hbase : IsBase cur) {base : Nat} (hb : resolve names cur = some base)
    (hnext : ∀ s1 ns1, Sim names size catname old s1 ns1 →
      Decided calloc names size catname old rest s1 ns1) :
    Decided calloc names size catname old (cur :: rest) s ns := by
  have hplus : ¬ IsPlus cur := fun h => hbase.2 h.2
  have hcount := baseCount_eq hsim hbase hb
  have hjoined : joined names size catname old (cur :: rest)
      = joined names size catname old rest := by
    simp [joined, hplus]
  have hlen : s.cfg.sections.length = names.length := by
    rw [← hsim.named, List.length_map]
  by_cases hself : old = true ∧ resolve names cur = resolve names catname
  · have hends : Ends names size catname old (ns s.sel).length (cur :: rest) ↔
        (ns s.sel).length = 0 ∧ Ends names size catname old (ns s.sel).length rest := by
      rw [Ends, if_neg hplus, if_pos hbase, if_pos hself]
    have hsel : base = s.sel := by
      obtain ⟨rfl, hsame⟩ := hself
      exact sel_eq hsim (hsame.symm.trans hb)
    by_cases hnil : ns s.sel = []
    · obtain ⟨s1, ns1, hstep, hsim1, hsel1, hlen1⟩ :=
        option_base calloc hsim hbase hb (Or.inr (hsel ▸ hnil))
      rw [hsel, hnil] at hlen1
      refine (hnext s1 ns1 hsim1).cons hstep ?_ ?_ ?_
      · rw [hends, hsel1, hlen1, hnil]
        simp
      · simp [hplus]
      · rw [hsel1, hlen1, hjoined, hcount, hsel, hnil]
    · have hpos : (ns s.sel).length ≠ 0 := fun h => hnil (List.length_eq_zero_iff.mp h)
      refine ⟨fun h => absurd (hends.mp h).1 hpos, fun _ => ?_⟩
      obtain ⟨rfl, -⟩ := hself
      have hstep := option_self calloc hsim hbase (hsel ▸ hb) hnil
      exact headerOptions_stuck hstep
  · have hne : base ≠ s.sel := by
      cases old with
      | true =>
        obtain ⟨i, hcat, hi⟩ := hsim.selected rfl
        rintro rfl
        refine hself ⟨rfl, ?_⟩
        rw [hb, hi, Header.sel, hcat]
      | false =>
        obtain ⟨sec, hcat⟩ := hsim.fresh rfl
        have hlt := resolve_lt hb
        have hsel : s.sel = s.cfg.sections.length := by rw [Header.sel, hcat]
        omega
    obtain ⟨s1, ns1, hstep, hsim1, hsel1, hlen1⟩ :=
      option_base calloc hsim hbase hb (Or.inl hne)
    have hsize : sizeAt names size cur = (ns base).length := by
      rw [sizeAt, hb, hsim.sizes base (resolve_lt hb) hne]
      rfl
    refine (hnext s1 ns1 hsim1).cons hstep ?_ ?_ ?_
    · rw [Ends, if_neg hplus, if_pos hbase, if_neg hself, hsel1, hlen1, hsize]
    · simp [hplus]
    · rw [hsel1, hlen1, hjoined, hcount]

variable (calloc) in
theorem headerOptions_decided (opts : List CString) (hsim : Sim names size catname old s ns)
    (hallowed : ∀ cur ∈ opts, Allowed names catname cur) :
    Decided calloc names size catname old opts s ns := by
  induction opts generalizing old s ns with
  | nil =>
    refine ⟨fun _ => ⟨s, ns, .const _, by simpa using hsim, ?_⟩, fun hends => absurd trivial hends⟩
    intro fuel _
    simp [baseCounts, joined]
  | cons cur rest ih =>
    have hcur := hallowed cur (by simp)
    have hrest : ∀ o ∈ rest, Allowed names catname o := fun o ho =>
      hallowed o (List.mem_cons_of_mem cur ho)
    by_cases hplus : IsPlus cur
    · have hnobase : s.baseCount cur = 0 := by
        rw [Header.baseCount, if_neg fun hbase => hbase.2 hplus.2]
      cases old with
      | false =>
        obtain ⟨i, hi⟩ := Option.ne_none_iff_exists'.mp (hcur.1 hplus)
        obtain ⟨s1, ns1, hstep, hsim1, hsel, hlen⟩ := option_plus_new calloc hsim hplus hi
        have hsize : sizeAt names size catname = size i := by rw [sizeAt, hi]; rfl
        refine (ih hsim1 hrest).cons hstep ?_ ?_ ?_
        · rw [Ends, if_pos hplus, hsel, hlen, hsize]
          simp
        · simp [hplus]
        · rw [hsel, hlen, hnobase, joined_of_old, joined, if_pos ⟨rfl, cur, by simp, hplus⟩, hsize]
          omega
      | true =>
        refine (ih hsim hrest).cons (option_plus_old hsim hplus) ?_ ?_ ?_
        · rw [Ends, if_pos hplus, if_pos rfl]
        · simp
        · rw [hnobase, joined_of_old, joined_of_old]
    · have hjoined : joined names size catname old (cur :: rest)
          = joined names size catname old rest := by
        simp [joined, hplus]
      by_cases hbase : IsBase cur
      · obtain ⟨base, hb⟩ := Option.ne_none_iff_exists'.mp (hcur.2 hbase)
        exact decided_base hsim hbase hb fun s1 ns1 hsim1 => ih hsim1 hrest
      · obtain ⟨hstep, hsim', hsel⟩ := option_exclaim calloc hsim hplus hbase
        refine (ih hsim' hrest).cons hstep ?_ ?_ ?_
        · rw [Ends, if_neg hplus, if_neg hbase, hsel]
        · simp [hplus]
        · rw [hsel, Header.baseCount, if_neg hbase, hjoined]
          rfl

end

end Spider.Config.Inherit
