import Mathlib.Logic.Nontrivial.Defs
import Spider.Config.Section

/-!
# Loops that browse a configuration

A caller of `spd_section_browse` passes null first, and then what it was given
last (`config.h:114-125`). Between its calls other loops may browse the same
configuration; what they share is `last_browse`.
-/

namespace Spider.Config.Sections

open Lib Outcome CString

/-- What a browsing loop has been given so far: names of sections, and null at the end. -/
abbrev Received := List (Option Addr)

/-- What the loop passes next. After null it calls no more. -/
def nextArg (received : Received) : Option (Option NameArg) :=
  match received.getLast? with
  | none => some none
  | some (some a) => some (some (.nameOf a))
  | some none => none

/-- A configuration, and what each loop over it has been given. -/
structure Browsing (ι : Type) where
  st : St
  received : ι → Received

/-- The next call of a loop. -/
def turn {ι : Type} [DecidableEq ι] (s : Browsing ι) (i : ι) : Outcome (Browsing ι) :=
  match nextArg (s.received i) with
  | none => .ok s
  | some prev => do
    let (sec, st) ← spdSectionBrowse s.st prev
    .ok ⟨st, Function.update s.received i (s.received i ++ [sec])⟩

/-- The section is not ignored. -/
def isAvailable (st : St) (a : Addr) : Bool := (st.heap.get a).any fun s => s.ignored == 0

/-- The sections that are not ignored. -/
def available (st : St) (ns : List Addr) : List Addr := ns.filter (isAvailable st)

/-- What a loop should be given. -/
def enumeration (st : St) (ns : List Addr) : Received :=
  (available st ns).map some ++ [none]

/-- The last section is not ignored, and one in front of it has the same name. -/
def EndsOnRepeat (st : St) (ns : List Addr) : Prop :=
  ∃ pre z s, ns = pre ++ [z] ∧ st.heap.get z = some s ∧ s.ignored = 0 ∧
    ∃ b ∈ pre, ∃ t, st.heap.get b = some t ∧ strcasecmp t.name s.name = 0

section

variable {st : St} {ns pre post : List Addr} {a b : Addr} {v : Section} {first last : Option Addr}

/-! ## One call -/

/-- `next_available_section` on the rest of the list. -/
theorem nextAvailableSection_eq (hl : Linked Section.next st.heap first last (pre ++ post)) :
    nextAvailableSection st post.head? = .ok (available st post).head? := by
  have hlen : post.length < st.fuel := by
    have hall := fuel_lt hl
    rw [List.length_append] at hall
    omega
  obtain ⟨as, bs, rfl, hmiss, hhit, hwalk⟩ := hl.walk_eq (fun _ s => s.ignored == 0) none hlen
  rw [nextAvailableSection, hwalk, ok_bind, available, List.head?_filter]
  exact congrArg Outcome.ok (Linked.find?_split hmiss hhit).symm

/-- A loop of `spd_section_browse` stops behind the first section that passes. -/
theorem browseFrom_eq (hl : Linked Section.next st.heap st.cfg.root last ns)
    (test : Addr → Section → Bool) :
    ∃ pre post, ns = pre ++ post ∧ firstWhere st ns test = post.head? ∧
      browseFrom st test = .ok post.tail.head? := by
  obtain ⟨pre, post, rfl, hfirst, hsearch⟩ := search_eq hl test
  refine ⟨pre, post, rfl, hfirst, ?_⟩
  rw [browseFrom, hsearch, ok_bind]
  cases post with
  | nil => rfl
  | cons b post =>
    obtain ⟨v, hv⟩ := hl.get (a := b) (by simp)
    simp only [List.head?_cons, List.tail_cons, deref_of_get hv, ok_bind]
    exact congrArg Outcome.ok (hl.next_eq hv)

theorem firstWhere_eq_some {test : Addr → Section → Bool}
    (h : firstWhere st ns test = some a) : ∃ s, st.heap.get a = some s ∧ test a s = true := by
  rw [firstWhere, List.find?_eq_some_iff_append] at h
  exact (Option.any_eq_true _ _).mp h.1

theorem isNameOf_nameOf : (NameArg.nameOf a).isNameOf b = true ↔ b = a := by
  rw [NameArg.isNameOf, beq_iff_eq, NameArg.nameOf.injEq]
  exact eq_comm

theorem filter_isNameOf {p : Option Addr} :
    p.filter (NameArg.nameOf a).isNameOf = if p = some a then some a else none := by
  cases p with
  | none => simp
  | some b =>
    by_cases hb : b = a
    · simp [Option.filter, isNameOf_nameOf, hb]
    · simp [Option.filter, isNameOf_nameOf, hb]

/-- Looked for as a pointer, the name passed is found at its own section. -/
theorem browseFrom_nameOf
    (hl : Linked Section.next st.heap st.cfg.root last (pre ++ a :: post)) :
    browseFrom st (fun sec _ => (NameArg.nameOf a).isNameOf sec) = .ok post.head? := by
  obtain ⟨v, hv⟩ := hl.get (a := a) (by simp)
  obtain ⟨xs, ys, hsplit, hfirst, hfrom⟩ :=
    browseFrom_eq hl fun sec _ => (NameArg.nameOf a).isNameOf sec
  have hhit : firstWhere st (pre ++ a :: post) (fun sec _ => (NameArg.nameOf a).isNameOf sec)
      ≠ none := by
    intro hnone
    have hmiss := List.find?_eq_none.mp hnone a (by simp)
    simp [hv, isNameOf_nameOf] at hmiss
  cases ys with
  | nil => exact absurd hfirst hhit
  | cons b ys =>
    obtain ⟨-, -, htest⟩ := firstWhere_eq_some hfirst
    obtain rfl := isNameOf_nameOf.mp htest
    -- both splits are in front of the same section, so what its `next` points to heads both rests
    have hl' := hl
    rw [hsplit] at hl'
    rw [hfrom, List.tail_cons, ← hl'.next_eq hv, hl.next_eq hv]

/-- Nothing in front of the section, or nothing behind it that counts: the name search that
    follows the pointer search does no harm. -/
def Resolves (st : St) (pre : List Addr) (a : Addr) (post : List Addr) : Prop :=
  post ≠ [] ∨ ∀ b ∈ pre, ∀ s t, st.heap.get a = some s → st.heap.get b = some t →
    strcasecmp t.name s.name ≠ 0

/-- Wherever `last_browse` points, the call goes on behind the section. -/
theorem browseStart_nameOf
    (hl : Linked Section.next st.heap st.cfg.root last (pre ++ a :: post))
    (hok : st.cfg.lastBrowse = some a ∨ Resolves st pre a post) :
    browseStart st (some (.nameOf a)) = .ok post.head? := by
  obtain ⟨v, hv⟩ := hl.get (a := a) (by simp)
  rw [browseStart, filter_isNameOf]
  by_cases hlast : st.cfg.lastBrowse = some a
  · simp only [hlast, if_true, deref_of_get hv, ok_bind]
    exact congrArg Outcome.ok (hl.next_eq hv)
  · simp only [if_neg hlast, browseFrom_nameOf hl, ok_bind]
    cases post with
    | cons b post => rfl
    | nil =>
      have hdiff := hok.resolve_left hlast |>.resolve_left (by simp)
      simp only [List.head?_nil, NameArg.read, deref_of_get hv, ok_bind]
      obtain ⟨xs, ys, hsplit, hfirst, hfrom⟩ :=
        browseFrom_eq hl fun _ s => strcasecmp s.name v.name == 0
      rw [hfrom]
      cases ys with
      | nil => rfl
      | cons b ys =>
        -- the section found has the name, so it is the last one
        obtain ⟨t, ht, hname⟩ := firstWhere_eq_some hfirst
        have hlen := congrArg List.length hsplit
        cases ys with
        | nil => rfl
        | cons c ys =>
          have hpre : b ∈ pre := by
            have hdrop : (pre ++ [a]).dropLast = (xs ++ b :: c :: ys).dropLast := by rw [hsplit]
            rw [List.dropLast_concat] at hdrop
            rw [hdrop, List.dropLast_append_of_ne_nil (by simp)]
            simp
          exact absurd (beq_iff_eq.mp hname) (hdiff b hpre v t hv ht)

/-- The name search finds a section in front that has the same name. -/
theorem browseStart_repeat {z : Addr} {s t : Section}
    (hl : Linked Section.next st.heap st.cfg.root last (pre ++ [z]))
    (hlast : st.cfg.lastBrowse ≠ some z) (hz : st.heap.get z = some s) (hb : b ∈ pre)
    (ht : st.heap.get b = some t) (hname : strcasecmp t.name s.name = 0) :
    ∃ xs ys, pre ++ [z] = xs ++ ys ∧ z ∈ ys ∧
      browseStart st (some (.nameOf z)) = .ok ys.head? := by
  have hl' : Linked Section.next st.heap st.cfg.root last (pre ++ z :: []) := hl
  obtain ⟨xs, ys, hsplit, hfirst, hfrom⟩ :=
    browseFrom_eq hl fun _ s' => strcasecmp s'.name s.name == 0
  obtain ⟨c, hc, hfound⟩ : ∃ c ∈ pre, ys.head? = some c := by
    rw [← hfirst, firstWhere, List.find?_append]
    cases hfind : pre.find? fun a =>
        (st.heap.get a).any fun s' => strcasecmp s'.name s.name == 0 with
    | some c => exact ⟨c, List.mem_of_find?_eq_some hfind, rfl⟩
    | none =>
      have hmiss := List.find?_eq_none.mp hfind b hb
      simp [ht, hname] at hmiss
  cases ys with
  | nil => cases hfound
  | cons d ys =>
    obtain rfl := Option.some.inj hfound
    have hz' : z ∈ ys := by
      have hmem := congrArg List.getLast? hsplit
      rw [List.getLast?_concat, List.getLast?_append_of_ne_nil _ (by simp)] at hmem
      have hcz : d ≠ z := by
        rintro rfl
        exact (List.nodup_append.mp hl.chain.nodup).2.2 d hc d (by simp) rfl
      rcases List.mem_cons.mp (List.mem_of_getLast? hmem.symm) with h | h
      · exact absurd h.symm hcz
      · exact h
    refine ⟨xs ++ [d], ys, by simpa using hsplit, hz', ?_⟩
    rw [browseStart, filter_isNameOf, if_neg hlast]
    simp only [browseFrom_nameOf hl', List.head?_nil, ok_bind, NameArg.read, deref_of_get hz]
    exact hfrom

/-! ## What a loop should be given -/

theorem available_append : available st (pre ++ post) = available st pre ++ available st post :=
  List.filter_append ..

theorem mem_available :
    a ∈ available st ns ↔ a ∈ ns ∧ ∃ s, st.heap.get a = some s ∧ s.ignored = 0 := by
  simp [available, isAvailable, Option.any_eq_true]

/-- The sections behind the one a loop was given last are those it should still be given. -/
theorem available_split {n : Nat} (h : (available st ns)[n]? = some a) :
    ∃ pre post, ns = pre ++ a :: post ∧ available st post = (available st ns).drop (n + 1) := by
  induction ns generalizing n with
  | nil => simp [available] at h
  | cons b ns ih =>
    by_cases hb : isAvailable st b = true
    · rw [available, List.filter_cons_of_pos hb] at h ⊢
      cases n with
      | zero =>
        obtain rfl := Option.some.inj h
        exact ⟨[], ns, rfl, rfl⟩
      | succ n =>
        obtain ⟨pre, post, rfl, hpost⟩ := ih h
        exact ⟨b :: pre, post, rfl, hpost⟩
    · rw [available, List.filter_cons_of_neg hb] at h ⊢
      obtain ⟨pre, post, rfl, hpost⟩ := ih h
      exact ⟨b :: pre, post, rfl, hpost⟩

theorem take_succ_enumeration {n : Nat} (hn : n ≤ (available st ns).length) :
    (enumeration st ns).take (n + 1)
      = (enumeration st ns).take n ++ [(available st ns)[n]?] := by
  have hget : (enumeration st ns)[n]? = some (available st ns)[n]? := by
    rw [enumeration, List.getElem?_append, List.length_map, List.getElem?_map]
    split
    · next hlt => rw [List.getElem?_eq_getElem hlt, Option.map_some]
    · next hge =>
      obtain rfl : n = (available st ns).length := by omega
      simp
  rw [List.take_add_one, hget, Option.toList_some]

/-- After `n + 1` calls a loop goes on with what it was given by the last one. -/
theorem nextArg_enumeration (n : Nat) : nextArg ((enumeration st ns).take (n + 1))
    = (available st ns)[n]?.map fun a => some (.nameOf a) := by
  by_cases hn : n ≤ (available st ns).length
  · rw [nextArg, take_succ_enumeration hn, List.getLast?_concat]
    cases (available st ns)[n]? <;> rfl
  · have hall : (enumeration st ns).length ≤ n + 1 := by
      rw [enumeration, List.length_append, List.length_map, List.length_singleton]
      omega
    rw [List.take_of_length_le hall, nextArg, enumeration, List.getLast?_concat,
      List.getElem?_eq_none (by omega), Option.map_none]

/-! ## Turns -/

variable {ι : Type} {s s' : Browsing ι} {i j : ι} {calls : ι → Nat}

/-- Nothing but `last_browse` of the configuration has changed, and the loops have been given
    what they should be, in so many calls. -/
structure Given (st : St) (ns : List Addr) (calls : ι → Nat) (s : Browsing ι) : Prop where
  heap : s.st.heap = st.heap
  root : s.st.cfg.root = st.cfg.root
  received : ∀ i, s.received i = (enumeration st ns).take (calls i)

theorem Given.linked (hg : Given st ns calls s)
    (hl : Linked Section.next st.heap st.cfg.root last ns) :
    Linked Section.next s.st.heap s.st.cfg.root last ns := by
  rw [hg.heap, hg.root]
  exact hl

theorem Given.available_eq (hg : Given st ns calls s) (xs : List Addr) :
    available s.st xs = available st xs := by
  have hsame : isAvailable s.st = isAvailable st := by
    funext a
    rw [isAvailable, isAvailable, hg.heap]
  rw [available, available, hsame]

/-- The end of the list does no harm. -/
theorem Given.resolves (hg : Given st ns calls s) (hend : ¬ EndsOnRepeat st ns)
    (hsplit : ns = pre ++ a :: post) (ha : a ∈ available st ns) : Resolves s.st pre a post := by
  cases post with
  | cons b post => exact Or.inl (by simp)
  | nil =>
    obtain ⟨-, v, hv, hignored⟩ := mem_available.mp ha
    refine Or.inr fun b hb w t hw ht hname => hend ?_
    rw [hg.heap] at hw ht
    obtain rfl := Option.some.inj (hv.symm.trans hw)
    exact ⟨pre, a, v, hsplit, hv, hignored, b, hb, t, ht, hname⟩

variable [DecidableEq ι]

/-- The loop has been given one section more. -/
theorem Given.next (hg : Given st ns calls s) (hn : calls i ≤ (available st ns).length) :
    Given st ns (Function.update calls i (calls i + 1))
      ⟨{ s.st with cfg := { s.st.cfg with lastBrowse := (available st ns)[calls i]? } },
        Function.update s.received i (s.received i ++ [(available st ns)[calls i]?])⟩ := by
  refine ⟨hg.heap, hg.root, fun j => ?_⟩
  by_cases hj : j = i
  · subst hj
    simp only [Function.update_self]
    rw [hg.received, take_succ_enumeration hn]
  · simp only [Function.update_of_ne hj]
    exact hg.received j

/-- A loop that has been given null calls no more. -/
theorem Given.over (hg : Given st ns calls s) (hn : (available st ns).length < calls i) :
    turn s i = .ok s ∧ Given st ns (Function.update calls i (calls i + 1)) s := by
  obtain ⟨n, hcalls⟩ : ∃ n, calls i = n + 1 := ⟨calls i - 1, by omega⟩
  constructor
  · rw [turn, hg.received, hcalls, nextArg_enumeration, List.getElem?_eq_none (by omega)]
    rfl
  · refine ⟨hg.heap, hg.root, fun j => ?_⟩
    by_cases hj : j = i
    · subst hj
      have hall : (enumeration st ns).length ≤ calls j := by
        rw [enumeration, List.length_append, List.length_map, List.length_singleton]
        omega
      rw [Function.update_self, hg.received, List.take_of_length_le hall,
        List.take_of_length_le (by omega)]
    · rw [Function.update_of_ne hj]
      exact hg.received j

theorem turn_of_start {prev : Option NameArg} {start sec : Option Addr}
    (harg : nextArg (s.received i) = some prev) (hstart : browseStart s.st prev = .ok start)
    (hsec : nextAvailableSection s.st start = .ok sec) :
    turn s i = .ok ⟨{ s.st with cfg := { s.st.cfg with lastBrowse := sec } },
      Function.update s.received i (s.received i ++ [sec])⟩ := by
  simp only [turn, harg, spdSectionBrowse, hstart, hsec, ok_bind]

/-- Whatever the other loops have done, a call gives the next section. -/
theorem turn_given (hl : Linked Section.next st.heap st.cfg.root last ns)
    (hend : ¬ EndsOnRepeat st ns) (hg : Given st ns calls s) (i : ι) :
    ∃ s', turn s i = .ok s' ∧ Given st ns (Function.update calls i (calls i + 1)) s' := by
  have hl' := hg.linked hl
  by_cases hn : calls i ≤ (available st ns).length
  · refine ⟨_, ?_, hg.next hn⟩
    cases hcalls : calls i with
    | zero =>
      have harg : nextArg (s.received i) = some none := by
        rw [hg.received, hcalls]
        rfl
      have hfirst : Linked Section.next s.st.heap s.st.cfg.root last ([] ++ ns) := hl'
      have hsec := nextAvailableSection_eq hfirst
      rw [← hl'.chain.first_eq, hg.available_eq, List.head?_eq_getElem?] at hsec
      exact turn_of_start harg rfl hsec
    | succ n =>
      obtain ⟨a, ha⟩ : ∃ a, (available st ns)[n]? = some a :=
        ⟨_, List.getElem?_eq_getElem (by omega)⟩
      have harg : nextArg (s.received i) = some (some (.nameOf a)) := by
        rw [hg.received, hcalls, nextArg_enumeration, ha, Option.map_some]
      obtain ⟨pre, post, hsplit, hpost⟩ := available_split ha
      rw [hsplit] at hl'
      have hok := hg.resolves hend hsplit (List.mem_of_getElem? ha)
      have hstart := browseStart_nameOf hl' (Or.inr hok)
      have hbehind : Linked Section.next s.st.heap s.st.cfg.root last ((pre ++ [a]) ++ post) := by
        simpa using hl'
      have hsec := nextAvailableSection_eq hbehind
      rw [hg.available_eq, hpost, List.head?_drop] at hsec
      exact turn_of_start harg hstart hsec
  · obtain ⟨hturn, hg'⟩ := hg.over (i := i) (by omega)
    exact ⟨s, hturn, hg'⟩

theorem run_given (hl : Linked Section.next st.heap st.cfg.root last ns)
    (hend : ¬ EndsOnRepeat st ns) (turns : List ι) (hg : Given st ns calls s) :
    ∃ s', Run.run turn s turns = .ok s' ∧ Given st ns (fun i => calls i + turns.count i) s' := by
  induction turns generalizing calls s with
  | nil => exact ⟨s, rfl, hg⟩
  | cons i turns ih =>
    obtain ⟨s1, hturn, hg1⟩ := turn_given hl hend hg i
    obtain ⟨s', hrun, hg'⟩ := ih hg1
    refine ⟨s', (Run.run_cons_of_ok hturn turns).trans hrun, hg'.heap, hg'.root, fun j => ?_⟩
    rw [hg'.received]
    by_cases hj : j = i
    · subst hj
      rw [Function.update_self, List.count_cons_self, Nat.add_assoc, Nat.add_comm 1]
    · rw [Function.update_of_ne hj, List.count_cons_of_ne (Ne.symm hj)]

/-! ## The end of the list -/

/-- What a call leaves: everything but `last_browse`, which points to what the loop was given. -/
theorem turn_cases (hturn : turn s i = .ok s') : nextArg (s.received i) = none ∧ s' = s ∨
    ∃ prev start sec, nextArg (s.received i) = some prev ∧ browseStart s.st prev = .ok start ∧
      nextAvailableSection s.st start = .ok sec ∧
      s' = ⟨{ s.st with cfg := { s.st.cfg with lastBrowse := sec } },
        Function.update s.received i (s.received i ++ [sec])⟩ := by
  rw [turn] at hturn
  cases harg : nextArg (s.received i) with
  | none =>
    rw [harg] at hturn
    exact Or.inl ⟨rfl, (Outcome.ok.inj hturn).symm⟩
  | some prev =>
    simp only [harg, spdSectionBrowse] at hturn
    obtain ⟨⟨sec, st'⟩, hbrowse, hend⟩ := bind_eq_ok.mp hturn
    obtain ⟨start, hstart, hbrowse⟩ := bind_eq_ok.mp hbrowse
    obtain ⟨sec', hsec, hbrowse⟩ := bind_eq_ok.mp hbrowse
    obtain ⟨rfl, rfl⟩ := Prod.mk.inj (Outcome.ok.inj hbrowse)
    exact Or.inr ⟨prev, start, sec', rfl, hstart, hsec, (Outcome.ok.inj hend).symm⟩

theorem run_config (turns : List ι) (hrun : Run.run turn s turns = .ok s') :
    s'.st.heap = s.st.heap ∧ s'.st.cfg.root = s.st.cfg.root := by
  induction turns generalizing s with
  | nil =>
    obtain rfl := Outcome.ok.inj hrun
    exact ⟨rfl, rfl⟩
  | cons i turns ih =>
    obtain ⟨s1, hturn, hrest⟩ := bind_eq_ok.mp hrun
    obtain ⟨hheap, hroot⟩ := ih hrest
    rcases turn_cases hturn with ⟨-, rfl⟩ | ⟨prev, start, sec, -, -, -, rfl⟩
    · exact ⟨hheap, hroot⟩
    · exact ⟨hheap, hroot⟩

/-- With `last_browse` elsewhere, a loop at the end of such a list is given a section again. -/
theorem turn_repeat (hl : Linked Section.next st.heap st.cfg.root last ns)
    (hend : EndsOnRepeat st ns) (hg : Given st ns calls s)
    (hlast : s.st.cfg.lastBrowse = none) (hcalls : calls i = (available st ns).length)
    (hturn : turn s i = .ok s') : ∃ a, s'.received i = s.received i ++ [some a] := by
  obtain ⟨pre, z, v, rfl, hv, hignored, b, hb, t, ht, hname⟩ := hend
  have hz : available st [z] = [z] := by
    simp [available, isAvailable, hv, hignored]
  have hlen : (available st (pre ++ [z])).length = (available st pre).length + 1 := by
    rw [available_append, hz, List.length_append, List.length_singleton]
  have harg : nextArg (s.received i) = some (some (.nameOf z)) := by
    rw [hg.received, hcalls, hlen, nextArg_enumeration, available_append, hz]
    simp
  have hl' := hg.linked hl
  have hv' : s.st.heap.get z = some v := by rw [hg.heap, hv]
  have ht' : s.st.heap.get b = some t := by rw [hg.heap, ht]
  obtain ⟨xs, ys, hsplit, hmem, hstart⟩ :=
    browseStart_repeat hl' (by rw [hlast]; simp) hv' hb ht' hname
  rw [hsplit] at hl'
  have hsec := nextAvailableSection_eq hl'
  have hin : z ∈ available s.st ys := mem_available.mpr ⟨hmem, v, hv', hignored⟩
  obtain ⟨a, rest, hrest⟩ := List.exists_cons_of_ne_nil (List.ne_nil_of_mem hin)
  rw [hrest, List.head?_cons] at hsec
  rw [turn_of_start harg hstart hsec] at hturn
  obtain rfl := Outcome.ok.inj hturn
  exact ⟨a, Function.update_self ..⟩

/-- A loop that has been given all sections, and now null, leaves `last_browse` null. -/
theorem turn_end (hg : Given st ns calls s) (hpos : 0 < (available st ns).length)
    (hcalls : calls i = (available st ns).length) (hturn : turn s i = .ok s')
    (hnull : s'.received i = enumeration st ns) : s'.st.cfg.lastBrowse = none := by
  have hreceived := hg.received i
  rw [hcalls] at hreceived
  rcases turn_cases hturn with ⟨harg, -⟩ | ⟨prev, start, sec, -, -, -, rfl⟩
  · obtain ⟨n, hn⟩ : ∃ n, (available st ns).length = n + 1 := ⟨_, (Nat.sub_add_cancel hpos).symm⟩
    rw [hreceived, hn, nextArg_enumeration, List.getElem?_eq_getElem (by omega)] at harg
    cases harg
  · have hwhole : (enumeration st ns).take (available st ns).length ++ [sec]
        = enumeration st ns := by
      rw [← hreceived]
      simpa using hnull
    exact List.singleton_inj.mp (List.append_inj' hwhole rfl).2

/-- One loop comes to the end of such a list and is given null; another one that has come there
    too starts again. -/
theorem not_all_turns (hl : Linked Section.next st.heap st.cfg.root last ns) (hij : i ≠ j)
    (hend : EndsOnRepeat st ns) :
    ¬ ∀ turns : List ι, ∃ st', Run.run turn ⟨st, fun _ => []⟩ turns
        = .ok ⟨st', fun i => (enumeration st ns).take (turns.count i)⟩ := by
  intro hall
  let k := (available st ns).length
  let turns := List.replicate k i ++ List.replicate k j
  have hgiven : ∀ (ts : List ι) {s : Browsing ι}, Run.run turn ⟨st, fun _ => []⟩ ts = .ok s →
      Given st ns (fun i => ts.count i) s := by
    intro ts s hrun
    obtain ⟨st', hrun'⟩ := hall ts
    obtain rfl := Outcome.ok.inj (hrun.symm.trans hrun')
    obtain ⟨hheap, hroot⟩ := run_config ts hrun
    exact ⟨hheap, hroot, fun _ => rfl⟩
  have hpos : 0 < k := by
    obtain ⟨pre, z, v, rfl, hv, hignored, -⟩ := hend
    exact List.length_pos_of_mem (mem_available.mpr ⟨by simp, v, hv, hignored⟩)
  have hci : turns.count i = k := by
    simp [turns, List.count_replicate, hij.symm]
  have hcj : (turns ++ [i]).count j = k := by
    simp [turns, List.count_replicate, hij]
  have hci' : (turns ++ [i]).count i = k + 1 := by
    rw [List.count_append, hci, List.count_singleton_self]
  have hcj' : (turns ++ [i] ++ [j]).count j = k + 1 := by
    rw [List.count_append, hcj, List.count_singleton_self]
  obtain ⟨st1, hrun1⟩ := hall (turns ++ [i])
  obtain ⟨st2, hrun2⟩ := hall (turns ++ [i] ++ [j])
  have hg1 := hgiven _ hrun1
  rw [Run.run_append, hrun1, ok_bind] at hrun2
  obtain ⟨s2, hturn2, hs2⟩ := bind_eq_ok.mp hrun2
  obtain rfl := Outcome.ok.inj hs2
  rw [Run.run_append] at hrun1
  obtain ⟨s0, hrun0, hlast⟩ := bind_eq_ok.mp hrun1
  obtain ⟨s1, hturn1, hs1⟩ := bind_eq_ok.mp hlast
  obtain rfl := Outcome.ok.inj hs1
  -- loop `i` has now been given null
  have hnull : st1.cfg.lastBrowse = none := by
    refine turn_end (hgiven _ hrun0) hpos hci hturn1 ?_
    show (enumeration st ns).take ((turns ++ [i]).count i) = _
    rw [hci', List.take_of_length_le]
    simp [enumeration, k]
  -- loop `j` should be, and is given a section
  obtain ⟨a, hagain⟩ := turn_repeat hl hend hg1 hnull hcj hturn2
  have htwice : (enumeration st ns).take ((turns ++ [i] ++ [j]).count j)
      = (enumeration st ns).take ((turns ++ [i]).count j) ++ [some a] := hagain
  rw [hcj', hcj, take_succ_enumeration (Nat.le_refl k),
    List.getElem?_eq_none (Nat.le_refl k)] at htwice
  cases List.singleton_inj.mp (List.append_cancel_left htwice)

/-- Every loop is given the sections that are not ignored, each once and in order, and then null,
    whatever the turns, exactly when the list does not end on a section that is not ignored and
    repeats the name of an earlier one. -/
theorem sectionBrowse_enumerates_iff [Nontrivial ι]
    (hl : Linked Section.next st.heap st.cfg.root last ns) :
    (∀ turns : List ι, ∃ st', Run.run turn ⟨st, fun _ => []⟩ turns
        = .ok ⟨st', fun i => (enumeration st ns).take (turns.count i)⟩) ↔
      ¬ EndsOnRepeat st ns := by
  constructor
  · intro hall hend
    obtain ⟨i, j, hij⟩ := exists_pair_ne ι
    exact not_all_turns hl hij hend hall
  · intro hend turns
    have hstart : Given st ns (fun _ : ι => 0) ⟨st, fun _ => []⟩ := ⟨rfl, rfl, fun _ => rfl⟩
    obtain ⟨⟨st', received⟩, hrun, hg⟩ := run_given hl hend turns hstart
    refine ⟨st', hrun.trans ?_⟩
    congr
    funext i
    simpa only [Nat.zero_add] using hg.received i

end

/-! ## Two loops over two sections -/

/-- Two sections that are not ignored. -/
def twoSections (name name' : CString) : St :=
  ⟨((∅ : Heap Section).set 1 ⟨name, 0, 0, none, some 2⟩).set 2 ⟨name', 0, 0, none, none⟩,
    { root := some 1, last := some 2, current := some 2 }⟩

theorem twoSections_linked (name name' : CString) :
    Linked Section.next (twoSections name name').heap (twoSections name name').cfg.root
      (twoSections name name').cfg.last [1, 2] := by
  have h1 : (twoSections name name').heap.get 1 = some ⟨name, 0, 0, none, some 2⟩ := rfl
  have h2 : (twoSections name name').heap.get 2 = some ⟨name', 0, 0, none, none⟩ := rfl
  constructor
  · refine ⟨⟨rfl, ?_, ?_⟩, rfl, by decide⟩
    · rw [linkOf_of_get h1]
    · rw [linkOf_of_get h2]
      rfl
  · intro a ha
    rcases List.mem_pair.mp ha with rfl | rfl
    · exact Heap.mem_dom_of_get h1
    · exact Heap.mem_dom_of_get h2

/-- With equal names, one loop is given the second section twice when another one is given the
    first section in between. -/
theorem sectionBrowse_repeats :
    Run.run step newConfig [.append 1 (lit "a") 0, .append 2 (lit "A") 0]
      = .ok (twoSections (lit "a") (lit "A"), [1, 2]) ∧
    enumeration (twoSections (lit "a") (lit "A")) [1, 2] = [some 1, some 2, none] ∧
    ∃ s, Run.run turn ⟨twoSections (lit "a") (lit "A"), fun _ => []⟩ [true, true, false, true]
        = .ok s ∧ s.received true = [some 1, some 2, some 2] := by
  refine ⟨by with_unfolding_all rfl, by decide +kernel, _, by with_unfolding_all rfl, ?_⟩
  with_unfolding_all rfl

theorem sectionBrowse_enumerates_iff_ab :
    ∃ st', Run.run turn ⟨twoSections (lit "a") (lit "b"), fun _ => []⟩
        [true, true, false, true, false] = .ok ⟨st', fun i =>
          (enumeration (twoSections (lit "a") (lit "b")) [1, 2]).take
            ([true, true, false, true, false].count i)⟩ := by
  refine (sectionBrowse_enumerates_iff (twoSections_linked _ _)).mpr ?_ _
  rintro ⟨pre, z, s, hsplit, hz, -, b, hb, t, ht, hname⟩
  obtain ⟨rfl, rfl⟩ : pre = [1] ∧ z = 2 := by
    have hsplit' : [1] ++ [2] = pre ++ [z] := hsplit
    obtain ⟨h, h'⟩ := List.append_inj' hsplit' rfl
    exact ⟨h.symm, (List.singleton_inj.mp h').symm⟩
  obtain rfl := List.mem_singleton.mp hb
  obtain rfl : _ = s := Option.some.inj hz
  obtain rfl : _ = t := Option.some.inj ht
  exact absurd hname (by decide +kernel)

end Spider.Config.Sections
