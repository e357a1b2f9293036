import Mathlib.Order.Lattice.Nat
import Spider.Config.Inherit
import Spider.Lib.Joined

/-!
# Whether a section header is ever done

A header with a `+` selects an old section, which may itself be among the bases
that follow. The condition for an end is one on the sizes of the sections; it
holds for every configuration that lines of text lead to, since those leave the
chains right.
-/

namespace Spider.Config.Inherit

open Lib Outcome CString Strings

section

variable {names : List CString} {size : Nat → Nat} {catname cur : CString} {old : Bool}

/-! ## When the options end -/

/-- If the option is the old section itself, there are no variables to copy by then. -/
def Quiet (names : List CString) (size : Nat → Nat) (catname : CString) (old : Bool)
    (total : Nat) (before : List CString) (o : CString) : Prop :=
  (old = true ∨ ∃ p ∈ before, IsPlus p) → IsBase o → resolve names o = resolve names catname →
    total = 0 ∧ (old = false → sizeAt names size catname = 0) ∧
      ∀ b ∈ before, IsBase b → resolve names b ≠ resolve names catname → sizeAt names size b = 0

theorem forall_split_cons {P : List CString → CString → Prop} {rest : List CString} :
    (∀ before o after, cur :: rest = before ++ o :: after → P before o) ↔
      P [] cur ∧ ∀ before o after, rest = before ++ o :: after → P (cur :: before) o := by
  constructor
  · intro h
    refine ⟨h [] cur rest rfl, fun before o after hsplit => ?_⟩
    exact h (cur :: before) o after (by rw [hsplit, List.cons_append])
  · rintro ⟨hnil, hcons⟩ before o after hsplit
    cases before with
    | nil =>
      obtain ⟨rfl, -⟩ := List.cons.inj hsplit
      exact hnil
    | cons x before =>
      obtain ⟨rfl, hrest⟩ := List.cons.inj hsplit
      exact hcons before o after hrest

theorem ends_iff (opts : List CString) (total : Nat) :
    Ends names size catname old total opts ↔
      ∀ before o after, opts = before ++ o :: after →
        Quiet names size catname old total before o := by
  induction opts generalizing old total with
  | nil => simp [Ends]
  | cons cur rest ih =>
    rw [forall_split_cons, Ends]
    by_cases hplus : IsPlus cur
    · have hbase : ¬ IsBase cur := fun h => h.2 hplus.2
      have hnil : Quiet names size catname old total [] cur := fun _ h => absurd h hbase
      have hcons : ∀ before o, Quiet names size catname old total (cur :: before) o ↔
          Quiet names size catname true
            (if old then total else total + sizeAt names size catname) before o := by
        intro before o
        cases old <;> simp [Quiet, hplus, hbase, and_assoc]
      rw [if_pos hplus, ih]
      simp only [hnil, hcons, true_and]
    · rw [if_neg hplus]
      by_cases hbase : IsBase cur
      · rw [if_pos hbase]
        by_cases hself : old = true ∧ resolve names cur = resolve names catname
        · obtain ⟨rfl, hsame⟩ := hself
          have hnil : Quiet names size catname true total [] cur ↔ total = 0 := by
            simp [Quiet, hbase, hsame]
          have hcons : ∀ before o, Quiet names size catname true total (cur :: before) o ↔
              Quiet names size catname true total before o := by
            intro before o
            simp [Quiet, hsame]
          rw [if_pos ⟨rfl, hsame⟩, ih]
          simp only [hnil, hcons]
        · rw [if_neg hself, ih]
          have hnil : Quiet names size catname old total [] cur := by
            intro hold _ hsame
            exact absurd ⟨by simpa using hold, hsame⟩ hself
          have hcons : ∀ before o, Quiet names size catname old total (cur :: before) o ↔
              Quiet names size catname old (total + sizeAt names size cur) before o := by
            intro before o
            by_cases hsame : resolve names cur = resolve names catname
            · have hsize : sizeAt names size cur = sizeAt names size catname := by
                rw [sizeAt, sizeAt, hsame]
              obtain rfl : old = false := by
                cases old with
                | true => exact absurd ⟨rfl, hsame⟩ hself
                | false => rfl
              simp only [Quiet, hsize]
              simp [hplus, hsame, and_assoc]
            · simp [Quiet, hplus, hbase, hsame, and_assoc, and_left_comm]
          simp only [hnil, hcons, true_and]
      · have hnil : Quiet names size catname old total [] cur := fun _ h => absurd h hbase
        have hcons : ∀ before o, Quiet names size catname old total (cur :: before) o ↔
            Quiet names size catname old total before o := by
          intro before o
          simp [Quiet, hplus, hbase]
        rw [if_neg hbase, ih]
        simp only [hnil, hcons, true_and]

end

/-! ## Lines -/

/-- The header `[name](opts)`. -/
def headerLine (name : CString) (opts : List CString) : CString :=
  lit "[" ++ (name ++ lit "](" ++ ([ch ','].intercalate opts ++ lit ")"))

/-- No configuration, and no section. -/
def start : Parsed := ⟨⟨[], ∅⟩, none⟩

/-- The chains are right, and `cat` is null or a section. -/
def Parsed.Holds (p : Parsed) (ns : Nat → List Node) : Prop :=
  Inherit.Holds p.cfg ns ∧ ∀ i ∈ p.cat, i < p.cfg.sections.length

section

variable {calloc : Calloc} {s s' : Header} {p p' : Parsed} {ns : Nat → List Node} {fuel : Nat}
  {name cur catname buf : CString} {opts : List CString}

theorem start_holds : start.Holds fun _ => [] := by
  refine ⟨⟨?_, ?_⟩, nofun⟩
  · intro i sec hi
    cases hi
  · intro i j hi
    exact absurd hi (Nat.not_lt_zero i)

/-- Every option that is accepted leaves chains. -/
theorem headerOption_holds (hs : s.Holds ns)
    (hstep : headerOption calloc fuel catname s cur = .ok (some s')) : ∃ ns', s'.Holds ns' := by
  rw [headerOption] at hstep
  split at hstep
  · obtain rfl := Option.some.inj (Outcome.ok.inj hstep)
    exact ⟨ns, (ignore_holds hs).1⟩
  · split at hstep
    · split at hstep
      · cases hstep
      · next i hget =>
        have hlt : i < s.cfg.sections.length := (List.findIdx?_eq_some_iff_findIdx_eq.mp hget).1
        split at hstep
        · next newcat hcat =>
          obtain ⟨st, hmove, hholds⟩ := moveVariables_eq hs hcat hlt
          rw [hmove] at hstep
          obtain rfl := Option.some.inj (Outcome.ok.inj hstep)
          exact ⟨_, hholds⟩
        · obtain rfl := Option.some.inj (Outcome.ok.inj hstep)
          exact ⟨ns, hs.config, hlt⟩
    · split at hstep
      · cases hstep
      · next base hget =>
        have hlt : base < s.cfg.sections.length := (List.findIdx?_eq_some_iff_findIdx_eq.mp hget).1
        obtain ⟨s1, hinherit, hend⟩ := bind_eq_ok.mp hstep
        obtain rfl := Option.some.inj (Outcome.ok.inj hend)
        by_cases hother : base ≠ s.sel ∨ ns base = []
        · obtain ⟨st, ys, hsettles, hholds, -⟩ := inheritSection_settles calloc hs hlt hother
          rcases hsettles.sound fuel with htimeout | hok
          · rw [hinherit] at htimeout
            cases htimeout
          · obtain rfl := Outcome.ok.inj (hinherit.symm.trans hok)
            exact ⟨_, hholds⟩
        · rw [not_or, not_not] at hother
          obtain ⟨rfl, hne⟩ := hother
          have hstuck := inheritSection_self calloc hs hne hlt
          rcases hstuck.sound fuel with htimeout | htimeout
          · rw [hinherit] at htimeout
            cases htimeout
          · rw [hinherit] at htimeout
            cases htimeout

theorem headerOptions_holds (opts : List CString) (hs : s.Holds ns)
    (hrun : headerOptions calloc fuel catname opts s = .ok (some s')) : ∃ ns', s'.Holds ns' := by
  induction opts generalizing s ns with
  | nil =>
    obtain rfl := Option.some.inj (Outcome.ok.inj hrun)
    exact ⟨ns, hs⟩
  | cons cur rest ih =>
    obtain ⟨s1, hstep, hrest⟩ := bind_eq_ok.mp hrun
    cases s1 with
    | none => cases hrest
    | some s1 =>
      obtain ⟨ns1, hs1⟩ := headerOption_holds hs hstep
      exact ih hs1 hrest

theorem Header.close_eq (s : Header) : s.close = ⟨s.all, some s.sel⟩ := by
  cases s with
  | mk cfg cat => cases cat <;> rfl

theorem close_holds (hs : s.Holds ns) : s.close.Holds ns := by
  rw [s.close_eq]
  refine ⟨hs.all, fun i hi => ?_⟩
  obtain rfl := Option.some.inj hi
  exact hs.sel

/-- A header starts with a new section that has no variables. -/
theorem new_holds (hp : p.Holds ns) (name : CString) :
    (Header.mk p.cfg (.new { name := name })).Holds
      (Function.update ns p.cfg.sections.length []) := by
  have hempty : ChainOf p.cfg.heap {} [] := ⟨⟨rfl, rfl, List.nodup_nil⟩, by simp⟩
  have hlen : (Header.mk p.cfg (.new { name := name })).all.sections.length
      = p.cfg.sections.length + 1 := by simp [Header.all]
  refine ⟨⟨?_, ?_⟩, ?_⟩
  · intro j sec hj
    by_cases hlast : j = p.cfg.sections.length
    · subst hlast
      obtain rfl : _ = sec := by simpa [Header.all] using hj
      rw [Function.update_self]
      exact hempty
    · have hlt : j < p.cfg.sections.length := by
        have hlt := (List.getElem?_eq_some_iff.mp hj).1
        omega
      rw [Header.all_get hlt] at hj
      rw [Function.update_of_ne hlast]
      exact hp.1.chains j sec hj
  · intro j k hj hk hjk
    by_cases hjlast : j = p.cfg.sections.length
    · subst hjlast
      rw [Function.update_self]
      exact List.disjoint_nil_left _
    · by_cases hklast : k = p.cfg.sections.length
      · subst hklast
        rw [Function.update_self]
        exact List.disjoint_nil_right _
      · rw [Function.update_of_ne hjlast, Function.update_of_ne hklast]
        exact hp.1.disjoint j k (by omega) (by omega) hjk
  · rw [hlen]
    exact Nat.lt_succ_self _

theorem processHeader_holds (hp : p.Holds ns)
    (hrun : processHeader calloc fuel p buf = .ok (some p')) : ∃ ns', p'.Holds ns' := by
  rw [processHeader] at hrun
  split at hrun
  next catname c hspan =>
    split at hrun
    · cases hrun
    · obtain ⟨name, -, hrun⟩ := bind_eq_ok.mp hrun
      dsimp only at hrun
      split at hrun
      · cases hrun
      · obtain ⟨s, hopts, hrun⟩ := bind_eq_ok.mp hrun
        cases s with
        | none => cases hrun
        | some s =>
          obtain rfl := Option.some.inj (Outcome.ok.inj hrun)
          obtain ⟨ns', hs⟩ := headerOptions_holds _ (new_holds hp name) hopts
          exact ⟨ns', close_holds hs⟩

theorem processVariable_holds (hp : p.Holds ns)
    (hrun : processVariable calloc p buf = .ok (some p')) : ∃ ns', p'.Holds ns' := by
  rw [processVariable] at hrun
  split at hrun
  · cases hrun
  · next i hi =>
    have hlt := hp.2 i hi
    split at hrun
    · obtain rfl := Option.some.inj (Outcome.ok.inj hrun)
      exact ⟨ns, hp⟩
    · next cur eq c hspan =>
      let n : Node := ⟨calloc.address p.cfg.heap, spdStrip cur,
        spdStrip (if c.head? = some (ch '>') then c.tail else c),
        if c.head? = some (ch '>') then 1 else 0⟩
      have hfree : n.addr ∉ p.cfg.heap.dom := calloc.unused _
      have hc : ChainOf (St.mk p.cfg.heap (p.cfg.chain i)).heap
          (St.mk p.cfg.heap (p.cfg.chain i)).category (ns i) := hp.1.chain hlt
      obtain ⟨st, happ, hc', hdom, hframe⟩ := append_new hc hfree
      have hrun' : (spdVariableAppend ⟨p.cfg.heap.set n.addr ⟨n.name, n.value, n.object, none⟩,
          p.cfg.chain i⟩ (some n.addr) >>= fun st => .ok (some ⟨p.cfg.put i st, some i⟩))
          = .ok (some p') := hrun
      obtain ⟨st1, hst1, hend⟩ := bind_eq_ok.mp hrun'
      obtain rfl := Outcome.ok.inj (hst1.symm.trans happ)
      obtain rfl := Option.some.inj (Outcome.ok.inj hend)
      refine ⟨_, hp.1.put hlt hc' ?_ ?_, ?_⟩
      · intro m hm j hj _ hmem
        obtain rfl := List.mem_singleton.mp hm
        obtain ⟨k, hk, heq⟩ := List.mem_map.mp hmem
        exact hfree (heq ▸ (hp.1.chain hj).mem_dom hk)
      · intro b hb hbi _
        exact hframe b hb hbi
      · intro j hj
        obtain rfl := Option.some.inj hj
        rwa [SpdConfig.put_length]

theorem processTextLine_holds (hp : p.Holds ns)
    (hrun : processTextLine calloc fuel p buf = .ok (some p')) : ∃ ns', p'.Holds ns' := by
  rw [processTextLine] at hrun
  split at hrun
  · exact processHeader_holds hp hrun
  · split at hrun
    · obtain rfl := Option.some.inj (Outcome.ok.inj hrun)
      exact ⟨ns, hp⟩
    · exact processVariable_holds hp hrun

/-- Whatever lines are loaded, the chains of the configuration are right. -/
theorem processLines_holds (lines : List CString) (hp : p.Holds ns)
    (hrun : processLines calloc fuel lines p = .ok (some p')) : ∃ ns', p'.Holds ns' := by
  induction lines generalizing p ns with
  | nil =>
    obtain rfl := Option.some.inj (Outcome.ok.inj hrun)
    exact ⟨ns, hp⟩
  | cons buf rest ih =>
    obtain ⟨p1, hline, hrest⟩ := bind_eq_ok.mp hrun
    cases p1 with
    | none => cases hrest
    | some p1 =>
      obtain ⟨ns1, hp1⟩ := processTextLine_holds hp hline
      exact ih hp1 hrest

/-! ## A whole header -/

theorem span_ne {c : UInt8} {t : List UInt8} (ht : c ∉ t) (rest : List UInt8) :
    (t ++ c :: rest).span (· ≠ c) = (t, c :: rest) := by
  have hall : ∀ x ∈ t, decide (x ≠ c) = true := by
    rintro x hx
    simp only [ne_eq, decide_not, Bool.not_eq_true', decide_eq_false_iff_not]
    rintro rfl
    exact ht hx
  rw [List.span_eq_takeWhile_dropWhile, List.takeWhile_append_of_pos hall,
    List.dropWhile_append_of_pos hall, List.takeWhile_cons_of_neg (by simp),
    List.dropWhile_cons_of_neg (by simp), List.append_nil]

theorem notMem_intercalate {c d : UInt8} (hcd : c ≠ d) {ls : List (List UInt8)}
    (h : ∀ l ∈ ls, c ∉ l) : c ∉ [d].intercalate ls := by
  intro hc
  rcases Joined.mem_intercalate hc with heq | ⟨l, hl, hcl⟩
  · exact hcd heq
  · exact h l hl hcl

/-- What the header is read as. -/
theorem processTextLine_headerLine (hname : ch ']' ∉ name) (hne : opts ≠ [])
    (hopts : ∀ o ∈ opts, ch ',' ∉ o ∧ ch ')' ∉ o) :
    processTextLine calloc fuel p (headerLine name opts) =
      headerOptions calloc fuel name opts ⟨p.cfg, .new { name := name.take 79 }⟩ >>= fun s =>
        .ok (s.map Header.close) := by
  have hclose := notMem_intercalate (show ch ')' ≠ ch ',' by decide) fun o ho => (hopts o ho).2
  have hline : headerLine name opts
      = ch '[' :: (name ++ ch ']' :: ch '(' :: ([ch ','].intercalate opts ++ ch ')' :: [])) := by
    simp [headerLine, lit]
  have hsplit : ([ch ','].intercalate opts).splitOn (ch ',') = opts :=
    List.splitOn_intercalate (ch ',') (fun o ho => (hopts o ho).1) hne
  rw [hline, processTextLine, if_pos List.head?_cons, processHeader, List.tail_cons, span_ne hname]
  simp only [reduceCtorEq, if_false, spdCopyString_eq _ (show 0 < 80 by decide), ok_bind,
    List.tail_cons, List.head?_cons, if_true, span_ne hclose, hsplit]
  congr
  funext s
  cases s <;> rfl

/-- A base that the header names behind a `+` and that is the section extended finds no variables:
    there are none in that section, nor in the bases named before. -/
def SelfQuiet (cfg : SpdConfig) (name : CString) (opts : List CString) : Prop :=
  ∀ before o after, opts = before ++ o :: after → (∃ x ∈ before, IsPlus x) → IsBase o →
    sectionGet cfg.sections o true = sectionGet cfg.sections name true →
    ∀ b ∈ o :: before, IsBase b → ∀ j ∈ sectionGet cfg.sections b true, cfg.count j = 0

theorem sizeAt_eq_zero {names : List CString} {size : Nat → Nat} :
    sizeAt names size name = 0 ↔ ∀ j ∈ resolve names name, size j = 0 := by
  rw [sizeAt]
  cases resolve names name <;> simp

/-- The condition on the sizes, for a new section. -/
theorem selfQuiet_iff {cfg : SpdConfig} :
    SelfQuiet cfg name opts ↔
      Ends (cfg.sections.map Section.name) cfg.count name false 0 opts := by
  rw [ends_iff, SelfQuiet]
  have hquiet : ∀ before o, Quiet (cfg.sections.map Section.name) cfg.count name false 0 before o ↔
      ((∃ x ∈ before, IsPlus x) → IsBase o →
        sectionGet cfg.sections o true = sectionGet cfg.sections name true →
        ∀ b ∈ o :: before, IsBase b → ∀ j ∈ sectionGet cfg.sections b true, cfg.count j = 0) := by
    intro before o
    simp only [sectionGet_eq, Quiet, ← sizeAt_eq_zero, Bool.false_eq_true, false_or, true_and,
      forall_const]
    refine imp_congr_right fun _ => imp_congr_right fun hbase => imp_congr_right fun hsame => ?_
    have hsize : ∀ {b}, resolve (cfg.sections.map Section.name) b
        = resolve (cfg.sections.map Section.name) name →
        sizeAt (cfg.sections.map Section.name) cfg.count b
          = sizeAt (cfg.sections.map Section.name) cfg.count name := by
      intro b hb
      rw [sizeAt, sizeAt, hb]
    constructor
    · rintro ⟨hname, hbases⟩ b hb hbase'
      rcases List.mem_cons.mp hb with rfl | hin
      · rw [hsize hsame, hname]
      · by_cases hself : resolve (cfg.sections.map Section.name) b
            = resolve (cfg.sections.map Section.name) name
        · rw [hsize hself, hname]
        · exact hbases b hin hbase' hself
    · intro hall
      refine ⟨?_, fun b hb hbase' _ => hall b (List.mem_cons_of_mem o hb) hbase'⟩
      rw [← hsize hsame]
      exact hall o (by simp) hbase
  simp only [hquiet]

/-- The new section of a header, and the sections there are. -/
theorem sim_new (hp : p.Holds ns) (newname : CString) :
    Sim (p.cfg.sections.map Section.name) p.cfg.count name false
      ⟨p.cfg, .new { name := newname }⟩ (Function.update ns p.cfg.sections.length []) := by
  refine ⟨new_holds hp newname, rfl, nofun, fun _ => ⟨_, rfl⟩, ?_⟩
  intro j hj _
  rw [List.length_map] at hj
  rw [Function.update_of_ne (by omega), hp.1.count hj]

/-- How many variables the section that a header selects has had before. -/
theorem count_before {s' : Header} {ns' : Nat → List Node}
    (hsim : Sim (p.cfg.sections.map Section.name) p.cfg.count name
      (false || opts.any fun o => IsPlus o) s' ns') :
    joined (p.cfg.sections.map Section.name) p.cfg.count name false opts = p.cfg.count s'.sel := by
  have hlen : s'.cfg.sections.length = p.cfg.sections.length := by
    simpa using congrArg List.length hsim.named
  rw [joined]
  by_cases hplus : ∃ o ∈ opts, IsPlus o
  · have hold : (false || opts.any fun o => decide (IsPlus o)) = true := by simpa using hplus
    obtain ⟨i, hcat, hi⟩ := hsim.selected hold
    rw [if_pos ⟨rfl, hplus⟩, sizeAt, hi, Header.sel, hcat]
    rfl
  · have hold : (false || opts.any fun o => decide (IsPlus o)) = false := by simpa using hplus
    obtain ⟨sec, hcat⟩ := hsim.fresh hold
    have hsel : s'.sel = p.cfg.sections.length := by rw [Header.sel, hcat, ← hlen]
    rw [if_neg fun h => hplus h.2, hsel, SpdConfig.count, SpdConfig.chain,
      List.getElem?_eq_none (Nat.le_refl _)]
    rfl

variable (calloc) in
/-- A header is done, with as many variables added as its bases have when they are reached, where
    the condition holds, and never done where it does not. -/
theorem processTextLine_settles (hp : p.Holds ns) (hname : ch ']' ∉ name) (hne : opts ≠ [])
    (hopts : ∀ o ∈ opts, ch ',' ∉ o ∧ ch ')' ∉ o)
    (hallowed : ∀ o ∈ opts, (IsPlus o → sectionGet p.cfg.sections name true ≠ none) ∧
      (IsBase o → sectionGet p.cfg.sections o true ≠ none)) :
    (SelfQuiet p.cfg name opts → ∃ p',
      Settles (fun fuel => processTextLine calloc fuel p (headerLine name opts)) (.ok (some p')) ∧
      ∀ fuel, processTextLine calloc fuel p (headerLine name opts) = .ok (some p') →
        ∃ i ∈ p'.cat, p'.cfg.count i = p.cfg.count i +
          baseCounts calloc fuel name opts ⟨p.cfg, .new { name := name.take 79 }⟩) ∧
    (¬ SelfQuiet p.cfg name opts →
      Settles (fun fuel => processTextLine calloc fuel p (headerLine name opts)) .timeout) := by
  have hsim : Sim _ _ name _ _ _ := sim_new hp (name.take 79)
  have hall : ∀ o ∈ opts, Allowed (p.cfg.sections.map Section.name) name o := by
    intro o ho
    have h := hallowed o ho
    rw [sectionGet_eq, sectionGet_eq] at h
    exact h
  have hread : (fun fuel => processTextLine calloc fuel p (headerLine name opts)) = fun fuel =>
      headerOptions calloc fuel name opts ⟨p.cfg, .new { name := name.take 79 }⟩ >>= fun s =>
        .ok (s.map Header.close) := funext fun fuel => processTextLine_headerLine hname hne hopts
  obtain ⟨hgood, hbad⟩ := headerOptions_decided calloc opts hsim hall
  have hzero : (Function.update ns p.cfg.sections.length []
      (Header.mk p.cfg (.new { name := name.take 79 })).sel).length = 0 := by
    rw [Header.sel, Function.update_self, List.length_nil]
  rw [hzero, ← selfQuiet_iff] at hgood hbad
  rw [hread]
  constructor
  · intro hquiet
    obtain ⟨s', ns', hsettles, hsim', hcount⟩ := hgood hquiet
    have hend : Settles (fun fuel => headerOptions calloc fuel name opts
        ⟨p.cfg, .new { name := name.take 79 }⟩ >>= fun s => .ok (s.map Header.close))
        (.ok (some s') >>= fun s : Option Header => .ok (s.map Header.close)) :=
      hsettles.bind fun _ _ => .const _
    refine ⟨s'.close, hend, ?_⟩
    intro fuel hrun
    have hdone : headerOptions calloc fuel name opts ⟨p.cfg, .new { name := name.take 79 }⟩
        = .ok (some s') := by
      rcases hsettles.sound fuel with htimeout | hok
      · rw [processTextLine_headerLine hname hne hopts, htimeout] at hrun
        cases hrun
      · exact hok
    rw [s'.close_eq]
    refine ⟨s'.sel, rfl, ?_⟩
    change s'.all.count s'.sel = _
    rw [hsim'.holds.all.count hsim'.holds.sel, hcount fuel hdone, count_before hsim']
    omega
  · intro hquiet
    have hend : Settles (fun fuel => headerOptions calloc fuel name opts
        ⟨p.cfg, .new { name := name.take 79 }⟩ >>= fun s => .ok (s.map Header.close))
        (.timeout >>= fun s : Option Header => .ok (s.map Header.close)) := by
      refine (hbad hquiet).bind ?_
      intro _ hok
      cases hok
    exact hend

/-- For every configuration that lines have led to: a header is processed to its end, and the
    section it selects has got as many variables as the bases have when their turn comes, exactly
    when no base behind a `+` is the section itself while there are variables to copy. -/
theorem header_finite_iff (lines : List CString)
    (hreached : processLines calloc fuel lines start = .ok (some p)) (hname : ch ']' ∉ name)
    (hne : opts ≠ []) (hopts : ∀ o ∈ opts, ch ',' ∉ o ∧ ch ')' ∉ o)
    (hallowed : ∀ o ∈ opts, (IsPlus o → sectionGet p.cfg.sections name true ≠ none) ∧
      (IsBase o → sectionGet p.cfg.sections o true ≠ none)) :
    (∃ fuel p', processTextLine calloc fuel p (headerLine name opts) = .ok (some p') ∧
      ∃ i ∈ p'.cat, p'.cfg.count i = p.cfg.count i +
        baseCounts calloc fuel name opts ⟨p.cfg, .new { name := name.take 79 }⟩) ↔
      SelfQuiet p.cfg name opts := by
  obtain ⟨ns, hp⟩ := processLines_holds lines start_holds hreached
  obtain ⟨hgood, hbad⟩ := processTextLine_settles calloc hp hname hne hopts hallowed
  constructor
  · rintro ⟨fuel, p', hrun, -⟩
    by_contra hquiet
    rcases (hbad hquiet).sound fuel with htimeout | htimeout
    · rw [hrun] at htimeout
      cases htimeout
    · rw [hrun] at htimeout
      cases htimeout
  · intro hquiet
    obtain ⟨p', hsettles, hcount⟩ := hgood hquiet
    obtain ⟨fuel, hfuel⟩ := hsettles.enough
    exact ⟨fuel + 0, p', hfuel 0, hcount _ (hfuel 0)⟩

end

/-! ## A section that inherits from itself -/

/-- The first address above all that are in use. -/
def nextAddress : Calloc where
  address h := h.dom.sup id + 1
  unused h hmem := by
    have hle : h.dom.sup id + 1 ≤ h.dom.sup id := Finset.le_sup (f := id) hmem
    omega

/-- The lines `[a]` and `x=1`. -/
def oneSection : Parsed :=
  ⟨⟨[{ name := lit "a", chain := ⟨some 1, some 1⟩ }],
    (∅ : Heap Variable).set 1 ⟨lit "x", lit "1", 0, none⟩⟩, some 0⟩

theorem oneSection_reached :
    processLines nextAddress 0 [lit "[a]", lit "x=1"] start = .ok (some oneSection) := by
  with_unfolding_all rfl

theorem oneSection_holds : ∃ ns, oneSection.Holds ns :=
  processLines_holds _ start_holds oneSection_reached

/-- A header `[a](+,a)` behind them is never done. -/
theorem header_endless :
    processLines nextAddress 0 [lit "[a]", lit "x=1"] start = .ok (some oneSection) ∧
    headerLine (lit "a") [lit "+", lit "a"] = lit "[a](+,a)" ∧
    sectionGet oneSection.cfg.sections (lit "a") true = some 0 ∧
    ∀ fuel, processTextLine nextAddress fuel oneSection
      (headerLine (lit "a") [lit "+", lit "a"]) = .timeout := by
  have hget : sectionGet oneSection.cfg.sections (lit "a") true = some 0 := by decide +kernel
  have hcount : oneSection.cfg.count 0 = 1 := by with_unfolding_all rfl
  have hnot : ¬ SelfQuiet oneSection.cfg (lit "a") [lit "+", lit "a"] := by
    intro hquiet
    have hzero := hquiet [lit "+"] (lit "a") [] rfl ⟨lit "+", by simp, by decide +kernel⟩
      (by decide +kernel) rfl (lit "a") (by simp) (by decide +kernel) 0 hget
    rw [hcount] at hzero
    cases hzero
  obtain ⟨ns, hp⟩ := oneSection_holds
  refine ⟨oneSection_reached, by decide +kernel, hget, fun fuel => ?_⟩
  have hallowed : ∀ o ∈ [lit "+", lit "a"],
      (IsPlus o → sectionGet oneSection.cfg.sections (lit "a") true ≠ none) ∧
      (IsBase o → sectionGet oneSection.cfg.sections o true ≠ none) := by decide +kernel
  have hstuck := (processTextLine_settles nextAddress hp (by decide +kernel) (by simp)
    (by decide +kernel) hallowed).2 hnot
  rcases hstuck.sound fuel with h | h <;> exact h

theorem header_finite_iff_b : ∃ fuel p',
    processTextLine nextAddress fuel oneSection (headerLine (lit "b") [lit "a", lit "!", lit "a"])
      = .ok (some p') ∧
    ∃ i ∈ p'.cat, p'.cfg.count i = oneSection.cfg.count i +
      baseCounts nextAddress fuel (lit "b") [lit "a", lit "!", lit "a"]
        ⟨oneSection.cfg, .new { name := (lit "b").take 79 }⟩ := by
  refine (header_finite_iff _ oneSection_reached (by decide +kernel) (by simp)
    (by decide +kernel) (by decide +kernel)).mpr ?_
  intro before o after hsplit hplus
  obtain ⟨x, hx, hxplus⟩ := hplus
  have hmem : x ∈ [lit "a", lit "!", lit "a"] := by
    rw [hsplit]
    exact List.mem_append_left _ hx
  have hnone : ∀ x ∈ [lit "a", lit "!", lit "a"], ¬ IsPlus x := by decide +kernel
  exact absurd hxplus (hnone x hmem)

end Spider.Config.Inherit
