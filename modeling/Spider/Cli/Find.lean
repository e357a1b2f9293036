import Spider.Cli.Registry
import Mathlib.Data.List.Forall2
import Mathlib.Data.List.TakeDrop

/-!
# Looking a command up

`find_cli` goes once along the registry. It stops at an entry that takes all of
the words typed, and otherwise remembers the entry that takes the most of them;
what an entry may leave over is an optional word at its end.
-/

namespace Spider.Cli

open Lib CString Strings

/-- Nothing is left of an entry but an optional word at its end. -/
def AtEnd (dst : List CString) : Prop := dst = [] ∨ ∃ w, dst = [w] ∧ w.head? = some (ch '[')

/-- The words of an entry, up to an optional one at its end, match the first `n` words typed. -/
def Covers (cmda cmds : List CString) (n : Nat) : Prop :=
  n ≤ cmds.length ∧ ∃ ws opt, cmda = ws ++ opt ∧ AtEnd opt ∧
    List.Forall₂ (fun c w => 0 ≤ wordMatch c w) (cmds.take n) ws

/-- What a lookup is to give: the first entry that takes all of the words; else, of those that take
    some of them, the first that takes the most. -/
inductive Found (r : Registry) (cmds : List CString) : Option Addr → Prop where
  | exact {before e behind} (hlist : r.entrys = before ++ e :: behind)
      (hcovers : Covers (r.entry e).cmda cmds cmds.length)
      (hfirst : ∀ d ∈ before, ¬ Covers (r.entry d).cmda cmds cmds.length) : Found r cmds (some e)
  | longest {before e behind n} (hlist : r.entrys = before ++ e :: behind) (hlt : n < cmds.length)
      (hcovers : Covers (r.entry e).cmda cmds n)
      (hexact : ∀ d ∈ r.entrys, ¬ Covers (r.entry d).cmda cmds cmds.length)
      (hmost : ∀ d ∈ r.entrys, ∀ k < cmds.length, Covers (r.entry d).cmda cmds k → k ≤ n)
      (hfirst : ∀ d ∈ before, ∀ k < cmds.length, Covers (r.entry d).cmda cmds k → k < n) :
      Found r cmds (some e)
  | none (h : ∀ d ∈ r.entrys, ∀ n, ¬ Covers (r.entry d).cmda cmds n) : Found r cmds none

section

variable {cmds cmda : List CString} {c w : CString} {e : SpdCliEntry} {n k : Nat}

@[simp] theorem wordMatch_nil (w : CString) : wordMatch [] w = -1 := rfl

/-- The comparison goes on as long as the words match. -/
theorem matchWords_spec (cmds cmda : List CString) (k : Nat) : ∃ n,
    matchWords cmds cmda k = (k + n, cmds.drop n, cmda.drop n) ∧ n ≤ cmds.length ∧
      List.Forall₂ (fun c w => 0 ≤ wordMatch c w) (cmds.take n) (cmda.take n) ∧
      ∀ c w, cmds[n]? = some c → cmda[n]? = some w → wordMatch c w < 0 := by
  induction cmds generalizing cmda k with
  | nil =>
    refine ⟨0, by simp [matchWords], Nat.le_refl 0, .nil, ?_⟩
    exact fun c w hc => absurd hc nofun
  | cons c cmds ih =>
    cases cmda with
    | nil =>
      refine ⟨0, by simp [matchWords], Nat.zero_le _, .nil, ?_⟩
      exact fun c w _ hw => absurd hw nofun
    | cons w cmda =>
      by_cases hlt : wordMatch c w < 0
      · refine ⟨0, by simp [matchWords, hlt], Nat.zero_le _, .nil, ?_⟩
        intro c' w' hc hw
        rw [← Option.some.inj hc, ← Option.some.inj hw]
        exact hlt
      · obtain ⟨n, heq, hle, hmatch, hstop⟩ := ih cmda (k + 1)
        refine ⟨n + 1, ?_, Nat.succ_le_succ hle, .cons (Int.not_lt.mp hlt) hmatch, hstop⟩
        rw [matchWords, if_neg hlt, heq, Nat.add_assoc, Nat.add_comm 1 n]
        rfl

/-- A word that is matched is not empty. -/
theorem Covers.word (h : Covers cmda cmds n) (hk : k < n) : spdStrlenZero cmds[k]? = false := by
  obtain ⟨hle, ws, opt, -, -, hmatch⟩ := h
  have hlen := hmatch.length_eq
  rw [List.length_take, Nat.min_eq_left hle] at hlen
  have hrel := hmatch.get (by rw [List.length_take]; omega) (hlen ▸ hk)
  simp only [List.get_eq_getElem, List.getElem_take] at hrel
  rw [List.getElem?_eq_getElem (by omega)]
  cases hc : cmds[k] with
  | nil =>
    rw [hc, wordMatch_nil] at hrel
    exact absurd hrel (by decide)
  | cons c s => rfl

/-- Behind a word that is not there or empty nothing is matched. -/
theorem Covers.le_of_zero (h : Covers cmda cmds k) (hzero : spdStrlenZero cmds[n]? = true) :
    k ≤ n := by
  by_contra hlt
  rw [h.word (not_le.mp hlt)] at hzero
  exact absurd hzero Bool.noConfusion

/-- Where the comparison stops, the most words are matched. -/
theorem Covers.le_stop (h : Covers cmda cmds k)
    (hmatch : List.Forall₂ (fun c w => 0 ≤ wordMatch c w) (cmds.take n) (cmda.take n))
    (hn : n ≤ cmds.length)
    (hstop : ∀ c w, cmds[n]? = some c → cmda[n]? = some w → wordMatch c w < 0) :
    k ≤ n ∧ AtEnd (cmda.drop n) := by
  obtain ⟨hk, ws, opt, rfl, hopt, hws⟩ := h
  have hlen := hws.length_eq
  rw [List.length_take, Nat.min_eq_left hk] at hlen
  have hle : k ≤ n := by
    by_contra hlt
    have hrel := hws.get (by rw [List.length_take]; omega) (show n < ws.length by omega)
    simp only [List.get_eq_getElem, List.getElem_take] at hrel
    have hneg := hstop _ _ (List.getElem?_eq_getElem (by omega))
      (by rw [List.getElem?_append_left (by omega), List.getElem?_eq_getElem (by omega)])
    omega
  refine ⟨hle, ?_⟩
  rw [List.drop_append, List.drop_of_length_le (by omega), List.nil_append]
  rcases Nat.eq_zero_or_pos (n - ws.length) with hzero | hpos
  · rw [hzero]
    exact hopt
  · left
    rcases hopt with rfl | ⟨w, rfl, -⟩
    · simp
    · exact List.drop_of_length_le hpos

/-- What `find_cli` tests of the words of an entry that are left. -/
theorem atEnd_iff {dst : List CString} (hwords : ∀ w ∈ dst, w ≠ []) :
    (spdStrlenZero dst[0]? ∨ (dst[0]?.bind List.head? = some (ch '[') ∧ spdStrlenZero dst[1]?)) ↔
      AtEnd dst := by
  have hzero : ∀ w ∈ dst, spdStrlenZero (some w) = false := by
    intro w hw
    rw [spdStrlenZero, List.isEmpty_eq_false_iff]
    exact hwords w hw
  match dst with
  | [] => simp [AtEnd, spdStrlenZero]
  | [w] =>
    have hw := hwords w List.mem_cons_self
    simp [AtEnd, spdStrlenZero, hw]
  | v :: w :: dst => simp [AtEnd, hzero v, hzero w]

/-- What `find_cli` makes of an entry. -/
theorem verdict_cases (hwords : ∀ w ∈ e.cmda, w ≠ []) :
    (verdict cmds 0 e = .skip ∧ ∀ k, ¬ Covers e.cmda cmds k) ∨
      ∃ n, Covers e.cmda cmds n ∧ (∀ k, Covers e.cmda cmds k → k ≤ n) ∧
        verdict cmds 0 e = if spdStrlenZero cmds[n]? then .exact else .candidate n := by
  obtain ⟨n, heq, hle, hmatch, hstop⟩ := matchWords_spec cmds e.cmda 0
  have hrest : ∀ w ∈ e.cmda.drop n, w ≠ [] := fun w hw => hwords w (List.mem_of_mem_drop hw)
  rw [Nat.zero_add] at heq
  have hiff := atEnd_iff hrest
  simp only [verdict, heq]
  by_cases hend : AtEnd (e.cmda.drop n)
  · right
    refine ⟨n, ⟨hle, _, _, (List.take_append_drop n e.cmda).symm, hend, hmatch⟩, ?_, ?_⟩
    · exact fun k hk => (hk.le_stop hmatch hle hstop).1
    · rw [if_pos (hiff.mpr hend)]
      simp
  · left
    constructor
    · rw [if_neg (mt hiff.mp hend)]
      simp
    · exact fun k hk => hend (hk.le_stop hmatch hle hstop).2

end

/-! ## Along the registry -/

/-- The candidate after the entries `before`: the first of those that match the most words. -/
inductive Best (r : Registry) (cmds : List CString) (before : List Addr) :
    Int → Option Addr → Prop where
  | missing (h : ∀ d ∈ before, ∀ k, ¬ Covers (r.entry d).cmda cmds k) :
      Best r cmds before (-1) none
  | best {front e back} {n : Nat} (hlist : before = front ++ e :: back)
      (hcovers : Covers (r.entry e).cmda cmds n) (hword : spdStrlenZero cmds[n]? = false)
      (hmost : ∀ d ∈ before, ∀ k, Covers (r.entry d).cmda cmds k → k ≤ n)
      (hfirst : ∀ d ∈ front, ∀ k, Covers (r.entry d).cmda cmds k → k < n) :
      Best r cmds before n (some e)

section

variable {r : Registry} {cmds : List CString} {before rest : List Addr} {d e : Addr}
  {matchlen : Int} {cand : Option Addr} {n k : Nat}

/-- An entry that is no better leaves the candidate. -/
theorem Best.keep (h : Best r cmds before matchlen cand)
    (hd : ∀ k, Covers (r.entry d).cmda cmds k → (k : Int) ≤ matchlen) :
    Best r cmds (before ++ [d]) matchlen cand := by
  cases h with
  | missing h =>
    refine .missing fun e he k hk => ?_
    rcases List.mem_append.mp he with he | he
    · exact h e he k hk
    · rw [List.mem_singleton.mp he] at hk
      have hle := hd k hk
      omega
  | @best front e back n hlist hcovers hword hmost hfirst =>
    have hlist' : before ++ [d] = front ++ e :: (back ++ [d]) := by rw [hlist]; simp
    refine .best hlist' hcovers hword ?_ hfirst
    intro e he k hk
    rcases List.mem_append.mp he with he | he
    · exact hmost e he k hk
    · rw [List.mem_singleton.mp he] at hk
      exact Int.ofNat_le.mp (hd k hk)

/-- An entry that is better takes its place. -/
theorem Best.take (h : Best r cmds before matchlen cand) (hd : Covers (r.entry d).cmda cmds n)
    (hmax : ∀ k, Covers (r.entry d).cmda cmds k → k ≤ n) (hword : spdStrlenZero cmds[n]? = false)
    (hlt : matchlen < n) : Best r cmds (before ++ [d]) n (some d) := by
  have hbefore : ∀ e ∈ before, ∀ k, Covers (r.entry e).cmda cmds k → k < n := by
    intro e he k hk
    cases h with
    | missing h => exact absurd hk (h e he k)
    | best _ _ _ hmost _ => exact Nat.lt_of_le_of_lt (hmost e he k hk) (Int.ofNat_lt.mp hlt)
  refine .best rfl hd hword ?_ hbefore
  intro e he k hk
  rcases List.mem_append.mp he with he | he
  · exact Nat.le_of_lt (hbefore e he k hk)
  · rw [List.mem_singleton.mp he] at hk
    exact hmax k hk

/-- At the end of the registry the candidate is what the lookup gives. -/
theorem Best.found (h : Best r cmds r.entrys matchlen cand)
    (hopen : ∀ d ∈ r.entrys, ∀ k, Covers (r.entry d).cmda cmds k → spdStrlenZero cmds[k]? = false) :
    Found r cmds cand := by
  cases h with
  | missing h => exact .none h
  | best hlist hcovers hword hmost hfirst =>
    refine .longest hlist ?_ hcovers ?_ (fun d hd k _ => hmost d hd k) fun d hd k _ =>
      hfirst d hd k
    · by_contra hge
      rw [List.getElem?_eq_none (not_lt.mp hge)] at hword
      exact absurd hword (by decide)
    · intro d hd hcov
      have hzero := hopen d hd _ hcov
      rw [List.getElem?_eq_none (Nat.le_refl _)] at hzero
      exact absurd hzero (by decide)

/-- An entry at which the lookup stops is the one it is to give. -/
theorem found_of_zero (hlist : r.entrys = before ++ d :: rest)
    (hopen : ∀ e ∈ before, ∀ k, Covers (r.entry e).cmda cmds k → spdStrlenZero cmds[k]? = false)
    (hd : Covers (r.entry d).cmda cmds n) (hzero : spdStrlenZero cmds[n]? = true) :
    Found r cmds (some d) := by
  have hbefore : ∀ e ∈ before, ¬ Covers (r.entry e).cmda cmds n := by
    intro e he hcov
    rw [hopen e he n hcov] at hzero
    exact absurd hzero Bool.noConfusion
  have hmost : ∀ {e k}, Covers (r.entry e).cmda cmds k → k ≤ n := fun h => h.le_of_zero hzero
  rcases Nat.eq_or_lt_of_le hd.1 with rfl | hlt
  · exact .exact hlist hd hbefore
  · refine .longest hlist hlt hd ?_ (fun e _ k _ hk => hmost hk) fun e he k _ hk => ?_
    · exact fun e _ hcov => absurd (hmost hcov) (Nat.not_le.mpr hlt)
    · refine Nat.lt_of_le_of_ne (hmost hk) ?_
      rintro rfl
      exact hbefore e he hk

/-- The loop, from the entries it has seen. -/
theorem findLoop_found (hwords : ∀ d ∈ r.entrys, ∀ w ∈ (r.entry d).cmda, w ≠ [])
    (hlist : r.entrys = before ++ rest) (hbest : Best r cmds before matchlen cand)
    (hopen : ∀ d ∈ before, ∀ k, Covers (r.entry d).cmda cmds k →
      spdStrlenZero cmds[k]? = false) :
    Found r cmds (findLoop r cmds 0 matchlen cand rest) := by
  induction rest generalizing before matchlen cand with
  | nil =>
    rw [List.append_nil] at hlist
    subst hlist
    exact hbest.found hopen
  | cons d rest ih =>
    have hlist' : r.entrys = before ++ [d] ++ rest := by rw [hlist]; simp
    have hopen' : (∀ k, Covers (r.entry d).cmda cmds k → spdStrlenZero cmds[k]? = false) →
        ∀ e ∈ before ++ [d], ∀ k, Covers (r.entry e).cmda cmds k →
          spdStrlenZero cmds[k]? = false := by
      intro hd e he
      rcases List.mem_append.mp he with he | he
      · exact hopen e he
      · exact List.mem_singleton.mp he ▸ hd
    have hcases : _ ∨ ∃ n, Covers (r.entry d).cmda cmds n ∧ _ :=
      verdict_cases (hwords d (by simp [hlist]))
    rcases hcases with ⟨hverdict, hnone⟩ | ⟨n, hcov, hmax, hverdict⟩
    · rw [findLoop, hverdict]
      exact ih hlist' (hbest.keep fun k hk => absurd hk (hnone k))
        (hopen' fun k hk => absurd hk (hnone k))
    · rw [findLoop, hverdict]
      cases hzero : spdStrlenZero cmds[n]? with
      | true => exact found_of_zero hlist hopen hcov hzero
      | false =>
        have hd : ∀ k, Covers (r.entry d).cmda cmds k → spdStrlenZero cmds[k]? = false := by
          intro k hk
          rcases Nat.eq_or_lt_of_le (hmax k hk) with rfl | hlt
          · exact hzero
          · exact hcov.word hlt
        rw [if_neg Bool.false_ne_true]
        by_cases hgt : (n : Int) > matchlen
        · simp only [hgt, if_true]
          exact ih hlist' (hbest.take hcov hmax hzero hgt) (hopen' hd)
        · simp only [hgt, if_false]
          refine ih hlist' (hbest.keep fun k hk => ?_) (hopen' hd)
          have hle := hmax k hk
          omega

/-- A lookup prefers the first entry that takes all of the words, and else the first of those that
    take the most of them. -/
theorem findCli_found (cmds : List CString)
    (hwords : ∀ e ∈ r.entrys, ∀ w ∈ (r.entry e).cmda, w ≠ []) :
    Found r cmds (findCli r cmds 0) :=
  have hlist : r.entrys = [] ++ r.entrys := rfl
  findLoop_found hwords hlist (.missing nofun) nofun

end

/-- A command that is longer than one and shorter than the other. -/
def showRegistry : Registry where
  entry a := if a = 1 then ⟨[lit "show"], lit "show", 4, 1, none⟩
    else ⟨[lit "show", lit "{all|new}", lit "now"], lit "show {all|new} now", 5, 3, none⟩
  entrys := [1, 2]

theorem findCli_found_show : Found showRegistry [lit "show", lit "all"] (some 1) := by
  have hfind : findCli showRegistry [lit "show", lit "all"] 0 = some 1 := by decide +kernel
  rw [← hfind]
  exact findCli_found _ (by decide)

/-- Past the blanks a word begins. -/
theorem spdSkipNonblanks_ne_nil {s : CString} (h : spdSkipBlanks s ≠ []) :
    (spdSkipNonblanks (spdSkipBlanks s)).1 ≠ [] := by
  obtain ⟨c, t, hs⟩ := List.exists_cons_of_ne_nil h
  have hblank := List.head?_dropWhile_not (fun c : UInt8 => decide (c < 33)) s
  rw [← spdSkipBlanks, hs] at hblank
  have hlt : 32 < c := by
    have hge : ¬ c < 33 := by simpa using hblank
    rw [UInt8.lt_iff_toNat_lt] at hge ⊢
    simp only [UInt8.reduceToNat] at hge ⊢
    omega
  rw [hs, spdSkipNonblanks, List.span_eq_takeWhile_dropWhile,
    List.takeWhile_cons_of_pos (by simp [hlt])]
  exact List.cons_ne_nil _ _

/-- The words that a command is cut into are not empty. -/
theorem commandWords_ne_nil (n : Nat) (s : CString) :
    ∀ w ∈ commandWords n (spdSkipBlanks s), w ≠ [] := by
  induction n generalizing s with
  | zero => exact nofun
  | succ n ih =>
    intro w hw
    rw [commandWords] at hw
    split at hw
    · exact absurd hw List.not_mem_nil
    next hempty =>
      have hne : spdSkipBlanks s ≠ [] := fun h => hempty (List.isEmpty_iff.mpr h)
      have hword := spdSkipNonblanks_ne_nil hne
      split at hw
      next word heq =>
        rw [List.mem_singleton.mp hw]
        rwa [heq] at hword
      next word c rest heq =>
        rcases List.mem_cons.mp hw with rfl | hw
        · rwa [heq] at hword
        · exact ih rest w hw

/-- The words of an entry that is registered are not empty. -/
theorem withCommand_words (e : SpdCliEntry) (command : CString) (strdup : Bool) :
    ∀ w ∈ (e.withCommand command strdup).cmda, w ≠ [] := by
  cases strdup with
  | true => exact commandWords_ne_nil 15 command
  | false => exact nofun

end Spider.Cli
