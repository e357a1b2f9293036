import Spider.Cli.Registry
import Spider.Lib.Joined

/-!
# Pattern words

`word_match` takes a typed word for one of the alternatives of a pattern word
when it stands between reserved characters there. The bars and the closing
bracket may themselves be typed, and `strchr` finds the null byte among the
reserved characters, so that more than the alternatives is accepted.
-/

namespace Spider.Cli

open Lib CString Joined

/-- The brackets of a pattern word. -/
inductive Bracket where
  | exactly
  | optionally
  deriving DecidableEq, Repr

def Bracket.opening : Bracket → UInt8
  | .exactly => ch '{'
  | .optionally => ch '['

def Bracket.closing : Bracket → UInt8
  | .exactly => ch '}'
  | .optionally => ch ']'

/-- `{a1|…|ak}` or `[a1|…|ak]`. -/
def Bracket.pattern (b : Bracket) (alts : List CString) : CString :=
  b.opening :: ([ch '|'].intercalate alts ++ [b.closing])

/-- The word is several alternatives in a row with the bars between them, or the last ones with
    the closing bracket, in any case. -/
def Spans (b : Bracket) (alts : List CString) (cmd : CString) : Prop :=
  (∃ run, 2 ≤ run.length ∧ run <:+: alts ∧ strcasecmp cmd ([ch '|'].intercalate run) = 0) ∨
    ∃ last, last ≠ [] ∧ last <:+ alts ∧
      strcasecmp cmd ([ch '|'].intercalate last ++ [b.closing]) = 0

theorem reserved_tolower (c : UInt8) : reserved (tolower c) = reserved c := by
  -- No letter is reserved, and the other bytes stay as they are.
  have hletter : ∀ n < 26, reserved (UInt8.ofNat (65 + n)) = false ∧
      reserved (UInt8.ofNat (65 + n) + 32) = false := by
    decide +kernel
  rw [tolower]
  split
  next h =>
    have hle : 65 ≤ c.toNat ∧ c.toNat ≤ 90 := ⟨UInt8.le_iff_toNat_le.mp h.1,
      UInt8.le_iff_toNat_le.mp h.2⟩
    obtain ⟨hupper, hlower⟩ := hletter (c.toNat - 65) (by omega)
    rw [Nat.add_sub_cancel' hle.1, UInt8.ofNat_toNat] at hupper hlower
    rw [hupper, hlower]
  next => rfl

theorem reserved_bar : reserved (ch '|') = true := rfl

theorem reserved_zero : reserved 0 = true := rfl

section

variable {b : Bracket} {alts : List CString} {cmd u v : CString} {c : UInt8}

theorem Bracket.reserved_opening (b : Bracket) : reserved b.opening = true := by
  cases b <;> rfl

theorem Bracket.reserved_closing (b : Bracket) : reserved b.closing = true := by
  cases b <;> rfl

theorem Bracket.opening_ne_wildcard (b : Bracket) : b.opening ≠ ch '%' := by
  cases b <;> decide

theorem Bracket.pattern_eq (b : Bracket) (halts : alts ≠ []) :
    b.pattern alts = b.opening :: closed (ch '|') b.closing alts := by
  rw [pattern, closed_eq halts]

/-- A reserved byte of one string stands in another that is the same in any case. -/
theorem exists_reserved (h : lower u = lower v) (hc : c ∈ u) (hr : reserved c = true) :
    ∃ d ∈ v, reserved d = true := by
  have hmem : tolower c ∈ lower v := h ▸ List.mem_map_of_mem hc
  obtain ⟨d, hd, heq⟩ := List.mem_map.mp hmem
  exact ⟨d, hd, by rw [← reserved_tolower, heq, reserved_tolower, hr]⟩

theorem noNul_of_unbroken {w : CString} (hw : ∀ c ∈ w, reserved c = false) : NoNul w := by
  rintro c hc rfl
  exact absurd (hw 0 hc) (by simp [reserved_zero])

/-- A typed word that occurs at a place of the pattern, as the bytes there. -/
theorem occursAt_iff {w : CString} {pos : Nat} :
    occursAt cmd w pos = true ↔ lower ((w.drop pos).take cmd.length) = lower cmd := by
  rw [occursAt, List.isPrefixOf_iff_prefix, List.prefix_iff_eq_take, eq_comm]
  simp only [lower, List.map_take, List.length_map]

/-- The byte in front of a place behind the opening bracket. -/
theorem reserved_before {o : UInt8} {t : CString} {k : Nat} (ho : reserved o = true)
    (hk : k ≤ t.length) : reserved ((o :: t).getD k 0) = true ↔
      ∀ c ∈ (t.take k).getLast?, reserved c = true := by
  cases k with
  | zero => simpa using ho
  | succ k =>
    rw [List.getLast?_take, if_neg (Nat.succ_ne_zero k), Nat.add_sub_cancel,
      List.getD_cons_succ, List.getD_eq_getElem?_getD, List.getElem?_eq_getElem hk]
    simp

/-- The byte behind a place. -/
theorem reserved_behind {t : CString} {k : Nat} : reserved (t.getD k 0) = true ↔
    ∀ c ∈ (t.drop k).head?, reserved c = true := by
  rw [List.head?_drop, List.getD_eq_getElem?_getD]
  cases t[k]? with
  | none => exact iff_of_true reserved_zero nofun
  | some c => simp

theorem wordMatch_pattern (b : Bracket) (alts : List CString) (hcmd : cmd ≠ []) :
    wordMatch cmd (b.pattern alts) =
      if (List.range ((b.pattern alts).length + 1)).any fun pos =>
          occursAt cmd (b.pattern alts) pos && (pos != 0 &&
            reserved ((b.pattern alts).getD (pos - 1) 0) &&
            reserved ((b.pattern alts).getD (pos + cmd.length) 0))
      then 1 else -1 := by
  obtain ⟨c, cs, rfl⟩ := List.exists_cons_of_ne_nil hcmd
  unfold Bracket.pattern wordMatch
  simp only [b.reserved_opening, Bool.not_true, Bool.false_eq_true, if_false,
    b.opening_ne_wildcard]

/-- `word_match` finds what lies between two reserved characters of the pattern. -/
theorem wordMatch_pattern_eq_one (halts : alts ≠ []) (hcmd : cmd ≠ []) :
    wordMatch cmd (b.pattern alts) = 1 ↔ ∃ u, lower u = lower cmd ∧ ∃ q post,
      closed (ch '|') b.closing alts = q ++ (u ++ post) ∧
      (∀ c ∈ q.getLast?, reserved c = true) ∧ ∀ c ∈ post.head?, reserved c = true := by
  rw [wordMatch_pattern b alts hcmd]
  generalize htext : closed (ch '|') b.closing alts = t
  have hpattern : b.pattern alts = b.opening :: t := htext ▸ b.pattern_eq halts
  simp only [ite_eq_left_iff, reduceCtorEq, imp_false, not_not, List.any_eq_true, List.mem_range,
    Bool.and_eq_true, bne_iff_ne, hpattern]
  constructor
  · rintro ⟨_ | k, -, hoccurs, ⟨hpos, hbefore⟩, hbehind⟩
    · exact absurd rfl hpos
    rw [occursAt_iff, List.drop_succ_cons] at hoccurs
    have hlen := congrArg List.length hoccurs
    have hcmdlen := List.length_pos_iff.mpr hcmd
    simp only [lower, List.length_map, List.length_take, List.length_drop] at hlen
    rw [Nat.add_sub_cancel, reserved_before b.reserved_opening (by omega)] at hbefore
    rw [Nat.add_right_comm, List.getD_cons_succ, reserved_behind] at hbehind
    refine ⟨_, hoccurs, t.take k, t.drop (k + cmd.length), ?_, hbefore, hbehind⟩
    rw [← List.drop_drop, List.take_append_drop, List.take_append_drop]
  · rintro ⟨u, hu, q, post, rfl, hq, hpost⟩
    have hlen : u.length = cmd.length := by simpa [lower] using congrArg List.length hu
    refine ⟨q.length + 1, ?_, ?_, ⟨Nat.succ_ne_zero _, ?_⟩, ?_⟩
    · rw [List.length_cons, List.length_append]
      omega
    · rw [occursAt_iff, List.drop_succ_cons, List.drop_left, ← hlen, List.take_left, hu]
    · rw [Nat.add_sub_cancel, reserved_before b.reserved_opening (by simp), List.take_left]
      exact hq
    · rw [Nat.add_right_comm, List.getD_cons_succ, reserved_behind, ← hlen, ← List.drop_drop,
        List.drop_left, List.drop_left]
      exact hpost

theorem noNul_intercalate {run : List CString} (hwords : Unbroken reserved alts)
    (hrun : ∀ w ∈ run, w ∈ alts) : NoNul ([ch '|'].intercalate run) := by
  intro c hc
  rcases mem_intercalate hc with rfl | ⟨w, hw, hcw⟩
  · decide
  · exact noNul_of_unbroken (hwords.break_eq w (hrun w hw)) c hcw

theorem noNul_closing {run : List CString} (hwords : Unbroken reserved alts)
    (hrun : ∀ w ∈ run, w ∈ alts) : NoNul ([ch '|'].intercalate run ++ [b.closing]) := by
  intro c hc
  rcases List.mem_append.mp hc with hc | hc
  · exact noNul_intercalate hwords hrun c hc
  · rw [List.mem_singleton.mp hc]
    cases b <;> decide

/-- A word that spans alternatives is none of them. -/
theorem Spans.not_alternative (h : Spans b alts cmd) (hwords : Unbroken reserved alts)
    (hnul : NoNul cmd) : ¬ ∃ a ∈ alts, strcasecmp cmd a = 0 := by
  rintro ⟨a, ha, heq⟩
  have hunbroken := hwords.break_eq a ha
  have hlower := (strcasecmp_eq_zero hnul (noNul_of_unbroken hunbroken)).mp heq
  obtain ⟨v, c, hv, hc, hr⟩ : ∃ v c, lower cmd = lower v ∧ c ∈ v ∧ reserved c = true := by
    rcases h with ⟨run, hlen, hrun, hsame⟩ | ⟨last, -, hlast, hsame⟩
    · refine ⟨_, ch '|', (strcasecmp_eq_zero hnul
        (noNul_intercalate hwords fun w hw => hrun.subset hw)).mp hsame, ?_, reserved_bar⟩
      match run, hlen with
      | v :: w :: run, _ => simp [List.intercalate_cons_cons]
    · exact ⟨_, b.closing, (strcasecmp_eq_zero hnul
        (noNul_closing hwords fun w hw => hlast.subset hw)).mp hsame, by simp, b.reserved_closing⟩
  obtain ⟨d, hd, hrd⟩ := exists_reserved (hv.symm.trans hlower) hc hr
  rw [hunbroken d hd] at hrd
  exact absurd hrd Bool.noConfusion

/-- `word_match` accepts the alternatives, and what spans several of them. -/
theorem wordMatch_eq_one_iff (halts : alts ≠ []) (hwords : Unbroken reserved alts)
    (hcmd : cmd ≠ []) (hnul : NoNul cmd) : wordMatch cmd (b.pattern alts) = 1 ↔
      (∃ a ∈ alts, strcasecmp cmd a = 0) ∨ Spans b alts cmd := by
  rw [wordMatch_pattern_eq_one halts hcmd]
  constructor
  · rintro ⟨u, hu, hbetween⟩
    have hne : u ≠ [] := by
      rintro rfl
      exact hcmd (List.map_eq_nil_iff.mp hu.symm)
    rcases (between_breaks_iff hwords reserved_bar b.reserved_closing hne).mp hbetween with
      ⟨run, hrun, hinfix, rfl⟩ | ⟨last, hlast, hsuffix, rfl⟩
    · have hsame := (strcasecmp_eq_zero hnul
        (noNul_intercalate hwords fun w hw => hinfix.subset hw)).mpr hu.symm
      match run, hrun with
      | [a], _ =>
        rw [List.intercalate_singleton] at hsame
        exact .inl ⟨a, (List.singleton_infix_iff a alts).mp hinfix, hsame⟩
      | v :: w :: run, _ => exact .inr (.inl ⟨v :: w :: run, by simp, hinfix, hsame⟩)
    · exact .inr (.inr ⟨last, hlast, hsuffix, (strcasecmp_eq_zero hnul
        (noNul_closing hwords fun w hw => hsuffix.subset hw)).mpr hu.symm⟩)
  · have hspan : ∀ {v}, NoNul v → strcasecmp cmd v = 0 →
        ((∃ run, run ≠ [] ∧ run <:+: alts ∧ v = [ch '|'].intercalate run) ∨
          ∃ last, last ≠ [] ∧ last <:+ alts ∧ v = [ch '|'].intercalate last ++ [b.closing]) →
        ∃ u, lower u = lower cmd ∧ ∃ q post,
          closed (ch '|') b.closing alts = q ++ (u ++ post) ∧
          (∀ c ∈ q.getLast?, reserved c = true) ∧ ∀ c ∈ post.head?, reserved c = true := by
      intro v hv hsame hcases
      have hlower := (strcasecmp_eq_zero hnul hv).mp hsame
      have hne : v ≠ [] := by
        rintro rfl
        exact hcmd (List.map_eq_nil_iff.mp hlower)
      exact ⟨v, hlower.symm,
        (between_breaks_iff hwords reserved_bar b.reserved_closing hne).mpr hcases⟩
    rintro (⟨a, ha, hsame⟩ | ⟨run, hlen, hinfix, hsame⟩ | ⟨last, hlast, hsuffix, hsame⟩)
    · exact hspan (noNul_of_unbroken (hwords.break_eq a ha)) hsame
        (.inl ⟨[a], by simp, (List.singleton_infix_iff a alts).mpr ha, by simp⟩)
    · exact hspan (noNul_intercalate hwords fun w hw => hinfix.subset hw) hsame
        (.inl ⟨run, List.ne_nil_of_length_pos (by omega), hinfix, rfl⟩)
    · exact hspan (noNul_closing hwords fun w hw => hsuffix.subset hw) hsame
        (.inr ⟨last, hlast, hsuffix, rfl⟩)

/-- A pattern word matches exactly its alternatives for the typed words that span none of them. -/
theorem wordMatch_alternatives_iff (b : Bracket) (halts : alts ≠ [])
    (hwords : Unbroken reserved alts) (hcmd : cmd ≠ []) (hnul : NoNul cmd) :
    wordMatch cmd (b.pattern alts) = (if ∃ a ∈ alts, strcasecmp cmd a = 0 then 1 else -1) ↔
      ¬ Spans b alts cmd := by
  have hone := wordMatch_eq_one_iff (b := b) halts hwords hcmd hnul
  by_cases hspans : Spans b alts cmd
  · rw [if_neg (hspans.not_alternative hwords hnul), hone.mpr (.inr hspans)]
    exact iff_of_false (by decide) (not_not.mpr hspans)
  · refine iff_of_true ?_ hspans
    split
    next halt => exact hone.mpr (.inl halt)
    next halt =>
      have hne := mt hone.mp (not_or.mpr ⟨halt, hspans⟩)
      rw [wordMatch_pattern b alts hcmd] at hne ⊢
      exact (ite_eq_or_eq _ _ _).resolve_left hne

end

theorem unbroken_ab : Unbroken reserved [lit "a", lit "b"] :=
  ⟨by decide, by decide +kernel⟩

/-- In upper case an alternative is accepted, and spans nothing. -/
theorem wordMatch_alternatives_upper :
    wordMatch (lit "B") (Bracket.exactly.pattern [lit "a", lit "b"]) = 1 ∧
      ¬ Spans .exactly [lit "a", lit "b"] (lit "B") :=
  ⟨by decide, (wordMatch_alternatives_iff .exactly (List.cons_ne_nil _ _) unbroken_ab
    (by decide) (by decide +kernel)).mp (by decide)⟩

/-- `{a|b}` accepts `b}`. -/
theorem wordMatch_closing_typed : Unbroken reserved [lit "a", lit "b"] ∧ NoNul (lit "b\x7d") ∧
    ¬ wordMatch (lit "b\x7d") (Bracket.exactly.pattern [lit "a", lit "b"]) =
      if ∃ a ∈ [lit "a", lit "b"], strcasecmp (lit "b\x7d") a = 0 then 1 else -1 :=
  ⟨unbroken_ab, by decide +kernel, by decide +kernel⟩

end Spider.Cli
