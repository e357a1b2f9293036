import Spider.Lib.CString

/-!
# The operator `LIKE`

`like pattern text` as SQLite documents it, on UTF-8 text: a percent sign stands
for any characters, an underscore for one, any other character for itself, and
ASCII letters match in either case.
-/

namespace Lib.Like

open CString

/-- A byte that continues a character of UTF-8. -/
def continues (c : UInt8) : Bool := decide (0x80 ≤ c ∧ c < 0xc0)

/-- What is left of a text after its first character. -/
def dropChar : List UInt8 → List UInt8
  | [] => []
  | c :: text => if 0xc0 ≤ c then text.dropWhile continues else text

/-- The ends of a text that begin at a character. -/
def ends : List UInt8 → List (List UInt8)
  | [] => [[]]
  | c :: text => if continues c then ends text else (c :: text) :: ends text

def like : List UInt8 → List UInt8 → Bool
  | [], text => text.isEmpty
  | p :: pattern, text =>
    if p = ch '%' then (ends text).any (like pattern)
    else if text.isEmpty then false
    else if p = ch '_' then like pattern (dropChar text)
    else decide (tolower p = tolower (text.headD 0)) && like pattern text.tail

example : like (lit "/t/%") (lit "/T/key/") = true := by decide
example : like (lit "/t//%") (lit "/t/key/") = false := by decide

theorem mem_ends {x t : List UInt8} :
    x ∈ ends t ↔ x <:+ t ∧ ∀ c ∈ x.head?, continues c = false := by
  induction t with
  | nil =>
    rw [ends, List.mem_singleton, List.suffix_nil]
    constructor
    · rintro rfl
      exact ⟨rfl, nofun⟩
    · exact And.left
  | cons c t ih =>
    rw [ends, List.suffix_cons_iff]
    cases hc : continues c with
    | true =>
      rw [if_pos rfl, ih]
      constructor
      · rintro ⟨hsuffix, hhead⟩
        exact ⟨.inr hsuffix, hhead⟩
      · rintro ⟨rfl | hsuffix, hhead⟩
        · exact absurd (hc.symm.trans (hhead c rfl)) nofun
        · exact ⟨hsuffix, hhead⟩
    | false =>
      rw [if_neg Bool.false_ne_true, List.mem_cons, ih]
      constructor
      · rintro (rfl | ⟨hsuffix, hhead⟩)
        · refine ⟨.inl rfl, ?_⟩
          rintro d ⟨⟩
          exact hc
        · exact ⟨.inr hsuffix, hhead⟩
      · rintro ⟨rfl | hsuffix, hhead⟩
        · exact .inl rfl
        · exact .inr ⟨hsuffix, hhead⟩

/-- The first character is its first byte and those that continue it. -/
theorem exists_dropChar (c : UInt8) (t : List UInt8) :
    ∃ more, t = more ++ dropChar (c :: t) ∧
      ∀ x y, dropChar (c :: t) = x ++ y → dropChar (c :: (more ++ x)) = x := by
  rw [dropChar]
  by_cases hc : 0xc0 ≤ c
  · rw [if_pos hc]
    refine ⟨t.takeWhile continues, List.takeWhile_append_dropWhile.symm, fun x y hxy => ?_⟩
    rw [dropChar, if_pos hc, List.dropWhile_append_of_pos fun a ha => List.mem_takeWhile_imp ha]
    cases x with
    | nil => rfl
    | cons a x =>
      have hhead := List.head?_dropWhile_not continues t
      rw [hxy] at hhead
      exact List.dropWhile_cons_of_neg (by simpa using hhead)
  · rw [if_neg hc]
    exact ⟨[], rfl, fun x y _ => by rw [dropChar, if_neg hc]; rfl⟩

theorem dropChar_append {d : UInt8} (hd : continues d = false) (c : UInt8) (s v : List UInt8) :
    dropChar (c :: (s ++ d :: v)) = dropChar (c :: s) ++ d :: v := by
  rw [dropChar, dropChar]
  split
  · rw [List.dropWhile_append]
    split
    · next hempty =>
      rw [List.isEmpty_iff.mp hempty, List.dropWhile_cons_of_neg (by rw [hd]; exact nofun)]
      rfl
    · rfl
  · rfl

section

variable {p q t : List UInt8} {a d : UInt8}

theorem like_percent : like (ch '%' :: p) t = true ↔ ∃ e ∈ ends t, like p e = true := by
  rw [like, if_pos rfl, List.any_eq_true]

theorem like_underscore :
    like (ch '_' :: p) t = true ↔ ∃ c s, t = c :: s ∧ like p (dropChar (c :: s)) = true := by
  rw [like, if_neg (by decide)]
  cases t with
  | nil => simp
  | cons c s => simp

theorem like_literal (hpercent : a ≠ ch '%') (hunderscore : a ≠ ch '_') :
    like (a :: p) t = true ↔ ∃ c s, t = c :: s ∧ tolower a = tolower c ∧ like p s = true := by
  rw [like, if_neg hpercent]
  cases t with
  | nil => simp
  | cons c s => simp [hunderscore]

theorem like_nil : like [] t = true ↔ t = [] := by
  rw [like, List.isEmpty_iff]

/-- A byte below the letters that is no percent sign separates a pattern, and the text with it. -/
theorem like_append (hd : d < 65) (hpercent : d ≠ ch '%') :
    like (p ++ d :: q) t = true ↔ ∃ u v, t = u ++ d :: v ∧ like p u = true ∧ like q v = true := by
  have hcontinues : continues d = false := by
    rw [continues, decide_eq_false_iff_not]
    intro h
    have hlo := UInt8.le_iff_toNat_le.mp h.1
    have hlt := UInt8.lt_iff_toNat_lt.mp hd
    simp only [UInt8.reduceToNat] at hlo hlt
    omega
  have hunderscore : d ≠ ch '_' := fun h => absurd (h ▸ hd) (by decide)
  have hsame : tolower d = d := if_neg fun hle => absurd hle.1 (UInt8.not_le.mpr hd)
  induction p generalizing t with
  | nil =>
    rw [List.nil_append, like_literal hpercent hunderscore]
    constructor
    · rintro ⟨c, s, rfl, hc, hq⟩
      rw [hsame] at hc
      rw [tolower_eq_of_lt hd hc.symm]
      exact ⟨[], s, rfl, like_nil.mpr rfl, hq⟩
    · rintro ⟨u, v, rfl, hu, hv⟩
      rw [like_nil.mp hu]
      exact ⟨d, v, rfl, rfl, hv⟩
  | cons a p ih =>
    rw [List.cons_append]
    by_cases ha : a = ch '%'
    · subst ha
      simp only [like_percent, mem_ends, ih]
      constructor
      · rintro ⟨e, ⟨⟨w, rfl⟩, hhead⟩, u, v, rfl, hu, hv⟩
        refine ⟨w ++ u, v, (List.append_assoc _ _ _).symm, ⟨u, ⟨List.suffix_append _ _, ?_⟩, hu⟩, hv⟩
        intro c hc
        exact hhead c (by rw [List.head?_append, hc]; rfl)
      · rintro ⟨u, v, rfl, ⟨e, ⟨⟨w, rfl⟩, hhead⟩, he⟩, hv⟩
        refine ⟨e ++ d :: v, ⟨⟨w, (List.append_assoc _ _ _).symm⟩, ?_⟩, e, v, rfl, he, hv⟩
        intro c hc
        cases e with
        | nil =>
          obtain rfl := Option.some.inj hc
          exact hcontinues
        | cons b e => exact hhead c hc
    · by_cases hb : a = ch '_'
      · subst hb
        simp only [like_underscore, ih]
        constructor
        · rintro ⟨c, s, rfl, u, v, hdrop, hu, hv⟩
          obtain ⟨more, hmore, hkeep⟩ := exists_dropChar c s
          refine ⟨c :: (more ++ u), v, ?_, ⟨c, more ++ u, rfl, ?_⟩, hv⟩
          · rw [hdrop] at hmore
            rw [hmore, List.cons_append, List.append_assoc]
          · rw [hkeep u _ hdrop]
            exact hu
        · rintro ⟨u, v, rfl, ⟨c, s, rfl, hs⟩, hv⟩
          exact ⟨c, s ++ d :: v, rfl, dropChar (c :: s), v, dropChar_append hcontinues c s v, hs, hv⟩
      · simp only [like_literal ha hb, ih]
        constructor
        · rintro ⟨c, s, rfl, hc, u, v, rfl, hu, hv⟩
          exact ⟨c :: u, v, rfl, ⟨c, u, rfl, hc, hu⟩, hv⟩
        · rintro ⟨u, v, rfl, ⟨c, s, rfl, hc, hs⟩, hv⟩
          exact ⟨c, s ++ d :: v, rfl, hc, s, v, rfl, hs, hv⟩

end

end Lib.Like
