import Mathlib.Algebra.Group.Int.Defs
import Mathlib.Algebra.Group.Nat.Defs
import Mathlib.Data.List.Basic
import Mathlib.Data.List.TakeWhile

/-!
# C strings

A C string is the list of its bytes before the terminating null byte.
-/

namespace Lib

/-- The bytes of a string, without the null byte at its end. -/
abbrev CString := List UInt8

namespace CString

/-- A character constant. -/
def ch (c : Char) : UInt8 := c.toNat.toUInt8

/-- A string constant. -/
def lit (s : String) : CString := s.toList.map ch

/-- `tolower` in the C locale. -/
def tolower (c : UInt8) : UInt8 := if 65 ≤ c ∧ c ≤ 90 then c + 32 else c

/-- `strcasecmp`: the difference at the first position where the strings differ other
    than in case. -/
def strcasecmp : CString → CString → Int
  | [], [] => 0
  | [], c :: _ => -(tolower c).toNat
  | c :: _, [] => (tolower c).toNat
  | c :: s, d :: t =>
    if tolower c = tolower d then strcasecmp s t else (tolower c).toNat - (tolower d).toNat

/-- `strcmp`, by its sign: the bytes are compared as unsigned ones. -/
def strcmp : CString → CString → Int
  | [], [] => 0
  | [], _ :: _ => -1
  | _ :: _, [] => 1
  | c :: s, d :: t => if c = d then strcmp s t else if c < d then -1 else 1

/-- `strncasecmp`. -/
def strncasecmp (s t : CString) (n : Nat) : Int := strcasecmp (s.take n) (t.take n)

/-- The string in lower case. -/
def lower (s : CString) : CString := s.map tolower

/-- No byte of a string is the null byte. -/
def NoNul (s : CString) : Prop := ∀ c ∈ s, c ≠ 0

/-- The string that a C function reads in the bytes `s` with a null byte behind them. -/
def cut (s : List UInt8) : CString := s.takeWhile (· ≠ 0)

/-- `isspace` in the C locale. -/
def isspace (c : UInt8) : Bool := c = 32 ∨ 9 ≤ c ∧ c ≤ 13

/-- `isdigit`. -/
def isdigit (c : UInt8) : Bool := 48 ≤ c ∧ c ≤ 57

/-- The digits in front, read as a number of base 10. -/
def digits (s : List UInt8) : Int :=
  (s.takeWhile isdigit).foldl (fun (n : Int) c => n * 10 + (c.toNat - 48)) 0

/-- `atoi` on the bytes `s` with a null byte behind them: what `strtol` reads, a `long`, as an
    `int`. -/
def atoi (s : List UInt8) : Int32 :=
  match s.dropWhile isspace with
  | 45 :: s => Int32.ofInt (max (-2 ^ 63) (-digits s))
  | 43 :: s => Int32.ofInt (min (2 ^ 63 - 1) (digits s))
  | s => Int32.ofInt (min (2 ^ 63 - 1) (digits s))

instance (s : CString) : Decidable (NoNul s) := inferInstanceAs (Decidable (∀ c ∈ s, c ≠ 0))

/-- No letter becomes what stands below the letters. -/
theorem tolower_eq_of_lt {c d : UInt8} (hd : d < 65) (h : tolower c = d) : c = d := by
  unfold tolower at h
  split at h
  · next hle =>
    have hnat := congrArg UInt8.toNat h
    have hlo := UInt8.le_iff_toNat_le.mp hle.1
    have hhi := UInt8.le_iff_toNat_le.mp hle.2
    have hlt := UInt8.lt_iff_toNat_lt.mp hd
    simp only [UInt8.toNat_add, UInt8.reduceToNat] at hnat hlo hhi hlt
    omega
  · exact h

theorem tolower_eq_zero {c : UInt8} (h : tolower c = 0) : c = 0 := tolower_eq_of_lt (by decide) h

@[simp] theorem strcasecmp_self (s : CString) : strcasecmp s s = 0 := by
  induction s with
  | nil => rfl
  | cons c s ih => rw [strcasecmp, if_pos rfl, ih]

@[simp] theorem strcmp_self (s : CString) : strcmp s s = 0 := by
  induction s with
  | nil => rfl
  | cons c s ih => rw [strcmp, if_pos rfl, ih]

theorem strcmp_swap (s t : CString) : strcmp t s = -strcmp s t := by
  induction s generalizing t with
  | nil => cases t <;> rfl
  | cons c s ih =>
    cases t with
    | nil => rfl
    | cons d t =>
      rw [strcmp, strcmp]
      by_cases heq : c = d
      · rw [if_pos heq, if_pos heq.symm]
        exact ih t
      · rw [if_neg heq, if_neg (Ne.symm heq)]
        by_cases hlt : c < d
        · rw [if_pos hlt, if_neg (UInt8.lt_asymm hlt)]
          rfl
        · have hgt : d < c := UInt8.lt_of_le_of_ne (UInt8.not_lt.mp hlt) (Ne.symm heq)
          rw [if_neg hlt, if_pos hgt]

theorem strcmp_eq_zero {s t : CString} : strcmp s t = 0 ↔ s = t := by
  constructor
  · intro h
    induction s generalizing t with
    | nil =>
      cases t with
      | nil => rfl
      | cons d t => cases h
    | cons c s ih =>
      cases t with
      | nil => cases h
      | cons d t =>
        rw [strcmp] at h
        split at h
        next heq => rw [heq, ih h]
        next => split at h <;> cases h
  · rintro rfl
    exact strcmp_self s

/-- What is less than a string that is less is less. -/
theorem strcmp_lt_trans {s t u : CString} (hst : strcmp s t < 0) (htu : strcmp t u < 0) :
    strcmp s u < 0 := by
  induction s generalizing t u with
  | nil =>
    cases u with
    | nil =>
      cases t with
      | nil => exact htu
      | cons d t => cases htu
    | cons e u => exact Int.negSucc_lt_zero 0
  | cons c s ih =>
    cases t with
    | nil => cases hst
    | cons d t =>
      cases u with
      | nil => cases htu
      | cons e u =>
        rw [strcmp] at hst htu ⊢
        by_cases hcd : c = d
        · subst hcd
          rw [if_pos rfl] at hst
          by_cases hce : c = e
          · rw [if_pos hce] at htu ⊢
            exact ih hst htu
          · rw [if_neg hce] at htu ⊢
            exact htu
        · rw [if_neg hcd] at hst
          have hlt : c < d := by
            by_contra hnot
            rw [if_neg hnot] at hst
            cases hst
          have hle : c < e := by
            by_cases hde : d = e
            · exact hde ▸ hlt
            · rw [if_neg hde] at htu
              have hde' : d < e := by
                by_contra hnot
                rw [if_neg hnot] at htu
                cases htu
              exact UInt8.lt_trans hlt hde'
          rw [if_neg (UInt8.ne_of_lt hle), if_pos hle]
          exact Int.negSucc_lt_zero 0

theorem strcmp_le_trans {s t u : CString} (hst : strcmp s t ≤ 0) (htu : strcmp t u ≤ 0) :
    strcmp s u ≤ 0 := by
  rcases Int.lt_or_eq_of_le hst with hlt | heq
  · rcases Int.lt_or_eq_of_le htu with hlt' | heq'
    · exact Int.le_of_lt (strcmp_lt_trans hlt hlt')
    · rwa [← strcmp_eq_zero.mp heq']
  · rwa [strcmp_eq_zero.mp heq]

theorem strcasecmp_eq_zero_comm {s t : CString} : strcasecmp s t = 0 ↔ strcasecmp t s = 0 := by
  induction s generalizing t with
  | nil =>
    cases t with
    | nil => rfl
    | cons d t => simp [strcasecmp]
  | cons c s ih =>
    cases t with
    | nil => simp [strcasecmp]
    | cons d t =>
      rw [strcasecmp, strcasecmp]
      by_cases heq : tolower c = tolower d
      · rw [if_pos heq, if_pos heq.symm]
        exact ih
      · rw [if_neg heq, if_neg (Ne.symm heq)]
        omega

theorem strcasecmp_eq_zero {s t : CString} (hs : NoNul s) (ht : NoNul t) :
    strcasecmp s t = 0 ↔ lower s = lower t := by
  have hpos : ∀ {c : UInt8}, c ≠ 0 → (tolower c).toNat ≠ 0 := by
    intro c hc h
    exact hc (tolower_eq_zero (UInt8.toNat_inj.mp h))
  induction s generalizing t with
  | nil =>
    cases t with
    | nil => simp [strcasecmp, lower]
    | cons d t =>
      have hd := hpos (ht d (by simp))
      simp [strcasecmp, lower, hd]
  | cons c s ih =>
    have hc := hpos (hs c (by simp))
    cases t with
    | nil => simp [strcasecmp, lower, hc]
    | cons d t =>
      rw [strcasecmp]
      by_cases heq : tolower c = tolower d
      · have hrest := ih (fun x hx => hs x (List.mem_cons_of_mem c hx))
          (fun x hx => ht x (List.mem_cons_of_mem d hx))
        rw [if_pos heq]
        exact hrest.trans (by simp [lower, heq])
      · rw [if_neg heq]
        have hne : (tolower c).toNat ≠ (tolower d).toNat := fun h => heq (UInt8.toNat_inj.mp h)
        constructor
        · intro h
          omega
        · intro h
          simp [lower, heq] at h

/-- A string that is the same as a byte below the letters is that byte. -/
theorem eq_singleton_of_strcasecmp {s : CString} {d : UInt8} (hs : NoNul s) (hzero : d ≠ 0)
    (hd : d < 65) (h : strcasecmp s [d] = 0) : s = [d] := by
  have hnul : NoNul [d] := fun c hc => List.mem_singleton.mp hc ▸ hzero
  have hlower := (strcasecmp_eq_zero hs hnul).mp h
  have hsame : tolower d = d := if_neg fun hle => absurd (hle.1.trans_lt hd) (lt_irrefl 65)
  cases s with
  | nil => exact absurd hlower nofun
  | cons c s =>
    obtain ⟨hc, hrest⟩ := List.cons.inj hlower
    rw [tolower_eq_of_lt hd (hc.trans hsame), List.map_eq_nil_iff.mp hrest]

/-- Null bytes behind a string do not change what is read. -/
theorem cut_append_replicate {s : CString} (h : NoNul s) (n : Nat) :
    cut (s ++ List.replicate n 0) = s := by
  have hall : ∀ c ∈ s, decide (c ≠ 0) = true := by
    intro c hc
    exact decide_eq_true (h c hc)
  rw [cut, List.takeWhile_append_of_pos hall]
  cases n <;> simp [List.replicate_succ]

theorem noNul_append {u v : List UInt8} : NoNul (u ++ v) ↔ NoNul u ∧ NoNul v := by
  simp [NoNul, or_imp, forall_and]

theorem cut_of_noNul {s : CString} (h : NoNul s) : cut s = s := by
  simpa using cut_append_replicate h 0

theorem noNul_cut (s : List UInt8) : NoNul (cut s) := by
  intro c hc
  simpa using List.mem_takeWhile_imp hc

theorem take_length_cut (s : List UInt8) : s.take (cut s).length = cut s :=
  (List.prefix_iff_eq_take.mp (List.takeWhile_prefix _)).symm

/-- The bytes of an array with a null byte in it are a string, and what is behind its end. -/
theorem exists_cut (s t : List UInt8) : ∃ behind, s ++ 0 :: t = cut s ++ 0 :: behind := by
  induction s with
  | nil => exact ⟨t, rfl⟩
  | cons c s ih =>
    by_cases hc : c = 0
    · exact ⟨s ++ 0 :: t, by simp [cut, hc]⟩
    · obtain ⟨behind, hbehind⟩ := ih
      exact ⟨behind, by simpa [cut, hc] using hbehind⟩

theorem length_cut_le (s : List UInt8) : (cut s).length ≤ s.length :=
  (List.takeWhile_prefix _).length_le

/-- Nothing behind a null byte is read. -/
theorem cut_append_of_mem {s : List UInt8} (h : 0 ∈ s) (t : List UInt8) : cut (s ++ t) = cut s := by
  induction s with
  | nil => simp at h
  | cons c s ih =>
    by_cases hc : c = 0
    · simp [cut, hc]
    · have hs : 0 ∈ s := by simpa [Ne.symm hc] using h
      simpa [cut, hc] using ih hs

/-- A string in memory. -/
theorem cut_append_zero {s : CString} (h : NoNul s) (t : List UInt8) : cut (s ++ 0 :: t) = s := by
  have hall : ∀ c ∈ s, decide (c ≠ 0) = true := by
    intro c hc
    exact decide_eq_true (h c hc)
  rw [cut, List.takeWhile_append_of_pos hall]
  simp

/-- Null bytes behind the bytes of a string do not change what is read. -/
theorem cut_append_zeros (s : List UInt8) (n : Nat) : cut (s ++ List.replicate n 0) = cut s := by
  induction s with
  | nil => cases n <;> simp [cut, List.replicate_succ]
  | cons c s ih =>
    by_cases hc : c = 0
    · simp [cut, hc]
    · simpa [cut, hc] using ih

end CString

end Lib
