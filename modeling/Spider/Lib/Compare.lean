import Mathlib.Tactic.Common

/-!
# Compare functions

A compare function answers with the sign of an integer. `Consistent` is what an
order asks of three elements; for a function that is odd, that is the absence of
a circle among them. `memcmp` compares bytes, and has no circles.
-/

namespace Lib.Compare

variable {α : Type}

/-- What a consistent order asks of three elements. -/
structure Consistent (cmp : α → α → Int) (a b c : α) : Prop where
  swap : (cmp a b).sign = -(cmp b a).sign
  trans : cmp a b ≤ 0 → cmp b c ≤ 0 → cmp a c ≤ 0
  congr : cmp a b = 0 → (cmp a c).sign = (cmp b c).sign

/-- Three elements none of which is greater than the next, and one is less. -/
structure Circle (cmp : α → α → Int) (a b c : α) : Prop where
  first : cmp a b ≤ 0
  second : cmp b c ≤ 0
  third : cmp c a ≤ 0
  strict : cmp a b < 0 ∨ cmp b c < 0 ∨ cmp c a < 0

variable {cmp : α → α → Int} {a b c : α}

theorem Circle.rotate (h : Circle cmp a b c) : Circle cmp b c a where
  first := h.second
  second := h.third
  third := h.first
  strict := by
    rcases h.strict with h | h | h
    · exact Or.inr (Or.inr h)
    · exact Or.inl h
    · exact Or.inr (Or.inl h)

theorem sign_swap {x y : Int} (h : x.sign = -y.sign) :
    (x < 0 ↔ 0 < y) ∧ (x ≤ 0 ↔ 0 ≤ y) ∧ (0 < x ↔ y < 0) ∧ (0 ≤ x ↔ y ≤ 0) := by
  rcases Int.lt_trichotomy x 0 with hx | hx | hx
  · rw [Int.sign_eq_neg_one_of_neg hx] at h
    have hy : 0 < y := Int.sign_eq_one_iff_pos.mp (by omega)
    omega
  · rw [hx, Int.sign_zero] at h
    have hy : y = 0 := Int.sign_eq_zero_iff_zero.mp (by omega)
    omega
  · rw [Int.sign_eq_one_of_pos hx] at h
    have hy : y < 0 := Int.sign_eq_neg_one_iff_neg.mp (by omega)
    omega

/-- On a set of elements a function that is odd is a consistent order when there is no circle. -/
theorem consistent_iff (s : α → Prop)
    (hswap : ∀ a b, s a → s b → (cmp a b).sign = -(cmp b a).sign) :
    (∀ a b c, s a → s b → s c → Consistent cmp a b c) ↔
      ∀ a b c, s a → s b → s c → ¬ Circle cmp a b c := by
  constructor
  · intro h a b c ha hb hc hcircle
    have hca := sign_swap (hswap c a hc ha)
    have hab := sign_swap (hswap a b ha hb)
    have hbc := sign_swap (hswap b c hb hc)
    have h1 := (h a b c ha hb hc).trans hcircle.first hcircle.second
    have h2 := (h b c a hb hc ha).trans hcircle.second hcircle.third
    have h3 := (h c a b hc ha hb).trans hcircle.third hcircle.first
    have hba := sign_swap (hswap b a hb ha)
    have hcb := sign_swap (hswap c b hc hb)
    have hac := sign_swap (hswap a c ha hc)
    rcases hcircle.strict with hlt | hlt | hlt <;> omega
  · intro h a b c ha hb hc
    have hab := sign_swap (hswap a b ha hb)
    have hbc := sign_swap (hswap b c hb hc)
    have hca := sign_swap (hswap c a hc ha)
    have hac := sign_swap (hswap a c ha hc)
    constructor
    · exact hswap a b ha hb
    · intro hfirst hsecond
      by_contra hgt
      have hback : cmp c a < 0 := by omega
      exact h a b c ha hb hc ⟨hfirst, hsecond, by omega, Or.inr (Or.inr hback)⟩
    · intro heq
      have hle : cmp b a ≤ 0 := by omega
      rcases Int.lt_trichotomy (cmp a c) 0 with hlt | hzero | hgt
      · have hbc' : cmp b c < 0 := by
          by_contra hge
          exact h c b a hc hb ha ⟨by omega, hle, by omega, Or.inr (Or.inr hlt)⟩
        rw [Int.sign_eq_neg_one_of_neg hlt, Int.sign_eq_neg_one_of_neg hbc']
      · have hbc' : cmp b c = 0 := by
          rcases Int.lt_trichotomy (cmp b c) 0 with hlt | heq' | hgt
          · exact absurd ⟨by omega, by omega, by omega, Or.inr (Or.inl hlt)⟩ (h a b c ha hb hc)
          · exact heq'
          · exact absurd ⟨by omega, by omega, by omega, Or.inl (by omega)⟩ (h c b a hc hb ha)
        rw [hzero, hbc']
      · have hbc' : 0 < cmp b c := by
          by_contra hle'
          exact h a b c ha hb hc ⟨by omega, by omega, by omega, Or.inr (Or.inr (by omega))⟩
        rw [Int.sign_eq_one_of_pos hgt, Int.sign_eq_one_of_pos hbc']

/-! ## Bytes -/

/-- `memcmp` of as many bytes as both have: the difference at the first that differ. -/
def memcmp : List UInt8 → List UInt8 → Int
  | c :: s, d :: t => if c = d then memcmp s t else c.toNat - d.toNat
  | _, _ => 0

theorem memcmp_swap (s t : List UInt8) : memcmp s t = -memcmp t s := by
  induction s generalizing t with
  | nil => cases t <;> rfl
  | cons c s ih =>
    cases t with
    | nil => rfl
    | cons d t =>
      rw [memcmp, memcmp]
      by_cases hcd : c = d
      · rw [if_pos hcd, if_pos hcd.symm]
        exact ih t
      · rw [if_neg hcd, if_neg (Ne.symm hcd)]
        omega

@[simp] theorem memcmp_self (s : List UInt8) : memcmp s s = 0 := by
  induction s with
  | nil => rfl
  | cons c s ih => rw [memcmp, if_pos rfl, ih]

theorem memcmp_eq_zero {s t : List UInt8} (hlen : s.length = t.length) :
    memcmp s t = 0 ↔ s = t := by
  constructor
  · intro h
    induction s generalizing t with
    | nil => exact (List.length_eq_zero_iff.mp hlen.symm).symm
    | cons c s ih =>
      cases t with
      | nil => cases hlen
      | cons d t =>
        rw [memcmp] at h
        split at h
        next heq => rw [heq, ih (Nat.succ.inj hlen) h]
        next hne =>
          exact absurd (UInt8.toNat_inj.mp (by omega)) hne
  · rintro rfl
    exact memcmp_self s

theorem memcmp_cons_le {c d : UInt8} {s t : List UInt8} (h : memcmp (c :: s) (d :: t) ≤ 0) :
    c.toNat ≤ d.toNat := by
  rw [memcmp] at h
  split at h
  next heq => exact Nat.le_of_eq (congrArg UInt8.toNat heq)
  next => omega

/-- What is less than a string that is less is less. -/
theorem memcmp_lt_trans {s t u : List UInt8} (hst : memcmp s t < 0) (htu : memcmp t u < 0) :
    memcmp s u < 0 := by
  induction s generalizing t u with
  | nil => exact absurd hst (by simp [memcmp])
  | cons c s ih =>
    cases t with
    | nil => exact absurd hst (by simp [memcmp])
    | cons d t =>
      cases u with
      | nil => exact absurd htu (by simp [memcmp])
      | cons e u =>
        have hcd := memcmp_cons_le (Int.le_of_lt hst)
        have hde := memcmp_cons_le (Int.le_of_lt htu)
        rw [memcmp] at hst htu ⊢
        by_cases hce : c = e
        · have hc : c = d := UInt8.toNat_inj.mp (by rw [hce] at hcd ⊢; omega)
          subst hce hc
          rw [if_pos rfl] at hst htu ⊢
          exact ih hst htu
        · have hne : c.toNat ≠ e.toNat := fun h => hce (UInt8.toNat_inj.mp h)
          rw [if_neg hce]
          omega

/-- Only as many bytes as both have are compared. -/
theorem memcmp_take (s t : List UInt8) {n : Nat} (hn : min s.length t.length ≤ n) :
    memcmp (s.take n) (t.take n) = memcmp s t := by
  induction s generalizing t n with
  | nil => simp [memcmp]
  | cons c s ih =>
    cases t with
    | nil => simp [memcmp]
    | cons d t =>
      cases n with
      | zero => simp at hn
      | succ n =>
        rw [List.take_succ_cons, List.take_succ_cons, memcmp, memcmp, ih t]
        simp only [List.length_cons] at hn
        omega

/-- Strings of bytes of one length do not go round in a circle. -/
theorem memcmp_no_circle {s t u : List UInt8} (hst : s.length = t.length)
    (htu : t.length = u.length) : ¬ Circle memcmp s t u := by
  rintro ⟨h1, h2, h3, h4⟩
  induction s generalizing t u with
  | nil =>
    cases t with
    | nil =>
      cases u with
      | nil => rcases h4 with h4 | h4 | h4 <;> exact absurd h4 (by decide)
      | cons e u => cases htu
    | cons d t => cases hst
  | cons c s ih =>
    cases t with
    | nil => cases hst
    | cons d t =>
      cases u with
      | nil => cases htu
      | cons e u =>
        have hcd := memcmp_cons_le h1
        have hde := memcmp_cons_le h2
        have hec := memcmp_cons_le h3
        have hd : c = d := UInt8.toNat_inj.mp (by omega)
        have he : d = e := UInt8.toNat_inj.mp (by omega)
        subst hd he
        simp only [memcmp, if_true] at h1 h2 h3 h4
        exact ih (Nat.succ.inj hst) (Nat.succ.inj htu) h1 h2 h3 h4

end Lib.Compare
