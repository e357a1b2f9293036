import Mathlib.Tactic.Common

/-!
# Times

`struct timeval` and the functions of `times.h` and `utils.c` on it. The fields
are mathematical integers: seconds and microseconds since the epoch are far from
the ends of their types.
-/

namespace Spider.Times

/-- `struct timeval`. -/
structure Timeval where
  sec : Int
  usec : Int
  deriving DecidableEq, Repr

/-- `tvfix` (`utils.c:108-120`). -/
def tvfix (a : Timeval) : Timeval :=
  if a.usec ≥ 1000000 then ⟨a.sec + a.usec.tdiv 1000000, a.usec.tmod 1000000⟩
  else if a.usec < 0 then { a with usec := 0 }
  else a

/-- `spd_tvadd` (`utils.c:122-134`). -/
def spdTvadd (a b : Timeval) : Timeval :=
  let a := tvfix a
  let b := tvfix b
  let a : Timeval := ⟨a.sec + b.sec, a.usec + b.usec⟩
  if a.usec ≥ 1000000 then ⟨a.sec + 1, a.usec - 1000000⟩ else a

/-- `spd_tvsub` (`utils.c:136-148`). -/
def spdTvsub (a b : Timeval) : Timeval :=
  let a := tvfix a
  let b := tvfix b
  let a : Timeval := ⟨a.sec - b.sec, a.usec - b.usec⟩
  if a.usec < 0 then ⟨a.sec - 1, a.usec + 1000000⟩ else a

/-- `spd_tvzero` (`times.h:79-82`). -/
def spdTvzero (t : Timeval) : Bool := t.sec = 0 && t.usec = 0

/-- `spd_tvcmp` (`times.h:100-112`). -/
def spdTvcmp (a b : Timeval) : Int :=
  if a.sec < b.sec then -1
  else if a.sec > b.sec then 1
  else if a.usec < b.usec then -1
  else if a.usec > b.usec then 1
  else 0

/-- `spd_tvdiff_sec` (`times.h:36-44`). -/
def spdTvdiffSec (stop start : Timeval) : Int :=
  let result := stop.sec - start.sec
  if result > 0 ∧ stop.usec < start.usec then result - 1
  else if result < 0 ∧ stop.usec > start.usec then result + 1
  else result

/-- `spd_tvdiff_us` (`times.h:52-56`). -/
def spdTvdiffUs (stop start : Timeval) : Int :=
  (stop.sec - start.sec) * 1000000 + stop.usec - start.usec

/-- `spd_tvdiff_ms` (`times.h:65-74`). -/
def spdTvdiffMs (stop start : Timeval) : Int :=
  (stop.sec - start.sec) * 1000 + ((1000000 + stop.usec - start.usec).tdiv 1000 - 1000)

/-- `spd_samp2tv` (`times.h:137-140`). -/
def spdSamp2tv (nsamp rate : UInt32) : Timeval :=
  ⟨(nsamp / rate).toNat, ((nsamp % rate) * (1000000 / rate)).toNat⟩

/-- Microseconds since the epoch. -/
def Timeval.us (t : Timeval) : Int := t.sec * 1000000 + t.usec

/-- What `gettimeofday` gives, and what the arithmetic keeps. -/
structure Timeval.Normal (t : Timeval) : Prop where
  nonneg : 0 ≤ t.usec
  lt : t.usec < 1000000

section Normal

variable {a b : Timeval}

theorem timeval_zero_normal : Timeval.Normal ⟨0, 0⟩ := ⟨by decide, by decide⟩

theorem tvfix_eq (h : a.Normal) : tvfix a = a := by
  have hlt := h.lt
  have hnonneg := h.nonneg
  unfold tvfix
  rw [if_neg (by omega), if_neg (by omega)]

theorem spdTvadd_us (ha : a.Normal) (hb : b.Normal) : (spdTvadd a b).us = a.us + b.us := by
  unfold spdTvadd
  rw [tvfix_eq ha, tvfix_eq hb]
  dsimp only
  split
  · simp only [Timeval.us]
    omega
  · simp only [Timeval.us]
    omega

theorem spdTvadd_normal (ha : a.Normal) (hb : b.Normal) : (spdTvadd a b).Normal := by
  have ha1 := ha.lt
  have ha0 := ha.nonneg
  have hb1 := hb.lt
  have hb0 := hb.nonneg
  unfold spdTvadd
  rw [tvfix_eq ha, tvfix_eq hb]
  dsimp only
  split
  next => exact ⟨by dsimp only; omega, by dsimp only; omega⟩
  next => exact ⟨by dsimp only; omega, by dsimp only; omega⟩

/-- The order of times is that of their microseconds. -/
theorem spdTvcmp_lt (ha : a.Normal) (hb : b.Normal) : spdTvcmp a b = -1 ↔ a.us < b.us := by
  have ha1 := ha.lt
  have ha0 := ha.nonneg
  have hb1 := hb.lt
  have hb0 := hb.nonneg
  unfold spdTvcmp Timeval.us
  split
  · omega
  · split
    · omega
    · split
      · omega
      · split
        · omega
        · omega

/-- Milliseconds as a time. -/
theorem spdSamp2tv_normal (n : UInt32) : (spdSamp2tv n 1000).Normal := by
  have hmod : (n % 1000).toNat < 1000 := by
    rw [UInt32.toNat_mod]
    exact Nat.mod_lt _ (by decide)
  have hmul : ((n % 1000) * (1000000 / 1000)).toNat = (n % 1000).toNat * 1000 := by
    rw [UInt32.toNat_mul]
    show (n % 1000).toNat * 1000 % 2 ^ 32 = _
    exact Nat.mod_eq_of_lt (by omega)
  constructor
  · exact Int.natCast_nonneg _
  · show (((n % 1000) * (1000000 / 1000)).toNat : Int) < 1000000
    rw [hmul]
    omega

end Normal

/-! ## The arithmetic in microseconds

A normal time is one number of microseconds written in seconds and microseconds.
-/

/-- The normal time of a number of microseconds. -/
def Timeval.ofUs (n : Int) : Timeval := ⟨n / 1000000, n % 1000000⟩

theorem ofUs_normal (n : Int) : (Timeval.ofUs n).Normal :=
  ⟨Int.emod_nonneg n (by decide), Int.emod_lt_of_pos n (by decide)⟩

theorem ofUs_us (n : Int) : (Timeval.ofUs n).us = n := by
  show n / 1000000 * 1000000 + n % 1000000 = n
  omega

theorem eq_ofUs {a : Timeval} {n : Int} (h : a.Normal) (hn : a.us = n) : a = .ofUs n := by
  obtain ⟨sec, usec⟩ := a
  have hlt : usec < 1000000 := h.lt
  have hnonneg : 0 ≤ usec := h.nonneg
  have hus : sec * 1000000 + usec = n := hn
  have hsec : sec = n / 1000000 := by omega
  have husec : usec = n % 1000000 := by omega
  rw [Timeval.ofUs, ← hsec, ← husec]

/-- `tvfix` carries the microseconds over a second, and loses none of them. -/
theorem tvfix_ofUs {a : Timeval} (h : 0 ≤ a.usec) : tvfix a = .ofUs a.us := by
  by_cases hlarge : a.usec ≥ 1000000
  · have hfix : tvfix a = ⟨a.sec + a.usec / 1000000, a.usec % 1000000⟩ := by
      rw [tvfix, if_pos hlarge, Int.tdiv_eq_ediv_of_nonneg h, Int.tmod_eq_emod_of_nonneg h]
    rw [hfix]
    refine eq_ofUs ⟨?_, ?_⟩ ?_
    · exact Int.emod_nonneg _ (by decide)
    · exact Int.emod_lt_of_pos _ (by decide)
    · show (a.sec + a.usec / 1000000) * 1000000 + a.usec % 1000000 = a.sec * 1000000 + a.usec
      omega
  · have hnormal : a.Normal := ⟨h, by omega⟩
    rw [tvfix_eq hnormal]
    exact eq_ofUs hnormal rfl

section Exact

variable {a b : Timeval}

theorem tvfix_normal (h : 0 ≤ a.usec) : (tvfix a).Normal := by
  rw [tvfix_ofUs h]
  exact ofUs_normal a.us

theorem tvfix_us (h : 0 ≤ a.usec) : (tvfix a).us = a.us := by
  rw [tvfix_ofUs h, ofUs_us]

/-- `spd_tvadd` starts by normalising. -/
theorem spdTvadd_tvfix (ha : 0 ≤ a.usec) (hb : 0 ≤ b.usec) :
    spdTvadd (tvfix a) (tvfix b) = spdTvadd a b := by
  unfold spdTvadd
  rw [tvfix_eq (tvfix_normal ha), tvfix_eq (tvfix_normal hb)]

theorem spdTvadd_ofUs (ha : 0 ≤ a.usec) (hb : 0 ≤ b.usec) :
    spdTvadd a b = .ofUs (a.us + b.us) := by
  have hnormal := spdTvadd_normal (tvfix_normal ha) (tvfix_normal hb)
  have hus := spdTvadd_us (tvfix_normal ha) (tvfix_normal hb)
  rw [spdTvadd_tvfix ha hb] at hnormal hus
  rw [tvfix_us ha, tvfix_us hb] at hus
  exact eq_ofUs hnormal hus

theorem spdTvsub_ofUs (ha : 0 ≤ a.usec) (hb : 0 ≤ b.usec) :
    spdTvsub a b = .ofUs (a.us - b.us) := by
  have ha1 := (tvfix_normal ha).lt
  have ha0 := (tvfix_normal ha).nonneg
  have hb1 := (tvfix_normal hb).lt
  have hb0 := (tvfix_normal hb).nonneg
  have hau : (tvfix a).sec * 1000000 + (tvfix a).usec = a.us := tvfix_us ha
  have hbu : (tvfix b).sec * 1000000 + (tvfix b).usec = b.us := tvfix_us hb
  unfold spdTvsub
  dsimp only
  -- a borrow from the seconds, or none
  split
  next hborrow =>
    refine eq_ofUs ⟨?_, ?_⟩ ?_
    · show 0 ≤ (tvfix a).usec - (tvfix b).usec + 1000000
      omega
    · show (tvfix a).usec - (tvfix b).usec + 1000000 < 1000000
      omega
    · simp only [Timeval.us] at hau hbu ⊢
      omega
  next hborrow =>
    refine eq_ofUs ⟨?_, ?_⟩ ?_
    · show 0 ≤ (tvfix a).usec - (tvfix b).usec
      omega
    · show (tvfix a).usec - (tvfix b).usec < 1000000
      omega
    · simp only [Timeval.us] at hau hbu ⊢
      omega

theorem spdTvsub_spdTvadd (ha : 0 ≤ a.usec) (hb : 0 ≤ b.usec) :
    spdTvsub (spdTvadd a b) b = tvfix a := by
  have hadd : 0 ≤ (spdTvadd a b).usec := by
    rw [spdTvadd_ofUs ha hb]
    exact (ofUs_normal _).nonneg
  have hus : (spdTvadd a b).us - b.us = a.us := by
    rw [spdTvadd_ofUs ha hb, ofUs_us]
    omega
  rw [spdTvsub_ofUs hadd hb, hus, tvfix_ofUs ha]

theorem spdTvcmp_sign (ha : a.Normal) (hb : b.Normal) :
    spdTvcmp a b = (a.us - b.us).sign := by
  have ha1 := ha.lt
  have ha0 := ha.nonneg
  have hb1 := hb.lt
  have hb0 := hb.nonneg
  unfold spdTvcmp Timeval.us
  split
  · exact (Int.sign_eq_neg_one_of_neg (by omega)).symm
  · split
    · exact (Int.sign_eq_one_of_pos (by omega)).symm
    · split
      · exact (Int.sign_eq_neg_one_of_neg (by omega)).symm
      · split
        · exact (Int.sign_eq_one_of_pos (by omega)).symm
        · exact (Int.sign_eq_zero_iff_zero.2 (by omega)).symm

theorem spdTvdiffUs_eq (a b : Timeval) : spdTvdiffUs a b = a.us - b.us := by
  unfold spdTvdiffUs Timeval.us
  omega

/-- The million added keeps the dividend positive, where C rounds down. -/
theorem spdTvdiffMs_eq (ha : a.Normal) (hb : b.Normal) :
    spdTvdiffMs a b = (a.us - b.us).fdiv 1000 := by
  have ha0 := ha.nonneg
  have hb1 := hb.lt
  have hpos : 0 ≤ 1000000 + a.usec - b.usec := by omega
  rw [spdTvdiffMs, Int.tdiv_eq_ediv_of_nonneg hpos, Int.fdiv_eq_ediv_of_nonneg _ (by decide)]
  unfold Timeval.us
  omega

theorem spdTvdiffSec_eq (ha : a.Normal) (hb : b.Normal) :
    spdTvdiffSec a b = (a.us - b.us).tdiv 1000000 := by
  have ha1 := ha.lt
  have ha0 := ha.nonneg
  have hb1 := hb.lt
  have hb0 := hb.nonneg
  have hdiff : a.us - b.us = (a.sec - b.sec) * 1000000 + (a.usec - b.usec) := by
    unfold Timeval.us
    omega
  unfold spdTvdiffSec
  dsimp only
  -- C divides the absolute values, so the sign of the difference decides the rounding
  rcases Int.le_total 0 (a.us - b.us) with hsign | hsign
  · rw [Int.tdiv_eq_ediv_of_nonneg hsign]
    split
    · omega
    · split
      · omega
      · omega
  · have hneg : (a.us - b.us).tdiv 1000000 = -((b.us - a.us) / 1000000) := by
      rw [← Int.tdiv_eq_ediv_of_nonneg (by omega : 0 ≤ b.us - a.us), ← Int.neg_tdiv]
      congr 1
      omega
    rw [hneg]
    split
    · omega
    · split
      · omega
      · omega

end Exact

/-- The time arithmetic is that of the microseconds. -/
theorem time_arithmetic_exact (a b : Timeval) :
    (0 ≤ a.usec → 0 ≤ b.usec →
      (spdTvadd a b).Normal ∧ (spdTvadd a b).us = a.us + b.us ∧
      (spdTvsub a b).Normal ∧ (spdTvsub a b).us = a.us - b.us ∧
      spdTvsub (spdTvadd a b) b = .ofUs a.us) ∧
    (a.Normal → b.Normal →
      spdTvcmp a b = (a.us - b.us).sign ∧ spdTvdiffUs a b = a.us - b.us ∧
      spdTvdiffMs a b = (a.us - b.us).fdiv 1000 ∧
      spdTvdiffSec a b = (a.us - b.us).tdiv 1000000) := by
  constructor
  · intro ha hb
    refine ⟨?_, ?_, ?_, ?_, ?_⟩
    · rw [spdTvadd_ofUs ha hb]
      exact ofUs_normal _
    · rw [spdTvadd_ofUs ha hb, ofUs_us]
    · rw [spdTvsub_ofUs ha hb]
      exact ofUs_normal _
    · rw [spdTvsub_ofUs ha hb, ofUs_us]
    · rw [spdTvsub_spdTvadd ha hb, tvfix_ofUs ha]
  · intro ha hb
    exact ⟨spdTvcmp_sign ha hb, spdTvdiffUs_eq a b, spdTvdiffMs_eq ha hb, spdTvdiffSec_eq ha hb⟩

theorem time_arithmetic_one_and_a_half :
    spdTvsub (spdTvadd ⟨1, 2500000⟩ ⟨0, 900000⟩) ⟨0, 900000⟩ = ⟨3, 500000⟩ ∧
    spdTvdiffMs ⟨1, 0⟩ ⟨2, 500⟩ = -1001 ∧ spdTvdiffSec ⟨1, 0⟩ ⟨2, 500⟩ = -1 :=
  ⟨((time_arithmetic_exact ⟨1, 2500000⟩ ⟨0, 900000⟩).1 (by decide) (by decide)).2.2.2.2.trans
      (by decide),
    ((time_arithmetic_exact ⟨1, 0⟩ ⟨2, 500⟩).2
      ⟨by decide, by decide⟩ ⟨by decide, by decide⟩).2.2.1.trans (by decide),
    ((time_arithmetic_exact ⟨1, 0⟩ ⟨2, 500⟩).2
      ⟨by decide, by decide⟩ ⟨by decide, by decide⟩).2.2.2.trans (by decide)⟩

end Spider.Times
