import Spider.Sched.Runs

/-!
# Due times

What `sched_settime` makes of a previous due time, an interval and the clock.
`spd_samp2tv` takes its milliseconds as an `unsigned int`, so that an interval
below zero is read as one of about fifty days.
-/

namespace Spider.Sched

open Lib Times

/-- The due time that `sched_settime` gives an event that was due at `prev`, or a new one. -/
def nextDue (prev : Option Clock) (when : Int32) (now : Clock) : Timeval :=
  (schedSettime ((prev.map Subtype.val).getD ⟨0, 0⟩) when now).2

/-- Where an interval starts, in microseconds. -/
def intervalBase (prev : Option Clock) (now : Clock) : Int :=
  match prev with
  | some tv => tv.val.us
  | none => now.val.us

/-- The event is due at the end of its interval, or now when that has passed. An event that is new
    or was due within the millisecond, with an interval below zero, is due now. -/
structure DueRight (prev : Option Clock) (when : Int32) (now : Clock) : Prop where
  normal : (nextDue prev when now).Normal
  later : (nextDue prev when now).us =
    max now.val.us (intervalBase prev now + when.toInt * 1000)
  negative : when < 0 → intervalBase prev now ≤ now.val.us + 1000 → nextDue prev when now = now

/-- The interval as `spd_samp2tv` reads it: 2^32 is added to one below zero. -/
def intervalRead (when : Int32) : Int :=
  if when < 0 then when.toInt + 2 ^ 32 else when.toInt

/-- The interval is positive, or has passed even as it is read. A previous due time of 0 stands for
    a new event, which is right only at one reading of the clock for either sign. -/
def IntervalKept (prev : Option Clock) (when : Int32) (now : Clock) : Prop :=
  if intervalBase prev now = 0 ∧ prev ≠ none then
    if when < 0 then now.val.us = -2 ^ 32 * 1000 else now.val.us = 0
  else 0 < when ∨ intervalBase prev now + intervalRead when * 1000 ≤ now.val.us

instance (prev : Option Clock) (when : Int32) (now : Clock) :
    Decidable (IntervalKept prev when now) := by
  unfold IntervalKept
  infer_instance

section Due

variable {when : Int32} {now : Clock}

theorem toInt_pos_iff : 0 < when ↔ 0 < when.toInt := Int32.lt_iff_toInt_lt

theorem toInt_neg_iff : when < 0 ↔ when.toInt < 0 := Int32.lt_iff_toInt_lt

theorem intervalRead_eq (when : Int32) : (when.toUInt32.toNat : Int) = intervalRead when := by
  unfold intervalRead
  split
  next hneg => exact CInt.toNat_toUInt32_of_neg (toInt_neg_iff.mp hneg)
  next hneg => exact CInt.toNat_toUInt32 (Int.not_lt.mp (mt toInt_neg_iff.mpr hneg))

theorem intervalRead_pos (h : when ≠ 0) : 0 < intervalRead when := by
  have hmin := Int32.le_toInt when
  have hne : when.toInt ≠ 0 := fun heq => h (Int32.toInt_inj.mp heq)
  unfold intervalRead
  split
  · omega
  next hneg =>
    have hge := mt toInt_neg_iff.mpr hneg
    omega

theorem spdSamp2tv_us (n : UInt32) : (spdSamp2tv n 1000).us = n.toNat * 1000 := by
  have hmul : ((n % 1000) * (1000000 / 1000)).toNat = n.toNat % 1000 * 1000 := by
    rw [UInt32.toNat_mul]
    show n.toNat % 1000 * 1000 % 2 ^ 32 = _
    exact Nat.mod_eq_of_lt (by omega)
  show ((n / 1000).toNat : Int) * 1000000 + ((n % 1000) * (1000000 / 1000)).toNat = _
  rw [hmul]
  show ((n.toNat / 1000 : Nat) : Int) * 1000000 + _ = _
  omega

theorem us_eq_zero_iff {tv : Timeval} (h : tv.Normal) : tv.us = 0 ↔ tv = ⟨0, 0⟩ := by
  constructor
  · intro hus
    exact eq_ofUs h hus
  · rintro rfl
    rfl

/-- The base and the interval that `sched_settime` adds, with no event between the two. -/
theorem schedSettime_us {tv : Timeval} (htv : tv.Normal) (when : Int32) (now : Clock) :
    (schedSettime tv when now).2.us =
      max now.val.us ((if tv.us = 0 then now.val.us else tv.us) + intervalRead when * 1000) := by
  let start := if spdTvzero tv then now.val else tv
  have hstart : start.Normal := normal_ite _ now.property htv
  have hstartUs : start.us = if tv.us = 0 then now.val.us else tv.us := by
    by_cases hzero : tv.us = 0
    · obtain rfl := (us_eq_zero_iff htv).mp hzero
      rfl
    · have hnot : ¬ spdTvzero tv = true := by
        intro h
        apply hzero
        simp only [spdTvzero, Bool.and_eq_true, decide_eq_true_eq] at h
        rw [Timeval.us, h.1, h.2]
        rfl
      rw [if_neg hzero]
      exact congrArg Timeval.us (if_neg hnot)
  let next := spdTvadd start (spdSamp2tv when.toUInt32 1000)
  have hadd : next.Normal := spdTvadd_normal hstart (spdSamp2tv_normal when.toUInt32)
  have haddUs : next.us = start.us + intervalRead when * 1000 := by
    rw [spdTvadd_us hstart (spdSamp2tv_normal when.toUInt32), spdSamp2tv_us, intervalRead_eq]
  have hcmp : spdTvcmp next now < 0 ↔ next.us < now.val.us := by
    rw [spdTvcmp_sign hadd now.property, Int.sign_neg_iff]
    omega
  rw [← hstartUs, ← haddUs]
  show (if spdTvcmp next now < 0 then now.val else next).us = _
  by_cases hpast : next.us < now.val.us
  · rw [if_pos (hcmp.mpr hpast)]
    exact (max_eq_left (Int.le_of_lt hpast)).symm
  · rw [if_neg (mt hcmp.mp hpast)]
    exact (max_eq_right (Int.not_lt.mp hpast)).symm

theorem nextDue_normal (prev : Option Clock) (when : Int32) (now : Clock) :
    (nextDue prev when now).Normal := by
  apply schedSettime_normal ?_ now.property
  cases prev with
  | none => exact timeval_zero_normal
  | some tv => exact tv.property

theorem nextDue_us (prev : Option Clock) (when : Int32) (now : Clock) :
    (nextDue prev when now).us = max now.val.us
      ((if intervalBase prev now = 0 ∧ prev ≠ none then now.val.us else intervalBase prev now) +
        intervalRead when * 1000) := by
  cases prev with
  | none =>
    rw [if_neg fun h => h.2 rfl]
    exact schedSettime_us timeval_zero_normal when now
  | some tv =>
    have hiff : (intervalBase (some tv) now = 0 ∧ some tv ≠ none) ↔ tv.val.us = 0 :=
      ⟨fun h => h.1, fun h => ⟨h, nofun⟩⟩
    simp only [hiff]
    exact schedSettime_us tv.property when now

/-- The rest of what is right follows from the later of the two times. -/
theorem dueRight_iff (prev : Option Clock) (when : Int32) (now : Clock) :
    DueRight prev when now ↔ (nextDue prev when now).us =
      max now.val.us (intervalBase prev now + when.toInt * 1000) := by
  refine ⟨DueRight.later, fun h => ⟨nextDue_normal prev when now, h, ?_⟩⟩
  intro hneg hbase
  have hlt := toInt_neg_iff.mp hneg
  have hus : (nextDue prev when now).us = now.val.us := by omega
  rw [eq_ofUs (nextDue_normal prev when now) hus]
  exact (eq_ofUs now.property rfl).symm

end Due

/-- `sched_settime` is right about an interval above zero, and about one below zero that has passed
    even with the 2^32 milliseconds that it gains. -/
theorem schedSettime_right_iff (prev : Option Clock) (when : Int32) (now : Clock)
    (h : when ≠ 0) : DueRight prev when now ↔ IntervalKept prev when now := by
  have hread := intervalRead_pos h
  have hmin := Int32.le_toInt when
  have hne : when.toInt ≠ 0 := fun heq => h (Int32.toInt_inj.mp heq)
  rw [dueRight_iff, nextDue_us, IntervalKept, toInt_pos_iff]
  by_cases hneg : when < 0
  · have hlt := toInt_neg_iff.mp hneg
    have hdef : intervalRead when = when.toInt + 2 ^ 32 := if_pos hneg
    rw [if_pos hneg]
    by_cases hzero : intervalBase prev now = 0 ∧ prev ≠ none
    · rw [if_pos hzero, if_pos hzero, hzero.1]
      omega
    · rw [if_neg hzero, if_neg hzero]
      omega
  · have hge := mt toInt_neg_iff.mpr hneg
    have hdef : intervalRead when = when.toInt := if_neg hneg
    rw [if_neg hneg]
    by_cases hzero : intervalBase prev now = 0 ∧ prev ≠ none
    · rw [if_pos hzero, if_pos hzero, hzero.1]
      omega
    · rw [if_neg hzero, if_neg hzero]
      omega

theorem schedSettime_right_again :
    DueRight (some (clockAt 10)) 20 (clockAt 11) :=
  (schedSettime_right_iff (some (clockAt 10)) 20 (clockAt 11) (by decide)).mpr (by decide)

/-- A new event with the interval -1 is due in about fifty days. -/
theorem schedSettime_negative :
    ¬ ∀ (prev : Option Clock) (when : Int32) (now : Clock), when ≠ 0 → DueRight prev when now := by
  intro hall
  have hdue := (hall none (-1) (clockAt 0) (by decide)).later
  exact absurd hdue (by decide)

end Spider.Sched
