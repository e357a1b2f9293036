import Spider.DynamicString

/-!
# Dynamic strings without new space

With a `max_len` below 0, `spd_str_set` and `spd_str_append` use the space there
is: what does not fit is cut off. `used` is computed from the length of the whole
text, and the text that fills the buffer to its last byte passes for one that fits.
-/

namespace Spider.DynamicString

open Lib Outcome CString

/-- A dynamic string, and the characters it should hold. -/
structure Held where
  str : SpdStr
  content : CString
  deriving DecidableEq, Repr

/-- A call; the limit `max_len` is -1. -/
inductive Put where
  | set (text : CString)
  | append (text : CString)
  deriving DecidableEq, Repr

/-- The string after a call. -/
def putStep (env : Env) (fuel : Nat) (d : Held) : Put → Outcome Held
  | .set text => do
    let (_, s) ← spdStrSet env fuel d.str (-1) text
    .ok ⟨s, text.take (d.str.len - 1)⟩
  | .append text => do
    let (_, s) ← spdStrAppend env fuel d.str (-1) text
    .ok ⟨s, (d.content ++ text).take (d.str.len - 1)⟩

/-- The string holds what it should, `used` is its length, and the null byte is within the
    capacity. -/
structure Holds (len : Nat) (d : Held) : Prop where
  capacity : d.str.len = len
  content : cut d.str.buf = d.content
  used : d.str.used = d.content.length
  room : d.str.used < len

/-- Behind `k` characters the text fills the buffer to its last byte, is too long to be counted
    in an `int`, or has a null byte in the part that is kept. -/
def Misses (len k : Nat) (text : CString) : Prop :=
  k + text.length = len ∨ intMax ≤ (k + text.length : Nat) ∨ 0 ∈ text.take (len - 1 - k)

@[inherit_doc Misses]
def PutMisses (d : Held) : Put → Prop
  | .set text => Misses d.str.len 0 text
  | .append text => Misses d.str.len d.content.length text

instance (len k : Nat) (text : CString) : Decidable (Misses len k text) :=
  inferInstanceAs (Decidable (_ ∨ _ ∨ _))

instance : (d : Held) → (op : Put) → Decidable (PutMisses d op)
  | d, .set text => inferInstanceAs (Decidable (Misses d.str.len 0 text))
  | d, .append text => inferInstanceAs (Decidable (Misses d.str.len d.content.length text))

/-- The string holds what it should, and `used` is an `int`. -/
structure Bounded (len : Nat) (d : Held) : Prop extends Holds len d where
  storage : len ≤ d.str.buf.length
  short : (d.str.used : Int) < intMax

section

variable {env : Env} {fuel len k : Nat} {d : Held} {s : SpdStr} {content text : CString}
  {r : Int × SpdStr}

/-- No space is made: there is one round. -/
theorem helperLoop_bounded (env : Env) (fuel : Nat) (hk : k < s.len)
    (hlen : s.len ≤ s.buf.length) (hsize : s.len < 2 ^ 64) :
    helperLoop env k text (fuel + 1) s (-1) =
      if intMax ≤ (k + text.length : Nat) then .fault
      else .ok (text.length, { s with
        used := if s.len < k + text.length then s.len - 1 else k + text.length
        buf := s.buf.take k ++ (text.take (s.len - 1 - k) ++ [0]) ++
          s.buf.drop (k + (text.take (s.len - 1 - k) ++ [0]).length) }) := by
  have hroom : sizeT ((s.len : Int) - k) = s.len - k := by
    have hsub : (s.len : Int) - k = ((s.len - k : Nat) : Int) := by omega
    rw [hsub, sizeT_natCast (by omega)]
  have hcut : s.len - k - 1 = s.len - 1 - k := by omega
  have hwrite := @writeAt_eq s.buf k (text.take (s.len - 1 - k) ++ [0]) (by
    rw [List.length_append, List.length_take, List.length_singleton]
    omega)
  have hused : (text.length : Int) + k = ((k + text.length : Nat) : Int) := by omega
  have hlimit : (if (-1 : Int) < 0 then (s.len : Int) else -1) = s.len := if_pos (by decide)
  rw [helperLoop, hroom, vsnprintf, if_neg (by omega), hcut, hwrite, ok_bind, ok_bind]
  simp only [hused, hlimit]
  by_cases hint : intMax ≤ (k + text.length : Nat)
  · rw [if_pos (by omega), if_pos hint]
  · have hshort : k + text.length < 2 ^ 64 := by
      rw [intMax] at hint
      omega
    rw [if_neg (by omega), if_neg, if_neg hint, sizeT_natCast hshort]
    rw [sizeT_natCast hsize]
    omega

/-- What is kept of the text behind `content`. -/
theorem take_behind (hk : k = content.length) (hroom : k < s.len) :
    (content ++ text).take (s.len - 1) = content ++ text.take (s.len - 1 - k) := by
  rw [List.take_append, List.take_of_length_le (by omega), ← hk]

/-- What a call puts behind `content`. -/
theorem helperLoop_holds (hcontent : s.buf.take k = content) (hk : k = content.length)
    (hnul : NoNul content) (hroom : k < s.len) (hlen : s.len ≤ s.buf.length)
    (hsize : s.len < 2 ^ 64) (hfits : ¬ Misses s.len k text) :
    ∃ s', helperLoop env k text (fuel + 1) s (-1) = .ok (text.length, s') ∧
      Bounded s.len ⟨s', (content ++ text).take (s.len - 1)⟩ := by
  obtain ⟨hfull, hint, hkept⟩ : k + text.length ≠ s.len ∧ ¬ intMax ≤ (k + text.length : Nat) ∧
      0 ∉ text.take (s.len - 1 - k) := by simpa only [Misses, not_or] using hfits
  have htake := @take_behind _ _ _ text hk hroom
  have hkept' : NoNul (content ++ text.take (s.len - 1 - k)) := by
    intro c hc hzero
    rcases List.mem_append.mp hc with hc | hc
    · exact hnul c hc hzero
    · exact hkept (hzero ▸ hc)
  rw [helperLoop_bounded env fuel hroom hlen hsize, if_neg hint]
  refine ⟨_, rfl, ⟨rfl, ?_, ?_, ?_⟩, ?_, ?_⟩
  · simp only [htake, hcontent]
    rw [← List.append_assoc, List.append_assoc]
    exact cut_append_zero hkept' _
  · simp only [htake, List.length_append, List.length_take, ← hk]
    split <;> omega
  · show (if s.len < k + text.length then s.len - 1 else k + text.length) < s.len
    split <;> omega
  · simp only [List.length_append, List.length_take, List.length_drop, List.length_singleton]
    omega
  · show ((if s.len < k + text.length then s.len - 1 else k + text.length : Nat) : Int) < intMax
    split <;> omega

/-- A text that fills the buffer is counted to the end, and a null byte ends the string. -/
theorem helperLoop_misses_bounded (hk : k = content.length) (hroom : k < s.len)
    (hlen : s.len ≤ s.buf.length) (hsize : s.len < 2 ^ 64) (hmiss : Misses s.len k text)
    (hr : helperLoop env k text (fuel + 1) s (-1) = .ok r) :
    ¬ Holds s.len ⟨r.2, (content ++ text).take (s.len - 1)⟩ := by
  have htake := @take_behind _ _ _ text hk hroom
  rw [helperLoop_bounded env fuel hroom hlen hsize] at hr
  by_cases hint : intMax ≤ (k + text.length : Nat)
  · rw [if_pos hint] at hr
    cases hr
  · rw [if_neg hint] at hr
    obtain rfl := Outcome.ok.inj hr
    intro hholds
    rcases hmiss with hfull | hint' | hkept
    · have hlast := hholds.room
      simp only [hfull, Nat.lt_irrefl, if_false] at hlast
    · exact hint hint'
    · have hcontent := hholds.content
      simp only [htake] at hcontent
      exact noNul_cut _ 0 (hcontent ▸ List.mem_append_right content hkept) rfl

/-! ## Runs -/

/-- The string is read from the buffer. -/
theorem Holds.take_eq (h : Holds len d) : d.str.buf.take d.content.length = d.content :=
  h.content ▸ take_length_cut d.str.buf

theorem Bounded.offset_eq (h : Bounded len d) :
    (if true = true ∧ d.str.len ≠ 0 then Int.bmod d.str.used (2 ^ 32) else 0) =
      (d.content.length : Int) := by
  have hroom := h.room
  have hshort := h.short
  rw [intMax] at hshort
  rw [if_pos ⟨rfl, by rw [h.capacity]; omega⟩, h.used] at *
  exact Int.bmod_eq_of_le (by omega) (by omega)

theorem putStep_good (hsize : len < 2 ^ 64) (op : Put) (h : Bounded len d)
    (hgood : ¬ PutMisses d op) :
    ∃ d', putStep env (fuel + 1) d op = .ok d' ∧ Bounded len d' := by
  obtain rfl := h.capacity
  cases op with
  | set text =>
    have hempty : d.str.buf.take 0 = [] := rfl
    obtain ⟨s', hs', hinv⟩ := helperLoop_holds hempty rfl nofun (Nat.zero_lt_of_lt h.room)
      h.storage hsize hgood
    have hset : spdStrSet env (fuel + 1) d.str (-1) text = .ok (text.length, s') := hs'
    rw [List.nil_append] at hinv
    exact ⟨_, by rw [putStep, hset, ok_bind], hinv⟩
  | append text =>
    have hnul : NoNul d.content := h.content ▸ noNul_cut d.str.buf
    obtain ⟨s', hs', hinv⟩ := helperLoop_holds h.take_eq rfl hnul (h.used ▸ h.room) h.storage
      hsize hgood
    have happend : spdStrAppend env (fuel + 1) d.str (-1) text = .ok (text.length, s') := by
      rw [spdStrAppend, spdStrHelper, h.offset_eq]
      exact hs'
    exact ⟨_, by rw [putStep, happend, ok_bind], hinv⟩

theorem putStep_bad {d' : Held} (hsize : len < 2 ^ 64) (op : Put) (h : Bounded len d)
    (hbad : PutMisses d op) (hstep : putStep env (fuel + 1) d op = .ok d') : ¬ Holds len d' := by
  obtain rfl := h.capacity
  cases op with
  | set text =>
    obtain ⟨r, hr, hd'⟩ := bind_eq_ok.mp hstep
    obtain rfl := Outcome.ok.inj hd'
    have hempty : (0 : Nat) = ([] : CString).length := rfl
    exact helperLoop_misses_bounded hempty (Nat.zero_lt_of_lt h.room) h.storage hsize hbad hr
  | append text =>
    obtain ⟨r, hr, hd'⟩ := bind_eq_ok.mp hstep
    obtain rfl := Outcome.ok.inj hd'
    rw [spdStrAppend, spdStrHelper, h.offset_eq] at hr
    exact helperLoop_misses_bounded rfl (h.used ▸ h.room) h.storage hsize hbad hr

/-- In a run of calls on an empty string the string always holds the characters that fit, and
    `used` is their number, exactly when no text fills the buffer to its last byte, outgrows an
    `int` or brings a null byte. -/
theorem boundedStrings_iff (env : Env) (fuel : Nat) (strTpv : Storage) (behind : List UInt8)
    (hsize : behind.length + 1 < 2 ^ 64) (ops : List Put) :
    Run.Always (putStep env (fuel + 1)) (Holds (behind.length + 1))
        ⟨⟨behind.length + 1, 0, strTpv, 0 :: behind⟩, []⟩ ops ↔
      Run.Legal (putStep env (fuel + 1)) (fun d op => ¬ PutMisses d op)
        ⟨⟨behind.length + 1, 0, strTpv, 0 :: behind⟩, []⟩ ops := by
  have hstart : Bounded (behind.length + 1)
      ⟨⟨behind.length + 1, 0, strTpv, 0 :: behind⟩, []⟩ :=
    ⟨⟨rfl, rfl, rfl, Nat.succ_pos _⟩, Nat.le_refl _, (by decide : (0 : Int) < intMax)⟩
  apply Run.always_iff_inv (fun _ hd => hd.toHolds) (fun d op hd _ => putStep_good hsize op hd)
    (fun d op d' hd _ => putStep_bad hsize op hd) ops hstart
  exact Run.legal_of_forall (fun _ _ => trivial) ops

/-- Three characters fit in four bytes, and of five the first three. -/
theorem boundedStrings_iff_cut :
    Run.Always (putStep roomy 1) (Holds 4) ⟨⟨4, 0, .malloc, [0, 0, 0, 0]⟩, []⟩
      [.set (lit "ab"), .append (lit "c"), .set (lit "abcde")] :=
  (boundedStrings_iff roomy 0 .malloc [0, 0, 0] (by decide) _).mpr (by decide +kernel)

/-- Of four characters three are kept, and four are counted. -/
theorem boundedStrings_full :
    putStep roomy 1 ⟨⟨4, 0, .malloc, [0, 0, 0, 0]⟩, []⟩ (.set (lit "abcd")) =
      .ok ⟨⟨4, 4, .malloc, lit "abc" ++ [0]⟩, lit "abc"⟩ ∧
    ¬ Run.Always (putStep roomy 1) (Holds 4) ⟨⟨4, 0, .malloc, [0, 0, 0, 0]⟩, []⟩
      [.set (lit "abcd")] := by
  have hrun : putStep roomy 1 ⟨⟨4, 0, .malloc, [0, 0, 0, 0]⟩, []⟩ (.set (lit "abcd")) =
      .ok ⟨⟨4, 4, .malloc, lit "abc" ++ [0]⟩, lit "abc"⟩ := by decide +kernel
  refine ⟨hrun, ?_⟩
  rintro ⟨-, d, hd, hholds⟩
  obtain rfl := Outcome.ok.inj (hrun.symm.trans hd)
  exact absurd hholds.room (Nat.lt_irrefl 4)

end

end Spider.DynamicString
