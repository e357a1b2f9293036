import Spider.Lib.CString
import Spider.Lib.Outcome
import Mathlib.Data.List.DropRight

/-!
# String helpers

The helpers of `strings.c` that the rest of the toolkit builds on, on C strings.
-/

namespace Spider.Strings

open Lib CString

/-- `spd_strlen_zero` (`strings.h:58-61`); null is `none`. -/
def spdStrlenZero : Option CString → Bool
  | none => true
  | some s => s.isEmpty

/-- `snprintf(buf, size, …)` of C99 for the formatted `text`: the string in `buf`, cut to leave
    room for the null byte, and the length of the whole text. -/
def snprintf (size : Nat) (text : CString) : CString × Nat := (text.take (size - 1), text.length)

/-- The loop of `spd_copy_string`: what is in `dst`, and the bytes of it still free. -/
def copyLoop : CString → Nat → CString → CString × Nat
  | c :: src, size + 1, dst => copyLoop src size (dst ++ [c])
  | _, size, dst => (dst, size)

/-- `spd_copy_string` (`strings.c:133-143`): the string in `dst` afterwards. Without room for
    the null byte the last byte copied gives way, and a byte before `dst` when there is none. -/
def spdCopyString (src : CString) (size : Nat) : Outcome CString :=
  let (dst, left) := copyLoop src size []
  if left = 0 then if dst.isEmpty then .fault else .ok dst.dropLast else .ok dst

/-- `spd_skip_blanks` (`strings.c:56-62`). -/
def spdSkipBlanks (s : CString) : CString := s.dropWhile (· < 33)

/-- `spd_trim_blanks` (`strings.c:71-89`). -/
def spdTrimBlanks (s : CString) : CString := s.rdropWhile (· < 33)

/-- `spd_strip` (`strings.c:91-98`). -/
def spdStrip (s : CString) : CString := spdTrimBlanks (spdSkipBlanks s)

/-- `spd_skip_nonblanks` (`strings.c:64-69`): the bytes skipped, and what is left. -/
def spdSkipNonblanks (s : CString) : CString × CString := s.span (32 < ·)

/-- The loops of `spd_str_join`: the words from number `x` on, behind what is in `s` already. -/
def joinLoop (len : Nat) : Nat → List CString → CString → CString
  | _, [], s => s
  | x, w :: ws, s =>
    if s.length < len then
      let s := if 0 < x then s ++ [ch ' '] else s
      joinLoop len (x + 1) ws (s ++ w.take (len - s.length))
    else s

/-- `spd_str_join` (`strings.c:178-196`): the string in `s` afterwards. -/
def spdStrJoin (len : Nat) (w : List CString) : Outcome CString :=
  let s := joinLoop len 0 w []
  if s.length = len then if len = 0 then .fault else .ok s.dropLast else .ok s

theorem copyLoop_eq (src : CString) (size : Nat) (dst : CString) :
    copyLoop src size dst = (dst ++ src.take size, size - src.length) := by
  induction src generalizing size dst with
  | nil => cases size <;> simp [copyLoop]
  | cons c src ih =>
    cases size with
    | zero => simp [copyLoop]
    | succ size =>
      rw [copyLoop, ih]
      simp

/-- A copy is cut off where the buffer ends. -/
theorem spdCopyString_eq (src : CString) {size : Nat} (hsize : 0 < size) :
    spdCopyString src size = .ok (src.take (size - 1)) := by
  rw [spdCopyString, copyLoop_eq]
  simp only [List.nil_append]
  by_cases hfull : size ≤ src.length
  · have hne : (src.take size).isEmpty = false := by
      cases hs : src.take size with
      | nil =>
        have hlen := congrArg List.length hs
        simp only [List.length_take, List.length_nil] at hlen
        omega
      | cons c s => rfl
    rw [if_pos (by omega), hne, if_neg (by simp), List.dropLast_eq_take, List.length_take,
      Nat.min_eq_left hfull, List.take_take, Nat.min_eq_left (Nat.sub_le _ _)]
  · rw [if_neg (by omega), List.take_of_length_le (by omega), List.take_of_length_le (by omega)]

end Spider.Strings
