import Spider.DynamicString.Bounded

/-!
# Substrings and escaped commas

`__spd_str_helper2` copies a text byte by byte behind a dynamic string or over it,
with a backslash in front of every comma and backslash where this is asked for.
Near the end of the buffer it makes space, which leaves the buffer as it is, and
goes on as if there were as much room again. It never sets `used` back.
-/

namespace Spider.DynamicString

open Lib Outcome CString

/-- A `ssize_t`. -/
def ssizeT (n : Nat) : Int := Int.bmod n (2 ^ 64)

/-- `*ptr++ = c`, with `maxlen` and `used` (`str.c:95-97` and `99-102`). -/
def putByte (c : UInt8) (maxlen : Int) (ptr : Nat) (s : SpdStr) : Outcome (Int × Nat × SpdStr) := do
  let buf ← writeAt s.buf ptr [c]
  .ok (maxlen - 1, ptr + 1, { s with buf := buf, used := s.used + 1 })

/-- What a round of the loop writes (`str.c:94-102`). -/
def putEscaped (escapecommas : Bool) (c : UInt8) (maxlen : Int) (ptr : Nat) (s : SpdStr) :
    Outcome (Int × Nat × SpdStr) :=
  if escapecommas = true ∧ (c = ch '\\' ∨ c = ch ',') then do
    let (maxlen, ptr, s) ← putByte (ch '\\') maxlen ptr s
    putByte c maxlen ptr s
  else putByte c maxlen ptr s

/-- The loop of `__spd_str_helper2` (`str.c:93-118`). -/
def helper2Loop (env : Env) (dynamic escapecommas : Bool) :
    List UInt8 → Nat → Int → Nat → SpdStr → Outcome (Int × Nat × SpdStr)
  | [], _, maxlen, ptr, s => .ok (maxlen, ptr, s)
  | c :: src, maxsrc, maxlen, ptr, s =>
    if c ≠ 0 ∧ maxsrc ≠ 0 ∧ maxlen ≠ 0 ∧ (escapecommas = false ∨ maxlen - 1 ≠ 0) then do
      let (maxlen, ptr, s) ← putEscaped escapecommas c maxlen ptr s
      if (s.len : Int) - 3 ≤ ptr ∨
          dynamic = true ∧ (maxlen = 0 ∨ escapecommas = true ∧ maxlen - 1 = 0) then do
        let old := s.len
        let (failed, s) ← spdStrMakeSpace env s (sizeT (s.len * 2))
        if failed ≠ 0 then .ok (maxlen, ptr, s)
        else helper2Loop env dynamic escapecommas src (maxsrc - 1) (ssizeT old) ptr s
      else helper2Loop env dynamic escapecommas src (maxsrc - 1) maxlen ptr s
    else .ok (maxlen, ptr, s)

/-- `__spd_str_helper2` (`str.c:82-124`); `src` is the text with what may be behind it. -/
def spdStrHelper2 (env : Env) (s : SpdStr) (maxlen : Int) (src : List UInt8) (maxsrc : Nat)
    (append escapecommas : Bool) : Outcome SpdStr := do
  let ptr := if append then s.used else 0
  let dynamic := decide (maxlen = 0)
  let maxlen := if maxlen < 1 then ssizeT s.len else maxlen
  let (maxlen, ptr, s) ← helper2Loop env dynamic escapecommas src maxsrc maxlen ptr s
  let last : Int := if maxlen = 0 then ptr - 1 else ptr
  let buf ← writeAt s.buf last [0]
  .ok { s with buf := buf }

/-- `spd_str_append_substr` (`str.h:428-431`). -/
def spdStrAppendSubstr (env : Env) (s : SpdStr) (maxlen : Int) (src : List UInt8) (maxsrc : Nat) :
    Outcome SpdStr :=
  spdStrHelper2 env s maxlen src maxsrc true false

/-- `spd_str_set_escapecommas` (`str.h:435-438`). -/
def spdStrSetEscapecommas (env : Env) (s : SpdStr) (maxlen : Int) (src : List UInt8)
    (maxsrc : Nat) : Outcome SpdStr :=
  spdStrHelper2 env s maxlen src maxsrc false true

/-- `spd_str_append_escapecommas` (`str.h:441-444`). -/
def spdStrAppendEscapecommas (env : Env) (s : SpdStr) (maxlen : Int) (src : List UInt8)
    (maxsrc : Nat) : Outcome SpdStr :=
  spdStrHelper2 env s maxlen src maxsrc true true

/-! ## What is promised -/

/-- A backslash in front of every comma and backslash. -/
def escapeByte (c : UInt8) : List UInt8 := if c = ch '\\' ∨ c = ch ',' then [ch '\\', c] else [c]

/-- The text as it is copied. -/
def copied (escapecommas : Bool) (text : CString) : CString :=
  if escapecommas then text.flatMap escapeByte else text

/-- A call; the limit `maxlen` is 0. -/
inductive Copy where
  | appendSubstr (src : List UInt8) (maxsrc : Nat)
  | setEscapecommas (src : List UInt8) (maxsrc : Nat)
  | appendEscapecommas (src : List UInt8) (maxsrc : Nat)
  deriving DecidableEq, Repr

/-- The string after a call. -/
def copyStep (env : Env) (d : Held) : Copy → Outcome Held
  | .appendSubstr src maxsrc => do
    let s ← spdStrAppendSubstr env d.str 0 src maxsrc
    .ok ⟨s, d.content ++ (cut src).take maxsrc⟩
  | .setEscapecommas src maxsrc => do
    let s ← spdStrSetEscapecommas env d.str 0 src maxsrc
    .ok ⟨s, copied true ((cut src).take maxsrc)⟩
  | .appendEscapecommas src maxsrc => do
    let s ← spdStrAppendEscapecommas env d.str 0 src maxsrc
    .ok ⟨s, d.content ++ copied true ((cut src).take maxsrc)⟩

/-- The string holds what it should, and `used` is its length. -/
structure Exact (d : Held) : Prop where
  content : cut d.str.buf = d.content
  used : d.str.used = d.content.length
  terminated : d.str.len ≠ 0 → 0 ∈ d.str.buf

/-- Without room for the copy and its null byte; setting a string that is not empty. -/
def CopyMisses (d : Held) : Copy → Prop
  | .appendSubstr src maxsrc => d.str.len ≤ d.content.length + ((cut src).take maxsrc).length
  | .setEscapecommas src maxsrc =>
    d.content ≠ [] ∨ d.str.len ≤ (copied true ((cut src).take maxsrc)).length
  | .appendEscapecommas src maxsrc =>
    d.str.len ≤ d.content.length + (copied true ((cut src).take maxsrc)).length

instance : (d : Held) → (op : Copy) → Decidable (CopyMisses d op)
  | _, .appendSubstr _ _ => inferInstanceAs (Decidable (_ ≤ _))
  | _, .setEscapecommas _ _ => inferInstanceAs (Decidable (_ ∨ _))
  | _, .appendEscapecommas _ _ => inferInstanceAs (Decidable (_ ≤ _))

/-- The string holds what it should, and its buffer is what its capacity says. -/
structure Sized (d : Held) : Prop extends Exact d where
  storage : d.str.buf.length = d.str.len
  size : d.str.len < 2 ^ 63

/-- The string with bytes written from `ptr` on. -/
def SpdStr.written (s : SpdStr) (ptr : Nat) (bytes : List UInt8) : SpdStr :=
  { s with
    buf := s.buf.take ptr ++ bytes ++ s.buf.drop (ptr + bytes.length)
    used := s.used + bytes.length }

section

variable {env : Env} {d d' : Held} {s s' : SpdStr} {src w : List UInt8} {maxsrc ptr : Nat}
  {maxlen : Int} {append esc : Bool} {c : UInt8}

/-! ## The loop -/

@[simp] theorem written_len (s : SpdStr) (ptr : Nat) (w : List UInt8) :
    (s.written ptr w).len = s.len := rfl

theorem length_written (h : ptr + w.length ≤ s.buf.length) :
    (s.written ptr w).buf.length = s.buf.length := by
  simp only [SpdStr.written, List.length_append, List.length_take, List.length_drop]
  omega

@[simp] theorem written_nil (s : SpdStr) (ptr : Nat) : s.written ptr [] = s := by
  simp [SpdStr.written]

/-- What is written one behind the other is written at once. -/
theorem written_written {u v : List UInt8} (h : ptr + u.length ≤ s.buf.length) :
    (s.written ptr u).written (ptr + u.length) v = s.written ptr (u ++ v) := by
  have hpre : (s.buf.take ptr ++ u).length = ptr + u.length := by
    rw [List.length_append, List.length_take]
    omega
  simp only [SpdStr.written, List.length_append, SpdStr.mk.injEq, true_and]
  refine ⟨Nat.add_assoc _ _ _, ?_⟩
  rw [List.take_left' hpre, List.drop_append, List.drop_eq_nil_of_le (by omega), hpre,
    List.nil_append, List.drop_drop]
  simp only [List.append_assoc]
  congr 4
  omega

theorem ssizeT_eq {n : Nat} (hn : n < 2 ^ 63) : ssizeT n = n :=
  Int.bmod_eq_of_le (by omega) (by omega)

theorem putByte_eq (hbuf : s.buf.length = s.len) (c : UInt8) (maxlen : Int) (ptr : Nat) :
    putByte c maxlen ptr s =
      if ptr + 1 ≤ s.len then .ok (maxlen - 1, ptr + 1, s.written ptr [c]) else .fault := by
  rw [putByte, writeAt, hbuf]
  by_cases hroom : ptr + 1 ≤ s.len
  · rw [if_pos ⟨Int.natCast_nonneg ptr, by simpa using hroom⟩, if_pos hroom]
    rfl
  · rw [if_neg (by simpa using hroom), if_neg hroom]
    rfl

theorem copied_cons (esc : Bool) (c : UInt8) (w : CString) :
    copied esc (c :: w) = copied esc [c] ++ copied esc w := by
  cases esc <;> simp [copied]

theorem copied_singleton (esc : Bool) (c : UInt8) : copied esc [c] =
    if esc = true ∧ (c = ch '\\' ∨ c = ch ',') then [ch '\\', c] else [c] := by
  cases esc <;> simp [copied, escapeByte]

theorem putEscaped_eq (hbuf : s.buf.length = s.len) (esc : Bool) (c : UInt8) (maxlen : Int)
    (ptr : Nat) : putEscaped esc c maxlen ptr s =
      if ptr + (copied esc [c]).length ≤ s.len then
        .ok (maxlen - (copied esc [c]).length, ptr + (copied esc [c]).length,
          s.written ptr (copied esc [c]))
      else .fault := by
  rw [putEscaped, copied_singleton]
  by_cases hspecial : esc = true ∧ (c = ch '\\' ∨ c = ch ',')
  · rw [if_pos hspecial, if_pos hspecial, putByte_eq hbuf]
    by_cases hone : ptr + 1 ≤ s.len
    · have hbuf' : (s.written ptr [ch '\\']).buf.length = (s.written ptr [ch '\\']).len := by
        rw [length_written (by rw [hbuf]; exact hone), hbuf, written_len]
      have hboth : (s.written ptr [ch '\\']).written (ptr + 1) [c] =
          s.written ptr [ch '\\', c] := written_written (by rw [hbuf]; exact hone)
      rw [if_pos hone, ok_bind]
      dsimp only
      rw [putByte_eq hbuf', written_len, hboth, Int.sub_sub]
      rfl
    · rw [if_neg hone, fault_bind, if_neg (by simp; omega)]
  · rw [if_neg hspecial, if_neg hspecial, putByte_eq hbuf]
    rfl

/-- There is room for what the loop can write in one round. -/
def Open (esc : Bool) (maxlen : Int) : Prop := 0 < maxlen ∧ (esc = true → 1 < maxlen)

/-- What a round leaves of the room is counted up again, or is enough for the next round. -/
def restMaxlen (esc : Bool) (s : SpdStr) (c : UInt8) (maxlen : Int) (ptr : Nat) : Int :=
  let maxlen := maxlen - (copied esc [c]).length
  let ptr := ptr + (copied esc [c]).length
  if (s.len : Int) - 3 ≤ ptr ∨ maxlen = 0 ∨ esc = true ∧ maxlen - 1 = 0 then s.len else maxlen

theorem Open.rest (h : Open esc maxlen) (hlen : Open esc s.len) (c : UInt8) (ptr : Nat) :
    Open esc (restMaxlen esc s c maxlen ptr) := by
  have hle : ((copied esc [c]).length : Int) ≤ maxlen := by
    rw [copied_singleton]
    split
    · next hspecial => exact h.2 hspecial.1
    · exact h.1
  rw [restMaxlen]
  split
  · exact hlen
  · next hnot =>
    refine ⟨by omega, fun hesc => ?_⟩
    have hone : ¬ (maxlen - (copied esc [c]).length - 1 = 0) := fun h1 =>
      hnot (.inr (.inr ⟨hesc, h1⟩))
    omega

/-- One round of the loop. -/
theorem helper2Loop_cons (env : Env) (hbuf : s.buf.length = s.len) (hsize : s.len < 2 ^ 63)
    (hopen : Open esc maxlen) (hc : c ≠ 0) (hmax : maxsrc ≠ 0) :
    helper2Loop env true esc (c :: src) maxsrc maxlen ptr s =
      if ptr + (copied esc [c]).length ≤ s.len then
        helper2Loop env true esc src (maxsrc - 1) (restMaxlen esc s c maxlen ptr)
          (ptr + (copied esc [c]).length) (s.written ptr (copied esc [c]))
      else .fault := by
  have hcond : c ≠ 0 ∧ maxsrc ≠ 0 ∧ maxlen ≠ 0 ∧ (esc = false ∨ maxlen - 1 ≠ 0) := by
    obtain ⟨hpos, hmore⟩ := hopen
    refine ⟨hc, hmax, by omega, ?_⟩
    cases esc with
    | false => exact .inl rfl
    | true => exact .inr (by have := hmore rfl; omega)
  have hspace : ∀ t : SpdStr, t.len = s.len →
      spdStrMakeSpace env t (sizeT (s.len * 2)) = .ok (0, t) := by
    intro t ht
    have hdouble : sizeT ((s.len : Int) * 2) = s.len * 2 := @sizeT_natCast (s.len * 2) (by omega)
    rw [spdStrMakeSpace, hdouble, if_pos (by omega)]
  have hlen : ssizeT s.len = s.len := ssizeT_eq hsize
  rw [helper2Loop, if_pos hcond, putEscaped_eq hbuf]
  by_cases hroom : ptr + (copied esc [c]).length ≤ s.len
  · rw [if_pos hroom, if_pos hroom, ok_bind, restMaxlen]
    dsimp only
    by_cases hnear : (s.len : Int) - 3 ≤ (ptr + (copied esc [c]).length : Nat) ∨
        maxlen - (copied esc [c]).length = 0 ∨
          esc = true ∧ maxlen - (copied esc [c]).length - 1 = 0
    · rw [written_len, if_pos (by simpa using hnear), if_pos hnear,
        hspace _ (written_len s ptr _), ok_bind, hlen]
      rfl
    · rw [written_len, if_neg (by simpa using hnear), if_neg hnear]
  · rw [if_neg hroom, if_neg hroom, fault_bind]

/-- Nothing to copy, or no room from the start. -/
theorem helper2Loop_stop (env : Env) (dynamic : Bool) (hstop : src.head? = none ∨
    src.head? = some 0 ∨ maxsrc = 0 ∨ maxlen = 0 ∨ esc = true ∧ maxlen = 1) :
    helper2Loop env dynamic esc src maxsrc maxlen ptr s = .ok (maxlen, ptr, s) := by
  cases src with
  | nil => rfl
  | cons c src =>
    rw [helper2Loop, if_neg]
    rintro ⟨hc, hmax, hlen, hesc⟩
    rcases hstop with h | h | h | h | ⟨rfl, rfl⟩
    · cases h
    · exact hc (Option.some.inj h)
    · exact hmax h
    · exact hlen h
    · rcases hesc with h | h
      · cases h
      · exact h rfl

/-- The loop writes what is to be copied, or runs past the end of the buffer. -/
theorem helper2Loop_eq (env : Env) (hbuf : s.buf.length = s.len) (hsize : s.len < 2 ^ 63)
    (hlen : Open esc s.len) (hopen : Open esc maxlen) (hptr : ptr ≤ s.len) :
    ∃ rest, Open esc rest ∧ helper2Loop env true esc src maxsrc maxlen ptr s =
      if ptr + (copied esc ((cut src).take maxsrc)).length ≤ s.len then
        .ok (rest, ptr + (copied esc ((cut src).take maxsrc)).length,
          s.written ptr (copied esc ((cut src).take maxsrc)))
      else .fault := by
  have hnil : copied esc [] = [] := by cases esc <;> rfl
  induction src generalizing maxsrc maxlen ptr s with
  | nil =>
    refine ⟨maxlen, hopen, ?_⟩
    rw [cut, List.takeWhile_nil, List.take_nil, hnil, List.length_nil, Nat.add_zero, if_pos hptr,
      written_nil]
    rfl
  | cons c src ih =>
    by_cases hstop : c = 0 ∨ maxsrc = 0
    · refine ⟨maxlen, hopen, ?_⟩
      have hempty : (cut (c :: src)).take maxsrc = [] := by
        rcases hstop with rfl | rfl
        · simp [cut]
        · exact List.take_zero
      rw [hempty, hnil, List.length_nil, Nat.add_zero, if_pos hptr, written_nil]
      refine helper2Loop_stop env true ?_
      rcases hstop with rfl | rfl
      · exact .inr (.inl rfl)
      · exact .inr (.inr (.inl rfl))
    · obtain ⟨hc, hmax⟩ := not_or.mp hstop
      obtain ⟨k, rfl⟩ := Nat.exists_eq_succ_of_ne_zero hmax
      have htake : (cut (c :: src)).take (k + 1) = c :: (cut src).take k := by
        simp [cut, hc]
      rw [Nat.succ_eq_add_one, htake, copied_cons, List.length_append,
        helper2Loop_cons env hbuf hsize hopen hc hmax, Nat.succ_sub_one]
      by_cases hroom : ptr + (copied esc [c]).length ≤ s.len
      · have hwritten := @length_written s (copied esc [c]) ptr (by rw [hbuf]; exact hroom)
        obtain ⟨rest, hrest, heq⟩ := @ih (s.written ptr (copied esc [c])) k
          (ptr + (copied esc [c]).length) (restMaxlen esc s c maxlen ptr)
          (by rw [hwritten]; exact hbuf) hsize hlen (hopen.rest hlen c ptr) hroom
        refine ⟨rest, hrest, ?_⟩
        rw [if_pos hroom, heq, written_written (by rw [hbuf]; exact hroom), written_len,
          Nat.add_assoc]
      · refine ⟨maxlen, hopen, ?_⟩
        rw [if_neg hroom, if_neg (by omega)]

/-! ## The calls -/

/-- Where the copy begins. -/
def start (append : Bool) (s : SpdStr) : Nat := if append then s.used else 0

/-- The limit 0 is the capacity. -/
theorem spdStrHelper2_zero (env : Env) (hsize : s.len < 2 ^ 63) (src : List UInt8) (maxsrc : Nat)
    (append esc : Bool) : spdStrHelper2 env s 0 src maxsrc append esc =
      helper2Loop env true esc src maxsrc s.len (start append s) s >>= fun r =>
        writeAt r.2.2.buf (if r.1 = 0 then r.2.1 - 1 else r.2.1) [0] >>= fun buf =>
          .ok { r.2.2 with buf := buf } := by
  rw [spdStrHelper2, ssizeT_eq hsize]
  rfl

/-- The copy with its null byte is written, or something is written behind the buffer. -/
theorem spdStrHelper2_eq (env : Env) (hbuf : s.buf.length = s.len) (hsize : s.len < 2 ^ 63)
    (hlen : Open esc s.len) (hptr : start append s ≤ s.len)
    (hw : copied esc ((cut src).take maxsrc) = w) :
    spdStrHelper2 env s 0 src maxsrc append esc =
      if start append s + w.length < s.len then
        .ok { s.written (start append s) w with
          buf := (s.written (start append s) (w ++ [0])).buf }
      else .fault := by
  subst hw
  obtain ⟨rest, hrest, hloop⟩ := @helper2Loop_eq s src maxsrc (start append s) s.len esc env hbuf
    hsize hlen hlen hptr
  rw [spdStrHelper2_zero env hsize, hloop]
  by_cases hroom : start append s + (copied esc ((cut src).take maxsrc)).length ≤ s.len
  · have hwritten := @length_written s (copied esc ((cut src).take maxsrc)) (start append s)
      (by rw [hbuf]; exact hroom)
    have hnul := @written_written s (start append s) (copied esc ((cut src).take maxsrc)) [0]
      (by rw [hbuf]; exact hroom)
    rw [if_pos hroom, ok_bind]
    dsimp only
    rw [if_neg (by have := hrest.1; omega)]
    by_cases hlast : start append s + (copied esc ((cut src).take maxsrc)).length < s.len
    · rw [writeAt_eq (by rw [hwritten, hbuf]; exact hlast), ok_bind, if_pos hlast, ← hnul]
      rfl
    · rw [writeAt, hwritten, hbuf, if_neg, if_neg hlast, fault_bind]
      rintro ⟨-, hle⟩
      exact hlast hle
  · rw [if_neg hroom, if_neg (by omega), fault_bind]

/-- No room in the buffer for anything but a null byte. -/
theorem spdStrHelper2_full (env : Env) (hbuf : s.buf.length = s.len) (hsize : s.len < 2 ^ 63)
    (hlen : ¬ Open esc s.len) (src : List UInt8) (maxsrc : Nat) :
    spdStrHelper2 env s 0 src maxsrc append esc =
      if s.len = 1 ∧ start append s = 0 then .ok { s with buf := [0] } else .fault := by
  have hsmall : s.len = 0 ∨ esc = true ∧ s.len = 1 := by
    by_contra hnot
    obtain ⟨hpos, hmore⟩ := not_or.mp hnot
    exact hlen ⟨by omega, fun hesc => by have := not_and.mp hmore hesc; omega⟩
  have hloop : helper2Loop env true esc src maxsrc s.len (start append s) s =
      .ok (s.len, start append s, s) := by
    refine helper2Loop_stop env _ (.inr (.inr (.inr ?_)))
    rcases hsmall with h | ⟨hesc, h⟩
    · exact .inl (by omega)
    · exact .inr ⟨hesc, by omega⟩
  rw [spdStrHelper2_zero env hsize, hloop, ok_bind]
  dsimp only
  rcases hsmall with h | ⟨-, h⟩
  · rw [writeAt, hbuf, h, if_neg (by simp), if_neg (by simp), fault_bind]
  · rw [if_neg (by omega : ¬ (s.len : Int) = 0)]
    by_cases hzero : start append s = 0
    · rw [hzero, writeAt_eq (by rw [hbuf, h]; decide), ok_bind, if_pos ⟨h, rfl⟩,
        List.drop_eq_nil_of_le (by rw [hbuf, h]; decide)]
      rfl
    · rw [writeAt, hbuf, h, if_neg (by simpa using hzero), if_neg (by simp [hzero]), fault_bind]

theorem noNul_copied (esc : Bool) {w : CString} (hw : NoNul w) : NoNul (copied esc w) := by
  cases esc with
  | false => exact hw
  | true =>
    intro c hc
    rw [copied, if_pos rfl, List.mem_flatMap] at hc
    obtain ⟨b, hb, hc⟩ := hc
    rw [escapeByte] at hc
    split at hc
    · rcases List.mem_cons.mp hc with rfl | hc
      · decide
      · exact List.mem_singleton.mp hc ▸ hw b hb
    · exact List.mem_singleton.mp hc ▸ hw b hb

/-- What the copy is put behind. -/
def kept (append : Bool) (d : Held) : CString := if append then d.content else []

theorem Sized.start_eq (h : Sized d) : start append d.str = (kept append d).length := by
  cases append with
  | false => rfl
  | true => exact h.used

theorem Sized.take_kept (h : Sized d) :
    d.str.buf.take (start append d.str) = kept append d := by
  cases append with
  | false => rfl
  | true =>
    rw [h.start_eq, kept, if_pos rfl, ← h.content]
    exact take_length_cut d.str.buf

theorem Sized.noNul_kept (h : Sized d) : NoNul (kept append d) := by
  cases append with
  | false => exact nofun
  | true =>
    rw [kept, if_pos rfl, ← h.content]
    exact noNul_cut d.str.buf

/-- A null byte is within the buffer. -/
theorem Sized.length_lt (h : Sized d) (hlen : d.str.len ≠ 0) :
    d.content.length < d.str.len := by
  obtain ⟨t, u, hsplit⟩ := List.append_of_mem (h.terminated hlen)
  obtain ⟨behind, hbehind⟩ := exists_cut t u
  rw [← h.storage, ← h.content, hsplit, hbehind, cut_append_zero (noNul_cut t)]
  simp

/-- With room for the copy a call leaves the string as it should be. -/
theorem spdStrHelper2_good (env : Env) (h : Sized d)
    (hset : append = false → d.content = [])
    (hw : copied esc ((cut src).take maxsrc) = w)
    (hroom : (kept append d).length + w.length < d.str.len) :
    ∃ s', spdStrHelper2 env d.str 0 src maxsrc append esc = .ok s' ∧
      Sized ⟨s', kept append d ++ w⟩ := by
  have hstart : start append d.str = (kept append d).length := h.start_eq
  have hused : d.str.used = (kept append d).length := by
    cases append with
    | false => rw [h.used, hset rfl]; rfl
    | true => exact h.used
  by_cases hlen : Open esc d.str.len
  · rw [spdStrHelper2_eq env h.storage h.size hlen (by omega) hw, if_pos (by omega)]
    have hnul : NoNul (kept append d ++ w) := by
      intro c hc
      rcases List.mem_append.mp hc with hc | hc
      · exact h.noNul_kept c hc
      · subst hw
        exact noNul_copied esc (fun c hc => noNul_cut src c (List.mem_of_mem_take hc)) c hc
    have hbuf : (d.str.written (start append d.str) (w ++ [0])).buf =
        (kept append d ++ w) ++ 0 :: d.str.buf.drop (start append d.str + (w ++ [0]).length) := by
      simp only [SpdStr.written, h.take_kept]
      simp
    refine ⟨_, rfl, ⟨⟨?_, ?_, fun _ => ?_⟩, ?_, h.size⟩⟩
    · rw [hbuf]
      exact cut_append_zero hnul _
    · rw [List.length_append, ← hused]
      rfl
    · rw [hbuf]
      simp
    · exact (length_written (by simp only [List.length_append, List.length_singleton, h.storage]
                                omega)).trans h.storage
  · have hone : d.str.len = 1 := by
      by_contra hne
      exact hlen ⟨by omega, fun _ => by omega⟩
    obtain rfl : w = [] := List.length_eq_zero_iff.mp (by omega)
    have hkept : kept append d = [] := List.length_eq_zero_iff.mp (by omega)
    rw [spdStrHelper2_full env h.storage h.size hlen, if_pos ⟨hone, by omega⟩, hkept]
    exact ⟨_, rfl, ⟨⟨rfl, by rw [hused, hkept]; rfl, fun _ => List.mem_singleton.mpr rfl⟩,
      hone.symm, h.size⟩⟩

/-- Without room for the copy, and when a string that is not empty is set, the string is not as it
    should be. -/
theorem spdStrHelper2_bad (h : Sized d) (hw : copied esc ((cut src).take maxsrc) = w)
    (hbad : append = false ∧ d.content ≠ [] ∨ d.str.len ≤ (kept append d).length + w.length)
    (hr : spdStrHelper2 env d.str 0 src maxsrc append esc = .ok s') :
    ¬ Exact ⟨s', kept append d ++ w⟩ := by
  have hstart : start append d.str = (kept append d).length := h.start_eq
  intro hexact
  by_cases hlen : Open esc d.str.len
  · have hle : start append d.str ≤ d.str.len := by
      have hlt := h.length_lt (by have := hlen.1; omega)
      rw [hstart]
      cases append with
      | false => exact Nat.zero_le _
      | true => exact Nat.le_of_lt hlt
    rw [spdStrHelper2_eq env h.storage h.size hlen hle hw] at hr
    split at hr
    · next hroom =>
      obtain rfl := Outcome.ok.inj hr
      rcases hbad with ⟨rfl, hne⟩ | hfull
      · -- `used` has not been set back
        have hused : d.str.used + w.length = w.length := hexact.used
        rw [h.used, Nat.add_eq_right, List.length_eq_zero_iff] at hused
        exact hne hused
      · omega
    · cases hr
  · rw [spdStrHelper2_full env h.storage h.size hlen] at hr
    split at hr
    · next hone =>
      obtain rfl := Outcome.ok.inj hr
      have hcontent : [] = kept append d ++ w := hexact.content
      have hnil := List.append_eq_nil_iff.mp hcontent.symm
      rcases hbad with ⟨rfl, hne⟩ | hfull
      · have hlt := h.length_lt (by omega)
        exact hne (List.length_eq_zero_iff.mp (by omega))
      · rw [hnil.1, hnil.2, hone.1] at hfull
        exact absurd hfull (by decide)
    · cases hr

/-! ## Runs -/

/-- The calls differ in where the copy begins, and whether commas are escaped. -/
theorem copyStep_eq (env : Env) (d : Held) (op : Copy) : ∃ append esc src maxsrc w,
    copied esc ((cut src).take maxsrc) = w ∧
    copyStep env d op = (spdStrHelper2 env d.str 0 src maxsrc append esc >>= fun s =>
      .ok ⟨s, kept append d ++ w⟩) ∧
    (CopyMisses d op ↔
      append = false ∧ d.content ≠ [] ∨ d.str.len ≤ (kept append d).length + w.length) := by
  cases op with
  | appendSubstr src maxsrc =>
    exact ⟨true, false, src, maxsrc, _, rfl, rfl, by simp [CopyMisses, kept, copied]⟩
  | setEscapecommas src maxsrc =>
    exact ⟨false, true, src, maxsrc, _, rfl, rfl, by simp [CopyMisses, kept]⟩
  | appendEscapecommas src maxsrc =>
    exact ⟨true, true, src, maxsrc, _, rfl, rfl, by simp [CopyMisses, kept]⟩

/-- In a run of calls the string always holds what was copied, and `used` is its length, exactly
    when there is room for every copy with its null byte and only an empty string is set. -/
theorem copiedStrings_iff (env : Env) (h : Sized d) (ops : List Copy) :
    Run.Always (copyStep env) Exact d ops ↔
      Run.Legal (copyStep env) (fun d op => ¬ CopyMisses d op) d ops := by
  refine Run.always_iff_inv (fun _ hd => hd.toExact) (fun d op hd _ hgood => ?_)
    (fun d op d' hd _ hbad hstep => ?_) ops h (Run.legal_of_forall (fun _ _ => trivial) ops)
  · obtain ⟨append, esc, src, maxsrc, w, hw, hstep, hiff⟩ := copyStep_eq env d op
    obtain ⟨hset, hroom⟩ := not_or.mp (mt hiff.mpr hgood)
    obtain ⟨s', hs', hsized⟩ := spdStrHelper2_good env hd
      (fun happend => not_not.mp (not_and.mp hset happend)) hw (Nat.not_le.mp hroom)
    exact ⟨_, by rw [hstep, hs', ok_bind], hsized⟩
  · obtain ⟨append, esc, src, maxsrc, w, hw, hstep', hiff⟩ := copyStep_eq env d op
    rw [hstep'] at hstep
    obtain ⟨s', hs', hd'⟩ := bind_eq_ok.mp hstep
    obtain rfl := Outcome.ok.inj hd'
    exact spdStrHelper2_bad hd hw (hiff.mp hbad) hs'

/-- An empty string of eight bytes. -/
def eight : Held := ⟨⟨8, 0, .malloc, List.replicate 8 0⟩, []⟩

theorem sized_eight : Sized eight := ⟨⟨rfl, rfl, fun _ => by decide⟩, rfl, by decide⟩

/-- A comma is escaped, and a substring appended. -/
theorem copiedStrings_iff_eight : Run.Always (copyStep roomy) Exact eight
    [.setEscapecommas (lit "a,b") 5, .appendSubstr (lit "cde") 2] :=
  (copiedStrings_iff roomy sized_eight _).mpr (by decide +kernel)

/-- A copy of eight bytes has its null byte behind the buffer. -/
theorem copiedStrings_full :
    copyStep roomy eight (.appendSubstr (lit "abcdefgh") 8) = .fault ∧
    ¬ Run.Always (copyStep roomy) Exact eight [.appendSubstr (lit "abcdefgh") 8] := by
  have hrun : copyStep roomy eight (.appendSubstr (lit "abcdefgh") 8) = .fault := by
    decide +kernel
  refine ⟨hrun, ?_⟩
  rintro ⟨-, d, hd, -⟩
  cases hrun.symm.trans hd

/-- A string that is set twice is counted twice. -/
theorem copiedStrings_twice :
    ¬ Run.Always (copyStep roomy) Exact eight
      [.setEscapecommas (lit "a") 1, .setEscapecommas (lit "b") 1] := by
  have hfirst : copyStep roomy eight (.setEscapecommas (lit "a") 1) =
      .ok ⟨⟨8, 1, .malloc, lit "a" ++ List.replicate 7 0⟩, lit "a"⟩ := by decide +kernel
  have hsecond : copyStep roomy ⟨⟨8, 1, .malloc, lit "a" ++ List.replicate 7 0⟩, lit "a"⟩
      (.setEscapecommas (lit "b") 1) =
      .ok ⟨⟨8, 2, .malloc, lit "b" ++ List.replicate 7 0⟩, lit "b"⟩ := by decide +kernel
  rintro ⟨-, d, hd, -, d', hd', hexact⟩
  obtain rfl := Outcome.ok.inj (hfirst.symm.trans hd)
  obtain rfl := Outcome.ok.inj (hsecond.symm.trans hd')
  exact absurd hexact.used (by decide)

end

end Spider.DynamicString
