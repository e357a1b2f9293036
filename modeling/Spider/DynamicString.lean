import Spider.Lib.CString
import Spider.Lib.Run

/-!
# Dynamic strings

A dynamic string (`struct spd_str`, `str.h:97-105`) is a header and a buffer that
`spd_str_set` and `spd_str_append` fill with formatted text, and that
`spd_str_make_space` is to enlarge when the text does not fit.
-/

namespace Spider.DynamicString

open Lib Outcome

/-- Where a dynamic string is stored: the values of its `str_tpv` field. -/
inductive Storage where
  | malloc
  | alloca
  | thread
  deriving DecidableEq, Repr

/-- `struct spd_str`; `buf` are the bytes allocated behind the header. -/
structure SpdStr where
  len : Nat
  used : Nat
  strTpv : Storage
  buf : List UInt8
  deriving DecidableEq, Repr

/-- What the functions find outside: whether `realloc` succeeds, and what their caller reads
    from a function that ends without a `return`. -/
structure Env where
  realloc : Bool
  noReturn : Int

/-- `sizeof(struct spd_str)` and `sizeof(struct spd_str *)`. -/
def headerSize : Nat := 24

@[inherit_doc headerSize]
def pointerSize : Nat := 8

/-- A `size_t`. -/
def sizeT (n : Int) : Nat := (n % 2 ^ 64).toNat

/-- The largest `int`. -/
def intMax : Int := 2 ^ 31 - 1

/-- `SPD_STR_BUILD_FAILED`. -/
def spdStrBuildFailed : Int := -1

/-- Writing into the buffer. -/
def writeAt (buf : List UInt8) (i : Int) (bytes : List UInt8) : Outcome (List UInt8) :=
  if 0 ≤ i ∧ i.toNat + bytes.length ≤ buf.length then
    .ok (buf.take i.toNat ++ bytes ++ buf.drop (i.toNat + bytes.length))
  else .fault

/-- `vsnprintf` of C99 at an offset of the buffer: the buffer afterwards, and the length of
    the text. -/
def vsnprintf (buf : List UInt8) (offset : Int) (size : Nat) (text : CString) :
    Outcome (List UInt8 × Int) :=
  if size = 0 then .ok (buf, text.length)
  else do
    let buf ← writeAt buf offset (text.take (size - 1) ++ [0])
    .ok (buf, text.length)

/-- `spd_str_make_space` (`str.h:198-218`). -/
def spdStrMakeSpace (env : Env) (s : SpdStr) (newLen : Nat) : Outcome (Int × SpdStr) :=
  if s.len ≤ newLen then .ok (0, s)
  else if s.strTpv = .alloca then .ok (-1, s)
  else if env.realloc = false then .ok (-1, s)
  else
    let size := sizeT (pointerSize + newLen)
    -- the header has to be in the block, and nothing is returned in the end
    if size < headerSize then .fault
    else
      .ok (env.noReturn, { s with
        len := newLen
        buf := s.buf.take (size - headerSize) ++
          List.replicate (size - headerSize - s.buf.length) 0 })

/-- The loop of `__spd_str_helper` (`str.c:34-74`). -/
def helperLoop (env : Env) (offset : Int) (text : CString) :
    Nat → SpdStr → Int → Outcome (Int × SpdStr)
  | 0, _, _ => .timeout
  | fuel + 1, s, maxLen => do
    let maxLen : Int := if maxLen < 0 then s.len else maxLen
    let (buf, res) ← vsnprintf s.buf offset (sizeT (s.len - offset)) text
    let s := { s with buf := buf }
    let need := res + offset + 1
    if intMax < need then .fault
    else if s.len < sizeT need ∧ (maxLen = 0 ∨ s.len < sizeT maxLen) then do
      let need :=
        if maxLen ≠ 0 ∧ maxLen < need then maxLen
        else if maxLen = 0 then need + (16 + need / 4)
        else need
      if intMax < need then .fault
      else do
        let (failed, s) ← spdStrMakeSpace env s (sizeT need)
        if failed ≠ 0 then .ok (spdStrBuildFailed, s)
        else do
          let buf ← writeAt s.buf offset [0]
          helperLoop env offset text fuel { s with buf := buf } maxLen
    else
      let used := if s.len < sizeT (res + offset) then s.len - 1 else sizeT (res + offset)
      .ok (res, { s with used := used })

/-- `__spd_str_helper` (`str.c:27-80`); `text` is what the format and its arguments make. -/
def spdStrHelper (env : Env) (fuel : Nat) (s : SpdStr) (maxLen : Int) (append : Bool)
    (text : CString) : Outcome (Int × SpdStr) :=
  let offset : Int := if append ∧ s.len ≠ 0 then Int.bmod s.used (2 ^ 32) else 0
  helperLoop env offset text fuel s maxLen

/-- `spd_str_set` and `spd_str_set_va` (`str.h:344-347` and `395-406`). -/
def spdStrSet (env : Env) (fuel : Nat) (s : SpdStr) (maxLen : Int) (text : CString) :
    Outcome (Int × SpdStr) :=
  spdStrHelper env fuel s maxLen false text

/-- `spd_str_append` and `spd_str_append_va` (`str.h:372-375` and `414-425`). -/
def spdStrAppend (env : Env) (fuel : Nat) (s : SpdStr) (maxLen : Int) (text : CString) :
    Outcome (Int × SpdStr) :=
  spdStrHelper env fuel s maxLen true text

/-- A zeroed block of `size` bytes that holds a header. -/
def calloc (size : Nat) (strTpv : Storage) : Outcome SpdStr :=
  if size < headerSize then .fault
  else .ok ⟨0, 0, strTpv, List.replicate (size - headerSize) 0⟩

/-- `spd_str_create` (`str.h:118-129`), when the allocation succeeds. -/
def spdStrCreate (initLen : Nat) : Outcome SpdStr := do
  let s ← calloc (sizeT (headerSize + initLen)) .malloc
  .ok { s with len := initLen }

/-- `spd_str_thread_get` (`str.h:263-278`) when the allocation succeeds: the string of the
    thread is made at the first call. -/
def spdStrThreadGet (old : Option SpdStr) (initLen : Nat) : Outcome SpdStr := do
  let s ← match old with
    | some s => .ok s
    | none => calloc (sizeT (headerSize + initLen)) .thread
  .ok (if s.len = 0 then { s with len := initLen, used := 0 } else s)

/-! ## What is promised -/

/-- A dynamic string, the text it should hold, and the last call's result and text. -/
structure Dyn where
  str : SpdStr
  content : CString
  last : Option (Int × CString)
  deriving DecidableEq, Repr

/-- A call; the limit `max_len` is 0. -/
inductive Op where
  | create (initLen : Nat)
  | threadGet (initLen : Nat)
  | set (text : CString)
  | append (text : CString)
  deriving DecidableEq, Repr

/-- The string after a call. -/
def step (env : Env) (fuel : Nat) : Option Dyn → Op → Outcome (Option Dyn)
  | none, .create n => do
    let s ← spdStrCreate n
    .ok (some ⟨s, [], none⟩)
  | none, .threadGet n => do
    let s ← spdStrThreadGet none n
    .ok (some ⟨s, [], none⟩)
  | some d, .threadGet n => do
    let s ← spdStrThreadGet (some d.str) n
    .ok (some { d with str := s })
  | some d, .set text => do
    let (res, s) ← spdStrSet env fuel d.str 0 text
    .ok (some ⟨s, text, some (res, text)⟩)
  | some d, .append text => do
    let (res, s) ← spdStrAppend env fuel d.str 0 text
    .ok (some ⟨s, d.content ++ text, some (res, text)⟩)
  | s, _ => .ok s

/-- What the caller sees to: a string is made once, only a string of the thread is got again,
    and the length of a formatted text is an `int`. -/
def Enabled : Option Dyn → Op → Prop
  | d, .create n => d = none ∧ n < 2 ^ 64
  | d, .threadGet n => n < 2 ^ 64 ∧ ∀ e ∈ d, e.str.strTpv = .thread
  | d, .set text | d, .append text => d.isSome ∧ (text.length : Int) ≤ intMax

/-- The buffer has room for so many bytes and the null byte. -/
def Fits (d : Dyn) (n : Nat) : Prop := n < d.str.len ∧ (n : Int) < intMax

/-- The calls that need a larger buffer, and those that set a capacity that is not there. -/
def Fails : Option Dyn → Op → Prop
  | none, .create n | none, .threadGet n => 2 ^ 64 ≤ headerSize + n
  | some d, .threadGet n => d.str.len = 0 ∧ d.str.buf.length < n
  | some d, .set text => ¬ Fits d text.length
  | some d, .append text => ¬ Fits d (d.content.length + text.length)
  | _, _ => False

/-- The string holds what was put into it, with room for the null byte once a call has
    returned, and within its storage. -/
structure AsIntended (d : Dyn) : Prop where
  used : d.str.used = d.content.length
  content : d.str.buf.take d.str.used = d.content
  room : d.last.isSome → d.str.used < d.str.len
  terminated : d.last.isSome → d.str.buf[d.str.used]? = some 0
  returned : ∀ r ∈ d.last, r.1 = r.2.length
  storage : d.str.len ≤ d.str.buf.length

/-- As intended, with the bounds of the machine integers. -/
structure Inv (d : Dyn) : Prop extends AsIntended d where
  size : d.str.len < 2 ^ 64
  short : (d.content.length : Int) ≤ intMax
  fresh : d.last = none → d.content = []

section

variable {env : Env} {fuel : Nat} {d : Dyn} {s : SpdStr} {text : CString} {buf : List UInt8}
  {k : Nat}

theorem sizeT_natCast {n : Nat} (hn : n < 2 ^ 64) : sizeT n = n := by
  rw [sizeT, Int.emod_eq_of_lt (by omega) (by omega), Int.toNat_natCast]

theorem writeAt_eq {bytes : List UInt8} (h : k + bytes.length ≤ buf.length) :
    writeAt buf k bytes = .ok (buf.take k ++ bytes ++ buf.drop (k + bytes.length)) := by
  rw [writeAt, if_pos ⟨by omega, by simpa using h⟩, Int.toNat_natCast]

/-! ## The loop -/

/-- The first round is the last one when the text fits. -/
theorem helperLoop_fits (env : Env) (fuel : Nat) (hlen : s.len ≤ s.buf.length) (hsize : s.len < 2 ^ 64)
    (hfits : k + text.length < s.len) (hint : ((k + text.length : Nat) : Int) < intMax) :
    helperLoop env k text (fuel + 1) s 0 = .ok (text.length,
      { s with
        used := k + text.length
        buf := s.buf.take k ++ (text ++ [0]) ++ s.buf.drop (k + (text.length + 1)) }) := by
  have hroom : sizeT ((s.len : Int) - k) = s.len - k := by
    have hsub : (s.len : Int) - k = ((s.len - k : Nat) : Int) := by omega
    rw [hsub, sizeT_natCast (by omega)]
  have htake : text.take (s.len - k - 1) = text := List.take_of_length_le (by omega)
  have hwrite : writeAt s.buf k (text ++ [0])
      = .ok (s.buf.take k ++ (text ++ [0]) ++ s.buf.drop (k + (text.length + 1))) := by
    have hend : k + (text ++ [0]).length ≤ s.buf.length := by
      rw [List.length_append, List.length_singleton]
      omega
    simpa using writeAt_eq hend
  have hused : (text.length : Int) + k = ((k + text.length : Nat) : Int) := by omega
  have hneed : ((k + text.length : Nat) : Int) + 1 = ((k + text.length + 1 : Nat) : Int) := rfl
  rw [helperLoop, hroom, vsnprintf, if_neg (by omega), htake, hwrite, ok_bind, ok_bind]
  simp only [hused, hneed]
  rw [if_neg (by omega), if_neg, if_neg]
  · rw [sizeT_natCast (by omega)]
  · rw [sizeT_natCast (by omega)]
    omega
  · rw [sizeT_natCast (by omega)]
    omega

/-- When the text does not fit, no round is the last one: `spd_str_make_space` leaves a
    buffer alone that is too small. -/
theorem helperLoop_misses (hsize : s.len < 2 ^ 64)
    (hmiss : ¬ (k + text.length < s.len ∧ ((k + text.length : Nat) : Int) < intMax))
    (r : Int × SpdStr) : helperLoop env k text fuel s 0 ≠ .ok r := by
  have hneed : (text.length : Int) + k + 1 = ((k + text.length + 1 : Nat) : Int) := by omega
  induction fuel generalizing s with
  | zero => simp [helperLoop]
  | succ fuel ih =>
    rw [helperLoop]
    intro hr
    obtain ⟨⟨buf, res⟩, hprint, hr⟩ := bind_eq_ok.mp hr
    have hres : res = text.length := by
      rw [vsnprintf] at hprint
      split at hprint
      · cases hprint
        rfl
      · obtain ⟨buf', -, hbuf⟩ := bind_eq_ok.mp hprint
        cases hbuf
        rfl
    subst hres
    simp only [hneed] at hr
    by_cases hint : intMax < ((k + text.length + 1 : Nat) : Int)
    · rw [if_pos hint] at hr
      cases hr
    · have hmore : k + text.length + 1 < 2 ^ 64 := by
        rw [intMax] at hint
        omega
      rw [if_neg hint, if_pos ⟨by rw [sizeT_natCast hmore]; omega, Or.inl rfl⟩] at hr
      simp only [Int.lt_irrefl, if_false, ne_eq, not_true, false_and, if_true] at hr
      split at hr
      · cases hr
      · next hroom =>
        have hspace : s.len ≤ sizeT (((k + text.length + 1 : Nat) : Int)
            + (16 + ((k + text.length + 1 : Nat) : Int) / 4)) := by
          rw [intMax] at hroom
          rw [sizeT, Int.emod_eq_of_lt (by omega) (by omega)]
          omega
        rw [spdStrMakeSpace, if_pos hspace, ok_bind] at hr
        simp only [not_true, if_false] at hr
        obtain ⟨buf', -, hr⟩ := bind_eq_ok.mp hr
        exact ih (s := { s with buf := buf' }) hsize hmiss hr

/-! ## The calls -/

/-- What a call leaves in the buffer when the text fits behind `content`. -/
theorem inv_write {content : CString} (hd : Inv d) (hcontent : d.str.buf.take k = content)
    (hk : k = content.length) (hfits : Fits d (k + text.length)) :
    Inv ⟨{ d.str with
        used := k + text.length
        buf := d.str.buf.take k ++ (text ++ [0]) ++ d.str.buf.drop (k + (text.length + 1)) },
      content ++ text, some (text.length, text)⟩ := by
  obtain ⟨hlt, hint⟩ := hfits
  have hstorage := hd.storage
  have hbuf : d.str.buf.take k ++ (text ++ [0]) ++ d.str.buf.drop (k + (text.length + 1))
      = (content ++ text) ++ 0 :: d.str.buf.drop (k + (text.length + 1)) := by
    simp [hcontent]
  have hlen : k + text.length = (content ++ text).length := by simp [hk]
  refine ⟨⟨hlen, ?_, fun _ => hlt, fun _ => ?_, ?_, ?_⟩, hd.size, ?_, fun h => by cases h⟩
  · simp only [hbuf, hlen, List.take_left']
  · simp only [hbuf, hlen, List.getElem?_append_right (Nat.le_refl _), Nat.sub_self,
      List.getElem?_cons_zero]
  · intro r hr
    obtain rfl := Option.some.inj hr
    rfl
  · simp only [List.length_append, List.length_take, List.length_drop, List.length_singleton]
    omega
  · simp only [← hlen]
    omega

theorem spdStrSet_eq (env : Env) (fuel : Nat) (hd : Inv d) (hfits : Fits d text.length) :
    ∃ s', spdStrSet env (fuel + 1) d.str 0 text = .ok (text.length, s') ∧
      Inv ⟨s', text, some (text.length, text)⟩ ∧ s'.len = d.str.len := by
  have hfits' : Fits d (0 + text.length) := by simpa using hfits
  have hloop := helperLoop_fits env fuel hd.storage hd.size hfits'.1 hfits'.2
  have hempty : d.str.buf.take 0 = [] := rfl
  exact ⟨_, hloop, inv_write hd hempty rfl hfits', rfl⟩

/-- The offset of an append is where the text ends. -/
theorem appendOffset_eq (hd : Inv d) :
    (if true = true ∧ d.str.len ≠ 0 then Int.bmod d.str.used (2 ^ 32) else 0)
      = (d.content.length : Int) := by
  have hshort := hd.short
  rw [intMax] at hshort
  by_cases hlen : d.str.len = 0
  · rw [if_neg (by simp [hlen])]
    cases hlast : d.last with
    | none => rw [hd.fresh hlast]; rfl
    | some r =>
      have hroom := hd.room (by rw [hlast]; rfl)
      omega
  · rw [if_pos ⟨rfl, hlen⟩, hd.used]
    exact Int.bmod_eq_of_le (by omega) (by omega)

theorem spdStrAppend_eq (env : Env) (fuel : Nat) (hd : Inv d) (hfits : Fits d (d.content.length + text.length)) :
    ∃ s', spdStrAppend env (fuel + 1) d.str 0 text = .ok (text.length, s') ∧
      Inv ⟨s', d.content ++ text, some (text.length, text)⟩ := by
  have hloop := helperLoop_fits env fuel hd.storage hd.size hfits.1 hfits.2
  refine ⟨_, ?_, inv_write hd ?_ rfl hfits⟩
  · rw [spdStrAppend, spdStrHelper, appendOffset_eq hd]
    exact hloop
  · rw [← hd.used]
    exact hd.content

theorem spdStrSet_ne (hd : Inv d) (hfits : ¬ Fits d text.length) (r : Int × SpdStr) :
    spdStrSet env fuel d.str 0 text ≠ .ok r :=
  helperLoop_misses (k := 0) hd.size (by simpa [Fits] using hfits) r

theorem spdStrAppend_ne (hd : Inv d) (hfits : ¬ Fits d (d.content.length + text.length))
    (r : Int × SpdStr) : spdStrAppend env fuel d.str 0 text ≠ .ok r := by
  rw [spdStrAppend, spdStrHelper, appendOffset_eq hd]
  exact helperLoop_misses hd.size hfits r

theorem calloc_eq {n : Nat} (hn : headerSize + n < 2 ^ 64) (strTpv : Storage) :
    calloc (sizeT (headerSize + n)) strTpv = .ok ⟨0, 0, strTpv, List.replicate n 0⟩ := by
  have hsize : sizeT ((headerSize : Int) + n) = headerSize + n := by
    have hcast : (headerSize : Int) + n = ((headerSize + n : Nat) : Int) := rfl
    rw [hcast, sizeT_natCast hn]
  rw [calloc, hsize, if_neg (by omega), Nat.add_sub_cancel_left]

/-- The size of the block wraps around, and the header is not in it. -/
theorem calloc_fault {n : Nat} (hn : n < 2 ^ 64) (hwrap : 2 ^ 64 ≤ headerSize + n)
    (strTpv : Storage) : calloc (sizeT (headerSize + n)) strTpv = .fault := by
  rw [headerSize] at hwrap
  have hsize : sizeT ((headerSize : Int) + n) < headerSize := by
    rw [sizeT, headerSize]
    omega
  rw [calloc, if_pos hsize]

/-- A string that has just been made. -/
theorem inv_fresh {n : Nat} (hn : headerSize + n < 2 ^ 64) (strTpv : Storage) :
    Inv ⟨⟨n, 0, strTpv, List.replicate n 0⟩, [], none⟩ := by
  refine ⟨⟨rfl, rfl, ?_, ?_, ?_, ?_⟩, ?_, ?_, fun _ => rfl⟩
  · simp
  · simp
  · simp
  · simp
  · exact Nat.lt_of_le_of_lt (Nat.le_add_left n headerSize) hn
  · simp [intMax]

theorem spdStrThreadGet_inv {n : Nat} (hd : Inv d) (hn : n < 2 ^ 64)
    (hfits : ¬ (d.str.len = 0 ∧ d.str.buf.length < n)) :
    ∃ s', spdStrThreadGet (some d.str) n = .ok s' ∧ Inv { d with str := s' } := by
  refine ⟨_, rfl, ?_⟩
  by_cases hlen : d.str.len = 0
  · -- the capacity is set now, and nothing has been written yet
    have hlast : d.last = none := by
      cases h : d.last with
      | none => rfl
      | some r =>
        have hroom := hd.room (by rw [h]; rfl)
        omega
    have hcontent := hd.fresh hlast
    simp only [hlen, if_true]
    refine ⟨⟨?_, ?_, ?_, ?_, hd.returned, ?_⟩, hn, hd.short, hd.fresh⟩
    · simp [hcontent]
    · simp [hcontent]
    · simp [hlast]
    · simp [hlast]
    · simp only
      omega
  · simp only [if_neg hlen]
    exact hd

theorem spdStrThreadGet_none {n : Nat} (hn : headerSize + n < 2 ^ 64) :
    spdStrThreadGet none n = .ok ⟨n, 0, .thread, List.replicate n 0⟩ := by
  simp only [spdStrThreadGet, calloc_eq hn, ok_bind, if_true]

/-! ## Runs -/

theorem step_good {s : Option Dyn} {op : Op} (hs : ∀ d ∈ s, Inv d) (he : Enabled s op)
    (hgood : ¬ Fails s op) :
    ∃ s', step env (fuel + 1) s op = .ok s' ∧ ∀ d ∈ s', Inv d := by
  cases op with
  | create n =>
    obtain ⟨rfl, hn⟩ := he
    have hsize : headerSize + n < 2 ^ 64 := Nat.not_le.mp hgood
    refine ⟨_, by rw [step, spdStrCreate, calloc_eq hsize, ok_bind, ok_bind], ?_⟩
    rintro d ⟨⟩
    exact inv_fresh hsize .malloc
  | threadGet n =>
    cases s with
    | none =>
      have hsize : headerSize + n < 2 ^ 64 := Nat.not_le.mp hgood
      refine ⟨_, by rw [step, spdStrThreadGet_none hsize, ok_bind], ?_⟩
      rintro d ⟨⟩
      exact inv_fresh hsize .thread
    | some d =>
      obtain ⟨s', hs', hinv⟩ := spdStrThreadGet_inv (hs d rfl) he.1 hgood
      refine ⟨_, by rw [step, hs', ok_bind], ?_⟩
      rintro d ⟨⟩
      exact hinv
  | set text =>
    cases s with
    | none => exact absurd he.1 (by simp)
    | some d =>
      obtain ⟨s', hs', hinv, -⟩ := spdStrSet_eq env fuel (hs d rfl) (not_not.mp hgood)
      refine ⟨_, by rw [step, hs', ok_bind], ?_⟩
      rintro d ⟨⟩
      exact hinv
  | append text =>
    cases s with
    | none => exact absurd he.1 (by simp)
    | some d =>
      obtain ⟨s', hs', hinv⟩ := spdStrAppend_eq env fuel (hs d rfl) (not_not.mp hgood)
      refine ⟨_, by rw [step, hs', ok_bind], ?_⟩
      rintro d ⟨⟩
      exact hinv

theorem step_bad {s s' : Option Dyn} {op : Op} (hs : ∀ d ∈ s, Inv d) (he : Enabled s op)
    (hbad : Fails s op) (hstep : step env fuel s op = .ok s') : ¬ ∀ d ∈ s', AsIntended d := by
  cases op with
  | create n =>
    obtain ⟨rfl, hn⟩ := he
    rw [step, spdStrCreate, calloc_fault hn hbad] at hstep
    cases hstep
  | threadGet n =>
    cases s with
    | none =>
      rw [step, spdStrThreadGet, calloc_fault he.1 hbad] at hstep
      cases hstep
    | some d =>
      obtain ⟨hlen, hshort⟩ := hbad
      simp only [step, spdStrThreadGet, ok_bind, if_pos hlen] at hstep
      cases hstep
      intro hall
      have hstorage := (hall _ rfl).storage
      simp only at hstorage
      omega
  | set text =>
    cases s with
    | none => exact hbad.elim
    | some d =>
      obtain ⟨r, hr, -⟩ := bind_eq_ok.mp hstep
      exact absurd hr (spdStrSet_ne (hs d rfl) hbad r)
  | append text =>
    cases s with
    | none => exact hbad.elim
    | some d =>
      obtain ⟨r, hr, -⟩ := bind_eq_ok.mp hstep
      exact absurd hr (spdStrAppend_ne (hs d rfl) hbad r)

/-- Dynamic strings do what they should in a run exactly when no call of it needs a larger
    buffer and every capacity set is there: however many rounds it is given, a call that
    needs more room does not return. -/
theorem dynamicStrings_iff (env : Env) (fuel : Nat) (ops : List Op)
    (hlegal : Run.Legal (step env (fuel + 1)) Enabled none ops) :
    Run.Always (step env (fuel + 1)) (fun s => ∀ d ∈ s, AsIntended d) none ops ↔
      Run.Legal (step env (fuel + 1)) (fun s op => ¬ Fails s op) none ops := by
  have hkeeps : ∀ s : Option Dyn, (∀ d ∈ s, Inv d) → ∀ d ∈ s, AsIntended d :=
    fun _ hs d hd => (hs d hd).toAsIntended
  apply Run.always_iff_inv hkeeps (fun _ _ => step_good) (fun _ _ _ => step_bad) ops _ hlegal
  simp

end

/-! ## A text as long as the buffer -/

/-- Memory is never short. -/
def roomy : Env := ⟨true, 0⟩

/-- A string of four bytes. -/
def four : Dyn := ⟨⟨4, 0, .malloc, [0, 0, 0, 0]⟩, [], none⟩

theorem create_four (fuel : Nat) : step roomy fuel none (.create 4) = .ok (some four) := by
  rw [step, spdStrCreate, calloc_eq (by decide), ok_bind, ok_bind]
  rfl

/-- Four characters and the null byte do not fit, and `spd_str_set` never returns. -/
theorem dynamicStrings_hang :
    (∀ fuel r, spdStrSet roomy fuel four.str 0 (CString.lit "abcd") ≠ .ok r) ∧
    spdStrSet roomy 5 four.str 0 (CString.lit "abcd") = .timeout ∧
    ∀ fuel, Run.Legal (step roomy (fuel + 1)) Enabled none
        [.create 4, .set (CString.lit "abcd")] ∧
      ¬ Run.Always (step roomy (fuel + 1)) (fun s => ∀ d ∈ s, AsIntended d) none
        [.create 4, .set (CString.lit "abcd")] := by
  have hne : ∀ fuel r, spdStrSet roomy fuel four.str 0 (CString.lit "abcd") ≠ .ok r :=
    fun fuel r => spdStrSet_ne (inv_fresh (n := 4) (by decide) .malloc)
      (by simp [Fits, CString.lit]) r
  refine ⟨hne, by decide +kernel, fun fuel => ⟨?_, ?_⟩⟩
  · refine Run.legal_cons_of_ok (create_four _) ⟨rfl, by decide⟩ ⟨?_, fun _ _ => trivial⟩
    exact ⟨rfl, by decide⟩
  · rintro ⟨-, s, hs, -, s', hs', -⟩
    obtain rfl := Outcome.ok.inj ((create_four _).symm.trans hs)
    obtain ⟨r, hr, -⟩ := bind_eq_ok.mp hs'
    exact hne _ r hr

/-- Three characters fit. -/
theorem dynamicStrings_iff_fits :
    Run.Always (step roomy 1) (fun s => ∀ d ∈ s, AsIntended d) none
      [.create 4, .set (CString.lit "ab"), .append (CString.lit "c")] := by
  have hset : step roomy 1 (some four) (.set (CString.lit "ab"))
      = .ok (some ⟨⟨4, 2, .malloc, [97, 98, 0, 0]⟩, [97, 98], some (2, [97, 98])⟩) := by
    decide +kernel
  apply (dynamicStrings_iff roomy 0 _ _).mpr
  · refine Run.legal_cons_of_ok (create_four _) ?_ (Run.legal_cons_of_ok hset ?_ ⟨?_,
      fun _ _ => trivial⟩)
    · exact Nat.not_le.mpr (by decide)
    · exact not_not.mpr ⟨by decide, by decide⟩
    · exact not_not.mpr ⟨by decide, by decide⟩
  · refine Run.legal_cons_of_ok (create_four _) ⟨rfl, by decide⟩ (Run.legal_cons_of_ok hset ?_
      ⟨?_, fun _ _ => trivial⟩)
    · exact ⟨rfl, by decide⟩
    · exact ⟨rfl, by decide⟩

end Spider.DynamicString
