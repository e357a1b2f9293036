import Mathlib.Data.Finset.Erase
import Mathlib.Data.Finset.Insert
import Mathlib.Logic.Function.Basic
import Spider.DynamicString

/-!
# Thread-local dynamic strings

A thread-local dynamic string (`struct spd_dynamic_str`, `threadprivdata.h:121-124`)
is a length and a buffer. Each thread has one of its own, which is made when the
thread first asks for it and grows when a text does not fit; the destructor of the
key frees it when the thread ends. The function that fills it asks to be called
again when it has made the string longer. The key has been made, and
`pthread_setspecific` sets it.
-/

namespace Spider.Threadprivdata

open Lib Outcome CString
open DynamicString (writeAt vsnprintf sizeT intMax writeAt_eq sizeT_natCast)

/-- `struct spd_dynamic_str`; `str` are the bytes allocated behind the header. -/
structure SpdDynamicStr where
  len : Nat
  str : List UInt8
  deriving DecidableEq, Repr

/-- What the functions find outside: the bytes that `realloc` adds, and what their caller reads
    from a function that ends without a `return`. -/
structure Env where
  added : Nat → UInt8
  noReturn : Int

/-- `SPD_DNMCSTR_BUILD_FAILEDD` and `SPD_DNMCSTR_BUILD_RETRY`. -/
def SPD_DNMCSTR_BUILD_FAILEDD : Int := -1

@[inherit_doc SPD_DNMCSTR_BUILD_FAILEDD]
def SPD_DNMCSTR_BUILD_RETRY : Int := -2

/-- `strlen`. -/
def strlen (str : List UInt8) : Outcome Nat :=
  if 0 ∈ str then .ok (cut str).length else .fault

/-- `realloc` to a block with `len` bytes behind the header. -/
def realloc (env : Env) (str : List UInt8) (len : Nat) : List UInt8 :=
  str.take len ++ (List.range (len - str.length)).map env.added

/-- Where the text goes (`threadprivdata.c:62`). -/
def textOffset (append : Bool) (d : SpdDynamicStr) : Outcome Nat :=
  if append ∧ d.len ≠ 0 then strlen d.str else .ok 0

/-- What was appended is taken back before the next try (`threadprivdata.c:82-83`). -/
def takeBack (append : Bool) (str : List UInt8) (offset : Int) : Outcome (List UInt8) :=
  if append then writeAt str offset [0] else .ok str

/-- `spd_thread_dynamic_str_build_helper` (`threadprivdata.c:58-94`): the result, and the string
    that the thread has afterwards. `text` is what the format and its arguments make, and `room`
    says whether there is memory. -/
def buildHelper (env : Env) (room : Bool) (maxLen : Nat) (append : Bool) (text : CString)
    (d : SpdDynamicStr) : Outcome (Int × SpdDynamicStr) := do
  let n ← textOffset append d
  let offset := Int.bmod n (2 ^ 32)
  let (str, res) ← vsnprintf d.str offset (sizeT (d.len - offset)) text
  let need := res + offset + 1
  if intMax < need then .fault
  else if d.len < sizeT need ∧ (maxLen = 0 ∨ d.len < maxLen) then
    let len := if maxLen ≠ 0 ∧ ¬ sizeT need < maxLen then maxLen else sizeT need
    -- The length is set before there is room for it.
    if room = false then .ok (SPD_DNMCSTR_BUILD_FAILEDD, ⟨len, str⟩)
    else do
      let str ← takeBack append (realloc env str len) offset
      .ok (SPD_DNMCSTR_BUILD_RETRY, ⟨len, str⟩)
  else .ok (env.noReturn, ⟨d.len, str⟩)

/-- `spd_thread_dynamic_str_set_helper` and `spd_thread_dynamic_str_append_helper`
    (`threadprivdata.h:213-222`, `231-240`). -/
def helper (env : Env) (room : Bool) (maxLen : Nat) (append : Bool) (text : CString) :
    Nat → SpdDynamicStr → Outcome (Int × SpdDynamicStr)
  | 0, _ => .timeout
  | fuel + 1, d => do
    let (res, d) ← buildHelper env room maxLen append text d
    if res = SPD_DNMCSTR_BUILD_RETRY then helper env room maxLen append text fuel d
    else .ok (res, d)

/-- `spd_dynamic_str_get` and `spd_threadprivdata_get` (`threadprivdata.c:16-56`), when there is
    memory: the string of the thread is made at the first call. -/
def spdDynamicStrGet (old : Option SpdDynamicStr) (len : Nat) : SpdDynamicStr :=
  let buf := match old with
    | some d => d
    | none => ⟨0, List.replicate len 0⟩
  if buf.len = 0 then { buf with len := len } else buf

/-- What a string is to hold: how long it has become, and its text. -/
structure Text where
  size : Nat
  content : CString
  deriving DecidableEq, Repr

/-- How long a string becomes for a text that needs `need` bytes. -/
def grown (size maxLen need : Nat) : Nat :=
  if size < need ∧ (maxLen = 0 ∨ size < maxLen) then
    if maxLen = 0 then need else min need maxLen
  else size

/-- What is kept of the text. -/
def Text.kept (t : Text) (append : Bool) : CString := if append then t.content else []

/-- The text is set or appended: it is kept as far as the string may grow. -/
def Text.put (t : Text) (maxLen : Nat) (append : Bool) (text : CString) : Text :=
  let whole := t.kept append ++ text
  let size := grown t.size maxLen (whole.length + 1)
  ⟨size, cut (whole.take (size - 1))⟩

/-- The string of a thread, with what it is to hold. -/
structure Local where
  str : SpdDynamicStr
  text : Text
  deriving DecidableEq, Repr

/-- The address of a block of memory. -/
abbrev Addr := Nat

/-- The string is stored in this block. -/
structure Stored extends Local where
  block : Addr
  deriving DecidableEq, Repr

inductive Op where
  /-- `spd_dynamic_str_get`; `block` is what `calloc` returns, if the thread has no string yet. -/
  | get (thread len : Nat) (block : Option Addr)
  /-- `spd_dynamic_str_set` or `spd_dynamic_str_append`; `block` is what `realloc` returns. -/
  | put (thread maxLen : Nat) (append : Bool) (text : CString) (block : Option Addr)
  /-- The thread ends, and the destructor of the key, which is `free`, gets its string
      (`threadprivdata.h:55-56`, `97`). -/
  | exit (thread : Nat)
  deriving DecidableEq, Repr

/-- The strings that the threads have under the key, and the blocks that are allocated. -/
structure State where
  key : Nat → Option Stored
  live : Finset Addr

/-- No thread has a string. -/
def State.start : State := ⟨fun _ => none, ∅⟩

/-- The blocks that are allocated, apart from that of the thread. -/
def State.others (σ : State) (i : Nat) : Finset Addr :=
  match σ.key i with
  | none => σ.live
  | some l => σ.live.erase l.block

def step (env : Env) (fuel : Nat) (σ : State) : Op → Outcome State
  | .get i len block =>
    match σ.key i, block with
    | some l, _ =>
      if l.block ∈ σ.live then
        let str := spdDynamicStrGet (some l.str) len
        .ok { σ with key := Function.update σ.key i (some ⟨⟨str, l.text⟩, l.block⟩) }
      else .fault
    | none, none => .ok σ
    | none, some b =>
      let str := spdDynamicStrGet none len
      .ok ⟨Function.update σ.key i (some ⟨⟨str, ⟨len, []⟩⟩, b⟩), insert b σ.live⟩
  | .put i maxLen append text block =>
    match σ.key i with
    | none => .ok σ
    | some l =>
      if l.block ∈ σ.live then do
        let (_, str) ← helper env block.isSome maxLen append text fuel l.str
        -- The string is reallocated when its length is set anew, which happens once at most.
        let b := if str.len = l.str.len then l.block else block.getD l.block
        .ok ⟨Function.update σ.key i (some ⟨⟨str, l.text.put maxLen append text⟩, b⟩),
          insert b (σ.others i)⟩
      else .fault
  | .exit i =>
    match σ.key i with
    | none => .ok σ
    | some l =>
      if l.block ∈ σ.live then .ok ⟨Function.update σ.key i none, σ.others i⟩ else .fault

/-- `sizeof(struct spd_dynamic_str)`. -/
def headerSize : Nat := 8

/-- The size of a new string is a `size_t`, a string has to be there before it is filled, and
    memory that is allocated is new, or the block that is given back. -/
def Enabled (σ : State) : Op → Prop
  | .get _ len block => headerSize + len < 2 ^ 64 ∧ ∀ b ∈ block, b ∉ σ.live
  | .put i _ _ _ block => (σ.key i).isSome ∧ ∀ b ∈ block, b ∉ σ.others i
  | .exit _ => True

/-- The string is as long as it should be and there is room for it, and it holds its text. -/
structure AsIntended (l : Local) : Prop where
  size : l.str.len = l.text.size
  room : l.str.len ≤ l.str.str.length
  text : 0 < l.str.len → ∃ behind, l.str.str = l.text.content ++ 0 :: behind
  noNul : NoNul l.text.content

/-- The strings are as intended; each thread that has one has a block of its own, and what is
    allocated are these blocks. -/
structure Intended (σ : State) : Prop where
  strings : ∀ i l, σ.key i = some l → AsIntended l.toLocal
  own : ∀ i j l l', σ.key i = some l → σ.key j = some l' → l.block = l'.block → i = j
  live : ∀ b, b ∈ σ.live ↔ ∃ i l, σ.key i = some l ∧ l.block = b

/-- How many bytes a text needs. -/
def Text.need (t : Text) (append : Bool) (text : CString) : Nat :=
  (t.kept append ++ text).length + 1

/-- The caller reads the request to call again from a function that returned nothing, the text is
    longer than an `int` says, or there is no memory for the string to grow; and a string of no
    length is asked for with a length. -/
def Fails (env : Env) (σ : State) : Op → Prop
  | .get i len _ => ∃ l ∈ σ.key i, l.text.size = 0 ∧ len ≠ 0
  | .put i maxLen append text block => ∃ l ∈ σ.key i,
    env.noReturn = SPD_DNMCSTR_BUILD_RETRY ∨ intMax < l.text.need append text ∨
      block = none ∧ grown l.text.size maxLen (l.text.need append text) ≠ l.text.size
  | .exit _ => False

instance (σ : State) : (op : Op) → Decidable (Enabled σ op)
  | .get _ _ _ => inferInstanceAs (Decidable (_ < _ ∧ ∀ _ ∈ _, _ ∉ _))
  | .put _ _ _ _ _ => inferInstanceAs (Decidable (_ = true ∧ ∀ _ ∈ _, _ ∉ _))
  | .exit _ => isTrue trivial

instance (env : Env) (σ : State) : (op : Op) → Decidable (Fails env σ op)
  | .get _ _ _ => inferInstanceAs (Decidable (∃ _, _))
  | .put _ _ _ _ _ => inferInstanceAs (Decidable (∃ _, _))
  | .exit _ => isFalse id

/-- As intended, with the bounds of the machine integers; the block is no longer than the
    string. -/
structure Inv (l : Local) : Prop extends AsIntended l where
  exact : l.str.str.length = l.str.len
  bound : l.str.len < 2 ^ 64
  short : (l.text.content.length : Int) ≤ intMax
  empty : l.str.len = 0 → l.text.content = []

section

variable {env : Env} {l : Local} {text : CString} {append room : Bool} {maxLen fuel : Nat}
  {d : SpdDynamicStr} {kept : CString}

/-- The buffer after the text is written behind what is kept. -/
def written (d : SpdDynamicStr) (kept text : CString) : List UInt8 :=
  if d.len = 0 then d.str
  else
    let part := text.take (d.len - kept.length - 1) ++ [0]
    d.str.take kept.length ++ part ++ d.str.drop (kept.length + part.length)

/-- What a call finds in front of the text: the string has room for it, and its length is the
    offset. -/
structure Front (d : SpdDynamicStr) (append : Bool) (kept : CString) : Prop where
  room : d.len ≤ d.str.length
  bound : d.len < 2 ^ 64
  offset : textOffset append d = .ok kept.length
  text : d.str.take kept.length = kept
  fits : kept.length < d.len ∨ d.len = 0 ∧ kept = []
  short : (kept.length : Int) ≤ intMax

theorem length_written (h : Front d append kept) (text : CString) :
    (written d kept text).length = d.str.length := by
  have hroom := h.room
  unfold written
  split
  · rfl
  · rcases h.fits with hlt | ⟨hzero, -⟩
    · simp only [List.length_append, List.length_take, List.length_drop, List.length_singleton]
      omega
    · contradiction

theorem vsnprintf_eq (h : Front d append kept) (text : CString) :
    vsnprintf d.str kept.length (sizeT (d.len - kept.length)) text =
      .ok (written d kept text, text.length) := by
  have hroom := h.room
  have hbound := h.bound
  unfold vsnprintf written
  rcases h.fits with hlt | ⟨hzero, rfl⟩
  · have hsub : (d.len : Int) - kept.length = ((d.len - kept.length : Nat) : Int) := by omega
    rw [hsub, sizeT_natCast (by omega), if_neg (by omega), if_neg (by omega), writeAt_eq]
    · rfl
    · rw [List.length_append, List.length_take, List.length_singleton]
      omega
  · have hsize : sizeT ((d.len : Int) - ([] : CString).length) = 0 := by
      rw [hzero]
      rfl
    rw [hsize, if_pos rfl, if_pos hzero]

/-- One round. -/
theorem buildHelper_eq (env : Env) (room : Bool) (maxLen : Nat) (h : Front d append kept)
    (text : CString) : buildHelper env room maxLen append text d =
      let need := (kept ++ text).length + 1
      let len := grown d.len maxLen need
      if intMax < (need : Int) then .fault
      else if len ≠ d.len then
        if room = false then .ok (SPD_DNMCSTR_BUILD_FAILEDD, ⟨len, written d kept text⟩)
        else do
          let str ← takeBack append (realloc env (written d kept text) len) kept.length
          .ok (SPD_DNMCSTR_BUILD_RETRY, ⟨len, str⟩)
      else .ok (env.noReturn, ⟨d.len, written d kept text⟩) := by
  have hshort := h.short
  rw [intMax] at hshort
  have hoffset : Int.bmod kept.length (2 ^ 32) = kept.length :=
    Int.bmod_eq_of_le (by omega) (by omega)
  have hneed : (text.length : Int) + kept.length + 1 = ((kept ++ text).length + 1 : Nat) := by
    rw [List.length_append]
    omega
  unfold buildHelper
  rw [h.offset, ok_bind]
  simp only [hoffset]
  rw [vsnprintf_eq h, ok_bind]
  simp only [hneed]
  by_cases hint : intMax < (((kept ++ text).length + 1 : Nat) : Int)
  · rw [if_pos hint, if_pos hint]
  · have hsize : sizeT (((kept ++ text).length + 1 : Nat) : Int) = (kept ++ text).length + 1 := by
      rw [intMax] at hint
      exact sizeT_natCast (by omega)
    rw [if_neg hint, if_neg hint, hsize]
    by_cases hgrow : d.len < (kept ++ text).length + 1 ∧ (maxLen = 0 ∨ d.len < maxLen)
    · have hlen : (if maxLen ≠ 0 ∧ ¬ (kept ++ text).length + 1 < maxLen then maxLen
          else (kept ++ text).length + 1) = grown d.len maxLen ((kept ++ text).length + 1) := by
        rw [grown, if_pos hgrow]
        split <;> split <;> omega
      have hne : grown d.len maxLen ((kept ++ text).length + 1) ≠ d.len := by
        rw [grown, if_pos hgrow]
        split <;> omega
      rw [if_pos hgrow, if_pos hne, hlen]
    · have heq : grown d.len maxLen ((kept ++ text).length + 1) = d.len := by
        rw [grown, if_neg hgrow]
      rw [if_neg hgrow, if_neg (not_not_intro heq)]

/-- A string that is long enough, or as long as it may become, does not grow. -/
theorem grown_grown (size maxLen need : Nat) :
    grown (grown size maxLen need) maxLen need = grown size maxLen need := by
  unfold grown
  split
  · split <;> split <;> omega
  · rfl

theorem le_grown (size maxLen need : Nat) : size ≤ grown size maxLen need := by
  unfold grown
  split <;> [split <;> omega; omega]

theorem grown_pos {need : Nat} (size maxLen : Nat) (h : 0 < need) : 0 < grown size maxLen need := by
  unfold grown
  split <;> [split <;> omega; omega]

theorem grown_le (size maxLen need : Nat) : grown size maxLen need ≤ max size need := by
  unfold grown
  split <;> [split <;> omega; omega]

/-- What is written: the text, as far as there is room. -/
theorem written_text (h : Front d append kept) (hpos : 0 < d.len) (text : CString) :
    ∃ behind, written d kept text = (kept ++ text).take (d.len - 1) ++ 0 :: behind := by
  rcases h.fits with hlt | ⟨hzero, -⟩
  · have hcut : d.len - kept.length - 1 = d.len - 1 - kept.length := by omega
    refine ⟨d.str.drop (kept.length + (text.take (d.len - kept.length - 1) ++ [0]).length), ?_⟩
    rw [List.take_append, List.take_of_length_le (by omega), written, if_neg (by omega)]
    simp only [h.text, hcut, List.append_assoc, List.singleton_append]
  · omega

theorem length_realloc (env : Env) (str : List UInt8) {len : Nat} (h : str.length ≤ len) :
    (realloc env str len).length = len := by
  rw [realloc, List.length_append, List.length_take, List.length_map, List.length_range]
  omega

theorem strlen_eq {behind : List UInt8} (h : NoNul kept) :
    strlen (kept ++ 0 :: behind) = .ok kept.length := by
  rw [strlen, if_pos (by simp), cut_append_zero h]

/-- The first call finds what the string holds. -/
theorem Inv.front (hi : Inv l) (append : Bool) : Front l.str append (l.text.kept append) where
  room := hi.room
  bound := hi.bound
  offset := by
    unfold textOffset Text.kept
    by_cases h : append = true ∧ l.str.len ≠ 0
    · obtain ⟨behind, hstr⟩ := hi.text (Nat.pos_of_ne_zero h.2)
      rw [if_pos h, if_pos h.1, hstr, strlen_eq hi.noNul]
    · rw [if_neg h]
      split
      next ha =>
        have hzero : l.str.len = 0 := by
          by_contra hne
          exact h ⟨ha, hne⟩
        rw [hi.empty hzero]
        rfl
      next => rfl
  text := by
    unfold Text.kept
    split
    next =>
      by_cases hzero : l.str.len = 0
      · rw [hi.empty hzero]
        rfl
      · obtain ⟨behind, hstr⟩ := hi.text (Nat.pos_of_ne_zero hzero)
        rw [hstr, List.take_left]
    next => rfl
  fits := by
    by_cases hzero : l.str.len = 0
    · refine Or.inr ⟨hzero, ?_⟩
      unfold Text.kept
      rw [hi.empty hzero, ite_self]
    · obtain ⟨behind, hstr⟩ := hi.text (Nat.pos_of_ne_zero hzero)
      have hlen := hi.exact
      rw [hstr, List.length_append, List.length_cons] at hlen
      refine Or.inl ?_
      unfold Text.kept
      split
      next => omega
      next => exact Nat.pos_of_ne_zero hzero
  short := by
    unfold Text.kept
    split
    next => exact hi.short
    next => exact (by decide : (0 : Int) ≤ intMax)

/-- The second call finds what the first one did. -/
theorem Front.grown (h : Front d append kept) (hnul : NoNul kept)
    (hexact : d.str.length = d.len) (hkept : append = false → kept = []) (text : CString)
    {len : Nat} (hlt : d.len < len) (hbound : len < 2 ^ 64) (env : Env) :
    ∃ str, takeBack append (realloc env (written d kept text) len) kept.length = .ok str ∧
      str.length = len ∧ Front ⟨len, str⟩ append kept := by
  have hlength := length_written h text
  have hreal := @length_realloc env (written d kept text) len (by omega)
  have hk : kept.length < len := by
    rcases h.fits with hlt' | ⟨-, rfl⟩
    · omega
    · exact Nat.zero_lt_of_lt hlt
  have htake : (realloc env (written d kept text) len).take kept.length = kept := by
    rcases h.fits with hlt' | ⟨-, rfl⟩
    · obtain ⟨behind, hwritten⟩ := written_text h (by omega) text
      have hle : kept.length ≤ d.len - 1 := by omega
      rw [realloc, List.take_append_of_le_length, List.take_take, hwritten,
        Nat.min_eq_left (by omega), List.take_append_of_le_length, List.take_take,
        Nat.min_eq_left hle, List.take_left]
      · rw [List.length_take, List.length_append]
        omega
      · rw [List.length_take, hlength]
        omega
    · rfl
  cases append with
  | false =>
    obtain rfl := hkept rfl
    exact ⟨_, rfl, hreal, Nat.le_of_eq hreal.symm, hbound, rfl, rfl, Or.inl hk, h.short⟩
  | true =>
    have hwrite : takeBack true (realloc env (written d kept text) len) kept.length =
        .ok (kept ++ [0] ++ (realloc env (written d kept text) len).drop (kept.length + 1)) := by
      unfold takeBack
      rw [if_pos rfl, writeAt_eq, htake]
      · rfl
      · rw [hreal]
        exact hk
    have hlen : (kept ++ [0] ++ (realloc env (written d kept text) len).drop
        (kept.length + 1)).length = len := by
      rw [List.length_append, List.length_append, List.length_drop, hreal, List.length_singleton]
      omega
    refine ⟨_, hwrite, hlen, Nat.le_of_eq hlen.symm, hbound, ?_, ?_, Or.inl hk, h.short⟩
    · unfold textOffset
      rw [if_pos ⟨rfl, Nat.ne_of_gt (Nat.zero_lt_of_lt hk)⟩, List.append_assoc]
      exact strlen_eq hnul
    · rw [List.append_assoc, List.take_left]

/-- A call that finds the string long enough. -/
theorem helper_done (hret : env.noReturn ≠ SPD_DNMCSTR_BUILD_RETRY) (h : Front d append kept)
    (hint : ¬ intMax < ((kept ++ text).length + 1 : Nat))
    (hlen : grown d.len maxLen ((kept ++ text).length + 1) = d.len) (fuel : Nat) :
    helper env room maxLen append text (fuel + 1) d =
      .ok (env.noReturn, ⟨d.len, written d kept text⟩) := by
  rw [helper, buildHelper_eq env room maxLen h text]
  simp only
  rw [if_neg hint, if_neg (not_not_intro hlen), ok_bind]
  simp only
  rw [if_neg hret]

/-- What a call leaves behind when it finds the string long enough. -/
theorem Front.inv (h : Front d append kept) (hexact : d.str.length = d.len) (hpos : 0 < d.len)
    (hint : ¬ intMax < ((kept ++ text).length + 1 : Nat)) :
    Inv ⟨⟨d.len, written d kept text⟩, ⟨d.len, cut ((kept ++ text).take (d.len - 1))⟩⟩ := by
  have hlength := length_written h text
  refine ⟨⟨rfl, ?_, ?_, noNul_cut _⟩, ?_, h.bound, ?_, ?_⟩
  · exact Nat.le_of_eq (hexact.symm.trans hlength.symm)
  · intro _
    obtain ⟨behind, hwritten⟩ := written_text h hpos text
    obtain ⟨behind', hcut⟩ := exists_cut ((kept ++ text).take (d.len - 1)) behind
    exact ⟨behind', hwritten.trans hcut⟩
  · exact hlength.trans hexact
  · have hle := length_cut_le ((kept ++ text).take (d.len - 1))
    rw [List.length_take] at hle
    dsimp only
    omega
  · intro hzero
    dsimp only at hzero
    omega

/-- A call that does not fail: the string has become long enough, and the text is written behind
    what is kept. -/
theorem helper_written (hret : env.noReturn ≠ SPD_DNMCSTR_BUILD_RETRY) (h : Front d append kept)
    (hnul : NoNul kept) (hexact : d.str.length = d.len) (hkept : append = false → kept = [])
    (hint : ¬ intMax < ((kept ++ text).length + 1 : Nat))
    (hroom : room = true ∨ grown d.len maxLen ((kept ++ text).length + 1) = d.len) (fuel : Nat) :
    ∃ str : List UInt8, str.length = grown d.len maxLen ((kept ++ text).length + 1) ∧
      Front ⟨str.length, str⟩ append kept ∧
      helper env room maxLen append text (fuel + 2) d =
        .ok (env.noReturn, ⟨str.length, written ⟨str.length, str⟩ kept text⟩) := by
  by_cases hlen : grown d.len maxLen ((kept ++ text).length + 1) = d.len
  · obtain ⟨len, str⟩ := d
    obtain rfl : str.length = len := hexact
    exact ⟨str, hlen.symm, h, helper_done hret h hint hlen _⟩
  · have htrue := hroom.resolve_right hlen
    have hlt := Nat.lt_of_le_of_ne (le_grown d.len maxLen _) (Ne.symm hlen)
    have hbound : grown d.len maxLen ((kept ++ text).length + 1) < 2 ^ 64 := by
      have hle := grown_le d.len maxLen ((kept ++ text).length + 1)
      have hb := h.bound
      rw [intMax] at hint
      omega
    obtain ⟨str, hback, hstr, h'⟩ := h.grown hnul hexact hkept text hlt hbound env
    rw [← hstr] at h'
    refine ⟨str, hstr, h', ?_⟩
    rw [helper, buildHelper_eq env room maxLen h text]
    simp only
    rw [if_neg hint, if_pos hlen, if_neg (by simp [htrue]), hback, ok_bind, ok_bind]
    simp only
    rw [if_pos trivial, ← hstr]
    exact helper_done hret h' hint (by rw [hstr, grown_grown]) fuel

/-- A call that fails for want of memory has set the length all the same. -/
theorem helper_failed (h : Front d append kept)
    (hlen : grown d.len maxLen ((kept ++ text).length + 1) ≠ d.len) (fuel : Nat) :
    helper env false maxLen append text (fuel + 1) d =
      if intMax < ((kept ++ text).length + 1 : Nat) then .fault
      else .ok (SPD_DNMCSTR_BUILD_FAILEDD,
        ⟨grown d.len maxLen ((kept ++ text).length + 1), written d kept text⟩) := by
  rw [helper, buildHelper_eq env false maxLen h text]
  simp only
  rw [if_pos hlen, if_pos trivial]
  split
  next => rfl
  next =>
    rw [ok_bind]
    simp only
    rw [if_neg (by decide)]

/-- A call that does not fail puts what it should into the string. -/
theorem helper_put (hret : env.noReturn ≠ SPD_DNMCSTR_BUILD_RETRY) (hi : Inv l)
    (hint : ¬ intMax < l.text.need append text)
    (hroom : room = true ∨ grown l.text.size maxLen (l.text.need append text) = l.text.size)
    (fuel : Nat) : ∃ str, helper env room maxLen append text (fuel + 2) l.str =
      .ok (env.noReturn, str) ∧ Inv ⟨str, l.text.put maxLen append text⟩ := by
  have h := hi.front append
  have hpos := grown_pos l.str.len maxLen (Nat.succ_pos (l.text.kept append ++ text).length)
  have hnul : NoNul (l.text.kept append) := by
    unfold Text.kept
    split
    next => exact hi.noNul
    next => exact List.forall_mem_nil _
  rw [Text.need] at hint
  rw [Text.need, ← hi.size] at hroom
  obtain ⟨str, hstr, h', hcall⟩ := helper_written hret h hnul hi.exact
    (fun ha => by rw [Text.kept, ha]; rfl) hint hroom fuel
  refine ⟨_, hcall, ?_⟩
  simp only [Text.put]
  rw [← hi.size, ← hstr]
  exact h'.inv rfl (hstr ▸ hpos) hint

/-- A call that fails for want of memory leaves a string longer than its block. -/
theorem helper_short (hi : Inv l) (hroom : room = false)
    (hlen : grown l.text.size maxLen (l.text.need append text) ≠ l.text.size)
    {r : Int × SpdDynamicStr}
    (hr : helper env room maxLen append text (fuel + 1) l.str = .ok r) :
    r.2.str.length < r.2.len := by
  have h := hi.front append
  rw [Text.need, ← hi.size] at hlen
  rw [hroom, helper_failed h hlen] at hr
  split at hr
  next => cases hr
  next =>
    obtain rfl := Outcome.ok.inj hr
    dsimp only
    rw [length_written h, hi.exact]
    exact Nat.lt_of_le_of_ne (le_grown l.str.len maxLen _) (Ne.symm hlen)

theorem length_writeAt {buf buf' bytes : List UInt8} {i : Int} (h : writeAt buf i bytes = .ok buf') :
    buf'.length = buf.length := by
  unfold writeAt at h
  split at h
  next hin =>
    obtain rfl := Outcome.ok.inj h
    simp only [List.length_append, List.length_take, List.length_drop]
    omega
  next => cases h

theorem length_vsnprintf {buf : List UInt8} {i : Int} {size : Nat} {r : List UInt8 × Int}
    (h : vsnprintf buf i size text = .ok r) : r.1.length = buf.length := by
  unfold vsnprintf at h
  split at h
  next =>
    obtain rfl := Outcome.ok.inj h
    rfl
  next =>
    obtain ⟨buf', hwrite, hr⟩ := bind_eq_ok.mp h
    obtain rfl := Outcome.ok.inj hr
    exact length_writeAt hwrite

/-- A round keeps the block as long as the string, unless it fails. -/
theorem buildHelper_length (hexact : d.str.length = d.len) {r : Int × SpdDynamicStr}
    (hr : buildHelper env room maxLen append text d = .ok r) :
    r.2.str.length = r.2.len ∧ (r.1 = SPD_DNMCSTR_BUILD_RETRY ∨ r.1 = env.noReturn) ∨
      r.1 = SPD_DNMCSTR_BUILD_FAILEDD ∧ r.2.str.length < r.2.len := by
  obtain ⟨n, -, hr⟩ := bind_eq_ok.mp hr
  obtain ⟨⟨str, res⟩, hprint, hr⟩ := bind_eq_ok.mp hr
  have hlength := length_vsnprintf hprint
  dsimp only at hr hlength
  split at hr
  next => cases hr
  next =>
    split at hr
    next hgrow =>
      split at hr
      next =>
        obtain rfl := Outcome.ok.inj hr
        refine Or.inr ⟨rfl, ?_⟩
        dsimp only
        split <;> omega
      next =>
        obtain ⟨str', hback, hr⟩ := bind_eq_ok.mp hr
        obtain rfl := Outcome.ok.inj hr
        refine Or.inl ⟨?_, Or.inl rfl⟩
        have hsame : ∀ {s s' : List UInt8} {i : Int}, takeBack append s i = .ok s' →
            s'.length = s.length := by
          intro s s' i h
          unfold takeBack at h
          split at h
          next => exact length_writeAt h
          next => rw [Outcome.ok.inj h]
        rw [hsame hback, length_realloc]
        split <;> omega
    next =>
      obtain rfl := Outcome.ok.inj hr
      exact Or.inl ⟨hlength.trans hexact, Or.inr rfl⟩

/-- When what the caller reads is a request to call again, only a failure ends the loop. -/
theorem helper_forever (hret : env.noReturn = SPD_DNMCSTR_BUILD_RETRY)
    (hexact : d.str.length = d.len) {r : Int × SpdDynamicStr}
    (hr : helper env room maxLen append text fuel d = .ok r) : r.2.str.length < r.2.len := by
  induction fuel generalizing d with
  | zero => cases hr
  | succ fuel ih =>
    obtain ⟨⟨res, d'⟩, hbuild, hr⟩ := bind_eq_ok.mp hr
    rcases buildHelper_length hexact hbuild with ⟨hexact', hres⟩ | ⟨hres, hshort⟩
    · rw [hret, or_self] at hres
      dsimp only at hr hres
      rw [if_pos hres] at hr
      exact ih hexact' hr
    · dsimp only at hr hres
      rw [hres, if_neg (by decide)] at hr
      obtain rfl := Outcome.ok.inj hr
      exact hshort

/-- A string that is made is as intended. -/
theorem inv_new {len : Nat} (hlen : headerSize + len < 2 ^ 64) :
    Inv ⟨spdDynamicStrGet none len, ⟨len, []⟩⟩ := by
  have hstr : spdDynamicStrGet none len = ⟨len, List.replicate len 0⟩ := rfl
  rw [headerSize] at hlen
  rw [hstr]
  refine ⟨⟨rfl, ?_, ?_, List.forall_mem_nil _⟩, ?_, ?_, ?_, fun _ => rfl⟩
  · exact Nat.le_of_eq List.length_replicate.symm
  · intro hpos
    have hpos : 0 < len := hpos
    refine ⟨List.replicate (len - 1) 0, ?_⟩
    show List.replicate len 0 = [] ++ 0 :: List.replicate (len - 1) 0
    rw [List.nil_append, ← List.replicate_succ, Nat.sub_add_cancel hpos]
  · exact List.length_replicate
  · show len < 2 ^ 64
    omega
  · exact (by decide : (0 : Int) ≤ intMax)

/-- A string that a thread has is left as it was. -/
theorem spdDynamicStrGet_same (hi : Inv l) {len : Nat} (hfails : ¬ (l.text.size = 0 ∧ len ≠ 0)) :
    spdDynamicStrGet (some l.str) len = l.str := by
  by_cases hzero : l.str.len = 0
  · have hlen : len = 0 := by
      by_contra hne
      exact hfails ⟨hi.size ▸ hzero, hne⟩
    simp only [spdDynamicStrGet, hzero, if_true, hlen]
    rw [← hzero]
  · exact if_neg hzero

/-- A string of no length gets one, but no room. -/
theorem not_intended_get (hi : Inv l) {len : Nat} (hsize : l.text.size = 0) (hlen : len ≠ 0)
    (text : Text) : ¬ AsIntended ⟨spdDynamicStrGet (some l.str) len, text⟩ := by
  intro h
  have hroom := h.room
  have hexact := hi.exact
  have hzero := hi.size.trans hsize
  simp only [spdDynamicStrGet, hzero, if_true] at hroom
  omega

variable {σ σ' : State} {op : Op} {i : Nat} {b : Addr}

/-- What is true of the strings of all threads as long as no call fails. -/
structure Invs (σ : State) : Prop where
  strings : ∀ i l, σ.key i = some l → Inv l.toLocal
  own : ∀ i j l l', σ.key i = some l → σ.key j = some l' → l.block = l'.block → i = j
  live : ∀ b, b ∈ σ.live ↔ ∃ i l, σ.key i = some l ∧ l.block = b

theorem Invs.intended (hi : Invs σ) : Intended σ :=
  ⟨fun i l hl => (hi.strings i l hl).toAsIntended, hi.own, hi.live⟩

theorem invs_start : Invs State.start where
  strings _ _ h := by cases h
  own _ _ _ _ h := by cases h
  live b := by simp [State.start]

/-- The other blocks are those of the other threads. -/
theorem Invs.mem_others (hi : Invs σ) :
    b ∈ σ.others i ↔ ∃ j l, j ≠ i ∧ σ.key j = some l ∧ l.block = b := by
  unfold State.others
  cases hkey : σ.key i with
  | none =>
    rw [hi.live]
    constructor
    · rintro ⟨j, l, hl, hb⟩
      refine ⟨j, l, ?_, hl, hb⟩
      rintro rfl
      rw [hkey] at hl
      cases hl
    · rintro ⟨j, l, -, hl, hb⟩
      exact ⟨j, l, hl, hb⟩
  | some l =>
    rw [Finset.mem_erase, hi.live]
    constructor
    · rintro ⟨hne, j, l', hl', rfl⟩
      refine ⟨j, l', ?_, hl', rfl⟩
      rintro rfl
      exact hne (congrArg Stored.block (Option.some.inj (hl'.symm.trans hkey)))
    · rintro ⟨j, l', hji, hl', rfl⟩
      exact ⟨fun heq => hji (hi.own j i l' l hl' hkey heq), j, l', hl', rfl⟩

/-- A thread gets a string in a block that is no other thread's. -/
theorem Invs.store (hi : Invs σ) {l : Stored} (hl : Inv l.toLocal) (hb : l.block ∉ σ.others i) :
    Invs ⟨Function.update σ.key i (some l), insert l.block (σ.others i)⟩ := by
  have hcases : ∀ j l', Function.update σ.key i (some l) j = some l' →
      j = i ∧ l' = l ∨ j ≠ i ∧ σ.key j = some l' := by
    intro j l' hj
    by_cases hji : j = i
    · rw [hji, Function.update_self] at hj
      exact .inl ⟨hji, (Option.some.inj hj).symm⟩
    · rw [Function.update_of_ne hji] at hj
      exact .inr ⟨hji, hj⟩
  refine ⟨?_, ?_, ?_⟩
  · intro j l' hj
    rcases hcases j l' hj with ⟨-, rfl⟩ | ⟨-, hj⟩
    · exact hl
    · exact hi.strings j l' hj
  · intro j k l' l'' hj hk heq
    rcases hcases j l' hj with ⟨hji, hl'⟩ | ⟨hji, hl'⟩ <;>
      rcases hcases k l'' hk with ⟨hki, hl''⟩ | ⟨hki, hl''⟩
    · exact hji.trans hki.symm
    · exact absurd (hi.mem_others.mpr ⟨k, l'', hki, hl'', hl' ▸ heq.symm⟩) hb
    · exact absurd (hi.mem_others.mpr ⟨j, l', hji, hl', hl'' ▸ heq⟩) hb
    · exact hi.own j k l' l'' hl' hl'' heq
  · intro b
    rw [Finset.mem_insert, hi.mem_others]
    constructor
    · rintro (rfl | ⟨j, l', hji, hj, rfl⟩)
      · exact ⟨i, l, Function.update_self .., rfl⟩
      · exact ⟨j, l', (Function.update_of_ne hji _ _).trans hj, rfl⟩
    · rintro ⟨j, l', hj, rfl⟩
      rcases hcases j l' hj with ⟨-, rfl⟩ | ⟨hji, hj⟩
      · exact .inl rfl
      · exact .inr ⟨j, l', hji, hj, rfl⟩

/-- The string of a thread that ends is freed, and no other. -/
theorem Invs.exit (hi : Invs σ) (i : Nat) : Invs ⟨Function.update σ.key i none, σ.others i⟩ := by
  have hcases : ∀ j l, Function.update σ.key i none j = some l ↔ j ≠ i ∧ σ.key j = some l := by
    intro j l
    by_cases hji : j = i
    · simp [hji]
    · simp [hji, Function.update_of_ne]
  refine ⟨?_, ?_, ?_⟩
  · intro j l hj
    exact hi.strings j l ((hcases j l).mp hj).2
  · intro j k l l' hj hk
    exact hi.own j k l l' ((hcases j l).mp hj).2 ((hcases k l').mp hk).2
  · intro b
    rw [hi.mem_others]
    simp only [hcases, and_assoc]

theorem Invs.notMem_others (hi : Invs σ) {l : Stored} (hl : σ.key i = some l) :
    l.block ∈ σ.live ∧ l.block ∉ σ.others i := by
  refine ⟨(hi.live _).mpr ⟨i, l, hl, rfl⟩, ?_⟩
  simp [State.others, hl]

theorem step_good (hi : Invs σ) (he : Enabled σ op) (hf : ¬ Fails env σ op) :
    ∃ σ', step env (fuel + 2) σ op = .ok σ' ∧ Invs σ' := by
  cases op with
  | get i len block =>
    cases hl : σ.key i with
    | none =>
      have hothers : σ.others i = σ.live := by rw [State.others, hl]
      cases block with
      | none => exact ⟨σ, by simp only [step, hl], hi⟩
      | some b =>
        have hnew : Inv (Stored.mk ⟨spdDynamicStrGet none len, ⟨len, []⟩⟩ b).toLocal := inv_new he.1
        refine ⟨_, by simp only [step, hl]; rfl, ?_⟩
        rw [← hothers]
        exact hi.store hnew (hothers ▸ he.2 b rfl)
    | some l =>
      obtain ⟨hlive, hb⟩ := hi.notMem_others hl
      have hinv := hi.strings i l hl
      have hsame := @spdDynamicStrGet_same _ hinv len fun h => hf ⟨l, hl, h⟩
      refine ⟨σ, ?_, hi⟩
      simp only [step, hl, if_pos hlive, hsame]
      rw [← hl, Function.update_eq_self]
  | put i maxLen append text block =>
    obtain ⟨hsome, hnew⟩ := he
    obtain ⟨l, hl⟩ := Option.isSome_iff_exists.mp hsome
    obtain ⟨hlive, hb⟩ := hi.notMem_others hl
    have hnot : ¬ (env.noReturn = SPD_DNMCSTR_BUILD_RETRY ∨ intMax < l.text.need append text ∨
        block = none ∧ grown l.text.size maxLen (l.text.need append text) ≠ l.text.size) :=
      fun h => hf ⟨l, hl, h⟩
    rw [not_or, not_or, not_and_or, not_not] at hnot
    obtain ⟨hret, hint, hroom⟩ := hnot
    have hroom' : block.isSome = true ∨
        grown l.text.size maxLen (l.text.need append text) = l.text.size :=
      hroom.imp_left Option.isSome_iff_ne_none.mpr
    obtain ⟨str, hput, hinv⟩ := helper_put hret (hi.strings i l hl) hint hroom' fuel
    let b := if str.len = l.str.len then l.block else block.getD l.block
    have hb' : b ∉ σ.others i := by
      dsimp only [b]
      split
      next => exact hb
      next =>
        cases block with
        | none => exact hb
        | some b' => exact hnew b' rfl
    have hinv : Inv (Stored.mk ⟨str, l.text.put maxLen append text⟩ b).toLocal := hinv
    exact ⟨_, by simp only [step, hl, if_pos hlive, hput, ok_bind]; rfl, hi.store hinv hb'⟩
  | exit i =>
    cases hl : σ.key i with
    | none => exact ⟨σ, by simp only [step, hl], hi⟩
    | some l =>
      have hlive := (hi.notMem_others hl).1
      exact ⟨_, by simp only [step, hl, if_pos hlive], hi.exit i⟩

theorem step_bad (hi : Invs σ) (hf : Fails env σ op)
    (hstep : step env (fuel + 2) σ op = .ok σ') : ¬ Intended σ' := by
  intro hintended
  cases op with
  | get i len block =>
    obtain ⟨l, hl, hsize, hlen⟩ := hf
    have hl : σ.key i = some l := hl
    simp only [step, hl, if_pos (hi.notMem_others hl).1] at hstep
    obtain rfl := Outcome.ok.inj hstep
    exact not_intended_get (hi.strings i l hl) hsize hlen _
      (hintended.strings i _ (Function.update_self ..))
  | put i maxLen append text block =>
    obtain ⟨l, hl, hfail⟩ := hf
    have hl : σ.key i = some l := hl
    have hinv := hi.strings i l hl
    simp only [step, hl, if_pos (hi.notMem_others hl).1] at hstep
    obtain ⟨⟨res, str⟩, hput, hσ'⟩ := bind_eq_ok.mp hstep
    obtain rfl := Outcome.ok.inj hσ'
    have hroom := (hintended.strings i _ (Function.update_self ..)).room
    have hshort : str.str.length < str.len := by
      rcases hfail with hret | hint | ⟨rfl, hlen⟩
      · exact helper_forever hret hinv.exact hput
      · rw [helper, buildHelper_eq env block.isSome maxLen (hinv.front append) text] at hput
        rw [Text.need] at hint
        simp only at hput
        rw [if_pos hint] at hput
        cases hput
      · exact helper_short hinv rfl hlen hput
    dsimp only at hroom
    omega
  | exit i => exact hf

end

/-- Whatever the threads do with their strings, and in whatever order they end, every string holds
    what was last put into it, as far as it may grow, and what is allocated are the strings of the
    threads that have not ended, exactly as long as no call fails. -/
theorem threadStrings_iff (env : Env) (fuel : Nat) (ops : List Op)
    (hl : Run.Legal (step env (fuel + 2)) Enabled State.start ops) :
    Run.Always (step env (fuel + 2)) Intended State.start ops ↔
      Run.Legal (step env (fuel + 2)) (fun σ op => ¬ Fails env σ op) State.start ops :=
  Run.always_iff_inv (fun _ => Invs.intended) (fun _ _ hi he hf => step_good hi he hf)
    (fun _ _ _ hi _ hf hstep => step_bad hi hf hstep) ops invs_start hl

/-- Two threads: one string grows as it has to, and moves, the other up to its limit, in its place,
    and no further when it needs to. The first thread ends, a third one is refused memory for its
    string, and the place of the first is taken by another. -/
def twoThreads : List Op :=
  [.get 0 2 (some 100), .get 1 4 (some 200), .put 0 0 false (lit "abc") (some 300), .get 0 2 none,
    .put 1 6 false (lit "defg") (some 200), .put 0 0 true (lit "hi") (some 100), .exit 0,
    .put 1 6 true (lit "jkl") (some 200), .put 1 6 true (lit "m") none, .get 2 8 none,
    .get 0 3 (some 100), .exit 1]

theorem threadStrings_two :
    let env : Env := ⟨fun _ => 65, 0⟩
    Run.Always (step env 2) Intended State.start twoThreads ∧
      ∃ σ, Run.run (step env 2) State.start twoThreads = .ok σ ∧ σ.live = {100} := by
  intro env
  exact ⟨(threadStrings_iff env 0 twoThreads (by decide +kernel)).mpr (by decide +kernel),
    exists_of_run (by decide +kernel)⟩

end Spider.Threadprivdata
