import Spider.Config.Load
import Spider.Lib.Fuel

/-!
# The loop over the semicolons

The loop of `config_text_file_load` that takes the comments out of a line, as it
works in the buffer: it ends strings with null bytes, moves what follows a
comment over it, and looks for the next semicolon from `new_buf` on. `scan` is
what it does to the bytes of the line; the tokens of a line say where it ends.
-/

namespace Spider.Config.Text

open Lib Outcome CString Strings

/-- `MAX_NEXT_COMMENT`. -/
def MAX_NEXT_COMMENT : Int := 128

/-- `COMMENT_META` and `COMMENT_TAG`. -/
def COMMENT_META : UInt8 := ch ';'
@[inherit_doc COMMENT_META] def COMMENT_TAG : UInt8 := ch '-'

/-! ## The loop in the buffer -/

/-- `strchr` from position `p` of the array on. -/
def strchr (buf : List UInt8) (p : Nat) (c : UInt8) : Option Nat :=
  ((cut (buf.drop p)).idxOf? c).map (p + ·)

/-- `memmove(dst, src, strlen(src) + 1)`. -/
def moveString (buf : List UInt8) (dst src : Nat) : List UInt8 :=
  let moved := cut (buf.drop src) ++ [0]
  buf.take dst ++ moved ++ buf.drop (dst + moved.length)

/-- The variables of the loop. The pointers are positions in `buf`. -/
structure Loop where
  buf : List UInt8
  newBuf : Nat
  processBuf : Option Nat
  comment : Int
  buffers : Option Buffers
  deriving DecidableEq, Repr

/-- Back to non-comment (`config.c:843-860`): what is at `new_buf` is moved to the end of the string
    at `process_buf`. -/
def Loop.leave (s : Loop) : Loop :=
  match s.processBuf with
  | some processBuf =>
    let oldptr := processBuf + (cut (s.buf.drop processBuf)).length
    let added := (s.buf.drop (oldptr + 1)).take (s.newBuf - oldptr - 1)
    { s with
      buf := moveString s.buf oldptr s.newBuf
      newBuf := oldptr
      buffers := s.buffers.map fun b => { b with comment := b.comment ++ lit ";" ++ cut added } }
  | none => { s with processBuf := some s.newBuf }

/-- The body of the loop (`config.c:823-873`), with a semicolon at `commentP`. -/
def Loop.body (s : Loop) (commentP : Nat) : Outcome Loop :=
  if commentP > s.newBuf ∧ s.buf[commentP - 1]? = some (ch '\\') then
    .ok { s with newBuf := commentP + 1 }
  else if s.buf[commentP + 1]? = some COMMENT_TAG ∧ s.buf[commentP + 2]? = some COMMENT_TAG ∧
      s.buf[commentP + 3]? ≠ some (ch '-') then
    if s.comment < MAX_NEXT_COMMENT then
      -- `nest[comment-1]` behind the increment
      if s.comment < 0 then .fault
      else
        .ok { s with
          buf := s.buf.set commentP 0
          newBuf := commentP + 3
          comment := s.comment + 1 }
    else .ok s
  else if commentP ≥ s.newBuf + 2 ∧ s.buf[commentP - 1]? = some COMMENT_TAG ∧
      s.buf[commentP - 2]? = some COMMENT_TAG then
    let s : Loop := { s with comment := s.comment - 1, newBuf := commentP + 1 }
    if s.comment = 0 then .ok s.leave else .ok s
  else if s.comment = 0 then
    .ok { s with
      buf := s.buf.set commentP 0
      newBuf := commentP
      buffers := s.buffers.map fun b =>
        { b with lline := b.lline ++ cut (s.buf.drop commentP) } }
  else .ok { s with newBuf := commentP + 1 }

/-- `while ((comment_p = strchr(new_buf, COMMENT_META)))`. -/
def commentLoop : Nat → Loop → Outcome Loop
  | 0, _ => .timeout
  | fuel + 1, s =>
    match strchr s.buf s.newBuf COMMENT_META with
    | none => .ok s
    | some commentP => do
      let s ← s.body commentP
      commentLoop fuel s

/-- The variables when a line has been read (`config.c:817-821`): `fgets` has put `bytes` and a null
    byte over what was in the array. -/
def Loop.start (bytes behind : List UInt8) (comment : Int) (buffers : Option Buffers) : Loop :=
  { buf := bytes ++ 0 :: behind
    newBuf := 0
    processBuf := if comment = 0 then some 0 else none
    comment := comment
    buffers := buffers }

/-! ## What the loop does to the bytes of the line -/

/-- The bytes from `process_buf` to `new_buf`. -/
def Kept.bytes : Kept → List UInt8
  | .live text => text
  | .cut text gap => text ++ 0 :: gap

/-- The string at `process_buf`, as far as it is before `new_buf`. -/
def Kept.text : Kept → CString
  | .live text => text
  | .cut text _ => text

@[simp] theorem Kept.bytes_pass (k : Kept) (t : List UInt8) : (k.pass t).bytes = k.bytes ++ t := by
  cases k <;> simp [Kept.pass, Kept.bytes]

theorem Kept.bytes_enter (k : Kept) (t : List UInt8) :
    (k.enter t).bytes = k.bytes ++ t ++ 0 :: lit "--" := by
  cases k <;> simp [Kept.enter, Kept.bytes]

/-- The loop is where `scan` is, with the string `rest` at `new_buf`. -/
structure Loop.At (l : Loop) (s : Scan) (rest : List UInt8) : Prop where
  buf : ∃ front behind, l.buf = front ++ s.kept.bytes ++ rest ++ 0 :: behind ∧
    front.length = l.processBuf.getD 0 ∧ l.newBuf = front.length + s.kept.bytes.length
  noNul : NoNul s.kept.text ∧ NoNul rest
  comment : l.comment = s.comment
  buffers : l.buffers = s.buffers
  process : s.process = l.processBuf.isSome
  /-- Inside a comment that was opened on the line the string has been ended. -/
  inside : s.process = true → ∀ text, s.kept = .live text → s.comment ≤ 0

/-- What the loop leaves behind, against what `scan` returns. -/
structure Loop.Left (l : Loop) (s : Scan) : Prop where
  text : s.kept = .live (cut (l.buf.drop (l.processBuf.getD 0)))
  comment : l.comment = s.comment
  buffers : l.buffers = s.buffers
  process : s.process = l.processBuf.isSome

/-- The run of the loop is that of `scan`, with a turn for each byte at most. -/
def Loop.Runs (l : Loop) (rest : List UInt8) : Outcome Scan → Prop
  | .ok s => ∃ l', (∀ fuel, rest.length < fuel → commentLoop fuel l = .ok l') ∧ l'.Left s
  | .fault => ∀ fuel, rest.length < fuel → commentLoop fuel l = .fault
  | .timeout => ∀ fuel, commentLoop fuel l = .timeout
  | .overflow => False

theorem idxOf?_append_cons {t : List UInt8} {c : UInt8} (ht : c ∉ t) (rest : List UInt8) :
    (t ++ c :: rest).idxOf? c = some t.length := by
  induction t with
  | nil => simp [List.idxOf?_cons]
  | cons d t ih =>
    obtain ⟨hne, hmem⟩ := not_or.mp fun h => ht (List.mem_cons.mpr h)
    have hd : (d == c) = false := beq_false_of_ne (Ne.symm hne)
    simp [List.idxOf?_cons, hd, ih hmem]

theorem scan_skip (s : Scan) {t : List UInt8} (ht : ch ';' ∉ t) (back rest : List UInt8) :
    scan s back 0 (t ++ rest) = scan s (t.reverse ++ back) 0 rest := by
  induction t generalizing back with
  | nil => rfl
  | cons c t ih =>
    have hc : c ≠ ch ';' := fun hc => ht (hc ▸ List.mem_cons_self)
    have hrest := ih (fun hmem => ht (List.mem_cons_of_mem c hmem)) (c :: back)
    rw [List.cons_append, scan, if_pos hc, hrest]
    simp

/-! ### What the body reads -/

section

variable (a t after behind : List UInt8) (c x : UInt8)

theorem read_before : (a.length + t.length > a.length ∧
      (a ++ t ++ c :: (after ++ 0 :: behind))[a.length + t.length - 1]? = some x) ↔
    t.reverse.head? = some x := by
  rcases List.eq_nil_or_concat t with rfl | ⟨u, y, rfl⟩
  · simp
  · have hread : (a ++ u.concat y ++ c :: (after ++ 0 :: behind))[a.length +
        (u.concat y).length - 1]? = some y := by
      have hlist : a ++ u.concat y ++ c :: (after ++ 0 :: behind) =
          (a ++ u) ++ y :: c :: (after ++ 0 :: behind) := by simp
      have hpos : a.length + (u.concat y).length - 1 = (a ++ u).length := by simp
      rw [hlist, hpos]
      simp
    rw [hread]
    simp

theorem read_two_before : (a.length + t.length ≥ a.length + 2 ∧
      (a ++ t ++ c :: (after ++ 0 :: behind))[a.length + t.length - 1]? = some x ∧
      (a ++ t ++ c :: (after ++ 0 :: behind))[a.length + t.length - 2]? = some x) ↔
    t.reverse.take 2 = [x, x] := by
  rcases List.eq_nil_or_concat t with rfl | ⟨u, y, rfl⟩
  · simp
  · rcases List.eq_nil_or_concat u with rfl | ⟨v, z, rfl⟩
    · simp
    · have hlist : a ++ (v.concat z).concat y ++ c :: (after ++ 0 :: behind) =
          (a ++ v) ++ z :: y :: c :: (after ++ 0 :: behind) := by simp
      have hone : a.length + ((v.concat z).concat y).length - 1 = (a ++ v).length + 1 := by
        simp
        omega
      have htwo : a.length + ((v.concat z).concat y).length - 2 = (a ++ v).length := by
        simp
        omega
      have hlast : ((a ++ v) ++ z :: y :: c :: (after ++ 0 :: behind))[(a ++ v).length + 1]? =
          some y := by
        rw [List.getElem?_append_right (Nat.le_add_right _ 1)]
        simp
      rw [hlist, hone, htwo, hlast]
      simp

theorem read_behind : ((a ++ t ++ c :: (after ++ 0 :: behind))[a.length + t.length + 1]? =
        some COMMENT_TAG ∧
      (a ++ t ++ c :: (after ++ 0 :: behind))[a.length + t.length + 2]? = some COMMENT_TAG ∧
      (a ++ t ++ c :: (after ++ 0 :: behind))[a.length + t.length + 3]? ≠ some (ch '-')) ↔
    after.take 2 = lit "--" ∧ after[2]? ≠ some (ch '-') := by
  have hread : ∀ i, (a ++ t ++ c :: (after ++ 0 :: behind))[a.length + t.length + (i + 1)]? =
      (after ++ 0 :: behind)[i]? := by
    intro i
    rw [← List.length_append, List.getElem?_append_right (by omega)]
    simp
  have htags : lit "--" = [COMMENT_TAG, COMMENT_TAG] := rfl
  rw [hread 0, hread 1, hread 2, htags]
  match after with
  | [] => simp [COMMENT_TAG, ch]
  | [d] => simp [COMMENT_TAG, ch]
  | [d, e] => simp [COMMENT_TAG, ch]
  | d :: e :: f :: after => simp [and_assoc]

end

/-! ### A turn of the loop -/

theorem Loop.At.drop_newBuf {l : Loop} {s : Scan} {rest : List UInt8} (h : l.At s rest) :
    cut (l.buf.drop l.newBuf) = rest := by
  obtain ⟨front, behind, hbuf, -, hnew⟩ := h.buf
  have hlen : l.newBuf = (front ++ s.kept.bytes).length := by rw [hnew, List.length_append]
  rw [hbuf, List.append_assoc, hlen, List.drop_left]
  exact cut_append_zero h.noNul.2 behind

/-- The string at `process_buf` is what `scan` keeps. -/
theorem Loop.At.finish {l : Loop} {s : Scan} {rest : List UInt8} (h : l.At s rest) :
    cut (l.buf.drop (l.processBuf.getD 0)) = s.kept.finish rest := by
  obtain ⟨front, behind, hbuf, hfront, -⟩ := h.buf
  rw [hbuf, ← hfront, List.append_assoc, List.append_assoc, List.drop_left]
  have hnul := h.noNul
  cases hkept : s.kept with
  | live text =>
    rw [hkept] at hnul
    have htext : NoNul (text ++ rest) := by
      intro c hc
      exact (List.mem_append.mp hc).elim (hnul.1 c) (hnul.2 c)
    rw [Kept.bytes, ← List.append_assoc]
    exact cut_append_zero htext behind
  | cut text gap =>
    rw [hkept] at hnul
    rw [Kept.bytes, List.append_assoc]
    exact cut_append_zero hnul.1 _

/-- A turn that gets on. -/
theorem Loop.Runs.step {l l' : Loop} {rest rest' : List UInt8} {commentP : Nat} {r : Outcome Scan}
    (hfind : strchr l.buf l.newBuf COMMENT_META = some commentP) (hbody : l.body commentP = .ok l')
    (hlt : rest'.length < rest.length) (h : l'.Runs rest' r) : l.Runs rest r := by
  have hstep : ∀ fuel, commentLoop (fuel + 1) l = commentLoop fuel l' := by
    intro fuel
    rw [commentLoop, hfind]
    simp [hbody]
  cases r with
  | ok s =>
    obtain ⟨l₂, hrun, hleft⟩ := h
    refine ⟨l₂, ?_, hleft⟩
    intro fuel hfuel
    cases fuel with
    | zero => omega
    | succ fuel => rw [hstep, hrun fuel (by omega)]
  | fault =>
    intro fuel hfuel
    cases fuel with
    | zero => omega
    | succ fuel => rw [hstep, h fuel (by omega)]
  | timeout =>
    intro fuel
    cases fuel with
    | zero => rfl
    | succ fuel => rw [hstep, h fuel]
  | overflow => exact h.elim

/-- A turn that changes nothing is made for ever. -/
theorem Loop.Runs.stuck {l : Loop} {rest : List UInt8} {commentP : Nat}
    (hfind : strchr l.buf l.newBuf COMMENT_META = some commentP) (hbody : l.body commentP = .ok l) :
    l.Runs rest .timeout := by
  intro fuel
  induction fuel with
  | zero => rfl
  | succ fuel ih =>
    rw [commentLoop, hfind]
    simpa [hbody] using ih

/-- A turn that faults is the last one. -/
theorem Loop.Runs.fault {l : Loop} {rest : List UInt8} {commentP : Nat}
    (hfind : strchr l.buf l.newBuf COMMENT_META = some commentP) (hbody : l.body commentP = .fault) :
    l.Runs rest .fault := by
  intro fuel hfuel
  cases fuel with
  | zero => omega
  | succ fuel =>
    rw [commentLoop, hfind]
    simp [hbody]

/-- No semicolon is left. -/
theorem Loop.At.runs_end {l : Loop} {s : Scan} {rest : List UInt8} (h : l.At s rest)
    (hrest : COMMENT_META ∉ rest) : l.Runs rest (scan s [] 0 rest) := by
  have hscan : scan s [] 0 rest = .ok { s with kept := .live (s.kept.finish rest) } := by
    have hskip := scan_skip s hrest [] []
    rw [List.append_nil, List.append_nil] at hskip
    rw [hskip, scan, List.reverse_reverse]
  rw [hscan]
  refine ⟨l, ?_, ⟨?_, h.comment, h.buffers, h.process⟩⟩
  · intro fuel hfuel
    cases fuel with
    | zero => omega
    | succ fuel =>
      have hnone : strchr l.buf l.newBuf COMMENT_META = none := by
        rw [strchr, h.drop_newBuf, List.idxOf?_eq_none_iff.mpr hrest]
        rfl
      rw [commentLoop, hnone]
  · rw [h.finish]

section Turn

variable {l : Loop} {s : Scan} {t after : List UInt8}

theorem Kept.noNul_pass {k : Kept} {u : List UInt8} (hk : NoNul k.text) (hu : NoNul u) :
    NoNul (k.pass u).text := by
  cases k with
  | live text => exact noNul_append.mpr ⟨hk, hu⟩
  | cut text gap => exact hk

theorem Kept.noNul_enter {k : Kept} {u : List UInt8} (hk : NoNul k.text) (hu : NoNul u) :
    NoNul (k.enter u).text := by
  cases k with
  | live text => exact noNul_append.mpr ⟨hk, hu⟩
  | cut text gap => exact hk

/-- The next semicolon, and the array as the body reads it. -/
theorem Loop.At.found (h : l.At s (t ++ COMMENT_META :: after)) (ht : COMMENT_META ∉ t) :
    strchr l.buf l.newBuf COMMENT_META = some (l.newBuf + t.length) := by
  rw [strchr, h.drop_newBuf, idxOf?_append_cons ht]
  rfl

/-- `new_buf` moves behind the semicolon. -/
theorem Loop.At.pass (h : l.At s (t ++ COMMENT_META :: after)) (n : Int)
    (hn : s.process = true → ∀ text, s.kept = .live text → n ≤ 0) :
    Loop.At { l with newBuf := l.newBuf + t.length + 1, comment := n }
      { s with comment := n, kept := s.kept.pass (t ++ lit ";") } after := by
  obtain ⟨front, behind, hbuf, hfront, hnew⟩ := h.buf
  obtain ⟨ht, hafter⟩ := noNul_append.mp h.noNul.2
  have hsemi : lit ";" = [COMMENT_META] := rfl
  refine ⟨⟨front, behind, ?_, hfront, ?_⟩, ⟨?_, ?_⟩, rfl, h.buffers, h.process, ?_⟩
  · simp [hbuf, hsemi]
  · simp [hnew, hsemi]
    omega
  · exact Kept.noNul_pass h.noNul.1 (noNul_append.mpr ⟨ht, by decide +kernel⟩)
  · exact fun c hc => hafter c (List.mem_cons_of_mem _ hc)
  · intro hprocess text htext
    cases hkept : s.kept with
    | live text' => exact hn hprocess text' hkept
    | cut text' gap =>
      rw [hkept] at htext
      exact absurd htext nofun

/-- The string ends at the semicolon, and `new_buf` moves behind the dashes. -/
theorem Loop.At.enter (h : l.At s (t ++ COMMENT_META :: (lit "--" ++ after))) :
    Loop.At { l with
        buf := l.buf.set (l.newBuf + t.length) 0
        newBuf := l.newBuf + t.length + 3
        comment := s.comment + 1 }
      { s with comment := s.comment + 1, kept := s.kept.enter t } after := by
  obtain ⟨front, behind, hbuf, hfront, hnew⟩ := h.buf
  obtain ⟨ht, hafter⟩ := noNul_append.mp h.noNul.2
  have hset : l.buf.set (l.newBuf + t.length) 0 =
      front ++ s.kept.bytes ++ t ++ 0 :: (lit "--" ++ after ++ 0 :: behind) := by
    have hlist : l.buf = (front ++ s.kept.bytes ++ t) ++
        COMMENT_META :: (lit "--" ++ after ++ 0 :: behind) := by simp [hbuf]
    have hpos : l.newBuf + t.length = (front ++ s.kept.bytes ++ t).length := by
      simp [hnew, Nat.add_assoc]
    rw [hlist, hpos, List.set_append_right _ _ (Nat.le_refl _)]
    simp
  refine ⟨⟨front, behind, ?_, hfront, ?_⟩, ⟨Kept.noNul_enter h.noNul.1 ht, ?_⟩, rfl, h.buffers,
    h.process, ?_⟩
  · rw [hset, Kept.bytes_enter]
    simp
  · have hdashes : (lit "--").length = 2 := rfl
    simp [hnew, Kept.bytes_enter, hdashes]
    omega
  · intro c hc
    exact hafter c (List.mem_cons_of_mem _ (List.mem_append_right _ hc))
  · intro _ text htext
    cases hkept : s.kept with
    | live text' =>
      rw [hkept] at htext
      exact absurd htext nofun
    | cut text' gap =>
      rw [hkept] at htext
      exact absurd htext nofun

/-- The end of an outermost comment: what is behind it is moved over it, or is the first that is
    processed of the line. -/
theorem Loop.At.leave (h : l.At s (t ++ COMMENT_META :: after)) (hone : s.comment = 1) :
    Loop.At (Loop.leave { l with comment := 0, newBuf := l.newBuf + t.length + 1 })
      (Scan.leave { s with comment := 0 } t after) after := by
  obtain ⟨front, behind, hbuf, hfront, hnew⟩ := h.buf
  have hafter : NoNul after := fun c hc =>
    (noNul_append.mp h.noNul.2).2 c (List.mem_cons_of_mem _ hc)
  have hsemi : lit ";" = [COMMENT_META] := rfl
  cases hp : l.processBuf with
  | none =>
    have hprocess : s.process = false := by rw [h.process, hp]; rfl
    simp only [Loop.leave, Scan.leave, hprocess, Bool.false_eq_true, if_false]
    refine ⟨⟨front ++ s.kept.bytes ++ t ++ lit ";", behind, ?_, ?_, ?_⟩, ⟨nofun, hafter⟩, rfl,
      h.buffers, rfl, fun _ _ _ => Int.le_refl 0⟩
    · simp [hbuf, hsemi, Kept.bytes]
    · simp [hnew, hsemi, Nat.add_assoc]
    · simp [hnew, hsemi, Kept.bytes, Nat.add_assoc]
  | some processBuf =>
    have hprocess : s.process = true := by rw [h.process, hp]; rfl
    cases hkept : s.kept with
    | live text =>
      have hle := h.inside hprocess text hkept
      omega
    | cut text gap =>
      have htext : cut (l.buf.drop processBuf) = text := by
        have hfinish := h.finish
        rw [hp, hkept] at hfinish
        exact hfinish
      have hq : processBuf = front.length := by
        rw [hfront, hp]
        rfl
      have hmoved : cut (l.buf.drop (l.newBuf + t.length + 1)) = after :=
        (h.pass 0 fun _ _ _ => Int.le_refl 0).drop_newBuf
      have hlist : l.buf =
          (front ++ text) ++ 0 :: (gap ++ t ++ lit ";" ++ (after ++ 0 :: behind)) := by
        simp [hbuf, hkept, Kept.bytes, hsemi]
      have hold : processBuf + text.length = (front ++ text).length := by
        simp [hq]
      have hlen : l.newBuf + t.length + 1 - (processBuf + text.length) - 1 =
          (gap ++ t ++ lit ";").length := by
        rw [hnew, hkept, hq]
        simp [Kept.bytes, hsemi]
        omega
      have hadded : (l.buf.drop (processBuf + text.length + 1)).take
          (l.newBuf + t.length + 1 - (processBuf + text.length) - 1) = gap ++ t ++ lit ";" := by
        have hdrop : l.buf.drop (processBuf + text.length + 1) =
            gap ++ t ++ lit ";" ++ (after ++ 0 :: behind) := by
          rw [hlist, hold, ← List.drop_drop, List.drop_left]
          rfl
        rw [hlen, hdrop, List.take_left]
      simp only [Loop.leave, Scan.leave, hprocess, if_true, htext, hadded]
      refine ⟨⟨front, (l.buf.drop (processBuf + text.length + (after ++ [0]).length)), ?_, ?_, ?_⟩,
        ⟨?_, hafter⟩, rfl, ?_, ?_, fun _ _ _ => Int.le_refl 0⟩
      · simp only [moveString, hmoved]
        rw [hold, hlist, List.take_left]
        simp [Kept.bytes]
      · rw [hfront, hp]
      · rw [hq]
        rfl
      · have hnul := h.noNul.1
        rw [hkept] at hnul
        exact hnul
      · rw [h.buffers]
      · rfl

/-- A plain semicolon outside of comments: the string ends there. -/
theorem Loop.At.plain (h : l.At s (t ++ COMMENT_META :: after)) (hzero : s.comment = 0) :
    Loop.At { l with
        buf := l.buf.set (l.newBuf + t.length) 0
        newBuf := l.newBuf + t.length
        comment := s.comment
        buffers := l.buffers.map fun b =>
          { b with lline := b.lline ++ cut (l.buf.drop (l.newBuf + t.length)) } }
      { s with
        kept := s.kept.pass t
        buffers := s.buffers.map fun b => { b with lline := b.lline ++ COMMENT_META :: after } }
      [] := by
  obtain ⟨front, behind, hbuf, hfront, hnew⟩ := h.buf
  obtain ⟨ht, hafter⟩ := noNul_append.mp h.noNul.2
  have hlist : l.buf = (front ++ s.kept.bytes ++ t) ++
      (COMMENT_META :: after ++ 0 :: behind) := by simp [hbuf]
  have hpos : l.newBuf + t.length = (front ++ s.kept.bytes ++ t).length := by
    simp [hnew, Nat.add_assoc]
  have hread : cut (l.buf.drop (l.newBuf + t.length)) = COMMENT_META :: after := by
    rw [hlist, hpos, List.drop_left]
    exact cut_append_zero hafter behind
  have hset : l.buf.set (l.newBuf + t.length) 0 =
      front ++ s.kept.bytes ++ t ++ 0 :: (after ++ 0 :: behind) := by
    rw [hlist, hpos, List.set_append_right _ _ (Nat.le_refl _)]
    simp
  refine ⟨⟨front, after ++ 0 :: behind, ?_, hfront, ?_⟩, ⟨Kept.noNul_pass h.noNul.1 ht, nofun⟩,
    rfl, ?_, h.process, fun _ _ _ => hzero.le⟩
  · rw [hset]
    simp
  · simp [hnew, Nat.add_assoc]
  · rw [hread, h.buffers]

/-- The tests of the body are read off the bytes before the semicolon and those behind it. -/
theorem Loop.At.reads (h : l.At s (t ++ COMMENT_META :: after)) :
    (l.newBuf + t.length > l.newBuf ∧ l.buf[l.newBuf + t.length - 1]? = some (ch '\\') ↔
      t.reverse.head? = some (ch '\\')) ∧
    (l.buf[l.newBuf + t.length + 1]? = some COMMENT_TAG ∧
        l.buf[l.newBuf + t.length + 2]? = some COMMENT_TAG ∧
        l.buf[l.newBuf + t.length + 3]? ≠ some (ch '-') ↔
      after.take 2 = lit "--" ∧ after[2]? ≠ some (ch '-')) ∧
    (l.newBuf + t.length ≥ l.newBuf + 2 ∧ l.buf[l.newBuf + t.length - 1]? = some COMMENT_TAG ∧
        l.buf[l.newBuf + t.length - 2]? = some COMMENT_TAG ↔
      t.reverse.take 2 = [COMMENT_TAG, COMMENT_TAG]) := by
  obtain ⟨front, behind, hbuf, -, hnew⟩ := h.buf
  have hlist : l.buf = (front ++ s.kept.bytes) ++ t ++
      COMMENT_META :: (after ++ 0 :: behind) := by simp [hbuf]
  have hpos : l.newBuf = (front ++ s.kept.bytes).length := by simp [hnew]
  have hback := read_before (front ++ s.kept.bytes) t after behind COMMENT_META (ch '\\')
  have hahead := read_behind (front ++ s.kept.bytes) t after behind COMMENT_META
  have htwo := read_two_before (front ++ s.kept.bytes) t after behind COMMENT_META COMMENT_TAG
  rw [← hlist, ← hpos] at hback hahead htwo
  exact ⟨hback, hahead, htwo⟩

/-- The body reads the bytes before the semicolon as far as `new_buf`, and those behind it as far as
    the string goes. -/
theorem Loop.At.body_eq (h : l.At s (t ++ COMMENT_META :: after)) :
    l.body (l.newBuf + t.length) =
      if t.reverse.head? = some (ch '\\') then
        .ok { l with newBuf := l.newBuf + t.length + 1, comment := s.comment }
      else if after.take 2 = lit "--" ∧ after[2]? ≠ some (ch '-') then
        if s.comment < MAX_NEXT_COMMENT then
          if s.comment < 0 then .fault
          else
            .ok { l with
              buf := l.buf.set (l.newBuf + t.length) 0
              newBuf := l.newBuf + t.length + 3
              comment := s.comment + 1 }
        else .ok l
      else if t.reverse.take 2 = lit "--" then
        if s.comment - 1 = 0 then
          .ok (Loop.leave { l with comment := s.comment - 1, newBuf := l.newBuf + t.length + 1 })
        else .ok { l with comment := s.comment - 1, newBuf := l.newBuf + t.length + 1 }
      else if s.comment = 0 then
        .ok { l with
          buf := l.buf.set (l.newBuf + t.length) 0
          newBuf := l.newBuf + t.length
          comment := s.comment
          buffers := l.buffers.map fun b =>
            { b with lline := b.lline ++ cut (l.buf.drop (l.newBuf + t.length)) } }
      else .ok { l with newBuf := l.newBuf + t.length + 1, comment := s.comment } := by
  obtain ⟨hback, hahead, htwo⟩ := h.reads
  have htags : lit "--" = [COMMENT_TAG, COMMENT_TAG] := rfl
  simp only [Loop.body, hback, hahead, htwo, htags, h.comment]

end Turn

/-- The loop runs as `scan` does. The induction is on the length of the string at `new_buf`, which
    every turn makes shorter but the one that finds no room in `nest`. -/
theorem Loop.At.runs {l : Loop} {s : Scan} {rest : List UInt8} (h : l.At s rest) :
    l.Runs rest (scan s [] 0 rest) := by
  induction hn : rest.length using Nat.strong_induction_on generalizing l s rest with
  | _ n ih =>
    subst hn
    by_cases hmem : COMMENT_META ∈ rest
    · obtain ⟨t, after, rfl, ht⟩ := List.eq_append_cons_of_mem hmem
      have hlt : after.length < (t ++ COMMENT_META :: after).length := by simp; omega
      have hfound := h.found ht
      have hbody := h.body_eq
      have hsemi : ¬ COMMENT_META ≠ ch ';' := fun hne => hne rfl
      rw [scan_skip s ht [] (COMMENT_META :: after), List.append_nil, scan, if_neg hsemi]
      dsimp only
      rw [List.reverse_reverse]
      by_cases hescaped : t.reverse.head? = some (ch '\\')
      · rw [if_pos hescaped] at hbody ⊢
        have hat := h.pass s.comment h.inside
        exact .step hfound hbody hlt (ih _ hlt hat rfl)
      rw [if_neg hescaped] at hbody ⊢
      by_cases hopening : after.take 2 = lit "--" ∧ after[2]? ≠ some (ch '-')
      · rw [if_pos hopening] at hbody ⊢
        by_cases hdeep : s.comment ≥ 128
        · -- the turn changes nothing
          have hmax : ¬ s.comment < MAX_NEXT_COMMENT := not_lt.mpr hdeep
          rw [if_neg hmax] at hbody
          rw [if_pos hdeep]
          exact .stuck hfound hbody
        have hmax : s.comment < MAX_NEXT_COMMENT := not_le.mp hdeep
        rw [if_pos hmax] at hbody
        rw [if_neg hdeep]
        by_cases hneg : s.comment < 0
        · rw [if_pos hneg] at hbody ⊢
          exact .fault hfound hbody
        rw [if_neg hneg] at hbody ⊢
        obtain ⟨rest, rfl⟩ : ∃ rest, after = lit "--" ++ rest :=
          ⟨after.drop 2, by rw [← hopening.1, List.take_append_drop]⟩
        have hlt' : rest.length < (t ++ COMMENT_META :: (lit "--" ++ rest)).length := by
          simp
          omega
        exact .step hfound hbody hlt' (ih _ hlt' h.enter rfl)
      rw [if_neg hopening] at hbody ⊢
      by_cases hclosing : t.reverse.take 2 = lit "--"
      · rw [if_pos hclosing] at hbody ⊢
        by_cases hone : s.comment - 1 = 0
        · rw [if_pos hone] at hbody ⊢
          rw [hone] at hbody ⊢
          have hat := h.leave (by omega)
          exact .step hfound hbody hlt (ih _ hlt hat rfl)
        · rw [if_neg hone] at hbody ⊢
          have hat := h.pass (s.comment - 1) fun hp text hk => by
            have := h.inside hp text hk
            omega
          exact .step hfound hbody hlt (ih _ hlt hat rfl)
      rw [if_neg hclosing] at hbody ⊢
      by_cases hzero : s.comment = 0
      · rw [if_pos hzero] at hbody ⊢
        have hlt' : ([] : List UInt8).length < (t ++ COMMENT_META :: after).length := by
          rw [List.length_append, List.length_cons, List.length_nil]
          omega
        have hfinish : (s.kept.pass t).finish [] = s.kept.finish t := by
          cases s.kept <;> simp [Kept.pass, Kept.finish]
        have hrun := (h.plain hzero).runs_end List.not_mem_nil
        rw [scan] at hrun
        dsimp only at hrun
        rw [List.reverse_nil, hfinish] at hrun
        exact .step hfound hbody hlt' hrun
      · rw [if_neg hzero] at hbody ⊢
        have hat := h.pass s.comment h.inside
        exact .step hfound hbody hlt (ih _ hlt hat rfl)
    · exact h.runs_end hmem

/-- More fuel does not change how a loop ends. -/
theorem commentLoop_mono {fuel : Nat} {l : Loop} (h : commentLoop fuel l ≠ .timeout) (more : Nat) :
    commentLoop (fuel + more) l = commentLoop fuel l := by
  induction fuel generalizing l with
  | zero => exact absurd rfl h
  | succ fuel ih =>
    rw [Nat.succ_add, commentLoop, commentLoop]
    rw [commentLoop] at h
    cases hfind : strchr l.buf l.newBuf COMMENT_META with
    | none => rfl
    | some commentP =>
      simp only [hfind] at h ⊢
      cases hbody : l.body commentP with
      | ok l' =>
        rw [hbody] at h
        exact ih h
      | fault => rfl
      | overflow => rfl
      | timeout => rfl

/-- How the loop ends, against how `scan` does. -/
def Loop.Ended : Outcome Loop → Outcome Scan → Prop
  | .ok l, .ok s => l.Left s
  | .fault, .fault => True
  | .timeout, .timeout => True
  | _, _ => False

theorem Loop.Runs.settles {l : Loop} {rest : List UInt8} {r : Outcome Scan} (h : l.Runs rest r) :
    ∃ r', Settles (fun fuel => commentLoop fuel l) r' ∧ Loop.Ended r' r := by
  have hmono : ∀ fuel more, commentLoop fuel l ≠ .timeout →
      commentLoop (fuel + more) l = commentLoop fuel l := fun _ more h => commentLoop_mono h more
  cases r with
  | ok s =>
    obtain ⟨l', hrun, hleft⟩ := h
    exact ⟨.ok l', .of_mono hmono (hrun _ (Nat.lt_succ_self _)) nofun, hleft⟩
  | fault => exact ⟨.fault, .of_mono hmono (h _ (Nat.lt_succ_self _)) nofun, trivial⟩
  | timeout => exact ⟨.timeout, .of_timeout h, trivial⟩
  | overflow => exact h.elim

theorem Loop.Ended.left {l : Loop} {r : Outcome Scan} (h : Loop.Ended (.ok l) r) :
    ∃ s, r = .ok s ∧ l.Left s := by
  cases r with
  | ok s => exact ⟨s, rfl, h⟩
  | fault => exact h.elim
  | overflow => exact h.elim
  | timeout => exact h.elim

theorem Loop.Ended.timeout_iff {r : Outcome Loop} {r' : Outcome Scan} (h : Loop.Ended r r') :
    r = .timeout ↔ r' = .timeout := by
  cases r <;> cases r' <;> simp_all [Loop.Ended]

theorem Loop.Ended.ok_iff {r : Outcome Loop} {r' : Outcome Scan} (h : Loop.Ended r r') :
    (∃ l, r = .ok l) ↔ ∃ s, r' = .ok s := by
  cases r <;> cases r' <;> simp_all [Loop.Ended]

theorem Loop.start_at (bytes behind : List UInt8) (comment : Int) (buffers : Option Buffers) :
    (Loop.start bytes behind comment buffers).At ⟨comment, comment = 0, .live [], buffers⟩
      (cut bytes) := by
  obtain ⟨tail, htail⟩ := exists_cut bytes behind
  refine ⟨⟨[], tail, htail, ?_, rfl⟩, ⟨nofun, noNul_cut bytes⟩, rfl, rfl, ?_, ?_⟩
  · simp only [Loop.start]
    split <;> rfl
  · simp only [Loop.start]
    split
    · next h => simp [h]
    · next h => simp [h]
  · intro hprocess _ _
    have hzero : comment = 0 := of_decide_eq_true hprocess
    exact hzero.le

/-! ## The tokens of a line -/

/-- What a line consists of: other bytes, and semicolons of four kinds. -/
inductive Token where
  | byte (c : UInt8)
  /-- `\;`. -/
  | escaped
  /-- `;--`, with no dash behind it. -/
  | opening
  /-- `--;`. -/
  | closing
  | semicolon
  deriving DecidableEq, Repr

/-- The tokens of a line. What is before a semicolon is only looked at as far as the token before,
    which `back` is what has been read since, backwards; `ahead` bytes belong to that token. -/
def tokens (back : List UInt8) : Nat → List UInt8 → List Token
  | _, [] => []
  | ahead + 1, _ :: rest => tokens back ahead rest
  | 0, c :: rest =>
    if c ≠ ch ';' then .byte c :: tokens (c :: back) 0 rest
    else if back.head? = some (ch '\\') then .escaped :: tokens [] 0 rest
    else if rest.take 2 = lit "--" ∧ rest[2]? ≠ some (ch '-') then .opening :: tokens [] 2 rest
    else if back.take 2 = lit "--" then .closing :: tokens [] 0 rest
    else .semicolon :: tokens [] 0 rest

/-- The depth of an opening, as far as the loop and `nest` allow for it. -/
def Fits (depth : Int) : Prop := 0 ≤ depth ∧ depth < MAX_NEXT_COMMENT

instance : DecidablePred Fits := fun depth =>
  inferInstanceAs (Decidable (0 ≤ depth ∧ depth < MAX_NEXT_COMMENT))

/-- The depths at which openings are met. Outside of comments a plain semicolon ends the line, and
    an opening that does not fit is the last one. -/
def openings (depth : Int) : List Token → List Int
  | [] => []
  | .opening :: rest => depth :: if Fits depth then openings (depth + 1) rest else []
  | .closing :: rest => openings (depth - 1) rest
  | .semicolon :: rest => if depth = 0 then [] else openings depth rest
  | .byte _ :: rest => openings depth rest
  | .escaped :: rest => openings depth rest

theorem Scan.leave_comment (s : Scan) (t rest : List UInt8) :
    (s.leave t rest).comment = s.comment := by
  unfold Scan.leave
  split
  · split <;> rfl
  · rfl

/-- What the loop does at a byte, by the token that it is the end of. -/
inductive Reads (s : Scan) (back : List UInt8) (c : UInt8) (rest : List UInt8) : Prop
  | byte (hc : c ≠ ch ';')
      (htokens : tokens back 0 (c :: rest) = .byte c :: tokens (c :: back) 0 rest)
      (hscan : scan s back 0 (c :: rest) = scan s (c :: back) 0 rest)
  | escaped (hc : c = ch ';') (hback : back.head? = some (ch '\\'))
      (htokens : tokens back 0 (c :: rest) = .escaped :: tokens [] 0 rest)
      (hscan : scan s back 0 (c :: rest) =
        scan { s with kept := s.kept.pass (back.reverse ++ lit ";") } [] 0 rest)
  | opening (hc : c = ch ';')
      (htokens : tokens back 0 (c :: rest) = .opening :: tokens [] 2 rest)
      (hscan : scan s back 0 (c :: rest) =
        if s.comment ≥ 128 then .timeout
        else if s.comment < 0 then .fault
        else scan { s with comment := s.comment + 1, kept := s.kept.enter back.reverse } [] 2 rest)
  | closing (hc : c = ch ';')
      (htokens : tokens back 0 (c :: rest) = .closing :: tokens [] 0 rest)
      (hscan : scan s back 0 (c :: rest) =
        if s.comment - 1 = 0 then
          scan (Scan.leave { s with comment := s.comment - 1 } back.reverse rest) [] 0 rest
        else
          scan { s with
            comment := s.comment - 1
            kept := s.kept.pass (back.reverse ++ lit ";") } [] 0 rest)
  | semicolon (hc : c = ch ';')
      (htokens : tokens back 0 (c :: rest) = .semicolon :: tokens [] 0 rest)
      (hscan : scan s back 0 (c :: rest) =
        if s.comment = 0 then
          .ok { s with
            kept := .live (s.kept.finish back.reverse)
            buffers := s.buffers.map fun b => { b with lline := b.lline ++ c :: rest } }
        else scan { s with kept := s.kept.pass (back.reverse ++ lit ";") } [] 0 rest)

theorem scan_reads (s : Scan) (back : List UInt8) (c : UInt8) (rest : List UInt8) :
    Reads s back c rest := by
  by_cases hc : c ≠ ch ';'
  · exact .byte hc (by rw [tokens, if_pos hc]) (by rw [scan]; exact if_pos hc)
  have hsemi := not_not.mp hc
  by_cases hescaped : back.head? = some (ch '\\')
  · refine .escaped hsemi hescaped (by rw [tokens, if_neg hc, if_pos hescaped]) ?_
    rw [scan, if_neg hc, if_pos hescaped]
  by_cases hopening : rest.take 2 = lit "--" ∧ rest[2]? ≠ some (ch '-')
  · refine .opening hsemi (by rw [tokens, if_neg hc, if_neg hescaped, if_pos hopening]) ?_
    rw [scan, if_neg hc, if_neg hescaped, if_pos hopening]
  by_cases hclosing : back.take 2 = lit "--"
  · refine .closing hsemi
      (by rw [tokens, if_neg hc, if_neg hescaped, if_neg hopening, if_pos hclosing]) ?_
    rw [scan, if_neg hc, if_neg hescaped, if_neg hopening, if_pos hclosing]
  · refine .semicolon hsemi
      (by rw [tokens, if_neg hc, if_neg hescaped, if_neg hopening, if_neg hclosing]) ?_
    rw [scan, if_neg hc, if_neg hescaped, if_neg hopening, if_neg hclosing]

/-- What becomes of a scan with these openings. -/
theorem scan_outcome (s : Scan) (back : List UInt8) (ahead : Nat) (rest : List UInt8) :
    ((∃ s', scan s back ahead rest = .ok s') ↔
        ∀ depth ∈ openings s.comment (tokens back ahead rest), Fits depth) ∧
      (scan s back ahead rest = .timeout ↔
        ∃ depth ∈ openings s.comment (tokens back ahead rest), MAX_NEXT_COMMENT ≤ depth) := by
  induction rest generalizing s back ahead with
  | nil => simp [scan, tokens, openings]
  | cons c rest ih =>
    cases ahead with
    | succ ahead => exact ih s back ahead
    | zero =>
      cases scan_reads s back c rest with
      | byte _ htokens hscan =>
        rw [htokens, hscan]
        exact ih s (c :: back) 0
      | escaped _ _ htokens hscan =>
        rw [htokens, hscan]
        exact ih _ [] 0
      | opening _ htokens hscan =>
        rw [htokens, hscan, openings]
        by_cases hdeep : s.comment ≥ 128
        · have hfits : ¬ Fits s.comment := fun h => absurd h.2 (not_lt.mpr hdeep)
          have hmax : MAX_NEXT_COMMENT ≤ s.comment := hdeep
          rw [if_pos hdeep, if_neg hfits]
          simp [hfits, hmax]
        have hmax : ¬ MAX_NEXT_COMMENT ≤ s.comment := hdeep
        by_cases hneg : s.comment < 0
        · have hfits : ¬ Fits s.comment := fun h => absurd h.1 (not_le.mpr hneg)
          rw [if_neg hdeep, if_pos hneg, if_neg hfits]
          simp [hfits, hmax]
        · have hfits : Fits s.comment := ⟨not_lt.mp hneg, not_le.mp hdeep⟩
          rw [if_neg hdeep, if_neg hneg, if_pos hfits]
          have hrest :=
            ih { s with comment := s.comment + 1, kept := s.kept.enter back.reverse } [] 2
          simpa [hfits, hmax] using hrest
      | closing _ htokens hscan =>
        rw [htokens, hscan, openings]
        split
        · have hleave := Scan.leave_comment { s with comment := s.comment - 1 } back.reverse rest
          have hrest := ih (Scan.leave { s with comment := s.comment - 1 } back.reverse rest) [] 0
          rw [hleave] at hrest
          exact hrest
        · exact ih _ [] 0
      | semicolon _ htokens hscan =>
        rw [htokens, hscan, openings]
        split
        · simp
        · exact ih _ [] 0

/-- The depth behind a line. -/
def depthBehind (depth : Int) : List Token → Int
  | [] => depth
  | .opening :: rest => depthBehind (depth + 1) rest
  | .closing :: rest => depthBehind (depth - 1) rest
  | .semicolon :: rest => if depth = 0 then 0 else depthBehind depth rest
  | .byte _ :: rest => depthBehind depth rest
  | .escaped :: rest => depthBehind depth rest

theorem scan_comment {s s' : Scan} {back : List UInt8} {ahead : Nat} (rest : List UInt8)
    (h : scan s back ahead rest = .ok s') :
    s'.comment = depthBehind s.comment (tokens back ahead rest) := by
  induction rest generalizing s back ahead with
  | nil =>
    cases h
    rfl
  | cons c rest ih =>
    cases ahead with
    | succ ahead => exact ih h
    | zero =>
      cases scan_reads s back c rest with
      | byte _ htokens hscan =>
        rw [hscan] at h
        rw [htokens]
        exact ih h
      | escaped _ _ htokens hscan =>
        rw [hscan] at h
        rw [htokens]
        have hrest := ih h
        exact hrest
      | opening _ htokens hscan =>
        rw [hscan] at h
        rw [htokens]
        split at h
        · exact absurd h nofun
        split at h
        · exact absurd h nofun
        exact ih h
      | closing _ htokens hscan =>
        rw [hscan] at h
        rw [htokens, depthBehind]
        split at h
        · have hrest := ih h
          rw [Scan.leave_comment] at hrest
          exact hrest
        · exact ih h
      | semicolon _ htokens hscan =>
        rw [hscan] at h
        rw [htokens, depthBehind]
        split at h
        next hzero =>
          cases h
          rw [if_pos hzero]
          exact hzero
        next hzero =>
          rw [if_neg hzero]
          have hrest := ih h
          exact hrest

/-- The scan of a line ends exactly when no opening is met with 128 comments open, and without a
    write outside of `nest` exactly when all openings fit. -/
theorem commentLoop_settles (bytes behind : List UInt8) (comment : Int)
    (buffers : Option Buffers) : ∃ r,
    Settles (fun fuel => commentLoop fuel (Loop.start bytes behind comment buffers)) r ∧
      ((∃ l, r = .ok l) ↔ ∀ depth ∈ openings comment (tokens [] 0 (cut bytes)), Fits depth) ∧
      (r = .timeout ↔
        ∃ depth ∈ openings comment (tokens [] 0 (cut bytes)), MAX_NEXT_COMMENT ≤ depth) ∧
      ∀ l, r = .ok l → l.comment = depthBehind comment (tokens [] 0 (cut bytes)) := by
  obtain ⟨r, hr, hended⟩ := (Loop.start_at bytes behind comment buffers).runs.settles
  obtain ⟨hok, htimeout⟩ :=
    scan_outcome ⟨comment, comment = 0, .live [], buffers⟩ [] 0 (cut bytes)
  refine ⟨r, hr, hended.ok_iff.trans hok, hended.timeout_iff.trans htimeout, ?_⟩
  rintro l rfl
  obtain ⟨s, hscan, hleft⟩ := hended.left
  rw [hleft.comment]
  exact scan_comment (cut bytes) hscan

/-! ## The lines of a file -/

/-- The scans of the lines that are read, one after the other into the same array, as long as none
    is rejected. -/
def scanLines (fuel : Nat) (buf : List UInt8) (comment : Int) : List (List UInt8) → Outcome Int
  | [] => .ok comment
  | bytes :: rest => do
    let l ← commentLoop fuel (Loop.start bytes (buf.drop (bytes.length + 1)) comment none)
    scanLines fuel l.buf l.comment rest

/-- The depths at which openings are met in the lines of a file. -/
def openingsOf (depth : Int) : List (List Token) → List Int
  | [] => []
  | line :: rest =>
    openings depth line ++
      if ∀ d ∈ openings depth line, Fits d then openingsOf (depthBehind depth line) rest
      else []

theorem scanLines_settles (buf : List UInt8) (comment : Int) (lines : List (List UInt8)) : ∃ r,
    Settles (fun fuel => scanLines fuel buf comment lines) r ∧
      ((∃ c, r = .ok c) ↔
        ∀ depth ∈ openingsOf comment (lines.map fun bytes => tokens [] 0 (cut bytes)), Fits depth) ∧
      (r = .timeout ↔
        ∃ depth ∈ openingsOf comment (lines.map fun bytes => tokens [] 0 (cut bytes)),
          MAX_NEXT_COMMENT ≤ depth) := by
  induction lines generalizing buf comment with
  | nil => exact ⟨.ok comment, .const _, by simp [openingsOf], by simp [openingsOf]⟩
  | cons bytes lines ih =>
    obtain ⟨r, hr, hok, htimeout, hcomment⟩ :=
      commentLoop_settles bytes (buf.drop (bytes.length + 1)) comment none
    simp only [List.map_cons, openingsOf]
    by_cases hfits : ∀ d ∈ openings comment (tokens [] 0 (cut bytes)), Fits d
    · -- the next line is scanned
      obtain ⟨l, rfl⟩ := hok.mpr hfits
      have hshallow : ¬ ∃ d ∈ openings comment (tokens [] 0 (cut bytes)), MAX_NEXT_COMMENT ≤ d := by
        rw [← htimeout]
        nofun
      obtain ⟨r, hrest, hok', htimeout'⟩ := ih l.buf l.comment
      rw [hcomment l rfl] at hok' htimeout'
      refine ⟨r, hr.bind (k := fun _ => r) ?_, ?_, ?_⟩
      · rintro _ ⟨⟩
        exact hrest
      · rw [hok', if_pos hfits, List.forall_mem_append]
        exact (and_iff_right hfits).symm
      · rw [htimeout', if_pos hfits]
        simp only [List.mem_append, or_and_right, exists_or]
        exact (or_iff_right hshallow).symm
    · rw [if_neg hfits, List.append_nil]
      have hstop : ∀ l, r ≠ .ok l := fun l hl => hfits (hok.mp ⟨l, hl⟩)
      refine ⟨r >>= fun _ => .fault, hr.bind fun l hl => absurd hl (hstop l), ?_, ?_⟩
      · refine iff_of_false ?_ hfits
        rintro ⟨c, hc⟩
        obtain ⟨l, hl, -⟩ := bind_eq_ok.mp hc
        exact hstop l hl
      · rw [← htimeout]
        cases r with
        | ok l => exact absurd rfl (hstop l)
        | fault => simp
        | overflow => simp
        | timeout => simp

/-- The scan of a line ends exactly when no opening is met with 128 comments open, whatever was open
    before; it returns without a write outside of `nest` exactly when all openings fit. The scans
    of the lines of a file all end exactly when this holds of one line after the other. -/
theorem commentScan_ends_iff (bytes behind : List UInt8) (comment : Int)
    (buffers : Option Buffers) (text buf : List UInt8) :
    ((∃ fuel, commentLoop fuel (Loop.start bytes behind comment buffers) ≠ .timeout) ↔
        ∀ d ∈ openings comment (tokens [] 0 (cut bytes)), d < MAX_NEXT_COMMENT) ∧
      ((∃ fuel l, commentLoop fuel (Loop.start bytes behind comment buffers) = .ok l) ↔
        ∀ d ∈ openings comment (tokens [] 0 (cut bytes)), Fits d) ∧
      ((∃ fuel, scanLines fuel buf comment (fgetsAll 8191 [] text) ≠ .timeout) ↔
        ∀ d ∈ openingsOf comment ((textLines text).map (tokens [] 0)), d < MAX_NEXT_COMMENT) := by
  have hdeep : ∀ ds : List Int,
      (¬ ∃ d ∈ ds, MAX_NEXT_COMMENT ≤ d) ↔ ∀ d ∈ ds, d < MAX_NEXT_COMMENT := by
    intro ds
    simp only [not_exists, not_and, not_le]
  have hlines : (textLines text).map (tokens [] 0) =
      (fgetsAll 8191 [] text).map fun bytes => tokens [] 0 (cut bytes) := by
    rw [textLines, List.map_map]
    rfl
  obtain ⟨r, hr, hok, htimeout, -⟩ := commentLoop_settles bytes behind comment buffers
  obtain ⟨r', hr', -, htimeout'⟩ := scanLines_settles buf comment (fgetsAll 8191 [] text)
  refine ⟨?_, hr.returns_iff.trans hok, ?_⟩
  · exact hr.ends_iff.trans ((not_congr htimeout).trans (hdeep _))
  · rw [hlines]
    exact hr'.ends_iff.trans ((not_congr htimeout').trans (hdeep _))

/-- A line that opens 129 comments. -/
theorem commentScan_goes_on :
    ¬ ∀ text buf, ∃ fuel, scanLines fuel buf 0 (fgetsAll 8191 [] text) ≠ .timeout := by
  intro h
  obtain ⟨r, hr, -, htimeout⟩ :=
    scanLines_settles [] 0 (fgetsAll 8191 [] (List.replicate 129 (lit ";-- ")).flatten)
  refine absurd (hr.ends_iff.mp (h _ _)) (not_not.mpr (htimeout.mpr ⟨128, ?_, Int.le_refl 128⟩))
  decide +kernel

end Spider.Config.Text
