import Spider.Strings

/-!
# Escaped semicolons

`spd_unescape_semicolon` on the bytes that it scans and moves. Pointers are
positions in them, and a read behind their end is a fault.
-/

namespace Spider.Strings.Unescape

open Lib Outcome CString

/-- `strchr`, for a character other than the terminator, on the bytes from position `p` on. -/
def strchr (c : UInt8) : List UInt8 → Nat → Outcome (Option Nat)
  | [], _ => .fault
  | d :: rest, p =>
    if d = c then .ok (some p) else if d = 0 then .ok none else strchr c rest (p + 1)

/-- `strlen`. -/
def strlen : List UInt8 → Outcome Nat
  | [] => .fault
  | c :: rest =>
    if c = 0 then .ok 0
    else do
      let n ← strlen rest
      .ok (n + 1)

/-- `memmove` of `n` bytes from position `src` to position `dst`, inside the array. -/
def memmove (buf : List UInt8) (dst src n : Nat) : Outcome (List UInt8) :=
  if src + n ≤ buf.length ∧ dst + n ≤ buf.length then
    .ok (buf.take dst ++ (buf.drop src).take n ++ buf.drop (dst + n))
  else .fault

/-- `(pe > pw) && (*(pe - 1) == '\\')`. -/
def escapedAt (buf : List UInt8) (pw pe : Nat) : Bool := pe > pw ∧ buf[pe - 1]? = some (ch '\\')

/-- The loop (`strings.c:123-130`): the bytes afterwards. -/
def unescapeLoop : Nat → List UInt8 → Nat → Outcome (List UInt8)
  | 0, _, _ => .timeout
  | fuel + 1, buf, pw => do
    match ← strchr (ch ';') (buf.drop pw) pw with
    | none => .ok buf
    | some pe =>
      if escapedAt buf pw pe then do
        let n ← strlen (buf.drop pe)
        let buf ← memmove buf (pe - 1) pe (n + 1)
        unescapeLoop fuel buf pe
      else unescapeLoop fuel buf (pe + 1)

/-- `spd_unescape_semicolon` (`strings.c:118-131`), on the string at the start of `buf`. -/
def spdUnescapeSemicolon (fuel : Nat) (buf : List UInt8) : Outcome (List UInt8) :=
  unescapeLoop fuel buf 0

/-! ## What the call is for -/

/-- A backslash before each semicolon. -/
def escaped (s : CString) : CString :=
  s.flatMap fun c => if c = ch ';' then [ch '\\', ch ';'] else [c]

/-- One backslash is taken from before each semicolon that has one. -/
def unescaped : CString → CString
  | [] => []
  | c :: s => if c = ch '\\' ∧ s.head? = some (ch ';') then unescaped s else c :: unescaped s

section

variable {s r done rest : CString} {left : List UInt8} {c : UInt8}

theorem unescaped_escape (s : CString) :
    unescaped (ch '\\' :: ch ';' :: s) = ch ';' :: unescaped s := by
  have hne : ¬ (ch ';' = ch '\\' ∧ s.head? = some (ch ';')) := fun h => absurd h.1 (by decide)
  rw [unescaped, if_pos ⟨rfl, rfl⟩, unescaped, if_neg hne]

/-- What holds no semicolon is kept, when it does not escape one behind it. -/
theorem unescaped_append (hs : ch ';' ∉ s)
    (hr : s.getLast? = some (ch '\\') → r.head? ≠ some (ch ';')) :
    unescaped (s ++ r) = s ++ unescaped r := by
  induction s with
  | nil => rfl
  | cons c s ih =>
    rw [List.mem_cons, not_or] at hs
    have hkept : ¬ (c = ch '\\' ∧ (s ++ r).head? = some (ch ';')) := by
      rintro ⟨rfl, hhead⟩
      cases s with
      | nil => exact hr rfl hhead
      | cons d s =>
        rw [List.cons_append, List.head?_cons, Option.some.injEq] at hhead
        exact hs.2 (hhead ▸ List.mem_cons_self)
    rw [List.cons_append, unescaped, if_neg hkept, List.cons_append]
    congr 1
    apply ih hs.2
    intro hlast
    apply hr
    rw [List.getLast?_cons, hlast]
    rfl

theorem unescaped_of_notMem (hs : ch ';' ∉ s) : unescaped s = s := by
  have happend := unescaped_append hs (r := []) fun _ => nofun
  rw [List.append_nil] at happend
  exact happend.trans (List.append_nil s)

theorem head?_escaped_ne (s : CString) : (escaped s).head? ≠ some (ch ';') := by
  cases s with
  | nil => exact nofun
  | cons c s =>
    unfold escaped
    rw [List.flatMap_cons]
    by_cases hc : c = ch ';'
    · rw [if_pos hc]
      exact fun h => absurd (Option.some.inj h) (by decide)
    · rw [if_neg hc]
      exact fun h => hc (Option.some.inj h)

/-- Unescaping undoes escaping. -/
theorem unescaped_escaped (s : CString) : unescaped (escaped s) = s := by
  induction s with
  | nil => rfl
  | cons c s ih =>
    have hrest := head?_escaped_ne s
    unfold escaped at ih hrest ⊢
    rw [List.flatMap_cons]
    by_cases hc : c = ch ';'
    · rw [if_pos hc, List.cons_append, List.singleton_append, unescaped_escape, ih, hc]
    · rw [if_neg hc, List.singleton_append, unescaped, if_neg fun h => hrest h.2, ih]

/-! ### The string functions -/

theorem strchr_none (hs : NoNul s) (hc : c ∉ s) (hzero : c ≠ 0) (p : Nat) :
    strchr c (s ++ 0 :: left) p = .ok none := by
  induction s generalizing p with
  | nil => rw [List.nil_append, strchr, if_neg hzero.symm, if_pos rfl]
  | cons d s ih =>
    rw [List.mem_cons, not_or] at hc
    rw [List.cons_append, strchr, if_neg (Ne.symm hc.1), if_neg (hs d List.mem_cons_self)]
    exact ih (fun e he => hs e (List.mem_cons_of_mem d he)) hc.2 _

theorem strchr_some (hs : NoNul s) (hc : c ∉ s) (p : Nat) :
    strchr c (s ++ c :: left) p = .ok (some (p + s.length)) := by
  induction s generalizing p with
  | nil => rw [List.nil_append, strchr, if_pos rfl, List.length_nil, Nat.add_zero]
  | cons d s ih =>
    rw [List.mem_cons, not_or] at hc
    rw [List.cons_append, strchr, if_neg (Ne.symm hc.1), if_neg (hs d List.mem_cons_self),
      ih (fun e he => hs e (List.mem_cons_of_mem d he)) hc.2, List.length_cons]
    congr 2
    omega

theorem strlen_eq (hs : NoNul s) (left : List UInt8) : strlen (s ++ 0 :: left) = .ok s.length := by
  induction s with
  | nil => rfl
  | cons c s ih =>
    rw [List.cons_append, strlen, if_neg (hs c List.mem_cons_self),
      ih fun d hd => hs d (List.mem_cons_of_mem c hd)]
    rfl

/-- A string is moved over the byte in front of it. -/
theorem memmove_eq (s left : List UInt8) (c : UInt8) (rest : List UInt8) :
    memmove (s ++ c :: rest ++ 0 :: left) s.length (s.length + 1) (rest.length + 1) =
      .ok (s ++ rest ++ 0 :: 0 :: left) := by
  have hbuf : s ++ c :: rest ++ 0 :: left = s ++ (c :: (rest ++ 0 :: left)) := by simp
  have hsrc : (s ++ c :: rest ++ 0 :: left).drop (s.length + 1) = rest ++ 0 :: left := by
    rw [hbuf, ← List.drop_drop, List.drop_left]
    rfl
  have hmoved : (rest ++ 0 :: left).take (rest.length + 1) = rest ++ [0] := by
    rw [List.append_cons]
    exact List.take_left' (by simp)
  have hbehind : (s ++ c :: rest ++ 0 :: left).drop (s.length + (rest.length + 1)) = 0 :: left :=
    List.drop_left' (by simp)
  have hstart : (s ++ c :: rest ++ 0 :: left).take s.length = s := by
    rw [hbuf]
    exact List.take_left
  rw [memmove, if_pos, hsrc, hmoved, hbehind, hstart]
  · simp
  · simp only [List.length_append, List.length_cons]
    omega

/-! ### The loop -/

/-- A semicolon is escaped when what is in front of it, from where the search began, ends with a
    backslash. -/
theorem escapedAt_iff (done s r : List UInt8) :
    escapedAt (done ++ s ++ r) done.length (done.length + s.length) = true ↔
      s.getLast? = some (ch '\\') := by
  rcases s.eq_nil_or_concat' with rfl | ⟨s, c, rfl⟩
  · simp [escapedAt]
  · have hlast : (done ++ (s ++ [c]) ++ r)[done.length + (s ++ [c]).length - 1]? = some c := by
      have hsplit : done ++ (s ++ [c]) ++ r = done ++ s ++ c :: r := by simp
      have hindex : done.length + (s ++ [c]).length - 1 = (done ++ s).length := by simp
      rw [hsplit, hindex, List.getElem?_append_right (Nat.le_refl _), Nat.sub_self]
      rfl
    rw [escapedAt, hlast, List.getLast?_concat]
    simp

/-- The next semicolon. -/
theorem strchr_next (hs : NoNul s) (hc : c ∉ s) (done : CString) (r : List UInt8) :
    strchr c ((done ++ s ++ c :: r).drop done.length) done.length =
      .ok (some (done.length + s.length)) := by
  rw [List.append_assoc, List.drop_left]
  exact strchr_some hs hc _

/-- A semicolon that is not escaped is passed. -/
theorem unescapeLoop_keep (fuel : Nat) (hs : NoNul s) (hc : ch ';' ∉ s)
    (hlast : s.getLast? ≠ some (ch '\\')) (r : List UInt8) :
    unescapeLoop (fuel + 1) (done ++ s ++ ch ';' :: r) done.length =
      unescapeLoop fuel (done ++ s ++ [ch ';'] ++ r) (done ++ s ++ [ch ';']).length := by
  have hnot : ¬ escapedAt (done ++ s ++ ch ';' :: r) done.length (done.length + s.length) = true :=
    fun h => hlast ((escapedAt_iff _ _ _).mp h)
  have hnext : (done ++ s ++ [ch ';']).length = done.length + s.length + 1 := by
    rw [List.length_append, List.length_append, List.length_singleton]
  rw [unescapeLoop, strchr_next hs hc, ok_bind]
  dsimp only
  rw [if_neg hnot, hnext, List.append_cons]

/-- What begins with an escaped semicolon is moved over the backslash, and the search goes on
    behind the semicolon. -/
theorem unescapeLoop_move (fuel : Nat) (hs : NoNul s) (hc : ch ';' ∉ s) (hr : NoNul r)
    (left : List UInt8) :
    unescapeLoop (fuel + 1) (done ++ s ++ ch '\\' :: ch ';' :: r ++ 0 :: left) done.length =
      unescapeLoop fuel (done ++ s ++ [ch ';'] ++ r ++ 0 :: 0 :: left)
        (done ++ s ++ [ch ';']).length := by
  have hbuf : done ++ s ++ ch '\\' :: ch ';' :: r ++ 0 :: left =
      done ++ (s ++ [ch '\\']) ++ ch ';' :: (r ++ 0 :: left) := by simp
  have hslash : NoNul (s ++ [ch '\\']) := by
    intro d hd
    rcases List.mem_append.mp hd with hd | hd
    · exact hs d hd
    · rw [List.mem_singleton.mp hd]
      decide
  have hnotMem : ch ';' ∉ s ++ [ch '\\'] := by
    rw [List.mem_append, List.mem_singleton, not_or]
    exact ⟨hc, by decide⟩
  have hescaped := (escapedAt_iff done (s ++ [ch '\\']) (ch ';' :: (r ++ 0 :: left))).mpr
    List.getLast?_concat
  have hpe : done.length + (s ++ [ch '\\']).length = (done ++ s).length + 1 := by
    rw [List.length_append, List.length_append, List.length_singleton, Nat.add_assoc]
  have hdrop : (done ++ (s ++ [ch '\\']) ++ ch ';' :: (r ++ 0 :: left)).drop
      ((done ++ s).length + 1) = ch ';' :: r ++ 0 :: left := by
    rw [← hpe, ← List.length_append, List.drop_left]
    rfl
  have hsemi : NoNul (ch ';' :: r) := by
    intro d hd
    rcases List.mem_cons.mp hd with rfl | hd
    · decide
    · exact hr d hd
  have hnext : (done ++ s ++ [ch ';']).length = (done ++ s).length + 1 := by
    rw [List.length_append, List.length_singleton]
  have hmove := memmove_eq (done ++ s) left (ch '\\') (ch ';' :: r)
  rw [hbuf] at hmove
  rw [hbuf, unescapeLoop, strchr_next hslash hnotMem, ok_bind]
  dsimp only
  rw [if_pos hescaped, hpe, hdrop, strlen_eq hsemi, ok_bind, Nat.add_sub_cancel, hmove,
    ok_bind, List.append_cons _ _ r, hnext]

/-- The loop unescapes what is behind `done`. -/
theorem unescapeLoop_eq {fuel : Nat} (hs : NoNul rest) (hfuel : rest.length < fuel) :
    ∃ junk, unescapeLoop fuel (done ++ rest ++ 0 :: left) done.length =
        .ok (done ++ unescaped rest ++ 0 :: (junk ++ left)) ∧
      (unescaped rest).length + junk.length = rest.length := by
  induction fuel generalizing done rest left with
  | zero => exact absurd hfuel (Nat.not_lt_zero _)
  | succ fuel ih =>
    by_cases hmem : ch ';' ∈ rest
    · obtain ⟨a, b, rfl, ha⟩ := List.eq_append_cons_of_mem hmem
      have ha' : NoNul a := fun c hc => hs c (by simp [hc])
      have hb : NoNul b := fun c hc => hs c (by simp [hc])
      have hlen : b.length < fuel := by
        simp only [List.length_append, List.length_cons] at hfuel
        omega
      by_cases hlast : a.getLast? = some (ch '\\')
      · obtain ⟨s, rfl⟩ : ∃ s, a = s ++ [ch '\\'] :=
          ⟨a.dropLast, (List.dropLast_append_getLast? _ hlast).symm⟩
        have hc : ch ';' ∉ s := fun h => ha (by simp [h])
        have hmove := @unescapeLoop_move s b done fuel (fun c h => ha' c (by simp [h])) hc hb left
        have hstart : unescaped (s ++ [ch '\\'] ++ ch ';' :: b) = s ++ ch ';' :: unescaped b := by
          rw [List.append_assoc, List.singleton_append, unescaped_append hc, unescaped_escape]
          exact fun _ h => absurd (Option.some.inj h) (by decide)
        obtain ⟨junk, hloop, hjunk⟩ := @ih (done ++ s ++ [ch ';']) b (0 :: left) hb hlen
        have hbuf : done ++ (s ++ [ch '\\'] ++ ch ';' :: b) ++ 0 :: left =
            done ++ s ++ ch '\\' :: ch ';' :: b ++ 0 :: left := by simp
        refine ⟨junk ++ [0], ?_, ?_⟩
        · rw [hbuf, hmove, hloop, hstart]
          simp
        · rw [hstart]
          simp only [List.length_append, List.length_cons, List.length_nil]
          omega
      · have hkeep := @unescapeLoop_keep a done fuel ha' ha hlast (b ++ 0 :: left)
        have hstart : unescaped (a ++ ch ';' :: b) = a ++ ch ';' :: unescaped b := by
          rw [unescaped_append ha fun h => absurd h hlast, unescaped, if_neg]
          exact fun h => absurd h.1 (by decide)
        obtain ⟨junk, hloop, hjunk⟩ := @ih (done ++ a ++ [ch ';']) b left hb hlen
        have hbuf : done ++ (a ++ ch ';' :: b) ++ 0 :: left =
            done ++ a ++ ch ';' :: (b ++ 0 :: left) := by simp
        refine ⟨junk, ?_, ?_⟩
        · rw [hbuf, hkeep, ← List.append_assoc, hloop, hstart]
          simp
        · rw [hstart]
          simp only [List.length_append, List.length_cons]
          omega
    · have hsearch : strchr (ch ';') ((done ++ rest ++ 0 :: left).drop done.length) done.length =
          .ok none := by
        rw [List.append_assoc, List.drop_left]
        exact strchr_none hs hmem (by decide) _
      rw [unescapeLoop, hsearch, ok_bind, unescaped_of_notMem hmem]
      exact ⟨[], rfl, rfl⟩

end

/-- In the memory of a string one backslash goes from before each semicolon that has one, and
    nothing else changes; of an escaped string the string itself is left. -/
theorem spdUnescapeSemicolon_eq {s : CString} (hs : NoNul s) (behind : List UInt8) {fuel : Nat}
    (hfuel : s.length < fuel) :
    (∃ junk, spdUnescapeSemicolon fuel (s ++ 0 :: behind) =
        .ok (unescaped s ++ 0 :: (junk ++ behind)) ∧
      (unescaped s).length + junk.length = s.length) ∧
    ∀ fuel, (escaped s).length < fuel →
      ∃ junk, spdUnescapeSemicolon fuel (escaped s ++ 0 :: behind) =
        .ok (s ++ 0 :: (junk ++ behind)) := by
  constructor
  · exact @unescapeLoop_eq [] s behind fuel hs hfuel
  · intro fuel hfuel
    have hescaped : NoNul (escaped s) := by
      intro c hc
      obtain ⟨d, hd, hc⟩ := List.mem_flatMap.mp hc
      split at hc
      · rcases List.mem_pair.mp hc with rfl | rfl
        · decide
        · decide
      · rw [List.mem_singleton.mp hc]
        exact hs d hd
    obtain ⟨junk, hloop, -⟩ := @unescapeLoop_eq [] (escaped s) behind fuel hescaped hfuel
    rw [unescaped_escaped] at hloop
    exact ⟨junk, hloop⟩

/-- Two backslashes before a semicolon, and a semicolon behind another. -/
theorem spdUnescapeSemicolon_comment :
    (∃ junk, spdUnescapeSemicolon 10 (lit "a\\\\;b;\\;" ++ 0 :: [7]) =
        .ok (unescaped (lit "a\\\\;b;\\;") ++ 0 :: (junk ++ [7])) ∧
      (unescaped (lit "a\\\\;b;\\;")).length + junk.length = (lit "a\\\\;b;\\;").length) ∧
    ∀ fuel, (escaped (lit "a\\\\;b;\\;")).length < fuel →
      ∃ junk, spdUnescapeSemicolon fuel (escaped (lit "a\\\\;b;\\;") ++ 0 :: [7]) =
        .ok (lit "a\\\\;b;\\;" ++ 0 :: (junk ++ [7])) :=
  spdUnescapeSemicolon_eq (by decide +kernel) [7] (by decide +kernel)

example : unescaped (lit "a\\\\;b;\\;") = lit "a\\;b;;" := by decide +kernel

end Spider.Strings.Unescape
