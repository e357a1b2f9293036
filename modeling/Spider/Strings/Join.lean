import Spider.Strings

/-!
# Joining words in a buffer

`spd_str_join` on the memory that it writes. Offset and word number are of type
`int`, and incrementing one past its largest value is an overflow.
-/

namespace Spider.Strings.Join

open Lib Outcome CString

/-- `n++` for an `int`. -/
def incr (n : Nat) : Outcome Nat := if n + 1 < 2 ^ 31 then .ok (n + 1) else .overflow

/-- `s[ofs] = c`, inside the memory at `s`. -/
def store (s : List UInt8) (ofs : Nat) (c : UInt8) : Outcome (List UInt8) :=
  if ofs < s.length then .ok (s.set ofs c) else .fault

/-- `s[ofs++] = c`. -/
def put (s : List UInt8) (ofs : Nat) (c : UInt8) : Outcome (List UInt8 × Nat) := do
  let s ← store s ofs c
  let ofs ← incr ofs
  .ok (s, ofs)

/-- The loop over the characters of a word (`strings.c:189-190`). -/
def wordLoop (len : Nat) : CString → List UInt8 → Nat → Outcome (List UInt8 × Nat)
  | [], s, ofs => .ok (s, ofs)
  | c :: src, s, ofs =>
    if ofs < len then do
      let (s, ofs) ← put s ofs c
      wordLoop len src s ofs
    else .ok (s, ofs)

/-- `if(x > 0) s[ofs++] = ' '`. -/
def separator (x : Nat) (s : List UInt8) (ofs : Nat) : Outcome (List UInt8 × Nat) :=
  if x > 0 then put s ofs (ch ' ') else .ok (s, ofs)

/-- The loop over the words (`strings.c:186-191`), from number `x` on. -/
def wordsLoop (len : Nat) : Nat → List CString → List UInt8 → Nat → Outcome (List UInt8 × Nat)
  | _, [], s, ofs => .ok (s, ofs)
  | x, w :: ws, s, ofs =>
    if ofs < len then do
      let (s, ofs) ← separator x s ofs
      let (s, ofs) ← wordLoop len w s ofs
      let x ← incr x
      wordsLoop len x ws s ofs
    else .ok (s, ofs)

/-- `spd_str_join` (`strings.c:178-196`): the memory at `s` afterwards. -/
def spdStrJoin (s : Option (List UInt8)) (len : Nat) (w : List CString) :
    Outcome (Option (List UInt8)) :=
  match s with
  | none => .ok none
  | some s => do
    let (s, ofs) ← wordsLoop len 0 w s 0
    if ofs = len then
      if ofs = 0 then .fault
      else do
        let s ← store s (ofs - 1) 0
        .ok (some s)
    else do
      let s ← store s ofs 0
      .ok (some s)

/-! ## What the call is for -/

/-- The words, joined by single spaces. -/
def text (w : List CString) : CString := [ch ' '].intercalate w

/-- Only the first `len` bytes were written, and they begin with the text as far as it fits, and a
    null byte. -/
structure Joined (s : List UInt8) (len : Nat) (w : List CString) (s' : List UInt8) : Prop where
  length : s'.length = s.length
  behind : s'.drop len = s.drop len
  string : (text w).take (len - 1) ++ [0] <+: s'

/-- The offset stays in an `int`, and so does the word number: the word of the largest number
    is not there, or there is no room in front of it. -/
def Fits (len : Nat) (w : List CString) : Prop :=
  min len (text w).length < 2 ^ 31 ∧
    (w.length < 2 ^ 31 ∨ len ≤ (text (w.take (2 ^ 31 - 1))).length)

section

variable {len : Nat} {s t : List UInt8} {c : UInt8}

/-- The memory `s` with `t` in front. -/
def overlay (t s : List UInt8) : List UInt8 := t ++ s.drop t.length

theorem length_overlay (h : t.length ≤ s.length) : (overlay t s).length = s.length := by
  rw [overlay, List.length_append, List.length_drop]
  omega

theorem store_overlay (h : t.length < s.length) (c : UInt8) :
    store (overlay t s) t.length c = .ok (overlay (t ++ [c]) s) := by
  rw [store, length_overlay (Nat.le_of_lt h), if_pos h]
  rw [overlay, overlay, List.drop_eq_getElem_cons h, List.set_append_right _ _ (Nat.le_refl _),
    Nat.sub_self, List.set_cons_zero, List.length_append, List.append_assoc]
  rfl

/-- The memory with `t` in front and the offset behind it, if it is an `int`. -/
def stored (t s : List UInt8) : Outcome (List UInt8 × Nat) :=
  if t.length < 2 ^ 31 then .ok (overlay t s, t.length) else .overflow

theorem put_overlay (h : t.length < s.length) (c : UInt8) :
    put (overlay t s) t.length c = stored (t ++ [c]) s := by
  rw [put, store_overlay h c, ok_bind, incr, stored, List.length_append, List.length_singleton]
  split
  · rfl
  · rfl

theorem stored_of_long (h : ¬ t.length < 2 ^ 31) : stored t s = .overflow := if_neg h

theorem stored_of_short (h : t.length < 2 ^ 31) : stored t s = .ok (overlay t s, t.length) :=
  if_pos h

/-- The loop over a word stores what of it fits. -/
theorem wordLoop_overlay (src : CString) (ht : t.length < 2 ^ 31) (hlen : len ≤ s.length) :
    wordLoop len src (overlay t s) t.length = stored (t ++ src.take (len - t.length)) s := by
  induction src generalizing t with
  | nil => rw [List.take_nil, List.append_nil, stored_of_short ht, wordLoop]
  | cons c src ih =>
    rw [wordLoop]
    by_cases hroom : t.length < len
    · rw [if_pos hroom, put_overlay (by omega)]
      obtain ⟨n, hn⟩ : ∃ n, len - t.length = n + 1 := ⟨len - t.length - 1, by omega⟩
      have htake : t ++ (c :: src).take (len - t.length) =
          t ++ [c] ++ src.take (len - (t ++ [c]).length) := by
        rw [hn, List.take_succ_cons, List.length_append, List.length_singleton,
          List.append_assoc, List.singleton_append]
        congr 3
        omega
      rw [htake]
      by_cases hlong : (t ++ [c]).length < 2 ^ 31
      · rw [stored_of_short hlong, ok_bind]
        exact ih hlong
      · rw [stored_of_long hlong, overflow_bind, stored_of_long]
        intro hshort
        rw [List.length_append] at hshort
        omega
    · rw [if_neg hroom, Nat.sub_eq_zero_of_le (by omega), List.take_zero, List.append_nil,
        stored_of_short ht]

theorem isPrefix_joinLoop (len x : Nat) (ws : List CString) (t : CString) :
    t <+: joinLoop len x ws t := by
  induction ws generalizing x t with
  | nil => exact List.prefix_rfl
  | cons w ws ih =>
    rw [joinLoop]
    split
    · refine List.IsPrefix.trans ?_ (ih _ _)
      split
      · exact (List.prefix_append t _).trans (List.prefix_append _ _)
      · exact List.prefix_append t _
    · exact List.prefix_rfl

theorem joinLoop_of_full {x : Nat} {ws : List CString} (h : ¬ t.length < len) :
    joinLoop len x ws t = t := by
  cases ws with
  | nil => rfl
  | cons w ws => rw [joinLoop, if_neg h]

/-- The word number runs past the largest value. -/
def Reached (len x : Nat) (ws : List CString) (t : CString) : Prop :=
  2 ^ 31 - 1 - x < ws.length ∧ (joinLoop len x (ws.take (2 ^ 31 - 1 - x)) t).length < len

/-- With the separator in front of every word but the first. -/
def separated (x : Nat) (t : CString) : CString := if 0 < x then t ++ [ch ' '] else t

theorem joinLoop_cons {x : Nat} {w : CString} {ws : List CString} (h : t.length < len) :
    joinLoop len x (w :: ws) t =
      joinLoop len (x + 1) ws (separated x t ++ w.take (len - (separated x t).length)) := by
  rw [joinLoop, if_pos h]
  rfl

theorem reached_cons {x : Nat} {w : CString} {ws : List CString} (hx : x + 1 < 2 ^ 31)
    (h : t.length < len) : Reached len x (w :: ws) t ↔
      Reached len (x + 1) ws (separated x t ++ w.take (len - (separated x t).length)) := by
  obtain ⟨k, hk⟩ : ∃ k, 2 ^ 31 - 1 - x = k + 1 := ⟨2 ^ 31 - 1 - x - 1, by omega⟩
  have hk' : 2 ^ 31 - 1 - (x + 1) = k := by omega
  rw [Reached, Reached, hk, hk', List.take_succ_cons, joinLoop_cons h, List.length_cons,
    Nat.add_lt_add_iff_right]

/-- The loop over the words stores what `joinLoop` says, unless a number gets too large. -/
theorem wordsLoop_overlay (ws : List CString) {x : Nat} (hx : x < 2 ^ 31) (ht : t.length < 2 ^ 31)
    (hlen : len ≤ s.length) :
    (Reached len x ws t → wordsLoop len x ws (overlay t s) t.length = .overflow) ∧
      (¬ Reached len x ws t →
        wordsLoop len x ws (overlay t s) t.length = stored (joinLoop len x ws t) s) := by
  induction ws generalizing x t with
  | nil =>
    refine ⟨fun h => absurd h.1 (Nat.not_lt_zero _), fun _ => ?_⟩
    rw [joinLoop, stored_of_short ht, wordsLoop]
  | cons w ws ih =>
    by_cases hroom : t.length < len
    · have hsep : separator x (overlay t s) t.length = stored (separated x t) s := by
        unfold separator separated
        split
        · exact put_overlay (by omega) _
        · exact (stored_of_short ht).symm
      -- what has been stored is still there at the end
      have hlong : ∀ u, u <+: separated x t ++ w.take (len - (separated x t).length) →
          ¬ u.length < 2 ^ 31 → stored (joinLoop len x (w :: ws) t) s = .overflow := by
        intro u hu hnot
        apply stored_of_long
        rw [joinLoop_cons hroom]
        have hle := (hu.trans (isPrefix_joinLoop len (x + 1) ws _)).length_le
        omega
      rw [wordsLoop, if_pos hroom, hsep]
      by_cases h1 : (separated x t).length < 2 ^ 31
      · rw [stored_of_short h1, ok_bind]
        dsimp only
        rw [wordLoop_overlay w h1 hlen]
        by_cases h2 : (separated x t ++ w.take (len - (separated x t).length)).length < 2 ^ 31
        · rw [stored_of_short h2, ok_bind]
          dsimp only
          by_cases hx1 : x + 1 < 2 ^ 31
          · rw [incr, if_pos hx1, ok_bind, reached_cons hx1 hroom, joinLoop_cons hroom]
            exact ih hx1 h2
          · have hreached : Reached len x (w :: ws) t := by
              have hzero : 2 ^ 31 - 1 - x = 0 := by omega
              rw [Reached, hzero, List.take_zero]
              exact ⟨Nat.succ_pos _, hroom⟩
            rw [incr, if_neg hx1]
            exact ⟨fun _ => rfl, fun hnot => absurd hreached hnot⟩
        · rw [stored_of_long h2]
          exact ⟨fun _ => rfl, fun _ => (hlong _ List.prefix_rfl h2).symm⟩
      · rw [stored_of_long h1]
        exact ⟨fun _ => rfl, fun _ => (hlong _ (List.prefix_append _ _) h1).symm⟩
    · have hnot : ¬ Reached len x (w :: ws) t := by
        intro h
        rw [Reached, joinLoop_of_full hroom] at h
        exact hroom h.2
      refine ⟨fun h => absurd h hnot, fun _ => ?_⟩
      rw [wordsLoop, if_neg hroom, joinLoop_of_full hroom, stored_of_short ht]

/-! ### The text -/

theorem text_cons (w : CString) (ws : List CString) :
    text (w :: ws) = w ++ ws.flatMap (ch ' ' :: ·) := by
  induction ws generalizing w with
  | nil => simp [text]
  | cons v ws ih =>
    have hrest := ih v
    unfold text at hrest ⊢
    rw [List.intercalate_cons_cons, hrest, List.flatMap_cons]
    simp

/-- Cutting a word off first does not matter. -/
theorem take_append_take (h : t.length ≤ len) (w r : List UInt8) :
    (t ++ w.take (len - t.length) ++ r).take len = (t ++ w ++ r).take len := by
  have hleft : len - t.length - min (len - t.length) w.length = len - t.length - w.length := by
    omega
  rw [List.append_assoc, List.append_assoc, List.take_append, List.take_append,
    List.take_append, List.take_append, List.take_take, Nat.min_self, List.length_take, hleft]

theorem joinLoop_succ (x : Nat) (ws : List CString) (ht : t.length ≤ len) :
    joinLoop len (x + 1) ws t = (t ++ ws.flatMap (ch ' ' :: ·)).take len := by
  induction ws generalizing x t with
  | nil => rw [joinLoop, List.flatMap_nil, List.append_nil, List.take_of_length_le ht]
  | cons w ws ih =>
    by_cases hroom : t.length < len
    · have hsep : separated (x + 1) t = t ++ [ch ' '] := if_pos (Nat.succ_pos x)
      have hsepLen : (t ++ [ch ' ']).length ≤ len := by
        rw [List.length_append]
        exact hroom
      rw [joinLoop_cons hroom, hsep, ih, take_append_take hsepLen, List.flatMap_cons]
      · simp
      · rw [List.length_append, List.length_take]
        omega
    · rw [joinLoop_of_full hroom, List.take_append_of_le_length (by omega),
        List.take_of_length_le ht]

/-- The loops make as much of the text as fits. -/
theorem joinLoop_eq (len : Nat) (w : List CString) : joinLoop len 0 w [] = (text w).take len := by
  cases w with
  | nil => exact List.take_nil.symm
  | cons w ws =>
    by_cases hlen : 0 < len
    · have hsep : separated 0 [] = [] := rfl
      have hnil : ([] : CString).length ≤ len := Nat.zero_le len
      have hword : ([] ++ w.take (len - ([] : CString).length)).length ≤ len := by
        rw [List.nil_append, List.length_take]
        exact Nat.min_le_left _ _
      rw [joinLoop_cons (t := []) hlen, hsep, joinLoop_succ 0 ws hword, take_append_take hnil,
        text_cons, List.nil_append]
    · rw [joinLoop_of_full (t := []) hlen, Nat.eq_zero_of_not_pos hlen, List.take_zero]

theorem reached_iff (w : List CString) : Reached len 0 w [] ↔
    2 ^ 31 ≤ w.length ∧ (text (w.take (2 ^ 31 - 1))).length < len := by
  rw [Reached, joinLoop_eq, List.length_take, Nat.sub_zero]
  constructor
  · intro h
    exact ⟨by omega, by omega⟩
  · intro h
    exact ⟨by omega, by omega⟩

/-! ### The call -/

theorem store_last (h : t.length < s.length) (c d : UInt8) :
    store (overlay (t ++ [c]) s) t.length d = .ok (overlay (t ++ [d]) s) := by
  have hlen : (t ++ [c]).length ≤ s.length := by
    rw [List.length_append]
    exact h
  rw [store, length_overlay hlen, if_pos h]
  simp only [overlay, List.append_assoc, List.length_append, List.length_singleton]
  rw [List.set_append_right _ _ (Nat.le_refl _), Nat.sub_self]
  rfl

theorem joined_overlay {w : List CString} (hlen : 0 < len) (hs : len ≤ s.length) :
    Joined s len w (overlay ((text w).take (len - 1) ++ [0]) s) := by
  have hfront : ((text w).take (len - 1) ++ [0]).length ≤ len := by
    rw [List.length_append, List.length_take, List.length_singleton]
    omega
  refine ⟨length_overlay (Nat.le_trans hfront hs), ?_, List.prefix_append _ _⟩
  rw [overlay, List.drop_append, List.drop_of_length_le hfront, List.nil_append, List.drop_drop]
  congr 1
  omega

theorem spdStrJoin_eq {w : List CString} (hlen : 0 < len) (hs : len ≤ s.length)
    (hfits : Fits len w) :
    spdStrJoin (some s) len w = .ok (some (overlay ((text w).take (len - 1) ++ [0]) s)) := by
  have hnot : ¬ Reached len 0 w [] := by
    rw [reached_iff]
    intro h
    rcases hfits.2 with hfew | hfull
    · omega
    · omega
  have hshort : ((text w).take len).length < 2 ^ 31 := by
    rw [List.length_take]
    exact hfits.1
  have hloop := (wordsLoop_overlay (s := s) (t := []) w (by decide) (by decide) hs).2 hnot
  rw [joinLoop_eq, stored_of_short hshort] at hloop
  have hstart : overlay [] s = s := rfl
  rw [hstart] at hloop
  unfold spdStrJoin
  dsimp only
  rw [show ([] : List UInt8).length = 0 from rfl] at hloop
  rw [hloop, ok_bind]
  dsimp only
  by_cases hfull : ((text w).take len).length = len
  · -- the buffer is full, and its last byte gives way
    obtain ⟨k, rfl⟩ : ∃ k, len = k + 1 := ⟨len - 1, by omega⟩
    have hk : k < (text w).length := by
      rw [List.length_take] at hfull
      omega
    have hlast : (text w).take (k + 1) = (text w).take k ++ [(text w)[k]] := by
      rw [List.take_succ_eq_append_getElem hk]
    have htake : ((text w).take k).length = k := List.length_take_of_le (Nat.le_of_lt hk)
    have hstore := store_last (s := s) (t := (text w).take k) (by omega) (text w)[k] 0
    rw [htake] at hstore
    rw [if_pos hfull, if_neg (by omega), hfull, Nat.add_sub_cancel, hlast, hstore, ok_bind]
  · have hroom : (text w).length < len := by
      rw [List.length_take] at hfull
      omega
    rw [if_neg hfull, List.take_of_length_le (by omega), List.take_of_length_le (by omega),
      store_overlay (by omega), ok_bind]

theorem spdStrJoin_overflow {w : List CString} (hs : len ≤ s.length) (hfits : ¬ Fits len w) :
    spdStrJoin (some s) len w = .overflow := by
  have hloop := wordsLoop_overlay (s := s) (t := []) w (show 0 < 2 ^ 31 by decide) (by decide) hs
  have hover : wordsLoop len 0 w s 0 = .overflow := by
    by_cases hreached : Reached len 0 w []
    · exact hloop.1 hreached
    · have hlong : ¬ ((text w).take len).length < 2 ^ 31 := by
        rw [List.length_take]
        intro hshort
        refine hfits ⟨hshort, ?_⟩
        rw [reached_iff] at hreached
        omega
      have hstored := hloop.2 hreached
      rw [joinLoop_eq, stored_of_long hlong] at hstored
      exact hstored
  unfold spdStrJoin
  dsimp only
  rw [hover]
  rfl

/-- The model without a memory gives the string that is left there. -/
theorem spdStrJoin_string {w : List CString} (hlen : 0 < len) :
    Strings.spdStrJoin len w = .ok ((text w).take (len - 1)) := by
  unfold Strings.spdStrJoin
  dsimp only
  rw [joinLoop_eq, List.length_take]
  by_cases hfull : min len (text w).length = len
  · rw [if_pos hfull, if_neg (by omega), List.dropLast_eq_take, List.take_take, List.length_take,
      Nat.min_eq_left (by omega), hfull]
  · rw [if_neg hfull, List.take_of_length_le (by omega), List.take_of_length_le (by omega)]

end

/-- Joining words is exact up to the buffer exactly when offset and word number stay in an `int`. -/
theorem spdStrJoin_iff {len : Nat} {s : List UInt8} (hlen : 0 < len) (hs : len ≤ s.length)
    (w : List CString) :
    (∃ s', spdStrJoin (some s) len w = .ok (some s') ∧ Joined s len w s') ↔ Fits len w := by
  constructor
  · intro ⟨s', hok, _⟩
    by_contra hfits
    rw [spdStrJoin_overflow hs hfits] at hok
    cases hok
  · exact fun hfits => ⟨_, spdStrJoin_eq hlen hs hfits, joined_overlay hlen hs⟩

/-- The buffer is full right behind a separator. -/
theorem spdStrJoin_iff_show : (∃ s', spdStrJoin (some (List.replicate 6 7)) 5
      [lit "show", lit "fd"] = .ok (some s') ∧
        Joined (List.replicate 6 7) 5 [lit "show", lit "fd"] s') ↔
    Fits 5 [lit "show", lit "fd"] :=
  spdStrJoin_iff (by decide) (by decide) _

/-- A word of `n` characters for a buffer of `n` bytes. -/
theorem spdStrJoin_long {n : Nat} (hn : 2 ^ 31 ≤ n) :
    spdStrJoin (some (List.replicate n 0)) n [List.replicate n (ch 'a')] = .overflow := by
  apply spdStrJoin_overflow
  · rw [List.length_replicate]
  · intro hfits
    have hlen := hfits.1
    rw [text, List.intercalate_singleton, List.length_replicate, Nat.min_self] at hlen
    omega

/-- The offset of a character is incremented past the largest `int`. -/
theorem spdStrJoin_misses :
    spdStrJoin (some (List.replicate (2 ^ 31) 0)) (2 ^ 31) [List.replicate (2 ^ 31) (ch 'a')] =
      .overflow ∧
    ¬ ∀ len s w, 0 < len → len ≤ s.length →
      ∃ s', spdStrJoin (some s) len w = .ok (some s') ∧ Joined s len w s' := by
  have hover := spdStrJoin_long (Nat.le_refl (2 ^ 31))
  refine ⟨hover, fun h => ?_⟩
  obtain ⟨s', hok, -⟩ := h (2 ^ 31) (List.replicate (2 ^ 31) 0) [List.replicate (2 ^ 31) (ch 'a')]
    (Nat.two_pow_pos 31) (Nat.le_of_eq List.length_replicate.symm)
  rw [hover] at hok
  cases hok

end Spider.Strings.Join
