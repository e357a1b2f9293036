import Spider.Lib.CInt
import Spider.Lib.CString

/-!
# Several commands in one buffer

`spd_cli_command_multiple_full` copies a buffer byte by byte into a command of
512 bytes. A null byte ends the command: it is executed, and the next one begins.
Nothing stops the copy at the end of the 512 bytes.
-/

namespace Spider.Cli

open Lib Outcome CInt CString

/-- `char cmd[512]`. -/
abbrev Cmd := Vector UInt8 512

/-- `cmd[y] = c`. -/
def storeCmd (cmd : Cmd) (y : Nat) (c : UInt8) : Outcome Cmd :=
  if h : y < 512 then .ok (cmd.set y c h) else .fault

section

variable {σ : Type}

/-- The loop over the bytes from number `x` on (`cli.c:663-671`); `command` is what
    `spd_cli_command_full` does with a command. -/
def multipleLoop (command : σ → CString → σ) :
    List UInt8 → Nat → Cmd → Nat → Nat → σ → Outcome (Nat × σ)
  | [], _, _, _, count, st => .ok (count, st)
  | c :: s, x, cmd, y, count, st => do
    let cmd ← storeCmd cmd y c
    if c = 0 then
      let st := command st (CString.cut cmd.toList)
      let x ← intSucc x
      multipleLoop command s x cmd 0 (count + 1) st
    else
      let x ← intSucc x
      multipleLoop command s x cmd (y + 1) count st

/-- `spd_cli_command_multiple_full` (`cli.c:658-673`) on the bytes `s`; `cmd` is what is in the
    array before it is written. -/
def spdCliCommandMultipleFull (command : σ → CString → σ) (cmd : Cmd) (s : List UInt8) (st : σ) :
    Outcome (Nat × σ) :=
  multipleLoop command s 0 cmd 0 0 st

end

/-- The parts of the bytes that have a null byte behind them. -/
def segments (s : List UInt8) : List CString := (s.splitOn 0).dropLast

/-- What is behind the last null byte. -/
def unterminated (s : List UInt8) : List UInt8 := (s.splitOn 0).getLast (by simp)

/-- Each command has room in the array with its null byte, and so has what is not a command. -/
structure Fits (s : List UInt8) : Prop where
  segments : ∀ w ∈ segments s, w.length < 512
  rest : (unterminated s).length ≤ 512

section

variable {σ : Type} {command : σ → CString → σ} {cur s : List UInt8} {cmd : Cmd} {x count : Nat}
  {st : σ} {r : Nat × σ}

theorem segments_of_notMem (h : 0 ∉ s) : segments s = [] := by
  rw [segments, List.splitOn_eq_singleton h]
  rfl

theorem unterminated_of_notMem (h : 0 ∉ s) : unterminated s = s := by
  simp only [unterminated, List.splitOn_eq_singleton h, List.getLast_singleton]

theorem segments_append (h : 0 ∉ cur) : segments (cur ++ 0 :: s) = cur :: segments s := by
  rw [segments, List.splitOn_append_cons_self_of_not_mem h,
    List.dropLast_cons_of_ne_nil (List.splitOn_ne_nil 0 s), segments]

theorem unterminated_append (h : 0 ∉ cur) : unterminated (cur ++ 0 :: s) = unterminated s := by
  simp only [unterminated, List.splitOn_append_cons_self_of_not_mem h,
    List.getLast_cons (List.splitOn_ne_nil 0 s)]

theorem fits_append_iff (h : 0 ∉ cur) : Fits (cur ++ 0 :: s) ↔ cur.length < 512 ∧ Fits s := by
  constructor
  · rintro ⟨hsegments, hrest⟩
    rw [segments_append h, List.forall_mem_cons] at hsegments
    rw [unterminated_append h] at hrest
    exact ⟨hsegments.1, hsegments.2, hrest⟩
  · rintro ⟨hcur, hsegments, hrest⟩
    refine ⟨?_, ?_⟩
    · rw [segments_append h, List.forall_mem_cons]
      exact ⟨hcur, hsegments⟩
    · rw [unterminated_append h]
      exact hrest

/-- What comes before the first null byte is no longer than the array. -/
theorem Fits.length_le (h : Fits (cur ++ s)) (hcur : 0 ∉ cur) : cur.length ≤ 512 := by
  by_cases hs : 0 ∈ s
  · obtain ⟨a, b, rfl, ha⟩ := List.eq_append_cons_of_mem hs
    rw [← List.append_assoc] at h
    have hlt := ((fits_append_iff (by simp [hcur, ha])).mp h).1
    rw [List.length_append] at hlt
    omega
  · have hrest := h.rest
    rw [unterminated_of_notMem (by simp [hcur, hs]), List.length_append] at hrest
    omega

/-- Nothing goes behind what fills the array. -/
theorem not_fits_of_full (hcur : 0 ∉ cur) (hfull : cur.length = 512) (c : UInt8) :
    ¬ Fits (cur ++ c :: s) := by
  intro hfits
  by_cases hc : c = 0
  · subst hc
    exact absurd ((fits_append_iff hcur).mp hfits).1 (by omega)
  · rw [List.append_cons] at hfits
    have hle := hfits.length_le (by simp [hcur, Ne.symm hc])
    rw [List.length_append, List.length_singleton] at hle
    omega

/-- The array holds the command so far. -/
theorem storeCmd_eq (hlen : cur.length < 512) (hcmd : cmd.toList.take cur.length = cur)
    (c : UInt8) : ∃ cmd' behind, storeCmd cmd cur.length c = .ok cmd' ∧
      cmd'.toList = cur ++ c :: behind := by
  refine ⟨cmd.set cur.length c hlen, cmd.toList.drop (cur.length + 1), dif_pos hlen, ?_⟩
  rw [Vector.toList_set, List.set_eq_take_append_cons_drop,
    if_pos (by rw [Vector.length_toList]; exact hlen), hcmd]

/-- The loop returns when everything fits, and has executed what was terminated. -/
theorem multipleLoop_eq_ok_iff (hx : x < 2 ^ 31) (hcur : 0 ∉ cur) (hlen : cur.length ≤ 512)
    (hcmd : cmd.toList.take cur.length = cur) :
    multipleLoop command s x cmd cur.length count st = .ok r ↔
      (x + s.length < 2 ^ 31 ∧ Fits (cur ++ s)) ∧
        r = (count + (segments (cur ++ s)).length, (segments (cur ++ s)).foldl command st) := by
  induction s generalizing x cur cmd count st with
  | nil =>
    have hfits : Fits cur := by
      refine ⟨?_, ?_⟩
      · rw [segments_of_notMem hcur]
        nofun
      · rw [unterminated_of_notMem hcur]
        exact hlen
    rw [multipleLoop, List.append_nil, segments_of_notMem hcur]
    constructor
    · intro h
      exact ⟨⟨hx, hfits⟩, (Outcome.ok.inj h).symm⟩
    · rintro ⟨-, rfl⟩
      rfl
  | cons c s ih =>
    rcases Nat.lt_or_eq_of_le hlen with hlt | hfull
    · obtain ⟨cmd', behind, hstore, hcmd'⟩ := storeCmd_eq hlt hcmd c
      rw [multipleLoop, hstore, ok_bind]
      by_cases hc : c = 0
      · subst hc
        have hcut : CString.cut cmd'.toList = cur := by
          rw [hcmd']
          exact cut_append_zero (fun c hc hzero => hcur (hzero ▸ hc)) behind
        rw [if_pos rfl, hcut, segments_append hcur, fits_append_iff hcur]
        by_cases hsucc : x + 1 < 2 ^ 31
        · have hrest : multipleLoop command s (x + 1) cmd' 0 (count + 1) (command st cur) = .ok r ↔
              (x + 1 + s.length < 2 ^ 31 ∧ Fits s) ∧ r = (count + 1 + (segments s).length,
                (segments s).foldl command (command st cur)) :=
            @ih [] cmd' (x + 1) _ _ hsucc List.not_mem_nil (Nat.zero_le 512) List.take_zero
          rw [intSucc_eq hsucc, ok_bind, hrest]
          simp only [hlt, true_and, List.length_cons, List.foldl_cons]
          rw [show x + 1 + s.length = x + (s.length + 1) by omega,
            show count + 1 + (segments s).length = count + ((segments s).length + 1) by omega]
        · rw [intSucc, if_neg hsucc, overflow_bind, List.length_cons]
          exact ⟨nofun, fun h => absurd h.1.1 (by omega)⟩
      · have hcur' : 0 ∉ cur ++ [c] := by simp [hcur, Ne.symm hc]
        have hlen' : (cur ++ [c]).length = cur.length + 1 := by simp
        have hsplit : cur ++ c :: s = (cur ++ [c]) ++ s := by simp
        rw [if_neg hc, hsplit]
        by_cases hsucc : x + 1 < 2 ^ 31
        · have htake : cmd'.toList.take (cur ++ [c]).length = cur ++ [c] := by
            rw [hcmd', List.append_cons cur c behind, List.take_left]
          rw [intSucc_eq hsucc, ok_bind, ← hlen', ih hsucc hcur' (by omega) htake, List.length_cons,
            show x + 1 + s.length = x + (s.length + 1) by omega]
        · rw [intSucc, if_neg hsucc, overflow_bind, List.length_cons]
          exact ⟨nofun, fun h => absurd h.1.1 (by omega)⟩
    · have hmiss : ¬ Fits (cur ++ c :: s) := not_fits_of_full hcur hfull c
      rw [multipleLoop, storeCmd, dif_neg (by omega), fault_bind]
      exact ⟨nofun, fun h => absurd h.1.2 hmiss⟩

/-- The commands of a buffer are executed, each in full and in order, exactly when its bytes can
    be counted in an `int` and no command outgrows the array. -/
theorem spdCliCommandMultipleFull_iff (command : σ → CString → σ) (cmd : Cmd) (s : List UInt8)
    (st : σ) : spdCliCommandMultipleFull command cmd s st =
        .ok ((segments s).length, (segments s).foldl command st) ↔
      s.length < 2 ^ 31 ∧ Fits s := by
  have hloop : multipleLoop command s 0 cmd 0 0 st =
      .ok ((segments s).length, (segments s).foldl command st) ↔ (0 + s.length < 2 ^ 31 ∧ Fits s) ∧
        ((segments s).length, (segments s).foldl command st) =
          (0 + (segments s).length, (segments s).foldl command st) :=
    @multipleLoop_eq_ok_iff _ _ [] s cmd 0 0 st _ (by decide) List.not_mem_nil (Nat.zero_le 512)
      List.take_zero
  rw [spdCliCommandMultipleFull, hloop]
  simp

/-- Commands of 511 bytes are the longest, and one byte more is written behind the array. -/
theorem multiple_long : ∃ s : List UInt8, ∃ cmd,
    spdCliCommandMultipleFull (fun st w => st ++ [w]) cmd s [] = .fault ∧
    spdCliCommandMultipleFull (fun st w => st ++ [w]) cmd s [] ≠
      .ok ((segments s).length, (segments s).foldl (fun st w => st ++ [w]) []) := by
  refine ⟨List.replicate 512 97 ++ [0], Vector.replicate 512 0, ?_⟩
  have hrun : spdCliCommandMultipleFull (fun st w => st ++ [w]) (Vector.replicate 512 0)
      (List.replicate 512 97 ++ [0]) [] = .fault := by decide +kernel
  rw [hrun]
  exact ⟨rfl, nofun⟩

end

end Spider.Cli
