import Spider.Lib.CString
import Spider.Lib.Outcome

/-!
# Splitting a command line

`parse_args` copies a line into a block of its own, breaks it into words in
place and fills an array of pointers to the words. A word in double quotes may
hold blanks, and a backslash takes the next character literally.
-/

namespace Spider.Cli

open Lib Outcome CString

/-- An element of `argv`: not written yet, null, or a pointer into the copy. -/
inductive Slot where
  | unset
  | null
  | ptr (offset : Nat)
  deriving DecidableEq, Repr

/-- The variables of `parse_args`; `cur` is an offset into `duplicate`. -/
structure Scan where
  duplicate : List UInt8
  cur : Nat
  argv : List Slot
  x : Nat
  quoted : Bool
  escaped : Bool
  whitespace : Bool
  deriving DecidableEq, Repr

namespace Scan

/-- `*cur++ = c`. -/
def put (st : Scan) (c : UInt8) : Outcome Scan :=
  if st.cur < st.duplicate.length then
    .ok { st with duplicate := st.duplicate.set st.cur c, cur := st.cur + 1 }
  else .fault

/-- `argv[x++] = cur`, and the white space ends. -/
def newArg (st : Scan) : Outcome Scan :=
  if st.x < st.argv.length then
    .ok { st with argv := st.argv.set st.x (.ptr st.cur), x := st.x + 1, whitespace := false }
  else .fault

end Scan

/-- One round of the loop of `parse_args` (`cli.c:397-424`). -/
def scanChar (c : UInt8) (st : Scan) : Outcome Scan :=
  if c = ch '"' ∧ st.escaped = false then
    let st := { st with quoted := !st.quoted }
    if st.quoted ∧ st.whitespace then st.newArg else .ok st
  else if (c = ch ' ' ∨ c = ch '\t') ∧ ¬ (st.quoted ∨ st.escaped) then
    if st.whitespace = false then do
      let st ← st.put 0
      .ok { st with whitespace := true }
    else .ok st
  else if c = ch '\\' ∧ st.escaped = false then .ok { st with escaped := true }
  else do
    let st ← if st.whitespace then st.newArg else .ok st
    let st ← st.put c
    .ok { st with escaped := false }

/-- The loop of `parse_args` (`cli.c:392-425`). -/
def scan (max : Int) : CString → Scan → Outcome Scan
  | [], st => .ok st
  | c :: s, st =>
    -- too many arguments
    if max - 1 ≤ st.x then .ok st
    else do
      let st ← scanChar c st
      scan max s st

/-- What `parse_args` returns and stores. -/
structure Parsed where
  duplicate : List UInt8
  argv : List Slot
  argc : Nat
  trailingwhitespace : Bool
  deriving DecidableEq, Repr

/-- `parse_args` (`cli.c:372-435`); `alloc` tells whether the copy can be made, and `argv` has
    `max` elements. -/
def parseArgs (alloc : Bool) (s : Option CString) (max : Int) : Outcome (Option Parsed) :=
  match s with
  | none => .ok none
  | some s =>
    if alloc = false then .ok none
    else do
      let st ← scan max s
        ⟨s ++ [0], 0, List.replicate max.toNat .unset, 0, false, false, true⟩
      let st ← st.put 0
      if st.x < st.argv.length then
        .ok (some ⟨st.duplicate, st.argv.set st.x .null, st.x, st.whitespace⟩)
      else .fault

/-- The string that `argv[i]` points to. -/
def Parsed.arg (p : Parsed) (i : Nat) : Option CString :=
  match p.argv[i]? with
  | some (.ptr offset) => some ((p.duplicate.drop offset).takeWhile (· != 0))
  | _ => none

/-! ## Quoting -/

/-- A backslash in front of each double quote and each backslash. -/
def escape (a : CString) : CString :=
  a.flatMap fun c => if c = ch '"' ∨ c = ch '\\' then [ch '\\', c] else [c]

/-- The string in double quotes. -/
def quote (a : CString) : CString := ch '"' :: escape a ++ [ch '"']

/-- The strings in quotes, with single spaces between them. -/
def line : List CString → CString
  | [] => []
  | [a] => quote a
  | a :: as => quote a ++ ch ' ' :: line as

/-- The line is split into the strings it was made of, within the copy and the array. -/
def Inverts (max : Int) (args : List CString) : Prop :=
  ∃ p, parseArgs true (some (line args)) max = .ok (some p) ∧ p.argc = args.length ∧
    (∀ i, i < args.length → p.arg i = args[i]?) ∧ p.argv[args.length]? = some .null ∧
    p.duplicate.length = (line args).length + 1 ∧ p.argv.length = max.toNat

section

variable {max : Int} {out rest : List UInt8} {argv : List Slot} {x : Nat} {a : CString}
  {args done : List CString} {s : CString}

/-- The scan has written `out` to the copy. -/
def scanAt (out rest : List UInt8) (argv : List Slot) (x : Nat)
    (quoted escaped whitespace : Bool) : Scan :=
  ⟨out ++ rest, out.length, argv, x, quoted, escaped, whitespace⟩

theorem scanAt_put {c r : UInt8} {q e w : Bool} :
    (scanAt out (r :: rest) argv x q e w).put c = .ok (scanAt (out ++ [c]) rest argv x q e w) := by
  simp [Scan.put, scanAt]

/-- A character after the limit is not looked at. -/
theorem scan_full {st : Scan} (hx : max - 1 ≤ st.x) : scan max s st = .ok st := by
  cases s with
  | nil => rfl
  | cons c s => rw [scan, if_pos hx]

theorem scan_cons {st st' : Scan} {c : UInt8} (hx : (st.x : Int) < max - 1)
    (hc : scanChar c st = .ok st') : scan max (c :: s) st = scan max s st' := by
  rw [scan, if_neg (by omega), hc, ok_bind]

/-- The opening quote. -/
theorem scan_open (hx : (x : Int) < max - 1) (hargv : x < argv.length) :
    scan max (ch '"' :: s) (scanAt out rest argv x false false true)
      = scan max s (scanAt out rest (argv.set x (.ptr out.length)) (x + 1) true false false) := by
  apply scan_cons hx
  simp [scanChar, scanAt, Scan.newArg, hargv]

/-- The closing quote. -/
theorem scan_close (hx : (x : Int) < max - 1) :
    scan max (ch '"' :: s) (scanAt out rest argv x true false false)
      = scan max s (scanAt out rest argv x false false false) := by
  apply scan_cons hx
  simp [scanChar, scanAt]

/-- The space between two words. -/
theorem scan_space {r : UInt8} (hx : (x : Int) < max - 1) :
    scan max (ch ' ' :: s) (scanAt out (r :: rest) argv x false false false)
      = scan max s (scanAt (out ++ [0]) rest argv x false false true) := by
  apply scan_cons hx
  have hspace : scanChar (ch ' ') (scanAt out (r :: rest) argv x false false false)
      = (scanAt out (r :: rest) argv x false false false).put 0 >>= fun st =>
        .ok { st with whitespace := true } := by
    rfl
  rw [hspace, scanAt_put, ok_bind]
  rfl

/-- A character of a quoted word that needs no backslash. -/
theorem scan_plain {c r : UInt8} (hx : (x : Int) < max - 1) (hq : c ≠ ch '"') (hb : c ≠ ch '\\') :
    scan max (c :: s) (scanAt out (r :: rest) argv x true false false)
      = scan max s (scanAt (out ++ [c]) rest argv x true false false) := by
  apply scan_cons hx
  have hput : scanChar c (scanAt out (r :: rest) argv x true false false)
      = (scanAt out (r :: rest) argv x true false false).put c >>= fun st =>
        .ok { st with escaped := false } := by
    simp [scanChar, scanAt, hq, hb]
  rw [hput, scanAt_put, ok_bind]
  rfl

/-- A character of a quoted word behind a backslash. -/
theorem scan_escaped {c r : UInt8} (hx : (x : Int) < max - 1) :
    scan max (ch '\\' :: c :: s) (scanAt out (r :: rest) argv x true false false)
      = scan max s (scanAt (out ++ [c]) rest argv x true false false) := by
  have hslash : scanChar (ch '\\') (scanAt out (r :: rest) argv x true false false)
      = .ok (scanAt out (r :: rest) argv x true true false) := by
    rfl
  have hput : scanChar c (scanAt out (r :: rest) argv x true true false)
      = (scanAt out (r :: rest) argv x true true false).put c >>= fun st =>
        .ok { st with escaped := false } := by
    simp [scanChar, scanAt]
  rw [scan_cons hx hslash]
  apply scan_cons hx
  rw [hput, scanAt_put, ok_bind]
  rfl

/-- The inside of a quoted word is copied. -/
theorem scan_body (hx : (x : Int) < max - 1) (a : CString) (hrest : a.length ≤ rest.length) :
    scan max (escape a ++ s) (scanAt out rest argv x true false false)
      = scan max s (scanAt (out ++ a) (rest.drop a.length) argv x true false false) := by
  induction a generalizing out rest with
  | nil => simp [escape]
  | cons c a ih =>
    cases rest with
    | nil => simp at hrest
    | cons r rest =>
      have hlen : a.length ≤ rest.length := by simpa using hrest
      have hcons : escape (c :: a)
          = (if c = ch '"' ∨ c = ch '\\' then [ch '\\', c] else [c]) ++ escape a := rfl
      rw [hcons, List.append_assoc, List.length_cons, List.drop_succ_cons, List.append_cons out]
      split
      · rw [List.cons_append, List.cons_append, List.nil_append, scan_escaped hx]
        exact ih hlen
      · next hplain =>
        rw [not_or] at hplain
        rw [List.singleton_append, scan_plain hx hplain.1 hplain.2]
        exact ih hlen

/-- A quoted word in front of which there is room in `argv`. -/
theorem scan_quote (hx : (x : Int) + 1 < max - 1) (hargv : x < argv.length)
    (hrest : a.length ≤ rest.length) :
    scan max (quote a ++ s) (scanAt out rest argv x false false true)
      = scan max s (scanAt (out ++ a) (rest.drop a.length) (argv.set x (.ptr out.length)) (x + 1)
          false false false) := by
  rw [quote, List.cons_append, List.cons_append, List.append_assoc, List.singleton_append,
    scan_open (by omega) hargv, scan_body (by omega) a hrest, scan_close (by omega)]

/-- A quoted word that takes the last place: the scan ends behind the opening quote. -/
theorem scan_quote_full (hx : (x : Int) + 1 = max - 1) (hargv : x < argv.length) :
    scan max (quote a ++ s) (scanAt out rest argv x false false true)
      = .ok (scanAt out rest (argv.set x (.ptr out.length)) (x + 1) true false false) := by
  rw [quote, List.cons_append, List.cons_append, scan_open (by omega) hargv]
  apply scan_full
  simp only [scanAt]
  omega

/-! ## The words found so far -/

/-- The first elements of `argv` point to the strings in `out`. -/
def Words (out : List UInt8) (argv : List Slot) (done : List CString) : Prop :=
  ∀ i, (hi : i < done.length) → ∃ offset tail, argv[i]? = some (.ptr offset) ∧
    offset ≤ out.length ∧ out.drop offset = done[i] ++ 0 :: tail

theorem Words.append (hw : Words out argv done) (more : List UInt8) :
    Words (out ++ more) argv done := by
  intro i hi
  obtain ⟨offset, tail, hptr, hle, hdrop⟩ := hw i hi
  refine ⟨offset, tail ++ more, hptr, ?_, ?_⟩
  · rw [List.length_append]
    omega
  · rw [List.drop_append_of_le_length hle, hdrop, List.append_assoc, List.cons_append]

/-- A word is finished. -/
theorem Words.concat (hw : Words out argv done) (hx : done.length < argv.length) (a : CString) :
    Words (out ++ a ++ [0]) (argv.set done.length (.ptr out.length)) (done ++ [a]) := by
  intro i hi
  rw [List.length_append, List.length_singleton] at hi
  by_cases hlast : i = done.length
  · subst hlast
    refine ⟨out.length, [], ?_, ?_, ?_⟩
    · rw [List.getElem?_set_self hx]
    · simp
    · simp
  · have hin : i < done.length := by omega
    rw [List.append_assoc]
    obtain ⟨offset, tail, hptr, hle, hdrop⟩ := (hw.append (a ++ [0])) i hin
    refine ⟨offset, tail, ?_, hle, ?_⟩
    · rw [List.getElem?_set_ne (Ne.symm hlast), hptr]
    · rw [hdrop, List.getElem_append_left hin]

theorem length_le_escape (a : CString) : a.length ≤ (escape a).length := by
  induction a with
  | nil => exact Nat.le_refl _
  | cons c a ih =>
    rw [escape, List.flatMap_cons, List.length_append, List.length_cons]
    have hhead : 1 ≤ (if c = ch '"' ∨ c = ch '\\' then [ch '\\', c] else [c]).length := by
      split <;> simp
    have htail : a.length ≤ (a.flatMap fun c =>
        if c = ch '"' ∨ c = ch '\\' then [ch '\\', c] else [c]).length := ih
    omega

theorem length_quote (a : CString) : a.length + 2 ≤ (quote a).length := by
  have hle := length_le_escape a
  simp only [quote, List.length_append, List.length_cons, List.length_nil]
  omega

/-- What becomes of the strings when `n` places of `argv` are taken: one that takes the last
    place loses its characters. -/
def kept (max : Int) (n : Nat) (args : List CString) : List CString :=
  if (n + args.length : Int) < max - 1 then args else args.dropLast ++ [[]]

theorem kept_cons {b : CString} (n : Nat) (as : List CString) :
    kept max n (a :: b :: as) = a :: kept max (n + 1) (b :: as) := by
  have hcount : ((n + (a :: b :: as).length : Int) < max - 1) ↔
      (((n + 1 : Nat) + (b :: as).length : Int) < max - 1) := by
    simp only [List.length_cons]
    omega
  by_cases hroom : (n + (a :: b :: as).length : Int) < max - 1
  · rw [kept, if_pos hroom, kept, if_pos (hcount.mp hroom)]
  · rw [kept, if_neg hroom, kept, if_neg (fun h => hroom (hcount.mpr h)), List.dropLast_cons_cons,
      List.cons_append]

/-- The scan of a line of quoted strings. -/
theorem scan_line (hne : args ≠ []) (hw : Words out argv done)
    (hargv : (argv.length : Int) = max) (hcount : (done.length + args.length : Int) < max)
    (hrest : (line args).length ≤ rest.length) :
    ∃ out' rest' argv' q,
      scan max (line args) (scanAt out rest argv done.length false false true)
        = .ok (scanAt out' rest' argv' (done.length + args.length) q false false) ∧
      argv'.length = argv.length ∧ out'.length + rest'.length = out.length + rest.length ∧
      rest.length ≤ rest'.length + (line args).length ∧
      Words (out' ++ [0]) argv' (done ++ kept max done.length args) := by
  induction args generalizing out rest argv done with
  | nil => exact absurd rfl hne
  | cons a args ih =>
    have hx : done.length < argv.length := by
      simp only [List.length_cons] at hcount
      omega
    have hquote := length_quote a
    cases args with
    | nil =>
      have hlen : a.length ≤ rest.length := by
        rw [line] at hrest
        omega
      by_cases hroom : (done.length : Int) + 1 < max - 1
      · refine ⟨out ++ a, rest.drop a.length, argv.set done.length (.ptr out.length), false,
          ?_, ?_, ?_, ?_, ?_⟩
        · rw [line, ← List.append_nil (quote a), scan_quote hroom hx hlen]
          rfl
        · simp
        · simp only [List.length_append, List.length_drop]
          omega
        · simp only [line, List.length_drop]
          omega
        · rw [kept, if_pos (by simpa using hroom)]
          exact hw.concat hx a
      · refine ⟨out, rest, argv.set done.length (.ptr out.length), true, ?_, ?_, ?_, ?_, ?_⟩
        · rw [line, ← List.append_nil (quote a), scan_quote_full _ hx]
          · rfl
          · simp only [List.length_singleton] at hcount
            omega
        · simp
        · rfl
        · simp
        · rw [kept, if_neg (by simpa using hroom)]
          simpa using hw.concat hx []
    | cons b args =>
      have hroom : (done.length : Int) + 1 < max - 1 := by
        simp only [List.length_cons] at hcount
        omega
      have hsplit : line (a :: b :: args) = quote a ++ ch ' ' :: line (b :: args) := rfl
      rw [hsplit, List.length_append, List.length_cons] at hrest
      obtain ⟨r, rest1, hr⟩ : ∃ r rest1, rest.drop a.length = r :: rest1 := by
        cases h : rest.drop a.length with
        | nil =>
          have hzero := congrArg List.length h
          simp only [List.length_drop, List.length_nil] at hzero
          omega
        | cons r rest1 => exact ⟨r, rest1, rfl⟩
      have hrlen := congrArg List.length hr
      simp only [List.length_drop, List.length_cons] at hrlen
      have hw' := hw.concat hx a
      have hlen' : (done ++ [a]).length = done.length + 1 := by simp
      have hcount' : ((done ++ [a]).length + (b :: args).length : Int) < max := by
        simp only [List.length_append, List.length_cons, List.length_nil] at hcount ⊢
        omega
      have hrest1 : (line (b :: args)).length ≤ rest1.length := by omega
      obtain ⟨out', rest', argv', q, hscan, hargv', hsum, hroom', hwords⟩ :=
        ih (by simp) hw' (by simpa using hargv) hcount' hrest1
      rw [hlen'] at hscan hwords
      refine ⟨out', rest', argv', q, ?_, ?_, ?_, ?_, ?_⟩
      · rw [hsplit, scan_quote hroom hx (by omega), hr, scan_space (by push_cast; omega), hscan,
          List.length_cons (a := a), Nat.add_right_comm done.length 1, Nat.add_assoc done.length]
      · simpa using hargv'
      · simp only [List.length_append, List.length_singleton] at hsum
        omega
      · rw [hsplit, List.length_append, List.length_cons]
        omega
      · rw [kept_cons]
        simpa using hwords

theorem length_kept (n : Nat) (hne : args ≠ []) : (kept max n args).length = args.length := by
  rw [kept]
  split
  · rfl
  · have hpos := List.length_pos_of_ne_nil hne
    simp only [List.length_append, List.length_dropLast, List.length_singleton]
    omega

theorem noNul_kept (n : Nat) (hnul : ∀ a ∈ args, NoNul a) : ∀ a ∈ kept max n args, NoNul a := by
  intro a ha
  rw [kept] at ha
  split at ha
  · exact hnul a ha
  · rcases List.mem_append.mp ha with hin | hin
    · exact hnul a ((List.dropLast_sublist args).mem hin)
    · obtain rfl := List.mem_singleton.mp hin
      intro c hc
      cases hc

/-- A string ends at its null byte. -/
theorem takeWhile_string (ha : NoNul a) (tail : List UInt8) :
    (a ++ 0 :: tail).takeWhile (· != 0) = a := by
  induction a with
  | nil => simp
  | cons c a ih =>
    have hc : c ≠ 0 := ha c List.mem_cons_self
    rw [List.cons_append, List.takeWhile_cons_of_pos (by simpa using hc),
      ih fun d hd => ha d (List.mem_cons_of_mem c hd)]

/-! ## The whole line -/

/-- What `parse_args` makes of a line of quoted strings. -/
theorem parseArgs_line (hmax : 2 ≤ max) (hlen : (args.length : Int) ≤ max - 1)
    (hnul : ∀ a ∈ args, NoNul a) :
    ∃ p, parseArgs true (some (line args)) max = .ok (some p) ∧ p.argc = args.length ∧
      (∀ i, i < args.length → p.arg i = (kept max 0 args)[i]?) ∧
      p.argv[args.length]? = some .null ∧ p.duplicate.length = (line args).length + 1 ∧
      p.argv.length = max.toNat := by
  have hargv : ((List.replicate max.toNat Slot.unset).length : Int) = max := by
    rw [List.length_replicate]
    omega
  by_cases hne : args = []
  · subst hne
    have hzero : 0 < (List.replicate max.toNat Slot.unset).length := by omega
    refine ⟨⟨[0], (List.replicate max.toNat .unset).set 0 .null, 0, true⟩, ?_, rfl, ?_, ?_, rfl, ?_⟩
    · simp [parseArgs, line, scan, Scan.put]
      omega
    · intro i hi
      simp at hi
    · rw [List.length_nil, List.getElem?_set_self hzero]
    · simp
  · have hnone : Words [] (List.replicate max.toNat .unset) [] := by
      intro i hi
      simp at hi
    have hcount : (([] : List CString).length + args.length : Int) < max := by
      simpa using Int.lt_of_le_sub_one hlen
    have hcopy : (line args).length ≤ (line args ++ [0]).length := by simp
    obtain ⟨out, rest, argv, q, hscan, hlength, hsum, hroom, hwords⟩ :=
      scan_line hne hnone hargv hcount hcopy
    simp only [List.length_nil, List.length_append, List.length_singleton, Nat.zero_add]
      at hscan hsum hroom
    rw [List.length_nil, List.nil_append] at hwords
    cases rest with
    | nil =>
      simp only [List.length_nil] at hroom
      omega
    | cons r rest =>
      have hfit : args.length < argv.length := by omega
      have hput : (scanAt out (r :: rest) argv args.length q false false).put 0
          = .ok (scanAt (out ++ [0]) rest argv args.length q false false) := scanAt_put
      refine ⟨⟨out ++ [0] ++ rest, argv.set args.length .null, args.length, false⟩, ?_, rfl, ?_, ?_,
        ?_, ?_⟩
      · have hstart : (⟨line args ++ [0], 0, List.replicate max.toNat .unset, 0, false, false, true⟩
            : Scan) = scanAt [] (line args ++ [0]) (List.replicate max.toNat .unset) 0 false false
              true := rfl
        simp only [parseArgs, hstart, hscan, ok_bind, hput]
        simp [scanAt, hfit]
      · intro i hi
        have hik : i < (kept max 0 args).length := by rwa [length_kept 0 hne]
        obtain ⟨offset, tail, hptr, hle, hdrop⟩ := hwords i hik
        have hmem : (kept max 0 args)[i] ∈ kept max 0 args := List.getElem_mem hik
        have hslot : (argv.set args.length Slot.null)[i]? = some (.ptr offset) := by
          rw [List.getElem?_set_ne (by omega), hptr]
        have hstring : (out ++ [0] ++ rest).drop offset
            = (kept max 0 args)[i] ++ 0 :: (tail ++ rest) := by
          rw [List.drop_append_of_le_length hle, hdrop, List.append_assoc, List.cons_append]
        rw [Parsed.arg, hslot]
        simp only [hstring]
        rw [takeWhile_string (noNul_kept 0 hnul _ hmem), List.getElem?_eq_getElem hik]
      · rw [List.getElem?_set_self hfit]
      · simp only [List.length_append, List.length_cons, List.length_nil] at hsum ⊢
        omega
      · rw [List.length_set, hlength, List.length_replicate]

/-- A line of quoted strings is split into these strings exactly when they leave a place of
    `argv` besides the one for the null pointer, or the last of them is empty. -/
theorem parseArgs_inverts_iff (hmax : 2 ≤ max) (hlen : (args.length : Int) ≤ max - 1)
    (hnul : ∀ a ∈ args, NoNul a) :
    Inverts max args ↔ (args.length : Int) < max - 1 ∨ args.getLast? = some [] := by
  obtain ⟨p, hp, hargc, harg, hnull, hdup, hargv⟩ := parseArgs_line hmax hlen hnul
  constructor
  · rintro ⟨p', hp', -, harg', -⟩
    obtain rfl := Option.some.inj (Outcome.ok.inj (hp.symm.trans hp'))
    by_cases hroom : (args.length : Int) < max - 1
    · exact Or.inl hroom
    · right
      have hpos : 0 < args.length := by omega
      have hkept : kept max 0 args = args.dropLast ++ [[]] := by
        rw [kept, if_neg (by simpa using hroom)]
      have hlast := harg (args.length - 1) (by omega)
      rw [harg' (args.length - 1) (by omega), hkept] at hlast
      rw [List.getLast?_eq_getElem?, hlast, List.getElem?_append_right (by simp)]
      simp
  · intro hcond
    have hkept : kept max 0 args = args := by
      rw [kept]
      split
      · rfl
      · next hfull =>
        rcases hcond with hroom | hlast
        · exact absurd (by simpa using hroom) hfull
        · exact List.dropLast_append_getLast? [] hlast
    rw [hkept] at harg
    exact ⟨p, hp, hargc, harg, hnull, hdup, hargv⟩

end

/-- What is left of the line `"ab"` for an array of two elements. -/
def cut : Parsed := ⟨[0, 97, 98, 34, 0], [.ptr 0, .null], 1, false⟩

/-- The only word found is empty. -/
theorem parseArgs_cuts : (([lit "ab"] : List CString).length : Int) ≤ 2 - 1 ∧
    parseArgs true (some (line [lit "ab"])) 2 = .ok (some cut) ∧ cut.arg 0 = some [] ∧
    ¬ Inverts 2 [lit "ab"] := by
  have hparse : parseArgs true (some (line [lit "ab"])) 2 = .ok (some cut) := by decide
  refine ⟨by decide, hparse, by decide, ?_⟩
  rintro ⟨p, hp, -, harg, -⟩
  obtain rfl := Option.some.inj (Outcome.ok.inj (hparse.symm.trans hp))
  exact absurd (harg 0 (by decide)) (by decide)

/-- Two words, one of them with blanks and quotes, for an array of four elements. -/
theorem parseArgs_inverts_iff_two : Inverts 4 [lit "a \\\"b", lit ""] := by
  have hnul : ∀ a ∈ [lit "a \\\"b", lit ""], NoNul a := by decide +kernel
  exact (parseArgs_inverts_iff (by decide) (by decide) hnul).mpr (by decide)

/-! ## Any line -/

/-- The words that a line was split into. -/
def Parsed.words (p : Parsed) : List CString :=
  (List.range p.argc).map fun i => (p.arg i).getD []

theorem Parsed.noNul_words (p : Parsed) : ∀ w ∈ p.words, NoNul w := by
  intro w hw
  obtain ⟨i, -, rfl⟩ := List.mem_map.mp hw
  intro c hc
  unfold arg at hc
  split at hc
  · exact of_decide_eq_true (by simpa using List.mem_takeWhile_imp hc)
  · exact absurd hc List.not_mem_nil

/-- There is room in the copy for what is left of the line, and the array holds the words so
    far. -/
structure Scanning (max : Int) (s : CString) (st : Scan) : Prop where
  room : st.cur + s.length < st.duplicate.length
  argv : st.argv.length = max.toNat
  limit : (st.x : Int) ≤ max - 1
  ptr : ∀ i < st.x, ∃ offset, st.argv[i]? = some (.ptr offset)

section

variable {max : Int} {s : CString} {c : UInt8} {st : Scan}

theorem Scanning.put (h : Scanning max (c :: s) st) (d : UInt8) :
    ∃ st', st.put d = .ok st' ∧ Scanning max s st' ∧ st'.x = st.x := by
  have hroom := h.room
  rw [List.length_cons] at hroom
  have hcur : st.cur < st.duplicate.length := by omega
  refine ⟨_, if_pos hcur, ⟨?_, h.argv, h.limit, h.ptr⟩, rfl⟩
  rw [List.length_set]
  dsimp only
  omega

theorem Scanning.newArg (h : Scanning max s st) (hx : (st.x : Int) < max - 1) :
    ∃ st', st.newArg = .ok st' ∧ Scanning max s st' := by
  have hargv := h.argv
  have hlt : st.x < st.argv.length := by omega
  refine ⟨_, if_pos hlt, ⟨h.room, ?_, ?_, ?_⟩⟩
  · rw [List.length_set]
    exact h.argv
  · dsimp only
    omega
  · intro i hi
    by_cases hix : i = st.x
    · rw [hix]
      exact ⟨st.cur, List.getElem?_set_self hlt⟩
    · obtain ⟨offset, hoffset⟩ := h.ptr i (by dsimp only at hi; omega)
      exact ⟨offset, (List.getElem?_set_ne (Ne.symm hix)).trans hoffset⟩

theorem Scanning.skip (h : Scanning max (c :: s) st) : Scanning max s st :=
  ⟨Nat.lt_of_le_of_lt (Nat.add_le_add_left (Nat.le_succ _) _) h.room, h.argv, h.limit, h.ptr⟩

theorem Scanning.congr {st' : Scan} (h : Scanning max s st) (hdup : st'.duplicate = st.duplicate)
    (hcur : st'.cur = st.cur) (hargv : st'.argv = st.argv) (hx : st'.x = st.x) :
    Scanning max s st' := by
  constructor
  · rw [hdup, hcur]
    exact h.room
  · rw [hargv]
    exact h.argv
  · rw [hx]
    exact h.limit
  · rw [hargv, hx]
    exact h.ptr

/-- A round of the loop stays in the copy and in the array. -/
theorem Scanning.scanChar (h : Scanning max (c :: s) st) (hx : (st.x : Int) < max - 1) :
    ∃ st', Cli.scanChar c st = .ok st' ∧ Scanning max s st' := by
  unfold Cli.scanChar
  split
  · dsimp only
    split
    · have hquoted : Scanning max s { st with quoted := !st.quoted } :=
        h.skip.congr rfl rfl rfl rfl
      exact hquoted.newArg hx
    · exact ⟨_, rfl, h.skip.congr rfl rfl rfl rfl⟩
  split
  · split
    · obtain ⟨st', hput, hst', -⟩ := h.put 0
      exact ⟨{ st' with whitespace := true }, by rw [hput, ok_bind], hst'.congr rfl rfl rfl rfl⟩
    · exact ⟨st, rfl, h.skip⟩
  split
  · exact ⟨_, rfl, h.skip.congr rfl rfl rfl rfl⟩
  · have hput : ∀ {st1}, Scanning max (c :: s) st1 → ∃ st', (st1.put c >>= fun st =>
        .ok { st with escaped := false }) = .ok st' ∧ Scanning max s st' := by
      intro st1 h1
      obtain ⟨st2, hput, h2, -⟩ := h1.put c
      exact ⟨{ st2 with escaped := false }, by rw [hput, ok_bind], h2.congr rfl rfl rfl rfl⟩
    dsimp only
    split
    · obtain ⟨st1, harg, h1⟩ := h.newArg hx
      rw [harg]
      exact hput h1
    · exact hput h

theorem Scanning.scan (h : Scanning max s st) :
    ∃ st' s', Cli.scan max s st = .ok st' ∧ Scanning max s' st' := by
  induction s generalizing st with
  | nil => exact ⟨st, [], rfl, h⟩
  | cons c s ih =>
    rw [Cli.scan]
    split
    · exact ⟨st, c :: s, rfl, h⟩
    next hx =>
      obtain ⟨st1, hchar, h1⟩ := h.scanChar (by omega)
      obtain ⟨st2, s', hscan, h2⟩ := ih h1
      exact ⟨st2, s', by rw [hchar, ok_bind, hscan], h2⟩

/-- Every line is split, into words with null behind the last. -/
theorem parseArgs_returns (hmax : 1 ≤ max) (s : CString) :
    ∃ p, parseArgs true (some s) max = .ok (some p) ∧ p.words.length = p.argc ∧
      ∀ i, i ≤ p.argc → p.arg i = p.words[i]? := by
  have hstart : Scanning max s
      ⟨s ++ [0], 0, List.replicate max.toNat .unset, 0, false, false, true⟩ := by
    refine ⟨by simp, by simp, ?_, fun i hi => absurd hi (Nat.not_lt_zero i)⟩
    dsimp only
    omega
  obtain ⟨st, s', hscan, h⟩ := hstart.scan
  have hroom := h.room
  have hargv := h.argv
  have hlimit := h.limit
  have hcur : st.cur < st.duplicate.length := by omega
  have hx : st.x < st.argv.length := by omega
  generalize hp : (⟨st.duplicate.set st.cur 0, st.argv.set st.x .null, st.x, st.whitespace⟩ :
    Parsed) = p
  have hparse : parseArgs true (some s) max = .ok (some p) := by
    rw [parseArgs]
    simp only [Bool.true_eq_false, if_false, hscan, ok_bind, Scan.put, if_pos hcur, if_pos hx, hp]
  have hargc : p.argc = st.x := hp ▸ rfl
  have hsome : ∀ i < p.argc, ∃ w, p.arg i = some w := by
    intro i hi
    obtain ⟨offset, hoffset⟩ := h.ptr i (hargc ▸ hi)
    have hslot : p.argv[i]? = some (.ptr offset) := by
      rw [← hp]
      exact (List.getElem?_set_ne (by omega)).trans hoffset
    exact ⟨_, by rw [Parsed.arg, hslot]⟩
  have hnone : p.arg p.argc = none := by
    have hslot : p.argv[p.argc]? = some .null := by
      rw [← hp]
      exact List.getElem?_set_self hx
    rw [Parsed.arg, hslot]
  refine ⟨p, hparse, by simp [Parsed.words], fun i hi => ?_⟩
  unfold Parsed.words
  rcases Nat.eq_or_lt_of_le hi with rfl | hlt
  · rw [hnone, List.getElem?_eq_none (by simp)]
  · obtain ⟨w, hw⟩ := hsome i hlt
    rw [List.getElem?_map, List.getElem?_range hlt, Option.map_some, hw]
    rfl

end

end Spider.Cli
