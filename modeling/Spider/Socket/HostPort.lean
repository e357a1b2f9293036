import Spider.Socket

/-!
# Hosts and ports in a buffer

`spd_sockaddr_stringto_hostport` on the bytes that it scans and terminates.
Pointers are positions in the buffer; a read behind its end is a fault.
-/

namespace Spider.Socket.HostPort

open Lib Outcome CString

/-- What a call returns and leaves: the buffer, `*host` and `*port`. -/
structure Split where
  ret : Int32
  str : List UInt8
  host : Nat
  port : Option Nat
  deriving DecidableEq, Repr

def charAt (str : List UInt8) (s : Nat) : Outcome UInt8 :=
  match str[s]? with
  | some c => .ok c
  | none => .fault

/-- The loop to the closing bracket (`socket.c:274-275`), from position `s` on. -/
def scanBracket : List UInt8 → Nat → Outcome Nat
  | [], _ => .fault
  | c :: rest, s => if c ≠ 0 ∧ c ≠ ch ']' then scanBracket rest (s + 1) else .ok s

/-- The loop over the colons (`socket.c:285-294`), from position `s` on: the new `*port`. -/
def scanColons : List UInt8 → Nat → Option Nat → Outcome (Option Nat)
  | [], _, _ => .fault
  | c :: rest, s, port =>
    if c = 0 then .ok port
    else if c = ch ':' then
      match port with
      | some _ => .ok none
      | none => scanColons rest (s + 1) (some s)
    else scanColons rest (s + 1) port

/-- The scan (`socket.c:271-299`): `*host`, `*port` and `host_end`. -/
def scan (str : List UInt8) : Outcome (Nat × Option Nat × Option Nat) := do
  let c ← charAt str 0
  if c = ch '[' then
    let s ← scanBracket (str.drop 1) 1
    let c ← charAt str s
    if c = ch ']' then
      let d ← charAt str (s + 1)
      .ok (1, if d = ch ':' then some (s + 2) else none, some s)
    else .ok (1, if c = ch ':' then some (s + 1) else none, none)
  else
    let port ← scanColons str 0 none
    .ok (0, port.map (· + 1), port)

/-- The host is terminated where it has an end (`socket.c:319-321`). -/
def terminate (str : List UInt8) (hostEnd : Option Nat) : List UInt8 :=
  match hostEnd with
  | some s => str.set s 0
  | none => str

/-- `spd_sockaddr_stringto_hostport` (`socket.c:262-325`). -/
def spdSockaddrStringtoHostport (str : List UInt8) (flags : UInt32) : Outcome Split := do
  let (host, port, hostEnd) ← scan str
  let mask := flags &&& PARSE_PORT_MASK
  if mask = PARSE_PORT_REQUIRE ∧ port = none then .ok ⟨0, str, host, port⟩
  else if mask = PARSE_PORT_FORBID ∧ port ≠ none then .ok ⟨0, str, host, port⟩
  else
    .ok ⟨1, terminate str hostEnd, host, if mask = PARSE_PORT_IGNORE then none else port⟩

/-- The strings that `*host` and `*port` point to. -/
def Split.hostText (d : Split) : CString := cut (d.str.drop d.host)
@[inherit_doc Split.hostText]
def Split.portText (d : Split) : Option CString := d.port.map fun p => cut (d.str.drop p)

/-! ## The grammar -/

/-- How a string is split into a host and a port. -/
inductive Splits : CString → CString → Option CString → Prop where
  | brackets (h : CString) : ch ']' ∉ h → Splits (ch '[' :: (h ++ [ch ']'])) h none
  | bracketsPort (h p : CString) : ch ']' ∉ h →
    Splits (ch '[' :: (h ++ ch ']' :: ch ':' :: p)) h (some p)
  | colon (h p : CString) : h.head? ≠ some (ch '[') → ch ':' ∉ h → ch ':' ∉ p →
    Splits (h ++ ch ':' :: p) h (some p)
  | whole (s : CString) : s.head? ≠ some (ch '[') → s.count (ch ':') ≠ 1 → Splits s s none

/-- The flags turn down a missing or a present port. -/
def Refused (flags : UInt32) (port : Option CString) : Prop :=
  flags &&& PARSE_PORT_MASK = PARSE_PORT_REQUIRE ∧ port = none ∨
    flags &&& PARSE_PORT_MASK = PARSE_PORT_FORBID ∧ port ≠ none

/-- The host and the port before the flags are looked at. -/
def parts (str : CString) : CString × Option CString :=
  if str.head? = some (ch '[') then
    match str.tail.span (· ≠ ch ']') with
    | (host, []) => (host, none)
    | (host, _ :: s) => (host, if s.head? = some (ch ':') then some s.tail else none)
  else splitColon str

section Parts

variable {h p s : CString}

theorem span_of_notMem {c : UInt8} (hc : c ∉ h) : (h ++ c :: p).span (· ≠ c) = (h, c :: p) := by
  have hpass : ∀ d ∈ h, decide (d ≠ c) = true := by
    intro d hd
    apply decide_eq_true
    rintro rfl
    exact hc hd
  rw [List.span_eq_takeWhile_dropWhile, List.takeWhile_append_of_pos hpass,
    List.dropWhile_append_of_pos hpass]
  simp

theorem span_of_notMem_all {c : UInt8} (hc : c ∉ s) : s.span (· ≠ c) = (s, []) := by
  have hall : ∀ d ∈ s, decide (d ≠ c) = true := fun d hd => decide_eq_true fun heq => hc (heq ▸ hd)
  rw [List.span_eq_takeWhile_dropWhile, List.takeWhile_eq_self_iff.mpr hall,
    List.dropWhile_eq_nil_iff.mpr hall]

theorem parts_open (h : CString) (hc : ch ']' ∉ h) : parts (ch '[' :: h) = (h, none) := by
  rw [parts, List.head?_cons, if_pos rfl, List.tail_cons, span_of_notMem_all hc]

theorem parts_brackets (h s : CString) (hc : ch ']' ∉ h) : parts (ch '[' :: (h ++ ch ']' :: s)) =
    (h, if s.head? = some (ch ':') then some s.tail else none) := by
  rw [parts, List.head?_cons, if_pos rfl, List.tail_cons, span_of_notMem hc]

theorem splitColon_none (hc : ch ':' ∉ s) : splitColon s = (s, none) := by
  rw [splitColon, span_of_notMem_all hc]

theorem splitColon_some (hc : ch ':' ∉ h) : splitColon (h ++ ch ':' :: p) =
    if ch ':' ∈ p then (h ++ ch ':' :: p, none) else (h, some p) := by
  rw [splitColon, span_of_notMem hc]

theorem parts_eq_of_splits {str host : CString} {port : Option CString}
    (hs : Splits str host port) : parts str = (host, port) := by
  cases hs with
  | brackets h hc => exact parts_brackets host [] hc
  | bracketsPort h p hc => exact parts_brackets host (ch ':' :: p) hc
  | colon h p hhead hh hp =>
    have hfirst : (host ++ ch ':' :: p).head? ≠ some (ch '[') := by
      cases host with
      | nil => exact fun heq => absurd (Option.some.inj heq) (by decide)
      | cons c h => exact hhead
    rw [parts, if_neg hfirst, splitColon_some hh, if_neg hp]
  | whole s hhead hcount =>
    rw [parts, if_neg hhead]
    by_cases hc : ch ':' ∈ str
    · obtain ⟨h, p, rfl, hh⟩ := List.eq_append_cons_of_mem hc
      have hp : ch ':' ∈ p := by
        by_contra hp
        apply hcount
        rw [List.count_append, List.count_cons_self, List.count_eq_zero_of_not_mem hh,
          List.count_eq_zero_of_not_mem hp]
      rw [splitColon_some hh, if_pos hp]
    · exact splitColon_none hc

end Parts

/-! ## The scan of a string with a null byte behind it -/

section Scan

variable {h p s : CString} {behind : List UInt8}

theorem charAt_append (a : List UInt8) (c : UInt8) (b : List UInt8) :
    charAt (a ++ c :: b) a.length = .ok c := by
  rw [charAt, List.getElem?_append_right (Nat.le_refl _), Nat.sub_self]
  rfl

theorem scanBracket_stop (hh : NoNul h) (hc : ch ']' ∉ h) {c : UInt8} (hstop : c = 0 ∨ c = ch ']')
    (rest : List UInt8) (n : Nat) : scanBracket (h ++ c :: rest) n = .ok (n + h.length) := by
  induction h generalizing n with
  | nil =>
    have hnot : ¬ (c ≠ 0 ∧ c ≠ ch ']') := fun hne => hstop.elim hne.1 hne.2
    rw [List.nil_append, scanBracket, if_neg hnot]
    rfl
  | cons d h ih =>
    have hd : d ≠ 0 ∧ d ≠ ch ']' :=
      ⟨hh d List.mem_cons_self, fun heq => hc (heq ▸ List.mem_cons_self)⟩
    have hrest := ih (fun e he => hh e (List.mem_cons_of_mem d he))
      (fun hmem => hc (List.mem_cons_of_mem d hmem)) (n + 1)
    rw [List.cons_append, scanBracket, if_pos hd, hrest, List.length_cons, Nat.add_assoc,
      Nat.add_comm 1]

theorem scanColons_of_ne {c : UInt8} (hc : c ≠ 0) (hd : c ≠ ch ':') (rest : List UInt8) (n : Nat)
    (port : Option Nat) : scanColons (c :: rest) n port = scanColons rest (n + 1) port := by
  cases port with
  | none => rw [scanColons, if_neg hc, if_neg hd]
  | some q => rw [scanColons, if_neg hc, if_neg hd]

theorem scanColons_zero (rest : List UInt8) (n : Nat) (port : Option Nat) :
    scanColons (0 :: rest) n port = .ok port := by
  cases port <;> rfl

/-- What is no colon is passed over. -/
theorem scanColons_append (hh : NoNul h) (hc : ch ':' ∉ h) (rest : List UInt8) (n : Nat)
    (port : Option Nat) :
    scanColons (h ++ rest) n port = scanColons rest (n + h.length) port := by
  induction h generalizing n with
  | nil => rfl
  | cons d h ih =>
    have hd : d ≠ ch ':' := fun heq => hc (heq ▸ List.mem_cons_self)
    have hrest := ih (fun e he => hh e (List.mem_cons_of_mem d he))
      (fun hmem => hc (List.mem_cons_of_mem d hmem)) (n + 1)
    rw [List.cons_append, scanColons_of_ne (hh d List.mem_cons_self) hd, hrest, List.length_cons,
      Nat.add_assoc, Nat.add_comm 1]

/-- Without a colon the null byte ends the loop. -/
theorem scanColons_end (hh : NoNul h) (hc : ch ':' ∉ h) (behind : List UInt8) (n : Nat)
    (port : Option Nat) : scanColons (h ++ 0 :: behind) n port = .ok port := by
  rw [scanColons_append hh hc, scanColons_zero]

/-- The first colon is remembered. -/
theorem scanColons_first (hh : NoNul h) (hc : ch ':' ∉ h) (rest : List UInt8) :
    scanColons (h ++ ch ':' :: rest) 0 none =
      scanColons rest (h.length + 1) (some h.length) := by
  rw [scanColons_append hh hc, scanColons, if_neg (by decide), if_pos rfl, Nat.zero_add]

/-- The second one makes it forgotten. -/
theorem scanColons_second (hh : NoNul h) (hc : ch ':' ∉ h) (rest : List UInt8) (n q : Nat) :
    scanColons (h ++ ch ':' :: rest) n (some q) = .ok none := by
  rw [scanColons_append hh hc, scanColons, if_neg (by decide), if_pos rfl]

end Scan

/-- The buffer of the string, scanned: what is at `*host` and `*port` once the host has been
    terminated. -/
structure Scanned (buf : List UInt8) (found : Nat × Option Nat × Option Nat)
    (expected : CString × Option CString) : Prop where
  host : cut ((terminate buf found.2.2).drop found.1) = expected.1
  port : (found.2.1.map fun p => cut ((terminate buf found.2.2).drop p)) = expected.2

section Spec

variable {str h p s : CString} {behind : List UInt8}

theorem terminate_append (a : List UInt8) (c : UInt8) (b : List UInt8) :
    terminate (a ++ c :: b) (some a.length) = a ++ 0 :: b := by
  rw [terminate, List.set_append_right _ _ (Nat.le_refl _), Nat.sub_self, List.set_cons_zero]

theorem drop_past (a : List UInt8) (c : UInt8) (b : List UInt8) :
    (a ++ c :: b).drop (a.length + 1) = b := by
  rw [List.drop_append]
  simp

theorem drop_two_past (a : List UInt8) (c d : UInt8) (b : List UInt8) :
    (a ++ c :: d :: b).drop (a.length + 2) = b := by
  rw [List.drop_append]
  simp

/-- A string that starts with a bracket which is closed. -/
theorem scan_brackets (hh : NoNul h) (hc : ch ']' ∉ h) (hs : NoNul s) (behind : List UInt8) :
    ∃ found, scan (ch '[' :: h ++ ch ']' :: (s ++ 0 :: behind)) = .ok found ∧
      Scanned (ch '[' :: h ++ ch ']' :: (s ++ 0 :: behind)) found
        (h, if s.head? = some (ch ':') then some s.tail else none) := by
  have hloop := scanBracket_stop hh hc (Or.inr rfl) (s ++ 0 :: behind) 1
  have hlen : 1 + h.length = (ch '[' :: h).length := by rw [List.length_cons, Nat.add_comm]
  have hstop : charAt (ch '[' :: h ++ ch ']' :: (s ++ 0 :: behind)) (ch '[' :: h).length =
      .ok (ch ']') := charAt_append _ _ _
  have hnext : ∀ (d : UInt8) (rest : List UInt8), s ++ 0 :: behind = d :: rest →
      charAt (ch '[' :: h ++ ch ']' :: (s ++ 0 :: behind)) ((ch '[' :: h).length + 1) = .ok d := by
    intro d rest hrest
    have hread := charAt_append (ch '[' :: h ++ [ch ']']) d rest
    rw [List.append_assoc, List.singleton_append, ← hrest, List.length_append] at hread
    exact hread
  have hscan : ∀ (d : UInt8) (rest : List UInt8), s ++ 0 :: behind = d :: rest →
      scan (ch '[' :: h ++ ch ']' :: (s ++ 0 :: behind)) = .ok
        (1, if d = ch ':' then some ((ch '[' :: h).length + 2) else none,
          some (ch '[' :: h).length) := by
    intro d rest hrest
    have hfirst : charAt (ch '[' :: h ++ ch ']' :: (s ++ 0 :: behind)) 0 = .ok (ch '[') := rfl
    have htail : (ch '[' :: h ++ ch ']' :: (s ++ 0 :: behind)).drop 1 =
        h ++ ch ']' :: (s ++ 0 :: behind) := rfl
    rw [scan, hfirst, ok_bind, if_pos rfl, htail, hloop, ok_bind, hlen, hstop, ok_bind,
      if_pos rfl, hnext d rest hrest, ok_bind]
  have hhost : cut ((ch '[' :: h ++ 0 :: (s ++ 0 :: behind)).drop 1) = h := cut_append_zero hh _
  cases s with
  | nil =>
    refine ⟨_, hscan 0 behind rfl, ?_, ?_⟩
    · dsimp only
      rw [terminate_append]
      exact hhost
    · rfl
  | cons d t =>
    refine ⟨_, hscan d (t ++ 0 :: behind) rfl, ?_, ?_⟩
    · dsimp only
      rw [terminate_append]
      exact hhost
    · dsimp only
      rw [terminate_append, List.head?_cons, List.tail_cons]
      by_cases hd : d = ch ':'
      · have htext : cut (t ++ 0 :: behind) = t :=
          cut_append_zero (fun c hmem => hs c (List.mem_cons_of_mem d hmem)) behind
        have hdrop := drop_two_past (ch '[' :: h) 0 d (t ++ 0 :: behind)
        rw [if_pos hd, if_pos (congrArg some hd)]
        exact congrArg some ((congrArg cut hdrop).trans htext)
      · rw [if_neg hd, if_neg fun heq => hd (Option.some.inj heq), Option.map_none]

/-- One that starts with a bracket which is not. -/
theorem scan_open (hh : NoNul h) (hc : ch ']' ∉ h) (behind : List UInt8) :
    ∃ found, scan (ch '[' :: h ++ 0 :: behind) = .ok found ∧
      Scanned (ch '[' :: h ++ 0 :: behind) found (h, none) := by
  have hloop := scanBracket_stop hh hc (Or.inl rfl) behind 1
  have hlen : 1 + h.length = (ch '[' :: h).length := by rw [List.length_cons, Nat.add_comm]
  have hfirst : charAt (ch '[' :: h ++ 0 :: behind) 0 = .ok (ch '[') := rfl
  have htail : (ch '[' :: h ++ 0 :: behind).drop 1 = h ++ 0 :: behind := rfl
  have hstop := charAt_append (ch '[' :: h) 0 behind
  refine ⟨(1, none, none), ?_, cut_append_zero hh behind, rfl⟩
  rw [scan, hfirst, ok_bind, if_pos rfl, htail, hloop, ok_bind, hlen, hstop, ok_bind,
    if_neg (by decide), if_neg (by decide)]

/-- One that does not start with a bracket. -/
theorem scan_plain (hs : NoNul s) (hhead : s.head? ≠ some (ch '[')) (behind : List UInt8) :
    ∃ found, scan (s ++ 0 :: behind) = .ok found ∧
      Scanned (s ++ 0 :: behind) found (splitColon s) := by
  obtain ⟨c, hfirst, hc⟩ : ∃ c, charAt (s ++ 0 :: behind) 0 = .ok c ∧ c ≠ ch '[' := by
    cases s with
    | nil => exact ⟨0, rfl, by decide⟩
    | cons c s => exact ⟨c, rfl, fun heq => hhead (congrArg some heq)⟩
  have hscan : ∀ port, scanColons (s ++ 0 :: behind) 0 none = .ok port →
      scan (s ++ 0 :: behind) = .ok (0, port.map (· + 1), port) := by
    intro port hport
    rw [scan, hfirst, ok_bind, if_neg hc, hport, ok_bind]
  have hwhole : cut (s ++ 0 :: behind) = s := cut_append_zero hs behind
  by_cases hcolon : ch ':' ∈ s
  · obtain ⟨h, p, rfl, hh⟩ := List.eq_append_cons_of_mem hcolon
    have hhost : NoNul h := fun c hmem => hs c (List.mem_append_left _ hmem)
    have hport : NoNul p :=
      fun c hmem => hs c (List.mem_append_right _ (List.mem_cons_of_mem _ hmem))
    have hassoc : h ++ ch ':' :: p ++ 0 :: behind = h ++ ch ':' :: (p ++ 0 :: behind) :=
      List.append_assoc _ _ _
    have hstart := scanColons_first hhost hh (p ++ 0 :: behind)
    rw [← hassoc] at hstart
    rw [splitColon_some hh]
    by_cases hp : ch ':' ∈ p
    · obtain ⟨q, t, rfl, hq⟩ := List.eq_append_cons_of_mem hp
      have hnul : NoNul q := fun c hmem => hport c (List.mem_append_left _ hmem)
      have hforget := scanColons_second hnul hq (t ++ 0 :: behind) (h.length + 1) h.length
      rw [← List.cons_append, ← List.append_assoc] at hforget
      rw [if_pos hp]
      exact ⟨_, hscan none (hstart.trans hforget), hwhole, rfl⟩
    · have hend := scanColons_end hport hp behind (h.length + 1) (some h.length)
      rw [if_neg hp]
      refine ⟨_, hscan (some h.length) (hstart.trans hend), ?_, ?_⟩
      · dsimp only
        rw [hassoc, terminate_append]
        exact cut_append_zero hhost _
      · dsimp only
        rw [hassoc, terminate_append, Option.map_some, Option.map_some, drop_past,
          cut_append_zero hport]
  · rw [splitColon_none hcolon]
    exact ⟨_, hscan none (scanColons_end hs hcolon behind 0 none), hwhole, rfl⟩

/-- The scan finds the parts of any string. -/
theorem scan_parts (hs : NoNul str) (behind : List UInt8) :
    ∃ found, scan (str ++ 0 :: behind) = .ok found ∧
      Scanned (str ++ 0 :: behind) found (parts str) := by
  by_cases hhead : str.head? = some (ch '[')
  · obtain ⟨s, rfl⟩ := List.head?_eq_some_iff.mp hhead
    have hs' : NoNul s := fun c hmem => hs c (List.mem_cons_of_mem _ hmem)
    by_cases hc : ch ']' ∈ s
    · obtain ⟨h, t, rfl, hh⟩ := List.eq_append_cons_of_mem hc
      have hnul : NoNul h := fun c hmem => hs' c (List.mem_append_left _ hmem)
      have htail : NoNul t :=
        fun c hmem => hs' c (List.mem_append_right _ (List.mem_cons_of_mem _ hmem))
      have hassoc : ch '[' :: (h ++ ch ']' :: t) ++ 0 :: behind =
          ch '[' :: h ++ ch ']' :: (t ++ 0 :: behind) := by simp
      rw [parts_brackets h t hh, hassoc]
      exact scan_brackets hnul hh htail behind
    · rw [parts_open s hc]
      exact scan_open hs' hc behind
  · have hparts : parts str = splitColon str := if_neg hhead
    rw [hparts]
    exact scan_plain hs hhead behind

/-- What a call does with the parts. -/
structure Applied (buf : List UInt8) (flags : UInt32) (expected : CString × Option CString)
    (d : Split) : Prop where
  ret : d.ret = 0 ∨ d.ret = 1
  unmodified : d.ret = 0 → d.str = buf
  refused : d.ret = 0 ↔ Refused flags expected.2
  host : d.ret = 1 → d.hostText = expected.1
  port : d.ret = 1 → d.portText =
    if flags &&& PARSE_PORT_MASK = PARSE_PORT_IGNORE then none else expected.2

theorem applied_of_scanned {buf : List UInt8} {found : Nat × Option Nat × Option Nat}
    {expected : CString × Option CString} (hscan : scan buf = .ok found)
    (hf : Scanned buf found expected) (flags : UInt32) :
    ∃ d, spdSockaddrStringtoHostport buf flags = .ok d ∧ Applied buf flags expected d := by
  obtain ⟨host, port, hostEnd⟩ := found
  have hnone : port = none ↔ expected.2 = none := by
    rw [← hf.port]
    exact Option.map_eq_none_iff.symm
  rw [spdSockaddrStringtoHostport, hscan, ok_bind]
  dsimp only
  split
  next hrequire =>
    have hrefused : Refused flags expected.2 := Or.inl ⟨hrequire.1, hnone.mp hrequire.2⟩
    exact ⟨_, rfl, Or.inl rfl, fun _ => rfl, ⟨fun _ => hrefused, fun _ => rfl⟩, nofun, nofun⟩
  next hrequire =>
    split
    next hforbid =>
      have hrefused : Refused flags expected.2 := Or.inr ⟨hforbid.1, mt hnone.mpr hforbid.2⟩
      exact ⟨_, rfl, Or.inl rfl, fun _ => rfl, ⟨fun _ => hrefused, fun _ => rfl⟩, nofun, nofun⟩
    next hforbid =>
      have hkept : ¬ Refused flags expected.2 := by
        rintro (⟨hmask, hport⟩ | ⟨hmask, hport⟩)
        · exact hrequire ⟨hmask, hnone.mpr hport⟩
        · exact hforbid ⟨hmask, mt hnone.mp hport⟩
      refine ⟨_, rfl, Or.inr rfl, nofun, ⟨nofun, fun h => absurd h hkept⟩, fun _ => hf.host, ?_⟩
      intro _
      show Option.map _ (if _ then none else port) = _
      split
      · rfl
      · exact hf.port

end Spec

/-- What the function says of a string is what it does in any buffer that holds it. -/
theorem spdSockaddrStringtoHostport_applied {str : CString} (hs : NoNul str)
    (behind : List UInt8) (flags : UInt32) :
    ∃ d, spdSockaddrStringtoHostport (str ++ 0 :: behind) flags = .ok d ∧
      Applied (str ++ 0 :: behind) flags (parts str) d := by
  obtain ⟨found, hscan, hf⟩ := scan_parts hs behind
  exact applied_of_scanned hscan hf flags

/-- The text-level function gives what the call leaves in the buffer. -/
theorem spdSockaddrStringtoHostport_refines {str : CString} (hs : NoNul str)
    (behind : List UInt8) (flags : UInt32) :
    ∃ d, spdSockaddrStringtoHostport (str ++ 0 :: behind) flags = .ok d ∧
      Socket.spdSockaddrStringtoHostport str flags =
        if d.ret = 0 then none else some (d.hostText, d.portText) := by
  obtain ⟨d, hd, happlied⟩ := spdSockaddrStringtoHostport_applied hs behind flags
  refine ⟨d, hd, ?_⟩
  have htext : Socket.spdSockaddrStringtoHostport str flags =
      if flags &&& PARSE_PORT_MASK = PARSE_PORT_IGNORE then some ((parts str).1, none)
      else if flags &&& PARSE_PORT_MASK = PARSE_PORT_REQUIRE ∧ (parts str).2 = none then none
      else if flags &&& PARSE_PORT_MASK = PARSE_PORT_FORBID ∧ (parts str).2 ≠ none then none
      else some (parts str) := rfl
  rw [htext]
  rcases happlied.ret with hret | hret
  · rw [if_pos hret]
    rcases happlied.refused.mp hret with ⟨hmask, hport⟩ | ⟨hmask, hport⟩
    · rw [if_neg (hmask ▸ by decide), if_pos ⟨hmask, hport⟩]
    · rw [if_neg (hmask ▸ by decide), if_neg fun h => hport h.2, if_pos ⟨hmask, hport⟩]
  · have hkept : ¬ Refused flags (parts str).2 := by
      intro h
      rw [happlied.refused.mpr h] at hret
      exact absurd hret (by decide)
    have hne : ¬ d.ret = 0 := fun hzero => absurd (hret.symm.trans hzero) (by decide)
    rw [if_neg hne, happlied.host hret, happlied.port hret, if_neg fun h => hkept (Or.inl h),
      if_neg fun h => hkept (Or.inr h)]
    split
    · rfl
    · rfl

/-- Every string of the grammar is split as it says, the flags decide about the port, and a call
    that fails leaves the string alone. -/
theorem spdSockaddrStringtoHostport_grammar (str : CString) (hs : NoNul str)
    (behind : List UInt8) (flags : UInt32) :
    ∃ d, spdSockaddrStringtoHostport (str ++ 0 :: behind) flags = .ok d ∧
      (d.ret = 0 ∨ d.ret = 1) ∧ (d.ret = 0 → d.str = str ++ 0 :: behind) ∧
      ∀ host port, Splits str host port →
        (d.ret = 0 ↔ Refused flags port) ∧
        (d.ret = 1 → d.hostText = host ∧
          d.portText = if flags &&& PARSE_PORT_MASK = PARSE_PORT_IGNORE then none else port) := by
  obtain ⟨d, hd, happlied⟩ := spdSockaddrStringtoHostport_applied hs behind flags
  refine ⟨d, hd, happlied.ret, happlied.unmodified, ?_⟩
  intro host port hsplits
  have hparts := parts_eq_of_splits hsplits
  refine ⟨?_, fun hret => ⟨?_, ?_⟩⟩
  · have hrefused := happlied.refused
    rw [hparts] at hrefused
    exact hrefused
  · rw [happlied.host hret, hparts]
  · rw [happlied.port hret, hparts]

/-- An IPv6 literal with a port is split at its bracket. -/
theorem spdSockaddrStringtoHostport_grammar_ipv6 :
    ∃ d, spdSockaddrStringtoHostport (lit "[::1]:80" ++ 0 :: []) PARSE_PORT_REQUIRE = .ok d ∧
      d.hostText = lit "::1" ∧ d.portText = some (lit "80") := by
  obtain ⟨d, hd, hret, -, hsplits⟩ := spdSockaddrStringtoHostport_grammar (lit "[::1]:80")
    (by decide +kernel) [] PARSE_PORT_REQUIRE
  obtain ⟨hrefused, hkept⟩ := hsplits (lit "::1") (some (lit "80"))
    (Splits.bracketsPort (lit "::1") (lit "80") (by decide +kernel))
  have hone : d.ret = 1 := by
    refine hret.resolve_left fun hzero => ?_
    rcases hrefused.mp hzero with ⟨-, hport⟩ | ⟨hmask, -⟩
    · exact absurd hport nofun
    · exact absurd hmask (by decide)
  exact ⟨d, hd, hkept hone⟩

end Spider.Socket.HostPort
