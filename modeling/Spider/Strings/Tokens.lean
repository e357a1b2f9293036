import Spider.Strings

/-!
# Tokens

`spd_strtok` on the bytes that it scans and terminates. Pointers are positions
in them; a read behind their end is a fault, and so is one through a pointer that
was never set.
-/

namespace Spider.Strings.Tokens

open Lib Outcome CString

/-- The string, and `*last`. -/
structure State where
  buf : List UInt8
  last : Option Nat
  deriving DecidableEq, Repr

/-- Whether `strchr` finds a byte, which may be the terminator. -/
def strchr (sep : CString) (c : UInt8) : Bool := c ∈ sep ∨ c = 0

/-- A loop `while(test(*p)) ++p` over the bytes from position `p` on. -/
def skip (test : UInt8 → Bool) : List UInt8 → Nat → Outcome Nat
  | [], _ => .fault
  | c :: rest, p => if test c then skip test rest (p + 1) else .ok p

/-- A read. -/
def State.read (s : State) (p : Nat) : Outcome UInt8 :=
  match s.buf[p]? with
  | some c => .ok c
  | none => .fault

/-- The token at `token`: its end is searched and terminated (`strings.c:212-225`). -/
def takeToken (sep : CString) (s : State) (token : Nat) : Outcome (Option Nat × State) := do
  let last ← skip (fun c => c ≠ 0 ∧ ¬ strchr sep c) (s.buf.drop (token + 1)) (token + 1)
  let c ← s.read last
  if c ≠ 0 then .ok (some token, ⟨s.buf.set last 0, some (last + 1)⟩)
  else .ok (some token, { s with last := some last })

/-- `spd_strtok` (`strings.c:198-226`): what is returned, and the string and `*last` afterwards. -/
def spdStrtok (str : Option Nat) (sep : CString) (s : State) : Outcome (Option Nat × State) :=
  match str.or s.last with
  | none => .fault
  | some str => do
    let str ← skip (fun c => c ≠ 0 ∧ strchr sep c) (s.buf.drop str) str
    let c ← s.read str
    if c = 0 then .ok (none, s) else takeToken sep s str

/-- The calls with null until null is returned: what they return, each with the string that is
    there then. -/
def moreTokens (sep : CString) : Nat → State → Outcome (List (Nat × CString) × State)
  | 0, _ => .timeout
  | fuel + 1, s => do
    match ← spdStrtok none sep s with
    | (none, s) => .ok ([], s)
    | (some token, s) => do
      let (found, s') ← moreTokens sep fuel s
      .ok ((token, cut (s.buf.drop token)) :: found, s')

/-- The call with the string, and the calls behind it. -/
def allTokens (sep : CString) (fuel : Nat) (buf : List UInt8) :
    Outcome (List (Nat × CString) × State) := do
  match ← spdStrtok (some 0) sep ⟨buf, none⟩ with
  | (none, s) => moreTokens sep fuel s
  | (some token, s) => do
    let (found, s') ← moreTokens sep fuel s
    .ok ((token, cut (s.buf.drop token)) :: found, s')

/-! ## What the calls are for -/

/-- The maximal parts of a string that are not empty and hold no separator. -/
def tokens (sep s : CString) : List CString := (s.splitOnP (· ∈ sep)).filter (· ≠ [])

section

variable {sep s w gap rest r pre : CString} {c d : UInt8} {st : State} {str last : Option Nat}

theorem tokens_append_cons (sep s rest : CString) (hd : d ∈ sep) :
    tokens sep (s ++ d :: rest) = tokens sep s ++ tokens sep rest := by
  unfold tokens
  rw [List.splitOnP_append_cons s rest (by simpa using hd), List.filter_append]

theorem tokens_cons_sep (hd : d ∈ sep) : tokens sep (d :: rest) = tokens sep rest :=
  tokens_append_cons sep [] rest hd

theorem tokens_gap (hgap : ∀ c ∈ gap, c ∈ sep) : tokens sep (gap ++ rest) = tokens sep rest := by
  induction gap with
  | nil => rfl
  | cons c gap ih =>
    rw [List.cons_append, tokens_cons_sep (hgap c List.mem_cons_self)]
    exact ih fun d hd => hgap d (List.mem_cons_of_mem c hd)

theorem tokens_token (hne : w ≠ []) (hw : ∀ c ∈ w, c ∉ sep) : tokens sep w = [w] := by
  unfold tokens
  rw [List.splitOnP_eq_singleton (by simpa using hw)]
  simp [hne]

/-! ### One call -/

/-- A loop over a string stops at its end at the latest. -/
theorem skip_eq {test q : UInt8 → Bool} (hs : NoNul s) (hzero : test 0 = false)
    (htest : ∀ c, c ≠ 0 → test c = q c) (p : Nat) :
    skip test (s ++ [0]) p = .ok (p + (s.takeWhile q).length) := by
  induction s generalizing p with
  | nil => simp [skip, hzero]
  | cons c s ih =>
    have hc := htest c (hs c List.mem_cons_self)
    rw [List.cons_append, skip, hc]
    by_cases hq : q c = true
    · rw [if_pos hq, ih (fun d hd => hs d (List.mem_cons_of_mem c hd)),
        List.takeWhile_cons_of_pos hq, List.length_cons]
      congr 1
      omega
    · rw [if_neg hq, List.takeWhile_cons_of_neg hq]
      rfl

theorem read_append (pre : List UInt8) (c : UInt8) (rest : List UInt8) (last : Option Nat) :
    State.read ⟨pre ++ c :: rest, last⟩ pre.length = .ok c := by
  rw [State.read, List.getElem?_append_right (Nat.le_refl _), Nat.sub_self]
  rfl

theorem takeWhile_append_eq {p : UInt8 → Bool} (hw : ∀ c ∈ w, p c = true)
    (hr : ∀ c ∈ r.head?, ¬ p c = true) : (w ++ r).takeWhile p = w := by
  rw [List.takeWhile_append_of_pos hw]
  cases r with
  | nil => rw [List.takeWhile_nil, List.append_nil]
  | cons c r => rw [List.takeWhile_cons_of_neg (hr c rfl), List.append_nil]

/-- The first loop passes the separators in front. -/
theorem skip_gap (hs : NoNul (gap ++ r)) (hgap : ∀ c ∈ gap, c ∈ sep)
    (hr : ∀ c ∈ r.head?, c ∉ sep) (p : Nat) :
    skip (fun c => c ≠ 0 ∧ strchr sep c) (gap ++ r ++ [0]) p = .ok (p + gap.length) := by
  rw [skip_eq (q := fun c => c ∈ sep) hs (by simp)
    (fun c hc => by simp [strchr, hc])]
  rw [takeWhile_append_eq (by simpa using hgap) (by simpa using hr)]

/-- The second loop passes the characters of the token. -/
theorem skip_token (hs : NoNul (w ++ r)) (hw : ∀ c ∈ w, c ∉ sep)
    (hr : ∀ c ∈ r.head?, c ∈ sep) (p : Nat) :
    skip (fun c => c ≠ 0 ∧ ¬ strchr sep c) (w ++ r ++ [0]) p = .ok (p + w.length) := by
  rw [skip_eq (q := fun c => c ∉ sep) hs (by simp)
    (fun c hc => by simp [strchr, hc])]
  rw [takeWhile_append_eq (by simpa using hw) (by simpa using hr)]

/-- Behind the last token there is none. -/
theorem spdStrtok_none (hs : NoNul gap) (hgap : ∀ c ∈ gap, c ∈ sep)
    (hstr : str.or last = some pre.length) :
    spdStrtok str sep ⟨pre ++ gap ++ [0], last⟩ = .ok (none, ⟨pre ++ gap ++ [0], last⟩) := by
  have hnul : NoNul (gap ++ []) := by rwa [List.append_nil]
  have hskip := skip_gap hnul hgap nofun pre.length
  have hread := read_append (pre ++ gap) 0 [] last
  rw [List.append_nil] at hskip
  rw [List.length_append] at hread
  unfold spdStrtok
  rw [hstr]
  dsimp only
  rw [List.append_assoc, List.drop_left, hskip, ok_bind, ← List.append_assoc, hread, ok_bind,
    if_pos rfl]

/-- What a call leaves behind a token, of what was behind it. -/
def terminated : CString → List UInt8
  | [] => [0]
  | _ :: r => 0 :: r ++ [0]

/-- Where the next call starts. -/
def resume (token : Nat) : CString → Nat
  | [] => token
  | _ :: _ => token + 1

theorem takeToken_eq (hs : NoNul (w ++ r)) (hne : w ≠ []) (hw : ∀ c ∈ w, c ∉ sep)
    (hr : ∀ c ∈ r.head?, c ∈ sep) (pre : List UInt8) (last : Option Nat) :
    takeToken sep ⟨pre ++ (w ++ r ++ [0]), last⟩ pre.length =
      .ok (some pre.length,
        ⟨pre ++ (w ++ terminated r), some (resume (pre.length + w.length) r)⟩) := by
  obtain ⟨c, w, rfl⟩ := List.exists_cons_of_ne_nil hne
  have htail : NoNul (w ++ r) := fun d hd => hs d (List.mem_cons_of_mem c hd)
  have hskip := skip_token htail (fun d hd => hw d (List.mem_cons_of_mem c hd)) hr (pre.length + 1)
  have hdrop : (pre ++ (c :: w ++ r ++ [0])).drop (pre.length + 1) = w ++ r ++ [0] := by
    rw [← List.drop_drop, List.drop_left]
    rfl
  have hend : pre.length + 1 + w.length = (pre ++ c :: w).length := by
    rw [List.length_append, List.length_cons]
    omega
  have hend' : pre.length + (c :: w).length = (pre ++ c :: w).length := List.length_append.symm
  rw [takeToken, hdrop, hskip, ok_bind, hend, hend']
  cases r with
  | nil =>
    have hread := read_append (pre ++ c :: w) 0 [] last
    rw [List.append_nil, ← List.append_assoc pre, hread, ok_bind, if_neg (by simp)]
    rw [terminated, resume, List.append_assoc]
  | cons d r =>
    have hd : d ≠ 0 := hs d (by simp)
    have hbuf : pre ++ (c :: w ++ d :: r ++ [0]) = pre ++ c :: w ++ d :: (r ++ [0]) := by simp
    have hread := read_append (pre ++ c :: w) d (r ++ [0]) last
    rw [hbuf, hread, ok_bind, if_pos hd, List.set_append_right _ _ (Nat.le_refl _), Nat.sub_self,
      List.set_cons_zero, terminated, resume]
    simp

/-- A call returns the next token, and starts the next one behind it. -/
theorem spdStrtok_token (hs : NoNul (gap ++ (w ++ r))) (hgap : ∀ c ∈ gap, c ∈ sep) (hne : w ≠ [])
    (hw : ∀ c ∈ w, c ∉ sep) (hr : ∀ c ∈ r.head?, c ∈ sep)
    (hstr : str.or last = some pre.length) :
    spdStrtok str sep ⟨pre ++ (gap ++ (w ++ r) ++ [0]), last⟩ =
      .ok (some (pre ++ gap).length, ⟨pre ++ gap ++ (w ++ terminated r),
        some (resume ((pre ++ gap).length + w.length) r)⟩) := by
  have hhead : ∀ c ∈ (w ++ r).head?, c ∉ sep := by
    obtain ⟨c, w, rfl⟩ := List.exists_cons_of_ne_nil hne
    intro d hd
    obtain rfl : c = d := by simpa using hd
    exact hw c List.mem_cons_self
  have hskip := skip_gap hs hgap hhead pre.length
  have hbuf : pre ++ (gap ++ (w ++ r) ++ [0]) = pre ++ gap ++ (w ++ r ++ [0]) := by simp
  have hread : ∃ c, c ≠ 0 ∧
      State.read ⟨pre ++ gap ++ (w ++ r ++ [0]), last⟩ (pre ++ gap).length = .ok c := by
    obtain ⟨c, w, rfl⟩ := List.exists_cons_of_ne_nil hne
    have hread := read_append (pre ++ gap) c (w ++ r ++ [0]) last
    rw [← List.cons_append, ← List.cons_append] at hread
    exact ⟨c, hs c (by simp), hread⟩
  obtain ⟨c, hc, hread⟩ := hread
  unfold spdStrtok
  rw [hstr]
  dsimp only
  rw [List.drop_left, hskip, ok_bind, hbuf, ← List.length_append, hread, ok_bind, if_neg hc]
  exact takeToken_eq (fun d hd => hs d (List.mem_append_right gap hd)) hne hw hr _ _

/-! ### All calls -/

/-- A string is made of separators, or begins with separators and a token. -/
theorem exists_token (sep s : CString) : (∀ c ∈ s, c ∈ sep) ∨
    ∃ gap w r, s = gap ++ (w ++ r) ∧ (∀ c ∈ gap, c ∈ sep) ∧ w ≠ [] ∧ (∀ c ∈ w, c ∉ sep) ∧
      ∀ c ∈ r.head?, c ∈ sep := by
  induction s with
  | nil => exact Or.inl nofun
  | cons c s ih =>
    by_cases hc : c ∈ sep
    · rcases ih with hall | ⟨gap, w, r, rfl, hgap, hne, hw, hr⟩
      · exact Or.inl fun d hd => (List.mem_cons.mp hd).elim (fun h => h ▸ hc) (hall d)
      · refine Or.inr ⟨c :: gap, w, r, rfl, ?_, hne, hw, hr⟩
        exact fun d hd => (List.mem_cons.mp hd).elim (fun h => h ▸ hc) (hgap d)
    · have hsplit := List.takeWhile_append_dropWhile (p := fun d => decide (d ∉ sep)) (l := c :: s)
      refine Or.inr ⟨[], _, _, hsplit.symm, nofun, ?_, ?_, ?_⟩
      · rw [List.takeWhile_cons_of_pos (by simpa using hc)]
        exact List.cons_ne_nil _ _
      · intro d hd
        simpa using List.mem_takeWhile_imp hd
      · intro d hd
        have hstop := List.head?_dropWhile_not (fun d => decide (d ∉ sep)) (c :: s)
        rw [Option.mem_def.mp hd] at hstop
        simpa using hstop

theorem tokens_cons (hgap : ∀ c ∈ gap, c ∈ sep) (hne : w ≠ []) (hw : ∀ c ∈ w, c ∉ sep)
    (hr : ∀ c ∈ r.head?, c ∈ sep) :
    tokens sep (gap ++ (w ++ r)) = w :: tokens sep r.tail := by
  rw [tokens_gap hgap]
  cases r with
  | nil =>
    rw [List.append_nil, tokens_token hne hw]
    rfl
  | cons d r =>
    rw [tokens_append_cons sep w r (hr d rfl), tokens_token hne hw]
    rfl

/-- The bytes in front of the position where the next call starts. -/
def front (token : List UInt8) : CString → List UInt8
  | [] => token
  | _ :: _ => token ++ [0]

theorem append_front (token w : List UInt8) (r : CString) :
    token ++ front w r = front (token ++ w) r := by
  cases r with
  | nil => rfl
  | cons d r => simp [front]

theorem append_terminated (token : List UInt8) (r : CString) :
    token ++ terminated r = front token r ++ r.tail ++ [0] := by
  cases r with
  | nil => simp [front, terminated]
  | cons d r => simp [front, terminated]

theorem resume_eq (token : List UInt8) (r : CString) :
    resume token.length r = (front token r).length := by
  cases r with
  | nil => rfl
  | cons d r => rw [front, resume, List.length_append, List.length_singleton]

/-- A token stays terminated, whatever later calls make of what is behind it. -/
theorem isPrefix_front {fin : List UInt8} (hfin : r.tail = [] → fin = [0]) :
    ∃ fin', front w r ++ fin = w ++ 0 :: fin' := by
  cases r with
  | nil => exact ⟨[], by rw [front, hfin rfl]⟩
  | cons d r => exact ⟨fin, by simp [front]⟩

/-- The calls have returned the tokens of `s`, these are still there and terminated, and a further
    call returns null and changes nothing. -/
structure Enumerated (sep s : CString) (found : List (Nat × CString)) (st : State) : Prop where
  tokens : found.map Prod.snd = Tokens.tokens sep s
  terminated : ∀ p ∈ found, p.2 ++ [0] <+: st.buf.drop p.1
  done : spdStrtok none sep st = .ok (none, st)

/-- The next call returns a token, and the calls behind it return the others. -/
theorem Enumerated.cons {found : List (Nat × CString)} {fin : List UInt8}
    (h : Enumerated sep r.tail found ⟨pre ++ gap ++ front w r ++ fin, last⟩)
    (hfin : r.tail = [] → fin = [0]) (hgap : ∀ c ∈ gap, c ∈ sep) (hne : w ≠ [])
    (hw : ∀ c ∈ w, c ∉ sep) (hr : ∀ c ∈ r.head?, c ∈ sep) :
    Enumerated sep (gap ++ (w ++ r)) (((pre ++ gap).length, w) :: found)
      ⟨pre ++ gap ++ front w r ++ fin, last⟩ := by
  refine ⟨?_, ?_, h.done⟩
  · rw [tokens_cons hgap hne hw hr, List.map_cons, h.tokens]
  · intro p hp
    rcases List.mem_cons.mp hp with rfl | hp
    · obtain ⟨fin', hfront⟩ := isPrefix_front hfin (w := w)
      dsimp only
      rw [List.append_assoc (pre ++ gap), List.drop_left, hfront]
      exact ⟨fin', by simp⟩
    · exact h.terminated p hp

/-- A call in a string with a token in it. -/
theorem spdStrtok_next (hs : NoNul (gap ++ (w ++ r))) (hgap : ∀ c ∈ gap, c ∈ sep) (hne : w ≠ [])
    (hw : ∀ c ∈ w, c ∉ sep) (hr : ∀ c ∈ r.head?, c ∈ sep)
    (hstr : str.or last = some pre.length) :
    ∃ st, spdStrtok str sep ⟨pre ++ (gap ++ (w ++ r)) ++ [0], last⟩ =
        .ok (some (pre ++ gap).length, st) ∧ cut (st.buf.drop (pre ++ gap).length) = w ∧
      st = ⟨pre ++ gap ++ front w r ++ r.tail ++ [0], some (pre ++ gap ++ front w r).length⟩ := by
  have hcall := spdStrtok_token hs hgap hne hw hr hstr
  have hlen : (pre ++ gap).length + w.length = (pre ++ gap ++ w).length :=
    List.length_append.symm
  refine ⟨_, (List.append_assoc pre _ [0]).symm ▸ hcall, ?_, ?_⟩
  · have hnul : NoNul w := fun c hc => hs c (by simp [hc])
    dsimp only
    rw [List.drop_left]
    cases r with
    | nil => exact cut_append_zero hnul []
    | cons d r => exact cut_append_zero hnul (r ++ [0])
  · rw [hlen, resume_eq, append_front, ← List.append_assoc (pre ++ gap), append_terminated]

/-- The calls that go on behind `pre`. -/
theorem moreTokens_eq {fuel : Nat} (hs : NoNul rest) (hfuel : rest.length < fuel) :
    ∃ found fin last', moreTokens sep fuel ⟨pre ++ rest ++ [0], some pre.length⟩ =
        .ok (found, ⟨pre ++ fin, some last'⟩) ∧ (rest = [] → fin = [0]) ∧
      Enumerated sep rest found ⟨pre ++ fin, some last'⟩ := by
  induction fuel generalizing pre rest with
  | zero => exact absurd hfuel (Nat.not_lt_zero _)
  | succ fuel ih =>
    rcases exists_token sep rest with hall | ⟨gap, w, r, rfl, hgap, hne, hw, hr⟩
    · have hcall : spdStrtok none sep ⟨pre ++ rest ++ [0], some pre.length⟩ =
          .ok (none, ⟨pre ++ rest ++ [0], some pre.length⟩) := spdStrtok_none hs hall rfl
      have hnone : tokens sep rest = [] := by
        rw [← List.append_nil rest, tokens_gap hall]
        rfl
      have hassoc : pre ++ rest ++ [0] = pre ++ (rest ++ [0]) := List.append_assoc _ _ _
      refine ⟨[], rest ++ [0], pre.length, ?_, by rintro rfl; rfl, hnone.symm, nofun, ?_⟩
      · rw [moreTokens, hcall, ok_bind, hassoc]
      · rw [← hassoc]
        exact hcall
    · obtain ⟨st, hcall, hcut, rfl⟩ := spdStrtok_next hs hgap hne hw hr
        (show (none : Option Nat).or (some pre.length) = some pre.length from rfl)
      have htail : NoNul r.tail := fun c hc => hs c (by simp [List.mem_of_mem_tail hc])
      have hlt : r.tail.length < fuel := by
        have hpos := List.length_pos_of_ne_nil hne
        simp only [List.length_append, List.length_tail] at hfuel ⊢
        omega
      obtain ⟨found, fin, last', hmore, hfin, henum⟩ :=
        @ih r.tail (pre ++ gap ++ front w r) htail hlt
      have hassoc : pre ++ gap ++ front w r ++ fin = pre ++ (gap ++ front w r ++ fin) := by simp
      have hnil : gap ++ (w ++ r) = [] → gap ++ front w r ++ fin = [0] := by
        intro hnil
        simp [hne] at hnil
      refine ⟨((pre ++ gap).length, w) :: found, gap ++ front w r ++ fin, last', ?_, hnil, ?_⟩
      · rw [moreTokens, hcall, ok_bind]
        dsimp only
        dsimp only at hcut
        rw [hmore, ok_bind, hcut, hassoc]
      · rw [← hassoc]
        exact henum.cons hfin hgap hne hw hr

end

/-- The call with the string and the calls behind it return the tokens of the string in order, each
    terminated, and further calls go on returning null. -/
theorem allTokens_enumerate {sep s : CString} (hs : NoNul s) (hsome : ∃ c ∈ s, c ∉ sep)
    {fuel : Nat} (hfuel : s.length < fuel) :
    ∃ found st, allTokens sep fuel (s ++ [0]) = .ok (found, st) ∧ Enumerated sep s found st := by
  obtain ⟨c, hc, hnot⟩ := hsome
  rcases exists_token sep s with hall | ⟨gap, w, r, rfl, hgap, hne, hw, hr⟩
  · exact absurd (hall c hc) hnot
  have hstr : (some 0).or (none : Option Nat) = some ([] : CString).length := rfl
  obtain ⟨st, hcall, hcut, rfl⟩ := spdStrtok_next hs hgap hne hw hr hstr
  have htail : NoNul r.tail := fun c hc => hs c (by simp [List.mem_of_mem_tail hc])
  have hlt : r.tail.length < fuel := by
    simp only [List.length_append, List.length_tail] at hfuel ⊢
    omega
  obtain ⟨found, fin, last', hmore, hfin, henum⟩ :=
    @moreTokens_eq sep r.tail ([] ++ gap ++ front w r) fuel htail hlt
  refine ⟨_, _, ?_, henum.cons hfin hgap hne hw hr⟩
  dsimp only at hcut
  rw [List.nil_append] at hcall
  rw [allTokens, hcall, ok_bind]
  dsimp only
  rw [hmore, ok_bind, hcut]

/-- Separators in front, between two tokens and behind the last. -/
theorem allTokens_enumerate_words :
    ∃ found st, allTokens (lit ", ") 20 (lit " core, show fd, " ++ [0]) = .ok (found, st) ∧
      Enumerated (lit ", ") (lit " core, show fd, ") found st :=
  allTokens_enumerate (by decide +kernel) ⟨ch 'c', by decide +kernel, by decide +kernel⟩
    (by decide +kernel)

example : tokens (lit ", ") (lit " core, show fd, ") = [lit "core", lit "show", lit "fd"] := by
  decide +kernel

end Spider.Strings.Tokens
