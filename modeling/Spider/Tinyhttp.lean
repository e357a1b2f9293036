import Spider.Lib.CString
import Spider.Lib.Outcome

/-!
# Requests of the tiny HTTP server

`read_hook` puts what `recv` brings behind the bytes of the request that are
there, and `parse_request` takes the number in front of the first colon off.
-/

namespace Spider.Tinyhttp

open Lib Outcome CString

/-- `MAX_REQLEN`. -/
def MAX_REQLEN : Nat := 1024

/-- `SUCCESS` and `ERROR`. -/
def SUCCESS : Int := 0
@[inherit_doc SUCCESS] def ERROR : Int := -1

/-- `"\r\n"`. -/
def CRLF : List UInt8 := [13, 10]

/-- `struct event_handle`: the request, and what has been done to the socket. -/
structure EventHandle where
  request : List UInt8
  requestLen : Nat
  handleMethod : Int32
  /-- The socket was closed. -/
  closed : Bool
  /-- The socket was registered for `EPOLLOUT`. -/
  epollOut : Bool
  deriving DecidableEq, Repr

/-- `init_evhandle` (`tinyhttp.c:61-70`). -/
def initEvhandle : EventHandle := ⟨List.replicate MAX_REQLEN 0, 0, 0, false, false⟩

/-- `clean_request` (`tinyhttp.c:138-141`). -/
def cleanRequest (ev : EventHandle) : EventHandle :=
  { ev with request := List.replicate MAX_REQLEN 0, requestLen := 0 }

/-- The test of the loop of `parse_request`. -/
def isColon (c : UInt8) : Bool := c = ch ':'

/-- `parse_request` (`tinyhttp.c:73-96`). `temp` is what is in the memory of the array of that name,
    to which only the bytes in front of the colon are copied before `atoi` reads it. -/
def parseRequest (ev : EventHandle) (temp : List UInt8) : Outcome EventHandle :=
  if ev.requestLen < 2 then .fault
  else
    let requestLen := ev.requestLen - 1
    let request := ev.request.set (requestLen - 1) 0
    let ev := { ev with request := request, requestLen := requestLen, epollOut := true }
    match (request.take requestLen).findIdx? isColon with
    | none => .ok ev
    | some i =>
      let requestLen := requestLen - i - 1
      .ok { ev with
        requestLen := requestLen
        handleMethod := atoi (request.take i ++ temp.drop i)
        request := (request.drop (i + 1)).take requestLen ++ request.drop requestLen }

/-- What `recv` does: it fails, or brings bytes, none of them when the peer has closed. -/
inductive Recv where
  | error
  | bytes (buf : List UInt8)
  deriving DecidableEq, Repr

/-- The branch of `read_hook` in which something is received (`tinyhttp.c:152-161`). -/
def appendRequest (ev : EventHandle) (buf temp : List UInt8) : Outcome EventHandle :=
  let ev := if ev.requestLen > MAX_REQLEN - buf.length then cleanRequest { ev with closed := true }
    else ev
  let ev := { ev with
    request := ev.request.take ev.requestLen ++ buf ++ ev.request.drop (ev.requestLen + buf.length)
    requestLen := ev.requestLen + buf.length }
  if buf.length = 2 ∧ buf.drop (buf.length - 2) = CRLF then parseRequest ev temp else .ok ev

/-- `read_hook` (`tinyhttp.c:143-164`). A failed `recv` passes the check for an overflow, and its
    result is then taken for a length. -/
def readHook (ev : EventHandle) (recv : Recv) (temp : List UInt8) : Outcome (Int × EventHandle) :=
  match recv with
  | .error => .fault
  | .bytes [] => .ok (ERROR, { ev with closed := true })
  | .bytes buf => do
    let ev ← appendRequest ev buf temp
    .ok (buf.length, ev)

/-- The calls of `read_hook` that receive `pieces`, with `n` bytes received before. When `n` bytes
    have been received, `temp n` is what is in the memory of that array. -/
def feed (temp : Nat → List UInt8) (n : Nat) (ev : EventHandle) :
    List (List UInt8) → Outcome EventHandle
  | [] => .ok ev
  | piece :: pieces => do
    let (_, ev) ← readHook ev (.bytes piece) (temp (n + piece.length))
    feed temp (n + piece.length) ev pieces

/-- The method and the string that a new handle has after `pieces`. -/
def received (temp : Nat → List UInt8) (pieces : List (List UInt8)) :
    Outcome (Int32 × CString) := do
  let ev ← feed temp 0 initEvhandle pieces
  .ok (ev.handleMethod, cut ev.request)

/-- `pieces` are a way to cut `stream` into results of `recv`. -/
structure Cuts (stream : List UInt8) (pieces : List (List UInt8)) : Prop where
  flatten : pieces.flatten = stream
  bounds : ∀ piece ∈ pieces, 1 ≤ piece.length ∧ piece.length ≤ MAX_REQLEN

/-! ## The request that a handle shows -/

/-- The number in front of the first colon of a line. -/
def number (line : List UInt8) : Option (List UInt8) := (line.findIdx? isColon).map line.take

/-- What is behind the first colon, or the line when there is none. -/
def name (line : List UInt8) : List UInt8 :=
  match line.findIdx? isColon with
  | none => line
  | some i => line.drop (i + 1)

/-- The bytes of a request without the line's end, which a null byte takes the place of. -/
def body (text : List UInt8) : List UInt8 := text.take (text.length - 2) ++ [0]

/-- What is parsed out of the bytes of a request: the number, read with the memory behind it, and
    the rest. -/
def parse (temp : List UInt8) (method : Int32) (text : List UInt8) : Int32 × List UInt8 :=
  (match number (body text) with
    | none => method
    | some text => atoi (text ++ temp.drop text.length),
   name (body text))

/-- The handle holds the bytes `text`, and its string ends among them or behind them. -/
structure Shows (ev : EventHandle) (method : Int32) (text : List UInt8) : Prop where
  method : ev.handleMethod = method
  len : ev.requestLen = text.length
  request : ∃ behind, ev.request = text ++ behind ∧ ev.request.length = MAX_REQLEN ∧
    (0 ∈ text ∨ behind = List.replicate behind.length 0)

theorem Shows.cut {ev : EventHandle} {method : Int32} {text : List UInt8}
    (h : Shows ev method text) : CString.cut ev.request = CString.cut text := by
  obtain ⟨behind, hreq, -, hend⟩ := h.request
  rw [hreq]
  rcases hend with hmem | hzero
  · exact cut_append_of_mem hmem behind
  · rw [hzero]
    exact cut_append_zeros text _

theorem shows_initEvhandle : Shows initEvhandle 0 [] :=
  ⟨rfl, rfl, ⟨List.replicate MAX_REQLEN 0, by simp [initEvhandle]⟩⟩

/-- `parse_request` parses the bytes that are shown. -/
theorem parseRequest_shows {ev : EventHandle} {method : Int32} {text : List UInt8}
    (h : Shows ev method text) (hlen : 2 ≤ text.length) (temp : List UInt8) :
    ∃ ev', parseRequest ev temp = .ok ev' ∧
      Shows ev' (parse temp method text).1 (parse temp method text).2 := by
  obtain ⟨behind, hreq, hmax, -⟩ := h.request
  have hlen' : ¬ ev.requestLen < 2 := by
    have := h.len
    omega
  -- the two bytes at the end: the first becomes the null byte, the second is left behind it
  obtain ⟨front, last, hlast, rfl⟩ : ∃ front last, last.length = 2 ∧ text = front ++ last :=
    ⟨text.take (text.length - 2), text.drop (text.length - 2), by simp; omega, by simp⟩
  obtain ⟨x, y, rfl⟩ := List.length_eq_two.mp hlast
  have hset : ev.request.set (ev.requestLen - 1 - 1) 0 = front ++ [0] ++ (y :: behind) := by
    rw [hreq, h.len]
    simp
  have htake : (ev.request.set (ev.requestLen - 1 - 1) 0).take (ev.requestLen - 1) =
      front ++ [0] := by
    rw [hset, h.len, List.take_left' (by simp)]
  have hbody : body (front ++ [x, y]) = front ++ [0] := by
    simp [body]
  simp only [parseRequest, if_neg hlen', htake, parse, hbody, number, name]
  cases hfind : (front ++ [0]).findIdx? isColon with
  | none =>
    refine ⟨_, rfl, ⟨h.method, ?_, ⟨y :: behind, hset, ?_, .inl (by simp)⟩⟩⟩
    · simp [h.len]
    · simpa using hmax
  | some i =>
    obtain ⟨hlt, hcolon, -⟩ := List.findIdx?_eq_some_iff_getElem.mp hfind
    have hi : i < front.length := by
      by_contra hge
      obtain rfl : i = front.length := by
        simp at hlt
        omega
      simp [isColon, ch] at hcolon
    have hlen : ev.requestLen - 1 - i - 1 = ((front ++ [0]).drop (i + 1)).length := by
      simp [h.len]
      omega
    have hnum : (ev.request.set (ev.requestLen - 1 - 1) 0).take i = (front ++ [0]).take i := by
      rw [hset, List.take_append_of_le_length (by simp; omega)]
    have hrest : ((ev.request.set (ev.requestLen - 1 - 1) 0).drop (i + 1)).take
        (ev.requestLen - 1 - i - 1) = (front ++ [0]).drop (i + 1) := by
      rw [hset, @List.drop_append_of_le_length _ (front ++ [0]) _ _ (by simp; omega), hlen,
        List.take_left]
    refine ⟨_, rfl, ⟨?_, hlen, ⟨(ev.request.set (ev.requestLen - 1 - 1) 0).drop
      (ev.requestLen - 1 - i - 1), ?_, ?_, .inl ?_⟩⟩⟩
    · change atoi _ = atoi (_ ++ temp.drop ((front ++ [0]).take i).length)
      rw [hnum, List.length_take_of_le (Nat.le_of_lt hlt)]
    · rw [hrest]
    · rw [hrest, hlen, ← hmax]
      simp [hreq]
      omega
    · change 0 ∈ (front ++ [0]).drop (i + 1)
      rw [List.drop_append_of_le_length (by omega)]
      simp

/-- The bytes that a handle shows after a piece. -/
def taken (temp : List UInt8) (method : Int32) (text piece : List UInt8) : Int32 × List UInt8 :=
  if piece = CRLF then parse temp method (text ++ piece) else (method, text ++ piece)

/-- A piece that there is room for is put behind the bytes that are shown, and parsed when it is the
    two bytes of a line's end. -/
theorem readHook_shows {ev : EventHandle} {method : Int32} {text piece : List UInt8}
    (h : Shows ev method text) (hpiece : piece ≠ [])
    (hroom : text.length + piece.length ≤ MAX_REQLEN) (temp : List UInt8) :
    ∃ ev', readHook ev (.bytes piece) temp = .ok (piece.length, ev') ∧
      Shows ev' (taken temp method text piece).1 (taken temp method text piece).2 := by
  obtain ⟨behind, hreq, hmax, hend⟩ := h.request
  have hfits : ¬ ev.requestLen > MAX_REQLEN - piece.length := by
    have := h.len
    omega
  have hbehind : text.length + behind.length = MAX_REQLEN := by
    rw [← hmax, hreq, List.length_append]
  -- the handle with the piece in it
  let ev₁ : EventHandle := { ev with
    request := ev.request.take ev.requestLen ++ piece ++
      ev.request.drop (ev.requestLen + piece.length)
    requestLen := ev.requestLen + piece.length }
  have hshows : Shows ev₁ method (text ++ piece) := by
    refine ⟨h.method, by simp [ev₁, h.len], ⟨behind.drop piece.length, ?_, ?_, ?_⟩⟩
    · simp [ev₁, hreq, h.len, List.drop_append]
    · simp only [ev₁, h.len, List.length_append, List.length_take, List.length_drop, hmax]
      omega
    · rcases hend with hmem | hzero
      · exact .inl (by simp [hmem])
      · right
        rw [hzero]
        simp
  have hhook : readHook ev (.bytes piece) temp =
      (if piece = CRLF then parseRequest ev₁ temp else .ok ev₁) >>= fun ev =>
        .ok ((piece.length : Int), ev) := by
    have hcrlf : (piece.length = 2 ∧ piece.drop (piece.length - 2) = CRLF) ↔ piece = CRLF := by
      constructor
      · rintro ⟨h2, hdrop⟩
        simpa [h2] using hdrop
      · rintro rfl
        exact ⟨rfl, rfl⟩
    cases piece with
    | nil => exact absurd rfl hpiece
    | cons b piece => simp only [readHook, appendRequest, if_neg hfits, hcrlf, ev₁]
  rw [hhook, taken]
  split
  · next hp =>
    obtain ⟨ev₂, hrun, hshows₂⟩ := parseRequest_shows hshows (by simp [hp, CRLF]) temp
    exact ⟨ev₂, by simp [hrun], hshows₂⟩
  · exact ⟨ev₁, rfl, hshows⟩

theorem length_name_le (line : List UInt8) : (name line).length ≤ line.length := by
  unfold name
  split
  · exact Nat.le_refl _
  · exact (List.drop_suffix _ _).length_le

/-- Parsing takes at least one byte away. -/
theorem length_parse_lt (temp : List UInt8) (method : Int32) {text : List UInt8}
    (h : 2 ≤ text.length) : (parse temp method text).2.length < text.length := by
  have hbody : (body text).length < text.length := by
    simp [body]
    omega
  exact Nat.lt_of_le_of_lt (length_name_le (body text)) hbody

/-! ## The bytes of a stream, with the ends that are noticed -/

/-- The bytes of a piece. The last one is marked when the piece is what `read_hook` looks for. -/
def mark (piece : List UInt8) : List (UInt8 × Bool) :=
  if piece = CRLF then [(13, false), (10, true)] else piece.map (·, false)

/-- The bytes of the stream that the pieces make up, with their marks. -/
def marks (pieces : List (List UInt8)) : List (UInt8 × Bool) := pieces.flatMap mark

/-- What a handle shows when it is given one byte after the other, and parses at the marks. -/
def shown (temp : Nat → List UInt8) (n : Nat) (st : Int32 × List UInt8) :
    List (UInt8 × Bool) → Int32 × List UInt8
  | [] => st
  | (b, false) :: bytes => shown temp (n + 1) (st.1, st.2 ++ [b]) bytes
  | (b, true) :: bytes => shown temp (n + 1) (parse (temp (n + 1)) st.1 (st.2 ++ [b])) bytes

theorem shown_append (temp : Nat → List UInt8) (n : Nat) (st : Int32 × List UInt8)
    (bs cs : List (UInt8 × Bool)) :
    shown temp n st (bs ++ cs) = shown temp (n + bs.length) (shown temp n st bs) cs := by
  induction bs generalizing n st with
  | nil => rfl
  | cons b bs ih =>
    obtain ⟨b, marked⟩ := b
    have hn : n + ((b, marked) :: bs).length = n + 1 + bs.length := by
      simp
      omega
    rw [hn]
    cases marked with
    | false => exact ih (n + 1) _
    | true => exact ih (n + 1) _

theorem shown_unmarked (temp : Nat → List UInt8) (n : Nat) (st : Int32 × List UInt8)
    (bs : List UInt8) : shown temp n st (bs.map (·, false)) = (st.1, st.2 ++ bs) := by
  induction bs generalizing n st with
  | nil => simp [shown]
  | cons b bs ih => simp [shown, ih]

theorem length_mark (piece : List UInt8) : (mark piece).length = piece.length := by
  unfold mark
  split
  · next h => simp [h, CRLF]
  · simp

theorem shown_mark (temp : Nat → List UInt8) (n : Nat) (st : Int32 × List UInt8)
    (piece : List UInt8) :
    shown temp n st (mark piece) = taken (temp (n + piece.length)) st.1 st.2 piece := by
  unfold mark taken
  split
  · next h =>
    subst h
    simp [shown, CRLF]
  · exact shown_unmarked temp n st piece

theorem length_taken_le (temp : List UInt8) (method : Int32) (text piece : List UInt8) :
    (taken temp method text piece).2.length ≤ text.length + piece.length := by
  unfold taken
  split
  · next h =>
    have hlt := @length_parse_lt temp method (text ++ piece) (by simp [h, CRLF])
    rw [List.length_append] at hlt
    omega
  · simp

/-- Run lemma: as long as there is room for all that is received, the handle shows what the bytes
    and the marks say, wherever else the stream was cut. -/
theorem feed_shows (temp : Nat → List UInt8) {n : Nat} {ev : EventHandle} {method : Int32}
    {text : List UInt8} {pieces : List (List UInt8)} (h : Shows ev method text)
    (hne : ∀ piece ∈ pieces, piece ≠ []) (hn : text.length ≤ n)
    (hroom : n + pieces.flatten.length ≤ MAX_REQLEN) :
    ∃ ev', feed temp n ev pieces = .ok ev' ∧
      Shows ev' (shown temp n (method, text) (marks pieces)).1
        (shown temp n (method, text) (marks pieces)).2 := by
  induction pieces generalizing n ev method text with
  | nil => exact ⟨ev, rfl, h⟩
  | cons piece pieces ih =>
    rw [List.flatten_cons, List.length_append] at hroom
    obtain ⟨ev₁, hrun, hshows⟩ := readHook_shows h (hne piece (by simp)) (by omega)
      (temp (n + piece.length))
    have hlen := length_taken_le (temp (n + piece.length)) method text piece
    obtain ⟨ev₂, hfeed, hshows₂⟩ := ih hshows (fun piece hp => hne piece (by simp [hp]))
      (by omega : _ ≤ n + piece.length) (by omega)
    refine ⟨ev₂, by simp [feed, hrun, hfeed], ?_⟩
    rw [marks, List.flatMap_cons, shown_append, length_mark, shown_mark]
    exact hshows₂

/-- What is received depends on the bytes and on their marks. -/
theorem received_eq (temp : Nat → List UInt8) {stream : List UInt8} {pieces : List (List UInt8)}
    (hp : Cuts stream pieces) (hlen : stream.length ≤ MAX_REQLEN) :
    received temp pieces = .ok ((shown temp 0 (0, []) (marks pieces)).1,
      cut (shown temp 0 (0, []) (marks pieces)).2) := by
  have hne : ∀ piece ∈ pieces, piece ≠ [] := by
    intro piece hmem hnil
    have := (hp.bounds piece hmem).1
    simp [hnil] at this
  obtain ⟨ev, hfeed, hshows⟩ := feed_shows temp shows_initEvhandle hne (Nat.le_refl 0)
    (by rw [hp.flatten]; omega)
  simp [received, hfeed, hshows.method, hshows.cut]

theorem marks_of_not_mem {pieces : List (List UInt8)} (h : CRLF ∉ pieces) :
    marks pieces = pieces.flatten.map (·, false) := by
  induction pieces with
  | nil => rfl
  | cons piece pieces ih =>
    obtain ⟨hne, hrest⟩ := not_or.mp (fun hmem => h (List.mem_cons.mpr hmem))
    have hmark : mark piece = piece.map (·, false) := if_neg (Ne.symm hne)
    rw [List.flatten_cons, List.map_append, ← ih hrest, ← hmark]
    rfl

/-- A line's end with something behind it lies in the line. -/
theorem infix_of_append {before line rest : List UInt8} (hrest : rest ≠ [])
    (h : before ++ (CRLF ++ rest) = line ++ CRLF) : CRLF <:+: line := by
  rcases List.append_eq_append_iff.mp h with ⟨mid, rfl, hmid⟩ | ⟨mid, -, hmid⟩
  · match mid, hmid with
    | [], hmid => simp [hrest] at hmid
    | [a], hmid => simp [CRLF] at hmid
    | a :: b :: mid, hmid =>
      obtain ⟨rfl, rfl, -⟩ : 13 = a ∧ 10 = b ∧ rest = mid ++ CRLF := by simpa [CRLF] using hmid
      exact ⟨before, mid, by simp [CRLF]⟩
  · have hlen := congrArg List.length hmid
    have hpos := List.length_pos_iff.mpr hrest
    simp only [List.length_append] at hlen
    omega

/-- A line's end on its own at the end of a stream with no other one in it. -/
theorem marks_of_mem {line : List UInt8} {pieces : List (List UInt8)}
    (hp : Cuts (line ++ CRLF) pieces) (hline : ¬ CRLF <:+: line) (h : CRLF ∈ pieces) :
    marks pieces = line.map (·, false) ++ mark CRLF := by
  obtain ⟨before, after, rfl⟩ := List.append_of_mem h
  have hflat : before.flatten ++ (CRLF ++ after.flatten) = line ++ CRLF := by
    simpa using hp.flatten
  -- nothing can follow, since the line's end would then lie in the line
  have hafter : after = [] := by
    cases after with
    | nil => rfl
    | cons piece after =>
      have hpos := (hp.bounds piece (by simp)).1
      have hne : (piece :: after).flatten ≠ [] := by
        intro hnil
        simp [(List.append_eq_nil_iff.mp hnil).1] at hpos
      exact absurd (infix_of_append hne hflat) hline
  subst hafter
  have hbefore : before.flatten = line := by simpa using hflat
  have hnot : CRLF ∉ before := by
    intro hmem
    refine hline ?_
    rw [← hbefore]
    exact List.infix_of_mem_flatten hmem
  rw [marks, List.flatMap_append, ← hbefore]
  exact congrArg (· ++ mark CRLF) (marks_of_not_mem hnot)

/-! ## Segmentation -/

/-- `atoi` stops within the bytes of `text`. -/
def Settled (text : List UInt8) : Prop := ∀ behind, atoi (text ++ behind) = atoi text

theorem number_append_zero (line : List UInt8) : number (line ++ [0]) = number line := by
  have hfind : (line ++ [0]).findIdx? isColon = line.findIdx? isColon := by
    simp [isColon, ch]
  rw [number, number, hfind]
  cases hi : line.findIdx? isColon with
  | none => rfl
  | some i =>
    have hlt : i < line.length := (List.findIdx?_eq_some_iff_getElem.mp hi).1
    exact congrArg some (List.take_append_of_le_length (Nat.le_of_lt hlt))

theorem name_append_zero (line : List UInt8) : name (line ++ [0]) = name line ++ [0] := by
  have hfind : (line ++ [0]).findIdx? isColon = line.findIdx? isColon := by
    simp [isColon, ch]
  rw [name, name, hfind]
  cases hi : line.findIdx? isColon with
  | none => rfl
  | some i =>
    have hlt : i < line.length := (List.findIdx?_eq_some_iff_getElem.mp hi).1
    exact List.drop_append_of_le_length hlt

/-- The method of a line, read with the memory behind its number. -/
def method (line temp : List UInt8) : Int32 :=
  match number line with
  | none => 0
  | some text => atoi (text ++ temp.drop text.length)

theorem method_settled {line : List UInt8} (h : ∀ text, number line = some text → Settled text)
    (temp : List UInt8) : method line temp = method line [] := by
  unfold method
  split
  · rfl
  · next text htext => rw [h text htext, h text htext]

/-- The method is that of the line itself only where its number ends before what is behind it. -/
theorem method_const {line : List UInt8} :
    (∀ temp temp', method line temp = method line temp') ↔
      ∀ text, number line = some text → Settled text := by
  constructor
  · intro h text htext behind
    have hbehind := h (text ++ behind) text
    simpa [method, htext] using hbehind
  · intro h temp temp'
    rw [method_settled h temp, method_settled h temp']

theorem method_eq_zero {line : List UInt8} :
    (∀ temp, method line temp = 0) ↔
      (∀ text, number line = some text → Settled text) ∧
        ∀ text, number line = some text → atoi text = 0 := by
  constructor
  · intro h
    refine ⟨method_const.mp fun temp temp' => by rw [h, h], ?_⟩
    intro text htext
    simpa [method, htext] using h text
  · rintro ⟨hset, hzero⟩ temp
    rw [method_settled hset]
    unfold method
    split
    · rfl
    · next text htext => rw [hset text htext, hzero text htext]

/-- What is received of a line whose end is noticed. -/
theorem received_marked (temp : Nat → List UInt8) {line : List UInt8} {pieces : List (List UInt8)}
    (hp : Cuts (line ++ CRLF) pieces) (hlen : (line ++ CRLF).length ≤ MAX_REQLEN)
    (hmarks : marks pieces = line.map (·, false) ++ mark CRLF) :
    received temp pieces = .ok (method line (temp (line ++ CRLF).length), cut (name line)) := by
  have hbody : body (line ++ CRLF) = line ++ [0] := by
    simp [body, CRLF]
  have hcut : cut (name line ++ [0]) = cut (name line) := cut_append_zeros (name line) 1
  have hshown : shown temp 0 (0, []) (marks pieces) =
      parse (temp (line ++ CRLF).length) 0 (line ++ CRLF) := by
    rw [hmarks, shown_append, shown_unmarked, shown_mark]
    simp [taken]
  rw [received_eq temp hp hlen, hshown, parse, hbody, number_append_zero, name_append_zero, hcut]
  rfl

/-- What is received of a stream when no line's end is noticed. -/
theorem received_unmarked (temp : Nat → List UInt8) {stream : List UInt8}
    {pieces : List (List UInt8)} (hp : Cuts stream pieces) (hlen : stream.length ≤ MAX_REQLEN)
    (hnot : CRLF ∉ pieces) : received temp pieces = .ok (0, cut stream) := by
  rw [received_eq temp hp hlen, marks_of_not_mem hnot, hp.flatten, shown_unmarked]
  rfl

/-- The texts that are read as numbers. -/
def numbers : List UInt8 → List (UInt8 × Bool) → List (List UInt8)
  | _, [] => []
  | text, (b, false) :: bytes => numbers (text ++ [b]) bytes
  | text, (b, true) :: bytes =>
    (number (body (text ++ [b]))).toList ++ numbers (name (body (text ++ [b]))) bytes

/-- Where all numbers end before what is behind them in memory, that memory does not matter. -/
theorem shown_settled (tp tq : Nat → List UInt8) (n : Nat) (st : Int32 × List UInt8)
    {bytes : List (UInt8 × Bool)} (h : ∀ text ∈ numbers st.2 bytes, Settled text) :
    shown tp n st bytes = shown tq n st bytes := by
  induction bytes generalizing n st with
  | nil => rfl
  | cons b bytes ih =>
    obtain ⟨b, marked⟩ := b
    cases marked with
    | false => exact ih (n + 1) _ h
    | true =>
      have hparse : parse (tp (n + 1)) st.1 (st.2 ++ [b]) =
          parse (tq (n + 1)) st.1 (st.2 ++ [b]) := by
        unfold parse
        split
        · rfl
        · next text htext =>
          have hset := h text (by simp [numbers, htext])
          rw [hset, hset]
      rw [shown, shown, hparse]
      exact ih (n + 1) _ fun text ht => h text (by simp [numbers, parse] at ht ⊢; exact .inr ht)

section Line

variable {line : List UInt8} {p q : List (List UInt8)} (hline : ¬ CRLF <:+: line)
  (hlen : (line ++ CRLF).length ≤ MAX_REQLEN) (hp : Cuts (line ++ CRLF) p)
  (hq : Cuts (line ++ CRLF) q)
include hline hlen hp hq

theorem received_both (hmem : CRLF ∈ p) (hmem' : CRLF ∈ q) :
    (∀ tp tq, received tp p = received tq q) ↔
      ∀ text, number line = some text → Settled text := by
  have hrun := fun tp => received_marked tp hp hlen (marks_of_mem hp hline hmem)
  have hrun' := fun tq => received_marked tq hq hlen (marks_of_mem hq hline hmem')
  simp only [hrun, hrun', Outcome.ok.injEq, Prod.mk.injEq, and_true]
  rw [← method_const]
  exact ⟨fun h temp temp' => h (fun _ => temp) fun _ => temp', fun h tp tq => h _ _⟩

theorem received_one (hmem : CRLF ∈ p) (hnot : CRLF ∉ q) :
    (∀ tp tq, received tp p = received tq q) ↔
      (∀ text, number line = some text → Settled text) ∧
        cut (name line) = cut (line ++ CRLF) ∧ ∀ text, number line = some text → atoi text = 0 := by
  have hrun := fun tp => received_marked tp hp hlen (marks_of_mem hp hline hmem)
  have hrun' := fun tq => received_unmarked tq hq hlen hnot
  simp only [hrun, hrun', Outcome.ok.injEq, Prod.mk.injEq]
  constructor
  · intro h
    have hzero := method_eq_zero.mp fun temp => (h (fun _ => temp) fun _ => temp).1
    exact ⟨hzero.1, (h (fun _ => []) fun _ => []).2, hzero.2⟩
  · rintro ⟨hset, hname, hzero⟩ tp tq
    exact ⟨method_eq_zero.mpr ⟨hset, hzero⟩ _, hname⟩

/-- Two ways to cut a stream with one line's end: what they receive is the same when they agree on
    whether that end is a piece of its own, and the number ends in the line; or when parsing the
    line has no effect. -/
theorem received_iff :
    (∀ tp tq, received tp p = received tq q) ↔
      (CRLF ∈ p ∨ CRLF ∈ q → ∀ text, number line = some text → Settled text) ∧
      ((CRLF ∈ p ↔ CRLF ∈ q) ∨ cut (name line) = cut (line ++ CRLF) ∧
        ∀ text, number line = some text → atoi text = 0) := by
  by_cases hmem : CRLF ∈ p <;> by_cases hmem' : CRLF ∈ q
  · simpa [hmem, hmem'] using received_both hline hlen hp hq hmem hmem'
  · simpa [hmem, hmem'] using received_one hline hlen hp hq hmem hmem'
  · have hone := received_one hline hlen hq hp hmem' hmem
    have hsymm : (∀ tp tq, received tp p = received tq q) ↔
        ∀ tq tp, received tq q = received tp p :=
      ⟨fun h tq tp => (h tp tq).symm, fun h tp tq => (h tq tp).symm⟩
    rw [hsymm]
    simpa [hmem, hmem'] using hone
  · have hrun := fun tp => received_unmarked tp hp hlen hmem
    have hrun' := fun tq => received_unmarked tq hq hlen hmem'
    simp [hmem, hmem', hrun, hrun']

end Line

/-- Every byte of a stream in a piece of its own. -/
theorem cuts_singles (stream : List UInt8) : Cuts stream (stream.map fun b => [b]) := by
  refine ⟨?_, ?_⟩
  · induction stream with
    | nil => rfl
    | cons b stream ih => simpa using ih
  · intro piece hpiece
    obtain ⟨b, -, rfl⟩ := List.mem_map.mp hpiece
    exact ⟨Nat.le_refl 1, by simp [MAX_REQLEN]⟩

theorem crlf_not_mem_singles (stream : List UInt8) : CRLF ∉ stream.map fun b => [b] := by
  simp [CRLF]

/-- A stream of characters can always be cut in two ways with different results: one byte after the
    other, and with the line's end in one piece. -/
theorem exists_cuts_ne {line : List UInt8} (hnul : NoNul (line ++ CRLF))
    (hlen : (line ++ CRLF).length ≤ MAX_REQLEN) :
    ∃ p q, Cuts (line ++ CRLF) p ∧ Cuts (line ++ CRLF) q ∧
      ∀ tp tq, received tp p ≠ received tq q := by
  have hsingles := cuts_singles line
  have hq : Cuts (line ++ CRLF) (line.map (fun b => [b]) ++ [CRLF]) := by
    refine ⟨by simp [hsingles.flatten], ?_⟩
    intro piece hpiece
    rcases List.mem_append.mp hpiece with h | h
    · exact hsingles.bounds piece h
    · simp [List.mem_singleton.mp h, CRLF, MAX_REQLEN]
  have hmarks : marks (line.map (fun b => [b]) ++ [CRLF]) = line.map (·, false) ++ mark CRLF := by
    have hline := marks_of_not_mem (crlf_not_mem_singles line)
    rw [hsingles.flatten] at hline
    rw [marks, List.flatMap_append, ← hline]
    rfl
  refine ⟨_, _, cuts_singles _, hq, ?_⟩
  intro tp tq heq
  rw [received_unmarked tp (cuts_singles _) hlen (crlf_not_mem_singles _),
    received_marked tq hq hlen hmarks, cut_of_noNul hnul] at heq
  -- the string of a parsed line is shorter
  have hcut := congrArg List.length (Prod.mk.inj (Outcome.ok.inj heq)).2
  have hle := length_cut_le (name line)
  have hle' := length_name_le line
  simp only [List.length_append, CRLF, List.length_cons, List.length_nil] at hcut
  omega

/-- The ways to cut a stream that agree on the ends that are pieces of their own, where all numbers
    end in their lines, receive the same. A stream with one end is received the same under no weaker
    condition, unless parsing it has no effect; and of every stream of characters two ways to cut it
    receive differently. -/
theorem received_segmentation {stream : List UInt8} {p q : List (List UInt8)}
    (hend : CRLF <:+ stream) (hlen : stream.length ≤ MAX_REQLEN) (hp : Cuts stream p)
    (hq : Cuts stream q) :
    (marks p = marks q → (∀ text ∈ numbers [] (marks p), Settled text) →
      ∀ tp tq, received tp p = received tq q) ∧
    (∀ line, stream = line ++ CRLF → ¬ CRLF <:+: line →
      ((∀ tp tq, received tp p = received tq q) ↔
        (CRLF ∈ p ∨ CRLF ∈ q → ∀ text, number line = some text → Settled text) ∧
        ((CRLF ∈ p ↔ CRLF ∈ q) ∨ cut (name line) = cut stream ∧
          ∀ text, number line = some text → atoi text = 0))) ∧
    (NoNul stream → ∃ p' q', Cuts stream p' ∧ Cuts stream q' ∧
      ∀ tp tq, received tp p' ≠ received tq q') := by
  refine ⟨?_, ?_, ?_⟩
  · intro hmarks hset tp tq
    rw [received_eq tp hp hlen, received_eq tq hq hlen, ← hmarks,
      shown_settled tp tq 0 (0, []) hset]
  · rintro line rfl hline
    exact received_iff hline hlen hp hq
  · intro hnul
    obtain ⟨line, rfl⟩ := hend
    exact exists_cuts_ne hnul hlen

/-- `ab` in one piece or in two, with the line's end behind it. -/
theorem received_segmentation_ab :
    received (fun _ => [49]) [[97, 98], CRLF] = received (fun _ => []) [[97], [98], CRLF] := by
  have hnumbers : numbers [] (marks [[97, 98], CRLF]) = [] := by decide
  exact (@received_segmentation ([97, 98] ++ CRLF) _ _ ⟨[97, 98], rfl⟩ (by decide)
    ⟨rfl, by decide⟩ ⟨rfl, by decide⟩).1 rfl (by simp [hnumbers]) (fun _ => [49]) fun _ => []

/-- A request that comes in one piece is not parsed. -/
theorem received_cut :
    ¬ ∀ (stream : List UInt8) (p q : List (List UInt8)), CRLF <:+ stream →
      stream.length ≤ MAX_REQLEN → Cuts stream p → Cuts stream q →
      ∀ tp tq, received tp p = received tq q := by
  intro h
  have heq := h (lit "1:/a" ++ CRLF) [lit "1:/a" ++ CRLF] [lit "1:/a", CRLF] ⟨_, rfl⟩
    (by decide +kernel) ⟨rfl, by decide +kernel⟩ ⟨rfl, by decide +kernel⟩
    (fun _ => List.replicate MAX_REQLEN 0) fun _ => List.replicate MAX_REQLEN 0
  revert heq
  decide +kernel

end Spider.Tinyhttp
