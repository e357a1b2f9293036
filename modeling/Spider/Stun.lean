import Spider.Lib.CString
import Spider.Lib.Outcome

/-!
# STUN binding requests

`spd_stun_bind` sends a request and waits for datagrams, which
`spd_stun_response_handle` takes apart. A message is a header of 20 bytes, with
its type, its length and the transaction id, and attributes of a type, a length
and a value; numbers are in network order. The slips that keep the file from
compiling are read as what they stand for.
-/

namespace Spider.Stun

open Lib Outcome CString

/-- `ntohs`. -/
def ntohs (hi lo : UInt8) : Nat := hi.toNat * 256 + lo.toNat

/-- `htons`. -/
def htons (n : Nat) : List UInt8 := [(n / 256).toUInt8, n.toUInt8]

/-- The types of messages. -/
def STUN_BINDREQ : Nat := 0x0001
@[inherit_doc STUN_BINDREQ] def STUN_BINDRESP : Nat := 0x0101

/-- The types of attributes. -/
def STUN_MSG_MAPPED_ADDR : Nat := 0x0001
@[inherit_doc STUN_MSG_MAPPED_ADDR] def STUN_MSG_USERNAME : Nat := 0x0006

/-- `enum spd_stun_result`. -/
def SPD_STUN_ACCEPT : Int32 := 0
@[inherit_doc SPD_STUN_ACCEPT] def SPD_STUN_IGNORE : Int32 := 1

/-- `struct sockaddr_in`: port and address as they are on the wire. -/
structure SockaddrIn where
  sinPort : List UInt8
  sinAddr : List UInt8
  deriving DecidableEq, Repr

/-- After `memset`. -/
def SockaddrIn.zero : SockaddrIn := ⟨[0, 0], [0, 0, 0, 0]⟩

/-- `sizeof(struct stun_header)`. -/
def sizeofHeader : Nat := 20

/-- `msgtype` of a message, `msglen` and `id`. -/
def msgtype (data : List UInt8) : Nat := ntohs (data.getD 0 0) (data.getD 1 0)
@[inherit_doc msgtype] def msglen (data : List UInt8) : Nat := ntohs (data.getD 2 0) (data.getD 3 0)
@[inherit_doc msgtype] def msgid (data : List UInt8) : List UInt8 := (data.drop 4).take 16

/-! ## Messages -/

/-- `int size = sizeof(**attr) + strlen(s)`. -/
def attrSize (len : Nat) : Int := Int.bmod (4 + len) (2 ^ 32)

/-- `apppend_stunattr` (`stun.c:186-197`), with `left` bytes left in the buffer. -/
def appendAttr (attrvalue : Nat) (value : List UInt8) (left : Nat) : Outcome (List UInt8) :=
  if left > attrSize value.length then
    -- A size that has wrapped around lets the copy run behind the buffer.
    if left < 4 + value.length then .fault
    else .ok (htons attrvalue ++ htons value.length ++ value)
  else .ok []

/-- `append_attr_address` (`stun.c:210-225`): the attribute, if it fits in what is left of the
    buffer. -/
def appendAttrAddress (attrval : Nat) (sin : SockaddrIn) (left : Nat) : List UInt8 :=
  if left > 4 + 8 then htons attrval ++ htons 8 ++ [0, 1] ++ sin.sinPort ++ sin.sinAddr else []

/-- The request of `spd_stun_bind` (`stun.c:360-377`). -/
def bindRequest (id : List UInt8) (username : Option CString) : Outcome (List UInt8) := do
  let body ← match username with
    | some username => appendAttr STUN_MSG_USERNAME username (1024 - sizeofHeader)
    | none => .ok []
  .ok (htons STUN_BINDREQ ++ htons body.length ++ id ++ body)

/-- The answer to a request without attributes from `src` (`stun.c:297-321`). -/
def bindAnswer (src : SockaddrIn) (data : List UInt8) : List UInt8 :=
  let body := appendAttrAddress STUN_MSG_MAPPED_ADDR src (1024 - sizeofHeader)
  htons STUN_BINDRESP ++ htons body.length ++ msgid data ++ body

/-- `struct stun_attr`, with its value. -/
structure StunAttr where
  attr : Nat
  len : Nat
  value : List UInt8
  deriving DecidableEq, Repr

/-- `stun_get_mapped` (`stun.c:334-344`). -/
def stunGetMapped (attr : StunAttr) (sa : SockaddrIn) : Int32 × SockaddrIn :=
  if attr.attr ≠ STUN_MSG_MAPPED_ADDR ∨ attr.len ≠ 8 then (1, sa)
  else (0, ⟨(attr.value.drop 2).take 2, (attr.value.drop 4).take 4⟩)

/-- The loop over the attributes (`stun.c:276-293`): what is left of `len` behind it, and what the
    callback has made of its argument. `attr` is never set in it; null stands for a variable that
    has no value. -/
def attrLoop (stunCb : StunAttr → SockaddrIn → Int32 × SockaddrIn) (attr : Option StunAttr)
    (x : Nat) : Nat → Nat → SockaddrIn → Outcome (Nat × SockaddrIn)
  | 0, _, _ => .timeout
  | fuel + 1, len, arg =>
    if len = 0 then .ok (0, arg)
    else if len < 4 then .ok (len, arg)
    else match attr with
    | none => .fault
    | some a =>
      attrLoop stunCb (some { a with attr := 0 }) x fuel ((len + 2 ^ 64 - x) % 2 ^ 64)
        (stunCb a arg).2

/-- What `spd_stun_response_handle` returns, leaves in its argument and sends. -/
structure Handled where
  ret : Int32
  arg : SockaddrIn
  sent : Option (List UInt8)
  deriving DecidableEq, Repr

/-- `spd_stun_response_handle` (`stun.c:247-328`). `attr` is only declared. -/
def spdStunResponseHandle (fuel : Nat) (src : SockaddrIn) (data : List UInt8)
    (stunCb : StunAttr → SockaddrIn → Int32 × SockaddrIn) (arg : SockaddrIn) : Outcome Handled :=
  if data.length < sizeofHeader then .ok ⟨-1, arg, none⟩
  else do
    let len := data.length - sizeofHeader
    let x := msglen data
    let (len, arg) ← attrLoop stunCb none x fuel (if x > len then len else x) arg
    if len = 0 ∧ msgtype data = STUN_BINDREQ then
      .ok ⟨SPD_STUN_ACCEPT, arg, some (bindAnswer src data)⟩
    else .ok ⟨SPD_STUN_IGNORE, arg, none⟩

/-! ## The request and its answer -/

/-- What a wait for an answer brings: an error or a timeout of `poll`, an error of `recvfrom`, or a
    datagram and where it is from. -/
inductive Event where
  | pollError
  | pollTimeout
  | recvError
  | datagram (src : SockaddrIn) (data : List UInt8)
  deriving DecidableEq, Repr

/-- The loop of `spd_stun_bind` (`stun.c:379-425`) from the label `try_again` on: what is returned,
    and what is in `resp`. `sendto` is what the system returns in each try, and `handle` tells
    whether a datagram is taken, with what `resp` then holds. -/
def bindLoop (sendto : Nat → Int32) (handle : SockaddrIn → List UInt8 → Outcome (Option SockaddrIn))
    (retry : Nat) : List Event → Outcome (Int32 × SockaddrIn)
  | [] => .timeout
  | .pollError :: es =>
    if retry + 1 < 3 then
      if sendto (retry + 1) < 0 then .ok (sendto (retry + 1), .zero)
      else bindLoop sendto handle (retry + 1) es
    else .ok (-1, .zero)
  | .pollTimeout :: es =>
    if retry + 1 < 3 then
      if sendto (retry + 1) < 0 then .ok (sendto (retry + 1), .zero)
      else bindLoop sendto handle (retry + 1) es
    else .ok (1, .zero)
  | .recvError :: _ => .ok (-1, .zero)
  | .datagram src data :: es => do
    match ← handle src data with
    | some resp => .ok (0, resp)
    | none => bindLoop sendto handle retry es

/-- The condition of line 417. The buffer has room for 1023 bytes of a datagram, and `resp` is
    null again when it is not taken. -/
def takeAnswer (fuel : Nat) (id : List UInt8) (src : SockaddrIn) (data : List UInt8) :
    Outcome (Option SockaddrIn) := do
  let data := data.take 1023
  let handled ← spdStunResponseHandle fuel src data stunGetMapped .zero
  if handled.ret ≠ 0 ∨ msgtype data ≠ STUN_BINDRESP ∨ id ≠ msgid data then .ok none
  else .ok (some handled.arg)

/-- `spd_stun_bind` (`stun.c:346-427`), with somewhere to store the address; what is sent in each
    try is the request. -/
def spdStunBind (fuel : Nat) (sendto : Nat → List UInt8 → Int32) (id : List UInt8)
    (username : Option CString) (es : List Event) : Outcome (Int32 × SockaddrIn) := do
  let req ← bindRequest id username
  let sendto := fun retry => sendto retry req
  if sendto 0 < 0 then .ok (sendto 0, .zero)
  else bindLoop sendto (takeAnswer fuel id) 0 es

/-! ## What the call is for -/

/-- The attributes of a body, if it is well formed; `fuel` bounds their number. -/
def attributes : Nat → List UInt8 → Option (List StunAttr)
  | _, [] => some []
  | fuel + 1, t :: t' :: l :: l' :: rest =>
    if ntohs l l' ≤ rest.length then
      (attributes fuel (rest.drop (ntohs l l'))).map
        (⟨ntohs t t', ntohs l l', rest.take (ntohs l l')⟩ :: ·)
    else none
  | _, _ => none

/-- The address in a mapped-address attribute of eight bytes. -/
def StunAttr.mapped (attr : StunAttr) : Option SockaddrIn :=
  if attr.attr = STUN_MSG_MAPPED_ADDR ∧ attr.len = 8 then
    some ⟨(attr.value.drop 2).take 2, (attr.value.drop 4).take 4⟩
  else none

/-- The address that a well-formed binding response to the request gives. -/
def response (id data : List UInt8) : Option SockaddrIn :=
  if sizeofHeader ≤ data.length ∧ msgtype data = STUN_BINDRESP ∧
      msglen data = data.length - sizeofHeader ∧ msgid data = id then
    match attributes data.length (data.drop sizeofHeader) with
    | some attrs => attrs.findSome? StunAttr.mapped
    | none => none
  else none

/-- The request that is meant, with the user name if there is room for it. -/
def requestOf (id : List UInt8) (username : Option CString) : List UInt8 :=
  let body := match username with
    | some username =>
      if 4 + username.length < 1024 - sizeofHeader then
        htons STUN_MSG_USERNAME ++ htons username.length ++ username
      else []
    | none => []
  htons STUN_BINDREQ ++ htons body.length ++ id ++ body

/-- A binding that takes the first response and ignores every other datagram. -/
def bindFirst (sendto : Nat → List UInt8 → Int32) (id : List UInt8) (username : Option CString)
    (es : List Event) : Outcome (Int32 × SockaddrIn) :=
  let sendto := fun retry => sendto retry (requestOf id username)
  if sendto 0 < 0 then .ok (sendto 0, .zero)
  else bindLoop sendto (fun _ data => .ok (response id data)) 0 es

/-- The user name has no room in the request, and the size of its attribute has wrapped around to
    less. -/
def Overruns (username : Option CString) : Prop :=
  ∃ name ∈ username, attrSize name.length < 1024 - sizeofHeader ∧
    1024 - sizeofHeader < 4 + name.length

instance (username : Option CString) : Decidable (Overruns username) :=
  inferInstanceAs (Decidable (∃ _ ∈ _, _ ∧ _))

/-- The datagram is shorter than a header, or its attributes end within four bytes. -/
def Harmless (data : List UInt8) : Prop :=
  (data.take 1023).length < sizeofHeader ∨
    min (msglen (data.take 1023)) ((data.take 1023).length - sizeofHeader) < 4

/-- Every datagram that is received before the call ends is harmless. -/
def Calm (sendto : Nat → Int32) (retry : Nat) : List Event → Prop
  | [] => True
  | .pollError :: es | .pollTimeout :: es =>
    retry + 1 < 3 → ¬ sendto (retry + 1) < 0 → Calm sendto (retry + 1) es
  | .recvError :: _ => True
  | .datagram _ data :: es => Harmless data ∧ Calm sendto retry es

section

variable {fuel : Nat} {src : SockaddrIn} {data id : List UInt8} {sendto : Nat → Int32}

theorem attrSize_of_lt {len : Nat} (h : 4 + len < 2 ^ 31) : attrSize len = 4 + len :=
  Int.bmod_eq_of_le (by omega) (by omega)

/-- A user name of less than two gigabytes is no trouble. -/
theorem not_overruns {username : Option CString}
    (h : ∀ name ∈ username, 4 + name.length < 2 ^ 31) : ¬ Overruns username := by
  rintro ⟨name, hname, hsize, hlong⟩
  rw [attrSize_of_lt (h name hname)] at hsize
  rw [sizeofHeader] at hsize hlong
  omega

/-- The request is the one that is meant, unless the user name is written behind the buffer. -/
theorem bindRequest_eq (id : List UInt8) (username : Option CString) :
    bindRequest id username = if Overruns username then .fault else .ok (requestOf id username) := by
  cases username with
  | none =>
    rw [if_neg]
    · rfl
    · rintro ⟨name, hname, -⟩
      cases hname
  | some name =>
    have hsize : (1024 - sizeofHeader : Nat) = 1004 := rfl
    have hiff : Overruns (some name) ↔ attrSize name.length < (1004 : Nat) ∧ 1004 < 4 + name.length := by
      simp [Overruns, sizeofHeader]
    rw [bindRequest, requestOf, hsize]
    dsimp only
    unfold appendAttr
    by_cases hfits : 4 + name.length < 1004
    · have hshort := @attrSize_of_lt name.length (by omega)
      rw [if_pos (by omega), if_neg (by omega), if_neg (by rw [hiff]; omega), if_pos hfits, ok_bind]
    · by_cases hwrap : attrSize name.length < (1004 : Nat)
      · have hlong : 1004 < 4 + name.length := by
          by_contra hle
          have hshort := @attrSize_of_lt name.length (by omega)
          omega
        rw [if_pos hwrap, if_pos hlong, if_pos (hiff.mpr ⟨hwrap, hlong⟩)]
        rfl
      · rw [if_neg hwrap, if_neg fun h => hwrap (hiff.mp h).1, if_neg hfits, ok_bind]

theorem attrLoop_none (stunCb : StunAttr → SockaddrIn → Int32 × SockaddrIn) (x len : Nat)
    (arg : SockaddrIn) : attrLoop stunCb none x (fuel + 1) len arg =
      if len < 4 then .ok (len, arg) else .fault := by
  rw [attrLoop]
  by_cases hzero : len = 0
  · rw [if_pos hzero, if_pos (by omega), hzero]
  · rw [if_neg hzero]

theorem ite_gt_eq_min (x len : Nat) : (if x > len then len else x) = min x len := by
  split <;> omega

/-- Without four bytes of attributes only a request is accepted. -/
theorem spdStunResponseHandle_few (stunCb : StunAttr → SockaddrIn → Int32 × SockaddrIn)
    (arg : SockaddrIn) (h : data.length < sizeofHeader ∨
      min (msglen data) (data.length - sizeofHeader) < 4) :
    ∃ handled, spdStunResponseHandle (fuel + 1) src data stunCb arg = .ok handled ∧
      (handled.ret = 0 → msgtype data = STUN_BINDREQ) := by
  unfold spdStunResponseHandle
  by_cases hrunt : data.length < sizeofHeader
  · rw [if_pos hrunt]
    exact ⟨_, rfl, nofun⟩
  · rw [if_neg hrunt]
    dsimp only
    rw [attrLoop_none, ite_gt_eq_min, if_pos (h.resolve_left hrunt), ok_bind]
    dsimp only
    split
    next hreq => exact ⟨_, rfl, fun _ => hreq.2⟩
    next => exact ⟨_, rfl, nofun⟩

/-- The first attribute is read through a pointer that has no value. -/
theorem spdStunResponseHandle_fault (stunCb : StunAttr → SockaddrIn → Int32 × SockaddrIn)
    (arg : SockaddrIn) (hlen : ¬ data.length < sizeofHeader)
    (hattr : ¬ min (msglen data) (data.length - sizeofHeader) < 4) :
    spdStunResponseHandle (fuel + 1) src data stunCb arg = .fault := by
  unfold spdStunResponseHandle
  rw [if_neg hlen]
  dsimp only
  rw [attrLoop_none, ite_gt_eq_min, if_neg hattr]
  rfl

/-- A harmless datagram is ignored. -/
theorem takeAnswer_harmless (h : Harmless data) :
    takeAnswer (fuel + 1) id src data = .ok none := by
  obtain ⟨handled, hhandle, hret⟩ :=
    @spdStunResponseHandle_few fuel src (data.take 1023) stunGetMapped .zero h
  rw [takeAnswer, hhandle, ok_bind, if_pos]
  by_cases hzero : handled.ret = 0
  · -- a request is answered, but it is not a response
    right
    left
    rw [hret hzero]
    decide
  · exact Or.inl hzero

theorem takeAnswer_fault (h : ¬ Harmless data) :
    takeAnswer (fuel + 1) id src data = .fault := by
  rw [Harmless, not_or] at h
  rw [takeAnswer, spdStunResponseHandle_fault stunGetMapped .zero h.1 h.2]
  rfl

theorem attributes_few {n : Nat} {body : List UInt8} (h : body.length < 4) {attrs : List StunAttr}
    (hattrs : attributes n body = some attrs) : attrs = [] := by
  cases body with
  | nil =>
    cases n <;> exact (Option.some.inj hattrs).symm
  | cons t body =>
    match n, body with
    | 0, _ => simp [attributes] at hattrs
    | n + 1, [] => simp [attributes] at hattrs
    | n + 1, [t'] => simp [attributes] at hattrs
    | n + 1, [t', l] => simp [attributes] at hattrs
    | n + 1, t' :: l :: l' :: rest =>
      simp only [List.length_cons] at h
      omega

/-- A response is not harmless. -/
theorem response_harmless (h : Harmless data) : response id data = none := by
  unfold response
  split
  next hresp =>
    obtain ⟨hlen, -, hmsglen, -⟩ := hresp
    have hheader : msglen (data.take 1023) = msglen data := by
      simp [msglen, List.getD]
    have hfew : data.length - sizeofHeader < 4 := by
      rw [Harmless, hheader, hmsglen, List.length_take] at h
      have hsize : sizeofHeader = 20 := rfl
      omega
    cases hattrs : attributes data.length (data.drop sizeofHeader) with
    | none => rfl
    | some attrs =>
      have hnil := attributes_few (by simpa using hfew) hattrs
      rw [hnil]
      rfl
  next => rfl

/-- The request is sent again, and the loop goes on as `rest`, unless that fails or was the last
    try, after which `last` is returned. -/
def tryAgain (sendto : Nat → Int32) (retry : Nat) (last : Int32)
    (rest : Outcome (Int32 × SockaddrIn)) : Outcome (Int32 × SockaddrIn) :=
  if retry + 1 < 3 then
    if sendto (retry + 1) < 0 then .ok (sendto (retry + 1), .zero) else rest
  else .ok (last, .zero)

section

variable {retry : Nat} {last : Int32} {rest rest' : Outcome (Int32 × SockaddrIn)}
  {handle : SockaddrIn → List UInt8 → Outcome (Option SockaddrIn)} {es : List Event}

theorem bindLoop_pollError : bindLoop sendto handle retry (.pollError :: es) =
    tryAgain sendto retry (-1) (bindLoop sendto handle (retry + 1) es) := rfl

theorem bindLoop_pollTimeout : bindLoop sendto handle retry (.pollTimeout :: es) =
    tryAgain sendto retry 1 (bindLoop sendto handle (retry + 1) es) := rfl

theorem tryAgain_ne_fault (h : rest ≠ .fault) : tryAgain sendto retry last rest ≠ .fault := by
  unfold tryAgain
  split
  · split
    · nofun
    · exact h
  · nofun

theorem tryAgain_ne_success {resp : SockaddrIn} (hlast : last ≠ 0) (h : rest ≠ .ok (0, resp)) :
    tryAgain sendto retry last rest ≠ .ok (0, resp) := by
  unfold tryAgain
  split
  · split
    next hsend =>
      intro heq
      have hzero : sendto (retry + 1) = 0 := (Prod.mk.inj (Outcome.ok.inj heq)).1
      rw [hzero] at hsend
      exact absurd hsend (by decide)
    next => exact h
  · intro heq
    exact hlast (Prod.mk.inj (Outcome.ok.inj heq)).1

/-- Two loops that are tried again are the same when their rests are, where these matter. -/
theorem tryAgain_iff : tryAgain sendto retry last rest = tryAgain sendto retry last rest' ↔
    (retry + 1 < 3 → ¬ sendto (retry + 1) < 0 → rest = rest') := by
  unfold tryAgain
  by_cases hretry : retry + 1 < 3
  · by_cases hsend : sendto (retry + 1) < 0
    · simp [hretry, hsend]
    · simp [hretry, hsend]
  · simp [hretry]

end

theorem bindLoop_response_ne_fault (retry : Nat) (es : List Event) :
    bindLoop sendto (fun _ data => .ok (response id data)) retry es ≠ .fault := by
  induction es generalizing retry with
  | nil => nofun
  | cons e es ih =>
    cases e with
    | pollError => exact tryAgain_ne_fault (ih (retry + 1))
    | pollTimeout => exact tryAgain_ne_fault (ih (retry + 1))
    | recvError => nofun
    | datagram src data =>
      rw [bindLoop, ok_bind]
      cases response id data with
      | none => exact ih retry
      | some resp => nofun

/-- The loop does what it is for exactly when every datagram in it is harmless. -/
theorem bindLoop_iff (retry : Nat) (es : List Event) :
    bindLoop sendto (takeAnswer (fuel + 1) id) retry es =
      bindLoop sendto (fun _ data => .ok (response id data)) retry es ↔ Calm sendto retry es := by
  induction es generalizing retry with
  | nil => exact iff_of_true rfl trivial
  | cons e es ih =>
    cases e with
    | pollError =>
      rw [bindLoop_pollError, bindLoop_pollError, tryAgain_iff, Calm, ih (retry + 1)]
    | pollTimeout =>
      rw [bindLoop_pollTimeout, bindLoop_pollTimeout, tryAgain_iff, Calm, ih (retry + 1)]
    | recvError => exact iff_of_true rfl trivial
    | datagram src data =>
      rw [bindLoop, bindLoop, Calm, ok_bind]
      by_cases hharm : Harmless data
      · rw [takeAnswer_harmless hharm, response_harmless hharm, ok_bind, ih retry]
        exact (and_iff_right hharm).symm
      · rw [takeAnswer_fault hharm, fault_bind]
        refine iff_of_false ?_ fun h => hharm h.1
        intro hfault
        cases hresp : response id data with
        | none =>
          rw [hresp] at hfault
          exact bindLoop_response_ne_fault retry es hfault.symm
        | some resp =>
          rw [hresp] at hfault
          cases hfault

/-- No datagram ends the loop with success: the handler accepts requests, and the loop wants a
    response. -/
theorem bindLoop_ne_success (retry : Nat) (es : List Event) (resp : SockaddrIn) :
    bindLoop sendto (takeAnswer (fuel + 1) id) retry es ≠ .ok (0, resp) := by
  induction es generalizing retry with
  | nil => nofun
  | cons e es ih =>
    cases e with
    | pollError => exact tryAgain_ne_success (by decide) (ih (retry + 1))
    | pollTimeout => exact tryAgain_ne_success (by decide) (ih (retry + 1))
    | recvError => nofun
    | datagram src data =>
      rw [bindLoop]
      by_cases hharm : Harmless data
      · rw [takeAnswer_harmless hharm, ok_bind]
        exact ih retry
      · rw [takeAnswer_fault hharm]
        nofun

end

/-- A binding takes the first response, and ignores every other datagram, exactly when the user name
    is not written behind the request and no datagram that it receives has attributes. -/
theorem spdStunBind_iff (fuel : Nat) (sendto : Nat → List UInt8 → Int32) (id : List UInt8)
    (username : Option CString) (es : List Event) :
    spdStunBind (fuel + 1) sendto id username es = bindFirst sendto id username es ↔
      ¬ Overruns username ∧ (¬ sendto 0 (requestOf id username) < 0 →
        Calm (fun retry => sendto retry (requestOf id username)) 0 es) := by
  unfold spdStunBind bindFirst
  rw [bindRequest_eq]
  by_cases hover : Overruns username
  · rw [if_pos hover]
    refine iff_of_false ?_ fun h => h.1 hover
    dsimp only
    rw [fault_bind]
    split
    · nofun
    · exact (bindLoop_response_ne_fault 0 es).symm
  · rw [if_neg hover, ok_bind]
    dsimp only
    rw [and_iff_right hover]
    by_cases hsend : sendto 0 (requestOf id username) < 0
    · simp [hsend]
    · simpa [hsend] using bindLoop_iff 0 es

/-- A response with the address `127.0.0.1:80`. -/
def loopbackResponse : List UInt8 :=
  [1, 1, 0, 12] ++ List.replicate 16 0 ++ [0, 1, 0, 8, 0, 1, 0, 80, 127, 0, 0, 1]

/-- It is the first datagram, and the address in it is not taken. -/
theorem spdStunBind_misses :
    response (List.replicate 16 0) loopbackResponse = some ⟨[0, 80], [127, 0, 0, 1]⟩ ∧
    spdStunBind 1024 (fun _ _ => 20) (List.replicate 16 0) none
      [.datagram .zero loopbackResponse] = .fault ∧
    ¬ ∀ sendto id username es,
      spdStunBind 1024 sendto id username es = bindFirst sendto id username es := by
  have hfault : spdStunBind 1024 (fun _ _ => 20) (List.replicate 16 0) none
      [.datagram .zero loopbackResponse] = .fault := by decide +kernel
  refine ⟨by decide +kernel, hfault, ?_⟩
  intro h
  have hfirst : bindFirst (fun _ _ => 20) (List.replicate 16 0) none
      [.datagram .zero loopbackResponse] = .ok (0, ⟨[0, 80], [127, 0, 0, 1]⟩) := by decide +kernel
  have hsame := h (fun _ _ => 20) (List.replicate 16 0) none [.datagram .zero loopbackResponse]
  rw [hfault, hfirst] at hsame
  cases hsame

end Spider.Stun
