import Spider.Stun

/-!
# The attributes of a datagram

`spd_stun_response_handle` with a record of the attributes that its loop passes to the callback and
to `stun_process_attr`, beside what the loop is for: the attributes of the body up to the first
malformed one, each once and in order.
-/

namespace Spider.Stun

open Lib Outcome CString

/-- A type of attributes. -/
def STUN_MSG_PASSWORD : Nat := 0x0007

/-- `struct stun_state`: what its members point to. -/
structure StunState where
  username : Option (List UInt8)
  password : Option (List UInt8)
  deriving DecidableEq, Repr

/-- `stun_process_attr` (`stun.c:227-245`). -/
def stunProcessAttr (state : StunState) (attr : StunAttr) : Int32 × StunState :=
  if attr.attr = STUN_MSG_USERNAME then (0, { state with username := some attr.value })
  else if attr.attr = STUN_MSG_PASSWORD then (0, { state with password := some attr.value })
  else (0, state)

/-- What has been done with the attributes: those that the callback and `stun_process_attr` were
    called with, and what these made of `arg` and `st`. -/
structure Passed where
  called : List StunAttr
  processed : List StunAttr
  arg : SockaddrIn
  state : StunState
  deriving DecidableEq, Repr

/-- Before the loop. -/
def Passed.start (arg : SockaddrIn) : Passed := ⟨[], [], arg, ⟨none, none⟩⟩

/-- `if(stun_cb) stun_cb(attr, arg)`. -/
def Passed.call (p : Passed) (stunCb : Option (StunAttr → SockaddrIn → Int32 × SockaddrIn))
    (attr : StunAttr) : Passed :=
  match stunCb with
  | some cb => { p with called := p.called ++ [attr], arg := (cb attr p.arg).2 }
  | none => p

/-- The call of `stun_process_attr`. -/
def Passed.process (p : Passed) (attr : StunAttr) : Int32 × Passed :=
  let (ret, state) := stunProcessAttr p.state attr
  (ret, { p with processed := p.processed ++ [attr], state := state })

/-- The loop over the attributes (`stun.c:276-293`): what is left of `len` behind it. `attr` is only
    declared, and null stands for a variable that has no value. -/
def passLoop (stunCb : Option (StunAttr → SockaddrIn → Int32 × SockaddrIn))
    (attr : Option StunAttr) (x : Nat) : Nat → Nat → Passed → Outcome (Nat × Passed)
  | 0, _, _ => .timeout
  | fuel + 1, len, p =>
    if len = 0 then .ok (0, p)
    else if len < 4 then .ok (len, p)
    else match attr with
    | none => .fault
    | some a =>
      let (ret, p) := (p.call stunCb a).process a
      if ret ≠ 0 then .ok (len, p)
      else passLoop stunCb (some { a with attr := 0 }) x fuel ((len + 2 ^ 64 - x) % 2 ^ 64) p

/-- The answer to a request (`stun.c:297-321`), with the user name that was in it. -/
def bindReply (src : SockaddrIn) (username : Option (List UInt8)) (data : List UInt8) :
    Outcome (List UInt8) := do
  let left := 1024 - sizeofHeader
  let name ← match username with
    | some username => appendAttr STUN_MSG_USERNAME username left
    | none => .ok []
  let body := name ++ appendAttrAddress STUN_MSG_MAPPED_ADDR src (left - name.length)
  .ok (htons STUN_BINDRESP ++ htons body.length ++ msgid data ++ body)

/-- `spd_stun_response_handle` (`stun.c:247-328`), with what its loop has done. -/
def handleAttributes (fuel : Nat) (src : SockaddrIn) (data : List UInt8)
    (stunCb : Option (StunAttr → SockaddrIn → Int32 × SockaddrIn)) (arg : SockaddrIn) :
    Outcome (Handled × Passed) :=
  if data.length < sizeofHeader then .ok (⟨-1, arg, none⟩, .start arg)
  else do
    let len := data.length - sizeofHeader
    let x := msglen data
    let (len, p) ← passLoop stunCb none x fuel (if x > len then len else x) (.start arg)
    if len = 0 ∧ msgtype data = STUN_BINDREQ then do
      let resp ← bindReply src p.state.username data
      .ok (⟨SPD_STUN_ACCEPT, p.arg, some resp⟩, p)
    else .ok (⟨SPD_STUN_IGNORE, p.arg, none⟩, p)

/-! ## What the loop is for -/

/-- The bytes behind the header that belong to the message. -/
def bodyOf (data : List UInt8) : List UInt8 := (data.drop sizeofHeader).take (msglen data)

/-- The attributes of a body up to the first malformed one, and the bytes from there on; `fuel`
    bounds their number. -/
def attributesUpTo : Nat → List UInt8 → List StunAttr × List UInt8
  | fuel + 1, t :: t' :: l :: l' :: rest =>
    if ntohs l l' ≤ rest.length then
      let (attrs, behind) := attributesUpTo fuel (rest.drop (ntohs l l'))
      (⟨ntohs t t', ntohs l l', rest.take (ntohs l l')⟩ :: attrs, behind)
    else ([], t :: t' :: l :: l' :: rest)
  | _, body => ([], body)

/-- Each attribute up to the first malformed one is passed on once and in order, and a message is
    accepted only when there is no malformed one. -/
structure Exact (stunCb : Option (StunAttr → SockaddrIn → Int32 × SockaddrIn))
    (data : List UInt8) (handled : Handled) (p : Passed) : Prop where
  processed : p.processed = (attributesUpTo data.length (bodyOf data)).1
  called : p.called = if stunCb.isSome then p.processed else []
  accepted : handled.ret = SPD_STUN_ACCEPT →
    (attributesUpTo data.length (bodyOf data)).2 = []

section

variable {fuel : Nat} {src : SockaddrIn} {data : List UInt8} {arg : SockaddrIn}
  {stunCb : Option (StunAttr → SockaddrIn → Int32 × SockaddrIn)}

theorem attributesUpTo_few {n : Nat} {body : List UInt8} (h : body.length < 4) :
    attributesUpTo n body = ([], body) := by
  match n, body with
  | 0, _ => rfl
  | _ + 1, [] => rfl
  | _ + 1, [_] => rfl
  | _ + 1, [_, _] => rfl
  | _ + 1, [_, _, _] => rfl
  | _ + 1, _ :: _ :: _ :: _ :: rest =>
    simp only [List.length_cons] at h
    omega

theorem passLoop_none (x len : Nat) (p : Passed) : passLoop stunCb none x (fuel + 1) len p =
    if len < 4 then .ok (len, p) else .fault := by
  rw [passLoop]
  by_cases hzero : len = 0
  · rw [if_pos hzero, if_pos (by omega), hzero]
  · rw [if_neg hzero]

/-- The record does not change what is returned and sent. -/
theorem handleAttributes_handled (cb : StunAttr → SockaddrIn → Int32 × SockaddrIn) :
    (handleAttributes fuel src data (some cb) arg >>= fun r => .ok r.1) =
      spdStunResponseHandle fuel src data cb arg := by
  unfold handleAttributes spdStunResponseHandle
  by_cases hrunt : data.length < sizeofHeader
  · rw [if_pos hrunt, if_pos hrunt, ok_bind]
  · rw [if_neg hrunt, if_neg hrunt]
    cases fuel with
    | zero => rfl
    | succ fuel =>
      dsimp only
      rw [passLoop_none, attrLoop_none, ite_gt_eq_min]
      by_cases hfew : min (msglen data) (data.length - sizeofHeader) < 4
      · rw [if_pos hfew, if_pos hfew, ok_bind, ok_bind]
        dsimp only
        split
        · rfl
        · rfl
      · rw [if_neg hfew, if_neg hfew]
        rfl

theorem length_bodyOf (data : List UInt8) :
    (bodyOf data).length = min (msglen data) (data.length - sizeofHeader) := by
  rw [bodyOf, List.length_take, List.length_drop]

/-- Without four bytes of attributes there are none, and none are passed on. -/
theorem handleAttributes_few (h : data.length < sizeofHeader ∨
    min (msglen data) (data.length - sizeofHeader) < 4) :
    ∃ handled p, handleAttributes (fuel + 1) src data stunCb arg = .ok (handled, p) ∧
      Exact stunCb data handled p := by
  have hfew : (bodyOf data).length < 4 := by
    have hlen := length_bodyOf data
    rcases h with h | h
    · omega
    · omega
  have hnone := attributesUpTo_few (n := data.length) hfew
  have hcalled : (Passed.start arg).called = if stunCb.isSome then [] else [] := by
    split <;> rfl
  unfold handleAttributes
  by_cases hrunt : data.length < sizeofHeader
  · rw [if_pos hrunt]
    refine ⟨_, _, rfl, ?_, hcalled, ?_⟩
    · rw [hnone]
      rfl
    · exact nofun
  · rw [if_neg hrunt]
    dsimp only
    rw [passLoop_none, ite_gt_eq_min, if_pos (h.resolve_left hrunt), ok_bind]
    dsimp only
    split
    next hreq =>
      refine ⟨_, _, rfl, ?_, hcalled, ?_⟩
      · rw [hnone]
        rfl
      · intro _
        rw [hnone]
        exact List.length_eq_zero_iff.mp ((length_bodyOf data).trans hreq.1)
    next =>
      refine ⟨_, _, rfl, ?_, hcalled, ?_⟩
      · rw [hnone]
        rfl
      · exact nofun

/-- Otherwise the first of them is read through a pointer that has no value. -/
theorem handleAttributes_fault (hlen : ¬ data.length < sizeofHeader)
    (hattr : ¬ min (msglen data) (data.length - sizeofHeader) < 4) :
    handleAttributes (fuel + 1) src data stunCb arg = .fault := by
  unfold handleAttributes
  rw [if_neg hlen]
  dsimp only
  rw [passLoop_none, ite_gt_eq_min, if_neg hattr]
  rfl

end

/-- The handler passes on what it should exactly when the datagram is shorter than a header or has
    less than four bytes of attributes. -/
theorem handleAttributes_exact_iff (fuel : Nat) (src : SockaddrIn) (data : List UInt8)
    (stunCb : Option (StunAttr → SockaddrIn → Int32 × SockaddrIn)) (arg : SockaddrIn) :
    (∃ handled p, handleAttributes (fuel + 1) src data stunCb arg = .ok (handled, p) ∧
      Exact stunCb data handled p) ↔
    data.length < sizeofHeader ∨ min (msglen data) (data.length - sizeofHeader) < 4 := by
  constructor
  · intro ⟨handled, p, hok, _⟩
    by_contra hnot
    rw [not_or] at hnot
    rw [handleAttributes_fault hnot.1 hnot.2] at hok
    cases hok
  · exact handleAttributes_few

/-- A request with the user name `ab`. -/
def namedRequest : List UInt8 := requestOf (List.replicate 16 0) (some (lit "ab"))

/-- Its one attribute is well formed, and the handler runs into a fault. -/
theorem handleAttributes_misses :
    attributesUpTo namedRequest.length (bodyOf namedRequest) = ([⟨6, 2, lit "ab"⟩], []) ∧
    (∀ fuel, handleAttributes (fuel + 1) .zero namedRequest none .zero = .fault) ∧
    ¬ ∀ src data stunCb arg, ∃ fuel handled p,
      handleAttributes fuel src data stunCb arg = .ok (handled, p) ∧
        Exact stunCb data handled p := by
  have hfault : ∀ fuel, handleAttributes (fuel + 1) .zero namedRequest none .zero = .fault :=
    fun fuel => handleAttributes_fault (by decide +kernel) (by decide +kernel)
  refine ⟨by decide +kernel, hfault, ?_⟩
  intro h
  obtain ⟨fuel, handled, p, hok, -⟩ := h .zero namedRequest none .zero
  cases fuel with
  | zero =>
    have htimeout : handleAttributes 0 .zero namedRequest none .zero = .timeout := by
      decide +kernel
    rw [htimeout] at hok
    cases hok
  | succ fuel =>
    rw [hfault fuel] at hok
    cases hok

end Spider.Stun
