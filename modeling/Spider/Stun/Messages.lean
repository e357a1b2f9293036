import Spider.Lib.Items
import Spider.Stun.Attributes

/-!
# Messages and their bytes

A message is a type, a transaction id and attributes. What is written for a message gives
it back when it is read, and whatever can be read is what is written for a message: this
holds of what `spd_stun_bind` sends and of what `spd_stun_response_handle` sends back to a
request without attributes, whose address is to be found by whoever asked for it.
-/

namespace Spider.Stun

open Lib Outcome CString Items

/-! ## Attributes -/

/-- The bytes of an attribute. -/
def StunAttr.bytes (attr : StunAttr) : List UInt8 := htons attr.attr ++ htons attr.len ++ attr.value

/-- The type and the length of an attribute have two bytes each. -/
structure StunAttr.Valid (attr : StunAttr) : Prop where
  attr_lt : attr.attr < 65536
  len_lt : attr.len < 65536
  len : attr.len = attr.value.length

/-- The first attribute of a body, and what is behind it. -/
def firstAttr : List UInt8 → Option (StunAttr × List UInt8)
  | t :: t' :: l :: l' :: rest =>
    if ntohs l l' ≤ rest.length then
      some (⟨ntohs t t', ntohs l l', rest.take (ntohs l l')⟩, rest.drop (ntohs l l'))
    else none
  | _ => none

section Attributes

variable {n : Nat} {hi lo : UInt8} {attrs : List StunAttr} {body : List UInt8}

theorem ntohs_lt (hi lo : UInt8) : ntohs hi lo < 65536 := by
  have hhi := hi.toNat_lt
  have hlo := lo.toNat_lt
  unfold ntohs
  omega

theorem ntohs_htons (h : n < 65536) : ntohs (n / 256).toUInt8 n.toUInt8 = n := by
  have hhi : (n / 256).toUInt8.toNat = n / 256 % 256 := UInt8.toNat_ofNat'
  have hlo : n.toUInt8.toNat = n % 256 := UInt8.toNat_ofNat'
  unfold ntohs
  omega

theorem htons_ntohs (hi lo : UInt8) : htons (ntohs hi lo) = [hi, lo] := by
  have hhi := hi.toNat_lt
  have hlo := lo.toNat_lt
  have hdiv : ntohs hi lo / 256 = hi.toNat := by
    unfold ntohs
    omega
  have hmod : (ntohs hi lo).toUInt8 = lo := by
    apply UInt8.toNat_inj.mp
    have hcut : (ntohs hi lo).toUInt8.toNat = ntohs hi lo % 256 := UInt8.toNat_ofNat'
    rw [hcut]
    unfold ntohs
    omega
  rw [htons, hdiv, hmod]
  exact congrArg (fun b => [b, lo]) (UInt8.ofNat_toNat)

@[simp] theorem length_htons (n : Nat) : (htons n).length = 2 := rfl

@[simp] theorem length_bytes (attr : StunAttr) : attr.bytes.length = 4 + attr.value.length := by
  rw [StunAttr.bytes, List.length_append, List.length_append, length_htons, length_htons]

/-- An attribute is read as it was written. -/
theorem codec_firstAttr : Codec firstAttr StunAttr.bytes StunAttr.Valid where
  one_enc attr rest h := by
    have hlen : ntohs (attr.len / 256).toUInt8 attr.len.toUInt8 = attr.len := ntohs_htons h.len_lt
    have hle : attr.len ≤ (attr.value ++ rest).length := by
      rw [List.length_append, ← h.len]
      exact Nat.le_add_right _ _
    have hhead : attr.bytes ++ rest = (attr.attr / 256).toUInt8 :: attr.attr.toUInt8 ::
        (attr.len / 256).toUInt8 :: attr.len.toUInt8 :: (attr.value ++ rest) := rfl
    rw [hhead, firstAttr, ntohs_htons h.attr_lt, hlen, if_pos hle, h.len, List.take_left,
      List.drop_left, ← h.len]
  enc_of_one bs attr rest h := by
    rcases bs with _ | ⟨t, _ | ⟨t', _ | ⟨l, _ | ⟨l', bs⟩⟩⟩⟩
    · cases h
    · cases h
    · cases h
    · cases h
    · rw [firstAttr] at h
      split at h
      next hle =>
        obtain ⟨rfl, rfl⟩ := Prod.mk.inj (Option.some.inj h)
        refine ⟨⟨ntohs_lt t t', ntohs_lt l l', ?_⟩, ?_⟩
        · exact (List.length_take_of_le hle).symm
        · rw [StunAttr.bytes, htons_ntohs, htons_ntohs]
          show _ = [t, t', l, l'] ++ _ ++ _
          rw [List.append_assoc, List.take_append_drop]
          rfl
      next => cases h
  enc_ne_nil attr h := by
    have hlength := length_bytes attr
    rw [h, List.length_nil] at hlength
    omega

theorem attributes_eq_many (n : Nat) (body : List UInt8) :
    attributes n body = many firstAttr n body := by
  induction n generalizing body with
  | zero => cases body <;> simp [attributes, many]
  | succ n ih =>
    rcases body with _ | ⟨t, _ | ⟨t', _ | ⟨l, _ | ⟨l', rest⟩⟩⟩⟩
    · rfl
    · rfl
    · rfl
    · rfl
    · rw [attributes, many, firstAttr]
      split
      next => rw [ih]
      next => rfl

/-- The well-formed bodies are what is written for attributes. -/
theorem attributes_eq_some_bytes : attributes n body = some attrs ↔
    (∀ attr ∈ attrs, attr.Valid) ∧ attrs.length ≤ n ∧ body = attrs.flatMap StunAttr.bytes := by
  rw [attributes_eq_many]
  exact codec_firstAttr.many_eq_some_iff

theorem length_le_flatMap_bytes (attrs : List StunAttr) :
    attrs.length ≤ (attrs.flatMap StunAttr.bytes).length := by
  induction attrs with
  | nil => exact Nat.zero_le _
  | cons attr attrs ih =>
    rw [List.flatMap_cons, List.length_append, List.length_cons, length_bytes]
    omega

end Attributes

/-! ## Messages -/

/-- A message: its type, its transaction id and its attributes. -/
structure Message where
  msgtype : Nat
  id : List UInt8
  attrs : List StunAttr
  deriving DecidableEq, Repr

/-- The body of a message. -/
def Message.body (m : Message) : List UInt8 := m.attrs.flatMap StunAttr.bytes

/-- The bytes of a message. -/
def Message.bytes (m : Message) : List UInt8 :=
  htons m.msgtype ++ htons m.body.length ++ m.id ++ m.body

/-- The parts of a message fit into the fields for them. -/
structure Message.Valid (m : Message) : Prop where
  msgtype_lt : m.msgtype < 65536
  id : m.id.length = 16
  body_lt : m.body.length < 65536
  attrs : ∀ attr ∈ m.attrs, attr.Valid

/-- The message that the bytes are, if they are well formed. -/
def parse (data : List UInt8) : Option Message :=
  if sizeofHeader ≤ data.length ∧ msglen data = data.length - sizeofHeader then
    (attributes data.length (data.drop sizeofHeader)).map (⟨msgtype data, msgid data, ·⟩)
  else none

section Messages

variable {m : Message} {data : List UInt8}

theorem header_eq (h : sizeofHeader ≤ data.length) :
    data = htons (msgtype data) ++ htons (msglen data) ++ msgid data ++ data.drop sizeofHeader := by
  rcases data with _ | ⟨t, _ | ⟨t', _ | ⟨l, _ | ⟨l', rest⟩⟩⟩⟩
  · simp [sizeofHeader] at h
  · simp [sizeofHeader] at h
  · simp [sizeofHeader] at h
  · simp [sizeofHeader] at h
  · have htype : htons (msgtype (t :: t' :: l :: l' :: rest)) = [t, t'] := htons_ntohs t t'
    have hlen : htons (msglen (t :: t' :: l :: l' :: rest)) = [l, l'] := htons_ntohs l l'
    rw [htype, hlen]
    show _ = [t, t', l, l'] ++ rest.take 16 ++ rest.drop 16
    rw [List.append_assoc, List.take_append_drop]
    rfl

/-- The fields of a message that is written. -/
theorem Message.Valid.fields (h : m.Valid) : Stun.msgtype m.bytes = m.msgtype ∧
    msglen m.bytes = m.body.length ∧ msgid m.bytes = m.id ∧ m.bytes.drop sizeofHeader = m.body ∧
    m.bytes.length = sizeofHeader + m.body.length := by
  have hid : m.id.length = 16 := h.id
  have hhead : m.bytes = (m.msgtype / 256).toUInt8 :: m.msgtype.toUInt8 ::
      (m.body.length / 256).toUInt8 :: m.body.length.toUInt8 :: (m.id ++ m.body) := rfl
  refine ⟨ntohs_htons h.msgtype_lt, ntohs_htons h.body_lt, ?_, ?_, ?_⟩
  · show ((m.bytes).drop 4).take 16 = m.id
    rw [hhead]
    exact List.take_left' hid
  · show m.bytes.drop (4 + 16) = m.body
    rw [← List.drop_drop, hhead]
    exact List.drop_left' hid
  · simp only [hhead, List.length_cons, List.length_append, hid, sizeofHeader]
    omega

/-- Valid messages and the bytes that can be read correspond to each other. -/
theorem parse_eq_some_iff : parse data = some m ↔ m.Valid ∧ data = m.bytes := by
  unfold parse
  constructor
  · intro h
    split at h
    next hlen =>
      obtain ⟨attrs, hattrs, rfl⟩ := Option.map_eq_some_iff.mp h
      obtain ⟨hvalid, -, hbody⟩ := attributes_eq_some_bytes.mp hattrs
      have hlength : (attrs.flatMap StunAttr.bytes).length = msglen data := by
        rw [← hbody, List.length_drop, hlen.2]
      refine ⟨⟨ntohs_lt _ _, ?_, ?_, hvalid⟩, ?_⟩
      · show ((data.drop 4).take 16).length = 16
        rw [List.length_take, List.length_drop]
        have h20 : 20 ≤ data.length := hlen.1
        omega
      · show (attrs.flatMap StunAttr.bytes).length < 65536
        rw [hlength]
        exact ntohs_lt _ _
      · show data = htons _ ++ htons (attrs.flatMap StunAttr.bytes).length ++ _ ++ attrs.flatMap _
        rw [hlength, ← hbody]
        exact header_eq hlen.1
    next => cases h
  · rintro ⟨h, rfl⟩
    obtain ⟨htype, hlen, hid, hbody, hlength⟩ := h.fields
    have hattrs : attributes m.bytes.length m.body = some m.attrs := by
      apply attributes_eq_some_bytes.mpr
      refine ⟨h.attrs, ?_, rfl⟩
      rw [hlength]
      have hle := length_le_flatMap_bytes m.attrs
      exact Nat.le_trans hle (Nat.le_add_left _ _)
    rw [htype, hid, hbody, hattrs, if_pos]
    · rfl
    · rw [hlen, hlength]
      exact ⟨Nat.le_add_right _ _, by omega⟩

/-- The address that a binding response gives, read off the message. -/
theorem response_eq {id : List UInt8} (h : parse data = some m) :
    response id data = if m.msgtype = STUN_BINDRESP ∧ m.id = id then
      m.attrs.findSome? StunAttr.mapped else none := by
  have hvalid := (parse_eq_some_iff.mp h).1
  obtain ⟨htype, hlen, hid, hbody, hlength⟩ := hvalid.fields
  obtain rfl := (parse_eq_some_iff.mp h).2
  have hattrs : attributes m.bytes.length m.body = some m.attrs := by
    apply attributes_eq_some_bytes.mpr
    refine ⟨hvalid.attrs, ?_, rfl⟩
    rw [hlength]
    have hle := length_le_flatMap_bytes m.attrs
    exact Nat.le_trans hle (Nat.le_add_left _ _)
  rw [response, htype, hid, hlen, hbody, hattrs, hlength]
  have hsize : sizeofHeader ≤ sizeofHeader + m.body.length := Nat.le_add_right _ _
  have hsub : m.body.length = sizeofHeader + m.body.length - sizeofHeader := by omega
  by_cases hcond : m.msgtype = STUN_BINDRESP ∧ m.id = id
  · rw [if_pos hcond, if_pos ⟨hsize, hcond.1, hsub, hcond.2⟩]
  · rw [if_neg hcond, if_neg fun hall => hcond ⟨hall.2.1, hall.2.2.2⟩]

end Messages

/-! ## What is sent -/

/-- The attributes of a request: the user name, if there is room for it. -/
def requested (username : Option CString) : List StunAttr :=
  match username with
  | some username =>
    if 4 + username.length < 1024 - sizeofHeader then
      [⟨STUN_MSG_USERNAME, username.length, username⟩]
    else []
  | none => []

/-- A port has two bytes, and an address four. -/
structure SockaddrIn.Valid (sa : SockaddrIn) : Prop where
  sinPort : sa.sinPort.length = 2
  sinAddr : sa.sinAddr.length = 4

/-- The attribute for an address. -/
def SockaddrIn.attr (sa : SockaddrIn) : StunAttr :=
  ⟨STUN_MSG_MAPPED_ADDR, 8, [0, 1] ++ sa.sinPort ++ sa.sinAddr⟩

section Sent

variable {sa : SockaddrIn} {username : Option CString} {id data : List UInt8}

theorem SockaddrIn.Valid.attr_valid (h : sa.Valid) : sa.attr.Valid := by
  refine ⟨(by decide : STUN_MSG_MAPPED_ADDR < 65536), (by decide : 8 < 65536), ?_⟩
  rw [SockaddrIn.attr, List.length_append, List.length_append, h.sinPort, h.sinAddr]
  rfl

/-- The address is found in the attribute for it. -/
theorem SockaddrIn.Valid.mapped (h : sa.Valid) : sa.attr.mapped = some sa := by
  have hport : ((sa.attr.value).drop 2).take 2 = sa.sinPort := List.take_left' h.sinPort
  have haddr : ((sa.attr.value).drop 4).take 4 = sa.sinAddr := by
    have hdrop : sa.attr.value.drop 4 = sa.sinAddr := by
      show (sa.sinPort ++ sa.sinAddr).drop 2 = sa.sinAddr
      exact List.drop_left' h.sinPort
    rw [hdrop, ← h.sinAddr]
    exact List.take_length
  rw [StunAttr.mapped, if_pos ⟨rfl, rfl⟩, hport, haddr]

theorem requested_valid (username : Option CString) : ∀ a ∈ requested username, a.Valid := by
  cases username with
  | none => exact fun a ha => absurd ha List.not_mem_nil
  | some username =>
    intro a ha
    rw [requested] at ha
    split at ha
    next hfits =>
      obtain rfl := List.mem_singleton.mp ha
      have hlen : username.length < 65536 := by
        rw [sizeofHeader] at hfits
        omega
      exact ⟨(by decide : STUN_MSG_USERNAME < 65536), hlen, rfl⟩
    next => exact absurd ha List.not_mem_nil

/-- The request that is meant is the bytes of a message with these attributes. -/
theorem requestOf_eq (id : List UInt8) (username : Option CString) :
    requestOf id username = Message.bytes ⟨STUN_BINDREQ, id, requested username⟩ := by
  cases username with
  | none => rfl
  | some username =>
    unfold requestOf requested Message.bytes Message.body
    dsimp only
    split
    next =>
      rw [List.flatMap_cons, List.flatMap_nil, List.append_nil]
      rfl
    next => rfl

theorem request_valid (h : id.length = 16) (username : Option CString) :
    Message.Valid ⟨STUN_BINDREQ, id, requested username⟩ := by
  refine ⟨(by decide : STUN_BINDREQ < 65536), h, ?_, requested_valid username⟩
  cases username with
  | none => exact Nat.succ_pos _
  | some username =>
    show ((requested (some username)).flatMap StunAttr.bytes).length < 65536
    rw [requested]
    split
    next hfits =>
      rw [List.flatMap_cons, List.flatMap_nil, List.append_nil, length_bytes]
      rw [sizeofHeader] at hfits
      dsimp only
      omega
    next => exact Nat.succ_pos _

/-- The answer is the bytes of a message with the address as its only attribute. -/
theorem bindAnswer_eq (src : SockaddrIn) (data : List UInt8) :
    bindAnswer src data = Message.bytes ⟨STUN_BINDRESP, msgid data, [src.attr]⟩ := by
  have hbody : appendAttrAddress STUN_MSG_MAPPED_ADDR src (1024 - sizeofHeader) =
      src.attr.bytes := by
    rw [appendAttrAddress, if_pos (by decide), StunAttr.bytes, SockaddrIn.attr]
    simp only [List.append_assoc]
  have hflat : [src.attr].flatMap StunAttr.bytes = src.attr.bytes := by
    rw [List.flatMap_cons, List.flatMap_nil, List.append_nil]
  rw [bindAnswer, Message.bytes, Message.body, hbody, hflat]

/-- A request without attributes is answered. -/
theorem handle_empty (fuel : Nat) (src : SockaddrIn)
    (stunCb : StunAttr → SockaddrIn → Int32 × SockaddrIn) (arg : SockaddrIn)
    (hlen : sizeofHeader ≤ data.length) (hempty : msglen data = 0)
    (htype : msgtype data = STUN_BINDREQ) :
    spdStunResponseHandle (fuel + 1) src data stunCb arg =
      .ok ⟨SPD_STUN_ACCEPT, arg, some (bindAnswer src data)⟩ := by
  unfold spdStunResponseHandle
  rw [if_neg (Nat.not_lt.mpr hlen)]
  dsimp only
  rw [hempty, if_neg (Nat.not_lt_zero _), attrLoop, if_pos rfl, ok_bind, htype, if_pos ⟨rfl, rfl⟩]

end Sent

/-- The bytes of a message determine its type, its id and its attributes, and are determined by
    them; and a request is read as it was meant. One that has no user name, or one that is too long
    for it, is answered with the address that it came from; the handler faults on any other. -/
theorem binding_exchanged (fuel : Nat) (id : List UInt8) (username : Option CString)
    (src : SockaddrIn) (stunCb : StunAttr → SockaddrIn → Int32 × SockaddrIn) (arg : SockaddrIn)
    (hid : id.length = 16) (hname : ∀ name ∈ username, 4 + name.length < 2 ^ 31)
    (hsrc : src.Valid) :
    (∀ data m, parse data = some m ↔ m.Valid ∧ data = m.bytes) ∧
    ∃ req, bindRequest id username = .ok req ∧
      parse req = some ⟨STUN_BINDREQ, id, requested username⟩ ∧
      (requested username = [] → ∃ data, spdStunResponseHandle (fuel + 1) src req stunCb arg =
          .ok ⟨SPD_STUN_ACCEPT, arg, some data⟩ ∧
        parse data = some ⟨STUN_BINDRESP, id, [src.attr]⟩ ∧ response id data = some src) ∧
      (requested username ≠ [] →
        spdStunResponseHandle (fuel + 1) src req stunCb arg = .fault) := by
  have hvalid := request_valid hid username
  obtain ⟨htype, hlen, hmsgid, hbody, hlength⟩ := hvalid.fields
  have hsize : sizeofHeader ≤ (Message.bytes ⟨STUN_BINDREQ, id, requested username⟩).length := by
    rw [hlength]
    exact Nat.le_add_right _ _
  refine ⟨fun data m => parse_eq_some_iff, requestOf id username, ?_, ?_, ?_, ?_⟩
  · rw [bindRequest_eq, if_neg (not_overruns hname)]
  · exact parse_eq_some_iff.mpr ⟨hvalid, requestOf_eq id username⟩
  · intro hnone
    have hempty : msglen (requestOf id username) = 0 := by
      rw [requestOf_eq, hlen, Message.body, hnone]
      rfl
    have hsent : bindAnswer src (requestOf id username) =
        Message.bytes ⟨STUN_BINDRESP, id, [src.attr]⟩ := by
      rw [bindAnswer_eq, requestOf_eq, hmsgid]
    have hparse : parse (bindAnswer src (requestOf id username)) =
        some ⟨STUN_BINDRESP, id, [src.attr]⟩ := by
      refine parse_eq_some_iff.mpr ⟨⟨(by decide : STUN_BINDRESP < 65536), hid, ?_, ?_⟩, hsent⟩
      · show ([src.attr].flatMap StunAttr.bytes).length < 65536
        rw [List.flatMap_cons, List.flatMap_nil, List.append_nil, length_bytes,
          ← hsrc.attr_valid.len]
        exact (by decide : 4 + 8 < 65536)
      · intro a ha
        obtain rfl := List.mem_singleton.mp ha
        exact hsrc.attr_valid
    refine ⟨_, ?_, hparse, ?_⟩
    · exact handle_empty fuel src stunCb arg (requestOf_eq id username ▸ hsize) hempty
        (requestOf_eq id username ▸ htype)
    · rw [response_eq hparse, if_pos ⟨rfl, rfl⟩, List.findSome?_cons, hsrc.mapped]
  · intro hsome
    have hfour : 4 ≤ (Message.body ⟨STUN_BINDREQ, id, requested username⟩).length := by
      obtain ⟨a, rest, hcons⟩ := List.exists_cons_of_ne_nil hsome
      rw [Message.body, hcons, List.flatMap_cons, List.length_append, length_bytes]
      omega
    rw [requestOf_eq]
    refine spdStunResponseHandle_fault stunCb arg (Nat.not_lt.mpr hsize) ?_
    rw [hlen, hlength]
    omega

/-- A request without user name is answered, and one with a user name is not. -/
theorem binding_exchanged_both :
    let id := List.replicate 16 7
    let src : SockaddrIn := ⟨[13, 150], [127, 0, 0, 1]⟩
    (∃ req data, bindRequest id none = .ok req ∧
      spdStunResponseHandle 1 src req stunGetMapped .zero =
        .ok ⟨SPD_STUN_ACCEPT, .zero, some data⟩ ∧ response id data = some src) ∧
    ∃ req, bindRequest id (some (lit "alice")) = .ok req ∧
      parse req = some ⟨STUN_BINDREQ, id, [⟨STUN_MSG_USERNAME, 5, lit "alice"⟩]⟩ ∧
      spdStunResponseHandle 1 src req stunGetMapped .zero = .fault := by
  intro id src
  have hexchange := fun username hname => binding_exchanged 0 id username src stunGetMapped .zero
    List.length_replicate hname ⟨rfl, rfl⟩
  constructor
  · obtain ⟨-, req, hreq, -, hanswer, -⟩ := hexchange none (fun name h => by cases h)
    obtain ⟨data, hsent, -, hresponse⟩ := hanswer rfl
    exact ⟨req, data, hreq, hsent, hresponse⟩
  · obtain ⟨-, req, hreq, hparse, -, hfault⟩ := hexchange (some (lit "alice")) (fun name h => by
      obtain rfl := Option.some.inj h
      decide)
    exact ⟨req, hreq, hparse, hfault (by decide)⟩

end Spider.Stun
