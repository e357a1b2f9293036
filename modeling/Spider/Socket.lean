import Mathlib.Data.List.TakeDrop
import Spider.Lib.Compare
import Spider.Lib.CString
import Spider.Lib.Outcome

/-!
# Socket addresses

`struct spd_sockaddr` is the bytes of a `struct sockaddr_storage` with a length.
An address of family `AF_INET` has the length of a `struct sockaddr_in`, one of
family `AF_INET6` that of a `struct sockaddr_in6`; an IPv4-mapped one counts as
IPv4 where it meets an address of the other length. The family is a little-endian
16-bit number. `getnameinfo` and `getaddrinfo` are what the C library has.
-/

namespace Spider.Socket

open Lib Outcome CString Compare

/-- `struct spd_sockaddr`. -/
structure SpdSockaddr where
  ss : List UInt8
  len : Nat
  deriving DecidableEq, Repr

/-- `sizeof(struct sockaddr_in)`: family, port, address and eight bytes of `sin_zero`. -/
def sizeofSockaddrIn : Nat := 16

/-- `sizeof(struct sockaddr_in6)`: family, port, flow information, address and scope id. -/
def sizeofSockaddrIn6 : Nat := 28

/-- The bytes of an address family. -/
def AF_INET : List UInt8 := [2, 0]
@[inherit_doc AF_INET] def AF_INET6 : List UInt8 := [10, 0]

/-! ## The fields -/

def ssFamily (addr : SpdSockaddr) : List UInt8 := addr.ss.take 2
/-- `sin_port` and `sin6_port`. -/
def sinPort (addr : SpdSockaddr) : List UInt8 := (addr.ss.drop 2).take 2
def sinAddr (addr : SpdSockaddr) : List UInt8 := (addr.ss.drop 4).take 4
def sin6Addr (addr : SpdSockaddr) : List UInt8 := (addr.ss.drop 8).take 16

/-- `IN6_IS_ADDR_V4MAPPED`. -/
def in6IsAddrV4mapped (addr : List UInt8) : Bool :=
  addr.take 12 == List.replicate 10 0 ++ [0xff, 0xff]

/-- `IN6_IS_ADDR_LINKLOCAL`: the first ten bits are those of `fe80::`. -/
def in6IsAddrLinklocal (addr : List UInt8) : Bool :=
  addr.head? == some 0xfe && (addr[1]?).map (· &&& 0xc0) == some 0x80

/-! ## The functions -/

/-- `spd_sockaddr_isnull` (`socket.h:65-68`); null stands for a null pointer. -/
def spdSockaddrIsnull (ss : Option SpdSockaddr) : Bool :=
  match ss with
  | none => true
  | some ss => ss.len == 0

/-- `spd_sockaddr_setnull` (`socket.h:77-80`). -/
def spdSockaddrSetnull (ss : SpdSockaddr) : SpdSockaddr := { ss with len := 0 }

/-- `spd_sockaddr_copy` (`socket.h:89-93`). -/
def spdSockaddrCopy (dst src : SpdSockaddr) : SpdSockaddr :=
  ⟨src.ss.take src.len ++ dst.ss.drop src.len, src.len⟩

/-- `spd_sockaddr_is_ipv6` (`socket.c:143-146`). -/
def spdSockaddrIsIpv6 (addr : SpdSockaddr) : Bool :=
  ssFamily addr == AF_INET6 && addr.len == sizeofSockaddrIn6

/-- `spd_sockaddr_is_ipv4_mapped` (`socket.c:120-124`). -/
def spdSockaddrIsIpv4Mapped (addr : SpdSockaddr) : Bool :=
  addr.len != 0 && in6IsAddrV4mapped (sin6Addr addr)

/-- `spd_sockaddr_is_ipv6_link_local` (`socket.c:126-130`). -/
def spdSockaddrIsIpv6LinkLocal (addr : SpdSockaddr) : Bool :=
  addr.len != 0 && in6IsAddrLinklocal (sin6Addr addr)

/-- `spd_sockaddr_ipv4_mapped` (`socket.c:89-113`): `spd_mapped` where it is set. -/
def spdSockaddrIpv4Mapped (addr : SpdSockaddr) : Option SpdSockaddr :=
  if !spdSockaddrIsIpv6 addr then none
  else if !spdSockaddrIsIpv4Mapped addr then none
  else some ⟨AF_INET ++ sinPort addr ++ (sin6Addr addr).drop 12 ++ List.replicate 8 0,
    sizeofSockaddrIn⟩

/-- `spd_sockaddr_cmp` (`socket.c:204-227`). -/
def spdSockaddrCmp (a b : SpdSockaddr) : Int :=
  let (aTmp, bTmp) :=
    if a.len ≠ b.len then
      match spdSockaddrIpv4Mapped a with
      | some mapedAddr => (mapedAddr, b)
      | none =>
        match spdSockaddrIpv4Mapped b with
        | some mapedAddr => (a, mapedAddr)
        | none => (a, b)
    else (a, b)
  if aTmp.len < bTmp.len then -1
  else if aTmp.len > bTmp.len then 1
  else memcmp (aTmp.ss.take aTmp.len) (bTmp.ss.take aTmp.len)

/-! ## Addresses to text and back -/

/-- What `spd_sockaddr_tostring_fmt` prints. -/
def SPD_SOCKADDR_STR_ADDR : UInt32 := 1
@[inherit_doc SPD_SOCKADDR_STR_ADDR] def SPD_SOCKADDR_STR_PORT : UInt32 := 2
@[inherit_doc SPD_SOCKADDR_STR_ADDR] def SPD_SOCKADDR_STR_BRACKETS : UInt32 := 4
@[inherit_doc SPD_SOCKADDR_STR_ADDR] def SPD_SOCKADDR_STR_REMOTE : UInt32 := 8

/-- `PARSE_PORT_MASK`, and what is under it. -/
def PARSE_PORT_MASK : UInt32 := 0x0300
@[inherit_doc PARSE_PORT_MASK] def PARSE_PORT_IGNORE : UInt32 := 0x0100
@[inherit_doc PARSE_PORT_MASK] def PARSE_PORT_REQUIRE : UInt32 := 0x0200
@[inherit_doc PARSE_PORT_MASK] def PARSE_PORT_FORBID : UInt32 := 0x0300

/-- `getnameinfo` for numbers, of an address in some bytes of a given length, and `getaddrinfo` of
    numbers, with the addresses it gives. -/
structure Resolver where
  getnameinfo : List UInt8 → Nat → Option (CString × CString)
  getaddrinfo : CString → Option CString → Option (List (List UInt8))

/-- `spd_sockaddr_tostring_fmt` (`socket.c:23-87`). `buf` says whether there is a buffer for the
    string. -/
def spdSockaddrTostringFmt (r : Resolver) (buf : Bool) (addr : Option SpdSockaddr) (fmt : UInt32) :
    Outcome CString :=
  if !spdSockaddrIsnull addr then .ok []
  else if !buf then .ok []
  else match addr with
  | none => .fault
  | some addr =>
    let tmpSock := (spdSockaddrIpv4Mapped addr).getD addr
    match r.getnameinfo tmpSock.ss addr.len with
    | none => .ok []
    | some (host, port) =>
      let host :=
        if fmt &&& SPD_SOCKADDR_STR_REMOTE = SPD_SOCKADDR_STR_REMOTE ∧
          spdSockaddrIsIpv6LinkLocal addr then host.takeWhile (· ≠ ch '%') else host
      let brackets := ssFamily tmpSock == AF_INET6
      let format := fmt &&& (SPD_SOCKADDR_STR_ADDR ||| SPD_SOCKADDR_STR_PORT |||
        SPD_SOCKADDR_STR_BRACKETS)
      if format = SPD_SOCKADDR_STR_ADDR ||| SPD_SOCKADDR_STR_PORT then
        .ok (if brackets then lit "[" ++ host ++ lit "]:" ++ port else host ++ lit ":" ++ port)
      else if format = SPD_SOCKADDR_STR_ADDR then .ok host
      else if format = SPD_SOCKADDR_STR_ADDR ||| SPD_SOCKADDR_STR_BRACKETS then
        .ok (if brackets then lit "[" ++ host ++ lit "]" else host)
      else if format = SPD_SOCKADDR_STR_PORT then .ok port
      else .ok []

/-- `spd_sockaddr_tostring_default` (`socket.h:156-159`). -/
def spdSockaddrTostringDefault (r : Resolver) (buf : Bool) (ss : Option SpdSockaddr) :
    Outcome CString :=
  spdSockaddrTostringFmt r buf ss (SPD_SOCKADDR_STR_ADDR ||| SPD_SOCKADDR_STR_PORT)

/-- The scan for colons (`socket.c:289-298`): the host up to the first one and the port behind it,
    if there is just one. -/
def splitColon (s : CString) : CString × Option CString :=
  match s.span (· ≠ ch ':') with
  | (_, []) => (s, none)
  | (host, _ :: port) => if ch ':' ∈ port then (s, none) else (host, some port)

/-- `spd_sockaddr_stringto_hostport` (`socket.c:262-325`): the host and the port, where it
    succeeds. -/
def spdSockaddrStringtoHostport (str : CString) (flags : UInt32) :
    Option (CString × Option CString) :=
  let (host, port) :=
    if str.head? = some (ch '[') then
      match str.tail.span (· ≠ ch ']') with
      | (host, []) => (host, none)
      | (host, _ :: s) => (host, if s.head? = some (ch ':') then some s.tail else none)
    else splitColon str
  if flags &&& PARSE_PORT_MASK = PARSE_PORT_IGNORE then some (host, none)
  else if flags &&& PARSE_PORT_MASK = PARSE_PORT_REQUIRE ∧ port = none then none
  else if flags &&& PARSE_PORT_MASK = PARSE_PORT_FORBID ∧ port ≠ none then none
  else some (host, port)

/-- `spd_strdupa` (`strings.h:84-92`). It does not copy its argument, but what a variable `s` of
    the caller points to; null stands for a variable that has no value yet. -/
def spdStrdupa (s : Option CString) (_str : CString) : Outcome CString :=
  match s with
  | none => .fault
  | some s => .ok s

/-- `spd_sockaddr_parse` (`socket.c:327-373`). -/
def spdSockaddrParse (r : Resolver) (addr : SpdSockaddr) (str : CString) (flags : UInt32) :
    Outcome (Option SpdSockaddr) := do
  -- the variable `s` is only declared
  let s ← spdStrdupa none str
  match spdSockaddrStringtoHostport s flags with
  | none => .ok none
  | some (host, port) =>
    match r.getaddrinfo host port with
    | none => .ok none
    | some [] => .fault
    | some (res :: _) => .ok (some ⟨res ++ addr.ss.drop res.length, res.length⟩)

/-! ## The order of addresses -/

/-- An IPv4 address. -/
structure IsIpv4 (a : SpdSockaddr) : Prop where
  family : ssFamily a = AF_INET
  len : a.len = sizeofSockaddrIn
  size : sizeofSockaddrIn ≤ a.ss.length

/-- An IPv6 address, IPv4-mapped or not. -/
structure IsIpv6 (a : SpdSockaddr) : Prop where
  family : ssFamily a = AF_INET6
  len : a.len = sizeofSockaddrIn6
  size : sizeofSockaddrIn6 ≤ a.ss.length

def IsAddress (a : SpdSockaddr) : Prop := IsIpv4 a ∨ IsIpv6 a

def Mapped (a : SpdSockaddr) : Prop := in6IsAddrV4mapped (sin6Addr a) = true

/-- The bytes of an address. -/
def bytes (a : SpdSockaddr) : List UInt8 := a.ss.take a.len

/-- The bytes of the IPv4 address that is mapped. -/
def ipv4Bytes (a : SpdSockaddr) : List UInt8 :=
  AF_INET ++ sinPort a ++ (sin6Addr a).drop 12 ++ List.replicate 8 0

/-- An IPv4 address `a`, an IPv4-mapped `m` and another IPv6 address `x` that cannot be ordered: `x`
    comes before `m` although `m` does not come behind `a`, or, with `x` mapped too, `a` is between
    them the wrong way round. -/
structure Misplaced (a m x : SpdSockaddr) : Prop where
  ipv4 : IsIpv4 a
  ipv6 : IsIpv6 m
  mapped : Mapped m
  other : IsIpv6 x
  order : (¬ Mapped x ∧ memcmp (bytes x) (bytes m) < 0 ∧ memcmp (ipv4Bytes m) (bytes a) ≤ 0) ∨
    (Mapped x ∧ memcmp (bytes m) (bytes x) ≤ 0 ∧ memcmp (ipv4Bytes x) (bytes a) ≤ 0 ∧
      memcmp (bytes a) (ipv4Bytes m) ≤ 0 ∧ (memcmp (bytes m) (bytes x) < 0 ∨
        memcmp (ipv4Bytes x) (bytes a) < 0 ∨ memcmp (bytes a) (ipv4Bytes m) < 0))

section

variable {a b c m x : SpdSockaddr}

theorem IsIpv4.length (h : IsIpv4 a) : (bytes a).length = 16 := by
  rw [bytes, List.length_take, h.len]
  exact Nat.min_eq_left h.size

theorem IsIpv6.length (h : IsIpv6 a) : (bytes a).length = 28 := by
  rw [bytes, List.length_take, h.len]
  exact Nat.min_eq_left h.size

theorem IsIpv6.length_ipv4 (h : IsIpv6 a) : (ipv4Bytes a).length = 16 := by
  have hsize := h.size
  have hlen : sizeofSockaddrIn6 = 28 := rfl
  simp [ipv4Bytes, AF_INET, sinPort, sin6Addr]
  omega

theorem IsIpv6.sin6Addr_eq (h : IsIpv6 a) : sin6Addr a = ((bytes a).drop 8).take 16 := by
  rw [sin6Addr, bytes, h.len, List.drop_take, List.take_take]
  rfl

theorem IsIpv4.len_ne (h : IsIpv4 a) (h' : IsIpv6 b) : a.len ≠ b.len := by
  rw [h.len, h'.len]
  decide

theorem IsIpv4.mapped (h : IsIpv4 a) : spdSockaddrIpv4Mapped a = none := by
  rw [spdSockaddrIpv4Mapped, spdSockaddrIsIpv6, h.family]
  rfl

theorem IsIpv6.mapped (h : IsIpv6 m) (hm : Mapped m) :
    spdSockaddrIpv4Mapped m = some ⟨ipv4Bytes m, sizeofSockaddrIn⟩ := by
  have hsix : spdSockaddrIsIpv6 m = true := by
    rw [spdSockaddrIsIpv6, h.family, h.len]
    rfl
  have hmapped : spdSockaddrIsIpv4Mapped m = true := by
    rw [spdSockaddrIsIpv4Mapped, hm, h.len]
    rfl
  rw [spdSockaddrIpv4Mapped, hsix, hmapped]
  rfl

theorem IsIpv6.not_mapped (h : ¬ Mapped x) : spdSockaddrIpv4Mapped x = none := by
  have hmapped : spdSockaddrIsIpv4Mapped x = false := by
    rw [spdSockaddrIsIpv4Mapped, Bool.eq_false_iff.mpr h, Bool.and_false]
  rw [spdSockaddrIpv4Mapped, hmapped]
  cases spdSockaddrIsIpv6 x <;> rfl

/-- Addresses of one length are compared byte for byte. -/
theorem cmp_same (h : a.len = b.len) : spdSockaddrCmp a b = memcmp (bytes a) (bytes b) := by
  simp [spdSockaddrCmp, h, bytes]

theorem cmp_ipv4_mapped (ha : IsIpv4 a) (hm : IsIpv6 m) (h : Mapped m) :
    spdSockaddrCmp a m = memcmp (bytes a) (ipv4Bytes m) := by
  have htake : (ipv4Bytes m).take sizeofSockaddrIn = ipv4Bytes m :=
    List.take_of_length_le (Nat.le_of_eq hm.length_ipv4)
  rw [spdSockaddrCmp, if_pos (ha.len_ne hm), ha.mapped, hm.mapped h]
  simp [ha.len, bytes, htake]

theorem cmp_mapped_ipv4 (ha : IsIpv4 a) (hm : IsIpv6 m) (h : Mapped m) :
    spdSockaddrCmp m a = memcmp (ipv4Bytes m) (bytes a) := by
  have htake : (ipv4Bytes m).take sizeofSockaddrIn = ipv4Bytes m :=
    List.take_of_length_le (Nat.le_of_eq hm.length_ipv4)
  rw [spdSockaddrCmp, if_pos (ha.len_ne hm).symm, hm.mapped h]
  simp [ha.len, bytes, htake]

theorem cmp_ipv4_plain (ha : IsIpv4 a) (hx : IsIpv6 x) (h : ¬ Mapped x) :
    spdSockaddrCmp a x = -1 := by
  simp [spdSockaddrCmp, ha.mapped, IsIpv6.not_mapped h, ha.len, hx.len, sizeofSockaddrIn,
    sizeofSockaddrIn6]

theorem cmp_plain_ipv4 (ha : IsIpv4 a) (hx : IsIpv6 x) (h : ¬ Mapped x) :
    spdSockaddrCmp x a = 1 := by
  simp [spdSockaddrCmp, ha.mapped, IsIpv6.not_mapped h, ha.len, hx.len, sizeofSockaddrIn,
    sizeofSockaddrIn6]

/-- The comparison the other way round has the other sign. -/
theorem cmp_swap (ha : IsAddress a) (hb : IsAddress b) :
    spdSockaddrCmp a b = -spdSockaddrCmp b a := by
  rcases ha with ha | ha <;> rcases hb with hb | hb
  · have hlen := ha.len.trans hb.len.symm
    rw [cmp_same hlen, cmp_same hlen.symm]
    exact memcmp_swap _ _
  · by_cases hm : Mapped b
    · rw [cmp_ipv4_mapped ha hb hm, cmp_mapped_ipv4 ha hb hm]
      exact memcmp_swap _ _
    · rw [cmp_ipv4_plain ha hb hm, cmp_plain_ipv4 ha hb hm]
  · by_cases hm : Mapped a
    · rw [cmp_ipv4_mapped hb ha hm, cmp_mapped_ipv4 hb ha hm]
      exact memcmp_swap _ _
    · rw [cmp_ipv4_plain hb ha hm, cmp_plain_ipv4 hb ha hm]
      rfl
  · have hlen := ha.len.trans hb.len.symm
    rw [cmp_same hlen, cmp_same hlen.symm]
    exact memcmp_swap _ _

/-- The three addresses of a misplaced triple are in a circle. -/
theorem Misplaced.circle (h : Misplaced a m x) : Circle spdSockaddrCmp a m x ∨
    Circle spdSockaddrCmp a x m := by
  have hlen := h.ipv6.len.trans h.other.len.symm
  rcases h.order with ⟨hx, hfirst, hsecond⟩ | ⟨hx, hfirst, hsecond, hthird, hstrict⟩
  · right
    constructor
    · rw [cmp_ipv4_plain h.ipv4 h.other hx]
      decide
    · rw [cmp_same hlen.symm]
      exact Int.le_of_lt hfirst
    · rw [cmp_mapped_ipv4 h.ipv4 h.ipv6 h.mapped]
      exact hsecond
    · left
      rw [cmp_ipv4_plain h.ipv4 h.other hx]
      decide
  · left
    constructor
    · rw [cmp_ipv4_mapped h.ipv4 h.ipv6 h.mapped]
      exact hthird
    · rw [cmp_same hlen]
      exact hfirst
    · rw [cmp_mapped_ipv4 h.ipv4 h.other hx]
      exact hsecond
    · rw [cmp_ipv4_mapped h.ipv4 h.ipv6 h.mapped, cmp_same hlen,
        cmp_mapped_ipv4 h.ipv4 h.other hx]
      rcases hstrict with hlt | hlt | hlt
      · exact Or.inr (Or.inl hlt)
      · exact Or.inr (Or.inr hlt)
      · exact Or.inl hlt

/-- Two IPv4 addresses are in no circle with a third address. -/
theorem no_circle_two (ha : IsIpv4 a) (hb : IsIpv4 b) (hc : IsAddress c) :
    ¬ Circle spdSockaddrCmp a b c := by
  rintro ⟨h1, h2, h3, h4⟩
  rw [cmp_same (ha.len.trans hb.len.symm)] at h1 h4
  have hab : (bytes a).length = (bytes b).length := ha.length.trans hb.length.symm
  rcases hc with hc | hc
  · rw [cmp_same (hb.len.trans hc.len.symm)] at h2 h4
    rw [cmp_same (hc.len.trans ha.len.symm)] at h3 h4
    exact memcmp_no_circle hab (hb.length.trans hc.length.symm) ⟨h1, h2, h3, h4⟩
  · by_cases hm : Mapped c
    · rw [cmp_ipv4_mapped hb hc hm] at h2 h4
      rw [cmp_mapped_ipv4 ha hc hm] at h3 h4
      exact memcmp_no_circle hab (hb.length.trans hc.length_ipv4.symm) ⟨h1, h2, h3, h4⟩
    · rw [cmp_plain_ipv4 ha hc hm] at h3
      exact absurd h3 (by decide)

/-- A circle of an IPv4 address and two IPv6 addresses is a misplaced triple. -/
theorem Misplaced.of_circle (ha : IsIpv4 a) (hb : IsIpv6 b) (hc : IsIpv6 c)
    (h : Circle spdSockaddrCmp a b c) : Misplaced a b c ∨ Misplaced a c b := by
  rcases h with ⟨h1, h2, h3, h4⟩
  have hbc := hb.len.trans hc.len.symm
  rw [cmp_same hbc] at h2 h4
  by_cases hmc : Mapped c
  · rw [cmp_mapped_ipv4 ha hc hmc] at h3 h4
    by_cases hmb : Mapped b
    · rw [cmp_ipv4_mapped ha hb hmb] at h1 h4
      refine Or.inl ⟨ha, hb, hmb, hc, Or.inr ⟨hmc, h2, h3, h1, ?_⟩⟩
      rcases h4 with h4 | h4 | h4
      · exact Or.inr (Or.inr h4)
      · exact Or.inl h4
      · exact Or.inr (Or.inl h4)
    · refine Or.inr ⟨ha, hc, hmc, hb, Or.inl ⟨hmb, ?_, h3⟩⟩
      have hne : bytes b ≠ bytes c := by
        intro heq
        rw [Mapped, hb.sin6Addr_eq, heq, ← hc.sin6Addr_eq] at hmb
        exact hmb hmc
      have hzero := (memcmp_eq_zero (hb.length.trans hc.length.symm)).not.mpr hne
      omega
  · rw [cmp_plain_ipv4 ha hc hmc] at h3
    exact absurd h3 (by decide)

/-- Without misplaced addresses there is no circle. -/
theorem no_circle_of (ha : IsAddress a) (hb : IsAddress b) (hc : IsAddress c)
    (habc : ¬ Misplaced a b c) (hacb : ¬ Misplaced a c b) (hbca : ¬ Misplaced b c a)
    (hbac : ¬ Misplaced b a c) (hcab : ¬ Misplaced c a b) (hcba : ¬ Misplaced c b a) :
    ¬ Circle spdSockaddrCmp a b c := by
  intro h
  rcases ha with ha | ha <;> rcases hb with hb | hb <;> rcases hc with hc | hc
  · exact no_circle_two ha hb (Or.inl hc) h
  · exact no_circle_two ha hb (Or.inr hc) h
  · exact no_circle_two hc ha (Or.inr hb) h.rotate.rotate
  · exact (Misplaced.of_circle ha hb hc h).elim habc hacb
  · exact no_circle_two hb hc (Or.inr ha) h.rotate
  · exact (Misplaced.of_circle hb hc ha h.rotate).elim hbca hbac
  · exact (Misplaced.of_circle hc ha hb h.rotate.rotate).elim hcab hcba
  · have hab := ha.len.trans hb.len.symm
    have hbc := hb.len.trans hc.len.symm
    rcases h with ⟨h1, h2, h3, h4⟩
    rw [cmp_same hab] at h1 h4
    rw [cmp_same hbc] at h2 h4
    rw [cmp_same (hab.trans hbc).symm] at h3 h4
    exact memcmp_no_circle (ha.length.trans hb.length.symm) (hb.length.trans hc.length.symm)
      ⟨h1, h2, h3, h4⟩

/-- `spd_sockaddr_cmp` orders three addresses consistently exactly when no IPv4-mapped address is
    misplaced among them. -/
theorem spdSockaddrCmp_consistent_iff (ha : IsAddress a) (hb : IsAddress b) (hc : IsAddress c) :
    (∀ x y z, x ∈ [a, b, c] → y ∈ [a, b, c] → z ∈ [a, b, c] →
      Consistent spdSockaddrCmp x y z) ↔
    ∀ x y z, x ∈ [a, b, c] → y ∈ [a, b, c] → z ∈ [a, b, c] → ¬ Misplaced x y z := by
  have hall : ∀ x, x ∈ [a, b, c] → IsAddress x := by
    intro x hx
    rcases List.mem_cons.mp hx with rfl | hx
    · exact ha
    rcases List.mem_cons.mp hx with rfl | hx
    · exact hb
    · rw [List.mem_singleton.mp hx]
      exact hc
  have hswap : ∀ x y, x ∈ [a, b, c] → y ∈ [a, b, c] →
      (spdSockaddrCmp x y).sign = -(spdSockaddrCmp y x).sign := by
    intro x y hx hy
    rw [cmp_swap (hall x hx) (hall y hy), Int.sign_neg]
  rw [consistent_iff (· ∈ [a, b, c]) hswap]
  constructor
  · intro h x y z hx hy hz hmisplaced
    rcases hmisplaced.circle with hcircle | hcircle
    · exact h x y z hx hy hz hcircle
    · exact h x z y hx hz hy hcircle
  · intro h x y z hx hy hz hcircle
    exact no_circle_of (hall x hx) (hall y hy) (hall z hz) (h x y z hx hy hz) (h x z y hx hz hy)
      (h y z x hy hz hx) (h y x z hy hx hz) (h z x y hz hx hy) (h z y x hz hy hx) hcircle

/-- The IPv4 address `127.0.0.1` with port 80, the same one mapped to IPv6, `::1` with port 79,
    and `fe80::1` with port 80. -/
def loopback : SpdSockaddr := ⟨AF_INET ++ [0, 80, 127, 0, 0, 1] ++ List.replicate 8 0, 16⟩
@[inherit_doc loopback] def loopbackMapped : SpdSockaddr :=
  ⟨AF_INET6 ++ [0, 80] ++ List.replicate 14 0 ++ [0xff, 0xff, 127, 0, 0, 1, 0, 0, 0, 0], 28⟩
@[inherit_doc loopback] def loopback6 : SpdSockaddr :=
  ⟨AF_INET6 ++ [0, 79] ++ List.replicate 19 0 ++ [1, 0, 0, 0, 0], 28⟩

@[inherit_doc loopback] def linkLocal : SpdSockaddr :=
  ⟨AF_INET6 ++ [0, 80, 0, 0, 0, 0, 0xfe, 0x80] ++ List.replicate 13 0 ++ [1, 0, 0, 0, 0], 28⟩

theorem isIpv4_loopback : IsIpv4 loopback := ⟨by decide, rfl, by decide⟩

theorem isIpv6_loopbackMapped : IsIpv6 loopbackMapped := ⟨by decide, rfl, by decide⟩

theorem isIpv6_loopback6 : IsIpv6 loopback6 := ⟨by decide, rfl, by decide⟩

/-- The IPv4 address and the one mapped from it are ordered alike with `fe80::1`, which comes behind
    the mapped one as it is. -/
theorem spdSockaddrCmp_consistent_linkLocal :
    Consistent spdSockaddrCmp loopback loopbackMapped linkLocal ∧
      spdSockaddrCmp loopback loopbackMapped = 0 ∧ spdSockaddrCmp loopbackMapped linkLocal < 0 ∧
      spdSockaddrCmp loopback linkLocal < 0 := by
  have ha : IsAddress loopback := Or.inl isIpv4_loopback
  have hm : IsAddress loopbackMapped := Or.inr isIpv6_loopbackMapped
  have hx : IsAddress linkLocal := Or.inr ⟨by decide, rfl, by decide⟩
  refine ⟨(spdSockaddrCmp_consistent_iff ha hm hx).mpr ?_ _ _ _ List.mem_cons_self
    (List.mem_cons_of_mem _ List.mem_cons_self)
    (List.mem_cons_of_mem _ (List.mem_cons_of_mem _ List.mem_cons_self)), by decide, by decide,
    by decide⟩
  intro x y z hx hy hz h
  have hipv4 : ∀ x ∈ [loopback, loopbackMapped, linkLocal], ssFamily x = AF_INET → x = loopback := by
    decide
  have hmapped : ∀ y ∈ [loopback, loopbackMapped, linkLocal],
      in6IsAddrV4mapped (sin6Addr y) = true → y = loopbackMapped := by decide
  have hipv6 : ∀ z ∈ [loopback, loopbackMapped, linkLocal],
      ssFamily z = AF_INET6 → z = loopbackMapped ∨ z = linkLocal := by decide
  obtain rfl := hipv4 x hx h.ipv4.family
  obtain rfl := hmapped y hy h.mapped
  rcases hipv6 z hz h.other.family with rfl | rfl
  · rcases h.order with ⟨hnot, -⟩ | ⟨-, -, -, -, hlt⟩
    · exact hnot h.mapped
    · exact absurd hlt (by decide)
  · rcases h.order with ⟨-, hlt, -⟩ | ⟨hmapped, -⟩
    · exact absurd hlt (by decide)
    · exact absurd hmapped (by unfold Mapped; decide)

/-- The mapped address compares equal to the IPv4 one, but not alike with the IPv6 one. -/
theorem spdSockaddrCmp_inconsistent : spdSockaddrCmp loopbackMapped loopback = 0 ∧
    spdSockaddrCmp loopback6 loopbackMapped = -1 ∧ spdSockaddrCmp loopback6 loopback = 1 ∧
    ¬ ∀ a b c, IsAddress a → IsAddress b → IsAddress c → Consistent spdSockaddrCmp a b c := by
  refine ⟨by decide, by decide, by decide, ?_⟩
  intro h
  have htrans := (h loopback6 loopbackMapped loopback (Or.inr isIpv6_loopback6)
    (Or.inr isIpv6_loopbackMapped) (Or.inl isIpv4_loopback)).trans (by decide) (by decide)
  exact absurd htrans (by decide)

end

/-! ## Printing and parsing -/

section

variable {r : Resolver} {a : SpdSockaddr}

/-- `getnameinfo` and `getaddrinfo` are inverse on the address. -/
def Numeric (r : Resolver) (a : SpdSockaddr) : Prop :=
  ∃ host port, r.getnameinfo a.ss a.len = some (host, port) ∧
    r.getaddrinfo host (some port) = some [bytes a]

/-- Parsing the text of the address gives an address that compares equal. -/
def RoundTrip (r : Resolver) (a : SpdSockaddr) : Prop :=
  ∃ str b, spdSockaddrTostringDefault r true (some a) = .ok str ∧
    spdSockaddrParse r ⟨[], 0⟩ str 0 = .ok (some b) ∧ spdSockaddrCmp a b = 0

/-- The formatter turns an address away because it is not null. -/
theorem spdSockaddrTostringFmt_nonnull (buf : Bool) (fmt : UInt32) (h : a.len ≠ 0) :
    spdSockaddrTostringFmt r buf (some a) fmt = .ok [] := by
  simp [spdSockaddrTostringFmt, spdSockaddrIsnull, h]

/-- The parser reads a variable that has no value. -/
theorem spdSockaddrParse_fault (addr : SpdSockaddr) (str : CString) (flags : UInt32) :
    spdSockaddrParse r addr str flags = .fault := rfl

/-- No address is printed and parsed back: the formatter prints none that is not null, and the
    parser looks at no text. -/
theorem roundTrip_never (r : Resolver) (a : SpdSockaddr) :
    (spdSockaddrIsnull (some a) = false →
      spdSockaddrTostringDefault r true (some a) = .ok []) ∧
    (∀ addr str flags, spdSockaddrParse r addr str flags = .fault) ∧ ¬ RoundTrip r a := by
  refine ⟨?_, spdSockaddrParse_fault, ?_⟩
  · intro hnull
    apply spdSockaddrTostringFmt_nonnull
    simpa [spdSockaddrIsnull] using hnull
  · rintro ⟨str, b, -, hparse, -⟩
    rw [spdSockaddrParse_fault] at hparse
    cases hparse

/-- A resolver for `127.0.0.1:80`. -/
def loopbackResolver : Resolver where
  getnameinfo ss len := if ss.take len = bytes loopback then some (lit "127.0.0.1", lit "80") else none
  getaddrinfo host port :=
    if host = lit "127.0.0.1" ∧ port = some (lit "80") then some [bytes loopback] else none

theorem roundTrip_loopback : IsIpv4 loopback ∧ Numeric loopbackResolver loopback ∧
    ¬ RoundTrip loopbackResolver loopback := by
  have hnumeric : Numeric loopbackResolver loopback :=
    ⟨lit "127.0.0.1", lit "80", by decide +kernel, by decide +kernel⟩
  refine ⟨isIpv4_loopback, hnumeric, ?_⟩
  rintro ⟨str, b, -, hparse, -⟩
  rw [spdSockaddrParse_fault] at hparse
  cases hparse

end

end Spider.Socket
