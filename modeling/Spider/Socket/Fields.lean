import Spider.Socket

/-!
# The families and the port of an address

Both ports are at the same place in the two structures; the address of a
`struct sockaddr_in` is at the place of the flow information of a
`struct sockaddr_in6`.
-/

namespace Spider.Socket

open Lib CString

/-- `sizeof(struct sockaddr_storage)`. -/
def sizeofSockaddrStorage : Nat := 128

/-- `ntohs` on the bytes in memory. -/
def ntohs (bytes : List UInt8) : UInt16 :=
  UInt16.ofNat ((bytes.getD 0 0).toNat * 256 + (bytes.getD 1 0).toNat)

/-- `htons`. -/
def htons (n : UInt16) : List UInt8 := [UInt8.ofNat (n.toNat / 256), UInt8.ofNat n.toNat]

/-- The assignment to `sin_port` or `sin6_port`. -/
def SpdSockaddr.setSinPort (addr : SpdSockaddr) (port : List UInt8) : SpdSockaddr :=
  { addr with ss := addr.ss.take 2 ++ port ++ addr.ss.drop 4 }

/-! ## The functions -/

/-- `spd_sockaddr_is_ipv4` (`socket.c:115-118`). It has the family and the size of the other
    test. -/
def spdSockaddrIsIpv4 (addr : SpdSockaddr) : Bool :=
  ssFamily addr == AF_INET6 && addr.len == sizeofSockaddrIn6

/-- `spd_sockaddr_is_any` (`socket.c:148-160`). -/
def spdSockaddrIsAny (addr : SpdSockaddr) : Bool :=
  (spdSockaddrIsIpv4 addr && sinAddr addr == List.replicate 4 0) ||
    (spdSockaddrIsIpv6 addr && sin6Addr addr == List.replicate 16 0)

/-- `_spd_sockaddr_get_port` (`socket.c:422-435`). It returns an `unsigned char`. -/
def spdSockaddrGetPort (addr : SpdSockaddr) : UInt8 :=
  if ssFamily addr == AF_INET && addr.len == sizeofSockaddrIn then (ntohs (sinPort addr)).toUInt8
  else if ssFamily addr == AF_INET6 && addr.len == sizeofSockaddrIn6 then
    (ntohs (sinPort addr)).toUInt8
  else 0

/-- `_spd_sockaddr_set_port` (`socket.c:437-446`). -/
def spdSockaddrSetPort (addr : SpdSockaddr) (port : UInt16) : SpdSockaddr :=
  if ssFamily addr == AF_INET && addr.len == sizeofSockaddrIn then addr.setSinPort (htons port)
  else if ssFamily addr == AF_INET6 && addr.len == sizeofSockaddrIn6 then
    addr.setSinPort (htons port)
  else addr

/-! ## The any-address -/

/-- `0.0.0.0` or `::`. -/
def Unspecified (a : SpdSockaddr) : Prop :=
  IsIpv4 a ∧ sinAddr a = List.replicate 4 0 ∨ IsIpv6 a ∧ sin6Addr a = List.replicate 16 0

/-- The test for the any-address is exact, and the address is of one family. -/
structure AnyExact (a : SpdSockaddr) : Prop where
  any : spdSockaddrIsAny a = true ↔ Unspecified a
  family : spdSockaddrIsIpv4 a = !spdSockaddrIsIpv6 a

/-- The test for the any-address alone is right: an IPv4 address is not `0.0.0.0`, an IPv6 one has
    flow information or is `::`. -/
def AnyRight (a : SpdSockaddr) : Prop :=
  IsIpv4 a ∧ sinAddr a ≠ List.replicate 4 0 ∨
    IsIpv6 a ∧ (sinAddr a = List.replicate 4 0 → sin6Addr a = List.replicate 16 0)

section Any

variable {a : SpdSockaddr}

theorem IsIpv4.ne_ipv6 (h : IsIpv4 a) : ¬ IsIpv6 a := by
  intro h6
  exact h.len_ne h6 rfl

theorem IsIpv4.isIpv6_false (h : IsIpv4 a) : spdSockaddrIsIpv6 a = false := by
  rw [spdSockaddrIsIpv6, h.family, h.len]
  decide

theorem IsIpv6.isIpv6_true (h : IsIpv6 a) : spdSockaddrIsIpv6 a = true := by
  rw [spdSockaddrIsIpv6, h.family, h.len]
  decide

/-- The two tests are the same. -/
theorem spdSockaddrIsIpv4_eq (a : SpdSockaddr) : spdSockaddrIsIpv4 a = spdSockaddrIsIpv6 a := rfl

theorem IsIpv4.any_false (h : IsIpv4 a) : spdSockaddrIsAny a = false := by
  rw [spdSockaddrIsAny, spdSockaddrIsIpv4_eq, h.isIpv6_false]
  rfl

theorem IsIpv6.any_iff (h : IsIpv6 a) : spdSockaddrIsAny a = true ↔
    sinAddr a = List.replicate 4 0 ∨ sin6Addr a = List.replicate 16 0 := by
  rw [spdSockaddrIsAny, spdSockaddrIsIpv4_eq, h.isIpv6_true, Bool.true_and, Bool.true_and,
    Bool.or_eq_true, beq_iff_eq, beq_iff_eq]

theorem spdSockaddrIsAny_iff (h : IsAddress a) :
    (spdSockaddrIsAny a = true ↔ Unspecified a) ↔ AnyRight a := by
  rcases h with h | h
  · have hnot := h.ne_ipv6
    simp [h.any_false, Unspecified, AnyRight, h, hnot]
  · have hnot : ¬ IsIpv4 a := fun h4 => h4.ne_ipv6 h
    simp only [h.any_iff, Unspecified, AnyRight, h, hnot, false_and, true_and, false_or]
    tauto

end Any

/-- No address is of exactly one family; the test for the any-address is right about what
    `AnyRight` says. -/
theorem spdSockaddrIsAny_exact_never (a : SpdSockaddr) (h : IsAddress a) :
    ¬ AnyExact a ∧ ((spdSockaddrIsAny a = true ↔ Unspecified a) ↔ AnyRight a) := by
  refine ⟨fun hexact => ?_, spdSockaddrIsAny_iff h⟩
  have hfamily := hexact.family
  rw [spdSockaddrIsIpv4_eq] at hfamily
  exact (Bool.not_eq_self _).mp hfamily.symm

theorem spdSockaddrIsAny_loopback : ¬ AnyExact loopback :=
  (spdSockaddrIsAny_exact_never loopback (Or.inl isIpv4_loopback)).1

/-- `::1` without flow information is taken for the any-address. -/
theorem spdSockaddrIsAny_inexact :
    ¬ ∀ a, IsAddress a → AnyExact a := by
  intro hall
  have hany := (hall loopback6 (Or.inr isIpv6_loopback6)).any.mp (by decide)
  rcases hany with ⟨h, -⟩ | ⟨-, h⟩
  · exact h.ne_ipv6 isIpv6_loopback6
  · exact absurd h (by decide)

/-! ## The port -/

/-- A port that has been set is read back, and nothing else changes; an address that is neither
    IPv4 nor IPv6 stays as it is. -/
structure PortKept (a : SpdSockaddr) (port : UInt16) : Prop where
  read : IsAddress a → (spdSockaddrGetPort (spdSockaddrSetPort a port)).toNat = port.toNat
  length : (spdSockaddrSetPort a port).ss.length = a.ss.length
  len : (spdSockaddrSetPort a port).len = a.len
  others : ∀ i, i ≠ 2 → i ≠ 3 → (spdSockaddrSetPort a port).ss[i]? = a.ss[i]?
  neither : ¬ IsAddress a → spdSockaddrSetPort a port = a ∧ spdSockaddrGetPort a = 0

section Port

variable {a : SpdSockaddr} {port : UInt16}

theorem isIpv4_iff (hsize : a.ss.length = sizeofSockaddrStorage) :
    IsIpv4 a ↔ (ssFamily a == AF_INET && a.len == sizeofSockaddrIn) = true := by
  rw [Bool.and_eq_true, beq_iff_eq, beq_iff_eq]
  exact ⟨fun h => ⟨h.family, h.len⟩, fun h => ⟨h.1, h.2, by rw [hsize]; decide⟩⟩

theorem isIpv6_iff (hsize : a.ss.length = sizeofSockaddrStorage) :
    IsIpv6 a ↔ (ssFamily a == AF_INET6 && a.len == sizeofSockaddrIn6) = true := by
  rw [Bool.and_eq_true, beq_iff_eq, beq_iff_eq]
  exact ⟨fun h => ⟨h.family, h.len⟩, fun h => ⟨h.1, h.2, by rw [hsize]; decide⟩⟩

theorem setPort_of_isAddress (hsize : a.ss.length = sizeofSockaddrStorage) (h : IsAddress a)
    (port : UInt16) : spdSockaddrSetPort a port = a.setSinPort (htons port) := by
  rw [spdSockaddrSetPort]
  rcases h with h | h
  · rw [if_pos ((isIpv4_iff hsize).mp h)]
  · rw [if_pos ((isIpv6_iff hsize).mp h), ite_self]

theorem getPort_of_isAddress (hsize : a.ss.length = sizeofSockaddrStorage) (h : IsAddress a) :
    spdSockaddrGetPort a = (ntohs (sinPort a)).toUInt8 := by
  rw [spdSockaddrGetPort]
  rcases h with h | h
  · rw [if_pos ((isIpv4_iff hsize).mp h)]
  · rw [if_pos ((isIpv6_iff hsize).mp h), ite_self]

theorem setPort_of_neither (hsize : a.ss.length = sizeofSockaddrStorage) (h : ¬ IsAddress a)
    (port : UInt16) : spdSockaddrSetPort a port = a ∧ spdSockaddrGetPort a = 0 := by
  have h4 := mt (isIpv4_iff hsize).mpr fun h4 => h (Or.inl h4)
  have h6 := mt (isIpv6_iff hsize).mpr fun h6 => h (Or.inr h6)
  rw [spdSockaddrSetPort, spdSockaddrGetPort, if_neg h4, if_neg h6, if_neg h4, if_neg h6]
  exact ⟨rfl, rfl⟩

theorem ntohs_htons (port : UInt16) : ntohs (htons port) = port := by
  have hlt := port.toNat_lt
  apply UInt16.toNat_inj.mp
  simp only [ntohs, htons, List.getD_cons_zero, List.getD_cons_succ, UInt8.toNat_ofNat',
    UInt16.toNat_ofNat']
  omega

/-- The port has been set, and the family is what it was. -/
theorem setSinPort_fields (hsize : a.ss.length = sizeofSockaddrStorage) (port : UInt16) :
    ssFamily (a.setSinPort (htons port)) = ssFamily a ∧
      sinPort (a.setSinPort (htons port)) = htons port := by
  have htake : (a.ss.take 2).length = 2 := by
    rw [List.length_take, hsize]
    rfl
  constructor
  · show (a.ss.take 2 ++ htons port ++ a.ss.drop 4).take 2 = a.ss.take 2
    rw [List.append_assoc, List.take_left' htake]
  · show ((a.ss.take 2 ++ htons port ++ a.ss.drop 4).drop 2).take 2 = htons port
    rw [List.append_assoc, List.drop_left' htake]
    rfl

theorem setSinPort_length (hsize : a.ss.length = sizeofSockaddrStorage) (port : UInt16) :
    (a.setSinPort (htons port)).ss.length = a.ss.length := by
  show (a.ss.take 2 ++ htons port ++ a.ss.drop 4).length = _
  rw [List.length_append, List.length_append, List.length_take, List.length_drop, hsize]
  rfl

theorem setSinPort_others (hsize : a.ss.length = sizeofSockaddrStorage) (port : UInt16) {i : Nat}
    (h2 : i ≠ 2) (h3 : i ≠ 3) : (a.setSinPort (htons port)).ss[i]? = a.ss[i]? := by
  have hstorage : sizeofSockaddrStorage = 128 := rfl
  have hhead : (a.ss.take 2 ++ htons port).length = 4 := by
    rw [List.length_append, List.length_take, hsize]
    rfl
  have htake : (a.ss.take 2).length = 2 := by
    rw [List.length_take, hsize]
    rfl
  show (a.ss.take 2 ++ htons port ++ a.ss.drop 4)[i]? = a.ss[i]?
  by_cases hlt : i < 2
  · rw [List.getElem?_append_left (by omega), List.getElem?_append_left (by omega),
      List.getElem?_take_of_lt hlt]
  · rw [List.getElem?_append_right (by omega), hhead, List.getElem?_drop]
    congr 1
    omega

/-- What is read back is the port modulo 256. -/
theorem getPort_setPort (hsize : a.ss.length = sizeofSockaddrStorage) (h : IsAddress a)
    (port : UInt16) :
    (spdSockaddrGetPort (spdSockaddrSetPort a port)).toNat = port.toNat % 256 := by
  have hfields := setSinPort_fields hsize port
  have hlength := setSinPort_length hsize port
  have haddress : IsAddress (a.setSinPort (htons port)) := by
    rcases h with h | h
    · exact Or.inl ⟨hfields.1.trans h.family, h.len, hlength ▸ h.size⟩
    · exact Or.inr ⟨hfields.1.trans h.family, h.len, hlength ▸ h.size⟩
  rw [setPort_of_isAddress hsize h, getPort_of_isAddress (hlength.trans hsize) haddress,
    hfields.2, ntohs_htons]
  rfl

end Port

/-- A port is kept exactly when it fits into a byte, or when there is nowhere to keep it. -/
theorem portKept_iff (a : SpdSockaddr) (port : UInt16)
    (hsize : a.ss.length = sizeofSockaddrStorage) :
    PortKept a port ↔ (IsAddress a → port < 256) := by
  have hsmall : port < 256 ↔ port.toNat < 256 := UInt16.lt_iff_toNat_lt
  rw [hsmall]
  constructor
  · intro h haddress
    have hread := h.read haddress
    rw [getPort_setPort hsize haddress] at hread
    omega
  · intro h
    by_cases haddress : IsAddress a
    · have hset := setPort_of_isAddress hsize haddress port
      refine ⟨fun _ => ?_, ?_, ?_, ?_, fun hnot => absurd haddress hnot⟩
      · rw [getPort_setPort hsize haddress]
        exact Nat.mod_eq_of_lt (h haddress)
      · rw [hset]
        exact setSinPort_length hsize port
      · rw [hset]
        rfl
      · intro i h2 h3
        rw [hset]
        exact setSinPort_others hsize port h2 h3
    · have hneither := setPort_of_neither hsize haddress port
      refine ⟨fun hpos => absurd hpos haddress, ?_, ?_, ?_, fun _ => hneither⟩
      · rw [hneither.1]
      · rw [hneither.1]
      · intro i _ _
        rw [hneither.1]

/-- `127.0.0.1` with port 80, in a whole `struct sockaddr_storage`. -/
def loopbackStorage : SpdSockaddr := ⟨loopback.ss ++ List.replicate 112 0, 16⟩

theorem isIpv4_loopbackStorage : IsIpv4 loopbackStorage :=
  ⟨by decide, rfl, by decide +kernel⟩

theorem portKept_http : PortKept loopbackStorage 80 :=
  (portKept_iff loopbackStorage 80 (by decide +kernel)).mpr fun _ => by decide

/-- Port 8080 is read back as 144. -/
theorem portKept_not : spdSockaddrGetPort (spdSockaddrSetPort loopbackStorage 8080) = 144 ∧
    ¬ ∀ a port, a.ss.length = sizeofSockaddrStorage → PortKept a port := by
  refine ⟨by decide +kernel, fun hall => ?_⟩
  have hread := (hall loopbackStorage 8080 (by decide +kernel)).read (Or.inl isIpv4_loopbackStorage)
  exact absurd hread (by decide +kernel)

end Spider.Socket
