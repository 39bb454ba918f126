import SzpontOS.Net.Tcp

/-!
# IPv4 output and the interfaces

`tcp_send_segment` and `ipv4_output` down to the frame that leaves the machine, and `ipv4_input` on the way back from
the loopback interface. Which interface a packet leaves by, and so the source address in its header, depends on the
destination only. Addresses are in network order. Buffers are always to be had, and `arp` is what the ARP cache answers
in the end.
-/

namespace SzpontOS.Net

open BitVec Option

/-! ## Interfaces -/

structure Netif where
  mac : List Byte
  ip : BitVec 32
  netmask : BitVec 32
  gateway : BitVec 32
  up : Bool
  loopback : Bool
deriving DecidableEq

def netifGetLoopback (ifs : List Netif) : Option Netif := ifs.find? (·.loopback)

def netifGetDefault (ifs : List Netif) : Option Netif :=
  (ifs.find? fun netif => !netif.loopback && netif.up).or (netifGetLoopback ifs)

def netifFindByIp (ifs : List Netif) (ip : BitVec 32) : Option Netif := ifs.find? fun netif => netif.ip = ip

/-- An address in 127.0.0.0/8, or of an interface. -/
def LocalDest (ifs : List Netif) (dest : BitVec 32) : Prop := dest &&& 0xFF = 127 ∨ (netifFindByIp ifs dest).isSome

instance (ifs : List Netif) (dest : BitVec 32) : Decidable (LocalDest ifs dest) := inferInstanceAs (Decidable (_ ∨ _))

/-- The routing of `ipv4_output`. -/
def outputNetif (ifs : List Netif) (dest : BitVec 32) : Option Netif :=
  if LocalDest ifs dest then netifGetLoopback ifs else netifGetDefault ifs

/-! ## Checksums -/

/-- The sum of the 16-bit words of some bytes, as a little-endian machine reads them. -/
def wordSum : List Byte → BitVec 32
  | a :: b :: rest => (b ++ a : BitVec 16).setWidth 32 + wordSum rest
  | [a] => a.setWidth 32
  | [] => 0

/-- One turn of the loop that adds the carries. -/
def addCarries (sum : BitVec 32) : BitVec 32 := (sum &&& 0xFFFF#32) + (sum >>> 16)

/-- That loop: after two turns there are no carries. -/
def foldSum (sum : BitVec 32) : BitVec 32 := addCarries (addCarries sum)

theorem toNat_addCarries (sum : BitVec 32) : (addCarries sum).toNat = sum.toNat % 65536 + sum.toNat / 65536 := by
  have hlow : (sum &&& 0xFFFF#32).toNat = sum.toNat % 65536 := by
    exact Nat.and_two_pow_sub_one_eq_mod sum.toNat 16
  have hhigh : (sum >>> 16).toNat = sum.toNat / 65536 := by
    rw [toNat_ushiftRight, Nat.shiftRight_eq_div_pow]
  unfold addCarries
  rw [toNat_add, hlow, hhigh]
  omega

def ipv4Checksum (data : List Byte) : BitVec 16 := ~~~((foldSum (wordSum data)).setWidth 16)

def htons (x : BitVec 16) : BitVec 16 := x.extractLsb' 0 8 ++ x.extractLsb' 8 8

/-- `tcp_checksum` of the header and the payload. -/
def tcpChecksum (srcIp destIp : BitVec 32) (bytes : List Byte) : BitVec 16 :=
  let sum := (srcIp &&& 0xFFFF#32) + (srcIp >>> 16) + (destIp &&& 0xFFFF#32) + (destIp >>> 16) + (htons 6).setWidth 32 +
    (htons (BitVec.ofNat 16 bytes.length)).setWidth 32 + wordSum bytes
  let res : BitVec 16 := ~~~((foldSum sum).setWidth 16)
  if res = 0 then 0xFFFF else res

/-! ## Segments and packets -/

def be16Bytes (x : BitVec 16) : List Byte := [x.extractLsb' 8 8, x.extractLsb' 0 8]

def be32Bytes (x : BitVec 32) : List Byte :=
  [x.extractLsb' 24 8, x.extractLsb' 16 8, x.extractLsb' 8 8, x.extractLsb' 0 8]

/-- The `tcp_hdr_t` that `tcp_send_segment` writes. -/
def SentSegment.header (seg : SentSegment) (checksum : BitVec 16) : List Byte :=
  be16Bytes seg.srcPort ++ be16Bytes seg.destPort ++ be32Bytes seg.seq ++ be32Bytes seg.ack ++ [0x50, seg.flags] ++
    be16Bytes 65535 ++ (be16Bytes checksum).reverse ++ be16Bytes 0

/-- The buffer that `tcp_send_segment` hands to `ipv4_output`. -/
def SentSegment.bytes (seg : SentSegment) : List Byte :=
  seg.header (tcpChecksum seg.srcIp seg.destIp (seg.header 0 ++ seg.data)) ++ seg.data

/-- An IPv4 packet: the fields of `ipv4_hdr_t` that vary, and the payload. -/
structure Ipv4Packet where
  totalLen : BitVec 16
  id : BitVec 16
  proto : Byte
  checksum : BitVec 16
  srcIp : BitVec 32
  destIp : BitVec 32
  payload : List Byte

def Ipv4Packet.header (p : Ipv4Packet) : List Byte :=
  [0x45, 0] ++ be16Bytes p.totalLen ++ be16Bytes p.id ++ be16Bytes 0x4000 ++ [64, p.proto] ++
    (be16Bytes p.checksum).reverse ++ (be32Bytes p.srcIp).reverse ++ (be32Bytes p.destIp).reverse

structure Frame where
  netif : Netif
  destMac : List Byte
  packet : Ipv4Packet

def nextHop (netif : Netif) (dest : BitVec 32) : BitVec 32 :=
  if ¬ netif.loopback ∧ dest &&& netif.netmask ≠ netif.ip &&& netif.netmask then netif.gateway else dest

def destMac (arp : BitVec 32 → Option (List Byte)) (netif : Netif) (dest : BitVec 32) : Option (List Byte) :=
  if netif.loopback then some (List.replicate 6 0)
  else if dest = 0xFFFFFFFF then some (List.replicate 6 0xFF)
  else arp (nextHop netif dest)

/-- `ipv4_output`; `id` is `g_ip_id`. -/
def ipv4Output (ifs : List Netif) (arp : BitVec 32 → Option (List Byte)) (id : BitVec 16) (netif : Option Netif)
    (dest : BitVec 32) (proto : Byte) (payload : List Byte) : Option Frame := do
  let netif ← netif.or (outputNetif ifs dest)
  let mac ← destMac arp netif dest
  let packet : Ipv4Packet := ⟨BitVec.ofNat 16 (20 + payload.length), id, proto, 0, netif.ip, dest, payload⟩
  return ⟨netif, mac, { packet with checksum := ipv4Checksum packet.header }⟩

def tcpSendSegment (ifs : List Netif) (arp : BitVec 32 → Option (List Byte)) (id : BitVec 16) (seg : SentSegment) :
    Option Frame :=
  ipv4Output ifs arp id none seg.destIp 6 seg.bytes

/-- `ipv4_input` of a TCP packet, up to the call of `tcp_input`. -/
def ipv4Input (netif : Netif) (p : Ipv4Packet) : Option Packet :=
  if p.destIp ≠ netif.ip ∧ p.destIp ≠ 0xFFFFFFFF ∧ ¬ netif.loopback then none
  else if p.totalLen.toNat > 20 + p.payload.length ∨ p.totalLen.toNat < 20 then none
  else if p.proto = 6 then some ⟨p.srcIp, p.destIp, p.payload.take (p.totalLen.toNat - 20)⟩
  else none

/-! ## What a segment carries -/

theorem append_be16 (x : BitVec 16) : (x.extractLsb' 8 8 ++ x.extractLsb' 0 8 : BitVec 16) = x := by
  rw [extractLsb'_append_extractLsb'_eq_extractLsb' (by rfl)]
  simp

section

variable (seg : SentSegment) (src dest : BitVec 32)

theorem srcPort_bytes : (⟨src, dest, seg.bytes⟩ : Packet).srcPort = seg.srcPort := append_be16 seg.srcPort

theorem destPort_bytes : (⟨src, dest, seg.bytes⟩ : Packet).destPort = seg.destPort := append_be16 seg.destPort

theorem flags_bytes : (⟨src, dest, seg.bytes⟩ : Packet).flags = seg.flags := rfl

theorem length_bytes : seg.bytes.length = 20 + seg.data.length := by
  unfold SentSegment.bytes
  rw [List.length_append]
  rfl

theorem hlen_bytes : (⟨src, dest, seg.bytes⟩ : Packet).hlen = 20 := by
  show ((0x50#8) >>> 4).toNat * 4 = 20
  decide

theorem complete_bytes : (⟨src, dest, seg.bytes⟩ : Packet).complete = true := by
  unfold Packet.complete
  rw [hlen_bytes, length_bytes]
  simp

theorem payload_bytes : (⟨src, dest, seg.bytes⟩ : Packet).payload = seg.data := by
  unfold Packet.payload
  rw [hlen_bytes]
  rfl

end

/-! ## What a receiver sums -/

/-- `udp_pseudo_header_t` as it lies in memory. -/
def pseudoHeader (srcIp destIp : BitVec 32) (proto : Byte) (len : Nat) : List Byte :=
  (be32Bytes srcIp).reverse ++ (be32Bytes destIp).reverse ++ [0, proto] ++ be16Bytes (BitVec.ofNat 16 len)

/-- `udp_checksum` of the header and the payload. -/
def udpChecksum (srcIp destIp : BitVec 32) (bytes : List Byte) : BitVec 16 :=
  let sum := wordSum (pseudoHeader srcIp destIp 17 bytes.length) + wordSum bytes
  let res : BitVec 16 := ~~~((foldSum sum).setWidth 16)
  if res = 0 then 0xFFFF else res

/-- Bytes with a checksum field after `pre`. -/
def withChecksum (pre : List Byte) (checksum : BitVec 16) (post : List Byte) : List Byte :=
  pre ++ ((be16Bytes checksum).reverse ++ post)

/-- The sum of the words in network order, the last one padded with a zero. -/
def receiverSum : List Byte → Nat
  | a :: b :: rest => 256 * a.toNat + b.toNat + receiverSum rest
  | [a] => 256 * a.toNat
  | [] => 0

def Verifies (bytes : List Byte) : Prop := foldSum (BitVec.ofNat 32 (receiverSum bytes)) = 0xFFFF

theorem toNat_foldSum (sum : BitVec 32) : (foldSum sum).toNat < 65536 ∧ (foldSum sum).toNat ≤ sum.toNat ∧
    (foldSum sum).toNat % 65535 = sum.toNat % 65535 ∧ ((foldSum sum).toNat = 0 → sum.toNat = 0) := by
  unfold foldSum
  rw [toNat_addCarries, toNat_addCarries]
  omega

theorem toNat_word (a b : Byte) : (b ++ a : BitVec 16).toNat = 256 * b.toNat + a.toNat := by
  rw [toNat_append, ← Nat.shiftLeft_add_eq_or_of_lt a.isLt, Nat.shiftLeft_eq, Nat.mul_comm]

/-- The sender reads each word with its bytes swapped, and `256 * 256 = 1` modulo 65535. -/
theorem wordSum_swap : ∀ {bytes : List Byte}, bytes.length ≤ 65535 →
    256 * (wordSum bytes).toNat % 65535 = receiverSum bytes % 65535 ∧ (wordSum bytes).toNat ≤ 256 * receiverSum bytes ∧
      (wordSum bytes).toNat ≤ 32768 * bytes.length + 32768 ∧ receiverSum bytes ≤ 32768 * bytes.length + 32768
  | [], _ => by simp [wordSum, receiverSum]
  | [a], _ => by
    rw [wordSum, receiverSum, toNat_setWidth_of_le (by decide), List.length_singleton]
    omega
  | a :: b :: rest, hlen => by
    rw [List.length_cons, List.length_cons] at hlen ⊢
    have ih := @wordSum_swap rest (by omega)
    have hsum : (wordSum (a :: b :: rest)).toNat = 256 * b.toNat + a.toNat + (wordSum rest).toNat := by
      rw [wordSum, toNat_add, toNat_setWidth_of_le (by decide), toNat_word, Nat.mod_eq_of_lt (by omega)]
    rw [hsum, receiverSum]
    omega

theorem sum_append : ∀ {pre : List Byte} (post : List Byte), pre.length % 2 = 0 →
    wordSum (pre ++ post) = wordSum pre + wordSum post ∧ receiverSum (pre ++ post) = receiverSum pre + receiverSum post
  | [], _, _ => by simp [wordSum, receiverSum]
  | [_], _, h => by simp at h
  | a :: b :: rest, post, h => by
    obtain ⟨hword, hrecv⟩ := sum_append post (show rest.length % 2 = 0 by simpa [Nat.add_assoc] using h)
    simp [wordSum, receiverSum, hword, hrecv, BitVec.add_assoc, Nat.add_assoc]

/-- What `c` must be for the words to fold to `0xFFFF` with it. -/
def Complements (c : BitVec 16) (sum : BitVec 32) : Prop :=
  0 < c.toNat + (foldSum sum).toNat ∧ (c.toNat + (foldSum sum).toNat) % 65535 = 0

/-- The complement does, and `0xFFFF` in the place of zero. -/
theorem complements_not {sum : BitVec 32} {res : BitVec 16} (hres : res = ~~~((foldSum sum).setWidth 16)) :
    Complements res sum ∧ Complements (if res = 0 then 0xFFFF else res) sum := by
  have hlt := toNat_foldSum sum
  have hsum : res.toNat + (foldSum sum).toNat = 65535 := by
    rw [hres, toNat_not, toNat_setWidth]
    omega
  have hself : Complements res sum := ⟨by omega, by rw [hsum]⟩
  refine ⟨hself, ?_⟩
  split_ifs with hzero
  · have hfold : (foldSum sum).toNat = 65535 := by simpa [hzero] using hsum
    simp [Complements, hfold]
  · exact hself

/-- **The stored value.** The receiver's sum is then a multiple of 65535, and not zero. -/
theorem verifies_stored {pre post : List Byte} {c : BitVec 16} (heven : pre.length % 2 = 0)
    (hlen : (withChecksum pre 0 post).length ≤ 65535) (hc : Complements c (wordSum (withChecksum pre 0 post))) :
    Verifies (withChecksum pre c post) := by
  obtain ⟨hswap, hle, -, hbound⟩ := wordSum_swap hlen
  have hfold := toNat_foldSum (wordSum (withChecksum pre 0 post))
  obtain ⟨hpos, hmod⟩ := hc
  have hfield := toNat_word (c.extractLsb' 0 8) (c.extractLsb' 8 8)
  rw [append_be16] at hfield
  have hsum : receiverSum (withChecksum pre c post) = receiverSum (withChecksum pre 0 post) +
      256 * (c.extractLsb' 0 8).toNat + (c.extractLsb' 8 8).toNat := by
    unfold withChecksum
    rw [(sum_append _ heven).2, (sum_append _ heven).2]
    simp [be16Bytes, receiverSum]
    omega
  have hrecv := toNat_foldSum (BitVec.ofNat 32 (receiverSum (withChecksum pre c post)))
  rw [toNat_ofNat, Nat.mod_eq_of_lt (by omega)] at hrecv
  refine eq_of_toNat_eq (?_ : _ = 65535)
  omega

theorem wordSum_pseudoHeader (src dest : BitVec 32) (len : Nat) :
    wordSum (pseudoHeader src dest 6 len) = (src &&& 0xFFFF#32) + (src >>> 16) + (dest &&& 0xFFFF#32) +
      (dest >>> 16) + (htons 6).setWidth 32 + (htons (BitVec.ofNat 16 len)).setWidth 32 := by
  have hlow : ∀ x : BitVec 32, (x.extractLsb' 8 8 ++ x.extractLsb' 0 8 : BitVec 16).setWidth 32 = x &&& 0xFFFF#32 := by
    intro x
    have hand := Nat.and_two_pow_sub_one_eq_mod x.toNat 16
    apply eq_of_toNat_eq
    rw [extractLsb'_append_extractLsb'_eq_extractLsb' (by rfl)]
    simp [hand]
    omega
  have hhigh : ∀ x : BitVec 32, (x.extractLsb' 24 8 ++ x.extractLsb' 16 8 : BitVec 16).setWidth 32 = x >>> 16 := by
    intro x
    apply eq_of_toNat_eq
    rw [extractLsb'_append_extractLsb'_eq_extractLsb' (by rfl)]
    simp [Nat.shiftRight_eq_div_pow]
    omega
  simp [pseudoHeader, be32Bytes, be16Bytes, wordSum, htons, hlow, hhigh, BitVec.add_assoc]

/-- **The checksums verify.** An IPv4 header, and a TCP or UDP segment behind its pseudo-header, folds to `0xFFFF` once
the value computed with a zero in the checksum field is stored there. -/
theorem checksums_verify (src dest : BitVec 32) (pre post : List Byte) :
    let zeroed := withChecksum pre 0 post
    (pre.length = 10 → zeroed.length ≤ 65535 → Verifies (withChecksum pre (ipv4Checksum zeroed) post)) ∧
    (pre.length = 16 → 12 + zeroed.length ≤ 65535 →
      Verifies (pseudoHeader src dest 6 zeroed.length ++ withChecksum pre (tcpChecksum src dest zeroed) post)) ∧
    (pre.length = 6 → 12 + zeroed.length ≤ 65535 →
      Verifies (pseudoHeader src dest 17 zeroed.length ++ withChecksum pre (udpChecksum src dest zeroed) post)) := by
  intro zeroed
  -- the pseudo-header is summed like twelve bytes in front
  have hfront : ∀ {proto c}, pre.length % 2 = 0 → 12 + zeroed.length ≤ 65535 →
      Complements c (wordSum (pseudoHeader src dest proto zeroed.length) + wordSum zeroed) →
      Verifies (pseudoHeader src dest proto zeroed.length ++ withChecksum pre c post) := by
    intro proto c heven hlen hc
    have hph : (pseudoHeader src dest proto zeroed.length).length = 12 := rfl
    rw [← (sum_append _ (by rw [hph])).1] at hc
    generalize pseudoHeader src dest proto zeroed.length = ph at hc hph ⊢
    have happ : ∀ c, ph ++ withChecksum pre c post = withChecksum (ph ++ pre) c post := fun _ => (List.append_assoc ..).symm
    rw [happ] at hc ⊢
    refine verifies_stored ?_ ?_ hc
    · rw [List.length_append]
      omega
    · rwa [← happ, List.length_append, hph]
  refine ⟨fun hpre hlen => ?_, fun hpre hlen => ?_, fun hpre hlen => ?_⟩
  · exact verifies_stored (by omega) hlen (complements_not rfl).1
  · refine hfront (by omega) hlen ?_
    rw [wordSum_pseudoHeader]
    exact (complements_not rfl).2
  · exact hfront (by omega) hlen (complements_not rfl).2

/-- A datagram of one byte, from port 7 to port 7. -/
theorem checksums_verify_odd : let head : List Byte := [0, 7, 0, 7, 0, 9]
    Verifies (pseudoHeader 1 2 17 9 ++ withChecksum head (udpChecksum 1 2 (withChecksum head 0 [0x61])) [0x61]) :=
  (checksums_verify 1 2 [0, 7, 0, 7, 0, 9] [0x61]).2.2 rfl (by decide)

/-! ## Through the loopback interface -/

variable {ifs : List Netif} {arp : BitVec 32 → Option (List Byte)} {id : BitVec 16} {seg : SentSegment} {frame : Frame}

theorem tcpSendSegment_some (heq : tcpSendSegment ifs arp id seg = some frame) :
    outputNetif ifs seg.destIp = some frame.netif ∧ frame.packet.srcIp = frame.netif.ip := by
  unfold tcpSendSegment ipv4Output at heq
  simp only [bind_eq_bind, none_or, bind_eq_some_iff] at heq
  obtain ⟨netif, hnetif, mac, -, hframe⟩ := heq
  cases hframe
  exact ⟨hnetif, rfl⟩

/-- **The loopback interface.** A short segment that leaves by it is received as it was sent, from its address. -/
theorem ipv4Input_loopback (heq : tcpSendSegment ifs arp id seg = some frame) (hloop : frame.netif.loopback = true)
    (hdata : seg.data.length ≤ 65495) :
    ipv4Input frame.netif frame.packet = some ⟨frame.netif.ip, seg.destIp, seg.bytes⟩ := by
  unfold tcpSendSegment ipv4Output at heq
  simp only [bind_eq_bind, none_or, bind_eq_some_iff] at heq
  obtain ⟨netif, -, mac, -, hframe⟩ := heq
  cases hframe
  have hlen := length_bytes seg
  have htot : (BitVec.ofNat 16 (20 + seg.bytes.length)).toNat = 20 + seg.bytes.length := by
    rw [BitVec.toNat_ofNat]
    omega
  unfold ipv4Input
  dsimp only
  rw [if_neg (by rw [hloop]; simp), htot, if_neg (by omega), if_pos rfl, List.take_of_length_le (by omega)]

theorem tcpSendSegment_loopback {lo : Netif} (hlo : netifGetLoopback ifs = some lo) (hdest : LocalDest ifs seg.destIp)
    (hdata : seg.data.length ≤ 65495) :
    ∃ frame, tcpSendSegment ifs arp id seg = some frame ∧ frame.netif = lo ∧
      ipv4Input lo frame.packet = some ⟨lo.ip, seg.destIp, seg.bytes⟩ := by
  have hloop : lo.loopback = true := List.find?_some hlo
  have hout : outputNetif ifs seg.destIp = some lo := by
    unfold outputNetif
    rw [if_pos hdest, hlo]
  have hmac : destMac arp lo seg.destIp = some (List.replicate 6 0) := if_pos hloop
  obtain ⟨frame, hsend, rfl⟩ : ∃ frame, tcpSendSegment ifs arp id seg = some frame ∧ frame.netif = lo := by
    unfold tcpSendSegment ipv4Output
    simp only [hout, hmac, none_or, bind_eq_bind, bind_some]
    exact ⟨_, rfl, rfl⟩
  exact ⟨frame, hsend, rfl, ipv4Input_loopback hsend hloop hdata⟩

end SzpontOS.Net
