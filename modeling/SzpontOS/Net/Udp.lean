import SzpontOS.Net.Ipv4

/-!
# UDP input

The way of a datagram from the buffer of a received frame into a socket. `ipv4_input` passes the buffer on with its
offset behind the IPv4 header, whatever the length of that header is, and `udp_input` looks for the addresses 20 bytes
before the offset. Behind a header with options these are the addresses only by chance (`udp_delivery_iff`).
-/

namespace SzpontOS.Net

open Lib

/-- `net_buf_t`: the next layer starts at `offset` and has `len` bytes. -/
structure NetBuf where
  data : List Byte
  offset : Nat
  len : Nat

namespace NetBuf

def u8 (buf : NetBuf) (i : Nat) : Byte := buf.data.getD i 0

/-- `ntohs` of the two bytes at `i`. -/
def ntohs (buf : NetBuf) (i : Nat) : BitVec 16 := buf.u8 i ++ buf.u8 (i + 1)

/-- The address at `i`, in network order. -/
def addr (buf : NetBuf) (i : Nat) : BitVec 32 := buf.u8 (i + 3) ++ buf.u8 (i + 2) ++ buf.u8 (i + 1) ++ buf.u8 i

def ihl (buf : NetBuf) : Nat := (buf.u8 buf.offset &&& 0x0F).toNat * 4

def totalLen (buf : NetBuf) : Nat := (buf.ntohs (buf.offset + 2)).toNat

/-- `ipv4_input`, up to the call for the protocol. -/
def ipv4Input (netif : Netif) (buf : NetBuf) : Option (Byte × NetBuf) :=
  if buf.len < 20 then none
  else if buf.u8 buf.offset >>> 4 ≠ 4 ∨ buf.ihl < 20 ∨ buf.len < buf.ihl then none
  else if buf.addr (buf.offset + 16) ≠ netif.ip ∧ buf.addr (buf.offset + 16) ≠ 0xFFFFFFFF ∧ ¬ netif.loopback then none
  else if buf.totalLen > buf.len ∨ buf.totalLen < buf.ihl then none
  else some (buf.u8 (buf.offset + 9), { buf with offset := buf.offset + buf.ihl, len := buf.totalLen - buf.ihl })

end NetBuf

namespace NetStack

def socketFindUdp (net : NetStack) (localIp : BitVec 32) (localPort : BitVec 16) : Option Nat :=
  net.list.find? fun s => (net.socks s).type = .dgram ∧ (net.socks s).localPort = localPort ∧
    ((net.socks s).localIp = 0 ∨ (net.socks s).localIp = localIp)

def udpInput (net : NetStack) (buf : NetBuf) : NetStack :=
  if buf.len < 8 then net
  else
    let ip := buf.offset - 20
    let len := (buf.ntohs (buf.offset + 4)).toNat
    if len < 8 ∨ len > buf.len then net
    else
      let payload := (buf.data.drop (buf.offset + 8)).take (len - 8)
      match net.socketFindUdp (buf.addr (ip + 16)) (buf.ntohs (buf.offset + 2)) with
      | none => net
      | some s =>
        net.setSock s ((net.socks s).enqueueData payload (buf.addr (ip + 12)) (buf.ntohs buf.offset)).2

def receiveUdp (net : NetStack) (netif : Netif) (buf : NetBuf) : NetStack :=
  match buf.ipv4Input netif with
  | none => net
  | some (proto, buf) => if proto = 17 then net.udpInput buf else net

end NetStack

/-! ## The packet in the buffer -/

namespace NetBuf

def udp (buf : NetBuf) : Nat := buf.offset + buf.ihl

def udpLen (buf : NetBuf) : Nat := (buf.ntohs (buf.udp + 4)).toNat

def payload (buf : NetBuf) : List Byte := (buf.data.drop (buf.udp + 8)).take (buf.udpLen - 8)

/-- The buffer holds a well-formed IPv4 packet for this interface, which carries a UDP datagram with some payload.
Padding may follow. -/
structure CarriesUdp (netif : Netif) (buf : NetBuf) : Prop where
  inside : buf.offset + buf.len ≤ buf.data.length
  version : buf.u8 buf.offset >>> 4 = 4
  header : 20 ≤ buf.ihl
  dest : buf.addr (buf.offset + 16) = netif.ip ∨ buf.addr (buf.offset + 16) = 0xFFFFFFFF ∨ netif.loopback
  protocol : buf.u8 (buf.offset + 9) = 17
  total : buf.totalLen ≤ buf.len
  datagram : buf.ihl + buf.udpLen ≤ buf.totalLen
  some : 8 < buf.udpLen

variable {netif : Netif} {buf : NetBuf}

theorem CarriesUdp.length_payload (h : CarriesUdp netif buf) : buf.payload.length = buf.udpLen - 8 := by
  have := h.inside
  have := h.total
  have := h.datagram
  rw [payload, List.length_take, List.length_drop, udp]
  omega

theorem CarriesUdp.ipv4Input_eq (h : CarriesUdp netif buf) :
    buf.ipv4Input netif = Option.some (17, { buf with offset := buf.udp, len := buf.totalLen - buf.ihl }) := by
  have hheader := h.header
  have htot := h.total
  have hdatagram := h.datagram
  unfold ipv4Input
  rw [if_neg (by omega), if_neg (not_or.mpr ⟨not_not.mpr h.version, by omega⟩), if_neg, if_neg (by omega), h.protocol]
  · rfl
  · rintro ⟨hip, hbroadcast, hloop⟩
    exact h.dest.elim hip fun h => h.elim hbroadcast hloop

/-- **One way through the three layers.** The datagram goes to the socket for what stands 20 bytes before it. -/
theorem CarriesUdp.receiveUdp_eq (h : CarriesUdp netif buf) (net : NetStack) :
    net.receiveUdp netif buf =
      match net.socketFindUdp (buf.addr (buf.udp - 20 + 16)) (buf.ntohs (buf.udp + 2)) with
      | none => net
      | Option.some s => net.setSock s
          ((net.socks s).enqueueData buf.payload (buf.addr (buf.udp - 20 + 12)) (buf.ntohs buf.udp)).2 := by
  have hdatagram := h.datagram
  have hsome := h.some
  unfold NetStack.receiveUdp
  rw [h.ipv4Input_eq]
  dsimp only
  rw [if_pos rfl]
  unfold NetStack.udpInput
  rw [if_neg (by dsimp only; omega)]
  exact if_neg (by change ¬ (buf.udpLen < 8 ∨ buf.udpLen > _); dsimp only; omega)

end NetBuf

theorem Sock.enqueueData_dgram {sock : Sock} {data : List Byte} (htype : sock.type = .dgram) (hdata : data ≠ [])
    (hring : sock.rx.WF sockRxBufSize) (hque : sock.dgramQueue.length < sockDgramQueueLen)
    (hroom : sock.rx.len + data.length ≤ sockRxBufSize) (ip : BitVec 32) (port : BitVec 16) :
    (sock.enqueueData data ip port).2.dgramQueue = sock.dgramQueue ++ [⟨data.length, ip, port⟩] ∧
      (sock.enqueueData data ip port).2.rx.contents sockRxBufSize = sock.rx.contents sockRxBufSize ++ data := by
  have hpush := (hring.pushWhile data).2.2
  rw [List.take_of_length_le (by omega)] at hpush
  have hfits : ¬ (sockDgramQueueLen ≤ sock.dgramQueue.length ∨ sockRxBufSize < sock.rx.len + data.length) := by omega
  unfold Sock.enqueueData
  rw [if_neg hdata]
  by_cases hip : ip ≠ 0
  · simp only [if_pos hip]
    simp [htype, hfits, hpush]
  · simp only [if_neg hip]
    simp [htype, hfits, hpush]

/-- The socket got one datagram more: the payload of the packet, from the packet's source. -/
def Delivered (net net' : NetStack) (s : Nat) (buf : NetBuf) : Prop :=
  (net'.socks s).dgramQueue = (net.socks s).dgramQueue ++
      [⟨buf.payload.length, buf.addr (buf.offset + 12), buf.ntohs buf.udp⟩] ∧
    (net'.socks s).rx.contents sockRxBufSize = (net.socks s).rx.contents sockRxBufSize ++ buf.payload

/-- **Delivery.** A datagram for a socket with room reaches it, with its source, exactly if the words 8 and 4 bytes
before the UDP header are the source of the packet and an address for which the socket is found. -/
theorem udp_delivery_iff {netif : Netif} {buf : NetBuf} (net : NetStack) (hcarries : buf.CarriesUdp netif) {s : Nat}
    (hfind : net.socketFindUdp (buf.addr (buf.offset + 16)) (buf.ntohs (buf.udp + 2)) = some s)
    (hring : (net.socks s).rx.WF sockRxBufSize) (hqueue : (net.socks s).dgramQueue.length < sockDgramQueueLen)
    (hroom : (net.socks s).rx.len + buf.payload.length ≤ sockRxBufSize) :
    Delivered net (net.receiveUdp netif buf) s buf ↔
      buf.addr (buf.udp - 8) = buf.addr (buf.offset + 12) ∧
        net.socketFindUdp (buf.addr (buf.udp - 4)) (buf.ntohs (buf.udp + 2)) = some s := by
  have hheader := hcarries.header
  have hudp : buf.udp = buf.offset + buf.ihl := rfl
  have hdata : buf.payload ≠ [] := fun hnil => by
    have hlength := hcarries.length_payload
    have := hcarries.some
    rw [hnil, List.length_nil] at hlength
    omega
  have htype : (net.socks s).type = .dgram := by
    have := List.find?_some hfind
    simp_all
  have hgot := Sock.enqueueData_dgram htype hdata hring hqueue hroom (buf.addr (buf.udp - 8)) (buf.ntohs buf.udp)
  rw [hcarries.receiveUdp_eq, show buf.udp - 20 + 16 = buf.udp - 4 by omega,
    show buf.udp - 20 + 12 = buf.udp - 8 by omega]
  unfold Delivered
  cases hfound : net.socketFindUdp (buf.addr (buf.udp - 4)) (buf.ntohs (buf.udp + 2)) with
  | none => simp
  | some r =>
    by_cases hr : r = s
    · subst hr
      simp [NetStack.setSock, hgot]
    · simp [NetStack.setSock, Ne.symm hr, hr]

/-- One byte from 10.0.0.9, port 1234, to 10.0.0.2, port 53. -/
def datagram (options : List Byte) : NetBuf :=
  let bytes : List Byte := [BitVec.ofNat 8 (0x45 + options.length / 4), 0, 0, BitVec.ofNat 8 (29 + options.length)] ++
    [0, 0, 0, 0, 64, 17, 0, 0, 10, 0, 0, 9, 10, 0, 0, 2] ++ options ++ [4, 210, 0, 53, 0, 9, 0, 0, 42]
  ⟨bytes, 0, bytes.length⟩

def eth0 : Netif := ⟨List.replicate 6 0, 0x0200000a, 0x00ffffff, 0, true, false⟩

def resolver : NetStack := ⟨fun _ => { Sock.fresh .inet .dgram 17 with localPort := 53 }, [0], none, none, []⟩

theorem udp_delivery_plain : (datagram []).CarriesUdp eth0 ∧
    Delivered resolver (resolver.receiveUdp eth0 (datagram [])) 0 (datagram []) := by
  have hcarries : (datagram []).CarriesUdp eth0 := by constructor <;> decide
  exact ⟨hcarries, (udp_delivery_iff resolver hcarries (by decide) (RingBuffer.wf_empty (by decide) 0) (by decide)
    (by decide)).mpr ⟨by decide, by decide⟩⟩

/-- With four bytes of options the source that is recorded is the packet's destination. -/
theorem udp_source_misread : (datagram [1, 1, 1, 0]).CarriesUdp eth0 ∧
    resolver.socketFindUdp ((datagram [1, 1, 1, 0]).addr 16) ((datagram [1, 1, 1, 0]).ntohs 26) = some 0 ∧
    ((resolver.receiveUdp eth0 (datagram [1, 1, 1, 0])).socks 0).dgramQueue.map DgramMeta.fromIp = [0x0200000a] ∧
    (datagram [1, 1, 1, 0]).addr 12 = 0x0900000a ∧
    ¬ Delivered resolver (resolver.receiveUdp eth0 (datagram [1, 1, 1, 0])) 0 (datagram [1, 1, 1, 0]) := by
  refine ⟨by constructor <;> decide, by decide, by decide, by decide, fun hdelivered => ?_⟩
  exact absurd (congrArg (List.map DgramMeta.fromIp) hdelivered.1) (by decide)

end SzpontOS.Net
