import SzpontOS.Net.Connect

/-!
# The source address of TCP segments

`tcp_send_segment` computes the checksum over the source address it is given, and `ipv4_output` writes the address of
the interface it chooses. For a connection to a local address all packets pass the loopback interface and carry its
address, so the connecting socket knows the answer to its SYN for its own only if it connects to that address, and from
there.
-/

namespace SzpontOS.Net

open List

variable {ifs : List Netif} {arp : BitVec 32 → Option (List Byte)} {id : BitVec 16}

/-- Source address `src` belongs to the interface that leads to `dest`: the loopback interface for local
destinations, and the default interface for others. -/
def SourceFits (ifs : List Netif) (src dest : BitVec 32) : Prop :=
  (LocalDest ifs dest ∧ (netifGetLoopback ifs).map Netif.ip = some src) ∨
    (¬ LocalDest ifs dest ∧ (netifGetDefault ifs).map Netif.ip = some src)

variable {seg : SentSegment} {net : NetStack} {netifIp : BitVec 32} {alloc : Option Nat} {p : Packet} {lo : Netif}

/-- **The header carries the source address of the checksum** exactly if it fits. -/
theorem srcIp_eq_iff {frame : Frame} (heq : tcpSendSegment ifs arp id seg = some frame) :
    frame.packet.srcIp = seg.srcIp ↔ SourceFits ifs seg.srcIp seg.destIp := by
  obtain ⟨hout, hsrc⟩ := tcpSendSegment_some heq
  unfold outputNetif at hout
  unfold SourceFits
  rw [hsrc]
  by_cases hlocal : LocalDest ifs seg.destIp
  · rw [if_pos hlocal] at hout
    simp [hlocal, hout]
  · rw [if_neg hlocal] at hout
    simp [hlocal, hout]

/-- The test of `socket_find_tcp`. -/
def Sock.Matches (sock : Sock) (p : Packet) : Prop :=
  sock.type = .stream ∧ sock.localPort = p.destPort ∧ (sock.localIp = 0 ∨ sock.localIp = p.destIp) ∧
    sock.remotePort = p.srcPort ∧ sock.remoteIp = p.srcIp

namespace NetStack

/-- The interfaces that `sys_connect` and `socket_create_child` ask for are these. -/
structure Configured (net : NetStack) (ifs : List Netif) : Prop where
  loopback : net.loopback = (netifGetLoopback ifs).map Netif.ip
  default : net.default = (netifGetDefault ifs).map Netif.ip

def replies (net : NetStack) (netifIp : BitVec 32) (alloc : Option Nat) (p : Packet) : List SentSegment :=
  (net.tcpInput netifIp alloc p).sent.drop net.sent.length

theorem replies_of_sent {net' : NetStack} {out : List SentSegment} (hinp : net.tcpInput netifIp alloc p = net')
    (hsent : net'.sent = net.sent ++ out) : net.replies netifIp alloc p = out := by
  unfold replies
  rw [hinp, hsent, drop_left]

theorem sent_socketCreateChild (net : NetStack) (listener : Nat) (alloc : Option Nat) (remoteIp : BitVec 32)
    (remotePort : BitVec 16) : (net.socketCreateChild listener alloc remoteIp remotePort).2.sent = net.sent := by
  unfold socketCreateChild socketCreate
  cases alloc with
  | none => rfl
  | some c =>
    dsimp only
    unfold queueChild
    split_ifs <;> rfl

/-- The segment comes from the address of the interface, and goes back where the packet came from. -/
structure Answers (netifIp : BitVec 32) (p : Packet) (r : SentSegment) : Prop where
  srcIp : r.srcIp = netifIp
  srcPort : r.srcPort = p.destPort
  destIp : r.destIp = p.srcIp
  destPort : r.destPort = p.srcPort
  data : r.data = []

/-- **Whatever answers a SYN that no connection takes**, a listener or a reset. -/
theorem answers_of_mem_replies (hfind : net.socketFindTcp p.destIp p.destPort p.srcIp p.srcPort = none)
    {r : SentSegment} (hr : r ∈ net.replies netifIp alloc p) : Answers netifIp p r := by
  suffices hone : ∃ out, net.replies netifIp alloc p = out ∧ ∀ r ∈ out, Answers netifIp p r by
    obtain ⟨out, hout, hall⟩ := hone
    exact hall r (hout ▸ hr)
  have hnone : ∀ {net'}, net.tcpInput netifIp alloc p = net' → net'.sent = net.sent →
      ∃ out, net.replies netifIp alloc p = out ∧ ∀ r ∈ out, Answers netifIp p r := fun hinp hsent =>
    ⟨[], replies_of_sent hinp (hsent.trans (append_nil _).symm), fun r hr => absurd hr not_mem_nil⟩
  by_cases hcomp : p.complete = true
  · have hinp : net.tcpInput netifIp alloc p = net.inputUnmatched netifIp alloc p := by
      unfold tcpInput
      rw [if_pos hcomp, hfind]
    unfold inputUnmatched at hinp
    by_cases hsyn : p.syn = true
    · rw [if_pos hsyn] at hinp
      cases hlistener : net.socketFindTcpListener p.destIp p.destPort with
      | none =>
        rw [hlistener] at hinp
        by_cases hrst : p.rst = true
        · rw [if_pos hrst] at hinp
          exact hnone hinp rfl
        · rw [if_neg hrst] at hinp
          refine ⟨[_], replies_of_sent hinp rfl, fun r hr => ?_⟩
          rw [mem_singleton.mp hr]
          exact ⟨rfl, rfl, rfl, rfl, rfl⟩
      | some listener =>
        rw [hlistener] at hinp
        dsimp only at hinp
        have hsent := sent_socketCreateChild net listener alloc p.srcIp p.srcPort
        cases hkid : net.socketCreateChild listener alloc p.srcIp p.srcPort with
        | mk child net' =>
          rw [hkid] at hinp hsent
          cases child with
          | none => exact hnone hinp hsent
          | some child =>
            refine ⟨[_], replies_of_sent hinp (congrArg (· ++ _) hsent), fun r hr => ?_⟩
            rw [mem_singleton.mp hr]
            exact ⟨rfl, rfl, rfl, rfl, rfl⟩
    · rw [if_neg hsyn] at hinp
      exact hnone hinp rfl
  · refine hnone ?_ rfl
    unfold tcpInput
    rw [if_neg hcomp]

end NetStack

/-! ## Connections to local addresses -/

def loopPacket (ifs : List Netif) (arp : BitVec 32 → Option (List Byte)) (id : BitVec 16) (seg : SentSegment) :
    Option Packet :=
  (tcpSendSegment ifs arp id seg).bind fun frame => ipv4Input frame.netif frame.packet

theorem loopPacket_eq {lo : Netif} (hlo : netifGetLoopback ifs = some lo) (hdest : LocalDest ifs seg.destIp)
    (hdata : seg.data = []) : loopPacket ifs arp id seg = some ⟨lo.ip, seg.destIp, seg.bytes⟩ := by
  obtain ⟨frame, hsend, rfl, hinp⟩ := tcpSendSegment_loopback hlo hdest (by rw [hdata]; decide)
  unfold loopPacket
  rw [hsend]
  exact hinp

theorem localDest_ip (hlo : netifGetLoopback ifs = some lo) : LocalDest ifs lo.ip := by
  right
  unfold netifFindByIp
  rw [find?_isSome]
  exact ⟨lo, mem_of_find?_eq_some hlo, by simp⟩

/-- A socket that is bound to the address of the loopback interface, or an unbound one for which `sys_connect` chooses
that address, or leaves it open. -/
def LocalAddressFits (ifs : List Netif) (lo : Netif) (localIp dest : BitVec 32) : Prop :=
  if localIp = 0 then dest &&& 0xFF = 127 ∨ (netifGetDefault ifs).map Netif.ip = some lo.ip ∨
    (netifGetDefault ifs).map Netif.ip = some 0
  else localIp = lo.ip

theorem exists_default (hlo : netifGetLoopback ifs = some lo) : ∃ netif, netifGetDefault ifs = some netif := by
  unfold netifGetDefault
  rw [hlo]
  cases ifs.find? fun netif => !netif.loopback && netif.up with
  | none => exact ⟨lo, rfl⟩
  | some netif => exact ⟨netif, rfl⟩

theorem connectTo_localIp (hlo : netifGetLoopback ifs = some lo) (hconf : net.Configured ifs) (sock : Sock)
    (ephemeral : BitVec 16) (dest : BitVec 32) (port : BitVec 16) :
    (sock.connectTo (net.route dest) ephemeral dest port).localIp = 0 ∨
      (sock.connectTo (net.route dest) ephemeral dest port).localIp = lo.ip ↔
    LocalAddressFits ifs lo sock.localIp dest := by
  unfold LocalAddressFits Sock.connectTo
  by_cases hunb : sock.localIp = 0
  · rw [if_pos hunb, if_pos hunb]
    unfold NetStack.route
    obtain ⟨netif, hdef⟩ := exists_default hlo
    by_cases hloop : dest &&& 0xFF = 127
    · rw [if_pos hloop, hconf.loopback, hlo]
      exact iff_of_true (.inr rfl) (.inl hloop)
    · rw [if_neg hloop, hconf.default, hdef]
      simp only [Option.map_some, Option.getD_some, hloop, false_or, Option.some.injEq]
      exact or_comm
  · rw [if_neg hunb, if_neg hunb]
    exact or_iff_right hunb

/-- **TCP segments and the address of the socket.** A segment leaves with the source address of its checksum exactly if
that is the address of the interface that leads to its destination. And the answer to a connect to a local address
matches the connecting socket exactly if the connect goes to the address of the loopback interface, from a socket whose
local address is, or becomes, that address. -/
theorem tcp_source_address (ifs : List Netif) (arp : BitVec 32 → Option (List Byte)) (id : BitVec 16) :
    (∀ seg frame, tcpSendSegment ifs arp id seg = some frame →
      (frame.packet.srcIp = seg.srcIp ↔ SourceFits ifs seg.srcIp seg.destIp)) ∧
    ∀ (net : NetStack) (lo : Netif) (s : Nat) (ephemeral : BitVec 16) (dest : BitVec 32) (port : BitVec 16)
      (alloc : Option Nat), net.Configured ifs → netifGetLoopback ifs = some lo → (net.socks s).type = .stream →
      LocalDest ifs dest → ∃ syn, loopPacket ifs arp id ((net.startConnect s ephemeral dest port).socks s).synSegment =
          some syn ∧
        ((net.startConnect s ephemeral dest port).socketFindTcp syn.destIp syn.destPort syn.srcIp syn.srcPort = none →
          ∀ r ∈ (net.startConnect s ephemeral dest port).replies lo.ip alloc syn, ∃ reply,
            loopPacket ifs arp id r = some reply ∧
            (((net.startConnect s ephemeral dest port).socks s).Matches reply ↔
              dest = lo.ip ∧ LocalAddressFits ifs lo (net.socks s).localIp dest)) := by
  refine ⟨fun seg frame heq => srcIp_eq_iff heq, fun net lo s ephemeral dest port alloc hconf hlo hstream hdest => ?_⟩
  have hsock : (net.startConnect s ephemeral dest port).socks s = { (net.socks s).connectTo (net.route dest) ephemeral
      dest port with sndNxt := 500, tcpState := .synSent, state := .connecting } := NetStack.socks_modify_self ..
  generalize net.startConnect s ephemeral dest port = start at hsock ⊢
  have hremote : (start.socks s).remoteIp = dest ∧ (start.socks s).remotePort = port := by
    rw [hsock]
    exact ⟨rfl, rfl⟩
  refine ⟨⟨lo.ip, dest, (start.socks s).synSegment.bytes⟩, ?_, fun hfind r hr => ?_⟩
  · rw [loopPacket_eq hlo (by unfold Sock.synSegment; rw [hremote.1]; exact hdest) rfl]
    unfold Sock.synSegment
    rw [hremote.1]
  · obtain ⟨hsrcIp, hsrcPort, hdestIp, hdestPort, hdata⟩ := NetStack.answers_of_mem_replies hfind hr
    rw [destPort_bytes] at hsrcPort
    rw [srcPort_bytes] at hdestPort
    refine ⟨_, loopPacket_eq hlo (by rw [hdestIp]; exact localDest_ip hlo) hdata, ?_⟩
    unfold Sock.Matches
    rw [srcPort_bytes, destPort_bytes, hsrcPort, hdestPort, hdestIp]
    unfold Sock.synSegment
    -- the ports match, and so does the type
    have hlocal := connectTo_localIp hlo hconf (net.socks s) ephemeral dest port
    have htype : (start.socks s).type = .stream := by
      rw [hsock]
      exact hstream
    have hip : (start.socks s).localIp = ((net.socks s).connectTo (net.route dest) ephemeral dest port).localIp := by
      rw [hsock]
    rw [hremote.1, hip, hlocal]
    simp only [htype, true_and]
    exact and_comm

/-- A network card at `10.0.2.15`, and the loopback interface at `127.0.0.1`. -/
def twoInterfaces : List Netif :=
  [⟨[0x52, 0x54, 0, 0x12, 0x34, 0x56], 0x0f02000a, 0x00ffffff, 0x0202000a, true, false⟩,
    ⟨List.replicate 6 0, 0x0100007f, 0x000000ff, 0, true, true⟩]

def webServer : NetStack where
  socks := fun s => if s = 1 then { Sock.fresh .inet .stream 6 with
      state := .listening, tcpState := .listen, localPort := 80 }
    else Sock.fresh .inet .stream 6
  list := [2, 1]
  loopback := some 0x0100007f
  default := some 0x0f02000a
  sent := []

theorem configured_webServer : webServer.Configured twoInterfaces := ⟨by decide, by decide⟩

def loopback : Netif := ⟨List.replicate 6 0, 0x0100007f, 0x000000ff, 0, true, true⟩

theorem loopback_twoInterfaces : netifGetLoopback twoInterfaces = some loopback := by decide

def connecting (dest : BitVec 32) : NetStack := webServer.startConnect 2 49152 dest 80

def synFrom (dest : BitVec 32) : Packet := ⟨loopback.ip, dest, ((connecting dest).socks 2).synSegment.bytes⟩

theorem loopPacket_connecting {dest : BitVec 32} (hdest : LocalDest twoInterfaces dest) :
    loopPacket twoInterfaces (fun _ => none) 1 ((connecting dest).socks 2).synSegment = some (synFrom dest) :=
  loopPacket_eq loopback_twoInterfaces hdest rfl

def synAck : SentSegment := ⟨0x0100007f, 80, 0x0100007f, 49152, 1000, 501, 0x12, []⟩

/-- A connect to `10.0.2.15` sends a SYN with one address in the checksum and another in the header; and the answer to
a connect to `127.0.0.2` is not for the connecting socket. -/
theorem tcp_source_address_differs :
    (∃ frame, tcpSendSegment twoInterfaces (fun _ => none) 1 ((connecting 0x0f02000a).socks 2).synSegment = some frame ∧
      frame.packet.srcIp ≠ ((connecting 0x0f02000a).socks 2).synSegment.srcIp) ∧
    ∃ syn r reply, loopPacket twoInterfaces (fun _ => none) 1 ((connecting 0x0200007f).socks 2).synSegment = some syn ∧
      (connecting 0x0200007f).replies loopback.ip (some 3) syn = [r] ∧
      loopPacket twoInterfaces (fun _ => none) 1 r = some reply ∧ ¬ ((connecting 0x0200007f).socks 2).Matches reply := by
  constructor
  · have hlocal : LocalDest twoInterfaces ((connecting 0x0f02000a).socks 2).synSegment.destIp := by decide
    obtain ⟨frame, hsend, hnetif, -⟩ := tcpSendSegment_loopback loopback_twoInterfaces hlocal (by decide)
    refine ⟨frame, hsend, ?_⟩
    rw [(tcpSendSegment_some hsend).2, hnetif]
    decide
  · refine ⟨synFrom 0x0200007f, synAck, _, loopPacket_connecting (by decide), by decide,
      loopPacket_eq loopback_twoInterfaces (by decide) rfl, fun hmatch => ?_⟩
    exact absurd hmatch.2.2.2.2 (by decide)

/-- The theorem for a connect to `127.0.0.1`: the answer is for the connecting socket. -/
theorem tcp_source_address_loopback : ∃ reply,
    (connecting loopback.ip).replies loopback.ip (some 3) (synFrom loopback.ip) = [synAck] ∧
    loopPacket twoInterfaces (fun _ => none) 1 synAck = some reply ∧ ((connecting loopback.ip).socks 2).Matches reply := by
  obtain ⟨syn, hsyn, hreplies⟩ := (tcp_source_address twoInterfaces (fun _ => none) 1).2 webServer loopback 2 49152
    loopback.ip 80 (some 3) configured_webServer loopback_twoInterfaces (by decide) (by decide)
  obtain rfl : synFrom loopback.ip = syn := Option.some.inj ((loopPacket_connecting (by decide)).symm.trans hsyn)
  have hreply : (connecting loopback.ip).replies loopback.ip (some 3) (synFrom loopback.ip) = [synAck] := by decide
  obtain ⟨reply, hpacket, hiff⟩ := hreplies (by decide) synAck (hreply ▸ List.mem_singleton_self _)
  exact ⟨reply, hreply, hpacket, hiff.mpr ⟨rfl, by unfold LocalAddressFits; decide⟩⟩

end SzpontOS.Net
