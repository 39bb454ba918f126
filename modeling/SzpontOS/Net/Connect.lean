import SzpontOS.Net.Ipv4

/-!
# `sys_connect` and `sys_accept`

A segment to a local address comes back at once: `loopback_send` calls the input handler, so `tcp_input` runs inside
the `tcp_send_segment` of the sender. `tcpInputWith` is `tcp_input` with what sending does as a parameter, and
`loopSend` ties the two together. While `sys_connect` and `sys_accept` wait, nothing arrives on the other interfaces.
-/

namespace SzpontOS.Net

open Function

/-- What `tcp_send_segment` does to the sockets. -/
abbrev Sender := NetStack → SentSegment → NetStack

namespace NetStack

def modify (net : NetStack) (s : Nat) (f : Sock → Sock) : NetStack := net.setSock s (f (net.socks s))

def sendAck (send : Sender) (net : NetStack) (s : Nat) : NetStack := send net (net.socks s).ackSegment

/-- The state machine of `tcp_input`, with what each segment leads to while it is being sent. -/
def processWith (send : Sender) (net : NetStack) (s : Nat) (p : Packet) : NetStack :=
  match (net.socks s).tcpState with
  | .synSent =>
    if p.syn ∧ p.hasAck then
      (net.modify s fun sock => { sock with
        rcvNxt := p.seq + 1, sndUna := p.ack, tcpState := .established, state := .connected }).sendAck send s
    else net
  | .synReceived =>
    if p.hasAck then net.modify s fun sock => { sock with tcpState := .established, state := .connected } else net
  | .established =>
    let net := if p.payload = [] then net
      else (net.modify s fun sock =>
        let sock := (sock.enqueueData p.payload p.srcIp p.srcPort).2
        { sock with rcvNxt := sock.rcvNxt + BitVec.ofNat 32 p.payload.length }).sendAck send s
    if p.fin then
      (net.modify s fun sock => { sock with
        rcvNxt := sock.rcvNxt + 1, tcpState := .closeWait, state := .closed }).sendAck send s
    else net
  | .finWait1 =>
    let net := if p.hasAck then net.modify s fun sock => { sock with tcpState := .finWait2 } else net
    if p.fin then
      ((net.modify s fun sock => { sock with rcvNxt := sock.rcvNxt + 1 }).sendAck send s).modify s fun sock =>
        { sock with tcpState := .timeWait }
    else net
  | .finWait2 =>
    if p.fin then
      ((net.modify s fun sock => { sock with rcvNxt := sock.rcvNxt + 1 }).sendAck send s).modify s fun sock =>
        { sock with tcpState := .closed, state := .closed }
    else net
  | .lastAck =>
    if p.hasAck then net.modify s fun sock => { sock with tcpState := .closed, state := .closed } else net
  | _ => net

/-- `tcp_input` of a segment for socket `s`. -/
def inputTo (send : Sender) (netifIp : BitVec 32) (net : NetStack) (s : Nat) (p : Packet) : NetStack :=
  if p.rst then net.modify s fun sock => { sock with tcpState := .closed, state := .closed }
  else
    processWith send (net.modify s fun sock => if sock.localIp = 0 then { sock with localIp := netifIp } else sock) s p

/-- `tcp_input` of a SYN that reached a listener for which the child was made. -/
def greet (send : Sender) (netifIp : BitVec 32) (net : NetStack) (child : Nat) (p : Packet) : NetStack :=
  (send (net.modify child fun sock => { sock with rcvNxt := p.seq + 1, sndNxt := 1000, tcpState := .synReceived })
    ⟨netifIp, p.destPort, p.srcIp, p.srcPort, 1000, p.seq + 1, 0x12, []⟩).modify child fun sock =>
      { sock with sndNxt := sock.sndNxt + 1 }

def refusal (netifIp : BitVec 32) (p : Packet) : SentSegment :=
  ⟨netifIp, p.destPort, p.srcIp, p.srcPort, p.ack,
    p.seq + (if p.payload = [] then 1 else BitVec.ofNat 32 p.payload.length), 0x14, []⟩

/-- `tcp_input`; `alloc` is the address that `kmalloc` returns. -/
def tcpInputWith (send : Sender) (alloc : NetStack → Option Nat) (netifIp : BitVec 32) (net : NetStack) (p : Packet) :
    NetStack :=
  if p.complete then
    match net.socketFindTcp p.destIp p.destPort p.srcIp p.srcPort with
    | some s => net.inputTo send netifIp s p
    | none =>
      if p.syn then
        match net.socketFindTcpListener p.destIp p.destPort with
        | some listener =>
          match net.socketCreateChild listener (alloc net) p.srcIp p.srcPort with
          | (none, net) => net
          | (some child, net) => net.greet send netifIp child p
        | none => if p.rst then net else send net (refusal netifIp p)
      else net
  else net

/-- `tcp_send_segment` on a machine with these interfaces. A segment to a local address is received inside the call;
`fuel` bounds the nesting. The identification of the packets plays no role. -/
def loopSend (ifs : List Netif) (arp : BitVec 32 → Option (List Byte)) (alloc : NetStack → Option Nat) : Nat → Sender
  | 0, net, _ => net
  | fuel + 1, net, seg =>
    match tcpSendSegment ifs arp 0 seg with
    | none => net
    | some frame =>
      if frame.netif.loopback then
        (ipv4Input frame.netif frame.packet).elim net
          (net.tcpInputWith (loopSend ifs arp alloc fuel) alloc frame.netif.ip)
      else net

end NetStack

/-- The addresses that `sys_connect` gives to an internet socket. -/
def Sock.connectTo (sock : Sock) (route : Option (BitVec 32)) (ephemeral : BitVec 16) (ip : BitVec 32)
    (port : BitVec 16) : Sock :=
  { sock with
    remoteIp := ip
    remotePort := port
    localPort := if sock.localPort = 0 then ephemeral else sock.localPort
    localIp := if sock.localIp = 0 then route.getD 0 else sock.localIp }

def Sock.synSegment (sock : Sock) : SentSegment :=
  ⟨sock.localIp, sock.localPort, sock.remoteIp, sock.remotePort, 500, 0, 0x02, []⟩

namespace NetStack

def startConnect (net : NetStack) (s : Nat) (ephemeral : BitVec 16) (ip : BitVec 32) (port : BitVec 16) : NetStack :=
  net.modify s fun sock => { sock.connectTo (net.route ip) ephemeral ip port with
    sndNxt := 500, tcpState := .synSent, state := .connecting }

/-- `sys_connect` of an internet socket; `ephemeral` is `g_ephemeral_port`. -/
def sysConnectInet (send : Sender) (net : NetStack) (s : Nat) (ephemeral : BitVec 16) (ip : BitVec 32)
    (port : BitVec 16) (nonblock : Bool) : NetStack × Int :=
  if (net.socks s).type = .stream then
    let net := net.startConnect s ephemeral ip port
    let net := (send net (net.socks s).synSegment).modify s fun sock => { sock with sndNxt := sock.sndNxt + 1 }
    if (net.socks s).tcpState = .established then (net.modify s fun sock => { sock with state := .connected }, 0)
    else if nonblock then (net, -115)
    else (net, -1)
  else (net.modify s fun sock => { sock.connectTo (net.route ip) ephemeral ip port with state := .connected }, 0)

end NetStack

namespace NetStack

variable (net : NetStack) (s : Nat)

@[simp] theorem socks_modify_self (f : Sock → Sock) : (net.modify s f).socks s = f (net.socks s) := update_self ..

theorem socks_modify_ne (f : Sock → Sock) {x : Nat} (hx : x ≠ s) : (net.modify s f).socks x = net.socks x :=
  update_of_ne hx ..

end NetStack

end SzpontOS.Net
