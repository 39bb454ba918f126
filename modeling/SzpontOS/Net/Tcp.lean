import SzpontOS.Net.Socket

/-!
# TCP input

`tcp_input` on the bytes of a segment: the header, the lookup of the socket, the creation of a child for a SYN
to a listener, and the state machine.
-/

namespace SzpontOS.Net

open Lib

/-- What `tcp_input` is given: the addresses of the IP header and the bytes after it. -/
structure Packet where
  srcIp : BitVec 32
  destIp : BitVec 32
  data : List Byte

namespace Packet

/-- `ntohs` of the two bytes at `i`. -/
def be16 (p : Packet) (i : Nat) : BitVec 16 := p.data.getD i 0 ++ p.data.getD (i + 1) 0

/-- `ntohl` of the four bytes at `i`. -/
def be32 (p : Packet) (i : Nat) : BitVec 32 := p.be16 i ++ p.be16 (i + 2)

def srcPort (p : Packet) : BitVec 16 := p.be16 0

def destPort (p : Packet) : BitVec 16 := p.be16 2

def seq (p : Packet) : BitVec 32 := p.be32 4

def ack (p : Packet) : BitVec 32 := p.be32 8

def hlen (p : Packet) : Nat := (p.data.getD 12 0 >>> 4).toNat * 4

def flags (p : Packet) : Byte := p.data.getD 13 0

def payload (p : Packet) : List Byte := p.data.drop p.hlen

def fin (p : Packet) : Bool := p.flags &&& 0x01 ≠ 0

def syn (p : Packet) : Bool := p.flags &&& 0x02 ≠ 0

def rst (p : Packet) : Bool := p.flags &&& 0x04 ≠ 0

def hasAck (p : Packet) : Bool := p.flags &&& 0x10 ≠ 0

def complete (p : Packet) : Bool := 20 ≤ p.data.length ∧ 20 ≤ p.hlen ∧ p.hlen ≤ p.data.length

end Packet

/-- An acknowledgement of everything up to `rcv_nxt`. -/
def Sock.ackSegment (sock : Sock) : SentSegment :=
  ⟨sock.localIp, sock.localPort, sock.remoteIp, sock.remotePort, sock.sndNxt, sock.rcvNxt, 0x10, []⟩

/-- The payload of a segment in `TCP_STATE_ESTABLISHED`. -/
def Sock.takePayload (sock : Sock) (p : Packet) : Sock × List SentSegment :=
  if p.payload = [] then (sock, [])
  else
    let sock := (sock.enqueueData p.payload p.srcIp p.srcPort).2
    let sock := { sock with rcvNxt := sock.rcvNxt + BitVec.ofNat 32 p.payload.length }
    (sock, [sock.ackSegment])

/-- The state machine of `tcp_input`. -/
def Sock.process (sock : Sock) (p : Packet) : Sock × List SentSegment :=
  match sock.tcpState with
  | .synSent =>
    if p.syn ∧ p.hasAck then
      let sock := { sock with rcvNxt := p.seq + 1, sndUna := p.ack, tcpState := .established, state := .connected }
      (sock, [sock.ackSegment])
    else (sock, [])
  | .synReceived =>
    if p.hasAck then ({ sock with tcpState := .established, state := .connected }, []) else (sock, [])
  | .established =>
    let (sock, out) := sock.takePayload p
    if p.fin then
      let sock := { sock with rcvNxt := sock.rcvNxt + 1, tcpState := .closeWait, state := .closed }
      (sock, out ++ [sock.ackSegment])
    else (sock, out)
  | .finWait1 =>
    let sock := if p.hasAck then { sock with tcpState := .finWait2 } else sock
    if p.fin then
      let sock := { sock with rcvNxt := sock.rcvNxt + 1 }
      ({ sock with tcpState := .timeWait }, [sock.ackSegment])
    else (sock, [])
  | .finWait2 =>
    if p.fin then
      let sock := { sock with rcvNxt := sock.rcvNxt + 1 }
      ({ sock with tcpState := .closed, state := .closed }, [sock.ackSegment])
    else (sock, [])
  | .lastAck => if p.hasAck then ({ sock with tcpState := .closed, state := .closed }, []) else (sock, [])
  | _ => (sock, [])

/-- What a segment does to the socket it is for. -/
def Sock.input (sock : Sock) (netifIp : BitVec 32) (p : Packet) : Sock × List SentSegment :=
  if p.rst then ({ sock with tcpState := .closed, state := .closed }, [])
  else Sock.process (if sock.localIp = 0 then { sock with localIp := netifIp } else sock) p

namespace NetStack

def delivered (net : NetStack) (p : Packet) : Option Nat :=
  if p.complete then net.socketFindTcp p.destIp p.destPort p.srcIp p.srcPort else none

def inputUnmatched (net : NetStack) (netifIp : BitVec 32) (alloc : Option Nat) (p : Packet) : NetStack :=
  if p.syn then
    match net.socketFindTcpListener p.destIp p.destPort with
    | some listener =>
      match net.socketCreateChild listener alloc p.srcIp p.srcPort with
      | (none, net) => net
      | (some child, net) =>
        let sock := { net.socks child with rcvNxt := p.seq + 1, sndNxt := 1000, tcpState := .synReceived }
        (net.setSock child { sock with sndNxt := sock.sndNxt + 1 }).send
          [⟨netifIp, p.destPort, p.srcIp, p.srcPort, sock.sndNxt, sock.rcvNxt, 0x12, []⟩]
    | none =>
      if p.rst then net
      else net.send [⟨netifIp, p.destPort, p.srcIp, p.srcPort, p.ack,
        p.seq + (if p.payload = [] then 1 else BitVec.ofNat 32 p.payload.length), 0x14, []⟩]
  else net

def tcpInput (net : NetStack) (netifIp : BitVec 32) (alloc : Option Nat) (p : Packet) : NetStack :=
  if p.complete then
    match net.socketFindTcp p.destIp p.destPort p.srcIp p.srcPort with
    | none => net.inputUnmatched netifIp alloc p
    | some s =>
      let (sock, out) := (net.socks s).input netifIp p
      (net.setSock s sock).send out
  else net

end NetStack

end SzpontOS.Net
