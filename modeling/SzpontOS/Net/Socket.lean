import Mathlib.Tactic.Common
import SzpontOS.Lib.Ring

/-!
# Sockets

The sockets of `socket.c` as far as TCP input and the reads of a stream use them: the list `g_socket_list`, the
receive buffer of each socket, the lookups by address, `socket_enqueue_data`, and the two functions that take
bytes out, `socket_vfs_read` and `sys_recvfrom`. `kmalloc` and the interfaces are parameters.
-/

namespace SzpontOS.Net

open Lib

abbrev Byte := BitVec 8

inductive Domain
  | unix
  | inet
  | other
deriving DecidableEq, Repr

inductive SockType
  | stream
  | dgram
  | raw
  | other
deriving DecidableEq, Repr

inductive SockState
  | unconnected
  | bind
  | listening
  | connecting
  | connected
  | disconnecting
  | closed
deriving DecidableEq, Repr

inductive TcpState
  | closed
  | listen
  | synSent
  | synReceived
  | established
  | finWait1
  | finWait2
  | closeWait
  | closing
  | lastAck
  | timeWait
deriving DecidableEq, Repr

def sockRxBufSize : Nat := 65536

def sockDgramQueueLen : Nat := 32

structure DgramMeta where
  len : Nat
  fromIp : BitVec 32
  fromPort : BitVec 16

/-- `socket_t`; the datagram and accept queues are lists, oldest entry first. -/
structure Sock where
  domain : Domain
  type : SockType
  protocol : Nat
  state : SockState
  tcpState : TcpState
  localIp : BitVec 32
  localPort : BitVec 16
  remoteIp : BitVec 32
  remotePort : BitVec 16
  peer : Option Nat
  sndUna : BitVec 32
  sndNxt : BitVec 32
  rcvNxt : BitVec 32
  rx : RingBuffer Byte
  dgramQueue : List DgramMeta
  acceptQueue : List Nat
  shutdownFlags : BitVec 32

/-- A socket as `socket_create_unlocked` fills it in after `memset`. -/
def Sock.fresh (domain : Domain) (type : SockType) (protocol : Nat) : Sock where
  domain := domain
  type := type
  protocol := protocol
  state := .unconnected
  tcpState := .closed
  localIp := 0
  localPort := 0
  remoteIp := 0
  remotePort := 0
  peer := none
  sndUna := 0
  sndNxt := 0
  rcvNxt := 0
  rx := RingBuffer.empty 0
  dgramQueue := []
  acceptQueue := []
  shutdownFlags := 0

/-- What `tcp_send_segment` is called with. -/
structure SentSegment where
  srcIp : BitVec 32
  srcPort : BitVec 16
  destIp : BitVec 32
  destPort : BitVec 16
  seq : BitVec 32
  ack : BitVec 32
  flags : Byte
  data : List Byte
deriving DecidableEq, Repr

/-- The sockets by address, `g_socket_list`, the addresses of the loopback and the default interface, and the
segments sent so far. -/
structure NetStack where
  socks : Nat → Sock
  list : List Nat
  loopback : Option (BitVec 32)
  default : Option (BitVec 32)
  sent : List SentSegment

namespace NetStack

def setSock (net : NetStack) (s : Nat) (sock : Sock) : NetStack := { net with socks := Function.update net.socks s sock }

/-- `tcp_send_segment`, up to what the network makes of it. -/
def send (net : NetStack) (out : List SentSegment) : NetStack := { net with sent := net.sent ++ out }

/-- The interface that leads to `remoteIp`: addresses are in network order, so the low byte is the first. -/
def route (net : NetStack) (remoteIp : BitVec 32) : Option (BitVec 32) :=
  if remoteIp &&& 0xFF = 127 then net.loopback else net.default

def socketFindTcp (net : NetStack) (localIp : BitVec 32) (localPort : BitVec 16) (remoteIp : BitVec 32)
    (remotePort : BitVec 16) : Option Nat :=
  net.list.find? fun s =>
    (net.socks s).type = .stream ∧ (net.socks s).localPort = localPort ∧
      ((net.socks s).localIp = 0 ∨ (net.socks s).localIp = localIp) ∧ (net.socks s).remotePort = remotePort ∧
      (net.socks s).remoteIp = remoteIp

def socketFindTcpListener (net : NetStack) (localIp : BitVec 32) (localPort : BitVec 16) : Option Nat :=
  net.list.find? fun s =>
    (net.socks s).type = .stream ∧ (net.socks s).tcpState = .listen ∧ (net.socks s).localPort = localPort ∧
      ((net.socks s).localIp = 0 ∨ (net.socks s).localIp = localIp)

/-- `socket_create`, with the address that `kmalloc` returns. -/
def socketCreate (net : NetStack) (alloc : Option Nat) (domain : Domain) (type : SockType) (protocol : Nat) :
    Option Nat × NetStack :=
  match alloc with
  | none => (none, net)
  | some s => (some s, { net.setSock s (Sock.fresh domain type protocol) with list := s :: net.list })

/-- The end of `socket_create_child`. A child that finds the accept queue full is created all the same. -/
def queueChild (net : NetStack) (listener child : Nat) : NetStack :=
  if (net.socks listener).acceptQueue.length < 16 then
    net.setSock listener { net.socks listener with acceptQueue := (net.socks listener).acceptQueue ++ [child] }
  else net

def socketCreateChild (net : NetStack) (listener : Nat) (alloc : Option Nat) (remoteIp : BitVec 32)
    (remotePort : BitVec 16) : Option Nat × NetStack :=
  let l := net.socks listener
  match net.socketCreate alloc l.domain l.type l.protocol with
  | (none, net) => (none, net)
  | (some child, net) =>
    let localIp := if l.localIp = 0 then (net.route remoteIp).getD 0 else l.localIp
    let net := net.setSock child { net.socks child with
      localIp := localIp, localPort := l.localPort, remoteIp := remoteIp, remotePort := remotePort }
    (some child, net.queueChild listener child)

end NetStack

/-- `socket_enqueue_data`: the number of bytes that went into the buffer. -/
def Sock.enqueueData (sock : Sock) (data : List Byte) (fromIp : BitVec 32) (fromPort : BitVec 16) : Nat × Sock :=
  if data = [] then (0, sock)
  else
    let sock := if fromIp ≠ 0 then { sock with remoteIp := fromIp, remotePort := fromPort } else sock
    if (sock.type = .dgram ∨ sock.type = .raw) ∧
        (sockDgramQueueLen ≤ sock.dgramQueue.length ∨ sockRxBufSize < sock.rx.len + data.length) then
      (0, sock)
    else
      let sock := if sock.type = .dgram ∨ sock.type = .raw then
          { sock with dgramQueue := sock.dgramQueue ++ [⟨data.length, fromIp, fromPort⟩] }
        else sock
      let (written, rx) := sock.rx.pushWhile sockRxBufSize data
      (written, { sock with rx := rx })

/-! ## Reads -/

/-- How one pass of a read ends: it returns, or its thread sleeps and tries again. -/
inductive ReadOutcome
  | returns (result : Int) (bytes : List Byte)
  | sleeps
deriving DecidableEq, Repr

def ReadOutcome.bytes : ReadOutcome → List Byte
  | .returns _ bytes => bytes
  | .sleeps => []

def Sock.copyOut (sock : Sock) (size : Nat) (nonblock : Bool) : ReadOutcome × Sock :=
  if sock.type = .dgram ∨ sock.type = .raw then
    match sock.dgramQueue with
    | [] => (.returns (if nonblock then -11 else 0) [], sock)
    | m :: queue =>
      let toRead := min size m.len
      let (bytes, rx) := sock.rx.copyOut sockRxBufSize toRead
      -- the rest of a datagram that does not fit the caller's buffer is dropped
      let head := if toRead < m.len then (rx.head + (m.len - toRead)) % sockRxBufSize else rx.head
      (.returns toRead bytes,
        { sock with dgramQueue := queue, rx := { rx with head := head, len := sock.rx.len - m.len } })
  else
    let toRead := min size sock.rx.len
    let (bytes, rx) := sock.rx.pop sockRxBufSize toRead
    (.returns toRead bytes, { sock with rx := rx })

namespace NetStack

/-- Nothing can be read from the socket yet. -/
def drained (net : NetStack) (s : Nat) : Bool :=
  let sock := net.socks s
  if sock.domain ≠ .unix ∧ (sock.type = .dgram ∨ sock.type = .raw) then sock.dgramQueue.isEmpty else sock.rx.len = 0

/-- Nothing will ever come to a socket that is drained. -/
def atEnd (net : NetStack) (s : Nat) : Bool :=
  let sock := net.socks s
  match sock.domain with
  | .unix =>
    sock.state = .closed || match sock.peer with
      | none => true
      | some p => (net.socks p).state = .closed
  | _ =>
    if sock.type = .dgram ∨ sock.type = .raw then sock.state = .closed
    else sock.state = .closed ∨ sock.type = .stream ∧ (sock.tcpState = .closeWait ∨ sock.tcpState = .closed)

/-- The common part of the two reads. -/
def receive (net : NetStack) (s size : Nat) (nonblock : Bool) : ReadOutcome × NetStack :=
  if net.drained s then
    if net.atEnd s then (.returns 0 [], net)
    else if nonblock then (.returns (-11) [], net)
    else (.sleeps, net)
  else
    let (out, sock) := (net.socks s).copyOut size nonblock
    (out, net.setSock s sock)

def socketVfsRead (net : NetStack) (s size : Nat) (nonblock : Bool) : ReadOutcome × NetStack :=
  if size = 0 then (.returns 0 [], net)
  else if (net.socks s).shutdownFlags &&& 1 ≠ 0 then (.returns 0 [], net)
  else net.receive s size nonblock

/-- `sys_recvfrom`; `nonblock` is the `O_NONBLOCK` flag of the descriptor. -/
def sysRecvfrom (net : NetStack) (s len : Nat) (flags : BitVec 32) (nonblock : Bool) : ReadOutcome × NetStack :=
  net.receive s len (nonblock || flags &&& 0x40 ≠ 0)

end NetStack

end SzpontOS.Net
