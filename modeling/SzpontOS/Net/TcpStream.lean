import Mathlib.Logic.Relation
import SzpontOS.Lib.Run
import SzpontOS.Net.Tcp

/-!
# The byte stream of a connection

`tcp_input` takes the payload of every segment that comes in `TCP_STATE_ESTABLISHED`, wherever it starts, and counts all
of it, whether it fits or not. The stream arrives whole and `rcv_nxt` is right as long as each payload starts at the
first byte not taken yet and fits into the buffer (`tcp_stream_integrity`). A segment that comes twice is read twice,
and one that does not fit is acknowledged (`tcp_stream_broken`).
-/

namespace SzpontOS.Net

open Lib Relation List BitVec Sock NetStack

/-! ## Runs -/

/-- **A segment of the stream.** Its payload stands at offset `k` of the bytes that a peer with initial sequence
number `irs` sends; a FIN stands at the end. -/
structure SegmentOf (stream : List Byte) (irs : BitVec 32) (k : Nat) (p : Packet) : Prop where
  seq : p.syn = false → p.seq = irs + 1 + BitVec.ofNat 32 k
  syn : p.syn = true → p.seq = irs ∧ k = 0
  payload : p.payload = (stream.drop k).take p.payload.length
  fin : p.fin = true → k + p.payload.length = stream.length

/-- A socket with its network stack, what programs have read from it, and whether a SYN and a FIN of the peer
were accepted. -/
structure Stream where
  net : NetStack
  got : List Byte
  syn : Bool
  fin : Bool

/-- The state machine takes the SYN. -/
def Sock.acceptsSyn (sock : Sock) (p : Packet) : Bool :=
  !p.rst && p.syn && p.hasAck && decide (sock.tcpState = .synSent)

/-- The state machine takes the FIN. -/
def Sock.acceptsFin (sock : Sock) (p : Packet) : Bool :=
  !p.rst && p.fin && decide (sock.tcpState = .established ∨ sock.tcpState = .finWait1 ∨ sock.tcpState = .finWait2)

namespace Stream

variable {s : Nat} {stream : List Byte} {irs : BitVec 32} {w w' : Stream}

/-- The bytes placed in the receive buffer so far: those read and those still there. -/
def placed (s : Nat) (w : Stream) : Nat := w.got.length + (w.net.socks s).rx.len

def input (s : Nat) (w : Stream) (netifIp : BitVec 32) (alloc : Option Nat) (p : Packet) : Stream where
  net := w.net.tcpInput netifIp alloc p
  got := w.got
  syn := w.syn || decide (w.net.delivered p = some s) && (w.net.socks s).acceptsSyn p
  fin := w.fin || decide (w.net.delivered p = some s) && (w.net.socks s).acceptsFin p

def read (w : Stream) (result : ReadOutcome × NetStack) : Stream :=
  { w with net := result.2, got := w.got ++ result.1.bytes }

/-- What the rest of the system does to socket `s`: it may send and set options, and it may end an open
connection. -/
structure Elsewhere (s : Nat) (net net' : NetStack) : Prop where
  listed : s ∈ net'.list
  type : (net'.socks s).type = (net.socks s).type
  rx : (net'.socks s).rx = (net.socks s).rx
  rcvNxt : (net'.socks s).rcvNxt = (net.socks s).rcvNxt
  tcpState : (net'.socks s).tcpState = (net.socks s).tcpState ∨
    ((net.socks s).tcpState = .established ∨ (net.socks s).tcpState = .synReceived) ∧ (net'.socks s).tcpState = .finWait1

/-- **One step.** Segments for the socket are segments of the stream that `Allowed` lets in; segments for others
are arbitrary. Another thread may run between the wait of a read and its copying. -/
inductive Step (s : Nat) (stream : List Byte) (irs : BitVec 32) (Allowed : Stream → Packet → Nat → Prop) :
    Stream → Stream → Prop
  | input {w : Stream} (netifIp : BitVec 32) (alloc : Option Nat) (p : Packet)
      (hfresh : ∀ a, alloc = some a → a ∉ w.net.list)
      (hvalid : w.net.delivered p = some s → p.rst = true ∨ ∃ k, SegmentOf stream irs k p ∧ Allowed w p k) :
      Step s stream irs Allowed w (w.input s netifIp alloc p)
  | vfsRead {w : Stream} (size : Nat) (nonblock : Bool) :
      Step s stream irs Allowed w (w.read (w.net.socketVfsRead s size nonblock))
  | recvfrom {w : Stream} (len : Nat) (flags : BitVec 32) (nonblock : Bool) :
      Step s stream irs Allowed w (w.read (w.net.sysRecvfrom s len flags nonblock))
  | copy {w : Stream} (size : Nat) (nonblock : Bool) :
      Step s stream irs Allowed w (w.read (((w.net.socks s).copyOut size nonblock).1,
        w.net.setSock s ((w.net.socks s).copyOut size nonblock).2))
  | elsewhere {w : Stream} (net : NetStack) (h : Elsewhere s w.net net) :
      Step s stream irs Allowed w { w with net := net }

/-- A payload that is taken starts at the first byte not taken yet, and there is room for it. -/
def Continues (s : Nat) (w : Stream) (p : Packet) (k : Nat) : Prop :=
  (w.net.socks s).tcpState = .established → p.payload ≠ [] →
    k = w.placed s ∧ p.payload.length ≤ sockRxBufSize - (w.net.socks s).rx.len

/-- The connection opens: the socket has sent its SYN, or has just been created for the peer's. -/
structure Opening (s : Nat) (irs : BitVec 32) (w : Stream) : Prop where
  listed : s ∈ w.net.list
  type : (w.net.socks s).type = .stream
  rx : (w.net.socks s).rx = RingBuffer.empty 0
  got : w.got = []
  fin : w.fin = false
  tcpState : (w.net.socks s).tcpState = .synSent ∧ w.syn = false ∨
    (w.net.socks s).tcpState = .synReceived ∧ w.syn = true ∧ (w.net.socks s).rcvNxt = irs + 1

/-! ## The invariant -/

/-- What holds in every state: the buffer continues what was read, and `rcv_nxt` counts it. -/
structure Inv (s : Nat) (stream : List Byte) (irs : BitVec 32) (w : Stream) : Prop where
  listed : s ∈ w.net.list
  type : (w.net.socks s).type = .stream
  ring : (w.net.socks s).rx.WF sockRxBufSize
  bytes : w.got ++ (w.net.socks s).rx.contents sockRxBufSize <+: stream
  unopened : w.syn = false → w.placed s = 0 ∧ w.fin = false ∧
    ((w.net.socks s).tcpState = .synSent ∨ (w.net.socks s).tcpState = .closed)
  count : w.syn = true → (w.net.socks s).tcpState ≠ .synSent ∧
    (w.net.socks s).rcvNxt = irs + 1 + BitVec.ofNat 32 (w.placed s) + (if w.fin then 1 else 0)
  ended : w.fin = true → (w.net.socks s).tcpState = .closeWait ∨ (w.net.socks s).tcpState = .timeWait ∨
    (w.net.socks s).tcpState = .closed

theorem length_bytes (w : Stream) : (w.got ++ (w.net.socks s).rx.contents sockRxBufSize).length = w.placed s := by
  rw [length_append, RingBuffer.length_contents, placed]

/-! ## What a segment does to its socket -/

end Stream

variable {netifIp : BitVec 32} {alloc : Option Nat} {p : Packet} {w' w : Stream} {n : Nat}

section Reaction

variable {sock sock' : Sock}

/-- The ways in which the receiving side of a socket answers a segment. -/
inductive Sock.Reaction (sock : Sock) (p : Packet) (sock' : Sock) : Prop
  | reset (hrst : p.rst = true) (hrx : sock'.rx = sock.rx) (hnext : sock'.rcvNxt = sock.rcvNxt)
      (hstate' : sock'.tcpState = .closed)
  | opened (hrst : p.rst = false) (hsyn : p.syn = true) (hack : p.hasAck = true) (hstate : sock.tcpState = .synSent)
      (hrx : sock'.rx = sock.rx) (hnext : sock'.rcvNxt = p.seq + 1) (hstate' : sock'.tcpState = .established)
  | taken (hrst : p.rst = false) (hstate : sock.tcpState = .established)
      (hrx : sock'.rx = (sock.rx.pushWhile sockRxBufSize p.payload).2)
      (hnext : sock'.rcvNxt = sock.rcvNxt + BitVec.ofNat 32 p.payload.length + (if p.fin then 1 else 0))
      (hstate' : sock'.tcpState = if p.fin then .closeWait else .established)
  | finished (hrst : p.rst = false) (hfin : p.fin = true)
      (hstate : sock.tcpState = .finWait1 ∨ sock.tcpState = .finWait2) (hrx : sock'.rx = sock.rx)
      (hnext : sock'.rcvNxt = sock.rcvNxt + 1) (hstate' : sock'.tcpState = .timeWait ∨ sock'.tcpState = .closed)
  | quiet (hrst : p.rst = false) (hsyn : sock.acceptsSyn p = false) (hfin : sock.acceptsFin p = false)
      (hrx : sock'.rx = sock.rx) (hnext : sock'.rcvNxt = sock.rcvNxt)
      (hstate' : sock'.tcpState = sock.tcpState ∨ sock.tcpState = .synReceived ∧ sock'.tcpState = .established ∨
        sock.tcpState = .finWait1 ∧ sock'.tcpState = .finWait2 ∨ sock.tcpState = .lastAck ∧ sock'.tcpState = .closed)

theorem Sock.enqueueData_stream (htype : sock.type = .stream) (data : List Byte) (ip : BitVec 32) (port : BitVec 16) :
    (sock.enqueueData data ip port).2.rx = (sock.rx.pushWhile sockRxBufSize data).2 ∧
      (sock.enqueueData data ip port).2.rcvNxt = sock.rcvNxt ∧
      (sock.enqueueData data ip port).2.tcpState = sock.tcpState ∧
      (sock.enqueueData data ip port).2.type = sock.type := by
  unfold enqueueData
  split_ifs <;> simp_all [RingBuffer.pushWhile]

theorem Sock.takePayload_stream (htype : sock.type = .stream) (p : Packet) :
    (sock.takePayload p).1.rx = (sock.rx.pushWhile sockRxBufSize p.payload).2 ∧
      (sock.takePayload p).1.rcvNxt = sock.rcvNxt + BitVec.ofNat 32 p.payload.length ∧
      (sock.takePayload p).1.tcpState = sock.tcpState ∧ (sock.takePayload p).1.type = sock.type := by
  unfold takePayload
  split_ifs with hnil
  · rw [hnil]
    simp [RingBuffer.pushWhile]
  · obtain ⟨hrx, hnext, hst, htype'⟩ := enqueueData_stream htype p.payload p.srcIp p.srcPort
    exact ⟨hrx, congrArg (· + _) hnext, hst, htype'⟩

theorem Sock.Reaction.ignored (hrst : p.rst = false) (hsyn : sock.acceptsSyn p = false)
    (hfin : sock.acceptsFin p = false) : sock.Reaction p sock :=
  .quiet hrst hsyn hfin rfl rfl (.inl rfl)

theorem Sock.process_reaction (htype : sock.type = .stream) (hrst : p.rst = false) :
    (sock.process p).1.type = .stream ∧ sock.Reaction p (sock.process p).1 := by
  unfold process
  cases hst : sock.tcpState with
  | synSent =>
    have hfin : sock.acceptsFin p = false := by simp [acceptsFin, hst]
    dsimp only
    split_ifs with hflag
    · exact ⟨htype, .opened hrst hflag.1 hflag.2 hst rfl rfl rfl⟩
    · refine ⟨htype, .ignored hrst ?_ hfin⟩
      rw [acceptsSyn, Bool.and_assoc, Bool.and_assoc, ← Bool.and_assoc p.syn]
      simp_all
  | synReceived =>
    have hsyn : sock.acceptsSyn p = false := by simp [acceptsSyn, hst]
    have hfin : sock.acceptsFin p = false := by simp [acceptsFin, hst]
    dsimp only
    split_ifs
    · exact ⟨htype, .quiet hrst hsyn hfin rfl rfl (.inr (.inl ⟨hst, rfl⟩))⟩
    · exact ⟨htype, .ignored hrst hsyn hfin⟩
  | established =>
    obtain ⟨hrx, hnext, hst', htype'⟩ := takePayload_stream htype p
    dsimp only
    split_ifs with hfin
    · refine ⟨htype'.trans htype, .taken hrst hst hrx ?_ (by rw [if_pos hfin])⟩
      rw [if_pos hfin, ← hnext]
    · refine ⟨htype'.trans htype, .taken hrst hst hrx ?_ ?_⟩
      · rw [if_neg hfin]
        exact hnext.trans (BitVec.add_zero _).symm
      · rw [if_neg hfin]
        exact hst'.trans hst
  | finWait1 =>
    have hsyn : sock.acceptsSyn p = false := by simp [acceptsSyn, hst]
    dsimp only
    split_ifs with hfin hack hack
    · exact ⟨htype, .finished hrst hfin (.inl hst) rfl rfl (.inl rfl)⟩
    · exact ⟨htype, .finished hrst hfin (.inl hst) rfl rfl (.inl rfl)⟩
    · exact ⟨htype, .quiet hrst hsyn (by simp [acceptsFin, hfin]) rfl rfl (.inr (.inr (.inl ⟨hst, rfl⟩)))⟩
    · exact ⟨htype, .ignored hrst hsyn (by simp [acceptsFin, hfin])⟩
  | finWait2 =>
    have hsyn : sock.acceptsSyn p = false := by simp [acceptsSyn, hst]
    dsimp only
    split_ifs with hfin
    · exact ⟨htype, .finished hrst hfin (.inr hst) rfl rfl (.inr rfl)⟩
    · exact ⟨htype, .ignored hrst hsyn (by simp [acceptsFin, hfin])⟩
  | lastAck =>
    have hsyn : sock.acceptsSyn p = false := by simp [acceptsSyn, hst]
    have hfin : sock.acceptsFin p = false := by simp [acceptsFin, hst]
    dsimp only
    split_ifs
    · exact ⟨htype, .quiet hrst hsyn hfin rfl rfl (.inr (.inr (.inr ⟨hst, rfl⟩)))⟩
    · exact ⟨htype, .ignored hrst hsyn hfin⟩
  | closed | listen | closeWait | closing | timeWait =>
    exact ⟨htype, .ignored hrst (by simp [acceptsSyn, hst]) (by simp [acceptsFin, hst])⟩

theorem Sock.input_reaction (htype : sock.type = .stream) (netifIp : BitVec 32) (p : Packet) :
    (sock.input netifIp p).1.type = .stream ∧ sock.Reaction p (sock.input netifIp p).1 := by
  unfold input
  split_ifs with hrst hip
  · exact ⟨htype, .reset hrst rfl rfl rfl⟩
  · have hrst' : p.rst = false := by simpa using hrst
    obtain ⟨htype', hreac⟩ : (process { sock with localIp := netifIp } p).1.type = .stream ∧
          Sock.Reaction { sock with localIp := netifIp } p (process { sock with localIp := netifIp } p).1 :=
      process_reaction htype hrst'
    refine ⟨htype', ?_⟩
    cases hreac with
    | reset h => exact absurd h hrst
    | opened _ hsyn hack hst hrx hnext hst' => exact .opened hrst' hsyn hack hst hrx hnext hst'
    | taken _ hst hrx hnext hst' => exact .taken hrst' hst hrx hnext hst'
    | finished _ hfin hst hrx hnext hst' => exact .finished hrst' hfin hst hrx hnext hst'
    | quiet _ hsyn hfin hrx hnext hst' => exact .quiet hrst' hsyn hfin hrx hnext hst'
  · exact process_reaction htype (by simpa using hrst)

theorem Sock.input_data (htype : sock.type = .stream) (hst : sock.tcpState = .established) (hrst : p.rst = false)
    (hfin : p.fin = false) (hip : sock.localIp ≠ 0) (hsrc : p.srcIp ≠ 0) (hp : p.payload ≠ []) :
    (sock.input netifIp p).1 = { sock with
      remoteIp := p.srcIp, remotePort := p.srcPort, rx := (sock.rx.pushWhile sockRxBufSize p.payload).2,
      rcvNxt := sock.rcvNxt + BitVec.ofNat 32 p.payload.length } := by
  have htook : (sock.takePayload p).1 = { sock with
      remoteIp := p.srcIp, remotePort := p.srcPort, rx := (sock.rx.pushWhile sockRxBufSize p.payload).2,
      rcvNxt := sock.rcvNxt + BitVec.ofNat 32 p.payload.length } := by
    unfold takePayload enqueueData
    rw [if_neg hp, if_neg hp, if_pos hsrc]
    simp [htype]
  unfold input process
  rw [if_neg (by simp [hrst]), if_neg hip, hst]
  dsimp only
  rw [if_neg (by simp [hfin])]
  rwa [hst] at htook

end Reaction

/-! ## Other sockets -/

section Elsewhere

variable {net : NetStack} {s : Nat}

theorem socks_setSock_self (net : NetStack) (s : Nat) (sock : Sock) : (net.setSock s sock).socks s = sock :=
  Function.update_self (β := fun _ => Sock) s sock net.socks

section

variable (netifIp : BitVec 32) (alloc : Option Nat) (h : net.delivered p = some s)

include h

theorem delivered_input :
    net.tcpInput netifIp alloc p = (net.setSock s ((net.socks s).input netifIp p).1).send ((net.socks s).input netifIp p).2 := by
  unfold delivered at h
  unfold tcpInput
  split_ifs at h with hcomp
  rw [if_pos hcomp, h]

theorem socks_delivered : (net.tcpInput netifIp alloc p).socks s = ((net.socks s).input netifIp p).1 := by
  rw [delivered_input netifIp alloc h]
  exact socks_setSock_self ..

end

theorem Stream.Elsewhere.of_queue {net' : NetStack} (hs : s ∈ net'.list)
    (h : ∃ queue, net'.socks s = { net.socks s with acceptQueue := queue }) : Stream.Elsewhere s net net' := by
  obtain ⟨queue, hsock⟩ := h
  refine ⟨hs, ?_, ?_, ?_, .inl ?_⟩
  all_goals rw [hsock]

theorem socks_setSock_ne {x : Nat} (hx : s ≠ x) (sock : Sock) : (net.setSock x sock).socks s = net.socks s :=
  Function.update_of_ne hx ..

theorem list_queueChild (net : NetStack) (listener child : Nat) : (net.queueChild listener child).list = net.list := by
  unfold queueChild
  split_ifs <;> rfl

theorem socks_queueChild (net : NetStack) (listener child x : Nat) :
    ∃ queue, (net.queueChild listener child).socks x = { net.socks x with acceptQueue := queue } := by
  unfold queueChild
  split_ifs
  · by_cases hx : x = listener
    · subst hx
      exact ⟨_, socks_setSock_self ..⟩
    · exact ⟨_, socks_setSock_ne hx _⟩
  · exact ⟨_, rfl⟩

/-- A new child is the only new socket, and of the others only the listener changes, in its accept queue. -/
theorem socketCreateChild_spec (net : NetStack) (listener : Nat) (alloc : Option Nat) (remoteIp : BitVec 32)
    (remotePort : BitVec 16) :
    match net.socketCreateChild listener alloc remoteIp remotePort with
    | (none, net') => net' = net
    | (some c, net') => alloc = some c ∧ net'.list = c :: net.list ∧
      ∀ x, x ≠ c → ∃ queue, net'.socks x = { net.socks x with acceptQueue := queue } := by
  cases alloc with
  | none => rfl
  | some c =>
    refine ⟨rfl, list_queueChild .., fun x hx => ?_⟩
    obtain ⟨queue, hque⟩ := socks_queueChild _ listener c x
    refine ⟨queue, hque.trans ?_⟩
    rw [socks_setSock_ne hx]
    rw [socks_setSock_ne hx]

section

variable (netifIp : BitVec 32) (hs : s ∈ net.list) (hnew : ∀ a, alloc = some a → a ∉ net.list)

include hs hnew

theorem inputUnmatched_elsewhere (p : Packet) : Stream.Elsewhere s net (net.inputUnmatched netifIp alloc p) := by
  have hsame : ∀ out, Stream.Elsewhere s net (net.send out) := fun _ => .of_queue hs ⟨_, rfl⟩
  have hnone : Stream.Elsewhere s net net := .of_queue hs ⟨_, rfl⟩
  unfold inputUnmatched
  by_cases hsyn : p.syn = true
  · rw [if_pos hsyn]
    rcases hl : net.socketFindTcpListener p.destIp p.destPort with _ | listener
    · by_cases hrst : p.rst = true
      · rw [if_pos hrst]
        exact hnone
      · rw [if_neg hrst]
        exact hsame _
    · have hkid := socketCreateChild_spec net listener alloc p.srcIp p.srcPort
      dsimp only
      rcases hc : net.socketCreateChild listener alloc p.srcIp p.srcPort with ⟨_ | c, net'⟩
      · rw [hc] at hkid
        rw [show net' = net from hkid]
        exact hnone
      · rw [hc] at hkid
        obtain ⟨hgot, hlist, hsocks⟩ := hkid
        have hne : s ≠ c := fun hsc => hnew c hgot (hsc ▸ hs)
        obtain ⟨queue, hque⟩ := hsocks s hne
        refine .of_queue ?_ ⟨queue, (socks_setSock_ne hne _).trans hque⟩
        show s ∈ net'.list
        rw [hlist]
        exact mem_cons_of_mem c hs
  · rw [if_neg hsyn]
    exact hnone

theorem delivered_elsewhere (h : net.delivered p ≠ some s) : Stream.Elsewhere s net (net.tcpInput netifIp alloc p) := by
  unfold delivered at h
  unfold tcpInput
  split_ifs at h ⊢ with hcomp
  · split
    · exact inputUnmatched_elsewhere netifIp hs hnew p
    · rename_i x hx
      have hne : s ≠ x := fun hsx => h (hsx ▸ hx)
      exact .of_queue hs ⟨_, socks_setSock_ne hne _⟩
  · exact .of_queue hs ⟨_, rfl⟩

end

end Elsewhere

/-! ## Steps keep the invariant -/

namespace Stream

section Inv

variable {s : Nat} {stream : List Byte} {irs : BitVec 32} (h : Inv s stream irs w)

include h

theorem Inv.unbuffered (hlisted : s ∈ w'.net.list) (htype : (w'.net.socks s).type = .stream) (hgot : w'.got = w.got)
    (hrx : (w'.net.socks s).rx = (w.net.socks s).rx)
    (hunopened : w'.syn = false → w.syn = false ∧ w'.fin = false ∧
      ((w'.net.socks s).tcpState = .synSent ∨ (w'.net.socks s).tcpState = .closed))
    (hcount : w'.syn = true → (w'.net.socks s).tcpState ≠ .synSent ∧
      (w'.net.socks s).rcvNxt = irs + 1 + BitVec.ofNat 32 (w.placed s) + (if w'.fin then 1 else 0))
    (hend : w'.fin = true → (w'.net.socks s).tcpState = .closeWait ∨ (w'.net.socks s).tcpState = .timeWait ∨
      (w'.net.socks s).tcpState = .closed) : Inv s stream irs w' := by
  have hput : w'.placed s = w.placed s := by
    unfold placed
    rw [hgot, hrx]
  refine ⟨hlisted, htype, ?_, ?_, fun hsyn => ?_, fun hsyn => ?_, hend⟩
  · rw [hrx]
    exact h.ring
  · rw [hgot, hrx]
    exact h.bytes
  · obtain ⟨hwas, hrest⟩ := hunopened hsyn
    exact ⟨hput.trans (h.unopened hwas).1, hrest⟩
  · rw [hput]
    exact hcount hsyn

theorem Inv.elsewhere {net : NetStack} (hnet : Elsewhere s w.net net) : Inv s stream irs { w with net := net } := by
  have hopen : ∀ st, (w.net.socks s).tcpState = st → st ≠ .established → st ≠ .synReceived →
      (net.socks s).tcpState = st := by
    intro st hst hne hnr
    rcases hnet.tcpState with hsame | ⟨hwas | hwas, -⟩
    · exact hsame.trans hst
    · exact absurd (hst.symm.trans hwas) hne
    · exact absurd (hst.symm.trans hwas) hnr
  refine h.unbuffered hnet.listed (hnet.type.trans h.type) rfl hnet.rx (fun hsyn => ?_) (fun hsyn => ?_) fun hfin => ?_
  · obtain ⟨-, hfin, hstate⟩ := h.unopened hsyn
    refine ⟨hsyn, hfin, ?_⟩
    rcases hstate with hstate | hstate
    · exact .inl (hopen _ hstate (by simp) (by simp))
    · exact .inr (hopen _ hstate (by simp) (by simp))
  · obtain ⟨hstate, hcount⟩ := h.count hsyn
    refine ⟨?_, hnet.rcvNxt.trans hcount⟩
    rcases hnet.tcpState with hsame | ⟨-, hnow⟩
    · rwa [hsame]
    · rw [hnow]
      simp
  · rcases h.ended hfin with hstate | hstate | hstate
    · exact .inl (hopen _ hstate (by simp) (by simp))
    · exact .inr (.inl (hopen _ hstate (by simp) (by simp)))
    · exact .inr (.inr (hopen _ hstate (by simp) (by simp)))

theorem Inv.copy (size : Nat) (nonblock : Bool) : Inv s stream irs (w.read (((w.net.socks s).copyOut size nonblock).1,
      w.net.setSock s ((w.net.socks s).copyOut size nonblock).2)) := by
  obtain ⟨hbyte, hring, hrest⟩ := h.ring.pop (Nat.min_le_right size _)
  unfold copyOut
  rw [if_neg (by simp [h.type])]
  dsimp only
  generalize (w.net.socks s).rx.pop sockRxBufSize (min size (w.net.socks s).rx.len) = popped at hbyte hring hrest ⊢
  have hsock := socks_setSock_self w.net s { w.net.socks s with rx := popped.2 }
  have hput : placed s (w.read (.returns (min size (w.net.socks s).rx.len : Nat) popped.1,
      w.net.setSock s { w.net.socks s with rx := popped.2 })) = w.placed s := by
    have hlen := congrArg List.length hrest
    rw [RingBuffer.length_contents, length_drop, RingBuffer.length_contents] at hlen
    unfold placed read
    rw [hsock, ReadOutcome.bytes, length_append, hbyte, length_take, RingBuffer.length_contents]
    dsimp only
    omega
  refine ⟨h.listed, ?_, ?_, ?_, fun hsyn => ?_, fun hsyn => ?_, fun hfin => ?_⟩
  · rw [read, hsock]
    exact h.type
  · rw [read, hsock]
    exact hring
  · rw [read, hsock, ReadOutcome.bytes, hbyte, hrest, List.append_assoc, List.take_append_drop]
    exact h.bytes
  · rw [hput]
    rw [read, hsock]
    exact h.unopened hsyn
  · rw [hput]
    rw [read, hsock]
    exact h.count hsyn
  · rw [read, hsock]
    exact h.ended hfin

theorem Inv.unread {out : ReadOutcome} (hout : out.bytes = []) : Inv s stream irs (w.read (out, w.net)) := by
  have hsame : w.read (out, w.net) = w := by
    unfold read
    rw [hout, append_nil]
  rwa [hsame]

theorem Inv.receive (size : Nat) (nonblock : Bool) : Inv s stream irs (w.read (w.net.receive s size nonblock)) := by
  unfold NetStack.receive
  split_ifs
  · exact h.unread rfl
  · exact h.unread rfl
  · exact h.unread rfl
  · exact h.copy size nonblock

theorem Inv.vfsRead (size : Nat) (nonblock : Bool) :
    Inv s stream irs (w.read (w.net.socketVfsRead s size nonblock)) := by
  unfold socketVfsRead
  split_ifs
  · exact h.unread rfl
  · exact h.unread rfl
  · exact h.receive size nonblock

theorem Inv.push (hp : p.payload = (stream.drop (w.placed s)).take p.payload.length)
    (hroom : p.payload.length ≤ sockRxBufSize - (w.net.socks s).rx.len) :
    ((w.net.socks s).rx.pushWhile sockRxBufSize p.payload).2.WF sockRxBufSize ∧
      ((w.net.socks s).rx.pushWhile sockRxBufSize p.payload).2.len = (w.net.socks s).rx.len + p.payload.length ∧
      w.got ++ ((w.net.socks s).rx.pushWhile sockRxBufSize p.payload).2.contents sockRxBufSize <+: stream := by
  obtain ⟨-, hwf, hcont⟩ := h.ring.pushWhile p.payload
  rw [take_of_length_le hroom] at hcont
  have hlen := congrArg List.length hcont
  rw [RingBuffer.length_contents, length_append, RingBuffer.length_contents] at hlen
  refine ⟨hwf, hlen, ?_⟩
  rw [hcont, ← List.append_assoc, List.prefix_iff_eq_append.mp h.bytes |>.symm, length_bytes]
  rw [List.prefix_append_right_inj, hp]
  exact take_prefix ..

theorem Inv.open_state {st : TcpState} (hst : (w.net.socks s).tcpState = st) (hsyn : st ≠ .synSent)
    (hshut : st ≠ .closed) (hwait : st ≠ .closeWait) (htime : st ≠ .timeWait) : w.syn = true ∧ w.fin = false := by
  constructor
  · by_contra hnot
    rcases (h.unopened (by simpa using hnot)).2.2 with hnow | hnow
    · exact hsyn (hst.symm.trans hnow)
    · exact hshut (hst.symm.trans hnow)
  · by_contra hnot
    rcases h.ended (by simpa using hnot) with hnow | hnow | hnow
    · exact hwait (hst.symm.trans hnow)
    · exact htime (hst.symm.trans hnow)
    · exact hshut (hst.symm.trans hnow)

theorem Inv.react (hlisted : s ∈ w'.net.list) (htype : (w'.net.socks s).type = .stream) (hgot : w'.got = w.got)
    (hsyn' : w'.syn = (w.syn || (w.net.socks s).acceptsSyn p))
    (hfin' : w'.fin = (w.fin || (w.net.socks s).acceptsFin p)) (hreac : (w.net.socks s).Reaction p (w'.net.socks s))
    (hval : p.rst = true ∨ ∃ k, SegmentOf stream irs k p ∧ Continues s w p k) : Inv s stream irs w' := by
  have hsegment : p.rst = false → ∃ k, SegmentOf stream irs k p ∧ Continues s w p k := by
    intro hrst
    rcases hval with hyes | hsegment
    · rw [hrst] at hyes
      simp at hyes
    · exact hsegment
  cases hreac with
  | reset hrst hrx hnext hst' =>
    have hs : (w.net.socks s).acceptsSyn p = false := by simp [acceptsSyn, hrst]
    have hf : (w.net.socks s).acceptsFin p = false := by simp [acceptsFin, hrst]
    rw [hs, Bool.or_false] at hsyn'
    rw [hf, Bool.or_false] at hfin'
    refine h.unbuffered hlisted htype hgot hrx (fun hsyn => ?_) (fun hsyn => ?_) fun _ => .inr (.inr hst')
    · rw [hsyn'] at hsyn
      exact ⟨hsyn, hfin'.trans (h.unopened hsyn).2.1, .inr hst'⟩
    · rw [hsyn'] at hsyn
      rw [hst', hnext, hfin']
      exact ⟨by simp, (h.count hsyn).2⟩
  | opened hrst hsyn hack hst hrx hnext hst' =>
    obtain ⟨k, hseg, -⟩ := hsegment hrst
    have hnot : w.syn = false := by
      by_contra hyes
      exact (h.count (by simpa using hyes)).1 hst
    obtain ⟨hemp, hnofin, -⟩ := h.unopened hnot
    have hs : (w.net.socks s).acceptsSyn p = true := by simp [acceptsSyn, hrst, hsyn, hack, hst]
    have hf : (w.net.socks s).acceptsFin p = false := by simp [acceptsFin, hst]
    rw [hs, Bool.or_true] at hsyn'
    rw [hf, hnofin, Bool.or_false] at hfin'
    refine h.unbuffered hlisted htype hgot hrx (fun hno => ?_) (fun _ => ?_) fun hyes => ?_
    · rw [hsyn'] at hno
      simp at hno
    · rw [hst', hnext, (hseg.syn hsyn).1, hemp, hfin']
      simp
    · rw [hfin'] at hyes
      simp at hyes
  | taken hrst hst hrx hnext hst' =>
    obtain ⟨k, hseg, hcontinues⟩ := hsegment hrst
    obtain ⟨hopen, hnofin⟩ := h.open_state hst (by simp) (by simp) (by simp) (by simp)
    have hs : (w.net.socks s).acceptsSyn p = false := by simp [acceptsSyn, hst]
    have hf : (w.net.socks s).acceptsFin p = p.fin := by simp [acceptsFin, hst, hrst]
    rw [hs, hopen, Bool.or_false] at hsyn'
    rw [hf, hnofin, Bool.false_or] at hfin'
    have hpay : p.payload = (stream.drop (w.placed s)).take p.payload.length ∧
        p.payload.length ≤ sockRxBufSize - (w.net.socks s).rx.len := by
      by_cases hnil : p.payload = []
      · simp [hnil]
      · obtain ⟨hk, hroom⟩ := hcontinues hst hnil
        rw [← hk]
        exact ⟨hseg.payload, hroom⟩
    obtain ⟨hring, hlen, hbyte⟩ := h.push hpay.1 hpay.2
    have hput : w'.placed s = w.placed s + p.payload.length := by
      unfold placed
      rw [hgot, hrx, hlen, Nat.add_assoc]
    refine ⟨hlisted, htype, hrx ▸ hring, ?_, fun hno => ?_, fun _ => ⟨?_, ?_⟩, fun hyes => ?_⟩
    · rw [hgot, hrx]
      exact hbyte
    · rw [hsyn'] at hno
      simp at hno
    · rw [hst']
      split_ifs <;> simp
    · rw [hput, hnext, (h.count hopen).2, hnofin, hfin', BitVec.ofNat_add]
      simp [BitVec.add_assoc]
    · rw [hfin'] at hyes
      rw [hst', if_pos hyes]
      exact .inl rfl
  | finished hrst hfin hst hrx hnext hst' =>
    have hopen : w.syn = true ∧ w.fin = false := by
      rcases hst with hst | hst
      all_goals exact h.open_state hst (by simp) (by simp) (by simp) (by simp)
    have hs : (w.net.socks s).acceptsSyn p = false := by rcases hst with hst | hst <;> simp [acceptsSyn, hst]
    have hf : (w.net.socks s).acceptsFin p = true := by
      rcases hst with hst | hst <;> simp [acceptsFin, hst, hrst, hfin]
    rw [hs, hopen.1, Bool.or_false] at hsyn'
    rw [hf, Bool.or_true] at hfin'
    refine h.unbuffered hlisted htype hgot hrx (fun hno => ?_) (fun _ => ⟨?_, ?_⟩) fun _ => .inr hst'
    · rw [hsyn'] at hno
      simp at hno
    · rcases hst' with hst' | hst' <;> simp [hst']
    · rw [hnext, (h.count hopen.1).2, hopen.2, hfin']
      simp
  | quiet hrst hs hf hrx hnext hst' =>
    rw [hs, Bool.or_false] at hsyn'
    rw [hf, Bool.or_false] at hfin'
    refine h.unbuffered hlisted htype hgot hrx (fun hsyn => ?_) (fun hsyn => ⟨?_, ?_⟩) fun hfin => ?_
    · rw [hsyn'] at hsyn
      obtain ⟨-, hnofin, hshut⟩ := h.unopened hsyn
      refine ⟨hsyn, hfin'.trans hnofin, ?_⟩
      rcases hshut with hshut | hshut
      · exact .inl (by simpa [hshut] using hst')
      · exact .inr (by simpa [hshut] using hst')
    · rw [hsyn'] at hsyn
      have hne := (h.count hsyn).1
      rcases hst' with hsame | ⟨-, hnow⟩ | ⟨-, hnow⟩ | ⟨-, hnow⟩
      · rwa [hsame]
      all_goals simp [hnow]
    · rw [hsyn'] at hsyn
      rw [hnext, hfin']
      exact (h.count hsyn).2
    · rw [hfin'] at hfin
      rcases h.ended hfin with hshut | hshut | hshut
      · exact .inl (by simpa [hshut] using hst')
      · exact .inr (.inl (by simpa [hshut] using hst'))
      · exact .inr (.inr (by simpa [hshut] using hst'))

theorem Inv.input (hnew : ∀ a, alloc = some a → a ∉ w.net.list)
    (hval : w.net.delivered p = some s → p.rst = true ∨ ∃ k, SegmentOf stream irs k p ∧ Continues s w p k) :
    Inv s stream irs (w.input s netifIp alloc p) := by
  by_cases hdel : w.net.delivered p = some s
  · obtain ⟨htype, hreac⟩ := input_reaction h.type netifIp p
    have hnet : (w.input s netifIp alloc p).net =
        (w.net.setSock s ((w.net.socks s).input netifIp p).1).send ((w.net.socks s).input netifIp p).2 :=
      delivered_input netifIp alloc hdel
    have hsock : (w.input s netifIp alloc p).net.socks s = ((w.net.socks s).input netifIp p).1 :=
      socks_delivered netifIp alloc hdel
    rw [← hsock] at htype hreac
    refine h.react ?_ htype rfl ?_ ?_ hreac (hval hdel)
    · rw [hnet]
      exact h.listed
    · rw [Stream.input, decide_eq_true hdel, Bool.true_and]
    · rw [Stream.input, decide_eq_true hdel, Bool.true_and, Bool.true_and]
  · have hnet := delivered_elsewhere netifIp h.listed hnew hdel
    have hsame : w.input s netifIp alloc p = { w with net := w.net.tcpInput netifIp alloc p } := by
      unfold Stream.input
      rw [decide_eq_false hdel, Bool.false_and, Bool.false_and, Bool.or_false, Bool.or_false]
    rw [hsame]
    exact h.elsewhere hnet

theorem Inv.step (hstep : Step s stream irs (Continues s) w w') : Inv s stream irs w' := by
  cases hstep with
  | input netifIp alloc p hnew hval => exact h.input hnew hval
  | vfsRead size nonblock => exact h.vfsRead size nonblock
  | recvfrom len flags nonblock => exact h.receive len _
  | copy size nonblock => exact h.copy size nonblock
  | elsewhere net hnet => exact h.elsewhere hnet

end Inv

theorem Opening.inv {s : Nat} {irs : BitVec 32} (h : Opening s irs w) (stream : List Byte) : Inv s stream irs w := by
  have hput : w.placed s = 0 := by
    unfold placed
    rw [h.got, h.rx]
    rfl
  refine ⟨h.listed, h.type, ?_, ?_, fun hsyn => ⟨hput, h.fin, ?_⟩, fun hsyn => ?_, fun hfin => ?_⟩
  · rw [h.rx]
    exact RingBuffer.wf_empty (by unfold sockRxBufSize; norm_num) 0
  · rw [h.got, h.rx]
    exact nil_prefix
  · rcases h.tcpState with hst | hst
    · exact .inl hst.1
    · rw [hst.2.1] at hsyn
      simp at hsyn
  · rcases h.tcpState with hst | ⟨hst, -, hnext⟩
    · rw [hst.2] at hsyn
      simp at hsyn
    · rw [hst, hnext, hput, h.fin]
      simp
  · rw [h.fin] at hfin
    simp at hfin

/-- **The stream of a connection.** While each payload that is taken continues the stream and fits, what programs have
read is the beginning of the peer's stream, and `rcv_nxt` counts the SYN, the bytes placed in the buffer and an accepted
FIN. -/
theorem tcp_stream_integrity {s : Nat} {stream : List Byte} {irs : BitVec 32} {start w : Stream}
    (hstart : Opening s irs start) (hrun : ReflTransGen (Step s stream irs (Continues s)) start w) :
    w.got <+: stream ∧ w.got ++ (w.net.socks s).rx.contents sockRxBufSize <+: stream ∧ (w.syn = true →
        (w.net.socks s).rcvNxt = irs + 1 + BitVec.ofNat 32 (w.placed s) + (if w.fin then 1 else 0)) := by
  have hinv : Inv s stream irs w := invariant_of_step (fun _ _ h hstep => h.step hstep) (hstart.inv stream) hrun
  exact ⟨(List.prefix_append ..).trans hinv.bytes, hinv.bytes, fun hsyn => (hinv.count hsyn).2⟩

/-! ## Schedules -/

/-- A machine at `10.0.0.1` with a socket that listens on port 80. -/
def listening : NetStack where
  socks := fun _ => { fresh .inet .stream 6 with state := .listening, tcpState := .listen, localPort := 80 }
  list := [1]
  loopback := some 0x0100007f
  default := some 0x0100000a
  sent := []

/-- A segment from port 1000 of `10.0.0.2`. -/
def fromPeer (seq : BitVec 32) (flags : Byte) (payload : List Byte) : Packet where
  srcIp := 0x0200000a
  destIp := 0x0100000a
  data := [0x03, 0xe8, 0, 80, seq.extractLsb' 24 8, seq.extractLsb' 16 8, seq.extractLsb' 8 8, seq.extractLsb' 0 8,
    0, 0, 0, 0, 0x50, flags, 0, 0, 0, 0, 0, 0] ++ payload

theorem seq_fromPeer (seq : BitVec 32) (flags : Byte) (payload : List Byte) : (fromPeer seq flags payload).seq = seq := by
  show (seq.extractLsb' 24 8 ++ seq.extractLsb' 16 8) ++ (seq.extractLsb' 8 8 ++ seq.extractLsb' 0 8) = seq
  rw [extractLsb'_append_extractLsb'_eq_extractLsb' (by rfl),
    extractLsb'_append_extractLsb'_eq_extractLsb' (by rfl),
    extractLsb'_append_extractLsb'_eq_extractLsb' (by rfl)]
  simp

theorem payload_fromPeer (seq : BitVec 32) (flags : Byte) (payload : List Byte) :
    (fromPeer seq flags payload).payload = payload := by
  have hhlen : (fromPeer seq flags payload).hlen = 20 := by
    show ((0x50#8) >>> 4).toNat * 4 = 20
    decide
  rw [Packet.payload, hhlen]
  rfl

def greeted : Stream := ⟨listening.tcpInput 0x0100000a (some 2) (fromPeer 7 0x02 []), [], true, false⟩

theorem opening_greeted : Opening 2 7 greeted :=
  ⟨by decide, by decide, rfl, rfl, rfl, .inr ⟨by decide, rfl, by decide⟩⟩

def connected : Stream := greeted.input 2 0x0100000a none (fromPeer 8 0x10 [])

def twoSegments : Stream :=
  let w := (connected.input 2 0x0100000a none (fromPeer 8 0x18 [0x61])).input 2 0x0100000a none (fromPeer 9 0x11 [0x62])
  w.read (w.net.socketVfsRead 2 10 true)

/-- The two segments arrive in order. -/
theorem tcp_stream_integrity_twoSegments :
    twoSegments.got = [0x61, 0x62] ∧ twoSegments.got <+: [0x61, 0x62] ∧ (twoSegments.net.socks 2).rcvNxt = 11 := by
  have hnone : ∀ (w : Stream) (a : Nat), none = some a → a ∉ w.net.list := fun _ _ h => absurd h (by simp)
  have hrun : ReflTransGen (Step 2 [0x61, 0x62] 7 (Continues 2)) greeted twoSegments := by
    refine .tail (.tail (.tail (.single (.input _ none _ (hnone _) fun _ => .inr ⟨0, ?_, ?_⟩))
      (.input _ none _ (hnone _) fun _ => .inr ⟨0, ?_, ?_⟩)) (.input _ none _ (hnone _) fun _ => .inr ⟨1, ?_, ?_⟩))
      (.vfsRead 10 true)
    · exact ⟨by decide, by decide, by decide, by decide⟩
    · exact fun _ hp => absurd rfl hp
    · exact ⟨by decide, by decide, by decide, by decide⟩
    · exact fun _ _ => by decide
    · exact ⟨by decide, by decide, by decide, by decide⟩
    · exact fun _ _ => by decide
  have hgot : twoSegments.got = [0x61, 0x62] := by decide
  obtain ⟨hbytes, -, hcount⟩ := tcp_stream_integrity opening_greeted hrun
  decide

/-- Segments of the stream in any order. -/
abbrev AnyOrder (stream : List Byte) : Stream → Stream → Prop := Step 2 stream 7 fun _ _ _ => True

def repeated : Stream :=
  let w := (connected.input 2 0x0100000a none (fromPeer 8 0x18 [0x61])).input 2 0x0100000a none (fromPeer 8 0x18 [0x61])
  w.read (w.net.socketVfsRead 2 10 true)

def longStream : List Byte := List.replicate (sockRxBufSize + 1) 0x61

def nextByte (n : Nat) : Packet := fromPeer (8 + BitVec.ofNat 32 n) 0x18 [0x61]

theorem payload_nextByte (n : Nat) : (nextByte n).payload = [0x61] := payload_fromPeer ..

theorem header_nextByte (n : Nat) : (nextByte n).complete = true ∧ (nextByte n).destPort = 80 ∧
    (nextByte n).srcPort = 1000 ∧ (nextByte n).rst = false ∧ (nextByte n).fin = false ∧ (nextByte n).syn = false := by
  have hflag : (nextByte n).flags = 0x18 := rfl
  have hhlen : (nextByte n).data.getD 12 0 = 0x50 := rfl
  have hlen : (nextByte n).data.length = 21 := rfl
  refine ⟨?_, ?_, ?_, ?_, ?_, ?_⟩
  · rw [Packet.complete, Packet.hlen, hhlen, hlen]
    decide
  · show (0#8 ++ 80#8 : BitVec 16) = 80
    decide
  · show (0x03#8 ++ 0xe8#8 : BitVec 16) = 1000
    decide
  · rw [Packet.rst, hflag]
    decide
  · rw [Packet.fin, hflag]
    decide
  · rw [Packet.syn, hflag]
    decide

theorem segmentOf_nextByte (hn : n ≤ sockRxBufSize) : SegmentOf longStream 7 n (nextByte n) := by
  obtain ⟨-, -, -, -, hfin, hsyn⟩ := header_nextByte n
  refine ⟨fun _ => seq_fromPeer .., fun hyes => ?_, ?_, fun hyes => ?_⟩
  · rw [hsyn] at hyes
    simp at hyes
  · rw [payload_nextByte, longStream, drop_replicate, take_replicate, length_singleton,
      Nat.min_eq_left (by omega)]
    rfl
  · rw [hfin] at hyes
    simp at hyes

/-- The connection has taken `n` bytes, one by one, and nobody reads. -/
structure Filled (n : Nat) (w : Stream) : Prop where
  run : ReflTransGen (AnyOrder longStream) greeted w
  ghost : w.got = [] ∧ w.syn = true ∧ w.fin = false
  list : w.net.list = [2, 1]
  type : (w.net.socks 2).type = .stream
  tcpState : (w.net.socks 2).tcpState = .established
  addresses : (w.net.socks 2).localIp = 0x0100000a ∧ (w.net.socks 2).localPort = 80 ∧
    (w.net.socks 2).remoteIp = 0x0200000a ∧ (w.net.socks 2).remotePort = 1000
  ring : (w.net.socks 2).rx.WF sockRxBufSize
  len : (w.net.socks 2).rx.len = min n sockRxBufSize
  rcvNxt : (w.net.socks 2).rcvNxt = 8 + BitVec.ofNat 32 n

theorem filled_connected : Filled 0 connected := by
  refine ⟨.single (.input _ none _ (fun _ h => absurd h (by simp)) fun _ => .inr ⟨0, ?_, trivial⟩), by decide,
    by decide, by decide, by decide, by decide, RingBuffer.wf_empty (by decide) 0, by decide, by decide⟩
  exact ⟨by decide, by decide, by decide, by decide⟩

theorem Filled.next (h : Filled n w) (hn : n ≤ sockRxBufSize) :
    Filled (n + 1) (w.input 2 0x0100000a none (nextByte n)) := by
  obtain ⟨hcomp, hdest, hsrc, hrst, hfin, hsyn⟩ := header_nextByte n
  obtain ⟨hlocalIp, hlocalPort, hremoteIp, hremotePort⟩ := h.addresses
  obtain ⟨hgot, hsyn', hfin'⟩ := h.ghost
  have hdel : w.net.delivered (nextByte n) = some 2 := by
    rw [delivered, if_pos hcomp, socketFindTcp, h.list, find?_cons]
    rw [decide_eq_true]
    refine ⟨h.type, hlocalPort.trans hdest.symm, .inr hlocalIp, hremotePort.trans hsrc.symm, hremoteIp⟩
  have hsock : (w.input 2 0x0100000a none (nextByte n)).net.socks 2 = { w.net.socks 2 with
      remoteIp := (nextByte n).srcIp, remotePort := (nextByte n).srcPort,
      rx := ((w.net.socks 2).rx.pushWhile sockRxBufSize (nextByte n).payload).2,
      rcvNxt := (w.net.socks 2).rcvNxt + BitVec.ofNat 32 (nextByte n).payload.length } := by
    refine (socks_delivered 0x0100000a none hdel).trans ?_
    apply input_data h.type h.tcpState hrst hfin
    · rw [hlocalIp]
      decide
    · show (0x0200000a : BitVec 32) ≠ 0
      decide
    · rw [payload_nextByte]
      simp
  obtain ⟨hnum, hwf, hcont⟩ := h.ring.pushWhile (nextByte n).payload
  have hlen := congrArg List.length hcont
  rw [RingBuffer.length_contents, length_append, RingBuffer.length_contents, length_take, h.len,
    payload_nextByte, length_singleton] at hlen
  refine ⟨h.run.tail (.input _ none _ (fun _ hno => absurd hno (by simp)) fun _ => .inr ⟨n, ?_, trivial⟩),
    ⟨hgot, ?_, ?_⟩, ?_, ?_, ?_, ?_, ?_, ?_, ?_⟩
  · exact segmentOf_nextByte hn
  · rw [Stream.input, hsyn', Bool.true_or]
  · rw [Stream.input, hfin', acceptsFin, hfin]
    simp
  · have hnet : (w.input 2 0x0100000a none (nextByte n)).net = _ := delivered_input 0x0100000a none hdel
    rw [hnet]
    exact h.list
  · rw [hsock]
    exact h.type
  · rw [hsock]
    exact h.tcpState
  · rw [hsock]
    exact ⟨hlocalIp, hlocalPort, rfl, hsrc⟩
  · rw [hsock]
    exact hwf
  · rw [hsock]
    rw [payload_nextByte, hlen]
    omega
  · rw [hsock]
    rw [h.rcvNxt, payload_nextByte, List.length_singleton, BitVec.ofNat_add, BitVec.add_assoc]

theorem Filled.exists (n : Nat) (hn : n ≤ sockRxBufSize + 1) : ∃ w, Filled n w := by
  induction n with
  | zero => exact ⟨connected, filled_connected⟩
  | succ n ih =>
    obtain ⟨w, hw⟩ := ih (by omega)
    exact ⟨_, hw.next (by omega)⟩

/-- **What the state machine does not check.** A segment that comes twice is read twice; and once the buffer is
full, `rcv_nxt` counts and acknowledges a byte that was never placed. -/
theorem tcp_stream_broken :
    (∃ w, ReflTransGen (AnyOrder [0x61, 0x62]) greeted w ∧ w.got = [0x61, 0x61] ∧ ¬ w.got <+: [0x61, 0x62]) ∧
    ∃ w, ReflTransGen (AnyOrder longStream) greeted w ∧ w.syn = true ∧ w.fin = false ∧ w.placed 2 = sockRxBufSize ∧
      (w.net.socks 2).rcvNxt = 7 + 1 + BitVec.ofNat 32 (sockRxBufSize + 1) := by
  constructor
  · have hnone : ∀ (w : Stream) (a : Nat), none = some a → a ∉ w.net.list := fun _ _ h => absurd h (by simp)
    have hgot : repeated.got = [0x61, 0x61] := by decide
    refine ⟨repeated, ?_, hgot, by rw [hgot]; decide⟩
    refine .tail (.tail (.tail (.single (.input _ none _ (hnone _) fun _ => .inr ⟨0, ?_, trivial⟩))
      (.input _ none _ (hnone _) fun _ => .inr ⟨0, ?_, trivial⟩)) (.input _ none _ (hnone _) fun _ =>
        .inr ⟨0, ?_, trivial⟩)) (.vfsRead 10 true)
    all_goals exact ⟨by decide, by decide, by decide, by decide⟩
  · obtain ⟨w, hw⟩ := Filled.exists (sockRxBufSize + 1) le_rfl
    refine ⟨w, hw.run, hw.ghost.2.1, hw.ghost.2.2, ?_, hw.rcvNxt⟩
    rw [placed, hw.ghost.1, hw.len, List.length_nil, Nat.min_eq_right (by omega), Nat.zero_add]

end Stream

end SzpontOS.Net
