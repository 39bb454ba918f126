import SzpontOS.Net.Connect
import SzpontOS.Lib.Run

/-!
# Connections that can be accepted

Sequences of connects and accepts, over `AF_UNIX` and over TCP to the machine itself. The accept queue of a listener
holds sixteen children. A connect that finds it full makes its child all the same, and succeeds; and `sys_accept` takes
a child from the queue before it looks for a descriptor, and destroys it if there is none. Where neither happens, the
children of the successful connects to a listener are, in this order, those that were accepted and those that are still
queued.
-/

namespace SzpontOS.Net

open Lib Relation Function List NetStack

namespace NetStack

def socketDestroy (send : Sender) (net : NetStack) (s : Nat) : NetStack :=
  let net := if (net.socks s).type = .stream ∧ (net.socks s).tcpState = .established then
      (send net ⟨(net.socks s).localIp, (net.socks s).localPort, (net.socks s).remoteIp, (net.socks s).remotePort,
        (net.socks s).sndNxt, (net.socks s).rcvNxt, 0x11, []⟩).modify s fun sock =>
          { sock with sndNxt := sock.sndNxt + 1, tcpState := .finWait1 }
    else net
  let net := match (net.socks s).domain, (net.socks s).peer with
    | .unix, some peer =>
      (net.modify peer fun sock => { sock with state := .closed, peer := none }).modify s fun sock =>
        { sock with peer := none }
    | _, _ => net
  { net with list := net.list.erase s }

/-- The listener that `sys_connect` finds for a path; `unixPath` is that field of the sockets. -/
def unixListener (net : NetStack) (unixPath : Nat → List Byte) (path : List Byte) : Option Nat :=
  net.list.find? fun l => (net.socks l).domain = .unix ∧ (net.socks l).state = .listening ∧ unixPath l = path

def sysConnectUnix (net : NetStack) (unixPath : Nat → List Byte) (alloc : Option Nat) (s : Nat) (path : List Byte) :
    NetStack × Int :=
  match net.unixListener unixPath path with
  | none => (net, -1)
  | some listener =>
    match net.socketCreate alloc .unix (net.socks s).type (net.socks s).protocol with
    | (none, net) => (net, -1)
    | (some child, net) =>
      let net := net.modify child fun sock => { sock with peer := some s, state := .connected }
      let net := net.modify s fun sock => { sock with peer := some child, state := .connected }
      (net.queueChild listener child, 0)

/-- How `sys_accept` ends: with a child, an error, or not yet. -/
inductive AcceptResult
  | child (fd c : Nat)
  | error (code : Int)
  | waits

/-- `sys_accept`; `slot` is the first free descriptor. -/
def sysAccept (send : Sender) (net : NetStack) (listener : Nat) (slot : Option Nat) (nonblock : Bool) :
    NetStack × AcceptResult :=
  if (net.socks listener).state = .listening then
    match (net.socks listener).acceptQueue with
    | [] => (net, if nonblock then .error (-11) else .waits)
    | c :: rest =>
      let net := net.modify listener fun sock => { sock with acceptQueue := rest }
      match slot with
      | none => (net.socketDestroy send c, .error (-1))
      | some fd => (net, .child fd c)
  else (net, .error (-1))

end NetStack

/-! ## Sequences of calls -/

/-- The sockets and what happened: for each connect that reported success, the listener it reached and its child, and
for each listener the children that were accepted. -/
structure AcceptWorld where
  net : NetStack
  unixPath : Nat → List Byte
  made : List (Option (Nat × Nat))
  accepted : Nat → List Nat

/-- A call, with the addresses that `kmalloc` returns during it, and the first free descriptor of the caller. -/
inductive SocketCall
  | socket (alloc : Option Nat) (domain : Domain) (type : SockType) (protocol : Nat)
  | bindInet (s : Nat) (ip : BitVec 32) (port : BitVec 16)
  | bindUnix (s : Nat) (path : List Byte)
  | listen (s : Nat)
  | connectUnix (s : Nat) (path : List Byte) (alloc : Option Nat)
  | connectInet (s : Nat) (ephemeral : BitVec 16) (ip : BitVec 32) (port : BitVec 16) (nonblock : Bool)
    (alloc : NetStack → Option Nat) (fuel : Nat)
  | accept (listener : Nat) (slot : Option Nat) (nonblock : Bool) (alloc : NetStack → Option Nat) (fuel : Nat)

namespace AcceptWorld

variable (ifs : List Netif) (arp : BitVec 32 → Option (List Byte))

/-- The listener that the SYN of a TCP connect reaches. -/
def synListener (net : NetStack) (s : Nat) (ephemeral : BitVec 16) (ip : BitVec 32) (port : BitVec 16) : Option Nat :=
  let start := net.startConnect s ephemeral ip port
  (tcpSendSegment ifs arp 0 (start.socks s).synSegment).bind fun frame =>
    if frame.netif.loopback ∧ start.socketFindTcp ip port frame.netif.ip (start.socks s).localPort = none then
      start.socketFindTcpListener ip port
    else none

/-- The listener that a connect reaches, and its child. -/
def childOf (w : AcceptWorld) : SocketCall → Option (Nat × Nat)
  | .connectUnix _ path alloc =>
    (w.net.unixListener w.unixPath path).bind fun l => alloc.map fun c => (l, c)
  | .connectInet s ephemeral ip port _ alloc _ =>
    (synListener ifs arp w.net s ephemeral ip port).bind fun l =>
      (alloc (w.net.startConnect s ephemeral ip port)).map fun c => (l, c)
  | _ => none

def exec (w : AcceptWorld) (call : SocketCall) : AcceptWorld :=
  match call with
  | .socket alloc domain type protocol => { w with
      net := (w.net.socketCreate alloc domain type protocol).2
      unixPath := alloc.elim w.unixPath fun s => Function.update w.unixPath s [] }
  | .bindInet s ip port => { w with
      net := w.net.modify s fun sock => { sock with localIp := ip, localPort := port, state := .bind } }
  | .bindUnix s path => { w with
      net := w.net.modify s fun sock => { sock with state := .bind }
      unixPath := Function.update w.unixPath s path }
  | .listen s =>
    if (w.net.socks s).type = .stream then
      { w with net := w.net.modify s fun sock => { sock with state := .listening, tcpState := .listen } }
    else w
  | .connectUnix s path alloc =>
    let (net, result) := w.net.sysConnectUnix w.unixPath alloc s path
    { w with
      net := net
      unixPath := alloc.elim w.unixPath fun c => Function.update w.unixPath c []
      made := if result = 0 then w.made ++ [w.childOf ifs arp call] else w.made }
  | .connectInet s ephemeral ip port nonblock alloc fuel =>
    let (net, result) := w.net.sysConnectInet (loopSend ifs arp alloc fuel) s ephemeral ip port nonblock
    { w with
      net := net
      made := if (w.net.socks s).type = .stream ∧ result = 0 then w.made ++ [w.childOf ifs arp call] else w.made }
  | .accept l slot nonblock alloc fuel =>
    match w.net.sysAccept (loopSend ifs arp alloc fuel) l slot nonblock with
    | (net, .child _ c) => { w with net := net, accepted := Function.update w.accepted l (w.accepted l ++ [c]) }
    | (net, _) => { w with net := net }

/-- The sockets that a call names exist, and `kmalloc` returns addresses at which there is no socket. -/
def Possible (w : AcceptWorld) : SocketCall → Prop
  | .socket alloc .. => ∀ c, alloc = some c → c ∉ w.net.list
  | .connectUnix s _ alloc => s ∈ w.net.list ∧ ∀ c, alloc = some c → c ∉ w.net.list
  | .connectInet s _ _ _ _ alloc _ => s ∈ w.net.list ∧ ∀ net c, alloc net = some c → c ∉ net.list
  | .accept _ _ _ alloc _ => ∀ net c, alloc net = some c → c ∉ net.list
  | .bindInet s .. | .bindUnix s _ | .listen s => s ∈ w.net.list

def Step (Allowed : AcceptWorld → SocketCall → Prop) (w w' : AcceptWorld) : Prop :=
  ∃ call, w.Possible call ∧ Allowed w call ∧ w' = w.exec ifs arp call

variable {ifs arp} in
theorem step_of {Allowed : AcceptWorld → SocketCall → Prop} {w : AcceptWorld} (call : SocketCall)
    (hposs : w.Possible call) (hmay : Allowed w call) : Step ifs arp Allowed w (w.exec ifs arp call) :=
  ⟨call, hposs, hmay, rfl⟩

/-- **Nothing is lost.** A connect is made while there is room in the accept queue of the listener it reaches, and an
accept that finds a child has a descriptor for it. -/
def Roomy (w : AcceptWorld) (call : SocketCall) : Prop :=
  (∀ l c, w.childOf ifs arp call = some (l, c) → (w.net.socks l).acceptQueue.length < 16) ∧ match call with
    | .accept l slot .. => (w.net.socks l).acceptQueue = [] ∨ slot.isSome
    | _ => True

/-- The children of the successful connects to a listener, oldest first. -/
def childrenOf (made : List (Option (Nat × Nat))) (l : Nat) : List Nat :=
  made.filterMap fun entry => entry.bind fun (listener, c) => if listener = l then some c else none

/-- The children of listener `l` that were accepted and those that wait, oldest first. -/
def served (w : AcceptWorld) (l : Nat) : List Nat := w.accepted l ++ (w.net.socks l).acceptQueue

/-- **Every successful connect can be accepted.** It has a child, and each child of a listener was accepted once or is
queued, in the order of the connects, with no other listener. -/
structure Accounted (w : AcceptWorld) : Prop where
  made : ∀ entry ∈ w.made, entry.isSome
  order : ∀ l, (childrenOf w.made l).Sublist (w.served l)
  once : ∀ l, (w.served l).Nodup
  apart : ∀ l l' c, c ∈ w.served l → c ∈ w.served l' → l = l'

end AcceptWorld

/-! ## Accept queues only grow at the end -/

/-- The children `S` of each listener, `E` among them those of the successful connects; `list` are the sockets. -/
structure Ledger (S E : Nat → List Nat) (list : List Nat) : Prop where
  order : ∀ l, (E l).Sublist (S l)
  once : ∀ l, (S l).Nodup
  listed : ∀ l, ∀ c ∈ S l, c ∈ list ∧ l ∈ list
  apart : ∀ l l' c, c ∈ S l → c ∈ S l' → l = l'

variable {l c : Nat} {sock : Sock} {seg : SentSegment} {net : NetStack} {ifs : List Netif}

namespace Ledger

variable {S E : Nat → List Nat} {list : List Nat}

theorem mono (h : Ledger S E list) {list' : List Nat} (hlist : list ⊆ list') : Ledger S E list' :=
  ⟨h.order, h.once, fun l c hc => ⟨hlist (h.listed l c hc).1, hlist (h.listed l c hc).2⟩, h.apart⟩

theorem append (h : Ledger S E list) (hl : l ∈ list) (hc : c ∈ list) (hnew : ∀ k, c ∉ S k) {E' : Nat → List Nat}
    (horder : ∀ k, (E' k).Sublist (update S l (S l ++ [c]) k)) : Ledger (update S l (S l ++ [c])) E' list := by
  -- the children of a listener are those there were, and `c` for `l`
  have hmem : ∀ k d, d ∈ update S l (S l ++ [c]) k ↔ d ∈ S k ∨ k = l ∧ d = c := by
    intro k d
    by_cases hk : k = l
    · subst hk
      simp
    · simp [hk]
  refine ⟨horder, (forall_update_iff S fun _ => Nodup).mpr ⟨?_, fun k _ => h.once k⟩, fun k d hd => ?_, fun k k' d hd hd' => ?_⟩
  · rw [← concat_eq_append]
    exact (h.once l).concat (hnew l)
  · rcases (hmem k d).mp hd with hd | ⟨rfl, rfl⟩
    · exact h.listed k d hd
    · exact ⟨hc, hl⟩
  · rcases (hmem k d).mp hd with hold | ⟨hk, hdc⟩ <;> rcases (hmem k' d).mp hd' with hold' | ⟨hk', hdc'⟩
    · exact h.apart k k' d hold hold'
    · exact absurd (hdc' ▸ hold) (hnew k)
    · exact absurd (hdc ▸ hold') (hnew k')
    · rw [hk, hk']

end Ledger

/-- The queues of the listeners, where `A` are the children that were accepted. -/
def Queued (A E : Nat → List Nat) (net : NetStack) : Prop :=
  Ledger (fun l => A l ++ (net.socks l).acceptQueue) E net.list

namespace Queued

variable {A E : Nat → List Nat} {net' : NetStack}

theorem congr (h : Queued A E net) (hque : ∀ l, (net'.socks l).acceptQueue = (net.socks l).acceptQueue)
    (hlist : net.list ⊆ net'.list) : Queued A E net' := by
  have hsame : (fun l => A l ++ (net'.socks l).acceptQueue) = fun l => A l ++ (net.socks l).acceptQueue := by
    funext l
    rw [hque]
  unfold Queued
  rw [hsame]
  exact h.mono hlist

theorem acceptQueue_modify (net : NetStack) (s : Nat) {f : Sock → Sock}
    (hf : ∀ sock, (f sock).acceptQueue = sock.acceptQueue) (l : Nat) :
    ((net.modify s f).socks l).acceptQueue = (net.socks l).acceptQueue := by
  by_cases hl : l = s
  · subst hl
    rw [socks_modify_self, hf]
  · rw [socks_modify_ne net s f hl]

section

variable (h : Queued A E net)

include h

theorem modify (s : Nat) {f : Sock → Sock} (hf : ∀ sock, (f sock).acceptQueue = sock.acceptQueue) :
    Queued A E (net.modify s f) :=
  h.congr (acceptQueue_modify net s hf) (.refl _)

theorem queue_nil (hc : c ∉ net.list) : (net.socks c).acceptQueue = [] := by
  apply eq_nil_iff_forall_not_mem.mpr
  intro d hd
  exact hc (h.listed c d (mem_append_right _ hd)).2

theorem acceptQueue_create (hc : c ∉ net.list) (hsock : sock.acceptQueue = []) (l : Nat) :
    ((net.setSock c sock).socks l).acceptQueue = (net.socks l).acceptQueue := by
  show (update net.socks c sock l).acceptQueue = _
  by_cases hl : l = c
  · subst hl
    rw [update_self, hsock, h.queue_nil hc]
  · rw [update_of_ne hl]

theorem create (hc : c ∉ net.list) (hsock : sock.acceptQueue = []) :
    Queued A E { net.setSock c sock with list := c :: net.list } :=
  h.congr (h.acceptQueue_create hc hsock) (subset_cons_self _ _)

theorem queueChild (hl : l ∈ net.list) (hc : c ∈ net.list) (hnew : ∀ k, c ∉ A k ++ (net.socks k).acceptQueue) :
    Queued A E (net.queueChild l c) ∧ ((net.socks l).acceptQueue.length < 16 →
      Queued A (update E l (E l ++ [c])) (net.queueChild l c)) := by
  unfold NetStack.queueChild
  by_cases hroom : (net.socks l).acceptQueue.length < 16
  · rw [if_pos hroom]
    set S := fun k => A k ++ (net.socks k).acceptQueue with hS
    set net' := net.setSock l { net.socks l with acceptQueue := (net.socks l).acceptQueue ++ [c] } with hnet'
    have hserved : (fun k => A k ++ (net'.socks k).acceptQueue) = update S l (S l ++ [c]) := by
      funext k
      by_cases hk : k = l
      · subst hk
        simp [hS, hnet', NetStack.setSock]
      · simp [hS, hnet', NetStack.setSock, hk]
    unfold Queued
    rw [hserved]
    refine ⟨h.append hl hc hnew ?_, fun _ => h.append hl hc hnew fun k => ?_⟩
    · exact (forall_update_iff S fun k => (E k).Sublist).mpr ⟨(h.order l).trans (sublist_append_left _ _), fun k _ => h.order k⟩
    · by_cases hk : k = l
      · subst hk
        rw [update_self, update_self]
        exact (h.order k).append (.refl _)
      · rw [update_of_ne hk, update_of_ne hk]
        exact h.order k
  · rw [if_neg hroom]
    exact ⟨h, fun hlt => absurd hlt hroom⟩

theorem socketCreateChild (hl : l ∈ net.list) (hc : c ∉ net.list) (remoteIp : BitVec 32) (remotePort : BitVec 16) :
    ∃ net', net.socketCreateChild l (some c) remoteIp remotePort = (some c, net') ∧ Queued A E net' ∧
      ((net.socks l).acceptQueue.length < 16 → Queued A (update E l (E l ++ [c])) net') := by
  set made := NetStack.modify { net.setSock c (Sock.fresh (net.socks l).domain (net.socks l).type (net.socks l).protocol)
      with list := c :: net.list } c fun sock => { sock with
    localIp := if (net.socks l).localIp = 0 then (net.route remoteIp).getD 0 else (net.socks l).localIp
    localPort := (net.socks l).localPort, remoteIp := remoteIp, remotePort := remotePort } with hmade
  have hque : ∀ k, (made.socks k).acceptQueue = (net.socks k).acceptQueue := by
    intro k
    refine (acceptQueue_modify _ c ?_ k).trans (h.acceptQueue_create hc rfl k)
    exact fun _ => rfl
  have hkept : Queued A E made := h.congr hque (subset_cons_self c net.list)
  obtain ⟨hplain, hroom⟩ := hkept.queueChild (mem_cons_of_mem c hl) mem_cons_self fun k hmem => by
    rw [hque] at hmem
    exact hc (h.listed k c hmem).1
  rw [hque] at hroom
  exact ⟨made.queueChild l c, rfl, hplain, hroom⟩

end

/-! ### While segments are being sent -/

def Keeps (A E : Nat → List Nat) (send : Sender) : Prop := ∀ net seg, Queued A E net → Queued A E (send net seg)

variable {send : Sender} {p : Packet} {netifIp : BitVec 32} {alloc : NetStack → Option Nat}

theorem acceptQueue_enqueueData (sock : Sock) (data : List Byte) (ip : BitVec 32) (port : BitVec 16) :
    (sock.enqueueData data ip port).2.acceptQueue = sock.acceptQueue := by
  unfold Sock.enqueueData
  dsimp only
  split_ifs <;> rfl

section

variable (h : Queued A E net) (hsend : Keeps A E send)

include h hsend

theorem sendAck (s : Nat) {f : Sock → Sock} (hf : ∀ sock, (f sock).acceptQueue = sock.acceptQueue) :
    Queued A E ((net.modify s f).sendAck send s) :=
  hsend _ _ (h.modify s hf)

theorem processWith (s : Nat) (p : Packet) : Queued A E (net.processWith send s p) := by
  unfold NetStack.processWith
  cases (net.socks s).tcpState with
  | closed | listen | closeWait | closing | timeWait => exact h
  | synSent =>
    dsimp only
    split_ifs
    · exact h.sendAck hsend s fun _ => rfl
    · exact h
  | synReceived | lastAck =>
    dsimp only
    split_ifs
    · exact h.modify s fun _ => rfl
    · exact h
  | established =>
    dsimp only
    by_cases hpay : p.payload = []
    · split_ifs
      · exact h.sendAck hsend s fun _ => rfl
      · exact h
    · split_ifs
      · refine .sendAck ?_ hsend s fun _ => rfl
        exact h.sendAck hsend s fun sock => acceptQueue_enqueueData sock p.payload p.srcIp p.srcPort
      · exact h.sendAck hsend s fun sock => acceptQueue_enqueueData sock p.payload p.srcIp p.srcPort
  | finWait1 =>
    dsimp only
    by_cases hack : p.hasAck = true
    · split_ifs
      · refine .modify ((h.modify s ?_).sendAck hsend s ?_) s ?_ <;> exact fun _ => rfl
      · exact h.modify s fun _ => rfl
    · split_ifs
      · refine .modify (h.sendAck hsend s ?_) s ?_ <;> exact fun _ => rfl
      · exact h
  | finWait2 =>
    dsimp only
    split_ifs
    · refine .modify (h.sendAck hsend s ?_) s ?_ <;> exact fun _ => rfl
    · exact h

theorem inputTo (s : Nat) (p : Packet) : Queued A E (net.inputTo send netifIp s p) := by
  unfold NetStack.inputTo
  split_ifs
  · exact h.modify s fun _ => rfl
  · refine (h.modify s fun sock => ?_).processWith hsend s p
    split_ifs <;> rfl

theorem greet (child : Nat) (p : Packet) : Queued A E (net.greet send netifIp child p) := by
  refine .modify (hsend _ _ (h.modify child ?_)) child ?_ <;> exact fun _ => rfl

theorem tcpInputWith (hnew : ∀ net c, alloc net = some c → c ∉ net.list) (p : Packet) :
    Queued A E (net.tcpInputWith send alloc netifIp p) := by
  unfold NetStack.tcpInputWith
  by_cases hcomp : p.complete = true
  · rw [if_pos hcomp]
    cases hfind : net.socketFindTcp p.destIp p.destPort p.srcIp p.srcPort with
    | some s => exact h.inputTo hsend s p
    | none =>
      by_cases hsyn : p.syn = true
      · rw [if_pos hsyn]
        cases hlistener : net.socketFindTcpListener p.destIp p.destPort with
        | none =>
          split_ifs
          · exact h
          · exact hsend _ _ h
        | some l =>
          dsimp only
          cases hgot : alloc net with
          | none => exact h
          | some c =>
            obtain ⟨net', hkid, hkept, -⟩ := h.socketCreateChild (mem_of_find?_eq_some hlistener)
              (hnew net c hgot) p.srcIp p.srcPort
            rw [hkid]
            exact hkept.greet hsend c p
      · rw [if_neg hsyn]
        exact h
  · rw [if_neg hcomp]
    exact h

end

/-- **The segments that come back while they are sent** keep the queues in order, however they are nested. -/
theorem keeps_loopSend (ifs : List Netif) (arp : BitVec 32 → Option (List Byte))
    (hnew : ∀ net c, alloc net = some c → c ∉ net.list) (fuel : Nat) :
    Keeps A E (loopSend ifs arp alloc fuel) := by
  induction fuel with
  | zero => exact fun net seg h => h
  | succ fuel ih =>
    intro net seg h
    unfold loopSend
    cases tcpSendSegment ifs arp 0 seg with
    | none => exact h
    | some frame =>
      dsimp only
      split_ifs
      · cases ipv4Input frame.netif frame.packet with
        | none => exact h
        | some p => exact h.tcpInputWith ih hnew p
      · exact h

end Queued

/-! ## A connect that succeeds has a child -/

namespace NetStack

variable {send : Sender} {p : Packet} {arp : BitVec 32 → Option (List Byte)} {alloc : NetStack → Option Nat}

theorem processWith_quiet (hack : p.hasAck = false) (hfin : p.fin = false) (hpay : p.payload = []) (s : Nat) :
    net.processWith send s p = net := by
  unfold processWith
  cases (net.socks s).tcpState <;> simp [hack, hfin, hpay]

theorem tcpState_inputTo_syn (hrst : p.rst = false) (hack : p.hasAck = false) (hfin : p.fin = false)
    (hpay : p.payload = []) (netifIp : BitVec 32) (x s : Nat) :
    ((net.inputTo send netifIp x p).socks s).tcpState = (net.socks s).tcpState := by
  unfold inputTo
  rw [if_neg (by rw [hrst]; decide), processWith_quiet hack hfin hpay]
  by_cases hs : s = x
  · subst hs
    rw [socks_modify_self]
    split_ifs <;> rfl
  · rw [socks_modify_ne _ _ _ hs]

theorem loopSend_away (fuel : Nat)
    (haway : ¬ ∃ frame, tcpSendSegment ifs arp 0 seg = some frame ∧ frame.netif.loopback = true) :
    net.loopSend ifs arp alloc fuel seg = net := by
  cases fuel with
  | zero => rfl
  | succ fuel =>
    unfold loopSend
    cases hsend : tcpSendSegment ifs arp 0 seg with
    | none => rfl
    | some frame =>
      dsimp only
      rw [if_neg fun hloop => haway ⟨frame, hsend, hloop⟩]

theorem loopSend_loopback (fuel : Nat) {frame : Frame} (hsend : tcpSendSegment ifs arp 0 seg = some frame)
    (hloop : frame.netif.loopback = true) (hdata : seg.data = []) :
    net.loopSend ifs arp alloc (fuel + 1) seg = net.tcpInputWith (loopSend ifs arp alloc fuel) alloc frame.netif.ip
      ⟨frame.netif.ip, seg.destIp, seg.bytes⟩ := by
  rw [loopSend, hsend]
  dsimp only
  rw [if_pos hloop, ipv4Input_loopback hsend hloop (by rw [hdata]; decide)]
  rfl

theorem tcpState_loopSend_rst (hflag : seg.flags = 0x14) (hdata : seg.data = []) (fuel s : Nat)
    (hst : (net.socks s).tcpState ≠ .established) :
    ((net.loopSend ifs arp alloc fuel seg).socks s).tcpState ≠ .established := by
  cases fuel with
  | zero => exact hst
  | succ fuel =>
    by_cases hback : ∃ frame, tcpSendSegment ifs arp 0 seg = some frame ∧ frame.netif.loopback = true
    · obtain ⟨frame, hsend, hloop⟩ := hback
      rw [loopSend_loopback fuel hsend hloop hdata]
      set p : Packet := ⟨frame.netif.ip, seg.destIp, seg.bytes⟩ with hp
      have hbits : p.rst = true ∧ ¬ p.syn = true := by
        unfold Packet.rst Packet.syn
        rw [hp, flags_bytes, hflag]
        decide
      unfold tcpInputWith
      rw [if_pos (complete_bytes ..)]
      split
      · rename_i x _
        unfold inputTo
        rw [if_pos hbits.1]
        by_cases hs : s = x
        · subst hs
          simp
        · rw [socks_modify_ne _ _ _ hs]
          exact hst
      · rw [if_neg hbits.2]
        exact hst
    · rw [loopSend_away _ hback]
      exact hst

/-- **A SYN that leads to an established connection** reached a listener, and its child was made. -/
theorem listener_of_established {fuel s : Nat} (hflag : seg.flags = 0x02) (hdata : seg.data = [])
    (hst : (net.socks s).tcpState ≠ .established)
    (hdone : ((net.loopSend ifs arp alloc fuel seg).socks s).tcpState = .established) :
    ∃ n frame l c, fuel = n + 1 ∧ tcpSendSegment ifs arp 0 seg = some frame ∧ frame.netif.loopback = true ∧
      net.socketFindTcp seg.destIp seg.destPort frame.netif.ip seg.srcPort = none ∧
      net.socketFindTcpListener seg.destIp seg.destPort = some l ∧ alloc net = some c ∧
      ∀ child net', net.socketCreateChild l (some c) frame.netif.ip seg.srcPort = (some child, net') →
        net.loopSend ifs arp alloc fuel seg = net'.greet (loopSend ifs arp alloc n) frame.netif.ip child
          ⟨frame.netif.ip, seg.destIp, seg.bytes⟩ := by
  by_cases hback : ∃ frame, tcpSendSegment ifs arp 0 seg = some frame ∧ frame.netif.loopback = true
  · obtain ⟨frame, hsend, hloop⟩ := hback
    cases fuel with
    | zero => exact absurd hdone hst
    | succ n =>
      have hinp : net.loopSend ifs arp alloc (n + 1) seg = _ := loopSend_loopback n hsend hloop hdata
      set p : Packet := ⟨frame.netif.ip, seg.destIp, seg.bytes⟩ with hp
      have hbits : p.syn = true ∧ p.rst = false ∧ p.hasAck = false ∧ p.fin = false := by
        unfold Packet.syn Packet.rst Packet.hasAck Packet.fin
        rw [hp, flags_bytes, hflag]
        decide
      obtain ⟨hsyn, hrst, hack, hfin⟩ := hbits
      have hpay : p.payload = [] := (payload_bytes ..).trans hdata
      have hports : p.destPort = seg.destPort ∧ p.srcPort = seg.srcPort := ⟨destPort_bytes .., srcPort_bytes ..⟩
      unfold tcpInputWith at hinp
      rw [if_pos (complete_bytes ..), hports.1, hports.2] at hinp
      rw [hinp] at hdone
      cases hfind : net.socketFindTcp p.destIp seg.destPort p.srcIp seg.srcPort with
      | some x =>
        rw [hfind] at hdone
        rw [tcpState_inputTo_syn hrst hack hfin hpay] at hdone
        exact absurd hdone hst
      | none =>
        rw [hfind] at hdone hinp
        rw [if_pos hsyn] at hdone hinp
        cases hlistener : net.socketFindTcpListener p.destIp seg.destPort with
        | none =>
          rw [hlistener] at hdone
          rw [if_neg (by rw [hrst]; decide)] at hdone
          exact absurd hdone (tcpState_loopSend_rst rfl rfl n s hst)
        | some l =>
          rw [hlistener] at hdone hinp
          dsimp only at hdone hinp
          cases hgot : alloc net with
          | none =>
            rw [hgot] at hdone
            exact absurd hdone hst
          | some c =>
            rw [hgot] at hinp
            refine ⟨n, frame, l, c, rfl, hsend, hloop, hfind, rfl, rfl, fun child net' hkid => ?_⟩
            rw [hkid] at hinp
            exact hinp
  · rw [loopSend_away _ hback] at hdone
    exact absurd hdone hst

end NetStack

section

variable {A E : Nat → List Nat} (h : Queued A E net)

include h

section

variable {arp : BitVec 32 → Option (List Byte)} {alloc : NetStack → Option Nat}
  (hnew : ∀ net c, alloc net = some c → c ∉ net.list) (fuel s : Nat) (ephemeral : BitVec 16) (ip : BitVec 32)
  (port : BitVec 16)

include hnew

/-- **The SYN of a connect and all it leads to.** The queues stay in order, and if the connection is established, the
SYN reached a listener, and the child made for it is queued there if there is room. -/
theorem Queued.synSent {start after : NetStack} (hst0 : start = net.startConnect s ephemeral ip port)
    (haft : after = start.loopSend ifs arp alloc fuel (start.socks s).synSegment) :
    Queued A E after ∧ ((after.socks s).tcpState = .established →
      ∃ l c, AcceptWorld.synListener ifs arp net s ephemeral ip port = some l ∧ alloc start = some c ∧
        ((net.socks l).acceptQueue.length < 16 → Queued A (update E l (E l ++ [c])) after)) := by
  have hbegun : Queued A E start := by
    rw [hst0]
    exact h.modify s fun _ => rfl
  have hque : ∀ l, (start.socks l).acceptQueue = (net.socks l).acceptQueue := by
    intro l
    rw [hst0]
    unfold startConnect
    refine Queued.acceptQueue_modify net s ?_ l
    exact fun _ => rfl
  have hst : (start.socks s).tcpState ≠ .established := by
    rw [hst0]
    unfold startConnect
    simp
  have hrem : (start.socks s).remoteIp = ip ∧ (start.socks s).remotePort = port := by
    rw [hst0]
    unfold startConnect
    rw [socks_modify_self]
    exact ⟨rfl, rfl⟩
  refine ⟨?_, fun hdone => ?_⟩
  · rw [haft]
    exact .keeps_loopSend ifs arp hnew fuel start _ hbegun
  · rw [haft] at hdone
    obtain ⟨n, frame, l, c, rfl, hsend, hloop, hfind, hlistener, hgot, hgreet⟩ :=
      listener_of_established rfl rfl hst hdone
    obtain ⟨net', hkid, -, hroom⟩ := hbegun.socketCreateChild (mem_of_find?_eq_some hlistener)
      (hnew start c hgot) frame.netif.ip (start.socks s).synSegment.srcPort
    refine ⟨l, c, ?_, hgot, fun hlt => ?_⟩
    · unfold AcceptWorld.synListener
      rw [← hst0]
      dsimp only
      rw [hsend, Option.bind_some]
      unfold Sock.synSegment at hfind hlistener
      rw [hrem.1, hrem.2] at hfind hlistener
      rw [if_pos ⟨hloop, hfind⟩, hlistener]
    · rw [← hque] at hlt
      rw [haft, hgreet c net' hkid]
      exact (hroom hlt).greet (.keeps_loopSend ifs arp hnew n) c _

theorem Queued.sysConnectInet (nonblock : Bool) {result : NetStack × Int}
    (hres : result = net.sysConnectInet (NetStack.loopSend ifs arp alloc fuel) s ephemeral ip port nonblock) :
    Queued A E result.1 ∧ ((net.socks s).type = .stream ∧ result.2 = 0 →
      ∃ l c, AcceptWorld.synListener ifs arp net s ephemeral ip port = some l ∧
        alloc (net.startConnect s ephemeral ip port) = some c ∧
        ((net.socks l).acceptQueue.length < 16 → Queued A (update E l (E l ++ [c])) result.1)) := by
  unfold NetStack.sysConnectInet at hres
  by_cases htype : (net.socks s).type = .stream
  · rw [if_pos htype] at hres
    obtain ⟨hkept, hdone⟩ := h.synSent hnew fuel s ephemeral ip port rfl (rfl : _ = NetStack.loopSend ifs arp ..)
    generalize net.startConnect s ephemeral ip port = start at hres hkept hdone ⊢
    dsimp only at hres
    generalize start.loopSend ifs arp alloc fuel (start.socks s).synSegment = after at hres hkept hdone
    rw [NetStack.socks_modify_self] at hres
    by_cases hopen : (after.socks s).tcpState = .established
    · rw [if_pos hopen] at hres
      subst hres
      -- what follows the SYN changes no queue
      have haft : ∀ {E}, Queued A E after → Queued A E ((after.modify s fun sock =>
          { sock with sndNxt := sock.sndNxt + 1 }).modify s fun sock => { sock with state := .connected }) := by
        intro E hqueued
        refine .modify (hqueued.modify s ?_) s ?_ <;> exact fun _ => rfl
      refine ⟨haft hkept, fun _ => ?_⟩
      obtain ⟨l, c, hlistener, hgot, hroom⟩ := hdone hopen
      exact ⟨l, c, hlistener, hgot, fun hlt => haft (hroom hlt)⟩
    · rw [if_neg hopen] at hres
      have hfailed : result.1 = after.modify s (fun sock => { sock with sndNxt := sock.sndNxt + 1 }) ∧
          result.2 ≠ 0 := by
        rw [hres]
        split_ifs <;> exact ⟨rfl, by simp⟩
      refine ⟨?_, fun hzero => absurd hzero.2 hfailed.2⟩
      rw [hfailed.1]
      exact hkept.modify s fun _ => rfl
  · rw [if_neg htype] at hres
    subst hres
    refine ⟨?_, fun hstream => absurd hstream.1 htype⟩
    dsimp only
    exact h.modify s fun _ => rfl

end

theorem Queued.sysConnectUnix {unixPath : Nat → List Byte} {alloc : Option Nat} (hnew : ∀ c, alloc = some c → c ∉ net.list) (s : Nat) (path : List Byte)
    {result : NetStack × Int} (hres : result = net.sysConnectUnix unixPath alloc s path) :
    Queued A E result.1 ∧ (result.2 = 0 → ∃ l c, net.unixListener unixPath path = some l ∧ alloc = some c ∧
      ((net.socks l).acceptQueue.length < 16 → Queued A (update E l (E l ++ [c])) result.1)) := by
  unfold NetStack.sysConnectUnix at hres
  cases hlistener : net.unixListener unixPath path with
  | none =>
    rw [hlistener] at hres
    subst hres
    refine ⟨h, fun hzero => ?_⟩
    dsimp only at hzero
    exact absurd hzero (by decide)
  | some l =>
    rw [hlistener] at hres
    cases alloc with
    | none =>
      subst hres
      refine ⟨h, fun hzero => ?_⟩
      dsimp only [NetStack.socketCreate] at hzero
      exact absurd hzero (by decide)
    | some c =>
      have hc := hnew c rfl
      set linked := ((NetStack.modify { net.setSock c (Sock.fresh .unix (net.socks s).type (net.socks s).protocol)
          with list := c :: net.list } c fun sock => { sock with peer := some s, state := .connected }).modify s
        fun sock => { sock with peer := some c, state := .connected }) with hlink
      have hque : ∀ k, (linked.socks k).acceptQueue = (net.socks k).acceptQueue := by
        intro k
        have hmade : ((net.setSock c (.fresh .unix (net.socks s).type (net.socks s).protocol)).socks k).acceptQueue =
          (net.socks k).acceptQueue := h.acceptQueue_create hc rfl k
        refine (Queued.acceptQueue_modify _ s ?_ k).trans ((Queued.acceptQueue_modify _ c ?_ k).trans hmade) <;>
          exact fun _ => rfl
      have hl : l ∈ net.list := mem_of_find?_eq_some hlistener
      obtain ⟨hkept, hroom⟩ := (h.congr hque (subset_cons_self c net.list)).queueChild
        (mem_cons_of_mem c hl) mem_cons_self fun k hmem => by
          rw [hque] at hmem
          exact hc (h.listed k c hmem).1
      rw [hque] at hroom
      subst hres
      exact ⟨hkept, fun _ => ⟨l, c, rfl, rfl, hroom⟩⟩

end

/-! ## Runs -/

namespace AcceptWorld

variable {arp : BitVec 32 → Option (List Byte)} {w w' : AcceptWorld}

structure Inv (w : AcceptWorld) : Prop where
  made : ∀ entry ∈ w.made, entry.isSome
  queued : Queued w.accepted (childrenOf w.made) w.net

theorem childrenOf_append (made : List (Option (Nat × Nat))) (l c : Nat) :
    childrenOf (made ++ [some (l, c)]) = update (childrenOf made) l (childrenOf made l ++ [c]) := by
  funext k
  unfold childrenOf
  by_cases hk : k = l
  · subst hk
    simp
  · rw [update_of_ne hk, filterMap_append]
    simp [Ne.symm hk]

theorem Inv.connect (h : Inv w) {unixPath : Nat → List Byte} {child : Option (Nat × Nat)} {Success : Prop}
    [Decidable Success] (hqueued : Queued w.accepted (childrenOf w.made) net)
    (hroomy : ∀ l c, child = some (l, c) → (w.net.socks l).acceptQueue.length < 16)
    (hsucc : Success → ∃ l c, child = some (l, c) ∧ ((w.net.socks l).acceptQueue.length < 16 →
      Queued w.accepted (update (childrenOf w.made) l (childrenOf w.made l ++ [c])) net)) :
    Inv ⟨net, unixPath, if Success then w.made ++ [child] else w.made, w.accepted⟩ := by
  by_cases hdone : Success
  · rw [if_pos hdone]
    obtain ⟨l, c, rfl, hroom⟩ := hsucc hdone
    refine ⟨fun entry hent => ?_, ?_⟩
    · rcases mem_append.mp hent with hent | hent
      · exact h.made entry hent
      · rw [mem_singleton.mp hent]
        rfl
    · rw [childrenOf_append]
      exact hroom (hroomy l c rfl)
  · rw [if_neg hdone]
    exact ⟨h.made, hqueued⟩

theorem Inv.accept (h : Inv w) {rest : List Nat} (hque : (w.net.socks l).acceptQueue = c :: rest) :
    Inv { w with
      net := w.net.modify l fun sock => { sock with acceptQueue := rest }
      accepted := update w.accepted l (w.accepted l ++ [c]) } := by
  refine ⟨h.made, ?_⟩
  have hserved : (fun k => update w.accepted l (w.accepted l ++ [c]) k ++
      ((w.net.modify l fun sock => { sock with acceptQueue := rest }).socks k).acceptQueue) =
      fun k => w.accepted k ++ (w.net.socks k).acceptQueue := by
    funext k
    by_cases hk : k = l
    · subst hk
      rw [update_self, socks_modify_self, hque]
      simp
    · rw [update_of_ne hk, socks_modify_ne _ _ _ hk]
  unfold Queued
  rw [hserved]
  exact h.queued

theorem Inv.exec (h : Inv w) {call : SocketCall} (hposs : w.Possible call) (hroomy : w.Roomy ifs arp call) :
    Inv (w.exec ifs arp call) := by
  cases call with
  | socket alloc domain type protocol =>
    refine ⟨h.made, ?_⟩
    cases alloc with
    | none => exact h.queued
    | some c => exact h.queued.create (hposs c rfl) rfl
  | bindInet s ip port =>
    refine ⟨h.made, ?_⟩
    dsimp only [AcceptWorld.exec]
    exact h.queued.modify s fun _ => rfl
  | bindUnix s path =>
    refine ⟨h.made, ?_⟩
    dsimp only [AcceptWorld.exec]
    exact h.queued.modify s fun _ => rfl
  | listen s =>
    dsimp only [AcceptWorld.exec]
    split_ifs
    · refine ⟨h.made, ?_⟩
      dsimp only
      exact h.queued.modify s fun _ => rfl
    · exact h
  | connectUnix s path alloc =>
    obtain ⟨hkept, hdone⟩ := h.queued.sysConnectUnix hposs.2 s path rfl
    refine h.connect hkept hroomy.1 fun hzero => ?_
    obtain ⟨l, c, hlistener, rfl, hroom⟩ := hdone hzero
    exact ⟨l, c, by simp only [childOf, hlistener]; rfl, hroom⟩
  | connectInet s ephemeral ip port nonblock alloc fuel =>
    obtain ⟨hkept, hdone⟩ := h.queued.sysConnectInet hposs.2 fuel s ephemeral ip port nonblock rfl
    refine h.connect hkept hroomy.1 fun hzero => ?_
    obtain ⟨l, c, hlistener, hgot, hroom⟩ := hdone hzero
    exact ⟨l, c, by simp only [childOf, hlistener, hgot]; rfl, hroom⟩
  | accept l slot nonblock alloc fuel =>
    dsimp only [AcceptWorld.exec, sysAccept]
    by_cases hears : (w.net.socks l).state = .listening
    · rw [if_pos hears]
      cases hque : (w.net.socks l).acceptQueue with
      | nil => cases nonblock <;> exact h
      | cons c rest =>
        cases slot with
        | none =>
          rcases hroomy.2 with hnil | hsome
          · exact absurd (hque.symm.trans hnil) (cons_ne_nil c rest)
          · exact absurd hsome Bool.false_ne_true
        | some fd => exact h.accept hque
    · rw [if_neg hears]
      exact h

def Idle (w : AcceptWorld) : Prop := w.made = [] ∧ ∀ l, w.served l = []

theorem Idle.inv (h : w.Idle) : Inv w := by
  obtain ⟨hmade, hserved⟩ := h
  have hnone : (fun l => w.accepted l ++ (w.net.socks l).acceptQueue) = fun _ => [] := funext hserved
  refine ⟨by simp [hmade], ?_⟩
  unfold Queued
  rw [hnone, hmade]
  exact ⟨fun l => .refl _, fun l => nodup_nil, by simp, by simp⟩

/-- **Every successful connect can be accepted**, once and in order, as long as no connect meets a full queue and no
accept is short of a descriptor. -/
theorem successful_connects_accounted {start : AcceptWorld} (hstart : start.Idle)
    (hrun : ReflTransGen (Step ifs arp (Roomy ifs arp)) start w) : w.Accounted := by
  have hinv : Inv w := by
    refine invariant_of_step ?_ hstart.inv hrun
    rintro w w' h ⟨call, hpossible, hroomy, rfl⟩
    exact h.exec hpossible hroomy
  exact ⟨hinv.made, hinv.queued.order, hinv.queued.once, hinv.queued.apart⟩

/-! ## More connects than the queue holds -/

def boot : AcceptWorld where
  net := ⟨fun _ => .fresh .unix .stream 0, [], none, none, []⟩
  unixPath := fun _ => []
  made := []
  accepted := fun _ => []

/-- The machine with a listener at the path `a`. -/
def listening : AcceptWorld :=
  ((boot.exec [] (fun _ => none) (.socket (some 1) .unix .stream 0)).exec [] (fun _ => none)
    (.bindUnix 1 [97])).exec [] (fun _ => none) (.listen 1)

theorem run_listening {Allowed : AcceptWorld → SocketCall → Prop}
    (hmay : ∀ w, Allowed w (.socket (some 1) .unix .stream 0) ∧ Allowed w (.bindUnix 1 [97]) ∧ Allowed w (.listen 1)) :
    ReflTransGen (Step [] (fun _ => none) Allowed) boot listening := by
  refine ((ReflTransGen.single (step_of _ ?_ (hmay _).1)).tail (step_of _ ?_ (hmay _).2.1)).tail
    (step_of _ ?_ (hmay _).2.2)
  · simp [Possible, boot]
  · exact mem_cons_self
  · exact mem_cons_self

def connected : AcceptWorld :=
  (listening.exec [] (fun _ => none) (.socket (some 2) .unix .stream 0)).exec [] (fun _ => none)
    (.connectUnix 2 [97] (some 3))

theorem run_connected : ReflTransGen (Step [] (fun _ => none) (Roomy [] fun _ => none)) boot connected := by
  have hst0 : ReflTransGen (Step [] (fun _ => none) (Roomy [] fun _ => none)) boot listening :=
    run_listening fun w => by simp [Roomy, childOf]
  refine (hst0.tail (step_of _ ?_ ?_)).tail (step_of _ ⟨mem_cons_self, ?_⟩ ⟨?_, trivial⟩)
  · exact fun c hc => Option.some.inj hc ▸ (by decide : 2 ∉ [1])
  · simp [Roomy, childOf]
  · exact fun c hc => Option.some.inj hc ▸ (by decide : 3 ∉ [2, 1])
  · intro l c hkid
    obtain ⟨rfl, rfl⟩ : 1 = l ∧ 3 = c := Prod.mk.inj (Option.some.inj hkid)
    decide

/-- Its child waits, or is accepted. -/
theorem successful_connects_accounted_client : connected.Accounted ∧ connected.served 1 = [3] ∧
    (connected.exec [] (fun _ => none) (.accept 1 (some 3) true (fun _ => none) 0)).Accounted := by
  have hidle : boot.Idle := ⟨rfl, fun _ => rfl⟩
  refine ⟨successful_connects_accounted hidle run_connected, rfl,
    successful_connects_accounted hidle (run_connected.tail (step_of _ ?_ ?_))⟩
  · simp [Possible]
  · simp [Roomy, childOf]

/-- A new socket at the address `m` connects to the listener; its child is made at `m + 1`. -/
def addClient (w : AcceptWorld) (m : Nat) : AcceptWorld :=
  (w.exec [] (fun _ => none) (.socket (some m) .unix .stream 0)).exec [] (fun _ => none)
    (.connectUnix m [97] (some (m + 1)))

theorem run_addClient {m : Nat} (hm : m ∉ w.net.list)
    (hkid : m + 1 ∉ (w.exec [] (fun _ => none) (.socket (some m) .unix .stream 0)).net.list) :
    ReflTransGen (Step [] (fun _ => none) fun _ _ => True) w (w.addClient m) := by
  refine (ReflTransGen.single (step_of (.socket (some m) .unix .stream 0) ?_ trivial)).tail
    (step_of (.connectUnix m [97] (some (m + 1))) ⟨mem_cons_self, ?_⟩ trivial)
  · exact fun c hc => Option.some.inj hc ▸ hm
  · exact fun c hc => Option.some.inj hc ▸ hkid

def clients : Nat → AcceptWorld
  | 0 => listening
  | k + 1 => (clients k).addClient (2 * k + 2)

theorem run_clients {k : Nat} (hk : k ≤ 17) : ReflTransGen (Step [] (fun _ => none) fun _ _ => True) boot (clients k) := by
  have hfree : ∀ k < 17, 2 * k + 2 ∉ (clients k).net.list ∧
      2 * k + 3 ∉ ((clients k).exec [] (fun _ => none) (.socket (some (2 * k + 2)) .unix .stream 0)).net.list := by
    decide +kernel
  induction k with
  | zero => exact run_listening fun _ => ⟨trivial, trivial, trivial⟩
  | succ k ih => exact (ih (by omega)).trans (run_addClient (hfree k hk).1 (hfree k hk).2)

/-- **Seventeen clients connect and none is refused**, but only sixteen children wait. And the child of a single client
is gone after an accept for which there is no descriptor. -/
theorem connect_succeeds_unqueued : boot.Idle ∧ (∃ w, ReflTransGen (Step [] (fun _ => none) fun _ _ => True) boot w ∧
      (childrenOf w.made 1).length = 17 ∧ (w.served 1).length = 16 ∧ ¬ w.Accounted) ∧
    ∃ w, ReflTransGen (Step [] (fun _ => none) fun _ _ => True) boot w ∧
      childrenOf w.made 1 = [3] ∧ w.served 1 = [] ∧ ¬ w.Accounted := by
  refine ⟨⟨rfl, fun _ => rfl⟩, ?_, ?_⟩
  · have hlengths : (childrenOf (clients 17).made 1).length = 17 ∧ ((clients 17).served 1).length = 16 := by decide +kernel
    refine ⟨clients 17, run_clients le_rfl, hlengths.1, hlengths.2, fun haccounted => ?_⟩
    have hlength := (haccounted.order 1).length_le
    rw [hlengths.1, hlengths.2] at hlength
    omega
  · refine ⟨_, (run_clients (k := 1) (by decide)).tail (step_of (.accept 1 none true (fun _ => none) 0) ?_ trivial), rfl,
      rfl, fun haccounted => ?_⟩
    · simp [Possible]
    · have hlength := (haccounted.order 1).length_le
      exact absurd hlength (by decide)

end AcceptWorld

end SzpontOS.Net
