import SzpontOS.Fd.Epoll
import SzpontOS.Libc.Text
import SzpontOS.Net.Socket
import SzpontOS.Lib.Hierarchy

/-!
# Polling

`vfs_poll_node` on an epoll instance asks `epoll_has_pollin`, which takes the lock of the instance and polls every
descriptor of its interest set, other instances among them. `sys_epoll_ctl` refuses only an instance that is added to
itself under the same descriptor number: two instances may monitor each other, and then polling spins on a lock that it
holds (`poll_cycle`). As long as no call closes a cycle, polling returns (`polling_returns`): the locks held on the way
are those of distinct descriptions in the table of the process, at most `MAX_FD`.

`vfs_poll_node` tells the other nodes apart by their names. A regular file may have such a name too, and then its data
is taken for an object with a lock (`Honest`). Whether a device has input is part of the state.
-/

namespace SzpontOS.Fd

open Lib Libc Relation Function List Option

/-- The branches of `vfs_poll_node` for nodes that are known by their names. -/
inductive PollKind
  | input
  | pty
  | eventfd
  | epoll
  | inotify
  | timerfd
  | signalfd
  | tty
  | dri
  | plain
deriving DecidableEq

/-- What `vfs_poll_node` reads of a node that is no pipe, socket or epoll instance. -/
structure PollNode where
  name : List UInt8
  isSlave : Bool
  /-- the offset of the descriptor and the length, for `VFS_TYPE_FILE` -/
  file : Option (Int × Int)
  /-- the kind of object at `device_data`; `none` is `NULL` -/
  data : Option PollKind
  /-- what `pty_node_is_hungup`, `…_has_pollin` and `…_has_pollout` read there -/
  hungUp : Bool
  pollin : Bool
  pollout : Bool

def PollNode.kind (node : PollNode) : PollKind :=
  if node.name ∈ [ascii "event0", ascii "event1", ascii "mice", ascii "psaux", ascii "mouse"] then .input
  else if ascii "ptmx" <+: node.name ∨ ascii "pts" <+: node.name ∨ node.isSlave then .pty
  else if ascii "eventfd:" <+: node.name then .eventfd
  else if ascii "epoll:" <+: node.name then .epoll
  else if ascii "inotify:" <+: node.name then .inotify
  else if ascii "timerfd:" <+: node.name then .timerfd
  else if ascii "signalfd:" <+: node.name then .signalfd
  else if ascii "tty" <+: node.name ∨ node.name = ascii "console" ∨ node.name = ascii "serial" then .tty
  else if node.name = ascii "card0" ∨ node.name = ascii "renderD128" ∨ ascii "dri/" <+: node.name then .dri
  else .plain

structure PollState where
  epoll : EpollWorld
  net : Net.NetStack
  node : Nat → PollNode
  /-- the devices that have input, by name -/
  ready : List UInt8 → Bool

/-- Why a poll does not return: it waits for a lock that it holds itself, or for one where there is none, or the depth
it was given is used up. -/
inductive PollFault
  | relock
  | foreign
  | fuel
deriving DecidableEq

/-- `POLLIN`, `POLLRDNORM` and `POLLRDBAND` -/
def pollInMask : BitVec 16 := 0x00C1

/-- `POLLOUT`, `POLLWRNORM` and `POLLWRBAND` -/
def pollOutMask : BitVec 16 := 0x0304

/-- `value` if it holds. -/
def onlyIf (p : Prop) [Decidable p] (value : BitVec 16) : BitVec 16 := if p then value else 0

namespace PollState

variable (w : PollState)

/-- `vfs_poll_node` on a socket. -/
def pollSocket (s : Nat) (events : BitVec 16) : BitVec 16 :=
  let sock := w.net.socks s
  match sock.domain, sock.type with
  | .unix, _ =>
    if sock.state = .listening then onlyIf (0 < sock.acceptQueue.length) (events &&& pollInMask)
    else
      let peerClosed := sock.peer.all fun p => (w.net.socks p).state = .closed
      let hungUp := sock.state = .closed ∨ sock.state = .connected ∧ peerClosed
      onlyIf (0 < sock.rx.len ∨ hungUp) (events &&& pollInMask) ||| onlyIf hungUp 0x0010 |||
        onlyIf (sock.state = .connected ∧ sock.peer.any fun p =>
          (w.net.socks p).state ≠ .closed ∧ (w.net.socks p).rx.len < Net.sockRxBufSize) (events &&& pollOutMask)
  | _, .dgram | _, .raw =>
    onlyIf (0 < sock.dgramQueue.length ∨ 0 < sock.rx.len) (events &&& pollInMask) ||| events &&& pollOutMask
  | _, .stream =>
    onlyIf (0 < sock.rx.len ∨ 0 < sock.acceptQueue.length ∨ sock.state = .closed ∨ sock.tcpState = .closeWait ∨
        sock.tcpState = .closed) (events &&& pollInMask) |||
      onlyIf (sock.state = .connected ∨ sock.tcpState = .established) (events &&& pollOutMask) |||
      onlyIf (sock.tcpState = .closed ∧ sock.state = .connecting) 0x0018
  | _, .other => 0

/-- `vfs_poll_node` on a pipe end; which of the two it is is read off the description's flags. -/
def pollPipe (ch : Chan) (flags : BitVec 32) (events : BitVec 16) : BitVec 16 :=
  if flags.getLsbD 0 then
    onlyIf (ch.ring.len < pipeBufSize ∧ 0 < ch.readers) (events &&& 0x0104) ||| onlyIf (ch.readers ≤ 0) 0x0018
  else onlyIf (0 < ch.ring.len ∨ ch.writers = 0) (events &&& 0x0041) ||| onlyIf (ch.writers = 0) 0x0010

/-- `eventfd_has_pollin` and its like, which take the lock of the object that they expect, if the event is `asked` for. -/
def answer (node : PollNode) (asked value : Bool) : Except PollFault Bool :=
  match node.data with
  | none => .ok false
  | some kind => if ¬ asked then .ok false else if kind = node.kind then .ok value else .error .foreign

/-- `vfs_poll_node` on the other nodes. -/
def pollNode (node : PollNode) (events : BitVec 16) : Except PollFault (BitVec 16) :=
  match node.kind with
  | .input => .ok (onlyIf (w.ready node.name) (events &&& 1))
  | .pty =>
    .ok (onlyIf (ascii "ptmx" <+: node.name ∧ node.hungUp) 0x0011 ||| onlyIf node.pollin (events &&& 1) |||
      onlyIf node.pollout (events &&& 4))
  | .eventfd => do
    let pollin ← answer node (events.getLsbD 0) node.pollin
    let pollout ← answer node (events.getLsbD 2) node.pollout
    return onlyIf pollin 1 ||| onlyIf pollout 4
  | .epoll | .inotify | .timerfd | .signalfd => do
    let pollin ← answer node (events.getLsbD 0) node.pollin
    return onlyIf pollin 1
  | .tty => .ok (onlyIf (w.ready (ascii "tty")) (events &&& 1) ||| events &&& 4)
  | .dri => .ok (onlyIf (w.ready (ascii "dri")) (events &&& 1) ||| events &&& 4)
  | .plain => .ok (onlyIf (node.file.any fun file => file.1 < file.2) (events &&& 1) ||| events &&& 4)

/-- `vfs_poll_node` on a description that is no epoll instance. -/
def pollLeaf (d : Nat) (events : BitVec 16) : Except PollFault (BitVec 16) :=
  match w.epoll.fds.descs d with
  | none => .ok 0
  | some f =>
    match f.target with
    | .socket s => .ok (w.pollSocket s events)
    | .pipe c _ => .ok ((w.epoll.fds.chans c).elim 0 fun ch => pollPipe ch f.flags events)
    | .other => w.pollNode (w.node d) events

/-- The loop of `epoll_has_pollin`: `fds` is the table of the process, and `poll` is `vfs_poll_node` with the lock of
the instance held. -/
def hasPollin (fds : Nat → Option Nat) (poll : Nat → BitVec 16 → Except PollFault (BitVec 16)) :
    List EpollEntry → Except PollFault Bool
  | [] => .ok false
  | entry :: rest =>
    match fds entry.fd with
    | none => hasPollin fds poll rest
    | some d => do
      let status ← poll d (entry.events.setWidth 16)
      if ¬ entry.disabled ∧ status &&& entry.events.setWidth 16 ≠ 0 then .ok true else hasPollin fds poll rest

/-- `vfs_poll_node`, with the instances whose locks are held. -/
def vfsPollNode (pid : Int) : Nat → List Nat → Nat → BitVec 16 → Except PollFault (BitVec 16)
  | 0, _, _, _ => .error .fuel
  | fuel + 1, locks, d, events =>
    match w.epoll.inst d with
    | none => w.pollLeaf d events
    | some entries =>
      if events.getLsbD 0 then
        if d ∈ locks then .error .relock
        else do
          let ready ← hasPollin (fun i => w.epoll.fds.lookup pid i) (vfsPollNode pid fuel (d :: locks)) entries
          return onlyIf ready 1
      else .ok 0

/-- The events that `sys_epoll_pwait` delivers for an entry, given the result of the poll. -/
def deliverable (entry : EpollEntry) (status : BitVec 16) : BitVec 32 :=
  if entry.disabled then 0
  else (entry.events &&& 0x2007 &&& status.setWidth 32) ||| (status.setWidth 32 &&& 0x0018)

/-- The loop of `sys_epoll_pwait`, with room for `room` more events: those delivered, and the entries it leaves. -/
def collect (fds : Nat → Option Nat) (poll : Nat → BitVec 16 → Except PollFault (BitVec 16)) :
    Nat → List EpollEntry → Except PollFault (List EpollEvent × List EpollEntry)
  | 0, entries => .ok ([], entries)
  | _ + 1, [] => .ok ([], [])
  | room + 1, entry :: rest =>
    match fds entry.fd with
    | none => do
      let (events, rest) ← collect fds poll (room + 1) rest
      return (events, entry :: rest)
    | some d => do
      let status ← poll d (entry.events.setWidth 16)
      if deliverable entry status = 0 then
        let (events, rest) ← collect fds poll (room + 1) rest
        return (events, entry :: rest)
      else
        -- `EPOLLONESHOT`
        let entry' := if entry.events.getLsbD 30 then { entry with disabled := true } else entry
        let (events, rest) ← collect fds poll room rest
        return (⟨deliverable entry status, entry.data⟩ :: events, entry' :: rest)

/-- `sys_epoll_pwait` with timeout 0; `present` is whether `events` is not null, and `copied` whether it can be
written to. -/
def sysEpollPwait (fuel : Nat) (pid epfd maxevents : Int) (present copied : Bool) :
    Except PollFault (Int × List EpollEvent × EpollWorld) :=
  if maxevents ≤ 0 ∨ 4096 < maxevents then .ok (-22, [], w.epoll)
  else if ¬ present then .ok (-14, [], w.epoll)
  else
    match w.epoll.fds.lookup pid epfd with
    | none => .ok (-9, [], w.epoll)
    | some d =>
      match w.epoll.inst d with
      | none => .ok (-22, [], w.epoll)
      | some entries => do
        let (events, entries) ← collect (fun i => w.epoll.fds.lookup pid i) (w.vfsPollNode pid fuel [d])
          (min maxevents.toNat 64) entries
        let after := w.epoll.setInst d entries
        if events = [] then return (0, [], after)
        else if copied then return (events.length, events, after)
        else return (-14, [], after)

end PollState

open PollState

/-- The name of the node promises no lock but that of the object it has. -/
def PollNode.Honest (node : PollNode) : Prop :=
  node.kind ∈ [.eventfd, .epoll, .inotify, .timerfd, .signalfd] → ∀ kind ∈ node.data, kind = node.kind

/-! ## The graph of instances -/

namespace EpollWorld

/-- In the eyes of process `pid`, instance `a` monitors instance `b` for input. -/
def Monitors (w : EpollWorld) (pid : Int) (a b : Nat) : Prop :=
  ∃ entries, w.inst a = some entries ∧ (w.inst b).isSome ∧
    ∃ entry ∈ entries, entry.events.getLsbD 0 ∧ w.fds.lookup pid entry.fd = some b

def Acyclic (w : EpollWorld) : Prop := ∀ pid a, ¬ TransGen (w.Monitors pid) a a

/-- **No cycle is closed.** Where `epoll_ctl` makes an entry monitor a descriptor for input, the instance cannot be
reached from the instance behind that descriptor, in any process. -/
def ClosesNoCycle (w : EpollWorld) : EpollCall → Prop
  | .ctl q epfd op fd (some ev) => (op = 1 ∨ op = 3) → ev.events.getLsbD 0 → ∀ a, w.fds.lookup q epfd = some a →
      ∀ pid b, w.fds.lookup pid fd = some b → ¬ ReflTransGen (w.Monitors pid) b a
  | _ => True

/-- A call of `sys_epoll_create1` or `sys_epoll_ctl`. -/
def Builds : EpollCall → Prop
  | .create .. | .ctl .. => True
  | _ => False

def BuildStep (Allowed : EpollWorld → EpollCall → Prop) (w w' : EpollWorld) : Prop :=
  ∃ call, Builds call ∧ w.Fresh call ∧ Allowed w call ∧ w' = w.perform call

end EpollWorld

/-! ## Polling in an acyclic graph -/

variable {entries : List EpollEntry} {q fd : Int}

namespace PollState

variable {w : PollState} {pid : Int} {d : Nat}

theorem returns_bind {α β : Type} {x : Except PollFault α} {f : α → Except PollFault β} (hx : ∃ a, x = .ok a)
    (hf : ∀ a, ∃ r, f a = .ok r) : ∃ r, x >>= f = .ok r := by
  obtain ⟨a, ha⟩ := hx
  rw [ha]
  exact hf a

theorem answer_returns {node : PollNode} (hdata : ∀ kind ∈ node.data, kind = node.kind) (asked value : Bool) :
    ∃ r, answer node asked value = .ok r := by
  unfold answer
  cases hd : node.data with
  | none => exact ⟨false, rfl⟩
  | some kind =>
    dsimp only
    rw [if_pos (hdata kind hd)]
    split_ifs <;> exact ⟨_, rfl⟩

theorem pollNode_returns {node : PollNode} (h : node.Honest) (events : BitVec 16) : ∃ r, w.pollNode node events = .ok r := by
  unfold PollNode.Honest at h
  unfold pollNode
  split
  case h_3 =>
    have hdata := h (by simp [*])
    exact returns_bind (answer_returns hdata _ _) fun _ => returns_bind (answer_returns hdata _ _) fun _ => ⟨_, rfl⟩
  case h_4 | h_5 | h_6 | h_7 => exact returns_bind (answer_returns (h (by simp [*])) _ _) fun _ => ⟨_, rfl⟩
  all_goals exact ⟨_, rfl⟩

theorem pollLeaf_returns (h : (w.node d).Honest) (events : BitVec 16) : ∃ r, w.pollLeaf d events = .ok r := by
  unfold pollLeaf
  split
  · exact ⟨_, rfl⟩
  · split
    · exact ⟨_, rfl⟩
    · exact ⟨_, rfl⟩
    · exact pollNode_returns h events

section

variable {fds : Nat → Option Nat} {poll : Nat → BitVec 16 → Except PollFault (BitVec 16)}
  (hpoll : ∀ entry ∈ entries, ∀ d, fds entry.fd = some d → ∃ r, poll d (entry.events.setWidth 16) = .ok r)

include hpoll

theorem hasPollin_returns : ∃ r, hasPollin fds poll entries = .ok r := by
  induction entries with
  | nil => exact ⟨false, rfl⟩
  | cons entry rest ih =>
    have hrest := ih fun e he => hpoll e (mem_cons_of_mem entry he)
    unfold hasPollin
    cases hd : fds entry.fd with
    | none => exact hrest
    | some d =>
      refine returns_bind (hpoll entry mem_cons_self d hd) fun status => ?_
      split_ifs
      · exact ⟨true, rfl⟩
      · exact hrest

theorem collect_returns (room : Nat) : ∃ r, collect fds poll room entries = .ok r := by
  induction entries generalizing room with
  | nil => cases room <;> exact ⟨_, rfl⟩
  | cons entry rest ih =>
    have hrest := ih fun e he => hpoll e (mem_cons_of_mem entry he)
    cases room with
    | zero => exact ⟨_, rfl⟩
    | succ room =>
      unfold collect
      cases hd : fds entry.fd with
      | none => exact returns_bind (hrest _) fun _ => ⟨_, rfl⟩
      | some d =>
        refine returns_bind (hpoll entry mem_cons_self d hd) fun status => ?_
        split
        · exact returns_bind (hrest _) fun _ => ⟨_, rfl⟩
        · exact returns_bind (hrest _) fun _ => ⟨_, rfl⟩

end

/-- Locks of distinct instances of the process. -/
structure Locked (w : PollState) (pid : Int) (locks : List Nat) : Prop where
  nodup : locks.Nodup
  table : ∀ l ∈ locks, ∃ fd, w.epoll.fds.lookup pid fd = some l

theorem Locked.length_le {locks : List Nat} (h : Locked w pid locks) : locks.length ≤ maxFd := by
  have hsub : locks ⊆ (List.range maxFd).filterMap fun i => w.epoll.fds.place (slot pid i) := by
    intro l hl
    obtain ⟨fd, hfd⟩ := h.table l hl
    unfold FdWorld.lookup at hfd
    split_ifs at hfd with hrange
    exact mem_filterMap.mpr ⟨fd.toNat, mem_range.mpr (by omega), hfd⟩
  have hle := (h.nodup.subperm hsub).length_le
  have hfilter := length_filterMap_le (fun i => w.epoll.fds.place (slot pid i)) (List.range maxFd)
  rw [length_range] at hfilter
  exact hle.trans hfilter

section

variable (hacyc : w.epoll.Acyclic) (hhonest : ∀ fd d, w.epoll.fds.lookup pid fd = some d → (w.node d).Honest)

include hacyc hhonest

/-- **A poll returns** in an acyclic graph, if the instances whose locks are held lead to the description. -/
theorem vfsPollNode_returns (fuel : Nat) : ∀ (locks : List Nat) (fd : Int) (d : Nat)
    (events : BitVec 16), Locked w pid locks → w.epoll.fds.lookup pid fd = some d →
      (events.getLsbD 0 → (w.epoll.inst d).isSome → ∀ l ∈ locks, TransGen (w.epoll.Monitors pid) l d) →
      maxFd < locks.length + fuel → ∃ r, w.vfsPollNode pid fuel locks d events = .ok r := by
  induction fuel with
  | zero =>
    intro locks fd d events hlock _ _ hfuel
    have := hlock.length_le
    omega
  | succ fuel ih =>
    intro locks fd d events hlock hd hleads hfuel
    unfold vfsPollNode
    cases hinst : w.epoll.inst d with
    | none => exact pollLeaf_returns (hhonest fd d hd) events
    | some entries =>
      have hsome : (w.epoll.inst d).isSome := by
        rw [hinst]
        rfl
      dsimp only
      split_ifs with hin hmem
      · -- a lock that is held leads to `d`
        exact absurd (hleads hin hsome d hmem) (hacyc pid d)
      · have hlock' : Locked w pid (d :: locks) := by
          refine ⟨nodup_cons.mpr ⟨hmem, hlock.nodup⟩, fun l hl => ?_⟩
          rcases mem_cons.mp hl with rfl | hl
          · exact ⟨fd, hd⟩
          · exact hlock.table l hl
        refine returns_bind (hasPollin_returns fun entry hent x hx => ?_) fun _ => ⟨_, rfl⟩
        refine ih (d :: locks) entry.fd x _ hlock' hx (fun hbit hx' l hl => ?_) ?_
        · have hedge : w.epoll.Monitors pid d x := ⟨entries, hinst, hx', entry, hent, by simpa using hbit, hx⟩
          rcases mem_cons.mp hl with rfl | hl
          · exact .single hedge
          · exact (hleads hin hsome l hl).tail hedge
        · rw [length_cons]
          omega
      · exact ⟨_, rfl⟩

theorem sysEpollPwait_returns {fuel : Nat} (hfuel : maxFd < fuel) (epfd maxevents : Int)
    (present copied : Bool) : ∃ r, w.sysEpollPwait fuel pid epfd maxevents present copied = .ok r := by
  unfold sysEpollPwait
  cases hd : w.epoll.fds.lookup pid epfd with
  | none =>
    split_ifs <;> exact ⟨_, rfl⟩
  | some d =>
    dsimp only
    cases hinst : w.epoll.inst d with
    | none =>
      split_ifs <;> exact ⟨_, rfl⟩
    | some entries =>
      have hlock : Locked w pid [d] := by
        refine ⟨nodup_singleton d, fun l hl => ?_⟩
        rw [mem_singleton.mp hl]
        exact ⟨epfd, hd⟩
      split
      · exact ⟨_, rfl⟩
      split
      · exact ⟨_, rfl⟩
      refine returns_bind (collect_returns (fun entry hent x hx => ?_) _) fun _ => ?_
      · refine vfsPollNode_returns hacyc hhonest fuel [d] entry.fd x _ hlock hx (fun hbit hx' l hl => ?_) ?_
        · rw [mem_singleton.mp hl]
          exact .single ⟨entries, hinst, hx', entry, hent, by simpa using hbit, hx⟩
        · exact hfuel.trans (Nat.lt_add_of_pos_left Nat.one_pos)
      · split_ifs <;> exact ⟨_, rfl⟩

end

end PollState

/-! ## Building a configuration -/

namespace EpollWorld

variable {w : EpollWorld} {d : Nat}

theorem Acyclic.setInst (h : w.Acyclic) {a : Nat} {entries' : List EpollEntry} (ha : w.inst a = some entries)
    (hents : ∀ e ∈ entries', e ∈ entries ∨ (e.events.getLsbD 0 → ∀ pid b, w.fds.lookup pid e.fd = some b →
      ¬ ReflTransGen (w.Monitors pid) b a)) : (w.setInst a entries').Acyclic := by
  intro pid
  refine acyclic_insert (h pid) (a := a) ?_
  rintro x y ⟨list, hlist, hy, e, he, hbit, hlook⟩
  have hy' : (w.inst y).isSome := by
    by_cases hya : y = a
    · rw [hya, ha]
      rfl
    · rw [inst_setInst, update_of_ne hya] at hy
      exact hy
  by_cases hx : x = a
  · subst hx
    rw [inst_setInst, update_self] at hlist
    rw [← some.inj hlist] at he
    rcases hents e he with hold | hnew
    · exact .inl ⟨entries, ha, hy', e, hold, hbit, hlook⟩
    · exact .inr ⟨rfl, hnew hbit pid y hlook⟩
  · rw [inst_setInst, update_of_ne hx] at hlist
    exact .inl ⟨list, hlist, hy', e, he, hbit, hlook⟩

theorem mem_modEntry {fd : Nat} {ev : EpollEvent} {e : EpollEntry} (he : e ∈ modEntry fd ev entries) :
    e ∈ entries ∨ e.fd = fd ∧ e.events = ev.events := by
  induction entries with
  | nil => exact .inl he
  | cons entry rest ih =>
    unfold modEntry at he
    split_ifs at he with hfd
    · rcases mem_cons.mp he with rfl | he
      · exact .inr ⟨hfd, rfl⟩
      · exact .inl (mem_cons_of_mem entry he)
    · rcases mem_cons.mp he with rfl | he
      · exact .inl mem_cons_self
      · exact (ih he).imp_left (mem_cons_of_mem entry)

theorem lookup_toNat {v : FdWorld} (hfd : v.lookup q fd ≠ none) (pid : Int) :
    v.lookup pid fd.toNat = v.lookup pid fd := by
  unfold FdWorld.lookup at hfd
  split_ifs at hfd with hrange
  · rw [Int.toNat_of_nonneg hrange.1]
  · exact absurd rfl hfd

theorem Acyclic.sysEpollCtl (h : w.Acyclic) {epfd op : Int} {event : Option EpollEvent}
    (hcall : w.ClosesNoCycle (.ctl q epfd op fd event)) : (w.sysEpollCtl q epfd op fd event).2.Acyclic := by
  unfold EpollWorld.sysEpollCtl
  cases ha : w.fds.lookup q epfd with
  | none => exact h
  | some a =>
    cases hb : w.fds.lookup q fd with
    | none => exact h
    | some b =>
      have hfd : w.fds.lookup q fd ≠ none := by
        rw [hb]
        simp
      dsimp only
      by_cases hself : epfd = fd
      · rw [if_pos hself]
        exact h
      · rw [if_neg hself]
        cases hinst : w.inst a with
        | none => exact h
        | some entries =>
          dsimp only
          by_cases hadd : op = 1
          · rw [if_pos hadd]
            cases event with
            | none => exact h
            | some ev =>
              split_ifs
              · exact h
              · refine h.setInst hinst fun e he => ?_
                rcases mem_cons.mp he with rfl | he
                · right
                  intro hbit pid x hx
                  rw [lookup_toNat hfd] at hx
                  exact hcall (.inl hadd) hbit a ha pid x hx
                · exact .inl he
          · rw [if_neg hadd]
            by_cases hmod : op = 3
            · rw [if_pos hmod]
              cases event with
              | none => exact h
              | some ev =>
                split_ifs
                · refine h.setInst hinst fun e he => ?_
                  refine (mem_modEntry he).imp_right fun ⟨hnum, hevents⟩ hbit pid x hx => ?_
                  rw [hnum, lookup_toNat hfd] at hx
                  exact hcall (.inr hmod) (hevents ▸ hbit) a ha pid x hx
                · exact h
            · split_ifs
              · exact h.setInst hinst fun e he => .inl (mem_of_mem_eraseP he)
              · exact h
              · exact h

theorem Acyclic.sysEpollCreate1 (h : w.Acyclic) (q : Int) (flags : BitVec 32) (d : Nat) :
    (w.sysEpollCreate1 q flags d).2.Acyclic := by
  unfold EpollWorld.sysEpollCreate1
  cases w.fds.freeSlot q 3 with
  | none =>
    split_ifs <;> exact h
  | some fd =>
    dsimp only
    by_cases hflag : flags &&& ~~~FdWorld.oCloexec ≠ 0
    · rw [if_pos hflag]
      exact h
    · rw [if_neg hflag]
      generalize hfds : (if flags &&& FdWorld.oCloexec ≠ 0 then _ else _ : FdWorld) = fds
      have hplace : fds.place = update w.fds.place (slot q fd) (some d) := by
        rw [← hfds]
        split_ifs <;> rfl
      intro pid
      refine acyclic_sink (h pid) (a := d) ?_ ?_
      · rintro y ⟨entries, hents, -, e, he, -⟩
        dsimp only at hents
        rw [update_self] at hents
        rw [← some.inj hents] at he
        exact absurd he not_mem_nil
      · rintro x y ⟨entries, hents, hy, e, he, hbit, hlook⟩
        by_cases hyd : y = d
        · exact .inr hyd
        · left
          by_cases hx : x = d
          · subst hx
            dsimp only at hents
            rw [update_self] at hents
            rw [← some.inj hents] at he
            exact absurd he not_mem_nil
          · dsimp only at hents hy hlook
            rw [update_of_ne hx] at hents
            rw [update_of_ne hyd] at hy
            refine ⟨entries, hents, hy, e, he, hbit, ?_⟩
            unfold FdWorld.lookup at hlook ⊢
            rw [hplace] at hlook
            split_ifs at hlook ⊢
            by_cases hslot : slot pid (e.fd : Int).toNat = slot q fd
            · rw [hslot, update_self] at hlook
              exact absurd (some.inj hlook).symm hyd
            · rwa [update_of_ne hslot] at hlook

/-- **What is built is acyclic**, as long as no call closes a cycle. -/
theorem acyclic_of_built {start : EpollWorld} (hst0 : ∀ d, start.inst d = none)
    (hrun : ReflTransGen (BuildStep ClosesNoCycle) start w) : w.Acyclic := by
  have hstep : ∀ v v' : EpollWorld, v.Acyclic → BuildStep ClosesNoCycle v v' → v'.Acyclic := by
    rintro v v' hv ⟨call, hbuilds, -, hmay, rfl⟩
    cases call with
    | create q flags d => exact hv.sysEpollCreate1 q flags d
    | ctl q epfd op fd event => exact hv.sysEpollCtl hmay
    | close | dup | dup2 | dup3 | fcntl | fork | exit => exact hbuilds.elim
  refine invariant_of_step hstep ?_ hrun
  intro pid a hcycle
  obtain ⟨b, ⟨entries, hents, -⟩, -⟩ := TransGen.head'_iff.mp hcycle
  rw [hst0 a] at hents
  exact absurd hents (by simp)

/-- **Polling returns.** In every configuration built by calls that close no cycle, `vfs_poll_node` on every descriptor
and `sys_epoll_pwait` with timeout 0 return and never wait for a lock that they hold, if the names of the nodes that the
process has open are honest. -/
theorem polling_returns {start : EpollWorld} (hstart : ∀ d, start.inst d = none)
    (hrun : ReflTransGen (BuildStep ClosesNoCycle) start w) (net : Net.NetStack) (node : Nat → PollNode)
    (ready : List UInt8 → Bool) (pid : Int) (hhonest : ∀ fd d, w.fds.lookup pid fd = some d → (node d).Honest)
    (fuel : Nat) (hfuel : maxFd < fuel) :
    (∀ fd d events, w.fds.lookup pid fd = some d →
      ∃ r, vfsPollNode ⟨w, net, node, ready⟩ pid fuel [] d events = .ok r) ∧
    ∀ epfd maxevents present copied,
      ∃ r, sysEpollPwait ⟨w, net, node, ready⟩ fuel pid epfd maxevents present copied = .ok r := by
  have hacyclic := acyclic_of_built hstart hrun
  refine ⟨fun fd d events hd => ?_, fun epfd maxevents present copied => ?_⟩
  · refine vfsPollNode_returns hacyclic hhonest fuel [] fd d events ⟨List.nodup_nil, ?_⟩ hd ?_ ?_
    · exact fun l hl => absurd hl (List.not_mem_nil)
    · exact fun _ _ l hl => absurd hl (List.not_mem_nil)
    · rwa [List.length_nil, Nat.zero_add]
  · exact sysEpollPwait_returns hacyclic hhonest hfuel epfd maxevents present copied

/-! ## Two instances that monitor each other -/

theorem builds_built (Allowed : EpollWorld → EpollCall → Prop) (hmay : ∀ v d, Allowed v (.create 1 0 d)) :
    ReflTransGen (BuildStep Allowed) boot built := by
  have hfst : BuildStep Allowed boot (boot.perform (.create 1 0 1)) := ⟨.create 1 0 1, trivial, rfl, hmay boot 1, rfl⟩
  have hsnd : BuildStep Allowed (boot.perform (.create 1 0 1)) built := by
    refine ⟨.create 1 0 2, trivial, ?_, hmay _ 2, rfl⟩
    show (boot.perform (.create 1 0 1)).fds.descs 2 = none
    decide +kernel
  exact (ReflTransGen.single hfst).tail hsnd

theorem built_monitors (pid : Int) (a b : Nat) : ¬ built.Monitors pid a b := by
  rintro ⟨entries, hents, -, e, he, -⟩
  have hinst : built.inst = update (update boot.inst 1 (some [])) 2 (some []) := rfl
  have hemp : entries = [] := by
    rw [hinst, update_apply, update_apply] at hents
    split_ifs at hents
    · exact (some.inj hents).symm
    · exact (some.inj hents).symm
    · exact absurd hents (by simp [boot])
  rw [hemp] at he
  exact absurd he not_mem_nil

def noSockets : Net.NetStack := ⟨fun _ => .fresh .unix .stream 0, [], none, none, []⟩

/-- The configuration, where every other node is a regular file of that name. -/
def withFiles (w : EpollWorld) (name : String) : PollState :=
  ⟨w, noSockets, fun _ => ⟨ascii name, false, some (0, 1), some .plain, false, false, false⟩, fun _ => false⟩

/-- One instance that monitors the other can be polled. -/
theorem polling_returns_watched : (∃ r, (withFiles watched "x").vfsPollNode 1 257 [] 1 1 = .ok r) ∧
    ∃ r, (withFiles watched "x").sysEpollPwait 257 1 3 1 true true = .ok r := by
  have hfirst : built.fds.lookup 1 3 = some 1 := by decide +kernel
  have hsecond : ∀ pid b, built.fds.lookup pid 4 = some b → b ≠ 1 := by
    rintro pid b hb rfl
    have hplace : built.fds.place (slot pid 4) =
        update (update (fun _ => none) (slot 1 3) (some 1)) (slot 1 4) (some 2) (slot pid 4) := rfl
    rw [show (4 : Int) = ((4 : Nat) : Int) from rfl, lookup_natCast built.fds pid (by decide), hplace, update_apply,
      update_of_ne (by simp [slot])] at hb
    split_ifs at hb
    cases hb
  have hallowed : built.ClosesNoCycle (.ctl 1 3 1 4 (some ⟨1, 7⟩)) := by
    intro _ _ a ha pid b hb hpath
    rcases ReflTransGen.cases_head hpath with rfl | ⟨c, hedge, -⟩
    · exact hsecond pid b hb (some.inj (hfirst.symm.trans ha)).symm
    · exact built_monitors pid b c hedge
  have hrun :=
    (builds_built ClosesNoCycle fun _ _ => trivial).tail ⟨.ctl 1 3 1 4 (some ⟨1, 7⟩), trivial, trivial, hallowed, rfl⟩
  have hhonest : ((withFiles watched "x").node 0).Honest := fun hkind => absurd hkind (by decide)
  obtain ⟨hpoll, hpwait⟩ := polling_returns (fun _ => rfl) hrun noSockets (withFiles watched "x").node (fun _ => false) 1
    (fun _ _ _ => hhonest) 257 (by decide)
  refine ⟨hpoll 3 1 1 ?_, hpwait 3 1 true true⟩
  decide +kernel

/-- **Two instances that monitor each other.** Both entries are accepted, and a poll of the first takes its lock, takes
the lock of the second, and waits for the first lock again. A poll of a regular file with the name `epoll:x` takes its
data for an instance. -/
theorem poll_cycle : ((∀ d, boot.inst d = none) ∧ ∃ w, ReflTransGen (BuildStep fun _ _ => True) boot w ∧
    w.fds.lookup 1 3 = some 1 ∧
    (∀ fuel, (withFiles w "x").vfsPollNode 1 (fuel + 3) [] 1 1 = .error .relock) ∧
    ∀ fuel, (withFiles w "x").sysEpollPwait (fuel + 2) 1 3 1 true true = .error .relock) ∧
    ∀ fuel, (withFiles ⟨FdWorld.crowd 1 0, fun _ => none⟩ "epoll:x").vfsPollNode 1 (fuel + 1) [] 0 1 = .error .foreign := by
  have hwatched : BuildStep (fun _ _ => True) built watched :=
    ⟨.ctl 1 3 1 4 (some ⟨1, 7⟩), trivial, trivial, trivial, rfl⟩
  have hcrossed : BuildStep (fun _ _ => True) watched (watched.perform (.ctl 1 4 1 3 (some ⟨1, 8⟩))) :=
    ⟨.ctl 1 4 1 3 (some ⟨1, 8⟩), trivial, trivial, trivial, rfl⟩
  refine ⟨⟨fun _ => rfl, _, ((builds_built _ fun _ _ => trivial).tail hwatched).tail hcrossed, ?_, fun fuel => ?_,
    fun fuel => ?_⟩, fun fuel => ?_⟩
  · decide +kernel
  · rfl
  · rfl
  · rfl

end EpollWorld

end SzpontOS.Fd
