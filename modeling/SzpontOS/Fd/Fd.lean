import SzpontOS.Lib.Count
import SzpontOS.Lib.Ring

/-!
# File descriptors

Open file descriptions (`file_descriptor_t`) are shared by the descriptor tables of all processes and by the queues of
`AF_UNIX` sockets, which hold descriptors that were sent and not received yet. `refcount` says how many pointers there
are, and `fd_release` closes a description when it has none left. The calls are those of `syscall.c` and `socket.c` that
make, copy, move or drop such a pointer.

A description is known by its address. Behind it is a pipe end, an `AF_UNIX` socket or something whose closing concerns
no other description.
-/

namespace SzpontOS.Fd

open Lib

def maxFd : Nat := 256

def unixMaxPassedFds : Nat := 8

def pipeBufSize : Nat := 4096

/-- What the node of a description is. The two ends of a pipe have a node each and share the channel. -/
inductive Target
  | pipe (chan : Nat) (write : Bool)
  | socket (sock : Nat)
  | other
deriving DecidableEq

/-- `file_descriptor_t` -/
structure Desc where
  refcount : BitVec 32
  flags : BitVec 32
  target : Target

/-- `pipe_chan_t`; the ring's `tail` is the field `head` of the source, where the writer stands. -/
structure Chan where
  ring : RingBuffer (BitVec 8)
  readers : Int
  writers : Int

/-- Where a pointer to a description can stand: `fds[fd]` of a process, or `passed_fds[i]` of a socket. -/
abbrev Place := (Int × Nat) ⊕ (Nat × Nat)

/-- `fds[fd]` of a process. -/
def slot (pid : Int) (fd : Nat) : Place := Sum.inl (pid, fd)

/-- `passed_fds[i]` of a socket. -/
def passed (sock i : Nat) : Place := Sum.inr (sock, i)

/-- The descriptor tables, the descriptions, the pipes and the sockets; `socks` is `g_socket_list`. -/
@[ext]
structure FdWorld where
  place : Place → Option Nat
  cloexec : Int → Nat → Bool
  descs : Nat → Option Desc
  chans : Nat → Option Chan
  socks : List Nat
  passedCount : Nat → Nat
  peer : Nat → Option Nat

namespace FdWorld

variable (w : FdWorld)

def setPlace (p : Place) (d : Option Nat) : FdWorld := { w with place := Function.update w.place p d }

def setCloexec (pid : Int) (fd : Nat) (b : Bool) : FdWorld :=
  { w with cloexec := fun q i => if q = pid ∧ i = fd then b else w.cloexec q i }

def setDesc (d : Nat) (f : Option Desc) : FdWorld := { w with descs := Function.update w.descs d f }

def setChan (c : Nat) (ch : Option Chan) : FdWorld := { w with chans := Function.update w.chans c ch }

def setPassedCount (sock n : Nat) : FdWorld := { w with passedCount := Function.update w.passedCount sock n }

/-- `f->refcount++` -/
def retain (d : Nat) : FdWorld :=
  match w.descs d with
  | none => w
  | some f => w.setDesc d (some { f with refcount := f.refcount + 1 })

/-! ## Release -/

/-- A pipe end closes. Which of the two it was is read off the description's flags. -/
def closePipe (c : Nat) (flags : BitVec 32) : FdWorld :=
  match w.chans c with
  | none => w
  | some ch =>
    let ch := if flags.getLsbD 0 then { ch with writers := ch.writers - 1 } else { ch with readers := ch.readers - 1 }
    w.setChan c (if ch.readers ≤ 0 ∧ ch.writers ≤ 0 then none else some ch)

def passedPlaces (sock : Nat) : List Place := (List.range (w.passedCount sock)).map (passed sock)

def queue (sock : Nat) : List Nat := (w.passedPlaces sock).filterMap w.place

/-- `socket_destroy` up to the loop over the queue. The queue's entries are cleared here, before they are released; with
its last descriptor gone nothing else looks at them. -/
def detachSocket (sock : Nat) : FdWorld :=
  { w with
    peer := fun s => if s = sock ∨ w.peer sock = some s then none else w.peer s
    socks := w.socks.erase sock
    place := clear w.place (w.passedPlaces sock)
    passedCount := Function.update w.passedCount sock 0 }

/-- `fd_release`. Closing a socket releases what is in its queue. The description itself is freed first here: nothing
reads it while its node is closed. -/
def fdRelease : Nat → FdWorld → Nat → FdWorld
  | 0, w, _ => w
  | fuel + 1, w, d =>
    match w.descs d with
    | none => w
    | some f =>
      if f.refcount - 1 ≠ 0 then w.setDesc d (some { f with refcount := f.refcount - 1 })
      else
        let w := w.setDesc d none
        match f.target with
        | .pipe c _ => w.closePipe c f.flags
        | .socket s => (w.queue s).foldl (fdRelease fuel) (w.detachSocket s)
        | .other => w

/-- `fd_release`; each nested call has a socket less in the list. -/
def release (d : Nat) : FdWorld := fdRelease (w.socks.length + 1) w d

/-- A slot is emptied and what it held is released: the end of `sys_close`, and `process_close_all_fds`. -/
def closeSlot (pid : Int) (fd : Nat) : FdWorld :=
  match w.place (slot pid fd) with
  | none => w
  | some d => ((w.setPlace (slot pid fd) none).setCloexec pid fd false).release d

/-! ## System calls -/

def freeSlot (pid : Int) (start : Nat) : Option Nat :=
  (List.range maxFd).find? fun i => start ≤ i ∧ w.place (slot pid i) = none

def lookup (pid fd : Int) : Option Nat := if 0 ≤ fd ∧ fd < maxFd then w.place (slot pid fd.toNat) else none

def install (pid : Int) (fd d : Nat) (cloexec : Bool) : FdWorld :=
  ((w.setPlace (slot pid fd) (some d)).retain d).setCloexec pid fd cloexec

def sysClose (pid fd : Int) : Int × FdWorld :=
  match w.lookup pid fd with
  | none => (-1, w)
  | some _ => (0, w.closeSlot pid fd.toNat)

/-- `sys_dup`, and `sys_fcntl` with `F_DUPFD` and `F_DUPFD_CLOEXEC`. -/
def dupFrom (pid : Int) (d start : Nat) (cloexec : Bool) : Int × FdWorld :=
  match w.freeSlot pid start with
  | none => (-1, w)
  | some i => (i, w.install pid i d cloexec)

def sysDup (pid oldfd : Int) : Int × FdWorld :=
  match w.lookup pid oldfd with
  | none => (-1, w)
  | some d => w.dupFrom pid d 0 false

/-- The common end of `sys_dup2` and `sys_dup3`: what was in the new slot is closed. -/
def dupTo (pid : Int) (d newfd : Nat) (cloexec : Bool) : Int × FdWorld :=
  (newfd, (w.closeSlot pid newfd).install pid newfd d cloexec)

def sysDup2 (pid oldfd newfd : Int) : Int × FdWorld :=
  match w.lookup pid oldfd with
  | none => (-1, w)
  | some d =>
    if newfd < 0 ∨ newfd ≥ maxFd then (-1, w)
    else if oldfd = newfd then (newfd, w)
    else w.dupTo pid d newfd.toNat false

def oCloexec : BitVec 32 := 0x80000

def oNonblock : BitVec 32 := 0x800

def sysDup3 (pid oldfd newfd : Int) (flags : BitVec 32) : Int × FdWorld :=
  if oldfd = newfd then (-22, w)
  else if flags &&& ~~~oCloexec ≠ 0 then (-22, w)
  else
    match w.lookup pid oldfd with
    | none => (-9, w)
    | some d =>
      if newfd < 0 ∨ newfd ≥ maxFd then (-9, w)
      else w.dupTo pid d newfd.toNat (flags &&& oCloexec ≠ 0)

/-- `sys_fcntl`; the argument of the commands that take an `int` is cut to 32 bits. -/
def sysFcntl (pid fd cmd : Int) (arg : BitVec 64) : Int × FdWorld :=
  match w.lookup pid fd with
  | none => (-1, w)
  | some d =>
    let value := arg.setWidth 32
    if cmd = 0 ∨ cmd = 1030 then
      if value.toInt < 0 ∨ value.toInt ≥ maxFd then (-1, w) else w.dupFrom pid d value.toNat (cmd = 1030)
    else if cmd = 1 then (if w.cloexec pid fd.toNat then 1 else 0, w)
    else if cmd = 2 then (0, w.setCloexec pid fd.toNat (arg.getLsbD 0))
    else
      match w.descs d with
      | none => (0, w)
      | some f =>
        if cmd = 3 then (f.flags.toNat, w)
        else if cmd = 4 then (0, w.setDesc d (some { f with flags := value }))
        else (0, w)

/-- `sys_pipe2`: the channel `c` and the descriptions `d0` and `d1` are new; `copied` is whether the numbers of the
descriptors reach the caller. -/
def sysPipe2 (pid : Int) (flags : BitVec 32) (c d0 d1 : Nat) (copied : Bool) : Int × FdWorld :=
  if flags &&& ~~~(oCloexec ||| oNonblock) ≠ 0 then (-22, w)
  else
    match w.freeSlot pid 0 with
    | none => (-24, w)
    | some fd0 =>
      match w.freeSlot pid (fd0 + 1) with
      | none => (-24, w)
      | some fd1 =>
        -- on a fault everything is taken back
        if ¬ copied then (-14, w)
        else
          let w := w.setChan c (some ⟨⟨fun _ => 0, 0, 0, 0⟩, 1, 1⟩)
          let w := w.setDesc d0 (some ⟨1, flags &&& oNonblock, .pipe c false⟩)
          let w := w.setDesc d1 (some ⟨1, 1 ||| (flags &&& oNonblock), .pipe c true⟩)
          let w := (w.setPlace (slot pid fd0) (some d0)).setPlace (slot pid fd1) (some d1)
          (0, if flags &&& oCloexec ≠ 0 then (w.setCloexec pid fd0 true).setCloexec pid fd1 true else w)

/-- The descriptors of a successful `sys_fork`; the child's table is empty before. -/
def forkFds (parent child : Int) : FdWorld :=
  (List.range maxFd).foldl (fun w i =>
    match w.place (slot parent i) with
    | none => w
    | some d => w.install child i d (w.cloexec parent i)) w

/-- The loop of `sys_execve` that closes the descriptors marked for it. -/
def execFds (pid : Int) : FdWorld :=
  (List.range maxFd).foldl (fun w i => if w.cloexec pid i then w.closeSlot pid i else w) w

def processCloseAllFds (pid : Int) : FdWorld := (List.range maxFd).foldl (fun w i => w.closeSlot pid i) w

/-- One descriptor of an `SCM_RIGHTS` message goes into the queue of `peer`. -/
def pass (pid : Int) (peer : Nat) (w : FdWorld) (fd : Int) : FdWorld :=
  if w.passedCount peer < unixMaxPassedFds then
    match w.lookup pid fd with
    | none => w
    | some d =>
      let n := w.passedCount peer
      ((w.retain d).setPlace (passed peer n) (some d)).setPassedCount peer (n + 1)
  else w

def socketOf (pid fd : Int) : Option Nat :=
  match (w.lookup pid fd).bind w.descs with
  | some ⟨_, _, .socket s⟩ => some s
  | _ => none

/-- The descriptors of `sys_sendmsg`, those of its `SCM_RIGHTS` message. -/
def sendRights (pid fd : Int) (fds : List Int) : FdWorld :=
  match (w.socketOf pid fd).bind w.peer with
  | none => w
  | some peer => fds.foldl (pass pid peer) w

/-- One entry of the queue reaches the process, or is dropped for want of a slot. -/
def deliver (pid : Int) (sock : Nat) (w : FdWorld) (i : Nat) : FdWorld :=
  match w.place (passed sock i) with
  | none => w
  | some d =>
    let w := w.setPlace (passed sock i) none
    match w.freeSlot pid 0 with
    | none => w.release d
    | some fd => w.setPlace (slot pid fd) (some d)

/-- The descriptors of `sys_recvmsg` with room for them in `msg_control`. -/
def recvRights (pid fd : Int) : FdWorld :=
  match w.socketOf pid fd with
  | none => w
  | some s =>
    ((List.range (w.passedCount s)).foldl (deliver pid s) w).setPassedCount s 0

end FdWorld

end SzpontOS.Fd
