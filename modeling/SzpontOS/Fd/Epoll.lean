import SzpontOS.Fd.FdRun

/-!
# Epoll instances

An epoll instance stands behind one description, which `fork` and `dup` share, and its interest set holds bare
descriptor numbers. `sys_close` removes the entry for the closed number from every instance that the closing process has
open, whichever process registered it (`interest_lost`). Where no other process does that, an entry stays as long as its
process keeps the descriptor (`interest_kept`).

Locks are left to the module on polling.
-/

namespace SzpontOS.Fd

open Lib Relation Function List FdWorld

/-- `struct epoll_event` -/
structure EpollEvent where
  events : BitVec 32
  data : BitVec 64

/-- `epoll_entry_t` -/
structure EpollEntry where
  fd : Nat
  events : BitVec 32
  data : BitVec 64
  readyMask : BitVec 32
  disabled : Bool
deriving DecidableEq

/-- The descriptors, and the interest set of each description that is an epoll instance. -/
structure EpollWorld where
  fds : FdWorld
  inst : Nat → Option (List EpollEntry)

namespace EpollWorld

variable (w : EpollWorld)

def setInst (d : Nat) (entries : List EpollEntry) : EpollWorld :=
  { w with inst := Function.update w.inst d (some entries) }

theorem inst_setInst (d : Nat) (entries : List EpollEntry) :
    (w.setInst d entries).inst = update w.inst d (some entries) := rfl

/-- The descriptors after some were released: `epoll_vfs_close` frees the instance of each description that is gone. -/
def settle (fds : FdWorld) : EpollWorld where
  fds := fds
  inst := fun d => if (fds.descs d).isNone then none else w.inst d

/-! ## System calls -/

/-- `sys_epoll_create1`; the description `d` is new. -/
def sysEpollCreate1 (pid : Int) (flags : BitVec 32) (d : Nat) : Int × EpollWorld :=
  if flags &&& ~~~oCloexec ≠ 0 then (-22, w)
  else
    match w.fds.freeSlot pid 3 with
    | none => (-24, w)
    | some fd =>
      let fds := (w.fds.setDesc d (some ⟨1, 2, .other⟩)).setPlace (slot pid fd) (some d)
      let fds := if flags &&& oCloexec ≠ 0 then fds.setCloexec pid fd true else fds
      (fd, { fds := fds, inst := Function.update w.inst d (some []) })

def modEntry (fd : Nat) (ev : EpollEvent) : List EpollEntry → List EpollEntry
  | [] => []
  | entry :: rest =>
    if entry.fd = fd then { entry with events := ev.events, data := ev.data, readyMask := 0, disabled := false } :: rest
    else entry :: modEntry fd ev rest

def delEntry (fd : Nat) (entries : List EpollEntry) : List EpollEntry := entries.eraseP fun entry => entry.fd = fd

/-- `sys_epoll_ctl`; `event` is what could be read of the argument. -/
def sysEpollCtl (pid epfd op fd : Int) (event : Option EpollEvent) : Int × EpollWorld :=
  match w.fds.lookup pid epfd, w.fds.lookup pid fd with
  | some d, some _ =>
    if epfd = fd then (-22, w)
    else
      match w.inst d with
      | none => (-22, w)
      | some entries =>
        let known := entries.any fun entry => entry.fd = fd.toNat
        if op = 1 then
          match event with
          | none => (-14, w)
          | some ev => if known then (-17, w) else (0, w.setInst d (⟨fd.toNat, ev.events, ev.data, 0, false⟩ :: entries))
        else if op = 3 then
          match event with
          | none => (-14, w)
          | some ev => if known then (0, w.setInst d (modEntry fd.toNat ev entries)) else (-2, w)
        else if op = 2 then
          if known then (0, w.setInst d (delEntry fd.toNat entries)) else (-2, w)
        else (-22, w)
  | _, _ => (-9, w)

/-- One turn of the loop of `epoll_on_fd_close`. -/
def dropEntry (pid : Int) (fd : Nat) (w : EpollWorld) (i : Nat) : EpollWorld :=
  match w.fds.place (slot pid i) with
  | none => w
  | some d =>
    match w.inst d with
    | none => w
    | some entries => w.setInst d (delEntry fd entries)

def epollOnFdClose (pid : Int) (fd : Nat) : EpollWorld := (List.range maxFd).foldl (dropEntry pid fd) w

def sysClose (pid fd : Int) : Int × EpollWorld :=
  match w.fds.lookup pid fd with
  | none => (-1, w)
  | some _ =>
    let w := w.epollOnFdClose pid fd.toNat
    (0, w.settle (w.fds.closeSlot pid fd.toNat))

def sysDup (pid oldfd : Int) : Int × EpollWorld :=
  let (r, fds) := w.fds.sysDup pid oldfd
  (r, { w with fds := fds })

/-- The common end of `sys_dup2` and `sys_dup3`. -/
def dupTo (pid : Int) (d newfd : Nat) (cloexec : Bool) : Int × EpollWorld :=
  let w := (w.sysClose pid newfd).2
  (newfd, { w with fds := w.fds.install pid newfd d cloexec })

def sysDup2 (pid oldfd newfd : Int) : Int × EpollWorld :=
  match w.fds.lookup pid oldfd with
  | none => (-1, w)
  | some d =>
    if newfd < 0 ∨ newfd ≥ maxFd then (-1, w)
    else if oldfd = newfd then (newfd, w)
    else w.dupTo pid d newfd.toNat false

def sysDup3 (pid oldfd newfd : Int) (flags : BitVec 32) : Int × EpollWorld :=
  if oldfd = newfd then (-22, w)
  else if flags &&& ~~~oCloexec ≠ 0 then (-22, w)
  else
    match w.fds.lookup pid oldfd with
    | none => (-9, w)
    | some d =>
      if newfd < 0 ∨ newfd ≥ maxFd then (-9, w)
      else w.dupTo pid d newfd.toNat (flags &&& oCloexec ≠ 0)

/-- `sys_fcntl`, which duplicates a descriptor or changes its flags. -/
def sysFcntl (pid fd cmd : Int) (arg : BitVec 64) : Int × EpollWorld :=
  let (r, fds) := w.fds.sysFcntl pid fd cmd arg
  (r, { w with fds := fds })

/-- A successful `sys_fork`. -/
def sysFork (parent child : Int) : EpollWorld := { w with fds := w.fds.forkFds parent child }

/-- The exit of a process, whose descriptors are released without `epoll_on_fd_close`. -/
def processExit (pid : Int) : EpollWorld := w.settle (w.fds.processCloseAllFds pid)

end EpollWorld

inductive EpollCall
  | create (pid : Int) (flags : BitVec 32) (d : Nat)
  | ctl (pid epfd op fd : Int) (event : Option EpollEvent)
  | close (pid fd : Int)
  | dup (pid oldfd : Int)
  | dup2 (pid oldfd newfd : Int)
  | dup3 (pid oldfd newfd : Int) (flags : BitVec 32)
  | fcntl (pid fd cmd : Int) (arg : BitVec 64)
  | fork (parent child : Int)
  | exit (pid : Int)

namespace EpollWorld

def perform (w : EpollWorld) : EpollCall → EpollWorld
  | .create pid flags d => (w.sysEpollCreate1 pid flags d).2
  | .ctl pid epfd op fd event => (w.sysEpollCtl pid epfd op fd event).2
  | .close pid fd => (w.sysClose pid fd).2
  | .dup pid oldfd => (w.sysDup pid oldfd).2
  | .dup2 pid oldfd newfd => (w.sysDup2 pid oldfd newfd).2
  | .dup3 pid oldfd newfd flags => (w.sysDup3 pid oldfd newfd flags).2
  | .fcntl pid fd cmd arg => (w.sysFcntl pid fd cmd arg).2
  | .fork parent child => w.sysFork parent child
  | .exit pid => w.processExit pid

def Fresh (w : EpollWorld) : EpollCall → Prop
  | .create _ _ d => w.fds.descs d = none
  | .fork _ child => ∀ i, w.fds.place (slot child i) = none
  | _ => True

/-- No description has as many pointers as `refcount` can count. -/
def Few (w : EpollWorld) : Prop := FdWorld.Few w.fds []

def Step (w w' : EpollWorld) : Prop := ∃ call, w.Fresh call ∧ w' = w.perform call ∧ w'.Few

/-- The calls by which processes share descriptors, and stop to. -/
def Shares : EpollCall → Prop
  | .create .. | .ctl .. => False
  | _ => True

/-- The call closes the open descriptor `n` of process `pid`, itself or to make room for a duplicate. -/
def Closes (w : EpollWorld) (pid : Int) (n : Nat) (call : EpollCall) : Prop :=
  w.fds.place (slot pid n) ≠ none ∧ match call with
    | .close q fd => q = pid ∧ fd = n
    | .dup2 q oldfd newfd => q = pid ∧ newfd = n ∧ oldfd ≠ newfd ∧ w.fds.lookup q oldfd ≠ none
    | .dup3 q oldfd newfd flags =>
      q = pid ∧ newfd = n ∧ oldfd ≠ newfd ∧ w.fds.lookup q oldfd ≠ none ∧ flags &&& ~~~oCloexec = 0
    | _ => False

/-- Process `pid` keeps its descriptor `n`. -/
def Keeps (w : EpollWorld) (pid : Int) (n : Nat) (call : EpollCall) : Prop := ¬ w.Closes pid n call ∧ call ≠ .exit pid

/-- **Nobody else closes it.** No other process that has description `d` open closes its own descriptor `n`. -/
def Apart (w : EpollWorld) (pid : Int) (d n : Nat) (call : EpollCall) : Prop :=
  ∀ q ≠ pid, w.Closes q n call → ∀ i, w.fds.place (slot q i) ≠ some d

def SharedStep (Allowed : EpollWorld → EpollCall → Prop) (w w' : EpollWorld) : Prop :=
  ∃ call, Shares call ∧ w.Fresh call ∧ Allowed w call ∧ w' = w.perform call ∧ w'.Few

/-! ## The descriptors -/

section Fds

variable {w : EpollWorld} {pid : Int} {d n : Nat}

theorem fds_dropEntry (pid : Int) (fd : Nat) (w : EpollWorld) (i : Nat) : (dropEntry pid fd w i).fds = w.fds := by
  unfold dropEntry
  split
  · rfl
  · split <;> rfl

theorem fds_epollOnFdClose (w : EpollWorld) (pid : Int) (fd : Nat) : (w.epollOnFdClose pid fd).fds = w.fds := by
  refine foldl_range_rule (fun _ (w' : EpollWorld) => w'.fds = w.fds) rfl ?_
  intro k w' _ hw'
  rw [fds_dropEntry, hw']

theorem fds_sysClose (w : EpollWorld) (pid fd : Int) : (w.sysClose pid fd).2.fds = (w.fds.sysClose pid fd).2 := by
  unfold sysClose FdWorld.sysClose
  cases w.fds.lookup pid fd with
  | none => rfl
  | some d =>
    dsimp only [settle]
    rw [fds_epollOnFdClose]

theorem lookup_natCast (w : FdWorld) (pid : Int) (hn : n < maxFd) : w.lookup pid n = w.place (slot pid n) :=
  if_pos ⟨Int.natCast_nonneg n, Int.ofNat_lt.mpr hn⟩

theorem fds_dupTo (w : EpollWorld) (pid : Int) (d : Nat) (hn : n < maxFd) (cloexec : Bool) :
    (w.dupTo pid d n cloexec).2.fds = (w.fds.dupTo pid d n cloexec).2 := by
  have hclose : (w.fds.sysClose pid n).2 = w.fds.closeSlot pid n := by
    unfold FdWorld.sysClose FdWorld.closeSlot
    rw [lookup_natCast w.fds pid hn]
    cases hplace : w.fds.place (slot pid n) with
    | none => rfl
    | some d =>
      rw [Int.toNat_natCast, hplace]
  unfold dupTo FdWorld.dupTo
  dsimp only
  rw [fds_sysClose, hclose]

theorem toNat_lt_maxFd {q : Int} (hq : ¬ (q < 0 ∨ q ≥ maxFd)) : q.toNat < maxFd := by omega

theorem fds_sysDup2 (w : EpollWorld) (pid oldfd newfd : Int) :
    (w.sysDup2 pid oldfd newfd).2.fds = (w.fds.sysDup2 pid oldfd newfd).2 := by
  unfold sysDup2 FdWorld.sysDup2
  cases w.fds.lookup pid oldfd with
  | none => rfl
  | some d =>
    split_ifs with hrange
    · rfl
    · rfl
    · exact fds_dupTo w pid d (toNat_lt_maxFd hrange) false

theorem fds_sysDup3 (w : EpollWorld) (pid oldfd newfd : Int) (flags : BitVec 32) :
    (w.sysDup3 pid oldfd newfd flags).2.fds = (w.fds.sysDup3 pid oldfd newfd flags).2 := by
  unfold sysDup3 FdWorld.sysDup3
  cases w.fds.lookup pid oldfd with
  | none =>
    split_ifs <;> rfl
  | some d =>
    split_ifs with hsame hflag hrange
    · rfl
    · rfl
    · rfl
    · exact fds_dupTo w pid d (toNat_lt_maxFd hrange) _

theorem fds_sysEpollCtl (w : EpollWorld) (pid epfd op fd : Int) (event : Option EpollEvent) :
    (w.sysEpollCtl pid epfd op fd event).2.fds = w.fds := by
  unfold sysEpollCtl
  dsimp only
  repeat' split
  all_goals rfl

theorem sysEpollCreate1_sound (h : w.fds.Sound) (hnew : w.fds.descs d = none) (pid : Int) (flags : BitVec 32) :
    (w.sysEpollCreate1 pid flags d).2.fds.Sound := by
  unfold sysEpollCreate1
  cases hslot : w.fds.freeSlot pid 3 with
  | none =>
    split_ifs <;> exact h
  | some fd =>
    obtain ⟨hfd, -, hemp⟩ := freeSlot_some hslot
    set made := (w.fds.setDesc d (some ⟨1, 2, .other⟩)).setPlace (slot pid fd) (some d) with hmade
    have hsnd : made.Sound := by
      have hmark := h.marked
      exact ⟨(h.inv.alloc hnew rfl fun _ => by simp).fillSlot hemp hfd, hmark.setPlace pid fd d⟩
    have hfull : made.place (slot pid fd) ≠ none := by
      rw [hmade, place_setPlace, update_self]
      simp
    split_ifs
    · exact h
    · exact setCloexec_sound hsnd hfull true
    · exact hsnd

end Fds

end EpollWorld

/-! ## A description that is gone -/

namespace FdWorld

variable {w w' : FdWorld} {d : Nat}

theorem descs_closePipe (w : FdWorld) (c : Nat) (flags : BitVec 32) : (w.closePipe c flags).descs = w.descs := by
  unfold closePipe
  split <;> rfl

theorem setDesc_gone (h : w.descs d = none) {x : Nat} {f : Desc} (hx : w.descs x = some f) {g : Option Desc} :
    (w.setDesc x g).descs d = none := by
  rw [descs_setDesc, update_of_ne]
  · exact h
  · rintro rfl
    rw [h] at hx
    exact absurd hx (by simp)

theorem fdRelease_gone (fuel : Nat) : ∀ (w : FdWorld) (x : Nat), w.descs d = none → (fdRelease fuel w x).descs d = none := by
  induction fuel with
  | zero => exact fun w x h => h
  | succ fuel ih =>
    intro w x h
    unfold fdRelease
    cases hx : w.descs x with
    | none => exact h
    | some f =>
      dsimp only
      split_ifs
      · exact setDesc_gone h hx
      · cases f.target with
        | pipe c write =>
          rw [descs_closePipe]
          exact setDesc_gone h hx
        | other => exact setDesc_gone h hx
        | socket s =>
          -- the descriptions in the queue are released one after the other
          dsimp only
          generalize hque : (w.setDesc x none).queue s = queue
          have hdet : ((w.setDesc x none).detachSocket s).descs d = none := setDesc_gone h hx
          generalize (w.setDesc x none).detachSocket s = w' at hdet
          clear hque
          induction queue generalizing w' with
          | nil => exact hdet
          | cons y queue ihq => exact ihq _ (ih w' y hdet)

section

variable (h : w.descs d = none)

include h

theorem closeSlot_gone (pid : Int) (fd : Nat) : (w.closeSlot pid fd).descs d = none := by
  unfold closeSlot
  split
  · exact h
  · exact fdRelease_gone _ _ _ h

theorem processCloseAllFds_gone (pid : Int) : (w.processCloseAllFds pid).descs d = none := by
  unfold processCloseAllFds
  refine foldl_range_rule (fun _ (w' : FdWorld) => w'.descs d = none) h ?_
  intro k w' _ hw'
  exact closeSlot_gone hw' pid k

theorem retain_gone (x : Nat) : (w.retain x).descs d = none := by
  unfold retain
  split
  · exact h
  · rename_i f hx
    exact setDesc_gone h hx

theorem install_gone (pid : Int) (fd x : Nat) (b : Bool) : (w.install pid fd x b).descs d = none := by
  have hput : (w.setPlace (slot pid fd) (some x)).descs d = none := h
  exact retain_gone hput x

theorem changed_gone {pid : Int} (hchange : Changed pid w w') : w'.descs d = none := by
  cases hchange with
  | same => exact h
  | close fd => exact closeSlot_gone h pid fd
  | mark hold b => exact h
  | copy hold hemp hfd b => exact install_gone h pid _ _ b
  | move hold hne hfd b => exact install_gone (closeSlot_gone h pid _) pid _ _ b

theorem sysFcntl_gone (pid fd cmd : Int) (arg : BitVec 64) : (w.sysFcntl pid fd cmd arg).2.descs d = none := by
  rcases sysFcntl_changed w pid fd cmd arg with hchange | ⟨x, f, -, -, hx, heq⟩
  · exact changed_gone h hchange
  · rw [heq]
    exact setDesc_gone h hx

theorem forkFds_gone (parent child : Int) : (w.forkFds parent child).descs d = none := by
  unfold forkFds
  refine foldl_range_rule (fun _ (w' : FdWorld) => w'.descs d = none) h ?_
  intro k w' _ hw'
  split
  · exact hw'
  · exact install_gone hw' child k _ _

end

end FdWorld

namespace EpollWorld

variable {w w' : EpollWorld} {pid : Int} {d n : Nat} {e : EpollEntry}

theorem perform_sound (h : w.fds.Sound) (hfew : w.Few) (call : EpollCall) (hnew : w.Fresh call) :
    (w.perform call).fds.Sound ∧ (Shares call → ∀ d, w.fds.descs d = none → (w.perform call).fds.descs d = none) := by
  have hchanged : ∀ {pid fds}, Changed pid w.fds fds →
      fds.Sound ∧ (Shares call → ∀ d, w.fds.descs d = none → fds.descs d = none) :=
    fun hchange => ⟨hchange.sound h hfew, fun _ _ hd => changed_gone hd hchange⟩
  cases call with
  | create pid flags d => exact ⟨sysEpollCreate1_sound h hnew pid flags, False.elim⟩
  | ctl pid epfd op fd event =>
    rw [perform, fds_sysEpollCtl]
    exact ⟨h, False.elim⟩
  | close pid fd =>
    rw [perform, fds_sysClose]
    exact hchanged (sysClose_changed w.fds pid fd)
  | dup pid oldfd => exact hchanged (sysDup_changed w.fds pid oldfd)
  | dup2 pid oldfd newfd =>
    rw [perform, fds_sysDup2]
    exact hchanged (sysDup2_changed w.fds pid oldfd newfd)
  | dup3 pid oldfd newfd flags =>
    rw [perform, fds_sysDup3]
    exact hchanged (sysDup3_changed w.fds pid oldfd newfd flags)
  | fcntl pid fd cmd arg =>
    refine ⟨FdWorld.perform_sound h hfew (.fcntl pid fd cmd arg) trivial, fun _ d hd => ?_⟩
    exact sysFcntl_gone hd pid fd cmd arg
  | fork parent child =>
    dsimp only [perform, sysFork]
    exact ⟨forkFds_sound h hnew, fun _ _ hd => forkFds_gone hd parent child⟩
  | exit pid =>
    dsimp only [perform, processExit, settle]
    exact ⟨processCloseAllFds_sound h hfew pid, fun _ _ hd => processCloseAllFds_gone hd pid⟩

/-! ## An entry of another process -/

/-- The entry is in the set of `d`. -/
def Holds (w : EpollWorld) (d : Nat) (e : EpollEntry) : Prop := ∃ entries, w.inst d = some entries ∧ e ∈ entries

/-- The loop of `epoll_on_fd_close` leaves an entry for another number alone, and each set that the process has not
open. -/
theorem Holds.epollOnFdClose (h : w.Holds d e) {q : Int} {m : Nat}
    (hrest : e.fd = m → ∀ i, w.fds.place (slot q i) ≠ some d) : (w.epollOnFdClose q m).Holds d e := by
  have hall : (w.epollOnFdClose q m).fds = w.fds ∧ (w.epollOnFdClose q m).Holds d e := by
    refine foldl_range_rule (fun _ (w' : EpollWorld) => w'.fds = w.fds ∧ w'.Holds d e) ⟨rfl, h⟩ ?_
    intro i w' _ hw'
    obtain ⟨hfds, entries, hinst, hmem⟩ := hw'
    refine ⟨by rw [fds_dropEntry, hfds], ?_⟩
    unfold dropEntry
    cases hplace : w'.fds.place (slot q i) with
    | none => exact ⟨entries, hinst, hmem⟩
    | some x =>
      dsimp only
      by_cases hx : x = d
      · subst hx
        rw [hinst]
        refine ⟨delEntry m entries, update_self .., ?_⟩
        refine (mem_eraseP_of_neg ?_).mpr hmem
        rw [decide_eq_true_eq]
        intro hfd
        exact hrest hfd i (hfds ▸ hplace)
      · cases w'.inst x with
        | none => exact ⟨entries, hinst, hmem⟩
        | some others => exact ⟨entries, (update_of_ne (Ne.symm hx) ..).trans hinst, hmem⟩
  exact hall.2

def Kept (w : EpollWorld) (d : Nat) (e : EpollEntry) : Prop := w.fds.descs d = none ∨ w.Holds d e

theorem Holds.settle (h : w.Holds d e) (fds : FdWorld) : (w.settle fds).Kept d e := by
  obtain ⟨entries, hinst, hmem⟩ := h
  cases hd : fds.descs d with
  | none => exact .inl hd
  | some f =>
    refine .inr ⟨entries, ?_, hmem⟩
    unfold EpollWorld.settle
    dsimp only
    rw [hd]
    exact hinst

theorem Holds.sysClose (h : w.Holds d e) {q m : Int}
    (hrest : w.fds.place (slot q e.fd) ≠ none → m = e.fd → ∀ i, w.fds.place (slot q i) ≠ some d) :
    (w.sysClose q m).2.Kept d e := by
  unfold EpollWorld.sysClose
  cases hlook : w.fds.lookup q m with
  | none => exact .inr h
  | some x =>
    obtain ⟨hplace, hm⟩ := lookup_some hlook
    refine Holds.settle (h.epollOnFdClose fun hfd => ?_) _
    refine hrest ?_ (by omega)
    rw [hfd, hplace]
    simp

theorem Kept.install (h : w.Kept d e) (q : Int) (fd x : Nat) (b : Bool) :
    Kept { w with fds := w.fds.install q fd x b } d e :=
  h.imp (fun hgone => install_gone hgone q fd x b) id

theorem Holds.dupTo (h : w.Holds d e) {q : Int} {x m : Nat} {b : Bool}
    (hrest : w.fds.place (slot q e.fd) ≠ none → m = e.fd → ∀ i, w.fds.place (slot q i) ≠ some d) :
    (w.dupTo q x m b).2.Kept d e := by
  refine Kept.install (h.sysClose fun hopen hm => ?_) q m x b
  exact hrest hopen (Int.ofNat_inj.mp hm)

/-- **Each call keeps an entry** that no process with the instance drops. -/
theorem Holds.perform (h : w.Holds d e) {call : EpollCall} (hshare : Shares call)
    (hcall : ∀ q, w.Closes q e.fd call → ∀ i, w.fds.place (slot q i) ≠ some d) : (w.perform call).Kept d e := by
  cases call with
  | create pid flags x => exact hshare.elim
  | ctl pid epfd op fd event => exact hshare.elim
  | close q fd => exact h.sysClose fun hopen hfd => hcall q ⟨hopen, rfl, hfd⟩
  | dup pid oldfd => exact .inr h
  | dup2 q oldfd newfd =>
    dsimp only [EpollWorld.perform, sysDup2]
    cases hold : w.fds.lookup q oldfd with
    | none => exact .inr h
    | some x =>
      split_ifs with hrange hsame
      · exact .inr h
      · exact .inr h
      · refine h.dupTo fun hopen hm => hcall q ⟨hopen, rfl, ?_, hsame, ?_⟩
        · omega
        · rw [hold]
          simp
  | dup3 q oldfd newfd flags =>
    dsimp only [EpollWorld.perform, sysDup3]
    cases hold : w.fds.lookup q oldfd with
    | none =>
      split_ifs <;> exact .inr h
    | some x =>
      split_ifs with hsame hflag hrange
      · exact .inr h
      · exact .inr h
      · exact .inr h
      · refine h.dupTo fun hopen hm => hcall q ⟨hopen, rfl, ?_, hsame, ?_, not_not.mp hflag⟩
        · omega
        · rw [hold]
          simp
  | fcntl pid fd cmd arg => exact .inr h
  | fork parent child =>
    obtain ⟨entries, hinst, hmem⟩ := h
    exact .inr ⟨entries, hinst, hmem⟩
  | exit pid =>
    dsimp only [EpollWorld.perform, processExit]
    generalize w.fds.processCloseAllFds pid = fds
    exact h.settle fds

theorem holds_of_add {epfd fd : Int} {ev : EpollEvent} (hd : w.fds.lookup pid epfd = some d)
    (hadd : w.sysEpollCtl pid epfd 1 fd (some ev) = (0, w')) : w'.Holds d ⟨fd.toNat, ev.events, ev.data, 0, false⟩ := by
  unfold sysEpollCtl at hadd
  rw [hd] at hadd
  cases hfd : w.fds.lookup pid fd with
  | none =>
    rw [hfd] at hadd
    exact absurd (Prod.mk.inj hadd).1 (by decide)
  | some x =>
    rw [hfd] at hadd
    dsimp only at hadd
    by_cases hself : epfd = fd
    · rw [if_pos hself] at hadd
      exact absurd (Prod.mk.inj hadd).1 (by decide)
    · rw [if_neg hself] at hadd
      cases hinst : w.inst d with
      | none =>
        rw [hinst] at hadd
        exact absurd (Prod.mk.inj hadd).1 (by decide)
      | some entries =>
        rw [hinst] at hadd
        dsimp only at hadd
        by_cases hknown : (entries.any fun entry => decide (entry.fd = fd.toNat)) = true
        · rw [if_pos hknown] at hadd
          exact absurd (Prod.mk.inj hadd).1 (by decide)
        · rw [if_neg hknown] at hadd
          rw [← (Prod.mk.inj hadd).2]
          exact ⟨_, update_self .., mem_cons_self⟩

/-- **Interest sets are not disturbed by other processes**, as long as none that shares the instance closes the same
descriptor number: the entry that `pid` registered stays while `pid` keeps the descriptor, until nobody has the instance
open any more. -/
theorem interest_kept {start w₁ w₂ : EpollWorld} (hstart : start.fds.Sound) (hfew : start.Few)
    (hbuild : ReflTransGen Step start w) {epfd fd : Int} {ev : EpollEvent} (hd : w.fds.lookup pid epfd = some d)
    (hadd : w.sysEpollCtl pid epfd 1 fd (some ev) = (0, w₁))
    (hrun : ReflTransGen (SharedStep fun v call => v.Keeps pid fd.toNat call ∧ v.Apart pid d fd.toNat call) w₁ w₂)
    {p : Place} (hopen : w₂.fds.place p = some d) :
    w₂.Holds d ⟨fd.toNat, ev.events, ev.data, 0, false⟩ := by
  set e : EpollEntry := ⟨fd.toNat, ev.events, ev.data, 0, false⟩ with he
  have hsound : w.fds.Sound ∧ w.Few := by
    have hstep : ∀ v v' : EpollWorld, (v.fds.Sound ∧ v.Few) → Step v v' → v'.fds.Sound ∧ v'.Few := by
      rintro v v' hv ⟨call, hfresh, rfl, hfew'⟩
      exact ⟨(perform_sound hv.1 hv.2 call hfresh).1, hfew'⟩
    exact invariant_of_step hstep ⟨hstart, hfew⟩ hbuild
  have hadded : w₁.fds = w.fds := by
    have hfds := fds_sysEpollCtl w pid epfd 1 fd (some ev)
    rwa [hadd] at hfds
  -- the entry stays as long as the description does
  have hstep : ∀ v v' : EpollWorld, ((v.fds.Sound ∧ v.Few) ∧ v.Kept d e) →
      SharedStep (fun v call => v.Keeps pid fd.toNat call ∧ v.Apart pid d fd.toNat call) v v' →
      (v'.fds.Sound ∧ v'.Few) ∧ v'.Kept d e := by
    rintro v v' ⟨hv, hvd⟩ ⟨call, hshares, hfresh, ⟨hkeeps, hapart⟩, rfl, hfew'⟩
    obtain ⟨hsnd, hgone⟩ := perform_sound hv.1 hv.2 call hfresh
    refine ⟨⟨hsnd, hfew'⟩, ?_⟩
    rcases hvd with hnone | hholds
    · exact .inl (hgone hshares d hnone)
    · refine hholds.perform hshares fun q hcloses => ?_
      by_cases hq : q = pid
      · subst hq
        exact absurd hcloses hkeeps.1
      · exact hapart q hq hcloses
  have hfirst : w₁.fds.Sound ∧ w₁.Few := by
    unfold Few
    rw [hadded]
    exact hsound
  have hkept := invariant_of_step hstep ⟨hfirst, .inr (holds_of_add hd hadd)⟩ hrun
  rcases hkept.2 with hgone | hholds
  · exact absurd hgone (hkept.1.1.inv.place_desc p d hopen)
  · exact hholds

/-! ## Two instances, shared with a child -/

theorem foldl_update_of_notMem {p : Place} (l : List (Place × Option Nat)) :
    ∀ f : Place → Option Nat, p ∉ l.map Prod.fst → l.foldl (fun f q => update f q.1 q.2) f p = f p := by
  induction l with
  | nil => exact fun _ _ => rfl
  | cons q l ih =>
    intro f hp
    rw [map_cons, mem_cons, not_or] at hp
    rw [foldl_cons, ih _ hp.2, update_of_ne hp.1]

theorem few_of_updates {v : FdWorld} (l : List (Place × Option Nat))
    (hplace : v.place = l.foldl (fun f q => update f q.1 q.2) fun _ => none) (hfew : l.length < 2 ^ 32) :
    FdWorld.Few v [] := by
  intro d
  have hsub : holders v.place d ⊆ ↑(l.map Prod.fst).toFinset := by
    intro p hp
    have hp' : v.place p = some d := hp
    rw [Finset.mem_coe, mem_toFinset]
    by_contra hnot
    rw [hplace, foldl_update_of_notMem l _ hnot] at hp'
    cases hp'
  have hle : held v.place d ≤ (l.map Prod.fst).toFinset.card := by
    rw [← Set.ncard_coe_finset]
    exact Set.ncard_le_ncard hsub (Finset.finite_toSet _)
  have := (l.map Prod.fst).toFinset_card_le
  rw [length_map] at this
  rw [count_nil]
  omega

def boot : EpollWorld where
  fds := ⟨fun _ => none, fun _ _ => false, fun _ => none, fun _ => none, [], fun _ => 0, fun _ => none⟩
  inst := fun _ => none

theorem boot_sound : boot.fds.Sound := by
  refine ⟨⟨?_, ?_, ?_, ?_, ?_, ?_, ?_, ?_, ?_, nodup_nil, ?_⟩, fun _ _ _ => rfl⟩
  · simp [FinitelyHeld, boot]
  all_goals simp [boot]

theorem boot_few : boot.Few := few_of_updates [] rfl (by decide)

def built : EpollWorld := (boot.perform (.create 1 0 1)).perform (.create 1 0 2)

theorem run_built : ReflTransGen Step boot built := by
  have hfst : Step boot (boot.perform (.create 1 0 1)) :=
    ⟨.create 1 0 1, rfl, rfl, few_of_updates [(slot 1 3, some 1)] rfl (by decide)⟩
  have hsnd : Step (boot.perform (.create 1 0 1)) built := by
    refine ⟨.create 1 0 2, ?_, rfl, few_of_updates [(slot 1 3, some 1), (slot 1 4, some 2)] rfl (by decide)⟩
    show (boot.perform (.create 1 0 1)).fds.descs 2 = none
    decide +kernel
  exact (ReflTransGen.single hfst).tail hsnd

def watched : EpollWorld := (built.sysEpollCtl 1 3 1 4 (some ⟨1, 7⟩)).2

def forked : EpollWorld := watched.perform (.fork 1 2)

theorem forked_fresh (i : Nat) : watched.fds.place (slot 2 i) = none :=
  @foldl_update_of_notMem (slot 2 i) [(slot 1 3, some 1), (slot 1 4, some 2)] (fun _ => none) (by simp [slot])

set_option maxRecDepth 100000 in
theorem place_forked : forked.fds.place =
    [(slot 1 3, some 1), (slot 1 4, some 2), (slot 2 3, some 1), (slot 2 4, some 2)].foldl
      (fun f q => update f q.1 q.2) fun _ => none := rfl

set_option maxRecDepth 100000 in
theorem run_shared {Allowed : EpollWorld → EpollCall → Prop} (n : Nat) (hn : n = 3 ∨ n = 4)
    (hfork : Allowed watched (.fork 1 2)) (hclose : Allowed forked (.close 2 n)) :
    ReflTransGen (SharedStep Allowed) watched (forked.perform (.close 2 n)) := by
  have hfew : (forked.perform (.close 2 n)).Few := by
    refine few_of_updates [(slot 1 3, some 1), (slot 1 4, some 2), (slot 2 3, some 1), (slot 2 4, some 2),
      (slot 2 n, none)] ?_ (by simp)
    rcases hn with rfl | rfl <;> rfl
  have hfst : SharedStep Allowed watched forked :=
    ⟨.fork 1 2, trivial, forked_fresh, hfork, rfl, few_of_updates _ place_forked (by decide)⟩
  have hsnd : SharedStep Allowed forked (forked.perform (.close 2 n)) := ⟨.close 2 n, trivial, trivial, hclose, rfl, hfew⟩
  exact (ReflTransGen.single hfst).tail hsnd

/-- The child closes descriptor 3, and its parent's entry for descriptor 4 stays. -/
theorem interest_kept_forked : (forked.perform (.close 2 3)).Holds 1 ⟨4, 1, 7, 0, false⟩ := by
  have hkeeps : ∀ v : EpollWorld, v.Keeps 1 4 (.fork 1 2) ∧ v.Apart 1 1 4 (.fork 1 2) ∧
      v.Keeps 1 4 (.close 2 3) ∧ v.Apart 1 1 4 (.close 2 3) := by
    simp [Keeps, Apart, Closes]
  have hd : built.fds.lookup 1 3 = some 1 := by decide +kernel
  have hadd : built.sysEpollCtl 1 3 1 4 (some ⟨1, 7⟩) = (0, watched) := Prod.ext (by decide +kernel) rfl
  have hopen : (forked.perform (.close 2 3)).fds.place (slot 1 3) = some 1 := by decide +kernel
  exact interest_kept boot_sound boot_few run_built hd hadd
    (run_shared 3 (.inl rfl) ⟨(hkeeps _).1, (hkeeps _).2.1⟩ (hkeeps _).2.2) hopen

/-- **The child closes descriptor 4**, and the entry of its parent is gone, while its parent has both the descriptor and
the instance open. -/
theorem interest_lost : boot.fds.Sound ∧ boot.Few ∧ ReflTransGen Step boot built ∧
    built.fds.lookup 1 3 = some 1 ∧ built.sysEpollCtl 1 3 1 4 (some ⟨1, 7⟩) = (0, watched) ∧
    ∃ w, ReflTransGen (SharedStep fun v call => v.Keeps 1 4 call) watched w ∧
      w.fds.lookup 1 3 = some 1 ∧ w.fds.lookup 1 4 = some 2 ∧ w.inst 1 = some [] := by
  refine ⟨boot_sound, boot_few, run_built, by decide +kernel, Prod.ext (by decide +kernel) rfl, _,
    run_shared 4 (.inr rfl) ?_ ?_, by decide +kernel, by decide +kernel, by decide +kernel⟩
  · simp [Keeps, Closes]
  · simp [Keeps, Closes]

end EpollWorld

end SzpontOS.Fd
