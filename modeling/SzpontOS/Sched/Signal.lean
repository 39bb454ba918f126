import SzpontOS.Sched.Process

/-!
# Signal masks and handlers

`process_sigaction`, `process_sigprocmask` and `check_fatal_signals` on the process table, down to the bytes of
`process_t` that hold the signal state: both calls write what they are asked to report to any address above the user
half, without a check, so that an address inside `process_t` is a way around them.

* `kill_and_stop_unmaskable`: apart from such addresses, nothing ever masks `SIGKILL` or `SIGSTOP`, and `SIGKILL` ends
  every process; `sigkill_ignored` runs the other case.
* `blocked_signal_delayed`: a terminating signal that comes while it is blocked has the outcome of one that comes
  unblocked only where neither ends the process.
-/

namespace SzpontOS.Sched

open Lib Relation ProcTable List BitVec

def userAddrMax : Nat := 0x00007FFFFFFFFFFF

/-- `SIGKILL` and `SIGSTOP`. -/
def sigKill : Nat := 9

@[inherit_doc sigKill] def sigStop : Nat := 19

/-! ## The signal fields in memory -/

/-- Byte `k` of a word in memory. -/
def byteOf {w : Nat} (x : BitVec w) (k : Nat) : BitVec 8 := (x >>> (8 * k)).setWidth 8

/-- The word with its byte `k` replaced. -/
def setByte {w : Nat} (x : BitVec w) (k : Nat) (b : BitVec 8) : BitVec w :=
  (x &&& ~~~(0xff#w <<< (8 * k))) ||| (b.setWidth w <<< (8 * k))

/-- `struct sigaction`, 32 bytes with four of padding. -/
structure Sigaction where
  handler : BitVec 64
  mask : BitVec 64
  flags : BitVec 32
  restorer : BitVec 64

namespace Sigaction

def byteAt (a : Sigaction) (k : Nat) : BitVec 8 :=
  if k < 8 then byteOf a.handler k
  else if k < 16 then byteOf a.mask (k - 8)
  else if k < 20 then byteOf a.flags (k - 16)
  else if k < 24 then 0
  else byteOf a.restorer (k - 24)

def pokeByte (a : Sigaction) (k : Nat) (b : BitVec 8) : Sigaction :=
  if k < 8 then { a with handler := setByte a.handler k b }
  else if k < 16 then { a with mask := setByte a.mask (k - 8) b }
  else if k < 20 then { a with flags := setByte a.flags (k - 16) b }
  else if k < 24 then a
  else { a with restorer := setByte a.restorer (k - 24) b }

def noCldWait (a : Sigaction) : Bool := a.flags.getLsbD 1

end Sigaction

/-- The offset of `sigactions` from `pending_signals`: the two masks and 32 handlers come before. -/
def actionsOffset : Nat := 8 + 32 * 8

/-- A byte written at offset `k` from `pending_signals`. -/
def Proc.pokeByte (p : Proc) (k : Nat) (b : BitVec 8) : Proc :=
  if k < 4 then { p with pending := setByte p.pending k b }
  else if k < 8 then { p with blocked := setByte p.blocked (k - 4) b }
  else if k < actionsOffset then
    let word := BitVec.ofNat 64 (p.handlers ((k - 8) / 8))
    { p with handlers := Function.update p.handlers ((k - 8) / 8) (setByte word ((k - 8) % 8) b).toNat }
  else if k = actionsOffset + 32 * sigChld + 16 then { p with noCldWait := b.getLsbD 1 }
  else p

/-- The process table with the `sigactions` of each process and the address of its `pending_signals`. -/
structure SigState where
  table : ProcTable
  actions : Int → Nat → Sigaction
  base : Int → Nat

/-- Memory that is not part of the table: what the calls read from user and from kernel addresses, and where
`copy_to_user` succeeds. -/
structure Surroundings where
  userSet : Nat → Option (BitVec 64)
  kernelSet : Nat → BitVec 64
  userAction : Nat → Option Sigaction
  kernelAction : Nat → Sigaction
  writable : Nat → Bool

namespace SigState

variable (s : SigState)

def pokeByte (a : Nat) (b : BitVec 8) : SigState where
  table :=
    let poked := fun p : Proc => if s.base p.pid ≤ a then p.pokeByte (a - s.base p.pid) b else p
    { s.table with procs := s.table.procs.map poked }
  actions := fun pid sig =>
    let start := s.base pid + actionsOffset + 32 * sig
    if sig < 32 ∧ start ≤ a ∧ a < start + 32 then (s.actions pid sig).pokeByte (a - start) b else s.actions pid sig
  base := s.base

def poke (s : SigState) : Nat → List (BitVec 8) → SigState
  | _, [] => s
  | a, b :: rest => (s.pokeByte a b).poke (a + 1) rest

/-- The end of both calls: the old value goes to a user address with `copy_to_user` and to any other address
directly, where the model has the signal fields and nothing else of the kernel. -/
def report (env : Surroundings) (a : Nat) (bytes : List (BitVec 8)) : SigState × Int :=
  if a ≤ userAddrMax then if env.writable a then (s, 0) else (s, -14)
  else (s.poke a bytes, 0)

/-- What `act` points to; a small `act` is a handler itself. -/
def fetchAction (env : Surroundings) (act : Nat) : Option Sigaction :=
  if act ≤ 3 then some ⟨BitVec.ofNat 64 act, 0, 0, 0⟩
  else if act ≤ userAddrMax then env.userAction act
  else some (env.kernelAction act)

/-- The handler that `process_sigaction` installs. -/
def setAction (pid : Int) (sig : Nat) (act : Sigaction) : SigState :=
  let old := s.actions pid sig
  let new := if act.handler ≤ 3 then { old with handler := act.handler } else act
  { s with
    table := s.table.update pid fun p =>
      { p with
        handlers := Function.update p.handlers sig act.handler.toNat
        noCldWait := if sig = sigChld then new.noCldWait else p.noCldWait }
    actions := Function.update s.actions pid (Function.update (s.actions pid) sig new) }

/-- `process_sigaction`, called in the process `curr`. -/
def processSigaction (env : Surroundings) (curr : Int) (sig : Int) (act oldact : Nat) : SigState × Int :=
  if sig ≤ 0 ∨ sig ≥ 32 ∨ sig = sigKill ∨ sig = sigStop then (s, -1)
  else
    match s.table.processGetByPid curr with
    | none => (s, -1)
    | some p =>
      let old : Sigaction := { s.actions curr sig.toNat with handler := BitVec.ofNat 64 (p.handlers sig.toNat) }
      let finish := fun s : SigState =>
        if oldact > 0x1000 then s.report env oldact ((List.range 32).map old.byteAt) else (s, 0)
      if act = 0 then finish s
      else
        match fetchAction env act with
        | none => (s, -14)
        | some new => finish (s.setAction curr sig.toNat new)

/-- The mask after `process_sigprocmask`; 64 bits are cut to 32. -/
def newMask (how : Int) (blocked : BitVec 32) (set : BitVec 64) : BitVec 32 :=
  let mask := (set &&& ~~~((1#64 <<< sigKill) ||| (1#64 <<< sigStop))).setWidth 32
  if how = 0 then blocked ||| mask
  else if how = 1 then blocked &&& ~~~mask
  else if how = 2 then mask
  else blocked

/-- `process_sigprocmask`, called in the process `curr`. -/
def processSigprocmask (env : Surroundings) (curr : Int) (how : Int) (set oldset : Nat) : SigState × Int :=
  match s.table.processGetByPid curr with
  | none => (s, -1)
  | some p =>
    let finish := fun s : SigState =>
      if oldset = 0 then (s, 0) else s.report env oldset ((List.range 8).map (byteOf (p.blocked.setWidth 64)))
    let update := fun kset : BitVec 64 =>
      finish { s with table := s.table.update curr fun p => { p with blocked := newMask how p.blocked kset } }
    if set = 0 then finish s
    else if set ≤ userAddrMax then
      match env.userSet set with
      | none => (s, -14)
      | some kset => update kset
    else update (env.kernelSet set)

/-- `sys_fork`; the child's `process_t` is at a new address. -/
def sysFork (parent : Proc) (fault : Option ForkFault) (addr : Nat) : SigState where
  table := (s.table.sysFork parent fault).1
  actions := Function.update s.actions s.table.nextPid (s.actions parent.pid)
  base := Function.update s.base s.table.nextPid addr

end SigState

/-! ## What ends a process, and what keeps its signal state -/

def SigSame (p p' : Proc) : Prop := p'.blocked = p.blocked ∧ p'.handlers = p.handlers

variable {p : Proc} {t : ProcTable} {a k : Nat} {curr how : Int}

theorem SigSame.trans {q r : Proc} (h : SigSame p q) (h' : SigSame q r) : SigSame p r :=
  ⟨h'.1.trans h.1, h'.2.trans h.2⟩

/-- What the end of process `x` does to an entry: nothing to the masks, and the entry of `x` gets its status. -/
structure Ended (x exitCode : Int) (term : Int → Int) (p p' : Proc) : Prop where
  pid : p'.pid = p.pid
  sig : SigSame p p'
  self : p.pid = x → p'.status = .zombie ∧ p'.exitCode = exitCode ∧ p'.termSig = term p.termSig

namespace ProcTable

variable {t' : ProcTable} {x exitCode : Int} {term : Int → Int}

theorem reparent_ended (t : ProcTable) (x : Int) {f : Proc → Proc}
    (hf : ∀ p, (f p).pid = p.pid ∧ SigSame p (f p) ∧ (f p).status = .zombie ∧ (f p).exitCode = exitCode ∧
      (f p).termSig = term p.termSig) : Moves (Ended x exitCode term) t ((t.update x f).reparent x) := by
  refine ⟨rfl, _, map_map, fun p => ?_⟩
  obtain ⟨hpid, hsig, hself⟩ := hf p
  simp only [Function.comp_apply]
  by_cases hx : p.pid = x
  · rw [if_pos hx]
    split
    all_goals exact ⟨hpid, hsig, fun _ => hself⟩
  · rw [if_neg hx]
    split
    all_goals exact ⟨rfl, ⟨rfl, rfl⟩, fun h => absurd h hx⟩

theorem post_keeps (p : Proc) (sig : Nat) : (post p sig).pid = p.pid ∧ SigSame p (post p sig) ∧
    (post p sig).status = p.status ∧ (post p sig).exitCode = p.exitCode ∧ (post p sig).termSig = p.termSig := by
  unfold post
  split <;> exact ⟨rfl, ⟨rfl, rfl⟩, rfl, rfl, rfl⟩

theorem Ended.post (p q : Proc) (h : Ended x exitCode term p q) : Ended x exitCode term p (post q sigChld) := by
  obtain ⟨hpid, hsig, hstat, hcode, hterm⟩ := post_keeps q sigChld
  refine ⟨hpid.trans h.pid, h.sig.trans hsig, fun hx => ?_⟩
  rw [hstat, hcode, hterm]
  exact h.self hx

theorem processExit_ended (t : ProcTable) (x exitCode : Int) :
    Moves (Ended x exitCode id) t (t.processExit x exitCode) := by
  refine .processExit (reparent_ended t x ?_) Ended.post fun p q h => ⟨h.pid, h.sig, h.self⟩
  exact fun p => ⟨rfl, ⟨rfl, rfl⟩, rfl, rfl, rfl⟩

theorem kill_ended (t : ProcTable) (p : Proc) (sig : Nat) :
    Moves (Ended p.pid (128 + sig) fun _ => sig) t (t.kill p sig) := by
  refine .kill (reparent_ended t p.pid ?_) Ended.post
  exact fun p => ⟨rfl, ⟨rfl, rfl⟩, rfl, rfl, rfl⟩

theorem Moves.mono {R S : Proc → Proc → Prop} (h : Moves R t t') (hRS : ∀ p p', R p p' → S p p') : Moves S t t' := by
  obtain ⟨hnext, f, hf, hR⟩ := h
  exact ⟨hnext, f, hf, fun p => hRS p (f p) (hR p)⟩

theorem refl_sigSame (t : ProcTable) : Moves SigSame t t := .refl (fun _ => ⟨rfl, rfl⟩) t

/-- An earlier change that keeps what `Ended` speaks of, but for the signal. -/
theorem Moves.before_ended {t'' : ProcTable} {term' : Int → Int}
    (h : Moves (fun p p' => p'.pid = p.pid ∧ SigSame p p' ∧ (p.pid = x → term p'.termSig = term' p.termSig)) t t')
    (h' : Moves (Ended x exitCode term) t' t'') : Moves (Ended x exitCode term') t t'' := by
  refine h.trans h' fun p q r hpq hqr => ?_
  obtain ⟨hpid, hsig, hterm⟩ := hpq
  refine ⟨hqr.pid.trans hpid, .trans hsig hqr.sig, fun hx => ?_⟩
  obtain ⟨hstat, hcode, hterm'⟩ := hqr.self (hpid.trans hx)
  exact ⟨hstat, hcode, hterm'.trans (hterm hx)⟩

/-- **A fatal signal** gives the process its status, whoever sends it. -/
theorem processSendSignal_fatal (t : ProcTable) (curr : Int) {sig : Int} (hpos : 0 < sig) (hlt : sig < 32)
    (hfatal : disposition p sig.toNat = .fatal) :
    Moves (Ended p.pid (128 + sig) fun _ => sig) t (t.processSendSignal curr p sig).1 := by
  have hcast : (sig.toNat : Int) = sig := Int.toNat_of_nonneg hpos.le
  have hpost : Moves (fun p p' => p'.pid = p.pid ∧ SigSame p p') t (t.update p.pid fun p => post p sig.toNat) := by
    refine Moves.update (.refl (fun _ => ⟨rfl, rfl, rfl⟩) t) p.pid fun _ q hq => ?_
    exact ⟨(post_keeps q sig.toNat).1.trans hq.1, hq.2.trans (post_keeps q sig.toNat).2.1⟩
  unfold processSendSignal
  rw [if_neg (by omega), if_neg (by omega), hfatal]
  dsimp only
  split
  · refine .before_ended ?_ (processExit_ended _ p.pid (128 + sig))
    obtain ⟨hnext, f, hf, hkeep⟩ := hpost
    refine ⟨hnext, fun q => if (f q).pid = p.pid then { f q with termSig := sig } else f q, ?_, fun q => ?_⟩
    · show List.map _ _ = _
      rw [hf, List.map_map]
      rfl
    · obtain ⟨hpid, hsig⟩ := hkeep q
      dsimp only
      by_cases hq : (f q).pid = p.pid
      · rw [if_pos hq]
        exact ⟨hpid, hsig, fun _ => rfl⟩
      · rw [if_neg hq]
        exact ⟨hpid, hsig, fun hx => absurd (hpid.trans hx) hq⟩
  · have hkill := kill_ended (t.update p.pid fun p => post p sig.toNat) p sig.toNat
    rw [hcast] at hkill
    exact .before_ended (hpost.mono fun _ _ h => ⟨h.1, h.2, fun _ => rfl⟩) hkill

theorem processSendSignal_sigSame (t : ProcTable) (curr : Int) (p : Proc) (sig : Int) :
    Moves SigSame t (t.processSendSignal curr p sig).1 := by
  by_cases hrange : 0 < sig ∧ sig < 32
  · by_cases hfatal : disposition p sig.toNat = .fatal
    · exact (processSendSignal_fatal t curr hrange.1 hrange.2 hfatal).mono fun _ _ h => h.sig
    · unfold processSendSignal
      rw [if_neg (by omega), if_neg (by omega)]
      split
      · exact refl_sigSame t
      · contradiction
      · exact (refl_sigSame t).update p.pid fun _ q hq => hq.trans (post_keeps q sig.toNat).2.1
  · unfold processSendSignal
    split
    · exact refl_sigSame t
    · rw [if_pos (by omega)]
      exact refl_sigSame t

end ProcTable

/-! ## The invariant -/

structure Unmaskable (p : Proc) : Prop where
  kill_open : p.blocked.getLsbD sigKill = false
  stop_open : p.blocked.getLsbD sigStop = false
  kill_default : p.handlers sigKill = sigDfl
  stop_default : p.handlers sigStop = sigDfl

theorem Unmaskable.same {p' : Proc} (h : Unmaskable p) (hsame : SigSame p p') : Unmaskable p' := by
  obtain ⟨hblocked, hhand⟩ := hsame
  exact ⟨by rw [hblocked, h.kill_open], by rw [hblocked, h.stop_open], by rw [hhand, h.kill_default],
    by rw [hhand, h.stop_default]⟩

/-- No process masks either signal. -/
abbrev ProcTable.Unmasked (t : ProcTable) : Prop := ∀ p ∈ t.procs, Unmaskable p

theorem Unmaskable.moves {t' : ProcTable} (h : t.Unmasked) (hmove : Moves SigSame t t') : t'.Unmasked := by
  intro p hp
  obtain ⟨-, f, hf, hsame⟩ := hmove
  rw [hf] at hp
  obtain ⟨q, hq, rfl⟩ := mem_map.mp hp
  exact (h q hq).same (hsame q)

theorem Unmaskable.update (h : t.Unmasked) (pid : Int) {f : Proc → Proc}
    (hf : ∀ p, Unmaskable p → Unmaskable (f p)) : (t.update pid f).Unmasked := by
  intro p hp
  obtain ⟨q, hq, rfl⟩ := mem_map.mp hp
  split
  · exact hf q (h q hq)
  · exact h q hq

namespace SigState

variable {s s' : SigState} {env : Surroundings}

theorem report_user {bytes : List (BitVec 8)} (huser : a ≤ userAddrMax) : (s.report env a bytes).1 = s := by
  unfold report
  rw [if_pos huser]
  split_ifs <;> rfl

theorem setAction_unmaskable {sig : Nat} {act : Sigaction} (h : s.table.Unmasked) (hkill : sig ≠ sigKill)
    (hstop : sig ≠ sigStop) : (s.setAction curr sig act).table.Unmasked := by
  refine .update h curr fun p hp => ⟨hp.kill_open, hp.stop_open, ?_, ?_⟩
  · exact (Function.update_of_ne hkill.symm _ _).trans hp.kill_default
  · exact (Function.update_of_ne hstop.symm _ _).trans hp.stop_default

theorem processSigaction_unmaskable {sig : Int} {act oldact : Nat} (h : s.table.Unmasked)
    (huser : oldact ≤ userAddrMax) : (s.processSigaction env curr sig act oldact).1.table.Unmasked := by
  have hfin : ∀ (r : SigState) (old : Sigaction), r.table.Unmasked →
      (if oldact > 0x1000 then r.report env oldact ((List.range 32).map old.byteAt) else (r, 0)).1.table.Unmasked := by
    intro r old hr
    split_ifs
    · rwa [report_user huser]
    · exact hr
  unfold processSigaction
  split
  · exact h
  · split
    · exact h
    · dsimp only
      split
      · exact hfin s _ h
      · split
        · exact h
        · exact hfin _ _ (setAction_unmaskable h (by omega) (by omega))

theorem newMask_bit {blocked : BitVec 32} {set : BitVec 64} (hk : k = sigKill ∨ k = sigStop)
    (hblocked : blocked.getLsbD k = false) : (newMask how blocked set).getLsbD k = false := by
  have hmask : ((set &&& ~~~((1#64 <<< sigKill) ||| (1#64 <<< sigStop))).setWidth 32).getLsbD k = false := by
    rcases hk with rfl | rfl <;> simp [sigKill, sigStop]
  unfold newMask
  split_ifs
  · rw [getLsbD_or, hblocked, hmask, Bool.or_false]
  · rw [getLsbD_and, hblocked, Bool.false_and]
  · exact hmask
  · exact hblocked

theorem processSigprocmask_unmaskable {set oldset : Nat} (h : s.table.Unmasked)
    (huser : oldset ≤ userAddrMax) : (s.processSigprocmask env curr how set oldset).1.table.Unmasked := by
  have hfin : ∀ (r : SigState) (old : BitVec 64), r.table.Unmasked →
      (if oldset = 0 then (r, 0) else r.report env oldset ((List.range 8).map (byteOf old))).1.table.Unmasked := by
    intro r old hr
    split_ifs
    · exact hr
    · rwa [report_user huser]
  have hupd : ∀ kset : BitVec 64,
      (s.table.update curr fun p => { p with blocked := newMask how p.blocked kset }).Unmasked := by
    intro kset
    refine .update h curr fun p hp => ⟨?_, ?_, hp.kill_default, hp.stop_default⟩
    · exact newMask_bit (.inl rfl) hp.kill_open
    · exact newMask_bit (.inr rfl) hp.stop_open
  unfold processSigprocmask
  split
  · exact h
  · dsimp only
    split
    · exact hfin s _ h
    · split
      · split
        · exact h
        · exact hfin _ _ (hupd _)
      · exact hfin _ _ (hupd _)

theorem sysFork_unmaskable {parent : Proc} {fault : Option ForkFault} {addr : Nat} (h : s.table.Unmasked)
    (hpar : parent ∈ s.table.procs) : (s.sysFork parent fault addr).table.Unmasked := by
  have hkid : Unmaskable (forkedProc parent s.table.nextPid) := (h parent hpar).same ⟨rfl, rfl⟩
  have hboth : ∀ p ∈ s.table.procs ++ [forkedProc parent s.table.nextPid], Unmaskable p := by
    exact forall_mem_append.mpr ⟨h, forall_mem_singleton.mpr hkid⟩
  rcases fault with _ | fault
  · exact hboth
  · cases fault with
    | process => exact h
    | pagemap => exact h
    | clone => exact h
    | thread => exact hboth

/-- A call or a signal. The calls report the old state to user addresses. -/
inductive Step : SigState → SigState → Prop
  | sigaction {s : SigState} (env : Surroundings) (curr sig : Int) (act oldact : Nat) (huser : oldact ≤ userAddrMax) :
      Step s (s.processSigaction env curr sig act oldact).1
  | sigprocmask {s : SigState} (env : Surroundings) (curr how : Int) (set oldset : Nat)
      (huser : oldset ≤ userAddrMax) : Step s (s.processSigprocmask env curr how set oldset).1
  | fork {s : SigState} (parent : Proc) (fault : Option ForkFault) (addr : Nat) (hparent : parent ∈ s.table.procs) :
      Step s (s.sysFork parent fault addr)
  | signal {s : SigState} (curr : Int) (p : Proc) (sig : Int) (hp : p ∈ s.table.procs) :
      Step s { s with table := (s.table.processSendSignal curr p sig).1 }
  | exit {s : SigState} (pid exitCode : Int) : Step s { s with table := s.table.processExit pid exitCode }
  /-- Anything else leaves the masks and handlers of all processes; a process may go. -/
  | other {s s' : SigState} (h : ∀ p' ∈ s'.table.procs, ∃ p ∈ s.table.procs, SigSame p p') : Step s s'

theorem Step.unmaskable (hstep : Step s s') (h : s.table.Unmasked) : s'.table.Unmasked := by
  cases hstep with
  | sigaction env curr sig act oldact huser => exact processSigaction_unmaskable h huser
  | sigprocmask env curr how set oldset huser => exact processSigprocmask_unmaskable h huser
  | fork parent fault addr hpar => exact sysFork_unmaskable h hpar
  | signal curr p sig hp => exact .moves h (processSendSignal_sigSame s.table curr p sig)
  | exit pid exitCode => exact .moves h ((processExit_ended s.table pid exitCode).mono fun _ _ he => he.sig)
  | other hrest =>
    intro p' hp'
    obtain ⟨p, hp, hsame⟩ := hrest p' hp'
    exact (h p hp).same hsame

theorem disposition_kill (h : Unmaskable p) (hactive : p.status = .active) : disposition p sigKill = .fatal := by
  have hdef : p.handlers 9 = 0 := h.kill_default
  unfold disposition sigKill
  rw [if_neg (by simp [hactive]), if_neg (by simp [hdef, sigIgn, sigDfl, sigChld]), if_neg (by simp),
    if_pos ⟨.inl hdef, by decide⟩]

/-- **`SIGKILL` and `SIGSTOP` cannot be masked.** In every state no process blocks or handles either of them, and
`SIGKILL` leaves every process that has not exited a zombie. -/
theorem kill_and_stop_unmaskable {start s : SigState} (hstart : ∀ p ∈ start.table.procs, Unmaskable p)
    (hrun : ReflTransGen Step start s) :
    (∀ p ∈ s.table.procs, p.blocked.getLsbD sigKill = false ∧ p.blocked.getLsbD sigStop = false ∧
      p.handlers sigKill = sigDfl ∧ p.handlers sigStop = sigDfl) ∧
    ∀ (curr : Int), ∀ p ∈ s.table.procs, p.status = .active →
      ∃ p' ∈ (s.table.processSendSignal curr p sigKill).1.procs, p'.pid = p.pid ∧ p'.status = .zombie := by
  have hall : ∀ p ∈ s.table.procs, Unmaskable p :=
    invariant_of_step (fun _ _ h hstep => hstep.unmaskable h) hstart hrun
  refine ⟨fun p hp => ?_, fun curr p hp hactive => ?_⟩
  · obtain ⟨hkill, hstop, hkill', hstop'⟩ := hall p hp
    exact ⟨hkill, hstop, hkill', hstop'⟩
  · have hfatal : disposition p (sigKill : Int).toNat = .fatal := disposition_kill (hall p hp) hactive
    obtain ⟨-, f, hf, hended⟩ := processSendSignal_fatal s.table curr (by decide) (by decide) hfatal
    rw [hf]
    exact ⟨f p, List.mem_map_of_mem hp, (hended p).pid, ((hended p).self rfl).1⟩

/-- The idle process and `init`, each `process_t` at its place in the kernel heap. -/
def booted : SigState where
  table := ⟨[freshProc 0, freshProc 1], 2⟩
  actions := fun _ _ => ⟨0, 0, 0, 0⟩
  base := fun pid => 0xffff800000100000 + 0x4000 * pid.toNat

/-- User memory that holds the set `set` everywhere. -/
def holding (set : BitVec 64) : Surroundings :=
  ⟨fun _ => some set, fun _ => 0, fun _ => none, fun _ => ⟨0, 0, 0, 0⟩, fun _ => true⟩

/-- The theorem once `init` has asked to block all signals. -/
theorem kill_and_stop_unmaskable_setmask :
    ∃ s, s = (booted.processSigprocmask (holding (allOnes 64)) 1 2 0x1000 0).1 ∧
      (s.table.procs.map Proc.blocked) = [0, 0xfff7fdff] ∧
      ∀ p ∈ s.table.procs, p.blocked.getLsbD sigKill = false ∧ p.blocked.getLsbD sigStop = false ∧
        p.handlers sigKill = sigDfl ∧ p.handlers sigStop = sigDfl := by
  have hbooted : booted.table.Unmasked := by
    exact forall_mem_cons.mpr ⟨⟨rfl, rfl, rfl, rfl⟩, forall_mem_singleton.mpr ⟨rfl, rfl, rfl, rfl⟩⟩
  have hstep : Step booted (booted.processSigprocmask (holding (allOnes 64)) 1 2 0x1000 0).1 :=
    .sigprocmask _ 1 2 0x1000 0 (Nat.zero_le _)
  exact ⟨_, rfl, by decide, (kill_and_stop_unmaskable hbooted (.single hstep)).1⟩

/-- `init` blocks signal 0 and then asks for its mask at the address of `signal_handlers[SIGKILL]`. -/
def handlerOverwritten : SigState :=
  ((booted.processSigprocmask (holding 1) 1 2 0x1000 0).1.processSigprocmask (holding 1) 1 0 0
    (booted.base 1 + 8 + 8 * sigKill)).1

/-- **A way around the mask.** The old mask is written to a kernel address; there it is read as `SIG_IGN`, and
`SIGKILL` does not end the process. -/
theorem sigkill_ignored :
    ∃ p, handlerOverwritten.table.processGetByPid 1 = some p ∧ p.status = .active ∧ p.handlers sigKill = sigIgn ∧
      ((handlerOverwritten.table.processSendSignal 0 p sigKill).1.processGetByPid 1).map Proc.status = some .active :=
  ⟨_, rfl, by decide, by decide, by decide⟩

end SigState

/-! ## Deferred signals -/

namespace ProcTable

variable {t' : ProcTable} {x : Int} {sig sysNo : Nat}

/-- The first signal that `check_fatal_signals` finds: pending, not blocked and without a handler. -/
def fatalPending (p : Proc) : Option Nat :=
  (List.range 32).find? fun s => terminating s && p.pending.getLsbD s && !p.blocked.getLsbD s &&
    (p.handlers s == sigDfl || s == sigKill)

/-- `check_fatal_signals`, run by the process with that pid when the system call `sysNo` returns. It does not come
back from `process_exit`. -/
def checkFatalSignals (t : ProcTable) (sysNo : Nat) (pid : Int) : ProcTable :=
  if sysNo = 60 ∨ sysNo = 231 then t
  else
    match t.processGetByPid pid with
    | none => t
    | some p =>
      if p.status = .zombie then t.processExit pid (if p.exitCode ≠ 0 then p.exitCode else 128)
      else
        match fatalPending p with
        | none => t
        | some s => t.processExit pid (128 + s)

/-- `process_sigprocmask(SIG_UNBLOCK, ..)` of one signal. -/
def unblock (t : ProcTable) (pid : Int) (sig : Nat) : ProcTable :=
  t.update pid fun p => { p with blocked := SigState.newMask 1 p.blocked (1#64 <<< sig) }

/-- The status that `process_waitpid` reports for the process, if it has ended. -/
def reported (t : ProcTable) (pid : Int) : Option Int :=
  (t.processGetByPid pid).bind fun p => if p.status = .zombie then some (statusWord p) else none

/-- The outcome of a signal that is sent to `p` while it is blocked, is unblocked later and then looked for. -/
def sentBlocked (t : ProcTable) (curr : Int) (p : Proc) (sig sysNo : Nat) : Option Int :=
  (((t.processSendSignal curr p sig).1.unblock p.pid sig).checkFatalSignals sysNo p.pid).reported p.pid

def sentOpen (t : ProcTable) (curr : Int) (p : Proc) (sig sysNo : Nat) : Option Int :=
  let p' := { p with blocked := SigState.newMask 1 p.blocked (1#64 <<< sig) }
  (((t.unblock p.pid sig).processSendSignal curr p' sig).1.checkFatalSignals sysNo p.pid).reported p.pid

theorem getByPid_map {f : Proc → Proc} (hprocs : t'.procs = t.procs.map f) (hpid : ∀ q, (f q).pid = q.pid) :
    t'.processGetByPid x = (t.processGetByPid x).map f := by
  have hsame : ((fun p : Proc => p.pid == x) ∘ f) = fun p => p.pid == x := by
    funext q
    rw [Function.comp_apply, hpid]
  unfold processGetByPid
  rw [hprocs, find?_map, hsame]

theorem Moves.getByPid {R : Proc → Proc → Prop} (h : Moves R t t') (hpid : ∀ p p', R p p' → p'.pid = p.pid)
    (hp : t.processGetByPid x = some p) : ∃ p', t'.processGetByPid x = some p' ∧ R p p' := by
  obtain ⟨-, f, hf, hR⟩ := h
  refine ⟨f p, ?_, hR p⟩
  rw [getByPid_map hf fun q => hpid q (f q) (hR q), hp, Option.map_some]

theorem getByPid_update {f : Proc → Proc} (hpid : ∀ p, (f p).pid = p.pid) (hp : t.processGetByPid x = some p) :
    (t.update x f).processGetByPid x = some (f p) := by
  have hx : p.pid = x := by simpa using find?_some hp
  rw [getByPid_map (t := t) rfl fun q => ?_, hp, Option.map_some, if_pos hx]
  split
  · exact hpid q
  · rfl

/-- What becomes of a process with this entry when a system call other than `exit` returns. -/
def fate (p : Proc) : Option Int :=
  if p.status = .zombie then some (statusWord { p with exitCode := if p.exitCode ≠ 0 then p.exitCode else 128 })
  else (fatalPending p).map fun s : Nat => statusWord { p with exitCode := 128 + (s : Int) }

theorem reported_processExit (hp : t.processGetByPid x = some p) (exitCode : Int) :
    (t.processExit x exitCode).reported x = some (statusWord { p with exitCode := exitCode }) := by
  have hx : p.pid = x := by simpa using find?_some hp
  obtain ⟨q, hq, hpq⟩ := (processExit_ended t x exitCode).getByPid (fun _ _ h => h.pid) hp
  obtain ⟨hzom, hcode, hterm⟩ := hpq.self hx
  unfold reported statusWord
  rw [hq, Option.bind_some, if_pos hzom, hcode, hterm]
  rfl

theorem reported_checkFatalSignals (hp : t.processGetByPid x = some p) (hsys : ¬ (sysNo = 60 ∨ sysNo = 231)) :
    (t.checkFatalSignals sysNo x).reported x = fate p := by
  unfold checkFatalSignals fate
  rw [if_neg hsys, hp]
  dsimp only
  split_ifs with hzom hcode
  · exact reported_processExit hp _
  · exact reported_processExit hp _
  · split
    · rename_i hnone
      rw [hnone]
      unfold reported
      rw [hp, Option.bind_some, if_neg hzom]
      rfl
    · rename_i s hs
      rw [hs]
      exact reported_processExit hp _

theorem fate_ended (hzom : p.status = .zombie) (hterm : p.termSig = sig) (hpos : 0 < sig) (hlt : sig < 32) :
    fate p = some (sig : Int) := by
  unfold fate statusWord
  rw [if_pos hzom, hterm, if_pos (by omega)]
  congr 1
  omega

theorem fate_active (hactive : p.status = .active) (hterm : p.termSig = 0) (hlt : sig < 32) :
    fate p ≠ some (sig : Int) := by
  unfold fate statusWord
  rw [if_neg (by rw [hactive]; decide), hterm]
  intro h
  obtain ⟨s, hs, heq⟩ := Option.map_eq_some_iff.mp h
  have hs32 : s < 32 := mem_range.mp (mem_of_find?_eq_some hs)
  dsimp only at heq
  omega

theorem newMask_unblock (blocked : BitVec 32) (hterminating : terminating sig = true) (hkill : sig ≠ sigKill) :
    (SigState.newMask 1 blocked (1#64 <<< sig)).getLsbD sig = false := by
  have hmask : ((1#64 <<< sig &&& ~~~((1#64 <<< sigKill) ||| (1#64 <<< sigStop))).setWidth 32).getLsbD sig = true := by
    unfold terminating at hterminating
    simp only [mem_cons, not_mem_nil, or_false, decide_eq_true_eq] at hterminating
    rcases hterminating with rfl | rfl | rfl | rfl | rfl | rfl | rfl
    all_goals first | decide | exact absurd rfl hkill
  unfold SigState.newMask
  rw [if_neg (by decide), if_pos rfl, getLsbD_and, getLsbD_not, hmask]
  simp

theorem processSendSignal_quiet (t : ProcTable) (curr : Int) (hpos : 0 < sig) (hlt : sig < 32)
    (href : disposition p sig ≠ .refused) (hfatal : disposition p sig ≠ .fatal) :
    (t.processSendSignal curr p sig).1 = t.update p.pid fun p => post p sig := by
  unfold processSendSignal
  rw [if_neg (by omega), if_neg (by omega)]
  split
  · contradiction
  · contradiction
  · rfl

section Dispositions

variable (hactive : p.status = .active) (hterminating : terminating sig = true)

include hterminating

theorem terminating_range : 0 < sig ∧ sig < 32 ∧ sig ≠ sigStop ∧ ¬ (sig = sigChld ∨ sig = 28 ∨ sig = 23) := by
  unfold terminating at hterminating
  simp only [mem_cons, not_mem_nil, or_false, decide_eq_true_eq] at hterminating
  unfold sigStop sigChld
  omega

include hactive

omit hterminating in
theorem disposition_ignored (hignore : p.handlers sig = sigIgn) : disposition p sig = .ignored := by
  unfold disposition
  rw [if_neg (by simp [hactive]), if_pos (.inl hignore)]

theorem disposition_held (hignore : p.handlers sig ≠ sigIgn) (hkill : sig ≠ sigKill)
    (hblocked : p.blocked.getLsbD sig = true) : disposition p sig = .held := by
  obtain ⟨-, -, hstop, hquiet⟩ := terminating_range hterminating
  unfold disposition
  rw [if_neg (by simp [hactive]), if_neg, if_pos ⟨hblocked, hkill, hstop⟩]
  rintro (h | h)
  · exact hignore h
  · exact hquiet h.1

theorem disposition_open (hignore : p.handlers sig ≠ sigIgn) (hopen : p.blocked.getLsbD sig = false) :
    disposition p sig = if p.handlers sig = 2 ∨ p.handlers sig = 3 then .queued else .fatal := by
  obtain ⟨-, -, -, hquiet⟩ := terminating_range hterminating
  unfold disposition
  rw [if_neg (by simp [hactive]), if_neg, if_neg (by simp [hopen])]
  · by_cases hodd : p.handlers sig = 2 ∨ p.handlers sig = 3
    · rw [if_pos hodd, if_neg]
      rintro ⟨hzero | ⟨hbig, -⟩, -⟩
      · unfold sigDfl at hzero
        omega
      · omega
    · rw [if_neg hodd, if_pos]
      refine ⟨?_, hterminating⟩
      by_cases hzero : p.handlers sig = sigDfl
      · exact .inl hzero
      · unfold sigDfl at hzero
        unfold sigIgn at hignore
        exact .inr ⟨by omega, hterminating⟩
  · rintro (h | h)
    · exact hignore h
    · exact hquiet h.1

end Dispositions

/-- **Deferred signals.** A terminating signal that comes while it is blocked, is unblocked later and is found by
`check_fatal_signals` has the outcome of the same signal sent after it was unblocked, if and only if the process ignores
it or its handler is 2 or 3. -/
theorem blocked_signal_delayed (t : ProcTable) (curr : Int) {p : Proc} {sig sysNo : Nat}
    (hp : t.processGetByPid p.pid = some p) (hactive : p.status = .active) (halive : p.termSig = 0)
    (hterminating : terminating sig = true) (hkill : sig ≠ sigKill) (hblocked : p.blocked.getLsbD sig = true)
    (hsys : ¬ (sysNo = 60 ∨ sysNo = 231)) :
    t.sentBlocked curr p sig sysNo = t.sentOpen curr p sig sysNo ↔
      p.handlers sig = sigIgn ∨ p.handlers sig = 2 ∨ p.handlers sig = 3 := by
  unfold sentBlocked sentOpen
  extract_lets p'
  obtain ⟨hpos, hlt, -, -⟩ := terminating_range hterminating
  have hopen : p'.blocked.getLsbD sig = false := newMask_unblock p.blocked hterminating hkill
  have hp' : (t.unblock p.pid sig).processGetByPid p.pid = some p' := getByPid_update (by intro _; rfl) hp
  -- the deferred run: the signal is posted, then unblocked, then looked for
  have hleft : disposition p sig ≠ .refused → disposition p sig ≠ .fatal →
      (((t.processSendSignal curr p sig).1.unblock p.pid sig).checkFatalSignals sysNo p.pid).reported p.pid =
        fate { post p sig with blocked := p'.blocked } := by
    intro hrefused hfatal
    have hpost : (t.update p.pid fun p => post p sig).processGetByPid p.pid = some (post p sig) :=
      getByPid_update (fun q => (post_keeps q sig).1) hp
    have hentry : ((t.update p.pid fun p => post p sig).unblock p.pid sig).processGetByPid p.pid =
        some { post p sig with blocked := SigState.newMask 1 (post p sig).blocked (1#64 <<< sig) } :=
      getByPid_update (by intro _; rfl) hpost
    rw [processSendSignal_quiet t curr hpos hlt hrefused hfatal, reported_checkFatalSignals hentry hsys,
      (post_keeps p sig).2.1.1]
  -- the other run posts the same
  have hright : disposition p' sig ≠ .refused → disposition p' sig ≠ .fatal →
      (((t.unblock p.pid sig).processSendSignal curr p' sig).1.checkFatalSignals sysNo p.pid).reported p.pid =
        fate (post p' sig) := by
    intro hrefused hfatal
    rw [processSendSignal_quiet _ curr hpos hlt hrefused hfatal]
    have hentry : ((t.unblock p.pid sig).update p.pid fun p => post p sig).processGetByPid p.pid = some (post p' sig) :=
      getByPid_update (fun q => (post_keeps q sig).1) hp'
    exact reported_checkFatalSignals hentry hsys
  by_cases hignored : p.handlers sig = sigIgn
  · have hd := disposition_ignored hactive hignored
    have hd' : disposition p' sig = .ignored := disposition_ignored hactive hignored
    rw [hleft (by rw [hd]; decide) (by rw [hd]; decide), hright (by rw [hd']; decide) (by rw [hd']; decide)]
    unfold post
    rw [hd, hd']
    exact ⟨fun _ => .inl hignored, fun _ => rfl⟩
  · have hd := disposition_held hactive hterminating hignored hkill hblocked
    have hd' := disposition_open (p := p') hactive hterminating hignored hopen
    rw [hleft (by rw [hd]; decide) (by rw [hd]; decide)]
    by_cases hodd : p.handlers sig = 2 ∨ p.handlers sig = 3
    · rw [if_pos hodd] at hd'
      rw [hright (by rw [hd']; decide) (by rw [hd']; decide)]
      unfold post
      rw [hd, hd']
      exact ⟨fun _ => .inr hodd, fun _ => rfl⟩
    · rw [if_neg hodd] at hd'
      have hended : Moves (Ended p'.pid (128 + (sig : Int)) fun _ => (sig : Int)) (t.unblock p.pid sig)
          ((t.unblock p.pid sig).processSendSignal curr p' sig).1 :=
        processSendSignal_fatal _ curr (by omega) (by omega) hd'
      obtain ⟨q, hq, hpq⟩ := hended.getByPid (fun _ _ h => h.pid) hp'
      obtain ⟨hzombie, -, hterm⟩ := hpq.self rfl
      rw [reported_checkFatalSignals hq hsys, fate_ended hzombie hterm hpos hlt]
      obtain ⟨-, -, hstatus, -, hterm'⟩ := post_keeps p sig
      have hdiffer : fate { post p sig with blocked := p'.blocked } ≠ some (sig : Int) :=
        fate_active (hstatus.trans hactive) (hterm'.trans halive) hlt
      exact ⟨fun h => absurd h hdiffer, fun h => absurd (h.resolve_left hignored) hodd⟩

/-- A child of `init` that blocks `SIGTERM` and has this handler for it. -/
def blockingChild (handler : Nat) : Proc :=
  { forkedProc (freshProc 1) 2 with blocked := 0x8000, handlers := Function.update (fun _ => sigDfl) 15 handler }

def withChild (handler : Nat) : ProcTable := ⟨[freshProc 0, freshProc 1, blockingChild handler], 3⟩

/-- The theorem for a process that ignores `SIGTERM`. -/
theorem blocked_signal_delayed_ignored :
    (withChild sigIgn).sentBlocked 1 (blockingChild sigIgn) 15 14 = (withChild sigIgn).sentOpen 1 (blockingChild sigIgn) 15 14 :=
  (blocked_signal_delayed (withChild sigIgn) 1 rfl rfl rfl (by decide) (by decide) (by decide) (by decide)).mpr
    (.inl (by decide))

/-- **Deferred signals lose their number, or are not deferred at all.** `SIGTERM` without a handler: the process is
reported to have exited with code 143 instead of ended by signal 15. With a handler: it survives instead. -/
theorem blocked_signal_differs : (withChild sigDfl).sentBlocked 1 (blockingChild sigDfl) 15 14 = some (143 * 256) ∧
    (withChild sigDfl).sentOpen 1 (blockingChild sigDfl) 15 14 = some 15 ∧
    (withChild 4096).sentBlocked 1 (blockingChild 4096) 15 14 = none ∧
    (withChild 4096).sentOpen 1 (blockingChild 4096) 15 14 = some 15 := by
  decide

end ProcTable

end SzpontOS.Sched
