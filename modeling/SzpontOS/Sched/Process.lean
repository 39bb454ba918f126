import SzpontOS.Lib.Run

/-!
# The process table

`g_process_list` of `sched/process.c` and the calls that change it. An entry is named by its pid, which it keeps from
`process_create` until `process_waitpid` frees it. In every state no two entries share a pid, no entry has an exited
process for a parent, and each exited process is handed out once, to the process that is its parent at that moment
(`process_table_invariant`).
-/

namespace SzpontOS.Sched

open SzpontOS.Lib Relation List

inductive ProcStatus
  | active
  | zombie
  deriving DecidableEq

/-- `process_t`, as far as these calls use it. `noCldWait` is `SA_NOCLDWAIT` in `sigactions[SIGCHLD]`. -/
structure Proc where
  pid : Int
  ppid : Int
  pgid : Int
  status : ProcStatus
  exitCode : Int
  termSig : Int
  pending : BitVec 32
  blocked : BitVec 32
  handlers : Nat → Nat
  noCldWait : Bool

/-- The entries in use, in the order of `g_process_list`, and `g_next_pid`. -/
structure ProcTable where
  procs : List Proc
  nextPid : Int

/-- `SIG_DFL` and `SIG_IGN`. -/
def sigDfl : Nat := 0

@[inherit_doc sigDfl] def sigIgn : Nat := 1

def sigChld : Nat := 17

/-- The signals that terminate: `SIGHUP`, `SIGINT`, `SIGQUIT`, `SIGKILL`, `SIGTERM`, `SIGSEGV`, `SIGILL`. -/
def terminating (sig : Nat) : Bool := sig ∈ [1, 2, 3, 9, 15, 11, 4]

namespace ProcTable

def processGetByPid (t : ProcTable) (pid : Int) : Option Proc := t.procs.find? fun p => p.pid == pid

def update (t : ProcTable) (pid : Int) (f : Proc → Proc) : ProcTable :=
  { t with procs := t.procs.map fun p => if p.pid = pid then f p else p }

/-! ## Creation -/

/-- Where a `fork` fails. -/
inductive ForkFault
  /-- `kzalloc` of the process. -/
  | process
  /-- `vmm_create_address_space`, after the pid has been taken. -/
  | pagemap
  /-- `vmm_clone_address_space`; the new entry is removed again. -/
  | clone
  /-- The thread or its stack; the entry stays. -/
  | thread

def pidSucc (pid : Int) : Int := (pid + 1).bmod (2 ^ 32)

/-- The new entry of `process_create`. -/
def freshProc (pid : Int) : Proc := ⟨pid, 0, pid, .active, 0, 0, 0, 0, fun _ => sigDfl, false⟩

def processCreate (t : ProcTable) : ProcTable :=
  ⟨t.procs ++ [freshProc t.nextPid], pidSucc t.nextPid⟩

/-- What `sys_fork` makes of the new entry. -/
def forkedProc (parent : Proc) (pid : Int) : Proc :=
  { freshProc pid with
    ppid := parent.pid, pgid := parent.pgid, blocked := parent.blocked, handlers := parent.handlers,
    noCldWait := parent.noCldWait }

def sysFork (t : ProcTable) (parent : Proc) (fault : Option ForkFault) : ProcTable × Int :=
  let created : ProcTable := ⟨t.procs ++ [forkedProc parent t.nextPid], pidSucc t.nextPid⟩
  match fault with
  | none => (created, t.nextPid)
  | some .process => (t, -1)
  | some .pagemap => ({ t with nextPid := pidSucc t.nextPid }, -1)
  | some .clone => ({ t with nextPid := pidSucc t.nextPid }, -12)
  | some .thread => (created, -1)

/-! ## Signals and exit -/

/-- What `process_send_signal` finds to do for a signal from 1 to 31. -/
inductive Disposition
  | refused
  | ignored
  | held
  | fatal
  | queued
  deriving DecidableEq

/-- The tests of `process_send_signal`, in order. -/
def disposition (p : Proc) (sig : Nat) : Disposition :=
  if p.status ≠ .active then .refused
  else if p.handlers sig = sigIgn ∨ ((sig = sigChld ∨ sig = 28 ∨ sig = 23) ∧ p.handlers sig = sigDfl) then .ignored
  else if p.blocked.getLsbD sig ∧ sig ≠ 9 ∧ sig ≠ 19 then .held
  else if (p.handlers sig = sigDfl ∨ (p.handlers sig > 3 ∧ terminating sig)) ∧ terminating sig then .fatal
  else .queued

/-- `pending_signals` after `process_send_signal`. -/
def post (p : Proc) (sig : Nat) : Proc :=
  match disposition p sig with
  | .refused => p
  | .ignored => { p with pending := p.pending &&& ~~~(1#32 <<< sig) }
  | _ => { p with pending := p.pending ||| (1#32 <<< sig) }

/-- `process_send_signal(.., SIGCHLD)` to the process with that pid, if there is one. `SIGCHLD` terminates
nobody, so only the pending signals change. -/
def notify (t : ProcTable) (pid : Int) : ProcTable := t.update pid fun p => post p sigChld

/-- The children of an exiting process go to process 1. -/
def reparent (t : ProcTable) (pid : Int) : ProcTable :=
  { t with procs := t.procs.map fun p => if p.ppid = pid then { p with ppid := 1 } else p }

def zombieChild (t : ProcTable) (pid : Int) : Bool := t.procs.any fun p => p.ppid == pid && p.status == .zombie

/-- `process_exit`, called in the process with that pid. -/
def processExit (t : ProcTable) (pid exitCode : Int) : ProcTable :=
  let t := t.update pid fun p => { p with status := .zombie, exitCode := exitCode }
  let notifyInit := t.zombieChild pid
  let t := t.reparent pid
  let ppid := ((t.processGetByPid pid).map Proc.ppid).getD 0
  match if ppid > 0 then t.processGetByPid ppid else none with
  | none => if notifyInit then t.notify 1 else t
  | some parent =>
    if parent.handlers sigChld = sigIgn ∨ parent.noCldWait then
      (t.update pid fun p => { p with ppid := 1 }).notify 1
    else
      let t := t.notify ppid
      if notifyInit then t.notify 1 else t

/-- The end of a process other than the current one in `process_send_signal`. -/
def kill (t : ProcTable) (p : Proc) (sig : Nat) : ProcTable :=
  let t := t.update p.pid fun p => { p with termSig := sig, status := .zombie, exitCode := 128 + sig }
  let notifyInit := t.zombieChild p.pid
  let t := t.reparent p.pid
  let ppid := ((t.processGetByPid p.pid).map Proc.ppid).getD 0
  let t := if ppid > 0 then t.notify ppid else t
  if notifyInit ∧ ppid ≠ 1 then t.notify 1 else t

/-- `process_send_signal`, called in the process `curr`, to the entry `p`. -/
def processSendSignal (t : ProcTable) (curr : Int) (p : Proc) (sig : Int) : ProcTable × Int :=
  if sig < 0 ∨ sig ≥ 32 then (t, -1)
  else if sig = 0 then (t, 0)
  else
    match disposition p sig.toNat with
    | .refused => (t, -1)
    | .fatal =>
      let t := t.update p.pid fun p => post p sig.toNat
      if p.pid = curr then
        ((t.update p.pid fun p => { p with termSig := sig }).processExit p.pid (128 + sig), 0)
      else (t.kill p sig.toNat, 0)
    | _ => (t.update p.pid fun p => post p sig.toNat, 0)

/-- `process_setpgid`, called in the process `curr`. -/
def processSetpgid (t : ProcTable) (curr pid pgid : Int) : ProcTable × Int :=
  match t.processGetByPid (if pid = 0 then curr else pid) with
  | none => (t, -1)
  | some target =>
    if pgid < 0 then (t, -1)
    else (t.update target.pid fun p => { p with pgid := if pgid = 0 then target.pid else pgid }, 0)

/-! ## Waiting -/

/-- `pid_match` of `process_waitpid`. -/
def pidMatch (curr p : Proc) (pid : Int) : Bool :=
  if pid > 0 then p.pid == pid
  else if pid = -1 then true
  else if pid = 0 then p.pgid == curr.pgid
  else p.pgid == -pid

/-- What one pass of `process_waitpid` over the table comes to. -/
inductive WaitResult
  /-- The child is returned, with its status word, and its entry freed. -/
  | reaped (child : Proc) (status : Int)
  /-- `-ECHILD` -/
  | noChild
  /-- `-EINTR` -/
  | interrupted
  /-- Nothing yet: 0 with `WNOHANG`, or another pass once the wait queue is woken. -/
  | none

def statusWord (p : Proc) : Int :=
  if p.termSig > 0 then p.termSig % 128 else p.exitCode % 256 * 256

/-- One pass of `process_waitpid`, called in the process `curr`. -/
def processWaitpid (t : ProcTable) (curr : Proc) (pid : Int) : ProcTable × WaitResult :=
  let mine := fun p : Proc => p.ppid == curr.pid && pidMatch curr p pid
  let clearSigchld := fun t : ProcTable =>
    t.update curr.pid fun p => { p with pending := p.pending &&& ~~~(1#32 <<< sigChld) }
  match t.procs.find? fun p => mine p && p.status == .zombie with
  | some p =>
    let t := { t with procs := t.procs.eraseP fun p => mine p && p.status == .zombie }
    (if t.procs.any fun q => q.ppid == curr.pid && q.status == .zombie then t else clearSigchld t,
      .reaped p (statusWord p))
  | none =>
    if !t.procs.any mine then (clearSigchld t, .noChild)
    else if curr.pending &&& ~~~(curr.blocked ||| (1#32 <<< sigChld)) ≠ 0 then (t, .interrupted)
    else (t, .none)

/-! ## What each call does to the entries -/

variable {t t' : ProcTable} {x : Int}

def Same (p p' : Proc) : Prop := p'.pid = p.pid ∧ p'.ppid = p.ppid ∧ p'.status = p.status

/-- What the exit of process `x` does to an entry: its own becomes a zombie, its children go to process 1. -/
structure Left (x : Int) (p p' : Proc) : Prop where
  pid : p'.pid = p.pid
  self : p.pid = x → p'.status = .zombie
  other : p.pid ≠ x → p'.status = p.status
  parent : p'.ppid = 1 ∨ (p'.ppid = p.ppid ∧ p.ppid ≠ x)

/-- Every entry of the table changes as `R` says; none comes or goes. -/
def Moves (R : Proc → Proc → Prop) (t t' : ProcTable) : Prop :=
  t'.nextPid = t.nextPid ∧ ∃ f, t'.procs = t.procs.map f ∧ ∀ p, R p (f p)

theorem Moves.trans {R S T : Proc → Proc → Prop} {t'' : ProcTable} (h : Moves R t t') (h' : Moves S t' t'')
    (hrel : ∀ p q r, R p q → S q r → T p r) : Moves T t t'' := by
  obtain ⟨hnext, f, hf, hR⟩ := h
  obtain ⟨hnext', g, hg, hS⟩ := h'
  refine ⟨hnext'.trans hnext, g ∘ f, ?_, fun p => hrel _ _ _ (hR p) (hS (f p))⟩
  rw [hg, hf, List.map_map]

theorem Moves.refl {R : Proc → Proc → Prop} (h : ∀ p, R p p) (t : ProcTable) : Moves R t t :=
  ⟨rfl, id, (map_id _).symm, h⟩

theorem Moves.update {R : Proc → Proc → Prop} (h : Moves R t t') (pid : Int) {f : Proc → Proc}
    (hf : ∀ p q, R p q → R p (f q)) : Moves R t (t'.update pid f) := by
  obtain ⟨hnext, g, hg, hR⟩ := h
  refine ⟨hnext, (fun p => if p.pid = pid then f p else p) ∘ g, ?_, fun p => ?_⟩
  · show t'.procs.map _ = _
    rw [hg, List.map_map]
  · rw [Function.comp_apply]
    split
    · exact hf p _ (hR p)
    · exact hR p

/-- What the new zombie and the children without a parent make true of every entry, and `SIGCHLD` and the new parent
keep, is true after `process_exit`. -/
theorem Moves.processExit {R : Proc → Proc → Prop} {exitCode : Int}
    (hend : Moves R t ((t.update x fun p => { p with status := .zombie, exitCode := exitCode }).reparent x))
    (hpost : ∀ p q, R p q → R p (post q sigChld)) (hinit : ∀ p q, R p q → R p { q with ppid := 1 }) :
    Moves R t (t.processExit x exitCode) := by
  unfold ProcTable.processExit
  dsimp only
  split
  · split
    · exact hend.update 1 hpost
    · exact hend
  · split
    · exact (hend.update x hinit).update 1 hpost
    · split
      · exact (hend.update _ hpost).update 1 hpost
      · exact hend.update _ hpost

theorem Moves.kill {R : Proc → Proc → Prop} {p : Proc} {sig : Nat}
    (hend : Moves R t ((t.update p.pid fun p =>
      { p with termSig := sig, status := .zombie, exitCode := 128 + sig }).reparent p.pid))
    (hpost : ∀ p q, R p q → R p (post q sigChld)) : Moves R t (t.kill p sig) := by
  unfold ProcTable.kill
  dsimp only
  split <;> split
  · exact (hend.update _ hpost).update 1 hpost
  · exact hend.update 1 hpost
  · exact hend.update _ hpost
  · exact hend

theorem Same.refl (p : Proc) : Same p p := ⟨rfl, rfl, rfl⟩

theorem Same.trans (p q r : Proc) (h : Same p q) (h' : Same q r) : Same p r :=
  ⟨h'.1.trans h.1, h'.2.1.trans h.2.1, h'.2.2.trans h.2.2⟩

theorem Left.trans_same (p q r : Proc) (h : Left x p q) (h' : Same q r) : Left x p r := by
  obtain ⟨hpid, hppid, hstat⟩ := h'
  refine ⟨hpid.trans h.pid, fun hp => hstat.trans (h.self hp), fun hp => hstat.trans (h.other hp), ?_⟩
  rw [hppid]
  exact h.parent

theorem Same.trans_left (p q r : Proc) (h : Same p q) (h' : Left x q r) : Left x p r := by
  obtain ⟨hpid, hppid, hstat⟩ := h
  refine ⟨h'.pid.trans hpid, fun hp => h'.self (hpid.trans hp), fun hp => (h'.other (hpid ▸ hp)).trans hstat, ?_⟩
  rw [← hppid]
  exact h'.parent

theorem post_same (p : Proc) (sig : Nat) : Same p (post p sig) := by
  unfold post
  split <;> exact ⟨rfl, rfl, rfl⟩

theorem update_same {f : Proc → Proc} (h : ∀ p, Same p (f p)) (t : ProcTable) (pid : Int) :
    Moves Same t (t.update pid f) :=
  (Moves.refl Same.refl t).update pid fun p q hq => Same.trans p q _ hq (h q)

theorem reparent_left (t : ProcTable) (x : Int) {f : Proc → Proc}
    (hf : ∀ p, (f p).pid = p.pid ∧ (f p).ppid = p.ppid ∧ (f p).status = .zombie) :
    Moves (Left x) t ((t.update x f).reparent x) := by
  refine ⟨rfl, _, map_map, fun p => ?_⟩
  obtain ⟨hpid, hppid, hstat⟩ := hf p
  simp only [Function.comp_apply]
  by_cases hx : p.pid = x
  · simp only [if_pos hx, hppid]
    by_cases hp : p.ppid = x
    · rw [if_pos hp]
      exact ⟨hpid, fun _ => hstat, fun h => absurd hx h, .inl rfl⟩
    · rw [if_neg hp]
      exact ⟨hpid, fun _ => hstat, fun h => absurd hx h, .inr ⟨hppid, hp⟩⟩
  · simp only [if_neg hx]
    by_cases hp : p.ppid = x
    · rw [if_pos hp]
      exact ⟨rfl, fun h => absurd h hx, fun _ => rfl, .inl rfl⟩
    · rw [if_neg hp]
      exact ⟨rfl, fun h => absurd h hx, fun _ => rfl, .inr ⟨rfl, hp⟩⟩

theorem Left.post (p q : Proc) (h : Left x p q) : Left x p (post q sigChld) := h.trans_same _ _ _ (post_same q sigChld)

section

variable (t : ProcTable)

theorem processExit_left (x exitCode : Int) : Moves (Left x) t (t.processExit x exitCode) := by
  refine .processExit (reparent_left t x ?_) Left.post fun p q h => ⟨h.pid, h.self, h.other, .inl rfl⟩
  exact fun p => ⟨rfl, rfl, rfl⟩

theorem kill_left (p : Proc) (sig : Nat) : Moves (Left p.pid) t (t.kill p sig) := by
  refine .kill (reparent_left t p.pid ?_) Left.post
  exact fun p => ⟨rfl, rfl, rfl⟩

/-- **A signal** leaves all entries as they are, or is fatal and ends the process. -/
theorem processSendSignal_cases (curr : Int) (p : Proc) (sig : Int) :
    Moves Same t (t.processSendSignal curr p sig).1 ∨
      (disposition p sig.toNat = .fatal ∧ Moves (Left p.pid) t (t.processSendSignal curr p sig).1) := by
  have hrefl := Moves.refl Same.refl t
  have hpost := update_same (fun p => post_same p sig.toNat) t p.pid
  unfold processSendSignal
  split
  · exact .inl hrefl
  · split
    · exact .inl hrefl
    · split
      · exact .inl hrefl
      · next hfatal =>
        refine .inr ⟨hfatal, ?_⟩
        split
        · have hset := update_same (f := fun p => { p with termSig := sig }) (fun p => ⟨rfl, rfl, rfl⟩)
            (t.update p.pid fun p => post p sig.toNat) p.pid
          exact (hpost.trans hset Same.trans).trans (processExit_left _ p.pid _) Same.trans_left
        · exact hpost.trans (kill_left _ p sig.toNat) Same.trans_left
      · exact .inl hpost

theorem processSetpgid_same (curr pid pgid : Int) : Moves Same t (t.processSetpgid curr pid pgid).1 := by
  unfold processSetpgid
  split
  · exact .refl Same.refl t
  · split
    · exact .refl Same.refl t
    · exact update_same (fun p => ⟨by rfl, by rfl, by rfl⟩) t _

/-- **A pass of `process_waitpid`** returns nobody and leaves the entries as they are, or takes one exited
child of the caller out of the table. -/
theorem processWaitpid_cases (curr : Proc) (pid : Int) : (Moves Same t (t.processWaitpid curr pid).1 ∧
      ∀ child status, (t.processWaitpid curr pid).2 ≠ .reaped child status) ∨
    ∃ child pre post, t.procs = pre ++ child :: post ∧ child.status = .zombie ∧ child.ppid = curr.pid ∧
      (t.processWaitpid curr pid).2 = .reaped child (statusWord child) ∧
      Moves Same ⟨pre ++ post, t.nextPid⟩ (t.processWaitpid curr pid).1 := by
  have hclear := fun u : ProcTable => update_same
    (f := fun p => { p with pending := p.pending &&& ~~~(1#32 <<< sigChld) }) (fun p => ⟨rfl, rfl, rfl⟩) u curr.pid
  unfold processWaitpid
  dsimp only
  split
  · next p hfind =>
    obtain ⟨hp, pre, post, hcut, hpre⟩ := find?_eq_some_iff_append.mp hfind
    simp only [Bool.and_eq_true, beq_iff_eq] at hp
    have herase : (t.procs.eraseP fun p => p.ppid == curr.pid && pidMatch curr p pid && p.status == .zombie) =
        pre ++ post := by
      have hnot : ∀ q ∈ pre, ¬ (q.ppid == curr.pid && pidMatch curr q pid && q.status == .zombie) = true := by
        intro q hq htrue
        have := hpre q hq
        rw [htrue] at this
        cases this
      rw [hcut, eraseP_append_right _ hnot, eraseP_cons_of_pos (by simpa using hp)]
    refine .inr ⟨p, pre, post, hcut, hp.2, hp.1.1, rfl, ?_⟩
    rw [herase]
    split
    · exact .refl Same.refl _
    · exact hclear _
  · split
    · exact .inl ⟨hclear t, fun _ _ h => by cases h⟩
    · split
      all_goals exact .inl ⟨.refl Same.refl t, fun _ _ h => by cases h⟩

end

end ProcTable

/-! ## Every run -/

/-- An exited process returned by `process_waitpid`, as its entry was, and the process that called it. -/
structure Reaping where
  child : Proc
  waiter : Int

/-- The table, the number of pids handed out, and the successful calls of `process_waitpid`, latest first. -/
structure ProcWorld where
  table : ProcTable
  created : Nat
  reaped : List Reaping

namespace ProcWorld

open ProcTable

/-- After boot: the idle process and `init`. -/
def boot : ProcWorld := ⟨processCreate (processCreate ⟨[], 0⟩), 2, []⟩

/-- One call. A system call is made by a process that has not exited, since `syscall_dispatcher` checks that
first; only `process_exit` may be called again. -/
inductive Step : ProcWorld → ProcWorld → Prop
  | fork (w parent fault) : parent ∈ w.table.procs → parent.status = .active →
      Step w ⟨(w.table.sysFork parent fault).1, w.created + (match fault with | some .process => 0 | _ => 1), w.reaped⟩
  | exit (w p exitCode) : p ∈ w.table.procs → Step w ⟨w.table.processExit p.pid exitCode, w.created, w.reaped⟩
  | signal (w curr p sig) : p ∈ w.table.procs → Step w ⟨(w.table.processSendSignal curr p sig).1, w.created, w.reaped⟩
  | setpgid (w curr pid pgid) : Step w ⟨(w.table.processSetpgid curr pid pgid).1, w.created, w.reaped⟩
  /-- The signal masks and handlers of an entry change. -/
  | sigaction (w pid f) : (∀ p, Same p (f p)) → Step w ⟨w.table.update pid f, w.created, w.reaped⟩
  | wait (w curr pid t r) : curr ∈ w.table.procs → curr.status = .active → w.table.processWaitpid curr pid = (t, r) →
      Step w ⟨t, w.created, (match r with | .reaped child _ => [⟨child, curr.pid⟩] | _ => []) ++ w.reaped⟩

/-- The parent of the entry is 0, 1 or a process that has not exited. -/
def Parented (procs : List Proc) (p : Proc) : Prop :=
  p.ppid = 0 ∨ p.ppid = 1 ∨ ∃ q ∈ procs, q.pid = p.ppid ∧ q.status = .active

structure Inv (w : ProcWorld) : Prop where
  next : w.table.nextPid = w.created
  below : ∀ p ∈ w.table.procs, p.pid < w.created
  distinct : (w.table.procs.map Proc.pid).Nodup
  parented : ∀ p ∈ w.table.procs, Parented w.table.procs p
  once : (w.reaped.map fun e => e.child.pid).Nodup
  freed : ∀ e ∈ w.reaped, e.child.status = .zombie ∧ e.child.ppid = e.waiter ∧ e.child.pid < w.created ∧
    e.child.pid ∉ w.table.procs.map Proc.pid

variable {w w' : ProcWorld}

theorem Inv.moves {R : Proc → Proc → Prop} {t' : ProcTable} (h : w.Inv) (hmove : Moves R w.table t')
    (hpid : ∀ p p', R p p' → p'.pid = p.pid) (hparent : ∀ p p', R p p' → p'.ppid = 1 ∨
      p'.ppid = p.ppid ∧ ∀ q q', R q q' → q.pid = p.ppid → q'.status = q.status) : Inv ⟨t', w.created, w.reaped⟩ := by
  obtain ⟨hnext, f, hf, hR⟩ := hmove
  have hpids : t'.procs.map Proc.pid = w.table.procs.map Proc.pid := by
    rw [hf, List.map_map]
    exact List.map_congr_left fun p _ => hpid p (f p) (hR p)
  refine ⟨hnext.trans h.next, ?_, hpids ▸ h.distinct, ?_, h.once, fun e he => hpids ▸ h.freed e he⟩
  · rw [hf, forall_mem_map]
    intro p hp
    rw [hpid p (f p) (hR p)]
    exact h.below p hp
  · rw [hf, forall_mem_map]
    intro p hp
    rcases hparent p (f p) (hR p) with hinit | ⟨hppid, hkeep⟩
    · exact .inr (.inl hinit)
    · unfold Parented
      rw [hppid]
      refine (h.parented p hp).imp_right (Or.imp_right fun ⟨q, hq, hqp, hact⟩ => ?_)
      exact ⟨f q, mem_map_of_mem hq, (hpid q (f q) (hR q)).trans hqp, (hkeep q (f q) (hR q) hqp).trans hact⟩

theorem Inv.same {t' : ProcTable} (h : w.Inv) (hmove : Moves Same w.table t') : Inv ⟨t', w.created, w.reaped⟩ :=
  h.moves hmove (fun _ _ hR => hR.1) fun _ _ hR => .inr ⟨hR.2.1, fun _ _ hq _ => hq.2.2⟩

/-- **A process exits**: nobody is left with it for a parent. -/
theorem Inv.left {t' : ProcTable} {x : Int} (h : w.Inv) (hmove : Moves (Left x) w.table t') :
    Inv ⟨t', w.created, w.reaped⟩ := by
  refine h.moves hmove (fun _ _ hR => hR.pid) fun p p' hR => hR.parent.imp_right fun ⟨hppid, hx⟩ => ⟨hppid, ?_⟩
  exact fun q q' hq hqp => hq.other (hqp ▸ hx)

theorem Inv.fork (h : w.Inv) {parent : Proc} (hpar : parent ∈ w.table.procs) (hact : parent.status = .active)
    (hfew : w.created + 1 < 2 ^ 31) :
    Inv ⟨⟨w.table.procs ++ [forkedProc parent w.table.nextPid], pidSucc w.table.nextPid⟩, w.created + 1, w.reaped⟩ ∧
      Inv ⟨⟨w.table.procs, pidSucc w.table.nextPid⟩, w.created + 1, w.reaped⟩ := by
  have hsucc : pidSucc w.table.nextPid = ((w.created + 1 : Nat) : Int) := by
    rw [h.next, pidSucc, Int.bmod_eq_of_le (by omega) (by omega)]
    rfl
  have hnew : ∀ p ∈ w.table.procs, p.pid ≠ w.table.nextPid := by
    intro p hp heq
    have := h.below p hp
    rw [heq, h.next] at this
    exact lt_irrefl _ this
  have h' : Inv ⟨⟨w.table.procs, pidSucc w.table.nextPid⟩, w.created + 1, w.reaped⟩ := by
    refine ⟨hsucc, fun p hp => ?_, h.distinct, h.parented, h.once, fun e he => ?_⟩
    · have := h.below p hp
      push_cast
      omega
    · obtain ⟨hz, hw, hlt, hnot⟩ := h.freed e he
      exact ⟨hz, hw, by push_cast; omega, hnot⟩
  refine ⟨⟨hsucc, fun p hp => ?_, ?_, fun p hp => ?_, h.once, fun e he => ?_⟩, h'⟩
  · rcases mem_append.mp hp with hp | hp
    · exact h'.below p hp
    · rw [mem_singleton.mp hp]
      show w.table.nextPid < _
      rw [h.next]
      push_cast
      omega
  · rw [map_append, nodup_append]
    refine ⟨h.distinct, nodup_singleton _, fun a ha b hb hab => ?_⟩
    obtain ⟨p, hp, rfl⟩ := mem_map.mp ha
    rw [mem_singleton.mp hb] at hab
    exact hnew p hp hab
  · have hkeep : ∀ q, Parented w.table.procs q → Parented (w.table.procs ++ [forkedProc parent w.table.nextPid]) q :=
      fun q hq => hq.imp_right (Or.imp_right fun ⟨r, hr, hpid⟩ => ⟨r, mem_append_left _ hr, hpid⟩)
    rcases mem_append.mp hp with hp | hp
    · exact hkeep p (h.parented p hp)
    · rw [mem_singleton.mp hp]
      exact .inr (.inr ⟨parent, mem_append_left _ hpar, rfl, hact⟩)
  · obtain ⟨hz, hw, hlt, hnot⟩ := h'.freed e he
    refine ⟨hz, hw, hlt, ?_⟩
    rw [map_append, mem_append]
    rintro (hin | hin)
    · exact hnot hin
    · have hold := (h.freed e he).2.2.1
      rw [mem_singleton.mp hin, show (forkedProc parent w.table.nextPid).pid = w.table.nextPid from rfl, h.next] at hold
      exact lt_irrefl _ hold

theorem Inv.reap (h : w.Inv) {child : Proc} {pre post : List Proc} (hcut : w.table.procs = pre ++ child :: post)
    (hzom : child.status = .zombie) :
    Inv ⟨⟨pre ++ post, w.table.nextPid⟩, w.created, ⟨child, child.ppid⟩ :: w.reaped⟩ := by
  have hdist := h.distinct
  rw [hcut, map_append, map_cons, nodup_middle, nodup_cons, ← map_append] at hdist
  have hsub : ∀ p ∈ pre ++ post, p ∈ w.table.procs := by
    intro p hp
    rw [hcut]
    simp only [mem_append, mem_cons] at hp ⊢
    tauto
  have hkid : child ∈ w.table.procs := by
    rw [hcut]
    simp
  refine ⟨h.next, fun p hp => h.below p (hsub p hp), hdist.2, fun p hp => ?_, ?_, fun e he => ?_⟩
  · refine (h.parented p (hsub p hp)).imp_right (Or.imp_right fun ⟨q, hq, hpid, hact⟩ => ⟨q, ?_, hpid, hact⟩)
    have hne : q ≠ child := by
      intro heq
      rw [heq, hzom] at hact
      cases hact
    rw [hcut] at hq
    simp only [mem_append, mem_cons] at hq ⊢
    tauto
  · rw [map_cons, nodup_cons]
    refine ⟨fun hin => ?_, h.once⟩
    obtain ⟨e, he, heq⟩ := mem_map.mp hin
    exact (h.freed e he).2.2.2 (heq ▸ mem_map_of_mem hkid)
  · rcases mem_cons.mp he with rfl | he
    · exact ⟨hzom, rfl, h.below child hkid, hdist.1⟩
    · obtain ⟨hz, hw, hlt, hnot⟩ := h.freed e he
      refine ⟨hz, hw, hlt, fun hin => hnot ?_⟩
      obtain ⟨p, hp, heq⟩ := mem_map.mp hin
      exact heq ▸ mem_map_of_mem (hsub p hp)

theorem Step.inv (hstep : Step w w') (hfew : w'.created < 2 ^ 31) (h : w.Inv) : w'.Inv := by
  cases hstep with
  | fork parent fault hpar hact =>
    cases fault with
    | none => exact (h.fork hpar hact hfew).1
    | some fault =>
      cases fault with
      | process => exact h
      | pagemap => exact (h.fork hpar hact hfew).2
      | clone => exact (h.fork hpar hact hfew).2
      | thread => exact (h.fork hpar hact hfew).1
  | exit p exitCode hp => exact h.left (processExit_left w.table p.pid exitCode)
  | signal curr p sig hp =>
    rcases processSendSignal_cases w.table curr p sig with hsame | ⟨_, hleft⟩
    · exact h.same hsame
    · exact h.left hleft
  | setpgid curr pid pgid => exact h.same (processSetpgid_same w.table curr pid pgid)
  | sigaction pid f hf => exact h.same (update_same hf w.table pid)
  | wait curr pid t r hcurr hact hwait =>
    rcases processWaitpid_cases w.table curr pid with ⟨hsame, hnone⟩ | ⟨child, pre, post, hcut, hz, hp, hr, hsame⟩
    · rw [hwait] at hsame hnone
      cases r with
      | reaped child status => exact absurd rfl (hnone child status)
      | noChild => exact h.same hsame
      | interrupted => exact h.same hsame
      | none => exact h.same hsame
    · rw [hwait] at hr hsame
      obtain rfl : r = .reaped child (statusWord child) := hr
      have := (h.reap hcut hz).same hsame
      rw [hp] at this
      exact this

theorem Step.created_le (hstep : Step w w') : w.created ≤ w'.created := by
  cases hstep with
  | fork parent fault _ _ => exact Nat.le_add_right _ _
  | exit _ _ _ => exact le_rfl
  | signal _ _ _ _ => exact le_rfl
  | setpgid _ _ _ => exact le_rfl
  | sigaction _ _ _ => exact le_rfl
  | wait _ _ _ _ _ _ _ => exact le_rfl

theorem boot_inv : boot.Inv := by
  refine ⟨rfl, ?_, by decide, ?_, nodup_nil, fun e he => absurd he not_mem_nil⟩
  · exact forall_mem_cons.mpr ⟨by decide, forall_mem_singleton.mpr (by decide)⟩
  · exact forall_mem_cons.mpr ⟨.inl rfl, forall_mem_singleton.mpr (.inl rfl)⟩

/-- **The process table.** In every run that hands out fewer than `2 ^ 31` pids, no two entries share a pid, the parent
of every entry is 0, 1 or a process that has not exited, and every exited process has been returned by at most one
`process_waitpid`, to its parent, which freed its entry. -/
theorem process_table_invariant (w : ProcWorld) (hrun : ReflTransGen Step boot w) (hfew : w.created < 2 ^ 31) :
    (w.table.procs.map Proc.pid).Nodup ∧
    (∀ p ∈ w.table.procs, p.ppid = 0 ∨ p.ppid = 1 ∨ ∃ q ∈ w.table.procs, q.pid = p.ppid ∧ q.status = .active) ∧
    (w.reaped.map fun e => e.child.pid).Nodup ∧
    (∀ e ∈ w.reaped, e.child.status = .zombie ∧ e.child.ppid = e.waiter ∧
      ∀ p ∈ w.table.procs, p.pid ≠ e.child.pid) := by
  have hkeep : ∀ w w' : ProcWorld, (w.created < 2 ^ 31 → w.Inv) → Step w w' → w'.created < 2 ^ 31 → w'.Inv :=
    fun w w' hinv hstep hfew => hstep.inv hfew (hinv (lt_of_le_of_lt hstep.created_le hfew))
  have hinv : w.Inv := invariant_of_step hkeep (fun _ => boot_inv) hrun hfew
  refine ⟨hinv.distinct, hinv.parented, hinv.once, fun e he => ?_⟩
  obtain ⟨hz, hw, -, hnot⟩ := hinv.freed e he
  exact ⟨hz, hw, fun p hp heq => hnot (heq ▸ List.mem_map_of_mem hp)⟩

def forked : ProcWorld := ⟨(boot.table.sysFork (freshProc 1) none).1, 3, []⟩

def childExited : ProcWorld := ⟨forked.table.processExit 2 7, 3, []⟩

theorem process_table_invariant_reaped : ∃ w : ProcWorld, w.reaped.map (fun e => (e.child.pid, e.waiter)) = [(2, 1)] ∧
    (w.table.procs.map Proc.pid).Nodup ∧
    (∀ p ∈ w.table.procs, p.ppid = 0 ∨ p.ppid = 1 ∨ ∃ q ∈ w.table.procs, q.pid = p.ppid ∧ q.status = .active) ∧
    (w.reaped.map fun e => e.child.pid).Nodup ∧
    (∀ e ∈ w.reaped, e.child.status = .zombie ∧ e.child.ppid = e.waiter ∧
      ∀ p ∈ w.table.procs, p.pid ≠ e.child.pid) := by
  have hfork : Step boot forked := .fork boot (boot.table.procs.get ⟨1, by decide⟩) none (List.get_mem _ _) rfl
  have hexit : Step forked childExited := .exit forked (forked.table.procs.get ⟨2, by decide⟩) 7 (List.get_mem _ _)
  have hwait := Step.wait childExited (childExited.table.procs.get ⟨1, by decide⟩) (-1) _ _ (List.get_mem _ _) rfl rfl
  exact ⟨_, by decide, process_table_invariant _ (((ReflTransGen.refl.tail hfork).tail hexit).tail hwait) (by decide)⟩

end ProcWorld

end SzpontOS.Sched
