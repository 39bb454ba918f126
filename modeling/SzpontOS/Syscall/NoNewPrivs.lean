import SzpontOS.Syscall.Cred

/-!
# `no_new_privs` (`kernel/src/syscall/syscall.c`)

`prctl(PR_SET_NO_NEW_PRIVS)` sets a flag of the process that `fork` hands on and that nothing clears. `PrivWorld` is the
process table with the set of processes that have asked for the flag, or descend from one that had; they all have it
(`Honoured`).

The set-id branch of `execve` does not look at the flag. So an `execve` keeps the effective ids exactly when the file
has no set-id bit, or is owned by the ids that the process has anyway (`Neutral`); a set-uid program changes the
effective user id all the same (`execve_ignores_no_new_privs`).
-/

namespace SzpontOS.Syscall

/-! ## The calls -/

/-- The fields of `vfs_node_t` that `execve` looks at. -/
structure ExecFile where
  permissions : BitVec 32
  uid : Id
  gid : Id
  isDirectory : Bool
  deriving DecidableEq, Repr

def vfsExec : BitVec 32 := 1

/-- `vfs_check_permission` for a process: 0 grants the access, -1 does not. -/
def vfsCheckPermission (c : Cred) (node : ExecFile) (mask : BitVec 32) : Int :=
  if c.euid = 0 then
    if mask &&& vfsExec ≠ 0 ∧ ¬ node.isDirectory ∧ node.permissions &&& 0o111 = 0 then -1 else 0
  else if c.euid = node.uid then
    if node.permissions >>> 6 &&& 7 &&& mask = mask then 0 else -1
  else if c.egid = node.gid ∨ node.gid ∈ c.groups then
    if node.permissions >>> 3 &&& 7 &&& mask = mask then 0 else -1
  else if node.permissions &&& 7 &&& mask = mask then 0 else -1

/-- The set-uid and set-gid bits of an executed file. -/
def setIdBits (c : Cred) (file : ExecFile) : Cred :=
  let c :=
    if file.permissions &&& 0o4000 ≠ 0 then { c with user := { c.user with effective := file.uid, saved := file.uid } }
    else c
  if file.permissions &&& 0o2000 ≠ 0 then { c with group := { c.group with effective := file.gid, saved := file.gid } }
  else c

/-- `sys_execve`, as far as credentials go: `lookup` is the file behind the path, `memory` whether the argument
vectors can be allocated, and `loads` whether `elf_load_binary_info` accepts the file. -/
def sysExecve (c : Cred) (lookup : Option ExecFile) (memory loads : Bool) : Int × Cred :=
  match lookup with
  | none => (-1, c)
  | some file =>
    if vfsCheckPermission c file vfsExec ≠ 0 then (-1, c)
    else if !memory then (-12, c)
    else if !loads then (-1, c)
    else (0, setIdBits c file)

/-- `sys_prctl`; `copied` is whether the name could be copied from or to the user. -/
def sysPrctl (c : Cred) (option : BitVec 32) (arg2 arg3 arg4 arg5 : BitVec 64) (copied : Bool) : Int × Cred :=
  if option = 15 ∨ option = 16 then (if copied then 0 else -14, c)
  else if option = 38 then
    if arg2 ≠ 1 ∨ arg3 ≠ 0 ∨ arg4 ≠ 0 ∨ arg5 ≠ 0 then (-22, c) else (0, { c with noNewPrivs := true })
  else if option = 39 then
    if arg2 ≠ 0 ∨ arg3 ≠ 0 ∨ arg4 ≠ 0 ∨ arg5 ≠ 0 then (-22, c) else (if c.noNewPrivs then 1 else 0, c)
  else (-22, c)

/-- `process_setgroups`; `copied` is whether the list could be copied from the user, and `array` what `groups` holds then,
which is what it held before if there is no list. -/
def processSetgroups (c : Cred) (size : Nat) (copied : Bool) (array : List Id) : Int × Cred :=
  if c.euid ≠ 0 ∨ size > 32 then (-1, c)
  else if !copied then (-14, c)
  else (0, { c with groups := array.take size })

def createdCred : Cred := ⟨⟨0, 0, 0⟩, ⟨0, 0, 0⟩, [], false⟩

/-- The credentials that `sys_fork` copies from the parent. -/
def forkedCred (parent : Cred) : Cred :=
  { createdCred with
    user := parent.user, group := parent.group, noNewPrivs := parent.noNewPrivs, groups := parent.groups }

/-! ## Histories -/

/-- The process table, and the processes that are bound by the flag: those that have set it and the
descendants they forked since. -/
structure PrivWorld where
  procs : Nat → Option Cred
  bound : Set Nat

/-- A call of a process, with its outcome where the kernel decides it elsewhere. -/
inductive PrivEvent where
  | create (pid : Nat)
  | ids (pid : Nat) (call : IdCall)
  | setgroups (pid size : Nat) (copied : Bool) (array : List Id)
  | prctl (pid : Nat) (option : BitVec 32) (arg2 arg3 arg4 arg5 : BitVec 64) (copied : Bool)
  | fork (pid child : Nat)
  | execve (pid : Nat) (lookup : Option ExecFile) (memory loads : Bool)
  | exit (pid : Nat)

namespace PrivWorld

def set (w : PrivWorld) (pid : Nat) (c : Cred) : PrivWorld :=
  { w with procs := fun p => if p = pid then some c else w.procs p }

/-- One event; a process that does not exist does nothing, and a new process gets a free entry. -/
def step (w : PrivWorld) : PrivEvent → PrivWorld
  | .create pid =>
    match w.procs pid with
    | none => { w.set pid createdCred with bound := w.bound \ {pid} }
    | some _ => w
  | .ids pid call =>
    match w.procs pid with
    | none => w
    | some c => w.set pid (call.run c).2
  | .setgroups pid size copied array =>
    match w.procs pid with
    | none => w
    | some c => w.set pid (processSetgroups c size copied array).2
  | .prctl pid option arg2 arg3 arg4 arg5 copied =>
    match w.procs pid with
    | none => w
    | some c =>
      { w.set pid (sysPrctl c option arg2 arg3 arg4 arg5 copied).2 with
        bound := if option = 38 ∧ (sysPrctl c option arg2 arg3 arg4 arg5 copied).1 = 0 then insert pid w.bound
          else w.bound }
  | .fork pid child =>
    match w.procs pid, w.procs child with
    | some c, none =>
      { w.set child (forkedCred c) with
        bound := { p | (p = child ∧ pid ∈ w.bound) ∨ (p ≠ child ∧ p ∈ w.bound) } }
    | _, _ => w
  | .execve pid lookup memory loads =>
    match w.procs pid with
    | none => w
    | some c => w.set pid (sysExecve c lookup memory loads).2
  | .exit pid => { procs := fun p => if p = pid then none else w.procs p, bound := w.bound \ {pid} }

def run (w : PrivWorld) (events : List PrivEvent) : PrivWorld := events.foldl step w

end PrivWorld

/-! ## The flag stays -/

theorem noNewPrivs_idCall (c : Cred) (call : IdCall) : (call.run c).2.noNewPrivs = c.noNewPrivs := by
  cases call <;> rfl

theorem noNewPrivs_processSetgroups (c : Cred) (size : Nat) (copied : Bool) (array : List Id) :
    (processSetgroups c size copied array).2.noNewPrivs = c.noNewPrivs := by
  unfold processSetgroups
  split_ifs <;> rfl

theorem noNewPrivs_setIdBits (c : Cred) (file : ExecFile) : (setIdBits c file).noNewPrivs = c.noNewPrivs := by
  unfold setIdBits
  split_ifs <;> rfl

theorem sysExecve_cases (c : Cred) (lookup : Option ExecFile) (memory loads : Bool) :
    ((sysExecve c lookup memory loads).1 ≠ 0 ∧ (sysExecve c lookup memory loads).2 = c) ∨
      ∃ file, lookup = some file ∧ sysExecve c lookup memory loads = (0, setIdBits c file) := by
  unfold sysExecve
  cases lookup with
  | none => exact .inl ⟨by norm_num, rfl⟩
  | some file =>
    dsimp only
    split_ifs
    · exact .inl ⟨by norm_num, rfl⟩
    · exact .inl ⟨by norm_num, rfl⟩
    · exact .inl ⟨by norm_num, rfl⟩
    · exact .inr ⟨file, rfl, rfl⟩

theorem noNewPrivs_sysExecve (c : Cred) (lookup : Option ExecFile) (memory loads : Bool) :
    (sysExecve c lookup memory loads).2.noNewPrivs = c.noNewPrivs := by
  rcases sysExecve_cases c lookup memory loads with ⟨-, heq⟩ | ⟨file, -, heq⟩
  · rw [heq]
  · rw [heq]
    exact noNewPrivs_setIdBits c file

theorem noNewPrivs_sysPrctl (c : Cred) (option : BitVec 32) (arg2 arg3 arg4 arg5 : BitVec 64) (copied : Bool) :
    (c.noNewPrivs = true ∨ option = 38 ∧ (sysPrctl c option arg2 arg3 arg4 arg5 copied).1 = 0) →
      (sysPrctl c option arg2 arg3 arg4 arg5 copied).2.noNewPrivs = true := by
  unfold sysPrctl
  by_cases hname : option = 15 ∨ option = 16
  · rw [if_pos hname]
    intro h
    rcases h with h | ⟨hoption, -⟩
    · exact h
    · rcases hname with rfl | rfl <;> simp at hoption
  rw [if_neg hname]
  by_cases hset : option = 38
  · rw [if_pos hset]
    split_ifs
    · intro h
      simpa using h
    · intro _
      rfl
  rw [if_neg hset]
  intro h
  have hflag : c.noNewPrivs = true := h.resolve_right fun h => hset h.1
  split_ifs <;> exact hflag

def Honoured (w : PrivWorld) : Prop := ∀ pid ∈ w.bound, ∀ c, w.procs pid = some c → c.noNewPrivs = true

theorem Honoured.set {w : PrivWorld} {pid : Nat} {c : Cred} {bound : Set Nat} (h : Honoured w)
    (hbound : ∀ p ∈ bound, p ≠ pid → p ∈ w.bound) (hflag : pid ∈ bound → c.noNewPrivs = true) :
    Honoured { w.set pid c with bound := bound } := by
  intro p hp c' hc'
  change (if p = pid then some c else w.procs p) = some c' at hc'
  by_cases hpid : p = pid
  · rw [if_pos hpid] at hc'
    rw [← Option.some.inj hc']
    exact hflag (hpid ▸ hp)
  · rw [if_neg hpid] at hc'
    exact h p (hbound p hp hpid) c' hc'

theorem Honoured.step {w : PrivWorld} (h : Honoured w) (e : PrivEvent) : Honoured (w.step e) := by
  cases e with
  | create pid =>
    rw [PrivWorld.step]
    split
    · exact h.set (fun p hp _ => hp.1) fun hp => absurd rfl hp.2
    · exact h
  | ids pid call =>
    rw [PrivWorld.step]
    split
    · exact h
    · next c hpid =>
      refine h.set (fun p hp _ => hp) fun hp => ?_
      rw [noNewPrivs_idCall]
      exact h pid hp c hpid
  | setgroups pid size copied array =>
    rw [PrivWorld.step]
    split
    · exact h
    · next c hpid =>
      refine h.set (fun p hp _ => hp) fun hp => ?_
      rw [noNewPrivs_processSetgroups]
      exact h pid hp c hpid
  | prctl pid option arg2 arg3 arg4 arg5 copied =>
    rw [PrivWorld.step]
    split
    · exact h
    · next c hpid =>
      refine h.set (fun p hp hne => ?_) fun hp => noNewPrivs_sysPrctl c option arg2 arg3 arg4 arg5 copied ?_
      · split_ifs at hp
        · exact hp.resolve_left hne
        · exact hp
      · split_ifs at hp with hset
        · exact .inr hset
        · exact .inl (h pid hp c hpid)
  | fork pid child =>
    rw [PrivWorld.step]
    split
    · next c hpid _ =>
      refine h.set (fun p hp hne => ?_) fun hp => ?_
      · exact (hp.resolve_left fun hnew => hne hnew.1).2
      · exact h pid (hp.resolve_right fun hold => hold.1 rfl).2 c hpid
    · exact h
  | execve pid lookup memory loads =>
    rw [PrivWorld.step]
    split
    · exact h
    · next c hpid =>
      refine h.set (fun p hp _ => hp) fun hp => ?_
      rw [noNewPrivs_sysExecve]
      exact h pid hp c hpid
  | exit pid =>
    intro p hp c hc
    change (if p = pid then none else w.procs p) = some c at hc
    rw [if_neg (show p ≠ pid from fun heq => hp.2 heq)] at hc
    exact h p hp.1 c hc

theorem Honoured.run {w : PrivWorld} (h : Honoured w) (events : List PrivEvent) : Honoured (w.run events) := by
  induction events generalizing w with
  | nil => exact h
  | cons e events ih => exact ih (h.step e)

/-! ## What `execve` does to the effective ids -/

/-- The set-id bits of the file would not change the effective ids. -/
def Neutral (c : Cred) (file : ExecFile) : Prop :=
  (file.permissions &&& 0o4000 ≠ 0 → file.uid = c.euid) ∧ (file.permissions &&& 0o2000 ≠ 0 → file.gid = c.egid)

theorem setIdBits_effective_iff (c : Cred) (file : ExecFile) :
    ((setIdBits c file).euid = c.euid ∧ (setIdBits c file).egid = c.egid) ↔ Neutral c file := by
  unfold setIdBits Neutral
  generalize file.permissions &&& 0o4000 = setuid, file.permissions &&& 0o2000 = setgid
  by_cases huser : setuid = 0#32
  · by_cases hgroup : setgid = 0#32
    · simp [huser, hgroup]
    · simp [huser, hgroup, Cred.egid]
  · by_cases hgroup : setgid = 0#32
    · simp [huser, hgroup, Cred.euid]
    · simp [huser, hgroup, Cred.euid, Cred.egid]

/-- **No new privileges.** In every history the processes that are bound by the flag have it for good. An `execve` of
such a process keeps the effective ids exactly when it fails or the set-id bits of the file are neutral. -/
theorem no_new_privs {w : PrivWorld} (hstart : w.bound = ∅) (events : List PrivEvent) {pid : Nat} {c : Cred}
    (hbound : pid ∈ (w.run events).bound) (hpid : (w.run events).procs pid = some c) :
    c.noNewPrivs = true ∧ ∀ lookup memory loads,
      ((sysExecve c lookup memory loads).1 ≠ 0 → (sysExecve c lookup memory loads).2 = c) ∧
      ((sysExecve c lookup memory loads).1 = 0 → ∃ file, lookup = some file ∧
        ((sysExecve c lookup memory loads).2.euid = c.euid ∧ (sysExecve c lookup memory loads).2.egid = c.egid ↔
          Neutral c file)) := by
  have hw : Honoured w := fun p hp => absurd hp (by simp [hstart])
  refine ⟨hw.run events pid hbound c hpid, fun lookup memory loads => ?_⟩
  rcases sysExecve_cases c lookup memory loads with ⟨hfail, heq⟩ | ⟨file, hlookup, heq⟩
  · exact ⟨fun _ => heq, fun hok => absurd hok hfail⟩
  · rw [heq]
    exact ⟨fun hfail => absurd rfl hfail, fun _ => ⟨file, hlookup, setIdBits_effective_iff c file⟩⟩

def userCred : Cred := ⟨⟨1000, 1000, 1000⟩, ⟨100, 100, 100⟩, [], false⟩

def oneUser : PrivWorld := ⟨fun pid => if pid = 2 then some userCred else none, ∅⟩

theorem no_new_privs_child :
    (sysExecve { userCred with noNewPrivs := true } (some ⟨0o755, 0, 0, false⟩) true true).2.euid = 1000 := by
  have hbound : 3 ∈ (oneUser.run [.prctl 2 38 1 0 0 0 true, .fork 2 3]).bound := .inl ⟨rfl, .inl rfl⟩
  obtain ⟨-, hexec⟩ := no_new_privs rfl [.prctl 2 38 1 0 0 0 true, .fork 2 3] hbound
    (show _ = some { userCred with noNewPrivs := true } from rfl)
  obtain ⟨file, hfile, hiff⟩ := (hexec (some ⟨0o755, 0, 0, false⟩) true true).2 (by decide)
  refine (hiff.mpr ?_).1
  rw [← Option.some.inj hfile]
  exact ⟨fun h => absurd rfl h, fun h => absurd rfl h⟩

/-- A process that has asked for no new privileges runs a set-uid program and is root. -/
theorem execve_ignores_no_new_privs : (sysPrctl userCred 38 1 0 0 0 true).1 = 0 ∧
      (sysExecve (sysPrctl userCred 38 1 0 0 0 true).2 (some ⟨0o4755, 0, 0, false⟩) true true).1 = 0 ∧
      (sysPrctl userCred 38 1 0 0 0 true).2.euid = 1000 ∧
      (sysExecve (sysPrctl userCred 38 1 0 0 0 true).2 (some ⟨0o4755, 0, 0, false⟩) true true).2.euid = 0 := by
  decide

end SzpontOS.Syscall
