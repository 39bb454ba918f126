import Mathlib.Tactic

/-!
# Process credentials (`kernel/src/syscall/syscall.c`)

A process has three user ids and three group ids. Each system call that changes user ids has a twin for group ids; both
ask whether the effective user id is 0. So the calls are four functions on a triple of ids (`setId`, `setEffectiveId`,
`setRealEffectiveId`, `setResId`), each used twice.

Without privilege every new id is one of the three old ones (`Ids.Within`), so a process that has no id 0 never gets an
id that it did not start with (`unprivileged_confined`).
-/

namespace SzpontOS.Syscall

/-- `uid_t` and `gid_t`. -/
abbrev Id := BitVec 32

/-- `(uid_t)-1`: the id is left as it is. -/
def keepId : Id := -1#32

/-- The real, effective and saved id: `uid`, `euid`, `suid` or `gid`, `egid`, `sgid`. -/
structure Ids where
  real : Id
  effective : Id
  saved : Id
  deriving DecidableEq, Repr

/-! ## The four functions -/

/-- `sys_setuid` and `sys_setgid`. -/
def setId (privileged : Bool) (ids : Ids) (id : Id) : Int × Ids :=
  if privileged then (0, ⟨id, id, id⟩)
  else if id = ids.real ∨ id = ids.effective ∨ id = ids.saved then (0, { ids with effective := id })
  else (-1, ids)

/-- `sys_seteuid` and `sys_setegid`. -/
def setEffectiveId (privileged : Bool) (ids : Ids) (effective : Id) : Int × Ids :=
  if privileged ∨ effective = ids.real ∨ effective = ids.saved then (0, { ids with effective := effective })
  else (-1, ids)

/-- `sys_setreuid` and `sys_setregid`. A refused effective id leaves the new real id in place. -/
def setRealEffectiveId (privileged : Bool) (ids : Ids) (real effective : Id) : Int × Ids :=
  let old := ids
  if real ≠ keepId ∧ ¬ (privileged ∨ real = ids.real ∨ real = ids.effective) then (-1, ids)
  else
    let ids := if real ≠ keepId then { ids with real := real } else ids
    if effective ≠ keepId ∧
        ¬ (privileged ∨ effective = old.real ∨ effective = old.effective ∨ effective = ids.saved) then (-1, ids)
    else
      let ids := if effective ≠ keepId then { ids with effective := effective } else ids
      let ids :=
        if real ≠ keepId ∨ (effective ≠ keepId ∧ effective ≠ old.real) then { ids with saved := ids.effective } else ids
      (0, ids)

/-- An id that `setres` refuses to an unprivileged process. -/
def refusedId (ids : Ids) (id : Id) : Bool :=
  id ≠ keepId && id ≠ ids.real && id ≠ ids.effective && id ≠ ids.saved

/-- `sys_setresuid` and `sys_setresgid`. -/
def setResId (privileged : Bool) (ids : Ids) (real effective saved : Id) : Int × Ids :=
  if !privileged && (refusedId ids real || refusedId ids effective || refusedId ids saved) then (-1, ids)
  else
    (0, { real := if real ≠ keepId then real else ids.real
          effective := if effective ≠ keepId then effective else ids.effective
          saved := if saved ≠ keepId then saved else ids.saved })

/-! ## The calls -/

structure Cred where
  user : Ids
  group : Ids
  groups : List Id
  noNewPrivs : Bool
  deriving DecidableEq, Repr

namespace Cred

abbrev uid (c : Cred) : Id := c.user.real
abbrev euid (c : Cred) : Id := c.user.effective
abbrev suid (c : Cred) : Id := c.user.saved
abbrev gid (c : Cred) : Id := c.group.real
abbrev egid (c : Cred) : Id := c.group.effective
abbrev sgid (c : Cred) : Id := c.group.saved

def privileged (c : Cred) : Bool := c.euid = 0

def onUser (c : Cred) (f : Bool → Ids → Int × Ids) : Int × Cred :=
  ((f c.privileged c.user).1, { c with user := (f c.privileged c.user).2 })

def onGroup (c : Cred) (f : Bool → Ids → Int × Ids) : Int × Cred :=
  ((f c.privileged c.group).1, { c with group := (f c.privileged c.group).2 })

end Cred

def sysSetuid (c : Cred) (uid : Id) : Int × Cred := c.onUser fun p ids => setId p ids uid

def sysSetgid (c : Cred) (gid : Id) : Int × Cred := c.onGroup fun p ids => setId p ids gid

def sysSeteuid (c : Cred) (euid : Id) : Int × Cred := c.onUser fun p ids => setEffectiveId p ids euid

def sysSetegid (c : Cred) (egid : Id) : Int × Cred := c.onGroup fun p ids => setEffectiveId p ids egid

def sysSetreuid (c : Cred) (ruid euid : Id) : Int × Cred := c.onUser fun p ids => setRealEffectiveId p ids ruid euid

def sysSetregid (c : Cred) (rgid egid : Id) : Int × Cred := c.onGroup fun p ids => setRealEffectiveId p ids rgid egid

def sysSetresuid (c : Cred) (ruid euid suid : Id) : Int × Cred := c.onUser fun p ids => setResId p ids ruid euid suid

def sysSetresgid (c : Cred) (rgid egid sgid : Id) : Int × Cred := c.onGroup fun p ids => setResId p ids rgid egid sgid

inductive IdCall where
  | setuid (uid : Id)
  | setgid (gid : Id)
  | seteuid (euid : Id)
  | setegid (egid : Id)
  | setreuid (ruid euid : Id)
  | setregid (rgid egid : Id)
  | setresuid (ruid euid suid : Id)
  | setresgid (rgid egid sgid : Id)
  deriving DecidableEq, Repr

def IdCall.run (c : Cred) : IdCall → Int × Cred
  | setuid uid => sysSetuid c uid
  | setgid gid => sysSetgid c gid
  | seteuid euid => sysSeteuid c euid
  | setegid egid => sysSetegid c egid
  | setreuid ruid euid => sysSetreuid c ruid euid
  | setregid rgid egid => sysSetregid c rgid egid
  | setresuid ruid euid suid => sysSetresuid c ruid euid suid
  | setresgid rgid egid sgid => sysSetresgid c rgid egid sgid

def runCalls (c : Cred) (calls : List IdCall) : Cred := calls.foldl (fun c call => (call.run c).2) c

/-! ## Confinement -/

structure Ids.Within (ids : Ids) (S : Set Id) : Prop where
  real : ids.real ∈ S
  effective : ids.effective ∈ S
  saved : ids.saved ∈ S

def Ids.held (ids : Ids) : Set Id := {ids.real, ids.effective, ids.saved}

theorem Ids.within_held (ids : Ids) : ids.Within ids.held := by
  unfold held
  exact ⟨by simp, by simp, by simp⟩

section Unprivileged

variable {ids : Ids} {S : Set Id} (h : ids.Within S)
include h

theorem Ids.Within.setId (id : Id) : (setId false ids id).2.Within S := by
  unfold Syscall.setId
  rw [if_neg (by simp)]
  by_cases hown : id = ids.real ∨ id = ids.effective ∨ id = ids.saved
  · rw [if_pos hown]
    refine ⟨h.real, ?_, h.saved⟩
    rcases hown with heq | heq | heq
    · exact heq ▸ h.real
    · exact heq ▸ h.effective
    · exact heq ▸ h.saved
  · rw [if_neg hown]
    exact h

theorem Ids.Within.setEffectiveId (effective : Id) : (setEffectiveId false ids effective).2.Within S := by
  unfold Syscall.setEffectiveId
  by_cases hown : false = true ∨ effective = ids.real ∨ effective = ids.saved
  · rw [if_pos hown]
    refine ⟨h.real, ?_, h.saved⟩
    rcases hown with hpriv | heq | heq
    · simp at hpriv
    · exact heq ▸ h.real
    · exact heq ▸ h.saved
  · rw [if_neg hown]
    exact h

/-- The real id may already be new when the effective id is refused; it is an old id all the same. -/
theorem Ids.Within.setRealEffectiveId (real effective : Id) :
    (setRealEffectiveId false ids real effective).2.Within S := by
  unfold Syscall.setRealEffectiveId
  by_cases hreal : real ≠ keepId ∧ ¬ (false = true ∨ real = ids.real ∨ real = ids.effective)
  · rw [if_pos hreal]
    exact h
  rw [if_neg hreal]
  have hset : (if real ≠ keepId then { ids with real := real } else ids).Within S := by
    split_ifs with hkeep
    · refine ⟨?_, h.effective, h.saved⟩
      by_contra hnot
      refine hreal ⟨hkeep, fun hown => hnot ?_⟩
      rcases hown with hpriv | heq | heq
      · simp at hpriv
      · exact heq ▸ h.real
      · exact heq ▸ h.effective
    · exact h
  generalize (if real ≠ keepId then { ids with real := real } else ids) = ids1 at hset ⊢
  by_cases heff : effective ≠ keepId ∧
      ¬ (false = true ∨ effective = ids.real ∨ effective = ids.effective ∨ effective = ids1.saved)
  · rw [if_pos heff]
    exact hset
  rw [if_neg heff]
  have hset' : (if effective ≠ keepId then { ids1 with effective := effective } else ids1).Within S := by
    split_ifs with hkeep
    · refine ⟨hset.real, ?_, hset.saved⟩
      by_contra hnot
      refine heff ⟨hkeep, fun hown => hnot ?_⟩
      rcases hown with hpriv | heq | heq | heq
      · simp at hpriv
      · exact heq ▸ h.real
      · exact heq ▸ h.effective
      · exact heq ▸ hset.saved
    · exact hset
  generalize (if effective ≠ keepId then { ids1 with effective := effective } else ids1) = ids2 at hset' ⊢
  split_ifs
  · exact ⟨hset'.real, hset'.effective, hset'.effective⟩
  · exact hset'

theorem Ids.Within.of_not_refused {id old : Id} (hid : refusedId ids id = false) (hold : old ∈ S) :
    (if id ≠ keepId then id else old) ∈ S := by
  split_ifs with hkeep
  · simp only [refusedId, Bool.and_eq_false_iff, decide_eq_false_iff_not, not_not, hkeep, false_or] at hid
    rcases hid with (heq | heq) | heq
    · exact heq ▸ h.real
    · exact heq ▸ h.effective
    · exact heq ▸ h.saved
  · exact hold

theorem Ids.Within.setResId (real effective saved : Id) : (setResId false ids real effective saved).2.Within S := by
  unfold Syscall.setResId
  by_cases href : (!false && (refusedId ids real || refusedId ids effective || refusedId ids saved)) = true
  · rw [if_pos href]
    exact h
  · rw [if_neg href]
    simp only [Bool.not_false, Bool.true_and, Bool.or_eq_true, not_or, Bool.not_eq_true] at href
    obtain ⟨⟨hreal, heff⟩, hsafe⟩ := href
    exact ⟨h.of_not_refused hreal h.real, h.of_not_refused heff h.effective, h.of_not_refused hsafe h.saved⟩

end Unprivileged

/-- **One call** of an unprivileged process keeps its user ids and its group ids where they are confined. -/
theorem IdCall.run_within {c : Cred} {U G : Set Id} (hpriv : c.euid ≠ 0) (call : IdCall) :
    (c.user.Within U → (call.run c).2.user.Within U) ∧ (c.group.Within G → (call.run c).2.group.Within G) := by
  have hfalse : c.privileged = false := by simpa [Cred.privileged] using hpriv
  cases call with
  | setuid uid => exact ⟨fun h => by rw [run, sysSetuid, Cred.onUser, hfalse]; exact h.setId uid, id⟩
  | setgid gid => exact ⟨id, fun h => by rw [run, sysSetgid, Cred.onGroup, hfalse]; exact h.setId gid⟩
  | seteuid euid => exact ⟨fun h => by rw [run, sysSeteuid, Cred.onUser, hfalse]; exact h.setEffectiveId euid, id⟩
  | setegid egid => exact ⟨id, fun h => by rw [run, sysSetegid, Cred.onGroup, hfalse]; exact h.setEffectiveId egid⟩
  | setreuid ruid euid =>
    exact ⟨fun h => by rw [run, sysSetreuid, Cred.onUser, hfalse]; exact h.setRealEffectiveId ruid euid, id⟩
  | setregid rgid egid =>
    exact ⟨id, fun h => by rw [run, sysSetregid, Cred.onGroup, hfalse]; exact h.setRealEffectiveId rgid egid⟩
  | setresuid ruid euid suid =>
    exact ⟨fun h => by rw [run, sysSetresuid, Cred.onUser, hfalse]; exact h.setResId ruid euid suid, id⟩
  | setresgid rgid egid sgid =>
    exact ⟨id, fun h => by rw [run, sysSetresgid, Cred.onGroup, hfalse]; exact h.setResId rgid egid sgid⟩

/-- The user ids along a run: 0 is not among them, so no call ever finds the process privileged. -/
theorem runCalls_user_within {U : Set Id} (hzero : 0 ∉ U) (calls : List IdCall) {c : Cred} (h : c.user.Within U) :
    (runCalls c calls).user.Within U := by
  induction calls generalizing c with
  | nil => exact h
  | cons call calls ih =>
    have hpriv : c.euid ≠ 0 := fun heq => hzero (heq ▸ h.effective)
    exact ih ((call.run_within (G := ∅) hpriv).1 h)

theorem runCalls_group_within {G : Set Id} (calls : List IdCall) {c : Cred} (h : c.group.Within G)
    (hpriv : ∀ n, n < calls.length → (runCalls c (calls.take n)).euid ≠ 0) : (runCalls c calls).group.Within G := by
  induction calls generalizing c with
  | nil => exact h
  | cons call calls ih =>
    have hfst : c.euid ≠ 0 := hpriv 0 (by simp)
    refine ih ((call.run_within (U := ∅) hfst).2 h) fun n hn => ?_
    exact hpriv (n + 1) (by simpa using hn)

/-- **Unprivileged credentials are confined.** Whatever calls a process without id 0 makes, its user ids stay
among the three it started with; so do the group ids of any process as long as it stays unprivileged. -/
theorem unprivileged_confined (c : Cred) (calls : List IdCall) :
    (c.uid ≠ 0 → c.euid ≠ 0 → c.suid ≠ 0 → (runCalls c calls).user.Within {c.uid, c.euid, c.suid}) ∧
    ((∀ n, n < calls.length → (runCalls c (calls.take n)).euid ≠ 0) →
      (runCalls c calls).group.Within {c.gid, c.egid, c.sgid}) := by
  refine ⟨fun huid heuid hsuid => ?_, fun hpriv => runCalls_group_within calls c.group.within_held hpriv⟩
  refine runCalls_user_within ?_ calls c.user.within_held
  intro hzero
  rcases hzero with heq | heq | heq
  · exact huid heq.symm
  · exact heuid heq.symm
  · exact hsuid heq.symm

/-- User 1000 with a saved id 33 takes it on; the refused calls before and after change nothing. -/
theorem unprivileged_confined_saved :
    (runCalls ⟨⟨1000, 1000, 33⟩, ⟨100, 100, 100⟩, [], false⟩ [.setuid 0, .seteuid 33, .setreuid 5 0]).user.Within
      {1000, 1000, 33} :=
  (unprivileged_confined ⟨⟨1000, 1000, 33⟩, ⟨100, 100, 100⟩, [], false⟩ [.setuid 0, .seteuid 33, .setreuid 5 0]).1
    (by decide) (by decide) (by decide)

end SzpontOS.Syscall
