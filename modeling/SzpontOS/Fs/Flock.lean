import Mathlib.Data.Finset.Card
import SzpontOS.Lib.Run

/-!
# Advisory locks

`sys_flock`, and what `sys_close` and `process_exit` do to the lock of a node. The node keeps a type, the process that
holds an exclusive lock and the number of shared holders, but not who they are. It tracks the locks on the file that
were granted (`Tracks`) as long as shared locks are given back by their holders, are not taken twice, and no process
exits with a lock. A file that gets a new node with each open (`ext2`, `procfs`, and nodes with an `open` operation) has
a lock in each of them, and then none may be granted while there are two.
-/

namespace SzpontOS.Fs

open Lib Function Finset

inductive LockType
  | unlocked
  | shared
  | exclusive
deriving DecidableEq

/-- The lock fields of `vfs_node_t`. The count is one up for each call, so it does not get near the bound of an `int`. -/
structure LockNode where
  type : LockType
  count : Int
  owner : Nat
deriving DecidableEq

/-- A file with its nodes. -/
structure LockFile where
  nodes : Nat → LockNode
  /-- the descriptors that each process has for each node -/
  opens : Nat → Nat → Nat
  next : Nat

/-- The release of a lock, which `LOCK_UN` and `sys_close` both spell out. -/
def LockNode.release (node : LockNode) (pid : Nat) : LockNode :=
  if node.type = .exclusive ∧ node.owner = pid then { node with type := .unlocked, owner := 0 }
  else if node.type = .shared then
    let count := if 0 < node.count then node.count - 1 else node.count
    { node with count := count, type := if count = 0 then .unlocked else .shared }
  else node

/-- The operation without `LOCK_NB`. -/
def stripNb (operation : BitVec 32) : BitVec 32 := operation &&& ~~~4

/-- What a call returns that cannot have the lock: nothing while it sleeps and tries again. -/
def refusal (signal : Bool) (operation : BitVec 32) : Option Int :=
  if operation &&& 4 ≠ 0 then some (-11) else if signal then some (-4) else none

/-- One pass of `sys_flock` on the node of a descriptor. -/
def LockNode.flock (node : LockNode) (pid : Nat) (signal : Bool) (operation : BitVec 32) : Option Int × LockNode :=
  if stripNb operation = 8 then (some 0, node.release pid)
  else if stripNb operation = 2 then
    if node.type = .unlocked then (some 0, { node with type := .exclusive, owner := pid })
    else if node.type = .exclusive ∧ node.owner = pid then (some 0, node)
    else (refusal signal operation, node)
  else if stripNb operation = 1 then
    if node.type = .unlocked ∨ node.type = .shared then (some 0, { node with type := .shared, count := node.count + 1 })
    else if node.owner = pid then (some 0, ⟨.shared, 1, 0⟩)
    else (refusal signal operation, node)
  else (some (-22), node)

namespace LockFile

variable (f : LockFile) (pid n : Nat)

/-- One pass of `sys_flock`: what it returns, if it does, and the node. `signal` says that a signal is pending. -/
def sysFlock (signal : Bool) (operation : BitVec 32) : Option Int × LockNode :=
  if f.opens pid n = 0 then (some (-9), f.nodes n) else (f.nodes n).flock pid signal operation

def setOpens (count : Nat) : LockFile := { f with opens := update f.opens pid (update (f.opens pid) n count) }

/-- The file is opened. Its lookup finds a node that all opens get, or makes a new one. -/
def openFile : Option Nat → LockFile
  | some n => f.setOpens pid n (f.opens pid n + 1)
  | none => { f.setOpens pid f.next 1 with nodes := update f.nodes f.next ⟨.unlocked, 0, 0⟩, next := f.next + 1 }

/-- A descriptor that another process or the same one has, by `dup`, `fork` or a message. -/
def share (other : Nat) : LockFile := if f.opens other n = 0 then f else f.setOpens pid n (f.opens pid n + 1)

/-- `sys_close` of a descriptor for the node: the lock goes with the last one of the process. -/
def sysClose : LockFile :=
  if f.opens pid n = 0 then f
  else
    { f.setOpens pid n (f.opens pid n - 1) with
      nodes := if f.opens pid n = 1 then update f.nodes n ((f.nodes n).release pid) else f.nodes }

/-- `process_exit` closes all descriptors with `fd_release`, which does not look at the lock. -/
def processExit : LockFile := { f with opens := update f.opens pid fun _ => 0 }

end LockFile

open LockFile

/-! ## Who holds what -/

inductive LockMode
  | shared
  | exclusive
deriving DecidableEq

/-- A file together with the lock that each process has been granted and has not given back. -/
structure LockState where
  file : LockFile
  holders : Nat → Option LockMode

inductive LockOp
  | openFile (pid : Nat)
  | share (pid n other : Nat)
  | flock (pid n : Nat) (signal : Bool) (operation : BitVec 32)
  | close (pid n : Nat)
  | exit (pid : Nat)

def granted (operation : BitVec 32) : Option LockMode :=
  if stripNb operation = 8 then none else if stripNb operation = 2 then some .exclusive else some .shared

/-- The holders after a call that left the node as `result` says. -/
def afterCall (holders : Nat → Option LockMode) (pid : Nat) (operation : BitVec 32) (result : Option Int × LockNode) :
    Nat → Option LockMode :=
  if result.1 = some 0 then update holders pid (granted operation) else holders

namespace LockState

/-- One operation on a file whose opens all get the node `found`, if it is one. A call of `flock` that returns zero has
done what it was asked for, the last `close` and the end of a process give its lock back. -/
def step (found : Option Nat) (s : LockState) : LockOp → LockState
  | .openFile pid => { s with file := s.file.openFile pid found }
  | .share pid n other => { s with file := s.file.share pid n other }
  | .flock pid n signal operation =>
    { file := { s.file with nodes := update s.file.nodes n (s.file.sysFlock pid n signal operation).2 }
      holders := afterCall s.holders pid operation (s.file.sysFlock pid n signal operation) }
  | .close pid n =>
    { file := s.file.sysClose pid n
      holders := if s.file.opens pid n = 1 then update s.holders pid none else s.holders }
  | .exit pid => { file := s.file.processExit pid, holders := update s.holders pid none }

def init (opens : Nat → Nat → Nat) (next : Nat) : LockState := ⟨⟨fun _ => ⟨.unlocked, 0, 0⟩, opens, next⟩, fun _ => none⟩

/-- The node can still be found or is open. -/
def Live (found : Option Nat) (s : LockState) (n : Nat) : Prop := found = some n ∨ ∃ pid, s.file.opens pid n ≠ 0

end LockState

def sharedBy (pids : Finset Nat) (pid : Nat) : Option LockMode := if pid ∈ pids then some .shared else none

/-- The node says who holds what: nobody, one process exclusively, or as many as the count says. -/
inductive Tracks : LockNode → (Nat → Option LockMode) → Prop
  | unlocked : Tracks ⟨.unlocked, 0, 0⟩ fun _ => none
  | exclusive (pid : Nat) : Tracks ⟨.exclusive, 0, pid⟩ (update (fun _ => none) pid (some .exclusive))
  | shared (pids : Finset Nat) (hpids : pids.Nonempty) :
      Tracks ⟨.shared, pids.card, 0⟩ (sharedBy pids)

/-- Nobody else has a shared lock that a release by `pid` would take. -/
def MayRelease (holders : Nat → Option LockMode) (pid : Nat) : Prop :=
  (∃ other, holders other = some .shared) → holders pid = some .shared

/-- The locks that are held leave room for what is asked for. -/
def Grantable (holders : Nat → Option LockMode) (pid : Nat) (operation : BitVec 32) : Prop :=
  stripNb operation = 8 ∨
  stripNb operation = 2 ∧ ((∀ other, holders other = none) ∨ holders pid = some .exclusive) ∨
  stripNb operation = 1 ∧ ∀ other, holders other = some .exclusive → other = pid

/-- The operations that the fields of the node `m` are enough for. A lock that changes in another node changes nothing
in this one. -/
def Suits (found : Option Nat) (s : LockState) (m : Nat) : LockOp → Prop
  | .openFile _ => found = none → m = s.file.next → ∀ other, s.holders other = none
  | .share .. => True
  | .flock pid n _ operation =>
    s.file.opens pid n ≠ 0 →
      if m = n then (stripNb operation = 8 → MayRelease s.holders pid) ∧ (stripNb operation = 1 → s.holders pid ≠ some .shared)
      else Grantable s.holders pid operation → s.holders pid = granted operation
  | .close pid n => s.file.opens pid n = 1 → if m = n then MayRelease s.holders pid else s.holders pid = none
  | .exit pid => s.holders pid = none

def Disciplined (found : Option Nat) (s : LockState) (op : LockOp) : Prop :=
  ∀ m, (s.step found op).Live found m → Suits found s m op

def Tracked (found : Option Nat) (s : LockState) : Prop := ∀ m, s.Live found m → Tracks (s.file.nodes m) s.holders

variable {node : LockNode} {holders : Nat → Option LockMode} {pid : Nat} {pids : Finset Nat}

/-! ## One operation -/

@[simp] theorem sharedBy_eq_some_iff {lock : LockMode} : sharedBy pids pid = some lock ↔ pid ∈ pids ∧ lock = .shared := by
  simp [sharedBy, eq_comm]

@[simp] theorem sharedBy_eq_none_iff : sharedBy pids pid = none ↔ pid ∉ pids := by simp [sharedBy]

theorem sharedBy_injective : Injective sharedBy := by
  intro pids pids' h
  ext pid
  simpa using congrArg (· = some .shared) (congrFun h pid)

theorem Tracks.of_unlocked (h : Tracks node holders) (htype : node.type = .unlocked) : ∀ pid, holders pid = none := by
  cases h with
  | unlocked => exact fun _ => rfl
  | exclusive pid => cases htype
  | shared pids hpids => cases htype

theorem Tracks.of_exclusive (h : Tracks node holders) (htype : node.type = .exclusive) :
    holders = update (fun _ => none) node.owner (some .exclusive) := by
  cases h with
  | unlocked => cases htype
  | exclusive pid => rfl
  | shared pids hpids => cases htype

theorem Tracks.of_shared (h : Tracks node holders) (htype : node.type = .shared) :
    ∃ pids, holders = sharedBy pids ∧ node.count = pids.card := by
  cases h with
  | unlocked => cases htype
  | exclusive pid => cases htype
  | shared pids hpids => exact ⟨pids, rfl, rfl⟩

theorem Tracks.count_shared (h : Tracks node (sharedBy pids)) (htype : node.type = .shared) :
    node.count = pids.card := by
  obtain ⟨pids', hsame, hcount⟩ := h.of_shared htype
  rw [hcount, sharedBy_injective hsame]

theorem mayRelease_shared (hpids : pids.Nonempty) : MayRelease (sharedBy pids) pid ↔ pid ∈ pids := by
  obtain ⟨other, hrest⟩ := hpids
  exact ⟨fun h => (sharedBy_eq_some_iff.mp (h ⟨other, if_pos hrest⟩)).1, fun hpid _ => if_pos hpid⟩

theorem update_shared_erase : update (sharedBy pids) pid none = sharedBy (pids.erase pid) := by
  funext other
  by_cases hrest : other = pid <;> simp [sharedBy, hrest]

theorem update_shared_insert : update (sharedBy pids) pid (some .shared) = sharedBy (insert pid pids) := by
  funext other
  by_cases hrest : other = pid <;> simp [sharedBy, hrest]

theorem tracks_release_iff (h : Tracks node holders) :
    Tracks (node.release pid) (update holders pid none) ↔ MayRelease holders pid := by
  cases h with
  | unlocked =>
    have hnone : update (fun _ : Nat => (none : Option LockMode)) pid none = fun _ => none := update_eq_self ..
    rw [hnone]
    constructor
    · rintro - ⟨other, hrest⟩
      cases hrest
    · exact fun _ => Tracks.unlocked
  | exclusive owner =>
    have hmay : MayRelease (update (fun _ => none) owner (some .exclusive)) pid := by
      rintro ⟨other, hrest⟩
      by_cases hown : other = owner <;> simp [hown] at hrest
    refine ⟨fun _ => hmay, fun _ => ?_⟩
    by_cases hown : owner = pid
    · subst hown
      have hnone : update (update (fun _ : Nat => (none : Option LockMode)) owner (some .exclusive))
          owner none = fun _ => none := by
        rw [update_idem]
        exact update_eq_self ..
      simpa [LockNode.release] using Tracks.unlocked
    · have hsame : update (update (fun _ : Nat => (none : Option LockMode)) owner (some .exclusive))
          pid none = update (fun _ => none) owner (some .exclusive) := by
        refine update_eq_self_iff.mpr ?_
        rw [update_of_ne (Ne.symm hown)]
      rw [hsame]
      simpa [LockNode.release, hown] using Tracks.exclusive owner
  | shared pids hpids =>
    rw [mayRelease_shared hpids, update_shared_erase]
    have hcard : (0 : Int) < pids.card := by exact_mod_cast hpids.card_pos
    have hrelease : LockNode.release ⟨.shared, pids.card, 0⟩ pid =
        ⟨if (pids.card : Int) - 1 = 0 then .unlocked else .shared, pids.card - 1, 0⟩ := by
      simp only [LockNode.release, reduceCtorEq, false_and, if_false, if_true]
      rw [if_pos hcard]
    rw [hrelease]
    constructor
    · -- a release for a process without a lock takes one from the count and nobody from the holders
      intro htrack
      by_contra hpid
      rw [erase_eq_of_notMem hpid] at htrack
      split_ifs at htrack with hone
      · obtain ⟨other, hrest⟩ := hpids
        exact absurd (htrack.of_unlocked rfl other) (by simpa using hrest)
      · have hcount := htrack.count_shared rfl
        dsimp only at hcount
        omega
    · intro hpid
      have herase : (pids.erase pid).card + 1 = pids.card := card_erase_add_one hpid
      split_ifs with hone
      · have hnil : pids.erase pid = ∅ := card_eq_zero.mp (by omega)
        have hnode : (pids.card : Int) - 1 = 0 := hone
        rw [hnil, hnode, show sharedBy ∅ = fun _ => none from rfl]
        exact .unlocked
      · have hcount : (pids.card : Int) - 1 = (pids.erase pid).card := by omega
        rw [hcount]
        exact Tracks.shared _ (card_pos.mp (by omega))

theorem tracks_update_iff (h : Tracks node holders) (lock : Option LockMode) :
    Tracks node (update holders pid lock) ↔ holders pid = lock := by
  constructor
  · intro hafter
    cases h with
    | unlocked =>
      have hpid := hafter.of_unlocked rfl pid
      rw [update_self] at hpid
      exact hpid.symm
    | exclusive owner =>
      have hpid := congrFun (hafter.of_exclusive rfl) pid
      rw [update_self] at hpid
      exact hpid.symm
    | shared pids hpids =>
      rcases lock with _ | _ | _
      · rw [update_shared_erase] at hafter
        have hcount := hafter.count_shared rfl
        refine if_neg fun hpid => ?_
        have := card_erase_lt_of_mem hpid
        dsimp only at hcount
        omega
      · rw [update_shared_insert] at hafter
        have hcount := hafter.count_shared rfl
        refine if_pos (by_contra fun hpid => ?_)
        rw [card_insert_of_notMem hpid] at hcount
        dsimp only at hcount
        omega
      · obtain ⟨pids', hsame, -⟩ := hafter.of_shared rfl
        have hpid := congrFun hsame pid
        rw [update_self] at hpid
        simpa using hpid.symm
  · intro hsame
    rw [update_eq_self_iff.mpr hsame.symm]
    exact h

theorem tracks_shared_again_iff :
    Tracks ⟨.shared, (pids.card : Int) + 1, 0⟩ (sharedBy (insert pid pids)) ↔ pid ∉ pids := by
  constructor
  · intro htrack hpid
    rw [insert_eq_of_mem hpid] at htrack
    have hcount := htrack.count_shared rfl
    dsimp only at hcount
    omega
  · intro hpid
    have hcard : (pids.card : Int) + 1 = (insert pid pids).card := by
      rw [card_insert_of_notMem hpid]
      rfl
    rw [hcard]
    exact Tracks.shared _ (insert_nonempty ..)

variable {signal : Bool} {operation : BitVec 32}

theorem refusal_ne : refusal signal operation ≠ some 0 := by
  unfold refusal
  split_ifs <;> simp

section

variable (h : Tracks node holders)

include h

theorem flock_eq_zero_iff : (node.flock pid signal operation).1 = some 0 ↔ Grantable holders pid operation := by
  unfold LockNode.flock Grantable
  by_cases hun : stripNb operation = 8
  · simp [hun]
  by_cases hex : stripNb operation = 2
  · rw [if_neg hun, if_pos hex]
    cases h with
    | unlocked => simp [hex]
    | exclusive owner =>
      by_cases hown : owner = pid
      · simp [hex, hown]
      · simpa [hex, hown, Ne.symm hown, refusal_ne] using ⟨owner, by simp⟩
    | shared pids hpids => simpa [hex, refusal_ne, Finset.Nonempty] using hpids
  by_cases hsh : stripNb operation = 1
  · rw [if_neg hun, if_neg hex, if_pos hsh]
    cases h with
    | unlocked => simp [hsh]
    | exclusive owner => by_cases hown : owner = pid <;> simp [hsh, hown, refusal_ne, update_apply]
    | shared pids hpids => simp [hsh]
  rw [if_neg hun, if_neg hex, if_neg hsh]
  exact ⟨fun heq => by simp at heq, fun hany => by tauto⟩

theorem tracks_flock_exclusive (hop : stripNb operation = 2) :
    Tracks (node.flock pid signal operation).2 (afterCall holders pid operation (node.flock pid signal operation)) := by
  have hun : stripNb operation ≠ 8 := by simp [hop]
  have hgranted : granted operation = some .exclusive := by
    unfold granted
    rw [if_neg hun, if_pos hop]
  unfold LockNode.flock afterCall
  rw [if_neg hun, if_pos hop, hgranted]
  cases h with
  | unlocked => exact Tracks.exclusive pid
  | exclusive owner =>
    by_cases hown : owner = pid
    · subst hown
      simpa using Tracks.exclusive owner
    · simpa [hown, refusal_ne] using Tracks.exclusive owner
  | shared pids hpids => simpa [refusal_ne] using Tracks.shared pids hpids

theorem tracks_flock_shared_iff (hop : stripNb operation = 1) :
    Tracks (node.flock pid signal operation).2 (afterCall holders pid operation (node.flock pid signal operation)) ↔
      holders pid ≠ some .shared := by
  have hun : stripNb operation ≠ 8 := by simp [hop]
  have hex : stripNb operation ≠ 2 := by simp [hop]
  have hgranted : granted operation = some .shared := by
    unfold granted
    rw [if_neg hun, if_neg hex]
  have hone : Tracks ⟨.shared, 1, 0⟩ (update (fun _ => none) pid (some .shared)) := by
    have hmap : sharedBy {pid} = update (fun _ => none) pid (some .shared) := by
      funext other
      by_cases hrest : other = pid <;> simp [sharedBy, hrest]
    exact hmap ▸ Tracks.shared {pid} (singleton_nonempty pid)
  unfold LockNode.flock afterCall
  rw [if_neg hun, if_neg hex, if_pos hop, hgranted]
  cases h with
  | unlocked => exact ⟨fun _ => by simp, fun _ => hone⟩
  | exclusive owner =>
    by_cases hown : owner = pid
    · subst hown
      simpa using hone
    · refine ⟨fun _ => by simp [Ne.symm hown], fun _ => ?_⟩
      simpa [hown, refusal_ne] using Tracks.exclusive owner
  | shared pids hpids =>
    simp only [or_true, if_true]
    rw [update_shared_insert, tracks_shared_again_iff]
    simp

theorem tracks_flock_iff :
    Tracks (node.flock pid signal operation).2 (afterCall holders pid operation (node.flock pid signal operation)) ↔
      (stripNb operation = 8 → MayRelease holders pid) ∧ (stripNb operation = 1 → holders pid ≠ some .shared) := by
  by_cases hun : stripNb operation = 8
  · have hsh : stripNb operation ≠ 1 := by simp [hun]
    have hgranted : granted operation = none := if_pos hun
    have hcall : node.flock pid signal operation = (some 0, node.release pid) := if_pos hun
    rw [hcall, afterCall, if_pos rfl, hgranted, tracks_release_iff h]
    exact ⟨fun hmay => ⟨fun _ => hmay, fun heq => absurd heq hsh⟩, fun hboth => hboth.1 hun⟩
  · by_cases hex : stripNb operation = 2
    · have hsh : stripNb operation ≠ 1 := by simp [hex]
      exact ⟨fun _ => ⟨fun heq => absurd heq hun, fun heq => absurd heq hsh⟩, fun _ => tracks_flock_exclusive h hex⟩
    · by_cases hsh : stripNb operation = 1
      · rw [tracks_flock_shared_iff h hsh]
        exact ⟨fun hne => ⟨fun heq => absurd heq hun, fun _ => hne⟩, fun hboth => hboth.2 hsh⟩
      · have hcall : node.flock pid signal operation = (some (-22), node) := by
          unfold LockNode.flock
          rw [if_neg hun, if_neg hex, if_neg hsh]
        rw [hcall]
        exact ⟨fun _ => ⟨fun heq => absurd heq hun, fun heq => absurd heq hsh⟩, fun _ => h⟩

theorem tracks_afterCall_iff {other : LockNode} (hother : Tracks other holders) :
    Tracks node (afterCall holders pid operation (other.flock pid signal operation)) ↔
      (Grantable holders pid operation → holders pid = granted operation) := by
  rw [← flock_eq_zero_iff hother, afterCall]
  split_ifs with hzero
  · rw [tracks_update_iff h]
    exact ⟨fun hsame _ => hsame, fun himp => himp hzero⟩
  · exact ⟨fun _ hz => absurd hz hzero, fun _ => h⟩

end

variable {found : Option Nat} {f : LockFile} {n m : Nat}

theorem opens_setOpens {count other : Nat} :
    (f.setOpens pid n count).opens other m = if other = pid ∧ m = n then count else f.opens other m := by
  show update f.opens pid _ other m = _
  by_cases hpid : other = pid
  · subst hpid
    rw [update_self, update_apply]
    simp
  · rw [update_of_ne hpid, if_neg fun h => hpid h.1]

theorem LockState.Live.of_step {s : LockState} {op : LockOp} (h : (s.step found op).Live found m) :
    s.Live found m ∨ (∃ pid, op = .openFile pid) ∧ found = none ∧ m = s.file.next := by
  rcases h with hfound | ⟨pid, hopen⟩
  · exact .inl (.inl hfound)
  by_cases hbefore : s.Live found m
  · exact .inl hbefore
  have hzero : ∀ pid, s.file.opens pid m = 0 := fun pid => by_contra fun hne => hbefore (.inr ⟨pid, hne⟩)
  have hfound : found ≠ some m := fun heq => hbefore (.inl heq)
  refine .inr ?_
  cases op with
  | openFile other =>
    rcases found with _ | n
    · refine ⟨⟨other, rfl⟩, rfl, by_contra fun hne => hopen ?_⟩
      show (s.file.setOpens other s.file.next 1).opens pid m = 0
      rw [opens_setOpens, if_neg fun heq => hne heq.2, hzero]
    · refine absurd ?_ hopen
      show (s.file.setOpens other n _).opens pid m = 0
      rw [opens_setOpens, if_neg fun heq => hfound (congrArg some heq.2.symm), hzero]
  | share other n holder =>
    refine absurd ?_ hopen
    show (if _ then _ else _ : LockFile).opens pid m = 0
    split_ifs with hnone
    · exact hzero pid
    · rw [opens_setOpens, if_neg (by rintro ⟨-, rfl⟩; exact hnone (hzero holder)), hzero]
  | flock other n signal operation => exact absurd (hzero pid) hopen
  | close other n =>
    refine absurd ?_ hopen
    show (s.file.sysClose other n).opens pid m = 0
    by_cases hnone : s.file.opens other n = 0
    · rw [sysClose, if_pos hnone, hzero]
    · rw [sysClose, if_neg hnone]
      show (s.file.setOpens other n _).opens pid m = 0
      rw [opens_setOpens, if_neg (by rintro ⟨-, rfl⟩; exact hnone (hzero other)), hzero]
  | exit other =>
    refine absurd ?_ hopen
    show update s.file.opens other (fun _ => 0) pid m = 0
    by_cases hpid : pid = other
    · rw [hpid, update_self]
    · rw [update_of_ne hpid, hzero]

theorem tracks_node_iff {s : LockState} {op : LockOp} (h : Tracked found s) (hlive : (s.step found op).Live found m) :
    Tracks ((s.step found op).file.nodes m) (s.step found op).holders ↔ Suits found s m op := by
  have htracks : s.Live found m → Tracks (s.file.nodes m) s.holders := h m
  have hbefore : (∀ pid, op ≠ .openFile pid) → s.Live found m := fun hop => by
    rcases hlive.of_step with hbefore | ⟨⟨pid, rfl⟩, -⟩
    · exact hbefore
    · exact absurd rfl (hop pid)
  cases op with
  | openFile pid =>
    rcases found with _ | n
    · by_cases hnew : m = s.file.next
      · show Tracks (update s.file.nodes s.file.next _ m) s.holders ↔ (_ → _ → _)
        rw [hnew, update_self]
        refine ⟨fun hunlocked _ _ => hunlocked.of_unlocked rfl, fun hnone => ?_⟩
        rw [funext (hnone rfl rfl)]
        exact .unlocked
      · show Tracks (update s.file.nodes s.file.next _ m) s.holders ↔ (_ → _ → _)
        rw [update_of_ne hnew]
        have hold := hlive.of_step.resolve_right fun heq => hnew heq.2.2
        exact ⟨fun _ _ heq => absurd heq hnew, fun _ => htracks hold⟩
    · have hold := hlive.of_step.resolve_right fun heq => nomatch heq.2.1
      exact ⟨fun _ hnone => absurd hnone (Option.some_ne_none n), fun _ => htracks hold⟩
  | share pid n other =>
    have hold := htracks (hbefore fun _ heq => nomatch heq)
    refine ⟨fun _ => trivial, fun _ => ?_⟩
    show Tracks ((if _ then _ else _ : LockFile).nodes m) s.holders
    split_ifs <;> exact hold
  | flock pid n signal operation =>
    have hold := htracks (hbefore fun _ heq => nomatch heq)
    show Tracks (update s.file.nodes n (s.file.sysFlock pid n signal operation).2 m)
      (afterCall s.holders pid operation (s.file.sysFlock pid n signal operation)) ↔ (_ → if m = n then _ else _)
    by_cases hopen : s.file.opens pid n = 0
    · rw [sysFlock, if_pos hopen, update_eq_self]
      exact ⟨fun _ hne => absurd hopen hne, fun _ => hold⟩
    · rw [sysFlock, if_neg hopen]
      by_cases hnode : m = n
      · subst hnode
        rw [update_self, if_pos rfl, tracks_flock_iff hold]
        exact ⟨fun hboth _ => hboth, fun himp => himp hopen⟩
      · rw [update_of_ne hnode, if_neg hnode, tracks_afterCall_iff hold (h n (.inr ⟨pid, hopen⟩))]
        exact ⟨fun hsame _ => hsame, fun himp => himp hopen⟩
  | close pid n =>
    have hold := htracks (hbefore fun _ heq => nomatch heq)
    show Tracks ((s.file.sysClose pid n).nodes m) (if s.file.opens pid n = 1 then update s.holders pid none else s.holders) ↔
      (s.file.opens pid n = 1 → if m = n then MayRelease s.holders pid else s.holders pid = none)
    unfold sysClose
    by_cases hlast : s.file.opens pid n = 1
    · rw [if_neg (by omega), if_pos hlast, if_pos hlast]
      dsimp only
      by_cases hnode : m = n
      · subst hnode
        rw [update_self, if_pos rfl, tracks_release_iff hold]
        exact ⟨fun hmay _ => hmay, fun himp => himp hlast⟩
      · rw [update_of_ne hnode, if_neg hnode, tracks_update_iff hold]
        exact ⟨fun hnone _ => hnone, fun himp => himp hlast⟩
    · refine ⟨fun _ heq => absurd heq hlast, fun _ => ?_⟩
      rw [if_neg hlast, if_neg hlast]
      split_ifs <;> exact hold
  | exit pid => exact tracks_update_iff (htracks (hbefore fun _ heq => nomatch heq)) none

theorem tracks_step_iff (found : Option Nat) (s : LockState) (op : LockOp) (h : Tracked found s) :
    Tracked found (s.step found op) ↔ Disciplined found s op :=
  forall₂_congr fun _ hlive => tracks_node_iff h hlive

/-! ## Runs -/

/-- **Advisory locks track their holders** along a run exactly if every operation of it is disciplined. -/
theorem advisory_locks (found : Option Nat) (opens : Nat → Nat → Nat) (next : Nat) (ops : List LockOp) :
    (∀ front, front <+: ops → Tracked found (front.foldl (LockState.step found) (.init opens next))) ↔
      ∀ front op, front ++ [op] <+: ops → Disciplined found (front.foldl (LockState.step found) (.init opens next)) op :=
  forall_prefix_iff (Tracked found) (Disciplined found) (tracks_step_iff found) (fun _ _ => .unlocked) ops

/-- Processes 1, 2 and 3 have the file open. The first takes a shared lock, the second closes its descriptor, and the
third is granted an exclusive lock. Two processes that each got a node of their own get an exclusive lock each. -/
theorem lock_taken_from_holder :
    (let s := [.flock 1 0 false 1, .close 2 0].foldl (LockState.step (some 0)) (.init (fun _ _ => 1) 1)
    s.holders 1 = some .shared ∧ (s.file.nodes 0).type = .unlocked ∧
      (s.file.sysFlock 3 0 false 6).1 = some 0 ∧ (s.step (some 0) (.flock 3 0 false 6)).holders 1 = some .shared ∧
      (s.step (some 0) (.flock 3 0 false 6)).holders 3 = some .exclusive) ∧
    (let s := [.openFile 1, .openFile 2, .flock 1 0 false 6, .flock 2 1 false 6].foldl (LockState.step none)
      (.init (fun _ _ => 0) 0)
    s.holders 1 = some .exclusive ∧ s.holders 2 = some .exclusive) := by
  decide

end SzpontOS.Fs
