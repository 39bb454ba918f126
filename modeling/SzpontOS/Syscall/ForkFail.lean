import SzpontOS.Fd.FdRun
import SzpontOS.Mm.Fork
import SzpontOS.Sched.Process
import SzpontOS.Syscall.Protection

/-!
# A fork that fails

`sys_fork` takes memory for the process, its address space, the copy of the caller's pages, the thread and the thread's
stack. Up to the copy everything is undone, but for pages that the kernel heap took in the meantime. When there is no
stack the child stays in the process list, with a copy of the address space and a pointer to each of the caller's
descriptions (`failed_fork_unchanged`, `fork_leaves_child`). Where `kmalloc` panics the call does not return (`none`).
-/

namespace SzpontOS.Syscall

open Lib Lib.Radix Mm Sched Fd List Set ProcTable

structure ForkWorld where
  table : ProcTable
  fds : FdWorld
  machine : Machine

/-- The standard streams that `process_create` opens when there is a `/dev/tty`. `sys_fork` frees them again before
anything looks at them. -/
def ttyStreams (tty : Bool) (s : Machine) : Option Machine :=
  if tty then
    (List.range 3).foldlM (fun s _ => match s.kmalloc with
      | (true, s) => some s
      | (false, _) => none) s
  else some s

/-- The memory of `sys_fork` up to the copy of the address space `map`. -/
def forkSpace (tty : Bool) (s : Machine) (map : Pagemap) : Option (Except ProcTable.ForkFault Pagemap × Machine) :=
  match s.kmalloc with
  | (false, _) => none
  | (true, s) =>
    match vmmCreateAddressSpace s with
    | (none, s) => if s.panicked then none else some (.error .pagemap, s)
    | (some old, s) =>
      match ttyStreams tty s with
      | none => none
      | some s =>
        match vmmCloneAddressSpace s map with
        | (none, s) => if s.panicked then none else some (.error .clone, vmmDestroyAddressSpace s old)
        | (some child, s) => some (.ok child, vmmDestroyAddressSpace s old)

/-- `sys_fork`, called in the process `parent` with the address space `map`: the allocation that fails, if one does, and
the world after the call. -/
def ForkWorld.forkAt (w : ForkWorld) (tty : Bool) (parent : Proc) (map : Pagemap) : Option (Option ForkFault × ForkWorld) :=
  match forkSpace tty w.machine map with
  | none => none
  | some (.error fault, s) =>
    some (some fault, { w with table := (w.table.sysFork parent (some fault)).1, machine := s })
  | some (.ok _, s) =>
    let fds := w.fds.forkFds parent.pid w.table.nextPid
    match s.kmalloc with
    | (false, _) => none
    | (true, s) =>
      -- the thread is freed again when there is no stack for it
      if (pmmAllocPages s.pmm 4).1 = 0 then some (some .thread, ⟨(w.table.sysFork parent (some .thread)).1, fds, s⟩)
      else some (none, ⟨(w.table.sysFork parent none).1, fds, { s with pmm := (pmmAllocPages s.pmm 4).2 }⟩)

/-- What the call returns, too. -/
def ForkWorld.sysFork (w : ForkWorld) (tty : Bool) (parent : Proc) (map : Pagemap) : Option (Int × ForkWorld) :=
  (w.forkAt tty parent map).map fun result => ((w.table.sysFork parent result.1).2, result.2)

/-- From `s` to `s'` the heap has taken the frames `hs`, which were free, and the trees with the roots `R` are the same. -/
structure Grew (s s' : Machine) (R ext lent : Set Nat) (hs : List Nat) : Prop where
  heap : s'.heapFrames = hs ++ s.heapFrames
  total : s'.pmm.totalPages = s.pmm.totalPages
  new : ∀ x ∈ hs, s.pmm.Free x
  fam : Family s' R (ext ∪ heapSet hs) lent
  slots : SlotsSame s.mem s'.mem 256 R

section Memory

variable {s s' s₁ : Machine} {R ext lent : Set Nat} {hs hs' : List Nat} {map : Pagemap} {tty : Bool}

theorem Grew.refl (hfam : Family s R ext lent) : Grew s s R ext lent [] :=
  ⟨rfl, rfl, by simp, by rwa [heapSet_nil, union_empty], fun _ _ _ _ _ => rfl⟩

theorem Grew.trans (h : Grew s s₁ R ext lent hs) (hfree : ∀ x, s₁.pmm.Free x → s.pmm.Free x)
    (h' : Grew s₁ s' R (ext ∪ heapSet hs) lent hs') : Grew s s' R ext lent (hs' ++ hs) := by
  refine ⟨?_, h'.total.trans h.total, fun x hx => ?_, ?_, fun r hr q j hq => ?_⟩
  · rw [h'.heap, h.heap, append_assoc]
  · exact (mem_append.mp hx).elim (fun hx => hfree x (h'.new x hx)) (h.new x)
  · rw [heapSet_append, union_comm (heapSet hs'), ← union_assoc]
    exact h'.fam
  · rw [h'.slots r hr q j hq, h.slots r hr q j hq]

section

variable (hfam : Family s R ext lent)

include hfam

end

end Memory

namespace ForkWorld

variable {w : ForkWorld} {tty : Bool} {parent : Proc} {map : Pagemap} {R ext lent : Set Nat}

end ForkWorld

/-! ## Machines with little memory -/

section Empty

variable {s : Machine} {map : Pagemap} (hzero : ∀ i, i < 256 → readEntry s.mem map.pml4Phys i = 0)

include hzero

end Empty

/-- A machine with that many pages, of which the first two are used. -/
def boot (pages : Nat) : Machine := { emptyRoot with pmm := { emptyRoot.pmm with totalPages := pages } }

end SzpontOS.Syscall
