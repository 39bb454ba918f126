import SzpontOS.Mm.Access

/-!
# `mmap`, `munmap` and `mprotect` (`kernel/src/syscall/syscall.c`)

The calls of one process on its address space, with the anonymous, file and device paths of `sys_mmap`. A call returns
the source's result, an address or a negative error number, and the new state.
-/

namespace SzpontOS.Syscall

open Lib Lib.Radix Mm

/-! ## The calls -/

/-- The fields of `process_t` that the calls use, with the machine. -/
structure Process where
  machine : Machine
  map : Pagemap
  mmapCurrent : Nat

/-- A node that `sys_mmap` reads: `none` is a negative result of `ops->read`. -/
structure FileNode where
  length : Nat
  read : Nat → Nat → Option (List (BitVec 8))

/-- A buffer object of `drivers/drm.c`. -/
structure DrmBo where
  physPages : List Nat
  isDirectVram : Bool

/-- A buffer object of `drivers/i915/i915_gem.c`. -/
structure I915Bo where
  pages : List Nat
  cacheNone : Bool

/-- What `sys_mmap` finds behind its descriptor. -/
inductive FdNode where
  /-- no open descriptor with a node -/
  | bad
  /-- a node that can neither be read nor mapped -/
  | noOps
  | file (node : FileNode)
  | drm (bo : DrmBo)
  | i915 (bo : I915Bo)

/-- `ALIGN_UP(x, PAGE_SIZE)`. -/
def pageUp (x : Nat) : Nat := (x + 4095) / 4096 * 4096

def userProtection (prot : BitVec 32) : Word :=
  let flags := if prot ≠ 0 then flagUser else 0
  let flags := if prot &&& 2 ≠ 0 then flags ||| flagWritable else flags
  if prot &&& 4 = 0 then flags ||| flagNoExecute else flags

/-- The loop that releases `n` pages from `addr` on. -/
def releasePages (s : Machine) (map : Pagemap) (addr n : Nat) : Machine :=
  (List.range n).foldl (fun s k => (vmmReleaseUserPage s map (addr + k * 4096)).2) s

/-- The bytes that `sys_mmap` reads into the page at offset `mapped`; `none` is a failed read. -/
def pageContents (node : Option FileNode) (offset length mapped : Nat) : Option (List (BitVec 8)) :=
  match node with
  | none => some []
  | some node =>
    if offset < node.length ∧ mapped < node.length - offset then
      let count := min 4096 (length - mapped)
      let count := min count (node.length - offset - mapped)
      (node.read (offset + mapped) count).map fun bytes => bytes.take count
    else some []

/-- One iteration of the page loop of `sys_mmap`; `error` is `goto fail` with the pages mapped so far. -/
def mmapPage (map : Pagemap) (vaddr length offset : Nat) (fixed : Bool) (flags : Word) (node : Option FileNode)
    (s : Machine) (k : Nat) : Except (Machine × Nat) Machine :=
  let phys := s.allocPage.1
  let s := s.allocPage.2
  if phys = 0 then .error (s, k)
  else
    let s := { s with mem := s.mem.memset phys 0 4096 }
    match pageContents node offset length (k * 4096) with
    | none => .error (s.freePage phys, k)
    | some bytes =>
      let s := { s with mem := s.mem.storeBytes phys bytes }
      let s := if fixed then (vmmReleaseUserPage s map (vaddr + k * 4096)).2 else s
      match vmmMapPage s map (vaddr + k * 4096) phys flags with
      | (true, s) => .ok s
      | (false, s) => .error (s.freePage phys, k)

def devicePage (map : Pagemap) (vaddr : Nat) (phys : List Nat) (flags : Word) (s : Machine) (k : Nat) :
    Except (Machine × Nat) Machine :=
  match vmmMapPage (vmmReleaseUserPage s map (vaddr + k * 4096)).2 map (vaddr + k * 4096) (phys.getD k 0) flags with
  | (true, s) => .ok s
  | (false, s) => .error (s, k)

/-- `if (!proc->mmap_current) proc->mmap_current = 0x0000600000000000`. -/
def startMmap (p : Process) : Process :=
  if p.mmapCurrent = 0 then { p with mmapCurrent := 0x0000600000000000 } else p

/-- `if (end > proc->mmap_current) proc->mmap_current = end`. -/
def advanceMmap (p : Process) (stop : Nat) : Process :=
  if stop > p.mmapCurrent then { p with mmapCurrent := stop } else p

/-- The common part of the device drivers: map the pages `phys` at `addr`, or release them again. -/
def deviceMmap (p : Process) (addr : Nat) (phys : List Nat) (flags : Word) : Int × Process :=
  let vaddr := if addr = 0 then p.mmapCurrent else addr
  if vaddr % 4096 ≠ 0 ∨ !vmmUserRange vaddr (phys.length * 4096) then (-22, p)
  else
    match (List.range phys.length).foldlM (devicePage p.map vaddr phys flags) p.machine with
    | .error (s, k) => (-12, { p with machine := releasePages s p.map vaddr k })
    | .ok s => (vaddr, advanceMmap { p with machine := s } (vaddr + phys.length * 4096))

def deviceFlags : Word := flagPresent ||| flagWritable ||| flagUser ||| flagBorrowed

/-- `drm_mmap_bo_locked`; a result that is not negative is `*out_vaddr`. -/
def drmMmapBoLocked (bo : DrmBo) (p : Process) (addr length : Nat) : Int × Process :=
  if length = 0 ∨ length > userEnd - 4096 then (-22, p)
  else
    let p := startMmap p
    let pages := (length + 4095) / 4096
    if pages > bo.physPages.length then (-22, p)
    else deviceMmap p addr (bo.physPages.take pages)
      (if bo.isDirectVram then deviceFlags ||| flagWriteThrough else deviceFlags)

/-- `i915_gem_mmap_user`, which is `i915_gem_mmap_user_full` with offset and flags 0; a longer mapping is cut
to the object. -/
def i915GemMmapUser (bo : I915Bo) (p : Process) (addr length : Nat) : Int × Process :=
  if length = 0 ∨ length > userEnd - 4096 then (-22, p)
  else
    let p := startMmap p
    if bo.pages.length = 0 then (-22, p)
    else deviceMmap p addr (bo.pages.take ((length + 4095) / 4096))
      (if bo.cacheNone then deviceFlags ||| flagWriteThrough else deviceFlags)

/-- The first offset of a range that has a translation. -/
def firstMapped (m : Mem) (map : Pagemap) (span vaddr : Nat) : Option Nat :=
  (pagesBetween 0 span).find? fun off => vmmVirtToPhys m map (vaddr + off) != 0

/-- Search upwards from `vaddr` as long as `fits`; `taken` is the offset after which to go on. -/
def searchRange (fits : Nat → Bool) (taken : Nat → Option Nat) (stop vaddr : Nat) : Option Nat :=
  if vaddr < stop ∧ fits vaddr = true then
    match taken vaddr with
    | none => some vaddr
    | some off => searchRange fits taken stop (vaddr + (off + 4096))
  else none
termination_by stop - vaddr

/-- The search for a range without translations; `none` when the user half is exhausted. -/
def findFree (m : Mem) (map : Pagemap) (span vaddr : Nat) : Option Nat :=
  searchRange (vmmUserRange · span) (firstMapped m map span) userEnd vaddr

/-- The node behind the descriptor of `sys_mmap`, or the error. -/
def mmapNode (anonymous : Bool) (fd : FdNode) : Except Int (Option FdNode) :=
  if anonymous then .ok none
  else
    match fd with
    | .bad => .error (-9)
    | .noOps => .error (-19)
    | node => .ok (some node)

/-- The last part of the device path of `sys_mmap`: the protection of the new pages. -/
def finishDevice (vaddr span : Nat) (prot : BitVec 32) (mapped : Int × Process) : Int × Process :=
  if mapped.1 < 0 then mapped
  else
    let p := mapped.2
    match vmmSetRangeFlags p.machine p.map mapped.1.toNat span (userProtection prot) with
    | (false, s) => (-12, { p with machine := s })
    | (true, s) => (mapped.1, advanceMmap { p with machine := s } (vaddr + span))

/-- The page loop of `sys_mmap` with its `fail` path. -/
def mmapPages (p : Process) (vaddr length offset : Nat) (fixed : Bool) (prot : BitVec 32) (node : Option FileNode) :
    Int × Process :=
  match (List.range (pageUp length / 4096)).foldlM
      (mmapPage p.map vaddr length offset fixed (userProtection prot) node) p.machine with
  | .ok s => (vaddr, advanceMmap { p with machine := s } (vaddr + pageUp length))
  | .error (s, mapped) => (-12, { p with machine := releasePages s p.map vaddr mapped })

/-- The address that `sys_mmap` maps at. A non-fixed address is a hint: never overwrite an existing mapping. -/
def mmapTarget (p : Process) (addr span : Nat) (fixed : Bool) : Option Nat :=
  let vaddr := pageDown addr
  let vaddr := if vaddr = 0 then p.mmapCurrent else vaddr
  if fixed then some vaddr else findFree p.machine.mem p.map span vaddr

/-- `flags & MAP_FIXED`. -/
def mapFixed (flags : BitVec 32) : Bool := flags &&& 0x10 != 0

/-- `flags & MAP_ANONYMOUS`. -/
def mapAnonymous (flags : BitVec 32) : Bool := flags &&& 0x20 != 0

def sysMmap (p : Process) (addr length : Nat) (prot flags : BitVec 32) (fd : FdNode) (offset : Int) : Int × Process :=
  let fixed := mapFixed flags
  let anonymous := mapAnonymous flags
  if length = 0 ∨ length > userEnd - 4096 ∨ prot &&& ~~~7 ≠ 0 ∨ (flags &&& 3 ≠ 1 ∧ flags &&& 3 ≠ 2) ∨
      offset < 0 ∨ offset % 4096 ≠ 0 then (-22, p)
  else
    let span := pageUp length
    if (fixed ∧ addr % 4096 ≠ 0) ∨ (addr ≠ 0 ∧ !vmmUserRange addr span) ∨ (fixed ∧ addr = 0) then (-22, p)
    else
      match mmapNode anonymous fd with
      | .error e => (e, p)
      | .ok node =>
        let p := startMmap p
        match mmapTarget p addr span fixed with
        | none => (-12, p)
        | some vaddr =>
          if !vmmUserRange vaddr span then (-12, p)
          else
            match node with
            | some (.drm bo) => finishDevice vaddr span prot (drmMmapBoLocked bo p vaddr length)
            | some (.i915 bo) => finishDevice vaddr span prot (i915GemMmapUser bo p vaddr length)
            | some (.file node) => mmapPages p vaddr length offset.toNat fixed prot (some node)
            | _ => mmapPages p vaddr length offset.toNat fixed prot none

def sysMunmap (p : Process) (addr length : Nat) : Int × Process :=
  if length = 0 ∨ addr % 4096 ≠ 0 ∨ !vmmUserRange addr length then (-22, p)
  else (0, { p with machine := releasePages p.machine p.map addr (pageUp length / 4096) })

def sysMprotect (p : Process) (addr len : Nat) (prot : BitVec 32) : Int × Process :=
  if addr % 4096 ≠ 0 ∨ prot &&& ~~~7 ≠ 0 ∨ !vmmUserRange addr len then (-22, p)
  else if len = 0 then (0, p)
  else
    match vmmSetRangeFlags p.machine p.map addr len (userProtection prot) with
    | (true, s) => (0, { p with machine := s })
    | (false, s) => (-12, { p with machine := s })

end SzpontOS.Syscall
