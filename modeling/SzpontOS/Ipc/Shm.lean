import SzpontOS.Syscall.Fork

/-!
# System V shared memory (`kernel/src/mm/shm.c`)

A segment is a list of frames taken from the allocator; attaching it maps them into the address space of a process as
borrowed pages and notes the attachment in one of the 32 slots of the process.
-/

namespace SzpontOS.Ipc

open Lib Lib.Radix Mm Syscall

/-! ## The tables -/

@[irreducible] def maxShmSegments : Nat := 128

@[irreducible] def maxProcShm : Nat := 32

/-- `shm_segment_t`; the `int` fields are words, and a `NULL` array of pages is empty. -/
structure Segment where
  shmid : BitVec 32
  key : BitVec 32
  size : Nat
  numPages : Nat
  physPages : List Nat
  attachCount : BitVec 32
  creatorPid : Nat
  lastPid : Nat
  atime : Nat
  dtime : Nat
  ctime : Nat
  mode : BitVec 32
  uid : Nat
  gid : Nat
  allocated : Bool
  markedRmid : Bool

def Segment.zero : Segment := ⟨0, 0, 0, 0, [], 0, 0, 0, 0, 0, 0, 0, 0, 0, false, false⟩

structure ShmMapping where
  shmid : BitVec 32
  vaddr : Nat
  size : Nat
  active : Bool

/-- The fields of `process_t` that the calls use. -/
structure ShmProc where
  pid : Nat
  uid : Nat
  gid : Nat
  map : Pagemap
  mmapCurrent : Nat
  shmMappings : Nat → ShmMapping

/-- The machine, `g_shm_segments` and `g_next_shmid`. -/
structure Shm where
  machine : Machine
  segments : Nat → Segment
  nextShmid : BitVec 32

namespace Shm

def setSegment (sh : Shm) (i : Nat) (seg : Segment) : Shm := { sh with segments := Function.update sh.segments i seg }

/-- `shm_find_by_id`, as the index of the segment. -/
def findById (sh : Shm) (shmid : BitVec 32) : Option Nat :=
  if shmid.toInt ≤ 0 then none
  else (List.range maxShmSegments).find? fun i => (sh.segments i).allocated && (sh.segments i).shmid == shmid

def findByKey (sh : Shm) (key : BitVec 32) : Option Nat :=
  if key = 0 then none
  else (List.range maxShmSegments).find? fun i =>
    (sh.segments i).allocated && !(sh.segments i).markedRmid && (sh.segments i).key == key

end Shm

/-! ## The calls -/

/-- The page loop of `shm_get`: take and clear `n` more frames, or give back those taken before. -/
def shmTakePages (s : Machine) (pages : List Nat) : Nat → Option (List Nat) × Machine
  | 0 => (some pages, s)
  | n + 1 =>
    let phys := s.allocPage.1
    let s := s.allocPage.2
    if phys = 0 then (none, pages.foldl Machine.freePage s)
    else shmTakePages { s with mem := s.mem.memset phys 0 4096 } (pages ++ [phys]) n

def ipcCreat : BitVec 32 := 0o1000
def ipcExcl : BitVec 32 := 0o2000

/-- The first part of `shm_get`: an existing segment with the key, an error, or nothing. -/
def shmLookup (sh : Shm) (key : BitVec 32) (size : Nat) (shmflg : BitVec 32) : Option (Except Int (BitVec 32)) :=
  match sh.findByKey key with
  | some i =>
    if shmflg &&& ipcCreat ≠ 0 ∧ shmflg &&& ipcExcl ≠ 0 then some (.error (-17))
    else if size > (sh.segments i).size then some (.error (-22))
    else some (.ok (sh.segments i).shmid)
  | none =>
    if key ≠ 0 ∧ shmflg &&& ipcCreat = 0 then some (.error (-2))
    else if size = 0 ∨ size > userEnd - 4096 then some (.error (-22))
    else none

def newSegment (shmid key : BitVec 32) (size : Nat) (pages : List Nat) (shmflg : BitVec 32) (proc : ShmProc)
    (now : Nat) : Segment where
  shmid := shmid
  key := key
  size := size
  numPages := (size + 4095) / 4096
  physPages := pages
  attachCount := 0
  creatorPid := proc.pid
  lastPid := proc.pid
  atime := 0
  dtime := 0
  ctime := now
  mode := shmflg &&& 0o777
  uid := proc.uid
  gid := proc.gid
  allocated := true
  markedRmid := false

/-- `shm_get`; a result is the identifier. -/
def shmGet (sh : Shm) (proc : ShmProc) (key : BitVec 32) (size : Nat) (shmflg : BitVec 32) (now : Nat) :
    Except Int (BitVec 32) × Shm :=
  match shmLookup sh key size shmflg with
  | some result => (result, sh)
  | none =>
    match (List.range maxShmSegments).find? fun i => !(sh.segments i).allocated with
    | none => (.error (-28), sh)
    | some i =>
      match sh.machine.kmalloc with
      | (false, s) => (.error (-12), { sh with machine := s })
      | (true, s) =>
        match shmTakePages s [] ((size + 4095) / 4096) with
        | (none, s) => (.error (-12), { sh with machine := s })
        | (some pages, s) =>
          (.ok sh.nextShmid, { ({ sh with machine := s } : Shm).setSegment i
            (newSegment sh.nextShmid key size pages shmflg proc now) with nextShmid := sh.nextShmid + 1 })

/-- One iteration of the mapping loop of `shm_at`; `error` leaves with the pages mapped so far. -/
def shmMapPage (map : Pagemap) (vaddr : Nat) (pages : List Nat) (s : Machine) (i : Nat) :
    Except (Machine × Nat) Machine :=
  match vmmMapPage s map (vaddr + i * 4096) (pages.getD i 0) deviceFlags with
  | (true, s) => .ok s
  | (false, s) => .error (s, i)

/-- `if (proc->mmap_current == 0) proc->mmap_current = 0x0000600000000000`. -/
def ShmProc.startMmap (proc : ShmProc) : ShmProc :=
  if proc.mmapCurrent = 0 then { proc with mmapCurrent := 0x0000600000000000 } else proc

/-- The bookkeeping of `shm_at` once the pages are mapped. -/
def ShmProc.attach (proc : ShmProc) (k : Nat) (seg : Segment) (vaddr : Nat) : ShmProc :=
  { proc with
    mmapCurrent := if vaddr + seg.numPages * 4096 > proc.mmapCurrent then vaddr + seg.numPages * 4096
      else proc.mmapCurrent
    shmMappings := Function.update proc.shmMappings k ⟨seg.shmid, vaddr, seg.size, true⟩ }

/-- `shm_at`; a result that is not negative is the address. -/
def shmAt (sh : Shm) (proc : ShmProc) (shmid : BitVec 32) (shmaddr now : Nat) : Int × Shm × ShmProc :=
  match sh.findById shmid with
  | none => (-22, sh, proc)
  | some i =>
    match (List.range maxProcShm).find? fun k => !(proc.shmMappings k).active with
    | none => (-24, sh, proc)
    | some k =>
      let seg := sh.segments i
      let proc := proc.startMmap
      let vaddr := if shmaddr = 0 then proc.mmapCurrent else shmaddr
      if vaddr % 4096 ≠ 0 ∨ !vmmUserRange vaddr (seg.numPages * 4096) then (-22, sh, proc)
      else if (List.range seg.numPages).any fun j => vmmVirtToPhys sh.machine.mem proc.map (vaddr + j * 4096) != 0 then
        (-22, sh, proc)
      else
        match (List.range seg.numPages).foldlM (shmMapPage proc.map vaddr seg.physPages) sh.machine with
        | .error (s, j) => (-12, { sh with machine := releasePages s proc.map vaddr j }, proc)
        | .ok s =>
          (vaddr, ({ sh with machine := s } : Shm).setSegment i
            { seg with attachCount := seg.attachCount + 1, atime := now, lastPid := proc.pid },
            proc.attach k seg vaddr)

def shmFreePages (s : Machine) (seg : Segment) : Machine :=
  (List.range seg.numPages).foldl (fun s i =>
    if seg.physPages.getD i 0 ≠ 0 then s.freePage (seg.physPages.getD i 0) else s) s

/-- The end of a segment: its frames are freed and its slot is cleared. -/
def Shm.freeSegment (sh : Shm) (i : Nat) : Shm :=
  { sh.setSegment i Segment.zero with machine := shmFreePages sh.machine (sh.segments i) }

/-- The unmapping loop of `shm_dt`: a page that no longer shows the segment's frame is left alone. -/
def shmUnmapPages (s : Machine) (map : Pagemap) (vaddr : Nat) (seg : Segment) : Machine :=
  (List.range seg.numPages).foldl (fun s i =>
    if vmmVirtToPhys s.mem map (vaddr + i * 4096) = seg.physPages.getD i 0 then
      (vmmReleaseUserPage s map (vaddr + i * 4096)).2
    else s) s

def Segment.detach (seg : Segment) (pid now : Nat) : Segment :=
  { seg with attachCount := seg.attachCount - 1, dtime := now, lastPid := pid }

/-- `shm_dt` on the segment behind a slot. -/
def Shm.detach (sh : Shm) (i : Nat) (map : Pagemap) (vaddr pid now : Nat) : Shm :=
  let seg := sh.segments i
  let sh := ({ sh with machine := shmUnmapPages sh.machine map vaddr seg } : Shm).setSegment i (seg.detach pid now)
  if (sh.segments i).attachCount.toInt ≤ 0 ∧ (sh.segments i).markedRmid then sh.freeSegment i else sh

/-- `proc->shm_mappings[k].active = false`. -/
def ShmProc.release (proc : ShmProc) (k : Nat) : ShmProc :=
  { proc with shmMappings := Function.update proc.shmMappings k { proc.shmMappings k with active := false } }

def shmDt (sh : Shm) (proc : ShmProc) (shmaddr now : Nat) : Int × Shm × ShmProc :=
  if shmaddr = 0 then (-22, sh, proc)
  else
    match (List.range maxProcShm).find? fun k =>
        (proc.shmMappings k).active && (proc.shmMappings k).vaddr == shmaddr with
    | none => (-22, sh, proc)
    | some k =>
      match sh.findById (proc.shmMappings k).shmid with
      | none => (0, sh, proc.release k)
      | some i => (0, sh.detach i proc.map shmaddr proc.pid now, proc.release k)

/-- `struct shmid_ds` as `IPC_STAT` fills it in. -/
structure ShmidDs where
  key : BitVec 32
  uid : Nat
  gid : Nat
  mode : BitVec 32
  segsz : Nat
  atime : Nat
  dtime : Nat
  ctime : Nat
  cpid : Nat
  lpid : Nat
  nattch : BitVec 64

/-- The commands of `shm_ctl`; a buffer that is `NULL` is `none`. -/
inductive ShmCmd where
  | rmid
  | stat (buf : Option Unit)
  | set (buf : Option ShmidDs)
  | other

def Segment.stat (seg : Segment) : ShmidDs where
  key := seg.key
  uid := seg.uid
  gid := seg.gid
  mode := seg.mode
  segsz := seg.size
  atime := seg.atime
  dtime := seg.dtime
  ctime := seg.ctime
  cpid := seg.creatorPid
  lpid := seg.lastPid
  nattch := seg.attachCount.signExtend 64

def shmCtl (sh : Shm) (shmid : BitVec 32) (cmd : ShmCmd) (now : Nat) : Int × Option ShmidDs × Shm :=
  match sh.findById shmid with
  | none => (-22, none, sh)
  | some i =>
    let seg := sh.segments i
    match cmd with
    | .rmid =>
      let sh := sh.setSegment i { seg with markedRmid := true }
      (0, none, if seg.attachCount.toInt ≤ 0 then sh.freeSegment i else sh)
    | .stat none => (-14, none, sh)
    | .stat (some _) => (0, some seg.stat, sh)
    | .set none => (-14, none, sh)
    | .set (some buf) =>
      (0, none, sh.setSegment i { seg with uid := buf.uid, gid := buf.gid, mode := buf.mode &&& 0o777, ctime := now })
    | .other => (-22, none, sh)

/-- One iteration of the loop of `shm_process_exit`; `g_shm_lock` is free between the iterations. -/
def shmExitSlot (now : Nat) (st : Shm × ShmProc) (k : Nat) : Shm × ShmProc :=
  if (st.2.shmMappings k).active then (shmDt st.1 st.2 (st.2.shmMappings k).vaddr now).2 else st

end SzpontOS.Ipc
