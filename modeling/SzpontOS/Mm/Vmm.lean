import SzpontOS.Lib.ByteMem
import SzpontOS.Lib.Bits
import SzpontOS.Mm.Pmm

/-!
# The virtual memory manager (`kernel/src/mm/vmm.c`)

Page tables live in physical memory, reached through the direct map, so a table is named by its
physical address and `table->entries[i]` is the 64-bit word at `table + 8 * i`. The functions below
follow the source one by one; each takes and returns the whole machine state.

Two things are added to the source's state. `faults` makes the next calls of `pmm_alloc_page` fail
(`true`) or not, so a statement over every `faults` covers a failure at every point. `freed` is a
ghost log of the pages passed to `pmm_free_page` with their bitmap bit before the call. The kernel
heap is only seen through the pages it takes: `heapGrowth` says how many pages each `kmalloc` adds,
and `heapFrames` collects them.
-/

namespace SzpontOS.Mm

open Lib List

/-- A page-table entry, or flags. -/
abbrev Word := BitVec 64

def flagPresent : Word := 1#64 <<< 0
def flagWritable : Word := 1#64 <<< 1
def flagUser : Word := 1#64 <<< 2
def flagWriteThrough : Word := 1#64 <<< 3
def flagCacheDisable : Word := 1#64 <<< 4
def flagNoExecute : Word := 1#64 <<< 63
/-- Software flag: the frame belongs to a device or shared-memory object. -/
def flagBorrowed : Word := 1#64 <<< 9
/-- Bit 7 of an intermediate entry: a 1 GiB or 2 MiB page. -/
def flagHuge : Word := 1#64 <<< 7

def physAddrMask : Word := 0x000FFFFFFFFFF000#64
/-- The address bits of a 1 GiB entry, as the source masks them. -/
def hugeMask1G : Word := 0x000FFFFFFC000000#64
/-- The address bits of a 2 MiB entry, as the source masks them. -/
def hugeMask2M : Word := 0x000FFFFFFFF00000#64

abbrev userEnd : Nat := 0x0000800000000000

/-- `entry & flag` as a condition. -/
def has (e flag : Word) : Bool := e &&& flag != 0

/-- `entry & PHYS_ADDR_MASK`. -/
def entryAddr (e : Word) : Nat := (e &&& physAddrMask).toNat

def pml4Index (v : Nat) : Nat := (v >>> 39) &&& 0x1FF
def pdptIndex (v : Nat) : Nat := (v >>> 30) &&& 0x1FF
def pdIndex (v : Nat) : Nat := (v >>> 21) &&& 0x1FF
def ptIndex (v : Nat) : Nat := (v >>> 12) &&& 0x1FF

/-- `ALIGN_DOWN(x, PAGE_SIZE)`. -/
def pageDown (x : Nat) : Nat := x / 4096 * 4096

/-- A `pagemap_t`: the physical address of its PML4, and whether it is `&g_kernel_pagemap`. -/
structure Pagemap where
  pml4Phys : Nat
  isKernel : Bool
  deriving DecidableEq, Repr

structure Machine where
  pmm : Pmm
  mem : Mem
  /-- `g_kernel_pagemap.pml4_phys` -/
  kernelPml4 : Nat
  /-- whether each of the next calls of `pmm_alloc_page` fails -/
  faults : List Bool
  /-- how many pages each of the next calls of `kmalloc` takes -/
  heapGrowth : List Nat
  /-- pages taken by the kernel heap -/
  heapFrames : List Nat
  /-- pages passed to `pmm_free_page`, with their bit before the call -/
  freed : List (Nat × Bool)
  /-- a `kmalloc` found no memory, where `heap.c` stops the kernel -/
  panicked : Bool := false

/-- `table->entries[i]`. -/
def readEntry (m : Mem) (table i : Nat) : Word := m.load64 (table + 8 * i)

/-- `table->entries[i] = w`. -/
def writeEntry (m : Mem) (table i : Nat) (w : Word) : Mem := m.store64 (table + 8 * i) w

namespace Machine

/-- `pmm_alloc_page`, with injected failures. -/
def allocPage (s : Machine) : Nat × Machine :=
  match s.faults with
  | true :: rest => (0, { s with faults := rest })
  | faults => ((pmmAllocPage s.pmm).1, { s with pmm := (pmmAllocPage s.pmm).2, faults := faults.tail })

def freePage (s : Machine) (a : Nat) : Machine :=
  { s with
    pmm := pmmFreePage s.pmm a
    freed := (a / 4096, s.pmm.bitmapTest (a / 4096)) :: s.freed }

/-- `kmalloc`: the heap may first take pages. Where they cannot be had it panics (`Heap.kmalloc`); `false` stands for the
`NULL` that the callers check for all the same. -/
def kmalloc (s : Machine) : Bool × Machine :=
  match s.heapGrowth with
  | [] => (true, s)
  | 0 :: rest => (true, { s with heapGrowth := rest })
  | (n + 1) :: rest =>
    if (pmmAllocPages s.pmm (n + 1)).1 = 0 then (false, { s with heapGrowth := rest, panicked := true })
    else (true, { s with
      pmm := (pmmAllocPages s.pmm (n + 1)).2
      heapGrowth := rest
      heapFrames := range' ((pmmAllocPages s.pmm (n + 1)).1 / 4096) (n + 1) ++ s.heapFrames })

def write (s : Machine) (table i : Nat) (w : Word) : Machine := { s with mem := writeEntry s.mem table i w }

end Machine

/-- The loop that fills a new table: `entries[p] = f p` for all 512 entries. -/
def fillTable (m : Mem) (table : Nat) (f : Nat → Word) : Mem :=
  (range 512).foldl (fun m p => writeEntry m table p (f p)) m

/-- The 512 entries that replace a 1 GiB entry (`level == 2`) or a 2 MiB entry. -/
def splitEntry (entry : Word) (level p : Nat) : Word :=
  if level = 2 then
    ((entry &&& hugeMask1G) + BitVec.ofNat 64 (p * 0x200000)) ||| (entry &&& 0xFFF#64)
  else
    ((entry &&& hugeMask2M) + BitVec.ofNat 64 (p * 4096)) ||| (entry &&& 0xFFF#64 &&& ~~~flagHuge)

/-- `get_next_level`: the table below entry `index` of `current`, splitting a huge page or allocating
a new table when `allocate` is set. -/
def getNextLevel (s : Machine) (current index level : Nat) (allocate : Bool) (flags : Word) : Option Nat × Machine :=
  let entry := readEntry s.mem current index
  if has entry flagPresent then
    if has entry flagHuge then
      if !allocate then (none, s)
      else
        let new := s.allocPage.1
        let s := s.allocPage.2
        if new = 0 then (none, s)
        else
          let s := { s with mem := fillTable s.mem new (splitEntry entry level) }
          (some new, s.write current index (BitVec.ofNat 64 new ||| flagPresent ||| flagWritable |||
            (entry &&& (flagUser ||| flags))))
    else (some (entryAddr entry), s)
  else if !allocate then (none, s)
  else
    let new := s.allocPage.1
    let s := s.allocPage.2
    if new = 0 then (none, s)
    else
      let s := { s with mem := s.mem.memset new 0 4096 }
      (some new, s.write current index (BitVec.ofNat 64 new ||| flags ||| flagPresent ||| flagWritable))

def vmmUserRange (addr size : Nat) : Bool := 4096 ≤ addr && addr < userEnd && size ≤ userEnd - addr

def vmmMapPage (s : Machine) (map : Pagemap) (virt phys : Nat) (flags : Word) : Bool × Machine :=
  if !map.isKernel && !vmmUserRange virt 4096 then (false, s)
  else
    let virt := pageDown virt
    let phys := pageDown phys
    match getNextLevel s map.pml4Phys (pml4Index virt) 3 true (flags &&& flagUser) with
    | (none, s) => (false, s)
    | (some pdpt, s) =>
      match getNextLevel s pdpt (pdptIndex virt) 2 true (flags &&& flagUser) with
      | (none, s) => (false, s)
      | (some pd, s) =>
        match getNextLevel s pd (pdIndex virt) 1 true (flags &&& flagUser) with
        | (none, s) => (false, s)
        | (some pt, s) => (true, s.write pt (ptIndex virt) (BitVec.ofNat 64 phys ||| flags ||| flagPresent))

def vmmUnmapPage (s : Machine) (map : Pagemap) (virt : Nat) : Bool × Machine :=
  let virt := pageDown virt
  match getNextLevel s map.pml4Phys (pml4Index virt) 3 false 0 with
  | (none, s) => (false, s)
  | (some pdpt, s) =>
    match getNextLevel s pdpt (pdptIndex virt) 2 false 0 with
    | (none, s) => (false, s)
    | (some pd, s) =>
      match getNextLevel s pd (pdIndex virt) 1 false 0 with
      | (none, s) => (false, s)
      | (some pt, s) => (true, s.write pt (ptIndex virt) 0)

def vmmVirtToPhys (m : Mem) (map : Pagemap) (virt : Nat) : Nat :=
  let pml4e := readEntry m map.pml4Phys (pml4Index virt)
  if !has pml4e flagPresent then 0
  else
    let pdpte := readEntry m (entryAddr pml4e) (pdptIndex virt)
    if !has pdpte flagPresent then 0
    else if has pdpte flagHuge then (pdpte &&& hugeMask1G).toNat ||| (virt &&& 0x3FFFFFFF)
    else
      let pde := readEntry m (entryAddr pdpte) (pdIndex virt)
      if !has pde flagPresent then 0
      else if has pde flagHuge then (pde &&& hugeMask2M).toNat ||| (virt &&& 0x1FFFFF)
      else
        let pte := readEntry m (entryAddr pde) (ptIndex virt)
        if !has pte flagPresent then 0 else entryAddr pte ||| (virt &&& 0xFFF)

def vmmAllocUserPage (s : Machine) (map : Pagemap) (virt : Nat) (flags : Word) : Bool × Machine :=
  if vmmVirtToPhys s.mem map virt ≠ 0 then (true, s)
  else
    let phys := s.allocPage.1
    let s := s.allocPage.2
    if phys = 0 then (false, s)
    else
      let s := { s with mem := s.mem.memset phys 0 4096 }
      match vmmMapPage s map virt phys (flags ||| flagUser ||| flagPresent ||| flagWritable) with
      | (true, s) => (true, s)
      | (false, s) => (false, s.freePage phys)

def vmmCreateAddressSpace (s : Machine) : Option Pagemap × Machine :=
  let pml4 := s.allocPage.1
  let s := s.allocPage.2
  if pml4 = 0 then (none, s)
  else
    let s := { s with mem := s.mem.memset pml4 0 4096 }
    -- Copy Kernel Higher-Half mappings (entries 256..511)
    let s := (range' 256 256).foldl (fun s i => s.write pml4 i (readEntry s.mem s.kernelPml4 i)) s
    match s.kmalloc with
    | (false, s) => (none, s.freePage pml4)
    | (true, s) => (some ⟨pml4, false⟩, s)

/-- The loop body of `vmm_destroy_address_space` for one page table. -/
def destroyPt (s : Machine) (pt : Nat) : Machine :=
  (range 512).foldl (fun s l =>
    let e := readEntry s.mem pt l
    if has e flagPresent then if !has e flagBorrowed then s.freePage (entryAddr e) else s else s) s

/-- One present-entry loop of `vmm_destroy_address_space`: tear down the tables below, then free each. -/
def destroyLevel (n : Nat) (below : Machine → Nat → Machine) (s : Machine) (table : Nat) : Machine :=
  (range n).foldl (fun s i =>
    let e := readEntry s.mem table i
    if has e flagPresent then (below s (entryAddr e)).freePage (entryAddr e) else s) s

def vmmDestroyAddressSpace (s : Machine) (map : Pagemap) : Machine :=
  if map.isKernel then s
  else (destroyLevel 256 (destroyLevel 512 (destroyLevel 512 destroyPt)) s map.pml4Phys).freePage map.pml4Phys

/-- The virtual address of entry `l` of the page table at `i`, `j`, `k`. -/
def leafVirt (i j k l : Nat) : Nat := i <<< 39 ||| j <<< 30 ||| k <<< 21 ||| l <<< 12

/-- The innermost body of `vmm_clone_address_space`; `error` is `goto fail`. -/
def cloneLeaf (dst : Pagemap) (i j k pt : Nat) (s : Machine) (l : Nat) : Except Machine Machine :=
  let e := readEntry s.mem pt l
  if has e flagPresent then
    let flags := e &&& ~~~physAddrMask &&& ~~~flagBorrowed
    let dstPhys := s.allocPage.1
    let s := s.allocPage.2
    if dstPhys = 0 then .error s
    else
      let s := { s with mem := s.mem.memcpy dstPhys (entryAddr e) 4096 }
      match vmmMapPage s dst (leafVirt i j k l) dstPhys flags with
      | (true, s) => .ok s
      | (false, s) => .error (s.freePage dstPhys)
  else .ok s

def clonePt (dst : Pagemap) (i j pd : Nat) (s : Machine) (k : Nat) : Except Machine Machine :=
  let e := readEntry s.mem pd k
  if has e flagPresent && !has e flagHuge then
    (range 512).foldlM (cloneLeaf dst i j k (entryAddr e)) s
  else .ok s

def clonePd (dst : Pagemap) (i pdpt : Nat) (s : Machine) (j : Nat) : Except Machine Machine :=
  let e := readEntry s.mem pdpt j
  if has e flagPresent && !has e flagHuge then (range 512).foldlM (clonePt dst i j (entryAddr e)) s
  else .ok s

def clonePdpt (dst : Pagemap) (pml4 : Nat) (s : Machine) (i : Nat) : Except Machine Machine :=
  let e := readEntry s.mem pml4 i
  if has e flagPresent then (range 512).foldlM (clonePd dst i (entryAddr e)) s else .ok s

def vmmCloneAddressSpace (s : Machine) (src : Pagemap) : Option Pagemap × Machine :=
  match vmmCreateAddressSpace s with
  | (none, s) => (none, s)
  | (some dst, s) =>
    match (range 256).foldlM (clonePdpt dst src.pml4Phys) s with
    | .ok s => (some dst, s)
    | .error s => (none, vmmDestroyAddressSpace s dst)

/-- `user_leaf`: the table and index of the leaf entry of `virt`. -/
def userLeaf (m : Mem) (map : Pagemap) (virt : Nat) : Option (Nat × Nat) :=
  (([39, 30, 21] : List Nat).foldlM (fun table shift =>
    let entry := readEntry m table ((virt >>> shift) &&& 511)
    if !has entry flagPresent || has entry flagHuge then none else some (entryAddr entry))
    map.pml4Phys).map fun table => (table, ptIndex virt)

/-- The page addresses `start, start + PAGE_SIZE, ...` below `stop`. -/
def pagesBetween (start stop : Nat) : List Nat :=
  (range ((stop - start + 4095) / 4096)).map fun i => start + i * 4096

/-- The walk of `vmm_user_access` for one page: every level has the required bits. -/
def pageAccess (m : Mem) (map : Pagemap) (v : Nat) (required : Word) : Bool :=
  (([39, 30, 21, 12] : List Nat).foldlM (fun table shift =>
    let entry := readEntry m table ((v >>> shift) &&& 511)
    if entry &&& required != required || (shift > 12 && has entry flagHuge) then none
    else some (entryAddr entry)) map.pml4Phys).isSome

def vmmUserAccess (m : Mem) (map : Pagemap) (addr size : Nat) (write : Bool) : Bool :=
  if size = 0 then true
  else if !vmmUserRange addr size then false
  else
    let required := flagPresent ||| flagUser ||| (if write then flagWritable else 0)
    (pagesBetween (pageDown addr) (addr + size)).all fun v => pageAccess m map v required

/-- The test of the reclaim loop of `vmm_release_user_page`. -/
def tableEmpty (m : Mem) (table : Nat) : Bool := (range 512).all fun i => readEntry m table i == 0

/-- The reclaim loop of `vmm_release_user_page`: free empty tables from the bottom up, stopping at the
first that is not empty. -/
def reclaimTables (s : Machine) (map : Pagemap) (virt : Nat) : Machine :=
  -- tables[0..3]
  let pml4 := map.pml4Phys
  let pdpt := entryAddr (readEntry s.mem pml4 (pml4Index virt))
  let pd := entryAddr (readEntry s.mem pdpt (pdptIndex virt))
  let pt := entryAddr (readEntry s.mem pd (pdIndex virt))
  if !tableEmpty s.mem pt then s
  else
    let phys := entryAddr (readEntry s.mem pd (pdIndex virt))
    let s := (s.write pd (pdIndex virt) 0).freePage phys
    if !tableEmpty s.mem pd then s
    else
      let phys := entryAddr (readEntry s.mem pdpt (pdptIndex virt))
      let s := (s.write pdpt (pdptIndex virt) 0).freePage phys
      if !tableEmpty s.mem pdpt then s
      else
        let phys := entryAddr (readEntry s.mem pml4 (pml4Index virt))
        (s.write pml4 (pml4Index virt) 0).freePage phys

def vmmReleaseUserPage (s : Machine) (map : Pagemap) (virt : Nat) : Bool × Machine :=
  if map.isKernel || !vmmUserRange virt 4096 then (false, s)
  else
    match userLeaf s.mem map virt with
    | none => (true, s)
    | some (pt, l) =>
      let old := readEntry s.mem pt l
      if !has old flagPresent then (true, s)
      else
        let s := s.write pt l 0
        let s := if !has old flagBorrowed then s.freePage (entryAddr old) else s
        (true, reclaimTables s map virt)

/-- The bits of a leaf that `vmm_set_range_flags` keeps. -/
def preserveMask : Word :=
  physAddrMask ||| flagBorrowed ||| flagWriteThrough ||| flagCacheDisable ||| flagHuge

/-- The second loop of `vmm_set_range_flags` for one page. -/
def setLeafFlags (map : Pagemap) (flags : Word) (s : Machine) (v : Nat) : Machine :=
  match userLeaf s.mem map v with
  | none => s
  | some (pt, l) => s.write pt l ((readEntry s.mem pt l &&& preserveMask) ||| flags ||| flagPresent)

def vmmSetRangeFlags (s : Machine) (map : Pagemap) (virt size : Nat) (flags : Word) : Bool × Machine :=
  if size = 0 || !vmmUserRange virt size then (false, s)
  else
    let pages := pagesBetween (pageDown virt) (pageDown (virt + size + 4095))
    -- Validate the whole range before changing any protection.
    if pages.all fun v =>
        match userLeaf s.mem map v with
        | none => false
        | some (pt, l) => has (readEntry s.mem pt l) flagPresent
    then (true, pages.foldl (setLeafFlags map flags) s)
    else (false, s)

end SzpontOS.Mm
