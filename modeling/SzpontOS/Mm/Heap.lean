import SzpontOS.Lib.Bits
import SzpontOS.Lib.ByteMem
import SzpontOS.Lib.Linked

/-!
# The kernel heap

`kmalloc`, `kzalloc`, `kcalloc`, `kfree` and `krealloc` of `mm/heap.c`. The heap is one doubly linked list of blocks,
free or not, whose headers (`heap_block_t`) stand in the memory that the heap manages. The list is walked along the
`next` fields of that memory, and a field is assigned by rewriting its header there (`assign`), so that a header written
over somebody's data would show.

`pmm` answers `pmm_alloc_pages`, which `kmalloc` calls at most once: where the pages are mapped (`PHYS_TO_VIRT`), or
`none`. `kmalloc` panics when the heap has no block for the request even then; that is `none`.
-/

namespace SzpontOS.Mm

open SzpontOS.Lib Function Mem

/-- `heap_block_t`; `size` is the size of the data behind the header. -/
structure HeapHeader where
  magic : BitVec 32
  isFree : BitVec 32
  size : BitVec 64
  next : BitVec 64
  prev : BitVec 64

def heapMagicAlloc : BitVec 32 := 0x5A504F4E

def heapMagicFree : BitVec 32 := 0x46524545

def pointerOf (w : BitVec 64) : Option Nat := if w = 0 then none else some w.toNat

def readHeader (m : Mem) (a : Nat) : HeapHeader where
  magic := m.load32 a
  isFree := m.load32 (a + 4)
  size := m.load64 (a + 8)
  next := m.load64 (a + 16)
  prev := m.load64 (a + 24)

def writeHeader (m : Mem) (a : Nat) (h : HeapHeader) : Mem :=
  ((((m.store32 a h.magic).store32 (a + 4) h.isFree).store64 (a + 8) h.size).store64 (a + 16) h.next).store64
    (a + 24) h.prev

/-- Assignments to fields of the header at `a`. -/
def assign (m : Mem) (a : Nat) (f : HeapHeader → HeapHeader) : Mem := writeHeader m a (f (readHeader m a))

/-- `if (p) p->prev = v`. -/
def assignPrev (m : Mem) (p : Option Nat) (v : Nat) : Mem :=
  match p with
  | none => m
  | some a => assign m a fun h => { h with prev := BitVec.ofNat 64 v }

/-- The links that a map of headers describes. -/
def linksOf (headers : Nat → HeapHeader) : Links Nat where
  next := fun a => pointerOf (headers a).next
  prev := fun a => pointerOf (headers a).prev

/-- The heap: the memory that holds its blocks, `g_heap_head`, `g_heap_allocated_bytes` and
`g_heap_total_bytes`. -/
structure Heap where
  mem : Mem
  head : Option Nat
  allocated : BitVec 64
  total : BitVec 64

namespace Heap

def alignUp (x align : BitVec 64) : BitVec 64 := (x + align - 1) &&& ~~~(align - 1)

/-- A walk along the list is given one step for each address. -/
@[irreducible] def walkFuel : Nat := 2 ^ 64

/-- A walk along `next` from `g_heap_head` to the first block with that property. -/
def walk (h : Heap) (test : HeapHeader → Bool) : Option Nat :=
  (linksOf (readHeader h.mem)).find (fun a => test (readHeader h.mem a)) walkFuel h.head

/-- The end of `heap_expand`: the new block becomes the last one of the list. -/
def linkLast (h : Heap) (virt : Nat) : Heap :=
  match h.head with
  | none => { h with head := some virt }
  | some _ =>
    match h.walk fun b => b.next == 0 with
    | none => h
    | some curr =>
      let mem := assign h.mem curr fun b => { b with next := BitVec.ofNat 64 virt }
      { h with mem := assign mem virt fun b => { b with prev := BitVec.ofNat 64 curr } }

def heapExpand (pmm : Nat → Option Nat) (h : Heap) (size : BitVec 64) : Heap :=
  let size := alignUp (size + 32) 4096
  match pmm (size / 4096).toNat with
  | none => h
  | some virt =>
    linkLast { h with
      mem := writeHeader h.mem virt ⟨heapMagicFree, 1, size - 32, 0, 0⟩
      total := h.total + size } virt

/-- The block that `kmalloc` splits off behind the `size` bytes it takes of block `curr`. -/
def split (m : Mem) (curr : Nat) (size : BitVec 64) : Mem :=
  let b := readHeader m curr
  let split := curr + 32 + size.toNat
  let m := writeHeader m split ⟨heapMagicFree, 1, b.size - size - 32, b.next, BitVec.ofNat 64 curr⟩
  let m := assignPrev m (pointerOf b.next) split
  let m := assign m curr fun b => { b with next := BitVec.ofNat 64 split }
  assign m curr fun b => { b with size := size }

/-- The free block `curr` taken for a request of `size` bytes. -/
def take (h : Heap) (curr : Nat) (size : BitVec 64) : Heap × Option Nat :=
  let mem := if (readHeader h.mem curr).size ≥ size + 32 + 16 then split h.mem curr size else h.mem
  let mem := assign mem curr fun b => { b with isFree := 0, magic := heapMagicAlloc }
  ({ h with mem := mem, allocated := h.allocated + (readHeader mem curr).size }, some (curr + 32))

/-- The search of `kmalloc` for a free block that is large enough. -/
def firstFit (h : Heap) (size : BitVec 64) : Option Nat := h.walk fun b => b.isFree != 0 && b.size ≥ size

def kmalloc (pmm : Nat → Option Nat) (h : Heap) (size : BitVec 64) : Option (Heap × Option Nat) :=
  if size = 0 then some (h, none)
  else
    let size := alignUp size 16
    match h.firstFit size with
    | some curr => some (h.take curr size)
    | none =>
      let h := h.heapExpand pmm (size * 2)
      match h.firstFit size with
      | some curr => some (h.take curr size)
      | none => none

def kzalloc (pmm : Nat → Option Nat) (h : Heap) (size : BitVec 64) : Option (Heap × Option Nat) := do
  let (h, ptr) ← kmalloc pmm h size
  match ptr with
  | none => some (h, none)
  | some p => some ({ h with mem := h.mem.memset p 0 size.toNat }, some p)

def kcalloc (pmm : Nat → Option Nat) (h : Heap) (num size : BitVec 64) : Option (Heap × Option Nat) :=
  if num ≠ 0 ∧ size > (-1) / num then some (h, none) else kzalloc pmm h (num * size)

/-- Block `second` joined to block `first` in front of it: the common end of the two cases in which `kfree`
coalesces. -/
def absorb (m : Mem) (first second : Nat) : Mem :=
  let m := assign m first fun b => { b with size := b.size + (32 + (readHeader m second).size) }
  let m := assign m first fun b => { b with next := (readHeader m second).next }
  assignPrev m (pointerOf (readHeader m second).next) first

/-- `kfree`: the block after `block` is joined to it, if it is free and adjacent in memory. -/
def coalesceNext (m : Mem) (block : Nat) : Mem :=
  match pointerOf (readHeader m block).next with
  | none => m
  | some next =>
    if (readHeader m next).isFree ≠ 0 ∧ next = block + 32 + (readHeader m block).size.toNat then absorb m block next
    else m

/-- `kfree`: `block` is joined to the block before it, if that is free and adjacent in memory. -/
def coalescePrev (m : Mem) (block : Nat) : Mem :=
  match pointerOf (readHeader m block).prev with
  | none => m
  | some prev =>
    if (readHeader m prev).isFree ≠ 0 ∧ block = prev + 32 + (readHeader m prev).size.toNat then absorb m prev block
    else m

/-- `kfree`. A block whose header is not that of an allocation is left alone. -/
def kfree (h : Heap) (ptr : Option Nat) : Heap :=
  match ptr with
  | none => h
  | some p =>
    let block := p - 32
    if (readHeader h.mem block).magic ≠ heapMagicAlloc then h
    else
      let mem := assign h.mem block fun b => { b with isFree := 1, magic := heapMagicFree }
      { h with
        mem := coalescePrev (coalesceNext mem block) block
        allocated := h.allocated - (readHeader mem block).size }

def krealloc (pmm : Nat → Option Nat) (h : Heap) (ptr : Option Nat) (newSize : BitVec 64) :
    Option (Heap × Option Nat) :=
  match ptr with
  | none => kmalloc pmm h newSize
  | some p =>
    if newSize = 0 then some (h.kfree ptr, none)
    else if (readHeader h.mem (p - 32)).size ≥ newSize then some (h, ptr)
    else do
      let (h, new) ← kmalloc pmm h newSize
      match new with
      | none => some (h, none)
      | some q =>
        let h := { h with mem := h.mem.memcpy q p (readHeader h.mem (p - 32)).size.toNat }
        some (h.kfree ptr, some q)

def empty (m : Mem) : Heap := ⟨m, none, 0, 0⟩

end Heap

/-! ## Headers in memory -/

theorem readHeader_writeHeader_self (m : Mem) (a : Nat) (h : HeapHeader) : readHeader (writeHeader m a h) a = h := by
  unfold readHeader writeHeader
  congr 1
  · rw [load32_store64_ne _ _ _ _ (by omega), load32_store64_ne _ _ _ _ (by omega),
      load32_store64_ne _ _ _ _ (by omega), load32_store32_ne _ _ _ _ (by omega), load32_store32]
  · rw [load32_store64_ne _ _ _ _ (by omega), load32_store64_ne _ _ _ _ (by omega),
      load32_store64_ne _ _ _ _ (by omega), load32_store32]
  · rw [load64_store64_ne _ _ _ _ (by omega), load64_store64_ne _ _ _ _ (by omega), load64_store64]
  · rw [load64_store64_ne _ _ _ _ (by omega), load64_store64]
  · rw [load64_store64]

theorem writeHeader_outside (m : Mem) (a : Nat) (h : HeapHeader) {x : Nat} (hx : x < a ∨ a + 32 ≤ x) :
    writeHeader m a h x = m x := by
  unfold writeHeader
  rw [store64_outside _ _ _ (by omega), store64_outside _ _ _ (by omega), store64_outside _ _ _ (by omega),
    store32_outside _ _ _ (by omega), store32_outside _ _ _ (by omega)]

theorem readHeader_congr {m m' : Mem} {a : Nat} (h : ∀ x, a ≤ x → x < a + 32 → m' x = m x) :
    readHeader m' a = readHeader m a := by
  unfold readHeader
  congr 1
  · exact load32_congr fun x _ _ => h x (by omega) (by omega)
  · exact load32_congr fun x _ _ => h x (by omega) (by omega)
  all_goals exact load64_congr fun x _ _ => h x (by omega) (by omega)

/-- Headers at these addresses do not overlap. -/
def Spaced (addrs : List Nat) : Prop := ∀ a ∈ addrs, ∀ b ∈ addrs, a ≠ b → a + 32 ≤ b ∨ b + 32 ≤ a

def assignHeader (headers : Nat → HeapHeader) (a : Nat) (f : HeapHeader → HeapHeader) : Nat → HeapHeader :=
  Function.update headers a (f (headers a))

@[simp] theorem assignHeader_self (headers : Nat → HeapHeader) (a : Nat) (f : HeapHeader → HeapHeader) :
    assignHeader headers a f a = f (headers a) := update_self ..

theorem assignHeader_of_ne {headers : Nat → HeapHeader} {a b : Nat} (f : HeapHeader → HeapHeader) (h : b ≠ a) :
    assignHeader headers a f b = headers b := update_of_ne h ..

def assignHeaderPrev (headers : Nat → HeapHeader) (p : Option Nat) (v : Nat) : Nat → HeapHeader :=
  match p with
  | none => headers
  | some a => assignHeader headers a fun h => { h with prev := BitVec.ofNat 64 v }

theorem assignHeaderPrev_eq (headers : Nat → HeapHeader) (p : Option Nat) (v a : Nat) :
    ∃ w, assignHeaderPrev headers p v a = { headers a with prev := w } := by
  unfold assignHeaderPrev
  cases p with
  | none => exact ⟨(headers a).prev, rfl⟩
  | some q =>
    by_cases hq : a = q
    · exact ⟨_, by rw [hq]; exact assignHeader_self ..⟩
    · exact ⟨(headers a).prev, assignHeader_of_ne _ hq⟩

/-- **Memory `m` with some of the headers at `addrs` rewritten.** The headers are now those of `headers`, and no
other byte has changed. -/
structure Edited (addrs : List Nat) (m m' : Mem) (headers : Nat → HeapHeader) : Prop where
  headers : ∀ a ∈ addrs, readHeader m' a = headers a
  frame : ∀ x, (∀ a ∈ addrs, x < a ∨ a + 32 ≤ x) → m' x = m x

namespace Edited

variable {addrs : List Nat} {m m' : Mem} {headers : Nat → HeapHeader} {a : Nat}

theorem refl (addrs : List Nat) (m : Mem) : Edited addrs m m (readHeader m) := ⟨fun _ _ => rfl, fun _ _ => rfl⟩

section

variable (h : Edited addrs m m' headers) (hspaced : Spaced addrs)

include h hspaced

theorem write (ha : a ∈ addrs) (v : HeapHeader) : Edited addrs m (writeHeader m' a v) (update headers a v) := by
  refine ⟨fun b hb => ?_, fun x hx => ?_⟩
  · by_cases hab : b = a
    · rw [hab, readHeader_writeHeader_self, update_self]
    · rw [update_of_ne hab, ← h.headers b hb]
      apply readHeader_congr
      intro x _ _
      have := hspaced b hb a ha hab
      exact writeHeader_outside m' a v (by omega)
  · rw [writeHeader_outside m' a v (hx a ha)]
    exact h.frame x hx

theorem assign (ha : a ∈ addrs) (f : HeapHeader → HeapHeader) :
    Edited addrs m (Mm.assign m' a f) (assignHeader headers a f) := by
  unfold Mm.assign assignHeader
  rw [h.headers a ha]
  exact h.write hspaced ha _

theorem assignPrev {p : Option Nat} (hp : ∀ a, p = some a → a ∈ addrs) (v : Nat) :
    Edited addrs m (Mm.assignPrev m' p v) (assignHeaderPrev headers p v) := by
  cases p with
  | none => exact h
  | some a =>
    unfold Mm.assignPrev assignHeaderPrev
    exact h.assign hspaced (hp a rfl) _

end

end Edited

/-! ## Pointers and links -/

theorem pointerOf_ofNat {a : Nat} (hpos : 0 < a) (hlt : a < 2 ^ 64) : pointerOf (BitVec.ofNat 64 a) = some a := by
  have htoNat : (BitVec.ofNat 64 a).toNat = a := by rw [BitVec.toNat_ofNat, Nat.mod_eq_of_lt hlt]
  unfold pointerOf
  rw [if_neg, htoNat]
  intro hzero
  rw [hzero] at htoNat
  exact hpos.ne htoNat

@[simp] theorem pointerOf_zero : pointerOf 0 = none := rfl

theorem pointerOf_eq_none {w : BitVec 64} : pointerOf w = none ↔ w = 0 := by
  unfold pointerOf
  split <;> simp_all

section Links

variable (headers : Nat → HeapHeader) (a : Nat)

theorem linksOf_update (h : HeapHeader) : linksOf (update headers a h) =
    ((linksOf headers).setNext (some a) (pointerOf h.next)).setPrev (some a) (pointerOf h.prev) := by
  unfold linksOf Links.setNext Links.setPrev
  simp only [Option.some.injEq, Links.mk.injEq]
  constructor
  all_goals
    funext x
    by_cases hx : a = x
    · rw [if_pos hx, ← hx, update_self]
    · rw [if_neg hx, update_of_ne (Ne.symm hx)]

variable {headers a}

theorem setNext_self {l : Links Nat} {v : Option Nat} (hv : l.next a = v) : l.setNext (some a) v = l := by
  unfold Links.setNext
  congr 1
  funext x
  by_cases hx : a = x
  · rw [if_pos (by rw [hx]), ← hx, hv]
  · rw [if_neg fun heq => hx (Option.some.inj heq)]

theorem setPrev_self {l : Links Nat} {v : Option Nat} (hv : l.prev a = v) : l.setPrev (some a) v = l := by
  unfold Links.setPrev
  congr 1
  funext x
  by_cases hx : a = x
  · rw [if_pos (by rw [hx]), ← hx, hv]
  · rw [if_neg fun heq => hx (Option.some.inj heq)]

theorem linksOf_assign_next (w : BitVec 64) : linksOf (assignHeader headers a fun h => { h with next := w }) =
    (linksOf headers).setNext (some a) (pointerOf w) := by
  unfold assignHeader
  rw [linksOf_update]
  exact setPrev_self rfl

theorem linksOf_assign_prev (w : BitVec 64) : linksOf (assignHeader headers a fun h => { h with prev := w }) =
    (linksOf headers).setPrev (some a) (pointerOf w) := by
  unfold assignHeader
  rw [linksOf_update]
  congr 1
  exact setNext_self rfl

theorem linksOf_assignHeaderPrev (p : Option Nat) {v : Nat} (hv : 0 < v ∧ v < 2 ^ 64) :
    linksOf (assignHeaderPrev headers p v) = (linksOf headers).setPrev p (some v) := by
  unfold assignHeaderPrev
  cases p with
  | none => rw [Links.setPrev_none]
  | some a =>
    rw [linksOf_assign_prev, pointerOf_ofNat hv.1 hv.2]

theorem linksOf_assign_same (f : HeapHeader → HeapHeader) (hnext : ∀ h, (f h).next = h.next)
    (hprev : ∀ h, (f h).prev = h.prev) : linksOf (assignHeader headers a f) = linksOf headers := by
  unfold assignHeader
  have hn : (linksOf headers).next a = pointerOf (headers a).next := rfl
  rw [linksOf_update, hnext, hprev, setNext_self hn]
  exact setPrev_self rfl

end Links

end SzpontOS.Mm
