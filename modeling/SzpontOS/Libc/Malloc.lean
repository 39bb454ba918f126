import Mathlib.Data.List.TakeWhile
import Mathlib.Logic.Function.Basic
import SzpontOS.Lib.Run

/-!
# The heap of a program (`libc/src/stdlib/malloc.c`)

The allocator keeps every block it ever got from `sbrk` in one list, each a header of 32 bytes (`HEADER_SIZE`) followed
by its payload. `malloc` takes the first free block that fits, cutting off what it does not need, or asks for more
memory; `free` joins a block with its neighbours of the list, without looking at their addresses; `realloc` may grow
into the next block; `aligned_alloc` puts a free block before the one it returns, and leaves it there when the second
`sbrk` fails.

This is sound because the list tiles the region of `sbrk` in the order of the addresses (`Tiles`). Each call lays out
one stretch of the list anew (`replaced`), and writes headers of the new list, which the tiling keeps apart from the
payloads (`link_mem`), and the payload that it returns.
-/

namespace SzpontOS.Libc

open Lib Relation Function List Option

/-! ## The allocator -/

/-- `ALIGN_UP` in 64 bits, for a power of two. -/
def alignUp (x align : Nat) : Nat := (x + (align - 1)) % 2 ^ 64 / align * align

/-- `block_header_t`, at the address `addr`; `next` and `prev` are the neighbours in the list. -/
structure BlockHeader where
  addr : Nat
  size : Nat
  isFree : Bool
  deriving DecidableEq, Repr

namespace BlockHeader

def payload (b : BlockHeader) : Nat := b.addr + 32

def stop (b : BlockHeader) : Nat := b.addr + 32 + b.size

end BlockHeader

open BlockHeader

/-- The list from `g_head` on, the program break, and the memory. -/
structure Heap where
  blocks : List BlockHeader
  brk : Nat
  mem : Nat → UInt8

/-- What a call meets: whether the kernel lets the break grow from an address by some bytes, and the bytes of the
headers of a list. -/
structure Machine where
  grants : Nat → Nat → Bool
  header : List BlockHeader → Nat → UInt8

variable (k : Machine)

/-- The break stays below the mmap area (`sys_brk`). -/
def heapTop : Nat := 0x600000000000

def sbrk (h : Heap) (n : Nat) : Option Heap :=
  if k.grants h.brk n ∧ h.brk + n < heapTop then some { h with brk := h.brk + n } else none

/-- The list becomes `blocks`, and its headers are written to memory. -/
def Heap.link (h : Heap) (blocks : List BlockHeader) : Heap :=
  { h with
    blocks
    mem := fun a => if blocks.any fun b => b.addr ≤ a ∧ a < b.payload then k.header blocks a else h.mem a }

/-- `sbrk(total)`, and the new memory as a block at the end of the list. -/
def Heap.grow (h : Heap) (total : Nat) (isFree : Bool) : Option Heap :=
  (sbrk k h total).map fun h' => h'.link k (h.blocks ++ [⟨h.brk, total - 32, isFree⟩])

/-- The search of `malloc`: the first free block with `size` bytes, which is cut in two when it is large enough. -/
def takeFit (size : Nat) : List BlockHeader → Option (Nat × List BlockHeader)
  | [] => none
  | curr :: rest =>
    if curr.isFree ∧ size ≤ curr.size then
      some (curr.payload, if size + 32 + 16 ≤ curr.size then
          ⟨curr.addr, size, false⟩ :: ⟨curr.addr + 32 + size, curr.size - size - 32, true⟩ :: rest
        else { curr with isFree := false } :: rest)
    else (takeFit size rest).map fun (p, blocks) => (p, curr :: blocks)

def malloc (h : Heap) (size : Nat) : Option Nat × Heap :=
  let size := if size = 0 then 16 else size
  if 2 ^ 63 - 1 - 32 - 15 < size then (none, h)
  else
    let size := alignUp size 16
    match takeFit size h.blocks with
    | some (p, blocks) => (some p, h.link k blocks)
    | none =>
      match h.grow k (size + 32) false with
      | some h' => (some (h.brk + 32), h')
      | none => (none, h)

/-- The first block takes in the next one, if that is free. -/
def mergeNext : List BlockHeader → List BlockHeader
  | block :: next :: rest =>
    if next.isFree then { block with size := block.size + 32 + next.size } :: rest else block :: next :: rest
  | blocks => blocks

/-- `free` on the list: the block of `ptr` is joined with the next and then with the one before it. -/
def release (ptr : Nat) (blocks : List BlockHeader) : List BlockHeader :=
  let before := blocks.takeWhile (·.payload != ptr)
  match blocks.dropWhile (·.payload != ptr) with
  | [] => blocks
  | block :: rest =>
    let freed := mergeNext ({ block with isFree := true } :: rest)
    match before.getLast? with
    | some prev => if prev.isFree then before.dropLast ++ mergeNext (prev :: freed) else before ++ freed
    | none => freed

/-- The headers of the old list are written too, for that of a block which is then taken in by the one before it. -/
def free (h : Heap) (ptr : Nat) : Heap :=
  if ptr = 0 then h else (h.link k h.blocks).link k (release ptr h.blocks)

def Heap.copy (h : Heap) (dst src n : Nat) : Heap :=
  { h with mem := fun a => if dst ≤ a ∧ a < dst + n then h.mem (src + (a - dst)) else h.mem a }

/-- `memset` to zero -/
def Heap.clear (h : Heap) (dst n : Nat) : Heap :=
  { h with mem := fun a => if dst ≤ a ∧ a < dst + n then 0 else h.mem a }

def realloc (h : Heap) (ptr size : Nat) : Option Nat × Heap :=
  if ptr = 0 then malloc k h size
  else
    let size := if size = 0 then 16 else size
    if 2 ^ 63 - 1 - 32 - 15 < size then (none, h)
    else
      let size := alignUp size 16
      match h.blocks.dropWhile (·.payload != ptr) with
      | [] => (none, h)
      | block :: rest =>
        if size ≤ block.size then (some ptr, h)
        else if rest.head?.any fun next => next.isFree ∧ size ≤ block.size + 32 + next.size then
          (some ptr, h.link k (h.blocks.takeWhile (·.payload != ptr) ++ mergeNext (block :: rest)))
        else
          match malloc k h size with
          | (some q, h') => (some q, free k (h'.copy q ptr block.size) ptr)
          | (none, h') => (none, h')

/-- The bytes that `aligned_alloc` puts before its block: none, or enough for a header. -/
def padding (cur alignment : Nat) : Nat :=
  let pad := alignUp (cur + 32) alignment - 32 - cur
  if 0 < pad ∧ pad < 32 then alignUp (cur + 32 * 2) alignment - 32 - cur else pad

def alignedAlloc (h : Heap) (alignment size : Nat) : Option Nat × Heap :=
  if alignment = 0 ∨ alignment &&& (alignment - 1) ≠ 0 then (none, h)
  else if alignment ≤ 16 then malloc k h size
  else
    let size := alignUp (if size = 0 then alignment else size) 16
    match sbrk k h 0 with
    | none => (none, h)
    | some _ =>
      let pad := padding h.brk alignment
      match if 0 < pad then h.grow k pad true else some h with
      | none => (none, h)
      | some h' =>
        match h'.grow k (size + 32) false with
        | none => (none, h')
        | some h'' => (some (h'.brk + 32), h'')

inductive MemalignError where
  | EINVAL
  | ENOMEM
  deriving DecidableEq, Repr

/-- The store through `memptr` is left to the program. -/
def posixMemalign (h : Heap) (memptr alignment size : Nat) : Except MemalignError Nat × Heap :=
  if memptr = 0 then (.error .EINVAL, h)
  else if alignment = 0 ∨ alignment &&& (alignment - 1) ≠ 0 ∨ alignment % 8 ≠ 0 then (.error .EINVAL, h)
  else
    match alignedAlloc k h alignment size with
    | (none, h') => (.error .ENOMEM, h')
    | (some p, h') => (.ok p, h')

def calloc (h : Heap) (nmemb size : Nat) : Option Nat × Heap :=
  if 0 < nmemb ∧ (2 ^ 64 - 1) / nmemb < size then (none, h)
  else
    let total := nmemb * size
    match malloc k h total with
    | (none, h') => (none, h')
    | (some p, h') => (some p, h'.clear p (if total ≠ 0 then total else 16))

def mallocUsableSize (h : Heap) (ptr : Nat) : Nat :=
  if ptr = 0 then 0 else ((h.blocks.find? (·.payload == ptr)).map (·.size)).getD 0

/-! ## The tiling -/

variable {k} {base a c p q u v n size : Nat} {b b' : BlockHeader} {l l' pre new post rest : List BlockHeader}
  {h h' : Heap} {o : Option Nat}

/-- The blocks follow each other from `a` to `c`, with payloads of a multiple of 16 bytes. -/
def Tiles (a : Nat) : List BlockHeader → Nat → Prop
  | [], c => a = c
  | b :: l, c => b.addr = a ∧ 16 ∣ b.size ∧ Tiles b.stop l c

theorem tiles_append : Tiles a (l ++ l') c ↔ ∃ m, Tiles a l m ∧ Tiles m l' c := by
  induction l generalizing a with
  | nil => simp [Tiles]
  | cons b l ih => simp [Tiles, ih, and_assoc]

theorem tiles_single : Tiles a [b] c ↔ b.addr = a ∧ 16 ∣ b.size ∧ b.stop = c := Iff.rfl

theorem Tiles.bounds (ht : Tiles a l c) : a ≤ c ∧ ∀ b ∈ l, a ≤ b.addr ∧ b.stop ≤ c := by
  induction l generalizing a with
  | nil => exact ⟨ht.le, by simp⟩
  | cons b l ih =>
    obtain ⟨rfl, -, hrest⟩ := ht
    obtain ⟨hle, hall⟩ := ih hrest
    have hstop : b.addr ≤ b.stop := by unfold stop; omega
    refine ⟨hstop.trans hle, fun b' hb' => ?_⟩
    obtain rfl | hb' := mem_cons.mp hb'
    · exact ⟨le_rfl, hle⟩
    · exact ⟨hstop.trans (hall b' hb').1, (hall b' hb').2⟩

theorem Tiles.aligned (ht : Tiles a l c) (ha : 16 ∣ a) : 16 ∣ c ∧ ∀ b ∈ l, 16 ∣ b.payload := by
  induction l generalizing a with
  | nil => exact ⟨ht ▸ ha, by simp⟩
  | cons b l ih =>
    obtain ⟨rfl, hsize, hrest⟩ := ht
    obtain ⟨hc, hall⟩ := ih hrest (by unfold stop; omega)
    refine ⟨hc, fun b' hb' => ?_⟩
    obtain rfl | hb' := mem_cons.mp hb'
    · unfold payload
      omega
    · exact hall b' hb'

theorem Tiles.apart (ht : Tiles a l c) (hb : b ∈ l) (hb' : b' ∈ l) : b = b' ∨ b.stop ≤ b'.addr ∨ b'.stop ≤ b.addr := by
  induction l generalizing a with
  | nil => simp at hb
  | cons d l ih =>
    have hall := ht.2.2.bounds.2
    obtain rfl | hmem := mem_cons.mp hb <;> obtain rfl | hmem' := mem_cons.mp hb'
    · exact .inl rfl
    · exact .inr (.inl (hall b' hmem').1)
    · exact .inr (.inr (hall b hmem).1)
    · exact ih ht.2.2 hmem hmem'

theorem Tiles.eq_of_payload (ht : Tiles a l c) (hb : b ∈ l) (hb' : b' ∈ l) (heq : b.payload = b'.payload) : b = b' := by
  have hcase := ht.apart hb hb'
  unfold payload at heq
  unfold stop at hcase
  exact hcase.resolve_right (by omega)

/-! ## Live blocks -/

/-- The list has an allocated block with the payload `p` of `u` bytes. -/
def Live (l : List BlockHeader) (p u : Nat) : Prop := ∃ b ∈ l, b.isFree = false ∧ b.payload = p ∧ b.size = u

@[simp] theorem live_nil : ¬ Live [] p u := by simp [Live]

@[simp] theorem live_cons : Live (b :: l) p u ↔ (b.isFree = false ∧ b.payload = p ∧ b.size = u) ∨ Live l p u := by
  simp [Live]

@[simp] theorem live_append : Live (l ++ l') p u ↔ Live l p u ∨ Live l' p u := by
  simp [Live, or_and_right, exists_or]

theorem Tiles.live_bounds (ht : Tiles a l c) (hp : Live l p u) : a + 32 ≤ p ∧ p + u ≤ c := by
  obtain ⟨b, hb, -, rfl, rfl⟩ := hp
  have hbounds := ht.bounds.2 b hb
  unfold stop at hbounds
  unfold payload
  omega

theorem Tiles.live_apart (ht : Tiles a l c) (hp : Live l p u) (hq : Live l q v) :
    p = q ∧ u = v ∨ p + u ≤ q ∧ p ≠ q ∨ q + v ≤ p ∧ p ≠ q := by
  obtain ⟨b, hb, -, rfl, rfl⟩ := hp
  obtain ⟨b', hb', -, rfl, rfl⟩ := hq
  have hcase := ht.apart hb hb'
  unfold stop at hcase
  unfold payload
  obtain rfl | hcase | hcase := hcase
  · exact .inl ⟨rfl, rfl⟩
  all_goals omega

theorem usable_of_live (ht : Tiles a h.blocks c) (hp : Live h.blocks p u) : mallocUsableSize h p = u := by
  have hpos : p ≠ 0 := by have := ht.live_bounds hp; omega
  obtain ⟨b, hb, hfree, rfl, hsize⟩ := hp
  have hsome : (h.blocks.find? (·.payload == b.payload)).isSome := find?_isSome.mpr ⟨b, hb, by simp⟩
  obtain ⟨b', hfind⟩ := isSome_iff_exists.mp hsome
  obtain rfl := ht.eq_of_payload (mem_of_find?_eq_some hfind) hb (by simpa using find?_some hfind)
  rw [mallocUsableSize, if_neg hpos, hfind]
  exact hsize

/-- The live blocks of `l'` are those of `l`, but for the payload `p`. -/
def Sets (p : Nat) (o : Option Nat) (l l' : List BlockHeader) : Prop :=
  ∀ q v, Live l' q v ↔ if q = p then o = some v else Live l q v

/-- **A stretch of the list laid out anew.** The rest of the list has no payload of the stretch. -/
theorem replaced (old new : List BlockHeader) (ht : Tiles a (pre ++ (old ++ post)) c)
    (hext : ∀ lo hi, Tiles lo old hi → Tiles lo new hi) (hb : b ∈ old) (hsets : Sets b.payload o old new) :
    Tiles a (pre ++ (new ++ post)) c ∧ Sets b.payload o (pre ++ (old ++ post)) (pre ++ (new ++ post)) := by
  obtain ⟨lo, hpre, hmid⟩ := tiles_append.mp ht
  obtain ⟨hi, hold, hpost⟩ := tiles_append.mp hmid
  refine ⟨tiles_append.mpr ⟨lo, hpre, tiles_append.mpr ⟨hi, hext lo hi hold, hpost⟩⟩, fun q v => ?_⟩
  have hbounds := hold.bounds.2 b hb
  unfold stop at hbounds
  have hout : q = b.payload → ¬ Live pre q v ∧ ¬ Live post q v := by
    rintro rfl
    unfold payload
    refine ⟨fun hlive => ?_, fun hlive => ?_⟩
    · have := hpre.live_bounds hlive
      omega
    · have := hpost.live_bounds hlive
      omega
  rw [live_append, live_append, hsets q v, live_append, live_append]
  split_ifs with hq
  · simp [hout hq]
  · rfl

theorem Sets.fits (hb : b.isFree = true) (hnew : ∀ q v, Live new q v ↔ b.payload = q ∧ u = v) :
    Sets b.payload (some u) [b] new := by
  intro q v
  rw [hnew q v]
  split_ifs with hq
  · simp [hq]
  · simp [hb, Ne.symm hq]

/-! ## What the operations on the list do -/

/-- **The search.** It lays out a free block anew, with a live block at its start. -/
theorem takeFit_spec (hsize : 16 ∣ size) (hfit : takeFit size l = some (p, l')) :
    ∃ pre b post new, l = pre ++ ([b] ++ post) ∧ l' = pre ++ (new ++ post) ∧ p = b.payload ∧ b.isFree = true ∧
      (∀ lo hi, Tiles lo [b] hi → Tiles lo new hi) ∧ ∃ u, size ≤ u ∧ Sets p (some u) [b] new := by
  induction l generalizing l' with
  | nil => cases hfit
  | cons curr rest ih =>
    rw [takeFit] at hfit
    split at hfit
    · rename_i hcurr
      obtain ⟨rfl, rfl⟩ := Prod.mk.inj (Option.some.inj hfit)
      split
      · refine ⟨[], curr, rest, [_, _], rfl, rfl, rfl, hcurr.1, fun lo hi ht => ?_, size, le_rfl,
          Sets.fits hcurr.1 fun q v => ?_⟩
        · obtain ⟨haddr, hdvd, hstop⟩ := tiles_single.mp ht
          refine ⟨haddr, hsize, rfl, ?_, ?_⟩
          · dsimp only
            omega
          · change _ = hi
            unfold stop at hstop ⊢
            dsimp only
            omega
        · simp [payload]
      · exact ⟨[], curr, rest, [_], rfl, rfl, rfl, hcurr.1, fun lo hi ht => ht, curr.size, hcurr.2,
          Sets.fits hcurr.1 fun q v => by simp [payload]⟩
    · obtain ⟨⟨p', blocks⟩, hrest, heq⟩ := map_eq_some_iff.mp hfit
      obtain ⟨rfl, rfl⟩ := Prod.mk.inj heq
      obtain ⟨pre, b, post, new, rfl, rfl, hspec⟩ := ih hrest
      exact ⟨curr :: pre, b, post, new, rfl, rfl, hspec⟩

theorem tiles_mergeNext (ht : Tiles a l c) : Tiles a (mergeNext l) c := by
  unfold mergeNext
  split
  · obtain ⟨haddr, hdvd, hnext, hdvd', hrest⟩ := ht
    split
    · refine ⟨haddr, ?_, ?_⟩
      · dsimp only
        omega
      · convert hrest using 1
        unfold stop at hnext ⊢
        dsimp only
        omega
    · exact ⟨haddr, hdvd, hnext, hdvd', hrest⟩
  · exact ht

theorem live_mergeNext (hb : b.isFree = true) : Live (mergeNext (b :: rest)) q v ↔ Live (b :: rest) q v := by
  cases rest with
  | nil => rfl
  | cons next rest =>
    rw [mergeNext]
    split_ifs with hnext
    · simp [hb, hnext]
    · rfl

theorem Live.split (hp : Live l p u) (ht : Tiles a l c) :
    ∃ b rest, l.dropWhile (·.payload != p) = b :: rest ∧ l = l.takeWhile (·.payload != p) ++ b :: rest ∧
      b.payload = p ∧ b.isFree = false ∧ b.size = u := by
  have hlist := (takeWhile_append_dropWhile (p := fun b : BlockHeader => b.payload != p) (l := l)).symm
  cases hdrop : l.dropWhile (·.payload != p) with
  | nil =>
    obtain ⟨b, hb, -, hpay, -⟩ := hp
    have := dropWhile_eq_nil_iff.mp hdrop b hb
    simp [hpay] at this
  | cons b rest =>
    have hpay : b.payload = p := by
      have := head_dropWhile_not (fun b : BlockHeader => b.payload != p) (l := l) (by simp [hdrop])
      simpa [hdrop] using this
    rw [hdrop] at hlist
    have hb : b ∈ l := by rw [hlist]; simp
    obtain ⟨b', hb', hfree, hpay', hsize⟩ := hp
    obtain rfl := ht.eq_of_payload hb hb' (hpay.trans hpay'.symm)
    exact ⟨b, rest, rfl, hlist, hpay, hfree, hsize⟩

theorem release_spec (ht : Tiles a l c) (hp : Live l p u) : Tiles a (release p l) c ∧ Sets p none l (release p l) := by
  obtain ⟨b, rest, hdrop, hlist, rfl, -, -⟩ := hp.split ht
  unfold release
  rw [hdrop]
  generalize l.takeWhile (·.payload != b.payload) = pre at hlist ⊢
  subst hlist
  have hset : Sets b.payload none [b] [{ b with isFree := true }] := by
    intro q v
    split_ifs with hq
    · simp
    · simp [Ne.symm hq]
  obtain ⟨ht', hsets⟩ := replaced [b] [{ b with isFree := true }] ht (fun lo hi h => h) mem_cons_self hset
  -- joining free blocks keeps the tiling and the live blocks
  have hgone : Tiles a (pre ++ mergeNext ({ b with isFree := true } :: rest)) c ∧
      Sets b.payload none (pre ++ b :: rest) (pre ++ mergeNext ({ b with isFree := true } :: rest)) := by
    obtain ⟨m, hpre, hrest⟩ := tiles_append.mp ht'
    refine ⟨tiles_append.mpr ⟨m, hpre, tiles_mergeNext hrest⟩, fun q v => ?_⟩
    rw [live_append, live_mergeNext rfl, ← live_append]
    exact hsets q v
  dsimp only
  split
  · rename_i prev hlast
    split
    · rename_i hprev
      obtain ⟨init, rfl⟩ := getLast?_eq_some_iff.mp hlast
      rw [dropLast_concat]
      rw [append_assoc, singleton_append] at hgone
      obtain ⟨m, hinit, hrest⟩ := tiles_append.mp hgone.1
      refine ⟨tiles_append.mpr ⟨m, hinit, tiles_mergeNext hrest⟩, fun q v => ?_⟩
      rw [live_append, live_mergeNext hprev, ← live_append]
      exact hgone.2 q v
    · exact hgone
  · rename_i hlast
    rw [getLast?_eq_none_iff.mp hlast] at hgone ⊢
    exact hgone

/-! ## What the calls do to the heap -/

structure WellFormed (base : Nat) (h : Heap) : Prop where
  tiles : Tiles base h.blocks h.brk
  aligned : 16 ∣ base
  below : h.brk < heapTop

def SameOn (q v : Nat) (h h' : Heap) : Prop := ∀ i < v, h'.mem (q + i) = h.mem (q + i)

/-- The new heap is well formed, and the memory of its live blocks is the old one. -/
structure Keeps (base : Nat) (h h' : Heap) : Prop where
  wf : WellFormed base h'
  mem : ∀ q v, Live h'.blocks q v → SameOn q v h h'

theorem link_mem (ht : Tiles a l c) (hq : Live l q v) : SameOn q v h (h.link k l) := by
  intro i hi
  refine if_neg fun hany => ?_
  obtain ⟨b, hb, hlies⟩ := any_eq_true.mp hany
  obtain ⟨d, hd, -, rfl, rfl⟩ := hq
  have hcase := ht.apart hb hd
  simp only [decide_eq_true_eq] at hlies
  unfold payload stop at *
  obtain rfl | hcase := hcase <;> omega

theorem keeps_link (hwf : WellFormed base h) (ht : Tiles base l h.brk) : Keeps base h (h.link k l) :=
  ⟨⟨ht, hwf.aligned, hwf.below⟩, fun _ _ hq => link_mem ht hq⟩

theorem grow_spec {total : Nat} {isFree : Bool} (hwf : WellFormed base h) (hdvd : 16 ∣ total) (hle : 32 ≤ total)
    (hgrow : h.grow k total isFree = some h') :
    Keeps base h h' ∧ h'.brk = h.brk + total ∧ h'.blocks = h.blocks ++ [⟨h.brk, total - 32, isFree⟩] := by
  obtain ⟨h1, hsbrk, rfl⟩ := map_eq_some_iff.mp hgrow
  unfold sbrk at hsbrk
  split_ifs at hsbrk with hgrant
  obtain rfl := Option.some.inj hsbrk
  have ht : Tiles base (h.blocks ++ [⟨h.brk, total - 32, isFree⟩]) (h.brk + total) := by
    refine tiles_append.mpr ⟨h.brk, hwf.tiles, rfl, ?_, ?_⟩
    · dsimp only
      omega
    · change h.brk + 32 + (total - 32) = _
      omega
  exact ⟨⟨⟨ht, hwf.aligned, hgrant.2⟩, fun q v hq => link_mem ht hq⟩, rfl, rfl⟩

theorem sets_append (size : Nat) (ht : Tiles base l a) : Sets (a + 32) (some size) l (l ++ [⟨a, size, false⟩]) := by
  intro q v
  have hout : ¬ Live l (a + 32) v := fun hlive => by
    have := ht.live_bounds hlive
    omega
  split_ifs with hq
  · simp [hq, hout, payload]
  · simp [payload, Ne.symm hq]

theorem not_live_brk (hwf : WellFormed base h) : ¬ Live h.blocks (h.brk + 32) v := fun hlive => by
  have := hwf.tiles.live_bounds hlive
  omega

theorem alignUp_spec (x align : Nat) (hpos : 0 < align) (hx : x + align ≤ 2 ^ 64) :
    x ≤ alignUp x align ∧ align ∣ alignUp x align := by
  unfold alignUp
  rw [Nat.mod_eq_of_lt (by omega)]
  have := Nat.lt_div_mul_add (a := x + (align - 1)) hpos
  exact ⟨by omega, Nat.dvd_mul_left _ _⟩

/-- A call that fails: every live block is as before. -/
structure Intact (base : Nat) (h h' : Heap) : Prop extends Keeps base h h' where
  live : ∀ q v, Live h'.blocks q v ↔ Live h.blocks q v

/-- **A call that returns `p`**, a block of `u` bytes, and gives up `old`: asked for `n` bytes at a multiple of `align`,
it touches no other block, and the block has the bytes of the old one. -/
structure Served (base old n align : Nat) (h h' : Heap) (p u : Nat) : Prop where
  wf : WellFormed base h'
  enough : n ≤ u
  aligned : align ∣ p
  fresh : p = old ∨ ∀ v, ¬ Live h.blocks p v
  live : ∀ q v, Live h'.blocks q v ↔ if q = p then v = u else q ≠ old ∧ Live h.blocks q v
  mem : ∀ q v, q ≠ p → Live h'.blocks q v → SameOn q v h h'
  kept : ∀ v, Live h.blocks old v → ∀ i, i < v → i < u → h'.mem (p + i) = h.mem (old + i)

def Answers (base old n align : Nat) (h : Heap) : Option Nat × Heap → Prop
  | (some p, h') => ∃ u, Served base old n align h h' p u
  | (none, h') => Intact base h h'

theorem Intact.refl (hwf : WellFormed base h) : Intact base h h := ⟨⟨hwf, fun _ _ _ _ _ => rfl⟩, fun _ _ => Iff.rfl⟩

theorem WellFormed.ne_zero (hwf : WellFormed base h) (hlive : Live h.blocks p v) : p ≠ 0 := by
  have := hwf.tiles.live_bounds hlive
  omega

theorem WellFormed.aligned_of_live (hwf : WellFormed base h) (hp : Live h.blocks p u) : 16 ∣ p := by
  obtain ⟨b, hb, -, rfl, -⟩ := hp
  exact (hwf.tiles.aligned hwf.aligned).2 b hb

variable {align old ptr : Nat}

theorem Served.ofFresh (hwf : WellFormed base h) (hwf' : WellFormed base h') (hn : n ≤ u) (halign : align ∣ p)
    (hnew : ∀ v, ¬ Live h.blocks p v) (hsets : Sets p (some u) h.blocks h'.blocks)
    (hmem : ∀ q v, q ≠ p → Live h'.blocks q v → SameOn q v h h') : Served base 0 n align h h' p u := by
  refine ⟨hwf', hn, halign, .inr hnew, fun q v => ?_, hmem, fun v hlive => (hwf.ne_zero hlive rfl).elim⟩
  rw [hsets q v]
  split_ifs
  · simp [eq_comm]
  · exact ⟨fun hlive => ⟨hwf.ne_zero hlive, hlive⟩, And.right⟩

theorem malloc_spec (hwf : WellFormed base h) : Answers base 0 (if n = 0 then 16 else n) 16 h (malloc k h n) := by
  have hfit : ∀ m, 16 ∣ alignUp m 16 := fun m => Nat.dvd_mul_left _ _
  unfold malloc
  generalize hm : (if n = 0 then 16 else n) = m
  dsimp only
  split_ifs with hbig
  · exact .refl hwf
  have hle := (alignUp_spec m 16 (by omega) (by omega)).1
  split
  · rename_i p blocks htake
    obtain ⟨pre, b, post, new, hlist, rfl, rfl, hfree, hext, u, hu, hsets⟩ := takeFit_spec (hfit m) htake
    obtain ⟨ht, hsets'⟩ := replaced [b] new (hlist ▸ hwf.tiles) hext mem_cons_self hsets
    rw [← hlist] at hsets'
    have hkeep := keeps_link (k := k) hwf ht
    have hlive : Live (h.link k (pre ++ (new ++ post))).blocks b.payload u := (hsets' _ _).mpr (by simp)
    refine ⟨u, .ofFresh hwf hkeep.wf (by omega) (hkeep.wf.aligned_of_live hlive) (fun v hv => ?_) hsets'
      fun q v _ => hkeep.mem q v⟩
    -- the payload of a free block is not live
    obtain ⟨d, hd, hdfree, hpay, -⟩ := hv
    obtain rfl := hwf.tiles.eq_of_payload hd (by simp [hlist]) hpay
    simp [hfree] at hdfree
  · split
    · rename_i h' hgrow
      obtain ⟨hkeep, -, hlist⟩ := grow_spec hwf (by have := hfit m; omega) (by omega) hgrow
      have hsets := sets_append (alignUp m 16 + 32 - 32) hwf.tiles
      rw [← hlist] at hsets
      have hlive := (hsets (h.brk + 32) _).mpr (by rw [if_pos rfl])
      exact ⟨_, .ofFresh hwf hkeep.wf (by omega) (hkeep.wf.aligned_of_live hlive) (fun _ => not_live_brk hwf) hsets
        fun q v _ => hkeep.mem q v⟩
    · exact .refl hwf

theorem Answers.mono {m : Nat} {r : Option Nat × Heap} (hr : Answers base old m align h r) (hle : n ≤ m) :
    Answers base old n align h r := by
  obtain ⟨_ | p, h'⟩ := r
  · exact hr
  · obtain ⟨u, hs⟩ := hr
    exact ⟨u, { hs with enough := hle.trans hs.enough }⟩

theorem Served.writes (hs : Served base 0 n align h h' p u) (hwf : WellFormed base h) {m : Nat → UInt8}
    (hm : ∀ x, ¬ (p ≤ x ∧ x < p + u) → m x = h'.mem x) : Served base 0 n align h { h' with mem := m } p u := by
  refine { hs with
    wf := ⟨hs.wf.tiles, hs.wf.aligned, hs.wf.below⟩
    mem := fun q v hq hlive i hi => ?_
    kept := fun v hlive => (hwf.ne_zero hlive rfl).elim }
  have hp : Live h'.blocks p u := (hs.live p u).mpr (by rw [if_pos rfl])
  have hapart := hs.wf.tiles.live_apart hp hlive
  exact (hm _ (by omega)).trans (hs.mem q v hq hlive i hi)

section

variable (hwf : WellFormed base h)

include hwf

theorem calloc_spec {nmemb : Nat} : Answers base 0 (nmemb * size) 16 h (calloc k h nmemb size) := by
  unfold calloc
  split_ifs with hbig
  · exact .refl hwf
  have hspec := malloc_spec (k := k) (n := nmemb * size) hwf
  refine Answers.mono (m := if nmemb * size = 0 then 16 else nmemb * size) ?_ (by split_ifs <;> omega)
  dsimp only
  generalize malloc k h (nmemb * size) = r at hspec ⊢
  obtain ⟨_ | p, h'⟩ := r
  · exact hspec
  · obtain ⟨u, hs⟩ := hspec
    refine ⟨u, hs.writes hwf fun x hx => if_neg fun hlies => hx ⟨hlies.1, hlies.2.trans_le ?_⟩⟩
    have := hs.enough
    split_ifs at this ⊢ <;> omega

theorem free_spec (hp : p = 0 ∨ Live h.blocks p u) :
    Keeps base h (free k h p) ∧ Sets p none h.blocks (free k h p).blocks := by
  unfold free
  split_ifs with hzero
  · refine ⟨(Intact.refl hwf).toKeeps, fun q v => ?_⟩
    split_ifs with hq
    · simpa [hq] using fun hlive => hwf.ne_zero hlive hzero
    · rfl
  · obtain ⟨ht, hsets⟩ := release_spec hwf.tiles (hp.resolve_left hzero)
    refine ⟨⟨⟨ht, hwf.aligned, hwf.below⟩, fun q v hq i hi => ?_⟩, hsets⟩
    have hlive := (hsets q v).mp hq
    split_ifs at hlive
    exact (link_mem ht hq i hi).trans (link_mem hwf.tiles hlive i hi)

/-- **Growing in place.** The next block is taken in as a whole. -/
theorem absorb_spec {block next : BlockHeader} (hlist : h.blocks = pre ++ block :: next :: rest)
    (hlive : block.isFree = false) (hnext : next.isFree = true) (hn : n ≤ block.size + 32 + next.size) :
    Served base block.payload n 16 h (h.link k (pre ++ mergeNext (block :: next :: rest))) block.payload
      (block.size + 32 + next.size) := by
  have hmerge : mergeNext (block :: next :: rest) = [{ block with size := block.size + 32 + next.size }] ++ rest := by
    rw [mergeNext, if_pos hnext, singleton_append]
  have hset : Sets block.payload (some (block.size + 32 + next.size)) [block, next]
      [{ block with size := block.size + 32 + next.size }] := by
    intro q v
    split_ifs with hq
    · simp [hlive, payload, hq]
    · simp [payload] at hq
      simp [hnext, payload, Ne.symm hq]
  have hext : ∀ lo hi, Tiles lo [block, next] hi → Tiles lo [{ block with size := block.size + 32 + next.size }] hi :=
    fun lo hi ht => by simpa [mergeNext, hnext] using tiles_mergeNext ht
  obtain ⟨ht, hsets⟩ := replaced [block, next] _ (hlist ▸ hwf.tiles) hext mem_cons_self hset
  rw [hmerge]
  have hkeep := keeps_link (k := k) hwf ht
  have hnew := (hsets block.payload _).mpr (by rw [if_pos rfl])
  refine ⟨hkeep.wf, hn, hkeep.wf.aligned_of_live hnew, .inl rfl, fun q v => ?_, fun q v _ => hkeep.mem q v,
    fun v _ i _ hi => hkeep.mem _ _ hnew i hi⟩
  rw [hlist]
  refine (hsets q v).trans ?_
  split_ifs with hq
  · simp [eq_comm]
  · simp [hq]

/-- **Moving.** The block that `malloc` returned gets the bytes of the old one, which is then freed. -/
theorem moved_spec {w : Nat} (hs : Served base 0 n 16 h h' p u) (hold : Live h.blocks old w) (hw : w ≤ u) :
    Served base old n 16 h (free k (h'.copy p old w) old) p u := by
  have hnew : ∀ v, ¬ Live h.blocks p v := hs.fresh.elim (fun hp v hlive => hwf.ne_zero hlive hp) id
  have hne : old ≠ p := by
    rintro rfl
    exact hnew w hold
  have hcopy : Served base 0 n 16 h (h'.copy p old w) p u := hs.writes hwf fun x hx => if_neg (by omega)
  have hold' : Live h'.blocks old w := by
    refine (hs.live old w).mpr ?_
    rw [if_neg hne]
    exact ⟨hwf.ne_zero hold, hold⟩
  obtain ⟨hkeep, hsets⟩ := free_spec (k := k) hcopy.wf (.inr hold')
  have hlive : ∀ q v, Live (free k (h'.copy p old w) old).blocks q v ↔
      if q = p then v = u else q ≠ old ∧ Live h.blocks q v := by
    intro q v
    rw [hsets q v, hcopy.live q v]
    split_ifs with h1 h2 h2
    · exact (hne (h1.symm.trans h2)).elim
    · simp [h1]
    · rfl
    · exact and_congr_left fun hq => ⟨fun _ => h1, fun _ => hwf.ne_zero hq⟩
  refine ⟨hkeep.wf, hs.enough, hs.aligned, .inr hnew, hlive, fun q v hq hqv i hi => ?_, fun v hv i hi hiu => ?_⟩
  · refine (hkeep.mem q v hqv i hi).trans (hcopy.mem q v hq ((hcopy.live q v).mpr ?_) i hi)
    have hqv' := (hlive q v).mp hqv
    rw [if_neg hq] at hqv' ⊢
    exact ⟨hwf.ne_zero hqv'.2, hqv'.2⟩
  · have hvw : v = w := by have := hwf.tiles.live_apart hv hold; omega
    rw [hkeep.mem p u ((hlive p u).mpr (by rw [if_pos rfl])) i hiu, ← hs.mem old w hne hold' i (hvw ▸ hi)]
    refine (if_pos ⟨by omega, by omega⟩).trans ?_
    rw [Nat.add_sub_cancel_left]

theorem realloc_spec (hptr : ptr = 0 ∨ Live h.blocks ptr v) : Answers base ptr n 16 h (realloc k h ptr n) := by
  unfold realloc
  by_cases hzero : ptr = 0
  · rw [if_pos hzero, hzero]
    exact (malloc_spec hwf).mono (by split_ifs <;> omega)
  have hlive := hptr.resolve_left hzero
  generalize hm : (if n = 0 then 16 else n) = m
  have hnm : n ≤ m := by split_ifs at hm <;> omega
  dsimp only
  split_ifs with hbig
  · exact .refl hwf
  have hle := (alignUp_spec m 16 (by omega) (by omega)).1
  obtain ⟨block, rest, hdrop, hlist, rfl, hfree, rfl⟩ := hlive.split hwf.tiles
  rw [hdrop]
  dsimp only
  split_ifs with hfits hnext
  · -- the block is large enough
    refine ⟨block.size, hwf, by omega, hwf.aligned_of_live hlive, .inl rfl, fun q v => ?_, fun q v _ _ i _ => rfl,
      fun v _ i _ _ => rfl⟩
    split_ifs with hq
    · subst hq
      refine ⟨fun hv => ?_, fun hv => hv ▸ hlive⟩
      have := hwf.tiles.live_apart hv hlive
      omega
    · simp [hq]
  · cases rest with
    | nil => simp at hnext
    | cons next rest =>
      simp only [head?_cons, any_some, decide_eq_true_eq] at hnext
      exact ⟨_, absorb_spec hwf hlist hfree hnext.1 (by omega)⟩
  · have hspec := (malloc_spec (k := k) (n := alignUp m 16) hwf).mono (n := alignUp m 16) (by split_ifs <;> omega)
    generalize malloc k h (alignUp m 16) = r at hspec ⊢
    obtain ⟨_ | p, h'⟩ := r
    · exact hspec
    · obtain ⟨u, hs⟩ := hspec
      have hmoved := moved_spec (k := k) hwf hs hlive (by have := hs.enough; omega)
      exact ⟨u, { hmoved with enough := by have := hs.enough; omega }⟩

end

/-! ## Alignment -/

/-- What the check `x & (x - 1)` is for. -/
theorem powerOfTwo_dvd {x : Nat} (hpos : x ≠ 0) (hand : x &&& (x - 1) = 0) :
    (x ≤ 16 → x ∣ 16) ∧ (16 ≤ x → 16 ∣ x) := by
  obtain ⟨e, rfl⟩ := (Nat.and_sub_one_eq_zero_iff_isPowerOfTwo hpos).mp hand
  refine ⟨fun hle => Nat.pow_dvd_pow 2 (n := 4) ?_, fun hle => Nat.pow_dvd_pow 2 (m := 4) ?_⟩
  all_goals exact (Nat.pow_le_pow_iff_right Nat.one_lt_two).mp hle

theorem padding_spec {cur : Nat} (align : Nat) (hcur : 16 ∣ cur) (halign : 16 ∣ align) (hpos : 0 < align)
    (hbound : cur + 64 + align ≤ 2 ^ 64) :
    16 ∣ padding cur align ∧ (0 < padding cur align → 32 ≤ padding cur align) ∧
      align ∣ cur + padding cur align + 32 := by
  obtain ⟨hle, hdvd⟩ := alignUp_spec (cur + 32) align hpos (by omega)
  obtain ⟨hle', hdvd'⟩ := alignUp_spec (cur + 32 * 2) align hpos (by omega)
  have h16 := halign.trans hdvd
  have h16' := halign.trans hdvd'
  unfold padding
  dsimp only
  split_ifs with hfits
  · refine ⟨by omega, by omega, ?_⟩
    convert hdvd' using 1
    omega
  · refine ⟨by omega, by omega, ?_⟩
    convert hdvd using 1
    omega

theorem alignedAlloc_spec (hwf : WellFormed base h) (halign : align ≤ 2 ^ 40) (hn : n ≤ 2 ^ 40) :
    Answers base 0 n align h (alignedAlloc k h align n) := by
  unfold alignedAlloc
  by_cases hbad : align = 0 ∨ align &&& (align - 1) ≠ 0
  · rw [if_pos hbad]
    exact .refl hwf
  rw [if_neg hbad]
  simp only [ne_eq, not_or, not_not] at hbad
  obtain ⟨hdvd, h16⟩ := powerOfTwo_dvd hbad.1 hbad.2
  by_cases hsmall : align ≤ 16
  · rw [if_pos hsmall]
    have hspec := (malloc_spec (k := k) (n := n) hwf).mono (n := n) (by split_ifs <;> omega)
    generalize malloc k h n = r at hspec ⊢
    obtain ⟨_ | p, h'⟩ := r
    · exact hspec
    · obtain ⟨u, hs⟩ := hspec
      exact ⟨u, { hs with aligned := (hdvd hsmall).trans hs.aligned }⟩
  rw [if_neg hsmall]
  replace h16 := h16 (by omega)
  generalize hm : (if n = 0 then align else n) = m
  have hnm : n ≤ m ∧ m ≤ 2 ^ 40 := by split_ifs at hm <;> omega
  obtain ⟨hle, hdvd⟩ := alignUp_spec m 16 (by omega) (by omega)
  obtain ⟨hpad16, hpad32, hpadded⟩ := padding_spec align (hwf.tiles.aligned hwf.aligned).1 h16 (by omega)
    (by have := hwf.below; unfold heapTop at this; omega)
  dsimp only
  generalize padding h.brk align = pad at hpad16 hpad32 hpadded ⊢
  split
  · exact .refl hwf
  split
  · exact .refl hwf
  rename_i h' hh'
  -- the heap behind the padding
  have hpad : Intact base h h' ∧ h'.brk = h.brk + pad := by
    split_ifs at hh' with hpos
    · obtain ⟨hkeep, hbrk, hlist⟩ := grow_spec hwf hpad16 (hpad32 hpos) hh'
      exact ⟨⟨hkeep, fun q v => by simp [hlist]⟩, hbrk⟩
    · obtain rfl := Option.some.inj hh'
      exact ⟨Intact.refl hwf, by omega⟩
  obtain ⟨hint, hbrk⟩ := hpad
  split
  · exact hint
  · rename_i h'' hgrow
    obtain ⟨hkeep, -, hlist⟩ := grow_spec hint.wf (by omega) (by omega) hgrow
    have hsets : Sets (h'.brk + 32) (some (alignUp m 16 + 32 - 32)) h.blocks h''.blocks := by
      intro q v
      rw [hlist, sets_append _ hint.wf.tiles q v, hint.live q v]
    refine ⟨_, .ofFresh hwf hkeep.wf (by omega) (hbrk ▸ hpadded) (fun v hv => ?_) hsets
      fun q v hq hlive i hi => ?_⟩
    · exact not_live_brk hint.wf ((hint.live _ _).mpr hv)
    · have hlive' := (hsets q v).mp hlive
      rw [if_neg hq] at hlive'
      exact (hkeep.mem q v hlive i hi).trans (hint.mem q v ((hint.live q v).mpr hlive') i hi)

theorem posixMemalign_spec (hwf : WellFormed base h) (halign : align ≤ 2 ^ 40) (hn : n ≤ 2 ^ 40) :
    Answers base 0 n align h ((posixMemalign k h ptr align n).1.toOption, (posixMemalign k h ptr align n).2) := by
  have hspec := alignedAlloc_spec (k := k) hwf halign hn
  unfold posixMemalign
  split_ifs
  · exact .refl hwf
  · exact .refl hwf
  · generalize alignedAlloc k h align n = r at hspec ⊢
    obtain ⟨_ | p, h'⟩ := r
    · exact hspec
    · exact hspec

/-! ## Runs -/

inductive Call where
  | malloc (size : Nat)
  | calloc (nmemb size : Nat)
  | realloc (ptr size : Nat)
  | alignedAlloc (alignment size : Nat)
  | posixMemalign (memptr alignment size : Nat)
  | free (ptr : Nat)
  deriving DecidableEq, Repr

namespace Call

def run (k : Machine) (h : Heap) : Call → Option Nat × Heap
  | malloc size => Libc.malloc k h size
  | calloc nmemb size => Libc.calloc k h nmemb size
  | realloc ptr size => Libc.realloc k h ptr size
  | alignedAlloc alignment size => Libc.alignedAlloc k h alignment size
  | posixMemalign memptr alignment size =>
    ((Libc.posixMemalign k h memptr alignment size).1.toOption, (Libc.posixMemalign k h memptr alignment size).2)
  | free ptr => (none, Libc.free k h ptr)

def pointer : Call → Nat
  | realloc ptr _ => ptr
  | free ptr => ptr
  | _ => 0

def request : Call → Option (Nat × Nat)
  | malloc size => some (size, 16)
  | calloc nmemb size => some (nmemb * size, 16)
  | realloc _ size => some (size, 16)
  | alignedAlloc alignment size => some (size, alignment)
  | posixMemalign _ alignment size => some (size, alignment)
  | free _ => none

def Small : Call → Prop
  | malloc size => size ≤ 2 ^ 40
  | calloc nmemb size => nmemb ≤ 2 ^ 40 ∧ size ≤ 2 ^ 40
  | realloc _ size => size ≤ 2 ^ 40
  | alignedAlloc alignment size => alignment ≤ 2 ^ 40 ∧ size ≤ 2 ^ 40
  | posixMemalign _ alignment size => alignment ≤ 2 ^ 40 ∧ size ≤ 2 ^ 40
  | free _ => True

end Call

/-- The heap, and what the program has asked for at the pointers that it holds. -/
structure Program where
  heap : Heap
  asked : Nat → Option (Nat × Nat)

namespace Program

def start (base : Nat) (mem : Nat → UInt8) : Program := ⟨⟨[], base, mem⟩, fun _ => none⟩

def usable (w : Program) (p : Nat) : Nat := mallocUsableSize w.heap p

def Holds (w : Program) (p : Nat) : Prop := w.asked p ≠ none

/-- Sizes and alignments are at most 2^40, and a pointer is null or held. -/
def Admits (w : Program) (call : Call) : Prop := call.Small ∧ (call.pointer = 0 ∨ w.Holds call.pointer)

def perform (w : Program) (k : Machine) (call : Call) : Program :=
  match call.run k w.heap with
  | (some p, h) => ⟨h, Function.update (Function.update w.asked call.pointer none) p call.request⟩
  | (none, h) => ⟨h, if call.request = none then Function.update w.asked call.pointer none else w.asked⟩

/-- The program calls the allocator, or stores a byte into a block that it holds. -/
inductive Step : Program → Program → Prop
  | call {w : Program} (k : Machine) (call : Call) : w.Admits call → Step w (w.perform k call)
  | store {w : Program} (p i : Nat) (byte : UInt8) : w.Holds p → i < w.usable p →
      Step w { w with heap := { w.heap with mem := Function.update w.heap.mem (p + i) byte } }

/-- The pointers held are the live blocks, which are as large and as aligned as was asked for. -/
structure Inv (base : Nat) (w : Program) : Prop where
  wf : WellFormed base w.heap
  held : ∀ p u, Live w.heap.blocks p u → w.Holds p
  asked : ∀ p n align, w.asked p = some (n, align) → ∃ u, Live w.heap.blocks p u ∧ n ≤ u ∧ align ∣ p

variable {w w' : Program} {call : Call}

theorem usable_eq (hwf : WellFormed base w.heap) (hp : Live w.heap.blocks p u) : w.usable p = u :=
  usable_of_live hwf.tiles hp

theorem Inv.live (hinv : Inv base w) (hp : w.Holds p) : Live w.heap.blocks p (w.usable p) := by
  obtain ⟨⟨n, align⟩, hasked⟩ := ne_none_iff_exists'.mp hp
  obtain ⟨u, hlive, -⟩ := hinv.asked p n align hasked
  exact (usable_eq hinv.wf hlive).symm ▸ hlive

theorem Inv.pointer (hinv : Inv base w) (hadm : w.Admits call) :
    call.pointer = 0 ∨ Live w.heap.blocks call.pointer (w.usable call.pointer) :=
  hadm.2.imp_right hinv.live

theorem Inv.answers (hinv : Inv base w) (hadm : w.Admits call) (hreq : call.request = some (n, align)) :
    Answers base call.pointer n align w.heap (call.run k w.heap) := by
  have hptr := hinv.pointer hadm
  cases call with
  | malloc size =>
    cases hreq
    exact (malloc_spec hinv.wf).mono (by split_ifs <;> omega)
  | calloc nmemb size =>
    cases hreq
    exact calloc_spec hinv.wf
  | realloc ptr size =>
    cases hreq
    exact realloc_spec hinv.wf hptr
  | alignedAlloc alignment size =>
    cases hreq
    exact alignedAlloc_spec hinv.wf hadm.1.1 hadm.1.2
  | posixMemalign memptr alignment size =>
    cases hreq
    exact posixMemalign_spec hinv.wf hadm.1.1 hadm.1.2
  | free ptr => cases hreq

theorem perform_some (hrun : call.run k w.heap = (some p, h')) : w.perform k call =
    ⟨h', update (update w.asked call.pointer none) p call.request⟩ := by
  rw [perform, hrun]

theorem perform_none (hrun : call.run k w.heap = (none, h')) (hreq : call.request ≠ none) :
    w.perform k call = ⟨h', w.asked⟩ := by
  rw [perform, hrun]
  rw [if_neg hreq]

theorem perform_free : w.perform k (.free ptr) = ⟨Libc.free k w.heap ptr, update w.asked ptr none⟩ := rfl

/-- A block is as before: asked for as before, as large, and with the same bytes. -/
def Same (w w' : Program) (p : Nat) : Prop :=
  w'.asked p = w.asked p ∧ w'.usable p = w.usable p ∧ SameOn p (w.usable p) w.heap w'.heap

/-- What a call does to the blocks that are live before it: `realloc` keeps the bytes that both blocks have, a failed
call changes nothing, and no call changes a block that it is not about. -/
structure Respects (w : Program) (k : Machine) (call : Call) : Prop where
  others : ∀ p, w.Holds p → p ≠ call.pointer → w.Same (w.perform k call) p
  resized : ∀ q, (call.run k w.heap).1 = some q → w.Holds call.pointer → ∀ i, i < w.usable call.pointer →
    i < (w.perform k call).usable q → (w.perform k call).heap.mem (q + i) = w.heap.mem (call.pointer + i)
  failed : (call.run k w.heap).1 = none → call.request ≠ none → ∀ p, w.Holds p → w.Same (w.perform k call) p

section

variable (hinv : Inv base w)

include hinv

theorem Inv.served (hreq : call.request = some (n, align)) (hrun : call.run k w.heap = (some p, h'))
    (hs : Served base call.pointer n align w.heap h' p u) : Inv base (w.perform k call) ∧ w.Respects k call := by
  have hperf := perform_some hrun
  have hp : Live h'.blocks p u := (hs.live p u).mpr (by rw [if_pos rfl])
  have hother : ∀ q v, q ≠ p → q ≠ call.pointer → Live w.heap.blocks q v → Live h'.blocks q v :=
    fun q v hq hne hlive => (hs.live q v).mpr (by rw [if_neg hq]; exact ⟨hne, hlive⟩)
  refine ⟨?_, ⟨fun q hq hne => ?_, fun q hq hold i hi hi' => ?_, fun hnone => ?_⟩⟩
  · rw [hperf, hreq]
    refine ⟨hs.wf, fun q v hlive => ?_, fun q m al hq => ?_⟩
    · unfold Holds
      have hlive := (hs.live q v).mp hlive
      by_cases hqp : q = p
      · simp [hqp]
      · rw [if_neg hqp] at hlive
        simpa [hqp, hlive.1, Holds] using hinv.held q v hlive.2
    · by_cases hqp : q = p
      · obtain ⟨rfl, rfl⟩ : n = m ∧ align = al := by simpa [hqp] using hq
        exact ⟨u, hqp ▸ hp, hs.enough, hqp ▸ hs.aligned⟩
      · by_cases hqo : q = call.pointer
        · dsimp only at hq
          rw [update_of_ne hqp, hqo, update_self] at hq
          cases hq
        · obtain ⟨v, hlive, hle, hdvd⟩ := hinv.asked q m al (by simpa [hqp, hqo] using hq)
          exact ⟨v, hother q v hqp hqo hlive, hle, hdvd⟩
  · have hlive := hinv.live hq
    have hqp : q ≠ p := by
      rintro rfl
      exact hs.fresh.elim hne fun hnew => hnew _ hlive
    rw [hperf]
    refine ⟨by simp [hqp, hne], usable_of_live hs.wf.tiles (hother q _ hqp hne hlive), ?_⟩
    exact hs.mem q _ hqp (hother q _ hqp hne hlive)
  · rw [hrun] at hq
    obtain rfl := Option.some.inj hq
    rw [hperf] at hi' ⊢
    exact hs.kept _ (hinv.live hold) i hi (hi'.trans_eq (usable_of_live hs.wf.tiles hp))
  · rw [hrun] at hnone
    cases hnone

theorem Inv.intact (hreq : call.request ≠ none) (hrun : call.run k w.heap = (none, h')) (hi : Intact base w.heap h') :
    Inv base (w.perform k call) ∧ w.Respects k call := by
  have hperf := perform_none hrun hreq
  have hsame : ∀ p, w.Holds p → w.Same (w.perform k call) p := by
    intro p hp
    rw [hperf]
    have hlive := (hi.live _ _).mpr (hinv.live hp)
    exact ⟨rfl, usable_of_live hi.wf.tiles hlive, hi.mem p _ hlive⟩
  refine ⟨?_, ⟨fun p hp _ => hsame p hp, fun q hq => ?_, fun _ _ => hsame⟩⟩
  · rw [hperf]
    refine ⟨hi.wf, fun p u hp => hinv.held p u ((hi.live p u).mp hp), fun p n align hp => ?_⟩
    obtain ⟨u, hlive, hrest⟩ := hinv.asked p n align hp
    exact ⟨u, (hi.live p u).mpr hlive, hrest⟩
  · rw [hrun] at hq
    cases hq

theorem Inv.freed (hadm : w.Admits (.free ptr)) : Inv base (w.perform k (.free ptr)) ∧ w.Respects k (.free ptr) := by
  obtain ⟨hkeep, hsets⟩ := free_spec (k := k) hinv.wf (hinv.pointer hadm)
  rw [Call.pointer] at hkeep hsets
  have hother : ∀ q v, q ≠ ptr → (Live (Libc.free k w.heap ptr).blocks q v ↔ Live w.heap.blocks q v) :=
    fun q v hq => by rw [hsets q v, if_neg hq]
  refine ⟨?_, ⟨fun q hq hne => ?_, fun q hq => ?_, fun _ hreq => (hreq rfl).elim⟩⟩
  · rw [perform_free]
    refine ⟨hkeep.wf, fun q v hlive => ?_, fun q n align hq => ?_⟩
    · have hq : q ≠ ptr := by
        rintro rfl
        simpa using (hsets q v).mp hlive
      simpa [Holds, hq] using hinv.held q v ((hother q v hq).mp hlive)
    · have hqp : q ≠ ptr := by
        rintro rfl
        simp at hq
      obtain ⟨v, hlive, hrest⟩ := hinv.asked q n align (by simpa [hqp] using hq)
      exact ⟨v, (hother q v hqp).mpr hlive, hrest⟩
  · have hlive := (hother q _ hne).mpr (hinv.live hq)
    exact ⟨update_of_ne hne _ _, usable_of_live hkeep.wf.tiles hlive, hkeep.mem q _ hlive⟩
  · cases hq

theorem Inv.perform (hadm : w.Admits call) : Inv base (w.perform k call) ∧ w.Respects k call := by
  cases hreq : call.request with
  | none =>
    cases call with
    | free ptr => exact hinv.freed hadm
    | _ => cases hreq
  | some request =>
    have hanswers := hinv.answers (k := k) hadm hreq
    rcases hrun : call.run k w.heap with ⟨_ | p, h'⟩ <;> rw [hrun] at hanswers
    · exact hinv.intact (by simp [hreq]) hrun hanswers
    · obtain ⟨u, hs⟩ := hanswers
      exact hinv.served hreq hrun hs

theorem Inv.step (hstep : Step w w') : Inv base w' := by
  cases hstep with
  | call k call hadm => exact (hinv.perform hadm).1
  | store p i byte hp hi => exact ⟨⟨hinv.wf.tiles, hinv.wf.aligned, hinv.wf.below⟩, hinv.held, hinv.asked⟩

end

/-- **The heap of a program.** Whatever calls it has made and whatever `sbrk` answered: the list tiles the region of
`sbrk`, the live blocks do not overlap and are as large and as aligned as was asked for, and the next call respects
them. -/
theorem heap_sound (hbase : 16 ∣ base) (htop : base < heapTop) {mem : Nat → UInt8}
    (hrun : ReflTransGen Step (start base mem) w) :
    Tiles base w.heap.blocks w.heap.brk ∧
    (∀ p n align, w.asked p = some (n, align) → n ≤ w.usable p ∧ align ∣ p) ∧
    (∀ p q, w.Holds p → w.Holds q → p ≠ q → p + w.usable p ≤ q ∨ q + w.usable q ≤ p) ∧
    ∀ k call, w.Admits call → w.Respects k call := by
  have h0 : Inv base (start base mem) :=
    ⟨⟨rfl, hbase, htop⟩, fun p u hp => (live_nil hp).elim, fun p n align hp => nomatch hp⟩
  have hstep : ∀ w w', Inv base w → Step w w' → Inv base w' := fun w w' hinv => hinv.step
  have hinv := invariant_of_step hstep h0 hrun
  refine ⟨hinv.wf.tiles, fun p n align hp => ?_, fun p q hp hq hne => ?_, fun k call hadm => (hinv.perform hadm).2⟩
  · obtain ⟨u, hlive, hrest⟩ := hinv.asked p n align hp
    exact (usable_eq hinv.wf hlive).symm ▸ hrest
  · have := hinv.wf.tiles.live_apart (hinv.live hp) (hinv.live hq)
    omega

def generous : Machine := ⟨fun _ _ => true, fun _ _ => 0⟩

def twoBlocks : Program :=
  ((start 0x400000 fun _ => 0).perform generous (.malloc 5)).perform generous (.alignedAlloc 4096 100)

theorem heap_sound_twoBlocks : twoBlocks.asked 0x400020 = some (5, 16) ∧
    twoBlocks.asked 0x401000 = some (100, 4096) ∧ 100 ≤ twoBlocks.usable 0x401000 ∧ 4096 ∣ 0x401000 := by
  have hrun : ReflTransGen Step (start 0x400000 fun _ => 0) twoBlocks :=
    (ReflTransGen.single (.call _ _ ⟨by norm_num [Call.Small], .inl rfl⟩)).tail
      (.call _ _ ⟨by norm_num [Call.Small], .inl rfl⟩)
  have hpage : twoBlocks.asked 0x401000 = some (100, 4096) := by decide +kernel
  exact ⟨by decide +kernel, hpage, (heap_sound (by decide) (by decide) hrun).2.1 _ _ _ hpage⟩

end Program

end SzpontOS.Libc
