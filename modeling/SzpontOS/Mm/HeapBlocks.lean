import SzpontOS.Lib.Tiling
import SzpontOS.Mm.Heap

/-!
# The blocks of the kernel heap

`Heap.Ok` says which blocks a heap consists of: the list in memory is a well-formed doubly linked list of them, they
tile the ranges that the heap got from the page allocator, and the two counters are their sums. `kmalloc` takes a free
block, perhaps cut in two, `kfree` frees a block and joins it to its neighbours, and `heap_expand` appends one. All they
write are headers of blocks (`Edited`), so the data of the other allocations stays as it is.
-/

namespace SzpontOS.Mm

open SzpontOS.Lib Span
open List hiding span

structure HeapBlock where
  addr : Nat
  size : Nat
  free : Bool

namespace HeapBlock

def span (b : HeapBlock) : Span := ⟨b.addr, 32 + b.size⟩

/-- What the header of the block says of it, apart from the links. -/
structure Described (b : HeapBlock) (h : HeapHeader) : Prop where
  magic : h.magic = if b.free then heapMagicFree else heapMagicAlloc
  isFree : h.isFree = if b.free then 1 else 0
  size : h.size.toNat = b.size

/-- Blocks and their data are aligned, and lie in the address space, above the null pointer. -/
structure Fits (b : HeapBlock) : Prop where
  addr : 16 ∣ b.addr
  size : 16 ∣ b.size
  pos : 0 < b.addr
  stop : b.addr + 32 + b.size ≤ 2 ^ 64

def allocatedBytes (bs : List HeapBlock) : Nat := (bs.map fun b => if b.free then 0 else b.size).sum

end HeapBlock

open HeapBlock

/-- **The headers hold the list of blocks.** -/
structure Listed (headers : Nat → HeapHeader) (bs : List HeapBlock) : Prop where
  links : (linksOf headers).Chain none none (bs.map addr)
  described : ∀ b ∈ bs, b.Described (headers b.addr)

/-- The blocks lie side by side, and fill `ranges`. -/
structure Tiled (bs : List HeapBlock) (ranges : List Span) : Prop where
  apart : (bs.map span).Pairwise Span.Apart
  fits : ∀ b ∈ bs, b.Fits
  cover : ∀ x, Span.Covered (bs.map span) x ↔ Span.Covered ranges x

/-- **A heap of these blocks**, which fill the ranges obtained from the page allocator. -/
structure Heap.Ok (h : Heap) (bs : List HeapBlock) (ranges : List Span) : Prop where
  head : h.head = (bs.map addr).head?
  listed : Listed (readHeader h.mem) bs
  tiled : Tiled bs ranges
  total : h.total.toNat = Span.total (bs.map span)
  allocated : h.allocated.toNat = allocatedBytes bs

/-! ## Tilings -/

namespace Tiled

variable {bs : List HeapBlock} {ranges : List Span} {b c : HeapBlock}

section

variable (h : Tiled bs ranges)

include h

theorem apart_of_ne (hb : b ∈ bs) (hc : c ∈ bs) (hne : b ≠ c) : b.span.Apart c.span := by
  refine List.Pairwise.forall_of_forall_of_flip (R := fun b c : HeapBlock => b ≠ c → b.span.Apart c.span)
    (fun b _ hne => absurd rfl hne) ?_ ?_ hb hc hne
  · exact (pairwise_map.mp h.apart).imp fun {b c} hbc (_ : b ≠ c) => hbc
  · exact (pairwise_map.mp h.apart).imp fun {b c} hbc (_ : c ≠ b) => hbc.symm

theorem le_or_le (hb : b ∈ bs) (hc : c ∈ bs) (hne : b ≠ c) :
    b.addr + 32 + b.size ≤ c.addr ∨ c.addr + 32 + c.size ≤ b.addr := by
  have := (h.apart_of_ne hb hc hne).le_or_le (by unfold span; dsimp only; omega) (by unfold span; dsimp only; omega)
  unfold stop span at this
  dsimp only at this
  omega

theorem nodup : (bs.map addr).Nodup := by
  unfold List.Nodup
  rw [pairwise_map]
  refine (pairwise_map.mp h.apart).imp fun {b c} hbc heq => ?_
  have := hbc.le_or_le (by unfold span; dsimp only; omega) (by unfold span; dsimp only; omega)
  unfold stop span at this
  dsimp only at this
  omega

theorem spaced : Spaced (bs.map addr) := by
  intro a ha a' ha' hne
  obtain ⟨b, hb, rfl⟩ := mem_map.mp ha
  obtain ⟨c, hc, rfl⟩ := mem_map.mp ha'
  have := h.le_or_le hb hc fun heq => hne (by rw [heq])
  omega

theorem data_outside (hb : b ∈ bs) {x : Nat} (hlow : b.addr + 32 ≤ x) (hhigh : x < b.addr + 32 + b.size) :
    ∀ a ∈ bs.map addr, x < a ∨ a + 32 ≤ x := by
  intro a ha
  obtain ⟨c, hc, rfl⟩ := mem_map.mp ha
  by_cases hbc : b = c
  · right
    rw [← hbc]
    exact hlow
  · have := h.le_or_le hb hc hbc
    omega

theorem total_le : Span.total (bs.map span) ≤ 2 ^ 64 - 1 := by
  apply Span.total_le h.apart
  · intro s hs
    obtain ⟨b, hb, rfl⟩ := mem_map.mp hs
    exact (h.fits b hb).pos
  · intro s hs
    obtain ⟨b, hb, rfl⟩ := mem_map.mp hs
    have := (h.fits b hb).stop
    unfold Span.stop span
    dsimp only
    omega

end

end Tiled

theorem length_le_total (bs : List HeapBlock) : 32 * bs.length ≤ total (bs.map span) := by
  induction bs with
  | nil => simp
  | cons b bs ih =>
    rw [map_cons, total_cons, length_cons]
    show _ ≤ 32 + b.size + _
    omega

theorem allocatedBytes_le_total (bs : List HeapBlock) : allocatedBytes bs ≤ total (bs.map span) := by
  induction bs with
  | nil => exact Nat.le_refl 0
  | cons b bs ih =>
    rw [map_cons, total_cons]
    unfold allocatedBytes at ih ⊢
    rw [map_cons, sum_cons]
    have hb : (if b.free then 0 else b.size) ≤ b.size := by split <;> omega
    show _ ≤ 32 + b.size + _
    omega

@[simp] theorem allocatedBytes_append (xs ys : List HeapBlock) :
    allocatedBytes (xs ++ ys) = allocatedBytes xs + allocatedBytes ys := by
  unfold allocatedBytes
  rw [map_append, sum_append]

@[simp] theorem allocatedBytes_cons (b : HeapBlock) (bs : List HeapBlock) :
    allocatedBytes (b :: bs) = (if b.free then 0 else b.size) + allocatedBytes bs := rfl

theorem Tiled.replace (mid mid' : List HeapBlock) {pre post : List HeapBlock} {ranges : List Span}
    (h : Tiled (pre ++ (mid ++ post)) ranges) (hapart : (mid'.map span).Pairwise Span.Apart)
    (hfits : ∀ b ∈ mid', b.Fits) (hcov : ∀ x, Span.Covered (mid'.map span) x ↔ Span.Covered (mid.map span) x) :
    Tiled (pre ++ (mid' ++ post)) ranges := by
  refine ⟨?_, fun b hb => ?_, fun x => ?_⟩
  · have hold := h.apart
    simp only [map_append] at hold ⊢
    exact Span.Apart.replace hold hapart fun x => (hcov x).mp
  · rw [mem_append, mem_append] at hb
    rcases hb with hb | hb | hb
    · exact h.fits b (by simp [hb])
    · exact hfits b hb
    · exact h.fits b (by simp [hb])
  · rw [← h.cover x]
    simp only [map_append, covered_append, hcov]

/-! ## Walks -/

namespace Heap.Ok

variable {h : Heap} {bs : List HeapBlock} {ranges : List Span}

theorem length_le (hok : h.Ok bs ranges) : bs.length ≤ walkFuel := by
  have h1 := length_le_total bs
  have h2 := hok.tiled.total_le
  unfold walkFuel
  omega

theorem walk_eq (hok : h.Ok bs ranges) (test : HeapHeader → Bool) :
    h.walk test = (bs.map addr).find? fun a => test (readHeader h.mem a) := by
  unfold Heap.walk
  rw [hok.head]
  exact Links.find_chain hok.listed.links (by rw [length_map]; exact hok.length_le)

end Heap.Ok

end SzpontOS.Mm
