import SzpontOS.Lib.Run
import SzpontOS.Mm.HeapAlloc

/-!
# Runs of the kernel heap

Any sequence of allocations, reallocations, releases of live pointers and stores into live allocations. A `HeapWorld` is
the heap with what only an observer knows: the ranges that the page allocator has handed out, and the live allocations
with what their owners have in them.
-/

namespace SzpontOS.Mm

open SzpontOS.Lib HeapBlock Relation List Option

variable {bs pre post : List HeapBlock} {b c : HeapBlock} {ranges : List Span}

variable {m : Mem} {h' : Heap} {p : Nat} {size : BitVec 64}

namespace Heap

variable {h : Heap} {pmm : Nat → Option Nat}

/-! ## Stores into allocations -/

/-- **A store into the data of one block.** No header changes, and no data of another block. -/
theorem Ok.store (hok : h.Ok bs ranges) (hb : b ∈ bs)
    (hm : ∀ x, x < b.addr + 32 ∨ b.addr + 32 + b.size ≤ x → m x = h.mem x) :
    Heap.Ok { h with mem := m } bs ranges ∧ ∀ d ∈ bs, d ≠ b → SameData h.mem m d := by
  refine ⟨⟨hok.head, hok.listed.congr fun d hd => ?_, hok.tiled, hok.total, hok.allocated⟩, fun d hd hne x _ _ => ?_⟩
  · apply readHeader_congr
    intro x _ _
    by_cases hdb : d = b
    · subst hdb
      exact hm x (by omega)
    · have := hok.tiled.le_or_le hd hb hdb
      exact hm x (by omega)
  · have := hok.tiled.le_or_le hd hb hne
    exact hm x (by omega)

/-! ## Zeroed allocations -/

theorem kmalloc_null (heq : kmalloc pmm h size = some (h', none)) : h' = h := by
  rcases kmalloc_cases heq with ⟨-, hres⟩ | ⟨-, g, curr, -, hres, -⟩
  · exact (Prod.mk.inj hres).1
  · cases congrArg Prod.snd hres

theorem kzalloc_cases {ptr : Option Nat} (heq : kzalloc pmm h size = some (h', ptr)) :
    ∃ g, kmalloc pmm h size = some (g, ptr) ∧
      h' = ptr.elim g fun p => { g with mem := g.mem.memset p 0 size.toNat } := by
  unfold kzalloc at heq
  rcases hk : kmalloc pmm h size with _ | ⟨g, _ | p⟩
  all_goals
    rw [hk] at heq
    cases heq
  · exact ⟨_, rfl, rfl⟩
  · exact ⟨_, rfl, rfl⟩

theorem kzalloc_null (heq : kzalloc pmm h size = some (h', none)) : h' = h := by
  obtain ⟨g, hk, rfl⟩ := kzalloc_cases heq
  exact kmalloc_null hk

theorem Ok.kzalloc (hok : h.Ok bs ranges) (hsize : size.toNat ≤ 2 ^ 62)
    (hfresh : ∀ s ∈ granted pmm h size, Fresh ranges s) {ptr : Option Nat} (heq : kzalloc pmm h size = some (h', ptr)) :
    (size = 0 ∧ ptr = none ∧ h' = h) ∨ size ≠ 0 ∧ ∃ p bs', ptr = some p ∧ h'.Ok bs' (ranges ++ granted pmm h size) ∧
      Allocated bs h.mem bs' h'.mem p size.toNat ∧ ∀ k, k < size.toNat → h'.mem (p + k) = 0 := by
  obtain ⟨h1, hk, rfl⟩ := kzalloc_cases heq
  rcases hok.kmalloc hsize hfresh hk with ⟨hzero, rfl, rfl⟩ | ⟨hzero, p, bs', rfl, hok1, hgot⟩
  · exact .inl ⟨hzero, rfl, rfl⟩
  obtain ⟨⟨b, hb, hused, hp, hle, hne⟩, hrest⟩ := hgot
  obtain ⟨hok2, hsame⟩ := hok1.store hb (m := h1.mem.memset p 0 size.toNat) fun x hx =>
    Mem.memset_outside _ _ _ _ (by omega)
  refine .inr ⟨hzero, p, bs', rfl, hok2, ⟨⟨b, hb, hused, hp, hle, hne⟩, fun d hd hdused => ?_⟩, fun k hk => ?_⟩
  · obtain ⟨hmem, hdata⟩ := hrest d hd hdused
    have hdb : d ≠ b := fun heq => hne d hd hdused (by rw [heq])
    exact ⟨hmem, fun x hlow hhigh => (hsame d hmem hdb x hlow hhigh).trans (hdata x hlow hhigh)⟩
  · exact Mem.memset_inside _ _ _ _ (by omega) (by omega)

end Heap

open Heap

/-! ## The world -/

structure Allocation where
  ptr : Nat
  bytes : List (BitVec 8)

def bytesAt (m : Mem) (p n : Nat) : List (BitVec 8) := (range n).map fun k => m (p + k)

theorem length_bytesAt (m : Mem) (p n : Nat) : (bytesAt m p n).length = n := by
  simp [bytesAt]

theorem getElem_bytesAt (m : Mem) (p n : Nat) {k : Nat} (hk : k < (bytesAt m p n).length) :
    (bytesAt m p n)[k] = m (p + k) := by
  simp [bytesAt]

/-- The heap, the ranges that it got from the page allocator, and the live allocations. -/
structure HeapWorld where
  heap : Heap
  ranges : List Span
  live : List Allocation

namespace HeapWorld

def start (m : Mem) : HeapWorld := ⟨.empty m, [], []⟩

/-- What the page allocator gives to `heap_expand(size)`. -/
def expanded (pmm : Nat → Option Nat) (size : BitVec 64) : List Span :=
  match pmm (pagesFor size) with
  | none => []
  | some virt => [⟨virt, pagesFor size * 4096⟩]

/-- What the page allocator gives to `krealloc(ptr, size)` of a live pointer: nothing when the block has room. -/
def regranted (pmm : Nat → Option Nat) (h : Heap) (ptr : Nat) (size : BitVec 64) : List Span :=
  if (readHeader h.mem (ptr - 32)).size ≥ size then [] else granted pmm h size

/-- **One step**, with requests of at most `2 ^ 62` bytes and a page allocator that returns fresh ranges. A reallocated
allocation keeps what fits of it, and shows what is in memory behind that. -/
inductive Step : HeapWorld → HeapWorld → Prop
  | heapInit (w pmm size) : size.toNat ≤ 2 ^ 62 → (∀ s ∈ expanded pmm size, Heap.Fresh w.ranges s) →
      Step w ⟨w.heap.heapExpand pmm size, w.ranges ++ expanded pmm size, w.live⟩
  | kmalloc (w pmm size h' p) : size.toNat ≤ 2 ^ 62 → (∀ s ∈ w.heap.granted pmm size, Heap.Fresh w.ranges s) →
      w.heap.kmalloc pmm size = some (h', some p) →
      Step w ⟨h', w.ranges ++ w.heap.granted pmm size, ⟨p, bytesAt h'.mem p size.toNat⟩ :: w.live⟩
  | kmallocNull (w pmm size h') : w.heap.kmalloc pmm size = some (h', none) → Step w ⟨h', w.ranges, w.live⟩
  | kcalloc (w pmm num size h' p) : num.toNat * size.toNat ≤ 2 ^ 62 →
      (∀ s ∈ w.heap.granted pmm (num * size), Heap.Fresh w.ranges s) →
      w.heap.kcalloc pmm num size = some (h', some p) →
      Step w ⟨h', w.ranges ++ w.heap.granted pmm (num * size), ⟨p, replicate (num.toNat * size.toNat) 0⟩ :: w.live⟩
  | kcallocNull (w pmm num size h') : w.heap.kcalloc pmm num size = some (h', none) → Step w ⟨h', w.ranges, w.live⟩
  | kfreeNull (w) : Step w ⟨w.heap.kfree none, w.ranges, w.live⟩
  | kfree (w pre a post) : w.live = pre ++ a :: post → Step w ⟨w.heap.kfree (some a.ptr), w.ranges, pre ++ post⟩
  | kreallocNone (w pmm size h' p) : size.toNat ≤ 2 ^ 62 → (∀ s ∈ w.heap.granted pmm size, Heap.Fresh w.ranges s) →
      w.heap.krealloc pmm none size = some (h', some p) →
      Step w ⟨h', w.ranges ++ w.heap.granted pmm size, ⟨p, bytesAt h'.mem p size.toNat⟩ :: w.live⟩
  | kreallocFree (w pmm pre a post h' ptr) : w.live = pre ++ a :: post →
      w.heap.krealloc pmm (some a.ptr) 0 = some (h', ptr) → Step w ⟨h', w.ranges, pre ++ post⟩
  | krealloc (w pmm pre a post size h' p) : w.live = pre ++ a :: post → size.toNat ≤ 2 ^ 62 →
      (∀ s ∈ regranted pmm w.heap a.ptr size, Heap.Fresh w.ranges s) →
      w.heap.krealloc pmm (some a.ptr) size = some (h', some p) →
      Step w ⟨h', w.ranges ++ regranted pmm w.heap a.ptr size,
        ⟨p, a.bytes.take size.toNat ++ bytesAt h'.mem (p + a.bytes.length) (size.toNat - a.bytes.length)⟩ ::
          (pre ++ post)⟩
  | store (w pre a post k v) : w.live = pre ++ a :: post → k < a.bytes.length →
      Step w ⟨{ w.heap with mem := Function.update w.heap.mem (a.ptr + k) v }, w.ranges,
        ⟨a.ptr, a.bytes.set k v⟩ :: (pre ++ post)⟩

/-! ## The invariant -/

/-- The allocation is a block of the list, large enough, and memory holds what its owner has in it. -/
structure Holds (m : Mem) (bs : List HeapBlock) (a : Allocation) (b : HeapBlock) : Prop where
  mem : b ∈ bs
  used : b.free = false
  ptr : a.ptr = b.addr + 32
  room : a.bytes.length ≤ b.size
  bytes : ∀ k (hk : k < a.bytes.length), m (a.ptr + k) = a.bytes[k]

structure Ok (w : HeapWorld) (bs : List HeapBlock) : Prop where
  heap : w.heap.Ok bs w.ranges
  live : ∀ a ∈ w.live, ∃ b, Holds w.heap.mem bs a b
  distinct : (w.live.map Allocation.ptr).Nodup

variable {w : HeapWorld} {m' : Mem} {bs' : List HeapBlock} {a : Allocation}

theorem Holds.congr (h : Holds m bs a b) (hmem : b ∈ bs') (hsame : Heap.SameData m m' b) : Holds m' bs' a b where
  mem := hmem
  used := h.used
  ptr := h.ptr
  room := h.room
  bytes k hk := by
    have hroom := h.room
    have hptr := h.ptr
    rw [hsame (a.ptr + k) (by omega) (by omega)]
    exact h.bytes k hk

theorem Ok.allocate (hok : w.Ok bs) {ranges' : List Span} (hok' : h'.Ok bs' ranges') {n : Nat}
    (hgot : Heap.Allocated bs w.heap.mem bs' h'.mem p n) (bytes : List (BitVec 8)) (hlen : bytes.length ≤ n)
    (hbyte : ∀ k (hk : k < bytes.length), h'.mem (p + k) = bytes[k]) : Ok ⟨h', ranges', ⟨p, bytes⟩ :: w.live⟩ bs' := by
  obtain ⟨⟨b, hb, hused, hp, hle, hne⟩, hrest⟩ := hgot
  refine ⟨hok', fun a ha => ?_, ?_⟩
  · rcases mem_cons.mp ha with rfl | ha
    · exact ⟨b, hb, hused, hp, by dsimp only; omega, hbyte⟩
    · obtain ⟨d, hd⟩ := hok.live a ha
      obtain ⟨hmem, hsame⟩ := hrest d hd.mem hd.used
      exact ⟨d, hd.congr hmem hsame⟩
  · rw [map_cons, nodup_cons]
    refine ⟨fun hmem => ?_, hok.distinct⟩
    obtain ⟨a, ha, haddr⟩ := mem_map.mp hmem
    obtain ⟨d, hd⟩ := hok.live a ha
    have := hne d hd.mem hd.used
    have hptr := hd.ptr
    dsimp only at haddr
    omega

theorem nodup_of_live {pre post : List Allocation} {l : List Allocation} (hl : l = pre ++ a :: post)
    (hnd : (l.map Allocation.ptr).Nodup) : (a.ptr :: (pre ++ post).map Allocation.ptr).Nodup := by
  rw [hl, map_append, map_cons] at hnd
  rw [map_append]
  exact nodup_middle.mp hnd

theorem Ok.other (hok : w.Ok bs) {pre post : List Allocation} (hlive : w.live = pre ++ a :: post)
    (hb : Holds w.heap.mem bs a b) {a' : Allocation} (ha' : a' ∈ pre ++ post) :
    ∃ d, Holds w.heap.mem bs a' d ∧ d ≠ b := by
  have hmem : a' ∈ w.live := by
    rw [hlive, mem_append, mem_cons]
    rw [mem_append] at ha'
    tauto
  obtain ⟨d, hd⟩ := hok.live a' hmem
  refine ⟨d, hd, fun heq => ?_⟩
  have hptr : a'.ptr = a.ptr := by rw [hd.ptr, hb.ptr, heq]
  exact (nodup_cons.mp (nodup_of_live hlive hok.distinct)).1 (hptr ▸ mem_map_of_mem ha')

/-- **An owner's data rewritten**, by a store or by the copy that `krealloc` makes. -/
theorem Ok.overwrite (hok : w.Ok bs) {pre post : List Allocation} (hlive : w.live = pre ++ a :: post)
    (hb : Holds w.heap.mem bs a b) (hm : ∀ x, x < b.addr + 32 ∨ b.addr + 32 + b.size ≤ x → m x = w.heap.mem x)
    (bytes : List (BitVec 8)) (hlen : bytes.length ≤ b.size)
    (hbyte : ∀ k (hk : k < bytes.length), m (a.ptr + k) = bytes[k]) :
    Ok ⟨{ w.heap with mem := m }, w.ranges, ⟨a.ptr, bytes⟩ :: (pre ++ post)⟩ bs := by
  obtain ⟨hheap, hsame⟩ := hok.heap.store hb.mem hm
  have hnd := nodup_of_live hlive hok.distinct
  refine ⟨hheap, fun a' ha' => ?_, hnd⟩
  rcases mem_cons.mp ha' with rfl | ha'
  · exact ⟨b, hb.mem, hb.used, hb.ptr, hlen, hbyte⟩
  · obtain ⟨d, hd, hne⟩ := hok.other hlive hb ha'
    exact ⟨d, hd.congr hd.mem (hsame d hd.mem hne)⟩

theorem Ok.release (hok : w.Ok bs) {pre post : List Allocation} (hlive : w.live = pre ++ a :: post) :
    ∃ bs', Ok ⟨w.heap.kfree (some a.ptr), w.ranges, pre ++ post⟩ bs' := by
  obtain ⟨b, hb⟩ := hok.live a (by rw [hlive]; simp)
  obtain ⟨front, back, rfl⟩ := append_of_mem hb.mem
  obtain ⟨bs', hheap, hrest⟩ := hok.heap.kfree hb.used
  rw [← hb.ptr] at hheap hrest
  refine ⟨bs', hheap, fun a' ha' => ?_, (nodup_cons.mp (nodup_of_live hlive hok.distinct)).2⟩
  obtain ⟨d, hd, hne⟩ := hok.other hlive hb ha'
  have hdmem := hd.mem
  rw [mem_append, mem_cons] at hdmem
  obtain ⟨hmem', hsame⟩ := hrest d (by tauto) hd.used
  exact ⟨d, hd.congr hmem' hsame⟩

theorem Holds.eq_bytesAt {front back : List (BitVec 8)} (h : Holds m bs ⟨p, front ++ back⟩ b) :
    back = bytesAt m (p + front.length) back.length := by
  apply ext_getElem (by rw [length_bytesAt])
  intro k hk _
  have hbyte := h.bytes (front.length + k) (by dsimp only; rw [length_append]; omega)
  rw [getElem_append_right (by omega)] at hbyte
  simp only [Nat.add_sub_cancel_left, ← Nat.add_assoc] at hbyte
  simp [bytesAt, hbyte]

theorem Ok.krealloc (hok : w.Ok bs) {pmm : Nat → Option Nat} {pre post : List Allocation}
    (hlive : w.live = pre ++ a :: post) (hsize : size.toNat ≤ 2 ^ 62)
    (hfresh : ∀ s ∈ regranted pmm w.heap a.ptr size, Heap.Fresh w.ranges s)
    (heq : w.heap.krealloc pmm (some a.ptr) size = some (h', some p)) :
    ∃ bs', Ok ⟨h', w.ranges ++ regranted pmm w.heap a.ptr size,
      ⟨p, a.bytes.take size.toNat ++ bytesAt h'.mem (p + a.bytes.length) (size.toNat - a.bytes.length)⟩ ::
        (pre ++ post)⟩ bs' := by
  obtain ⟨b, hb⟩ := hok.live a (by rw [hlive]; simp)
  have hbsize := (hok.heap.listed.described b hb.mem).size
  have hptr := hb.ptr
  have hroom := hb.room
  have hblock : a.ptr - 32 = b.addr := by omega
  unfold Heap.krealloc at heq
  dsimp only at heq
  by_cases hzero : size = 0
  · rw [if_pos hzero] at heq
    cases heq
  rw [if_neg hzero, hblock] at heq
  unfold regranted at hfresh ⊢
  rw [hblock] at hfresh ⊢
  by_cases hfits : (readHeader w.heap.mem b.addr).size ≥ size
  · -- the block has room
    rw [if_pos hfits] at heq hfresh ⊢
    obtain ⟨rfl, hp⟩ := Prod.mk.inj (some.inj heq)
    obtain rfl : a.ptr = p := some.inj hp
    have hle : size.toNat ≤ b.size := by
      rw [← hbsize]
      exact BitVec.le_def.mp hfits
    refine ⟨bs, ?_⟩
    rw [append_nil]
    refine hok.overwrite hlive hb (fun _ _ => rfl) _ ?_ fun k hk => ?_
    · simp only [length_append, length_take, length_bytesAt]
      omega
    · by_cases hold : k < (a.bytes.take size.toNat).length
      · rw [getElem_append_left hold, getElem_take]
        rw [length_take] at hold
        exact hb.bytes k (by omega)
      · rw [getElem_append_right (by omega)]
        rw [getElem_bytesAt]
        rw [length_append, length_bytesAt] at hk
        rw [length_take] at hold hk ⊢
        congr 1
        omega
  · -- the block is copied
    rw [if_neg hfits] at heq hfresh ⊢
    have hlt : b.size < size.toNat := by
      rw [← hbsize]
      exact BitVec.lt_def.mp (BitVec.not_le.mp hfits)
    have htake : a.bytes.take size.toNat = a.bytes := take_of_length_le (by omega)
    cases hk : w.heap.kmalloc pmm size with
    | none =>
      rw [hk] at heq
      cases heq
    | some r =>
      obtain ⟨h1, ptr⟩ := r
      rw [hk] at heq
      rcases hok.heap.kmalloc hsize hfresh hk with ⟨h, -, -⟩ | ⟨-, q, bs1, rfl, hok1, hgot⟩
      · exact absurd h hzero
      obtain ⟨rfl, hq⟩ := Prod.mk.inj (some.inj heq)
      obtain rfl : q = p := some.inj hq
      -- the new allocation beside the old one
      have hnew := hok.allocate hok1 hgot (bytesAt h1.mem q size.toNat) (by rw [length_bytesAt])
        fun k hk => by rw [getElem_bytesAt]
      have hlive1 : (⟨q, bytesAt h1.mem q size.toNat⟩ :: w.live : List Allocation) =
          [] ++ ⟨q, bytesAt h1.mem q size.toNat⟩ :: w.live := rfl
      obtain ⟨c, hc⟩ := hnew.live ⟨q, bytesAt h1.mem q size.toNat⟩ mem_cons_self
      obtain ⟨hb1, hsame⟩ := hgot.others b hb.mem hb.used
      have hold : Holds h1.mem bs1 a b := hb.congr hb1 hsame
      have hcroom := hc.room
      have hcptr := hc.ptr
      dsimp only at hcroom hcptr
      rw [length_bytesAt] at hcroom
      have hsize1 := (hok1.listed.described b hb1).size
      -- the copy
      set m2 := h1.mem.memcpy q a.ptr b.size with hm2
      have hcopied := hnew.overwrite hlive1 hc (m := m2) (fun x hx => Mem.memcpy_outside _ _ _ _ (by omega))
        (a.bytes ++ bytesAt m2 (q + a.bytes.length) (size.toNat - a.bytes.length)) (by
          rw [length_append, length_bytesAt]
          omega) fun k hk => by
        by_cases hkold : k < a.bytes.length
        · rw [getElem_append_left hkold, hm2, Mem.memcpy_inside _ _ _ _ (by omega)]
          exact hold.bytes k hkold
        · rw [getElem_append_right (by omega), getElem_bytesAt]
          dsimp only
          congr 1
          omega
      -- and the old block freed
      have hlive2 : (⟨q, a.bytes ++ bytesAt m2 (q + a.bytes.length) (size.toNat - a.bytes.length)⟩ ::
          ([] ++ w.live) : List Allocation) =
          (⟨q, a.bytes ++ bytesAt m2 (q + a.bytes.length) (size.toNat - a.bytes.length)⟩ :: pre) ++ a :: post := by
        rw [hlive]
        rfl
      obtain ⟨bs', hdone⟩ := hcopied.release hlive2
      refine ⟨bs', ?_⟩
      dsimp only
      rw [htake, hsize1]
      obtain ⟨d, hd⟩ := hdone.live ⟨q, _⟩ mem_cons_self
      have htail := hd.eq_bytesAt
      rw [length_bytesAt] at htail
      rw [← htail]
      exact hdone

/-! ## Every run -/

theorem Ok.allocate_shown (hok : w.Ok bs) {pmm : Nat → Option Nat} (hsize : size.toNat ≤ 2 ^ 62)
    (hfresh : ∀ s ∈ w.heap.granted pmm size, Heap.Fresh w.ranges s) (heq : w.heap.kmalloc pmm size = some (h', some p)) :
    ∃ bs', Ok ⟨h', w.ranges ++ w.heap.granted pmm size, ⟨p, bytesAt h'.mem p size.toNat⟩ :: w.live⟩ bs' := by
  rcases hok.heap.kmalloc hsize hfresh heq with ⟨-, hp, -⟩ | ⟨-, q, bs', hp, hok', hgot⟩
  · cases hp
  · obtain rfl : p = q := some.inj hp
    exact ⟨bs', hok.allocate hok' hgot _ (by rw [length_bytesAt]) fun k hk => by rw [getElem_bytesAt]⟩

theorem toNat_mul_of_le {num : BitVec 64} (h : num.toNat * size.toNat ≤ 2 ^ 62) :
    (num * size).toNat = num.toNat * size.toNat := by
  rw [BitVec.toNat_mul, Nat.mod_eq_of_lt (by omega)]

theorem Step.keeps {w' : HeapWorld} (hok : w.Ok bs) (hstep : Step w w') : ∃ bs', w'.Ok bs' := by
  cases hstep with
  | heapInit pmm size hsize hfresh =>
    unfold expanded at hfresh ⊢
    cases hpmm : pmm (Heap.pagesFor size) with
    | none =>
      rw [Heap.Ok.heapExpand_none hpmm]
      rw [append_nil]
      exact ⟨bs, hok⟩
    | some virt =>
      rw [hpmm] at hfresh
      obtain ⟨hheap, hsame⟩ := hok.heap.heapExpand_some (by omega) hpmm (hfresh _ (mem_singleton_self _))
      refine ⟨_, hheap, fun a ha => ?_, hok.distinct⟩
      obtain ⟨b, hb⟩ := hok.live a ha
      exact ⟨b, hb.congr (mem_append_left _ hb.mem) (hsame b hb.mem)⟩
  | kmalloc pmm size h' p hsize hfresh heq => exact hok.allocate_shown hsize hfresh heq
  | kmallocNull pmm size h' heq =>
    rw [Heap.kmalloc_null heq]
    exact ⟨bs, hok⟩
  | kcalloc pmm num size h' p hsize hfresh heq =>
    have hmul := toNat_mul_of_le hsize
    unfold Heap.kcalloc at heq
    split at heq
    · cases heq
    · rcases hok.heap.kzalloc (by omega) hfresh heq with ⟨-, hp, -⟩ | ⟨-, q, bs', hp, hok', hgot, hzero⟩
      · cases hp
      · obtain rfl : p = q := some.inj hp
        rw [hmul] at hgot hzero
        refine ⟨bs', hok.allocate hok' hgot _ (by rw [length_replicate]) fun k hk => ?_⟩
        rw [getElem_replicate]
        exact hzero k (by rwa [length_replicate] at hk)
  | kcallocNull pmm num size h' heq =>
    unfold Heap.kcalloc at heq
    split at heq
    · cases heq
      exact ⟨bs, hok⟩
    · rw [Heap.kzalloc_null heq]
      exact ⟨bs, hok⟩
  | kfreeNull => exact ⟨bs, hok⟩
  | kfree pre a post hlive => exact hok.release hlive
  | kreallocNone pmm size h' p hsize hfresh heq => exact hok.allocate_shown hsize hfresh heq
  | kreallocFree pmm pre a post h' ptr hlive heq =>
    obtain ⟨rfl, -⟩ := Prod.mk.inj (some.inj heq)
    exact hok.release hlive
  | krealloc pmm pre a post size h' p hlive hsize hfresh heq => exact hok.krealloc hlive hsize hfresh heq
  | store pre a post k v hlive hk =>
    obtain ⟨b, hb⟩ := hok.live a (by rw [hlive]; simp)
    have hptr := hb.ptr
    have hroom := hb.room
    refine ⟨bs, hok.overwrite hlive hb (fun x hx => ?_) _ ?_ fun j hj => ?_⟩
    · exact Function.update_of_ne (by omega) ..
    · rw [length_set]
      exact hroom
    · rw [length_set] at hj
      rw [getElem_set]
      by_cases hjk : k = j
      · rw [if_pos hjk, hjk, Function.update_self]
      · rw [if_neg hjk, Function.update_of_ne (by omega)]
        exact hb.bytes j hj

theorem start_ok (m : Mem) : (start m).Ok [] := by
  refine ⟨⟨rfl, ⟨trivial, fun b hb => absurd hb not_mem_nil⟩, ⟨.nil, ?_, fun x => .rfl⟩, rfl, rfl⟩,
    fun a ha => absurd ha not_mem_nil, nodup_nil⟩
  exact fun b hb => absurd hb not_mem_nil

theorem run_ok (hrun : ReflTransGen Step (start m) w) : ∃ bs, w.Ok bs := by
  have hkeep : ∀ w w' : HeapWorld, (∃ bs, w.Ok bs) → Step w w' → ∃ bs, w'.Ok bs :=
    fun _ _ ⟨_, hok⟩ hstep => hstep.keeps hok
  exact invariant_of_step hkeep ⟨[], start_ok m⟩ hrun

/-- **The kernel heap.** After any sequence of operations the heap is a well-formed list of blocks that fill the ranges
it got, the counters are right, every live allocation is aligned, in a block that is large enough, and holds what its
owner put there; and `krealloc` keeps what fits in the new size. -/
theorem kernel_heap (m : Mem) (w : HeapWorld) (hrun : ReflTransGen Step (start m) w) :
    (∃ bs, w.Ok bs ∧ ∀ a ∈ w.live, 16 ∣ a.ptr) ∧
    ∀ pmm, ∀ a ∈ w.live, ∀ size h' p, size.toNat ≤ 2 ^ 62 →
      (∀ s ∈ regranted pmm w.heap a.ptr size, Heap.Fresh w.ranges s) →
      w.heap.krealloc pmm (some a.ptr) size = some (h', some p) →
      ∀ k (hk : k < a.bytes.length), k < size.toNat → h'.mem (p + k) = a.bytes[k] := by
  obtain ⟨bs, hok⟩ := run_ok hrun
  refine ⟨⟨bs, hok, fun a ha => ?_⟩, fun pmm a ha size h' p hsize hfresh heq k hk hnew => ?_⟩
  · obtain ⟨b, hb⟩ := hok.live a ha
    have hfits := hok.heap.tiled.fits b hb.mem
    rw [hb.ptr]
    have := hfits.addr
    omega
  · obtain ⟨pre, post, hlive⟩ := append_of_mem ha
    obtain ⟨bs', hdone⟩ := hok.krealloc hlive hsize hfresh heq
    obtain ⟨d, hd⟩ := hdone.live _ mem_cons_self
    have hbyte := hd.bytes k (by
      rw [length_append, length_take]
      omega)
    rw [hbyte, getElem_append_left (by rw [length_take]; omega), getElem_take]

def onePage : Nat → Option Nat := fun _ => some 4096

theorem pagesFor_onePage : pagesFor 4064 = 1 := by decide

theorem exists_allocation : ∃ w : HeapWorld, ReflTransGen Step (start fun _ => 0) w ∧ w.live.length = 1 := by
  have hfresh : Heap.Fresh [] ⟨4096, pagesFor 4064 * 4096⟩ := by
    rw [pagesFor_onePage]
    exact ⟨by decide, by decide, by decide, fun r hr => absurd hr not_mem_nil⟩
  have hinit : Step (start fun _ => 0) ⟨(empty fun _ => 0).heapExpand onePage 4064,
      [] ++ expanded onePage 4064, []⟩ := by
    refine .heapInit _ onePage 4064 (by decide) fun s hs => ?_
    rw [mem_singleton.mp hs]
    exact hfresh
  have hpmm : onePage (pagesFor 4064) = some 4096 := rfl
  obtain ⟨hok, -⟩ := (start_ok fun _ => 0).heap.heapExpand_some (by decide) hpmm hfresh
  -- the free block of the page serves the request
  have hle : (alignUp 16 16).toNat ≤ pagesFor 4064 * 4096 - 32 := by
    rw [pagesFor_onePage]
    decide
  obtain ⟨hnone, h', p, hkm⟩ := hok.kmalloc_of_free mem_cons_self rfl (by decide) hle onePage
  refine ⟨_, (ReflTransGen.single hinit).tail (.kmalloc _ onePage 16 h' p (by decide) (fun s hs => ?_) hkm), rfl⟩
  have hs' : s ∈ ([] : List Span) := hnone ▸ hs
  exact absurd hs' not_mem_nil

/-- The theorem at that world. -/
theorem kernel_heap_allocation : ∃ w : HeapWorld, w.live.length = 1 ∧ (∃ bs, w.Ok bs ∧ ∀ a ∈ w.live, 16 ∣ a.ptr) := by
  obtain ⟨w, hrun, hlen⟩ := exists_allocation
  exact ⟨w, hlen, (kernel_heap _ w hrun).1⟩

end HeapWorld

end SzpontOS.Mm
