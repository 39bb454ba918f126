import SzpontOS.Mm.HeapOps

/-!
# Allocation from the kernel heap

`kmalloc` and what is built on it. `heap_expand` adds one free block for the pages it gets; a request takes the
first free block that is large enough, before or after that. The sizes are such that nothing overflows in 64 bits:
the request, rounded up to the alignment, is doubled and rounded up to pages.
-/

namespace SzpontOS.Mm

open SzpontOS.Lib HeapBlock Function BitVec
open List hiding span

variable {H : Nat → HeapHeader} {bs pre post : List HeapBlock} {b c : HeapBlock} {ranges : List Span}

variable {virt curr : Nat}

namespace Heap

variable {h : Heap} {pmm : Nat → Option Nat} {size : BitVec 64}

/-! ## Sizes -/

theorem toNat_add_sub_one {a : BitVec 64} (ha : 0 < a.toNat) (hsize : size.toNat + a.toNat ≤ 2 ^ 64) :
    (size + a - 1).toNat = size.toNat + a.toNat - 1 := by
  have h1 : (1 : BitVec 64).toNat = 1 := rfl
  rw [toNat_sub, toNat_add, h1]
  omega

theorem toNat_alignUp_16 (hsize : size.toNat ≤ 2 ^ 62) : (alignUp size 16).toNat = (size.toNat + 15) / 16 * 16 := by
  have hadd : (size + 16 - 1).toNat = size.toNat + 15 := toNat_add_sub_one (by decide) (by simp; omega)
  rw [alignUp, Bits.toNat_and_field _ _ 4 60 (by decide), hadd]
  omega

theorem toNat_alignUp_4096 (hsize : size.toNat ≤ 2 ^ 63 + 64) :
    (alignUp size 4096).toNat = (size.toNat + 4095) / 4096 * 4096 := by
  have hadd : (size + 4096 - 1).toNat = size.toNat + 4095 := toNat_add_sub_one (by decide) (by simp; omega)
  rw [alignUp, Bits.toNat_and_field _ _ 12 52 (by decide), hadd]
  omega

/-- The number of pages that `heap_expand(size)` asks for. -/
def pagesFor (size : BitVec 64) : Nat := (alignUp (size + 32) 4096 / 4096).toNat

theorem toNat_expand (hsize : size.toNat ≤ 2 ^ 63) : (alignUp (size + 32) 4096).toNat = pagesFor size * 4096 ∧
    size.toNat + 32 ≤ pagesFor size * 4096 := by
  have h32 : (32 : BitVec 64).toNat = 32 := rfl
  have hadd : (size + 32).toNat = size.toNat + 32 := by
    rw [toNat_add, h32]
    omega
  have hround := toNat_alignUp_4096 (by rw [hadd]; omega)
  have h4096 : (4096 : BitVec 64).toNat = 4096 := rfl
  unfold pagesFor
  rw [toNat_udiv, h4096, hround, hadd]
  omega

/-! ## Expanding the heap -/

/-- A range that the page allocator may return: page-aligned, in the address space, and apart from all ranges
that are in use. -/
structure Fresh (ranges : List Span) (s : Span) : Prop where
  aligned : 4096 ∣ s.start
  pos : 0 < s.start
  stop : s.stop ≤ 2 ^ 64
  apart : ∀ r ∈ ranges, r.Apart s

theorem tiled_append (htile : Tiled bs ranges) {n : Nat} (hn : 32 + n = 4096 * ((32 + n) / 4096))
    (hfresh : Fresh ranges ⟨virt, 32 + n⟩) : Tiled (bs ++ [⟨virt, n, true⟩]) (ranges ++ [⟨virt, 32 + n⟩]) := by
  obtain ⟨h1, h2, h3, h4⟩ := hfresh
  unfold Span.stop at h3
  dsimp only at h1 h2 h3
  refine ⟨?_, fun d hd => ?_, fun x => ?_⟩
  · rw [map_append, pairwise_append]
    refine ⟨htile.apart, pairwise_singleton _ _, fun s hs t ht x hx htx => ?_⟩
    rw [map_singleton, mem_singleton] at ht
    obtain ⟨r, hr, hrx⟩ := (htile.cover x).mp ⟨s, hs, hx⟩
    rw [ht] at htx
    exact h4 r hr x hrx htx
  · rcases mem_append.mp hd with hd | hd
    · exact htile.fits d hd
    · rw [mem_singleton.mp hd]
      exact ⟨by dsimp only; omega, by dsimp only; omega, h2, by dsimp only; omega⟩
  · simp only [map_append, Span.covered_append, htile.cover x, map_cons, map_nil, span]

/-- The header that `heap_expand` writes. -/
def freshHeader (size : BitVec 64) : HeapHeader := ⟨heapMagicFree, 1, size, 0, 0⟩

/-- The headers after the block at `virt` is appended behind `last`. -/
def appendHeaders (H : Nat → HeapHeader) (last virt : Nat) (size : BitVec 64) : Nat → HeapHeader :=
  let H1 := Function.update H virt (freshHeader size)
  let H2 := assignHeader H1 last fun b => { b with next := BitVec.ofNat 64 virt }
  assignHeader H2 virt fun b => { b with prev := BitVec.ofNat 64 last }

theorem listed_append (hlist : Listed H (pre ++ [b])) (hnd : ((pre ++ [b]).map addr).Nodup)
    (hnew : virt ∉ (pre ++ [b]).map addr) (hvirt : 0 < virt ∧ virt < 2 ^ 64) (haddr : 0 < b.addr ∧ b.addr < 2 ^ 64) :
    Listed (appendHeaders H b.addr virt size) (pre ++ [b] ++ [⟨virt, size.toNat, true⟩]) := by
  have hne : virt ≠ b.addr := fun heq => hnew (by simp [heq])
  have hlink : linksOf (appendHeaders H b.addr virt size) = (linksOf H).insert virt (some b.addr) none := by
    unfold appendHeaders
    rw [linksOf_assign_prev, linksOf_assign_next, linksOf_update, pointerOf_ofNat hvirt.1 hvirt.2,
      pointerOf_ofNat haddr.1 haddr.2]
    unfold Links.insert freshHeader
    rw [Links.setPrev_none]
    -- `prev` of the new block is set twice
    simp only [Links.setPrev, Links.setNext, Links.mk.injEq, pointerOf_zero, true_and]
    funext x
    by_cases hx : some virt = some x
    · rw [if_pos hx, if_pos hx]
    · rw [if_neg hx, if_neg hx, if_neg hx]
  refine hlist.of_links ?_ fun d hd => ?_
  · have hchain := hlist.links
    have happend : (pre ++ [b]).map addr = (pre ++ [b]).map addr ++ [] := (append_nil _).symm
    rw [happend] at hchain hnd hnew
    have hins := hchain.insert hnd hnew (fun _ _ => by simp) fun _ _ => by simp
    rw [hlink]
    simpa using hins
  · rcases mem_append.mp hd with hd | hd
    · left
      have hdv : d.addr ≠ virt := fun heq => hnew (heq ▸ mem_map_of_mem hd)
      unfold appendHeaders
      rw [assignHeader_of_ne _ hdv]
      by_cases hdb : d.addr = b.addr
      · rw [hdb, assignHeader_self, update_of_ne hne.symm]
        exact ⟨hd, rfl, rfl, rfl⟩
      · rw [assignHeader_of_ne _ hdb, update_of_ne hdv]
        exact ⟨hd, rfl, rfl, rfl⟩
    · right
      rw [mem_singleton.mp hd]
      unfold appendHeaders
      rw [assignHeader_self, assignHeader_of_ne _ hne, update_self]
      exact ⟨rfl, rfl, rfl⟩

theorem listed_singleton (H : Nat → HeapHeader) (virt : Nat) :
    Listed (update H virt (freshHeader size)) [⟨virt, size.toNat, true⟩] := by
  refine ⟨?_, fun d hd => ?_⟩
  · rw [linksOf_update]
    exact ⟨if_pos rfl, if_pos rfl, trivial⟩
  · rw [mem_singleton.mp hd, update_self]
    exact ⟨rfl, rfl, rfl⟩

theorem Ok.heapExpand_none (hpmm : pmm (pagesFor size) = none) : h.heapExpand pmm size = h := by
  unfold pagesFor at hpmm
  unfold heapExpand
  simp only [hpmm]

theorem linkLast_spec {n : BitVec 64} {addrs : List Nat} {m : Mem} (hhead : h.head = (bs.map addr).head?)
    (hlist : Listed H bs) (hnd : (bs.map addr).Nodup) (hlength : bs.length ≤ walkFuel) (hnew : virt ∉ bs.map addr)
    (hfits : ∀ d ∈ bs, d.Fits) (hvirt : 0 < virt ∧ virt < 2 ^ 64) (hspace : Spaced addrs)
    (haddrs : ∀ a, a = virt ∨ a ∈ bs.map addr → a ∈ addrs)
    (hedit : Edited addrs m h.mem (update H virt (freshHeader n))) :
    ∃ m' H', Edited addrs m m' H' ∧ Listed H' (bs ++ [⟨virt, n.toNat, true⟩]) ∧
      h.linkLast virt = { h with mem := m', head := (bs.map addr).head?.or (some virt) } := by
  unfold linkLast
  rcases eq_nil_or_concat' bs with rfl | ⟨pre, b, rfl⟩
  · refine ⟨h.mem, _, hedit, listed_singleton H virt, ?_⟩
    simp only [hhead, map_nil, head?_nil]
    rfl
  · have hother : ∀ d ∈ pre ++ [b], readHeader h.mem d.addr = H d.addr := by
      intro d hd
      have hmem : d.addr ∈ (pre ++ [b]).map addr := mem_map_of_mem hd
      have hne : d.addr ≠ virt := fun heq => hnew (heq ▸ hmem)
      rw [hedit.headers _ (haddrs _ (.inr hmem)), update_of_ne hne]
    have hchain := (hlist.congr hother).links
    have hwalk : h.walk (fun x => x.next == 0) = some b.addr := by
      unfold walk
      rw [hhead, Links.find_chain hchain (by rw [length_map]; exact hlength)]
      have htest : (fun a => (readHeader h.mem a).next == 0) = fun a => (linksOf (readHeader h.mem)).next a == none := by
        funext a
        rw [Bool.eq_iff_iff, beq_iff_eq, beq_iff_eq]
        exact pointerOf_eq_none.symm
      rw [htest, Links.find?_last hchain]
      simp
    have hb : b.addr ∈ addrs := haddrs _ (.inr (by simp))
    obtain ⟨-, -, hpos, hstop⟩ := hfits b (by simp)
    have hlink := (hedit.assign hspace hb fun x => { x with next := BitVec.ofNat 64 virt }).assign hspace
      (haddrs virt (.inl rfl)) fun x => { x with prev := BitVec.ofNat 64 b.addr }
    refine ⟨_, _, hlink, listed_append hlist hnd hnew hvirt ⟨hpos, by omega⟩, ?_⟩
    cases hfst : ((pre ++ [b]).map addr).head? with
    | none => simp at hfst
    | some first =>
      simp only [hhead, hfst, hwalk]
      rfl

/-- **`heap_expand`** appends a free block for the pages it gets. -/
theorem Ok.heapExpand_some (hok : h.Ok bs ranges) (hsize : size.toNat ≤ 2 ^ 63)
    (hpmm : pmm (pagesFor size) = some virt) (hfresh : Fresh ranges ⟨virt, pagesFor size * 4096⟩) :
    (h.heapExpand pmm size).Ok (bs ++ [⟨virt, pagesFor size * 4096 - 32, true⟩])
      (ranges ++ [⟨virt, pagesFor size * 4096⟩]) ∧ ∀ d ∈ bs, SameData h.mem (h.heapExpand pmm size).mem d := by
  obtain ⟨hround, hroom⟩ := toNat_expand hsize
  set bytes := alignUp (size + 32) 4096 with hbyte
  have hdata : (bytes - 32).toNat = pagesFor size * 4096 - 32 := by
    have h32 : (32 : BitVec 64).toNat = 32 := rfl
    rw [toNat_sub_of_le (by rw [le_def, h32, hround]; omega), h32, hround]
  have htile : Tiled (bs ++ [⟨virt, (bytes - 32).toNat, true⟩]) (ranges ++ [⟨virt, pagesFor size * 4096⟩]) := by
    have hlen : 32 + (bytes - 32).toNat = pagesFor size * 4096 := by omega
    rw [← hlen] at hfresh ⊢
    exact tiled_append hok.tiled (by omega) hfresh
  rw [← hdata]
  have hspace := htile.spaced
  have hnd := htile.nodup
  have hvirt : virt ∈ (bs ++ [(⟨virt, (bytes - 32).toNat, true⟩ : HeapBlock)]).map addr := by simp
  have hwrite := (Edited.refl _ h.mem).write hspace hvirt (freshHeader (bytes - 32))
  -- it remains to find the memory and the head; the rest is the same for an empty heap and one with blocks
  suffices hsuff : ∃ m' H', Edited ((bs ++ [(⟨virt, (bytes - 32).toNat, true⟩ : HeapBlock)]).map addr) h.mem m' H' ∧
      Listed H' (bs ++ [⟨virt, (bytes - 32).toNat, true⟩]) ∧ h.heapExpand pmm size =
        ⟨m', (bs.map addr).head?.or (some virt), h.allocated, h.total + bytes⟩ by
    obtain ⟨m', H', hedit, hlist, heq⟩ := hsuff
    rw [heq]
    refine ⟨⟨?_, hedit.listed hlist fun d hd => mem_map_of_mem hd, htile, ?_, ?_⟩, fun d hd x hlow hhigh => ?_⟩
    · rw [map_append, head?_append]
      rfl
    · have hle := htile.total_le
      rw [map_append, Span.total_append, ← hok.total] at hle ⊢
      have hone : Span.total ([(⟨virt, (bytes - 32).toNat, true⟩ : HeapBlock)].map span) = 32 + (bytes - 32).toNat := rfl
      rw [toNat_add, hround]
      omega
    · rw [hok.allocated, allocatedBytes_append]
      rfl
    · exact hedit.frame x (htile.data_outside (mem_append_left _ hd) hlow hhigh)
  have hexpand : h.heapExpand pmm size = linkLast { h with
      mem := writeHeader h.mem virt (freshHeader (bytes - 32))
      total := h.total + bytes } virt := by
    unfold pagesFor at hpmm
    unfold heapExpand
    simp only [hpmm]
    rfl
  have hnew : virt ∉ bs.map addr := by
    rw [map_append, nodup_append] at hnd
    exact fun hmem => hnd.2.2 virt hmem virt (by simp) rfl
  have hstop := hfresh.stop
  unfold Span.stop at hstop
  dsimp only at hstop
  have haddrs : ∀ a, a = virt ∨ a ∈ bs.map addr →
      a ∈ (bs ++ [(⟨virt, (bytes - 32).toNat, true⟩ : HeapBlock)]).map addr := by
    rintro a (rfl | ha)
    · exact hvirt
    · rw [map_append]
      exact mem_append_left _ ha
  rw [hexpand]
  exact linkLast_spec hok.head hok.listed hok.tiled.nodup hok.length_le hnew hok.tiled.fits ⟨hfresh.pos, by omega⟩
    hspace haddrs hwrite

/-! ## `kmalloc` -/

theorem Ok.firstFit_some (hok : h.Ok bs ranges) (hfit : h.firstFit size = some curr) :
    ∃ b ∈ bs, b.addr = curr ∧ b.free = true ∧ size.toNat ≤ b.size := by
  unfold firstFit at hfit
  rw [hok.walk_eq] at hfit
  have htest := find?_some hfit
  obtain ⟨b, hb, rfl⟩ := mem_map.mp (mem_of_find?_eq_some hfit)
  simp only [Bool.and_eq_true, bne_iff_ne, decide_eq_true_eq] at htest
  refine ⟨b, hb, rfl, free_of_isFree hok.listed hb htest.1, ?_⟩
  rw [← (hok.listed.described b hb).size]
  exact le_def.mp htest.2

theorem Ok.firstFit_isSome (hok : h.Ok bs ranges) (hb : b ∈ bs) (hfree : b.free = true) (hle : size.toNat ≤ b.size) :
    (h.firstFit size).isSome := by
  unfold firstFit
  rw [hok.walk_eq, find?_isSome]
  refine ⟨b.addr, mem_map_of_mem hb, ?_⟩
  obtain ⟨-, hisFree, hsize⟩ := hok.listed.described b hb
  rw [hfree] at hisFree
  simp only [Bool.and_eq_true, bne_iff_ne, decide_eq_true_eq, hisFree, if_true, ge_iff_le, le_def, hsize]
  exact ⟨by decide, hle⟩

/-- What the page allocator gives during `kmalloc(size)`. -/
def granted (pmm : Nat → Option Nat) (h : Heap) (size : BitVec 64) : List Span :=
  if size = 0 ∨ (h.firstFit (alignUp size 16)).isSome then []
  else
    match pmm (pagesFor (alignUp size 16 * 2)) with
    | none => []
    | some virt => [⟨virt, pagesFor (alignUp size 16 * 2) * 4096⟩]

theorem Ok.kmalloc_of_free (hok : h.Ok bs ranges) (hb : b ∈ bs) (hfree : b.free = true) (hzero : size ≠ 0)
    (hle : (alignUp size 16).toNat ≤ b.size) (pmm : Nat → Option Nat) :
    granted pmm h size = [] ∧ ∃ h' p, h.kmalloc pmm size = some (h', some p) := by
  have hfit := hok.firstFit_isSome hb hfree hle
  obtain ⟨curr, hcurr⟩ := Option.isSome_iff_exists.mp hfit
  refine ⟨?_, (h.take curr (alignUp size 16)).1, curr + 32, ?_⟩
  · unfold granted
    rw [if_pos (.inr hfit)]
  · unfold Heap.kmalloc
    rw [if_neg hzero]
    simp only [hcurr]
    rfl

/-- What an allocation leaves of a heap: a new allocation at `ptr`, and all the others. -/
structure Allocated (bs : List HeapBlock) (m : Mem) (bs' : List HeapBlock) (m' : Mem) (ptr size : Nat) : Prop where
  block : ∃ b ∈ bs', b.free = false ∧ ptr = b.addr + 32 ∧ size ≤ b.size ∧ ∀ d ∈ bs, d.free = false → d.addr ≠ b.addr
  others : ∀ d ∈ bs, d.free = false → d ∈ bs' ∧ SameData m m' d

theorem Ok.take_firstFit (hok : h.Ok bs ranges) (hfit : h.firstFit size = some curr) (halign : 16 ∣ size.toNat)
    (hsmall : size.toNat + 48 < 2 ^ 64) :
    ∃ bs', (h.take curr size).1.Ok bs' ranges ∧ (h.take curr size).2 = some (curr + 32) ∧
      Allocated bs h.mem bs' (h.take curr size).1.mem (curr + 32) size.toNat := by
  obtain ⟨b, hb, rfl, hfree, hle⟩ := hok.firstFit_some hfit
  obtain ⟨pre, post, rfl⟩ := append_of_mem hb
  obtain ⟨n, rest, hok', hptr, hn, hrest, hsame⟩ := hok.take hfree halign hsmall hle
  have hother : ∀ d ∈ pre ++ b :: post, d.free = false → d ∈ pre ∨ d ∈ post := by
    intro d hd hused
    rw [mem_append, mem_cons] at hd
    rcases hd with hd | rfl | hd
    · exact .inl hd
    · rw [hfree] at hused
      cases hused
    · exact .inr hd
  refine ⟨_, hok', hptr, ⟨⟨⟨b.addr, n, false⟩, by simp, rfl, rfl, hn, fun d hd hused => ?_⟩, fun d hd hused => ⟨?_, ?_⟩⟩⟩
  · show d.addr ≠ b.addr
    exact addr_ne_of_nodup hok.tiled.nodup (hother d hd hused)
  · rw [mem_append, mem_cons, mem_append]
    rcases hother d hd hused with hd | hd
    · exact .inl hd
    · exact .inr (.inr (.inr hd))
  · exact hsame d (hother d hd hused)

/-- Unless it panics, `kmalloc` takes a block that it finds, before or after the heap is expanded. -/
theorem kmalloc_cases {result : Heap × Option Nat} (heq : kmalloc pmm h size = some result) :
    size = 0 ∧ result = (h, none) ∨ size ≠ 0 ∧ ∃ g curr, g.firstFit (alignUp size 16) = some curr ∧
      result = g.take curr (alignUp size 16) ∧
      (g = h ∨ h.firstFit (alignUp size 16) = none ∧ g = h.heapExpand pmm (alignUp size 16 * 2)) := by
  unfold kmalloc at heq
  by_cases hzero : size = 0
  · rw [if_pos hzero] at heq
    exact .inl ⟨hzero, (Option.some.inj heq).symm⟩
  rw [if_neg hzero] at heq
  dsimp only at heq
  split at heq
  · next hfit => exact .inr ⟨hzero, h, _, hfit, (Option.some.inj heq).symm, .inl rfl⟩
  · next hnone =>
    split at heq
    · next hfit => exact .inr ⟨hzero, _, _, hfit, (Option.some.inj heq).symm, .inr ⟨hnone, rfl⟩⟩
    · cases heq

/-- **`kmalloc`.** Unless it panics, it returns null for a request of no bytes, and otherwise a new allocation. -/
theorem Ok.kmalloc (hok : h.Ok bs ranges) (hsize : size.toNat ≤ 2 ^ 62)
    (hfresh : ∀ s ∈ granted pmm h size, Fresh ranges s) {h' : Heap} {ptr : Option Nat}
    (heq : kmalloc pmm h size = some (h', ptr)) :
    (size = 0 ∧ ptr = none ∧ h' = h) ∨ size ≠ 0 ∧ ∃ p bs', ptr = some p ∧ h'.Ok bs' (ranges ++ granted pmm h size) ∧
      Allocated bs h.mem bs' h'.mem p size.toNat := by
  have hround := toNat_alignUp_16 hsize
  rcases kmalloc_cases heq with ⟨hzero, hres⟩ | ⟨hzero, g, curr, hfit, hres, hg⟩
  · exact .inl ⟨hzero, (Prod.mk.inj hres).2, (Prod.mk.inj hres).1⟩
  refine .inr ⟨hzero, ?_⟩
  obtain ⟨rfl, rfl⟩ := Prod.ext_iff.mp hres
  -- what was served before the heap had the new block
  have hdone : ∀ {bs₁ ranges₁}, g.Ok bs₁ ranges₁ → (∀ d ∈ bs, d ∈ bs₁ ∧ SameData h.mem g.mem d) →
      ∃ p bs', (g.take curr (alignUp size 16)).2 = some p ∧ (g.take curr (alignUp size 16)).1.Ok bs' ranges₁ ∧
        Allocated bs h.mem bs' (g.take curr (alignUp size 16)).1.mem p size.toNat := by
    intro bs₁ ranges₁ hok₁ hkept
    obtain ⟨bs', hok', hptr, ⟨b, hb, hused, hp, hle, hne⟩, hrest⟩ := hok₁.take_firstFit hfit (by omega) (by omega)
    refine ⟨_, bs', hptr, hok', ⟨b, hb, hused, hp, by omega, fun d hd => hne d (hkept d hd).1⟩, fun d hd hdused => ?_⟩
    obtain ⟨hmem, hsame⟩ := hrest d (hkept d hd).1 hdused
    exact ⟨hmem, fun x hlow hhigh => (hsame x hlow hhigh).trans ((hkept d hd).2 x hlow hhigh)⟩
  unfold granted at hfresh ⊢
  rcases hg with rfl | ⟨hnone, rfl⟩
  · rw [if_pos (.inr (by rw [hfit]; rfl)), append_nil]
    exact hdone hok fun d hd => ⟨hd, fun _ _ _ => rfl⟩
  · have hgrow : ¬ (size = 0 ∨ (h.firstFit (alignUp size 16)).isSome = true) := by
      rw [hnone]
      exact not_or.mpr ⟨hzero, Bool.false_ne_true⟩
    rw [if_neg hgrow] at hfresh ⊢
    have hdouble : (alignUp size 16 * 2).toNat = 2 * (alignUp size 16).toNat := by
      have h2 : (2 : BitVec 64).toNat = 2 := rfl
      rw [toNat_mul, h2]
      omega
    cases hpmm : pmm (pagesFor (alignUp size 16 * 2)) with
    | none =>
      rw [Ok.heapExpand_none hpmm, hnone] at hfit
      cases hfit
    | some virt =>
      rw [hpmm] at hfresh
      obtain ⟨hok₁, hsame₁⟩ := hok.heapExpand_some (by omega) hpmm (hfresh _ (mem_singleton_self _))
      exact hdone hok₁ fun d hd => ⟨mem_append_left _ hd, hsame₁ d hd⟩

end Heap

end SzpontOS.Mm
