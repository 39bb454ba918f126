import SzpontOS.Mm.Pmm

/-!
# Building the allocator at boot (`pmm_init`)

`pmm_init` sizes the bitmap from the highest usable address, puts it into the first region that can
hold it (usable memory from 1 MiB on, else any usable memory, else bootloader-reclaimable memory),
marks everything used, frees the whole pages of the usable regions, and takes back the bitmap's own
pages and the low megabyte.

The bitmap's size is `ALIGN_UP(g_total_pages / 8, PAGE_SIZE)`: the division rounds down, so when
`g_total_pages / 8` is a multiple of the page size and `g_total_pages` is not a multiple of 8, the
bitmap is up to seven bits short. `pmmInit_booted_iff` says that the boot state is right exactly when
this does not happen.
-/

namespace SzpontOS.Mm

open Pmm List Option

inductive MemmapType
  | usable | reserved | acpiReclaimable | acpiNvs | badMemory | bootloaderReclaimable
  | executableAndModules | framebuffer
  deriving DecidableEq, Repr

structure MemmapEntry where
  base : Nat
  length : Nat
  type : MemmapType
  deriving DecidableEq, Repr

/-- `ALIGN_UP(x, PAGE_SIZE)` in 64 bits. -/
def alignUp (x : Nat) : Nat := (x + 4095) % 2 ^ 64 / 4096 * 4096

/-- `ALIGN_DOWN(x, PAGE_SIZE)`. -/
def alignDown (x : Nat) : Nat := x / 4096 * 4096

/-- `entry->base + entry->length` in 64 bits. -/
def MemmapEntry.top (e : MemmapEntry) : Nat := (e.base + e.length) % 2 ^ 64

def maxStep (m : Nat) (e : MemmapEntry) : Nat :=
  if e.type = .usable ∨ e.type = .bootloaderReclaimable then if e.top > m then e.top else m else m

def maxAddr (entries : List MemmapEntry) : Nat := entries.foldl maxStep 0

def bitmapSize (totalPages : Nat) : Nat := alignUp (totalPages / 8)

/-- One pass over the map: the first region of the given type with room for the bitmap. With `low`
the region is only used from 1 MiB on. -/
def placeBitmap (entries : List MemmapEntry) (type : MemmapType) (low : Bool) (size : Nat) : Option Nat :=
  entries.findSome? fun e =>
    if e.type = type then
      let start := alignUp e.base
      let start := if low ∧ start < 0x100000 then 0x100000 else start
      if e.top > start ∧ e.top - start ≥ size then some start else none
    else none

/-- `if (bitmap_test(p)) { bitmap_clear(p); g_used_pages--; }` -/
def freeBit (p : Pmm) (i : Nat) : Pmm :=
  if p.bitmapTest i then { p.bitmapClear i with usedPages := p.usedPages - 1 } else p

/-- `if (!bitmap_test(p)) { bitmap_set(p); g_used_pages++; }` -/
def takeBit (p : Pmm) (i : Nat) : Pmm :=
  if !p.bitmapTest i then { p.bitmapSet i with usedPages := p.usedPages + 1 } else p

/-- The pages `start_page .. end_page` of a usable entry, cut at the number of pages. -/
def entryPages (totalPages : Nat) (e : MemmapEntry) : List Nat :=
  if e.type = .usable ∧ alignDown e.top > alignUp e.base then
    List.range' (alignUp e.base / 4096) (min (alignDown e.top / 4096) totalPages - alignUp e.base / 4096)
  else []

def freeUsable (p : Pmm) (entries : List MemmapEntry) : Pmm :=
  entries.foldl (fun p e => (entryPages p.totalPages e).foldl freeBit p) p

def takeBitmap (p : Pmm) (bitmapPhys size : Nat) : Pmm :=
  (List.range (size / 4096)).foldl (fun p k =>
    if bitmapPhys / 4096 + k < p.totalPages then takeBit p (bitmapPhys / 4096 + k) else p) p

def takeLow (p : Pmm) : Pmm := (List.range (min (0x100000 / 4096) p.totalPages)).foldl takeBit p

/-- The allocator right after `memset(g_pmm_bitmap, 0xFF, bitmap_size)`: everything is used. -/
def fullBitmap (mem : Nat → BitVec 8) (phys size totalPages : Nat) : Pmm :=
  ⟨fun k => if k < size then 0xFF else mem (phys + k), totalPages, totalPages, 0⟩

/-- What `pmm_init` leaves behind: the allocator, and where its bitmap is. -/
structure PmmBoot where
  pmm : Pmm
  bitmapPhys : Nat
  size : Nat

/-- `pmm_init`; `none` is a kernel panic. `mem` is the physical memory before the bitmap is written. -/
def pmmInit (mem : Nat → BitVec 8) (entries : List MemmapEntry) : Option PmmBoot :=
  if entries.length = 0 then none
  else if maxAddr entries = 0 then none
  else
    let totalPages := maxAddr entries / 4096
    let size := bitmapSize totalPages
    match (placeBitmap entries .usable true size <|> placeBitmap entries .usable false size) <|>
        placeBitmap entries .bootloaderReclaimable true size with
    | none => none
    | some phys =>
      some ⟨takeLow (takeBitmap (freeUsable (fullBitmap mem phys size totalPages) entries) phys size), phys, size⟩

/-! ## The marking loops -/

theorem bitmapTest_freeBit (p : Pmm) (i b : Nat) : (freeBit p i).bitmapTest b = (decide (b ≠ i) && p.bitmapTest b) := by
  rw [freeBit]
  split_ifs with h
  · exact bitmapTest_bitmapClear p i b
  · by_cases hb : b = i
    · simpa [hb] using h
    · simp [hb]

theorem bitmapTest_takeBit (p : Pmm) (i b : Nat) : (takeBit p i).bitmapTest b = (decide (b = i) || p.bitmapTest b) := by
  rw [takeBit]
  split_ifs with h
  · exact bitmapTest_bitmapSet p i b
  · by_cases hb : b = i
    · simpa [hb] using h
    · simp [hb]

/-- What the marking loops keep: the page count, the cursor, and that the counter is right. -/
structure SameShape (p p' : Pmm) : Prop where
  total : p'.totalPages = p.totalPages
  cursor : p'.lastPageIdx = p.lastPageIdx
  count : p.usedPages = p.setBits → p'.usedPages = p'.setBits

theorem SameShape.refl (p : Pmm) : SameShape p p := ⟨rfl, rfl, id⟩

variable {p : Pmm} {i size phys : Nat} {e : MemmapEntry} {entries : List MemmapEntry}

theorem SameShape.trans {q r : Pmm} (h : SameShape p q) (h' : SameShape q r) : SameShape p r :=
  ⟨h'.total.trans h.total, h'.cursor.trans h.cursor, fun hc => h'.count (h.count hc)⟩

theorem freeBit_shape (hi : i < p.totalPages) : SameShape p (freeBit p i) := by
  rw [freeBit]
  split_ifs with h
  · refine ⟨rfl, rfl, fun hc => ?_⟩
    have := setBits_bitmapClear hi h
    show p.usedPages - 1 = (p.bitmapClear i).setBits
    omega
  · exact .refl p

theorem takeBit_shape (hi : i < p.totalPages) : SameShape p (takeBit p i) := by
  rw [takeBit]
  split_ifs with h
  · refine ⟨rfl, rfl, fun hc => ?_⟩
    have := setBits_bitmapSet hi (by simpa using h)
    show p.usedPages + 1 = (p.bitmapSet i).setBits
    omega
  · exact .refl p

theorem foldl_shape {f : Pmm → Nat → Pmm} (hf : ∀ {p i}, i < p.totalPages → SameShape p (f p i)) (l : List Nat) (p : Pmm)
    (hl : ∀ i ∈ l, i < p.totalPages) : SameShape p (l.foldl f p) := by
  induction l generalizing p with
  | nil => exact .refl p
  | cons i l ih =>
    have hi := hf (hl i (by simp))
    refine hi.trans (ih (f p i) fun j hj => ?_)
    rw [hi.total]
    exact hl j (by simp [hj])

theorem bitmapTest_foldl_freeBit (l : List Nat) (p : Pmm) (b : Nat) :
    (l.foldl freeBit p).bitmapTest b = (decide (b ∉ l) && p.bitmapTest b) := by
  induction l generalizing p with
  | nil => simp
  | cons i l ih => simp [ih, bitmapTest_freeBit, Bool.and_assoc, Bool.and_left_comm]

theorem bitmapTest_foldl_takeBit (l : List Nat) (p : Pmm) (b : Nat) :
    (l.foldl takeBit p).bitmapTest b = (decide (b ∈ l) || p.bitmapTest b) := by
  induction l generalizing p with
  | nil => simp
  | cons i l ih => simp [ih, bitmapTest_takeBit, Bool.or_assoc, Bool.or_left_comm]

theorem entryPages_lt {total : Nat} (h : i ∈ entryPages total e) : i < total := by
  rw [entryPages] at h
  split_ifs at h
  · rw [mem_range'_1] at h
    omega
  · simp at h

theorem freeUsable_spec (entries : List MemmapEntry) (p : Pmm) :
    SameShape p (freeUsable p entries) ∧ ∀ b, (freeUsable p entries).bitmapTest b =
      (decide (∀ e ∈ entries, b ∉ entryPages p.totalPages e) && p.bitmapTest b) := by
  induction entries generalizing p with
  | nil => exact ⟨.refl p, fun b => by simp [freeUsable]⟩
  | cons e entries ih =>
    have hfst := foldl_shape freeBit_shape (entryPages p.totalPages e) p fun i hi => entryPages_lt hi
    obtain ⟨hshape, htest⟩ := ih ((entryPages p.totalPages e).foldl freeBit p)
    refine ⟨hfst.trans hshape, fun b => ?_⟩
    have hcons : freeUsable p (e :: entries) = freeUsable ((entryPages p.totalPages e).foldl freeBit p) entries := rfl
    rw [hcons, htest, hfst.total, bitmapTest_foldl_freeBit, ← Bool.and_assoc, ← Bool.decide_and]
    congr 1
    exact decide_eq_decide.mpr (by simp only [forall_mem_cons]; tauto)

theorem takeBitmap_spec (p : Pmm) (phys size : Nat) :
    SameShape p (takeBitmap p phys size) ∧ ∀ b, b < p.totalPages → (takeBitmap p phys size).bitmapTest b =
      (decide (phys / 4096 ≤ b ∧ b < phys / 4096 + size / 4096) || p.bitmapTest b) := by
  rw [takeBitmap]
  generalize size / 4096 = n
  induction n with
  | zero => exact ⟨.refl p, fun b _ => by simp⟩
  | succ n ih =>
    obtain ⟨hshape, htest⟩ := ih
    rw [range_succ, foldl_append]
    simp only [foldl_cons, foldl_nil]
    split_ifs with hlt
    · refine ⟨hshape.trans (takeBit_shape hlt), fun b hb => ?_⟩
      rw [bitmapTest_takeBit, htest b hb, ← Bool.or_assoc, ← Bool.decide_or]
      congr 1
      exact decide_eq_decide.mpr (by omega)
    · rw [hshape.total] at hlt
      refine ⟨hshape, fun b hb => ?_⟩
      rw [htest b hb]
      congr 1
      exact decide_eq_decide.mpr (by omega)

theorem takeLow_spec (p : Pmm) : SameShape p (takeLow p) ∧ ∀ b, b < p.totalPages → (takeLow p).bitmapTest b =
      (decide (b < 256) || p.bitmapTest b) := by
  rw [takeLow]
  refine ⟨foldl_shape takeBit_shape _ p fun i hi => ?_, fun b hb => ?_⟩
  · rw [mem_range] at hi
    omega
  rw [bitmapTest_foldl_takeBit]
  congr 1
  exact decide_eq_decide.mpr (by rw [mem_range]; omega)

/-! ## The boot state -/

/-- Page `i` lies wholly inside a usable region. -/
def WhollyUsable (entries : List MemmapEntry) (i : Nat) : Prop :=
  ∃ e ∈ entries, e.type = .usable ∧ e.base ≤ i * 4096 ∧ (i + 1) * 4096 ≤ e.base + e.length

/-- A usable region with room for `size` bytes from its first whole page on. -/
def HasRoom (entries : List MemmapEntry) (size : Nat) : Prop :=
  ∃ e ∈ entries, e.type = .usable ∧ alignUp e.base < e.base + e.length ∧ alignUp e.base + size ≤ e.base + e.length

/-- Every region ends below the last page of the 64-bit address space. -/
def InAddressSpace (entries : List MemmapEntry) : Prop :=
  ∀ e ∈ entries, e.base + e.length ≤ 2 ^ 64 - 4096

/-- The boot state is right: the bitmap has a bit for every page, the free pages are the whole usable
pages from 1 MiB on that do not hold the bitmap, and the counter counts the used pages. -/
structure Booted (entries : List MemmapEntry) (b : PmmBoot) : Prop where
  covers : b.pmm.totalPages ≤ 8 * b.size
  free_iff : ∀ i, b.pmm.Free i ↔ WhollyUsable entries i ∧ 0x100000 ≤ i * 4096 ∧
    ¬ (b.bitmapPhys ≤ i * 4096 ∧ i * 4096 < b.bitmapPhys + b.size)
  count : b.pmm.usedPages = b.pmm.setBits

theorem alignUp_eq {x : Nat} (h : x ≤ 2 ^ 64 - 4096) : alignUp x = (x + 4095) / 4096 * 4096 := by
  rw [alignUp, Nat.mod_eq_of_lt (by omega)]

theorem MemmapEntry.top_eq (h : e.base + e.length ≤ 2 ^ 64 - 4096) : e.top = e.base + e.length :=
  Nat.mod_eq_of_lt (by omega)

theorem le_maxStep (m : Nat) (e : MemmapEntry) : m ≤ maxStep m e := by
  rw [maxStep]
  split_ifs <;> omega

theorem top_le_maxStep (m : Nat) (h : e.type = .usable) : e.top ≤ maxStep m e := by
  rw [maxStep, if_pos (.inl h)]
  split_ifs <;> omega

theorem le_foldl_maxStep (entries : List MemmapEntry) (m : Nat) : m ≤ entries.foldl maxStep m := by
  induction entries generalizing m with
  | nil => exact le_refl m
  | cons e entries ih => exact (le_maxStep m e).trans (ih _)

theorem top_le_foldl_maxStep (entries : List MemmapEntry) (m : Nat) (he : e ∈ entries) (h : e.type = .usable) :
    e.top ≤ entries.foldl maxStep m := by
  induction entries generalizing m with
  | nil => simp at he
  | cons e' entries ih =>
    rcases mem_cons.mp he with rfl | he
    · exact (top_le_maxStep m h).trans (le_foldl_maxStep entries _)
    · exact ih _ he

theorem top_le_maxAddr (he : e ∈ entries) (huse : e.type = .usable) : e.top ≤ maxAddr entries :=
  top_le_foldl_maxStep entries 0 he huse

theorem foldl_maxStep_lt (entries : List MemmapEntry) (m : Nat) (hm : m < 2 ^ 64) :
    entries.foldl maxStep m < 2 ^ 64 := by
  induction entries generalizing m with
  | nil => exact hm
  | cons e entries ih =>
    refine ih _ ?_
    have : e.top < 2 ^ 64 := Nat.mod_lt _ (by norm_num)
    rw [maxStep]
    split_ifs <;> omega

theorem placeBitmap_aligned {type : MemmapType} {low : Bool} (h : placeBitmap entries type low size = some phys) :
    phys % 4096 = 0 := by
  obtain ⟨e, _, he⟩ := exists_of_findSome?_eq_some h
  have halign : alignUp e.base % 4096 = 0 := by
    rw [alignUp]
    omega
  dsimp only at he
  split_ifs at he <;> simp only [some.injEq] at he <;> omega

theorem placeBitmap_of_room (hmap : InAddressSpace entries) (h : HasRoom entries size) :
    ∃ phys, placeBitmap entries .usable false size = some phys := by
  obtain ⟨e, he, huse, hlt, hroom⟩ := h
  rw [← isSome_iff_exists, placeBitmap, findSome?_isSome_iff]
  refine ⟨e, he, ?_⟩
  rw [if_pos huse, e.top_eq (hmap e he)]
  simp only [Bool.false_eq_true, false_and, ↓reduceIte]
  rw [if_pos (by omega)]
  rfl

theorem mem_entryPages (hmap : InAddressSpace entries) (i : Nat) :
    (∃ e ∈ entries, i ∈ entryPages (maxAddr entries / 4096) e) ↔ WhollyUsable entries i := by
  constructor
  · rintro ⟨e, he, hi⟩
    have hbound := hmap e he
    rw [entryPages] at hi
    split_ifs at hi with h
    · rw [mem_range'_1, alignUp_eq (by omega), e.top_eq hbound, alignDown] at hi
      exact ⟨e, he, h.1, by omega, by omega⟩
    · simp at hi
  · rintro ⟨e, he, huse, hlo, hhi⟩
    have hbound := hmap e he
    have htop := top_le_maxAddr he huse
    refine ⟨e, he, ?_⟩
    rw [e.top_eq hbound] at htop
    rw [entryPages, alignUp_eq (by omega), e.top_eq hbound, alignDown, if_pos ⟨huse, by omega⟩, mem_range'_1]
    omega

theorem pmmInit_eq (mem : Nat → BitVec 8) (entries : List MemmapEntry) (hmap : InAddressSpace entries)
    (hroom : HasRoom entries (bitmapSize (maxAddr entries / 4096))) :
    ∃ phys, phys % 4096 = 0 ∧ pmmInit mem entries = some
      ⟨takeLow (takeBitmap (freeUsable (fullBitmap mem phys (bitmapSize (maxAddr entries / 4096))
        (maxAddr entries / 4096)) entries) phys (bitmapSize (maxAddr entries / 4096))), phys,
        bitmapSize (maxAddr entries / 4096)⟩ := by
  obtain ⟨phys2, hphys2⟩ := placeBitmap_of_room hmap hroom
  obtain ⟨e, he, huse, hlt, _⟩ := hroom
  have htop := top_le_maxAddr he huse
  rw [e.top_eq (hmap e he)] at htop
  have hne : entries.length ≠ 0 := length_pos_of_mem he |>.ne'
  rw [pmmInit, if_neg hne, if_neg (by omega)]
  cases hphys1 : placeBitmap entries .usable true (bitmapSize (maxAddr entries / 4096)) with
  | some phys =>
    refine ⟨phys, placeBitmap_aligned hphys1, ?_⟩
    simp only [hphys1, orElse_eq_orElse, orElse_some]
  | none =>
    refine ⟨phys2, placeBitmap_aligned hphys2, ?_⟩
    simp only [hphys1, hphys2, orElse_eq_orElse, orElse_none, orElse_some]

theorem bitmapTest_fullBitmap (mem : Nat → BitVec 8) (phys size total : Nat) {b : Nat}
    (h : b < 8 * size) : (fullBitmap mem phys size total).bitmapTest b = true := by
  rw [bitmapTest_eq]
  simp only [fullBitmap, show b / 8 < size by omega, ↓reduceIte]
  have hlt : b % 8 < 8 := Nat.mod_lt _ (by norm_num)
  generalize b % 8 = k at hlt
  interval_cases k <;> rfl

theorem setBits_fullBitmap (mem : Nat → BitVec 8) (phys size total : Nat) (h : total ≤ 8 * size) :
    (fullBitmap mem phys size total).setBits = total := by
  rw [setBits, Finset.filter_true_of_mem, Finset.card_range]
  · rfl
  · intro i hi
    rw [Finset.mem_range] at hi
    change i < total at hi
    exact bitmapTest_fullBitmap mem phys size total (by omega)

theorem loops_spec (p : Pmm) (entries : List MemmapEntry) (phys size : Nat) :
    SameShape p (takeLow (takeBitmap (freeUsable p entries) phys size)) ∧
    ∀ b, b < p.totalPages → (takeLow (takeBitmap (freeUsable p entries) phys size)).bitmapTest b =
      (decide (b < 256) || (decide (phys / 4096 ≤ b ∧ b < phys / 4096 + size / 4096) ||
        (decide (∀ e ∈ entries, b ∉ entryPages p.totalPages e) && p.bitmapTest b))) := by
  obtain ⟨hshape1, htest1⟩ := freeUsable_spec entries p
  obtain ⟨hshape2, htest2⟩ := takeBitmap_spec (freeUsable p entries) phys size
  obtain ⟨hshape3, htest3⟩ := takeLow_spec (takeBitmap (freeUsable p entries) phys size)
  refine ⟨(hshape1.trans hshape2).trans hshape3, fun b hb => ?_⟩
  rw [htest3 b (by rw [hshape2.total, hshape1.total]; exact hb), htest2 b (by rw [hshape1.total]; exact hb), htest1]

theorem booted_of_covers (mem : Nat → BitVec 8) (hmap : InAddressSpace entries) (hphys : phys % 4096 = 0)
    (hsize : size % 4096 = 0) (hcov : maxAddr entries / 4096 ≤ 8 * size) :
    Booted entries ⟨takeLow (takeBitmap (freeUsable (fullBitmap mem phys size (maxAddr entries / 4096))
      entries) phys size), phys, size⟩ := by
  obtain ⟨hshape, htest⟩ := loops_spec (fullBitmap mem phys size (maxAddr entries / 4096)) entries phys size
  refine ⟨?_, fun i => ?_, hshape.count (setBits_fullBitmap mem phys size _ hcov).symm⟩
  · exact hshape.total.trans_le hcov
  · have hcut : (phys ≤ i * 4096 ∧ i * 4096 < phys + size) ↔
        phys / 4096 ≤ i ∧ i < phys / 4096 + size / 4096 := by omega
    have htot : (fullBitmap mem phys size (maxAddr entries / 4096)).totalPages = maxAddr entries / 4096 := rfl
    simp only [Free, hshape.total, htot, hcut]
    rw [← mem_entryPages hmap i]
    constructor
    · rintro ⟨hi, hfree⟩
      rw [htest i hi, bitmapTest_fullBitmap mem phys size _ (by omega)] at hfree
      simp only [Bool.and_true, Bool.or_eq_false_iff, decide_eq_false_iff_not] at hfree
      obtain ⟨hlow, hbitmap, huse⟩ := hfree
      push Not at huse
      exact ⟨huse, by omega, hbitmap⟩
    · rintro ⟨huse, hlow, hbitmap⟩
      have hi : i < maxAddr entries / 4096 := by
        obtain ⟨e, _, hmem⟩ := huse
        exact entryPages_lt hmem
      refine ⟨hi, ?_⟩
      rw [htest i hi, bitmapTest_fullBitmap mem phys size _ (by omega)]
      simp only [Bool.and_true, Bool.or_eq_false_iff, decide_eq_false_iff_not]
      refine ⟨by omega, hbitmap, ?_⟩
      push Not
      exact huse

/-- The bitmap covers all pages unless the rounded-down byte count fills its last page exactly. -/
theorem bitmapSize_covers_iff (total : Nat) (h : total ≤ 2 ^ 52) :
    total ≤ 8 * bitmapSize total ↔ ¬ (total / 8 % 4096 = 0 ∧ total % 8 ≠ 0) := by
  rw [bitmapSize, alignUp_eq (by omega)]
  omega

/-- **The boot state.** For every memory map with a usable region that has room for the bitmap,
`pmm_init` builds an allocator, and its state is right exactly when `g_total_pages / 8` is not a
multiple of the page size or `g_total_pages` is a multiple of 8. -/
theorem pmmInit_booted_iff (mem : Nat → BitVec 8) (entries : List MemmapEntry)
    (hmap : InAddressSpace entries) (hroom : HasRoom entries (bitmapSize (maxAddr entries / 4096))) :
    ∃ b, pmmInit mem entries = some b ∧ (Booted entries b ↔
      ¬ (maxAddr entries / 4096 / 8 % 4096 = 0 ∧ maxAddr entries / 4096 % 8 ≠ 0)) := by
  obtain ⟨phys, hphys, heq⟩ := pmmInit_eq mem entries hmap hroom
  have hmax : maxAddr entries < 2 ^ 64 := foldl_maxStep_lt entries 0 (by norm_num)
  refine ⟨_, heq, ?_⟩
  rw [← bitmapSize_covers_iff _ (by omega)]
  constructor
  · intro h
    have hcover := h.covers
    rwa [(loops_spec _ entries phys _).1.total] at hcover
  · refine booted_of_covers mem hmap hphys ?_
    rw [bitmapSize, alignUp]
    omega

/-- 256 MiB of usable memory: a good boot state. -/
theorem pmmInit_booted_256MiB : ∃ b, pmmInit (fun _ => 0) [⟨0, 65536 * 4096, .usable⟩] = some b ∧
    Booted [⟨0, 65536 * 4096, .usable⟩] b := by
  obtain ⟨b, heq, hiff⟩ := pmmInit_booted_iff (fun _ => 0) [⟨0, 65536 * 4096, .usable⟩]
    (by simp [InAddressSpace]) ⟨_, List.mem_singleton_self _, rfl, by decide, by decide⟩
  exact ⟨b, heq, hiff.mpr (by decide)⟩

/-- One page above 128 MiB: the bitmap is one bit short. -/
theorem pmmInit_one_bit_short : ∃ b, pmmInit (fun _ => 0) [⟨0, 32769 * 4096, .usable⟩] = some b ∧
    b.pmm.totalPages = 32769 ∧ b.size = 4096 ∧ ¬ Booted [⟨0, 32769 * 4096, .usable⟩] b := by
  obtain ⟨phys, _, heq⟩ := pmmInit_eq (fun _ => 0) [⟨0, 32769 * 4096, .usable⟩]
    (by simp [InAddressSpace]) ⟨_, List.mem_singleton_self _, rfl, by decide, by decide⟩
  have htotal := (loops_spec (fullBitmap (fun _ => 0) phys 4096 32769) [⟨0, 32769 * 4096, .usable⟩]
    phys 4096).1.total
  refine ⟨_, heq, htotal, rfl, fun h => ?_⟩
  have hcover : _ ≤ 8 * 4096 := htotal.symm.trans_le h.covers
  exact absurd (show 32769 ≤ 8 * 4096 from hcover) (by decide)

end SzpontOS.Mm
