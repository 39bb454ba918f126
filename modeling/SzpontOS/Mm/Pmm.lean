import Mathlib

/-!
# The physical page allocator (`kernel/src/mm/pmm.c`)

The allocator's state is a bitmap with one bit per physical page (set = used), the number of pages, the number of used
pages and the cursor of the next-fit scan. `pmmAllocPage` scans circularly from the cursor, `pmmAllocPages` looks for
the first run of free pages; both return a byte address, and `0` for "no memory".

A state is well-formed (`Pmm.WF`) when page 0 is used, the cursor is at most the page count and every page has a 64-bit
address. Every function below has one lemma that says what it does to the set of used pages.
-/

namespace SzpontOS.Mm

open Function List

/-- The static variables of `pmm.c`. `bitmap k` is the byte `g_pmm_bitmap[k]`; bytes past the end of
the bitmap are whatever memory lies there. -/
structure Pmm where
  bitmap : Nat → BitVec 8
  totalPages : Nat
  usedPages : Nat
  lastPageIdx : Nat

namespace Pmm

def bitmapSet (p : Pmm) (bit : Nat) : Pmm :=
  { p with bitmap := Function.update p.bitmap (bit / 8) (p.bitmap (bit / 8) ||| 1#8 <<< (bit % 8)) }

def bitmapClear (p : Pmm) (bit : Nat) : Pmm :=
  { p with bitmap := Function.update p.bitmap (bit / 8) (p.bitmap (bit / 8) &&& ~~~(1#8 <<< (bit % 8))) }

def bitmapTest (p : Pmm) (bit : Nat) : Bool := p.bitmap (bit / 8) &&& 1#8 <<< (bit % 8) != 0

/-- The index of iteration `i` of the next-fit scan. -/
def scanIdx (p : Pmm) (i : Nat) : Nat := (p.lastPageIdx + i) % 2 ^ 64 % p.totalPages

end Pmm

/-- `pmm_alloc_page`: the first free page at or after the cursor, circularly. -/
def pmmAllocPage (p : Pmm) : Nat × Pmm :=
  match ((List.range p.totalPages).map p.scanIdx).find? fun idx => !p.bitmapTest idx with
  | some idx =>
    (idx * 4096 % 2 ^ 64, { p.bitmapSet idx with usedPages := p.usedPages + 1, lastPageIdx := idx + 1 })
  | none => (0, p)

/-- The scan of `pmm_alloc_pages`: `n` iterations left, at page `i`, with the current run of
`consecutive` free pages from `start`. -/
def runScan (p : Pmm) (count : Nat) : Nat → Nat → Nat → Nat → Option Nat
  | 0, _, _, _ => none
  | n + 1, i, consecutive, start =>
    if !p.bitmapTest i then
      let start := if consecutive = 0 then i else start
      if consecutive + 1 = count then some start
      else runScan p count n (i + 1) (consecutive + 1) start
    else runScan p count n (i + 1) 0 start

/-- The marking loop of `pmm_alloc_pages`. -/
def markRun (p : Pmm) (start count : Nat) : Pmm :=
  (List.range count).foldl (fun p k => p.bitmapSet (start + k)) p

def pmmAllocPages (p : Pmm) (count : Nat) : Nat × Pmm :=
  if count = 0 then (0, p)
  else if count = 1 then pmmAllocPage p
  else match runScan p count p.totalPages 0 0 0 with
    | some start =>
      (start * 4096 % 2 ^ 64, { markRun p start count with usedPages := p.usedPages + count })
    | none => (0, p)

def pmmFreePage (p : Pmm) (physAddr : Nat) : Pmm :=
  if p.totalPages ≤ physAddr / 4096 then p
  else if p.bitmapTest (physAddr / 4096) then
    { p.bitmapClear (physAddr / 4096) with usedPages := p.usedPages - 1 }
  else p

def pmmFreePages (p : Pmm) (physAddr count : Nat) : Pmm :=
  (List.range count).foldl (fun p i => pmmFreePage p ((physAddr + i * 4096) % 2 ^ 64)) p

/-! ## The bitmap -/

variable {p : Pmm} {i a n : Nat}

namespace Pmm

theorem byte_test (x : BitVec 8) (k : Nat) (hk : k < 8) : (x &&& 1#8 <<< k != 0) = x.getLsbD k := by
  interval_cases k <;> decide +revert

theorem bitmapTest_eq (p : Pmm) (bit : Nat) : p.bitmapTest bit = (p.bitmap (bit / 8)).getLsbD (bit % 8) :=
  byte_test _ _ (Nat.mod_lt _ (by norm_num))

theorem getLsbD_one_shift (k j : Nat) (hj : j < 8) : (1#8 <<< k).getLsbD j = decide (j = k) := by
  simp only [BitVec.getLsbD_shiftLeft, hj, decide_true, Bool.true_and, BitVec.getLsbD_one]
  by_cases h : j < k
  · simp [h]; omega
  · simp [h]; omega

@[simp] theorem bitmapTest_bitmapSet (p : Pmm) (a b : Nat) :
    (p.bitmapSet a).bitmapTest b = (decide (b = a) || p.bitmapTest b) := by
  rw [bitmapTest_eq, bitmapTest_eq, bitmapSet]
  by_cases hbyte : b / 8 = a / 8
  · simp only [hbyte, update_self, BitVec.getLsbD_or]
    rw [getLsbD_one_shift _ _ (Nat.mod_lt _ (by norm_num)), Bool.or_comm]
    congr 1
    exact decide_eq_decide.mpr ⟨fun h => by omega, fun h => by rw [h]⟩
  · have hne : b ≠ a := fun h => hbyte (by rw [h])
    simp [update_of_ne hbyte, hne]

@[simp] theorem bitmapTest_bitmapClear (p : Pmm) (a b : Nat) :
    (p.bitmapClear a).bitmapTest b = (decide (b ≠ a) && p.bitmapTest b) := by
  rw [bitmapTest_eq, bitmapTest_eq, bitmapClear]
  by_cases hbyte : b / 8 = a / 8
  · simp only [hbyte, update_self, BitVec.getLsbD_and, BitVec.getLsbD_not]
    rw [getLsbD_one_shift _ _ (Nat.mod_lt _ (by norm_num)), Bool.and_comm]
    have hiff : b % 8 = a % 8 ↔ b = a := ⟨fun h => by omega, fun h => by rw [h]⟩
    simp [hiff, Nat.mod_lt]
  · have hne : b ≠ a := fun h => hbyte (by rw [h])
    simp [update_of_ne hbyte, hne]

@[simp] theorem totalPages_bitmapSet (p : Pmm) (a : Nat) : (p.bitmapSet a).totalPages = p.totalPages := rfl
@[simp] theorem lastPageIdx_bitmapSet (p : Pmm) (a : Nat) : (p.bitmapSet a).lastPageIdx = p.lastPageIdx := rfl
@[simp] theorem totalPages_bitmapClear (p : Pmm) (a : Nat) : (p.bitmapClear a).totalPages = p.totalPages := rfl

def Free (p : Pmm) (i : Nat) : Prop := i < p.totalPages ∧ p.bitmapTest i = false

/-- The states that `pmm_init` and the operations build: page addresses fit 64 bits, the cursor is in
range and page 0 is reserved. -/
structure WF (p : Pmm) : Prop where
  total_le : p.totalPages ≤ 2 ^ 52
  cursor_le : p.lastPageIdx ≤ p.totalPages
  zero_used : 0 < p.totalPages → p.bitmapTest 0 = true

/-- The number of set bits in `[0, g_total_pages)`. -/
def setBits (p : Pmm) : Nat := ((Finset.range p.totalPages).filter fun i => p.bitmapTest i = true).card

theorem WF.pos_of_free (hwf : p.WF) (h : p.Free i) : 0 < i := by
  rcases Nat.eq_zero_or_pos i with rfl | hi
  · have := hwf.zero_used (by have := h.1; omega)
    rw [h.2] at this
    simp at this
  · exact hi

theorem WF.addr_lt (hwf : p.WF) (h : i < p.totalPages) : i * 4096 < 2 ^ 64 := by
  have := hwf.total_le
  omega

/-! ## `pmm_alloc_page` -/

theorem exists_scanIdx (hwf : p.WF) {idx : Nat} (h : idx < p.totalPages) :
    ∃ i, i < p.totalPages ∧ p.scanIdx i = idx := by
  have htot := hwf.total_le
  have hcursor := hwf.cursor_le
  -- the page is reached before the wrap-around or after it
  by_cases hle : p.lastPageIdx ≤ idx
  · refine ⟨idx - p.lastPageIdx, by omega, ?_⟩
    rw [scanIdx, show p.lastPageIdx + (idx - p.lastPageIdx) = idx by omega,
      Nat.mod_eq_of_lt (show idx < 2 ^ 64 by omega), Nat.mod_eq_of_lt h]
  · refine ⟨idx + p.totalPages - p.lastPageIdx, by omega, ?_⟩
    rw [scanIdx, show p.lastPageIdx + (idx + p.totalPages - p.lastPageIdx) = idx + p.totalPages by omega,
      Nat.mod_eq_of_lt (show idx + p.totalPages < 2 ^ 64 by omega), Nat.add_mod_right,
      Nat.mod_eq_of_lt h]

theorem scanIdx_lt (h : 0 < p.totalPages) (i : Nat) : p.scanIdx i < p.totalPages := Nat.mod_lt _ h

end Pmm

open Pmm

theorem pmmAllocPage_cases (hwf : p.WF) : (∃ idx, p.Free idx ∧ pmmAllocPage p = (idx * 4096,
      { p.bitmapSet idx with usedPages := p.usedPages + 1, lastPageIdx := idx + 1 })) ∨
    ((∀ idx, ¬ p.Free idx) ∧ pmmAllocPage p = (0, p)) := by
  rw [pmmAllocPage]
  cases hfind : ((List.range p.totalPages).map p.scanIdx).find? fun idx => !p.bitmapTest idx with
  | some idx =>
    left
    have hmem := mem_of_find?_eq_some hfind
    have hfree := find?_some hfind
    simp only [mem_map, mem_range] at hmem
    obtain ⟨i, hi, rfl⟩ := hmem
    have hlt : p.scanIdx i < p.totalPages := scanIdx_lt (by omega) i
    refine ⟨p.scanIdx i, ⟨hlt, by simpa using hfree⟩, ?_⟩
    simp only [Nat.mod_eq_of_lt (hwf.addr_lt hlt)]
  | none =>
    right
    refine ⟨fun idx hfree => ?_, rfl⟩
    obtain ⟨i, hi, hidx⟩ := exists_scanIdx hwf hfree.1
    have := find?_eq_none.mp hfind idx (mem_map.mpr ⟨i, mem_range.mpr hi, hidx⟩)
    simp [hfree.2] at this

/-! ## `pmm_alloc_pages` -/

def FreeRun (p : Pmm) (a n : Nat) : Prop := ∀ x, a ≤ x → x < a + n → p.bitmapTest x = false

/-- What the scan has seen before page `i`: the last `consecutive` pages are free and start at
`start`, the page before them is used, and no run of `count` pages has been passed. -/
structure ScanInv (p : Pmm) (count i consecutive start : Nat) : Prop where
  short : consecutive < count
  le : consecutive ≤ i
  start_eq : consecutive ≠ 0 → start = i - consecutive
  run : FreeRun p (i - consecutive) consecutive
  stop : consecutive < i → p.bitmapTest (i - consecutive - 1) = true

theorem ScanInv.no_run {count consecutive start : Nat} (h : ScanInv p count i consecutive start)
    (hi : p.bitmapTest i = true ∨ consecutive + 1 < count) (ha : a + count ≤ i + 1) (hlast : i < a + count) :
    ¬ FreeRun p a count := by
  intro hrun
  have hfits := h.short
  rcases hi with hi | hi
  · have := hrun i (by omega) (by omega)
    rw [hi] at this
    simp at this
  · have hstop := h.stop (by omega)
    have := hrun (i - consecutive - 1) (by omega) (by omega)
    rw [hstop] at this
    simp at this

/-- The run-length scan finds a run of `count` free pages exactly when there is one. -/
theorem runScan_spec (p : Pmm) (count : Nat) (n i consecutive start : Nat) (hinv : ScanInv p count i consecutive start)
    (hpast : ∀ a, a + count ≤ i → ¬ FreeRun p a count) :
    match runScan p count n i consecutive start with
    | some a => a + count ≤ i + n ∧ FreeRun p a count
    | none => ∀ a, a + count ≤ i + n → ¬ FreeRun p a count := by
  induction n generalizing i consecutive start with
  | zero => exact hpast
  | succ n ih =>
    have hfits := hinv.short
    have hle := hinv.le
    rw [runScan]
    by_cases hi : p.bitmapTest i = true
    · -- a used page ends the run
      rw [if_neg (by simp [hi]), show i + (n + 1) = i + 1 + n by omega]
      refine ih (i + 1) 0 start ⟨by omega, by omega, by simp, ?_, ?_⟩ ?_
      · intro x hx hx'
        omega
      · simpa using hi
      · intro a ha
        by_cases hai : a + count ≤ i
        · exact hpast a hai
        · exact hinv.no_run (.inl hi) ha (by omega)
    · have hfree : p.bitmapTest i = false := by simpa using hi
      rw [if_pos (by simp [hfree])]
      have hrun : FreeRun p (i - consecutive) (consecutive + 1) := by
        intro x hx hx'
        by_cases hxi : x = i
        · rw [hxi, hfree]
        · exact hinv.run x hx (by omega)
      have hst0 : (if consecutive = 0 then i else start) = i - consecutive := by
        split_ifs with h0
        · omega
        · exact hinv.start_eq h0
      simp only [hst0]
      by_cases hdone : consecutive + 1 = count
      · rw [if_pos hdone]
        refine ⟨by omega, ?_⟩
        rw [← hdone]
        exact hrun
      · rw [if_neg hdone, show i + (n + 1) = i + 1 + n by omega]
        refine ih (i + 1) (consecutive + 1) (i - consecutive) ⟨by omega, by omega, ?_, ?_, ?_⟩ ?_
        · omega
        · rw [show i + 1 - (consecutive + 1) = i - consecutive by omega]
          exact hrun
        · intro hlt
          rw [show i + 1 - (consecutive + 1) - 1 = i - consecutive - 1 by omega]
          exact hinv.stop (by omega)
        · intro a ha
          by_cases hai : a + count ≤ i
          · exact hpast a hai
          · exact hinv.no_run (.inr (by omega)) ha (by omega)

theorem markRun_succ (p : Pmm) (start count : Nat) :
    markRun p start (count + 1) = (markRun p start count).bitmapSet (start + count) := by
  simp [markRun, range_succ]

@[simp] theorem totalPages_markRun (p : Pmm) (start count : Nat) :
    (markRun p start count).totalPages = p.totalPages := by
  induction count with
  | zero => rfl
  | succ count ih => rw [markRun_succ, totalPages_bitmapSet, ih]

@[simp] theorem lastPageIdx_markRun (p : Pmm) (start count : Nat) :
    (markRun p start count).lastPageIdx = p.lastPageIdx := by
  induction count with
  | zero => rfl
  | succ count ih => rw [markRun_succ, lastPageIdx_bitmapSet, ih]

theorem bitmapTest_markRun (p : Pmm) (start count b : Nat) : (markRun p start count).bitmapTest b =
      (decide (start ≤ b ∧ b < start + count) || p.bitmapTest b) := by
  induction count with
  | zero => simp [markRun]
  | succ count ih =>
    rw [markRun_succ, bitmapTest_bitmapSet, ih, ← Bool.or_assoc]
    congr 1
    rw [← Bool.decide_or]
    exact decide_eq_decide.mpr (by omega)

/-- What an allocation of `n` pages from page `a` on leaves behind: these pages, all free before, are
marked used and counted. -/
structure Takes (p p' : Pmm) (a n : Nat) : Prop where
  pos : 0 < a
  le : a + n ≤ p.totalPages
  free : FreeRun p a n
  total : p'.totalPages = p.totalPages
  test : ∀ b, p'.bitmapTest b = (decide (a ≤ b ∧ b < a + n) || p.bitmapTest b)
  used : p'.usedPages = p.usedPages + n
  wf : p'.WF

theorem pmmAllocPage_spec (hwf : p.WF) :
    (∃ a, (pmmAllocPage p).1 = a * 4096 ∧ Takes p (pmmAllocPage p).2 a 1) ∨
    ((∀ i, ¬ p.Free i) ∧ pmmAllocPage p = (0, p)) := by
  rcases pmmAllocPage_cases hwf with ⟨idx, hfree, heq⟩ | hnone
  · left
    rw [heq]
    have hpos := hwf.pos_of_free hfree
    have htest : ∀ b, (p.bitmapSet idx).bitmapTest b = (decide (idx ≤ b ∧ b < idx + 1) || p.bitmapTest b) := by
      intro b
      rw [bitmapTest_bitmapSet]
      congr 1
      exact decide_eq_decide.mpr (by omega)
    have hlt := hfree.1
    refine ⟨idx, rfl, ⟨hpos, by omega, ?_, rfl, htest, rfl, ?_⟩⟩
    · intro x hx hx'
      rw [show x = idx by omega, hfree.2]
    · refine ⟨hwf.total_le, ?_, fun h => ?_⟩
      · show idx + 1 ≤ p.totalPages
        omega
      · show (p.bitmapSet idx).bitmapTest 0 = true
        rw [bitmapTest_bitmapSet, hwf.zero_used h, Bool.or_true]
  · exact .inr hnone

theorem pmmAllocPages_spec (hwf : p.WF) (hn : n ≠ 0) :
    (∃ a, (pmmAllocPages p n).1 = a * 4096 ∧ Takes p (pmmAllocPages p n).2 a n) ∨
    ((∀ a, a + n ≤ p.totalPages → ¬ FreeRun p a n) ∧ pmmAllocPages p n = (0, p)) := by
  rw [pmmAllocPages, if_neg hn]
  by_cases h1 : n = 1
  · rw [if_pos h1, h1]
    rcases pmmAllocPage_spec hwf with htake | ⟨hnone, heq⟩
    · exact .inl htake
    · refine .inr ⟨fun a ha hrun => hnone a ⟨by omega, hrun a (by omega) (by omega)⟩, heq⟩
  · rw [if_neg h1]
    have hscan := runScan_spec p n p.totalPages 0 0 0
      ⟨by omega, by omega, by simp, fun x hx hx' => by omega, fun h => by omega⟩
      (fun a ha => by omega)
    simp only [Nat.zero_add] at hscan
    cases hrun : runScan p n p.totalPages 0 0 0 with
    | none =>
      rw [hrun] at hscan
      exact .inr ⟨hscan, rfl⟩
    | some a =>
      rw [hrun] at hscan
      obtain ⟨hle, hfree⟩ := hscan
      left
      have hpos : 0 < a := hwf.pos_of_free ⟨by omega, hfree a (by omega) (by omega)⟩
      refine ⟨a, ?_, ⟨hpos, hle, hfree, totalPages_markRun p a n, bitmapTest_markRun p a n, rfl, ?_⟩⟩
      · exact Nat.mod_eq_of_lt (hwf.addr_lt (by omega))
      · refine ⟨?_, ?_, fun h => ?_⟩
        · exact (totalPages_markRun p a n).trans_le hwf.total_le
        · rw [lastPageIdx_markRun, totalPages_markRun]
          exact hwf.cursor_le
        · show (markRun p a n).bitmapTest 0 = true
          rw [bitmapTest_markRun, hwf.zero_used (by omega), Bool.or_true]

/-! ## `pmm_free_page` and `pmm_free_pages` -/

@[simp] theorem totalPages_pmmFreePage (p : Pmm) (a : Nat) : (pmmFreePage p a).totalPages = p.totalPages := by
  rw [pmmFreePage]
  split_ifs <;> rfl

@[simp] theorem lastPageIdx_pmmFreePage (p : Pmm) (a : Nat) : (pmmFreePage p a).lastPageIdx = p.lastPageIdx := by
  rw [pmmFreePage]
  split_ifs <;> rfl

theorem bitmapTest_pmmFreePage (p : Pmm) (a b : Nat) (h : a / 4096 < p.totalPages) :
    (pmmFreePage p a).bitmapTest b = (decide (b ≠ a / 4096) && p.bitmapTest b) := by
  rw [pmmFreePage, if_neg (by omega)]
  split_ifs with hused
  · exact bitmapTest_bitmapClear p _ b
  · by_cases hb : b = a / 4096
    · simp only [hb, ne_eq, not_true_eq_false, decide_false, Bool.false_and]
      simpa using hused
    · simp [hb]

theorem pmmFreePage_wf (hwf : p.WF) (ha : 0 < a / 4096) : (pmmFreePage p a).WF := by
  refine ⟨?_, ?_, fun h => ?_⟩
  · rw [totalPages_pmmFreePage]
    exact hwf.total_le
  · rw [lastPageIdx_pmmFreePage, totalPages_pmmFreePage]
    exact hwf.cursor_le
  · rw [totalPages_pmmFreePage] at h
    by_cases hlt : a / 4096 < p.totalPages
    · rw [bitmapTest_pmmFreePage p a 0 hlt, hwf.zero_used h]
      simp only [Bool.and_true, decide_eq_true_eq]
      omega
    · rw [pmmFreePage, if_pos (by omega)]
      exact hwf.zero_used h

/-! ## The used-page counter -/

theorem setBits_takes {p' : Pmm} (h : Takes p p' a n) : p'.setBits = p.setBits + n := by
  have hcut : (Finset.range p'.totalPages).filter (fun i => p'.bitmapTest i = true) =
      (Finset.range p.totalPages).filter (fun i => p.bitmapTest i = true) ∪ Finset.Ico a (a + n) := by
    ext i
    have hle := h.le
    simp only [Finset.mem_filter, Finset.mem_range, Finset.mem_union, Finset.mem_Ico, h.total,
      h.test i, Bool.or_eq_true, decide_eq_true_eq]
    constructor
    · rintro ⟨hi, hnew | hold⟩
      · exact .inr hnew
      · exact .inl ⟨hi, hold⟩
    · rintro (⟨hi, hold⟩ | hnew)
      · exact ⟨hi, .inr hold⟩
      · exact ⟨by omega, .inl hnew⟩
  have hdisj : Disjoint ((Finset.range p.totalPages).filter fun i => p.bitmapTest i = true)
      (Finset.Ico a (a + n)) := by
    rw [Finset.disjoint_left]
    intro i hi hi'
    rw [Finset.mem_filter] at hi
    rw [Finset.mem_Ico] at hi'
    have := h.free i hi'.1 hi'.2
    rw [hi.2] at this
    simp at this
  rw [setBits, hcut, Finset.card_union_of_disjoint hdisj, Nat.card_Ico, setBits]
  omega

theorem setBits_bitmapClear (hlt : a < p.totalPages) (hused : p.bitmapTest a = true) :
    (p.bitmapClear a).setBits + 1 = p.setBits := by
  have herase : (Finset.range (p.bitmapClear a).totalPages).filter
      (fun i => (p.bitmapClear a).bitmapTest i = true) =
      ((Finset.range p.totalPages).filter fun i => p.bitmapTest i = true).erase a := by
    ext i
    simp only [Finset.mem_filter, Finset.mem_range, Finset.mem_erase, totalPages_bitmapClear,
      bitmapTest_bitmapClear, Bool.and_eq_true, decide_eq_true_eq]
    tauto
  rw [setBits, herase]
  exact Finset.card_erase_add_one (Finset.mem_filter.mpr ⟨Finset.mem_range.mpr hlt, hused⟩)

theorem setBits_bitmapSet (hlt : a < p.totalPages) (hfree : p.bitmapTest a = false) :
    (p.bitmapSet a).setBits = p.setBits + 1 := by
  have hinst : (Finset.range (p.bitmapSet a).totalPages).filter
      (fun i => (p.bitmapSet a).bitmapTest i = true) =
      insert a ((Finset.range p.totalPages).filter fun i => p.bitmapTest i = true) := by
    ext i
    simp only [Finset.mem_filter, Finset.mem_range, Finset.mem_insert, totalPages_bitmapSet,
      bitmapTest_bitmapSet, Bool.or_eq_true, decide_eq_true_eq]
    constructor
    · tauto
    · rintro (rfl | h)
      · exact ⟨hlt, .inl rfl⟩
      · exact ⟨h.1, .inr h.2⟩
  rw [setBits, hinst, Finset.card_insert_of_notMem (by simp [hfree])]
  rfl

end SzpontOS.Mm
