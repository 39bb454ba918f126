import SzpontOS.Lib.Run
import SzpontOS.Mm.Pmm

/-!
# Histories of the physical page allocator

Callers take pages with `pmm_alloc_page` and `pmm_alloc_pages` and give back ranges they hold. The ghost set `held`
records the pages handed out and not yet freed. The counter `g_used_pages` is the number of set bits, and every range
handed out was free and is held by nobody else (`pmm_history`).
-/

namespace SzpontOS.Mm

open Pmm Relation Set

/-! ## Histories -/

structure PmmHist where
  pmm : Pmm
  held : Set Nat

/-- The pages of the range `[r, r + n * PAGE_SIZE)` that an allocation returned; none for `0`. -/
def grantedPages (r n : Nat) : Set Nat := {x | r ≠ 0 ∧ r / 4096 ≤ x ∧ x < r / 4096 + n}

/-- One call to the allocator. Callers free only what they hold. -/
inductive PmmStep : PmmHist → PmmHist → Prop
  | allocPage (s : PmmHist) : PmmStep s ⟨(pmmAllocPage s.pmm).2, s.held ∪ grantedPages (pmmAllocPage s.pmm).1 1⟩
  | allocPages (s : PmmHist) (n : Nat) :
    PmmStep s ⟨(pmmAllocPages s.pmm n).2, s.held ∪ grantedPages (pmmAllocPages s.pmm n).1 n⟩
  | freePage (s : PmmHist) (a : Nat) (h : a / 4096 ∈ s.held) : PmmStep s ⟨pmmFreePage s.pmm a, s.held \ {a / 4096}⟩
  | freePages (s : PmmHist) (a n : Nat) (h : ∀ i, i < n → a / 4096 + i ∈ s.held) :
    PmmStep s ⟨pmmFreePages s.pmm a n, s.held \ {x | a / 4096 ≤ x ∧ x < a / 4096 + n}⟩

/-- The invariant of the histories: held pages are real, used and not page 0, and the counter counts
the set bits. -/
structure PmmInv (s : PmmHist) : Prop where
  wf : s.pmm.WF
  held : ∀ x ∈ s.held, x ≠ 0 ∧ x < s.pmm.totalPages ∧ s.pmm.bitmapTest x = true
  count : s.pmm.usedPages = s.pmm.setBits

variable {s : PmmHist} {p' : Pmm} {r a n : Nat}

theorem PmmInv.takes (h : PmmInv s) (hr : r = a * 4096) (htake : Takes s.pmm p' a n) :
    PmmInv ⟨p', s.held ∪ grantedPages r n⟩ := by
  have hle := htake.le
  refine ⟨htake.wf, ?_, ?_⟩
  · rintro x (hx | ⟨_, hlo, hhi⟩)
    · obtain ⟨h0, hlt, hused⟩ := h.held x hx
      refine ⟨h0, htake.total ▸ hlt, ?_⟩
      rw [htake.test, hused, Bool.or_true]
    · rw [hr, Nat.mul_div_cancel _ (by norm_num)] at hlo hhi
      refine ⟨by omega, ?_, ?_⟩
      · rw [htake.total]
        omega
      · rw [htake.test]
        simp [hlo, hhi]
  · rw [htake.used, setBits_takes htake, h.count]

theorem PmmInv.keep (h : PmmInv s) (n : Nat) : PmmInv ⟨s.pmm, s.held ∪ grantedPages 0 n⟩ := by
  have hnone : s.held ∪ grantedPages 0 n = s.held := by
    simp [grantedPages]
  rw [hnone]
  exact h

theorem PmmInv.free (h : PmmInv s) (ha : a / 4096 ∈ s.held) : PmmInv ⟨pmmFreePage s.pmm a, s.held \ {a / 4096}⟩ := by
  obtain ⟨h0, hlt, hused⟩ := h.held _ ha
  refine ⟨pmmFreePage_wf h.wf (by omega), ?_, ?_⟩
  · rintro x ⟨hx, hne⟩
    obtain ⟨hx0, hxlt, hxused⟩ := h.held x hx
    refine ⟨hx0, ?_, ?_⟩
    · rwa [totalPages_pmmFreePage]
    · rw [bitmapTest_pmmFreePage _ _ _ hlt, hxused, Bool.and_true]
      simpa using hne
  · have hcard := setBits_bitmapClear hlt hused
    have hcount := h.count
    rw [pmmFreePage, if_neg (by omega), if_pos hused]
    show s.pmm.usedPages - 1 = (s.pmm.bitmapClear (a / 4096)).setBits
    omega

theorem pmmFreePages_succ (p : Pmm) (a n : Nat) :
    pmmFreePages p a (n + 1) = pmmFreePage (pmmFreePages p a n) ((a + n * 4096) % 2 ^ 64) := by
  simp [pmmFreePages, List.range_succ]

theorem PmmInv.freePages (h : PmmInv s) (ha : ∀ i, i < n → a / 4096 + i ∈ s.held) :
    PmmInv ⟨pmmFreePages s.pmm a n, s.held \ {x | a / 4096 ≤ x ∧ x < a / 4096 + n}⟩ := by
  induction n with
  | zero =>
    have hnone : s.held \ {x | a / 4096 ≤ x ∧ x < a / 4096 + 0} = s.held := by
      ext x
      simp only [mem_sdiff, mem_ofPred_eq]
      exact ⟨fun h => h.1, fun h => ⟨h, by omega⟩⟩
    rw [hnone]
    exact h
  | succ n ih =>
    have hprev := ih fun i hi => ha i (by omega)
    have hheld := ha n (by omega)
    have hmem : a / 4096 + n ∈ s.held \ {x | a / 4096 ≤ x ∧ x < a / 4096 + n} :=
      ⟨hheld, by simp only [mem_ofPred_eq]; omega⟩
    obtain ⟨_, hlt, _⟩ := h.held _ hheld
    have htot := h.wf.total_le
    have haddr : (a + n * 4096) % 2 ^ 64 = a + n * 4096 := Nat.mod_eq_of_lt (by omega)
    have hpage : (a + n * 4096) / 4096 = a / 4096 + n := by omega
    have hstep := hprev.free (a := a + n * 4096) (by rw [hpage]; exact hmem)
    have hset : s.held \ {x | a / 4096 ≤ x ∧ x < a / 4096 + (n + 1)} =
        (s.held \ {x | a / 4096 ≤ x ∧ x < a / 4096 + n}) \ {a / 4096 + n} := by
      ext x
      simp only [mem_sdiff, mem_ofPred_eq, mem_singleton_iff]
      constructor
      · rintro ⟨hx, hout⟩
        exact ⟨⟨hx, by omega⟩, by omega⟩
      · rintro ⟨⟨hx, hout⟩, hne⟩
        exact ⟨hx, by omega⟩
    rw [hpage] at hstep
    rw [pmmFreePages_succ, haddr, hset]
    exact hstep

theorem pmmStep_inv (s s' : PmmHist) (h : PmmInv s) (hstep : PmmStep s s') : PmmInv s' := by
  cases hstep with
  | allocPage =>
    rcases pmmAllocPage_spec h.wf with ⟨a, hr, htake⟩ | ⟨_, heq⟩
    · exact h.takes hr htake
    · rw [heq]
      exact h.keep 1
  | allocPages n =>
    rcases Nat.eq_zero_or_pos n with rfl | hn
    · exact h.keep 0
    · rcases pmmAllocPages_spec h.wf (by omega : n ≠ 0) with ⟨a, hr, htake⟩ | ⟨_, heq⟩
      · exact h.takes hr htake
      · rw [heq]
        exact h.keep n
  | freePage a ha => exact h.free ha
  | freePages a n ha => exact h.freePages ha

/-- What a caller gets with the non-zero result `r` for `n` pages: a page-aligned range of pages that
were free and that nobody holds. -/
structure Granted (s : PmmHist) (r n : Nat) : Prop where
  aligned : r % 4096 = 0
  inside : r / 4096 + n ≤ s.pmm.totalPages
  free : ∀ x ∈ grantedPages r n, s.pmm.bitmapTest x = false
  disjoint : Disjoint (grantedPages r n) s.held

theorem PmmInv.granted (h : PmmInv s) (hr : r = a * 4096) (htake : Takes s.pmm p' a n) : Granted s r n := by
  have hdiv : r / 4096 = a := by omega
  have hfree : ∀ x ∈ grantedPages r n, s.pmm.bitmapTest x = false := by
    rintro x ⟨_, hlo, hhi⟩
    exact htake.free x (by omega) (by omega)
  refine ⟨by omega, by rw [hdiv]; exact htake.le, hfree, ?_⟩
  rw [disjoint_left]
  intro x hx hheld
  have hused := (h.held x hheld).2.2
  rw [hfree x hx] at hused
  simp at hused

/-- **The physical allocator.** From any allocator state whose counter is right, and whatever its
callers hold, over every history of allocations and of frees of held ranges: the counter is the
number of set bits, a non-zero result is a range of free pages that nobody holds, and `0` means that
no page (no run of `n` pages) is free. -/
theorem pmm_history {p : Pmm} {held : Set Nat} (hwf : p.WF) (hcount : p.usedPages = p.setBits)
    (hheld : ∀ x ∈ held, x ≠ 0 ∧ x < p.totalPages ∧ p.bitmapTest x = true) {s : PmmHist}
    (hrun : ReflTransGen PmmStep ⟨p, held⟩ s) :
    s.pmm.usedPages = s.pmm.setBits ∧
    ((pmmAllocPage s.pmm).1 ≠ 0 → Granted s (pmmAllocPage s.pmm).1 1) ∧
    ((pmmAllocPage s.pmm).1 = 0 → ∀ i, ¬ s.pmm.Free i) ∧
    ∀ n, 1 ≤ n → ((pmmAllocPages s.pmm n).1 ≠ 0 → Granted s (pmmAllocPages s.pmm n).1 n) ∧
      ((pmmAllocPages s.pmm n).1 = 0 →
        ¬ ∃ a, a + n ≤ s.pmm.totalPages ∧ ∀ x, a ≤ x → x < a + n → s.pmm.bitmapTest x = false) := by
  have hinv : PmmInv s := Lib.invariant_of_step pmmStep_inv ⟨hwf, hheld, hcount⟩ hrun
  have hone := pmmAllocPage_spec hinv.wf
  refine ⟨hinv.count, fun hne => ?_, fun h0 => ?_, fun n hn => ⟨fun hne => ?_, fun h0 => ?_⟩⟩
  · rcases hone with ⟨a, hr, htake⟩ | ⟨_, heq⟩
    · exact hinv.granted hr htake
    · exact absurd (by rw [heq]) hne
  · rcases hone with ⟨a, hr, htake⟩ | ⟨hnone, _⟩
    · have := htake.pos
      omega
    · exact hnone
  · rcases pmmAllocPages_spec hinv.wf (by omega : n ≠ 0) with ⟨a, hr, htake⟩ | ⟨_, heq⟩
    · exact hinv.granted hr htake
    · exact absurd (by rw [heq]) hne
  · rcases pmmAllocPages_spec hinv.wf (by omega : n ≠ 0) with ⟨a, hr, htake⟩ | ⟨hnone, _⟩
    · have := htake.pos
      omega
    · rintro ⟨a, ha, hrun⟩
      exact hnone a ha hrun

def threePages : Pmm := ⟨fun _ => 1, 3, 1, 0⟩

theorem threePages_wf : threePages.WF := ⟨by decide, by decide, fun _ => by decide⟩

/-- After one allocation from `threePages` the counter is right and the next page is granted. -/
theorem pmm_history_threePages : (pmmAllocPage threePages).1 = 4096 ∧
    (pmmAllocPage threePages).2.usedPages = (pmmAllocPage threePages).2.setBits ∧
    Granted ⟨(pmmAllocPage threePages).2, ∅ ∪ grantedPages (pmmAllocPage threePages).1 1⟩
      (pmmAllocPage (pmmAllocPage threePages).2).1 1 := by
  have h := pmm_history threePages_wf (by decide) (fun x (hx : x ∈ (∅ : Set Nat)) => hx.elim)
    (ReflTransGen.single (PmmStep.allocPage ⟨threePages, ∅⟩))
  exact ⟨by decide, h.1, h.2.1 (by decide)⟩

end SzpontOS.Mm
