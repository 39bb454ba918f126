import SzpontOS.Lib.Run
import SzpontOS.Syscall.Mmap

/-!
# The page loops of `mmap` and `munmap`

What the loops do to the tree of a process, in terms of its slots. Releasing pages keeps or clears slots
(`Cleared`); mapping a page fills absent table entries on its route (`Grown`) and then writes its leaf.
An iteration of the loop of `sys_mmap` does all of this (`Placed`), or stops on the way (`Dropped`).
-/

namespace SzpontOS.Syscall

open Lib Lib.Radix Mm List

def leafAt (m : Mem) (r v : Nat) : Word := slot m 256 r (route v) (ptIndex v)

/-! ## Clearing -/

/-- Every slot is kept or cleared, a leaf only for the pages `V` of the tree `r`. -/
structure Cleared (m m' : Mem) (R : Set Nat) (r : Nat) (V : Nat → Prop) : Prop where
  kept : ∀ r' ∈ R, ∀ (q : List Nat) (j : Nat), q.length ≤ 3 →
    slot m' 256 r' q j = slot m 256 r' q j ∨ slot m' 256 r' q j = 0
  leaf : ∀ r' ∈ R, ∀ (q : List Nat) (j : Nat), q.length = 3 → slot m' 256 r' q j ≠ slot m 256 r' q j →
    r' = r ∧ ∃ v, V v ∧ q = route v ∧ j = ptIndex v

variable {s : Machine} {v r' j addr n r length vaddr v' stop : Nat} {q : List Nat} {m m' : Mem} {R : Set Nat}
  {flags : Word} {fixed anonymous : Bool} {p : Process} {fd : FdNode}

namespace Cleared

variable {m'' : Mem} {V V' : Nat → Prop}

theorem of_same (h : SlotsSame m m' 256 R) : Cleared m m' R r V :=
  ⟨fun r' hr' q j hq => .inl (h r' hr' q j hq), fun r' hr' q j hq hne => absurd (h r' hr' q j hq.le) hne⟩

theorem mono (h : Cleared m m' R r V) (hsub : ∀ v, V v → V' v) : Cleared m m' R r V' := by
  refine ⟨h.kept, fun r' hr' q j hq hne => ?_⟩
  obtain ⟨hr, v, hv, hrest⟩ := h.leaf r' hr' q j hq hne
  exact ⟨hr, v, hsub v hv, hrest⟩

theorem trans (h : Cleared m m' R r V) (h' : Cleared m' m'' R r V) : Cleared m m'' R r V := by
  refine ⟨fun r' hr' q j hq => ?_, fun r' hr' q j hq hne => ?_⟩
  · rcases h'.kept r' hr' q j hq with heq | hzero
    · rw [heq]
      exact h.kept r' hr' q j hq
    · exact .inr hzero
  · by_cases heq : slot m'' 256 r' q j = slot m' 256 r' q j
    · rw [heq] at hne
      exact h.leaf r' hr' q j hq hne
    · exact h'.leaf r' hr' q j hq heq

theorem of_released {s' : Machine} (h : Released s s' R r v) : Cleared s.mem s'.mem R r (· = v) := by
  refine ⟨fun r' hr' q j hq => ?_, fun r' hr' q j hq hne => ?_⟩
  · by_cases hq3 : q.length < 3
    · exact h.table r' hr' q j hq3
    · rw [h.leaf r' hr' q j (by omega)]
      split_ifs
      · exact .inr rfl
      · exact .inl rfl
  · rw [h.leaf r' hr' q j hq] at hne
    split_ifs at hne with hhere
    · exact ⟨hhere.1, v, rfl, hhere.2⟩
    · exact absurd rfl hne

theorem absent (h : Cleared m m' R r V) (hr' : r' ∈ R) (hq : q.length ≤ 3)
    (habs : has (slot m 256 r' q j) flagPresent = false) : has (slot m' 256 r' q j) flagPresent = false := by
  rcases h.kept r' hr' q j hq with heq | hzero
  · rw [heq]
    exact habs
  · rw [hzero]
    exact has_zero _

end Cleared

section Release

variable {ext lent : Set Nat} {map : Pagemap}

theorem release_page (hfam : Family s R ext lent) (hr : map.pml4Phys ∈ R) (hkern : map.isKernel = false)
    (hv : vmmUserRange v 4096 = true) :
    Family (vmmReleaseUserPage s map v).2 R ext lent ∧
      Cleared s.mem (vmmReleaseUserPage s map v).2.mem R map.pml4Phys (· = v) ∧
      has (leafAt (vmmReleaseUserPage s map v).2.mem map.pml4Phys v) flagPresent = false ∧
      Steady s (vmmReleaseUserPage s map v).2 := by
  obtain ⟨hfam', ⟨heq, habs⟩ | hrel⟩ := hfam.releaseUserPage hr v
  · rw [heq]
    exact ⟨hfam, .of_same fun _ _ _ _ _ => rfl, habs hv hkern, rfl, rfl⟩
  · refine ⟨hfam', .of_released hrel, ?_, hrel.steady⟩
    unfold leafAt
    rw [hrel.leaf _ hr _ _ (length_route v), if_pos ⟨rfl, rfl, rfl⟩]
    exact has_zero _

/-- The pages `addr`, `addr + PAGE_SIZE`, ... -/
def pagesFrom (addr n : Nat) (v : Nat) : Prop := ∃ k, k < n ∧ v = addr + k * 4096

theorem releasePages_spec (hfam : Family s R ext lent) (hr : map.pml4Phys ∈ R) (hkern : map.isKernel = false)
    (huser : ∀ v, pagesFrom addr n v → vmmUserRange v 4096 = true) :
    Family (releasePages s map addr n) R ext lent ∧
      Cleared s.mem (releasePages s map addr n).mem R map.pml4Phys (pagesFrom addr n) ∧
      (∀ v, pagesFrom addr n v → has (leafAt (releasePages s map addr n).mem map.pml4Phys v) flagPresent = false) ∧
      Steady s (releasePages s map addr n) := by
  refine foldl_range_rule (fun k s' => Family s' R ext lent ∧ Cleared s.mem s'.mem R map.pml4Phys (pagesFrom addr n) ∧
    (∀ v, pagesFrom addr k v → has (leafAt s'.mem map.pml4Phys v) flagPresent = false) ∧ Steady s s')
    ⟨hfam, .of_same fun _ _ _ _ _ => rfl, fun v hv => ?_, rfl, rfl⟩ fun k s' hk h => ?_
  · obtain ⟨k, hk, -⟩ := hv
    omega
  · obtain ⟨hfam', hcleared, hgone, hstay⟩ := h
    have hpage : pagesFrom addr n (addr + k * 4096) := ⟨k, hk, rfl⟩
    obtain ⟨hfam'', hclear, hlast, hstay'⟩ := release_page hfam' hr hkern (huser _ hpage)
    refine ⟨hfam'', hcleared.trans (hclear.mono fun v hv => hv ▸ hpage), fun v hv => ?_, hstay.trans hstay'⟩
    obtain ⟨j, hj, rfl⟩ := hv
    by_cases hjk : j = k
    · rw [hjk]
      exact hlast
    · exact hclear.absent hr (length_route_le _) (hgone _ ⟨j, by omega, rfl⟩)

end Release

/-! ## Placing a page -/

/-- Absent table entries on the route of `v` got new tables; all other slots are kept. -/
def Grown (m m' : Mem) (R : Set Nat) (r v : Nat) (flags : Word) : Prop :=
  ∀ r' ∈ R, ∀ (q : List Nat) (j : Nat), q.length ≤ 3 → slot m' 256 r' q j = slot m 256 r' q j ∨
    (r' = r ∧ q ++ [j] <+: route v ∧ has (slot m 256 r' q j) flagPresent = false ∧
      ∃ a, PageAddr a ∧ slot m' 256 r' q j = linkEntry a flags)

/-- The page of `v` was cleared or left, the tables above it completed, and its leaf written. -/
structure Placed (m m' : Mem) (R : Set Nat) (r v : Nat) (flags : Word) : Prop where
  stages : ∃ m₁ m₂ a, Cleared m m₁ R r (· = v) ∧ Grown m₁ m₂ R r v flags ∧
    (walk (child m₂ 256) r (route v)).isSome ∧ PageAddr a ∧
    SlotsUpdate m₂ m' 256 R r (route v) (ptIndex v) (leafEntry a flags)

/-- The same, stopped before the leaf was written. -/
structure Dropped (m m' : Mem) (R : Set Nat) (r v : Nat) (flags : Word) : Prop where
  stages : ∃ m₁, Cleared m m₁ R r (· = v) ∧ Grown m₁ m' R r v flags

theorem Dropped.of_same (h : SlotsSame m m' 256 R) : Dropped m m' R r v flags :=
  ⟨m', .of_same h, fun _ _ _ _ _ => .inl rfl⟩

theorem Cleared.same_left {m0 : Mem} {V : Nat → Prop} (hsame : SlotsSame m m0 256 R) (h : Cleared m0 m' R r V) :
    Cleared m m' R r V :=
  (Cleared.of_same hsame).trans h

section Place

variable {ext lent : Set Nat} {map : Pagemap} {a : Nat}

theorem place_owned (hfam : Family s R (insert a ext) lent) (hr : map.pml4Phys ∈ R) (hkern : map.isKernel = false)
    (ha : a ∉ ext) (hlt : a < s.pmm.totalPages) (hzero : a ≠ 0) (hlent : a ∉ lent) (hflag : OwnFlags flags)
    (hfree : vmmUserRange v 4096 = true → nodeOf 3 (leafAt s.mem map.pml4Phys v) = none)
    (hclear : Cleared m s.mem R map.pml4Phys (· = v)) :
    match vmmMapPage s map v (a * 4096) flags with
    | (true, s') => Family s' R ext lent ∧ Placed m s'.mem R map.pml4Phys v flags ∧ Steady s s'
    | (false, s') => Family (s'.freePage (a * 4096)) R ext lent ∧ Dropped m s'.mem R map.pml4Phys v flags ∧
      Steady s s' := by
  have howned := hfam.mapPage_owned hr hkern ha hlt hzero hlent hflag.addr hflag.own hfree
  have hphys := hfam.ledger.ok.phys
  have haddr : PageAddr (a * 4096) := ⟨by omega, by omega⟩
  have hdown : pageDown (a * 4096) = a * 4096 := by
    rw [pageDown]
    omega
  obtain ⟨s1, hfam1, hdesc, heq | ⟨-, pt, hpt, heq⟩⟩ := hfam.mapPage_cases hr hkern v (a * 4096) flags
  · rw [heq] at howned ⊢
    refine ⟨hfam1.free ha (hdesc.total ▸ hlt) hzero hlent, ⟨s.mem, hclear, hdesc.slots⟩, hdesc.total, hdesc.heap⟩
  · rw [heq, hdown] at howned
    rw [heq, hdown]
    refine ⟨howned, ⟨s.mem, s1.mem, a * 4096, hclear, hdesc.slots, ?_, haddr, ?_⟩, hdesc.total, hdesc.heap⟩
    · rw [hpt]
      rfl
    · exact hfam1.slotsUpdate_leaf hr hpt _

theorem ready_page (hfam : Family s R ext lent) (hr : map.pml4Phys ∈ R) (hkern : map.isKernel = false)
    (hv : vmmUserRange v 4096 = true) (hfree : fixed = true ∨ nodeOf 3 (leafAt s.mem map.pml4Phys v) = none) :
    ∃ s1, (if fixed then (vmmReleaseUserPage s map v).2 else s) = s1 ∧ Family s1 R ext lent ∧
      Cleared s.mem s1.mem R map.pml4Phys (· = v) ∧ nodeOf 3 (leafAt s1.mem map.pml4Phys v) = none ∧ Steady s s1 := by
  cases fixed with
  | false => exact ⟨s, rfl, hfam, .of_same fun _ _ _ _ _ => rfl, hfree.resolve_left (by simp), rfl, rfl⟩
  | true =>
    obtain ⟨hfam', hclear, hgone, hstay⟩ := release_page hfam hr hkern hv
    refine ⟨_, rfl, hfam', hclear, ?_, hstay⟩
    rw [nodeOf_three, if_pos rfl, hgone]
    rfl

theorem pageContents_length {node : Option FileNode} {offset mapped : Nat} {bytes : List (BitVec 8)}
    (h : pageContents node offset length mapped = some bytes) : bytes.length ≤ 4096 := by
  unfold pageContents at h
  split at h
  · simp [← Option.some.inj h]
  · split_ifs at h
    · obtain ⟨read, -, rfl⟩ := Option.map_eq_some_iff.mp h
      rw [length_take]
      omega
    · simp [← Option.some.inj h]

/-- **One iteration** of the loop of `sys_mmap` places the page, or drops it and keeps nothing. -/
theorem mmapPage_spec (length offset : Nat) (node : Option FileNode) {k : Nat} (hfam : Family s R ext lent)
    (hr : map.pml4Phys ∈ R) (hkern : map.isKernel = false) (hflag : OwnFlags flags)
    (huser : vmmUserRange (vaddr + k * 4096) 4096 = true)
    (hfree : fixed = true ∨ nodeOf 3 (leafAt s.mem map.pml4Phys (vaddr + k * 4096)) = none) :
    Outcome
      (fun s' => Family s' R ext lent ∧ Placed s.mem s'.mem R map.pml4Phys (vaddr + k * 4096) flags ∧ Steady s s')
      (fun e => e.2 = k ∧ Family e.1 R ext lent ∧ Dropped s.mem e.1.mem R map.pml4Phys (vaddr + k * 4096) flags ∧
        Steady s e.1)
      (mmapPage map vaddr length offset fixed flags node s k) := by
  unfold mmapPage
  rcases s.allocPage_spec hfam.ledger.ok with ⟨a, p', htakes, hgot⟩ | hfail
  swap
  · rw [hfail]
    exact .error ⟨rfl, hfam.congr rfl rfl rfl, .of_same fun _ _ _ _ _ => rfl, rfl, rfl⟩
  obtain ⟨haext, halt, haz, hal⟩ := hfam.of_takes htakes
  have haddr := htakes.pageAddr hfam.ledger.ok.phys
  rw [hgot]
  rw [if_neg (show a * 4096 ≠ 0 by omega)]
  have hpage : ∀ bytes : List (BitVec 8), bytes.length ≤ 4096 → ∀ x, x % 4096 = 0 → x ≠ a * 4096 →
      SamePage s.mem ((s.mem.memset (a * 4096) 0 4096).storeBytes (a * 4096) bytes) x := by
    intro bytes hlen x hx hne b hlo hhi
    rw [Mem.storeBytes_outside _ _ _ (by have := haddr.aligned; omega)]
    exact SamePage.memset 0 haddr.aligned hx hne b hlo hhi
  cases hcont : pageContents node offset length (k * 4096) with
  | none =>
    -- the read failed: the page goes back
    obtain ⟨htake, hsame⟩ := hfam.takeCleared htakes s.faults.tail
    refine .error ⟨rfl, htake.free haext (htakes.total ▸ halt) haz hal, .of_same hsame, ?_⟩
    exact ⟨(totalPages_pmmFreePage _ _).trans htakes.total, rfl⟩
  | some bytes =>
    have hlen := pageContents_length hcont
    have htake : Family { s with
        pmm := p', faults := s.faults.tail,
        mem := (s.mem.memset (a * 4096) 0 4096).storeBytes (a * 4096) bytes } R (insert a ext) lent :=
      hfam.take htakes rfl (hpage bytes hlen)
    have hsame := slotsSame_of_fresh _ hfam.trees.forest hfam.reached_used htakes (hpage bytes hlen)
    have hfree0 : fixed = true ∨ nodeOf 3 (leafAt ((s.mem.memset (a * 4096) 0 4096).storeBytes (a * 4096) bytes)
        map.pml4Phys (vaddr + k * 4096)) = none := by
      unfold leafAt
      rw [hsame _ hr _ _ (length_route_le _)]
      exact hfree
    obtain ⟨s1, heq, hfam1, hclear, hnone, hstay⟩ := ready_page htake hr hkern huser hfree0
    have hstay1 : Steady s s1 := ⟨hstay.1.trans htakes.total, hstay.2⟩
    dsimp only
    rw [heq]
    have hplace := place_owned hfam1 hr hkern haext (hstay1.1 ▸ halt) haz hal hflag (fun _ => hnone)
      (hclear.same_left hsame)
    rcases hmap : vmmMapPage s1 map (vaddr + k * 4096) (a * 4096) flags with ⟨_ | _, s'⟩
    · rw [hmap] at hplace
      obtain ⟨hfam', hdrop, hstay'⟩ := hplace
      exact .error ⟨rfl, hfam', hdrop, (hstay1.trans hstay').trans (.freePage _ _)⟩
    · rw [hmap] at hplace
      obtain ⟨hfam', hput, hstay'⟩ := hplace
      exact .ok ⟨hfam', hput, hstay1.trans hstay'⟩

end Place

/-! ## The loops -/

theorem page_of_route (hv : v < userEnd) (hv' : v' < userEnd) (hroute : route v = route v')
    (hidx : ptIndex v = ptIndex v') : v / 4096 = v' / 4096 := by
  simp only [userEnd] at hv hv'
  simp only [route, pml4Index_eq, pdptIndex_eq, pdIndex_eq, cons.injEq, and_true] at hroute
  rw [ptIndex_eq, ptIndex_eq] at hidx
  omega

theorem Grown.leaf (h : Grown m m' R r v flags) (hr' : r' ∈ R) (hq : q.length = 3) :
    slot m' 256 r' q j = slot m 256 r' q j := by
  rcases h r' hr' q j hq.le with heq | ⟨-, hpre, -⟩
  · exact heq
  · have := length_lt_of_route hpre
    omega

theorem Placed.leaf_ne (h : Placed m m' R r v flags) (hr : r ∈ R) (hv : v < userEnd) (hv' : v' < userEnd)
    (hne : v' / 4096 ≠ v / 4096) : leafAt m' r v' = leafAt m r v' := by
  obtain ⟨m1, m2, a, hclear, hgrow, -, -, hupd⟩ := h.stages
  have hrest : ¬ (route v' = route v ∧ ptIndex v' = ptIndex v) := fun hsame =>
    hne (page_of_route hv' hv hsame.1 hsame.2)
  unfold leafAt
  rw [hupd r hr _ _ (length_route_le v'), if_neg (fun hhere => hrest hhere.2), hgrow.leaf hr (length_route v')]
  by_contra hdiff
  obtain ⟨-, u, rfl, hhere⟩ := hclear.leaf r hr _ _ (length_route v') hdiff
  exact hrest hhere

section Loops

variable {ext lent : Set Nat} {map : Pagemap}

theorem lt_userEnd_of_range (h : vmmUserRange v n = true) : v < userEnd := by
  simp only [vmmUserRange, Bool.and_eq_true, decide_eq_true_eq] at h
  exact h.1.2

/-- **The loop of `sys_mmap`.** An invariant of the placed pages holds at its end; when it is left early, what
follows from the invariant for the dropped page. -/
theorem mmapLoop (length offset : Nat) (node : Option FileNode) (P E : Nat → Mem → Prop) (hfam : Family s R ext lent)
    (hr : map.pml4Phys ∈ R) (hkern : map.isKernel = false) (hflag : OwnFlags flags)
    (huser : ∀ v, pagesFrom vaddr n v → vmmUserRange v 4096 = true)
    (hfree : fixed = true ∨ ∀ v, pagesFrom vaddr n v → nodeOf 3 (leafAt s.mem map.pml4Phys v) = none) (h0 : P 0 s.mem)
    (hput : ∀ k m m', k < n → P k m → Placed m m' R map.pml4Phys (vaddr + k * 4096) flags → P (k + 1) m')
    (hdrop : ∀ k m m', k < n → P k m → Dropped m m' R map.pml4Phys (vaddr + k * 4096) flags → E k m') :
    Outcome (fun s' => Family s' R ext lent ∧ P n s'.mem ∧ Steady s s')
      (fun e => Family e.1 R ext lent ∧ e.2 < n ∧ E e.2 e.1.mem ∧ Steady s e.1)
      ((List.range n).foldlM (mmapPage map vaddr length offset fixed flags node) s) := by
  have hloop := foldlM_range_rule
    (fun k s' => (Family s' R ext lent ∧ P k s'.mem ∧ Steady s s') ∧ (fixed = true ∨
      ∀ j, k ≤ j → j < n → nodeOf 3 (leafAt s'.mem map.pml4Phys (vaddr + j * 4096)) = none))
    (fun e => Family e.1 R ext lent ∧ e.2 < n ∧ E e.2 e.1.mem ∧ Steady s e.1)
    (f := mmapPage map vaddr length offset fixed flags node) (n := n) (s := s) ?start ?step
  · exact ⟨fun s' heq => (hloop.of_ok s' heq).1, hloop.of_error⟩
  · refine ⟨⟨hfam, h0, rfl, rfl⟩, ?_⟩
    rcases hfree with hfixed | hfree
    · exact .inl hfixed
    · exact .inr fun j _ hj => hfree _ ⟨j, hj, rfl⟩
  · intro k s' hk ⟨⟨hfam', hP, hstay⟩, hready⟩
    have hvk := huser _ ⟨k, hk, rfl⟩
    have hspec := mmapPage_spec length offset node hfam' hr hkern hflag hvk
      (hready.imp_right fun h => h k le_rfl hk)
    refine ⟨fun s'' heq => ?_, fun e heq => ?_⟩
    · obtain ⟨hfam'', hpl, hst⟩ := hspec.of_ok s'' heq
      refine ⟨⟨hfam'', hput k _ _ hk hP hpl, hstay.trans hst⟩, hready.imp_right fun h j hkj hj => ?_⟩
      rw [hpl.leaf_ne hr (lt_userEnd_of_range hvk) (lt_userEnd_of_range (huser _ ⟨j, hj, rfl⟩)) (by omega)]
      exact h j (by omega) hj
    · obtain ⟨hek, hfam'', hdr, hst⟩ := hspec.of_error e heq
      rw [← hek] at hdr
      exact ⟨hfam'', hek ▸ hk, hdrop e.2 _ _ (hek ▸ hk) (hek ▸ hP) hdr, hstay.trans hst⟩

theorem deviceLoop {phys : List Nat} (hfam : Family s R ext lent) (hr : map.pml4Phys ∈ R)
    (hkern : map.isKernel = false) (hflag : flags &&& physAddrMask = 0#64)
    (hborr : has flags flagBorrowed = true) (hphys : ∀ a ∈ phys, a < 2 ^ 52 ∧ a / 4096 ∈ lent)
    (huser : ∀ v, pagesFrom vaddr phys.length v → vmmUserRange v 4096 = true) :
    Outcome (fun s' => Family s' R ext lent ∧ Steady s s')
      (fun e => Family e.1 R ext lent ∧ e.2 < phys.length ∧ Steady s e.1)
      ((List.range phys.length).foldlM (devicePage map vaddr phys flags) s) := by
  refine foldlM_range_rule (fun _ s' => Family s' R ext lent ∧ Steady s s') _ ⟨hfam, rfl, rfl⟩ ?_
  intro k s' hk ⟨hfam', hstay⟩
  have hvk := huser _ ⟨k, hk, rfl⟩
  obtain ⟨hfam1, -, hgone, hstay1⟩ := release_page hfam' hr hkern hvk
  have hmem : phys.getD k 0 ∈ phys := by
    rw [getD_eq_getElem _ _ hk]
    exact getElem_mem hk
  obtain ⟨hlt, hlent⟩ := hphys _ hmem
  have hmap := hfam1.mapPage_borrowed (v := vaddr + k * 4096) hr hkern hlt hlent hflag hborr fun _ => by
    rw [leafAt] at hgone
    rw [nodeOf_three, hgone]
    rfl
  have hstay2 := hfam1.mapPage_steady hr hkern (vaddr + k * 4096) (phys.getD k 0) flags
  unfold devicePage
  rcases heq : vmmMapPage (vmmReleaseUserPage s' map (vaddr + k * 4096)).2 map (vaddr + k * 4096) (phys.getD k 0) flags
    with ⟨_ | _, s''⟩
  · rw [heq] at hmap hstay2
    exact .error ⟨hmap, hk, (hstay.trans hstay1).trans hstay2⟩
  · rw [heq] at hmap hstay2
    exact .ok ⟨hmap, (hstay.trans hstay1).trans hstay2⟩

end Loops

/-! ## The range of a call -/

theorem searchRange_spec {fits : Nat → Bool} {taken : Nat → Option Nat}
    (hmod : ∀ a off, taken a = some off → off % 4096 = 0) (h : searchRange fits taken stop vaddr = some v) :
    fits v = true ∧ taken v = none ∧ v % 4096 = vaddr % 4096 := by
  fun_induction searchRange fits taken stop vaddr with
  | case1 vaddr hin hnone =>
    rw [← Option.some.inj h]
    exact ⟨hin.2, hnone, rfl⟩
  | case2 vaddr hin off hoff ih =>
    obtain ⟨hfits, hnone, hv⟩ := ih h
    have := hmod vaddr off hoff
    exact ⟨hfits, hnone, by omega⟩
  | case3 => simp at h

theorem pagesFrom_pageUp (halign : addr % 4096 = 0) (huser : vmmUserRange addr length = true)
    (hv : pagesFrom addr (pageUp length / 4096) v) : vmmUserRange v 4096 = true := by
  obtain ⟨k, hk, hv⟩ := hv
  simp only [vmmUserRange, userEnd, Bool.and_eq_true, decide_eq_true_eq] at huser ⊢
  rw [pageUp] at hk
  omega

theorem pagesFrom_range (huser : vmmUserRange vaddr n = true) (hv : pagesFrom vaddr (n / 4096) v) :
    vmmUserRange v 4096 = true := by
  obtain ⟨k, hk, rfl⟩ := hv
  simp only [vmmUserRange, userEnd, Bool.and_eq_true, decide_eq_true_eq] at huser ⊢
  omega

theorem findFree_spec {map : Pagemap} {span : Nat} (hspan : span % 4096 = 0) (h : findFree m map span vaddr = some v) :
    vmmUserRange v span = true ∧ v % 4096 = vaddr % 4096 ∧
      ∀ u, pagesFrom v (span / 4096) u → vmmVirtToPhys m map u = 0 := by
  have hmod : ∀ a off, firstMapped m map span a = some off → off % 4096 = 0 := by
    intro a off hoff
    have := mem_of_find?_eq_some hoff
    rw [mem_pagesBetween] at this
    omega
  obtain ⟨hfits, hnone, hv⟩ := searchRange_spec hmod h
  refine ⟨hfits, hv, fun u hu => ?_⟩
  obtain ⟨k, hk, rfl⟩ := hu
  have hall := find?_eq_none.mp hnone (k * 4096) (by rw [mem_pagesBetween]; omega)
  simpa using hall

theorem pageUp_mod (x : Nat) : pageUp x % 4096 = 0 := by
  rw [pageUp]
  omega

theorem machine_startMmap (p : Process) : (startMmap p).machine = p.machine := by
  unfold startMmap
  split_ifs <;> rfl

theorem map_startMmap (p : Process) : (startMmap p).map = p.map := by
  unfold startMmap
  split_ifs <;> rfl

theorem startMmap_aligned (h : p.mmapCurrent % 4096 = 0) : (startMmap p).mmapCurrent % 4096 = 0 := by
  unfold startMmap
  split_ifs
  · norm_num
  · exact h

structure Target (p : Process) (vaddr length : Nat) (fixed : Bool) : Prop where
  range : vmmUserRange vaddr (pageUp length) = true
  aligned : vaddr % 4096 = 0
  free : fixed = true ∨ ∀ v, pagesFrom vaddr (pageUp length / 4096) v → vmmVirtToPhys p.machine.mem p.map v = 0

theorem Target.of_mmapTarget (halign : p.mmapCurrent % 4096 = 0)
    (h : mmapTarget p addr (pageUp length) fixed = some vaddr) (huser : vmmUserRange vaddr (pageUp length) = true) :
    Target p vaddr length fixed := by
  unfold mmapTarget at h
  dsimp only at h
  have hst0 : (if pageDown addr = 0 then p.mmapCurrent else pageDown addr) % 4096 = 0 := by
    split_ifs
    · exact halign
    · rw [pageDown]
      omega
  generalize (if pageDown addr = 0 then p.mmapCurrent else pageDown addr) = start at hst0 h
  cases fixed with
  | true => exact ⟨huser, Option.some.inj h ▸ hst0, .inl rfl⟩
  | false =>
    obtain ⟨-, hmod, hfree⟩ := findFree_spec (pageUp_mod length) h
    exact ⟨huser, hmod.trans hst0, .inr hfree⟩

theorem mmapNode_error {e : Int} (h : mmapNode anonymous fd = .error e) : e < 0 := by
  unfold mmapNode at h
  split_ifs at h
  split at h
  · rw [← Except.error.inj h]
    norm_num
  · rw [← Except.error.inj h]
    norm_num
  · simp at h

theorem mmapNode_ok {node : FdNode} (h : mmapNode anonymous fd = .ok (some node)) : anonymous = false ∧ fd = node := by
  unfold mmapNode at h
  split_ifs at h with hanon
  · simp at h
  · refine ⟨by simpa using hanon, ?_⟩
    split at h
    · simp at h
    · simp at h
    · exact Option.some.inj (Except.ok.inj h)

/-- **The paths of `sys_mmap`**: an error that changes no mapping, the page loop, or a device. -/
theorem sysMmap_cases (p : Process) (addr length : Nat) (prot flags : BitVec 32) (fd : FdNode) (offset : Int)
    (halign : p.mmapCurrent % 4096 = 0) :
    ((sysMmap p addr length prot flags fd offset).1 < 0 ∧ ((sysMmap p addr length prot flags fd offset).2 = p ∨
      (sysMmap p addr length prot flags fd offset).2 = startMmap p)) ∨
    length ≠ 0 ∧ ∃ vaddr, (mmapTarget (startMmap p) addr (pageUp length) (mapFixed flags) = some vaddr ∧
        (mapFixed flags = true → vaddr = addr)) ∧ Target (startMmap p) vaddr length (mapFixed flags) ∧
      ((∃ node, (mapAnonymous flags = true → node = none) ∧ sysMmap p addr length prot flags fd offset =
        mmapPages (startMmap p) vaddr length offset.toNat (mapFixed flags) prot node) ∨
      mapAnonymous flags = false ∧ ((∃ bo, fd = .drm bo ∧ sysMmap p addr length prot flags fd offset =
          finishDevice vaddr (pageUp length) prot (drmMmapBoLocked bo (startMmap p) vaddr length)) ∨
        ∃ bo, fd = .i915 bo ∧ sysMmap p addr length prot flags fd offset =
          finishDevice vaddr (pageUp length) prot (i915GemMmapUser bo (startMmap p) vaddr length))) := by
  unfold sysMmap
  dsimp only
  by_cases hargs : length = 0 ∨ length > userEnd - 4096 ∨ prot &&& ~~~7 ≠ 0 ∨ (flags &&& 3 ≠ 1 ∧ flags &&& 3 ≠ 2) ∨
      offset < 0 ∨ offset % 4096 ≠ 0
  · rw [if_pos hargs]
    exact .inl ⟨by norm_num, .inl rfl⟩
  rw [if_neg hargs]
  by_cases haddr : (mapFixed flags = true ∧ addr % 4096 ≠ 0) ∨ (addr ≠ 0 ∧ (!vmmUserRange addr (pageUp length)) = true) ∨
      (mapFixed flags = true ∧ addr = 0)
  · rw [if_pos haddr]
    exact .inl ⟨by norm_num, .inl rfl⟩
  rw [if_neg haddr]
  cases hnode : mmapNode (mapAnonymous flags) fd with
  | error e => exact .inl ⟨mmapNode_error hnode, .inl rfl⟩
  | ok node =>
    cases hdest : mmapTarget (startMmap p) addr (pageUp length) (mapFixed flags) with
    | none => exact .inl ⟨by norm_num, .inr rfl⟩
    | some vaddr =>
      dsimp only
      by_cases huser : (!vmmUserRange vaddr (pageUp length)) = true
      · rw [if_pos huser]
        exact .inl ⟨by norm_num, .inr rfl⟩
      rw [if_neg huser]
      have huser' : vmmUserRange vaddr (pageUp length) = true := by simpa using huser
      have hlength : length ≠ 0 := fun h => hargs (.inl h)
      have hfixed : mapFixed flags = true → vaddr = addr := by
        intro hfix
        rw [mmapTarget, hfix, if_pos rfl, Option.some.injEq, pageDown] at hdest
        have haligned : addr % 4096 = 0 := by_contra fun h => haddr (.inl ⟨hfix, h⟩)
        have hnonzero : addr ≠ 0 := fun h => haddr (.inr (.inr ⟨hfix, h⟩))
        split_ifs at hdest <;> omega
      refine .inr ⟨hlength, vaddr, ⟨rfl, hfixed⟩, .of_mmapTarget (startMmap_aligned halign) hdest huser', ?_⟩
      rcases node with _ | (_ | _ | node | bo | bo)
      · exact .inl ⟨none, fun _ => rfl, rfl⟩
      · exact .inl ⟨none, fun _ => rfl, rfl⟩
      · exact .inl ⟨none, fun _ => rfl, rfl⟩
      · refine .inl ⟨some node, fun h => ?_, rfl⟩
        rw [(mmapNode_ok hnode).1] at h
        simp at h
      · exact .inr ⟨(mmapNode_ok hnode).1, .inl ⟨bo, (mmapNode_ok hnode).2, rfl⟩⟩
      · exact .inr ⟨(mmapNode_ok hnode).1, .inr ⟨bo, (mmapNode_ok hnode).2, rfl⟩⟩

/-! ## Processes -/

structure Process.Ok (p : Process) (R ext lent : Set Nat) : Prop where
  family : Family p.machine R ext lent
  root : p.map.pml4Phys ∈ R
  user : p.map.isKernel = false
  aligned : p.mmapCurrent % 4096 = 0

section Process

variable {ext lent : Set Nat}

theorem Process.Ok.startMmap (h : p.Ok R ext lent) : (startMmap p).Ok R ext lent := by
  refine ⟨?_, ?_, ?_, startMmap_aligned h.aligned⟩
  · rw [machine_startMmap]
    exact h.family
  · rw [map_startMmap]
    exact h.root
  · rw [map_startMmap]
    exact h.user

theorem Process.Ok.advance (h : p.Ok R ext lent) (hfam : Family s R ext lent) (hstop : stop % 4096 = 0) :
    (advanceMmap { p with machine := s } stop).Ok R ext lent := by
  unfold advanceMmap
  split_ifs
  · exact ⟨hfam, h.root, h.user, hstop⟩
  · exact ⟨hfam, h.root, h.user, h.aligned⟩

theorem machine_advanceMmap (p : Process) (stop : Nat) : (advanceMmap p stop).machine = p.machine := by
  unfold advanceMmap
  split_ifs <;> rfl

theorem map_advanceMmap (p : Process) (stop : Nat) : (advanceMmap p stop).map = p.map := by
  unfold advanceMmap
  split_ifs <;> rfl

theorem userProtection_own (prot : BitVec 32) : OwnFlags (userProtection prot) := by
  unfold userProtection
  split_ifs <;> exact ⟨by decide, by decide⟩

/-- **The page loop of `sys_mmap` with its `fail` path.** An invariant of the placed pages holds when it
succeeds; a call that fails has released what it had placed. -/
theorem mmapPages_rule (offset : Nat) (prot : BitVec 32) (node : Option FileNode) (P E : Nat → Mem → Prop)
    (hok : p.Ok R ext lent) (hdest : Target p vaddr length fixed) (h0 : P 0 p.machine.mem)
    (hput : ∀ k m m', k < pageUp length / 4096 → P k m →
      Placed m m' R p.map.pml4Phys (vaddr + k * 4096) (userProtection prot) → P (k + 1) m')
    (hdrop : ∀ k m m', k < pageUp length / 4096 → P k m →
      Dropped m m' R p.map.pml4Phys (vaddr + k * 4096) (userProtection prot) → E k m') :
    (mmapPages p vaddr length offset fixed prot node).2.Ok R ext lent ∧
      (mmapPages p vaddr length offset fixed prot node).2.map = p.map ∧
      ((mmapPages p vaddr length offset fixed prot node).1 < 0 ∧ (∃ k m, E k m ∧
        Cleared m (mmapPages p vaddr length offset fixed prot node).2.machine.mem R p.map.pml4Phys (pagesFrom vaddr k) ∧
        ∀ v, pagesFrom vaddr k v → has (leafAt (mmapPages p vaddr length offset fixed prot node).2.machine.mem
          p.map.pml4Phys v) flagPresent = false) ∨
      (mmapPages p vaddr length offset fixed prot node).1 = vaddr ∧
        P (pageUp length / 4096) (mmapPages p vaddr length offset fixed prot node).2.machine.mem) := by
  have huser : ∀ v, pagesFrom vaddr (pageUp length / 4096) v → vmmUserRange v 4096 = true :=
    fun v hv => pagesFrom_range hdest.range hv
  have hfree := hdest.free.imp_right fun h v hv =>
    hok.family.leaf_of_untranslated hok.root (pml4Index_lt_of_userRange (huser v hv)) (h v hv)
  have hloop := mmapLoop length offset node P E hok.family hok.root hok.user (userProtection_own prot) huser hfree h0
    hput hdrop
  unfold mmapPages
  cases hfold : (List.range (pageUp length / 4096)).foldlM
      (mmapPage p.map vaddr length offset fixed (userProtection prot) node) p.machine with
  | ok s =>
    obtain ⟨hfam, hP, -⟩ := hloop.of_ok s hfold
    have hstop : (vaddr + pageUp length) % 4096 = 0 := by
      have := hdest.aligned
      have := pageUp_mod length
      omega
    refine ⟨hok.advance hfam hstop, map_advanceMmap { p with machine := s } _, .inr ⟨rfl, ?_⟩⟩
    rw [machine_advanceMmap]
    exact hP
  | error e =>
    obtain ⟨hfam, hlt, hE, -⟩ := hloop.of_error e hfold
    obtain ⟨hfam', hclear, hgone, -⟩ := releasePages_spec hfam hok.root hok.user fun v hv =>
      huser v (hv.imp fun k hk => ⟨hk.1.trans hlt, hk.2⟩)
    exact ⟨⟨hfam', hok.root, hok.user, hok.aligned⟩, rfl, .inl ⟨by norm_num, e.2, e.1.mem, hE, hclear, hgone⟩⟩

end Process

end SzpontOS.Syscall
