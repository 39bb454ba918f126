import SzpontOS.Ipc.Shm

/-!
# The pages of shared memory segments

What the loops of `shm.c` do to the page tables and to the allocator. `Borrows` says that a tree has a page
borrowed from a frame; every call but a successful `shm_at` only takes borrowed pages away (`BorrowsLess`).
`FreshPages` are frames that were taken from the allocator and belong to nobody else.
-/

namespace SzpontOS.Ipc

open Lib Lib.Radix Mm Syscall List

/-! ## Borrowed pages -/

/-- The tree `r` has page `n` borrowed from the frame at `a`. -/
structure Borrows (m : Mem) (r n a : Nat) : Prop where
  present : has (leafOf m r n) flagPresent = true
  borrowed : has (leafOf m r n) flagBorrowed = true
  addr : entryAddr (leafOf m r n) = a

variable {m : Mem} {r n a v k : Nat} {s s' : Machine} {pages : List Nat} {R ext lent : Set Nat} {seg : Segment}

theorem Borrows.congr {m' : Mem} (hb : Borrows m' r n a) (heq : leafOf m' r n = leafOf m r n) : Borrows m r n a := by
  obtain ⟨hpres, hborr, haddr⟩ := hb
  rw [heq] at hpres hborr haddr
  exact ⟨hpres, hborr, haddr⟩

theorem exists_page {j : Nat} {q : List Nat} (hq : q.length = 3) (h : slot m 256 r q j ≠ 0) :
    ∃ n, n < 2 ^ 35 ∧ q = pageRoute n ∧ j = ptIndex (n * 4096) := by
  obtain ⟨t, hw, hj⟩ := walk_of_slot h
  match q, hq with
  | [i0, i1, i2], _ =>
    simp only [walk, walkFrom, child, Option.bind_eq_some_iff, Option.ite_none_right_eq_some, bound,
      ↓reduceIte, Nat.reduceAdd, OfNat.ofNat_ne_zero, one_ne_zero] at hw
    obtain ⟨-, ⟨h0, -⟩, -, ⟨h1, -⟩, -, ⟨h2, -⟩, -⟩ := hw
    have hj' : j < 512 := hj
    refine ⟨pageNumber i0 i1 i2 j, ?_, (pageRoute_pageNumber h0 h1 h2 hj').symm, (ptIndex_pageNumber hj').symm⟩
    rw [pageNumber]
    omega

/-- Every page that is borrowed now was borrowed before, from the same frame. -/
def BorrowsLess (m m' : Mem) (R : Set Nat) : Prop :=
  ∀ r ∈ R, ∀ n, n < 2 ^ 35 → ∀ a, Borrows m' r n a → Borrows m r n a

namespace BorrowsLess

variable {m' m'' : Mem}

theorem trans (h : BorrowsLess m m' R) (h' : BorrowsLess m' m'' R) : BorrowsLess m m'' R :=
  fun r hr n hn a hb => h r hr n hn a (h' r hr n hn a hb)

theorem of_leaves (h : ∀ r ∈ R, ∀ n, n < 2 ^ 35 → leafOf m' r n = leafOf m r n ∨
    has (leafOf m' r n) flagPresent = false) : BorrowsLess m m' R := by
  intro r hr n hn a hb
  rcases h r hr n hn with heq | habs
  · exact hb.congr heq
  · rw [hb.present] at habs
    simp at habs

theorem of_same (h : SlotsSame m m' 256 R) : BorrowsLess m m' R :=
  of_leaves fun r hr n _ => .inl (h r hr _ _ (length_pageRoute n).le)

theorem of_cleared {V : Nat → Prop} (h : Cleared m m' R r V) : BorrowsLess m m' R := by
  apply of_leaves
  intro r hr n _
  rcases h.kept r hr _ _ (length_pageRoute n).le with heq | hzero
  · exact .inl heq
  · right
    rw [leafOf, hzero]
    exact has_zero _

theorem of_rewritten {flags : Word} (hflag : OwnFlags flags) (h : Rewritten m m' 256 R r pages flags)
    (hpres : ∀ v ∈ pages, has (leafIn m 256 r v) flagPresent = true) : BorrowsLess m m' R := by
  intro r' hr' n _ a hb
  have hleaf := h.slots r' hr' _ (ptIndex (n * 4096)) (length_pageRoute n).le
  rw [← leafOf, ← leafOf] at hleaf
  obtain ⟨hp, hborr, haddr⟩ := hb
  rw [hleaf] at hp hborr haddr
  split_ifs at hp hborr haddr with hhere
  · obtain ⟨rfl, v, hv, hroute, hidx⟩ := hhere
    rw [protEntry_borrowed hflag] at hborr
    rw [protEntry_addr hflag] at haddr
    refine ⟨?_, hborr, haddr⟩
    rw [leafOf, hroute, hidx]
    exact hpres v hv
  · exact ⟨hp, hborr, haddr⟩

end BorrowsLess

/-- What a call does to the machine when it maps nothing of a segment. -/
structure Fewer (s s' : Machine) (R ext lent : Set Nat) : Prop where
  family : Family s' R ext lent
  less : BorrowsLess s.mem s'.mem R
  total : s'.pmm.totalPages = s.pmm.totalPages

theorem Fewer.refl (hfam : Family s R ext lent) : Fewer s s R ext lent := ⟨hfam, fun _ _ _ _ _ hb => hb, rfl⟩

theorem withdraw {X : Set Nat} (hfam : Family s R ext lent)
    (hno : ∀ r ∈ R, ∀ n, n < 2 ^ 35 → ∀ a, Borrows s.mem r n a → a / 4096 ∉ X) : Family s R ext (lent \ X) := by
  refine ⟨⟨hfam.trees.forest, hfam.trees.table, fun r hr q j hq hpres hborr => ?_⟩, ?_⟩
  · refine ⟨hfam.trees.borrow r hr q j hq hpres hborr, ?_⟩
    have hne : slot s.mem 256 r q j ≠ 0 := fun h0 => by simp [h0] at hpres
    obtain ⟨n, hn, rfl, rfl⟩ := exists_page hq hne
    exact hno r hr n hn _ ⟨hpres, hborr, rfl⟩
  · have hledger := hfam.ledger
    exact { hledger with
      lent_ext := fun x hx => hledger.lent_ext hx.1
      log := fun e he => ⟨(hledger.log e he).1, fun hx => (hledger.log e he).2 hx.1⟩ }

theorem virtToPhys_page {map : Pagemap} (hfam : Family s R ext lent) (hr : map.pml4Phys ∈ R) (hn : n < 2 ^ 35) :
    vmmVirtToPhys s.mem map (n * 4096) =
      if has (leafOf s.mem map.pml4Phys n) flagPresent then entryAddr (leafOf s.mem map.pml4Phys n) else 0 := by
  have hv : pml4Index (n * 4096) < 256 := by
    rw [pml4Index_eq]
    omega
  have hlow : n * 4096 &&& 0xFFF = 0 := by
    rw [Nat.and_two_pow_sub_one_eq_mod _ 12]
    omega
  rw [hfam.virtToPhys hr hv, hlow, Nat.or_zero]
  rfl

/-! ## Taking and freeing frames -/

def frameSet (pages : List Nat) : Set Nat := { x | ∃ a ∈ pages, a / 4096 = x }

/-- Frames that were taken from the allocator and belong to nobody else (`ext`). -/
structure FreshPages (total : Nat) (ext : Set Nat) (pages : List Nat) : Prop where
  aligned : ∀ a ∈ pages, a % 4096 = 0
  pos : ∀ a ∈ pages, a ≠ 0
  lt : ∀ a ∈ pages, a / 4096 < total
  fresh : ∀ a ∈ pages, a / 4096 ∉ ext
  nodup : (pages.map (· / 4096)).Nodup

theorem FreshPages.nil {total : Nat} : FreshPages total ext [] :=
  ⟨forall_mem_nil _, forall_mem_nil _, forall_mem_nil _, forall_mem_nil _, nodup_nil⟩

theorem frameSet_nil : frameSet [] = ∅ := by
  simp [frameSet]

theorem frameSet_cons (a : Nat) (pages : List Nat) : frameSet (a :: pages) = insert (a / 4096) (frameSet pages) := by
  ext x
  simp [frameSet, eq_comm]

theorem frameSet_snoc (a : Nat) (pages : List Nat) : frameSet (pages ++ [a]) = insert (a / 4096) (frameSet pages) := by
  rw [← frameSet_cons]
  ext x
  simp [frameSet, or_comm]

theorem FreshPages.tail {total : Nat} (h : FreshPages total ext (a :: pages)) : FreshPages total ext pages :=
  ⟨(forall_mem_cons.mp h.aligned).2, (forall_mem_cons.mp h.pos).2, (forall_mem_cons.mp h.lt).2,
    (forall_mem_cons.mp h.fresh).2, (nodup_cons.mp h.nodup).2⟩

theorem freePages_family (hfam : Family s R (frameSet pages ∪ ext) lent) (hpages : FreshPages s.pmm.totalPages ext pages)
    (hlent : ∀ a ∈ pages, a / 4096 ∉ lent) : Family (pages.foldl Machine.freePage s) R ext lent := by
  induction pages generalizing s with
  | nil => simpa [frameSet_nil] using hfam
  | cons a pages ih =>
    have hmem : a ∈ a :: pages := mem_cons_self ..
    have hback : a / 4096 * 4096 = a := Nat.div_mul_cancel (Nat.dvd_of_mod_eq_zero (hpages.aligned a hmem))
    rw [frameSet_cons, Set.insert_union] at hfam
    have hnot : a / 4096 ∉ frameSet pages ∪ ext := by
      intro h
      rcases h with ⟨b, hb, heq⟩ | h
      · exact (nodup_cons.mp hpages.nodup).1 (mem_map.mpr ⟨b, hb, heq⟩)
      · exact hpages.fresh a hmem h
    have hzero : a / 4096 ≠ 0 := by
      have h1 := hpages.pos a hmem
      omega
    have hfam' := hfam.free hnot (hpages.lt a hmem) hzero (hlent a hmem)
    rw [hback] at hfam'
    have htot := (Steady.freePage s a).1
    exact ih hfam' (htot ▸ hpages.tail) (forall_mem_cons.mp hlent).2

theorem freePages_log (s : Machine) (pages : List Nat) :
    (pages.foldl Machine.freePage s).freed.map Prod.fst = (pages.map (· / 4096)).reverse ++ s.freed.map Prod.fst := by
  induction pages generalizing s with
  | nil => rfl
  | cons a pages ih =>
    rw [foldl_cons, ih, map_cons, reverse_cons, append_assoc]
    rfl

theorem freePages_mem (s : Machine) (pages : List Nat) : (pages.foldl Machine.freePage s).mem = s.mem ∧
      (pages.foldl Machine.freePage s).pmm.totalPages = s.pmm.totalPages := by
  induction pages generalizing s with
  | nil => exact ⟨rfl, rfl⟩
  | cons a pages ih =>
    exact ⟨(ih _).1, (ih _).2.trans (Steady.freePage s a).1⟩

theorem FreshPages.snoc {p' : Pmm} (hpages : FreshPages s.pmm.totalPages ext pages)
    (hfam : Family s R (frameSet pages ∪ ext) lent) (htake : Takes s.pmm p' a 1) :
    FreshPages s.pmm.totalPages ext (pages ++ [a * 4096]) := by
  obtain ⟨hext, hlt, hzero, -⟩ := hfam.of_takes htake
  have hdiv : a * 4096 / 4096 = a := Nat.mul_div_cancel a (by norm_num)
  have hcase : ∀ {P : Nat → Prop}, (∀ b ∈ pages, P b) → P (a * 4096) → ∀ b ∈ pages ++ [a * 4096], P b :=
    fun hold hnew => forall_mem_append.mpr ⟨hold, forall_mem_singleton.mpr hnew⟩
  refine ⟨hcase hpages.aligned (by omega), hcase hpages.pos (by omega), hcase hpages.lt (by rwa [hdiv]),
    hcase hpages.fresh (by rw [hdiv]; exact fun h => hext (.inr h)), ?_⟩
  rw [map_append, nodup_append]
  refine ⟨hpages.nodup, by simp, fun x hx y hy => ?_⟩
  rintro rfl
  obtain ⟨b, hb, rfl⟩ := mem_map.mp hx
  have hab : b / 4096 = a := by simpa [hdiv] using hy
  exact hext (.inl ⟨b, hb, hab⟩)

/-- What the page loop of `shm_get` leaves: the frames, or what it found. -/
structure Taken (s s' : Machine) (R ext lent : Set Nat) : Prop where
  family : Family s' R ext lent
  slots : SlotsSame s.mem s'.mem 256 R
  total : s'.pmm.totalPages = s.pmm.totalPages

theorem shmTakePages_spec (hlent : lent ⊆ ext) (n : Nat) (hfam : Family s R (frameSet pages ∪ ext) lent)
    (hpages : FreshPages s.pmm.totalPages ext pages) :
    match shmTakePages s pages n with
    | (some pages', s') => Taken s s' R (frameSet pages' ∪ ext) lent ∧ FreshPages s.pmm.totalPages ext pages' ∧
      pages'.length = pages.length + n ∧ s'.freed = s.freed
    | (none, s') => Taken s s' R ext lent := by
  induction n generalizing s pages with
  | zero => exact ⟨⟨hfam, fun _ _ _ _ _ => rfl, rfl⟩, hpages, rfl, rfl⟩
  | succ n ih =>
    rw [shmTakePages]
    rcases s.allocPage_spec hfam.ledger.ok with ⟨a, p', htake, hgot⟩ | hfail
    · have hpos : a * 4096 ≠ 0 := by
        have := htake.pos
        omega
      have haddr := htake.pageAddr hfam.ledger.ok.phys
      have hsame : ∀ x, x % 4096 = 0 → x ≠ a * 4096 → SamePage s.mem (s.mem.memset (a * 4096) 0 4096) x :=
        fun x hx hne => .memset 0 haddr.aligned hx hne
      have hslot := slotsSame_of_fresh _ hfam.trees.forest hfam.reached_used htake hsame
      have hfam' : Family { s with pmm := p', faults := s.faults.tail, mem := s.mem.memset (a * 4096) 0 4096 } R
          (frameSet (pages ++ [a * 4096]) ∪ ext) lent := by
        rw [frameSet_snoc, Nat.mul_div_cancel a (by norm_num), Set.insert_union]
        exact hfam.take htake rfl hsame
      have hpages' := hpages.snoc hfam htake
      have htot : p'.totalPages = s.pmm.totalPages := htake.total
      rw [hgot]
      simp only [hpos, ↓reduceIte]
      have hrest := ih hfam' (by rw [htot]; exact hpages')
      generalize shmTakePages _ _ n = result at hrest ⊢
      match result, hrest with
      | (some pages', s'), ⟨htook, hp', hlen, hgone⟩ =>
        refine ⟨⟨htook.family, fun r hr q j hq => ?_, htook.total.trans htot⟩, ?_, ?_, hgone⟩
        · rw [htook.slots r hr q j hq, hslot r hr q j hq]
        · rw [← htot]
          exact hp'
        · rw [hlen, length_append, length_singleton]
          omega
      | (none, s'), htook =>
        refine ⟨htook.family, fun r hr q j hq => ?_, htook.total.trans htot⟩
        rw [htook.slots r hr q j hq, hslot r hr q j hq]
    · rw [hfail]
      have hfam' : Family { s with faults := s.faults.tail } R (frameSet pages ∪ ext) lent := hfam.congr rfl rfl rfl
      have hown : ∀ a ∈ pages, a / 4096 ∉ lent := fun a ha hl => hpages.fresh a ha (hlent hl)
      refine ⟨freePages_family hfam' hpages hown, fun r hr q j hq => ?_, ?_⟩
      · rw [(freePages_mem _ pages).1]
      · rw [(freePages_mem _ pages).2]

/-! ## Mapping -/

/-- The leaves after the first `k` pages of a segment were mapped at `vaddr`: new ones for these pages, the old
ones elsewhere. -/
def MappedTo (m m' : Mem) (R : Set Nat) (r vaddr : Nat) (pages : List Nat) (k : Nat) : Prop :=
  ∀ r' ∈ R, ∀ n, n < 2 ^ 35 → leafOf m' r' n = leafOf m r' n ∨
    r' = r ∧ ∃ i, i < k ∧ n * 4096 = vaddr + i * 4096 ∧ leafOf m' r' n = leafEntry (pages.getD i 0) deviceFlags

section Mapping

variable {map : Pagemap} {vaddr : Nat}

theorem mapPage_leaf {phys : Nat} (hfam : Family s R ext lent) (hr : map.pml4Phys ∈ R) (hkern : map.isKernel = false)
    (hphys : PageAddr phys) {r' : Nat} (hr' : r' ∈ R) (hn : n < 2 ^ 35) (hv : v % 4096 = 0) :
    leafOf (vmmMapPage s map v phys deviceFlags).2.mem r' n =
      if (vmmMapPage s map v phys deviceFlags).1 = true ∧ r' = map.pml4Phys ∧ n * 4096 = v then
        leafEntry phys deviceFlags
      else leafOf s.mem r' n := by
  have hdown : pageDown phys = phys := by
    rw [pageDown]
    have := hphys.aligned
    omega
  obtain ⟨s1, hfam1, hdesc, heq | ⟨huser, pt, hpt, heq⟩⟩ := hfam.mapPage_cases hr hkern v phys deviceFlags
  · rw [heq, if_neg (by simp)]
    exact hdesc.leaf hr' (length_pageRoute n) _
  · have hleaf : leafOf (s1.write pt (ptIndex v) (leafEntry phys deviceFlags)).mem r' n =
        if r' = map.pml4Phys ∧ pageRoute n = route v ∧ ptIndex (n * 4096) = ptIndex v then leafEntry phys deviceFlags
        else leafOf s1.mem r' n :=
      hfam1.slotsUpdate_leaf hr hpt _ r' hr' _ _ (length_pageRoute n).le
    rw [heq, hdown, hleaf, show leafOf s1.mem r' n = leafOf s.mem r' n from hdesc.leaf hr' (length_pageRoute n) _]
    refine if_congr ?_ rfl rfl
    constructor
    · rintro ⟨hroot, hroute, hidx⟩
      have hpage := page_of_route (v := n * 4096) (by simp only [userEnd]; omega) (lt_userEnd_of_range huser)
        hroute hidx
      exact ⟨rfl, hroot, by omega⟩
    · rintro ⟨_, hroot, hv⟩
      rw [pageRoute, hv]
      exact ⟨hroot, rfl, rfl⟩

theorem deviceFlags_addr : deviceFlags &&& physAddrMask = 0#64 := by decide

theorem deviceFlags_borrowed : has deviceFlags flagBorrowed = true := by decide

theorem shmMapLoop (hfam : Family s R ext lent) (hr : map.pml4Phys ∈ R) (hkern : map.isKernel = false)
    (hpages : ∀ i, i < n → PageAddr (pages.getD i 0) ∧ pages.getD i 0 / 4096 ∈ lent) (halign : vaddr % 4096 = 0)
    (huser : vmmUserRange vaddr (n * 4096) = true)
    (hfree : ∀ i, i < n → vmmVirtToPhys s.mem map (vaddr + i * 4096) = 0) :
    Outcome (fun s' => Family s' R ext lent ∧ MappedTo s.mem s'.mem R map.pml4Phys vaddr pages n ∧ Steady s s')
      (fun e => Family e.1 R ext lent ∧ e.2 < n ∧ MappedTo s.mem e.1.mem R map.pml4Phys vaddr pages e.2 ∧ Steady s e.1)
      ((List.range n).foldlM (shmMapPage map vaddr pages) s) := by
  have hpage : ∀ i, i < n → ∃ p, p < 2 ^ 35 ∧ p * 4096 = vaddr + i * 4096 := by
    intro i hi
    simp only [vmmUserRange, userEnd, Bool.and_eq_true, decide_eq_true_eq] at huser
    exact ⟨(vaddr + i * 4096) / 4096, by omega, by omega⟩
  refine foldlM_range_rule (fun k s' => Family s' R ext lent ∧ MappedTo s.mem s'.mem R map.pml4Phys vaddr pages k ∧
    Steady s s') _ ⟨hfam, fun _ _ _ _ => .inl rfl, rfl, rfl⟩ ?_
  rintro k s' hk ⟨hfam', hmapped, hstay⟩
  obtain ⟨haddr, hlent⟩ := hpages k hk
  obtain ⟨p, hp, hpv⟩ := hpage k hk
  -- the leaf of page `k` is as it was before the loop
  have hleaf : leafOf s'.mem map.pml4Phys p = leafOf s.mem map.pml4Phys p := by
    rcases hmapped _ hr p hp with heq | ⟨-, i, hi, hiv, -⟩
    · exact heq
    · omega
  have hnone : nodeOf 3 (slot s'.mem 256 map.pml4Phys (route (vaddr + k * 4096)) (ptIndex (vaddr + k * 4096))) = none := by
    rw [← hpv]
    show nodeOf 3 (leafOf s'.mem map.pml4Phys p) = none
    rw [hleaf]
    apply hfam.leaf_of_untranslated hr
    · rw [pml4Index_eq]
      omega
    · rw [hpv]
      exact hfree k hk
  have hmap := hfam'.mapPage_borrowed (v := vaddr + k * 4096) hr hkern haddr.lt hlent deviceFlags_addr
    deviceFlags_borrowed fun _ => hnone
  have hst := hfam'.mapPage_steady hr hkern (vaddr + k * 4096) (pages.getD k 0) deviceFlags
  have hnew := fun x n (hx : x ∈ R) (hn : n < 2 ^ 35) =>
    mapPage_leaf (v := vaddr + k * 4096) hfam' hr hkern haddr hx hn (by omega)
  unfold shmMapPage
  rcases hres : vmmMapPage s' map (vaddr + k * 4096) (pages.getD k 0) deviceFlags with ⟨_ | _, s''⟩
  · rw [hres] at hmap hst hnew
    refine .error ⟨hmap, hk, fun r' hr' n hn => ?_, hstay.trans hst⟩
    rw [hnew r' n hr' hn, if_neg (by simp)]
    exact hmapped r' hr' n hn
  · rw [hres] at hmap hst hnew
    refine .ok ⟨hmap, fun r' hr' n hn => ?_, hstay.trans hst⟩
    rw [hnew r' n hr' hn]
    split_ifs with hhere
    · exact .inr ⟨hhere.2.1, k, by omega, hhere.2.2, rfl⟩
    · rcases hmapped r' hr' n hn with heq | ⟨hroot, i, hi, hiv, heq⟩
      · exact .inl heq
      · exact .inr ⟨hroot, i, by omega, hiv, heq⟩

theorem userRange_mono (h : vmmUserRange v n = true) (hle : k ≤ n) : vmmUserRange v k = true := by
  simp only [vmmUserRange, Bool.and_eq_true, decide_eq_true_eq] at h ⊢
  exact ⟨h.1, hle.trans h.2⟩

theorem shmMap_undone {s1 : Machine} (hfam : Family s1 R ext lent) (hr : map.pml4Phys ∈ R)
    (hkern : map.isKernel = false) (hmapped : MappedTo s.mem s1.mem R map.pml4Phys vaddr pages k) (hst : Steady s s1)
    (huser : vmmUserRange vaddr (k * 4096) = true) : Fewer s (releasePages s1 map vaddr k) R ext lent := by
  have hpages : ∀ v, pagesFrom vaddr k v → vmmUserRange v 4096 = true := by
    intro v hv
    apply pagesFrom_range huser
    rwa [Nat.mul_div_cancel _ (by norm_num)]
  obtain ⟨hfam', hclear, hgone, hstay⟩ := releasePages_spec hfam hr hkern hpages
  refine ⟨hfam', .of_leaves fun r' hr' n hn => ?_, (hst.trans hstay).1⟩
  rcases hclear.kept r' hr' _ (ptIndex (n * 4096)) (length_pageRoute n).le with heq | hzero
  · rcases hmapped r' hr' n hn with hold | ⟨hroot, i, hi, hiv, -⟩
    · left
      rw [← hold]
      exact heq
    · right
      have habs := hgone (n * 4096) ⟨i, hi, hiv⟩
      rw [hroot]
      exact habs
  · right
    rw [leafOf, hzero]
    exact has_zero _

/-! ## Unmapping -/

/-- **The unmapping loop of `shm_dt`** leaves no page of the range that shows the segment's frame. -/
theorem shmUnmapPages_spec (hfam : Family s R ext lent) (hr : map.pml4Phys ∈ R) (hkern : map.isKernel = false)
    (halign : vaddr % 4096 = 0) (huser : vmmUserRange vaddr (seg.numPages * 4096) = true) :
    Fewer s (shmUnmapPages s map vaddr seg) R ext lent ∧ ∀ i, i < seg.numPages → ∀ n, n * 4096 = vaddr + i * 4096 →
      ¬ Borrows (shmUnmapPages s map vaddr seg).mem map.pml4Phys n (seg.physPages.getD i 0) := by
  simp only [vmmUserRange, userEnd, Bool.and_eq_true, decide_eq_true_eq] at huser
  refine foldl_range_rule (fun k s' => Fewer s s' R ext lent ∧ ∀ i, i < k → ∀ n, n * 4096 = vaddr + i * 4096 →
    ¬ Borrows s'.mem map.pml4Phys n (seg.physPages.getD i 0)) ⟨.refl hfam, fun _ h => by omega⟩ fun k s' hk h => ?_
  obtain ⟨hfewer, hgone⟩ := h
  have hv : vmmUserRange (vaddr + k * 4096) 4096 = true := by
    simp only [vmmUserRange, userEnd, Bool.and_eq_true, decide_eq_true_eq]
    omega
  split_ifs with hshows
  · obtain ⟨hfam', hclear, habs, hstay⟩ := release_page hfewer.family hr hkern hv
    have hless := BorrowsLess.of_cleared hclear
    refine ⟨⟨hfam', hfewer.less.trans hless, hstay.1.trans hfewer.total⟩, fun i hi n hn hb => ?_⟩
    by_cases hik : i = k
    · rw [← hik, ← hn] at habs
      have hpres := hb.present
      rw [show leafOf (vmmReleaseUserPage s' map (vaddr + k * 4096)).2.mem map.pml4Phys n =
        leafAt (vmmReleaseUserPage s' map (vaddr + k * 4096)).2.mem map.pml4Phys (n * 4096) from rfl, ← hik, ← hn,
        habs] at hpres
      simp at hpres
    · exact hgone i (by omega) n hn (hless _ hr n (by omega) _ hb)
  · refine ⟨hfewer, fun i hi n hn hb => ?_⟩
    by_cases hik : i = k
    · apply hshows
      rw [← hik, ← hn, virtToPhys_page hfewer.family hr (by omega), if_pos hb.present]
      exact hb.addr
    · exact hgone i (by omega) n hn hb

end Mapping

/-! ## The other calls on an address space -/

section Calls

variable {map : Pagemap}

theorem munmap_spec (hfam : Family s R ext lent) (hr : map.pml4Phys ∈ R) (hkern : map.isKernel = false)
    (current addr length : Nat) : Fewer s (sysMunmap ⟨s, map, current⟩ addr length).2.machine R ext lent := by
  unfold sysMunmap
  split_ifs with hargs
  · exact .refl hfam
  · simp only [not_or, Bool.not_eq_true', not_not, Bool.not_eq_false] at hargs
    obtain ⟨-, halign, huser⟩ := hargs
    have hpages : ∀ v, pagesFrom addr (pageUp length / 4096) v → vmmUserRange v 4096 = true :=
      fun v hv => pagesFrom_pageUp halign huser hv
    obtain ⟨hfam', hclear, -, hstay⟩ := releasePages_spec hfam hr hkern hpages
    exact ⟨hfam', .of_cleared hclear, hstay.1⟩

theorem mprotect_spec (hfam : Family s R ext lent) (hr : map.pml4Phys ∈ R) (current addr len : Nat) (prot : BitVec 32) :
    Fewer s (sysMprotect ⟨s, map, current⟩ addr len prot).2.machine R ext lent := by
  have hown := userProtection_own prot
  obtain ⟨hfam', hres⟩ := hfam.setRangeFlags hr hown addr len
  have hset : Fewer s (vmmSetRangeFlags s map addr len (userProtection prot)).2 R ext lent := by
    rcases hres with hfail | ⟨hprot, m', hset, hrewritten⟩
    · rw [hfail]
      exact .refl hfam
    · rw [hset] at hfam' ⊢
      exact ⟨hfam', .of_rewritten hown hrewritten fun v hv => (hprot.page le_rfl hv).2, rfl⟩
  unfold sysMprotect
  split_ifs
  · exact .refl hfam
  · exact .refl hfam
  · rcases hres : vmmSetRangeFlags s map addr len (userProtection prot) with ⟨_ | _, s'⟩
    all_goals
      rw [hres] at hset
      exact hset

theorem kmalloc_freed (s : Machine) : s.kmalloc.2.freed = s.freed := by
  unfold Machine.kmalloc
  split
  · rfl
  · rfl
  · split_ifs <;> rfl

theorem Cloned.unborrowed {dst : Pagemap} (hfam : Family s R ext lent) (hsrc : map.pml4Phys ∈ R)
    (h : Cloned s s' R map.pml4Phys dst.pml4Phys) (hn : n < 2 ^ 35) (a : Nat) : ¬ Borrows s'.mem dst.pml4Phys n a := by
  intro hb
  have hborr := hb.borrowed
  rcases h.leaf hfam hsrc hn with ⟨-, hzero⟩ | ⟨-, b, haddr, -, hent, -⟩
  · rw [hzero] at hborr
    simp at hborr
  · rw [hent, leafEntry_borrowed haddr, (cloneFlags_own _).own] at hborr
    simp at hborr

end Calls

/-! ## The end of a segment -/

theorem shmFreePages_eq (s : Machine) (hlen : seg.physPages.length = seg.numPages) (hpos : ∀ a ∈ seg.physPages, a ≠ 0) :
    shmFreePages s seg = seg.physPages.foldl Machine.freePage s := by
  have hlist : seg.physPages = (List.range seg.numPages).map fun i => seg.physPages.getD i 0 := by
    apply ext_getElem
    · simp [hlen]
    · intro i hi _
      rw [getElem_map, getElem_range, getD_eq_getElem _ _ hi]
  conv_rhs => rw [hlist, foldl_map]
  apply foldl_ext
  intro s' i hi
  rw [mem_range, ← hlen] at hi
  rw [if_pos]
  rw [getD_eq_getElem _ _ hi]
  exact hpos _ (getElem_mem hi)

end SzpontOS.Ipc
