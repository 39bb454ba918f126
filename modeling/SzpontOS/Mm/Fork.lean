import SzpontOS.Mm.Access
import SzpontOS.Mm.Clone

/-!
# What a clone keeps

A successful clone maps a copy of every frame and shares none (`Cloned.frames`). It keeps the flags of the leaves; each
table above them takes its `USER` bit from the first leaf below it (`Cloned.tablesUser_iff`). So the clone answers
`vmm_user_access` like the original exactly when `SameOrder` holds of the original (`Cloned.access_iff`).
-/

namespace SzpontOS.Mm

open Lib Lib.Radix Finset

/-! ## Frames -/

/-- The frame that `user_leaf` finds for a page. -/
def userFrame (m : Mem) (map : Pagemap) (v : Nat) : Option Nat :=
  (userLeaf m map v).bind fun leaf =>
    if has (readEntry m leaf.1 leaf.2) flagPresent then some (entryAddr (readEntry m leaf.1 leaf.2)) else none

variable {v k i n : Nat} {p : List Nat}

theorem userFrame_eq (m : Mem) (map : Pagemap) (hv : v < userEnd) :
    userFrame m map v = if has (leafOf m map.pml4Phys (v / 4096)) flagPresent then
      some (entryAddr (leafOf m map.pml4Phys (v / 4096))) else none := by
  have hroute : pageRoute (v / 4096) = route v := by
    simp only [pageRoute, route, pml4Index_eq, pdptIndex_eq, pdIndex_eq, List.cons.injEq, and_true]
    omega
  have hidx : ptIndex (v / 4096 * 4096) = ptIndex v := by
    rw [ptIndex_eq, ptIndex_eq]
    omega
  unfold userFrame leafOf
  rw [userLeaf_eq m map v (pml4Index_lt_of_user hv), hroute, hidx]
  cases hpt : walk (child m 256) map.pml4Phys (route v) with
  | none =>
    rw [slot_of_walk_none hpt]
    simp
  | some pt =>
    rw [slot_of_walk hpt (by rw [length_route]; exact ptIndex_lt v)]
    rfl

section Cloned

variable {s s' : Machine} {R ext lent : Set Nat} {src dst : Pagemap}

theorem Family.cloned (hfam : Family s R ext lent) (hsrc : src.pml4Phys ∈ R)
    (hclon : vmmCloneAddressSpace s src = (some dst, s')) :
    ∃ ext', Family s' (insert dst.pml4Phys R) ext' lent ∧ Cloned s s' R src.pml4Phys dst.pml4Phys := by
  obtain ⟨hs, -, -, -, hres⟩ := hfam.clone hsrc
  rw [hclon] at hres
  obtain ⟨-, -, hfam', hclone⟩ := hres
  exact ⟨_, hfam', hclone⟩

theorem Cloned.source (h : Cloned s s' R src.pml4Phys dst.pml4Phys) (hsrc : src.pml4Phys ∈ R) (k : Nat) :
    leafOf s'.mem src.pml4Phys k = leafOf s.mem src.pml4Phys k :=
  h.others _ hsrc _ _ (length_pageRoute k).le

section

variable (hfam : Family s R ext lent) (hsrc : src.pml4Phys ∈ R) (h : Cloned s s' R src.pml4Phys dst.pml4Phys)

include hfam hsrc h

theorem Cloned.leaf (hk : k < 2 ^ 35) :
    has (leafOf s.mem src.pml4Phys k) flagPresent = false ∧ leafOf s'.mem dst.pml4Phys k = 0 ∨
    has (leafOf s.mem src.pml4Phys k) flagPresent = true ∧ ∃ a, PageAddr a ∧ s.pmm.Free (a / 4096) ∧
      leafOf s'.mem dst.pml4Phys k = leafEntry a (cloneFlags (leafOf s.mem src.pml4Phys k)) ∧
      SameContents s'.mem a s'.mem (entryAddr (leafOf s.mem src.pml4Phys k)) := by
  cases hpres : has (leafOf s.mem src.pml4Phys k) flagPresent with
  | false => exact .inl ⟨rfl, h.absent k hk hpres⟩
  | true =>
    obtain ⟨a, haddr, hfree, hent, hcopy⟩ := h.copied k hk hpres
    obtain ⟨hused, hdata⟩ := hfam.leaf_data hsrc (length_pageRoute k) hpres
    refine .inr ⟨rfl, a, haddr, hfree, hent, fun b hb => (hcopy b hb).trans ?_⟩
    exact (h.data _ (entryAddr_mod _) hused hdata _ (Nat.le_add_right _ b) (by omega)).symm

/-- **The frames of a clone** are copies of the original's, and no frame is in both. -/
theorem Cloned.frames :
    (∀ v, v < userEnd → (userFrame s'.mem dst v).isSome = (userFrame s'.mem src v).isSome) ∧
    (∀ v f g, v < userEnd → userFrame s'.mem dst v = some f → userFrame s'.mem src v = some g →
      SameContents s'.mem f s'.mem g) ∧
    ∀ v w f, v < userEnd → w < userEnd → userFrame s'.mem dst v = some f → userFrame s'.mem src w ≠ some f := by
  have hpage : ∀ v, v < userEnd → v / 4096 < 2 ^ 35 := by
    intro v hv
    simp only [userEnd] at hv
    omega
  refine ⟨fun v hv => ?_, fun v f g hv hf hg => ?_, fun v w f hv hw hf hg => ?_⟩
  · rw [userFrame_eq _ _ hv, userFrame_eq _ _ hv, h.source hsrc]
    rcases h.leaf hfam hsrc (hpage v hv) with ⟨hpres, hzero⟩ | ⟨hpres, a, haddr, -, hent, -⟩
    · simp [hpres, hzero]
    · rw [hent, leafEntry_present haddr, hpres]
      rfl
  · rw [userFrame_eq _ _ hv] at hf hg
    rw [h.source hsrc] at hg
    rcases h.leaf hfam hsrc (hpage v hv) with ⟨-, hzero⟩ | ⟨hpres, a, haddr, -, hent, hcopy⟩
    · simp [hzero] at hf
    · rw [hent, leafEntry_present haddr, leafEntry_addr haddr (cloneFlags_own _).addr] at hf
      rw [hpres] at hg
      rw [← Option.some.inj hf, ← Option.some.inj hg]
      exact hcopy
  · -- the copy was free when the original's frames were in use
    rw [userFrame_eq _ _ hv] at hf
    rw [userFrame_eq _ _ hw, h.source hsrc] at hg
    rcases h.leaf hfam hsrc (hpage v hv) with ⟨-, hzero⟩ | ⟨-, a, haddr, hfree, hent, -⟩
    · simp [hzero] at hf
    · rw [hent, leafEntry_present haddr, leafEntry_addr haddr (cloneFlags_own _).addr] at hf
      cases hpres : has (leafOf s.mem src.pml4Phys (w / 4096)) flagPresent with
      | false => simp [hpres] at hg
      | true =>
        rw [hpres] at hg
        obtain ⟨hused, -⟩ := hfam.leaf_data hsrc (length_pageRoute _) hpres
        apply hused
        rw [← leafOf, Option.some.inj hg, ← Option.some.inj hf]
        exact hfree

end

end Cloned

/-! ## Access -/

/-- The first leaf below the tables of a route has the `USER` bit. -/
def FirstLeafUser (m : Mem) (r : Nat) (p : List Nat) : Prop :=
  ∃ k, k < 2 ^ 35 ∧ p <+: pageRoute k ∧ has (leafOf m r k) flagPresent = true ∧ has (leafOf m r k) flagUser = true ∧
    ∀ k', k' < k → p <+: pageRoute k' → has (leafOf m r k') flagPresent = false

/-- Above every leaf that has the `USER` bit, all tables have it exactly when the first leaves below them
all do. -/
def SameOrder (m : Mem) (r : Nat) : Prop :=
  ∀ n, 1 ≤ n → n < 2 ^ 35 → has (leafOf m r n) flagPresent = true → has (leafOf m r n) flagUser = true →
    (tablesUser m r (n * 4096) = true ↔ ∀ p i, p ++ [i] <+: pageRoute n → FirstLeafUser m r (p ++ [i]))

theorem SameOrder.of_user {m : Mem} {r : Nat}
    (hleaf : ∀ n, n < 2 ^ 35 → has (leafOf m r n) flagPresent = true → has (leafOf m r n) flagUser = true)
    (htabs : ∀ n, n < 2 ^ 35 → has (leafOf m r n) flagPresent = true → tablesUser m r (n * 4096) = true) :
    SameOrder m r := by
  intro n _ hn hpres _
  refine iff_of_true (htabs n hn hpres) fun p i hpre => ?_
  have hex : ∃ k, p ++ [i] <+: pageRoute k ∧ has (leafOf m r k) flagPresent = true := ⟨n, hpre, hpres⟩
  obtain ⟨hfst, hfst'⟩ := Nat.find_spec hex
  have hlt : Nat.find hex < 2 ^ 35 := (Nat.find_min' hex ⟨hpre, hpres⟩).trans_lt hn
  refine ⟨Nat.find hex, hlt, hfst, hfst', hleaf _ hlt hfst', fun k hk hpre' => ?_⟩
  simpa [hpre'] using Nat.find_min hex hk

section Access

variable {s s' : Machine} {R ext lent ext' lent' : Set Nat} {src dst : Pagemap}

/-- A table of the clone has the bit of the first leaf below it. -/
theorem Cloned.table_user (h : Cloned s s' R src.pml4Phys dst.pml4Phys) (hn : n < 2 ^ 35)
    (hpre : p ++ [i] <+: pageRoute n) (hpres : has (leafOf s.mem src.pml4Phys n) flagPresent = true) :
    has (slot s'.mem 256 dst.pml4Phys p i) flagUser = true ↔ FirstLeafUser s.mem src.pml4Phys (p ++ [i]) := by
  have hlen : p.length < 3 := by
    have := hpre.length_le
    rw [List.length_append, List.length_singleton, length_pageRoute] at this
    omega
  rcases h.table p i hlen with ⟨-, hno⟩ | ⟨k, a, hk, hkpre, hthere, hfst, haddr, hent⟩
  · rw [hno n hn hpre] at hpres
    simp at hpres
  · rw [hent, linkEntry_user haddr, cloneFlags_user]
    constructor
    · intro huser
      exact ⟨k, hk, hkpre, hthere, huser, hfst⟩
    · intro ⟨k', hk', hpre', hpres', huser, hfst'⟩
      have hk : k = k' := by
        rcases lt_trichotomy k k' with hlt | heq | hlt
        · rw [hfst' k hlt hkpre] at hthere
          simp at hthere
        · exact heq
        · rw [hfst k' hlt hpre'] at hpres'
          simp at hpres'
      rw [hk]
      exact huser

theorem Cloned.source_page (hfam : Family s R ext lent) (hsrc : src.pml4Phys ∈ R)
    (hfam' : Family s' (insert dst.pml4Phys R) ext' lent') (h : Cloned s s' R src.pml4Phys dst.pml4Phys)
    (hn : n < 2 ^ 35) (write : Bool) :
    pageAccess s'.mem src (n * 4096) (requiredBits write) = pageAccess s.mem src (n * 4096) (requiredBits write) := by
  have hv : pml4Index (n * 4096) < 256 := by
    rw [pml4Index_eq]
    omega
  rw [hfam'.pageAccess_eq (Set.mem_insert_of_mem _ hsrc) hv, hfam.pageAccess_eq hsrc hv]
  unfold tablesUser
  rw [h.others _ hsrc _ _ (by simp), h.others _ hsrc _ _ (by simp), h.others _ hsrc _ _ (by simp),
    h.others _ hsrc _ _ (length_route_le _)]

/-- A page below a table whose first leaf has no `USER` bit is out of reach in the clone. -/
theorem Cloned.page_lost (hfam' : Family s' (insert dst.pml4Phys R) ext' lent')
    (h : Cloned s s' R src.pml4Phys dst.pml4Phys) (hn : n < 2 ^ 35)
    (hpres : has (leafOf s.mem src.pml4Phys n) flagPresent = true) (hpre : p ++ [i] <+: pageRoute n)
    (hkpre : p ++ [i] <+: pageRoute k) (hthere : has (leafOf s.mem src.pml4Phys k) flagPresent = true)
    (hkuser : has (leafOf s.mem src.pml4Phys k) flagUser = false)
    (hfst : ∀ k', k' < k → has (leafOf s.mem src.pml4Phys k') flagPresent = false) (write : Bool) :
    pageAccess s'.mem dst (n * 4096) (requiredBits write) = false := by
  have hv : pml4Index (n * 4096) < 256 := by
    rw [pml4Index_eq]
    omega
  have htabs : tablesUser s'.mem dst.pml4Phys (n * 4096) = false := by
    rw [← Bool.not_eq_true, Mm.tablesUser_iff]
    intro hall
    obtain ⟨k', -, hpre', hpres', huser, hfst'⟩ := (h.table_user hn hpre hpres).mp (hall p i hpre)
    rcases lt_trichotomy k k' with hlt | rfl | hlt
    · rw [hfst' k hlt hkpre] at hthere
      simp at hthere
    · rw [hkuser] at huser
      simp at huser
    · rw [hfst k' hlt] at hpres'
      simp at hpres'
  rw [hfam'.pageAccess_eq (Set.mem_insert _ _) hv, htabs, Bool.false_and]

theorem grants_copy {e : Word} {a : Nat} (haddr : PageAddr a) (hpres : has e flagPresent = true) (write : Bool) :
    grants (leafEntry a (cloneFlags e)) write = grants e write := by
  unfold grants
  rw [leafEntry_present haddr, leafEntry_user haddr, leafEntry_writable haddr, cloneFlags_user, cloneFlags_writable,
    hpres]

theorem Cloned.tablesUser_iff (h : Cloned s s' R src.pml4Phys dst.pml4Phys) (hn : n < 2 ^ 35)
    (hpres : has (leafOf s.mem src.pml4Phys n) flagPresent = true) :
    tablesUser s'.mem dst.pml4Phys (n * 4096) = true ↔
      ∀ p i, p ++ [i] <+: pageRoute n → FirstLeafUser s.mem src.pml4Phys (p ++ [i]) := by
  rw [Mm.tablesUser_iff]
  exact forall₃_congr fun p i hpre => h.table_user hn hpre hpres

section

variable (hfam : Family s R ext lent) (hsrc : src.pml4Phys ∈ R) (hfam' : Family s' (insert dst.pml4Phys R) ext' lent')
  (h : Cloned s s' R src.pml4Phys dst.pml4Phys)

include hfam hsrc hfam' h

theorem Cloned.page_iff (hn : n < 2 ^ 35) :
    (∀ write, pageAccess s'.mem dst (n * 4096) (requiredBits write) =
      pageAccess s'.mem src (n * 4096) (requiredBits write)) ↔
    (has (leafOf s.mem src.pml4Phys n) flagPresent = true → has (leafOf s.mem src.pml4Phys n) flagUser = true →
      (tablesUser s.mem src.pml4Phys (n * 4096) = true ↔
        ∀ p i, p ++ [i] <+: pageRoute n → FirstLeafUser s.mem src.pml4Phys (p ++ [i]))) := by
  have hv : pml4Index (n * 4096) < 256 := by
    rw [pml4Index_eq]
    omega
  have htabs : tablesUser s'.mem src.pml4Phys (n * 4096) = tablesUser s.mem src.pml4Phys (n * 4096) := by
    unfold tablesUser
    rw [h.others _ hsrc _ _ (by simp), h.others _ hsrc _ _ (by simp), h.others _ hsrc _ _ (by simp)]
  have hsource := h.source hsrc n
  unfold leafOf pageRoute at hsource
  simp only [hfam'.pageAccess_eq (Set.mem_insert _ _) hv, hfam'.pageAccess_eq (Set.mem_insert_of_mem _ hsrc) hv,
    htabs, hsource]
  rcases h.leaf hfam hsrc hn with ⟨hpres, hzero⟩ | ⟨hpres, a, haddr, -, hent, -⟩
  · -- no leaf: neither grants anything
    unfold leafOf pageRoute at hpres hzero
    unfold leafOf pageRoute
    rw [hzero]
    simp [hpres, grants]
  · rw [← h.tablesUser_iff hn hpres]
    unfold leafOf pageRoute at hpres hent
    unfold leafOf pageRoute
    rw [hent]
    simp only [grants_copy haddr hpres, hpres, true_implies]
    constructor
    · intro hall huser
      have hread := hall false
      simp only [grants, hpres, huser, Bool.not_false, Bool.true_or, Bool.and_true] at hread
      rw [hread]
    · intro hsame write
      cases huser : has (slot s.mem 256 src.pml4Phys (route (n * 4096)) (ptIndex (n * 4096))) flagUser with
      | false => simp [grants, huser]
      | true => rw [Bool.eq_iff_iff.mpr (hsame huser)]

/-- **The clone answers like the original** exactly when the original's tables have the bits that the
clone gives its own. -/
theorem Cloned.access_iff :
    (∀ addr size write, vmmUserAccess s'.mem dst addr size write = vmmUserAccess s'.mem src addr size write) ↔
      SameOrder s.mem src.pml4Phys := by
  rw [vmmUserAccess_eq_iff]
  constructor
  · intro hpages n hpos hn
    rw [← h.page_iff hfam hsrc hfam' hn]
    exact hpages (n * 4096) (by omega) (by omega) (by simp only [userEnd]; omega)
  · intro horder v hmod hlo hhi
    simp only [userEnd] at hhi
    have hn : v / 4096 < 2 ^ 35 := by omega
    have hpage := (h.page_iff hfam hsrc hfam' hn).mpr (horder (v / 4096) (by omega) hn)
    rwa [Nat.div_mul_cancel (Nat.dvd_of_mod_eq_zero hmod)] at hpage

end

end Access

/-! ## Enough memory -/

/-- At least `n` pages are free, no allocation is made to fail, and the kernel heap takes no pages. -/
structure Machine.Room (s : Machine) (n : Nat) : Prop where
  ok : s.Ok
  faults : s.faults = []
  heap : s.heapGrowth = []
  pages : s.pmm.setBits + n ≤ s.pmm.totalPages

section Room

variable {s : Machine}

theorem Machine.Room.mono (h : s.Room n) (hle : k ≤ n) : s.Room k :=
  ⟨h.ok, h.faults, h.heap, by have := h.pages; omega⟩

theorem Machine.Room.mem (h : s.Room n) (m : Mem) : { s with mem := m }.Room n :=
  ⟨⟨h.ok.pmm, h.ok.phys⟩, h.faults, h.heap, h.pages⟩

theorem setBits_full {p : Pmm} (hfull : ∀ i, ¬ p.Free i) : p.setBits = p.totalPages := by
  unfold Pmm.setBits
  rw [filter_true_of_mem, card_range]
  intro i hi
  by_contra hclear
  exact hfull i ⟨mem_range.mp hi, by simpa using hclear⟩

theorem Machine.Room.allocPage (h : s.Room (n + 1)) : s.allocPage.1 ≠ 0 ∧ s.allocPage.2.Room n := by
  unfold Machine.allocPage
  rw [h.faults]
  rcases pmmAllocPage_spec h.ok.pmm with ⟨a, ha, htake⟩ | ⟨hfull, -⟩
  · rw [ha]
    refine ⟨by have := htake.pos; omega, ⟨htake.wf, ?_⟩, rfl, h.heap, ?_⟩
    · rw [htake.total]
      exact h.ok.phys
    · rw [htake.total, setBits_takes htake]
      have := h.pages
      omega
  · have := h.pages
    rw [setBits_full hfull] at this
    omega

theorem Machine.Room.getNextLevel (h : s.Room (n + 1)) (t i level : Nat) (flags : Word) :
    ∃ u s', getNextLevel s t i level true flags = (some u, s') ∧ s'.Room n := by
  obtain ⟨hpage, hroom⟩ := h.allocPage
  unfold Mm.getNextLevel
  by_cases hpres : has (readEntry s.mem t i) flagPresent = true
  · rw [if_pos hpres]
    by_cases hhuge : has (readEntry s.mem t i) flagHuge = true
    · rw [if_pos hhuge, if_neg (by simp), if_neg hpage]
      exact ⟨_, _, rfl, hroom.mem _⟩
    · rw [if_neg hhuge]
      exact ⟨_, _, rfl, h.mono (by omega)⟩
  · rw [if_neg hpres, if_neg (by simp), if_neg hpage]
    exact ⟨_, _, rfl, hroom.mem _⟩

theorem Machine.Room.mapPage (h : s.Room (n + 3)) (map : Pagemap) (phys : Nat) (flags : Word)
    (hv : vmmUserRange v 4096 = true) : ∃ s', vmmMapPage s map v phys flags = (true, s') ∧ s'.Room n := by
  unfold vmmMapPage
  rw [if_neg (by simp [hv])]
  dsimp only
  obtain ⟨pdpt, s1, h1, hroom1⟩ := h.getNextLevel map.pml4Phys (pml4Index (pageDown v)) 3 (flags &&& flagUser)
  obtain ⟨pd, s2, h2, hroom2⟩ := hroom1.getNextLevel pdpt (pdptIndex (pageDown v)) 2 (flags &&& flagUser)
  obtain ⟨pt, s3, h3, hroom3⟩ := hroom2.getNextLevel pd (pdIndex (pageDown v)) 1 (flags &&& flagUser)
  rw [h1]
  dsimp only
  rw [h2]
  dsimp only
  rw [h3]
  exact ⟨_, rfl, hroom3.mem _⟩

/-- A page is copied with at most four new pages: the copy and three tables. -/
theorem Machine.Room.cloneLeaf (h : s.Room (n + 4)) (dst : Pagemap) {j l : Nat} (pt : Nat)
    (hv : vmmUserRange (leafVirt i j k l) 4096 = true) : ∃ s', cloneLeaf dst i j k pt s l = .ok s' ∧ s'.Room n := by
  unfold Mm.cloneLeaf
  dsimp only
  split_ifs with hpres hpage
  · exact absurd hpage h.allocPage.1
  · obtain ⟨s', hmap, hroom⟩ := (h.allocPage.2.mem (s.allocPage.2.mem.memcpy s.allocPage.1
      (entryAddr (readEntry s.mem pt l)) 4096)).mapPage dst s.allocPage.1
      (readEntry s.mem pt l &&& ~~~physAddrMask &&& ~~~flagBorrowed) hv
    rw [hmap]
    exact ⟨s', rfl, hroom⟩
  · exact ⟨s, rfl, h.mono (by omega)⟩

theorem Machine.Room.create (h : s.Room (n + 1)) : ∃ map s', vmmCreateAddressSpace s = (some map, s') ∧ s'.Room n := by
  obtain ⟨hpage, hroom⟩ := h.allocPage
  have hcopy : ∀ (is : List Nat) (s' : Machine), s'.Room n →
      (is.foldl (fun s' i => s'.write s.allocPage.1 i (readEntry s'.mem s'.kernelPml4 i)) s').Room n := by
    intro is
    induction is with
    | nil => exact fun _ h => h
    | cons i is ih => exact fun _ h => ih _ (h.mem _)
  have hcopied := hcopy (List.range' 256 256) _ (hroom.mem (s.allocPage.2.mem.memset s.allocPage.1 0 4096))
  unfold vmmCreateAddressSpace
  dsimp only
  rw [if_neg hpage, Machine.kmalloc, hcopied.heap]
  exact ⟨_, _, rfl, hcopied⟩

variable {R ext lent : Set Nat}

/-- The pages of `L` from `n` on. -/
def pagesLeft (L : Finset Nat) (n : Nat) : Nat := (L.filter (n ≤ ·)).card

theorem pagesLeft_mono (L : Finset Nat) {n' : Nat} (h : n ≤ n') : pagesLeft L n' ≤ pagesLeft L n :=
  card_le_card (monotone_filter_right L fun _ _ hk => h.trans hk)

theorem pagesLeft_succ {L : Finset Nat} (h : n ∈ L) : pagesLeft L (n + 1) + 1 ≤ pagesLeft L n := by
  refine card_lt_card (ssubset_iff_of_subset ?_ |>.mpr ⟨n, ?_, ?_⟩)
  · exact monotone_filter_right L fun k _ hk => Nat.le_of_succ_le hk
  · exact mem_filter.mpr ⟨h, le_rfl⟩
  · simp

theorem LoopInv.room {src : Nat} {dst : Pagemap} (L : Finset Nat) (hfam : Family s R ext lent) (hsrc : src ∈ R)
    (hdst : dst.pml4Phys ∈ R) (hne : src ≠ dst.pml4Phys) (hkern : dst.isKernel = false)
    (hpages : ∀ k, k < 2 ^ 35 → has (leafOf s.mem src k) flagPresent = true → k ∈ L) (hzero : 0 ∉ L) :
    LoopInv s R ext lent src dst
      (fun n s' => CloneInv s s' R ext lent src dst.pml4Phys n ∧ s'.Room (4 * pagesLeft L n)) fun _ => False := by
  refine ⟨fun _ _ h => h.1, fun n n' s' h hle habs => ⟨h.1.skip hle habs, h.2.mono ?_⟩, ?_⟩
  · have := pagesLeft_mono L hle
    omega
  intro i j k l pt s' ⟨hinv, hroom⟩ hi hj hk hl hpt
  have hcopy := cloneLeaf_step hinv hfam hsrc hdst hne hkern hi hj hk hl hpt
  have hent := hinv.entry hsrc hne hi hj hk hl hpt
  have hn : pageNumber i j k l < 2 ^ 35 := by
    rw [pageNumber]
    omega
  have hvirt := leafVirt_eq (i := i) hj hk hl
  generalize pageNumber i j k l = n at *
  suffices hok : ∃ s'', cloneLeaf dst i j k pt s' l = .ok s'' ∧ s''.Room (4 * pagesLeft L (n + 1)) by
    obtain ⟨s'', heq, hroom'⟩ := hok
    rw [heq]
    exact Outcome.ok ⟨hcopy.of_ok s'' heq, hroom'⟩
  cases hpres : has (leafOf s.mem src n) flagPresent with
  | false =>
    refine ⟨s', ?_, hroom.mono ?_⟩
    · rw [cloneLeaf, hent, hpres]
      rfl
    · have := pagesLeft_mono L (show n ≤ n + 1 by omega)
      omega
  | true =>
    have hmem := hpages n hn hpres
    have hpos : n ≠ 0 := fun heq => hzero (heq ▸ hmem)
    refine (hroom.mono ?_).cloneLeaf dst pt ?_
    · have := pagesLeft_succ hmem
      omega
    · simp only [vmmUserRange, userEnd, Bool.and_eq_true, decide_eq_true_eq]
      omega

/-- **A clone succeeds** when there is a page for its root and four pages for each page of the source. -/
theorem Family.clone_succeeds {src : Pagemap} (L : Finset Nat) (hfam : Family s R ext lent) (hsrc : src.pml4Phys ∈ R)
    (hpages : ∀ k, k < 2 ^ 35 → has (leafOf s.mem src.pml4Phys k) flagPresent = true → k ∈ L) (hzero : 0 ∉ L)
    (hroom : s.Room (4 * L.card + 1)) : ∃ dst s', vmmCloneAddressSpace s src = (some dst, s') := by
  obtain ⟨dst, s1, hmade, hroom1⟩ := hroom.create
  obtain ⟨hs, -, -, -, hcreated⟩ := hfam.create
  rw [hmade] at hcreated
  obtain ⟨hkern, hnew, hfam1, hemp, hsame, -⟩ := hcreated
  have hne : src.pml4Phys ≠ dst.pml4Phys := fun heq => hnew (heq ▸ hsrc)
  have hsrc1 := Set.mem_insert_of_mem dst.pml4Phys hsrc
  have hleft : 4 * pagesLeft L 0 ≤ 4 * L.card := Nat.mul_le_mul_left 4 (card_filter_le L _)
  have hloops := cloneLoops (LoopInv.room L hfam1 hsrc1 (Set.mem_insert _ _) hne hkern (fun k hk hpres => by
    refine hpages k hk ?_
    rwa [leafOf, hsame _ hsrc _ _ (length_pageRoute k).le] at hpres) hzero) hsrc1 hne
    ⟨CloneInv.start hfam1 hemp, hroom1.mono hleft⟩
  rw [vmmCloneAddressSpace, hmade]
  dsimp only
  cases hfold : (List.range 256).foldlM (clonePdpt dst src.pml4Phys) s1 with
  | ok s' => exact ⟨dst, s', rfl⟩
  | error s' => exact (hloops.of_error s' hfold).elim

end Room

end SzpontOS.Mm
