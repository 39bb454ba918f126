import SzpontOS.Mm.Ownership
import SzpontOS.Syscall.MmapPages

/-!
# The protection of mapped pages

`Protections` is what the calls have promised: for each page of a live mapping the protection last requested with
success. `PageLaw` says that the tree keeps the promise for a page: the bits of its leaf are those of the protection,
and a page that is not `PROT_NONE` has the `USER` bit in all tables above it. The calls never change that bit of a table
that exists, and a table that was made for a `PROT_NONE` page does not have it. So the law is kept by a call that asks
for accessible pages only where the existing tables are `Open` (`ProtStep`), and broken by others
(`mprotect_after_none`).
-/

namespace SzpontOS.Syscall

open Lib Lib.Radix Mm Relation

/-! ## Flags -/

theorem userProtection_eq (prot : BitVec 32) : userProtection prot = (if decide (prot ≠ 0) then flagUser else 0) |||
      (if decide (prot &&& 2 ≠ 0) then flagWritable else 0) |||
      (if decide (prot &&& 4 = 0) then flagNoExecute else 0) := by
  unfold userProtection
  simp only [decide_eq_true_eq]
  split_ifs <;> rfl

theorem userProtection_user (prot : BitVec 32) : has (userProtection prot) flagUser = decide (prot ≠ 0) := by
  rw [userProtection_eq]
  generalize decide (prot ≠ 0) = user, decide (prot &&& 2 ≠ 0) = write, decide (prot &&& 4 = 0) = noExec
  revert user write noExec
  decide

theorem userProtection_writable (prot : BitVec 32) :
    has (userProtection prot) flagWritable = decide (prot &&& 2 ≠ 0) := by
  rw [userProtection_eq]
  generalize decide (prot ≠ 0) = user, decide (prot &&& 2 ≠ 0) = write, decide (prot &&& 4 = 0) = noExec
  revert user write noExec
  decide

/-! ## Open pages -/

/-- The tables that exist above the page of `v` have the `USER` bit. -/
def Open (m : Mem) (r v : Nat) : Prop :=
  ∀ (p : List Nat) (i : Nat), p ++ [i] <+: route v → has (slot m 256 r p i) flagPresent = true →
    has (slot m 256 r p i) flagUser = true

variable {i r v vaddr length addr len : Nat} {m : Mem} {s : Machine} {R ext lent : Set Nat} {map : Pagemap}
  {prot : BitVec 32}

section Open

variable {m' : Mem} {w : Nat} {flags : Word}

theorem Open.cleared {V : Nat → Prop} (h : Open m r w) (hr : r ∈ R) (hclear : Cleared m m' R r V) : Open m' r w := by
  intro p i hpre hpres
  have hlen := length_lt_of_route hpre
  rcases hclear.kept r hr p i (by omega) with heq | hzero
  · rw [heq] at hpres ⊢
    exact h p i hpre hpres
  · simp [hzero] at hpres

theorem Open.grown (h : Open m r w) (hr : r ∈ R) (hgrow : Grown m m' R r v flags) (hflag : has flags flagUser = true) :
    Open m' r w := by
  intro p i hpre hpres
  have hlen := length_lt_of_route hpre
  rcases hgrow r hr p i (by omega) with heq | ⟨-, -, -, a, haddr, hlink⟩
  · rw [heq] at hpres ⊢
    exact h p i hpre hpres
  · rw [hlink, linkEntry_user haddr]
    exact hflag

theorem slot_update_table {e : Word} {p : List Nat} (hr : r ∈ R)
    (hupd : SlotsUpdate m m' 256 R r (route v) (ptIndex v) e) (hp : p.length < 3) :
    slot m' 256 r p i = slot m 256 r p i := by
  rw [hupd r hr p i (by omega), if_neg]
  intro ⟨_, hroute, _⟩
  rw [hroute, length_route] at hp
  omega

theorem Open.placed (h : Open m r w) (hr : r ∈ R) (hput : Placed m m' R r v flags) (hflag : has flags flagUser = true) :
    Open m' r w := by
  obtain ⟨m1, m2, a, hclear, hgrow, -, -, hupd⟩ := hput.stages
  have h2 := (h.cleared hr hclear).grown hr hgrow hflag
  intro p i hpre
  rw [slot_update_table hr hupd (length_lt_of_route hpre)]
  exact h2 p i hpre

end Open

/-! ## The law -/

/-- The tree gives the page `v` the access of the protection `prot`. -/
structure PageLaw (m : Mem) (r v : Nat) (prot : BitVec 32) : Prop where
  aligned : v % 4096 = 0
  lo : 4096 ≤ v
  hi : v < userEnd
  present : has (leafAt m r v) flagPresent = true
  user : has (leafAt m r v) flagUser = decide (prot ≠ 0)
  writable : has (leafAt m r v) flagWritable = decide (prot &&& 2 ≠ 0)
  tables : prot ≠ 0 → tablesUser m r v = true

theorem table_of_leaf {p : List Nat} (h : has (leafAt m r v) flagPresent = true) (hpre : p ++ [i] <+: route v) :
    has (slot m 256 r p i) flagPresent = true := by
  have hne : leafAt m r v ≠ 0 := fun h0 => by simp [h0] at h
  obtain ⟨pt, hpt, -⟩ := walk_of_slot hne
  exact (slot_on_route (length_lt_of_route hpre) hpre hpt).1

section PageLaw

variable {m' : Mem} {w : Nat} {flags : Word}

theorem PageLaw.transfer (h : PageLaw m r w prot) (hleaf : leafAt m' r w = leafAt m r w)
    (htabs : ∀ (p : List Nat) (i : Nat), p ++ [i] <+: route w → slot m' 256 r p i = slot m 256 r p i) :
    PageLaw m' r w prot := by
  refine ⟨h.aligned, h.lo, h.hi, ?_, ?_, ?_, fun hprot => ?_⟩
  · rw [hleaf]
    exact h.present
  · rw [hleaf]
    exact h.user
  · rw [hleaf]
    exact h.writable
  have hall := tablesUser_iff.mp (h.tables hprot)
  rw [tablesUser_iff]
  intro p i hpre
  rw [htabs p i hpre]
  exact hall p i hpre

section

variable (h : PageLaw m r w prot) (hr : r ∈ R)

include h hr

theorem PageLaw.cleared {V : Nat → Prop} (hclear : Cleared m m' R r V)
    (hstay : has (leafAt m' r w) flagPresent = true) : PageLaw m' r w prot := by
  have hkept : ∀ (p : List Nat) (i : Nat), p.length ≤ 3 → has (slot m' 256 r p i) flagPresent = true →
      slot m' 256 r p i = slot m 256 r p i := by
    intro p i hp hpres
    rcases hclear.kept r hr p i hp with heq | hzero
    · exact heq
    · simp [hzero] at hpres
  refine h.transfer (hkept _ _ (length_route_le w) hstay) fun p i hpre => ?_
  have hlen := length_lt_of_route hpre
  exact hkept p i (by omega) (table_of_leaf hstay hpre)

theorem PageLaw.grown (hgrow : Grown m m' R r v flags) : PageLaw m' r w prot := by
  refine h.transfer (hgrow.leaf hr (length_route w)) fun p i hpre => ?_
  have hlen := length_lt_of_route hpre
  rcases hgrow r hr p i (by omega) with heq | ⟨-, -, habs, -⟩
  · exact heq
  · rw [table_of_leaf h.present hpre] at habs
    simp at habs

theorem PageLaw.placed_ne (hput : Placed m m' R r v flags) (hv : v < userEnd) (hne : w / 4096 ≠ v / 4096) :
    PageLaw m' r w prot := by
  have hleaf := hput.leaf_ne hr hv h.hi hne
  obtain ⟨m1, m2, a, hclear, hgrow, -, -, hupd⟩ := hput.stages
  have hleaf2 : leafAt m' r w = leafAt m2 r w := by
    unfold leafAt
    rw [hupd r hr _ _ (length_route_le w), if_neg]
    intro ⟨_, hroute, hidx⟩
    exact hne (page_of_route h.hi hv hroute hidx)
  have hleaf1 : leafAt m2 r w = leafAt m1 r w := hgrow.leaf hr (length_route w)
  have hstay : has (leafAt m1 r w) flagPresent = true := by
    rw [← hleaf1, ← hleaf2, hleaf]
    exact h.present
  have h2 := (h.cleared hr hclear hstay).grown hr hgrow
  exact h2.transfer hleaf2 fun p i hpre => slot_update_table hr hupd (length_lt_of_route hpre)

end

theorem PageLaw.of_placed (hr : r ∈ R) (hput : Placed m m' R r v (userProtection prot)) (halign : v % 4096 = 0)
    (hlo : 4096 ≤ v) (hhi : v < userEnd) (hopen : prot ≠ 0 → Open m r v) : PageLaw m' r v prot := by
  obtain ⟨m1, m2, a, hclear, hgrow, hwalk, haddr, hupd⟩ := hput.stages
  have hleaf : leafAt m' r v = leafEntry a (userProtection prot) := by
    unfold leafAt
    rw [hupd r hr _ _ (length_route_le v), if_pos ⟨rfl, rfl, rfl⟩]
  have hpres : has (leafAt m' r v) flagPresent = true := by
    rw [hleaf]
    exact leafEntry_present haddr
  refine ⟨halign, hlo, hhi, hpres, ?_, ?_, fun hprot => ?_⟩
  · rw [hleaf, leafEntry_user haddr, userProtection_user]
  · rw [hleaf, leafEntry_writable haddr, userProtection_writable]
  · -- the tables are old and open, or new and made for this page
    have huser : has (userProtection prot) flagUser = true := by
      rw [userProtection_user]
      simpa using hprot
    have hopen' := (hopen hprot).placed hr hput huser
    rw [tablesUser_iff]
    exact fun p i hpre => hopen' p i hpre (table_of_leaf hpres hpre)

end PageLaw

theorem PageLaw.access {n : Nat} (hfam : Family s R ext lent) (hr : map.pml4Phys ∈ R)
    (h : PageLaw s.mem map.pml4Phys v prot) (hn : n < 4096) :
    (vmmUserAccess s.mem map v (n + 1) false = true ↔ prot ≠ 0) ∧
      (vmmUserAccess s.mem map v (n + 1) true = true ↔ prot &&& 2 ≠ 0) := by
  have haccess : ∀ write, vmmUserAccess s.mem map v (n + 1) write =
      (tablesUser s.mem map.pml4Phys v && (decide (prot ≠ 0) && (!write || decide (prot &&& 2 ≠ 0)))) := by
    intro write
    rw [vmmUserAccess_page h.aligned h.lo h.hi hn, hfam.pageAccess_eq hr (pml4Index_lt_of_user h.hi), ← leafAt, grants,
      h.present, h.user, h.writable, Bool.true_and]
  rw [haccess, haccess]
  by_cases hprot : prot = 0
  · simp [hprot]
  · simpa [h.tables hprot] using fun _ => hprot

/-! ## Promises -/

/-- For each page of a live mapping, the protection that was last requested with success. -/
abbrev Protections := Nat → Option (BitVec 32)

def Lawful (m : Mem) (r : Nat) (prots : Protections) : Prop := ∀ v prot, prots v = some prot → PageLaw m r v prot

/-- A new promise for some pages; `none` when they are unmapped. -/
def setPages (prots : Protections) (pages : List Nat) (prot : Option (BitVec 32)) : Protections :=
  fun v => if v ∈ pages then prot else prots v

theorem mem_pages_iff {k : Nat} : v ∈ pagesBetween vaddr (vaddr + k * 4096) ↔ pagesFrom vaddr k v := by
  rw [mem_pagesBetween]
  constructor
  · intro ⟨hlo, hhi, hmod⟩
    exact ⟨(v - vaddr) / 4096, by omega, by omega⟩
  · intro ⟨j, hj, heq⟩
    omega

section Lawful

variable {m' : Mem} {k : Nat} {flags : Word} {prots : Protections}

theorem Lawful.mono {prots' : Protections} (h : Lawful m r prots)
    (hsub : ∀ v prot, prots' v = some prot → prots v = some prot) : Lawful m r prots' :=
  fun v prot hv => h v prot (hsub v prot hv)

theorem Lawful.cleared {V : Nat → Prop} (h : Lawful m r prots) (hr : r ∈ R) (hclear : Cleared m m' R r V)
    (hfree : ∀ v, V v → v % 4096 = 0 ∧ v < userEnd ∧ prots v = none) : Lawful m' r prots := by
  intro w prot' hw
  have hpage := h w prot' hw
  have hleaf : leafAt m' r w = leafAt m r w := by
    by_contra hne
    obtain ⟨-, v, hv, hroute, hidx⟩ := hclear.leaf r hr _ _ (length_route w) hne
    obtain ⟨haligned, hhi, hnone⟩ := hfree v hv
    have hsame := page_of_route hpage.hi hhi hroute hidx
    have hwaligned := hpage.aligned
    rw [show w = v by omega, hnone] at hw
    simp at hw
  refine hpage.cleared hr hclear ?_
  rw [hleaf]
  exact hpage.present

theorem setPages_none_eq_some {pages : List Nat} :
    setPages prots pages none v = some prot ↔ v ∉ pages ∧ prots v = some prot := by
  unfold setPages
  split_ifs with h <;> simp [h]

theorem Lawful.placed (h : Lawful m r (setPages prots (pagesBetween vaddr (vaddr + k * 4096)) (some prot))) (hr : r ∈ R)
    (hput : Placed m m' R r (vaddr + k * 4096) (userProtection prot)) (halign : vaddr % 4096 = 0)
    (hrange : vmmUserRange (vaddr + k * 4096) 4096 = true) (hopen : prot ≠ 0 → Open m r (vaddr + k * 4096)) :
    Lawful m' r (setPages prots (pagesBetween vaddr (vaddr + (k + 1) * 4096)) (some prot)) := by
  have hhi := lt_userEnd_of_range hrange
  have hlo : 4096 ≤ vaddr + k * 4096 := by
    simp only [vmmUserRange, Bool.and_eq_true, decide_eq_true_eq] at hrange
    exact hrange.1.1
  intro w prot' hw
  by_cases heq : w = vaddr + k * 4096
  · rw [heq, setPages, if_pos (mem_pages_iff.mpr ⟨k, by omega, rfl⟩), Option.some.injEq] at hw
    rw [heq, ← hw]
    exact .of_placed hr hput (by omega) hlo hhi hopen
  · have hold : setPages prots (pagesBetween vaddr (vaddr + k * 4096)) (some prot) w = some prot' := by
      rw [← hw]
      refine if_congr ?_ rfl rfl
      rw [mem_pagesBetween, mem_pagesBetween]
      omega
    have hlaw := h w prot' hold
    have := hlaw.aligned
    exact hlaw.placed_ne hr hput hhi (by omega)

end Lawful

/-! ## The calls -/

section Calls

variable {p : Process} {prots : Protections}

/-- The page loop of `sys_mmap` gives all pages of the range their protection, or leaves all others with theirs. -/
theorem mmapPages_lawful (offset : Nat) {fixed : Bool} (node : Option FileNode) (hok : p.Ok R ext lent)
    (hdest : Target p vaddr length fixed) (hlaw : Lawful p.machine.mem p.map.pml4Phys prots)
    (hopen : prot ≠ 0 → ∀ v, pagesFrom vaddr (pageUp length / 4096) v → Open p.machine.mem p.map.pml4Phys v) :
    (mmapPages p vaddr length offset fixed prot node).2.Ok R ext lent ∧
      (mmapPages p vaddr length offset fixed prot node).2.map = p.map ∧
      ((mmapPages p vaddr length offset fixed prot node).1 < 0 ∧
        Lawful (mmapPages p vaddr length offset fixed prot node).2.machine.mem p.map.pml4Phys
          (setPages prots (pagesBetween vaddr (vaddr + pageUp length)) none) ∨
      (mmapPages p vaddr length offset fixed prot node).1 = vaddr ∧
        Lawful (mmapPages p vaddr length offset fixed prot node).2.machine.mem p.map.pml4Phys
          (setPages prots (pagesBetween vaddr (vaddr + pageUp length)) (some prot))) := by
  have hrange : ∀ v, pagesFrom vaddr (pageUp length / 4096) v → vmmUserRange v 4096 = true :=
    fun v hv => pagesFrom_range hdest.range hv
  have hspan : pageUp length / 4096 * 4096 = pageUp length :=
    Nat.div_mul_cancel (Nat.dvd_of_mod_eq_zero (pageUp_mod length))
  have hnone : ∀ k, k < pageUp length / 4096 → (vaddr + k * 4096) % 4096 = 0 ∧ vaddr + k * 4096 < userEnd ∧
      setPages prots (pagesBetween vaddr (vaddr + pageUp length)) none (vaddr + k * 4096) = none := by
    intro k hk
    have haligned := hdest.aligned
    refine ⟨by omega, lt_userEnd_of_range (hrange _ ⟨k, hk, rfl⟩), if_pos ?_⟩
    rw [← hspan, mem_pages_iff]
    exact ⟨k, hk, rfl⟩
  have hrule := mmapPages_rule offset prot node
    (fun k m => Lawful m p.map.pml4Phys (setPages prots (pagesBetween vaddr (vaddr + k * 4096)) (some prot)) ∧
      (prot ≠ 0 → ∀ v, pagesFrom vaddr (pageUp length / 4096) v → Open m p.map.pml4Phys v))
    (fun k m => k < pageUp length / 4096 ∧
      Lawful m p.map.pml4Phys (setPages prots (pagesBetween vaddr (vaddr + pageUp length)) none))
    hok hdest ?start ?placed ?dropped
  · obtain ⟨hok', hmap, hcase⟩ := hrule
    refine ⟨hok', hmap, hcase.imp ?_ ?_⟩
    · rintro ⟨hneg, k, m, ⟨hk, hlaw'⟩, hclear, -⟩
      refine ⟨hneg, hlaw'.cleared hok.root hclear ?_⟩
      rintro _ ⟨j, hj, rfl⟩
      exact hnone j (by omega)
    · rintro ⟨hres, hlaw', _⟩
      rw [hspan] at hlaw'
      exact ⟨hres, hlaw'⟩
  · refine ⟨fun w prot' hw => hlaw w prot' ?_, hopen⟩
    rwa [setPages, if_neg] at hw
    rw [mem_pagesBetween]
    omega
  · rintro k m m' hk ⟨hlaw', hopen'⟩ hput
    have hpage : pagesFrom vaddr (pageUp length / 4096) (vaddr + k * 4096) := ⟨k, hk, rfl⟩
    refine ⟨hlaw'.placed hok.root hput hdest.aligned (hrange _ hpage) fun hprot => hopen' hprot _ hpage, ?_⟩
    intro hprot v hv
    refine (hopen' hprot v hv).placed hok.root hput ?_
    rw [userProtection_user]
    simpa using hprot
  · rintro k m m' hk ⟨hlaw', _⟩ hdrop
    obtain ⟨m₁, hclear, hgrown⟩ := hdrop.stages
    have hrest : Lawful m p.map.pml4Phys (setPages prots (pagesBetween vaddr (vaddr + pageUp length)) none) := by
      refine hlaw'.mono fun w prot' hw => ?_
      obtain ⟨hout, hprots⟩ := setPages_none_eq_some.mp hw
      rwa [setPages, if_neg]
      rw [mem_pagesBetween] at hout ⊢
      omega
    have hrest₁ := hrest.cleared hok.root hclear (by rintro _ rfl; exact hnone k hk)
    exact ⟨hk, fun w prot' hw => (hrest₁ w prot' hw).grown hok.root hgrown⟩

/-- What the calls have promised after `sys_mmap` returned `result`. A failed call keeps all promises, but for the range
of a `MAP_FIXED` call, which it may have unmapped. -/
def afterMmap (prots : Protections) (addr length : Nat) (prot flags : BitVec 32) (result : Int) : Protections :=
  if result < 0 then
    if mapFixed flags then setPages prots (pagesBetween addr (addr + pageUp length)) none else prots
  else setPages prots (pagesBetween result.toNat (result.toNat + pageUp length)) (some prot)

/-- The pages that `sys_mmap` is about to map. -/
def mmapPagesOf (p : Process) (addr length : Nat) (flags : BitVec 32) (v : Nat) : Prop :=
  ∃ vaddr, mmapTarget (startMmap p) addr (pageUp length) (mapFixed flags) = some vaddr ∧
    pagesFrom vaddr (pageUp length / 4096) v

theorem Lawful.failed {result : Int} {flags : BitVec 32} (h : Lawful m r prots) (hneg : result < 0) :
    Lawful m r (afterMmap prots addr length prot flags result) := by
  unfold afterMmap
  rw [if_pos hneg]
  split_ifs
  · exact h.mono fun v prot' hv => (setPages_none_eq_some.mp hv).2
  · exact h

theorem Lawful.promised_none (h : Lawful p.machine.mem p.map.pml4Phys prots) (hok : p.Ok R ext lent)
    (hzero : 0 ∉ lent) (huntrans : vmmVirtToPhys p.machine.mem p.map v = 0) : prots v = none := by
  rw [Option.eq_none_iff_forall_ne_some]
  intro prot' hv
  have hpage := h v prot' hv
  have huser := pml4Index_lt_of_user hpage.hi
  have hleaf := hok.family.leaf_of_untranslated hok.root huser huntrans
  cases hborrow : has (leafAt p.machine.mem p.map.pml4Phys v) flagBorrowed with
  | false =>
    rw [← leafAt, nodeOf_leaf.mpr ⟨hpage.present, hborrow, rfl⟩] at hleaf
    simp at hleaf
  | true =>
    have hlent := hok.family.trees.borrow _ hok.root (route v) (ptIndex v) rfl hpage.present hborrow
    rw [hok.family.virtToPhys hok.root huser, ← leafAt, if_pos hpage.present, Nat.or_eq_zero_iff] at huntrans
    rw [← leafAt, huntrans.1] at hlent
    exact hzero hlent

theorem sysMmap_lawful {flags : BitVec 32} (fd : FdNode) (offset : Int) (hok : p.Ok R ext lent) (hzero : 0 ∉ lent)
    (hlaw : Lawful p.machine.mem p.map.pml4Phys prots) (hanon : mapAnonymous flags = true)
    (hopen : prot ≠ 0 → ∀ v, mmapPagesOf p addr length flags v → Open p.machine.mem p.map.pml4Phys v) :
    (sysMmap p addr length prot flags fd offset).2.Ok R ext lent ∧
      (sysMmap p addr length prot flags fd offset).2.map = p.map ∧
      Lawful (sysMmap p addr length prot flags fd offset).2.machine.mem p.map.pml4Phys
        (afterMmap prots addr length prot flags (sysMmap p addr length prot flags fd offset).1) := by
  have hst0 := hok.startMmap
  have hmach := machine_startMmap p
  have hmap := map_startMmap p
  rcases sysMmap_cases p addr length prot flags fd offset hok.aligned with
    ⟨hneg, heq | heq⟩ | ⟨-, vaddr, ⟨hvaddr, hfixed⟩, hdest, ⟨node, -, heq⟩ | ⟨hfile, -⟩⟩
  · rw [heq]
    exact ⟨hok, rfl, hlaw.failed hneg⟩
  · rw [heq, hmach]
    exact ⟨hst0, hmap, hlaw.failed hneg⟩
  · rw [heq]
    rw [← hmach, ← hmap] at hlaw
    have hopen' : prot ≠ 0 → ∀ v, pagesFrom vaddr (pageUp length / 4096) v →
        Open (startMmap p).machine.mem (startMmap p).map.pml4Phys v := by
      intro hprot v hv
      rw [hmach, hmap]
      exact hopen hprot v ⟨vaddr, hvaddr, hv⟩
    obtain ⟨hok', hmap', hcase⟩ := mmapPages_lawful offset.toNat node hst0 hdest hlaw hopen'
    refine ⟨hok', hmap'.trans hmap, ?_⟩
    rw [hmap] at hcase
    unfold afterMmap
    rcases hcase with ⟨hneg, hlaw'⟩ | ⟨hres, hlaw'⟩
    · rw [if_pos hneg]
      split_ifs with hfix
      · rwa [← hfixed hfix]
      · -- the range had no translations before, so nothing was promised for it
        refine hlaw'.mono fun v prot' hv => setPages_none_eq_some.mpr ⟨fun hmem => ?_, hv⟩
        rw [← Nat.div_mul_cancel (Nat.dvd_of_mod_eq_zero (pageUp_mod length)), mem_pages_iff] at hmem
        rw [hlaw.promised_none hst0 hzero (hdest.free.resolve_left hfix v hmem)] at hv
        simp at hv
    · rw [hres, if_neg (by omega), Int.toNat_natCast]
      exact hlaw'
  · rw [hanon] at hfile
    simp at hfile

theorem sysMunmap_lawful (addr length : Nat) (hok : p.Ok R ext lent)
    (hlaw : Lawful p.machine.mem p.map.pml4Phys prots) :
    (sysMunmap p addr length).2.Ok R ext lent ∧ (sysMunmap p addr length).2.map = p.map ∧
      Lawful (sysMunmap p addr length).2.machine.mem p.map.pml4Phys
        (if (sysMunmap p addr length).1 = 0 then setPages prots (pagesBetween addr (addr + pageUp length)) none
          else prots) := by
  unfold sysMunmap
  by_cases hargs : length = 0 ∨ addr % 4096 ≠ 0 ∨ (!vmmUserRange addr length) = true
  · rw [if_pos hargs, if_neg (by norm_num)]
    exact ⟨hok, rfl, hlaw⟩
  rw [if_neg hargs, if_pos rfl]
  simp only [not_or, Bool.not_eq_true', not_not, Bool.not_eq_false] at hargs
  obtain ⟨-, halign, hrange⟩ := hargs
  have hpage : ∀ v, pagesFrom addr (pageUp length / 4096) v → vmmUserRange v 4096 = true :=
    fun v hv => pagesFrom_pageUp halign hrange hv
  have hspan : pageUp length / 4096 * 4096 = pageUp length :=
    Nat.div_mul_cancel (Nat.dvd_of_mod_eq_zero (pageUp_mod length))
  obtain ⟨hfam, hclear, -, -⟩ := releasePages_spec hok.family hok.root hok.user hpage
  have hrest : Lawful p.machine.mem p.map.pml4Phys (setPages prots (pagesBetween addr (addr + pageUp length)) none) :=
    hlaw.mono fun v prot hv => (setPages_none_eq_some.mp hv).2
  refine ⟨⟨hfam, hok.root, hok.user, hok.aligned⟩, rfl, hrest.cleared hok.root hclear fun v hv => ?_⟩
  refine ⟨?_, lt_userEnd_of_range (hpage v hv), if_pos ?_⟩
  · obtain ⟨k, -, rfl⟩ := hv
    omega
  · rwa [← hspan, mem_pages_iff]

theorem Lawful.rewritten {m' : Mem} (h : Lawful m r prots) (hr : r ∈ R) (hrange : Protectable m 256 r addr len)
    (hprot : Rewritten m m' 256 R r (rangePages addr len) (userProtection prot))
    (hopen : prot ≠ 0 → ∀ v ∈ rangePages addr len, Open m r v) :
    Lawful m' r (setPages prots (rangePages addr len) (some prot)) := by
  have htab : ∀ (q : List Nat) (i w : Nat), q ++ [i] <+: route w → slot m' 256 r q i = slot m 256 r q i :=
    fun q i w hpre => hprot.table hr (length_lt_of_route hpre) i
  intro w prot' hw
  by_cases hmem : w ∈ rangePages addr len
  · rw [setPages, if_pos hmem, Option.some.injEq] at hw
    rw [← hw]
    have huser := rangePages_user hrange.2.1 hmem
    simp only [userEnd] at huser
    have hleaf : leafAt m' r w = protEntry (leafAt m r w) (userProtection prot) := hprot.leaf hr hmem
    refine ⟨(mem_rangePages.mp hmem).1, huser.1, by simp only [userEnd]; omega, ?_, ?_, ?_, fun hne => ?_⟩
    · rw [hleaf]
      exact protEntry_present
    · rw [hleaf, protEntry_user, userProtection_user]
    · rw [hleaf, protEntry_writable, userProtection_writable]
    · rw [tablesUser_iff]
      intro q i hpre
      rw [htab q i w hpre]
      exact hopen hne w hmem q i hpre (table_of_leaf (hrange.page le_rfl hmem).2 hpre)
  · rw [setPages, if_neg hmem] at hw
    have hpage := h w prot' hw
    refine hpage.transfer ?_ fun q i hpre => htab q i w hpre
    unfold leafAt
    rw [hprot.slots r hr _ _ (length_route_le w), if_neg]
    intro ⟨_, v, hv, hroute, hidx⟩
    have huser := rangePages_user hrange.2.1 hv
    have hsame := page_of_route hpage.hi (by omega) hroute hidx
    have halign := hpage.aligned
    have hv' := (mem_rangePages.mp hv).1
    exact hmem ((show w = v by omega) ▸ hv)

theorem sysMprotect_lawful (hok : p.Ok R ext lent) (hlaw : Lawful p.machine.mem p.map.pml4Phys prots)
    (hopen : prot ≠ 0 → ∀ v ∈ rangePages addr len, Open p.machine.mem p.map.pml4Phys v) :
    (sysMprotect p addr len prot).2.Ok R ext lent ∧ (sysMprotect p addr len prot).2.map = p.map ∧
      Lawful (sysMprotect p addr len prot).2.machine.mem p.map.pml4Phys
        (if (sysMprotect p addr len prot).1 = 0 then setPages prots (rangePages addr len) (some prot) else prots) := by
  unfold sysMprotect
  by_cases hargs : addr % 4096 ≠ 0 ∨ prot &&& ~~~7 ≠ 0 ∨ (!vmmUserRange addr len) = true
  · rw [if_pos hargs, if_neg (by norm_num)]
    exact ⟨hok, rfl, hlaw⟩
  rw [if_neg hargs]
  simp only [not_or, Bool.not_eq_true', not_not, Bool.not_eq_false] at hargs
  obtain ⟨halign, -, hrange⟩ := hargs
  by_cases hlen : len = 0
  · rw [if_pos hlen, if_pos rfl]
    refine ⟨hok, rfl, fun w prot' hw => hlaw w prot' ?_⟩
    rwa [setPages, if_neg] at hw
    rw [mem_rangePages, pageDown]
    omega
  rw [if_neg hlen]
  obtain ⟨hfam, heq | ⟨hprot, m', heq, hrewritten⟩⟩ :=
    hok.family.setRangeFlags hok.root (userProtection_own prot) addr len
  · rw [heq, if_neg (by norm_num)]
    exact ⟨⟨hok.family, hok.root, hok.user, hok.aligned⟩, rfl, hlaw⟩
  · rw [heq] at hfam ⊢
    exact ⟨⟨hfam, hok.root, hok.user, hok.aligned⟩, rfl, hlaw.rewritten hok.root hprot hrewritten hopen⟩

end Calls

/-! ## Runs -/

/-- A process and what its calls have promised. -/
structure ProtState where
  process : Process
  prots : Protections

/-- One call. Where it asks for accessible pages, the tables that exist above them have the `USER` bit. -/
inductive ProtStep (st : ProtState) : ProtState → Prop where
  | mmap (addr length : Nat) (prot flags : BitVec 32) (fd : FdNode) (offset : Int)
      (hanonymous : mapAnonymous flags = true)
      (hopen : prot ≠ 0 → ∀ v, mmapPagesOf st.process addr length flags v →
        Open st.process.machine.mem st.process.map.pml4Phys v) :
      ProtStep st ⟨(sysMmap st.process addr length prot flags fd offset).2,
        afterMmap st.prots addr length prot flags (sysMmap st.process addr length prot flags fd offset).1⟩
  | munmap (addr length : Nat) : ProtStep st ⟨(sysMunmap st.process addr length).2,
        if (sysMunmap st.process addr length).1 = 0 then
          setPages st.prots (pagesBetween addr (addr + pageUp length)) none else st.prots⟩
  | mprotect (addr len : Nat) (prot : BitVec 32)
      (hopen : prot ≠ 0 → ∀ v ∈ rangePages addr len, Open st.process.machine.mem st.process.map.pml4Phys v) :
      ProtStep st ⟨(sysMprotect st.process addr len prot).2, if (sysMprotect st.process addr len prot).1 = 0 then
          setPages st.prots (rangePages addr len) (some prot) else st.prots⟩

structure Kept (R ext lent : Set Nat) (st : ProtState) : Prop where
  ok : st.process.Ok R ext lent
  zero : 0 ∉ lent
  lawful : Lawful st.process.machine.mem st.process.map.pml4Phys st.prots

theorem Kept.step {st st' : ProtState} (h : Kept R ext lent st) (hstep : ProtStep st st') : Kept R ext lent st' := by
  cases hstep with
  | mmap addr length prot flags fd offset hanon hopen =>
    obtain ⟨hok, hmap, hlaw⟩ := sysMmap_lawful fd offset h.ok h.zero h.lawful hanon hopen
    exact ⟨hok, h.zero, by rw [hmap]; exact hlaw⟩
  | munmap addr length =>
    obtain ⟨hok, hmap, hlaw⟩ := sysMunmap_lawful addr length h.ok h.lawful
    exact ⟨hok, h.zero, by rw [hmap]; exact hlaw⟩
  | mprotect addr len prot hopen =>
    obtain ⟨hok, hmap, hlaw⟩ := sysMprotect_lawful h.ok h.lawful hopen
    exact ⟨hok, h.zero, by rw [hmap]; exact hlaw⟩

/-- **The protection law.** After any run of calls that find the existing tables open where they ask for
accessible pages, every page of a live mapping can be read unless it is `PROT_NONE`, and written when it
has `PROT_WRITE`. -/
theorem protection_law {p : Process} {R ext lent : Set Nat} (hok : p.Ok R ext lent) (hzero : 0 ∉ lent) {st : ProtState}
    (hrun : ReflTransGen ProtStep ⟨p, fun _ => none⟩ st) {v n : Nat} {prot : BitVec 32} (hlive : st.prots v = some prot)
    (hn : n < 4096) :
    (vmmUserAccess st.process.machine.mem st.process.map v (n + 1) false = true ↔ prot ≠ 0) ∧
      (vmmUserAccess st.process.machine.mem st.process.map v (n + 1) true = true ↔ prot &&& 2 ≠ 0) := by
  have hstart : Kept R ext lent ⟨p, fun _ => none⟩ := ⟨hok, hzero, fun v prot hv => by simp at hv⟩
  have hkept : Kept R ext lent st := invariant_of_step (fun _ _ h hstep => h.step hstep) hstart hrun
  exact (hkept.lawful v prot hlive).access hkept.ok.family hkept.ok.root hn

/-- A process with the new address space `map`, started in `s`. -/
def newProcess (s : Machine) (map : Pagemap) : Process :=
  ⟨{ (vmmCreateAddressSpace (World.start s).machine).2 with freed := [] }, map, 0x0000600000000000⟩

theorem newProcess_ok (hok : s.Ok) (hmade : (vmmCreateAddressSpace (World.start s).machine).1 = some map) :
    ∃ ext, (newProcess s map).Ok {map.pml4Phys} ext ∅ ∧
      ∀ q j, slot (newProcess s map).machine.mem 256 map.pml4Phys q j = 0 := by
  have hroot : World.roots (World.start s).live = ∅ := by
    simp [World.roots, World.start]
  have hfam := (Accounted.start hok).family
  rw [hroot] at hfam
  obtain ⟨hs, -, -, -, hcreated⟩ := hfam.create
  rw [hmade] at hcreated
  obtain ⟨hkern, -, hfam', hemp, -⟩ := hcreated
  rw [insert_empty_eq] at hfam'
  have halign : 0x0000600000000000 % 4096 = 0 := by norm_num
  exact ⟨_, ⟨hfam'.forget, Set.mem_singleton _, hkern, halign⟩, hemp⟩

def freshProcess : Process := newProcess emptyRoot userMap

theorem freshProcess_ok : ∃ ext, freshProcess.Ok {userMap.pml4Phys} ext ∅ ∧
    ∀ q j, slot freshProcess.machine.mem 256 userMap.pml4Phys q j = 0 :=
  newProcess_ok emptyRoot_ok create_emptyRoot

/-- One page, mapped with `PROT_READ | PROT_WRITE`. -/
theorem protection_law_freshProcess : (sysMmap freshProcess 0x600000000000 4096 3 0x32 .bad 0).1 = 0x600000000000 ∧
      vmmUserAccess (sysMmap freshProcess 0x600000000000 4096 3 0x32 .bad 0).2.machine.mem
        (sysMmap freshProcess 0x600000000000 4096 3 0x32 .bad 0).2.map 0x600000000000 4096 true = true := by
  obtain ⟨ext, hok, hempty⟩ := freshProcess_ok
  have hresult : (sysMmap freshProcess 0x600000000000 4096 3 0x32 .bad 0).1 = 0x600000000000 := by decide +kernel
  have hstep : ProtStep ⟨freshProcess, fun _ => none⟩ ⟨(sysMmap freshProcess 0x600000000000 4096 3 0x32 .bad 0).2,
      afterMmap (fun _ => none) 0x600000000000 4096 3 0x32 (sysMmap freshProcess 0x600000000000 4096 3 0x32 .bad 0).1⟩ := by
    apply ProtStep.mmap
    · decide
    · intro _ v _ q i _ hpresent
      have hzero : slot freshProcess.machine.mem 256 freshProcess.map.pml4Phys q i = 0 := hempty q i
      rw [hzero] at hpresent
      simp at hpresent
  generalize sysMmap freshProcess 0x600000000000 4096 3 0x32 .bad 0 = result at hresult hstep ⊢
  have hlive : afterMmap (fun _ => none) 0x600000000000 4096 3 0x32 result.1 0x600000000000 = some 3 := by
    rw [afterMmap, hresult, if_neg (by norm_num), setPages, if_pos]
    rw [mem_pagesBetween, pageUp]
    omega
  have hlaw := protection_law hok (Set.notMem_empty 0) (.single hstep) hlive (show 4095 < 4096 by norm_num)
  exact ⟨hresult, hlaw.2.mpr (by decide)⟩

/-- A page that was mapped with `PROT_NONE` stays out of reach when `mprotect` makes it readable and writable:
the tables that were made for it have no `USER` bit. -/
theorem mprotect_after_none : (sysMmap freshProcess 0x600000000000 4096 0 0x32 .bad 0).1 = 0x600000000000 ∧
      (sysMprotect (sysMmap freshProcess 0x600000000000 4096 0 0x32 .bad 0).2 0x600000000000 4096 3).1 = 0 ∧
      vmmUserAccess (sysMprotect (sysMmap freshProcess 0x600000000000 4096 0 0x32 .bad 0).2 0x600000000000 4096
        3).2.machine.mem userMap 0x600000000000 4096 false = false := by
  decide +kernel

end SzpontOS.Syscall
