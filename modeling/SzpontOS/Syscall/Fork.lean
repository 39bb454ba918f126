import SzpontOS.Mm.Fork
import SzpontOS.Syscall.Protection

/-!
# Forking a process's address space

An address space is built by `mmap`, `mprotect`, `munmap` and `vmm_alloc_user_page` (`BuildStep`). A clone of it has
copies of all its pages and shares no frame (`Cloned.frames`). It answers `vmm_user_access` like the original exactly
when the `USER` bits of the original's tables are those that mapping its leaves in the order of their addresses would
give (`fork_fidelity`). An address space whose lowest page is `PROT_NONE` but was mapped last loses its other pages in
the clone (`fork_loses_page`).
-/

namespace SzpontOS.Syscall

open Lib Lib.Radix Mm Relation

/-! ## Calls -/

variable {flags : Word} {p : Process} {R ext lent : Set Nat} {r n : Nat}

namespace Process.Ok

theorem mprotect (h : p.Ok R ext lent) (addr len : Nat) (prot : BitVec 32) :
    (sysMprotect p addr len prot).2.Ok R ext lent := by
  have hfam := (h.family.setRangeFlags h.root (userProtection_own prot) addr len).1
  unfold sysMprotect
  split_ifs
  · exact h
  · exact h
  · rcases hset : vmmSetRangeFlags p.machine p.map addr len (userProtection prot) with ⟨_ | _, s⟩
    all_goals
      rw [hset] at hfam
      exact ⟨hfam, h.root, h.user, h.aligned⟩

theorem munmap (h : p.Ok R ext lent) (addr length : Nat) : (sysMunmap p addr length).2.Ok R ext lent := by
  have hlaw : Lawful p.machine.mem p.map.pml4Phys fun _ => none := fun _ _ hv => by simp at hv
  exact (sysMunmap_lawful addr length h hlaw).1

theorem deviceMmap {phys : List Nat} (h : p.Ok R ext lent) (addr : Nat) (hflag : flags &&& physAddrMask = 0#64)
    (hborr : has flags flagBorrowed = true) (hphys : ∀ a ∈ phys, a < 2 ^ 52 ∧ a / 4096 ∈ lent) :
    (deviceMmap p addr phys flags).2.Ok R ext lent := by
  unfold Syscall.deviceMmap
  generalize (if addr = 0 then p.mmapCurrent else addr) = vaddr
  by_cases hargs : vaddr % 4096 ≠ 0 ∨ (!vmmUserRange vaddr (phys.length * 4096)) = true
  · rw [if_pos hargs]
    exact h
  rw [if_neg hargs]
  simp only [not_or, Bool.not_eq_true', not_not, Bool.not_eq_false] at hargs
  have huser : ∀ v, pagesFrom vaddr phys.length v → vmmUserRange v 4096 = true := by
    intro v hv
    refine pagesFrom_range hargs.2 ?_
    rwa [Nat.mul_div_cancel _ (by norm_num)]
  have hloop := deviceLoop h.family h.root h.user hflag hborr hphys huser
  cases hfold : (List.range phys.length).foldlM (devicePage p.map vaddr phys flags) p.machine with
  | ok s =>
    obtain ⟨hfam, -⟩ := hloop.of_ok s hfold
    exact h.advance hfam (by omega)
  | error e =>
    obtain ⟨hfam, hlt, -⟩ := hloop.of_error e hfold
    obtain ⟨hfam', -⟩ := releasePages_spec hfam h.root h.user fun v hv =>
      huser v (hv.imp fun k hk => ⟨hk.1.trans hlt, hk.2⟩)
    exact ⟨hfam', h.root, h.user, h.aligned⟩

theorem finishDevice {vaddr span : Nat} {mapped : Int × Process} (h : mapped.2.Ok R ext lent)
    (hstop : (vaddr + span) % 4096 = 0) (prot : BitVec 32) : (finishDevice vaddr span prot mapped).2.Ok R ext lent := by
  have hfam := (h.family.setRangeFlags h.root (userProtection_own prot) mapped.1.toNat span).1
  unfold Syscall.finishDevice
  split_ifs
  · exact h
  · dsimp only
    rcases hset : vmmSetRangeFlags mapped.2.machine mapped.2.map mapped.1.toNat span (userProtection prot)
      with ⟨_ | _, s⟩
    · rw [hset] at hfam
      exact ⟨hfam, h.root, h.user, h.aligned⟩
    · rw [hset] at hfam
      exact h.advance hfam hstop

end Process.Ok

def FdNode.frames : FdNode → List Nat
  | .drm bo => bo.physPages
  | .i915 bo => bo.pages
  | _ => []

namespace Process.Ok

theorem drmMmapBoLocked (h : p.Ok R ext lent) (bo : DrmBo) (addr length : Nat)
    (hphys : ∀ a ∈ bo.physPages, a < 2 ^ 52 ∧ a / 4096 ∈ lent) :
    (drmMmapBoLocked bo p addr length).2.Ok R ext lent := by
  unfold Syscall.drmMmapBoLocked
  dsimp only
  split_ifs
  · exact h
  · exact h.startMmap
  all_goals exact h.startMmap.deviceMmap addr (by decide) (by decide) fun a ha => hphys a (List.mem_of_mem_take ha)

theorem i915GemMmapUser (h : p.Ok R ext lent) (bo : I915Bo) (addr length : Nat)
    (hphys : ∀ a ∈ bo.pages, a < 2 ^ 52 ∧ a / 4096 ∈ lent) : (i915GemMmapUser bo p addr length).2.Ok R ext lent := by
  unfold Syscall.i915GemMmapUser
  split_ifs
  · exact h
  · exact h.startMmap
  all_goals exact h.startMmap.deviceMmap addr (by decide) (by decide) fun a ha => hphys a (List.mem_of_mem_take ha)

theorem mmap (h : p.Ok R ext lent) (addr length : Nat) (prot flags : BitVec 32) (fd : FdNode) (offset : Int)
    (hphys : ∀ a ∈ fd.frames, a < 2 ^ 52 ∧ a / 4096 ∈ lent) :
    (sysMmap p addr length prot flags fd offset).2.Ok R ext lent := by
  rcases sysMmap_cases p addr length prot flags fd offset h.aligned with
    ⟨-, heq | heq⟩ | ⟨-, vaddr, -, hdest, ⟨node, -, heq⟩ | ⟨-, ⟨bo, rfl, heq⟩ | ⟨bo, rfl, heq⟩⟩⟩
  · rw [heq]
    exact h
  · rw [heq]
    exact h.startMmap
  · rw [heq]
    exact (mmapPages_rule offset.toNat prot node (fun _ _ => True) (fun _ _ => True) h.startMmap hdest trivial
      (fun _ _ _ _ _ _ => trivial) fun _ _ _ _ _ _ => trivial).1
  all_goals
    have hstop : (vaddr + pageUp length) % 4096 = 0 := by
      have := hdest.aligned
      have := pageUp_mod length
      omega
    rw [heq]
  · exact (h.startMmap.drmMmapBoLocked bo vaddr length hphys).finishDevice hstop prot
  · exact (h.startMmap.i915GemMmapUser bo vaddr length hphys).finishDevice hstop prot

end Process.Ok

/-! ## Building an address space -/

def Process.settled (p : Process) : Process := { p with machine := { p.machine with freed := [] } }

/-- A frame that a device object may map into a process: in use, or not managed, and not the process's own. -/
def Process.Foreign (p : Process) (a : Nat) : Prop :=
  a < 2 ^ 52 ∧ (a / 4096 < p.machine.pmm.totalPages → p.machine.pmm.bitmapTest (a / 4096) = true) ∧
    a / 4096 ∉ owned p.machine.mem {p.map.pml4Phys}

/-- One call. The flags of `vmm_alloc_user_page` hold no address bits. -/
inductive BuildStep (p : Process) : Process → Prop where
  | mmap (addr length : Nat) (prot flags : BitVec 32) (fd : FdNode) (offset : Int)
      (hforeign : ∀ a ∈ fd.frames, p.Foreign a) :
      BuildStep p (sysMmap p addr length prot flags fd offset).2.settled
  | munmap (addr length : Nat) : BuildStep p (sysMunmap p addr length).2.settled
  | mprotect (addr len : Nat) (prot : BitVec 32) : BuildStep p (sysMprotect p addr len prot).2.settled
  | allocUserPage (v : Nat) (flags : Word) (hflags : flags &&& physAddrMask = 0#64)
      (hsuccess : (vmmAllocUserPage p.machine p.map v flags).1 = true) :
      BuildStep p { p with machine := (vmmAllocUserPage p.machine p.map v flags).2 }.settled

structure Built (r : Nat) (p : Process) : Prop where
  ok : ∃ ext lent, p.Ok {r} ext lent
  root : p.map.pml4Phys = r
  logged : p.machine.freed = []

theorem mem_settled (p : Process) : p.settled.machine.mem = p.machine.mem := rfl

theorem Process.Ok.settled (h : p.Ok R ext lent) : p.settled.Ok R ext lent :=
  ⟨h.family.forget, h.root, h.user, h.aligned⟩

theorem Built.of_ok (h : p.Ok {r} ext lent) : Built r p.settled := ⟨⟨ext, lent, h.settled⟩, h.root, rfl⟩

theorem Built.lend (h : Built r p) {frames : List Nat} (hforeign : ∀ a ∈ frames, p.Foreign a) :
    ∃ ext lent, p.Ok {r} ext lent ∧ ∀ a ∈ frames, a < 2 ^ 52 ∧ a / 4096 ∈ lent := by
  obtain ⟨ext, lent, hok⟩ := h.ok
  have hext : { x | ∃ a ∈ frames, a / 4096 = x } ⊆ ext := by
    intro x ⟨a, ha, hx⟩
    obtain ⟨-, hused, hown⟩ := hforeign a ha
    rw [h.root] at hown
    rw [← hx]
    exact hok.family.foreign_mem hused hown
  refine ⟨ext, _, ⟨hok.family.lendAll hext h.logged, hok.root, hok.user, hok.aligned⟩, fun a ha => ?_⟩
  exact ⟨(hforeign a ha).1, .inl ⟨a, ha, rfl⟩⟩

/-- A page that is allocated as borrowed belongs to nobody, but the address space stays in order. -/
theorem Built.allocUserPage {v : Nat} (h : Built r p) (hflag : flags &&& physAddrMask = 0#64)
    (hsucc : (vmmAllocUserPage p.machine p.map v flags).1 = true) :
    Built r { p with machine := (vmmAllocUserPage p.machine p.map v flags).2 }.settled := by
  obtain ⟨ext, lent, hok⟩ := h.ok
  by_cases hunt : vmmVirtToPhys p.machine.mem p.map v = 0
  swap
  · have hsame : (vmmAllocUserPage p.machine p.map v flags).2 = p.machine := by
      rw [vmmAllocUserPage, if_pos hunt]
    rw [hsame]
    exact .of_ok hok
  cases hborr : has flags flagBorrowed with
  | false =>
    obtain ⟨hfam, -⟩ := hok.family.allocUserPage hok.root hok.user v ⟨hflag, hborr⟩
    exact .of_ok ⟨hfam, hok.root, hok.user, hok.aligned⟩
  | true =>
    obtain ⟨a, lent', -, hfam⟩ := hok.family.allocUserPage_borrowed hok.root hok.user h.logged hunt hflag
      hborr hsucc
    exact .of_ok ⟨hfam, hok.root, hok.user, hok.aligned⟩

theorem Built.step {p' : Process} (h : Built r p) (hstep : BuildStep p p') : Built r p' := by
  obtain ⟨ext, lent, hok⟩ := h.ok
  cases hstep with
  | mmap addr length prot flags fd offset hforeign =>
    obtain ⟨ext', lent', hok', hphys⟩ := h.lend hforeign
    exact .of_ok (hok'.mmap addr length prot flags fd offset hphys)
  | munmap addr length => exact .of_ok (hok.munmap addr length)
  | mprotect addr len prot => exact .of_ok (hok.mprotect addr len prot)
  | allocUserPage v flags hflag hsucc => exact h.allocUserPage hflag hsucc

theorem Built.start {s : Machine} {map : Pagemap} (hok : s.Ok)
    (hmade : (vmmCreateAddressSpace (World.start s).machine).1 = some map) : Built map.pml4Phys (newProcess s map) := by
  obtain ⟨ext, hok', -⟩ := newProcess_ok hok hmade
  exact ⟨⟨ext, ∅, hok'⟩, rfl, rfl⟩

/-! ## Fidelity -/

/-- The clone `dst` looks like `src`: the same accesses are allowed, the same pages are mapped with the same
contents, and no frame is in both. -/
structure Faithful (m : Mem) (src dst : Pagemap) : Prop where
  access : ∀ addr size write, vmmUserAccess m dst addr size write = vmmUserAccess m src addr size write
  mapped : ∀ v, v < userEnd → (userFrame m dst v).isSome = (userFrame m src v).isSome
  contents : ∀ v f g, v < userEnd → userFrame m dst v = some f → userFrame m src v = some g → SameContents m f m g
  apart : ∀ v w f, v < userEnd → w < userEnd → userFrame m dst v = some f → userFrame m src w ≠ some f

/-- **Fork fidelity.** The clone of an address space is faithful exactly when the original's tables have the
`USER` bits that mapping its pages in the order of their addresses gives. -/
theorem fork_fidelity {s : Machine} (hok : s.Ok) {map : Pagemap}
    (hcreate : (vmmCreateAddressSpace (World.start s).machine).1 = some map) {p : Process}
    (hrun : ReflTransGen BuildStep (newProcess s map) p) {dst : Pagemap} {s' : Machine}
    (hclone : vmmCloneAddressSpace p.machine p.map = (some dst, s')) :
    Faithful s'.mem p.map dst ↔ SameOrder p.machine.mem p.map.pml4Phys := by
  have hbuilt := invariant_of_step (fun _ _ h hstep => h.step hstep) (Built.start hok hcreate) hrun
  obtain ⟨ext, lent, hp⟩ := hbuilt.ok
  obtain ⟨ext', hfam', hcloned⟩ := hp.family.cloned hp.root hclone
  obtain ⟨hmapped, hcontents, happart⟩ := hcloned.frames hp.family hp.root
  rw [← hcloned.access_iff hp.family hp.root hfam']
  constructor
  · intro h
    exact h.access
  · intro haccess
    exact ⟨haccess, hmapped, hcontents, happart⟩

/-! ## Two pages -/

theorem sysMmap_leaves {addr length : Nat} {prot flags : BitVec 32} {fd : FdNode} {offset : Int}
    (hok : p.Ok R ext lent) (hanon : mapAnonymous flags = true)
    (hsucc : 0 ≤ (sysMmap p addr length prot flags fd offset).1) (hn : n < 2 ^ 35)
    (hpres : has (leafOf (sysMmap p addr length prot flags fd offset).2.machine.mem p.map.pml4Phys n) flagPresent =
      true) :
    has (leafOf p.machine.mem p.map.pml4Phys n) flagPresent = true ∨
      pagesFrom (sysMmap p addr length prot flags fd offset).1.toNat (pageUp length / 4096) (n * 4096) := by
  rcases sysMmap_cases p addr length prot flags fd offset hok.aligned with
    ⟨hneg, -⟩ | ⟨-, vaddr, -, hdest, ⟨node, -, heq⟩ | ⟨hfile, -⟩⟩
  · omega
  · rw [heq] at hsucc hpres ⊢
    have hrule := mmapPages_rule offset.toNat prot node
      (fun k m => ∀ n, n < 2 ^ 35 → has (leafOf m p.map.pml4Phys n) flagPresent = true →
        has (leafOf p.machine.mem p.map.pml4Phys n) flagPresent = true ∨ pagesFrom vaddr k (n * 4096))
      (fun _ _ => True) hok.startMmap hdest ?start ?placed fun _ _ _ _ _ _ => trivial
    · obtain ⟨-, -, ⟨hneg, -⟩ | ⟨hres, hleaf⟩⟩ := hrule
      · omega
      · rw [hres, Int.toNat_natCast]
        exact hleaf n hn hpres
    · intro n _ hpres'
      rw [machine_startMmap] at hpres'
      exact .inl hpres'
    · intro k m m' hk hleaf hput n hn' hpres'
      rw [map_startMmap] at hput
      by_cases hhere : n * 4096 = vaddr + k * 4096
      · exact .inr ⟨k, by omega, hhere⟩
      have halign := hdest.aligned
      have huser := lt_userEnd_of_range (pagesFrom_range hdest.range ⟨k, hk, rfl⟩)
      have hkept : leafAt m' p.map.pml4Phys (n * 4096) = leafAt m p.map.pml4Phys (n * 4096) :=
        hput.leaf_ne hok.root huser (by simp only [userEnd]; omega) (by omega)
      rw [leafAt, leafAt, ← pageRoute, ← leafOf, ← leafOf] at hkept
      rw [hkept] at hpres'
      exact (hleaf n hn' hpres').imp_right (Exists.imp fun _ => And.imp_left Nat.lt_succ_of_lt)
  · rw [hanon] at hfile
    simp at hfile

def onePage : Process := (sysMmap freshProcess 0x600000001000 4096 3 0x32 .bad 0).2.settled

/-- The process after it has mapped a `PROT_NONE` page below. -/
def twoPages : Process := (sysMmap onePage 0x600000000000 4096 0 0x32 .bad 0).2.settled

theorem onePage_run : ReflTransGen BuildStep freshProcess onePage :=
  ReflTransGen.single (.mmap _ _ _ _ _ _ (by simp [FdNode.frames]))

theorem freshProcess_built : Built userMap.pml4Phys freshProcess := .start emptyRoot_ok create_emptyRoot

theorem onePage_built : Built userMap.pml4Phys onePage :=
  invariant_of_step (fun _ _ h hstep => h.step hstep) freshProcess_built onePage_run

theorem twoPages_built : Built userMap.pml4Phys twoPages :=
  onePage_built.step (.mmap _ _ _ _ _ _ (by simp [FdNode.frames]))

theorem onePage_map : onePage.map = userMap := by decide +kernel

theorem twoPages_map : twoPages.map = userMap := by decide +kernel

theorem onePage_leaves (hn : n < 2 ^ 35)
    (hpres : has (leafOf onePage.machine.mem userMap.pml4Phys n) flagPresent = true) : n = 0x600000001 := by
  obtain ⟨ext, hok, hemp⟩ := freshProcess_ok
  have hres : (sysMmap freshProcess 0x600000001000 4096 3 0x32 .bad 0).1 = 0x600000001000 := by decide +kernel
  rw [onePage, mem_settled] at hpres
  have hleaf := sysMmap_leaves hok (by decide) (by rw [hres]; norm_num) hn hpres
  rw [hres, leafOf, show freshProcess.map.pml4Phys = userMap.pml4Phys from rfl, hemp] at hleaf
  rcases hleaf with hzero | ⟨k, hk, hv⟩
  · simp at hzero
  · rw [pageUp] at hk
    omega

theorem twoPages_leaves (hn : n < 2 ^ 35)
    (hpres : has (leafOf twoPages.machine.mem userMap.pml4Phys n) flagPresent = true) :
    n = 0x600000000 ∨ n = 0x600000001 := by
  obtain ⟨ext, lent, hok⟩ := onePage_built.ok
  have hres : (sysMmap onePage 0x600000000000 4096 0 0x32 .bad 0).1 = 0x600000000000 := by decide +kernel
  rw [twoPages, mem_settled, ← onePage_map] at hpres
  rcases sysMmap_leaves hok (by decide) (by rw [hres]; norm_num) hn hpres with hold | ⟨k, hk, hv⟩
  · rw [onePage_map] at hold
    exact .inr (onePage_leaves hn hold)
  · rw [hres] at hv
    rw [pageUp] at hk
    omega

/-- The clone of one readable and writable page. -/
theorem fork_fidelity_onePage :
    ∃ dst s', vmmCloneAddressSpace onePage.machine onePage.map = (some dst, s') ∧ Faithful s'.mem onePage.map dst := by
  obtain ⟨ext, lent, hok⟩ := onePage_built.ok
  obtain ⟨hfaults, hheap, hpages⟩ : onePage.machine.faults = [] ∧ onePage.machine.heapGrowth = [] ∧
      onePage.machine.pmm.setBits + (4 * ({0x600000001} : Finset Nat).card + 1) ≤ onePage.machine.pmm.totalPages := by decide +kernel
  have hroom : onePage.machine.Room (4 * ({0x600000001} : Finset Nat).card + 1) :=
    ⟨hok.family.ledger.ok, hfaults, hheap, hpages⟩
  obtain ⟨dst, s', hclone⟩ := hok.family.clone_succeeds {0x600000001} hok.root
    (fun n hn hpresent => by
      rw [onePage_map] at hpresent
      exact Finset.mem_singleton.mpr (onePage_leaves hn hpresent))
    (by decide) hroom
  refine ⟨dst, s', hclone, (fork_fidelity emptyRoot_ok create_emptyRoot onePage_run hclone).mpr ?_⟩
  rw [onePage_map]
  refine .of_user (fun n hn hpresent => ?_) fun n hn hpresent => ?_
  all_goals
    rw [onePage_leaves hn hpresent]
    decide +kernel

/-- A page that the process can write, mapped before a `PROT_NONE` page that shares its tables, cannot even be
read in the clone. -/
theorem fork_loses_page : (sysMmap freshProcess 0x600000001000 4096 3 0x32 .bad 0).1 = 0x600000001000 ∧
      (sysMmap onePage 0x600000000000 4096 0 0x32 .bad 0).1 = 0x600000000000 ∧
      ∃ dst s', vmmCloneAddressSpace twoPages.machine twoPages.map = (some dst, s') ∧
        vmmUserAccess s'.mem twoPages.map 0x600000001000 4096 true = true ∧
        vmmUserAccess s'.mem dst 0x600000001000 4096 false = false := by
  refine ⟨by decide +kernel, by decide +kernel, ?_⟩
  obtain ⟨ext, lent, hok⟩ := twoPages_built.ok
  obtain ⟨hfaults, hheap, hpages⟩ : twoPages.machine.faults = [] ∧ twoPages.machine.heapGrowth = [] ∧
      twoPages.machine.pmm.setBits + (4 * ({0x600000000, 0x600000001} : Finset Nat).card + 1) ≤
        twoPages.machine.pmm.totalPages := by decide +kernel
  have hroom : twoPages.machine.Room (4 * ({0x600000000, 0x600000001} : Finset Nat).card + 1) :=
    ⟨hok.family.ledger.ok, hfaults, hheap, hpages⟩
  obtain ⟨dst, s', hclone⟩ := hok.family.clone_succeeds {0x600000000, 0x600000001} hok.root
    (fun n hn hpresent => by
      rw [twoPages_map] at hpresent
      simpa using twoPages_leaves hn hpresent)
    (by decide) hroom
  obtain ⟨ext', hfam', hcloned⟩ := hok.family.cloned hok.root hclone
  have hpage : ∀ (map : Pagemap) (write : Bool), vmmUserAccess s'.mem map 0x600000001000 4096 write =
      pageAccess s'.mem map (0x600000001 * 4096) (requiredBits write) := fun map write =>
    vmmUserAccess_page (n := 4095) (by norm_num) (by norm_num) (by norm_num) (by norm_num)
  refine ⟨dst, s', hclone, ?_, ?_⟩
  · rw [hpage, hcloned.source_page hok.family hok.root hfam' (by norm_num)]
    decide +kernel
  · rw [hpage]
    refine hcloned.page_lost (p := [192, 0]) (i := 0) (k := 0x600000000) hfam' (by norm_num) ?_ (by decide) (by decide)
      ?_ ?_ (fun k hk => ?_) false
    · decide +kernel
    · decide +kernel
    · decide +kernel
    · rw [twoPages_map, ← Bool.not_eq_true]
      intro hpresent
      have := twoPages_leaves (by omega) hpresent
      omega

end SzpontOS.Syscall
