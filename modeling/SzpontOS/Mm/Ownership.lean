import SzpontOS.Mm.Clone
import SzpontOS.Mm.LeafFlags

/-!
# Who owns which frame

A run of the virtual memory manager: address spaces are created, cloned and destroyed, and pages are allocated,
borrowed, released and reprotected in them, with allocation failures at any point. In every state the frames in use are
those that were in use at the start, those of the kernel heap, and those reached from the live address spaces
(`Accounted`).
-/

namespace SzpontOS.Mm

open Lib Lib.Radix Relation Set

/-! ## Runs -/

/-- A call of `pmm_free_page`: the page, whether its bit was set, and whether it was lent. -/
structure FreeCall where
  page : Nat
  wasUsed : Bool
  wasLent : Prop

structure World where
  machine : Machine
  /-- the address spaces that have been created and not destroyed -/
  live : Set Pagemap
  /-- the frames that have been mapped as borrowed -/
  lent : Set Nat
  /-- the calls of `pmm_free_page` so far -/
  frees : List FreeCall

namespace World

def roots (live : Set Pagemap) : Set Nat := { r | ∃ map ∈ live, map.pml4Phys = r }

/-- The world after a call that leaves the machine in `s`; its log of freed pages goes to the history. -/
def after (w : World) (s : Machine) (live : Set Pagemap) : World where
  machine := { s with freed := [] }
  live := live
  lent := w.lent
  frees := (s.freed.map fun e => ⟨e.1, e.2, e.1 ∈ w.lent⟩) ++ w.frees

/-- The frame at `phys` is lent. -/
def lend (w : World) (phys : Nat) : World := { w with lent := insert (phys / 4096) w.lent }

def start (s : Machine) : World := ⟨{ s with heapFrames := [], freed := [] }, ∅, ∅, []⟩

/-- A frame that belongs to somebody else: in use, or not managed, and not held by an address space. -/
def Foreign (w : World) (x : Nat) : Prop :=
  (x < w.machine.pmm.totalPages → w.machine.pmm.bitmapTest x = true) ∧ x ∉ owned w.machine.mem (roots w.live)

end World

open World

open World in
/-- One call. Flags hold no address bits; a page that the address space is to own is not marked as
borrowed. -/
inductive SpaceStep (w : World) : World → Prop where
  | create : SpaceStep w (w.after (vmmCreateAddressSpace w.machine).2
      (w.live ∪ { map | (vmmCreateAddressSpace w.machine).1 = some map }))
  | allocUserPage (map : Pagemap) (v : Nat) (flags : Word) (hmap : map ∈ w.live) (hflags : OwnFlags flags) :
      SpaceStep w (w.after (vmmAllocUserPage w.machine map v flags).2 w.live)
  | mapBorrowed (map : Pagemap) (v phys : Nat) (flags : Word) (hmap : map ∈ w.live)
      (huntranslated : vmmVirtToPhys w.machine.mem map v = 0) (hphys : phys < 2 ^ 52)
      (hforeign : w.Foreign (phys / 4096)) (hflags : flags &&& physAddrMask = 0#64)
      (hborrowed : has flags flagBorrowed = true) :
      SpaceStep w ((w.lend phys).after (vmmMapPage w.machine map v phys flags).2 w.live)
  | releaseUserPage (map : Pagemap) (v : Nat) (hmap : map ∈ w.live) :
      SpaceStep w (w.after (vmmReleaseUserPage w.machine map v).2 w.live)
  | setRangeFlags (map : Pagemap) (v size : Nat) (flags : Word) (hmap : map ∈ w.live) (hflags : OwnFlags flags) :
      SpaceStep w (w.after (vmmSetRangeFlags w.machine map v size flags).2 w.live)
  | clone (map : Pagemap) (hmap : map ∈ w.live) : SpaceStep w (w.after (vmmCloneAddressSpace w.machine map).2
        (w.live ∪ { dst | (vmmCloneAddressSpace w.machine map).1 = some dst }))
  | destroy (map : Pagemap) (hmap : map ∈ w.live) :
      SpaceStep w (w.after (vmmDestroyAddressSpace w.machine map) (w.live \ {map}))

/-! ## The invariant -/

/-- What holds in every state of a run that started with the frames `ext` in use. -/
structure Accounted (n : Nat) (ext : Set Nat) (w : World) : Prop where
  family : Family w.machine (roots w.live) (ext ∪ heapSet w.machine.heapFrames) w.lent
  total : w.machine.pmm.totalPages = n
  logged : w.machine.freed = []
  user : ∀ map ∈ w.live, map.isKernel = false
  frees : ∀ f ∈ w.frees, f.wasUsed = true ∧ ¬ f.wasLent

section Roots

variable {live : Set Pagemap} {map : Pagemap}

theorem mem_roots (h : map ∈ live) : map.pml4Phys ∈ roots live := ⟨map, h, rfl⟩

theorem roots_add (o : Option Pagemap) (live : Set Pagemap) : roots (live ∪ { map | o = some map }) = match o with
      | none => roots live
      | some map => insert map.pml4Phys (roots live) := by
  cases o with
  | none => simp [roots]
  | some map =>
    ext r
    simp only [roots, Option.some.injEq, mem_union, mem_ofPred_eq, mem_insert_iff]
    constructor
    · rintro ⟨m, hm | rfl, rfl⟩
      · exact .inr ⟨m, hm, rfl⟩
      · exact .inl rfl
    · rintro (rfl | ⟨m, hm, rfl⟩)
      · exact ⟨map, .inr rfl, rfl⟩
      · exact ⟨m, .inl hm, rfl⟩

theorem roots_remove (huser : ∀ m ∈ live, m.isKernel = false) (hmap : map ∈ live) :
    roots (live \ {map}) = roots live \ {map.pml4Phys} := by
  ext r
  constructor
  · rintro ⟨m, ⟨hm, hne⟩, rfl⟩
    refine ⟨⟨m, hm, rfl⟩, fun heq => hne ?_⟩
    -- an address space is known by its root
    cases m
    cases map
    have := (huser _ hm).trans (huser _ hmap).symm
    simp_all
  · rintro ⟨⟨m, hm, rfl⟩, hne⟩
    exact ⟨m, ⟨hm, fun heq => hne (by rw [mem_singleton_iff.mp heq]; rfl)⟩, rfl⟩

end Roots

variable {s s' : Machine} {R ext lent : Set Nat} {x : Nat} {hs : List Nat} {map : Pagemap}

section

variable (hfam : Family s R ext lent)

include hfam

theorem Family.forget : Family { s with freed := [] } R ext lent :=
  ⟨hfam.trees, ⟨hfam.ledger.ok.pmm, hfam.ledger.ok.phys⟩, hfam.ledger.lt, hfam.ledger.apart, hfam.ledger.used,
    hfam.ledger.outside, hfam.ledger.zero, hfam.ledger.lent_ext, by simp⟩

theorem Family.lendAll {X : Set Nat} (hX : X ⊆ ext) (hlog : s.freed = []) : Family s R ext (X ∪ lent) :=
  ⟨hfam.trees.mono subset_union_right, hfam.ledger.ok, hfam.ledger.lt, hfam.ledger.apart, hfam.ledger.used,
    hfam.ledger.outside, hfam.ledger.zero, union_subset hX hfam.ledger.lent_ext, by simp [hlog]⟩

theorem Family.lend (hx : x ∈ ext) (hlog : s.freed = []) : Family s R ext (insert x lent) :=
  hfam.lendAll (singleton_subset_iff.mpr hx) hlog

/-- A page that is in use, or not managed, and not held by an address space is held by somebody else. -/
theorem Family.foreign_mem (hused : x < s.pmm.totalPages → s.pmm.bitmapTest x = true) (hown : x ∉ owned s.mem R) :
    x ∈ ext := by
  by_cases hlt : x < s.pmm.totalPages
  · exact ((hfam.ledger.used x hlt).mp (hused hlt)).resolve_left hown
  · exact hfam.ledger.outside x (by omega)

end

namespace Accounted

variable {n : Nat} {w w' : World}

theorem after {live : Set Pagemap} (h : Accounted n ext w)
    (hfam : Family s' (roots live) (ext ∪ heapSet s'.heapFrames) w.lent) (htot : s'.pmm.totalPages = n)
    (huser : ∀ map ∈ live, map.isKernel = false) : Accounted n ext (w.after s' live) := by
  refine ⟨hfam.forget, htot, rfl, huser, fun f hf => ?_⟩
  rcases List.mem_append.mp hf with hnew | hold
  · obtain ⟨e, he, rfl⟩ := List.mem_map.mp hnew
    exact hfam.ledger.log e he
  · exact h.frees f hold

theorem after_steady (h : Accounted n ext w)
    (hfam : Family s' (roots w.live) (ext ∪ heapSet w.machine.heapFrames) w.lent) (hstay : Steady w.machine s') :
    Accounted n ext (w.after s' w.live) := by
  refine h.after ?_ (hstay.1.trans h.total) h.user
  rw [hstay.2]
  exact hfam

theorem lend {phys : Nat} (h : Accounted n ext w) (hforeign : w.Foreign (phys / 4096)) : Accounted n ext (w.lend phys) :=
  ⟨h.family.lend (h.family.foreign_mem hforeign.1 hforeign.2) h.logged, h.total, h.logged, h.user, h.frees⟩

theorem grown (hheap : s'.heapFrames = hs ++ w.machine.heapFrames) :
    ext ∪ heapSet w.machine.heapFrames ∪ heapSet hs = ext ∪ heapSet s'.heapFrames := by
  rw [hheap, heapSet_append, union_assoc, union_comm (heapSet hs)]

section

variable (h : Accounted n ext w)

include h

theorem added {o : Option Pagemap} (hheap : s'.heapFrames = hs ++ w.machine.heapFrames)
    (htot : s'.pmm.totalPages = w.machine.pmm.totalPages)
    (hnone : o = none → Family s' (roots w.live) (ext ∪ heapSet w.machine.heapFrames ∪ heapSet hs) w.lent)
    (hsome : ∀ map, o = some map → map.isKernel = false ∧
      Family s' (insert map.pml4Phys (roots w.live)) (ext ∪ heapSet w.machine.heapFrames ∪ heapSet hs) w.lent) :
    Accounted n ext (w.after s' (w.live ∪ { map | o = some map })) := by
  rw [grown hheap] at hnone hsome
  refine h.after ?_ (htot.trans h.total) fun map hmap => ?_
  · rw [roots_add]
    cases o with
    | none => exact hnone rfl
    | some map => exact (hsome map rfl).2
  · rcases hmap with hold | hnew
    · exact h.user map hold
    · exact (hsome map hnew).1

theorem create : Accounted n ext (w.after (vmmCreateAddressSpace w.machine).2
    (w.live ∪ { map | (vmmCreateAddressSpace w.machine).1 = some map })) := by
  obtain ⟨hs, hheap, htot, -, hres⟩ := h.family.create
  refine h.added hheap htot (fun hc => ?_) fun map hc => ?_
  · rw [hc] at hres
    obtain ⟨rfl, hfam, -⟩ := hres
    rw [heapSet_nil, union_empty]
    exact hfam
  · rw [hc] at hres
    exact ⟨hres.1, hres.2.2.1⟩

theorem clone (hmap : map ∈ w.live) :
    Accounted n ext (w.after (vmmCloneAddressSpace w.machine map).2
      (w.live ∪ { dst | (vmmCloneAddressSpace w.machine map).1 = some dst })) := by
  obtain ⟨hs, hheap, htot, -, hres⟩ := h.family.clone (mem_roots hmap)
  refine h.added hheap htot (fun hc => ?_) fun dst hc => ?_
  · rw [hc] at hres
    exact hres.1
  · rw [hc] at hres
    exact ⟨hres.1, hres.2.2.1⟩

theorem step (hstep : SpaceStep w w') : Accounted n ext w' := by
  cases hstep with
  | create => exact h.create
  | allocUserPage map v flags hmap hflag =>
    obtain ⟨hfam, hstay⟩ := h.family.allocUserPage (mem_roots hmap) (h.user map hmap) v hflag
    exact h.after_steady hfam hstay
  | mapBorrowed map v phys flags hmap hunt hphys hforeign hflag hborr =>
    have hlent := h.lend hforeign
    have hstay := h.family.mapPage_steady (mem_roots hmap) (h.user map hmap) v phys flags
    refine hlent.after_steady ?_ hstay
    exact hlent.family.mapPage_borrowed (mem_roots hmap) (h.user map hmap) hphys (mem_insert _ _) hflag hborr
      fun huser => h.family.leaf_of_untranslated (mem_roots hmap) (pml4Index_lt_of_userRange huser) hunt
  | releaseUserPage map v hmap =>
    obtain ⟨hfam, ⟨heq, -⟩ | hrel⟩ := h.family.releaseUserPage (mem_roots hmap) v
    · exact h.after_steady hfam (by rw [heq]; exact ⟨rfl, rfl⟩)
    · exact h.after_steady hfam hrel.steady
  | setRangeFlags map v size flags hmap hflag =>
    obtain ⟨hfam, heq | ⟨-, m', heq, -⟩⟩ := h.family.setRangeFlags (mem_roots hmap) hflag v size
    · exact h.after_steady hfam (by rw [heq]; exact ⟨rfl, rfl⟩)
    · exact h.after_steady hfam (by rw [heq]; exact ⟨rfl, rfl⟩)
  | clone map hmap => exact h.clone hmap
  | destroy map hmap =>
    obtain ⟨hfam, hstay, -⟩ := h.family.destroy (mem_roots hmap) (h.user map hmap)
    refine h.after ?_ (hstay.1.trans h.total) fun m hm => h.user m hm.1
    rw [roots_remove h.user hmap, hstay.2]
    exact hfam

end

end Accounted

/-! ## Whole runs -/

/-- The frames that are not the address spaces' to take when a run starts in `s`. -/
def takenAtStart (s : Machine) : Set Nat := { x | x < s.pmm.totalPages → s.pmm.bitmapTest x = true }

theorem Accounted.start (hok : s.Ok) : Accounted s.pmm.totalPages (takenAtStart s) (World.start s) := by
  have hroot : World.roots (World.start s).live = ∅ := by
    simp [World.roots, World.start]
  have howned : owned s.mem ∅ = ∅ := by
    simp [owned, Reached]
  refine ⟨?_, rfl, rfl, by simp [World.start], by simp [World.start]⟩
  rw [hroot]
  refine ⟨⟨⟨by norm_num, by norm_num, le_rfl, by simp, by simp [Separated]⟩, by simp, by simp⟩, ?_⟩
  show Ledger (World.start s).machine (owned s.mem ∅) (takenAtStart s ∪ heapSet []) ∅
  rw [howned, heapSet_nil, union_empty]
  refine ⟨⟨hok.pmm, hok.phys⟩, by simp, by simp, fun x hx => ?_, fun x hx => ?_, hok.pmm.zero_used, by simp,
    by simp [World.start]⟩
  · show s.pmm.bitmapTest x = true ↔ _
    have hx' : x < s.pmm.totalPages := hx
    simp [takenAtStart, hx']
  · have hx' : s.pmm.totalPages ≤ x := hx
    exact fun hlt => absurd hlt (by omega)

theorem Accounted.run (hok : s.Ok) {w : World} (hrun : ReflTransGen SpaceStep (World.start s) w) :
    Accounted s.pmm.totalPages (takenAtStart s) w :=
  invariant_of_step (fun _ _ h hstep => h.step hstep) (.start hok) hrun

/-- **Frame ownership.** When every address space of a run has been destroyed, the frames in use are those
in use at the start and those of the kernel heap. On the way every page passed to `pmm_free_page` was in
use and not lent, and a clone that returns `NULL` has given back all that it took. -/
theorem frame_ownership {s : Machine} (hok : s.Ok) {w : World} (hrun : ReflTransGen SpaceStep (World.start s) w) :
    (w.live = ∅ → ∀ x, x < s.pmm.totalPages →
      (w.machine.pmm.bitmapTest x = true ↔ s.pmm.bitmapTest x = true ∨ x ∈ w.machine.heapFrames)) ∧
    (∀ f ∈ w.frees, f.wasUsed = true ∧ ¬ f.wasLent) ∧
    ∀ map ∈ w.live, (vmmCloneAddressSpace w.machine map).1 = none → ∀ x, x < s.pmm.totalPages →
      ((vmmCloneAddressSpace w.machine map).2.pmm.bitmapTest x = true ↔
        w.machine.pmm.bitmapTest x = true ∨ x ∈ (vmmCloneAddressSpace w.machine map).2.heapFrames) := by
  have h := Accounted.run hok hrun
  refine ⟨fun hlive x hx => ?_, h.frees, fun map hmap hnone x hx => ?_⟩
  · have hown : x ∉ owned w.machine.mem (World.roots w.live) := by
      rintro ⟨r, ⟨map, hmap, -⟩, -⟩
      simp [hlive] at hmap
    have hstart : x ∈ takenAtStart s ↔ s.pmm.bitmapTest x = true := by simp [takenAtStart, hx]
    rw [h.family.ledger.used x (h.total.symm ▸ hx), Set.mem_union, hstart]
    simp [hown, heapSet]
  · obtain ⟨hs, hheap, htotal, -, hresult⟩ := h.family.clone (mem_roots hmap)
    rw [hnone] at hresult
    obtain ⟨hfam, hsame⟩ := hresult
    rw [hfam.ledger.used x (htotal.symm ▸ h.total.symm ▸ hx), h.family.ledger.used x (h.total.symm ▸ hx),
      owned_same hsame, Accounted.grown hheap]
    have hheap' : x ∈ heapSet w.machine.heapFrames → x ∈ heapSet (vmmCloneAddressSpace w.machine map).2.heapFrames := by
      intro hmem
      rw [hheap, heapSet_append]
      exact .inr hmem
    simp only [Set.mem_union]
    tauto

/-- The address space that `vmm_create_address_space` makes in `emptyRoot`. -/
def userMap : Pagemap := ⟨0x2000, false⟩

theorem create_emptyRoot : (vmmCreateAddressSpace emptyRoot).1 = some userMap := by decide +kernel

theorem emptyRoot_ok : emptyRoot.Ok := ⟨⟨by decide, by decide, by decide⟩, by decide⟩

/-- One address space with one page, created and destroyed. -/
theorem frame_ownership_emptyRoot : ∃ w, ReflTransGen SpaceStep (start emptyRoot) w ∧ w.live = ∅ ∧ ∀ x, x < 32 →
      (w.machine.pmm.bitmapTest x = true ↔ emptyRoot.pmm.bitmapTest x = true ∨ x ∈ w.machine.heapFrames) := by
  have hlive : userMap ∈ (start emptyRoot).live ∪
      { map | (vmmCreateAddressSpace (start emptyRoot).machine).1 = some map } := .inr create_emptyRoot
  have hrun := ((ReflTransGen.single (SpaceStep.create (w := start emptyRoot))).tail
    (SpaceStep.allocUserPage userMap 0x400000 flagNoExecute hlive ⟨by decide, by decide⟩)).tail
    (SpaceStep.destroy userMap hlive)
  refine ⟨_, hrun, ?hempty, (frame_ownership emptyRoot_ok hrun).1 ?hempty⟩
  show ((∅ : Set Pagemap) ∪ { map | (vmmCreateAddressSpace emptyRoot).1 = some map }) \ {userMap} = ∅
  simp [create_emptyRoot, eq_comm]

/-! ## What programs can reach -/

/-- The program in `map` finds frame `f` at address `v`. -/
def World.Maps (w : World) (map : Pagemap) (v f : Nat) : Prop :=
  map ∈ w.live ∧ v < userEnd ∧ vmmVirtToPhys w.machine.mem map v ≠ 0 ∧ vmmVirtToPhys w.machine.mem map v / 4096 = f

section
variable {w : World} {v f : Nat} (hfam : Family w.machine (roots w.live) ext w.lent) (h : w.Maps map v f)
include hfam h

theorem World.Maps.leaf : has (slot w.machine.mem 256 map.pml4Phys (route v) (ptIndex v)) flagPresent = true ∧
    entryAddr (slot w.machine.mem 256 map.pml4Phys (route v) (ptIndex v)) = f * 4096 := by
  obtain ⟨hmap, hv, hne, rfl⟩ := h
  rw [hfam.virtToPhys (mem_roots hmap) (pml4Index_lt_of_user hv)] at hne ⊢
  split_ifs at hne ⊢ with hpres
  · have hmod := entryAddr_mod (slot w.machine.mem 256 map.pml4Phys (route v) (ptIndex v))
    have hoff : v &&& 0xFFF < 4096 := Nat.lt_succ_of_le Nat.and_le_right
    rw [Bits.or_eq_add 12 hmod hoff]
    exact ⟨hpres, by omega⟩
  · exact absurd rfl hne

theorem World.Maps.walk (hlent : f ∉ w.lent) :
    walk (child w.machine.mem 256) map.pml4Phys (route v ++ [ptIndex v]) = some (f * 4096) := by
  obtain ⟨hpres, haddr⟩ := h.leaf hfam
  rw [walk_snoc_slot, length_route, nodeOf_leaf]
  refine ⟨hpres, ?_, haddr⟩
  by_contra hborr
  have hmem := hfam.trees.borrow _ (mem_roots h.1) (route v) (ptIndex v) rfl hpres (by simpa using hborr)
  rw [haddr, Nat.mul_div_cancel _ (by norm_num)] at hmem
  exact hlent hmem

end

/-- **What programs can reach.** In every state of a run, no address of a program is translated to a frame that is free or
that holds a page table, and a frame that nobody lent is found at one page of one address space. -/
theorem user_frames_private (hok : s.Ok) {w : World} (hrun : ReflTransGen SpaceStep (start s) w) {v f : Nat}
    (h : w.Maps map v f) :
    ¬ w.machine.pmm.Free f ∧ ¬ Reached w.machine.mem 256 (roots w.live) 3 (f * 4096) ∧
      (f ∉ w.lent → ∀ map' v', w.Maps map' v' f → map'.pml4Phys = map.pml4Phys ∧ v' / 4096 = v / 4096) := by
  have hfam := (Accounted.run hok hrun).family
  obtain ⟨hpres, haddr⟩ := h.leaf hfam
  obtain ⟨hused, htable⟩ := hfam.leaf_data (mem_roots h.1) (length_route v) hpres
  rw [haddr] at htable
  rw [haddr, Nat.mul_div_cancel _ (by norm_num)] at hused
  refine ⟨hused, htable, fun hlent map' v' h' => ?_⟩
  obtain ⟨hroot, hroute⟩ := hfam.trees.forest.sep (mem_roots h'.1) (mem_roots h.1) le_rfl le_rfl
    (h'.walk hfam hlent) (h.walk hfam hlent)
  have hv := h.2.1
  have hv' := h'.2.1
  simp only [route, pml4Index_eq, pdptIndex_eq, pdIndex_eq, ptIndex_eq, userEnd, List.cons_append, List.nil_append,
    List.cons.injEq, and_true] at hroute hv hv'
  exact ⟨hroot, by omega⟩

theorem user_frames_private_userMap : ∃ w, ReflTransGen SpaceStep (start emptyRoot) w ∧ w.Maps userMap 0x400000 3 ∧
    ¬ w.machine.pmm.Free 3 := by
  have hlive : userMap ∈ (start emptyRoot).live ∪
      { map | (vmmCreateAddressSpace (start emptyRoot).machine).1 = some map } := .inr create_emptyRoot
  have hrun := (ReflTransGen.single (SpaceStep.create (w := start emptyRoot))).tail
    (SpaceStep.allocUserPage userMap 0x400000 flagNoExecute hlive ⟨by decide, by decide⟩)
  refine ⟨_, hrun, ?hmaps, (user_frames_private emptyRoot_ok hrun ?hmaps).1⟩
  exact ⟨hlive, by decide, by decide +kernel⟩

/-! ## Borrowed frames belong to somebody else -/

/-- `vmm_alloc_user_page` does not keep a caller from marking the new frame as borrowed; the frame is then
nobody's to free. -/
theorem Family.allocUserPage_borrowed {v : Nat} {flags : Word} (hfam : Family s R ext lent) (hr : map.pml4Phys ∈ R)
    (hkern : map.isKernel = false) (hlog : s.freed = []) (hunt : vmmVirtToPhys s.mem map v = 0)
    (hflag : flags &&& physAddrMask = 0#64) (hborr : has flags flagBorrowed = true)
    (hsucc : (vmmAllocUserPage s map v flags).1 = true) :
    ∃ a lent', s.pmm.Free a ∧ Family (vmmAllocUserPage s map v flags).2 R (insert a ext) lent' := by
  have hflag' : userFlags flags &&& physAddrMask = 0#64 := by
    rw [userFlags, BitVec.or_assoc, BitVec.or_assoc, BitVec.and_or_distrib_right, hflag]
    decide
  have hborr' : has (userFlags flags) flagBorrowed = true := by
    rw [has_borrowed] at hborr ⊢
    simp only [userFlags, BitVec.getLsbD_or, hborr, Bool.true_or]
  rcases s.allocPage_spec hfam.ledger.ok with ⟨a, p', htakes, hgot⟩ | hfail
  · obtain ⟨haext, halt, haz, hal⟩ := hfam.of_takes htakes
    have haddr := htakes.pageAddr hfam.ledger.ok.phys
    obtain ⟨htake, hslot⟩ := hfam.takeCleared htakes s.faults.tail
    have hlent := htake.lend (mem_insert a ext) hlog
    have hmem : a * 4096 / 4096 ∈ insert a lent := by
      rw [Nat.mul_div_cancel a (by norm_num)]
      exact mem_insert _ _
    have hmap := hlent.mapPage_borrowed (v := v) hr hkern haddr.lt hmem hflag' hborr' fun huser => by
        rw [hslot _ hr _ _ (length_route_le v)]
        exact hfam.leaf_of_untranslated hr (pml4Index_lt_of_userRange huser) hunt
    refine ⟨a, insert a lent, htakes.free_first, ?_⟩
    rw [vmmAllocUserPage_eq hunt haz hgot] at hsucc ⊢
    dsimp only at hsucc ⊢
    split_ifs at hsucc ⊢
    exact hmap
  · rw [vmmAllocUserPage, if_neg (not_not.mpr hunt), hfail] at hsucc
    simp at hsucc

/-- A page that `vmm_alloc_user_page` maps with the `BORROWED` flag is still in use when its address space is
gone. -/
theorem allocUserPage_borrowed_leaks : (vmmCreateAddressSpace emptyRoot).1 = some userMap ∧
    ∃ x, x < 32 ∧ emptyRoot.pmm.bitmapTest x = false ∧
      (vmmDestroyAddressSpace (vmmAllocUserPage (vmmCreateAddressSpace emptyRoot).2 userMap 0x400000 flagBorrowed).2
        userMap).pmm.bitmapTest x = true ∧
      x ∉ (vmmDestroyAddressSpace
        (vmmAllocUserPage (vmmCreateAddressSpace emptyRoot).2 userMap 0x400000 flagBorrowed).2 userMap).heapFrames := by
  refine ⟨create_emptyRoot, ?_⟩
  have hfam₀ : Family emptyRoot _ _ _ := (Accounted.start emptyRoot_ok).family
  obtain ⟨hs, hheap, htotal, -, hcreated⟩ := hfam₀.create
  rw [create_emptyRoot] at hcreated
  obtain ⟨hkernel, -, hfam₁, -, -, -, -, hfree⟩ := hcreated
  have huntranslated : vmmVirtToPhys (vmmCreateAddressSpace emptyRoot).2.mem userMap 0x400000 = 0 := by decide +kernel
  have hsuccess : (vmmAllocUserPage (vmmCreateAddressSpace emptyRoot).2 userMap 0x400000 flagBorrowed).1 = true := by
    decide +kernel
  have hmachine : (vmmAllocUserPage (vmmCreateAddressSpace emptyRoot).2 userMap 0x400000 flagBorrowed).2.heapFrames = [] ∧
      (vmmAllocUserPage (vmmCreateAddressSpace emptyRoot).2 userMap 0x400000 flagBorrowed).2.pmm.totalPages = 32 := by
    decide +kernel
  obtain ⟨a, lent', ha, hfam₂⟩ := hfam₁.allocUserPage_borrowed (Set.mem_insert _ _) hkernel (by decide +kernel)
    huntranslated (by decide) (by decide) hsuccess
  obtain ⟨hfam₃, hsteady, -⟩ := hfam₂.destroy (Set.mem_insert _ _) hkernel
  have hafree := hfree a ha
  refine ⟨a, hafree.1, hafree.2, (hfam₃.ledger.used a ?_).mpr (.inr (Set.mem_insert _ _)), ?_⟩
  · rw [hsteady.1, hmachine.2]
    exact hafree.1
  · rw [hsteady.2, hmachine.1]
    exact List.not_mem_nil

end SzpontOS.Mm
