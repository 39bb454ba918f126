import SzpontOS.Mm.Space
import SzpontOS.Mm.Translate

/-!
# Mapping and releasing pages of an address space

Every function of `vmm.c` that changes an address space keeps the family of address spaces in order.
`Descent` records what the three descents of `vmm_map_page` may do besides: fill absent entries on the
way to the page with new tables, and touch no data page.
-/

namespace SzpontOS.Mm

open Lib Lib.Radix List

/-! ## Descending -/

/-- What the descents towards the page table of `v` do: absent entries on the route get new tables, other
slots stay, no data page changes, and pages are only taken. -/
structure Descent (s s' : Machine) (R : Set Nat) (r v : Nat) (flags : Word) : Prop where
  slots : ∀ r' ∈ R, ∀ (q : List Nat) (j : Nat), q.length ≤ 3 → slot s'.mem 256 r' q j = slot s.mem 256 r' q j ∨
    (r' = r ∧ q ++ [j] <+: route v ∧ has (slot s.mem 256 r' q j) flagPresent = false ∧
      ∃ a, PageAddr a ∧ slot s'.mem 256 r' q j = linkEntry a flags)
  data : ∀ x, x % 4096 = 0 → ¬ s.pmm.Free (x / 4096) → ¬ Reached s.mem 256 R 3 x → SamePage s.mem s'.mem x
  free : ∀ x, s'.pmm.Free x → s.pmm.Free x
  tables : ∀ x, Reached s'.mem 256 R 3 x → Reached s.mem 256 R 3 x ∨ s.pmm.Free (x / 4096)
  total : s'.pmm.totalPages = s.pmm.totalPages
  heap : s'.heapFrames = s.heapFrames

variable {r' v pt a t r virt size : Nat} {q : List Nat} {s s' s'' : Machine} {map : Pagemap} {flags : Word} {m : Mem}

namespace Descent

variable {R : Set Nat}

theorem refl (s : Machine) (R : Set Nat) (r v : Nat) (flags : Word) : Descent s s R r v flags :=
  ⟨fun _ _ _ _ _ => .inl rfl, fun _ _ _ _ _ _ _ => rfl, fun _ h => h, fun _ h => .inl h, rfl, rfl⟩

theorem trans (h : Descent s s' R r v flags) (h' : Descent s' s'' R r v flags) : Descent s s'' R r v flags := by
  refine ⟨fun r' hr' q j hq => ?_, fun x hx hused hdata => ?_, fun x hx => h.free x (h'.free x hx), fun x hx => ?_,
    h'.total.trans h.total, h'.heap.trans h.heap⟩
  · rcases h'.slots r' hr' q j hq with heq' | ⟨hr, hroute, habs, a, ha, hlink⟩
    · rcases h.slots r' hr' q j hq with heq | ⟨hr, hroute, habs, a, ha, hlink⟩
      · exact .inl (heq'.trans heq)
      · exact .inr ⟨hr, hroute, habs, a, ha, heq'.trans hlink⟩
    · rcases h.slots r' hr' q j hq with heq | ⟨_, _, _, a', ha', hlink'⟩
      · exact .inr ⟨hr, hroute, heq ▸ habs, a, ha, hlink⟩
      · rw [hlink', linkEntry_present ha'] at habs
        simp at habs
  · refine (h.data x hx hused hdata).trans (h'.data x hx (fun hf => hused (h.free _ hf)) fun hreach => ?_)
    rcases h.tables x hreach with ht | hf
    · exact hdata ht
    · exact hused hf
  · rcases h'.tables x hx with ht | hf
    · exact h.tables x ht
    · exact .inr (h.free _ hf)

theorem other (h : Descent s s' R r v flags) (hr' : r' ∈ R) (hne : r' ≠ r) (hq : q.length ≤ 3) {j : Nat} :
    slot s'.mem 256 r' q j = slot s.mem 256 r' q j := by
  rcases h.slots r' hr' q j hq with heq | ⟨heq, _⟩
  · exact heq
  · exact absurd heq hne

theorem leaf (h : Descent s s' R r v flags) (hr' : r' ∈ R) (hq : q.length = 3) (j : Nat) :
    slot s'.mem 256 r' q j = slot s.mem 256 r' q j := by
  rcases h.slots r' hr' q j (by omega) with heq | ⟨_, hroute, _⟩
  · exact heq
  · have := length_lt_of_route hroute
    omega

end Descent

namespace Family

variable {R ext lent : Set Nat} {i : Nat} {p : List Nat}

section

variable (hfam : Family s R ext lent) (hr : r ∈ R)

include hfam hr

theorem absent_of_node (hp : p.length < 3) (h : nodeOf p.length (slot s.mem 256 r p i) = none) :
    has (slot s.mem 256 r p i) flagPresent = false := by
  rw [hfam.trees.node_present hr hp] at h
  simpa using h

theorem getNextLevel (hroute : p ++ [i] <+: route v) (ht : walk (child s.mem 256) r p = some t)
    (hi : i < bound 256 p.length) (flags : Word) :
    (Family (getNextLevel s t i (3 - p.length) true (flags &&& flagUser)).2 R ext lent ∧
      Descent s (Mm.getNextLevel s t i (3 - p.length) true (flags &&& flagUser)).2 R r v flags) ∧
    ∀ u, (Mm.getNextLevel s t i (3 - p.length) true (flags &&& flagUser)).1 = some u →
      walk (child (Mm.getNextLevel s t i (3 - p.length) true (flags &&& flagUser)).2.mem 256) r (p ++ [i]) =
        some u := by
  have hp := length_lt_of_route hroute
  rcases getNextLevel_spec (3 - p.length) flags hfam.ledger.ok hfam.trees.forest hfam.reached_used hr hp ht hi
      (fun h => (hfam.trees.table r hr p i hp h).plain) with
    ⟨u, hu, heq⟩ | ⟨_, heq⟩ | ⟨hnone, a, p', htakes, heq, hupd⟩
  · rw [heq]
    refine ⟨⟨hfam, .refl s R r v flags⟩, fun u' hu' => ?_⟩
    rw [walk_snoc_slot, hu]
    exact hu'
  · rw [heq]
    refine ⟨⟨hfam.congr rfl rfl rfl, ?_⟩, fun u hu => absurd hu (by simp)⟩
    exact ⟨fun _ _ _ _ _ => .inl rfl, fun _ _ _ _ _ _ _ => rfl, fun _ h => h, fun _ h => .inl h, rfl, rfl⟩
  · rw [heq]
    have haddr := htakes.pageAddr hfam.ledger.ok.phys
    have hnode : nodeOf p.length (linkEntry (a * 4096) flags) = some (a * 4096) := nodeOf_linkEntry haddr hp
    have habs := hfam.absent_of_node hr hp hnone
    have ht3 : Reached s.mem 256 R 3 t := ⟨r, hr, p, by omega, ht⟩
    have hta : t % 4096 = 0 := (hfam.trees.forest.table_pageAddr ht3).aligned
    obtain ⟨haext, halt, haz, hal⟩ := hfam.of_takes htakes
    -- the page is first taken and cleared, then linked
    obtain ⟨htake, hsame⟩ := hfam.takeCleared htakes s.faults
    have hupd' : SlotsUpdate (s.mem.memset (a * 4096) 0 4096) (linkMem s.mem t i (a * 4096) flags) 256 R r p i
        (linkEntry (a * 4096) flags) := by
      intro r' hr' q j hq
      rw [hupd r' hr' q j hq, hsame r' hr' q j hq]
    refine ⟨⟨?_, ?_⟩, fun u hu => ?_⟩
    · refine htake.link (w := linkEntry (a * 4096) flags) rfl rfl haext (htakes.total ▸ halt) haz hal hr (by omega)
        hupd' ?_ hnode fun _ => ⟨linkEntry_huge haddr _, linkEntry_writable haddr _⟩
      rw [hsame r hr p i (by omega), hnone]
    · refine ⟨fun r' hr' q j hq => ?_, fun x hx hused hdata => ?_, fun x hx => (htakes.free_of_free hx).1,
        fun x hx => ?_, htakes.total, rfl⟩
      · rw [hupd r' hr' q j hq]
        split_ifs with h
        · obtain ⟨rfl, rfl, rfl⟩ := h
          exact .inr ⟨rfl, hroute, habs, _, haddr, rfl⟩
        · exact .inl rfl
      · have hxa : x ≠ a * 4096 := by
          rintro rfl
          rw [Nat.mul_div_cancel a (by norm_num)] at hused
          exact hused htakes.free_first
        have hxt : x ≠ t := by
          rintro rfl
          exact hdata ht3
        exact (SamePage.memset 0 haddr.aligned hx hxa).trans
          (.writeEntry _ hta hx (lt_of_lt_of_le hi (bound_le (by norm_num) _)) hxt)
      · obtain ⟨r', hr', q, hq, hw⟩ := hx
        rw [Forest.walk_update hupd hr' (by omega), hnode] at hw
        split_ifs at hw
        · rw [Option.some.injEq] at hw
          right
          rw [← hw, Nat.mul_div_cancel a (by norm_num)]
          exact htakes.free_first
        · exact .inl ⟨r', hr', q, hq, hw⟩
    · rw [Forest.walk_update hupd hr (by rw [length_append, length_singleton]; omega), if_pos ⟨rfl, rfl⟩,
        hnode]
      exact hu

theorem descend (hv : pml4Index v < 256) (flags : Word) :
    (Family (descend s r v flags).2 R ext lent ∧ Descent s (Mm.descend s r v flags).2 R r v flags) ∧
    ∀ pt, (Mm.descend s r v flags).1 = some pt →
      walk (child (Mm.descend s r v flags).2.mem 256) r (route v) = some pt := by
  refine descend_rule (fun s' => Family s' R ext lent ∧ Descent s s' R r v flags) hv ?_
    ⟨hfam, .refl s R r v flags⟩
  rintro s' p t i hroute hi ⟨hfam', hdesc⟩ ht
  obtain ⟨⟨hfam'', hdesc'⟩, hwalk⟩ := hfam'.getNextLevel hr hroute ht hi flags
  exact ⟨⟨hfam'', hdesc.trans hdesc'⟩, hwalk⟩

end

/-! ## Mapping a page -/

end Family

theorem pml4Index_lt_of_userRange {n : Nat} (h : vmmUserRange v n = true) : pml4Index v < 256 := by
  simp only [vmmUserRange, userEnd, Bool.and_eq_true, decide_eq_true_eq] at h
  rw [pml4Index_eq]
  omega

theorem length_route_le (v : Nat) : (route v).length ≤ 3 := le_rfl

/-- The number of pages and the pages of the heap stay. -/
def Steady (s s' : Machine) : Prop := s'.pmm.totalPages = s.pmm.totalPages ∧ s'.heapFrames = s.heapFrames

theorem Steady.trans (h : Steady s s') (h' : Steady s' s'') : Steady s s'' := ⟨h'.1.trans h.1, h'.2.trans h.2⟩

theorem Steady.freePage (s : Machine) (a : Nat) : Steady s (s.freePage a) := ⟨totalPages_pmmFreePage _ _, rfl⟩

namespace Family

variable {R ext lent : Set Nat} {i : Nat} {p : List Nat}

/-- `vmm_map_page` on an address space of the family: some descents, and on success one leaf. -/
theorem mapPage_cases (hfam : Family s R ext lent) (hr : map.pml4Phys ∈ R) (hkernel : map.isKernel = false)
    (v phys : Nat) (flags : Word) :
    ∃ s1, Family s1 R ext lent ∧ Descent s s1 R map.pml4Phys v flags ∧ (vmmMapPage s map v phys flags = (false, s1) ∨
        vmmUserRange v 4096 = true ∧ ∃ pt, walk (child s1.mem 256) map.pml4Phys (route v) = some pt ∧
          vmmMapPage s map v phys flags = (true, s1.write pt (ptIndex v) (leafEntry (pageDown phys) flags))) := by
  rw [vmmMapPage_eq, hkernel]
  cases huser : vmmUserRange v 4096 with
  | false => exact ⟨s, hfam, .refl _ _ _ _ _, .inl rfl⟩
  | true =>
    obtain ⟨⟨hfam', hdesc⟩, hwalk⟩ := hfam.descend hr (pml4Index_lt_of_userRange huser) flags
    rcases hg : Mm.descend s map.pml4Phys v flags with ⟨_ | pt, s1⟩
    · rw [hg] at hfam' hdesc
      exact ⟨s1, hfam', hdesc, .inl (by simp)⟩
    · rw [hg] at hfam' hdesc hwalk
      exact ⟨s1, hfam', hdesc, .inr ⟨rfl, pt, hwalk _ rfl, by simp⟩⟩

theorem slotsUpdate_leaf (hfam : Family s R ext lent) (hr : r ∈ R) (hpt : walk (child s.mem 256) r (route v) = some pt)
    (w : Word) : SlotsUpdate s.mem (writeEntry s.mem pt (ptIndex v) w) 256 R r (route v) (ptIndex v) w :=
  hfam.trees.forest.slot_leaf hr rfl hpt (by rw [length_route]; exact ptIndex_lt v)

/-- Mapping a page that the caller holds, where nothing is owned yet: on success the address space owns
it. -/
theorem mapPage_owned (hfam : Family s R (insert a ext) lent) (hr : map.pml4Phys ∈ R) (hkernel : map.isKernel = false)
    (ha : a ∉ ext) (hlt : a < s.pmm.totalPages) (hzero : a ≠ 0) (hlent : a ∉ lent)
    (hflag : flags &&& physAddrMask = 0#64) (howned : has flags flagBorrowed = false)
    (hleaf : vmmUserRange v 4096 = true → nodeOf 3 (slot s.mem 256 map.pml4Phys (route v) (ptIndex v)) = none) :
    Family (vmmMapPage s map v (a * 4096) flags).2 R
      (if (vmmMapPage s map v (a * 4096) flags).1 then ext else insert a ext) lent := by
  have haddr : PageAddr (a * 4096) := ⟨by omega, by have := hfam.ledger.ok.phys; omega⟩
  have hdown : pageDown (a * 4096) = a * 4096 := by
    rw [pageDown]
    omega
  obtain ⟨s1, hfam1, hdesc, heq | ⟨huser, pt, hpt, heq⟩⟩ := hfam.mapPage_cases hr hkernel v (a * 4096) flags
  · rw [heq]
    exact hfam1
  · rw [heq, hdown]
    refine hfam1.link (p := route v) rfl rfl ha (hdesc.total ▸ hlt) hzero hlent hr (length_route_le v)
      (hfam1.slotsUpdate_leaf hr hpt _) ?_ ?_ fun h => absurd h (by rw [length_route]; omega)
    · rw [hdesc.leaf hr (length_route v)]
      exact hleaf huser
    · rw [length_route, nodeOf_leaf]
      exact ⟨leafEntry_present haddr, (leafEntry_borrowed haddr).trans howned, leafEntry_addr haddr hflag⟩

section

variable (hfam : Family s R ext lent) (hr : map.pml4Phys ∈ R) (hkernel : map.isKernel = false)

include hfam hr hkernel

theorem mapPage_borrowed {phys : Nat} (hphys : phys < 2 ^ 52) (hlent : phys / 4096 ∈ lent)
    (hflag : flags &&& physAddrMask = 0#64) (hborr : has flags flagBorrowed = true)
    (hleaf : vmmUserRange v 4096 = true → nodeOf 3 (slot s.mem 256 map.pml4Phys (route v) (ptIndex v)) = none) :
    Family (vmmMapPage s map v phys flags).2 R ext lent := by
  have haddr := pageDown_pageAddr hphys
  obtain ⟨s1, hfam1, hdesc, heq | ⟨huser, pt, hpt, heq⟩⟩ := hfam.mapPage_cases hr hkernel v phys flags
  · rw [heq]
    exact hfam1
  · rw [heq]
    refine hfam1.keep (p := route v) rfl rfl (length_route v) (hfam1.slotsUpdate_leaf hr hpt _) ?_ ?_ hr
    · rw [hdesc.leaf hr (length_route v), hleaf huser, Option.eq_none_iff_forall_not_mem]
      intro f hf
      rw [Option.mem_def, nodeOf_leaf, leafEntry_borrowed haddr, hborr] at hf
      simp at hf
    · intro _ _
      rw [leafEntry_addr haddr hflag, pageDown, Nat.mul_div_cancel _ (by norm_num)]
      exact hlent

theorem mapPage_steady (v phys : Nat) (flags : Word) : Steady s (vmmMapPage s map v phys flags).2 := by
  obtain ⟨s1, -, hdesc, heq | ⟨-, pt, -, heq⟩⟩ := hfam.mapPage_cases hr hkernel v phys flags
  all_goals
    rw [heq]
    exact ⟨hdesc.total, hdesc.heap⟩

end

end Family

/-! ## Allocating a user page -/

/-- Flags that a caller passes for a page of its own: no address bits, and not borrowed. -/
structure OwnFlags (flags : Word) : Prop where
  addr : flags &&& physAddrMask = 0#64
  own : has flags flagBorrowed = false

theorem OwnFlags.or {f g : Word} (hf : OwnFlags f) (hg : OwnFlags g) : OwnFlags (f ||| g) := by
  refine ⟨?_, ?_⟩
  · rw [BitVec.and_or_distrib_right, hf.addr, hg.addr, BitVec.or_zero]
  · rw [has_borrowed, BitVec.getLsbD_or, ← has_borrowed, ← has_borrowed, hf.own, hg.own, Bool.or_false]

theorem ownFlags_present : OwnFlags flagPresent := ⟨by decide, by decide⟩
theorem ownFlags_user : OwnFlags flagUser := ⟨by decide, by decide⟩
theorem ownFlags_writable : OwnFlags flagWritable := ⟨by decide, by decide⟩

/-- The flags that `vmm_alloc_user_page` maps a page with. -/
def userFlags (flags : Word) : Word := flags ||| flagUser ||| flagPresent ||| flagWritable

theorem ownFlags_userFlags (hflag : OwnFlags flags) : OwnFlags (userFlags flags) :=
  ((hflag.or ownFlags_user).or ownFlags_present).or ownFlags_writable

/-- What `vmm_alloc_user_page` does at an untranslated address once it has a page: map it, or free it. -/
theorem vmmAllocUserPage_eq {p' : Pmm} (hunt : vmmVirtToPhys s.mem map v = 0) (ha : a ≠ 0)
    (hgot : s.allocPage = (a * 4096, { s with pmm := p', faults := s.faults.tail })) :
    vmmAllocUserPage s map v flags = let s1 : Machine := { s with
        pmm := p', faults := s.faults.tail, mem := s.mem.memset (a * 4096) 0 4096 }
      if (vmmMapPage s1 map v (a * 4096) (userFlags flags)).1 then
        (true, (vmmMapPage s1 map v (a * 4096) (userFlags flags)).2)
      else (false, (vmmMapPage s1 map v (a * 4096) (userFlags flags)).2.freePage (a * 4096)) := by
  rw [vmmAllocUserPage, if_neg (not_not.mpr hunt)]
  simp only [hgot, Nat.mul_eq_zero, ha, OfNat.ofNat_ne_zero, or_self, ↓reduceIte, userFlags]
  split <;> simp_all

namespace Family

variable {R ext lent : Set Nat} {i : Nat} {p : List Nat}

section

variable (hfam : Family s R ext lent) (hr : map.pml4Phys ∈ R)

include hfam hr

theorem virtToPhys (hv : pml4Index v < 256) :
    vmmVirtToPhys s.mem map v = if has (slot s.mem 256 map.pml4Phys (route v) (ptIndex v)) flagPresent then
      entryAddr (slot s.mem 256 map.pml4Phys (route v) (ptIndex v)) ||| (v &&& 0xFFF) else 0 :=
  vmmVirtToPhys_plain hv fun q j hpre h => (hfam.trees.table _ hr q j (length_lt_of_route hpre) h).plain

theorem leaf_of_untranslated (hv : pml4Index v < 256) (h : vmmVirtToPhys s.mem map v = 0) :
    nodeOf 3 (slot s.mem 256 map.pml4Phys (route v) (ptIndex v)) = none := by
  rw [Option.eq_none_iff_forall_not_mem]
  intro f hf
  obtain ⟨hpres, -, haddr⟩ := nodeOf_leaf.mp hf
  rw [hfam.virtToPhys hr hv, if_pos hpres, haddr, Nat.or_eq_zero_iff] at h
  have hzero : 0 ∈ owned s.mem R := by
    refine ⟨_, hr, route v ++ [ptIndex v], by simp [route], ?_⟩
    rw [walk_snoc_slot, length_route, hf, h.1]
  exact hfam.ledger.apart 0 hzero hfam.ledger.zero

theorem allocUserPage (hkernel : map.isKernel = false) (v : Nat) (hflag : OwnFlags flags) :
    Family (vmmAllocUserPage s map v flags).2 R ext lent ∧ Steady s (vmmAllocUserPage s map v flags).2 := by
  by_cases hunt : vmmVirtToPhys s.mem map v = 0
  · rcases s.allocPage_spec hfam.ledger.ok with ⟨a, p', htakes, hgot⟩ | hfail
    · obtain ⟨haext, halt, haz, hal⟩ := hfam.of_takes htakes
      obtain ⟨htake, hslot⟩ := hfam.takeCleared htakes s.faults.tail
      have hstay := htake.mapPage_steady hr hkernel v (a * 4096) (userFlags flags)
      have hmap := htake.mapPage_owned (v := v) hr hkernel haext (htakes.total ▸ halt) haz hal
        (ownFlags_userFlags hflag).addr (ownFlags_userFlags hflag).own fun huser => by
          rw [hslot _ hr _ _ (length_route_le v)]
          exact hfam.leaf_of_untranslated hr (pml4Index_lt_of_userRange huser) hunt
      have hst0 : Steady s { s with pmm := p', faults := s.faults.tail, mem := s.mem.memset (a * 4096) 0 4096 } :=
        ⟨htakes.total, rfl⟩
      rw [vmmAllocUserPage_eq hunt haz hgot]
      dsimp only
      split_ifs at hmap ⊢
      · exact ⟨hmap, hst0.trans hstay⟩
      · exact ⟨hmap.free haext ((hst0.trans hstay).1 ▸ halt) haz hal, (hst0.trans hstay).trans (.freePage _ _)⟩
    · rw [vmmAllocUserPage, if_neg (not_not.mpr hunt), hfail]
      exact ⟨hfam.congr rfl rfl rfl, rfl, rfl⟩
  · rw [vmmAllocUserPage, if_pos hunt]
    exact ⟨hfam, rfl, rfl⟩

end

end Family

/-! ## Releasing a user page -/

/-- What releasing the page of `v` does: its leaf goes, other leaves stay, tables may go, and no data page
changes. -/
structure Released (s s' : Machine) (R : Set Nat) (r v : Nat) : Prop where
  leaf : ∀ r' ∈ R, ∀ (q : List Nat) (j : Nat), q.length = 3 →
    slot s'.mem 256 r' q j = if r' = r ∧ q = route v ∧ j = ptIndex v then 0 else slot s.mem 256 r' q j
  table : ∀ r' ∈ R, ∀ (q : List Nat) (j : Nat), q.length < 3 →
    slot s'.mem 256 r' q j = slot s.mem 256 r' q j ∨ slot s'.mem 256 r' q j = 0
  data : ∀ x, x % 4096 = 0 → ¬ Reached s.mem 256 R 3 x → SamePage s.mem s'.mem x
  steady : Steady s s'

/-- What the reclaim loop does: leaves stay, tables may go, and no data page changes. -/
structure Reclaimed (s s' : Machine) (R : Set Nat) : Prop where
  leaf : ∀ r' ∈ R, ∀ (q : List Nat) (j : Nat), q.length = 3 → slot s'.mem 256 r' q j = slot s.mem 256 r' q j
  table : ∀ r' ∈ R, ∀ (q : List Nat) (j : Nat), q.length < 3 →
    slot s'.mem 256 r' q j = slot s.mem 256 r' q j ∨ slot s'.mem 256 r' q j = 0
  data : ∀ x, x % 4096 = 0 → ¬ Reached s.mem 256 R 3 x → SamePage s.mem s'.mem x
  tables : ∀ x, Reached s'.mem 256 R 3 x → Reached s.mem 256 R 3 x
  steady : Steady s s'

theorem Reclaimed.refl (s : Machine) (R : Set Nat) : Reclaimed s s R :=
  ⟨fun _ _ _ _ _ => rfl, fun _ _ _ _ _ => .inl rfl, fun _ _ _ _ _ _ => rfl, fun _ h => h, rfl, rfl⟩

theorem Reclaimed.trans {R : Set Nat} (h : Reclaimed s s' R) (h' : Reclaimed s' s'' R) : Reclaimed s s'' R := by
  refine ⟨fun r hr q j hq => (h'.leaf r hr q j hq).trans (h.leaf r hr q j hq), fun r hr q j hq => ?_,
    fun x hx hdata => (h.data x hx hdata).trans (h'.data x hx fun ht => hdata (h.tables x ht)),
    fun x hx => h.tables x (h'.tables x hx), h.steady.trans h'.steady⟩
  rcases h'.table r hr q j hq with heq | hzero
  · rw [heq]
    exact h.table r hr q j hq
  · exact .inr hzero

namespace Family

variable {R ext lent : Set Nat} {i u : Nat} {p : List Nat}

theorem tableEmpty_spec : tableEmpty m t = true ↔ ∀ k, k < 512 → readEntry m t k = 0 := by
  simp [tableEmpty]

theorem unlink_free (hfam : Family s R ext lent) (hr : r ∈ R) (hp : p.length ≤ 3)
    (hu : walk (child s.mem 256) r (p ++ [i]) = some u)
    (hupd : SlotsUpdate s.mem (writeEntry s.mem t i 0) 256 R r p i 0) :
    Family ((s.write t i 0).freePage u) R ext lent := by
  have hlen : (p ++ [i]).length ≤ 4 := by
    rw [length_append, length_singleton]
    omega
  have hua : u / 4096 * 4096 = u :=
    Nat.div_mul_cancel (Nat.dvd_of_mod_eq_zero (walk_pageAddr (hfam.trees.forest.root r hr) hu).aligned)
  obtain ⟨hext, hlt, hzero, hlent⟩ := hfam.of_owned (mem_owned_of_walk hfam.trees.forest hr hlen hu)
  have hpart : Family (s.write t i 0) R (insert (u / 4096) ext) lent :=
    hfam.unlink rfl rfl hr hp hupd (by rw [← walk_snoc_slot, hu, hua])
  exact hua ▸ hpart.free hext hlt hzero hlent

theorem reclaim (hfam : Family s R ext lent) (hr : r ∈ R) (hp : p.length < 3)
    (ht : walk (child s.mem 256) r p = some t) (hi : i < bound 256 p.length)
    (hu : walk (child s.mem 256) r (p ++ [i]) = some u) (hemp : tableEmpty s.mem u = true) :
    (Family ((s.write t i 0).freePage u) R ext lent ∧ Reclaimed s ((s.write t i 0).freePage u) R) ∧
      ∀ q : List Nat, q.length ≤ p.length →
        walk (child ((s.write t i 0).freePage u).mem 256) r q = walk (child s.mem 256) r q := by
  have hupd := hfam.trees.forest.slot_unlink hr (by omega) ht hi (by rw [← walk_snoc_slot, hu])
    (tableEmpty_spec.mp hemp)
  have hta : Reached s.mem 256 R 3 t := ⟨r, hr, p, by omega, ht⟩
  refine ⟨⟨hfam.unlink_free hr (by omega) hu hupd, fun r' hr' q j hq => ?_, fun r' hr' q j hq => ?_,
    fun x hx hdata => ?_, fun x hx => ?_, totalPages_pmmFreePage _ _, rfl⟩, fun q hq => ?_⟩
  · refine (hupd r' hr' q j (by omega)).trans (if_neg ?_)
    rintro ⟨_, rfl, _⟩
    omega
  · by_cases h : r' = r ∧ q = p ∧ j = i
    · exact .inr ((hupd r' hr' q j (by omega)).trans (if_pos h))
    · exact .inl ((hupd r' hr' q j (by omega)).trans (if_neg h))
  · refine .writeEntry _ (hfam.trees.forest.table_pageAddr hta).aligned hx
      (lt_of_lt_of_le hi (bound_le (by norm_num) _)) ?_
    rintro rfl
    exact hdata hta
  · obtain ⟨r', hr', q, hq, hw⟩ := hx
    have hw' := (Forest.walk_update hupd hr' (by omega)).symm.trans hw
    rw [nodeOf_zero] at hw'
    split_ifs at hw'
    exact ⟨r', hr', q, hq, hw'⟩
  · refine (Forest.walk_update hupd hr (by omega)).trans (if_neg ?_)
    rintro ⟨_, rfl⟩
    simp at hq

theorem walk_route_parts (h : walk (child m 256) r (route v) = some pt) :
    ∃ pdpt pd, walk (child m 256) r [pml4Index v] = some pdpt ∧
      walk (child m 256) r [pml4Index v, pdptIndex v] = some pd := by
  obtain ⟨pdpt, hpdpt⟩ := walk_along (q := [pml4Index v]) ⟨[pdptIndex v, pdIndex v], rfl⟩ h
  obtain ⟨pd, hpd⟩ := walk_along (q := [pml4Index v, pdptIndex v]) ⟨[pdIndex v], rfl⟩ h
  exact ⟨pdpt, pd, hpdpt, hpd⟩

theorem entryAddr_of_walk {top : Nat} (hp : p.length < 3) (hi : i < bound top p.length)
    (ht : walk (child m top) r p = some t) (hu : walk (child m top) r (p ++ [i]) = some u) :
    entryAddr (readEntry m t i) = u := by
  rw [walk_snoc_slot, slot_of_walk ht hi, nodeOf_eq_some hp] at hu
  exact hu.2.2

theorem reclaimTables (hfam : Family s R ext lent) (hr : map.pml4Phys ∈ R) (hv : pml4Index v < 256)
    (hpt : walk (child s.mem 256) map.pml4Phys (route v) = some pt) :
    Family (reclaimTables s map v) R ext lent ∧ Reclaimed s (Mm.reclaimTables s map v) R := by
  obtain ⟨pdpt, pd, hpdpt, hpd⟩ := walk_route_parts hpt
  have hb0 : pml4Index v < bound 256 ([] : List Nat).length := by simpa [bound] using hv
  have hb1 : pdptIndex v < bound 256 [pml4Index v].length := by simp [bound, pdptIndex_lt]
  have hb2 : pdIndex v < bound 256 [pml4Index v, pdptIndex v].length := by simp [bound, pdIndex_lt]
  have e0 := entryAddr_of_walk (p := []) (by simp) hb0 (walk_nil _) hpdpt
  have e1 := entryAddr_of_walk (by simp) hb1 hpdpt hpd
  have e2 := entryAddr_of_walk (by simp) hb2 hpd hpt
  rw [Mm.reclaimTables]
  simp only [e0, e1, e2]
  cases hemp : tableEmpty s.mem pt with
  | false => exact ⟨hfam, .refl s R⟩
  | true =>
    obtain ⟨⟨hfam1, hrec1⟩, hwalk⟩ := hfam.reclaim hr (by simp) hpd hb2 hpt hemp
    rw [← hwalk _ (by simp)] at hpdpt hpd
    generalize (s.write pd (pdIndex v) 0).freePage pt = s1 at hfam1 hrec1 hpdpt hpd ⊢
    simp only [entryAddr_of_walk (by simp) hb1 hpdpt hpd]
    cases hemp1 : tableEmpty s1.mem pd with
    | false => exact ⟨hfam1, hrec1⟩
    | true =>
      obtain ⟨⟨hfam2, hrec2⟩, hwalk⟩ := hfam1.reclaim hr (by simp) hpdpt hb1 hpd hemp1
      rw [← hwalk _ (by simp)] at hpdpt
      generalize (s1.write pdpt (pdptIndex v) 0).freePage pd = s2 at hfam2 hrec2 hpdpt ⊢
      simp only [entryAddr_of_walk (p := []) (by simp) hb0 (walk_nil _) hpdpt]
      cases hemp2 : tableEmpty s2.mem pdpt with
      | false => exact ⟨hfam2, hrec1.trans hrec2⟩
      | true =>
        obtain ⟨⟨hfam3, hrec3⟩, -⟩ := hfam2.reclaim (p := []) hr (by simp) (walk_nil _) hb0 hpdpt hemp2
        exact ⟨hfam3, (hrec1.trans hrec2).trans hrec3⟩

/-- The state after the leaf of a page has been cleared and its frame given back. -/
def clearLeaf (s : Machine) (pt l : Nat) (old : Word) : Machine :=
  if !has old flagBorrowed then (s.write pt l 0).freePage (entryAddr old) else s.write pt l 0

theorem clearLeaf_mem (s : Machine) (pt l : Nat) (old : Word) :
    (clearLeaf s pt l old).mem = writeEntry s.mem pt l 0 := by
  rw [clearLeaf]
  split_ifs <;> rfl

theorem clearLeaf_steady (s : Machine) (pt l : Nat) (old : Word) : Steady s (clearLeaf s pt l old) := by
  rw [clearLeaf]
  split_ifs
  · exact ⟨totalPages_pmmFreePage _ _, rfl⟩
  · exact ⟨rfl, rfl⟩

theorem clear (hfam : Family s R ext lent) (hr : r ∈ R) (hpt : walk (child s.mem 256) r (route v) = some pt)
    (hpres : has (slot s.mem 256 r (route v) (ptIndex v)) flagPresent = true) :
    Family (clearLeaf s pt (ptIndex v) (slot s.mem 256 r (route v) (ptIndex v))) R ext lent := by
  have hupd := hfam.slotsUpdate_leaf hr hpt 0
  rw [clearLeaf]
  cases hborr : has (slot s.mem 256 r (route v) (ptIndex v)) flagBorrowed with
  | true =>
    refine hfam.keep (p := route v) rfl rfl (length_route v) hupd ?_ (fun h => by simp at h) hr
    rw [nodeOf_zero, eq_comm, Option.eq_none_iff_forall_not_mem]
    intro f hf
    rw [Option.mem_def, nodeOf_leaf, hborr] at hf
    simp at hf
  | false =>
    refine hfam.unlink_free hr (length_route_le v) ?_ hupd
    rw [walk_snoc_slot, length_route, nodeOf_leaf]
    exact ⟨hpres, hborr, rfl⟩

theorem clear_reclaim (hfam : Family s R ext lent) (hr : map.pml4Phys ∈ R) (hv : pml4Index v < 256)
    (hpt : walk (child s.mem 256) map.pml4Phys (route v) = some pt)
    (hpres : has (slot s.mem 256 map.pml4Phys (route v) (ptIndex v)) flagPresent = true) :
    Family (Mm.reclaimTables
      (clearLeaf s pt (ptIndex v) (slot s.mem 256 map.pml4Phys (route v) (ptIndex v))) map v) R ext lent ∧
    Released s (Mm.reclaimTables
      (clearLeaf s pt (ptIndex v) (slot s.mem 256 map.pml4Phys (route v) (ptIndex v))) map v) R map.pml4Phys v := by
  have hclear := hfam.clear hr hpt hpres
  have hmem := clearLeaf_mem s pt (ptIndex v) (slot s.mem 256 map.pml4Phys (route v) (ptIndex v))
  have hstay := clearLeaf_steady s pt (ptIndex v) (slot s.mem 256 map.pml4Phys (route v) (ptIndex v))
  generalize clearLeaf s pt (ptIndex v) (slot s.mem 256 map.pml4Phys (route v) (ptIndex v)) = s1
    at hclear hmem hstay ⊢
  have hupd := hmem ▸ hfam.slotsUpdate_leaf hr hpt 0
  have hpt1 : walk (child s1.mem 256) map.pml4Phys (route v) = some pt := by
    rw [Forest.walk_update hupd hr (by simp [route]), if_neg (by simp), hpt]
  have hpt3 : Reached s.mem 256 R 3 pt := ⟨_, hr, route v, length_route_le v, hpt⟩
  obtain ⟨hfam', hrec⟩ := hclear.reclaimTables hr hv hpt1
  refine ⟨hfam', fun r' hr' q j hq => ?_, fun r' hr' q j hq => ?_, fun x hx hdata => ?_, hstay.trans hrec.steady⟩
  · rw [hrec.leaf r' hr' q j hq, hupd r' hr' q j (by omega)]
  · have hq' : slot s1.mem 256 r' q j = slot s.mem 256 r' q j := by
      rw [hupd r' hr' q j (by omega), if_neg]
      rintro ⟨_, rfl, _⟩
      simp [route] at hq
    rw [← hq']
    exact hrec.table r' hr' q j hq
  · refine .trans ?_ (hrec.data x hx fun hreach => ?_)
    · rw [hmem]
      refine .writeEntry _ (hfam.trees.forest.table_pageAddr hpt3).aligned hx (ptIndex_lt v) ?_
      rintro rfl
      exact hdata hpt3
    · obtain ⟨r', hr', q, hq, hw⟩ := hreach
      rw [Forest.walk_update hupd hr' (by omega), if_neg] at hw
      · exact hdata ⟨r', hr', q, hq, hw⟩
      · rintro ⟨_, rfl⟩
        simp [route] at hq

theorem releaseUserPage (hfam : Family s R ext lent) (hr : map.pml4Phys ∈ R) (v : Nat) :
    Family (vmmReleaseUserPage s map v).2 R ext lent ∧
      ((vmmReleaseUserPage s map v).2 = s ∧ (vmmUserRange v 4096 = true → map.isKernel = false →
        has (slot s.mem 256 map.pml4Phys (route v) (ptIndex v)) flagPresent = false) ∨
      Released s (vmmReleaseUserPage s map v).2 R map.pml4Phys v) := by
  rw [vmmReleaseUserPage]
  cases hkernel : map.isKernel with
  | true => exact ⟨hfam, .inl ⟨rfl, fun _ h => by simp at h⟩⟩
  | false =>
    cases huser : vmmUserRange v 4096 with
    | false => exact ⟨hfam, .inl ⟨rfl, fun h => by simp at h⟩⟩
    | true =>
      have hv := pml4Index_lt_of_userRange huser
      rw [userLeaf_eq _ _ _ hv]
      cases hpt : walk (child s.mem 256) map.pml4Phys (route v) with
      | none =>
        refine ⟨hfam, .inl ⟨rfl, fun _ _ => ?_⟩⟩
        rw [slot_of_walk_none hpt]
        exact has_zero _
      | some pt =>
        have hi : ptIndex v < bound 256 (route v).length := by
          exact ptIndex_lt v
        have hslot := slot_of_walk hpt hi
        simp only [Option.map_some, Bool.false_or, Bool.not_true, Bool.false_eq_true, ↓reduceIte, ← hslot]
        cases hpres : has (slot s.mem 256 map.pml4Phys (route v) (ptIndex v)) flagPresent with
        | false => exact ⟨hfam, .inl ⟨rfl, fun _ _ => rfl⟩⟩
        | true =>
          simp only [Bool.not_true, Bool.false_eq_true, ↓reduceIte]
          obtain ⟨hfam', hrel⟩ := hfam.clear_reclaim hr hv hpt hpres
          exact ⟨hfam', .inr hrel⟩

end Family

/-! ## Changing the protection of a range -/

/-- The leaf that `vmm_set_range_flags` writes. -/
def protEntry (old flags : Word) : Word := (old &&& preserveMask) ||| flags ||| flagPresent

section Prot

variable {old : Word}

theorem protEntry_present : has (protEntry old flags) flagPresent = true := by
  rw [has_present, protEntry, BitVec.getLsbD_or, show flagPresent.getLsbD 0 = true by decide, Bool.or_true]

theorem getLsbD_protEntry (k : Nat) : (protEntry old flags).getLsbD k =
    (old.getLsbD k && preserveMask.getLsbD k || flags.getLsbD k || flagPresent.getLsbD k) := by
  rw [protEntry, BitVec.getLsbD_or, BitVec.getLsbD_or, BitVec.getLsbD_and]

theorem protEntry_user : has (protEntry old flags) flagUser = has flags flagUser := by
  rw [has_user, has_user, getLsbD_protEntry, show preserveMask.getLsbD 2 = false by decide,
    show flagPresent.getLsbD 2 = false by decide]
  simp

theorem protEntry_writable : has (protEntry old flags) flagWritable = has flags flagWritable := by
  rw [has_writable, has_writable, getLsbD_protEntry, show preserveMask.getLsbD 1 = false by decide,
    show flagPresent.getLsbD 1 = false by decide]
  simp

theorem protEntry_borrowed (hflag : OwnFlags flags) : has (protEntry old flags) flagBorrowed = has old flagBorrowed := by
  have hown := hflag.own
  rw [has_borrowed] at hown
  rw [has_borrowed, has_borrowed, getLsbD_protEntry, hown, show preserveMask.getLsbD 9 = true by decide,
    show flagPresent.getLsbD 9 = false by decide]
  simp

theorem protEntry_addr (hflag : OwnFlags flags) : entryAddr (protEntry old flags) = entryAddr old := by
  rw [entryAddr, entryAddr, protEntry, BitVec.and_or_distrib_right, BitVec.and_or_distrib_right, hflag.addr,
    BitVec.and_assoc, show preserveMask &&& physAddrMask = physAddrMask by decide,
    show flagPresent &&& physAddrMask = 0#64 by decide, BitVec.or_zero, BitVec.or_zero]

theorem protEntry_protEntry : protEntry (protEntry old flags) flags = protEntry old flags := by
  apply BitVec.eq_of_getLsbD_eq
  intro k _
  rw [getLsbD_protEntry, getLsbD_protEntry]
  cases old.getLsbD k <;> cases preserveMask.getLsbD k <;> cases flags.getLsbD k <;> simp

theorem nodeOf_protEntry (hflag : OwnFlags flags) (hpres : has old flagPresent = true) :
    nodeOf 3 (protEntry old flags) = nodeOf 3 old := by
  rw [nodeOf_three, nodeOf_three, protEntry_present, hpres, protEntry_borrowed hflag, protEntry_addr hflag]

end Prot

theorem mem_pagesBetween {start stop : Nat} : v ∈ pagesBetween start stop ↔
    start ≤ v ∧ v < stop ∧ (v - start) % 4096 = 0 := by
  simp only [pagesBetween, mem_map, mem_range]
  constructor
  · omega
  · rintro ⟨hlo, hhi, hmod⟩
    exact ⟨(v - start) / 4096, by omega, by omega⟩

end SzpontOS.Mm
