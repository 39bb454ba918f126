import SzpontOS.Mm.Ownership

/-!
# Changing the protection of a range, in any tree

`vmm_set_range_flags` first looks at every page of the range and then writes every leaf, or none.
-/

namespace SzpontOS.Mm

open Lib Lib.Radix List

variable {v virt size top : Nat} {m : Mem}

theorem getLsbD_protEntry_preserved {old flags : Word} {k : Nat} (hk : preserveMask.getLsbD k = true) :
    (protEntry old flags).getLsbD k = (old.getLsbD k || flags.getLsbD k) := by
  have hpres : flagPresent.getLsbD k = false := by
    by_cases h64 : k < 64
    · have hdisjoint : ∀ k : Fin 64, preserveMask.getLsbD k = true → flagPresent.getLsbD k = false := by decide
      exact hdisjoint ⟨k, h64⟩ hk
    · exact BitVec.getLsbD_of_ge _ _ (by omega)
  rw [getLsbD_protEntry, hk, hpres]
  simp

section RangeFlags

variable {s : Machine} {map : Pagemap}

theorem setLeaf_forest {R : Set Nat} {flags : Word} (hr : map.pml4Phys ∈ R) (htree : Forest s.mem top R 3)
    (hv : pml4Index v < top) (hpres : has (leafIn s.mem top map.pml4Phys v) flagPresent = true) :
    ∃ m', setLeafFlags map flags s v = { s with mem := m' } ∧ Forest m' top R 3 ∧
      Rewritten s.mem m' top R map.pml4Phys [v] flags := by
  obtain ⟨m', heq, hupd, hrewritten⟩ := htree.setLeaf hr flags hv hpres
  -- a leaf is not a table
  exact ⟨m', heq, htree.update hupd fun f hlen => absurd hlen (lt_irrefl 3), hrewritten⟩

theorem Rewritten.access {m' : Mem} {flags : Word} (htop : 256 ≤ top)
    (h : Rewritten m m' top {map.pml4Phys} map.pml4Phys (rangePages virt size) flags)
    (huser : vmmUserRange virt size = true) (addr len : Nat) (write : Bool) :
    vmmUserAccess m' map addr len write = (decide (len = 0) || vmmUserRange addr len &&
      (pagesBetween (pageDown addr) (addr + len)).all fun v =>
        levelsGrant m top map.pml4Phys v (if Intersects virt size v then protEntry (leafIn m top map.pml4Phys v) flags
          else leafIn m top map.pml4Phys v) write) := by
  rw [Bool.eq_iff_iff, vmmUserAccess_iff]
  simp only [Bool.or_eq_true, decide_eq_true_eq, Bool.and_eq_true, all_eq_true]
  refine or_congr_right (and_congr_right fun haddr => forall₂_congr fun v hv => ?_)
  obtain ⟨halign, -, hlt⟩ := pagesBetween_user haddr hv
  have hleaf : leafIn m' top map.pml4Phys v =
      if Intersects virt size v then protEntry (leafIn m top map.pml4Phys v) flags
      else leafIn m top map.pml4Phys v := by
    rw [leafIn, h.slots _ rfl _ _ (length_route_le v), leafIn]
    refine if_congr ⟨?_, fun hin => ⟨rfl, v, mem_rangePages_iff.mpr hin, rfl, rfl⟩⟩ rfl rfl
    -- two pages of the user half with one leaf are one page
    rintro ⟨-, v', hv', hroute, hidx⟩
    rw [mem_rangePages_iff] at hv'
    have hlt' := hv'.lt_userEnd huser
    have halign' := hv'.1
    simp only [route, List.cons.injEq, and_true, pml4Index_eq, pdptIndex_eq, pdIndex_eq, ptIndex_eq, userEnd] at *
    have heq : v = v' := by omega
    exact heq ▸ hv'
  rw [pageAccess_levels _ _ (lt_of_lt_of_le (pml4Index_lt_of_user hlt) htop), ← leafIn, hleaf, levelsGrant, levelsGrant,
    h.table rfl (by simp), h.table rfl (by simp), h.table rfl (by simp)]

/-- **Range protection is all-or-nothing.** For every tree in which no table is reached twice, every range and all
flags: `vmm_set_range_flags` succeeds exactly when the range is a non-empty user range whose pages all have a present
4 KiB leaf. When it fails nothing changes. When it succeeds the leaves of the pages that intersect the range are
rewritten and no other entry changes; each keeps its frame address, its `BORROWED` mark and its caching bits, apart
from such bits that `flags` itself sets; and `vmm_user_access` is the conjunction of the required bits at all four
levels, with those leaves updated. -/
theorem range_protection_all_or_nothing (htop : 256 ≤ top) (htree : Forest s.mem top {map.pml4Phys} 3)
    (virt size : Nat) (flags : Word) :
    ((vmmSetRangeFlags s map virt size flags).1 = true ↔ size ≠ 0 ∧ vmmUserRange virt size = true ∧
        ∀ v, Intersects virt size v → has (leafIn s.mem top map.pml4Phys v) flagPresent = true) ∧
    ((vmmSetRangeFlags s map virt size flags).1 = false → (vmmSetRangeFlags s map virt size flags).2 = s) ∧
    ((vmmSetRangeFlags s map virt size flags).1 = true →
      ∃ m', (vmmSetRangeFlags s map virt size flags).2 = { s with mem := m' } ∧
        (∀ x, x % 4096 = 0 → ¬ Reached s.mem top {map.pml4Phys} 3 x → SamePage s.mem m' x) ∧
        (∀ (q : List Nat) (j : Nat), q.length ≤ 3 → (∀ v, Intersects virt size v → ¬ (q = route v ∧ j = ptIndex v)) →
          slot m' top map.pml4Phys q j = slot s.mem top map.pml4Phys q j) ∧
        (∀ v, Intersects virt size v → leafIn m' top map.pml4Phys v =
          (leafIn s.mem top map.pml4Phys v &&& preserveMask) ||| flags ||| flagPresent) ∧
        (∀ v k, Intersects virt size v → preserveMask.getLsbD k = true → (leafIn m' top map.pml4Phys v).getLsbD k =
            ((leafIn s.mem top map.pml4Phys v).getLsbD k || flags.getLsbD k)) ∧
        ∀ addr len write, vmmUserAccess m' map addr len write = (decide (len = 0) || vmmUserRange addr len &&
          (pagesBetween (pageDown addr) (addr + len)).all fun v =>
            levelsGrant s.mem top map.pml4Phys v
              (if Intersects virt size v then
                (leafIn s.mem top map.pml4Phys v &&& preserveMask) ||| flags ||| flagPresent
              else leafIn s.mem top map.pml4Phys v) write)) := by
  rcases vmmSetRangeFlags_eq s map virt size flags htop with
    ⟨hprot, heq⟩ | ⟨hprot, heq⟩
  · rw [heq]
    refine ⟨⟨fun _ => hprot, fun _ => rfl⟩, fun h => absurd h (by simp), fun _ => ?_⟩
    obtain ⟨m', hloop, -, hwrite⟩ := setLeaves (R := {map.pml4Phys}) (P := fun s => Forest s.mem top {map.pml4Phys} 3) rfl
      (setLeaf_forest rfl) (rangePages virt size) htree fun v hv => hprot.page htop hv
    have hleaf : ∀ v, Intersects virt size v →
        leafIn m' top map.pml4Phys v = protEntry (leafIn s.mem top map.pml4Phys v) flags :=
      fun v hv => hwrite.leaf rfl (mem_rangePages_iff.mpr hv)
    refine ⟨m', hloop, hwrite.data, fun q j hq hout => ?_, hleaf, fun v k hv hk => ?_, hwrite.access htop hprot.2.1⟩
    · rw [hwrite.slots _ rfl q j hq, if_neg]
      rintro ⟨-, v, hv, hleaf⟩
      exact hout v (mem_rangePages_iff.mp hv) hleaf
    · rw [hleaf v hv, getLsbD_protEntry_preserved hk]
  · rw [heq]
    exact ⟨⟨fun h => absurd h (by simp), fun h => absurd h hprot⟩, fun _ => rfl, fun h => absurd h (by simp)⟩

end RangeFlags

/-! ## An address space with one page -/

theorem Forest.tables {n : Nat} {R : Set Nat} (hF : Forest m top R n) : Forest m top R 3 :=
  ⟨hF.top_le, le_rfl, by norm_num, hF.root,
    fun _ _ hr hr' _ _ hp hp' _ h h' => hF.sep hr hr' (hp.trans hF.three_le) (hp'.trans hF.three_le) h h'⟩

def newSpace : Machine := (vmmCreateAddressSpace emptyRoot).2

theorem newSpace_family : ∃ R ext lent, Family newSpace (insert userMap.pml4Phys R) ext lent ∧
    ∀ q j, slot newSpace.mem 256 userMap.pml4Phys q j = 0 := by
  have hfam0 : Family emptyRoot _ _ _ := (Accounted.start emptyRoot_ok).family
  obtain ⟨hs, _, _, _, hmade⟩ := hfam0.create
  obtain ⟨_, _, hfam, hemp, _⟩ := hmade
  exact ⟨_, _, _, hfam, hemp⟩

/-- A new address space with one page at `0x400000`. -/
def onePageMachine : Machine := (vmmAllocUserPage newSpace userMap 0x400000 flagNoExecute).2

theorem onePageMachine_forest : Forest onePageMachine.mem 256 {userMap.pml4Phys} 3 := by
  obtain ⟨R, ext, lent, hfam, -⟩ := newSpace_family
  have hsub : ({userMap.pml4Phys} : Set Nat) ⊆ insert userMap.pml4Phys R :=
    Set.singleton_subset_iff.mpr (Set.mem_insert _ _)
  have hflag : OwnFlags flagNoExecute := ⟨by decide, by decide⟩
  have hgot := (hfam.allocUserPage (hsub rfl) rfl 0x400000 hflag).1
  have hforest := (hgot.trees.subset hsub).forest.tables
  unfold onePageMachine
  exact hforest

/-- The page is made read-only through a range of sixteen of its bytes. -/
theorem range_protection_onePage : (vmmSetRangeFlags onePageMachine userMap 0x400010 16 flagUser).1 = true ∧
    ∃ m', (vmmSetRangeFlags onePageMachine userMap 0x400010 16 flagUser).2 = { onePageMachine with mem := m' } ∧
      leafIn m' 256 userMap.pml4Phys 0x400000 =
        (leafIn onePageMachine.mem 256 userMap.pml4Phys 0x400000 &&& preserveMask) ||| flagUser ||| flagPresent := by
  have hsuccess : (vmmSetRangeFlags onePageMachine userMap 0x400010 16 flagUser).1 = true := by decide +kernel
  obtain ⟨-, -, hafter⟩ := range_protection_all_or_nothing le_rfl onePageMachine_forest 0x400010 16 flagUser
  obtain ⟨m', heq, -, -, hleaf, -⟩ := hafter hsuccess
  exact ⟨hsuccess, m', heq, hleaf 0x400000 (by decide)⟩

/-- Flags with an address bit move the page to another frame: they are added to the leaf as they are. -/
theorem range_flags_move_frame : Forest onePageMachine.mem 256 {userMap.pml4Phys} 3 ∧
    (vmmSetRangeFlags onePageMachine userMap 0x400000 4096 (flagUser ||| 0x100000#64)).1 = true ∧
    entryAddr (leafIn (vmmSetRangeFlags onePageMachine userMap 0x400000 4096 (flagUser ||| 0x100000#64)).2.mem 256
        userMap.pml4Phys 0x400000) ≠ entryAddr (leafIn onePageMachine.mem 256 userMap.pml4Phys 0x400000) := by
  refine ⟨onePageMachine_forest, ?_⟩
  decide +kernel

end SzpontOS.Mm
