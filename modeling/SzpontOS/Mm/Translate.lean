import SzpontOS.Mm.NextLevel

/-!
# Translation as a finite map

`vmm_virt_to_phys` reads at most four entries, so it is a function of four slots (`translate`). A
well-formed tree (`Tree`) shares no table, uses only allocated pages for its tables and has naturally
aligned huge pages. On such a tree each descent of `vmm_map_page` keeps the tree well-formed and every
translation as it was, whether it follows a table, links a new one or splits a huge page
(`getNextLevel_tree`); the final store then changes the translation of one page.

The tables look at bits 12 to 47 of an address, so two addresses lie in the same page when they agree on
those bits. For canonical addresses this is the usual notion.
-/

namespace SzpontOS.Mm

open Lib Lib.Radix List BitVec Nat

/-! ## Four entries decide a translation -/

/-- `vmm_virt_to_phys` on the entries that it reads. -/
def translate (e0 e1 e2 e3 : Word) (virt : Nat) : Nat :=
  if !has e0 flagPresent then 0
  else if !has e1 flagPresent then 0
  else if has e1 flagHuge then (e1 &&& hugeMask1G).toNat ||| (virt &&& 0x3FFFFFFF)
  else if !has e2 flagPresent then 0
  else if has e2 flagHuge then (e2 &&& hugeMask2M).toNat ||| (virt &&& 0x1FFFFF)
  else if !has e3 flagPresent then 0 else entryAddr e3 ||| (virt &&& 0xFFF)

variable {m m' : Mem} {top i v t a x : Nat} {p : List Nat} {map : Pagemap} {s : Machine} {flags : Word}

theorem slot_snoc {r : Nat} (hp : p.length < 3) (hpres : has (slot m top r p i) flagPresent = true)
    (hhuge : has (slot m top r p i) flagHuge = false) {j : Nat} (hj : j < 512) :
    readEntry m (entryAddr (slot m top r p i)) j = slot m top r (p ++ [i]) j := by
  have hwalk : walk (child m top) r (p ++ [i]) = some (entryAddr (slot m top r p i)) := by
    rw [walk_snoc_slot, nodeOf_eq_some hp]
    exact ⟨hpres, hhuge, rfl⟩
  rw [slot_of_walk hwalk]
  rw [bound, if_neg (by simp)]
  exact hj

theorem vmmVirtToPhys_eq (hv : pml4Index v < top)
    (hpml4 : has (slot m top map.pml4Phys [] (pml4Index v)) flagPresent = true →
      has (slot m top map.pml4Phys [] (pml4Index v)) flagHuge = false) :
    vmmVirtToPhys m map v = translate (slot m top map.pml4Phys [] (pml4Index v))
      (slot m top map.pml4Phys [pml4Index v] (pdptIndex v))
      (slot m top map.pml4Phys [pml4Index v, pdptIndex v] (pdIndex v))
      (slot m top map.pml4Phys [pml4Index v, pdptIndex v, pdIndex v] (ptIndex v)) v := by
  have h0 : readEntry m map.pml4Phys (pml4Index v) = slot m top map.pml4Phys [] (pml4Index v) :=
    (slot_of_walk (p := []) (walk_nil _) hv).symm
  rw [vmmVirtToPhys, translate, h0]
  cases hp0 : has (slot m top map.pml4Phys [] (pml4Index v)) flagPresent with
  | false => rfl
  | true =>
    simp only [slot_snoc (p := []) (by simp) hp0 (hpml4 hp0) (pdptIndex_lt v), nil_append]
    cases hp1 : has (slot m top map.pml4Phys [pml4Index v] (pdptIndex v)) flagPresent with
    | false => rfl
    | true =>
      cases hh1 : has (slot m top map.pml4Phys [pml4Index v] (pdptIndex v)) flagHuge with
      | true => rfl
      | false =>
        simp only [slot_snoc (p := [pml4Index v]) (by simp) hp1 hh1 (pdIndex_lt v), List.cons_append, List.nil_append]
        cases hp2 : has (slot m top map.pml4Phys [pml4Index v, pdptIndex v] (pdIndex v)) flagPresent with
        | false => rfl
        | true =>
          cases hh2 : has (slot m top map.pml4Phys [pml4Index v, pdptIndex v] (pdIndex v)) flagHuge with
          | true => rfl
          | false =>
            simp only [slot_snoc (p := [pml4Index v, pdptIndex v]) (by simp) hp2 hh2 (ptIndex_lt v),
              List.cons_append, List.nil_append]

theorem vmmVirtToPhys_plain (hv : pml4Index v < top)
    (hplain : ∀ (q : List Nat) (j : Nat), q ++ [j] <+: route v → has (slot m top map.pml4Phys q j) flagPresent = true →
      has (slot m top map.pml4Phys q j) flagHuge = false) :
    vmmVirtToPhys m map v = if has (slot m top map.pml4Phys (route v) (ptIndex v)) flagPresent then
      entryAddr (slot m top map.pml4Phys (route v) (ptIndex v)) ||| (v &&& 0xFFF) else 0 := by
  have h0 : [] ++ [pml4Index v] <+: route v := ⟨[pdptIndex v, pdIndex v], rfl⟩
  have h1 : [pml4Index v] ++ [pdptIndex v] <+: route v := ⟨[pdIndex v], rfl⟩
  have h2 : [pml4Index v, pdptIndex v] ++ [pdIndex v] <+: route v := ⟨[], rfl⟩
  rw [vmmVirtToPhys_eq hv (hplain _ _ h0), ← route, translate]
  cases hleaf : has (slot m top map.pml4Phys (route v) (ptIndex v)) flagPresent with
  | true =>
    have hne : slot m top map.pml4Phys (route v) (ptIndex v) ≠ 0 := fun hzero => by simp [hzero] at hleaf
    obtain ⟨pt, hpt, -⟩ := walk_of_slot hne
    have hp1 := slot_on_route (by simp) h1 hpt
    have hp2 := slot_on_route (by simp) h2 hpt
    simp [(slot_on_route (by simp) h0 hpt).1, hp1.1, hp1.2, hp2.1, hp2.2]
  | false =>
    cases hp1 : has (slot m top map.pml4Phys [pml4Index v] (pdptIndex v)) flagPresent with
    | false => simp
    | true =>
      cases hp2 : has (slot m top map.pml4Phys [pml4Index v, pdptIndex v] (pdIndex v)) flagPresent with
      | false => simp [hplain _ _ h1 hp1]
      | true => simp [hplain _ _ h1 hp1, hplain _ _ h2 hp2]

/-! ## Splitting a huge page -/

section Split

variable {e : Word} {k : Nat}

theorem hugeMask1G_eq (e : Word) : (e &&& hugeMask1G).toNat = e.toNat / 2 ^ 26 % 2 ^ 26 * 2 ^ 26 :=
  Bits.toNat_and_field e hugeMask1G 26 26 (by decide)

theorem hugeMask2M_eq (e : Word) : (e &&& hugeMask2M).toNat = e.toNat / 2 ^ 20 % 2 ^ 32 * 2 ^ 20 :=
  Bits.toNat_and_field e hugeMask2M 20 32 (by decide)

/-- The page that entry `k` gets when a 1 GiB page is split. -/
def part1G (e : Word) (k : Nat) : Nat := (e &&& hugeMask1G).toNat + k * 0x200000

/-- The page that entry `k` gets when a 2 MiB page is split. -/
def part2M (e : Word) (k : Nat) : Nat := (e &&& hugeMask2M).toNat + k * 4096

theorem splitEntry_1G (e : Word) (k : Nat) : splitEntry e 2 k = BitVec.ofNat 64 (part1G e k) ||| (e &&& 0xFFF#64) := by
  rw [splitEntry, if_pos rfl, part1G, BitVec.ofNat_add, BitVec.ofNat_toNat, BitVec.setWidth_eq]

theorem splitEntry_2M (e : Word) (k : Nat) :
    splitEntry e 1 k = BitVec.ofNat 64 (part2M e k) ||| (e &&& (0xFFF#64 &&& ~~~flagHuge)) := by
  rw [splitEntry, if_neg (by norm_num), part2M, BitVec.ofNat_add, BitVec.ofNat_toNat, BitVec.setWidth_eq,
    BitVec.and_assoc]

theorem part1G_pageAddr (halign : (e &&& hugeMask1G).toNat % 2 ^ 30 = 0) (hk : k < 512) : PageAddr (part1G e k) := by
  have := hugeMask1G_eq e
  rw [part1G]
  exact ⟨by omega, by omega⟩

theorem part2M_pageAddr (halign : (e &&& hugeMask2M).toNat % 2 ^ 21 = 0) (hk : k < 512) : PageAddr (part2M e k) := by
  have := hugeMask2M_eq e
  rw [part2M]
  exact ⟨by omega, by omega⟩

section OneGiB

variable (halign : (e &&& hugeMask1G).toNat % 2 ^ 30 = 0) (hk : k < 512)
include halign hk

theorem split1G_present : has (splitEntry e 2 k) flagPresent = has e flagPresent := by
  rw [has_present, has_present, splitEntry_1G, BitVec.getLsbD_or, (part1G_pageAddr halign hk).getLsbD (by omega),
    BitVec.getLsbD_and, show (0xFFF#64).getLsbD 0 = true by decide, Bool.false_or, Bool.and_true]

theorem split1G_huge : has (splitEntry e 2 k) flagHuge = has e flagHuge := by
  rw [has_huge, has_huge, splitEntry_1G, BitVec.getLsbD_or, (part1G_pageAddr halign hk).getLsbD (by omega),
    BitVec.getLsbD_and, show (0xFFF#64).getLsbD 7 = true by decide, Bool.false_or, Bool.and_true]

theorem split1G_addr : (splitEntry e 2 k &&& hugeMask2M).toNat = part1G e k := by
  have hbase := hugeMask1G_eq e
  rw [splitEntry_1G, BitVec.and_or_distrib_right, BitVec.and_assoc,
    show 0xFFF#64 &&& hugeMask2M = 0#64 by decide, BitVec.and_zero, BitVec.or_zero,
    Bits.ofNat_and_field hugeMask2M 20 32 (by decide) (by rw [part1G]; omega) (by rw [part1G]; omega) (by norm_num),
    toNat_ofNat]
  exact mod_eq_of_lt (by rw [part1G]; omega)

end OneGiB

section TwoMiB

variable (halign : (e &&& hugeMask2M).toNat % 2 ^ 21 = 0) (hk : k < 512)
include halign hk

theorem split2M_present : has (splitEntry e 1 k) flagPresent = has e flagPresent := by
  rw [has_present, has_present, splitEntry_2M, BitVec.getLsbD_or, (part2M_pageAddr halign hk).getLsbD (by omega),
    BitVec.getLsbD_and, show (0xFFF#64 &&& ~~~flagHuge).getLsbD 0 = true by decide, Bool.false_or, Bool.and_true]

theorem split2M_addr : entryAddr (splitEntry e 1 k) = part2M e k := by
  rw [splitEntry_2M]
  refine entryAddr_or (part2M_pageAddr halign hk) ?_
  rw [BitVec.and_assoc, show 0xFFF#64 &&& ~~~flagHuge &&& physAddrMask = 0#64 by decide, BitVec.and_zero]

end TwoMiB

theorem part1G_or (halign : (e &&& hugeMask1G).toNat % 2 ^ 30 = 0) (v : Nat) :
    part1G e (pdIndex v) ||| (v &&& 0x1FFFFF) = (e &&& hugeMask1G).toNat ||| (v &&& 0x3FFFFFFF) := by
  have hlow : v &&& 0x1FFFFF = v % 2 ^ 21 := and_two_pow_sub_one_eq_mod v 21
  have hlow' : v &&& 0x3FFFFFFF = v % 2 ^ 30 := and_two_pow_sub_one_eq_mod v 30
  rw [hlow, hlow', Bits.or_eq_add 21 (by rw [part1G]; omega) (mod_lt _ (by norm_num)),
    Bits.or_eq_add 30 halign (mod_lt _ (by norm_num)), part1G, pdIndex_eq]
  omega

theorem part2M_or (halign : (e &&& hugeMask2M).toNat % 2 ^ 21 = 0) (v : Nat) :
    part2M e (ptIndex v) ||| (v &&& 0xFFF) = (e &&& hugeMask2M).toNat ||| (v &&& 0x1FFFFF) := by
  have hlow : v &&& 0xFFF = v % 2 ^ 12 := and_two_pow_sub_one_eq_mod v 12
  have hlow' : v &&& 0x1FFFFF = v % 2 ^ 21 := and_two_pow_sub_one_eq_mod v 21
  rw [hlow, hlow', Bits.or_eq_add 12 (by rw [part2M]; omega) (mod_lt _ (by norm_num)),
    Bits.or_eq_add 21 halign (mod_lt _ (by norm_num)), part2M, ptIndex_eq]
  omega

/-- The memory after the huge page in entry `i` of `t` has been split into the new table `a`. -/
def splitMem (m : Mem) (t i a level : Nat) : Mem :=
  writeEntry (fillTable m a (splitEntry (readEntry m t i) level)) t i (linkEntry a (readEntry m t i))

theorem getNextLevel_split {level : Nat} {p' : Pmm} (hpres : has (readEntry s.mem t i) flagPresent = true)
    (hhuge : has (readEntry s.mem t i) flagHuge = true) (ha : a ≠ 0)
    (hgot : s.allocPage = (a, { s with pmm := p', faults := s.faults.tail })) :
    getNextLevel s t i level true (flags &&& flagUser) =
      (some a, { s with pmm := p', faults := s.faults.tail, mem := splitMem s.mem t i a level }) := by
  have huser : flagUser ||| flags &&& flagUser = flagUser := by
    apply eq_of_getLsbD_eq
    intro k _
    rw [getLsbD_or, getLsbD_and]
    cases flagUser.getLsbD k <;> simp
  have hlink : linkEntry a (readEntry s.mem t i) = BitVec.ofNat 64 a ||| flagPresent ||| flagWritable |||
      readEntry s.mem t i &&& (flagUser ||| flags &&& flagUser) := by
    rw [huser, linkEntry]
    ac_rfl
  rw [getNextLevel]
  simp [hpres, hhuge, hgot, ha, Machine.write, splitMem, hlink]

end Split

/-! ## Well-formed trees -/

/-- A huge page can stand in a page-directory-pointer table (1 GiB) or in a page directory (2 MiB), and
is naturally aligned. -/
def HugeOk (d : Nat) (e : Word) : Prop :=
  has e flagPresent = true → has e flagHuge = true →
    (d = 1 ∧ (e &&& hugeMask1G).toNat % 2 ^ 30 = 0) ∨ (d = 2 ∧ (e &&& hugeMask2M).toNat % 2 ^ 21 = 0)

theorem HugeOk.of_not_huge {d : Nat} {e : Word} (h : has e flagHuge = false) : HugeOk d e := by
  intro _ hhuge
  rw [h] at hhuge
  simp at hhuge

/-- A well-formed page-table tree: no table is shared or reaches itself, its tables are allocated
pages, and huge pages are naturally aligned. -/
structure Tree (s : Machine) (map : Pagemap) : Prop where
  ok : s.Ok
  forest : Forest s.mem 512 {map.pml4Phys} 3
  used : ∀ t, Reached s.mem 512 {map.pml4Phys} 3 t → ¬ s.pmm.Free (t / 4096)
  huge : ∀ (p : List Nat) (i : Nat), p.length ≤ 2 → HugeOk p.length (slot s.mem 512 map.pml4Phys p i)

/-- The same page, as far as the tables can tell. -/
def SameVirtPage (v a : Nat) : Prop := v / 4096 % 2 ^ 36 = a / 4096 % 2 ^ 36

instance (v a : Nat) : Decidable (SameVirtPage v a) := inferInstanceAs (Decidable (_ = _))

theorem sameVirtPage_iff (v a : Nat) : SameVirtPage v a ↔
    pml4Index v = pml4Index a ∧ pdptIndex v = pdptIndex a ∧ pdIndex v = pdIndex a ∧ ptIndex v = ptIndex a := by
  simp only [SameVirtPage, pml4Index_eq, pdptIndex_eq, pdIndex_eq, ptIndex_eq]
  omega

/-! ## One descent keeps every translation -/

namespace Tree

variable {p' : Pmm}

theorem mem_root (map : Pagemap) : map.pml4Phys ∈ ({map.pml4Phys} : Set Nat) := rfl

theorem plain (hT : Tree s map) (i : Nat) (h : has (slot s.mem 512 map.pml4Phys [] i) flagPresent = true) :
    has (slot s.mem 512 map.pml4Phys [] i) flagHuge = false := by
  rw [Bool.eq_false_iff]
  intro hhuge
  rcases hT.huge [] i (by simp) h hhuge with ⟨h, _⟩ | ⟨h, _⟩ <;> simp at h

theorem aligned1G (hT : Tree s map) (hpres : has (slot s.mem 512 map.pml4Phys [x] i) flagPresent = true)
    (hhuge : has (slot s.mem 512 map.pml4Phys [x] i) flagHuge = true) :
    (slot s.mem 512 map.pml4Phys [x] i &&& hugeMask1G).toNat % 2 ^ 30 = 0 := by
  rcases hT.huge [x] i (by simp) hpres hhuge with ⟨_, h⟩ | ⟨h, _⟩
  · exact h
  · simp at h

theorem aligned2M (hT : Tree s map) {y : Nat} (hpres : has (slot s.mem 512 map.pml4Phys [x, y] i) flagPresent = true)
    (hhuge : has (slot s.mem 512 map.pml4Phys [x, y] i) flagHuge = true) :
    (slot s.mem 512 map.pml4Phys [x, y] i &&& hugeMask2M).toNat % 2 ^ 21 = 0 := by
  rcases hT.huge [x, y] i (by simp) hpres hhuge with ⟨h, _⟩ | ⟨_, h⟩
  · simp at h
  · exact h

theorem virtToPhys_eq (hT : Tree s map) (v : Nat) :
    vmmVirtToPhys s.mem map v = translate (slot s.mem 512 map.pml4Phys [] (pml4Index v))
      (slot s.mem 512 map.pml4Phys [pml4Index v] (pdptIndex v))
      (slot s.mem 512 map.pml4Phys [pml4Index v, pdptIndex v] (pdIndex v))
      (slot s.mem 512 map.pml4Phys [pml4Index v, pdptIndex v, pdIndex v] (ptIndex v)) v :=
  vmmVirtToPhys_eq (pml4Index_lt v) (hT.plain _)

section

variable (hT : Tree s map) (htakes : Takes s.pmm p' a 1)

include hT htakes

/-- The slots after a split: the new table holds the parts of the huge page. -/
theorem slot_splitMem (hp : p.length = 1 ∨ p.length = 2) (ht : walk (child s.mem 512) map.pml4Phys p = some t)
    (hi : i < 512) (hpres : has (slot s.mem 512 map.pml4Phys p i) flagPresent = true)
    (hhuge : has (slot s.mem 512 map.pml4Phys p i) flagHuge = true) (q : List Nat) (j : Nat) (hq : q.length ≤ 3) :
    slot (splitMem s.mem t i (a * 4096) (3 - p.length)) 512 map.pml4Phys q j =
      if q = p ∧ j = i then linkEntry (a * 4096) (slot s.mem 512 map.pml4Phys p i)
      else if q = p ++ [i] ∧ j < 512 then splitEntry (slot s.mem 512 map.pml4Phys p i) (3 - p.length) j
      else slot s.mem 512 map.pml4Phys q j := by
  have hroot := mem_root map
  have haddr := htakes.pageAddr hT.ok.phys
  have hb : i < bound 512 p.length := by
    rw [bound]
    split_ifs <;> exact hi
  have hslot := slot_of_walk ht hb
  have hne : t ≠ a * 4096 := ne_of_fresh hT.used htakes ⟨_, hroot, p, by omega, ht⟩
  -- filling the new table changes no slot
  set m1 := fillTable s.mem (a * 4096) (splitEntry (readEntry s.mem t i) (3 - p.length)) with hm1
  have hsame : SlotsSame s.mem m1 512 {map.pml4Phys} := slotsSame_of_fresh _ hT.forest hT.used htakes
    fun x hx hxne => SamePage.fillTable _ haddr.aligned hx hxne
  have hF := hT.forest.same hsame
  have ht1 := (Forest.walk_same hsame hroot (by omega)).trans ht
  have hwrote : walk (child (splitMem s.mem t i (a * 4096) (3 - p.length)) 512) map.pml4Phys (p ++ [i]) =
      some (a * 4096) := by
    rw [splitMem, ← hm1, hF.walk_written hroot (by omega) ht1 hb]
    exact nodeOf_linkEntry haddr (by omega)
  have hpart : ∀ k, k < 512 → slot (splitMem s.mem t i (a * 4096) (3 - p.length)) 512 map.pml4Phys (p ++ [i]) k =
      splitEntry (slot s.mem 512 map.pml4Phys p i) (3 - p.length) k := by
    intro k hk
    rw [slot_of_walk hwrote (by simp [bound, hk]), splitMem, ← hm1,
      readEntry_writeEntry _ (hT.forest.table_pageAddr ⟨_, hroot, p, by omega, ht⟩).aligned haddr.aligned hi hk,
      if_neg (fun h => hne h.1.symm), hm1, readEntry_fillTable _ _ haddr.aligned hk, hslot]
  have hold : walk (child s.mem 512) map.pml4Phys (p ++ [i]) = none := by
    rw [walk_snoc_slot, nodeOf_eq_none (by omega)]
    exact fun _ => hhuge
  by_cases hunder : p ++ [i] <+: q
  · rw [if_neg]
    swap
    · rintro ⟨rfl, _⟩
      simpa using hunder.length_le
    obtain ⟨rest, rfl⟩ := hunder
    cases rest with
    | nil =>
      rw [append_nil]
      by_cases hj : j < 512
      · rw [if_pos ⟨rfl, hj⟩, hpart j hj]
      · rw [if_neg (fun h => hj h.2), slot_of_bound (by simp [bound, hj]), slot_of_bound (by simp [bound, hj])]
    | cons k rest =>
      -- below a part of a 1 GiB page there is nothing, since the parts are huge pages
      have hp1 : p.length = 1 := by
        simp only [length_append, length_cons, length_nil] at hq
        omega
      rw [if_neg (by simp), slot_below_none (m := s.mem) (prefix_append _ _) hold]
      refine slot_below_none (p := p ++ [i] ++ [k]) ⟨rest, by simp⟩ ?_ j
      rw [walk_snoc_slot]
      by_cases hk : k < 512
      · rw [hpart k hk, nodeOf_eq_none (by simp [hp1]), hp1]
        intro _
        obtain ⟨x, rfl⟩ := length_eq_one_iff.mp hp1
        rw [split1G_huge (hT.aligned1G hpres hhuge) hk]
        exact hhuge
      · rw [slot_of_bound (by simp [bound, hk]), nodeOf_zero]
  · have hout : ¬ (map.pml4Phys = map.pml4Phys ∧ p ++ [i] <+: q) := fun h => hunder h.2
    rw [splitMem, ← hm1, hF.slot_write_of_walk hroot hroot (by omega) hq ht1 hb
      (hF.walk_write_outside hroot hroot (by omega) hq ht1 hb hout), hslot]
    simp only [true_and, hsame _ hroot q j hq]
    by_cases hqp : q = p ∧ j = i
    · rw [if_pos hqp, if_pos hqp]
    · rw [if_neg hqp, if_neg hqp, if_neg]
      rintro ⟨rfl, _⟩
      exact hunder (prefix_refl _)

theorem grow {p0 : List Nat} (hwalk : ∀ q : List Nat, q.length ≤ 3 → walk (child m' 512) map.pml4Phys q =
      if q = p0 then some (a * 4096) else walk (child s.mem 512) map.pml4Phys q) :
    Forest m' 512 {map.pml4Phys} 3 ∧ ∀ f, Reached m' 512 {map.pml4Phys} 3 f → ¬ p'.Free (f / 4096) := by
  constructor
  · refine hT.forest.of_walk (r := map.pml4Phys) (p := p0) (x := some (a * 4096)) ?_ ?_
    · rintro _ rfl q hq
      rw [hwalk q hq]
      exact if_congr (by simp) rfl rfl
    · rintro f _ hf r' hr' q hq hw
      exact absurd (Option.some.inj hf).symm (ne_of_fresh hT.used htakes ⟨r', hr', q, hq, hw⟩)
  · rintro f ⟨_, rfl, q, hq, hw⟩ hfree
    obtain ⟨hfree, hne⟩ := htakes.free_of_free hfree
    rw [hwalk q hq] at hw
    split_ifs at hw
    · rw [Option.some.injEq] at hw
      omega
    · exact hT.used f ⟨_, rfl, q, hq, hw⟩ hfree

theorem link (hp : p.length < 3) (habs : has (slot s.mem 512 map.pml4Phys p i) flagPresent = false)
    (hupd : SlotsUpdate s.mem m' 512 {map.pml4Phys} map.pml4Phys p i (linkEntry (a * 4096) flags)) (fs : List Bool) :
    Tree { s with pmm := p', faults := fs, mem := m' } map ∧
      ∀ v, vmmVirtToPhys m' map v = vmmVirtToPhys s.mem map v := by
  have haddr := htakes.pageAddr hT.ok.phys
  have hslot : ∀ (q : List Nat) (j : Nat), q.length ≤ 3 → slot m' 512 map.pml4Phys q j =
      if q = p ∧ j = i then linkEntry (a * 4096) flags else slot s.mem 512 map.pml4Phys q j := by
    intro q j hq
    rw [hupd _ (mem_root map) q j hq]
    exact if_congr (by simp) rfl rfl
  have hold : walk (child s.mem 512) map.pml4Phys (p ++ [i]) = none := by
    rw [walk_snoc_slot, nodeOf_eq_none hp]
    intro h
    rw [habs] at h
    simp at h
  have hwalk : ∀ q : List Nat, q.length ≤ 3 → walk (child m' 512) map.pml4Phys q =
      if q = p ++ [i] then some (a * 4096) else walk (child s.mem 512) map.pml4Phys q := by
    intro q hq
    rw [Forest.walk_update hupd (mem_root map) (by omega), nodeOf_linkEntry haddr hp]
    exact if_congr (by simp) rfl rfl
  obtain ⟨hforest, hused⟩ := hT.grow htakes hwalk
  have hT' : Tree { s with pmm := p', faults := fs, mem := m' } map := by
    refine ⟨⟨htakes.wf, htakes.total ▸ hT.ok.phys⟩, hforest, hused, fun q j hq => ?_⟩
    rw [hslot q j (by omega)]
    split_ifs
    · exact .of_not_huge (linkEntry_huge haddr _)
    · exact hT.huge q j hq
  refine ⟨hT', fun v => ?_⟩
  -- an address below the new table had no translation, and still has none
  have hbelow : ∀ (q : List Nat) (j : Nat), p ++ [i] <+: q → slot s.mem 512 map.pml4Phys q j = 0 :=
    fun q j hq => slot_below_none hq hold j
  have hpres := linkEntry_present haddr flags
  have hhuge := linkEntry_huge haddr flags
  rw [hT'.virtToPhys_eq v, hT.virtToPhys_eq v]
  match p, hp with
  | [], _ =>
    by_cases h : pml4Index v = i
    · subst h
      simp [hslot, translate, hpres, habs, hbelow]
    · simp [hslot, h]
  | [x], _ =>
    by_cases h : pml4Index v = x ∧ pdptIndex v = i
    · obtain ⟨rfl, rfl⟩ := h
      simp [hslot, translate, hpres, hhuge, habs, hbelow]
    · simp [hslot, h]
  | [x, y], _ =>
    by_cases h : (pml4Index v = x ∧ pdptIndex v = y) ∧ pdIndex v = i
    · obtain ⟨⟨rfl, rfl⟩, rfl⟩ := h
      simp [hslot, translate, hpres, hhuge, habs, hbelow]
    · simp [hslot, h]

theorem walk_splitMem (hp : p.length = 1 ∨ p.length = 2) (ht : walk (child s.mem 512) map.pml4Phys p = some t)
    (hi : i < 512) (hpres : has (slot s.mem 512 map.pml4Phys p i) flagPresent = true)
    (hhuge : has (slot s.mem 512 map.pml4Phys p i) flagHuge = true) (q : List Nat) (hq : q.length ≤ 3) :
    walk (child (splitMem s.mem t i (a * 4096) (3 - p.length)) 512) map.pml4Phys q =
      if q = p ++ [i] then some (a * 4096) else walk (child s.mem 512) map.pml4Phys q := by
  rcases eq_nil_or_concat' q with rfl | ⟨q, j, rfl⟩
  · rw [if_neg (by simp), walk_nil, walk_nil]
  rw [length_append, length_singleton] at hq
  rw [walk_snoc_slot, hT.slot_splitMem htakes hp ht hi hpres hhuge q j (by omega)]
  simp only [append_singleton_inj]
  by_cases h : q = p ∧ j = i
  · rw [if_pos h, if_pos h, h.1, nodeOf_linkEntry (htakes.pageAddr hT.ok.phys) (by omega)]
  · rw [if_neg h, if_neg h]
    by_cases h' : q = p ++ [i] ∧ j < 512
    · -- a part of a 1 GiB page is itself huge
      obtain ⟨rfl, hj⟩ := h'
      have hp1 : p.length = 1 := by
        rw [length_append, length_singleton] at hq
        omega
      obtain ⟨x, rfl⟩ := length_eq_one_iff.mp hp1
      rw [if_pos ⟨rfl, hj⟩, walk_none_below (prefix_append ([x] ++ [i]) [j]), nodeOf_eq_none (by simp)]
      · intro _
        rw [length_singleton, split1G_huge (hT.aligned1G hpres hhuge) hj, hhuge]
      · rw [walk_snoc_slot, nodeOf_eq_none (by simp)]
        exact fun _ => hhuge
    · rw [if_neg h', walk_snoc_slot]

theorem split (hp : p.length < 3) (ht : walk (child s.mem 512) map.pml4Phys p = some t) (hi : i < 512)
    (hpres : has (slot s.mem 512 map.pml4Phys p i) flagPresent = true)
    (hhuge : has (slot s.mem 512 map.pml4Phys p i) flagHuge = true) (fs : List Bool) :
    Tree { s with pmm := p', faults := fs, mem := splitMem s.mem t i (a * 4096) (3 - p.length) } map ∧
      ∀ v, vmmVirtToPhys (splitMem s.mem t i (a * 4096) (3 - p.length)) map v = vmmVirtToPhys s.mem map v := by
  have haddr := htakes.pageAddr hT.ok.phys
  have hlen : p.length = 1 ∨ p.length = 2 := by
    rcases hT.huge p i (by omega) hpres hhuge with ⟨h, _⟩ | ⟨h, _⟩ <;> omega
  have hslot := hT.slot_splitMem htakes hlen ht hi hpres hhuge
  have hwalk := hT.walk_splitMem htakes hlen ht hi hpres hhuge
  generalize splitMem s.mem t i (a * 4096) (3 - p.length) = m' at hslot hwalk ⊢
  obtain ⟨hforest, hused⟩ := hT.grow htakes hwalk
  have hT' : Tree { s with pmm := p', faults := fs, mem := m' } map := by
    refine ⟨⟨htakes.wf, htakes.total ▸ hT.ok.phys⟩, hforest, hused, fun q j hq => ?_⟩
    rw [hslot q j (by omega)]
    split_ifs with h h'
    · exact .of_not_huge (linkEntry_huge haddr _)
    · have hp1 : p.length = 1 := by
        rw [h'.1, length_append, length_singleton] at hq
        omega
      obtain ⟨x, rfl⟩ := length_eq_one_iff.mp hp1
      have halign := hT.aligned1G hpres hhuge
      refine fun _ _ => .inr ⟨by rw [h'.1]; rfl, ?_⟩
      rw [length_singleton, split1G_addr halign h'.2, part1G]
      omega
    · exact hT.huge q j hq
  refine ⟨hT', fun v => ?_⟩
  have hlink_present := linkEntry_present haddr (slot s.mem 512 map.pml4Phys p i)
  have hlink_huge := linkEntry_huge haddr (slot s.mem 512 map.pml4Phys p i)
  rw [hT'.virtToPhys_eq v, hT.virtToPhys_eq v]
  match p, hp with
  | [], _ => simp at hlen
  | [x], _ =>
    have halign := hT.aligned1G hpres hhuge
    by_cases h : pml4Index v = x ∧ pdptIndex v = i
    · obtain ⟨rfl, rfl⟩ := h
      simp [hslot, translate, hlink_present, hlink_huge, hpres, hhuge, pdIndex_lt,
        split1G_present halign, split1G_huge halign, split1G_addr halign, part1G_or halign]
    · simp [hslot, h]
  | [x, y], _ =>
    have halign := hT.aligned2M hpres hhuge
    by_cases h : (pml4Index v = x ∧ pdptIndex v = y) ∧ pdIndex v = i
    · obtain ⟨⟨rfl, rfl⟩, rfl⟩ := h
      simp [hslot, translate, hlink_present, hlink_huge, hpres, hhuge, ptIndex_lt,
        split2M_present halign, split2M_addr halign, part2M_or halign]
    · have h' : ¬ (pml4Index v = x ∧ pdptIndex v = y ∧ pdIndex v = i) := fun h' => h ⟨⟨h'.1, h'.2.1⟩, h'.2.2⟩
      simp [hslot, h, h']

end

/-- **One descent.** `get_next_level` keeps the tree well-formed and every translation, and the table it
returns is the one below the entry. -/
theorem getNextLevel_tree (hT : Tree s map) (hp : p.length < 3) (ht : walk (child s.mem 512) map.pml4Phys p = some t)
    (hi : i < 512) (flags : Word) :
    Tree (getNextLevel s t i (3 - p.length) true (flags &&& flagUser)).2 map ∧
    (∀ v, vmmVirtToPhys (getNextLevel s t i (3 - p.length) true (flags &&& flagUser)).2.mem map v =
      vmmVirtToPhys s.mem map v) ∧
    ∀ u, (getNextLevel s t i (3 - p.length) true (flags &&& flagUser)).1 = some u →
      walk (child (getNextLevel s t i (3 - p.length) true (flags &&& flagUser)).2.mem 512) map.pml4Phys (p ++ [i]) =
        some u := by
  have hb : i < bound 512 p.length := by
    rw [bound]
    split_ifs <;> exact hi
  have hslot := slot_of_walk ht hb
  have hfault : Tree { s with faults := s.faults.tail } map := ⟨⟨hT.ok.pmm, hT.ok.phys⟩, hT.forest, hT.used, hT.huge⟩
  by_cases hcut : has (slot s.mem 512 map.pml4Phys p i) flagPresent = true ∧
      has (slot s.mem 512 map.pml4Phys p i) flagHuge = true
  · obtain ⟨hpres, hhuge⟩ := hcut
    rcases s.allocPage_spec hT.ok with ⟨a, p', htakes, hgot⟩ | hfail
    · rw [getNextLevel_split (hslot ▸ hpres) (hslot ▸ hhuge) (by have := htakes.pos; omega) hgot]
      obtain ⟨hT', hsame⟩ := hT.split htakes hp ht hi hpres hhuge s.faults.tail
      refine ⟨hT', hsame, fun u hu => ?_⟩
      have hlen : p.length = 1 ∨ p.length = 2 := by
        rcases hT.huge p i (by omega) hpres hhuge with ⟨h, _⟩ | ⟨h, _⟩ <;> omega
      rw [hT.walk_splitMem htakes hlen ht hi hpres hhuge _ (by simp; omega), if_pos rfl]
      exact hu
    · rw [getNextLevel_fault hp (by rw [← hslot, nodeOf_eq_none hp]; exact fun _ => hhuge) hfail]
      exact ⟨hfault, fun _ => rfl, fun u hu => absurd hu (by simp)⟩
  · have hplain : has (slot s.mem 512 map.pml4Phys p i) flagPresent = true →
        has (slot s.mem 512 map.pml4Phys p i) flagHuge = false := by
      intro hpres
      rw [Bool.eq_false_iff]
      exact fun hhuge => hcut ⟨hpres, hhuge⟩
    rcases getNextLevel_spec (3 - p.length) flags hT.ok hT.forest hT.used (mem_root map) hp ht hb
        hplain with ⟨u, hu, heq⟩ | ⟨hnone, heq⟩ | ⟨hnone, a, p', htakes, heq, hupd⟩
    · rw [heq]
      refine ⟨hT, fun _ => rfl, fun u' hu' => ?_⟩
      rw [walk_snoc_slot, hu]
      exact hu'
    · rw [heq]
      exact ⟨hfault, fun _ => rfl, fun u hu => absurd hu (by simp)⟩
    · rw [heq]
      have habs : has (slot s.mem 512 map.pml4Phys p i) flagPresent = false := by
        rw [Bool.eq_false_iff]
        intro hpres
        have := (nodeOf_eq_none hp).mp hnone hpres
        rw [hplain hpres] at this
        simp at this
      obtain ⟨hT', hsame⟩ := hT.link htakes hp habs hupd s.faults.tail
      refine ⟨hT', hsame, fun u hu => ?_⟩
      rw [Forest.walk_update hupd (mem_root map) (by simp; omega), if_pos ⟨rfl, rfl⟩,
        nodeOf_linkEntry (htakes.pageAddr hT.ok.phys) hp]
      exact hu

theorem write_leaf (hT : Tree s map)
    (ht : walk (child s.mem 512) map.pml4Phys [pml4Index v, pdptIndex v, pdIndex v] = some t) (w : Word) (x : Nat) :
    vmmVirtToPhys (writeEntry s.mem t (ptIndex v) w) map x =
      if SameVirtPage v x then if has w flagPresent then entryAddr w ||| (x &&& 0xFFF) else 0
      else vmmVirtToPhys s.mem map x := by
  have hroot := mem_root map
  have hupd := hT.forest.slot_leaf (w := w) (i := ptIndex v) hroot rfl ht (by simp [bound, ptIndex_lt])
  have hslot : ∀ (q : List Nat) (j : Nat), q.length ≤ 3 → slot (writeEntry s.mem t (ptIndex v) w) 512 map.pml4Phys q j =
        if q = [pml4Index v, pdptIndex v, pdIndex v] ∧ j = ptIndex v then w else slot s.mem 512 map.pml4Phys q j := by
    intro q j hq
    rw [hupd _ hroot q j hq]
    exact if_congr (by simp) rfl rfl
  rw [vmmVirtToPhys_eq (pml4Index_lt x) (by rw [hslot _ _ (by simp), if_neg (by simp)]; exact hT.plain _),
    hT.virtToPhys_eq x]
  by_cases hpage : SameVirtPage v x
  · rw [if_pos hpage]
    obtain ⟨h0, h1, h2, h3⟩ := (sameVirtPage_iff v x).mp hpage
    obtain ⟨hp0, _⟩ := slot_on_route (p := []) (by simp) ⟨[pdptIndex v, pdIndex v], rfl⟩ ht
    obtain ⟨hp1, hh1⟩ := slot_on_route (p := [pml4Index v]) (by simp) ⟨[pdIndex v], rfl⟩ ht
    obtain ⟨hp2, hh2⟩ := slot_on_route (p := [pml4Index v, pdptIndex v]) (by simp) ⟨[], rfl⟩ ht
    rw [← h0, ← h1, ← h2, ← h3]
    cases hw : has w flagPresent <;> simp [hslot, translate, hp0, hp1, hh1, hp2, hh2, hw]
  · rw [if_neg hpage]
    have hne : ¬ ((pml4Index x = pml4Index v ∧ pdptIndex x = pdptIndex v ∧ pdIndex x = pdIndex v) ∧
        ptIndex x = ptIndex v) :=
      fun h => hpage ((sameVirtPage_iff v x).mpr ⟨h.1.1.symm, h.1.2.1.symm, h.1.2.2.symm, h.2.symm⟩)
    simp [hslot, hne]

end Tree

/-! ## Mapping and unmapping -/

theorem pageDown_pageAddr (h : a < 2 ^ 52) : PageAddr (pageDown a) := by
  rw [pageDown]
  exact ⟨by omega, by omega⟩

section MapUnmap

theorem Tree.descend (hT : Tree s map) (v : Nat) (flags : Word) : (Tree (descend s map.pml4Phys v flags).2 map ∧
      ∀ x, vmmVirtToPhys (Mm.descend s map.pml4Phys v flags).2.mem map x = vmmVirtToPhys s.mem map x) ∧
    ∀ pt, (Mm.descend s map.pml4Phys v flags).1 = some pt →
      walk (child (Mm.descend s map.pml4Phys v flags).2.mem 512) map.pml4Phys (route v) = some pt := by
  refine descend_rule (fun s' => Tree s' map ∧ ∀ x, vmmVirtToPhys s'.mem map x = vmmVirtToPhys s.mem map x)
    (pml4Index_lt v) ?_ ⟨hT, fun _ => rfl⟩
  rintro s' p t i hp hi ⟨hT', hsame⟩ ht
  obtain ⟨hT'', hsame', hwalk⟩ := hT'.getNextLevel_tree (length_lt_of_route hp) ht (lt_of_lt_of_le hi (bound_le le_rfl _)) flags
  exact ⟨⟨hT'', fun x => (hsame' x).trans (hsame x)⟩, hwalk⟩

theorem vmmMapPage_translate (hT : Tree s map) (v : Nat) {phys : Nat} (hphys : phys < 2 ^ 52)
    (hflag : flags &&& physAddrMask = 0#64) (x : Nat) :
    vmmVirtToPhys (vmmMapPage s map v phys flags).2.mem map x =
      if (vmmMapPage s map v phys flags).1 = true ∧ SameVirtPage v x then pageDown phys + x % 4096
      else vmmVirtToPhys s.mem map x := by
  have haddr := pageDown_pageAddr hphys
  obtain ⟨⟨hT', hsame⟩, hwalk⟩ := hT.descend v flags
  rw [vmmMapPage_eq]
  by_cases huser : (!map.isKernel && !vmmUserRange v 4096) = true
  · simp [huser]
  rw [if_neg huser]
  rcases hg : Mm.descend s map.pml4Phys v flags with ⟨_ | pt, s'⟩
  · rw [hg] at hsame
    simp [hsame]
  rw [hg] at hT' hsame hwalk
  simp only [Machine.write, true_and]
  rw [hT'.write_leaf (hwalk _ rfl), leafEntry_present haddr, leafEntry_addr haddr hflag, if_pos rfl, hsame]
  split_ifs
  · rw [show x &&& 0xFFF = x % 4096 from and_two_pow_sub_one_eq_mod x 12]
    exact Bits.or_eq_add 12 haddr.aligned (mod_lt _ (by norm_num))
  · rfl

theorem vmmUnmapPage_translate (hT : Tree s map) (v x : Nat) : vmmVirtToPhys (vmmUnmapPage s map v).2.mem map x =
      if (vmmUnmapPage s map v).1 = true ∧ SameVirtPage v x then 0 else vmmVirtToPhys s.mem map x := by
  rw [vmmUnmapPage_eq s map v (pml4Index_lt v)]
  cases hwalk : walk (child s.mem 512) map.pml4Phys (route v) with
  | none => simp
  | some pt =>
    simp [Machine.write, hT.write_leaf hwalk]

/-- **Translation as a finite map.** On a well-formed tree, a successful `vmm_map_page` makes every
address of the page translate to the frame plus the page offset and keeps every other translation, a
failed one keeps all; a successful `vmm_unmap_page` removes the translation of the page and keeps every
other, a failed one keeps all. Huge pages may have to be split on the way, and any allocation may fail. -/
theorem vmm_translation_map (hT : Tree s map) (v phys : Nat) (hphys : PageAddr phys) (flags : Word)
    (hflags : flags &&& physAddrMask = 0#64) :
    ((vmmMapPage s map v phys flags).1 = true →
      (∀ a, SameVirtPage v a → vmmVirtToPhys (vmmMapPage s map v phys flags).2.mem map a = phys + a % 4096) ∧
      ∀ a, ¬ SameVirtPage v a → vmmVirtToPhys (vmmMapPage s map v phys flags).2.mem map a = vmmVirtToPhys s.mem map a) ∧
    ((vmmMapPage s map v phys flags).1 = false →
      ∀ a, vmmVirtToPhys (vmmMapPage s map v phys flags).2.mem map a = vmmVirtToPhys s.mem map a) ∧
    ((vmmUnmapPage s map v).1 = true → (∀ a, SameVirtPage v a → vmmVirtToPhys (vmmUnmapPage s map v).2.mem map a = 0) ∧
      ∀ a, ¬ SameVirtPage v a → vmmVirtToPhys (vmmUnmapPage s map v).2.mem map a = vmmVirtToPhys s.mem map a) ∧
    ((vmmUnmapPage s map v).1 = false →
      ∀ a, vmmVirtToPhys (vmmUnmapPage s map v).2.mem map a = vmmVirtToPhys s.mem map a) := by
  have hdown : pageDown phys = phys := by
    have := hphys.aligned
    rw [pageDown]
    omega
  refine ⟨fun h => ⟨fun a ha => ?_, fun a ha => ?_⟩, fun h a => ?_, fun h => ⟨fun a ha => ?_, fun a ha => ?_⟩,
    fun h a => ?_⟩
  · rw [vmmMapPage_translate hT v hphys.lt hflags, if_pos ⟨h, ha⟩, hdown]
  · rw [vmmMapPage_translate hT v hphys.lt hflags, if_neg (fun h' => ha h'.2)]
  · rw [vmmMapPage_translate hT v hphys.lt hflags, if_neg (by simp [h])]
  · rw [vmmUnmapPage_translate hT, if_pos ⟨h, ha⟩]
  · rw [vmmUnmapPage_translate hT, if_neg (fun h' => ha h'.2)]
  · rw [vmmUnmapPage_translate hT, if_neg (by simp [h])]

end MapUnmap

/-! ## A map with a 1 GiB page -/

theorem Tree.empty (hok : s.Ok) (hroot : PageAddr map.pml4Phys) (hused : ¬ s.pmm.Free (map.pml4Phys / 4096))
    (hzero : ∀ i, i < 512 → readEntry s.mem map.pml4Phys i = 0) : Tree s map := by
  have hslot : ∀ (p : List Nat) (i : Nat), slot s.mem 512 map.pml4Phys p i = 0 :=
    fun p i => slot_below_empty nil_prefix (walk_nil _) hzero i
  have hwalk : ∀ p t, walk (child s.mem 512) map.pml4Phys p = some t → p = [] ∧ t = map.pml4Phys := by
    intro p t h
    rcases eq_nil_or_concat' p with rfl | ⟨p, i, rfl⟩
    · exact ⟨rfl, (Option.some.inj h).symm⟩
    · rw [walk_snoc_slot, hslot, nodeOf_zero] at h
      simp at h
  refine ⟨hok, ⟨le_rfl, le_rfl, by norm_num, ?_, ?_⟩, ?_, fun p i _ => ?_⟩
  · rintro r rfl
    exact hroot
  · rintro r r' rfl rfl p p' _ _ t h h'
    exact ⟨rfl, (hwalk p t h).1.trans (hwalk p' t h').1.symm⟩
  · rintro t ⟨r, rfl, p, _, h⟩
    rw [(hwalk p t h).2]
    exact hused
  · rw [hslot]
    exact .of_not_huge (has_zero _)

theorem Tree.write_huge {w : Word} (hT : Tree s map) (hp : p.length < 3)
    (ht : walk (child s.mem 512) map.pml4Phys p = some t) (hi : i < 512)
    (hold : nodeOf p.length (slot s.mem 512 map.pml4Phys p i) = none) (hnew : nodeOf p.length w = none)
    (hw : HugeOk p.length w) : Tree (s.write t i w) map := by
  have hb : i < bound 512 p.length := by
    rw [bound]
    split_ifs <;> exact hi
  have hupd : SlotsUpdate s.mem (writeEntry s.mem t i w) 512 {map.pml4Phys} map.pml4Phys p i w := by
    refine hT.forest.slot_write (Tree.mem_root map) (by omega) ht hb fun q j _ hpre => ?_
    rw [slot_below_none (m := s.mem) hpre (by rw [walk_snoc_slot, hold]),
      slot_below_none hpre (by rw [hT.forest.walk_written (Tree.mem_root map) (by omega) ht hb, hnew])]
  refine ⟨⟨hT.ok.pmm, hT.ok.phys⟩, hT.forest.update hupd ?_, ?_, fun q j hq => ?_⟩
  · intro f _ hf
    rw [hnew] at hf
    simp at hf
  · rintro f ⟨r, rfl, q, hq, h⟩
    rw [Machine.write, Forest.walk_update hupd (Tree.mem_root map) (by omega), hnew] at h
    split_ifs at h
    exact hT.used f ⟨_, rfl, q, hq, h⟩
  · show HugeOk q.length (slot (writeEntry s.mem t i w) 512 map.pml4Phys q j)
    rw [hupd _ (Tree.mem_root map) q j (by omega)]
    split_ifs with h
    · rw [h.2.1]
      exact hw
    · exact hT.huge q j hq

/-- Thirty-two pages of memory, of which the first two are used and page 1 is an empty PML4. -/
def emptyRoot : Machine where
  pmm := { bitmap := fun k => if k = 0 then 0x03#8 else 0#8, totalPages := 32, usedPages := 2, lastPageIdx := 0 }
  mem := fun _ => 0#8
  kernelPml4 := 0x1000
  faults := []
  heapGrowth := []
  heapFrames := []
  freed := []

/-- The first gigabyte of addresses is one 1 GiB page, as a boot loader may leave it. -/
def bootMachine : Machine := (getNextLevel emptyRoot 0x1000 0 3 true 0).2.write 0x2000 0 0x40000083#64

def bootMap : Pagemap := ⟨0x1000, true⟩

theorem tree_boot : Tree bootMachine bootMap := by
  have hemp : Tree emptyRoot bootMap :=
    Tree.empty ⟨⟨by decide, by decide, by decide⟩, by decide⟩ ⟨rfl, by decide⟩ (fun h => absurd h.2 (by decide))
      fun i _ => by simp [readEntry, emptyRoot, Mem.load64]
  obtain ⟨hT, -, hwalk⟩ := hemp.getNextLevel_tree (p := []) (i := 0) (by simp) (walk_nil _) (by norm_num) 0
  have hlink : (getNextLevel emptyRoot 0x1000 0 3 true (0 &&& flagUser)).1 = some 0x2000 := by decide +kernel
  have hpdpt : walk (child (getNextLevel emptyRoot 0x1000 0 3 true (0 &&& flagUser)).2.mem 512) 0x1000 [0] =
      some 0x2000 := hwalk _ hlink
  refine hT.write_huge (p := [0]) (by simp) hpdpt (by norm_num) ?_ (by decide) fun _ _ => .inl ⟨rfl, by decide⟩
  show nodeOf 1 (slot (getNextLevel emptyRoot 0x1000 0 3 true (0 &&& flagUser)).2.mem 512 0x1000 [0] 0) = none
  rw [slot_of_walk hpdpt (by decide)]
  decide +kernel

/-- Mapping a page in the middle of the 1 GiB page splits it twice: the page moves, its neighbours stay. -/
theorem vmm_translation_map_boot : (vmmMapPage bootMachine bootMap 0x201000 0x5000 flagWritable).1 = true ∧
    vmmVirtToPhys (vmmMapPage bootMachine bootMap 0x201000 0x5000 flagWritable).2.mem bootMap 0x201123 = 0x5123 ∧
    vmmVirtToPhys (vmmMapPage bootMachine bootMap 0x201000 0x5000 flagWritable).2.mem bootMap 0x202123 =
      0x40202123 := by
  have hmap : (vmmMapPage bootMachine bootMap 0x201000 0x5000 flagWritable).1 = true := by decide +kernel
  obtain ⟨hsuccess, -, -, -⟩ := vmm_translation_map tree_boot 0x201000 0x5000 ⟨rfl, by norm_num⟩ flagWritable (by decide)
  obtain ⟨hpage, hother⟩ := hsuccess hmap
  refine ⟨hmap, hpage 0x201123 (by decide), ?_⟩
  rw [hother 0x202123 (by decide)]
  decide +kernel

/-- **A flag that is a bit of an address maps another page.** -/
theorem map_flags_move_page : Tree bootMachine bootMap ∧
    (vmmMapPage bootMachine bootMap 0x201000 0x5000 0x2000).1 = true ∧
    vmmVirtToPhys (vmmMapPage bootMachine bootMap 0x201000 0x5000 0x2000).2.mem bootMap 0x201123 = 0x7123 := by
  refine ⟨tree_boot, ?_, ?_⟩
  · decide +kernel
  · decide +kernel

end SzpontOS.Mm
