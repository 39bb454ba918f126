import SzpontOS.Mm.PageTable

/-!
# Descending one level (`get_next_level`)

`get_next_level` finds the table below an entry and creates it when asked to. `getNextLevel_spec` gives its three
outcomes on an entry that is not a huge page: the table exists; there is no memory; or a page that was free becomes an
empty table and exactly one slot changes.
-/

namespace SzpontOS.Mm

open Lib Lib.Radix List BitVec

/-! ## Entries built by the code -/

/-- The entry that `get_next_level` writes for a new table. -/
def linkEntry (a : Nat) (flags : Word) : Word :=
  BitVec.ofNat 64 a ||| (flags &&& flagUser) ||| flagPresent ||| flagWritable

/-- The entry that `vmm_map_page` writes. -/
def leafEntry (a : Nat) (flags : Word) : Word := BitVec.ofNat 64 a ||| flags ||| flagPresent

variable {d t top i k f v : Nat} {e : Word} {m : Mem} {s : Machine}

section Entries

variable {a : Nat} {flags : Word}

section

variable (ha : PageAddr a)

include ha

theorem getLsbD_linkEntry (hk : k < 12 ∨ 52 ≤ k) : (linkEntry a flags).getLsbD k =
      (flags.getLsbD k && flagUser.getLsbD k || flagPresent.getLsbD k || flagWritable.getLsbD k) := by
  rw [linkEntry, getLsbD_or, getLsbD_or, getLsbD_or, ha.getLsbD hk, Bool.false_or,
    getLsbD_and]

theorem getLsbD_leafEntry (hk : k < 12 ∨ 52 ≤ k) :
    (leafEntry a flags).getLsbD k = (flags.getLsbD k || flagPresent.getLsbD k) := by
  rw [leafEntry, getLsbD_or, getLsbD_or, ha.getLsbD hk, Bool.false_or]

theorem linkEntry_present (flags : Word) : has (linkEntry a flags) flagPresent = true := by
  rw [has_present, getLsbD_linkEntry ha (by omega), show flagPresent.getLsbD 0 = true by decide]
  simp

theorem linkEntry_huge (flags : Word) : has (linkEntry a flags) flagHuge = false := by
  rw [has_huge, getLsbD_linkEntry ha (by omega), show flagUser.getLsbD 7 = false by decide,
    show flagPresent.getLsbD 7 = false by decide, show flagWritable.getLsbD 7 = false by decide]
  simp

theorem linkEntry_user : has (linkEntry a flags) flagUser = has flags flagUser := by
  rw [has_user, has_user, getLsbD_linkEntry ha (by omega), show flagUser.getLsbD 2 = true by decide,
    show flagPresent.getLsbD 2 = false by decide, show flagWritable.getLsbD 2 = false by decide]
  simp

theorem linkEntry_writable (flags : Word) : has (linkEntry a flags) flagWritable = true := by
  rw [has_writable, getLsbD_linkEntry ha (by omega), show flagWritable.getLsbD 1 = true by decide]
  simp

theorem linkEntry_addr : entryAddr (linkEntry a flags) = a := by
  rw [linkEntry, BitVec.or_assoc, BitVec.or_assoc]
  refine entryAddr_or ha ?_
  rw [BitVec.and_or_distrib_right, BitVec.and_assoc, show flagUser &&& physAddrMask = 0#64 by decide,
    BitVec.and_zero, BitVec.zero_or]
  decide

theorem nodeOf_linkEntry (hd : d < 3) : nodeOf d (linkEntry a flags) = some a := by
  rw [nodeOf, if_pos hd, linkEntry_present ha, linkEntry_huge ha, linkEntry_addr ha]
  rfl

theorem leafEntry_present : has (leafEntry a flags) flagPresent = true := by
  rw [has_present, getLsbD_leafEntry ha (by omega), show flagPresent.getLsbD 0 = true by decide, Bool.or_true]

theorem leafEntry_writable : has (leafEntry a flags) flagWritable = has flags flagWritable := by
  rw [has_writable, has_writable, getLsbD_leafEntry ha (by omega),
    show flagPresent.getLsbD 1 = false by decide, Bool.or_false]

theorem leafEntry_user : has (leafEntry a flags) flagUser = has flags flagUser := by
  rw [has_user, has_user, getLsbD_leafEntry ha (by omega), show flagPresent.getLsbD 2 = false by decide, Bool.or_false]

theorem leafEntry_borrowed : has (leafEntry a flags) flagBorrowed = has flags flagBorrowed := by
  rw [has_borrowed, has_borrowed, getLsbD_leafEntry ha (by omega),
    show flagPresent.getLsbD 9 = false by decide, Bool.or_false]

theorem leafEntry_addr (hflag : flags &&& physAddrMask = 0#64) : entryAddr (leafEntry a flags) = a := by
  rw [leafEntry, BitVec.or_assoc]
  refine entryAddr_or ha ?_
  rw [and_or_distrib_right, hflag, zero_or]
  decide

end

end Entries

@[simp] theorem has_zero (flag : Word) : has 0#64 flag = false := by
  rw [has, zero_and]
  exact bne_self_eq_false _

theorem nodeOf_eq_some (hd : d < 3) :
    nodeOf d e = some t ↔ has e flagPresent = true ∧ has e flagHuge = false ∧ entryAddr e = t := by
  rw [nodeOf, if_pos hd]
  cases has e flagPresent <;> cases has e flagHuge <;> simp

theorem nodeOf_eq_none (hd : d < 3) : nodeOf d e = none ↔ (has e flagPresent = true → has e flagHuge = true) := by
  rw [nodeOf, if_pos hd]
  cases has e flagPresent <;> cases has e flagHuge <;> simp

theorem nodeOf_three (e : Word) :
    nodeOf 3 e = if has e flagPresent && !has e flagBorrowed then some (entryAddr e) else none := by
  rw [nodeOf, if_neg (lt_irrefl 3), if_pos rfl]

theorem nodeOf_leaf :
    nodeOf 3 e = some t ↔ has e flagPresent = true ∧ has e flagBorrowed = false ∧ entryAddr e = t := by
  rw [nodeOf_three]
  cases has e flagPresent <;> cases has e flagBorrowed <;> simp

theorem slot_on_route {r : Nat} {p q : List Nat} (hp : p.length < 3) (hpq : p ++ [i] <+: q)
    (h : walk (child m top) r q = some t) :
    has (slot m top r p i) flagPresent = true ∧ has (slot m top r p i) flagHuge = false := by
  obtain ⟨u, hu⟩ := walk_along hpq h
  rw [walk_snoc_slot, nodeOf_eq_some hp] at hu
  exact ⟨hu.1, hu.2.1⟩

/-! ## Fresh pages -/

/-- A machine whose physical addresses fit into an entry. -/
structure Machine.Ok (s : Machine) : Prop where
  pmm : s.pmm.WF
  phys : s.pmm.totalPages ≤ 2 ^ 40

theorem Machine.allocPage_spec (hok : s.Ok) : (∃ a p', Takes s.pmm p' a 1 ∧
      s.allocPage = (a * 4096, { s with pmm := p', faults := s.faults.tail })) ∨
    s.allocPage = (0, { s with faults := s.faults.tail }) := by
  rw [Machine.allocPage]
  split
  · exact .inr (by simp [*])
  · rcases pmmAllocPage_spec hok.pmm with ⟨a, ha, htake⟩ | ⟨_, heq⟩
    · exact .inl ⟨a, _, htake, by rw [ha]⟩
    · exact .inr (by rw [heq])

namespace Takes

variable {p p' : Pmm} {a : Nat}

theorem free_first (h : Takes p p' a 1) : p.Free a := ⟨by have := h.le; omega, h.free a (by omega) (by omega)⟩

theorem test_one (h : Takes p p' a 1) (b : Nat) : p'.bitmapTest b = (decide (b = a) || p.bitmapTest b) := by
  rw [h.test]
  congr 1
  exact decide_eq_decide.mpr (by omega)

theorem free_of_free (h : Takes p p' a 1) {b : Nat} (hb : p'.Free b) : p.Free b ∧ b ≠ a := by
  obtain ⟨hlt, htest⟩ := hb
  rw [h.test_one, Bool.or_eq_false_iff, decide_eq_false_iff_not] at htest
  exact ⟨⟨h.total ▸ hlt, htest.2⟩, htest.1⟩

theorem pageAddr (h : Takes p p' a 1) (hphys : p.totalPages ≤ 2 ^ 40) : PageAddr (a * 4096) :=
  ⟨by omega, by have := h.le; omega⟩

end Takes

/-! ## Filling a table -/

theorem foldl_writeEntry_spec (m : Mem) (f : Nat → Word) (ht : t % 4096 = 0) (hk : k ≤ 512) :
    (∀ i, i < 512 → readEntry ((List.range k).foldl (fun m p => writeEntry m t p (f p)) m) t i =
      if i < k then f i else readEntry m t i) ∧
    ∀ t', t' % 4096 = 0 → t' ≠ t → SamePage m ((List.range k).foldl (fun m p => writeEntry m t p (f p)) m) t' := by
  induction k with
  | zero => exact ⟨fun i _ => by simp, fun _ _ _ _ _ _ => rfl⟩
  | succ k ih =>
    obtain ⟨hread, hrest⟩ := ih (by omega)
    simp only [range_succ, foldl_append, foldl_cons, foldl_nil]
    refine ⟨fun i hi => ?_, fun t' ht' hne => ?_⟩
    · rw [readEntry_writeEntry _ ht ht (by omega) hi, hread i hi]
      by_cases hik : i = k
      · rw [if_pos ⟨rfl, hik⟩, if_pos (by omega), hik]
      · rw [if_neg (fun h => hik h.2)]
        exact if_congr (by omega) rfl rfl
    · exact (hrest t' ht' hne).trans (SamePage.writeEntry _ ht ht' (by omega) hne)

theorem readEntry_fillTable (m : Mem) (f : Nat → Word) (ht : t % 4096 = 0) (hi : i < 512) :
    readEntry (fillTable m t f) t i = f i := by
  rw [fillTable, (foldl_writeEntry_spec m f ht le_rfl).1 i hi, if_pos hi]

theorem SamePage.fillTable {t' : Nat} (f : Nat → Word) (ht : t % 4096 = 0) (ht' : t' % 4096 = 0) (hne : t' ≠ t) :
    SamePage m (fillTable m t f) t' :=
  (foldl_writeEntry_spec m f ht le_rfl).2 t' ht' hne

/-! ## Outcomes of `get_next_level` -/

section NextLevel

variable {level : Nat} {allocate : Bool} {flags : Word}

theorem getNextLevel_lookup (hd : d < 3) :
    getNextLevel s t i level false flags = (nodeOf d (readEntry s.mem t i), s) := by
  rw [getNextLevel, nodeOf, if_pos hd]
  cases has (readEntry s.mem t i) flagPresent <;> cases has (readEntry s.mem t i) flagHuge <;> simp

theorem getNextLevel_found {u : Nat} (hd : d < 3) (h : nodeOf d (readEntry s.mem t i) = some u) :
    getNextLevel s t i level allocate flags = (some u, s) := by
  rw [nodeOf_eq_some hd] at h
  obtain ⟨hpres, hhuge, rfl⟩ := h
  rw [getNextLevel]
  simp [hpres, hhuge]

theorem getNextLevel_fault (hd : d < 3) (h : nodeOf d (readEntry s.mem t i) = none)
    (hfail : s.allocPage = (0, { s with faults := s.faults.tail })) :
    getNextLevel s t i level true flags = (none, { s with faults := s.faults.tail }) := by
  rw [nodeOf_eq_none hd] at h
  rw [getNextLevel]
  simp only [hfail]
  by_cases hpres : has (readEntry s.mem t i) flagPresent = true
  · simp [hpres, h hpres]
  · simp [hpres]

/-- The memory after a new table `a` has been linked into entry `i` of `t`. -/
def linkMem (m : Mem) (t i a : Nat) (flags : Word) : Mem :=
  writeEntry (m.memset a 0 4096) t i (linkEntry a flags)

theorem getNextLevel_create {p' : Pmm} {a : Nat} (habs : has (readEntry s.mem t i) flagPresent = false)
    (ha : a ≠ 0) (hgot : s.allocPage = (a, { s with pmm := p', faults := s.faults.tail })) :
    getNextLevel s t i level true (flags &&& flagUser) =
      (some a, { s with pmm := p', faults := s.faults.tail, mem := linkMem s.mem t i a flags }) := by
  rw [getNextLevel]
  simp [habs, hgot, ha, Machine.write, linkMem, linkEntry]

variable {n r : Nat} {R : Set Nat} {p : List Nat} {p' : Pmm} {a : Nat}

theorem ne_of_fresh (hused : ∀ f, Reached s.mem top R n f → ¬ s.pmm.Free (f / 4096)) (htake : Takes s.pmm p' a 1)
    (hf : Reached s.mem top R n f) : f ≠ a * 4096 := by
  rintro rfl
  refine hused _ hf ?_
  rw [Nat.mul_div_cancel a (by norm_num)]
  exact htake.free_first

theorem Reached.mono (h : Reached m top R k f) (hk : k ≤ n) : Reached m top R n f := by
  obtain ⟨r, hr, p, hp, hw⟩ := h
  exact ⟨r, hr, p, hp.trans hk, hw⟩

theorem slotsSame_of_fresh (m' : Mem) (hF : Forest s.mem top R n)
    (hused : ∀ f, Reached s.mem top R n f → ¬ s.pmm.Free (f / 4096)) (htake : Takes s.pmm p' a 1)
    (hsame : ∀ x, x % 4096 = 0 → x ≠ a * 4096 → SamePage s.mem m' x) : SlotsSame s.mem m' top R :=
  hF.slots_of_samePages fun x hx =>
    hsame x (hF.table_pageAddr hx).aligned (ne_of_fresh hused htake (hx.mono hF.three_le))

theorem slotsUpdate_linkMem (hok : s.Ok) (hF : Forest s.mem top R n)
    (hused : ∀ f, Reached s.mem top R n f → ¬ s.pmm.Free (f / 4096)) (htake : Takes s.pmm p' a 1)
    (hr : r ∈ R) (hp : p.length < 3) (ht : walk (child s.mem top) r p = some t) (hi : i < bound top p.length)
    (hold : nodeOf p.length (slot s.mem top r p i) = none) :
    SlotsUpdate s.mem (linkMem s.mem t i (a * 4096) flags) top R r p i (linkEntry (a * 4096) flags) := by
  have haddr := htake.pageAddr hok.phys
  have hsame := slotsSame_of_fresh (s.mem.memset (a * 4096) 0 4096) hF hused htake
    fun x hx hne => SamePage.memset 0 haddr.aligned hx hne
  have ht' := (Forest.walk_same hsame hr (by omega)).trans ht
  have hne : t ≠ a * 4096 := ne_of_fresh hused htake ⟨r, hr, p, by have := hF.three_le; omega, ht⟩
  have hupd : SlotsUpdate (s.mem.memset (a * 4096) 0 4096) (linkMem s.mem t i (a * 4096) flags) top R r p i
      (linkEntry (a * 4096) flags) :=
    (hF.same hsame).slot_link hr (by omega) ht' hi (by rw [hsame r hr p i (by omega), hold])
      (nodeOf_linkEntry haddr hp) hne.symm fun k hk => readEntry_memset_zero _ _ hk
  intro r' hr' q j hq
  rw [hupd r' hr' q j hq, hsame r' hr' q j hq]

/-- **One level down.** On an entry that is not a huge page, `get_next_level` finds the table, or finds
no memory, or makes a free page an empty table and changes one slot. -/
theorem getNextLevel_spec (level : Nat) (flags : Word) (hok : s.Ok) (hF : Forest s.mem top R n)
    (hused : ∀ f, Reached s.mem top R n f → ¬ s.pmm.Free (f / 4096)) (hr : r ∈ R) (hp : p.length < 3)
    (ht : walk (child s.mem top) r p = some t) (hi : i < bound top p.length)
    (hplain : has (slot s.mem top r p i) flagPresent = true → has (slot s.mem top r p i) flagHuge = false) :
    (∃ u, nodeOf p.length (slot s.mem top r p i) = some u ∧
      getNextLevel s t i level true (flags &&& flagUser) = (some u, s)) ∨
    (nodeOf p.length (slot s.mem top r p i) = none ∧
      getNextLevel s t i level true (flags &&& flagUser) = (none, { s with faults := s.faults.tail })) ∨
    (nodeOf p.length (slot s.mem top r p i) = none ∧ ∃ a p', Takes s.pmm p' a 1 ∧
      getNextLevel s t i level true (flags &&& flagUser) =
        (some (a * 4096), { s with pmm := p', faults := s.faults.tail, mem := linkMem s.mem t i (a * 4096) flags }) ∧
      SlotsUpdate s.mem (linkMem s.mem t i (a * 4096) flags) top R r p i (linkEntry (a * 4096) flags)) := by
  have hslot := slot_of_walk ht hi
  cases hnode : nodeOf p.length (slot s.mem top r p i) with
  | some u => exact .inl ⟨u, rfl, getNextLevel_found hp (hslot ▸ hnode)⟩
  | none =>
    right
    have habs : has (readEntry s.mem t i) flagPresent = false := by
      rw [nodeOf_eq_none hp] at hnode
      rw [← hslot, Bool.eq_false_iff]
      intro hpres
      have := hnode hpres
      rw [hplain hpres] at this
      simp at this
    rcases s.allocPage_spec hok with ⟨a, p', htake, hgot⟩ | hfail
    · refine .inr ⟨rfl, a, p', htake, ?_, slotsUpdate_linkMem hok hF hused htake hr hp ht hi hnode⟩
      exact getNextLevel_create habs (by have := htake.pos; omega) hgot
    · exact .inl ⟨rfl, getNextLevel_fault hp (hslot ▸ hnode) hfail⟩

end NextLevel

/-! ## The way to a page table -/

/-- The indices that lead to the page table of an address. -/
def route (v : Nat) : List Nat := [pml4Index v, pdptIndex v, pdIndex v]

theorem length_route (v : Nat) : (route v).length = 3 := rfl

theorem length_lt_of_route {p : List Nat} (h : p ++ [i] <+: route v) : p.length < 3 := by
  have := h.length_le
  rw [length_append, length_singleton, length_route] at this
  omega

theorem pml4Index_pageDown (v : Nat) : pml4Index (pageDown v) = pml4Index v := by
  rw [pml4Index_eq, pml4Index_eq, pageDown]
  omega

theorem pdptIndex_pageDown (v : Nat) : pdptIndex (pageDown v) = pdptIndex v := by
  rw [pdptIndex_eq, pdptIndex_eq, pageDown]
  omega

theorem pdIndex_pageDown (v : Nat) : pdIndex (pageDown v) = pdIndex v := by
  rw [pdIndex_eq, pdIndex_eq, pageDown]
  omega

theorem ptIndex_pageDown (v : Nat) : ptIndex (pageDown v) = ptIndex v := by
  rw [ptIndex_eq, ptIndex_eq, pageDown]
  omega

/-- The three descents of `vmm_map_page`. -/
def descend (s : Machine) (root v : Nat) (flags : Word) : Option Nat × Machine :=
  match getNextLevel s root (pml4Index v) 3 true (flags &&& flagUser) with
  | (none, s) => (none, s)
  | (some pdpt, s) =>
    match getNextLevel s pdpt (pdptIndex v) 2 true (flags &&& flagUser) with
    | (none, s) => (none, s)
    | (some pd, s) => getNextLevel s pd (pdIndex v) 1 true (flags &&& flagUser)

theorem vmmMapPage_eq (s : Machine) (map : Pagemap) (v phys : Nat) (flags : Word) : vmmMapPage s map v phys flags =
      if !map.isKernel && !vmmUserRange v 4096 then (false, s)
      else match descend s map.pml4Phys v flags with
        | (none, s) => (false, s)
        | (some pt, s) => (true, s.write pt (ptIndex v) (leafEntry (pageDown phys) flags)) := by
  rw [vmmMapPage, descend]
  simp only [pml4Index_pageDown, pdptIndex_pageDown, pdIndex_pageDown, ptIndex_pageDown, leafEntry]
  split_ifs
  · rfl
  · rcases getNextLevel s map.pml4Phys (pml4Index v) 3 true (flags &&& flagUser) with ⟨_ | pdpt, s1⟩
    · rfl
    · dsimp only
      rcases getNextLevel s1 pdpt (pdptIndex v) 2 true (flags &&& flagUser) with ⟨_ | pd, s2⟩ <;> rfl

/-- **The descent rule.** What each `get_next_level` keeps, the three descents keep; and the page table
they find is the one on the route of the address. -/
theorem descend_rule (Inv : Machine → Prop) {root : Nat} {flags : Word} (hv : pml4Index v < top)
    (hstep : ∀ (s : Machine) (p : List Nat) (t i : Nat), p ++ [i] <+: route v → i < bound top p.length → Inv s →
      walk (child s.mem top) root p = some t →
      Inv (getNextLevel s t i (3 - p.length) true (flags &&& flagUser)).2 ∧
      ∀ u, (getNextLevel s t i (3 - p.length) true (flags &&& flagUser)).1 = some u →
        walk (child (getNextLevel s t i (3 - p.length) true (flags &&& flagUser)).2.mem top) root (p ++ [i]) = some u)
    (h : Inv s) :
    Inv (descend s root v flags).2 ∧ ∀ pt, (descend s root v flags).1 = some pt →
      walk (child (descend s root v flags).2.mem top) root (route v) = some pt := by
  obtain ⟨h1, hwalk1⟩ := hstep s [] root (pml4Index v) ⟨[pdptIndex v, pdIndex v], rfl⟩ (by simpa [bound] using hv) h (walk_nil _)
  simp only [length_nil, Nat.sub_zero, nil_append] at h1 hwalk1
  rw [descend]
  rcases hg1 : getNextLevel s root (pml4Index v) 3 true (flags &&& flagUser) with ⟨_ | pdpt, s1⟩
  · rw [hg1] at h1
    exact ⟨h1, fun pt hpt => absurd hpt (by simp)⟩
  rw [hg1] at h1 hwalk1
  obtain ⟨h2, hwalk2⟩ := hstep s1 [pml4Index v] pdpt (pdptIndex v) ⟨[pdIndex v], rfl⟩
    (by simp [bound, pdptIndex_lt]) h1 (hwalk1 _ rfl)
  simp only [List.length_singleton, Nat.reduceSub, List.cons_append, List.nil_append] at h2 hwalk2
  dsimp only
  rcases hg2 : getNextLevel s1 pdpt (pdptIndex v) 2 true (flags &&& flagUser) with ⟨_ | pd, s2⟩
  · rw [hg2] at h2
    exact ⟨h2, fun pt hpt => absurd hpt (by simp)⟩
  rw [hg2] at h2 hwalk2
  exact hstep s2 [pml4Index v, pdptIndex v] pd (pdIndex v) ⟨[], rfl⟩ (by simp [bound, pdIndex_lt]) h2 (hwalk2 _ rfl)

theorem walk_route (m : Mem) (root v : Nat) (hv : pml4Index v < top) : walk (child m top) root (route v) =
      (nodeOf 0 (readEntry m root (pml4Index v))).bind fun pdpt =>
        (nodeOf 0 (readEntry m pdpt (pdptIndex v))).bind fun pd => nodeOf 0 (readEntry m pd (pdIndex v)) := by
  have hnode : ∀ d e, d < 3 → nodeOf d e = nodeOf 0 e := fun d e hd => by
    rw [nodeOf, nodeOf, if_pos hd, if_pos (show 0 < 3 by norm_num)]
  have hid : ∀ x : Option Nat, (x.bind fun u => some u) = x := fun x => by cases x <;> rfl
  simp only [route, walk, walkFrom, child, bound, Nat.zero_add, Nat.reduceAdd, if_pos hv, pdptIndex_lt, pdIndex_lt,
    one_ne_zero, OfNat.ofNat_ne_zero, ↓reduceIte, hnode 1 _ (by norm_num), hnode 2 _ (by norm_num), hid]

theorem userLeaf_eq (m : Mem) (map : Pagemap) (v : Nat) (hv : pml4Index v < top) :
    userLeaf m map v = (walk (child m top) map.pml4Phys (route v)).map fun pt => (pt, ptIndex v) := by
  have hstep : ∀ t i, (if !has (readEntry m t i) flagPresent || has (readEntry m t i) flagHuge then none
      else some (entryAddr (readEntry m t i)) : Option Nat) = nodeOf 0 (readEntry m t i) := by
    intro t i
    rw [nodeOf, if_pos (show 0 < 3 by norm_num)]
    cases has (readEntry m t i) flagPresent <;> cases has (readEntry m t i) flagHuge <;> rfl
  have hid : ∀ x : Option Nat, (x.bind fun u => some u) = x := fun x => by cases x <;> rfl
  rw [walk_route _ _ _ hv, userLeaf]
  simp only [foldlM_cons, foldlM_nil, hstep, Option.bind_eq_bind, Option.pure_def, hid]
  rfl

theorem vmmUnmapPage_eq (s : Machine) (map : Pagemap) (v : Nat) (hv : pml4Index v < top) :
    vmmUnmapPage s map v = match walk (child s.mem top) map.pml4Phys (route v) with
      | none => (false, s)
      | some pt => (true, s.write pt (ptIndex v) 0) := by
  rw [vmmUnmapPage, walk_route _ _ _ hv]
  simp only [pml4Index_pageDown, pdptIndex_pageDown, pdIndex_pageDown, ptIndex_pageDown,
    getNextLevel_lookup (d := 0) (by norm_num : 0 < 3)]
  cases nodeOf 0 (readEntry s.mem map.pml4Phys (pml4Index v)) with
  | none => rfl
  | some pdpt =>
    dsimp only [Option.bind_some]
    cases nodeOf 0 (readEntry s.mem pdpt (pdptIndex v)) with
    | none => rfl
    | some pd =>
      dsimp only [Option.bind_some]
      cases nodeOf 0 (readEntry s.mem pd (pdIndex v)) <;> rfl

end SzpontOS.Mm
