import SzpontOS.Mm.Access

/-!
# Changing the flags of leaves

The loops of `vmm_set_range_flags`, in any trees in which no table is reached twice: they may have huge pages and tables
without `USER` or `WRITABLE`, and their leaves may share frames. A write to a leaf changes that leaf and no walk
(`Forest.setLeaf`), so the second loop finds the leaves that the first one saw, and the trees end up with the leaves of
the range rewritten (`setLeaves`). Address spaces stay in order if the flags are flags (`Family.setRangeFlags`).
-/

namespace SzpontOS.Mm

open Lib Lib.Radix List

/-- The pages of the range of `vmm_set_range_flags`. -/
def rangePages (virt size : Nat) : List Nat := pagesBetween (pageDown virt) (pageDown (virt + size + 4095))

/-- Page `v` has a byte of the range. -/
def Intersects (virt size v : Nat) : Prop := v % 4096 = 0 ∧ v < virt + size ∧ virt < v + 4096

instance (virt size v : Nat) : Decidable (Intersects virt size v) := by
  unfold Intersects
  infer_instance

/-- The leaf of page `v`, `0` when no table holds it. -/
def leafIn (m : Mem) (top r v : Nat) : Word := slot m top r (route v) (ptIndex v)

variable {v virt size top n : Nat} {m : Mem} {R : Set Nat}

theorem mem_rangePages : v ∈ rangePages virt size ↔ v % 4096 = 0 ∧ pageDown virt ≤ v ∧ v < virt + size := by
  rw [rangePages, mem_pagesBetween, pageDown, pageDown]
  omega

theorem mem_rangePages_iff : v ∈ rangePages virt size ↔ Intersects virt size v := by
  rw [mem_rangePages, Intersects, pageDown]
  omega

theorem rangePages_user (huser : vmmUserRange virt size = true) (hv : v ∈ rangePages virt size) :
    4096 ≤ v ∧ v + 4096 ≤ userEnd := by
  simp only [vmmUserRange, userEnd, Bool.and_eq_true, decide_eq_true_eq] at huser ⊢
  rw [mem_rangePages, pageDown] at hv
  omega

theorem Intersects.lt_userEnd (h : Intersects virt size v) (huser : vmmUserRange virt size = true) : v < userEnd := by
  have := rangePages_user huser (mem_rangePages_iff.mpr h)
  omega

/-- The trees of `m'` are those of `m` with the leaves of `pages` in the tree of `r` rewritten; no other page of memory
changes. -/
structure Rewritten (m m' : Mem) (top : Nat) (R : Set Nat) (r : Nat) (pages : List Nat) (flags : Word) : Prop where
  slots : ∀ r' ∈ R, ∀ (q : List Nat) (j : Nat), q.length ≤ 3 → slot m' top r' q j =
    if r' = r ∧ ∃ v ∈ pages, q = route v ∧ j = ptIndex v then protEntry (slot m top r' q j) flags
    else slot m top r' q j
  data : ∀ x, x % 4096 = 0 → ¬ Reached m top R 3 x → SamePage m m' x

namespace Rewritten

variable {m' m'' : Mem} {r r' : Nat} {pages pages' : List Nat} {flags : Word}

theorem refl (m : Mem) (top : Nat) (R : Set Nat) (r : Nat) (flags : Word) : Rewritten m m top R r [] flags :=
  ⟨fun _ _ _ _ _ => by simp, fun _ _ _ _ _ _ => rfl⟩

section

variable (h : Rewritten m m' top R r pages flags)

include h

theorem table (hr' : r' ∈ R) {q : List Nat} (hq : q.length < 3) (j : Nat) : slot m' top r' q j = slot m top r' q j := by
  rw [h.slots r' hr' q j (by omega), if_neg]
  rintro ⟨-, v, -, rfl, -⟩
  simp [route] at hq

theorem reached {x : Nat} (hx : Reached m' top R 3 x) : Reached m top R 3 x := by
  obtain ⟨r', hr', q, hq, hw⟩ := hx
  refine ⟨r', hr', q, hq, ?_⟩
  rw [← hw]
  refine (walk_eq_of_slots fun q' i hqi => h.table hr' ?_ i).symm
  rw [← hqi, length_append, length_singleton] at hq
  omega

theorem trans (h' : Rewritten m' m'' top R r pages' flags) : Rewritten m m'' top R r (pages ++ pages') flags := by
  refine ⟨fun r' hr' q j hq => ?_, fun x hx hx3 => (h.data x hx hx3).trans (h'.data x hx (mt h.reached hx3))⟩
  rw [h'.slots r' hr' q j hq, h.slots r' hr' q j hq]
  simp only [mem_append, or_and_right, exists_or, and_or_left]
  by_cases hold : r' = r ∧ ∃ v ∈ pages, q = route v ∧ j = ptIndex v
  · rw [if_pos hold, protEntry_protEntry, ite_self, if_pos (.inl hold)]
  · rw [if_neg hold]
    exact if_congr (or_iff_right hold).symm rfl rfl

theorem leaf (hr : r ∈ R) (hv : v ∈ pages) : leafIn m' top r v = protEntry (leafIn m top r v) flags := by
  rw [leafIn, h.slots r hr _ _ (length_route_le v), if_pos ⟨rfl, v, hv, rfl, rfl⟩, leafIn]

end

end Rewritten

/-! ## The loops -/

section Loops

variable {s : Machine} {map : Pagemap} {flags : Word} (hr : map.pml4Phys ∈ R)

include hr

theorem Forest.setLeaf (htree : Forest s.mem top R n) (flags : Word) (hv : pml4Index v < top)
    (hpres : has (leafIn s.mem top map.pml4Phys v) flagPresent = true) :
    ∃ m', setLeafFlags map flags s v = { s with mem := m' } ∧
      SlotsUpdate s.mem m' top R map.pml4Phys (route v) (ptIndex v)
        (protEntry (leafIn s.mem top map.pml4Phys v) flags) ∧
      Rewritten s.mem m' top R map.pml4Phys [v] flags := by
  have hne : leafIn s.mem top map.pml4Phys v ≠ 0 := fun h0 => by simp [h0] at hpres
  obtain ⟨pt, hpt, hi⟩ := walk_of_slot hne
  have hupd := htree.slot_leaf (w := protEntry (leafIn s.mem top map.pml4Phys v) flags) hr (length_route v) hpt hi
  have hpt3 : Reached s.mem top R 3 pt := ⟨_, hr, route v, length_route_le v, hpt⟩
  refine ⟨_, ?_, hupd, fun r' hr' q j hq => ?_, fun x hx hx3 => ?_⟩
  · rw [setLeafFlags, userLeaf_eq _ _ _ hv, hpt, leafIn, slot_of_walk hpt hi]
    rfl
  · rw [hupd r' hr' q j hq]
    simp only [mem_singleton, exists_eq_left]
    by_cases hhere : r' = map.pml4Phys ∧ q = route v ∧ j = ptIndex v
    · rw [if_pos hhere, if_pos hhere, hhere.1, hhere.2.1, hhere.2.2, leafIn]
    · rw [if_neg hhere, if_neg hhere]
  · refine SamePage.writeEntry _ (htree.table_pageAddr hpt3).aligned hx (ptIndex_lt v) ?_
    rintro rfl
    exact hx3 hpt3

/-- The second loop, for an invariant `P` that its steps keep. -/
theorem setLeaves {P : Machine → Prop} (hstep : ∀ {s : Machine} {v : Nat}, P s → pml4Index v < top →
      has (leafIn s.mem top map.pml4Phys v) flagPresent = true → ∃ m', setLeafFlags map flags s v = { s with mem := m' } ∧
        P { s with mem := m' } ∧ Rewritten s.mem m' top R map.pml4Phys [v] flags)
    (pages : List Nat) (h : P s)
    (hpage : ∀ v ∈ pages, pml4Index v < top ∧ has (leafIn s.mem top map.pml4Phys v) flagPresent = true) :
    ∃ m', pages.foldl (setLeafFlags map flags) s = { s with mem := m' } ∧ P { s with mem := m' } ∧
      Rewritten s.mem m' top R map.pml4Phys pages flags := by
  induction pages generalizing s with
  | nil => exact ⟨s.mem, rfl, h, .refl ..⟩
  | cons v pages ih =>
    obtain ⟨hv, hpres⟩ := hpage v (mem_cons_self ..)
    obtain ⟨m1, heq, h1, hfst⟩ := hstep h hv hpres
    have hpage1 : ∀ v' ∈ pages, pml4Index v' < top ∧ has (leafIn m1 top map.pml4Phys v') flagPresent = true := by
      intro v' hv'
      obtain ⟨hlt, hp⟩ := hpage v' (mem_cons_of_mem _ hv')
      refine ⟨hlt, ?_⟩
      rw [leafIn, hfst.slots _ hr _ _ (length_route_le v')]
      split_ifs
      · exact protEntry_present
      · exact hp
    obtain ⟨m', hloop, h', hrest⟩ := ih (s := { s with mem := m1 }) h1 hpage1
    refine ⟨m', ?_, h', hfst.trans hrest⟩
    rw [foldl_cons, heq, hloop]

end Loops

theorem userLeaf_present {map : Pagemap} (hv : pml4Index v < top) : (match userLeaf m map v with
      | none => false
      | some (pt, l) => has (readEntry m pt l) flagPresent) = has (leafIn m top map.pml4Phys v) flagPresent := by
  rw [userLeaf_eq _ _ _ hv, leafIn]
  cases hpt : walk (child m top) map.pml4Phys (route v) with
  | none => rw [Option.map_none, slot_of_walk_none hpt, show has 0 flagPresent = false from has_zero _]
  | some pt => rw [Option.map_some, slot_of_walk hpt (ptIndex_lt v)]

/-- The range is a non-empty user range and all its pages have a present 4 KiB leaf. -/
def Protectable (m : Mem) (top r virt size : Nat) : Prop :=
  size ≠ 0 ∧ vmmUserRange virt size = true ∧ ∀ v, Intersects virt size v → has (leafIn m top r v) flagPresent = true

theorem pml4Index_lt_of_intersects (htop : 256 ≤ top) (huser : vmmUserRange virt size = true)
    (hv : Intersects virt size v) : pml4Index v < top :=
  lt_of_lt_of_le (pml4Index_lt_of_user (hv.lt_userEnd huser)) htop

theorem Protectable.page {r : Nat} (h : Protectable m top r virt size) (htop : 256 ≤ top) (hv : v ∈ rangePages virt size) :
    pml4Index v < top ∧ has (leafIn m top r v) flagPresent = true := by
  rw [mem_rangePages_iff] at hv
  exact ⟨pml4Index_lt_of_intersects htop h.2.1 hv, h.2.2 v hv⟩

theorem vmmSetRangeFlags_eq (s : Machine) (map : Pagemap) (virt size : Nat) (flags : Word) (htop : 256 ≤ top) :
    Protectable s.mem top map.pml4Phys virt size ∧
        vmmSetRangeFlags s map virt size flags = (true, (rangePages virt size).foldl (setLeafFlags map flags) s) ∨
      ¬ Protectable s.mem top map.pml4Phys virt size ∧ vmmSetRangeFlags s map virt size flags = (false, s) := by
  rw [vmmSetRangeFlags]
  by_cases huser : (size = 0 || !vmmUserRange virt size) = true
  · rw [if_pos huser]
    refine .inr ⟨fun h => ?_, rfl⟩
    simp [h.1, h.2.1] at huser
  rw [if_neg huser]
  simp only [Bool.or_eq_true, decide_eq_true_eq, Bool.not_eq_true', not_or, Bool.not_eq_false] at huser
  obtain ⟨hsize, huser⟩ := huser
  dsimp only
  have hcheck : ((rangePages virt size).all fun v =>
        match userLeaf s.mem map v with
        | none => false
        | some (pt, l) => has (readEntry s.mem pt l) flagPresent) = true ↔
      ∀ v, Intersects virt size v → has (leafIn s.mem top map.pml4Phys v) flagPresent = true := by
    rw [all_eq_true]
    refine forall_congr' fun v => ?_
    rw [mem_rangePages_iff]
    refine imp_congr_right fun hv => ?_
    rw [userLeaf_present (pml4Index_lt_of_intersects htop huser hv)]
  split_ifs with hall
  · exact .inl ⟨⟨hsize, huser, hcheck.mp hall⟩, rfl⟩
  · exact .inr ⟨fun h => hall (hcheck.mpr h.2.2), rfl⟩

/-! ## Address spaces -/

namespace Family

variable {s : Machine} {map : Pagemap} {flags : Word} {ext lent : Set Nat} (hr : map.pml4Phys ∈ R) (hflag : OwnFlags flags)

include hr hflag

theorem setLeafFlags (hfam : Family s R ext lent) (hv : pml4Index v < 256)
    (hpres : has (leafIn s.mem 256 map.pml4Phys v) flagPresent = true) :
    ∃ m', setLeafFlags map flags s v = { s with mem := m' } ∧ Family { s with mem := m' } R ext lent ∧
      Rewritten s.mem m' 256 R map.pml4Phys [v] flags := by
  obtain ⟨m', heq, hupd, hrewritten⟩ := hfam.trees.forest.setLeaf hr flags hv hpres
  refine ⟨m', heq, ?_, hrewritten⟩
  refine hfam.keep (p := route v) rfl rfl (length_route v) hupd (nodeOf_protEntry hflag hpres) (fun _ hborrowed => ?_) hr
  rw [protEntry_borrowed hflag] at hborrowed
  rw [protEntry_addr hflag]
  exact hfam.trees.borrow _ hr _ _ (length_route v) hpres hborrowed

theorem setRangeFlags (hfam : Family s R ext lent) (virt size : Nat) :
    Family (vmmSetRangeFlags s map virt size flags).2 R ext lent ∧
      (vmmSetRangeFlags s map virt size flags = (false, s) ∨
        Protectable s.mem 256 map.pml4Phys virt size ∧
        ∃ m', vmmSetRangeFlags s map virt size flags = (true, { s with mem := m' }) ∧
          Rewritten s.mem m' 256 R map.pml4Phys (rangePages virt size) flags) := by
  rcases vmmSetRangeFlags_eq s map virt size flags le_rfl with ⟨hprot, heq⟩ | ⟨-, heq⟩
  · obtain ⟨m', hloop, hfam', hrewritten⟩ :=
      setLeaves hr (setLeafFlags hr hflag) (rangePages virt size) hfam fun v hv => hprot.page le_rfl hv
    rw [heq, hloop]
    exact ⟨hfam', .inr ⟨hprot, m', rfl, hrewritten⟩⟩
  · rw [heq]
    exact ⟨hfam, .inl rfl⟩

end Family

end SzpontOS.Mm
