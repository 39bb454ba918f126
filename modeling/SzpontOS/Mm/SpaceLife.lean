import SzpontOS.Lib.Run
import SzpontOS.Mm.SpaceOps

/-!
# Creating and destroying address spaces

`vmm_create_address_space` adds an empty tree to the family. `vmm_destroy_address_space` walks a tree
in post-order and frees each page it owns. For the proof, the tree is first taken out of the family, so
all its pages are in the caller's hands, and then each page that is freed leaves them: `Torn` says which
routes of the tree still lead to a page that has not been freed.
-/

namespace SzpontOS.Mm

open Lib Lib.Radix List Set

/-! ## Roots -/

variable {m : Mem} {f r t : Nat} {q : List Nat} {s : Machine} {R ext lent : Set Nat}

section Roots

variable {a : Nat}

theorem slot_of_empty_root (hzero : ∀ i, i < 256 → readEntry m r i = 0) (q : List Nat) (j : Nat) :
    slot m 256 r q j = 0 :=
  slot_below_empty nil_prefix (walk_nil _) hzero j

theorem walk_of_empty_root (hzero : ∀ i, i < 256 → readEntry m r i = 0) (h : walk (child m 256) r q = some f) :
    q = [] ∧ f = r := by
  rcases eq_nil_or_concat' q with rfl | ⟨q, i, rfl⟩
  · exact ⟨rfl, (Option.some.inj h).symm⟩
  · rw [walk_snoc_slot, slot_of_empty_root hzero, nodeOf_zero] at h
    simp at h

theorem Family.addRoot (hfam : Family s R (insert a ext) lent) (ha : a ∉ ext) (hlt : a < s.pmm.totalPages)
    (hzero : a ≠ 0) (hlent : a ∉ lent) (hemp : ∀ i, i < 256 → readEntry s.mem (a * 4096) i = 0) :
    Family s (insert (a * 4096) R) ext lent := by
  have hphys := hfam.ledger.ok.phys
  have hdiv : a * 4096 / 4096 = a := Nat.mul_div_cancel a (by norm_num)
  have hnew : ∀ r ∈ R, ∀ q : List Nat, q.length ≤ 4 → walk (child s.mem 256) r q ≠ some (a * 4096) := by
    intro r hr q hq hw
    have := hfam.reached_not_ext _ ⟨r, hr, q, hq, hw⟩
    rw [hdiv] at this
    exact this (mem_insert _ _)
  have hown : owned s.mem (insert (a * 4096) R) = insert a (owned s.mem R) := by
    ext x
    constructor
    · rintro ⟨r, rfl | hr, q, hq, hw⟩
      · have := (walk_of_empty_root hemp hw).2
        exact .inl (by omega)
      · exact .inr ⟨r, hr, q, hq, hw⟩
    · rintro (rfl | ⟨r, hr, q, hq, hw⟩)
      · exact ⟨_, mem_insert _ _, [], by simp, walk_nil _⟩
      · exact ⟨r, mem_insert_of_mem _ hr, q, hq, hw⟩
  refine ⟨⟨⟨by norm_num, by norm_num, le_rfl, ?_, ?_⟩, ?_, ?_⟩, ?_⟩
  · rintro r (rfl | hr)
    · exact ⟨by omega, by omega⟩
    · exact hfam.trees.forest.root r hr
  · rintro r r' (rfl | hr) (rfl | hr') p p' hp hp' t h h'
    · exact ⟨rfl, (walk_of_empty_root hemp h).1.trans (walk_of_empty_root hemp h').1.symm⟩
    · rw [(walk_of_empty_root hemp h).2] at h'
      exact absurd h' (hnew r' hr' p' hp')
    · rw [(walk_of_empty_root hemp h').2] at h
      exact absurd h (hnew r hr p hp)
    · exact hfam.trees.forest.sep hr hr' hp hp' h h'
  · rintro r (rfl | hr) p i hp hpres
    · rw [slot_of_empty_root hemp] at hpres
      simp at hpres
    · exact hfam.trees.table r hr p i hp hpres
  · rintro r (rfl | hr) p i hp hpres
    · rw [slot_of_empty_root hemp] at hpres
      simp at hpres
    · exact hfam.trees.borrow r hr p i hp hpres
  · rw [hown]
    exact hfam.ledger.give rfl rfl ha hlt hlent hzero

theorem Trees.subset {R' : Set Nat} (hT : Trees m R lent) (h : R' ⊆ R) : Trees m R' lent :=
  ⟨⟨hT.forest.top_le, hT.forest.three_le, hT.forest.le_four, fun r hr => hT.forest.root r (h hr),
    fun _ _ hr hr' => hT.forest.sep (h hr) (h hr')⟩, fun r hr => hT.table r (h hr), fun r hr => hT.borrow r (h hr)⟩

theorem Family.dropRoot (hfam : Family s R ext lent) (hr : r ∈ R) :
    Family s (R \ {r}) (ext ∪ owned s.mem {r}) lent := by
  have hsub : owned s.mem {r} ⊆ owned s.mem R := by
    rintro x ⟨_, rfl, q, hq, hw⟩
    exact ⟨_, hr, q, hq, hw⟩
  refine ⟨hfam.trees.subset sdiff_subset, hfam.ledger.move rfl rfl (fun x => ?_) ?_ ?_⟩
  · constructor
    · rintro (⟨r', hr', q, hq, hw⟩ | hx | hx)
      · exact .inl ⟨r', hr'.1, q, hq, hw⟩
      · exact .inr hx
      · exact .inl (hsub hx)
    · rintro (⟨r', hr', q, hq, hw⟩ | hx)
      · by_cases h : r' = r
        · exact .inr (.inr ⟨r, rfl, q, hq, h ▸ hw⟩)
        · exact .inl ⟨r', ⟨hr', h⟩, q, hq, hw⟩
      · exact .inr (.inl hx)
  · rintro x ⟨r', hr', q, hq, hw⟩ (hx | ⟨_, rfl, q', hq', hw'⟩)
    · exact hfam.ledger.apart x ⟨r', hr'.1, q, hq, hw⟩ hx
    · exact hr'.2 (hfam.trees.forest.sep hr'.1 hr hq hq' hw hw').1
  · rintro x ⟨r', hr', q, hq, hw⟩
    exact .inl ⟨r', hr'.1, q, hq, hw⟩

end Roots

/-! ## Creating an address space -/

def heapSet (hs : List Nat) : Set Nat := { x | x ∈ hs }

theorem heapSet_nil : heapSet [] = ∅ := by
  simp [heapSet]

theorem heapSet_append (hs hs' : List Nat) : heapSet (hs ++ hs') = heapSet hs ∪ heapSet hs' := by
  ext x
  simp [heapSet]

theorem Family.kmalloc (hfam : Family s R ext lent) :
    ∃ hs, s.kmalloc.2.heapFrames = hs ++ s.heapFrames ∧ Family s.kmalloc.2 R (ext ∪ heapSet hs) lent ∧
      s.kmalloc.2.pmm.totalPages = s.pmm.totalPages ∧ s.kmalloc.2.mem = s.mem ∧
      (∀ x, s.kmalloc.2.pmm.Free x → s.pmm.Free x) ∧ (∀ x ∈ hs, s.pmm.Free x) ∧ (s.kmalloc.1 = false → hs = []) := by
  have hnil : ext ∪ heapSet [] = ext := by rw [heapSet_nil, union_empty]
  rw [Machine.kmalloc]
  split
  · exact ⟨[], rfl, by rw [hnil]; exact hfam, rfl, rfl, fun _ h => h, by simp, fun _ => rfl⟩
  · exact ⟨[], rfl, by rw [hnil]; exact hfam.congr rfl rfl rfl, rfl, rfl, fun _ h => h, by simp, fun _ => rfl⟩
  · rename_i n rest _
    rcases pmmAllocPages_spec hfam.ledger.ok.pmm (Nat.succ_ne_zero n) with ⟨a, ha, htakes⟩ | ⟨_, heq⟩
    · have hne : (pmmAllocPages s.pmm (n + 1)).1 ≠ 0 := by
        rw [ha]
        have := htakes.pos
        omega
      have hdiv : (pmmAllocPages s.pmm (n + 1)).1 / 4096 = a := by rw [ha, Nat.mul_div_cancel a (by norm_num)]
      rw [if_neg hne, hdiv]
      refine ⟨_, rfl, ?_, htakes.total, rfl, fun x hx => ?_, fun x hx => ?_, fun h => by simp at h⟩
      · rw [show heapSet (range' a (n + 1)) =
          { x | a ≤ x ∧ x < a + (n + 1) } by ext x; simp [heapSet, mem_range'_1]]
        exact ⟨hfam.trees, hfam.ledger.takes htakes rfl⟩
      · refine ⟨htakes.total ▸ hx.1, ?_⟩
        have htest := hx.2
        rw [htakes.test, Bool.or_eq_false_iff] at htest
        exact htest.2
      · rw [mem_range'_1] at hx
        have hle := htakes.le
        exact ⟨by omega, htakes.free x (by omega) (by omega)⟩
    · rw [if_pos (by rw [heq])]
      exact ⟨[], rfl, by rw [hnil]; exact hfam.congr rfl rfl rfl, rfl, rfl, fun _ h => h, by simp, fun _ => rfl⟩

def copyKernelHalf (s : Machine) (pml4 : Nat) : Machine :=
  (List.range' 256 256).foldl (fun s i => s.write pml4 i (readEntry s.mem s.kernelPml4 i)) s

theorem copyKernelHalf_spec (s : Machine) {pml4 : Nat} (haddr : pml4 % 4096 = 0) :
    ∃ m', copyKernelHalf s pml4 = { s with mem := m' } ∧ (∀ i, i < 256 → readEntry m' pml4 i = readEntry s.mem pml4 i) ∧
      ∀ x, x % 4096 = 0 → x ≠ pml4 → SamePage s.mem m' x := by
  have hloop : ∀ (l : List Nat) (s : Machine), (∀ i ∈ l, 256 ≤ i ∧ i < 512) →
      ∃ m', l.foldl (fun s i => s.write pml4 i (readEntry s.mem s.kernelPml4 i)) s = { s with mem := m' } ∧
        (∀ i, i < 256 → readEntry m' pml4 i = readEntry s.mem pml4 i) ∧
        ∀ x, x % 4096 = 0 → x ≠ pml4 → SamePage s.mem m' x := by
    intro l
    induction l with
    | nil => exact fun s _ => ⟨s.mem, rfl, fun _ _ => rfl, fun _ _ _ _ _ _ => rfl⟩
    | cons k l ih =>
      intro s hl
      obtain ⟨hlo, hhi⟩ := hl k (mem_cons_self ..)
      obtain ⟨m', heq, hread, hsame⟩ := ih (s.write pml4 k (readEntry s.mem s.kernelPml4 k))
        fun i hi => hl i (mem_cons_of_mem _ hi)
      refine ⟨m', heq, fun i hi => ?_, fun x hx hne => ?_⟩
      · rw [hread i hi, Machine.write, readEntry_writeEntry _ haddr haddr hhi (by omega), if_neg (by omega)]
      · exact (SamePage.writeEntry _ haddr hx hhi hne).trans (hsame x hx hne)
  exact hloop _ s fun i hi => by
    rw [mem_range'_1] at hi
    omega

/-- **Creating an address space** adds an empty tree to the family; a failed call changes nothing but
the heap's pages. -/
theorem Family.create (hfam : Family s R ext lent) :
    ∃ hs, (vmmCreateAddressSpace s).2.heapFrames = hs ++ s.heapFrames ∧
      (vmmCreateAddressSpace s).2.pmm.totalPages = s.pmm.totalPages ∧ (∀ x ∈ hs, s.pmm.Free x) ∧
      match (vmmCreateAddressSpace s).1 with
      | none => hs = [] ∧ Family (vmmCreateAddressSpace s).2 R ext lent ∧
        SlotsSame s.mem (vmmCreateAddressSpace s).2.mem 256 R
      | some map => map.isKernel = false ∧ map.pml4Phys ∉ R ∧
        Family (vmmCreateAddressSpace s).2 (insert map.pml4Phys R) (ext ∪ heapSet hs) lent ∧
        (∀ q j, slot (vmmCreateAddressSpace s).2.mem 256 map.pml4Phys q j = 0) ∧
        SlotsSame s.mem (vmmCreateAddressSpace s).2.mem 256 R ∧
        (∀ x, x % 4096 = 0 → ¬ s.pmm.Free (x / 4096) → SamePage s.mem (vmmCreateAddressSpace s).2.mem x) ∧
        s.pmm.Free (map.pml4Phys / 4096) ∧ ∀ x, (vmmCreateAddressSpace s).2.pmm.Free x → s.pmm.Free x := by
  rw [vmmCreateAddressSpace]
  rcases s.allocPage_spec hfam.ledger.ok with ⟨a, p', htakes, hgot⟩ | hfail
  swap
  · rw [hfail]
    exact ⟨[], rfl, rfl, by simp, rfl, hfam.congr rfl rfl rfl, fun _ _ _ _ _ => rfl⟩
  obtain ⟨haext, halt, haz, hal⟩ := hfam.of_takes htakes
  have haddr := htakes.pageAddr hfam.ledger.ok.phys
  have hdiv : a * 4096 / 4096 = a := Nat.mul_div_cancel a (by norm_num)
  rw [hgot]
  dsimp only
  rw [if_neg (by omega), ← copyKernelHalf]
  obtain ⟨m', heq, hread, hsame⟩ := copyKernelHalf_spec
    { s with pmm := p', faults := s.faults.tail, mem := s.mem.memset (a * 4096) 0 4096 } haddr.aligned
  rw [heq]
  have hpage : ∀ x, x % 4096 = 0 → x ≠ a * 4096 → SamePage s.mem m' x := fun x hx hne =>
    (SamePage.memset 0 haddr.aligned hx hne).trans (hsame x hx hne)
  have hemp : ∀ i, i < 256 → readEntry m' (a * 4096) i = 0 := fun i hi => by
    rw [hread i hi, readEntry_memset_zero _ _ (by omega)]
  have htake : Family { s with pmm := p', faults := s.faults.tail, mem := m' } R (insert a ext) lent :=
    hfam.take htakes rfl hpage
  have hslot := slotsSame_of_fresh m' hfam.trees.forest hfam.reached_used htakes hpage
  obtain ⟨hs, hheap, hfam', htot, hmem, hfree, hhs, hnone⟩ := htake.kmalloc
  rcases hk : ({ s with pmm := p', faults := s.faults.tail, mem := m' } : Machine).kmalloc with ⟨_ | _, s'⟩
  all_goals
    rw [hk] at hheap hfam' htot hmem hfree hnone
  · rw [hnone rfl, heapSet_nil, union_empty] at hfam'
    refine ⟨[], ?_, (totalPages_pmmFreePage _ _).trans (htot.trans htakes.total), by simp, rfl, ?_, ?_⟩
    · rw [hnone rfl] at hheap
      exact hheap
    · exact hfam'.free haext (htot.symm ▸ htakes.total.symm ▸ halt) haz hal
    · show SlotsSame s.mem s'.mem 256 R
      rw [hmem]
      exact hslot
  · have hset : insert a ext ∪ heapSet hs = insert a (ext ∪ heapSet hs) := insert_union
    rw [hset] at hfam'
    have hahs : a ∉ ext ∪ heapSet hs := by
      rintro (h | h)
      · exact haext h
      · exact (htakes.free_of_free (hhs a h)).2 rfl
    refine ⟨hs, hheap, htot.trans htakes.total, fun x hx => (htakes.free_of_free (hhs x hx)).1, rfl, ?_, ?_, fun q j => ?_, ?_,
      ?_, ?_, ?_⟩
    · intro hR
      exact hfam.reached_used _ ⟨_, hR, [], by simp, walk_nil _⟩ (by rw [hdiv]; exact htakes.free_first)
    · exact hfam'.addRoot hahs (htot.symm ▸ htakes.total.symm ▸ halt) haz hal (by rw [hmem]; exact hemp)
    · rw [hmem]
      exact slot_of_empty_root hemp q j
    · rw [hmem]
      exact hslot
    · intro x hx hused
      rw [hmem]
      refine hpage x hx ?_
      rintro rfl
      exact hused (by rw [hdiv]; exact htakes.free_first)
    · rw [hdiv]
      exact htakes.free_first
    · exact fun x hx => (htakes.free_of_free (hfree x hx)).1

/-! ## Tearing down a tree -/

/-- The pages at the ends of the routes `P` of a tree. -/
def held (m : Mem) (r : Nat) (P : List Nat → Prop) : Set Nat :=
  { x | ∃ p : List Nat, p.length ≤ 4 ∧ P p ∧ walk (child m 256) r p = some (x * 4096) }

/-- A tree with root `r` that has left the family; the pages at the ends of the routes `P` have not been
freed yet. -/
structure Torn (s : Machine) (R ext lent : Set Nat) (r : Nat) (P : List Nat → Prop) : Prop where
  fam : Family s R (ext ∪ held s.mem r P) lent
  tree : Trees s.mem {r} lent
  own : ∀ x ∈ owned s.mem {r}, x ∉ ext ∧ x < s.pmm.totalPages ∧ x ≠ 0 ∧ x ∉ lent

namespace Torn

variable {P P' : List Nat → Prop}

theorem of_family (hfam : Family s R ext lent) (hr : r ∈ R) : Torn s (R \ {r}) ext lent r fun _ => True := by
  have hheld : held s.mem r (fun _ => True) = owned s.mem {r} := by
    ext x
    constructor
    · rintro ⟨p, hp, _, hw⟩
      exact ⟨r, rfl, p, hp, hw⟩
    · rintro ⟨_, rfl, p, hp, hw⟩
      exact ⟨p, hp, trivial, hw⟩
  refine ⟨hheld ▸ hfam.dropRoot hr, hfam.trees.subset (by simpa using hr), fun x hx => hfam.of_owned ?_⟩
  obtain ⟨_, rfl, p, hp, hw⟩ := hx
  exact ⟨_, hr, p, hp, hw⟩

theorem mono (h : Torn s R ext lent r P)
    (hiff : ∀ (p : List Nat) (f : Nat), p.length ≤ 4 → walk (child s.mem 256) r p = some f → (P p ↔ P' p)) :
    Torn s R ext lent r P' := by
  have hheld : held s.mem r P' = held s.mem r P := by
    ext x
    constructor
    · rintro ⟨p, hp, hP, hw⟩
      exact ⟨p, hp, (hiff p _ hp hw).mpr hP, hw⟩
    · rintro ⟨p, hp, hP, hw⟩
      exact ⟨p, hp, (hiff p _ hp hw).mp hP, hw⟩
  exact ⟨hheld ▸ h.fam, h.tree, h.own⟩

theorem free (p0 : List Nat) (h : Torn s R ext lent r P) (hP : P p0) (hlen : p0.length ≤ 4)
    (hw : walk (child s.mem 256) r p0 = some f) : Torn (s.freePage f) R ext lent r fun p => P p ∧ p ≠ p0 := by
  have hf : f / 4096 * 4096 = f :=
    Nat.div_mul_cancel (Nat.dvd_of_mod_eq_zero (walk_pageAddr (h.tree.forest.root r rfl) hw).aligned)
  have hmem : f / 4096 ∈ owned s.mem {r} := ⟨r, rfl, p0, hlen, by rw [hf, hw]⟩
  obtain ⟨hext, hlt, hzero, hlent⟩ := h.own _ hmem
  have hset : ext ∪ held s.mem r P = insert (f / 4096) (ext ∪ held s.mem r fun p => P p ∧ p ≠ p0) := by
    ext x
    constructor
    · rintro (hx | ⟨p, hp, hPp, hwp⟩)
      · exact .inr (.inl hx)
      · by_cases hpp : p = p0
        · rw [hpp, hw, Option.some.injEq] at hwp
          exact .inl (by omega)
        · exact .inr (.inr ⟨p, hp, ⟨hPp, hpp⟩, hwp⟩)
    · rintro (rfl | hx | ⟨p, hp, hPp, hwp⟩)
      · exact .inr ⟨p0, hlen, hP, by rw [hf, hw]⟩
      · exact .inl hx
      · exact .inr ⟨p, hp, hPp.1, hwp⟩
  have hout : f / 4096 ∉ ext ∪ held s.mem r fun p => P p ∧ p ≠ p0 := by
    rintro (hx | ⟨p, hp, ⟨_, hne⟩, hwp⟩)
    · exact hext hx
    · rw [hf] at hwp
      exact hne (h.tree.forest.sep rfl rfl hp hlen hwp hw).2
  have hfree := (hset ▸ h.fam).free hout hlt hzero hlent
  rw [hf] at hfree
  refine ⟨hfree, h.tree, fun x hx => ?_⟩
  obtain ⟨h1, h2, h3, h4⟩ := h.own x hx
  exact ⟨h1, (totalPages_pmmFreePage s.pmm f).symm ▸ h2, h3, h4⟩

end Torn

def Below (q p : List Nat) : Prop := q <+: p ∧ p ≠ q

/-- `s'` is `s` with all pages below the table at `q` freed. -/
def TearsBelow (s s' : Machine) (R ext lent : Set Nat) (r : Nat) (q : List Nat) : Prop :=
  s'.mem = s.mem ∧ Steady s s' ∧ ∀ P : List Nat → Prop, (∀ p, Below q p → P p) →
    Torn s R ext lent r P → Torn s' R ext lent r fun p => P p ∧ ¬ Below q p

/-- One iteration of a loop of `vmm_destroy_address_space`: free what is below an entry, then what it
points to. -/
def tearStep (d : Nat) (below : Machine → Nat → Machine) (t : Nat) (s : Machine) (i : Nat) : Machine :=
  match nodeOf d (readEntry s.mem t i) with
  | some u => (below s u).freePage u
  | none => s

theorem below_snoc {p : List Nat} (h : Below q p) : ∃ i, q ++ [i] <+: p := by
  obtain ⟨⟨rest, rfl⟩, hne⟩ := h
  cases rest with
  | nil => simp at hne
  | cons i rest => exact ⟨i, rest, by simp⟩

/-- **The teardown loop.** Freeing, entry by entry, what is below a table frees everything below it. -/
theorem tearLoop {f : Machine → Nat → Machine} (below : Machine → Nat → Machine) (hq : q.length ≤ 3)
    (ht : walk (child s.mem 256) r q = some t)
    (hf : ∀ (s' : Machine) (i : Nat), s'.mem = s.mem → i < bound 256 q.length → f s' i = tearStep q.length below t s' i)
    (hbelow : ∀ (s' : Machine) (i u : Nat), s'.mem = s.mem → walk (child s.mem 256) r (q ++ [i]) = some u →
      TearsBelow s' (below s' u) R ext lent r (q ++ [i])) :
    TearsBelow s ((List.range (bound 256 q.length)).foldl f s) R ext lent r q := by
  -- after `k` entries, everything that goes through the first `k` of them has been freed
  have hloop := foldl_range_rule (f := f) (n := bound 256 q.length) (s := s)
    (fun k s' => s'.mem = s.mem ∧ Steady s s' ∧ ∀ P : List Nat → Prop, (∀ p, Below q p → P p) →
      Torn s R ext lent r P → Torn s' R ext lent r fun p => P p ∧ ¬ ∃ i < k, q ++ [i] <+: p)
    ⟨rfl, ⟨rfl, rfl⟩, fun P _ h => h.mono fun p _ _ _ => by simp⟩ ?_
  · obtain ⟨hmem, hstay, htorn⟩ := hloop
    refine ⟨hmem, hstay, fun P hP h => (htorn P hP h).mono fun p f hp hw => ?_⟩
    refine and_congr_right fun _ => not_congr ⟨?_, fun hb => ?_⟩
    · rintro ⟨i, _, hpre⟩
      refine ⟨(prefix_append q [i]).trans hpre, ?_⟩
      rintro rfl
      simpa using hpre.length_le
    · obtain ⟨i, hpre⟩ := below_snoc hb
      refine ⟨i, ?_, hpre⟩
      by_contra hi
      obtain ⟨u, hu⟩ := walk_along hpre hw
      rw [walk_snoc_slot, slot_of_bound hi, nodeOf_zero] at hu
      simp at hu
  · rintro k s' hk ⟨hmem, hstay, htorn⟩
    have hent : nodeOf q.length (readEntry s'.mem t k) = walk (child s.mem 256) r (q ++ [k]) := by
      rw [hmem, walk_snoc_slot, slot_of_walk ht hk]
    rw [hf s' k hmem hk, tearStep, hent]
    cases hu : walk (child s.mem 256) r (q ++ [k]) with
    | none =>
      refine ⟨hmem, hstay, fun P hP h => (htorn P hP h).mono fun p f hp hw => ?_⟩
      rw [hmem] at hw
      refine and_congr_right fun _ => not_congr ⟨fun ⟨i, hi, hpre⟩ => ⟨i, by omega, hpre⟩, fun ⟨i, hi, hpre⟩ => ?_⟩
      refine ⟨i, ?_, hpre⟩
      rcases Nat.lt_succ_iff_lt_or_eq.mp hi with hlt | rfl
      · exact hlt
      · rw [walk_none_below hpre hu] at hw
        simp at hw
    | some u =>
      obtain ⟨hmem', hstay', htorn'⟩ := hbelow s' k u hmem hu
      refine ⟨hmem'.trans hmem, (hstay.trans hstay').trans (Steady.freePage _ _), fun P hP h => ?_⟩
      have hbelowP : ∀ p, Below (q ++ [k]) p → P p ∧ ¬ ∃ i < k, q ++ [i] <+: p := by
        rintro p ⟨hpre, _⟩
        refine ⟨hP p ⟨(prefix_append q [k]).trans hpre, ?_⟩, ?_⟩
        · rintro rfl
          simpa using hpre.length_le
        · rintro ⟨i, hi, hpre'⟩
          have := (prefix_of_prefix_length_le hpre' hpre (by simp)).eq_of_length (by simp)
          simp at this
          omega
      have h1 := htorn' _ hbelowP (htorn P hP h)
      have h2 := h1.free (q ++ [k]) ⟨⟨hP _ ⟨prefix_append q [k], by simp⟩, ?_⟩, fun hb => hb.2 rfl⟩
        (by simp; omega) (by rw [hmem', hmem, hu])
      · refine h2.mono fun p f hp hw => ?_
        constructor
        · rintro ⟨⟨⟨hPp, hno⟩, hnb⟩, hne⟩
          refine ⟨hPp, ?_⟩
          rintro ⟨i, hi, hpre⟩
          rcases Nat.lt_succ_iff_lt_or_eq.mp hi with hlt | rfl
          · exact hno ⟨i, hlt, hpre⟩
          · exact hnb ⟨hpre, hne⟩
        · rintro ⟨hPp, hno⟩
          refine ⟨⟨⟨hPp, fun ⟨i, hi, hpre⟩ => hno ⟨i, by omega, hpre⟩⟩, fun hb => hno ⟨k, by omega, hb.1⟩⟩, ?_⟩
          rintro rfl
          exact hno ⟨k, by omega, prefix_refl _⟩
      · rintro ⟨i, hi, hpre⟩
        have := hpre.eq_of_length (by simp)
        simp at this
        omega

theorem destroyPt_tears {pt : Nat} (hq : q.length = 3) (ht : walk (child s.mem 256) r q = some pt) :
    TearsBelow s (destroyPt s pt) R ext lent r q := by
  have hb : bound 256 q.length = 512 := by rw [bound, if_neg (by omega)]
  rw [destroyPt, ← hb]
  refine tearLoop (fun s _ => s) (by omega) ht (fun s' i _ _ => ?_) fun s' i u _ _ => ?_
  · rw [tearStep, hq, nodeOf_three]
    dsimp only
    cases has (readEntry s'.mem pt i) flagPresent <;> cases has (readEntry s'.mem pt i) flagBorrowed <;> rfl
  · refine ⟨rfl, ⟨rfl, rfl⟩, fun P hP h => h.mono fun p f hp _ => ⟨fun hPp => ⟨hPp, fun hb => ?_⟩, fun hPp => hPp.1⟩⟩
    obtain ⟨j, hpre⟩ := below_snoc hb
    have := hpre.length_le
    simp only [length_append, length_singleton] at this
    omega

theorem destroyLevel_tears {n : Nat} {below : Machine → Nat → Machine} (hq : q.length < 3)
    (hn : n = bound 256 q.length) (ht : walk (child s.mem 256) r q = some t) (htree : Trees s.mem {r} lent)
    (hbelow : ∀ (s' : Machine) (i u : Nat), s'.mem = s.mem → walk (child s.mem 256) r (q ++ [i]) = some u →
      TearsBelow s' (below s' u) R ext lent r (q ++ [i])) : TearsBelow s (destroyLevel n below s t) R ext lent r q := by
  rw [destroyLevel, hn]
  refine tearLoop below (by omega) ht (fun s' i hmem hi => ?_) hbelow
  rw [tearStep, hmem, ← slot_of_walk ht hi, htree.node_present rfl hq]
  dsimp only
  cases has (slot s.mem 256 r q i) flagPresent <;> rfl

/-- **Destroying an address space** frees every page it owns and leaves the rest of the family alone. -/
theorem Family.destroy {map : Pagemap} (hfam : Family s R ext lent) (hr : map.pml4Phys ∈ R)
    (hkern : map.isKernel = false) :
    Family (vmmDestroyAddressSpace s map) (R \ {map.pml4Phys}) ext lent ∧
      Steady s (vmmDestroyAddressSpace s map) ∧ (vmmDestroyAddressSpace s map).mem = s.mem := by
  have htorn := Torn.of_family hfam hr
  have htree := htorn.tree
  have htears : TearsBelow s (destroyLevel 256 (destroyLevel 512 (destroyLevel 512 destroyPt)) s map.pml4Phys)
      (R \ {map.pml4Phys}) ext lent map.pml4Phys [] := by
    refine destroyLevel_tears (by simp) rfl (walk_nil _) htree fun s1 i pdpt h1 hi => ?_
    rw [← h1] at hi htree
    refine destroyLevel_tears (by simp) rfl hi htree fun s2 j pd h2 hj => ?_
    rw [← h2] at hj htree
    refine destroyLevel_tears (by simp) rfl hj htree fun s3 k pt h3 hk => ?_
    rw [← h3] at hk
    exact destroyPt_tears (by simp) hk
  obtain ⟨hmem, hstay, hpost⟩ := htears
  have h1 := hpost _ (fun _ _ => trivial) htorn
  have h2 := h1.free [] ⟨trivial, fun h => h.2 rfl⟩ (by simp) (walk_nil _)
  rw [vmmDestroyAddressSpace, hkern, if_neg (by simp)]
  refine ⟨?_, hstay.trans (Steady.freePage _ _), hmem⟩
  have hfam' := h2.fam
  have hheld : ∀ m : Mem, held m map.pml4Phys (fun p => (True ∧ ¬ Below [] p) ∧ p ≠ []) = ∅ := by
    intro m
    ext x
    simp only [held, Below, nil_prefix, true_and, mem_ofPred_eq, mem_empty_iff_false, iff_false]
    rintro ⟨p, _, ⟨h, h'⟩, _⟩
    exact h h'
  rw [hheld, union_empty] at hfam'
  exact hfam'

end SzpontOS.Mm
