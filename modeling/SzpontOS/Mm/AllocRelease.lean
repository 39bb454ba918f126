import SzpontOS.Mm.RangeFlags

/-!
# Allocating a user page and releasing it again

`vmm_alloc_user_page` makes the tables that are missing on the way to the page; then `vmm_release_user_page` clears the
leaf and takes away empty tables from the bottom up. The new tables form a chain (`Chain`): each is linked into an entry
that was zero, and the last one is empty. The reclaim loop (`reclaimUp`) undoes a chain link by link (`Chain.undo`) and
stops at the first table that was there before, since no such table is entirely zero (`Pruned`).
-/

namespace SzpontOS.Mm

open Lib Lib.Radix List Bool Option

/-! ## Pruned trees -/

/-- A page-table tree in allocated pages in which no table is reached twice, entries that are not present are zero,
and no table of the user half is entirely zero. -/
structure Pruned (s : Machine) (top r : Nat) : Prop where
  ok : s.Ok
  forest : Forest s.mem top {r} 3
  used : ∀ t, Reached s.mem top {r} 3 t → ¬ s.pmm.Free (t / 4096)
  absent : ∀ (p : List Nat) (i : Nat), p.length ≤ 3 → has (slot s.mem top r p i) flagPresent = false →
    slot s.mem top r p i = 0
  full : ∀ (i : Nat) (p : List Nat) (t : Nat), i < 256 → p.length ≤ 2 → walk (child s.mem top) r (i :: p) = some t →
    ∃ k, k < 512 ∧ readEntry s.mem t k ≠ 0

/-- `y` has the entries of `s` in every page that is in use in `s`. -/
def SameEntries (s y : Machine) : Prop :=
  ∀ x, x % 4096 = 0 → ¬ s.pmm.Free (x / 4096) → ∀ k, k < 512 → readEntry y.mem x k = readEntry s.mem x k

/-- The pages in use in `y` are those of `x` without `a`. -/
structure UsedBut (x y : Machine) (a : Nat) : Prop where
  total : y.pmm.totalPages = x.pmm.totalPages
  test : ∀ b, y.pmm.bitmapTest b = (decide (b ≠ a) && x.pmm.bitmapTest b)

variable {top i v t pt : Nat} {y : Machine}

section Fresh

variable {s : Machine} {p' : Pmm} {a : Nat}

theorem Takes.other (htake : Takes s.pmm p' a 1) {x : Nat} (hused : ¬ s.pmm.Free (x / 4096)) :
    x ≠ a * 4096 ∧ ¬ p'.Free (x / 4096) := by
  refine ⟨?_, fun h => hused (htake.free_of_free h).1⟩
  rintro rfl
  rw [Nat.mul_div_cancel a (by norm_num)] at hused
  exact hused htake.free_first

theorem Takes.taken (htake : Takes s.pmm p' a 1) : ¬ p'.Free (a * 4096 / 4096) := by
  rw [Nat.mul_div_cancel a (by norm_num)]
  exact fun h => (htake.free_of_free h).2 rfl

theorem Pruned.take {r : Nat} (h : Pruned s top r) (htake : Takes s.pmm p' a 1) (fs : List Bool) :
    Pruned { s with pmm := p', faults := fs, mem := s.mem.memset (a * 4096) 0 4096 } top r ∧
      SlotsSame s.mem (s.mem.memset (a * 4096) 0 4096) top {r} := by
  have haddr := htake.pageAddr h.ok.phys
  have hsame := slotsSame_of_fresh (s.mem.memset (a * 4096) 0 4096) h.forest h.used htake
    fun x hx hne => .memset 0 haddr.aligned hx hne
  have hslot : ∀ (p : List Nat) (i : Nat), p.length ≤ 3 →
      slot (s.mem.memset (a * 4096) 0 4096) top r p i = slot s.mem top r p i := fun p i hp => hsame r rfl p i hp
  have hwalk : ∀ p : List Nat, p.length ≤ 4 → walk (child (s.mem.memset (a * 4096) 0 4096) top) r p =
      walk (child s.mem top) r p := fun p hp => Forest.walk_same hsame rfl hp
  refine ⟨⟨⟨htake.wf, htake.total ▸ h.ok.phys⟩, h.forest.same hsame, ?_, fun p i hp => ?_, fun i p t hi hp ht => ?_⟩,
    hsame⟩
  · rintro t ⟨_, rfl, p, hp, ht⟩
    rw [hwalk p (by omega)] at ht
    exact (htake.other (h.used t ⟨_, rfl, p, hp, ht⟩)).2
  · rw [hslot p i hp]
    exact h.absent p i hp
  · have hlen : (i :: p).length ≤ 3 := by
      rw [length_cons]
      omega
    rw [hwalk _ (by omega)] at ht
    obtain ⟨k, hk, hne⟩ := h.full i p t hi hp ht
    have hreach : Reached s.mem top {r} 3 t := ⟨r, rfl, i :: p, hlen, ht⟩
    refine ⟨k, hk, ?_⟩
    rwa [(SamePage.memset 0 haddr.aligned (h.forest.table_pageAddr hreach).aligned
      (htake.other (h.used t hreach)).1).readEntry hk]

end Fresh

/-! ## The reclaim loop -/

/-- One step of the way to a page table: entry `index` of `parent` points to `table`. -/
structure Rung where
  parent : Nat
  index : Nat
  table : Nat

/-- The reclaim loop of `vmm_release_user_page` over the steps of the way, from the bottom up. -/
def reclaimUp : List Rung → Machine → Machine
  | [], s => s
  | g :: rungs, s =>
    if !tableEmpty s.mem g.table then s
    else reclaimUp rungs ((s.write g.parent g.index 0).freePage (entryAddr (readEntry s.mem g.parent g.index)))

/-- The steps of the way `p` in a tree, from the bottom up. -/
inductive Ladder (m : Mem) (top r : Nat) : List Nat → List Rung → Prop where
  | root : Ladder m top r [] []
  | down {p : List Nat} {rungs : List Rung} {t i u : Nat} (above : Ladder m top r p rungs)
      (ht : walk (child m top) r p = some t) (hu : walk (child m top) r (p ++ [i]) = some u) :
      Ladder m top r (p ++ [i]) (⟨t, i, u⟩ :: rungs)

namespace Ladder

variable {m m' : Mem} {r : Nat} {p q : List Nat} {rungs : List Rung}

theorem last (h : Ladder m top r q rungs) (hq : q = p ++ [i]) :
    ∃ t u rest, rungs = ⟨t, i, u⟩ :: rest ∧ walk (child m top) r p = some t ∧
      walk (child m top) r (p ++ [i]) = some u ∧ Ladder m top r p rest := by
  cases h with
  | root => simp at hq
  | down above ht hu =>
    obtain ⟨rfl, rfl⟩ := append_singleton_inj.mp hq
    exact ⟨_, _, _, rfl, ht, hu, above⟩

theorem of_nil (h : Ladder m top r q rungs) (hq : q = []) : rungs = [] := by
  cases h with
  | root => rfl
  | down above _ _ => simp at hq

theorem congr (h : Ladder m top r p rungs)
    (hwalk : ∀ q, q <+: p → walk (child m' top) r q = walk (child m top) r q) : Ladder m' top r p rungs := by
  induction h with
  | root => exact root
  | @down p rungs t i u above ht hu ih =>
    have hp : p <+: p ++ [i] := prefix_append p [i]
    refine down (ih fun q hq => hwalk q (hq.trans hp)) ?_ ?_
    · rw [hwalk p hp, ht]
    · rw [hwalk _ (prefix_refl _), hu]

theorem of_route (h : Ladder m top r (route v) rungs) :
    ∃ pdpt pd pt, walk (child m top) r [pml4Index v] = some pdpt ∧
      walk (child m top) r [pml4Index v, pdptIndex v] = some pd ∧ walk (child m top) r (route v) = some pt ∧
      rungs = [⟨pd, pdIndex v, pt⟩, ⟨pdpt, pdptIndex v, pd⟩, ⟨r, pml4Index v, pdpt⟩] := by
  obtain ⟨pd, pt, rest, rfl, hpd, hpt, h2⟩ := h.last (p := [pml4Index v, pdptIndex v]) rfl
  obtain ⟨pdpt, pd', rest, rfl, hpdpt, hpd', h1⟩ := h2.last (p := [pml4Index v]) rfl
  obtain ⟨r', pdpt', rest, rfl, hr', hpdpt', h0⟩ := h1.last (p := []) rfl
  obtain rfl := some.inj (hpd.symm.trans hpd')
  obtain rfl := some.inj (hpdpt.symm.trans hpdpt')
  obtain rfl := some.inj ((walk_nil _).symm.trans hr')
  obtain rfl := h0.of_nil rfl
  exact ⟨pdpt, pd, pt, hpdpt, hpd, hpt, rfl⟩

end Ladder

theorem bound_of_route {p : List Nat} (hv : pml4Index v < top) (h : p ++ [i] <+: route v) : i < bound top p.length := by
  rcases snoc_prefix_route.mp h with ⟨rfl, rfl⟩ | ⟨rfl, rfl⟩ | ⟨rfl, rfl⟩
  · simpa [bound] using hv
  · simp [bound, pdptIndex_lt]
  · simp [bound, pdIndex_lt]

/-- The source's loop is `reclaimUp` over the tables that it finds. -/
theorem reclaimTables_eq {map : Pagemap} {rungs : List Rung} (hv : pml4Index v < top)
    (h : Ladder y.mem top map.pml4Phys (route v) rungs) : reclaimTables y map v = reclaimUp rungs y := by
  obtain ⟨pdpt, pd, pt, hpdpt, hpd, hpt, rfl⟩ := h.of_route
  have e0 := Family.entryAddr_of_walk (p := []) (by simp) (by simpa [bound] using hv) (walk_nil _) hpdpt
  have e1 := Family.entryAddr_of_walk (by simp) (by simp [bound, pdptIndex_lt]) hpdpt hpd
  have e2 := Family.entryAddr_of_walk (by simp) (by simp [bound, pdIndex_lt]) hpd hpt
  rw [reclaimTables]
  simp only [e0, e1]
  simp only [reclaimUp, e2]

/-! ## The chain of new tables -/

/-- The machine `x` that the descents along `p` leave when they start in `s`: `s` itself while the tables are there,
then one fresh empty table below the other. -/
inductive Chain (top r v : Nat) (flags : Word) (s : Machine) : List Nat → List Rung → Machine → Prop where
  | found {p : List Nat} {rungs : List Rung} (hp : p <+: route v) (hladder : Ladder s.mem top r p rungs) :
      Chain top r v flags s p rungs s
  | create {p : List Nat} {rungs : List Rung} {x : Machine} {t i a : Nat} {p' : Pmm} {fs : List Bool}
      (above : Chain top r v flags s p rungs x) (hroute : p ++ [i] <+: route v)
      (ht : walk (child x.mem top) r p = some t) (hzero : readEntry x.mem t i = 0) (htakes : Takes x.pmm p' a 1) :
      Chain top r v flags s (p ++ [i]) (⟨t, i, a * 4096⟩ :: rungs)
        { x with pmm := p', faults := fs, mem := linkMem x.mem t i (a * 4096) flags }

structure ChainInv (top r : Nat) (s : Machine) (p : List Nat) (rungs : List Rung) (x : Machine) : Prop where
  ok : x.Ok
  total : x.pmm.totalPages = s.pmm.totalPages
  forest : Forest x.mem top {r} 3
  used : ∀ t, Reached x.mem top {r} 3 t → ¬ x.pmm.Free (t / 4096)
  ladder : Ladder x.mem top r p rungs
  fresh : x = s ∨ ∀ t, walk (child x.mem top) r p = some t → ∀ k, k < 512 → readEntry x.mem t k = 0

/-- The memory with a new table: the new table is empty, one entry points to it, all else is as before. -/
theorem readEntry_linkMem {m : Mem} {a x k : Nat} (flags : Word) (ht : t % 4096 = 0) (ha : a % 4096 = 0)
    (hx : x % 4096 = 0) (hi : i < 512) (hk : k < 512) :
    readEntry (linkMem m t i a flags) x k =
      if x = t ∧ k = i then linkEntry a flags else if x = a then 0 else readEntry m x k := by
  rw [linkMem, readEntry_writeEntry _ ht hx hi hk]
  by_cases hhere : x = t ∧ k = i
  · rw [if_pos hhere, if_pos hhere]
  · by_cases hxa : x = a
    · rw [if_pos hxa, hxa, readEntry_memset_zero _ _ hk]
    · rw [if_neg hxa, (SamePage.memset 0 ha hx hxa).readEntry hk]

namespace Chain

variable {r : Nat} {flags : Word} {s x : Machine} {p : List Nat} {rungs : List Rung}

theorem inv (hs : Pruned s top r) (hv : pml4Index v < top) (h : Chain top r v flags s p rungs x) :
    ChainInv top r s p rungs x := by
  induction h with
  | found hp hladd => exact ⟨hs.ok, rfl, hs.forest, hs.used, hladd, .inl rfl⟩
  | @create p rungs x t i a p' fs above hroute ht hzero htake ih =>
    have hp := length_lt_of_route hroute
    have hi := bound_of_route hv hroute
    have haddr := htake.pageAddr ih.ok.phys
    have hold : nodeOf p.length (slot x.mem top r p i) = none := by
      rw [slot_of_walk ht hi, hzero, nodeOf_zero]
    have hupd : SlotsUpdate x.mem (linkMem x.mem t i (a * 4096) flags) top {r} r p i (linkEntry (a * 4096) flags) :=
      slotsUpdate_linkMem ih.ok ih.forest ih.used htake rfl hp ht hi hold
    have hwalk : ∀ q : List Nat, q.length ≤ 4 → walk (child (linkMem x.mem t i (a * 4096) flags) top) r q =
        if q = p ++ [i] then some (a * 4096) else walk (child x.mem top) r q := by
      intro q hq
      rw [Forest.walk_update hupd rfl hq, nodeOf_linkEntry haddr hp]
      exact if_congr (by simp) rfl rfl
    have hlen : (p ++ [i]).length ≤ 4 := by
      rw [length_append, length_singleton]
      omega
    have hnew : walk (child (linkMem x.mem t i (a * 4096) flags) top) r (p ++ [i]) = some (a * 4096) := by
      rw [hwalk _ hlen, if_pos rfl]
    have habove : ∀ q, q <+: p → walk (child (linkMem x.mem t i (a * 4096) flags) top) r q =
        walk (child x.mem top) r q := by
      intro q hq
      have hqlen := hq.length_le
      rw [hwalk q (by omega), if_neg]
      rintro rfl
      simp at hqlen
    have htab : Reached x.mem top {r} 3 t := ⟨r, rfl, p, by omega, ht⟩
    refine ⟨⟨htake.wf, htake.total ▸ ih.ok.phys⟩, htake.total.trans ih.total, ih.forest.update hupd ?_, ?_, ?_, .inr ?_⟩
    · -- the new table is new to the forest
      intro f _ hf r' hr' q hq hw
      rw [nodeOf_linkEntry haddr hp, some.injEq] at hf
      exact absurd hf.symm (ne_of_fresh ih.used htake ⟨r', hr', q, hq, hw⟩)
    · rintro f ⟨_, rfl, q, hq, hw⟩
      replace hw := (hwalk q (by omega)).symm.trans hw
      split_ifs at hw
      · rw [← some.inj hw]
        exact htake.taken
      · exact (htake.other (ih.used f ⟨_, rfl, q, hq, hw⟩)).2
    · exact .down (ih.ladder.congr habove) ((habove p (prefix_refl p)).trans ht) hnew
    · intro u hu k hk
      obtain rfl := some.inj (hnew.symm.trans hu)
      have hta := (htake.other (ih.used t htab)).1
      rw [readEntry_linkMem _ (ih.forest.table_pageAddr htab).aligned haddr.aligned haddr.aligned
        (lt_of_lt_of_le hi (bound_le ih.forest.top_le _)) hk, if_neg (fun h => hta h.1.symm), if_pos rfl]

/-- **The reclaim loop undoes a chain.** It removes the tables that were made, and stops at the first one that was
there before. -/
theorem undo (hs : Pruned s top r) (hv : pml4Index v < top) (huser : pml4Index v < 256)
    (h : Chain top r v flags s p rungs x) (hy : SameEntries x y) :
    SameEntries s (reclaimUp rungs y) ∧ ∀ b, UsedBut x y b → UsedBut s (reclaimUp rungs y) b := by
  induction h generalizing y with
  | found hp hladd =>
    cases hladd with
    | root => exact ⟨hy, fun _ h => h⟩
    | @down p rungs t i u above ht hu =>
      have hlen := hp.length_le
      rw [length_route] at hlen
      have hreach : Reached s.mem top {r} 3 u := ⟨r, rfl, p ++ [i], hlen, hu⟩
      have hfull : ∃ k, k < 512 ∧ readEntry s.mem u k ≠ 0 := by
        cases hq : p ++ [i] with
        | nil => simp at hq
        | cons i0 q =>
          rw [hq] at hp hlen hu
          obtain ⟨rfl, -⟩ := cons_prefix_cons.mp hp
          rw [length_cons] at hlen
          exact hs.full _ q u huser (by omega) hu
      have hkeep : tableEmpty y.mem u = false := by
        obtain ⟨k, hk, hne⟩ := hfull
        rw [eq_false_iff]
        intro hemp
        have hzero := Family.tableEmpty_spec.mp hemp k hk
        rw [hy u (hs.forest.table_pageAddr hreach).aligned (hs.used u hreach) k hk] at hzero
        exact hne hzero
      simp only [reclaimUp, hkeep, Bool.not_false, ↓reduceIte]
      exact ⟨hy, fun _ h => h⟩
  | @create p rungs x t i a p' fs above hroute ht hzero htake ih =>
    have hinv := above.inv hs hv
    have hp := length_lt_of_route hroute
    have hi := lt_of_lt_of_le (bound_of_route hv hroute) (bound_le hinv.forest.top_le _)
    have haddr := htake.pageAddr hinv.ok.phys
    have htab : Reached x.mem top {r} 3 t := ⟨r, rfl, p, by omega, ht⟩
    have halign := (hinv.forest.table_pageAddr htab).aligned
    have hta := htake.other (hinv.used t htab)
    -- what `y` holds in the new table and in the entry that points to it
    have hread : ∀ z k, z % 4096 = 0 → ¬ p'.Free (z / 4096) → k < 512 → readEntry y.mem z k =
        if z = t ∧ k = i then linkEntry (a * 4096) flags else if z = a * 4096 then 0 else readEntry x.mem z k :=
      fun z k hz hused hk => (hy z hz hused k hk).trans
        (readEntry_linkMem flags halign haddr.aligned hz hi hk)
    have hemp : tableEmpty y.mem (a * 4096) = true := by
      refine Family.tableEmpty_spec.mpr fun k hk => ?_
      rw [hread _ k haddr.aligned htake.taken hk, if_neg (fun h => hta.1 h.1.symm), if_pos rfl]
    have hlink : entryAddr (readEntry y.mem t i) = a * 4096 := by
      rw [hread t i halign hta.2 hi, if_pos ⟨rfl, rfl⟩, linkEntry_addr haddr]
    simp only [reclaimUp, hemp, hlink, Bool.not_true, Bool.false_eq_true, ↓reduceIte]
    have hback : SameEntries x ((y.write t i 0).freePage (a * 4096)) := by
      intro z hz hused k hk
      have hza := htake.other hused
      show readEntry (writeEntry y.mem t i 0) z k = readEntry x.mem z k
      rw [readEntry_writeEntry 0 halign hz hi hk]
      by_cases hhere : z = t ∧ k = i
      · rw [if_pos hhere, hhere.1, hhere.2, hzero]
      · rw [if_neg hhere, hread z k hz hza.2 hk, if_neg hhere, if_neg hza.1]
    obtain ⟨hents, hpage⟩ := ih hback
    refine ⟨hents, fun b hb => hpage b ⟨?_, fun c => ?_⟩⟩
    · exact (totalPages_pmmFreePage _ _).trans (hb.total.trans htake.total)
    · have hlt : a * 4096 / 4096 < y.pmm.totalPages := by
        rw [Nat.mul_div_cancel a (by norm_num), hb.total]
        exact htake.total ▸ htake.free_first.1
      show (pmmFreePage y.pmm (a * 4096)).bitmapTest c = _
      rw [bitmapTest_pmmFreePage _ _ _ hlt, hb.test c, Nat.mul_div_cancel a (by norm_num)]
      rw [htake.test_one]
      by_cases hca : c = a
      · rw [hca, htake.free_first.2]
        simp
      · simp [hca]

section

variable (hs : Pruned s top r) (hv : pml4Index v < top)
  (hplain : ∀ (q : List Nat) (j : Nat), q ++ [j] <+: route v → has (slot s.mem top r q j) flagPresent = true → has (slot s.mem top r q j) flagHuge = false)

include hs hv hplain

theorem next {u level : Nat} {x' : Machine} (h : Chain top r v flags s p rungs x) (hroute : p ++ [i] <+: route v)
    (ht : walk (child x.mem top) r p = some t)
    (hget : getNextLevel x t i level true (flags &&& flagUser) = (some u, x')) :
    ∃ rungs', Chain top r v flags s (p ++ [i]) rungs' x' ∧ walk (child x'.mem top) r (p ++ [i]) = some u := by
  have hinv := h.inv hs hv
  have hp := length_lt_of_route hroute
  have hi := bound_of_route hv hroute
  have hslot := slot_of_walk ht hi
  -- an entry of an old table is present and points to a table, or zero; an entry of a new one is zero
  have hent : x = s ∧ has (slot x.mem top r p i) flagPresent = true ∧ has (slot x.mem top r p i) flagHuge = false ∨
      slot x.mem top r p i = 0 := by
    rcases hinv.fresh with rfl | hemp
    · cases hpres : has (slot x.mem top r p i) flagPresent with
      | true => exact .inl ⟨rfl, rfl, hplain p i hroute hpres⟩
      | false => exact .inr (hs.absent p i (by omega) hpres)
    · rw [hslot]
      exact .inr (hemp t ht i (lt_of_lt_of_le hi (bound_le hinv.forest.top_le _)))
  rcases getNextLevel_spec level flags hinv.ok hinv.forest hinv.used rfl hp ht hi (by
      rcases hent with ⟨-, -, h⟩ | h
      · exact fun _ => h
      · rw [h]
        simp) with
    ⟨u', hnode, heq⟩ | ⟨-, heq⟩ | ⟨hnode, a, p', htake, heq, hupd⟩
  · rw [heq, Prod.mk.injEq, some.injEq] at hget
    obtain ⟨rfl, rfl⟩ := hget
    have hu : walk (child x.mem top) r (p ++ [i]) = some u' := by rw [walk_snoc_slot, hnode]
    rcases hent with ⟨rfl, -⟩ | hzero
    · exact ⟨_, found hroute (.down hinv.ladder ht hu), hu⟩
    · rw [hzero, nodeOf_zero] at hnode
      simp at hnode
  · rw [heq] at hget
    simp at hget
  · rw [heq, Prod.mk.injEq, some.injEq] at hget
    obtain ⟨rfl, rfl⟩ := hget
    have hzero : readEntry x.mem t i = 0 := by
      rcases hent with ⟨-, hpres, hhuge⟩ | hzero
      · rw [(nodeOf_eq_none hp).mp hnode hpres] at hhuge
        simp at hhuge
      · rw [← hslot, hzero]
    refine ⟨_, create h hroute ht hzero htake, ?_⟩
    have hlen : (p ++ [i]).length ≤ 4 := by
      rw [length_append, length_singleton]
      omega
    rw [Forest.walk_update hupd rfl hlen, if_pos ⟨rfl, rfl⟩, nodeOf_linkEntry (htake.pageAddr hinv.ok.phys) hp]

theorem of_descend (hdesc : descend s r v flags = (some pt, x)) :
    ∃ rungs, Chain top r v flags s (route v) rungs x ∧ walk (child x.mem top) r (route v) = some pt := by
  rw [descend] at hdesc
  rcases hget1 : getNextLevel s r (pml4Index v) 3 true (flags &&& flagUser) with ⟨_ | pdpt, s1⟩
  · rw [hget1] at hdesc
    simp at hdesc
  rw [hget1] at hdesc
  dsimp only at hdesc
  have hst0 : Chain top r v flags s [] [] s := found nil_prefix Ladder.root
  obtain ⟨_, hchain1, hwalk1⟩ := hst0.next hs hv hplain ⟨[pdptIndex v, pdIndex v], rfl⟩ (walk_nil _) hget1
  rcases hget2 : getNextLevel s1 pdpt (pdptIndex v) 2 true (flags &&& flagUser) with ⟨_ | pd, s2⟩
  · rw [hget2] at hdesc
    simp at hdesc
  rw [hget2] at hdesc
  obtain ⟨_, hchain2, hwalk2⟩ := hchain1.next hs hv hplain ⟨[pdIndex v], rfl⟩ hwalk1 hget2
  exact hchain2.next hs hv hplain (prefix_refl _) hwalk2 hdesc

end

end Chain

/-! ## Allocation, then release -/

section Inverse

variable {s : Machine} {map : Pagemap} {flags : Word}

theorem allocUserPage_success (hok : s.Ok) (hmap : map.isKernel = false) (hrange : vmmUserRange v 4096 = true)
    (hunt : vmmVirtToPhys s.mem map v = 0) (hsucc : (vmmAllocUserPage s map v flags).1 = true) :
    ∃ a p' pt x, Takes s.pmm p' a 1 ∧
      descend { s with pmm := p', faults := s.faults.tail, mem := s.mem.memset (a * 4096) 0 4096 } map.pml4Phys v
        (userFlags flags) = (some pt, x) ∧
      (vmmAllocUserPage s map v flags).2 = x.write pt (ptIndex v) (leafEntry (a * 4096) (userFlags flags)) := by
  rcases s.allocPage_spec hok with ⟨a, p', htake, hgot⟩ | hfail
  · have hpage : pageDown (a * 4096) = a * 4096 := by
      rw [pageDown, Nat.mul_div_cancel a (by norm_num)]
    have haz : a ≠ 0 := by
      have := htake.pos
      omega
    rw [vmmAllocUserPage_eq hunt haz hgot] at hsucc ⊢
    dsimp only at hsucc ⊢
    rw [vmmMapPage_eq, hmap, hrange, hpage] at hsucc ⊢
    rcases hdesc : descend { s with pmm := p', faults := s.faults.tail, mem := s.mem.memset (a * 4096) 0 4096 }
        map.pml4Phys v (userFlags flags) with ⟨_ | pt, x⟩
    · rw [hdesc] at hsucc
      simp at hsucc
    · exact ⟨a, p', pt, x, htake, hdesc, rfl⟩
  · rw [vmmAllocUserPage, if_neg (not_not.mpr hunt), hfail] at hsucc
    simp at hsucc

theorem releaseUserPage_eq {z : Machine} (hv : pml4Index v < top) (hmap : map.isKernel = false)
    (hrange : vmmUserRange v 4096 = true) (hpt : walk (child z.mem top) map.pml4Phys (route v) = some pt)
    (hpres : has (readEntry z.mem pt (ptIndex v)) flagPresent = true) :
    (vmmReleaseUserPage z map v).2 =
      reclaimTables (Family.clearLeaf z pt (ptIndex v) (readEntry z.mem pt (ptIndex v))) map v := by
  rw [vmmReleaseUserPage, hmap, hrange, userLeaf_eq _ _ _ hv, hpt]
  simp only [map_some, Bool.not_true, Bool.or_false, Bool.false_eq_true, ↓reduceIte, hpres]
  rfl

/-- Releasing the leaf at the end of a chain gives the entries back that were there before the chain. -/
theorem Chain.release {x : Machine} {rungs : List Rung} {leaf : Word} (hs : Pruned s top map.pml4Phys)
    (htop : 256 ≤ top) (hmap : map.isKernel = false) (hrange : vmmUserRange v 4096 = true)
    (hchain : Chain top map.pml4Phys v flags s (route v) rungs x)
    (hpt : walk (child x.mem top) map.pml4Phys (route v) = some pt) (hzero : readEntry x.mem pt (ptIndex v) = 0)
    (hpres : has leaf flagPresent = true) :
    SameEntries s (vmmReleaseUserPage (x.write pt (ptIndex v) leaf) map v).2 ∧
      (has leaf flagBorrowed = false → entryAddr leaf / 4096 < s.pmm.totalPages →
        UsedBut s (vmmReleaseUserPage (x.write pt (ptIndex v) leaf) map v).2 (entryAddr leaf / 4096)) := by
  have huser := pml4Index_lt_of_userRange hrange
  have hv := lt_of_lt_of_le huser htop
  have hinv := hchain.inv hs hv
  have halign := (hinv.forest.table_pageAddr ⟨_, rfl, route v, length_route_le v, hpt⟩).aligned
  have hi := ptIndex_lt v
  have hupd : SlotsUpdate x.mem (x.write pt (ptIndex v) leaf).mem top {map.pml4Phys} map.pml4Phys (route v) (ptIndex v)
      leaf := hinv.forest.slot_leaf rfl (length_route v) hpt hi
  have hptz : walk (child (x.write pt (ptIndex v) leaf).mem top) map.pml4Phys (route v) = some pt := by
    rw [Forest.walk_update hupd rfl (by simp [route]), if_neg (by simp), hpt]
  have hold : readEntry (x.write pt (ptIndex v) leaf).mem pt (ptIndex v) = leaf :=
    (readEntry_writeEntry leaf halign halign hi hi).trans (if_pos ⟨rfl, rfl⟩)
  rw [releaseUserPage_eq hv hmap hrange hptz (hold.symm ▸ hpres), hold]
  have hclear := Family.clearLeaf_mem (x.write pt (ptIndex v) leaf) pt (ptIndex v) leaf
  generalize hy : Family.clearLeaf (x.write pt (ptIndex v) leaf) pt (ptIndex v) leaf = y at hclear
  -- with the leaf cleared, all entries are those of the chain
  have hback : ∀ w k, w % 4096 = 0 → k < 512 → readEntry y.mem w k = readEntry x.mem w k := by
    intro w k hw hk
    rw [hclear, readEntry_writeEntry _ halign hw hi hk]
    by_cases hhere : w = pt ∧ k = ptIndex v
    · rw [if_pos hhere, hhere.1, hhere.2, hzero]
    · rw [if_neg hhere]
      exact (readEntry_writeEntry leaf halign hw hi hk).trans (if_neg hhere)
  have hslot := hinv.forest.slots_of_entries fun t ht k hk => hback t k (hinv.forest.table_pageAddr ht).aligned hk
  have hladd : Ladder y.mem top map.pml4Phys (route v) rungs := by
    refine hinv.ladder.congr fun q hq => Forest.walk_same hslot rfl ?_
    have hlen := hq.length_le
    rw [length_route] at hlen
    omega
  rw [reclaimTables_eq hv hladd]
  obtain ⟨hrest, hpage⟩ := hchain.undo hs hv huser (y := y) fun w hw _ k hk => hback w k hw hk
  refine ⟨hrest, fun hown hlt => hpage _ ?_⟩
  have hfree : y.pmm = pmmFreePage x.pmm (entryAddr leaf) := by
    rw [← hy, Family.clearLeaf, hown]
    rfl
  refine ⟨hfree ▸ totalPages_pmmFreePage _ _, fun c => ?_⟩
  rw [hfree, bitmapTest_pmmFreePage _ _ _ (hinv.total ▸ hlt)]

/-- **Allocation and release are inverse.** In a pruned tree, for an address of the user half without a translation and
below no huge page: a successful `vmm_alloc_user_page` followed by `vmm_release_user_page` restores every entry of every
page that was in use. When the flags hold no address bits and not `BORROWED`, it also restores the set of used frames.
-/
theorem alloc_release_inverse (htop : 256 ≤ top) (htree : Pruned s top map.pml4Phys) (hmap : map.isKernel = false)
    (hrange : vmmUserRange v 4096 = true) (hleaf : has (leafIn s.mem top map.pml4Phys v) flagPresent = false)
    (hplain : ∀ (q : List Nat) (j : Nat), q ++ [j] <+: route v →
      has (slot s.mem top map.pml4Phys q j) flagPresent = true →
      has (slot s.mem top map.pml4Phys q j) flagHuge = false)
    (hsuccess : (vmmAllocUserPage s map v flags).1 = true) :
    SameEntries s (vmmReleaseUserPage (vmmAllocUserPage s map v flags).2 map v).2 ∧
    SlotsSame s.mem (vmmReleaseUserPage (vmmAllocUserPage s map v flags).2 map v).2.mem top {map.pml4Phys} ∧
    (OwnFlags flags → ∀ b,
      (vmmReleaseUserPage (vmmAllocUserPage s map v flags).2 map v).2.pmm.bitmapTest b = s.pmm.bitmapTest b) := by
  have hv := lt_of_lt_of_le (pml4Index_lt_of_userRange hrange) htop
  obtain ⟨a, p', pt, x, htakes, hdescend, heq⟩ :=
    allocUserPage_success htree.ok hmap hrange (by rw [vmmVirtToPhys_plain hv hplain, ← leafIn, hleaf]; rfl) hsuccess
  have haddr := htakes.pageAddr htree.ok.phys
  rw [heq]
  -- the tree with the new page set aside
  obtain ⟨hbase, hsame⟩ := htree.take htakes s.faults.tail
  generalize hs₁ : ({ s with pmm := p', faults := s.faults.tail, mem := s.mem.memset (a * 4096) 0 4096 } : Machine) = s₁
    at hdescend hbase
  have hmem₁ : s₁.mem = s.mem.memset (a * 4096) 0 4096 := hs₁ ▸ rfl
  have hpmm₁ : s₁.pmm = p' := hs₁ ▸ rfl
  rw [← hmem₁] at hsame
  have hplain₁ : ∀ (q : List Nat) (j : Nat), q ++ [j] <+: route v →
      has (slot s₁.mem top map.pml4Phys q j) flagPresent = true →
      has (slot s₁.mem top map.pml4Phys q j) flagHuge = false := by
    intro q j hq
    have hlen := length_lt_of_route hq
    rw [hsame _ rfl q j (by omega)]
    exact hplain q j hq
  -- the new tables, and room for the leaf in the last of them
  obtain ⟨rungs, hchain, hpt⟩ := Chain.of_descend hbase hv hplain₁ hdescend
  have hzero : readEntry x.mem pt (ptIndex v) = 0 := by
    rcases (hchain.inv hbase hv).fresh with rfl | hempty
    · have hslot : slot x.mem top map.pml4Phys (route v) (ptIndex v) = readEntry x.mem pt (ptIndex v) :=
        slot_of_walk hpt (ptIndex_lt v)
      rw [← hslot]
      apply hbase.absent _ _ (length_route_le v)
      rw [hsame _ rfl _ _ (length_route_le v)]
      exact hleaf
    · exact hempty pt hpt _ (ptIndex_lt v)
  have hpresent : has (leafEntry (a * 4096) (userFlags flags)) flagPresent = true := leafEntry_present haddr
  obtain ⟨hrestored, hpages⟩ := hchain.release hbase htop hmap hrange hpt hzero hpresent
  have hfinal : SameEntries s (vmmReleaseUserPage
      (x.write pt (ptIndex v) (leafEntry (a * 4096) (userFlags flags))) map v).2 := by
    intro w hw hused k hk
    have hwa := htakes.other hused
    rw [hrestored w hw (hpmm₁ ▸ hwa.2) k hk, hmem₁]
    exact (SamePage.memset 0 haddr.aligned hw hwa.1).readEntry hk
  refine ⟨hfinal, ?_, fun hflags b => ?_⟩
  · exact htree.forest.slots_of_entries fun t ht k hk =>
      hfinal t (htree.forest.table_pageAddr ht).aligned (htree.used t ht) k hk
  · have hown := ownFlags_userFlags hflags
    rw [leafEntry_borrowed haddr, leafEntry_addr haddr hown.addr, Nat.mul_div_cancel a (by norm_num), hpmm₁,
      htakes.total] at hpages
    rw [(hpages hown.own htakes.free_first.1).test b, hpmm₁, htakes.test_one]
    by_cases hba : b = a
    · rw [hba, htakes.free_first.2]
      simp
    · simp [hba]

end Inverse

/-! ## A new address space -/

theorem newSpace_pruned : Pruned newSpace 256 userMap.pml4Phys := by
  obtain ⟨R, ext, lent, hfam, hemp⟩ := newSpace_family
  have hsub : ({userMap.pml4Phys} : Set Nat) ⊆ insert userMap.pml4Phys R :=
    Set.singleton_subset_iff.mpr (Set.mem_insert _ _)
  refine ⟨hfam.ledger.ok, (hfam.trees.subset hsub).forest.tables, ?_, fun p i _ _ => hemp p i, ?_⟩
  · rintro t ⟨r, hr, p, hp, ht⟩
    exact hfam.reached_used t ⟨r, hsub hr, p, by omega, ht⟩
  · intro i p t _ _ ht
    obtain ⟨u, hu⟩ := walk_along (q := [] ++ [i]) ⟨p, rfl⟩ ht
    rw [walk_snoc_slot, hemp, nodeOf_zero] at hu
    simp at hu

/-- A page that needs three new tables, allocated and released. -/
theorem alloc_release_newSpace : (vmmAllocUserPage newSpace userMap 0x400000 flagNoExecute).1 = true ∧
    SlotsSame newSpace.mem (vmmReleaseUserPage (vmmAllocUserPage newSpace userMap 0x400000 flagNoExecute).2 userMap
      0x400000).2.mem 256 {userMap.pml4Phys} ∧
    ∀ b, (vmmReleaseUserPage (vmmAllocUserPage newSpace userMap 0x400000 flagNoExecute).2 userMap
      0x400000).2.pmm.bitmapTest b = newSpace.pmm.bitmapTest b := by
  have hsuccess : (vmmAllocUserPage newSpace userMap 0x400000 flagNoExecute).1 = true := by decide +kernel
  obtain ⟨R, ext, lent, -, hempty⟩ := newSpace_family
  have hleaf : has (leafIn newSpace.mem 256 userMap.pml4Phys 0x400000) flagPresent = false := by
    rw [leafIn, hempty]
    exact has_zero _
  have hroute : ∀ (q : List Nat) (j : Nat), q ++ [j] <+: route 0x400000 →
      has (slot newSpace.mem 256 userMap.pml4Phys q j) flagPresent = true →
      has (slot newSpace.mem 256 userMap.pml4Phys q j) flagHuge = false := by
    intro q j _ _
    rw [hempty]
    exact has_zero _
  obtain ⟨-, hslots, hpages⟩ := alloc_release_inverse le_rfl newSpace_pruned rfl (by decide) hleaf hroute hsuccess
  exact ⟨hsuccess, hslots, hpages ⟨by decide, by decide⟩⟩

/-- A page that is allocated with the `BORROWED` flag is still in use after its release, and in the kernel's map
the release does nothing. -/
theorem release_not_inverse : Pruned newSpace 256 userMap.pml4Phys ∧
    (vmmAllocUserPage newSpace userMap 0x400000 flagBorrowed).1 = true ∧
    (∃ b, (vmmReleaseUserPage (vmmAllocUserPage newSpace userMap 0x400000 flagBorrowed).2 userMap
      0x400000).2.pmm.bitmapTest b ≠ newSpace.pmm.bitmapTest b) ∧
    (vmmAllocUserPage newSpace { userMap with isKernel := true } 0x400000 flagNoExecute).1 = true ∧
    leafIn (vmmReleaseUserPage (vmmAllocUserPage newSpace { userMap with isKernel := true } 0x400000 flagNoExecute).2
      { userMap with isKernel := true } 0x400000).2.mem 256 userMap.pml4Phys 0x400000 ≠
      leafIn newSpace.mem 256 userMap.pml4Phys 0x400000 := by
  refine ⟨newSpace_pruned, by decide +kernel, ⟨3, by decide +kernel⟩, by decide +kernel, by decide +kernel⟩

end SzpontOS.Mm
