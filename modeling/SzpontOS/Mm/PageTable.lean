import SzpontOS.Lib.Radix
import SzpontOS.Mm.Vmm

/-!
# Page-table trees in memory

A page-table tree is seen as its slots: `slot m top r p i` is the entry at index `i` of the table that the route `p`
reaches from the root `r`, and `0` when there is no such table. What a walk finds below a slot is decided by the slot
alone (`walk_snoc_slot`). In a forest where no table is shared, writing one entry changes one slot (`slot_write`),
provided that nothing hangs below it before and after (`slot_leaf`, `slot_link`, `slot_unlink`).

`top` bounds the indices of the root: 512 for a whole address space, 256 for its user half, which is the part that an
address space owns.
-/

namespace SzpontOS.Mm

open Lib Lib.Radix List BitVec

/-! ## Entries -/

section

variable (e : Word)

theorem has_bit (k : Nat) (hk : k < 64) : has e (1#64 <<< k) = e.getLsbD k := Bits.and_bit_ne_zero e k hk

theorem has_present : has e flagPresent = e.getLsbD 0 := has_bit e 0 (by norm_num)
theorem has_writable : has e flagWritable = e.getLsbD 1 := has_bit e 1 (by norm_num)
theorem has_user : has e flagUser = e.getLsbD 2 := has_bit e 2 (by norm_num)
theorem has_huge : has e flagHuge = e.getLsbD 7 := has_bit e 7 (by norm_num)
theorem has_borrowed : has e flagBorrowed = e.getLsbD 9 := has_bit e 9 (by norm_num)

theorem entryAddr_eq : entryAddr e = e.toNat / 2 ^ 12 % 2 ^ 40 * 2 ^ 12 :=
  Bits.toNat_and_field e physAddrMask 12 40 (by decide)

theorem entryAddr_mod : entryAddr e % 4096 = 0 := by
  rw [entryAddr_eq]
  omega

theorem entryAddr_lt : entryAddr e < 2 ^ 52 := by
  rw [entryAddr_eq]
  omega

end

/-- A physical page address that fits into an entry. -/
structure PageAddr (a : Nat) : Prop where
  aligned : a % 4096 = 0
  lt : a < 2 ^ 52

theorem entryAddr_pageAddr (e : Word) : PageAddr (entryAddr e) := ⟨entryAddr_mod e, entryAddr_lt e⟩

variable {a t t' i top r f : Nat} {m m' : Mem} {p q : List Nat}

theorem PageAddr.and_mask (h : PageAddr a) : BitVec.ofNat 64 a &&& physAddrMask = BitVec.ofNat 64 a :=
  Bits.ofNat_and_field physAddrMask 12 40 (by decide) h.aligned h.lt (by norm_num)

theorem entryAddr_or (ha : PageAddr a) {f : Word} (hf : f &&& physAddrMask = 0#64) :
    entryAddr (BitVec.ofNat 64 a ||| f) = a := by
  rw [entryAddr, BitVec.and_or_distrib_right, ha.and_mask, hf, BitVec.or_zero, BitVec.toNat_ofNat]
  exact Nat.mod_eq_of_lt (by have := ha.lt; omega)

theorem PageAddr.getLsbD (ha : PageAddr a) {k : Nat} (hk : k < 12 ∨ 52 ≤ k) :
    (BitVec.ofNat 64 a).getLsbD k = false := by
  rw [← ha.and_mask, BitVec.getLsbD_and]
  have hmask : physAddrMask.getLsbD k = false := by
    by_cases h64 : k < 64
    · have : ∀ k : Fin 64, (k.val < 12 ∨ 52 ≤ k.val) → physAddrMask.getLsbD k = false := by decide
      exact this ⟨k, h64⟩ hk
    · exact getLsbD_of_ge _ _ (by omega)
  rw [hmask, Bool.and_false]

/-! ## Indices -/

theorem index_eq (v n : Nat) : (v >>> n) &&& 511 = v / 2 ^ n % 512 := by
  rw [Nat.shiftRight_eq_div_pow]
  exact Nat.and_two_pow_sub_one_eq_mod _ 9

section

variable (v : Nat)

theorem pml4Index_eq : pml4Index v = v / 2 ^ 39 % 512 := index_eq v 39
theorem pdptIndex_eq : pdptIndex v = v / 2 ^ 30 % 512 := index_eq v 30
theorem pdIndex_eq : pdIndex v = v / 2 ^ 21 % 512 := index_eq v 21
theorem ptIndex_eq : ptIndex v = v / 2 ^ 12 % 512 := index_eq v 12

theorem pml4Index_lt : pml4Index v < 512 := by rw [pml4Index_eq]; omega
theorem pdptIndex_lt : pdptIndex v < 512 := by rw [pdptIndex_eq]; omega
theorem pdIndex_lt : pdIndex v < 512 := by rw [pdIndex_eq]; omega
theorem ptIndex_lt : ptIndex v < 512 := by rw [ptIndex_eq]; omega

end

/-! ## Reading and writing entries -/

theorem readEntry_writeEntry {i' : Nat} (w : Word) (ht : t % 4096 = 0) (ht' : t' % 4096 = 0) (hi : i < 512)
    (hi' : i' < 512) : readEntry (writeEntry m t i w) t' i' = if t' = t ∧ i' = i then w else readEntry m t' i' := by
  split_ifs with h
  · obtain ⟨rfl, rfl⟩ := h
    exact Mem.load64_store64 m _ w
  · exact Mem.load64_store64_ne m _ _ w (by omega)

def SamePage (m m' : Mem) (t : Nat) : Prop := ∀ b, t ≤ b → b < t + 4096 → m' b = m b

theorem SamePage.readEntry (h : SamePage m m' t) (hi : i < 512) : readEntry m' t i = readEntry m t i :=
  Mem.load64_congr fun b hlo hhi => h b (by omega) (by omega)

theorem SamePage.writeEntry (w : Word) (ht : t % 4096 = 0) (ht' : t' % 4096 = 0) (hi : i < 512) (hne : t' ≠ t) :
    SamePage m (writeEntry m t i w) t' :=
  fun _ _ _ => Mem.store64_outside m _ w (by omega)

theorem SamePage.memset (v : BitVec 8) (ha : a % 4096 = 0) (ht : t % 4096 = 0) (hne : t ≠ a) :
    SamePage m (m.memset a v 4096) t :=
  fun _ _ _ => Mem.memset_outside m a v 4096 (by omega)

theorem SamePage.memcpy {dst : Nat} (src : Nat) (hdst : dst % 4096 = 0) (ht : t % 4096 = 0) (hne : t ≠ dst) :
    SamePage m (m.memcpy dst src 4096) t :=
  fun _ _ _ => Mem.memcpy_outside m dst src 4096 (by omega)

theorem SamePage.trans {m'' : Mem} (h : SamePage m m' t) (h' : SamePage m' m'' t) :
    SamePage m m'' t := fun b hlo hhi => (h' b hlo hhi).trans (h b hlo hhi)

theorem readEntry_memset_zero (m : Mem) (t : Nat) (hi : i < 512) : readEntry (m.memset t 0 4096) t i = 0 :=
  Mem.load64_memset_zero m t 4096 _ (by omega) (by omega)

/-! ## Trees -/

/-- How many entries the tree uses of a table at depth `d`. -/
def bound (top d : Nat) : Nat := if d = 0 then top else 512

/-- The table or owned frame that an entry at depth `d` points to. -/
def nodeOf (d : Nat) (e : Word) : Option Nat :=
  if d < 3 then if has e flagPresent && !has e flagHuge then some (entryAddr e) else none
  else if d = 3 then if has e flagPresent && !has e flagBorrowed then some (entryAddr e) else none
  else none

/-- What hangs below entry `i` of the table `t` at depth `d`. -/
def child (m : Mem) (top d t i : Nat) : Option Nat :=
  if i < bound top d then nodeOf d (readEntry m t i) else none

/-- The entry at index `i` of the table reached by the route `p`, `0` when there is none. -/
def slot (m : Mem) (top r : Nat) (p : List Nat) (i : Nat) : Word :=
  match walk (child m top) r p with
  | some t => if i < bound top p.length then readEntry m t i else 0
  | none => 0

@[simp] theorem nodeOf_zero (d : Nat) : nodeOf d 0 = none := by
  have h : has 0 flagPresent = false := by decide
  simp only [nodeOf, h, Bool.false_and, Bool.false_eq_true, ↓reduceIte, ite_self]

theorem bound_le (htop : top ≤ 512) (d : Nat) : bound top d ≤ 512 := by
  rw [bound]
  split_ifs <;> omega

theorem nodeOf_pageAddr {d : Nat} {e : Word} (h : nodeOf d e = some t) : PageAddr t := by
  rw [nodeOf] at h
  split_ifs at h
  all_goals
    rw [Option.some.injEq] at h
    exact h ▸ entryAddr_pageAddr e

theorem slot_of_walk (h : walk (child m top) r p = some t) (hi : i < bound top p.length) :
    slot m top r p i = readEntry m t i := by
  rw [slot, h]
  exact if_pos hi

theorem slot_of_walk_none (h : walk (child m top) r p = none) (i : Nat) : slot m top r p i = 0 := by
  rw [slot, h]

theorem slot_of_bound (h : ¬ i < bound top p.length) : slot m top r p i = 0 := by
  rw [slot]
  split
  · exact if_neg h
  · rfl

theorem walk_snoc_slot (m : Mem) (top r : Nat) (p : List Nat) (i : Nat) :
    walk (child m top) r (p ++ [i]) = nodeOf p.length (slot m top r p i) := by
  rw [walk_snoc]
  cases h : walk (child m top) r p with
  | none => rw [slot_of_walk_none h, nodeOf_zero, Option.bind_none]
  | some t =>
    rw [Option.bind_some, child]
    split_ifs with hi
    · rw [slot_of_walk h hi]
    · rw [slot_of_bound hi, nodeOf_zero]

theorem walk_of_slot (h : slot m top r p i ≠ 0) : ∃ t, walk (child m top) r p = some t ∧ i < bound top p.length := by
  cases hw : walk (child m top) r p with
  | none => exact absurd (slot_of_walk_none hw i) h
  | some t =>
    refine ⟨t, rfl, ?_⟩
    by_contra hi
    exact h (slot_of_bound hi)

theorem walk_pageAddr (hr : PageAddr r) (h : walk (child m top) r p = some t) : PageAddr t := by
  rcases eq_nil_or_concat' p with rfl | ⟨q, i, rfl⟩
  · rw [walk_nil, Option.some.injEq] at h
    exact h ▸ hr
  · rw [walk_snoc_slot] at h
    exact nodeOf_pageAddr h

theorem walk_eq_of_slots (h : ∀ q i, q ++ [i] = p → slot m' top r q i = slot m top r q i) :
    walk (child m' top) r p = walk (child m top) r p := by
  rcases eq_nil_or_concat' p with rfl | ⟨q, i, rfl⟩
  · rw [walk_nil, walk_nil]
  · rw [walk_snoc_slot, walk_snoc_slot, h q i rfl]

/-! ## Below a slot -/

theorem walk_none_below (hpq : p <+: q) (h : walk (child m top) r p = none) : walk (child m top) r q = none := by
  cases hq : walk (child m top) r q with
  | none => rfl
  | some t =>
    obtain ⟨u, hu⟩ := walk_along hpq hq
    rw [h] at hu
    simp at hu

theorem slot_below_none (hpq : p <+: q) (h : walk (child m top) r p = none) (j : Nat) : slot m top r q j = 0 :=
  slot_of_walk_none (walk_none_below hpq h) j

theorem slot_below_empty (hpq : p <+: q) (h : walk (child m top) r p = some t)
    (hemp : ∀ i, i < bound top p.length → readEntry m t i = 0) (j : Nat) : slot m top r q j = 0 := by
  have hslot : ∀ i, slot m top r p i = 0 := by
    intro i
    by_cases hi : i < bound top p.length
    · rw [slot_of_walk h hi]
      exact hemp i hi
    · exact slot_of_bound hi
  obtain ⟨s, rfl⟩ := hpq
  cases s with
  | nil =>
    rw [append_nil]
    exact hslot j
  | cons i s =>
    refine slot_below_none (p := p ++ [i]) ⟨s, by simp⟩ ?_ j
    rw [walk_snoc_slot, hslot, nodeOf_zero]

/-! ## Forests -/

/-- A forest of trees with roots `R` in which no table is shared (`n = 3`), or no table and no owned
frame (`n = 4`). -/
structure Forest (m : Mem) (top : Nat) (R : Set Nat) (n : Nat) : Prop where
  top_le : top ≤ 512
  three_le : 3 ≤ n
  le_four : n ≤ 4
  root : ∀ r ∈ R, PageAddr r
  sep : Separated (child m top) R fun p => p.length ≤ n

/-- `t` is reached in at most `n` steps: a table of the forest (`n = 3`), or a table or an owned frame
(`n = 4`). -/
def Reached (m : Mem) (top : Nat) (R : Set Nat) (n t : Nat) : Prop :=
  ∃ r ∈ R, ∃ p : List Nat, p.length ≤ n ∧ walk (child m top) r p = some t

/-- The slots of `m'` are those of `m`, with `w` in one of them. -/
def SlotsUpdate (m m' : Mem) (top : Nat) (R : Set Nat) (r : Nat) (p : List Nat) (i : Nat) (w : Word) : Prop :=
  ∀ r' ∈ R, ∀ (q : List Nat) (j : Nat), q.length ≤ 3 →
    slot m' top r' q j = if r' = r ∧ q = p ∧ j = i then w else slot m top r' q j

def SlotsSame (m m' : Mem) (top : Nat) (R : Set Nat) : Prop :=
  ∀ r' ∈ R, ∀ (q : List Nat) (j : Nat), q.length ≤ 3 → slot m' top r' q j = slot m top r' q j

namespace Forest

variable {n : Nat} {R : Set Nat} {r' : Nat} {w : Word}

theorem table_pageAddr (hF : Forest m top R n) (ht : Reached m top R 3 t) : PageAddr t := by
  obtain ⟨r, hr, p, _, h⟩ := ht
  exact walk_pageAddr (hF.root r hr) h

theorem slots_of_entries (hF : Forest m top R n)
    (h : ∀ t, Reached m top R 3 t → ∀ k, k < 512 → readEntry m' t k = readEntry m t k) : SlotsSame m m' top R := by
  have hwalk : ∀ r' ∈ R, ∀ q : List Nat, q.length ≤ 3 → walk (child m' top) r' q = walk (child m top) r' q := by
    intro r' hr' q hq
    refine walk_congr fun q' j u hpre hu => ?_
    have hlen : q'.length ≤ 3 := by
      have := hpre.length_le
      simp only [length_append, length_singleton] at this
      omega
    rw [child, child]
    split_ifs with hj
    · rw [h u ⟨r', hr', q', hlen, hu⟩ j (lt_of_lt_of_le hj (bound_le hF.top_le _))]
    · rfl
  intro r' hr' q j hq
  rw [slot, slot, hwalk r' hr' q hq]
  cases hw : walk (child m top) r' q with
  | none => rfl
  | some u =>
    split_ifs with hj
    · exact h u ⟨r', hr', q, hq, hw⟩ j (lt_of_lt_of_le hj (bound_le hF.top_le _))
    · rfl

theorem slots_of_samePages (hF : Forest m top R n) (h : ∀ t, Reached m top R 3 t → SamePage m m' t) :
    SlotsSame m m' top R :=
  hF.slots_of_entries fun t ht _ hk => (h t ht).readEntry hk

theorem walk_update (hupd : SlotsUpdate m m' top R r p i w) (hr' : r' ∈ R) (hq : q.length ≤ 4) :
    walk (child m' top) r' q = if r' = r ∧ q = p ++ [i] then nodeOf p.length w else walk (child m top) r' q := by
  rcases eq_nil_or_concat' q with rfl | ⟨q0, j, rfl⟩
  · rw [if_neg (by simp), walk_nil, walk_nil]
  · rw [length_append, length_singleton] at hq
    rw [walk_snoc_slot, hupd r' hr' q0 j (by omega)]
    simp only [append_singleton_inj]
    split_ifs with h
    · rw [h.2.1]
    · rw [walk_snoc_slot]

/-- A forest stays separated when one route gets a new end that nothing else in the forest has. -/
theorem of_walk {x : Option Nat} (hF : Forest m top R n) (hwalk : ∀ r' ∈ R, ∀ q : List Nat, q.length ≤ n →
      walk (child m' top) r' q = if r' = r ∧ q = p then x else walk (child m top) r' q)
    (hnew : ∀ f, p.length ≤ n → x = some f → ∀ r' ∈ R, ∀ q : List Nat, q.length ≤ n →
      walk (child m top) r' q = some f → r' = r ∧ q = p) : Forest m' top R n := by
  refine ⟨hF.top_le, hF.three_le, hF.le_four, hF.root, ?_⟩
  intro r1 r2 hr1 hr2 p1 p2 hp1 hp2 t h1 h2
  rw [hwalk r1 hr1 p1 hp1] at h1
  rw [hwalk r2 hr2 p2 hp2] at h2
  split_ifs at h1 h2 with c1 c2 c2
  · exact ⟨c1.1.trans c2.1.symm, c1.2.trans c2.2.symm⟩
  · obtain ⟨h, h'⟩ := hnew t (c1.2 ▸ hp1) h1 r2 hr2 p2 hp2 h2
    exact ⟨c1.1.trans h.symm, c1.2.trans h'.symm⟩
  · obtain ⟨h, h'⟩ := hnew t (c2.2 ▸ hp2) h2 r1 hr1 p1 hp1 h1
    exact ⟨h.trans c2.1.symm, h'.trans c2.2.symm⟩
  · exact hF.sep hr1 hr2 hp1 hp2 h1 h2

/-- A changed slot keeps the forest when what it points to is new to the forest, or was already below
this slot. -/
theorem update (hF : Forest m top R n) (hupd : SlotsUpdate m m' top R r p i w)
    (hnew : ∀ f, p.length < n → nodeOf p.length w = some f → ∀ r' ∈ R, ∀ q : List Nat, q.length ≤ n →
      walk (child m top) r' q = some f → r' = r ∧ q = p ++ [i]) : Forest m' top R n := by
  refine hF.of_walk (fun r' hr' q hq => walk_update hupd hr' (hq.trans hF.le_four)) fun f hlen => ?_
  rw [length_append, length_singleton] at hlen
  exact hnew f hlen

theorem walk_same (h : SlotsSame m m' top R) (hr' : r' ∈ R) (hq : q.length ≤ 4) :
    walk (child m' top) r' q = walk (child m top) r' q := by
  refine walk_eq_of_slots fun q0 j hqj => h r' hr' q0 j ?_
  rw [← hqj, length_append, length_singleton] at hq
  omega

theorem same (hF : Forest m top R n) (h : SlotsSame m m' top R) : Forest m' top R n := by
  refine ⟨hF.top_le, hF.three_le, hF.le_four, hF.root, ?_⟩
  have hn := hF.le_four
  intro r1 r2 hr1 hr2 p1 p2 hp1 hp2 t h1 h2
  rw [walk_same h hr1 (by omega)] at h1
  rw [walk_same h hr2 (by omega)] at h2
  exact hF.sep hr1 hr2 hp1 hp2 h1 h2

/-! ## Writing one entry -/

section

variable (hF : Forest m top R n) (hr : r ∈ R) (hr' : r' ∈ R) (hp : p.length ≤ 3) (hq : q.length ≤ 3)
  (ht : walk (child m top) r p = some t) (hi : i < bound top p.length)

include hF hr hr' hp hq ht hi

theorem slot_write_of_walk (hwalk : walk (child (writeEntry m t i w) top) r' q = walk (child m top) r' q) (j : Nat) :
    slot (writeEntry m t i w) top r' q j = if r' = r ∧ q = p ∧ j = i then w else slot m top r' q j := by
  have hi512 := lt_of_lt_of_le hi (bound_le hF.top_le _)
  rw [slot, slot, hwalk]
  cases hu : walk (child m top) r' q with
  | none =>
    rw [if_neg]
    rintro ⟨rfl, rfl, _⟩
    rw [ht] at hu
    simp at hu
  | some u =>
    simp only
    by_cases hj : j < bound top q.length
    · rw [if_pos hj, if_pos hj, readEntry_writeEntry w (walk_pageAddr (hF.root r hr) ht).aligned
        (walk_pageAddr (hF.root r' hr') hu).aligned hi512 (lt_of_lt_of_le hj (bound_le hF.top_le _))]
      by_cases hcase : u = t ∧ j = i
      · obtain ⟨rfl, rfl⟩ := hcase
        obtain ⟨rfl, rfl⟩ := hF.sep hr hr' (hp.trans hF.three_le) (hq.trans hF.three_le) ht hu
        rw [if_pos ⟨rfl, rfl⟩, if_pos ⟨rfl, rfl, rfl⟩]
      · rw [if_neg hcase, if_neg]
        rintro ⟨rfl, rfl, rfl⟩
        rw [ht, Option.some.injEq] at hu
        exact hcase ⟨hu.symm, rfl⟩
    · rw [if_neg hj, if_neg hj, if_neg]
      rintro ⟨rfl, rfl, rfl⟩
      exact hj hi

theorem walk_write_outside (hout : ¬ (r' = r ∧ p ++ [i] <+: q)) :
    walk (child (writeEntry m t i w) top) r' q = walk (child m top) r' q := by
  have hi512 := lt_of_lt_of_le hi (bound_le hF.top_le _)
  refine walk_eq_of_slot hF.sep (fun a b hba ha => hba.length_le.trans ha) hr hr' (hp.trans hF.three_le)
    (hq.trans hF.three_le) ht ?_ hout
  rintro d u j ⟨p', hp', rfl, hu⟩ hne
  rw [child, child]
  split_ifs with hj
  · rw [readEntry_writeEntry w (walk_pageAddr (hF.root r hr) ht).aligned
      (walk_pageAddr (hF.root r' hr') hu).aligned hi512 (lt_of_lt_of_le hj (bound_le hF.top_le _)),
      if_neg]
    rintro ⟨rfl, rfl⟩
    simp at hne
  · rfl

end

section

variable (hF : Forest m top R n) (hr : r ∈ R) (hp : p.length ≤ 3) (ht : walk (child m top) r p = some t)
  (hi : i < bound top p.length)

include hF hr hp ht hi

/-- A write to a slot changes that slot only, if what hangs below it is the same before and after. -/
theorem slot_write (hbelow : ∀ (q : List Nat) (j : Nat), q.length ≤ 3 → p ++ [i] <+: q →
      slot (writeEntry m t i w) top r q j = slot m top r q j) : SlotsUpdate m (writeEntry m t i w) top R r p i w := by
  intro r' hr' q j hq
  by_cases hout : r' = r ∧ p ++ [i] <+: q
  · obtain ⟨rfl, hpre⟩ := hout
    rw [hbelow q j hq hpre, if_neg]
    rintro ⟨_, rfl, _⟩
    have := hpre.length_le
    simp at this
  · exact hF.slot_write_of_walk hr hr' hp hq ht hi (hF.walk_write_outside hr hr' hp hq ht hi hout) j

theorem walk_written : walk (child (writeEntry m t i w) top) r (p ++ [i]) = nodeOf p.length w := by
  have hout : ¬ (r = r ∧ p ++ [i] <+: p) := by
    rintro ⟨_, hpre⟩
    have := hpre.length_le
    simp at this
  rw [walk_snoc_slot, hF.slot_write_of_walk hr hr hp hp ht hi (hF.walk_write_outside hr hr hp hp ht hi hout),
    if_pos ⟨rfl, rfl, rfl⟩]

end

theorem slot_leaf (hF : Forest m top R n) (hr : r ∈ R) (hp : p.length = 3) (ht : walk (child m top) r p = some t)
    (hi : i < bound top p.length) : SlotsUpdate m (writeEntry m t i w) top R r p i w := by
  refine hF.slot_write hr (by omega) ht hi fun q j hq hpre => ?_
  have := hpre.length_le
  simp only [length_append, length_singleton] at this
  omega

section

variable (hF : Forest m top R n) (hr : r ∈ R) (hp : p.length ≤ 3) (ht : walk (child m top) r p = some t)
  (hi : i < bound top p.length)

include hF hr hp ht hi

theorem slot_link (hold : nodeOf p.length (slot m top r p i) = none) (hnew : nodeOf p.length w = some f) (hft : f ≠ t)
    (hemp : ∀ k, k < 512 → readEntry m f k = 0) : SlotsUpdate m (writeEntry m t i w) top R r p i w := by
  have hi512 := lt_of_lt_of_le hi (bound_le hF.top_le _)
  refine hF.slot_write hr hp ht hi fun q j hq hpre => ?_
  rw [slot_below_none (m := m) hpre (by rw [walk_snoc_slot, hold])]
  refine slot_below_empty hpre ((hF.walk_written hr hp ht hi).trans hnew) ?_ j
  intro k hk
  replace hk := lt_of_lt_of_le hk (bound_le hF.top_le _)
  rw [readEntry_writeEntry w (walk_pageAddr (hF.root r hr) ht).aligned (nodeOf_pageAddr hnew).aligned hi512 hk,
    if_neg (fun h => hft h.1)]
  exact hemp k hk

theorem slot_unlink (hold : nodeOf p.length (slot m top r p i) = some f) (hemp : ∀ k, k < 512 → readEntry m f k = 0) :
    SlotsUpdate m (writeEntry m t i 0) top R r p i 0 := by
  refine hF.slot_write hr hp ht hi fun q j hq hpre => ?_
  rw [slot_below_none hpre (by rw [hF.walk_written hr hp ht hi, nodeOf_zero]),
    slot_below_empty hpre (by rw [walk_snoc_slot, hold])
      fun k hk => hemp k (lt_of_lt_of_le hk (bound_le hF.top_le _))]

end

end Forest

end SzpontOS.Mm
