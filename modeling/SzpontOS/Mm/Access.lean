import SzpontOS.Mm.SpaceOps

/-!
# What a user program may access

In an address space every table entry is writable, so the answer of `vmm_user_access` for a page is `tablesUser`, the
`USER` bits of the three table entries above it, and `grants`, the bits of its leaf (`Family.pageAccess_eq`). Two
address spaces that answer alike page by page answer alike for every range (`vmmUserAccess_eq_iff`).
-/

namespace SzpontOS.Mm

open Lib Lib.Radix List

/-- The bits that `vmm_user_access` requires. -/
def requiredBits (write : Bool) : Word := flagPresent ||| flagUser ||| (if write then flagWritable else 0)

/-- An entry lets the access pass. -/
def grants (e : Word) (write : Bool) : Bool := has e flagPresent && has e flagUser && (!write || has e flagWritable)

theorem grants_zero (write : Bool) : grants 0#64 write = false := by
  unfold grants
  rw [has_zero, Bool.false_and, Bool.false_and]

variable {write : Bool} {p q : List Nat} {i v r top addr size : Nat} {m : Mem} {map : Pagemap}

theorem requiredBits_bit {k : Nat} (hk : k < 64) :
    (requiredBits write).getLsbD k = true ↔ k = 0 ∨ k = 2 ∨ write = true ∧ k = 1 := by
  cases write with
  | false =>
    revert k
    decide
  | true =>
    revert k
    decide

theorem and_requiredBits (e : Word) (write : Bool) :
    (e &&& requiredBits write != requiredBits write) = !grants e write := by
  have hiff : e &&& requiredBits write = requiredBits write ↔ grants e write = true := by
    rw [Bits.and_eq_right_iff, grants, has_present, has_user, has_writable]
    simp only [Bool.and_eq_true, Bool.or_eq_true, Bool.not_eq_true']
    constructor
    · intro h
      refine ⟨⟨h 0 (by norm_num) ?_, h 2 (by norm_num) ?_⟩, ?_⟩
      · exact (requiredBits_bit (by norm_num)).mpr (.inl rfl)
      · exact (requiredBits_bit (by norm_num)).mpr (.inr (.inl rfl))
      · cases write with
        | false => exact .inl rfl
        | true => exact .inr (h 1 (by norm_num) (by decide))
    · intro ⟨⟨h0, h2⟩, h1⟩ k hk hbit
      rcases (requiredBits_bit hk).mp hbit with rfl | rfl | ⟨hwrite, rfl⟩
      · exact h0
      · exact h2
      · exact h1.resolve_left (by simp [hwrite])
  cases hgrant : grants e write with
  | false => simpa [hgrant] using hiff
  | true => simpa [hgrant] using hiff

/-- The three table entries above a page have the `USER` bit. -/
def tablesUser (m : Mem) (r v : Nat) : Bool :=
  has (slot m 256 r [] (pml4Index v)) flagUser &&
    (has (slot m 256 r [pml4Index v] (pdptIndex v)) flagUser &&
      has (slot m 256 r [pml4Index v, pdptIndex v] (pdIndex v)) flagUser)

theorem snoc_prefix_route :
    p ++ [i] <+: route v ↔ p = [] ∧ i = pml4Index v ∨ p = [pml4Index v] ∧ i = pdptIndex v ∨
      p = [pml4Index v, pdptIndex v] ∧ i = pdIndex v := by
  unfold route
  rcases p with _ | ⟨x, _ | ⟨y, _ | ⟨z, p⟩⟩⟩
  all_goals simp [cons_prefix_cons, and_assoc]

theorem tablesUser_iff : tablesUser m r v = true ↔
      ∀ (p : List Nat) (i : Nat), p ++ [i] <+: route v → has (slot m 256 r p i) flagUser = true := by
  unfold tablesUser
  simp only [Bool.and_eq_true, snoc_prefix_route]
  constructor
  · intro ⟨h0, h1, h2⟩ p i hcase
    rcases hcase with ⟨rfl, rfl⟩ | ⟨rfl, rfl⟩ | ⟨rfl, rfl⟩
    · exact h0
    · exact h1
    · exact h2
  · intro h
    exact ⟨h _ _ (.inl ⟨rfl, rfl⟩), h _ _ (.inr (.inl ⟨rfl, rfl⟩)), h _ _ (.inr (.inr ⟨rfl, rfl⟩))⟩

/-! ## The walk of one page -/

/-- A table entry lets the access pass: it has the required bits and points to a table. -/
def tableGrants (e : Word) (write : Bool) : Bool := grants e write && !has e flagHuge

/-- The required bits at all four levels: the three tables above `v` in `m`, and the leaf `leaf`. -/
def levelsGrant (m : Mem) (top r v : Nat) (leaf : Word) (write : Bool) : Bool :=
  tableGrants (slot m top r [] (pml4Index v)) write &&
    (tableGrants (slot m top r [pml4Index v] (pdptIndex v)) write &&
      (tableGrants (slot m top r [pml4Index v, pdptIndex v] (pdIndex v)) write && grants leaf write))

theorem access_level {t : Nat} {b : Bool} {next : Nat → Option Nat} (hq : q.length < 3)
    (ht : walk (child m top) r q = some t) (hi : i < bound top q.length)
    (hnext : ∀ u, walk (child m top) r (q ++ [i]) = some u → (next u).isSome = b) :
    ((if readEntry m t i &&& requiredBits write != requiredBits write || has (readEntry m t i) flagHuge then none
      else some (entryAddr (readEntry m t i))).bind next).isSome = (tableGrants (slot m top r q i) write && b) := by
  rw [and_requiredBits, ← slot_of_walk ht hi, tableGrants]
  rw [walk_snoc_slot] at hnext
  generalize slot m top r q i = e at hnext
  cases hgrant : grants e write with
  | false => rfl
  | true =>
    cases hhuge : has e flagHuge with
    | true => rfl
    | false =>
      have hpres : has e flagPresent = true := by
        rw [grants] at hgrant
        simp only [Bool.and_eq_true] at hgrant
        exact hgrant.1.1
      exact hnext (entryAddr e) ((nodeOf_eq_some hq).mpr ⟨hpres, hhuge, rfl⟩)

/-- **The access of a page**: the required bits at all four levels. -/
theorem pageAccess_levels (m : Mem) (map : Pagemap) (hv : pml4Index v < top) (write : Bool) :
    pageAccess m map v (requiredBits write) =
      levelsGrant m top map.pml4Phys v (slot m top map.pml4Phys (route v) (ptIndex v)) write := by
  unfold pageAccess levelsGrant
  simp only [foldlM_cons, foldlM_nil, Option.bind_eq_bind]
  apply access_level (q := []) (by simp) (walk_nil _) hv
  intro pdpt hpdpt
  apply access_level (q := [pml4Index v]) (by simp) hpdpt (pdptIndex_lt v)
  intro pd hpd
  apply access_level (q := [pml4Index v, pdptIndex v]) (by simp) hpd (pdIndex_lt v)
  intro pt hpt
  have hidx : v >>> 12 &&& 511 = ptIndex v := rfl
  rw [slot_of_walk (p := route v) hpt (ptIndex_lt v), hidx, and_requiredBits]
  cases grants (readEntry m pt (ptIndex v)) write with
  | false => rfl
  | true => rfl

theorem grants_below (hroute : p ++ [i] <+: route v) (habs : has (slot m top r p i) flagPresent = false)
    (write : Bool) : grants (slot m top r (route v) (ptIndex v)) write = false := by
  have hnone : walk (child m top) r (p ++ [i]) = none := by
    rw [walk_snoc_slot, nodeOf_eq_none (length_lt_of_route hroute), habs]
    exact fun h => absurd h Bool.false_ne_true
  rw [slot_below_none hroute hnone]
  exact grants_zero write

namespace Family

variable {s : Machine} {R ext lent : Set Nat}

/-- In an address space every present table entry is writable, so that a table grants what its `USER` bit
grants. -/
theorem tableGrants_eq (hfam : Family s R ext lent) (hr : r ∈ R) (hroute : q ++ [i] <+: route v) (write b : Bool) :
    (tableGrants (slot s.mem 256 r q i) write && (b && grants (slot s.mem 256 r (route v) (ptIndex v)) write)) =
      (has (slot s.mem 256 r q i) flagUser && (b && grants (slot s.mem 256 r (route v) (ptIndex v)) write)) := by
  cases hpres : has (slot s.mem 256 r q i) flagPresent with
  | false =>
    rw [grants_below hroute hpres]
    simp only [Bool.and_false]
  | true =>
    obtain ⟨hplain, hwritable⟩ := hfam.trees.table r hr q i (length_lt_of_route hroute) hpres
    simp only [tableGrants, grants, hpres, hplain, hwritable, Bool.or_true, Bool.true_and, Bool.and_true,
      Bool.not_false]

/-- **The access of a page of an address space**: the `USER` bits above it, and the bits of its leaf. -/
theorem pageAccess_eq (hfam : Family s R ext lent) (hr : map.pml4Phys ∈ R) (hv : pml4Index v < 256) (write : Bool) :
    pageAccess s.mem map v (requiredBits write) =
      (tablesUser s.mem map.pml4Phys v && grants (slot s.mem 256 map.pml4Phys (route v) (ptIndex v)) write) := by
  have htop := hfam.tableGrants_eq (q := []) (v := v) hr ⟨[pdptIndex v, pdIndex v], rfl⟩ write
  have hmid := hfam.tableGrants_eq (q := [pml4Index v]) (v := v) hr ⟨[pdIndex v], rfl⟩ write
  have hlow := hfam.tableGrants_eq (q := [pml4Index v, pdptIndex v]) (v := v) hr (prefix_refl _) write true
  simp only [Bool.true_and] at hlow
  rw [pageAccess_levels _ _ hv, levelsGrant, hlow, hmid, ← Bool.and_assoc (has _ _), htop, tablesUser]
  simp only [Bool.and_assoc]

end Family

/-! ## Ranges -/

theorem pml4Index_lt_of_user (hv : v < userEnd) : pml4Index v < 256 := by
  simp only [userEnd] at hv
  rw [pml4Index_eq]
  omega

theorem vmmUserAccess_iff :
    vmmUserAccess m map addr size write = true ↔ size = 0 ∨ vmmUserRange addr size = true ∧
      ∀ v ∈ pagesBetween (pageDown addr) (addr + size), pageAccess m map v (requiredBits write) = true := by
  unfold vmmUserAccess
  by_cases hsize : size = 0
  · simp [hsize]
  · cases huser : vmmUserRange addr size with
    | false => simp [hsize]
    | true => simp [hsize, all_eq_true, requiredBits]

theorem pagesBetween_user (huser : vmmUserRange addr size = true)
    (hv : v ∈ pagesBetween (pageDown addr) (addr + size)) : v % 4096 = 0 ∧ 4096 ≤ v ∧ v < userEnd := by
  simp only [vmmUserRange, userEnd, Bool.and_eq_true, decide_eq_true_eq] at huser ⊢
  rw [mem_pagesBetween, pageDown] at hv
  omega

theorem vmmUserAccess_page (hv : v % 4096 = 0) (hlo : 4096 ≤ v) (hhi : v < userEnd) {n : Nat} (hn : n < 4096) :
    vmmUserAccess m map v (n + 1) write = pageAccess m map v (requiredBits write) := by
  have huser : vmmUserRange v (n + 1) = true := by
    simp only [vmmUserRange, userEnd, Bool.and_eq_true, decide_eq_true_eq] at hhi ⊢
    omega
  have hpage : ∀ v', v' ∈ pagesBetween (pageDown v) (v + (n + 1)) ↔ v' = v := by
    intro v'
    rw [mem_pagesBetween, pageDown]
    omega
  rw [Bool.eq_iff_iff, vmmUserAccess_iff]
  simp [huser, hpage]

theorem vmmUserAccess_eq_iff {map' : Pagemap} :
    (∀ addr size write, vmmUserAccess m map addr size write = vmmUserAccess m map' addr size write) ↔
      ∀ v, v % 4096 = 0 → 4096 ≤ v → v < userEnd → ∀ write,
        pageAccess m map v (requiredBits write) = pageAccess m map' v (requiredBits write) := by
  constructor
  · intro h v hv hlo hhi write
    have hpage := h v 1 write
    rwa [vmmUserAccess_page hv hlo hhi (by norm_num), vmmUserAccess_page hv hlo hhi (by norm_num)] at hpage
  · intro h addr size write
    rw [Bool.eq_iff_iff, vmmUserAccess_iff, vmmUserAccess_iff]
    refine or_congr_right (and_congr_right fun huser => forall₂_congr fun v hv => ?_)
    obtain ⟨hmod, hlo, hhi⟩ := pagesBetween_user huser hv
    rw [h v hmod hlo hhi write]

end SzpontOS.Mm
