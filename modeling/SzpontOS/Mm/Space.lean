import SzpontOS.Mm.NextLevel

/-!
# A family of address spaces

The user halves of a set of address spaces with roots `R` form one forest. `Trees` says what their
entries look like: no table or owned frame is shared, tables are writable and never huge, and borrowed
leaves point to lent frames. `Ledger` is the account of the physical pages: a page is used exactly when
the family owns it or somebody else holds it (`ext`).

Each operation on an address space is a sequence of a few moves, and each move has one lemma here: a
page is taken from the allocator into `ext`, moves from `ext` into a slot of a tree or back, or is given
back to the allocator. While an operation has a page in its hands, the page counts as held by somebody
else.
-/

namespace SzpontOS.Mm

open Lib Lib.Radix List Set

/-! ## Owned pages -/

/-- The pages that the address spaces with roots `R` own: their tables and the frames they have not
borrowed. -/
def owned (m : Mem) (R : Set Nat) : Set Nat := { x | Reached m 256 R 4 (x * 4096) }

section Owned

variable {m m' : Mem} {R : Set Nat} {r i a : Nat} {p : List Nat} {w : Word}

theorem mem_owned_of_walk {f : Nat} (hF : Forest m 256 R 4) (hr : r ∈ R) (hp : p.length ≤ 4)
    (h : walk (child m 256) r p = some f) : f / 4096 ∈ owned m R := by
  have haddr := walk_pageAddr (hF.root r hr) h
  refine ⟨r, hr, p, hp, ?_⟩
  rw [h, Nat.div_mul_cancel (Nat.dvd_of_mod_eq_zero haddr.aligned)]

theorem owned_congr (hwalk : ∀ r ∈ R, ∀ q : List Nat, q.length ≤ 4 → walk (child m' 256) r q = walk (child m 256) r q) :
    owned m' R = owned m R := by
  ext x
  constructor
  all_goals
    rintro ⟨r, hr, q, hq, hw⟩
    exact ⟨r, hr, q, hq, by rw [← hw, hwalk r hr q hq]⟩

theorem owned_same (h : SlotsSame m m' 256 R) : owned m' R = owned m R :=
  owned_congr fun _ hr _ hq => Forest.walk_same h hr hq

theorem owned_keep (hupd : SlotsUpdate m m' 256 R r p i w)
    (hkeep : nodeOf p.length w = nodeOf p.length (slot m 256 r p i)) : owned m' R = owned m R := by
  refine owned_congr fun r' hr' q hq => ?_
  rw [Forest.walk_update hupd hr' hq]
  split_ifs with h
  · rw [h.1, h.2, walk_snoc_slot, hkeep]
  · rfl

theorem mem_owned_update (hF : Forest m 256 R 4) (hupd : SlotsUpdate m m' 256 R r p i w) (hr : r ∈ R)
    (hp : p.length ≤ 3) (x : Nat) : x ∈ owned m' R ↔
      nodeOf p.length w = some (x * 4096) ∨ x ∈ owned m R ∧ nodeOf p.length (slot m 256 r p i) ≠ some (x * 4096) := by
  have hlen : (p ++ [i]).length ≤ 4 := by
    rw [length_append, length_singleton]
    omega
  rw [← walk_snoc_slot]
  constructor
  · rintro ⟨r', hr', q, hq, hw⟩
    rw [Forest.walk_update hupd hr' hq] at hw
    split_ifs at hw with h
    · exact .inl hw
    · exact .inr ⟨⟨r', hr', q, hq, hw⟩, fun hold => h (hF.sep hr' hr hq hlen hw hold)⟩
  · rintro (hw | ⟨⟨r', hr', q, hq, hw⟩, hne⟩)
    · exact ⟨r, hr, _, hlen, by rw [Forest.walk_update hupd hr hlen, if_pos ⟨rfl, rfl⟩, hw]⟩
    · refine ⟨r', hr', q, hq, ?_⟩
      rw [Forest.walk_update hupd hr' hq, if_neg, hw]
      rintro ⟨rfl, rfl⟩
      exact hne hw

end Owned

/-! ## The trees -/

/-- An entry of a table that is not a page table: a writable table. -/
structure TableEntry (e : Word) : Prop where
  plain : has e flagHuge = false
  writable : has e flagWritable = true

/-- The user halves of the address spaces with roots `R`; the frames they borrow are among `lent`. -/
structure Trees (m : Mem) (R lent : Set Nat) : Prop where
  forest : Forest m 256 R 4
  table : ∀ r ∈ R, ∀ (p : List Nat) (i : Nat), p.length < 3 →
    has (slot m 256 r p i) flagPresent = true → TableEntry (slot m 256 r p i)
  borrow : ∀ r ∈ R, ∀ (p : List Nat) (i : Nat), p.length = 3 →
    has (slot m 256 r p i) flagPresent = true → has (slot m 256 r p i) flagBorrowed = true →
    entryAddr (slot m 256 r p i) / 4096 ∈ lent

namespace Trees

variable {m m' : Mem} {R lent : Set Nat} {r i : Nat} {p : List Nat} {w : Word}

theorem same (hT : Trees m R lent) (h : SlotsSame m m' 256 R) : Trees m' R lent := by
  refine ⟨hT.forest.same h, fun r hr p i hp => ?_, fun r hr p i hp => ?_⟩
  · rw [h r hr p i (by omega)]
    exact hT.table r hr p i hp
  · rw [h r hr p i (by omega)]
    exact hT.borrow r hr p i hp

theorem update (hT : Trees m R lent) (hupd : SlotsUpdate m m' 256 R r p i w)
    (hnew : ∀ f, nodeOf p.length w = some f → ∀ r' ∈ R, ∀ q : List Nat, q.length ≤ 4 →
      walk (child m 256) r' q = some f → r' = r ∧ q = p ++ [i])
    (htab : p.length < 3 → has w flagPresent = true → TableEntry w)
    (hborrow : p.length = 3 → has w flagPresent = true → has w flagBorrowed = true → entryAddr w / 4096 ∈ lent) :
    Trees m' R lent := by
  refine ⟨hT.forest.update hupd fun f _ => hnew f, fun r' hr' q j hq => ?_, fun r' hr' q j hq => ?_⟩
  · rw [hupd r' hr' q j (by omega)]
    split_ifs with h
    · exact htab (h.2.1 ▸ hq)
    · exact hT.table r' hr' q j hq
  · rw [hupd r' hr' q j (by omega)]
    split_ifs with h
    · exact hborrow (h.2.1 ▸ hq)
    · exact hT.borrow r' hr' q j hq

theorem mono {lent' : Set Nat} (hT : Trees m R lent) (h : lent ⊆ lent') : Trees m R lent' :=
  ⟨hT.forest, hT.table, fun r hr p i hp hpres hb => h (hT.borrow r hr p i hp hpres hb)⟩

theorem node_present (hT : Trees m R lent) (hr : r ∈ R) (hp : p.length < 3) : nodeOf p.length (slot m 256 r p i) =
      if has (slot m 256 r p i) flagPresent then some (entryAddr (slot m 256 r p i)) else none := by
  rw [nodeOf, if_pos hp]
  cases hpres : has (slot m 256 r p i) flagPresent with
  | false => rfl
  | true => simp [(hT.table r hr p i hp hpres).plain]

end Trees

/-! ## The ledger -/

/-- The account of the pages: `own` are the pages of the family, `ext` those that somebody else holds
(page 0, which is never handed out, and the addresses that are not managed are among these), `lent` the
pages that somebody else has lent to the family. No page was ever freed that was not in use or that was
lent. -/
structure Ledger (s : Machine) (own ext lent : Set Nat) : Prop where
  ok : s.Ok
  lt : ∀ x ∈ own, x < s.pmm.totalPages
  apart : ∀ x ∈ own, x ∉ ext
  used : ∀ x, x < s.pmm.totalPages → (s.pmm.bitmapTest x = true ↔ x ∈ own ∨ x ∈ ext)
  outside : ∀ x, s.pmm.totalPages ≤ x → x ∈ ext
  zero : 0 ∈ ext
  lent_ext : lent ⊆ ext
  log : ∀ e ∈ s.freed, e.2 = true ∧ e.1 ∉ lent

variable {x : Nat} {s' : Machine}

namespace Ledger

variable {s : Machine} {own ext lent : Set Nat} {a n : Nat} {p' : Pmm}

section

variable (hL : Ledger s own ext lent)

include hL

theorem not_free (hx : x ∈ own ∨ x ∈ ext) : ¬ s.pmm.Free x := by
  rintro ⟨hlt, htest⟩
  rw [(hL.used x hlt).mpr hx] at htest
  simp at htest

theorem free_of_takes (htake : Takes s.pmm p' a n) (hlo : a ≤ x) (hhi : x < a + n) : x ∉ own ∧ x ∉ ext := by
  have hle := htake.le
  have hfree := htake.free x hlo hhi
  refine ⟨fun h => ?_, fun h => ?_⟩
  · rw [(hL.used x (by omega)).mpr (.inl h)] at hfree
    simp at hfree
  · rw [(hL.used x (by omega)).mpr (.inr h)] at hfree
    simp at hfree

theorem takes (htake : Takes s.pmm s'.pmm a n) (hfreed : s'.freed = s.freed) :
    Ledger s' own (ext ∪ { x | a ≤ x ∧ x < a + n }) lent := by
  have htot := htake.total
  refine ⟨⟨htake.wf, htot ▸ hL.ok.phys⟩, fun x hx => htot ▸ hL.lt x hx, ?_, ?_, ?_, .inl hL.zero,
    fun x hx => .inl (hL.lent_ext hx), hfreed ▸ hL.log⟩
  · rintro x hx (h | ⟨hlo, hhi⟩)
    · exact hL.apart x hx h
    · exact (hL.free_of_takes htake hlo hhi).1 hx
  · intro x hx
    rw [htake.test, Bool.or_eq_true, decide_eq_true_iff, hL.used x (htot ▸ hx), mem_union, mem_ofPred_eq]
    tauto
  · exact fun x hx => .inl (hL.outside x (htot ▸ hx))

theorem take (htake : Takes s.pmm s'.pmm a 1) (hfreed : s'.freed = s.freed) : Ledger s' own (insert a ext) lent := by
  have h := hL.takes htake hfreed
  rwa [show ext ∪ { x | a ≤ x ∧ x < a + 1 } = insert a ext by
    ext x
    constructor
    · rintro (h | ⟨h, h'⟩)
      · exact .inr h
      · exact .inl (by omega)
    · rintro (rfl | h)
      · exact .inr ⟨le_rfl, by omega⟩
      · exact .inl h] at h

theorem move {own' ext' : Set Nat} (hpmm : s'.pmm = s.pmm) (hfreed : s'.freed = s.freed)
    (hall : ∀ x, x ∈ own' ∨ x ∈ ext' ↔ x ∈ own ∨ x ∈ ext) (hapart : ∀ x ∈ own', x ∉ ext')
    (hown : ∀ x ∈ own', x ∈ own ∨ x < s.pmm.totalPages ∧ x ≠ 0 ∧ x ∉ lent) : Ledger s' own' ext' lent := by
  have hcase : ∀ x ∈ own', x < s.pmm.totalPages ∧ x ≠ 0 ∧ x ∉ lent := by
    intro x hx
    rcases hown x hx with h | h
    · exact ⟨hL.lt x h, fun h0 => hL.apart x h (h0 ▸ hL.zero), fun hl => hL.apart x h (hL.lent_ext hl)⟩
    · exact h
  have hext : ∀ x, x ∈ ext → x ∉ own' → x ∈ ext' := fun x hx hno => ((hall x).mpr (.inr hx)).resolve_left hno
  refine ⟨⟨hpmm ▸ hL.ok.pmm, hpmm ▸ hL.ok.phys⟩, fun x hx => hpmm ▸ (hcase x hx).1, hapart, ?_, ?_, ?_, ?_,
    hfreed ▸ hL.log⟩
  · intro x hx
    rw [hpmm] at hx ⊢
    rw [hL.used x hx, hall]
  · intro x hx
    rw [hpmm] at hx
    exact hext x (hL.outside x hx) fun h => by have := (hcase x h).1; omega
  · exact hext 0 hL.zero fun h => (hcase 0 h).2.1 rfl
  · exact fun x hx => hext x (hL.lent_ext hx) fun h => (hcase x h).2.2 hx

end

theorem give (hL : Ledger s own (insert a ext) lent) (hpmm : s'.pmm = s.pmm) (hfreed : s'.freed = s.freed)
    (ha : a ∉ ext) (hlt : a < s.pmm.totalPages) (hlent : a ∉ lent) (hzero : a ≠ 0) :
    Ledger s' (insert a own) ext lent := by
  refine hL.move hpmm hfreed (fun x => ?_) ?_ ?_
  · simp only [mem_insert_iff]
    tauto
  · rintro x (rfl | hx) hext
    · exact ha hext
    · exact hL.apart x hx (.inr hext)
  · rintro x (rfl | hx)
    · exact .inr ⟨hlt, hzero, hlent⟩
    · exact .inl hx

theorem part (hL : Ledger s own ext lent) (hpmm : s'.pmm = s.pmm) (hfreed : s'.freed = s.freed) (ha : a ∈ own) :
    Ledger s' (own \ {a}) (insert a ext) lent := by
  refine hL.move hpmm hfreed (fun x => ?_) ?_ fun x hx => .inl hx.1
  · by_cases hxa : x = a
    · subst hxa
      simp [ha]
    · simp [hxa]
  · rintro x ⟨hx, hne⟩ (rfl | hext)
    · exact hne rfl
    · exact hL.apart x hx hext

theorem free (hL : Ledger s own (insert a ext) lent) (ha : a ∉ ext) (hlt : a < s.pmm.totalPages)
    (hlent : a ∉ lent) (hzero : a ≠ 0) : Ledger (s.freePage (a * 4096)) own ext lent := by
  have hdiv : a * 4096 / 4096 = a := Nat.mul_div_cancel a (by norm_num)
  have htot : (pmmFreePage s.pmm (a * 4096)).totalPages = s.pmm.totalPages := totalPages_pmmFreePage _ _
  have hext : ∀ x, x ∈ insert a ext → x ≠ a → x ∈ ext := fun x hx hne => (mem_insert_iff.mp hx).resolve_left hne
  refine ⟨⟨pmmFreePage_wf hL.ok.pmm (by omega), htot ▸ hL.ok.phys⟩, fun x hx => htot ▸ hL.lt x hx,
    fun x hx h => hL.apart x hx (.inr h), ?_, ?_, hext 0 hL.zero (Ne.symm hzero), ?_, ?_⟩
  · intro x hx
    have hx' : x < s.pmm.totalPages := htot ▸ hx
    show (pmmFreePage s.pmm (a * 4096)).bitmapTest x = true ↔ _
    rw [bitmapTest_pmmFreePage _ _ _ (by omega), Bool.and_eq_true, decide_eq_true_iff, hL.used x hx',
      mem_insert_iff, hdiv]
    constructor
    · rintro ⟨hne, h | h | h⟩
      · exact .inl h
      · exact absurd h hne
      · exact .inr h
    · rintro (h | h)
      · exact ⟨fun hxa => hL.apart x h (hxa ▸ mem_insert _ _), .inl h⟩
      · exact ⟨fun hxa => ha (hxa ▸ h), .inr (.inr h)⟩
  · intro x hx
    have hx' : s.pmm.totalPages ≤ x := htot ▸ hx
    exact hext x (hL.outside x hx') (by omega)
  · exact fun x hx => hext x (hL.lent_ext hx) fun h => hlent (h ▸ hx)
  · intro e he
    rcases mem_cons.mp he with rfl | he
    · refine ⟨?_, ?_⟩
      · rw [hdiv]
        exact (hL.used a hlt).mpr (.inr (mem_insert _ _))
      · rw [hdiv]
        exact hlent
    · exact hL.log e he

theorem congr (hL : Ledger s own ext lent) (hpmm : s'.pmm = s.pmm) (hfreed : s'.freed = s.freed) :
    Ledger s' own ext lent :=
  hL.move hpmm hfreed (fun _ => Iff.rfl) hL.apart fun _ hx => .inl hx

end Ledger

/-! ## The family -/

/-- Address spaces with roots `R`, their trees in order and their pages accounted for. -/
structure Family (s : Machine) (R ext lent : Set Nat) : Prop where
  trees : Trees s.mem R lent
  ledger : Ledger s (owned s.mem R) ext lent

namespace Family

variable {s : Machine} {R ext lent : Set Nat} {r i a : Nat} {p : List Nat} {p' : Pmm} {w : Word}

section

variable (hfam : Family s R ext lent)

include hfam

theorem reached_used (f : Nat) (hf : Reached s.mem 256 R 4 f) : ¬ s.pmm.Free (f / 4096) := by
  obtain ⟨r, hr, p, hp, hw⟩ := hf
  exact hfam.ledger.not_free (.inl (mem_owned_of_walk hfam.trees.forest hr hp hw))

theorem reached_not_ext (f : Nat) (hf : Reached s.mem 256 R 4 f) : f / 4096 ∉ ext := by
  obtain ⟨r, hr, p, hp, hw⟩ := hf
  exact hfam.ledger.apart _ (mem_owned_of_walk hfam.trees.forest hr hp hw)

theorem congr (hpmm : s'.pmm = s.pmm) (hmem : s'.mem = s.mem) (hfreed : s'.freed = s.freed) : Family s' R ext lent :=
  ⟨hmem ▸ hfam.trees, hmem ▸ hfam.ledger.congr hpmm hfreed⟩

theorem take (htake : Takes s.pmm s'.pmm a 1) (hfreed : s'.freed = s.freed)
    (hsame : ∀ x, x % 4096 = 0 → x ≠ a * 4096 → SamePage s.mem s'.mem x) : Family s' R (insert a ext) lent := by
  have hslot := slotsSame_of_fresh s'.mem hfam.trees.forest hfam.reached_used htake hsame
  refine ⟨hfam.trees.same hslot, ?_⟩
  rw [owned_same hslot]
  exact hfam.ledger.take htake hfreed

theorem takeCleared (htake : Takes s.pmm p' a 1) (fs : List Bool) :
    Family { s with pmm := p', faults := fs, mem := s.mem.memset (a * 4096) 0 4096 } R (insert a ext) lent ∧
      SlotsSame s.mem (s.mem.memset (a * 4096) 0 4096) 256 R := by
  have hsame : ∀ x, x % 4096 = 0 → x ≠ a * 4096 → SamePage s.mem (s.mem.memset (a * 4096) 0 4096) x :=
    fun x hx hne => SamePage.memset 0 (htake.pageAddr hfam.ledger.ok.phys).aligned hx hne
  exact ⟨hfam.take htake rfl hsame, slotsSame_of_fresh _ hfam.trees.forest hfam.reached_used htake hsame⟩

end

theorem link (hfam : Family s R (insert a ext) lent) (hpmm : s'.pmm = s.pmm) (hfreed : s'.freed = s.freed)
    (ha : a ∉ ext) (hlt : a < s.pmm.totalPages) (hzero : a ≠ 0) (hlent : a ∉ lent) (hr : r ∈ R) (hp : p.length ≤ 3)
    (hupd : SlotsUpdate s.mem s'.mem 256 R r p i w) (hold : nodeOf p.length (slot s.mem 256 r p i) = none)
    (hnew : nodeOf p.length w = some (a * 4096)) (htab : p.length < 3 → TableEntry w) : Family s' R ext lent := by
  refine ⟨hfam.trees.update hupd ?_ (fun h _ => htab h) ?_, ?_⟩
  · intro f hf r' hr' q hq hw
    rw [hnew, Option.some.injEq] at hf
    have := hfam.reached_not_ext f ⟨r', hr', q, hq, hw⟩
    rw [← hf, Nat.mul_div_cancel a (by norm_num)] at this
    exact absurd (mem_insert _ _) this
  · intro hp3 _ hborr
    rw [hp3, nodeOf_leaf] at hnew
    rw [hnew.2.1] at hborr
    simp at hborr
  · have hown : owned s'.mem R = insert a (owned s.mem R) := by
      ext x
      rw [mem_owned_update hfam.trees.forest hupd hr hp, hold, hnew]
      simp [eq_comm]
    rw [hown]
    exact hfam.ledger.give hpmm hfreed ha hlt hlent hzero

section

variable (hfam : Family s R ext lent) (hpmm : s'.pmm = s.pmm) (hfreed : s'.freed = s.freed)

include hfam hpmm hfreed

/-- A leaf that keeps its frame: owned by the family before and after, or borrowed or absent before and
after. -/
theorem keep (hp : p.length = 3) (hupd : SlotsUpdate s.mem s'.mem 256 R r p i w)
    (hkeep : nodeOf 3 w = nodeOf 3 (slot s.mem 256 r p i))
    (hborrow : has w flagPresent = true → has w flagBorrowed = true → entryAddr w / 4096 ∈ lent) (hr : r ∈ R) :
    Family s' R ext lent := by
  refine ⟨hfam.trees.update hupd ?_ (fun h => by omega) fun _ => hborrow, ?_⟩
  · intro f hf r' hr' q hq hw
    refine hfam.trees.forest.sep hr' hr hq ?_ hw ?_
    · show (p ++ [i]).length ≤ 4
      rw [length_append, length_singleton]
      omega
    · rw [walk_snoc_slot, hp, ← hkeep, ← hp, hf]
  · rw [owned_keep hupd (hp ▸ hkeep)]
    exact hfam.ledger.congr hpmm hfreed

theorem unlink (hr : r ∈ R) (hp : p.length ≤ 3) (hupd : SlotsUpdate s.mem s'.mem 256 R r p i 0)
    (hold : nodeOf p.length (slot s.mem 256 r p i) = some (a * 4096)) : Family s' R (insert a ext) lent := by
  have hlen : (p ++ [i]).length ≤ 4 := by
    rw [length_append, length_singleton]
    omega
  have hown : a ∈ owned s.mem R := ⟨r, hr, _, hlen, by rw [walk_snoc_slot, hold]⟩
  refine ⟨hfam.trees.update hupd ?_ ?_ ?_, ?_⟩
  · intro f hf
    rw [nodeOf_zero] at hf
    simp at hf
  · intro _ h
    simp at h
  · intro _ h
    simp at h
  · have hout : owned s'.mem R = owned s.mem R \ {a} := by
      ext x
      rw [mem_owned_update hfam.trees.forest hupd hr hp, hold, nodeOf_zero]
      simp [eq_comm]
    rw [hout]
    exact hfam.ledger.part hpmm hfreed hown

end

theorem free (hfam : Family s R (insert a ext) lent) (ha : a ∉ ext) (hlt : a < s.pmm.totalPages) (hzero : a ≠ 0)
    (hlent : a ∉ lent) : Family (s.freePage (a * 4096)) R ext lent :=
  ⟨hfam.trees, hfam.ledger.free ha hlt hlent hzero⟩

theorem of_owned (hfam : Family s R ext lent) (ha : a ∈ owned s.mem R) :
    a ∉ ext ∧ a < s.pmm.totalPages ∧ a ≠ 0 ∧ a ∉ lent :=
  ⟨hfam.ledger.apart a ha, hfam.ledger.lt a ha, fun h => hfam.ledger.apart a ha (h ▸ hfam.ledger.zero),
    fun h => hfam.ledger.apart a ha (hfam.ledger.lent_ext h)⟩

theorem of_takes (hfam : Family s R ext lent) (htake : Takes s.pmm p' a 1) :
    a ∉ ext ∧ a < s.pmm.totalPages ∧ a ≠ 0 ∧ a ∉ lent := by
  have hext := (hfam.ledger.free_of_takes htake le_rfl (by omega)).2
  exact ⟨hext, htake.free_first.1, by have := htake.pos; omega, fun h => hext (hfam.ledger.lent_ext h)⟩

end Family

end SzpontOS.Mm
