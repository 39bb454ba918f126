import SzpontOS.Mm.SpaceLife

/-!
# Cloning an address space

`vmm_clone_address_space` visits the leaves of the source tree in the order of their addresses, copies each frame and
maps the copy in the new tree. `CloneInv s₀ s n` is the state after the pages with numbers below `n`: their leaves are
copied, no later leaf exists yet, and each table of the new tree has the `USER` bit of the first leaf that was mapped
below it. One step of the innermost loop takes `n` to `n + 1` (`cloneLeaf_step`); entries of the source tree that lead
nowhere skip the pages below them (`CloneInv.skip`).
-/

namespace SzpontOS.Mm

open Lib Lib.Radix List BitVec Set

/-! ## Leaves by page number -/

def pageRoute (n : Nat) : List Nat := route (n * 4096)

def leafOf (m : Mem) (r n : Nat) : Word := slot m 256 r (pageRoute n) (ptIndex (n * 4096))

def pageNumber (i j k l : Nat) : Nat := ((i * 512 + j) * 512 + k) * 512 + l

variable {m : Mem} {r n j a pt i k l src : Nat} {q : List Nat} {s₁ s' : Machine}

section PageNumbers

theorem leafVirt_eq (hj : j < 512) (hk : k < 512) (hl : l < 512) : leafVirt i j k l = pageNumber i j k l * 4096 := by
  rw [leafVirt, pageNumber]
  simp only [Nat.shiftLeft_eq]
  have h1 : i * 2 ^ 39 ||| j * 2 ^ 30 = i * 2 ^ 39 + j * 2 ^ 30 := Bits.or_eq_add 39 (by omega) (by omega)
  have h2 : (i * 2 ^ 39 + j * 2 ^ 30) ||| k * 2 ^ 21 = i * 2 ^ 39 + j * 2 ^ 30 + k * 2 ^ 21 :=
    Bits.or_eq_add 30 (by omega) (by omega)
  have h3 : (i * 2 ^ 39 + j * 2 ^ 30 + k * 2 ^ 21) ||| l * 2 ^ 12 = i * 2 ^ 39 + j * 2 ^ 30 + k * 2 ^ 21 + l * 2 ^ 12 :=
    Bits.or_eq_add 21 (by omega) (by omega)
  rw [h1, h2, h3]
  omega

theorem pageRoute_pageNumber (hi : i < 256) (hj : j < 512) (hk : k < 512) (hl : l < 512) :
    pageRoute (pageNumber i j k l) = [i, j, k] := by
  simp only [pageRoute, route, pageNumber, pml4Index_eq, pdptIndex_eq, pdIndex_eq, cons.injEq, and_true]
  omega

theorem ptIndex_pageNumber (hl : l < 512) : ptIndex (pageNumber i j k l * 4096) = l := by
  rw [ptIndex_eq, pageNumber]
  omega

theorem leafOf_pageNumber (hi : i < 256) (hj : j < 512) (hk : k < 512) (hl : l < 512) :
    leafOf m r (pageNumber i j k l) = slot m 256 r [i, j, k] l := by
  rw [leafOf, pageRoute_pageNumber hi hj hk hl, ptIndex_pageNumber hl]

theorem page_eq_of_route {n' : Nat} (hn : n < 2 ^ 35) (hn' : n' < 2 ^ 35) (hroute : pageRoute n = pageRoute n')
    (hidx : ptIndex (n * 4096) = ptIndex (n' * 4096)) : n = n' := by
  simp only [pageRoute, route, pml4Index_eq, pdptIndex_eq, pdIndex_eq, cons.injEq, and_true] at hroute
  rw [ptIndex_eq, ptIndex_eq] at hidx
  omega

theorem pageRoute_div (hn : n < 2 ^ 35) : pageRoute n = [n / 2 ^ 27, n / 2 ^ 18 % 512, n / 2 ^ 9 % 512] := by
  simp only [pageRoute, route, pml4Index_eq, pdptIndex_eq, pdIndex_eq, cons.injEq, and_true]
  omega

end PageNumbers

theorem length_pageRoute (n : Nat) : (pageRoute n).length = 3 := rfl

/-! ## The flags of a copy -/

/-- The flags that the copy of a leaf gets. -/
def cloneFlags (e : Word) : Word := e &&& ~~~physAddrMask &&& ~~~flagBorrowed

theorem cloneFlags_own (e : Word) : OwnFlags (cloneFlags e) := by
  refine ⟨?_, ?_⟩
  · rw [cloneFlags, BitVec.and_assoc, BitVec.and_assoc,
      show ~~~physAddrMask &&& (~~~flagBorrowed &&& physAddrMask) = 0#64 by decide, BitVec.and_zero]
  · rw [has_borrowed, cloneFlags, getLsbD_and, show (~~~flagBorrowed).getLsbD 9 = false by decide,
      Bool.and_false]

theorem getLsbD_cloneFlags (e : Word) {b : Nat} (hb : (~~~physAddrMask &&& ~~~flagBorrowed).getLsbD b = true) :
    (cloneFlags e).getLsbD b = e.getLsbD b := by
  rw [cloneFlags, BitVec.and_assoc, getLsbD_and, hb, Bool.and_true]

theorem cloneFlags_user (e : Word) : has (cloneFlags e) flagUser = has e flagUser := by
  rw [has_user, has_user, getLsbD_cloneFlags e (by decide)]

theorem cloneFlags_writable (e : Word) : has (cloneFlags e) flagWritable = has e flagWritable := by
  rw [has_writable, has_writable, getLsbD_cloneFlags e (by decide)]

/-! ## The state of the loop -/

/-- Two pages with the same contents. -/
def SameContents (m : Mem) (a : Nat) (m' : Mem) (a' : Nat) : Prop := ∀ b, b < 4096 → m (a + b) = m' (a' + b)

/-- The state of `vmm_clone_address_space` after the pages below `n`, when it started the loops in `s₀`. -/
structure CloneInv (s₀ s : Machine) (R ext lent : Set Nat) (src dst n : Nat) : Prop where
  fam : Family s R ext lent
  others : ∀ r ∈ R, r ≠ dst → ∀ (q : List Nat) (j : Nat), q.length ≤ 3 → slot s.mem 256 r q j = slot s₀.mem 256 r q j
  data : ∀ x, x % 4096 = 0 → ¬ s₀.pmm.Free (x / 4096) → ¬ Reached s₀.mem 256 R 3 x → SamePage s₀.mem s.mem x
  free : ∀ x, s.pmm.Free x → s₀.pmm.Free x
  tables : ∀ x, Reached s.mem 256 R 3 x → Reached s₀.mem 256 R 3 x ∨ s₀.pmm.Free (x / 4096)
  steady : Steady s₀ s
  copied : ∀ k, k < 2 ^ 35 → k < n → has (leafOf s₀.mem src k) flagPresent = true →
    ∃ a, PageAddr a ∧ s₀.pmm.Free (a / 4096) ∧ leafOf s.mem dst k = leafEntry a (cloneFlags (leafOf s₀.mem src k)) ∧
      SameContents s.mem a s₀.mem (entryAddr (leafOf s₀.mem src k))
  absent : ∀ k, k < 2 ^ 35 → n ≤ k ∨ has (leafOf s₀.mem src k) flagPresent = false → leafOf s.mem dst k = 0
  table : ∀ (p : List Nat) (i : Nat), p.length < 3 → slot s.mem 256 dst p i = 0 ∧
      (∀ k, k < n → p ++ [i] <+: pageRoute k → has (leafOf s₀.mem src k) flagPresent = false) ∨
    ∃ k a, k < n ∧ p ++ [i] <+: pageRoute k ∧ has (leafOf s₀.mem src k) flagPresent = true ∧
      (∀ k', k' < k → p ++ [i] <+: pageRoute k' → has (leafOf s₀.mem src k') flagPresent = false) ∧
      PageAddr a ∧ slot s.mem 256 dst p i = linkEntry a (cloneFlags (leafOf s₀.mem src k))

namespace CloneInv

variable {s₀ s : Machine} {R ext lent : Set Nat} {dst n' : Nat}

section

variable (h : CloneInv s₀ s R ext lent src dst n)

include h

theorem skip (hle : n ≤ n') (habs : ∀ k, n ≤ k → k < n' → has (leafOf s₀.mem src k) flagPresent = false) :
    CloneInv s₀ s R ext lent src dst n' := by
  have hnew : ∀ k, k < n' → has (leafOf s₀.mem src k) flagPresent = true → k < n := by
    intro k hk hpres
    by_contra hge
    rw [habs k (by omega) hk] at hpres
    simp at hpres
  refine ⟨h.fam, h.others, h.data, h.free, h.tables, h.steady,
    fun k hk hkn hpres => h.copied k hk (hnew k hkn hpres) hpres, fun k hk hcase => ?_, fun p i hp => ?_⟩
  · refine h.absent k hk ?_
    rcases hcase with hge | hab
    · exact .inl (by omega)
    · exact .inr hab
  · rcases h.table p i hp with ⟨hzero, hno⟩ | ⟨k, a, hk, hrest⟩
    · refine .inl ⟨hzero, fun k hk hpre => ?_⟩
      by_cases hkn : k < n
      · exact hno k hkn hpre
      · exact habs k (by omega) hk
    · exact .inr ⟨k, a, by omega, hrest⟩

theorem source (hsrc : src ∈ R) (hne : src ≠ dst) (hq : q.length ≤ 3) (j : Nat) :
    slot s.mem 256 src q j = slot s₀.mem 256 src q j := h.others src hsrc hne q j hq

theorem walk_source (hsrc : src ∈ R) (hne : src ≠ dst) (hq : q.length ≤ 4) :
    walk (child s.mem 256) src q = walk (child s₀.mem 256) src q := by
  refine walk_eq_of_slots fun q' j hqj => h.source hsrc hne ?_ j
  rw [← hqj, length_append, length_singleton] at hq
  omega

end

end CloneInv

theorem Family.leaf_data {s : Machine} {R ext lent : Set Nat} (hfam : Family s R ext lent) (hr : r ∈ R)
    (hq : q.length = 3) (hpres : has (slot s.mem 256 r q j) flagPresent = true) :
    ¬ s.pmm.Free (entryAddr (slot s.mem 256 r q j) / 4096) ∧
      ¬ Reached s.mem 256 R 3 (entryAddr (slot s.mem 256 r q j)) := by
  cases hborr : has (slot s.mem 256 r q j) flagBorrowed with
  | true =>
    have hlent := hfam.trees.borrow r hr q j hq hpres hborr
    refine ⟨hfam.ledger.not_free (.inr (hfam.ledger.lent_ext hlent)), fun hreach => ?_⟩
    exact hfam.reached_not_ext _ (hreach.mono (by norm_num)) (hfam.ledger.lent_ext hlent)
  | false =>
    have hw : walk (child s.mem 256) r (q ++ [j]) = some (entryAddr (slot s.mem 256 r q j)) := by
      rw [walk_snoc_slot, hq, nodeOf_leaf]
      exact ⟨hpres, hborr, rfl⟩
    have hlen : (q ++ [j]).length = 4 := by rw [length_append, hq, length_singleton]
    refine ⟨hfam.reached_used _ ⟨r, hr, _, hlen.le, hw⟩, ?_⟩
    rintro ⟨r', hr', q', hq', hw'⟩
    have hsep := hfam.trees.forest.sep hr hr' hlen.le (show q'.length ≤ 4 by omega) hw hw'
    rw [← hsep.2, hlen] at hq'
    omega

/-! ## One page -/

/-- What remains when the loop is left early: the family is in order, with a part of the new tree in it. -/
structure CloneFailed (s₀ s : Machine) (R ext lent : Set Nat) (dst : Nat) : Prop where
  fam : Family s R ext lent
  steady : Steady s₀ s
  others : ∀ r ∈ R, r ≠ dst → ∀ (q : List Nat) (j : Nat), q.length ≤ 3 → slot s.mem 256 r q j = slot s₀.mem 256 r q j

section Step

variable {s₀ s : Machine} {R ext lent : Set Nat} {dst : Pagemap}

/-- What mapping a copy does to the machine: `s` becomes `s'` by taking page `a`, filling it with a copy,
making new tables and writing the leaf of page `n`. -/
structure Copied (s s' : Machine) (R : Set Nat) (dst n a : Nat) (e : Word) : Prop where
  others : ∀ r ∈ R, r ≠ dst → ∀ (q : List Nat) (j : Nat), q.length ≤ 3 → slot s'.mem 256 r q j = slot s.mem 256 r q j
  leaf : ∀ (q : List Nat) (j : Nat), q.length = 3 → slot s'.mem 256 dst q j =
    if q = pageRoute n ∧ j = ptIndex (n * 4096) then leafEntry (a * 4096) (cloneFlags e) else slot s.mem 256 dst q j
  table : ∀ (q : List Nat) (j : Nat), q.length < 3 → slot s'.mem 256 dst q j = slot s.mem 256 dst q j ∨
    q ++ [j] <+: pageRoute n ∧ has (slot s.mem 256 dst q j) flagPresent = false ∧
      ∃ b, PageAddr b ∧ slot s'.mem 256 dst q j = linkEntry b (cloneFlags e)
  present : ∀ (q : List Nat) (j : Nat), q.length < 3 → q ++ [j] <+: pageRoute n →
    has (slot s'.mem 256 dst q j) flagPresent = true
  data : ∀ x, x % 4096 = 0 → ¬ s.pmm.Free (x / 4096) → ¬ Reached s.mem 256 R 3 x → SamePage s.mem s'.mem x
  copy : SameContents s'.mem (a * 4096) s.mem (entryAddr e)
  free : ∀ x, s'.pmm.Free x → s.pmm.Free x
  tables : ∀ x, Reached s'.mem 256 R 3 x → Reached s.mem 256 R 3 x ∨ s.pmm.Free (x / 4096)
  steady : Steady s s'
  addr : PageAddr (a * 4096)
  fresh : s.pmm.Free a

theorem Copied.of_descent {p' : Pmm} {e : Word} (hfam : Family s R ext lent)
    (hdst : dst.pml4Phys ∈ R) (htakes : Takes s.pmm p' a 1)
    (hdesc : Descent { s with
      pmm := p', faults := s.faults.tail, mem := s.mem.memcpy (a * 4096) (entryAddr e) 4096 } s₁ R dst.pml4Phys
      (n * 4096) (cloneFlags e))
    (hfam1 : Family s₁ R (insert a ext) lent) (hpt : walk (child s₁.mem 256) dst.pml4Phys (pageRoute n) = some pt) :
    Copied s (s₁.write pt (ptIndex (n * 4096)) (leafEntry (a * 4096) (cloneFlags e))) R dst.pml4Phys n a e := by
  have haddr := htakes.pageAddr hfam.ledger.ok.phys
  have hdiv : a * 4096 / 4096 = a := Nat.mul_div_cancel a (by norm_num)
  have hpage : ∀ x, x % 4096 = 0 → x ≠ a * 4096 → SamePage s.mem (s.mem.memcpy (a * 4096) (entryAddr e) 4096) x :=
    fun x hx hne => .memcpy _ haddr.aligned hx hne
  have hsame := slotsSame_of_fresh _ hfam.trees.forest hfam.reached_used htakes hpage
  have htake : Family { s with
      pmm := p', faults := s.faults.tail, mem := s.mem.memcpy (a * 4096) (entryAddr e) 4096 } R (insert a ext) lent :=
    hfam.take htakes rfl hpage
  have hupd : SlotsUpdate s₁.mem (writeEntry s₁.mem pt (ptIndex (n * 4096)) (leafEntry (a * 4096) (cloneFlags e)))
      256 R dst.pml4Phys (pageRoute n) (ptIndex (n * 4096)) (leafEntry (a * 4096) (cloneFlags e)) :=
    hfam1.slotsUpdate_leaf hdst hpt _
  have hpt3 : Reached s₁.mem 256 R 3 pt := ⟨_, hdst, pageRoute n, le_rfl, hpt⟩
  have hptaddr := (hfam1.trees.forest.table_pageAddr hpt3).aligned
  have htabs0 : ∀ x, Reached (s.mem.memcpy (a * 4096) (entryAddr e) 4096) 256 R 3 x → Reached s.mem 256 R 3 x := by
    rintro x ⟨r, hr, q, hq, hw⟩
    exact ⟨r, hr, q, hq, by rw [← hw, Forest.walk_same hsame hr (by omega)]⟩
  have htabs1 : ∀ x, Reached s₁.mem 256 R 3 x → Reached s.mem 256 R 3 x ∨ s.pmm.Free (x / 4096) := by
    intro x hx
    rcases hdesc.tables x hx with h | h
    · exact .inl (htabs0 x h)
    · exact .inr (htakes.free_of_free h).1
  refine ⟨fun r hr hne q j hq => ?_, fun q j hq => ?_, fun q j hq => ?_, fun q j hq hpre => ?_,
    fun x hx hused hdata => ?_, fun b hb => ?_, fun x hx => (htakes.free_of_free (hdesc.free x hx)).1, fun x hx => ?_,
    ⟨hdesc.total.trans htakes.total, hdesc.heap⟩, haddr, htakes.free_first⟩
  · rw [Machine.write, hupd r hr q j hq, if_neg (fun h => hne h.1), hdesc.other hr hne hq, hsame r hr q j hq]
  · rw [Machine.write, hupd _ hdst q j (by omega), hdesc.leaf hdst hq, hsame _ hdst q j (by omega)]
    exact if_congr (by simp) rfl rfl
  · have hne : ¬ (dst.pml4Phys = dst.pml4Phys ∧ q = pageRoute n ∧ j = ptIndex (n * 4096)) := by
      rintro ⟨_, rfl, _⟩
      simp [length_pageRoute] at hq
    rw [Machine.write, hupd _ hdst q j (by omega), if_neg hne, ← hsame _ hdst q j (by omega)]
    rcases hdesc.slots _ hdst q j (by omega) with heq | ⟨_, hpre, habs, hlink⟩
    · exact .inl heq
    · exact .inr ⟨hpre, habs, hlink⟩
  · have hne : ¬ (dst.pml4Phys = dst.pml4Phys ∧ q = pageRoute n ∧ j = ptIndex (n * 4096)) := by
      rintro ⟨_, rfl, _⟩
      simp [length_pageRoute] at hq
    rw [Machine.write, hupd _ hdst q j (by omega), if_neg hne]
    exact (slot_on_route hq hpre hpt).1
  · have hxa : x ≠ a * 4096 := by
      rintro rfl
      rw [hdiv] at hused
      exact hused htakes.free_first
    have hxpt : x ≠ pt := by
      rintro rfl
      rcases htabs1 x hpt3 with h | h
      · exact hdata h
      · exact hused h
    exact ((hpage x hx hxa).trans (hdesc.data x hx (fun h => hused (htakes.free_of_free h).1)
      fun h => hdata (htabs0 x h))).trans (.writeEntry _ hptaddr hx (ptIndex_lt _) hxpt)
  · -- the copy is held by the caller while the tables are made, so they do not touch it
    have hapt : a * 4096 ≠ pt := by
      rintro rfl
      have := hfam1.reached_not_ext _ (hpt3.mono (by norm_num))
      rw [hdiv] at this
      exact this (mem_insert _ _)
    have hafree : ¬ p'.Free (a * 4096 / 4096) := by
      rw [hdiv]
      exact fun h => (htakes.free_of_free h).2 rfl
    have hatable : ¬ Reached (s.mem.memcpy (a * 4096) (entryAddr e) 4096) 256 R 3 (a * 4096) := by
      intro h
      have := htake.reached_not_ext _ (h.mono (by norm_num))
      rw [hdiv] at this
      exact this (mem_insert _ _)
    have hwrite := SamePage.writeEntry (m := s₁.mem) (leafEntry (a * 4096) (cloneFlags e)) hptaddr haddr.aligned
      (ptIndex_lt (n * 4096)) hapt
    have hcopy := hdesc.data _ haddr.aligned hafree hatable (a * 4096 + b) (by omega) (by omega)
    exact (hwrite (a * 4096 + b) (by omega) (by omega)).trans (hcopy.trans (Mem.memcpy_inside _ _ _ _ hb))
  · obtain ⟨r, hr, q, hq, hw⟩ := hx
    rw [Machine.write, Forest.walk_update hupd hr (by omega), if_neg] at hw
    · exact htabs1 x ⟨r, hr, q, hq, hw⟩
    · rintro ⟨_, rfl⟩
      simp [length_pageRoute] at hq

theorem CloneInv.advance (h : CloneInv s₀ s R ext lent src dst.pml4Phys n) (hfam0 : Family s₀ R ext lent)
    (hsrc : src ∈ R) (hdst : dst.pml4Phys ∈ R) (hn : n < 2 ^ 35)
    (hpresent : has (leafOf s₀.mem src n) flagPresent = true) (hfam' : Family s' R ext lent)
    (hcopy : Copied s s' R dst.pml4Phys n a (leafOf s₀.mem src n)) :
    CloneInv s₀ s' R ext lent src dst.pml4Phys (n + 1) := by
  have hleaf : ∀ k, k < 2 ^ 35 → leafOf s'.mem dst.pml4Phys k =
      if k = n then leafEntry (a * 4096) (cloneFlags (leafOf s₀.mem src n)) else leafOf s.mem dst.pml4Phys k := by
    intro k hk
    rw [leafOf, hcopy.leaf _ _ (length_pageRoute k)]
    refine if_congr ⟨fun h => page_eq_of_route hk hn h.1 h.2, ?_⟩ rfl rfl
    rintro rfl
    exact ⟨rfl, rfl⟩
  have hdata0 : ∀ x, ¬ s₀.pmm.Free (x / 4096) → ¬ Reached s₀.mem 256 R 3 x → ¬ Reached s.mem 256 R 3 x := by
    intro x hused hdata hx
    rcases h.tables x hx with ht | hf
    · exact hdata ht
    · exact hused hf
  refine ⟨hfam', fun r hr hne q j hq => (hcopy.others r hr hne q j hq).trans (h.others r hr hne q j hq),
    fun x hx hused hdata => ?_, fun x hx => h.free x (hcopy.free x hx), fun x hx => ?_, h.steady.trans hcopy.steady,
    fun k hk hkn hp => ?_, fun k hk hcase => ?_, fun p i hp => ?_⟩
  · exact (h.data x hx hused hdata).trans
      (hcopy.data x hx (fun hf => hused (h.free _ hf)) (hdata0 x hused hdata))
  · rcases hcopy.tables x hx with ht | hf
    · exact h.tables x ht
    · exact .inr (h.free _ hf)
  · rw [hleaf k hk]
    by_cases hkn' : k = n
    · subst hkn'
      rw [if_pos rfl]
      refine ⟨a * 4096, hcopy.addr, ?_, rfl, fun b hb => (hcopy.copy b hb).trans ?_⟩
      · rw [Nat.mul_div_cancel a (by norm_num)]
        exact h.free a hcopy.fresh
      · obtain ⟨hused, hdata⟩ := hfam0.leaf_data hsrc (length_pageRoute k) hp
        rw [← leafOf] at hused hdata
        exact h.data _ (entryAddr_mod _) hused hdata _ (by omega) (by omega)
    · rw [if_neg hkn']
      obtain ⟨b, hb, hfree, hent, hsame⟩ := h.copied k hk (by omega) hp
      refine ⟨b, hb, hfree, hent, fun c hc => ?_⟩
      have hown := cloneFlags_own (leafOf s₀.mem src k)
      have hpres : has (slot s.mem 256 dst.pml4Phys (pageRoute k) (ptIndex (k * 4096))) flagPresent = true := by
        rw [← leafOf, hent]
        exact leafEntry_present hb
      obtain ⟨hused, hdata⟩ := h.fam.leaf_data hdst (length_pageRoute k) hpres
      rw [← leafOf, hent, leafEntry_addr hb hown.addr] at hused hdata
      rw [hcopy.data b hb.aligned hused hdata _ (by omega) (by omega)]
      exact hsame c hc
  · have hkn : k ≠ n := by
      rintro rfl
      rcases hcase with hge | hab
      · omega
      · rw [hpresent] at hab
        simp at hab
    rw [hleaf k hk, if_neg hkn]
    refine h.absent k hk (hcase.imp_left fun hge => by omega)
  · rcases h.table p i hp with ⟨hzero, hno⟩ | ⟨k, b, hk, hpre, hp', hfst, hb, hlink⟩
    · by_cases hpre : p ++ [i] <+: pageRoute n
      · -- page `n` is the first below this entry
        rcases hcopy.table p i hp with heq | ⟨_, _, b, hb, hlink⟩
        · have := hcopy.present p i hp hpre
          rw [heq, hzero] at this
          simp at this
        · exact .inr ⟨n, b, by omega, hpre, hpresent, fun k' hk' => hno k' hk', hb, hlink⟩
      · left
        refine ⟨?_, fun k hk hpre' => ?_⟩
        · rcases hcopy.table p i hp with heq | ⟨hpre', _⟩
          · exact heq.trans hzero
          · exact absurd hpre' hpre
        · rcases Nat.lt_succ_iff_lt_or_eq.mp hk with hlt | rfl
          · exact hno k hlt hpre'
          · exact absurd hpre' hpre
    · refine .inr ⟨k, b, by omega, hpre, hp', hfst, hb, ?_⟩
      rcases hcopy.table p i hp with heq | ⟨_, habs, _⟩
      · exact heq.trans hlink
      · rw [hlink, linkEntry_present hb] at habs
        simp at habs

theorem CloneInv.entry (h : CloneInv s₀ s R ext lent src dst.pml4Phys n) (hsrc : src ∈ R) (hne : src ≠ dst.pml4Phys)
    (hi : i < 256) (hj : j < 512) (hk : k < 512) (hl : l < 512) (hpt : walk (child s₀.mem 256) src [i, j, k] = some pt) :
    readEntry s.mem pt l = leafOf s₀.mem src (pageNumber i j k l) := by
  rw [← h.walk_source hsrc hne (by simp)] at hpt
  rw [leafOf_pageNumber hi hj hk hl, ← h.source hsrc hne (q := [i, j, k]) le_rfl l,
    slot_of_walk hpt (by simp [bound, hl])]

/-- **One page.** The innermost body of the clone copies page `n`, passes over it, or leaves the loop with
the family in order. -/
theorem cloneLeaf_step (h : CloneInv s₀ s R ext lent src dst.pml4Phys (pageNumber i j k l))
    (hfam0 : Family s₀ R ext lent) (hsrc : src ∈ R) (hdst : dst.pml4Phys ∈ R) (hne : src ≠ dst.pml4Phys)
    (hkern : dst.isKernel = false) (hi : i < 256) (hj : j < 512) (hk : k < 512) (hl : l < 512)
    (hpt : walk (child s₀.mem 256) src [i, j, k] = some pt) :
    Outcome (CloneInv s₀ · R ext lent src dst.pml4Phys (pageNumber i j k l + 1))
      (CloneFailed s₀ · R ext lent dst.pml4Phys)
      (cloneLeaf dst i j k pt s l) := by
  have hn : pageNumber i j k l < 2 ^ 35 := by
    rw [pageNumber]
    omega
  have hent := h.entry hsrc hne hi hj hk hl hpt
  have hstay := h.steady
  rw [cloneLeaf]
  simp only [hent, leafVirt_eq hj hk hl]
  generalize hnum : pageNumber i j k l = n at *
  cases hpres : has (leafOf s₀.mem src n) flagPresent with
  | false =>
    refine .ok (h.skip (by omega) fun k' hlo hhi => ?_)
    rw [show k' = n by omega, hpres]
  | true =>
    rcases s.allocPage_spec h.fam.ledger.ok with ⟨a, p', htakes, hgot⟩ | hfail
    swap
    · rw [hfail]
      exact .error ⟨h.fam.congr rfl rfl rfl, hstay, h.others⟩
    obtain ⟨haext, halt, haz, hal⟩ := h.fam.of_takes htakes
    have haddr := htakes.pageAddr h.fam.ledger.ok.phys
    have hpage : ∀ x, x % 4096 = 0 → x ≠ a * 4096 →
        SamePage s.mem (s.mem.memcpy (a * 4096) (entryAddr (leafOf s₀.mem src n)) 4096) x :=
      fun x hx hne => .memcpy _ haddr.aligned hx hne
    have htake : Family { s with
        pmm := p', faults := s.faults.tail,
        mem := s.mem.memcpy (a * 4096) (entryAddr (leafOf s₀.mem src n)) 4096 } R (insert a ext) lent :=
      h.fam.take htakes rfl hpage
    have hsame := slotsSame_of_fresh _ h.fam.trees.forest h.fam.reached_used htakes hpage
    have howned := htake.mapPage_owned (v := n * 4096) hdst hkern haext (htakes.total ▸ halt) haz hal
      (cloneFlags_own (leafOf s₀.mem src n)).addr (cloneFlags_own (leafOf s₀.mem src n)).own fun _ => by
        rw [hsame _ hdst _ _ le_rfl]
        have := h.absent n hn (.inl le_rfl)
        rw [leafOf, pageRoute] at this
        rw [this, nodeOf_zero]
    obtain ⟨s₁, hfam1, hdesc, hmap | ⟨-, pt', hpt', hmap⟩⟩ :=
      htake.mapPage_cases hdst hkern (n * 4096) (a * 4096) (cloneFlags (leafOf s₀.mem src n))
    all_goals
      rw [hmap] at howned
      rw [hgot]
      rw [if_neg (show a * 4096 ≠ 0 by omega), ← cloneFlags, hmap]
    · refine .error ⟨hfam1.free haext (hdesc.total.symm ▸ htakes.total.symm ▸ halt) haz hal,
        hstay.trans ?_, fun r hr hne' q j hq => ?_⟩
      · exact ⟨(totalPages_pmmFreePage _ _).trans (hdesc.total.trans htakes.total), hdesc.heap⟩
      · show slot s₁.mem 256 r q j = _
        rw [hdesc.other hr hne' hq, hsame r hr q j hq, h.others r hr hne' q j hq]
    · have hdown : pageDown (a * 4096) = a * 4096 := by
        rw [pageDown]
        omega
      rw [hdown] at howned ⊢
      exact .ok
        (h.advance hfam0 hsrc hdst hn hpres howned (.of_descent h.fam hdst htakes hdesc hfam1 hpt'))

/-! ## The loops -/

theorem leafOf_below_none {p : List Nat} (h : walk (child m 256) src p = none) (hpre : p <+: pageRoute n) :
    has (leafOf m src n) flagPresent = false := by
  rw [leafOf, slot_below_none hpre h]
  exact has_zero _

theorem present_not_huge {α : Type} {d : Nat} (hd : d < 3) (e : Word) (body : Nat → α) (skip : α) :
    (if has e flagPresent && !has e flagHuge then body (entryAddr e) else skip) = match nodeOf d e with
      | some u => body u
      | none => skip := by
  rw [nodeOf, if_pos hd]
  cases has e flagPresent <;> cases has e flagHuge <;> rfl

/-- What carries an invariant through the loops: it contains `CloneInv`, passes over pages that are not
mapped, and is kept by the innermost body. -/
structure LoopInv (s₀ : Machine) (R ext lent : Set Nat) (src : Nat) (dst : Pagemap) (Inv : Nat → Machine → Prop)
    (Err : Machine → Prop) : Prop where
  base : ∀ n s, Inv n s → CloneInv s₀ s R ext lent src dst.pml4Phys n
  skip : ∀ n n' s, Inv n s → n ≤ n' → (∀ k, n ≤ k → k < n' → has (leafOf s₀.mem src k) flagPresent = false) → Inv n' s
  leaf : ∀ i j k l pt s, Inv (pageNumber i j k l) s → i < 256 → j < 512 → k < 512 → l < 512 →
    walk (child s₀.mem 256) src [i, j, k] = some pt →
    Outcome (Inv (pageNumber i j k l + 1)) Err (cloneLeaf dst i j k pt s l)

variable {Inv : Nat → Machine → Prop} {Err : Machine → Prop} (hloop : LoopInv s₀ R ext lent src dst Inv Err)
  (hsrc : src ∈ R) (hne : src ≠ dst.pml4Phys)
include hloop hsrc hne

/-- One level of the loops: follow the entry at the end of `q ++ [i]`, or pass over the pages `f 0` to `f 512` below
it. -/
theorem clone_level {t hi : Nat} {f : Nat → Nat} {body : Nat → Machine → Nat → Except Machine Machine} (h : Inv (f 0) s)
    (hq : q.length < 3) (ht : walk (child s₀.mem 256) src q = some t) (hi' : i < bound 256 q.length)
    (hend : f 512 = hi ∧ f 0 ≤ hi) (hpage : ∀ n, f 0 ≤ n → n < hi → q ++ [i] <+: pageRoute n)
    (hbody : ∀ u, walk (child s₀.mem 256) src (q ++ [i]) = some u → ∀ x s, x < 512 → Inv (f x) s →
      Outcome (Inv (f (x + 1))) Err (body u s x)) :
    Outcome (Inv hi) Err
      (if has (readEntry s.mem t i) flagPresent && !has (readEntry s.mem t i) flagHuge
        then (List.range 512).foldlM (body (entryAddr (readEntry s.mem t i))) s else .ok s) := by
  have hbase := hloop.base _ s h
  have hnode : nodeOf q.length (readEntry s.mem t i) = walk (child s₀.mem 256) src (q ++ [i]) := by
    rw [← hbase.walk_source hsrc hne (by omega)] at ht
    rw [walk_snoc_slot, ← hbase.source hsrc hne (by omega), slot_of_walk ht hi']
  rw [present_not_huge hq _ fun u => (List.range 512).foldlM (body u) s, hnode]
  cases hu : walk (child s₀.mem 256) src (q ++ [i]) with
  | some u => exact hend.1 ▸ foldlM_range_rule (fun x s => Inv (f x) s) Err h (hbody u hu)
  | none => exact .ok (hloop.skip _ hi s h hend.2 fun n hlo hhi => leafOf_below_none hu (hpage n hlo hhi))

theorem clonePt_step {pd : Nat} (h : Inv (pageNumber i j k 0) s) (hi : i < 256) (hj : j < 512) (hk : k < 512)
    (hpd : walk (child s₀.mem 256) src [i, j] = some pd) :
    Outcome (Inv (pageNumber i j (k + 1) 0)) Err (clonePt dst i j pd s k) := by
  refine clone_level (q := [i, j]) (f := pageNumber i j k) hloop hsrc hne h (by simp) hpd (by simp [bound, hk]) ?_
    (fun n hlo hhi => ?_) fun pt hpt l s hl h' => ?_
  · simp only [pageNumber]
    omega
  · simp only [pageNumber] at hlo hhi
    rw [pageRoute_div (by omega)]
    simp only [List.cons_append, nil_append, cons_prefix_cons, nil_prefix, and_true]
    omega
  · have hnext : pageNumber i j k (l + 1) = pageNumber i j k l + 1 := by
      simp only [pageNumber]
      omega
    exact hnext ▸ hloop.leaf i j k l pt s h' hi hj hk hl hpt

theorem clonePd_step {pdpt : Nat} (h : Inv (pageNumber i j 0 0) s) (hi : i < 256) (hj : j < 512)
    (hpdpt : walk (child s₀.mem 256) src [i] = some pdpt) :
    Outcome (Inv (pageNumber i (j + 1) 0 0)) Err (clonePd dst i pdpt s j) := by
  refine clone_level (q := [i]) (f := fun k => pageNumber i j k 0) hloop hsrc hne h (by simp) hpdpt
    (by simp [bound, hj]) ?_ (fun n hlo hhi => ?_) fun pd hpd k s hk h' => ?_
  · simp only [pageNumber]
    omega
  · simp only [pageNumber] at hlo hhi
    rw [pageRoute_div (by omega)]
    simp only [List.cons_append, nil_append, cons_prefix_cons, nil_prefix, and_true]
    omega
  · exact clonePt_step hloop hsrc hne h' hi hj hk hpd

theorem clonePdpt_step (h : Inv (pageNumber i 0 0 0) s) (hi : i < 256) :
    Outcome (Inv (pageNumber (i + 1) 0 0 0)) Err (clonePdpt dst src s i) := by
  -- the root holds no huge pages, so this level does not test for them
  have hplain : (has (readEntry s.mem src i) flagPresent && !has (readEntry s.mem src i) flagHuge) =
      has (readEntry s.mem src i) flagPresent := by
    have hslot : readEntry s.mem src i = slot s.mem 256 src [] i :=
      (slot_of_walk (p := []) (walk_nil _) (by simpa [bound] using hi)).symm
    rw [hslot]
    cases hp : has (slot s.mem 256 src [] i) flagPresent with
    | false => rfl
    | true => rw [((hloop.base _ _ h).fam.trees.table src hsrc [] i (by simp) hp).plain]; rfl
  rw [clonePdpt, ← hplain]
  refine clone_level (q := []) (f := fun j => pageNumber i j 0 0) hloop hsrc hne h (by simp) (walk_nil _)
    (by simpa [bound] using hi) ?_ (fun n hlo hhi => ?_) fun pdpt hpdpt j s hj h' => ?_
  · simp only [pageNumber]
    omega
  · simp only [pageNumber] at hlo hhi
    rw [pageRoute_div (by omega)]
    simp only [nil_append, cons_prefix_cons, nil_prefix, and_true]
    omega
  · exact clonePd_step hloop hsrc hne h' hi hj hpdpt

/-- **The clone loops** carry an invariant of the innermost body over all pages of the source. -/
theorem cloneLoops (h : Inv 0 s) : Outcome (Inv (2 ^ 35)) Err ((List.range 256).foldlM (clonePdpt dst src) s) := by
  have hend : pageNumber 256 0 0 0 = 2 ^ 35 := by
    simp only [pageNumber]
    norm_num
  rw [← hend]
  refine foldlM_range_rule (fun i s => Inv (pageNumber i 0 0 0) s) Err h fun i s hi h' => ?_
  exact clonePdpt_step hloop hsrc hne h' hi

end Step

/-! ## The whole call -/

section Clone

variable {s : Machine} {R ext lent : Set Nat}

/-- The invariant of the copied pages goes through the loops, or they leave with the family in order. -/
theorem LoopInv.cloneInv {dst : Pagemap} (hfam : Family s R ext lent) (hsrc : src ∈ R) (hdst : dst.pml4Phys ∈ R)
    (hne : src ≠ dst.pml4Phys) (hkern : dst.isKernel = false) :
    LoopInv s R ext lent src dst (fun n s' => CloneInv s s' R ext lent src dst.pml4Phys n)
      (CloneFailed s · R ext lent dst.pml4Phys) where
  base := fun _ _ h => h
  skip := fun _ _ _ h => h.skip
  leaf := fun _ _ _ _ _ _ h hi hj hk hl hpt => cloneLeaf_step h hfam hsrc hdst hne hkern hi hj hk hl hpt

theorem CloneInv.start {dst : Nat} (hfam : Family s R ext lent) (hemp : ∀ q j, slot s.mem 256 dst q j = 0) :
    CloneInv s s R ext lent src dst 0 := by
  refine ⟨hfam, fun _ _ _ _ _ _ => rfl, fun _ _ _ _ _ _ _ => rfl, fun _ h => h, fun _ h => .inl h, ⟨rfl, rfl⟩,
    fun k _ hk => by omega, fun k _ _ => hemp _ _, fun p i _ => .inl ⟨hemp p i, fun k hk => by omega⟩⟩

/-- What a successful clone has done: the trees that existed are unchanged, and the new tree has, for each leaf of the
source, a leaf with the same flags on a fresh copy of the frame. Each new table has the `USER` bit of the first leaf
below it. -/
structure Cloned (s s' : Machine) (R : Set Nat) (src dst : Nat) : Prop where
  others : SlotsSame s.mem s'.mem 256 R
  data : ∀ x, x % 4096 = 0 → ¬ s.pmm.Free (x / 4096) → ¬ Reached s.mem 256 R 3 x → SamePage s.mem s'.mem x
  copied : ∀ k, k < 2 ^ 35 → has (leafOf s.mem src k) flagPresent = true →
    ∃ a, PageAddr a ∧ s.pmm.Free (a / 4096) ∧ leafOf s'.mem dst k = leafEntry a (cloneFlags (leafOf s.mem src k)) ∧
      SameContents s'.mem a s.mem (entryAddr (leafOf s.mem src k))
  absent : ∀ k, k < 2 ^ 35 → has (leafOf s.mem src k) flagPresent = false → leafOf s'.mem dst k = 0
  table : ∀ (p : List Nat) (i : Nat), p.length < 3 → slot s'.mem 256 dst p i = 0 ∧
      (∀ k, k < 2 ^ 35 → p ++ [i] <+: pageRoute k → has (leafOf s.mem src k) flagPresent = false) ∨
    ∃ k a, k < 2 ^ 35 ∧ p ++ [i] <+: pageRoute k ∧ has (leafOf s.mem src k) flagPresent = true ∧
      (∀ k', k' < k → p ++ [i] <+: pageRoute k' → has (leafOf s.mem src k') flagPresent = false) ∧
      PageAddr a ∧ slot s'.mem 256 dst p i = linkEntry a (cloneFlags (leafOf s.mem src k))

theorem Cloned.of_loops {ext1 : Set Nat} {dst : Nat} (hfam : Family s R ext lent) (hsrc : src ∈ R) (hdst : dst ∉ R)
    (hsame : SlotsSame s.mem s₁.mem 256 R)
    (hdata : ∀ x, x % 4096 = 0 → ¬ s.pmm.Free (x / 4096) → SamePage s.mem s₁.mem x) (hroot : s.pmm.Free (dst / 4096))
    (hemp : ∀ q j, slot s₁.mem 256 dst q j = 0) (hfree : ∀ x, s₁.pmm.Free x → s.pmm.Free x)
    (h : CloneInv s₁ s' (insert dst R) ext1 lent src dst (2 ^ 35)) : Cloned s s' R src dst := by
  have hleaf : ∀ k, leafOf s₁.mem src k = leafOf s.mem src k := fun k => hsame src hsrc _ _ (length_pageRoute k).le
  have htab : ∀ x, ¬ s.pmm.Free (x / 4096) → ¬ Reached s.mem 256 R 3 x → ¬ Reached s₁.mem 256 (insert dst R) 3 x := by
    intro x hused hnot hx
    obtain ⟨r, hr, q, hq, hw⟩ := hx
    rcases mem_insert_iff.mp hr with heq | hr
    · -- the new root has no tables below it yet
      subst heq
      rcases eq_nil_or_concat q with hnil | ⟨q', j, hq'⟩
      · subst hnil
        rw [walk_nil, Option.some.injEq] at hw
        exact hused (hw ▸ hroot)
      · rw [hq', concat_eq_append, walk_snoc_slot, hemp, nodeOf_zero] at hw
        simp at hw
    · rw [Forest.walk_same hsame hr (by omega)] at hw
      exact hnot ⟨r, hr, q, hq, hw⟩
  refine ⟨fun r hr q j hq => ?_, fun x hx hused hnot => ?_, fun k hk hp => ?_, fun k hk hp => ?_, fun p i hp => ?_⟩
  · have hne : r ≠ dst := fun heq => hdst (heq ▸ hr)
    exact (h.others r (mem_insert_of_mem _ hr) hne q j hq).trans (hsame r hr q j hq)
  · exact (hdata x hx hused).trans (h.data x hx (fun hf => hused (hfree _ hf)) (htab x hused hnot))
  · obtain ⟨hused, -⟩ := hfam.leaf_data hsrc (length_pageRoute k) hp
    rw [← leafOf] at hused
    rw [← hleaf k] at hp
    obtain ⟨a, ha, hafree, hent, hcopy⟩ := h.copied k hk hk hp
    rw [hleaf k] at hent hcopy
    refine ⟨a, ha, hfree _ hafree, hent, fun b hb => (hcopy b hb).trans ?_⟩
    exact hdata _ (entryAddr_mod _) hused _ (by omega) (by omega)
  · rw [← hleaf k] at hp
    exact h.absent k hk (.inr hp)
  · simpa only [hleaf] using h.table p i hp

/-- **`vmm_clone_address_space`** adds a complete copy to the family, or gives back all it took. -/
theorem Family.clone {src : Pagemap} (hfam : Family s R ext lent) (hsrc : src.pml4Phys ∈ R) :
    ∃ hs, (vmmCloneAddressSpace s src).2.heapFrames = hs ++ s.heapFrames ∧
      (vmmCloneAddressSpace s src).2.pmm.totalPages = s.pmm.totalPages ∧ (∀ x ∈ hs, s.pmm.Free x) ∧
      match (vmmCloneAddressSpace s src).1 with
      | none => Family (vmmCloneAddressSpace s src).2 R (ext ∪ heapSet hs) lent ∧
        SlotsSame s.mem (vmmCloneAddressSpace s src).2.mem 256 R
      | some dst => dst.isKernel = false ∧ dst.pml4Phys ∉ R ∧
        Family (vmmCloneAddressSpace s src).2 (insert dst.pml4Phys R) (ext ∪ heapSet hs) lent ∧
        Cloned s (vmmCloneAddressSpace s src).2 R src.pml4Phys dst.pml4Phys := by
  obtain ⟨hs, hheap, htot, hgrown, hmade⟩ := hfam.create
  rw [vmmCloneAddressSpace]
  cases hc : vmmCreateAddressSpace s with
  | mk result s₁ =>
    rw [hc] at hheap htot hmade
    cases result with
    | none =>
      obtain ⟨rfl, hfam1, hsame⟩ := hmade
      exact ⟨[], hheap, htot, hgrown, by rw [heapSet_nil, union_empty]; exact hfam1, hsame⟩
    | some dst =>
      obtain ⟨hkern, hnew, hfam1, hemp, hsame, hdata, hroot, hfree⟩ := hmade
      have hne : src.pml4Phys ≠ dst.pml4Phys := fun heq => hnew (heq ▸ hsrc)
      have hsrc1 := mem_insert_of_mem dst.pml4Phys hsrc
      have hloops := cloneLoops (.cloneInv hfam1 hsrc1 (mem_insert _ _) hne hkern) hsrc1 hne
        (.start hfam1 hemp)
      refine ⟨hs, ?_⟩
      dsimp only
      cases hfold : (List.range 256).foldlM (clonePdpt dst src.pml4Phys) s₁ with
      | ok s' =>
        have hinv := hloops.of_ok s' hfold
        exact ⟨hinv.steady.2.trans hheap, hinv.steady.1.trans htot, hgrown, hkern, hnew, hinv.fam,
          Cloned.of_loops hfam hsrc hnew hsame hdata hroot hemp hfree hinv⟩
      | error s' =>
        obtain ⟨hfam', hstay, hrest⟩ := hloops.of_error s' hfold
        obtain ⟨hdestroy, hstay', hmem⟩ := hfam'.destroy (mem_insert _ _) hkern
        have hback : insert dst.pml4Phys R \ {dst.pml4Phys} = R := by
          rw [insert_sdiff_of_mem _ (mem_singleton _), sdiff_singleton_eq_self hnew]
        rw [hback] at hdestroy
        refine ⟨hstay'.2.trans (hstay.2.trans hheap), hstay'.1.trans (hstay.1.trans htot), hgrown, hdestroy,
          fun r hr q j hq => ?_⟩
        rw [hmem, hrest r (mem_insert_of_mem _ hr) (fun heq => hnew (heq ▸ hr)) q j hq]
        exact hsame r hr q j hq

end Clone

end SzpontOS.Mm
