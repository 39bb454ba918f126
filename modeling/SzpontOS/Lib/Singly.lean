import SzpontOS.Lib.Linked

/-!
# Singly linked lists inside their nodes

A family of lists whose nodes hold the pointer to the next one. Nothing points back, so that a node is put at the end, or
taken out, by a walk along the list; the walks have fuel, and on a list they need no more of it than the list is long.
-/

namespace SzpontOS.Lib

open Function List

/-- The first node of every list and the next node of every node. -/
structure Singly (κ ι : Type*) where
  first : κ → Option ι
  next : ι → Option ι

namespace Singly

variable {κ ι : Type*}

/-- The pointers lead from `p` along `xs` to `q`. -/
def Seg (next : ι → Option ι) (p : Option ι) (xs : List ι) (q : Option ι) : Prop :=
  match xs with
  | [] => p = q
  | x :: xs => p = some x ∧ Seg next (next x) xs q

structure Holds (l : Singly κ ι) (b : κ → List ι) : Prop where
  nodup : ∀ k, (b k).Nodup
  disjoint : ∀ k k' x, x ∈ b k → x ∈ b k' → k = k'
  chain : ∀ k, Seg l.next (l.first k) (b k) none

variable {next next' : ι → Option ι} {p q : Option ι} {xs ys : List ι} {x y z : ι} {fuel : Nat}

theorem seg_append : Seg next p (xs ++ ys) q ↔ ∃ m, Seg next p xs m ∧ Seg next m ys q := by
  induction xs generalizing p with
  | nil => exact ⟨fun h => ⟨p, rfl, h⟩, fun ⟨_, hp, h⟩ => hp ▸ h⟩
  | cons x xs ih =>
    constructor
    · intro ⟨hp, h⟩
      obtain ⟨m, hxs, hys⟩ := ih.mp h
      exact ⟨m, ⟨hp, hxs⟩, hys⟩
    · intro ⟨m, ⟨hp, hxs⟩, hys⟩
      exact ⟨hp, ih.mpr ⟨m, hxs, hys⟩⟩

theorem Seg.congr (h : Seg next p xs q) (hsame : ∀ x ∈ xs, next' x = next x) : Seg next' p xs q := by
  induction xs generalizing p with
  | nil => exact h
  | cons x xs ih =>
    refine ⟨h.1, ?_⟩
    rw [hsame x (mem_cons_self ..)]
    exact ih h.2 fun y hy => hsame y (mem_cons_of_mem x hy)

theorem Seg.setNext [DecidableEq ι] (h : Seg next p xs q) (hz : z ∉ xs) (v : Option ι) :
    Seg (update next z v) p xs q := by
  refine h.congr fun x hx => ?_
  have hxz : x ≠ z := fun hxz => hz (hxz ▸ hx)
  rw [update_of_ne hxz]

theorem Seg.head (h : Seg next p xs none) : p = xs.head? := by
  cases xs with
  | nil => exact h
  | cons x xs => exact h.1

/-! ## The walks -/

/-- The last node of the list that goes on at `x`. -/
def last (next : ι → Option ι) : Nat → ι → Option ι
  | 0, _ => none
  | fuel + 1, x =>
    match next x with
    | none => some x
    | some y => last next fuel y

theorem last_of_seg (h : Seg next (next x) xs none) (hfuel : xs.length < fuel) :
    last next fuel x = some (xs.getLastD x) := by
  induction fuel generalizing x xs with
  | zero => omega
  | succ fuel ih =>
    unfold last
    cases xs with
    | nil =>
      rw [show next x = none from h]
      rfl
    | cons y ys =>
      rw [h.1, getLastD_cons]
      exact ih h.2 (Nat.lt_of_succ_lt_succ hfuel)

variable [DecidableEq ι]

/-- The node from `p` on that has `x` as its next, if there is one. -/
def before (next : ι → Option ι) (x : ι) : Nat → Option ι → Option (Option ι)
  | 0, _ => none
  | _ + 1, none => some none
  | fuel + 1, some y => if next y = some x then some (some y) else before next x fuel (next y)

theorem before_of_seg (h : Seg next p (xs ++ z :: x :: ys) none) (hx : x ∉ xs ++ [z]) (hfuel : xs.length < fuel) :
    before next x fuel p = some (some z) := by
  induction fuel generalizing p xs with
  | zero => omega
  | succ fuel ih =>
    cases xs with
    | nil =>
      obtain ⟨hp, hz, -⟩ := h
      rw [hp]
      exact if_pos hz
    | cons y xs =>
      obtain ⟨hp, hrest⟩ := h
      have hx' : x ∉ xs ++ [z] := fun hmem => hx (mem_cons_of_mem y hmem)
      have hy : next y ≠ some x := by
        rw [hrest.head]
        intro hhead
        cases xs with
        | nil => exact hx' (by cases hhead; simp)
        | cons w ws => exact hx' (by cases hhead; simp)
      rw [hp]
      exact (if_neg hy).trans (ih hrest hx' (Nat.lt_of_succ_lt_succ hfuel))

/-! ## Putting a node in and taking it out -/

variable [DecidableEq κ]

/-- The node put at the end of list `k`. -/
def pushBack (l : Singly κ ι) (fuel : Nat) (k : κ) (x : ι) : Option (Singly κ ι) :=
  match l.first k with
  | none => some { l with first := update l.first k (some x) }
  | some y => (last l.next fuel y).map fun z => { l with next := update l.next z (some x) }

/-- The node taken out of list `k`; its own pointer stays. -/
def unlink (l : Singly κ ι) (fuel : Nat) (k : κ) (x : ι) : Option (Singly κ ι) :=
  if l.first k = some x then some { l with first := update l.first k (l.next x) }
  else (before l.next x fuel (l.first k)).map fun
    | none => l
    | some y => { l with next := update l.next y (l.next x) }

variable {l l' : Singly κ ι} {b : κ → List ι} {k : κ}

omit [DecidableEq ι] in
theorem Holds.update (h : l.Holds b) (hnd : xs.Nodup) (hmem : ∀ y ∈ xs, y ∈ b k ∨ ∀ j, y ∉ b j)
    (hrest : ∀ j, j ≠ k → Seg l'.next (l'.first j) (b j) none) (hk : Seg l'.next (l'.first k) xs none) :
    l'.Holds (update b k xs) := by
  refine ⟨?_, disjoint_update h.disjoint hmem, ?_⟩
  · exact (forall_update_iff b fun _ ys => ys.Nodup).mpr ⟨hnd, fun j _ => h.nodup j⟩
  · exact (forall_update_iff b fun j ys => Seg l'.next (l'.first j) ys none).mpr ⟨hk, hrest⟩

omit [DecidableEq κ] in
theorem Holds.chain_setNext (h : l.Holds b) (hz : z ∈ b k ∨ ∀ j, z ∉ b j) (v : Option ι) {j : κ} (hj : j ≠ k) :
    Seg (Function.update l.next z v) (l.first j) (b j) none := by
  refine (h.chain j).setNext (fun hzj => ?_) v
  rcases hz with hz | hz
  · exact hj (h.disjoint j k z hzj hz)
  · exact hz j hzj

theorem Holds.pushBack (h : l.Holds b) (hx : ∀ j, x ∉ b j) (hnext : l.next x = none) (hfuel : (b k).length ≤ fuel) :
    ∃ l', l.pushBack fuel k x = some l' ∧ l'.Holds (Function.update b k (b k ++ [x])) := by
  have hnd : (b k ++ [x]).Nodup := by
    rw [nodup_append]
    exact ⟨h.nodup k, nodup_singleton x, fun y hy z hz hyz => hx k (by simp_all)⟩
  have hmem : ∀ y ∈ b k ++ [x], y ∈ b k ∨ ∀ j, y ∉ b j := by
    intro y hy
    rcases mem_append.mp hy with hy | hy
    · exact .inl hy
    · exact .inr (mem_singleton.mp hy ▸ hx)
  have hchain := h.chain k
  unfold Singly.pushBack
  rcases eq_nil_or_concat' (b k) with hnil | ⟨ws, z, hws⟩
  · rw [hnil] at hchain
    rw [show l.first k = none from hchain]
    refine ⟨_, rfl, h.update hnd hmem (fun j hj => ?_) ?_⟩
    · show Seg l.next (Function.update l.first k (some x) j) (b j) none
      rw [update_of_ne hj]
      exact h.chain j
    · rw [hnil]
      exact ⟨update_self .., hnext⟩
  · have hz : z ∈ b k := by simp [hws]
    have hzws : z ∉ ws := by
      have := h.nodup k
      rw [hws, nodup_append] at this
      exact fun hmem => this.2.2 z hmem z (by simp) rfl
    have hlast : ∃ y, l.first k = some y ∧ last l.next fuel y = some z := by
      rw [hws] at hchain hfuel
      cases ws with
      | nil => exact ⟨z, hchain.1, last_of_seg hchain.2 hfuel⟩
      | cons y ys =>
        refine ⟨y, hchain.1, ?_⟩
        rw [last_of_seg hchain.2 hfuel]
        simp
    obtain ⟨y, hy, hlast⟩ := hlast
    rw [hy]
    dsimp only
    rw [hlast]
    refine ⟨_, rfl, h.update hnd hmem (fun j hj => h.chain_setNext (.inl hz) _ hj) ?_⟩
    -- up to `z` the pointers are the old ones, then come the new one and the end
    rw [hws] at hchain ⊢
    obtain ⟨m, hseg, hm, -⟩ := seg_append.mp hchain
    have hxz : x ≠ z := fun hxz => hx k (hxz ▸ hz)
    refine seg_append.mpr ⟨some x, seg_append.mpr ⟨m, ?_, hm, update_self ..⟩, rfl, ?_⟩
    · exact hseg.setNext hzws _
    · exact (update_of_ne hxz _ _).trans hnext

theorem Holds.unlink (h : l.Holds b) (hx : x ∈ b k) (hfuel : (b k).length ≤ fuel) :
    ∃ l', l.unlink fuel k x = some l' ∧ l'.Holds (Function.update b k ((b k).erase x)) := by
  have hchain := h.chain k
  have hnd : ((b k).erase x).Nodup := (h.nodup k).erase x
  have hmem : ∀ y ∈ (b k).erase x, y ∈ b k ∨ ∀ j, y ∉ b j := fun y hy => .inl (mem_of_mem_erase hy)
  obtain ⟨ws, ys, hws⟩ := append_of_mem hx
  have hbk := h.nodup k
  rw [hws, nodup_append] at hbk
  have hxws : x ∉ ws := fun hmem => hbk.2.2 x hmem x (by simp) rfl
  have herase : (b k).erase x = ws ++ ys := by
    rw [hws, erase_append_right _ hxws, erase_cons_head]
  unfold Singly.unlink
  rcases eq_nil_or_concat' ws with rfl | ⟨vs, z, rfl⟩
  · rw [hws] at hchain
    rw [if_pos (show l.first k = some x from hchain.1)]
    refine ⟨_, rfl, h.update hnd hmem (fun j hj => ?_) ?_⟩
    · show Seg l.next (Function.update l.first k (l.next x) j) (b j) none
      rw [update_of_ne hj]
      exact h.chain j
    · show Seg l.next (Function.update l.first k (l.next x) k) _ none
      rw [update_self, herase]
      exact hchain.2
  · have hz : z ∈ b k := by simp [hws]
    rw [hws, append_assoc, singleton_append] at hchain
    have hfst : l.first k ≠ some x := by
      rw [hchain.head]
      intro hhead
      cases vs with
      | nil => exact hxws (by cases hhead; simp)
      | cons w ws => exact hxws (by cases hhead; simp)
    have hvs : vs.length < fuel := by
      rw [hws] at hfuel
      simp only [length_append, length_cons, length_nil] at hfuel
      omega
    rw [if_neg hfst, before_of_seg hchain hxws hvs]
    refine ⟨_, rfl, h.update hnd hmem (fun j hj => h.chain_setNext (.inl hz) _ hj) ?_⟩
    show Seg (Function.update l.next z (l.next x)) (l.first k) ((b k).erase x) none
    obtain ⟨m, hseg, hm, -, hrest⟩ := seg_append.mp hchain
    have hzvs : z ∉ vs := by
      have := hbk.1
      rw [nodup_append] at this
      exact fun hmem => this.2.2 z hmem z (by simp) rfl
    have hzys : z ∉ ys := fun hmem => hbk.2.2 z (by simp) z (mem_cons_of_mem x hmem) rfl
    rw [herase, append_assoc, singleton_append]
    refine seg_append.mpr ⟨m, ?_, hm, ?_⟩
    · exact hseg.setNext hzvs _
    · rw [update_self]
      exact hrest.setNext hzys _

theorem Holds.reset (h : l.Holds b) (hx : ∀ j, x ∉ b j) (hk : b k = []) (v : Option ι) :
    Holds ⟨Function.update l.first k none, Function.update l.next x v⟩ b := by
  refine ⟨h.nodup, h.disjoint, fun j => ?_⟩
  have hchain := (h.chain j).setNext (hx j) v
  by_cases hj : j = k
  · subst hj
    show Seg _ (Function.update l.first j none j) _ _
    rw [update_self, hk]
    rfl
  · show Seg _ (Function.update l.first k none j) _ _
    rwa [update_of_ne hj]

end Singly

end SzpontOS.Lib
