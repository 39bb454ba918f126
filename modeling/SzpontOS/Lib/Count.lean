import Mathlib.Data.Set.Card
import Mathlib.Logic.Function.Basic

/-!
# Counting the holders of a resource

A table says what each place holds, if anything, and only finitely many do. A reference count is right when it is the
number of places that hold the resource. Writing one place moves the count of the resource it held down by one and that
of the resource it now holds up by one.
-/

namespace SzpontOS.Lib

open Function Set

variable {ι κ : Type}

def holders (f : ι → Option κ) (k : κ) : Set ι := { i | f i = some k }

noncomputable def held (f : ι → Option κ) (k : κ) : Nat := (holders f k).ncard

def FinitelyHeld (f : ι → Option κ) : Prop := { i | f i ≠ none }.Finite

section Held

variable {f g : ι → Option κ} {i : ι} {k : κ} {v : Option κ}

theorem FinitelyHeld.holders (h : FinitelyHeld f) (k : κ) : (holders f k).Finite := by
  apply h.subset
  intro i hi
  rw [mem_ofPred_eq, show f i = some k from hi]
  simp

theorem FinitelyHeld.update [DecidableEq ι] (h : FinitelyHeld f) (i : ι) (v : Option κ) :
    FinitelyHeld (update f i v) := by
  apply (h.insert i).subset
  intro j hj
  by_cases hji : j = i
  · exact .inl hji
  · rw [mem_ofPred_eq, update_of_ne hji] at hj
    exact .inr hj

theorem held_eq_zero (h : FinitelyHeld f) : held f k = 0 ↔ ∀ i, f i ≠ some k := by
  unfold held
  rw [ncard_eq_zero (h.holders k), eq_empty_iff_forall_notMem]
  rfl

theorem ncard_holders_sdiff [DecidableEq κ] (h : FinitelyHeld f) (i : ι) (k : κ) :
    held f k = (holders f k \ {i}).ncard + if f i = some k then 1 else 0 := by
  unfold held
  split_ifs with hi
  · rw [ncard_sdiff_singleton_add_one (show i ∈ holders f k from hi) (h.holders k)]
  · rw [sdiff_singleton_eq_self (show i ∉ holders f k from hi)]
    rfl

variable [DecidableEq ι] [DecidableEq κ]

theorem held_update (h : FinitelyHeld f) (i : ι) (v : Option κ) (k : κ) :
    held (update f i v) k + (if f i = some k then 1 else 0) = held f k + if v = some k then 1 else 0 := by
  have hrest : holders (update f i v) k \ {i} = holders f k \ {i} := by
    ext j
    constructor
    · intro ⟨hj, hne⟩
      refine ⟨?_, hne⟩
      rwa [holders, mem_ofPred_eq, update_of_ne hne] at hj
    · intro ⟨hj, hne⟩
      refine ⟨?_, hne⟩
      rwa [holders, mem_ofPred_eq, update_of_ne hne]
  rw [ncard_holders_sdiff (h.update i v) i k, ncard_holders_sdiff h i k, hrest, update_self]
  omega

theorem held_take (h : FinitelyHeld f) (hi : f i = none) (k k' : κ) :
    held (update f i (some k)) k' = held f k' + if k = k' then 1 else 0 := by
  have := held_update h i (some k) k'
  simpa [hi] using this

theorem held_drop (h : FinitelyHeld f) (hi : f i = some k) (k' : κ) :
    held (update f i none) k' + (if k = k' then 1 else 0) = held f k' := by
  have := held_update h i none k'
  simpa [hi] using this

def clear (f : ι → Option κ) (places : List ι) : ι → Option κ := fun i => if i ∈ places then none else f i

omit [DecidableEq κ] in
theorem clear_cons (f : ι → Option κ) (i : ι) (places : List ι) :
    clear f (i :: places) = update (clear f places) i none := by
  funext j
  unfold clear
  by_cases hj : j = i
  · simp [hj]
  · simp [hj]

omit [DecidableEq κ] in
theorem FinitelyHeld.clear (h : FinitelyHeld f) (places : List ι) : FinitelyHeld (clear f places) := by
  apply h.subset
  intro i hi
  rw [mem_ofPred_eq, Lib.clear] at hi
  split_ifs at hi with hmem
  · exact absurd rfl hi
  · exact hi

theorem held_clear (h : FinitelyHeld f) {places : List ι} (hnd : places.Nodup) (k : κ) :
    held f k = held (Lib.clear f places) k + (places.filterMap f).count k := by
  induction places with
  | nil =>
    have hclear : Lib.clear f [] = f := by
      funext i
      simp [Lib.clear]
    simp [hclear]
  | cons i places ih =>
    obtain ⟨hi, hrest⟩ := List.nodup_cons.mp hnd
    have hkeep : Lib.clear f places i = f i := if_neg hi
    have hstep := held_update (h.clear places) i none k
    rw [clear_cons, ih hrest]
    rw [hkeep] at hstep
    rcases hfi : f i with _ | d
    · rw [List.filterMap_cons_none hfi]
      simp [hfi] at hstep
      omega
    · rw [List.filterMap_cons_some hfi, List.count_cons]
      simp only [hfi, Option.some.injEq, reduceCtorEq, if_false, Nat.add_zero, beq_iff_eq] at hstep ⊢
      omega

end Held

theorem held_mono {f g : ι → Option κ} (h : FinitelyHeld f) (hsub : ∀ i, g i = f i ∨ g i = none) (k : κ) :
    held g k ≤ held f k := by
  refine ncard_le_ncard (fun i hi => ?_) (h.holders k)
  have hi' : g i = some k := hi
  rcases hsub i with heq | hnone
  · exact heq.symm.trans hi'
  · rw [hnone] at hi'
    exact absurd hi' (by simp)

theorem held_sum {ι' : Type} {f : ι ⊕ ι' → Option κ} (h : FinitelyHeld f) (k : κ) :
    held f k = held (fun i => f (Sum.inl i)) k + held (fun i => f (Sum.inr i)) k := by
  have hcut : holders f k = Sum.inl '' holders (fun i => f (Sum.inl i)) k ∪
      Sum.inr '' holders (fun i => f (Sum.inr i)) k := by
    ext i
    cases i with
    | inl i => simp [holders]
    | inr i => simp [holders]
  have hl : (holders (fun i => f (Sum.inl i)) k).Finite := (h.holders k).preimage Sum.inl_injective.injOn
  have hr : (holders (fun i => f (Sum.inr i)) k).Finite := (h.holders k).preimage Sum.inr_injective.injOn
  unfold held
  rw [hcut, ncard_union_eq ?_ (hl.image _) (hr.image _), ncard_image_of_injective _ Sum.inl_injective,
    ncard_image_of_injective _ Sum.inr_injective]
  rw [disjoint_left]
  rintro _ ⟨i, -, rfl⟩ ⟨j, -, hj⟩
  exact absurd hj (by simp)

end SzpontOS.Lib
