import Mathlib.Tactic
import Mathlib.Data.Set.Basic

/-!
# Walking a tree of tables

A table `t` at depth `d` has children `child d t i`. A walk follows a list of indices from a root. Walks in a forest of
roots are *separated* when they never reach the same table by different routes. Changing one slot of a separated forest
only changes the walks that go through it (`walk_congr`, `walk_eq_of_slot`).
-/

namespace SzpontOS.Lib.Radix

open List

variable {T I : Type*}

/-- The table reached from `t` at depth `d` along the indices. -/
def walkFrom (child : Nat → T → I → Option T) (d : Nat) (t : T) : List I → Option T
  | [] => some t
  | i :: p => (child d t i).bind fun u => walkFrom child (d + 1) u p

/-- The table reached from a root along the indices. -/
abbrev walk (child : Nat → T → I → Option T) (r : T) (p : List I) : Option T := walkFrom child 0 r p

variable {child child' : Nat → T → I → Option T}

theorem walkFrom_append (d : Nat) (t : T) (p q : List I) : walkFrom child d t (p ++ q) =
      (walkFrom child d t p).bind fun u => walkFrom child (d + p.length) u q := by
  induction p generalizing d t with
  | nil => simp [walkFrom]
  | cons i p ih =>
    simp only [cons_append, walkFrom, length_cons]
    cases child d t i with
    | none => rfl
    | some u =>
      simp only [Option.bind_some]
      rw [ih, show d + 1 + p.length = d + (p.length + 1) by omega]

@[simp] theorem walk_nil (r : T) : walk child r ([] : List I) = some r := rfl

theorem walk_snoc (r : T) (p : List I) (i : I) :
    walk child r (p ++ [i]) = (walk child r p).bind fun t => child p.length t i := by
  rw [walk, walkFrom_append]
  simp [walkFrom]

variable {r t : T} {p q : List I}

theorem walk_congr (h : ∀ q j t, q ++ [j] <+: p → walk child r q = some t → child' q.length t j = child q.length t j) :
    walk child' r p = walk child r p := by
  induction p using reverseRecOn with
  | nil => rfl
  | append_singleton p i ih =>
    have hp : walk child' r p = walk child r p :=
      ih fun q j t hq ht => h q j t (hq.trans (prefix_append p [i])) ht
    rw [walk_snoc, walk_snoc, hp]
    cases hw : walk child r p with
    | none => rfl
    | some t => simp only [Option.bind_some, h p i t (prefix_refl _) hw]

theorem walk_along (hq : q <+: p) (h : walk child r p = some t) : ∃ u, walk child r q = some u := by
  obtain ⟨s, rfl⟩ := hq
  rw [walk, walkFrom_append] at h
  cases hw : walkFrom child 0 r q with
  | none => rw [hw] at h; simp at h
  | some u => exact ⟨u, hw⟩

/-- Along routes that satisfy `dom`, no table of the forest `R` is reached by two routes. -/
def Separated (child : Nat → T → I → Option T) (R : Set T) (dom : List I → Prop) : Prop :=
  ∀ ⦃r r' : T⦄, r ∈ R → r' ∈ R → ∀ ⦃p p' : List I⦄, dom p → dom p' → ∀ ⦃t : T⦄,
    walk child r p = some t → walk child r' p' = some t → r = r' ∧ p = p'

variable {R : Set T} {dom : List I → Prop}

/-- Changing the slot `(t, i)` reached by the route `p` leaves every walk alone whose route does not
go through `p ++ [i]`. -/
theorem walk_eq_of_slot [DecidableEq I] (hsep : Separated child R dom) (hdom : ∀ p q, q <+: p → dom p → dom q) {r' : T}
    (hr : r ∈ R) (hr' : r' ∈ R) {i : I} (hp : dom p) (hq : dom q) (ht : walk child r p = some t)
    (hslot : ∀ d u j, (∃ p', dom p' ∧ d = p'.length ∧ walk child r' p' = some u) → (u ≠ t ∨ j ≠ i) →
      child' d u j = child d u j) (hout : ¬ (r' = r ∧ p ++ [i] <+: q)) : walk child' r' q = walk child r' q := by
  refine walk_congr fun q' j u hpre hu => hslot _ _ _ ⟨q', ?_, rfl, hu⟩ ?_
  · exact hdom q q' ((prefix_append q' [j]).trans hpre) hq
  · by_contra hcon
    push Not at hcon
    obtain ⟨rfl, rfl⟩ := hcon
    have hq' : dom q' := hdom q q' ((prefix_append q' [j]).trans hpre) hq
    obtain ⟨rfl, rfl⟩ := hsep hr hr' hp hq' ht hu
    exact hout ⟨rfl, hpre⟩

end SzpontOS.Lib.Radix
