import Mathlib.Logic.Relation
import Mathlib.Tactic

/-!
# Runs and loops

A run is a finite sequence of steps, `Relation.ReflTransGen step`. An invariant that holds at the start and is kept by
every step holds in every state reached. A counted loop is a fold over `List.range n`; its invariant may speak of the
number of iterations done, and the loop may leave early with an error.
-/

namespace SzpontOS.Lib

open Relation List

variable {σ ε : Type*} {step : σ → σ → Prop}

/-- What every step keeps, a run keeps. -/
theorem invariant_of_step {Inv : σ → Prop} (hstep : ∀ s s', Inv s → step s s' → Inv s') {s s' : σ}
    (h0 : Inv s) (hrun : ReflTransGen step s s') : Inv s' := by
  induction hrun with
  | refl => exact h0
  | tail _ hlast ih => exact hstep _ _ ih hlast

/-- Where a step keeps the invariant exactly for good inputs, a run keeps it exactly if all inputs are good. -/
theorem forall_prefix_iff {α : Type*} {run : σ → α → σ} (Inv : σ → Prop) (Good : σ → α → Prop)
    (hstep : ∀ s a, Inv s → (Inv (run s a) ↔ Good s a)) {s : σ} (h0 : Inv s) (as : List α) :
    (∀ front, front <+: as → Inv (front.foldl run s)) ↔
      ∀ front a, front ++ [a] <+: as → Good (front.foldl run s) a := by
  constructor
  · intro hall front a hfront
    have hnext := hall _ hfront
    rw [foldl_append] at hnext
    exact (hstep _ a (hall front ((prefix_append ..).trans hfront))).mp hnext
  · intro hgood front
    induction front using reverseRecOn with
    | nil => exact fun _ => h0
    | append_singleton front a ih =>
      intro hfront
      rw [foldl_append]
      exact (hstep _ a (ih ((prefix_append ..).trans hfront))).mpr (hgood front a hfront)

theorem foldl_range_rule (Inv : Nat → σ → Prop) {f : σ → Nat → σ} {n : Nat} {s : σ} (h0 : Inv 0 s)
    (hstep : ∀ k s, k < n → Inv k s → Inv (k + 1) (f s k)) : Inv n ((List.range n).foldl f s) := by
  induction n with
  | zero => exact h0
  | succ n ih =>
    rw [range_succ, foldl_append]
    exact hstep n _ (by omega) (ih fun k s hk => hstep k s (by omega))

/-- What holds of the result of a computation that may leave early. -/
structure Outcome (Ok : σ → Prop) (Err : ε → Prop) (x : Except ε σ) : Prop where
  of_ok : ∀ s, x = .ok s → Ok s
  of_error : ∀ e, x = .error e → Err e

namespace Outcome

variable {Ok : σ → Prop} {Err : ε → Prop}

theorem ok {s : σ} (h : Ok s) : Outcome Ok Err (.ok s) :=
  ⟨fun _ heq => Except.ok.inj heq ▸ h, fun _ heq => by simp at heq⟩

theorem error {e : ε} (h : Err e) : Outcome Ok Err (.error e) :=
  ⟨fun _ heq => by simp at heq, fun _ heq => Except.error.inj heq ▸ h⟩

end Outcome

theorem foldlM_range_rule (Inv : Nat → σ → Prop) (Err : ε → Prop) {f : σ → Nat → Except ε σ} {n : Nat} {s : σ}
    (h0 : Inv 0 s) (hstep : ∀ k s, k < n → Inv k s → Outcome (Inv (k + 1)) Err (f s k)) :
    Outcome (Inv n) Err ((List.range n).foldlM f s) := by
  induction n with
  | zero => exact Outcome.ok h0
  | succ n ih =>
    have hn := ih fun k s hk => hstep k s (by omega)
    rw [range_succ, foldlM_append]
    cases hfold : (List.range n).foldlM f s with
    | error s' => exact Outcome.error (hn.of_error s' hfold)
    | ok s' =>
      have hlast := hstep n s' (by omega) (hn.of_ok s' hfold)
      show Outcome (Inv (n + 1)) Err ([n].foldlM f s')
      rw [foldlM_cons]
      cases hf : f s' n with
      | error s'' => exact Outcome.error (hlast.of_error s'' hf)
      | ok s'' => exact Outcome.ok (hlast.of_ok s'' hf)

end SzpontOS.Lib
