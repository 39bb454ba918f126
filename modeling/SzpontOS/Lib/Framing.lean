import Mathlib.Data.List.Basic
import Mathlib.Tactic.Common

/-!
# Streams cut into units that carry their length

How long the first unit of a stream is can be read from its head (`size`), once enough of it is there. `parse` gives the
complete units and what is left over. The point is `parse_append`: a stream that comes in parts is cut in the same
places as the whole one, so that a reader may keep the left-over part and forget the rest.
-/

namespace SzpontOS.Lib

open List

/-- How a stream is cut: the size of its first unit, once the head tells it. -/
structure Framing (α : Type*) where
  size : List α → Option Nat
  size_pos : ∀ {s n}, size s = some n → 0 < n
  size_append : ∀ {s n}, size s = some n → ∀ t, size (s ++ t) = some n

namespace Framing

variable {α : Type*} (F : Framing α) {s : List α} {n : Nat}

def Complete (s : List α) (n : Nat) : Prop := F.size s = some n ∧ n ≤ s.length

/-- The complete units of a stream, and what is left over. -/
def parse (s : List α) : List (List α) × List α :=
  match _hsize : F.size s with
  | none => ([], s)
  | some n =>
    if _hle : n ≤ s.length then
      let r := parse (s.drop n)
      (s.take n :: r.1, r.2)
    else
      ([], s)
termination_by s.length
decreasing_by
  have := F.size_pos _hsize
  rw [List.length_drop]
  omega

variable {F}

theorem Complete.append (h : F.Complete s n) (t : List α) : F.Complete (s ++ t) n :=
  ⟨F.size_append h.1 t, Nat.le_trans h.2 (length_append ▸ Nat.le_add_right _ _)⟩

theorem Complete.parse_eq (h : F.Complete s n) :
    F.parse s = (s.take n :: (F.parse (s.drop n)).1, (F.parse (s.drop n)).2) := by
  rw [parse]
  split
  case h_1 hnone =>
    rw [h.1] at hnone
    cases hnone
  case h_2 m hsome =>
    obtain rfl : n = m := Option.some.inj (h.1.symm.trans hsome)
    rw [dif_pos h.2]

theorem parse_eq_nil (h : ∀ n, ¬F.Complete s n) : F.parse s = ([], s) := by
  rw [parse]
  split
  case h_1 => rfl
  case h_2 m hsome => rw [dif_neg fun hle => h m ⟨hsome, hle⟩]

/-- A stream is cut from the front: either its first unit is complete, or there is none. -/
theorem complete_or (F : Framing α) (s : List α) : (∃ n, F.Complete s n) ∨ ∀ n, ¬F.Complete s n := by
  rcases Classical.em (∃ n, F.Complete s n) with h | h
  · exact .inl h
  · exact .inr (not_exists.1 h)

/-- **Induction over the units.** What holds of a stream without a complete unit, and of one whose remainder after the
first unit has it, holds of every stream. -/
theorem parse_induction {motive : List α → Prop} (incomplete : ∀ s, (∀ n, ¬F.Complete s n) → motive s)
    (complete : ∀ s n, F.Complete s n → motive (s.drop n) → motive s) (s : List α) : motive s := by
  induction hl : s.length using Nat.strongRecOn generalizing s with
  | ind l ih =>
    rcases F.complete_or s with ⟨n, hn⟩ | hnone
    · refine complete s n hn (ih (s.drop n).length ?_ (s.drop n) rfl)
      have := F.size_pos hn.1
      have := hn.2
      rw [length_drop]
      omega
    · exact incomplete s hnone

theorem parse_append (F : Framing α) (s t : List α) :
    F.parse (s ++ t) = ((F.parse s).1 ++ (F.parse ((F.parse s).2 ++ t)).1, (F.parse ((F.parse s).2 ++ t)).2) := by
  induction s using parse_induction (F := F) with
  | incomplete s hnone => rw [parse_eq_nil hnone, nil_append]
  | complete s n hn ih =>
    rw [(hn.append t).parse_eq, hn.parse_eq, take_append_of_le_length hn.2, drop_append_of_le_length hn.2, ih]
    rfl

end Framing

end SzpontOS.Lib
