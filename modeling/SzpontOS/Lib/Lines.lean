import Mathlib.Data.List.Basic
import Mathlib.Tactic.Common

/-!
# Lines, and lines read through a buffer

A text is cut into lines behind each separator (`lines`). A reader with a buffer of fixed size gets a line that is too
long for it in several pieces (`bufferReads_eq_flatMap`), of which the later ones look like lines of their own.
-/

namespace SzpontOS.Lib

open List

variable {α : Type*} {n : Nat}

/-- A list in parts of `n + 1`. -/
def chunks (n : Nat) (l : List α) : List (List α) :=
  if _hl : l = [] then [] else l.take (n + 1) :: chunks n (l.drop (n + 1))
termination_by l.length
decreasing_by
  have := List.length_pos_of_ne_nil _hl
  rw [List.length_drop]
  omega

theorem chunks_nil : chunks n ([] : List α) = [] := by
  rw [chunks, dif_pos rfl]

theorem chunks_of_ne_nil {l : List α} (hl : l ≠ []) : chunks n l = l.take (n + 1) :: chunks n (l.drop (n + 1)) := by
  rw [chunks, dif_neg hl]

theorem chunks_of_le {l : List α} (hl : l ≠ []) (hle : l.length ≤ n + 1) : chunks n l = [l] := by
  rw [chunks_of_ne_nil hl, take_of_length_le hle, drop_eq_nil_of_le hle, chunks_nil]

variable [DecidableEq α] {sep : α} {s : List α}

/-- The lines of a text, each with its separator; the last one may have none. -/
def lines (sep : α) : List α → List (List α)
  | [] => []
  | a :: s =>
    if a = sep then [a] :: lines sep s
    else
      match lines sep s with
      | [] => [[a]]
      | l :: ls => (a :: l) :: ls

/-- One read of at most `n` characters, to the end of the line: what was read, and the rest. -/
def readLine (sep : α) : Nat → List α → List α × List α
  | 0, s => ([], s)
  | _ + 1, [] => ([], [])
  | n + 1, a :: s => if a = sep then ([a], s) else (a :: (readLine sep n s).1, (readLine sep n s).2)

theorem length_readLine (sep : α) (n : Nat) (s : List α) :
    (readLine sep n s).1.length + (readLine sep n s).2.length = s.length := by
  induction n generalizing s with
  | zero => rw [readLine, length_nil, Nat.zero_add]
  | succ n ih =>
    cases s with
    | nil => rfl
    | cons a s =>
      rw [readLine]
      split
      · rw [length_singleton, length_cons, Nat.add_comm]
      · have hrest := ih s
        dsimp only
        rw [length_cons, length_cons]
        omega

theorem readLine_ne_nil (sep : α) (n : Nat) (hs : s ≠ []) : (readLine sep (n + 1) s).1 ≠ [] := by
  cases s with
  | nil => exact absurd rfl hs
  | cons a s =>
    rw [readLine]
    split <;> exact cons_ne_nil _ _

/-- What a reader with a buffer of `n + 1` characters gets, one read after the other. -/
def bufferReads (sep : α) (n : Nat) (s : List α) : List (List α) :=
  if hs : s = [] then [] else (readLine sep (n + 1) s).1 :: bufferReads sep n (readLine sep (n + 1) s).2
termination_by s.length
decreasing_by
  have hlength := length_readLine sep (n + 1) s
  have hpos := List.length_pos_of_ne_nil (readLine_ne_nil sep n hs)
  omega

theorem lines_ne_nil (sep : α) (hs : s ≠ []) : ∃ l ls, lines sep s = l :: ls := by
  cases s with
  | nil => exact absurd rfl hs
  | cons a s =>
    rw [lines]
    split
    · exact ⟨_, _, rfl⟩
    · split <;> exact ⟨_, _, rfl⟩

theorem ne_nil_of_mem_lines {l : List α} (hl : l ∈ lines sep s) : l ≠ [] := by
  induction s generalizing l with
  | nil => cases hl
  | cons a s ih =>
    rw [lines] at hl
    split at hl
    · rcases mem_cons.1 hl with rfl | hl
      · exact cons_ne_nil _ _
      · exact ih hl
    · split at hl
      case h_1 =>
        rw [mem_singleton.1 hl]
        exact cons_ne_nil _ _
      case h_2 l' ls heq =>
        rcases mem_cons.1 hl with rfl | hl
        · exact cons_ne_nil _ _
        · exact ih (heq ▸ mem_cons_of_mem _ hl)

theorem readLine_lines {l : List α} {ls : List (List α)} (h : lines sep s = l :: ls) (n : Nat) :
    (readLine sep n s).1 = l.take n ∧
      lines sep (readLine sep n s).2 = if l.drop n = [] then ls else l.drop n :: ls := by
  have hl : l ≠ [] := ne_nil_of_mem_lines (h ▸ mem_cons_self)
  induction n generalizing s l with
  | zero => exact ⟨rfl, by rw [readLine, drop_zero, if_neg hl, h]⟩
  | succ n ih =>
    cases s with
    | nil => cases h
    | cons a s =>
      rw [lines] at h
      rw [readLine]
      split at h
      case isTrue hsep =>
        obtain ⟨rfl, rfl⟩ := List.cons.inj h
        rw [if_pos hsep, take_succ_cons, take_nil, drop_succ_cons, drop_nil, if_pos rfl]
        exact ⟨rfl, rfl⟩
      case isFalse hsep =>
        rw [if_neg hsep]
        split at h
        case h_1 hnone =>
          obtain ⟨rfl, rfl⟩ := List.cons.inj h
          have hs : s = [] := by
            by_contra hs
            obtain ⟨l, ls, hsome⟩ := lines_ne_nil sep hs
            rw [hnone] at hsome
            cases hsome
          subst hs
          cases n <;> exact ⟨rfl, rfl⟩
        case h_2 l' ls' hsome =>
          obtain ⟨rfl, rfl⟩ := List.cons.inj h
          obtain ⟨hread, hrest⟩ := ih hsome (ne_nil_of_mem_lines (hsome ▸ mem_cons_self))
          rw [take_succ_cons, drop_succ_cons, hread]
          exact ⟨rfl, hrest⟩

/-- **Reading through a buffer.** The reader gets the lines, those that do not fit in parts. -/
theorem bufferReads_eq_flatMap (sep : α) (n : Nat) (s : List α) : bufferReads sep n s = (lines sep s).flatMap (chunks n) := by
  -- along the reads: each takes a part off the first line
  induction s using bufferReads.induct sep n with
  | case1 =>
    rw [bufferReads, dif_pos rfl]
    rfl
  | case2 s hs ih =>
    obtain ⟨l, ls, hlines⟩ := lines_ne_nil sep hs
    have hl : l ≠ [] := ne_nil_of_mem_lines (hlines ▸ mem_cons_self)
    obtain ⟨hread, hrest⟩ := readLine_lines hlines (n + 1)
    rw [bufferReads, dif_neg hs, ih, hread, hrest, hlines, flatMap_cons, chunks_of_ne_nil hl]
    split
    case isTrue hdrop => rw [hdrop, chunks_nil, cons_append, nil_append]
    case isFalse => rw [flatMap_cons, cons_append]

theorem bufferReads_eq_lines (h : ∀ l ∈ lines sep s, l.length ≤ n + 1) : bufferReads sep n s = lines sep s := by
  rw [bufferReads_eq_flatMap]
  have hone : ∀ ls : List (List α), (∀ l ∈ ls, l ≠ [] ∧ l.length ≤ n + 1) → ls.flatMap (chunks n) = ls := by
    intro ls
    induction ls with
    | nil => exact fun _ => rfl
    | cons l ls ih =>
      intro hall
      obtain ⟨hl, hle⟩ := hall l mem_cons_self
      rw [flatMap_cons, chunks_of_le hl hle, ih fun l' hl' => hall l' (mem_cons_of_mem _ hl'),
        singleton_append]
  exact hone _ fun l hl => ⟨ne_nil_of_mem_lines hl, h l hl⟩

end SzpontOS.Lib
