import Mathlib.Data.List.Basic
import Mathlib.Tactic.Common

/-!
# Lists with a separator

A list that is cut at a separator, as paths are at their slashes, with the empty pieces left out (`pieces`), and the
list in which each piece follows a separator (`joined`). Cutting what was joined gives the pieces back, and joining what
was cut gives at most the length there was.
-/

namespace SzpontOS.Lib

open List

variable {α : Type*} {sep : α} {xs : List α} {ls ls' : List (List α)} {l : List α}

/-- Each piece after a separator. -/
def joined (sep : α) (ls : List (List α)) : List α := ls.flatMap (sep :: ·)

@[simp] theorem joined_nil : joined sep [] = [] := rfl

@[simp] theorem joined_cons : joined sep (l :: ls) = sep :: l ++ joined sep ls := rfl

theorem joined_append : joined sep (ls ++ ls') = joined sep ls ++ joined sep ls' := flatMap_append

theorem intercalate_cons_eq_joined (l : List α) (ls : List (List α)) :
    [sep].intercalate (l :: ls) = l ++ joined sep ls := by
  induction ls generalizing l with
  | nil => simp [intercalate]
  | cons m ls ih =>
    rw [joined_cons, cons_append, ← ih m]
    simp [intercalate]

theorem length_joined_le (h : ls.Sublist ls') : (joined sep ls).length ≤ (joined sep ls').length := by
  induction h with
  | slnil => exact Nat.le_refl _
  | cons l _ ih =>
    rw [joined_cons, length_append]
    omega
  | cons_cons l _ ih =>
    rw [joined_cons, joined_cons, length_append, length_append]
    omega

/-- A buffer that each piece is printed into, as far as there is room, holds the beginning of the whole. -/
theorem foldl_take_eq (sep : α) (m : Nat) (ls : List (List α)) (dst : List α) :
    ls.foldl (fun dst l => (dst ++ sep :: l).take m) (dst.take m) = (dst ++ joined sep ls).take m := by
  induction ls generalizing dst with
  | nil => simp
  | cons l ls ih =>
    have hstep : (dst.take m ++ sep :: l).take m = (dst ++ sep :: l).take m := by
      rw [take_append, take_append, take_take, Nat.min_self, length_take]
      rcases Nat.le_total m dst.length with h | h
      · rw [Nat.min_eq_left h, Nat.sub_self, Nat.sub_eq_zero_of_le h]
      · rw [Nat.min_eq_right h]
    rw [foldl_cons, hstep, ih, joined_cons, append_assoc]

variable [DecidableEq α]

/-- The pieces between separators, the empty ones left out. -/
def pieces (sep : α) (xs : List α) : List (List α) := (xs.splitOn sep).filter (· ≠ [])

theorem notMem_of_mem_splitOn (hl : l ∈ xs.splitOn sep) : sep ∉ l := by
  unfold splitOn at hl
  induction xs generalizing l with
  | nil =>
    rw [splitOnP_nil, mem_singleton] at hl
    simp [hl]
  | cons x xs ih =>
    rw [splitOnP_cons_eq_if_modifyHead] at hl
    split at hl
    · rcases mem_cons.mp hl with rfl | hl
      · simp
      · exact ih hl
    · rename_i hne
      rcases hcut : xs.splitOnP (· == sep) with _ | ⟨m, ms⟩
      · exact (splitOnP_ne_nil _ _ hcut).elim
      · rw [hcut] at hl ih
        rcases mem_cons.mp hl with rfl | hl
        · rintro (_ | ⟨_, hmem⟩)
          · simp at hne
          · exact ih (mem_cons_self ..) hmem
        · exact ih (mem_cons_of_mem _ hl)

theorem mem_pieces (hl : l ∈ pieces sep xs) : l ≠ [] ∧ sep ∉ l := by
  obtain ⟨hmem, hne⟩ := mem_filter.mp hl
  exact ⟨by simpa using hne, notMem_of_mem_splitOn hmem⟩

theorem pieces_append_cons (xs ys : List α) : pieces sep (xs ++ sep :: ys) = pieces sep xs ++ pieces sep ys := by
  unfold pieces
  rw [splitOn_append_cons_self, filter_append]

theorem pieces_joined (h : ∀ l ∈ ls, l ≠ [] ∧ sep ∉ l) : pieces sep (joined sep ls) = ls := by
  have hcut : (joined sep ls).splitOn sep = [] :: ls := by
    have hjoin : [sep].intercalate ([] :: ls) = joined sep ls := intercalate_cons_eq_joined [] ls
    rw [← hjoin]
    refine splitOn_intercalate sep (fun l hl => ?_) (by simp)
    rcases mem_cons.mp hl with rfl | hl
    · simp
    · exact (h l hl).2
  unfold pieces
  rw [hcut, filter_cons_of_neg (by simp)]
  exact filter_eq_self.mpr fun l hl => by simpa using (h l hl).1

/-- What was joined begins with the first pieces, up to a separator, exactly if they are its first pieces. -/
theorem joined_prefix_iff (h : ∀ l ∈ ls, l ≠ [] ∧ sep ∉ l) (h' : ∀ l ∈ ls', l ≠ [] ∧ sep ∉ l) :
    (∃ rest, joined sep ls' = joined sep ls ++ rest ∧ (rest.head? = some sep ∨ rest = [])) ↔ ls <+: ls' := by
  constructor
  · rintro ⟨rest, hjoin, hrest⟩
    rcases rest with _ | ⟨c, rest⟩
    · rw [append_nil] at hjoin
      have hsame : ls = ls' := by
        calc ls = pieces sep (joined sep ls) := (pieces_joined h).symm
          _ = pieces sep (joined sep ls') := by rw [hjoin]
          _ = ls' := pieces_joined h'
      exact hsame ▸ prefix_rfl
    · obtain rfl : c = sep := by simpa using hrest
      have hcut := congrArg (pieces c) hjoin
      rw [pieces_append_cons, pieces_joined h, pieces_joined h'] at hcut
      exact ⟨pieces c rest, hcut.symm⟩
  · rintro ⟨more, rfl⟩
    refine ⟨joined sep more, joined_append, ?_⟩
    cases more with
    | nil => exact .inr rfl
    | cons l more => exact .inl rfl

theorem length_joined_pieces (h : xs.head? = some sep) : (joined sep (pieces sep xs)).length ≤ xs.length := by
  rcases hcut : xs.splitOn sep with _ | ⟨l, ls⟩
  · exact (splitOnP_ne_nil _ _ hcut).elim
  · have hxs : l ++ joined sep ls = xs := by
      rw [← intercalate_cons_eq_joined, ← hcut]
      exact intercalate_splitOn sep
    have hl : l = [] := by
      rcases l with _ | ⟨x, l⟩
      · rfl
      · rw [← hxs, cons_append, head?_cons, Option.some.injEq] at h
        have := notMem_of_mem_splitOn (show x :: l ∈ xs.splitOn sep by rw [hcut]; simp)
        simp [h] at this
    rw [hl, nil_append] at hxs
    calc (joined sep (pieces sep xs)).length
        = (joined sep (ls.filter (· ≠ []))).length := by
          unfold pieces
          rw [hcut, hl, filter_cons_of_neg (by simp)]
      _ ≤ (joined sep ls).length := length_joined_le (filter_sublist ..)
      _ = xs.length := by rw [hxs]

end SzpontOS.Lib
