import Mathlib.Data.List.GetD
import Mathlib.Tactic

/-!
# Arrays that are read, written and resized

A file, a buffer or a disk block seen as a list of cells. `resize` cuts the list or fills it up, `writeAt` fills the gap
before a write that starts past the end, and `slice` is what a read returns. Cells past the end count as filled
(`List.getD`), so each operation has one equation per cell and one for the length (`ext_getD`).
-/

namespace SzpontOS.Lib.Extent

open List

variable {α : Type*} (fill : α)

/-- The list cut or filled up to length `n`. -/
def resize (a : List α) (n : Nat) : List α := a.take n ++ List.replicate (n - a.length) fill

/-- The list with the cells from `offset` on replaced by `d`. -/
def writeAt (a : List α) (offset : Nat) (d : List α) : List α :=
  resize fill a offset ++ d ++ a.drop (offset + d.length)

/-- The cells of the range of `size` cells from `offset` on. -/
def slice (a : List α) (offset size : Nat) : List α := (a.drop offset).take size

theorem ext_getD {a b : List α} (hlen : a.length = b.length) (h : ∀ i, i < a.length → a.getD i fill = b.getD i fill) :
    a = b := by
  apply ext_getElem hlen
  intro i hi hi'
  have := h i hi
  rwa [getD_eq_getElem _ _ hi, getD_eq_getElem _ _ hi'] at this

section

variable (a : List α)

theorem length_resize (n : Nat) : (resize fill a n).length = n := by
  unfold resize
  rw [length_append, length_take, length_replicate]
  omega

theorem getD_resize (n i : Nat) : (resize fill a n).getD i fill = if i < n then a.getD i fill else fill := by
  unfold resize
  by_cases hi : i < n
  · rw [if_pos hi]
    by_cases hia : i < a.length
    · rw [getD_append _ _ _ _ (by rw [length_take]; omega), getD_eq_getElem _ _ hia,
        getD_eq_getElem _ _ (by rw [length_take]; omega), getElem_take]
    · rw [getD_append_right _ _ _ _ (by rw [length_take]; omega), getD_eq_default a _ (by omega),
        getD_replicate]
      rw [length_take]
      omega
  · rw [if_neg hi, getD_eq_default]
    rw [length_append, length_take, length_replicate]
    omega

theorem length_writeAt (offset : Nat) (d : List α) :
    (writeAt fill a offset d).length = max a.length (offset + d.length) := by
  unfold writeAt
  rw [length_append, length_append, length_resize, length_drop]
  omega

theorem getD_writeAt (offset : Nat) (d : List α) (i : Nat) : (writeAt fill a offset d).getD i fill =
      if offset ≤ i ∧ i < offset + d.length then d.getD (i - offset) fill else a.getD i fill := by
  have hpre : (resize fill a offset).length = offset := length_resize fill a offset
  have hmid : (resize fill a offset ++ d).length = offset + d.length := by rw [length_append, hpre]
  unfold writeAt
  by_cases hlow : i < offset
  · rw [if_neg (by omega), getD_append _ _ _ _ (by omega), getD_append _ _ _ _ (by omega), getD_resize,
      if_pos hlow]
  · by_cases hhigh : i < offset + d.length
    · rw [if_pos ⟨by omega, hhigh⟩, getD_append _ _ _ _ (by omega), getD_append_right _ _ _ _ (by omega), hpre]
    · rw [if_neg (by omega), getD_append_right _ _ _ _ (by omega), hmid]
      by_cases hia : i < a.length
      · rw [getD_eq_getElem _ _ hia, getD_eq_getElem _ _ (by rw [length_drop]; omega), getElem_drop]
        congr 1
        omega
      · rw [getD_eq_default a _ (by omega), getD_eq_default]
        rw [length_drop]
        omega

theorem length_slice (offset size : Nat) : (slice a offset size).length = min (offset + size) a.length - offset := by
  unfold slice
  rw [length_take, length_drop]
  omega

theorem getD_slice (offset size i : Nat) (hi : i < (slice a offset size).length) :
    (slice a offset size).getD i fill = a.getD (offset + i) fill := by
  have hlt : offset + i < a.length := by
    rw [length_slice] at hi
    omega
  unfold slice at hi ⊢
  rw [getD_eq_getElem _ _ hi, getD_eq_getElem _ _ hlt, getElem_take, getElem_drop]

end

end SzpontOS.Lib.Extent
