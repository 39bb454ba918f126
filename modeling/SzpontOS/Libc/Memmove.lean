import SzpontOS.Lib.ByteMem
import SzpontOS.Lib.Run

/-!
# Moving bytes (`memcpy` and `memmove` of `string.c`)

The kernel and the C library have the same text. `memmove` copies upwards when the destination lies below the source or
past its end, and downwards otherwise. Either way the bytes written are none of those still to be read, so after each
unit the memory is the one at the start with a part of the range copied (`memcpy_append`, `append_memcpy`). Addresses are
numbers, since no object reaches past the end of the address space.
-/

namespace SzpontOS.Libc

open Lib List

/-- Units of `w` bytes copied upwards, `rep movsq` and `rep movsb`. A unit is read whole before it is written. -/
def copyUp (w : Nat) (m : Mem) (d s count : Nat) : Mem :=
  (range count).foldl (fun m i => m.memcpy (d + w * i) (s + w * i) w) m

/-- The same downwards, `while (count--) *--d = *--s;`. -/
def copyDown (w : Nat) (m : Mem) (d s count : Nat) : Mem :=
  (range count).foldl (fun m i => m.memcpy (d - w * (i + 1)) (s - w * (i + 1)) w) m

def memcpy (m : Mem) (dest src n : Nat) : Mem :=
  if dest = 0 ∨ src = 0 ∨ n = 0 then m
  else copyUp 1 (copyUp 8 m dest src (n / 8)) (dest + 8 * (n / 8)) (src + 8 * (n / 8)) (n % 8)

def memmove (m : Mem) (dest src n : Nat) : Mem :=
  if dest = 0 ∨ src = 0 ∨ n = 0 ∨ dest = src then m
  else if dest < src ∨ src + n ≤ dest then memcpy m dest src n
  else copyDown 8 (copyDown 1 m (dest + n) (src + n) (n % 8)) (dest + n - n % 8) (src + n - n % 8) (n / 8)

/-- `memmove` of `kernel/src/string.c`. -/
def kernelMemmove (m : Mem) (dest src n : Nat) : Mem :=
  if dest = 0 ∨ src = 0 ∨ n = 0 ∨ dest = src then m
  else if dest < src ∨ dest ≥ src + n then memcpy m dest src n
  else
    let m := copyDown 1 m (dest + n) (src + n) (n % 8)
    copyDown 8 m (dest + n - n % 8) (src + n - n % 8) (n / 8)

variable {m : Mem} {d s w : Nat}

theorem memcpy_append {k : Nat} (h : d < s ∨ s + (k + w) ≤ d) :
    (m.memcpy d s k).memcpy (d + k) (s + k) w = m.memcpy d s (k + w) := by
  funext b
  simp only [Mem.memcpy]
  split_ifs <;> first | omega | (congr 1 <;> omega)

theorem append_memcpy {k : Nat} (h : s ≤ d) :
    (m.memcpy (d + w) (s + w) k).memcpy d s w = m.memcpy d s (w + k) := by
  funext b
  simp only [Mem.memcpy]
  split_ifs <;> first | omega | (congr 1 <;> omega)

theorem memcpy_zero : m.memcpy d s 0 = m := by
  funext b
  exact Mem.memcpy_outside m d s 0 (by omega)

theorem copyUp_eq {count : Nat} (h : d < s ∨ s + w * count ≤ d) : copyUp w m d s count = m.memcpy d s (w * count) := by
  refine foldl_range_rule (fun k m' => m' = m.memcpy d s (w * k)) memcpy_zero.symm fun k m' hk hm => ?_
  have hle : w * k + w ≤ w * count := Nat.mul_le_mul_left w hk
  rw [hm, memcpy_append (by omega)]
  rfl

theorem copyDown_eq {count : Nat} (h : s ≤ d) (hs : w * count ≤ s) :
    copyDown w m d s count = m.memcpy (d - w * count) (s - w * count) (w * count) := by
  refine foldl_range_rule (fun k m' => m' = m.memcpy (d - w * k) (s - w * k) (w * k)) memcpy_zero.symm ?_
  intro k m' hk hm
  have hle : w * k + w ≤ w * count := Nat.mul_le_mul_left w hk
  have hlow : ∀ x, s ≤ x → x - w * k = x - w * (k + 1) + w := fun x hx => by rw [Nat.mul_succ]; omega
  rw [hm, hlow d h, hlow s (Nat.le_refl s), append_memcpy (by omega), Nat.mul_succ, Nat.add_comm w]

theorem memcpy_eq {n : Nat} (hd : d ≠ 0) (hs : s ≠ 0) (h : d < s ∨ s + n ≤ d) : memcpy m d s n = m.memcpy d s n := by
  unfold memcpy
  by_cases hn : n = 0
  · rw [if_pos (.inr (.inr hn)), hn, memcpy_zero]
  rw [if_neg (by omega), copyUp_eq (by omega), copyUp_eq (by omega), Nat.one_mul, memcpy_append (by omega),
    Nat.div_add_mod]

theorem memmove_eq {n : Nat} (hd : d ≠ 0) (hs : s ≠ 0) : memmove m d s n = m.memcpy d s n := by
  unfold memmove
  by_cases hsame : n = 0 ∨ d = s
  · rw [if_pos (.inr (.inr hsame))]
    funext b
    unfold Mem.memcpy
    split_ifs
    · congr 1
      omega
    · rfl
  rw [if_neg (by omega)]
  by_cases hup : d < s ∨ s + n ≤ d
  · rw [if_pos hup, memcpy_eq hd hs hup]
  · have hsplit := Nat.div_add_mod n 8
    have htop : ∀ x, x + n - n % 8 - 8 * (n / 8) = x := fun x => by omega
    rw [if_neg hup, copyDown_eq (by omega) (by omega), copyDown_eq (by omega) (by omega), htop, htop, Nat.one_mul,
      show d + n - n % 8 = d + 8 * (n / 8) by omega, show s + n - n % 8 = s + 8 * (n / 8) by omega,
      append_memcpy (by omega), hsplit]

/-- **`memmove` moves.** The destination holds what the source held, whichever way the two overlap, and no other byte
changes; from or to the null pointer nothing is moved. -/
theorem memmove_moves (m : Mem) (dest src n : Nat) :
    (dest ≠ 0 → src ≠ 0 → ∀ k < n, memmove m dest src n (dest + k) = m (src + k)) ∧
    (∀ b, b < dest ∨ dest + n ≤ b → memmove m dest src n b = m b) ∧
    (dest = 0 ∨ src = 0 → memmove m dest src n = m) ∧ kernelMemmove m dest src n = memmove m dest src n := by
  have hnull : dest = 0 ∨ src = 0 → memmove m dest src n = m := fun h => if_pos (by omega)
  refine ⟨fun hd hs k hk => ?_, fun b hb => ?_, hnull, rfl⟩
  · rw [memmove_eq hd hs, Mem.memcpy_inside _ _ _ _ hk]
  · by_cases h : dest = 0 ∨ src = 0
    · rw [hnull h]
    · rw [memmove_eq (by omega) (by omega), Mem.memcpy_outside _ _ _ _ hb]

/-- **From the null pointer nothing is moved.** -/
theorem memmove_null : ∃ (m : Mem) (dest src n : Nat), 0 < n ∧ memmove m dest src n dest ≠ m src :=
  ⟨fun a => if a = 0 then 1 else 0, 1, 0, 1, by decide, by decide⟩

end SzpontOS.Libc
