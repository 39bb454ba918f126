import Mathlib.Tactic
import Mathlib.Data.Nat.Bitwise

/-!
# Bit fields

A mask of `n` ones from bit `lo` on cuts a field out of a number. `and_field` turns the mask into
division and remainder, which is the form arithmetic can work with; `or_eq_add` does the same for an
`|` of numbers without common bits. The `BitVec` lemmas below state both for 64-bit words.
-/

namespace SzpontOS.Lib.Bits

open BitVec Bool

theorem and_field (x lo n : Nat) : x &&& (2 ^ n - 1) <<< lo = x / 2 ^ lo % 2 ^ n * 2 ^ lo := by
  rw [← Nat.shiftLeft_eq, ← Nat.shiftRight_eq_div_pow]
  apply Nat.eq_of_testBit_eq
  intro i
  simp only [Nat.testBit_and, Nat.testBit_shiftLeft, Nat.testBit_two_pow_sub_one, Nat.testBit_mod_two_pow,
    Nat.testBit_shiftRight]
  by_cases h : lo ≤ i
  · simp [h, Bool.and_comm]
  · simp [h]

theorem or_eq_add {x b : Nat} (i : Nat) (hx : x % 2 ^ i = 0) (hb : b < 2 ^ i) : x ||| b = x + b := by
  have hq : 2 ^ i * (x / 2 ^ i) = x := by
    have := Nat.div_add_mod x (2 ^ i)
    omega
  rw [← hq, ← Nat.two_pow_add_eq_or_of_lt hb]

theorem toNat_and_field (x mask : BitVec 64) (lo n : Nat) (h : mask.toNat = (2 ^ n - 1) <<< lo) :
    (x &&& mask).toNat = x.toNat / 2 ^ lo % 2 ^ n * 2 ^ lo := by
  rw [toNat_and, h, and_field]

theorem ofNat_and_field {a : Nat} (mask : BitVec 64) (lo n : Nat) (h : mask.toNat = (2 ^ n - 1) <<< lo)
    (hlo : a % 2 ^ lo = 0) (hhi : a < 2 ^ (lo + n)) (h64 : lo + n ≤ 64) :
    BitVec.ofNat 64 a &&& mask = BitVec.ofNat 64 a := by
  have ha : a < 2 ^ 64 := lt_of_lt_of_le hhi (Nat.pow_le_pow_right (by norm_num) h64)
  apply eq_of_toNat_eq
  rw [toNat_and_field _ _ lo n h, toNat_ofNat, Nat.mod_eq_of_lt ha]
  have hdiv : a / 2 ^ lo < 2 ^ n := by
    rw [Nat.div_lt_iff_lt_mul (Nat.two_pow_pos lo), ← Nat.pow_add, Nat.add_comm n lo]
    exact hhi
  rw [Nat.mod_eq_of_lt hdiv]
  exact Nat.div_mul_cancel (Nat.dvd_of_mod_eq_zero hlo)

theorem and_bit_ne_zero (x : BitVec 64) (k : Nat) (hk : k < 64) : (x &&& 1#64 <<< k != 0) = x.getLsbD k := by
  have hone : ∀ j, j < 64 → (1#64 <<< k).getLsbD j = decide (j = k) := by
    intro j hj
    simp only [getLsbD_shiftLeft, hj, decide_true, Bool.true_and, getLsbD_one]
    by_cases h : j < k
    · simp [h]
      omega
    · simp [h]
      omega
  cases hx : x.getLsbD k with
  | true =>
    rw [bne_iff_ne]
    intro hzero
    have := congrArg (fun w => getLsbD w k) hzero
    simp [getLsbD_and, hx, hone k hk] at this
  | false =>
    rw [bne_eq_false_iff_eq]
    apply eq_of_getLsbD_eq
    intro j hj
    rw [getLsbD_and, hone j hj]
    by_cases h : j = k
    · simp [h, hx]
    · simp [h]

theorem and_eq_right_iff (x mask : BitVec 64) :
    x &&& mask = mask ↔ ∀ k, k < 64 → mask.getLsbD k = true → x.getLsbD k = true := by
  constructor
  · intro h k _ hmask
    rw [← h, getLsbD_and, and_eq_true] at hmask
    exact hmask.1
  · intro h
    apply eq_of_getLsbD_eq
    intro k hk
    rw [getLsbD_and]
    cases hmask : mask.getLsbD k with
    | false => exact and_false _
    | true => rw [h k hk hmask, Bool.and_self]

end SzpontOS.Lib.Bits
