import Mathlib.Tactic

/-!
# Byte-addressed memory

A memory maps addresses to bytes; 32- and 64-bit words are stored little-endian. The lemmas say
which bytes each operation touches (`store64_outside`, `memset_outside`, `memcpy_outside`), that a
load returns what the last store put there, and that a load only depends on the bytes it covers
(`load64_congr`), so a proof about a client never looks at bytes.
-/

namespace SzpontOS.Lib

abbrev Mem := Nat → BitVec 8

variable {m m' : Mem} {a b : Nat}

namespace Mem

/-- The little-endian 32-bit word at `a`. -/
def load32 (m : Mem) (a : Nat) : BitVec 32 := m (a + 3) ++ m (a + 2) ++ m (a + 1) ++ m a

/-- The little-endian 64-bit word at `a`. -/
def load64 (m : Mem) (a : Nat) : BitVec 64 :=
  m (a + 7) ++ m (a + 6) ++ m (a + 5) ++ m (a + 4) ++ m (a + 3) ++ m (a + 2) ++ m (a + 1) ++ m a

def store32 (m : Mem) (a : Nat) (w : BitVec 32) : Mem :=
  fun b => if a ≤ b ∧ b < a + 4 then w.extractLsb' (8 * (b - a)) 8 else m b

def store64 (m : Mem) (a : Nat) (w : BitVec 64) : Mem :=
  fun b => if a ≤ b ∧ b < a + 8 then w.extractLsb' (8 * (b - a)) 8 else m b

/-- `memset(a, v, n)`. -/
def memset (m : Mem) (a : Nat) (v : BitVec 8) (n : Nat) : Mem :=
  fun b => if a ≤ b ∧ b < a + n then v else m b

/-- `memcpy(dst, src, n)` for ranges that do not overlap. -/
def memcpy (m : Mem) (dst src n : Nat) : Mem :=
  fun b => if dst ≤ b ∧ b < dst + n then m (src + (b - dst)) else m b

/-- The bytes stored from `a` on. -/
def storeBytes (m : Mem) (a : Nat) (bytes : List (BitVec 8)) : Mem :=
  fun b => if a ≤ b ∧ b < a + bytes.length then bytes.getD (b - a) 0 else m b

/-! ## What a load depends on -/

theorem load32_congr (h : ∀ b, a ≤ b → b < a + 4 → m' b = m b) : load32 m' a = load32 m a := by
  simp only [load32, h a (by omega) (by omega), h (a + 1) (by omega) (by omega),
    h (a + 2) (by omega) (by omega), h (a + 3) (by omega) (by omega)]

theorem load64_congr (h : ∀ b, a ≤ b → b < a + 8 → m' b = m b) : load64 m' a = load64 m a := by
  simp only [load64, h a (by omega) (by omega), h (a + 1) (by omega) (by omega),
    h (a + 2) (by omega) (by omega), h (a + 3) (by omega) (by omega),
    h (a + 4) (by omega) (by omega), h (a + 5) (by omega) (by omega),
    h (a + 6) (by omega) (by omega), h (a + 7) (by omega) (by omega)]

/-! ## What a store changes -/

section

variable (m : Mem) (a : Nat)

theorem store32_outside (w : BitVec 32) (h : b < a ∨ a + 4 ≤ b) : store32 m a w b = m b := by
  rw [store32, if_neg (by omega)]

theorem store64_outside (w : BitVec 64) (h : b < a ∨ a + 8 ≤ b) : store64 m a w b = m b := by
  rw [store64, if_neg (by omega)]

theorem storeBytes_outside (bytes : List (BitVec 8)) (h : b < a ∨ a + bytes.length ≤ b) :
    storeBytes m a bytes b = m b := by
  rw [storeBytes, if_neg (by omega)]

theorem memset_outside (v : BitVec 8) (n : Nat) (h : b < a ∨ a + n ≤ b) : memset m a v n b = m b := by
  rw [memset, if_neg (by omega)]

theorem memset_inside (v : BitVec 8) (n : Nat) (h : a ≤ b) (h' : b < a + n) : memset m a v n b = v := by
  rw [memset, if_pos ⟨h, h'⟩]

end

theorem memcpy_outside (m : Mem) (dst src n : Nat) (h : b < dst ∨ dst + n ≤ b) : memcpy m dst src n b = m b := by
  rw [memcpy, if_neg (by omega)]

theorem memcpy_inside (m : Mem) (dst src n : Nat) {k : Nat} (h : k < n) :
    memcpy m dst src n (dst + k) = m (src + k) := by
  rw [memcpy, if_pos (by omega), Nat.add_sub_cancel_left]

/-! ## Loads after stores -/

@[simp] theorem load32_store32 (m : Mem) (a : Nat) (w : BitVec 32) : load32 (store32 m a w) a = w := by
  apply BitVec.eq_of_getLsbD_eq
  intro i hi
  simp only [load32, store32, BitVec.getLsbD_append]
  interval_cases i <;> simp

@[simp] theorem load64_store64 (m : Mem) (a : Nat) (w : BitVec 64) : load64 (store64 m a w) a = w := by
  apply BitVec.eq_of_getLsbD_eq
  intro i hi
  simp only [load64, store64, BitVec.getLsbD_append]
  interval_cases i <;> simp

theorem load64_store64_ne (m : Mem) (a b : Nat) (w : BitVec 64) (h : b + 8 ≤ a ∨ a + 8 ≤ b) :
    load64 (store64 m a w) b = load64 m b :=
  load64_congr fun c _ _ => store64_outside m a w (by omega)

theorem load32_store64_ne (m : Mem) (a b : Nat) (w : BitVec 64) (h : b + 4 ≤ a ∨ a + 8 ≤ b) :
    load32 (store64 m a w) b = load32 m b :=
  load32_congr fun c _ _ => store64_outside m a w (by omega)

theorem load32_store32_ne (m : Mem) (a b : Nat) (w : BitVec 32) (h : b + 4 ≤ a ∨ a + 4 ≤ b) :
    load32 (store32 m a w) b = load32 m b :=
  load32_congr fun c _ _ => store32_outside m a w (by omega)

theorem load64_memset_zero (m : Mem) (a n b : Nat) (h : a ≤ b) (h' : b + 8 ≤ a + n) :
    load64 (memset m a 0 n) b = 0 := by
  have hb : ∀ k, k < 8 → memset m a 0 n (b + k) = 0 := fun k hk => memset_inside m a 0 n (by omega) (by omega)
  simp only [load64, hb 7 (by omega), hb 6 (by omega), hb 5 (by omega), hb 4 (by omega),
    hb 3 (by omega), hb 2 (by omega), hb 1 (by omega), show memset m a 0 n b = 0 from hb 0 (by omega)]
  rfl

end Mem

end SzpontOS.Lib
