import Mathlib.Tactic

/-!
# The clock of the kernel (`drivers/rtc.c`)

The kernel splits the cycles of the time stamp counter into seconds and the rest before it multiplies. So 64 bits are
enough for every frequency up to 10 GHz, and the nanoseconds are rounded once.
-/

namespace SzpontOS.Drivers

open BitVec

/-- `g_tsc_freq_hz` and `g_tsc_boot_cycles`. -/
structure Tsc where
  freqHz : BitVec 64
  bootCycles : BitVec 64

structure TimespecKernel where
  sec : BitVec 64
  nsec : BitVec 64

def TimespecKernel.ns (ts : TimespecKernel) : BitVec 64 := ts.sec * 1000000000 + ts.nsec

variable (c : Tsc) (nowTsc : BitVec 64)

def Tsc.elapsedCycles : BitVec 64 := if nowTsc ≥ c.bootCycles then nowTsc - c.bootCycles else 0

def rtcGetMonotonic : TimespecKernel :=
  ⟨c.elapsedCycles nowTsc / c.freqHz, c.elapsedCycles nowTsc % c.freqHz * 1000000000 / c.freqHz⟩

def rtcGetMonotonicNs : BitVec 64 := (rtcGetMonotonic c nowTsc).ns

/-- At `f` Hz, `n` cycles have passed since calibration; they last less than 2^63 nanoseconds. -/
structure Tsc.Elapsed (f n : Nat) : Prop where
  freq : c.freqHz.toNat = f
  now : nowTsc.toNat = c.bootCycles.toNat + n
  short : n * 10 ^ 9 / f < 2 ^ 63

variable {c nowTsc} {f n : Nat}

theorem mul_div_split (n b : Nat) (hf : 1 ≤ f) : n * b / f = n / f * b + n % f * b / f := by
  have hn : n * b = f * (n / f * b) + n % f * b := by
    conv_lhs => rw [← Nat.div_add_mod n f]
    ring
  rw [hn, Nat.mul_add_div hf]

theorem Tsc.Elapsed.cycles (h : c.Elapsed nowTsc f n) : (c.elapsedCycles nowTsc).toNat = n := by
  have hnow := h.now
  have hle : nowTsc ≥ c.bootCycles := by
    show c.bootCycles.toNat ≤ nowTsc.toNat
    omega
  rw [elapsedCycles, if_pos hle, toNat_sub_of_le hle]
  omega

theorem Tsc.Elapsed.exact (hpos : 1 ≤ f) (hfreq : f ≤ 10 ^ 10) (h : c.Elapsed nowTsc f n) :
    n % f * 10 ^ 9 < 2 ^ 64 ∧ (rtcGetMonotonic c nowTsc).sec.toNat = n / f ∧
      (rtcGetMonotonic c nowTsc).nsec.toNat = n % f * 10 ^ 9 / f ∧
      (rtcGetMonotonicNs c nowTsc).toNat = n * 10 ^ 9 / f := by
  have hmod : n % f * 10 ^ 9 < 2 ^ 64 := by
    have := Nat.mod_lt n hpos
    omega
  have hsec : (rtcGetMonotonic c nowTsc).sec.toNat = n / f := by
    rw [rtcGetMonotonic, toNat_udiv, h.cycles, h.freq]
  have hnsec : (rtcGetMonotonic c nowTsc).nsec.toNat = n % f * 10 ^ 9 / f := by
    rw [rtcGetMonotonic, toNat_udiv, toNat_mul, toNat_umod, h.cycles, h.freq]
    exact congrArg (· / f) (Nat.mod_eq_of_lt hmod)
  refine ⟨hmod, hsec, hnsec, ?_⟩
  have hshort := h.short
  rw [mul_div_split n _ hpos] at hshort ⊢
  rw [rtcGetMonotonicNs, TimespecKernel.ns, toNat_add, toNat_mul, hsec, hnsec]
  show (n / f * 10 ^ 9 % 2 ^ 64 + _) % 2 ^ 64 = _
  omega

/-- **The clock is exact.** The products and the sum that are computed need no more than 64 bits, both forms of the time
agree, and a later counter gives no earlier time. -/
theorem monotonic_clock (hpos : 1 ≤ f) (hfreq : f ≤ 10 ^ 10) (h : c.Elapsed nowTsc f n) :
    (rtcGetMonotonicNs c nowTsc).toNat = n * 10 ^ 9 / f ∧
    n % f * 10 ^ 9 < 2 ^ 64 ∧ n / f * 10 ^ 9 + n % f * 10 ^ 9 / f < 2 ^ 64 ∧
    (rtcGetMonotonic c nowTsc).nsec.toNat < 10 ^ 9 ∧ (rtcGetMonotonic c nowTsc).sec.toNat * 10 ^ 9 +
      (rtcGetMonotonic c nowTsc).nsec.toNat = (rtcGetMonotonicNs c nowTsc).toNat ∧
    ∀ later m, nowTsc ≤ later → c.Elapsed later f m → rtcGetMonotonicNs c nowTsc ≤ rtcGetMonotonicNs c later := by
  obtain ⟨hmod, hsec, hnsec, hns⟩ := h.exact hpos hfreq
  have hsplit := mul_div_split n (10 ^ 9) hpos
  refine ⟨hns, hmod, hsplit ▸ h.short.trans (by norm_num), ?_, ?_, fun later m hle hlater => ?_⟩
  · rw [hnsec, Nat.div_lt_iff_lt_mul hpos]
    have := Nat.mod_lt n hpos
    omega
  · rw [hsec, hnsec, hns, hsplit]
  · show (rtcGetMonotonicNs c nowTsc).toNat ≤ (rtcGetMonotonicNs c later).toNat
    rw [hns, (hlater.exact hpos hfreq).2.2.2]
    have hle' : nowTsc.toNat ≤ later.toNat := hle
    rw [h.now, hlater.now] at hle'
    exact Nat.div_le_div_right (Nat.mul_le_mul_right _ (by omega))

/-- Five cycles at 3 Hz. -/
theorem monotonic_clock_threeHz : (rtcGetMonotonicNs ⟨3, 100⟩ 105).toNat = 1666666666 :=
  (monotonic_clock (c := ⟨3, 100⟩) (f := 3) (n := 5) (by decide) (by decide) ⟨rfl, rfl, by decide⟩).1

end SzpontOS.Drivers
