import Mathlib.Data.Set.Card
import SzpontOS.Drivers.Rtc

/-!
# Timers as files (`fs/timerfd.c`)

A timer stores its next target. A tick that comes late counts all periods that have passed and moves the target behind
the clock, so the target is always the first expiry plus as many periods as have been counted.
-/

namespace SzpontOS.Fs

open Relation Drivers BitVec

/-- `timerfd_ctx_t` -/
structure TimerfdCtx where
  armed : Bool
  targetNs : BitVec 64
  intervalNs : BitVec 64
  expirations : BitVec 64
  deriving DecidableEq

/-- What an armed timer does when the clock shows `now`. -/
def TimerfdCtx.expire (t : TimerfdCtx) (now : BitVec 64) : TimerfdCtx :=
  if t.targetNs ≤ now then
    if 0 < t.intervalNs then
      let extra := (now - t.targetNs) / t.intervalNs
      { t with targetNs := t.targetNs + (extra + 1) * t.intervalNs, expirations := t.expirations + (1 + extra) }
    else { t with armed := false, expirations := t.expirations + 1 }
  else t

/-- The turn of a timer in `timerfd_tick`. -/
def timerfdTick (t : TimerfdCtx) (now : BitVec 64) : TimerfdCtx := if t.armed then t.expire now else t

/-- `sys_timerfd_settime`, with the time on the timer's clock. -/
def sysTimerfdSettime (t : TimerfdCtx) (abstime : Bool) (value interval : TimespecKernel) (now : BitVec 64) :
    Int × TimerfdCtx :=
  if value.nsec.toInt < 0 ∨ value.nsec.toInt ≥ 1000000000 ∨ interval.nsec.toInt < 0 ∨
      interval.nsec.toInt ≥ 1000000000 then (-22, t)
  else if value.sec = 0 ∧ value.nsec = 0 then (0, { t with armed := false, targetNs := 0, intervalNs := 0 })
  else (0, TimerfdCtx.expire ⟨true, if abstime then value.ns else now + value.ns, interval.ns, 0⟩ now)

/-- A timer with the time of the last tick and the sum of the values read. -/
structure TimerRun where
  ctx : TimerfdCtx
  clock : BitVec 64
  got : Nat

/-- One tick, or one read that succeeds. -/
inductive TimerRun.Step (w : TimerRun) : TimerRun → Prop
  | tick (now) : w.clock ≤ now → Step w ⟨timerfdTick w.ctx now, now, w.got⟩
  | read : w.ctx.expirations > 0 → Step w ⟨{ w.ctx with expirations := 0 }, w.clock, w.got + w.ctx.expirations.toNat⟩

/-- A timer with first expiry `T` and interval `I` that has counted `n` expirations. -/
structure TimerfdCtx.Counts (t : TimerfdCtx) (T I n clock : Nat) : Prop where
  interval : t.intervalNs.toNat = I
  armed : t.armed = true ↔ clock < T + n * I
  target : t.armed = true → t.targetNs.toNat = T + n * I
  next : I ≠ 0 → clock < T + n * I
  last : n ≠ 0 → T + (n - 1) * I ≤ clock
  once : I = 0 → n = if T ≤ clock then 1 else 0

variable {t : TimerfdCtx} {T I n : Nat} {now : BitVec 64}

/-- **One look at the clock** counts the periods that have passed since the target. -/
theorem TimerfdCtx.expire_counts (harmed : t.armed = true) (hinterval : t.intervalNs.toNat = I)
    (htarget : t.targetNs.toNat = T + n * I) (honce : I = 0 → n = 0) (hlast : n ≠ 0 → T + (n - 1) * I ≤ now.toNat)
    (hfit : ∀ k, T + k * I ≤ now.toNat → T + (k + 1) * I < 2 ^ 64) (hle : t.expirations.toNat ≤ n) :
    ∃ m, (t.expire now).expirations.toNat = t.expirations.toNat + m ∧ (t.expire now).Counts T I (n + m) now.toNat := by
  have hdue : t.targetNs ≤ now ↔ T + n * I ≤ now.toNat := by rw [le_def, htarget]
  unfold expire
  split_ifs with h hpos
  · have hpos' : 0 < I := by rwa [lt_def, hinterval] at hpos
    have hextra : ((now - t.targetNs) / t.intervalNs).toNat = (now.toNat - (T + n * I)) / I := by
      rw [toNat_udiv, toNat_sub_of_le h, hinterval, htarget]
    generalize (now - t.targetNs) / t.intervalNs = extra at hextra ⊢
    have hge : extra.toNat * I ≤ now.toNat - (T + n * I) := hextra ▸ Nat.div_mul_le_self ..
    have hlt := hextra ▸ Nat.lt_div_mul_add hpos'
    rw [hdue] at h
    have hsum : T + (n + (extra.toNat + 1)) * I = T + n * I + (extra.toNat * I + I) := by ring
    have hprev : T + (n + extra.toNat) * I = T + n * I + extra.toNat * I := by ring
    have hfits := hfit (n + extra.toNat) (by omega)
    rw [Nat.add_assoc, hsum] at hfits
    have hcount : n + (extra.toNat + 1) ≤ n * I + (extra.toNat * I + I) := by nlinarith
    have hone : (1 : BitVec 64).toNat = 1 := rfl
    refine ⟨extra.toNat + 1, ?_, hinterval, ?_, fun _ => ?_, fun _ => ?_, fun _ => ?_, by omega⟩
    · rw [toNat_add, toNat_add, hone]
      omega
    · exact iff_of_true harmed (by omega)
    · have hmul : ((extra + 1) * t.intervalNs).toNat = extra.toNat * I + I := by
        rw [toNat_mul, toNat_add, hone, hinterval, Nat.mod_eq_of_lt (a := extra.toNat + 1) (by omega),
          Nat.add_one_mul]
        omega
      rw [toNat_add, hmul, htarget, hsum]
      omega
    · omega
    · rw [show n + (extra.toNat + 1) - 1 = n + extra.toNat by omega]
      omega
  · have hI : I = 0 := by
      rw [lt_def, hinterval] at hpos
      exact Nat.eq_zero_of_not_pos hpos
    obtain rfl := honce hI
    rw [hdue, hI] at h
    refine ⟨1, ?_, hinterval, ?_, fun hnot => ?_, fun hne => absurd hI hne, fun _ => ?_, fun _ => ?_⟩
    · simp
      omega
    · simp [hI]
      omega
    · simp at hnot
    · omega
    · rw [if_pos (by omega)]
  · rw [hdue] at h
    refine ⟨0, rfl, hinterval, iff_of_true harmed (by simpa using h), fun _ => by simpa using htarget,
      fun _ => by simpa using h, by simpa using hlast, fun hI => ?_⟩
    rw [honce hI, if_neg (by simpa [hI] using h)]

/-- The timer of a run has counted what was read and what is pending. -/
def TimerRun.Inv (T I : Nat) (w : TimerRun) : Prop := w.ctx.Counts T I (w.got + w.ctx.expirations.toNat) w.clock.toNat

theorem TimerRun.Inv.step {w w' : TimerRun} (h : w.Inv T I) (hstep : w.Step w')
    (hfit : ∀ k, T + k * I ≤ w'.clock.toNat → T + (k + 1) * I < 2 ^ 64) : w'.Inv T I := by
  cases hstep with
  | read _ => exact ⟨h.interval, by simpa using h.armed, by simpa using h.target, by simpa using h.next,
      by simpa using h.last, by simpa using h.once⟩
  | tick now hle =>
    rw [le_def] at hle
    unfold Inv timerfdTick
    dsimp only
    split_ifs with harmed
    · have honce : I = 0 → w.got + w.ctx.expirations.toNat = 0 := by
        rintro rfl
        have hbefore := h.armed.mp harmed
        by_contra hne
        have := h.last hne
        omega
      obtain ⟨m, hcount, hcounts⟩ := w.ctx.expire_counts harmed h.interval (h.target harmed) honce
        (fun hne => (h.last hne).trans hle) hfit (Nat.le_add_left ..)
      rwa [hcount, ← Nat.add_assoc]
    · have hdone := mt h.armed.mpr harmed
      refine ⟨h.interval, iff_of_false harmed (by omega), h.target, fun hI => absurd (h.next hI) hdone,
        fun hne => (h.last hne).trans hle, fun hI => ?_⟩
      have hpast : T ≤ w.clock.toNat := by simpa [hI] using hdone
      rw [h.once hI, if_pos hpast, if_pos (hpast.trans hle)]

/-- **Expirations are counted exactly.** What was read and what is pending is the number of expiries up to the last
tick, and the target is the next one; without an interval there is one expiration. -/
theorem timerfd_counts {t' : TimerfdCtx} {abstime : Bool} {value interval : TimespecKernel}
    (hset : sysTimerfdSettime t abstime value interval now = (0, t')) (harm : ¬ (value.sec = 0 ∧ value.nsec = 0))
    (hT : (if abstime then value.ns else now + value.ns).toNat = T) (hI : interval.ns.toNat = I) {w : TimerRun}
    (hrun : ReflTransGen TimerRun.Step ⟨t', now, 0⟩ w)
    (hfit : ∀ k, T + k * I ≤ w.clock.toNat → T + (k + 1) * I < 2 ^ 64) :
    (0 < I → w.got + w.ctx.expirations.toNat = { k | T + k * I ≤ w.clock.toNat }.ncard ∧
      w.ctx.targetNs.toNat = T + { k | T + k * I ≤ w.clock.toNat }.ncard * I) ∧
    (I = 0 → w.got + w.ctx.expirations.toNat = if T ≤ w.clock.toNat then 1 else 0) := by
  have hinv : w.Inv T I := by
    induction hrun with
    | refl =>
      rw [sysTimerfdSettime, if_neg harm] at hset
      split at hset
      · simp at hset
      obtain rfl := (Prod.mk.inj hset).2
      obtain ⟨m, hcount, hcounts⟩ := TimerfdCtx.expire_counts (n := 0) (t := ⟨true, _, interval.ns, 0⟩) rfl hI
        (by simpa using hT) (fun _ => rfl) (by simp) hfit (by simp)
      simp only [TimerRun.Inv, hcount]
      simpa using hcounts
    | tail hrun hstep ih =>
      refine (ih fun k hk => hfit k (hk.trans ?_)).step hstep hfit
      cases hstep with
      | tick now hle => exact hle
      | read _ => exact le_rfl
  refine ⟨fun hpos => ?_, hinv.once⟩
  have hnext := hinv.next hpos.ne'
  have hset : { k | T + k * I ≤ w.clock.toNat } = Finset.range (w.got + w.ctx.expirations.toNat) := by
    ext k
    simp only [Set.mem_ofPred_eq, Finset.coe_range, Set.mem_Iio]
    constructor
    · intro hk
      by_contra hge
      have := Nat.mul_le_mul_right I (not_lt.mp hge)
      omega
    · intro hk
      have := Nat.mul_le_mul_right I (Nat.le_sub_one_of_lt hk)
      have := hinv.last (by omega)
      omega
  rw [hset, Set.ncard_coe_finset, Finset.card_range]
  exact ⟨rfl, hinv.target (hinv.armed.mpr hnext)⟩

/-- A timer that expires at 5 ns and then every 3 ns, with one late tick and a read. -/
theorem timerfd_counts_lateTick : ReflTransGen TimerRun.Step ⟨⟨true, 5, 3, 0⟩, 0, 0⟩ ⟨⟨true, 14, 3, 0⟩, 12, 3⟩ ∧
    3 = { k | 5 + k * 3 ≤ 12 }.ncard := by
  have hset : sysTimerfdSettime ⟨false, 0, 0, 0⟩ false ⟨0, 5⟩ ⟨0, 3⟩ 0 = (0, ⟨true, 5, 3, 0⟩) := by decide
  have hrun : ReflTransGen TimerRun.Step ⟨⟨true, 5, 3, 0⟩, 0, 0⟩ ⟨⟨true, 14, 3, 0⟩, 12, 3⟩ :=
    .tail (.single (.tick 12 (by decide))) (.read (by decide))
  have hfit : ∀ k, 5 + k * 3 ≤ 12 → 5 + (k + 1) * 3 < 2 ^ 64 := by
    omega
  exact ⟨hrun, ((timerfd_counts hset (by decide) rfl rfl hrun hfit).1 (by decide)).1⟩

end SzpontOS.Fs
