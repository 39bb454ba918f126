import SzpontOS.Libc.Mutex

/-!
# Timed waits (`pthread_cond_timedwait`, `pthread_mutex_timedlock`, `sem_timedwait`)

The three calls take an absolute deadline of `CLOCK_REALTIME` and hand it to `FUTEX_WAIT` as it is. The kernel turns it
into timer ticks, adds those to the tick counter and polls the counter until it has got that far (`futexWaitTimed`).
Nowhere is the current time subtracted: the deadline is taken for a duration.

Here nobody else acts while a call waits. Then each of the three reports `ETIMEDOUT` after `durationTicks` ticks
(`TimedCall.Waits.run_eq`), which are the milliseconds of the deadline since the epoch (`durationTicks_eq`). So the report
is in time exactly if it is the epoch when the call is made, up to rounding (`timed_wait_iff`).
-/

namespace SzpontOS.Libc

/-! ## The kernel's part -/

/-- `struct timespec`, two signed words of 64 bits. -/
structure Timespec where
  sec : Int
  nsec : Int
  deriving DecidableEq, Repr

/-- A signed word as `uint64_t`. -/
def toU64 (x : Int) : Nat := (x % 2 ^ 64).toNat

def waitMs (timeout : Timespec) : Nat :=
  let ms := (toU64 timeout.sec * 1000 % 2 ^ 64 + toU64 (timeout.nsec.tdiv 1000000)) % 2 ^ 64
  if ms = 0 ∧ 0 < timeout.nsec then 1 else ms

def durationTicks (freq : Nat) (timeout : Timespec) : Nat :=
  let freq := if freq = 0 then 1000 else freq
  let ticks := waitMs timeout * freq % 2 ^ 64 / 1000
  if ticks = 0 ∧ 0 < waitMs timeout then 1 else ticks

def expireTicks (freq : Nat) (timeout : Timespec) (start : Nat) : Nat :=
  (start + durationTicks freq timeout) % 2 ^ 64

/-- The ticks that `thread_sleep(ms)` sleeps. -/
def sleepTicks (freq ms : Nat) : Nat :=
  let ticks := (ms * freq + 999) / 1000
  if ticks = 0 then 1 else ticks

theorem sleepTicks_pos (freq ms : Nat) : 0 < sleepTicks freq ms := by
  unfold sleepTicks
  dsimp only
  split <;> omega

/-- The polling loop of `futex_wait`, for a thread that is not woken: the tick at which it sees that its time is over. -/
def pollTicks (freq expire tick : Nat) : Nat :=
  if expire ≤ tick then tick else pollTicks freq expire (tick + sleepTicks freq 1)
termination_by expire - tick
decreasing_by
  have := sleepTicks_pos freq 1
  omega

/-- `FUTEX_WAIT` with a timeout, for a thread that is not woken: what it returns, and at which tick. -/
def futexWaitTimed (freq : Nat) (word val : Int) (timeout : Timespec) (tick : Nat) : Int × Nat :=
  if word ≠ val then (-11, tick) else (-110, pollTicks freq (expireTicks freq timeout tick) tick)

/-! ## The library's part

Each call returns its result and the tick of its return. The first argument bounds the passes of the loop. -/

def etimedout : Int := 110

/-- The loop of `pthread_cond_timedwait`, on a condition whose sequence number is `word`. -/
def condLoop (freq : Nat) (word seq : Int) (abstime : Timespec) : Nat → Nat → Option (Int × Nat)
  | 0, _ => none
  | passes + 1, tick =>
    if word = seq then
      let res := futexWaitTimed freq word seq abstime tick
      if res.1 = -110 then some (etimedout, res.2) else condLoop freq word seq abstime passes res.2
    else
      some (0, tick)

/-- `pthread_cond_timedwait` on a condition that nobody signals. The mutex is free when it is taken back. -/
def condTimedwait (freq passes : Nat) (seq : Int) (abstime : Timespec) (tick : Nat) : Option (Int × Nat) :=
  condLoop freq seq seq abstime passes tick

/-- The loop of `pthread_mutex_timedlock`; `c` is the value that the last exchange found. -/
def mutexLoop (freq : Nat) (abstime : Timespec) : Nat → Int → Int → Nat → Option (Int × Nat)
  | 0, _, _, _ => none
  | passes + 1, word, c, tick =>
    if c ≠ 0 then
      let res := futexWaitTimed freq word 2 abstime tick
      if res.1 = -110 then some (etimedout, res.2) else mutexLoop freq abstime passes 2 word res.2
    else
      some (0, tick)

/-- `pthread_mutex_timedlock` by the thread `me` on a mutex that nobody else touches meanwhile. -/
def mutexTimedlock (freq passes : Nat) (mutex : Mutex) (me : Int) (abstime : Timespec) (tick : Nat) :
    Option (Int × Nat) :=
  if mutex.type = .recursive ∧ mutex.owner = me then some (0, tick)
  else if mutex.lock ≠ 0 then
    -- a word other than 2 is exchanged for 2 first: in either case the word is 2 when the loop starts
    mutexLoop freq abstime passes 2 mutex.lock tick
  else
    some (0, tick)

/-- `sem_timedwait` on a semaphore of value `val` that nobody posts. -/
def semTimedwait (freq : Nat) (val : Int) (abstime : Timespec) : Nat → Nat → Option (Int × Nat)
  | 0, _ => none
  | passes + 1, tick =>
    if 0 < val then some (0, tick)
    else
      let res := futexWaitTimed freq val 0 abstime tick
      if res.1 = -110 then some (etimedout, res.2) else semTimedwait freq val abstime passes res.2

inductive TimedCall where
  | cond (seq : Int)
  | mutex (m : Mutex) (me : Int)
  | sem (val : Int)
  deriving DecidableEq, Repr

/-- The call has to wait: the mutex is held (and not by its owner again), the semaphore is 0. -/
def TimedCall.Waits : TimedCall → Prop
  | .cond _ => True
  | .mutex m me => m.lock ≠ 0 ∧ ¬(m.type = .recursive ∧ m.owner = me)
  | .sem val => val = 0

/-- What the call returns and when, if it starts at `tick` and makes at most `passes` passes. -/
def TimedCall.run (freq passes : Nat) (abstime : Timespec) (tick : Nat) : TimedCall → Option (Int × Nat)
  | .cond seq => condTimedwait freq passes seq abstime tick
  | .mutex m me => mutexTimedlock freq passes m me abstime tick
  | .sem val => semTimedwait freq val abstime passes tick

/-! ## How long a call waits -/

/-- The kernel calls `pit_init(1000)`: a tick is a millisecond. -/
def pitFrequency : Nat := 1000

/-- The moment a `timespec` names, in nanoseconds since the epoch. -/
def Timespec.ns (t : Timespec) : Int := t.sec * 10 ^ 9 + t.nsec

def Timespec.Valid (t : Timespec) : Prop := 0 ≤ t.nsec ∧ t.nsec < 10 ^ 9

/-- A number of milliseconds is multiplied by 1000 in 64 bits, so that time seems to start anew every `2 ^ 64`
microseconds. This is the last such start before the deadline, in milliseconds: 0, the epoch, for the first 584000
years. -/
def Timespec.era (t : Timespec) : Int := (t.ns / 10 ^ 6 * 1000 / 2 ^ 64 * 2 ^ 64 + 999) / 1000

/-- The deadline is the epoch, or comes to no milliseconds in 64 bits as the epoch does. -/
abbrev Timespec.Zero (t : Timespec) : Prop := t.nsec = 0 ∧ t.sec % 2 ^ 61 = 0

variable {start : Nat} {abstime : Timespec} {now origin : Int}

theorem pollTicks_eq (expire tick : Nat) : pollTicks pitFrequency expire tick = max expire tick := by
  have hunit : sleepTicks pitFrequency 1 = 1 := rfl
  induction tick using pollTicks.induct pitFrequency expire with
  | case1 tick hover => rw [pollTicks, if_pos hover, Nat.max_eq_right hover]
  | case2 tick hover ih =>
    rw [pollTicks, if_neg hover, ih, hunit]
    omega

theorem waitMs_eq (hvalid : abstime.Valid) :
    (waitMs abstime : Int) = if abstime.ns / 10 ^ 6 % 2 ^ 64 = 0 ∧ 0 < abstime.nsec then 1
      else abstime.ns / 10 ^ 6 % 2 ^ 64 := by
  obtain ⟨hlo, hhi⟩ := hvalid
  have hms : (((toU64 abstime.sec * 1000 % 2 ^ 64 + toU64 (abstime.nsec.tdiv 1000000)) % 2 ^ 64 : Nat) : Int) =
      abstime.ns / 10 ^ 6 % 2 ^ 64 := by
    rw [Int.tdiv_eq_ediv_of_nonneg hlo, Timespec.ns, toU64, toU64]
    omega
  unfold waitMs
  dsimp only
  split_ifs <;> omega

theorem Timespec.Valid.zero_iff (hvalid : abstime.Valid) :
    abstime.Zero ↔ abstime.ns / 10 ^ 6 % 2 ^ 64 = 0 ∧ ¬0 < abstime.nsec := by
  obtain ⟨hlo, hhi⟩ := hvalid
  have hms : abstime.ns / 10 ^ 6 = abstime.sec * 1000 + abstime.nsec / 10 ^ 6 := by
    unfold Timespec.ns
    omega
  rw [hms]
  constructor
  · rintro ⟨hnsec, hsec⟩
    omega
  · rintro ⟨hmod, hnsec⟩
    have hzero : abstime.nsec = 0 := by omega
    obtain ⟨k, hk⟩ := Int.dvd_of_emod_eq_zero hmod
    rw [hzero, Int.zero_ediv, add_zero] at hk
    have hdvd : 2 ^ 61 ∣ abstime.sec * 125 := Dvd.intro k (by linarith)
    have hcoprime : IsCoprime (2 ^ 61 : Int) 125 := by norm_num
    exact ⟨hzero, Int.emod_eq_zero_of_dvd (hcoprime.dvd_of_dvd_mul_right hdvd)⟩

/-- Multiplied by 1000 in 64 bits and divided again, a number loses the start of its era. -/
theorem ticks_eq_sub_era (ms : Nat) {m : Int} (hms : (ms : Int) = m % 2 ^ 64) :
    ((ms * 1000 % 2 ^ 64 / 1000 : Nat) : Int) = m - (m * 1000 / 2 ^ 64 * 2 ^ 64 + 999) / 1000 := by
  have hcarry : ∀ w k q : Int, (w * 1000 - 2 ^ 64 * k) / 1000 =
      2 ^ 64 * q + w - ((q * 1000 + k) * 2 ^ 64 + 999) / 1000 := by
    intro w k q
    omega
  have hera : m * 1000 / 2 ^ 64 = m / 2 ^ 64 * 1000 + m % 2 ^ 64 * 1000 / 2 ^ 64 := by omega
  have hticks := hcarry (m % 2 ^ 64) (m % 2 ^ 64 * 1000 / 2 ^ 64) (m / 2 ^ 64)
  rw [← hera, Int.mul_ediv_add_emod, ← Int.emod_def, ← hms] at hticks
  exact_mod_cast hticks

/-- **The duration** is what the deadline comes to since the epoch, in milliseconds; a part of the first one is a whole
one. -/
theorem durationTicks_eq (hvalid : abstime.Valid) :
    (durationTicks pitFrequency abstime : Int) =
      if abstime.ns / 10 ^ 6 = abstime.era ∧ ¬abstime.Zero then 1 else abstime.ns / 10 ^ 6 - abstime.era := by
  have hwait := waitMs_eq hvalid
  have hzero := hvalid.zero_iff
  have hfreq : (if pitFrequency = 0 then 1000 else pitFrequency) = 1000 := rfl
  unfold durationTicks Timespec.era
  rw [hfreq]
  dsimp only
  generalize waitMs abstime = ms, abstime.ns / 10 ^ 6 = m at *
  by_cases hfirst : m % 2 ^ 64 = 0 ∧ 0 < abstime.nsec
  · rw [if_pos hfirst] at hwait
    obtain rfl : ms = 1 := by exact_mod_cast hwait
    have hstart := ticks_eq_sub_era 0 hfirst.1.symm
    rw [if_neg (by decide), if_pos ⟨by simpa [sub_eq_zero] using hstart.symm, fun h => (hzero.mp h).2 hfirst.2⟩]
    decide
  · rw [if_neg hfirst] at hwait
    have hticks := ticks_eq_sub_era _ hwait
    generalize ms * 1000 % 2 ^ 64 / 1000 = ticks, (m * 1000 / 2 ^ 64 * 2 ^ 64 + 999) / 1000 = era at *
    by_cases hlast : m = era
    · by_cases hms : 0 < ms
      · rw [if_pos (by omega), if_pos ⟨hlast, by omega⟩]
        rfl
      · rw [if_neg (by omega), if_neg (by omega)]
        exact hticks
    · rw [if_neg (by omega), if_neg (by tauto)]
      exact hticks

theorem durationTicks_lt (abstime : Timespec) : durationTicks pitFrequency abstime < 2 ^ 63 := by
  have hfreq : (if pitFrequency = 0 then 1000 else pitFrequency) = 1000 := rfl
  unfold durationTicks
  rw [hfreq]
  dsimp only
  split_ifs <;> omega

theorem Timespec.Zero.era_eq (hzero : abstime.Zero) : abstime.era = abstime.ns / 10 ^ 6 := by
  unfold Timespec.era
  obtain ⟨hnsec, hsec⟩ := hzero
  rw [Timespec.ns, hnsec]
  omega

/-- **One result for the three.** Each call that has to wait reports `ETIMEDOUT` in its first pass. -/
theorem TimedCall.Waits.run_eq {call : TimedCall} (hwaits : call.Waits) (abstime : Timespec) (hstart : start < 2 ^ 63)
    (passes : Nat) : call.run pitFrequency (passes + 1) abstime start =
      some (etimedout, start + durationTicks pitFrequency abstime) := by
  have hlt := durationTicks_lt abstime
  have hwait : ∀ word : Int, futexWaitTimed pitFrequency word word abstime start =
      (-110, start + durationTicks pitFrequency abstime) := by
    intro word
    rw [futexWaitTimed, if_neg (not_not.2 rfl), pollTicks_eq, expireTicks, Nat.mod_eq_of_lt (by omega),
      Nat.max_eq_left (Nat.le_add_right _ _)]
  cases call with
  | cond seq => simp only [TimedCall.run, condTimedwait, condLoop, hwait, if_true]
  | mutex m me =>
    obtain ⟨hheld, hother⟩ := hwaits
    simp only [TimedCall.run, mutexTimedlock, if_neg hother, if_pos hheld, mutexLoop, hwait, if_true]
  | sem val =>
    obtain rfl : val = 0 := hwaits
    simp only [TimedCall.run, semTimedwait, lt_irrefl, if_false, hwait, if_true]

/-! ## The time line of the timer -/

/-- When the tick counter becomes `k`, if it was 0 at the time `origin`. -/
def tickTime (origin : Int) (k : Nat) : Int := origin + k * 10 ^ 6

/-- At the time `now` the counter is `k`. -/
def Reads (origin now : Int) (k : Nat) : Prop := tickTime origin k ≤ now ∧ now < tickTime origin (k + 1)

/-- `k` is the first tick at or after the deadline. -/
def FirstTick (origin : Int) (abstime : Timespec) (k : Nat) : Prop :=
  abstime.ns ≤ tickTime origin k ∧ ∀ j < k, tickTime origin j < abstime.ns

/-- A call made at the time `now`, in the tick `start`, may report at `tick`: at once if the deadline is not in the
future, else within one tick of the first one at or after it. -/
def OnTime (origin : Int) (abstime : Timespec) (now : Int) (start tick : Nat) : Prop :=
  (abstime.ns ≤ now → tick = start) ∧
    (now < abstime.ns → ∃ due, FirstTick origin abstime due ∧ tick ≤ due + 1 ∧ due ≤ tick + 1)

/-- The last tick came at the epoch, up to the part of a millisecond that the deadline has: at most one tick (for a
deadline in the first millisecond, two) before and less than two ticks after. -/
def AtEpoch (abstime : Timespec) (last : Int) : Prop :=
  let since := last - abstime.era * 10 ^ 6 - abstime.ns % 10 ^ 6
  (if abstime.ns / 10 ^ 6 = abstime.era ∧ ¬abstime.Zero then -2 * 10 ^ 6 else -10 ^ 6) ≤ since ∧
    since < 2 * 10 ^ 6

theorem exists_firstTick (hreads : Reads origin now start) (hfuture : now < abstime.ns) :
    ∃ due, FirstTick origin abstime due ∧ start < due := by
  unfold Reads FirstTick tickTime at *
  refine ⟨((abstime.ns - origin + (10 ^ 6 - 1)) / 10 ^ 6).toNat, ⟨?_, fun j hj => ?_⟩, ?_⟩ <;> omega

theorem FirstTick.le_iff {due : Nat} (hdue : FirstTick origin abstime due) (k : Nat) :
    due ≤ k ↔ abstime.ns ≤ tickTime origin k := by
  obtain ⟨hreach, hbefore⟩ := hdue
  constructor
  · intro hle
    unfold tickTime at *
    omega
  · intro hk
    by_contra hlt
    have := hbefore k (by omega)
    omega

/-- **Where the report falls.** It is within one tick of the deadline's first one exactly if it was the epoch. -/
theorem atEpoch_iff {due : Nat} (hdue : FirstTick origin abstime due) (hvalid : abstime.Valid) (hafter : start < due) :
    (start + durationTicks pitFrequency abstime ≤ due + 1 ∧ due ≤ start + durationTicks pitFrequency abstime + 1) ↔
      AtEpoch abstime (tickTime origin start) := by
  have hduration := durationTicks_eq hvalid
  have hearly : due ≤ start + durationTicks pitFrequency abstime + 1 ↔
      abstime.ns ≤ tickTime origin (start + durationTicks pitFrequency abstime + 1) := hdue.le_iff _
  have hlate : start + durationTicks pitFrequency abstime ≤ due + 1 ↔
      durationTicks pitFrequency abstime < 2 ∨
        ¬abstime.ns ≤ tickTime origin (start + durationTicks pitFrequency abstime - 2) := by
    rw [← hdue.le_iff]
    omega
  have hbefore := hdue.2 start hafter
  rw [hearly, hlate]
  unfold AtEpoch tickTime at *
  generalize durationTicks pitFrequency abstime = d, abstime.era = e, abstime.ns = ns at *
  split_ifs at hduration ⊢ <;> omega

theorem onTime_iff (hvalid : abstime.Valid) (hreads : Reads origin now start) :
    OnTime origin abstime now start (start + durationTicks pitFrequency abstime) ↔
      (abstime.ns ≤ now ∧ abstime.Zero) ∨
        (now < abstime.ns ∧ AtEpoch abstime (tickTime origin start)) := by
  unfold OnTime
  rcases le_or_gt abstime.ns now with hpast | hfuture
  · simp only [hpast, not_lt.2 hpast, forall_true_left, false_imp_iff, and_true, false_and, or_false, true_and]
    have hduration := durationTicks_eq hvalid
    by_cases hzero : abstime.Zero
    · rw [if_neg (by tauto)] at hduration
      have hera := hzero.era_eq
      exact ⟨fun _ => hzero, fun _ => by omega⟩
    · refine ⟨fun h => ?_, fun h => absurd h hzero⟩
      split_ifs at hduration <;> omega
  · obtain ⟨due, hdue, hafter⟩ := exists_firstTick hreads hfuture
    have hiff := atEpoch_iff hdue hvalid hafter
    simp only [hfuture, not_le.2 hfuture, forall_true_left, false_imp_iff, true_and, false_and, false_or]
    constructor
    · rintro ⟨due', hdue', hnear⟩
      obtain rfl : due = due' := le_antisymm ((hdue.le_iff due').2 hdue'.1) ((hdue'.le_iff due).2 hdue.1)
      exact hiff.1 hnear
    · intro hepoch
      exact ⟨due, hdue, hiff.2 hepoch⟩

/-! ## The three calls -/

/-- **Timed waits.** A call that has to wait and is not woken reports `ETIMEDOUT` in time exactly if its deadline is not
in the future and is the epoch (or a multiple of `2 ^ 61` seconds away from it), or is in the future and it is the epoch
now, up to rounding. -/
theorem timed_wait_iff (call : TimedCall) (hwaits : call.Waits) (abstime : Timespec) (hvalid : abstime.Valid)
    (origin now : Int) (start : Nat) (hstart : start < 2 ^ 63) (hreads : Reads origin now start) :
    (∃ tick, (∀ passes > 0, call.run pitFrequency passes abstime start = some (etimedout, tick)) ∧
        OnTime origin abstime now start tick) ↔
      (abstime.ns ≤ now ∧ abstime.Zero) ∨
        (now < abstime.ns ∧ AtEpoch abstime (tickTime origin start)) := by
  have hrun := hwaits.run_eq abstime hstart
  rw [← onTime_iff hvalid hreads]
  constructor
  · rintro ⟨tick, hreport, hontime⟩
    have hsame := (hreport 1 Nat.one_pos).symm.trans (hrun 0)
    obtain rfl : tick = start + durationTicks pitFrequency abstime := congrArg Prod.snd (Option.some.inj hsame)
    exact hontime
  · intro hontime
    refine ⟨_, fun passes hpasses => ?_, hontime⟩
    obtain ⟨n, rfl⟩ := Nat.exists_eq_succ_of_ne_zero hpasses.ne'
    exact hrun n

/-- A wait of one second on a semaphore, at the epoch. -/
theorem timed_wait_epoch : Reads 0 0 0 ∧ ∃ tick,
    (∀ passes > 0, (TimedCall.sem 0).run pitFrequency passes ⟨1, 0⟩ 0 = some (etimedout, tick)) ∧
      OnTime 0 ⟨1, 0⟩ 0 0 tick := by
  have hreads : Reads 0 0 0 := ⟨by decide, by decide⟩
  refine ⟨hreads, (timed_wait_iff (.sem 0) rfl ⟨1, 0⟩ ⟨by decide, by decide⟩ 0 0 0 (by decide) hreads).2 (.inr ?_)⟩
  exact ⟨by decide, by decide, by decide⟩

/-- A semaphore is waited for until a second ago: the call does not return at once, but after more than fifty years. -/
theorem timed_wait_fails : Reads (1700000000 * 10 ^ 9) (1700000000 * 10 ^ 9) 0 ∧
    ∃ tick, (TimedCall.sem 0).run pitFrequency 1 ⟨1699999999, 0⟩ 0 = some (etimedout, tick) ∧ tick = 1699999999000 ∧
      ¬OnTime (1700000000 * 10 ^ 9) ⟨1699999999, 0⟩ (1700000000 * 10 ^ 9) 0 tick := by
  have hwaits : (TimedCall.sem 0).Waits := rfl
  have hrun := hwaits.run_eq ⟨1699999999, 0⟩ (Nat.two_pow_pos 63) 0
  refine ⟨⟨by decide, by decide⟩, _, hrun, by decide, fun hontime => ?_⟩
  have hzero := hontime.1 (by decide)
  revert hzero
  decide

end SzpontOS.Libc
