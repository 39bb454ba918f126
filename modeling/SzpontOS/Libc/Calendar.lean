import Mathlib.Tactic

/-!
# Dates (`libc/src/time/time.c`, `datetime_to_epoch` of `drivers/rtc.c`)

`gmtime_r` takes whole years and then whole months off the days since 1970; `mktime` and the kernel add up the same
years and months, so one direction undoes the other (`takeWhole_total`). But `mktime` computes the year in an `int`,
which is too short for the last 1900 years that `tm_year` can hold. All else stays far below 2^63 for years that fit.
-/

namespace SzpontOS.Libc

def isLeap (year : Int) : Bool := year % 4 = 0 ∧ (year % 100 ≠ 0 ∨ year % 400 = 0)

def daysInYear (year : Int) : Nat := if isLeap year then 366 else 365

def monthDays (leap : Bool) (month : Nat) : Nat :=
  [31, 28 + leap.toNat, 31, 30, 31, 30, 31, 31, 30, 31, 30, 31].getD month 0

/-- The loops that add up the lengths of `n` years or months from `i` on. -/
def total (len : Nat → Nat) : Nat → Nat → Nat
  | _, 0 => 0
  | i, n + 1 => len i + total len (i + 1) n

/-- The days of the years from 1970 up to `year`. -/
def daysBefore (year : Int) : Nat := total (fun y => daysInYear y) 1970 (year - 1970).toNat

/-- The loops that take whole years or months off the days, with a bound on their turns. -/
def takeWhole (len : Nat → Nat) : Nat → Nat → Nat → Nat × Nat
  | 0, i, days => (i, days)
  | turns + 1, i, days => if days < len i then (i, days) else takeWhole len turns (i + 1) (days - len i)

/-- `struct tm`; the last two fields are only written here. -/
structure Tm where
  sec : Int
  min : Int
  hour : Int
  mday : Int
  mon : Int
  year : BitVec 32
  wday : Nat
  yday : Nat

/-- `gmtime_r` for a time from 0 on. -/
def gmtimeR (t : Nat) : Tm :=
  let days := t / 60 / 60 / 24
  let (year, yday) := takeWhole (fun y => daysInYear y) days 1970 days
  let (month, day) := takeWhole (monthDays (isLeap year)) 12 0 yday
  ⟨(t % 60 : Nat), (t / 60 % 60 : Nat), (t / 60 / 60 % 24 : Nat), day + 1, month, BitVec.ofInt 32 (year - 1900),
    (days + 4) % 7, yday⟩

def mktime (tm : Tm) : Int :=
  let year := (tm.year + 1900).toInt
  let days := (daysBefore year + total (monthDays (isLeap year)) 0 (min tm.mon.toNat 12) : Nat) + (tm.mday - 1)
  ((days * 24 + tm.hour) * 60 + tm.min) * 60 + tm.sec

/-- `rtc_time_t` -/
structure RtcTime where
  second : Nat
  minute : Nat
  hour : Nat
  day : Nat
  month : Nat
  year : Nat

def daysBeforeMonth : List Nat := [0, 31, 59, 90, 120, 151, 181, 212, 243, 273, 304, 334]

def datetimeToEpoch (dt : RtcTime) : Nat :=
  if dt.year < 1970 ∨ dt.month < 1 ∨ dt.month > 12 ∨ dt.day < 1 then 1771718400
  else
    let days := daysBefore dt.year + daysBeforeMonth.getD (dt.month - 1) 0 +
      (if isLeap dt.year ∧ dt.month > 2 then 1 else 0) + (dt.day - 1)
    days * 86400 + dt.hour * 3600 + dt.minute * 60 + dt.second

/-- A day of the calendar from 1970 on, and a time of the day. -/
structure RtcTime.Valid (dt : RtcTime) : Prop where
  year : 1970 ≤ dt.year
  month : 1 ≤ dt.month ∧ dt.month ≤ 12
  day : 1 ≤ dt.day ∧ dt.day ≤ monthDays (isLeap dt.year) (dt.month - 1)
  time : dt.hour < 24 ∧ dt.minute < 60 ∧ dt.second < 60

/-- The broken-down time is that date and time; the weekday is counted from the year 1, which began on a Monday. -/
structure Tm.Shows (tm : Tm) (dt : RtcTime) : Prop where
  time : tm.sec = dt.second ∧ tm.min = dt.minute ∧ tm.hour = dt.hour
  date : tm.mday = dt.day ∧ tm.mon + 1 = dt.month ∧ tm.year.toInt + 1900 = dt.year
  yday : tm.yday + 1 = total (monthDays (isLeap dt.year)) 0 (dt.month - 1) + dt.day
  wday : tm.wday =
    (365 * (dt.year - 1) + (dt.year - 1) / 4 - (dt.year - 1) / 100 + (dt.year - 1) / 400 + tm.yday + 1) % 7

def Tm.InRange (tm : Tm) : Prop :=
  tm.sec ∈ Set.Ico 0 60 ∧ tm.min ∈ Set.Ico 0 60 ∧ tm.hour ∈ Set.Ico 0 24 ∧ tm.mday ∈ Set.Icc 1 31 ∧
    tm.mon ∈ Set.Ico 0 12 ∧ tm.wday < 7 ∧ tm.yday < 366

/-! ## Years and months -/

variable {len : Nat → Nat} {i j n : Nat}

theorem takeWhole_total {turns : Nat} (hj : j < len (i + n)) (hturns : n ≤ turns) :
    takeWhole len turns i (total len i n + j) = (i + n, j) := by
  induction turns generalizing i n with
  | zero =>
    obtain rfl : n = 0 := by omega
    simp [takeWhole, total]
  | succ turns ih =>
    cases n with
    | zero => simp_all [takeWhole, total]
    | succ n =>
      have hi : i + 1 + n = i + (n + 1) := by omega
      have hrest : len i + total len (i + 1) n + j - len i = total len (i + 1) n + j := by omega
      rw [total, takeWhole, if_neg (by omega), hrest, ih (hi ▸ hj) (by omega), hi]

theorem exists_total {d : Nat} (hd : d < total len i n) : ∃ k < n, ∃ j < len (i + k), total len i k + j = d := by
  induction n generalizing i d with
  | zero => simp [total] at hd
  | succ n ih =>
    rw [total] at hd
    by_cases hlt : d < len i
    · exact ⟨0, by omega, d, hlt, by simp [total]⟩
    · obtain ⟨k, hk, j, hj, hsum⟩ := ih (i := i + 1) (d := d - len i) (by omega)
      refine ⟨k + 1, by omega, j, ?_, ?_⟩
      · rwa [show i + (k + 1) = i + 1 + k by omega]
      · rw [total]
        omega

theorem daysInYear_eq (y : Nat) : daysInYear y = 365 + if y % 4 = 0 ∧ (y % 100 ≠ 0 ∨ y % 400 = 0) then 1 else 0 := by
  have hleap : isLeap y = true ↔ y % 4 = 0 ∧ (y % 100 ≠ 0 ∨ y % 400 = 0) := by
    simp only [isLeap, decide_eq_true_eq]
    omega
  rw [daysInYear]
  split_ifs <;> simp_all

theorem total_years (hi : 1 ≤ i) : total (fun y => daysInYear y) i n + (365 * (i - 1) + (i - 1) / 4 + (i - 1) / 400) +
      (i + n - 1) / 100 = 365 * (i + n - 1) + (i + n - 1) / 4 + (i + n - 1) / 400 + (i - 1) / 100 := by
  induction n generalizing i with
  | zero => simp [total]
  | succ n ih =>
    have hrest := ih (i := i + 1) (by omega)
    rw [total, daysInYear_eq, show i + (n + 1) = i + 1 + n by omega]
    split_ifs <;> omega

theorem daysBefore_eq {y : Nat} (hy : 1970 ≤ y) : daysBefore y + 719162 =
    365 * (y - 1) + (y - 1) / 4 - (y - 1) / 100 + (y - 1) / 400 := by
  have htotal := total_years (i := 1970) (n := y - 1970) (by norm_num)
  rw [daysBefore, show ((y : Int) - 1970).toNat = y - 1970 by omega]
  omega

theorem months_spec (year : Int) {m : Nat} (hm : 1 ≤ m ∧ m ≤ 12) :
    total (monthDays (isLeap year)) 0 (m - 1) + monthDays (isLeap year) (m - 1) ≤ daysInYear year ∧
      monthDays (isLeap year) (m - 1) ≤ 31 ∧ daysInYear year ≤ 366 ∧
      daysBeforeMonth.getD (m - 1) 0 + (if isLeap year ∧ m > 2 then 1 else 0) =
        total (monthDays (isLeap year)) 0 (m - 1) := by
  obtain ⟨h1, h12⟩ := hm
  unfold daysInYear
  interval_cases m <;> cases isLeap year <;> decide

/-! ## Dates -/

variable {dt : RtcTime} (h : dt.Valid)

include h

theorem RtcTime.Valid.epoch : datetimeToEpoch dt = (daysBefore dt.year + (total (monthDays (isLeap dt.year)) 0
    (dt.month - 1) + (dt.day - 1))) * 86400 + dt.hour * 3600 + dt.minute * 60 + dt.second := by
  obtain ⟨hyear, hmonth, hday, -⟩ := h
  have hmonths := months_spec dt.year hmonth
  rw [datetimeToEpoch, if_neg (by omega)]
  dsimp only
  omega

theorem RtcTime.Valid.gmtimeR : ∃ yday : Nat, yday + 1 = total (monthDays (isLeap dt.year)) 0 (dt.month - 1) + dt.day ∧
    Libc.gmtimeR (datetimeToEpoch dt) = ⟨dt.second, dt.minute, dt.hour, dt.day, dt.month - 1,
      BitVec.ofInt 32 (dt.year - 1900), (daysBefore dt.year + yday + 4) % 7, yday⟩ := by
  have hepoch := h.epoch
  obtain ⟨hyear, hmonth, hday, htime⟩ := h
  have hmonths := months_spec dt.year hmonth
  have hmany := daysBefore_eq hyear
  generalize hyday : total (monthDays (isLeap dt.year)) 0 (dt.month - 1) + (dt.day - 1) = yday at hepoch
  have hdays : datetimeToEpoch dt / 60 / 60 / 24 = daysBefore dt.year + yday := by omega
  have hn : ((dt.year : Int) - 1970).toNat = dt.year - 1970 := by omega
  have hlast : 1970 + (dt.year - 1970) = dt.year := by omega
  have hyears : takeWhole (fun y => daysInYear y) (daysBefore dt.year + yday) 1970 (daysBefore dt.year + yday) =
      (1970 + (dt.year - 1970), yday) := by
    nth_rewrite 2 [daysBefore]
    rw [hn]
    exact takeWhole_total (by rw [hlast]; omega) (by omega)
  have htaken : takeWhole (monthDays (isLeap dt.year)) 12 0 yday = (0 + (dt.month - 1), dt.day - 1) := by
    rw [← hyday]
    exact takeWhole_total (by rw [Nat.zero_add]; omega) (by omega)
  refine ⟨yday, by omega, ?_⟩
  simp only [Libc.gmtimeR, hdays, hyears, hlast, htaken, Tm.mk.injEq, and_true]
  omega

theorem mktime_iff (hfits : dt.year < 2 ^ 31 + 1900) :
    mktime (gmtimeR (datetimeToEpoch dt)) = datetimeToEpoch dt ↔ dt.year < 2 ^ 31 := by
  obtain ⟨yday, hyday, htm⟩ := h.gmtimeR
  have hepoch := h.epoch
  obtain ⟨hyear, hmonth, hday, htime⟩ := h
  have hmon : min ((dt.month : Int) - 1).toNat 12 = dt.month - 1 := by omega
  have hint : (BitVec.ofInt 32 (dt.year - 1900) + 1900).toInt =
      if dt.year < 2 ^ 31 then (dt.year : Int) else dt.year - 2 ^ 32 := by
    rw [show (1900 : BitVec 32) = BitVec.ofInt 32 1900 from rfl, ← BitVec.ofInt_add, BitVec.toInt_ofInt, Int.bmod]
    split_ifs <;> omega
  rw [htm, mktime]
  simp only [hint, hmon]
  split_ifs with hsmall
  · exact iff_of_true (by omega) hsmall
  · -- no year is added up, and the months have at most 366 days
    have hnone : ((dt.year : Int) - 2 ^ 32 - 1970).toNat = 0 := by omega
    have hmany := daysBefore_eq hyear
    have hold := months_spec (dt.year - 2 ^ 32) hmonth
    rw [daysBefore, hnone, total]
    exact iff_of_false (by omega) hsmall

omit h in
theorem exists_date (t : Nat) : ∃ dt : RtcTime, dt.Valid ∧ datetimeToEpoch dt = t := by
  have hmany := total_years (i := 1970) (n := t / 86400 + 1) (by norm_num)
  have hlt : t / 86400 < total (fun y => daysInYear y) 1970 (t / 86400 + 1) := by omega
  obtain ⟨k, -, j, hj, hd⟩ := exists_total hlt
  have hall : daysInYear (1970 + k : Nat) = total (monthDays (isLeap (1970 + k : Nat))) 0 12 := by
    unfold daysInYear
    cases isLeap (1970 + k : Nat) <;> rfl
  obtain ⟨m, hm, i, hi, hsum⟩ := exists_total (hall ▸ hj)
  rw [Nat.zero_add] at hi
  have hvalid : RtcTime.Valid ⟨t % 60, t / 60 % 60, t / 3600 % 24, i + 1, m + 1, 1970 + k⟩ :=
    ⟨by simp, ⟨by simp, hm⟩, ⟨by simp, hi⟩, by dsimp only; omega⟩
  refine ⟨_, hvalid, ?_⟩
  rw [hvalid.epoch, daysBefore, show ((1970 + k : Nat) - 1970 : Int).toNat = k by omega]
  simp only [Nat.add_sub_cancel, hsum, hd]
  omega

omit h in
/-- **Dates.** Every time is that of a date, and `gmtime_r` shows the date if its year fits `tm_year`. `mktime` gives
the time back exactly up to the year 2^31 - 1. -/
theorem calendar_conversion (t : Nat) {dt : RtcTime} (h : dt.Valid) (hword : dt.year < 2 ^ 32) :
    (∃ d : RtcTime, d.Valid ∧ datetimeToEpoch d = t) ∧ (gmtimeR (datetimeToEpoch dt)).InRange ∧
      ((gmtimeR (datetimeToEpoch dt)).Shows dt ↔ dt.year < 2 ^ 31 + 1900) ∧
      (dt.year < 2 ^ 31 + 1900 →
        (mktime (gmtimeR (datetimeToEpoch dt)) = datetimeToEpoch dt ↔ dt.year < 2 ^ 31)) := by
  refine ⟨exists_date t, ?_, ?_, mktime_iff h⟩
  all_goals
    obtain ⟨yday, hyday, htm⟩ := h.gmtimeR
    obtain ⟨hyear, hmonth, hday, htime⟩ := h
    have hmonths := months_spec dt.year hmonth
    rw [htm]
  · simp only [Tm.InRange, Set.mem_Ico, Set.mem_Icc]
    omega
  · have hmany := daysBefore_eq hyear
    have hint : (BitVec.ofInt 32 (dt.year - 1900)).toInt + 1900 = dt.year ↔ dt.year < 2 ^ 31 + 1900 := by
      rw [BitVec.toInt_ofInt, Int.bmod]
      omega
    rw [← hint]
    refine ⟨fun hshows => hshows.date.2.2, fun hfits => ⟨⟨rfl, rfl, rfl⟩, ⟨rfl, by simp, hfits⟩, hyday, ?_⟩⟩
    dsimp only
    omega

omit h in
/-- The leap day of the year 2000. -/
theorem calendar_conversion_leapDay : (gmtimeR (datetimeToEpoch ⟨0, 0, 0, 29, 2, 2000⟩)).Shows ⟨0, 0, 0, 29, 2, 2000⟩ :=
  (calendar_conversion 0 ⟨by decide, by decide, by decide, by decide⟩ (by decide)).2.2.1.mpr (by decide)

omit h in
/-- The first second of the year 2^31. -/
theorem mktime_overflows : RtcTime.Valid ⟨0, 0, 0, 1, 1, 2 ^ 31⟩ ∧
    mktime (gmtimeR (datetimeToEpoch ⟨0, 0, 0, 1, 1, 2 ^ 31⟩)) ≠ datetimeToEpoch ⟨0, 0, 0, 1, 1, 2 ^ 31⟩ := by
  have hvalid : RtcTime.Valid ⟨0, 0, 0, 1, 1, 2 ^ 31⟩ := ⟨by decide, by decide, by decide, by decide⟩
  exact ⟨hvalid, fun heq => absurd ((mktime_iff hvalid (by decide)).mp heq) (by decide)⟩

end SzpontOS.Libc
