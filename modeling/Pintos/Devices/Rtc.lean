import Mathlib.Data.List.Basic
import Mathlib.Tactic.IntervalCases

/-! The real-time clock conversion of devices/rtc.c: `rtc_get_time` turns the BCD calendar
registers into seconds since the epoch. Beside it, the count it is meant to return in the
proleptic Gregorian calendar; on every valid reading the two differ by four weeks or more. -/
namespace Pintos.Devices

/-- `bcd_to_bin`. -/
def bcdToBin (x : UInt8) : Int := ((x &&& 0x0f).toNat : Int) + ((x >>> 4).toNat : Int) * 10

/-- The six time registers, once two reads of the seconds agree. -/
structure RtcReading where
  sec : UInt8
  min : UInt8
  hour : UInt8
  mday : UInt8
  mon : UInt8
  year : UInt8

/-- `days_per_month`. -/
def daysPerMonth : List Nat := [31, 28, 31, 30, 31, 30, 31, 31, 30, 31, 30, 31]

/-- The first `n` turns of `for (i = 1; i <= mon; i++) time += days_per_month[i - 1] * 24 * 60 *
60;`; `none` where `days_per_month[i - 1]` lies past the table. -/
def addMonths (time : Int) : Nat → Option Int
  | 0 => some time
  | n + 1 => do
    let t ← addMonths time n
    let d ← daysPerMonth[n]?
    return t + (d : Int) * 24 * 60 * 60

/-- `rtc_get_time`, with `time_t` an unsigned 32-bit count; `none` where the month loop reads
past `days_per_month`. The first product is computed in `int`, which overflows from 2039 on;
reduced to 32 bits, as the wrap-around of the target makes it, the result is the same. -/
def rtcGetTime (r : RtcReading) : Option Nat := do
  let sec := bcdToBin r.sec
  let min := bcdToBin r.min
  let hour := bcdToBin r.hour
  let mday := bcdToBin r.mday
  let mon := bcdToBin r.mon
  let year := bcdToBin r.year
  let year := if year < 70 then year + 100 else year
  let year := year - 70
  let time := (year * 365 + Int.tdiv (year - 1) 4) * 24 * 60 * 60
  let time ← addMonths time mon.toNat
  let time := if mon > 2 ∧ Int.tmod year 4 = 0 then time + 24 * 60 * 60 else time
  let time := time + (mday - 1) * 24 * 60 * 60
  let time := time + hour * 60 * 60
  let time := time + min * 60
  let time := time + sec
  return (time % 2 ^ 32).toNat

/-! ### The calendar -/

/-- Leap years of the Gregorian calendar. -/
def isLeapYear (y : Nat) : Bool := y % 4 == 0 && (y % 100 != 0 || y % 400 == 0)

def daysInYear (y : Nat) : Nat := if isLeapYear y then 366 else 365

def daysInMonth (y m : Nat) : Nat :=
  if m = 2 then (if isLeapYear y then 29 else 28)
  else if m = 4 ∨ m = 6 ∨ m = 9 ∨ m = 11 then 30 else 31

/-- Seconds from 1970-01-01 00:00:00 to second S of minute MI of hour H of day D of month M of
year Y. -/
def epochSeconds (y m d h mi s : Nat) : Nat :=
  (((List.range (y - 1970)).map fun k => daysInYear (1970 + k)).sum +
    ((List.range (m - 1)).map fun k => daysInMonth y (k + 1)).sum + (d - 1)) * 86400 +
  h * 3600 + mi * 60 + s

/-- The BCD byte of a number below 100. -/
def toBcd (n : Nat) : UInt8 := UInt8.ofNat (n / 10 * 16 + n % 10)

/-- The year of a two-digit year register, in 1970..2069. -/
def calendarYear (yy : Nat) : Nat := if yy < 70 then 2000 + yy else 1900 + yy

/-! ### What the code computes -/

section Code
variable {yy mm dd hh mi ss n : Nat} {time : Int}

theorem bcdToBin_toBcd (h : n < 100) : bcdToBin (toBcd n) = n := by
  have hall : ∀ k : Fin 100, bcdToBin (toBcd k) = k := by decide
  exact hall ⟨n, h⟩

/-- The total of the first `n` months of `days_per_month`. -/
def monthTotal (n : Nat) : Nat := (daysPerMonth.take n).sum

theorem addMonths_eq (hn : n ≤ 12) :
    addMonths time n = some (time + (monthTotal n : Int) * 24 * 60 * 60) := by
  induction n with
  | zero => simp [addMonths, monthTotal]
  | succ n ih =>
    have hn' : n < daysPerMonth.length := by simp [daysPerMonth]; omega
    rw [addMonths, ih (by omega), List.getElem?_eq_getElem hn']
    simp only [monthTotal, Option.pure_def, Option.bind_eq_bind, Option.bind_some, List.take_add_one,
      List.getElem?_eq_getElem hn', Option.toList_some, List.sum_append, List.sum_singleton]
    congr 1
    push_cast
    omega

theorem tdiv_year (y : Nat) : Int.tdiv ((y : Int) - 1) 4 = ((y - 1) / 4 : Nat) := by
  cases y with
  | zero => decide
  | succ y =>
    rw [Int.tdiv_eq_ediv_of_nonneg (by omega)]
    omega

theorem tmod_year (y : Nat) : Int.tmod (y : Int) 4 = (y % 4 : Nat) := by
  rw [Int.tmod_eq_emod_of_nonneg (by omega)]
  omega

theorem year_eq (hy : yy < 100) :
    (if (yy : Int) < 70 then (yy : Int) + 100 else yy) - 70 = ((calendarYear yy - 1970 : Nat) : Int) := by
  unfold calendarYear
  split_ifs <;> omega

/-- The days `rtc_get_time` counts before day 1 of month M of the year Y after 1970. -/
def codeDays (y m : Nat) : Nat :=
  365 * y + (y - 1) / 4 + monthTotal m + if 2 < m ∧ y % 4 = 0 then 1 else 0

theorem rtcGetTime_bcd (hy : yy < 100) (hm : mm ≤ 12) (hd1 : 1 ≤ dd) (hd : dd < 100)
    (hhr : hh < 100) (hmi : mi < 100) (hs : ss < 100) :
    rtcGetTime ⟨toBcd ss, toBcd mi, toBcd hh, toBcd dd, toBcd mm, toBcd yy⟩ =
      some (((codeDays (calendarYear yy - 1970) mm + (dd - 1)) * 86400 + hh * 3600 + mi * 60 + ss) %
        2 ^ 32) := by
  simp only [rtcGetTime, bcdToBin_toBcd hs, bcdToBin_toBcd hmi, bcdToBin_toBcd hhr,
    bcdToBin_toBcd hd, bcdToBin_toBcd (show mm < 100 by omega), bcdToBin_toBcd hy, year_eq hy,
    tdiv_year, Int.toNat_natCast, addMonths_eq hm, tmod_year, Option.pure_def, Option.bind_eq_bind,
    Option.bind_some]
  congr 1
  unfold codeDays
  split_ifs <;> omega

theorem monthTotal_bounds {m : Nat} (h1 : 1 ≤ m) (h2 : m ≤ 12) :
    monthTotal (m - 1) + 28 ≤ monthTotal m ∧ monthTotal m ≤ monthTotal (m - 1) + 31 ∧
      (2 < m → monthTotal (m - 1) + 30 ≤ monthTotal m) ∧ monthTotal m ≤ 365 := by
  interval_cases m <;> decide

end Code

/-! ### The calendar's count -/

section Calendar
variable {yy mm dd hh mi ss : Nat}

theorem isLeapYear_epoch {k : Nat} (hk : k < 130) : isLeapYear (1970 + k) = ((k + 2) % 4 == 0) := by
  rw [Bool.eq_iff_iff]
  simp only [isLeapYear, Bool.and_eq_true, Bool.or_eq_true, beq_iff_eq, bne_iff_ne, ne_eq]
  omega

theorem sum_daysInYear {y : Nat} (hy : y ≤ 130) :
    ((List.range y).map fun k => daysInYear (1970 + k)).sum = 365 * y + (y + 1) / 4 := by
  induction y with
  | zero => rfl
  | succ y ih =>
    rw [List.range_succ, List.map_append, List.sum_append, ih (by omega)]
    simp only [List.map_cons, List.map_nil, List.sum_cons, List.sum_nil, daysInYear,
      isLeapYear_epoch (show y < 130 by omega)]
    split_ifs with h <;> simp at h <;> omega

/-- The days of the months of year Y before month M: the table's, and February 29 in a leap
year. -/
theorem sum_daysInMonth {y m : Nat} (h1 : 1 ≤ m) (h2 : m ≤ 12) :
    ((List.range (m - 1)).map fun k => daysInMonth y (k + 1)).sum =
      monthTotal (m - 1) + if 2 < m ∧ isLeapYear y then 1 else 0 := by
  interval_cases m <;> cases hl : isLeapYear y <;>
    simp [daysInMonth, hl, monthTotal, daysPerMonth, List.range_succ]

theorem epochSeconds_eq (hy : yy < 100) (h1 : 1 ≤ mm) (h2 : mm ≤ 12) :
    epochSeconds (calendarYear yy) mm dd hh mi ss =
      (365 * (calendarYear yy - 1970) + (calendarYear yy - 1970 + 1) / 4 + monthTotal (mm - 1) +
        (if 2 < mm ∧ (calendarYear yy - 1970) % 4 = 2 then 1 else 0) + (dd - 1)) * 86400 +
      hh * 3600 + mi * 60 + ss := by
  have hy' : calendarYear yy = 1970 + (calendarYear yy - 1970) := by
    unfold calendarYear
    split_ifs <;> omega
  have hlt : calendarYear yy - 1970 < 100 := by
    unfold calendarYear
    split_ifs <;> omega
  have hleap : isLeapYear (calendarYear yy) = ((calendarYear yy - 1970) % 4 == 2) := by
    rw [hy', isLeapYear_epoch (by omega)]
    simp only [Nat.add_sub_cancel_left]
    by_cases h : (calendarYear yy - 1970) % 4 = 2 <;> simp [h] <;> omega
  rw [epochSeconds, sum_daysInYear (by omega), sum_daysInMonth h1 h2, hleap]
  simp only [beq_iff_eq]
  split_ifs <;> omega

end Calendar

/-- `rtc_get_time` is four to five weeks late on every reading of a valid date: it adds the days
of the current month too, counts `(year - 1) / 4` leap days before a year where 1972, 1976, ...
give `(year + 1) / 4`, and adds February 29 in 1970, 1974, ... instead. -/
theorem rtc_get_time_runs_late (yy mm dd hh mi ss : Nat) (hy : yy < 100) (hm1 : 1 ≤ mm)
    (hm2 : mm ≤ 12) (hd1 : 1 ≤ dd) (hd2 : dd ≤ daysInMonth (calendarYear yy) mm) (hhr : hh < 24)
    (hmi : mi < 60) (hs : ss < 60) :
    ∃ t, rtcGetTime ⟨toBcd ss, toBcd mi, toBcd hh, toBcd dd, toBcd mm, toBcd yy⟩ = some t ∧
      epochSeconds (calendarYear yy) mm dd hh mi ss + 27 * 86400 ≤ t ∧
      t ≤ epochSeconds (calendarYear yy) mm dd hh mi ss + 32 * 86400 := by
  have hdm : daysInMonth (calendarYear yy) mm ≤ 31 := by
    unfold daysInMonth
    split_ifs <;> omega
  have hyr : calendarYear yy - 1970 < 100 := by
    unfold calendarYear
    split_ifs <;> omega
  obtain ⟨h28, h31, h30, h365⟩ := monthTotal_bounds hm1 hm2
  refine ⟨_, rtcGetTime_bcd hy hm2 hd1 (by omega) (by omega) (by omega) (by omega), ?_⟩
  rw [epochSeconds_eq hy hm1 hm2]
  unfold codeDays
  rw [Nat.mod_eq_of_lt (b := 2 ^ 32) (by split_ifs <;> omega)]
  constructor <;> split_ifs <;> omega

theorem rtc_get_time_runs_late_sample :
    (70 < 100 ∧ 1 ≤ 1 ∧ 1 ≤ 12 ∧ 1 ≤ 1 ∧ 1 ≤ daysInMonth (calendarYear 70) 1 ∧ 0 < 24 ∧ 0 < 60 ∧
      0 < 60) ∧
    ∃ t, rtcGetTime ⟨toBcd 0, toBcd 0, toBcd 0, toBcd 1, toBcd 1, toBcd 70⟩ = some t ∧
      epochSeconds (calendarYear 70) 1 1 0 0 0 + 27 * 86400 ≤ t ∧
      t ≤ epochSeconds (calendarYear 70) 1 1 0 0 0 + 32 * 86400 :=
  ⟨by decide, rtc_get_time_runs_late 70 1 1 0 0 0 (by decide) (by decide) (by decide) (by decide)
    (by decide) (by decide) (by decide) (by decide)⟩

/-- Midnight of 1970-01-01 is second 0; `rtc_get_time` returns the 31 days of January. -/
example : rtcGetTime ⟨toBcd 0, toBcd 0, toBcd 0, toBcd 1, toBcd 1, toBcd 70⟩ = some 2678400 ∧
    epochSeconds (calendarYear 70) 1 1 0 0 0 = 0 := by decide

end Pintos.Devices
