import Mathlib.Logic.Basic

/-!
# Crusadia.Drivers.Rtc

`rtc_get_datetime` (`rtc.c`): the registers of the clock, as binary numbers or in BCD, the hour of
24 or of 12 with the PM bit. The time zone is added to the hour register as it was read, and no
date is carried, so the result is the local time in part of the cases only
(`rtcGetDatetime_local_iff`).
-/

namespace Crusadia.Drivers.Rtc

/-! ### The calendar -/

def isLeap (y : Nat) : Bool := y % 4 = 0 ∧ (y % 100 ≠ 0 ∨ y % 400 = 0)

/-- The days of the months 1 to 12. -/
def monthDays (y m : Nat) : Nat :=
  if m = 2 then (if isLeap y then 29 else 28) else if m = 4 ∨ m = 6 ∨ m = 9 ∨ m = 11 then 30 else 31

/-- What `rtc_get_datetime` returns through its pointers. -/
structure DateTime where
  year : Nat
  month : Nat
  day : Nat
  hour : Nat
  min : Nat
  sec : Nat
  deriving DecidableEq

namespace DateTime

structure Valid (t : DateTime) : Prop where
  month : 1 ≤ t.month ∧ t.month ≤ 12
  day : 1 ≤ t.day ∧ t.day ≤ monthDays t.year t.month
  hour : t.hour < 24
  min : t.min < 60
  sec : t.sec < 60

def nextDay (t : DateTime) : DateTime :=
  if t.day < monthDays t.year t.month then { t with day := t.day + 1 }
  else if t.month < 12 then { t with month := t.month + 1, day := 1 }
  else { t with year := t.year + 1, month := 1, day := 1 }

/-- Up to 24 hours later. -/
def addHours (t : DateTime) (h : Nat) : DateTime :=
  if t.hour + h < 24 then { t with hour := t.hour + h }
  else { t with hour := t.hour + h - 24 }.nextDay

end DateTime

/-! ### The clock -/

/-- What `rtc_read` returns for the registers, `statusB` for register `0x0B`. -/
structure RtcRegs where
  sec : Nat
  min : Nat
  hour : Nat
  day : Nat
  month : Nat
  year : Nat
  statusB : Nat

/-- `bcd_to_bin`. -/
def bcdToBin (val : Nat) : Nat := (val &&& 0x0F) + (val >>> 4) * 10

/-- A number register of `rtc_get_datetime`. -/
def decode (statusB val : Nat) : Nat := if statusB &&& 0x04 = 0 then bcdToBin val else val

/-- The hour register of `rtc_get_datetime`, read as `val`. -/
def decodeHour (statusB val timezone : Nat) : Nat :=
  let hour := val + timezone
  let hour := if statusB &&& 0x04 = 0 then bcdToBin (hour &&& 0x7F) else hour
  let hour := if statusB &&& 0x02 = 0 ∧ hour &&& 0x80 ≠ 0 then ((hour &&& 0x7F) + 12) % 24 else hour
  if 24 ≤ hour then hour - 24 else hour

/-- `rtc_get_datetime`, when the clock is no longer updating. -/
def rtcGetDatetime (r : RtcRegs) (timezone : Nat) : DateTime :=
  ⟨decode r.statusB r.year + 2000, decode r.statusB r.month, decode r.statusB r.day,
    decodeHour r.statusB r.hour timezone, decode r.statusB r.min, decode r.statusB r.sec⟩

/-! ### What the registers mean -/

/-- How the clock encodes numbers and hours. -/
structure Encoding where
  bcd : Bool
  hours24 : Bool

namespace Encoding

variable (e : Encoding)

def number (v : Nat) : Nat := if e.bcd then v / 10 * 16 + v % 10 else v

def hour (h : Nat) : Nat :=
  if e.hours24 then e.number h
  else e.number (if h % 12 = 0 then 12 else h % 12) + if h < 12 then 0 else 0x80

def statusB : Nat := (if e.bcd then 0 else 0x04) + if e.hours24 then 0x02 else 0

/-- The registers at a time in the years from 2000 on. -/
def regs (t : DateTime) : RtcRegs :=
  ⟨e.number t.sec, e.number t.min, e.hour t.hour, e.number t.day, e.number t.month,
    e.number (t.year - 2000), e.statusB⟩

/-- The hours whose register survives the addition: no carry out of a BCD digit, no PM bit in BCD,
no 12 that stands for 0. -/
def plain (h timezone : Nat) : Bool :=
  match e.bcd, e.hours24 with
  | false, true => true
  | true, true => h % 10 + timezone < 16
  | false, false => h % 12 ≠ 0
  | true, false => (1 ≤ h ∧ h ≤ 11 ∧ h % 10 + timezone < 16) ∨ h = 12

variable {e}

theorem decode_number {v : Nat} (hv : v < 100) : decode e.statusB (e.number v) = v := by
  obtain ⟨b, h⟩ := e
  revert v
  cases b <;> cases h <;> decide +kernel

theorem decodeHour_iff : ∀ h, h < 24 → ∀ z, z < 13 → h + z < 24 →
    (decodeHour e.statusB (e.hour h) z = h + z ↔ e.plain h z = true) := by
  obtain ⟨b, d⟩ := e
  cases b <;> cases d <;> decide +kernel

end Encoding

theorem monthDays_le (y m : Nat) : monthDays y m ≤ 31 := by
  unfold monthDays
  split
  · split <;> decide
  · split <;> decide

theorem DateTime.nextDay_date_ne (t : DateTime) :
    ¬ (t.nextDay.year = t.year ∧ t.nextDay.month = t.month ∧ t.nextDay.day = t.day) := by
  unfold nextDay
  grind

/-- The result is the time of the clock so many hours later just when the sum stays in the day
and the register survives it. -/
theorem rtcGetDatetime_local_iff (e : Encoding) {t : DateTime} (ht : t.Valid)
    (hy : 2000 ≤ t.year ∧ t.year < 2100) {timezone : Nat} (hz : timezone ≤ 12) :
    rtcGetDatetime (e.regs t) timezone = t.addHours timezone ↔
      t.hour + timezone < 24 ∧ e.plain t.hour timezone = true := by
  have hmonth := monthDays_le t.year t.month
  have hdec : rtcGetDatetime (e.regs t) timezone =
      { t with hour := decodeHour e.statusB (e.hour t.hour) timezone } := by
    obtain ⟨hm, hd, hh, hmin, hsec⟩ := ht
    simp only [rtcGetDatetime, Encoding.regs]
    rw [Encoding.decode_number (by omega), Encoding.decode_number (by omega),
      Encoding.decode_number (by omega), Encoding.decode_number (by omega),
      Encoding.decode_number (by omega), Nat.sub_add_cancel hy.1]
  rw [hdec, DateTime.addHours]
  split
  · rename_i hlt
    rw [← Encoding.decodeHour_iff _ ht.hour _ (by omega) hlt, and_iff_right hlt]
    simp
  · refine iff_of_false (fun h => ?_) fun h => absurd h.1 ‹_›
    have := DateTime.nextDay_date_ne { t with hour := t.hour + timezone - 24 }
    rw [← h] at this
    exact this ⟨rfl, rfl, rfl⟩

theorem rtcGetDatetime_local_iff_noon : (⟨2024, 2, 29, 12, 0, 0⟩ : DateTime).Valid ∧
    rtcGetDatetime (Encoding.regs ⟨true, false⟩ ⟨2024, 2, 29, 12, 0, 0⟩) 2 =
      ⟨2024, 2, 29, 14, 0, 0⟩ := by
  have hv : (⟨2024, 2, 29, 12, 0, 0⟩ : DateTime).Valid := by constructor <;> decide
  exact ⟨hv, (rtcGetDatetime_local_iff _ hv (by decide) (by decide)).mpr (by decide)⟩

/-- 09:00 in BCD and seven hours are not 10:00. -/
theorem rtcGetDatetime_not_local :
    let t : DateTime := ⟨2024, 2, 29, 9, 0, 0⟩
    t.Valid ∧ rtcGetDatetime (Encoding.regs ⟨true, true⟩ t) 7 = ⟨2024, 2, 29, 10, 0, 0⟩ ∧
      t.addHours 7 = ⟨2024, 2, 29, 16, 0, 0⟩ :=
  ⟨by constructor <;> decide, by decide, by decide⟩

end Crusadia.Drivers.Rtc
