import Hvos.Lib.Calendar

/-!
# Machine/Rtc — the clock, and the time a process is told

`current_datetime` is filled from the clock's registers, which have no century; only
`datetime_to_str` sets one, to 21.  `dttots` counts from the century it finds, and one day too many,
so that `sys_time` never stores the right time (`stored_right_iff`).
-/

namespace Hvos.Machine

open Calendar

/-! ## The clock -/

/-- **A clock that shows a date of the years 2000 to 2099**, in binary or decimal digits, with hours
up to 23. -/
structure Clock where
  year : ℕ
  month : ℕ
  day : ℕ
  hour : ℕ
  minute : ℕ
  second : ℕ
  regB : UInt8
  year_lt : year < 100
  month_pos : 1 ≤ month
  month_le : month ≤ 12
  day_pos : 1 ≤ day
  day_le : day ≤ monthDays (2000 + year) month
  hour_lt : hour < 24
  minute_lt : minute < 60
  second_lt : second < 60
  hours24 : regB &&& 2 ≠ 0

namespace Clock

/-- Two decimal digits in a byte. -/
def bcd (v : ℕ) : UInt8 := UInt8.ofNat (v / 10 * 16 + v % 10)

/-- A number as the clock shows it. -/
def shown (c : Clock) (v : ℕ) : UInt8 := if c.regB &&& 4 = 0 then bcd v else UInt8.ofNat v

/-- `get_rtc_reg`. -/
def getRtcReg (c : Clock) : ℕ → UInt8
  | 0x00 => c.shown c.second
  | 0x02 => c.shown c.minute
  | 0x04 => c.shown c.hour
  | 0x07 => c.shown c.day
  | 0x08 => c.shown c.month
  | 0x09 => c.shown c.year
  | 0x0B => c.regB
  | _ => 0

/-- The days from 1970-01-01. -/
def days (c : Clock) : ℕ := dayNumber (2000 + c.year) c.month c.day - dayNumber 1970 1 1

/-- **The seconds from 1970-01-01 00:00:00.** -/
def seconds (c : Clock) : ℕ := 86400 * c.days + 3600 * c.hour + 60 * c.minute + c.second

end Clock

/-! ## `rtc.c` -/

/-- `datetime_t`. -/
structure Datetime where
  century : UInt8
  year : UInt8
  month : UInt8
  day : UInt8
  hour : UInt8
  minute : UInt8
  second : UInt8

/-- Two decimal digits read back. -/
def ofBcd (x : UInt8) : UInt8 := (x &&& 0x0F) + x / 16 * 10

/-- `rtc_read_datetime`, at a moment when the clock is not updating. -/
def rtcReadDatetime (c : Clock) (dt : Datetime) : Datetime :=
  let dt := { dt with
    second := c.getRtcReg 0x00
    minute := c.getRtcReg 0x02
    hour := c.getRtcReg 0x04
    day := c.getRtcReg 0x07
    month := c.getRtcReg 0x08
    year := c.getRtcReg 0x09 }
  let regB := c.getRtcReg 0x0B
  if regB &&& 0x04 = 0 then
    { dt with
      second := ofBcd dt.second
      minute := ofBcd dt.minute
      hour := ((dt.hour &&& 0x0F) + (dt.hour &&& 0x70) / 16 * 10) ||| (dt.hour &&& 0x80)
      day := ofBcd dt.day
      month := ofBcd dt.month
      year := ofBcd dt.year }
  else dt

/-- `is_leap_year`. -/
def isLeapYear (year month : ℕ) : ℕ := if year % 4 = 0 ∧ (month = 1 ∨ month = 2) then 1 else 0

/-- `month_code_array`. -/
def monthCodeArray : List ℕ := [0, 3, 3, 6, 1, 4, 6, 2, 5, 0, 3, 5]

/-- `century_code_array`. -/
def centuryCodeArray : List ℕ := [4, 2, 0, 6, 4, 2, 0]

/-- `weekday_map`. -/
def weekdayMap : List String := ["Sun", "Mon", "Tue", "Wed", "Thu", "Fri", "Sat"]

/-- `get_weekday_from_date`: the weekday, and the date with its century set. -/
def getWeekdayFromDate (dt : Datetime) : ℤ × Datetime :=
  let dt := { dt with century := 21 }
  let yearCode := (dt.year.toNat + dt.year.toNat / 4) % 7
  let monthCode := monthCodeArray.getD (dt.month.toNat - 1) 0
  let centuryCode := centuryCodeArray.getD (dt.century.toNat - 1 - 17) 0
  let leapYearCode := isLeapYear dt.year.toNat dt.month.toNat
  (((yearCode + monthCode + centuryCode + dt.day.toNat : ℕ) - leapYearCode : ℤ).tmod 7, dt)

/-- `%02d`. -/
def twoDigits (n : ℕ) : String := if n < 10 then "0" ++ toString n else toString n

/-- `datetime_to_str`: the text, and the date with its century set. -/
def datetimeToStr (dt : Datetime) : String × Datetime :=
  let (weekday, dt) := getWeekdayFromDate dt
  (weekdayMap.getD weekday.toNat "" ++ " " ++ twoDigits dt.day.toNat ++ "." ++
    twoDigits dt.month.toNat ++ "." ++ twoDigits dt.year.toNat ++ " " ++
    twoDigits ((dt.hour.toNat + 2) % 24) ++ ":" ++ twoDigits dt.minute.toNat ++ ":" ++
    twoDigits dt.second.toNat, dt)

/-- `epoch_days` of `dttots`. -/
def epochDays (dt : Datetime) : ℤ :=
  let fullYear : ℤ := dt.century.toNat * 100 + dt.year.toNat
  let month : ℤ := dt.month.toNat
  let day : ℤ := dt.day.toNat
  let early := month ≤ 2
  let fullYear := if early then fullYear - 1 else fullYear
  let month := (if early then month + 12 else month) - 3
  let daysSinceZero := day + (153 * month + 2).tdiv 5 + 365 * fullYear + fullYear.tdiv 4 -
    fullYear.tdiv 100 + fullYear.tdiv 400
  daysSinceZero - 719468

/-- `dttots`, in unsigned 64-bit numbers. -/
def dttots (dt : Datetime) : ℕ :=
  ((epochDays dt * 86400 + dt.hour.toNat * 3600 + dt.minute.toNat * 60 + dt.second.toNat) %
    2 ^ 64).toNat

/-! ## The calls -/

/-- The calls that read or change the date. -/
inductive TimeCall
  | now
  | datetimeToStrNow
  | getCurrentDatetimeStr
  | sysTime
  deriving DecidableEq

/-- `current_datetime`, and each value `sys_time` has stored, with the clock of that moment. -/
structure TimeState where
  currentDatetime : Datetime
  stored : List (Clock × ℕ)

/-- `now`. -/
def TimeState.now (c : Clock) (s : TimeState) : TimeState :=
  { s with currentDatetime := rtcReadDatetime c s.currentDatetime }

/-- `get_current_datetime_str`: the text, and the state with the date's century set. -/
def TimeState.getCurrentDatetimeStr (s : TimeState) : String × TimeState :=
  let (text, dt) := datetimeToStr s.currentDatetime
  (text, { s with currentDatetime := dt })

/-- `sys_time`. -/
def TimeState.sysTime (c : Clock) (s : TimeState) : TimeState :=
  let s := s.now c
  { s with stored := s.stored ++ [(c, dttots s.currentDatetime)] }

/-- One call, with the clock it finds. -/
def TimeState.perform (s : TimeState) : TimeCall × Clock → TimeState
  | (.now, c) => s.now c
  | (.datetimeToStrNow, c) => (s.now c).getCurrentDatetimeStr.2
  | (.getCurrentDatetimeStr, _) => s.getCurrentDatetimeStr.2
  | (.sysTime, c) => s.sysTime c

/-- After `init_rtc`. -/
def TimeState.initRtc (c : Clock) : TimeState := .now c ⟨⟨0, 0, 0, 0, 0, 0, 0⟩, []⟩

/-- After `init_rtc` and then the calls `cs`. -/
def timeRun (c : Clock) (cs : List (TimeCall × Clock)) : TimeState :=
  cs.foldl TimeState.perform (.initRtc c)

/-! ## What is read -/

theorem ofBcd_bcd : ∀ v < 100, ofBcd (Clock.bcd v) = UInt8.ofNat v := by decide

theorem hour_bcd : ∀ v < 24, ((Clock.bcd v &&& 0x0F) + (Clock.bcd v &&& 0x70) / 16 * 10) |||
    (Clock.bcd v &&& 0x80) = UInt8.ofNat v := by decide

/-- `dt` is the date and time the clock shows, of any century. -/
structure Shows (c : Clock) (dt : Datetime) : Prop where
  year : dt.year.toNat = c.year
  month : dt.month.toNat = c.month
  day : dt.day.toNat = c.day
  hour : dt.hour.toNat = c.hour
  minute : dt.minute.toNat = c.minute
  second : dt.second.toNat = c.second

section Read

variable {c : Clock} {dt : Datetime}

theorem Clock.day_lt (c : Clock) : c.day < 32 := by
  have hle := c.day_le
  unfold monthDays at hle
  split_ifs at hle <;> omega

/-- **What is read is what the clock shows**, and the century stays. -/
theorem rtcReadDatetime_eq (c : Clock) (dt : Datetime) : rtcReadDatetime c dt =
    ⟨dt.century, .ofNat c.year, .ofNat c.month, .ofNat c.day, .ofNat c.hour, .ofNat c.minute,
      .ofNat c.second⟩ := by
  have hday := c.day_lt
  have hyear := c.year_lt
  have hmonth := c.month_le
  have hminute := c.minute_lt
  have hsecond := c.second_lt
  unfold rtcReadDatetime
  simp only [Clock.getRtcReg, Clock.shown]
  split_ifs
  · simp only [hour_bcd _ c.hour_lt, ofBcd_bcd _ hyear, ofBcd_bcd c.day (by omega),
      ofBcd_bcd c.month (by omega), ofBcd_bcd c.minute (by omega), ofBcd_bcd c.second (by omega)]
  · rfl

theorem shows_rtcReadDatetime (c : Clock) (dt : Datetime) : Shows c (rtcReadDatetime c dt) := by
  have hbyte : ∀ {n : ℕ}, n < 256 → (UInt8.ofNat n).toNat = n := fun h => by
    rw [UInt8.toNat_ofNat', Nat.mod_eq_of_lt h]
  have hday := c.day_lt
  have hyear := c.year_lt
  have hmonth := c.month_le
  have hhour := c.hour_lt
  have hminute := c.minute_lt
  have hsecond := c.second_lt
  rw [rtcReadDatetime_eq]
  exact ⟨hbyte (by omega), hbyte (by omega), hbyte (by omega), hbyte (by omega), hbyte (by omega),
    hbyte (by omega)⟩

@[simp] theorem rtcReadDatetime_century (c : Clock) (dt : Datetime) :
    (rtcReadDatetime c dt).century = dt.century := by
  rw [rtcReadDatetime_eq]

/-! ## The day of `dttots` -/

theorem dayNumber_epoch : dayNumber 1970 1 1 = 719528 := by
  have h := dayNumber_january (y := 1969) (m := 1) (d := 1) le_rfl (by decide) le_rfl
  rw [show 1969 + 1 = 1970 from rfl] at h
  omega

/-- **The day of `dttots`** for a date of the year `y`: one day after the right one. -/
theorem epochDays_eq {y m d : ℕ} (hy : dt.century.toNat * 100 + dt.year.toNat = y)
    (hm : dt.month.toNat = m) (hd : dt.day.toNat = d) (h1 : 1 ≤ m) (h12 : m ≤ 12) (hpos : 1 ≤ d)
    (h0 : m ≤ 2 → y ≠ 0) : epochDays dt = (dayNumber y m d : ℤ) - 719527 := by
  simp only [epochDays, hm, hd]
  rcases le_or_gt m 2 with h2 | h3
  · obtain ⟨z, rfl⟩ : ∃ z, y = z + 1 := ⟨y - 1, by have := h0 h2; omega⟩
    have hnumber := dayNumber_january (y := z) h1 h2 hpos
    have hearly : (m : ℤ) ≤ 2 := by omega
    have hz : (dt.century.toNat : ℤ) * 100 + dt.year.toNat - 1 = z := by omega
    simp only [hearly, if_true, hz]
    repeat rw [Int.tdiv_eq_ediv_of_nonneg (by omega)]
    omega
  · have hnumber := dayNumber_march (y := y) h3 h12 hpos
    have hlate : ¬(m : ℤ) ≤ 2 := by omega
    have hz : (dt.century.toNat : ℤ) * 100 + dt.year.toNat = y := by omega
    simp only [hlate, if_false, hz]
    repeat rw [Int.tdiv_eq_ediv_of_nonneg (by omega)]
    omega

theorem Shows.epochDays_eq (h : Shows c dt) {y : ℕ} (hy : dt.century.toNat * 100 + c.year = y)
    (h0 : c.month ≤ 2 → y ≠ 0) : epochDays dt = (dayNumber y c.month c.day : ℤ) - 719527 := by
  rw [← h.year] at hy
  exact Machine.epochDays_eq hy h.month h.day c.month_pos c.month_le c.day_pos h0

/-- In the first two months of the year 0, `full_year` is -1, and divides to 0. -/
theorem Shows.epochDays_year_zero (h : Shows c dt) (h2 : c.month ≤ 2)
    (hy : dt.century.toNat * 100 + c.year = 0) :
    epochDays dt = (c.day : ℤ) + (153 * (c.month + 9) + 2) / 5 - 365 - 719468 := by
  have hearly : (c.month : ℤ) ≤ 2 := by omega
  have hz : (dt.century.toNat : ℤ) * 100 + c.year - 1 = -1 := by omega
  simp only [epochDays, h.year, h.month, h.day, hearly, if_true, hz]
  rw [Int.tdiv_eq_ediv_of_nonneg (by omega), show Int.tdiv (-1) 4 = 0 from rfl,
    show Int.tdiv (-1) 100 = 0 from rfl, show Int.tdiv (-1) 400 = 0 from rfl]
  omega

/-- The days of a year have numbers near 365 times the year. -/
theorem Clock.dayNumber_bounds (c : Clock) {y : ℕ} (h0 : c.month ≤ 2 → y ≠ 0) :
    365 * y ≤ dayNumber y c.month c.day ∧ dayNumber y c.month c.day ≤ 366 * y + 430 := by
  have hday := c.day_lt
  have hmonth := c.month_le
  have hpos := c.month_pos
  rcases le_or_gt c.month 2 with h2 | h3
  · obtain ⟨z, rfl⟩ : ∃ z, y = z + 1 := ⟨y - 1, by have := h0 h2; omega⟩
    have hnumber := dayNumber_january (y := z) hpos h2 c.day_pos
    omega
  · have hnumber := dayNumber_march (y := y) h3 hmonth c.day_pos
    omega

/-- The right day, between 2000 and 2099. -/
theorem Clock.days_eq (c : Clock) :
    (c.days : ℤ) = dayNumber (2000 + c.year) c.month c.day - 719528 ∧
      10000 < c.days ∧ c.days < 50000 := by
  have hyear := c.year_lt
  have hnumber := c.dayNumber_bounds (y := 2000 + c.year) (by omega)
  rw [Clock.days, dayNumber_epoch]
  omega

/-- **The day of `dttots` is never right**, with either century. -/
theorem Shows.epochDays_ne (h : Shows c dt) (hcentury : dt.century = 0 ∨ dt.century = 21) :
    epochDays dt ≠ c.days ∧ -2 ^ 40 < epochDays dt ∧ epochDays dt < 2 ^ 40 := by
  have hyear := c.year_lt
  have hdays := c.days_eq
  rcases hcentury with hc | hc
  · have hzero : dt.century.toNat = 0 := by rw [hc]; rfl
    by_cases hz : c.month ≤ 2 ∧ c.year = 0
    · have hday := c.day_lt
      rw [h.epochDays_year_zero hz.1 (by omega)]
      omega
    · have hnumber := c.dayNumber_bounds (y := c.year) (by omega)
      rw [h.epochDays_eq (y := c.year) (by omega) (by omega)]
      omega
  · have hlast : dt.century.toNat = 21 := by rw [hc]; rfl
    have htrue := c.dayNumber_bounds (y := 2000 + c.year) (by omega)
    have hnumber := c.dayNumber_bounds (y := 2100 + c.year) (by omega)
    rw [h.epochDays_eq (y := 2100 + c.year) (by omega) (by omega)]
    omega

/-- Small numbers are not changed by 64 bits. -/
theorem toNat_emod_eq_iff {x : ℤ} {n : ℕ} (hx : -2 ^ 62 < x) (hx' : x < 2 ^ 62) (hn : n < 2 ^ 62) :
    (x % 2 ^ 64).toNat = n ↔ x = n := by
  omega

/-- **`dttots` is right exactly if its day is.** -/
theorem Shows.dttots_eq_iff (h : Shows c dt) (hlow : -2 ^ 40 < epochDays dt)
    (hhigh : epochDays dt < 2 ^ 40) : dttots dt = c.seconds ↔ epochDays dt = c.days := by
  have hdays := c.days_eq.2
  have hhour := c.hour_lt
  have hminute := c.minute_lt
  have hsecond := c.second_lt
  rw [dttots, Clock.seconds, h.hour, h.minute, h.second,
    toNat_emod_eq_iff (by omega) (by omega) (by omega)]
  omega

end Read

/-! ## Every run of calls -/

/-- The centuries there can be, and what has been stored. -/
structure TimeState.Wrong (s : TimeState) : Prop where
  century : s.currentDatetime.century = 0 ∨ s.currentDatetime.century = 21
  stored : ∀ e ∈ s.stored, e.2 ≠ e.1.seconds

section Calls

variable {s : TimeState} {cs : List (TimeCall × Clock)}

/-- **Every call keeps the century wrong, and the stored values with it.** -/
theorem TimeState.Wrong.perform (h : s.Wrong) (e : TimeCall × Clock) : (s.perform e).Wrong := by
  obtain ⟨call, c⟩ := e
  cases call with
  | now => exact ⟨by simpa [TimeState.perform, TimeState.now] using h.century, h.stored⟩
  | datetimeToStrNow => exact ⟨.inr rfl, h.stored⟩
  | getCurrentDatetimeStr => exact ⟨.inr rfl, h.stored⟩
  | sysTime =>
    have hcentury := h.century
    rw [← rtcReadDatetime_century c] at hcentury
    have hshows := shows_rtcReadDatetime c s.currentDatetime
    obtain ⟨hne, hlow, hhigh⟩ := hshows.epochDays_ne hcentury
    refine ⟨hcentury, List.forall_mem_append.2 ⟨h.stored, List.forall_mem_singleton.2 ?_⟩⟩
    exact fun heq => hne ((hshows.dttots_eq_iff hlow hhigh).1 heq)

theorem TimeState.Wrong.foldl (h : s.Wrong) (cs : List (TimeCall × Clock)) :
    (cs.foldl TimeState.perform s).Wrong := by
  induction cs generalizing s with
  | nil => exact h
  | cons e cs ih => exact ih (h.perform e)

/-- `sys_time` stores something, and nothing else does. -/
theorem stored_foldl : (cs.foldl TimeState.perform s).stored = [] ↔
    s.stored = [] ∧ ∀ e ∈ cs, e.1 ≠ .sysTime := by
  induction cs generalizing s with
  | nil => simp
  | cons e cs ih =>
    obtain ⟨call, c⟩ := e
    rw [List.foldl_cons, ih, List.forall_mem_cons]
    cases call <;> simp [TimeState.perform, TimeState.sysTime, TimeState.now,
      TimeState.getCurrentDatetimeStr]

/-- **The times stored are right exactly if none is stored.** -/
theorem stored_right_iff (c : Clock) (cs : List (TimeCall × Clock)) :
    (∀ e ∈ (timeRun c cs).stored, e.2 = e.1.seconds) ↔ ∀ e ∈ cs, e.1 ≠ .sysTime := by
  have hinit : (TimeState.initRtc c).Wrong :=
    ⟨.inl (by simp [TimeState.initRtc, TimeState.now]), by simp [TimeState.initRtc, TimeState.now]⟩
  have hwrong := (hinit.foldl cs).stored
  have hnil : (timeRun c cs).stored = [] ↔ _ := stored_foldl
  constructor
  · intro h
    refine (hnil.1 (List.eq_nil_iff_forall_not_mem.2 fun e he => hwrong e he (h e he))).2
  · intro h e he
    rw [hnil.2 ⟨rfl, h⟩] at he
    cases he

end Calls

/-- A clock at 2000-01-01 00:00:00. -/
def millennium : Clock where
  year := 0
  month := 1
  day := 1
  hour := 0
  minute := 0
  second := 0
  regB := 2
  year_lt := by decide
  month_pos := by decide
  month_le := by decide
  day_pos := by decide
  day_le := by decide
  hour_lt := by decide
  minute_lt := by decide
  second_lt := by decide
  hours24 := by decide

/-- **The first call of `sys_time`** finds no century, and stores a day of the year 0. -/
theorem millennium_stored :
    (timeRun millennium [(.sysTime, millennium)]).stored = [(millennium, 18446744011542505216)] ∧
      millennium.seconds = 946684800 := by
  refine ⟨rfl, ?_⟩
  have h := dayNumber_january (y := 1999) (m := 1) (d := 1) le_rfl (by decide) le_rfl
  have hdays := millennium.days_eq.1
  rw [show 1999 + 1 = 2000 + millennium.year from rfl] at h
  rw [show millennium.month = 1 from rfl, show millennium.day = 1 from rfl] at hdays
  simp only [Clock.seconds, millennium] at *
  omega

end Hvos.Machine
