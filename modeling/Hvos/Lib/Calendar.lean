import Mathlib.Tactic.IntervalCases
import Mathlib.Tactic.Linarith

/-!
# Lib/Calendar — counting the days of the Gregorian calendar

The number of a day is defined by counting: the days of the years before, of the months before, and
of the month.  Months counted from March have lengths that follow one formula, so that day numbers
have one, too (`dayNumber_march` and `dayNumber_january`).  Read backwards, the formula finds the
year of a day in its era of 400 years (`eraYear_spec`) and its month (`marchMonth_spec`).
-/

namespace Hvos.Calendar

/-- A leap year. -/
def leap (y : ℕ) : Bool := y % 4 = 0 ∧ (y % 100 ≠ 0 ∨ y % 400 = 0)

/-- The length of a month, from January `1`. -/
def monthDays (y m : ℕ) : ℕ :=
  if m = 2 then (if leap y then 29 else 28) else if m = 4 ∨ m = 6 ∨ m = 9 ∨ m = 11 then 30 else 31

/-- The days of a year before a month. -/
def daysBeforeMonth (y : ℕ) : ℕ → ℕ
  | 0 => 0
  | 1 => 0
  | m + 2 => daysBeforeMonth y (m + 1) + monthDays y (m + 1)

/-- The days before a year, from the year 0. -/
def daysBeforeYear : ℕ → ℕ
  | 0 => 0
  | y + 1 => daysBeforeYear y + daysBeforeMonth y 13

/-- **The number of a day**, from 0 for the first day of the year 0. -/
def dayNumber (y m d : ℕ) : ℕ := daysBeforeYear y + daysBeforeMonth y m + (d - 1)

variable {m y e : ℕ}

theorem daysBeforeMonth_march (y : ℕ) (h3 : 3 ≤ m) (h13 : m ≤ 13) :
    daysBeforeMonth y m = 59 + (if leap y then 1 else 0) + (153 * (m - 3) + 2) / 5 := by
  interval_cases m <;> simp [daysBeforeMonth, monthDays] <;> split_ifs <;> rfl

/-- A year ends on a multiple of its leap cycle, or does not. -/
theorem leap_succ (y : ℕ) : ((y + 1) / 4 + (y + 1) / 400 + y / 100 : ℕ) =
      y / 4 + y / 400 + (y + 1) / 100 + if leap (y + 1) then 1 else 0 := by
  simp only [leap, decide_eq_true_eq]
  split_ifs <;> omega

/-- **The days up to the end of a year.** -/
theorem daysBeforeYear_succ (y : ℕ) :
    daysBeforeYear (y + 1) + y / 100 = 365 * y + y / 4 + y / 400 + 366 := by
  induction y with
  | zero => rfl
  | succ y ih =>
    have hleap := leap_succ y
    rw [daysBeforeYear, daysBeforeMonth_march (y + 1) (by decide) (by decide)]
    linarith

/-- **The number of a day from March on.** -/
theorem dayNumber_march {d : ℕ} (h3 : 3 ≤ m) (h12 : m ≤ 12) (hd : 1 ≤ d) :
    dayNumber y m d + y / 100 =
      d + (153 * (m - 3) + 2) / 5 + 365 * y + y / 4 + y / 400 + 59 := by
  have hyear := daysBeforeYear_succ y
  rw [daysBeforeYear, daysBeforeMonth_march y (by decide) (by decide)] at hyear
  rw [dayNumber, daysBeforeMonth_march y h3 (by omega)]
  omega

/-- **The number of a day in January or February**: these months end the year before. -/
theorem dayNumber_january {d : ℕ} (h1 : 1 ≤ m) (h2 : m ≤ 2) (hd : 1 ≤ d) :
    dayNumber (y + 1) m d + y / 100 =
      d + (153 * (m + 9) + 2) / 5 + 365 * y + y / 4 + y / 400 + 59 := by
  have hyear := daysBeforeYear_succ y
  have hmonth : daysBeforeMonth (y + 1) m = 31 * (m - 1) := by
    interval_cases m <;> rfl
  rw [dayNumber, hmonth]
  omega

/-! ## From the number to the day -/

/-- The days of an era of 400 years, from March, before one of its years. -/
def eraStart (y : ℕ) : ℕ := 365 * y + y / 4 - y / 100

/-- A day of an era without the leap days before it. -/
def commonDays (e : ℕ) : ℕ := e - e / 1460 + e / 36524 - e / 146096

theorem commonDays_mono : Monotone commonDays := by
  refine monotone_nat_of_le_succ fun e => ?_
  simp only [commonDays]
  omega

/-- The first day of a year, and the day before it. -/
theorem commonDays_eraStart : ∀ y < 400, 365 * y ≤ commonDays (eraStart y) ∧
    (0 < y → commonDays (eraStart y - 1) < 365 * y) := by
  decide +kernel

/-- **The year of a day of an era.** -/
theorem eraYear_spec (he : e < 146097) :
    commonDays e / 365 < 400 ∧ eraStart (commonDays e / 365) ≤ e ∧
      (commonDays e / 365 < 399 → e < eraStart (commonDays e / 365 + 1)) := by
  have hlast : commonDays e ≤ commonDays 146096 := commonDays_mono (by omega)
  have hvalue : commonDays 146096 = 145999 := rfl
  have hlt : commonDays e / 365 < 400 := by omega
  refine ⟨hlt, ?_, fun hnext => ?_⟩
  · by_contra hbefore
    have hpos : 0 < commonDays e / 365 := by
      refine Nat.pos_of_ne_zero fun hzero => hbefore ?_
      rw [hzero]
      exact Nat.zero_le e
    have hmono : commonDays e ≤ commonDays (eraStart (commonDays e / 365) - 1) :=
      commonDays_mono (by omega)
    have hstart := (commonDays_eraStart _ hlt).2 hpos
    omega
  · by_contra hafter
    have hmono : commonDays (eraStart (commonDays e / 365 + 1)) ≤ commonDays e :=
      commonDays_mono (not_lt.1 hafter)
    have hstart := (commonDays_eraStart _ (by omega : commonDays e / 365 + 1 < 400)).1
    omega

theorem leap_add (y k : ℕ) : leap (y + k * 400) = leap y := by
  simp only [leap, decide_eq_decide]
  omega

/-- A year from March has the length of the year it ends in. -/
theorem lt_eraLength (he : e < 146097) (hy : y < 400) (hend : y < 399 → e < eraStart (y + 1)) :
    e - eraStart y < 365 + if leap (y + 1) then 1 else 0 := by
  have hquarter : (y + 1) / 4 = y / 4 + if (y + 1) % 4 = 0 then 1 else 0 := by split_ifs <;> omega
  have hcentury : (y + 1) / 100 = y / 100 + if (y + 1) % 100 = 0 then 1 else 0 := by
    split_ifs <;> omega
  simp only [eraStart, leap, decide_eq_true_eq] at *
  rcases Nat.lt_or_ge y 399 with hlt | hge
  · specialize hend hlt
    split_ifs at * <;> omega
  · obtain rfl : y = 399 := by omega
    simp only [Nat.reduceAdd, Nat.reduceMod, Nat.reduceDiv, true_and, if_true, or_true]
    omega

theorem eraDay_lt (he : e < 146097) : e - eraStart (commonDays e / 365) < 366 := by
  have hlength := lt_eraLength he (eraYear_spec he).1 (eraYear_spec he).2.2
  split_ifs at hlength <;> omega

/-- **The month of a day of a year**, both from March. -/
theorem marchMonth_spec {n : ℕ} (hn : n < 366) :
    (5 * n + 2) / 153 < 12 ∧ (153 * ((5 * n + 2) / 153) + 2) / 5 ≤ n ∧
      n < (153 * ((5 * n + 2) / 153 + 1) + 2) / 5 := by
  omega

/-! ## Days and seconds, one after the other -/

/-- **A day of the calendar.** -/
structure Date where
  year : ℕ
  month : ℕ
  day : ℕ
  month_pos : 1 ≤ month
  month_le : month ≤ 12
  day_pos : 1 ≤ day
  day_le : day ≤ monthDays year month

/-- **A second of the calendar.** -/
structure Moment extends Date where
  hour : ℕ
  minute : ℕ
  second : ℕ
  hour_lt : hour < 24
  minute_lt : minute < 60
  second_lt : second < 60

theorem monthDays_bounds (y m : ℕ) : 28 ≤ monthDays y m ∧ monthDays y m ≤ 31 := by
  unfold monthDays
  split_ifs <;> omega

theorem daysBeforeMonth_mono (y : ℕ) : Monotone (daysBeforeMonth y) := by
  refine monotone_nat_of_le_succ fun m => ?_
  cases m with
  | zero => exact le_rfl
  | succ m => exact Nat.le_add_right ..

theorem daysBeforeYear_mono : Monotone daysBeforeYear :=
  monotone_nat_of_le_succ fun _ => Nat.le_add_right ..

/-- Two years differ by one day at most. -/
theorem daysBeforeMonth_le_succ (y y' : ℕ) (h : m ≤ 13) :
    daysBeforeMonth y m ≤ daysBeforeMonth y' m + 1 := by
  rcases Nat.lt_or_ge m 3 with hlt | hge
  · interval_cases m <;> simp [daysBeforeMonth, monthDays]
  · rw [daysBeforeMonth_march y hge h, daysBeforeMonth_march y' hge h]
    split_ifs <;> omega

namespace Date

/-- The number of a day. -/
def number (t : Date) : ℕ := dayNumber t.year t.month t.day

/-- A day is of its year. -/
theorem number_lt (t : Date) : t.number < daysBeforeYear (t.year + 1) := by
  have hpos := t.day_pos
  have hle := t.day_le
  obtain ⟨m, hm⟩ : ∃ m, t.month = m + 1 := ⟨t.month - 1, by have := t.month_pos; omega⟩
  have hmonths : daysBeforeMonth t.year (m + 2) ≤ daysBeforeMonth t.year 13 :=
    daysBeforeMonth_mono t.year (by have := t.month_le; omega)
  simp only [number, dayNumber, daysBeforeYear, hm, daysBeforeMonth] at *
  omega

theorem le_number_of_year_le {t : Date} (h : y ≤ t.year) : dayNumber y 1 1 ≤ t.number := by
  have hyears := daysBeforeYear_mono h
  have hfirst : dayNumber y 1 1 = daysBeforeYear y := rfl
  simp only [number, dayNumber] at *
  omega

theorem le_year_of_le_number {t : Date} (h : dayNumber y 1 1 ≤ t.number) : y ≤ t.year := by
  by_contra hlt
  have hyears : daysBeforeYear (t.year + 1) ≤ dayNumber y 1 1 := daysBeforeYear_mono (not_le.1 hlt)
  exact absurd (hyears.trans h) (not_le.2 t.number_lt)

theorem year_lt_of_number_lt {t : Date} (h : t.number < dayNumber y 1 1) : t.year < y := by
  by_contra hge
  exact absurd (le_number_of_year_le (not_lt.1 hge)) (not_le.2 h)

/-- **The same day of two years** is not one day later. -/
theorem number_ne_succ {t u : Date} (hmonth : t.month = u.month) (hday : t.day = u.day) :
    t.number ≠ u.number + 1 := by
  intro heq
  rcases lt_trichotomy t.year u.year with hlt | hyear | hlt
  · have hyears : daysBeforeYear (t.year + 1) ≤ _ := daysBeforeYear_mono (Nat.succ_le_of_lt hlt)
    have ht := t.number_lt
    have hu : u.number = dayNumber u.year u.month u.day := rfl
    simp only [dayNumber] at hu
    omega
  · simp only [number, hyear, hmonth, hday] at heq
    omega
  · have hyears : daysBeforeYear (u.year + 1) ≤ _ := daysBeforeYear_mono (Nat.succ_le_of_lt hlt)
    have hmonths := daysBeforeMonth_le_succ u.year t.year (u.month_le.trans (by decide))
    have hlength := daysBeforeMonth_march u.year (m := 13) (by decide) le_rfl
    simp only [number, dayNumber, daysBeforeYear, hmonth, hday] at *
    omega

/-- **The next day**: of the month, of the next month, or of the next year. -/
def next (t : Date) : Date :=
  if hday : t.day < monthDays t.year t.month then
    ⟨t.year, t.month, t.day + 1, t.month_pos, t.month_le, Nat.le_add_left .., hday⟩
  else if hmonth : t.month < 12 then
    ⟨t.year, t.month + 1, 1, Nat.le_add_left .., hmonth, le_rfl,
      le_trans (Nat.le_of_ble_eq_true rfl) (monthDays_bounds ..).1⟩
  else
    ⟨t.year + 1, 1, 1, le_rfl, Nat.le_of_ble_eq_true rfl, le_rfl,
      le_trans (Nat.le_of_ble_eq_true rfl) (monthDays_bounds ..).1⟩

/-- **Days are numbered without gaps.** -/
theorem number_next (t : Date) : t.next.number = t.number + 1 := by
  have hpos := t.day_pos
  have hle := t.day_le
  have hfirst := t.month_pos
  unfold next
  split_ifs with hday hmonth
  · simp only [number, dayNumber]
    omega
  · obtain ⟨m, hm⟩ : ∃ m, t.month = m + 1 := ⟨t.month - 1, by omega⟩
    simp only [number, dayNumber, hm, daysBeforeMonth] at *
    omega
  · have hm : t.month = 12 := by have := t.month_le; omega
    simp only [number, dayNumber, hm, daysBeforeYear] at *
    have hlast : daysBeforeMonth t.year 13 = daysBeforeMonth t.year 12 + monthDays t.year 12 := rfl
    have hnew : daysBeforeMonth (t.year + 1) 1 = 0 := rfl
    omega

theorem year_le_next (t : Date) : t.year ≤ t.next.year := by
  unfold next
  split_ifs
  · exact le_rfl
  · exact le_rfl
  · exact Nat.le_succ _

/-- **The date of a day**, from the first of March of the year 0: the era, the year of the era, the
day of that year and its month, all from March. -/
theorem exists_of_march (z : ℕ) {n : ℕ} (hy : y = commonDays (z % 146097) / 365)
    (hn : n = z % 146097 - eraStart y) (hm : m = (5 * n + 2) / 153) :
    ∃ t : Date, t.number = z + 60 ∧ t.day = n - (153 * m + 2) / 5 + 1 ∧
      t.month = (if m < 10 then m + 3 else m - 9) ∧
      t.year = y + z / 146097 * 400 + if m < 10 then 0 else 1 := by
  obtain ⟨hyear, hstart, hend⟩ := eraYear_spec (e := z % 146097) (Nat.mod_lt _ (by decide))
  rw [← hy] at hyear hstart hend
  have hlength : n < 365 + if leap (y + 1 + z / 146097 * 400) then 1 else 0 := by
    rw [leap_add, hn]
    exact lt_eraLength (Nat.mod_lt _ (by decide)) hyear hend
  have hyears : n < 366 := by
    rw [hn, hy]
    exact eraDay_lt (Nat.mod_lt _ (by decide))
  obtain ⟨hmonth, hfirst, hlast⟩ := marchMonth_spec hyears
  rw [← hm] at hmonth hfirst hlast
  have hz : z = 146097 * (z / 146097) + (n + eraStart y) := by omega
  generalize z / 146097 = k at *
  split_ifs with hlate
  · have hdays : n - (153 * m + 2) / 5 + 1 ≤ monthDays (y + k * 400) (m + 3) := by
      simp only [monthDays]
      split_ifs <;> omega
    have hnumber := dayNumber_march (y := y + k * 400) (m := m + 3)
      (d := n - (153 * m + 2) / 5 + 1) (by omega) (by omega) (by omega)
    refine ⟨⟨_, _, _, by omega, by omega, by omega, hdays⟩, ?_, rfl, rfl, rfl⟩
    simp only [number, eraStart, Nat.add_sub_cancel] at hnumber hz ⊢
    omega
  · have hdays : n - (153 * m + 2) / 5 + 1 ≤ monthDays (y + k * 400 + 1) (m - 9) := by
      rw [show y + 1 + k * 400 = y + k * 400 + 1 by omega] at hlength
      simp only [monthDays]
      split_ifs at hlength ⊢ <;> omega
    have hnumber := dayNumber_january (y := y + k * 400) (m := m - 9)
      (d := n - (153 * m + 2) / 5 + 1) (by omega) (by omega) (by omega)
    have hm9 : m - 9 + 9 = m := by omega
    refine ⟨⟨_, _, _, by omega, by omega, by omega, hdays⟩, ?_, rfl, rfl, rfl⟩
    simp only [number, eraStart, hm9] at hnumber hz ⊢
    omega

end Date

namespace Moment

/-- The seconds from the first of the year 0. -/
def seconds (t : Moment) : ℕ := 86400 * t.number + 3600 * t.hour + 60 * t.minute + t.second

/-- **The next second**, with its carries. -/
def next (t : Moment) : Moment :=
  if hsecond : t.second + 1 < 60 then
    ⟨t.toDate, t.hour, t.minute, t.second + 1, t.hour_lt, t.minute_lt, hsecond⟩
  else if hminute : t.minute + 1 < 60 then
    ⟨t.toDate, t.hour, t.minute + 1, 0, t.hour_lt, hminute, Nat.zero_lt_succ _⟩
  else if hhour : t.hour + 1 < 24 then
    ⟨t.toDate, t.hour + 1, 0, 0, hhour, Nat.zero_lt_succ _, Nat.zero_lt_succ _⟩
  else
    ⟨t.toDate.next, 0, 0, 0, Nat.zero_lt_succ _, Nat.zero_lt_succ _, Nat.zero_lt_succ _⟩

/-- **Seconds are counted without gaps.** -/
theorem seconds_next (t : Moment) : t.next.seconds = t.seconds + 1 := by
  have hsecond := t.second_lt
  have hminute := t.minute_lt
  have hhour := t.hour_lt
  have hday := t.toDate.number_next
  unfold next
  split_ifs <;> simp only [seconds] <;> omega

theorem year_le_next (t : Moment) : t.year ≤ t.next.year := by
  unfold next
  split_ifs
  · exact le_rfl
  · exact le_rfl
  · exact le_rfl
  · exact t.toDate.year_le_next

end Moment

end Hvos.Calendar
