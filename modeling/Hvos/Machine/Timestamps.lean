import Hvos.Machine.Rtc

/-!
# Machine/Timestamps — from a timestamp to a date and back

`tstodt` finds the date of a timestamp, of every year a `datetime_t` has room for
(`tstodt_gregorian`).  `dttots` is one day ahead of it: seconds follow one another
(`dttots_next_second`), but neither function undoes the other (`inverse_on_iff`).  The weekday is
computed for the years 2000 to 2099 of every era (`weekday_iff`).
-/

namespace Hvos.Machine

open Calendar

/-! ## `tstodt` -/

/-- A value of `unsigned int`. -/
def u32 (x : ℤ) : ℕ := (x % 2 ^ 32).toNat

/-- `tstodt`: what the new `datetime_t` holds. -/
def tstodt (ts : ℕ) : Datetime :=
  let secondPerDay := 86400
  let epchDays := ts / secondPerDay
  let dayRemainder := ts % secondPerDay
  let hour := dayRemainder / 3600
  let dayRemainder := dayRemainder % 3600
  let minute := dayRemainder / 60
  let second := dayRemainder % 60
  let z := epchDays + 719468
  let era := z / 146097
  let doe := z % 146097
  let yoe := u32 (doe - (doe / 1460 : ℕ) + (doe / 36524 : ℕ) - (doe / 146096 : ℕ)) / 365
  let fullYear := yoe + era * 400
  let doy := u32 (doe - (365 * yoe + (yoe / 4 : ℕ) - (yoe / 100 : ℕ)))
  let mp := u32 (5 * doy + 2) / 153
  let day := u32 (doy - ((153 * mp + 2) / 5 : ℕ) + 1)
  let month := UInt8.ofNat (if mp < 10 then mp + 3 else u32 (mp - 9))
  let fullYear := if month ≤ 2 then fullYear + 1 else fullYear
  { century := .ofNat (fullYear / 100)
    year := .ofNat (fullYear % 100)
    month := month
    day := .ofNat day
    hour := .ofNat hour
    minute := .ofNat minute
    second := .ofNat second }

/-- The fields of a moment, in bytes. -/
def Datetime.ofMoment (t : Moment) : Datetime :=
  ⟨.ofNat (t.year / 100), .ofNat (t.year % 100), .ofNat t.month, .ofNat t.day, .ofNat t.hour,
    .ofNat t.minute, .ofNat t.second⟩

theorem u32_eq {x : ℤ} {n : ℕ} (hx : x = n) (hn : n < 2 ^ 32) : u32 x = n := by
  rw [u32, hx]
  omega

/-- A byte that holds a small number. -/
theorem toNat_byte {n : ℕ} (h : n < 256) : (UInt8.ofNat n).toNat = n := by
  rw [UInt8.toNat_ofNat', Nat.mod_eq_of_lt h]

/-- **No value of `tstodt` leaves 32 bits**, and no difference is negative. -/
theorem tstodt_values {e y n m : ℕ} (he : e < 146097) (hy : y = commonDays e / 365)
    (hn : n = e - eraStart y) (hm : m = (5 * n + 2) / 153) :
    u32 (e - (e / 1460 : ℕ) + (e / 36524 : ℕ) - (e / 146096 : ℕ)) / 365 = y ∧
      u32 (e - (365 * y + (y / 4 : ℕ) - (y / 100 : ℕ))) = n ∧ u32 (5 * n + 2) / 153 = m ∧
      u32 (n - ((153 * m + 2) / 5 : ℕ) + 1) = n - (153 * m + 2) / 5 + 1 ∧
      (if m < 10 then m + 3 else u32 (m - 9)) = (if m < 10 then m + 3 else m - 9) ∧ m < 12 := by
  have hstart : eraStart y ≤ e := hy ▸ (eraYear_spec he).2.1
  have hyear : n < 366 := by
    rw [hn, hy]
    exact eraDay_lt he
  have hmonth := marchMonth_spec hyear
  rw [← hm] at hmonth
  refine ⟨?_, u32_eq ?_ (by omega), ?_, u32_eq (by omega) (by omega), ?_, hmonth.1⟩
  · rw [hy, u32_eq (n := commonDays e)] <;> unfold commonDays <;> omega
  · unfold eraStart at *
    omega
  · rw [hm, u32_eq (n := 5 * n + 2)] <;> omega
  · split_ifs
    · rfl
    · exact u32_eq (by omega) (by omega)

/-- **`tstodt` is the moment so many seconds after 1970-01-01**, in bytes. -/
theorem tstodt_eq (ts : ℕ) : ∃ t : Moment, tstodt ts = .ofMoment t ∧
    t.number = dayNumber 1970 1 1 + ts / 86400 ∧
    3600 * t.hour + 60 * t.minute + t.second = ts % 86400 := by
  obtain ⟨e, he⟩ : ∃ e, e = (ts / 86400 + 719468) % 146097 := ⟨_, rfl⟩
  obtain ⟨y, hy⟩ : ∃ y, y = commonDays e / 365 := ⟨_, rfl⟩
  obtain ⟨n, hn⟩ : ∃ n, n = e - eraStart y := ⟨_, rfl⟩
  obtain ⟨m, hm⟩ : ∃ m, m = (5 * n + 2) / 153 := ⟨_, rfl⟩
  have hlt : e < 146097 := by
    rw [he]
    exact Nat.mod_lt _ (by decide)
  obtain ⟨hyoe, hdoy, hmp, hday, hmonth, hlast⟩ := tstodt_values hlt hy hn hm
  obtain ⟨t, hnumber, htday, htmonth, htyear⟩ :=
    Date.exists_of_march (ts / 86400 + 719468) (y := y) (by rw [← he, hy]) (by rw [← he, hn]) hm
  -- the month decides whether the year has begun
  have hearly : UInt8.ofNat t.month ≤ 2 ↔ ¬m < 10 := by
    have hle := t.month_le
    have hpos := t.month_pos
    rw [UInt8.le_iff_toNat_le, toNat_byte (by omega), htmonth, show (2 : UInt8).toNat = 2 from rfl]
    split_ifs <;> omega
  have hyear : (if UInt8.ofNat t.month ≤ 2 then y + (ts / 86400 + 719468) / 146097 * 400 + 1
      else y + (ts / 86400 + 719468) / 146097 * 400) = t.year := by
    rw [htyear]
    by_cases hm : m < 10
    · rw [if_neg (by rw [hearly]; exact not_not.2 hm), if_pos hm]
      exact (Nat.add_zero _).symm
    · rw [if_pos (hearly.2 hm), if_neg hm]
  refine ⟨⟨t, ts % 86400 / 3600, ts % 86400 % 3600 / 60, ts % 86400 % 3600 % 60, by omega,
    by omega, by omega⟩, ?_, ?_, by simp only; omega⟩
  · simp only [tstodt, Datetime.ofMoment, ← he, hyoe, hdoy, hmp, hday, hmonth, ← htday, ← htmonth,
      hyear]
  · change t.number = _
    rw [hnumber, dayNumber_epoch]
    omega

/-! ## What a `datetime_t` says -/

/-- The year of a date. -/
def Datetime.fullYear (dt : Datetime) : ℕ := dt.century.toNat * 100 + dt.year.toNat

/-- **`dt` is a date and time of the calendar**, written out. -/
structure Datetime.Denotes (dt : Datetime) (t : Moment) : Prop where
  year : dt.fullYear = t.year
  short : dt.year.toNat < 100
  month : dt.month.toNat = t.month
  day : dt.day.toNat = t.day
  hour : dt.hour.toNat = t.hour
  minute : dt.minute.toNat = t.minute
  second : dt.second.toNat = t.second

/-- The timestamps of the years that fit: up to 25599. -/
def ShortYear (ts : ℕ) : Prop := dayNumber 1970 1 1 + ts / 86400 < dayNumber 25600 1 1

theorem dayNumber_last : dayNumber 25600 1 1 = 9350208 := by
  have h := dayNumber_january (y := 25599) (m := 1) (d := 1) le_rfl (by decide) le_rfl
  rw [show 25600 = 25599 + 1 from rfl]
  generalize dayNumber (25599 + 1) 1 1 = n at *
  omega

theorem shortYear_iff {ts : ℕ} : ShortYear ts ↔ ts < 745690752000 := by
  rw [ShortYear, dayNumber_epoch, dayNumber_last]
  omega

section Denotes

variable {dt dt' : Datetime} {t : Moment} {ts : ℕ}

theorem Datetime.denotes_ofMoment (h : t.year < 25600) : (ofMoment t).Denotes t := by
  have hday := t.day_le.trans (monthDays_bounds ..).2
  have hmonth := t.month_le
  have hhour := t.hour_lt
  have hminute := t.minute_lt
  have hsecond := t.second_lt
  have hcentury : (UInt8.ofNat (t.year / 100)).toNat = t.year / 100 := toNat_byte (by omega)
  have hyear : (UInt8.ofNat (t.year % 100)).toNat = t.year % 100 := toNat_byte (by omega)
  refine ⟨?_, ?_, toNat_byte (by omega), toNat_byte (by omega), toNat_byte (by omega),
    toNat_byte (by omega), toNat_byte (by omega)⟩
  · simp only [fullYear, ofMoment, hcentury, hyear]
    omega
  · simp only [ofMoment, hyear]
    omega

/-- **`tstodt` finds the moment of the timestamp.** -/
theorem tstodt_denotes (h : ShortYear ts) : ∃ t : Moment, (tstodt ts).Denotes t ∧
    t.number = dayNumber 1970 1 1 + ts / 86400 ∧
    3600 * t.hour + 60 * t.minute + t.second = ts % 86400 := by
  obtain ⟨t, heq, hnumber, htime⟩ := tstodt_eq ts
  refine ⟨t, ?_, hnumber, htime⟩
  rw [heq]
  exact Datetime.denotes_ofMoment (Date.year_lt_of_number_lt (hnumber ▸ h))

/-- A year that fits has days that fit. -/
theorem Datetime.Denotes.number_lt (h : dt.Denotes t) : t.number < 2 ^ 24 := by
  have hcentury := dt.century.toNat_lt
  have hyear := h.year
  have hshort := h.short
  have hlast := t.toDate.number_lt
  have hyears := daysBeforeYear_succ t.year
  simp only [fullYear] at hyear
  omega

/-- **`dttots` is one day ahead**: it counts from the last day of 1969. -/
theorem Datetime.Denotes.dttots_eq (h : dt.Denotes t) (hyear : 1970 ≤ t.year) :
    dttots dt + 86400 * dayNumber 1970 1 1 = t.seconds + 86400 := by
  have hdays := epochDays_eq h.year h.month h.day t.month_pos t.month_le t.day_pos (by omega)
  have hlast := h.number_lt
  have hfirst : dayNumber 1970 1 1 ≤ t.number := Date.le_number_of_year_le hyear
  have hhour := t.hour_lt
  have hminute := t.minute_lt
  have hsecond := t.second_lt
  rw [dayNumber_epoch] at hfirst ⊢
  simp only [dttots, hdays, h.hour, h.minute, h.second, Moment.seconds, Date.number] at *
  omega

/-! ## `tstodt` and the calendar -/

/-- **`dt` is a date of the Gregorian calendar, `ts` seconds after 1970-01-01 00:00:00.** -/
structure Gregorian (ts : ℕ) (dt : Datetime) : Prop where
  month_pos : 1 ≤ dt.month.toNat
  month_le : dt.month.toNat ≤ 12
  day_pos : 1 ≤ dt.day.toNat
  day_le : dt.day.toNat ≤ monthDays dt.fullYear dt.month.toNat
  hour_lt : dt.hour.toNat < 24
  minute_lt : dt.minute.toNat < 60
  second_lt : dt.second.toNat < 60
  days : dayNumber dt.fullYear dt.month.toNat dt.day.toNat = dayNumber 1970 1 1 + ts / 86400
  time : 3600 * dt.hour.toNat + 60 * dt.minute.toNat + dt.second.toNat = ts % 86400

/-- **`tstodt` is the Gregorian calendar**, for every timestamp of a year up to 25599. -/
theorem tstodt_gregorian (h : ShortYear ts) : Gregorian ts (tstodt ts) := by
  obtain ⟨t, ht, hnumber, htime⟩ := tstodt_denotes h
  rw [← ht.hour, ← ht.minute, ← ht.second] at htime
  refine ⟨?_, ?_, ?_, ?_, ?_, ?_, ?_, ?_, htime⟩
  · exact ht.month ▸ t.month_pos
  · exact ht.month ▸ t.month_le
  · exact ht.day ▸ t.day_pos
  · rw [ht.year, ht.month, ht.day]
    exact t.day_le
  · exact ht.hour ▸ t.hour_lt
  · exact ht.minute ▸ t.minute_lt
  · exact ht.second ▸ t.second_lt
  · rw [ht.year, ht.month, ht.day]
    exact hnumber

/-! ## One second after another -/

/-- **`dttots` counts the seconds without gaps.** -/
theorem dttots_next_second (h : dt.Denotes t) (h' : dt'.Denotes t.next) (hyear : 1970 ≤ t.year) :
    dttots dt' = dttots dt + 1 := by
  have hfirst := h.dttots_eq hyear
  have hnext := h'.dttots_eq (hyear.trans t.year_le_next)
  have hseconds := t.seconds_next
  omega

/-! ## There and back -/

/-- **Back and forth a day is gained.** -/
theorem dttots_tstodt (h : ShortYear ts) : dttots (tstodt ts) = ts + 86400 := by
  obtain ⟨t, ht, hnumber, htime⟩ := tstodt_denotes h
  have hyear : 1970 ≤ t.year :=
    Date.le_year_of_le_number (hnumber ▸ Nat.le_add_right ..)
  have heq := ht.dttots_eq hyear
  simp only [Moment.seconds] at heq
  omega

/-- **Forth and back it is the next day.** -/
theorem tstodt_dttots (h : dt.Denotes t) (hyear : 1970 ≤ t.year) :
    ∃ u : Moment, tstodt (dttots dt) = .ofMoment u ∧ u.number = t.number + 1 ∧
      u.hour = t.hour ∧ u.minute = t.minute ∧ u.second = t.second := by
  obtain ⟨u, heq, hnumber, htime⟩ := tstodt_eq (dttots dt)
  have hdttots := h.dttots_eq hyear
  have hu := u.second_lt
  have hu' := u.minute_lt
  have ht := t.second_lt
  have ht' := t.minute_lt
  have ht'' := t.hour_lt
  simp only [Moment.seconds] at hdttots
  have hdays : dttots dt / 86400 + dayNumber 1970 1 1 = t.number + 1 := by omega
  refine ⟨u, heq, ?_, ?_, ?_, ?_⟩ <;> omega

theorem tstodt_dttots_ne (h : dt.Denotes t) (hyear : 1970 ≤ t.year) : tstodt (dttots dt) ≠ dt := by
  obtain ⟨u, heq, hnumber, -⟩ := tstodt_dttots h hyear
  intro hsame
  rw [hsame] at heq
  have hmonth : u.month = t.month := by
    have hle := u.month_le
    rw [← h.month, heq]
    exact (toNat_byte (by omega)).symm
  have hday : u.day = t.day := by
    have hle := u.day_le.trans (monthDays_bounds ..).2
    rw [← h.day, heq]
    exact (toNat_byte (by omega)).symm
  exact Date.number_ne_succ hmonth hday hnumber

/-- **The two conversions undo each other nowhere**: not on one timestamp of a year up to 25599,
and not on one date from 1970 on. -/
theorem inverse_on_iff {T : Set ℕ} {D : Set Datetime} (hT : ∀ ts ∈ T, ShortYear ts)
    (hD : ∀ dt ∈ D, ∃ t : Moment, dt.Denotes t ∧ 1970 ≤ t.year) :
    ((∀ ts ∈ T, dttots (tstodt ts) = ts) ∧ ∀ dt ∈ D, tstodt (dttots dt) = dt) ↔
      T = ∅ ∧ D = ∅ := by
  constructor
  · rintro ⟨hts, hdt⟩
    refine ⟨Set.eq_empty_of_forall_notMem fun ts hmem => ?_,
      Set.eq_empty_of_forall_notMem fun dt hmem => ?_⟩
    · have hgain := dttots_tstodt (hT ts hmem)
      have hsame := hts ts hmem
      omega
    · obtain ⟨t, ht, hyear⟩ := hD dt hmem
      exact tstodt_dttots_ne ht hyear (hdt dt hmem)
  · rintro ⟨rfl, rfl⟩
    exact ⟨fun ts hmem => hmem.elim, fun dt hmem => hmem.elim⟩

/-! ## The weekday -/

/-- The code of a month from March is its place in the year. -/
theorem monthCode_march : ∀ m < 13, 3 ≤ m →
    ∃ k < 45, (153 * (m - 3) + 2) / 5 + 3 = monthCodeArray.getD (m - 1) 0 + 7 * k := by
  decide

theorem monthCode_january : ∀ m < 3, 1 ≤ m →
    ∃ k < 49, (153 * (m + 9) + 2) / 5 + 2 = monthCodeArray.getD (m - 1) 0 + 7 * k := by
  decide

section Weekday

variable {c y m d : ℕ}

/-- A century moves the weekday by five days, four centuries by none. -/
theorem weekday_march (h3 : 3 ≤ m) (h12 : m ≤ 12) (hd : 1 ≤ d) (hy : y < 100) :
    (dayNumber (c * 100 + y) m d + 6) % 7 =
      (y + y / 4 + monthCodeArray.getD (m - 1) 0 + 6 + d + 5 * (c % 4)) % 7 := by
  obtain ⟨k, -, hk⟩ := monthCode_march m (by omega) h3
  have hnumber := dayNumber_march (y := c * 100 + y) h3 h12 hd
  have hquarter : (c * 100 + y) / 4 = 25 * c + y / 4 := by omega
  have hcentury : (c * 100 + y) / 100 = c := by omega
  have hera : (c * 100 + y) / 400 = c / 4 := by omega
  rw [hquarter, hcentury, hera] at hnumber
  generalize dayNumber (c * 100 + y) m d = n at *
  generalize (153 * (m - 3) + 2) / 5 = e at *
  generalize monthCodeArray.getD (m - 1) 0 = x at *
  omega

/-- In the first two months the leap day of the year is still to come, which a century year has only
in the first century of an era. -/
theorem weekday_january (h1 : 1 ≤ m) (h2 : m ≤ 2) (hd : 1 ≤ d) (hy : y < 100) (hc : 0 < c) :
    (dayNumber (c * 100 + y) m d + 6 + if y % 4 = 0 then 1 else 0) % 7 =
      (y + y / 4 + monthCodeArray.getD (m - 1) 0 + 6 + d + 5 * (c % 4) +
        if y = 0 ∧ c % 4 ≠ 0 then 1 else 0) % 7 := by
  obtain ⟨k, -, hk⟩ := monthCode_january m (by omega) h1
  obtain ⟨z, hz⟩ : ∃ z, c * 100 + y = z + 1 := ⟨c * 100 + y - 1, by omega⟩
  have hnumber := dayNumber_january (y := z) h1 h2 hd
  rw [← hz] at hnumber
  generalize dayNumber (c * 100 + y) m d = n at *
  generalize (153 * (m + 9) + 2) / 5 = e at *
  generalize monthCodeArray.getD (m - 1) 0 = x at *
  rcases Nat.eq_zero_or_pos y with rfl | hpos
  · have hquarter : z / 4 + 1 = 25 * c := by omega
    have hcentury : z / 100 + 1 = c := by omega
    have hera : z / 400 + (if c % 4 = 0 then 1 else 0) = c / 4 := by split_ifs <;> omega
    split_ifs at * <;> omega
  · have hquarter : z / 4 + (if y % 4 = 0 then 1 else 0) = 25 * c + y / 4 := by
      split_ifs <;> omega
    have hcentury : z / 100 = c := by omega
    have hera : z / 400 = c / 4 := by omega
    split_ifs at * <;> omega

/-- The sum of the codes, against the number of the day. -/
theorem weekday_codes_iff (h1 : 1 ≤ m) (h12 : m ≤ 12) (hd : 1 ≤ d) (hy : y < 100) (hc : 0 < c) :
    ((((y + y / 4) % 7 + monthCodeArray.getD (m - 1) 0 + 6 + d : ℕ) : ℤ) - isLeapYear y m).tmod 7 =
      ((dayNumber (c * 100 + y) m d + 6) % 7 : ℕ) ↔ c % 4 = 0 := by
  rcases Nat.lt_or_ge m 3 with hlt | hge
  · have hleap : isLeapYear y m = if y % 4 = 0 then 1 else 0 :=
      if_congr (and_iff_left (by omega)) rfl rfl
    have hnumber := weekday_january h1 (by omega) hd hy hc
    rw [hleap, Int.tmod_eq_emod_of_nonneg (by split_ifs <;> omega)]
    generalize dayNumber (c * 100 + y) m d = n at *
    generalize monthCodeArray.getD (m - 1) 0 = x at *
    split_ifs at * <;> omega
  · have hleap : isLeapYear y m = 0 := if_neg (by omega)
    have hnumber := weekday_march (c := c) hge h12 hd hy
    rw [hleap, Int.tmod_eq_emod_of_nonneg (by omega)]
    generalize dayNumber (c * 100 + y) m d = n at *
    generalize monthCodeArray.getD (m - 1) 0 = x at *
    omega

end Weekday

/-- **The weekday is right exactly in the first century of an era**: for the years 2000 to 2099,
2400 to 2499 and so on. -/
theorem weekday_iff (h : ShortYear ts) :
    (getWeekdayFromDate (tstodt ts)).1 = ((ts / 86400 + 4) % 7 : ℕ) ↔
      (tstodt ts).century.toNat % 4 = 0 := by
  obtain ⟨t, ht, hnumber, -⟩ := tstodt_denotes h
  have hyear : 1970 ≤ t.year := Date.le_year_of_le_number (hnumber ▸ Nat.le_add_right ..)
  have hcentury : 0 < (tstodt ts).century.toNat := by
    have hfull := ht.year
    have hshort := ht.short
    unfold Datetime.fullYear at hfull
    omega
  have hweek : (ts / 86400 + 4) % 7 = (t.number + 6) % 7 := by
    rw [hnumber, dayNumber_epoch]
    omega
  have hcodes := weekday_codes_iff (m := (tstodt ts).month.toNat) (d := (tstodt ts).day.toNat)
    (ht.month ▸ t.month_pos) (ht.month ▸ t.month_le) (ht.day ▸ t.day_pos) ht.short hcentury
  rw [← hcodes, hweek]
  have hsame : t.number = dayNumber ((tstodt ts).century.toNat * 100 + (tstodt ts).year.toNat)
      (tstodt ts).month.toNat (tstodt ts).day.toNat := by
    rw [ht.month, ht.day]
    exact congrArg (dayNumber · _ _) ht.year.symm
  rw [hsame]
  rfl

end Denotes

/-! ## Some dates -/

/-- 2000-02-29 12:34:56. -/
theorem tstodt_gregorian_leap_day :
    Gregorian 951827696 (tstodt 951827696) ∧ tstodt 951827696 = ⟨20, 0, 2, 29, 12, 34, 56⟩ :=
  ⟨tstodt_gregorian (shortYear_iff.2 (by decide)), rfl⟩

/-- The last second of 2000-02-28. -/
def beforeLeapDay : Moment where
  year := 2000
  month := 2
  day := 28
  month_pos := by decide
  month_le := by decide
  day_pos := by decide
  day_le := by decide
  hour := 23
  minute := 59
  second := 59
  hour_lt := by decide
  minute_lt := by decide
  second_lt := by decide

theorem beforeLeapDay_denotes : Datetime.Denotes ⟨20, 0, 2, 28, 23, 59, 59⟩ beforeLeapDay :=
  ⟨rfl, by decide, rfl, rfl, rfl, rfl, rfl⟩

/-- From 28 to 29 February. -/
theorem dttots_next_second_leap_day :
    dttots ⟨20, 0, 2, 29, 0, 0, 0⟩ = dttots ⟨20, 0, 2, 28, 23, 59, 59⟩ + 1 :=
  dttots_next_second beforeLeapDay_denotes ⟨rfl, by decide, rfl, rfl, rfl, rfl, rfl⟩ (by decide)

/-- **The first timestamp comes back a day later**, and the first date as the second of January. -/
theorem epoch_comes_back : dttots (tstodt 0) = 86400 ∧
    tstodt (dttots ⟨19, 70, 1, 1, 0, 0, 0⟩) = ⟨19, 70, 1, 2, 0, 0, 0⟩ := by
  have hcount : dttots ⟨19, 70, 1, 1, 0, 0, 0⟩ = 86400 := by decide
  rw [hcount]
  exact ⟨by decide, rfl⟩

theorem inverse_on_iff_leap_day : ¬((∀ ts ∈ ({0} : Set ℕ), dttots (tstodt ts) = ts) ∧
    ∀ dt ∈ ({⟨20, 0, 2, 28, 23, 59, 59⟩} : Set Datetime), tstodt (dttots dt) = dt) := by
  refine (not_congr (inverse_on_iff (fun ts hts => shortYear_iff.2 ?_) fun dt hdt => ?_)).2
    fun hnone => Set.singleton_ne_empty _ hnone.1
  · rw [Set.mem_singleton_iff.1 hts]
    decide
  · exact ⟨beforeLeapDay, Set.mem_singleton_iff.1 hdt ▸ beforeLeapDay_denotes, by decide⟩

/-- **1970-01-01 was a Thursday**, and is said to be a Wednesday. -/
theorem epoch_weekday : (getWeekdayFromDate (tstodt 0)).1 = 3 ∧ (0 / 86400 + 4) % 7 = 4 := by
  decide

theorem weekday_iff_leap_day :
    (getWeekdayFromDate (tstodt 951827696)).1 = ((951827696 / 86400 + 4) % 7 : ℕ) :=
  (weekday_iff (shortYear_iff.2 (by decide))).2 (by decide)

end Hvos.Machine
