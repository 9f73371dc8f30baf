import ProviiCrypto.Commons.Basic
import ProviiCrypto.Number.Calendar

/-!
# Timestamps and their text

`Display` turns seconds since the epoch into a date and a time of day. Its arithmetic is modelled on
integers, with every step checked against the type it is made in: the result is none when one of
them leaves its type.

* `civilFromDays_spec`: the date is that of the proleptic Gregorian calendar.
* `timestamp_civil`: no step fails, the fields are in range, they determine the timestamp, and they
  are ordered as it is.
-/

namespace ProviiCrypto

open Number.Calendar

/-! ## The source -/

/-- `Timestamp`. -/
structure Timestamp where
  seconds : Int64
  nanos : Int32
  deriving DecidableEq

/-- `Timestamp::new`. -/
def Timestamp.new (seconds : Int64) (nanos : Int32) : Except Error Timestamp :=
  if ¬ (0 ≤ nanos ∧ nanos < 1000000000) then .error .invalidInput
  else .ok ⟨seconds, nanos⟩

/-- A step of `i64` arithmetic. -/
def i64Step (x : ℤ) : Option ℤ := if -2 ^ 63 ≤ x ∧ x < 2 ^ 63 then some x else none

/-- A step of `u64` arithmetic. -/
def u64Step (x : ℤ) : Option ℤ := if 0 ≤ x ∧ x < 2 ^ 64 then some x else none

/-- `as u64`. -/
def asU64 (x : ℤ) : ℤ := x % 2 ^ 64

/-- `as i64`. -/
def asI64 (x : ℤ) : ℤ := x.bmod (2 ^ 64)

/-- The fields of the text. -/
structure Civil where
  year : ℤ
  month : ℤ
  day : ℤ
  hours : ℤ
  minutes : ℤ
  seconds : ℤ
  nanos : ℤ
  deriving DecidableEq

/-- `era` and `doe` in `fmt`: the cycle of 400 years, from a first of March, and the day of it. -/
def civilEra (days : ℤ) : Option (ℤ × ℤ) := do
  let days ← i64Step (days + 719468)
  let eraDays ← (if days ≥ 0 then some days else i64Step (days - 146096))
  let era := eraDays.tdiv 146097
  let eraStart ← i64Step (era * 146097)
  let doe ← i64Step (days - eraStart)
  return (era, asU64 doe)

/-- `yoe` and `doy` in `fmt`: the year of the cycle and the day of the year. -/
def civilYear (doe : ℤ) : Option (ℤ × ℤ) := do
  let yoe ← u64Step (doe - doe / 1460)
  let yoe ← u64Step (yoe + doe / 36524)
  let yoe ← u64Step (yoe - doe / 146096)
  let yoe := yoe / 365
  let yearDays ← u64Step (365 * yoe)
  let yearDays ← u64Step (yearDays + yoe / 4)
  let yearDays ← u64Step (yearDays - yoe / 100)
  let doy ← u64Step (doe - yearDays)
  return (yoe, doy)

/-- `m` and `d` in `fmt`: the month and its day. -/
def civilMonth (doy : ℤ) : Option (ℤ × ℤ) := do
  let mp ← u64Step (5 * doy)
  let mp ← u64Step (mp + 2)
  let mp := mp / 153
  let monthDays ← u64Step (153 * mp)
  let monthDays ← u64Step (monthDays + 2)
  let d ← u64Step (doy - monthDays / 5)
  let d ← u64Step (d + 1)
  let m ← (if mp < 10 then u64Step (mp + 3) else u64Step (mp - 9))
  return (m, d)

/-- The `civil_from_days` part of `fmt`: from days since the epoch to year, month and day. -/
def civilFromDays (days : ℤ) : Option (ℤ × ℤ × ℤ) := do
  let (era, doe) ← civilEra days
  let (yoe, doy) ← civilYear doe
  let eraYear ← i64Step (era * 400)
  let y ← i64Step (asI64 yoe + eraYear)
  let (m, d) ← civilMonth doy
  let year ← (if m ≤ 2 then i64Step (y + 1) else some y)
  return (year, m, d)

/-- `fmt`, up to the fields that it writes. -/
def Timestamp.civil (t : Timestamp) : Option Civil := do
  let totalSecs := t.seconds.toInt
  let nanos := asU64 t.nanos.toInt
  let days := totalSecs / 86400
  let daySecs := asU64 (totalSecs % 86400)
  let hours := daySecs / 3600
  let daySecs := daySecs % 3600
  let minutes := daySecs / 60
  let seconds := daySecs % 60
  let (year, m, d) ← civilFromDays days
  return ⟨year, m, d, hours, minutes, seconds, nanos⟩

/-- A number with at least `width` characters: `{n:0width}`, its sign in front of the zeros. -/
def zeroPadded (width : ℕ) (n : ℤ) : List Char :=
  if n < 0 then '-' :: (List.replicate (width - 1 - (toString n.natAbs).length) '0' ++
    (toString n.natAbs).toList)
  else List.replicate (width - (toString n.natAbs).length) '0' ++ (toString n.natAbs).toList

/-- The text that `fmt` writes. -/
def Timestamp.display (t : Timestamp) : Option (List Char) := do
  let c ← t.civil
  return zeroPadded 4 c.year ++ ['-'] ++ zeroPadded 2 c.month ++ ['-'] ++ zeroPadded 2 c.day ++
    ['T'] ++ zeroPadded 2 c.hours ++ [':'] ++ zeroPadded 2 c.minutes ++ [':'] ++
    zeroPadded 2 c.seconds ++ ['.'] ++ zeroPadded 9 c.nanos ++ ['Z']

example : Timestamp.display ⟨-62167219201, 5⟩ =
    some "-001-12-31T23:59:59.000000005Z".toList := by decide +kernel

/-! ## The date -/

theorem i64Step_of_mem {x : ℤ} (hlo : -2 ^ 63 ≤ x) (hhi : x < 2 ^ 63) : i64Step x = some x :=
  if_pos ⟨hlo, hhi⟩

theorem u64Step_of_mem {x : ℤ} (hlo : 0 ≤ x) (hhi : x < 2 ^ 64) : u64Step x = some x :=
  if_pos ⟨hlo, hhi⟩

theorem asU64_of_mem {x : ℤ} (hlo : 0 ≤ x) (hhi : x < 2 ^ 64) : asU64 x = x :=
  Int.emod_eq_of_lt hlo hhi

theorem asI64_of_mem {x : ℤ} (hlo : -2 ^ 63 ≤ x) (hhi : x < 2 ^ 63) : asI64 x = x :=
  Int.bmod_eq_of_le (by omega) (by omega)

/-- Truncated division of what is moved down when it is negative rounds down. -/
theorem era_eq (z : ℤ) : (if z ≥ 0 then z else z - 146096).tdiv 146097 = z / 146097 := by
  split_ifs with h
  · exact Int.tdiv_eq_ediv_of_nonneg h
  · rw [Int.tdiv_eq_ediv]
    split_ifs with hdvd
    · omega
    · rw [Int.sign_eq_one_of_pos (by norm_num)]
      omega

theorem civilEra_eq {days : ℤ} (hlo : -2 ^ 60 ≤ days) (hhi : days < 2 ^ 60) :
    civilEra days = some ((days + 719468) / 146097, (days + 719468) % 146097) := by
  have hbranch : (if days + 719468 ≥ 0 then some (days + 719468)
      else i64Step (days + 719468 - 146096)) =
      some (if days + 719468 ≥ 0 then days + 719468 else days + 719468 - 146096) := by
    split_ifs
    · rfl
    · exact i64Step_of_mem (by omega) (by omega)
  have hdoe : days + 719468 - (days + 719468) / 146097 * 146097 = (days + 719468) % 146097 := by
    omega
  unfold civilEra
  simp only [i64Step_of_mem (by omega : -2 ^ 63 ≤ days + 719468) (by omega), Option.bind_eq_bind,
    Option.bind_some, hbranch, era_eq]
  rw [i64Step_of_mem (by omega) (by omega), Option.bind_some, hdoe,
    i64Step_of_mem (by omega) (by omega), Option.bind_some, asU64_of_mem (by omega) (by omega)]
  rfl

private theorem civilYear_of_bounds {doe yoe doy : ℤ} (hdoe : 0 ≤ doe ∧ doe ≤ 146096)
    (hyoe : 0 ≤ yoe ∧ yoe ≤ 399) (hdoy : 0 ≤ doy ∧ doy ≤ 365)
    (hyear : (doe - doe / 1460 + doe / 36524 - doe / 146096) / 365 = yoe)
    (hday : doe - (365 * yoe + yoe / 4 - yoe / 100) = doy) : civilYear doe = some (yoe, doy) := by
  unfold civilYear
  simp only [Option.bind_eq_bind]
  rw [u64Step_of_mem (by omega) (by omega), Option.bind_some,
    u64Step_of_mem (by omega) (by omega), Option.bind_some,
    u64Step_of_mem (by omega) (by omega), Option.bind_some, hyear,
    u64Step_of_mem (by omega) (by omega), Option.bind_some,
    u64Step_of_mem (by omega) (by omega), Option.bind_some,
    u64Step_of_mem (by omega) (by omega), Option.bind_some, hday,
    u64Step_of_mem (by omega) (by omega), Option.bind_some]
  rfl

theorem civilYear_eq {doe c q a t : ℤ} (h : CycleDay doe c q a t) :
    civilYear doe = some (100 * c + 4 * q + a, t) := by
  obtain ⟨hc, hq, ha, ht, -, hdoe⟩ := id h
  exact civilYear_of_bounds (by omega) (by omega) ht h.yearOfEra h.dayOfYear

theorem civilMonth_eq {doy : ℤ} (h0 : 0 ≤ doy) (h365 : doy ≤ 365) :
    civilMonth doy = some (if (5 * doy + 2) / 153 < 10 then (5 * doy + 2) / 153 + 3
      else (5 * doy + 2) / 153 - 9, doy - marchMonthStart ((5 * doy + 2) / 153) + 1) := by
  obtain ⟨mp, hmp⟩ : ∃ mp, mp = (5 * doy + 2) / 153 := ⟨_, rfl⟩
  have hstart := (marchMonthStart_le hmp).1
  have hbranch : (if mp < 10 then u64Step (mp + 3) else u64Step (mp - 9)) =
      some (if mp < 10 then mp + 3 else mp - 9) := by
    split_ifs
    · exact u64Step_of_mem (by omega) (by omega)
    · exact u64Step_of_mem (by omega) (by omega)
  unfold civilMonth
  simp only [Option.bind_eq_bind]
  unfold marchMonthStart at hstart ⊢
  rw [u64Step_of_mem (by omega) (by omega), Option.bind_some,
    u64Step_of_mem (by omega) (by omega), Option.bind_some, ← hmp,
    u64Step_of_mem (by omega) (by omega), Option.bind_some,
    u64Step_of_mem (by omega) (by omega), Option.bind_some,
    u64Step_of_mem (by omega) (by omega), Option.bind_some,
    u64Step_of_mem (by omega) (by omega), Option.bind_some, hbranch]
  rfl

/-- **The date of a day**: no step fails, and the date is the calendar's. -/
theorem civilFromDays_spec {days : ℤ} (hlo : -2 ^ 60 ≤ days) (hhi : days < 2 ^ 60) :
    ∃ year m d, civilFromDays days = some (year, m, d) ∧ ValidDate year m d ∧
      daysFromCivil year m d = days := by
  obtain ⟨c, q, a, t, h⟩ := exists_cycle (Int.emod_nonneg (days + 719468) (by norm_num))
    (Int.emod_lt_of_pos (days + 719468) (by norm_num : (0 : ℤ) < 146097))
  have hera := civilEra_eq hlo hhi
  have hyear := civilYear_eq h
  have hmonth := civilMonth_eq h.day.1 h.day.2
  have hstart := h.marchStart_add ((days + 719468) / 146097)
  have hleap := h.isLeap ((days + 719468) / 146097)
  have hdays : (days + 719468) / 146097 * 146097 + (days + 719468) % 146097 = days + 719468 :=
    Int.ediv_mul_add_emod _ _
  have hbounds : -2 ^ 44 ≤ (days + 719468) / 146097 ∧ (days + 719468) / 146097 < 2 ^ 44 := by omega
  have hyoe : 0 ≤ 100 * c + 4 * q + a ∧ 100 * c + 4 * q + a ≤ 399 := by
    obtain ⟨hc, hq, ha, -, -, -⟩ := h
    omega
  generalize (days + 719468) / 146097 = era at *
  generalize 100 * c + 4 * q + a = yoe at *
  obtain ⟨m, hm⟩ : ∃ m, m = if (5 * t + 2) / 153 < 10 then (5 * t + 2) / 153 + 3
    else (5 * t + 2) / 153 - 9 := ⟨_, rfl⟩
  have hcivil := civil_of_march h.day.1 h.day.2 hleap rfl rfl hm rfl
  rw [← hm] at hmonth
  have hbranch : (if m ≤ 2 then i64Step (yoe + era * 400 + 1) else some (yoe + era * 400)) =
      some (if m ≤ 2 then yoe + era * 400 + 1 else yoe + era * 400) := by
    split_ifs
    · exact i64Step_of_mem (by omega) (by omega)
    · rfl
  refine ⟨_, _, _, ?_, hcivil.1, ?_⟩
  · unfold civilFromDays
    simp only [hera, hyear, hmonth, Option.bind_eq_bind, Option.bind_some]
    rw [i64Step_of_mem (by omega) (by omega), Option.bind_some,
      asI64_of_mem (by omega) (by omega), i64Step_of_mem (by omega) (by omega), Option.bind_some,
      hbranch]
    rfl
  · rw [hcivil.2, hstart, hdays]
    ring

/-! ## The fields -/

/-- The fields are those of a date and a time of day. -/
structure Civil.InRange (c : Civil) : Prop where
  date : ValidDate c.year c.month c.day
  hours : 0 ≤ c.hours ∧ c.hours < 24
  minutes : 0 ≤ c.minutes ∧ c.minutes < 60
  seconds : 0 ≤ c.seconds ∧ c.seconds < 60

/-- The seconds from the epoch to a date and a time of day. -/
def Civil.sinceEpoch (c : Civil) : ℤ :=
  daysFromCivil c.year c.month c.day * 86400 + c.hours * 3600 + c.minutes * 60 + c.seconds

/-- What `Timestamp::new` returns. -/
def Timestamp.Valid (t : Timestamp) : Prop := 0 ≤ t.nanos ∧ t.nanos < 1000000000

instance (t : Timestamp) : Decidable t.Valid := inferInstanceAs (Decidable (_ ∧ _))

theorem Timestamp.new_eq_ok {seconds : Int64} {nanos : Int32} {t : Timestamp} :
    Timestamp.new seconds nanos = .ok t ↔ t = ⟨seconds, nanos⟩ ∧ t.Valid := by
  unfold Timestamp.new
  split_ifs with h
  · rw [Except.ok.injEq, eq_comm]
    constructor
    · rintro rfl
      exact ⟨rfl, h⟩
    · exact fun h' => h'.1
  · refine iff_of_false nofun ?_
    rintro ⟨rfl, hvalid⟩
    exact h hvalid

/-- **The fields of a timestamp** are in range and count the same seconds and nanoseconds. -/
theorem Timestamp.civil_spec {t : Timestamp} (hvalid : t.Valid) :
    ∃ c, t.civil = some c ∧ c.InRange ∧ c.sinceEpoch = t.seconds.toInt ∧
      c.nanos = t.nanos.toInt := by
  have hlo := t.seconds.le_toInt
  have hhi := t.seconds.toInt_lt
  have hnanos := hvalid
  rw [Timestamp.Valid, Int32.le_iff_toInt_le, Int32.lt_iff_toInt_lt] at hnanos
  have hzero : (0 : Int32).toInt = 0 := rfl
  have hbillion : (1000000000 : Int32).toInt = 1000000000 := rfl
  obtain ⟨year, m, d, hcivil, hvalid, hdays⟩ := civilFromDays_spec
    (by omega : -2 ^ 60 ≤ t.seconds.toInt / 86400) (by omega)
  have hday : asU64 (t.seconds.toInt % 86400) = t.seconds.toInt % 86400 :=
    asU64_of_mem (by omega) (by omega)
  have hnano : asU64 t.nanos.toInt = t.nanos.toInt := asU64_of_mem (by omega) (by omega)
  refine ⟨⟨year, m, d, t.seconds.toInt % 86400 / 3600, t.seconds.toInt % 86400 % 3600 / 60,
    t.seconds.toInt % 86400 % 3600 % 60, t.nanos.toInt⟩, ?_, ?_, ?_, rfl⟩
  · unfold Timestamp.civil
    simp only [hcivil, hday, hnano, Option.bind_eq_bind, Option.bind_some]
    rfl
  · exact ⟨hvalid, by dsimp only; omega, by dsimp only; omega, by dsimp only; omega⟩
  · unfold Civil.sinceEpoch
    dsimp only
    rw [hdays]
    omega

/-! ## The order -/

/-- The fields, from the most significant one. -/
def Civil.key (c : Civil) : List ℤ :=
  [c.year, c.month, c.day, c.hours, c.minutes, c.seconds, c.nanos]

/-- Seconds, then nanoseconds. -/
def Timestamp.key (t : Timestamp) : List ℤ := [t.seconds.toInt, t.nanos.toInt]

/-- Greater fields count more. -/
theorem Civil.sinceEpoch_lt {c c' : Civil} (h : c.InRange) (h' : c'.InRange) (hlt : c.key < c'.key) :
    [c.sinceEpoch, c.nanos] < [c'.sinceEpoch, c'.nanos] := by
  obtain ⟨hdate, hhours, hminutes, hseconds⟩ := h
  obtain ⟨hdate', hhours', hminutes', hseconds'⟩ := h'
  unfold Civil.key at hlt
  simp only [List.cons_lt_cons_iff, List.not_lt_nil, and_false, or_false] at hlt ⊢
  unfold Civil.sinceEpoch
  by_cases hsame : c.year = c'.year ∧ c.month = c'.month ∧ c.day = c'.day
  · -- within a day
    obtain ⟨hyear, hmonth, hday⟩ := hsame
    rw [hyear, hmonth, hday] at hlt ⊢
    omega
  · have hdays := daysFromCivil_lt hdate hdate' (by omega)
    omega

/-- The fields tell the timestamps apart. -/
theorem Timestamp.civil_injective {t t' : Timestamp} (h : t.Valid) (h' : t'.Valid)
    (heq : t.civil = t'.civil) : t = t' := by
  obtain ⟨c, hc, -, hsince, hnanos⟩ := Timestamp.civil_spec h
  obtain ⟨c', hc', -, hsince', hnanos'⟩ := Timestamp.civil_spec h'
  obtain rfl : c = c' := Option.some.inj (hc.symm.trans (heq.trans hc'))
  obtain ⟨seconds, nanos⟩ := t
  obtain ⟨seconds', nanos'⟩ := t'
  obtain rfl : seconds = seconds' := Int64.toInt_inj.mp (hsince.symm.trans hsince')
  obtain rfl : nanos = nanos' := Int32.toInt_inj.mp (hnanos.symm.trans hnanos')
  rfl

/-- And keep their order. -/
theorem Timestamp.key_lt_iff {t t' : Timestamp} {c c' : Civil} (h : t.Valid) (h' : t'.Valid)
    (hc : t.civil = some c) (hc' : t'.civil = some c') : t.key < t'.key ↔ c.key < c'.key := by
  have hfields : ∀ {u : Timestamp} {e : Civil}, u.Valid → u.civil = some e →
      e.InRange ∧ u.key = [e.sinceEpoch, e.nanos] := by
    intro u e hu he
    obtain ⟨e', he', hrange, hsince, hnanos⟩ := Timestamp.civil_spec hu
    obtain rfl : e = e' := Option.some.inj (he.symm.trans he')
    unfold Timestamp.key
    rw [hsince, hnanos]
    exact ⟨hrange, rfl⟩
  obtain ⟨hrange, hkey⟩ := hfields h hc
  obtain ⟨hrange', hkey'⟩ := hfields h' hc'
  rw [hkey, hkey']
  refine ⟨fun hlt => ?_, Civil.sinceEpoch_lt hrange hrange'⟩
  rcases lt_trichotomy c.key c'.key with hlt' | heq | hgt
  · exact hlt'
  · obtain ⟨year, month, day, hours, minutes, seconds, nanos⟩ := c
    obtain ⟨year', month', day', hours', minutes', seconds', nanos'⟩ := c'
    simp only [Civil.key, List.cons.injEq, and_true] at heq
    obtain ⟨rfl, rfl, rfl, rfl, rfl, rfl, rfl⟩ := heq
    exact absurd hlt (lt_irrefl _)
  · exact absurd hlt (lt_asymm (Civil.sinceEpoch_lt hrange' hrange hgt))

/-- **A timestamp's text is its Gregorian date and time**: for every number of seconds and every
number of nanoseconds below a billion, no step of the formatting leaves its type; the fields are
those of a date that exists and of a time of day; counting the days back gives the timestamp; and
two timestamps are told apart by their fields, in whose order they are. -/
theorem timestamp_civil :
    (∀ seconds nanos t, Timestamp.new seconds nanos = .ok t →
      ∃ c, t.civil = some c ∧
        (1 ≤ c.month ∧ c.month ≤ 12) ∧ (1 ≤ c.day ∧ c.day ≤ monthLength c.year c.month) ∧
        (0 ≤ c.hours ∧ c.hours < 24) ∧ (0 ≤ c.minutes ∧ c.minutes < 60) ∧
        (0 ≤ c.seconds ∧ c.seconds < 60) ∧
        daysFromCivil c.year c.month c.day * 86400 + c.hours * 3600 + c.minutes * 60 + c.seconds =
          seconds.toInt ∧
        c.nanos = nanos.toInt) ∧
    ∀ seconds nanos seconds' nanos' t t' c c', Timestamp.new seconds nanos = .ok t →
      Timestamp.new seconds' nanos' = .ok t' → t.civil = some c → t'.civil = some c' →
      (t ≠ t' → c ≠ c') ∧ (t.key < t'.key ↔ c.key < c'.key) := by
  constructor
  · intro seconds nanos t ht
    obtain ⟨rfl, hvalid⟩ := Timestamp.new_eq_ok.mp ht
    obtain ⟨c, hc, hrange, hsince, hnanos⟩ := Timestamp.civil_spec hvalid
    exact ⟨c, hc, hrange.date.1, hrange.date.2, hrange.hours, hrange.minutes, hrange.seconds, hsince,
      hnanos⟩
  · intro seconds nanos seconds' nanos' t t' c c' ht ht' hc hc'
    have hvalid := (Timestamp.new_eq_ok.mp ht).2
    have hvalid' := (Timestamp.new_eq_ok.mp ht').2
    refine ⟨?_, Timestamp.key_lt_iff hvalid hvalid' hc hc'⟩
    rintro hne rfl
    exact hne (Timestamp.civil_injective hvalid hvalid' (hc.trans hc'.symm))

/-- The first and the last timestamp. -/
theorem timestamp_civil_ends :
    ∃ c c', Timestamp.civil ⟨Int64.minValue, 0⟩ = some c ∧
      Timestamp.civil ⟨Int64.maxValue, 999999999⟩ = some c' ∧ c.key < c'.key := by
  have hfirst : Timestamp.new Int64.minValue 0 = .ok ⟨Int64.minValue, 0⟩ :=
    Timestamp.new_eq_ok.mpr ⟨rfl, by decide⟩
  have hlast : Timestamp.new Int64.maxValue 999999999 = .ok ⟨Int64.maxValue, 999999999⟩ :=
    Timestamp.new_eq_ok.mpr ⟨rfl, by decide⟩
  obtain ⟨c, hc, -⟩ := timestamp_civil.1 _ _ _ hfirst
  obtain ⟨c', hc', -⟩ := timestamp_civil.1 _ _ _ hlast
  exact ⟨c, c', hc, hc', (timestamp_civil.2 _ _ _ _ _ _ c c' hfirst hlast hc hc').2.mp (by decide)⟩

end ProviiCrypto
