import Mathlib.Algebra.BigOperators.Group.List.Basic
import Mathlib.Algebra.Order.BigOperators.Group.List
import Mathlib.Tactic.IntervalCases
import Mathlib.Tactic.Linarith
import Mathlib.Tactic.Ring

/-!
# The proleptic Gregorian calendar

Years are astronomically numbered, months count from one, and days are counted from 1970-01-01.

* `daysFromCivil`: the days of the years before, of the months before, and of the month so far.
* `daysFromCivil_lt`: later dates have greater counts.
* `daysFromCivil_march`: counting from the first of March, months have the lengths of a linear
  function and the leap day is the last of its year.
* `exists_cycle`: a day of the cycle of 400 years in centuries, spans of four years, years and
  days.
-/

namespace ProviiCrypto.Number.Calendar

/-- Every fourth year is a leap year, but of the centuries every fourth only. -/
def IsLeap (y : ℤ) : Prop := y % 4 = 0 ∧ (y % 100 ≠ 0 ∨ y % 400 = 0)

instance (y : ℤ) : Decidable (IsLeap y) := inferInstanceAs (Decidable (_ ∧ _))

/-- The days of a year. -/
def yearLength (y : ℤ) : ℤ := if IsLeap y then 366 else 365

/-- The days of a month. -/
def monthLength (y m : ℤ) : ℤ :=
  if m = 2 then if IsLeap y then 29 else 28
  else if m = 4 ∨ m = 6 ∨ m = 9 ∨ m = 11 then 30
  else 31

/-- The days from 1970-01-01 to the first of January of a year. -/
def yearStart (y : ℤ) : ℤ := 365 * (y - 1970) + ((y - 1) / 4 - (y - 1) / 100 + (y - 1) / 400 - 477)

/-- The days of a year before a month. -/
def monthStart (y m : ℤ) : ℤ :=
  ((List.range (m - 1).toNat).map fun i : ℕ => monthLength y (i + 1)).sum

/-- The days from 1970-01-01 to a date. -/
def daysFromCivil (y m d : ℤ) : ℤ := yearStart y + monthStart y m + (d - 1)

/-- The month and day exist in the year. -/
def ValidDate (y m d : ℤ) : Prop := (1 ≤ m ∧ m ≤ 12) ∧ 1 ≤ d ∧ d ≤ monthLength y m

/-! ## Years and months follow each other -/

example : yearStart 1970 = 0 := by decide

theorem yearStart_succ (y : ℤ) : yearStart (y + 1) = yearStart y + yearLength y := by
  unfold yearStart yearLength IsLeap
  split_ifs with h <;> omega

theorem yearStart_mono {y y' : ℤ} (h : y ≤ y') : yearStart y ≤ yearStart y' := by
  induction y', h using Int.leInduction with
  | base => exact le_rfl
  | succ z _ ih =>
    rw [yearStart_succ]
    unfold yearLength
    split_ifs <;> omega

theorem monthStart_succ {y m : ℤ} (hm : 1 ≤ m) :
    monthStart y (m + 1) = monthStart y m + monthLength y m := by
  have hnat : (m + 1 - 1).toNat = (m - 1).toNat + 1 := by omega
  have hcast : (((m - 1).toNat : ℕ) : ℤ) + 1 = m := by omega
  unfold monthStart
  rw [hnat, List.range_succ, List.map_append, List.sum_append, List.map_singleton,
    List.sum_singleton, hcast]

theorem monthLength_nonneg (y m : ℤ) : 0 ≤ monthLength y m := by
  unfold monthLength
  split_ifs <;> omega

/-- A month ends before a later one begins. -/
theorem monthStart_add_le {y m m' : ℤ} (hm : 1 ≤ m) (hlt : m < m') :
    monthStart y m + monthLength y m ≤ monthStart y m' := by
  induction m', Int.add_one_le_iff.mpr hlt using Int.leInduction with
  | base => exact (monthStart_succ hm).ge
  | succ k hk ih =>
    rw [monthStart_succ (by omega)]
    have hlen := monthLength_nonneg y k
    have hle := ih (by omega)
    omega

/-- The twelve months make the year. -/
theorem monthStart_thirteen (y : ℤ) : monthStart y 13 = yearLength y := by
  unfold monthStart yearLength
  rw [show (13 - 1 : ℤ).toNat = 12 from rfl]
  unfold monthLength
  by_cases h : IsLeap y
  · simp [List.range_succ, h]
  · simp [List.range_succ, h]

/-- A date is a day of its year. -/
theorem ValidDate.dayOfYear_lt {y m d : ℤ} (h : ValidDate y m d) :
    0 ≤ monthStart y m + (d - 1) ∧ monthStart y m + (d - 1) < yearLength y := by
  obtain ⟨⟨hm, hm'⟩, hd, hd'⟩ := h
  have hend := monthStart_add_le (y := y) hm (by omega : m < 13)
  have hstart : 0 ≤ monthStart y m := by
    unfold monthStart
    exact List.sum_nonneg (by
      intro k hk
      obtain ⟨i, -, rfl⟩ := List.mem_map.mp hk
      exact monthLength_nonneg y _)
  rw [monthStart_thirteen] at hend
  omega

/-- **Later dates have greater counts.** -/
theorem daysFromCivil_lt {y m d y' m' d' : ℤ} (h : ValidDate y m d) (h' : ValidDate y' m' d')
    (hlt : y < y' ∨ y = y' ∧ (m < m' ∨ m = m' ∧ d < d')) :
    daysFromCivil y m d < daysFromCivil y' m' d' := by
  unfold daysFromCivil
  rcases hlt with hy | ⟨rfl, hm | ⟨rfl, hd⟩⟩
  · have hday := h.dayOfYear_lt
    have hday' := h'.dayOfYear_lt
    have hyear := yearStart_mono (Int.add_one_le_iff.mpr hy)
    rw [yearStart_succ] at hyear
    omega
  · have hmonth := monthStart_add_le (y := y) h.1.1 hm
    have hd := h.2.2
    have hd' := h'.2.1
    omega
  · omega

/-! ## Counting from March -/

/-- The days from 1970-01-01 to the first of March of a year. -/
def marchStart (y : ℤ) : ℤ := 365 * y + y / 4 - y / 100 + y / 400 - 719468

/-- The days from the first of March to the first of the month `mp` months later. -/
def marchMonthStart (mp : ℤ) : ℤ := (153 * mp + 2) / 5

theorem monthLength_eq_sub {y m : ℤ} (h3 : 3 ≤ m) (h12 : m ≤ 11) :
    monthLength y m = marchMonthStart (m + 1 - 3) - marchMonthStart (m - 3) := by
  unfold monthLength
  interval_cases m <;> rfl

/-- The months from March on have the lengths of a linear function, rounded down. -/
theorem monthStart_march {y m : ℤ} (h3 : 3 ≤ m) (h12 : m ≤ 12) :
    monthStart y m = monthStart y 3 + marchMonthStart (m - 3) := by
  induction m, h3 using Int.leInduction with
  | base => exact (add_zero _).symm
  | succ m h3 ih =>
    rw [monthStart_succ (by omega), ih (by omega), monthLength_eq_sub h3 (by omega)]
    ring

theorem monthStart_one (y : ℤ) : monthStart y 1 = 0 := rfl

theorem monthStart_two (y : ℤ) : monthStart y 2 = 31 := by
  rw [show (2 : ℤ) = 1 + 1 from rfl, monthStart_succ le_rfl, monthStart_one]
  rfl

theorem yearStart_add_monthStart_three (y : ℤ) : yearStart y + monthStart y 3 = marchStart y := by
  have hlength : monthLength y 2 = if IsLeap y then 29 else 28 := rfl
  rw [show (3 : ℤ) = 2 + 1 from rfl, monthStart_succ (by norm_num), monthStart_two, hlength]
  unfold yearStart marchStart IsLeap
  split_ifs with h <;> omega

theorem yearStart_succ_eq (y : ℤ) : yearStart (y + 1) = marchStart y + 306 := by
  unfold yearStart marchStart
  omega

/-- **Counting from March**: March to December belong to the year the count began in. -/
theorem daysFromCivil_march {y m d : ℤ} (h3 : 3 ≤ m) (h12 : m ≤ 12) :
    daysFromCivil y m d = marchStart y + marchMonthStart (m - 3) + (d - 1) := by
  unfold daysFromCivil
  rw [monthStart_march h3 h12, ← yearStart_add_monthStart_three]
  ring

/-- January and February end the year that began in the March before. -/
theorem daysFromCivil_march_succ {y m d : ℤ} (h1 : 1 ≤ m) (h2 : m ≤ 2) :
    daysFromCivil (y + 1) m d = marchStart y + marchMonthStart (m + 9) + (d - 1) := by
  have hstart : monthStart (y + 1) m = marchMonthStart (m + 9) - 306 := by
    obtain rfl | rfl : m = 1 ∨ m = 2 := by omega
    · rfl
    · exact monthStart_two _
  unfold daysFromCivil
  rw [hstart, yearStart_succ_eq]
  ring

/-- The month of a day, counted from March. -/
theorem marchMonthStart_le {t mp : ℤ} (hmp : mp = (5 * t + 2) / 153) :
    marchMonthStart mp ≤ t ∧ t < marchMonthStart (mp + 1) := by
  unfold marchMonthStart
  omega

/-- **The date of a day of a year that begins in March.** -/
theorem civil_of_march {y t mp m d year : ℤ} (ht : 0 ≤ t) (ht' : t ≤ 365)
    (hleap : t = 365 → IsLeap (y + 1)) (hmp : mp = (5 * t + 2) / 153)
    (hd : d = t - marchMonthStart mp + 1) (hm : m = if mp < 10 then mp + 3 else mp - 9)
    (hyear : year = if m ≤ 2 then y + 1 else y) :
    ValidDate year m d ∧ daysFromCivil year m d = marchStart y + t := by
  obtain ⟨hstart, hend⟩ := marchMonthStart_le hmp
  by_cases hlate : mp < 10
  · rw [if_pos hlate] at hm
    obtain rfl : year = y := by rw [hyear, if_neg (by omega)]
    obtain rfl : mp = m - 3 := by omega
    refine ⟨⟨by omega, ?_⟩, ?_⟩
    · -- March to December
      by_cases hdec : m = 12
      · subst hdec
        have hnov : marchMonthStart (12 - 3) = 275 := rfl
        have hlen : monthLength year 12 = 31 := rfl
        rw [hnov] at hd
        have hlast : t < 306 := hend
        omega
      · rw [monthLength_eq_sub (by omega) (by omega), show m + 1 - 3 = m - 3 + 1 by ring]
        omega
    · rw [daysFromCivil_march (by omega) (by omega), hd]
      ring
  · rw [if_neg hlate] at hm
    obtain rfl : year = y + 1 := by rw [hyear, if_pos (by omega)]
    obtain rfl : mp = m + 9 := by omega
    refine ⟨⟨by omega, ?_⟩, ?_⟩
    · -- January, and February with its leap day
      obtain rfl | rfl : m = 1 ∨ m = 2 := by omega
      · have hjan : marchMonthStart (1 + 9) = 306 := rfl
        have hfeb : marchMonthStart (1 + 9 + 1) = 337 := rfl
        have hlen : monthLength (y + 1) 1 = 31 := rfl
        omega
      · have hfeb : marchMonthStart (2 + 9) = 337 := rfl
        have hlen : monthLength (y + 1) 2 = if IsLeap (y + 1) then 29 else 28 := rfl
        by_cases hlast : t = 365
        · rw [hlen, if_pos (hleap hlast)]
          omega
        · split_ifs at hlen <;> omega
    · rw [daysFromCivil_march_succ (by omega) (by omega), hd]
      ring

/-! ## The cycle of 400 years -/

/-- A day of the cycle, counted from March: `c` centuries, `q` spans of four years, `a` years and
`t` days. Only the last year of a span has a day 365, and of the last spans of the centuries only
the cycle's. -/
structure CycleDay (doe c q a t : ℤ) : Prop where
  century : 0 ≤ c ∧ c ≤ 3
  span : 0 ≤ q ∧ q ≤ 24
  year : 0 ≤ a ∧ a ≤ 3
  day : 0 ≤ t ∧ t ≤ 365
  last : t = 365 → a = 3 ∧ (q = 24 → c = 3)
  eq : doe = 36524 * c + 1461 * q + 365 * a + t

theorem exists_cycle {doe : ℤ} (h0 : 0 ≤ doe) (hlt : doe < 146097) :
    ∃ c q a t, CycleDay doe c q a t := by
  by_cases hlast : doe = 146096
  · exact ⟨3, 24, 3, 365, by omega, by omega, by omega, by omega, by omega, by omega⟩
  by_cases hleap : doe % 36524 % 1461 = 1460
  · exact ⟨doe / 36524, doe % 36524 / 1461, 3, 365, by omega, by omega, by omega, by omega, by omega,
      by omega⟩
  · exact ⟨doe / 36524, doe % 36524 / 1461, doe % 36524 % 1461 / 365, doe % 36524 % 1461 % 365,
      by omega, by omega, by omega, by omega, by omega, by omega⟩

namespace CycleDay

variable {doe c q a t : ℤ}

/-- Dropping the leap days leaves years of 365 days. -/
theorem yearOfEra (h : CycleDay doe c q a t) :
    (doe - doe / 1460 + doe / 36524 - doe / 146096) / 365 = 100 * c + 4 * q + a := by
  obtain ⟨hc, hq, ha, ht, hlast, heq⟩ := h
  by_cases hend : doe = 146096
  · -- the leap day that ends the cycle
    subst hend
    have hc : c = 3 := by omega
    have hq : q = 24 := by omega
    have ha : a = 3 := by omega
    rw [hc, hq, ha]
    rfl
  -- the leap days before: one for each span, but for the last ones of the centuries
  have hspans : doe / 1460 = 25 * c + q + (24 * c + q + 365 * a + t) / 1460 := by omega
  have hextra : (24 * c + q + 365 * a + t) / 1460 = 0 ∨ (24 * c + q + 365 * a + t) / 1460 = 1 := by
    omega
  have hcenturies : doe / 36524 = c := by omega
  have hcycle : doe / 146096 = 0 := by omega
  rw [hspans, hcenturies, hcycle]
  rcases hextra with hextra | hextra
  · rw [hextra]
    omega
  · rw [hextra]
    omega

/-- What the years before leave of the days. -/
theorem dayOfYear (h : CycleDay doe c q a t) :
    doe - (365 * (100 * c + 4 * q + a) + (100 * c + 4 * q + a) / 4 - (100 * c + 4 * q + a) / 100) =
      t := by
  obtain ⟨hc, hq, ha, ht, hlast, rfl⟩ := h
  have hfour : (100 * c + 4 * q + a) / 4 = 25 * c + q := by omega
  have hhundred : (100 * c + 4 * q + a) / 100 = c := by omega
  rw [hfour, hhundred]
  ring

/-- A year with a day 365 ends in a leap year's February. -/
theorem isLeap (h : CycleDay doe c q a t) (era : ℤ) (ht : t = 365) :
    IsLeap (100 * c + 4 * q + a + era * 400 + 1) := by
  obtain ⟨hc, hq, ha, -, hlast, -⟩ := h
  unfold IsLeap
  omega

/-- The cycles repeat. -/
theorem marchStart_add (h : CycleDay doe c q a t) (era : ℤ) :
    marchStart (100 * c + 4 * q + a + era * 400) + t = era * 146097 + doe - 719468 := by
  obtain ⟨hc, hq, ha, ht, hlast, rfl⟩ := h
  have hfour : (100 * c + 4 * q + a + era * 400) / 4 = 25 * c + q + era * 100 := by omega
  have hhundred : (100 * c + 4 * q + a + era * 400) / 100 = c + era * 4 := by omega
  have hcycle : (100 * c + 4 * q + a + era * 400) / 400 = era := by omega
  unfold marchStart
  rw [hfour, hhundred, hcycle]
  ring

end CycleDay

end ProviiCrypto.Number.Calendar
