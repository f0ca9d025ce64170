import Mathlib.Order.Defs.LinearOrder

/-!
# The civil calendar

Dates of the proleptic Gregorian calendar and day numbers, day 0 being 1970-01-01.  Years are
counted from March, so that the leap day ends its year.

* `daysFromCivil`, `civilFromDays`   the two conversions;
* `civilFromDays_month`              the month is one of the twelve;
* `daysFromCivil_civilFromDays`      the date of a day has that day's number;
* `daysFromCivil_add`                the day of the month may be out of range and is carried over.
-/

namespace Civil

structure Date where
  year : Int
  month : Int
  day : Int
deriving DecidableEq, Repr

/-- months since March -/
def marchIndex (month : Int) : Int := (month + 9) % 12

def monthOfIndex (mp : Int) : Int := if mp < 10 then mp + 3 else mp - 9

/-- the number of days from 1 March to the first of a month -/
def daysBefore (mp : Int) : Int := (153 * mp + 2) / 5

/-- the number of days from 0000-03-01 to the first of March of a year -/
def daysBeforeYear (y : Int) : Int := 365 * y + y / 4 - y / 100 + y / 400

def Date.marchYear (d : Date) : Int := if d.month ≤ 2 then d.year - 1 else d.year

def daysFromCivil (d : Date) : Int :=
  daysBeforeYear d.marchYear + daysBefore (marchIndex d.month) + (d.day - 1) - 719468

/-- a day number counted from 0000-03-01, taken apart: the 400 years, the century in them, the four
years in it, the year in them, the day of the year -/
structure Parts where
  era : Int
  century : Int
  quad : Int
  year : Int
  day : Int

/-- the last century of an era and the last year of four are the long ones -/
def partsOf (n : Int) : Parts :=
  let doe := n % 146097
  let century := min (doe / 36524) 3
  let r := doe - 36524 * century
  let year := min (r % 1461 / 365) 3
  ⟨n / 146097, century, r / 1461, year, r % 1461 - 365 * year⟩

def Parts.years (p : Parts) : Int := 400 * p.era + 100 * p.century + 4 * p.quad + p.year

def Parts.monthIndex (p : Parts) : Int := (5 * p.day + 2) / 153

def civilFromDays (z : Int) : Date :=
  let p := partsOf (z + 719468)
  let month := monthOfIndex p.monthIndex
  ⟨if month ≤ 2 then p.years + 1 else p.years, month, p.day - daysBefore p.monthIndex + 1⟩

example : civilFromDays 19782 = ⟨2024, 2, 29⟩ := by decide

structure Parts.Ok (p : Parts) : Prop where
  century : 0 ≤ p.century ∧ p.century ≤ 3
  quad : 0 ≤ p.quad ∧ p.quad ≤ 24
  year : 0 ≤ p.year ∧ p.year ≤ 3
  day : 0 ≤ p.day ∧ p.day ≤ 365

theorem partsOf_ok (n : Int) : (partsOf n).Ok := by
  constructor <;> simp only [partsOf] <;> omega

theorem partsOf_sum (n : Int) : 146097 * (partsOf n).era + 36524 * (partsOf n).century
    + 1461 * (partsOf n).quad + 365 * (partsOf n).year + (partsOf n).day = n := by
  simp only [partsOf]
  omega

theorem Parts.Ok.daysBeforeYear_years {p : Parts} (h : p.Ok) : daysBeforeYear p.years
    = 146097 * p.era + 36524 * p.century + 1461 * p.quad + 365 * p.year := by
  obtain ⟨hc, hq, hy, -⟩ := h
  unfold daysBeforeYear Parts.years
  omega

theorem Parts.Ok.monthIndex_range {p : Parts} (h : p.Ok) :
    0 ≤ p.monthIndex ∧ p.monthIndex < 12 := by
  have := h.day
  unfold Parts.monthIndex
  omega

theorem monthOfIndex_range {mp : Int} (h : 0 ≤ mp ∧ mp < 12) :
    1 ≤ monthOfIndex mp ∧ monthOfIndex mp ≤ 12 := by
  unfold monthOfIndex
  omega

theorem marchIndex_monthOfIndex {mp : Int} (h : 0 ≤ mp ∧ mp < 12) :
    marchIndex (monthOfIndex mp) = mp := by
  unfold marchIndex monthOfIndex
  omega

theorem civilFromDays_month (z : Int) :
    1 ≤ (civilFromDays z).month ∧ (civilFromDays z).month ≤ 12 :=
  monthOfIndex_range (partsOf_ok _).monthIndex_range

theorem civilFromDays_marchYear (z : Int) :
    (civilFromDays z).marchYear = (partsOf (z + 719468)).years := by
  unfold Date.marchYear civilFromDays
  dsimp only
  split
  · exact Int.add_sub_cancel _ _
  · rfl

theorem daysFromCivil_civilFromDays (z : Int) : daysFromCivil (civilFromDays z) = z := by
  have hok := partsOf_ok (z + 719468)
  have hsum := partsOf_sum (z + 719468)
  have hi : marchIndex (civilFromDays z).month = (partsOf (z + 719468)).monthIndex :=
    marchIndex_monthOfIndex hok.monthIndex_range
  have hday : (civilFromDays z).day = (partsOf (z + 719468)).day
      - daysBefore (partsOf (z + 719468)).monthIndex + 1 := rfl
  unfold daysFromCivil
  rw [civilFromDays_marchYear, hok.daysBeforeYear_years, hi, hday]
  omega

theorem daysFromCivil_add (y m d k : Int) :
    daysFromCivil ⟨y, m, d + k⟩ = daysFromCivil ⟨y, m, d⟩ + k := by
  unfold daysFromCivil Date.marchYear
  dsimp only
  omega

end Civil
