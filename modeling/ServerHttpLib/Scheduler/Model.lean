import ServerHttpLib.Lib.Civil

/-!
# Points in time (`Scheduler`)

A `time_point` is a number of nanoseconds, a `time_t` one of seconds, both since 1970-01-01 00:00:00
UTC.  `localtime` and `mktime` of the C library are given by the time zone.
-/

namespace ServerHttpLib
open Civil

namespace Scheduler

def seconds (n : Int) : Int := n * 1000000000

def minutes (n : Int) : Int := seconds (60 * n)

def hours (n : Int) : Int := minutes (60 * n)

/-- `to_time_t`: a `duration_cast`, which rounds towards zero -/
def toTimeT (tp : Int) : Int := tp.tdiv 1000000000

/-- the second that an instant lies in -/
def secondOf (tp : Int) : Int := tp / 1000000000

def fromTimeT (tt : Int) : Int := seconds tt

/-- `to_time_t` gives the second of the instant, or the next one where the instant has a part of a
second and lies before the epoch -/
theorem toTimeT_cases (tp : Int) : toTimeT tp = secondOf tp ∨
    (toTimeT tp = secondOf tp + 1 ∧ toTimeT tp ≤ 0 ∧ fromTimeT (secondOf tp) < tp) := by
  have h := Int.tdiv_eq_ediv (a := tp) (b := 1000000000)
  unfold toTimeT fromTimeT secondOf seconds
  split at h
  · left
    omega
  · next hneg =>
    right
    have hsign : Int.sign 1000000000 = 1 := rfl
    omega

theorem toTimeT_of_part {tp : Int} (hneg : tp < 0) (hpart : fromTimeT (secondOf tp) < tp) :
    toTimeT tp = secondOf tp + 1 := by
  have h := Int.tdiv_eq_ediv (a := tp) (b := 1000000000)
  have hndvd : ¬ (0 ≤ tp ∨ (1000000000 : Int) ∣ tp) := by
    unfold fromTimeT secondOf seconds at hpart
    omega
  rw [if_neg hndvd] at h
  exact h

/-- `std::tm`: the months and the days of the week are counted from 0, the years from 1900 -/
structure Tm where
  tmSec : Int
  tmMin : Int
  tmHour : Int
  tmMday : Int
  tmMon : Int
  tmYear : Int
  tmWday : Int
  tmIsdst : Int
  deriving DecidableEq, Repr

/-- `std::localtime` and `std::mktime` -/
structure LocalTime where
  localtime : Int → Tm
  mktime : Tm → Int

section
variable (lt : LocalTime) (now : Int)

def getLeaguePeriod : Int := seconds (3600 * 24 * 7)

def getMidnight : Int :=
  let tt := toTimeT now
  let localTm := lt.localtime tt
  fromTimeT (lt.mktime { localTm with tmHour := 0, tmMin := 0, tmSec := 0 })

def getNextMidnight : Int := getMidnight lt now + hours 24

def nextDailyPoint (hour munutes secs : Int) : Int :=
  let nowTm := lt.localtime (toTimeT now)
  let desiredTime := fromTimeT
    (lt.mktime { nowTm with tmHour := hour, tmMin := munutes, tmSec := secs })
  if desiredTime ≤ now then desiredTime + hours 24 else desiredTime

/-- `days_to_add` of `next_weekly_point`; `%` takes the sign of the dividend -/
def daysToAdd (localTm : Tm) (targetWday timeOfDay : Int) : Int :=
  let days := Int.tmod (targetWday - localTm.tmWday + 7) 7
  if days = 0 then
    let nowDaySeconds := hours localTm.tmHour + minutes localTm.tmMin + seconds localTm.tmSec
    if timeOfDay ≤ nowDaySeconds then 7 else days
  else days

def nextWeeklyPoint (targetWday hour munutes secs : Int) : Int :=
  let timeOfDay := hours hour + minutes munutes + seconds secs
  let localTm := lt.localtime (toTimeT now)
  let days := daysToAdd localTm targetWday timeOfDay
  let baseDay := lt.mktime { localTm with
    tmHour := 0, tmMin := 0, tmSec := 0, tmMday := localTm.tmMday + days }
  fromTimeT baseDay + timeOfDay

def currentWeekPoint : Int := nextWeeklyPoint lt now (-6) 0 0 0

def nextWeekPoint : Int := nextWeeklyPoint lt now 1 0 0 0

def getLeagueStartTime : Int := currentWeekPoint lt now

def getLeagueFinishTime : Int := nextWeekPoint lt now

end

/-- the calendar and clock fields of a number of seconds since 1970-01-01 00:00:00 local time -/
def tmOf (l isdst : Int) : Tm :=
  let date := civilFromDays (l / 86400)
  { tmSec := l % 60
    tmMin := l % 3600 / 60
    tmHour := l % 86400 / 3600
    tmMday := date.day
    tmMon := date.month - 1
    tmYear := date.year - 1900
    tmWday := (l / 86400 + 4) % 7  -- the epoch was a Thursday
    tmIsdst := isdst }

/-- the local seconds that the fields stand for.  They need not be in range; the day of the week is
not read. -/
def secondsOf (tm : Tm) : Int :=
  86400 * daysFromCivil ⟨1900 + tm.tmYear + tm.tmMon / 12, tm.tmMon % 12 + 1, tm.tmMday⟩
    + 3600 * tm.tmHour + 60 * tm.tmMin + tm.tmSec

/-- a time zone: what is added to UTC, and whether daylight saving time is in force -/
structure Zone where
  offset : Int → Int
  isdst : Int → Int

def Zone.localSeconds (z : Zone) (t : Int) : Int := t + z.offset t

def Zone.localtime (z : Zone) (t : Int) : Tm := tmOf (z.localSeconds t) (z.isdst t)

/-- a zone whose offset never changes -/
def fixedOffset (offset : Int) : LocalTime :=
  { localtime := Zone.localtime ⟨fun _ => offset, fun _ => 0⟩
    mktime tm := secondsOf tm - offset }

section
variable (l isdst : Int)

theorem tmOf_tmWday : (tmOf l isdst).tmWday = (l / 86400 + 4) % 7 := rfl

/-- the date of the fields is that of the day -/
theorem daysFromCivil_tmOf (k : Int) : daysFromCivil
    ⟨1900 + (tmOf l isdst).tmYear + (tmOf l isdst).tmMon / 12, (tmOf l isdst).tmMon % 12 + 1,
      (tmOf l isdst).tmMday + k⟩ = l / 86400 + k := by
  obtain ⟨h1, h12⟩ := civilFromDays_month (l / 86400)
  have hmon : (tmOf l isdst).tmMon = (civilFromDays (l / 86400)).month - 1 := rfl
  have hyear : 1900 + (tmOf l isdst).tmYear + (tmOf l isdst).tmMon / 12
      = (civilFromDays (l / 86400)).year := by
    have : (tmOf l isdst).tmYear = (civilFromDays (l / 86400)).year - 1900 := rfl
    omega
  have hmonth : (tmOf l isdst).tmMon % 12 + 1 = (civilFromDays (l / 86400)).month := by omega
  rw [hyear, hmonth, daysFromCivil_add]
  exact congrArg (· + k) (daysFromCivil_civilFromDays (l / 86400))

/-- what `mktime` reads of fields with the date of `l`, some days added to it -/
theorem secondsOf_of_date (k : Int) {tm : Tm} (hyear : tm.tmYear = (tmOf l isdst).tmYear)
    (hmon : tm.tmMon = (tmOf l isdst).tmMon) (hmday : tm.tmMday = (tmOf l isdst).tmMday + k) :
    secondsOf tm = 86400 * (l / 86400 + k) + 3600 * tm.tmHour + 60 * tm.tmMin + tm.tmSec := by
  unfold secondsOf
  rw [hyear, hmon, hmday, daysFromCivil_tmOf]

theorem secondsOf_of_today {tm : Tm} (hyear : tm.tmYear = (tmOf l isdst).tmYear)
    (hmon : tm.tmMon = (tmOf l isdst).tmMon) (hmday : tm.tmMday = (tmOf l isdst).tmMday) :
    secondsOf tm = 86400 * (l / 86400) + 3600 * tm.tmHour + 60 * tm.tmMin + tm.tmSec := by
  have h := secondsOf_of_date l isdst 0 hyear hmon (hmday.trans (Int.add_zero _).symm)
  rwa [Int.add_zero] at h

end

end Scheduler

end ServerHttpLib
