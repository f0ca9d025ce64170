import Mathlib.Algebra.Order.Group.Int
import Mathlib.Data.Int.ModEq
import ServerHttpLib.Lib.Recurrence
import ServerHttpLib.Scheduler.Model

/-!
# The next daily and weekly point

In a zone with a fixed offset the points of a weekday and a time of day recur every 604800 seconds,
those of a time of day every 86400.  `next_daily_point` compares its point with `now`, and finds the
next one.  `next_weekly_point` compares seconds, which `to_time_t` has rounded up before the epoch.

* `weekly_iff`, `daily_iff`       the recurring instants, as residues of local seconds;
* `daysToAdd_next`                the day that the code picks has the weekday, and is the first one
                                  whose point is still to come;
* `nextPointsRight_iff`           both functions return the least instant after `now`, unless the
                                  weekly one is overlooked;
* `leagueContains_iff`            the league contains `now`, except on a Sunday and on a Monday.
-/

namespace ServerHttpLib

namespace Scheduler

/-- an instant at exactly this local time of day -/
def Daily (lt : LocalTime) (hour minute second : Int) (tp : Int) : Prop :=
  ∃ t, fromTimeT t = tp ∧ (lt.localtime t).tmHour = hour ∧ (lt.localtime t).tmMin = minute
    ∧ (lt.localtime t).tmSec = second

/-- an instant of this local weekday at exactly this time of day -/
def Weekly (lt : LocalTime) (wday hour minute second : Int) (tp : Int) : Prop :=
  ∃ t, fromTimeT t = tp ∧ (lt.localtime t).tmWday = wday ∧ (lt.localtime t).tmHour = hour
    ∧ (lt.localtime t).tmMin = minute ∧ (lt.localtime t).tmSec = second

structure TimeOfDay (hour minute second : Int) : Prop where
  hour : 0 ≤ hour ∧ hour < 24
  minute : 0 ≤ minute ∧ minute < 60
  second : 0 ≤ second ∧ second < 60

def secondOfDay (hour minute second : Int) : Int := 3600 * hour + 60 * minute + second

theorem fromTimeT_mono {a b : Int} (hab : a ≤ b) : fromTimeT a ≤ fromTimeT b := by
  unfold fromTimeT seconds
  omega

theorem secondOf_lt_iff (now t : Int) : secondOf now < t ↔ now < fromTimeT t := by
  unfold secondOf fromTimeT seconds
  omega

theorem fromTimeT_le_iff (now t : Int) : fromTimeT t ≤ now ↔ t ≤ secondOf now := by
  rw [← not_lt, ← secondOf_lt_iff, not_lt]

/-- the sub-second part only makes the distance shorter -/
theorem fromTimeT_le_add {now t k : Int} (h : t ≤ secondOf now + k) :
    fromTimeT t ≤ now + seconds k := by
  unfold secondOf at h
  unfold fromTimeT seconds
  omega

theorem timeOfDay_eq (h m s : Int) :
    hours h + minutes m + seconds s = seconds (secondOfDay h m s) := by
  unfold hours minutes seconds secondOfDay
  omega

theorem TimeOfDay.secondOfDay_range {h m s : Int} (hv : TimeOfDay h m s) :
    0 ≤ secondOfDay h m s ∧ secondOfDay h m s < 86400 := by
  obtain ⟨hh, hm, hs⟩ := hv
  unfold secondOfDay
  omega

theorem fields_iff {h m s : Int} (hv : TimeOfDay h m s) (l isdst : Int) :
    ((tmOf l isdst).tmHour = h ∧ (tmOf l isdst).tmMin = m ∧ (tmOf l isdst).tmSec = s)
      ↔ l % 86400 = secondOfDay h m s := by
  obtain ⟨hh, hm, hs⟩ := hv
  show (l % 86400 / 3600 = h ∧ l % 3600 / 60 = m ∧ l % 60 = s) ↔ _
  unfold secondOfDay
  omega

section
variable (offset : Int) {h m s : Int} (hv : TimeOfDay h m s)
include hv

theorem daily_iff {t : Int} (ht : (t + offset) % 86400 = secondOfDay h m s) (tp : Int) :
    Daily (fixedOffset offset) h m s tp ↔ ∃ u, fromTimeT u = tp ∧ u ≡ t [PMOD 86400] := by
  refine exists_congr fun u => and_congr_right fun _ => ?_
  refine (fields_iff hv (u + offset) 0).trans ?_
  rw [AddCommGroup.modEq_iff_intModEq, ← ht]
  unfold Int.ModEq
  omega

theorem weekly_iff {w t : Int} (hw : ((t + offset) / 86400 + 4) % 7 = w)
    (ht : (t + offset) % 86400 = secondOfDay h m s) (tp : Int) :
    Weekly (fixedOffset offset) w h m s tp ↔ ∃ u, fromTimeT u = tp ∧ u ≡ t [PMOD 604800] := by
  refine exists_congr fun u => and_congr_right fun _ => ?_
  refine (and_congr_right fun _ => fields_iff hv (u + offset) 0).trans ?_
  show ((u + offset) / 86400 + 4) % 7 = w ∧ _ ↔ _
  rw [AddCommGroup.modEq_iff_intModEq, ← hw, ← ht]
  unfold Int.ModEq
  omega

end

/-- the next instant of a recurring kind, from the seconds to the instants -/
theorem isLeast_fromTimeT {now t p : Int} (hlt : secondOf now < t) (hle : t ≤ secondOf now + p) :
    IsLeast {tp | now < tp ∧ ∃ u, fromTimeT u = tp ∧ u ≡ t [PMOD p]} (fromTimeT t)
      ∧ fromTimeT t ≤ now + seconds p :=
  ⟨Recurrence.isLeast_image (fun _ _ => fromTimeT_mono) (secondOf_lt_iff now)
    (Recurrence.isLeast_of_modEq hlt hle), fromTimeT_le_add hle⟩

theorem nowDaySeconds_eq (l isdst : Int) : hours (tmOf l isdst).tmHour
    + minutes (tmOf l isdst).tmMin + seconds (tmOf l isdst).tmSec = seconds (l % 86400) := by
  rw [timeOfDay_eq]
  show seconds (3600 * (l % 86400 / 3600) + 60 * (l % 3600 / 60) + l % 60) = _
  congr 1
  omega

/-- the weekday is that of the target, and the point on the day is the first to come -/
theorem daysToAdd_next {w sod : Int} (hw : 0 ≤ w ∧ w ≤ 6) (hsod : 0 ≤ sod ∧ sod < 86400)
    (l : Int) : ∃ k, daysToAdd (tmOf l 0) w (seconds sod) = k ∧ (l / 86400 + k + 4) % 7 = w
      ∧ l < 86400 * (l / 86400 + k) + sod ∧ 86400 * (l / 86400 + k) + sod ≤ l + 604800 := by
  unfold daysToAdd
  rw [nowDaySeconds_eq, tmOf_tmWday, Int.tmod_eq_emod_of_nonneg (by omega)]
  dsimp only
  by_cases h0 : (w - (l / 86400 + 4) % 7 + 7) % 7 = 0
  · rw [if_pos h0]
    by_cases hle : seconds sod ≤ seconds (l % 86400)
    · rw [if_pos hle]
      unfold seconds at hle
      exact ⟨7, rfl, by omega, by omega, by omega⟩
    · rw [if_neg hle, h0]
      unfold seconds at hle
      exact ⟨0, rfl, by omega, by omega, by omega⟩
  · rw [if_neg h0]
    exact ⟨_, rfl, by omega, by omega, by omega⟩

section
variable (offset now : Int)

theorem nextWeeklyPoint_eq (w h m s : Int) :
    nextWeeklyPoint (fixedOffset offset) now w h m s = fromTimeT
      (86400 * ((toTimeT now + offset) / 86400 + daysToAdd (tmOf (toTimeT now + offset) 0) w
        (seconds (secondOfDay h m s))) + secondOfDay h m s - offset) := by
  unfold nextWeeklyPoint
  rw [timeOfDay_eq]
  show fromTimeT (secondsOf _ - offset) + _ = _
  rw [secondsOf_of_date (toTimeT now + offset) 0
    (daysToAdd (tmOf (toTimeT now + offset) 0) w (seconds (secondOfDay h m s)))]
  · unfold fromTimeT seconds
    dsimp only
    omega
  all_goals rfl

theorem nextDailyPoint_next {h m s : Int} (hv : TimeOfDay h m s) :
    ∃ t, nextDailyPoint (fixedOffset offset) now h m s = fromTimeT t
      ∧ (t + offset) % 86400 = secondOfDay h m s ∧ secondOf now < t
      ∧ t ≤ secondOf now + 86400 := by
  have hrange := hv.secondOfDay_range
  have hround := toTimeT_cases now
  have hmk : (fixedOffset offset).mktime { (fixedOffset offset).localtime (toTimeT now) with
      tmHour := h, tmMin := m, tmSec := s }
      = 86400 * ((toTimeT now + offset) / 86400) + secondOfDay h m s - offset := by
    show secondsOf _ - offset = _
    rw [secondsOf_of_today (toTimeT now + offset) 0]
    · unfold secondOfDay
      dsimp only
      omega
    all_goals rfl
  unfold nextDailyPoint
  dsimp only
  rw [hmk]
  simp only [fromTimeT_le_iff]
  split
  · refine ⟨86400 * ((toTimeT now + offset) / 86400) + secondOfDay h m s - offset + 86400,
      ?_, by omega, by omega, by omega⟩
    unfold fromTimeT hours minutes seconds
    omega
  · exact ⟨_, rfl, by omega, by omega, by omega⟩

/-- `next_daily_point` looks at the part of a second of `now` -/
theorem nextDailyPoint_isLeast {h m s : Int} (hv : TimeOfDay h m s) :
    IsLeast {tp | now < tp ∧ Daily (fixedOffset offset) h m s tp}
        (nextDailyPoint (fixedOffset offset) now h m s)
      ∧ nextDailyPoint (fixedOffset offset) now h m s ≤ now + seconds 86400 := by
  obtain ⟨t, ht, hsod, hlt, hle⟩ := nextDailyPoint_next offset now hv
  rw [ht]
  simp only [daily_iff offset hv hsod]
  exact isLeast_fromTimeT hlt hle

/-- the first point of the week behind the second that `to_time_t` gives -/
theorem nextWeeklyPoint_next {w h m s : Int} (hw : 0 ≤ w ∧ w ≤ 6) (hv : TimeOfDay h m s) :
    ∃ t, nextWeeklyPoint (fixedOffset offset) now w h m s = fromTimeT t
      ∧ ((t + offset) / 86400 + 4) % 7 = w ∧ (t + offset) % 86400 = secondOfDay h m s
      ∧ toTimeT now < t ∧ t ≤ toTimeT now + 604800 := by
  have hrange := hv.secondOfDay_range
  obtain ⟨k, hk, hday, hlt, hle⟩ := daysToAdd_next hw hrange (toTimeT now + offset)
  rw [nextWeeklyPoint_eq, hk]
  exact ⟨_, rfl, by omega, by omega, by omega, by omega⟩

/-- a point of the week before the epoch, or at it, comes within less than a second -/
def Overlooked (lt : LocalTime) (now wday hour minute second : Int) : Prop :=
  ∃ tp, Weekly lt wday hour minute second tp ∧ now < tp ∧ tp < now + seconds 1 ∧ tp ≤ 0

/-- it is then the very second that `to_time_t` gives -/
theorem overlooked_iff (w h m s : Int) : Overlooked (fixedOffset offset) now w h m s ↔
    Weekly (fixedOffset offset) w h m s (fromTimeT (toTimeT now))
      ∧ toTimeT now = secondOf now + 1 := by
  constructor
  · rintro ⟨_, ⟨u, rfl, hu⟩, hlt, hnear, hepoch⟩
    have hpart : secondOf now + 1 = u ∧ now < 0 ∧ fromTimeT (secondOf now) < now := by
      unfold fromTimeT seconds at *
      unfold secondOf
      omega
    have ht := toTimeT_of_part hpart.2.1 hpart.2.2
    rw [ht, hpart.1]
    exact ⟨⟨u, rfl, hu⟩, rfl⟩
  · rintro ⟨hpoint, ht⟩
    rcases toTimeT_cases now with h' | ⟨-, hepoch, hpart⟩
    · omega
    · refine ⟨_, hpoint, (secondOf_lt_iff _ _).mp (by omega), ?_, ?_⟩
      · rw [ht]
        unfold fromTimeT seconds at *
        omega
      · unfold fromTimeT seconds
        omega

/-- **`next_weekly_point`** returns the least instant after `now`, unless that one is overlooked -/
theorem nextWeeklyPoint_isLeast {w h m s : Int} (hw : 0 ≤ w ∧ w ≤ 6) (hv : TimeOfDay h m s)
    (hseen : ¬ Overlooked (fixedOffset offset) now w h m s) :
    IsLeast {tp | now < tp ∧ Weekly (fixedOffset offset) w h m s tp}
        (nextWeeklyPoint (fixedOffset offset) now w h m s)
      ∧ nextWeeklyPoint (fixedOffset offset) now w h m s ≤ now + seconds 604800 := by
  obtain ⟨t, ht, hwday, hsod, hlt, hle⟩ := nextWeeklyPoint_next offset now hw hv
  rw [overlooked_iff, weekly_iff offset hv hwday hsod] at hseen
  have hround := toTimeT_cases now
  have hle' : t ≤ secondOf now + 604800 := by
    by_contra hfar
    -- the point a week before is the second that `to_time_t` gives
    refine hseen ⟨⟨_, rfl, ?_⟩, by omega⟩
    rw [AddCommGroup.modEq_iff_intModEq]
    unfold Int.ModEq
    omega
  rw [ht]
  simp only [weekly_iff offset hv hwday hsod]
  exact isLeast_fromTimeT (by omega) hle'

/-- a point that is overlooked comes before the one that is returned -/
theorem nextWeeklyPoint_late {w h m s : Int} (hw : 0 ≤ w ∧ w ≤ 6) (hv : TimeOfDay h m s)
    (ho : Overlooked (fixedOffset offset) now w h m s) :
    ¬ IsLeast {tp | now < tp ∧ Weekly (fixedOffset offset) w h m s tp}
      (nextWeeklyPoint (fixedOffset offset) now w h m s) := by
  rintro ⟨-, hleast⟩
  obtain ⟨t, ht, -, -, hlt, -⟩ := nextWeeklyPoint_next offset now hw hv
  rw [ht] at hleast
  obtain ⟨hpoint, hround⟩ := (overlooked_iff offset now w h m s).mp ho
  have hafter : now < fromTimeT (toTimeT now) := (secondOf_lt_iff _ _).mp (by omega)
  have hle := hleast ⟨hafter, hpoint⟩
  unfold fromTimeT seconds at hle
  omega

/-- both functions return the least instant after `now` at the time asked for -/
structure NextPointsRight (lt : LocalTime) (now wday hour minute second : Int) : Prop where
  weekly : IsLeast {tp | now < tp ∧ Weekly lt wday hour minute second tp}
    (nextWeeklyPoint lt now wday hour minute second)
  daily : IsLeast {tp | now < tp ∧ Daily lt hour minute second tp}
    (nextDailyPoint lt now hour minute second)
  week : nextWeeklyPoint lt now wday hour minute second ≤ now + hours (24 * 7)
  day : nextDailyPoint lt now hour minute second ≤ now + hours 24

/-- **The next points are right** unless the weekly one comes within less than a second, before the
epoch or at it. -/
theorem nextPointsRight_iff {w h m s : Int} (hw : 0 ≤ w ∧ w ≤ 6) (hv : TimeOfDay h m s) :
    NextPointsRight (fixedOffset offset) now w h m s
      ↔ ¬ Overlooked (fixedOffset offset) now w h m s := by
  constructor
  · intro hright ho
    exact nextWeeklyPoint_late offset now hw hv ho hright.weekly
  · intro hseen
    obtain ⟨hweekly, hweek⟩ := nextWeeklyPoint_isLeast offset now hw hv hseen
    obtain ⟨hdaily, hday⟩ := nextDailyPoint_isLeast offset now hv
    exact ⟨hweekly, hdaily, hweek, hday⟩

/-- half a second before the year 2025 begins in UTC, a Tuesday -/
theorem nextPointsRight_new_year :
    nextWeeklyPoint (fixedOffset 0) 1735689599500000000 1 9 30 15 = seconds 1736155815
      ∧ nextDailyPoint (fixedOffset 0) 1735689599500000000 9 30 15 = seconds 1735723815
      ∧ NextPointsRight (fixedOffset 0) 1735689599500000000 1 9 30 15 := by
  have hv : TimeOfDay 9 30 15 := ⟨by decide, by decide, by decide⟩
  refine ⟨by decide, by decide, (nextPointsRight_iff 0 _ (by decide) hv).mpr ?_⟩
  rintro ⟨tp, -, hlt, -, hepoch⟩
  omega

/-- half a second before Thursday, 1 January 1970, in UTC: the point at its midnight is overlooked,
and the one a week later is returned -/
theorem epoch_overlooked : TimeOfDay 0 0 0
    ∧ ¬ NextPointsRight (fixedOffset 0) (-500000000) 4 0 0 0
    ∧ Weekly (fixedOffset 0) 4 0 0 0 0
    ∧ nextWeeklyPoint (fixedOffset 0) (-500000000) 4 0 0 0 = seconds 604800 := by
  have hpoint : Weekly (fixedOffset 0) 4 0 0 0 0 := ⟨0, by decide, by decide⟩
  have hreturned : nextWeeklyPoint (fixedOffset 0) (-500000000) 4 0 0 0 = seconds 604800 := by
    decide
  refine ⟨⟨by decide, by decide, by decide⟩, fun hright => ?_, hpoint, hreturned⟩
  have hle := hright.weekly.2 ⟨by decide, hpoint⟩
  rw [hreturned] at hle
  exact absurd hle (by decide)

/-- a target at midnight that falls on today is always moved, by a week -/
theorem daysToAdd_midnight (l w : Int) : daysToAdd (tmOf l 0) w (seconds (secondOfDay 0 0 0))
    = if (w - (l / 86400 + 4) % 7 + 7).tmod 7 = 0 then 7
      else (w - (l / 86400 + 4) % 7 + 7).tmod 7 := by
  have hle : seconds (secondOfDay 0 0 0) ≤ seconds (l % 86400) := by
    unfold seconds secondOfDay
    omega
  unfold daysToAdd
  dsimp only
  rw [nowDaySeconds_eq, tmOf_tmWday, if_pos hle]

/-- `current_week_point` asks for the weekday -6: the remainder is 1 on Sunday and negative from
Tuesday on -/
theorem tmod_current {d : Int} (hd : 0 ≤ d ∧ d < 7) : (-6 - d + 7).tmod 7 = 1 - d := by
  have : d = 0 ∨ d = 1 ∨ d = 2 ∨ d = 3 ∨ d = 4 ∨ d = 5 ∨ d = 6 := by omega
  rcases this with rfl | rfl | rfl | rfl | rfl | rfl | rfl <;> rfl

/-- the league of `current_week_point` and `next_week_point` contains `now` -/
def LeagueContains (lt : LocalTime) (now : Int) : Prop :=
  currentWeekPoint lt now ≤ now ∧ now < nextWeekPoint lt now
    ∧ nextWeekPoint lt now - currentWeekPoint lt now = getLeaguePeriod
    ∧ getLeagueStartTime lt now ≤ now ∧ now < getLeagueFinishTime lt now

/-- **The league contains `now` exactly if it is neither Sunday nor Monday.** -/
theorem leagueContains_iff : LeagueContains (fixedOffset offset) now
    ↔ ((fixedOffset offset).localtime (toTimeT now)).tmWday ≠ 0
      ∧ ((fixedOffset offset).localtime (toTimeT now)).tmWday ≠ 1 := by
  show _ ↔ ((toTimeT now + offset) / 86400 + 4) % 7 ≠ 0
    ∧ ((toTimeT now + offset) / 86400 + 4) % 7 ≠ 1
  generalize hd : ((toTimeT now + offset) / 86400 + 4) % 7 = d
  have hrange : 0 ≤ d ∧ d < 7 := by omega
  have hround := toTimeT_cases now
  unfold LeagueContains getLeagueStartTime getLeagueFinishTime currentWeekPoint nextWeekPoint
  rw [nextWeeklyPoint_eq, nextWeeklyPoint_eq, daysToAdd_midnight, daysToAdd_midnight, hd,
    tmod_current hrange, Int.tmod_eq_emod_of_nonneg (by omega), fromTimeT_le_iff,
    ← secondOf_lt_iff]
  unfold getLeaguePeriod fromTimeT seconds secondOfDay
  omega

end

/-- on Sunday, 23 March 2025, noon in UTC, the league begins the next day -/
theorem sunday_outside : ¬ LeagueContains (fixedOffset 0) (seconds 1742731200)
    ∧ currentWeekPoint (fixedOffset 0) (seconds 1742731200) = seconds 1742774400 := by
  unfold LeagueContains
  decide

end Scheduler

end ServerHttpLib
