import ServerHttpLib.Scheduler.WeeklyPoint

/-!
# Midnight (`Scheduler::get_midnight`, `get_next_midnight`)

In a zone whose offset changes a day need not have 24 hours, and 00:00:00 may occur twice.
`get_midnight` asks `mktime` for the 00:00:00 of today with the `tm_isdst` of now,
`get_next_midnight` adds 24 hours to it.

* `MayReturn`               what `mktime` makes of fields and a `tm_isdst`;
* `midnightsRight_of_eq`    what the two functions return for a choice of `mktime`;
* `midnightsRight_iff`      they are right exactly if the day is kept (`DayKept`) behind every
                            instant that `mktime` may choose (`MidnightFor`).
-/

namespace ServerHttpLib
open Civil

namespace Scheduler

namespace Zone
variable (z : Zone)

def localDay (t : Int) : Int := z.localSeconds t / 86400

def localTimeOfDay (t : Int) : Int := z.localSeconds t % 86400

/-- every day has a 00:00:00 -/
def EachDayStarts : Prop := ∀ day, ∃ t, z.localSeconds t = 86400 * day

end Zone

/-! ## `mktime` -/

/-- the instant has the given local time, out of range or not, and the given `tm_isdst` -/
def Shows (z : Zone) (tm : Tm) (t : Int) : Prop :=
  z.localSeconds t = secondsOf tm ∧ z.isdst t = tm.tmIsdst

/-- the instant from which the C library takes the offset for a `tm_isdst` that the local time asked
for does not have; that `tm_isdst` is in force there -/
structure Anchor (z : Zone) where
  instant : Tm → Int
  isdst_eq : ∀ tm t, z.isdst t = tm.tmIsdst → z.isdst (instant tm) = tm.tmIsdst

variable (z : Zone) (a : Anchor z)

/-- `mktime` returns an instant with the fields and the `tm_isdst`, if there is one; else it takes
the offset from elsewhere -/
def MayReturn (tm : Tm) (t : Int) : Prop :=
  Shows z tm t ∨ ((∀ u, ¬ Shows z tm u) ∧ t = secondsOf tm - z.offset (a.instant tm))

def Honours (mktime : Tm → Int) : Prop := ∀ tm, MayReturn z a tm (mktime tm)

theorem exists_mayReturn (tm : Tm) : ∃ t, MayReturn z a tm t := by
  by_cases h : ∃ u, Shows z tm u
  · obtain ⟨u, hu⟩ := h
    exact ⟨u, Or.inl hu⟩
  · exact ⟨_, Or.inr ⟨not_exists.mp h, rfl⟩⟩

theorem exists_mktime {tm : Tm} {t : Int} (h : MayReturn z a tm t) :
    ∃ mktime, Honours z a mktime ∧ mktime tm = t := by
  choose f hf using exists_mayReturn z a
  refine ⟨Function.update f tm t, fun tm' => ?_, Function.update_self tm t f⟩
  by_cases he : tm' = tm
  · rw [he, Function.update_self]
    exact h
  · rw [Function.update_of_ne he]
    exact hf tm'

/-! ## the two midnights -/

/-- the instant `tp` is a 00:00:00 of the day -/
def MidnightOf (day tp : Int) : Prop :=
  ∃ t, fromTimeT t = tp ∧ z.localSeconds t = 86400 * day

/-- `now` is between the 00:00:00 of its day and that of the following day -/
def MidnightsRight (mktime : Tm → Int) (now : Int) : Prop :=
  let lt : LocalTime := ⟨z.localtime, mktime⟩
  let day := z.localDay (secondOf now)
  getMidnight lt now ≤ now ∧ now < getNextMidnight lt now
    ∧ MidnightOf z day (getMidnight lt now) ∧ MidnightOf z (day + 1) (getNextMidnight lt now)

/-- the fields that `get_midnight` passes to `mktime` -/
def midnightTm (t : Int) : Tm := { z.localtime t with tmHour := 0, tmMin := 0, tmSec := 0 }

/-- the 00:00:00 that `mktime` may choose for the day of `t`: one with the `tm_isdst` of `t`.  If
there is none, it is computed with the offset of another instant that has this `tm_isdst`. -/
def MidnightFor (t m : Int) : Prop :=
  (z.localSeconds m = 86400 * z.localDay t ∧ z.isdst m = z.isdst t) ∨
  ((∀ u, z.localSeconds u = 86400 * z.localDay t → z.isdst u ≠ z.isdst t) ∧
    m = 86400 * z.localDay t - z.offset (a.instant (midnightTm z t)))

/-- The instant `m` is a 00:00:00 of the day of `t`, and 24 hours later the offset is the same
again.  Up to `t` the offset has not changed by so much that `m` is yet to come, or 24 hours ago. -/
structure DayKept (t m : Int) : Prop where
  starts : z.localSeconds m = 86400 * z.localDay t
  sameOffset : z.offset (m + 86400) = z.offset m
  begun : z.offset t - z.offset m ≤ z.localTimeOfDay t
  lasts : z.localTimeOfDay t < 86400 + (z.offset t - z.offset m)

theorem secondsOf_midnightTm (t : Int) : secondsOf (midnightTm z t) = 86400 * z.localDay t := by
  rw [secondsOf_of_today (z.localSeconds t) (z.isdst t)]
  · unfold midnightTm Zone.localDay
    dsimp only
    omega
  all_goals rfl

theorem mayReturn_midnightTm (t m : Int) :
    MayReturn z a (midnightTm z t) m ↔ MidnightFor z a t m := by
  have hshows : ∀ u, Shows z (midnightTm z t) u ↔
      z.localSeconds u = 86400 * z.localDay t ∧ z.isdst u = z.isdst t := by
    intro u
    unfold Shows
    rw [secondsOf_midnightTm]
    exact Iff.rfl
  unfold MayReturn MidnightFor
  simp only [hshows, secondsOf_midnightTm, not_and, ne_eq]

section
variable {z a}

theorem midnightsRight_of_eq {mktime : Tm → Int} {now m : Int}
    (heq : mktime (midnightTm z (toTimeT now)) = m) :
    MidnightsRight z mktime now ↔ DayKept z (secondOf now) m := by
  have hmidnight : getMidnight ⟨z.localtime, mktime⟩ now = fromTimeT m := congrArg fromTimeT heq
  have hnext : getNextMidnight ⟨z.localtime, mktime⟩ now = fromTimeT (m + 86400) := by
    unfold getNextMidnight
    rw [hmidnight]
    unfold fromTimeT hours minutes seconds
    omega
  have hof (day t : Int) : MidnightOf z day (fromTimeT t) ↔ z.localSeconds t = 86400 * day := by
    constructor
    · rintro ⟨u, hu, hday⟩
      have : u = t := by
        unfold fromTimeT seconds at hu
        omega
      rwa [← this]
    · intro hday
      exact ⟨t, rfl, hday⟩
  have hkept : DayKept z (secondOf now) m ↔ z.localSeconds m = 86400 * z.localDay (secondOf now)
      ∧ z.offset (m + 86400) = z.offset m
      ∧ z.offset (secondOf now) - z.offset m ≤ z.localTimeOfDay (secondOf now)
      ∧ z.localTimeOfDay (secondOf now) < 86400 + (z.offset (secondOf now) - z.offset m) :=
    ⟨fun h => ⟨h.starts, h.sameOffset, h.begun, h.lasts⟩, fun h => ⟨h.1, h.2.1, h.2.2.1, h.2.2.2⟩⟩
  unfold MidnightsRight
  dsimp only
  rw [hmidnight, hnext, hof, hof, fromTimeT_le_iff, ← secondOf_lt_iff, hkept]
  unfold Zone.localTimeOfDay Zone.localDay Zone.localSeconds
  omega

/-- **Whatever `mktime` chooses, both midnights are right exactly if the day is kept behind each
choice that it has.** -/
theorem midnightsRight_iff (z : Zone) (a : Anchor z) (now : Int) :
    (∀ mktime, Honours z a mktime → MidnightsRight z mktime now)
      ↔ ∀ m, MidnightFor z a (toTimeT now) m → DayKept z (secondOf now) m := by
  constructor
  · intro h m hm
    obtain ⟨mktime, hmk, heq⟩ := exists_mktime z a ((mayReturn_midnightTm z a _ m).mpr hm)
    exact (midnightsRight_of_eq heq).mp (h mktime hmk)
  · intro h mktime hmk
    have hm := (mayReturn_midnightTm z a _ _).mp (hmk (midnightTm z (toTimeT now)))
    exact (midnightsRight_of_eq rfl).mpr (h _ hm)

end

/-! ## an autumn night -/

/-- central Europe in the autumn of 2025: summer time ends on 26 October, at 01:00 UTC -/
def autumn : Zone :=
  { offset t := if t < 1761440400 then 7200 else 3600
    isdst t := if t < 1761440400 then 1 else 0 }

/-- a noon of summer time and one of winter time -/
def autumnNoon (tm : Tm) : Int := if tm.tmIsdst = 1 then 1761386400 else 1761476400

theorem autumn_isdst_noon (tm : Tm) (t : Int) (h : autumn.isdst t = tm.tmIsdst) :
    autumn.isdst (autumnNoon tm) = tm.tmIsdst := by
  unfold autumn autumnNoon at *
  dsimp only at *
  grind

def autumnAnchor : Anchor autumn := ⟨autumnNoon, autumn_isdst_noon⟩

/-- `tm_isdst` tells the offset -/
def autumnMktime (tm : Tm) : Int := secondsOf tm - if tm.tmIsdst = 1 then 7200 else 3600

theorem autumn_eachDayStarts : autumn.EachDayStarts := by
  intro day
  refine ⟨if 86400 * day - 7200 < 1761440400 then 86400 * day - 7200 else 86400 * day - 3600, ?_⟩
  unfold Zone.localSeconds autumn
  dsimp only
  omega

theorem autumnMktime_honours : Honours autumn autumnAnchor autumnMktime := by
  intro tm
  by_cases h : ∃ u, Shows autumn tm u
  · obtain ⟨u, hu⟩ := h
    have he : autumnMktime tm = u := by
      obtain ⟨hs, hd⟩ := hu
      unfold autumnMktime
      rw [← hs, ← hd]
      unfold Zone.localSeconds autumn
      dsimp only
      split <;> simp
    rw [he]
    exact Or.inl hu
  · refine Or.inr ⟨not_exists.mp h, ?_⟩
    unfold autumnMktime autumnAnchor autumnNoon autumn
    dsimp only
    split <;> rfl

theorem midnightsRight_day_before :
    MidnightsRight autumn autumnMktime (seconds 1761386400 + 500000000) := by
  refine (midnightsRight_iff autumn autumnAnchor _).mpr ?_ autumnMktime autumnMktime_honours
  rw [show toTimeT (seconds 1761386400 + 500000000) = 1761386400 by decide,
    show secondOf (seconds 1761386400 + 500000000) = 1761386400 by decide]
  have hday : autumn.localDay 1761386400 = 20386 := by decide
  have hm : ∀ m, autumn.localSeconds m = 86400 * autumn.localDay 1761386400 → m = 1761343200 := by
    intro m hm
    rw [hday] at hm
    unfold Zone.localSeconds autumn at hm
    dsimp only at hm
    omega
  rintro m (⟨h, -⟩ | ⟨hnone, -⟩)
  · rw [hm m h]
    exact ⟨by decide, by decide, by decide, by decide⟩
  · exact absurd (by decide) (hnone 1761343200 (by decide))

/-- at half past midnight the next midnight is 23 hours away, at 23:00 of the same day -/
theorem autumn_night : autumn.EachDayStarts ∧ Honours autumn autumnAnchor autumnMktime
    ∧ ¬ MidnightsRight autumn autumnMktime (seconds 1761431400)
    ∧ getNextMidnight ⟨autumn.localtime, autumnMktime⟩ (seconds 1761431400) = seconds 1761516000
    ∧ (autumn.localtime 1761516000).tmHour = 23 ∧ (autumn.localtime 1761516000).tmMday = 26 := by
  have hnext : getNextMidnight ⟨autumn.localtime, autumnMktime⟩ (seconds 1761431400)
      = seconds 1761516000 := by decide
  refine ⟨autumn_eachDayStarts, autumnMktime_honours, ?_, hnext, by decide, by decide⟩
  rintro ⟨-, -, -, t, ht, hmidnight⟩
  rw [hnext] at ht
  have he : t = 1761516000 := by
    unfold fromTimeT seconds at ht
    omega
  rw [he] at hmidnight
  exact absurd hmidnight (by decide)

end Scheduler

end ServerHttpLib
