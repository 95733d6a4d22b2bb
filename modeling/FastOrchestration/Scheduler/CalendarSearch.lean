import FastOrchestration.Scheduler.CompileSpec

/-!
# The search of a calendar

`next` returns the earliest matching time where the clock of the time zone is regular
(`next_isLeast`, `next_none`).

The search is followed by the hours of the wall clock. `Stands` relates the fields to an instant: the first or
the second time that the clock shows the hour, or, where the hour is skipped, the instant at which the clock
jumps over it. `Sound` is what an iteration of the loop guarantees from that instant on.
-/

namespace FastOrchestration.Scheduler.Compile

open Lib Clock Zone Compile
open CalendarField (maxCalendarYear)

lemma daysInMonth_eq {m} (h1 : 1 ≤ m) (h12 : m ≤ 12) (y : Int) : daysInMonth m y = Civil.daysInMonth m y := by
  obtain rfl | rfl | rfl | rfl | rfl | rfl | rfl | rfl | rfl | rfl | rfl | rfl : m = 1 ∨ m = 2 ∨ m = 3 ∨ m = 4 ∨ m = 5 ∨
    m = 6 ∨ m = 7 ∨ m = 8 ∨ m = 9 ∨ m = 10 ∨ m = 11 ∨ m = 12 := by omega
  all_goals rfl

lemma one_le_daysInMonth (m y : Int) : 1 ≤ daysInMonth m y := by
  unfold daysInMonth
  split_ifs <;> omega

/-! ### Loops over a field -/

lemma none_from {p : Int → Bool} {x v : Int} (hx : p x = false) (hno : ∀ u, x + 1 ≤ u → u < v → p u = false) :
    ∀ u, x ≤ u → u < v → p u = false := by
  intro u hxu huv
  obtain rfl | hgt : u = x ∨ x + 1 ≤ u := by omega
  · exact hx
  · exact hno u hgt huv

lemma firstFrom_spec (p : Int → Bool) (x : Int) (n : Nat) :
    (∃ v, firstFrom p x n = some v ∧ p v ∧ x ≤ v ∧ v < x + n ∧ ∀ u, x ≤ u → u < v → p u = false) ∨
      firstFrom p x n = none ∧ ∀ u, x ≤ u → u < x + n → p u = false := by
  induction n generalizing x with
  | zero => exact .inr ⟨rfl, fun u hle hlt => by simp at hlt; omega⟩
  | succ n ih =>
    by_cases hp : p x
    · refine .inl ⟨x, by rw [firstFrom, if_pos hp], hp, le_rfl, by omega, fun u hle hlt => by omega⟩
    have hx : p x = false := by simpa using hp
    rw [firstFrom, if_neg hp]
    obtain ⟨v, hv, hpv, hle, hlt, hno⟩ | ⟨hnone, hno⟩ := ih (x + 1)
    · exact .inl ⟨v, hv, hpv, by omega, by omega, none_from hx hno⟩
    · exact .inr ⟨hnone, none_from hx fun u hgt huv => hno u hgt (by omega)⟩

/-- A loop moves to a value before which none matches. It goes on with a value that matches, or leaves the
range. -/
lemma advance_cases {p x last} (hx : x ≤ last) (set : Int → Clock) (rest : Clock → Progress) :
    ∃ v, x ≤ v ∧ (∀ u, x ≤ u → u < v → p u = false) ∧ (v ≤ last ∧ p v ∧ advance p x last set rest = rest (set v) ∨
        v = last + 1 ∧ advance p x last set rest = .again (set v)) := by
  unfold advance seek
  by_cases hp : p x
  · exact ⟨x, le_rfl, fun u hle hlt => by omega, .inl ⟨hx, hp, by rw [if_pos hp]⟩⟩
  have hpx : p x = false := by simpa using hp
  rw [if_neg hp]
  obtain ⟨v, hv, hpv, hle, hlt, hno⟩ | ⟨hnone, hno⟩ := firstFrom_spec p (x + 1) (last - x).toNat
  · exact ⟨v, by omega, none_from hpx hno, .inl ⟨by omega, hpv, by rw [hv]⟩⟩
  · exact ⟨last + 1, by omega, none_from hpx fun u hgt huv => hno u hgt (by omega), .inr ⟨rfl, by rw [hnone]⟩⟩

/-! ### Where the fields stand -/

/-- The fields at `x` seconds of the hour `H` stand at the instant `p`. -/
inductive Stands (z : Zone) (H x : Int) : Bool → Int → Prop where
  | first {p : Int} : First z H p → z.hour p = H → Stands z H x false (p + x)
  | second {p : Int} : First z H p → z.hour p = H → z.hour (p + 3600) = H → Stands z H x true (p + 3600 + x)
  | skipped {p : Int} : First z H p → z.hour p = H + 1 → Stands z H x false p

def searchLimit : Int := 3600 * endOfHours

variable {z : Zone} {H H' x p : Int} {dst : Bool}

namespace Stands

lemma wall_add (hz : z.Hourly) (hp : First z H p) (hH : z.hour p = H) (h0 : 0 ≤ x) (hx : x < 3600) :
    z.wall (p + x) = 3600 * H + x := by
  rw [hz.wall_add (hp.aligned hz) h0 hx, hp.wall hz hH]

lemma wall_add_second (hz : z.Hourly) (hp : First z H p) (hH' : z.hour (p + 3600) = H)
    (h0 : 0 ≤ x) (hx : x < 3600) : z.wall (p + 3600 + x) = 3600 * H + x := by
  have hzero := hp.aligned hz
  have hmod := hz.wall_mod p 3600
  rw [hz.wall_add (by omega) h0 hx]
  unfold Zone.hour at hH'
  omega

lemma le_hour (hz : z.Hourly) (h : Stands z H x dst p) (h0 : 0 ≤ x) : H ≤ z.hour p := by
  cases h with
  | first hp hH => exact hH.ge.trans (hz.hour_mono (by omega))
  | second hp hH hH' => exact hH'.ge.trans (hz.hour_mono (by omega))
  | skipped hp hH => exact hp.le_hour

lemma forward (hz : z.Hourly) (h : Stands z H x dst p) {x'} (h0 : 0 ≤ x) (hle : x ≤ x') (hx' : x' ≤ 3600) :
    ∃ p', Stands z H x' dst p' ∧ p ≤ p' ∧
      ∀ t, p ≤ t → t < p' → z.hour t = H ∧ x ≤ z.wall t % 3600 ∧ z.wall t % 3600 < x' := by
  cases h with
  | @first p hp hH =>
    refine ⟨p + x', .first hp hH, by omega, fun t hge hlt => ?_⟩
    have hwall := wall_add hz hp hH (show 0 ≤ t - p by omega) (by omega)
    rw [show p + (t - p) = t by omega] at hwall
    unfold Zone.hour
    omega
  | @second p hp hH hH' =>
    refine ⟨p + 3600 + x', .second hp hH hH', by omega, fun t hge hlt => ?_⟩
    have hwall := wall_add_second hz hp hH' (show 0 ≤ t - (p + 3600) by omega) (by omega)
    rw [show p + 3600 + (t - (p + 3600)) = t by omega] at hwall
    unfold Zone.hour
    omega
  | skipped hp hH => exact ⟨p, .skipped hp hH, le_rfl, fun t hge hlt => by omega⟩

lemma start (hp : First z H p) (hH : z.hour p = H) : Stands z H 0 false p := by
  simpa using Stands.first (x := 0) hp hH

lemma exists_start (hz : z.Hourly) (H : Int) : ∃ p, Stands z H 0 false p ∧ First z H p := by
  obtain ⟨p, hp⟩ := exists_first hz H
  obtain hH | hH := hp.hour hz
  · exact ⟨p, start hp hH, hp⟩
  · exact ⟨p, .skipped hp hH, hp⟩

lemma toHour (hz : z.Hourly) (h : Stands z H x dst p) (h0 : 0 ≤ x) (hx : x < 3600) (hlt : H < H') :
    ∃ p', Stands z H' 0 false p' ∧ p ≤ p' ∧ ∀ t, p ≤ t → t < p' → H ≤ z.hour t ∧ z.hour t < H' := by
  obtain ⟨p', hs, hp'⟩ := exists_start hz H'
  have hle := h.le_hour hz h0
  refine ⟨p', hs, ?_, fun t hge hlt => ⟨hle.trans (hz.hour_mono hge), hp'.hour_lt t hlt⟩⟩
  by_contra hlt'
  have hge' := hp'.le_hour
  have hmono := hz.hour_mono (show p' ≤ p by omega)
  cases h with
  | first hp hH =>
    have := wall_add hz hp hH h0 hx
    unfold Zone.hour at *
    omega
  | second hp hH hH' =>
    have := wall_add_second hz hp hH' h0 hx
    unfold Zone.hour at *
    omega
  | skipped hp hH =>
    have := hp.hour_lt p' (by omega)
    omega

/-! ### The instants of wall times -/

variable (hz : z.Regular searchLimit)

include hz

lemma date_eq (hp : First z H p) (hH : z.hour p = H) (h0 : 0 ≤ x) (hx : x < 3600)
    (hlimit : 3600 * H + x ≤ searchLimit) : z.date (3600 * H + x) = p + x := by
  have hwall := wall_add hz.toHourly hp hH h0 hx
  have hlt := hp.hour_lt (p + x - 3600) (by omega)
  have hdate := hz.date_first (p + x) (by unfold Zone.hour at hlt; omega) (by omega)
  rwa [hwall] at hdate

/-- The wall time before or after a skipped hour, which is taken for one in it. -/
lemma date_skipped_le (hp : First z H p) (hH : z.hour p = H + 1) :
    p - 3600 ≤ z.date (3600 * H) ∧ z.date (3600 * H) ≤ p := by
  have hzero := hp.aligned hz.toHourly
  have hmod := hz.toHourly.wall_mod p (-3600)
  have hmod' := hz.toHourly.wall_mod p (-7200)
  rw [← Int.sub_eq_add_neg] at hmod hmod'
  have hbefore := hp.hour_lt (p - 3600) (by omega)
  have hdate := hz.date_skipped H p 0 hp hH le_rfl (by omega)
  rw [Int.add_zero] at hdate
  constructor
  · by_contra hlt
    -- The hour before a skipped one is shown once.
    have hmono := hz.toHourly.hour_mono (show z.date (3600 * H) ≤ p - 3600 - 1 by omega)
    have honce : z.wall (p - 3600) ≠ z.wall (p - 7200) := by
      intro heq
      have hapart := hz.apart (p - 7200) (by omega) (by rw [show p - 7200 + 3600 = p - 3600 by omega]; omega)
      rw [show p - 7200 + 7200 = p by omega, show p - 7200 + 3600 = p - 3600 by omega] at hapart
      unfold Zone.hour at *
      omega
    have hnext' := hz.next (p - 7200) (by omega)
    rw [show p - 7200 + 3600 = p - 3600 by omega] at hnext'
    have hend := hz.toHourly.wall_add (t := p - 7200) (x := 3599) (by omega) (by omega) (by omega)
    rw [show p - 7200 + 3599 = p - 3600 - 1 by omega] at hend
    unfold Zone.hour at *
    omega
  by_contra hgt
  have hafter := hz.apart (p - 3600) (by omega) (by rw [Int.sub_add_cancel]; unfold Zone.hour at *; omega)
  rw [Int.sub_add_cancel, show p - 3600 + 7200 = p + 3600 by omega] at hafter
  obtain hlt | hge := Int.lt_or_le (z.date (3600 * H)) (p + 3600)
  · have hin := hz.toHourly.wall_add (t := p) (x := z.date (3600 * H) - p) hzero (by omega) (by omega)
    rw [show p + (z.date (3600 * H) - p) = z.date (3600 * H) by omega] at hin
    omega
  have hmono := hz.toHourly.hour_mono hge
  unfold Zone.hour at *
  omega

lemma carry (h : Stands z H 3600 dst p) (hH : H < endOfHours) :
    if !dst && 3600 < z.date (3600 * (H + 1)) - z.date (3600 * H) then Stands z H 0 true p
    else Stands z (H + 1) 0 false p := by
  have hlimit : 3600 * (H + 1) ≤ searchLimit := by
    unfold searchLimit
    omega
  have hdate : ∀ {H' p'}, First z H' p' → z.hour p' = H' → 3600 * H' ≤ searchLimit → z.date (3600 * H') = p' := by
    intro H' p' hp' hH' hle
    have := date_eq hz hp' hH' le_rfl (by omega) (by omega)
    rwa [Int.add_zero, Int.add_zero] at this
  cases h with
  | @first p hp hfirst =>
    by_cases hrepeated : z.hour (p + 3600) = H
    · obtain ⟨hnext, hhour⟩ := hp.succ_repeated hz.toHourly hfirst hrepeated
      rw [hdate hp hfirst (by omega), hdate hnext hhour hlimit, if_pos (by simp)]
      simpa using Stands.second (x := 0) hp hfirst hrepeated
    have hnext := hp.succ hz.toHourly hfirst hrepeated
    obtain hhour | hhour := hnext.hour hz.toHourly
    · rw [hdate hp hfirst (by omega), hdate hnext hhour hlimit, if_neg (by simp)]
      exact start hnext hhour
    have := date_skipped_le hz hnext hhour
    rw [hdate hp hfirst (by omega), if_neg (by simp; omega)]
    exact .skipped hnext hhour
  | @second p hp hfirst hrepeated =>
    obtain ⟨hnext, hhour⟩ := hp.succ_repeated hz.toHourly hfirst hrepeated
    rw [if_neg (by simp), show p + 3600 + 3600 = p + 7200 + 0 by omega]
    exact .first hnext hhour
  | skipped hp hskipped =>
    have hnext := hp.succ_skipped hskipped
    have := date_skipped_le hz hp hskipped
    rw [hdate hnext hskipped hlimit, if_neg (by simp; omega)]
    exact start hnext hskipped

/-- The day of the week is the one of the day of the fields. Only in a skipped hour at the end of a day it can
be the one of the next day. -/
lemma weekday_eq (h : Stands z H x dst p) (h0 : 0 ≤ x) (hx : x < 3600) (hH : H < endOfHours) :
    Civil.weekday (z.wall (z.date (3600 * H + x)) / 86400) = Civil.weekday (H / 24) ∨
      H % 24 = 23 ∧ ∀ t, z.hour t ≠ H := by
  have hlimit : 3600 * H + x < searchLimit := by
    unfold searchLimit
    omega
  have hexists : ∀ {p}, First z H p → z.hour p = H →
      Civil.weekday (z.wall (z.date (3600 * H + x)) / 86400) = Civil.weekday (H / 24) := by
    intro p hp hfirst
    rw [date_eq hz hp hfirst h0 hx hlimit.le, wall_add hz.toHourly hp hfirst h0 hx]
    congr 1
    omega
  cases h with
  | first hp hfirst | second hp hfirst hrepeated => exact .inl (hexists hp hfirst)
  | skipped hp hskipped =>
    have hdate := hz.date_skipped H p x hp hskipped h0 hx
    have hmidnight := hz.date_midnight H p x hp hskipped h0 hx
    have hno : ∀ t, z.hour t ≠ H := by
      intro t ht
      obtain hlt | hge := Int.lt_or_le t p
      · exact absurd (hp.hour_lt t hlt) (by omega)
      · exact absurd (hz.toHourly.hour_mono hge) (by omega)
    by_cases hlast : H % 24 = 23
    · exact .inr ⟨hlast, hno⟩
    left
    congr 1
    omega

end Stands

/-! ### The fields -/

namespace Clock

structure Valid (c : Clock) : Prop where
  date : (⟨c.year, c.month, c.day⟩ : Civil.Date).Valid
  hour : 0 ≤ c.hour ∧ c.hour < 24
  minute : 0 ≤ c.minute ∧ c.minute < 60
  second : 0 ≤ c.second ∧ c.second < 60

/-- The fields between two iterations: one of them can be past its last value, and those below are then
reset. -/
inductive InRange (c : Clock) : Prop where
  | valid (h : c.Valid)
  | second (h : { c with second := 0 }.Valid) (hs : c.second = 60)
  | minute (h : { c with minute := 0 }.Valid) (hm : c.minute = 60) (hs : c.second = 0)
  | hour (h : { c with hour := 0 }.Valid) (hh : c.hour = 24) (hm : c.minute = 0) (hs : c.second = 0)
  | day (h : { c with day := 1 }.Valid) (hd : c.day = daysInMonth c.month c.year + 1) (hh : c.hour = 0)
      (hm : c.minute = 0) (hs : c.second = 0)
  | month (hmo : c.month = 13) (hd : c.day = 1) (hh : c.hour = 0) (hm : c.minute = 0) (hs : c.second = 0)

variable {c : Clock}

lemma wall_eq (c : Clock) : c.wall = 3600 * c.hourIndex + c.inHour := by
  unfold wall hourIndex inHour
  omega

lemma Valid.inHour (h : c.Valid) : 0 ≤ c.inHour ∧ c.inHour < 3600 := by
  have := h.minute
  have := h.second
  unfold Clock.inHour
  omega

lemma Valid.hourIndex (h : c.Valid) : c.hourIndex / 24 = c.dayNumber ∧ c.hourIndex % 24 = c.hour := by
  have := h.hour
  unfold Clock.hourIndex
  omega

lemma Valid.ofDayNumber (h : c.Valid) : Civil.ofDayNumber (c.hourIndex / 24) = ⟨c.year, c.month, c.day⟩ := by
  rw [h.hourIndex.1]
  exact Civil.ofDayNumber_dayNumber h.date

lemma Valid.daysInMonth (h : c.Valid) : daysInMonth c.month c.year = Civil.daysInMonth c.month c.year :=
  daysInMonth_eq h.date.one_le_month h.date.month_le _

lemma InRange.inHour_nonneg (h : c.InRange) : 0 ≤ c.inHour := by
  unfold inHour
  cases h with
  | valid h => exact h.inHour.1
  | second h hs =>
    have : 0 ≤ c.minute ∧ c.minute < 60 := h.minute
    omega
  | minute h hm hs | hour h hh hm hs | day h hd hh hm hs | month hmo hd hh hm hs => omega

structure Same (c c' : Clock) : Prop where
  hourIndex : c'.hourIndex = c.hourIndex
  inHour : c'.inHour = c.inHour
  dst : c'.dst = c.dst

lemma Same.trans {c c' c''} (h : Same c c') (h' : Same c' c'') : Same c c'' :=
  ⟨h'.hourIndex.trans h.hourIndex, h'.inHour.trans h.inHour, h'.dst.trans h.dst⟩

lemma Same.key {c c' : Clock} (h : Same c c') : c'.key = c.key := by
  unfold Clock.key
  rw [h.hourIndex, h.inHour, h.dst]

def carries (c : Clock) : Clock := c.carryHour.carryDay.carryMonth

lemma carries_of_hour_lt (h : c.hour < 24) : c.carries = c.carryDay.carryMonth := by
  unfold carries
  rw [carryHour, if_neg (by omega)]

lemma Valid.carries (h : c.Valid) : c.carries = c := by
  rw [carries_of_hour_lt h.hour.2, carryDay, if_neg (by have := h.date.day_le; have := h.daysInMonth; simp only at *; omega),
    carryMonth, if_neg (by have := h.date.month_le; simp only at *; omega)]

lemma carries_month (hmo : c.month = 13) (hd : c.day = 1) (hh : c.hour = 0) (hm : c.minute = 0) (hs : c.second = 0) :
    c.carries.Valid ∧ Same c c.carries := by
  obtain ⟨y, mo, d, h, m, s, dst⟩ := c
  subst hmo hd hh hm hs
  have hlast := one_le_daysInMonth 13 y
  have hcarries : (⟨y, 13, 1, 0, 0, 0, dst⟩ : Clock).carries = ⟨y + 1, 1, 1, 0, 0, 0, dst⟩ := by
    rw [@carries_of_hour_lt ⟨y, 13, 1, 0, 0, 0, dst⟩ (by simp), carryDay, if_neg (by simp only; omega)]
    rfl
  rw [hcarries]
  refine ⟨⟨⟨le_rfl, ?_, le_rfl, Civil.one_le_daysInMonth _ _⟩, by simp, by simp, by simp⟩, ?_, rfl, rfl⟩
  · show (1 : Int) ≤ 12
    decide
  have := Civil.dayNumber_nextYear y
  simp only [hourIndex, dayNumber]
  omega

lemma carries_day (h : { c with day := 1 }.Valid) (hd : c.day = daysInMonth c.month c.year + 1) (hh : c.hour = 0)
    (hm : c.minute = 0) (hs : c.second = 0) : c.carries.Valid ∧ Same c c.carries := by
  have h1 : 1 ≤ c.month := h.date.one_le_month
  have h12 : c.month ≤ 12 := h.date.month_le
  let next : Clock := { c with month := c.month + 1, day := 1 }
  have hday : c.carryDay = next := by rw [carryDay, if_pos (by omega)]
  have hsame : Same c next := by
    refine ⟨?_, rfl, rfl⟩
    have := @Civil.dayNumber_nextMonth c.year c.month h1 h12
    rw [daysInMonth_eq h1 h12] at hd
    simp only [next, hourIndex, dayNumber, hd]
    omega
  have hcarries : c.carries = next.carries := by
    rw [carries_of_hour_lt (by omega), hday, @carries_of_hour_lt next (by simp only [next]; omega)]
    rw [carryDay, if_neg]
    have := one_le_daysInMonth (c.month + 1) c.year
    simp only [next]
    omega
  rw [hcarries]
  obtain h12' | h12' : c.month + 1 = 13 ∨ c.month + 1 ≤ 12 := by omega
  · exact (@carries_month next h12' rfl hh hm hs).imp_right hsame.trans
  have hvalid : next.Valid := by
    refine ⟨⟨?_, h12', le_rfl, Civil.one_le_daysInMonth _ _⟩, h.hour, h.minute, h.second⟩
    show 1 ≤ c.month + 1
    omega
  rw [hvalid.carries]
  exact ⟨hvalid, hsame⟩

lemma carries_hour (h : { c with hour := 0 }.Valid) (hh : c.hour = 24) (hm : c.minute = 0) (hs : c.second = 0) :
    c.carries.Valid ∧ Same c c.carries := by
  have hday : 1 ≤ c.day := h.date.one_le_day
  have hlast : c.day ≤ daysInMonth c.month c.year := by
    rw [show daysInMonth c.month c.year = _ from h.daysInMonth]
    exact h.date.day_le
  let next : Clock := { c with day := c.day + 1, hour := 0 }
  have hsame : Same c next := by
    refine ⟨?_, rfl, rfl⟩
    have := Civil.dayNumber_day c.year c.month (c.day + 1) c.day
    simp only [next, hourIndex, dayNumber]
    omega
  have hcarries : c.carries = next.carries := by
    rw [@carries_of_hour_lt next (by simp [next]), carries, carryHour, if_pos (by omega)]
  rw [hcarries]
  obtain hend | hin : c.day = daysInMonth c.month c.year ∨ c.day + 1 ≤ daysInMonth c.month c.year := by omega
  · exact (@carries_day next
      ⟨⟨h.date.one_le_month, h.date.month_le, le_rfl, Civil.one_le_daysInMonth _ _⟩, h.hour, h.minute, h.second⟩
      (by simp only [next, ← hend]) rfl hm hs).imp_right hsame.trans
  have hvalid : next.Valid := by
    refine ⟨⟨h.date.one_le_month, h.date.month_le, ?_, ?_⟩, h.hour, h.minute, h.second⟩
    · show 1 ≤ c.day + 1
      omega
    rw [show daysInMonth c.month c.year = _ from h.daysInMonth] at hin
    exact hin
  rw [hvalid.carries]
  exact ⟨hvalid, hsame⟩

lemma normalize_eq (z : Zone) (c : Clock) : c.normalize z = (c.carrySecond.carryMinute z).carries := rfl

lemma carryMinute_of_lt (z : Zone) (h : c.minute < 60) : c.carryMinute z = c := by
  rw [carryMinute, if_neg (by omega)]

lemma carrySecond_of_lt (h : c.second < 60) : c.carrySecond = c := by
  rw [carrySecond, if_neg (by omega)]

/-- The fields `c'` follow the full hour of `c`: they are at the start of the next hour, or of the same one
where it is tried again. -/
def Follows (z : Zone) (c c' : Clock) : Prop :=
  if !c.dst && 3600 < z.date (3600 * (c.hourIndex + 1)) - z.date (3600 * c.hourIndex) then
    c'.hourIndex = c.hourIndex ∧ c'.inHour = 0 ∧ c'.dst = true
  else c'.hourIndex = c.hourIndex + 1 ∧ c'.inHour = 0 ∧ c'.dst = false

lemma carryMinute_minute (z : Zone) (h : { c with minute := 0 }.Valid) (hm : c.minute = 60) (hs : c.second = 0) :
    (c.carryMinute z).carries.Valid ∧ Follows z c (c.carryMinute z).carries := by
  obtain ⟨y, mo, d, hour, m, s, dst⟩ := c
  subst hm hs
  have hprev : (⟨y, mo, d, hour, 0, 0, dst⟩ : Clock).wall = 3600 * (⟨y, mo, d, hour, 60, 0, dst⟩ : Clock).hourIndex := by
    simp only [wall, hourIndex, dayNumber]
    omega
  have hnext : (⟨y, mo, d, hour + 1, 0, 0, dst⟩ : Clock).wall =
      3600 * ((⟨y, mo, d, hour, 60, 0, dst⟩ : Clock).hourIndex + 1) := by
    simp only [wall, hourIndex, dayNumber]
    omega
  unfold Follows
  simp only [carryMinute, le_refl, if_true, hprev, hnext]
  split
  · have hvalid : (⟨y, mo, d, hour, 0, 0, true⟩ : Clock).Valid := ⟨h.date, h.hour, h.minute, h.second⟩
    rw [hvalid.carries]
    exact ⟨hvalid, rfl, rfl, rfl⟩
  have hhour : 0 ≤ hour ∧ hour < 24 := h.hour
  have hsame : ∀ c', Same ⟨y, mo, d, hour + 1, 0, 0, false⟩ c' →
      c'.hourIndex = (⟨y, mo, d, hour, 60, 0, dst⟩ : Clock).hourIndex + 1 ∧ c'.inHour = 0 ∧ c'.dst = false := by
    intro c' hc'
    refine ⟨hc'.hourIndex.trans ?_, hc'.inHour, hc'.dst⟩
    simp only [hourIndex, dayNumber]
    omega
  obtain hend | hin : hour + 1 = 24 ∨ hour + 1 < 24 := by omega
  · obtain ⟨hvalid, hc⟩ := @carries_hour ⟨y, mo, d, hour + 1, 0, 0, false⟩
      ⟨h.date, by simp, h.minute, h.second⟩ hend rfl rfl
    exact ⟨hvalid, hsame _ hc⟩
  have hvalid : (⟨y, mo, d, hour + 1, 0, 0, false⟩ : Clock).Valid :=
    ⟨h.date, by simp only; omega, h.minute, h.second⟩
  rw [hvalid.carries]
  exact ⟨hvalid, hsame _ ⟨rfl, rfl, rfl⟩⟩

/-- The carries give valid fields at the same position, or at the next one where the hour was full. -/
lemma InRange.normalize (z : Zone) (h : c.InRange) :
    (c.normalize z).Valid ∧ (Same c (c.normalize z) ∨ c.inHour = 3600 ∧ Follows z c (c.normalize z)) := by
  rw [normalize_eq]
  cases h with
  | valid h =>
    rw [carrySecond_of_lt h.second.2, carryMinute_of_lt z h.minute.2, h.carries]
    exact ⟨h, .inl ⟨rfl, rfl, rfl⟩⟩
  | second h hs =>
    have hm : 0 ≤ c.minute ∧ c.minute < 60 := h.minute
    rw [carrySecond, if_pos (by omega)]
    have hsame : Same c { c with minute := c.minute + 1, second := 0 } := by
      refine ⟨rfl, ?_, rfl⟩
      simp only [inHour]
      omega
    obtain hend | hin : c.minute + 1 = 60 ∨ c.minute + 1 < 60 := by omega
    · obtain ⟨hvalid, hf⟩ := @carryMinute_minute { c with minute := c.minute + 1, second := 0 } z
        ⟨h.date, h.hour, by simp, h.second⟩ hend rfl
      refine ⟨hvalid, .inr ⟨?_, hf⟩⟩
      simp only [inHour]
      omega
    have hvalid : { c with minute := c.minute + 1, second := 0 }.Valid :=
      ⟨h.date, h.hour, by simp only; omega, h.second⟩
    rw [carryMinute_of_lt z hin, hvalid.carries]
    exact ⟨hvalid, .inl hsame⟩
  | minute h hm hs =>
    rw [carrySecond_of_lt (by omega)]
    obtain ⟨hvalid, hf⟩ := carryMinute_minute z h hm hs
    refine ⟨hvalid, .inr ⟨?_, hf⟩⟩
    simp only [inHour]
    omega
  | hour h hh hm hs =>
    rw [carrySecond_of_lt (by omega), carryMinute_of_lt z (by omega)]
    exact (carries_hour h hh hm hs).imp_right .inl
  | day h hd hh hm hs =>
    rw [carrySecond_of_lt (by omega), carryMinute_of_lt z (by omega)]
    exact (carries_day h hd hh hm hs).imp_right .inl
  | month hmo hd hh hm hs =>
    rw [carrySecond_of_lt (by omega), carryMinute_of_lt z (by omega)]
    exact (carries_month hmo hd hh hm hs).imp_right .inl

abbrev StandsAt (z : Zone) (c : Clock) (p : Int) : Prop := Stands z c.hourIndex c.inHour c.dst p

lemma StandsAt.normalize (hz : z.Regular searchLimit) (h : c.InRange) (hp : c.StandsAt z p) (hH : c.hourIndex < endOfHours) :
    (c.normalize z).StandsAt z p ∧ c.key ≤ (c.normalize z).key := by
  obtain ⟨-, hsame | ⟨hfull, hf⟩⟩ := h.normalize z
  · refine ⟨?_, hsame.key.ge⟩
    unfold StandsAt
    rwa [hsame.hourIndex, hsame.inHour, hsame.dst]
  unfold StandsAt at hp ⊢
  rw [hfull] at hp
  have hcarry := hp.carry hz hH
  unfold Follows at hf
  unfold key
  split at hf
  · rename_i hredo
    rw [if_pos hredo] at hcarry
    rw [hf.1, hf.2.1, hf.2.2, hfull]
    refine ⟨hcarry, ?_⟩
    simp only [Bool.and_eq_true, Bool.not_eq_true'] at hredo
    simp [hredo.1]
  rename_i hredo
  rw [if_neg hredo] at hcarry
  rw [hf.1, hf.2.1, hf.2.2, hfull]
  refine ⟨hcarry, ?_⟩
  split <;> omega

lemma InRange.hourIndex_le_normalize (z : Zone) (h : c.InRange) : c.hourIndex ≤ (c.normalize z).hourIndex := by
  obtain ⟨-, hsame | ⟨-, hf⟩⟩ := h.normalize z
  · exact hsame.hourIndex.ge
  unfold Follows at hf
  split at hf <;> omega

lemma Valid.key_lt (h : c.Valid) {c' : Clock} (hlt : c.hourIndex < c'.hourIndex) (h0 : 0 ≤ c'.inHour) : c.key < c'.key := by
  have := h.inHour
  unfold key
  split <;> split <;> omega

lemma key_le_of_lt (hH : c.hourIndex < endOfHours) (hx : c.inHour ≤ 3600) : c.key ≤ 7200 * endOfHours := by
  unfold key
  split <;> omega

lemma key_le (hx : c.inHour = 0) (hdst : c.dst = false) (hH : c.hourIndex ≤ endOfHours) : c.key ≤ 7200 * endOfHours := by
  rw [key, hx, hdst]
  show 7200 * c.hourIndex + 0 + 0 ≤ _
  omega

/-! The fields after a loop has moved on. -/

@[simp]
def toMinute (c : Clock) (minute : Int) : Clock := { c with minute, second := 0 }

@[simp]
def toHour (c : Clock) (hour : Int) : Clock := { c with hour, minute := 0, second := 0, dst := false }

@[simp]
def toDay (c : Clock) (day : Int) : Clock := { c with day, hour := 0, minute := 0, second := 0, dst := false }

@[simp]
def toMonth (c : Clock) (month : Int) : Clock :=
  { c with month, day := 1, hour := 0, minute := 0, second := 0, dst := false }

lemma hourIndex_toDay (c : Clock) (d : Int) : (c.toDay d).hourIndex = 24 * (c.dayNumber + (d - c.day)) := by
  have := Civil.dayNumber_day c.year c.month d c.day
  simp only [hourIndex, dayNumber, toDay]
  omega

lemma Valid.year_le_iff (h : c.Valid) : c.year ≤ maxCalendarYear ↔ c.hourIndex < endOfHours := by
  have hiff := @Civil.year_le_iff (c.hourIndex / 24) maxCalendarYear
  rw [h.ofDayNumber] at hiff
  rw [hiff]
  unfold endOfHours
  omega

lemma Valid.year_eq (h : c.Valid) {n} (hlow : c.dayNumber ≤ n) (hhigh : n < Civil.dayNumber ⟨c.year + 1, 1, 1⟩) :
    (Civil.ofDayNumber n).year = c.year := by
  have hjanuary : Civil.dayNumber ⟨c.year, 1, 1⟩ ≤ c.dayNumber := h.date.year.1
  have hle := @Civil.year_le_iff n c.year
  have hge := @Civil.year_le_iff n (c.year - 1)
  rw [Int.sub_add_cancel] at hge
  omega

lemma Valid.ofDayNumber_day (h : c.Valid) {u} (h1 : 1 ≤ u) (hle : u ≤ Civil.daysInMonth c.month c.year) :
    Civil.ofDayNumber (c.dayNumber + (u - c.day)) = ⟨c.year, c.month, u⟩ := by
  have hvalid : (⟨c.year, c.month, u⟩ : Civil.Date).Valid := ⟨h.date.one_le_month, h.date.month_le, h1, hle⟩
  rw [← Civil.ofDayNumber_dayNumber hvalid]
  congr 1
  have := Civil.dayNumber_day c.year c.month u c.day
  unfold dayNumber
  omega

lemma newYear_le {y} (h : y ≤ maxCalendarYear) : 24 * Civil.dayNumber ⟨y + 1, 1, 1⟩ ≤ endOfHours := by
  have : Civil.dayNumber ⟨y + 1, 1, 1⟩ ≤ Civil.dayNumber ⟨maxCalendarYear + 1, 1, 1⟩ :=
    Civil.newYear_strictMono.monotone (by omega : y + 1 ≤ maxCalendarYear + 1)
  unfold endOfHours
  omega

end Clock

/-! ### Matching by hours -/

namespace CompiledCalendar

variable (cc : CompiledCalendar Zone)

def dayMatches (n : Int) : Bool :=
  cc.year (Civil.ofDayNumber n).year && cc.month (Civil.ofDayNumber n).month && cc.dayOfMonth (Civil.ofDayNumber n).day &&
    cc.dayOfWeek (Civil.weekday n)

lemma isMatch_eq (t : Int) : cc.isMatch t = (cc.dayMatches (cc.tz.hour t / 24) && cc.hour (cc.tz.hour t % 24) &&
    cc.minute (cc.tz.wall t % 3600 / 60) && cc.second (cc.tz.wall t % 60)) := by
  have hday : cc.tz.wall t / 86400 = cc.tz.hour t / 24 := by
    unfold Zone.hour
    omega
  have hhour : cc.tz.wall t % 86400 / 3600 = cc.tz.hour t % 24 := by
    unfold Zone.hour
    omega
  simp only [isMatch, ofWall, dayMatches, hday, hhour]

def Wanted (t : Int) : Prop := cc.isMatch t = true ∧ (ofWall (cc.tz.wall t)).year ≤ maxCalendarYear

variable {cc}

lemma wanted_iff {t} : cc.Wanted t ↔ cc.isMatch t ∧ cc.tz.hour t < endOfHours := by
  have hyear : (ofWall (cc.tz.wall t)).year ≤ maxCalendarYear ↔ cc.tz.hour t < endOfHours := by
    refine Civil.year_le_iff.trans ?_
    unfold endOfHours Zone.hour
    omega
  rw [Wanted, hyear]

/-- What an iteration guarantees, from the instant `p` on. -/
def Sound (cc : CompiledCalendar Zone) (p k : Int) : Progress → Prop
  | .found r => p ≤ r ∧ cc.Wanted r ∧ ∀ t, p ≤ t → t < r → ¬cc.Wanted t
  | .exhausted => ∀ t, p ≤ t → ¬cc.Wanted t
  | .again c => k < c.key ∧ c.key ≤ 7200 * endOfHours ∧ c.InRange ∧
      ∃ p', c.StandsAt cc.tz p' ∧ p ≤ p' ∧ ∀ t, p ≤ t → t < p' → ¬cc.Wanted t

/-- The fields `c'` are further on than the key `k`, and up to where they stand there is nothing to find. -/
def Ahead (cc : CompiledCalendar Zone) (p k : Int) (c' : Clock) : Prop :=
  k < c'.key ∧ ∃ p', c'.StandsAt cc.tz p' ∧ p ≤ p' ∧ ∀ t, p ≤ t → t < p' → ¬cc.Wanted t

lemma Sound.skip {p p' k k' out} (h : cc.Sound p' k' out) (hle : p ≤ p')
    (hno : ∀ t, p ≤ t → t < p' → ¬cc.Wanted t) (hk : k ≤ k') : cc.Sound p k out := by
  have hboth : ∀ {q}, (∀ t, p' ≤ t → t < q → ¬cc.Wanted t) → ∀ t, p ≤ t → t < q → ¬cc.Wanted t := by
    intro q hq t hpt htq
    obtain hlt | hge := Int.lt_or_le t p'
    · exact hno t hpt hlt
    · exact hq t hge htq
  cases out with
  | found r =>
    obtain ⟨hr, hwanted, hnone⟩ := h
    exact ⟨hle.trans hr, hwanted, hboth hnone⟩
  | exhausted => exact fun t hpt => hboth (fun t hge _ => h t hge) t hpt (Int.lt_add_one_of_le le_rfl)
  | again c =>
    obtain ⟨hkey, hbound, hrange, q, hq, hpq, hnone⟩ := h
    exact ⟨by omega, hbound, hrange, q, hq, by omega, hboth hnone⟩

/-! ### The fields from the second to the year -/

variable {c : Clock} (hz : cc.tz.Regular searchLimit) (hc : c.Valid) (hp : c.StandsAt cc.tz p)
  (hH : c.hourIndex < endOfHours)

include hz hc hp hH

lemma conclude_sound (hmatch : (∃ t, cc.tz.hour t = c.hourIndex) → cc.second c.second ∧
      cc.minute c.minute ∧ cc.hour c.hour ∧ cc.dayMatches (c.hourIndex / 24)) :
    cc.Sound p c.key (cc.conclude c) := by
  obtain ⟨h0, hx⟩ := hc.inHour
  have hlimit : 3600 * c.hourIndex + c.inHour ≤ searchLimit := by
    unfold searchLimit
    omega
  have hfields : c.inHour / 60 = c.minute ∧ c.inHour % 60 = c.second := by
    have := hc.second
    unfold inHour
    omega
  -- At an instant of the hour, everything matches.
  have hwanted : ∀ t, cc.tz.wall t = 3600 * c.hourIndex + c.inHour → cc.Wanted t := by
    intro t ht
    have hhour : cc.tz.hour t = c.hourIndex := by
      unfold Zone.hour
      omega
    obtain ⟨hsecond, hminute, hhour', hday⟩ := hmatch ⟨t, hhour⟩
    rw [wanted_iff, isMatch_eq, hhour, hc.hourIndex.2, show cc.tz.wall t % 3600 / 60 = c.minute by omega,
      show cc.tz.wall t % 60 = c.second by omega, hday, hhour', hminute, hsecond]
    exact ⟨rfl, hH⟩
  have hsound : ∀ q, cc.tz.wall q = 3600 * c.hourIndex + c.inHour → cc.Sound q c.key (.found q) := fun q hq =>
    ⟨le_rfl, hwanted q hq, fun t hge hlt => by omega⟩
  have hhour : ∀ q, cc.tz.wall q = 3600 * c.hourIndex + c.inHour → (ofWall (cc.tz.wall q)).hour = c.hour := by
    intro q hq
    show _ % 86400 / 3600 = _
    have := hc.hourIndex.2
    omega
  unfold conclude
  rw [c.wall_eq]
  unfold StandsAt at hp
  generalize hdst : c.dst = dst at hp
  cases hp with
  | @first p hp hfirst =>
    have hwall := Stands.wall_add hz.toHourly hp hfirst h0 hx
    rw [Stands.date_eq hz hp hfirst h0 hx hlimit, if_neg (not_not.mpr (hhour _ hwall))]
    simpa using hsound _ hwall
  | @second p hp hfirst hrepeated =>
    have hwall := Stands.wall_add hz.toHourly hp hfirst h0 hx
    have hwall' := Stands.wall_add_second hz.toHourly hp hrepeated h0 hx
    rw [Stands.date_eq hz hp hfirst h0 hx hlimit, if_neg (not_not.mpr (hhour _ hwall)), if_pos rfl,
      show p + c.inHour + 3600 = p + 3600 + c.inHour by omega]
    exact hsound _ hwall'
  | skipped hp hskipped =>
    have hdate := hz.date_skipped c.hourIndex p c.inHour hp hskipped h0 hx
    have hne : (ofWall (cc.tz.wall (cc.tz.date (3600 * c.hourIndex + c.inHour)))).hour ≠ c.hour := by
      show _ % 86400 / 3600 ≠ _
      have := hc.hourIndex.2
      omega
    rw [if_pos hne]
    have hnext : ({ c with hour := c.hour + 1, minute := 0, second := 0, dst := false } : Clock).hourIndex =
        c.hourIndex + 1 := by
      simp only [hourIndex, dayNumber]
      omega
    have hhour24 := hc.hour
    refine ⟨hc.key_lt (by omega) le_rfl, ?_, ?_, p, ?_, le_rfl, fun t hge hlt => by omega⟩
    · simp only [key, hnext]
      show 7200 * (c.hourIndex + 1) + 0 + 0 ≤ _
      omega
    · obtain hend | hin : c.hour + 1 = 24 ∨ c.hour + 1 < 24 := by omega
      · exact .hour ⟨hc.date, by simp, by simp, by simp⟩ hend rfl rfl
      · exact .valid ⟨hc.date, by simp only; omega, by simp, by simp⟩
    unfold StandsAt
    rw [hnext]
    exact Stands.start (hp.succ_skipped hskipped) hskipped

omit hz hc hp hH in
lemma advance_sound {m : Int → Bool} {x last : Int} {set f : Int → Clock} {rest : Clock → Progress} (hx : x ≤ last)
    (hset : set x = c) (hnext : ∀ v, x < v → set v = f v) (hstay : m x → cc.Sound p c.key (rest c))
    (hahead : ∀ v, x < v → v ≤ last + 1 → (∀ u, x ≤ u → u < v → m u = false) → cc.Ahead p c.key (f v))
    (hrest : ∀ v p', x < v → v ≤ last → m v → (f v).StandsAt cc.tz p' → cc.Sound p' (f v).key (rest (f v)))
    (hbound : (f (last + 1)).key ≤ 7200 * endOfHours) (hrange : (f (last + 1)).InRange) :
    cc.Sound p c.key (advance m x last set rest) := by
  obtain ⟨v, hle, hno, ⟨hlast, hv, heq⟩ | ⟨rfl, heq⟩⟩ := advance_cases hx set rest
  · rw [heq]
    obtain rfl | hlt := hle.eq_or_lt
    · rw [hset]
      exact hstay hv
    obtain ⟨hkey, p', hp', hpp', hskip⟩ := hahead v hlt (by omega) hno
    rw [hnext v hlt]
    exact (hrest v p' hlt hlast hv hp').skip hpp' hskip hkey.le
  obtain ⟨hkey, hstands⟩ := hahead _ (by omega) le_rfl hno
  rw [heq, hnext _ (by omega)]
  exact ⟨hkey, hbound, hrange, hstands⟩

omit hH in
lemma ahead_inHour {c' : Clock} (hH : c'.hourIndex = c.hourIndex) (hdst : c'.dst = c.dst) (hlt : c.inHour < c'.inHour)
    (hle : c'.inHour ≤ 3600)
    (hno : ∀ t, c.inHour ≤ cc.tz.wall t % 3600 → cc.tz.wall t % 3600 < c'.inHour → ¬cc.Wanted t) :
    cc.Ahead p c.key c' := by
  obtain ⟨p', hp', hpp', hbetween⟩ := Stands.forward hz.toHourly hp hc.inHour.1 hlt.le hle
  refine ⟨?_, p', ?_, hpp', fun t hge hlt => ?_⟩
  · unfold key
    rw [hH, hdst]
    omega
  · unfold StandsAt
    rwa [hH, hdst]
  obtain ⟨-, hlow, hhigh⟩ := hbetween t hge hlt
  exact hno t hlow hhigh

omit hH in
lemma ahead_hour {c' : Clock} (hx : c'.inHour = 0) (hdst : c'.dst = false) (hlt : c.hourIndex < c'.hourIndex)
    (hno : ∀ t, c.hourIndex ≤ cc.tz.hour t → cc.tz.hour t < c'.hourIndex → ¬cc.Wanted t) : cc.Ahead p c.key c' := by
  obtain ⟨p', hp', hle, hbetween⟩ := Stands.toHour hz.toHourly hp hc.inHour.1 hc.inHour.2 hlt
  refine ⟨hc.key_lt hlt hx.ge, p', ?_, hle, fun t hge hlt => ?_⟩
  · unfold StandsAt
    rwa [hx, hdst]
  obtain ⟨hlow, hhigh⟩ := hbetween t hge hlt
  exact hno t hlow hhigh

lemma trySecond_sound (hmatch : (∃ t, cc.tz.hour t = c.hourIndex) →
      cc.minute c.minute ∧ cc.hour c.hour ∧ cc.dayMatches (c.hourIndex / 24)) :
    cc.Sound p c.key (cc.trySecond c) := by
  have hm := hc.minute
  have hs := hc.second
  have hx : c.inHour = 60 * c.minute + c.second := rfl
  have hx' : ∀ v, (c.setSecond v).inHour = 60 * c.minute + v := fun _ => rfl
  refine advance_sound (by omega) rfl (fun _ _ => rfl) (fun hv => ?_) (fun v hlt hle hno => ?_)
    (fun v p' hlt hle hv hp' => ?_) ?_ (.second ⟨hc.date, hc.hour, hc.minute, by simp⟩ rfl)
  · exact conclude_sound hz hc hp hH fun hex => ⟨hv, hmatch hex⟩
  · refine ahead_inHour hz hc hp rfl rfl (by rw [hx']; omega) (by rw [hx']; omega) fun t hlow hhigh hwanted => ?_
    rw [hx'] at hhigh
    have hsecond := hno (cc.tz.wall t % 60) (by omega) (by omega)
    rw [wanted_iff, isMatch_eq, hsecond] at hwanted
    simp at hwanted
  · have hvalid : (c.setSecond v).Valid := ⟨hc.date, hc.hour, hc.minute, by simp only [setSecond]; omega⟩
    exact conclude_sound hz hvalid hp' hH fun hex => ⟨hv, hmatch hex⟩
  · exact key_le_of_lt hH (by rw [hx']; omega)

lemma tryMinute_sound (hmatch : (∃ t, cc.tz.hour t = c.hourIndex) → cc.hour c.hour ∧ cc.dayMatches (c.hourIndex / 24)) :
    cc.Sound p c.key (cc.tryMinute c) := by
  have hm := hc.minute
  have hs := hc.second
  have hx : c.inHour = 60 * c.minute + c.second := rfl
  have hx' : ∀ v, (c.toMinute v).inHour = 60 * v + 0 := fun _ => rfl
  refine advance_sound (f := c.toMinute) (by omega) (if_pos rfl) (fun v hlt => if_neg (by omega)) (fun hv => ?_) (fun v hlt hle hno => ?_)
    (fun v p' hlt hle hv hp' => ?_) ?_ (.minute ⟨hc.date, hc.hour, by simp, by simp⟩ rfl rfl)
  · exact trySecond_sound hz hc hp hH fun hex => ⟨hv, hmatch hex⟩
  · refine ahead_inHour hz hc hp rfl rfl (by rw [hx']; omega) (by rw [hx']; omega) fun t hlow hhigh hwanted => ?_
    rw [hx'] at hhigh
    have hminute := hno (cc.tz.wall t % 3600 / 60) (by omega) (by omega)
    rw [wanted_iff, isMatch_eq, hminute] at hwanted
    simp at hwanted
  · have hvalid : (c.toMinute v).Valid := ⟨hc.date, hc.hour, by simp only [toMinute]; omega, by simp⟩
    exact trySecond_sound hz hvalid hp' hH fun hex => ⟨hv, hmatch hex⟩
  · exact key_le_of_lt hH (by rw [hx']; omega)

lemma tryHour_sound (hday : cc.dayMatches (c.hourIndex / 24) ∨ c.hour = 23 ∧ ∀ t, cc.tz.hour t ≠ c.hourIndex) :
    cc.Sound p c.key (cc.tryHour c) := by
  have hindex := hc.hourIndex
  have hnext : ∀ v, (c.toHour v).hourIndex = c.hourIndex + (v - c.hour) := by
    simp only [hourIndex, dayNumber, toHour]
    omega
  have hendday : endOfHours % 24 = 0 := by
    unfold endOfHours
    omega
  refine advance_sound (f := c.toHour) (by omega) (if_pos rfl) (fun v hlt => if_neg (by omega)) (fun hv => ?_) (fun v hlt hle hno => ?_)
    (fun v p' hlt hle hv hp' => ?_) ?_ (.hour ⟨hc.date, by simp, by simp, by simp⟩ rfl rfl rfl)
  · refine tryMinute_sound hz hc hp hH fun ⟨t, ht⟩ => ⟨hv, ?_⟩
    obtain hday | ⟨-, hskipped⟩ := hday
    · exact hday
    · exact absurd ht (hskipped t)
  · refine ahead_hour hz hc hp rfl rfl (by rw [hnext]; omega) fun t hlow hhigh hwanted => ?_
    rw [hnext] at hhigh
    have hhour := hno (cc.tz.hour t % 24) (by omega) (by omega)
    rw [wanted_iff, isMatch_eq, hhour] at hwanted
    simp at hwanted
  · have hvalid : (c.toHour v).Valid := ⟨hc.date, by simp only [toHour]; omega, by simp, by simp⟩
    refine tryMinute_sound hz hvalid hp' (by rw [hnext]; omega) fun _ => ⟨hv, ?_⟩
    rw [hnext, show (c.hourIndex + (v - c.hour)) / 24 = c.hourIndex / 24 by omega]
    exact hday.resolve_right fun h => by omega
  · exact key_le rfl rfl (by rw [hnext]; omega)

omit hc hp hH in
/-- The day of the week that is computed for a later day of the month is right, since its first hour is not the
last one of a day. -/
lemma weekday_toDay {d} (hd : 24 * (c.dayNumber + (d - c.day)) < endOfHours) :
    (c.toDay d).weekday cc.tz = Civil.weekday (c.dayNumber + (d - c.day)) := by
  have hwall : (c.toDay d).wall = 3600 * (24 * (c.dayNumber + (d - c.day))) + 0 := by
    have := c.hourIndex_toDay d
    rw [wall_eq]
    show _ + (60 * 0 + 0) = _
    omega
  obtain ⟨q, hq, -⟩ := Stands.exists_start hz.toHourly (24 * (c.dayNumber + (d - c.day)))
  obtain hright | ⟨hlast, -⟩ := hq.weekday_eq hz le_rfl (by omega) hd
  · rw [weekday, hwall, hright]
    congr 1
    omega
  · omega

lemma tryDay_sound (hyear : cc.year c.year) (hmonth : cc.month c.month) : cc.Sound p c.key (cc.tryDay c) := by
  have hindex := hc.hourIndex
  have hdays := hc.daysInMonth
  have hone : 1 ≤ c.day := hc.date.one_le_day
  have hlast : c.day ≤ Civil.daysInMonth c.month c.year := hc.date.day_le
  have hnext := c.hourIndex_toDay
  have hstay : c.setDay c.day = c := if_pos rfl
  have hset : ∀ v, c.day < v → c.setDay v = c.toDay v := fun v hlt => if_neg (by omega)
  have hweekday := hp.weekday_eq hz hc.inHour.1 hc.inHour.2 hH
  rw [← c.wall_eq] at hweekday
  refine advance_sound (f := c.toDay) (by omega) hstay hset (fun hv => ?_) (fun v hlt hle hno => ?_) (fun v p' hlt hle hv hp' => ?_) ?_
    (.day ⟨⟨hc.date.one_le_month, hc.date.month_le, le_rfl, Civil.one_le_daysInMonth _ _⟩, by simp, by simp, by simp⟩
      rfl rfl rfl rfl)
  · rw [hstay] at hv
    apply tryHour_sound hz hc hp hH
    obtain hright | ⟨h23, hskipped⟩ := hweekday
    · left
      rw [dayMatches, hc.ofDayNumber, hyear, hmonth, ← hright]
      simpa [weekday] using hv
    · exact .inr ⟨by omega, hskipped⟩
  · refine ahead_hour hz hc hp rfl rfl (by rw [hnext]; omega) fun t hlow hhigh hwanted => ?_
    rw [hnext] at hhigh
    rw [wanted_iff, isMatch_eq] at hwanted
    obtain ⟨hmatch, hend⟩ := hwanted
    -- The day of `t` in the month, for which the loop went on.
    obtain ⟨u, hu⟩ : ∃ u, u = c.day + (cc.tz.hour t / 24 - c.dayNumber) := ⟨_, rfl⟩
    have hdate := hc.ofDayNumber_day (u := u) (by omega) (by omega)
    rw [show c.dayNumber + (u - c.day) = cc.tz.hour t / 24 by omega] at hdate
    have hrejected := hno u (by omega) (by omega)
    simp only [dayMatches, hdate, Bool.and_eq_true] at hmatch
    obtain ⟨⟨⟨⟨⟨-, hdom⟩, hdow⟩, -⟩, -⟩, -⟩ := hmatch
    have hcomputed : (c.setDay u).weekday cc.tz = Civil.weekday (cc.tz.hour t / 24) := by
      obtain rfl | hgt : u = c.day ∨ c.day < u := by omega
      · rw [hstay]
        obtain hright | ⟨h23, hskipped⟩ := hweekday
        · rw [weekday, hright]
          congr 1
          omega
        · exact absurd (show cc.tz.hour t = c.hourIndex by omega) (hskipped t)
      rw [hset u hgt, weekday_toDay hz (by omega)]
      congr 1
      omega
    rw [hcomputed, hdom, hdow] at hrejected
    cases hrejected
  · have hvalid : (c.toDay v).Valid :=
      ⟨⟨hc.date.one_le_month, hc.date.month_le, by simp only [toDay]; omega, by simp only [toDay]; omega⟩,
        by simp, by simp, by simp⟩
    have hH' := hvalid.year_le_iff.mp (hc.year_le_iff.mpr hH)
    refine tryHour_sound hz hvalid hp' hH' (.inl ?_)
    rw [hset v hlt, weekday_toDay hz (by rw [hnext] at hH'; omega)] at hv
    rw [dayMatches, hvalid.ofDayNumber, hnext, show 24 * (c.dayNumber + (v - c.day)) / 24 = c.dayNumber + (v - c.day) by omega]
    simpa [toDay, hyear, hmonth] using hv
  have hmonths := @Civil.dayNumber_nextMonth c.year c.month hc.date.one_le_month hc.date.month_le
  have hyears := @Civil.dayNumber_month_mono c.year (c.month + 1) 13 (by have := hc.date.one_le_month; simp only at *; omega)
    (by have := hc.date.month_le; simp only at *; omega) le_rfl
  rw [Civil.dayNumber_nextYear] at hyears
  have hbound := newYear_le (hc.year_le_iff.mpr hH)
  refine key_le rfl rfl ?_
  have := Civil.dayNumber_day c.year c.month (Civil.daysInMonth c.month c.year + 1) c.day
  rw [hnext, hdays]
  unfold dayNumber
  omega

lemma tryMonth_sound (hyear : cc.year c.year) : cc.Sound p c.key (cc.tryMonth c) := by
  have hindex := hc.hourIndex
  have hone : 1 ≤ c.month := hc.date.one_le_month
  have hlast : c.month ≤ 12 := hc.date.month_le
  have hnext : ∀ v, (c.toMonth v).hourIndex = 24 * Civil.dayNumber ⟨c.year, v, 1⟩ := by
    simp only [hourIndex, dayNumber, toMonth]
    omega
  have hafter : ∀ v, c.month < v → v ≤ 13 → c.dayNumber < Civil.dayNumber ⟨c.year, v, 1⟩ ∧
      Civil.dayNumber ⟨c.year, v, 1⟩ ≤ Civil.dayNumber ⟨c.year + 1, 1, 1⟩ := by
    intro v hlt hle
    rw [← Civil.dayNumber_nextYear]
    exact ⟨hc.date.month.2.trans_le (Civil.dayNumber_month_mono (by simp only; omega) hlt (by omega)),
      Civil.dayNumber_month_mono (by omega) hle le_rfl⟩
  refine advance_sound (f := c.toMonth) (by omega) (if_pos rfl) (fun v hlt => if_neg (by omega)) (fun hv => ?_) (fun v hlt hle hno => ?_)
    (fun v p' hlt hle hv hp' => ?_) ?_ (.month rfl rfl rfl rfl rfl)
  · exact tryDay_sound hz hc hp hH hyear hv
  · obtain ⟨hlow, hhigh⟩ := hafter v hlt (by omega)
    refine ahead_hour hz hc hp rfl rfl (by rw [hnext]; omega) fun t hge hlt' hwanted => ?_
    rw [hnext] at hlt'
    rw [wanted_iff, isMatch_eq] at hwanted
    have hsame := hc.year_eq (n := cc.tz.hour t / 24) (by omega) (by omega)
    have hstart : Civil.dayNumber ⟨c.year, c.month, 1⟩ ≤ c.dayNumber := hc.date.month.1
    have hlow' := @Civil.month_lt_iff (cc.tz.hour t / 24) c.month hone (by omega)
    have hhigh' := @Civil.month_lt_iff (cc.tz.hour t / 24) v (by omega) (by omega)
    rw [hsame] at hlow' hhigh'
    have hmonth := hno (Civil.ofDayNumber (cc.tz.hour t / 24)).month (by omega) (by omega)
    rw [dayMatches, hmonth] at hwanted
    simp at hwanted
  · have hvalid : (c.toMonth v).Valid :=
      ⟨⟨by simp only [toMonth]; omega, hle, le_rfl, Civil.one_le_daysInMonth _ _⟩, by simp, by simp, by simp⟩
    exact tryDay_sound hz hvalid hp' (hvalid.year_le_iff.mp (hc.year_le_iff.mpr hH)) hyear hv
  have hbound := newYear_le (hc.year_le_iff.mpr hH)
  have hend := (hafter 13 (by omega) le_rfl).2
  exact key_le rfl rfl (by rw [hnext]; exact (Int.mul_le_mul_of_nonneg_left hend (by decide)).trans hbound)

omit hH in
lemma tryYear_sound : cc.Sound p c.key (cc.tryYear c) := by
  have hindex := hc.hourIndex
  have hend := hc.year_le_iff
  unfold tryYear
  split
  · rename_i hpast
    intro t hge hwanted
    have hle := (Stands.le_hour hz.toHourly hp hc.inHour.1).trans (hz.toHourly.hour_mono hge)
    have := (wanted_iff.mp hwanted).2
    omega
  rename_i hyears
  split
  · rename_i hyear
    have hnext : (⟨c.year + 1, 1, 1, 0, 0, 0, false⟩ : Clock).hourIndex = 24 * Civil.dayNumber ⟨c.year + 1, 1, 1⟩ := by
      simp only [hourIndex, dayNumber]
      omega
    have hafter : c.dayNumber < Civil.dayNumber ⟨c.year + 1, 1, 1⟩ := hc.date.year.2
    have hbound := newYear_le (Int.not_lt.mp hyears)
    obtain ⟨hkey, hstands⟩ : cc.Ahead p c.key ⟨c.year + 1, 1, 1, 0, 0, 0, false⟩ := ahead_hour hz hc hp rfl rfl (by omega)
      fun t hlow hhigh hwanted => by
        rw [wanted_iff, isMatch_eq, dayMatches, hc.year_eq (by omega) (by omega)] at hwanted
        simp_all
    exact ⟨hkey, key_le rfl rfl (by omega),
      .valid ⟨⟨le_rfl, by simp, le_rfl, Civil.one_le_daysInMonth _ _⟩, by simp, by simp, by simp⟩, hstands⟩
  rename_i hyear
  exact tryMonth_sound hz hc hp (hend.mp (Int.not_lt.mp hyears)) (by simpa using hyear)

omit hc hp hH in
lemma iteration_sound (h : c.InRange) (hp : c.StandsAt cc.tz p) :
    cc.Sound p c.key (cc.tryYear (c.normalize cc.tz)) := by
  have hvalid := (h.normalize cc.tz).1
  obtain hlt | hge := Int.lt_or_le c.hourIndex endOfHours
  · obtain ⟨hstands, hkey⟩ := StandsAt.normalize hz h hp hlt
    exact (tryYear_sound hz hvalid hstands).skip le_rfl (fun t hge hlt => by omega) hkey
  -- Past the last year there is nothing to find, whatever the carries do.
  · have hyear : maxCalendarYear < (c.normalize cc.tz).year := by
      have := hvalid.year_le_iff
      have := h.hourIndex_le_normalize cc.tz
      omega
    rw [tryYear, if_pos hyear]
    intro t hpt hwanted
    have hle := (Stands.le_hour hz.toHourly hp h.inHour_nonneg).trans (hz.toHourly.hour_mono hpt)
    have := (wanted_iff.mp hwanted).2
    omega

omit hc hp hH in
lemma search_sound {fuel : Nat} (h : c.InRange) (hp : c.StandsAt cc.tz p) (hpos : 0 < fuel)
    (hfuel : 7200 * endOfHours < c.key + fuel) :
    (∃ r, cc.search fuel c = some (some r) ∧ IsLeast {t | p ≤ t ∧ cc.Wanted t} r) ∨
      cc.search fuel c = some none ∧ ∀ t, p ≤ t → ¬cc.Wanted t := by
  induction fuel generalizing c p with
  | zero => omega
  | succ fuel ih =>
    have hsound := iteration_sound hz h hp
    rw [search]
    cases hout : cc.tryYear (c.normalize cc.tz) with rw [hout] at hsound
    | found r =>
      obtain ⟨hle, hwanted, hno⟩ := hsound
      refine .inl ⟨r, rfl, ⟨hle, hwanted⟩, fun t ht => ?_⟩
      by_contra hlt
      exact hno t ht.1 (by omega) ht.2
    | exhausted =>
      exact .inr ⟨rfl, hsound⟩
    | again c' =>
      obtain ⟨hkey, hbound, hrange, p', hp', hle, hno⟩ := hsound
      have hlater : ∀ t, p ≤ t → cc.Wanted t → p' ≤ t := by
        intro t hpt hwanted
        by_contra hlt
        exact hno t hpt (by omega) hwanted
      obtain ⟨r, hr, hleast⟩ | ⟨hnone, hno'⟩ := ih hrange hp' (by omega) (by omega)
      · refine .inl ⟨r, hr, ⟨hle.trans hleast.1.1, hleast.1.2⟩, fun t ht => ?_⟩
        exact hleast.2 ⟨hlater t ht.1 ht.2, ht.2⟩
      · exact .inr ⟨hnone, fun t hpt hwanted => hno' t (hlater t hpt hwanted) hwanted⟩

end CompiledCalendar

/-! ### The start of the search -/

lemma Clock.ofWall_valid (w : Int) : (ofWall w).Valid := by
  refine ⟨Civil.valid_ofDayNumber (w / 86400), ?_, ?_, ?_⟩ <;> simp only [ofWall] <;> omega

lemma Clock.ofWall_wall (w : Int) : (ofWall w).hourIndex = w / 3600 ∧ (ofWall w).inHour = w % 3600 := by
  have hday : (ofWall w).dayNumber = w / 86400 := Civil.dayNumber_ofDayNumber (w / 86400)
  show 24 * (ofWall w).dayNumber + w % 86400 / 3600 = w / 3600 ∧ 60 * (w % 3600 / 60) + w % 60 = w % 3600
  omega

namespace CompiledCalendar

variable {cc : CompiledCalendar Zone}

lemma start_inRange (cc : CompiledCalendar Zone) (ts : Int) : (cc.start ts).InRange := by
  have hvalid := ofWall_valid (cc.tz.wall ts)
  have hsecond := hvalid.second
  obtain hend | hin : (cc.start ts).second = 60 ∨ (cc.start ts).second < 60 := by
    simp only [start]
    omega
  · exact .second ⟨hvalid.date, hvalid.hour, hvalid.minute, by simp⟩ hend
  refine .valid ⟨hvalid.date, hvalid.hour, hvalid.minute, ?_, hin⟩
  simp only [start]
  omega

lemma start_standsAt (hz : cc.tz.Hourly) (ts : Int) : (cc.start ts).StandsAt cc.tz (ts + 1) := by
  obtain ⟨hindex, hin⟩ := ofWall_wall (cc.tz.wall ts)
  have hindex' : (cc.start ts).hourIndex = cc.tz.hour ts := hindex
  have hin' : (cc.start ts).inHour = cc.tz.wall ts % 3600 + 1 := by
    rw [← hin]
    simp only [start, inHour]
    omega
  -- The start of the hour, and of the hour before it.
  have hblock := hz.block ts
  have hmod := hz.wall_mod ts (-3600)
  have hblock' := hz.block (ts - 3600)
  rw [← Int.sub_eq_add_neg] at hmod
  rw [show cc.tz.wall (ts - 3600) % 3600 = cc.tz.wall ts % 3600 by omega] at hblock'
  obtain ⟨q, hq⟩ : ∃ q, q = ts - cc.tz.wall ts % 3600 := ⟨_, rfl⟩
  have hprev : q - 3600 = ts - 3600 - cc.tz.wall ts % 3600 := by omega
  rw [← hq] at hblock
  rw [← hprev] at hblock'
  have hwall : cc.tz.wall q = cc.tz.wall ts - cc.tz.wall ts % 3600 := by
    unfold Zone.wall at *
    omega
  have hwall' : cc.tz.wall (q - 3600) = cc.tz.wall (ts - 3600) - cc.tz.wall ts % 3600 := by
    unfold Zone.wall at *
    omega
  have hnext := hz.next (q - 3600) (by omega)
  rw [Int.sub_add_cancel] at hnext
  have hdst : (cc.start ts).dst ↔ cc.tz.hour (q - 3600) = cc.tz.hour ts := by
    show (cc.tz.wall (ts - 3600) % 86400 / 3600 == cc.tz.wall ts % 86400 / 3600) ↔ _
    rw [beq_iff_eq]
    unfold Zone.hour at *
    omega
  have hqH : cc.tz.hour q = cc.tz.hour ts := by
    unfold Zone.hour at *
    omega
  unfold StandsAt
  rw [hindex', hin']
  cases hcopy : (cc.start ts).dst with
  | true =>
    have hrepeated := hdst.mp hcopy
    have honce : cc.tz.hour (q - 3600 - 3600) ≠ cc.tz.hour ts := by
      have hmod2 := hz.wall_mod (q - 3600) (-3600)
      rw [← Int.sub_eq_add_neg] at hmod2
      have hapart := hz.apart (q - 3600 - 3600) (by omega)
      rw [Int.sub_add_cancel, show q - 3600 - 3600 + 7200 = q by omega] at hapart
      unfold Zone.hour at *
      omega
    have hfirst := hz.first (by omega) hrepeated honce
    have hstands := Stands.second (x := cc.tz.wall ts % 3600 + 1) hfirst hrepeated (by rw [Int.sub_add_cancel, hqH])
    rwa [show q - 3600 + 3600 + (cc.tz.wall ts % 3600 + 1) = ts + 1 by omega] at hstands
  | false =>
    have hne : cc.tz.hour (q - 3600) ≠ cc.tz.hour ts := fun heq => by simp [hdst.mpr heq] at hcopy
    have hstands := Stands.first (x := cc.tz.wall ts % 3600 + 1) (hz.first (by omega) hqH hne) hqH
    rwa [show q + (cc.tz.wall ts % 3600 + 1) = ts + 1 by omega] at hstands

lemma next_cases (hz : cc.tz.Regular searchLimit) (ts : Int) :
    (∃ r, cc.next ts = some r ∧ IsLeast {t | ts < t ∧ cc.Wanted t} r) ∨
      cc.next ts = none ∧ ∀ t, ts < t → ¬cc.Wanted t := by
  have hfuel : 0 < (cc.start ts).fuel ∧ 7200 * endOfHours < (cc.start ts).key + (cc.start ts).fuel := by
    unfold fuel
    omega
  unfold next
  obtain ⟨r, hr, hleast⟩ | ⟨hnone, hno⟩ :=
    search_sound hz (cc.start_inRange ts) (start_standsAt hz.toHourly ts) hfuel.1 hfuel.2
  · exact .inl ⟨r, by rw [hr]; rfl, hleast⟩
  · exact .inr ⟨by rw [hnone]; rfl, hno⟩

end CompiledCalendar

end FastOrchestration.Scheduler.Compile
