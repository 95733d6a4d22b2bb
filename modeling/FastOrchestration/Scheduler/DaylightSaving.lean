import FastOrchestration.Scheduler.CalendarSearch

/-!
# Calendars and daylight saving

In a time zone with daylight saving, `next` relies on `time.Date` for wall times that are shown twice or
skipped. It takes the first of two copies to be the one that `time.Date` gives, and adds an hour for the
second one; and it takes the day of the week from `time.Date` at the first second of a day. Neither holds in all
zones. East of Greenwich `time.Date` gives the second copy (`berlin_skips_first_copy`), and west of Greenwich
a skipped midnight is taken for the evening before.

`next_earliest_iff` says that these are all the cases: `next` finds the earliest match, for every calendar and
time, in exactly the zones that are `Favourable`.
-/

namespace FastOrchestration.Scheduler.Compile

open Lib Clock
open CalendarField (maxCalendarYear)

namespace CompiledCalendar

/-- `next` is the earliest instant after `ts` that matches, up to the last year that is looked at. -/
def Earliest (cc : CompiledCalendar Zone) (ts : Int) : Prop :=
  (∀ r, cc.next ts = some r → IsLeast {t | ts < t ∧ cc.Wanted t} r) ∧ (cc.next ts = none → ∀ t, ts < t → ¬cc.Wanted t)

variable {cc : CompiledCalendar Zone}

lemma earliest_of_regular (hz : cc.tz.Regular searchLimit) (ts : Int) : cc.Earliest ts := by
  obtain ⟨r, hr, hleast⟩ | ⟨hnone, hno⟩ := next_cases hz ts
  · refine ⟨fun r' hr' => ?_, fun hnone => ?_⟩
    · cases hr.symm.trans hr'
      exact hleast
    · cases hr.symm.trans hnone
  refine ⟨fun r' hr' => ?_, fun _ => hno⟩
  cases hnone.symm.trans hr'

/-! ### Searches that end in the first iteration -/

lemma next_of_found {ts r} (h : cc.tryYear ((cc.start ts).normalize cc.tz) = .found r) : cc.next ts = some r := by
  rw [next, fuel, search, h]
  rfl

lemma start_fields (cc : CompiledCalendar Zone) (ts : Int) :
    (cc.start ts).hourIndex = cc.tz.hour ts ∧ (cc.start ts).inHour = cc.tz.wall ts % 3600 + 1 ∧
      ((cc.start ts).dst ↔ cc.tz.hour (ts - 3600) % 24 = cc.tz.hour ts % 24) := by
  obtain ⟨hindex, hin⟩ := ofWall_wall (cc.tz.wall ts)
  refine ⟨hindex, ?_, ?_⟩
  · rw [← hin]
    simp only [start, inHour]
    omega
  show (cc.tz.wall (ts - 3600) % 86400 / 3600 == cc.tz.wall ts % 86400 / 3600) ↔ _
  rw [beq_iff_eq]
  unfold Zone.hour
  omega

lemma advance_of_match {p x} (last : Int) (set : Int → Clock) (rest : Clock → Progress)
    (h : p x) : advance p x last set rest = rest (set x) := by
  rw [advance, seek, if_pos h]

def always (z : Zone) : CompiledCalendar Zone :=
  { tz := z
    year := fun _ => true
    month := fun _ => true
    dayOfMonth := fun _ => true
    dayOfWeek := fun _ => true
    hour := fun _ => true
    minute := fun _ => true
    second := fun _ => true }

lemma always_tryYear {z} {c : Clock} (h : c.year ≤ maxCalendarYear) : (always z).tryYear c = (always z).conclude c := by
  rw [tryYear, if_neg (by omega), if_neg (by simp [always]), tryMonth, advance_of_match _ _ _ rfl, setMonth, if_pos rfl,
    tryDay, advance_of_match _ _ _ rfl, setDay, if_pos rfl, tryHour, advance_of_match _ _ _ rfl, setHour,
    if_pos rfl, tryMinute, advance_of_match _ _ _ rfl, setMinute, if_pos rfl, trySecond, advance_of_match _ _ _ rfl]
  rfl

lemma always_wanted {z : Zone} {t} : (always z).Wanted t ↔ z.hour t < endOfHours := by
  rw [wanted_iff]
  simp [always, isMatch]

lemma conclude_of_wall {c : Clock} {t} (hc : c.Valid) (hdate : cc.tz.date c.wall = t) (hwall : cc.tz.wall t = c.wall) :
    cc.conclude c = .found (t + if c.dst then 3600 else 0) := by
  have hhour : (ofWall (cc.tz.wall t)).hour = c.hour := by
    have := hc.hourIndex.2
    have := hc.inHour
    rw [hwall, c.wall_eq]
    show _ % 86400 / 3600 = _
    omega
  unfold conclude
  rw [hdate, if_neg (not_not.mpr hhour)]

/-- The carry from the last second of an hour that is no second copy. -/
lemma start_last {cc : CompiledCalendar Zone} {ts H} (hlast : cc.tz.wall ts = 3600 * H + 3599)
    (hfirst : cc.tz.hour (ts - 3600) % 24 ≠ H % 24) : ∃ c', (cc.start ts).normalize cc.tz = c' ∧ c'.Valid ∧
      if 3600 < cc.tz.date (3600 * (H + 1)) - cc.tz.date (3600 * H) then
        c'.hourIndex = H ∧ c'.inHour = 0 ∧ c'.dst = true
      else c'.hourIndex = H + 1 ∧ c'.inHour = 0 ∧ c'.dst = false := by
  obtain ⟨hindex, hin, hdst⟩ := cc.start_fields ts
  obtain ⟨hvalid, hsame | ⟨-, hfollows⟩⟩ := (cc.start_inRange ts).normalize cc.tz
  · have := hsame.inHour
    have := hvalid.inHour
    omega
  have hH : cc.tz.hour ts = H := by
    unfold Zone.hour
    omega
  unfold Follows at hfollows
  rw [hindex, Bool.eq_false_iff.mpr (mt hdst.mp (hH ▸ hfirst)), hH] at hfollows
  exact ⟨_, rfl, hvalid, by simpa using hfollows⟩

def weekly (z : Zone) (dayOfWeek hour : Int) : CompiledCalendar Zone :=
  { always z with dayOfWeek := (· == dayOfWeek), hour := (· == hour) }

/-! ### Zones where the search fails -/

section necessary

variable {z : Zone} {c : Int} (hz : z.OneHourChanges)

include hz

lemma wall_before (hc : z.Changes c) (u) (hlt : u < c) (hweek : c ≤ u + 604800) : z.wall u = u + z.offset (c - 1) := by
  rw [Zone.wall, hz.offset_before hc hlt hweek]

/-- Where the clock is set back from ahead of UTC, the last second of the first copy is not found. -/
lemma setBack_fails (hback : z.SetBack c) (hlimit : z.wall c < searchLimit) (hahead : 0 < z.offset (c - 1)) :
    ¬(always z).Earliest (c - 2) := by
  have hbefore := wall_before hz hback.changes
  have hwhole := hz.whole c hback.changes
  have hafter : z.wall (c + 3599) = c + 3599 + z.offset c := by
    rw [Zone.wall, hz.offset_after hback.changes (show c ≤ c + 3599 by omega) (by omega)]
  have hw : z.wall c = c + z.offset c := rfl
  have hw1 := hbefore (c - 1) (by omega) (by omega)
  have hw2 := hbefore (c - 2) (by omega) (by omega)
  have hw3 := hbefore (c - 2 - 3600) (by omega) (by omega)
  have hdate := hz.date_repeated hback (show c - 1 < c by omega) (by omega)
  rw [if_neg (by omega)] at hdate
  unfold Zone.SetBack at hback
  obtain ⟨hindex, hin, hdst⟩ := (always z).start_fields (c - 2)
  have hvalid : ((always z).start (c - 2)).Valid := by
    have hfields := ofWall_valid (z.wall (c - 2))
    refine ⟨hfields.date, hfields.hour, hfields.minute, ?_⟩
    show 0 ≤ z.wall (c - 2) % 60 + 1 ∧ z.wall (c - 2) % 60 + 1 < 60
    omega
  have hcopy : ((always z).start (c - 2)).dst = false := by
    rw [← Bool.not_eq_true, hdst]
    show z.wall (c - 2 - 3600) / 3600 % 24 ≠ z.wall (c - 2) / 3600 % 24
    omega
  have hwall : ((always z).start (c - 2)).wall = z.wall (c - 1) := by
    rw [wall_eq, hindex, hin]
    show 3600 * (z.wall (c - 2) / 3600) + (z.wall (c - 2) % 3600 + 1) = _
    omega
  have hend : 3600 * endOfHours = searchLimit := rfl
  have hfound : (always z).next (c - 2) = some (c + 3599) := by
    apply next_of_found
    rw [normalize_eq, carrySecond_of_lt hvalid.second.2, carryMinute_of_lt _ hvalid.minute.2, hvalid.carries,
      always_tryYear, conclude_of_wall (t := c - 1 + 3600) hvalid (by rw [hwall]; exact hdate), hcopy]
    · show Progress.found (c - 1 + 3600 + 0) = _
      congr 1
      omega
    · rw [hwall, show c - 1 + 3600 = c + 3599 by omega]
      show z.wall (c + 3599) = _
      omega
    rw [hvalid.year_le_iff, hindex]
    show z.wall (c - 2) / 3600 < _
    omega
  intro hearliest
  have hleast := (hearliest.1 _ hfound).2 (show c - 1 ∈ _ from ⟨by omega, always_wanted.mpr (by unfold Zone.hour; omega)⟩)
  omega

/-- Where the clock is set back to the turn of the year from an hour or more ahead of UTC, the last hour of the
year seems to be repeated, and a time of the next year is found. -/
lemma setBack_limit_fails (hback : z.SetBack c) (hlimit : z.wall c = searchLimit) (hahead : 3600 ≤ z.offset (c - 1)) :
    ¬(always z).Earliest (c - 3601) := by
  have hbefore := wall_before hz hback.changes
  have hw : z.wall c = c + z.offset c := rfl
  have hw1 := hbefore (c - 3600) (by omega) (by omega)
  have hw2 := hbefore (c - 3601) (by omega) (by omega)
  have hw3 := hbefore (c - 3601 - 3600) (by omega) (by omega)
  have hw4 := hbefore (c - 7200) (by omega) (by omega)
  have hw5 := hbefore (c - 7200 - 3600) (by omega) (by omega)
  have hnext := hz.date_repeated hback (show c - 3600 < c by omega) (by omega)
  rw [if_neg (by omega)] at hnext
  have hprev := @Zone.OneHourChanges.date_once z hz (c - 7200) (by omega)
    (by rw [show c - 7200 + 3600 = c - 3600 by omega]; unfold Zone.SetBack at hback; omega)
  unfold Zone.SetBack at hback
  have hend : 3600 * endOfHours = searchLimit := rfl
  have hdates : z.date (3600 * (endOfHours - 1 + 1)) = c - 3600 + 3600 ∧ z.date (3600 * (endOfHours - 1)) = c - 7200 := by
    rw [← hnext, ← hprev]
    constructor <;>
    · congr 1
      omega
  obtain ⟨c', hc', hvalid, hcarry⟩ := @start_last (always z) (c - 3601) (endOfHours - 1)
    (by show z.wall (c - 3601) = _; omega) (by show z.wall (c - 3601 - 3600) / 3600 % 24 ≠ _; omega)
  rw [show (always z).tz = z from rfl, hdates.1, hdates.2, if_pos (by omega)] at hcarry
  obtain ⟨hH, hx, hsecond⟩ := hcarry
  have hwall : c'.wall = 3600 * (endOfHours - 1) := by
    rw [wall_eq, hH, hx]
    omega
  have hyear : c'.year ≤ maxCalendarYear := by
    rw [hvalid.year_le_iff]
    omega
  have hfound : (always z).next (c - 3601) = some (c - 3600) := by
    apply next_of_found
    rw [hc', always_tryYear hyear, conclude_of_wall (t := c - 7200) hvalid (by rw [hwall]; exact hdates.2)
      (by rw [hwall, show (always z).tz = z from rfl]; omega), hsecond]
    show Progress.found (c - 7200 + 3600) = _
    congr 1
    omega
  intro hearliest
  have hwanted := always_wanted.mp (hearliest.1 _ hfound).1.2
  unfold Zone.hour at hwanted
  omega

/-- Where the clock is set forward at midnight from behind UTC, the day seems to be the one before. -/
lemma setForward_fails (hforward : z.SetForward c) (hmidnight : z.wall c % 86400 = 3600)
    (hlimit : z.wall c < searchLimit + 3600) (hbehind : z.offset (c - 1) < 0) :
    ¬(weekly z (Civil.weekday (z.wall c / 86400 - 1)) 1).Earliest (c - 1) := by
  obtain ⟨n, hn⟩ : ∃ n, n = z.wall c / 86400 := ⟨_, rfl⟩
  rw [← hn]
  have hbefore := wall_before hz hforward.changes
  have hw : z.wall c = c + z.offset c := rfl
  have hafter : z.wall (c + 3600) = c + 3600 + z.offset c := by
    rw [Zone.wall, hz.offset_after hforward.changes (show c ≤ c + 3600 by omega) (by omega)]
  have hw1 := hbefore (c - 1) (by omega) (by omega)
  have hw2 := hbefore (c - 1 - 3600) (by omega) (by omega)
  have hw3 := hbefore (c - 3600) (by omega) (by omega)
  have hw4 := hbefore (c - 3600 - 3600) (by omega) (by omega)
  have hskipped := hz.date_skipped hforward (show 0 ≤ (0 : Int) by omega) (by omega)
  rw [if_pos (by omega)] at hskipped
  unfold Zone.SetForward at hforward
  have hprev := @Zone.OneHourChanges.date_once z hz (c - 3600) (by omega) (by rw [Int.sub_add_cancel]; omega)
  have honce := @Zone.OneHourChanges.date_once z hz c (by omega) (by omega)
  have hend : 3600 * endOfHours = searchLimit := rfl
  obtain ⟨cc, hcc⟩ : ∃ cc, cc = weekly z (Civil.weekday (n - 1)) 1 := ⟨_, rfl⟩
  have htz : cc.tz = z := by rw [hcc]; rfl
  rw [← hcc]
  have hdates : z.date (3600 * (24 * n - 1 + 1)) = c + 0 - 3600 ∧ z.date (3600 * (24 * n - 1)) = c - 3600 := by
    rw [← hskipped, ← hprev]
    constructor <;>
    · congr 1
      omega
  obtain ⟨c', hc', hvalid, hcarry⟩ := @start_last cc (c - 1) (24 * n - 1) (by rw [htz]; omega)
    (by rw [htz, Zone.hour]; omega)
  rw [htz, hdates.1, hdates.2, if_neg (by omega)] at hcarry
  obtain ⟨hH, hx, -⟩ := hcarry
  have hhour : c'.hour = 0 := by
    have := hvalid.hourIndex.2
    omega
  have hwall : c'.wall = 3600 * (24 * n - 1 + 1) := by
    rw [wall_eq, hH, hx]
    omega
  have hyear : c'.year ≤ maxCalendarYear := by
    rw [hvalid.year_le_iff]
    omega
  -- The day of the week is the one of the day before.
  have hday : (cc.dayOfMonth c'.day && cc.dayOfWeek ((c'.setDay c'.day).weekday cc.tz)) := by
    rw [setDay, if_pos rfl, weekday, hwall, htz, hdates.1, show c + 0 - 3600 = c - 3600 by omega,
      show z.wall (c - 3600) / 86400 = n - 1 by omega, hcc]
    simp [weekly, always]
  have hone : (Clock.mk c'.year c'.month c'.day 1 0 0 false).Valid := ⟨hvalid.date, by simp, by simp, by simp⟩
  have hwall' : (Clock.mk c'.year c'.month c'.day 1 0 0 false).wall = z.wall c := by
    have hdn := hvalid.hourIndex.1
    unfold dayNumber at hdn
    simp only [wall, dayNumber]
    omega
  have hfound : cc.next (c - 1) = some c := by
    apply next_of_found
    rw [hc', tryYear, if_neg (by omega), if_neg (by rw [hcc]; simp [weekly, always]), tryMonth,
      advance_of_match _ _ _ (by rw [hcc]; rfl), setMonth, if_pos rfl, tryDay, advance_of_match _ _ _ hday, setDay,
      if_pos rfl, tryHour, advance, hhour, show seek cc.hour 0 23 = some 1 by rw [hcc]; rfl]
    show cc.tryMinute (c'.setHour 1) = _
    rw [setHour, if_neg (by omega)]
    rw [tryMinute, advance_of_match _ _ _ (by rw [hcc]; rfl), setMinute, if_pos rfl, trySecond,
      advance_of_match _ _ _ (by rw [hcc]; rfl)]
    show cc.conclude (Clock.mk c'.year c'.month c'.day 1 0 0 false) = _
    rw [conclude_of_wall (t := c) hone (by rw [hwall', htz]; exact honce) (by rw [hwall', htz])]
    show Progress.found (c + 0) = _
    rw [Int.add_zero]
  intro hearliest
  have hwanted := (wanted_iff.mp (hearliest.1 _ hfound).1.2).1
  rw [isMatch_eq, dayMatches, htz, show z.hour c / 24 = n by unfold Zone.hour; omega, hcc] at hwanted
  simp only [weekly, Bool.and_eq_true, beq_iff_eq, Civil.weekday] at hwanted
  omega

end necessary

/-- In a zone with daylight saving, `next` finds the earliest match for every calendar and every time exactly if
the clock is set back only where it was not ahead of UTC, and is not set forward at a midnight where it was behind
UTC. -/
theorem next_earliest_iff {z : Zone} (hz : z.OneHourChanges) :
    (∀ cc : CompiledCalendar Zone, cc.tz = z → ∀ ts, cc.Earliest ts) ↔ z.Favourable searchLimit := by
  constructor
  · intro hall
    refine ⟨fun c hback hlimit => ?_, fun c hback hlimit => ?_, fun c hforward hmidnight hlimit => ?_⟩
    · by_contra hahead
      exact setBack_fails hz hback hlimit (by omega) (hall (always z) rfl _)
    · by_contra hahead
      exact setBack_limit_fails hz hback hlimit (by omega) (hall (always z) rfl _)
    by_contra hbehind
    exact setForward_fails hz hforward hmidnight hlimit (by omega) (hall (weekly z _ 1) rfl _)
  rintro hfavourable cc rfl ts
  exact earliest_of_regular (hz.regular hfavourable) ts

/-- New York around the year 2025. -/
def newYork : Zone :=
  ⟨fun t => if t < 1741503600 then -18000 else if t < 1762063200 then -14400 else -18000⟩

lemma newYork_changes {t} (h : newYork.Changes t) : t = 1741503600 ∨ t = 1762063200 := by
  simp only [Zone.Changes, newYork] at h
  split_ifs at h <;> omega

lemma newYork_oneHourChanges : newYork.OneHourChanges := by
  refine ⟨fun t ht => ?_, fun t ht => ?_, fun t t' ht ht' hlt => ?_, fun t => ?_⟩
  · obtain rfl | rfl := newYork_changes ht
    · exact .inr rfl
    · exact .inl rfl
  · obtain rfl | rfl := newYork_changes ht <;> rfl
  · have := newYork_changes ht
    have := newYork_changes ht'
    omega
  simp only [newYork]
  split_ifs <;> omega

theorem newYork_earliest : newYork.OneHourChanges ∧
    ∀ cc : CompiledCalendar Zone, cc.tz = newYork → ∀ ts, cc.Earliest ts := by
  refine ⟨newYork_oneHourChanges, (next_earliest_iff newYork_oneHourChanges).mpr ⟨?_, ?_, ?_⟩⟩
  · intro t _ _
    simp only [newYork]
    split_ifs <;> omega
  · intro t _ _
    simp only [newYork]
    split_ifs <;> omega
  intro t ht hmidnight
  obtain rfl | rfl := newYork_changes ht.changes
  · exact absurd hmidnight (by decide)
  · exact absurd (show (-18000 : Int) = -14400 + 3600 from ht) (by decide)

/-- Berlin at the end of October 2025. -/
def berlin : Zone := ⟨fun t => if t < 1761440400 then 7200 else 3600⟩

lemma berlin_changes {t} (h : berlin.Changes t) : t = 1761440400 := by
  simp only [Zone.Changes, berlin] at h
  split_ifs at h <;> omega

lemma berlin_oneHourChanges : berlin.OneHourChanges := by
  refine ⟨fun t ht => ?_, fun t ht => ?_, fun t t' ht ht' hlt => ?_, fun t => ?_⟩
  · cases berlin_changes ht
    exact .inl rfl
  · cases berlin_changes ht
    rfl
  · have := berlin_changes ht
    have := berlin_changes ht'
    omega
  simp only [berlin]
  split_ifs <;> omega

def halfPastTwo (z : Zone) : CompiledCalendar Zone :=
  { always z with hour := (· == 2), minute := (· == 30), second := (· == 0) }

/-- When the clock is set back, half past two is shown at 00:30 and at 01:30 UTC. From midnight on, `next` finds
the second one. -/
theorem berlin_skips_first_copy : berlin.OneHourChanges ∧ (halfPastTwo berlin).tz = berlin ∧
    (halfPastTwo berlin).next 1761429600 = some 1761442200 ∧ (halfPastTwo berlin).Wanted 1761438600 ∧
      ¬(halfPastTwo berlin).Earliest 1761429600 := by
  have hnext : (halfPastTwo berlin).next 1761429600 = some 1761442200 := by decide +kernel
  have hwanted : (halfPastTwo berlin).Wanted 1761438600 := ⟨by decide +kernel, by decide +kernel⟩
  refine ⟨berlin_oneHourChanges, rfl, hnext, hwanted, fun hearliest => ?_⟩
  have hleast := (hearliest.1 _ hnext).2 (show (1761438600 : Int) ∈ _ from ⟨by decide, hwanted⟩)
  omega

end CompiledCalendar

end FastOrchestration.Scheduler.Compile
