import FastOrchestration.Lib.Civil
import FastOrchestration.Lib.Run
import FastOrchestration.Lib.WallClock
import FastOrchestration.Scheduler.Ranges
import FastOrchestration.Scheduler.Spec

/-!
# Compiling a schedule spec

Model of `NewCompiledSpec`, `canonicalizeSpec`, `validateInterval` and `CanonicalForm` in
`service/worker/scheduler/spec.go`, and of `parseCronString`, `makeBitMatcher`, `makeYearMatcher` and
`newCompiledCalendar` in `calendar.go`. Loading a time zone and `timestamp.ParseDuration` are given with the
`SpecBuilder`; the cache of time zones is left out, since it returns what loading returns.

`canonicalizeSpec` validates calendars and intervals, but not the excluded calendars. A range of one of these
can be negative, and shifting by a negative number panics (`negativeExclude_panics`). `newCompiledSpec_safe`
says that compilation is safe exactly where the excluded calendars that a client sends are in bounds, or the
spec is rejected for something else.
-/

namespace FastOrchestration.Scheduler.Compile

open Lib List GoText

structure ScheduleSpec where
  structuredCalendar : List StructuredCalendarSpec := []
  cronString : List (List Char) := []
  calendar : List CalendarSpec := []
  interval : List IntervalSpec := []
  excludeCalendar : List CalendarSpec := []
  excludeStructuredCalendar : List StructuredCalendarSpec := []
  startTime : Option Int := none
  endTime : Option Int := none
  jitter : Int := 0
  timezoneName : List Char := []
  timezoneData : Option (List UInt8) := none

/-- What compilation gets from outside, with time zones of type `τ`. -/
structure SpecBuilder (τ : Type) where
  /-- Go `timestamp.ParseDuration`. -/
  parseDuration : List Char → Except String Int
  /-- Go `time.LoadLocation`. -/
  loadLocation : List Char → Except String τ
  /-- Go `time.LoadLocationFromTZData`. -/
  loadLocationFromTZData : List Char → List UInt8 → Except String τ

variable {τ : Type} (b : SpecBuilder τ)

/-! ### Cron strings -/

def parseCronStringInterval (c : List Char) : Except String IntervalSpec :=
  match cut ' ' c with
  | none => .error "CronString does not have interval after @every"
  | some (_, text) => do
    let (interval, phase) := (cut '/' text).getD (text, [])
    let intervalDuration ← b.parseDuration interval
    if phase = [] then return ⟨intervalDuration, 0⟩
    let phaseDuration ← b.parseDuration phase
    return ⟨intervalDuration, phaseDuration⟩

def handlePredefinedCronStrings (c : List Char) : List Char :=
  if c = "@yearly".toList ∨ c = "@annually".toList then "0 0 1 1 *".toList
  else if c = "@monthly".toList then "0 0 1 * *".toList
  else if c = "@weekly".toList then "0 0 * * 0".toList
  else if c = "@daily".toList ∨ c = "@midnight".toList then "0 0 * * *".toList
  else if c = "@hourly".toList then "0 * * * *".toList
  else c

def splitTimezone (c : List Char) : Except String (List Char × List Char) :=
  if "TZ=".toList.isPrefixOf c ∨ "CRON_TZ=".toList.isPrefixOf c then
    match cut ' ' c with
    | none => .error "CronString has time zone but missing fields"
    | some (tz, rest) => .ok (rest, ((cut '=' tz).getD (tz, [])).2)
  else .ok (c, [])

def cronCalendar (comment : String) : List (List Char) → Except String CalendarSpec
  | [minute, hour, dayOfMonth, month, dayOfWeek] => .ok { minute, hour, dayOfMonth, month, dayOfWeek, comment }
  | [minute, hour, dayOfMonth, month, dayOfWeek, year] =>
    .ok { minute, hour, dayOfMonth, month, dayOfWeek, year, comment }
  | [second, minute, hour, dayOfMonth, month, dayOfWeek, year] =>
    .ok { second, minute, hour, dayOfMonth, month, dayOfWeek, year, comment }
  | _ => .error "CronString does not have 5-7 fields"

/-- A calendar with the name of its time zone, or an interval. -/
inductive Cron where
  | structured (calendar : StructuredCalendarSpec) (tzName : List Char)
  | interval (iv : IntervalSpec)

def Cron.tzName : Cron → List Char
  | structured _ tz => tz
  | interval _ => []

def parseCronString (c : List Char) : Except String Cron := do
  let (c, tzName) ← splitTimezone (trimSpace c)
  let (c, comment) := (cut '#' c).getD (c, [])
  let c := trimSpace c
  if "@every".toList.isPrefixOf c then return .interval (← parseCronStringInterval b c)
  let cal ← cronCalendar (String.ofList (trimSpace comment)) (fields (handlePredefinedCronStrings c))
  return .structured (← parseCalendarToStructured cal) tzName

/-! ### The canonical form -/

def conflictingTimezoneNames : String := "conflicting timezone names"

def unset : List Char := "__unset__".toList

/-- The loop over the cron strings: all must agree on the time zone. -/
def parseCronStrings (cronStrings : List (List Char)) : Except String (List Cron × List Char) :=
  cronStrings.foldlM (fun (crons, cronTZ) cs => do
    let cron ← parseCronString b cs
    if cronTZ ≠ unset ∧ cron.tzName ≠ cronTZ then .error conflictingTimezoneNames
    else .ok (crons ++ [cron], cron.tzName)) ([], unset)

/-- The name of the time zone, which may be given by the cron strings. -/
def canonicalTimezone (spec : ScheduleSpec) (cronTZ : List Char) : Except String (List Char) :=
  if cronTZ ≠ unset ∧ cronTZ ≠ [] then
    if spec.timezoneName ≠ [] ∧ spec.timezoneName ≠ cronTZ ∨ spec.timezoneData.isSome then
      .error conflictingTimezoneNames
    else .ok (if spec.timezoneName = [] then cronTZ else spec.timezoneName)
  else .ok spec.timezoneName

def validateInterval (i : IntervalSpec) : Except String Unit :=
  if i.interval < second then .error "interval is too small"
  else if i.phase < 0 then .error "phase is negative"
  else if i.phase ≥ i.interval then .error "phase cannot be greater than Interval"
  else .ok ()

def Cron.calendar? : Cron → Option StructuredCalendarSpec
  | structured cal _ => some cal
  | interval _ => none

def Cron.interval? : Cron → Option IntervalSpec
  | structured _ _ => none
  | interval iv => some iv

def canonicalizeSpec (spec : ScheduleSpec) : Except String ScheduleSpec := do
  let calendars ← spec.calendar.mapM parseCalendarToStructured
  let excludes ← spec.excludeCalendar.mapM parseCalendarToStructured
  let (crons, cronTZ) ← parseCronStrings b spec.cronString
  let timezoneName ← canonicalTimezone spec cronTZ
  let structuredCalendar := spec.structuredCalendar ++ calendars ++ crons.filterMap Cron.calendar?
  let interval := spec.interval ++ crons.filterMap Cron.interval?
  structuredCalendar.forM validateStructuredCalendar
  interval.forM validateInterval
  return { spec with
    structuredCalendar
    interval
    timezoneName
    excludeStructuredCalendar := spec.excludeStructuredCalendar ++ excludes
    calendar := []
    excludeCalendar := []
    cronString := [] }

/-! ### Compiled calendars -/

structure CompiledCalendar (τ : Type) where
  tz : τ
  year : Int → Bool
  month : Int → Bool
  dayOfMonth : Int → Bool
  dayOfWeek : Int → Bool
  hour : Int → Bool
  minute : Int → Bool
  second : Int → Bool

/-- Sets a bit; shifting by a negative number panics. -/
def addBit (bits : BitVec 64) (i : Int) : Except CompileFailure (BitVec 64) :=
  if i < 0 then .error .panic else .ok (bits ||| 1#64 <<< i.toNat)

def makeBitMatcher (fuel : Nat) (ranges : List Range) : Except CompileFailure (Int → Bool) := do
  let bits ← iterateRanges addBit fuel ranges 0#64
  return fun v => 1#64 <<< v.toNat &&& bits != 0#64

/-- Adds a year, which is kept in 16 bits. -/
def addYear (values : List Int) (i : Int) : Except CompileFailure (List Int) :=
  .ok (values ++ [i.bmod (2 ^ 16)])

def makeYearMatcher (fuel : Nat) (ranges : List Range) : Except CompileFailure (Int → Bool) :=
  if ranges = [] then .ok fun _ => true
  else do
    let values ← iterateRanges addYear fuel ranges []
    return fun v => v ∈ values

def newCompiledCalendar (fuel : Nat) (tz : τ) (cal : StructuredCalendarSpec) :
    Except CompileFailure (CompiledCalendar τ) := do
  let year ← makeYearMatcher fuel cal.year
  let month ← makeBitMatcher fuel cal.month
  let dayOfMonth ← makeBitMatcher fuel cal.dayOfMonth
  let dayOfWeek ← makeBitMatcher fuel cal.dayOfWeek
  let hour ← makeBitMatcher fuel cal.hour
  let minute ← makeBitMatcher fuel cal.minute
  let second ← makeBitMatcher fuel cal.second
  return { tz, year, month, dayOfMonth, dayOfWeek, hour, minute, second }

structure CompiledSpec (τ : Type) where
  spec : ScheduleSpec
  tz : τ
  calendar : List (CompiledCalendar τ)
  excludes : List (CompiledCalendar τ)

def loadTimezone (spec : ScheduleSpec) : Except String τ :=
  match spec.timezoneData with
  | some data => b.loadLocationFromTZData spec.timezoneName data
  | none => b.loadLocation spec.timezoneName

def asFailure {α : Type} : Except String α → Except CompileFailure α
  | .ok a => .ok a
  | .error message => .error (.error message)

def compileCalendars (fuel : Nat) (spec : ScheduleSpec) (tz : τ) : Except CompileFailure (CompiledSpec τ) := do
  let calendar ← spec.structuredCalendar.mapM (newCompiledCalendar fuel tz)
  let excludes ← spec.excludeStructuredCalendar.mapM (newCompiledCalendar fuel tz)
  return { spec, tz, calendar, excludes }

def newCompiledSpec (fuel : Nat) (spec : ScheduleSpec) : Except CompileFailure (CompiledSpec τ) := do
  let spec ← asFailure (canonicalizeSpec b spec)
  let tz ← asFailure (loadTimezone b spec)
  compileCalendars fuel spec tz

def CompiledSpec.canonicalForm (cs : CompiledSpec τ) : ScheduleSpec := cs.spec

/-! ### Compilation of calendars -/

/-- Any fuel from here on is enough for ranges that are in bounds. -/
def enoughFuel : Nat := 200

lemma length_values_lt {f} {r : Range} (h : r.InBounds f) : r.values.length < enoughFuel := by
  have hlast : r.lastValue ≤ f.maxRange := by
    have hmax := h.le_maxVal
    have hend := h.endValue
    have hmin : 0 ≤ f.minVal := by cases f <;> decide
    have := h.minVal_le
    unfold Range.lastValue
    split <;> omega
  have hspan : f.maxRange - f.minVal ≤ 100 := by cases f <;> decide
  have hmin := h.minVal_le
  have hdiv : (r.lastValue - r.start) / r.stepValue ≤ r.lastValue - r.start :=
    Int.ediv_le_self _ (by have := r.start_le_lastValue; omega)
  simp only [Range.values, length_map, length_range, enoughFuel]
  omega

lemma values_nonneg {f} {r : Range} (h : r.InBounds f) : ∀ v ∈ r.values, 0 ≤ v := by
  intro v hv
  obtain ⟨k, rfl, -⟩ := (Range.mem_values h.step).mp hv
  have hmin : 0 ≤ f.minVal := by cases f <;> decide
  have hstart := h.minVal_le
  have hmul : 0 ≤ k * r.stepValue := Int.mul_nonneg (by omega) (Range.stepValue_pos h.step).le
  omega

section calendars

variable {F : CompileFailure → Prop} {fuel : Nat}

lemma iterateRanges_yields {σ : Type} {f : σ → Int → Except CompileFailure σ} (hrunning : F .running)
    (hf : ∀ s i, Yields F (fun _ => True) (f s i)) {ranges : List Range} {s : σ} :
    Yields F (fun _ => True) (iterateRanges f fuel ranges s) := by
  have hloop : ∀ endValue step start s, Yields F (fun _ => True) (iterateRange f endValue step fuel start s) := by
    intro endValue step
    induction fuel with
    | zero => exact fun _ _ => hrunning
    | succ fuel ih =>
      intro start s
      rw [iterateRange]
      split
      · exact (hf s start).bind fun s' _ => ih (start + step) s'
      · trivial
  exact Yields.foldlM (fun _ _ _ _ => hloop _ _ _ _) trivial

lemma iterateRanges_inBounds {σ : Type} {f : σ → Int → Except CompileFailure σ}
    (hf : ∀ s i, 0 ≤ i → Yields F (fun _ => True) (f s i)) {field : CalendarField} {ranges : List Range}
    (h : ∀ r ∈ ranges, r.InBounds field) (hfuel : enoughFuel ≤ fuel) {s : σ} :
    Yields F (fun _ => True) (iterateRanges f fuel ranges s) := by
  have hlen : ∀ r ∈ ranges, r.values.length < fuel := fun r hr =>
    Nat.lt_of_lt_of_le (length_values_lt (h r hr)) hfuel
  rw [iterateRanges_eq f (fun r hr => (h r hr).step) hlen]
  refine Yields.foldlM (fun s _ v hv => hf s v ?_) trivial
  obtain ⟨r, hr, hv⟩ := mem_flatMap.mp hv
  exact values_nonneg (h r hr) v hv

lemma newCompiledCalendar_yields {cal : StructuredCalendarSpec} {tz : τ}
    (hbits : ∀ f, Yields F (fun _ => True) (iterateRanges addBit fuel (cal.ranges f) 0#64))
    (hyears : Yields F (fun _ => True) (iterateRanges addYear fuel cal.year [])) :
    Yields F (fun _ => True) (newCompiledCalendar fuel tz cal) := by
  have hmatcher : ∀ f, Yields F (fun _ => True) (makeBitMatcher fuel (cal.ranges f)) := fun f =>
    (hbits f).bind fun _ _ => trivial
  have hyear : Yields F (fun _ => True) (makeYearMatcher fuel cal.year) := by
    unfold makeYearMatcher
    split
    · trivial
    · exact hyears.bind fun _ _ => trivial
  refine hyear.bind fun _ _ => ?_
  refine (hmatcher .month).bind fun _ _ => ?_
  refine (hmatcher .dayOfMonth).bind fun _ _ => ?_
  refine (hmatcher .dayOfWeek).bind fun _ _ => ?_
  refine (hmatcher .hour).bind fun _ _ => ?_
  refine (hmatcher .minute).bind fun _ _ => ?_
  refine (hmatcher .second).bind fun _ _ => ?_
  trivial

lemma newCompiledCalendar_ok {cal : StructuredCalendarSpec} (h : cal.InBounds) (hfuel : enoughFuel ≤ fuel) (tz : τ) :
    Yields F (fun _ => True) (newCompiledCalendar fuel tz cal) := by
  apply newCompiledCalendar_yields
  · intro f
    refine iterateRanges_inBounds (fun bits i hi => ?_) (h f) hfuel
    rw [addBit, if_neg (by omega)]
    trivial
  have hadd : ∀ values i, 0 ≤ i → Yields F (fun _ => True) (addYear values i) := fun _ _ _ => trivial
  exact iterateRanges_inBounds hadd (h .year) hfuel

lemma newCompiledCalendar_no_error (fuel : Nat) (tz : τ) (cal : StructuredCalendarSpec) :
    Yields (fun p => ∀ message, p ≠ .error message) (fun _ => True) (newCompiledCalendar fuel tz cal) := by
  apply newCompiledCalendar_yields
  · intro f
    refine iterateRanges_yields (by simp) fun bits i => ?_
    unfold addBit
    split
    · exact fun _ => nofun
    · trivial
  have hadd : ∀ values i, Yields (fun p => ∀ message, p ≠ .error message) (fun _ => True) (addYear values i) :=
    fun _ _ => trivial
  exact iterateRanges_yields (by simp) hadd

end calendars

/-! ### Canonical forms -/

variable {b}

/-- What is known about a canonical form. -/
structure Canonical (spec canonical : ScheduleSpec) : Prop where
  calendar : canonical.calendar = []
  excludeCalendar : canonical.excludeCalendar = []
  cronString : canonical.cronString = []
  valid : canonical.structuredCalendar.forM validateStructuredCalendar = .ok ()
  validInterval : canonical.interval.forM validateInterval = .ok ()
  excludes : ∃ excludes, spec.excludeCalendar.mapM parseCalendarToStructured = .ok excludes ∧
    canonical.excludeStructuredCalendar = spec.excludeStructuredCalendar ++ excludes

lemma canonicalizeSpec_ok {spec canonical} (h : canonicalizeSpec b spec = .ok canonical) :
    Canonical spec canonical := by
  obtain ⟨calendars, -, h⟩ := bind_ok h
  obtain ⟨excludes, hexcludes, h⟩ := bind_ok h
  obtain ⟨⟨crons, cronTZ⟩, -, h⟩ := bind_ok h
  obtain ⟨timezoneName, -, h⟩ := bind_ok h
  obtain ⟨_, hvalid, h⟩ := bind_ok h
  obtain ⟨_, hinterval, h⟩ := bind_ok h
  cases h
  exact ⟨rfl, rfl, rfl, hvalid, hinterval, excludes, hexcludes, rfl⟩

lemma Canonical.canonicalizeSpec {spec canonical} (h : Canonical spec canonical) :
    canonicalizeSpec b canonical = .ok canonical := by
  have hvalid := h.valid
  have hinterval := h.validInterval
  obtain ⟨structuredCalendar, cronString, calendar, interval, excludeCalendar, excludeStructuredCalendar, startTime,
    endTime, jitter, timezoneName, timezoneData⟩ := canonical
  obtain rfl : calendar = [] := h.calendar
  obtain rfl : excludeCalendar = [] := h.excludeCalendar
  obtain rfl : cronString = [] := h.cronString
  simp only [Compile.canonicalizeSpec, mapM_nil, parseCronStrings, ne_eq, foldlM_nil, canonicalTimezone,
    forM_eq_forM, pure_bind, not_true_eq_false, false_and, ↓reduceIte, filterMap_nil, append_nil]
  rw [show forM structuredCalendar validateStructuredCalendar = (.ok () : Except String Unit) from hvalid,
    show forM interval validateInterval = (.ok () : Except String Unit) from hinterval]
  rfl

/-! ### Safety -/

/-- An error, or a result that is compiled from ranges that are in bounds and that its canonical form compiles
to again. -/
def Safe (b : SpecBuilder τ) (spec : ScheduleSpec) : Prop :=
  (∃ fuel message, newCompiledSpec b fuel spec = .error (.error message)) ∨
  ∃ fuel cs, newCompiledSpec b fuel spec = .ok cs ∧ ((∀ cal ∈ cs.spec.structuredCalendar, cal.InBounds) ∧
      cs.spec.structuredCalendar.mapM (newCompiledCalendar fuel cs.tz) = .ok cs.calendar) ∧
    ((∀ cal ∈ cs.spec.excludeStructuredCalendar, cal.InBounds) ∧
      cs.spec.excludeStructuredCalendar.mapM (newCompiledCalendar fuel cs.tz) = .ok cs.excludes) ∧
    newCompiledSpec b fuel cs.canonicalForm = .ok cs

/-- The excluded calendars that a client sends are in bounds, also those that are parsed. -/
def ExcludesInBounds (spec : ScheduleSpec) : Prop :=
  (∀ cal ∈ spec.excludeStructuredCalendar, cal.InBounds) ∧
    ∀ cal ∈ spec.excludeCalendar, ∀ scs, parseCalendarToStructured cal = .ok scs → scs.InBounds

def Rejected (b : SpecBuilder τ) (spec : ScheduleSpec) : Prop :=
  ∀ canonical, canonicalizeSpec b spec = .ok canonical → ∀ tz, loadTimezone b canonical ≠ .ok tz

lemma asFailure_ok {α : Type} {x : Except String α} {a : α} (h : asFailure x = .ok a) : x = .ok a := by
  cases x with
  | error message => cases h
  | ok a =>
    cases h
    rfl

lemma newCompiledSpec_eq {spec canonical tz} (hcanonical : canonicalizeSpec b spec = .ok canonical)
    (htz : loadTimezone b canonical = .ok tz) (fuel : Nat) :
    newCompiledSpec b fuel spec = compileCalendars fuel canonical tz := by
  rw [newCompiledSpec, hcanonical]
  show asFailure (loadTimezone b canonical) >>= _ = _
  rw [htz]
  rfl

lemma Canonical.excludes_inBounds {spec canonical : ScheduleSpec} (h : Canonical spec canonical) :
    (∀ cal ∈ canonical.excludeStructuredCalendar, cal.InBounds) ↔ ExcludesInBounds spec := by
  obtain ⟨excludes, hparse, heq⟩ := h.excludes
  obtain ⟨hto, hfrom⟩ := mapM_ok hparse
  rw [heq, forall_mem_append]
  refine and_congr Iff.rfl ⟨fun hall cal hcal scs hscs => ?_, fun hall scs hscs => ?_⟩
  · obtain ⟨scs', hmem, hscs'⟩ := hto cal hcal
    cases hscs.symm.trans hscs'
    exact hall scs hmem
  obtain ⟨cal, hcal, hcs⟩ := hfrom scs hscs
  exact hall cal hcal scs hcs

lemma forM_ok {α : Type} {f : α → Except String Unit} {xs : List α} (h : xs.forM f = .ok ()) :
    ∀ x ∈ xs, f x = .ok () := by
  induction xs with
  | nil => exact fun x hx => nomatch hx
  | cons x xs ih =>
    obtain ⟨_, hx, h⟩ := bind_ok h
    exact forall_mem_cons.mpr ⟨hx, ih h⟩

lemma Canonical.structured_inBounds {spec canonical : ScheduleSpec} (h : Canonical spec canonical) :
    ∀ cal ∈ canonical.structuredCalendar, cal.InBounds := fun cal hcal =>
  (validateStructuredCalendar_ok.mp (forM_ok h.valid cal hcal)).1

lemma newCompiledSpec_ok {spec canonical tz} (hcanonical : canonicalizeSpec b spec = .ok canonical)
    (htz : loadTimezone b canonical = .ok tz) (hexcludes : ExcludesInBounds spec) : Safe b spec := by
  have hc := canonicalizeSpec_ok hcanonical
  obtain ⟨fuel, hfuel⟩ : ∃ fuel, enoughFuel ≤ fuel := ⟨enoughFuel, le_rfl⟩
  have hcompile : ∀ cals : List StructuredCalendarSpec, (∀ cal ∈ cals, cal.InBounds) →
      ∃ ccs, cals.mapM (newCompiledCalendar fuel tz) = .ok ccs := by
    intro cals hin
    have hyields : Yields (fun _ => False) _ (cals.mapM (newCompiledCalendar fuel tz)) :=
      Yields.mapM fun cal hcal => newCompiledCalendar_ok (hin cal hcal) hfuel tz
    obtain ⟨ccs, hccs, -⟩ := hyields.exists_ok fun _ => id
    exact ⟨ccs, hccs⟩
  have hexin := hc.excludes_inBounds.mpr hexcludes
  obtain ⟨calendar, hcalendar⟩ := hcompile _ hc.structured_inBounds
  obtain ⟨excludes, hex⟩ := hcompile _ hexin
  have hcompiled : compileCalendars fuel canonical tz = .ok ⟨canonical, tz, calendar, excludes⟩ := by
    simp only [compileCalendars, hcalendar, hex]
    rfl
  have hspec := (newCompiledSpec_eq hcanonical htz fuel).trans hcompiled
  have hself := (newCompiledSpec_eq hc.canonicalizeSpec htz fuel).trans hcompiled
  exact .inr ⟨fuel, ⟨canonical, tz, calendar, excludes⟩, hspec, ⟨hc.structured_inBounds, hcalendar⟩, ⟨hexin, hex⟩,
    hself⟩

lemma Rejected.safe {spec} (h : Rejected b spec) : Safe b spec := by
  cases hcanonical : Compile.canonicalizeSpec b spec with
  | error message =>
    refine .inl ⟨0, message, ?_⟩
    rw [newCompiledSpec, hcanonical]
    rfl
  | ok canonical =>
    cases htz : loadTimezone b canonical with
    | error message =>
      refine .inl ⟨0, message, ?_⟩
      rw [newCompiledSpec, hcanonical]
      show asFailure (loadTimezone b canonical) >>= _ = _
      rw [htz]
      rfl
    | ok tz => exact absurd htz (h canonical hcanonical tz)

lemma rejected_of_error {spec fuel message}
    (h : newCompiledSpec b fuel spec = .error (.error message)) : Rejected b spec := by
  intro canonical hcanonical tz htz
  have hmap : ∀ cals : List StructuredCalendarSpec,
      Yields (fun p => ∀ message, p ≠ .error message) (fun _ => True) (cals.mapM (newCompiledCalendar fuel tz)) :=
    fun cals => (Yields.mapM fun cal _ => newCompiledCalendar_no_error fuel tz cal).mono (fun _ => id) fun _ _ => trivial
  rw [newCompiledSpec_eq hcanonical htz] at h
  have hyields : Yields (fun p => ∀ message, p ≠ .error message) (fun _ => True) (compileCalendars fuel canonical tz) := by
    refine (hmap _).bind fun _ _ => ?_
    refine (hmap _).bind fun _ _ => ?_
    trivial
  exact hyields.fault h message rfl

/-- Compilation is safe exactly where the excluded calendars are in bounds, or the spec is rejected. -/
theorem newCompiledSpec_safe (b : SpecBuilder τ) (spec : ScheduleSpec) :
    Safe b spec ↔ ExcludesInBounds spec ∨ Rejected b spec := by
  constructor
  · rintro (⟨fuel, message, h⟩ | ⟨fuel, cs, h, -, ⟨hex, -⟩, -⟩)
    · exact .inr (rejected_of_error h)
    left
    obtain ⟨canonical, hcanonical, h⟩ := bind_ok h
    obtain ⟨tz, -, h⟩ := bind_ok h
    obtain ⟨calendar, -, h⟩ := bind_ok h
    obtain ⟨excludes, -, h⟩ := bind_ok h
    cases h
    exact (canonicalizeSpec_ok (asFailure_ok hcanonical)).excludes_inBounds.mp hex
  rintro (hex | hrejected)
  · by_cases h : Rejected b spec
    · exact h.safe
    simp only [Rejected, not_forall, not_not] at h
    obtain ⟨canonical, hcanonical, tz, htz⟩ := h
    exact newCompiledSpec_ok hcanonical htz hex
  · exact hrejected.safe

def negativeExclude : ScheduleSpec :=
  { excludeStructuredCalendar := [{ second := [⟨-1, 0, 0⟩] }] }

def sampleBuilder : SpecBuilder Unit where
  parseDuration := fun _ => .error "invalid duration"
  loadLocation := fun _ => .ok ()
  loadLocationFromTZData := fun _ _ => .ok ()

/-- The spec is accepted, and its compilation panics as soon as there is fuel for a step. -/
theorem negativeExclude_panics : canonicalizeSpec sampleBuilder negativeExclude = .ok negativeExclude ∧
      ∀ fuel, newCompiledSpec sampleBuilder (fuel + 1) negativeExclude = .error .panic :=
  ⟨rfl, fun _ => rfl⟩

/-!
## Compiled calendars

Model of `matches`, `next`, `isLeapYear` and `daysInMonth` in `service/worker/scheduler/calendar.go`. Instants
are seconds since the Unix epoch, and the zero time is `none`. `time.Date` is `Zone.date` of the wall time of
the fields, which may be out of range as in the source; the fields of an instant in the time zone of the
calendar are those of `Zone.wall`.

The `Outer` loop of `next` is `search`, with fuel. An iteration carries (`normalize`) and then matches the
fields from the year to the second (`tryYear` to `trySecond`). Each of the loops over a field is `advance`:
it looks for the first value that matches, resets the fields below when it moves, and continues the outer loop
at the value past the last one when none does.
-/

open CalendarField (maxCalendarYear)

def daysInMonth (m y : Int) : Int :=
  if m = 2 then if Civil.isLeapYear y then 29 else 28
  else 30 + ((0b1010110101010 >>> m.toNat &&& 1 : Nat) : Int)

/-- The variables of `next`. -/
structure Clock where
  year : Int
  month : Int
  day : Int
  hour : Int
  minute : Int
  second : Int
  /-- `dstoffset` is one hour, and not zero. -/
  dst : Bool
deriving DecidableEq

namespace Clock

variable (c : Clock)

def dayNumber : Int := Civil.dayNumber ⟨c.year, c.month, c.day⟩

def wall : Int := 86400 * c.dayNumber + 3600 * c.hour + 60 * c.minute + c.second

def ofWall (w : Int) : Clock :=
  let date := Civil.ofDayNumber (w / 86400)
  { year := date.year
    month := date.month
    day := date.day
    hour := w % 86400 / 3600
    minute := w % 3600 / 60
    second := w % 60
    dst := false }

/-- The day of the week of `time.Date`. -/
def weekday (z : Zone) : Int := Civil.weekday (z.wall (z.date c.wall) / 86400)

def setMonth (month : Int) : Clock :=
  if month = c.month then c
  else { c with month, day := 1, hour := 0, minute := 0, second := 0, dst := false }

def setDay (day : Int) : Clock :=
  if day = c.day then c else { c with day, hour := 0, minute := 0, second := 0, dst := false }

def setHour (hour : Int) : Clock :=
  if hour = c.hour then c else { c with hour, minute := 0, second := 0, dst := false }

def setMinute (minute : Int) : Clock :=
  if minute = c.minute then c else { c with minute, second := 0 }

def setSecond (second : Int) : Clock := { c with second }

/-! ### Carries -/

def carrySecond : Clock := if 60 ≤ c.second then { c with minute := c.minute + 1, second := 0 } else c

/-- If the next hour is two hours later, there is a repeated hour in between, and it is tried with an offset. -/
def carryMinute (z : Zone) : Clock :=
  if 60 ≤ c.minute then
    let prev := z.date { c with minute := 0, second := 0 }.wall
    let next := z.date { c with hour := c.hour + 1, minute := 0, second := 0 }.wall
    if !c.dst && 3600 < next - prev then { c with minute := 0, dst := true }
    else { c with hour := c.hour + 1, minute := 0, dst := false }
  else c

def carryHour : Clock := if 24 ≤ c.hour then { c with day := c.day + 1, hour := 0 } else c

def carryDay : Clock := if daysInMonth c.month c.year < c.day then { c with month := c.month + 1, day := 1 } else c

def carryMonth : Clock := if 12 < c.month then { c with year := c.year + 1, month := 1 } else c

def normalize (z : Zone) : Clock := (c.carrySecond.carryMinute z).carryHour.carryDay.carryMonth

end Clock

/-! ### Loops over a field -/

def firstFrom (p : Int → Bool) (x : Int) : Nat → Option Int
  | 0 => none
  | n + 1 => if p x then some x else firstFrom p (x + 1) n

def seek (p : Int → Bool) (x last : Int) : Option Int :=
  if p x then some x else firstFrom p (x + 1) (last - x).toNat

/-- How an iteration of the outer loop ends. -/
inductive Progress where
  | again (c : Clock)
  | found (t : Int)
  | exhausted
deriving DecidableEq

def advance (p : Int → Bool) (x last : Int) (set : Int → Clock) (rest : Clock → Progress) : Progress :=
  match seek p x last with
  | none => .again (set (last + 1))
  | some v => rest (set v)

namespace CompiledCalendar

variable (cc : CompiledCalendar Zone)

/-- Go `matches`. -/
def isMatch (t : Int) : Bool :=
  let w := cc.tz.wall t
  let c := Clock.ofWall w
  cc.year c.year && cc.month c.month && cc.dayOfMonth c.day && cc.dayOfWeek (Civil.weekday (w / 86400)) &&
    cc.hour c.hour && cc.minute c.minute && cc.second c.second

/-- Everything matches. The time can be one that daylight saving jumped over, which shows as another hour. -/
def conclude (c : Clock) : Progress :=
  let nextTs := cc.tz.date c.wall
  if (Clock.ofWall (cc.tz.wall nextTs)).hour ≠ c.hour then
    .again { c with hour := c.hour + 1, minute := 0, second := 0 }
  else .found (nextTs + if c.dst then 3600 else 0)

def trySecond (c : Clock) : Progress := advance cc.second c.second 59 c.setSecond cc.conclude

def tryMinute (c : Clock) : Progress := advance cc.minute c.minute 59 c.setMinute cc.trySecond

def tryHour (c : Clock) : Progress := advance cc.hour c.hour 23 c.setHour cc.tryMinute

def tryDay (c : Clock) : Progress :=
  advance (fun d => cc.dayOfMonth d && cc.dayOfWeek ((c.setDay d).weekday cc.tz)) c.day (daysInMonth c.month c.year)
    c.setDay cc.tryHour

def tryMonth (c : Clock) : Progress := advance cc.month c.month 12 c.setMonth cc.tryDay

def tryYear (c : Clock) : Progress :=
  if maxCalendarYear < c.year then .exhausted
  else if !cc.year c.year then
    .again { year := c.year + 1, month := 1, day := 1, hour := 0, minute := 0, second := 0, dst := false }
  else cc.tryMonth c

def search : Nat → Clock → Option (Option Int)
  | 0, _ => none
  | fuel + 1, c =>
    match cc.tryYear (c.normalize cc.tz) with
    | .again c => search fuel c
    | .found t => some (some t)
    | .exhausted => some none

/-- The fields of a time, one second later. The offset is for the second copy of a repeated hour. -/
def start (ts : Int) : Clock :=
  let c := Clock.ofWall (cc.tz.wall ts)
  { c with second := c.second + 1, dst := (Clock.ofWall (cc.tz.wall (ts - 3600))).hour == c.hour }

end CompiledCalendar

/-! ### Fuel -/

/-- The hours of the wall clock up to the end of `maxCalendarYear`. -/
def endOfHours : Int := 24 * Civil.dayNumber ⟨maxCalendarYear + 1, 1, 1⟩

namespace Clock

variable (c : Clock)

def hourIndex : Int := 24 * c.dayNumber + c.hour

def inHour : Int := 60 * c.minute + c.second

/-- Increases from an iteration to the next. An hour counts double, since it can be repeated. -/
def key : Int := 7200 * c.hourIndex + c.inHour + if c.dst then 3600 else 0

def fuel : Nat := (7200 * endOfHours - c.key).toNat + 1

end Clock

namespace CompiledCalendar

variable (cc : CompiledCalendar Zone)

def next (ts : Int) : Option Int := (cc.search (cc.start ts).fuel (cc.start ts)).getD none

end CompiledCalendar

end FastOrchestration.Scheduler.Compile
