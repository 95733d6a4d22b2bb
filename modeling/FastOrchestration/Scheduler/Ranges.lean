import FastOrchestration.Lib.GoText

/-!
# Ranges of calendar fields

Model of `makeRange`, `parseValue`, `parseCalendarToStructured` and `iterateRanges` in
`service/worker/scheduler/calendar.go` and of `validateStructuredCalendar` in `spec.go`: the texts of a
calendar become lists of ranges, which are checked, and whose values are enumerated when the calendar is
compiled.

`iterateRanges` need not end: with a negative step `start` falls until the function that is called panics.
It takes fuel, and `running` says that the fuel was not enough. The lemma for it is `iterateRanges_eq`: where
no step is negative it calls the function on the values of the ranges, one after the other.
-/

namespace FastOrchestration.Scheduler

open Lib List GoText

/-- Go `schedulepb.Range`, with fields of type `int32`. -/
structure Range where
  start : Int
  endValue : Int
  step : Int
  deriving DecidableEq

inductive ParseMode where
  | int
  | year
  | month
  | dow
  deriving DecidableEq

/-- The fields of a calendar, in the order in which they are parsed. -/
inductive CalendarField where
  | second
  | minute
  | hour
  | dayOfWeek
  | dayOfMonth
  | month
  | year
  deriving DecidableEq

namespace CalendarField

def minCalendarYear : Int := 2000

def maxCalendarYear : Int := 2100

def all : List CalendarField := [second, minute, hour, dayOfWeek, dayOfMonth, month, year]

lemma mem_all (f : CalendarField) : f ∈ all := by
  cases f <;> decide

def name : CalendarField → String
  | second => "Second"
  | minute => "Minute"
  | hour => "Hour"
  | dayOfWeek => "DayOfWeek"
  | dayOfMonth => "DayOfMonth"
  | month => "Month"
  | year => "Year"

def default : CalendarField → List Char
  | second => ['0']
  | minute => ['0']
  | hour => ['0']
  | dayOfWeek => ['*']
  | dayOfMonth => ['*']
  | month => ['*']
  | year => ['*']

def minVal : CalendarField → Int
  | second => 0
  | minute => 0
  | hour => 0
  | dayOfWeek => 0
  | dayOfMonth => 1
  | month => 1
  | year => minCalendarYear

/-- The maximum for `makeRange`, where Sunday can be 7. -/
def maxVal : CalendarField → Int
  | second => 59
  | minute => 59
  | hour => 23
  | dayOfWeek => 7
  | dayOfMonth => 31
  | month => 12
  | year => maxCalendarYear

/-- The maximum for `validateStructuredCalendar`. -/
def maxRange : CalendarField → Int
  | dayOfWeek => 6
  | f => f.maxVal

def parseMode : CalendarField → ParseMode
  | second => .int
  | minute => .int
  | hour => .int
  | dayOfWeek => .dow
  | dayOfMonth => .int
  | month => .month
  | year => .year

end CalendarField

/-! ### Parsing -/

def monthStrings : List String :=
  ["january", "february", "march", "april", "may", "june", "july", "august", "september", "october", "november",
    "december"]

def dowStrings : List String := ["sunday", "monday", "tuesday", "wednesday", "thursday", "friday", "saturday"]

def findName (names : List String) (s : List Char) : Option Int :=
  (names.findIdx? fun name => s.isPrefixOf name.toList).map (·)

/-- The value of a text before its range is checked: a name, of which at least three letters are given for a
month and two for a day of the week, or an integer. -/
def readValue (mode : ParseMode) (s : List Char) : Except String Int :=
  let lower := s.map toLower
  match mode with
  | .month =>
    if byteLength s < 3 then atoi s
    else match findName monthStrings lower with
      | some i => .ok (i + 1)
      | none => atoi lower
  | .dow =>
    if byteLength s < 2 then atoi s
    else match findName dowStrings lower with
      | some i => .ok i
      | none => atoi lower
  | _ => atoi s

def parseValue (s : List Char) (min max : Int) (mode : ParseMode) : Except String Int := do
  let i ← readValue mode s
  if i < min ∨ max < i then .error "out of range" else .ok i

/-- What `makeRange` finds in a part of the text. -/
structure Part where
  start : Int
  endValue : Int
  step : Int
  deriving DecidableEq

def intText (i : Int) : String := toString i

section makeRange

variable (f : CalendarField)

def outOfBounds (what : String) : String :=
  f.name ++ what ++ " not in range [" ++ intText f.minVal ++ "-" ++ intText f.maxVal ++ "]"

def splitStep (part : List Char) : Except String (List Char × Option Int) :=
  if part.count '/' > 1 then .error (f.name ++ " has too many slashes")
  else match cut '/' part with
    | none => .ok (part, none)
    | some (_, []) => .error (f.name ++ " missing step value")
    | some (rest, text) => do
      let step ← atoi text
      if step < 1 then .error (f.name ++ " has invalid Step") else .ok (rest, some step)

/-- The bounds that the text before a slash stands for. -/
def parseBounds (part : List Char) (hasStep : Bool) : Except String (Int × Int) :=
  if part = ['*'] then .ok (f.minVal, f.maxVal)
  else match cut '-' part with
    | some (a, b) =>
      if part.count '-' > 1 then .error (f.name ++ " has too many dashes")
      else match parseValue a f.minVal f.maxVal f.parseMode with
        | .error _ => .error (outOfBounds f " Start is")
        | .ok start =>
          match parseValue b start f.maxVal f.parseMode with
          | .error _ => .error (outOfBounds f " End is before Start or")
          | .ok endValue => .ok (start, endValue)
    | none =>
      match parseValue part f.minVal f.maxVal f.parseMode with
      | .error _ => .error (outOfBounds f " is")
      | .ok start => .ok (start, if hasStep then f.maxVal else start)

def parsePart (part : List Char) : Except String Part := do
  let (rest, step) ← splitStep f part
  let (start, endValue) ← parseBounds f rest step.isSome
  return ⟨start, endValue, step.getD 1⟩

def int32 (i : Int) : Int := i.bmod (2 ^ 32)

/-- The range of a part, with the default values for an end that is the start and for the step 1. -/
def encode (start endValue step : Int) : Range :=
  ⟨int32 start, int32 (if start = endValue then 0 else endValue), int32 (if step = 1 then 0 else step)⟩

/-- The ranges of a part. On a day of the week, 7 becomes 0, for which there may be a range of its own. -/
def Part.ranges (p : Part) : List Range :=
  if f.parseMode = .dow ∧ p.endValue = 7 then
    if (7 - p.start).tmod p.step = 0 ∧ (p.step > 1 ∨ p.step = 1 ∧ p.start > 1) then
      if p.start = 7 then [⟨0, 0, 0⟩] else [⟨0, 0, 0⟩, encode p.start 6 p.step]
    else [encode p.start 6 p.step]
  else [encode p.start p.endValue p.step]

/-- The text that is split into parts. -/
def fieldText (s : List Char) : List Char :=
  let s := trimSpace s
  if s = [] then f.default else s

def makeRange (s : List Char) : Except String (List Range) :=
  let s := fieldText f s
  -- for years, all is represented as the empty list
  if s = ['*'] ∧ f.parseMode = .year then .ok []
  else do
    let parts ← (s.splitOn ',').mapM (parsePart f)
    return parts.flatMap (·.ranges f)

end makeRange

structure CalendarSpec where
  second : List Char := []
  minute : List Char := []
  hour : List Char := []
  dayOfMonth : List Char := []
  month : List Char := []
  year : List Char := []
  dayOfWeek : List Char := []
  comment : String := ""
  deriving DecidableEq

def CalendarSpec.text (cal : CalendarSpec) : CalendarField → List Char
  | .second => cal.second
  | .minute => cal.minute
  | .hour => cal.hour
  | .dayOfWeek => cal.dayOfWeek
  | .dayOfMonth => cal.dayOfMonth
  | .month => cal.month
  | .year => cal.year

structure StructuredCalendarSpec where
  second : List Range := []
  minute : List Range := []
  hour : List Range := []
  dayOfMonth : List Range := []
  month : List Range := []
  year : List Range := []
  dayOfWeek : List Range := []
  comment : String := ""
  deriving DecidableEq

def StructuredCalendarSpec.ranges (scs : StructuredCalendarSpec) : CalendarField → List Range
  | .second => scs.second
  | .minute => scs.minute
  | .hour => scs.hour
  | .dayOfWeek => scs.dayOfWeek
  | .dayOfMonth => scs.dayOfMonth
  | .month => scs.month
  | .year => scs.year

def errorOf {α : Type} : Except String α → Option String
  | .ok _ => none
  | .error e => some e

def parseCalendarToStructured (cal : CalendarSpec) : Except String StructuredCalendarSpec :=
  let parse (f : CalendarField) := makeRange f (cal.text f)
  let makeRangeOrNil (f : CalendarField) := (parse f).toOption.getD []
  let errs := CalendarField.all.filterMap fun f => errorOf (parse f)
  if errs ≠ [] then .error (", ".intercalate errs)
  else .ok
    { second := makeRangeOrNil .second
      minute := makeRangeOrNil .minute
      hour := makeRangeOrNil .hour
      dayOfWeek := makeRangeOrNil .dayOfWeek
      dayOfMonth := makeRangeOrNil .dayOfMonth
      month := makeRangeOrNil .month
      year := makeRangeOrNil .year
      comment := cal.comment }

/-! ### Validation -/

def maxCommentLen : Nat := 200

def checkRanges (f : CalendarField) (ranges : List Range) : List String :=
  let bounds := " not in range [" ++ intText f.minVal ++ "-" ++ intText f.maxRange ++ "]"
  ranges.flatMap fun r =>
    (if r.start < f.minVal ∨ r.start > f.maxRange then [f.name ++ " Start is" ++ bounds] else []) ++
    (if r.endValue ≠ 0 ∧ (r.endValue < r.start ∨ r.endValue > f.maxRange) then
      [f.name ++ " End is before Start or" ++ bounds] else []) ++
    (if r.step < 0 then [f.name ++ " has invalid Step"] else [])

def calendarErrors (scs : StructuredCalendarSpec) : List String :=
  checkRanges .second scs.second ++ checkRanges .minute scs.minute ++ checkRanges .hour scs.hour ++
    checkRanges .dayOfMonth scs.dayOfMonth ++ checkRanges .month scs.month ++ checkRanges .year scs.year ++
    checkRanges .dayOfWeek scs.dayOfWeek ++
    (if scs.comment.utf8ByteSize > maxCommentLen then ["comment is too long"] else [])

def validateStructuredCalendar (scs : StructuredCalendarSpec) : Except String Unit :=
  let errs := calendarErrors scs
  if errs ≠ [] then .error ("invalid calendar spec: " ++ ", ".intercalate errs) else .ok ()

structure Range.InBounds (f : CalendarField) (r : Range) : Prop where
  minVal_le : f.minVal ≤ r.start
  le_maxVal : r.start ≤ f.maxRange
  endValue : r.endValue = 0 ∨ r.start ≤ r.endValue ∧ r.endValue ≤ f.maxRange
  step : 0 ≤ r.step

instance (f : CalendarField) (r : Range) : Decidable (r.InBounds f) :=
  decidable_of_iff (f.minVal ≤ r.start ∧ r.start ≤ f.maxRange ∧
    (r.endValue = 0 ∨ r.start ≤ r.endValue ∧ r.endValue ≤ f.maxRange) ∧ 0 ≤ r.step)
    ⟨fun h => ⟨h.1, h.2.1, h.2.2.1, h.2.2.2⟩, fun h => ⟨h.1, h.2, h.3, h.4⟩⟩

lemma checkRanges_eq_nil {f ranges} : checkRanges f ranges = [] ↔ ∀ r ∈ ranges, r.InBounds f := by
  simp only [checkRanges, flatMap_eq_nil_iff, append_eq_nil_iff, ite_eq_right_iff, cons_ne_nil,
    imp_false, not_or, not_and, Int.not_lt, gt_iff_lt]
  apply forall₂_congr
  intro r _
  constructor
  · rintro ⟨⟨⟨hmin, hmax⟩, hend⟩, hstep⟩
    refine ⟨hmin, hmax, ?_, hstep⟩
    by_cases h0 : r.endValue = 0
    · exact .inl h0
    · exact .inr (hend h0)
  rintro ⟨hmin, hmax, hend, hstep⟩
  exact ⟨⟨⟨hmin, hmax⟩, fun h0 => hend.resolve_left h0⟩, hstep⟩

def StructuredCalendarSpec.InBounds (scs : StructuredCalendarSpec) : Prop :=
  ∀ f, ∀ r ∈ scs.ranges f, r.InBounds f

lemma calendarErrors_eq_nil {scs : StructuredCalendarSpec} :
    calendarErrors scs = [] ↔ scs.InBounds ∧ scs.comment.utf8ByteSize ≤ maxCommentLen := by
  simp only [calendarErrors, append_eq_nil_iff, checkRanges_eq_nil, ite_eq_right_iff, cons_ne_nil,
    imp_false, gt_iff_lt, Nat.not_lt]
  refine and_congr ⟨?_, fun h => ?_⟩ Iff.rfl
  · rintro ⟨⟨⟨⟨⟨⟨hsecond, hminute⟩, hhour⟩, hdom⟩, hmonth⟩, hyear⟩, hdow⟩ f
    cases f <;> assumption
  · exact ⟨⟨⟨⟨⟨⟨h .second, h .minute⟩, h .hour⟩, h .dayOfMonth⟩, h .month⟩, h .year⟩, h .dayOfWeek⟩

lemma validateStructuredCalendar_ok {scs : StructuredCalendarSpec} :
    validateStructuredCalendar scs = .ok () ↔ scs.InBounds ∧ scs.comment.utf8ByteSize ≤ maxCommentLen := by
  rw [← calendarErrors_eq_nil, validateStructuredCalendar]
  by_cases h : calendarErrors scs = [] <;> simp [h]

/-! ### Enumeration -/

/-- Why a compilation has no result. -/
inductive CompileFailure where
  | error (message : String)
  | panic
  /-- More fuel is needed. -/
  | running
  deriving DecidableEq

namespace Range

def stepValue (r : Range) : Int := if r.step = 0 then 1 else r.step

def lastValue (r : Range) : Int := if r.endValue < r.start then r.start else r.endValue

def values (r : Range) : List Int :=
  (List.range (((r.lastValue - r.start) / r.stepValue).toNat + 1)).map fun k : Nat => r.start + k * r.stepValue

lemma stepValue_pos {r : Range} (h : 0 ≤ r.step) : 0 < r.stepValue := by
  unfold stepValue
  split <;> omega

lemma start_le_lastValue (r : Range) : r.start ≤ r.lastValue := by
  unfold lastValue
  split <;> omega

end Range

section iterate

variable {σ : Type} (f : σ → Int → Except CompileFailure σ)

/-- The loop over the values of a range. -/
def iterateRange (endValue step : Int) : Nat → Int → σ → Except CompileFailure σ
  | 0, _, _ => .error .running
  | fuel + 1, start, s =>
    if start ≤ endValue then do
      let s ← f s start
      iterateRange endValue step fuel (start + step) s
    else .ok s

def iterateRanges (fuel : Nat) (ranges : List Range) (s : σ) : Except CompileFailure σ :=
  ranges.foldlM (fun s r => iterateRange f r.lastValue r.stepValue fuel r.start s) s

lemma iterateRange_eq {endValue step : Int} {fuel n : Nat} {start : Int} {s : σ} (hfuel : n < fuel)
    (hin : ∀ k < n, start + k * step ≤ endValue) (hout : endValue < start + n * step) :
    iterateRange f endValue step fuel start s =
      ((List.range n).map fun k : Nat => start + k * step).foldlM f s := by
  induction n generalizing fuel start s with
  | zero =>
    obtain ⟨fuel, rfl⟩ := Nat.exists_eq_succ_of_ne_zero (Nat.ne_of_gt hfuel)
    have hnot : ¬ start ≤ endValue := by simpa using hout
    simp [iterateRange, hnot]
    rfl
  | succ n ih =>
    obtain ⟨fuel, rfl⟩ := Nat.exists_eq_succ_of_ne_zero (Nat.ne_of_gt (Nat.zero_lt_of_lt hfuel))
    have hstart : start ≤ endValue := by simpa using hin 0 (Nat.succ_pos n)
    have hshift : ∀ k, start + step + k * step = start + (k + 1 : Nat) * step := by
      intro k
      push_cast
      ring
    rw [iterateRange, if_pos hstart, range_succ_eq_map, map_cons, foldlM_cons]
    congr 1
    · simp
    funext s'
    rw [ih (Nat.lt_of_succ_lt_succ hfuel), map_map]
    · congr 1
      apply map_congr_left
      intro k _
      exact hshift k
    · intro k hk
      rw [hshift]
      exact hin (k + 1) (Nat.succ_lt_succ hk)
    rw [hshift]
    exact hout

end iterate

namespace Range

variable {r : Range}

lemma le_lastValue_iff (h : 0 ≤ r.step) (k : Nat) :
    r.start + k * r.stepValue ≤ r.lastValue ↔ k < ((r.lastValue - r.start) / r.stepValue).toNat + 1 := by
  have hpos := stepValue_pos h
  have hle := r.start_le_lastValue
  have hdiv : (k : Int) ≤ (r.lastValue - r.start) / r.stepValue ↔ k * r.stepValue ≤ r.lastValue - r.start :=
    Int.le_ediv_iff_mul_le hpos
  have hnonneg : 0 ≤ (r.lastValue - r.start) / r.stepValue := Int.ediv_nonneg (by omega) hpos.le
  omega

lemma mem_values (h : 0 ≤ r.step) {v} :
    v ∈ r.values ↔ ∃ k : Nat, v = r.start + k * r.stepValue ∧ v ≤ r.lastValue := by
  simp only [values, mem_map, mem_range, ← le_lastValue_iff h]
  constructor
  · rintro ⟨k, hk, rfl⟩
    exact ⟨k, rfl, hk⟩
  rintro ⟨k, rfl, hk⟩
  exact ⟨k, hk, rfl⟩

end Range

/-- Where no step is negative, the function is called on the values of the ranges. -/
theorem iterateRanges_eq {σ : Type} (f : σ → Int → Except CompileFailure σ) {fuel} {ranges : List Range}
    (hstep : ∀ r ∈ ranges, 0 ≤ r.step) (hfuel : ∀ r ∈ ranges, r.values.length < fuel) (s : σ) :
    iterateRanges f fuel ranges s = (ranges.flatMap Range.values).foldlM f s := by
  induction ranges generalizing s with
  | nil => rfl
  | cons r ranges ih =>
    have h := hstep r mem_cons_self
    have hlen := hfuel r mem_cons_self
    simp only [Range.values, length_map, length_range] at hlen
    have hone : iterateRange f r.lastValue r.stepValue fuel r.start s = r.values.foldlM f s := by
      apply iterateRange_eq f hlen
      · intro k hk
        exact (Range.le_lastValue_iff h k).mpr hk
      rw [← Int.not_le, Range.le_lastValue_iff h]
      exact Nat.lt_irrefl _
    rw [flatMap_cons, foldlM_append, ← hone, iterateRanges, foldlM_cons]
    congr 1
    funext s'
    exact ih (fun r' hr => hstep r' (mem_cons_of_mem _ hr)) (fun r' hr => hfuel r' (mem_cons_of_mem _ hr)) s'

lemma exists_fuel (ranges : List Range) : ∃ fuel, ∀ r ∈ ranges, r.values.length < fuel := by
  induction ranges with
  | nil => exact ⟨0, by simp⟩
  | cons r ranges ih =>
    obtain ⟨fuel, hfuel⟩ := ih
    refine ⟨fuel + r.values.length + 1, fun r' hr => ?_⟩
    rcases mem_cons.mp hr with rfl | hr
    · omega
    have := hfuel r' hr
    omega

end FastOrchestration.Scheduler
