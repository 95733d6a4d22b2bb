import Mathlib

/-!
# Action times of a schedule

`GetNextTime` of a compiled spec: the first nominal time after a given time that is not excluded, and
the time at which the action is due after jitter. The zero time, which the source returns when there is
no such time, is `none`. Times are nanoseconds since the Unix epoch.

What the scheduler relies on is `getNextTime_after`: action times increase, and nominal times are whole
seconds.
-/

namespace FastOrchestration.Scheduler

def second : Int := 1000000000

def millisecond : Int := 1000000

/-- `Time.Unix`. -/
def unix (t : Int) : Int := t / second

def unixMilli (t : Int) : Int := t / millisecond

/-- A compiled calendar: `next` looks for the first match after a time given in seconds. -/
structure CompiledCalendar where
  next : Int → Option Int
  isMatch : Int → Bool
  next_after : ∀ ts r, next ts = some r → ts < r

structure IntervalSpec where
  interval : Int
  phase : Int

structure CompiledSpec where
  calendar : List CompiledCalendar
  interval : List IntervalSpec
  excludes : List CompiledCalendar
  /-- The epoch where the spec has no start time. -/
  startTime : Int
  endTime : Option Int
  jitter : Int
  /-- The hash of a nominal time and the jitter seed. -/
  fingerprint : String → Int → Fin (2 ^ 32)

structure GetNextTimeResult where
  nominal : Int
  next : Int
deriving DecidableEq

/-- The first instant after the year `maxCalendarYear`. -/
def endOfCalendar : Int := 4133980800 * second

namespace CompiledSpec

variable (cs : CompiledSpec)

/-- Go's division rounds towards zero. -/
def nextIntervalTime (iv : IntervalSpec) (ts : Int) : Int :=
  let interval := max 1 (iv.interval.tdiv second)
  let phase := max 0 (iv.phase.tdiv second)
  ((ts - phase).tdiv interval + 1) * interval + phase

def rawNextTime (after : Int) : Option Int :=
  let ts := unix after
  let candidates := cs.calendar.filterMap (·.next ts) ++ cs.interval.map (nextIntervalTime · ts)
  candidates.min?.map (· * second)

def excluded (nominal : Int) : Bool := cs.excludes.any (·.isMatch nominal)

def pastEndTime (t : Int) : Bool := cs.endTime.any (· < t) || endOfCalendar ≤ t

/-- Adds jitter, computed with 32 bits of hash and 32 bits of milliseconds. -/
def addJitter (seed : String) (nominal : Int) (maxJitter : Int) : Int :=
  let ms := min (max 0 maxJitter / millisecond) (2 ^ 32 - 1)
  nominal + (cs.fingerprint seed nominal * ms) / 2 ^ 32 * millisecond

lemma nextIntervalTime_after (iv : IntervalSpec) (ts : Int) : ts < nextIntervalTime iv ts := by
  unfold nextIntervalTime
  have hpos : 0 < max 1 (iv.interval.tdiv second) := by omega
  generalize max 1 (iv.interval.tdiv second) = interval at hpos
  generalize max 0 (iv.phase.tdiv second) = phase
  have hlt : ts - phase < ((ts - phase).tdiv interval + 1) * interval :=
    Int.lt_tdiv_add_one_mul_self _ hpos
  dsimp only
  omega

lemma rawNextTime_after {after nominal} (h : cs.rawNextTime after = some nominal) :
    after < nominal ∧ nominal % second = 0 := by
  obtain ⟨r, hr, rfl⟩ := Option.map_eq_some_iff.mp h
  have hlt : unix after < r := by
    obtain hcal | hint := List.mem_append.mp (List.min?_mem hr)
    · obtain ⟨c, -, hc⟩ := List.mem_filterMap.mp hcal
      exact c.next_after _ _ hc
    obtain ⟨iv, -, rfl⟩ := List.mem_map.mp hint
    exact nextIntervalTime_after iv _
  refine ⟨?_, by simp⟩
  show after < r * second
  unfold unix second at *
  omega

/-- The loop of `GetNextTime` over the matching times, until one is not excluded. -/
def nextNominal (after : Int) : Option Int :=
  match _h : cs.rawNextTime after with
  | none => none
  | some nominal =>
    if _hend : cs.pastEndTime nominal then none
    else if cs.excluded nominal then nextNominal nominal
    else some nominal
termination_by (endOfCalendar - after).toNat
decreasing_by
  have hlt := (cs.rawNextTime_after _h).1
  have hnot : nominal < endOfCalendar := by
    simp only [pastEndTime, Bool.or_eq_true, decide_eq_true_eq, not_or, Int.not_le] at _hend
    exact _hend.2
  omega

def getNextTime (jitterSeed : String) (after : Int) : Option GetNextTimeResult :=
  match cs.nextNominal (max after (cs.startTime - second)) with
  | none => none
  | some nominal =>
    let maxJitter :=
      match cs.rawNextTime nominal with
      | none => cs.jitter
      | some following => min cs.jitter (following - nominal)
    some ⟨nominal, cs.addJitter jitterSeed nominal maxJitter⟩

lemma nextNominal_after {after nominal} (h : cs.nextNominal after = some nominal) :
    after < nominal ∧ nominal % second = 0 := by
  fun_induction nextNominal cs after with
  | case1 after hraw => cases h
  | case2 after raw hraw hend => cases h
  | case3 after raw hraw hend hexcl ih =>
    have hlt := (cs.rawNextTime_after hraw).1
    obtain ⟨hgt, hwhole⟩ := ih h
    exact ⟨hlt.trans hgt, hwhole⟩
  | case4 after raw hraw hend hexcl =>
    cases h
    exact cs.rawNextTime_after hraw

lemma le_addJitter (seed : String) (nominal : Int) (maxJitter : Int) :
    nominal ≤ cs.addJitter seed nominal maxJitter := by
  unfold addJitter
  have hms : 0 ≤ min (max 0 maxJitter / millisecond) (2 ^ 32 - 1) := by
    unfold millisecond
    omega
  have hjitter : 0 ≤ (cs.fingerprint seed nominal * min (max 0 maxJitter / millisecond) (2 ^ 32 - 1)) /
      2 ^ 32 * millisecond := by
    unfold millisecond at *
    positivity
  dsimp only
  omega

/-- Action times increase: an action is due after the time it was looked for from, and not before its
nominal time, which is a whole second. -/
lemma getNextTime_after {seed after} {r : GetNextTimeResult} (h : cs.getNextTime seed after = some r) :
    after < r.nominal ∧ r.nominal ≤ r.next ∧ r.nominal % second = 0 := by
  unfold getNextTime at h
  split at h
  · cases h
  rename_i nominal hn
  cases h
  obtain ⟨hlt, hwhole⟩ := cs.nextNominal_after hn
  exact ⟨(le_max_left _ _).trans_lt hlt, cs.le_addJitter _ _ _, hwhole⟩

end CompiledSpec

/-!
## Processing a time range of a schedule

`ProcessTimeRange` generates the buffered starts of a range. It serves automatic and manual runs: both
skip actions before the last update of the schedule, only automatic ones skip actions outside the
catchup window, and only manual ones have a limit.

`actionTimes` is the enumeration without any such rule, and `due` the part of it after the last update.
A limited run takes the first actions that are due, and the enumeration from the last one taken has the
rest (`rangeLoop_manual`).
-/

inductive OverlapPolicy where
  | unspecified
  | skip
  | bufferOne
  | bufferAll
  | cancelOther
  | terminateOther
  | allowAll
deriving DecidableEq

structure BufferedStart where
  nominalTime : Int
  actualTime : Int
  overlapPolicy : OverlapPolicy
  manual : Bool
  requestId : String
  attempt : Nat
  /-- The epoch where no backoff has been set. -/
  backoffTime : Int
deriving DecidableEq

/-- The part of the scheduler's state that the processing of a range reads. -/
structure ScheduleState where
  namespaceId : String
  scheduleId : String
  conflictToken : Int
  spec : CompiledSpec
  updateTime : Int
  overlapPolicy : OverlapPolicy
  catchupWindow : Option Int
  paused : Bool
  limitedActions : Bool
  remainingActions : Int

structure Tweakables where
  defaultCatchupWindow : Int
  minCatchupWindow : Int
  maxBufferSize : Nat
  idleTime : Int

namespace ScheduleState

variable (sched : ScheduleState)

def jitterSeed : String := sched.namespaceId ++ "-" ++ sched.scheduleId

def resolveOverlapPolicy (policy : OverlapPolicy) : OverlapPolicy :=
  if policy = .unspecified then
    if sched.overlapPolicy = .unspecified then .skip else sched.overlapPolicy
  else policy

def canUseScheduledAction : Bool :=
  !sched.paused && (!sched.limitedActions || 0 < sched.remainingActions)

def catchup (tweakables : Tweakables) : Int :=
  match sched.catchupWindow with
  | none => tweakables.defaultCatchupWindow
  | some window => max window tweakables.minCatchupWindow

/-- The request ID of an action; `backfillId` is empty for automatic ones. -/
def generateRequestID (backfillId : String) (nominal actual : Int) : String :=
  "sched-" ++ (if backfillId = "" then "auto" else backfillId) ++ "-" ++ sched.namespaceId ++ "-" ++
    sched.scheduleId ++ "-" ++ (sched.conflictToken.repr ++ "-" ++
      ((unixMilli nominal).repr ++ "-" ++ (unixMilli actual).repr))

def getNextTime (after : Int) : Option GetNextTimeResult :=
  sched.spec.getNextTime sched.jitterSeed after

end ScheduleState

structure ProcessedTimeRange where
  nextWakeupTime : Option Int
  lastActionTime : Int
  bufferedStarts : List BufferedStart
  missedCatchupWindow : Nat
deriving DecidableEq

/-- The arguments of `ProcessTimeRange` that its loop uses. -/
structure RangeArgs where
  sched : ScheduleState
  stop : Int
  overlapPolicy : OverlapPolicy
  backfillId : String
  manual : Bool
  catchupWindow : Int

structure RangeLoop where
  lastAction : Int
  bufferedStarts : List BufferedStart
  limit : Option Int
  missedCatchupWindow : Nat

def RangeArgs.bufferedStart (args : RangeArgs) (n : GetNextTimeResult) : BufferedStart :=
  { nominalTime := n.nominal
    actualTime := n.next
    overlapPolicy := args.overlapPolicy
    manual := args.manual
    requestId := args.sched.generateRequestID args.backfillId n.nominal n.next
    attempt := 0
    backoffTime := 0 }

def RangeLoop.take (args : RangeArgs) (l : RangeLoop) (n : GetNextTimeResult) : RangeLoop :=
  { l with lastAction := n.next, bufferedStarts := l.bufferedStarts ++ [args.bufferedStart n],
           limit := l.limit.map (· - 1) }

def rangeLoop (args : RangeArgs) (after : Int) (l : RangeLoop) :
    Option GetNextTimeResult × RangeLoop :=
  match _h : args.sched.getNextTime after with
  | none => (none, l)
  | some n =>
    if _hstop : args.stop < n.next then (some n, l)
    else if n.next < args.sched.updateTime then rangeLoop args n.next l
    else if !args.manual && args.catchupWindow < args.stop - n.next then
      rangeLoop args n.next { l with missedCatchupWindow := l.missedCatchupWindow + 1 }
    else if (l.take args n).limit.any (· ≤ 0) then (some n, l.take args n)
    else rangeLoop args n.next (l.take args n)
termination_by (args.stop - after).toNat
decreasing_by all_goals
    have hlt := args.sched.spec.getNextTime_after _h
    omega

def processTimeRange (tweakables : Tweakables) (sched : ScheduleState) (start stop : Int)
    (overlapPolicy : OverlapPolicy) (backfillId : String) (manual : Bool) (limit : Option Int) :
    ProcessedTimeRange :=
  if !sched.canUseScheduledAction && !manual then
    { nextWakeupTime := (sched.getNextTime stop).map (·.next)
      lastActionTime := stop
      bufferedStarts := []
      missedCatchupWindow := 0 }
  else
    let args : RangeArgs :=
      { sched := sched, stop := stop, overlapPolicy := sched.resolveOverlapPolicy overlapPolicy,
        backfillId := backfillId, manual := manual, catchupWindow := sched.catchup tweakables }
    let result := rangeLoop args start
      { lastAction := start, bufferedStarts := [], limit := limit, missedCatchupWindow := 0 }
    { nextWakeupTime := result.1.map (·.next)
      lastActionTime := result.2.lastAction
      bufferedStarts := result.2.bufferedStarts
      missedCatchupWindow := result.2.missedCatchupWindow }

lemma rangeLoop_lastAction (args : RangeArgs) (after : Int) (l : RangeLoop) (h : l.lastAction ≤ after) :
    l.lastAction ≤ (rangeLoop args after l).2.lastAction := by
  fun_induction rangeLoop args after l with
  | case1 after l hnone => exact le_rfl
  | case2 after l n hn hstop => exact le_rfl
  | case3 after l n hn hstop hlt ih =>
    have := args.sched.spec.getNextTime_after hn
    exact ih (by omega)
  | case4 after l n hn hstop hlt hcatchup ih =>
    have := args.sched.spec.getNextTime_after hn
    exact ih (by simp only; omega)
  | case5 after l n hn hstop hlt hcatchup hreached =>
    have := args.sched.spec.getNextTime_after hn
    simp only [RangeLoop.take]
    omega
  | case6 after l n hn hstop hlt hcatchup hreached ih =>
    have := args.sched.spec.getNextTime_after hn
    have hrest : n.next ≤ (rangeLoop args n.next (l.take args n)).2.lastAction := ih le_rfl
    omega

lemma processTimeRange_lastActionTime (tweakables : Tweakables) (sched : ScheduleState)
    {start stop manual} (hle : start ≤ stop ∨ manual = true) (overlapPolicy : OverlapPolicy)
    (backfillId : String) (limit : Option Int) :
    start ≤ (processTimeRange tweakables sched start stop overlapPolicy backfillId manual limit).lastActionTime := by
  unfold processTimeRange
  split
  · rename_i hno
    have hmanual : manual = false := by simp_all
    simpa [hmanual] using hle
  · exact rangeLoop_lastAction _ _ _ le_rfl

/-- The last action is not after the end of the range. -/
lemma rangeLoop_lastAction_le (args : RangeArgs) (after : Int) (l : RangeLoop) (h : l.lastAction ≤ args.stop) :
    (rangeLoop args after l).2.lastAction ≤ args.stop := by
  fun_induction rangeLoop args after l with
  | case1 after l hnone => exact h
  | case2 after l n hn hstop => exact h
  | case3 after l n hn hstop hlt ih => exact ih h
  | case4 after l n hn hstop hlt hcatchup ih => exact ih h
  | case5 after l n hn hstop hlt hcatchup hreached => exact Int.not_lt.mp hstop
  | case6 after l n hn hstop hlt hcatchup hreached ih => exact ih (Int.not_lt.mp hstop)

lemma processTimeRange_lastActionTime_le (tweakables : Tweakables) (sched : ScheduleState)
    {start stop : Int} (hle : start ≤ stop) (overlapPolicy : OverlapPolicy) (backfillId : String)
    (manual : Bool) (limit : Option Int) :
    (processTimeRange tweakables sched start stop overlapPolicy backfillId manual limit).lastActionTime ≤
      stop := by
  unfold processTimeRange
  split
  · exact le_rfl
  · exact rangeLoop_lastAction_le _ _ _ hle

/-! ### The enumeration -/

/-- The actions after `after` that are due by `stop`. -/
def CompiledSpec.actionTimes (cs : CompiledSpec) (seed : String) (stop after : Int) :
    List GetNextTimeResult :=
  match _h : cs.getNextTime seed after with
  | none => []
  | some n => if _hstop : stop < n.next then [] else n :: cs.actionTimes seed stop n.next
termination_by (stop - after).toNat
decreasing_by
  have hlt := cs.getNextTime_after _h
  omega

variable {cs : CompiledSpec} {seed : String} {stop after : Int}

lemma actionTimes_none (h : cs.getNextTime seed after = none) : cs.actionTimes seed stop after = [] := by
  rw [CompiledSpec.actionTimes]
  split
  · rfl
  rename_i n hn
  rw [h] at hn
  cases hn

lemma actionTimes_some {n : GetNextTimeResult} (h : cs.getNextTime seed after = some n) :
    cs.actionTimes seed stop after = if stop < n.next then [] else n :: cs.actionTimes seed stop n.next := by
  rw [CompiledSpec.actionTimes]
  split
  · rename_i hn
    rw [h] at hn
    cases hn
  rename_i m hm
  cases h.symm.trans hm
  rfl

lemma actionTimes_sorted (cs : CompiledSpec) (seed : String) (stop after : Int) :
    (cs.actionTimes seed stop after).Pairwise (fun m n => m.next < n.nominal) ∧ ∀ n ∈ cs.actionTimes seed stop after,
        after < n.nominal ∧ n.nominal ≤ n.next ∧ n.nominal % second = 0 ∧ n.next ≤ stop := by
  fun_induction CompiledSpec.actionTimes cs seed stop after with
  | case1 after h => exact ⟨.nil, by simp⟩
  | case2 after n h hstop => exact ⟨.nil, by simp⟩
  | case3 after n h hstop ih =>
    obtain ⟨hgt, hle, hwhole⟩ := cs.getNextTime_after h
    refine ⟨List.pairwise_cons.mpr ⟨fun m hm => (ih.2 m hm).1, ih.1⟩, fun m hm => ?_⟩
    obtain rfl | hm := List.mem_cons.mp hm
    · exact ⟨hgt, hle, hwhole, Int.not_lt.mp hstop⟩
    have := ih.2 m hm
    exact ⟨by omega, this.2⟩

/-- The actions that are not before the last update of the schedule. -/
def ScheduleState.due (sched : ScheduleState) (stop after : Int) : List GetNextTimeResult :=
  (sched.spec.actionTimes sched.jitterSeed stop after).filter (sched.updateTime ≤ ·.next)

/-- After the update all actions are due. -/
lemma due_of_le {sched : ScheduleState} (h : sched.updateTime ≤ after) :
    sched.due stop after = sched.spec.actionTimes sched.jitterSeed stop after := by
  refine List.filter_eq_self.mpr fun n hn => ?_
  have := (actionTimes_sorted _ _ _ _).2 n hn
  simp only [decide_eq_true_eq]
  omega

lemma due_none {sched : ScheduleState} (h : sched.getNextTime after = none) : sched.due stop after = [] := by
  rw [ScheduleState.due, actionTimes_none h, List.filter_nil]

lemma due_some {sched : ScheduleState} {n : GetNextTimeResult} (h : sched.getNextTime after = some n) :
    sched.due stop after = if stop < n.next then [] else
      if n.next < sched.updateTime then sched.due stop n.next
      else n :: sched.spec.actionTimes sched.jitterSeed stop n.next := by
  rw [ScheduleState.due, actionTimes_some h]
  split
  · rfl
  split
  · next hlt => rw [List.filter_cons_of_neg (by simpa using hlt), ScheduleState.due]
  · next hge =>
    rw [List.filter_cons_of_pos (by simpa using hge)]
    exact congrArg _ (due_of_le (Int.not_lt.mp hge))

/-- A run with a limit over the actions `all`: it takes the first of them. If they are as many as the
limit it stops within the range, and the others are still found from its last action; else it stops
past the range. -/
structure Limited (args : RangeArgs) (all : List GetNextTimeResult) (l : RangeLoop) (limit : Nat)
    (r : Option GetNextTimeResult × RangeLoop) : Prop where
  bufferedStarts : r.2.bufferedStarts = l.bufferedStarts ++ (all.take limit).map args.bufferedStart
  more : limit ≤ all.length → (∃ n ∈ all[limit - 1]?, r.1 = some n ∧ n.next ≤ args.stop ∧
      r.2.lastAction = n.next) ∧
    args.sched.spec.actionTimes args.sched.jitterSeed args.stop r.2.lastAction = all.drop limit
  finished : all.length < limit → ∀ n, r.1 = some n → args.stop < n.next

/-- A manual run with a limit takes the actions that are due. -/
lemma rangeLoop_manual (args : RangeArgs) (after : Int) (l : RangeLoop) (hmanual : args.manual)
    {limit : Nat} (hpos : 0 < limit) (hlimit : l.limit = some (limit : Int)) :
    Limited args (args.sched.due args.stop after) l limit (rangeLoop args after l) := by
  fun_induction rangeLoop args after l generalizing limit with
  | case1 after l h =>
    rw [due_none h]
    exact ⟨by simp, fun hle => by simp at hle; omega, nofun⟩
  | case2 after l n h hstop =>
    rw [due_some h, if_pos hstop]
    refine ⟨by simp, fun hle => by simp at hle; omega, fun _ m hm => ?_⟩
    cases hm
    exact hstop
  | case3 after l n h hstop hlt ih =>
    rw [due_some h, if_neg hstop, if_pos hlt]
    exact ih hpos hlimit
  | case4 after l n h hstop hlt hcatchup ih => simp [hmanual] at hcatchup
  | case5 after l n h hstop hlt hcatchup hreached =>
    rw [due_some h, if_neg hstop, if_neg hlt]
    have hone : limit = 1 := by
      simp only [RangeLoop.take, hlimit, Option.map_some, Option.any_some, decide_eq_true_eq] at hreached
      omega
    subst hone
    exact ⟨rfl, fun _ => ⟨⟨n, rfl, rfl, Int.not_lt.mp hstop, rfl⟩, rfl⟩, by simp⟩
  | case6 after l n h hstop hlt hcatchup hreached ih =>
    rw [due_some h, if_neg hstop, if_neg hlt]
    have hlimit' : (l.take args n).limit = some ((limit - 1 : Nat) : Int) := by
      simp only [RangeLoop.take, hlimit, Option.map_some, Option.some.injEq]
      omega
    have hgt : 1 < limit := by
      simp only [hlimit', Option.any_some, decide_eq_true_eq] at hreached
      omega
    have hrest := ih (by omega) hlimit'
    rw [due_of_le (Int.not_lt.mp hlt)] at hrest
    obtain ⟨k, rfl⟩ : ∃ k, limit = k + 2 := ⟨limit - 2, by omega⟩
    refine ⟨?_, fun hle => ?_, fun hgt => hrest.finished (by simpa using hgt)⟩
    · rw [hrest.bufferedStarts]
      simp [RangeLoop.take]
    · simpa using hrest.more (by simpa using hle)

end FastOrchestration.Scheduler
