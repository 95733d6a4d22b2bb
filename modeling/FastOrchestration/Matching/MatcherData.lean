import FastOrchestration.Lib.IndexedHeap
import FastOrchestration.Lib.Run
import FastOrchestration.Matching.Backlog

/-!
# The priority matcher

Model of `service/matching/matcher_data.go` and of the part of `task.go` and `pri_matcher.go` that adds
backlog tasks and takes them back: two heaps of waiting tasks and pollers, and the steps that other
goroutines make on them.

A method of `matcherData` holds its lock, so it is one step here. Where a method waits, its steps are
those between waiting: `EnqueueTaskAndWait` up to the wait, and the callback of each context, which can
come late. `AddTask` and `setEvicted` are two steps each, as they first change the atomic pointer and
then take the lock.

What the code reads from outside is an argument: the clock and the configuration of a step (`Moment`)
and the answers of the rate limiter, which has a lock of its own and may change at any time. The timers
only bring about more calls of `rematchAfterTimer`, which can come at any time. `failedAsserts` has the
soft assertions that failed; in Go they are logged, and the code goes on.
-/

namespace FastOrchestration.Matching
open Function

open Lib (IndexedHeap)

abbrev TaskId : Type := Nat

abbrev PollerId : Type := Nat

def invalidHeapIndex : Int := -13

def pollForwarderPriority : Int := 1000000

/-- What the matcher reads of an `internalTask`. The level is zero for a task without an event. -/
structure InternalTask where
  effectivePriority : Int
  level : FairLevel
  isQuery : Bool
  hasForwardCtx : Bool
  /-- The source is the local backlog, and the task is not forwarded. -/
  localBacklog : Bool
  createTime : Option Int

/-- What the matcher reads of a `waitingPoller`, but for `forwardCtx`, which changes. -/
structure WaitingPoller where
  startTime : Int
  queryOnly : Bool
  isTaskForwarder : Bool
  isTaskValidator : Bool

structure Items where
  task : TaskId → InternalTask
  poller : PollerId → WaitingPoller

namespace Items

variable (it : Items)

def isPollForwarder (t : TaskId) : Bool := (it.task t).effectivePriority = pollForwarderPriority

/-- Go `taskPQ.Less`. -/
def taskLess (a b : TaskId) : Bool :=
  if (it.task a).effectivePriority < (it.task b).effectivePriority then true
  else if (it.task b).effectivePriority < (it.task a).effectivePriority then false
  else (it.task a).level < (it.task b).level

/-- Go `pollerPQ.Less`. -/
def pollerLess (a b : PollerId) : Bool :=
  let late (p : PollerId) : Bool := (it.poller p).isTaskForwarder || (it.poller p).isTaskValidator
  if !late a && late b then true
  else if late a && !late b then false
  else (it.poller a).startTime < (it.poller b).startTime

end Items

inductive MatchResult where
  | matched (task : TaskId) (poller : PollerId)
  | ctxErr (ctxErrIdx : Int)
  deriving DecidableEq

inductive SoftAssert where
  | wakeCalledTwice
  | wakeCalledButStillInHeap
  deriving DecidableEq

inductive MatcherPanic where
  | indexOutOfRange
  | nilRemoveFunc
  deriving DecidableEq

/-- Go `matcherData`, with the fields of `waitableMatchResult` for all tasks and pollers. -/
structure MatcherData where
  tasks : IndexedHeap TaskId
  pollers : IndexedHeap PollerId
  /-- The create times of local backlog tasks, each as often as it is counted. -/
  ages : List Int
  taskResult : TaskId → Option MatchResult
  pollerResult : PollerId → Option MatchResult
  forwardCtx : PollerId → Bool
  lastPoller : Int
  failedAsserts : List SoftAssert
  /-- The pollers that a poll forwarder has taken and not given back. -/
  forwarding : List PollerId

/-- The readings of one step. -/
structure Moment where
  canForward : Bool
  backlogNegligibleAge : Int
  maxWaitForPollerBeforeFwd : Int
  backlogNow : Int
  pollerNow : Int
  /-- The delay of a task in each round, from the rate limiter. -/
  delay : Nat → TaskId → Int

inductive MatchOutcome where
  | noMatch
  | rateLimited (task : TaskId) (poller : PollerId)
  | outOfFuel

namespace MatcherData

variable (it : Items) (d : MatcherData)

/-- Go `backlogAgeTracker.record`, for one task more or less. -/
def recordAge (t : TaskId) (more : Bool) : List Int :=
  if (it.task t).localBacklog then
    match (it.task t).createTime with
    | none => d.ages
    | some time => if more then time :: d.ages else d.ages.erase time
  else d.ages

/-- Go `taskPQ.Add`. -/
def addTask (t : TaskId) : MatcherData :=
  { d with tasks := d.tasks.push it.taskLess t, ages := d.recordAge it t true }

/-- Go `taskPQ.Remove`: what is popped is the task at the index of `t`. -/
def removeTask (t : TaskId) : Except MatcherPanic MatcherData :=
  match d.tasks.remove it.taskLess invalidHeapIndex (d.tasks.index t) with
  | none => .error .indexOutOfRange
  | some (popped, tasks) => .ok { d with tasks := tasks, ages := d.recordAge it popped false }

/-- Go `pollerPQ.Add`. -/
def addPoller (p : PollerId) : MatcherData :=
  { d with pollers := d.pollers.push it.pollerLess p }

/-- Go `pollerPQ.Remove`. -/
def removePoller (p : PollerId) : Except MatcherPanic MatcherData :=
  match d.pollers.remove it.pollerLess invalidHeapIndex (d.pollers.index p) with
  | none => .error .indexOutOfRange
  | some (_, pollers) => .ok { d with pollers := pollers }

/-- The assertions of Go `wake`. -/
def wakeAsserts (result : Option MatchResult) (matchHeapIndex : Int) : List SoftAssert :=
  (if result = none then [] else [.wakeCalledTwice]) ++ (if matchHeapIndex < 0 then [] else [.wakeCalledButStillInHeap])

/-- Go `wake` of a task. -/
def wakeTask (t : TaskId) (res : MatchResult) : MatcherData :=
  { d with
    taskResult := update d.taskResult t (some res)
    failedAsserts := d.failedAsserts ++ wakeAsserts (d.taskResult t) (d.tasks.index t) }

/-- Go `wake` of a poller. -/
def wakePoller (p : PollerId) (res : MatchResult) : MatcherData :=
  { d with
    pollerResult := update d.pollerResult p (some res)
    failedAsserts := d.failedAsserts ++ wakeAsserts (d.pollerResult p) (d.pollers.index p) }

/-- Go `initMatch` of a task. -/
def initTask (t : TaskId) : MatcherData :=
  { d with taskResult := update d.taskResult t none }

/-- Go `initMatch` of a poller. -/
def initPoller (p : PollerId) : MatcherData :=
  { d with pollerResult := update d.pollerResult p none }

/-! ## Matching -/

/-- The cases in which Go `findMatch` goes on to the next poller. -/
def cannotMatch (allowForwarding : Bool) (t : TaskId) (p : PollerId) : Bool :=
  (it.poller p).queryOnly && !(it.task t).isQuery && !it.isPollForwarder t ||
  it.isPollForwarder t && !d.forwardCtx p ||
  (it.poller p).isTaskForwarder && !allowForwarding ||
  (it.poller p).isTaskValidator && (it.task t).hasForwardCtx

def findMatch (allowForwarding : Bool) : Option (TaskId × PollerId) :=
  d.tasks.items.findSome? fun t =>
    if !allowForwarding && it.isPollForwarder t then none
    else (d.pollers.items.find? fun p => !d.cannotMatch it allowForwarding t p).map fun p => (t, p)

def MayMatch (allowForwarding : Bool) (t : TaskId) (p : PollerId) : Prop :=
  ¬ (!allowForwarding && it.isPollForwarder t) ∧ ¬ d.cannotMatch it allowForwarding t p

def isBacklogNegligible (m : Moment) : Bool :=
  match d.ages.min? with
  | none => true
  | some oldest => m.backlogNow - oldest < m.backlogNegligibleAge

/-- Go `canForward && allowForwarding()`. -/
def allowForwarding (m : Moment) : Bool :=
  m.canForward && (d.isBacklogNegligible m || m.maxWaitForPollerBeforeFwd - (m.pollerNow - d.lastPoller) ≤ 0)

/-- The task and the poller are taken out of the heaps and get their result. A poll forwarder keeps its
poller without a result. -/
def signalMatch (t : TaskId) (p : PollerId) : Except MatcherPanic MatcherData := do
  let d ← d.removeTask it t
  let d ← d.removePoller it p
  let d := d.wakeTask t (.matched t p)
  return if it.isPollForwarder t then { d with forwarding := p :: d.forwarding } else d.wakePoller p (.matched t p)

/-- The loop of Go `findAndWakeMatches`. -/
def matchLoop (allowForwarding : Bool) (delay : Nat → TaskId → Int) :
    Nat → Nat → MatcherData → Except MatcherPanic (MatcherData × MatchOutcome)
  | 0, _, d => .ok (d, .outOfFuel)
  | fuel + 1, round, d =>
    match d.findMatch it allowForwarding with
    | none => .ok (d, .noMatch)
    | some (t, p) =>
      if 0 < delay round t then .ok (d, .rateLimited t p)
      else do
        let d ← d.signalMatch it t p
        matchLoop allowForwarding delay fuel (round + 1) d

/-- Go `findAndWakeMatches`. Each round takes one task, so there are at most as many as tasks. -/
def findAndWakeMatches (m : Moment) : Except MatcherPanic (MatcherData × MatchOutcome) :=
  matchLoop it (d.allowForwarding m) m.delay (d.tasks.items.length + 1) 0 d

def rematch (m : Moment) : Except MatcherPanic MatcherData :=
  Prod.fst <$> d.findAndWakeMatches it m

/-! ## Methods -/

/-- Go `EnqueueTaskNoWait`, and `EnqueueTaskAndWait` until it waits. -/
def enqueueTask (m : Moment) (t : TaskId) : Except MatcherPanic MatcherData :=
  ((d.initTask t).addTask it t).rematch it m

/-- Go `RemoveTask`. -/
def removeIfQueued (t : TaskId) : Except MatcherPanic MatcherData :=
  if 0 ≤ d.tasks.index t then d.removeTask it t else .ok d

/-- The context callback of Go `EnqueueTaskAndWait`. -/
def taskContextDone (t : TaskId) (i : Nat) : Except MatcherPanic MatcherData :=
  if d.taskResult t = none then do
    let d ← d.removeTask it t
    return d.wakeTask t (.ctxErr i)
  else .ok d

/-- Go `EnqueuePollerAndWait` until it waits. -/
def enqueuePoller (m : Moment) (p : PollerId) : Except MatcherPanic MatcherData :=
  let d := { d with lastPoller := max d.lastPoller (it.poller p).startTime }
  ((d.initPoller p).addPoller it p).rematch it m

/-- The context callback of Go `EnqueuePollerAndWait`. -/
def pollerContextDone (p : PollerId) (i : Nat) : Except MatcherPanic MatcherData :=
  if d.pollerResult p = none then do
    let d ← if 0 ≤ d.pollers.index p then d.removePoller it p else .ok d
    return d.wakePoller p (.ctxErr i)
  else .ok d

def matchTaskImmediately (m : Moment) (t : TaskId) : Except MatcherPanic MatcherData :=
  if d.isBacklogNegligible m then do
    let d ← d.enqueueTask it m t
    if d.taskResult t = none then d.removeTask it t else .ok d
  else .ok d

def reprocessTasks (pred : TaskId → Bool) : MatcherData :=
  let keep (t : TaskId) : Bool := it.isPollForwarder t || !pred t
  let out := d.tasks.items.filter fun t => !keep t
  let d := { d with
    ages := out.foldl (fun ages t => recordAge it { d with ages := ages } t false) d.ages
    tasks := d.tasks.filterInit it.taskLess (invalidHeapIndex - 1) keep }
  out.foldl (fun d t => d.wakeTask t (.ctxErr (-1))) d

def finishMatchAfterPollForward (p : PollerId) (t : TaskId) : MatcherData :=
  if d.pollerResult p = none then d.wakePoller p (.matched t p) else d

/-- Go `ReenqueuePollerIfNotMatched`, after the forwarder has set `forwardCtx` to nil. -/
def reenqueuePollerIfNotMatched (m : Moment) (p : PollerId) : Except MatcherPanic MatcherData :=
  let d := { d with forwardCtx := update d.forwardCtx p false }
  if d.pollerResult p = none then (d.addPoller it p).rematch it m else .ok d

end MatcherData

/-! ## Goroutines -/

/-- What `removeFromMatcher` points to. -/
inductive RemoveFunc where
  | notAddedYet
  | remove
  | evicted
  deriving DecidableEq

/-- The matcher with the goroutines that are in the middle of a call. -/
structure MatcherSystem where
  data : MatcherData
  removeFromMatcher : TaskId → Option RemoveFunc
  /-- `AddTask` has set the remove function and will enqueue the task. -/
  adding : List TaskId
  /-- `setEvicted` has taken the remove function and will call it. -/
  evicting : List TaskId
  /-- The tasks and pollers with contexts, that have waited or wait. -/
  waitingTasks : List TaskId
  waitingPollers : List PollerId

inductive MatcherEvent where
  | resetMatcherState (t : TaskId)
  | setRemoveFunc (t : TaskId)
  | enqueueTaskNoWait (t : TaskId) (m : Moment)
  | setEvicted (t : TaskId)
  | removeTask (t : TaskId)
  | enqueueTaskAndWait (t : TaskId) (m : Moment)
  | taskContextDone (t : TaskId) (i : Nat)
  | matchTaskImmediately (t : TaskId) (m : Moment)
  | enqueuePollerAndWait (p : PollerId) (m : Moment)
  | pollerContextDone (p : PollerId) (i : Nat)
  | finishMatchAfterPollForward (p : PollerId) (t : TaskId)
  | reenqueuePollerIfNotMatched (p : PollerId) (m : Moment)
  | reprocessTasks (pred : TaskId → Bool)
  | recycleToken (m : Moment)
  | rematchAfterTimer (m : Moment)

namespace MatcherSystem

/-- The fields of Go's items are zero at first, the heap index too. -/
def init (forwardCtx : PollerId → Bool) : MatcherSystem where
  data :=
    { tasks := ⟨[], fun _ => 0⟩
      pollers := ⟨[], fun _ => 0⟩
      ages := []
      taskResult := fun _ => none
      pollerResult := fun _ => none
      forwardCtx := forwardCtx
      lastPoller := 0
      failedAsserts := []
      forwarding := [] }
  removeFromMatcher := fun _ => none
  adding := []
  evicting := []
  waitingTasks := []
  waitingPollers := []

variable (it : Items) (s : MatcherSystem)

/-- Go `setRemoveFunc`, as `AddTask` calls it. -/
def setRemoveFunc (t : TaskId) : MatcherSystem :=
  if s.removeFromMatcher t = some .notAddedYet then
    { s with removeFromMatcher := update s.removeFromMatcher t (some .remove)
             adding := t :: s.adding }
  else s

/-- Go `setEvicted` up to the call of what it has taken. The sentinels do nothing when called. -/
def setEvicted (t : TaskId) : Except MatcherPanic MatcherSystem :=
  let marked := { s with removeFromMatcher := update s.removeFromMatcher t (some .evicted) }
  match s.removeFromMatcher t with
  | none => .error .nilRemoveFunc
  | some .remove => .ok { marked with evicting := t :: s.evicting }
  | some _ => .ok marked

def step (e : MatcherEvent) : Except MatcherPanic MatcherSystem :=
  match e with
  | .resetMatcherState t => .ok { s with
      removeFromMatcher := update s.removeFromMatcher t (some .notAddedYet) }
  | .setRemoveFunc t => .ok (s.setRemoveFunc t)
  | .enqueueTaskNoWait t m => do
    let data ← s.data.enqueueTask it m t
    return { s with data := data, adding := s.adding.erase t }
  | .setEvicted t => s.setEvicted t
  | .removeTask t => do
    let data ← s.data.removeIfQueued it t
    return { s with data := data, evicting := s.evicting.erase t }
  | .enqueueTaskAndWait t m => do
    let data ← s.data.enqueueTask it m t
    return { s with data := data, waitingTasks := t :: s.waitingTasks }
  | .taskContextDone t i => do
    let data ← s.data.taskContextDone it t i
    return { s with data := data }
  | .matchTaskImmediately t m => do
    let data ← s.data.matchTaskImmediately it m t
    return { s with data := data }
  | .enqueuePollerAndWait p m => do
    let data ← s.data.enqueuePoller it m p
    return { s with data := data, waitingPollers := p :: s.waitingPollers }
  | .pollerContextDone p i => do
    let data ← s.data.pollerContextDone it p i
    return { s with data := data }
  | .finishMatchAfterPollForward p t =>
    let data := s.data.finishMatchAfterPollForward p t
    .ok { s with data := { data with forwarding := data.forwarding.erase p } }
  | .reenqueuePollerIfNotMatched p m => do
    let data := { s.data with forwarding := s.data.forwarding.erase p }
    let data ← data.reenqueuePollerIfNotMatched it m p
    return { s with data := data }
  | .reprocessTasks pred => .ok { s with data := s.data.reprocessTasks it pred }
  | .recycleToken m | .rematchAfterTimer m => do
    let data ← s.data.rematch it m
    return { s with data := data }

/-- How the callers use the matcher. A backlog task goes through `AddTask`, with its state reset while
it is not in the matcher. Any other task is offered once without waiting and then only with waiting,
each time after the last result. Only a poll forwarder finishes or gives back what it has taken. -/
def Enabled (e : MatcherEvent) : Prop :=
  match e with
  | .resetMatcherState t => (it.task t).localBacklog ∧ t ∉ s.data.tasks.items ∧ t ∉ s.adding
  | .setRemoveFunc t => (it.task t).localBacklog
  | .enqueueTaskNoWait t _ => t ∈ s.adding
  | .setEvicted t => (it.task t).localBacklog
  | .removeTask t => t ∈ s.evicting
  | .enqueueTaskAndWait t _ => (it.task t).localBacklog = false ∧ (t ∉ s.waitingTasks ∨ s.data.taskResult t ≠ none)
  | .taskContextDone t _ => t ∈ s.waitingTasks
  | .matchTaskImmediately t _ => (it.task t).localBacklog = false ∧ t ∉ s.waitingTasks
  | .enqueuePollerAndWait p _ => p ∉ s.waitingPollers ∨ (s.data.pollerResult p ≠ none ∧ p ∉ s.data.forwarding)
  | .pollerContextDone p _ => p ∈ s.waitingPollers
  | .finishMatchAfterPollForward p _ => p ∈ s.data.forwarding
  | .reenqueuePollerIfNotMatched p _ => p ∈ s.data.forwarding
  | _ => True

instance (e : MatcherEvent) : Decidable (s.Enabled it e) := by
  cases e <;> unfold Enabled <;> infer_instance

/-- No task is evicted before its state is set for the first time, and none is removed between the two
steps of `AddTask`. -/
def NotBetween (e : MatcherEvent) : Prop :=
  match e with
  | .setEvicted t => s.removeFromMatcher t ≠ none
  | .removeTask t => t ∉ s.adding
  | _ => True

instance (e : MatcherEvent) : Decidable (s.NotBetween e) := by
  cases e <;> unfold NotBetween <;> infer_instance

end MatcherSystem

end FastOrchestration.Matching
