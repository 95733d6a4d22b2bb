import FastOrchestration.Lib.SortedMap
import FastOrchestration.Matching.Backlog

/-!
# The reader of a fair subqueue

Model of `service/matching/fair_task_reader.go`. Each definition is one section of the source that runs
under `tr.lock`; `ReadPhase` says where `readTasksImpl` is between two of them. What the reader takes
from elsewhere (the dynamic configuration, the clock, whether the task queue is being unloaded) is an
`Env`.

Left out are the matcher, the backlog age and the backlog counts, which no decision here depends on.
-/

namespace FastOrchestration.Matching

open Lib

/-- Go `persistencespb.AllocatedTaskInfo`: the level of a task and its data. -/
abbrev AllocatedTask := FairLevel × TaskInfo

/-- What the reader reads from the configuration, the clock and the context. -/
structure Env where
  getTasksBatchSize : Int
  getTasksReloadAt : Int
  maxTaskDeleteBatchSize : Int
  taskDeleteInterval : Int
  now : Int
  /-- Go `tqCtx.Err() != nil`. -/
  done : Bool
  deriving DecidableEq

inductive MergeMode where
  | readMiddle
  | readToEnd
  | write
  deriving DecidableEq

inductive ReadPhase where
  /-- It does not run: Go `readPending` is false. -/
  | off
  /-- It is about to take the lock at the top of its loop; `failed` is `lastErr != nil`. -/
  | top (failed : Bool)
  /-- In `readTaskBatch`, before `GetFairTasks` reads. -/
  | fetching (readLevel : FairLevel) (batchSize : Int)
  /-- In `readTaskBatch`, with the tasks that `GetFairTasks` returned. -/
  | fetched (tasks : List AllocatedTask) (mode : MergeMode)
  /-- In `readTaskBatch`, about to merge the tasks that were not expired. -/
  | filtered (tasks : List AllocatedTask) (mode : MergeMode)
  deriving DecidableEq

structure FairTaskReader where
  /-- Go `readPending`, with the place `readTasksImpl` has reached. -/
  reading : ReadPhase
  /-- Go `backoffTimer != nil`. -/
  backoffTimer : Bool
  /-- The data of a task, or `none` if it is acked. -/
  outstandingTasks : SortedMap FairLevel (Option TaskInfo)
  loadedTasks : Int
  readLevel : FairLevel
  ackLevel : FairLevel
  atEnd : Bool
  newlyWrittenTasks : List AllocatedTask
  ackLevelPinnedByWriter : Bool
  /-- Go `inGC`, with the argument of the `doGC` that runs. -/
  inGC : Option FairLevel
  numToGC : Int
  lastGCTime : Int

namespace FairTaskReader

def newFairTaskReader (initialAckLevel : FairLevel) (now : Int) : FairTaskReader where
  reading := .off
  backoffTimer := false
  outstandingTasks := .empty
  loadedTasks := 0
  readLevel := initialAckLevel
  ackLevel := initialAckLevel
  atEnd := false
  newlyWrittenTasks := []
  ackLevelPinnedByWriter := false
  inGC := none
  numToGC := 0
  lastGCTime := now

variable (env : Env) (tr : FairTaskReader)

/-! ### Reading -/

def shouldReadMoreLocked : Bool :=
  if tr.atEnd then false
  else if env.getTasksReloadAt < tr.loadedTasks then false
  else true

def maybeReadTasksLocked : FairTaskReader :=
  if tr.reading ≠ .off ∨ ¬ tr.shouldReadMoreLocked env ∨ tr.backoffTimer ∨ env.done then tr
  else { tr with reading := .top false }

/-! ### Merging -/

/-- A value of `merged` in `mergeTasksLocked`: a task of the matcher or one just read or written. -/
inductive Candidate where
  | loaded (data : TaskInfo)
  | fresh (data : TaskInfo)
  deriving DecidableEq

def Candidate.data : Candidate → TaskInfo
  | loaded d => d
  | fresh d => d

/-- The tests of `mergeTasksLocked` by which a task is not ignored. -/
def considers (mode : MergeMode) (level : FairLevel) : Bool :=
  if ¬ tr.ackLevel < level then false
  else if mode = .write ∧ ¬ tr.atEnd ∧ tr.readLevel < level then false
  else if (tr.outstandingTasks.get? level).isSome then false
  else true

def merged (tasks : List AllocatedTask) (mode : MergeMode) : SortedMap FairLevel Candidate :=
  (tr.outstandingTasks.filterMap fun _ v => v.map .loaded).putAll
    ((tasks.filter fun t => tr.considers mode t.1).map fun t => (t.1, .fresh t.2))

def mergeTasksLocked (tasks : List AllocatedTask) (mode : MergeMode) : FairTaskReader :=
  let merged := (tr.merged tasks mode).entries
  let batchSize := env.getTasksBatchSize.toNat
  let kept := merged.take batchSize
  let rest := merged.drop batchSize
  let highestLevel := kept.getLast?.elim FairLevel.zero (·.1)
  let readLevel := if highestLevel.id ≠ 0 then highestLevel else tr.ackLevel
  let evicted := rest.filterMap fun e => match e.2 with
    | .loaded _ => some e.1
    | .fresh _ => none
  let outstanding := tr.outstandingTasks.removeAll evicted
  -- acks above the read level would let the ack level jump over what was dropped
  let stale := outstanding.select fun k v => v.isNone && readLevel < k
  let evictedAnyTasks := !rest.isEmpty || !stale.entries.isEmpty
  let new := kept.filterMap fun e => match e.2 with
    | .loaded _ => none
    | .fresh d => some (e.1, some d)
  { tr with
    readLevel
    outstandingTasks := (outstanding.removeAll (stale.entries.map (·.1))).putAll new
    loadedTasks := tr.loadedTasks - evicted.length + new.length
    atEnd :=
      if mode = .readMiddle ∨ evictedAnyTasks then false
      else if mode = .readToEnd then true
      else tr.atEnd }

def mergeTasks (tasks : List AllocatedTask) (mode : MergeMode) : FairTaskReader :=
  if mode = .write ∧ tr.reading ≠ .off then
    { tr with newlyWrittenTasks := tr.newlyWrittenTasks ++ tasks }
  else tr.mergeTasksLocked env tasks mode

/-! ### Acks -/

def ackLevelPinnedLocked : Bool := tr.ackLevelPinnedByWriter || !tr.newlyWrittenTasks.isEmpty

def shouldGCLocked : Bool :=
  if tr.inGC.isSome ∨ tr.numToGC = 0 then false
  else tr.numToGC ≥ env.maxTaskDeleteBatchSize || env.now - tr.lastGCTime > env.taskDeleteInterval

def maybeGCLocked : FairTaskReader :=
  if ¬ tr.shouldGCLocked env then tr
  else { tr with inGC := some tr.ackLevel, lastGCTime := env.now }

/-- The loop of `advanceAckLevelLocked`: the lowest levels, as long as they are acked. -/
def lowestAcked : List (FairLevel × Option TaskInfo) :=
  tr.outstandingTasks.entries.takeWhile fun e => e.2.isNone

def advanceAckLevelLocked : FairTaskReader :=
  if tr.ackLevelPinnedLocked then tr
  else
    let numAcked := tr.lowestAcked.length
    let tr' := { tr with
      ackLevel := tr.lowestAcked.getLast?.elim tr.ackLevel (·.1)
      outstandingTasks := tr.outstandingTasks.dropWhile fun _ v => v.isNone }
    if 0 < numAcked then { tr' with numToGC := tr'.numToGC + numAcked }.maybeGCLocked env
    else tr'

def completeTaskLocked (level : FairLevel) : FairTaskReader :=
  { tr with
    outstandingTasks := tr.outstandingTasks.put level none
    loadedTasks := tr.loadedTasks - 1 }.advanceAckLevelLocked env |>.maybeReadTasksLocked env

/-- Go `getAndPinAckLevel`; the level it returns is `tr.ackLevel`. -/
def getAndPinAckLevel : FairTaskReader := { tr with ackLevelPinnedByWriter := true }

def unpinAckLevel (writeErr : Bool) : FairTaskReader :=
  let tr := if writeErr then { tr with atEnd := false }.maybeReadTasksLocked env else tr
  { tr with ackLevelPinnedByWriter := false }.advanceAckLevelLocked env

/-! ### The read loop -/

/-- The top of the loop of `readTasksImpl`, and what follows the loop when it is left. -/
def readTasksImpl (failed : Bool) : FairTaskReader :=
  if failed ∨ ¬ tr.shouldReadMoreLocked env then
    let tr := { tr with reading := .off }
    if tr.newlyWrittenTasks.isEmpty then tr
    else
      { tr.mergeTasksLocked env tr.newlyWrittenTasks .write with newlyWrittenTasks := [] }
        |>.advanceAckLevelLocked env
  else { tr with reading := .fetching tr.readLevel (env.getTasksBatchSize - tr.loadedTasks) }

/-- Go `readFrom` in `readTaskBatch`. -/
def readFrom (readLevel : FairLevel) : FairLevel := (max readLevel ⟨1, 0⟩).inc

/-- Go `GetFairTasks`: the first rows from a level on. -/
def getFairTasks (rows : SortedMap FairLevel TaskInfo) (inclusiveMinLevel : FairLevel)
    (batchSize : Int) : List AllocatedTask :=
  (rows.entries.filter fun t => inclusiveMinLevel ≤ t.1).take batchSize.toNat

/-- Go `mode` in `readTaskBatch`. -/
def readMode (tasks : List AllocatedTask) (batchSize : Int) : MergeMode :=
  if tasks.length < batchSize then .readToEnd else .readMiddle

/-- Go `retryReadAfter`; the timer is `backoffTimer`. -/
def retryReadAfter : FairTaskReader := { tr with backoffTimer := true }

/-- The function `retryReadAfter` gives to `time.AfterFunc`. -/
def backoffFires : FairTaskReader := { tr with backoffTimer := false }.maybeReadTasksLocked env

/-- The end of Go `doGC`, under the lock. -/
def gcDone (result : Option Int) : FairTaskReader :=
  let tr := { tr with inGC := none }
  match result with
  | none => tr
  | some n =>
    -- `UnknownNumRowsAffected`
    if n = -1 then { tr with numToGC := 0 }
    else { tr with numToGC := max 0 (tr.numToGC - n) }

end FairTaskReader

end FastOrchestration.Matching
