import FastOrchestration.Lib.Run
import FastOrchestration.Matching.FairReaderLaws

/-!
# The fair backlog

Model of `service/matching/fair_task_writer.go` and the parts of `fair_backlog_manager.go` and `db.go`
it uses, for one subqueue, together with its rows in persistence. An event is one critical section or one
call to persistence, so that everything can happen between two of them. `Ledger` records what happened
to the tasks; no step reads it.
-/

namespace FastOrchestration.Matching

open Lib FairTaskReader

structure WriteTaskRequest where
  subqueue : Nat
  taskInfo : TaskInfo
  /-- The task that `respoolTaskAfterError` writes again, if that is the caller. -/
  respools : Option AllocatedTask
  deriving DecidableEq

/-- What `pickPasses` takes from elsewhere for a request. Each counter returns
`max(base, value + inc)` for the value it holds for the fairness key, which is never negative. -/
structure Pick where
  /-- The value of the counter. -/
  count : Nat
  /-- Go `int64(strideFactor/weight)`. -/
  stride : Int
  /-- The pass of the ack level, if the request is for another subqueue. -/
  otherBase : Int
  deriving DecidableEq

def Pick.getPass (p : Pick) (base inc : Int) : Int := max base (p.count + inc)

inductive WriterPhase where
  | idle
  /-- In `allocTaskIDs`. -/
  | allocating (assigned : List (WriteTaskRequest × Int)) (reqs : List WriteTaskRequest)
  /-- In `CreateFairTasks`, with the ack level pinned. -/
  | creating (reqs : List (WriteTaskRequest × FairLevel))
  /-- Before `wroteNewTasks`. -/
  | created (reqs : List (WriteTaskRequest × FairLevel))
  /-- Before `unpin`. -/
  | unpinning (reqs : List (WriteTaskRequest × FairLevel)) (err : Bool)
  deriving DecidableEq

def tasksOf (subqueue : Nat) (reqs : List (WriteTaskRequest × FairLevel)) : List AllocatedTask :=
  reqs.filterMap fun r => if r.1.subqueue = subqueue then some (r.2, r.1.taskInfo) else none

/-- A subqueue of the fair backlog, with its rows in persistence and what happened to its tasks. -/
structure FairBacklog where
  subqueue : Nat
  env : Env
  tr : FairTaskReader
  /-- The rows of the subqueue. -/
  rows : SortedMap FairLevel TaskInfo
  /-- Rows of writes that were reported as failed, which may still arrive. -/
  limbo : List AllocatedTask
  appendCh : List WriteTaskRequest
  writer : WriterPhase
  rangeID : Int
  taskIDBlock : TaskIDBlock
  /-- The tasks that `completeTask` is writing again. -/
  respooling : List AllocatedTask
  /-- The tasks that were written again and whose completion is not recorded yet. -/
  respooled : List AllocatedTask
  ledger : Ledger

inductive Event where
  /-- `SpoolTask` puts a request into the channel. -/
  | spool (subqueue : Nat) (taskInfo : TaskInfo)
  /-- The writer takes a batch of `n + 1` requests. -/
  | takeBatch (n : Nat)
  /-- `allocTaskIDs` gives the next id; `renewed` tells whether a lease can be renewed. -/
  | allocTaskID (renewed : Bool)
  /-- `getAndPinAckLevels` and `pickPasses`. -/
  | pin (picks : List Pick)
  /-- `CreateFairTasks` returns. -/
  | createFairTasks (ok : Bool)
  /-- A row of a write that was reported as failed arrives. -/
  | land (t : AllocatedTask)
  | wroteNewTasks
  /-- `unpin`, after which the requests are answered. -/
  | unpin
  /-- The top of the loop of `readTasksImpl`. -/
  | readTasksImpl
  /-- `GetFairTasks` reads. -/
  | getFairTasks
  /-- `GetFairTasks` fails; `retry` tells whether `retryReadAfter` is called. -/
  | getFairTasksFails (retry : Bool)
  /-- `readTaskBatch` drops expired tasks. -/
  | dropExpired
  /-- `readTaskBatch` merges. -/
  | mergeTasks
  | backoffFires
  /-- `completeTask` of the task at a level, up to where it releases the lock. -/
  | completeTask (level : FairLevel) (res : Outcome)
  /-- `respoolTaskAfterError` calls `SpoolTask`. -/
  | respool (t : AllocatedTask) (subqueue : Nat)
  /-- `completeTask` records the completion of a task that was written again. -/
  | respooled (t : AllocatedTask)
  /-- `CompleteFairTasksLessThan` deletes rows, except some if it honours the limit. -/
  | deleteRows (spared : List FairLevel)
  /-- `doGC` returns. -/
  | gcDone (result : Option Int)
  /-- The dynamic configuration changes. -/
  | configure (getTasksBatchSize getTasksReloadAt maxTaskDeleteBatchSize taskDeleteInterval : Int)
  | tick (d : Nat)
  /-- The context of the task queue is cancelled. -/
  | stop
  deriving DecidableEq

namespace FairBacklog

/-- A subqueue that was just loaded: Go `newFairTaskReader` and `Start`. -/
def load (subqueue : Nat) (env : Env) (ackLevel : FairLevel) (rows : SortedMap FairLevel TaskInfo)
    (rangeID : Int) : FairBacklog where
  subqueue
  env
  tr := (newFairTaskReader ackLevel env.now).maybeReadTasksLocked env
  rows
  limbo := []
  appendCh := []
  writer := .idle
  rangeID
  taskIDBlock := rangeIDToTaskIDBlock rangeID
  respooling := []
  respooled := []
  ledger := ⟨rows, rows.entries.filter fun t => ackLevel < t.1, []⟩

variable (s : FairBacklog)

/-! ### The writer -/

/-- One turn of the loop of Go `allocTaskIDs`. -/
def allocTaskID (assigned : List (WriteTaskRequest × Int)) (req : WriteTaskRequest)
    (reqs : List WriteTaskRequest) (renewed : Bool) : FairBacklog :=
  let give (s : FairBacklog) : FairBacklog :=
    { s with
      writer := .allocating (assigned ++ [(req, s.taskIDBlock.start)]) reqs
      taskIDBlock := { s.taskIDBlock with start := s.taskIDBlock.start + 1 } }
  if s.taskIDBlock.last < s.taskIDBlock.start then
    -- `allocTaskIDBlock`; on an error every request of the batch is answered with it
    if (rangeIDToTaskIDBlock s.rangeID).last ≠ s.taskIDBlock.last ∨ ¬ renewed then
      { s with writer := .idle }
    else
      give { s with
        rangeID := s.rangeID + 1
        taskIDBlock := rangeIDToTaskIDBlock (s.rangeID + 1) }
  else give s

/-- Go `pickPasses`, for one request. -/
def pickPass (req : WriteTaskRequest × Int) (p : Pick) : WriteTaskRequest × FairLevel :=
  let base := if req.1.subqueue = s.subqueue then s.tr.ackLevel.pass else p.otherBase
  (req.1, ⟨p.getPass base (max 1 p.stride), req.2⟩)

/-- Go `writeBatch` up to `CreateFairTasks`. -/
def pin (assigned : List (WriteTaskRequest × Int)) (picks : List Pick) : FairBacklog :=
  let reqs := List.zipWith s.pickPass assigned picks
  { s with
    tr := s.tr.getAndPinAckLevel
    writer := .creating reqs
    ledger := { s.ledger with issued := s.ledger.issued.putAll (tasksOf s.subqueue reqs) } }

/-- `CreateFairTasks` returns, with the rows created or with an unknown outcome. -/
def createFairTasks (reqs : List (WriteTaskRequest × FairLevel)) (ok : Bool) : FairBacklog :=
  let tasks := tasksOf s.subqueue reqs
  if ok then
    { s with
      rows := s.rows.putAll tasks
      writer := .created reqs
      ledger := { s.ledger with reported := s.ledger.reported ++ tasks } }
  else
    { s with
      limbo := s.limbo ++ tasks
      writer := .unpinning reqs true }

/-- Go `wroteNewTasks`, which calls the readers of the subqueues that have tasks in the batch. -/
def wroteNewTasks (reqs : List (WriteTaskRequest × FairLevel)) : FairBacklog :=
  let tasks := tasksOf s.subqueue reqs
  { s with
    tr := if tasks.isEmpty then s.tr else s.tr.mergeTasks s.env tasks .write
    writer := .unpinning reqs false }

def unpin (reqs : List (WriteTaskRequest × FairLevel)) (err : Bool) : FairBacklog :=
  let written := if err then [] else reqs.filterMap (·.1.respools)
  { s with
    tr := s.tr.unpinAckLevel s.env err
    writer := .idle
    respooling := s.respooling.diff written
    respooled := s.respooled ++ written }

/-! ### Completions -/

/-- `completeTaskLocked` at the end of `completeTask`. -/
def complete (level : FairLevel) : FairBacklog :=
  { s with
    tr := s.tr.completeTaskLocked s.env level
    ledger := { s.ledger with completed := level :: s.ledger.completed } }

/-- Go `completeTask` up to where it releases the lock. -/
def completeTask (level : FairLevel) (res : Outcome) : FairBacklog :=
  match s.tr.outstandingTasks.get? level with
  | some (some data) =>
    match res with
    | .success => s.complete level
    -- the task goes back to the matcher
    | .transient => s
    | .failed => { s with respooling := s.respooling ++ [(level, data)] }
  -- not outstanding any more, or acked already
  | _ => s

/-! ### Runs -/

def step (s : FairBacklog) : Event → Except Blocked FairBacklog
  | .spool subqueue taskInfo => .ok { s with appendCh := s.appendCh ++ [⟨subqueue, taskInfo, none⟩] }
  | .takeBatch n =>
    match s.writer, s.appendCh with
    | .idle, req :: reqs =>
      .ok { s with writer := .allocating [] (req :: reqs.take n), appendCh := reqs.drop n }
    | _, _ => .error .notEnabled
  | .allocTaskID renewed =>
    match s.writer with
    | .allocating assigned (req :: reqs) => .ok (s.allocTaskID assigned req reqs renewed)
    | _ => .error .notEnabled
  | .pin picks =>
    match s.writer with
    | .allocating assigned [] =>
      if picks.length = assigned.length then .ok (s.pin assigned picks) else .error .notEnabled
    | _ => .error .notEnabled
  | .createFairTasks ok =>
    match s.writer with
    | .creating reqs => .ok (s.createFairTasks reqs ok)
    | _ => .error .notEnabled
  | .land t => if t ∈ s.limbo then .ok { s with rows := s.rows.put t.1 t.2 } else .error .notEnabled
  | .wroteNewTasks =>
    match s.writer with
    | .created reqs => .ok (s.wroteNewTasks reqs)
    | _ => .error .notEnabled
  | .unpin =>
    match s.writer with
    | .unpinning reqs err => .ok (s.unpin reqs err)
    | _ => .error .notEnabled
  | .readTasksImpl =>
    match s.tr.reading with
    | .top failed => .ok { s with tr := s.tr.readTasksImpl s.env failed }
    | _ => .error .notEnabled
  | .getFairTasks =>
    match s.tr.reading with
    | .fetching readLevel batchSize =>
      let tasks := getFairTasks s.rows (readFrom readLevel) batchSize
      .ok { s with tr := { s.tr with
        reading := .fetched tasks (readMode tasks batchSize) } }
    | _ => .error .notEnabled
  | .getFairTasksFails retry =>
    match s.tr.reading with
    | .fetching _ _ =>
      let tr := if retry then s.tr.retryReadAfter else s.tr
      .ok { s with tr := { tr with reading := .top true } }
    | _ => .error .notEnabled
  | .dropExpired =>
    match s.tr.reading with
    | .fetched tasks mode =>
      .ok { s with tr := { s.tr with
        reading := .filtered (tasks.filter fun t => ¬ t.2.isTaskExpired s.env.now) mode } }
    | _ => .error .notEnabled
  | .mergeTasks =>
    match s.tr.reading with
    | .filtered tasks mode =>
      .ok { s with tr := { s.tr.mergeTasks s.env tasks mode with reading := .top false } }
    | _ => .error .notEnabled
  | .backoffFires =>
    if s.tr.backoffTimer then .ok { s with tr := s.tr.backoffFires s.env } else .error .notEnabled
  | .completeTask level res => .ok (s.completeTask level res)
  | .respool t subqueue =>
    if t ∈ s.respooling then .ok { s with appendCh := s.appendCh ++ [⟨subqueue, t.2, some t⟩] }
    else .error .notEnabled
  | .respooled t =>
    if t ∈ s.respooled then .ok { s.complete t.1 with respooled := s.respooled.erase t }
    else .error .notEnabled
  | .deleteRows spared =>
    match s.tr.inGC with
    | some level =>
      -- the argument of `CompleteFairTasksLessThan` is `ackLevel.inc()`
      .ok { s with rows := s.rows.select fun k _ => ¬ k < level.inc ∨ k ∈ spared }
    | none => .error .notEnabled
  | .gcDone result =>
    if s.tr.inGC.isSome then .ok { s with tr := s.tr.gcDone result } else .error .notEnabled
  | .configure batch reload delete interval =>
    .ok { s with env := { s.env with
      getTasksBatchSize := batch
      getTasksReloadAt := reload
      maxTaskDeleteBatchSize := delete
      taskDeleteInterval := interval } }
  | .tick d => .ok { s with env := { s.env with now := s.env.now + d } }
  | .stop => .ok { s with env := { s.env with done := true } }

end FairBacklog

end FastOrchestration.Matching
