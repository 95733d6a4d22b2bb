import FastOrchestration.Matching.PriReader

/-!
# The priority backlog

Model of `service/matching/pri_task_writer.go`, `pri_backlog_manager.go` and `db.go`: any number of
owners of one task queue, each with its lease, writer and readers, over one persistence. An event is one
critical section or one call to persistence, so that everything can happen between two of them. A write
to persistence takes effect only if the range id is the one it was made for.

The priority of a task selects its subqueue; here a task may be written to any subqueue that its owner
has. `issued`, `reported` and `completed` record what happened to the tasks; no step reads them.
-/

namespace FastOrchestration.Matching

open Lib

structure PriTask where
  subqueue : Nat
  id : Int
  info : TaskInfo
  deriving DecidableEq

namespace PriBacklog

/-! ### Persistence -/

structure SubqueueInfo where
  priority : Int
  ackLevel : Int
  deriving DecidableEq

structure TaskQueueInfo where
  ackLevel : Int
  subqueues : List SubqueueInfo
  deriving DecidableEq

structure Store where
  /-- The range id of the lease, 0 if the task queue does not exist. -/
  rangeID : Int
  info : TaskQueueInfo
  /-- The rows of each subqueue. -/
  rows : Nat → SortedMap Int TaskInfo
  /-- Rows of writes that were reported as failed, which may still arrive. -/
  limbo : List PriTask

/-- How a write that meets its condition ends: it is reported as done, or as failed with an unknown
outcome. -/
inductive Reply where
  | ok
  | lost (applied : Bool)
  deriving DecidableEq

/-- Whether a write made for a range id takes effect. -/
def Reply.applies (st : Store) (rangeID : Int) : Reply → Bool
  | ok => st.rangeID = rangeID
  | lost applied => st.rangeID = rangeID && applied

/-- Whether a write made for a range id is reported as done. -/
def Reply.reports (st : Store) (rangeID : Int) (r : Reply) : Bool := r = ok ∧ st.rangeID = rangeID

/-! ### Owners -/

structure DbSubqueue extends SubqueueInfo where
  maxReadLevel : Int
  deriving DecidableEq

/-- A subqueue of an owner: its part of `taskQueueDB` and its reader. -/
structure Subqueue where
  db : DbSubqueue
  tr : PriTaskReader

/-- How far an owner is with its lease. -/
inductive Lease where
  | none
  /-- In `takeOverTaskQueueLocked`, with what `GetTaskQueue` returned. -/
  | found (rangeID : Int) (info : TaskQueueInfo)
  | notFound
  | held
  deriving DecidableEq

/-- Go `writeTaskRequest`. -/
structure Request where
  subqueue : Nat
  taskInfo : TaskInfo
  /-- The task that `respoolTaskAfterError` writes again, if that is the caller. -/
  respools : Option PriTask
  deriving DecidableEq

inductive WriterPhase where
  | idle
  /-- In `assignTaskIDs`. -/
  | assigning (assigned : List (Request × Int)) (reqs : List Request)
  /-- In `signalReaders`, with the subqueues that are left. -/
  | signalling (reqs : List (Request × Int)) (updates : List (Nat × PriTaskReader.Response))
  deriving DecidableEq

/-- Go `priBacklogManagerImpl` with its `taskQueueDB` and `priTaskWriter`. -/
structure Owner where
  defaultPriorityKey : Int
  config : PriConfig
  lease : Lease
  rangeID : Int
  subqueues : List Subqueue
  taskIDBlock : TaskIDBlock
  appendCh : List Request
  writer : WriterPhase
  /-- The tasks that `completeTask` is writing again. -/
  respooling : List PriTask
  /-- The tasks that were written again and whose completion is not recorded yet. -/
  respooled : List PriTask

def Owner.idle : Owner where
  defaultPriorityKey := 3
  config := ⟨1000, by decide, 0, 100, 0⟩
  lease := .none
  rangeID := 0
  subqueues := []
  taskIDBlock := ⟨0, -1⟩
  appendCh := []
  writer := .idle
  respooling := []
  respooled := []

namespace Owner

variable (o : Owner)

def newSubqueueLocked (rangeID priority : Int) : DbSubqueue :=
  let initAckLevel := (rangeIDToTaskIDBlock rangeID).start - 1
  ⟨⟨priority, initAckLevel⟩, initAckLevel⟩

def ensureDefaultSubqueuesLocked (rangeID : Int) (infos : List SubqueueInfo) (initAckLevel : Int) :
    List DbSubqueue :=
  let subqueues := infos.map fun info => (⟨info, 0⟩ : DbSubqueue)
  if subqueues.any fun s => s.priority = o.defaultPriorityKey then subqueues
  else
    let new := newSubqueueLocked rangeID o.defaultPriorityKey
    if subqueues.isEmpty then [{ new with ackLevel := initAckLevel }] else subqueues ++ [new]

def cachedQueueInfo (subqueues : List DbSubqueue) : TaskQueueInfo where
  ackLevel := subqueues.head?.elim 0 (·.ackLevel)
  subqueues := subqueues.map (·.toSubqueueInfo)

/-- What the owner would write about the task queue. -/
def info : TaskQueueInfo := cachedQueueInfo (o.subqueues.map (·.db))

def loadSubqueue (now : Int) (db : DbSubqueue) : Subqueue :=
  ⟨db, .newPriTaskReader db.ackLevel now⟩

def start (rangeID : Int) (subqueues : List DbSubqueue) (now : Int) : Owner :=
  { o with
    lease := .held
    rangeID
    subqueues := subqueues.map (loadSubqueue now)
    taskIDBlock := rangeIDToTaskIDBlock rangeID }

/-- The subqueues with which the lease is taken over. -/
def takeOverSubqueues (rangeID : Int) (info : TaskQueueInfo) : List DbSubqueue :=
  o.ensureDefaultSubqueuesLocked rangeID info.subqueues info.ackLevel

def modify (q : Nat) (f : Subqueue → Subqueue) : Owner := { o with subqueues := o.subqueues.modify q f }

def assigned : List (Request × Int) :=
  match o.writer with
  | .assigning assigned _ => assigned
  | _ => []

end Owner

def tasksOf (reqs : List (Request × Int)) : List PriTask :=
  reqs.map fun r => ⟨r.1.subqueue, r.2, r.1.taskInfo⟩

def tasksIn (reqs : List (Request × Int)) (q : Nat) : List (Int × TaskInfo) :=
  (reqs.filter fun r => r.1.subqueue = q).map fun r => (r.2, r.1.taskInfo)

/-- Go `updates` in `CreateTasks`, for one subqueue. -/
def update (reqs : List (Request × Int)) (q : Nat) (maxReadLevel : Int) : PriTaskReader.Response :=
  let tasks := tasksIn reqs q
  ⟨tasks, maxReadLevel, tasks.getLast?.elim maxReadLevel (·.1)⟩

/-- What `CreateTasks` does to the owner. The max read level moves even if the write failed, its ids are
not used again. -/
def Owner.createTasks (o : Owner) (reqs : List (Request × Int)) (ok : Bool) : Owner :=
  let updates := ((List.range o.subqueues.length).zip o.subqueues).filterMap fun (q, sq) =>
    if (tasksIn reqs q).isEmpty then none else some (q, update reqs q sq.db.maxReadLevel)
  { o with
    subqueues := o.subqueues.mapIdx fun q sq =>
      { sq with db.maxReadLevel := (update reqs q sq.db.maxReadLevel).maxReadLevelAfter }
    writer := if ok then .signalling reqs updates else .idle }

/-! ### Runs -/

inductive ReaderEvent where
  /-- The pump takes a signal. -/
  | wake
  /-- `getTaskBatch` reads the read level. -/
  | capture
  /-- `getTaskBatch` calls `GetMaxReadLevel`. -/
  | getMaxReadLevel
  /-- A turn of the loop of `getTaskBatch`. -/
  | getTasks
  /-- `GetTasks` fails. -/
  | getTasksFails
  /-- The pump handles its batch. -/
  | batch
  | backoffFires
  /-- `CompleteTasksLessThan` deletes rows, except some if it honours the limit. -/
  | deleteRows (spared : List Int)
  /-- `doGC` returns. -/
  | gcDone (result : Option Int)
  deriving DecidableEq

inductive OwnerEvent where
  | allocateSubqueue (priority : Int) (reply : Reply)
  | syncState (reply : Reply)
  /-- `Stop` hands the ack levels to `taskQueueDB`. -/
  | stop
  /-- `SpoolTask` puts a request into the channel. -/
  | spool (subqueue : Nat) (taskInfo : TaskInfo)
  /-- The writer takes a batch of `n + 1` requests. -/
  | takeBatch (n : Nat)
  /-- `assignTaskIDs` gives the next id; `reply` is for the lease, if it has to be renewed. -/
  | assignTaskID (reply : Reply)
  /-- `CreateTasks`; some implementations of persistence write the task queue with it. -/
  | createTasks (reply : Reply) (updatesMetadata : Bool)
  | signalNewTasks (subqueue : Nat)
  /-- The requests are answered. -/
  | respond
  /-- `completeTask`, up to the end or to where it respools. -/
  | completeTask (t : PriTask) (res : Outcome)
  /-- `respoolTaskAfterError` calls `SpoolTask`. -/
  | respool (t : PriTask) (subqueue : Nat)
  /-- `completeTask` records the completion of a task that was written again. -/
  | respooled (t : PriTask)
  | reader (subqueue : Nat) (e : ReaderEvent)
  deriving DecidableEq

inductive Event where
  | configure (i : Nat) (defaultPriorityKey : Int) (config : PriConfig)
  /-- `takeOverTaskQueueLocked` calls `GetTaskQueue`. -/
  | getTaskQueue (i : Nat)
  /-- `takeOverTaskQueueLocked` calls `UpdateTaskQueue` or `CreateTaskQueue`. -/
  | takeOver (i : Nat) (reply : Reply)
  | owner (i : Nat) (e : OwnerEvent)
  /-- A row of a write that was reported as failed arrives. -/
  | land (t : PriTask)
  | tick (d : Nat)
  deriving DecidableEq

end PriBacklog

open PriBacklog in
/-- Persistence, the owners of the task queue, and what happened to its tasks. -/
structure PriBacklog where
  store : Store
  owners : Nat → Owner
  now : Int
  /-- The tasks that were given an id. -/
  issued : SortedMap Int (Nat × TaskInfo)
  /-- The tasks whose write was reported successful. -/
  reported : List PriTask
  /-- The ids of the tasks that were completed. -/
  completed : List Int

namespace PriBacklog

def init : PriBacklog where
  store := ⟨0, ⟨0, []⟩, fun _ => .empty, []⟩
  owners := fun _ => .idle
  now := 0
  issued := .empty
  reported := []
  completed := []

variable (s : PriBacklog)

def setOwner (i : Nat) (o : Owner) : PriBacklog := { s with owners := Function.update s.owners i o }

def setStore (store : Store) : PriBacklog := { s with store }

/-- Go `updateTaskQueueLocked`, where it takes effect. -/
def writeInfo (rangeID : Int) (info : TaskQueueInfo) : PriBacklog :=
  s.setStore { s.store with rangeID, info }

def createRows (tasks : List PriTask) : PriBacklog :=
  s.setStore { s.store with
    rows := fun q =>
      (s.store.rows q).putAll ((tasks.filter fun t => t.subqueue = q).map fun t => (t.id, t.info)) }

/-! ### Leases -/

/-- Go `takeOverTaskQueueLocked`, from `GetTaskQueue` on. -/
def takeOver (i : Nat) (reply : Reply) : Except Blocked PriBacklog :=
  let o := s.owners i
  match o.lease with
  | .found rangeID info =>
    let subqueues := o.takeOverSubqueues rangeID info
    let block := rangeIDToTaskIDBlock (rangeID + 1)
    let started := subqueues.map fun sq => { sq with maxReadLevel := block.start - 1 }
    let s' := if reply.applies s.store rangeID then
      s.writeInfo (rangeID + 1) (Owner.cachedQueueInfo subqueues) else s
    .ok (s'.setOwner i (if reply.reports s.store rangeID then o.start (rangeID + 1) started s.now
      else { o with lease := .none }))
  | .notFound =>
    -- `initialRangeID`
    let subqueues := o.ensureDefaultSubqueuesLocked 1 [] 0
    let s' := if reply.applies s.store 0 then s.writeInfo 1 (Owner.cachedQueueInfo subqueues) else s
    .ok (s'.setOwner i (if reply.reports s.store 0 then o.start 1 subqueues s.now else { o with lease := .none }))
  | _ => .error .notEnabled

def allocateSubqueue (i : Nat) (o : Owner) (priority : Int) (reply : Reply) : PriBacklog :=
  let new := Owner.newSubqueueLocked o.rangeID priority
  let s' := if reply.applies s.store o.rangeID then
    s.writeInfo o.rangeID (Owner.cachedQueueInfo (o.subqueues.map (·.db) ++ [new])) else s
  if reply.reports s.store o.rangeID then
    s'.setOwner i { o with subqueues := o.subqueues ++ [Owner.loadSubqueue s.now new] }
  else s'

/-! ### The writer -/

/-- A request gets the next id of the block. -/
def giveID (i : Nat) (o : Owner) (assigned : List (Request × Int)) (req : Request) (reqs : List Request) :
    PriBacklog :=
  { s.setOwner i { o with
      writer := .assigning (assigned ++ [(req, o.taskIDBlock.start)]) reqs
      taskIDBlock := { o.taskIDBlock with start := o.taskIDBlock.start + 1 } } with
    issued := s.issued.put o.taskIDBlock.start (req.subqueue, req.taskInfo) }

/-- One turn of the loop of Go `assignTaskIDs`. -/
def assignTaskID (i : Nat) (o : Owner) (assigned : List (Request × Int)) (req : Request)
    (reqs : List Request) (reply : Reply) : PriBacklog :=
  if o.taskIDBlock.last < o.taskIDBlock.start then
    -- `allocTaskIDBlock`; on an error every request of the batch is answered with it
    if (rangeIDToTaskIDBlock o.rangeID).last ≠ o.taskIDBlock.last then s.setOwner i { o with writer := .idle }
    else
      let s' := if reply.applies s.store o.rangeID then s.writeInfo (o.rangeID + 1) o.info else s
      if reply.reports s.store o.rangeID then
        s'.giveID i { o with
          rangeID := o.rangeID + 1
          taskIDBlock := rangeIDToTaskIDBlock (o.rangeID + 1) } assigned req reqs
      else s'.setOwner i { o with writer := .idle }
  else s.giveID i o assigned req reqs

def createTasks (i : Nat) (o : Owner) (reqs : List (Request × Int)) (reply : Reply)
    (updatesMetadata : Bool) : PriBacklog :=
  let tasks := tasksOf reqs
  let s' := if reply.applies s.store o.rangeID then
      let s := s.createRows tasks
      if updatesMetadata then s.writeInfo s.store.rangeID o.info else s
    else if reply ≠ .ok then s.setStore { s.store with limbo := s.store.limbo ++ tasks }
    else s
  let ok := reply.reports s.store o.rangeID
  { s'.setOwner i (o.createTasks reqs ok) with reported := if ok then s.reported ++ tasks else s.reported }

/-! ### Completions -/

/-- The end of Go `completeTask`, which also tells `taskQueueDB` the ack level. -/
def complete (i : Nat) (o : Owner) (t : PriTask) : PriBacklog :=
  match o.subqueues[t.subqueue]? with
  | none => s
  | some sq =>
    let tr := sq.tr.completeTask o.config s.now t.id
    { s.setOwner i (o.modify t.subqueue fun _ => ⟨{ sq.db with ackLevel := tr.ackLevel }, tr⟩) with
      completed := if (t.id, false) ∈ sq.tr.outstandingTasks then t.id :: s.completed else s.completed }

/-! ### Steps -/

def readerStep (i : Nat) (o : Owner) (q : Nat) (sq : Subqueue) : ReaderEvent → Except Blocked PriBacklog
  | .wake =>
    if sq.tr.notifyC ∧ sq.tr.pump = .waiting then set (sq.tr.wake o.config) else .error .notEnabled
  | .capture =>
    if sq.tr.pump = .starting then set { sq.tr with pump := .captured sq.tr.readLevel }
    else .error .notEnabled
  | .getMaxReadLevel =>
    match sq.tr.pump with
    | .captured readLevel => set { sq.tr with pump := .reading readLevel sq.db.maxReadLevel 0 }
    | _ => .error .notEnabled
  | .getTasks =>
    match sq.tr.pump with
    | .reading readLevel maxReadLevel n => set { sq.tr with
        pump := PriTaskReader.getTaskBatch o.config (s.store.rows q) readLevel maxReadLevel n }
    | _ => .error .notEnabled
  | .getTasksFails =>
    match sq.tr.pump with
    | .reading _ _ _ => set sq.tr.backoffSignal
    | _ => .error .notEnabled
  | .batch => set (sq.tr.pumpBatch s.now)
  | .backoffFires => if sq.tr.backoffTimer then set sq.tr.backoffFires else .error .notEnabled
  | .deleteRows spared =>
    match sq.tr.inGC with
    | some call =>
      -- the argument of `CompleteTasksLessThan` is `ackLevel+1`
      let left := (s.store.rows q).select fun id _ => ¬ id < call.ackLevel + 1 ∨ id ∈ spared
      .ok (s.setStore { s.store with rows := Function.update s.store.rows q left })
    | none => .error .notEnabled
  | .gcDone result =>
    match sq.tr.inGC with
    | some call => set (sq.tr.gcDone call result)
    | none => .error .notEnabled
where
  set (tr : PriTaskReader) : Except Blocked PriBacklog :=
    .ok (s.setOwner i (o.modify q fun sq => { sq with tr }))

def ownerStep (i : Nat) (o : Owner) : OwnerEvent → Except Blocked PriBacklog
  | .allocateSubqueue priority reply => .ok (s.allocateSubqueue i o priority reply)
  | .syncState reply =>
    .ok (if reply.applies s.store o.rangeID then s.writeInfo o.rangeID o.info else s)
  | .stop =>
    .ok (s.setOwner i { o with
      subqueues := o.subqueues.map fun sq => { sq with db.ackLevel := sq.tr.ackLevel } })
  | .spool subqueue taskInfo =>
    if subqueue < o.subqueues.length then
      .ok (s.setOwner i { o with appendCh := o.appendCh ++ [⟨subqueue, taskInfo, none⟩] })
    else .error .notEnabled
  | .takeBatch n =>
    match o.writer, o.appendCh with
    | .idle, req :: reqs =>
      .ok (s.setOwner i { o with writer := .assigning [] (req :: reqs.take n), appendCh := reqs.drop n })
    | _, _ => .error .notEnabled
  | .assignTaskID reply =>
    match o.writer with
    | .assigning assigned (req :: reqs) => .ok (s.assignTaskID i o assigned req reqs reply)
    | _ => .error .notEnabled
  | .createTasks reply updatesMetadata =>
    match o.writer with
    | .assigning assigned [] => .ok (s.createTasks i o assigned reply updatesMetadata)
    | _ => .error .notEnabled
  | .signalNewTasks q =>
    match o.writer, o.subqueues[q]? with
    | .signalling reqs updates, some sq =>
      match updates.find? fun u => u.1 = q with
      | some u =>
        .ok (s.setOwner i { o.modify q (fun _ => { sq with tr := sq.tr.signalNewTasks o.config u.2 }) with
          writer := .signalling reqs (updates.erase u) })
      | none => .error .notEnabled
    | _, _ => .error .notEnabled
  | .respond =>
    match o.writer with
    | .signalling reqs [] =>
      .ok (s.setOwner i { o with
        writer := .idle
        respooling := o.respooling.diff (reqs.filterMap (·.1.respools))
        respooled := o.respooled ++ reqs.filterMap (·.1.respools) })
    | _ => .error .notEnabled
  | .completeTask t res =>
    match res with
    | .success => .ok (s.complete i o t)
    -- the task goes back to the matcher
    | .transient => .ok s
    | .failed => .ok (s.setOwner i { o with respooling := o.respooling ++ [t] })
  | .respool t subqueue =>
    if t ∈ o.respooling ∧ subqueue < o.subqueues.length then
      .ok (s.setOwner i { o with appendCh := o.appendCh ++ [⟨subqueue, t.info, some t⟩] })
    else .error .notEnabled
  | .respooled t =>
    if t ∈ o.respooled then .ok (s.complete i { o with respooled := o.respooled.erase t } t)
    else .error .notEnabled
  | .reader q e =>
    match o.subqueues[q]? with
    | some sq => s.readerStep i o q sq e
    | none => .error .notEnabled

def step (s : PriBacklog) : Event → Except Blocked PriBacklog
  | .configure i defaultPriorityKey config =>
    .ok (s.setOwner i { s.owners i with defaultPriorityKey, config })
  | .getTaskQueue i =>
    if (s.owners i).lease = .none then
      .ok (s.setOwner i { s.owners i with
        lease := if s.store.rangeID = 0 then .notFound else .found s.store.rangeID s.store.info })
    else .error .notEnabled
  | .takeOver i reply => s.takeOver i reply
  | .owner i e => if (s.owners i).lease = .held then s.ownerStep i (s.owners i) e else .error .notEnabled
  | .land t => if t ∈ s.store.limbo then .ok (s.createRows [t]) else .error .notEnabled
  | .tick d => .ok { s with now := s.now + d }

end PriBacklog

end FastOrchestration.Matching
