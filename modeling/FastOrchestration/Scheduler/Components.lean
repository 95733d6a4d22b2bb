import FastOrchestration.Chasm.CloseTransaction
import FastOrchestration.Scheduler.Backfill

/-!
# The components of a schedule and their tasks

A schedule is a tree of components: the scheduler at the root, the generator, the invoker, and one
backfiller for each manual request. Work is driven by pure tasks, which are executed in a transaction on
the tree. A task that was executed is not removed by the execution: it goes when the transaction is
closed and its validator no longer accepts it. Most validators compare a watermark of the component
with the scheduled time of the task.

What the overlap policies and the calls to other services decide are inputs: `ProcessBufferResult` and
`ExecuteResult`.
-/

namespace FastOrchestration.Scheduler

open Lib Chasm List

/-- Go's zero time, the first of January of year 1. A task scheduled for it is immediate. -/
def zeroTime : Int := -62135596800 * second

/-- The scheduled time of a task, as the tree keeps it. No timestamp lies before the zero time. -/
def scheduledAt (t : Chasm.Time) : Int := zeroTime + t

def scheduled (t : Int) : TaskAttributes := ⟨(t - zeroTime).toNat, ""⟩

def immediate : TaskAttributes := ⟨0, ""⟩

lemma scheduledAt_zero : scheduledAt 0 = zeroTime := by simp [scheduledAt]

structure Invoker where
  bufferedStarts : List BufferedStart
  cancelWorkflows : List String
  terminateWorkflows : List String
  lastProcessedTime : Option Int

namespace Invoker

variable (i : Invoker)

/-- `getEligibleBufferedStarts` keeps these. A missing time counts as the epoch. -/
def Eligible (start : BufferedStart) : Prop :=
  0 < start.attempt ∧ start.backoffTime < i.lastProcessedTime.getD 0

instance (start : BufferedStart) : Decidable (i.Eligible start) := inferInstanceAs (Decidable (_ ∧ _))

def getEligibleBufferedStarts : List BufferedStart := i.bufferedStarts.filter (i.Eligible ·)

def deadlineLoop : Option Int → List BufferedStart → Option Int
  | deadline, [] => deadline
  | deadline, start :: rest =>
    if start.attempt = 0 then none
    else if deadline.all (start.backoffTime < ·) then deadlineLoop (some start.backoffTime) rest
    else deadlineLoop deadline rest

def processingDeadline : Option Int := deadlineLoop none i.bufferedStarts

end Invoker

def schedulerNode : NodeId := 0
def generatorNode : NodeId := 1
def invokerNode : NodeId := 2
def backfillersNode : NodeId := 3

/-- The state of all components. Generator and invoker are there from the start; the nodes of
backfillers are the other ones. -/
structure Components where
  sched : ScheduleState
  /-- The schedule has an action to start a workflow. -/
  hasAction : Bool
  createTime : Int
  /-- The actual time of the last of the recent actions. -/
  lastActionTime : Option Int
  closed : Bool
  /-- `LastProcessedTime` of the generator. -/
  generator : Option Int
  invoker : Invoker
  backfillers : List (NodeId × Backfiller)
  nodup : (backfillers.map Prod.fst).Nodup
  nodes : ∀ b ∈ backfillers, backfillersNode < b.1

namespace Components

variable (c : Components)

def newScheduler (sched : ScheduleState) (hasAction : Bool) (now : Int) : Components :=
  { sched := sched, hasAction := hasAction, createTime := now, lastActionTime := none, closed := false,
    generator := none, invoker := ⟨[], [], [], none⟩, backfillers := [], nodup := .nil, nodes := nofun }

def getLastEventTime : Int :=
  max (max (c.lastActionTime.getD zeroTime) c.createTime) c.sched.updateTime

def Backfiller.overlapPolicy (b : Backfiller) : OverlapPolicy :=
  match b.request with
  | .backfill _ _ policy => policy
  | .trigger policy => policy

def hasMoreAllowAllBackfills : Bool :=
  c.backfillers.any fun b => c.sched.resolveOverlapPolicy (Backfiller.overlapPolicy b.2) == .allowAll

def getIdleExpiration (idleTime : Int) (nextWakeup : Option Int) : Option Int :=
  if idleTime = 0 ∨ c.sched.paused ∨ (nextWakeup.isSome ∧ c.sched.canUseScheduledAction) ∨
      c.hasMoreAllowAllBackfills then none
  else some (c.getLastEventTime + idleTime)

/-- The limit of an execution: triggers do not count as backfills. -/
def allowedBufferedStarts (tweakables : Tweakables) : Nat :=
  Backfiller.allowedBufferedStarts tweakables
    (c.backfillers.countP fun b => match b.2.request with
      | .backfill .. => true
      | .trigger _ => false)
    c.invoker.bufferedStarts.length

def setBackfiller (id : NodeId) (b : Backfiller) : Components :=
  { c with
    backfillers := c.backfillers.map fun p => if p.1 = id then (id, b) else p
    nodup := by
      have hfst : (c.backfillers.map fun p => if p.1 = id then (id, b) else p).map Prod.fst =
          c.backfillers.map Prod.fst := by
        rw [map_map]
        refine map_congr_left fun p _ => ?_
        by_cases h : p.1 = id <;> simp [h]
      rw [hfst]
      exact c.nodup
    nodes := by
      intro q hq
      obtain ⟨p, hp, rfl⟩ := mem_map.mp hq
      by_cases h : p.1 = id
      · simpa [h] using h ▸ c.nodes p hp
      · simpa [h] using c.nodes p hp }

def deleteBackfiller (id : NodeId) : Components :=
  { c with
    backfillers := c.backfillers.filter (·.1 ≠ id)
    nodup := c.nodup.sublist (filter_sublist.map _)
    nodes := fun b hb => c.nodes b (mem_of_mem_filter hb) }

def addBackfiller (id : NodeId) (b : Backfiller) (hfresh : id ∉ c.backfillers.map Prod.fst)
    (hnode : backfillersNode < id) : Components :=
  { c with
    backfillers := c.backfillers ++ [(id, b)]
    nodup := by
      rw [map_append, nodup_append]
      refine ⟨c.nodup, by simp, fun a ha b hb heq => ?_⟩
      obtain rfl : b = id := by simpa using hb
      exact hfresh (heq ▸ ha)
    nodes := fun q hq => (mem_append.mp hq).elim (c.nodes q) (by simp; rintro rfl; exact hnode) }

/-- The tree: an empty collection of backfillers has no node. -/
def children : Forest NodeId String :=
  .cons generatorNode "Generator" .nil (.cons invokerNode "Invoker" .nil
    (if c.backfillers = [] then .nil
      else .cons backfillersNode "Backfillers"
        (c.backfillers.foldr (fun b rest => .cons b.1 b.2.backfillId .nil rest) .nil) .nil))

end Components

inductive SchedulerTask where
  | idle (idleTimeTotal : Int)
  | generate
  | processBuffer
  | backfill
  | execute
deriving DecidableEq

def library : Registry SchedulerTask where
  task type := if type = "scheduler.execute" then some ⟨type, false⟩
    else if type ∈ ["scheduler.idle", "scheduler.generate", "scheduler.processBuffer",
      "scheduler.backfill"] then some ⟨type, true⟩ else none
  taskFor
    | .idle _ => some ⟨"scheduler.idle", true⟩
    | .generate => some ⟨"scheduler.generate", true⟩
    | .processBuffer => some ⟨"scheduler.processBuffer", true⟩
    | .backfill => some ⟨"scheduler.backfill", true⟩
    | .execute => some ⟨"scheduler.execute", false⟩
  deserialize rt data := match rt.fqType with
    | "scheduler.idle" => data.toInt?.map .idle
    | "scheduler.generate" => some .generate
    | "scheduler.processBuffer" => some .processBuffer
    | "scheduler.backfill" => some .backfill
    | "scheduler.execute" => some .execute
    | _ => none
  serialize _
    | .idle idleTimeTotal => some idleTimeTotal.repr
    | _ => some ""

/-! ### Validators -/

def validateTaskHighWaterMark (lastProcessedTime : Option Int) (scheduledAt : Int) : Bool :=
  !lastProcessedTime.any fun hwm => scheduledAt ≠ zeroTime && scheduledAt < hwm

/-- The validators of the task types, at a clock reading `now`. -/
def Components.validate (c : Components) (now : Int) (id : NodeId) (attrs : TaskAttributes) :
    SchedulerTask → Option Bool
  | .idle idleTimeTotal =>
    match c.getIdleExpiration idleTimeTotal none with
    | none => some false
    | some idleExpiration =>
      some (if idleExpiration ≠ scheduledAt attrs.scheduledTime then false else !c.closed)
  | .generate => some (validateTaskHighWaterMark c.generator now)
  | .processBuffer =>
    some (validateTaskHighWaterMark c.invoker.lastProcessedTime (scheduledAt attrs.scheduledTime))
  | .backfill => (c.backfillers.lookup id).map fun b =>
    validateTaskHighWaterMark (some b.lastProcessedTime) (scheduledAt attrs.scheduledTime)
  | .execute => some (0 < c.invoker.terminateWorkflows.length + c.invoker.cancelWorkflows.length +
    c.invoker.getEligibleBufferedStarts.length)

/-! ### Transactions -/

/-- The tree in memory during a transaction: what was persisted before, the components, the nodes
accessed so far with the tasks added to them, and the backfillers that were deleted but whose nodes are
still there. -/
structure Draft where
  base : TreeState
  components : Components
  accessed : NodeId → Option (List (NewTask SchedulerTask))
  deleted : List (NodeId × Backfiller)

namespace Draft

variable (d : Draft)

def access (ids : List NodeId) : Draft :=
  { d with accessed := fun id => if id ∈ ids then some ((d.accessed id).getD []) else d.accessed id }

def addTask (id : NodeId) (attributes : TaskAttributes) (task : SchedulerTask) : Draft :=
  let tasks := (d.accessed id).getD [] ++ [⟨task, attributes⟩]
  { d with accessed := Function.update d.accessed id (some tasks) }

def setInvoker (i : Invoker) : Draft := { d with components := { d.components with invoker := i } }

def enqueueBufferedStarts (starts : List BufferedStart) : Draft :=
  let i := d.components.invoker
  let d := d.setInvoker { i with bufferedStarts := i.bufferedStarts ++ starts }
  d.addTask invokerNode immediate .processBuffer

/-- Generator and backfiller do not call the invoker with no starts. -/
def enqueueAny (starts : List BufferedStart) : Draft :=
  if starts = [] then d else d.enqueueBufferedStarts starts

def addTasks : Draft :=
  let i := d.components.invoker
  let totalStarts := i.bufferedStarts.length
  let eligibleStarts := i.getEligibleBufferedStarts.length
  let d :=
    if 0 < totalStarts - eligibleStarts then
      d.addTask invokerNode (i.processingDeadline.elim immediate scheduled) .processBuffer
    else d
  if i.cancelWorkflows ≠ [] ∨ i.terminateWorkflows ≠ [] ∨ 0 < eligibleStarts then
    d.addTask invokerNode immediate .execute
  else d

end Draft

structure ProcessBufferResult where
  startWorkflows : List BufferedStart
  cancelWorkflows : List String
  terminateWorkflows : List String
  discardStarts : List BufferedStart

structure ExecuteResult where
  completedStarts : List BufferedStart
  retryableStarts : List BufferedStart
  failedStarts : List BufferedStart
  completedCancels : List String
  completedTerminates : List String

/-- Whether a map from request IDs that was filled from the list has the ID of a start. -/
def Listed (starts : List BufferedStart) (start : BufferedStart) : Prop :=
  start.requestId ∈ starts.map BufferedStart.requestId

instance (starts : List BufferedStart) (start : BufferedStart) : Decidable (Listed starts start) :=
  inferInstanceAs (Decidable (_ ∈ _))

namespace Draft

variable (d : Draft)

def recordProcessBufferResult (now : Int) (result : ProcessBufferResult) : Draft :=
  let i := d.components.invoker
  let starts := (i.bufferedStarts.filter (¬Listed result.discardStarts ·)).map fun start =>
    if Listed result.startWorkflows start ∧ start.attempt < 1 then { start with attempt := 1 } else start
  let d := d.setInvoker
    { bufferedStarts := starts
      cancelWorkflows := i.cancelWorkflows ++ result.cancelWorkflows
      terminateWorkflows := i.terminateWorkflows ++ result.terminateWorkflows
      lastProcessedTime := some now }
  d.addTasks

/-- The retryable starts are put in a map by request ID, where the last one stays. -/
def recordExecuteResult (result : ExecuteResult) : Draft :=
  let i := d.components.invoker
  let starts := i.bufferedStarts.filter fun start =>
    ¬(Listed result.completedStarts start ∨ Listed result.failedStarts start)
  let d := d.setInvoker
    { bufferedStarts := starts.map fun start =>
        match result.retryableStarts.reverse.find? (·.requestId == start.requestId) with
        | none => start
        | some retry => { start with attempt := start.attempt + 1, backoffTime := retry.backoffTime }
      cancelWorkflows := i.cancelWorkflows.filter (· ∉ result.completedCancels)
      terminateWorkflows := i.terminateWorkflows.filter (· ∉ result.completedTerminates)
      lastProcessedTime := i.lastProcessedTime }
  d.addTasks

end Draft

/-- What an execution reads from outside of the tree, and what `processBuffer` decides in it. -/
structure Outside where
  tweakables : Tweakables
  /-- The clock: when the task is validated and, for the generator, its second reading. -/
  now : Int
  later : Int
  /-- The backoff of a rescheduled backfill. -/
  backoffDelay : Int
  result : ProcessBufferResult
  /-- The schedule after `processBuffer`, which counts the actions it takes. -/
  sched : ScheduleState

inductive TaskError where
  | missingAction
  | missingNode
  | notDue
  | unknownTask
deriving DecidableEq

namespace Draft

variable (d : Draft)

def executeIdle : Draft :=
  { d.access [schedulerNode] with components := { d.components with closed := true } }

/-- `GeneratorTaskExecutor.Execute`, from where its two last results are known. -/
def continueGenerator (tweakables : Tweakables) (nextWakeupTime : Option Int) : Draft :=
  match d.components.getIdleExpiration tweakables.idleTime nextWakeupTime with
  | some idleExpiration => d.addTask schedulerNode (scheduled idleExpiration) (.idle tweakables.idleTime)
  | none =>
    if d.components.sched.paused then d
    else d.addTask generatorNode (nextWakeupTime.elim immediate scheduled) .generate

def executeGenerator (x : Outside) : Draft :=
  let c := d.components
  let t1 := c.generator.getD x.now
  let t2 := max x.later t1
  let result := processTimeRange x.tweakables c.sched t1 t2 (c.sched.resolveOverlapPolicy .unspecified)
    "" false none
  let d := d.access [schedulerNode, generatorNode, invokerNode]
  let d := { d with components := { c with
    createTime := if c.generator.isNone then x.now else c.createTime
    generator := some result.lastActionTime } }
  let d := d.enqueueAny result.bufferedStarts
  d.continueGenerator x.tweakables result.nextWakeupTime

def executeProcessBuffer (x : Outside) : Except TaskError Draft :=
  if !d.components.hasAction then .error .missingAction
  else
    let d := d.access [schedulerNode, invokerNode]
    let d : Draft := { d with components := { d.components with sched := x.sched } }
    .ok (d.recordProcessBufferResult x.later x.result)

/-- `BackfillerTaskExecutor.Execute`. Counting the backfillers accesses all of them. -/
def executeBackfill (id : NodeId) (x : Outside) : Except TaskError Draft :=
  match (d.components.backfillers ++ d.deleted).lookup id with
  | none => .error .missingNode
  | some b =>
    let r := b.execute x.tweakables d.components.sched (d.components.allowedBufferedStarts x.tweakables)
    let d := d.access ([id, schedulerNode, invokerNode] ++ d.components.backfillers.map Prod.fst)
    let d := d.enqueueAny r.bufferedStarts
    if r.complete then
      .ok { d with components := d.components.deleteBackfiller id
                   deleted := (id, r.backfiller) :: d.deleted.filter (·.1 ≠ id) }
    else
      let d : Draft :=
        { d with components := d.components.setBackfiller id r.backfiller
                 deleted := d.deleted.map fun p => if p.1 = id then (id, r.backfiller) else p }
      .ok (d.addTask id (scheduled (x.later + x.backoffDelay)) .backfill)

def execute (id : NodeId) (x : Outside) : SchedulerTask → Except TaskError Draft
  | .idle _ => .ok d.executeIdle
  | .generate => .ok (d.executeGenerator x)
  | .processBuffer => d.executeProcessBuffer x
  | .backfill => d.executeBackfill id x
  | .execute => .error .unknownTask

/-- `ExecutePureTask`, for a task that is due: executed if its validator accepts it. -/
def executePureTask (id : NodeId) (t : ComponentTask) (x : Outside) : Except TaskError Draft :=
  if id ∉ d.base.members ∨ t ∉ (d.base.node id).pureTasks ∨ x.now < scheduledAt t.scheduledTime then
    .error .notDue
  else
    match deserializeComponentTask library t with
    | .error _ => .error .unknownTask
    | .ok v =>
      let d := d.access [id]
      match d.components.validate x.now id ⟨t.scheduledTime, t.destination⟩ v with
      | none => .error .missingNode
      | some false => .ok d
      | some true => d.execute id x v

end Draft

/-- What is done to the tree in a transaction. -/
inductive Op where
  /-- An update of the schedule. -/
  | update (sched : ScheduleState)
  /-- The first generator task of the schedule. -/
  | startGenerator (time : Option Int)
  | addBackfiller (id : NodeId) (backfillId : String) (request : Request) (now : Int)
  | executePureTask (id : NodeId) (t : ComponentTask) (x : Outside)
  /-- The end of an `InvokerExecuteTask`. -/
  | recordExecuteResult (result : ExecuteResult) (lastActionTime : Option Int)

def Draft.apply (d : Draft) : Op → Except TaskError Draft
  | .update sched =>
    .ok { d.access [schedulerNode] with components := { d.components with sched := sched } }
  | .startGenerator time => .ok (d.addTask generatorNode (time.elim immediate scheduled) .generate)
  | .addBackfiller id backfillId request now =>
    if h : id ∉ d.components.backfillers.map Prod.fst ∧ backfillersNode < id ∧ id ∉ d.base.members then
      let components :=
        d.components.addBackfiller id (newBackfiller backfillId request now) h.1 h.2.1
      let d : Draft := { d.access [schedulerNode] with components := components }
      .ok (d.addTask id immediate .backfill)
    else .error .missingNode
  | .executePureTask id t x => d.executePureTask id t x
  | .recordExecuteResult result lastActionTime =>
    let d := d.access [schedulerNode, invokerNode]
    let d : Draft := { d with components := { d.components with lastActionTime := lastActionTime } }
    .ok (d.recordExecuteResult result)

structure Schedule where
  components : Components
  tree : TreeState

def Schedule.draft (s : Schedule) : Draft := ⟨s.tree, s.components, fun _ => none, []⟩

structure Commit where
  ops : List Op
  /-- The clock when the transaction is closed. -/
  now : Int
  nextVersionedTransition : VersionedTransition

lemma children_ids (c : Components) : c.children.ids =
    generatorNode :: invokerNode :: (if c.backfillers = [] then []
      else backfillersNode :: c.backfillers.map Prod.fst) := by
  have hitems : ∀ bs : List (NodeId × Backfiller),
      (bs.foldr (fun b rest => .cons b.1 b.2.backfillId .nil rest) .nil : Forest NodeId String).ids =
        bs.map Prod.fst := by
    intro bs
    induction bs with
    | nil => rfl
    | cons b bs ih => simp [Forest.ids, ih]
  by_cases h : c.backfillers = [] <;> simp [Components.children, h, Forest.ids, hitems]

def Components.tree (c : Components) : Tree where
  root := schedulerNode
  children := c.children
  nodup := by
    have hnodes : ∀ id ∈ c.backfillers.map Prod.fst, backfillersNode < id := fun id hid => by
      obtain ⟨b, hb, rfl⟩ := mem_map.mp hid
      exact c.nodes b hb
    have hnot : ∀ k ≤ backfillersNode, k ∉ c.backfillers.map Prod.fst :=
      fun k hk hmem => absurd (hnodes k hmem) (Nat.not_lt.mpr hk)
    rw [children_ids]
    split
    · decide
    · simp only [nodup_cons, mem_cons, not_or]
      exact ⟨⟨by decide, by decide, by decide, hnot _ (by decide)⟩, ⟨by decide, by decide, hnot _ (by decide)⟩,
        ⟨by decide, hnot _ (by decide)⟩, hnot _ (by decide), c.nodup⟩

def Draft.transaction (d : Draft) (e : Commit) : Transaction SchedulerTask where
  tree := d.components.tree
  growslice cap := max 1 (2 * cap)
  isComponent id := id ≠ backfillersNode
  accessed := d.accessed
  loaded _ := true
  validate := d.components.validate e.now
  nextVersionedTransition := e.nextVersionedTransition

/-- A transaction. Nothing of it is persisted if one of its parts fails. -/
def commit (s : Schedule) (e : Commit) : Except Empty Schedule :=
  match run Draft.apply s.draft e.ops with
  | .error _ => .ok s
  | .ok d =>
    match closeTransaction library s.tree (d.transaction e) with
    | .error _ => .ok s
    | .ok tree => .ok ⟨d.components, tree⟩

end FastOrchestration.Scheduler
