import FastOrchestration.Queues.Convert
import FastOrchestration.Queues.Reader

/-!
# The history queue

Model of `service/history/queues/queue_base.go`, with the parts of the shard that a queue works on: the
store of its tasks and the queue states that were stored. `processNewRange` hands out what is below the
shard's high read watermark, `checkpoint` deletes what is done and stores the scopes of the readers,
and `newQueueBase` starts a queue from a stored state.

A queue is one event loop beside its readers and the executables. New ranges, actions and checkpoints
run on the event loop, one at a time. Loading, acknowledgements and writes go on at the same time. A
checkpoint waits for the persistence layer twice, so it is a sequence of steps here, and `Checkpoint`
says how far it has come; the queue can crash after each of them.

The shard promises that new tasks have keys which no task had before, at or above the watermark up to
which the queue has been told to read, and above those that a stored queue state has. A write that
breaks the promise does not happen here. Likewise an event that the queue is not in a position for
changes nothing.
-/

namespace FastOrchestration.Queues

open List Reader

variable {κ : Type} [DecidableEq κ]

inductive CategoryType where
  | immediate
  | scheduled
  deriving DecidableEq

/-- The first key of a queue without a stored state: `NewKey(DefaultFireTime, 0)`, or the one after
it. -/
def ackLevel : CategoryType → Key
  | .immediate => ⟨0, 1⟩
  | .scheduled => ⟨0, 0⟩

namespace Store

def insert (store : Store) (t : Task) (valid : t.key.Valid ∧ t.key < Key.maximumKey)
    (fresh : ∀ t' ∈ store.tasks, t'.key ≠ t.key) : Store where
  tasks := store.tasks.filter (fun t' => t'.key < t.key) ++ t :: store.tasks.filter (fun t' => t.key < t'.key)
  sorted := by
    refine pairwise_append.mpr ⟨store.sorted.filter _, .cons (fun a ha => ?_)
      (store.sorted.filter _), fun a ha b hb => ?_⟩
    · simpa using (mem_filter.mp ha).2
    · have ha : a.key < t.key := by simpa using (mem_filter.mp ha).2
      obtain rfl | hb := mem_cons.mp hb
      · exact ha
      · exact ha.trans (by simpa using (mem_filter.mp hb).2)
  valid a ha := by
    obtain ha | ha := mem_append.mp ha
    · exact store.valid a (mem_of_mem_filter ha)
    · obtain rfl | ha := mem_cons.mp ha
      · exact valid
      · exact store.valid a (mem_of_mem_filter ha)

lemma mem_insert {store : Store} {t t' : Task} (valid : t.key.Valid ∧ t.key < Key.maximumKey)
    (fresh : ∀ t' ∈ store.tasks, t'.key ≠ t.key) (h : t' ∈ store.tasks) :
    t' ∈ (store.insert t valid fresh).tasks := by
  obtain hlt | hgt := lt_or_gt_of_ne (fresh t' h)
  · exact mem_append_left _ (mem_filter.mpr ⟨h, by simpa using hlt⟩)
  exact mem_append_right _ (mem_cons_of_mem _ (mem_filter.mpr ⟨h, by simpa using hgt⟩))

def delete (store : Store) (deleted : Key → Bool) : Store where
  tasks := store.tasks.filter fun t => !deleted t.key
  sorted := store.sorted.filter _
  valid t ht := store.valid t (mem_of_mem_filter ht)

end Store

structure QueueBase (κ : Type) where
  nonReadableScope : Scope
  exclusiveDeletionHighWatermark : Key
  readerGroup : ReaderGroup κ

namespace QueueBase

section

variable (maxPredicateSize : Nat)

def loadReader (queue : QueueBase κ) (reader : Int × List Scope) : Except Panic (QueueBase κ) :=
  match reader.2 with
  | [] => .ok queue
  | scope :: _ => do
    let slices := reader.2.map fun scope => Slice.newSlice maxPredicateSize scope
    let group ← queue.readerGroup.newReader reader.1 slices
    return { queue with
      exclusiveDeletionHighWatermark :=
        Key.minKey queue.exclusiveDeletionHighWatermark scope.range.inclusiveMin
      readerGroup := group }

def newQueueBase (category : CategoryType) (persistenceState : Option PersistenceQueueState) :
    Except Panic (QueueBase κ) := do
  let state ← match persistenceState with
    | some persistenceState => fromPersistenceQueueState persistenceState
    | none => .ok ⟨[], ackLevel category⟩
  let range ← Range.newRange state.exclusiveReaderHighWatermark Key.maximumKey
  Lib.foldSteps (loadReader maxPredicateSize)
    ⟨⟨range, .universal⟩, state.exclusiveReaderHighWatermark, .empty⟩ state.readerScopes

/-- The slice for what has become readable, if any, and the rest of the non readable scope. -/
def newReadSlices (queue : QueueBase κ) (newMaxKey : Key) :
    Except Panic (List (Slice κ) × Scope) :=
  if queue.nonReadableScope.canSplitByRange newMaxKey then do
    let (newReadScope, nonReadableScope) ← queue.nonReadableScope.splitByRange newMaxKey
    return ([Slice.newSlice maxPredicateSize newReadScope], nonReadableScope)
  else .ok ([], queue.nonReadableScope)

end

variable (g : Grouper κ) (maxPredicateSize : Nat)

/-- Slices for the default reader, which may be new; `forced` says that the time for a new slice has
come. -/
def giveSlices (group : ReaderGroup κ) (slices : List (Slice κ)) (forced : Bool) :
    Except Panic (ReaderGroup κ) :=
  if defaultReaderId ∈ group.ids then
    group.update defaultReaderId fun current =>
      if forced then appendSlices current slices
      else mergeSlices g maxPredicateSize current slices
  else group.newReader defaultReaderId slices

def processNewRange (queue : QueueBase κ) (newMaxKey : Key) (forced : Bool) :
    Except Panic (QueueBase κ) := do
  let (slices, nonReadableScope) ← queue.newReadSlices maxPredicateSize newMaxKey
  let group ← giveSlices g maxPredicateSize queue.readerGroup slices forced
  return { queue with nonReadableScope := nonReadableScope, readerGroup := group }

def removeEmptyReaders (queue : QueueBase κ) : QueueBase κ :=
  let keep (id : Int) : Bool := id = defaultReaderId ∨ !(queue.readerGroup.slices id).isEmpty
  { queue with
    readerGroup :=
      ⟨queue.readerGroup.ids.filter keep, queue.readerGroup.nodup.filter keep, queue.readerGroup.slices⟩ }

def readerScopes (queue : QueueBase κ) : List (Int × List Scope) :=
  queue.readerGroup.ids.map fun id => (id, (queue.readerGroup.slices id).map (·.scope))

/-- The smallest start of the first scopes and of the non readable scope. -/
def deletionWatermark (queue : QueueBase κ) : Key :=
  queue.readerScopes.foldl (fun key reader =>
    match reader.2 with
    | [] => key
    | scope :: _ => Key.minKey key scope.range.inclusiveMin)
    queue.nonReadableScope.range.inclusiveMin

def stateOf (queue : QueueBase κ) (readerScopes : List (Int × List Scope)) : QueueState :=
  ⟨readerScopes.filter fun reader => !reader.2.isEmpty, queue.nonReadableScope.range.inclusiveMin⟩

end QueueBase

/-- How far a checkpoint has come, and what it carries along. -/
inductive Checkpoint where
  | idle
  | shrunk
  | acted
  | deleting (readerScopes : List (Int × List Scope)) (watermark : Key)
  | updating (readerScopes : List (Int × List Scope))

/-- A queue with its store and the states that were stored, and the keys acknowledged so far. -/
structure QueueSystem (κ : Type) where
  queue : QueueBase κ
  checkpoint : Checkpoint
  store : Store
  queueStates : List PersistenceQueueState
  acked : List Key

inductive QueueEvent (κ : Type) where
  | write (task : Task) (valid : task.key.Valid ∧ task.key < Key.maximumKey)
  | selectTasks (id : Int) (i batchSize : Nat) (replies : List Reply)
  /-- A tracked executable is acknowledged. -/
  | ack (id : Int) (i : Nat) (key : Key)
  /-- An executable is acknowledged that was replaced or cleared. -/
  | ackUntracked (key : Key)
  | processNewRange (newMaxKey : Key) (valid : newMaxKey.Valid) (forced : Bool)
  | shrinkSlices (id : Int)
  | clearSlices (id : Int) (chosen : Nat → Bool)
  | compactSlices (id : Int) (chosen : Nat → Bool)
  | mitigate (action : Action κ)
  | checkpointShrink
  | checkpointAction (maxReaderCount moveGroupTaskCountBase : Nat) (minTaskCount : Int → Int) (overloaded : Bool)
  | checkpointScopes (rangeIDUpdated : Bool)
  /-- `RangeCompleteHistoryTasks` succeeds, or fails with some of the tasks deleted. -/
  | rangeComplete (failed : Option (Key → Bool))
  | setQueueState (o : MapOrder) (stored : Bool)
  /-- The queue crashes and starts again from a stored state, or from none. -/
  | reload (i : Option Nat)

namespace QueueSystem

/-- What the shard promises about a new task. -/
def mayWrite (category : CategoryType) (s : QueueSystem κ) (t : Task) : Prop :=
  ackLevel category ≤ t.key ∧ s.queue.nonReadableScope.range.inclusiveMin ≤ t.key ∧
  (∀ p ∈ s.queueStates, fromPersistenceTaskKey p.exclusiveReaderHighWatermark ≤ t.key) ∧
  (∀ t' ∈ s.store.tasks, t'.key ≠ t.key) ∧ t.key ∉ s.acked

instance (category : CategoryType) (s : QueueSystem κ) (t : Task) :
    Decidable (s.mayWrite category t) := inferInstanceAs (Decidable (_ ∧ _ ∧ _ ∧ _ ∧ _))

def tracked (s : QueueSystem κ) (id : Int) (i : Nat) (key : Key) : Bool :=
  (s.queue.readerGroup.slices id)[i]?.any fun slice =>
    slice.tracker.pendingExecutables.any fun e => e.task.key = key

def withReaders (s : QueueSystem κ) (group : ReaderGroup κ) : QueueSystem κ :=
  { s with queue := { s.queue with readerGroup := group } }

/-- An operation on the readers from the event loop, which is busy during a checkpoint. -/
def onLoop (s : QueueSystem κ) (f : ReaderGroup κ → Except Panic (ReaderGroup κ)) :
    Except Panic (QueueSystem κ) :=
  match s.checkpoint with
  | .idle => s.withReaders <$> f s.queue.readerGroup
  | _ => .ok s

/-- The keys that `rangeCompleteTasks` asks to delete. -/
def rangeComplete (category : CategoryType) (old new : Key) (key : Key) : Bool :=
  match category with
  | .scheduled => decide (⟨old.fireTime, 0⟩ ≤ key) && decide (key < ⟨new.fireTime, 0⟩)
  | .immediate => decide (old ≤ key) && decide (key < new)

def start (maxPredicateSize : Nat) (category : CategoryType)
    (persistenceState : Option PersistenceQueueState) (store : Store) :
    Except Panic (QueueSystem κ) := do
  let queue ← QueueBase.newQueueBase maxPredicateSize category persistenceState
  return ⟨queue, .idle, store, persistenceState.toList, []⟩

def step (g : Grouper κ) (category : CategoryType) (s : QueueSystem κ) :
    Nat × QueueEvent κ → Except Panic (QueueSystem κ)
  | (_, .write t valid) =>
    if h : s.mayWrite category t then
      .ok { s with store := s.store.insert t valid h.2.2.2.1 }
    else .ok s
  | (_, .selectTasks id i batchSize replies) =>
    s.withReaders <$> s.queue.readerGroup.update id (selectTasks g s.store i batchSize replies)
  | (_, .ack id i key) =>
    if s.tracked id i key then
      (fun group => { s.withReaders group with acked := key :: s.acked }) <$>
        s.queue.readerGroup.update id fun slices => .ok (ack i key slices)
    else .ok s
  | (_, .ackUntracked key) =>
    if s.store.tasks.any fun t => t.key = key then .ok { s with acked := key :: s.acked }
    else .ok s
  | (m, .processNewRange newMaxKey _ forced) =>
    match s.checkpoint with
    | .idle => (fun queue => { s with queue := queue }) <$> s.queue.processNewRange g m newMaxKey forced
    | _ => .ok s
  | (m, .shrinkSlices id) =>
    s.onLoop fun group => group.update id fun slices => .ok (shrinkSlices g m slices)
  | (m, .clearSlices id chosen) =>
    s.onLoop fun group => group.update id fun slices => .ok (clearSlices g m chosen slices)
  | (m, .compactSlices id chosen) =>
    s.onLoop fun group => group.update id (compactSlices g m chosen)
  | (m, .mitigate action) => s.onLoop fun group => action.run g m group
  | (m, .checkpointShrink) =>
    match s.checkpoint with
    | .idle =>
      .ok { s.withReaders (s.queue.readerGroup.shrinkAll g m) with checkpoint := .shrunk }
    | _ => .ok s
  | (m, .checkpointAction maxReaderCount moveGroupTaskCountBase minTaskCount overloaded) =>
    match s.checkpoint with
    | .shrunk =>
      let action : Action κ :=
        if 0 < moveGroupTaskCountBase then .moveGroup maxReaderCount minTaskCount
        else .slicePredicate maxReaderCount overloaded
      (fun group => { s.withReaders group with checkpoint := .acted }) <$> action.run g m s.queue.readerGroup
    | _ => .ok s
  | (_, .checkpointScopes rangeIDUpdated) =>
    match s.checkpoint with
    | .acted =>
      let queue := s.queue.removeEmptyReaders
      let watermark := queue.deletionWatermark
      let next : Checkpoint :=
        if watermark > queue.exclusiveDeletionHighWatermark ∨ (rangeIDUpdated ∧ watermark > Key.minimumKey) then
          .deleting queue.readerScopes watermark
        else .updating queue.readerScopes
      .ok { s with queue := queue, checkpoint := next }
    | _ => .ok s
  | (_, .rangeComplete failed) =>
    match s.checkpoint with
    | .deleting scopes watermark =>
      let asked := rangeComplete category s.queue.exclusiveDeletionHighWatermark watermark
      match failed with
      | none =>
        .ok { s with
          queue := { s.queue with exclusiveDeletionHighWatermark := watermark }
          checkpoint := .updating scopes
          store := s.store.delete asked }
      | some deleted =>
        .ok { s with
          checkpoint := .idle
          store := s.store.delete fun key => asked key && deleted key }
    | _ => .ok s
  | (_, .setQueueState o stored) =>
    match s.checkpoint with
    | .updating scopes =>
      let state := toPersistenceQueueState o (s.queue.stateOf scopes)
      .ok { s with
        checkpoint := .idle
        queueStates := if stored then state :: s.queueStates else s.queueStates }
    | _ => .ok s
  | (m, .reload i) =>
    match i with
    | none => (fun queue => { s with queue := queue, checkpoint := .idle }) <$> QueueBase.newQueueBase m category none
    | some i =>
      match s.queueStates[i]? with
      | none => .ok s
      | some state => (fun queue => { s with queue := queue, checkpoint := .idle }) <$>
          QueueBase.newQueueBase m category (some state)

end QueueSystem

end FastOrchestration.Queues
