import FastOrchestration.Lib.GoSlice
import FastOrchestration.Lib.Run

/-!
# Logical tasks of CHASM components

The tasks a component has asked for and that have not been found invalid since. They are persisted in
the metadata of the component's node (`ChasmComponentAttributes`), side-effect tasks in the order of
their creation and pure tasks in the order of their scheduled time. `versionedTransition` and
`versionedTransitionOffset` identify a task within its execution.
-/

namespace FastOrchestration.Chasm

/-- Times in units since the zero time, at which a task is immediate. -/
abbrev Time := Nat

structure VersionedTransition where
  namespaceFailoverVersion : Int
  transitionCount : Nat
deriving DecidableEq

/-- `transitionhistory.Compare`. -/
def VersionedTransition.compare : VersionedTransition → VersionedTransition → Ordering :=
  compareLex (compareOn VersionedTransition.namespaceFailoverVersion) (compareOn VersionedTransition.transitionCount)

instance : Ord VersionedTransition := ⟨VersionedTransition.compare⟩

instance : Std.TransOrd VersionedTransition :=
  inferInstanceAs (Std.TransCmp (compareLex (compareOn _) (compareOn _)))

namespace VersionedTransition

lemma compare_self (v : VersionedTransition) : v.compare v = .eq := by
  simp [compare, compareLex, compareOn]

lemma compare_eq {v w : VersionedTransition} : v.compare w = .eq ↔ v = w := by
  refine ⟨fun h => ?_, fun h => h ▸ compare_self v⟩
  simp only [compare, compareLex, compareOn, Ordering.then_eq_eq, compare_eq_iff_eq] at h
  cases v
  cases w
  simpa using h

end VersionedTransition

inductive PhysicalTaskStatus where
  | none
  | created
deriving DecidableEq

/-- `ChasmComponentAttributes_Task`. -/
structure ComponentTask where
  type : String
  destination : String
  scheduledTime : Time
  data : String
  versionedTransition : VersionedTransition
  versionedTransitionOffset : Nat
  physicalTaskStatus : PhysicalTaskStatus
deriving DecidableEq

/-- What identifies a task within its execution. -/
abbrev TaskKey := VersionedTransition × Nat

namespace ComponentTask

def key (t : ComponentTask) : TaskKey := (t.versionedTransition, t.versionedTransitionOffset)

structure Request where
  type : String
  destination : String
  scheduledTime : Time
  data : String
deriving DecidableEq

def request (t : ComponentTask) : Request :=
  { type := t.type, destination := t.destination, scheduledTime := t.scheduledTime, data := t.data }

def setStatus (status : PhysicalTaskStatus) (t : ComponentTask) : ComponentTask :=
  { t with physicalTaskStatus := status }

variable (status : PhysicalTaskStatus) (t : ComponentTask)

@[simp] lemma setStatus_status : (t.setStatus status).physicalTaskStatus = status := rfl
@[simp] lemma setStatus_key : (t.setStatus status).key = t.key := rfl
@[simp] lemma setStatus_request : (t.setStatus status).request = t.request := rfl
@[simp] lemma setStatus_scheduledTime : (t.setStatus status).scheduledTime = t.scheduledTime := rfl

end ComponentTask

def compareSideEffectTasks : ComponentTask → ComponentTask → Ordering :=
  compareLex (compareOn ComponentTask.versionedTransition) (compareOn ComponentTask.versionedTransitionOffset)

instance : Std.TransCmp compareSideEffectTasks :=
  inferInstanceAs (Std.TransCmp (compareLex (compareOn _) (compareOn _)))

def comparePureTasks : ComponentTask → ComponentTask → Ordering :=
  compareLex (compareOn ComponentTask.scheduledTime) compareSideEffectTasks

instance : Std.TransCmp comparePureTasks :=
  inferInstanceAs (Std.TransCmp (compareLex (compareOn _) compareSideEffectTasks))

variable {a b : ComponentTask}

lemma scheduledTime_le_of_isLE (h : (comparePureTasks a b).isLE) : a.scheduledTime ≤ b.scheduledTime := by
  by_contra hlt
  have hgt : compare a.scheduledTime b.scheduledTime = .gt :=
    compare_gt_iff_gt.mpr (Nat.lt_of_not_le hlt)
  simp [comparePureTasks, compareLex, compareOn, hgt] at h

lemma le_scheduledTime_of_not_lt (h : comparePureTasks a b ≠ .lt) : b.scheduledTime ≤ a.scheduledTime := by
  by_contra hlt
  have hlt' : compare a.scheduledTime b.scheduledTime = .lt :=
    compare_lt_iff_lt.mpr (Nat.lt_of_not_le hlt)
  exact h (by simp [comparePureTasks, compareLex, compareOn, hlt'])

/-- `slices.SortFunc(tasks, comparePureTasks)`. No two tasks of a node compare as equal. -/
def sortPureTasks (tasks : List ComponentTask) : List ComponentTask :=
  tasks.insertionSort fun a b => (comparePureTasks a b).isLE

lemma mem_sortPureTasks {t tasks} : t ∈ sortPureTasks tasks ↔ t ∈ tasks :=
  List.mem_insertionSort _

def ByTime (tasks : List ComponentTask) : Prop :=
  tasks.Pairwise (·.scheduledTime ≤ ·.scheduledTime)

lemma byTime_sortPureTasks (tasks : List ComponentTask) : ByTime (sortPureTasks tasks) := by
  have htotal : Std.Total (fun a b => ((comparePureTasks a b).isLE : Prop)) := by
    refine ⟨fun a b => ?_⟩
    cases h : comparePureTasks a b with
    | lt => exact .inl rfl
    | eq => exact .inl rfl
    | gt =>
      rw [Std.OrientedCmp.lt_of_gt h]
      exact .inr rfl
  have htrans : IsTrans ComponentTask fun a b => (comparePureTasks a b).isLE :=
    ⟨fun _ _ _ => Std.TransCmp.isLE_trans⟩
  exact (List.pairwise_insertionSort _ tasks).imp scheduledTime_le_of_isLE

inductive Category where
  | visibility
  | outbound
  | transfer
  | timer
deriving DecidableEq

def visibilityTaskFqType : String := "core.visTask"

def taskCategory (t : ComponentTask) : Category :=
  if t.type = visibilityTaskFqType then .visibility
  else if t.destination ≠ "" then .outbound
  else if t.scheduledTime = 0 then .transfer
  else .timer

/-!
## Closing a transaction on a CHASM tree

`closeTransactionUpdateComponentTasks` walks over the tree, once per transaction. At each component it
removes the logical tasks that are no longer valid, adds the new ones, and generates a physical task
for every side-effect task that has none yet; at the end it generates a timer for the first pure task
of the whole tree. The path in a physical task is the slice that the walk passed to the node: what it
reads is decided when the tasks are handed to persistence, after the walk.

Go's map iteration order is the order of children in the transaction's tree.
-/

open Lib

abbrev NodeId := Nat

structure ComponentAttributes where
  sideEffectTasks : List ComponentTask
  pureTasks : List ComponentTask
deriving DecidableEq

/-- The serialized node. `component` is `none` for data, collection and pointer nodes. -/
structure ChasmNode where
  component : Option ComponentAttributes
  initialVersionedTransition : VersionedTransition
  lastUpdateVersionedTransition : VersionedTransition
deriving DecidableEq

def ChasmNode.sideEffectTasks (n : ChasmNode) : List ComponentTask :=
  (n.component.map ComponentAttributes.sideEffectTasks).getD []

def ChasmNode.pureTasks (n : ChasmNode) : List ComponentTask :=
  (n.component.map ComponentAttributes.pureTasks).getD []

/-- The children of a node are a map in the source, so a node has one parent and one place. -/
structure Tree where
  root : NodeId
  children : Forest NodeId String
  nodup : (root :: children.ids).Nodup

namespace Tree

def ids (t : Tree) : List NodeId := t.root :: t.children.ids

def paths (t : Tree) : List (List String × NodeId) := ([], t.root) :: t.children.paths []

def nilSlice : Slice := ⟨0, 0, 0⟩

def noArrays : Arrays String := ⟨1, fun _ _ => ""⟩

end Tree

structure TaskAttributes where
  scheduledTime : Time
  destination : String
deriving DecidableEq

def TaskAttributes.isImmediate (a : TaskAttributes) : Bool := a.scheduledTime == 0

def TaskAttributes.isValid (a : TaskAttributes) : Bool := a.destination == "" || a.isImmediate

structure RegistrableTask where
  fqType : String
  isPureTask : Bool
deriving DecidableEq

/-- The registered task types and their encodings, over task values of type `V`. -/
structure Registry (V : Type) where
  task : String → Option RegistrableTask
  taskFor : V → Option RegistrableTask
  deserialize : RegistrableTask → String → Option V
  serialize : RegistrableTask → V → Option String

structure NewTask (V : Type) where
  task : V
  attributes : TaskAttributes

/-- What happened to the tree up to the call of `CloseTransaction`. -/
structure Transaction (V : Type) where
  tree : Tree
  /-- How the capacity of a slice of strings grows. -/
  growslice : Nat → Nat
  /-- Which of the nodes that are new are components. -/
  isComponent : NodeId → Bool
  /-- The nodes accessed with a mutable context, with the tasks added to them. -/
  accessed : NodeId → Option (List (NewTask V))
  /-- The other nodes that have been deserialized. -/
  loaded : NodeId → Bool
  /-- The answers of the task validators, `none` for an error. -/
  validate : NodeId → TaskAttributes → V → Option Bool
  nextVersionedTransition : VersionedTransition

/-- The nodes and path slices that the walk yields, and the arrays it leaves behind. -/
def Transaction.andAllChildren {V : Type} (tx : Transaction V) : Arrays String × List (Slice × NodeId) :=
  let below := tx.tree.children.walk tx.growslice Tree.noArrays Tree.nilSlice
  (below.1, (Tree.nilSlice, tx.tree.root) :: below.2)

/-- Nodes whose path slice has room left have one child at most. As long as Go doubles the capacity,
these are the nodes at depth 3, 5, 6, 7, 9 and so on. -/
def Transaction.Unshared {V : Type} (tx : Transaction V) : Prop :=
  tx.tree.children.Unshared tx.growslice 0

instance {V : Type} (tx : Transaction V) : Decidable tx.Unshared :=
  inferInstanceAs (Decidable (tx.tree.children.Unshared tx.growslice 0))

inductive CloseError where
  | taskNotRegistered
  | deserialization
  | serialization
  | validation
  | invalidAttributes
deriving DecidableEq

/-- A physical side-effect task, with the path as a slice (`P := Slice`) until it is handed over. -/
structure ChasmTask (P : Type) where
  visibilityTimestamp : Time
  destination : String
  category : Category
  componentInitialVersionedTransition : VersionedTransition
  componentLastUpdateVersionedTransition : VersionedTransition
  path : P
  type : String
  data : String
deriving DecidableEq

/-- A physical task with the logical task and the node it was generated for. -/
structure Generated (P : Type) where
  key : TaskKey
  owner : NodeId
  task : ChasmTask P
deriving DecidableEq

/-- The persisted tree, and every physical task that has been handed to persistence. -/
structure TreeState where
  members : List NodeId
  node : NodeId → ChasmNode
  transitionCount : Nat
  physicalTasks : List (Generated (List String))
  timers : List Time

def TreeState.empty : TreeState :=
  { members := [], node := fun _ => ⟨none, ⟨0, 0⟩, ⟨0, 0⟩⟩, transitionCount := 0,
    physicalTasks := [], timers := [] }

inductive ValueState where
  | needDeserialize
  | synced
deriving DecidableEq

section Close

variable {V : Type} (reg : Registry V) (s : TreeState) (tx : Transaction V)

/-- The nodes whose value is serialized again: new ones and those that may have been changed. -/
def Updated (id : NodeId) : Prop := id ∉ s.members ∨ (tx.accessed id).isSome

instance (id : NodeId) : Decidable (Updated s tx id) := inferInstanceAs (Decidable (_ ∨ _))

/-- `closeTransactionSerializeNodes`, as far as the metadata goes. -/
def closeTransactionSerializeNodes (id : NodeId) : ChasmNode :=
  if id ∈ s.members then
    if (tx.accessed id).isSome then
      { s.node id with lastUpdateVersionedTransition := tx.nextVersionedTransition }
    else s.node id
  else
    { component := if tx.isComponent id then some ⟨[], []⟩ else none,
      initialVersionedTransition := tx.nextVersionedTransition,
      lastUpdateVersionedTransition := tx.nextVersionedTransition }

def valueState (id : NodeId) : ValueState :=
  if Updated s tx id ∨ tx.loaded id then .synced else .needDeserialize

def deserializeComponentTask (t : ComponentTask) : Except CloseError V :=
  match reg.task t.type with
  | none => .error .taskNotRegistered
  | some rt =>
    match reg.deserialize rt t.data with
    | none => .error .deserialization
    | some v => .ok v

def validateTask (id : NodeId) (attributes : TaskAttributes) (v : V) : Except CloseError Bool :=
  match tx.validate id attributes v with
  | none => .error .validation
  | some valid => .ok valid

def validateExisting (id : NodeId) (t : ComponentTask) : Except CloseError Bool :=
  deserializeComponentTask reg t >>= validateTask tx id ⟨t.scheduledTime, t.destination⟩

/-- `slices.DeleteFunc` with a function that keeps a task it cannot validate and leaves its error in
a variable: the last one is reported. -/
def deleteInvalid (valid : ComponentTask → Except CloseError Bool) (tasks : List ComponentTask) :
    Except CloseError (List ComponentTask) :=
  match (tasks.filterMap fun t => match valid t with
      | .error e => some e
      | .ok _ => none).getLast? with
  | some e => .error e
  | none => .ok (tasks.filter fun t => (valid t).toOption == some true)

def closeTransactionCleanupInvalidTasks (id : NodeId) (a : ComponentAttributes) :
    Except CloseError ComponentAttributes :=
  deleteInvalid (validateExisting reg tx id) a.sideEffectTasks >>= fun sideEffectTasks =>
  deleteInvalid (validateExisting reg tx id) a.pureTasks >>= fun pureTasks =>
  .ok ⟨sideEffectTasks, pureTasks⟩

structure NewTasksLoop where
  attributes : ComponentAttributes
  taskOffset : Nat
  sortPureTasks : Bool

def NewTasksLoop.add (l : NewTasksLoop) (isPureTask : Bool) (t : ComponentTask) : NewTasksLoop :=
  if isPureTask then
    { attributes := { l.attributes with pureTasks := l.attributes.pureTasks ++ [t] },
      taskOffset := l.taskOffset + 1, sortPureTasks := true }
  else
    { l with attributes := { l.attributes with sideEffectTasks := l.attributes.sideEffectTasks ++ [t] },
             taskOffset := l.taskOffset + 1 }

def handleNewTask (id : NodeId) (l : NewTasksLoop) (new : NewTask V) : Except CloseError NewTasksLoop :=
  if !new.attributes.isValid then .error .invalidAttributes
  else validateTask tx id new.attributes new.task >>= fun valid =>
    if !valid then .ok l
    else
      match reg.taskFor new.task with
      | none => .error .taskNotRegistered
      | some rt =>
        match reg.serialize rt new.task with
        | none => .error .serialization
        | some taskBlob =>
          .ok (l.add rt.isPureTask
            { type := rt.fqType
              destination := new.attributes.destination
              scheduledTime := new.attributes.scheduledTime
              data := taskBlob
              versionedTransition := tx.nextVersionedTransition
              versionedTransitionOffset := l.taskOffset
              physicalTaskStatus := .none })

def closeTransactionHandleNewTasks (id : NodeId) (a : ComponentAttributes) (taskOffset : Nat) :
    Except CloseError (ComponentAttributes × Nat) :=
  run (handleNewTask reg tx id) ⟨a, taskOffset, false⟩ ((tx.accessed id).getD []) >>= fun l =>
  .ok (if l.sortPureTasks then
      { l.attributes with pureTasks := sortPureTasks l.attributes.pureTasks }
    else l.attributes, l.taskOffset)

/-- The logical tasks of a component after this transaction: only those of a node that was updated in
it are looked at. -/
def updateLogicalTasks (id : NodeId) (n : ChasmNode) (a : ComponentAttributes) (taskOffset : Nat) :
    Except CloseError (ComponentAttributes × Nat) :=
  if n.lastUpdateVersionedTransition.compare tx.nextVersionedTransition = .eq ∧
      valueState s tx id ≠ .needDeserialize then
    closeTransactionCleanupInvalidTasks reg tx id a >>= fun a =>
    closeTransactionHandleNewTasks reg tx id a taskOffset
  else .ok (a, taskOffset)

/-- The scan for tasks without a physical task, from the last task to the first one that has one. The
list is in reverse; the tasks found come back with the list that has them marked. -/
def scanBackwards : List ComponentTask → List ComponentTask × List ComponentTask
  | [] => ([], [])
  | t :: before =>
    if t.physicalTaskStatus = .created then ([], t :: before)
    else
      let found := scanBackwards before
      (t :: found.1, t.setStatus .created :: found.2)

def closeTransactionGeneratePhysicalSideEffectTask (n : ChasmNode) (nodePath : Slice) (owner : NodeId)
    (t : ComponentTask) : Generated Slice :=
  { key := t.key
    owner := owner
    task :=
      { visibilityTimestamp := t.scheduledTime
        destination := t.destination
        category := taskCategory t
        componentInitialVersionedTransition := n.initialVersionedTransition
        componentLastUpdateVersionedTransition := n.lastUpdateVersionedTransition
        path := nodePath
        type := t.type
        data := t.data } }

structure Walk where
  nodes : NodeId → ChasmNode
  taskOffset : Nat
  generated : List (Generated Slice)
  firstPureTask : Option (ComponentTask × NodeId)

def earlierPureTask (id : NodeId) (pureTasks : List ComponentTask)
    (first : Option (ComponentTask × NodeId)) : Option (ComponentTask × NodeId) :=
  match pureTasks, first with
  | [], _ => first
  | t :: _, none => some (t, id)
  | t :: _, some (f, fid) => if comparePureTasks t f = .lt then some (t, id) else some (f, fid)

def visitNode (w : Walk) (v : Slice × NodeId) : Except CloseError Walk :=
  let n := w.nodes v.2
  match n.component with
  | none => .ok w
  | some a =>
    updateLogicalTasks reg s tx v.2 n a w.taskOffset >>= fun (a, taskOffset) =>
    let found := scanBackwards a.sideEffectTasks.reverse
    .ok
      { nodes := Function.update w.nodes v.2
          { n with component := some { a with sideEffectTasks := found.2.reverse } }
        taskOffset := taskOffset
        generated :=
          w.generated ++ found.1.map (closeTransactionGeneratePhysicalSideEffectTask n v.1 v.2)
        firstPureTask := earlierPureTask v.2 a.pureTasks w.firstPureTask }

def ChasmNode.markFirstPureTask (n : ChasmNode) : ChasmNode :=
  { n with component := n.component.map fun a =>
      { a with pureTasks :=
          match a.pureTasks with
          | [] => []
          | t :: rest => t.setStatus .created :: rest } }

def closeTransactionGeneratePhysicalPureTask (w : Walk) : (NodeId → ChasmNode) × List Time :=
  match w.firstPureTask with
  | none => (w.nodes, [])
  | some (t, id) =>
    if t.physicalTaskStatus = .created then (w.nodes, [])
    else (Function.update w.nodes id (w.nodes id).markFirstPureTask, [t.scheduledTime])

def Generated.handOver (arrays : Arrays String) (g : Generated Slice) : Generated (List String) :=
  { key := g.key, owner := g.owner, task := { g.task with path := arrays.read g.task.path } }

/-- `CloseTransaction` from the serialization of the nodes on, with what is persisted after it. -/
def closeTransaction : Except CloseError TreeState :=
  let walk := tx.andAllChildren
  run (visitNode reg s tx)
    { nodes := closeTransactionSerializeNodes s tx, taskOffset := 1, generated := [],
      firstPureTask := none } walk.2 >>= fun w =>
  let pure := closeTransactionGeneratePhysicalPureTask w
  .ok
    { members := tx.tree.ids
      node := pure.1
      transitionCount := tx.nextVersionedTransition.transitionCount
      physicalTasks := s.physicalTasks ++ w.generated.map (Generated.handOver walk.1)
      timers := s.timers ++ pure.2 }

/-- A transaction whose closing fails leaves what is persisted as it was: the tree in memory is
dropped and loaded again. -/
def transact : Except CloseError TreeState :=
  match closeTransaction reg s tx with
  | .ok s' => .ok s'
  | .error _ => .ok s

end Close

end FastOrchestration.Chasm
