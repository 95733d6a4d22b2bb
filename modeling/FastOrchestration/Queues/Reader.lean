import FastOrchestration.Queues.Slice

/-!
# Readers and mitigation actions

Model of `reader.go`, `reader_group.go` and of the actions in `action_*.go`, all in
`service/history/queues`. A reader is an ordered list of slices. A reader group maps the ids of its
readers to their slices.

What an action computes from the monitor, from floating point thresholds or in the order of a Go map
is an argument here: which slices of a reader are chosen is a function of their positions, and
`queuePendingTask` is given the readers in the order in which it visits them. An action whose alert is
no longer valid does nothing, so that an action here is one whose alert is valid; where it stops as
soon as shrinking was enough, it is one with nothing more to visit. `slicePredicate` has no alert and is
told whether the default reader is overloaded.
-/

namespace FastOrchestration.Queues

variable {κ : Type} [DecidableEq κ]

/-- What a splitter makes of the slice at a position: nothing, or the slices that remain and the one
that it sets aside. -/
abbrev Splitter (κ : Type) := Nat → Slice κ → Except Panic (Option (List (Slice κ) × Slice κ))

namespace Reader

section Operations

variable (g : Grouper κ) (maxPredicateSize : Nat)

/-- Go `SplitSlices`, from a position on: the new slices of the reader, and those set aside. -/
def splitSlices (splitter : Splitter κ) :
    Nat → List (Slice κ) → Except Panic (List (Slice κ) × List (Slice κ))
  | _, [] => .ok ([], [])
  | i, s :: slices => do
    let split ← splitter i s
    let (kept, aside) ← splitSlices splitter (i + 1) slices
    match split with
    | none => return (s :: kept, aside)
    | some (remaining, moved) =>
      return (remaining.filter (!·.scope.isEmpty) ++ kept, moved :: aside)

/-- Go `mergeOrAppendSlice`; the list built so far is reversed. -/
def mergeOrAppendSlice (merged : List (Slice κ)) (incoming : Slice κ) :
    Except Panic (List (Slice κ)) :=
  if incoming.scope.isEmpty then .ok merged
  else
    match merged with
    | [] => .ok [incoming]
    | last :: rest =>
      if !last.scope.range.canMerge incoming.scope.range then .ok (incoming :: last :: rest)
      else do
        let outs ← last.mergeWithSlice g maxPredicateSize incoming
        return outs.reverse ++ rest

def validateSlicesOrderedDisjoint : List (Slice κ) → Except Panic Unit
  | s :: next :: slices =>
    if s.scope.range.exclusiveMax > next.scope.range.inclusiveMin then .error .overlappingSlices
    else validateSlicesOrderedDisjoint (next :: slices)
  | _ => .ok ()

def mergeSlices (slices incoming : List (Slice κ)) : Except Panic (List (Slice κ)) :=
  if incoming.isEmpty then .ok slices
  else do
    validateSlicesOrderedDisjoint incoming
    let merged ← Lib.mergeFold (fun s s' => s.scope.range.inclusiveMin < s'.scope.range.inclusiveMin)
      (mergeOrAppendSlice g maxPredicateSize) [] slices incoming
    return merged.reverse

def appendSlices (slices incoming : List (Slice κ)) : Except Panic (List (Slice κ)) := do
  validateSlicesOrderedDisjoint incoming
  match slices.getLast?, incoming.head? with
  | some last, some first =>
    if last.scope.range.exclusiveMax > first.scope.range.inclusiveMin then .error .unableToAppend
    else return slices ++ incoming.filter (!·.scope.isEmpty)
  | _, _ => return slices ++ incoming.filter (!·.scope.isEmpty)

def clearSlices (chosen : Nat → Bool) (slices : List (Slice κ)) : List (Slice κ) :=
  slices.mapIdx fun i s => if chosen i then s.clear g maxPredicateSize else s

def compactAfter (chosen : Nat → Bool) :
    Nat → Slice κ → List (Slice κ) → Except Panic (List (Slice κ))
  | _, prev, [] => .ok [prev]
  | i, prev, s :: slices =>
    if chosen i then do
      let compacted ← prev.compactWithSlice g maxPredicateSize s
      compactAfter chosen (i + 1) compacted slices
    else do
      let compacted ← compactAfter chosen (i + 1) s slices
      return prev :: compacted

def compactSlices (chosen : Nat → Bool) : List (Slice κ) → Except Panic (List (Slice κ))
  | [] => .ok []
  | s :: slices => compactAfter g maxPredicateSize chosen 1 s slices

def shrinkSlices (slices : List (Slice κ)) : List (Slice κ) :=
  (slices.map (·.shrinkScope g maxPredicateSize)).filter (!·.scope.isEmpty)

end Operations

def selectTasks (g : Grouper κ) (store : Store) (i batchSize : Nat) (replies : List Reply)
    (slices : List (Slice κ)) : Except Panic (List (Slice κ)) :=
  match slices[i]? with
  | none => .ok slices
  | some s => do
    let selected ← s.selectTasks g store batchSize replies
    return slices.set i selected.slice

def ack (i : Nat) (key : Key) (slices : List (Slice κ)) : List (Slice κ) :=
  match slices[i]? with
  | none => slices
  | some s => slices.set i (s.ack key)

end Reader

/-- Go `ReaderGroup`: the ids of the readers, and the slices of each. -/
structure ReaderGroup (κ : Type) where
  ids : List Int
  nodup : ids.Nodup
  slices : Int → List (Slice κ)

def defaultReaderId : Int := 0

namespace ReaderGroup

def empty : ReaderGroup κ := ⟨[], .nil, fun _ => []⟩

def newReader (group : ReaderGroup κ) (id : Int) (slices : List (Slice κ)) :
    Except Panic (ReaderGroup κ) :=
  if h : id ∈ group.ids then .error .readerExists
  else .ok ⟨id :: group.ids, group.nodup.cons h, Function.update group.slices id slices⟩

def getOrCreateReader (group : ReaderGroup κ) (id : Int) : ReaderGroup κ :=
  if h : id ∈ group.ids then group
  else ⟨id :: group.ids, group.nodup.cons h, Function.update group.slices id []⟩

def setSlices (group : ReaderGroup κ) (id : Int) (slices : List (Slice κ)) : ReaderGroup κ :=
  { group with slices := Function.update group.slices id slices }

def update (group : ReaderGroup κ) (id : Int)
    (f : List (Slice κ) → Except Panic (List (Slice κ))) : Except Panic (ReaderGroup κ) :=
  if id ∈ group.ids then do
    let slices ← f (group.slices id)
    return group.setSlices id slices
  else .ok group

section Actions

variable (g : Grouper κ) (maxPredicateSize : Nat)

def shrinkAll (group : ReaderGroup κ) : ReaderGroup κ :=
  { group with slices := fun id => Reader.shrinkSlices g maxPredicateSize (group.slices id) }

/-- What `actionReaderStuck`, `actionQueuePendingTask`, `actionMoveGroup` and `slicePredicateAction`
do with a reader: what the splitter sets aside is merged into the next reader. -/
def moveSlices (group : ReaderGroup κ) (id : Int) (splitter : Splitter κ) :
    Except Panic (ReaderGroup κ) := do
  let (kept, aside) ← Reader.splitSlices splitter 0 (group.slices id)
  if aside.isEmpty then return group.setSlices id kept
  else
    ((group.setSlices id kept).getOrCreateReader (id + 1)).update (id + 1)
      fun slices => Reader.mergeSlices g maxPredicateSize slices aside

/-- The parts of a slice below a key, if it can be split there, and the rest. -/
def cutBelow (s : Slice κ) (key : Key) : Except Panic (List (Slice κ) × Slice κ) :=
  if s.scope.canSplitByRange key then do
    let (left, right) ← s.splitByRange g maxPredicateSize key
    return ([left], right)
  else .ok ([], s)

def cutAbove (s : Slice κ) (key : Key) : Except Panic (List (Slice κ) × Slice κ) :=
  if s.scope.canSplitByRange key then do
    let (left, right) ← s.splitByRange g maxPredicateSize key
    return ([right], left)
  else .ok ([], s)

/-- The splitter of `actionReaderStuck`. -/
def stuckSplitter (stuckRange : Range) : Splitter κ := fun _ s =>
  if stuckRange.containsRange s.scope.range then .ok (some ([], s))
  else do
    let (below, rest) ← cutBelow g maxPredicateSize s stuckRange.inclusiveMin
    let (above, stuck) ← cutAbove g maxPredicateSize rest stuckRange.exclusiveMax
    if (below ++ above).isEmpty then return none
    else return some (below ++ above, stuck)

/-- The splitter of `actionQueuePendingTask`, for the keys to clear of each slice. -/
def clearKeysSplitter (keysToClear : Nat → Option (Finset κ)) : Splitter κ := fun i s =>
  match keysToClear i with
  | none => .ok none
  | some keys => do
    let (split, remain) ← s.splitByPredicate g maxPredicateSize (g.predicate keys)
    return some ([remain], split.clear g maxPredicateSize)

def groupsSplitter (groupsToMove : Finset κ) : Splitter κ := fun _ s =>
  if (s.scope.splitByPredicate (g.predicate groupsToMove)).1.isEmpty then .ok none
  else do
    let (split, remain) ← s.splitByPredicate g maxPredicateSize (g.predicate groupsToMove)
    return some ([remain], split)

/-- The splitter of `slicePredicateAction`. -/
def nonUniversalSplitter : Splitter κ := fun _ s =>
  if s.scope.predicate.isUniversal then .ok none else .ok (some ([], s))

/-- The groups with at least so many pending tasks in the slices of a reader. -/
def groupsToMove (slices : List (Slice κ)) (minTaskCount : Int) : Finset κ :=
  let stats := slices.map (·.tracker.pendingPerKey)
  let groups := stats.foldr (fun m groups => m.keys ∪ groups) ∅
  groups.filter fun key => minTaskCount ≤ (stats.map (·.count key)).sum

/-- The stages of `actionSliceCount`: in the default reader or in the others, and for slices with a
universal predicate or with another one. -/
def compactStages : List (Bool × Bool) :=
  [(false, false), (true, false), (false, true), (true, true)]

/-- The slice at a position and the one before it are both eligible for a stage. -/
def compactCandidate (universal : Bool) (slices : List (Slice κ)) (i : Nat) : Bool :=
  let eligible (s : Slice κ) := s.scope.predicate.isUniversal == universal
  0 < i && (slices[i - 1]?).any eligible && (slices[i]?).any eligible

/-- Go `findAndCompactLowSliceCount`; `picked` are the candidates at the smallest distance. -/
def compactStage (isDefault universal : Bool) (picked : Int → Nat → Bool)
    (group : ReaderGroup κ) : Except Panic (ReaderGroup κ) :=
  Lib.foldSteps (fun (group : ReaderGroup κ) id =>
    if (id == defaultReaderId) == isDefault then
      group.update id fun slices => Reader.compactSlices g maxPredicateSize
        (fun i => compactCandidate universal slices i && picked id i) slices
    else .ok group) group group.ids

end Actions

end ReaderGroup

inductive Action (κ : Type) where
  | readerStuck (readerID : Int) (currentWatermark : Key) (valid : currentWatermark.Valid)
  | queuePendingTask (maxReaderCount : Int) (visits : List (Int × (Nat → Option (Finset κ))))
  | moveGroup (maxReaderCount : Nat) (minTaskCount : Int → Int)
  | slicePredicate (maxReaderCount : Int) (overloaded : Bool)
  | sliceCount (picked : List (Int → Nat → Bool))

def monitorWatermarkPrecision : Int := 1000000000

namespace Action

variable (g : Grouper κ) (maxPredicateSize : Nat)

/-- One reader of `splitAndClearSlice`. The last reader cannot pass tasks on. -/
def splitAndClearSlice (maxReaderCount : Int) (group : ReaderGroup κ)
    (visit : Int × (Nat → Option (Finset κ))) : Except Panic (ReaderGroup κ) :=
  let (id, keysToClear) := visit
  if id = maxReaderCount - 1 then
    group.update id fun slices =>
      .ok (Reader.clearSlices g maxPredicateSize (fun i => (keysToClear i).isSome) slices)
  else if id ∈ group.ids then
    group.moveSlices g maxPredicateSize id (ReaderGroup.clearKeysSplitter g maxPredicateSize keysToClear)
  else .ok group

def moveGroups (minTaskCount : Int → Int) (group : ReaderGroup κ) (id : Int) :
    Except Panic (ReaderGroup κ) :=
  if id ∈ group.ids then
    let groups := ReaderGroup.groupsToMove (group.slices id) (minTaskCount id)
    if groups = ∅ then .ok group
    else do
      let group ← group.moveSlices g maxPredicateSize id (ReaderGroup.groupsSplitter g maxPredicateSize groups)
      return group.getOrCreateReader (id + 1)
  else .ok group

def run (group : ReaderGroup κ) : Action κ → Except Panic (ReaderGroup κ)
  | .readerStuck readerID w _ =>
    if readerID ∈ group.ids then do
      let stuckRange ← Range.newRange w ⟨w.fireTime + monitorWatermarkPrecision, w.taskID⟩
      group.moveSlices g maxPredicateSize readerID (ReaderGroup.stuckSplitter g maxPredicateSize stuckRange)
    else .ok group
  | .queuePendingTask maxReaderCount visits =>
    Lib.foldSteps (splitAndClearSlice g maxPredicateSize maxReaderCount) (group.shrinkAll g maxPredicateSize) visits
  | .moveGroup maxReaderCount minTaskCount =>
    Lib.foldSteps (moveGroups g maxPredicateSize minTaskCount) group
      ((List.range (maxReaderCount - 1)).map fun i => defaultReaderId + i)
  | .slicePredicate maxReaderCount overloaded =>
    if defaultReaderId ∈ group.ids then
      if maxReaderCount ≤ defaultReaderId + 1 ∨ !overloaded then .ok group
      else group.moveSlices g maxPredicateSize defaultReaderId ReaderGroup.nonUniversalSplitter
    else .ok group
  | .sliceCount picked =>
    Lib.foldSteps (fun group stage =>
        ReaderGroup.compactStage g maxPredicateSize stage.1.1 stage.1.2 stage.2 group)
      (group.shrinkAll g maxPredicateSize) (ReaderGroup.compactStages.zip picked)

end Action

end FastOrchestration.Queues
