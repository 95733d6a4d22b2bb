import FastOrchestration.Lib.Run
import FastOrchestration.Matching.VersioningData

/-!
# Compatible version sets

Model of `service/matching/version_sets.go` and `version_sets_merge.go`: the requests that change the
version sets of a task queue, the tombstones of removed build ids, and the merge of two values that
replication and the merge request use.

A build id has a unique place in the data, its set has one or more set ids, and the last element is the
default on both levels. Go clones the data before it changes it, so a function here takes the old data
and returns the new; an index that Go would use without a check is looked up with `[i]?` and is always
in range. A new build id or set gets its `BecameDefaultTimestamp` right after it is created, so it is
created with it here.

`MergeVersioningData` ranges over a Go map and sorts with `sort.Slice`, which is not stable. `Choices`
collects what Go leaves open, and all results hold for all choices.
-/

namespace FastOrchestration.Matching

structure BuildIDInfo where
  state : BuildIdState
  stateUpdateTimestamp : Clock
  setIDs : List String
  madeDefaultAt : Clock
  setMadeDefaultAt : Clock
  deriving DecidableEq

/-- The order of a map iteration, and sorting by a timestamp. -/
structure Choices where
  order : List (String × BuildIDInfo) → List (String × BuildIDInfo)
  sortSets : List VersionSet → List VersionSet
  sortBuildIds : List BuildId → List BuildId
  order_perm : ∀ infos, (order infos).Perm infos
  sortSets_perm : ∀ sets, (sortSets sets).Perm sets
  sortSets_sorted : ∀ sets, (sortSets sets).Pairwise fun s s' =>
    s.becameDefaultTimestamp ≤ s'.becameDefaultTimestamp
  sortBuildIds_perm : ∀ buildIds, (sortBuildIds buildIds).Perm buildIds
  sortBuildIds_sorted : ∀ buildIds, (sortBuildIds buildIds).Pairwise fun b b' =>
    b.becameDefaultTimestamp ≤ b'.becameDefaultTimestamp

/-! ## Merging -/

def mergeSetIDs (a b : List String) : List String :=
  (a ++ b.filter fun setID => setID ∉ a).insertionSort (· ≤ ·)

def setContainsSetIDs (set : VersionSet) (ids : List String) : Bool :=
  ids.any fun needle => set.setIds.any fun id => needle = id

def firstInfo (set : VersionSet) (buildID : BuildId) : BuildIDInfo where
  state := buildID.state
  stateUpdateTimestamp := buildID.stateUpdateTimestamp
  setIDs := set.setIds
  madeDefaultAt := buildID.becameDefaultTimestamp
  setMadeDefaultAt := set.becameDefaultTimestamp

def mergeInfo (info : BuildIDInfo) (set : VersionSet) (buildID : BuildId) : BuildIDInfo :=
  let stateUpdateTimestamp :=
    Clock.maxClock buildID.stateUpdateTimestamp info.stateUpdateTimestamp
  { state :=
      if stateUpdateTimestamp = buildID.stateUpdateTimestamp then buildID.state else info.state
    stateUpdateTimestamp := stateUpdateTimestamp
    setIDs := mergeSetIDs info.setIDs set.setIds
    madeDefaultAt := Clock.maxClock buildID.becameDefaultTimestamp info.madeDefaultAt
    setMadeDefaultAt := Clock.maxClock set.becameDefaultTimestamp info.setMadeDefaultAt }

/-- The loop body of Go `collectBuildIdInfo`, on the map as a list. -/
def track (infos : List (String × BuildIDInfo)) (found : VersionSet × BuildId) :
    List (String × BuildIDInfo) :=
  match infos with
  | [] => [(found.2.id, firstInfo found.1 found.2)]
  | (id, info) :: infos =>
    if id = found.2.id then (id, mergeInfo info found.1 found.2) :: infos
    else (id, info) :: track infos found

def occurrences (sets : List VersionSet) : List (VersionSet × BuildId) :=
  sets.flatMap fun set => set.buildIds.map fun buildID => (set, buildID)

def collectBuildIdInfo (sets : List VersionSet) : List (String × BuildIDInfo) :=
  (occurrences sets).foldl track []

def BuildIDInfo.toBuildId (id : String) (info : BuildIDInfo) : BuildId where
  id := id
  state := info.state
  stateUpdateTimestamp := info.stateUpdateTimestamp
  becameDefaultTimestamp := info.madeDefaultAt

def VersionSet.ofInfo (found : String × BuildIDInfo) : VersionSet :=
  ⟨found.2.setIDs, [found.2.toBuildId found.1], found.2.setMadeDefaultAt⟩

def VersionSet.addInfo (set : VersionSet) (found : String × BuildIDInfo) : VersionSet where
  setIds := mergeSetIDs set.setIds found.2.setIDs
  buildIds := set.buildIds ++ [found.2.toBuildId found.1]
  becameDefaultTimestamp := Clock.maxClock found.2.setMadeDefaultAt set.becameDefaultTimestamp

/-- The loop body of Go `intoVersionSets`: the build id goes to the first set with one of its set
ids, or to a new one. -/
def joinSet (sets : List VersionSet) (found : String × BuildIDInfo) : List VersionSet :=
  match sets with
  | [] => [.ofInfo found]
  | set :: sets =>
    if setContainsSetIDs set found.2.setIDs then set.addInfo found :: sets
    else set :: joinSet sets found

def intoVersionSets (ch : Choices) (infos : List (String × BuildIDInfo)) : List VersionSet :=
  (ch.sortSets ((ch.order infos).foldl joinSet [])).map fun set =>
    { set with buildIds := ch.sortBuildIds set.buildIds }

/-- Go `MergeVersioningData`; the rules are up to the caller. -/
def mergeVersioningData (ch : Choices) (a b : Option VersioningData) : Option VersioningData :=
  match a, b with
  | none, b => b
  | a, none => a
  | some a, some b =>
    some ⟨intoVersionSets ch (collectBuildIdInfo (a.versionSets ++ b.versionSets)), [], []⟩

/-! ## Requests -/

/-- Go `UpdateWorkerBuildIdCompatibilityRequest`. -/
inductive UpdateRequest where
  | addNewBuildIdInNewDefaultSet (buildId : String)
  | addNewCompatibleBuildId (newBuildId existingCompatibleBuildId : String) (makeSetDefault : Bool)
  | promoteSetByBuildId (buildId : String)
  | promoteBuildIdWithinSet (buildId : String)
  | mergeSets (primarySetBuildId secondarySetBuildId : String)
  deriving DecidableEq

inductive UpdateError where
  | alreadyExists (version : String)
  | compatibleNotFound (version : String)
  | existsNotDefaultForQueue (version : String)
  | existsNotDefaultInSet (version : String)
  | existsIncompatible (version compatible : String)
  | notFound (version : String)
  | primaryNotFound (version : String)
  | secondaryNotFound (version : String)
  | exceedsVersionSets (count : Nat) (max : Int)
  | exceedsBuildIds (count : Nat) (max : Int)
  deriving DecidableEq

def VersionSet.ids (set : VersionSet) : List String := set.buildIds.map (·.id)

/-- Go `worker_versioning.FindBuildId`, with `none` for the pair of -1. -/
def findBuildId (sets : List VersionSet) (buildId : String) : Option (Nat × Nat) :=
  match sets with
  | [] => none
  | set :: sets =>
    match set.ids.idxOf? buildId with
    | some i => some (0, i)
    | none => (findBuildId sets buildId).map fun (s, i) => (s + 1, i)

def makeDefaultSet (sets : List VersionSet) (setIx : Nat) (timestamp : Clock) : List VersionSet :=
  match sets[setIx]? with
  | none => sets
  | some set => sets.eraseIdx setIx ++ [{ set with becameDefaultTimestamp := timestamp }]

/-- The build id is stamped and moved to the end of its set. -/
def VersionSet.makeDefault (set : VersionSet) (versionIx : Nat) (timestamp : Clock) : VersionSet :=
  match set.buildIds[versionIx]? with
  | none => set
  | some buildId =>
    { set with buildIds := set.buildIds.eraseIdx versionIx ++ [{ buildId with becameDefaultTimestamp := timestamp }] }

def makeVersionInSetDefault (sets : List VersionSet) (setIx versionIx : Nat) (timestamp : Clock) :
    List VersionSet :=
  sets.modify setIx fun set => set.makeDefault versionIx timestamp

def checkVersionSetLimits (data : VersioningData) (maxSets maxBuildIds : Int) :
    Except UpdateError VersioningData :=
  let numBuildIds : Nat := (data.versionSets.map fun set => set.buildIds.length).sum
  if maxSets > 0 ∧ data.versionSets.length > maxSets then
    .error (.exceedsVersionSets data.versionSets.length maxSets)
  else if maxBuildIds ≠ 0 ∧ numBuildIds > maxBuildIds then
    .error (.exceedsBuildIds numBuildIds maxBuildIds)
  else .ok data

section

variable (hashBuildId : String → String) (timestamp : Clock)

def newSet (buildId : String) : VersionSet :=
  ⟨[hashBuildId buildId], [⟨buildId, .active, timestamp, timestamp⟩], timestamp⟩

def addNewDefaultSet (sets : List VersionSet) (targetedVersion : String) :
    Except UpdateError (List VersionSet) :=
  match findBuildId sets targetedVersion with
  | none =>
    let added := sets ++ [newSet hashBuildId timestamp targetedVersion]
    .ok (makeDefaultSet (makeVersionInSetDefault added sets.length 0 timestamp) sets.length timestamp)
  | some (targetSetIdx, versionInSetIdx) =>
    -- the request was made before
    if targetSetIdx = sets.length - 1 ∧ versionInSetIdx = 0 ∧
        (sets[sets.length - 1]?.map fun set => set.buildIds.length) = some 1 then .ok sets
    else .error (.alreadyExists targetedVersion)

def addNewCompatible (sets : List VersionSet) (targetedVersion compatVer : String)
    (makeSetDefault : Bool) : Except UpdateError (List VersionSet) :=
  match findBuildId sets compatVer with
  | none => .error (.compatibleNotFound compatVer)
  | some (compatSetIdx, _) =>
    match findBuildId sets targetedVersion with
    | some (targetSetIdx, versionInSetIdx) =>
      if compatSetIdx = targetSetIdx then
        if makeSetDefault ∧ targetSetIdx ≠ sets.length - 1 then
          .error (.existsNotDefaultForQueue targetedVersion)
        else if sets[targetSetIdx]?.all fun set => versionInSetIdx ≠ set.buildIds.length - 1 then
          .error (.existsNotDefaultInSet targetedVersion)
        else .ok sets
      else .error (.existsIncompatible targetedVersion compatVer)
    | none =>
      let lastIdx := (sets[compatSetIdx]?.map fun set => set.buildIds.length).getD 0
      let added := sets.modify compatSetIdx fun set =>
        { set with buildIds := set.buildIds ++ [⟨targetedVersion, .active, timestamp, timestamp⟩] }
      let sets := makeVersionInSetDefault added compatSetIdx lastIdx timestamp
      .ok (if makeSetDefault then makeDefaultSet sets compatSetIdx timestamp else sets)

def promoteSet (sets : List VersionSet) (targetedVersion : String) :
    Except UpdateError (List VersionSet) :=
  match findBuildId sets targetedVersion with
  | none => .error (.notFound targetedVersion)
  | some (targetSetIdx, _) =>
    if targetSetIdx = sets.length - 1 then .ok sets
    else .ok (makeDefaultSet sets targetSetIdx timestamp)

def promoteWithinSet (sets : List VersionSet) (targetedVersion : String) :
    Except UpdateError (List VersionSet) :=
  match findBuildId sets targetedVersion with
  | none => .error (.notFound targetedVersion)
  | some (targetSetIdx, versionInSetIdx) =>
    if sets[targetSetIdx]?.all fun set => versionInSetIdx = set.buildIds.length - 1 then .ok sets
    else .ok (makeVersionInSetDefault sets targetSetIdx versionInSetIdx timestamp)

/-- The sets that a merge request passes to `MergeVersioningData`: the primary set with its default
stamped, and all sets with the secondary set having the set ids of both. -/
def mergeOperands (sets : List VersionSet) (primaryIdx secondaryIdx : Nat) :
    List VersionSet × List VersionSet :=
  let stamped := sets.modify primaryIdx fun set =>
    set.makeDefault (set.buildIds.length - 1) timestamp
  let primarySet := stamped[primaryIdx]?
  (primarySet.toList, stamped.modify secondaryIdx fun set =>
    { set with setIds := mergeSetIDs ((primarySet.map (·.setIds)).getD []) set.setIds })

def mergeSetsRequest (ch : Choices) (data : VersioningData) (targetedVersion secondaryBuildID : String) :
    Except UpdateError VersioningData :=
  match findBuildId data.versionSets targetedVersion with
  | none => .error (.primaryNotFound targetedVersion)
  | some (targetSetIdx, _) =>
    match findBuildId data.versionSets secondaryBuildID with
    | none => .error (.secondaryNotFound secondaryBuildID)
    | some (secondarySetIdx, _) =>
      if targetSetIdx = secondarySetIdx then .ok data
      else
        let (primary, all) := mergeOperands timestamp data.versionSets targetSetIdx secondarySetIdx
        .ok ((mergeVersioningData ch (some ⟨primary, [], []⟩) (some { data with versionSets := all })).getD data)

/-- Go `updateVersionSetImpl`. A request with an empty build id is taken for no request. -/
def updateVersionSetImpl (ch : Choices) (data : VersioningData) :
    UpdateRequest → Except UpdateError VersioningData
  | .addNewBuildIdInNewDefaultSet v =>
    if v = "" then .ok data
    else (fun sets => { data with versionSets := sets }) <$> addNewDefaultSet hashBuildId timestamp data.versionSets v
  | .addNewCompatibleBuildId v compatVer makeSetDefault =>
    (fun sets => { data with versionSets := sets }) <$>
      addNewCompatible timestamp data.versionSets v compatVer makeSetDefault
  | .promoteSetByBuildId v =>
    if v = "" then .ok data
    else (fun sets => { data with versionSets := sets }) <$> promoteSet timestamp data.versionSets v
  | .promoteBuildIdWithinSet v =>
    if v = "" then .ok data
    else (fun sets => { data with versionSets := sets }) <$> promoteWithinSet timestamp data.versionSets v
  | .mergeSets primary secondary => mergeSetsRequest timestamp ch data primary secondary

def updateVersionSets (ch : Choices) (data : Option VersioningData) (req : UpdateRequest)
    (maxSets maxBuildIds : Int) : Except UpdateError VersioningData := do
  let data ← updateVersionSetImpl hashBuildId timestamp ch (data.getD .empty) req
  checkVersionSetLimits data maxSets maxBuildIds

def removeBuildIds (sets : List VersionSet) (buildIds : List String) : List VersionSet :=
  sets.map fun set => { set with
    buildIds := set.buildIds.map fun buildId =>
      if buildId.id ∈ buildIds then
        { buildId with state := .deleted, stateUpdateTimestamp := timestamp }
      else buildId }

def clearTombstones (sets : List VersionSet) : List VersionSet :=
  (sets.map fun set =>
    { set with buildIds := set.buildIds.filter fun buildId => buildId.state ≠ .deleted }).filter
      fun set => !set.buildIds.isEmpty

def persistUnknownBuildId (sets : List VersionSet) (buildId : String) : List VersionSet :=
  let guessedSetId := hashBuildId buildId
  match findBuildId sets buildId with
  | some (foundSetId, _) => sets.modify foundSetId fun set =>
      if guessedSetId ∈ set.setIds then set
      else { set with setIds := set.setIds ++ [guessedSetId] }
  | none => newSet hashBuildId (Clock.zero timestamp.clusterId) buildId :: sets

end

end FastOrchestration.Matching
