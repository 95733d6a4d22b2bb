import Mathlib

/-!
# The worker deployment workflow

Model of the update handlers in `service/worker/workerdeployment/workflow.go`. The local state has the
routing config, with the current and the ramping version, and one summary for each version.

A handler takes the state to the next one, or fails. All activities succeed, but those with an answer:
`IsVersionMissingTaskQueues`, and `DeleteWorkerDeploymentVersion` where `tryDeleteVersion` tries one
version after the other. Their answers, the clock and the limit on versions come with each update. The
lock and the validators run the same check on the same state, so each check is made once.

Left out are the memo, the deployment versions that are derived from the version strings, and
`syncUnversionedRamp`, which only writes to task queues. A conflict token is the time it encodes.
-/

namespace FastOrchestration.WorkerDeployment

/-- Nanoseconds since the epoch. -/
abbrev Time := Nat

def unversionedVersionId : String := "__unversioned__"

inductive VersionStatus where
  | unspecified
  | inactive
  | current
  | ramping
  | draining
  | drained
  deriving DecidableEq

inductive DrainageStatus where
  | unspecified
  | draining
  | drained
  deriving DecidableEq

structure VersionDrainageInfo where
  status : DrainageStatus
  lastChangedTime : Time
  lastCheckedTime : Time
  deriving DecidableEq

structure VersionSummary where
  version : String
  createTime : Option Time := none
  status : VersionStatus := .unspecified
  drainageStatus : DrainageStatus := .unspecified
  drainageInfo : Option VersionDrainageInfo := none
  routingUpdateTime : Option Time := none
  currentSinceTime : Option Time := none
  rampingSinceTime : Option Time := none
  firstActivationTime : Option Time := none
  lastDeactivationTime : Option Time := none
  deriving DecidableEq

structure RoutingConfig where
  currentVersion : String
  currentVersionChangedTime : Option Time := none
  rampingVersion : String := ""
  rampingVersionPercentage : Rat := 0
  rampingVersionChangedTime : Option Time := none
  rampingVersionPercentageChangedTime : Option Time := none
  deriving DecidableEq

structure LocalState where
  versions : AList fun _ : String => VersionSummary
  routingConfig : RoutingConfig
  conflictToken : Time
  lastModifierIdentity : String := ""
  managerIdentity : String := ""

def newDeployment (now : Time) : LocalState where
  versions := ∅
  routingConfig := { currentVersion := unversionedVersionId }
  conflictToken := now

structure UpdateError where
  type : String
  message : String
  deriving DecidableEq

def failedPrecondition (message : String) : UpdateError := ⟨"FailedPrecondition", message⟩

def errManagerIdentityMismatch (manager identity : String) : UpdateError :=
  failedPrecondition ("ManagerIdentity '" ++ manager ++ "' is set and does not match user identity '" ++
    identity ++ "'; to proceed, set your own identity as the ManagerIdentity, remove the " ++
    "ManagerIdentity, or wait for the other client to do so")

/-- What an update reads from outside: the clock, the dynamic config and the answers of activities. -/
structure Env where
  now : Time
  maxVersions : Nat
  missingTaskQueues : Bool
  deletable : String → Bool

/-- Go `strings.Cut`, at a single character. -/
def cut (delimiter : Char) (s : List Char) : Option (List Char × List Char) :=
  if delimiter ∈ s then some (s.takeWhile (· ≠ delimiter), (s.dropWhile (· ≠ delimiter)).tail)
  else none

/-- Go `WorkerDeploymentVersionFromStringV31`: the deployment name and the build id. -/
def workerDeploymentVersionFromStringV31 (s : String) :
    Except UpdateError (Option (List Char × List Char)) :=
  if s = unversionedVersionId then .ok none
  else
    let parts : Option (List Char × List Char) :=
      match cut '.' s.toList, cut ':' s.toList with
      | some (before, after), some (before32, after32) =>
        if before32.length < before.length then some (before32, after32) else some (before, after)
      | some (before, after), none => some (before, after)
      -- `Cut` answers all of the string and nothing where it finds no delimiter
      | none, some _ => some (s.toList, [])
      | none, none => none
    match parts with
    | none =>
      .error ⟨"", "expected delimiter ':' or '.' not found in version string " ++ s⟩
    | some (before, after) =>
      if before.length = 0 then .error ⟨"", "deployment name is empty in version string " ++ s⟩
      else if after.length = 0 then .error ⟨"", "build id is empty in version string " ++ s⟩
      else .ok (some (before, after))

structure SyncVersionStateUpdateArgs where
  routingUpdateTime : Time
  currentSinceTime : Option Time := none
  rampingSinceTime : Option Time := none
  rampPercentage : Rat := 0

structure SetCurrentVersionArgs where
  version : String
  identity : String
  ignoreMissingTaskQueues : Bool
  conflictToken : Option Time
  allowNoPollers : Bool

structure SetRampingVersionArgs where
  version : String
  percentage : Rat
  identity : String
  ignoreMissingTaskQueues : Bool
  conflictToken : Option Time
  allowNoPollers : Bool

structure DeleteVersionArgs where
  identity : String
  version : String

structure SetManagerIdentityArgs where
  managerIdentity : String
  identity : String
  conflictToken : Option Time

/-- Go `WorkerDeploymentVersion`. -/
structure DeploymentVersion where
  deploymentName : String
  buildId : String

def workerDeploymentVersionToStringV31 : Option DeploymentVersion → String
  | none => unversionedVersionId
  | some v => v.deploymentName ++ "." ++ v.buildId

namespace LocalState

def updateVersionSummary (s : LocalState) (summary : VersionSummary) : LocalState :=
  match s.versions.lookup summary.version with
  | none => s
  | some existing =>
    let summary :=
      if existing.createTime.isSome then
        { summary with
          createTime := existing.createTime
          firstActivationTime := existing.firstActivationTime.orElse fun _ =>
            summary.firstActivationTime }
      else summary
    { s with versions := s.versions.insert summary.version summary }

def syncedStatus (args : SyncVersionStateUpdateArgs) : VersionStatus :=
  if args.currentSinceTime.isSome then .current
  else if args.rampingSinceTime.isSome then .ramping
  else .draining

/-- Go `syncVersion`, after its activity. -/
def syncVersion (s : LocalState) (targetVersion : String) (args : SyncVersionStateUpdateArgs)
    (activated : Bool) : LocalState :=
  s.updateVersionSummary
    { version := targetVersion
      status := syncedStatus args
      routingUpdateTime := args.routingUpdateTime
      currentSinceTime := args.currentSinceTime
      rampingSinceTime := args.rampingSinceTime
      firstActivationTime := if activated then args.routingUpdateTime else none
      lastDeactivationTime := if activated then none else args.routingUpdateTime }

def setDrainageStatus (s : LocalState) (version : String) (status : DrainageStatus)
    (routingUpdateTime : Time) : LocalState :=
  match s.versions.lookup version with
  | none => s
  | some summary =>
    let drained : VersionSummary :=
      { summary with
        drainageStatus := status
        drainageInfo := some ⟨status, routingUpdateTime, routingUpdateTime⟩ }
    { s with versions := s.versions.insert version drained }

def validateDeleteVersion (s : LocalState) (args : DeleteVersionArgs) : Except UpdateError Unit :=
  if args.version ∉ s.versions then
    .error ⟨"Version not found in deployment", "version not found in deployment"⟩
  else if s.routingConfig.currentVersion = args.version ∨
      s.routingConfig.rampingVersion = args.version then
    .error (failedPrecondition "Version cannot be deleted since it is current or ramping.")
  else if s.managerIdentity ≠ "" ∧ s.managerIdentity ≠ args.identity then
    .error (errManagerIdentityMismatch s.managerIdentity args.identity)
  else .ok ()

/-- Go `deleteVersion`, after its activity. -/
def deleteVersion (s : LocalState) (args : DeleteVersionArgs) : LocalState :=
  { s with versions := s.versions.erase args.version, lastModifierIdentity := args.identity }

/-- Go `sortedSummaries`: by create time, and by key where that is the same. -/
def sortedSummaries (s : LocalState) : List VersionSummary :=
  let keys := s.versions.keys.insertionSort (· ≤ ·)
  (keys.filterMap s.versions.lookup).insertionSort fun a b =>
    a.createTime.getD 0 ≤ b.createTime.getD 0

/-- Go `tryDeleteVersion`: the first version that may be deleted, and that the activity deletes. -/
def tryDeleteVersion (env : Env) (s : LocalState) : Except UpdateError LocalState :=
  let args (v : VersionSummary) : DeleteVersionArgs := ⟨"try-delete-for-add-version", v.version⟩
  match s.sortedSummaries.find? fun v =>
      (s.validateDeleteVersion (args v)).isOk && env.deletable v.version with
  | some v => .ok (s.deleteVersion (args v))
  | none =>
    .error (failedPrecondition
      "could not add version: too many versions in deployment and none are eligible for deletion")

/-- At the limit, a version is deleted to make room for another. -/
def makeRoom (env : Env) (s : LocalState) (version : String) : Except UpdateError LocalState :=
  if env.maxVersions ≤ s.versions.entries.length then
    (tryDeleteVersion env s).mapError fun _ =>
      ⟨"errTooManyVersions", "cannot add version " ++ version ++
        " since maximum number of versions (" ++ toString env.maxVersions ++
        ") have been registered in the deployment"⟩
  else .ok s

def addVersionToWorkerDeployment (env : Env) (s : LocalState) (version : String)
    (createTime : Time) : Except UpdateError LocalState :=
  if s.versions.entries.any (fun entry => entry.2.version = version) then .ok s
  else do
    let s ← s.makeRoom env version
    let summary : VersionSummary :=
      { version := version, createTime := createTime, status := .inactive }
    return { s with versions := s.versions.insert version summary }

/-- The version that an update names is added if there are no pollers yet and that is allowed. -/
def addMissingVersion (env : Env) (s : LocalState) (version : String) (wanted : Bool) :
    Except UpdateError LocalState :=
  if version ∉ s.versions ∧ wanted then do
    let s ← s.addVersionToWorkerDeployment env version env.now
    let _ ← workerDeploymentVersionFromStringV31 version
    return s
  else .ok s

def rampingVersionStringUnversioned (v : String) : Bool := v = unversionedVersionId || v = ""

def validateStateBeforeAcceptingSetCurrent (s : LocalState) (args : SetCurrentVersionArgs) :
    Except UpdateError Unit :=
  if s.routingConfig.currentVersion = args.version ∧ s.lastModifierIdentity = args.identity then
    .error ⟨"errNoChange", "no change"⟩
  else if args.conflictToken.any (· ≠ s.conflictToken) then
    .error ⟨"FailedPrecondition", "conflict token mismatch"⟩
  else if args.version ∉ s.versions ∧ args.version ≠ unversionedVersionId ∧ !args.allowNoPollers then
    .error ⟨"Version not found in deployment",
      "version " ++ args.version ++ " not found in deployment"⟩
  else if s.managerIdentity ≠ "" ∧ s.managerIdentity ≠ args.identity then
    .error (errManagerIdentityMismatch s.managerIdentity args.identity)
  else .ok ()

def activateCurrent (s : LocalState) (version : String) (now : Time) : LocalState :=
  if version ≠ unversionedVersionId ∧ version ≠ "" then
    (s.syncVersion version { routingUpdateTime := now, currentSinceTime := now } true).setDrainageStatus
      version .unspecified now
  else s

/-- A version that was current or ramping is told that it is not any more, and drains. -/
def deactivate (s : LocalState) (version : String) (now : Time) : LocalState :=
  if version ≠ unversionedVersionId ∧ version ≠ "" then
    (s.syncVersion version { routingUpdateTime := now } false).setDrainageStatus version .draining now
  else s

/-- Go `handleSetCurrent`, with the previous version. -/
def handleSetCurrent (env : Env) (s : LocalState) (args : SetCurrentVersionArgs) :
    Except UpdateError (LocalState × String) := do
  s.validateStateBeforeAcceptingSetCurrent args
  let prevCurrentVersion := s.routingConfig.currentVersion
  let s ← s.addMissingVersion env args.version
    (args.version ≠ unversionedVersionId && args.allowNoPollers)
  if !args.ignoreMissingTaskQueues && prevCurrentVersion ≠ unversionedVersionId &&
      args.version ≠ unversionedVersionId && env.missingTaskQueues then
    .error (failedPrecondition ("proposed current version is missing active task queues from the " ++
      "current version; these would become unversioned if it is set as the current version"))
  else
    let s := (s.activateCurrent args.version env.now).deactivate prevCurrentVersion env.now
    let unsetRamp := args.version = s.routingConfig.rampingVersion
    let routingConfig : RoutingConfig :=
      { s.routingConfig with
        currentVersion := args.version
        currentVersionChangedTime := env.now
        rampingVersion := if unsetRamp then "" else s.routingConfig.rampingVersion
        rampingVersionPercentage := if unsetRamp then 0 else s.routingConfig.rampingVersionPercentage
        rampingVersionChangedTime :=
          if unsetRamp then env.now else s.routingConfig.rampingVersionChangedTime
        rampingVersionPercentageChangedTime :=
          if unsetRamp then env.now else s.routingConfig.rampingVersionPercentageChangedTime }
    return ({ s with
        routingConfig := routingConfig
        conflictToken := env.now
        lastModifierIdentity := args.identity }, prevCurrentVersion)

def validateStateBeforeAcceptingRampingUpdate (s : LocalState) (args : SetRampingVersionArgs) :
    Except UpdateError Unit :=
  if args.version = s.routingConfig.rampingVersion ∧
      args.percentage = s.routingConfig.rampingVersionPercentage ∧
      args.identity = s.lastModifierIdentity then
    .error ⟨"errNoChange", "version already ramping, no change"⟩
  else if args.conflictToken.any (· ≠ s.conflictToken) then
    .error ⟨"FailedPrecondition", "conflict token mismatch"⟩
  else if args.version = s.routingConfig.currentVersion ∧
      ¬ (args.version = unversionedVersionId ∧ args.percentage = 0) then
    .error ⟨"FailedPrecondition", "requested ramping version " ++ args.version ++ " is already current"⟩
  else if args.version ∉ s.versions ∧ args.version ≠ unversionedVersionId ∧ args.version ≠ "" ∧
      !args.allowNoPollers then
    .error ⟨"Version not found in deployment",
      "requested ramping version " ++ args.version ++ " not found in deployment"⟩
  else if s.managerIdentity ≠ "" ∧ s.managerIdentity ≠ args.identity then
    .error (errManagerIdentityMismatch s.managerIdentity args.identity)
  else .ok ()

/-- The ramp is taken away from the previous version. -/
def unsetRamp (s : LocalState) (prevRampingVersion : String) (now : Time) : LocalState :=
  let s :=
    if !rampingVersionStringUnversioned prevRampingVersion then
      s.syncVersion prevRampingVersion { routingUpdateTime := now } false
    else s
  s.setDrainageStatus prevRampingVersion .draining now

/-- The ramp is given to a version; a version that ramps already keeps the time since it does. -/
def setRamp (s : LocalState) (version : String) (percentage : Rat) (since : Option Time)
    (now : Time) : LocalState :=
  if !rampingVersionStringUnversioned version then
    s.syncVersion version
      { routingUpdateTime := now, rampingSinceTime := since, rampPercentage := percentage } true
  else s

/-- The ramp moves from the previous version, if there is one, to the new one, if there is one. -/
def moveRamp (s : LocalState) (prevRampingVersion version : String) (percentage : Rat)
    (since : Option Time) (now : Time) : LocalState :=
  if version = "" then s.unsetRamp prevRampingVersion now
  else
    let s :=
      if prevRampingVersion ≠ version then s.setDrainageStatus version .unspecified now else s
    let s := s.setRamp version percentage since now
    if prevRampingVersion ≠ "" ∧ prevRampingVersion ≠ version then s.unsetRamp prevRampingVersion now
    else s

/-- Go `handleSetRampingVersion`, with the previous version and percentage. -/
def handleSetRampingVersion (env : Env) (s : LocalState) (args : SetRampingVersionArgs) :
    Except UpdateError (LocalState × String × Rat) := do
  s.validateStateBeforeAcceptingRampingUpdate args
  let prevRampingVersion := s.routingConfig.rampingVersion
  let prevRampingVersionPercentage := s.routingConfig.rampingVersionPercentage
  let currentVersion := s.routingConfig.currentVersion
  let changed := prevRampingVersion ≠ args.version
  let s ← s.addMissingVersion env args.version
    (args.version ≠ unversionedVersionId && args.version ≠ "" && args.allowNoPollers)
  if args.version ≠ "" && changed && !args.ignoreMissingTaskQueues &&
      currentVersion ≠ unversionedVersionId && args.version ≠ unversionedVersionId &&
      env.missingTaskQueues then
    .error (failedPrecondition ("proposed ramping version is missing active task queues from the " ++
      "current version; these would become unversioned if it is set as the ramping version"))
  else
    let since := if changed then some env.now else s.routingConfig.rampingVersionChangedTime
    let s := s.moveRamp prevRampingVersion args.version args.percentage since env.now
    let routingConfig : RoutingConfig :=
      { s.routingConfig with
        rampingVersion := args.version
        rampingVersionPercentage := args.percentage
        rampingVersionChangedTime := if args.version = "" then some env.now else since
        rampingVersionPercentageChangedTime := env.now }
    return ({ s with
        routingConfig := routingConfig
        conflictToken := env.now
        lastModifierIdentity := args.identity }, prevRampingVersion, prevRampingVersionPercentage)

/-- Go `handleDeleteVersion`; as an update, its activity succeeds. -/
def handleDeleteVersion (s : LocalState) (args : DeleteVersionArgs) : Except UpdateError LocalState := do
  s.validateDeleteVersion args
  return s.deleteVersion args

def handleRegisterWorker (env : Env) (s : LocalState) (version : Option DeploymentVersion) :
    Except UpdateError LocalState :=
  s.addVersionToWorkerDeployment env (workerDeploymentVersionToStringV31 version) env.now

/-- Go `handleSetManager`, with the previous manager. -/
def handleSetManager (env : Env) (s : LocalState) (args : SetManagerIdentityArgs) :
    Except UpdateError (LocalState × String) :=
  if s.managerIdentity = args.managerIdentity ∧ s.lastModifierIdentity = args.identity then
    .error ⟨"errNoChange", "no change"⟩
  else if args.conflictToken.any (· ≠ s.conflictToken) then
    .error ⟨"FailedPrecondition", "conflict token mismatch"⟩
  else
    .ok ({ s with
        managerIdentity := args.managerIdentity
        lastModifierIdentity := args.identity
        conflictToken := env.now }, s.managerIdentity)

end LocalState

inductive Update where
  | setCurrent (args : SetCurrentVersionArgs)
  | setRamping (args : SetRampingVersionArgs)
  | deleteVersion (args : DeleteVersionArgs)
  | registerWorker (version : Option DeploymentVersion)
  | setManager (args : SetManagerIdentityArgs)

def updateStep (s : LocalState) : Env × Update → Except UpdateError LocalState
  | (env, .setCurrent args) => Prod.fst <$> s.handleSetCurrent env args
  | (env, .setRamping args) => Prod.fst <$> s.handleSetRampingVersion env args
  | (_, .deleteVersion args) => s.handleDeleteVersion args
  | (env, .registerWorker version) => s.handleRegisterWorker env version
  | (env, .setManager args) => Prod.fst <$> s.handleSetManager env args

/-!
## Version strings and workflow ids of worker deployments

Model of the strings of `common/worker_versioning/worker_versioning.go` that name a version. The parser of V31
strings also looks for the delimiter of V32, but takes the parts around it only if the string has both
delimiters: a V32 string without a `.` in its build id is refused (`colonOnly_refused`).
-/

open List

def workerDeploymentVersionToStringV32 : Option DeploymentVersion → String
  | none => ""
  | some v => v.deploymentName ++ ":" ++ v.buildId

def workerDeploymentVersionFromStringV32 (s : String) : Except UpdateError (Option (List Char × List Char)) :=
  if s = unversionedVersionId then .ok none
  else
    match cut ':' s.toList with
    | none => .error ⟨"", "expected delimiter ':' not found in version string " ++ s⟩
    | some (before, after) =>
      if before.length = 0 then .error ⟨"", "deployment name is empty in version string " ++ s⟩
      else if after.length = 0 then .error ⟨"", "build id is empty in version string " ++ s⟩
      else .ok (some (before, after))

def workerDeploymentWorkflowIDPrefix := "temporal-sys-worker-deployment"

def workerDeploymentVersionWorkflowIDPrefix := "temporal-sys-worker-deployment-version"

def generateDeploymentWorkflowID (deploymentName : String) : String :=
  workerDeploymentWorkflowIDPrefix ++ ":" ++ deploymentName

def getDeploymentNameFromWorkflowID (workflowID : String) : String :=
  String.ofList ((cut ':' workflowID.toList).elim [] (·.2))

def generateVersionWorkflowID (v : DeploymentVersion) : String :=
  workerDeploymentVersionWorkflowIDPrefix ++ ":" ++ workerDeploymentVersionToStringV32 v

variable {v w : DeploymentVersion} {d e : Char} {l r : List Char}

lemma cut_cons (hne : e ≠ d) : cut d (e :: r) = (cut d r).map fun p => (e :: p.1, p.2) := by
  by_cases hd : d ∈ r
  · simp [cut, hd, hne]
  · simp [cut, hd, hne.symm]

lemma cut_append (hl : d ∉ l) : cut d (l ++ r) = (cut d r).map fun p => (l ++ p.1, p.2) := by
  induction l with
  | nil => simp
  | cons e l ih =>
    obtain ⟨hne, hl⟩ := not_or.mp (mt mem_cons.mpr hl)
    rw [cons_append, cut_cons (Ne.symm hne), ih hl, Option.map_map]
    rfl

lemma cut_joined (hl : d ∉ l) : cut d (l ++ d :: r) = some (l, r) := by
  rw [cut_append hl]
  simp [cut]

lemma cut_other (hl : d ∉ l) (hne : e ≠ d) : cut d (l ++ e :: r) = (cut d r).map fun p => (l ++ e :: p.1, p.2) := by
  rw [cut_append hl, cut_cons hne, Option.map_map]
  rfl

namespace DeploymentVersion

abbrev stringV31 (v : DeploymentVersion) := workerDeploymentVersionToStringV31 v

abbrev stringV32 (v : DeploymentVersion) := workerDeploymentVersionToStringV32 v

structure Valid (v : DeploymentVersion) : Prop where
  name : v.deploymentName.toList ≠ []
  dot : '.' ∉ v.deploymentName.toList
  colon : ':' ∉ v.deploymentName.toList
  buildId : v.buildId.toList ≠ []

def parts (v : DeploymentVersion) : List Char × List Char := (v.deploymentName.toList, v.buildId.toList)

/-- The strings and ids of a version stand for it and for nothing else. -/
structure Named (v : DeploymentVersion) : Prop where
  v31 : workerDeploymentVersionFromStringV31 v.stringV31 = .ok (some v.parts)
  v32_as_v31 : workerDeploymentVersionFromStringV31 v.stringV32 = .ok (some v.parts)
  v32 : workerDeploymentVersionFromStringV32 v.stringV32 = .ok (some v.parts)
  apart : ∀ w : DeploymentVersion, w.Valid → w ≠ v → w.stringV31 ≠ v.stringV31 ∧ w.stringV32 ≠ v.stringV32 ∧
    generateVersionWorkflowID w ≠ generateVersionWorkflowID v
  deployment : ∀ name, generateVersionWorkflowID v ≠ generateDeploymentWorkflowID name ∧
    getDeploymentNameFromWorkflowID (generateDeploymentWorkflowID name) = name

lemma stringV31_toList (v : DeploymentVersion) :
    v.stringV31.toList = v.deploymentName.toList ++ '.' :: v.buildId.toList := by
  simp [workerDeploymentVersionToStringV31]

lemma stringV32_toList (v : DeploymentVersion) :
    v.stringV32.toList = v.deploymentName.toList ++ ':' :: v.buildId.toList := by
  simp [workerDeploymentVersionToStringV32]

lemma ne_unversioned {s : String} (h : '.' ∈ s.toList ∨ ':' ∈ s.toList) : s ≠ unversionedVersionId := by
  rintro rfl
  revert h
  decide

lemma cut_workflowID {kind : String} (hkind : ':' ∉ kind.toList) (rest : String) :
    cut ':' (kind ++ ":" ++ rest).toList = some (kind.toList, rest.toList) := by
  simp [cut_joined hkind]

lemma cut_versionWorkflowID (v : DeploymentVersion) : cut ':' (generateVersionWorkflowID v).toList =
    some (workerDeploymentVersionWorkflowIDPrefix.toList, v.stringV32.toList) :=
  cut_workflowID (by decide +kernel) _

lemma cut_deploymentWorkflowID (name : String) : cut ':' (generateDeploymentWorkflowID name).toList =
    some (workerDeploymentWorkflowIDPrefix.toList, name.toList) :=
  cut_workflowID (by decide +kernel) _

lemma parts_inj (h : w.parts = v.parts) : w = v := by
  cases v
  cases w
  simpa [parts, String.toList_inj] using h

namespace Valid

variable (h : v.Valid)

include h

lemma cut_v31 : cut '.' v.stringV31.toList = some v.parts := by
  rw [stringV31_toList, cut_joined h.dot, parts]

lemma cut_v32 : cut ':' v.stringV32.toList = some v.parts := by
  rw [stringV32_toList, cut_joined h.colon, parts]

/-- A colon in the build id comes after the dot. -/
lemma fromStringV31_v31 : workerDeploymentVersionFromStringV31 v.stringV31 = .ok (some v.parts) := by
  have hne := ne_unversioned (s := v.stringV31) (by simp [stringV31_toList])
  rw [workerDeploymentVersionFromStringV31, if_neg hne, h.cut_v31, stringV31_toList, cut_other h.colon (by decide)]
  cases cut ':' v.buildId.toList with
  | none => simp [parts, h.name, h.buildId]
  | some p =>
    have hlen : ¬ (v.deploymentName.toList ++ '.' :: p.1).length < v.deploymentName.toList.length := by simp
    simp [parts, h.name, h.buildId, -length_append, hlen]

lemma fromStringV32_v32 : workerDeploymentVersionFromStringV32 v.stringV32 = .ok (some v.parts) := by
  have hne := ne_unversioned (s := v.stringV32) (by simp [stringV32_toList])
  rw [workerDeploymentVersionFromStringV32, if_neg hne, h.cut_v32]
  simp [parts, h.name, h.buildId]

/-- The parts around the colon are taken if there is a dot too. -/
lemma fromStringV31_v32 : workerDeploymentVersionFromStringV31 v.stringV32 =
      if '.' ∈ v.buildId.toList then .ok (some v.parts)
      else .error ⟨"", "build id is empty in version string " ++ v.stringV32⟩ := by
  have hne := ne_unversioned (s := v.stringV32) (by simp [stringV32_toList])
  rw [workerDeploymentVersionFromStringV31, if_neg hne, h.cut_v32, stringV32_toList, cut_other h.dot (by decide)]
  by_cases hmem : '.' ∈ v.buildId.toList
  · simp [cut, hmem, parts, h.name, h.buildId]
  · simp [cut, hmem]

lemma apart (hw : w.Valid) (hne : w ≠ v) : w.stringV31 ≠ v.stringV31 ∧ w.stringV32 ≠ v.stringV32 ∧
    generateVersionWorkflowID w ≠ generateVersionWorkflowID v := by
  have hv32 : w.stringV32 ≠ v.stringV32 := by
    intro heq
    have hcut := hw.cut_v32
    rw [heq, h.cut_v32] at hcut
    exact hne (parts_inj (Option.some.inj hcut).symm)
  refine ⟨fun heq => ?_, hv32, fun heq => hv32 ?_⟩
  · have hcut := hw.cut_v31
    rw [heq, h.cut_v31] at hcut
    exact hne (parts_inj (Option.some.inj hcut).symm)
  · have hcut := cut_versionWorkflowID w
    rw [heq, cut_versionWorkflowID] at hcut
    exact String.toList_inj.mp (Prod.mk.inj (Option.some.inj hcut)).2.symm

end Valid

/-- Strings and ids stand for their version exactly if its build id has a dot. -/
theorem named_iff (h : v.Valid) : v.Named ↔ '.' ∈ v.buildId.toList := by
  have hv32 := h.fromStringV31_v32
  constructor
  · intro hv
    by_contra hdot
    rw [hv.v32_as_v31, if_neg hdot] at hv32
    cases hv32
  intro hdot
  refine ⟨h.fromStringV31_v31, by rw [hv32, if_pos hdot], h.fromStringV32_v32, fun w hw => h.apart hw, ?_⟩
  intro name
  refine ⟨fun heq => ?_, by simp [getDeploymentNameFromWorkflowID, cut_deploymentWorkflowID]⟩
  have hcut := cut_versionWorkflowID v
  rw [heq, cut_deploymentWorkflowID] at hcut
  have hkinds : workerDeploymentWorkflowIDPrefix.toList ≠ workerDeploymentVersionWorkflowIDPrefix.toList := by
    decide +kernel
  exact hkinds (Prod.mk.inj (Option.some.inj hcut)).1

theorem named_iff_dotted : Valid ⟨"app", "1.0"⟩ ∧ Named ⟨"app", "1.0"⟩ := by
  have h : Valid ⟨"app", "1.0"⟩ := by constructor <;> decide
  exact ⟨h, (named_iff h).mpr (by decide)⟩

/-- The V32 string of a valid version, given to the parser of V31. -/
theorem colonOnly_refused : Valid ⟨"app", "build"⟩ ∧
    workerDeploymentVersionToStringV32 (some ⟨"app", "build"⟩) = "app:build" ∧
    workerDeploymentVersionFromStringV31 "app:build" =
      .error ⟨"", "build id is empty in version string app:build"⟩ := by
  refine ⟨by constructor <;> decide, by decide, ?_⟩
  rfl

end DeploymentVersion

end FastOrchestration.WorkerDeployment
