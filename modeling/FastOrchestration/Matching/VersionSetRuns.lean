import FastOrchestration.Matching.MergeRequest

/-!
# Runs on version sets

The version sets of a task queue over any sequence of requests, removals, clean-ups, unknown build ids
and merges with another replica.

The invariants do not survive all of them. A set keeps the set id made from a build id after that
build id was removed and cleaned up, as long as another build id is in the set. When the build id comes
back, its new set has the same set id (`returningBuildId_sharesSetId`). Unknown build ids come with the
zero time of a cluster, which is not before the zero time of a smaller cluster id, and merges can meet
chains. `Permitted` leaves these out.
-/

namespace FastOrchestration.Matching

inductive VersionOp where
  | updateVersionSets (ch : Choices) (req : UpdateRequest) (maxSets maxBuildIds : Int)
  | removeBuildIds (buildIds : List String)
  | clearTombstones
  | persistUnknownBuildId (buildId : String)
  | mergeVersioningData (ch : Choices) (incoming : Option VersioningData)

/-- One change of the data, with its clock. A request that fails changes nothing. -/
def applyOp (hashBuildId : String → String) (data : Option VersioningData) (op : Clock × VersionOp) :
    Option VersioningData :=
  let onSets (f : List VersionSet → List VersionSet) : Option VersioningData :=
    some { data.getD .empty with versionSets := f (setsOf data) }
  match op.2 with
  | .updateVersionSets ch req maxSets maxBuildIds =>
    match updateVersionSets hashBuildId op.1 ch data req maxSets maxBuildIds with
    | .ok new => some new
    | .error _ => data
  | .removeBuildIds buildIds => onSets fun sets => removeBuildIds op.1 sets buildIds
  | .clearTombstones => onSets clearTombstones
  | .persistUnknownBuildId buildId =>
    onSets fun sets => persistUnknownBuildId hashBuildId op.1 sets buildId
  | .mergeVersioningData ch incoming => mergeVersioningData ch data incoming

def versionStep (hashBuildId : String → String) (data : Option VersioningData)
    (op : Clock × VersionOp) : Except Empty (Option VersioningData) :=
  .ok (applyOp hashBuildId data op)

/-- What a change needs of the data: its clock is later than all times there, a set id that is made
belongs to its build id, the zero time is the earliest, and no merge meets a chain or equal times. -/
def Permitted (hashBuildId : String → String) (data : Option VersioningData) (op : Clock × VersionOp) : Prop :=
  Later op.1 (setsOf data) ∧
  match op.2 with
  | .updateVersionSets _ (.addNewBuildIdInNewDefaultSet v) _ _ => SetIdFree hashBuildId (setsOf data) v
  | .updateVersionSets _ (.mergeSets _ _) _ _ => TimesDistinct (setsOf data)
  | .persistUnknownBuildId v => SetIdFree hashBuildId (setsOf data) v ∧
      ∀ s ∈ setsOf data, Clock.zero op.1.clusterId ≤ s.becameDefaultTimestamp
  | .mergeVersioningData _ incoming => SetsInv (setsOf incoming) ∧ MergeUnchained data incoming
  | _ => True

instance (hashBuildId : String → String) (data : Option VersioningData) (op : Clock × VersionOp) :
    Decidable (Permitted hashBuildId data op) := by
  unfold Permitted
  split <;> infer_instance

/-- The request has made its target the default, and all else is in the order in which it was. -/
def Fulfils (req : UpdateRequest) (old new : List VersionSet) : Prop :=
  match req with
  | .addNewBuildIdInNewDefaultSet v => v ≠ "" → ∃ s', s'.ids = [v] ∧ AtEnd v s' old new
  | .addNewCompatibleBuildId v compatVer makeSetDefault => ∃ s ∈ old, compatVer ∈ s.ids ∧ ∃ s', MadeDefault v s s' ∧
        if makeSetDefault then AtEnd compatVer s' old new else InPlace compatVer s' old new
  | .promoteSetByBuildId v => v ≠ "" → ∃ s ∈ old, v ∈ s.ids ∧
      ∃ s', s'.buildIds = s.buildIds ∧ s'.setIds = s.setIds ∧ AtEnd v s' old new
  | .promoteBuildIdWithinSet v => v ≠ "" → ∃ s ∈ old, v ∈ s.ids ∧ ∃ s', MadeDefault v s s' ∧ InPlace v s' old new
  | .mergeSets primary secondary => ∃ s ∈ old, primary ∈ s.ids ∧ ∃ t ∈ old, secondary ∈ t.ids ∧
      ((s = t ∧ new = old) ∨ (s ≠ t ∧ ∃ u, UnitedWith primary secondary s t old new u))

section Runs

variable {hashBuildId : String → String} {data : Option VersioningData} {timestamp : Clock}

lemma checkVersionSetLimits_ok {data new maxSets maxBuildIds}
    (h : checkVersionSetLimits data maxSets maxBuildIds = .ok new) : new = data := by
  unfold checkVersionSetLimits at h
  dsimp only at h
  split at h
  · cases h
  split at h
  · cases h
  · exact (Except.ok.inj h).symm

lemma request_ok {v : String} {data new : VersioningData} {x : Except UpdateError (List VersionSet)}
    {P : List VersionSet → Prop} (h : SetsInv data.versionSets)
    (hx : ∀ {sets}, x = .ok sets → SetsInv sets ∧ P sets)
    (hok : (if v = "" then .ok data else (fun sets => { data with versionSets := sets }) <$> x) = .ok new) :
    SetsInv new.versionSets ∧ (v ≠ "" → P new.versionSets) := by
  split at hok
  · next hempty =>
    cases hok
    exact ⟨h, fun hne => absurd hempty hne⟩
  obtain ⟨sets, hsets, rfl⟩ := Lib.map_ok hok
  exact ⟨(hx hsets).1, fun _ => (hx hsets).2⟩

lemma updateVersionSets_ok {ch req maxSets maxBuildIds} {new : VersioningData} (h : SetsInv (setsOf data))
    (hp : Permitted hashBuildId data (timestamp, .updateVersionSets ch req maxSets maxBuildIds))
    (hok : updateVersionSets hashBuildId timestamp ch data req maxSets maxBuildIds = .ok new) :
    SetsInv new.versionSets ∧ Fulfils req (setsOf data) new.versionSets := by
  obtain ⟨hlater, hcond⟩ := hp
  obtain ⟨changed, hchanged, hlimits⟩ := Lib.bind_ok hok
  rw [checkVersionSetLimits_ok hlimits]
  cases req with
  | addNewBuildIdInNewDefaultSet v => exact request_ok h (addNewDefaultSet_ok h hlater hcond) hchanged
  | addNewCompatibleBuildId v compatVer makeSetDefault =>
    obtain ⟨sets, hsets, rfl⟩ := Lib.map_ok hchanged
    exact addNewCompatible_ok h hlater hsets
  | promoteSetByBuildId v => exact request_ok h (promoteSet_ok h hlater) hchanged
  | promoteBuildIdWithinSet v => exact request_ok h (promoteWithinSet_ok h hlater) hchanged
  | mergeSets primary secondary =>
    obtain ⟨hinv, hful⟩ := mergeSetsRequest_ok ch h hlater hchanged
    obtain ⟨s, hs, hps, t, ht, hst, hcases⟩ := hful hcond
    refine ⟨hinv, s, hs, hps, t, ht, hst, ?_⟩
    obtain ⟨heq, hnew⟩ | hne := hcases
    · exact .inl ⟨heq, congrArg VersioningData.versionSets hnew⟩
    · exact .inr hne

lemma mergeVersioningData_inv (ch : Choices) {incoming}
    (h : SetsInv (setsOf data)) (hincoming : SetsInv (setsOf incoming))
    (hun : MergeUnchained data incoming) : SetsInv (setsOf (mergeVersioningData ch data incoming)) := by
  cases data with
  | none => exact hincoming
  | some data =>
    cases incoming with
    | none => exact h
    | some incoming =>
      refine mergedSets_inv ch hun fun s hs => ?_
      obtain hs | hs := List.mem_append.mp hs
      · exact h.setIds s hs
      · exact hincoming.setIds s hs

lemma applyOp_inv {op} (h : SetsInv (setsOf data))
    (hp : Permitted hashBuildId data op) : SetsInv (setsOf (applyOp hashBuildId data op)) := by
  obtain ⟨timestamp, op⟩ := op
  cases op with
  | updateVersionSets ch req maxSets maxBuildIds =>
    simp only [applyOp]
    split
    · rename_i new hok
      exact (updateVersionSets_ok h hp hok).1
    · exact h
  | removeBuildIds buildIds => exact removeBuildIds_inv h buildIds
  | clearTombstones => exact clearTombstones_inv h
  | persistUnknownBuildId v => exact persistUnknownBuildId_inv h hp.2.1 hp.2.2
  | mergeVersioningData ch incoming => exact mergeVersioningData_inv ch h hp.2.1 hp.2.2

end Runs

/-- In a run of permitted changes, all states have unique build ids and set ids in their order, each
permitted request that succeeds is fulfilled, and one that fails leaves the data as it was. -/
theorem versionSets_kept (hashBuildId : String → String) (ops : List (Clock × VersionOp)) (data : Option VersioningData)
    (hops : Lib.Along (Permitted hashBuildId) (versionStep hashBuildId) none ops)
    (hrun : Lib.run (versionStep hashBuildId) none ops = .ok data) :
    SetsInv (setsOf data) ∧
    ∀ timestamp ch req maxSets maxBuildIds,
      (∀ new, Permitted hashBuildId data (timestamp, .updateVersionSets ch req maxSets maxBuildIds) →
        updateVersionSets hashBuildId timestamp ch data req maxSets maxBuildIds = .ok new →
        applyOp hashBuildId data (timestamp, .updateVersionSets ch req maxSets maxBuildIds) = some new ∧
        Fulfils req (setsOf data) new.versionSets) ∧
      ∀ err, updateVersionSets hashBuildId timestamp ch data req maxSets maxBuildIds = .error err →
        applyOp hashBuildId data (timestamp, .updateVersionSets ch req maxSets maxBuildIds) = data := by
  have hempty : SetsInv (setsOf none) := setsInv_iff.mpr ⟨nofun, .nil⟩
  have hinv : SetsInv (setsOf data) := by
    refine hops.inv (I := fun data => SetsInv (setsOf data)) (fun data op data' h hp hstep => ?_) hempty hrun
    cases hstep
    exact applyOp_inv h hp
  refine ⟨hinv, fun timestamp ch req maxSets maxBuildIds => ⟨fun new hp hok => ⟨?_, ?_⟩, fun err herr => ?_⟩⟩
  · simp only [applyOp, hok]
  · exact (updateVersionSets_ok hinv hp hok).2
  · simp only [applyOp, herr]

def clockAt (time : Int) : Clock := ⟨time, 0, 1⟩

def updateAt (time : Int) (req : UpdateRequest) : Clock × VersionOp :=
  (clockAt time, .updateVersionSets insertionOrder req 0 0)

/-- Sets are made and promoted, an unknown build id is persisted, its set is merged into another, a build
id is removed and its tombstone cleared, and the data of a replica are merged. -/
def growth : List (Clock × VersionOp) :=
  [updateAt 1 (.addNewBuildIdInNewDefaultSet "v"), updateAt 2 (.addNewCompatibleBuildId "w" "v" false),
    updateAt 3 (.addNewBuildIdInNewDefaultSet "x"), updateAt 4 (.promoteSetByBuildId "v"),
    (clockAt 5, .persistUnknownBuildId "u"), updateAt 6 (.mergeSets "v" "u"),
    (clockAt 7, .removeBuildIds ["x"]), (clockAt 8, .clearTombstones),
    (clockAt 10, .mergeVersioningData insertionOrder
      (applyOp id none (updateAt 9 (.addNewBuildIdInNewDefaultSet "y"))))]

theorem versionSets_kept_growth : ∃ data, Lib.run (versionStep id) none growth = .ok data ∧ SetsInv (setsOf data) ∧
      (setsOf data).map (·.ids) = [["u", "v", "w"], ["y"]] := by
  obtain ⟨data, hrun, hids⟩ : ∃ data, Lib.run (versionStep id) none growth = .ok data ∧
      (setsOf data).map (·.ids) = [["u", "v", "w"], ["y"]] := by decide +kernel
  exact ⟨data, hrun, (versionSets_kept id growth data (by decide +kernel) hrun).1, hids⟩

def returning : List (Clock × VersionOp) :=
  [updateAt 1 (.addNewBuildIdInNewDefaultSet "v"), updateAt 2 (.addNewCompatibleBuildId "w" "v" false),
    (clockAt 3, .removeBuildIds ["v"]), (clockAt 4, .clearTombstones),
    updateAt 5 (.addNewBuildIdInNewDefaultSet "v")]

/-- The set of a removed build id keeps the set id made from it, and the build id gets a new set with
that set id when it comes back. -/
theorem returningBuildId_sharesSetId : Function.Injective (id : String → String) ∧
    ∃ data, Lib.run (versionStep id) none returning = .ok data ∧
      (setsOf data).map (fun s => (s.setIds, s.ids)) = [(["v"], ["w"]), (["v"], ["v"])] ∧
      ¬ SetsInv (setsOf data) := by
  exact ⟨Function.injective_id, by decide +kernel⟩

/-! ## The rules beside the sets -/

def JoinsSets (sets : List VersionSet) : UpdateRequest → Prop
  | .mergeSets primary secondary =>
    (findBuildId sets primary).map (·.1) ≠ (findBuildId sets secondary).map (·.1)
  | _ => False

instance (sets : List VersionSet) (req : UpdateRequest) : Decidable (JoinsSets sets req) := by
  unfold JoinsSets
  split <;> infer_instance

def rulesOf (data : VersioningData) : List AssignmentRule × List RedirectRule :=
  (data.assignmentRules, data.redirectRules)

/-- The merge request takes what `MergeVersioningData` returns as the data, which has no rules. -/
lemma updateVersionSetImpl_rules {hashBuildId timestamp ch} {data new : VersioningData} {req}
    (hok : updateVersionSetImpl hashBuildId timestamp ch data req = .ok new) :
    rulesOf new = if JoinsSets data.versionSets req then ([], []) else rulesOf data := by
  cases req with
  | addNewBuildIdInNewDefaultSet v | promoteSetByBuildId v | promoteBuildIdWithinSet v =>
    simp only [updateVersionSetImpl] at hok
    split at hok
    · cases hok
      rfl
    · obtain ⟨sets, -, rfl⟩ := Lib.map_ok hok
      rfl
  | addNewCompatibleBuildId v compatVer makeSetDefault =>
    obtain ⟨sets, -, rfl⟩ := Lib.map_ok hok
    rfl
  | mergeSets primary secondary =>
    simp only [updateVersionSetImpl, mergeSetsRequest] at hok
    split at hok
    · cases hok
    rename_i targetSetIdx _ htarget
    split at hok
    · cases hok
    rename_i secondarySetIdx _ hsecondary
    split at hok
    · rename_i heq
      cases hok
      exact (if_neg (by simp [JoinsSets, htarget, hsecondary, heq])).symm
    rename_i hne
    cases hok
    exact (if_pos (by simp [JoinsSets, htarget, hsecondary, hne])).symm

/-- A request that succeeds keeps the rules, unless it merges two different sets and there are some. -/
theorem updateVersionSets_keepsRules (hashBuildId : String → String) (timestamp : Clock) (ch : Choices)
    (data : Option VersioningData) (req : UpdateRequest) (maxSets maxBuildIds : Int) (new : VersioningData)
    (hok : updateVersionSets hashBuildId timestamp ch data req maxSets maxBuildIds = .ok new) :
    let old := data.getD .empty
    (new.assignmentRules = old.assignmentRules ∧ new.redirectRules = old.redirectRules) ↔
      (JoinsSets old.versionSets req → old.assignmentRules = [] ∧ old.redirectRules = []) := by
  intro old
  obtain ⟨changed, hchanged, hlimits⟩ := Lib.bind_ok hok
  have hrules := updateVersionSetImpl_rules hchanged
  rw [checkVersionSetLimits_ok hlimits]
  split at hrules
  · rename_i hjoins
    obtain ⟨ha, hr⟩ := Prod.mk.inj hrules
    rw [ha, hr]
    exact ⟨fun h _ => ⟨h.1.symm, h.2.symm⟩, fun h => ⟨(h hjoins).1.symm, (h hjoins).2.symm⟩⟩
  rename_i hkeeps
  obtain ⟨ha, hr⟩ := Prod.mk.inj hrules
  exact ⟨fun _ hjoins => absurd hjoins hkeeps, fun _ => ⟨ha, hr⟩⟩

def setsAndRules : VersioningData :=
  ⟨[newSet id (clockAt 1) "v", newSet id (clockAt 2) "w"],
    [⟨⟨"x", some 100⟩, clockAt 3, none⟩], [⟨⟨"y", "x"⟩, clockAt 4, none⟩]⟩

theorem updateVersionSets_keepsRules_promoted :
    ∃ new, updateVersionSets id (clockAt 5) insertionOrder (some setsAndRules)
        (.promoteSetByBuildId "v") 0 0 = .ok new ∧
      new.assignmentRules = setsAndRules.assignmentRules ∧
      new.redirectRules = setsAndRules.redirectRules := by
  obtain ⟨new, hok, -⟩ : ∃ new, updateVersionSets id (clockAt 5) insertionOrder (some setsAndRules)
      (.promoteSetByBuildId "v") 0 0 = .ok new ∧ new.versionSets.map (·.ids) = [["w"], ["v"]] := by
    decide +kernel
  exact ⟨new, hok, (updateVersionSets_keepsRules id (clockAt 5) insertionOrder (some setsAndRules)
    (.promoteSetByBuildId "v") 0 0 new hok).mpr fun hjoins => hjoins.elim⟩

/-- Merging the two sets deletes both rules. -/
theorem mergedSets_loseRules :
    ∃ new, updateVersionSets id (clockAt 5) insertionOrder (some setsAndRules) (.mergeSets "v" "w") 0 0 = .ok new ∧
      new.versionSets.map (·.ids) = [["w", "v"]] ∧
      new.assignmentRules = [] ∧ new.redirectRules = [] ∧ setsAndRules.assignmentRules ≠ [] := by
  decide +kernel

end FastOrchestration.Matching
