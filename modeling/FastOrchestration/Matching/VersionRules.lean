import FastOrchestration.Lib.CycleSearch
import FastOrchestration.Lib.Run
import FastOrchestration.Matching.VersioningData

/-!
# Versioning rules

Model of `service/matching/version_rule_helpers.go`: the operations on assignment and redirect rules,
and the two ways in which redirect rules are followed. A deleted rule stays in the data with its
`deleteTimestamp` until `CleanupRuleTombstones` drops it.

`isCyclic` ranges over a Go map of edges, so it takes the order of the keys as an argument. The loops
that Go does not bound (`dfs`, `getUpstreamHelper` and `FindRedirectBuildId`) run on fuel here, and
answer `none` when it runs out; with the fuel that the callers give, `dfs` and `getUpstreamHelper` never
do.
-/

namespace FastOrchestration.Matching

open VersioningData (isInVersionSets)

def unversionedBuildId : String := ""

/-- The errors of a rule update, with what their messages say. -/
inductive RuleError where
  | invalidNegativeIndex
  | invalidRampPercentage
  | targetIsVersionSetMember
  | sourceIsVersionSetMember
  | partiallyRampedAssignmentRuleIsRedirectRuleSource
  | assignmentRuleIndexOutOfBounds (idx : Int) (length : Nat)
  | sourceIsPartiallyRampedAssignmentRuleTarget
  | sourceAlreadyExists (source target : String)
  | sourceNotFound (source : String)
  | noRecentPollerOnCommitVersion (target : String)
  | exceedsMaxAssignmentRules (cnt : Nat) (max : Int)
  | requireFullyRampedAssignmentRule
  | exceedsMaxRedirectRules (cnt : Nat) (max : Int)
  | isCyclic
  | exceedsMaxUpstreamBuildIDs (cnt : Nat) (max : Int)
  | unversionedRedirectRuleTarget
  deriving DecidableEq

/-- An order in which a Go map is iterated over. -/
structure KeyOrder where
  order : List String → List String
  perm : ∀ keys, (order keys).Perm keys

def cloneOrMkData (data : Option VersioningData) : VersioningData := data.getD .empty

/-! ## Assignment rules -/

def AssignmentRule.isActive (ar : AssignmentRule) : Bool := ar.deleteTimestamp.isNone

def getActiveAssignmentRules (rules : List AssignmentRule) : List AssignmentRule :=
  rules.filter (·.isActive)

def handleAssignmentRuleNilRamp (rule : BuildIdAssignmentRule) : BuildIdAssignmentRule :=
  { rule with ramp := some (rule.ramp.getD 100) }

def hasValidRamp (rule : BuildIdAssignmentRule) : Bool :=
  rule.ramp.all fun percentage => 0 ≤ percentage ∧ percentage ≤ 100

def isFullyRamped (rule : BuildIdAssignmentRule) : Bool :=
  rule.ramp.all fun percentage => percentage = 100

def containsFullyRamped (rules : List AssignmentRule) : Bool := rules.any fun r => isFullyRamped r.rule

def isPartiallyRampedAssignmentRuleTarget (buildID : String) (rules : List AssignmentRule) : Bool :=
  (getActiveAssignmentRules rules).any fun r =>
    !isFullyRamped r.rule && buildID = r.rule.targetBuildId

/-- Go `given2ActualIdx`: the given index counts active rules only. -/
def given2ActualIdx (idx : Int) : List AssignmentRule → Option Nat
  | [] => none
  | rule :: rules =>
    if rule.isActive then
      if idx = 0 then some 0 else (given2ActualIdx (idx - 1) rules).map (· + 1)
    else (given2ActualIdx idx rules).map (· + 1)

def checkAssignmentConditions (data : VersioningData) (maxARs : Int) (requireFullyRamped : Bool) :
    Except RuleError VersioningData :=
  let activeRules := getActiveAssignmentRules data.assignmentRules
  if maxARs > 0 ∧ activeRules.length > maxARs then
    .error (.exceedsMaxAssignmentRules activeRules.length maxARs)
  else if requireFullyRamped && !containsFullyRamped activeRules then
    .error .requireFullyRampedAssignmentRule
  else .ok data

/-- Go `calcRampThreshold`; the hash of the id and what `rand.Float64` returns are arguments. -/
def calcRampThreshold (fingerprint32 : String → BitVec 32) (random : ℚ) (id : String) : ℚ :=
  if id = "" then random else 100 * ((fingerprint32 id).toNat / 2 ^ 32)

/-- The loop of Go `FindAssignmentBuildId`; the threshold is -1 until a partially ramped rule needs it. -/
def assignLoop (calculated : ℚ) (rampThreshold : ℚ) : List AssignmentRule → String
  | [] => ""
  | r :: rules =>
    if !r.isActive then assignLoop calculated rampThreshold rules
    else if isFullyRamped r.rule then r.rule.targetBuildId
    else
      let rampThreshold := if rampThreshold = -1 then calculated else rampThreshold
      if r.rule.ramp.getD 0 ≤ rampThreshold then assignLoop calculated rampThreshold rules
      else r.rule.targetBuildId

def findAssignmentBuildId (fingerprint32 : String → BitVec 32) (random : ℚ) (rules : List AssignmentRule)
    (runId : String) : String :=
  assignLoop (calcRampThreshold fingerprint32 random runId) (-1) rules

/-! ## Redirect rules -/

namespace RedirectRule

def source (r : RedirectRule) : String := r.rule.sourceBuildId

def target (r : RedirectRule) : String := r.rule.targetBuildId

def isActive (r : RedirectRule) : Bool := r.deleteTimestamp.isNone

end RedirectRule

def getActiveRedirectRules (rules : List RedirectRule) : List RedirectRule := rules.filter (·.isActive)

def isActiveRedirectRuleSource (buildID : String) (rules : List RedirectRule) : Bool :=
  (getActiveRedirectRules rules).any fun r => buildID = r.source

/-- The edge map of Go `isCyclic`. -/
def edges (rules : List RedirectRule) (node : String) : List String :=
  (rules.filter fun r => r.source = node).map (·.target)

/-- The loop of Go `isCyclic` over the keys of the edge map. -/
def searchCycle (o : KeyOrder) (rules : List RedirectRule) : Option Bool :=
  Lib.cyclic (edges rules) (2 * rules.length + 1) (o.order (rules.map (·.source)).dedup) fun _ => false

def isCyclic (o : KeyOrder) (rules : List RedirectRule) : Bool := (searchCycle o rules).getD false

def getSourcesForTarget (buildId : String) (rules : List RedirectRule) : List String :=
  (rules.filter fun r => r.target = buildId).map (·.source)

/-- The loop of Go `getUpstreamHelper` over the direct sources. -/
def upstreamLoop (helper : String → (String → Bool) → Option (List String × (String → Bool))) :
    List String → (String → Bool) → Option (List String × (String → Bool))
  | [], visited => some ([], visited)
  | src :: srcs, visited =>
    if visited src then upstreamLoop helper srcs visited
    else do
      let (above, visited) ← helper src visited
      let (rest, visited) ← upstreamLoop helper srcs visited
      return (src :: above ++ rest, visited)

def getUpstreamHelper (rules : List RedirectRule) :
    Nat → String → (String → Bool) → Option (List String × (String → Bool))
  | 0, _, _ => none
  | fuel + 1, buildId, visited => do
    let (upstream, visited) ← upstreamLoop (getUpstreamHelper rules fuel)
      (getSourcesForTarget buildId rules) (Function.update visited buildId true)
    return (upstream.dedup, visited)

def getUpstreamBuildIds (buildId : String) (rules : List RedirectRule) : List String :=
  ((getUpstreamHelper rules (rules.length + 1) buildId fun _ => false).map (·.1)).getD []

/-- The first of the rules with too many build ids upstream of its target. -/
def checkUpstream (activeRules : List RedirectRule) (maxUpstreamBuildIds : Int) :
    Option RuleError :=
  activeRules.findSome? fun r =>
    let upstream := getUpstreamBuildIds r.target activeRules
    if upstream.length > maxUpstreamBuildIds then
      some (.exceedsMaxUpstreamBuildIDs upstream.length maxUpstreamBuildIds)
    else none

def checkRedirectConditions (o : KeyOrder) (data : VersioningData) (maxRRs maxUpstreamBuildIds : Int) :
    Except RuleError VersioningData :=
  let activeRules := getActiveRedirectRules data.redirectRules
  if maxRRs > 0 ∧ activeRules.length > maxRRs then
    .error (.exceedsMaxRedirectRules activeRules.length maxRRs)
  else if isCyclic o activeRules then .error .isCyclic
  else
    match checkUpstream activeRules maxUpstreamBuildIds with
    | some e => .error e
    | none => .ok data

/-! ## Following redirect rules -/

def hop (rules : List RedirectRule) (buildID : String) : Option String :=
  (rules.find? fun r => r.source = buildID).map (·.target)

/-- Go `findTerminalBuildId`, with its limit on the number of rounds. -/
def findTerminalBuildId (buildID : String) (activeRedirectRules : List RedirectRule) : String :=
  (Lib.follow (hop activeRedirectRules) (activeRedirectRules.length + 1) buildID).getD ""

/-- The inner loop of Go `FindRedirectBuildId`, which skips deleted rules. -/
def activeHop : List RedirectRule → String → Option String
  | [], _ => none
  | r :: rules, sourceBuildId =>
    if !r.isActive then activeHop rules sourceBuildId
    else if r.source = sourceBuildId then some r.target
    else activeHop rules sourceBuildId

/-- Go `FindRedirectBuildId`, which has no limit on the number of rounds. -/
def findRedirectBuildId (fuel : Nat) (sourceBuildId : String) (rules : List RedirectRule) :
    Option String :=
  Lib.follow (activeHop rules) fuel sourceBuildId

/-! ## Updates -/

def deleteSource (timestamp : Clock) (source : String) : List RedirectRule → List RedirectRule
  | [] => []
  | r :: rules =>
    if r.isActive ∧ r.source = source then { r with deleteTimestamp := some timestamp } :: rules
    else r :: deleteSource timestamp source rules

section

variable (timestamp : Clock) (data : Option VersioningData)

/-- What inserting and replacing an assignment rule check first. -/
def checkAssignmentTarget (rule : BuildIdAssignmentRule) (data : VersioningData) :
    Except RuleError Unit :=
  if !hasValidRamp rule then .error .invalidRampPercentage
  else if isInVersionSets rule.targetBuildId data.versionSets then .error .targetIsVersionSetMember
  else if !isFullyRamped rule && isActiveRedirectRuleSource rule.targetBuildId data.redirectRules then
    .error .partiallyRampedAssignmentRuleIsRedirectRuleSource
  else .ok ()

def insertAssignmentRule (ruleIndex : Int) (rule : BuildIdAssignmentRule) (maxAssignmentRules : Int) :
    Except RuleError VersioningData :=
  if ruleIndex < 0 then .error .invalidNegativeIndex
  else do
    let rule := handleAssignmentRuleNilRamp rule
    let data := cloneOrMkData data
    checkAssignmentTarget rule data
    let rules := data.assignmentRules
    let persistenceAR : AssignmentRule := ⟨rule, timestamp, none⟩
    let inserted :=
      match given2ActualIdx ruleIndex rules with
      | none => rules ++ [persistenceAR]
      | some actualIdx => rules.insertIdx actualIdx persistenceAR
    checkAssignmentConditions { data with assignmentRules := inserted } maxAssignmentRules false

def deleteAt (idx : Nat) (rules : List AssignmentRule) : List AssignmentRule :=
  rules.modify idx fun r => { r with deleteTimestamp := some timestamp }

def replaceAssignmentRule (ruleIndex : Int) (rule : BuildIdAssignmentRule) (force : Bool) :
    Except RuleError VersioningData := do
  let rule := handleAssignmentRuleNilRamp rule
  let data := cloneOrMkData data
  checkAssignmentTarget rule data
  let rules := data.assignmentRules
  match given2ActualIdx ruleIndex rules with
  | none => .error (.assignmentRuleIndexOutOfBounds ruleIndex (getActiveAssignmentRules rules).length)
  | some actualIdx =>
    let replaced := (deleteAt timestamp actualIdx rules).insertIdx actualIdx ⟨rule, timestamp, none⟩
    checkAssignmentConditions { data with assignmentRules := replaced } 0 (containsFullyRamped rules && !force)

def deleteAssignmentRule (ruleIndex : Int) (force : Bool) : Except RuleError VersioningData :=
  let data := cloneOrMkData data
  let rules := data.assignmentRules
  match given2ActualIdx ruleIndex rules with
  | none => .error (.assignmentRuleIndexOutOfBounds ruleIndex (getActiveAssignmentRules rules).length)
  | some actualIdx =>
    checkAssignmentConditions { data with assignmentRules := deleteAt timestamp actualIdx rules } 0
      (containsFullyRamped rules && !force)

/-- What adding and replacing a redirect rule check first. -/
def checkRedirectEnds (rule : CompatibleBuildIdRedirectRule) (data : VersioningData) :
    Except RuleError Unit :=
  if rule.targetBuildId = unversionedBuildId then .error .unversionedRedirectRuleTarget
  else if isInVersionSets rule.sourceBuildId data.versionSets then .error .sourceIsVersionSetMember
  else if isInVersionSets rule.targetBuildId data.versionSets then .error .targetIsVersionSetMember
  else .ok ()

def addCompatibleRedirectRule (o : KeyOrder) (rule : CompatibleBuildIdRedirectRule)
    (maxRedirectRules maxUpstreamBuildIds : Int) : Except RuleError VersioningData := do
  let data := cloneOrMkData data
  checkRedirectEnds rule data
  if isPartiallyRampedAssignmentRuleTarget rule.sourceBuildId data.assignmentRules then
    .error .sourceIsPartiallyRampedAssignmentRuleTarget
  else
    match data.redirectRules.find? fun r => r.isActive ∧ r.source = rule.sourceBuildId with
    | some r => .error (.sourceAlreadyExists rule.sourceBuildId r.target)
    | none =>
      checkRedirectConditions o { data with redirectRules := ⟨rule, timestamp, none⟩ :: data.redirectRules }
        maxRedirectRules maxUpstreamBuildIds

def replaceCompatibleRedirectRule (o : KeyOrder) (rule : CompatibleBuildIdRedirectRule)
    (maxUpstreamBuildIDs : Int) : Except RuleError VersioningData := do
  let data := cloneOrMkData data
  checkRedirectEnds rule data
  if isActiveRedirectRuleSource rule.sourceBuildId data.redirectRules then
    checkRedirectConditions o { data with redirectRules :=
          ⟨rule, timestamp, none⟩ :: deleteSource timestamp rule.sourceBuildId data.redirectRules }
      0 maxUpstreamBuildIDs
  else .error (.sourceNotFound rule.sourceBuildId)

def deleteCompatibleRedirectRule (source : String) : Except RuleError VersioningData :=
  let data := cloneOrMkData data
  if isActiveRedirectRuleSource source data.redirectRules then
    .ok { data with redirectRules := deleteSource timestamp source data.redirectRules }
  else .error (.sourceNotFound source)

/-- Go `CleanupRuleTombstones`; `recent` says which deletions are within the retention time. -/
def cleanupRuleTombstones (recent : Clock → Bool) : VersioningData :=
  let data := cloneOrMkData data
  { data with
    assignmentRules := data.assignmentRules.filter fun ar => ar.deleteTimestamp.all recent
    redirectRules := data.redirectRules.filter fun rr => rr.deleteTimestamp.all recent }

def commitBuildID (target : String) (force hasRecentPoller : Bool) (maxAssignmentRules : Int) :
    Except RuleError VersioningData :=
  let data := cloneOrMkData data
  if !hasRecentPoller && !force then .error (.noRecentPollerOnCommitVersion target)
  else if isInVersionSets target data.versionSets then .error .targetIsVersionSetMember
  else
    let rules := data.assignmentRules.map fun ar =>
      if ar.isActive ∧ (ar.rule.targetBuildId = target ∨ isFullyRamped ar.rule) then
        { ar with deleteTimestamp := some timestamp }
      else ar
    checkAssignmentConditions { data with assignmentRules := rules ++ [⟨⟨target, some 100⟩, timestamp, none⟩] }
      maxAssignmentRules false

end

inductive RuleUpdate where
  | insertAssignment (ruleIndex : Int) (rule : BuildIdAssignmentRule) (maxAssignmentRules : Int)
  | replaceAssignment (ruleIndex : Int) (rule : BuildIdAssignmentRule) (force : Bool)
  | deleteAssignment (ruleIndex : Int) (force : Bool)
  | addRedirect (o : KeyOrder) (rule : CompatibleBuildIdRedirectRule) (maxRedirectRules maxUpstreamBuildIds : Int)
  | replaceRedirect (o : KeyOrder) (rule : CompatibleBuildIdRedirectRule) (maxUpstreamBuildIDs : Int)
  | deleteRedirect (source : String)
  | cleanup (recent : Clock → Bool)
  | commit (target : String) (force hasRecentPoller : Bool) (maxAssignmentRules : Int)

def applyRuleUpdate (data : Option VersioningData) :
    Clock × RuleUpdate → Except RuleError VersioningData
  | (timestamp, .insertAssignment ruleIndex rule maxAssignmentRules) =>
    insertAssignmentRule timestamp data ruleIndex rule maxAssignmentRules
  | (timestamp, .replaceAssignment ruleIndex rule force) =>
    replaceAssignmentRule timestamp data ruleIndex rule force
  | (timestamp, .deleteAssignment ruleIndex force) =>
    deleteAssignmentRule timestamp data ruleIndex force
  | (timestamp, .addRedirect o rule maxRedirectRules maxUpstreamBuildIds) =>
    addCompatibleRedirectRule timestamp data o rule maxRedirectRules maxUpstreamBuildIds
  | (timestamp, .replaceRedirect o rule maxUpstreamBuildIDs) =>
    replaceCompatibleRedirectRule timestamp data o rule maxUpstreamBuildIDs
  | (timestamp, .deleteRedirect source) => deleteCompatibleRedirectRule timestamp data source
  | (_, .cleanup recent) => .ok (cleanupRuleTombstones data recent)
  | (timestamp, .commit target force hasRecentPoller maxAssignmentRules) =>
    commitBuildID timestamp data target force hasRecentPoller maxAssignmentRules

/-- Successful updates one after the other. -/
def ruleStep (data : Option VersioningData) (update : Clock × RuleUpdate) :
    Except RuleError (Option VersioningData) :=
  some <$> applyRuleUpdate data update

/-!
## Redirect rules stay acyclic

The active redirect rules form a graph with at most one edge out of each build id. Every update keeps
it so and keeps it without a cycle: adding and replacing a rule go through `isCyclic`, which is exact by
`Lib.cyclic_iff`, and all others only take rules away. Following the rules from any build id then ends,
with and without a limit on the number of rounds (`Lib.follow_total`).
-/

open List Function

open Lib (HasCycle bind_ok map_ok)

variable {rules rules' : List RedirectRule} {data data' : VersioningData}

lemma hasCycle_mono (h : HasCycle (edges rules)) (hsub : ∀ r ∈ rules, r ∈ rules') : HasCycle (edges rules') := by
  obtain ⟨a, hcycle⟩ := h
  refine ⟨a, Relation.TransGen.mono (fun b c hbc => ?_) a a hcycle⟩
  obtain ⟨r, hr, rfl⟩ := mem_map.mp hbc
  obtain ⟨hr, hs⟩ := mem_filter.mp hr
  exact mem_map.mpr ⟨r, mem_filter.mpr ⟨hsub r hr, hs⟩, rfl⟩

lemma searchCycle_spec (o : KeyOrder) (rules : List RedirectRule) :
    ∃ found, searchCycle o rules = some found ∧ (found ↔ HasCycle (edges rules)) := by
  let nodes := (rules.map (·.source) ++ rules.map (·.target)).toFinset
  have hcard : nodes.card < 2 * rules.length + 1 := by
    have h := toFinset_card_le (rules.map (·.source) ++ rules.map (·.target))
    rw [length_append, length_map, length_map] at h
    show (rules.map (·.source) ++ rules.map (·.target)).toFinset.card < _
    omega
  refine Lib.cyclic_iff nodes (fun a _ b hb => ?_) (fun a ha => ?_) (fun a ha => ?_) hcard
  · obtain ⟨r, hr, rfl⟩ := mem_map.mp hb
    exact mem_toFinset.mpr (mem_append_right _ (mem_map_of_mem (mem_of_mem_filter hr)))
  · have ha := mem_dedup.mp ((o.perm _).mem_iff.mp ha)
    exact mem_toFinset.mpr (mem_append_left _ ha)
  obtain ⟨b, hb⟩ := exists_mem_of_ne_nil _ ha
  obtain ⟨r, hr, -⟩ := mem_map.mp hb
  obtain ⟨hr, hs⟩ := mem_filter.mp hr
  refine (o.perm _).mem_iff.mpr (mem_dedup.mpr (mem_map.mpr ⟨r, hr, ?_⟩))
  exact of_decide_eq_true hs

lemma isCyclic_iff (o : KeyOrder) (rules : List RedirectRule) : isCyclic o rules ↔ HasCycle (edges rules) := by
  obtain ⟨found, heq, hiff⟩ := searchCycle_spec o rules
  rw [isCyclic, heq]
  exact hiff

def sourcesLeft (rules : List RedirectRule) (visited : String → Bool) : Nat :=
  (Lib.unvisited (rules.map (·.source)).toFinset visited).card

/-- A part of the backward search has come to `new` and to the sources of all these. -/
structure Explores (rules : List RedirectRule) (visited : String → Bool) (new : List String) (visited' : String → Bool) :
    Prop where
  marks : ∀ x, visited' x ↔ visited x ∨ x ∈ new
  closed : ∀ x ∈ new, ∀ y, x ∈ edges rules y → visited' y

lemma Explores.append {v v' v'' new new'} (h : Explores rules v new v') (h' : Explores rules v' new' v'') :
    Explores rules v (new ++ new') v'' where
  marks x := by rw [h'.marks, h.marks, mem_append, or_assoc]
  closed x hx y hy := (mem_append.mp hx).elim (fun hx => (h'.marks y).mpr (.inl (h.closed x hx y hy)))
    fun hx => h'.closed x hx y hy

lemma Explores.sourcesLeft_le {v v' new} (h : Explores rules v new v') : sourcesLeft rules v' ≤ sourcesLeft rules v :=
  Finset.card_le_card (Lib.unvisited_subset fun x hx => (h.marks x).mpr (.inl hx))

/-- The build ids that the search below `buildId` returns. -/
def Upstream (rules : List RedirectRule) (visited : String → Bool) (buildId : String) (found : List String) : Prop :=
  ∀ x ∈ found, visited x = false ∧ Relation.TransGen (fun a b => b ∈ edges rules a) x buildId

lemma upstreamLoop_spec {helper n buildId} (srcs : List String) (hsrcs : ∀ src ∈ srcs, buildId ∈ edges rules src)
    (hhelper : ∀ src ∈ srcs, ∀ visited, visited src = false → sourcesLeft rules visited ≤ n →
      ∃ above visited', helper src visited = some (above, visited') ∧
        Explores rules visited (src :: above) visited' ∧ Upstream rules visited src above)
    {visited} (hn : sourcesLeft rules visited ≤ n) :
    ∃ found visited', upstreamLoop helper srcs visited = some (found, visited') ∧ Explores rules visited found visited' ∧
      Upstream rules visited buildId found ∧ ∀ src ∈ srcs, visited' src := by
  induction srcs generalizing visited with
  | nil => exact ⟨[], visited, rfl, ⟨by simp, nofun⟩, nofun, nofun⟩
  | cons src srcs ih =>
    replace ih := @ih (fun s hs => hsrcs s (mem_cons_of_mem src hs)) fun s hs => hhelper s (mem_cons_of_mem src hs)
    simp only [upstreamLoop]
    split
    · next hv =>
      obtain ⟨found, visited', heq, hex, hup, hall⟩ := ih hn
      exact ⟨found, visited', heq, hex, hup, forall_mem_cons.mpr ⟨(hex.marks src).mpr (.inl hv), hall⟩⟩
    next hv =>
    have hv := Bool.eq_false_iff.mpr hv
    obtain ⟨above, visited', heq, hex, hup⟩ := hhelper src mem_cons_self visited hv hn
    obtain ⟨rest, visited'', heq', hex', hup', hall⟩ := ih (hex.sourcesLeft_le.trans hn)
    refine ⟨src :: above ++ rest, visited'', by simp [heq, heq'], hex.append hex', fun x hx => ?_,
      forall_mem_cons.mpr ⟨(hex'.marks src).mpr (.inl ((hex.marks src).mpr (.inr mem_cons_self))), hall⟩⟩
    have hstep := hsrcs src mem_cons_self
    obtain hx | hx := mem_append.mp hx
    · obtain rfl | hx := mem_cons.mp hx
      · exact ⟨hv, .single hstep⟩
      · exact ⟨(hup x hx).1, (hup x hx).2.tail hstep⟩
    · refine ⟨Bool.eq_false_iff.mpr fun hold => ?_, (hup' x hx).2⟩
      exact Bool.eq_false_iff.mp (hup' x hx).1 ((hex.marks x).mpr (.inl hold))

lemma mem_getSourcesForTarget {x buildId} : x ∈ getSourcesForTarget buildId rules ↔ buildId ∈ edges rules x := by
  simp only [getSourcesForTarget, edges, mem_map, mem_filter, decide_eq_true_eq]
  constructor <;>
  · rintro ⟨r, ⟨hr, rfl⟩, rfl⟩
    exact ⟨r, ⟨hr, rfl⟩, rfl⟩

/-- The fuel of `getUpstreamBuildIds` is enough: each call below the first visits a source. -/
lemma getUpstreamHelper_spec {fuel buildId visited n} (hn : sourcesLeft rules (update visited buildId true) = n)
    (h : n < fuel) : ∃ found visited', getUpstreamHelper rules fuel buildId visited = some (found, visited') ∧ found.Nodup ∧
      Explores rules visited (buildId :: found) visited' ∧ Upstream rules (update visited buildId true) buildId found := by
  induction fuel generalizing buildId visited n with
  | zero => exact absurd h (Nat.not_lt_zero _)
  | succ fuel ih =>
    have hcall : ∀ src ∈ getSourcesForTarget buildId rules, ∀ v, v src = false → sourcesLeft rules v ≤ n →
        ∃ above v', getUpstreamHelper rules fuel src v = some (above, v') ∧ Explores rules v (src :: above) v' ∧
          Upstream rules v src above := by
      intro src hsrc v hv hle
      have hmem : src ∈ (rules.map (·.source)).toFinset := by
        obtain ⟨r, hr, rfl⟩ := mem_map.mp hsrc
        exact mem_toFinset.mpr (mem_map_of_mem (mem_of_mem_filter hr))
      have hlt : sourcesLeft rules (update v src true) < sourcesLeft rules v := Lib.unvisited_update_lt hmem hv
      obtain ⟨above, v', heq, -, hex, hup⟩ := ih rfl (show sourcesLeft rules (update v src true) < fuel by omega)
      refine ⟨above, v', heq, hex, fun x hx => ⟨?_, (hup x hx).2⟩⟩
      have hx := (hup x hx).1
      rw [update_apply] at hx
      split at hx
      · cases hx
      · exact hx
    obtain ⟨found, visited', heq, hex, hup, hall⟩ :=
      upstreamLoop_spec _ (fun _ => mem_getSourcesForTarget.mp) hcall hn.le
    refine ⟨found.dedup, visited', by simp [getUpstreamHelper, heq], nodup_dedup _, ⟨fun x => ?_, ?_⟩,
      fun x hx => hup x (mem_dedup.mp hx)⟩
    · rw [hex.marks, mem_cons, mem_dedup, ← or_assoc]
      by_cases hx : x = buildId <;> simp [hx]
    refine forall_mem_cons.mpr ⟨fun y hy => hall y (mem_getSourcesForTarget.mpr hy), fun x hx => ?_⟩
    exact hex.closed x (mem_dedup.mp hx)

structure Acyclic (rules : List RedirectRule) : Prop where
  sources : ((getActiveRedirectRules rules).map (·.source)).Nodup
  acyclic : ¬ HasCycle (edges (getActiveRedirectRules rules))

lemma Acyclic.sublist (h : Acyclic rules)
    (hsub : (getActiveRedirectRules rules').Sublist (getActiveRedirectRules rules)) : Acyclic rules' :=
  ⟨h.sources.sublist (hsub.map _), fun hc => h.acyclic (hasCycle_mono hc fun _ hr => hsub.subset hr)⟩

lemma checkAssignmentConditions_ok {maxARs requireFullyRamped}
    (h : checkAssignmentConditions data maxARs requireFullyRamped = .ok data') : data' = data := by
  simp only [checkAssignmentConditions] at h
  split at h
  · cases h
  split at h
  · cases h
  cases h
  rfl

lemma checkRedirectConditions_ok {o maxRRs maxUpstreamBuildIds}
    (h : checkRedirectConditions o data maxRRs maxUpstreamBuildIds = .ok data') :
    data' = data ∧ ¬ HasCycle (edges (getActiveRedirectRules data.redirectRules)) := by
  simp only [checkRedirectConditions] at h
  split at h
  · cases h
  split at h
  · cases h
  rename_i hcycle
  split at h
  · cases h
  cases h
  exact ⟨rfl, fun hc => hcycle ((isCyclic_iff o _).mpr hc)⟩

lemma active_deleteSource_sublist (timestamp : Clock) (source : String) (rules : List RedirectRule) :
    (getActiveRedirectRules (deleteSource timestamp source rules)).Sublist (getActiveRedirectRules rules) := by
  induction rules with
  | nil => exact .slnil
  | cons r rules ih =>
    simp only [deleteSource]
    split
    · simpa [getActiveRedirectRules, RedirectRule.isActive] using (sublist_cons_self r rules).filter _
    simp only [getActiveRedirectRules, filter_cons]
    split
    · exact ih.cons_cons _
    · exact ih

lemma not_mem_deleteSource {timestamp source} (h : ((getActiveRedirectRules rules).map (·.source)).Nodup) :
    source ∉ (getActiveRedirectRules (deleteSource timestamp source rules)).map (·.source) := by
  induction rules with
  | nil => exact not_mem_nil
  | cons r rules ih =>
    simp only [deleteSource]
    split
    · rename_i hr
      have hact : getActiveRedirectRules (r :: rules) = r :: getActiveRedirectRules rules :=
        filter_cons_of_pos hr.1
      rw [hact, map_cons, nodup_cons, hr.2] at h
      simpa [getActiveRedirectRules, RedirectRule.isActive] using h.1
    rename_i hr
    by_cases hact : r.isActive
    · have hcons : ∀ rules, getActiveRedirectRules (r :: rules) =
          r :: getActiveRedirectRules rules := fun _ => filter_cons_of_pos hact
      rw [hcons, map_cons, nodup_cons] at h
      rw [hcons, map_cons, mem_cons, not_or]
      exact ⟨fun heq => hr ⟨hact, heq.symm⟩, ih h.2⟩
    have hcons : ∀ rules, getActiveRedirectRules (r :: rules) =
        getActiveRedirectRules rules := fun _ => filter_cons_of_neg hact
    rw [hcons] at h ⊢
    exact ih h

lemma Acyclic.update {old} (h : Acyclic (cloneOrMkData old).redirectRules) (update : Clock × RuleUpdate)
    (hu : applyRuleUpdate old update = .ok data') : Acyclic data'.redirectRules := by
  obtain ⟨timestamp, update⟩ := update
  cases update <;> simp only [applyRuleUpdate] at hu
  case insertAssignment ruleIndex rule maxAssignmentRules =>
    unfold insertAssignmentRule at hu
    split at hu
    · cases hu
    obtain ⟨-, -, hu⟩ := bind_ok hu
    rw [checkAssignmentConditions_ok hu]
    exact h
  case replaceAssignment ruleIndex rule force =>
    obtain ⟨-, -, hu⟩ := bind_ok hu
    dsimp only at hu
    split at hu
    · cases hu
    rw [checkAssignmentConditions_ok hu]
    exact h
  case deleteAssignment ruleIndex force =>
    simp only [deleteAssignmentRule] at hu
    split at hu
    · cases hu
    rw [checkAssignmentConditions_ok hu]
    exact h
  case addRedirect o rule maxRedirectRules maxUpstreamBuildIds =>
    obtain ⟨-, -, hu⟩ := bind_ok hu
    split at hu
    · cases hu
    split at hu
    · cases hu
    rename_i hnone
    obtain ⟨rfl, hacyclic⟩ := checkRedirectConditions_ok hu
    refine ⟨nodup_cons.mpr ⟨fun hmem => ?_, h.sources⟩, hacyclic⟩
    obtain ⟨r, hr, hs⟩ := mem_map.mp hmem
    obtain ⟨hr, hact⟩ := mem_filter.mp hr
    exact find?_eq_none.mp hnone r hr (decide_eq_true ⟨hact, hs⟩)
  case replaceRedirect o rule maxUpstreamBuildIDs =>
    obtain ⟨-, -, hu⟩ := bind_ok hu
    split at hu
    · obtain ⟨rfl, hacyclic⟩ := checkRedirectConditions_ok hu
      have hsub := active_deleteSource_sublist timestamp rule.sourceBuildId (cloneOrMkData old).redirectRules
      exact ⟨nodup_cons.mpr ⟨not_mem_deleteSource h.sources, h.sources.sublist (hsub.map _)⟩, hacyclic⟩
    · cases hu
  case deleteRedirect source =>
    simp only [deleteCompatibleRedirectRule] at hu
    obtain ⟨-, rfl⟩ := Lib.guard_ok hu
    exact h.sublist (active_deleteSource_sublist timestamp source _)
  case cleanup recent =>
    cases hu
    exact h.sublist (filter_sublist.filter _)
  case commit target force hasRecentPoller maxAssignmentRules =>
    simp only [commitBuildID] at hu
    split at hu
    · cases hu
    split at hu
    · cases hu
    rw [checkAssignmentConditions_ok hu]
    exact h

/-! ## Following the rules -/

lemma activeHop_eq (rules : List RedirectRule) (buildID : String) :
    activeHop rules buildID = hop (getActiveRedirectRules rules) buildID := by
  induction rules with
  | nil => rfl
  | cons r rules ih =>
    cases hact : r.isActive with
    | false => simpa [activeHop, getActiveRedirectRules, hact] using ih
    | true =>
      by_cases hs : r.source = buildID
      · simp [activeHop, hop, getActiveRedirectRules, hact, hs]
      · simpa [activeHop, hop, getActiveRedirectRules, hact, hs] using ih

lemma hop_mem {buildID next} (h : hop rules buildID = some next) : next ∈ edges rules buildID := by
  obtain ⟨r, hr, rfl⟩ := Option.map_eq_some_iff.mp h
  exact mem_map_of_mem (mem_filter.mpr ⟨mem_of_find?_eq_some hr, by simpa using find?_some hr⟩)

lemma hop_eq_none {buildID} : hop rules buildID = none ↔ buildID ∉ rules.map (·.source) := by
  simp [hop]

lemma Acyclic.resolves (h : Acyclic rules) (buildID : String) :
    ∃ terminal, (∀ fuel > (getActiveRedirectRules rules).length,
        findRedirectBuildId fuel buildID rules = some terminal) ∧
      findTerminalBuildId buildID (getActiveRedirectRules rules) = terminal ∧
      terminal ∉ (getActiveRedirectRules rules).map (·.source) := by
  have hacyclic : ∀ a, ¬ Relation.TransGen (fun a b => hop (getActiveRedirectRules rules) a = some b) a a :=
    fun a ha => h.acyclic ⟨a, Relation.TransGen.mono (fun _ _ hab => hop_mem hab) a a ha⟩
  obtain ⟨terminal, hlast, hall⟩ := Lib.follow_total hacyclic ((getActiveRedirectRules rules).map (·.source)).toFinset
    (fun a ha => mem_toFinset.mpr (not_not.mp (mt hop_eq_none.mpr ha))) buildID
  have hcard := toFinset_card_le ((getActiveRedirectRules rules).map (·.source))
  rw [length_map] at hcard
  refine ⟨terminal, fun fuel hfuel => ?_, ?_, hop_eq_none.mp hlast⟩
  · rw [findRedirectBuildId, funext (activeHop_eq rules)]
    exact hall fuel (by omega)
  rw [findTerminalBuildId, hall _ (by omega)]
  rfl

/-- Over every sequence of successful updates from no rules, the active redirect rules have distinct
sources and no cycle, and each build id is resolved, in both ways alike, to one that is not redirected.
`isCyclic` is exact on every list of rules. -/
theorem redirects_resolve (start : Option VersioningData) (hstart : (cloneOrMkData start).redirectRules = [])
    (updates : List (Clock × RuleUpdate)) {final : Option VersioningData}
    (hr : Lib.run ruleStep start updates = .ok final) :
    let rules := (cloneOrMkData final).redirectRules
    let active := getActiveRedirectRules rules
    (active.map (·.source)).Nodup ∧ ¬ HasCycle (edges active) ∧
    (∀ (o : KeyOrder) (any : List RedirectRule), searchCycle o any = some (isCyclic o any) ∧
      (isCyclic o any = true ↔ HasCycle (edges any))) ∧
    ∀ buildID, ∃ terminal, (∀ fuel > active.length, findRedirectBuildId fuel buildID rules = some terminal) ∧
      findTerminalBuildId buildID active = terminal ∧ terminal ∉ active.map (·.source) := by
  have h0 : Acyclic (cloneOrMkData start).redirectRules := by
    rw [hstart]
    refine ⟨nodup_nil, fun ⟨a, ha⟩ => ?_⟩
    obtain ⟨b, hb, -⟩ := Relation.TransGen.head'_iff.mp ha
    cases hb
  have along : Lib.Along (fun _ _ => True) ruleStep start updates :=
    .of_forall (fun _ _ _ => trivial) start
  have h : Acyclic (cloneOrMkData final).redirectRules := by
    refine along.inv (I := fun data => Acyclic (cloneOrMkData data).redirectRules)
      (fun data update data' hd _ hu => ?_) h0 hr
    obtain ⟨result, hres, rfl⟩ := map_ok hu
    exact hd.update update hres
  refine ⟨h.sources, h.acyclic, fun o any => ⟨?_, isCyclic_iff o any⟩, h.resolves⟩
  obtain ⟨found, heq, -⟩ := searchCycle_spec o any
  rw [isCyclic, heq]
  rfl

def listed : KeyOrder := ⟨id, fun _ => .refl _⟩

def twoRedirects : List (Clock × RuleUpdate) :=
  [(⟨1, 0, 1⟩, .addRedirect listed ⟨"1", "2"⟩ 0 10), (⟨2, 0, 1⟩, .commit "2" true false 0),
    (⟨3, 0, 1⟩, .addRedirect listed ⟨"2", "3"⟩ 0 10),
    (⟨4, 0, 1⟩, .replaceRedirect listed ⟨"2", "4"⟩ 10)]

theorem redirects_resolve_twoRedirects : ∃ final, Lib.run ruleStep none twoRedirects = .ok final ∧
      (getActiveRedirectRules (cloneOrMkData final).redirectRules).map (·.target) = ["4", "2"] ∧
      ∃ terminal, (∀ fuel > 2, findRedirectBuildId fuel "1" (cloneOrMkData final).redirectRules = some terminal) ∧
        terminal ∉ (getActiveRedirectRules (cloneOrMkData final).redirectRules).map (·.source) := by
  obtain ⟨final, hr, hobs⟩ : ∃ final, Lib.run ruleStep none twoRedirects = .ok final ∧
      (getActiveRedirectRules (cloneOrMkData final).redirectRules).map (·.target) = ["4", "2"] := by
    decide +kernel
  obtain ⟨terminal, hfind, -, hlast⟩ := (redirects_resolve none rfl twoRedirects hr).2.2.2 "1"
  have hlen : (getActiveRedirectRules (cloneOrMkData final).redirectRules).length = 2 := by
    rw [← length_map, hobs]
    rfl
  exact ⟨final, hr, hobs, terminal, fun fuel hf => hfind fuel (by omega), hlast⟩

end FastOrchestration.Matching
