import FastOrchestration.Matching.VersionRules
import FastOrchestration.Matching.VersionSetLaws

/-!
# Assignment rules with tombstones

A client of the assignment rules sees a plain list: the rules that are not deleted. `plainUpdate` says
what each update means on that list. The index of a rule in the data is found by `given2ActualIdx`, and
with it every update does to the active rules what is meant. The one difference is in the check that a
fully ramped rule is kept: replacing and deleting look for one among all rules before the change, those
that are deleted included.

Assignment and redirect rules are edited apart from each other, and the updates together keep the
targets of partially ramped rules from being redirected.
-/

namespace FastOrchestration.Matching

open List

open Lib (bind_ok map_ok)
open VersioningData (isInVersionSets)

variable {rules : List AssignmentRule} {idx : Int} {i : Nat} {data data' : VersioningData}

/-! ## The index that a client sees -/

lemma active_append (rules rules' : List AssignmentRule) : getActiveAssignmentRules (rules ++ rules') =
    getActiveAssignmentRules rules ++ getActiveAssignmentRules rules' := filter_append ..

lemma active_cons_of_active {r : AssignmentRule} (h : r.isActive) :
    getActiveAssignmentRules (r :: rules) = r :: getActiveAssignmentRules rules :=
  filter_cons_of_pos h

lemma active_cons_of_deleted {r : AssignmentRule} (h : r.isActive = false) :
    getActiveAssignmentRules (r :: rules) = getActiveAssignmentRules rules :=
  filter_cons_of_neg (Bool.eq_false_iff.mp h)

lemma given2ActualIdx_none (h : given2ActualIdx idx rules = none) :
    ¬ (0 ≤ idx ∧ idx < (getActiveAssignmentRules rules).length) := by
  induction rules generalizing idx with
  | nil => exact fun ⟨h0, hlt⟩ => absurd h0 (not_le.mpr hlt)
  | cons r rules ih =>
    cases hact : r.isActive with
    | false =>
      rw [active_cons_of_deleted hact]
      exact ih (by simpa [given2ActualIdx, hact] using h)
    | true =>
      rw [active_cons_of_active hact, length_cons]
      simp only [given2ActualIdx, hact, if_true] at h
      split at h
      · cases h
      have := ih (Option.map_eq_none_iff.mp h)
      omega

lemma given2ActualIdx_some (h : given2ActualIdx idx rules = some i) :
    ∃ before r after, rules = before ++ r :: after ∧ r.isActive ∧ i = before.length ∧
      idx = (getActiveAssignmentRules before).length := by
  induction rules generalizing idx i with
  | nil => cases h
  | cons r rules ih =>
    cases hact : r.isActive with
    | false =>
      simp only [given2ActualIdx, hact, Bool.false_eq_true, if_false] at h
      obtain ⟨j, hj, rfl⟩ := Option.map_eq_some_iff.mp h
      obtain ⟨before, r', after, rfl, hr', rfl, rfl⟩ := ih hj
      exact ⟨r :: before, r', after, rfl, hr', rfl, by rw [active_cons_of_deleted hact]⟩
    | true =>
      simp only [given2ActualIdx, hact, if_true] at h
      split at h
      · rename_i hzero
        cases h
        exact ⟨[], r, rules, rfl, hact, rfl, hzero⟩
      obtain ⟨j, hj, rfl⟩ := Option.map_eq_some_iff.mp h
      obtain ⟨before, r', after, rfl, hr', rfl, hidx⟩ := ih hj
      refine ⟨r :: before, r', after, rfl, hr', rfl, ?_⟩
      rw [active_cons_of_active hact, length_cons]
      omega

lemma insertIdx_middle (before rest : List AssignmentRule) (a : AssignmentRule) :
    (before ++ rest).insertIdx before.length a = before ++ a :: rest := by
  induction before with
  | nil => rfl
  | cons b before ih => rw [cons_append, length_cons, insertIdx_succ_cons, ih, cons_append]

/-- Changes at the actual index are changes of the active rules at the index given. -/
structure SeenAt (rules : List AssignmentRule) (idx : Int) (i : Nat) : Prop where
  range : 0 ≤ idx ∧ idx < (getActiveAssignmentRules rules).length
  insert : ∀ new : AssignmentRule, new.isActive = true → getActiveAssignmentRules (rules.insertIdx i new) =
    (getActiveAssignmentRules rules).insertIdx idx.toNat new
  delete : ∀ timestamp, getActiveAssignmentRules (deleteAt timestamp i rules) =
    (getActiveAssignmentRules rules).eraseIdx idx.toNat
  replace : ∀ timestamp, ∀ new : AssignmentRule, new.isActive = true →
    getActiveAssignmentRules ((deleteAt timestamp i rules).insertIdx i new) =
      (getActiveAssignmentRules rules).set idx.toNat new

lemma seenAt_given2ActualIdx (h : given2ActualIdx idx rules = some i) : SeenAt rules idx i := by
  obtain ⟨before, r, after, rfl, hr, rfl, rfl⟩ := given2ActualIdx_some h
  have hactive : getActiveAssignmentRules (before ++ r :: after) =
      getActiveAssignmentRules before ++ r :: getActiveAssignmentRules after := by
    rw [active_append, active_cons_of_active hr]
  have hdelete : ∀ timestamp, deleteAt timestamp before.length (before ++ r :: after) =
      before ++ { r with deleteTimestamp := some timestamp } :: after := fun _ => modify_middle ..
  refine ⟨?_, fun new hnew => ?_, fun timestamp => ?_, fun timestamp new hnew => ?_⟩
  · rw [hactive, length_append, length_cons]
    omega
  · rw [insertIdx_middle, hactive, Int.toNat_natCast, insertIdx_middle, active_append,
      active_cons_of_active hnew, active_cons_of_active hr]
  · rw [hdelete, hactive, Int.toNat_natCast, eraseIdx_middle, active_append, active_cons_of_deleted rfl]
  rw [hdelete, insertIdx_middle, hactive, active_append, active_cons_of_active hnew, active_cons_of_deleted rfl]
  simp

/-- An index that is too large inserts at the end. -/
lemma active_insert (rules : List AssignmentRule) (hidx : 0 ≤ idx) (new : AssignmentRule) (hnew : new.isActive) :
    getActiveAssignmentRules (match given2ActualIdx idx rules with
      | none => rules ++ [new]
      | some actualIdx => rules.insertIdx actualIdx new) =
    (getActiveAssignmentRules rules).insertIdx (min idx.toNat (getActiveAssignmentRules rules).length)
      new := by
  split
  · rename_i hnone
    have := given2ActualIdx_none hnone
    rw [min_eq_right (by omega), insertIdx_length_self, active_append, active_cons_of_active hnew]
    rfl
  rename_i i hi
  have h := seenAt_given2ActualIdx hi
  have := h.range
  rw [min_eq_left (by omega), h.insert new hnew]

lemma active_commit (timestamp : Clock) (target : String) :
    getActiveAssignmentRules (rules.map fun ar =>
      if ar.isActive ∧ (ar.rule.targetBuildId = target ∨ isFullyRamped ar.rule) then
        { ar with deleteTimestamp := some timestamp } else ar) =
    (getActiveAssignmentRules rules).filter fun ar =>
      ¬ (ar.rule.targetBuildId = target ∨ isFullyRamped ar.rule) := by
  induction rules with
  | nil => rfl
  | cons r rules ih =>
    rw [map_cons]
    cases hact : r.isActive with
    | false => rw [if_neg (by simp), active_cons_of_deleted hact, active_cons_of_deleted hact, ih]
    | true =>
      rw [active_cons_of_active hact]
      by_cases hgone : r.rule.targetBuildId = target ∨ isFullyRamped r.rule
      · rw [if_pos ⟨rfl, hgone⟩, active_cons_of_deleted rfl, ih,
          filter_cons_of_neg (by simpa [or_iff_not_imp_left] using hgone)]
      rw [if_neg fun h => hgone h.2, active_cons_of_active hact, ih, filter_cons_of_pos (by simpa using hgone)]

/-! ## Updates of the list that a client sees -/

def RuleUpdate.ofAssignments : RuleUpdate → Bool
  | .insertAssignment .. | .replaceAssignment .. | .deleteAssignment .. | .commit .. => true
  | _ => false

def limited (maxAssignmentRules : Int) (rules : List AssignmentRule) :
    Except RuleError (List AssignmentRule) :=
  if maxAssignmentRules > 0 ∧ rules.length > maxAssignmentRules then
    .error (.exceedsMaxAssignmentRules rules.length maxAssignmentRules)
  else .ok rules

/-- Without force, the last fully ramped rule is not given up. -/
def keepingRamp (force : Bool) (before after : List AssignmentRule) :
    Except RuleError (List AssignmentRule) :=
  if containsFullyRamped before ∧ ¬ containsFullyRamped after ∧ ¬ force then
    .error .requireFullyRampedAssignmentRule
  else .ok after

/-- An update of a plain list of assignment rules. The sets and the redirect rules of the data are
only looked at. -/
def plainUpdate (timestamp : Clock) (data : VersioningData) (rules : List AssignmentRule) :
    RuleUpdate → Except RuleError (List AssignmentRule)
  | .insertAssignment ruleIndex rule maxAssignmentRules =>
    if ruleIndex < 0 then .error .invalidNegativeIndex
    else do
      checkAssignmentTarget (handleAssignmentRuleNilRamp rule) data
      limited maxAssignmentRules (rules.insertIdx (min ruleIndex.toNat rules.length)
        ⟨handleAssignmentRuleNilRamp rule, timestamp, none⟩)
  | .replaceAssignment ruleIndex rule force => do
    checkAssignmentTarget (handleAssignmentRuleNilRamp rule) data
    if 0 ≤ ruleIndex ∧ ruleIndex < rules.length then
      keepingRamp force rules (rules.set ruleIndex.toNat ⟨handleAssignmentRuleNilRamp rule, timestamp, none⟩)
    else .error (.assignmentRuleIndexOutOfBounds ruleIndex rules.length)
  | .deleteAssignment ruleIndex force =>
    if 0 ≤ ruleIndex ∧ ruleIndex < rules.length then
      keepingRamp force rules (rules.eraseIdx ruleIndex.toNat)
    else .error (.assignmentRuleIndexOutOfBounds ruleIndex rules.length)
  | .commit target force hasRecentPoller maxAssignmentRules =>
    if !hasRecentPoller && !force then .error (.noRecentPollerOnCommitVersion target)
    else if isInVersionSets target data.versionSets then .error .targetIsVersionSetMember
    else limited maxAssignmentRules
      (rules.filter (fun ar => ¬ (ar.rule.targetBuildId = target ∨ isFullyRamped ar.rule)) ++
        [⟨⟨target, some 100⟩, timestamp, none⟩])
  | _ => .ok rules

def activeAssignments (data : VersioningData) : List AssignmentRule :=
  getActiveAssignmentRules data.assignmentRules

/-- A fully ramped rule is not among the deleted ones alone. -/
def RampSeen (rules : List AssignmentRule) : Prop :=
  containsFullyRamped rules = true → containsFullyRamped (getActiveAssignmentRules rules) = true

lemma containsFullyRamped_of_active (h : containsFullyRamped (getActiveAssignmentRules rules)) :
    containsFullyRamped rules := by
  obtain ⟨r, hr, hfull⟩ := any_eq_true.mp h
  exact any_eq_true.mpr ⟨r, mem_of_mem_filter hr, hfull⟩

lemma containsFullyRamped_set (h : containsFullyRamped rules = false) (hi : i < rules.length)
    {new : AssignmentRule} : containsFullyRamped (rules.set i new) = isFullyRamped new.rule := by
  cases hnew : isFullyRamped new.rule with
  | true => exact any_eq_true.mpr ⟨new, mem_set hi _, hnew⟩
  | false =>
    refine any_eq_false.mpr fun r hr => ?_
    obtain hr | rfl := mem_or_eq_of_mem_set hr
    · exact any_eq_false.mp h r hr
    · exact Bool.eq_false_iff.mp hnew

lemma containsFullyRamped_eraseIdx (h : containsFullyRamped rules = false) :
    containsFullyRamped (rules.eraseIdx i) = false :=
  any_eq_false.mpr fun r hr => any_eq_false.mp h r (mem_of_mem_eraseIdx hr)

/-- When the check before a change looks at the deleted rules too, it refuses more than it should. -/
lemma checkAssignmentConditions_ramp (data : VersioningData) (rules : List AssignmentRule)
    (force : Bool) {after seen} (hseen : getActiveAssignmentRules after = seen) :
    (activeAssignments <$> checkAssignmentConditions { data with assignmentRules := after } 0
        (containsFullyRamped rules && !force) =
      keepingRamp force (getActiveAssignmentRules rules) seen) ↔
    force ∨ containsFullyRamped seen ∨ RampSeen rules := by
  have himp := @containsFullyRamped_of_active rules
  simp only [checkAssignmentConditions, keepingRamp, RampSeen, gt_iff_lt, lt_self_iff_false, false_and, if_false, hseen]
  cases force <;> cases containsFullyRamped seen <;>
    cases hall : containsFullyRamped rules <;>
    simp_all [activeAssignments, Functor.map, Except.map]

lemma checkAssignmentConditions_limited (data : VersioningData) (after : List AssignmentRule)
    (maxAssignmentRules : Int) :
    activeAssignments <$> checkAssignmentConditions { data with assignmentRules := after }
      maxAssignmentRules false = limited maxAssignmentRules (getActiveAssignmentRules after) := by
  simp only [checkAssignmentConditions, limited, Bool.false_and, Bool.false_eq_true, if_false]
  split <;> rfl

/-- What replacing and deleting need for their check to be right: no fully ramped rule is among the
deleted ones alone, or the check is not made, or it passes, or another check fails first. -/
def ChecksRamp (data : VersioningData) : RuleUpdate → Prop
  | .replaceAssignment ruleIndex rule force =>
    force = true ∨ isFullyRamped (handleAssignmentRuleNilRamp rule) = true ∨ RampSeen data.assignmentRules ∨
      checkAssignmentTarget (handleAssignmentRuleNilRamp rule) data ≠ .ok () ∨
      ¬ (0 ≤ ruleIndex ∧ ruleIndex < (activeAssignments data).length)
  | .deleteAssignment ruleIndex force =>
    force = true ∨ RampSeen data.assignmentRules ∨ ¬ (0 ≤ ruleIndex ∧ ruleIndex < (activeAssignments data).length)
  | _ => True

/-- For every rule list with tombstones, an update gives the active rules and the errors that it gives
on the plain list of active rules if and only if its check for a fully ramped rule is right. -/
theorem update_refines_plain (timestamp : Clock) (data : Option VersioningData) (update : RuleUpdate)
    (hu : update.ofAssignments = true) :
    activeAssignments <$> applyRuleUpdate data (timestamp, update) =
      plainUpdate timestamp (cloneOrMkData data) (activeAssignments (cloneOrMkData data)) update ↔
    ChecksRamp (cloneOrMkData data) update := by
  have hnone : ¬ RampSeen (cloneOrMkData data).assignmentRules →
      containsFullyRamped (getActiveAssignmentRules (cloneOrMkData data).assignmentRules) = false :=
    fun hramp => Bool.eq_false_iff.mpr fun h => hramp fun _ => h
  cases update with
  | insertAssignment ruleIndex rule maxAssignmentRules =>
    refine iff_of_true ?_ trivial
    simp only [applyRuleUpdate, insertAssignmentRule, plainUpdate]
    split
    · rfl
    rename_i hidx
    cases checkAssignmentTarget (handleAssignmentRuleNilRamp rule) (cloneOrMkData data) with
    | error e => rfl
    | ok =>
      refine (checkAssignmentConditions_limited _ _ _).trans ?_
      exact congrArg (limited maxAssignmentRules) (active_insert _ (not_lt.mp hidx) _ rfl)
  | replaceAssignment ruleIndex rule force =>
    simp only [applyRuleUpdate, replaceAssignmentRule, plainUpdate, ChecksRamp]
    cases checkAssignmentTarget (handleAssignmentRuleNilRamp rule) (cloneOrMkData data) with
    | error e => exact iff_of_true rfl (.inr (.inr (.inr (.inl (by simp)))))
    | ok =>
      cases hi : given2ActualIdx ruleIndex (cloneOrMkData data).assignmentRules with
      | none =>
        have hout := given2ActualIdx_none hi
        exact iff_of_true (if_neg hout).symm (.inr (.inr (.inr (.inr hout))))
      | some i =>
        have h := seenAt_given2ActualIdx hi
        have hrange := h.range
        have hcheck := checkAssignmentConditions_ramp (cloneOrMkData data) (cloneOrMkData data).assignmentRules force
          (h.replace timestamp ⟨handleAssignmentRuleNilRamp rule, timestamp, none⟩ rfl)
        refine (iff_of_eq (congrArg (_ = ·) (if_pos hrange))).trans (hcheck.trans ?_)
        by_cases hramp : RampSeen (cloneOrMkData data).assignmentRules
        · exact iff_of_true (.inr (.inr hramp)) (.inr (.inr (.inl hramp)))
        rw [containsFullyRamped_set (hnone hramp) (by omega)]
        tauto
  | deleteAssignment ruleIndex force =>
    simp only [applyRuleUpdate, deleteAssignmentRule, plainUpdate, ChecksRamp]
    cases hi : given2ActualIdx ruleIndex (cloneOrMkData data).assignmentRules with
    | none =>
      have hout := given2ActualIdx_none hi
      exact iff_of_true (if_neg hout).symm (.inr (.inr hout))
    | some i =>
      have h := seenAt_given2ActualIdx hi
      have hrange : 0 ≤ ruleIndex ∧ ruleIndex < (activeAssignments (cloneOrMkData data)).length := h.range
      rw [if_pos hrange]
      refine (checkAssignmentConditions_ramp _ _ force (h.delete timestamp)).trans ?_
      by_cases hramp : RampSeen (cloneOrMkData data).assignmentRules
      · exact iff_of_true (.inr (.inr hramp)) (.inr (.inl hramp))
      rw [containsFullyRamped_eraseIdx (hnone hramp)]
      tauto
  | commit target force hasRecentPoller maxAssignmentRules =>
    refine iff_of_true ?_ trivial
    simp only [applyRuleUpdate, commitBuildID, plainUpdate]
    split
    · rfl
    split
    · rfl
    refine (checkAssignmentConditions_limited _ _ _).trans ?_
    rw [active_append]
    exact congrArg (fun l => limited maxAssignmentRules (l ++ _)) (active_commit timestamp target)
  | addRedirect | replaceRedirect | deleteRedirect | cleanup => cases hu

def rampDeleted : VersioningData :=
  ⟨[], [⟨⟨"a", some 100⟩, ⟨1, 0, 1⟩, some ⟨3, 0, 1⟩⟩, ⟨⟨"b", some 50⟩, ⟨2, 0, 1⟩, none⟩], []⟩

theorem update_refines_plain_rampDeleted : activeAssignments <$> applyRuleUpdate (some rampDeleted)
        (⟨4, 0, 1⟩, .replaceAssignment 0 ⟨"c", none⟩ false) =
      .ok [⟨⟨"c", some 100⟩, ⟨4, 0, 1⟩, none⟩] :=
  (update_refines_plain ⟨4, 0, 1⟩ (some rampDeleted) (.replaceAssignment 0 ⟨"c", none⟩ false) rfl).mpr (.inr (.inl rfl))

/-- The first rule is deleted by force, and the second cannot be deleted without: a fully ramped rule
is asked for that was not active before. -/
theorem deletedRamp_stillRequired : Lib.run ruleStep none [(⟨1, 0, 1⟩, .insertAssignment 0 ⟨"a", some 100⟩ 0),
      (⟨2, 0, 1⟩, .insertAssignment 1 ⟨"b", some 50⟩ 0), (⟨3, 0, 1⟩, .deleteAssignment 0 true)] =
      .ok (some rampDeleted) ∧
    containsFullyRamped (activeAssignments rampDeleted) = false ∧
    applyRuleUpdate (some rampDeleted) (⟨4, 0, 1⟩, .deleteAssignment 0 false) =
      .error .requireFullyRampedAssignmentRule ∧
    plainUpdate ⟨4, 0, 1⟩ rampDeleted (activeAssignments rampDeleted) (.deleteAssignment 0 false) = .ok [] :=
  ⟨rfl, rfl, rfl, rfl⟩

/-! ## Targets of partially ramped rules -/

/-- No active redirect rule starts at the target of an active rule with a partial ramp. -/
def RampsUnredirected (data : VersioningData) : Prop :=
  ∀ rr ∈ getActiveRedirectRules data.redirectRules, ∀ ar ∈ activeAssignments data,
    isFullyRamped ar.rule = false → rr.source ≠ ar.rule.targetBuildId

lemma isActiveRedirectRuleSource_iff {buildID rules} : isActiveRedirectRuleSource buildID rules ↔
    ∃ rr ∈ getActiveRedirectRules rules, rr.source = buildID := by
  simp only [isActiveRedirectRuleSource, any_eq_true, decide_eq_true_eq, @eq_comm _ buildID]

lemma RampsUnredirected.assign (h : RampsUnredirected data)
    (hnew : ∀ ar ∈ getActiveAssignmentRules rules, ar ∈ activeAssignments data ∨ isFullyRamped ar.rule ∨
      isActiveRedirectRuleSource ar.rule.targetBuildId data.redirectRules = false) :
    RampsUnredirected { data with assignmentRules := rules } := by
  intro rr hrr ar har hramped heq
  obtain hold | hfull | hsource := hnew ar har
  · exact h rr hrr ar hold hramped heq
  · rw [hfull] at hramped
    cases hramped
  · exact Bool.eq_false_iff.mp hsource (isActiveRedirectRuleSource_iff.mpr ⟨rr, hrr, heq⟩)

lemma RampsUnredirected.redirect (h : RampsUnredirected data) {rules}
    (hnew : ∀ rr ∈ getActiveRedirectRules rules, isActiveRedirectRuleSource rr.source data.redirectRules ∨
      isPartiallyRampedAssignmentRuleTarget rr.source data.assignmentRules = false) :
    RampsUnredirected { data with redirectRules := rules } := by
  intro rr hrr ar har hramped heq
  obtain hold | hfree := hnew rr hrr
  · obtain ⟨old, hold, hsource⟩ := isActiveRedirectRuleSource_iff.mp hold
    exact h old hold ar har hramped (hsource.trans heq)
  · exact Bool.eq_false_iff.mp hfree (any_eq_true.mpr ⟨ar, har, by simp [hramped, heq]⟩)

lemma mem_active_of_deleteSource {timestamp source rules rr}
    (h : rr ∈ getActiveRedirectRules (deleteSource timestamp source rules)) :
    isActiveRedirectRuleSource rr.source rules :=
  isActiveRedirectRuleSource_iff.mpr ⟨rr, (active_deleteSource_sublist timestamp source rules).subset h, rfl⟩

lemma checkAssignmentTarget_ok {rule} (h : checkAssignmentTarget rule data = .ok ()) :
    isFullyRamped rule ∨ isActiveRedirectRuleSource rule.targetBuildId data.redirectRules = false := by
  simp only [checkAssignmentTarget] at h
  split_ifs at h with _ _ hcheck
  cases hfull : isFullyRamped rule with
  | true => exact .inl rfl
  | false => exact .inr (by simpa [hfull] using hcheck)

lemma RampsUnredirected.update {old : Option VersioningData}
    (h : RampsUnredirected (cloneOrMkData old)) (update : Clock × RuleUpdate)
    (hu : applyRuleUpdate old update = .ok data') : RampsUnredirected data' := by
  obtain ⟨timestamp, update⟩ := update
  cases update <;> simp only [applyRuleUpdate] at hu
  case insertAssignment ruleIndex rule maxAssignmentRules =>
    unfold insertAssignmentRule at hu
    split at hu
    · cases hu
    rename_i hidx
    obtain ⟨⟨⟩, htarget, hu⟩ := bind_ok hu
    rw [checkAssignmentConditions_ok hu]
    refine h.assign fun ar har => ?_
    have hins := active_insert (cloneOrMkData old).assignmentRules (not_lt.mp hidx)
      ⟨handleAssignmentRuleNilRamp rule, timestamp, none⟩ rfl
    obtain rfl | har := eq_or_mem_of_mem_insertIdx ((congrArg (ar ∈ ·) hins).mp har)
    · exact .inr (checkAssignmentTarget_ok htarget)
    · exact .inl har
  case replaceAssignment ruleIndex rule force =>
    obtain ⟨⟨⟩, htarget, hu⟩ := bind_ok hu
    dsimp only at hu
    split at hu
    · cases hu
    rename_i i hi
    rw [checkAssignmentConditions_ok hu]
    refine h.assign fun ar har => ?_
    rw [(seenAt_given2ActualIdx hi).replace timestamp _ rfl] at har
    obtain har | rfl := mem_or_eq_of_mem_set har
    · exact .inl har
    · exact .inr (checkAssignmentTarget_ok htarget)
  case deleteAssignment ruleIndex force =>
    simp only [deleteAssignmentRule] at hu
    split at hu
    · cases hu
    rename_i i hi
    rw [checkAssignmentConditions_ok hu]
    refine h.assign fun ar har => .inl ?_
    rw [(seenAt_given2ActualIdx hi).delete timestamp] at har
    exact mem_of_mem_eraseIdx har
  case addRedirect o rule maxRedirectRules maxUpstreamBuildIds =>
    obtain ⟨-, -, hu⟩ := bind_ok hu
    split at hu
    · cases hu
    rename_i hfree
    split at hu
    · cases hu
    rw [(checkRedirectConditions_ok hu).1]
    refine h.redirect fun rr hrr => ?_
    obtain rfl | hrr := mem_cons.mp hrr
    · exact .inr (Bool.eq_false_iff.mpr hfree)
    · exact .inl (isActiveRedirectRuleSource_iff.mpr ⟨rr, hrr, rfl⟩)
  case replaceRedirect o rule maxUpstreamBuildIDs =>
    obtain ⟨-, -, hu⟩ := bind_ok hu
    split at hu
    · rename_i hsource
      rw [(checkRedirectConditions_ok hu).1]
      refine h.redirect fun rr hrr => .inl ?_
      obtain rfl | hrr := mem_cons.mp hrr
      · exact hsource
      · exact mem_active_of_deleteSource hrr
    · cases hu
  case deleteRedirect source =>
    simp only [deleteCompatibleRedirectRule] at hu
    obtain ⟨-, rfl⟩ := Lib.guard_ok hu
    exact h.redirect fun rr hrr => .inl (mem_active_of_deleteSource hrr)
  case cleanup recent =>
    cases hu
    intro rr hrr ar har
    exact h rr ((filter_sublist.filter _).subset hrr) ar ((filter_sublist.filter _).subset har)
  case commit target force hasRecentPoller maxAssignmentRules =>
    simp only [commitBuildID] at hu
    split_ifs at hu
    rw [checkAssignmentConditions_ok hu]
    refine h.assign fun ar har => ?_
    rw [active_append, active_commit, mem_append] at har
    obtain har | har := har
    · exact .inl (mem_of_mem_filter har)
    cases mem_singleton.mp har
    exact .inr (.inl rfl)

/-- Over every sequence of successful updates from no redirect rules, no active redirect rule has the
target of an active partially ramped rule as its source. -/
theorem rampedTargets_unredirected (start : Option VersioningData) (hstart : (cloneOrMkData start).redirectRules = [])
    (updates : List (Clock × RuleUpdate)) {final : Option VersioningData}
    (hr : Lib.run ruleStep start updates = .ok final) : RampsUnredirected (cloneOrMkData final) := by
  have along : Lib.Along (fun _ _ => True) ruleStep start updates :=
    .of_forall (fun _ _ _ => trivial) start
  refine along.inv (I := fun data => RampsUnredirected (cloneOrMkData data))
    (fun data update data' hd _ hu => ?_) (fun rr hrr => ?_) hr
  · obtain ⟨result, hres, rfl⟩ := map_ok hu
    exact hd.update update hres
  rw [hstart] at hrr
  cases hrr

def rampAndRedirect : List (Clock × RuleUpdate) :=
  [(⟨1, 0, 1⟩, .insertAssignment 0 ⟨"a", some 50⟩ 0), (⟨2, 0, 1⟩, .addRedirect listed ⟨"b", "c"⟩ 0 10)]

theorem rampedTargets_unredirected_beside : ∃ final,
    Lib.run ruleStep none rampAndRedirect = .ok final ∧ RampsUnredirected (cloneOrMkData final) := by
  obtain ⟨final, hr, -⟩ : ∃ final, Lib.run ruleStep none rampAndRedirect = .ok final ∧
      (cloneOrMkData final).redirectRules.length = 1 := by decide +kernel
  exact ⟨final, hr, rampedTargets_unredirected none rfl _ hr⟩

/-! ## Ramp selection -/

/-- The share of an id that the percentages of the rules are meant for, over the whole of [0, 100). -/
def rampShare (fingerprint32 : String → BitVec 32) (random : ℚ) (id : String) : ℚ :=
  if id = "" then 100 * random else 100 * ((fingerprint32 id).toNat / 2 ^ 32)

def takes (share : ℚ) (ar : AssignmentRule) : Bool :=
  isFullyRamped ar.rule || share < ar.rule.ramp.getD 0

def firstTarget (share : ℚ) (rules : List AssignmentRule) : String :=
  ((rules.find? (takes share)).map (·.rule.targetBuildId)).getD ""

lemma assignLoop_eq {calculated rampThreshold : ℚ}
    (hramp : rampThreshold = -1 ∨ rampThreshold = calculated) :
    assignLoop calculated rampThreshold rules = firstTarget calculated (getActiveAssignmentRules rules) := by
  induction rules generalizing rampThreshold with
  | nil => rfl
  | cons r rules ih =>
    have hthreshold : (if rampThreshold = -1 then calculated else rampThreshold) = calculated := by
      split
      · rfl
      · exact hramp.resolve_left ‹_›
    simp only [assignLoop, hthreshold]
    cases hact : r.isActive with
    | false =>
      rw [active_cons_of_deleted hact]
      exact ih hramp
    | true =>
      rw [active_cons_of_active hact]
      cases hfull : isFullyRamped r.rule with
      | true => simp [firstTarget, takes, hfull]
      | false =>
        by_cases hle : r.rule.ramp.getD 0 ≤ calculated
        · simpa [firstTarget, takes, hfull, hle, not_lt.mpr hle] using ih (.inr rfl)
        · simp [firstTarget, takes, hfull, hle, not_le.mp hle]

/-- The rule is partially ramped, with a percentage that is not above the share. -/
def Passed (share : ℚ) (ar : AssignmentRule) : Prop :=
  isFullyRamped ar.rule = false ∧ ar.rule.ramp.getD 0 ≤ share

instance (share : ℚ) (ar : AssignmentRule) : Decidable (Passed share ar) := inferInstanceAs (Decidable (_ ∧ _))

/-- The next rule that is not passed has this target. Without one it is empty. -/
def NextTarget (share : ℚ) (target : String) (rules : List AssignmentRule) : Prop :=
  (∃ skipped next rest, rules = skipped ++ next :: rest ∧ (∀ ar ∈ skipped, Passed share ar) ∧
    ¬Passed share next ∧ next.rule.targetBuildId = target) ∨
  (∀ ar ∈ rules, Passed share ar) ∧ target = ""

/-- If the first rule that the random number does not pass is passed by its hundredfold, then the next one
that is not passed has the same target. -/
def RampsSettled (random : ℚ) (rules : List AssignmentRule) : Prop :=
  ∀ before ar behind, rules = before ++ ar :: behind → (∀ r ∈ before, Passed random r) →
    ¬Passed random ar → Passed (100 * random) ar → NextTarget (100 * random) ar.rule.targetBuildId behind

/-- A rule is taken or passed. -/
lemma takes_eq_false {share : ℚ} {ar : AssignmentRule} : takes share ar = false ↔ Passed share ar := by
  simp [takes, Passed]

lemma firstTarget_append {share : ℚ} {before : List AssignmentRule} (h : ∀ ar ∈ before, Passed share ar)
    (rules : List AssignmentRule) : firstTarget share (before ++ rules) = firstTarget share rules := by
  have hnone : before.find? (takes share) = none := find?_eq_none.mpr fun ar har => by
    simp [takes_eq_false.mpr (h ar har)]
  simp [firstTarget, find?_append, hnone]

lemma firstTarget_taken {share : ℚ} {ar : AssignmentRule} (h : ¬Passed share ar) :
    firstTarget share (ar :: rules) = ar.rule.targetBuildId := by
  have htakes : takes share ar = true := by simpa [← takes_eq_false] using h
  simp [firstTarget, htakes]

/-- The rules up to the first one that is not passed. -/
lemma exists_first_taken (share : ℚ) (rules : List AssignmentRule) :
    (∀ ar ∈ rules, Passed share ar) ∨ ∃ before ar behind, rules = before ++ ar :: behind ∧
      (∀ r ∈ before, Passed share r) ∧ ¬Passed share ar := by
  cases hfind : rules.find? (takes share) with
  | none => exact .inl fun ar har => takes_eq_false.mp (by simpa using find?_eq_none.mp hfind ar har)
  | some ar =>
    obtain ⟨htakes, before, behind, hrules, hbefore⟩ := find?_eq_some_iff_append.mp hfind
    refine .inr ⟨before, ar, behind, hrules, fun r hr => takes_eq_false.mp (by simpa using hbefore r hr), ?_⟩
    simp [← takes_eq_false, htakes]

lemma firstTarget_eq_iff {share : ℚ} {target : String} :
    firstTarget share rules = target ↔ NextTarget share target rules := by
  have hnone : (∀ ar ∈ rules, Passed share ar) → firstTarget share rules = "" := fun h => by
    simpa [firstTarget] using firstTarget_append h []
  constructor
  · rintro rfl
    obtain hall | ⟨before, ar, behind, hrules, hbefore, har⟩ := exists_first_taken share rules
    · exact .inr ⟨hall, hnone hall⟩
    · refine .inl ⟨before, ar, behind, hrules, hbefore, har, ?_⟩
      rw [hrules, firstTarget_append hbefore, firstTarget_taken har]
  · rintro (⟨before, ar, behind, rfl, hbefore, har, rfl⟩ | ⟨hall, rfl⟩)
    · rw [firstTarget_append hbefore, firstTarget_taken har]
    · exact hnone hall

/-- The two shares give one target just if the ramps do not tell them apart. -/
lemma firstTarget_iff {random : ℚ} (h : 0 ≤ random) :
    firstTarget random rules = firstTarget (100 * random) rules ↔ RampsSettled random rules := by
  have hmono : ∀ ar, Passed random ar → Passed (100 * random) ar := fun ar hpassed =>
    ⟨hpassed.1, hpassed.2.trans (le_mul_of_one_le_left h (by decide +kernel))⟩
  constructor
  · rintro heq before ar behind rfl hbefore har hshare
    have hbefore' : ∀ r ∈ before ++ [ar], Passed (100 * random) r := by
      simpa [or_imp, forall_and] using ⟨fun r hr => hmono r (hbefore r hr), hshare⟩
    rw [firstTarget_append hbefore, firstTarget_taken har, append_cons, firstTarget_append hbefore'] at heq
    exact firstTarget_eq_iff.mp heq.symm
  · intro hsettled
    obtain hall | ⟨before, ar, behind, rfl, hbefore, har⟩ := exists_first_taken random rules
    · rw [firstTarget_eq_iff.mpr (.inr ⟨hall, rfl⟩),
        firstTarget_eq_iff.mpr (.inr ⟨fun ar har => hmono ar (hall ar har), rfl⟩)]
    rw [firstTarget_append hbefore, firstTarget_taken har, firstTarget_append fun r hr => hmono r (hbefore r hr)]
    by_cases hshare : Passed (100 * random) ar
    · have hbehind := firstTarget_eq_iff.mpr (hsettled before ar behind rfl hbefore har hshare)
      rw [← hbehind, ← firstTarget_append (forall_mem_singleton.mpr hshare)]
      rfl
    · rw [firstTarget_taken hshare]

def halfRamped : List AssignmentRule :=
  [⟨⟨"a", some 50⟩, ⟨1, 0, 1⟩, none⟩, ⟨⟨"b", some 100⟩, ⟨1, 0, 1⟩, none⟩]

end FastOrchestration.Matching
