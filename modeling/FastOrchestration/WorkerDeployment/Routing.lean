import FastOrchestration.Lib.Run
import FastOrchestration.WorkerDeployment.Workflow

/-!
# Routing config and version summaries

The routing config and the summaries are two representations of which version is current and which
one ramps. `Consistent` says that they agree. The handlers change the summaries first and the routing
config last, so the proofs describe what each part of a handler does to the status of the versions
(`Marks`, `Keeps`) and compare with the routing config at the end.

Two shortcuts of the handlers break the agreement. `handleSetCurrent` tells the previous current version
that it is not current any more, also if it is the new one: repeating the current version under another
identity leaves it draining. And a ramp of zero percent to the unversioned workers is accepted while
they are current, which makes the two versions equal. Apart from these, and from a worker that registers
without a version, every run of updates keeps the agreement (`routing_consistent`).
-/

namespace FastOrchestration.WorkerDeployment

open AList Lib LocalState

namespace LocalState

variable {s s' s'' : LocalState} {env : Env} {v version : String} {now : Time} {st : VersionStatus}
  {summary : VersionSummary}

def status (s : LocalState) (v : String) : Option VersionStatus :=
  (s.versions.lookup v).map (·.status)

lemma mem_iff_status : v ∈ s.versions ↔ ∃ st, s.status v = some st := by
  rw [← lookup_isSome, Option.isSome_iff_exists]
  simp [status]

def Keyed (s : LocalState) : Prop :=
  ∀ v summary, s.versions.lookup v = some summary → summary.version = v

lemma Keyed.insert (h : s.Keyed) (hv : summary.version = version) :
    Keyed { s with versions := s.versions.insert version summary } := by
  intro v summary' hlookup
  by_cases hne : v = version
  · subst hne
    rw [lookup_insert] at hlookup
    cases hlookup
    exact hv
  rw [lookup_insert_ne hne] at hlookup
  exact h v summary' hlookup

lemma status_insert (summary : VersionSummary) : status { s with versions := s.versions.insert version summary } v =
      if v = version then some summary.status else s.status v := by
  by_cases h : v = version
  · subst h
    simp [status]
  · simp [status, lookup_insert_ne h, h]

/-- A version proper: neither the unversioned workers nor none at all. -/
def Versioned (v : String) : Prop := v ≠ unversionedVersionId ∧ v ≠ ""

instance (v : String) : Decidable (Versioned v) := inferInstanceAs (Decidable (_ ∧ _))

/-- A part of a handler that leaves the routing config and all statuses as they are. -/
structure Keeps (s s' : LocalState) : Prop where
  routing : s'.routingConfig = s.routingConfig
  keyed : s.Keyed → s'.Keyed
  status : ∀ v, s'.status v = s.status v

/-- A part of a handler that changes the status of one version, if it is one proper, and not the
routing config. -/
structure Marks (s s' : LocalState) (version : String) (st : VersionStatus) : Prop where
  routing : s'.routingConfig = s.routingConfig
  keyed : s.Keyed → s'.Keyed
  status : ∀ v, s'.status v = if v = version ∧ Versioned version then some st else s.status v

lemma Keeps.refl (s : LocalState) : s.Keeps s := ⟨rfl, id, fun _ => rfl⟩

lemma Keeps.mem (h : s.Keeps s') : v ∈ s'.versions ↔ v ∈ s.versions := by
  rw [mem_iff_status, mem_iff_status, h.status]

lemma Marks.keeps (h : s.Marks s' version st) (h' : s'.Keeps s'') : s.Marks s'' version st where
  routing := h'.routing.trans h.routing
  keyed hk := h'.keyed (h.keyed hk)
  status v := by rw [h'.status, h.status]

lemma Marks.mem (h : s.Marks s' version st) (hv : v ∈ s.versions) : v ∈ s'.versions := by
  obtain ⟨st', hst'⟩ := mem_iff_status.mp hv
  refine mem_iff_status.mpr ?_
  rw [h.status]
  split
  · exact ⟨st, rfl⟩
  · exact ⟨st', hst'⟩

lemma Keeps.of_not_versioned (h : s.Keeps s') (hv : ¬ Versioned version) : s.Marks s' version st where
  routing := h.routing
  keyed := h.keyed
  status v := by rw [h.status, if_neg fun hand => hv hand.2]

lemma marks_insert (hv : Versioned version) (hversion : summary.version = version) :
    s.Marks { s with versions := s.versions.insert version summary } version summary.status where
  routing := rfl
  keyed hk := hk.insert hversion
  status v := by simp only [status_insert, hv, and_true]

lemma syncVersion_marks (args : SyncVersionStateUpdateArgs) (activated : Bool) (hv : Versioned version)
    (h : version ∈ s.versions) :
    s.Marks (s.syncVersion version args activated) version (syncedStatus args) := by
  obtain ⟨existing, hex⟩ := Option.isSome_iff_exists.mp (lookup_isSome.mpr h)
  simp only [syncVersion, updateVersionSummary, hex]
  split
  · exact marks_insert hv rfl
  · exact marks_insert hv rfl

lemma setDrainageStatus_keeps (s : LocalState) (version : String) (d : DrainageStatus) (now : Time) :
    s.Keeps (s.setDrainageStatus version d now) := by
  cases hlookup : s.versions.lookup version with
  | none =>
    simp only [setDrainageStatus, hlookup]
    exact .refl s
  | some summary =>
    simp only [setDrainageStatus, hlookup]
    refine ⟨rfl, fun hk => hk.insert (hk version summary hlookup), fun v => ?_⟩
    rw [status_insert]
    by_cases hv : v = version
    · rw [if_pos hv, hv, status, hlookup]
      rfl
    · rw [if_neg hv]

section

variable (h : Versioned version → version ∈ s.versions)

include h

omit h in
lemma marks_ite (hmarks : Versioned version → s.Marks s' version st) :
    s.Marks (if Versioned version then s' else s) version st := by
  split
  · next hv => exact hmarks hv
  · next hv => exact (Keeps.refl s).of_not_versioned hv

lemma activateCurrent_marks : s.Marks (s.activateCurrent version now) version .current :=
  marks_ite fun hv => (syncVersion_marks _ true hv (h hv)).keeps (setDrainageStatus_keeps _ _ _ _)

lemma deactivate_marks : s.Marks (s.deactivate version now) version .draining :=
  marks_ite fun hv => (syncVersion_marks _ false hv (h hv)).keeps (setDrainageStatus_keeps _ _ _ _)

omit h in
lemma rampingVersionStringUnversioned_iff : (!rampingVersionStringUnversioned version) ↔ Versioned version := by
  simp [rampingVersionStringUnversioned, Versioned]

lemma unsetRamp_marks : s.Marks (s.unsetRamp version now) version .draining := by
  by_cases hv : Versioned version
  · simp only [unsetRamp, rampingVersionStringUnversioned_iff, if_pos hv]
    exact (syncVersion_marks _ false hv (h hv)).keeps (setDrainageStatus_keeps _ _ _ _)
  simp only [unsetRamp, rampingVersionStringUnversioned_iff, if_neg hv]
  exact (setDrainageStatus_keeps _ _ _ _).of_not_versioned hv

lemma setRamp_marks (percentage : Rat) {since : Option Time}
    (hsince : since.isSome) : s.Marks (s.setRamp version percentage since now) version .ramping := by
  obtain ⟨t, rfl⟩ := Option.isSome_iff_exists.mp hsince
  simp only [setRamp, rampingVersionStringUnversioned_iff]
  exact marks_ite fun hv => syncVersion_marks _ true hv (h hv)

end

/-- The routing config and the summaries agree. -/
structure Consistent (s : LocalState) : Prop where
  differ : s.routingConfig.currentVersion ≠ s.routingConfig.rampingVersion
  current_mem : Versioned s.routingConfig.currentVersion → s.routingConfig.currentVersion ∈ s.versions
  ramping_mem : Versioned s.routingConfig.rampingVersion → s.routingConfig.rampingVersion ∈ s.versions
  status : ∀ v summary, s.versions.lookup v = some summary →
    (summary.status = .current ↔ v = s.routingConfig.currentVersion) ∧
      (summary.status = .ramping ↔ v = s.routingConfig.rampingVersion)

/-- What the updates keep besides: the map has versions proper, each under its own name, some version
is current, and a version that ramps has a time since it does. -/
structure Inv (s : LocalState) : Prop extends s.Consistent where
  keyed : s.Keyed
  versioned : ∀ v ∈ s.versions, Versioned v
  current_ne : s.routingConfig.currentVersion ≠ ""
  since : s.routingConfig.rampingVersion ≠ "" → s.routingConfig.rampingVersionChangedTime.isSome = true

lemma Consistent.status_iff (h : s.Consistent) {st} (hst : s.status v = some st) :
    (st = .current ↔ v = s.routingConfig.currentVersion) ∧ (st = .ramping ↔ v = s.routingConfig.rampingVersion) := by
  obtain ⟨summary, hlookup, rfl⟩ := Option.map_eq_some_iff.mp hst
  exact h.status v summary hlookup

lemma validateDeleteVersion_ok {args : DeleteVersionArgs} (h : s.validateDeleteVersion args = .ok ()) :
    args.version ≠ s.routingConfig.currentVersion ∧ args.version ≠ s.routingConfig.rampingVersion := by
  simp only [validateDeleteVersion] at h
  split at h
  · cases h
  split at h
  · cases h
  rename_i hne
  exact ⟨fun heq => hne (.inl heq.symm), fun heq => hne (.inr heq.symm)⟩

lemma Inv.deleteVersion (h : s.Inv) {args}
    (hok : s.validateDeleteVersion args = .ok ()) : (s.deleteVersion args).Inv := by
  obtain ⟨hcurrent, hramping⟩ := validateDeleteVersion_ok hok
  have hmem : ∀ v, v ∈ s.versions.erase args.version ↔ v ≠ args.version ∧ v ∈ s.versions :=
    fun v => mem_erase
  have hlookup : ∀ v summary, (s.versions.erase args.version).lookup v = some summary →
      s.versions.lookup v = some summary := by
    intro v summary hv
    have hne := ((hmem v).mp (lookup_isSome.mp (by simp [hv]))).1
    rwa [lookup_erase_ne hne] at hv
  exact
    { h with
      current_mem := fun hv => (hmem _).mpr ⟨hcurrent.symm, h.current_mem hv⟩
      ramping_mem := fun hv => (hmem _).mpr ⟨hramping.symm, h.ramping_mem hv⟩
      status := fun v summary hv => h.status v summary (hlookup v summary hv)
      keyed := fun v summary hv => h.keyed v summary (hlookup v summary hv)
      versioned := fun v hv => h.versioned v ((hmem v).mp hv).2 }

lemma tryDeleteVersion_ok (h : s.tryDeleteVersion env = .ok s') :
    ∃ args, s.validateDeleteVersion args = .ok () ∧ s' = s.deleteVersion args := by
  simp only [tryDeleteVersion] at h
  split at h
  · rename_i v hfind
    cases h
    refine ⟨_, ?_, rfl⟩
    have hvalid := (Bool.and_eq_true_iff.mp (List.find?_some hfind :)).1
    cases hval : s.validateDeleteVersion ⟨"try-delete-for-add-version", v.version⟩ with
    | ok u => rfl
    | error e =>
      rw [hval] at hvalid
      cases hvalid
  · cases h

lemma Inv.insert (h : s.Inv) (hv : Versioned version) (hnew : version ∉ s.versions) (hversion : summary.version = version) (hstatus : summary.status = .inactive) :
    Inv { s with versions := s.versions.insert version summary } := by
  have hcurrent : version ≠ s.routingConfig.currentVersion := by
    rintro rfl
    exact hnew (h.current_mem hv)
  have hramping : version ≠ s.routingConfig.rampingVersion := by
    rintro rfl
    exact hnew (h.ramping_mem hv)
  exact
    { h with
      current_mem := fun hc => (mem_insert _).mpr (.inr (h.current_mem hc))
      ramping_mem := fun hr => (mem_insert _).mpr (.inr (h.ramping_mem hr))
      status := by
        intro v summary' hlookup
        by_cases hne : v = version
        · subst hne
          rw [lookup_insert] at hlookup
          cases hlookup
          simp [hstatus, hcurrent, hramping]
        rw [lookup_insert_ne hne] at hlookup
        exact h.status v summary' hlookup
      keyed := h.keyed.insert hversion
      versioned := fun v hmem => ((mem_insert _).mp hmem).elim (fun heq => heq ▸ hv) (h.versioned v) }

lemma Inv.makeRoom (h : s.Inv) (hok : s.makeRoom env version = .ok s') :
    s'.Inv ∧ s'.routingConfig = s.routingConfig ∧ ∀ v, v ∈ s'.versions → v ∈ s.versions := by
  simp only [LocalState.makeRoom] at hok
  split at hok
  · cases hdel : s.tryDeleteVersion env with
    | error e =>
      rw [hdel] at hok
      cases hok
    | ok s1 =>
      rw [hdel] at hok
      cases hok
      obtain ⟨args, hvalid, rfl⟩ := tryDeleteVersion_ok hdel
      exact ⟨h.deleteVersion hvalid, rfl, fun v hv => (mem_erase.mp hv).2⟩
  cases hok
  exact ⟨h, rfl, fun _ hv => hv⟩

lemma Keyed.any_iff (h : s.Keyed) :
    s.versions.entries.any (fun entry => entry.2.version = version) ↔ version ∈ s.versions := by
  have hentry : ∀ entry ∈ s.versions.entries, entry.2.version = entry.1 := fun entry hmem =>
    h entry.1 entry.2 (mem_lookup_iff.mpr hmem)
  simp only [List.any_eq_true, decide_eq_true_eq]
  constructor
  · rintro ⟨entry, hmem, rfl⟩
    rw [hentry entry hmem]
    exact List.mem_keys_of_mem hmem
  intro hmem
  obtain ⟨summary, hs⟩ := List.exists_of_mem_keys hmem
  exact ⟨_, hs, hentry _ hs⟩

lemma Inv.addVersion (h : s.Inv) (hv : Versioned version) {createTime}
    (hok : s.addVersionToWorkerDeployment env version createTime = .ok s') :
    s'.Inv ∧ s'.routingConfig = s.routingConfig ∧ version ∈ s'.versions := by
  simp only [addVersionToWorkerDeployment, h.keyed.any_iff] at hok
  split at hok
  · rename_i hmem
    cases hok
    exact ⟨h, rfl, hmem⟩
  rename_i hnew
  obtain ⟨s1, hroom, hok⟩ := bind_ok hok
  cases hok
  obtain ⟨h1, hrouting, hsub⟩ := h.makeRoom hroom
  exact ⟨h1.insert hv (fun hmem => hnew (hsub _ hmem)) rfl rfl, hrouting, (mem_insert _).mpr (.inl rfl)⟩

/-- The empty string does not parse, so it is never added. -/
lemma Inv.addMissing (h : s.Inv) {wanted} (hv : wanted = true → version ≠ unversionedVersionId)
    (hok : s.addMissingVersion env version wanted = .ok s') :
    s'.Inv ∧ s'.routingConfig = s.routingConfig ∧ (version ∈ s.versions ∨ wanted → version ∈ s'.versions) := by
  simp only [addMissingVersion] at hok
  split at hok
  · rename_i hmissing
    obtain ⟨s1, hadd, hok⟩ := bind_ok hok
    obtain ⟨parsed, hparsed, hok⟩ := bind_ok hok
    cases hok
    have hne : version ≠ "" := by
      rintro rfl
      cases hparsed
    obtain ⟨h1, hrouting, hmem⟩ := h.addVersion ⟨hv hmissing.2, hne⟩ hadd
    exact ⟨h1, hrouting, fun _ => hmem⟩
  rename_i hpresent
  cases hok
  refine ⟨h, rfl, fun hor => hor.elim id fun hw => ?_⟩
  by_contra hnot
  exact hpresent ⟨hnot, hw⟩

lemma validateSetCurrent_ok {args : SetCurrentVersionArgs}
    (h : s.validateStateBeforeAcceptingSetCurrent args = .ok ()) :
    args.version ∈ s.versions ∨ args.version = unversionedVersionId ∨ args.allowNoPollers := by
  simp only [validateStateBeforeAcceptingSetCurrent] at h
  split at h
  · cases h
  split at h
  · cases h
  split at h
  · cases h
  rename_i hfound
  simp only [Bool.not_eq_eq_eq_not, Bool.not_true, not_and, Bool.not_eq_false] at hfound
  by_cases hmem : args.version ∈ s.versions
  · exact .inl hmem
  by_cases hun : args.version = unversionedVersionId
  · exact .inr (.inl hun)
  · exact .inr (.inr (hfound hmem hun))

/-- Some parts of a handler have led from `s` to `s'`, where the versions in `C` are marked as current and those in
`R` as ramping. -/
structure Stage (s s' : LocalState) (C R : String → Prop) : Prop where
  routing : s'.routingConfig = s.routingConfig
  keyed : s'.Keyed
  mem : ∀ v ∈ s.versions, v ∈ s'.versions
  status : ∀ v st, s'.status v = some st → Versioned v ∧ (st = .current ↔ C v) ∧ (st = .ramping ↔ R v)

lemma Inv.stage (h : s.Inv) : s.Stage s (· = s.routingConfig.currentVersion) (· = s.routingConfig.rampingVersion) :=
  ⟨rfl, h.keyed, fun _ hv => hv, fun v st hst => ⟨h.versioned v (mem_iff_status.mpr ⟨st, hst⟩), h.status_iff hst⟩⟩

section

variable {C R C' R' : String → Prop} (h : s.Stage s' C R)

include h

lemma Stage.keeps (hk : s'.Keeps s'') : s.Stage s'' C R :=
  ⟨hk.routing.trans h.routing, hk.keyed h.keyed, fun v hv => hk.mem.mpr (h.mem v hv), fun v st hst =>
    h.status v st (hk.status v ▸ hst)⟩

lemma Stage.marks (hm : s'.Marks s'' version st) : s.Stage s'' (fun v => if v = version then st = .current else C v)
    fun v => if v = version then st = .ramping else R v := by
  refine ⟨hm.routing.trans h.routing, hm.keyed h.keyed, fun v hv => hm.mem (h.mem v hv), fun v st' hst => ?_⟩
  rw [hm.status] at hst
  split at hst
  · next hv =>
    cases hst
    exact ⟨hv.1 ▸ hv.2, by simp [hv.1]⟩
  next hv =>
  have hstatus := h.status v st' hst
  have hne : v ≠ version := fun heq => hv ⟨heq, heq ▸ hstatus.1⟩
  simpa [hne] using hstatus

lemma Stage.congr (hCR : ∀ v, Versioned v → (C v ↔ C' v) ∧ (R v ↔ R' v)) : s.Stage s' C' R' := by
  refine ⟨h.routing, h.keyed, h.mem, fun v st hst => ?_⟩
  obtain ⟨hv, hc, hr⟩ := h.status v st hst
  exact ⟨hv, hc.trans (hCR v hv).1, hr.trans (hCR v hv).2⟩

end

/-- The routing config is changed to what the versions are marked as. -/
lemma Stage.inv {t : LocalState}
    (h : s.Stage s' (· = t.routingConfig.currentVersion) (· = t.routingConfig.rampingVersion))
    (hversions : t.versions = s'.versions) (hcurrent : t.routingConfig.currentVersion ≠ "")
    (hdiffer : t.routingConfig.currentVersion ≠ t.routingConfig.rampingVersion)
    (hsince : t.routingConfig.rampingVersion ≠ "" → t.routingConfig.rampingVersionChangedTime.isSome)
    (hcurrentMem : Versioned t.routingConfig.currentVersion → t.routingConfig.currentVersion ∈ s.versions)
    (hrampingMem : Versioned t.routingConfig.rampingVersion → t.routingConfig.rampingVersion ∈ s.versions) : t.Inv where
  differ := hdiffer
  current_mem hv := hversions ▸ h.mem _ (hcurrentMem hv)
  ramping_mem hv := hversions ▸ h.mem _ (hrampingMem hv)
  status v summary hlookup := (h.status v summary.status (by simp [LocalState.status, ← hversions, hlookup])).2
  keyed v summary hlookup := h.keyed v summary (hversions ▸ hlookup)
  versioned v hmem := by
    obtain ⟨st, hst⟩ := mem_iff_status.mp (hversions ▸ hmem)
    exact (h.status v st hst).1
  current_ne := hcurrent
  since := hsince

lemma Inv.setCurrent (h : s.Inv) {args : SetCurrentVersionArgs} {prev}
    (hother : args.version = s.routingConfig.currentVersion → args.version = unversionedVersionId)
    (hok : s.handleSetCurrent env args = .ok (s', prev)) : s'.Inv := by
  obtain ⟨⟨⟩, hvalid, hok⟩ := bind_ok hok
  obtain ⟨s1, hadd, hok⟩ := bind_ok hok
  split at hok
  · cases hok
  cases hok
  obtain ⟨h1, hrouting, hadded⟩ := h.addMissing (by simp +contextual) hadd
  have hnew : args.version ∈ s1.versions ∨ args.version = unversionedVersionId := by
    obtain hmem | hun | hallow := validateSetCurrent_ok hvalid
    · exact .inl (hadded (.inl hmem))
    · exact .inr hun
    by_cases hun : args.version = unversionedVersionId
    · exact .inr hun
    · exact .inl (hadded (.inr (by simp [hun, hallow])))
  have hne : args.version ≠ "" := by
    obtain hmem | hun := hnew
    · exact (h1.versioned _ hmem).2
    rw [hun]
    decide
  rw [← hrouting] at hother ⊢
  -- the new version is activated, and the previous one deactivated
  have hact := h1.stage.marks (@activateCurrent_marks s1 args.version env.now fun hv => hnew.resolve_right hv.1)
  have hstage := hact.marks (@deactivate_marks _ s1.routingConfig.currentVersion env.now fun hv => hact.mem _ (h1.current_mem hv))
  generalize (s1.activateCurrent args.version env.now).deactivate s1.routingConfig.currentVersion env.now = s3 at hstage ⊢
  simp only [hstage.routing]
  have hdiffer := h1.differ
  refine @Stage.inv _ s3 _ (hstage.congr fun v hv => ?_) rfl hne ?_ ?_ (fun hv => hnew.resolve_right hv.1) ?_
  · have hold : v = s1.routingConfig.currentVersion → v ≠ args.version := fun hprev heq =>
      hv.1 (heq ▸ hother (heq ▸ hprev))
    have hnone := hv.2
    clear * - hold hnone hdiffer
    dsimp only
    grind
  · dsimp only
    split
    · exact hne
    · assumption
  · dsimp only
    split
    · simp
    · exact h1.since
  · intro hv
    dsimp only at hv ⊢
    split at hv
    · exact absurd rfl hv.2
    · next hkept => exact if_neg hkept ▸ h1.ramping_mem hv

lemma validateRamping_ok {args : SetRampingVersionArgs}
    (h : s.validateStateBeforeAcceptingRampingUpdate args = .ok ()) :
    (args.version = s.routingConfig.currentVersion → args.version = unversionedVersionId) ∧
      (Versioned args.version → args.version ∈ s.versions ∨ args.allowNoPollers) := by
  simp only [validateStateBeforeAcceptingRampingUpdate] at h
  split at h
  · cases h
  split at h
  · cases h
  split at h
  · cases h
  split at h
  · cases h
  rename_i hcurrent hfound
  refine ⟨fun heq => ?_, fun hv => ?_⟩
  · by_contra hne
    exact hcurrent ⟨heq, fun hand => hne hand.1⟩
  simp only [Bool.not_eq_eq_eq_not, Bool.not_true, not_and, Bool.not_eq_false] at hfound
  by_cases hmem : args.version ∈ s.versions
  · exact .inl hmem
  · exact .inr (hfound hmem hv.1 hv.2)

lemma Inv.moveRamp (h : s.Inv) (percentage : Rat) {since : Option Time} (hother : version ≠ s.routingConfig.currentVersion)
    (hnew : Versioned version → version ∈ s.versions) (hsince : version ≠ "" → since.isSome) :
    s.Stage (s.moveRamp s.routingConfig.rampingVersion version percentage since now)
      (· = s.routingConfig.currentVersion) (· = version) := by
  have hdiffer := h.differ
  dsimp only [LocalState.moveRamp]
  split
  · refine (h.stage.marks (unsetRamp_marks h.ramping_mem)).congr fun v hv => ?_
    have hnone := hv.2
    grind
  next hset =>
  have hkeeps : s.Keeps (if s.routingConfig.rampingVersion ≠ version then s.setDrainageStatus version .unspecified now
      else s) := by
    split
    · exact setDrainageStatus_keeps _ _ _ _
    · exact .refl s
  generalize (if s.routingConfig.rampingVersion ≠ version then _ else s) = s1 at hkeeps ⊢
  have hstage := (h.stage.keeps hkeeps).marks
    (@setRamp_marks _ version now (fun hv => hkeeps.mem.mpr (hnew hv)) percentage _ (hsince hset))
  split
  · refine (hstage.marks (unsetRamp_marks fun hv => hstage.mem _ (h.ramping_mem hv))).congr fun v hv => ?_
    grind
  · refine hstage.congr fun v hv => ?_
    have hnone := hv.2
    grind

lemma Inv.setRamping (h : s.Inv) {args : SetRampingVersionArgs} {prev}
    (hother : ¬ (args.version = unversionedVersionId ∧ s.routingConfig.currentVersion = unversionedVersionId))
    (hok : s.handleSetRampingVersion env args = .ok (s', prev)) : s'.Inv := by
  obtain ⟨⟨⟩, hvalid, hok⟩ := bind_ok hok
  obtain ⟨s1, hadd, hok⟩ := bind_ok hok
  split at hok
  · cases hok
  cases hok
  obtain ⟨hcurrent, hfound⟩ := validateRamping_ok hvalid
  obtain ⟨h1, hrouting, hadded⟩ := h.addMissing (by simp +contextual) hadd
  have hnew : Versioned args.version → args.version ∈ s1.versions := by
    intro hv
    obtain hmem | hallow := hfound hv
    · exact hadded (.inl hmem)
    · exact hadded (.inr (by simp [hv.1, hv.2, hallow]))
  have hdiffer : args.version ≠ s.routingConfig.currentVersion := fun heq =>
    hother ⟨hcurrent heq, heq ▸ hcurrent heq⟩
  rw [← hrouting] at hdiffer ⊢
  -- a version that was ramping before keeps its time
  have hsince : args.version ≠ "" → (if s1.routingConfig.rampingVersion ≠ args.version then some env.now
      else s1.routingConfig.rampingVersionChangedTime).isSome := by
    intro hne
    split
    · rfl
    next hsame => exact h1.since (not_ne_iff.mp hsame ▸ hne)
  have hstage := @Inv.moveRamp _ _ env.now h1 args.percentage _ hdiffer hnew hsince
  generalize s1.moveRamp _ _ _ _ _ = s2 at hstage ⊢
  simp only [hstage.routing]
  refine @Stage.inv _ s2 _ hstage rfl h1.current_ne hdiffer.symm (fun hne => ?_) h1.current_mem hnew
  dsimp only at hne ⊢
  rw [if_neg hne]
  exact hsince hne

lemma inv_newDeployment (now : Time) : (newDeployment now).Inv where
  differ := by
    dsimp only [newDeployment]
    decide
  current_mem hv := absurd rfl hv.1
  ramping_mem hv := absurd rfl hv.2
  status _ _ h := (nomatch h)
  keyed _ _ h := (nomatch h)
  versioned _ h := absurd h (notMem_empty _)
  current_ne := by
    dsimp only [newDeployment]
    decide
  since h := absurd rfl h

end LocalState

/-- The updates for which the shortcuts of the handlers are right: the current version is not repeated
unless it is unversioned, the unversioned workers do not ramp while they are current, and a worker
registers with a version. -/
def Update.Routable (s : LocalState) : Update → Prop
  | .setCurrent args =>
    args.version = s.routingConfig.currentVersion → args.version = unversionedVersionId
  | .setRamping args => ¬ (args.version = unversionedVersionId ∧ s.routingConfig.currentVersion = unversionedVersionId)
  | .registerWorker version => version ≠ none
  | _ => True

instance (s : LocalState) (update : Update) : Decidable (update.Routable s) := by
  cases update <;> unfold Update.Routable <;> infer_instance

lemma versioned_workerDeploymentVersion (v : DeploymentVersion) :
    Versioned (workerDeploymentVersionToStringV31 (some v)) := by
  have hdot : '.' ∈ (workerDeploymentVersionToStringV31 (some v)).toList := by
    simp [workerDeploymentVersionToStringV31]
  constructor
  · intro heq
    rw [heq] at hdot
    exact absurd hdot (by decide)
  intro heq
  rw [heq] at hdot
  exact absurd hdot (by decide)

lemma updateStep_inv {s s' : LocalState} {update} (h : s.Inv)
    (hroutable : update.2.Routable s) (hok : updateStep s update = .ok s') : s'.Inv := by
  obtain ⟨env, update⟩ := update
  cases update with
  | setCurrent args =>
    obtain ⟨⟨s1, prev⟩, hhandled, rfl⟩ := map_ok hok
    exact h.setCurrent hroutable hhandled
  | setRamping args =>
    obtain ⟨⟨s1, prev⟩, hhandled, rfl⟩ := map_ok hok
    exact h.setRamping hroutable hhandled
  | deleteVersion args =>
    obtain ⟨⟨⟩, hvalid, hok⟩ := bind_ok hok
    cases hok
    exact h.deleteVersion hvalid
  | registerWorker version =>
    obtain ⟨v, rfl⟩ := Option.ne_none_iff_exists'.mp hroutable
    exact (h.addVersion (versioned_workerDeploymentVersion v) hok).1
  | setManager args =>
    obtain ⟨⟨s1, prev⟩, hhandled, rfl⟩ := map_ok hok
    simp only [handleSetManager] at hhandled
    split at hhandled
    · cases hhandled
    split at hhandled
    · cases hhandled
    cases hhandled
    exact { h with }

/-- In every run of updates of a new deployment that are all routable, the routing config and the
version summaries agree. -/
theorem routing_consistent (now : Time) (updates : List (Env × Update)) (s : LocalState)
    (hroutable : Along (fun s update => update.2.Routable s) updateStep (newDeployment now) updates)
    (hrun : run updateStep (newDeployment now) updates = .ok s) : s.Consistent :=
  (hroutable.inv (fun _ _ _ => updateStep_inv) (inv_newDeployment now) hrun).toConsistent

/-- A clock, room for two versions, and activities that find nothing missing and delete anything. -/
def envAt (now : Time) : Env := ⟨now, 2, false, fun _ => true⟩

def setCurrentTo (version identity : String) : Update := .setCurrent ⟨version, identity, false, none, false⟩

def setRampingTo (version : String) (percentage : Rat) (identity : String) : Update :=
  .setRamping ⟨version, percentage, identity, false, none, false⟩

/-- A version becomes current, a second one ramps and then becomes current, and a third one takes the
place of the first. -/
def rollout : List (Env × Update) :=
  [(envAt 1, .registerWorker (some ⟨"d", "1"⟩)), (envAt 2, setCurrentTo "d.1" "a"),
    (envAt 3, .registerWorker (some ⟨"d", "2"⟩)),
    (envAt 4, setRampingTo "d.2" 10 "a"),
    (envAt 5, setRampingTo "d.2" 50 "b"),
    (envAt 6, setCurrentTo "d.2" "a"),
    (envAt 7, .registerWorker (some ⟨"d", "3"⟩)),
    (envAt 8, setRampingTo "d.3" 10 "a")]

theorem routing_consistent_rollout : Along (fun s update => update.2.Routable s) updateStep (newDeployment 0) rollout ∧
    ∃ s, run updateStep (newDeployment 0) rollout = .ok s ∧
      s.routingConfig.currentVersion = "d.2" ∧ s.routingConfig.rampingVersion = "d.3" ∧
      "d.1" ∉ s.versions ∧ s.Consistent := by
  have hroutable : Along (fun s update => update.2.Routable s) updateStep (newDeployment 0)
      rollout := by decide +kernel
  obtain ⟨s, hrun, hcurrent, hramping, hdeleted⟩ : ∃ s, run updateStep (newDeployment 0) rollout = .ok s ∧
      s.routingConfig.currentVersion = "d.2" ∧ s.routingConfig.rampingVersion = "d.3" ∧
      "d.1" ∉ s.versions := by decide +kernel
  exact ⟨hroutable, s, hrun, hcurrent, hramping, hdeleted, routing_consistent 0 rollout s hroutable hrun⟩

/-- The current version is set again under another identity. -/
def repeatedCurrent : List (Env × Update) :=
  [(envAt 1, .registerWorker (some ⟨"d", "1"⟩)), (envAt 2, setCurrentTo "d.1" "a"), (envAt 3, setCurrentTo "d.1" "b")]

/-- A ramp of zero percent to the unversioned workers of a new deployment. -/
def unversionedRamp : List (Env × Update) := [(envAt 1, setRampingTo unversionedVersionId 0 "a")]

/-- The version that is current is marked as draining, and the unversioned workers are current and
ramping. -/
theorem repeatedCurrent_drains : (∃ s, run updateStep (newDeployment 0) repeatedCurrent = .ok s ∧
      s.routingConfig.currentVersion = "d.1" ∧ s.status "d.1" = some .draining ∧ ¬ s.Consistent) ∧
    ∃ s, run updateStep (newDeployment 0) unversionedRamp = .ok s ∧
      s.routingConfig.currentVersion = s.routingConfig.rampingVersion ∧ ¬ s.Consistent := by
  constructor
  · obtain ⟨s, hrun, hcurrent, hdraining⟩ : ∃ s, run updateStep (newDeployment 0) repeatedCurrent = .ok s ∧
        s.routingConfig.currentVersion = "d.1" ∧ s.status "d.1" = some .draining := by decide +kernel
    refine ⟨s, hrun, hcurrent, hdraining, fun h => ?_⟩
    cases (h.status_iff hdraining).1.mpr hcurrent.symm
  obtain ⟨s, hrun, hsame⟩ : ∃ s, run updateStep (newDeployment 0) unversionedRamp = .ok s ∧
      s.routingConfig.currentVersion = s.routingConfig.rampingVersion := by decide +kernel
  exact ⟨s, hrun, hsame, fun h => h.differ hsame⟩

end FastOrchestration.WorkerDeployment
