import FastOrchestration.Lib.SortedMap

/-!
# Failover versions

Model of `common/cluster/metadata.go`. A failover version belongs to the cluster whose initial version it is modulo
the increment (`failoverVersions_agree`). Two corners are apart: a cluster may have the name that stands for an unknown
one, and `IsVersionFromSameCluster` takes the empty version for a multiple of the increment (`emptyVersion_multiple`).
Versions are unbounded integers, and maps are visited in the order of their keys.
-/

namespace FastOrchestration.Cluster

open Lib List SortedMap

structure ClusterInformation where
  enabled : Bool
  initialFailoverVersion : Int
  rpcAddress : String

inductive Panic where
  | versionIncrement
  | emptyClusterName
  | emptyRPCAddress (clusterName : String)
  | unknownClusterName (clusterName : String)
  | localNamespace (failoverVersion : Int)

def emptyVersion : Int := 0

def unknownClusterNamePrefix : String := "unknown-cluster-"

/-- The checks of the loop of Go `updateVersionToClusterName`. -/
def refused (failoverVersionIncrement : Int) (e : String × ClusterInformation) : Option Panic :=
  if failoverVersionIncrement ≤ e.2.initialFailoverVersion ∨ e.2.initialFailoverVersion ≤ 0 then some .versionIncrement
  else if e.1 = "" then some .emptyClusterName
  else if e.2.enabled ∧ e.2.rpcAddress = "" then some (.emptyRPCAddress e.1)
  else none

def updateVersionToClusterName (clusterInfo : SortedMap String ClusterInformation) (failoverVersionIncrement : Int) :
    Except Panic (SortedMap Int String) :=
  match clusterInfo.entries.findSome? (refused failoverVersionIncrement) with
  | some panic => .error panic
  | none => .ok (SortedMap.empty.putAll (clusterInfo.entries.map fun e => (e.2.initialFailoverVersion, e.1)))

/-- Go `metadataImpl`. `NewMetadata` asks for distinct initial versions and refuses the increment zero; the checks
refuse a negative one. -/
structure Metadata where
  failoverVersionIncrement : Int
  currentClusterName : String
  clusterInfo : SortedMap String ClusterInformation
  versionToClusterName : SortedMap Int String
  positive : 0 < failoverVersionIncrement
  accepted : updateVersionToClusterName clusterInfo failoverVersionIncrement = .ok versionToClusterName
  distinct : clusterInfo.entries.Pairwise (·.2.initialFailoverVersion ≠ ·.2.initialFailoverVersion)

namespace Metadata

variable (m : Metadata)

def getNextFailoverVersion (clusterName : String) (currentFailoverVersion : Int) : Except Panic Int :=
  match m.clusterInfo.get? clusterName with
  | none => .error (.unknownClusterName clusterName)
  | some info =>
    let failoverVersion := currentFailoverVersion.tdiv m.failoverVersionIncrement * m.failoverVersionIncrement +
      info.initialFailoverVersion
    .ok (if failoverVersion < currentFailoverVersion then failoverVersion + m.failoverVersionIncrement
      else failoverVersion)

def isVersionFromSameCluster (version1 version2 : Int) : Bool :=
  (version1 - version2).tmod m.failoverVersionIncrement = 0

def clusterNameForFailoverVersion (isGlobalNamespace : Bool) (failoverVersion : Int) : Except Panic String :=
  if failoverVersion = emptyVersion then
    .ok (if isGlobalNamespace then unknownClusterNamePrefix ++ failoverVersion.repr else m.currentClusterName)
  else if !isGlobalNamespace then .error (.localNamespace failoverVersion)
  else
    let residue := failoverVersion.tmod m.failoverVersionIncrement
    let initialFailoverVersion := if residue = emptyVersion then m.failoverVersionIncrement else residue
    .ok ((m.versionToClusterName.get? initialFailoverVersion).getD
      (unknownClusterNamePrefix ++ initialFailoverVersion.repr))

variable {m} {name : String} {info : ClusterInformation} {k v w : Int}

lemma accepted_spec : (∀ e ∈ m.clusterInfo, refused m.failoverVersionIncrement e = none) ∧ m.versionToClusterName =
    SortedMap.empty.putAll (m.clusterInfo.entries.map fun e => (e.2.initialFailoverVersion, e.1)) := by
  have hok := m.accepted
  unfold updateVersionToClusterName at hok
  split at hok
  · cases hok
  · exact ⟨findSome?_eq_none_iff.mp ‹_›, (Except.ok.inj hok).symm⟩

lemma initial_bounds (h : (name, info) ∈ m.clusterInfo) :
    0 < info.initialFailoverVersion ∧ info.initialFailoverVersion < m.failoverVersionIncrement := by
  have hok := accepted_spec.1 _ h
  unfold refused at hok
  split at hok
  · cases hok
  · simp only at *
    omega

lemma mem_versionToClusterName : (k, name) ∈ m.versionToClusterName ↔
    ∃ info, (name, info) ∈ m.clusterInfo ∧ info.initialFailoverVersion = k := by
  rw [accepted_spec.2]
  constructor
  · intro h
    obtain h | h := mem_of_mem_putAll h
    · obtain ⟨e, he, heq⟩ := mem_map.mp h
      cases heq
      exact ⟨e.2, he, rfl⟩
    · cases h.1
  · rintro ⟨info, h, rfl⟩
    exact mem_putAll_of_pairwise (pairwise_map.mpr m.distinct) (mem_map_of_mem h)

/-- The initial version that a version stands for, zero for the empty one. -/
def residue (m : Metadata) (v : Int) : Int :=
  if v = emptyVersion then emptyVersion
  else if v % m.failoverVersionIncrement = 0 then m.failoverVersionIncrement else v % m.failoverVersionIncrement

def nameOf (m : Metadata) (k : Int) : String :=
  (m.versionToClusterName.get? k).getD (unknownClusterNamePrefix ++ k.repr)

/-- No cluster has the name of an unknown one. -/
def NoneUnknown (m : Metadata) : Prop := ∀ e ∈ m.clusterInfo, ∀ n : Int, e.1 ≠ unknownClusterNamePrefix ++ n.repr

lemma nameOf_initial (h : (name, info) ∈ m.clusterInfo) : m.nameOf info.initialFailoverVersion = name := by
  rw [nameOf, get?_eq_some.mpr (mem_versionToClusterName.mpr ⟨info, h, rfl⟩), Option.getD_some]

lemma nameOf_cases (m : Metadata) (k : Int) : (∃ info, (m.nameOf k, info) ∈ m.clusterInfo ∧
    info.initialFailoverVersion = k) ∨ m.nameOf k = unknownClusterNamePrefix ++ k.repr := by
  unfold nameOf
  cases h : m.versionToClusterName.get? k with
  | none => exact .inr rfl
  | some name => exact .inl (mem_versionToClusterName.mp (get?_eq_some.mp h))

lemma clusterName_eq (hv : 0 ≤ v) : m.clusterNameForFailoverVersion true v = .ok (m.nameOf (m.residue v)) := by
  rw [clusterNameForFailoverVersion, residue, Int.tmod_eq_emod_of_nonneg hv]
  split
  · next h =>
    obtain ⟨info, hmem, hzero⟩ | hname := m.nameOf_cases emptyVersion
    · exact absurd hzero (initial_bounds hmem).1.ne'
    · rw [h, hname]
      rfl
  · rfl

lemma nameOf_inj (hnames : m.NoneUnknown) (h : m.nameOf v = m.nameOf w) : v = w := by
  obtain ⟨info, hv, rfl⟩ | hv := m.nameOf_cases v
  · obtain ⟨info', hw, rfl⟩ | hw := m.nameOf_cases w
    · rw [functional hv (h ▸ hw)]
    · exact absurd (h.trans hw) (hnames _ hv w)
  · obtain ⟨info, hw, -⟩ | hw := m.nameOf_cases w
    · exact absurd (h.symm.trans hv) (hnames _ hw v)
    · exact Int.repr_injective ((String.append_right_inj _).mp (hv.symm.trans (h.trans hw)))

lemma residue_eq_initial (h : (name, info) ∈ m.clusterInfo) :
    m.residue w = info.initialFailoverVersion ↔ w % m.failoverVersionIncrement = info.initialFailoverVersion := by
  have hbounds := initial_bounds h
  unfold residue emptyVersion
  split_ifs with hw
  · rw [hw, Int.zero_emod]
  all_goals omega

lemma residue_eq_iff : m.residue v = m.residue w ↔
    m.isVersionFromSameCluster v w ∧ (v = emptyVersion ↔ w = emptyVersion) := by
  have hinc := m.positive
  have hv := Int.emod_lt_of_pos v hinc
  have hw := Int.emod_lt_of_pos w hinc
  have hzero : ∀ u : Int, u = 0 → u % m.failoverVersionIncrement = 0 := fun u hu => by rw [hu, Int.zero_emod]
  have hv0 := hzero v
  have hw0 := hzero w
  rw [isVersionFromSameCluster, decide_eq_true_iff, ← Int.dvd_iff_tmod_eq_zero, Int.dvd_iff_emod_eq_zero,
    ← Int.emod_eq_emod_iff_emod_sub_eq_zero]
  unfold residue emptyVersion
  split_ifs <;> omega

/-- The next failover version has the residue of the cluster and is less than an increment away. -/
lemma getNext_spec (h : (name, info) ∈ m.clusterInfo) (hv : 0 ≤ v) :
    ∃ next, m.getNextFailoverVersion name v = .ok next ∧ v ≤ next ∧ next < v + m.failoverVersionIncrement ∧
      next % m.failoverVersionIncrement = info.initialFailoverVersion := by
  obtain ⟨hpos, hlt⟩ := initial_bounds h
  have hdiv := Int.ediv_mul_add_emod v m.failoverVersionIncrement
  have hmod := Int.emod_lt_of_pos v m.positive
  have hmod0 := Int.emod_nonneg v m.positive.ne'
  have hres := Int.emod_eq_of_lt hpos.le hlt
  rw [getNextFailoverVersion, get?_eq_some.mpr h]
  refine ⟨_, rfl, ?_⟩
  rw [Int.tdiv_eq_ediv_of_nonneg hv]
  split <;> exact ⟨by omega, by omega, by simp [hres]⟩

lemma getNext_isLeast (hnames : m.NoneUnknown) (h : (name, info) ∈ m.clusterInfo) (hv : 0 ≤ v) :
    ∃ next, m.getNextFailoverVersion name v = .ok next ∧
      IsLeast {w | v ≤ w ∧ m.clusterNameForFailoverVersion true w = .ok name} next := by
  have hname : ∀ w, v ≤ w → (m.clusterNameForFailoverVersion true w = .ok name ↔
      w % m.failoverVersionIncrement = info.initialFailoverVersion) := by
    intro w hw
    rw [clusterName_eq (hv.trans hw), ← residue_eq_initial h, Except.ok.injEq]
    exact ⟨fun heq => nameOf_inj hnames (heq.trans (nameOf_initial h).symm), fun heq => heq ▸ nameOf_initial h⟩
  obtain ⟨next, hnext, hle, hlt, hres⟩ := getNext_spec h hv
  refine ⟨next, hnext, ⟨hle, (hname next hle).mpr hres⟩, ?_⟩
  rintro w ⟨hvw, hw⟩
  -- a smaller one would be a multiple of the increment away
  by_contra hlt'
  have hdvd := Int.emod_eq_emod_iff_emod_sub_eq_zero.mp (hres.trans ((hname w hvw).mp hw).symm)
  have := Int.le_of_dvd (by omega) (Int.dvd_of_emod_eq_zero hdvd)
  omega

/-- The next failover version of a cluster is its first version from the given one on. Two versions have the same name
exactly when they are from the same cluster and both or neither of them is the empty version. -/
theorem failoverVersions_agree (m : Metadata) (hnames : m.NoneUnknown) :
    (∀ c ∈ m.clusterInfo, ∀ v, 0 ≤ v → ∃ next, m.getNextFailoverVersion c.1 v = .ok next ∧
      IsLeast {w | v ≤ w ∧ m.clusterNameForFailoverVersion true w = .ok c.1} next) ∧
    ∀ v w, 0 ≤ v → 0 ≤ w →
      (m.clusterNameForFailoverVersion true v = m.clusterNameForFailoverVersion true w ↔
        m.isVersionFromSameCluster v w ∧ (v = emptyVersion ↔ w = emptyVersion)) := by
  refine ⟨fun c hc v hv => getNext_isLeast hnames hc hv, fun v w hv hw => ?_⟩
  rw [clusterName_eq hv, clusterName_eq hw, Except.ok.injEq, ← residue_eq_iff]
  exact ⟨nameOf_inj hnames, fun h => congrArg _ h⟩

/-- One cluster, with increment 10 and initial version 1. -/
def single (name : String) (h : name ≠ "") : Metadata where
  failoverVersionIncrement := 10
  currentClusterName := name
  clusterInfo := ⟨[(name, ⟨false, 1, ""⟩)], pairwise_singleton ..⟩
  versionToClusterName := ⟨[(1, name)], pairwise_singleton ..⟩
  positive := by decide
  accepted := by simp [updateVersionToClusterName, refused, h, putAll, put, SortedMap.empty]
  distinct := pairwise_singleton ..

/-- Two clusters, with increment 10 and initial versions 1 and 2. -/
def pair : Metadata where
  failoverVersionIncrement := 10
  currentClusterName := "active"
  clusterInfo := ⟨[("active", ⟨false, 1, ""⟩), ("standby", ⟨false, 2, ""⟩)], by decide⟩
  versionToClusterName := ⟨[(1, "active"), (2, "standby")], by decide⟩
  positive := by decide
  accepted := rfl
  distinct := by decide

theorem failoverVersions_agree_pair :
    IsLeast {w | 2 ≤ w ∧ pair.clusterNameForFailoverVersion true w = .ok "active"} 11 ∧
    IsLeast {w | 13 ≤ w ∧ pair.clusterNameForFailoverVersion true w = .ok "standby"} 22 ∧
    (pair.clusterNameForFailoverVersion true 12 = pair.clusterNameForFailoverVersion true 32) := by
  have hnames : pair.NoneUnknown := by
    intro e he n heq
    have hlength : e.1.length = 16 + n.repr.length := (congrArg String.length heq).trans (String.length_append ..)
    have hshort : e.1.length ≤ 7 := (by decide : ∀ e ∈ pair.clusterInfo.entries, e.1.length ≤ 7) e he
    omega
  obtain ⟨hnext, hsame⟩ := failoverVersions_agree pair hnames
  obtain ⟨_, h1, hleast1⟩ := hnext _ mem_cons_self 2 (by decide)
  obtain ⟨_, h2, hleast2⟩ := hnext _ (mem_cons_of_mem _ mem_cons_self) 13 (by decide)
  cases h1
  cases h2
  exact ⟨hleast1, hleast2, (hsame 12 32 (by decide) (by decide)).mpr (by decide)⟩

def unknown : Metadata := single "unknown-cluster-5" (by decide)

/-- The increment is taken for a version of the same cluster as the empty one, under another name; and the next version
of a cluster with the name of an unknown one skips a version of this name. -/
theorem emptyVersion_multiple : unknown.isVersionFromSameCluster emptyVersion 10 ∧
    unknown.clusterNameForFailoverVersion true emptyVersion = .ok "unknown-cluster-0" ∧
    unknown.clusterNameForFailoverVersion true 10 = .ok "unknown-cluster-10" ∧
    unknown.getNextFailoverVersion "unknown-cluster-5" 2 = .ok 11 ∧
    unknown.clusterNameForFailoverVersion true 5 = .ok "unknown-cluster-5" := by
  exact ⟨rfl, rfl, rfl, rfl, rfl⟩

end Metadata

end FastOrchestration.Cluster
