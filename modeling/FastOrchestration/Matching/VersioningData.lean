import Mathlib

/-!
# Versioning data

Model of the versioning data of a task queue (`persistencespb.VersioningData`) and of the hybrid
logical clocks in it (`common/clock/hybrid_logical_clock`). The data has two generations: sets of
compatible build ids, and assignment and redirect rules. Both live in one record, and the operations
on one look at the other.

Clock parts are integers without a bound. `Compare` subtracts them in Go; wall clocks and versions are
not negative there, so the subtraction does not overflow.
-/

namespace FastOrchestration.Matching

@[ext]
structure Clock where
  wallClock : Int
  version : Int
  clusterId : Int
  deriving DecidableEq

namespace Clock

def zero (clusterId : Int) : Clock := ⟨0, 0, clusterId⟩

instance : LE Clock := ⟨fun a b => a.wallClock < b.wallClock ∨ a.wallClock = b.wallClock ∧
  (a.version < b.version ∨ a.version = b.version ∧ a.clusterId ≤ b.clusterId)⟩

instance : LT Clock := ⟨fun a b => a.wallClock < b.wallClock ∨ a.wallClock = b.wallClock ∧
  (a.version < b.version ∨ a.version = b.version ∧ a.clusterId < b.clusterId)⟩

lemma le_def {a b : Clock} : a ≤ b ↔ a.wallClock < b.wallClock ∨ a.wallClock = b.wallClock ∧
    (a.version < b.version ∨ a.version = b.version ∧ a.clusterId ≤ b.clusterId) := Iff.rfl

instance (a b : Clock) : Decidable (a ≤ b) := inferInstanceAs (Decidable (_ ∨ _ ∧ (_ ∨ _ ∧ _)))

/-- Go `hlc.Less`. -/
instance (a b : Clock) : Decidable (a < b) := inferInstanceAs (Decidable (_ ∨ _ ∧ (_ ∨ _ ∧ _)))

/-- The order of `Compare` is total. -/
instance : LinearOrder Clock where
  le := (· ≤ ·)
  lt := (· < ·)
  le_refl a := .inr ⟨rfl, .inr ⟨rfl, Int.le_refl _⟩⟩
  le_trans a b c := by simp only [le_def]; omega
  lt_iff_le_not_ge a b := by
    show (_ ∨ _ ∧ (_ ∨ _ ∧ _)) ↔ (_ ∨ _ ∧ (_ ∨ _ ∧ _)) ∧ ¬ (_ ∨ _ ∧ (_ ∨ _ ∧ _))
    omega
  le_antisymm a b := by
    simp only [le_def]
    intro hab hba
    ext <;> omega
  le_total a b := by simp only [le_def]; omega
  toDecidableLE := inferInstance
  toDecidableLT := inferInstance

/-- Go `hlc.Max`. -/
def maxClock (a b : Clock) : Clock := if a < b then b else a

lemma maxClock_eq_max (a b : Clock) : maxClock a b = max a b := by
  unfold maxClock
  split
  · rename_i h
    exact (max_eq_right (le_of_lt h)).symm
  rename_i h
  exact (max_eq_left (not_lt.mp h)).symm

end Clock

/-- Go `persistencespb.BuildId_State`. -/
inductive BuildIdState where
  | unspecified
  | active
  | deleted
  deriving DecidableEq

structure BuildId where
  id : String
  state : BuildIdState
  stateUpdateTimestamp : Clock
  becameDefaultTimestamp : Clock
  deriving DecidableEq

/-- Go `persistencespb.CompatibleVersionSet`. -/
structure VersionSet where
  setIds : List String
  buildIds : List BuildId
  becameDefaultTimestamp : Clock
  deriving DecidableEq

/-- Go `taskqueuepb.BuildIdAssignmentRule`; the only kind of ramp is a percentage. -/
structure BuildIdAssignmentRule where
  targetBuildId : String
  ramp : Option ℚ
  deriving DecidableEq

structure AssignmentRule where
  rule : BuildIdAssignmentRule
  createTimestamp : Clock
  deleteTimestamp : Option Clock
  deriving DecidableEq

structure CompatibleBuildIdRedirectRule where
  sourceBuildId : String
  targetBuildId : String
  deriving DecidableEq

structure RedirectRule where
  rule : CompatibleBuildIdRedirectRule
  createTimestamp : Clock
  deleteTimestamp : Option Clock
  deriving DecidableEq

structure VersioningData where
  versionSets : List VersionSet
  assignmentRules : List AssignmentRule
  redirectRules : List RedirectRule
  deriving DecidableEq

namespace VersioningData

def empty : VersioningData := ⟨[], [], []⟩

def isInVersionSets (id : String) (sets : List VersionSet) : Bool :=
  sets.any fun set => set.buildIds.any fun bid => bid.id = id

end VersioningData

end FastOrchestration.Matching
