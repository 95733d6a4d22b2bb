import Mathlib

/-!
# Backlog tasks and their ids

What the fair and the priority backlog of `service/matching` share: the task that is written to
persistence and when it is expired (`task_validation.go`), and the blocks of task ids that come with a
lease (`backlog_manager.go`).
-/

namespace FastOrchestration.Matching

/-- Go `persistencespb.TaskInfo`; times are in nanoseconds since the epoch, and an expiry time that is
not set is Go's zero time, which lies before it. -/
structure TaskInfo where
  expiryTime : Int
  deriving DecidableEq

def unix (t : Int) : Int := t / 1000000000

def TaskInfo.isTaskExpired (t : TaskInfo) (now : Int) : Bool :=
  0 < unix t.expiryTime && t.expiryTime < now

lemma TaskInfo.isTaskExpired_mono {t : TaskInfo} {now now'} (h : now ≤ now')
    (ht : t.isTaskExpired now) : t.isTaskExpired now' := by
  simp only [isTaskExpired, Bool.and_eq_true, decide_eq_true_eq] at ht ⊢
  omega

structure TaskIDBlock where
  start : Int
  /-- Go `end`. -/
  last : Int
  deriving DecidableEq

def rangeSize : Int := 100000

def rangeIDToTaskIDBlock (rangeID : Int) : TaskIDBlock :=
  ⟨(rangeID - 1) * rangeSize + 1, rangeID * rangeSize⟩

/-- How a task was finished: `res.err()` in `completeTask`. -/
inductive Outcome where
  | success
  | transient
  | failed
  deriving DecidableEq

/-- An event that cannot happen in a state. -/
inductive Blocked where
  | notEnabled
  deriving DecidableEq

/-!
## Fair levels

Model of `service/matching/fair_level.go`: the pass and the id of a task, ordered lexicographically.
-/

@[ext]
structure FairLevel where
  pass : Int
  id : Int
  deriving DecidableEq

namespace FairLevel

instance : LE FairLevel := ⟨fun a b => a.pass < b.pass ∨ a.pass = b.pass ∧ a.id ≤ b.id⟩

/-- Go `fairLevel.less`. -/
instance : LT FairLevel := ⟨fun a b => a.pass < b.pass ∨ a.pass = b.pass ∧ a.id < b.id⟩

variable {a b : FairLevel}

lemma le_def : a ≤ b ↔ a.pass < b.pass ∨ a.pass = b.pass ∧ a.id ≤ b.id := Iff.rfl

lemma lt_def : a < b ↔ a.pass < b.pass ∨ a.pass = b.pass ∧ a.id < b.id := Iff.rfl

instance (a b : FairLevel) : Decidable (a ≤ b) := inferInstanceAs (Decidable (_ ∨ _ ∧ _))

instance (a b : FairLevel) : Decidable (a < b) := inferInstanceAs (Decidable (_ ∨ _ ∧ _))

instance : LinearOrder FairLevel where
  le_refl a := .inr ⟨rfl, Int.le_refl _⟩
  le_trans a b c := by simp only [le_def]; omega
  lt_iff_le_not_ge a b := by simp only [le_def, lt_def]; omega
  le_antisymm a b := by
    simp only [le_def]
    intro hab hba
    ext <;> omega
  le_total a b := by simp only [le_def]; omega
  toDecidableLE := inferInstance
  toDecidableLT := inferInstance

/-- Go `fairLevel{}`. -/
def zero : FairLevel := ⟨0, 0⟩

/-- Go `fairLevel.inc`: the next level. -/
def inc (a : FairLevel) : FairLevel := ⟨a.pass, a.id + 1⟩

lemma lt_inc_iff : b < a.inc ↔ b ≤ a := by
  simp only [inc, le_def, lt_def]
  omega

end FairLevel

end FastOrchestration.Matching
