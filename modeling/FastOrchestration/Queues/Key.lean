import Mathlib

/-!
# Task keys

Model of `service/history/tasks/key.go`. A key is a fire time, in nanoseconds since the epoch, and a
task id, ordered lexicographically (`CompareTo`). `Valid` bounds both parts by what a stored task can
have (`ValidateKey` and the `int64` range); on valid keys `Next` is the immediate successor.

`Panic` lists what stops a history queue; every fallible operation of the queue model answers in
`Except Panic`.
-/

namespace FastOrchestration.Queues

/-- The panics of the task key, range, scope, iterator, tracker, slice and reader code. -/
inductive Panic where
  | keyOverflow
  | keyUnderflow
  | invalidRange
  | unableToSplit
  | unableToMerge
  | tooFewPredicates
  | unknownPredicate
  | taskInNeitherScope
  | taskOutsideRange
  | overlappingIterators
  | overlappingSlices
  | unableToAppend
  | readerExists
  deriving DecidableEq

@[ext]
structure Key where
  fireTime : Int
  taskID : Int
  deriving DecidableEq

namespace Key

def maxInt64 : Int := 9223372036854775807

def minimumKey : Key := ⟨0, 0⟩

def maximumKey : Key := ⟨maxInt64, maxInt64⟩

def newImmediateKey (taskID : Int) : Key := ⟨0, taskID⟩

instance : LE Key := ⟨fun a b => a.fireTime < b.fireTime ∨ a.fireTime = b.fireTime ∧ a.taskID ≤ b.taskID⟩

instance : LT Key := ⟨fun a b => a.fireTime < b.fireTime ∨ a.fireTime = b.fireTime ∧ a.taskID < b.taskID⟩

lemma le_def {a b : Key} : a ≤ b ↔ a.fireTime < b.fireTime ∨ a.fireTime = b.fireTime ∧ a.taskID ≤ b.taskID := Iff.rfl

lemma lt_def {a b : Key} : a < b ↔ a.fireTime < b.fireTime ∨ a.fireTime = b.fireTime ∧ a.taskID < b.taskID := Iff.rfl

instance (a b : Key) : Decidable (a ≤ b) := inferInstanceAs (Decidable (_ ∨ _ ∧ _))

instance (a b : Key) : Decidable (a < b) := inferInstanceAs (Decidable (_ ∨ _ ∧ _))

/-- The order of `CompareTo` is total. -/
instance : LinearOrder Key where
  le := (· ≤ ·)
  lt := (· < ·)
  le_refl a := .inr ⟨rfl, Int.le_refl _⟩
  le_trans a b c := by simp only [le_def]; omega
  lt_iff_le_not_ge a b := by
    show (_ ∨ _ ∧ _) ↔ (_ ∨ _ ∧ _) ∧ ¬ (_ ∨ _ ∧ _)
    omega
  le_antisymm a b := by
    simp only [le_def]
    intro hab hba
    ext <;> omega
  le_total a b := by simp only [le_def]; omega
  toDecidableLE := inferInstance
  toDecidableLT := inferInstance

/-- The keys a stored task can have. -/
def Valid (k : Key) : Prop :=
  (0 ≤ k.fireTime ∧ k.fireTime ≤ maxInt64) ∧ 0 ≤ k.taskID ∧ k.taskID ≤ maxInt64

instance (k : Key) : Decidable k.Valid := inferInstanceAs (Decidable ((_ ∧ _) ∧ _ ∧ _))

def next (k : Key) : Except Panic Key :=
  if k.taskID = maxInt64 then
    if k.fireTime = maxInt64 then .error .keyOverflow else .ok ⟨k.fireTime + 1, 0⟩
  else .ok ⟨k.fireTime, k.taskID + 1⟩

def prev (k : Key) : Except Panic Key :=
  if k.taskID = 0 then
    if k.fireTime = 0 then .error .keyUnderflow else .ok ⟨k.fireTime - 1, maxInt64⟩
  else .ok ⟨k.fireTime, k.taskID - 1⟩

def sub (k subtrahend : Key) : Except Panic Key :=
  let differenceTaskID := k.taskID - subtrahend.taskID
  let fireTime := k.fireTime - if differenceTaskID < 0 then 1 else 0
  let differenceTaskID := if differenceTaskID < 0 then differenceTaskID + maximumKey.taskID else differenceTaskID
  if fireTime < subtrahend.fireTime then .error .keyUnderflow
  else .ok ⟨fireTime - subtrahend.fireTime, differenceTaskID⟩

def minKey (this that : Key) : Key := if this < that then this else that

def maxKey (this that : Key) : Key := if this < that then that else this

lemma minKey_eq_min (a b : Key) : minKey a b = min a b := by
  unfold minKey
  split
  · rename_i h
    exact (min_eq_left (le_of_lt h)).symm
  rename_i h
  exact (min_eq_right (not_lt.mp h)).symm

lemma maxKey_eq_max (a b : Key) : maxKey a b = max a b := by
  unfold maxKey
  split
  · rename_i h
    exact (max_eq_right (le_of_lt h)).symm
  rename_i h
  exact (max_eq_left (not_lt.mp h)).symm

lemma Valid.le_maximumKey {k : Key} (h : k.Valid) : k ≤ maximumKey := by
  obtain ⟨⟨-, h2⟩, -, h4⟩ := h
  simp only [le_def, maximumKey]
  omega

lemma Valid.minimumKey_le {k : Key} (h : k.Valid) : minimumKey ≤ k := by
  obtain ⟨⟨h1, -⟩, h3, -⟩ := h
  simp only [le_def, minimumKey]
  omega

lemma Valid.min {a b : Key} (ha : a.Valid) (hb : b.Valid) : (min a b).Valid := by
  obtain h | h := min_choice a b
  · exact h.symm ▸ ha
  · exact h.symm ▸ hb

lemma Valid.max {a b : Key} (ha : a.Valid) (hb : b.Valid) : (max a b).Valid := by
  obtain h | h := max_choice a b
  · exact h.symm ▸ ha
  · exact h.symm ▸ hb

/-! ### Keys as numbers -/

/-- The number of keys before this one: there are 2^63 task ids to a nanosecond. -/
def place (k : Key) : Int := k.fireTime * (maxInt64 + 1) + k.taskID

/-- What `Sub` makes of the number of keys from `a` to `b`: its borrow is one task id too small. -/
def measure (a b : Key) : Int := b.place - a.place - if b.taskID < a.taskID then 1 else 0

variable {a b d : Key}

section

variable (ha : a.Valid)

include ha

lemma next_iff : a.next = .ok d ↔ d.Valid ∧ d.place = a.place + 1 := by
  obtain ⟨⟨_, _⟩, _, _⟩ := ha
  obtain ⟨f, t⟩ := d
  unfold next
  split_ifs <;> simp only [Valid, place, maxInt64, Except.ok.injEq, mk.injEq, false_iff] at * <;> omega

lemma prev_iff : a.prev = .ok d ↔ d.Valid ∧ a.place = d.place + 1 := by
  obtain ⟨⟨_, _⟩, _, _⟩ := ha
  obtain ⟨f, t⟩ := d
  unfold prev
  split_ifs <;> simp only [Valid, place, maxInt64, Except.ok.injEq, mk.injEq, false_iff] at * <;> omega

lemma place_eq_zero : a = minimumKey ↔ a.place = 0 := by
  obtain ⟨⟨_, _⟩, _, _⟩ := ha
  simp only [Key.ext_iff, minimumKey, place, maxInt64]
  omega

variable (hb : b.Valid)

include hb

lemma place_lt_iff : a.place < b.place ↔ a < b := by
  obtain ⟨-, ha⟩ := ha
  obtain ⟨-, hb⟩ := hb
  simp only [place, lt_def, maxInt64] at *
  omega

lemma sub_iff : b.sub a = .ok d ↔ d.Valid ∧ d.place = a.measure b := by
  obtain ⟨⟨_, _⟩, _, _⟩ := ha
  obtain ⟨⟨_, _⟩, _, _⟩ := hb
  obtain ⟨f, t⟩ := d
  unfold sub measure
  dsimp only
  split_ifs <;> simp only [Valid, place, maximumKey, maxInt64, Except.ok.injEq, mk.injEq, false_iff] at * <;> omega

lemma sub_ok (hle : a ≤ b) : ∃ d, b.sub a = .ok d := by
  obtain ⟨⟨_, _⟩, _, _⟩ := ha
  obtain ⟨⟨_, _⟩, _, _⟩ := hb
  rw [le_def] at hle
  unfold sub
  dsimp only
  rw [if_neg (by split_ifs <;> omega)]
  exact ⟨_, rfl⟩

omit hb

lemma next_least (h : a.next = .ok d) : d.Valid ∧ a < d ∧ ∀ c, c.Valid → a < c → d ≤ c := by
  obtain ⟨hd, hplace⟩ := (next_iff ha).mp h
  refine ⟨hd, (place_lt_iff ha hd).mp (by omega), fun c hc hac => ?_⟩
  rw [← place_lt_iff ha hc] at hac
  rw [← not_lt, ← place_lt_iff hc hd]
  omega

end

lemma next_spec {k : Key} (hv : k.Valid) (hlt : k < maximumKey) :
    ∃ k', k.next = .ok k' ∧ k'.Valid ∧ k < k' ∧ ∀ b, b.Valid → k < b → k' ≤ b := by
  obtain ⟨k', hk⟩ : ∃ k', k.next = .ok k' := by
    unfold next
    split_ifs with ht hf
    · simp [lt_def, maximumKey, ht, hf] at hlt
    · exact ⟨_, rfl⟩
    · exact ⟨_, rfl⟩
  exact ⟨k', hk, next_least hv hk⟩

end Key

end FastOrchestration.Queues
