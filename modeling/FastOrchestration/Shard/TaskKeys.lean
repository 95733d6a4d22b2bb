import FastOrchestration.Lib.Lists
import FastOrchestration.Lib.Run
import FastOrchestration.Queues.Key

/-!
# Task keys of a shard

Model of `shard/task_key_generator.go`, `shard/task_request_tracker.go`, `shard/task_key_manager.go`
and of `renewRangeLocked` in `shard/context_impl.go`. Times are nanoseconds; task ids are unbounded,
so `rangeID << rangeSizeBits` is a multiplication.

The manager is called under the shard lock, so each of its methods is one event. What the shard does
not decide is an argument of the event: the clock, the tasks of all task maps in the order in which
the loops visit them, and for each renewal of the range the new range id, or that `UpdateShard`
failed. A renewal inside `setTaskKeys` waits in `drain` with the lock held. Only completions run
meanwhile, and they do not touch the generator, so the whole call is placed where `drain` returns.

A request carries the keys of the tasks it writes. It may commit at any time while it can still do
so: before its completion, after a completion that left the outcome open, and only under the range
id it was issued with. `requests` and `watermarks` are the history of a run: what was issued and what
`getExclusiveReaderHighWatermark` returned, the latest answer first.
-/

namespace FastOrchestration.Shard
open Queues (Key)

inductive CategoryType where
  | immediate
  | scheduled
  deriving DecidableEq

structure Category where
  id : Nat
  type : CategoryType
  deriving DecidableEq

/-- Why an event does not happen: two panics of `generateTaskID`, or the environment is not ready. -/
inductive Stop where
  | rangeNotInitialized
  | rangeNotUpdated
  | notEnabled
  deriving DecidableEq

def scheduledTaskMinPrecision : Int := 1000000

/-- Go `Time.Truncate` to the precision of scheduled tasks. -/
def truncate (t : Int) : Int := t - t % scheduledTaskMinPrecision

def taskIDUninitialized : Int := -1

/-- The zero `time.Time`, the first of January of year one. -/
def zeroTime : Int := -62135596800000000000

structure Generator where
  nextTaskID : Int
  exclusiveMaxTaskID : Int
  taskMinScheduledTime : Int
  rangeSizeBits : Nat
  deriving DecidableEq

/-- The tracker; `pendingTaskKeys` is used as a set. -/
structure Tracker where
  pendingTaskKeys : List (Category × Key)
  inflightRequestCount : Int
  deriving DecidableEq

structure Manager where
  rangeID : Int
  generator : Generator
  tracker : Tracker
  deriving DecidableEq

def newTaskKeyManager (rangeSizeBits : Nat) : Manager where
  rangeID := 0
  generator := ⟨taskIDUninitialized, taskIDUninitialized, zeroTime, rangeSizeBits⟩
  tracker := ⟨[], 0⟩

namespace Generator

def setRangeID (g : Generator) (rangeID : Int) : Generator :=
  { g with
    nextTaskID := rangeID * 2 ^ g.rangeSizeBits
    exclusiveMaxTaskID := (rangeID + 1) * 2 ^ g.rangeSizeBits }

def setTaskMinScheduledTime (g : Generator) (t : Int) : Generator :=
  { g with taskMinScheduledTime := max g.taskMinScheduledTime t }

def peekTaskKey (g : Generator) (category : Category) : Key :=
  match category.type with
  | .immediate => Key.newImmediateKey g.nextTaskID
  | .scheduled => ⟨g.taskMinScheduledTime, g.nextTaskID⟩

/-- The key `setTaskKeys` gives to a task with the id it drew; immediate tasks ignore the time. -/
def taskKey (g : Generator) (category : Category) (visibilityTime id : Int) : Key :=
  match category.type with
  | .immediate => Key.newImmediateKey id
  | .scheduled =>
    let taskScheduledTime := truncate (visibilityTime + scheduledTaskMinPrecision)
    if taskScheduledTime < g.taskMinScheduledTime then
      ⟨g.taskMinScheduledTime + scheduledTaskMinPrecision, id⟩
    else ⟨taskScheduledTime, id⟩

end Generator

namespace Tracker

/-- The loop for the smallest key of a category; it starts from `MaximumKey`. -/
def minKeyOf (category : Category) (tasks : List (Category × Key)) : Key :=
  (tasks.filter (·.1 = category)).foldl (fun m p => if p.2 < m then p.2 else m) Key.maximumKey

def minKeyByCategory (tasks : List (Category × Key)) : List (Category × Key) :=
  (tasks.map (·.1)).dedup.filterMap fun category =>
    let minKey := minKeyOf category tasks
    if minKey = Key.maximumKey then none else some (category, minKey)

def track (t : Tracker) (tasks : List (Category × Key)) : Tracker where
  pendingTaskKeys := minKeyByCategory tasks ++ t.pendingTaskKeys
  inflightRequestCount := t.inflightRequestCount + 1

/-- The completion function; `definite` is `writeErr == nil || !OperationPossiblySucceeded`. -/
def complete (t : Tracker) (mins : List (Category × Key)) (definite : Bool) : Tracker where
  pendingTaskKeys := if definite then t.pendingTaskKeys.filter (· ∉ mins) else t.pendingTaskKeys
  inflightRequestCount := t.inflightRequestCount - 1

def minTaskKey (t : Tracker) (category : Category) : Option Key :=
  if t.pendingTaskKeys.filter (·.1 = category) = [] then none
  else some (minKeyOf category t.pendingTaskKeys)

def clear (_ : Tracker) : Tracker := ⟨[], 0⟩

end Tracker

namespace Manager

def setRangeID (m : Manager) (rangeID : Int) : Manager where
  rangeID := rangeID
  generator := m.generator.setRangeID rangeID
  tracker := m.tracker.clear

def setTaskMinScheduledTime (m : Manager) (t : Int) : Manager :=
  { m with generator := m.generator.setTaskMinScheduledTime t }

/-- Go `renewRangeLocked` once `UpdateShard` succeeds; it waits while requests are in flight. -/
def renewRange (m : Manager) (rangeID : Int) : Except Stop Manager :=
  if m.tracker.inflightRequestCount = 0 ∧ m.rangeID < rangeID then .ok (m.setRangeID rangeID)
  else .error .notEnabled

def drawTaskID (m : Manager) : Manager × Int :=
  ({ m with generator := { m.generator with nextTaskID := m.generator.nextTaskID + 1 } }, m.generator.nextTaskID)

/-- Go `generateTaskID`. The id is `none` where the renewal returned an error; `renewals` holds the
outcomes of the renewals still to come. -/
def generateTaskID (m : Manager) (renewals : List (Option Int)) :
    Except Stop (Manager × List (Option Int) × Option Int) :=
  if m.generator.nextTaskID = taskIDUninitialized then .error .rangeNotInitialized
  else if m.generator.nextTaskID = m.generator.exclusiveMaxTaskID then
    match renewals with
    | [] => .ok (m, [], none)
    | none :: renewals => .ok (m, renewals, none)
    | some rangeID :: renewals =>
      match m.renewRange rangeID with
      | .error e => .error e
      | .ok m =>
        if m.generator.nextTaskID = m.generator.exclusiveMaxTaskID then .error .rangeNotUpdated
        else .ok (m.drawTaskID.1, renewals, some m.drawTaskID.2)
  else .ok (m.drawTaskID.1, renewals, some m.drawTaskID.2)

/-- The loops of `setTaskKeys`. The keys are `none` where an id could not be drawn; the ids drawn
before stay used. -/
def assignTaskKeys (m : Manager) (renewals : List (Option Int)) :
    List (Category × Int) → Except Stop (Manager × Option (List (Category × Key)))
  | [] => .ok (m, some [])
  | (category, visibilityTime) :: tasks =>
    match m.generateTaskID renewals with
    | .error e => .error e
    | .ok (m, _, none) => .ok (m, none)
    | .ok (m, renewals, some id) =>
      match assignTaskKeys m renewals tasks with
      | .error e => .error e
      | .ok (m', none) => .ok (m', none)
      | .ok (m', some keys) =>
        .ok (m', some ((category, m.generator.taskKey category visibilityTime id) :: keys))

def setTaskKeys (m : Manager) (now : Int) (renewals : List (Option Int))
    (tasks : List (Category × Int)) : Except Stop (Manager × Option (List (Category × Key))) :=
  (m.setTaskMinScheduledTime (truncate now)).assignTaskKeys renewals tasks

def track (m : Manager) (tasks : List (Category × Key)) : Manager :=
  { m with tracker := m.tracker.track tasks }

def complete (m : Manager) (mins : List (Category × Key)) (definite : Bool) : Manager :=
  { m with tracker := m.tracker.complete mins definite }

/-- Go `getExclusiveReaderHighWatermark`; `shift` is `TimerProcessorMaxTimeShift`. -/
def getExclusiveReaderHighWatermark (m : Manager) (category : Category) (now shift : Int) :
    Manager × Key :=
  let minTaskKey := (m.tracker.minTaskKey category).getD Key.maximumKey
  let m := m.setTaskMinScheduledTime (truncate (now + shift))
  let watermark := Key.minKey minTaskKey (m.generator.peekTaskKey category)
  match category.type with
  | .immediate => (m, watermark)
  | .scheduled => (m, ⟨truncate watermark.fireTime, 0⟩)

end Manager

inductive Outcome where
  | success
  | definiteFailure
  | possiblySucceeded
  deriving DecidableEq

/-- A write request that was given its task keys; `outcome` is `none` while it is in flight. -/
structure Request where
  rangeID : Int
  taskKeys : List (Category × Key)
  minKeyByCategory : List (Category × Key)
  committed : Bool
  outcome : Option Outcome
  deriving DecidableEq

/-- Nothing definite is known about the request, so its write may still commit. -/
def Request.Open (r : Request) : Prop := r.outcome = none ∨ r.outcome = some .possiblySucceeded

instance (r : Request) : Decidable r.Open := inferInstanceAs (Decidable (_ ∨ _))

structure System where
  manager : Manager
  requests : List Request
  watermarks : List (Category × Key)
  deriving DecidableEq

def System.init (rangeSizeBits : Nat) : System := ⟨newTaskKeyManager rangeSizeBits, [], []⟩

inductive Event where
  | setAndTrackTaskKeys (now : Int) (renewals : List (Option Int)) (tasks : List (Category × Int))
  | generateTaskKey (renewals : List (Option Int))
  | setTaskMinScheduledTime (t : Int)
  | renewRange (rangeID : Int)
  | getExclusiveReaderHighWatermark (category : Category) (now shift : Int)
  | commit (request : Nat)
  | complete (request : Nat) (outcome : Outcome)
  deriving DecidableEq

/-- What persistence answers agrees with what it did. -/
def Outcome.Agrees (committed : Bool) : Outcome → Prop
  | .success => committed = true
  | .definiteFailure => committed = false
  | .possiblySucceeded => True

instance (committed : Bool) : ∀ o : Outcome, Decidable (o.Agrees committed)
  | .success => inferInstanceAs (Decidable (_ = _))
  | .definiteFailure => inferInstanceAs (Decidable (_ = _))
  | .possiblySucceeded => inferInstanceAs (Decidable True)

namespace System

/-- The request that `setAndTrackTaskKeys` leads to; its range id is read after the keys are set. -/
def issue (s : System) (m : Manager) (keys : List (Category × Key)) : System :=
  { s with
    manager := m.track keys
    requests := s.requests ++ [⟨m.rangeID, keys, Tracker.minKeyByCategory keys, false, none⟩] }

def step (s : System) : Event → Except Stop System
  | .setAndTrackTaskKeys now renewals tasks =>
    match s.manager.setTaskKeys now renewals tasks with
    | .error e => .error e
    | .ok (m, none) => .ok { s with manager := m }
    | .ok (m, some keys) => .ok (s.issue m keys)
  | .generateTaskKey renewals =>
    match s.manager.generateTaskID renewals with
    | .error e => .error e
    | .ok (m, _, _) => .ok { s with manager := m }
  | .setTaskMinScheduledTime t => .ok { s with manager := s.manager.setTaskMinScheduledTime t }
  | .renewRange rangeID =>
    match s.manager.renewRange rangeID with
    | .error e => .error e
    | .ok m => .ok { s with manager := m }
  | .getExclusiveReaderHighWatermark category now shift =>
    let (m, watermark) := s.manager.getExclusiveReaderHighWatermark category now shift
    .ok { s with manager := m, watermarks := (category, watermark) :: s.watermarks }
  | .commit i =>
    match s.requests[i]? with
    | none => .error .notEnabled
    | some r =>
      if r.Open ∧ r.committed = false ∧ r.rangeID = s.manager.rangeID then
        .ok { s with requests := s.requests.set i { r with committed := true } }
      else .error .notEnabled
  | .complete i outcome =>
    match s.requests[i]? with
    | none => .error .notEnabled
    | some r =>
      if r.outcome = none ∧ outcome.Agrees r.committed then
        .ok { s with
          manager := s.manager.complete r.minKeyByCategory (outcome ≠ .possiblySucceeded)
          requests := s.requests.set i { r with outcome := some outcome } }
      else .error .notEnabled

end System

/-!
## Read watermarks of a shard

The queues of a shard read up to `getExclusiveReaderHighWatermark`, so no key below a watermark that
was returned may commit afterwards. Two facts carry the proof. First, the generator has a floor: a
watermark is not above any key that it hands out later (`Generator.Floor`, kept by everything that
`Manager.Grows` allows, a renewal of the range included). Second, the tracker holds a key at or below
each key of a request that may still commit, and no watermark is above a tracked key. A completion
removes the tracked keys of one request only, since two requests never share a task id.

`Inv` collects both facts, `Inv.step` is the step lemma, and `watermark_not_passed` is the result
over whole runs: no commit below a watermark, and watermarks of a category that never decrease.
-/

open List Lib Generator Tracker

lemma truncate_le (t : Int) : truncate t ≤ t := by
  have h := Int.emod_nonneg t (show scheduledTaskMinPrecision ≠ 0 by decide)
  simp only [truncate]
  omega

lemma truncate_mono {t u} (h : t ≤ u) : truncate t ≤ truncate u := by
  simp only [truncate, scheduledTaskMinPrecision]
  omega

lemma truncate_truncate (t : Int) : truncate (truncate t) = truncate t := by
  simp only [truncate, scheduledTaskMinPrecision]
  omega

/-- No key that the generator gives to a task of the category from now on is below `w`. -/
def Generator.Floor (g : Generator) (c : Category) (w : Key) : Prop :=
  match c.type with
  | .immediate => w ≤ Key.newImmediateKey g.nextTaskID
  | .scheduled =>
    w.fireTime ≤ g.taskMinScheduledTime ∧ w.taskID = 0 ∧ truncate w.fireTime = w.fireTime

/-- The ids the generator may draw: none yet, or those up to the end of the range. -/
def Manager.Ranged (m : Manager) : Prop :=
  0 ≤ m.rangeID ∧ (m.generator.nextTaskID = taskIDUninitialized ∨
      0 ≤ m.generator.nextTaskID ∧ m.generator.nextTaskID ≤ m.generator.exclusiveMaxTaskID ∧
      m.generator.exclusiveMaxTaskID = (m.rangeID + 1) * 2 ^ m.generator.rangeSizeBits)

/-- What happens to a manager between two requests: ids and times move up, and tracked keys are
dropped only when the range is renewed. -/
structure Manager.Grows (m m' : Manager) : Prop where
  range : m.rangeID ≤ m'.rangeID
  next : m.generator.nextTaskID ≤ m'.generator.nextTaskID
  time : m.generator.taskMinScheduledTime ≤ m'.generator.taskMinScheduledTime
  sub : ∀ p ∈ m'.tracker.pendingTaskKeys, p ∈ m.tracker.pendingTaskKeys
  kept : m'.rangeID = m.rangeID → ∀ p ∈ m.tracker.pendingTaskKeys, p ∈ m'.tracker.pendingTaskKeys

namespace Manager
variable {m m' m'' : Manager}

lemma Grows.refl (m : Manager) : m.Grows m where
  range := Int.le_refl _
  next := Int.le_refl _
  time := Int.le_refl _
  sub _ h := h
  kept _ _ h := h

lemma Grows.trans (g : m.Grows m') (g' : m'.Grows m'') : m.Grows m'' where
  range := Int.le_trans g.range g'.range
  next := Int.le_trans g.next g'.next
  time := Int.le_trans g.time g'.time
  sub p h := g.sub p (g'.sub p h)
  kept e p h := by
    have hle := g.range
    have hle' := g'.range
    exact g'.kept (by omega) p (g.kept (by omega) p h)

lemma Grows.floor (g : m.Grows m') {c w} (h : m.generator.Floor c w) : m'.generator.Floor c w := by
  unfold Floor at h ⊢
  split
  · rename_i e
    simp only [e] at h
    refine h.trans (.inr ⟨rfl, g.next⟩)
  rename_i e
  simp only [e] at h
  exact ⟨Int.le_trans h.1 g.time, h.2⟩

lemma grows_setTaskMinScheduledTime (m : Manager) (t : Int) : m.Grows (m.setTaskMinScheduledTime t) where
  range := Int.le_refl _
  next := Int.le_refl _
  time := Int.le_max_left _ _
  sub _ h := h
  kept _ _ h := h

lemma Ranged.setTaskMinScheduledTime (hm : m.Ranged) (t : Int) : (m.setTaskMinScheduledTime t).Ranged := hm

lemma Ranged.renewRange (hm : m.Ranged) (r : Int) :
    Yields (fun _ => True) (fun m' => m'.Ranged ∧ m.Grows m' ∧ 0 ≤ m'.generator.nextTaskID) (m.renewRange r) := by
  unfold Manager.renewRange
  split
  · next hr =>
    obtain ⟨h0, hm⟩ := hm
    have hpow : (0 : Int) < 2 ^ m.generator.rangeSizeBits := Int.pow_pos (by decide)
    have hnext : 0 ≤ r * 2 ^ m.generator.rangeSizeBits :=
      Int.mul_nonneg (by omega) (by omega)
    have hmul : (m.rangeID + 1) * 2 ^ m.generator.rangeSizeBits ≤ r * 2 ^ m.generator.rangeSizeBits :=
      Int.mul_le_mul_of_nonneg_right (by omega) (by omega)
    refine (show _ ∧ _ from ⟨⟨by simp only [setRangeID]; omega, .inr ⟨hnext, ?_, rfl⟩⟩, ⟨?_, ?_, ?_, ?_, ?_⟩, hnext⟩)
    · show r * _ ≤ (r + 1) * _
      exact Int.mul_le_mul_of_nonneg_right (by omega) (by omega)
    · exact Int.le_of_lt hr.2
    · show _ ≤ r * _
      obtain hm | ⟨-, hm, e⟩ := hm
      · simp only [hm, taskIDUninitialized]
        omega
      · omega
    · exact Int.le_refl _
    · simp [setRangeID, clear]
    intro e
    simp only [setRangeID] at e
    omega
  · trivial

lemma Ranged.drawTaskID (hm : m.Ranged) (h0 : 0 ≤ m.generator.nextTaskID)
    (hne : m.generator.nextTaskID ≠ m.generator.exclusiveMaxTaskID) :
    m.drawTaskID.1.Ranged ∧ m.Grows m.drawTaskID.1 ∧ m.drawTaskID.2 < m.drawTaskID.1.generator.nextTaskID := by
  obtain ⟨hr, hm⟩ := hm
  simp only [Ranged, Manager.drawTaskID, taskIDUninitialized] at hm ⊢
  refine ⟨⟨hr, .inr ?_⟩, ⟨Int.le_refl _, ?_, Int.le_refl _, fun _ h => h, fun _ _ h => h⟩, ?_⟩
  · obtain hm | ⟨-, hm, e⟩ := hm
    · omega
    · exact ⟨by omega, by omega, e⟩
  · simp only
    omega
  · omega

lemma Ranged.generateTaskID (hm : m.Ranged) (rs : List (Option Int)) :
    Yields (fun _ => True) (fun r => r.1.Ranged ∧ m.Grows r.1 ∧
      ∀ i ∈ r.2.2, 0 ≤ i ∧ m.generator.nextTaskID ≤ i ∧ i < r.1.generator.nextTaskID) (m.generateTaskID rs) := by
  unfold Manager.generateTaskID
  split
  · trivial
  next hinit =>
  have h0 : 0 ≤ m.generator.nextTaskID := (hm.2.resolve_left hinit).1
  split
  · split
    · exact ⟨hm, .refl _, nofun⟩
    · exact ⟨hm, .refl _, nofun⟩
    split
    · trivial
    next hr =>
    obtain ⟨hn, hgrow, hn0⟩ := (hm.renewRange _).post hr
    split
    · trivial
    next hne =>
    obtain ⟨hd, hgrow', hlt⟩ := hn.drawTaskID hn0 hne
    exact ⟨hd, hgrow.trans hgrow', fun i e => by cases e; exact ⟨hn0, hgrow.next, hlt⟩⟩
  next hne =>
  obtain ⟨hd, hgrow, hlt⟩ := hm.drawTaskID h0 hne
  exact ⟨hd, hgrow, fun i e => by cases e; exact ⟨h0, Int.le_refl _, hlt⟩⟩

end Manager

lemma Generator.Floor.le_taskKey {g g' : Generator} {c w} (h : g.Floor c w) {id} (t : Int)
    (h0 : 0 ≤ id) (hid : g.nextTaskID ≤ id)
    (ht : g.taskMinScheduledTime ≤ g'.taskMinScheduledTime) : w ≤ g'.taskKey c t id := by
  cases e : c.type with
  | immediate =>
    simp only [Floor, e] at h
    simp only [taskKey, e]
    exact h.trans (.inr ⟨rfl, hid⟩)
  | scheduled =>
    simp only [Floor, e] at h
    simp only [taskKey, e]
    split
    · refine .inl ?_
      show w.fireTime < g'.taskMinScheduledTime + 1000000
      omega
    rename_i hlt
    simp only [Key.le_def]
    omega

lemma Generator.taskKey_taskID (g : Generator) (c : Category) (t id : Int) : (g.taskKey c t id).taskID = id := by
  cases e : c.type with
  | immediate => simp only [taskKey, e, Key.newImmediateKey]
  | scheduled =>
    simp only [taskKey, e]
    split <;> rfl

lemma Manager.Ranged.assignTaskKeys {m : Manager} (hm : m.Ranged) (rs : List (Option Int)) (tasks : List (Category × Int)) :
    Yields (fun _ => True) (fun r => r.1.Ranged ∧ m.Grows r.1 ∧ ∀ ks ∈ r.2, ∀ c k, (c, k) ∈ ks →
      m.generator.nextTaskID ≤ k.taskID ∧ 0 ≤ k.taskID ∧ k.taskID < r.1.generator.nextTaskID ∧
      ∀ w, m.generator.Floor c w → w ≤ k) (m.assignTaskKeys rs tasks) := by
  induction tasks generalizing m rs with
  | nil => exact ⟨hm, .refl _, fun ks e c k hk => by cases e; cases hk⟩
  | cons task tasks ih =>
    obtain ⟨c, t⟩ := task
    rw [Manager.assignTaskKeys]
    split
    · trivial
    · next hid =>
      obtain ⟨hn, hgrow, -⟩ := (hm.generateTaskID rs).post hid
      exact ⟨hn, hgrow, nofun⟩
    next i hid =>
    obtain ⟨hn, hgrow, hi⟩ := (hm.generateTaskID rs).post hid
    obtain ⟨h0, hle, hlt⟩ := hi i rfl
    split
    · trivial
    · next hrec =>
      obtain ⟨hm', hgrow', -⟩ := (ih hn _).post hrec
      exact ⟨hm', hgrow.trans hgrow', nofun⟩
    next ks hrec =>
    obtain ⟨hm', hgrow', hks⟩ := (ih hn _).post hrec
    refine (show _ ∧ _ from ⟨hm', hgrow.trans hgrow', fun ks' e c' k hk => ?_⟩)
    cases e
    obtain hk | hk := mem_cons.mp hk
    · cases hk
      rw [taskKey_taskID]
      exact ⟨hle, h0, Int.lt_of_lt_of_le hlt hgrow'.next, fun w hw => hw.le_taskKey t h0 hle hgrow.time⟩
    obtain ⟨h1, h0', h2, h3⟩ := hks ks rfl c' k hk
    exact ⟨Int.le_trans hgrow.next h1, h0', h2, fun w hw => h3 w (hgrow.floor hw)⟩

namespace Tracker

lemma minKeyOf_spec (c : Category) (ps : List (Category × Key)) :
    (∀ w, w ≤ minKeyOf c ps ↔ w ≤ Key.maximumKey ∧ ∀ k, (c, k) ∈ ps → w ≤ k) ∧
      (minKeyOf c ps = Key.maximumKey ∨ (c, minKeyOf c ps) ∈ ps) := by
  have hmin : ∀ (m : Key) (p : Category × Key), (if p.2 < m then p.2 else m) = min m p.2 := fun m p => by
    rw [min_comm, min_def_lt]
  obtain ⟨hle, hmem⟩ := Lib.foldl_least (fun p : Category × Key => some p.2) hmin (ps.filter (·.1 = c)) Key.maximumKey
  refine ⟨fun w => (hle w).trans (and_congr_right fun _ => ?_), hmem.imp_right ?_⟩
  · simp only [mem_filter, decide_eq_true_eq, Prod.forall]
    exact ⟨fun h k hk => h c k ⟨hk, rfl⟩ k rfl, fun h c' k hk k' heq => Option.some.inj heq ▸ h k (hk.2 ▸ hk.1)⟩
  · rintro ⟨⟨c', k⟩, hq, h⟩
    obtain ⟨hin, hc⟩ := mem_filter.mp hq
    cases of_decide_eq_true hc
    rwa [minKeyOf, ← Option.some.inj h]

lemma mem_of_mem_minKeyByCategory {ks p} (h : p ∈ minKeyByCategory ks) : p ∈ ks := by
  obtain ⟨c, -, hc⟩ := mem_filterMap.mp h
  simp only [Option.ite_none_left_eq_some, Option.some.injEq] at hc
  obtain ⟨hne, rfl⟩ := hc
  exact (minKeyOf_spec c ks).2.resolve_left hne

lemma minKeyByCategory_le {ks c k} (h : (c, k) ∈ ks) : Key.maximumKey ≤ k ∨ ∃ m ≤ k, (c, m) ∈ minKeyByCategory ks := by
  have hle := (((minKeyOf_spec c ks).1 _).mp le_rfl).2 k h
  by_cases hm : minKeyOf c ks = Key.maximumKey
  · exact .inl (hm ▸ hle)
  refine .inr ⟨_, hle, mem_filterMap.mpr ⟨c, ?_, if_neg hm⟩⟩
  exact mem_dedup.mpr (mem_map.mpr ⟨_, h, rfl⟩)

lemma le_minTaskKey {t : Tracker} {c w} : w ≤ (t.minTaskKey c).getD Key.maximumKey ↔
      w ≤ Key.maximumKey ∧ ∀ k, (c, k) ∈ t.pendingTaskKeys → w ≤ k := by
  rw [← (minKeyOf_spec c _).1, minTaskKey]
  split
  · rename_i e
    rw [minKeyOf, e]
    rfl
  · rfl

end Tracker

lemma Manager.getExclusiveReaderHighWatermark_spec {m m' : Manager} {c now shift w}
    (hn : ∀ k, (c, k) ∈ m.tracker.pendingTaskKeys → 0 ≤ k.taskID)
    (h : m.getExclusiveReaderHighWatermark c now shift = (m', w)) :
    m' = m.setTaskMinScheduledTime (truncate (now + shift)) ∧ m'.generator.Floor c w ∧
      w ≤ Key.maximumKey ∧ (∀ k, (c, k) ∈ m.tracker.pendingTaskKeys → w ≤ k) ∧
      ∀ w', m.generator.Floor c w' → w' ≤ Key.maximumKey →
        (∀ k, (c, k) ∈ m.tracker.pendingTaskKeys → w' ≤ k) → w' ≤ w := by
  have hgrow := m.grows_setTaskMinScheduledTime (truncate (now + shift))
  unfold Manager.getExclusiveReaderHighWatermark at h
  generalize m.setTaskMinScheduledTime (truncate (now + shift)) = m1 at h hgrow ⊢
  -- the smaller of the least tracked key and the next key
  have hmin : ∀ w, w ≤ Key.minKey ((m.tracker.minTaskKey c).getD Key.maximumKey) (m1.generator.peekTaskKey c) ↔
      (w ≤ Key.maximumKey ∧ ∀ k, (c, k) ∈ m.tracker.pendingTaskKeys → w ≤ k) ∧ w ≤ m1.generator.peekTaskKey c := by
    intro w
    rw [Key.minKey_eq_min, le_min_iff, le_minTaskKey]
  dsimp only at h
  generalize Key.minKey _ _ = x at h hmin
  obtain ⟨⟨hmax, hpend⟩, hpeek⟩ := (hmin x).mp le_rfl
  cases e : c.type with
  | immediate =>
    simp only [e] at h
    cases h
    simp only [peekTaskKey, e] at hpeek hmin
    refine ⟨rfl, by simpa only [Floor, e] using hpeek, hmax, hpend, fun w' hf h1 h2 => (hmin w').mpr ⟨⟨h1, h2⟩, ?_⟩⟩
    simpa only [Floor, e] using hgrow.floor hf
  | scheduled =>
    simp only [e] at h
    cases h
    simp only [peekTaskKey, e] at hpeek hmin
    have ht := truncate_le x.fireTime
    -- truncation and a zero id only lower a key whose id is not negative
    have hdown : ∀ q, x ≤ q → 0 ≤ q.taskID → ⟨truncate x.fireTime, 0⟩ ≤ q := by
      intro q hq h0
      simp only [Key.le_def] at hq ⊢
      omega
    refine ⟨rfl, ?_, hdown _ hmax (by decide), fun k hk => hdown k (hpend k hk) (hn k hk), fun w' hf h1 h2 => ?_⟩
    · simp only [Floor, e]
      simp only [Key.le_def] at hpeek
      exact ⟨by omega, trivial, truncate_truncate _⟩
    have hf' := hgrow.floor hf
    simp only [Floor, e] at hf'
    have hlow : ⟨w'.fireTime, min 0 m'.generator.nextTaskID⟩ ≤ w' := .inr ⟨rfl, hf'.2.1 ▸ min_le_left _ _⟩
    have hle : ⟨w'.fireTime, min 0 m'.generator.nextTaskID⟩ ≤ x :=
      (hmin _).mpr ⟨⟨hlow.trans h1, fun k hk => hlow.trans (h2 k hk)⟩, by simp only [Key.le_def]; omega⟩
    have hmono : truncate w'.fireTime ≤ truncate x.fireTime := truncate_mono (by simp only [Key.le_def] at hle; omega)
    simp only [Key.le_def]
    omega

structure System.Inv (s : System) : Prop where
  ranged : s.manager.Ranged
  nonneg : ∀ (c : Category) (k : Key), (c, k) ∈ s.manager.tracker.pendingTaskKeys → 0 ≤ k.taskID
  issued : ∀ (i : Nat) (r : Request), s.requests[i]? = some r → r.rangeID ≤ s.manager.rangeID ∧
    r.minKeyByCategory = minKeyByCategory r.taskKeys ∧
    ∀ (c : Category) (k : Key), (c, k) ∈ r.taskKeys → k.taskID < s.manager.generator.nextTaskID
  apart : ∀ (i j : Nat) (r r' : Request), s.requests[i]? = some r → s.requests[j]? = some r' →
    i ≠ j → ∀ p ∈ r.taskKeys, p ∉ r'.taskKeys
  tracked : ∀ (i : Nat) (r : Request), s.requests[i]? = some r → r.Open → r.rangeID = s.manager.rangeID →
    ∀ p ∈ r.minKeyByCategory, p ∈ s.manager.tracker.pendingTaskKeys
  floor : ∀ (c : Category) (w : Key), (c, w) ∈ s.watermarks → s.manager.generator.Floor c w ∧ w ≤ Key.maximumKey ∧
    ∀ k, (c, k) ∈ s.manager.tracker.pendingTaskKeys → w ≤ k
  sorted : s.watermarks.Pairwise fun later earlier => later.1 = earlier.1 → earlier.2 ≤ later.2

namespace System
variable {s s' : System}

lemma Inv.init (rangeSizeBits : Nat) : (init rangeSizeBits).Inv where
  ranged := ⟨Int.le_refl _, .inl rfl⟩
  nonneg _ _ h := nomatch h
  issued _ _ h := nomatch h
  apart _ _ _ _ h := nomatch h
  tracked _ _ h := nomatch h
  floor _ _ h := nomatch h
  sorted := .nil

lemma Inv.grow (hs : s.Inv) {m : Manager} (hm : m.Ranged) (g : s.manager.Grows m) : Inv { s with manager := m } where
  ranged := hm
  nonneg c k h := hs.nonneg c k (g.sub _ h)
  issued i r h := by
    obtain ⟨h1, h2, h3⟩ := hs.issued i r h
    exact ⟨Int.le_trans h1 g.range, h2, fun c k hk => Int.lt_of_lt_of_le (h3 c k hk) g.next⟩
  apart := hs.apart
  tracked i r h ho hr p hp := by
    have hle := (hs.issued i r h).1
    have hrange := g.range
    simp only at hr
    exact g.kept (by omega) p (hs.tracked i r h ho (by omega) p hp)
  floor c w h := by
    obtain ⟨h1, h2, h3⟩ := hs.floor c w h
    exact ⟨g.floor h1, h2, fun k hk => h3 k (g.sub _ hk)⟩
  sorted := hs.sorted

lemma Inv.issue (hs : s.Inv) {m : Manager} {ks} (hm : m.Ranged) (g : s.manager.Grows m)
    (hk : ∀ c k, (c, k) ∈ ks → s.manager.generator.nextTaskID ≤ k.taskID ∧ 0 ≤ k.taskID ∧
      k.taskID < m.generator.nextTaskID ∧ ∀ w, s.manager.generator.Floor c w → w ≤ k) :
    (s.issue m ks).Inv := by
  have hg := hs.grow hm g
  -- an earlier request has smaller ids, so it shares no key with the new one
  have hnew : ∀ (i : Nat) (r : Request), s.requests[i]? = some r → ∀ p ∈ r.taskKeys, p ∉ ks := by
    intro i r h ⟨c, k⟩ hp hp'
    have hlt := (hs.issued i r h).2.2 c k hp
    have hle := (hk c k hp').1
    omega
  refine ⟨hm, fun c k h => ?_, fun i r h => ?_, fun i j r r' h h' hij => ?_,
    fun i r h ho hr p hp => ?_, fun c w h => ?_, hs.sorted⟩
  · obtain h | h := mem_append.mp h
    · exact (hk c k (mem_of_mem_minKeyByCategory h)).2.1
    · exact hg.nonneg c k h
  · obtain h | ⟨-, rfl⟩ := getElem?_concat_cases h
    · exact hg.issued i r h
    · exact ⟨Int.le_refl _, rfl, fun c k h => (hk c k h).2.2.1⟩
  · obtain h | ⟨hi, rfl⟩ := getElem?_concat_cases h
    · obtain h' | ⟨-, rfl⟩ := getElem?_concat_cases h'
      · exact hs.apart i j r r' h h' hij
      · exact hnew i r h
    obtain h' | ⟨hj, rfl⟩ := getElem?_concat_cases h'
    · exact fun p hp hp' => hnew j r' h' p hp' hp
    · omega
  · obtain h | ⟨-, rfl⟩ := getElem?_concat_cases h
    · exact mem_append_right _ (hg.tracked i r h ho hr p hp)
    · exact mem_append_left _ hp
  obtain ⟨h1, h2, h3⟩ := hg.floor c w h
  refine ⟨h1, h2, fun k hk' => ?_⟩
  obtain hk' | hk' := mem_append.mp hk'
  · exact (hk c k (mem_of_mem_minKeyByCategory hk')).2.2.2 w (hs.floor c w h).1
  · exact h3 k hk'

/-- A request changes its state. The tracker may lose its keys once it is no longer open. -/
lemma Inv.update (hs : s.Inv) {i} {r r' : Request} {t : Tracker}
    (hi : s.requests[i]? = some r) (hrange : r'.rangeID = r.rangeID)
    (hkeys : r'.taskKeys = r.taskKeys) (hmins : r'.minKeyByCategory = r.minKeyByCategory)
    (hopen : r'.Open → r.Open) (hsub : ∀ p ∈ t.pendingTaskKeys, p ∈ s.manager.tracker.pendingTaskKeys)
    (hkept : ∀ p ∈ s.manager.tracker.pendingTaskKeys, p ∈ t.pendingTaskKeys ∨ p ∈ r.minKeyByCategory ∧ ¬ r'.Open) :
    Inv { s with manager := { s.manager with tracker := t }, requests := s.requests.set i r' } where
  ranged := hs.ranged
  nonneg c k h := hs.nonneg c k (hsub _ h)
  issued j q h := by
    obtain ⟨-, rfl⟩ | ⟨-, h⟩ := getElem?_set_cases h
    · rw [hrange, hkeys, hmins]
      exact hs.issued i r hi
    · exact hs.issued j q h
  apart j j' q q' h h' hne := by
    obtain ⟨rfl, rfl⟩ | ⟨-, hq⟩ := getElem?_set_cases h
    · obtain ⟨rfl, rfl⟩ | ⟨-, hq'⟩ := getElem?_set_cases h'
      · exact absurd rfl hne
      rw [hkeys]
      exact hs.apart _ _ _ _ hi hq' hne
    obtain ⟨rfl, rfl⟩ | ⟨-, hq'⟩ := getElem?_set_cases h'
    · rw [hkeys]
      exact hs.apart _ _ _ _ hq hi hne
    · exact hs.apart _ _ _ _ hq hq' hne
  tracked j q h ho hr p hp := by
    obtain ⟨-, rfl⟩ | ⟨hj, h⟩ := getElem?_set_cases h
    · rw [hmins] at hp
      rw [hrange] at hr
      exact (hkept p (hs.tracked i r hi (hopen ho) hr p hp)).resolve_right fun hn => hn.2 ho
    refine (hkept p (hs.tracked j q h ho hr p hp)).resolve_right fun hn => ?_
    -- the two requests would share a key
    rw [(hs.issued i r hi).2.1] at hn
    rw [(hs.issued j q h).2.1] at hp
    exact hs.apart j i q r h hi hj p (mem_of_mem_minKeyByCategory hp) (mem_of_mem_minKeyByCategory hn.1)
  floor c w h := by
    obtain ⟨h1, h2, h3⟩ := hs.floor c w h
    exact ⟨h1, h2, fun k hk => h3 k (hsub _ hk)⟩
  sorted := hs.sorted

lemma Inv.mark (hs : s.Inv) {c now shift m w} (h : s.manager.getExclusiveReaderHighWatermark c now shift = (m, w)) :
    Inv { s with manager := m, watermarks := (c, w) :: s.watermarks } := by
  obtain ⟨rfl, hfloor, hmax, hpend, hlargest⟩ :=
    Manager.getExclusiveReaderHighWatermark_spec (hs.nonneg c) h
  have hg := hs.grow (hs.ranged.setTaskMinScheduledTime (truncate (now + shift)))
    (s.manager.grows_setTaskMinScheduledTime _)
  refine ⟨hg.ranged, hg.nonneg, hg.issued, hg.apart, hg.tracked, fun c' w' h' => ?_, ?_⟩
  · obtain h' | h' := mem_cons.mp h'
    · cases h'
      exact ⟨hfloor, hmax, hpend⟩
    · exact hg.floor c' w' h'
  refine pairwise_cons.mpr ⟨fun ⟨c', w'⟩ h' e => ?_, hs.sorted⟩
  cases e
  obtain ⟨h1, h2, h3⟩ := hs.floor c w' h'
  exact hlargest w' h1 h2 h3

theorem Inv.step (hs : s.Inv) (e : Event) : Yields (fun _ => True) Inv (s.step e) := by
  cases e with dsimp only [System.step]
  | setAndTrackTaskKeys now renewals tasks =>
    have hgrow := s.manager.grows_setTaskMinScheduledTime (truncate now)
    have hset := (hs.ranged.setTaskMinScheduledTime (truncate now)).assignTaskKeys renewals tasks
    split
    · trivial
    · next hk =>
      obtain ⟨hm, hgrow', -⟩ := hset.post hk
      exact hs.grow hm (hgrow.trans hgrow')
    next ks hk =>
    obtain ⟨hm, hgrow', hkeys⟩ := hset.post hk
    refine hs.issue hm (hgrow.trans hgrow') fun c k hin => ?_
    obtain ⟨h1, h2, h3, h4⟩ := hkeys ks rfl c k hin
    exact ⟨h1, h2, h3, fun w hw => h4 w (hgrow.floor hw)⟩
  | generateTaskKey renewals =>
    split
    · trivial
    next hk =>
    obtain ⟨hm, hgrow, -⟩ := (hs.ranged.generateTaskID renewals).post hk
    exact hs.grow hm hgrow
  | setTaskMinScheduledTime t =>
    exact hs.grow (hs.ranged.setTaskMinScheduledTime t) (s.manager.grows_setTaskMinScheduledTime t)
  | renewRange rangeID =>
    split
    · trivial
    next hk =>
    obtain ⟨hm, hgrow, -⟩ := (hs.ranged.renewRange rangeID).post hk
    exact hs.grow hm hgrow
  | getExclusiveReaderHighWatermark c now shift => exact hs.mark rfl
  | commit i =>
    split
    · trivial
    next r hi =>
    split
    · exact hs.update (t := s.manager.tracker) hi rfl rfl rfl id (fun _ h => h) fun _ h => .inl h
    · trivial
  | complete i outcome =>
    split
    · trivial
    next r hi =>
    split
    · next hcond =>
      refine hs.update hi rfl rfl rfl (fun _ => .inl hcond.1) (fun p hp => ?_) fun p hp => ?_
      · simp only [complete] at hp
        split at hp
        · exact (mem_filter.mp hp).1
        · exact hp
      simp only [complete]
      split
      · next hdef =>
        by_cases hin : p ∈ r.minKeyByCategory
        · exact .inr ⟨hin, by simpa [Request.Open] using hdef⟩
        · exact .inl (mem_filter.mpr ⟨hp, by simpa using hin⟩)
      · exact .inl hp
    · trivial

lemma Inv.le_of_open (hs : s.Inv) {i : Nat} {r : Request} (hi : s.requests[i]? = some r) (ho : r.Open)
    (hr : r.rangeID = s.manager.rangeID) {c k w} (hk : (c, k) ∈ r.taskKeys)
    (hw : (c, w) ∈ s.watermarks) : w ≤ k := by
  obtain ⟨-, hmax, hpend⟩ := hs.floor c w hw
  obtain hk | ⟨m, hm, hin⟩ := minKeyByCategory_le hk
  · exact hmax.trans hk
  rw [← (hs.issued i r hi).2.1] at hin
  exact (hpend m (hs.tracked i r hi ho hr _ hin)).trans hm

end System

/-- In every run, no request that commits writes a task below a watermark that was returned for the
category before, and the watermarks returned for a category never decrease. -/
theorem watermark_not_passed (rangeSizeBits : Nat) (events : List Event) {s : System}
    (hr : Lib.run System.step (System.init rangeSizeBits) events = .ok s) :
    (∀ (i : Nat) (r : Request) (s' : System), s.step (.commit i) = .ok s' → s.requests[i]? = some r →
      ∀ c k w, (c, k) ∈ r.taskKeys → (c, w) ∈ s.watermarks → w ≤ k) ∧
    s.watermarks.Pairwise fun later earlier => later.1 = earlier.1 → earlier.2 ≤ later.2 := by
  have hs : s.Inv := (Lib.Along.of_forall (P := fun _ _ => True) (fun _ _ _ => trivial) _).inv
    (fun _ _ _ hs _ h => (hs.step _).post h) (.init rangeSizeBits) hr
  refine ⟨fun i r s' h hi c k w hk hw => ?_, hs.sorted⟩
  simp only [System.step, hi] at h
  split at h
  · rename_i hcond
    exact hs.le_of_open hi hcond.1 hcond.2.2 hk hw
  · cases h

/-- A timer whose outcome stays open commits late, the range is renewed inside the next request, and
watermarks are returned in between with a clock that jumps back. -/
def timerRun : List Event :=
  let timer : Category := ⟨2, .scheduled⟩
  let transfer : Category := ⟨1, .immediate⟩
  [.renewRange 1, .setAndTrackTaskKeys 5000000 [] [(timer, 7300000), (transfer, 0)],
    .getExclusiveReaderHighWatermark timer 20000000 1000000,
    .getExclusiveReaderHighWatermark transfer 3000000 1000000,
    .complete 0 .possiblySucceeded, .commit 0,
    .setAndTrackTaskKeys 4000000 [some 2] [(timer, 100), (timer, 30000000)],
    .getExclusiveReaderHighWatermark timer 2000000 1000000]

/-- `timerRun` returns three watermarks, and its second request may still commit. -/
theorem watermark_not_passed_timerRun :
    ∃ s r, Lib.run System.step (System.init 1) timerRun = .ok s ∧ s.watermarks.length = 3 ∧
      s.requests[1]? = some r ∧ (s.step (.commit 1)).isOk ∧ r.taskKeys.length = 2 ∧
      ∀ c k w, (c, k) ∈ r.taskKeys → (c, w) ∈ s.watermarks → w ≤ k :=
  ⟨_, _, rfl, rfl, rfl, rfl, rfl, (watermark_not_passed 1 timerRun rfl).1 1 _ _ rfl rfl⟩

/-- In every run, over all renewals of the range, no task key is given to two requests. -/
theorem taskKeys_apart (rangeSizeBits : Nat) (events : List Event) : Yields (fun _ => True)
    (fun s => s.requests.Pairwise fun r r' => r.taskKeys.Disjoint r'.taskKeys)
    (run System.step (System.init rangeSizeBits) events) := by
  refine .any fun s hr => pairwise_iff_getElem.mpr fun i j _ _ hlt p => ?_
  have hs : s.Inv := (Along.of_forall (fun _ _ _ => trivial) _).inv (fun _ _ _ hs _ => (hs.step _).post) (.init _) hr
  exact hs.apart i j _ _ (getElem?_eq_getElem _) (getElem?_eq_getElem _) hlt.ne p

end FastOrchestration.Shard
