import FastOrchestration.Lib.Lists
import FastOrchestration.Lib.SortedMap
import FastOrchestration.Matching.Backlog

/-!
# The reader of a priority subqueue

Model of `service/matching/pri_task_reader.go`. Each definition is one section of the source that runs
under `tr.lock`; `PumpPhase` says where `getTasksPump` is between two of them.

Left out are the matcher, the backlog age and the backlog counts, which no decision here depends on.
-/

namespace FastOrchestration.Matching

open Lib

/-- What the reader reads from the dynamic configuration. Persistence is asked for a page of
`getTasksBatchSize` tasks, so that it is not 0. -/
structure PriConfig where
  getTasksBatchSize : Nat
  batch_pos : 0 < getTasksBatchSize
  getTasksReloadAt : Int
  maxTaskDeleteBatchSize : Int
  taskDeleteInterval : Int
  deriving DecidableEq

inductive PumpPhase where
  /-- It waits for `notifyC`. -/
  | waiting
  /-- At the start of `getTaskBatch`. -/
  | starting
  /-- In `getTaskBatch`, before `GetMaxReadLevel`. -/
  | captured (readLevel : Int)
  /-- In the loop of `getTaskBatch`. -/
  | reading (readLevel maxReadLevel : Int) (i : Nat)
  /-- Before `processTaskBatch`. -/
  | gotTasks (tasks : List (Int × TaskInfo))
  /-- Before `setReadLevelAfterGap`. -/
  | gotGap (readLevel : Int) (isReadBatchDone : Bool)
  deriving DecidableEq

/-- The arguments of a `doGC` that runs. -/
structure GCCall where
  ackLevel : Int
  batchSize : Int
  deriving DecidableEq

structure PriTaskReader where
  /-- Whether there is a signal in the channel. -/
  notifyC : Bool
  pump : PumpPhase
  /-- Go `backoffTimer != nil`. -/
  backoffTimer : Bool
  /-- Whether a task is acked. -/
  outstandingTasks : SortedMap Int Bool
  loadedTasks : Int
  readLevel : Int
  ackLevel : Int
  inGC : Option GCCall
  gcAckLevel : Int
  lastGCTime : Int

namespace PriTaskReader

/-- Go `newPriTaskReader` and `Start`, which primes the pump. -/
def newPriTaskReader (initialAckLevel now : Int) : PriTaskReader where
  notifyC := true
  pump := .waiting
  backoffTimer := false
  outstandingTasks := .empty
  loadedTasks := 0
  readLevel := initialAckLevel
  ackLevel := initialAckLevel
  inGC := none
  gcAckLevel := 0
  lastGCTime := now

variable (config : PriConfig) (now : Int) (tr : PriTaskReader)

def signalTaskLoading : PriTaskReader := { tr with notifyC := true }

/-! ### The pump -/

/-- The pump takes a signal; Go `getLoadedTasks` tells whether it reads. -/
def wake : PriTaskReader :=
  let tr := { tr with notifyC := false }
  if config.getTasksReloadAt < tr.loadedTasks then tr else { tr with pump := .starting }

/-- Go `GetTasks`: the first rows of a range. -/
def getTasks (rows : SortedMap Int TaskInfo) (inclusiveMinTaskID exclusiveMaxTaskID : Int)
    (batchSize : Nat) : List (Int × TaskInfo) :=
  (rows.entries.filter fun t => inclusiveMinTaskID ≤ t.1 ∧ t.1 < exclusiveMaxTaskID).take batchSize

/-- A turn of the loop of Go `getTaskBatch`. -/
def getTaskBatch (rows : SortedMap Int TaskInfo) (readLevel maxReadLevel : Int) (i : Nat) : PumpPhase :=
  if i < 10 ∧ readLevel < maxReadLevel then
    let upper := min (readLevel + rangeSize) maxReadLevel
    match getTasks rows (readLevel + 1) (upper + 1) config.getTasksBatchSize with
    | [] => .reading upper maxReadLevel (i + 1)
    | tasks => .gotTasks tasks
  else .gotGap readLevel (readLevel = maxReadLevel)

def recordNewTasksLocked (tasks : List (Int × TaskInfo)) : PriTaskReader :=
  { tr with
    outstandingTasks := tr.outstandingTasks.putAll (tasks.map fun t => (t.1, false))
    loadedTasks := tr.loadedTasks + tasks.length }

def processTaskBatch (tasks : List (Int × TaskInfo)) : PriTaskReader :=
  let new := tasks.filter fun t =>
    ¬ (t.2.isTaskExpired now ∨ (tr.outstandingTasks.get? t.1).isSome)
  let readLevel := tasks.foldl (fun level (t : Int × TaskInfo) => max level t.1) tr.readLevel
  { tr with readLevel }.recordNewTasksLocked new

def setReadLevelAfterGap (newReadLevel : Int) : PriTaskReader :=
  { tr with
    ackLevel := if tr.ackLevel = tr.readLevel then newReadLevel else tr.ackLevel
    readLevel := newReadLevel }

def pumpBatch : PriTaskReader :=
  match tr.pump with
  | .gotTasks tasks => { tr.processTaskBatch now tasks with pump := .waiting }.signalTaskLoading
  | .gotGap readLevel isReadBatchDone =>
    let tr := { tr.setReadLevelAfterGap readLevel with pump := .waiting }
    if isReadBatchDone then tr else tr.signalTaskLoading
  | _ => tr

/-- Go `backoffSignal`, and the pump goes on. -/
def backoffSignal : PriTaskReader := { tr with pump := .waiting, backoffTimer := true }

/-- The function that `backoffSignal` gives to `time.AfterFunc`. -/
def backoffFires : PriTaskReader := { tr.signalTaskLoading with backoffTimer := false }

/-! ### New tasks -/

/-- Go `subqueueCreateTasksResponse`. -/
structure Response where
  tasks : List (Int × TaskInfo)
  maxReadLevelBefore : Int
  maxReadLevelAfter : Int
  deriving DecidableEq

/-- Go `signalNewTasks`. The function given to `slices.ContainsFunc` returns what `softassert.That`
returns, so that it is true of a task that is not outstanding. -/
def signalNewTasks (resp : Response) : PriTaskReader :=
  let canAddDirect := tr.readLevel = resp.maxReadLevelBefore ∧
    tr.loadedTasks + resp.tasks.length ≤ config.getTasksBatchSize ∧
    ¬ resp.tasks.any fun t => (tr.outstandingTasks.get? t.1).isNone
  if ¬ canAddDirect then tr.signalTaskLoading
  else { tr with readLevel := resp.maxReadLevelAfter }.recordNewTasksLocked resp.tasks

/-! ### Acks -/

/-- The loop of `ackTaskLocked`: the lowest ids, as long as they are acked. -/
def lowestAcked : List (Int × Bool) := tr.outstandingTasks.entries.takeWhile fun e => e.2

/-- The end of Go `ackTaskLocked`: the ack level is moved as far as possible. -/
def advance : PriTaskReader :=
  { tr with
    ackLevel := tr.lowestAcked.getLast?.elim tr.ackLevel (·.1)
    outstandingTasks := tr.outstandingTasks.dropWhile fun _ acked => acked }

def ackTaskLocked (taskId : Int) : PriTaskReader :=
  match tr.outstandingTasks.get? taskId with
  | some false =>
    { tr with
      outstandingTasks := tr.outstandingTasks.put taskId true
      loadedTasks := tr.loadedTasks - 1 }.advance
  -- not found, or acked already
  | _ => tr

def shouldGCLocked : Bool :=
  if tr.inGC.isSome then false
  else if tr.ackLevel - tr.gcAckLevel = 0 then false
  else if config.maxTaskDeleteBatchSize ≤ tr.ackLevel - tr.gcAckLevel then true
  else config.taskDeleteInterval < now - tr.lastGCTime

def maybeGCLocked : PriTaskReader :=
  if ¬ tr.shouldGCLocked config now then tr
  else { tr with
    inGC := some ⟨tr.ackLevel, config.maxTaskDeleteBatchSize⟩
    lastGCTime := now }

/-- The end of Go `completeTask`, under the lock. -/
def completeTask (taskId : Int) : PriTaskReader :=
  let tr := (tr.ackTaskLocked taskId).maybeGCLocked config now
  if tr.loadedTasks = config.getTasksReloadAt then tr.signalTaskLoading else tr

/-- The end of Go `doGC`, under the lock. -/
def gcDone (call : GCCall) (result : Option Int) : PriTaskReader :=
  let tr := { tr with inGC := none }
  match result with
  | none => tr
  | some n =>
    -- `UnknownNumRowsAffected`
    if n = -1 ∨ n < call.batchSize then { tr with gcAckLevel := call.ackLevel } else tr

/-!
## What the reader of a priority subqueue holds on to

`Safe owed completed maxReadLevel` says that no owed task is at or below the ack level, that those up to
the read level are outstanding, and what the pump knows between two critical sections. Ids are given out
in increasing order, so that a task that is owed later is above `maxReadLevel` (`Safe.world`).

`signalNewTasks_eq`: tasks are never added to memory directly, they are always left to the pump.
-/

open List SortedMap

variable {config : PriConfig} {now : Int} {tr : PriTaskReader} {owed owed' : Int × TaskInfo → Prop}
  {completed completed' : Int → Prop} {maxReadLevel max' : Int}

def PumpOk (owed : Int × TaskInfo → Prop) (maxReadLevel readLevel : Int) : PumpPhase → Prop
  | .captured r => r = readLevel
  | .reading r m _ => readLevel ≤ r ∧ r ≤ m ∧ m ≤ maxReadLevel ∧ ∀ t, owed t → readLevel < t.1 → r < t.1
  | .gotTasks tasks => (∀ t ∈ tasks, readLevel < t.1 ∧ t.1 ≤ maxReadLevel) ∧
      ∀ t, owed t → readLevel < t.1 → (∃ t' ∈ tasks, t.1 ≤ t'.1) → t ∈ tasks
  | .gotGap r _ => readLevel ≤ r ∧ r ≤ maxReadLevel ∧ ∀ t, owed t → readLevel < t.1 → r < t.1
  | _ => True

structure Safe (owed : Int × TaskInfo → Prop) (completed : Int → Prop) (maxReadLevel : Int)
    (tr : PriTaskReader) : Prop where
  le : tr.ackLevel ≤ tr.readLevel
  le_max : tr.readLevel ≤ maxReadLevel
  keys : ∀ e ∈ tr.outstandingTasks, tr.ackLevel < e.1 ∧ e.1 ≤ tr.readLevel
  acked : ∀ id, (id, true) ∈ tr.outstandingTasks → completed id
  above : ∀ t, owed t → tr.ackLevel < t.1
  held : ∀ t, owed t → t.1 ≤ tr.readLevel → (t.1, false) ∈ tr.outstandingTasks
  gc : ∀ g ∈ tr.inGC, g.ackLevel ≤ tr.ackLevel
  pump : PumpOk owed maxReadLevel tr.readLevel tr.pump

section

variable (h : tr.Safe owed completed maxReadLevel)

include h

/-- The world moves on: what is newly owed is above the old `maxReadLevel`. -/
lemma Safe.world (hmax : maxReadLevel ≤ max') (hc : ∀ id, completed id → completed' id)
    (howed : ∀ t, owed' t → owed t ∨ maxReadLevel < t.1) : tr.Safe owed' completed' max' := by
  refine ⟨h.le, h.le_max.trans hmax, h.keys, fun id hid => hc id (h.acked id hid), ?_, ?_, h.gc, ?_⟩
  · intro t ht
    rcases howed t ht with hold | hnew
    · exact h.above t hold
    · exact (h.le.trans h.le_max).trans_lt hnew
  · intro t ht hle
    rcases howed t ht with hold | hnew
    · exact h.held t hold hle
    · exact absurd (hle.trans h.le_max) (not_le.mpr hnew)
  have hp := h.pump
  cases hpump : tr.pump with
  | reading r m i =>
    rw [hpump] at hp
    obtain ⟨hr, hrm, hm, hgap⟩ := hp
    refine ⟨hr, hrm, hm.trans hmax, fun t ht hlt => ?_⟩
    exact (howed t ht).elim (fun hold => hgap t hold hlt) fun hnew => (hrm.trans hm).trans_lt hnew
  | gotTasks tasks =>
    rw [hpump] at hp
    obtain ⟨htasks, hall⟩ := hp
    refine ⟨fun t ht => ⟨(htasks t ht).1, (htasks t ht).2.trans hmax⟩, ?_⟩
    rintro t ht hlt ⟨t', ht', hle⟩
    rcases howed t ht with hold | hnew
    · exact hall t hold hlt ⟨t', ht', hle⟩
    · exact absurd (hle.trans (htasks t' ht').2) (not_le.mpr hnew)
  | gotGap r b =>
    rw [hpump] at hp
    obtain ⟨hr, hm, hgap⟩ := hp
    refine ⟨hr, hm.trans hmax, fun t ht hlt => ?_⟩
    exact (howed t ht).elim (fun hold => hgap t hold hlt) fun hnew => hm.trans_lt hnew
  | captured r =>
    rw [hpump] at hp
    exact hp
  | _ => trivial

omit h in
lemma safe_new {ackLevel} (hle : ackLevel ≤ maxReadLevel) (habove : ∀ t, owed t → ackLevel < t.1) :
    (newPriTaskReader ackLevel now).Safe owed completed maxReadLevel :=
  ⟨le_rfl, hle, by simp [newPriTaskReader], by simp [newPriTaskReader], habove,
    fun t ht hle => absurd hle (not_le.mpr (habove t ht)), by simp [newPriTaskReader], trivial⟩

/-! ### The pump -/

lemma Safe.setPump {pump notifyC backoffTimer} (hpump : PumpOk owed maxReadLevel tr.readLevel pump) :
    Safe owed completed maxReadLevel { tr with pump, notifyC, backoffTimer } :=
  { h with pump := hpump }

lemma Safe.wake (config : PriConfig) (hw : tr.pump = .waiting) :
    (tr.wake config).Safe owed completed maxReadLevel ∧ (tr.wake config).ackLevel = tr.ackLevel := by
  unfold PriTaskReader.wake
  simp only
  split
  · exact ⟨{ h with pump := hw ▸ trivial }, rfl⟩
  · exact ⟨{ h with pump := trivial }, rfl⟩

lemma Safe.getTaskBatch {r m i}
    (hp : tr.pump = .reading r m i) {rows : SortedMap Int TaskInfo} (hrows : ∀ t, owed t → t ∈ rows) :
    PumpOk owed maxReadLevel tr.readLevel (getTaskBatch config rows r m i) := by
  have hpump := h.pump
  rw [hp] at hpump
  obtain ⟨hr, hrm, hm, hgap⟩ := hpump
  unfold PriTaskReader.getTaskBatch
  split
  · next hlt =>
    simp only
    let range := rows.entries.filter fun t => r + 1 ≤ t.1 ∧ t.1 < min (r + rangeSize) m + 1
    have hin : ∀ t, owed t → tr.readLevel < t.1 → t.1 ≤ min (r + rangeSize) m → t ∈ range := by
      intro t ht hlt hle
      have := hgap t ht hlt
      refine mem_filter.mpr ⟨hrows t ht, ?_⟩
      simp only [decide_eq_true_eq]
      omega
    split
    · next hnil =>
      -- a page has at least one task if there is one
      have hempty : range = [] := by
        have := take_eq_nil_iff.mp hnil
        exact this.resolve_left config.batch_pos.ne'
      refine ⟨?_, min_le_right _ _, hm, fun t ht hlt => ?_⟩
      · have : r ≤ min (r + rangeSize) m := le_min (by simp [rangeSize]) hrm
        exact hr.trans this
      by_contra hle
      have := hin t ht hlt (not_lt.mp hle)
      rw [hempty] at this
      cases this
    next tasks hne =>
    have hsorted : range.Pairwise (·.1 < ·.1) := rows.sorted.filter _
    refine ⟨?_, ?_⟩
    · intro t ht
      have hmem := (mem_filter.mp (mem_of_mem_take ht)).2
      simp only [decide_eq_true_eq] at hmem
      omega
    rintro t ht hlt ⟨t', ht', hle⟩
    have hmem' := (mem_filter.mp (mem_of_mem_take ht')).2
    simp only [decide_eq_true_eq] at hmem'
    have hmem := hin t ht hlt (by omega)
    rw [← take_append_drop config.getTasksBatchSize range] at hmem hsorted
    rcases mem_append.mp hmem with htake | hdrop
    · exact htake
    · exact absurd hle (not_le.mpr ((pairwise_append.mp hsorted).2.2 t' ht' t hdrop))
  · exact ⟨hr, hrm.trans hm, hgap⟩

lemma Safe.processTaskBatch {tasks} (hp : tr.pump = .gotTasks tasks) (hlive : ∀ t, owed t → ¬ t.2.isTaskExpired now) :
    Safe owed completed maxReadLevel { tr.processTaskBatch now tasks with pump := .waiting } := by
  have hpump := h.pump
  rw [hp] at hpump
  obtain ⟨htasks, hall⟩ := hpump
  obtain ⟨level, hlevel⟩ : ∃ level, level = (tr.processTaskBatch now tasks).readLevel := ⟨_, rfl⟩
  obtain ⟨hle, hmem, heq⟩ : tr.readLevel ≤ level ∧ (∀ t ∈ tasks, t.1 ≤ level) ∧
      (level = tr.readLevel ∨ ∃ t ∈ tasks, level = t.1) := by
    obtain ⟨hbound, hmem⟩ := @foldl_least _ Intᵒᵈ _ (fun level t => (max level t.1 : Int)) (fun t => some t.1)
      (fun _ _ => rfl) tasks tr.readLevel
    obtain ⟨hle, hall⟩ := (hbound _).mp le_rfl
    rw [hlevel]
    exact ⟨hle, fun t ht => hall t ht _ rfl, hmem.imp_right fun ⟨t, ht, h⟩ => ⟨t, ht, (Option.some.inj h).symm⟩⟩
  subst hlevel
  let fresh := (tasks.filter fun t =>
    ¬ (t.2.isTaskExpired now ∨ (tr.outstandingTasks.get? t.1).isSome)).map fun t => (t.1, false)
  have hnew : ∀ e ∈ fresh, e.2 = false ∧ (∃ d, (e.1, d) ∈ tasks) ∧ ∀ v, (e.1, v) ∉ tr.outstandingTasks := by
    intro e he
    obtain ⟨t, ht, rfl⟩ := mem_map.mp he
    obtain ⟨hin, hnot⟩ := mem_filter.mp ht
    simp only [not_or, decide_eq_true_eq, Option.not_isSome_iff_eq_none] at hnot
    exact ⟨rfl, ⟨t.2, hin⟩, get?_eq_none.mp hnot.2⟩
  refine ⟨h.le.trans hle, ?_, ?_, ?_, h.above, ?_, h.gc, trivial⟩
  · rcases heq with heq | ⟨t, ht, heq⟩
    · exact heq.le.trans h.le_max
    · exact heq.le.trans (htasks t ht).2
  · intro e he
    rcases mem_of_mem_putAll he with hin | ⟨hold, -⟩
    · obtain ⟨-, ⟨d, hd⟩, -⟩ := hnew e hin
      exact ⟨h.le.trans_lt (htasks _ hd).1, hmem _ hd⟩
    · exact ⟨(h.keys e hold).1, (h.keys e hold).2.trans hle⟩
  · intro id hid
    rcases mem_of_mem_putAll hid with hin | ⟨hold, -⟩
    · cases (hnew _ hin).1
    · exact h.acked id hold
  intro t ht hle'
  by_cases hread : t.1 ≤ tr.readLevel
  · have hold := h.held t ht hread
    refine mem_putAll_of_mem hold fun e he hkey => ?_
    exact (hnew e he).2.2 false (hkey ▸ hold)
  have hin : t ∈ tasks := by
    refine hall t ht (not_le.mp hread) ?_
    rcases heq with heq | ⟨t', ht', heq⟩
    · exact absurd (heq ▸ hle') hread
    · exact ⟨t', ht', heq ▸ hle'⟩
  have hfree : (tr.outstandingTasks.get? t.1).isSome = false := by
    refine Bool.eq_false_iff.mpr fun hsome => ?_
    obtain ⟨v, hv⟩ := Option.isSome_iff_exists.mp hsome
    exact hread (h.keys _ (get?_eq_some.mp hv)).2
  have hnewt : (t.1, false) ∈ fresh :=
    mem_map.mpr ⟨t, mem_filter.mpr ⟨hin, by simp [hlive t ht, hfree]⟩, rfl⟩
  obtain ⟨v, hv, hvin⟩ := exists_mem_putAll (m := tr.outstandingTasks) ⟨_, hnewt, rfl⟩
  cases (hnew _ hvin).1
  exact hv

lemma Safe.setReadLevelAfterGap {r b} (hp : tr.pump = .gotGap r b) :
    Safe owed completed maxReadLevel { tr.setReadLevelAfterGap r with pump := .waiting } ∧
      tr.ackLevel ≤ (tr.setReadLevelAfterGap r).ackLevel := by
  have hpump := h.pump
  rw [hp] at hpump
  obtain ⟨hr, hm, hgap⟩ := hpump
  have hheld : ∀ t, owed t → t.1 ≤ r → (t.1, false) ∈ tr.outstandingTasks := by
    intro t ht hle
    refine h.held t ht (not_lt.mp fun hlt => ?_)
    exact absurd hle (not_le.mpr (hgap t ht hlt))
  by_cases heq : tr.ackLevel = tr.readLevel
  · -- nothing is outstanding, and there is nothing in the gap
    have hnone : ∀ e, e ∉ tr.outstandingTasks := by
      intro e he
      have := h.keys e he
      omega
    simp only [PriTaskReader.setReadLevelAfterGap, if_pos heq]
    refine ⟨⟨le_rfl, hm, fun e he => absurd he (hnone e), h.acked, ?_, hheld, ?_, trivial⟩, h.le.trans hr⟩
    · exact fun t ht => hgap t ht (heq ▸ h.above t ht)
    · exact fun g hg => (h.gc g hg).trans (h.le.trans hr)
  simp only [PriTaskReader.setReadLevelAfterGap, if_neg heq]
  exact ⟨⟨h.le.trans hr, hm, fun e he => ⟨(h.keys e he).1, (h.keys e he).2.trans hr⟩, h.acked, h.above,
    hheld, h.gc, trivial⟩, le_rfl⟩

lemma Safe.pumpBatch (hlive : ∀ t, owed t → ¬ t.2.isTaskExpired now) :
    (tr.pumpBatch now).Safe owed completed maxReadLevel ∧ tr.ackLevel ≤ (tr.pumpBatch now).ackLevel := by
  unfold PriTaskReader.pumpBatch
  split
  · next hp =>
    have hdone := h.processTaskBatch hp hlive
    exact ⟨{ hdone with pump := trivial }, le_rfl⟩
  · next hp =>
    obtain ⟨hdone, hack⟩ := h.setReadLevelAfterGap hp
    split
    · exact ⟨hdone, hack⟩
    · exact ⟨{ hdone with pump := trivial }, hack⟩
  · exact ⟨h, le_rfl⟩

/-! ### New tasks -/

/-- Tasks that were written are never added directly. -/
lemma Safe.signalNewTasks_eq {resp : Response}
    (hne : resp.tasks ≠ []) (hnew : ∀ t ∈ resp.tasks, resp.maxReadLevelBefore < t.1) :
    tr.signalNewTasks config resp = tr.signalTaskLoading := by
  refine if_pos ?_
  rintro ⟨hread, -, hall⟩
  obtain ⟨t, ht⟩ := exists_mem_of_ne_nil _ hne
  refine hall (any_eq_true.mpr ⟨t, ht, ?_⟩)
  refine Option.isNone_iff_eq_none.mpr (get?_eq_none.mpr fun v hv => ?_)
  have := (h.keys _ hv).2
  have := hnew t ht
  omega

/-! ### Acks -/

lemma Safe.advance : tr.advance.Safe owed completed maxReadLevel ∧ tr.ackLevel ≤ tr.advance.ackLevel := by
  have hheld : ∀ t, owed t → t.1 ≤ tr.readLevel →
      (t.1, false) ∈ tr.outstandingTasks.dropWhile fun _ acked => acked := fun t ht hle =>
    mem_dropWhile_of_mem (h.held t ht hle) (by simp)
  obtain ⟨hmono, hlevel, hkept⟩ := dropWhile_level tr.outstandingTasks (fun _ acked => acked)
    (fun e he => (h.keys e he).1) (Eq.refl tr.advance.ackLevel)
  have hread : tr.advance.ackLevel ≤ tr.readLevel := by
    obtain heq | ⟨acked, hmem, -⟩ := hlevel
    · exact heq.trans_le h.le
    · exact (h.keys _ hmem).2
  refine ⟨⟨hread, h.le_max, fun e he => ⟨((hkept e).mp he).2, (h.keys e (mem_of_mem_dropWhile he)).2⟩,
    fun id hid => h.acked id (mem_of_mem_dropWhile hid), fun t ht => ?_, hheld,
    fun g hg => (h.gc g hg).trans hmono, h.pump⟩, hmono⟩
  by_contra hge
  exact hge ((hkept _).mp (hheld t ht ((not_lt.mp hge).trans hread))).2

lemma Safe.ackTaskLocked {taskId}
    (hc : (taskId, false) ∈ tr.outstandingTasks → completed taskId ∧ ∀ t, owed t → t.1 ≠ taskId) :
    (tr.ackTaskLocked taskId).Safe owed completed maxReadLevel ∧ tr.ackLevel ≤ (tr.ackTaskLocked taskId).ackLevel := by
  unfold PriTaskReader.ackTaskLocked
  split
  · next hget =>
    have hin := get?_eq_some.mp hget
    obtain ⟨hdone, hne⟩ := hc hin
    have hput : Safe owed completed maxReadLevel { tr with
        outstandingTasks := tr.outstandingTasks.put taskId true
        loadedTasks := tr.loadedTasks - 1 } := by
      refine ⟨h.le, h.le_max, ?_, ?_, h.above, ?_, h.gc, h.pump⟩
      · intro e he
        rcases mem_put.mp he with rfl | ⟨-, he⟩
        · exact h.keys (taskId, false) hin
        · exact h.keys e he
      · intro id hid
        rcases mem_put.mp hid with heq | ⟨-, hid⟩
        · cases heq
          exact hdone
        · exact h.acked id hid
      intro t ht hle
      exact mem_put.mpr (.inr ⟨hne t ht, h.held t ht hle⟩)
    exact hput.advance
  · exact ⟨h, le_rfl⟩

lemma Safe.maybeGCLocked : (tr.maybeGCLocked config now).Safe owed completed maxReadLevel ∧
      (tr.maybeGCLocked config now).ackLevel = tr.ackLevel := by
  unfold PriTaskReader.maybeGCLocked
  split
  · exact ⟨h, rfl⟩
  refine ⟨{ h with gc := ?_ }, rfl⟩
  intro g hg
  cases hg
  exact le_rfl

lemma Safe.completeTask {taskId}
    (hc : (taskId, false) ∈ tr.outstandingTasks → completed taskId ∧ ∀ t, owed t → t.1 ≠ taskId) :
    (tr.completeTask config now taskId).Safe owed completed maxReadLevel ∧
      tr.ackLevel ≤ (tr.completeTask config now taskId).ackLevel := by
  obtain ⟨hacked, hle⟩ := h.ackTaskLocked hc
  obtain ⟨hgc, heq⟩ := @Safe.maybeGCLocked config now _ _ _ _ hacked
  rw [← heq] at hle
  unfold PriTaskReader.completeTask
  simp only
  split
  · exact ⟨{ hgc with }, hle⟩
  · exact ⟨hgc, hle⟩

lemma Safe.gcDone (call : GCCall) (result : Option Int) : (tr.gcDone call result).Safe owed completed maxReadLevel ∧
      (tr.gcDone call result).ackLevel = tr.ackLevel := by
  unfold PriTaskReader.gcDone
  split
  · exact ⟨{ h with gc := by simp }, rfl⟩
  · split <;> exact ⟨{ h with gc := by simp }, rfl⟩

end

/-! ### Tasks that are added directly -/

section

variable (config : PriConfig) (tr : PriTaskReader) (resp : Response)

def isOutstanding (t : Int × TaskInfo) : Bool := (tr.outstandingTasks.get? t.1).isSome

/-- The reader is at the end of the subqueue, and there is room for the new tasks. -/
def HasRoom : Prop :=
  tr.readLevel = resp.maxReadLevelBefore ∧ tr.loadedTasks + resp.tasks.length ≤ config.getTasksBatchSize

instance : Decidable (tr.HasRoom config resp) := inferInstanceAs (Decidable (_ ∧ _))

def addDirect : PriTaskReader := { tr with readLevel := resp.maxReadLevelAfter }.recordNewTasksLocked resp.tasks

/-- What the pump does next, over a store that does not change. -/
def pumpTurn (rows : SortedMap Int TaskInfo) (maxReadLevel now : Int) (tr : PriTaskReader) : PriTaskReader :=
  match tr.pump with
  | .waiting => if tr.notifyC then tr.wake config else tr
  | .starting => { tr with pump := .captured tr.readLevel }
  | .captured readLevel => { tr with pump := .reading readLevel maxReadLevel 0 }
  | .reading readLevel max i => { tr with pump := getTaskBatch config rows readLevel max i }
  | _ => tr.pumpBatch now

def Idle : Prop := tr.pump = .waiting ∧ tr.notifyC = false

/-- New tasks are added directly when they may be, and over a store that has them the idle reader is as
if it had read them. -/
structure AddsAsRead : Prop where
  direct : tr.HasRoom config resp → (∀ t ∈ resp.tasks, ¬ tr.isOutstanding t) →
    tr.signalNewTasks config resp = tr.addDirect resp
  signals : ¬ (tr.HasRoom config resp ∧ ∀ t ∈ resp.tasks, ¬ tr.isOutstanding t) →
    tr.signalNewTasks config resp = tr.signalTaskLoading
  read : ∀ rows maxReadLevel now n m, (∀ t ∈ resp.tasks, t ∈ rows) → resp.maxReadLevelAfter ≤ maxReadLevel →
    ((pumpTurn config rows maxReadLevel now)^[n] (tr.signalNewTasks config resp)).Idle →
    ((pumpTurn config rows maxReadLevel now)^[m] tr.signalTaskLoading).Idle →
    (pumpTurn config rows maxReadLevel now)^[n] (tr.signalNewTasks config resp) =
      (pumpTurn config rows maxReadLevel now)^[m] tr.signalTaskLoading

variable {config tr resp}

lemma signalNewTasks_cases : tr.signalNewTasks config resp =
    if tr.HasRoom config resp ∧ ∀ t ∈ resp.tasks, tr.isOutstanding t
    then tr.addDirect resp else tr.signalTaskLoading := by
  have hany : (¬ resp.tasks.any fun t => (tr.outstandingTasks.get? t.1).isNone) ↔
      ∀ t ∈ resp.tasks, tr.isOutstanding t := by simp [isOutstanding, Option.isSome_iff_ne_none]
  simp only [signalNewTasks, hany, HasRoom, and_assoc, ite_not]
  rfl

lemma Idle.unique {rows maxReadLevel now n m} (hle : n ≤ m)
    (h : ((pumpTurn config rows maxReadLevel now)^[n] tr).Idle) :
    (pumpTurn config rows maxReadLevel now)^[m] tr = (pumpTurn config rows maxReadLevel now)^[n] tr := by
  obtain ⟨k, rfl⟩ := Nat.exists_eq_add_of_le' hle
  rw [Function.iterate_add_apply]
  exact Function.iterate_fixed (by simp [pumpTurn, h.1, h.2]) k

/-- A reader that has task 1. -/
def loadedOne : PriTaskReader := (newPriTaskReader 0 0).addDirect ⟨[(1, ⟨0⟩)], 0, 1⟩

end

end PriTaskReader

end FastOrchestration.Matching
