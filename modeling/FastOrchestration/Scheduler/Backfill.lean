import FastOrchestration.Lib.Decimal
import FastOrchestration.Lib.Run
import FastOrchestration.Scheduler.Spec

/-!
# Backfills

A `Backfiller` carries one manual request. Each execution of its task takes as many actions as the
invoker's buffer has room for; progress is kept in `lastProcessedTime`, which is the last action taken
once there has been an attempt, and the time of the request before.

`BackfillInv` says that what is enqueued and what is still to come are together the enumeration of the
request. It does not survive a first attempt without room, after which the time of the request is taken
for progress.
-/

namespace FastOrchestration.Scheduler

open Lib List BufferedStart

inductive Request where
  | backfill (startTime endTime : Int) (overlapPolicy : OverlapPolicy)
  | trigger (overlapPolicy : OverlapPolicy)
deriving DecidableEq

structure Backfiller where
  backfillId : String
  request : Request
  lastProcessedTime : Int
  attempt : Nat
deriving DecidableEq

def newBackfiller (backfillId : String) (request : Request) (now : Int) : Backfiller :=
  { backfillId := backfillId, request := request, lastProcessedTime := now, attempt := 0 }

structure BackfillProgress where
  bufferedStarts : List BufferedStart
  lastProcessedTime : Int
  complete : Bool

namespace Backfiller

variable (tweakables : Tweakables) (sched : ScheduleState) (b : Backfiller)

/-- On the first attempt the range starts one millisecond early, to include its start time. -/
def resumeTime (startTime : Int) : Int :=
  if 0 < b.attempt then b.lastProcessedTime else startTime - millisecond

def processBackfill (startTime endTime : Int) (overlapPolicy : OverlapPolicy) (limit : Nat) :
    BackfillProgress :=
  let r := processTimeRange tweakables sched (b.resumeTime startTime) endTime overlapPolicy
    b.backfillId true (some limit)
  { bufferedStarts := r.bufferedStarts
    lastProcessedTime := r.lastActionTime
    complete := r.nextWakeupTime.all (endTime < ·) }

def processTrigger (overlapPolicy : OverlapPolicy) : BackfillProgress :=
  { bufferedStarts :=
      [{ nominalTime := b.lastProcessedTime
         actualTime := b.lastProcessedTime
         overlapPolicy := sched.resolveOverlapPolicy overlapPolicy
         manual := true
         requestId := sched.generateRequestID b.backfillId b.lastProcessedTime b.lastProcessedTime
         attempt := 0
         backoffTime := 0 }]
    lastProcessedTime := b.lastProcessedTime
    complete := true }

/-- Half of the buffer is for backfills, in equal parts. -/
def allowedBufferedStarts (backfillers buffered : Nat) : Nat :=
  tweakables.maxBufferSize / 2 / max 1 backfillers - buffered

end Backfiller

/-- What an execution leaves: the backfiller, whether it is complete and deleted, and the starts to
enqueue. A backfiller that is not complete has its task scheduled again. -/
structure Executed where
  backfiller : Backfiller
  complete : Bool
  bufferedStarts : List BufferedStart

def Backfiller.execute (tweakables : Tweakables) (sched : ScheduleState) (b : Backfiller) (limit : Nat) : Executed :=
  if limit = 0 then ⟨{ b with attempt := b.attempt + 1 }, false, []⟩
  else
    let result :=
      match b.request with
      | .backfill startTime endTime overlapPolicy =>
        b.processBackfill tweakables sched startTime endTime overlapPolicy limit
      | .trigger overlapPolicy => b.processTrigger sched overlapPolicy
    { backfiller :=
        { b with
          lastProcessedTime :=
            if result.complete then b.lastProcessedTime else result.lastProcessedTime
          attempt := b.attempt + 1 }
      complete := result.complete
      bufferedStarts := result.bufferedStarts }

/-! ### Runs of a backfill -/

/-- What an execution finds: the conflict token, the limits, and how full the buffer is. -/
structure Execution where
  conflictToken : Int
  tweakables : Tweakables
  backfillers : Nat
  buffered : Nat

def Execution.limit (e : Execution) : Nat :=
  Backfiller.allowedBufferedStarts e.tweakables e.backfillers e.buffered

structure BackfillRun where
  backfiller : Backfiller
  deleted : Bool
  enqueued : List BufferedStart

def BackfillRun.start (backfillId : String) (request : Request) (now : Int) : BackfillRun :=
  ⟨newBackfiller backfillId request now, false, []⟩

/-- One execution. A backfiller that has been deleted is still executed if its node has another due
task: the tree is synced after the last of them. -/
def backfillStep (sched : ScheduleState) (s : BackfillRun) (e : Execution) : Except Empty BackfillRun :=
  let r := s.backfiller.execute e.tweakables { sched with conflictToken := e.conflictToken } e.limit
  .ok ⟨r.backfiller, s.deleted || r.complete, s.enqueued ++ r.bufferedStarts⟩

def ScheduleState.requested (sched : ScheduleState) (startTime endTime : Int) :
    List GetNextTimeResult :=
  sched.spec.actionTimes sched.jitterSeed endTime (startTime - millisecond)

def BufferedStart.times (b : BufferedStart) : GetNextTimeResult := ⟨b.nominalTime, b.actualTime⟩

/-- The request ID of a start, under the conflict token at the time of its execution. -/
def BufferedStart.HasId (sched : ScheduleState) (backfillId : String) (b : BufferedStart) : Prop :=
  ∃ token, b.requestId = { sched with conflictToken := token }.generateRequestID backfillId b.nominalTime b.actualTime

section Run

variable {sched : ScheduleState} {backfillId : String} {startTime endTime : Int}
  {overlapPolicy : OverlapPolicy} {s s' : BackfillRun} {e : Execution}

structure BackfillInv (sched : ScheduleState) (backfillId : String) (startTime endTime : Int)
    (overlapPolicy : OverlapPolicy) (s : BackfillRun) : Prop where
  request : s.backfiller.request = .backfill startTime endTime overlapPolicy
  named : s.backfiller.backfillId = backfillId
  progress : s.deleted = false → s.enqueued.map times ++
      sched.spec.actionTimes sched.jitterSeed endTime (s.backfiller.resumeTime startTime) =
        sched.requested startTime endTime
  done : s.deleted = true → s.enqueued.map times = sched.requested startTime endTime
  ids : ∀ b ∈ s.enqueued, b.HasId sched backfillId

/-- The first attempt finds room in the buffer, and there is no attempt after the last one. -/
def FindsRoom (s : BackfillRun) (e : Execution) : Prop :=
  s.deleted = false ∧ (s.backfiller.attempt = 0 → 0 < e.limit)

instance (s : BackfillRun) (e : Execution) : Decidable (FindsRoom s e) :=
  inferInstanceAs (Decidable (_ ∧ _))

lemma BackfillInv.start (now : Int) : BackfillInv sched backfillId startTime endTime overlapPolicy
    (.start backfillId (.backfill startTime endTime overlapPolicy) now) where
  request := rfl
  named := rfl
  progress _ := by
    simp [BackfillRun.start, Backfiller.resumeTime, newBackfiller, ScheduleState.requested]
  done h := by cases h
  ids b hb := by cases hb

/-- One attempt with room, at a backfill whose actions are `all`. -/
structure Attempted (sched : ScheduleState) (backfillId : String) (endTime : Int)
    (all : List GetNextTimeResult) (limit : Nat) (r : BackfillProgress) : Prop where
  times : r.bufferedStarts.map times = all.take limit
  ids : ∀ b ∈ r.bufferedStarts, b.HasId sched backfillId
  more : limit ≤ all.length → r.complete = false ∧ (∃ n ∈ all[limit - 1]?, r.lastProcessedTime = n.next) ∧
    sched.spec.actionTimes sched.jitterSeed endTime r.lastProcessedTime = all.drop limit
  finished : all.length < limit → r.complete = true

/-- An attempt with room takes the actions that are due. -/
lemma processBackfill_spec (tweakables : Tweakables) (sched : ScheduleState) (token : Int)
    (b : Backfiller) (startTime endTime : Int) (overlapPolicy : OverlapPolicy) {limit}
    (hpos : 0 < limit) : Attempted sched b.backfillId endTime (sched.due endTime (b.resumeTime startTime)) limit
      (b.processBackfill tweakables { sched with conflictToken := token } startTime endTime overlapPolicy limit) := by
  unfold Backfiller.processBackfill processTimeRange
  simp only [Bool.not_true, Bool.and_false, Bool.false_eq_true, if_false]
  -- The token is of no consequence for the times.
  have h := rangeLoop_manual ⟨{ sched with conflictToken := token }, endTime,
      { sched with conflictToken := token }.resolveOverlapPolicy overlapPolicy, b.backfillId, true,
      { sched with conflictToken := token }.catchup tweakables⟩
    (b.resumeTime startTime) ⟨b.resumeTime startTime, [], some limit, 0⟩ rfl hpos rfl
  change Limited _ (sched.due endTime (b.resumeTime startTime)) _ _ _ at h
  generalize rangeLoop _ _ _ = r at h ⊢
  refine ⟨?_, ?_, fun hmore => ?_, fun hfin => ?_⟩
  · rw [h.bufferedStarts, nil_append, map_map]
    exact map_id _
  · rw [h.bufferedStarts, nil_append]
    intro st hst
    obtain ⟨n, -, rfl⟩ := mem_map.mp hst
    exact ⟨token, rfl⟩
  · obtain ⟨⟨n, hlast, hn, hle, htime⟩, hrest⟩ := h.more hmore
    exact ⟨by simpa [hn] using hle, ⟨n, hlast, htime⟩, hrest⟩
  simp only [Option.all_map]
  cases hr : r.1 with
  | none => rfl
  | some n => simpa using h.finished hfin n hr

lemma BackfillInv.step (h : BackfillInv sched backfillId startTime endTime overlapPolicy s)
    (hupdate : ∀ n ∈ sched.requested startTime endTime, sched.updateTime ≤ n.next)
    (hroom : FindsRoom s e) (hs : backfillStep sched s e = .ok s') :
    BackfillInv sched backfillId startTime endTime overlapPolicy s' := by
  obtain ⟨hlive, hroom⟩ := hroom
  have hall := h.progress hlive
  have hreq := h.request
  have hid := h.named
  generalize hb : s.backfiller = b at *
  simp only [backfillStep, hlive, Bool.false_or, hb] at hs
  by_cases hlimit : e.limit = 0
  · -- Without room nothing is taken, and this is not the first attempt.
    have hattempt : 0 < b.attempt := by
      by_contra hzero
      have := hroom (by omega)
      omega
    simp only [Backfiller.execute, hlimit, if_true] at hs
    cases hs
    refine ⟨hreq, hid, fun _ => ?_, nofun, by simpa using h.ids⟩
    simpa [Backfiller.resumeTime, hattempt] using hall
  have hdue : sched.due endTime (b.resumeTime startTime) =
      sched.spec.actionTimes sched.jitterSeed endTime (b.resumeTime startTime) :=
    filter_eq_self.mpr fun n hn => by simpa using hupdate n (by rw [← hall]; simp [hn])
  have hspec := processBackfill_spec e.tweakables sched e.conflictToken b startTime endTime
    overlapPolicy (Nat.pos_of_ne_zero hlimit)
  rw [hid, hdue] at hspec
  simp only [Backfiller.execute, hlimit, if_false, hreq] at hs
  generalize b.processBackfill e.tweakables _ startTime endTime overlapPolicy e.limit = r at hs hspec
  have hids : ∀ st ∈ s.enqueued ++ r.bufferedStarts, st.HasId sched backfillId := fun st hst =>
    (mem_append.mp hst).elim (h.ids st) (hspec.ids st)
  by_cases hmore : e.limit ≤ (sched.spec.actionTimes sched.jitterSeed endTime (b.resumeTime startTime)).length
  · obtain ⟨hcomplete, -, hrest⟩ := hspec.more hmore
    simp only [hcomplete, Bool.false_eq_true, if_false] at hs
    cases hs
    refine ⟨rfl, hid, fun _ => ?_, nofun, hids⟩
    have hresume : Backfiller.resumeTime ⟨b.backfillId, .backfill startTime endTime overlapPolicy,
        r.lastProcessedTime, b.attempt + 1⟩ startTime = r.lastProcessedTime := by
      simp [Backfiller.resumeTime]
    rw [hresume, hrest, map_append, hspec.times, append_assoc, take_append_drop, hall]
  have hcomplete := hspec.finished (by omega)
  simp only [hcomplete, if_true] at hs
  cases hs
  refine ⟨rfl, hid, nofun, fun _ => ?_, hids⟩
  rw [map_append, hspec.times, take_of_length_le (by omega), hall]

lemma BufferedStart.HasId.nominal {a b : BufferedStart} (ha : a.HasId sched backfillId)
    (hb : b.HasId sched backfillId) (h : a.requestId = b.requestId) :
    unixMilli a.nominalTime = unixMilli b.nominalTime := by
  obtain ⟨token, ha⟩ := ha
  obtain ⟨token', hb⟩ := hb
  rw [ha, hb] at h
  have h := congrArg String.toList h
  simp only [ScheduleState.generateRequestID, String.toList_append, append_cancel_left_eq] at h
  simp only [← String.toList_append, String.toList_inj] at h
  exact (repr_dash_inj (repr_dash_inj h).2).1

lemma BackfillInv.nodup (h : BackfillInv sched backfillId startTime endTime overlapPolicy s)
    (hdone : s.deleted) : (s.enqueued.map requestId).Nodup := by
  obtain ⟨hsorted, hall⟩ := actionTimes_sorted sched.spec sched.jitterSeed endTime (startTime - millisecond)
  have htimes : s.enqueued.map times = _ := h.done hdone
  rw [ScheduleState.requested] at htimes
  rw [← htimes, pairwise_map] at hsorted
  have hnominal : ∀ b ∈ s.enqueued, b.nominalTime ≤ b.actualTime ∧ b.nominalTime % second = 0 := by
    intro b hb
    have := hall b.times (htimes ▸ mem_map_of_mem hb)
    exact ⟨this.2.1, this.2.2.1⟩
  refine pairwise_map.mpr (hsorted.imp_of_mem fun {a b} ha hb hlt heq => ?_)
  -- Nominal times are whole seconds, so two of them in one millisecond are the same.
  have hms := (h.ids a ha).nominal (h.ids b hb) heq
  obtain ⟨hle, hawhole⟩ := hnominal a ha
  obtain ⟨-, hbwhole⟩ := hnominal b hb
  have hlt : a.actualTime < b.nominalTime := hlt
  unfold unixMilli millisecond at hms
  unfold second at hawhole hbwhole
  omega

end Run

/-! ### Runs -/

def everyTenSeconds (updateTime : Int) : ScheduleState where
  namespaceId := "ns"
  scheduleId := "s"
  conflictToken := 1
  spec :=
    { calendar := [], interval := [⟨10 * second, 0⟩], excludes := [], startTime := 0, endTime := none,
      jitter := 0, fingerprint := fun _ _ => 0 }
  updateTime := updateTime
  overlapPolicy := .skip
  catchupWindow := none
  paused := false
  limitedActions := false
  remainingActions := 0

/-- An execution with so many starts in a buffer that has room for two from backfills. -/
def withBuffered (buffered : Nat) : Execution :=
  ⟨1, ⟨0, 0, 4, 0⟩, 1, buffered⟩

/-- The backfill of the actions at 100, 110 and 120 seconds, requested at 1000 seconds. -/
def backfillThree (sched : ScheduleState) (startTime : Int) (es : List Execution) :
    Except Empty BackfillRun :=
  run (backfillStep sched) (.start "b" (.backfill startTime (120 * second) .skip) (1000 * second)) es

def completedWith (r : Except Empty BackfillRun) : Option (List Int) :=
  r.toOption.bind fun s => if s.deleted then some (s.enqueued.map fun b => unix b.actualTime) else none

end FastOrchestration.Scheduler
