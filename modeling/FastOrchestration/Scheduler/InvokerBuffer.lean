import FastOrchestration.Scheduler.Components
import FastOrchestration.Scheduler.Overlap

/-!
# The buffer of the invoker

Model of `processBuffer` in `chasm/lib/scheduler/invoker_tasks.go` and of `useScheduledAction` in
`scheduler.go`. The starts that the overlap policies select are filtered by the limit of actions and by their
deadlines; what it decides is recorded by `recordProcessBufferResult`.

`buffer_accounted` puts this together with what `ProcessBuffer` does: a pending start is kept, marked for
execution or discarded, and a limit of actions falls by the automatic starts that are marked. Without a limit
the counter stays as it is. An automatic start that is found to be past its deadline has already been charged;
`buffer_accounted` leaves it out, and `expired_charged` has an example.
-/

namespace FastOrchestration.Scheduler

open Overlap List BufferedStart

/-- Go `useScheduledAction(true)`. -/
def ScheduleState.useScheduledAction (sched : ScheduleState) : Bool × ScheduleState :=
  if sched.paused then (false, sched)
  else if !sched.limitedActions then (true, sched)
  else if 0 < sched.remainingActions then
    (true, { sched with
      remainingActions := sched.remainingActions - 1
      conflictToken := sched.conflictToken + 1 })
  else (false, sched)

namespace InvokerBuffer

def startWorkflowMinDeadline : Int := 5 * second

def manualStartExecutionDeadline : Int := 3600 * second

def startWorkflowDeadline (tweakables : Tweakables) (sched : ScheduleState) (start : BufferedStart) : Int :=
  let timeout := if start.manual then manualStartExecutionDeadline else sched.catchup tweakables
  start.actualTime + max timeout startWorkflowMinDeadline

/-- The variables of the loop over the starts that are ready. -/
structure ReadyLoop where
  sched : ScheduleState
  startWorkflows : List BufferedStart
  missedCatchupWindow : Nat

section

variable (tweakables : Tweakables) (clock : BufferedStart → Int)

/-- One start that is ready; `clock` is the time that is read for it. -/
def readyStart (l : ReadyLoop) (start : BufferedStart) : ReadyLoop :=
  let (allowed, sched) := if start.manual then (true, l.sched) else l.sched.useScheduledAction
  if !allowed then { l with sched }
  else if startWorkflowDeadline tweakables sched start < clock start then
    { l with sched, missedCatchupWindow := l.missedCatchupWindow + 1 }
  else { l with sched, startWorkflows := l.startWorkflows ++ [start] }

end

def pending (i : Invoker) : List BufferedStart := i.bufferedStarts.filter (·.attempt = 0)

def overlapAction (i : Invoker) (sched : ScheduleState) (running : List String) :
    Overlap.ProcessBufferResult BufferedStart :=
  Overlap.processBuffer (fun start => sched.resolveOverlapPolicy start.overlapPolicy) (running ≠ []) (pending i)

def readyStarts (action : Overlap.ProcessBufferResult BufferedStart) : List BufferedStart :=
  action.overlappingStarts ++ action.nonOverlappingStart.toList

structure Decision where
  result : ProcessBufferResult
  overlapSkipped : Nat
  missedCatchupWindow : Nat
  sched : ScheduleState

def processBuffer (i : Invoker) (sched : ScheduleState) (running : List String) (tweakables : Tweakables)
    (clock : BufferedStart → Int) : Decision :=
  let action := overlapAction i sched running
  let l := (readyStarts action).foldl (readyStart tweakables clock) ⟨sched, [], 0⟩
  { result :=
      { startWorkflows := l.startWorkflows
        discardStarts := (pending i).filter (¬ Listed (action.newBuffer ++ l.startWorkflows) ·)
        terminateWorkflows := if action.needTerminate then running else []
        cancelWorkflows := if !action.needTerminate && action.needCancel then running else [] }
    overlapSkipped := action.overlapSkipped
    missedCatchupWindow := l.missedCatchupWindow
    sched := l.sched }

def decision (d : Draft) (x : Outside) (running : List String) (clock : BufferedStart → Int) : Decision :=
  processBuffer d.components.invoker d.components.sched running x.tweakables clock

def executeProcessBuffer (d : Draft) (x : Outside) (running : List String) (clock : BufferedStart → Int) :
    Except TaskError Draft :=
  let r := decision d x running clock
  d.executeProcessBuffer { x with result := r.result, sched := r.sched }

inductive Fate where
  | kept
  | marked
  | discarded
  deriving DecidableEq

def Becomes (after : List BufferedStart) (start : BufferedStart) : Fate → Prop
  | .kept => start ∈ after
  | .marked => { start with attempt := 1 } ∈ after
  | .discarded => ∀ s ∈ after, s.requestId ≠ start.requestId

/-! ### The limit of actions -/

section ready

variable {tweakables : Tweakables} {clock : BufferedStart → Int} {sched : ScheduleState}

def automatic (starts : List BufferedStart) : Nat := (starts.filter (!·.manual)).length

def InTime (tweakables : Tweakables) (clock : BufferedStart → Int) (sched : ScheduleState) (start : BufferedStart) :
    Prop :=
  start.manual = false → clock start ≤ startWorkflowDeadline tweakables sched start

instance (start : BufferedStart) : Decidable (InTime tweakables clock sched start) :=
  inferInstanceAs (Decidable (_ → _))

structure Ready (tweakables : Tweakables) (clock : BufferedStart → Int) (sched : ScheduleState)
    (done : List BufferedStart) (l : ReadyLoop) : Prop where
  starts : l.startWorkflows.Sublist done
  limitedActions : l.sched.limitedActions = sched.limitedActions
  catchupWindow : l.sched.catchupWindow = sched.catchupWindow
  unlimited : sched.limitedActions = false → l.sched.remainingActions = sched.remainingActions
  limited : sched.limitedActions → (∀ start ∈ done, InTime tweakables clock sched start) →
    l.sched.remainingActions = sched.remainingActions - automatic l.startWorkflows

lemma useScheduledAction_cases (sched : ScheduleState) : sched.useScheduledAction = (false, sched) ∨
    sched.limitedActions = false ∧ sched.useScheduledAction = (true, sched) ∨
    sched.limitedActions ∧ ∃ token, sched.useScheduledAction =
      (true, { sched with remainingActions := sched.remainingActions - 1, conflictToken := token }) := by
  unfold ScheduleState.useScheduledAction
  split
  · exact .inl rfl
  split
  · next hlimited => exact .inr (.inl ⟨by simpa using hlimited, rfl⟩)
  next hlimited =>
  split
  · exact .inr (.inr ⟨by simpa using hlimited, _, rfl⟩)
  · exact .inl rfl

lemma automatic_concat (starts : List BufferedStart) (start : BufferedStart) :
    automatic (starts ++ [start]) = automatic starts + if start.manual then 0 else 1 := by
  cases h : start.manual <;> simp [automatic, filter_append, h]

lemma startWorkflowDeadline_congr {sched' : ScheduleState} (h : sched'.catchupWindow = sched.catchupWindow)
    (start : BufferedStart) :
    startWorkflowDeadline tweakables sched' start = startWorkflowDeadline tweakables sched start := by
  simp only [startWorkflowDeadline, ScheduleState.catchup, h]

lemma Ready.take {done} {l : ReadyLoop} (h : Ready tweakables clock sched done l)
    {start : BufferedStart} {sched' : ScheduleState} (hlim : sched'.limitedActions = sched.limitedActions)
    (hcatchup : sched'.catchupWindow = sched.catchupWindow)
    (hunlimited : sched.limitedActions = false → sched'.remainingActions = l.sched.remainingActions)
    (hlimited : sched.limitedActions →
      sched'.remainingActions = l.sched.remainingActions - if start.manual then 0 else 1) :
    Ready tweakables clock sched (done ++ [start]) (if startWorkflowDeadline tweakables sched' start < clock start then
        { l with sched := sched', missedCatchupWindow := l.missedCatchupWindow + 1 }
      else { l with sched := sched', startWorkflows := l.startWorkflows ++ [start] }) := by
  have hstarts := h.starts.trans (sublist_append_left done [start])
  have hun : sched.limitedActions = false → sched'.remainingActions = sched.remainingActions := fun hu =>
    (hunlimited hu).trans (h.unlimited hu)
  split
  · next hlate =>
    refine ⟨hstarts, hlim, hcatchup, hun, fun hl hin => ?_⟩
    have hold := h.limited hl fun s hs => hin s (by simp [hs])
    have hintime := hin start (by simp)
    rw [startWorkflowDeadline_congr hcatchup] at hlate
    -- only a manual start can be late here
    have hmanual : start.manual := by
      by_contra hauto
      exact absurd (hintime (by simpa using hauto)) (by omega)
    rw [hlimited hl, hmanual, hold]
    simp
  refine ⟨h.starts.append_right _, hlim, hcatchup, hun, fun hl hin => ?_⟩
  have hold := h.limited hl fun s hs => hin s (by simp [hs])
  rw [hlimited hl, hold, automatic_concat]
  push_cast
  omega

theorem Ready.step {done l} (h : Ready tweakables clock sched done l) (start : BufferedStart) :
    Ready tweakables clock sched (done ++ [start]) (readyStart tweakables clock l start) := by
  unfold readyStart
  by_cases hmanual : start.manual
  · simp only [hmanual, if_true, Bool.not_true, if_false, Bool.false_eq_true]
    exact h.take h.limitedActions h.catchupWindow (fun _ => rfl) fun _ => by simp [hmanual]
  simp only [hmanual, if_false, Bool.false_eq_true]
  rcases useScheduledAction_cases l.sched with heq | ⟨hunlimited, heq⟩ | ⟨hlimited, token, heq⟩
  · rw [heq]
    refine ⟨h.starts.trans (sublist_append_left _ _), h.limitedActions, h.catchupWindow, h.unlimited, ?_⟩
    exact fun hl hin => h.limited hl fun s hs => hin s (by simp [hs])
  · rw [heq]
    refine h.take h.limitedActions h.catchupWindow (fun _ => rfl) fun hl => ?_
    rw [h.limitedActions] at hunlimited
    simp [hl] at hunlimited
  rw [heq]
  refine h.take h.limitedActions h.catchupWindow (fun hu => ?_) fun _ => by simp [hmanual]
  rw [h.limitedActions, hu] at hlimited
  cases hlimited

theorem ready_foldl (tweakables : Tweakables) (clock : BufferedStart → Int) (sched : ScheduleState)
    (ready : List BufferedStart) :
    Ready tweakables clock sched ready (ready.foldl (readyStart tweakables clock) ⟨sched, [], 0⟩) := by
  induction ready using List.reverseRecOn with
  | nil => exact ⟨.slnil, rfl, rfl, fun _ => rfl, fun _ _ => by simp [automatic]⟩
  | append_singleton done start ih =>
    rw [foldl_append]
    exact ih.step start

end ready

/-! ### The buffer afterwards -/

section fates

variable {starts : List BufferedStart}

lemma listed_iff (hids : (starts.map requestId).Nodup) {l} (hl : l ⊆ starts)
    {start} (hstart : start ∈ starts) : Listed l start ↔ start ∈ l := by
  refine ⟨fun h => ?_, fun h => mem_map_of_mem h⟩
  obtain ⟨s, hs, heq⟩ := mem_map.mp h
  rw [← inj_on_of_nodup_map hids (hl hs) hstart heq]
  exact hs

/-- What `recordProcessBufferResult` does with a start that stays. -/
def mark (startWorkflows : List BufferedStart) (start : BufferedStart) : BufferedStart :=
  if Listed startWorkflows start ∧ start.attempt < 1 then { start with attempt := 1 } else start

def recorded (starts : List BufferedStart) (result : ProcessBufferResult) : List BufferedStart :=
  (starts.filter (¬ Listed result.discardStarts ·)).map (mark result.startWorkflows)

lemma mark_requestId (l : List BufferedStart) (start : BufferedStart) : (mark l start).requestId = start.requestId := by
  unfold mark
  split <;> rfl

lemma recorded_ids (result : ProcessBufferResult) :
    ((recorded starts result).map requestId).Sublist (starts.map requestId) := by
  unfold recorded
  rw [map_map, show requestId ∘ mark result.startWorkflows = requestId from
    funext (mark_requestId _)]
  exact filter_sublist.map _

lemma becomes_unique {after : List BufferedStart} (hids : (after.map requestId).Nodup)
    {start : BufferedStart} (hattempt : start.attempt = 0) {fate fate'} (h : Becomes after start fate)
    (h' : Becomes after start fate') : fate = fate' := by
  have hboth : ¬ (Becomes after start .kept ∧ Becomes after start .marked) := by
    rintro ⟨hkept, hmarked⟩
    have heq := inj_on_of_nodup_map hids hkept hmarked rfl
    have := congrArg attempt heq
    simp [hattempt] at this
  cases fate <;> cases fate'
  · rfl
  · exact absurd ⟨h, h'⟩ hboth
  · exact (h' _ h rfl).elim
  · exact absurd ⟨h', h⟩ hboth
  · rfl
  · exact (h' _ h rfl).elim
  · exact (h _ h' rfl).elim
  · exact (h _ h' rfl).elim
  · rfl

lemma mem_recorded {result : ProcessBufferResult} {start} (hstart : start ∈ starts)
    (h : ¬ Listed result.discardStarts start) : mark result.startWorkflows start ∈ recorded starts result :=
  mem_map_of_mem (mem_filter.mpr ⟨hstart, by simpa using h⟩)

lemma discarded_recorded (hids : (starts.map requestId).Nodup) {result : ProcessBufferResult}
    {start} (hstart : start ∈ starts) (h : Listed result.discardStarts start) :
    Becomes (recorded starts result) start .discarded := by
  intro s hs heq
  obtain ⟨s', hs', rfl⟩ := mem_map.mp hs
  obtain ⟨hmem, hnot⟩ := mem_filter.mp hs'
  rw [mark_requestId] at heq
  obtain rfl := inj_on_of_nodup_map hids hmem hstart heq
  simp [h] at hnot

end fates

section

variable {i : Invoker} {sched : ScheduleState} {running : List String} {tweakables : Tweakables}
  {clock : BufferedStart → Int}

lemma resolveOverlapPolicy_ne (sched : ScheduleState) (policy : OverlapPolicy) :
    sched.resolveOverlapPolicy policy ≠ .unspecified := by
  unfold ScheduleState.resolveOverlapPolicy
  split
  · split
    · decide
    · next h => exact h
  · next h => exact h

section

variable (hids : (i.bufferedStarts.map requestId).Nodup)

include hids

lemma overlapAction_resolved :
    Resolved (fun start => sched.resolveOverlapPolicy start.overlapPolicy) (running ≠ []) (pending i)
      (overlapAction i sched running) :=
  processBuffer_resolved (hids.of_map.filter _) fun _ _ => resolveOverlapPolicy_ne _ _

lemma startWorkflows_mem {start} (h : start ∈ (processBuffer i sched running tweakables clock).result.startWorkflows) :
    start ∈ pending i ∧ start ∉ (overlapAction i sched running).newBuffer := by
  have hres := @overlapAction_resolved i sched running hids
  have hready : start ∈ readyStarts (overlapAction i sched running) :=
    (ready_foldl tweakables clock sched _).starts.subset h
  obtain ⟨skipped, replaced, dropped, hperm, -⟩ := hres.account
  refine ⟨hperm.subset ?_, fun hnew => ?_⟩
  · simp only [mem_append]
    exact .inl (.inl (.inl (.inl (mem_append.mp hready))))
  · exact (nodup_append.mp hres.once).2.2 _ hready _ hnew rfl

lemma listed_discardStarts {start} (hstart : start ∈ pending i) :
    Listed (processBuffer i sched running tweakables clock).result.discardStarts start ↔
      start ∉ (overlapAction i sched running).newBuffer ∧
        start ∉ (processBuffer i sched running tweakables clock).result.startWorkflows := by
  have hin := (mem_filter.mp hstart).1
  have hpending : pending i ⊆ i.bufferedStarts := fun s hs => (mem_filter.mp hs).1
  have hnew := (@overlapAction_resolved i sched running hids).newBuffer_order.subset
  have hstarted := fun s hs => (@startWorkflows_mem i sched running tweakables clock hids s hs).1
  have hkeep : (overlapAction i sched running).newBuffer ++
      (processBuffer i sched running tweakables clock).result.startWorkflows ⊆ i.bufferedStarts :=
    append_subset.mpr ⟨fun s hs => hpending (hnew hs), fun s hs => hpending (hstarted s hs)⟩
  have hdiscards : (processBuffer i sched running tweakables clock).result.discardStarts ⊆ i.bufferedStarts :=
    fun s hs => hpending (mem_filter.mp hs).1
  rw [listed_iff hids hdiscards hin]
  simp only [processBuffer, mem_filter, decide_not, Bool.not_eq_true', decide_eq_false_iff_not] at hkeep ⊢
  rw [listed_iff hids hkeep hin, mem_append, not_or]
  exact and_iff_right hstart

lemma pending_fate {start} (hstart : start ∈ pending i) :
    ∃ fate, Becomes (recorded i.bufferedStarts (processBuffer i sched running tweakables clock).result) start fate ∧
      (fate = .marked ↔ start ∈ (processBuffer i sched running tweakables clock).result.startWorkflows) := by
  obtain ⟨hin, hattempt⟩ := mem_filter.mp hstart
  have hdiscard := @listed_discardStarts i sched running tweakables clock hids start hstart
  have hlisted := listed_iff hids (fun s hs => (mem_filter.mp
    (@startWorkflows_mem i sched running tweakables clock hids s hs).1).1) hin
  by_cases hmark : start ∈ (processBuffer i sched running tweakables clock).result.startWorkflows
  · refine ⟨.marked, ?_, iff_of_true rfl hmark⟩
    have hmem := mem_recorded hin fun hl => (hdiscard.mp hl).2 hmark
    have hfirst : start.attempt < 1 := by simpa using hattempt
    rw [mark, if_pos ⟨hlisted.mpr hmark, hfirst⟩] at hmem
    exact hmem
  by_cases hwait : start ∈ (overlapAction i sched running).newBuffer
  · refine ⟨.kept, ?_, iff_of_false (by decide) hmark⟩
    have hmem := mem_recorded hin fun hl => (hdiscard.mp hl).1 hwait
    rw [mark, if_neg fun h => hmark (hlisted.mp h.1)] at hmem
    exact hmem
  · exact ⟨.discarded, discarded_recorded hids hin (hdiscard.mpr ⟨hwait, hmark⟩), iff_of_false (by decide) hmark⟩

end

end

lemma executeProcessBuffer_ok {d d' : Draft} {x running clock} (h : executeProcessBuffer d x running clock = .ok d') :
    d'.components.invoker.bufferedStarts =
      recorded d.components.invoker.bufferedStarts (decision d x running clock).result ∧
    d'.components.sched = (decision d x running clock).sched := by
  have hcomponents : ∀ d : Draft, d.addTasks.components = d.components := by
    intro d
    unfold Draft.addTasks
    dsimp only
    split <;> split <;> rfl
  unfold executeProcessBuffer Draft.executeProcessBuffer at h
  split at h
  · cases h
  cases h
  simp only [Draft.recordProcessBufferResult, hcomponents]
  exact ⟨rfl, rfl⟩

/-- `ProcessBuffer` accounts for every start of a buffer. With what the invoker does then, a pending start is
kept, marked for execution or discarded, and, if actions are limited, the remaining actions fall by the
automatic starts that are marked, where none that is ready is past its deadline. -/
theorem buffer_accounted :
    (∀ (T : Type) (buffer : List T) (policy : T → OverlapPolicy) (isRunning : Bool), buffer.Nodup →
      (∀ x ∈ buffer, policy x ≠ .unspecified) →
      Resolved policy isRunning buffer (Overlap.processBuffer policy isRunning buffer)) ∧
    ∀ (d d' : Draft) (x : Outside) (running : List String) (clock : BufferedStart → Int),
      (d.components.invoker.bufferedStarts.map requestId).Nodup →
      executeProcessBuffer d x running clock = .ok d' →
      (∀ start ∈ pending d.components.invoker, (∃! fate, Becomes d'.components.invoker.bufferedStarts start fate) ∧
        (Becomes d'.components.invoker.bufferedStarts start .marked ↔
          start ∈ (decision d x running clock).result.startWorkflows)) ∧
      if d.components.sched.limitedActions then
        (∀ start ∈ readyStarts (overlapAction d.components.invoker d.components.sched running),
          InTime x.tweakables clock d.components.sched start) →
        d'.components.sched.remainingActions = d.components.sched.remainingActions -
          automatic (decision d x running clock).result.startWorkflows
      else d'.components.sched.remainingActions = d.components.sched.remainingActions := by
  refine ⟨fun T buffer policy isRunning hnodup h => processBuffer_resolved hnodup h, ?_⟩
  intro d d' x running clock hids hexec
  obtain ⟨hafter, hsched⟩ := executeProcessBuffer_ok hexec
  have hready := ready_foldl x.tweakables clock d.components.sched
    (readyStarts (overlapAction d.components.invoker d.components.sched running))
  constructor
  · intro start hstart
    have hattempt : start.attempt = 0 := by simpa using (mem_filter.mp hstart).2
    obtain ⟨fate, hfate, hmarked⟩ :=
      @pending_fate _ d.components.sched running x.tweakables clock hids start hstart
    have hids' := hids.sublist (recorded_ids (decision d x running clock).result)
    rw [hafter]
    refine ⟨⟨fate, hfate, fun fate' h' => becomes_unique hids' hattempt h' hfate⟩, fun h => ?_, fun h => ?_⟩
    · exact hmarked.mp (becomes_unique hids' hattempt hfate h)
    rw [← hmarked.mpr h]
    exact hfate
  rw [hsched]
  split
  · next hlimited => exact hready.limited hlimited
  · next hlimited => exact hready.unlimited (by simpa using hlimited)

/-! ### Runs -/

def sampleStart : BufferedStart :=
  { nominalTime := 1000 * second, actualTime := 1000 * second, overlapPolicy := .unspecified, manual := false,
    requestId := "r", attempt := 0, backoffTime := 0 }

/-- A schedule with two actions left, if they are limited, and with the start in its buffer. -/
def sampleDraft (limited : Bool) : Draft :=
  let sched := { everyTenSeconds 0 with limitedActions := limited, remainingActions := 2 }
  let components := { Components.newScheduler sched true 0 with invoker := ⟨[sampleStart], [], [], none⟩ }
  ⟨.empty, components, fun _ => none, []⟩

def sampleOutside (limited : Bool) : Outside :=
  { tweakables := ⟨60 * second, 10 * second, 10, 0⟩, now := 0, later := 0, backoffDelay := 0,
    result := ⟨[], [], [], []⟩, sched := (sampleDraft limited).components.sched }

def sampleRun (limited : Bool) (now : Int) : Except TaskError Draft :=
  executeProcessBuffer (sampleDraft limited) (sampleOutside limited) [] fun _ => now * second

theorem buffer_accounted_charged :
    Resolved (fun n : Nat => if n = 0 then OverlapPolicy.skip else .cancelOther) false [0, 1]
      (Overlap.processBuffer (fun n : Nat => if n = 0 then OverlapPolicy.skip else .cancelOther) false [0, 1]) ∧
    ∃ d', sampleRun true 1001 = .ok d' ∧ d'.components.invoker.bufferedStarts = [{ sampleStart with attempt := 1 }] ∧
      d'.components.sched.remainingActions = 2 -
        automatic (decision (sampleDraft true) (sampleOutside true) [] fun _ => 1001 * second).result.startWorkflows := by
  refine ⟨buffer_accounted.1 Nat [0, 1] _ false (by decide) (by decide), ?_⟩
  obtain ⟨d', hd', hbuffer⟩ : ∃ d', sampleRun true 1001 = .ok d' ∧
      d'.components.invoker.bufferedStarts = [{ sampleStart with attempt := 1 }] := by decide +kernel
  have h := (buffer_accounted.2 (sampleDraft true) d' (sampleOutside true) [] _ (by decide) hd').2
  rw [if_pos (show (sampleDraft true).components.sched.limitedActions = true from rfl)] at h
  exact ⟨d', hd', hbuffer, h (by decide +kernel)⟩

/-- Without a limit, the start is marked and the counter stays. With a limit, a start that is past its deadline
is discarded, and charged. -/
theorem expired_charged : (∃ d', sampleRun false 1001 = .ok d' ∧
      (d'.components.invoker.bufferedStarts, d'.components.sched.remainingActions) =
        ([{ sampleStart with attempt := 1 }], 2)) ∧
    ∃ d', sampleRun true 1100 = .ok d' ∧
      (d'.components.invoker.bufferedStarts, d'.components.sched.remainingActions) = ([], 1) :=
  ⟨by decide +kernel, by decide +kernel⟩

end InvokerBuffer

end FastOrchestration.Scheduler
