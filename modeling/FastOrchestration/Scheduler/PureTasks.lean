import FastOrchestration.Chasm.PhysicalTasks
import FastOrchestration.Scheduler.Components

/-!
# What becomes of a pure task that was executed

`Draft.Advances` says once what an operation can do: watermarks do not move back, and starts come into
the buffer together with an immediate `ProcessBuffer` task. From it follows that a task that is
`Retired` after its execution is so when the transaction is closed, and is not stored then.

`Draft.Meets` tells from the state before an execution whether the task is rejected after it. A
generator task never is, nor an immediate `ProcessBuffer` task, nor a `Backfill` task that finds no room.
-/

namespace FastOrchestration.Scheduler

open Lib Chasm List Draft Components

variable {d d' d'' : Draft} {now : Int} {id : NodeId} {attrs : TaskAttributes} {v : SchedulerTask}

/-- The watermark of a backfiller counts from its first attempt on. -/
def Backfiller.After (b b' : Backfiller) : Prop :=
  b' = b ∨ 0 < b'.attempt ∧ (0 < b.attempt → b.lastProcessedTime ≤ b'.lastProcessedTime)

def immediateProcessBuffer : NewTask SchedulerTask := ⟨.processBuffer, immediate⟩

/-- What an operation may do to the components and their new tasks. -/
structure Draft.Advances (d d' : Draft) : Prop where
  base : d'.base = d.base
  closed : d.components.closed = true → d'.components.closed = true
  generator : ∀ t ∈ d.components.generator, ∃ t' ∈ d'.components.generator, t ≤ t'
  invoker : ∀ t ∈ d.components.invoker.lastProcessedTime, ∃ t' ∈ d'.components.invoker.lastProcessedTime, t ≤ t'
  backfillers : ∀ id ∈ d.base.members, ∀ b', (id, b') ∈ d'.components.backfillers →
    ∃ b, (id, b) ∈ d.components.backfillers ∧ b.After b'
  accessed : ∀ id, (d.accessed id).isSome → (d'.accessed id).isSome
  added : ∀ id, (d.accessed id).getD [] ⊆ (d'.accessed id).getD []
  starts : d'.components.invoker.bufferedStarts ≠ [] → d.components.invoker.bufferedStarts ≠ [] ∨
    immediateProcessBuffer ∈ (d'.accessed invokerNode).getD []

namespace Draft.Advances

lemma trans (h : d.Advances d') (h' : d'.Advances d'') : d.Advances d'' where
  base := h'.base.trans h.base
  closed hc := h'.closed (h.closed hc)
  generator t ht := by
    obtain ⟨t1, ht1, hle⟩ := h.generator t ht
    obtain ⟨t2, ht2, hle'⟩ := h'.generator t1 ht1
    exact ⟨t2, ht2, hle.trans hle'⟩
  invoker t ht := by
    obtain ⟨t1, ht1, hle⟩ := h.invoker t ht
    obtain ⟨t2, ht2, hle'⟩ := h'.invoker t1 ht1
    exact ⟨t2, ht2, hle.trans hle'⟩
  backfillers id hid b2 hb2 := by
    obtain ⟨b1, hb1, rfl | ⟨hpos2, hle2⟩⟩ := h'.backfillers id (h.base ▸ hid) b2 hb2
    · exact h.backfillers id hid _ hb1
    obtain ⟨b, hb, rfl | ⟨hpos1, hle1⟩⟩ := h.backfillers id hid b1 hb1
    · exact ⟨_, hb, .inr ⟨hpos2, hle2⟩⟩
    · exact ⟨b, hb, .inr ⟨hpos2, fun hpos => (hle1 hpos).trans (hle2 hpos1)⟩⟩
  accessed id hid := h'.accessed id (h.accessed id hid)
  added id := List.Subset.trans (h.added id) (h'.added id)
  starts hs := by
    obtain hs | hnew := h'.starts hs
    · exact (h.starts hs).imp_right fun hnew => h'.added _ hnew
    · exact .inr hnew

lemma refl (d : Draft) : d.Advances d where
  base := rfl
  closed hc := hc
  generator t ht := ⟨t, ht, le_rfl⟩
  invoker t ht := ⟨t, ht, le_rfl⟩
  backfillers _ _ b hb := ⟨b, hb, .inl rfl⟩
  accessed _ h := h
  added _ := List.Subset.refl _
  starts hs := .inl hs

lemma access (d : Draft) (ids : List NodeId) : d.Advances (d.access ids) := by
  refine { refl d with accessed := fun id hid => ?_, added := fun id => ?_, starts := .inl }
  · simp only [Draft.access]
    split <;> simp [hid]
  simp only [Draft.access]
  split <;> simp

lemma addTask (d : Draft) (id : NodeId) (attrs : TaskAttributes) (v : SchedulerTask) :
    d.Advances (d.addTask id attrs v) := by
  refine { refl d with accessed := fun i hi => ?_, added := fun i => ?_, starts := .inl }
  · by_cases h : i = id <;> simp [Draft.addTask, Function.update, h, hi]
  · by_cases h : i = id <;> simp [Draft.addTask, Function.update, h]

lemma of_ite {p : Prop} [Decidable p] (h : d.Advances d') (h' : d.Advances d'') :
    d.Advances (if p then d' else d'') := by
  split
  · exact h
  · exact h'

lemma enqueueBufferedStarts (d : Draft) (starts : List BufferedStart) :
    d.Advances (d.enqueueBufferedStarts starts) where
  __ := refl d
  accessed := (addTask _ _ _ _ : (d.setInvoker _).Advances _).accessed
  added := (addTask _ _ _ _ : (d.setInvoker _).Advances _).added
  starts _ := .inr (by simp [Draft.enqueueBufferedStarts, Draft.addTask, immediateProcessBuffer])

lemma enqueueAny (d : Draft) (starts : List BufferedStart) : d.Advances (d.enqueueAny starts) :=
  .of_ite (.refl d) (enqueueBufferedStarts d starts)

lemma addTasks (d : Draft) : d.Advances d.addTasks := by
  exact trans (.of_ite (addTask _ _ _ _) (.refl d)) (.of_ite (addTask _ _ _ _) (.refl _))

lemma setInvoker {i : Invoker}
    (hinvoker : ∀ t ∈ d.components.invoker.lastProcessedTime, ∃ t' ∈ i.lastProcessedTime, t ≤ t')
    (hstarts : i.bufferedStarts ≠ [] → d.components.invoker.bufferedStarts ≠ []) :
    d.Advances (d.setInvoker i) :=
  { refl d with invoker := hinvoker, starts := fun hs => .inl (hstarts hs) }

lemma recordProcessBufferResult {clock} (result : ProcessBufferResult)
    (hclock : ∀ hwm ∈ d.components.invoker.lastProcessedTime, hwm ≤ clock) :
    d.Advances (d.recordProcessBufferResult clock result) := by
  refine trans (setInvoker (fun t ht => ⟨clock, rfl, hclock t ht⟩) fun hne hempty => hne ?_) (addTasks _)
  simp [hempty]

lemma recordExecuteResult (d : Draft) (result : ExecuteResult) : d.Advances (d.recordExecuteResult result) := by
  refine trans ?_ (addTasks _)
  refine setInvoker (fun t ht => ⟨t, ht, le_rfl⟩) fun hne hempty => hne ?_
  simp [hempty]

lemma continueGenerator (d : Draft) (tweakables : Tweakables) (nextWakeupTime : Option Int) :
    d.Advances (d.continueGenerator tweakables nextWakeupTime) := by
  unfold Draft.continueGenerator
  split
  · exact addTask _ _ _ _
  · exact .of_ite (.refl d) (addTask _ _ _ _)

end Draft.Advances

/-! ### Executions -/

lemma enqueueAny_backfillers (d : Draft) (starts : List BufferedStart) :
    (d.enqueueAny starts).components.backfillers = d.components.backfillers := by
  unfold enqueueAny
  split <;> rfl

lemma addTasks_components (d : Draft) : d.addTasks.components = d.components := by
  unfold Draft.addTasks
  dsimp only
  split_ifs <;> rfl

/-- Where the keys are distinct, an entry is the one that is looked up. -/
lemma lookup_iff_mem {α : Type} {l : List (NodeId × α)} (hnodup : (l.map Prod.fst).Nodup) {a} :
    l.lookup id = some a ↔ (id, a) ∈ l := by
  induction l with
  | nil => simp
  | cons p l ih =>
    obtain ⟨i, c⟩ := p
    obtain ⟨hnot, hnodup⟩ := nodup_cons.mp hnodup
    by_cases hid : id = i
    · subst hid
      have hout : (id, a) ∉ l := fun hmem => hnot (mem_map.mpr ⟨_, hmem, rfl⟩)
      simp [hout, eq_comm]
    · simp [lookup_cons, beq_eq_false_iff_ne.mpr hid, hid, ih hnodup]

lemma Backfiller.execute_attempt (tweakables : Tweakables) (sched : ScheduleState) (b : Backfiller)
    (limit : Nat) : (b.execute tweakables sched limit).backfiller.attempt = b.attempt + 1 := by
  unfold Backfiller.execute
  split <;> rfl

lemma Backfiller.execute_after (tweakables : Tweakables) (sched : ScheduleState) (b : Backfiller)
    (limit : Nat) : b.After (b.execute tweakables sched limit).backfiller := by
  refine .inr ⟨by simp [execute_attempt], fun hpos => ?_⟩
  unfold Backfiller.execute
  split
  · exact le_refl b.lastProcessedTime
  dsimp only
  cases hreq : b.request with
  | trigger policy => simp [Backfiller.processTrigger]
  | backfill startTime endTime policy =>
    dsimp only
    split
    · exact le_refl b.lastProcessedTime
    simp only [Backfiller.processBackfill, Backfiller.resumeTime, hpos, if_true]
    exact processTimeRange_lastActionTime _ _ (.inr rfl) _ _ _

lemma Draft.Advances.executeIdle (d : Draft) : d.Advances d.executeIdle :=
  (access d [schedulerNode]).trans { refl _ with closed := fun _ => rfl }

lemma Draft.Advances.executeGenerator (d : Draft) (x : Outside) : d.Advances (d.executeGenerator x) := by
  refine (access d [schedulerNode, generatorNode, invokerNode]).trans ?_
  refine trans ?_ ((enqueueAny _ _).trans (continueGenerator _ _ _))
  refine { refl _ with generator := fun t ht => ⟨_, rfl, ?_⟩ }
  have ht : d.components.generator = some t := ht
  simp only [ht, Option.getD_some]
  exact processTimeRange_lastActionTime _ _ (.inl (le_max_right _ _)) _ _ _

lemma Draft.Advances.executeProcessBuffer {x : Outside}
    (hclock : ∀ hwm ∈ d.components.invoker.lastProcessedTime, hwm ≤ x.later)
    (h : d.executeProcessBuffer x = .ok d') : d.Advances d' := by
  unfold Draft.executeProcessBuffer at h
  split at h
  · cases h
  cases h
  refine (access d [schedulerNode, invokerNode]).trans (trans ?_ (recordProcessBufferResult _ hclock))
  exact { refl _ with }

lemma Draft.Advances.executeBackfill {x} (h : d.executeBackfill id x = .ok d') : d.Advances d' := by
  unfold Draft.executeBackfill at h
  split at h
  · cases h
  rename_i b hb
  generalize hr : b.execute x.tweakables d.components.sched _ = r at h
  have hafter : b.After r.backfiller := hr ▸ b.execute_after _ _ _
  have hadv := (access d ([id, schedulerNode, invokerNode] ++
    d.components.backfillers.map Prod.fst)).trans (enqueueAny _ r.bufferedStarts)
  -- The backfillers are the same up to the point where this one is deleted or replaced.
  have hsame := enqueueAny_backfillers (d.access ([id, schedulerNode, invokerNode] ++
    d.components.backfillers.map Prod.fst)) r.bufferedStarts
  dsimp only at h
  split at h
  · cases h
    exact hadv.trans { refl _ with backfillers := fun i _ b' hb' => ⟨b', mem_of_mem_filter hb', .inl rfl⟩ }
  cases h
  refine hadv.trans (trans ?_ (addTask _ _ _ _))
  refine { refl _ with backfillers := fun i _ b' hb' => ?_ }
  obtain ⟨⟨j, c⟩, hj, heq⟩ := mem_map.mp hb'
  by_cases hid : j = id
  · subst hid
    simp only [if_true, Prod.mk.injEq] at heq
    obtain ⟨rfl, rfl⟩ := heq
    have hlookup := (lookup_iff_mem d.components.nodup).mpr (hsame ▸ hj)
    rw [lookup_append, hlookup, Option.some_or, Option.some.injEq] at hb
    exact ⟨_, hj, hb ▸ hafter⟩
  simp only [hid, if_false] at heq
  cases heq
  exact ⟨_, hj, .inl rfl⟩

/-- An attempt with room for so many starts passes the time of the task: it ends the backfill, for which
there has to be room for more than the actions that are left, or the last action for which there is room
is later. -/
def Backfiller.Passes (b : Backfiller) (sched : ScheduleState) (limit : Nat) (time : Chasm.Time) : Prop :=
  0 < limit ∧ match b.request with
    | .trigger _ => True
    | .backfill startTime endTime _ =>
      let left := sched.due endTime (b.resumeTime startTime)
      left.length < limit ∨ time ≠ 0 ∧ ∃ n ∈ left[limit - 1]?, scheduledAt time < n.next

/-- What the execution of a task has to meet so that the task is rejected after it. The watermark of
the generator does not pass the clock, to which its validator compares it; that of the invoker is the
second clock reading of the execution. -/
def Draft.Meets (d : Draft) (id : NodeId) (scheduledTime : Chasm.Time) (x : Outside) : SchedulerTask → Prop
  | .generate => False
  | .processBuffer => scheduledTime ≠ 0 ∧ scheduledAt scheduledTime < x.later
  | .backfill => ∀ b ∈ d.components.backfillers.lookup id,
      b.Passes d.components.sched (d.components.allowedBufferedStarts x.tweakables) scheduledTime
  | .idle _ => True
  | .execute => True

/-- The clock goes forward: from the watermark of the invoker and the validation of a task on, to the
second reading of the execution and to the close of the transaction. -/
def Op.OnTime (closing : Int) (d : Draft) : Op → Prop
  | .executePureTask _ _ x => zeroTime < x.now ∧ x.now ≤ x.later ∧ x.later ≤ closing ∧
      ∀ hwm ∈ d.components.invoker.lastProcessedTime, hwm ≤ x.later
  | _ => True

instance (op : Op) : Decidable (op.OnTime now d) := by
  cases op <;> unfold Op.OnTime <;> infer_instance

section Execute

variable {time : Chasm.Time} {x : Outside}

/-- The watermarks advance with the clock. -/
lemma execute_advances (hclock : ∀ hwm ∈ d.components.invoker.lastProcessedTime, hwm ≤ x.later)
    (h : d.execute id x v = .ok d') : d.Advances d' := by
  cases v with
  | idle total =>
    cases h
    exact .executeIdle _
  | generate =>
    cases h
    exact .executeGenerator _ _
  | processBuffer => exact .executeProcessBuffer hclock h
  | backfill => exact .executeBackfill h
  | execute => cases h

lemma executePureTask_ok {t : ComponentTask} (h : d.executePureTask id t x = .ok d') :
    id ∈ d.base.members ∧ ∃ v, deserializeComponentTask library t = .ok v ∧
      if d.components.validate x.now id ⟨t.scheduledTime, t.destination⟩ v = some true then
        (d.access [id]).execute id x v = .ok d'
      else d' = d.access [id] := by
  unfold executePureTask at h
  split at h
  · cases h
  rename_i hdue
  refine ⟨by_contra fun hid => hdue (.inl hid), ?_⟩
  split at h
  · cases h
  rename_i v hv
  refine ⟨v, hv, ?_⟩
  have hsame : (d.access [id]).components = d.components := rfl
  simp only [hsame] at h
  split at h
  · cases h
  · rename_i hvalid
    cases h
    simp [hvalid]
  rename_i hvalid
  simpa [hvalid] using h

end Execute

lemma apply_advances {op : Op} (htime : op.OnTime now d) (h : d.apply op = .ok d') : d.Advances d' := by
  cases op with
  | update sched =>
    cases h
    refine (Draft.Advances.access d [schedulerNode]).trans ?_
    exact { Draft.Advances.refl _ with }
  | startGenerator time =>
    cases h
    exact .addTask _ _ _ _
  | addBackfiller id backfillId request clock =>
    simp only [apply] at h
    split at h
    · rename_i hfresh
      cases h
      refine (Draft.Advances.access d [schedulerNode]).trans (.trans ?_ (.addTask _ _ _ _))
      refine { Draft.Advances.refl (d.access [schedulerNode]) with backfillers := fun i hi b' hb' => ?_ }
      obtain hb' | hb' := mem_append.mp hb'
      · exact ⟨b', hb', .inl rfl⟩
      obtain ⟨rfl, -⟩ := Prod.ext_iff.mp (mem_singleton.mp hb')
      exact absurd hi hfresh.2.2
    · cases h
  | recordExecuteResult result lastActionTime =>
    cases h
    refine (Draft.Advances.access d [schedulerNode, invokerNode]).trans (.trans ?_ (.recordExecuteResult _ _))
    exact { Draft.Advances.refl _ with }
  | executePureTask id t x =>
    obtain ⟨-, v, hv, h⟩ := executePureTask_ok h
    split at h
    · exact (Draft.Advances.access d [id]).trans
        (execute_advances (d := d.access [id]) htime.2.2.2 h)
    · exact h ▸ .access d [id]

/-- The watermark has passed the task, for good. -/
def Components.Retired (c : Components) (id : NodeId) (attrs : TaskAttributes) : SchedulerTask → Prop
  | .idle _ => c.closed = true
  | .processBuffer => attrs.scheduledTime ≠ 0 ∧
      ∃ hwm ∈ c.invoker.lastProcessedTime, scheduledAt attrs.scheduledTime < hwm
  | .backfill => ∀ b, (id, b) ∈ c.backfillers → 0 < b.attempt ∧ attrs.scheduledTime ≠ 0 ∧
      scheduledAt attrs.scheduledTime < b.lastProcessedTime
  | .generate => False
  | .execute => False

/-- What is retired stays so. -/
lemma Components.Retired.mono (h : d.components.Retired id attrs v) (hid : id ∈ d.base.members)
    (hadv : d.Advances d') : d'.components.Retired id attrs v := by
  cases v with
  | idle total => exact hadv.closed h
  | generate => exact h
  | processBuffer =>
    obtain ⟨hne, hwm, hmem, hlt⟩ := h
    obtain ⟨hwm', hmem', hle⟩ := hadv.invoker hwm hmem
    exact ⟨hne, hwm', hmem', hlt.trans_le hle⟩
  | backfill =>
    intro b' hb'
    obtain ⟨b, hb, rfl | ⟨hpos, hle⟩⟩ := hadv.backfillers id hid b' hb'
    · exact h _ hb
    obtain ⟨hattempt, hne, hlt⟩ := h b hb
    exact ⟨hpos, hne, hlt.trans_le (hle hattempt)⟩
  | execute => exact h

lemma scheduledAt_ne_zeroTime {t} (h : t ≠ 0) : scheduledAt t ≠ zeroTime := by
  intro heq
  have hzero : (t : Int) = 0 := by simpa [scheduledAt] using heq
  exact h (Int.natCast_eq_zero.mp hzero)

lemma validateTaskHighWaterMark_iff {hwm : Int} {t : Chasm.Time} :
    validateTaskHighWaterMark (some hwm) (scheduledAt t) = false ↔ t ≠ 0 ∧ scheduledAt t < hwm := by
  by_cases ht : t = 0
  · simp [validateTaskHighWaterMark, ht, scheduledAt_zero]
  · simp [validateTaskHighWaterMark, ht, scheduledAt_ne_zeroTime ht]

lemma validateTaskHighWaterMark_immediate (lastProcessedTime : Option Int) :
    validateTaskHighWaterMark lastProcessedTime zeroTime := by
  cases lastProcessedTime <;> simp [validateTaskHighWaterMark]

lemma validate_backfill (c : Components) : c.validate now id attrs .backfill ≠ some true ↔
    ∀ b ∈ c.backfillers.lookup id, attrs.scheduledTime ≠ 0 ∧
      scheduledAt attrs.scheduledTime < b.lastProcessedTime := by
  simp only [validate]
  cases c.backfillers.lookup id with
  | none => simp
  | some b => simpa using validateTaskHighWaterMark_iff (t := attrs.scheduledTime)

/-- A task that is retired is rejected at any clock reading. -/
lemma Components.Retired.rejected {c : Components} (h : c.Retired id attrs v) :
    c.validate now id attrs v ≠ some true := by
  cases v with
  | idle total =>
    simp only [Retired] at h
    simp only [validate, h]
    split <;> simp
  | generate => exact h.elim
  | processBuffer =>
    obtain ⟨hne, hwm, hmem, hlt⟩ := h
    rw [Option.mem_def] at hmem
    simp [validate, hmem, validateTaskHighWaterMark_iff.mpr ⟨hne, hlt⟩]
  | backfill =>
    refine (validate_backfill c).mpr fun b hb => (h b ?_).2
    exact (lookup_iff_mem c.nodup).mp hb
  | execute => exact h.elim

/-- What an attempt leaves, told from what it finds. -/
lemma Backfiller.execute_iff (tweakables : Tweakables) (sched : ScheduleState) (b : Backfiller)
    (limit : Nat) {time : Chasm.Time} (hvalid : ¬(time ≠ 0 ∧ scheduledAt time < b.lastProcessedTime)) :
    ((b.execute tweakables sched limit).complete = false → time ≠ 0 ∧
      scheduledAt time < (b.execute tweakables sched limit).backfiller.lastProcessedTime) ↔
    b.Passes sched limit time := by
  unfold Backfiller.execute Passes
  obtain rfl | hpos := Nat.eq_zero_or_pos limit
  · simpa using hvalid
  simp only [hpos.ne', hpos, if_false, true_and]
  cases b.request with
  | trigger policy => simp [processTrigger]
  | backfill startTime endTime policy =>
    have hspec := processBackfill_spec tweakables sched sched.conflictToken b startTime endTime policy hpos
    dsimp only
    by_cases hmore : limit ≤ (sched.due endTime (b.resumeTime startTime)).length
    · obtain ⟨hcomplete, ⟨n, hn, htime⟩, -⟩ := hspec.more hmore
      rw [Option.mem_def] at hn
      simp only [hcomplete, htime, hn, Option.mem_def, Option.some.injEq, exists_eq_left',
        Bool.false_eq_true, if_false, true_imp_iff, Nat.not_lt.mpr hmore, false_or]
    · have hfew := Nat.not_le.mp hmore
      simp [hspec.finished hfew, hfew]

/-- A backfiller that is complete is deleted. -/
lemma executeBackfill_lookup {x b} (h : d.executeBackfill id x = .ok d')
    (hb : d.components.backfillers.lookup id = some b) :
    let r := b.execute x.tweakables d.components.sched (d.components.allowedBufferedStarts x.tweakables)
    d'.components.backfillers.lookup id = if r.complete then none else some r.backfiller := by
  unfold executeBackfill at h
  rw [lookup_append, hb, Option.some_or] at h
  dsimp only at h ⊢
  generalize b.execute x.tweakables d.components.sched _ = r at h ⊢
  split at h
  · next hcomplete =>
    cases h
    rw [if_pos hcomplete, lookup_eq_none_iff]
    intro p hp
    have hne : p.1 ≠ id := by simpa using (mem_filter.mp hp).2
    simpa using hne.symm
  · next hmore =>
    cases h
    rw [if_neg hmore]
    refine (lookup_iff_mem (setBackfiller ..).nodup).mpr (mem_map.mpr ⟨(id, b), ?_, by simp⟩)
    rw [enqueueAny_backfillers]
    exact (lookup_iff_mem d.components.nodup).mp hb

lemma continueGenerator_components (d : Draft) (tweakables : Tweakables) (nextWakeupTime : Option Int) :
    (d.continueGenerator tweakables nextWakeupTime).components = d.components := by
  unfold continueGenerator
  split
  · rfl
  · split <;> rfl

/-- The watermark of the generator does not pass the clock. -/
lemma Draft.executeGenerator_le (d : Draft) {x : Outside} (hnow : x.now ≤ x.later)
    (hbefore : ∀ hwm ∈ d.components.generator, hwm ≤ x.now) :
    ∃ hwm, (d.executeGenerator x).components.generator = some hwm ∧ hwm ≤ x.later := by
  unfold executeGenerator
  rw [continueGenerator_components]
  have hstart : d.components.generator.getD x.now ≤ x.later := by
    cases hgen : d.components.generator with
    | none => exact hnow
    | some hwm => exact (hbefore hwm hgen).trans hnow
  refine ⟨_, by unfold enqueueAny; split <;> rfl, ?_⟩
  rw [max_eq_left hstart]
  exact processTimeRange_lastActionTime_le _ _ hstart _ _ _ _

/-- Whether the task is rejected after its execution can be told before it. -/
lemma execute_rejected_iff {x} (hnow : zeroTime < x.now ∧ x.now ≤ x.later ∧ x.later ≤ now)
    (hvalid : d.components.validate x.now id attrs v = some true) (h : d.execute id x v = .ok d') :
    d'.components.validate now id attrs v ≠ some true ↔ d.Meets id attrs.scheduledTime x v := by
  cases v with
  | idle total =>
    cases h
    refine iff_of_true ?_ trivial
    simp only [validate, executeIdle]
    split <;> simp
  | generate =>
    cases h
    refine iff_of_false (not_not.mpr ?_) not_false
    obtain ⟨hwm, hgen, hle⟩ := d.executeGenerator_le hnow.2.1 fun hwm hmem => by
      rw [Option.mem_def] at hmem
      simpa [validate, validateTaskHighWaterMark, hmem, hnow.1.ne'] using hvalid
    simp [validate, validateTaskHighWaterMark, hgen, hle.trans hnow.2.2]
  | processBuffer =>
    simp only [execute, executeProcessBuffer] at h
    split at h
    · cases h
    cases h
    simpa [validate, recordProcessBufferResult, addTasks_components, setInvoker, Meets] using
      validateTaskHighWaterMark_iff
  | backfill =>
    obtain ⟨b, hb⟩ : ∃ b, d.components.backfillers.lookup id = some b := by
      simp only [validate, Option.map_eq_some_iff] at hvalid
      obtain ⟨b, hb, -⟩ := hvalid
      exact ⟨b, hb⟩
    have hbefore : ¬(attrs.scheduledTime ≠ 0 ∧ scheduledAt attrs.scheduledTime < b.lastProcessedTime) := by
      intro hretired
      exact (validate_backfill _).mpr (fun b' hb' => by cases hb.symm.trans hb'; exact hretired) hvalid
    have hiff := b.execute_iff x.tweakables d.components.sched
      (d.components.allowedBufferedStarts x.tweakables) hbefore
    rw [validate_backfill, executeBackfill_lookup h hb]
    simp only [Meets, hb, Option.mem_def, Option.some.injEq, forall_eq', ← hiff]
    cases (b.execute x.tweakables d.components.sched
      (d.components.allowedBufferedStarts x.tweakables)).complete with
    | true => simp
    | false => simp
  | execute => cases h

/-- A task whose execution meets its condition is retired. -/
lemma execute_retired {x} (hnow : zeroTime < x.now ∧ x.now ≤ x.later ∧ x.later ≤ now)
    (hvalid : d.components.validate x.now id attrs v = some true)
    (hmeets : d.Meets id attrs.scheduledTime x v) (h : d.execute id x v = .ok d') :
    d'.components.Retired id attrs v := by
  have hrejected := (execute_rejected_iff hnow hvalid h).mpr hmeets
  cases v with
  | idle total =>
    cases h
    rfl
  | generate => exact hmeets
  | processBuffer =>
    simp only [execute, executeProcessBuffer] at h
    split at h
    · cases h
    cases h
    exact ⟨hmeets.1, x.later, by simp [recordProcessBufferResult, addTasks_components,
      setInvoker], hmeets.2⟩
  | backfill =>
    intro b' hb'
    have hlookup := (lookup_iff_mem d'.components.nodup).mpr hb'
    refine ⟨?_, (validate_backfill _).mp hrejected b' hlookup⟩
    obtain ⟨b, hb⟩ : ∃ b, d.components.backfillers.lookup id = some b := by
      simp only [validate, Option.map_eq_some_iff] at hvalid
      obtain ⟨b, hb, -⟩ := hvalid
      exact ⟨b, hb⟩
    rw [executeBackfill_lookup h hb] at hlookup
    split at hlookup
    · cases hlookup
    cases hlookup
    simp [Backfiller.execute_attempt]
  | execute => cases h

/-!
## Pure tasks over whole runs of a schedule

In any run in which the clock goes forward, a transaction has the wanted effect exactly if every
execution in it meets `Draft.Meets`: an executed task is then rejected and removed, so the task that is
next to it in time is the first of the tree and has its timer. That every start in the buffer is covered
by a stored `ProcessBuffer` task needs no such condition: the immediate one stored with the start is never
removed. For the same reason it hides the timers of all later tasks.
-/

open ComponentTask

variable {s : Schedule} {e : Commit} {tree : TreeState}

lemma library_roundTrips : library.RoundTrips := by
  intro v rt taskBlob hrt hblob
  cases v <;> cases hrt <;> cases hblob <;> refine ⟨by decide, ?_⟩ <;>
    simp [library, Int.toInt?_repr]

lemma transaction_unshared (d : Draft) (e : Commit) : (d.transaction e).Unshared := by
  have hitems : ∀ bs : List (NodeId × Backfiller), (bs.foldr
      (fun b rest => .cons b.1 b.2.backfillId .nil rest) .nil : Forest NodeId String).Unshared (fun cap => max 1 (2 * cap)) 1 := by
    intro bs
    induction bs with
    | nil => trivial
    | cons b bs ih => exact ⟨fun h => absurd h (by decide), trivial, ih⟩
  show d.components.children.Unshared (fun cap => max 1 (2 * cap)) 0
  refine ⟨fun h => absurd h (by decide), trivial, fun h => absurd h (by decide), trivial, ?_⟩
  split
  · trivial
  · exact ⟨fun h => absurd h (by decide), hitems _, trivial⟩

lemma Components.invoker_mem (c : Components) : invokerNode ∈ c.tree.ids := by
  show invokerNode ∈ schedulerNode :: c.children.ids
  rw [children_ids]
  simp

def Schedule.Stored (s : Schedule) (id : NodeId) (t : ComponentTask) : Prop :=
  id ∈ s.tree.members ∧ t ∈ (s.tree.node id).pureTasks

structure Schedule.Inv (s : Schedule) : Prop where
  tree : TreeInv s.tree
  component : invokerNode ∈ s.tree.members → (s.tree.node invokerNode).component.isSome
  /-- The task stored with the first start of the buffer is still there. -/
  covered : s.components.invoker.bufferedStarts ≠ [] → ∃ t, s.Stored invokerNode t ∧
    t.type = "scheduler.processBuffer" ∧ t.scheduledTime = 0

/-- A task is executed in the transaction. The tree is `d₀` right before that and `d₁` right after. -/
def Executes (s : Schedule) (e : Commit) (id : NodeId) (t : ComponentTask) (v : SchedulerTask)
    (x : Outside) (d₀ d₁ : Draft) : Prop :=
  ∃ before after, e.ops = before ++ .executePureTask id t x :: after ∧
    run apply s.draft before = .ok d₀ ∧ deserializeComponentTask library t = .ok v ∧
    d₀.components.validate x.now id ⟨t.scheduledTime, t.destination⟩ v = some true ∧
    d₀.apply (.executePureTask id t x) = .ok d₁

/-- The transition counts increase, and the clock goes forward. -/
def Permitted (s : Schedule) (e : Commit) : Prop :=
  s.tree.transitionCount < e.nextVersionedTransition.transitionCount ∧
    Along (Op.OnTime e.now) apply s.draft e.ops

instance (s : Schedule) (e : Commit) : Decidable (Permitted s e) :=
  inferInstanceAs (Decidable (_ ∧ _))

lemma run_apply_advances {d d' : Draft} {now ops} (al : Along (Op.OnTime now) apply d ops)
    (h : run apply d ops = .ok d') : d.Advances d' :=
  al.inv (I := d.Advances) (fun _ _ _ hadv htime hok => hadv.trans (apply_advances htime hok)) (.refl d) h

section Executes

variable {t : ComponentTask} {x : Outside} {d₀ d₁ : Draft}

/-- The operation is on time, and the task was accepted. -/
lemma Executes.step (h : Executes s e id t v x d₀ d₁) (hp : Permitted s e) :
    Op.OnTime e.now d₀ (.executePureTask id t x) ∧ id ∈ d₀.base.members ∧
      (d₀.access [id]).execute id x v = .ok d₁ := by
  obtain ⟨before, after, hes, hbefore, hv, hvalid, hexec⟩ := h
  have al := hp.2
  rw [hes] at al
  obtain ⟨hmem, v', hv', hstep⟩ := executePureTask_ok hexec
  cases hv.symm.trans hv'
  rw [if_pos hvalid] at hstep
  exact ⟨(al.append hbefore).1, hmem, hstep⟩

lemma Executes.rejected_iff (h : Executes s e id t v x d₀ d₁) (hp : Permitted s e) :
    d₁.components.validate e.now id ⟨t.scheduledTime, t.destination⟩ v ≠ some true ↔
      d₀.Meets id t.scheduledTime x v := by
  obtain ⟨htime, -, hstep⟩ := h.step hp
  obtain ⟨_, _, -, -, -, hvalid, -⟩ := h
  exact execute_rejected_iff (d := d₀.access [id]) ⟨htime.1, htime.2.1, htime.2.2.1⟩ hvalid hstep

/-- A task that is retired by its execution is so when the transaction is closed. -/
lemma Executes.retired (h : Executes s e id t v x d₀ d₁) (hp : Permitted s e)
    (hmeets : d₀.Meets id t.scheduledTime x v) (hops : run apply s.draft e.ops = .ok d) :
    d.components.Retired id ⟨t.scheduledTime, t.destination⟩ v ∧ (d.accessed id).isSome := by
  obtain ⟨htime, hmem, hstep⟩ := h.step hp
  obtain ⟨before, after, hes, hbefore, -, hvalid, hexec⟩ := h
  have al := hp.2
  rw [hes] at al hops
  obtain ⟨d₀', hbefore', hrest⟩ := run_append hops
  cases hbefore.symm.trans hbefore'
  have halong := al.append hbefore
  simp only [Along, hexec] at halong
  simp only [run, hexec] at hrest
  have hadv := execute_advances (d := d₀.access [id]) htime.2.2.2 hstep
  have hretired := execute_retired (d := d₀.access [id]) ⟨htime.1, htime.2.1, htime.2.2.1⟩ hvalid hmeets hstep
  have hlater := run_apply_advances halong.2 hrest
  refine ⟨hretired.mono (hadv.base ▸ hmem) hlater, hlater.accessed id (hadv.accessed id ?_)⟩
  simp [access]

end Executes

lemma Schedule.Inv.draft_covered (h : s.Inv) (hadv : s.draft.Advances d)
    (hstarts : d.components.invoker.bufferedStarts ≠ []) :
    (∃ t, s.Stored invokerNode t ∧ t.type = "scheduler.processBuffer" ∧ t.scheduledTime = 0) ∨
      immediateProcessBuffer ∈ (d.accessed invokerNode).getD [] :=
  (hadv.starts hstarts).imp_left h.covered

lemma deserialize_processBuffer {t : ComponentTask} (h : t.type = "scheduler.processBuffer") :
    deserializeComponentTask library t = .ok .processBuffer := by
  unfold deserializeComponentTask
  rw [h]
  rfl

lemma validate_immediate (c : Components) (now : Int) (id : NodeId) {attrs : TaskAttributes}
    (h : attrs.scheduledTime = 0) : c.validate now id attrs .processBuffer = some true := by
  simp only [Components.validate, h, scheduledAt_zero, validateTaskHighWaterMark_immediate]

lemma transaction_accepts (d : Draft) (e : Commit) (id : NodeId) (attrs : TaskAttributes)
    (h : attrs.scheduledTime = 0) : (d.transaction e).validate id attrs .processBuffer = some true :=
  validate_immediate d.components e.now id h

lemma Schedule.Inv.commit (h : s.Inv) (hp : Permitted s e) (hops : run apply s.draft e.ops = .ok d)
    (hclose : closeTransaction library s.tree (d.transaction e) = .ok tree) :
    Schedule.Inv ⟨d.components, tree⟩ := by
  have hadv := run_apply_advances hp.2 hops
  have hinv := (closeTransaction_ok h.tree hp.1 hclose).1
  have hmembers := closeTransaction_members hclose
  have hid : invokerNode ∈ (d.transaction e).tree.ids := d.components.invoker_mem
  have hcomponent : (closeTransactionSerializeNodes s.tree (d.transaction e) invokerNode).component.isSome := by
    unfold closeTransactionSerializeNodes
    split
    · rename_i hmem
      split <;> exact h.component hmem
    · rfl
  refine ⟨hinv, fun _ => by rw [closeTransaction_component hclose, hcomponent], fun hstarts => ?_⟩
  obtain ⟨t, ht, htype, htime⟩ | hnew := h.draft_covered hadv hstarts
  · have hvalid : validateExisting library (d.transaction e) invokerNode t = .ok true := by
      unfold validateExisting
      rw [deserialize_processBuffer htype]
      show validateTask (d.transaction e) invokerNode ⟨t.scheduledTime, t.destination⟩ .processBuffer = _
      unfold validateTask
      rw [transaction_accepts d e invokerNode _ htime]
    obtain ⟨t', ht', hreq⟩ := closeTransaction_kept h.tree hp.1 hclose hid ht.1 ht.2 hvalid
    simp only [request, Request.mk.injEq] at hreq
    exact ⟨t', ⟨hmembers ▸ hid, ht'⟩, hreq.1.trans htype, hreq.2.2.1.trans htime⟩
  have hasked : immediateProcessBuffer.request library (d.transaction e) invokerNode true =
      some ⟨"scheduler.processBuffer", "", 0, ""⟩ := by
    have haccepted : (d.transaction e).validate invokerNode immediateProcessBuffer.attributes
        immediateProcessBuffer.task = some true := transaction_accepts d e invokerNode immediate rfl
    unfold NewTask.request
    rw [if_pos haccepted]
    rfl
  obtain ⟨t', ht', hreq⟩ := closeTransaction_added h.tree hp.1 hclose hid hcomponent hnew hasked
  simp only [request, Request.mk.injEq] at hreq
  exact ⟨t', ⟨hmembers ▸ hid, ht'⟩, hreq.1, hreq.2.2.1⟩

def Schedule.new (sched : ScheduleState) (hasAction : Bool) (now : Int) : Schedule :=
  ⟨.newScheduler sched hasAction now, .empty⟩

lemma Schedule.Inv.new (sched : ScheduleState) (hasAction : Bool) (now : Int) :
    (Schedule.new sched hasAction now).Inv :=
  ⟨.empty, nofun, fun h => absurd rfl h⟩

lemma Schedule.Inv.step {s' : Schedule} (h : s.Inv) (hp : Permitted s e)
    (hs : Scheduler.commit s e = .ok s') : s'.Inv := by
  unfold Scheduler.commit at hs
  split at hs
  · cases hs
    exact h
  rename_i d hops
  split at hs
  · cases hs
    exact h
  rename_i tree hclose
  cases hs
  exact h.commit hp hops hclose

/-- A start that is not eligible is covered by a valid task. -/
def Schedule.Covered (s : Schedule) : Prop :=
  ∀ start ∈ s.components.invoker.bufferedStarts, ¬s.components.invoker.Eligible start →
    ∃ t, s.Stored invokerNode t ∧ deserializeComponentTask library t = .ok .processBuffer ∧
      ∀ now, s.components.validate now invokerNode ⟨t.scheduledTime, t.destination⟩ .processBuffer = some true

/-- What is wanted of the pure tasks when a transaction has led to `s'`. -/
structure TasksRetire (s : Schedule) (e : Commit) (s' : Schedule) : Prop where
  /-- After its execution a task is rejected. There is no validator for a component that is gone. -/
  rejected : ∀ id t v x d₀ d₁, Executes s e id t v x d₀ d₁ →
    d₁.components.validate e.now id ⟨t.scheduledTime, t.destination⟩ v ≠ some true
  /-- Closing removes it. -/
  removed : ∀ id t v x d₀ d₁, Executes s e id t v x d₀ d₁ → ∀ t', s'.Stored id t' → t'.request ≠ t.request
  /-- The earliest task apart from those that were executed has a timer. -/
  timer : ∀ id t, s'.Stored id t → (∀ id' t', s'.Stored id' t' → t.scheduledTime ≤ t'.scheduledTime ∨
    ∃ t₀ v x d₀ d₁, Executes s e id' t₀ v x d₀ d₁ ∧ t₀.request = t'.request) → t.scheduledTime ∈ s'.tree.timers
  covered : s'.Covered

/-- A schedule with an action every ten seconds, created at 1000 seconds. -/
def tenSecondSchedule : Schedule := .new (everyTenSeconds 0) true (1000 * second)

/-- A transaction at a clock reading, in seconds. -/
def atSecond (seconds transitionCount : Nat) (ops : List Op) : Commit :=
  ⟨ops, seconds * second, ⟨1, transitionCount⟩⟩

/-- An execution at a clock reading, with room for five starts from backfills. It starts what is
given. -/
def outsideAt (seconds : Nat) (startWorkflows : List BufferedStart) : Outside where
  tweakables := ⟨0, 0, 10, 3600 * second⟩
  now := seconds * second
  later := seconds * second
  backoffDelay := second
  result := ⟨startWorkflows, [], [], []⟩
  sched := everyTenSeconds 0

def storedTask (type : String) (attributes : TaskAttributes) (transitionCount : Nat)
    (status : PhysicalTaskStatus) : ComponentTask :=
  ⟨type, attributes.destination, attributes.scheduledTime, "", ⟨1, transitionCount⟩, 1, status⟩

def triggered : BufferedStart where
  nominalTime := 1000 * second
  actualTime := 1000 * second
  overlapPolicy := .skip
  manual := true
  requestId := "sched-b-ns-s-1-1000000-1000000"
  attempt := 0
  backoffTime := 1010 * second

def triggerOnce : List Commit :=
  [atSecond 1000 1 [.addBackfiller 4 "b" (.trigger .skip) (1000 * second)],
    atSecond 1001 2 [.executePureTask 4 (storedTask "scheduler.backfill" immediate 1 .created) (outsideAt 1001 [])]]

def retryTriggered (transitionCount : Nat) : Commit :=
  atSecond 1003 transitionCount [.recordExecuteResult ⟨[], [triggered], [], [], []⟩ none]

def processTriggered : Commit :=
  atSecond 1002 3 [.executePureTask invokerNode
    (storedTask "scheduler.processBuffer" immediate 2 .created) (outsideAt 1002 [triggered])]

/-- The start is processed, its call fails, and it is to be tried again at 1010 seconds. -/
def triggerAndFail : List Commit := triggerOnce ++ [processTriggered, retryTriggered 4]

def processRetry : Commit :=
  atSecond 1011 5 [.executePureTask invokerNode
    (storedTask "scheduler.processBuffer" (scheduled (1010 * second)) 4 .none) (outsideAt 1011 [])]

def generateOnce : List Commit :=
  [atSecond 1000 1 [.startGenerator none],
    atSecond 1001 2 [.executePureTask generatorNode (storedTask "scheduler.generate" immediate 1 .created)
      (outsideAt 1001 [])]]

end FastOrchestration.Scheduler
