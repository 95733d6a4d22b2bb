import FastOrchestration.Queues.QueueLaws

/-!
# Runs of a history queue

Every event of a queue system keeps its invariant (`QueueSystem.step_yields`), so that it holds in
every state that a run reaches. `tasks_held` reads it off for the running queue: what the queue has
been told to read is tracked or still to be read, until it is acknowledged. `checkpoints_safe` reads it
off for the store and the stored queue states: nothing is deleted before it is acknowledged, and a
queue that starts from any stored state finds all that is left to do.
-/

namespace FastOrchestration.Queues

open Option QueueSystem QueueBase ReaderGroup

open Lib (Yields)

variable {κ : Type} [DecidableEq κ] {g : Grouper κ}

namespace QueueSystem

variable {low base : Key} {s : QueueSystem κ} {m : Nat} {category : CategoryType}

variable (h : s.Inv g low base)

include h

lemma Inv.onLoop {f}
    (hf : Yields (fun _ => True) (Keeps g s.world s.readable s.queue.readerGroup)
      (f s.queue.readerGroup)) :
    Yields (fun _ => True) (Inv g low base) (s.onLoop f) := by
  unfold QueueSystem.onLoop
  split
  · exact hf.map fun _ hk => h.withReaders hk
  · exact h

lemma Inv.processNewRange {newMaxKey : Key} (hv : newMaxKey.Valid)
    (hidle : s.checkpoint = .idle) {forced queue}
    (hq : s.queue.processNewRange g m newMaxKey forced = .ok queue) :
    Inv g low base { s with queue := queue } := by
  obtain ⟨k, hk, hn⟩ := h.nonReadable
  have hread : s.readable = k := by rw [readable, hn]
  obtain ⟨k', hk', -, hn', hkeep, hnew⟩ := processNewRange_spec (w := s.world) hk hv hn
    (hread ▸ h.readers) hq
  have hread' : readable { s with queue := queue } = k' := by rw [readable, hn']
  refine ⟨⟨k', hk', hn'⟩, h.floor, hread' ▸ hkeep.wf, fun t ht => ?_, h.states, ?_⟩
  · rw [hread']
    obtain hc | hle := h.covered t ht
    · exact .inl (hkeep.covers t ht.1 ht.2.1 hc)
    obtain hlt | hge := lt_or_ge t.key k'
    · exact .inl (hnew t ht.1 ht.2.1 (hread ▸ hle) hlt)
    · exact .inr hge
  unfold CheckpointInv
  simp only [hidle]

lemma Inv.checkpointScopes (delete : Bool) :
    Inv g low base { s with
      queue := s.queue.removeEmptyReaders
      checkpoint :=
        if delete then .deleting s.queue.removeEmptyReaders.readerScopes
          s.queue.removeEmptyReaders.deletionWatermark
        else .updating s.queue.removeEmptyReaders.readerScopes } := by
  have hwf := removeEmptyReaders_wf h.readers
  have hcov : ∀ t, s.Owes base t →
      s.queue.removeEmptyReaders.readerGroup.Covers t ∨ s.readable ≤ t.key :=
    fun t ht => (h.covered t ht).imp covers_removeEmptyReaders id
  have hvalid : s.readable.Valid := by
    obtain ⟨k, hk, hn⟩ := h.nonReadable
    rwa [readable, hn]
  have hstate : (s.queue.removeEmptyReaders.stateOf s.queue.removeEmptyReaders.readerScopes).Wf :=
    stateOf_wf hvalid hwf
  have hcovers : ∀ t, s.Owes base t → (s.queue.removeEmptyReaders.stateOf
      s.queue.removeEmptyReaders.readerScopes).Covers t :=
    fun t ht => (hcov t ht).elim (stateOf_covers hwf) .inr
  refine { h with readers := hwf, covered := hcov, checkpoint := ?_ }
  cases delete with
  | false => exact ⟨hstate, hcovers⟩
  | true =>
    have hle : s.queue.removeEmptyReaders.deletionWatermark ≤ s.readable :=
      deletionWatermark_le_readable
    exact ⟨hstate, hcovers, hle, fun t ht =>
      (hcov t ht).elim (deletionWatermark_le hwf) hle.trans⟩

lemma Inv.rangeCompleted {scopes watermark}
    (hphase : s.checkpoint = .deleting scopes watermark) :
    Inv g low base { s with
      queue := { s.queue with exclusiveDeletionHighWatermark := watermark }
      checkpoint := .updating scopes } := by
  have hcp := h.checkpoint
  simp only [CheckpointInv, hphase] at hcp
  exact { h with checkpoint := ⟨hcp.1, hcp.2.1⟩ }

lemma Inv.stateSet {scopes} (o : MapOrder)
    (hphase : s.checkpoint = .updating scopes) (stored : Bool) :
    Inv g low base { s with
      checkpoint := .idle
      queueStates :=
        if stored then toPersistenceQueueState o (s.queue.stateOf scopes) :: s.queueStates
        else s.queueStates } := by
  have hcp := h.checkpoint
  simp only [CheckpointInv, hphase] at hcp
  refine { h with states := fun p hp => ?_, checkpoint := trivial }
  cases stored with
  | false => exact h.states p hp
  | true =>
    obtain rfl | hp := List.mem_cons.mp hp
    · exact ⟨o, _, rfl, hcp⟩
    · exact h.states p hp

lemma Inv.reload {p : PersistenceQueueState} (hp : p ∈ s.queueStates)
    (category : CategoryType) :
    ∃ queue, newQueueBase m category (some p) = .ok queue ∧
      queue.nonReadableScope.range.inclusiveMin =
        fromPersistenceTaskKey p.exclusiveReaderHighWatermark ∧
      Inv g low base { s with queue := queue, checkpoint := .idle } := by
  obtain ⟨o, state, rfl, hstate, hcov⟩ := h.states p hp
  obtain ⟨queue, hq, hload⟩ := newQueueBase_spec (g := g) (w := s.world) (m := m) category
    hstate (fun _ hn => hn) o
  have hread : readable { s with queue := queue, checkpoint := .idle } =
      state.exclusiveReaderHighWatermark := by rw [readable, hload.nonReadable]
  refine ⟨queue, hq, ?_, ⟨_, hstate.valid, hload.nonReadable⟩, h.floor, hread ▸ hload.readers,
    fun t ht => ?_, h.states, trivial⟩
  · rw [hload.nonReadable, toPersistenceQueueState, fromPersistence_taskKey]
  rw [hread]
  obtain ⟨reader, hr, scope, hs, hc⟩ | hle := hcov t ht
  · exact .inl ((hload.covers t reader hr scope hs hc).resolve_left (by simp))
  · exact .inr hle

lemma Inv.reload_none (hbase : ackLevel category ≤ base) :
    ∃ queue, newQueueBase m category none = .ok queue ∧
      Inv g low base { s with queue := queue, checkpoint := .idle } :=
  ⟨_, newQueueBase_none category,
    ⟨ackLevel category, by cases category <;> decide, rfl⟩, h.floor, nofun,
    fun _ ht => .inr (hbase.trans ht.2.2), h.states, trivial⟩

omit h

/-- The bounds of a scheduled category are rounded down to a fire time, those of an immediate one are
exact. -/
lemma rangeComplete_eq_false {old new key : Key} (hv : key.Valid) (h : new ≤ key) :
    rangeComplete category old new key = false := by
  have hnot : ¬ key < new := not_lt.mpr h
  cases category with
  | immediate => simp [rangeComplete, hnot]
  | scheduled =>
    have hfire : ¬ key < ⟨new.fireTime, 0⟩ := by
      obtain ⟨-, hid, -⟩ := hv
      simp only [Key.le_def, Key.lt_def] at h ⊢
      omega
    simp [rangeComplete, hfire]

lemma step_yields (hlow : low ≤ ackLevel category) (hbase : ackLevel category ≤ base)
    (e : Nat × QueueEvent κ) (h : s.Inv g low base) :
    Yields (fun _ => True) (Inv g low base) (step g category s e) := by
  obtain ⟨m, e⟩ := e
  cases e <;> simp only [step]
  case write t valid =>
    split
    · rename_i hw
      exact h.write hlow valid hw
    · exact h
  case selectTasks id i batchSize replies =>
    refine Yields.map (update_yields h.readers fun hs => ?_) fun _ hk => h.withReaders hk
    exact .any fun _ => (Reader.selectTasks_yields hs s.world.feeds_store i batchSize replies).post
  case ack id i key =>
    split
    · have h' := h.acknowledge key
      refine Yields.map (update_yields h'.readers fun hs => ?_)
        fun _ hk => h'.withReaders hk
      exact Reader.ack_keeps hs i List.mem_cons_self
    · exact h
  case ackUntracked key =>
    split
    · exact h.acknowledge key
    · exact h
  case processNewRange newMaxKey valid forced =>
    split
    · rename_i hidle
      refine .any fun s' hs' => ?_
      obtain ⟨queue, hq, rfl⟩ := Lib.map_ok hs'
      exact h.processNewRange valid hidle hq
    · exact h
  case shrinkSlices id =>
    exact h.onLoop (update_yields h.readers Reader.shrinkSlices_keeps)
  case clearSlices id chosen =>
    exact h.onLoop (update_yields h.readers fun hs => Reader.clearSlices_keeps hs chosen)
  case compactSlices id chosen =>
    exact h.onLoop (.any fun _ => (update_yields h.readers fun hs => Reader.compactSlices_yields hs chosen).post)
  case mitigate action => exact h.onLoop (.any fun _ => (Action.run_yields h.readers action).post)
  case checkpointShrink =>
    split
    · exact (h.withReaders (shrinkAll_keeps h.readers)).phase (.inr (.inl rfl))
    · exact h
  case checkpointAction maxReaderCount base minTaskCount overloaded =>
    split
    · refine Yields.map (.any fun _ => (Action.run_yields h.readers _).post) fun _ hk => ?_
      exact (h.withReaders hk).phase (.inr (.inr rfl))
    · exact h
  case checkpointScopes rangeIDUpdated =>
    split
    · split
      · exact h.checkpointScopes true
      · exact h.checkpointScopes false
    · exact h
  case rangeComplete failed =>
    split
    · rename_i hphase
      cases failed with
      | none => exact (h.delete _).rangeCompleted hphase
      | some deleted => exact (h.phase (.inl rfl)).delete _
    · exact h
  case setQueueState o stored =>
    split
    · rename_i hphase
      exact h.stateSet o hphase stored
    · exact h
  case reload i =>
    cases i with
    | none =>
      obtain ⟨queue, hq, h'⟩ := h.reload_none (m := m) hbase
      simp only [hq]
      exact h'
    | some i =>
      dsimp only
      split
      · exact h
      rename_i hi
      obtain ⟨queue, hq, -, h'⟩ := h.reload (m := m) (List.mem_of_getElem? hi) category
      simp only [hq]
      exact h'

lemma Inv.run (h : s.Inv g low base) (hlow : low ≤ ackLevel category) (hbase : ackLevel category ≤ base)
    {events} {s' : QueueSystem κ} (hr : Lib.run (step g category) s events = .ok s') : s'.Inv g low base :=
  (Lib.Along.of_forall (P := fun _ _ => True) (fun _ _ _ => trivial) s).inv
    (fun _ e _ h _ => (step_yields hlow hbase e h).post) h hr

lemma Inv.contains (h : s.Inv g low base) {t} (ht : s.Owes base t) :
    (∃ id ∈ s.queue.readerGroup.ids, ∃ slice ∈ s.queue.readerGroup.slices id,
      slice.scope.contains t) ∨ s.queue.nonReadableScope.contains t := by
  obtain ⟨id, hid, slice, hs, hc⟩ | hle := h.covered t ht
  · exact .inl ⟨id, hid, slice, hs, ((h.readers id hid).each slice hs).1.scope_contains hc⟩
  obtain ⟨k, -, hn⟩ := h.nonReadable
  rw [readable, hn] at hle
  rw [hn]
  have hkey := Range.containsKey_iff.mpr ⟨hle, (s.store.valid t ht.1).2⟩
  exact .inr (Bool.and_eq_true_iff.mpr ⟨hkey, rfl⟩)

lemma start_inv {state : Option QueueState} (hstate : ∀ q ∈ state, q.Wf) (o : MapOrder)
    {store : Store} (hfloor : ∀ t ∈ store.tasks, low ≤ t.key) (hbase : ackLevel category ≤ base)
    (hcov : ∀ q ∈ state, ∀ t ∈ store.tasks, base ≤ t.key → q.Covers t) {s : QueueSystem κ}
    (hs : start m category (state.map (toPersistenceQueueState o)) store = .ok s) :
    s.Inv g low base ∧
      s.readable = (state.map (·.exclusiveReaderHighWatermark)).getD (ackLevel category) := by
  have hnone := newQueueBase_none (κ := κ) (m := m) category
  -- a queue without a state has the invariant, and the queue of the state is reloaded from it
  have h : Inv g low base (⟨⟨⟨⟨ackLevel category, Key.maximumKey⟩, .universal⟩, ackLevel category,
      .empty⟩, .idle, store, (state.map (toPersistenceQueueState o)).toList, []⟩ : QueueSystem κ) := by
    refine ⟨⟨ackLevel category, by cases category <;> decide, rfl⟩, hfloor,
      nofun, fun _ ht => .inr (hbase.trans ht.2.2), fun p hp => ?_, trivial⟩
    obtain ⟨q, hq, rfl⟩ := mem_map.mp (mem_toList.mp hp)
    exact ⟨o, q, rfl, hstate q hq, fun t ht => hcov q hq t ht.1 ht.2.2⟩
  cases state with
  | none =>
    simp only [start, map_none, hnone, bind, Except.bind] at hs
    cases hs
    exact ⟨h, rfl⟩
  | some q =>
    obtain ⟨queue, hq, hread, h⟩ := h.reload (m := m) (mem_toList.mpr rfl) category
    simp only [start, map_some, hq, bind, Except.bind] at hs
    cases hs
    rw [toPersistenceQueueState, fromPersistence_taskKey] at hread
    exact ⟨h, hread⟩

lemma step_store (e : Nat × QueueEvent κ) (h : s.Inv g low base) :
    Yields (fun _ => True) (fun s' => ∀ t, s.Owes base t → t ∈ s'.store.tasks)
      (step g category s e) := by
  have same : ∀ t, s.Owes base t → t ∈ s.store.tasks := fun t ht => ht.1
  have loop : ∀ f, Yields (fun _ => True) (fun s' => ∀ t, s.Owes base t → t ∈ s'.store.tasks)
      (s.onLoop f) := by
    intro f
    unfold onLoop
    split
    · exact .of_map fun _ => same
    · exact same
  obtain ⟨m, e⟩ := e
  cases e <;> simp only [step]
  case write t valid =>
    split
    · rename_i hw
      exact fun t' ht' => Store.mem_insert valid hw.2.2.2.1 ht'.1
    · exact same
  case rangeComplete failed =>
    split
    · rename_i scopes watermark hphase
      have hcp := h.checkpoint
      simp only [CheckpointInv, hphase] at hcp
      have hkeep : ∀ t, s.Owes base t →
          rangeComplete category s.queue.exclusiveDeletionHighWatermark watermark t.key = false :=
        fun t ht => rangeComplete_eq_false (s.store.valid t ht.1).1 (hcp.2.2.2 t ht)
      cases failed with
      | none | some deleted => exact fun t ht => List.mem_filter.mpr ⟨ht.1, by simp [hkeep t ht]⟩
    · exact same
  case shrinkSlices | clearSlices | compactSlices | mitigate => exact loop _
  case selectTasks => exact .of_map fun _ => same
  case reload i =>
    cases i with
    | none => exact .of_map fun _ => same
    | some i =>
      dsimp only
      split
      · exact same
      · exact .of_map fun _ => same
  all_goals
    split
    · first | exact same | exact .of_map fun _ => same
    · exact same

end QueueSystem

/-- In every run of a queue, a stored task that the queue has been told to read since its start, and
that is not acknowledged, is tracked by some slice, or an iterator of a slice that accepts it is still
to read it. -/
theorem tasks_held (g : Grouper κ) (m : Nat) (category : CategoryType) (state : Option QueueState)
    (hstate : ∀ q ∈ state, q.Wf ∧ ackLevel category ≤ q.exclusiveReaderHighWatermark)
    (o : MapOrder) (store : Store) {s₀ s : QueueSystem κ}
    (hstart : start m category (state.map (toPersistenceQueueState o)) store = .ok s₀)
    (events : List (Nat × QueueEvent κ))
    (hr : Lib.run (step g category) s₀ events = .ok s) :
    ∀ t ∈ s.store.tasks, t.key ∉ s.acked →
      s₀.queue.nonReadableScope.range.inclusiveMin ≤ t.key →
      t.key < s.queue.nonReadableScope.range.inclusiveMin →
      ∃ id ∈ s.queue.readerGroup.ids, ∃ slice ∈ s.queue.readerGroup.slices id,
        (∃ e ∈ slice.tracker.pendingExecutables, e.task = t) ∨
        (∃ it ∈ slice.iterators, it.range.containsKey t.key = true) ∧
          slice.scope.predicate.test t = true := by
  let base := (state.map (·.exclusiveReaderHighWatermark)).getD (ackLevel category)
  have hbase : ackLevel category ≤ base := by
    cases state with
    | none => exact le_rfl
    | some q => exact (hstate q rfl).2
  obtain ⟨hinv, hread⟩ : s₀.Inv g Key.minimumKey base ∧ s₀.readable = base := by
    refine start_inv (fun q hq => (hstate q hq).1) o
      (fun t ht => (store.valid t ht).1.minimumKey_le) hbase (fun q hq t _ hle => .inr ?_) hstart
    cases hq
    exact hle
  intro t ht hack h0 hlt
  have hcov := (hinv.run (by cases category <;> decide) hbase hr).covered t ⟨ht, hack, hread ▸ h0⟩
  obtain ⟨id, hid, slice, hslice, hc⟩ := hcov.resolve_right (not_le.mpr hlt)
  exact ⟨id, hid, slice, hslice, hc⟩

/-- Two tasks become readable; the first is loaded and acknowledged, the second is still to be
read. -/
def loadingRun : List (Nat × QueueEvent String) :=
  [(0, .processNewRange ⟨0, 6⟩ (by decide) false), (0, .selectTasks 0 0 1 []),
    (0, .ack 0 0 ⟨0, 1⟩), (0, .shrinkSlices 0)]

theorem tasks_held_loadingRun :
    ∃ s₀ s : QueueSystem String,
      start 0 .immediate none threeTasks = .ok s₀ ∧
      Lib.run (step grouperNamespaceID .immediate) s₀ loadingRun = .ok s ∧
      s.store.tasks = threeTasks.tasks ∧ s.acked = [⟨0, 1⟩] ∧
      ∃ id ∈ s.queue.readerGroup.ids, ∃ slice ∈ s.queue.readerGroup.slices id,
        (∃ e ∈ slice.tracker.pendingExecutables, e.task = ⟨⟨0, 4⟩, "b", 0, none, none⟩) ∨
        (∃ it ∈ slice.iterators, it.range.containsKey ⟨0, 4⟩ = true) ∧
          slice.scope.predicate.test ⟨⟨0, 4⟩, "b", 0, none, none⟩ = true := by
  obtain ⟨s₀, hstart, hmin, s, hr, htasks, hacked, hmax⟩ : ∃ s₀ : QueueSystem String,
      start 0 .immediate none threeTasks = .ok s₀ ∧ s₀.queue.nonReadableScope.range.inclusiveMin = ⟨0, 1⟩ ∧
      ∃ s, Lib.run (step grouperNamespaceID .immediate) s₀ loadingRun = .ok s ∧
        s.store.tasks = threeTasks.tasks ∧ s.acked = [⟨0, 1⟩] ∧
        s.queue.nonReadableScope.range.inclusiveMin = ⟨0, 6⟩ := by decide +kernel
  refine ⟨s₀, s, hstart, hr, htasks, hacked, ?_⟩
  refine tasks_held grouperNamespaceID 0 .immediate none nofun listOrder threeTasks
    hstart loadingRun hr ⟨⟨0, 4⟩, "b", 0, none, none⟩ ?_ ?_ ?_ ?_
  · rw [htasks]
    decide
  · rw [hacked]
    decide
  · rw [hmin]
    decide
  rw [hmax]
  decide

/-- In every run with checkpoints, failures and crashes: a queue starts from every state that was
stored, and from none, and has each stored task that is not acknowledged in the scope of a reader or in
its non readable scope; and a task that an event deletes has been acknowledged. -/
theorem checkpoints_safe (g : Grouper κ) (m : Nat) (category : CategoryType)
    (state : Option QueueState) (o : MapOrder) (store : Store)
    (hstate : ∀ q ∈ state, q.Wf ∧ ∀ t ∈ store.tasks, q.Covers t)
    (hstore : ∀ t ∈ store.tasks, ackLevel category ≤ t.key) {s₀ s : QueueSystem κ}
    (hstart : start m category (state.map (toPersistenceQueueState o)) store = .ok s₀)
    (events : List (Nat × QueueEvent κ))
    (hr : Lib.run (step g category) s₀ events = .ok s) :
    (∀ (p : Option PersistenceQueueState) (m' : Nat), (∀ q ∈ p, q ∈ s.queueStates) →
      ∃ queue : QueueBase κ, newQueueBase m' category p = .ok queue ∧
        ∀ t ∈ s.store.tasks, t.key ∉ s.acked →
          (∃ id ∈ queue.readerGroup.ids, ∃ slice ∈ queue.readerGroup.slices id,
            slice.scope.contains t = true) ∨ queue.nonReadableScope.contains t = true) ∧
    ∀ (e : Nat × QueueEvent κ) (s' : QueueSystem κ), step g category s e = .ok s' →
      ∀ t ∈ s.store.tasks, t ∉ s'.store.tasks → t.key ∈ s.acked := by
  have hinv₀ := (start_inv (g := g) (fun q hq => (hstate q hq).1) o hstore le_rfl
    (fun q hq t ht _ => (hstate q hq).2 t ht) hstart).1
  have hinv := hinv₀.run le_rfl le_rfl hr
  have howes : ∀ t ∈ s.store.tasks, t.key ∉ s.acked → s.Owes (ackLevel category) t :=
    fun t ht hack => ⟨ht, hack, hinv.floor t ht⟩
  refine ⟨fun p m' hp => ?_, fun e s' he t ht hgone => ?_⟩
  · obtain ⟨queue, hq, h⟩ : ∃ queue : QueueBase κ,
        newQueueBase m' category p = .ok queue ∧
        Inv g (ackLevel category) (ackLevel category)
          { s with queue := queue, checkpoint := .idle } := by
      cases p with
      | none => exact hinv.reload_none le_rfl
      | some p =>
        obtain ⟨queue, hq, -, h⟩ := hinv.reload (m := m') (hp p rfl) category
        exact ⟨queue, hq, h⟩
    exact ⟨queue, hq, fun t ht hack => h.contains (howes t ht hack)⟩
  by_contra hack
  exact hgone ((step_store e hinv).post he t (howes t ht hack))

/-- The first task is loaded, acknowledged and deleted by a checkpoint, whose state the queue then
starts from. -/
noncomputable def checkpointRun : List (Nat × QueueEvent String) :=
  loadingRun ++ [(0, .checkpointShrink), (0, .checkpointAction 2 0 (fun _ => 0) false),
    (0, .checkpointScopes false), (0, .rangeComplete none), (0, .setQueueState listOrder true),
    (0, .reload (some 0))]

theorem checkpoints_safe_checkpointRun :
    ∃ (s₀ s : QueueSystem String) (p : PersistenceQueueState) (queue : QueueBase String),
      start 0 .immediate none threeTasks = .ok s₀ ∧
      Lib.run (step grouperNamespaceID .immediate) s₀ checkpointRun = .ok s ∧
      s.store.tasks.map (·.key) = [⟨0, 4⟩, ⟨0, 7⟩] ∧ s.acked = [⟨0, 1⟩] ∧ s.queueStates = [p] ∧
      newQueueBase 0 .immediate (some p) = .ok queue ∧
      ∀ t ∈ s.store.tasks, t.key ∉ s.acked →
        (∃ id ∈ queue.readerGroup.ids, ∃ slice ∈ queue.readerGroup.slices id,
          slice.scope.contains t = true) ∨ queue.nonReadableScope.contains t = true := by
  obtain ⟨s₀, hstart, s, hr, htasks, hacked, hlen⟩ : ∃ s₀ : QueueSystem String,
      start 0 .immediate none threeTasks = .ok s₀ ∧
      ∃ s, Lib.run (step grouperNamespaceID .immediate) s₀ checkpointRun = .ok s ∧
        s.store.tasks.map (·.key) = [⟨0, 4⟩, ⟨0, 7⟩] ∧ s.acked = [⟨0, 1⟩] ∧ s.queueStates.length = 1 := by
    decide +kernel
  obtain ⟨p, hp⟩ := List.length_eq_one_iff.mp hlen
  have h := (checkpoints_safe grouperNamespaceID 0 .immediate none listOrder threeTasks
    nofun (by decide) hstart checkpointRun hr).1 (some p) 0
    (fun q hq => by rw [hp, mem_some_iff.mp hq]; exact List.mem_singleton_self _)
  obtain ⟨queue, hq, hcov⟩ := h
  exact ⟨s₀, s, p, queue, hstart, hr, htasks, hacked, hp, hq, hcov⟩

end FastOrchestration.Queues
