import FastOrchestration.Lib.Run

/-!
# Buffered events in memory and in the database

Model of the event batches and buffers of `EventStore` (`service/history/historybuilder`). Events that
arrive during a workflow task are buffered: `dbBufferBatch` has those that were read from the database
and `memBufferBatch` the new ones. `Finish` hands the new ones to the database, which is emptied first
if `dbClearBuffer` is set.

The events are of any type. What the store asks of them is in `Events`: the two tables of event types,
the timer of a fired timer, the event with an ID, `reorderBuffer` and `wireEventIDs`, which reads and
extends the started IDs that are known.
-/

namespace FastOrchestration.HistoryBuilder
open Lib

structure Events (ε : Type) where
  bufferEvent : ε → Bool
  finishEvent : ε → Bool
  firedTimerID : ε → Option String
  setEventID : Int → ε → ε
  reorderBuffer : List ε → List ε
  wireEventIDs : (Int → Option Int) → List ε → List ε × (Int → Option Int)

def bufferedEventID : Int := -123

structure EventStore (ε : Type) where
  nextEventID : Int
  workflowFinished : Bool
  dbBufferBatch : List ε
  dbClearBuffer : Bool
  memEventsBatches : List (List ε)
  memLatestBatch : List ε
  memBufferBatch : List ε
  scheduledIDToStartedID : Int → Option Int

structure HistoryMutation (ε : Type) where
  dbEventsBatches : List (List ε)
  dbClearBuffer : Bool
  dbBufferBatch : List ε
  memBufferBatch : List ε

inductive Panic where
  | addAfterFinish

inductive Call (ε : Type) where
  | add (event : ε)
  | flushBufferToCurrentBatch
  | flushAndCreateNewBatch
  | getAndRemoveTimerFireEvent (timerID : String)

variable {ε : Type} (ev : Events ε)

/-- The rest of the events, and the first fired timer with the ID. -/
def deleteTimerFiredEvent (timerID : String) (events : List ε) : List ε × Option ε :=
  (events.eraseP (ev.firedTimerID · = some timerID), events.find? (ev.firedTimerID · = some timerID))

namespace EventStore

/-- A store over the events that the database has buffered. -/
def new (nextEventID : Int) (stored : List ε) : EventStore ε :=
  ⟨nextEventID, false, stored, false, [], [], [], fun _ => none⟩

def add (b : EventStore ε) (event : ε) : Except Panic (EventStore ε) :=
  if b.workflowFinished then .error .addAfterFinish
  else
    let b := { b with workflowFinished := ev.finishEvent event }
    .ok (if ev.bufferEvent event then
      { b with memBufferBatch := b.memBufferBatch ++ [ev.setEventID bufferedEventID event] }
    else { b with
      nextEventID := b.nextEventID + 1
      memLatestBatch := b.memLatestBatch ++ [ev.setEventID b.nextEventID event] })

def flushBufferToCurrentBatch (b : EventStore ε) : EventStore ε :=
  if b.dbBufferBatch = [] ∧ b.memBufferBatch = [] then b
  else if b.workflowFinished then { b with dbBufferBatch := [], memBufferBatch := [] }
  else
    let bufferBatch := (ev.reorderBuffer (b.dbBufferBatch ++ b.memBufferBatch)).mapIdx fun i event =>
      ev.setEventID (b.nextEventID + i) event
    let (wired, scheduledIDToStartedID) := ev.wireEventIDs b.scheduledIDToStartedID bufferBatch
    { b with
      nextEventID := b.nextEventID + bufferBatch.length
      dbClearBuffer := b.dbClearBuffer || !b.dbBufferBatch.isEmpty
      dbBufferBatch := []
      memBufferBatch := []
      memLatestBatch := b.memLatestBatch ++ wired
      scheduledIDToStartedID }

def flushAndCreateNewBatch (b : EventStore ε) : EventStore ε :=
  if b.memLatestBatch = [] then b
  else { b with memEventsBatches := b.memEventsBatches ++ [b.memLatestBatch], memLatestBatch := [] }

def getAndRemoveTimerFireEvent (b : EventStore ε) (timerID : String) : EventStore ε × Option ε :=
  let (dbBufferBatch, fired) := deleteTimerFiredEvent ev timerID b.dbBufferBatch
  if fired.isSome then ({ b with dbBufferBatch, dbClearBuffer := true }, fired)
  else
    let (memBufferBatch, fired) := deleteTimerFiredEvent ev timerID b.memBufferBatch
    if fired.isSome then ({ b with memBufferBatch, dbClearBuffer := true }, fired) else (b, none)

/-- Go `Finish`, without the task IDs and the maps of IDs in the mutation. -/
def finish (b : EventStore ε) (flushBufferEvent : Bool) : HistoryMutation ε :=
  let b := if flushBufferEvent then b.flushBufferToCurrentBatch ev else b
  let b := b.flushAndCreateNewBatch
  ⟨b.memEventsBatches, b.dbClearBuffer, b.memBufferBatch, b.dbBufferBatch ++ b.memBufferBatch⟩

def step (b : EventStore ε) : Call ε → Except Panic (EventStore ε)
  | .add event => b.add ev event
  | .flushBufferToCurrentBatch => .ok (b.flushBufferToCurrentBatch ev)
  | .flushAndCreateNewBatch => .ok b.flushAndCreateNewBatch
  | .getAndRemoveTimerFireEvent timerID => .ok (b.getAndRemoveTimerFireEvent ev timerID).1

end EventStore

def HistoryMutation.applyTo (m : HistoryMutation ε) (stored : List ε) : List ε :=
  (if m.dbClearBuffer then [] else stored) ++ m.dbBufferBatch

namespace EventStore

variable {ev} {b b' : EventStore ε} {call : Call ε} {stored : List ε}

/-- The call takes a fired timer out of a buffer. -/
def Removes (ev : Events ε) (b : EventStore ε) : Call ε → Prop
  | .getAndRemoveTimerFireEvent timerID => (b.getAndRemoveTimerFireEvent ev timerID).2.isSome
  | _ => False

lemma flushAndCreateNewBatch_eq (b : EventStore ε) : b.flushAndCreateNewBatch.workflowFinished = b.workflowFinished ∧
      b.flushAndCreateNewBatch.dbBufferBatch = b.dbBufferBatch ∧
      b.flushAndCreateNewBatch.memBufferBatch = b.memBufferBatch ∧
      b.flushAndCreateNewBatch.dbClearBuffer = b.dbClearBuffer := by
  unfold flushAndCreateNewBatch
  split <;> exact ⟨rfl, rfl, rfl, rfl⟩

lemma flush_finished (b : EventStore ε) : (b.flushBufferToCurrentBatch ev).workflowFinished = b.workflowFinished := by
  unfold flushBufferToCurrentBatch
  split
  · rfl
  · split <;> rfl

lemma flush_cases (hopen : b.workflowFinished = false) : let b' := b.flushBufferToCurrentBatch ev
    b'.dbBufferBatch = [] ∧ b'.memBufferBatch = [] ∧
      (b'.dbClearBuffer ∨ b.dbBufferBatch = [] ∧ b'.dbClearBuffer = b.dbClearBuffer) := by
  unfold flushBufferToCurrentBatch
  simp only [hopen]
  split
  · rename_i hempty
    exact ⟨hempty.1, hempty.2, .inr ⟨hempty.1, rfl⟩⟩
  · refine ⟨rfl, rfl, ?_⟩
    cases hdb : b.dbBufferBatch <;> simp

lemma step_cases (h : b.step ev call = .ok b') (hopen : b'.workflowFinished = false) :
    b.workflowFinished = false ∧ (Removes ev b call ∧ b'.dbClearBuffer ∨ ¬ Removes ev b call ∧
        (b'.dbBufferBatch = b.dbBufferBatch ∧ b'.dbClearBuffer = b.dbClearBuffer ∨
          b'.dbBufferBatch = [] ∧ b'.dbClearBuffer)) := by
  cases call with
  | add event =>
    simp only [step, add] at h
    split at h
    · cases h
    · cases h
      refine ⟨by simp_all, .inr ⟨id, .inl ?_⟩⟩
      split <;> exact ⟨rfl, rfl⟩
  | flushBufferToCurrentBatch =>
    cases h
    rw [flush_finished] at hopen
    obtain ⟨hdb, -, hclear⟩ := flush_cases hopen
    refine ⟨hopen, .inr ⟨id, ?_⟩⟩
    obtain hclear | ⟨hnil, hclear⟩ := hclear
    · exact .inr ⟨hdb, hclear⟩
    · exact .inl ⟨hdb.trans hnil.symm, hclear⟩
  | flushAndCreateNewBatch =>
    cases h
    obtain ⟨hb, hdb, -, hclear⟩ := b.flushAndCreateNewBatch_eq
    exact ⟨hb ▸ hopen, .inr ⟨id, .inl ⟨hdb, hclear⟩⟩⟩
  | getAndRemoveTimerFireEvent timerID =>
    cases h
    revert hopen
    dsimp only [Removes, getAndRemoveTimerFireEvent]
    split
    · rename_i hfired
      exact fun hopen => ⟨hopen, .inl ⟨hfired, rfl⟩⟩
    split
    · rename_i hfired
      exact fun hopen => ⟨hopen, .inl ⟨hfired, rfl⟩⟩
    · exact fun hopen => ⟨hopen, .inr ⟨by simp, .inl ⟨rfl, rfl⟩⟩⟩

/-- While the flag is not set, the buffer has what the database has, and nothing was taken out. If
nothing is taken out, the flag is set only by flushing what the database has. -/
lemma run_spec {calls} (h : run (step ev) b calls = .ok b') (hopen : b'.workflowFinished = false) :
    b.workflowFinished = false ∧
    (b'.dbClearBuffer = false → b'.dbBufferBatch = b.dbBufferBatch ∧ b.dbClearBuffer = false ∧
      Along (fun b call => ¬ Removes ev b call) (step ev) b calls) ∧
    (Along (fun b call => ¬ Removes ev b call) (step ev) b calls →
      (b.dbClearBuffer → b.dbBufferBatch = []) → b'.dbClearBuffer → b'.dbBufferBatch = []) := by
  induction calls generalizing b with
  | nil =>
    cases h
    exact ⟨hopen, fun hset => ⟨rfl, hset, trivial⟩, fun _ hb => hb⟩
  | cons call calls ih =>
    cases hs : b.step ev call with
    | error p => simp [run, hs] at h
    | ok b1 =>
      obtain ⟨hopen1, hunset, hkept⟩ := ih (by simpa [run, hs] using h)
      obtain ⟨hb, hcases⟩ := step_cases hs hopen1
      simp only [Along, hs]
      refine ⟨hb, fun hset => ?_, ?_⟩
      · obtain ⟨hdb, hclear, hal⟩ := hunset hset
        obtain ⟨-, hset1⟩ | ⟨hno, ⟨hdb1, hset1⟩ | ⟨-, hset1⟩⟩ := hcases
        · simp [hclear] at hset1
        · exact ⟨hdb.trans hdb1, hset1 ▸ hclear, hno, hal⟩
        · simp [hclear] at hset1
      · rintro ⟨hno, hal⟩ hb
        refine hkept hal ?_
        obtain ⟨hyes, -⟩ | ⟨-, ⟨hdb1, hset1⟩ | ⟨hdb1, -⟩⟩ := hcases
        · exact absurd hyes hno
        · rwa [hdb1, hset1]
        · exact fun _ => hdb1

/-- The database has the buffered events of the next store exactly if `Finish` flushes, or no event
from the database is left in the buffer, or no fired timer was taken out of the buffers. -/
theorem buffer_matches_iff (ev : Events ε) (nextEventID : Int) (stored : List ε) (calls : List (Call ε)) (flush : Bool)
    {b : EventStore ε} (hrun : run (step ev) (new nextEventID stored) calls = .ok b)
    (hopen : b.workflowFinished = false) :
    (b.finish ev flush).applyTo stored = (b.finish ev flush).memBufferBatch ↔ flush ∨ b.dbBufferBatch = [] ∨
        Along (fun b call => ¬ Removes ev b call) (step ev) (new nextEventID stored) calls := by
  obtain ⟨-, hunset, hkept⟩ := run_spec hrun hopen
  dsimp only [finish, HistoryMutation.applyTo]
  obtain ⟨-, hdb, hmem, hclear⟩ :=
    (if flush then b.flushBufferToCurrentBatch ev else b).flushAndCreateNewBatch_eq
  rw [hdb, hmem, hclear, List.append_cancel_right_eq]
  -- with the flag unset the buffer is still what the database has
  have hstored : b.dbClearBuffer = false → b.dbBufferBatch = stored := fun hset => (hunset hset).1
  cases flush with
  | true =>
    refine iff_of_true ?_ (.inl rfl)
    obtain ⟨hdb, -, hset | ⟨hnil, hset⟩⟩ := @flush_cases _ ev _ hopen
    · simp [hset, hdb]
    · cases hb : b.dbClearBuffer with
      | true => simp [hset, hdb, hb]
      | false => simp [hset, hdb, hb, ← hstored hb, hnil]
  | false =>
    cases hset : b.dbClearBuffer with
    | true =>
      have hal := fun al => hkept al (by simp [new]) hset
      simpa [hset, eq_comm] using hal
    | false => simp [hset, hstored hset, (hunset hset).2.2]

/-- Events with an ID and a timer: fired timers, all of which are buffered. -/
def timers : Events (Int × String) where
  bufferEvent _ := true
  finishEvent _ := false
  firedTimerID event := some event.2
  setEventID id event := (id, event.2)
  reorderBuffer := id
  wireEventIDs started events := (events, started)

def twoTimers : List (Int × String) := [(bufferedEventID, "a"), (bufferedEventID, "b")]

/-- A timer is taken out and another one is added; the flush gives the rest their IDs. -/
theorem buffer_matches_iff_removed : ∃ b,
    run (step timers) (new 5 twoTimers) [.getAndRemoveTimerFireEvent "a", .add (0, "c")] = .ok b ∧
      (b.finish timers true).dbEventsBatches = [[(5, "b"), (6, "c")]] ∧
      (b.finish timers true).applyTo twoTimers = (b.finish timers true).memBufferBatch := by
  refine ⟨_, rfl, rfl, ?_⟩
  exact (buffer_matches_iff timers 5 twoTimers [.getAndRemoveTimerFireEvent "a", .add (0, "c")] true rfl rfl).mpr (.inl rfl)

/-- A timer is taken out of a stored buffer of two, and `Finish` does not flush: the database loses
the other one, which the next store still has. -/
theorem removedTimer_clears : ∃ b, run (step timers) (new 5 twoTimers) [.getAndRemoveTimerFireEvent "a"] = .ok b ∧
      b.workflowFinished = false ∧ (b.finish timers false).applyTo twoTimers = [] ∧
      (b.finish timers false).memBufferBatch = [(bufferedEventID, "b")] :=
  ⟨_, rfl, rfl, rfl, rfl⟩

end EventStore

end FastOrchestration.HistoryBuilder
