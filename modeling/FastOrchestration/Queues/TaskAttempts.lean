import FastOrchestration.Queues.Slice

/-!
# Attempts to execute a history task

Model of `Execute` and `HandleErr` in `executable.go` and of `WriteTaskToDLQ` in `dlq_writer.go`. An
attempt executes the task and passes the error to `HandleErr`; the task is completed if that returns
`nil`. In between, `terminalFailureCause` tells the next `Execute` to write the task to the DLQ instead.

An error is a tree: each node has a kind, a text and the errors that it wraps. The kind says what type
assertions and comparisons with a sentinel see; `errors.As` and `errors.Is` search the tree, and only
`%w` makes a child. Metrics, latencies, priorities and log lines are left out. The dynamic config is
read again at each use, so an attempt comes with one value for each read.

Completions have a reason (`completed_forReason`), with one condition: `HandleErr` asks an error that
implements `MaybeTerminalTaskError` whether it is terminal, but `Execute` drops a task for the interface
alone. An error that answers no is dropped with the DLQ off (`nonTerminal_dropped`).
-/

namespace FastOrchestration.Queues.TaskAttempts

inductive ResourceExhaustedCause where
  | busyWorkflow
  | apsLimit
  | other
  deriving DecidableEq

/-- What an error is, as far as the code asks. -/
inductive ErrKind where
  | staleReference
  | notFound
  | namespaceNotFound
  | taskDiscarded
  | taskVersionMismatch
  | resourceExhausted (cause : ResourceExhaustedCause)
  | namespaceNotActive
  | dependencyTaskNotCompleted
  | taskRetry
  | maybeTerminal (isTerminalTaskError : Bool)
  | dataLoss
  | internal
  | queueAlreadyExists
  | other
  deriving DecidableEq

inductive Err where
  | node (kind : ErrKind) (text : String) (wrapped : List Err)

namespace Err

def kind : Err → ErrKind
  | node kind _ _ => kind

/-- Go `err.Error()`. -/
def text : Err → String
  | node _ text _ => text

def plain (kind : ErrKind) (text : String) : Err := node kind text []

mutual

/-- Go `errors.As`: the first match, the error itself before what it wraps. -/
def as? {α : Type} (p : ErrKind → Option α) : Err → Option α
  | node kind _ wrapped => (p kind).orElse fun _ => asAny? p wrapped

def asAny? {α : Type} (p : ErrKind → Option α) : List Err → Option α
  | [] => none
  | err :: errs => (as? p err).orElse fun _ => asAny? p errs

end

/-- Go `errors.As` for a type without data, and `errors.Is`. -/
def has (p : ErrKind → Bool) (err : Err) : Bool := (err.as? fun k => if p k then some () else none).isSome

/-- The answer of the first `MaybeTerminalTaskError`, if there is one. -/
def maybeTerminal? (err : Err) : Option Bool :=
  err.as? fun
    | .maybeTerminal isTerminal => some isTerminal
    | _ => none

def resourceExhausted? (err : Err) : Option ResourceExhaustedCause :=
  err.as? fun
    | .resourceExhausted cause => some cause
    | _ => none

/-- `fmt.Errorf("%w: %v", sentinel, err)`. -/
def wrapText (sentinel err : Err) : Err := node .other (sentinel.text ++ ": " ++ err.text) [sentinel]

/-- `fmt.Errorf("%w: %w", sentinel, err)`. -/
def wrapBoth (sentinel err : Err) : Err :=
  node .other (sentinel.text ++ ": " ++ err.text) [sentinel, err]

end Err

def errTerminalTaskFailure : Err :=
  .plain .other "original task failed and this task is now to send the original to the DLQ"

def errSendTaskToDLQ : Err := .plain .other "failed to send task to DLQ"

def errCreateDLQ : Err := .plain .other "failed to create DLQ"

def errNamespaceHandover : Err := .plain .other "Namespace replication in Handover state."

def errResourceExhaustedBusyWorkflow : Err :=
  .plain (.resourceExhausted .busyWorkflow) "Workflow is busy."

def errResourceExhaustedAPSLimit : Err :=
  .plain (.resourceExhausted .apsLimit) "Action per second limit exceeded."

/-- Go `WriteTaskToDLQ`, with what the store answers to `CreateQueue` and `EnqueueTask`. -/
def writeTaskToDLQ (createQueue enqueueTask : Option Err) : Option Err :=
  match createQueue.filter fun err => !err.has (· = .queueAlreadyExists) with
  | some err => some (.wrapText errCreateDLQ err)
  | none => enqueueTask.map (.wrapText errSendTaskToDLQ)

structure ExecutableImpl where
  state : TaskState
  attempt : Nat
  lastActiveness : Bool
  resourceExhaustedCount : Nat
  terminalFailureCause : Option Err
  unexpectedErrorAttempts : Nat

def newExecutable : ExecutableImpl := ⟨.pending, 1, false, 0, none, 0⟩

/-- How the executor ends; a recovered panic value is an error or is printed. -/
inductive Response where
  | returned (executedAsActive : Bool) (executionErr : Option Err)
  | panicked (err : Err)
  | panickedWith (value : String)

def Response.err : Response → Option Err
  | .returned _ err => err
  | .panicked err => some err
  | .panickedWith value => some (.plain .internal ("panic: " ++ value))

/-- What an attempt meets: the answers of the executor and of the DLQ store, and the dynamic config at
each of its reads. -/
structure Env where
  executeDLQEnabled : Bool
  response : Response
  createQueue : Option Err
  enqueueTask : Option Err
  dlqErrorPattern : String
  dlqErrorPatternAgain : String
  dlqInternalErrors : Bool
  handleDLQEnabled : Bool
  maxUnexpectedErrorAttempts : Int

/-- What `Execute` returns, with what it did: the executor's result if it ran, the result of the write
to the DLQ if there was one, and the DLQ switch if it was read. -/
structure Executed where
  err : Option Err
  ran : Option (Option Err)
  written : Option (Option Err)
  dlqRead : Option Bool

namespace ExecutableImpl

/-- The second half of `Execute`. -/
def runExecutor (e : ExecutableImpl) (env : Env) (dlqRead : Option Bool) : ExecutableImpl × Executed :=
  let executed : Executed := ⟨env.response.err, some env.response.err, none, dlqRead⟩
  match env.response with
  | .returned active _ =>
    ({ e with
        attempt := if active ≠ e.lastActiveness then 1 else e.attempt
        lastActiveness := active }, executed)
  | _ => (e, executed)

def execute (e : ExecutableImpl) (env : Env) : ExecutableImpl × Executed :=
  if e.state ≠ .pending then (e, ⟨none, none, none, none⟩)
  else
    match e.terminalFailureCause with
    | none => e.runExecutor env none
    | some cause =>
      if env.executeDLQEnabled then
        let err := writeTaskToDLQ env.createQueue env.enqueueTask
        (e, ⟨err, none, some err, some true⟩)
      else if cause.maybeTerminal?.isSome then (e, ⟨none, none, none, some false⟩)
      else { e with terminalFailureCause := none }.runExecutor env (some false)

end ExecutableImpl

def isSafeToDropError (err : Err) : Bool :=
  err.has (· = .staleReference) || err.has (fun k => k = .notFound ∨ k = .staleReference) ||
    err.kind = .namespaceNotFound || err.kind = .taskDiscarded || err.kind = .taskVersionMismatch

/-- Go `isExpectedRetryableError`: the count of exhausted resources, and the error to return. -/
def isExpectedRetryableError (err : Err) (resourceExhaustedCount : Nat) : Nat × Option Err :=
  match err.resourceExhausted? with
  | some .busyWorkflow => (resourceExhaustedCount, some errResourceExhaustedBusyWorkflow)
  | some .apsLimit => (resourceExhaustedCount + 1, some errResourceExhaustedAPSLimit)
  | some .other => (resourceExhaustedCount + 1, some err)
  | none =>
    if err.kind = .namespaceNotActive ∨ err.kind = .dependencyTaskNotCompleted ∨
        err.kind = .taskRetry then (0, some err)
    else if err.text = errNamespaceHandover.text then (0, some errNamespaceHandover)
    else (0, none)

def isUnexpectedNonRetryableError (dlqInternalErrors : Bool) (err : Err) : Bool :=
  match err.maybeTerminal? with
  | some isTerminal => isTerminal
  | none =>
    if err.kind = .dataLoss then true
    else if err.has (· = .internal) then dlqInternalErrors
    else false

section Attempts

variable (matchString : String → String → Option Bool)

/-- Go `matchDLQErrorPattern`: whether the error matches. No answer of `regexp.MatchString` stands for
a pattern that does not compile. -/
def matchDLQErrorPattern (env : Env) (err : Err) : Bool :=
  0 < env.dlqErrorPattern.length && matchString env.dlqErrorPatternAgain err.text = some true

/-- Go `HandleErr`, with the DLQ switch if it was read. -/
def ExecutableImpl.handleErr (e : ExecutableImpl) (env : Env) :
    Option Err → ExecutableImpl × Option Err × Option Bool
  | none => (e, none, none)
  | some err =>
    if matchDLQErrorPattern matchString env err then
      ({ e with terminalFailureCause := some err, attempt := e.attempt + 1 },
        some (.wrapText errTerminalTaskFailure err), none)
    else if isSafeToDropError err then (e, none, none)
    else
      let (count, retryable) := isExpectedRetryableError err e.resourceExhaustedCount
      let e := { e with attempt := e.attempt + 1, resourceExhaustedCount := count }
      match retryable with
      | some rewritten => (e, some rewritten, none)
      | none =>
        let e := { e with unexpectedErrorAttempts := e.unexpectedErrorAttempts + 1 }
        if isUnexpectedNonRetryableError env.dlqInternalErrors err then
          if env.handleDLQEnabled then
            ({ e with terminalFailureCause := some err }, some (.wrapText errTerminalTaskFailure err), some true)
          else (e, none, some false)
        else if env.maxUnexpectedErrorAttempts ≤ e.unexpectedErrorAttempts then
          if env.handleDLQEnabled then
            ({ e with terminalFailureCause := some err }, some (.wrapBoth errTerminalTaskFailure err), some true)
          else (e, some err, some false)
        else (e, some err, none)

structure Attempt where
  executed : Executed
  handled : Option Err
  dlqRead : Option Bool

def ExecutableImpl.attemptTask (e : ExecutableImpl) (env : Env) : ExecutableImpl × Attempt :=
  let (e, executed) := e.execute env
  let (e, handled, dlqRead) := e.handleErr matchString env executed.err
  (e, ⟨executed, handled, dlqRead.orElse fun _ => executed.dlqRead⟩)

/-- Between attempts, `Abort`, `Cancel` and `Ack` close a pending task. -/
inductive Event where
  | attempt (env : Env)
  | close (final : TaskState)

structure History where
  impl : ExecutableImpl
  lastErr : Option Err

def Attempt.lastErr (a : Attempt) (before : Option Err) : Option Err :=
  match a.executed.ran with
  | some (some err) => some err
  | _ => before

def History.step (h : History) : Event → History
  | .attempt env =>
    let (e, a) := h.impl.attemptTask matchString env
    ⟨e, a.lastErr h.lastErr⟩
  | .close final => if h.impl.state = .pending then ⟨{ h.impl with state := final }, h.lastErr⟩ else h

/-- Why a task may be completed. -/
inductive CompletedFor (env : Env) (a : Attempt) (lastErr : Option Err) : Prop where
  | succeeded : a.executed.ran = some none → CompletedFor env a lastErr
  | safeToDrop {err} : a.executed.ran = some (some err) → isSafeToDropError err = true → CompletedFor env a lastErr
  | written : a.executed.written = some none → CompletedFor env a lastErr
  | terminal {err} : a.dlqRead = some false → lastErr = some err →
      isUnexpectedNonRetryableError env.dlqInternalErrors err = true → CompletedFor env a lastErr

end Attempts

section Steps

variable (matchString : String → String → Option Bool) (e : ExecutableImpl) (env : Env)

lemma execute_cases (hpending : e.state = .pending) : (∃ err, writeTaskToDLQ env.createQueue env.enqueueTask = err ∧
      e.execute env = (e, ⟨err, none, some err, some true⟩)) ∨
    (∃ cause, e.terminalFailureCause = some cause ∧ cause.maybeTerminal?.isSome ∧
      e.execute env = (e, ⟨none, none, none, some false⟩)) ∨
    ∃ e' read, e.execute env = (e', ⟨env.response.err, some env.response.err, none, read⟩) ∧
      e'.terminalFailureCause = none := by
  have hran : ∀ (e : ExecutableImpl) read, e.terminalFailureCause = none → ∃ e',
      e.runExecutor env read = (e', ⟨env.response.err, some env.response.err, none, read⟩) ∧
        e'.terminalFailureCause = none := by
    intro e read hcause
    unfold ExecutableImpl.runExecutor
    split
    · exact ⟨_, rfl, hcause⟩
    · exact ⟨_, rfl, hcause⟩
  unfold ExecutableImpl.execute
  rw [if_neg (not_not.mpr hpending)]
  split
  · rename_i hcause
    obtain ⟨e', h⟩ := hran e none hcause
    exact .inr (.inr ⟨e', none, h⟩)
  rename_i cause hcause
  split
  · exact .inl ⟨_, rfl, rfl⟩
  split
  · rename_i hterm
    exact .inr (.inl ⟨cause, hcause, hterm, rfl⟩)
  obtain ⟨e', h⟩ := hran { e with terminalFailureCause := none } (some false) rfl
  exact .inr (.inr ⟨e', some false, h⟩)

/-- What `HandleErr` can do with an error: drop the task, since that is safe or since the error is
terminal and the DLQ is off, or have it tried again, with the error as the new cause or not. -/
lemma handleErr_cases (err : Err) :
    let r := e.handleErr matchString env (some err)
    (r.2.1 = none ∧ isSafeToDropError err ∧ r.1.terminalFailureCause = e.terminalFailureCause) ∨
    (r.2.1 = none ∧ isUnexpectedNonRetryableError env.dlqInternalErrors err ∧
      r.2.2 = some false ∧ r.1.terminalFailureCause = e.terminalFailureCause) ∨
    (r.2.1 ≠ none ∧ (r.1.terminalFailureCause = e.terminalFailureCause ∨ r.1.terminalFailureCause = some err)) := by
  dsimp only [ExecutableImpl.handleErr]
  by_cases hmatch : matchDLQErrorPattern matchString env err
  · rw [if_pos hmatch]
    exact .inr (.inr ⟨nofun, .inr rfl⟩)
  rw [if_neg hmatch]
  by_cases hsafe : isSafeToDropError err
  · rw [if_pos hsafe]
    exact .inl ⟨rfl, hsafe, rfl⟩
  rw [if_neg hsafe]
  cases (isExpectedRetryableError err e.resourceExhaustedCount).2 with
  | some rewritten => exact .inr (.inr ⟨nofun, .inl rfl⟩)
  | none =>
    split_ifs with hterm hdlq hmax hdlq
    · exact .inr (.inr ⟨nofun, .inr rfl⟩)
    · exact .inr (.inl ⟨rfl, hterm, rfl, rfl⟩)
    · exact .inr (.inr ⟨nofun, .inr rfl⟩)
    · exact .inr (.inr ⟨nofun, .inl rfl⟩)
    · exact .inr (.inr ⟨nofun, .inl rfl⟩)

/-- The error of a failed write wraps only a sentinel of the writer: it is none of the errors that the
classifier knows, whatever the store returned. -/
lemma writeTaskToDLQ_err {createQueue enqueueTask} {err : Err} (h : writeTaskToDLQ createQueue enqueueTask = some err) :
    err.maybeTerminal? = none ∧ isSafeToDropError err = false ∧
      ∀ dlqInternalErrors, isUnexpectedNonRetryableError dlqInternalErrors err = false := by
  have hwrap : ∃ text err', err = .wrapText (.plain .other text) err' := by
    unfold writeTaskToDLQ at h
    split at h
    · cases h
      exact ⟨_, _, rfl⟩
    obtain ⟨err', -, rfl⟩ := Option.map_eq_some_iff.mp h
    exact ⟨_, _, rfl⟩
  obtain ⟨text, err', rfl⟩ := hwrap
  exact ⟨rfl, rfl, fun _ => rfl⟩

lemma handleErr_cause (err : Option Err) :
    (e.handleErr matchString env err).1.terminalFailureCause = e.terminalFailureCause ∨
      ∃ err', err = some err' ∧ (e.handleErr matchString env err).1.terminalFailureCause = some err' := by
  cases err with
  | none => exact .inl rfl
  | some err =>
    obtain ⟨-, -, h⟩ | ⟨-, -, -, h⟩ | ⟨-, h | h⟩ := handleErr_cases matchString e env err
    · exact .inl h
    · exact .inl h
    · exact .inl h
    · exact .inr ⟨err, rfl, h⟩

lemma handleErr_writeTaskToDLQ {err} (h : writeTaskToDLQ env.createQueue env.enqueueTask = some err) :
    (e.handleErr matchString env (some err)).2.1 ≠ none := by
  obtain ⟨-, hsafe, hterm⟩ := writeTaskToDLQ_err h
  obtain ⟨-, h, -⟩ | ⟨-, h, -⟩ | ⟨h, -⟩ := handleErr_cases matchString e env err
  · exact absurd (hsafe.symm.trans h) Bool.false_ne_true
  · exact absurd ((hterm _).symm.trans h) Bool.false_ne_true
  · exact h

/-- The executor returns no `MaybeTerminalTaskError` that answers no. -/
def Event.AnswersTerminal : Event → Prop
  | .attempt env => ∀ err ∈ env.response.err, err.maybeTerminal? ≠ some false
  | .close _ => True

instance : DecidablePred Event.AnswersTerminal
  | .attempt env => inferInstanceAs (Decidable (∀ err ∈ env.response.err, _))
  | .close _ => inferInstanceAs (Decidable True)

/-- A cause is the executor's last error or not a `MaybeTerminalTaskError`, and the executor's last
error does not answer no. -/
structure History.Known (h : History) : Prop where
  cause : ∀ cause, h.impl.terminalFailureCause = some cause → h.lastErr = some cause ∨ cause.maybeTerminal? = none
  lastErr : ∀ err, h.lastErr = some err → err.maybeTerminal? ≠ some false

variable {matchString env}

lemma History.Known.attempt {h : History} (hknown : h.Known)
    (hterm : (Event.attempt env).AnswersTerminal) : (h.step matchString (.attempt env)).Known := by
  obtain ⟨e, lastErr⟩ := h
  by_cases hpending : e.state = .pending
  · obtain ⟨err, hwrite, hexec⟩ | ⟨cause, -, -, hexec⟩ | ⟨e', read, hexec, hnone⟩ :=
      execute_cases e env hpending
    · -- the handled error is that of the write, and the executor's last error stays
      refine ⟨fun cause hcause => ?_, ?_⟩
      · simp only [History.step, ExecutableImpl.attemptTask, hexec] at hcause ⊢
        obtain hold | ⟨err', rfl, hnew⟩ := handleErr_cause matchString e env err
        · exact hknown.cause cause (hold.symm.trans hcause)
        cases hnew.symm.trans hcause
        exact .inr (writeTaskToDLQ_err hwrite).1
      · simpa [History.step, ExecutableImpl.attemptTask, hexec, Attempt.lastErr] using hknown.lastErr
    · simpa [History.step, ExecutableImpl.attemptTask, hexec, Attempt.lastErr, ExecutableImpl.handleErr] using hknown
    -- the executor ran, without a cause
    refine ⟨fun cause hcause => ?_, fun err herr => ?_⟩
    · simp only [History.step, ExecutableImpl.attemptTask, hexec] at hcause ⊢
      obtain hold | ⟨err', herr, hnew⟩ := handleErr_cause matchString e' env env.response.err
      · cases (hold.trans hnone).symm.trans hcause
      cases hnew.symm.trans hcause
      simp [Attempt.lastErr, herr]
    simp only [History.step, ExecutableImpl.attemptTask, hexec, Attempt.lastErr] at herr
    cases hresp : env.response.err with
    | none =>
      rw [hresp] at herr
      exact hknown.lastErr err herr
    | some err' =>
      rw [hresp] at herr
      cases herr
      exact hterm err hresp
  have hexec : e.execute env = (e, ⟨none, none, none, none⟩) := if_pos hpending
  simpa [History.step, ExecutableImpl.attemptTask, hexec, Attempt.lastErr, ExecutableImpl.handleErr] using hknown

lemma History.Known.step {h : History} (hknown : h.Known) {ev : Event} (hterm : ev.AnswersTerminal) :
    (h.step matchString ev).Known := by
  cases ev with
  | attempt env => exact hknown.attempt hterm
  | close final =>
    dsimp only [History.step]
    split
    · exact ⟨hknown.cause, hknown.lastErr⟩
    · exact hknown

lemma History.Known.completed {h : History} (hknown : h.Known) (hpending : h.impl.state = .pending)
    (hnil : (h.impl.attemptTask matchString env).2.handled = none) :
    CompletedFor env (h.impl.attemptTask matchString env).2
      ((h.impl.attemptTask matchString env).2.lastErr h.lastErr) := by
  obtain ⟨e, lastErr⟩ := h
  obtain ⟨err, hwrite, hexec⟩ | ⟨cause, hcause, hsome, hexec⟩ | ⟨e', read, hexec, -⟩ :=
    execute_cases e env hpending
  · simp only [ExecutableImpl.attemptTask, hexec] at hnil ⊢
    cases err with
    | none => exact .written rfl
    | some err => exact absurd hnil (handleErr_writeTaskToDLQ matchString e env hwrite)
  · simp only [ExecutableImpl.attemptTask, hexec] at hnil ⊢
    obtain hlast | hno := hknown.cause cause hcause
    · refine .terminal rfl hlast ?_
      have hyes := hknown.lastErr cause hlast
      unfold isUnexpectedNonRetryableError
      split
      · rename_i b hb
        cases b with
        | true => rfl
        | false => exact absurd hb hyes
      rename_i hb
      rw [hb] at hsome
      cases hsome
    rw [hno] at hsome
    cases hsome
  simp only [ExecutableImpl.attemptTask, hexec] at hnil ⊢
  cases hresp : env.response.err with
  | none => exact .succeeded rfl
  | some err =>
    rw [hresp] at hnil
    obtain ⟨-, hsafe, -⟩ | ⟨-, hterminal, hread, -⟩ | ⟨hne, -⟩ := handleErr_cases matchString e' env err
    · exact .safeToDrop rfl hsafe
    · exact .terminal (by simp [hread]) rfl hterminal
    · exact absurd hnil hne

lemma written_failed {err} (h : (e.attemptTask matchString env).2.executed.written = some (some err)) :
    (e.attemptTask matchString env).2.handled ≠ none := by
  by_cases hpending : e.state = .pending
  · obtain ⟨err', hwrite, hexec⟩ | ⟨_, _, _, hexec⟩ | ⟨_, _, hexec, _⟩ := execute_cases e env hpending
    all_goals
      simp only [ExecutableImpl.attemptTask, hexec] at h ⊢
      cases h
    exact handleErr_writeTaskToDLQ matchString e env hwrite
  have hexec : e.execute env = (e, ⟨none, none, none, none⟩) := if_pos hpending
  simp only [ExecutableImpl.attemptTask, hexec] at h
  cases h

end Steps

/-- In every sequence of attempts in which no error of the executor is a `MaybeTerminalTaskError` that
answers no, a pending task is completed only for one of the reasons; and a failed write to the DLQ never
completes it. -/
theorem completed_forReason (matchString : String → String → Option Bool) (events : List Event)
    (env : Env) (hterm : ∀ ev ∈ events ++ [.attempt env], ev.AnswersTerminal) :
    let h := events.foldl (History.step matchString) ⟨newExecutable, none⟩
    let a := (h.impl.attemptTask matchString env).2
    (h.impl.state = .pending → a.handled = none → CompletedFor env a (a.lastErr h.lastErr)) ∧
    ∀ err, a.executed.written = some (some err) → a.handled ≠ none := by
  intro h a
  have hknown : h.Known := by
    have hinit : History.Known ⟨newExecutable, none⟩ := ⟨nofun, nofun⟩
    refine List.foldlRecOn events _ hinit fun h hh ev hev => ?_
    exact hh.step (hterm ev (List.mem_append_left _ hev))
  exact ⟨hknown.completed, fun err => written_failed h.impl⟩

/-- An attempt with the DLQ on, where a single unexpected error is enough for it. -/
def dlqAttempt (response : Response) (enqueueTask : Option Err) : Env :=
  ⟨true, response, none, enqueueTask, "", "", false, true, 1⟩

/-- The executor fails, the first write to the DLQ fails and the second one completes the task. -/
theorem completed_forReason_secondWrite :
    let failed := dlqAttempt (.returned true (some (.plain .other "unavailable"))) none
    let lost := dlqAttempt (.returned true none) (some (.plain .notFound "no such queue"))
    let stored := dlqAttempt (.returned true none) none
    let h := [Event.attempt failed, .attempt lost].foldl (History.step fun _ _ => none) ⟨newExecutable, none⟩
    let a := (h.impl.attemptTask (fun _ _ => none) stored).2
    a.handled = none ∧ CompletedFor stored a (a.lastErr h.lastErr) := by
  intro failed lost stored h a
  have hterm : ∀ ev ∈ [Event.attempt failed, .attempt lost] ++ [.attempt stored],
      ev.AnswersTerminal := by decide
  exact ⟨rfl, (completed_forReason (fun _ _ => none) _ stored hterm).1 rfl rfl⟩

def nonTerminalErr : Err := .plain (.maybeTerminal false) "maybe later"

/-- The task is dropped with the DLQ off, though its error is not terminal. -/
theorem nonTerminal_dropped :
    let failed := dlqAttempt (.returned true (some nonTerminalErr)) none
    let off := { dlqAttempt (.returned true none) none with
      executeDLQEnabled := false, handleDLQEnabled := false }
    let h := [Event.attempt failed].foldl (History.step fun _ _ => none) ⟨newExecutable, none⟩
    let a := (h.impl.attemptTask (fun _ _ => none) off).2
    h.impl.state = .pending ∧ a.handled = none ∧ ¬ CompletedFor off a (a.lastErr h.lastErr) := by
  refine ⟨rfl, rfl, fun h => ?_⟩
  cases h with
  | succeeded h | safeToDrop h | written h => cases h
  | terminal _ hlast hterm =>
    cases hlast
    cases hterm

end FastOrchestration.Queues.TaskAttempts
