import FastOrchestration.Lib.Run

/-!
# The workflow Update state machine

Model of `service/history/workflow/update`: the states of an Update (`state.go`), the abort matrix
(`abort_reason.go`), message validation (`validation.go`) and the methods of `Update` (`update.go`).

The Go methods change the Update at once and register two closures with an `effect.Controller`: one
to run after the transaction commits and one to run if it rolls back. Here the closures are data.
A `Callback` names the method that registered it together with what its closures capture, and
`Callback.commit` and `Callback.rollback` are the bodies of the two closures. A method returns a
`Transition`: the Update after its synchronous part, the callback it registers, if any, and the error
it answers. The answers of the event store are arguments (`EventStore`).

A future can be completed only once: `Future.set` on a completed future is the panic of
`future.FutureImpl.Set`.
-/

namespace FastOrchestration.WorkflowUpdate

/-- The states of an Update (Go `state`). -/
inductive State where
  | created
  | provisionallyAdmitted
  | admitted
  | sent
  | provisionallyAccepted
  | accepted
  | provisionallyCompleted
  | provisionallyCompletedAfterAccepted
  | completed
  | provisionallyAborted
  | aborted
  deriving DecidableEq

/-- Go `state.String`. -/
def State.toString : State → String
  | .created => "Created"
  | .provisionallyAdmitted => "ProvisionallyAdmitted"
  | .admitted => "Admitted"
  | .sent => "Sent"
  | .provisionallyAccepted => "ProvisionallyAccepted"
  | .accepted => "Accepted"
  | .provisionallyCompleted => "ProvisionallyCompleted"
  | .provisionallyCompletedAfterAccepted => "ProvisionallyCompletedAfterAccepted"
  | .completed => "Completed"
  | .provisionallyAborted => "ProvisionallyAborted"
  | .aborted => "Aborted"

inductive Failure where
  | acceptedUpdateCompletedWorkflow
  | unprocessedUpdate
  | worker (message : String)
  deriving DecidableEq

inductive AbortErr where
  | registryCleared
  | abortedByWorkflowClosing
  | workflowClosing
  | workflowTaskFail
  deriving DecidableEq

inductive Outcome where
  | success (payload : String)
  | failure (f : Option Failure)
  deriving DecidableEq

inductive ServiceError where
  | invalidArgument (message : String)
  | resourceExhausted (message : String)
  | failedPrecondition (message : String)
  | aborted (err : Option AbortErr)
  | store (message : String)
  deriving DecidableEq

/-- What stops the process. -/
inductive Panic where
  | futureAlreadyCompleted
  | assignmentToNilMap
  deriving DecidableEq

/-- Why an Update is aborted (Go `AbortReason`). -/
inductive AbortReason where
  | registryCleared
  | workflowCompleted
  | workflowContinuing
  | workflowTaskFailed
  deriving DecidableEq

/-- The pair of failure and error an abort resolves the Update with (Go `reasonStateMatrix`); the
pair of two `none`s says that the Update cannot be aborted in this state. -/
def AbortReason.failureError : AbortReason → State → Option Failure × Option AbortErr
  | _, .completed | _, .provisionallyAborted | _, .aborted => (none, none)
  | .registryCleared, _ => (none, some .registryCleared)
  | .workflowCompleted, .created | .workflowCompleted, .provisionallyAdmitted
  | .workflowCompleted, .admitted | .workflowCompleted, .sent =>
    (none, some .abortedByWorkflowClosing)
  | .workflowCompleted, _ => (some .acceptedUpdateCompletedWorkflow, none)
  | .workflowContinuing, .created | .workflowContinuing, .provisionallyAdmitted
  | .workflowContinuing, .admitted | .workflowContinuing, .sent => (none, some .workflowClosing)
  | .workflowContinuing, _ => (some .acceptedUpdateCompletedWorkflow, none)
  | .workflowTaskFailed, .created | .workflowTaskFailed, .provisionallyAdmitted
  | .workflowTaskFailed, .admitted => (none, some .registryCleared)
  | .workflowTaskFailed, .sent => (none, some .workflowTaskFail)
  | .workflowTaskFailed, _ => (none, none)

/-- A future: not completed yet, or completed with a value and an error. -/
inductive Future (α : Type) where
  | pending
  | ready (value : Option α) (err : Option AbortErr)
  deriving DecidableEq

/-- Go `Future.Ready`. -/
def Future.isReady {α} : Future α → Bool
  | .pending => false
  | .ready _ _ => true

/-- Go `FutureImpl.Set`: completing a future a second time panics. -/
def Future.set {α} (value : Option α) (err : Option AbortErr) : Future α → Except Panic (Future α)
  | .pending => .ok (.ready value err)
  | .ready _ _ => .error .futureAlreadyCompleted

/-! ## Messages and their validation -/

structure Meta where
  updateId : String
  deriving DecidableEq

structure Input where
  name : String
  deriving DecidableEq

structure Request where
  msgMeta : Option Meta
  input : Option Input
  deriving DecidableEq

structure Acceptance where
  acceptedRequestSequencingEventId : Int
  acceptedRequestMessageId : String
  acceptedRequest : Option Request
  deriving DecidableEq

structure Rejection where
  failure : Option Failure
  rejectedRequest : Option Request
  deriving DecidableEq

structure Response where
  msgMeta : Option Meta
  outcome : Option Outcome
  deriving DecidableEq

/-- The body of a protocol message after unmarshalling. -/
inductive Body where
  | acceptance (acpt : Acceptance)
  | rejection (rej : Rejection)
  | response (res : Response)
  | other (typeName : String)
  deriving DecidableEq

def Body.typeName : Body → String
  | .acceptance _ => "*update.Acceptance"
  | .rejection _ => "*update.Rejection"
  | .response _ => "*update.Response"
  | .other t => t

/-- Go `protocolpb.Message`; a body that cannot be unmarshalled carries the reason. -/
structure Message where
  protocolInstanceId : String
  body : Option (Except String Body)

/-- Go `notZero`: the error if a field is its zero value. -/
def notZero (isSet : Bool) (label typeName : String) : Option ServiceError :=
  if isSet then none
  else some (.invalidArgument ("invalid " ++ typeName ++ ": " ++ label ++ " is not set"))

/-- Go `eq`: the error if two fields differ. -/
def eqField (left leftLbl right rightLbl typeName : String) : Option ServiceError :=
  if left = right then none
  else some (.invalidArgument ("invalid " ++ typeName ++ ": " ++ leftLbl ++ " != " ++ rightLbl))

/-- Go `validate`: the first error of a list of checks. -/
def validate (vs : List (Option ServiceError)) : Option ServiceError :=
  vs.findSome? id

/-- The update id a message carries, empty if it has no meta (Go `GetMeta().GetUpdateId()`). -/
def Meta.getUpdateId : Option Meta → String
  | none => ""
  | some m => m.updateId

def validateRequestMsg (updateID : String) (msg : Option Request) : Option ServiceError :=
  let type := "*update.Request"
  let updateId := Meta.getUpdateId (msg.bind Request.msgMeta)
  let name := ((msg.bind Request.input).map Input.name).getD ""
  validate [notZero msg.isSome "body" type, notZero (msg.bind Request.msgMeta).isSome "meta" type,
    notZero (updateId ≠ "") "meta.update_id" type,
    eqField updateId "meta.update_id" updateID updateID type,
    notZero (msg.bind Request.input).isSome "input" type,
    notZero (name ≠ "") "input.name" type]

def validateAcceptanceMsg (acpt : Acceptance) : Option ServiceError :=
  let type := "*update.Acceptance"
  validate [notZero (acpt.acceptedRequestSequencingEventId ≠ 0) "accepted_request_sequencing_event_id" type,
    notZero (acpt.acceptedRequestMessageId ≠ "") "accepted_request_message_id" type]

def validateResponseMsg (updateID : String) (res : Response) : Option ServiceError :=
  let type := "*update.Response"
  let updateId := Meta.getUpdateId res.msgMeta
  validate [notZero res.msgMeta.isSome "meta" type, notZero (updateId ≠ "") "meta.update_id" type,
    eqField updateId "meta.update_id" updateID updateID type,
    notZero res.outcome.isSome "outcome" type]

/-! ## The Update -/

/-- An Update (Go `Update`). -/
structure Update where
  id : String
  state : State
  request : Option Request
  acceptedEventID : Int
  admittedTime : Nat
  accepted : Future Failure
  outcome : Future Outcome
  deriving DecidableEq

def emptyEventID : Int := 0

def new (id : String) : Update :=
  { id, state := .created, request := none, acceptedEventID := emptyEventID, admittedTime := 0,
    accepted := .pending, outcome := .pending }

def newAdmitted (id : String) (request : Option Request) (now : Nat) : Update :=
  { id, state := .admitted, request, acceptedEventID := emptyEventID, admittedTime := now,
    accepted := .pending, outcome := .pending }

def newAccepted (id : String) (acceptedEventID : Int) : Update :=
  { id, state := .accepted, request := none, acceptedEventID, admittedTime := 0,
    accepted := .ready none none, outcome := .pending }

/-- Go `newCompleted`; the outcome future is a ready one. -/
def newCompleted (id : String) (outcome : Option Outcome) (err : Option AbortErr) : Update :=
  { id, state := .completed, request := none, acceptedEventID := emptyEventID, admittedTime := 0,
    accepted := .ready none none, outcome := .ready outcome err }

/-- Go `Update.setState`, without the previous state it returns. -/
def Update.setState (u : Update) (st : State) : Update := { u with state := st }

/-- The closures a method registers with its effect controller, with what they capture. -/
inductive Callback where
  | onAdmit (prevState : State)
  | accept (prevState : State)
  | reject (prevState : State) (rejectionFailure : Option Failure)
  | respond (prevState : State) (outcome : Option Outcome)
  | abort (prevState : State) (abortFailure : Option Failure) (abortErr : Option AbortErr)
  deriving DecidableEq

/-- What a method does before it returns: the Update, the callback it registers, whether it called
`onComplete`, and the error it answers. -/
structure Transition where
  upd : Update
  callback : Option Callback
  onComplete : Bool
  err : Option ServiceError
  deriving DecidableEq

/-- A method that answers without touching the Update. -/
def Update.answer (u : Update) (err : Option ServiceError) : Transition :=
  ⟨u, none, false, err⟩

/-- The answers of the event store that a method asks for. -/
structure EventStore where
  canAddEvent : Bool
  /-- Answer of `AddWorkflowExecutionUpdateAcceptedEvent`: the id of the event or an error. -/
  acceptedEvent : Except ServiceError Int
  /-- Error of `AddWorkflowExecutionUpdateCompletedEvent`. -/
  completedEvent : Option ServiceError

def Update.setOutcome (u : Update) (o : Option Outcome) (err : Option AbortErr) :
    Except Panic Update := do
  let outcome ← u.outcome.set o err
  return { u with outcome }

def Update.setAccepted (u : Update) (f : Option Failure) (err : Option AbortErr) :
    Except Panic Update := do
  let accepted ← u.accepted.set f err
  return { u with accepted }

/-- The states before acceptance (Go `preAcceptedStates` in `abort`). -/
def preAcceptedStates : List State :=
  [.created, .provisionallyAdmitted, .admitted, .sent, .provisionallyAccepted]

/-- The commit closure of each method: the new Update and whether it called `onComplete`. -/
def Callback.commit (now : Nat) : Callback → Update → Except Panic (Update × Bool)
  | .onAdmit _, u =>
    if u.state ≠ .provisionallyAdmitted then .ok (u, false)
    else .ok ({ u.setState .admitted with admittedTime := now }, false)
  | .accept _, u =>
    if u.state ∉ [State.provisionallyAccepted, .provisionallyCompleted, .provisionallyAborted] then
      .ok (u, false)
    else
      let u := { u with request := none }
      -- accepted and completed, or accepted and aborted, in one workflow task: the accepted future
      -- is left to the later closure, which sets it after the outcome future
      if u.state = .provisionallyCompleted then
        .ok (u.setState .provisionallyCompletedAfterAccepted, false)
      else if u.state = .provisionallyAborted then
        .ok (u.setState .provisionallyCompletedAfterAccepted, false)
      else do
        let u ← (u.setState .accepted).setAccepted none none
        return (u, false)
  | .reject _ rejectionFailure, u =>
    if u.state ≠ .provisionallyCompleted then .ok (u, false)
    else do
      let u := { u with request := none }.setState .completed
      let u ← u.setAccepted rejectionFailure none
      let u ← u.setOutcome (some (.failure rejectionFailure)) none
      return (u, true)
  | .respond _ outcome, u =>
    if u.state ∉ [State.provisionallyCompleted, .provisionallyCompletedAfterAccepted] then
      .ok (u, false)
    else do
      let beforeCommitState := u.state
      let u ← (u.setState .completed).setOutcome outcome none
      if beforeCommitState = .provisionallyCompletedAfterAccepted then
        let u ← u.setAccepted none none
        return (u, true)
      else return (u, true)
  | .abort prevState abortFailure abortErr, u =>
    if u.state ∉ [State.provisionallyAborted, .provisionallyCompletedAfterAccepted] then
      .ok (u, false)
    else do
      let beforeCommitState := u.state
      let u ← (u.setState .aborted).setOutcome (abortFailure.map (.failure ∘ some)) abortErr
      if beforeCommitState = .provisionallyCompletedAfterAccepted then
        let u ← u.setAccepted none none
        return (u, false)
      else if prevState ∈ preAcceptedStates then
        let u ← u.setAccepted abortFailure abortErr
        return (u, false)
      else return (u, false)

/-- A transition whose callback is committed on the spot (Go `effect.Immediate`). -/
def Transition.immediately (now : Nat) (t : Transition) : Except Panic Update :=
  match t.callback with
  | none => .ok t.upd
  | some cb => (cb.commit now t.upd).map Prod.fst

/-- The rollback closure of each method. -/
def Callback.rollback : Callback → Update → Update
  | .onAdmit prevState, u =>
    if u.state ≠ .provisionallyAdmitted then u
    else { u.setState prevState with admittedTime := 0 }
  | .accept prevState, u =>
    if u.state ≠ .provisionallyAccepted then u
    else { u with acceptedEventID := emptyEventID }.setState prevState
  | .reject prevState _, u | .respond prevState _, u =>
    if u.state ≠ .provisionallyCompleted then u else u.setState prevState
  | .abort prevState _ _, u =>
    if u.state ≠ .provisionallyAborted then u else u.setState prevState

def Update.abort (u : Update) (reason : AbortReason) : Transition :=
  match reason.failureError u.state with
  | (none, none) => u.answer none
  | (abortFailure, abortErr) =>
    ⟨u.setState .provisionallyAborted, some (.abort u.state abortFailure abortErr), false, none⟩

/-- Go `Update.Admit`. `limitErr` is the answer of `checkLimits`, which is the registry's
`payloadSizeLimiter`, and `marshalErr` that of `anypb.New`. -/
def Update.onAdmit (u : Update) (req : Option Request) (store : EventStore)
    (limitErr marshalErr : Option ServiceError) : Transition :=
  if u.state ≠ .created then u.answer none
  else if limitErr.isSome then ⟨u, none, true, limitErr⟩
  else if (validateRequestMsg u.id req).isSome then u.answer (validateRequestMsg u.id req)
  else if !store.canAddEvent then
    { u.abort .workflowCompleted with
      err := some (.aborted (AbortReason.workflowCompleted.failureError .created).2) }
  else if marshalErr.isSome then u.answer marshalErr
  else
    ⟨{ u with request := req }.setState .provisionallyAdmitted, some (.onAdmit u.state), false, none⟩

def Update.checkStateSet (u : Update) (msg : Body) (allowed : List State) : Option ServiceError :=
  if u.state ∈ allowed then none
  else some (.invalidArgument ("invalid state transition attempted for Update " ++ u.id
    ++ ": received " ++ msg.typeName ++ " message while in state " ++ u.state.toString))

def Update.onAcceptanceMsg (u : Update) (acpt : Acceptance) (store : EventStore) : Transition :=
  let stateErr := u.checkStateSet (.acceptance acpt) [.sent, .admitted]
  if stateErr.isSome then u.answer stateErr
  else if (validateAcceptanceMsg acpt).isSome then u.answer (validateAcceptanceMsg acpt)
  else
    match store.acceptedEvent with
    | .error err => u.answer (some err)
    | .ok eventID =>
      ⟨{ u with acceptedEventID := eventID }.setState .provisionallyAccepted, some (.accept u.state), false, none⟩

def Update.reject (u : Update) (rejectionFailure : Option Failure) : Transition :=
  ⟨u.setState .provisionallyCompleted, some (.reject u.state rejectionFailure), false, none⟩

/-- Go `Update.onRejectionMsg`; `validateRejectionMsg` only asks for a body. -/
def Update.onRejectionMsg (u : Update) (rej : Rejection) : Transition :=
  let stateErr := u.checkStateSet (.rejection rej) [.sent, .admitted]
  if stateErr.isSome then u.answer stateErr else u.reject rej.failure

def Update.onResponseMsg (u : Update) (res : Response) (store : EventStore) : Transition :=
  let stateErr := u.checkStateSet (.response res) [.provisionallyAccepted, .accepted]
  if stateErr.isSome then u.answer stateErr
  else if (validateResponseMsg u.id res).isSome then u.answer (validateResponseMsg u.id res)
  else if store.completedEvent.isSome then u.answer store.completedEvent
  else ⟨u.setState .provisionallyCompleted, some (.respond u.state res.outcome), false, none⟩

def Body.isRejection : Body → Bool
  | .rejection _ => true
  | _ => false

def Update.onProtocolMessage (u : Update) (msg : Option Message) (store : EventStore) :
    Transition :=
  match msg with
  | none => u.answer (some (.invalidArgument ("Update " ++ u.id ++ " received nil message")))
  | some { body := none, .. } =>
    u.answer (some (.invalidArgument ("Update " ++ u.id ++ " received message with nil body")))
  | some { body := some (.error reason), .. } =>
    u.answer (some (.invalidArgument ("unable to unmarshal request: " ++ reason)))
  | some { body := some (.ok body), .. } =>
    if !(store.canAddEvent || body.isRejection) then u.abort .workflowCompleted
    else
      match body with
      | .acceptance acpt => u.onAcceptanceMsg acpt store
      | .rejection rej => u.onRejectionMsg rej
      | .response res => u.onResponseMsg res store
      | .other t => u.answer (some (.invalidArgument ("Message type " ++ t ++ " not supported")))

def Update.needToSend (u : Update) (includeAlreadySent : Bool) : Bool :=
  if includeAlreadySent then u.state ∈ [State.admitted, .sent] else u.state = .admitted

/-- Go `Update.Send`: the new Update and, if there is one, the request to send. -/
def Update.send (u : Update) (includeAlreadySent : Bool) : Update × Option Request :=
  if !u.needToSend includeAlreadySent then (u, none)
  else (if u.state = .admitted then u.setState .sent else u, u.request)

def Update.isSent (u : Update) : Bool := u.state = .sent

/-!
## The Update registry and its transactions

Model of `registry.go` together with the effect buffer of the running workflow task
(`common/effect/buffer.go`). Updates are shared objects in Go: the registry map, the effect buffer
and the callers all point to them. So the state holds a `heap` of all Updates made so far and refers
to them by address; an Update that left the registry map can still be reached by a buffered callback.

`step` interprets one `Event`: a call of the registry or of an Update, with the answers of its
environment as arguments. Go visits the registry map in no fixed order, so a registry call carries
the `order` in which it visits the registered Updates. A buffered callback is paired with the address
of its Update; `Apply` runs the commit closures in order and `Cancel` the rollback closures in
reverse. Messages, `RejectUnprocessed` and `AbortAccepted` register with the buffer, `Abort` and
`Clear` with the immediate controller, and `Admit` with either.
-/

open Lib

/-- Where a method registers its callbacks (Go `effect.Controller`). -/
inductive Controller where
  | buffered
  | immediate
  deriving DecidableEq

/-- The registry, the Updates in memory and the effect buffer of the running transaction. -/
structure Registry where
  heap : List Update
  /-- The addresses of the registered Updates by update id; `none` is a nil map. -/
  updates : Option (List (String × Nat))
  completedCount : Nat
  buffer : List (Nat × Callback)
  deriving DecidableEq

/-- The limits in force when a request arrives; `0` disables a limit. -/
structure Limits where
  maxTotal : Nat
  maxInFlightUpdateCount : Nat
  maxInFlightUpdateSize : Nat
  deriving DecidableEq

namespace Registry

def entries (r : Registry) : List (String × Nat) := r.updates.getD []

def addresses (r : Registry) : List Nat := r.entries.map Prod.snd

def put (r : Registry) (a : Nat) (u : Update) : Registry := { r with heap := r.heap.set a u }

/-- The completion callback of an Update (Go `registry.remover`). -/
def remover (r : Registry) (id : String) : Registry :=
  match r.updates with
  | none => r
  | some m =>
    let counted := ((m.lookup id).bind (r.heap[·]?)).any (·.acceptedEventID ≠ emptyEventID)
    { r with
      completedCount := if counted then r.completedCount + 1 else r.completedCount
      updates := some (m.filter (·.1 ≠ id)) }

def commit (now : Nat) (r : Registry) (a : Nat) (cb : Callback) : Except Panic Registry :=
  match r.heap[a]? with
  | none => .ok r
  | some u => do
    let (u', completed) ← cb.commit now u
    let r := r.put a u'
    return if completed then r.remover u.id else r

def rollback (r : Registry) (a : Nat) (cb : Callback) : Registry :=
  match r.heap[a]? with
  | none => r
  | some u => r.put a (cb.rollback u)

/-- Carry out a method's transition on the Update at address `a`: its synchronous part, then its
callback, which the immediate controller commits on the spot. -/
def perform (now : Nat) (ctrl : Controller) (r : Registry) (a : Nat) (t : Transition) :
    Except Panic Registry :=
  let r := r.put a t.upd
  let r := if t.onComplete then r.remover t.upd.id else r
  match t.callback, ctrl with
  | none, _ => .ok r
  | some cb, .buffered => .ok { r with buffer := r.buffer ++ [(a, cb)] }
  | some cb, .immediate => r.commit now a cb

def call (now : Nat) (ctrl : Controller) (method : Update → Transition) (r : Registry) (a : Nat) :
    Except Panic Registry :=
  match r.heap[a]? with
  | none => .ok r
  | some u => r.perform now ctrl a (method u)

/-- Call a method on the Updates at the given addresses, one after the other. -/
def callEach (now : Nat) (ctrl : Controller) (method : Update → Transition) (r : Registry)
    (order : List Nat) : Except Panic Registry :=
  run (call now ctrl method) r order

/-! ## Lookup and creation -/

/-- An Update's entry in the mutable state (Go `persistencespb.UpdateInfo`). -/
inductive UpdateInfo where
  | admission
  | acceptance (eventID : Int)
  | completion
  deriving DecidableEq

/-- Put a new Update on the heap and in the registry map under its id. -/
def register (r : Registry) (u : Update) : Except Panic Registry :=
  match r.updates with
  | none => .error .assignmentToNilMap
  | some m => .ok { r with
      heap := r.heap ++ [u]
      updates := some ((u.id, r.heap.length) :: m.filter (·.1 ≠ u.id)) }

def empty : Registry := ⟨[], some [], 0, []⟩

/-- Load one stored Update (the visitor of Go `NewRegistry`). -/
def load (now : Nat) (running : Bool) (r : Registry) : String × UpdateInfo → Except Panic Registry
  | (id, .admission) => r.register (newAdmitted id none now)
  | (id, .acceptance eventID) =>
    let u := newAccepted id eventID
    if running then r.register u
    else do
      let u ← (u.abort .workflowCompleted).immediately now
      r.register u
  | (_, .completion) => .ok { r with completedCount := r.completedCount + 1 }

/-- Go `NewRegistry` over the stored Updates, in the order the store visits them. -/
def newRegistry (now : Nat) (running : Bool) (infos : List (String × UpdateInfo)) :
    Except Panic Registry :=
  run (load now running) empty infos

/-- What the store knows about the outcome of an Update (Go `GetUpdateOutcome`): nothing, or the
outcome or the error of a completed Update. -/
abbrev StoredOutcome := Option (Option Outcome × Option AbortErr)

/-- Go `registry.Find`: an address in the map, or a new completed Update for a stored outcome. -/
def find (r : Registry) (id : String) (stored : StoredOutcome) : Option (Nat ⊕ Update) :=
  match r.entries.lookup id with
  | some a => some (.inl a)
  | none => stored.map fun (outcome, err) => .inr (newCompleted id outcome err)

def checkInFlightLimit (r : Registry) (limits : Limits) : Option ServiceError :=
  if limits.maxInFlightUpdateCount = 0 then none
  else if r.entries.length ≥ limits.maxInFlightUpdateCount then
    some (.resourceExhausted ("limit on number of concurrent in-flight updates has been reached ("
      ++ toString limits.maxInFlightUpdateCount ++ ")"))
  else none

def checkTotalLimit (r : Registry) (limits : Limits) : Option ServiceError :=
  if limits.maxTotal = 0 then none
  else if r.entries.length + r.completedCount ≥ limits.maxTotal then
    some (.failedPrecondition ("The limit on the total number of distinct updates in this workflow "
      ++ "has been reached (" ++ toString limits.maxTotal ++ "). Make sure any duplicate updates "
      ++ "share an Update ID so the server can deduplicate them, and consider rejecting updates that "
      ++ "you aren't going to process. You can also Continue-as-New to avoid this; we recommend you "
      ++ "check Continue-as-New Suggested in your Workflow."))
  else none

def checkLimits (r : Registry) (limits : Limits) : Option ServiceError :=
  (r.checkInFlightLimit limits).or (r.checkTotalLimit limits)

/-- Go `registry.payloadSizeLimiter` for a registry and a request of the given sizes. -/
def payloadSizeLimiter (limits : Limits) (registrySize payloadBytes : Nat) : Option ServiceError :=
  if limits.maxInFlightUpdateSize = 0 then none
  else if registrySize + payloadBytes ≥ limits.maxInFlightUpdateSize then
    some (.resourceExhausted ("limit on total payload size of in-flight updates has been reached ("
      ++ toString limits.maxInFlightUpdateSize ++ " bytes)"))
  else none

/-- Go `registry.FindOrCreate`: the registry after it; a completed Update that is only in the store
is handed out without being registered, so it is put on the heap alone. -/
def findOrCreate (r : Registry) (id : String) (stored : StoredOutcome) (limits : Limits) :
    Except Panic Registry :=
  match r.find id stored with
  | some (.inl _) => .ok r
  | some (.inr u) => .ok { r with heap := r.heap ++ [u] }
  | none => if (r.checkLimits limits).isSome then .ok r else r.register (new id)

/-- The request a message carries in case its Update has to be resurrected. -/
def resurrectRequest : Body → Option Request
  | .acceptance acpt => acpt.acceptedRequest
  | .rejection rej => rej.rejectedRequest
  | _ => none

def tryResurrect (now : Nat) (r : Registry) (msg : Option Message) (limits : Limits) :
    Except Panic Registry :=
  match msg with
  | some { protocolInstanceId, body := some (.ok body) } =>
    if (r.checkTotalLimit limits).isSome then .ok r
    else
      match resurrectRequest body with
      | none => .ok r
      | some req => r.register (newAdmitted protocolInstanceId (some req) now)
  | _ => .ok r

/-! ## Registry calls and the effect buffer -/

def sendOne (includeAlreadySent : Bool) (r : Registry) (a : Nat) : Registry :=
  match r.heap[a]? with
  | none => r
  | some u => r.put a (u.send includeAlreadySent).1

def send (r : Registry) (includeAlreadySent : Bool) (order : List Nat) : Registry :=
  order.foldl (sendOne includeAlreadySent) r

def abort (now : Nat) (r : Registry) (reason : AbortReason) (order : List Nat) :
    Except Panic Registry :=
  r.callEach now .immediate (·.abort reason) order

def abortIfAccepted (reason : AbortReason) (u : Update) : Transition :=
  if u.state ∈ [State.provisionallyAccepted, .accepted] then u.abort reason else u.answer none

def abortAccepted (now : Nat) (r : Registry) (reason : AbortReason) (order : List Nat) :
    Except Panic Registry :=
  r.callEach now .buffered (abortIfAccepted reason) order

def rejectIfSent (u : Update) : Transition :=
  if u.isSent then u.reject (some .unprocessedUpdate) else u.answer none

def rejectUnprocessed (now : Nat) (r : Registry) (order : List Nat) : Except Panic Registry :=
  r.callEach now .buffered rejectIfSent order

def clear (now : Nat) (r : Registry) (order : List Nat) : Except Panic Registry := do
  let r ← r.abort now .registryCleared order
  return { r with updates := none, completedCount := 0 }

def apply (now : Nat) (r : Registry) : Except Panic Registry := do
  let r' ← run (fun r (c : Nat × Callback) => r.commit now c.1 c.2) r r.buffer
  return { r' with buffer := [] }

def cancel (r : Registry) : Registry :=
  let r' := r.buffer.reverse.foldl (fun r (c : Nat × Callback) => r.rollback c.1 c.2) r
  { r' with buffer := [] }

end Registry

/-- One call, with the answers of its environment. -/
inductive Event where
  | findOrCreate (id : String) (stored : Registry.StoredOutcome) (limits : Limits)
  | tryResurrect (msg : Option Message) (limits : Limits)
  | onAdmit (a : Nat) (req : Option Request) (store : EventStore)
      (limitErr marshalErr : Option ServiceError) (ctrl : Controller)
  | onProtocolMessage (a : Nat) (msg : Option Message) (store : EventStore)
  | send (includeAlreadySent : Bool) (order : List Nat)
  | rejectUnprocessed (order : List Nat)
  | abort (reason : AbortReason) (order : List Nat)
  | abortAccepted (reason : AbortReason) (order : List Nat)
  | clear (order : List Nat)
  | apply
  | cancel

def step (r : Registry) : Nat × Event → Except Panic Registry
  | (_, .findOrCreate id stored limits) => r.findOrCreate id stored limits
  | (now, .tryResurrect msg limits) => r.tryResurrect now msg limits
  | (now, .onAdmit a req store limitErr marshalErr ctrl) =>
    r.call now ctrl (·.onAdmit req store limitErr marshalErr) a
  | (now, .onProtocolMessage a msg store) => r.call now .buffered (·.onProtocolMessage msg store) a
  | (_, .send includeAlreadySent order) => .ok (r.send includeAlreadySent order)
  | (now, .rejectUnprocessed order) => r.rejectUnprocessed now order
  | (now, .abort reason order) => r.abort now reason order
  | (now, .abortAccepted reason order) => r.abortAccepted now reason order
  | (now, .clear order) => r.clear now order
  | (now, .apply) => r.apply now
  | (_, .cancel) => .ok r.cancel

/-- A registry call visits each registered Update once. -/
def Event.Visits (r : Registry) : Event → Prop
  | .send _ order | .rejectUnprocessed order | .abort _ order | .abortAccepted _ order
  | .clear order => order.Perm r.addresses
  | _ => True

instance (r : Registry) : ∀ e : Event, Decidable (e.Visits r)
  | .send _ order | .rejectUnprocessed order | .abort _ order | .abortAccepted _ order
  | .clear order => inferInstanceAs (Decidable (order.Perm r.addresses))
  | .findOrCreate .. | .tryResurrect .. | .onAdmit .. | .onProtocolMessage .. | .apply | .cancel =>
    isTrue trivial

end FastOrchestration.WorkflowUpdate
