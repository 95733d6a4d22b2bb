import FastOrchestration.Lib.Run

/-!
# The message queue of the task DLQ

Model of the Cassandra `queueV2Store` and of `queue_v2_util.go`, for one queue: every statement names
the queue type and name, and the only partition is 0. `Tables` is the row of `queues` and the rows of
`queue_messages` in clustering order.

A call is a list of statements with Go code in between. `Pc` says which statement comes next and what
the call has read so far, and `exec` executes that statement and the code up to the next one. Calls
interleave at statements, and `Event.fail` is an error or a crash between two of them. After the last
statement the result of a call is fixed, so it is recorded there. A paged read is the loop of a client
over `ReadMessages`: a page that fails can be asked for again.

Message IDs are unbounded integers. A page token is the ID of the last message read; the byte that the
source puts in front of it makes every token differ from the absent one, as `some` does here.
-/

namespace FastOrchestration.Persistence.QueueV2

open Lib

/-- Go `enumspb.EncodingType`; `EncodingTypeFromString` knows the names of the first three only. -/
inductive EncodingType where
  | unspecified
  | proto3
  | json
  | unknown (value : Int)
  deriving DecidableEq

structure DataBlob where
  data : List UInt8
  encodingType : EncodingType
  deriving DecidableEq

/-- A row of `queue_messages`, and the message that `ReadMessages` makes of it. -/
structure Message where
  messageID : Int
  data : DataBlob
  deriving DecidableEq

/-- The row of `queues`: the metadata, with the `MinMessageId` of each partition, and its version. -/
structure Queue where
  partitions : List (Int × Int)
  version : Int
  deriving DecidableEq

structure Tables where
  queue : Option Queue
  messages : List Message
  deriving DecidableEq

inductive Err where
  | queueNotFound
  | queueAlreadyExists
  | notSinglePartition (numPartitions : Nat)
  | nilPartition
  | enqueueMessageConflict (messageID : Int)
  | updateQueueConflict
  | invalidRangeDeleteMaxMessageID (id : Int)
  | nonPositivePageSize
  | unknownEncodingType (encoding : EncodingType)
  | unavailable
  deriving DecidableEq

def firstQueueMessageID : Int := 0

/-! ### The statements -/

/-- `TemplateGetQueueQuery`. -/
def Tables.getQueue (t : Tables) : Except Err Queue :=
  match t.queue with
  | some q => .ok q
  | none => .error .queueNotFound

def Tables.getMaxMessageID (t : Tables) : Option Int := t.messages.getLast?.map (·.messageID)

/-- `TemplateEnqueueMessageQuery`: not applied if there is a row with this ID. -/
def Tables.insertMessage (t : Tables) (m : Message) : Option Tables :=
  if m.messageID ∈ t.messages.map (·.messageID) then none
  else some { t with messages := t.messages.orderedInsert (·.messageID ≤ ·.messageID) m }

def Tables.rangeDelete (t : Tables) (lo hi : Int) : Tables :=
  { t with messages := t.messages.filter fun m => !(lo ≤ m.messageID && m.messageID ≤ hi) }

/-- `TemplateGetMessagesQuery`. -/
def Tables.getMessages (t : Tables) (minMessageID : Int) (limit : Nat) : List Message :=
  (t.messages.filter fun m => minMessageID ≤ m.messageID).take limit

/-- `TemplateUpdateQueueMetadataQuery`: applied only to the version that was read. -/
def Tables.updateQueue (t : Tables) (partitions : List (Int × Int)) (version : Int) : Option Tables :=
  match t.queue with
  | some q => if q.version = version then some { t with queue := some ⟨partitions, version + 1⟩ } else none
  | none => none

/-! ### queue_v2_util.go -/

/-- Go `GetPartitionForQueueV2`, as the `MinMessageId` of the partition. -/
def getPartitionForQueueV2 (q : Queue) : Except Err Int :=
  if q.partitions.length ≠ 1 then .error (.notSinglePartition q.partitions.length)
  else match q.partitions.lookup 0 with
    | some minMessageID => .ok minMessageID
    | none => .error .nilPartition

def getNextPageTokenForReadMessages (result : List Message) : Option Int :=
  result.getLast?.map (·.messageID)

def getMinMessageIDToReadForQueueV2 (nextPageToken : Option Int) (q : Queue) : Except Err Int :=
  match nextPageToken with
  | none => getPartitionForQueueV2 q
  | some lastReadMessageID => .ok (lastReadMessageID + 1)

structure DeleteRange where
  minMessageID : Int
  maxMessageID : Int
  newMinMessageID : Int
  messagesToDelete : Int
  deriving DecidableEq

def getDeleteRange (lastIDToDeleteInclusive minMessageID maxMessageID : Int) : Option DeleteRange :=
  if lastIDToDeleteInclusive < minMessageID then none
  else some {
    minMessageID
    -- never the last message: the next ID is read off it
    maxMessageID := min lastIDToDeleteInclusive (maxMessageID - 1)
    newMinMessageID := min lastIDToDeleteInclusive maxMessageID + 1
    messagesToDelete := min lastIDToDeleteInclusive maxMessageID - minMessageID + 1 }

/-! ### Calls -/

inductive Request where
  | createQueue
  | enqueueMessage (blob : DataBlob)
  | rangeDeleteMessages (inclusiveMaxMessageID : Int)
  | readAllMessages
  deriving DecidableEq

inductive Response where
  | created
  | enqueued (messageID : Int) (blob : DataBlob)
  | deleted (messagesDeleted : Int)
  deriving DecidableEq

/-- The statement that a call executes next, with what it knows by then. -/
inductive Pc where
  | createInsert
  | enqueueGetQueue (blob : DataBlob)
  | enqueueGetMax (blob : DataBlob)
  | enqueueInsert (blob : DataBlob) (nextMessageID : Int)
  | deleteGetQueue (last : Int)
  | deleteGetMax (last : Int) (q : Queue) (minMessageID : Int)
  | deleteRows (last : Int) (q : Queue) (range : DeleteRange)
  | deleteUpdate (last : Int) (q : Queue) (range : DeleteRange)
  | betweenPages (nextPageToken : Option Int) (received : List Message)
  | pageGetQueue (pageSize : Int) (nextPageToken : Option Int) (received : List Message)
  | pageSelect (pageSize minMessageID : Int) (nextPageToken : Option Int) (received : List Message)
  | readAll (received : List Message)
  | done (result : Except Err Response)
  deriving DecidableEq

structure Call where
  request : Request
  pc : Pc
  deriving DecidableEq

/-- What happens before the first statement. -/
def Request.start : Request → Pc
  | .createQueue => .createInsert
  | .enqueueMessage blob => .enqueueGetQueue blob
  | .rangeDeleteMessages last =>
    if last < firstQueueMessageID then .done (.error (.invalidRangeDeleteMaxMessageID last))
    else .deleteGetQueue last
  | .readAllMessages => .betweenPages none []

def createQueue (t : Tables) : Tables × Pc :=
  match t.queue with
  | some _ => (t, .done (.error .queueAlreadyExists))
  | none => ({ t with queue := some ⟨[(0, firstQueueMessageID)], 0⟩ }, .done (.ok .created))

/-- The ID that `EnqueueMessage` tries: one above the last row. -/
def Tables.nextMessageID (t : Tables) : Int :=
  match t.getMaxMessageID with
  | none => firstQueueMessageID
  | some lastMessageID => lastMessageID + 1

def tryInsert (t : Tables) (blob : DataBlob) (messageID : Int) : Tables × Pc :=
  match t.insertMessage ⟨messageID, blob⟩ with
  | some t' => (t', .done (.ok (.enqueued messageID blob)))
  | none => (t, .done (.error (.enqueueMessageConflict messageID)))

def rangeDeleteFound (last : Int) (q : Queue) : Pc :=
  match getPartitionForQueueV2 q with
  | .ok minMessageID => .deleteGetMax last q minMessageID
  | .error err => .done (.error err)

def rangeDeleteRange (last : Int) (q : Queue) (minMessageID : Int) (maxMessageID : Option Int) : Pc :=
  match maxMessageID.bind (getDeleteRange last minMessageID) with
  | some range => .deleteRows last q range
  | none => .done (.ok (.deleted 0))

/-- Go `updateQueue`, with the new `MinMessageId` in the metadata that the call holds. -/
def updateQueue (t : Tables) (q : Queue) (range : DeleteRange) : Tables × Pc :=
  match t.updateQueue (q.partitions.map fun p => (p.1, range.newMinMessageID)) q.version with
  | some t' => (t', .done (.ok (.deleted range.messagesToDelete)))
  | none => (t, .done (.error .updateQueueConflict))

/-- `ReadMessages` after `getQueue`; a page that fails leaves the read where it was. -/
def pageFound (pageSize : Int) (nextPageToken : Option Int) (received : List Message) (q : Queue) : Pc :=
  if pageSize ≤ 0 then .betweenPages nextPageToken received
  else match getMinMessageIDToReadForQueueV2 nextPageToken q with
    | .ok minMessageID => .pageSelect pageSize minMessageID nextPageToken received
    | .error _ => .betweenPages nextPageToken received

def EncodingType.known : EncodingType → Bool
  | .unknown _ => false
  | _ => true

/-- The end of `ReadMessages`, and how its client goes on: without a token it is through. -/
def pageRead (nextPageToken : Option Int) (received messages : List Message) : Pc :=
  if messages.all (·.data.encodingType.known) then
    match getNextPageTokenForReadMessages messages with
    | none => .readAll received
    | some token => .betweenPages (some token) (received ++ messages)
  else .betweenPages nextPageToken received

/-- One statement of a call. `none` if the call has no statement to execute. -/
def exec (t : Tables) : Pc → Option (Tables × Pc)
  | .createInsert => some (createQueue t)
  | .enqueueGetQueue blob =>
    match t.getQueue with
    | .ok _ => some (t, .enqueueGetMax blob)
    | .error err => some (t, .done (.error err))
  | .enqueueGetMax blob => some (t, .enqueueInsert blob t.nextMessageID)
  | .enqueueInsert blob messageID => some (tryInsert t blob messageID)
  | .deleteGetQueue last =>
    match t.getQueue with
    | .ok q => some (t, rangeDeleteFound last q)
    | .error err => some (t, .done (.error err))
  | .deleteGetMax last q minMessageID =>
    some (t, rangeDeleteRange last q minMessageID t.getMaxMessageID)
  | .deleteRows last q range =>
    some (t.rangeDelete range.minMessageID range.maxMessageID, .deleteUpdate last q range)
  | .deleteUpdate _ q range => some (updateQueue t q range)
  | .pageGetQueue pageSize token received =>
    match t.getQueue with
    | .ok q => some (t, pageFound pageSize token received q)
    | .error _ => some (t, .betweenPages token received)
  | .pageSelect pageSize minMessageID token received =>
    some (t, pageRead token received (t.getMessages minMessageID pageSize.toNat))
  | .betweenPages _ _ | .readAll _ | .done _ => none

/-- An error or a crash in place of the next statement. -/
def Pc.fail : Pc → Pc
  | .pageGetQueue _ token received | .pageSelect _ _ token received => .betweenPages token received
  | .betweenPages token received => .betweenPages token received
  | .readAll received => .readAll received
  | .done result => .done result
  | _ => .done (.error .unavailable)

/-! ### Runs -/

/-- The tables and the calls made so far, in the order in which they began. -/
structure Store where
  tables : Tables
  calls : List Call

def newStore : Store := ⟨⟨none, []⟩, []⟩

inductive Event where
  | start (request : Request)
  | fetch (call : Nat) (pageSize : Int)
  | exec (call : Nat)
  | fail (call : Nat)
  deriving DecidableEq

inductive NotEnabled where
  | notEnabled
  deriving DecidableEq

def Store.setPc (s : Store) (i : Nat) (c : Call) (t : Tables) (pc : Pc) : Store :=
  ⟨t, s.calls.set i { c with pc }⟩

def step (s : Store) : Event → Except NotEnabled Store
  | .start request => .ok { s with calls := s.calls ++ [⟨request, request.start⟩] }
  | .fetch i pageSize =>
    match s.calls[i]? with
    | some ⟨request, .betweenPages token received⟩ =>
      .ok (s.setPc i ⟨request, .betweenPages token received⟩ s.tables (.pageGetQueue pageSize token received))
    | _ => .error .notEnabled
  | .exec i =>
    match s.calls[i]? with
    | some c =>
      match exec s.tables c.pc with
      | some (t, pc) => .ok (s.setPc i c t pc)
      | none => .error .notEnabled
    | none => .error .notEnabled
  | .fail i =>
    match s.calls[i]? with
    | some c => .ok (s.setPc i c s.tables c.pc.fail)
    | none => .error .notEnabled

/-- The calls are as before, but for one that is new or that has moved on. -/
inductive Moves (s : Store) : Event → Store → Prop where
  | start (request : Request) : Moves s (.start request) { s with calls := s.calls ++ [⟨request, request.start⟩] }
  | fetch {i : Nat} {pageSize : Int} {c : Call} {token : Option Int} {received : List Message} :
    s.calls[i]? = some c → c.pc = .betweenPages token received →
    Moves s (.fetch i pageSize) (s.setPc i c s.tables (.pageGetQueue pageSize token received))
  | exec {i : Nat} {c : Call} {t : Tables} {pc : Pc} : s.calls[i]? = some c →
    QueueV2.exec s.tables c.pc = some (t, pc) → Moves s (.exec i) (s.setPc i c t pc)
  | fail {i : Nat} {c : Call} : s.calls[i]? = some c → Moves s (.fail i) (s.setPc i c s.tables c.pc.fail)

lemma step_moves {s s' e} (h : step s e = .ok s') : Moves s e s' := by
  cases e with simp only [step] at h
  | start request =>
    cases h
    exact .start request
  | fetch i pageSize =>
    split at h
    · next request token received hc =>
      cases h
      exact .fetch hc rfl
    · cases h
  | exec i =>
    split at h
    · next c hc =>
      split at h
      · next t pc he =>
        cases h
        exact .exec hc he
      · cases h
    · cases h
  | fail i =>
    split at h
    · next c hc =>
      cases h
      exact .fail hc
    · cases h

end FastOrchestration.Persistence.QueueV2
