import Mathlib

/-!
# The audit trail, written and read back

Model of `write_audit_event` in the worker and of `get_request_events` in the API, over a document
store. Both programs name the fields of a document by strings. A `Store` is any that keeps a document
until one with its partition key and `id` replaces it, compares values of different types as unequal and
orders the answer to a query by the named field only.

The writer stores the request id as text, in the field that is also the partition key. The reader asks
in the right partition but compares the field with a number, and it orders by a field that the writer
does not set. So nothing is ever read back: the trail of a request is returned as it was written only
if it is empty (`readBack_iff`).

What calls to the store return is up to the environment: an attempt to write can fail, before or after
the document is stored, a query can fail, and pages have any size up to the limit. The log lines of
both programs are left out, and a payload is an opaque value, absent where it is `None` or empty.
-/

namespace FastOrchestration.Audit

variable {P : Type}

inductive Value (P : Type) where
  | null
  | number (n : Int)
  | text (s : String)
  | object (payload : Option P)
  deriving DecidableEq

abbrev Doc (P : Type) := List (String × Value P)

abbrev Container (P : Type) := List (Doc P)

namespace Doc

def field (doc : Doc P) (name : String) : Option (Value P) := doc.lookup name

/-- What identifies a document: the partition key, at path `/requestId`, and the id. -/
def key (doc : Doc P) : Option (Value P) × Option (Value P) := (field doc "requestId", field doc "id")

end Doc

/-- How a query sorts values: by their kind, numbers by size and texts alphabetically. A missing field
comes first. -/
def sortKey : Option (Value P) → Nat ×ₗ Int ×ₗ String
  | none => toLex (0, toLex (0, ""))
  | some .null => toLex (1, toLex (0, ""))
  | some (.number n) => toLex (2, toLex (n, ""))
  | some (.text s) => toLex (3, toLex (0, s))
  | some (.object _) => toLex (4, toLex (0, ""))

inductive Order where
  | asc
  | desc
  deriving DecidableEq

def Order.notAfter (order : Order) (name : String) (a b : Doc P) : Bool :=
  match order with
  | .asc => sortKey (Doc.field a name) ≤ sortKey (Doc.field b name)
  | .desc => sortKey (Doc.field b name) ≤ sortKey (Doc.field a name)

/-- A document store, with what is assumed of it. `queryItems c partition requestID orderBy order` is
the answer to `SELECT * FROM c WHERE c.requestId = @requestId ORDER BY c.<orderBy>` in a partition. -/
structure Store (P : Type) where
  upsertItem : Container P → Doc P → Container P
  queryItems : Container P → Value P → Value P → String → Order → List (Doc P)
  upserted : ∀ c doc, doc ∈ upsertItem c doc
  kept : ∀ c doc, ∀ old ∈ c, Doc.key old ≠ Doc.key doc → old ∈ upsertItem c doc
  /-- Values of different types are unequal. -/
  found : ∀ c partition requestID orderBy order doc,
    doc ∈ queryItems c partition requestID orderBy order ↔
      doc ∈ c ∧ Doc.field doc "requestId" = some partition ∧ Doc.field doc "requestId" = some requestID
  ordered : ∀ c partition requestID orderBy order,
    (queryItems c partition requestID orderBy order).Pairwise (order.notAfter orderBy · ·)

section Writer

variable (store : Store P)

/-- A request id as the workflow got it; the API starts workflows with a number. -/
inductive RequestID where
  | int (n : Int)
  | str (s : String)
  deriving DecidableEq

/-- Python `str`. -/
def RequestID.toStr : RequestID → String
  | .int n => toString n
  | .str s => s

/-- How an attempt to write ends; a call that raises may have reached the store. -/
inductive Upsert where
  | returned
  | raised (error : String) (stored : Bool)
  deriving DecidableEq

/-- The arguments of `write_audit_event`, what it reads from the clock and from `uuid`, and how its
attempts end. -/
structure WriteCall (P : Type) where
  requestID : RequestID
  eventType : String
  payload : Option P
  workflowID : Option String
  runID : Option String
  connected : Bool
  utcnow : String
  unixTime : Int
  uuid : String
  attempts : Nat → Upsert

inductive WriteResult where
  | ok (id : String)
  | notOk (reason : String)
  deriving DecidableEq

namespace WriteCall

/-- Python takes `None` and the empty string for false. -/
def truthy (s : Option String) : Option String := s.filter (· ≠ "")

def docID (w : WriteCall P) : String :=
  match truthy w.runID, truthy w.workflowID with
  | some runID, _ => runID ++ "-" ++ w.eventType
  | none, some workflowID => workflowID ++ "-" ++ w.eventType
  | none, none => w.requestID.toStr ++ "-" ++ toString w.unixTime ++ "-" ++ w.uuid

def doc (w : WriteCall P) : Doc P :=
  [("id", .text w.docID), ("requestId", .text w.requestID.toStr), ("workflowId", w.workflowID.elim .null .text),
    ("runId", w.runID.elim .null .text),
    ("eventType", .text w.eventType),
    ("timestamp", .text (w.utcnow ++ "Z")),
    ("payload", .object w.payload)]

/-- The attempts from the given one on, as many as are left. -/
def tryUpsert (store : Store P) (w : WriteCall P) : Nat → Nat → String → Container P → Container P × WriteResult
  | 0, _, lastExc, c => (c, .notOk lastExc)
  | left + 1, attempt, _, c =>
    match w.attempts attempt with
    | .returned => (store.upsertItem c w.doc, .ok w.docID)
    | .raised error stored =>
      tryUpsert store w left (attempt + 1) error (if stored then store.upsertItem c w.doc else c)

end WriteCall

def writeAuditEvent (auditRetries : Nat) (c : Container P) (w : WriteCall P) :
    Container P × WriteResult :=
  if w.connected then w.tryUpsert store auditRetries 1 "None" c else (c, .notOk "no-cosmos")

/-- The container, with the request id and the document id of each call that returned ok. -/
structure Trail (P : Type) where
  container : Container P
  written : List (String × String)

def Trail.write (auditRetries : Nat) (t : Trail P) (w : WriteCall P) : Trail P :=
  match writeAuditEvent store auditRetries t.container w with
  | (c, .ok id) => ⟨c, t.written ++ [(w.requestID.toStr, id)]⟩
  | (c, .notOk _) => ⟨c, t.written⟩

end Writer

section Reader

variable [DecidableEq P] (store : Store P)

/-- How the store answers the request for a page; the size is what it makes of the limit. -/
inductive PageAnswer where
  | page (size : Nat)
  | cosmosError
  | otherError
  deriving DecidableEq

structure HTTPException where
  statusCode : Nat
  detail : String
  deriving DecidableEq

abbrev Limit := { n : Nat // 1 ≤ n ∧ n ≤ 500 }

structure EventsPage (P : Type) where
  events : List (Doc P)
  continuationToken : Option Nat
  count : Nat
  deriving DecidableEq

/-- Python `get_request_events`. A continuation token is the number of items before the page. -/
def getRequestEvents (container : Option (Container P)) (id : Int) (limit : Limit)
    (continuationToken : Option Nat) (order : Order) (answer : PageAnswer) :
    Except HTTPException (EventsPage P) :=
  match container, answer with
  | none, _ => .error ⟨500, "Cosmos DB not configured"⟩
  | some _, .cosmosError => .error ⟨500, "Error querying audit events"⟩
  | some _, .otherError => .error ⟨500, "Internal error"⟩
  | some c, .page size =>
    let items := store.queryItems c (.text (toString id)) (.number id) "ts" order
    let start := continuationToken.getD 0
    let page := (items.drop start).take (min size limit)
    let stop := start + page.length
    .ok ⟨page, if stop < items.length then some stop else none, page.length⟩

/-- A complete read: pages are requested until no continuation token follows. -/
inductive Reads (c : Container P) (id : Int) (order : Order) : Option Nat → List (Doc P) → Prop where
  | last {token limit answer page} : getRequestEvents store (some c) id limit token order answer = .ok page →
      page.continuationToken = none → Reads c id order token page.events
  | more {token limit answer page next rest} : getRequestEvents store (some c) id limit token order answer = .ok page →
      page.continuationToken = some next → Reads c id order (some next) rest →
      Reads c id order token (page.events ++ rest)

/-- The trail of a request is read back: every event whose writer was told ok is returned, as are all
events of the request that are stored, and they come in the order of the time that was stored. -/
structure ReadBack (t : Trail P) (id : Int) (order : Order) : Prop where
  answered : ∃ items, Reads store t.container id order none items
  returned : ∀ items, Reads store t.container id order none items → ∀ docID, (toString id, docID) ∈ t.written →
      ∃ doc ∈ items, Doc.field doc "id" = some (.text docID)
  complete : ∀ items, Reads store t.container id order none items →
    ∀ doc ∈ t.container, Doc.field doc "requestId" = some (.text (toString id)) → doc ∈ items
  ordered : ∀ items, Reads store t.container id order none items →
    items.Pairwise fun a b => order.notAfter "timestamp" a b = true

end Reader

section Proofs

variable {store : Store P}

lemma key_doc (w : WriteCall P) : Doc.key w.doc = (some (.text w.requestID.toStr), some (.text w.docID)) := rfl

lemma exists_key_upsertItem {c : Container P} {doc k} (h : (∃ old ∈ c, Doc.key old = k) ∨ Doc.key doc = k) :
    ∃ new ∈ store.upsertItem c doc, Doc.key new = k := by
  by_cases hk : Doc.key doc = k
  · exact ⟨doc, store.upserted c doc, hk⟩
  obtain ⟨old, hold, rfl⟩ := h.resolve_right hk
  exact ⟨old, store.kept c doc old hold (Ne.symm hk), rfl⟩

/-- A call keeps what is stored under a key, and where it returns ok its own event is stored. -/
lemma exists_key_tryUpsert {w : WriteCall P} {left attempt lastExc c k} (h : ∃ old ∈ c, Doc.key old = k) :
    ∃ new ∈ (w.tryUpsert store left attempt lastExc c).1, Doc.key new = k := by
  induction left generalizing attempt lastExc c with
  | zero => exact h
  | succ left ih =>
    unfold WriteCall.tryUpsert
    split
    · exact exists_key_upsertItem (.inl h)
    apply ih
    split
    · exact exists_key_upsertItem (.inl h)
    · exact h

lemma stored_of_tryUpsert_ok {w : WriteCall P} {left attempt lastExc id c}
    (h : (w.tryUpsert store left attempt lastExc c).2 = .ok id) :
    ∃ new ∈ (w.tryUpsert store left attempt lastExc c).1,
      Doc.key new = (some (.text w.requestID.toStr), some (.text id)) := by
  induction left generalizing attempt lastExc c with
  | zero => cases h
  | succ left ih =>
    unfold WriteCall.tryUpsert at h ⊢
    split at h
    · cases h
      exact exists_key_upsertItem (.inr (key_doc w))
    · exact ih h

def Trail.Stored (t : Trail P) : Prop :=
  ∀ requestID docID, (requestID, docID) ∈ t.written →
    ∃ doc ∈ t.container, Doc.key doc = (some (.text requestID), some (.text docID))

lemma Trail.Stored.write {t : Trail P} (ht : t.Stored) (auditRetries : Nat) (w : WriteCall P) :
    (t.write store auditRetries w).Stored := by
  have hkeep : ∀ k, (∃ old ∈ t.container, Doc.key old = k) →
      ∃ new ∈ (writeAuditEvent store auditRetries t.container w).1, Doc.key new = k := by
    intro k hk
    unfold writeAuditEvent
    split
    · exact exists_key_tryUpsert hk
    · exact hk
  unfold Trail.write
  split
  · rename_i c id hres
    intro requestID docID hmem
    obtain hmem | hmem := List.mem_append.mp hmem
    · simpa [hres] using hkeep _ (ht requestID docID hmem)
    cases List.mem_singleton.mp hmem
    unfold writeAuditEvent at hres
    split at hres
    · have hstored := stored_of_tryUpsert_ok (congrArg Prod.snd hres)
      rw [hres] at hstored
      exact hstored
    · cases hres
  rename_i c reason hres
  intro requestID docID hmem
  simpa [hres] using hkeep _ (ht requestID docID hmem)

/-- No text is a number: the query of the endpoint finds nothing. -/
lemma queryItems_text_number (c : Container P) (text : String) (n : Int) (orderBy : String)
    (order : Order) : store.queryItems c (.text text) (.number n) orderBy order = [] := by
  refine List.eq_nil_iff_forall_not_mem.mpr fun doc hdoc => ?_
  obtain ⟨-, htext, hnumber⟩ := (store.found ..).mp hdoc
  cases htext.symm.trans hnumber

/-- Every complete read is empty, and there is one. -/
lemma reads_iff {c : Container P} {id : Int} {order : Order} {items : List (Doc P)} :
    Reads store c id order none items ↔ items = [] := by
  have hpage : ∀ {token : Option Nat} {limit answer} {page : EventsPage P},
      getRequestEvents store (some c) id limit token order answer = .ok page → page = ⟨[], none, 0⟩ := by
    intro token limit answer page h
    cases answer with
    | page size => simpa [getRequestEvents, queryItems_text_number, eq_comm] using h
    | cosmosError => cases h
    | otherError => cases h
  constructor
  · intro h
    cases h with
    | last hget => rw [hpage hget]
    | more hget hnext =>
      rw [hpage hget] at hnext
      cases hnext
  rintro rfl
  have hget : getRequestEvents store (some c) id ⟨50, by decide⟩ none order (.page 50) =
      .ok ⟨[], none, 0⟩ := by
    simp [getRequestEvents, queryItems_text_number]
  exact .last hget rfl

end Proofs

/-- After any calls of the writer, the trail of a request is read back if and only if the container has
no event of the request; and it is not read back once a writer was told ok. -/
theorem readBack_iff (store : Store P) (auditRetries : Nat) (c : Container P)
    (calls : List (WriteCall P)) (id : Int) (order : Order) :
    let t := calls.foldl (Trail.write store auditRetries) ⟨c, []⟩
    (ReadBack store t id order ↔
      ∀ doc ∈ t.container, Doc.field doc "requestId" ≠ some (.text (toString id))) ∧
    ∀ docID, (toString id, docID) ∈ t.written → ¬ ReadBack store t id order := by
  intro t
  have hstored : t.Stored := by
    refine List.foldlRecOn calls _ nofun fun t ht w _ => ?_
    exact ht.write auditRetries w
  refine ⟨⟨fun h doc hdoc hid => ?_, fun hnone => ⟨?_, ?_, ?_, ?_⟩⟩, fun docID hmem h => ?_⟩
  · cases h.complete [] (reads_iff.mpr rfl) doc hdoc hid
  · exact ⟨[], reads_iff.mpr rfl⟩
  · intro items _ docID hmem
    obtain ⟨doc, hdoc, hkey⟩ := hstored _ _ hmem
    exact absurd (congrArg Prod.fst hkey) (hnone doc hdoc)
  · intro items _ doc hdoc hid
    exact absurd hid (hnone doc hdoc)
  · intro items hitems
    rw [reads_iff.mp hitems]
    exact .nil
  obtain ⟨doc, hdoc, -⟩ := h.returned [] (reads_iff.mpr rfl) docID hmem
  cases hdoc

/-- A store that keeps the documents in the order in which they came. -/
def listStore [DecidableEq P] : Store P where
  upsertItem c doc := c.filter (fun old => Doc.key old ≠ Doc.key doc) ++ [doc]
  queryItems c partition requestID orderBy order :=
    (c.filter fun doc => Doc.field doc "requestId" = some partition ∧
      Doc.field doc "requestId" = some requestID).mergeSort (order.notAfter orderBy)
  upserted c doc := by simp
  kept c doc old hold hne := by simp [hold, hne]
  found c partition requestID orderBy order doc := by simp
  ordered c partition requestID orderBy order :=
    List.pairwise_mergeSort
      (fun a b c => by cases order <;> simpa [Order.notAfter] using fun h h' => by order)
      (fun a b => by cases order <;> simpa [Order.notAfter] using le_total _ _) _

/-- The worker records that request 7 was created, at the first attempt. -/
def createdEvent : WriteCall Nat where
  requestID := .int 7
  eventType := "created"
  payload := some 120
  workflowID := some "request-7"
  runID := some "run"
  connected := true
  utcnow := "2026-01-01T00:00:00.000001"
  unixTime := 1767225600
  uuid := "0a1b2c3d"
  attempts _ := .returned

/-- The trail of request 8 is read back: it is empty. -/
theorem readBack_iff_otherRequest : ReadBack listStore ([createdEvent].foldl (Trail.write listStore 3) ⟨[], []⟩) 8 .asc :=
  (readBack_iff listStore 3 [] [createdEvent] 8 .asc).1.mpr (by decide)

/-- The event is stored and its writer is told so, and the endpoint answers without it. -/
theorem createdEvent_notReadBack :
    let t := [createdEvent].foldl (Trail.write listStore 3) ⟨[], []⟩
    t = ⟨[createdEvent.doc], [("7", "run-created")]⟩ ∧
    (∀ limit size, getRequestEvents listStore (some t.container) 7 limit none .asc (.page size) = .ok ⟨[], none, 0⟩) ∧
    ¬ ReadBack listStore t 7 .asc := by
  refine ⟨rfl, fun limit size => ?_, fun h => ?_⟩
  · simp [getRequestEvents, queryItems_text_number]
  obtain ⟨doc, hdoc, -⟩ := h.returned [] (reads_iff.mpr rfl) "run-created" (by decide)
  cases hdoc

end FastOrchestration.Audit
