import FastOrchestration.Persistence.QueueV2

/-!
# Statements of the message queue

What a statement of a call does to the tables (`Writes`), and what a call knows after each of its
statements (`Pc.Ok`). `exec_spec` is the specification of one statement: it keeps the tables well-formed
and tells its call what the next statement relies on. `Pc.Ok.mono` says what the statements of other
calls leave of that: an enqueue that has chosen an ID relies on the row of the message that has taken
the ID in between, so a `DELETE` has to stay below the ID.
-/

namespace FastOrchestration.Persistence.QueueV2

open List Tables

/-! ### The tables -/

def Increasing (ms : List Message) : Prop := ms.Pairwise (·.messageID < ·.messageID)

def Tables.HasID (t : Tables) (id : Int) : Prop := id ∈ t.messages.map (·.messageID)

/-- The metadata has one partition, and it does not begin above the next message. -/
def Queue.Below (q : Queue) (next : Int) : Prop := ∃ m ≤ next, q.partitions = [(0, m)]

structure Tables.Inv (t : Tables) : Prop where
  increasing : Increasing t.messages
  first_le : firstQueueMessageID ≤ t.nextMessageID
  below : ∀ q, t.queue = some q → q.Below t.nextMessageID

lemma nextMessageID_append (q : Option Queue) (ms : List Message) (m : Message) :
    (mk q (ms ++ [m])).nextMessageID = m.messageID + 1 := by
  simp [nextMessageID, getMaxMessageID]

variable {t : Tables} {m : Message}

lemma Increasing.lt_next (h : Increasing t.messages) (hm : m ∈ t.messages) : m.messageID < t.nextMessageID := by
  obtain ⟨q, ms⟩ := t
  rcases eq_nil_or_concat ms with rfl | ⟨init, last, rfl⟩
  · simp at hm
  rw [concat_eq_append] at *
  rw [nextMessageID_append]
  rcases mem_append.mp hm with hm | hm
  · have := (pairwise_append.mp h).2.2 m hm last (by simp)
    omega
  simp only [mem_singleton] at hm
  subst hm
  omega

lemma orderedInsert_append {ms : List Message} (h : ∀ m' ∈ ms, m'.messageID < m.messageID) :
    ms.orderedInsert (·.messageID ≤ ·.messageID) m = ms ++ [m] := by
  induction ms with
  | nil => rfl
  | cons a ms ih =>
    have ha : ¬ m.messageID ≤ a.messageID := Int.not_le.mpr (h a (by simp))
    rw [orderedInsert_cons, if_neg ha, ih fun m' hm => h m' (by simp [hm])]
    rfl

lemma nextMessageID_rangeDelete {lo hi} (h : hi + 1 < t.nextMessageID) :
    (t.rangeDelete lo hi).nextMessageID = t.nextMessageID := by
  obtain ⟨q, ms⟩ := t
  rcases eq_nil_or_concat ms with rfl | ⟨init, last, rfl⟩
  · rfl
  rw [concat_eq_append] at *
  rw [nextMessageID_append] at h ⊢
  have hlast : (!(decide (lo ≤ last.messageID) && decide (last.messageID ≤ hi))) := by
    simp
    omega
  simp only [rangeDelete, filter_append, filter_singleton, hlast]
  exact nextMessageID_append _ _ _

/-! ### What a statement writes -/

def Pc.deletesTo : Pc → Option Int
  | .deleteRows _ _ range => some range.maxMessageID
  | _ => none

def Pc.chosenID : Pc → Option Int
  | .enqueueInsert _ messageID => some messageID
  | _ => none

/-- An ID that an enqueue can hold: the next one, or one that another message has. -/
def Tables.Held (t : Tables) (id : Int) : Prop :=
  id ≤ t.nextMessageID ∧ (id < t.nextMessageID → t.HasID id)

inductive Writes (t : Tables) : Pc → Tables → Prop where
  | nothing (pc : Pc) : Writes t pc t
  | metadata (pc : Pc) {q : Queue} : q.Below t.nextMessageID → Writes t pc { t with queue := some q }
  | message (blob : DataBlob) : Writes t (.enqueueInsert blob t.nextMessageID)
      { t with messages := t.messages ++ [⟨t.nextMessageID, blob⟩] }
  | deletion (last : Int) (q : Queue) {range : DeleteRange} : range.maxMessageID + 1 < t.nextMessageID →
    Writes t (.deleteRows last q range) (t.rangeDelete range.minMessageID range.maxMessageID)

variable {t t' : Tables}

lemma Writes.next_le {pc} (w : Writes t pc t') : t.nextMessageID ≤ t'.nextMessageID := by
  cases w with
  | nothing | metadata => exact Int.le_refl _
  | message blob =>
    rw [nextMessageID_append]
    simp only
    omega
  | deletion last q h => exact (nextMessageID_rangeDelete h).ge

lemma Writes.inv {pc} (w : Writes t pc t') (ht : t.Inv) : t'.Inv := by
  have hle := w.next_le
  have mono : ∀ q : Queue, q.Below t.nextMessageID → q.Below t'.nextMessageID := by
    rintro q ⟨m, hm, hq⟩
    exact ⟨m, hm.trans hle, hq⟩
  refine ⟨?_, ht.first_le.trans hle, fun q hq => ?_⟩
  · cases w with
    | nothing | metadata => exact ht.increasing
    | message blob =>
      refine pairwise_append.mpr ⟨ht.increasing, pairwise_singleton .., ?_⟩
      intro a ha b hb
      rw [mem_singleton.mp hb]
      exact ht.increasing.lt_next ha
    | deletion => exact ht.increasing.filter _
  apply mono
  cases w with
  | nothing | message | deletion => exact ht.below q hq
  | metadata _ h =>
    cases hq
    exact h

lemma Writes.held {pc : Pc} (w : Writes t pc t') {id} (h : t.Held id)
    (hd : ∀ hi ∈ pc.deletesTo, hi < id) : t'.Held id := by
  refine ⟨h.1.trans w.next_le, fun hlt => ?_⟩
  cases w with
  | nothing => exact h.2 hlt
  | metadata => exact h.2 hlt
  | message blob =>
    rw [nextMessageID_append] at hlt
    rcases Int.lt_or_eq_of_le h.1 with hid | hid
    · have := h.2 hid
      simp only [HasID, map_append, mem_append] at this ⊢
      exact .inl this
    · simp [HasID, hid]
  | deletion last q hr =>
    rw [nextMessageID_rangeDelete hr] at hlt
    obtain ⟨m, hm, rfl⟩ := mem_map.mp (h.2 hlt)
    have := hd _ rfl
    refine mem_map.mpr ⟨m, mem_filter.mpr ⟨hm, ?_⟩, rfl⟩
    simp
    omega

/-! ### What a call knows -/

structure Received (token : Option Int) (received : List Message) : Prop where
  increasing : Increasing received
  upTo : ∀ m ∈ received, ∃ l ∈ token, m.messageID ≤ l

/-- A range for a bound `last`, computed from the rows that are there. -/
structure DeleteRange.Ok (range : DeleteRange) (last next : Int) : Prop where
  max_le : range.maxMessageID ≤ last
  max_lt : range.maxMessageID + 1 < next
  newMin_le : range.newMinMessageID ≤ last + 1
  newMin_le_next : range.newMinMessageID ≤ next

def Pc.Ok (t : Tables) (request : Request) : Pc → Prop
  | .enqueueInsert _ messageID => t.Held messageID
  | .deleteGetQueue last => request = .rangeDeleteMessages last
  | .deleteGetMax last q _ => request = .rangeDeleteMessages last ∧ ∃ m, q.partitions = [(0, m)]
  | .deleteRows last q range | .deleteUpdate last q range =>
    request = .rangeDeleteMessages last ∧ (∃ m, q.partitions = [(0, m)]) ∧ range.Ok last t.nextMessageID
  | .betweenPages token received | .pageGetQueue _ token received => Received token received
  | .pageSelect pageSize minMessageID token received =>
    0 < pageSize ∧ Received token received ∧ ∀ m ∈ received, m.messageID < minMessageID
  | .readAll received => Increasing received
  | .done (.ok (.enqueued messageID _)) => messageID < t.nextMessageID
  | _ => True

lemma Pc.Ok.mono {t t' request} {pc pc' : Pc} (h : pc.Ok t request) (w : Writes t pc' t')
    (hd : ∀ hi ∈ pc'.deletesTo, ∀ id ∈ pc.chosenID, hi < id) : pc.Ok t' request := by
  have hle := w.next_le
  have range : ∀ {r : DeleteRange} {last : Int}, r.Ok last t.nextMessageID → r.Ok last t'.nextMessageID := fun hr =>
    ⟨hr.max_le, lt_of_lt_of_le hr.max_lt hle, hr.newMin_le, hr.newMin_le_next.trans hle⟩
  cases pc with
  | enqueueInsert blob id => exact w.held h fun hi hhi => hd hi hhi id rfl
  | deleteRows last q r | deleteUpdate last q r => exact ⟨h.1, h.2.1, range h.2.2⟩
  | done result =>
    rcases result with err | r
    · trivial
    cases r with
    | enqueued id blob => exact lt_of_lt_of_le (show id < t.nextMessageID from h) hle
    | created => trivial
    | deleted n => trivial
  | createInsert | enqueueGetQueue blob | enqueueGetMax blob | deleteGetQueue last
  | deleteGetMax last q m | betweenPages token received | pageGetQueue size token received
  | pageSelect size m token received | readAll received => exact h

lemma Request.start_ok (t : Tables) (request : Request) : request.start.Ok t request := by
  cases request with
  | createQueue | enqueueMessage blob => trivial
  | rangeDeleteMessages last =>
    simp only [Request.start]
    split
    · trivial
    · rfl
  | readAllMessages => exact ⟨List.Pairwise.nil, by simp⟩

lemma Pc.Ok.fail {t request} {pc : Pc} (h : pc.Ok t request) : pc.fail.Ok t request := by
  cases pc with
  | pageSelect size m token received => exact h.2.1
  | pageGetQueue size token received | betweenPages token received | readAll received
  | done result => exact h
  | _ => trivial

lemma getDeleteRange_ok {last minMessageID maxMessageID next} {range : DeleteRange}
    (h : getDeleteRange last minMessageID maxMessageID = some range) (hn : maxMessageID + 1 = next) :
    range.Ok last next := by
  simp only [getDeleteRange] at h
  split at h
  · cases h
  cases h
  exact ⟨by simp only; omega, by simp only; omega, by simp only; omega, by simp only; omega⟩

lemma Tables.held_next (t : Tables) : t.Held t.nextMessageID :=
  ⟨Int.le_refl _, fun h => absurd h (Int.lt_irrefl _)⟩

lemma rangeDeleteFound_ok (t : Tables) {q : Queue} {next} (hq : q.Below next) (last : Int) :
    (rangeDeleteFound last q).Ok t (.rangeDeleteMessages last) := by
  obtain ⟨m, hm, hq⟩ := hq
  simp only [rangeDeleteFound, getPartitionForQueueV2, hq]
  exact ⟨rfl, m, hq⟩

lemma rangeDeleteRange_ok {q : Queue} (hq : ∃ m, q.partitions = [(0, m)])
    (last minMessageID : Int) : (rangeDeleteRange last q minMessageID t.getMaxMessageID).Ok t
      (.rangeDeleteMessages last) := by
  simp only [rangeDeleteRange]
  split
  · next range h =>
    obtain ⟨maxMessageID, hmax, hr⟩ := Option.bind_eq_some_iff.mp h
    exact ⟨rfl, hq, getDeleteRange_ok hr (by simp [nextMessageID, hmax])⟩
  · trivial

lemma pageFound_ok (t : Tables) {request token received} (h : Received token received) (pageSize : Int)
    (q : Queue) : (pageFound pageSize token received q).Ok t request := by
  simp only [pageFound]
  split
  · exact h
  next hsize =>
  split
  · next minMessageID hmin =>
    refine ⟨Int.not_le.mp hsize, h, fun m hm => ?_⟩
    obtain ⟨l, hl, hml⟩ := h.upTo m hm
    cases hl
    cases hmin
    omega
  · exact h

lemma getMessages_increasing (ht : Increasing t.messages) (minMessageID : Int)
    (limit : Nat) : Increasing (t.getMessages minMessageID limit) :=
  (ht.filter _).sublist (take_sublist ..)

lemma minMessageID_le_of_mem {minMessageID limit}
    (hm : m ∈ t.getMessages minMessageID limit) : minMessageID ≤ m.messageID := by
  simpa using (mem_filter.mp (mem_of_mem_take hm)).2

lemma Increasing.le_token {ms} (h : Increasing ms) {token} (ht : getNextPageTokenForReadMessages ms = some token) :
    (∃ m ∈ ms, m.messageID = token) ∧ ∀ m ∈ ms, m.messageID ≤ token := by
  rcases eq_nil_or_concat ms with rfl | ⟨init, last, rfl⟩
  · cases ht
  rw [concat_eq_append] at *
  simp only [getNextPageTokenForReadMessages, getLast?_append, getLast?_singleton,
    Option.some_or, Option.map_some, Option.some.injEq] at ht
  subst ht
  refine ⟨⟨last, by simp, rfl⟩, fun m hm => ?_⟩
  rcases mem_append.mp hm with hm | hm
  · exact Int.le_of_lt ((pairwise_append.mp h).2.2 m hm last (by simp))
  · rw [mem_singleton.mp hm]

lemma pageRead_ok (t : Tables) {request token received page minMessageID} (h : Received token received)
    (hlt : ∀ m ∈ received, m.messageID < minMessageID) (hpage : Increasing page)
    (hle : ∀ m ∈ page, minMessageID ≤ m.messageID) : (pageRead token received page).Ok t request := by
  simp only [pageRead]
  split
  · split
    · exact h.increasing
    next l hl =>
    obtain ⟨⟨m0, hm0, hm0l⟩, hall⟩ := hpage.le_token hl
    refine ⟨pairwise_append.mpr ⟨h.increasing, hpage, fun a ha b hb => ?_⟩, fun m hm => ?_⟩
    · exact lt_of_lt_of_le (hlt a ha) (hle b hb)
    refine ⟨l, rfl, ?_⟩
    rcases mem_append.mp hm with hm | hm
    · have := hlt m hm
      have := hle m0 hm0
      omega
    · exact hall m hm
  · exact h

lemma insertMessage_applied (ht : t.Inv) (h : t.Held m.messageID) (hi : t.insertMessage m = some t') :
    m.messageID = t.nextMessageID ∧ t'.queue = t.queue ∧ t'.messages = t.messages ++ [m] := by
  simp only [insertMessage] at hi
  split at hi
  · cases hi
  next hid =>
  cases hi
  -- a held ID without a row is the next one
  have hnext : m.messageID = t.nextMessageID :=
    Int.le_antisymm h.1 (Int.not_lt.mp fun hlt => hid (h.2 hlt))
  refine ⟨hnext, rfl, orderedInsert_append fun m' hm => ?_⟩
  rw [hnext]
  exact ht.increasing.lt_next hm

lemma exec_spec {request} {pc pc' : Pc} (ht : t.Inv) (h : pc.Ok t request)
    (he : exec t pc = some (t', pc')) : Writes t pc t' ∧ pc'.Ok t' request ∧
      ∀ q, t'.queue = some q → t.queue = some q ∨ ∀ p ∈ q.partitions, p.2 = firstQueueMessageID ∨
        ∃ last q' range, pc = .deleteUpdate last q' range ∧ p.2 = range.newMinMessageID := by
  cases pc with
  | createInsert =>
    simp only [exec, createQueue, Option.some.injEq] at he
    split at he
    · cases he
      exact ⟨.nothing _, trivial, fun _ => .inl⟩
    cases he
    exact ⟨.metadata _ ⟨_, ht.first_le, rfl⟩, trivial, fun q hq => .inr (by cases hq; simp)⟩
  | enqueueGetQueue blob =>
    simp only [exec] at he
    split at he
    · cases he
      exact ⟨.nothing _, trivial, fun _ => .inl⟩
    cases he
    exact ⟨.nothing _, trivial, fun _ => .inl⟩
  | enqueueGetMax blob =>
    cases he
    exact ⟨.nothing _, t.held_next, fun _ => .inl⟩
  | enqueueInsert blob id =>
    simp only [exec, tryInsert, Option.some.injEq] at he
    split at he
    · next t'' hins =>
      cases he
      have hheld : t.Held (Message.mk id blob).messageID := h
      obtain ⟨hid, hq, hms⟩ := insertMessage_applied ht hheld hins
      obtain ⟨q, ms⟩ := t'
      simp only at hid hq hms
      subst hid hq hms
      refine ⟨.message blob, ?_, fun _ => .inl⟩
      show t.nextMessageID < _
      rw [nextMessageID_append]
      exact Int.lt_succ _
    cases he
    exact ⟨.nothing _, trivial, fun _ => .inl⟩
  | deleteGetQueue last =>
    cases h
    simp only [exec, getQueue] at he
    split at he
    · next q hq =>
      cases he
      split at hq
      · next q' hq' =>
        cases hq
        exact ⟨.nothing _, rangeDeleteFound_ok t (ht.below q hq') last, fun _ => .inl⟩
      · cases hq
    cases he
    exact ⟨.nothing _, trivial, fun _ => .inl⟩
  | deleteGetMax last q minMessageID =>
    obtain ⟨rfl, hq⟩ := h
    cases he
    exact ⟨.nothing _, rangeDeleteRange_ok hq last minMessageID, fun _ => .inl⟩
  | deleteRows last q range =>
    cases he
    have w : Writes t (.deleteRows last q range) _ := .deletion last q h.2.2.max_lt
    refine ⟨w, ⟨h.1, h.2.1, ?_⟩, fun _ => .inl⟩
    rw [nextMessageID_rangeDelete h.2.2.max_lt]
    exact h.2.2
  | deleteUpdate last q range =>
    obtain ⟨-, ⟨m, hq⟩, hr⟩ := h
    simp only [exec, updateQueue, Tables.updateQueue, hq, Option.some.injEq] at he
    split at he
    · next t'' hup =>
      cases he
      split at hup
      · split at hup
        · cases hup
          exact ⟨.metadata _ ⟨_, hr.newMin_le_next, rfl⟩, trivial, fun q hq => .inr (by cases hq; simp)⟩
        · cases hup
      · cases hup
    cases he
    exact ⟨.nothing _, trivial, fun _ => .inl⟩
  | pageGetQueue size token received =>
    simp only [exec] at he
    split at he
    · cases he
      exact ⟨.nothing _, pageFound_ok t h size _, fun _ => .inl⟩
    cases he
    exact ⟨.nothing _, h, fun _ => .inl⟩
  | pageSelect size minMessageID token received =>
    cases he
    exact ⟨.nothing _, pageRead_ok t h.2.1 h.2.2 (getMessages_increasing ht.increasing ..)
      fun m => minMessageID_le_of_mem, fun _ => .inl⟩
  | betweenPages token received | readAll received | done result => cases he

/-!
## Rows that deletions leave behind

The last message of a queue is never deleted, since the next ID is read off it. A later deletion begins at
`MinMessageId`, above the message that was kept, so every deletion up to the last message leaves one more row
behind (`rows_pileUp`), unless nothing was enqueued since the one before.
-/

open Lib

inductive Op where
  | enqueueMessage (blob : DataBlob)
  | rangeDeleteMessages (last : Int)

/-- A call of the Cassandra store that no other call interrupts. -/
def finish : Nat → Tables → Pc → Except Err Tables
  | _, t, .done (.ok _) => .ok t
  | _, _, .done (.error err) => .error err
  | 0, _, _ => .error .unavailable
  | n + 1, t, pc =>
    match exec t pc with
    | some (t, pc) => finish n t pc
    | none => .error .unavailable

def cassandra (t : Tables) : Op → Except Err Tables
  | .enqueueMessage blob => finish 3 t (Request.start (.enqueueMessage blob))
  | .rangeDeleteMessages last => finish 4 t (Request.start (.rangeDeleteMessages last))

/-- The transactions of the SQL store. Its metadata has no version. -/
def sql (t : Tables) : Op → Except Err Tables
  | .enqueueMessage blob => do
    let _ ← t.getQueue
    match t.insertMessage ⟨t.nextMessageID, blob⟩ with
    | some t => .ok t
    | none => .error .unavailable
  | .rangeDeleteMessages last =>
    if last < firstQueueMessageID then .error (.invalidRangeDeleteMaxMessageID last)
    else do
      let q ← t.getQueue
      let minMessageID ← getPartitionForQueueV2 q
      match t.getMaxMessageID.bind (getDeleteRange last minMessageID) with
      | none => .ok t
      | some range => .ok { t.rangeDelete range.minMessageID range.maxMessageID with
          queue := some { q with partitions := q.partitions.map fun p => (p.1, range.newMinMessageID) } }

/-- What a call does that succeeds. -/
inductive Effect (t : Tables) : Op → Tables → Prop where
  | enqueue (blob : DataBlob) : Effect t (.enqueueMessage blob)
      { t with messages := t.messages ++ [⟨t.nextMessageID, blob⟩] }
  | nothing (last : Int) : Effect t (.rangeDeleteMessages last) t
  | delete {q : Queue} {first max last version : Int} {range : DeleteRange} : t.queue = some q →
      q.partitions = [(0, first)] → t.getMaxMessageID = some max → getDeleteRange last first max = some range →
      Effect t (.rangeDeleteMessages last)
        { t.rangeDelete range.minMessageID range.maxMessageID with
          queue := some ⟨[(0, range.newMinMessageID)], version⟩ }

variable {t t' : Tables} {op : Op}

lemma enqueue_effect (ht : t.Inv) {blob} (h : t.insertMessage ⟨t.nextMessageID, blob⟩ = some t') :
    Effect t (.enqueueMessage blob) t' := by
  obtain ⟨-, hq, hm⟩ := insertMessage_applied ht t.held_next h
  obtain ⟨queue, messages⟩ := t'
  cases hq
  cases hm
  exact .enqueue blob

lemma getQueue_ok {q} (h : t.getQueue = .ok q) : t.queue = some q := by
  unfold getQueue at h
  split at h
  all_goals cases h
  assumption

lemma delete_effect (ht : t.Inv) {q first range last} (hq : t.queue = some q)
    (hfirst : getPartitionForQueueV2 q = .ok first)
    (hrange : t.getMaxMessageID.bind (getDeleteRange last first) = some range) (version : Int) :
    Effect t (.rangeDeleteMessages last) { t.rangeDelete range.minMessageID range.maxMessageID with
      queue := some ⟨q.partitions.map fun p => (p.1, range.newMinMessageID), version⟩ } := by
  obtain ⟨max, hmax, hrange⟩ := Option.bind_eq_some_iff.mp hrange
  obtain ⟨m, -, hm⟩ := ht.below q hq
  simp only [getPartitionForQueueV2, hm, length_singleton, ne_eq, not_true, if_false, lookup_cons_self] at hfirst
  cases hfirst
  rw [hm]
  exact .delete hq hm hmax hrange

lemma sql_effect (ht : t.Inv) (h : sql t op = .ok t') : Effect t op t' := by
  cases op with
  | enqueueMessage blob =>
    obtain ⟨q, -, h⟩ := bind_ok h
    split at h
    all_goals cases h
    exact enqueue_effect ht ‹_›
  | rangeDeleteMessages last =>
    rw [sql] at h
    split at h
    · cases h
    obtain ⟨q, hq, h⟩ := bind_ok h
    obtain ⟨first, hfirst, h⟩ := bind_ok h
    split at h
    all_goals cases h
    · exact .nothing last
    · exact delete_effect ht (getQueue_ok hq) hfirst ‹_› q.version

lemma cassandra_effect (ht : t.Inv) (h : cassandra t op = .ok t') : Effect t op t' := by
  cases op with
  | enqueueMessage blob =>
    cases hq : t.getQueue with
    | error err => simp [cassandra, Request.start, finish, exec, hq] at h
    | ok q =>
      simp only [cassandra, Request.start, finish, exec, hq, tryInsert] at h
      cases hi : t.insertMessage ⟨t.nextMessageID, blob⟩ with (simp only [hi, finish] at h; cases h)
      | some t' => exact enqueue_effect ht hi
  | rangeDeleteMessages last =>
    rw [cassandra, Request.start] at h
    split at h
    · cases h
    cases hq : t.getQueue with
    | error err => simp [finish, exec, hq] at h
    | ok q =>
      cases hfirst : getPartitionForQueueV2 q with
      | error err => simp [finish, exec, hq, rangeDeleteFound, hfirst] at h
      | ok first =>
        simp only [finish, exec, hq, rangeDeleteFound, hfirst, rangeDeleteRange] at h
        cases hrange : t.getMaxMessageID.bind (getDeleteRange last first) with
        | none =>
          simp only [hrange, finish] at h
          cases h
          exact .nothing last
        | some range =>
          simp only [hrange, finish, exec, updateQueue, Tables.updateQueue, rangeDelete, getQueue_ok hq, if_true] at h
          cases h
          exact delete_effect ht (getQueue_ok hq) hfirst hrange _

/-- How many rows have an ID below `MinMessageId`. -/
def Tables.leftBehind (t : Tables) : Nat :=
  match t.queue.map getPartitionForQueueV2 with
  | some (.ok first) => t.messages.countP (·.messageID < first)
  | _ => 0

/-- A deletion up to the last message finds no row left behind, or no other row. -/
def Once (t : Tables) : Op → Prop
  | .enqueueMessage _ => True
  | .rangeDeleteMessages last => t.nextMessageID ≤ last + 1 → t.leftBehind = 0 ∨ t.leftBehind = t.messages.length

instance (t : Tables) : DecidablePred (Once t)
  | .enqueueMessage _ => .isTrue trivial
  | .rangeDeleteMessages _ => inferInstanceAs (Decidable (_ → _))

lemma leftBehind_eq {q : Queue} {first} (hq : t.queue = some q) (hfirst : q.partitions = [(0, first)]) :
    t.leftBehind = t.messages.countP (·.messageID < first) := by
  simp [leftBehind, hq, getPartitionForQueueV2, hfirst]

lemma Effect.inv (h : Effect t op t') (ht : t.Inv) : t'.Inv := by
  cases h with
  | enqueue blob => exact (Writes.message blob).inv ht
  | nothing => exact ht
  | @delete q first max last version range hq hfirst hmax hrange =>
    have hok := getDeleteRange_ok hrange (show max + 1 = t.nextMessageID by simp [nextMessageID, hmax])
    have hrows := Writes.deletion last q hok.max_lt
    refine (Writes.metadata (.deleteUpdate last q range) ⟨range.newMinMessageID, ?_, rfl⟩).inv (hrows.inv ht)
    exact hok.newMin_le_next.trans hrows.next_le

lemma Increasing.countP_le_one {ms} (h : Increasing ms) (id : Int) : ms.countP (·.messageID == id) ≤ 1 := by
  have hnodup : (ms.map (·.messageID)).Nodup := pairwise_map.mpr (h.imp Int.ne_of_lt)
  simpa [count, countP_map, Function.comp_def] using nodup_iff_count_le_one.mp hnodup id

lemma Effect.leftBehind_le (h : Effect t op t') (ht : t.Inv) (honce : Once t op) (hle : t.leftBehind ≤ 1) :
    t'.leftBehind ≤ 1 := by
  cases h with
  | enqueue blob =>
    cases hq : t.queue with
    | none => simp [leftBehind]
    | some q =>
      obtain ⟨first, hle', hfirst⟩ := ht.below q hq
      rw [leftBehind_eq hq hfirst] at hle
      rw [leftBehind_eq rfl hfirst, countP_append]
      simpa [Int.not_lt.mpr hle'] using hle
  | nothing => exact hle
  | @delete q first max last version range hq hfirst hmax hrange =>
    have hnext : t.nextMessageID = max + 1 := by simp [nextMessageID, hmax]
    rw [Once, hnext, leftBehind_eq hq hfirst, countP_eq_zero] at honce
    rw [leftBehind_eq hq hfirst] at hle
    rw [leftBehind_eq rfl rfl, rangeDelete, countP_filter]
    unfold getDeleteRange at hrange
    split at hrange
    all_goals cases hrange
    obtain hlast | hlast := Int.lt_or_le last max
    · refine (countP_mono_left fun m hm hboth => ?_).trans hle
      simp at hboth ⊢
      omega
    obtain hnone | hall := honce (by omega)
    · refine (countP_mono_left fun m hm hboth => ?_).trans (ht.increasing.countP_le_one max)
      have := hnone m hm
      simp at hboth this ⊢
      omega
    · exact countP_le_length.trans (hall ▸ hle)

/-- The tables with a queue that was just created. -/
def created : Tables := (createQueue ⟨none, []⟩).1

theorem rows_bounded {store} (hstore : store = cassandra ∨ store = sql) {ops : List Op}
    (al : Along Once store created ops) (hr : run store created ops = .ok t) : t.leftBehind ≤ 1 := by
  have hnew : created.Inv := ⟨.nil, le_rfl, fun q hq => ⟨firstQueueMessageID, le_rfl, by cases hq; rfl⟩⟩
  have keep : ∀ t op t', t.Inv ∧ t.leftBehind ≤ 1 → Once t op → store t op = .ok t' → t'.Inv ∧ t'.leftBehind ≤ 1 := by
    intro t op t' ⟨ht, hle⟩ honce hs
    have heffect : Effect t op t' := by
      obtain rfl | rfl := hstore
      · exact cassandra_effect ht hs
      · exact sql_effect ht hs
    exact ⟨heffect.inv ht, heffect.leftBehind_le ht honce hle⟩
  exact (al.inv keep ⟨hnew, by decide⟩ hr).2

/-- Messages are added and deleted in turns, at last all of them. -/
def emptied : List Op :=
  [.enqueueMessage ⟨[], .proto3⟩, .enqueueMessage ⟨[], .proto3⟩, .rangeDeleteMessages 0, .enqueueMessage ⟨[], .proto3⟩,
    .rangeDeleteMessages 1, .enqueueMessage ⟨[], .proto3⟩, .rangeDeleteMessages 3]

theorem rows_bounded_kept :
    (∃ t, run cassandra created emptied = .ok t ∧ t.messages.length = 1 ∧ t.leftBehind ≤ 1) ∧
    ∃ t, run sql created emptied = .ok t ∧ t.messages.length = 1 ∧ t.leftBehind ≤ 1 := by
  have hc : run cassandra created emptied = .ok _ := rfl
  have hs : run sql created emptied = .ok _ := rfl
  exact ⟨⟨_, hc, rfl, rows_bounded (.inl rfl) (by decide) hc⟩, _, hs, rfl, rows_bounded (.inr rfl) (by decide) hs⟩

def twice : List Op :=
  [.enqueueMessage ⟨[], .proto3⟩, .rangeDeleteMessages 0, .enqueueMessage ⟨[], .proto3⟩, .rangeDeleteMessages 1]

/-- The same two calls again leave a second row behind, in both stores. -/
theorem rows_pileUp : leftBehind <$> run cassandra created twice = .ok 2 ∧
    leftBehind <$> run sql created twice = .ok 2 := ⟨rfl, rfl⟩

end FastOrchestration.Persistence.QueueV2
