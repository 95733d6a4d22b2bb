import FastOrchestration.Persistence.QueueV2Laws

/-!
# What the message queue keeps

`queue_losesNothing`: in every run whose `DELETE` statements stay below the IDs that running enqueues
have chosen, no ID is given twice, a message that is missing in a later complete read was deleted by a
call that was running or began after its enqueue, and complete reads are in increasing order.

The condition is needed. `EnqueueMessage` reads the largest ID and inserts in two statements, and
`IF NOT EXISTS` notices a concurrent enqueue only while that row is there. If others have enqueued past
the ID and a deletion has removed the row in between, the insert succeeds: the ID is given twice and the
message lies below `MinMessageId` (`deletedID_givenTwice`).
-/

namespace FastOrchestration.Persistence.QueueV2

open Lib List Store

/-! ### Runs -/

def Store.Enqueued (s : Store) (i : Nat) (m : Message) : Prop :=
  ∃ c, s.calls[i]? = some c ∧ c.pc = .done (.ok (.enqueued m.messageID m.data))

instance (s : Store) (i : Nat) (m : Message) : Decidable (s.Enqueued i m) :=
  decidable_of_iff (s.calls[i]?.map (·.pc) = some (.done (.ok (.enqueued m.messageID m.data))))
    (by simp [Enqueued])

structure Store.Inv (s : Store) : Prop where
  tables : s.tables.Inv
  calls : ∀ c ∈ s.calls, c.pc.Ok s.tables c.request
  unique : ∀ i j m m', s.Enqueued i m → s.Enqueued j m' → m.messageID = m'.messageID → i = j

/-- A `DELETE` statement stays below the IDs that running enqueues have chosen. -/
def BelowChosen (s : Store) : Event → Prop
  | .exec i => ∀ c ∈ s.calls[i]?, ∀ hi ∈ c.pc.deletesTo, ∀ c' ∈ s.calls, ∀ id ∈ c'.pc.chosenID, hi < id
  | _ => True

instance (s : Store) (e : Event) : Decidable (BelowChosen s e) := by
  cases e <;> (unfold BelowChosen; infer_instance)

lemma inv_newStore : newStore.Inv :=
  ⟨⟨List.Pairwise.nil, Int.le_refl _, by simp [newStore]⟩, by simp [newStore],
    fun i j m m' ⟨c, hc, _⟩ => by simp [newStore] at hc⟩

lemma getElem?_append_some {calls : List Call} {k : Nat} {c c' : Call} (h : calls[k]? = some c) :
    (calls ++ [c'])[k]? = some c := by
  rw [List.getElem?_append_left (List.getElem?_eq_some_iff.mp h).1]
  exact h

/-- A call moves on, and the other calls keep what they know. -/
lemma Store.Inv.setPc {s : Store} {i} {c : Call} {t} {pc pc' : Pc} (hs : s.Inv) (w : Writes s.tables pc' t)
    (hpc : pc.Ok t c.request) (hd : ∀ hi ∈ pc'.deletesTo, ∀ c' ∈ s.calls, ∀ id ∈ c'.pc.chosenID, hi < id) :
    t.Inv ∧ ∀ c' ∈ (s.setPc i c t pc).calls, c'.pc.Ok t c'.request := by
  refine ⟨w.inv hs.tables, fun c' hc' => ?_⟩
  rcases mem_or_eq_of_mem_set hc' with h | rfl
  · exact (hs.calls c' h).mono w fun hi hhi => hd hi hhi c' h
  · exact hpc

variable {t t' : Tables} {pc : Pc}

lemma exec_enqueued {pc id blob} (he : exec t pc = some (t', .done (.ok (.enqueued id blob)))) :
    pc = .enqueueInsert blob id ∧ t.insertMessage ⟨id, blob⟩ = some t' := by
  cases pc with
  | enqueueInsert b n =>
    simp only [exec, tryInsert, Option.some.injEq] at he
    split at he
    · next t'' h =>
      cases he
      exact ⟨rfl, h⟩
    · cases he
  | createInsert | enqueueGetQueue b | deleteGetQueue last | deleteGetMax last q m | deleteUpdate last q range
  | pageGetQueue size token received | pageSelect size m token received =>
    simp only [exec, createQueue, rangeDeleteFound, rangeDeleteRange, updateQueue, pageFound, pageRead] at he
    repeat' split at he
    all_goals cases he
  | enqueueGetMax b | deleteRows last q range | betweenPages token received | readAll received
  | done result => cases he

lemma Pc.fail_enqueued {r} (h : pc.fail = .done (.ok r)) : pc = .done (.ok r) := by
  cases pc with
  | done result => exact h
  | _ => cases h

lemma Request.start_ne_done (request : Request) (r : Response) : request.start ≠ .done (.ok r) := by
  intro h
  cases request with
  | rangeDeleteMessages last =>
    simp only [Request.start] at h
    split at h <;> cases h
  | _ => cases h

/-- A message is enqueued by its insert, under the next ID. -/
lemma enqueued_cases {s s' : Store} {e i m} (hs : s.Inv) (hstep : step s e = .ok s') (h : s'.Enqueued i m) :
    s.Enqueued i m ∨ e = .exec i ∧ m.messageID = s.tables.nextMessageID ∧ s'.tables.queue = s.tables.queue ∧
      s'.tables.messages = s.tables.messages ++ [m] := by
  obtain ⟨c', hc', hpc'⟩ := h
  cases step_moves hstep with
  | start request =>
    rcases getElem?_concat_cases hc' with hc' | ⟨-, rfl⟩
    · exact .inl ⟨c', hc', hpc'⟩
    · exact absurd hpc' (request.start_ne_done _)
  | fetch hc hpc =>
    rcases getElem?_set_cases hc' with ⟨rfl, rfl⟩ | ⟨-, hc'⟩
    · cases hpc'
    · exact .inl ⟨c', hc', hpc'⟩
  | @fail j c hc =>
    rcases getElem?_set_cases hc' with ⟨rfl, rfl⟩ | ⟨-, hc'⟩
    · exact .inl ⟨c, hc, Pc.fail_enqueued hpc'⟩
    · exact .inl ⟨c', hc', hpc'⟩
  | @exec j c t pc hc he =>
    rcases getElem?_set_cases hc' with ⟨rfl, rfl⟩ | ⟨-, hc'⟩
    · obtain rfl : pc = _ := hpc'
      obtain ⟨hpc, hins⟩ := exec_enqueued he
      have hok := hs.calls c (mem_of_getElem? hc)
      rw [hpc] at hok
      exact .inr ⟨rfl, insertMessage_applied hs.tables hok hins⟩
    · exact .inl ⟨c', hc', hpc'⟩

lemma step_inv (s : Store) (e : Event) (s' : Store) (hs : s.Inv) (hb : BelowChosen s e)
    (h : step s e = .ok s') : s'.Inv := by
  obtain ⟨htables, hcalls⟩ : s'.tables.Inv ∧ ∀ c ∈ s'.calls, c.pc.Ok s'.tables c.request := by
    cases step_moves h with
    | start request => exact ⟨hs.tables, forall_mem_append.mpr ⟨hs.calls, forall_mem_singleton.mpr (request.start_ok _)⟩⟩
    | @fetch i pageSize c token received hc hpc =>
      have hok := hs.calls c (mem_of_getElem? hc)
      rw [hpc] at hok
      exact hs.setPc (.nothing (.readAll [])) hok nofun
    | @exec i c t pc hc he =>
      obtain ⟨w, hpc, -⟩ := exec_spec hs.tables (hs.calls c (mem_of_getElem? hc)) he
      exact hs.setPc w hpc (hb c hc)
    | @fail i c hc => exact hs.setPc (.nothing (.readAll [])) (hs.calls c (mem_of_getElem? hc)).fail nofun
  have lt_next : ∀ k m, s.Enqueued k m → m.messageID < s.tables.nextMessageID := by
    rintro k m ⟨c', hc', hpc'⟩
    have := hs.calls c' (mem_of_getElem? hc')
    rw [hpc'] at this
    exact this
  refine ⟨htables, hcalls, fun k l m m' hk hl heq => ?_⟩
  rcases enqueued_cases hs h hk with hk | ⟨rfl, hk, -⟩
  · rcases enqueued_cases hs h hl with hl | ⟨-, hl, -⟩
    · exact hs.unique k l m m' hk hl heq
    · have := lt_next k m hk
      omega
  rcases enqueued_cases hs h hl with hl | ⟨he, -⟩
  · have := lt_next l m' hl
    omega
  · exact Event.exec.inj he

/-! ### A message after its enqueue -/

def Pc.running : Pc → Bool
  | .done _ => false
  | _ => true

/-- A deletion up to `id` or more that was running in `s₂` or that began after it. -/
def DeletedSince (s₂ s : Store) (id : Int) : Prop :=
  ∃ (k : Nat) (c : Call) (last : Int), s.calls[k]? = some c ∧ c.request = .rangeDeleteMessages last ∧ id ≤ last ∧
    ∀ c₂ : Call, s₂.calls[k]? = some c₂ → c₂.pc.running = true

/-- A paged read has received `m` or has not come to it yet. -/
def Pc.Sees (m : Message) : Pc → Prop
  | .betweenPages token received | .pageGetQueue _ token received =>
    m ∈ received ∨ ∀ l ∈ token, l < m.messageID
  | .pageSelect _ minMessageID token received =>
    m ∈ received ∨ (minMessageID ≤ m.messageID ∧ ∀ l ∈ token, l < m.messageID)
  | .readAll received => m ∈ received
  | _ => True

/-- `m` is stored and visible, and the reads that began after `s₂` do not miss it. -/
structure Kept (s₂ : Store) (m : Message) (s : Store) : Prop where
  first_le : firstQueueMessageID ≤ m.messageID
  row : m ∈ s.tables.messages
  visible : ∀ q, s.tables.queue = some q → ∀ p ∈ q.partitions, p.2 ≤ m.messageID
  ended : ∀ (k : Nat) (c : Call), s₂.calls[k]? = some c → c.pc.running = false → s.calls[k]? = some c
  reads : ∀ (k : Nat) (c : Call), s₂.calls.length ≤ k → s.calls[k]? = some c → c.pc.Sees m

lemma Request.start_sees (m : Message) (request : Request) : request.start.Sees m := by
  cases request with
  | rangeDeleteMessages last =>
    simp only [Request.start]
    split <;> trivial
  | readAllMessages => exact .inr (by simp)
  | _ => trivial

lemma Pc.Sees.fail {m} (h : pc.Sees m) : pc.fail.Sees m := by
  cases pc with
  | pageSelect size minMessageID token received => exact h.imp_right And.right
  | pageGetQueue size token received | betweenPages token received | readAll received => exact h
  | done result => trivial
  | _ => trivial

variable {m : Message}

lemma pageFound_sees {token received} {q : Queue} (hq : ∀ p ∈ q.partitions, p.2 ≤ m.messageID)
    (pageSize : Int) (h : m ∈ received ∨ ∀ l ∈ token, l < m.messageID) :
    (pageFound pageSize token received q).Sees m := by
  simp only [pageFound]
  split
  · exact h
  split
  · next minMessageID hmin =>
    refine h.imp_right fun hl => ⟨?_, hl⟩
    cases token with
    | some l =>
      cases hmin
      exact hl l rfl
    | none =>
      simp only [getMinMessageIDToReadForQueueV2, getPartitionForQueueV2] at hmin
      split at hmin
      · cases hmin
      split at hmin
      · next hlk =>
        cases hmin
        obtain ⟨a, b, hp, -⟩ := lookup_eq_some_iff.mp hlk
        exact hq (0, minMessageID) (by simp [hp])
      · cases hmin
  · exact h

lemma getMessages_covers (ht : Increasing t.messages) (hm : m ∈ t.messages) {minMessageID}
    (hle : minMessageID ≤ m.messageID) {limit} (hlimit : 0 < limit) : m ∈ t.getMessages minMessageID limit ∨
      ∃ token, getNextPageTokenForReadMessages (t.getMessages minMessageID limit) = some token ∧
        token < m.messageID := by
  have hm' : m ∈ t.messages.filter fun m => minMessageID ≤ m.messageID := by simp [hm, hle]
  have hinc : Increasing (t.messages.filter fun m => minMessageID ≤ m.messageID) := ht.filter _
  simp only [Tables.getMessages]
  generalize (t.messages.filter fun m => minMessageID ≤ m.messageID) = rows at hm' hinc
  rw [← take_append_drop limit rows] at hm' hinc
  rcases mem_append.mp hm' with h | h
  · exact .inl h
  refine .inr ?_
  cases hlast : (rows.take limit).getLast? with
  | none =>
    rw [getLast?_eq_none_iff, take_eq_nil_iff] at hlast
    rcases hlast with h0 | hnil
    · omega
    · simp [hnil] at h
  | some last =>
    refine ⟨last.messageID, by simp [getNextPageTokenForReadMessages, hlast], ?_⟩
    exact (pairwise_append.mp hinc).2.2 last (mem_of_getLast? hlast) m h

lemma pageRead_sees (ht : Increasing t.messages) (hm : m ∈ t.messages)
    {token received minMessageID limit} (hlimit : 0 < limit)
    (h : m ∈ received ∨ (minMessageID ≤ m.messageID ∧ ∀ l ∈ token, l < m.messageID)) :
    (pageRead token received (t.getMessages minMessageID limit)).Sees m := by
  simp only [pageRead]
  split
  · have covers := fun hle : minMessageID ≤ m.messageID => getMessages_covers ht hm hle hlimit
    split
    · next hnone =>
      rcases h with h | ⟨hle, -⟩
      · exact h
      rcases covers hle with hin | ⟨l, hl, -⟩
      · rw [getNextPageTokenForReadMessages, Option.map_eq_none_iff, getLast?_eq_none_iff] at hnone
        simp [hnone] at hin
      · cases hnone.symm.trans hl
    next l hl =>
    rcases h with h | ⟨hle, -⟩
    · exact .inl (by simp [h])
    rcases covers hle with hin | ⟨l', hl', hlt⟩
    · exact .inl (by simp [hin])
    cases hl.symm.trans hl'
    exact .inr (by simpa using hlt)
  · exact h.imp_right And.right

lemma exec_sees {request} {pc pc' : Pc} (ht : t.Inv) (hok : pc.Ok t request)
    (hm : m ∈ t.messages) (hq : ∀ q, t.queue = some q → ∀ p ∈ q.partitions, p.2 ≤ m.messageID)
    (h : pc.Sees m) (he : exec t pc = some (t', pc')) : pc'.Sees m := by
  cases pc with
  | pageGetQueue size token received =>
    simp only [exec, Tables.getQueue] at he
    split at he
    · next q hget =>
      cases he
      split at hget
      · next q' hq' =>
        cases hget
        exact pageFound_sees (hq q hq') size h
      · cases hget
    cases he
    exact h
  | pageSelect size minMessageID token received =>
    cases he
    have hsize : 0 < size := hok.1
    exact pageRead_sees ht.increasing hm (by omega) h
  | createInsert | enqueueGetQueue blob | enqueueInsert blob id | deleteGetQueue last
  | deleteGetMax last q minMessageID | deleteUpdate last q range =>
    simp only [exec, createQueue, tryInsert, rangeDeleteFound, rangeDeleteRange, updateQueue] at he
    repeat' split at he
    all_goals (cases he; trivial)
  | enqueueGetMax blob | deleteRows last q range =>
    cases he
    trivial
  | betweenPages token received | readAll received | done result => cases he

lemma Writes.mem (w : Writes t pc t')
    (hm : m ∈ t.messages) (hd : ∀ hi ∈ pc.deletesTo, hi < m.messageID) : m ∈ t'.messages := by
  cases w with
  | nothing => exact hm
  | metadata => exact hm
  | message => exact mem_append_left _ hm
  | deletion last q hr =>
    have := hd _ rfl
    refine mem_filter.mpr ⟨hm, ?_⟩
    simp
    omega

lemma Kept.setPc {s2 s : Store} (h : Kept s2 m s) {i} {c : Call} (hc : s.calls[i]? = some c) (hrun : c.pc.running ∨ pc = c.pc)
    (hm : m ∈ t.messages) (hq : ∀ q, t.queue = some q → ∀ p ∈ q.partitions, p.2 ≤ m.messageID)
    (hpc : c.pc.Sees m → pc.Sees m) : Kept s2 m (s.setPc i c t pc) := by
  refine ⟨h.first_le, hm, hq, fun k c2 hc2 hend => ?_, fun k c' hk hc' => ?_⟩
  · have hs := h.ended k c2 hc2 hend
    simp only [Store.setPc, getElem?_set]
    split
    · next hik =>
      subst hik
      cases hc.symm.trans hs
      rcases hrun with hrun | rfl
      · rw [hend] at hrun
        cases hrun
      · simp [(List.getElem?_eq_some_iff.mp hc).1]
    · exact hs
  rcases getElem?_set_cases hc' with ⟨rfl, rfl⟩ | ⟨-, hc'⟩
  · exact hpc (h.reads k c hk hc)
  · exact h.reads k c' hk hc'

lemma exec_running {t} {r} (he : exec t pc = some r) : pc.running := by
  cases pc with
  | done result => cases he
  | _ => rfl

lemma step_kept {s2 s s' : Store} {e} (hs : s.Inv) (h : Kept s2 m s)
    (hstep : step s e = .ok s') : DeletedSince s2 s' m.messageID ∨ Kept s2 m s' := by
  cases step_moves hstep with
  | start request =>
    refine .inr ⟨h.first_le, h.row, h.visible, fun k c hc hend => ?_, fun k c hk hc => ?_⟩
    · exact getElem?_append_some (h.ended k c hc hend)
    rcases getElem?_concat_cases hc with hc | ⟨-, rfl⟩
    · exact h.reads k c hk hc
    · exact request.start_sees m
  | @fetch i pageSize c token received hc hpc =>
    refine .inr (h.setPc hc (.inl ?_) h.row h.visible ?_)
    · rw [hpc]
      rfl
    rw [hpc]
    exact id
  | @fail i c hc =>
    refine .inr (h.setPc hc ?_ h.row h.visible Pc.Sees.fail)
    cases hpc : c.pc with
    | done result => exact .inr rfl
    | _ => exact .inl rfl
  | @exec i c t pc hc he =>
    have hok := hs.calls c (mem_of_getElem? hc)
    by_cases hdel : ∃ last, c.request = .rangeDeleteMessages last ∧ m.messageID ≤ last
    · obtain ⟨last, hreq, hle⟩ := hdel
      have hi : i < s.calls.length := (List.getElem?_eq_some_iff.mp hc).1
      refine .inl ⟨i, ⟨c.request, pc⟩, last, by simp [setPc, hi], hreq, hle, fun c2 hc2 => ?_⟩
      cases hrun : c2.pc.running with
      | true => rfl
      | false =>
        cases hc.symm.trans (h.ended i c2 hc2 hrun)
        rw [exec_running he] at hrun
        cases hrun
    have below : ∀ last, c.request = .rangeDeleteMessages last → last < m.messageID := by
      intro last hreq
      exact Int.not_le.mp fun hle => hdel ⟨last, hreq, hle⟩
    obtain ⟨w, -, hqueue⟩ := exec_spec hs.tables hok he
    refine .inr (h.setPc hc (.inl (exec_running he)) (w.mem h.row ?_) (fun q hq p hp => ?_)
      fun hsees => exec_sees hs.tables hok h.row h.visible hsees he)
    · intro hi hhi
      cases hpc : c.pc with
      | deleteRows last q range =>
        rw [hpc] at hok hhi
        cases hhi
        exact lt_of_le_of_lt hok.2.2.max_le (below last hok.1)
      | _ =>
        rw [hpc] at hhi
        cases hhi
    -- the visible range shrinks by the last statement of a deletion only
    obtain hold | hnew := hqueue q hq
    · exact h.visible q hold p hp
    obtain heq | ⟨last, q', range, hpc, heq⟩ := hnew p hp
    · exact heq.trans_le h.first_le
    rw [hpc] at hok
    have := below last hok.1
    have := hok.2.2.newMin_le
    omega

lemma DeletedSince.step {s2 s s' e id} (h : DeletedSince s2 s id)
    (hstep : step s e = .ok s') : DeletedSince s2 s' id := by
  obtain ⟨k, c, last, hc, hreq, hle, hrun⟩ := h
  have moved : ∀ i c' t pc, s.calls[i]? = some c' → DeletedSince s2 (s.setPc i c' t pc) id := by
    intro i c' t pc hc'
    by_cases hik : i = k
    · subst hik
      cases hc.symm.trans hc'
      have hi : i < s.calls.length := (List.getElem?_eq_some_iff.mp hc).1
      exact ⟨i, ⟨c.request, pc⟩, last, by simp [setPc, hi], hreq, hle, hrun⟩
    · exact ⟨k, c, last, by simp [setPc, hik, hc], hreq, hle, hrun⟩
  cases step_moves hstep with
  | start request => exact ⟨k, c, last, getElem?_append_some hc, hreq, hle, hrun⟩
  | fetch hc' | exec hc' | fail hc' => exact moved _ _ _ _ hc'

lemma step_enqueued {s s' : Store} {e i m} (hs : s.Inv) (hstep : step s e = .ok s')
    (hbefore : ¬ s.Enqueued i m) (hafter : s'.Enqueued i m) : Kept s' m s' := by
  obtain ⟨-, hid, hq, hms⟩ := (enqueued_cases hs hstep hafter).resolve_left hbefore
  refine ⟨hid ▸ hs.tables.first_le, by simp [hms], fun q hq' p hp => ?_, fun k c h _ => h, fun k c hk hc => ?_⟩
  · rw [hq] at hq'
    obtain ⟨lo, hlo, hparts⟩ := hs.tables.below q hq'
    rw [hparts, mem_singleton] at hp
    rw [hp, hid]
    exact hlo
  rw [getElem?_eq_none hk] at hc
  cases hc

/-- What the queue promises at the end of a run. -/
theorem queue_losesNothing {es : List Event} {s : Store} (al : Along BelowChosen step newStore es)
    (hr : run step newStore es = .ok s) :
    -- an ID is given to one message
    (∀ i j m m', s.Enqueued i m → s.Enqueued j m' → m.messageID = m'.messageID → i = j) ∧
    -- a read that begins after an enqueue and completes has its message, unless that was deleted
    (∀ es₁ e es₂ s₁ s₂, es = es₁ ++ e :: es₂ → run step newStore es₁ = .ok s₁ → step s₁ e = .ok s₂ →
      ∀ i m, ¬ s₁.Enqueued i m → s₂.Enqueued i m →
      ∀ (k : Nat) (c : Call) (received : List Message), s₂.calls.length ≤ k → s.calls[k]? = some c →
        c.pc = .readAll received → m ∈ received ∨ DeletedSince s₂ s m.messageID) ∧
    -- a complete read is in order and without duplicates
    (∀ c ∈ s.calls, ∀ received, c.pc = .readAll received → Increasing received) := by
  have hs := al.inv step_inv inv_newStore hr
  refine ⟨hs.unique, ?_, ?_⟩
  · intro es₁ e es₂ s₁ s₂ hes hr₁ hstep i m hbefore hafter k c received hk hc hpc
    subst hes
    obtain ⟨t, ht, hrest⟩ := run_append hr
    cases hr₁.symm.trans ht
    have al₁ := al.append ht
    have hs₁ : s₁.Inv := al.of_append.inv step_inv inv_newStore ht
    simp only [run, hstep] at hrest
    simp only [Along, hstep] at al₁
    have hs₂ := step_inv s₁ e s₂ hs₁ al₁.1 hstep
    have kept := al₁.2.inv (I := fun s => s.Inv ∧ (DeletedSince s₂ s m.messageID ∨ Kept s₂ m s))
      (fun s e s' hs hb hstep => ⟨step_inv s e s' hs.1 hb hstep,
        hs.2.elim (fun hd => .inl (hd.step hstep)) fun hk => step_kept hs.1 hk hstep⟩)
      ⟨hs₂, .inr (step_enqueued hs₁ hstep hbefore hafter)⟩ hrest
    rcases kept.2 with hd | hkept
    · exact .inr hd
    have := hkept.reads k c hk hc
    rw [hpc] at this
    exact .inl this
  intro c hc received hpc
  have := hs.calls c hc
  rw [hpc] at this
  exact this

def statements (i n : Nat) : List Event := List.replicate n (.exec i)

def bytes (b : UInt8) : DataBlob := ⟨[b], .proto3⟩

/-- Two enqueues that race for one ID, a deletion between two others, and a read in pages of one. -/
def interleaved : List Event :=
  [.start .createQueue, .exec 0, .start (.enqueueMessage (bytes 1)), .start (.enqueueMessage (bytes 2))] ++
  statements 1 2 ++ statements 2 2 ++ [.exec 1, .exec 2] ++
  .start (.enqueueMessage (bytes 3)) :: statements 3 3 ++
  .start (.rangeDeleteMessages 0) :: statements 4 3 ++
  .start (.enqueueMessage (bytes 4)) :: statements 5 3 ++ .exec 4 ::
  .start .readAllMessages :: .fetch 6 1 :: statements 6 2 ++ .fetch 6 0 :: statements 6 1 ++
  .fetch 6 1 :: statements 6 2 ++ .fetch 6 1 :: statements 6 2

theorem queue_losesNothing_interleaved : Along BelowChosen step newStore interleaved ∧
    ∃ s, run step newStore interleaved = .ok s ∧
      s.Enqueued 1 ⟨0, bytes 1⟩ ∧ s.Enqueued 3 ⟨1, bytes 3⟩ ∧ s.Enqueued 5 ⟨2, bytes 4⟩ ∧
      ⟨.readAllMessages, .readAll [⟨1, bytes 3⟩, ⟨2, bytes 4⟩]⟩ ∈ s.calls ∧
      (∀ j m, s.Enqueued j m → m.messageID = 1 → j = 3) ∧
      Increasing [⟨1, bytes 3⟩, ⟨2, bytes 4⟩] := by
  have al : Along BelowChosen step newStore interleaved := by decide +kernel
  obtain ⟨s, hr, h₁, h₃, h₅, hread⟩ : ∃ s, run step newStore interleaved = .ok s ∧
      s.Enqueued 1 ⟨0, bytes 1⟩ ∧ s.Enqueued 3 ⟨1, bytes 3⟩ ∧ s.Enqueued 5 ⟨2, bytes 4⟩ ∧
      ⟨.readAllMessages, .readAll [⟨1, bytes 3⟩, ⟨2, bytes 4⟩]⟩ ∈ s.calls := by decide +kernel
  obtain ⟨unique, -, ordered⟩ := queue_losesNothing al hr
  exact ⟨al, s, hr, h₁, h₃, h₅, hread, fun j m hj hm => unique j 3 m _ hj h₃ hm, ordered _ hread _ rfl⟩

/-- Call 2 chooses ID 1 and waits; calls 3 and 4 take the IDs 1 and 2, and call 5 deletes up to 1. -/
def lateInsert : List Event :=
  [.start .createQueue, .exec 0, .start (.enqueueMessage (bytes 1))] ++ statements 1 3 ++
  .start (.enqueueMessage (bytes 2)) :: statements 2 2 ++
  .start (.enqueueMessage (bytes 3)) :: statements 3 3 ++
  .start (.enqueueMessage (bytes 4)) :: statements 4 3 ++
  .start (.rangeDeleteMessages 1) :: statements 5 4

def readBack : List Event :=
  .start .readAllMessages :: .fetch 6 10 :: statements 6 2 ++ .fetch 6 10 :: statements 6 2

/-- The late insert succeeds: its ID has been given before, and no read will return its message,
although the deletion ended before it. -/
theorem deletedID_givenTwice : ∃ s₁ s₂ s, run step newStore lateInsert = .ok s₁ ∧ step s₁ (.exec 2) = .ok s₂ ∧
      run step s₂ readBack = .ok s ∧
      s.Enqueued 3 ⟨1, bytes 3⟩ ∧ ¬ s₁.Enqueued 2 ⟨1, bytes 2⟩ ∧ s₂.Enqueued 2 ⟨1, bytes 2⟩ ∧
      s.calls[6]? = some ⟨.readAllMessages, .readAll [⟨2, bytes 4⟩]⟩ ∧ ¬ DeletedSince s₂ s 1 := by
  obtain ⟨s₁, hr₁, hbefore, s₂, hr₂, hafter, hended, s, hr₃, h₃, hread, hreqs⟩ : ∃ s₁,
      run step newStore lateInsert = .ok s₁ ∧ ¬ s₁.Enqueued 2 ⟨1, bytes 2⟩ ∧
      ∃ s₂, step s₁ (.exec 2) = .ok s₂ ∧ s₂.Enqueued 2 ⟨1, bytes 2⟩ ∧ s₂.calls[5]?.map (·.pc.running) = some false ∧
      ∃ s, run step s₂ readBack = .ok s ∧ s.Enqueued 3 ⟨1, bytes 3⟩ ∧
        s.calls[6]? = some ⟨.readAllMessages, .readAll [⟨2, bytes 4⟩]⟩ ∧
        s.calls.map (·.request) = [.createQueue, .enqueueMessage (bytes 1), .enqueueMessage (bytes 2),
          .enqueueMessage (bytes 3), .enqueueMessage (bytes 4), .rangeDeleteMessages 1,
          .readAllMessages] := by decide +kernel
  refine ⟨s₁, s₂, s, hr₁, hr₂, hr₃, h₃, hbefore, hafter, hread, ?_⟩
  rintro ⟨k, c, last, hc, hreq, -, hrun⟩
  have hk : (s.calls.map (·.request))[k]? = some (.rangeDeleteMessages last) := by simp [hc, hreq]
  rw [hreqs] at hk
  -- call 5 is the only deletion, and it has ended
  have hk5 : k = 5 := by
    rcases k with _ | _ | _ | _ | _ | _ | _ | k <;> simp at hk ⊢
  subst hk5
  obtain ⟨c₂, hc₂, hpc₂⟩ := Option.map_eq_some_iff.mp hended
  rw [hrun c₂ hc₂] at hpc₂
  cases hpc₂

end FastOrchestration.Persistence.QueueV2
