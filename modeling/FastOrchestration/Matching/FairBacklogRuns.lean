import FastOrchestration.Matching.FairBacklog

/-!
# The fair backlog loses no task

`fairBacklog_losesNothing`: in every run in which a task whose completion is recorded after it was
respooled is still outstanding, a task that was reported as written and is neither completed nor expired
is above the ack level, is not deleted, and is outstanding or still to be merged if it is at or below the
read level.

The condition is needed. `completeTask` looks the task up before it respools it, but not again when it
records the completion. If the task was evicted in between, the ack lands above the read level, and the
ack level jumps to it over tasks that have not been read (`evictedAck_jumps`).
-/

namespace FastOrchestration.Matching

open Lib List SortedMap FairTaskReader

def WriterPhase.toMerge (subqueue : Nat) : WriterPhase → List AllocatedTask
  | created reqs => tasksOf subqueue reqs
  | _ => []

def WriterPhase.ids : WriterPhase → List Int
  | allocating assigned _ => assigned.map (·.2)
  | _ => []

def WriterPhase.Ok (subqueue : Nat) (L : Ledger) (tr : FairTaskReader) : WriterPhase → Prop
  | creating reqs =>
    tr.ackLevelPinnedByWriter ∧ ∀ t ∈ tasksOf subqueue reqs, t ∈ L.issued ∧ tr.ackLevel < t.1
  | created reqs => tr.ackLevelPinnedByWriter ∧ ∀ t ∈ tasksOf subqueue reqs, t ∈ L.issued
  | _ => True

namespace FairBacklog

structure Inv (s : FairBacklog) : Prop where
  ledger : s.ledger.Ok
  safe : s.tr.Safe s.ledger s.env.now (s.writer.toMerge s.subqueue)
  rows : ∀ t ∈ s.rows, t ∈ s.ledger.issued
  limbo : ∀ t ∈ s.limbo, t ∈ s.ledger.issued
  stored : ∀ t, s.ledger.Owed s.env.now t → t ∈ s.rows
  block : s.taskIDBlock.last = s.rangeID * rangeSize ∧ s.taskIDBlock.start ≤ s.taskIDBlock.last + 1
  fresh : ∀ id ∈ s.taskIDBlock.start :: s.writer.ids,
    1 ≤ id ∧ s.tr.ackLevel.id < id ∧ ∀ t ∈ s.ledger.issued, t.1.id < id
  ids : s.writer.ids.Pairwise (· < ·) ∧ ∀ id ∈ s.writer.ids, id < s.taskIDBlock.start
  writer : s.writer.Ok s.subqueue s.ledger s.tr

/-- What the backlog owes is not at or below the ack level, is in persistence, and is in memory or still
to be merged if it is at or below the read level. -/
structure LosesNothing (s : FairBacklog) : Prop where
  above : ∀ t, s.ledger.Owed s.env.now t → s.tr.ackLevel < t.1
  stored : ∀ t, s.ledger.Owed s.env.now t → t ∈ s.rows
  held : ∀ t, s.ledger.Owed s.env.now t → t.1 ≤ s.tr.readLevel → s.tr.Holds (s.writer.toMerge s.subqueue) t

def StillOutstanding (s : FairBacklog) : Event → Prop
  | .respooled t => (s.tr.outstandingTasks.get? t.1).isSome
  | _ => True

instance (s : FairBacklog) (e : Event) : Decidable (s.StillOutstanding e) := by
  cases e <;> (unfold StillOutstanding; infer_instance)

variable {s : FairBacklog} {reqs : List (WriteTaskRequest × FairLevel)}

/-- Nothing is to be merged from the writer unless the ack level is pinned. -/
lemma Inv.not_pending (h : s.Inv) (hpin : s.tr.ackLevelPinnedByWriter = false) (t : AllocatedTask) :
    t ∉ s.writer.toMerge s.subqueue := by
  have hw := h.writer
  cases hs : s.writer with
  | created reqs =>
    rw [hs] at hw
    exact absurd hw.1 (by simp [hpin])
  | _ => exact not_mem_nil

lemma Inv.queues (h : s.Inv) (appendCh : List WriteTaskRequest) (respooling respooled : List AllocatedTask) :
    Inv { s with appendCh, respooling, respooled } :=
  { h with }

lemma Inv.setWriter (h : s.Inv) {w : WriterPhase} (hm : w.toMerge s.subqueue = s.writer.toMerge s.subqueue)
    (hids : ∀ id ∈ w.ids, id ∈ s.writer.ids) (hsorted : w.ids.Pairwise (· < ·))
    (hw : w.Ok s.subqueue s.ledger s.tr) : Inv { s with writer := w } := by
  refine ⟨h.ledger, ?_, h.rows, h.limbo, h.stored, h.block, ?_, ⟨hsorted, fun id hid => h.ids.2 id (hids id hid)⟩, hw⟩
  · simpa only [hm] using h.safe
  rintro id (_ | ⟨_, hid⟩)
  · exact h.fresh _ mem_cons_self
  · exact h.fresh id (mem_cons_of_mem _ (hids id hid))

lemma Inv.setReader (h : s.Inv) {tr : FairTaskReader}
    (hsec : Section s.ledger s.env.now (s.writer.toMerge s.subqueue) s.tr tr) : Inv { s with tr } := by
  obtain ⟨hsafe, hpin, hack⟩ := hsec
  refine { h with safe := hsafe, fresh := ?_, writer := ?_ }
  · intro id hid
    obtain ⟨hpos, hlt, hissued⟩ := h.fresh id hid
    rcases hack with hack | ⟨-, d, hd⟩
    · exact ⟨hpos, by simpa only [hack] using hlt, hissued⟩
    · exact ⟨hpos, hissued _ hd, hissued⟩
  have hw := h.writer
  cases hs : s.writer with
  | creating reqs =>
    rw [hs] at hw
    rcases hack with hack | ⟨hno, -⟩
    · exact ⟨hpin ▸ hw.1, fun t ht => ⟨(hw.2 t ht).1, hack ▸ (hw.2 t ht).2⟩⟩
    · exact absurd hw.1 (by simp [hno])
  | created reqs =>
    rw [hs] at hw
    exact ⟨hpin ▸ hw.1, hw.2⟩
  | _ => trivial

/-! ### The writer -/

lemma Inv.giveID (h : s.Inv) {assigned req reqs} (hw : s.writer = .allocating assigned (req :: reqs))
    (hle : s.taskIDBlock.start ≤ s.taskIDBlock.last) :
    Inv { s with
      writer := .allocating (assigned ++ [(req, s.taskIDBlock.start)]) reqs
      taskIDBlock := { s.taskIDBlock with start := s.taskIDBlock.start + 1 } } := by
  have hsafe := h.safe
  have hfresh := h.fresh
  have hids := h.ids
  simp only [hw, WriterPhase.ids] at hsafe hfresh hids
  refine ⟨h.ledger, hsafe, h.rows, h.limbo, h.stored, ⟨h.block.1, by simpa using hle⟩, ?_, ?_, trivial⟩
  · intro id hid
    simp only [WriterPhase.ids, map_append, map_cons, map_nil, mem_cons, mem_append, not_mem_nil, or_false] at hid
    have hstart := hfresh s.taskIDBlock.start mem_cons_self
    rcases hid with rfl | hid | rfl
    · obtain ⟨hpos, hack, hissued⟩ := hstart
      refine ⟨by omega, Int.lt_trans hack (Int.lt_succ _), fun t ht => ?_⟩
      have := hissued t ht
      omega
    · exact hfresh id (mem_cons_of_mem _ hid)
    · exact hstart
  simp only [WriterPhase.ids, map_append, map_cons, map_nil]
  refine ⟨pairwise_append.mpr ⟨hids.1, pairwise_singleton _ _, ?_⟩, ?_⟩
  · intro a ha b hb
    rw [mem_singleton.mp hb]
    exact hids.2 a ha
  intro id hid
  rcases mem_append.mp hid with hid | hid
  · have := hids.2 id hid
    omega
  rw [mem_singleton.mp hid]
  omega

lemma Inv.allocTaskID (h : s.Inv) {assigned req reqs} (hw : s.writer = .allocating assigned (req :: reqs)) (renewed : Bool) :
    (s.allocTaskID assigned req reqs renewed).Inv := by
  unfold FairBacklog.allocTaskID
  split
  · next hlast =>
    split
    · exact h.setWriter (by simp [hw, WriterPhase.toMerge]) (by simp [WriterPhase.ids]) .nil trivial
    -- the blocks are contiguous, so that the next id is the same one in the new block
    have hblock := h.block
    have hstart : (rangeIDToTaskIDBlock (s.rangeID + 1)).start = s.taskIDBlock.start := by
      simp only [rangeIDToTaskIDBlock, rangeSize] at hblock ⊢
      omega
    have hrenewed : Inv { s with
        rangeID := s.rangeID + 1
        taskIDBlock := rangeIDToTaskIDBlock (s.rangeID + 1) } := by
      refine { h with block := ⟨rfl, ?_⟩, fresh := ?_, ids := ?_ }
      · simp only [rangeIDToTaskIDBlock, rangeSize]
        omega
      · simpa only [hstart] using h.fresh
      · simpa only [hstart] using h.ids
    refine hrenewed.giveID hw ?_
    simp only [rangeIDToTaskIDBlock, rangeSize]
    omega
  · next hlast => exact h.giveID hw (by omega)

lemma tasksOf_ids (assigned : List (WriteTaskRequest × Int)) (picks : List Pick) :
    ((tasksOf s.subqueue (List.zipWith s.pickPass assigned picks)).map (·.1.id)).Sublist (assigned.map (·.2)) := by
  induction assigned generalizing picks with
  | nil => simp [tasksOf]
  | cons a assigned ih =>
    cases picks with
    | nil => simp [tasksOf]
    | cons p picks =>
      simp only [zipWith_cons_cons, tasksOf, filterMap_cons]
      split
      · exact (ih picks).cons _
      next t ht =>
      split at ht
      · cases ht
        exact (ih picks).cons_cons _
      · cases ht

lemma tasksOf_pass {assigned picks t} (ht : t ∈ tasksOf s.subqueue (List.zipWith s.pickPass assigned picks)) :
    1 ≤ t.1.pass ∧ s.tr.ackLevel.pass ≤ t.1.pass := by
  obtain ⟨r, hr, heq⟩ := mem_filterMap.mp ht
  split at heq
  · next hsub =>
    cases heq
    obtain ⟨i, hi, rfl⟩ := mem_iff_getElem.mp hr
    simp only [getElem_zipWith, pickPass, Pick.getPass] at hsub ⊢
    omega
  · cases heq

variable (h : s.Inv)

include h

lemma Inv.pin {assigned} (hw : s.writer = .allocating assigned []) {picks} : (s.pin assigned picks).Inv := by
  have hfresh := h.fresh
  have hids := h.ids
  have hsafe := h.safe
  simp only [hw, WriterPhase.ids] at hfresh hids hsafe
  let tasks := tasksOf s.subqueue (List.zipWith s.pickPass assigned picks)
  have hsub := tasksOf_ids (s := s) assigned picks
  have hid : ∀ t ∈ tasks, t.1.id ∈ assigned.map (·.2) := fun t ht => hsub.mem (mem_map.mpr ⟨t, ht, rfl⟩)
  have hnew : ∀ t ∈ tasks, t ∈ (s.pin assigned picks).ledger.issued := by
    have hpw : tasks.Pairwise (·.1 ≠ ·.1) := by
      have := pairwise_map.mp (hids.1.sublist hsub)
      exact this.imp fun hlt heq => by simp [heq] at hlt
    exact fun t ht => mem_putAll_of_pairwise hpw ht
  have hold : ∀ t ∈ s.ledger.issued, t ∈ (s.pin assigned picks).ledger.issued := by
    intro t ht
    refine mem_putAll_of_mem ht fun t' ht' heq => ?_
    have := (hfresh _ (mem_cons_of_mem _ (hid t' ht'))).2.2 t ht
    simp [heq] at this
  have hissued : ∀ t ∈ (s.pin assigned picks).ledger.issued, t ∈ s.ledger.issued ∨ t ∈ tasks := fun t ht =>
    (mem_of_mem_putAll ht).symm.imp_left And.left
  have habove : ∀ t ∈ tasks, s.tr.ackLevel < t.1 := by
    intro t ht
    have hpass := tasksOf_pass ht
    have hlt := (hfresh _ (mem_cons_of_mem _ (hid t ht))).2.1
    rw [FairLevel.lt_def]
    omega
  refine ⟨⟨?_, fun t ht => hold t (h.ledger.reported t ht)⟩, ?_, fun t ht => hold t (h.rows t ht),
    fun t ht => hold t (h.limbo t ht), h.stored, h.block, ?_, ⟨.nil, by simp [FairBacklog.pin, WriterPhase.ids]⟩, ?_⟩
  · intro t ht
    rcases hissued t ht with ht | ht
    · exact h.ledger.positive t ht
    · exact ⟨(tasksOf_pass ht).1, (hfresh _ (mem_cons_of_mem _ (hid t ht))).1⟩
  · have hmove : s.tr.Safe (s.pin assigned picks).ledger s.env.now [] :=
      hsafe.ledger hold (fun k hk => hk) (fun t ht => .inl ht) fun t _ ht => ht
    exact hmove.of_kept { hmove.toKept with } rfl rfl rfl
  · intro id hid'
    simp only [FairBacklog.pin, WriterPhase.ids, mem_singleton] at hid'
    subst hid'
    have hstart := hfresh _ mem_cons_self
    refine ⟨hstart.1, hstart.2.1, fun t ht => ?_⟩
    rcases hissued t ht with ht | ht
    · exact hstart.2.2 t ht
    · exact hids.2 _ (hid t ht)
  · exact ⟨rfl, fun t ht => ⟨hnew t ht, habove t ht⟩⟩

lemma Inv.mem_putAll_rows (tasks : List AllocatedTask)
    (hissued : ∀ t ∈ tasks, t ∈ s.ledger.issued) {t} (ht : t ∈ s.rows ∨ t ∈ tasks) :
    t ∈ s.rows.putAll tasks := by
  have hti : t ∈ s.ledger.issued := ht.elim (h.rows t) (hissued t)
  by_cases hkey : ∃ e ∈ tasks, e.1 = t.1
  · obtain ⟨d, hd, hin⟩ := exists_mem_putAll (m := s.rows) hkey
    cases SortedMap.functional (hissued _ hin) hti
    exact hd
  simp only [not_exists, not_and] at hkey
  rcases ht with ht | ht
  · exact mem_putAll_of_mem ht hkey
  · exact absurd rfl (hkey t ht)

lemma Inv.createFairTasks (hw : s.writer = .creating reqs) (ok : Bool) : (s.createFairTasks reqs ok).Inv := by
  have hwr := h.writer
  have hsafe := h.safe
  have hfresh := h.fresh
  simp only [hw, WriterPhase.ids] at hwr hsafe hfresh
  obtain ⟨hpin, htasks⟩ := hwr
  cases ok with
  | false =>
    refine ⟨h.ledger, hsafe, h.rows, ?_, h.stored, h.block, hfresh, ⟨.nil, by simp [FairBacklog.createFairTasks,
      WriterPhase.ids]⟩, trivial⟩
    intro t ht
    exact (mem_append.mp ht).elim (h.limbo t) fun ht => (htasks t ht).1
  | true =>
    have hreported : ∀ t, (s.createFairTasks reqs true).ledger.Owed s.env.now t →
        s.ledger.Owed s.env.now t ∨ t ∈ tasksOf s.subqueue reqs := by
      rintro t ⟨hin, hrest⟩
      exact (mem_append.mp hin).imp_left fun hin => ⟨hin, hrest⟩
    refine ⟨⟨h.ledger.positive, ?_⟩, ?_, ?_, h.limbo, ?_, h.block, hfresh, ⟨.nil, by
      simp [FairBacklog.createFairTasks, WriterPhase.ids]⟩, ⟨hpin, fun t ht => (htasks t ht).1⟩⟩
    · intro t ht
      exact (mem_append.mp ht).elim (h.ledger.reported t) fun ht => (htasks t ht).1
    · refine hsafe.ledger (fun t ht => ht) (fun k hk => hk) (fun t ht => ?_) (fun t _ ht => by cases ht)
      exact (hreported t ht).imp_right fun hin => ⟨(htasks t hin).2, hin⟩
    · intro t ht
      exact (mem_of_mem_putAll ht).elim (fun ht => (htasks t ht).1) fun ht => h.rows t ht.1
    intro t ht
    refine h.mem_putAll_rows _ (fun t ht => (htasks t ht).1) ?_
    exact (hreported t ht).imp_left (h.stored t)

lemma Inv.land {t} (ht : t ∈ s.limbo) : Inv { s with rows := s.rows.put t.1 t.2 } := by
  refine { h with rows := ?_, stored := ?_ }
  · intro t' ht'
    rcases mem_put.mp ht' with rfl | ⟨-, ht'⟩
    · exact h.limbo t ht
    · exact h.rows t' ht'
  intro t' ht'
  exact h.mem_putAll_rows [t] (by simpa using h.limbo t ht) (.inl (h.stored t' ht'))

lemma Inv.wroteNewTasks (hw : s.writer = .created reqs) : (s.wroteNewTasks reqs).Inv := by
  have hwr := h.writer
  have hsafe := h.safe
  have hfresh := h.fresh
  simp only [hw, WriterPhase.ids] at hwr hsafe hfresh
  have hack : (s.wroteNewTasks reqs).tr.ackLevel = s.tr.ackLevel := by
    unfold FairBacklog.wroteNewTasks mergeTasks
    simp only
    split
    · rfl
    · split <;> rfl
  refine ⟨h.ledger, ?_, h.rows, h.limbo, h.stored, h.block, ?_, ⟨.nil, by simp [FairBacklog.wroteNewTasks,
    WriterPhase.ids]⟩, trivial⟩
  · simp only [FairBacklog.wroteNewTasks, WriterPhase.toMerge] at hsafe ⊢
    split
    · next hnil => simpa only [isEmpty_iff.mp hnil] using hsafe
    · exact hsafe.wrote h.ledger hwr.2
  rw [hack]
  exact hfresh

lemma Inv.unpin {err} (hw : s.writer = .unpinning reqs err) : (s.unpin reqs err).Inv := by
  have hsafe := h.safe
  have hfresh := h.fresh
  simp only [hw, WriterPhase.ids] at hsafe hfresh
  obtain ⟨hsafe, hack⟩ := hsafe.unpin s.env err
  refine ⟨h.ledger, hsafe, h.rows, h.limbo, h.stored, h.block, ?_, ⟨.nil, by simp [FairBacklog.unpin,
    WriterPhase.ids]⟩, trivial⟩
  intro id hid
  obtain ⟨hpos, hlt, hissued⟩ := hfresh id hid
  refine ⟨hpos, ?_, hissued⟩
  rcases hack with hack | ⟨d, hd⟩
  · exact hack ▸ hlt
  · exact hissued _ hd

omit h

/-! ### The reader -/

lemma Inv.complete (h : s.Inv) {level} (hk : ∃ v, (level, v) ∈ s.tr.outstandingTasks) : (s.complete level).Inv := by
  -- first the ledger moves on, then the reader
  have howed : ∀ t, (s.complete level).ledger.Owed s.env.now t → s.ledger.Owed s.env.now t :=
    fun t ht => ⟨ht.1, fun hin => ht.2.1 (mem_cons_of_mem _ hin), ht.2.2⟩
  have hnoted : Inv { s with ledger := (s.complete level).ledger } := by
    refine { h with
      ledger := ⟨h.ledger.positive, h.ledger.reported⟩
      safe := ?_
      stored := fun t ht => h.stored t (howed t ht) }
    exact h.safe.ledger (fun t ht => ht) (fun k hk => mem_cons_of_mem _ hk)
      (fun t ht => .inl (howed t ht)) fun t _ ht => ht
  have hc : level ∈ (s.complete level).ledger.completed := mem_cons_self
  exact hnoted.setReader (hnoted.safe.complete hk hc fun hpin t _ => h.not_pending hpin t)

lemma Inv.completeTask (h : s.Inv) (level : FairLevel) (res : Outcome) : (s.completeTask level res).Inv := by
  unfold FairBacklog.completeTask
  split
  · next data hget =>
    cases res with
    | success => exact h.complete ⟨_, get?_eq_some.mp hget⟩
    | transient => exact h
    | failed => exact h.queues _ _ _
  · exact h

lemma Inv.deleteRows (h : s.Inv) {level : FairLevel} (hgc : s.tr.inGC = some level) (spared : List FairLevel) :
    Inv { s with rows := s.rows.select fun k _ => ¬ k < level.inc ∨ k ∈ spared } := by
  refine { h with rows := fun t ht => h.rows t (mem_select.mp ht).1, stored := ?_ }
  intro t ht
  refine mem_select.mpr ⟨h.stored t ht, ?_⟩
  have hlt : level < t.1 := (h.safe.gc level hgc).trans_lt (h.safe.above t ht)
  simp [FairLevel.lt_inc_iff, hlt]

lemma Inv.tick (h : s.Inv) (d : Nat) : Inv { s with env := { s.env with now := s.env.now + d } } := by
  have howed : ∀ t, s.ledger.Owed (s.env.now + d) t → s.ledger.Owed s.env.now t := fun t ht =>
    ⟨ht.1, ht.2.1, fun hexp => ht.2.2 (TaskInfo.isTaskExpired_mono (by omega) hexp)⟩
  refine { h with safe := ?_, stored := fun t ht => h.stored t (howed t ht) }
  exact h.safe.ledger (fun t ht => ht) (fun k hk => hk) (fun t ht => .inl (howed t ht)) fun t _ ht => ht

theorem step_inv {s' : FairBacklog} {e} (h : s.Inv) (hP : s.StillOutstanding e) (hs : s.step e = .ok s') : s'.Inv := by
  cases e with simp only [step] at hs
  | spool subqueue taskInfo =>
    cases hs
    exact h.queues _ _ _
  | takeBatch n =>
    split at hs
    · next req reqs hw _ =>
      cases hs
      have htaken : Inv { s with writer := .allocating [] (req :: reqs.take n) } :=
        h.setWriter (by simp [hw, WriterPhase.toMerge]) (by simp [WriterPhase.ids]) .nil trivial
      exact htaken.queues _ _ _
    · cases hs
  | allocTaskID renewed =>
    split at hs
    · next hw =>
      cases hs
      exact h.allocTaskID hw renewed
    · cases hs
  | pin picks =>
    split at hs
    · next hw =>
      obtain ⟨-, rfl⟩ := guard_ok hs
      exact h.pin hw
    · cases hs
  | createFairTasks ok =>
    split at hs
    · next hw =>
      cases hs
      exact h.createFairTasks hw ok
    · cases hs
  | land t =>
    obtain ⟨ht, rfl⟩ := guard_ok hs
    exact h.land ht
  | wroteNewTasks =>
    split at hs
    · next hw =>
      cases hs
      exact h.wroteNewTasks hw
    · cases hs
  | unpin =>
    split at hs
    · next hw =>
      cases hs
      exact h.unpin hw
    · cases hs
  | readTasksImpl =>
    split at hs
    · cases hs
      exact h.setReader (h.safe.loop h.ledger fun hpin t _ => h.not_pending hpin t)
    · cases hs
  | getFairTasks =>
    split at hs
    · next hr =>
      cases hs
      exact h.setReader ⟨h.safe.fetched h.ledger hr h.rows h.stored, rfl, .inl rfl⟩
    · cases hs
  | getFairTasksFails retry =>
    split at hs
    · cases hs
      cases retry with
      | true => exact h.setReader ⟨h.safe.failed true, rfl, .inl rfl⟩
      | false => exact h.setReader ⟨h.safe.failed s.tr.backoffTimer, rfl, .inl rfl⟩
    · cases hs
  | dropExpired =>
    split at hs
    · next hr =>
      cases hs
      exact h.setReader ⟨h.safe.filtered hr, rfl, .inl rfl⟩
    · cases hs
  | mergeTasks =>
    split at hs
    · next hr =>
      cases hs
      have hmode := (h.safe.batch _ _ (by rw [hr]; rfl)).reads
      simp only [mergeTasks, hmode, false_and, if_false]
      exact h.setReader ⟨h.safe.merged h.ledger hr, rfl, .inl rfl⟩
    · cases hs
  | backoffFires =>
    obtain ⟨-, rfl⟩ := guard_ok hs
    exact h.setReader h.safe.backoffFires
  | completeTask level res =>
    cases hs
    exact h.completeTask level res
  | respool t subqueue =>
    obtain ⟨-, rfl⟩ := guard_ok hs
    exact h.queues _ _ _
  | respooled t =>
    obtain ⟨-, rfl⟩ := guard_ok hs
    obtain ⟨v, hv⟩ := Option.isSome_iff_exists.mp hP
    exact (h.complete ⟨v, get?_eq_some.mp hv⟩).queues _ _ _
  | deleteRows spared =>
    split at hs
    · next hgc =>
      cases hs
      exact h.deleteRows hgc spared
    · cases hs
  | gcDone result =>
    obtain ⟨-, rfl⟩ := guard_ok hs
    exact h.setReader (h.safe.gcDone result)
  | configure batch reload delete interval | stop =>
    cases hs
    exact { h with }
  | tick d =>
    cases hs
    exact h.tick d

/-! ### Runs -/

/-- What an owner finds when it loads a subqueue: the rows were written under earlier leases. -/
structure Loadable (ackLevel : FairLevel) (rows : SortedMap FairLevel TaskInfo) (rangeID : Int) : Prop where
  lease : 1 ≤ rangeID
  positive : ∀ t ∈ rows, 1 ≤ t.1.pass ∧ 1 ≤ t.1.id
  older : ∀ t ∈ rows, t.1.id < (rangeIDToTaskIDBlock rangeID).start
  ackOlder : ackLevel.id < (rangeIDToTaskIDBlock rangeID).start

lemma inv_load {subqueue env ackLevel} {rows : SortedMap FairLevel TaskInfo}
    {rangeID} (h : Loadable ackLevel rows rangeID) : (load subqueue env ackLevel rows rangeID).Inv := by
  have howed : ∀ t, (load subqueue env ackLevel rows rangeID).ledger.Owed env.now t → t ∈ rows ∧ ackLevel < t.1 := by
    rintro t ⟨hin, -⟩
    simpa [load, mem_def] using hin
  have hsafe : (newFairTaskReader ackLevel env.now).Safe
      (load subqueue env ackLevel rows rangeID).ledger env.now [] := by
    refine ⟨⟨by simp [newFairTaskReader], by simp [newFairTaskReader],
      by simp [newFairTaskReader], le_rfl, by simp [newFairTaskReader],
      fun t ht => (howed t ht).2, fun t ht hle => absurd hle (not_le.mpr (howed t ht).2), by
        simp [newFairTaskReader], by simp [newFairTaskReader]⟩, ?_, ?_⟩
    · intro r n hr
      cases hr
    intro tasks mode hb
    cases hb
  refine ⟨⟨h.positive, fun t ht => (mem_filter.mp ht).1⟩, (hsafe.maybeRead env).1, fun t ht => ht, by simp [load],
    fun t ht => (howed t ht).1, ?_, ?_, ⟨.nil, by simp [load, WriterPhase.ids]⟩, trivial⟩
  · refine ⟨rfl, ?_⟩
    simp only [load, rangeIDToTaskIDBlock, rangeSize]
    omega
  intro id hid
  simp only [load, WriterPhase.ids, mem_singleton] at hid
  subst hid
  refine ⟨?_, ?_, h.older⟩
  · have := h.lease
    simp only [rangeIDToTaskIDBlock, rangeSize]
    omega
  change ((newFairTaskReader ackLevel env.now).maybeReadTasksLocked env).ackLevel.id < _
  rw [(hsafe.maybeRead env).2.2]
  exact h.ackOlder

/-- In every run in which a task whose completion is recorded after it was written again is still
outstanding, the backlog loses nothing. -/
theorem fairBacklog_losesNothing {subqueue : Nat} {env : Env} {ackLevel : FairLevel}
    {rows : SortedMap FairLevel TaskInfo} {rangeID : Int} {es : List Event} {s : FairBacklog}
    (h : Loadable ackLevel rows rangeID)
    (al : Along StillOutstanding step (load subqueue env ackLevel rows rangeID) es)
    (hr : run step (load subqueue env ackLevel rows rangeID) es = .ok s) : s.LosesNothing := by
  have hinv : s.Inv := al.inv (fun _ _ _ hI hP hs => step_inv hI hP hs) (inv_load h) hr
  exact ⟨hinv.safe.above, hinv.stored, hinv.safe.held⟩

/-! ### The condition is needed -/

def writes (infos : List TaskInfo) (picks : List Pick) : List Event :=
  infos.map (.spool 0) ++ [.takeBatch (infos.length - 1)] ++ infos.map (fun _ => .allocTaskID true) ++
    [.pin picks, .createFairTasks true, .wroteNewTasks, .unpin]

def readsNothing : List Event :=
  [.readTasksImpl, .getFairTasks, .dropExpired, .mergeTasks, .readTasksImpl]

def lasting : TaskInfo := ⟨0⟩

/-- A task is written at pass 5 and fails. If there is room for `batch` tasks in memory, tasks at
passes 3 and 4 are written while it is being respooled, the task at pass 3 is completed and rows are
deleted. -/
def respoolRun : List Event :=
  readsNothing ++ writes [lasting] [⟨4, 1, 0⟩] ++ [.completeTask ⟨5, 1⟩ .failed] ++
    writes [lasting, lasting] [⟨2, 1, 0⟩, ⟨3, 1, 0⟩] ++
    [.respool (⟨5, 1⟩, lasting) 0, .takeBatch 0, .allocTaskID true, .pin [⟨9, 1, 0⟩], .createFairTasks true,
      .wroteNewTasks, .unpin, .respooled (⟨5, 1⟩, lasting), .completeTask ⟨3, 2⟩ .success, .deleteRows []]

def respoolEnv (batch : Int) : Env := ⟨batch, 0, 1, 0, 0, false⟩

/-- With room for three tasks nothing is evicted, and the task at pass 4 stays. -/
theorem fairBacklog_losesNothing_respooled : ∃ s, Loadable .zero .empty 1 ∧
    Along StillOutstanding step (load 0 (respoolEnv 3) .zero .empty 1) respoolRun ∧
    run step (load 0 (respoolEnv 3) .zero .empty 1) respoolRun = .ok s ∧
    s.ledger.Owed s.env.now (⟨4, 3⟩, lasting) ∧ s.LosesNothing := by
  have hload : Loadable .zero .empty 1 := ⟨Int.le_refl 1, by simp, by simp, by decide⟩
  have al : Along StillOutstanding step (load 0 (respoolEnv 3) .zero .empty 1) respoolRun := by
    decide +kernel
  obtain ⟨s, hr, howed⟩ : ∃ s, run step (load 0 (respoolEnv 3) .zero .empty 1) respoolRun = .ok s ∧
      s.ledger.Owed s.env.now (⟨4, 3⟩, lasting) := by decide +kernel
  exact ⟨s, hload, al, hr, howed, fairBacklog_losesNothing hload al hr⟩

/-- With room for one task it is lost: the ack for the evicted task moves the ack level over the task at
pass 4, which was never read, and its row is deleted. -/
theorem evictedAck_jumps : ∃ s, Loadable .zero .empty 1 ∧
    run step (load 0 (respoolEnv 1) .zero .empty 1) respoolRun = .ok s ∧
    s.ledger.Owed s.env.now (⟨4, 3⟩, lasting) ∧ ¬ s.tr.ackLevel < ⟨4, 3⟩ ∧ (⟨4, 3⟩, lasting) ∉ s.rows := by
  have hload : Loadable .zero .empty 1 := ⟨Int.le_refl 1, by simp, by simp, by decide⟩
  rw [exists_and_left]
  exact ⟨hload, by decide +kernel⟩

end FairBacklog

/-!
## The books of the fair reader

`loadedTasks` is kept beside `outstandingTasks`: a merge adds what it puts into memory and takes off what it
evicts, and `completeTaskLocked` takes off one without looking at the entry. `booked_iff` says that the two
agree, and that only unacked entries are completed, as long as a respooled task is still in memory and
unacked when its completion is recorded, and that the first step that is not so breaks the books.
-/

namespace FairTaskReader

variable {env : Env} {tr : FairTaskReader} {tasks : List AllocatedTask} {mode : MergeMode} {level : FairLevel}

def unacked (tr : FairTaskReader) : List (FairLevel × Option TaskInfo) :=
  (tr.outstandingTasks.select fun _ v => v.isSome).entries

def Counted (tr : FairTaskReader) : Prop := tr.loadedTasks = tr.unacked.length

lemma unacked_distinct : tr.unacked.Pairwise (·.1 ≠ ·.1) :=
  (tr.outstandingTasks.select fun _ v => v.isSome).sorted.imp fun hlt => hlt.ne

lemma exists_mem_unacked {k} : (∃ v, (k, v) ∈ tr.unacked) ↔ ∃ d, (k, some d) ∈ tr.outstandingTasks := by
  constructor
  · rintro ⟨v, hv⟩
    obtain ⟨hmem, hsome⟩ := mem_select.mp hv
    obtain ⟨d, rfl⟩ := Option.isSome_iff_exists.mp hsome
    exact ⟨d, hmem⟩
  rintro ⟨d, hd⟩
  exact ⟨some d, mem_select.mpr ⟨hd, rfl⟩⟩

def loadedLevels (l : List (FairLevel × Candidate)) : List FairLevel :=
  l.filterMap fun e => match e.2 with
    | .loaded _ => some e.1
    | .fresh _ => none

def freshEntries (l : List (FairLevel × Candidate)) : List (FairLevel × Option TaskInfo) :=
  l.filterMap fun e => match e.2 with
    | .loaded _ => none
    | .fresh d => some (e.1, some d)

lemma length_candidates {l} : l.length = (loadedLevels l).length + (freshEntries l).length := by
  induction l with
  | nil => rfl
  | cons e l ih =>
    obtain ⟨k, c⟩ := e
    cases c <;> simp only [loadedLevels, freshEntries, filterMap_cons, length_cons] at ih ⊢ <;> omega

lemma length_unacked : tr.unacked.length = (loadedLevels (tr.merged tasks mode).entries).length := by
  refine length_eq_of_keys unacked_distinct (pairwise_filterMap.mpr ((tr.merged tasks mode).sorted.imp ?_)) fun k => ?_
  · rintro ⟨k, c⟩ ⟨k', c'⟩ hlt
    cases c <;> cases c' <;> simp [hlt.ne]
  rw [exists_mem_unacked]
  refine Iff.trans ⟨fun ⟨d, hd⟩ => ⟨d, loaded_mem_merged hd⟩, fun ⟨d, hd⟩ => ?_⟩ mem_evicted.symm
  rcases mem_merged hd with ⟨d', -, hout⟩ | ⟨d', hfresh, -⟩
  · exact ⟨d', hout⟩
  · cases hfresh

/-- What a merge evicts it takes off, and what it adds was not there before. -/
theorem Counted.merge (h : tr.Counted) : (tr.mergeTasksLocked env tasks mode).Counted := by
  have hafter : (tr.mergeTasksLocked env tasks mode).unacked.length =
      ((tr.mergeKept env tasks mode).map (·.1)).length := by
    refine length_eq_of_keys unacked_distinct (pairwise_map.mpr (((tr.merged tasks mode).sorted.imp
      fun hlt => hlt.ne).sublist (take_sublist _ _))) fun k => ?_
    rw [exists_mem_unacked]
    simp only [mem_outstanding_merge, mem_map, Prod.exists, exists_and_right, exists_eq_right]
    exact ⟨fun ⟨_, c, hc, _⟩ => ⟨c, hc⟩, fun ⟨c, hc⟩ => ⟨_, c, hc, rfl⟩⟩
  have hbefore : tr.unacked.length = (loadedLevels (tr.mergeKept env tasks mode)).length +
      (loadedLevels (tr.mergeRest env tasks mode)).length := by
    rw [@length_unacked tr tasks mode, ← length_append, loadedLevels, loadedLevels, loadedLevels, ← filterMap_append,
      mergeKept, mergeRest, take_append_drop]
  have hloaded : (tr.mergeTasksLocked env tasks mode).loadedTasks = tr.loadedTasks -
      (loadedLevels (tr.mergeRest env tasks mode)).length + (freshEntries (tr.mergeKept env tasks mode)).length := rfl
  rw [length_map, length_candidates] at hafter
  rw [Counted] at h ⊢
  omega

lemma counted_advance : (tr.advanceAckLevelLocked env).Counted ↔ tr.Counted := by
  have hnone : (tr.outstandingTasks.entries.takeWhile fun e => e.2.isNone).filter (fun e => e.2.isSome) = [] := by
    refine filter_eq_nil_iff.mpr fun e he => ?_
    have := mem_takeWhile_imp he
    simp_all
  have hdrop := congrArg (filter fun e => e.2.isSome)
    (takeWhile_append_dropWhile (p := fun e => e.2.isNone) (l := tr.outstandingTasks.entries))
  rw [filter_append, hnone, nil_append] at hdrop
  have hpop : tr.loadedTasks = ((tr.outstandingTasks.entries.dropWhile fun e => e.2.isNone).filter
      fun e => e.2.isSome).length ↔ tr.Counted := by
    rw [hdrop]
    exact Iff.rfl
  rcases advance_cases env tr with heq | ⟨-, -, _, _, _, _, -, -, heq⟩
  · rw [heq]
  rw [heq]
  exact hpop

lemma counted_maybeRead : (tr.maybeReadTasksLocked env).Counted ↔ tr.Counted := by
  unfold maybeReadTasksLocked
  split <;> exact Iff.rfl

lemma Counted.complete_iff (h : tr.Counted) :
    (tr.completeTaskLocked env level).Counted ↔ ∃ d, (level, some d) ∈ tr.outstandingTasks := by
  rw [completeTaskLocked, counted_maybeRead, counted_advance]
  generalize htr : ({ tr with
    outstandingTasks := tr.outstandingTasks.put level none
    loadedTasks := tr.loadedTasks - 1 } : FairTaskReader) = tr'
  have hkeys : ∀ k, (∃ v, (k, v) ∈ tr'.unacked) ↔ k ≠ level ∧ ∃ v, (k, v) ∈ tr.unacked := by
    intro k
    rw [exists_mem_unacked, exists_mem_unacked, ← htr]
    simp
  have hloaded : tr'.loadedTasks = tr.loadedTasks - 1 := by rw [← htr]
  have hdistinct : (tr'.unacked.map (·.1)).Nodup := pairwise_map.mpr unacked_distinct
  rw [Counted] at h ⊢
  by_cases hd : ∃ d, (level, some d) ∈ tr.outstandingTasks
  · have hlen : tr.unacked.length = (level :: tr'.unacked.map (·.1)).length := by
      refine length_eq_of_keys unacked_distinct (nodup_cons.mpr ⟨?_, hdistinct⟩) fun k => ?_
      · simp [hkeys]
      rcases eq_or_ne k level with rfl | hne
      · simpa [exists_mem_unacked] using hd
      · simp [hne, hkeys]
    simp only [hd, iff_true, length_cons, length_map] at hlen ⊢
    omega
  have hlen : tr.unacked.length = (tr'.unacked.map (·.1)).length := by
    refine length_eq_of_keys unacked_distinct hdistinct fun k => ?_
    simp only [mem_map, Prod.exists, exists_and_right, exists_eq_right, hkeys]
    refine ⟨fun hk => ⟨?_, hk⟩, And.right⟩
    rintro rfl
    exact hd (exists_mem_unacked.mp hk)
  simp only [hd, iff_false, length_map] at hlen ⊢
  omega

end FairTaskReader

namespace FairBacklog

open FairTaskReader

variable {s s' : FairBacklog} {e : Event}

def StillUnacked (s : FairBacklog) : Event → Prop
  | .respooled t => (s.tr.outstandingTasks.get? t.1).join.isSome
  | _ => True

instance (s : FairBacklog) (e : Event) : Decidable (s.StillUnacked e) := by
  rcases e <;> (unfold StillUnacked; infer_instance)

structure Booked (s : FairBacklog) : Prop where
  loaded : s.tr.Counted
  levels : ∀ e ∈ s.tr.outstandingTasks, s.tr.ackLevel < e.1 ∧ e.1 ≤ s.tr.readLevel

/-- A level that is recorded as completed between two states was that of an unacked entry. -/
def CompletesUnacked (s s' : FairBacklog) : Prop :=
  ∀ level, s'.ledger.completed = level :: s.ledger.completed → ∃ d, (level, some d) ∈ s.tr.outstandingTasks

lemma get?_join {m : SortedMap FairLevel (Option TaskInfo)} {level} :
    (m.get? level).join.isSome ↔ ∃ d, (level, some d) ∈ m := by
  simp [Option.isSome_iff_exists, Option.join_eq_some_iff, get?_eq_some]

lemma step_completes (hP : s.StillUnacked e) (hs : s.step e = .ok s') : s.CompletesUnacked s' := by
  intro level hlevel
  cases e with simp only [step, StillUnacked, get?_join] at hs hP
  | respooled t =>
    obtain ⟨-, rfl⟩ := guard_ok hs
    obtain rfl := (cons_eq_cons.mp hlevel).1
    exact hP
  | completeTask level' res =>
    cases hs
    unfold completeTask at hlevel
    split at hlevel
    · next data hget =>
      cases res with
      | success =>
        obtain rfl := (cons_eq_cons.mp hlevel).1
        exact ⟨data, get?_eq_some.mp hget⟩
      | _ => exact absurd hlevel (by simp)
    · exact absurd hlevel (by simp)
  | _ =>
    suffices hsame : s'.ledger.completed = s.ledger.completed by
      rw [hsame] at hlevel
      simp at hlevel
    grind [allocTaskID, FairBacklog.pin, createFairTasks, wroteNewTasks, FairBacklog.unpin]

lemma step_counted (h : s.tr.Counted) (hs : s.step e = .ok s') : s'.tr.Counted ↔ s.StillUnacked e := by
  cases e with simp only [step, StillUnacked, iff_true] at hs ⊢
  | respooled t =>
    obtain ⟨-, rfl⟩ := guard_ok hs
    rw [get?_join]
    exact h.complete_iff
  | completeTask level res =>
    cases hs
    unfold completeTask
    split
    · next data hget =>
      cases res with
      | success => exact h.complete_iff.mpr ⟨data, get?_eq_some.mp hget⟩
      | _ => exact h
    · exact h
  | wroteNewTasks =>
    split at hs
    · cases hs
      unfold wroteNewTasks mergeTasks
      simp only
      split
      · exact h
      · split
        · exact h
        · exact h.merge
    · cases hs
  | unpin =>
    split at hs
    · cases hs
      unfold FairBacklog.unpin unpinAckLevel
      simp only
      rw [counted_advance]
      split
      · exact counted_maybeRead.mpr h
      · exact h
    · cases hs
  | readTasksImpl =>
    split at hs
    · cases hs
      unfold FairTaskReader.readTasksImpl
      split
      · simp only
        split
        · exact h
        · exact counted_advance.mpr h.merge
      · exact h
    · cases hs
  | mergeTasks =>
    split at hs
    · cases hs
      unfold FairTaskReader.mergeTasks
      split
      · exact h
      · exact h.merge
    · cases hs
  | backoffFires =>
    obtain ⟨-, rfl⟩ := guard_ok hs
    exact counted_maybeRead.mpr h
  | gcDone result =>
    obtain ⟨-, rfl⟩ := guard_ok hs
    unfold FairTaskReader.gcDone
    simp only
    split
    · exact h
    · split <;> exact h
  | _ =>
    -- the rest does not touch the entries or their count
    suffices hsame : s'.tr.loadedTasks = s.tr.loadedTasks ∧ s'.tr.outstandingTasks = s.tr.outstandingTasks by
      rw [Counted, unacked, hsame.1, hsame.2]
      exact h
    grind [allocTaskID, FairBacklog.pin, createFairTasks, getAndPinAckLevel, retryReadAfter]

lemma StillUnacked.stillOutstanding (h : s.StillUnacked e) : s.StillOutstanding e := by
  cases e with
  | respooled t =>
    obtain ⟨d, hd⟩ := get?_join.mp h
    exact Option.isSome_iff_exists.mpr ⟨_, get?_eq_some.mpr hd⟩
  | _ => trivial

/-- In every run in which a task whose completion is recorded after it was written again is still
outstanding and unacked, the books are right. At the next step they stay so, and what is completed is an
unacked entry, if and only if the step is of this kind. -/
theorem booked_iff {subqueue : Nat} {env : Env} {ackLevel : FairLevel} {rows : SortedMap FairLevel TaskInfo}
    {rangeID : Int} {es : List Event} (h : Loadable ackLevel rows rangeID)
    (al : Along StillUnacked step (load subqueue env ackLevel rows rangeID) es)
    (hr : run step (load subqueue env ackLevel rows rangeID) es = .ok s) :
    s.Booked ∧ ∀ e s', s.step e = .ok s' → (s'.Booked ∧ s.CompletesUnacked s' ↔ s.StillUnacked e) := by
  have hstart : (load subqueue env ackLevel rows rangeID).tr.Counted := counted_maybeRead.mpr rfl
  obtain ⟨hinv, hcounted⟩ : s.Inv ∧ s.tr.Counted := by
    refine al.inv (I := fun s => s.Inv ∧ s.tr.Counted) ?_ ⟨inv_load h, hstart⟩ hr
    rintro s₁ e s₂ ⟨hI, hC⟩ hP hs
    exact ⟨step_inv hI hP.stillOutstanding hs, (step_counted hC hs).mpr hP⟩
  refine ⟨⟨hcounted, hinv.safe.keys⟩, fun e s' hs => ⟨fun hB => (step_counted hcounted hs).mp hB.1.loaded, fun hP => ?_⟩⟩
  exact ⟨⟨(step_counted hcounted hs).mpr hP, (step_inv hinv hP.stillOutstanding hs).safe.keys⟩, step_completes hP hs⟩

/-- With room for three tasks the respooled task is in memory until its completion is recorded. -/
theorem booked_iff_respooled : ∃ s, Loadable .zero .empty 1 ∧
    Along StillUnacked step (load 0 (respoolEnv 3) .zero .empty 1) respoolRun ∧
    run step (load 0 (respoolEnv 3) .zero .empty 1) respoolRun = .ok s ∧ s.tr.loadedTasks = 1 ∧ s.Booked := by
  have hload : Loadable .zero .empty 1 := ⟨Int.le_refl 1, by simp, by simp, by decide⟩
  have al : Along StillUnacked step (load 0 (respoolEnv 3) .zero .empty 1) respoolRun := by decide +kernel
  obtain ⟨s, hr, hloaded⟩ : ∃ s, run step (load 0 (respoolEnv 3) .zero .empty 1) respoolRun = .ok s ∧
      s.tr.loadedTasks = 1 := by decide +kernel
  exact ⟨s, hload, al, hr, hloaded, (booked_iff hload al hr).1⟩

/-- With room for one task it is evicted before. Its completion is taken off a second time, and its ack is
above the read level. -/
theorem evictedAck_countedTwice : ∃ s, Loadable .zero .empty 1 ∧
    run step (load 0 (respoolEnv 1) .zero .empty 1) respoolRun.dropLast.dropLast = .ok s ∧
    s.tr.loadedTasks = 0 ∧ s.tr.unacked.length = 1 ∧ (⟨5, 1⟩, none) ∈ s.tr.outstandingTasks ∧
    ¬ (⟨5, 1⟩ : FairLevel) ≤ s.tr.readLevel := by
  rw [exists_and_left]
  exact ⟨⟨Int.le_refl 1, by simp, by simp, by decide⟩, by decide +kernel⟩

end FairBacklog

end FastOrchestration.Matching
