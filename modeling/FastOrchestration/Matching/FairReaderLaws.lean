import FastOrchestration.Matching.FairReader

/-!
# What the reader of a fair subqueue holds on to

`Ledger` records what happened to tasks: which got a level, which were reported as written, which were
completed. A task that was reported and is neither completed nor expired is owed. `Kept` says that no
owed task is at or below the ack level and that those up to the read level are outstanding or still to
be merged; `Safe` adds what `readTasksImpl` knows between two critical sections.

`Kept.merge` is the rule for `mergeTasksLocked`, for any set of levels below which every owed task is
known; `Safe.advance` is the rule for `advanceAckLevelLocked`. The rest follows from these two.
-/

namespace FastOrchestration.Matching

open Lib List SortedMap

/-- What has happened to the tasks of a subqueue. -/
structure Ledger where
  /-- The tasks that were given a level. -/
  issued : SortedMap FairLevel TaskInfo
  /-- The tasks whose write was reported successful. -/
  reported : List AllocatedTask
  /-- The levels that were completed. -/
  completed : List FairLevel

/-- The task was reported as written and is neither completed nor expired. -/
def Ledger.Owed (L : Ledger) (now : Int) (t : AllocatedTask) : Prop :=
  t ∈ L.reported ∧ t.1 ∉ L.completed ∧ ¬ t.2.isTaskExpired now

instance (L : Ledger) (now : Int) (t : AllocatedTask) : Decidable (L.Owed now t) :=
  inferInstanceAs (Decidable (_ ∧ _ ∧ _))

structure Ledger.Ok (L : Ledger) : Prop where
  positive : ∀ t ∈ L.issued, 1 ≤ t.1.pass ∧ 1 ≤ t.1.id
  reported : ∀ t ∈ L.reported, t ∈ L.issued

lemma Ledger.Ok.owed {L : Ledger} (hL : L.Ok) {now t} (ht : L.Owed now t) : t ∈ L.issued := hL.reported t ht.1

def ReadPhase.batch : ReadPhase → Option (List AllocatedTask × MergeMode)
  | fetched tasks mode => some (tasks, mode)
  | filtered tasks mode => some (tasks, mode)
  | _ => none

namespace FairTaskReader

variable {env : Env} {tr : FairTaskReader} {L L' : Ledger} {now : Int}
  {pending tasks : List AllocatedTask} {mode : MergeMode} {k : FairLevel} {d : TaskInfo}

/-- The task is held unacked in memory, or is part of a batch that is still to be merged. -/
def Holds (tr : FairTaskReader) (pending : List AllocatedTask) (t : AllocatedTask) : Prop :=
  (t.1, some t.2) ∈ tr.outstandingTasks ∨ t ∈ tr.newlyWrittenTasks ∨ t ∈ pending

instance (t : AllocatedTask) : Decidable (tr.Holds pending t) :=
  inferInstanceAs (Decidable (_ ∨ _ ∨ _))

structure Kept (L : Ledger) (now : Int) (pending : List AllocatedTask) (tr : FairTaskReader) : Prop where
  unacked : ∀ k d, (k, some d) ∈ tr.outstandingTasks → (k, d) ∈ L.issued
  acked : ∀ k, (k, none) ∈ tr.outstandingTasks → k ∈ L.completed ∧ ∃ d, (k, d) ∈ L.issued
  keys : ∀ e ∈ tr.outstandingTasks, tr.ackLevel < e.1 ∧ e.1 ≤ tr.readLevel
  le : tr.ackLevel ≤ tr.readLevel
  newly : ∀ t ∈ tr.newlyWrittenTasks, t ∈ L.issued
  above : ∀ t, L.Owed now t → tr.ackLevel < t.1
  held : ∀ t, L.Owed now t → t.1 ≤ tr.readLevel → tr.Holds pending t
  atEnd : tr.atEnd → ∀ t, L.Owed now t → tr.Holds pending t
  gc : ∀ g ∈ tr.inGC, g ≤ tr.ackLevel

/-- The batch in hand has every owed task up to its last level, or every owed task if it was read to the
end. -/
structure Covers (L : Ledger) (now : Int) (pending : List AllocatedTask) (tr : FairTaskReader)
    (tasks : List AllocatedTask) (mode : MergeMode) : Prop where
  reads : mode ≠ .write
  issued : ∀ t ∈ tasks, t ∈ L.issued
  known : ∀ t, L.Owed now t → tr.readLevel < t.1 → (mode = .readToEnd ∨ ∃ e ∈ tasks, t.1 ≤ e.1) →
    t ∈ tasks ∨ t ∈ tr.newlyWrittenTasks ∨ t ∈ pending

structure Safe (L : Ledger) (now : Int) (pending : List AllocatedTask) (tr : FairTaskReader) : Prop
    extends Kept L now pending tr where
  fetching : ∀ r n, tr.reading = .fetching r n → r = tr.readLevel
  batch : ∀ tasks mode, tr.reading.batch = some (tasks, mode) → tr.Covers L now pending tasks mode

/-! ### The candidates of a merge -/

lemma considers_iff : tr.considers mode k ↔ tr.ackLevel < k ∧
    ¬ (mode = .write ∧ ¬ tr.atEnd ∧ tr.readLevel < k) ∧ ∀ v, (k, v) ∉ tr.outstandingTasks := by
  unfold considers
  rw [← get?_eq_none, ← Option.not_isSome_iff_eq_none]
  split
  · next h => simp [h]
  next h =>
  split
  · next h' => simp [h']
  next h' =>
  have h'' : ¬ (mode = .write ∧ ¬ tr.atEnd ∧ tr.readLevel < k) := h'
  simp only [not_not.mp h, h'', not_false_iff, true_and]
  split <;> simp [*]

lemma mem_merged {c} (h : (k, c) ∈ tr.merged tasks mode) : (∃ d, c = .loaded d ∧ (k, some d) ∈ tr.outstandingTasks) ∨
      ∃ d, c = .fresh d ∧ (k, d) ∈ tasks ∧ tr.considers mode k := by
  rcases mem_of_mem_putAll h with h | ⟨h, -⟩
  · obtain ⟨t, ht, heq⟩ := mem_map.mp h
    obtain ⟨hmem, hc⟩ := mem_filter.mp ht
    cases heq
    exact .inr ⟨t.2, rfl, hmem, hc⟩
  obtain ⟨v, hv, hf⟩ := SortedMap.mem_filterMap.mp h
  obtain ⟨d, rfl, rfl⟩ := Option.map_eq_some_iff.mp hf
  exact .inl ⟨d, rfl, hv⟩

lemma loaded_mem_merged (h : (k, some d) ∈ tr.outstandingTasks) : (k, .loaded d) ∈ tr.merged tasks mode := by
  refine mem_putAll_of_mem (mem_filterMap.mpr ⟨some d, h, rfl⟩) ?_
  intro e he heq
  obtain ⟨t, ht, rfl⟩ := mem_map.mp he
  have hc := considers_iff.mp (mem_filter.mp ht).2
  exact hc.2.2 (some d) (heq ▸ h)

lemma fresh_mem_merged (h : (k, d) ∈ tasks) (hc : tr.considers mode k) :
    ∃ d', (k, .fresh d') ∈ tr.merged tasks mode ∧ (k, d') ∈ tasks := by
  have hmem : (k, .fresh d) ∈ (tasks.filter fun t => tr.considers mode t.1).map
      fun t => ((t.1, .fresh t.2) : FairLevel × Candidate) :=
    mem_map.mpr ⟨(k, d), mem_filter.mpr ⟨h, hc⟩, rfl⟩
  obtain ⟨c, hc, hin⟩ := exists_mem_putAll (m := tr.outstandingTasks.filterMap fun _ v => v.map .loaded) ⟨_, hmem, rfl⟩
  obtain ⟨t, ht, heq⟩ := mem_map.mp hin
  cases heq
  exact ⟨t.2, hc, (mem_filter.mp ht).1⟩

/-! ### The result of a merge -/

def mergeKept (env : Env) (tr : FairTaskReader) (tasks : List AllocatedTask) (mode : MergeMode) :
    List (FairLevel × Candidate) :=
  (tr.merged tasks mode).entries.take env.getTasksBatchSize.toNat

def mergeRest (env : Env) (tr : FairTaskReader) (tasks : List AllocatedTask) (mode : MergeMode) :
    List (FairLevel × Candidate) :=
  (tr.merged tasks mode).entries.drop env.getTasksBatchSize.toNat

lemma mem_merged_of_mergeKept {e} (h : e ∈ tr.mergeKept env tasks mode) : e ∈ tr.merged tasks mode := mem_of_mem_take h

lemma mergeKept_lt_mergeRest {a b} (ha : a ∈ tr.mergeKept env tasks mode)
    (hb : b ∈ tr.mergeRest env tasks mode) : a.1 < b.1 := take_lt_drop ha hb

lemma readLevel_merge (env : Env) (hid : ∀ e ∈ tr.merged tasks mode, e.1.id ≠ 0) :
    (tr.mergeKept env tasks mode = [] ∧ (tr.mergeTasksLocked env tasks mode).readLevel = tr.ackLevel) ∨
      ∃ l, (tr.mergeKept env tasks mode).getLast? = some l ∧ (tr.mergeTasksLocked env tasks mode).readLevel = l.1 := by
  simp only [mergeKept, mergeTasksLocked]
  cases hl : ((tr.merged tasks mode).entries.take env.getTasksBatchSize.toNat).getLast? with
  | none => exact .inl ⟨getLast?_eq_none_iff.mp hl, by simp [FairLevel.zero]⟩
  | some l =>
    have := hid l (mem_of_mem_take (mem_of_getLast? hl))
    exact .inr ⟨l, rfl, by simp [this]⟩

lemma le_readLevel_of_mergeKept (hid : ∀ e ∈ tr.merged tasks mode, e.1.id ≠ 0) {e}
    (h : e ∈ tr.mergeKept env tasks mode) : e.1 ≤ (tr.mergeTasksLocked env tasks mode).readLevel := by
  rcases readLevel_merge env hid with ⟨hnil, -⟩ | ⟨l, hl, hread⟩
  · simp [hnil] at h
  rw [hread]
  exact le_getLast ((tr.merged tasks mode).sorted.sublist (take_sublist _ _)) h hl

lemma mergeKept_of_le (hid : ∀ e ∈ tr.merged tasks mode, e.1.id ≠ 0) {e}
    (h : e ∈ tr.merged tasks mode) (hack : tr.ackLevel < e.1)
    (hle : e.1 ≤ (tr.mergeTasksLocked env tasks mode).readLevel) : e ∈ tr.mergeKept env tasks mode := by
  rcases mem_take_or_drop (n := env.getTasksBatchSize.toNat) h with h | h
  · exact h
  rcases readLevel_merge env hid with ⟨-, hread⟩ | ⟨l, hl, hread⟩
  · exact absurd hle (hread ▸ not_le.mpr hack)
  · exact absurd hle (hread ▸ not_le.mpr (mergeKept_lt_mergeRest (mem_of_getLast? hl) h))

lemma mem_evicted {rest : List (FairLevel × Candidate)} : k ∈ rest.filterMap (fun e => match e.2 with
      | .loaded _ => some e.1
      | .fresh _ => none) ↔ ∃ d, (k, .loaded d) ∈ rest := by
  simp only [mem_filterMap]
  constructor
  · rintro ⟨⟨k', c⟩, he, hk⟩
    cases c with
    | loaded d =>
      cases hk
      exact ⟨d, he⟩
    | fresh d => cases hk
  rintro ⟨d, h⟩
  exact ⟨_, h, rfl⟩

lemma mem_added {kept : List (FairLevel × Candidate)} {v} : (k, v) ∈ kept.filterMap (fun e => match e.2 with
      | .loaded _ => none
      | .fresh d => some (e.1, some d)) ↔ ∃ d, v = some d ∧ (k, .fresh d) ∈ kept := by
  simp only [mem_filterMap]
  constructor
  · rintro ⟨⟨k', c⟩, he, hk⟩
    cases c with
    | loaded d => cases hk
    | fresh d =>
      cases hk
      exact ⟨d, rfl, he⟩
  rintro ⟨d, rfl, h⟩
  exact ⟨_, h, rfl⟩

lemma mem_outstanding_merge : (k, some d) ∈ (tr.mergeTasksLocked env tasks mode).outstandingTasks ↔
    ∃ c, (k, c) ∈ tr.mergeKept env tasks mode ∧ c.data = d := by
  constructor
  · intro h
    rcases mem_of_mem_putAll h with h | ⟨h, -⟩
    · obtain ⟨d', hd, h⟩ := mem_added.mp h
      cases hd
      exact ⟨_, h, rfl⟩
    obtain ⟨⟨h, hev⟩, -⟩ := mem_removeAll.mp h |>.imp_left mem_removeAll.mp
    refine ⟨.loaded d, ?_, rfl⟩
    rcases mem_take_or_drop (n := env.getTasksBatchSize.toNat) (loaded_mem_merged h) with hk | hr
    · exact hk
    · exact absurd (mem_evicted.mpr ⟨d, hr⟩) hev
  rintro ⟨c, hk, rfl⟩
  cases c with
  | fresh d =>
    obtain ⟨v, hv, hin⟩ := exists_mem_putAll (k := k) ⟨(k, some d), mem_added.mpr ⟨d, rfl, hk⟩, rfl⟩
    obtain ⟨d', rfl, hk'⟩ := mem_added.mp hin
    cases functional (mem_merged_of_mergeKept hk) (mem_merged_of_mergeKept hk')
    exact hv
  | loaded d =>
    rcases mem_merged (mem_merged_of_mergeKept hk) with ⟨d', hd, hout⟩ | ⟨d', hd, -⟩
    · cases hd
      refine mem_putAll_of_mem (mem_removeAll.mpr ⟨mem_removeAll.mpr ⟨hout, ?_⟩, ?_⟩) ?_
      · intro hev
        obtain ⟨d', hr⟩ := mem_evicted.mp hev
        exact (mergeKept_lt_mergeRest hk hr).ne rfl
      · intro hst
        obtain ⟨⟨k', v⟩, hmem, rfl⟩ := mem_map.mp hst
        obtain ⟨hv, hnone⟩ := mem_select.mp hmem
        cases functional hout (mem_removeAll.mp hv).1
        simp at hnone
      rintro ⟨k', v⟩ hnew rfl
      obtain ⟨d', -, hk'⟩ := mem_added.mp hnew
      cases functional (mem_merged_of_mergeKept hk) (mem_merged_of_mergeKept hk')
    · cases hd

lemma acked_merge (h : (k, none) ∈ (tr.mergeTasksLocked env tasks mode).outstandingTasks) :
    (k, none) ∈ tr.outstandingTasks ∧ k ≤ (tr.mergeTasksLocked env tasks mode).readLevel := by
  rcases mem_of_mem_putAll h with h | ⟨h, -⟩
  · obtain ⟨d, hd, -⟩ := mem_added.mp h
    cases hd
  obtain ⟨hev, hst⟩ := mem_removeAll.mp h
  refine ⟨(mem_removeAll.mp hev).1, not_lt.mp fun hlt => hst ?_⟩
  refine mem_map.mpr ⟨_, mem_select.mpr ⟨hev, ?_⟩, rfl⟩
  exact Bool.and_eq_true_iff.mpr ⟨rfl, decide_eq_true hlt⟩

lemma atEnd_merge (h : (tr.mergeTasksLocked env tasks mode).atEnd) :
    tr.mergeRest env tasks mode = [] ∧ (mode = .readToEnd ∨ mode = .write ∧ tr.atEnd) := by
  simp only [mergeTasksLocked, Bool.if_false_left, Bool.and_eq_true, Bool.not_eq_true',
    decide_eq_false_iff_not, not_or, Bool.or_eq_true, Bool.not_eq_false] at h
  obtain ⟨⟨hmid, hrest, -⟩, h⟩ := h
  refine ⟨isEmpty_iff.mp hrest, ?_⟩
  cases mode with
  | readMiddle => exact absurd rfl hmid
  | readToEnd => exact .inl rfl
  | write => exact .inr ⟨rfl, by simpa using h⟩

/-! ### The rule for merges -/

section

variable (h : tr.Kept L now pending)

include h

lemma Kept.merged (hissued : ∀ t ∈ tasks, t ∈ L.issued) {e}
    (he : e ∈ tr.merged tasks mode) : (e.1, e.2.data) ∈ L.issued ∧ tr.ackLevel < e.1 := by
  obtain ⟨k, c⟩ := e
  rcases mem_merged he with ⟨d, rfl, hout⟩ | ⟨d, rfl, hin, hc⟩
  · exact ⟨h.unacked k d hout, (h.keys _ hout).1⟩
  · exact ⟨hissued _ hin, (considers_iff.mp hc).1⟩

/-- An owed task that is outstanding or in the batch is a candidate, unless it is ignored as being above
the read level. -/
lemma Kept.exists_merged (hissued : ∀ t ∈ tasks, t ∈ L.issued)
    {t} (ht : L.Owed now t) (hlevel : ¬ (mode = .write ∧ ¬ tr.atEnd ∧ tr.readLevel < t.1))
    (hknown : (t.1, some t.2) ∈ tr.outstandingTasks ∨ t ∈ tasks) :
    ∃ c, (t.1, c) ∈ tr.merged tasks mode ∧ c.data = t.2 := by
  rcases hknown with hout | hin
  · exact ⟨_, loaded_mem_merged hout, rfl⟩
  by_cases hv : ∃ v, (t.1, v) ∈ tr.outstandingTasks
  · obtain ⟨v, hv⟩ := hv
    cases v with
    | none => exact absurd (h.acked _ hv).1 ht.2.1
    | some d =>
      cases functional (h.unacked _ _ hv) (hissued t hin)
      exact ⟨_, loaded_mem_merged hv, rfl⟩
  have hc : tr.considers mode t.1 := considers_iff.mpr ⟨h.above t ht, hlevel, not_exists.mp hv⟩
  obtain ⟨d, hd, hin'⟩ := fresh_mem_merged (d := t.2) hin hc
  cases functional (hissued _ hin') (hissued t hin)
  exact ⟨_, hd, rfl⟩

/-- The rule for `mergeTasksLocked`. `C` is a set of levels, closed downwards, such that every owed task
in it is known. It has the read level and every task that is merged, and everything if the merge may
conclude that the reader is at the end. -/
lemma Kept.merge (hL : L.Ok) (newly : List AllocatedTask) {pending'}
    (hissued : ∀ t ∈ tasks, t ∈ L.issued) (hnewly : ∀ t ∈ newly, t ∈ L.issued) {C : FairLevel → Prop}
    (down : ∀ a b, a ≤ b → C b → C a) (hread : C tr.readLevel)
    (htasks : ∀ t ∈ tasks, tr.considers mode t.1 → C t.1)
    (hlevel : ∀ k, C k → ¬ (mode = .write ∧ ¬ tr.atEnd ∧ tr.readLevel < k))
    (hall : mode = .readToEnd ∨ mode = .write ∧ tr.atEnd → ∀ k, C k)
    (known : ∀ t, L.Owed now t → C t.1 →
      ((t.1, some t.2) ∈ tr.outstandingTasks ∨ t ∈ tasks) ∨ t ∈ newly ∨ t ∈ pending') :
    Kept L now pending' { tr.mergeTasksLocked env tasks mode with newlyWrittenTasks := newly } := by
  have hid : ∀ e ∈ tr.merged tasks mode, e.1.id ≠ 0 := by
    intro e he
    have := hL.positive _ (h.merged hissued he).1
    simp only at this
    omega
  have hC : ∀ e ∈ tr.merged tasks mode, C e.1 := by
    rintro ⟨k, c⟩ he
    rcases mem_merged he with ⟨d, rfl, hout⟩ | ⟨d, rfl, hin, hc⟩
    · exact down _ _ (h.keys _ hout).2 hread
    · exact htasks _ hin hc
  have hack : tr.ackLevel ≤ (tr.mergeTasksLocked env tasks mode).readLevel ∧
      C (tr.mergeTasksLocked env tasks mode).readLevel := by
    rcases readLevel_merge env hid with ⟨-, hr⟩ | ⟨l, hl, hr⟩
    · rw [hr]
      exact ⟨le_rfl, down _ _ h.le hread⟩
    have hmem := mem_merged_of_mergeKept (mem_of_getLast? hl)
    rw [hr]
    exact ⟨(h.merged hissued hmem).2.le, hC l hmem⟩
  refine ⟨?_, ?_, ?_, hack.1, hnewly, h.above, ?_, ?_, h.gc⟩
  · intro k d hk
    obtain ⟨c, hc, rfl⟩ := mem_outstanding_merge.mp hk
    exact (h.merged hissued (mem_merged_of_mergeKept hc)).1
  · intro k hk
    exact h.acked k (acked_merge hk).1
  · rintro ⟨k, v⟩ hk
    cases v with
    | none =>
      obtain ⟨hout, hle⟩ := acked_merge hk
      exact ⟨(h.keys _ hout).1, hle⟩
    | some d =>
      obtain ⟨c, hc, rfl⟩ := mem_outstanding_merge.mp hk
      exact ⟨(h.merged hissued (mem_merged_of_mergeKept hc)).2, le_readLevel_of_mergeKept hid hc⟩
  · intro t ht hle
    have hCt := down _ _ hle hack.2
    rcases known t ht hCt with hk | hk
    · obtain ⟨c, hc, hd⟩ := h.exists_merged hissued ht (hlevel _ hCt) hk
      exact .inl (mem_outstanding_merge.mpr ⟨c, mergeKept_of_le hid hc (h.above t ht) hle, hd⟩)
    · exact .inr hk
  intro hend t ht
  obtain ⟨hrest, hm⟩ := atEnd_merge hend
  have hCt := hall hm t.1
  rcases known t ht hCt with hk | hk
  · obtain ⟨c, hc, hd⟩ := h.exists_merged hissued ht (hlevel _ hCt) hk
    rcases mem_take_or_drop (n := env.getTasksBatchSize.toNat) hc with hkept | hr
    · exact .inl (mem_outstanding_merge.mpr ⟨c, hkept, hd⟩)
    rw [mergeRest] at hrest
    simp [hrest] at hr
  · exact .inr hk

lemma Kept.mergeRead (hL : L.Ok) (hb : tr.Covers L now pending tasks mode) :
    Kept L now pending (tr.mergeTasksLocked env tasks mode) := by
  refine h.merge hL tr.newlyWrittenTasks hb.issued h.newly
    (C := fun k => k ≤ tr.readLevel ∨ mode = .readToEnd ∨ ∃ e ∈ tasks, k ≤ e.1) ?_ (.inl le_rfl)
    (fun t ht _ => .inr (.inr ⟨t, ht, le_rfl⟩)) (fun k _ hm => hb.reads hm.1) ?_ ?_
  · rintro a b hab (hb | hm | ⟨e, he, hle⟩)
    · exact .inl (hab.trans hb)
    · exact .inr (.inl hm)
    · exact .inr (.inr ⟨e, he, hab.trans hle⟩)
  · rintro (hm | hm) k
    · exact .inr (.inl hm)
    · exact absurd hm.1 hb.reads
  intro t ht hC
  by_cases hle : t.1 ≤ tr.readLevel
  · rcases h.held t ht hle with hout | hk
    · exact .inl (.inl hout)
    · exact .inr hk
  rcases hb.known t ht (not_le.mp hle) (hC.resolve_left hle) with hin | hk
  · exact .inl (.inr hin)
  · exact .inr hk

lemma Kept.mergeWrite (hL : L.Ok) (newly : List AllocatedTask) {pending'}
    (hissued : ∀ t ∈ tasks, t ∈ L.issued) (hnewly : ∀ t ∈ newly, t ∈ L.issued)
    (hsplit : ∀ t, t ∈ tr.newlyWrittenTasks ∨ t ∈ pending → t ∈ tasks ∨ t ∈ newly ∨ t ∈ pending') :
    Kept L now pending' { tr.mergeTasksLocked env tasks .write with newlyWrittenTasks := newly } := by
  refine h.merge hL newly hissued hnewly (C := fun k => k ≤ tr.readLevel ∨ tr.atEnd) ?_ (.inl le_rfl) ?_ ?_ ?_ ?_
  · rintro a b hab (hb | hm)
    · exact .inl (hab.trans hb)
    · exact .inr hm
  · intro t _ hc
    have := (considers_iff.mp hc).2.1
    by_cases hend : tr.atEnd
    · exact .inr hend
    · exact .inl (not_lt.mp fun hlt => this ⟨rfl, hend, hlt⟩)
  · rintro k (hle | hend) ⟨-, hnot, hlt⟩
    · exact absurd hle (not_le.mpr hlt)
    · exact hnot hend
  · rintro (hm | hm) k
    · cases hm
    · exact .inr hm.2
  intro t ht hC
  have hold : tr.Holds pending t := hC.elim (h.held t ht) fun hend => h.atEnd hend t ht
  rcases hold with hout | hk
  · exact .inl (.inl hout)
  · exact (hsplit t hk).imp_left .inr

/-! ### The rule for acks -/

/-- The ack level moves over levels that are acked, and not past an owed task. -/
lemma Kept.popAcked (hnew : tr.newlyWrittenTasks = []) (hp : ∀ t, L.Owed now t → t ∉ pending) :
    Kept L now pending { tr with
      ackLevel := tr.lowestAcked.getLast?.elim tr.ackLevel (·.1)
      outstandingTasks := tr.outstandingTasks.dropWhile fun _ v => v.isNone } := by
  have hholds : ∀ t, L.Owed now t → tr.Holds pending t →
      (t.1, some t.2) ∈ tr.outstandingTasks.dropWhile fun _ v => v.isNone := by
    intro t ht hold
    rcases hold with hout | hin | hin
    · exact mem_dropWhile_of_mem hout (by simp)
    · simp [hnew] at hin
    · exact absurd hin (hp t ht)
  generalize hl : tr.lowestAcked.getLast?.elim tr.ackLevel (·.1) = level
  obtain ⟨hle, hlevel, hkept⟩ := dropWhile_level tr.outstandingTasks (fun _ v => v.isNone)
    (fun e he => (h.keys e he).1) hl
  have hread : level ≤ tr.readLevel := by
    obtain rfl | ⟨v, hmem, -⟩ := hlevel
    · exact h.le
    · exact (h.keys _ hmem).2
  refine ⟨fun k d hk => h.unacked k d (mem_of_mem_dropWhile hk), fun k hk => h.acked k (mem_of_mem_dropWhile hk),
    fun e he => ⟨((hkept e).mp he).2, (h.keys e (mem_of_mem_dropWhile he)).2⟩, hread, h.newly, fun t ht => ?_,
    fun t ht hle => .inl (hholds t ht (h.held t ht hle)),
    fun hend t ht => .inl (hholds t ht (h.atEnd hend t ht)), fun g hg => (h.gc g hg).trans hle⟩
  by_contra hge
  exact hge ((hkept _).mp (hholds t ht (h.held t ht ((not_lt.mp hge).trans hread)))).2

omit h in
/-- The ack level stays, or is not pinned and goes up over what is acked. A run of `doGC` may be started. -/
lemma advance_cases (env : Env) (tr : FairTaskReader) : tr.advanceAckLevelLocked env = tr ∨
    tr.ackLevelPinnedByWriter = false ∧ tr.newlyWrittenTasks = [] ∧ ∃ level inGC numToGC lastGCTime,
      tr.lowestAcked.getLast?.elim tr.ackLevel (·.1) = level ∧ (inGC = tr.inGC ∨ inGC = some level) ∧
      tr.advanceAckLevelLocked env = { tr with
        ackLevel := level
        outstandingTasks := tr.outstandingTasks.dropWhile fun _ v => v.isNone
        inGC, numToGC, lastGCTime } := by
  unfold advanceAckLevelLocked
  split
  · exact .inl rfl
  next hpin =>
  simp only [ackLevelPinnedLocked, Bool.or_eq_true, not_or, Bool.not_eq_true, Bool.not_eq_false',
    List.isEmpty_iff] at hpin
  refine .inr ⟨hpin.1, hpin.2, ?_⟩
  simp only
  split
  · unfold maybeGCLocked
    split
    · exact ⟨_, _, _, _, rfl, .inl rfl, rfl⟩
    · exact ⟨_, _, _, _, rfl, .inr rfl, rfl⟩
  · exact ⟨_, _, _, _, rfl, .inl rfl, rfl⟩

end

/-! ### The critical sections -/

/-- The ledger moves on: what is newly owed is above the ack level and still to be merged. -/
lemma Safe.ledger {now' pending'} (h : tr.Safe L now pending)
    (hissued : ∀ t ∈ L.issued, t ∈ L'.issued) (hcompleted : ∀ k ∈ L.completed, k ∈ L'.completed)
    (howed : ∀ t, L'.Owed now' t → L.Owed now t ∨ tr.ackLevel < t.1 ∧ t ∈ pending')
    (hpending : ∀ t, L'.Owed now' t → t ∈ pending → t ∈ pending') : tr.Safe L' now' pending' := by
  have hholds : ∀ t, L'.Owed now' t → tr.Holds pending t → tr.Holds pending' t := fun t ht hold =>
    hold.imp_right (Or.imp_right (hpending t ht))
  refine ⟨⟨fun k d hk => hissued _ (h.unacked k d hk), ?_, h.keys, h.le,
    fun t ht => hissued t (h.newly t ht), ?_, ?_, ?_, h.gc⟩, h.fetching, ?_⟩
  · intro k hk
    obtain ⟨hc, d, hd⟩ := h.acked k hk
    exact ⟨hcompleted k hc, d, hissued _ hd⟩
  · intro t ht
    rcases howed t ht with hold | hnew
    · exact h.above t hold
    · exact hnew.1
  · intro t ht hle
    rcases howed t ht with hold | hnew
    · exact hholds t ht (h.held t hold hle)
    · exact .inr (.inr hnew.2)
  · intro hend t ht
    rcases howed t ht with hold | hnew
    · exact hholds t ht (h.atEnd hend t hold)
    · exact .inr (.inr hnew.2)
  intro tasks mode hb
  have hcov := h.batch tasks mode hb
  refine ⟨hcov.reads, fun t ht => hissued t (hcov.issued t ht), ?_⟩
  intro t ht hlt hC
  rcases howed t ht with hold | hnew
  · exact (hcov.known t hold hlt hC).imp_right (Or.imp_right (hpending t ht))
  · exact .inr (.inr hnew.2)

/-- A section that leaves `readTasksImpl`, the read level and the written tasks as they are. -/
lemma Safe.of_kept {tr' : FairTaskReader} (h : tr.Safe L now pending) (hk : tr'.Kept L now pending)
    (hreading : tr'.reading = tr.reading) (hread : tr'.readLevel = tr.readLevel)
    (hnew : tr'.newlyWrittenTasks = tr.newlyWrittenTasks) : tr'.Safe L now pending := by
  refine ⟨hk, ?_, ?_⟩
  · rw [hreading, hread]
    exact h.fetching
  intro tasks mode hb
  have hcov := h.batch tasks mode (hreading ▸ hb)
  exact ⟨hcov.reads, hcov.issued, by
    rw [hread, hnew]
    exact hcov.known⟩

/-- Between two batches there is nothing to know about `readTasksImpl`. -/
lemma Kept.safe (h : tr.Kept L now pending) (hfetch : ∀ r n, tr.reading ≠ .fetching r n)
    (hbatch : tr.reading.batch = none) : tr.Safe L now pending :=
  ⟨h, fun r n hr => absurd hr (hfetch r n), fun tasks mode hb => by simp [hbatch] at hb⟩

/-- The critical section keeps what is owed. It moves the ack level only if the writer has not pinned it, and to
one of the levels. -/
structure Section (L : Ledger) (now : Int) (pending : List AllocatedTask) (tr tr' : FairTaskReader) : Prop where
  safe : tr'.Safe L now pending
  pinned : tr'.ackLevelPinnedByWriter = tr.ackLevelPinnedByWriter
  ack : tr'.ackLevel = tr.ackLevel ∨ tr.ackLevelPinnedByWriter = false ∧ ∃ d, (tr'.ackLevel, d) ∈ L.issued

lemma Safe.advance (h : tr.Safe L now pending) (env : Env)
    (hp : tr.ackLevelPinnedByWriter = false → ∀ t, L.Owed now t → t ∉ pending) :
    Section L now pending tr (tr.advanceAckLevelLocked env) := by
  rcases advance_cases env tr with heq | ⟨hpin, hnew, level, inGC, numToGC, lastGCTime, hlevel, hgc, heq⟩
  · rw [heq]
    exact ⟨h, rfl, .inl rfl⟩
  have hpop := h.toKept.popAcked hnew (hp hpin)
  rw [hlevel] at hpop
  rw [heq]
  refine ⟨h.of_kept { hpop with gc := ?_ } rfl rfl rfl, rfl, ?_⟩
  · rintro g hg
    rcases hgc with rfl | rfl
    · exact hpop.gc g hg
    · cases hg
      exact le_rfl
  refine (dropWhile_level tr.outstandingTasks (fun _ v => v.isNone) (fun e he => (h.keys e he).1) hlevel).2.1.imp_right ?_
  rintro ⟨v, hmem, hnone⟩
  exact ⟨hpin, (h.acked _ (Option.isNone_iff_eq_none.mp hnone ▸ hmem)).2⟩

section

variable (h : tr.Safe L now pending)

include h

lemma Safe.maybeRead (env : Env) : (tr.maybeReadTasksLocked env).Safe L now pending ∧
    (tr.maybeReadTasksLocked env).ackLevelPinnedByWriter = tr.ackLevelPinnedByWriter ∧
    (tr.maybeReadTasksLocked env).ackLevel = tr.ackLevel := by
  unfold maybeReadTasksLocked
  split
  · exact ⟨h, rfl, rfl⟩
  have hk : Kept L now pending { tr with reading := .top false } :=
    { h.toKept with }
  exact ⟨hk.safe (by simp) rfl, rfl, rfl⟩

omit h in
lemma Kept.putAcked (h : tr.Kept L now pending) (loaded : Int) {level}
    (hk : ∃ v, (level, v) ∈ tr.outstandingTasks) (hc : level ∈ L.completed) :
    Kept L now pending { tr with
      outstandingTasks := tr.outstandingTasks.put level none
      loadedTasks := loaded } := by
  obtain ⟨v, hv⟩ := hk
  have hholds : ∀ t, L.Owed now t → tr.Holds pending t →
      (t.1, some t.2) ∈ tr.outstandingTasks.put level none ∨ t ∈ tr.newlyWrittenTasks ∨ t ∈ pending := by
    intro t ht hold
    refine hold.imp_left fun hout => mem_put.mpr (.inr ⟨?_, hout⟩)
    rintro rfl
    exact ht.2.1 hc
  refine ⟨?_, ?_, ?_, h.le, h.newly, h.above, ?_, ?_, h.gc⟩
  · intro k d hk
    rcases mem_put.mp hk with heq | ⟨-, hk⟩
    · cases heq
    · exact h.unacked k d hk
  · intro k hk
    rcases mem_put.mp hk with heq | ⟨-, hk⟩
    · cases heq
      cases v with
      | none => exact h.acked _ hv
      | some d => exact ⟨hc, d, h.unacked _ d hv⟩
    · exact h.acked k hk
  · intro e he
    rcases mem_put.mp he with rfl | ⟨-, he⟩
    · exact h.keys (level, v) hv
    · exact h.keys e he
  · exact fun t ht hle => hholds t ht (h.held t ht hle)
  · exact fun hend t ht => hholds t ht (h.atEnd hend t ht)

lemma Safe.complete {level} (hk : ∃ v, (level, v) ∈ tr.outstandingTasks)
    (hc : level ∈ L.completed) (hp : tr.ackLevelPinnedByWriter = false → ∀ t, L.Owed now t → t ∉ pending) :
    Section L now pending tr (tr.completeTaskLocked env level) := by
  have hput := h.of_kept (h.toKept.putAcked (tr.loadedTasks - 1) hk hc) rfl rfl rfl
  have hadv := hput.advance env hp
  obtain ⟨hsafe, hpin, hack⟩ := hadv.safe.maybeRead env
  exact ⟨hsafe, hpin.trans hadv.pinned, hack ▸ hadv.ack⟩

lemma Safe.reopen {writeErr : Bool} :
    (if writeErr then { tr with atEnd := false }.maybeReadTasksLocked env else tr).Safe L now pending ∧
      (if writeErr then { tr with atEnd := false }.maybeReadTasksLocked env else tr).ackLevel = tr.ackLevel := by
  split
  · have hopen : Safe L now pending { tr with atEnd := false } :=
      h.of_kept { h.toKept with atEnd := nofun } rfl rfl rfl
    exact ⟨(hopen.maybeRead env).1, (hopen.maybeRead env).2.2⟩
  · exact ⟨h, rfl⟩

omit h in
/-- The rule for `unpinAckLevel`, once the batch of the writer is merged. -/
lemma Safe.unpin (h : tr.Safe L now []) (env : Env) (writeErr : Bool) : (tr.unpinAckLevel env writeErr).Safe L now [] ∧
    ((tr.unpinAckLevel env writeErr).ackLevel = tr.ackLevel ∨
      ∃ d, ((tr.unpinAckLevel env writeErr).ackLevel, d) ∈ L.issued) := by
  have hread := @Safe.reopen env _ _ _ _ h writeErr
  have hfree : Safe L now [] { (if writeErr then { tr with atEnd := false }.maybeReadTasksLocked env else tr) with
      ackLevelPinnedByWriter := false } := hread.1.of_kept { hread.1.toKept with } rfl rfl rfl
  have hadv := hfree.advance env fun _ t _ => not_mem_nil
  exact ⟨hadv.safe, hread.2 ▸ hadv.ack.imp_right And.right⟩

omit h in
/-- The rule for `wroteNewTasks`: the tasks of the writer are merged or held back. -/
lemma Safe.wrote (hL : L.Ok) (h : tr.Safe L now tasks) (hissued : ∀ t ∈ tasks, t ∈ L.issued) :
    (tr.mergeTasks env tasks .write).Safe L now [] := by
  unfold mergeTasks
  split
  · have hholds : ∀ t, tr.Holds tasks t → Holds { tr with
        newlyWrittenTasks := tr.newlyWrittenTasks ++ tasks } [] t := by
      rintro t (hout | hin)
      · exact .inl hout
      · exact .inr (.inl (mem_append.mpr hin))
    refine ⟨⟨h.unacked, h.acked, h.keys, h.le, ?_, h.above, ?_, ?_, h.gc⟩, h.fetching, ?_⟩
    · intro t ht
      exact (mem_append.mp ht).elim (h.newly t) (hissued t)
    · exact fun t ht hle => hholds t (h.held t ht hle)
    · exact fun hend t ht => hholds t (h.atEnd hend t ht)
    intro ts mode hb
    have hcov := h.batch ts mode hb
    refine ⟨hcov.reads, hcov.issued, fun t ht hlt hC => ?_⟩
    exact (hcov.known t ht hlt hC).imp_right fun hin => .inl (mem_append.mpr hin)
  next hoff =>
  have hoff : tr.reading = .off := by simpa using hoff
  refine Kept.safe ?_ (by simp [mergeTasksLocked, hoff]) (by simp [mergeTasksLocked, hoff, ReadPhase.batch])
  exact h.toKept.mergeWrite hL tr.newlyWrittenTasks hissued h.newly fun t ht => by
    rcases ht with ht | ht
    · exact .inr (.inl ht)
    · exact .inl ht

/-- The tasks that were held back are merged when the loop of `readTasksImpl` is left. -/
lemma Safe.leaveLoop (env : Env) (hL : L.Ok) :
    Safe L now pending { { tr with reading := .off }.mergeTasksLocked env tr.newlyWrittenTasks .write with
      newlyWrittenTasks := [] } := by
  have hk : Kept L now pending { tr with reading := .off } := { h.toKept with }
  refine Kept.safe ?_ (by simp [mergeTasksLocked]) rfl
  exact hk.mergeWrite hL [] hk.newly (by simp) fun t ht => ht.imp_right .inr

lemma Safe.loop (hL : L.Ok) {failed} (hp : tr.ackLevelPinnedByWriter = false → ∀ t, L.Owed now t → t ∉ pending) :
    Section L now pending tr (tr.readTasksImpl env failed) := by
  unfold readTasksImpl
  split
  · simp only
    split
    · have hk : Kept L now pending { tr with reading := .off } := { h.toKept with }
      exact ⟨hk.safe (by simp) rfl, rfl, .inl rfl⟩
    · have hadv := (h.leaveLoop env hL).advance env hp
      exact ⟨hadv.safe, hadv.pinned, hadv.ack⟩
  refine ⟨⟨{ h.toKept with }, ?_, ?_⟩, rfl, .inl rfl⟩
  · intro r n hr
    cases hr
    rfl
  intro ts mode hb
  cases hb

lemma Safe.failed (backoff : Bool) : Safe L now pending { tr with reading := .top true, backoffTimer := backoff } := by
  have hk : Kept L now pending { tr with reading := .top true, backoffTimer := backoff } :=
    { h.toKept with }
  exact hk.safe (by simp) rfl

lemma Safe.backoffFires : Section L now pending tr (tr.backoffFires env) := by
  have hoff : Safe L now pending { tr with backoffTimer := false } :=
    h.of_kept { h.toKept with } rfl rfl rfl
  obtain ⟨hsafe, hpin, hack⟩ := hoff.maybeRead env
  exact ⟨hsafe, hpin, .inl hack⟩

lemma Safe.gcDone (result : Option Int) : Section L now pending tr (tr.gcDone result) := by
  unfold FairTaskReader.gcDone
  split
  · exact ⟨h.of_kept { h.toKept with gc := by simp } rfl rfl rfl, rfl, .inl rfl⟩
  · split <;> exact ⟨h.of_kept { h.toKept with gc := by simp } rfl rfl rfl, rfl, .inl rfl⟩

/-! ### Reading a batch -/

omit h in
lemma readFrom_le {t : AllocatedTask} (hpos : 1 ≤ t.1.pass ∧ 1 ≤ t.1.id) {r : FairLevel} (hlt : r < t.1) :
    readFrom r ≤ t.1 := by
  refine max_lt hlt ?_
  rw [FairLevel.lt_def]
  simp only
  omega

lemma Safe.fetched (hL : L.Ok) {r n} (hr : tr.reading = .fetching r n) {rows : SortedMap FairLevel TaskInfo}
    (hrows : ∀ t ∈ rows, t ∈ L.issued) (howed : ∀ t, L.Owed now t → t ∈ rows) :
    Safe L now pending { tr with
      reading := .fetched (getFairTasks rows (readFrom r) n) (readMode (getFairTasks rows (readFrom r) n) n) } := by
  refine ⟨{ h.toKept with }, by simp, ?_⟩
  intro tasks mode hb
  cases hb
  have hsorted : (rows.entries.filter fun t => readFrom r ≤ t.1).Pairwise (·.1 < ·.1) := rows.sorted.filter _
  refine ⟨?_, ?_, ?_⟩
  · unfold readMode
    split <;> simp
  · intro t ht
    exact hrows t (mem_filter.mp (mem_of_mem_take ht)).1
  intro t ht hlt hC
  rw [← h.fetching r n hr] at hlt
  have hin : t ∈ rows.entries.filter fun t => readFrom r ≤ t.1 :=
    mem_filter.mpr ⟨howed t ht, by simpa using readFrom_le (hL.positive t (hL.owed ht)) hlt⟩
  rw [← take_append_drop n.toNat (rows.entries.filter fun t => readFrom r ≤ t.1)] at hin hsorted
  rcases mem_append.mp hin with htake | hdrop
  · exact .inl htake
  -- the task is beyond the batch, so the batch is full and ends before it
  rcases hC with hm | ⟨e, he, hle⟩
  · have hlen : ((getFairTasks rows (readFrom r) n).length : Int) < n := by
      by_contra hnot
      simp [readMode, hnot] at hm
    have := length_pos_of_mem hdrop
    simp only [getFairTasks, length_take, length_drop] at hlen this
    omega
  · exact absurd hle (not_le.mpr ((pairwise_append.mp hsorted).2.2 e he t hdrop))

lemma Safe.filtered (hr : tr.reading = .fetched tasks mode) :
    Safe L now pending { tr with reading := .filtered (tasks.filter fun t => ¬ t.2.isTaskExpired now) mode } := by
  have hcov := h.batch tasks mode (by rw [hr]; rfl)
  refine ⟨{ h.toKept with }, by simp, ?_⟩
  intro ts m hb
  cases hb
  refine ⟨hcov.reads, fun t ht => hcov.issued t (mem_filter.mp ht).1, ?_⟩
  intro t ht hlt hC
  have hC' : mode = .readToEnd ∨ ∃ e ∈ tasks, t.1 ≤ e.1 :=
    hC.imp_right fun ⟨e, he, hle⟩ => ⟨e, (mem_filter.mp he).1, hle⟩
  refine (hcov.known t ht hlt hC').imp_left fun hin => ?_
  exact mem_filter.mpr ⟨hin, by simpa using ht.2.2⟩

lemma Safe.merged (hL : L.Ok) (hr : tr.reading = .filtered tasks mode) :
    Safe L now pending { tr.mergeTasksLocked env tasks mode with reading := .top false } := by
  have hk : Kept L now pending (tr.mergeTasksLocked env tasks mode) :=
    h.toKept.mergeRead hL (h.batch tasks mode (by rw [hr]; rfl))
  have hk' : Kept L now pending { tr.mergeTasksLocked env tasks mode with reading := .top false } :=
    { hk with }
  exact hk'.safe (by simp) rfl

end

end FairTaskReader

end FastOrchestration.Matching
