import FastOrchestration.Queues.ReaderLaws

/-!
# What mitigation actions keep

A reader group is well formed if each of its readers is, and responsible for a task if one of them is.
An action moves slices between readers, so that only the group as a whole keeps what it is responsible
for (`ReaderGroup.Keeps`). Four of the five actions are a splitter whose results go to the next
reader: `moveSlices_yields` is about all of them, and what is particular to each is that its splitter
is `Reader.Sound`. No action passes slices out of order to `MergeSlices`, since `Fault` does not
include the panic of `validateSlicesOrderedDisjoint` (`Action.run_yields`).
-/

namespace FastOrchestration.Queues

open List ReaderGroup

open Lib (Yields)

variable {κ : Type} [DecidableEq κ] {g : Grouper κ} {w : World} {m : Nat} {b : Key}

namespace ReaderGroup

variable {group group' : ReaderGroup κ} {id : Int}

def Wf (g : Grouper κ) (w : World) (b : Key) (group : ReaderGroup κ) : Prop :=
  ∀ id ∈ group.ids, Reader.Wf g w b (group.slices id)

def Covers (group : ReaderGroup κ) (t : Task) : Prop :=
  ∃ id ∈ group.ids, Reader.Covers (group.slices id) t

structure Keeps (g : Grouper κ) (w : World) (b : Key) (group group' : ReaderGroup κ) : Prop where
  wf : group'.Wf g w b
  covers : ∀ t ∈ w.store.tasks, ¬ w.done t.key → group.Covers t → group'.Covers t

lemma Keeps.refl (hw : group.Wf g w b) : Keeps g w b group group := ⟨hw, fun _ _ _ h => h⟩

lemma Keeps.trans {group''} (h : Keeps g w b group group')
    (h' : Keeps g w b group' group'') : Keeps g w b group group'' :=
  ⟨h'.wf, fun t ht hd hc => h'.covers t ht hd (h.covers t ht hd hc)⟩

omit [DecidableEq κ] in
@[simp]
lemma slices_setSlices (id : Int) (slices : List (Slice κ)) :
    (group.setSlices id slices).slices id = slices := Function.update_self ..

omit [DecidableEq κ] in
lemma slices_setSlices_of_ne {id'} (h : id' ≠ id) (slices : List (Slice κ)) :
    (group.setSlices id slices).slices id' = group.slices id' := Function.update_of_ne h ..

lemma Wf.setSlices (hw : group.Wf g w b) (id : Int) {slices}
    (hs : Reader.Wf g w b slices) : (group.setSlices id slices).Wf g w b := by
  intro id' hid'
  by_cases h : id' = id
  · subst h
    rw [slices_setSlices]
    exact hs
  rw [slices_setSlices_of_ne h]
  exact hw id' hid'

lemma setSlices_keeps (hw : group.Wf g w b) {slices} (hk : Reader.Keeps g w b (group.slices id) slices) :
    Keeps g w b group (group.setSlices id slices) := by
  refine ⟨hw.setSlices id hk.wf, fun t ht hd ⟨id', hid', hc⟩ => ⟨id', hid', ?_⟩⟩
  by_cases h : id' = id
  · subst h
    rw [slices_setSlices]
    exact hk.covers t ht hd hc
  rw [slices_setSlices_of_ne h]
  exact hc

lemma update_yields {F : Panic → Prop} (hw : group.Wf g w b) {f} (hf : Reader.Wf g w b (group.slices id) →
      Yields F (Reader.Keeps g w b (group.slices id)) (f (group.slices id))) :
    Yields F (Keeps g w b group) (group.update id f) := by
  unfold update
  split
  · rename_i hid
    exact (hf (hw id hid)).bind fun slices hk => setSlices_keeps hw hk
  · exact .refl hw

omit [DecidableEq κ] in
lemma mem_getOrCreateReader {id'} : id' ∈ (group.getOrCreateReader id).ids ↔ id' = id ∨ id' ∈ group.ids := by
  unfold getOrCreateReader
  split
  · rename_i hid
    exact ⟨.inr, fun h => h.elim (fun h => h ▸ hid) fun h => h⟩
  · exact mem_cons

omit [DecidableEq κ] in
lemma slices_getOrCreateReader {id'} (hid' : id' ∈ group.ids) :
    (group.getOrCreateReader id).slices id' = group.slices id' := by
  unfold getOrCreateReader
  split
  · rfl
  rename_i hid
  refine Function.update_of_ne (fun h => hid ?_) _ _
  rw [← h]
  exact hid'

lemma getOrCreateReader_keeps (hw : group.Wf g w b) (id : Int) : Keeps g w b group (group.getOrCreateReader id) := by
  refine ⟨?_, fun t _ _ ⟨id', hid', hc⟩ => ⟨id', mem_getOrCreateReader.mpr (.inr hid'), ?_⟩⟩
  · unfold getOrCreateReader
    split
    · exact hw
    intro id' hid'
    by_cases h : id' = id
    · subst h
      simpa using Reader.wf_nil
    · simpa [h] using hw id' ((mem_cons.mp hid').resolve_left h)
  rw [slices_getOrCreateReader hid']
  exact hc

lemma shrinkAll_keeps (hw : group.Wf g w b) : Keeps g w b group (group.shrinkAll g m) :=
  ⟨fun id hid => (Reader.shrinkSlices_keeps (hw id hid)).wf,
    fun t ht hd ⟨id, hid, hc⟩ => ⟨id, hid, (Reader.shrinkSlices_keeps (hw id hid)).covers t ht hd hc⟩⟩

lemma moveSlices_yields (hw : group.Wf g w b) (hid : id ∈ group.ids) {splitter} (hsound : Reader.Sound g w splitter) :
    Yields (Fault w) (Keeps g w b group) (group.moveSlices g m id splitter) := by
  refine (Reader.splitSlices_yields hsound 0 (hw id hid)).bind fun ka hka => ?_
  obtain ⟨kept, aside⟩ := ka
  obtain ⟨hk, ha, -, hcov⟩ := hka
  dsimp only at hk ha hcov ⊢
  split
  · rename_i hempty
    refine setSlices_keeps hw ⟨hk, fun t ht hd hc => (hcov t ht hd hc).resolve_right ?_⟩
    rw [isEmpty_iff.mp hempty]
    exact fun ⟨_, h, _⟩ => nomatch h
  have hw2 := (getOrCreateReader_keeps (hw.setSlices id hk) (id + 1)).wf
  have hnext : id + 1 ∈ ((group.setSlices id kept).getOrCreateReader (id + 1)).ids :=
    mem_getOrCreateReader.mpr (.inl rfl)
  unfold update
  rw [if_pos hnext]
  refine (Reader.mergeSlices_yields (hw2 _ hnext) ha).bind fun merged hm => ?_
  refine ⟨hw2.setSlices _ hm.wf, fun t ht hd ⟨id', hid', hc⟩ => ?_⟩
  have hslices : ((group.setSlices id kept).getOrCreateReader (id + 1)).slices id' =
      (group.setSlices id kept).slices id' := slices_getOrCreateReader hid'
  by_cases hnew : id' = id + 1
  · -- the next reader keeps its own
    refine ⟨id + 1, hnext, ?_⟩
    rw [slices_setSlices]
    refine hm.covers t ht hd (Reader.covers_append.mpr (.inl ?_))
    rw [hnew] at hslices hc
    rw [hslices, slices_setSlices_of_ne (by omega)]
    exact hc
  by_cases hself : id' = id
  · obtain hc | hc := hcov t ht hd (hself ▸ hc)
    · refine ⟨id', mem_getOrCreateReader.mpr (.inr hid'), ?_⟩
      rw [slices_setSlices_of_ne hnew, hslices, hself, slices_setSlices]
      exact hc
    -- what was set aside is in the next reader
    refine ⟨id + 1, hnext, ?_⟩
    rw [slices_setSlices]
    exact hm.covers t ht hd (Reader.covers_append.mpr (.inr hc))
  refine ⟨id', mem_getOrCreateReader.mpr (.inr hid'), ?_⟩
  rw [slices_setSlices_of_ne hnew, hslices, slices_setSlices_of_ne hself]
  exact hc

section Splitters

variable {s : Slice κ}

/-- One part of a slice stays, the other one moves, perhaps reduced. -/
lemma splits_pair {s moved moved' remain : Slice κ} (hr : moved.scope.range = s.scope.range)
    (hr' : remain.scope.range = s.scope.range) (hred : Slice.Reduced g w moved moved')
    (hwf : remain.Wf g w) (hcov : ∀ t, s.Covers t → moved.Covers t ∨ remain.Covers t) :
    Reader.Splits g w s [remain] moved' where
  wf := forall_mem_cons.mpr ⟨hred.wf, forall_mem_singleton.mpr hwf⟩
  covers t ht hd hc := (hcov t hc).imp (hred.covers t ht hd) fun hc => Reader.covers_cons.mpr (.inl hc)
  lower := by
    refine forall_mem_cons.mpr ⟨hr ▸ hred.lower, forall_mem_singleton.mpr ?_⟩
    rw [hr']
  upper := by
    refine forall_mem_cons.mpr ⟨?_, forall_mem_singleton.mpr ?_⟩
    · rw [hred.upper, hr]
    · rw [hr']
  ordered := pairwise_singleton _ _

lemma splits_whole (hs : s.Wf g w) : Reader.Splits g w s [] s where
  wf := forall_mem_singleton.mpr hs
  covers _ _ _ hc := .inl hc
  lower := forall_mem_singleton.mpr le_rfl
  upper := forall_mem_singleton.mpr le_rfl
  ordered := .nil

lemma clearKeysSplitter_sound (keysToClear : Nat → Option (Finset κ)) :
    Reader.Sound g w (clearKeysSplitter g m keysToClear) := by
  intro i s hs
  unfold clearKeysSplitter
  split
  · exact nofun
  -- the groups of a predicate are told by tasks and by executables alike
  refine (Slice.splitByPredicate_yields hs (w.admits_stable (g.normal _) (g.stable _))
    fun t _ => g.stable _ t).bind fun lr hlr remaining moved h => ?_
  obtain ⟨hl, hr, hwl, hwr, hcov⟩ := hlr
  cases h
  exact splits_pair hl hr (Slice.clear_spec hwl) hwr hcov

lemma groupsSplitter_sound (groups : Finset κ) : Reader.Sound g w (groupsSplitter g m groups) := by
  intro i s hs
  unfold groupsSplitter
  split
  · exact nofun
  refine (Slice.splitByPredicate_yields hs (w.admits_stable (g.normal _) (g.stable _))
    fun t _ => g.stable _ t).bind fun lr hlr remaining moved h => ?_
  obtain ⟨hl, hr, hwl, hwr, hcov⟩ := hlr
  cases h
  exact splits_pair hl hr (.refl hwl) hwr hcov

lemma nonUniversalSplitter_sound : Reader.Sound g w (nonUniversalSplitter : Splitter κ) := by
  intro i s hs
  unfold nonUniversalSplitter
  split
  · exact nofun
  intro remaining moved h
  cases h
  exact splits_whole hs

section

variable (hs : s.Wf g w) {k : Key} (hk : k ≤ Key.maximumKey → k.Valid)

include hs hk

lemma valid_of_canSplit (hcan : s.scope.canSplitByRange k) : k.Valid :=
  hk (((Range.canSplit_iff hs.proper.1).mp hcan).2.trans hs.proper.2.2.le_maximumKey)

lemma cutBelow_yields :
    Yields (Fault w) (fun cut => cut.2.Wf g w ∧ s.scope.range.inclusiveMin ≤ cut.2.scope.range.inclusiveMin ∧
      cut.2.scope.range.exclusiveMax = s.scope.range.exclusiveMax ∧ Reader.Ordered cut.1 ∧
      (∀ o ∈ cut.1, o.Wf g w ∧ o.scope.range.inclusiveMin = s.scope.range.inclusiveMin ∧
        o.scope.range.exclusiveMax = k ∧ k ≤ s.scope.range.exclusiveMax) ∧
      ∀ t, s.Covers t → cut.2.Covers t ∨ Reader.Covers cut.1 t) (cutBelow g m s k) := by
  unfold cutBelow
  split
  · rename_i hcan
    refine (Slice.splitByRange_yields hs (valid_of_canSplit hs hk hcan)).bind fun lr hlr => ?_
    obtain ⟨⟨h1, h2⟩, hl, hr, hwl, hwr, hcov⟩ := hlr
    refine ⟨hwr, by rw [hr]; exact h1, by rw [hr], pairwise_singleton _ _,
      forall_mem_singleton.mpr ⟨hwl, by rw [hl], by rw [hl], h2⟩, fun t hc => ?_⟩
    exact (hcov t hc).symm.imp id fun hc => Reader.covers_cons.mpr (.inl hc)
  · exact ⟨hs, le_rfl, rfl, .nil, nofun, fun _ hc => .inl hc⟩

lemma cutAbove_yields :
    Yields (Fault w) (fun cut => cut.2.Wf g w ∧ cut.2.scope.range.inclusiveMin = s.scope.range.inclusiveMin ∧
      cut.2.scope.range.exclusiveMax ≤ s.scope.range.exclusiveMax ∧ Reader.Ordered cut.1 ∧
      (∀ o ∈ cut.1, o.Wf g w ∧ o.scope.range.inclusiveMin = k ∧
        o.scope.range.exclusiveMax = s.scope.range.exclusiveMax ∧ s.scope.range.inclusiveMin ≤ k) ∧
      ∀ t, s.Covers t → cut.2.Covers t ∨ Reader.Covers cut.1 t) (cutAbove g m s k) := by
  unfold cutAbove
  split
  · rename_i hcan
    refine (Slice.splitByRange_yields hs (valid_of_canSplit hs hk hcan)).bind fun lr hlr => ?_
    obtain ⟨⟨h1, h2⟩, hl, hr, hwl, hwr, hcov⟩ := hlr
    refine ⟨hwl, by rw [hl], by rw [hl]; exact h2, pairwise_singleton _ _,
      forall_mem_singleton.mpr ⟨hwr, by rw [hr], by rw [hr], h1⟩, fun t hc => ?_⟩
    exact (hcov t hc).imp id fun hc => Reader.covers_cons.mpr (.inl hc)
  · exact ⟨hs, rfl, le_rfl, .nil, nofun, fun _ hc => .inl hc⟩

end

lemma stuckSplitter_sound {r : Range} (hr : r.Valid) (hmin : r.inclusiveMin.Valid)
    (hmax : r.exclusiveMax ≤ Key.maximumKey → r.exclusiveMax.Valid) :
    Reader.Sound g w (stuckSplitter g m r) := by
  intro i s hs
  unfold stuckSplitter
  split
  · intro remaining moved h
    cases h
    exact splits_whole hs
  refine (cutBelow_yields hs fun _ => hmin).bind fun cut hcut => ?_
  obtain ⟨below, rest⟩ := cut
  obtain ⟨hwr, hlr, hur, hob, hbelow, hcovb⟩ := hcut
  refine (cutAbove_yields hwr hmax).bind fun cut hcut => ?_
  obtain ⟨above, stuck⟩ := cut
  obtain ⟨hws, hls, hus, hoa, habove, hcova⟩ := hcut
  dsimp only at *
  split
  · exact nofun
  intro remaining moved h
  cases h
  refine ⟨?_, fun t _ _ hc => ?_, ?_, ?_, ?_⟩
  · refine forall_mem_cons.mpr ⟨hws, fun o ho => ?_⟩
    exact (mem_append.mp ho).elim (fun ho => (hbelow o ho).1) fun ho => (habove o ho).1
  · rw [Reader.covers_append]
    obtain hc | hc := hcovb t hc
    · exact (hcova t hc).imp id .inr
    · exact .inr (.inl hc)
  · refine forall_mem_cons.mpr ⟨hls ▸ hlr, fun o ho => ?_⟩
    obtain ho | ho := mem_append.mp ho
    · exact (hbelow o ho).2.1.ge
    obtain ⟨-, hk, -, hle⟩ := habove o ho
    rw [hk]
    exact hlr.trans hle
  · refine forall_mem_cons.mpr ⟨hur ▸ hus, fun o ho => ?_⟩
    obtain ho | ho := mem_append.mp ho
    · obtain ⟨-, -, hk, hle⟩ := hbelow o ho
      rw [hk]
      exact hle
    · exact ((habove o ho).2.2.1.trans hur).le
  refine pairwise_append.mpr ⟨hob, hoa, fun o ho o' ho' => ?_⟩
  rw [(hbelow o ho).2.2.1, (habove o' ho').2.1]
  exact hr

end Splitters

end ReaderGroup

namespace Action

variable {group : ReaderGroup κ}

lemma splitAndClearSlice_yields (hw : group.Wf g w b) (maxReaderCount : Int) (visit : Int × (Nat → Option (Finset κ))) :
    Yields (Fault w) (Keeps g w b group) (splitAndClearSlice g m maxReaderCount group visit) := by
  unfold splitAndClearSlice
  dsimp only
  split
  · exact update_yields hw fun hs => Reader.clearSlices_keeps hs _
  split
  · rename_i hid
    exact moveSlices_yields hw hid (clearKeysSplitter_sound _)
  · exact .refl hw

lemma moveGroups_yields (hw : group.Wf g w b) (minTaskCount : Int → Int) (id : Int) :
    Yields (Fault w) (Keeps g w b group) (moveGroups g m minTaskCount group id) := by
  unfold moveGroups
  split
  · rename_i hid
    dsimp only
    split
    · exact .refl hw
    refine (moveSlices_yields hw hid (groupsSplitter_sound _)).bind ?_
    exact fun group' hk => hk.trans (getOrCreateReader_keeps hk.wf _)
  · exact .refl hw

lemma foldSteps_keeps {α : Type} {f start} (hstart : Keeps g w b start group) (xs : List α)
    (hf : ∀ group x, group.Wf g w b → Yields (Fault w) (Keeps g w b group) (f group x)) :
    Yields (Fault w) (Keeps g w b start) (Lib.foldSteps f group xs) :=
  Lib.foldSteps_yields (J := fun group _ => Keeps g w b start group)
    (fun group x _ hk => (hf group x hk.wf).mono (fun _ h => h) fun _ hk' => hk.trans hk') hstart

lemma compactStage_yields (hw : group.Wf g w b) (isDefault universal : Bool) (picked : Int → Nat → Bool) :
    Yields (Fault w) (Keeps g w b group) (compactStage g m isDefault universal picked group) := by
  refine foldSteps_keeps (.refl hw) _ fun group id hw => ?_
  split
  · exact update_yields hw fun hs => Reader.compactSlices_yields hs _
  · exact .refl hw

lemma valid_stuckEnd {k : Key} (hk : k.Valid)
    (hle : (⟨k.fireTime + monitorWatermarkPrecision, k.taskID⟩ : Key) ≤ Key.maximumKey) :
    (⟨k.fireTime + monitorWatermarkPrecision, k.taskID⟩ : Key).Valid := by
  obtain ⟨⟨h1, -⟩, h3, h4⟩ := hk
  have hle := Key.le_def.mp hle
  simp only [monitorWatermarkPrecision, Key.maximumKey] at hle
  refine ⟨⟨?_, ?_⟩, h3, h4⟩
  · show 0 ≤ k.fireTime + 1000000000
    omega
  show k.fireTime + 1000000000 ≤ Key.maxInt64
  omega

/-- An action keeps what the readers are responsible for. It fails only as slices do, so what it
passes to `MergeSlices` is in order. -/
lemma run_yields (hw : group.Wf g w b) (a : Action κ) : Yields (Fault w) (Keeps g w b group) (a.run g m group) := by
  cases a with
  | readerStuck readerID k valid =>
    simp only [run]
    split
    · rename_i hid
      have hle : k ≤ ⟨k.fireTime + monitorWatermarkPrecision, k.taskID⟩ := by
        simp only [Key.le_def, monitorWatermarkPrecision]
        omega
      rw [Range.newRange_ok hle]
      exact moveSlices_yields hw hid (stuckSplitter_sound hle valid (valid_stuckEnd valid))
    · exact .refl hw
  | queuePendingTask maxReaderCount visits =>
    exact foldSteps_keeps (shrinkAll_keeps hw) _ fun group visit hw => splitAndClearSlice_yields hw _ _
  | moveGroup maxReaderCount minTaskCount =>
    exact foldSteps_keeps (.refl hw) _ fun group id hw => moveGroups_yields hw _ _
  | slicePredicate maxReaderCount overloaded =>
    simp only [run]
    split
    · rename_i hid
      split
      · exact .refl hw
      · exact moveSlices_yields hw hid nonUniversalSplitter_sound
    · exact .refl hw
  | sliceCount picked =>
    exact foldSteps_keeps (shrinkAll_keeps hw) _ fun group stage hw => compactStage_yields hw _ _ _

end Action

/-!
## Runs of reader operations

The readers of a group are changed by any sequence of reader operations and actions. Each operation
comes with the size limit for predicates at that time, and a load with the store that it finds.
`MergeSlices` and `AppendSlices` are given any well formed slices.

The slices of each reader stay in order, whatever the sequence, and no action passes slices to
`MergeSlices` that `validateSlicesOrderedDisjoint` rejects (`readers_ordered`). Nothing is assumed
about the tasks in the stores, which is what `anyWorld` says.
-/

open Reader

/-- No task has to be covered, and every task with a proper key may be tracked. -/
def anyWorld : World where
  store := .empty
  known t := t.key.Valid ∧ t.key < Key.maximumKey
  done _ := True
  admits p := p.Normal
  valid _ h := h
  stored _ h := (nomatch h)
  agree _ _ _ h := (nomatch h)
  normal h := h
  admits_stable h _ := h
  admits_and hp hq := hp.andPredicates hq
  admits_or hp hq := hp.orPredicates hq
  admits_neg hp := hp.neg

lemma anyWorld_feeds (store : Store) : anyWorld.Feeds store :=
  ⟨nofun, store.valid⟩

inductive ReaderOp (g : Grouper κ) where
  | mergeSlices (id : Int) (incoming : List (Slice κ)) (wf : ∀ s ∈ incoming, s.Wf g anyWorld)
  | appendSlices (id : Int) (incoming : List (Slice κ)) (wf : ∀ s ∈ incoming, s.Wf g anyWorld)
  | clearSlices (id : Int) (chosen : Nat → Bool)
  | compactSlices (id : Int) (chosen : Nat → Bool)
  | shrinkSlices (id : Int)
  | selectTasks (id : Int) (i : Nat) (store : Store) (batchSize : Nat) (replies : List Reply)
  | ack (id : Int) (i : Nat) (key : Key)
  | act (action : Action κ)

def readerStep (g : Grouper κ) (group : ReaderGroup κ) :
    Nat × ReaderOp g → Except Panic (ReaderGroup κ)
  | (m, .mergeSlices id incoming _) =>
    group.update id fun slices => mergeSlices g m slices incoming
  | (_, .appendSlices id incoming _) =>
    group.update id fun slices => appendSlices slices incoming
  | (m, .clearSlices id chosen) =>
    group.update id fun slices => .ok (clearSlices g m chosen slices)
  | (m, .compactSlices id chosen) => group.update id (compactSlices g m chosen)
  | (m, .shrinkSlices id) => group.update id fun slices => .ok (shrinkSlices g m slices)
  | (_, .selectTasks id i store batchSize replies) =>
    group.update id (selectTasks g store i batchSize replies)
  | (_, .ack id i key) => group.update id fun slices => .ok (ack i key slices)
  | (m, .act action) => action.run g m group

lemma readerStep_yields {g} {group : ReaderGroup κ} (hw : group.Wf g anyWorld Key.maximumKey) (op : Nat × ReaderOp g) :
    Yields (fun _ => True) (Keeps g anyWorld Key.maximumKey group) (readerStep g group op) := by
  have bounded : ∀ {incoming : List (Slice κ)}, (∀ s ∈ incoming, s.Wf g anyWorld) →
      ∀ s ∈ incoming, s.Wf g anyWorld ∧ s.scope.range.exclusiveMax ≤ Key.maximumKey :=
    fun h s hs => ⟨h s hs, (h s hs).proper.2.2.le_maximumKey⟩
  obtain ⟨m, op⟩ := op
  cases op <;> simp only [readerStep]
  case mergeSlices id incoming wf =>
    refine update_yields hw fun hs => .any fun outs h => ?_
    obtain ⟨hwf, -⟩ := mergeSlices_spec hs (bounded wf) h
    exact ⟨hwf, nofun⟩
  case appendSlices id incoming wf =>
    refine update_yields hw fun hs => .any fun outs h => ?_
    obtain ⟨hwf, -⟩ := appendSlices_spec hs (bounded wf) h
    exact ⟨hwf, nofun⟩
  case clearSlices id chosen =>
    exact update_yields hw fun hs => clearSlices_keeps hs chosen
  case compactSlices id chosen =>
    exact update_yields hw fun hs => .any fun _ => (compactSlices_yields hs chosen).post
  case shrinkSlices id =>
    exact update_yields hw shrinkSlices_keeps
  case selectTasks id i store batchSize replies =>
    refine update_yields hw fun hs => ?_
    exact .any fun _ => (selectTasks_yields hs (anyWorld_feeds store) i batchSize replies).post
  case ack id i key =>
    exact update_yields hw fun hs => ack_keeps hs i trivial
  case act action => exact .any fun _ => (Action.run_yields hw action).post

/-- In every run from readers in order, each reader stays in order, its first slice has the smallest
start, and what an action passes to `MergeSlices` is in order. -/
theorem readers_ordered (g : Grouper κ) (start : ReaderGroup κ)
    (hstart : start.Wf g anyWorld Key.maximumKey) (ops : List (Nat × ReaderOp g))
    {group : ReaderGroup κ} (hr : Lib.run (readerStep g) start ops = .ok group) :
    (∀ id ∈ group.ids, Ordered (group.slices id) ∧ ∀ first ∈ (group.slices id).head?, ∀ s ∈ group.slices id,
        first.scope.range.inclusiveMin ≤ s.scope.range.inclusiveMin) ∧
    ∀ m (action : Action κ), action.run g m group ≠ .error .overlappingSlices := by
  have along : Lib.Along (fun _ _ => True) (readerStep g) start ops :=
    .of_forall (fun _ _ _ => trivial) start
  have hw : group.Wf g anyWorld Key.maximumKey :=
    (along.yields (fun group op hw _ => (readerStep_yields hw op).mono (fun _ h => h) fun _ hk => hk.wf) hstart).post hr
  refine ⟨fun id hid => ⟨(hw id hid).ordered, fun first hfirst => ?_⟩, fun m action h => ?_⟩
  · have hs := hw id hid
    obtain ⟨rest, heq⟩ := List.head?_eq_some_iff.mp hfirst
    rw [heq] at hs ⊢
    exact hs.head_le
  · cases (Action.run_yields hw action).fault h

def oneReader : ReaderGroup String :=
  ⟨[0], by decide, fun _ => [Slice.newSlice 0 ⟨⟨⟨0, 0⟩, ⟨0, 10⟩⟩, .universal⟩]⟩

def threeTasks : Store where
  tasks := [⟨⟨0, 1⟩, "a", 0, none, none⟩, ⟨⟨0, 4⟩, "b", 0, none, none⟩, ⟨⟨0, 7⟩, "a", 0, none, none⟩]
  sorted := by decide
  valid := by decide

/-- Tasks are loaded, one namespace is moved to the next reader, and a new slice comes in. -/
def movingRun : List (Nat × ReaderOp grouperNamespaceID) :=
  [(0, .selectTasks 0 0 threeTasks 2 []), (0, .act (.queuePendingTask 2 [(0, fun _ => some {"a"})])),
    (0, .mergeSlices 0 [Slice.newSlice 0 ⟨⟨⟨0, 8⟩, ⟨0, 20⟩⟩, .universal⟩]
      (List.forall_mem_singleton.mpr (Slice.wf_newSlice (by decide) Predicate.Normal.universal)))]

theorem readers_ordered_movingRun : oneReader.Wf grouperNamespaceID anyWorld Key.maximumKey ∧
    ∃ group, Lib.run (readerStep grouperNamespaceID) oneReader movingRun = .ok group ∧
      (group.ids, (group.slices 0).length, (group.slices 1).length) = ([1, 0], 3, 1) ∧
      Ordered (group.slices 0) ∧ Ordered (group.slices 1) := by
  have hstart : oneReader.Wf grouperNamespaceID anyWorld Key.maximumKey := by
    intro id _
    have hs : (Slice.newSlice 0 ⟨⟨⟨0, 0⟩, ⟨0, 10⟩⟩, .universal⟩ : Slice String).Wf
        grouperNamespaceID anyWorld := Slice.wf_newSlice (by decide) Predicate.Normal.universal
    exact ⟨List.forall_mem_singleton.mpr ⟨hs, hs.proper.2.2.le_maximumKey⟩, List.pairwise_singleton _ _⟩
  obtain ⟨group, hr, hsizes⟩ : ∃ group, Lib.run (readerStep grouperNamespaceID) oneReader movingRun = .ok group ∧
      (group.ids, (group.slices 0).length, (group.slices 1).length) = ([1, 0], 3, 1) := by decide +kernel
  have hord := (readers_ordered grouperNamespaceID oneReader hstart movingRun hr).1
  have hids : group.ids = [1, 0] := congrArg Prod.fst hsizes
  exact ⟨hstart, group, hr, hsizes, (hord 0 (by simp [hids])).1, (hord 1 (by simp [hids])).1⟩

end FastOrchestration.Queues
