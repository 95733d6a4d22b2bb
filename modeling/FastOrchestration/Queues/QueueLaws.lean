import FastOrchestration.Queues.ActionLaws
import FastOrchestration.Queues.QueueBase

/-!
# No task is lost

The invariant of a queue system (`QueueSystem.Inv`) says three times where a stored task that is not
acknowledged can be found: with a reader or in the non readable scope of the running queue, in the
scopes or above the watermark of each queue state that was stored, and likewise for the scopes that a
checkpoint is about to store. A task that a checkpoint deletes is below all first scopes, hence in none
of them, hence acknowledged.

What the readers hold was read from a store that has changed since. The laws of slices are relative to
a world, and a world is carried over to another one below a key (`World.Carries`) if no task is new
there: new tasks are at or above the non readable scope, and all slices end below it.
-/

namespace FastOrchestration.Queues

open List Reader Key Slice ReaderGroup Range

open Lib (Yields bind_ok)

variable {κ : Type} [DecidableEq κ] {g : Grouper κ}

section Carry

variable {w w' : World} {b : Key}

/-- Below a key, the second world knows what the first one knew and stores nothing new. -/
structure World.Carries (w w' : World) (b : Key) : Prop where
  known : ∀ t, w.known t → t.key < b → w'.known t
  stored : ∀ t ∈ w'.store.tasks, t.key < b → t ∈ w.store.tasks
  done : ∀ k, w.done k → w'.done k
  admits : ∀ p, w.admits p → w'.admits p

lemma Iterator.Wf.carry {it : Iterator} (hit : it.Wf w) (h : w.Carries w' b)
    (hb : it.range.exclusiveMax ≤ b) : it.Wf w' := by
  have hkey : ∀ k, it.range.containsKey k → k < b :=
    fun k hk => (containsKey_iff.mp hk).2.trans_le hb
  refine ⟨hit.proper, fun p hp => ⟨(hit.page p hp).sorted, fun t ht => ?_, fun t ht hc => ?_⟩⟩
  · obtain ⟨hc, hknown⟩ := (hit.page p hp).items t ht
    exact ⟨hc, h.known t hknown (hkey _ hc)⟩
  · exact (hit.page p hp).complete t (h.stored t ht (hkey _ hc)) hc

lemma Slice.Wf.carry {s : Slice κ} (hs : s.Wf g w) (h : w.Carries w' b)
    (hb : s.scope.range.exclusiveMax ≤ b) : s.Wf g w' := by
  refine ⟨hs.proper, h.admits _ hs.admitted, fun it hit => ?_, hs.separated, hs.counted, fun e he => ?_⟩
  · obtain ⟨hwf, hc⟩ := hs.inside it hit
    exact ⟨hwf.carry h ((containsRange_iff.mp hc).2.trans hb), hc⟩
  obtain ⟨hc, hp, hknown, hdone⟩ := hs.pending e he
  have hlt := (containsKey_iff.mp hc).2.trans_le hb
  exact ⟨hc, hp, h.known _ hknown hlt, fun ha => h.done _ (hdone ha)⟩

lemma ReaderGroup.Wf.carry {group : ReaderGroup κ} (hw : group.Wf g w b) (h : w.Carries w' b) :
    group.Wf g w' b := fun id hid =>
  ⟨fun s hs => ⟨((hw id hid).each s hs).1.carry h ((hw id hid).each s hs).2,
    ((hw id hid).each s hs).2⟩, (hw id hid).ordered⟩

lemma ReaderGroup.Wf.mono {group : ReaderGroup κ} (hw : group.Wf g w b) {b'} (hb : b ≤ b') :
    group.Wf g w b' := fun id hid =>
  ⟨fun s hs => ⟨((hw id hid).each s hs).1, ((hw id hid).each s hs).2.trans hb⟩, (hw id hid).ordered⟩

end Carry

section Readers

variable {w : World} {b : Key} {m : Nat} {group group' : ReaderGroup κ} {id : Int}

lemma ReaderGroup.newReader_spec (hw : group.Wf g w b) {slices}
    (hs : Reader.Wf g w b slices) (h : group.newReader id slices = .ok group') :
    group'.Wf g w b ∧ (∀ t, group.Covers t → group'.Covers t) ∧
      (∀ t, Reader.Covers slices t → group'.Covers t) ∧ group'.ids = id :: group.ids := by
  unfold newReader at h
  split at h
  · cases h
  rename_i hid
  cases h
  have hold : ∀ id' ∈ group.ids, Function.update group.slices id slices id' = group.slices id' := fun id' hid' =>
    Function.update_of_ne (ne_of_mem_of_not_mem hid' hid) _ _
  refine ⟨fun id' hid' => ?_, ?_, fun t hc => ⟨id, mem_cons_self, ?_⟩, rfl⟩
  · obtain rfl | hid' := mem_cons.mp hid'
    · simpa using hs
    · simpa only [hold id' hid'] using hw id' hid'
  · rintro t ⟨id', hid', hc⟩
    exact ⟨id', mem_cons_of_mem _ hid', by simpa only [hold id' hid'] using hc⟩
  · simpa using hc

lemma ReaderGroup.update_spec (hw : group.Wf g w b) (hid : id ∈ group.ids) {f} (slices : List (Slice κ))
    (hf : ∀ outs, f (group.slices id) = .ok outs → Reader.Keeps g w b (group.slices id ++ slices) outs)
    (h : group.update id f = .ok group') :
    Keeps g w b group group' ∧ ∀ t ∈ w.store.tasks, ¬ w.done t.key → Reader.Covers slices t → group'.Covers t := by
  unfold update at h
  rw [if_pos hid] at h
  obtain ⟨outs, houts, h⟩ := bind_ok h
  cases h
  obtain ⟨hwf, hcov⟩ := hf outs houts
  refine ⟨setSlices_keeps hw ⟨hwf, fun t ht hd hc => ?_⟩, fun t ht hd hc => ⟨id, hid, ?_⟩⟩
  · exact hcov t ht hd (Reader.covers_append.mpr (.inl hc))
  rw [slices_setSlices]
  exact hcov t ht hd (Reader.covers_append.mpr (.inr hc))

namespace QueueBase

variable {queue queue' : QueueBase κ} {k newMaxKey : Key} (hk : k.Valid) (hv : newMaxKey.Valid)
  (hn : queue.nonReadableScope = ⟨⟨k, maximumKey⟩, .universal⟩)

include hk hv hn

lemma newReadSlices_spec {slices scope} (h : queue.newReadSlices m newMaxKey = .ok (slices, scope)) :
    ∃ k', k'.Valid ∧ k ≤ k' ∧ scope = ⟨⟨k', maximumKey⟩, .universal⟩ ∧
      Wf g w k' slices ∧ ∀ t, k ≤ t.key → t.key < k' → Covers slices t := by
  unfold newReadSlices at h
  split at h
  · rename_i hcan
    obtain ⟨⟨read, rest⟩, hsplit, h⟩ := bind_ok h
    cases h
    rw [hn] at hsplit
    have hvalid : Valid ⟨k, maximumKey⟩ := hk.le_maximumKey
    obtain ⟨⟨h1, -⟩, rfl, rfl⟩ := Scope.splitByRange_inv hsplit
    have hadm : w.admits Predicate.universal := w.admits_stable .universal fun _ => rfl
    refine ⟨newMaxKey, hv, h1, rfl, ⟨forall_mem_singleton.mpr
      ⟨wf_newSlice ⟨h1, hk, hv⟩ hadm, ?_⟩, pairwise_singleton _ _⟩, fun t h1 h2 => ?_⟩
    · exact (congrArg exclusiveMax (ensure_range _)).le
    refine ⟨_, mem_cons_self, covers_newSlice ?_⟩
    exact Bool.and_eq_true_iff.mpr ⟨containsKey_iff.mpr ⟨h1, h2⟩, rfl⟩
  cases h
  exact ⟨k, hk, le_rfl, hn, wf_nil, fun t h1 h2 => absurd h2 (not_lt.mpr h1)⟩

lemma processNewRange_spec {forced}
    (hw : queue.readerGroup.Wf g w k) (h : queue.processNewRange g m newMaxKey forced = .ok queue') :
    ∃ k', k'.Valid ∧ k ≤ k' ∧ queue'.nonReadableScope = ⟨⟨k', maximumKey⟩, .universal⟩ ∧
      Keeps g w k' queue.readerGroup queue'.readerGroup ∧
      ∀ t ∈ w.store.tasks, ¬ w.done t.key → k ≤ t.key → t.key < k' → queue'.readerGroup.Covers t := by
  obtain ⟨⟨slices, scope⟩, hnew, h⟩ := bind_ok h
  obtain ⟨k', hk', hle, rfl, hs, hcov⟩ := newReadSlices_spec (g := g) (w := w) hk hv hn hnew
  obtain ⟨group, hgroup, h⟩ := bind_ok h
  cases h
  refine ⟨k', hk', hle, rfl, ?_⟩
  unfold giveSlices at hgroup
  split at hgroup
  · rename_i hid
    have hcur := (hw.mono hle) defaultReaderId hid
    obtain ⟨hkeep, hnew⟩ := update_spec (hw.mono hle) hid slices (fun outs houts => by
        split at houts
        · exact appendSlices_spec hcur hs.each houts
        · exact Reader.mergeSlices_spec hcur hs.each houts) hgroup
    exact ⟨hkeep, fun t ht hd h1 h2 => hnew t ht hd (hcov t h1 h2)⟩
  obtain ⟨hwf, hold, hnew, -⟩ := newReader_spec (hw.mono hle) hs hgroup
  exact ⟨⟨hwf, fun t _ _ => hold t⟩, fun t _ _ h1 h2 => hnew t (hcov t h1 h2)⟩

end QueueBase

end Readers

/-- A queue state whose scopes are in order and below its watermark. -/
structure QueueState.Wf (state : QueueState) : Prop where
  valid : state.exclusiveReaderHighWatermark.Valid
  scopes : ∀ reader ∈ state.readerScopes, ∀ scope ∈ reader.2, scope.range.Proper ∧
    scope.predicate.Normal ∧ scope.range.exclusiveMax ≤ state.exclusiveReaderHighWatermark
  ordered : ∀ reader ∈ state.readerScopes, reader.2.Pairwise fun a b : Scope =>
    a.range.exclusiveMax ≤ b.range.inclusiveMin
  nodup : (state.readerScopes.map (·.1)).Nodup

/-- The task is in a scope or at or above the watermark. -/
def QueueState.Covers (state : QueueState) (t : Task) : Prop :=
  (∃ reader ∈ state.readerScopes, ∃ scope ∈ reader.2, scope.contains t = true) ∨
    state.exclusiveReaderHighWatermark ≤ t.key

namespace QueueBase

variable {m : Nat} {w : World}

lemma wf_newSlices {b : Key} {scopes : List Scope} (hadm : ∀ p, p.Normal → w.admits p)
    (hs : ∀ scope ∈ scopes, scope.range.Proper ∧ scope.predicate.Normal ∧ scope.range.exclusiveMax ≤ b)
    (hord : scopes.Pairwise fun a b => a.range.exclusiveMax ≤ b.range.inclusiveMin) :
    Wf g w b (scopes.map fun scope => newSlice m scope) := by
  have hrange : ∀ scope, (newSlice m scope : Slice κ).scope.range = scope.range :=
    fun scope => ensure_range _
  refine ⟨fun s hs' => ?_, pairwise_map.mpr (hord.imp fun {a b} hab => ?_)⟩
  · obtain ⟨scope, hscope, rfl⟩ := mem_map.mp hs'
    obtain ⟨hp, hn, hb⟩ := hs scope hscope
    refine ⟨wf_newSlice hp (hadm _ hn), ?_⟩
    rw [hrange]
    exact hb
  rw [hrange, hrange]
  exact hab

/-- Loading the readers of a state, with those that are still to come. -/
structure Loading (g : Grouper κ) (w : World) (state : QueueState) (queue : QueueBase κ)
    (rest : List (Int × List Scope)) : Prop where
  nonReadable : queue.nonReadableScope = ⟨⟨state.exclusiveReaderHighWatermark, maximumKey⟩, .universal⟩
  sub : ∀ reader ∈ rest, reader ∈ state.readerScopes
  nodup : (rest.map (·.1)).Nodup
  fresh : ∀ reader ∈ rest, reader.1 ∉ queue.readerGroup.ids
  readers : queue.readerGroup.Wf g w state.exclusiveReaderHighWatermark
  covers : ∀ t : Task, ∀ reader ∈ state.readerScopes, ∀ scope ∈ reader.2,
    scope.contains t = true → reader ∈ rest ∨ queue.readerGroup.Covers t

lemma Loading.step {state : QueueState} (hstate : state.Wf) (hadm : ∀ p, p.Normal → w.admits p)
    {queue reader rest} (h : Loading g w state queue (reader :: rest)) :
    Yields (fun _ => False) (Loading g w state · rest) (loadReader m queue reader) := by
  have hmem := h.sub reader mem_cons_self
  obtain ⟨hnot, hnodup⟩ := nodup_cons.mp h.nodup
  have hsub : ∀ reader ∈ rest, reader ∈ state.readerScopes :=
    fun r hr => h.sub r (mem_cons_of_mem _ hr)
  obtain ⟨id, scopes⟩ := reader
  cases scopes with
  | nil =>
    refine ⟨h.nonReadable, hsub, hnodup, fun r hr => h.fresh r (mem_cons_of_mem _ hr),
      h.readers, fun t r hr scope hs hc => ?_⟩
    obtain hin | hin := h.covers t r hr scope hs hc
    · obtain rfl | hin := mem_cons.mp hin
      · cases hs
      · exact .inl hin
    · exact .inr hin
  | cons scope scopes =>
    have hid := h.fresh (id, scope :: scopes) mem_cons_self
    have hslices : Wf g w state.exclusiveReaderHighWatermark
        ((scope :: scopes).map fun scope => newSlice m scope) :=
      wf_newSlices hadm (hstate.scopes _ hmem) (hstate.ordered _ hmem)
    obtain ⟨group, hnew⟩ : ∃ group, queue.readerGroup.newReader id
        ((scope :: scopes).map fun scope => newSlice m scope) = .ok group :=
      ⟨_, dif_neg hid⟩
    obtain ⟨hwf, hold, hcov, hids⟩ := newReader_spec h.readers hslices hnew
    simp only [loadReader, hnew, bind, Except.bind]
    refine ⟨h.nonReadable, hsub, hnodup, fun r hr => ?_, hwf, fun t r hr sc hs hc => ?_⟩
    · show r.1 ∉ group.ids
      rw [hids, mem_cons, not_or]
      refine ⟨fun heq => hnot ?_, h.fresh r (mem_cons_of_mem _ hr)⟩
      have hin := mem_map_of_mem (f := Prod.fst) hr
      rwa [heq] at hin
    obtain hin | hin := h.covers t r hr sc hs hc
    · obtain rfl | hin := mem_cons.mp hin
      · exact .inr (hcov t ⟨_, mem_map_of_mem hs, covers_newSlice hc⟩)
      · exact .inl hin
    · exact .inr (hold t hin)

lemma newQueueBase_spec (category : CategoryType) {state : QueueState} (hstate : state.Wf)
    (hadm : ∀ p, p.Normal → w.admits p) (o : MapOrder) :
    ∃ queue : QueueBase κ, newQueueBase m category (some (toPersistenceQueueState o state)) = .ok queue ∧
      Loading g w state queue [] := by
  have hread := fromPersistence_queueState o fun reader hr scope hs =>
    ⟨(hstate.scopes reader hr scope hs).1.1, (hstate.scopes reader hr scope hs).2.1⟩
  have hstart : Loading g w state (⟨⟨⟨state.exclusiveReaderHighWatermark, maximumKey⟩,
      .universal⟩, state.exclusiveReaderHighWatermark, .empty⟩ : QueueBase κ)
      state.readerScopes :=
    ⟨rfl, fun _ h => h, hstate.nodup, nofun, nofun, fun t reader hr scope hs hc => .inl hr⟩
  obtain ⟨queue, hload, hdone⟩ := (Lib.foldSteps_yields (J := Loading g w state)
    (fun queue reader rest h => h.step (m := m) hstate hadm) hstart).exists_ok fun _ h => h
  refine ⟨queue, ?_, hdone⟩
  simp only [newQueueBase, hread, newRange_ok hstate.valid.le_maximumKey, bind, Except.bind]
  exact hload

lemma newQueueBase_none (category : CategoryType) :
    newQueueBase m category none = .ok (⟨⟨⟨ackLevel category, maximumKey⟩, .universal⟩,
      ackLevel category, .empty⟩ : QueueBase κ) := by
  cases category <;> rfl

section Checkpoint

variable {queue : QueueBase κ} {b : Key} {t : Task}

omit [DecidableEq κ] in
lemma covers_removeEmptyReaders (h : queue.readerGroup.Covers t) :
    queue.removeEmptyReaders.readerGroup.Covers t := by
  obtain ⟨id, hid, s, hs, hc⟩ := h
  have hne : queue.readerGroup.slices id ≠ [] := ne_nil_of_mem hs
  exact ⟨id, mem_filter.mpr ⟨hid, by simp [hne]⟩, s, hs, hc⟩

lemma removeEmptyReaders_wf (hw : queue.readerGroup.Wf g w b) :
    queue.removeEmptyReaders.readerGroup.Wf g w b :=
  fun id hid => hw id (mem_of_mem_filter hid)

lemma stateOf_wf (hv : queue.nonReadableScope.range.inclusiveMin.Valid)
    (hw : queue.readerGroup.Wf g w queue.nonReadableScope.range.inclusiveMin) :
    (queue.stateOf queue.readerScopes).Wf := by
  have hmem : ∀ reader ∈ (queue.stateOf queue.readerScopes).readerScopes, ∃ id ∈ queue.readerGroup.ids,
        reader = (id, (queue.readerGroup.slices id).map (·.scope)) := by
    intro reader hr
    obtain ⟨id, hid, heq⟩ := mem_map.mp (mem_of_mem_filter hr)
    exact ⟨id, hid, heq.symm⟩
  refine ⟨hv, fun reader hr scope hs => ?_, fun reader hr => ?_, ?_⟩
  · obtain ⟨id, hid, rfl⟩ := hmem reader hr
    obtain ⟨s, hslice, rfl⟩ := mem_map.mp hs
    obtain ⟨hwf, hle⟩ := (hw id hid).each s hslice
    exact ⟨hwf.proper, hwf.normal, hle⟩
  · obtain ⟨id, hid, rfl⟩ := hmem reader hr
    exact pairwise_map.mpr (hw id hid).ordered
  refine queue.readerGroup.nodup.sublist ?_
  have hids : queue.readerScopes.map (·.1) = queue.readerGroup.ids := by
    simp [readerScopes, Function.comp_def]
  rw [← hids]
  exact filter_sublist.map _

lemma stateOf_covers (hw : queue.readerGroup.Wf g w b) (h : queue.readerGroup.Covers t) :
    (queue.stateOf queue.readerScopes).Covers t := by
  obtain ⟨id, hid, s, hs, hc⟩ := h
  refine .inl ⟨(id, (queue.readerGroup.slices id).map (·.scope)), mem_filter.mpr
    ⟨mem_map_of_mem hid, ?_⟩, s.scope, mem_map_of_mem hs,
    ((hw id hid).each s hs).1.scope_contains hc⟩
  have hne : queue.readerGroup.slices id ≠ [] := ne_nil_of_mem hs
  simp [hne]

lemma foldl_minKey_le (readers : List (Int × List Scope)) (key : Key) :
    let min := readers.foldl (fun key reader =>
      match reader.2 with
      | [] => key
      | scope :: _ => minKey key scope.range.inclusiveMin) key
    min ≤ key ∧ ∀ reader ∈ readers, ∀ scope ∈ reader.2.head?, min ≤ scope.range.inclusiveMin := by
  have hf : ∀ (k : Key) (reader : Int × List Scope), (match reader.2 with
      | [] => k
      | scope :: _ => minKey k scope.range.inclusiveMin) =
        (reader.2.head?.map (·.range.inclusiveMin)).elim k (min k) := by
    rintro k ⟨id, _ | ⟨scope, scopes⟩⟩
    · rfl
    · exact minKey_eq_min ..
  obtain ⟨hkey, hrest⟩ := ((Lib.foldl_least _ hf readers key).1 _).mp le_rfl
  exact ⟨hkey, fun reader hr scope hs => hrest reader hr _ (Option.mem_map_of_mem _ hs)⟩

lemma deletionWatermark_le_readable : queue.deletionWatermark ≤ queue.nonReadableScope.range.inclusiveMin :=
  (foldl_minKey_le _ _).1

/-- What a reader is responsible for is at or above the deletion watermark: the first slice of the
reader starts no later than the slice of the task. -/
lemma deletionWatermark_le (hw : queue.readerGroup.Wf g w b) (h : queue.readerGroup.Covers t) :
    queue.deletionWatermark ≤ t.key := by
  obtain ⟨id, hid, s, hs, hc⟩ := h
  have hread := hw id hid
  have hmin : s.scope.range.inclusiveMin ≤ t.key :=
    (containsKey_iff.mp (Bool.and_eq_true_iff.mp ((hread.each s hs).1.scope_contains hc)).1).1
  cases hslices : queue.readerGroup.slices id with
  | nil =>
    rw [hslices] at hs
    cases hs
  | cons first slices =>
    rw [hslices] at hs hread
    have hfirst := (foldl_minKey_le queue.readerScopes
      queue.nonReadableScope.range.inclusiveMin).2 _ (mem_map_of_mem hid) first.scope
      (by rw [hslices]; rfl)
    exact hfirst.trans ((hread.head_le s hs).trans hmin)

end Checkpoint

end QueueBase

namespace QueueSystem

def world (s : QueueSystem κ) : World where
  store := s.store
  known t := (t.key.Valid ∧ t.key < maximumKey) ∧ ∀ t' ∈ s.store.tasks, t'.key = t.key → t' = t
  done k := k ∈ s.acked
  admits p := p.Normal
  valid _ h := h.1
  stored t ht := ⟨s.store.valid t ht, fun _ ht' hk => s.store.eq_of_key ht ht' hk⟩
  agree _ h := h.2
  normal h := h
  admits_stable h _ := h
  admits_and hp hq := hp.andPredicates hq
  admits_or hp hq := hp.orPredicates hq
  admits_neg hp := hp.neg

abbrev readable (s : QueueSystem κ) : Key := s.queue.nonReadableScope.range.inclusiveMin

/-- The task is stored, is not acknowledged and was not handed out before the run. -/
def Owes (base : Key) (s : QueueSystem κ) (t : Task) : Prop :=
  t ∈ s.store.tasks ∧ t.key ∉ s.acked ∧ base ≤ t.key

def CheckpointInv (base : Key) (s : QueueSystem κ) : Prop :=
  match s.checkpoint with
  | .deleting scopes watermark =>
    (s.queue.stateOf scopes).Wf ∧ (∀ t, s.Owes base t → (s.queue.stateOf scopes).Covers t) ∧
      watermark ≤ s.readable ∧ ∀ t, s.Owes base t → watermark ≤ t.key
  | .updating scopes =>
    (s.queue.stateOf scopes).Wf ∧ ∀ t, s.Owes base t → (s.queue.stateOf scopes).Covers t
  | _ => True

structure Inv (g : Grouper κ) (low base : Key) (s : QueueSystem κ) : Prop where
  nonReadable : ∃ k : Key, k.Valid ∧ s.queue.nonReadableScope = ⟨⟨k, maximumKey⟩, .universal⟩
  floor : ∀ t ∈ s.store.tasks, low ≤ t.key
  readers : s.queue.readerGroup.Wf g s.world s.readable
  covered : ∀ t, s.Owes base t → s.queue.readerGroup.Covers t ∨ s.readable ≤ t.key
  states : ∀ p ∈ s.queueStates, ∃ o state, p = toPersistenceQueueState o state ∧ state.Wf ∧
    ∀ t, s.Owes base t → state.Covers t
  checkpoint : s.CheckpointInv base

variable {low base : Key} {s : QueueSystem κ}

section

variable (h : s.Inv g low base)

include h

/-- The store or the acknowledgements change: what is owed now was owed before, or is new and at or
above all watermarks. -/
lemma Inv.change (store : Store) (acked : List Key) (hfloor : ∀ t ∈ store.tasks, low ≤ t.key)
    (hcarry : s.world.Carries (world { s with store := store, acked := acked }) s.readable)
    (howes : ∀ t, Owes base { s with store := store, acked := acked } t → s.Owes base t ∨
      s.readable ≤ t.key ∧ ∀ p ∈ s.queueStates, fromPersistenceTaskKey p.exclusiveReaderHighWatermark ≤ t.key) :
    Inv g low base { s with store := store, acked := acked } := by
  have hstate : ∀ scopes, (∀ t, s.Owes base t → (s.queue.stateOf scopes).Covers t) →
      ∀ t, Owes base { s with store := store, acked := acked } t →
        (s.queue.stateOf scopes).Covers t := fun scopes hc t ht =>
    (howes t ht).elim (hc t) fun hnew => .inr hnew.1
  refine ⟨h.nonReadable, hfloor, h.readers.carry hcarry, fun t ht => ?_, fun p hp => ?_, ?_⟩
  · exact (howes t ht).elim (h.covered t) fun hnew => .inr hnew.1
  · obtain ⟨o, state, rfl, hwf, hcov⟩ := h.states p hp
    refine ⟨o, state, rfl, hwf, fun t ht => (howes t ht).elim (hcov t) fun hnew => .inr ?_⟩
    have hle := hnew.2 _ hp
    rwa [toPersistenceQueueState, fromPersistence_taskKey] at hle
  have hcp := h.checkpoint
  unfold CheckpointInv at hcp ⊢
  cases hphase : s.checkpoint with
  | deleting scopes watermark =>
    rw [hphase] at hcp
    obtain ⟨hwf, hc, hle, hlow⟩ := hcp
    refine ⟨hwf, hstate scopes hc, hle, fun t ht => ?_⟩
    exact (howes t ht).elim (hlow t) fun hnew => hle.trans hnew.1
  | updating scopes =>
    rw [hphase] at hcp
    exact ⟨hcp.1, hstate scopes hcp.2⟩
  | idle | shrunk | acted => trivial

lemma Inv.withReaders {group} (hk : Keeps g s.world s.readable s.queue.readerGroup group) :
    (s.withReaders group).Inv g low base :=
  { h with readers := hk.wf, covered := fun t ht => (h.covered t ht).imp (hk.covers t ht.1 ht.2.1) id }

lemma Inv.phase {phase} (hphase : phase = .idle ∨ phase = .shrunk ∨ phase = .acted) :
    Inv g low base { s with checkpoint := phase } := by
  obtain rfl | rfl | rfl := hphase <;> exact { h with checkpoint := trivial }

lemma Inv.write {category : CategoryType} (hlow : low ≤ ackLevel category)
    {t : Task} (valid : t.key.Valid ∧ t.key < maximumKey) (hw : s.mayWrite category t) :
    Inv g low base { s with store := s.store.insert t valid hw.2.2.2.1 } := by
  obtain ⟨hack, hread, hstates, hfresh, -⟩ := id hw
  have hmem : ∀ t' ∈ (s.store.insert t valid hfresh).tasks, t' = t ∨ t' ∈ s.store.tasks := by
    intro t' ht'
    obtain ht' | ht' := mem_append.mp ht'
    · exact .inr (mem_of_mem_filter ht')
    · exact (mem_cons.mp ht').imp id mem_of_mem_filter
  refine h.change _ s.acked (fun t' ht' => ?_)
    ⟨fun a ha hlt => ⟨ha.1, fun t' ht' hk => ?_⟩, fun t' ht' hlt => ?_, fun _ hd => hd, fun _ ha => ha⟩ fun t' ht' => ?_
  · obtain rfl | ht' := hmem t' ht'
    · exact hlow.trans hack
    · exact h.floor t' ht'
  · obtain rfl | ht' := hmem t' ht'
    · exact absurd (hk ▸ hread) (not_le.mpr hlt)
    · exact ha.2 t' ht' hk
  · exact (hmem t' ht').resolve_left fun heq => not_le.mpr hlt (heq ▸ hread)
  obtain rfl | hin := hmem t' ht'.1
  · exact .inr ⟨hread, hstates⟩
  · exact .inl ⟨hin, ht'.2⟩

lemma Inv.delete (deleted : Key → Bool) : Inv g low base { s with store := s.store.delete deleted } := by
  have hmem : ∀ t ∈ (s.store.delete deleted).tasks, t ∈ s.store.tasks :=
    fun t ht => mem_of_mem_filter ht
  exact h.change _ s.acked (fun t ht => h.floor t (hmem t ht))
    ⟨fun t ht _ => ⟨ht.1, fun t' ht' hk => ht.2 t' (hmem t' ht') hk⟩,
      fun t ht _ => hmem t ht, fun _ hd => hd, fun _ ha => ha⟩
    fun t ht => .inl ⟨hmem t ht.1, ht.2⟩

lemma Inv.acknowledge (key : Key) : Inv g low base { s with acked := key :: s.acked } :=
  h.change s.store _ h.floor ⟨fun _ ht _ => ht, fun _ ht _ => ht, fun _ hd => mem_cons_of_mem _ hd,
    fun _ ha => ha⟩ fun _ ht => .inl ⟨ht.1, fun hm => ht.2.1 (mem_cons_of_mem _ hm), ht.2.2⟩

end

end QueueSystem

end FastOrchestration.Queues
