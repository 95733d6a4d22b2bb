import FastOrchestration.Queues.Convert
import FastOrchestration.Queues.SliceMerge
import FastOrchestration.Queues.SliceSelect

/-!
# Runs of slice operations

A pool of slices is changed by any sequence of `NewSlice`, the slice operations and acknowledgements.
An operation takes the slices it names out of the pool and puts its results back, and comes with the
store and the size limit for predicates at that time. Its arguments are what the language builds:
proper ranges and keys, and predicates made by its constructors.

`SelectTasks` tests a predicate on the task from the store, but `executableTracker.split` tests it on
the executable, which answers `GetDestination` and `StateMachineTaskType` with the empty string where
its task has neither. A predicate is `Stable` on a store if this makes no difference there. Where
all predicates that enter are stable on all stores, the slices keep their representation and only a caller that
ignores `CanSplitByRange` or `CanMergeWithSlice` panics (`slice_representation`). A predicate that is
not stable lets a slice track an executable outside of its scope, and the next split panics
(`unstablePredicate_panics`).
-/

namespace FastOrchestration.Queues

open List Slice Predicate

open Lib (Yields)

variable {κ : Type} [DecidableEq κ]

/-- The predicate says the same of each stored task and of its executable. -/
def Predicate.Stable (store : Store) (p : Predicate) : Prop :=
  ∀ t ∈ store.tasks, p.test t.asExecutable = p.test t

instance (store : Store) (p : Predicate) : Decidable (p.Stable store) :=
  inferInstanceAs (Decidable (∀ t ∈ store.tasks, _))

inductive SliceOp where
  | newSlice (range : Range) (predicate : Predicate) (proper : range.Proper) (built : predicate.Built)
  | splitByRange (i : Nat) (key : Key) (valid : key.Valid)
  | splitByPredicate (i : Nat) (predicate : Predicate) (built : predicate.Built)
  | mergeWithSlice (i j : Nat)
  | compactWithSlice (i j : Nat)
  | shrinkScope (i : Nat)
  | selectTasks (i : Nat) (batchSize : Nat) (replies : List Reply)
  | clear (i : Nat)
  | ack (i : Nat) (key : Key)

/-- The predicates that an operation brings in are stable. -/
def SliceOp.Stable (store : Store) : SliceOp → Prop
  | .newSlice _ p _ _ => p.Stable store
  | .splitByPredicate _ p _ => p.Stable store
  | _ => True

instance (store : Store) (op : SliceOp) : Decidable (op.Stable store) := by
  cases op <;> unfold SliceOp.Stable <;> infer_instance

def onSlice (pool : List (Slice κ)) (i : Nat) (f : Slice κ → Except Panic (List (Slice κ))) :
    Except Panic (List (Slice κ)) :=
  match pool[i]? with
  | none => .ok pool
  | some s => do
    let outs ← f s
    return outs ++ pool.eraseIdx i

def onSlices (pool : List (Slice κ)) (i j : Nat)
    (f : Slice κ → Slice κ → Except Panic (List (Slice κ))) : Except Panic (List (Slice κ)) :=
  match pool[i]?, (pool.eraseIdx i)[j]? with
  | some s, some incoming => do
    let outs ← f s incoming
    return outs ++ (pool.eraseIdx i).eraseIdx j
  | _, _ => .ok pool

/-- The operation on the slices it names; the second index of a pair counts in what is left. -/
def poolStep (g : Grouper κ) (store : Store) (pool : List (Slice κ)) :
    Nat × SliceOp → Except Panic (List (Slice κ))
  | (m, .newSlice range predicate _ _) => .ok (newSlice m ⟨range, predicate⟩ :: pool)
  | (m, .splitByRange i key _) =>
    onSlice pool i fun s => do
      let (left, right) ← s.splitByRange g m key
      return [left, right]
  | (m, .splitByPredicate i predicate _) =>
    onSlice pool i fun s => do
      let (pass, fail) ← s.splitByPredicate g m predicate
      return [pass, fail]
  | (m, .mergeWithSlice i j) => onSlices pool i j fun s incoming => s.mergeWithSlice g m incoming
  | (m, .compactWithSlice i j) =>
    onSlices pool i j fun s incoming => do
      let compacted ← s.compactWithSlice g m incoming
      return [compacted]
  | (m, .shrinkScope i) => onSlice pool i fun s => .ok [s.shrinkScope g m]
  | (_, .selectTasks i batchSize replies) =>
    onSlice pool i fun s => do
      let selected ← s.selectTasks g store batchSize replies
      return [selected.slice]
  | (m, .clear i) => onSlice pool i fun s => .ok [s.clear g m]
  | (_, .ack i key) => onSlice pool i fun s => .ok [s.ack key]

/-- The iterators are separated, in order and inside the range; executables are inside the scope. -/
def Slice.Represents (s : Slice κ) : Prop :=
  Iterator.Separated s.iterators ∧
  (∀ it ∈ s.iterators, it.range.Valid ∧ s.scope.range.containsRange it.range = true) ∧
  ∀ e ∈ s.tracker.pendingExecutables, s.scope.contains e.task.asExecutable = true

def storedStep (g : Grouper κ) (pool : List (Slice κ)) (op : Store × Nat × SliceOp) :
    Except Panic (List (Slice κ)) :=
  poolStep g op.1 pool op.2

/-- Changing stores: what slices hold was stored at some time, and their predicates are stable. -/
def storesWorld (stores : List Store) : World where
  store := .empty
  known t := ∃ store ∈ stores, t ∈ store.tasks
  done _ := True
  admits p := p.Normal ∧ ∀ store ∈ stores, p.Stable store
  valid t h := h.elim fun store hs => store.valid t hs.2
  stored _ h := (nomatch h)
  agree _ _ _ h := (nomatch h)
  normal h := h.1
  admits_stable hn h := ⟨hn, fun _ _ t _ => h t⟩
  admits_and hp hq := by
    refine ⟨hp.1.andPredicates hq.1, fun store hs t ht => ?_⟩
    rw [test_andPredicates hp.1 hq.1, test_andPredicates hp.1 hq.1, hp.2 store hs t ht, hq.2 store hs t ht]
  admits_or hp hq := by
    refine ⟨hp.1.orPredicates hq.1, fun store hs t ht => ?_⟩
    rw [test_orPredicates hp.1 hq.1, test_orPredicates hp.1 hq.1, hp.2 store hs t ht, hq.2 store hs t ht]
  admits_neg hp := by
    refine ⟨hp.1.neg, fun store hs t ht => ?_⟩
    rw [test_neg, test_neg, hp.2 store hs t ht]

section Steps

variable {g : Grouper κ} {stores : List Store} {m : Nat} {s i : Slice κ}

lemma storesWorld_not_blurs : ¬ (storesWorld stores).Blurs :=
  fun ⟨_, t, hp, ⟨store, hs, ht⟩, hne⟩ => hne (hp.2 store hs t ht)

lemma Slice.Wf.represents (hs : s.Wf g (storesWorld stores)) : s.Represents :=
  ⟨hs.separated, fun it hit => ⟨(hs.inside it hit).1.proper.1, (hs.inside it hit).2⟩,
    fun _ he => hs.contains storesWorld_not_blurs he⟩

def PoolWf (g : Grouper κ) (stores : List Store) (pool : List (Slice κ)) : Prop :=
  ∀ s ∈ pool, s.Wf g (storesWorld stores)

variable {F : Panic → Prop} {P : Slice κ → Prop} {pool : List (Slice κ)} (hpool : ∀ s ∈ pool, P s)

include hpool

omit [DecidableEq κ] in
lemma onSlice_yields {i f} (h : ∀ s, pool[i]? = some s → P s → Yields F (fun outs => ∀ o ∈ outs, P o) (f s)) :
    Yields F (fun pool' => ∀ s ∈ pool', P s) (onSlice pool i f) := by
  unfold onSlice
  split
  · exact hpool
  rename_i s hi
  refine (h s hi (hpool s (mem_of_getElem? hi))).bind fun outs houts => ?_
  refine fun s hs => (mem_append.mp hs).elim (houts s) fun hs => ?_
  exact hpool s (mem_of_mem_eraseIdx hs)

omit [DecidableEq κ] in
lemma onSlices_yields {i j f} (h : ∀ s incoming, pool[i]? = some s → (pool.eraseIdx i)[j]? = some incoming →
      P s → P incoming → Yields F (fun outs => ∀ o ∈ outs, P o) (f s incoming)) :
    Yields F (fun pool' => ∀ s ∈ pool', P s) (onSlices pool i j f) := by
  have hrest : ∀ s ∈ pool.eraseIdx i, P s := fun s hs => hpool s (mem_of_mem_eraseIdx hs)
  unfold onSlices
  split
  · rename_i s incoming hi hj
    have hs := hpool s (mem_of_getElem? hi)
    refine (h s incoming hi hj hs (hrest incoming (mem_of_getElem? hj))).bind fun outs houts => ?_
    refine fun s hs => (mem_append.mp hs).elim (houts s) fun hs => ?_
    exact hrest s (mem_of_mem_eraseIdx hs)
  · exact hpool

omit hpool

lemma mergeWithSlice_yields (hs : s.Wf g (storesWorld stores)) (hi : i.Wf g (storesWorld stores)) :
    Yields (Fault (storesWorld stores)) (PoolWf g stores) (s.mergeWithSlice g m i) := by
  unfold mergeWithSlice
  split
  · rename_i hlt
    exact (mergeOrdered_yields hi hs (le_of_lt hlt)).mono (fun _ h => h) fun _ h => h.wf
  rename_i hnlt
  exact (mergeOrdered_yields hs hi (not_lt.mp hnlt)).mono (fun _ h => h) fun _ h => h.wf

lemma storedStep_yields {pool} (hpool : PoolWf g stores pool) (op : Store × Nat × SliceOp)
    (hmem : op.1 ∈ stores) (hst : ∀ store ∈ stores, op.2.2.Stable store) :
    Yields (Fault (storesWorld stores)) (PoolWf g stores) (storedStep g pool op) := by
  obtain ⟨store, m, op⟩ := op
  cases op with
  | newSlice range predicate proper built =>
    exact forall_mem_cons.mpr ⟨wf_newSlice proper ⟨built.normal, hst⟩, hpool⟩
  | splitByRange i key valid =>
    refine onSlice_yields hpool fun s _ hs => (splitByRange_yields hs valid).bind ?_
    rintro ⟨l, r⟩ ⟨-, -, -, hwl, hwr, -⟩
    exact forall_mem_cons.mpr ⟨hwl, forall_mem_singleton.mpr hwr⟩
  | splitByPredicate i q built =>
    have hview : ∀ t, (storesWorld stores).known t → q.test t.asExecutable = q.test t :=
      fun t ⟨store, hs, ht⟩ => hst store hs t ht
    refine onSlice_yields hpool fun s _ hs => (splitByPredicate_yields hs ⟨built.normal, hst⟩ hview).bind ?_
    rintro ⟨l, r⟩ ⟨-, -, hwl, hwr, -⟩
    exact forall_mem_cons.mpr ⟨hwl, forall_mem_singleton.mpr hwr⟩
  | mergeWithSlice i j => exact onSlices_yields hpool fun _ _ _ _ => mergeWithSlice_yields
  | compactWithSlice i j =>
    exact onSlices_yields hpool fun s incoming _ _ hs hi => (compactWithSlice_spec hs hi).bind fun o ho =>
      forall_mem_singleton.mpr ho.2.1
  | shrinkScope i =>
    exact onSlice_yields hpool fun s _ hs => forall_mem_singleton.mpr (shrinkScope_spec hs).wf
  | selectTasks i batchSize replies =>
    have hfeeds : (storesWorld stores).Feeds store := ⟨nofun, fun t ht => ⟨store, hmem, ht⟩⟩
    refine onSlice_yields hpool fun s _ hs => ?_
    exact (selectTasks_spec hfeeds hs batchSize replies).bind fun sel hsel =>
      forall_mem_singleton.mpr hsel.2.1
  | clear i =>
    exact onSlice_yields hpool fun s _ hs => forall_mem_singleton.mpr (clear_spec hs).wf
  | ack i key =>
    exact onSlice_yields hpool fun s _ hs => forall_mem_singleton.mpr (hs.ack trivial)

end Steps

/-- Where the predicates that enter are stable, the slices of every run represent their scopes, and
no run reaches a panic of `executableTracker.split`, `SelectTasks`,
`validateIteratorsOrderedDisjoint` or `NewRange`. The store may change from one operation to the next. -/
theorem slice_representation (g : Grouper κ) (ops : List (Store × Nat × SliceOp))
    (hst : ∀ op ∈ ops, ∀ op' ∈ ops, op.2.2.Stable op'.1) :
    (∀ pool, Lib.run (storedStep g) [] ops = .ok pool → ∀ s ∈ pool, s.Represents) ∧
    ∀ p ∈ [Panic.taskInNeitherScope, .taskOutsideRange, .overlappingIterators, .invalidRange],
      Lib.run (storedStep g) [] ops ≠ .error p := by
  obtain ⟨stores, hstores⟩ : ∃ stores, stores = ops.map (·.1) := ⟨_, rfl⟩
  have along : Lib.Along (fun _ op => op.1 ∈ stores ∧ ∀ store ∈ stores, op.2.2.Stable store)
      (storedStep g) [] ops := by
    refine .of_forall (fun _ op hop => ?_) []
    rw [hstores]
    exact ⟨mem_map_of_mem hop, forall_mem_map.mpr (hst op hop)⟩
  have hrun : Yields (Fault (storesWorld stores)) (PoolWf g stores) (Lib.run (storedStep g) [] ops) :=
    along.yields (fun pool op hpool hop => storedStep_yields hpool op hop.1 hop.2) nofun
  refine ⟨fun pool hr s hs => (hrun.post hr s hs).represents, fun p hp hr => ?_⟩
  cases hrun.fault hr with
  | unableToSplit | unableToMerge => simp at hp
  | taskInNeitherScope hb => exact storesWorld_not_blurs hb

def plainTask (id : Int) : Task := ⟨⟨0, id⟩, "namespace", 0, none, none⟩

def plainStore : Store where
  tasks := [plainTask 1, plainTask 5]
  sorted := by decide
  valid := by decide

lemma proper_tenKeys : (⟨⟨0, 0⟩, ⟨0, 10⟩⟩ : Range).Proper := by decide

lemma valid_three : (⟨0, 3⟩ : Key).Valid := by decide

lemma built_namespace : (Predicate.namespaceIDs {"namespace"}).Built := .namespaceIDs

/-- The store after task 1 was completed and task 7 was written. -/
def laterStore : Store where
  tasks := [plainTask 5, plainTask 7]
  sorted := by decide
  valid := by decide

/-- A slice loads a task, is split at a key and by a predicate, and is merged again. It then loads the
rest from a store that has changed. -/
def stableRun : List (Store × Nat × SliceOp) :=
  [(plainStore, 0, .newSlice ⟨⟨0, 0⟩, ⟨0, 10⟩⟩ .universal proper_tenKeys .universal),
    (plainStore, 0, .selectTasks 0 1 [.page 1 true]),
    (plainStore, 0, .splitByRange 0 ⟨0, 3⟩ valid_three),
    (plainStore, 0, .splitByPredicate 0 (.namespaceIDs {"namespace"}) built_namespace),
    (plainStore, 0, .ack 0 ⟨0, 1⟩),
    (laterStore, 0, .mergeWithSlice 0 0),
    (laterStore, 0, .compactWithSlice 0 0),
    (laterStore, 0, .shrinkScope 0),
    (laterStore, 0, .selectTasks 0 2 [])]

theorem slice_representation_stableRun : (∀ op ∈ stableRun, ∀ op' ∈ stableRun, op.2.2.Stable op'.1) ∧
    ∃ s, Lib.run (storedStep grouperNamespaceID) [] stableRun = .ok [s] ∧
      s.scope.range = ⟨⟨0, 2⟩, ⟨0, 10⟩⟩ ∧
      s.tracker.pendingExecutables.map (·.task) = laterStore.tasks ∧ s.Represents := by
  have hst : ∀ op ∈ stableRun, ∀ op' ∈ stableRun, op.2.2.Stable op'.1 := by decide
  refine ⟨hst, _, rfl, ?_, ?_, ?_⟩
  · decide
  · decide
  exact (slice_representation grouperNamespaceID stableRun hst).1 _ rfl _ mem_cons_self

/-- A slice for the tasks whose destination is not the empty string. -/
def unstableRun : List (Store × Nat × SliceOp) :=
  [(plainStore, 0, .newSlice ⟨⟨0, 0⟩, ⟨0, 10⟩⟩ (.neg (.destinations {""})) proper_tenKeys (.neg .destinations)),
    (plainStore, 0, .selectTasks 0 1 [])]

/-- The slice accepts a task without a destination, but not its executable. -/
theorem unstablePredicate_panics :
    (∃ s, Lib.run (storedStep grouperNamespaceID) [] unstableRun = .ok [s] ∧ ¬ s.Represents) ∧
    Lib.run (storedStep grouperNamespaceID) []
      (unstableRun ++ [(plainStore, 0, .splitByRange 0 ⟨0, 3⟩ (by decide))]) = .error .taskInNeitherScope := by
  refine ⟨⟨_, rfl, fun h => ?_⟩, rfl⟩
  have hc := h.2.2 (newExecutable (plainTask 1)) (by decide)
  exact absurd hc (by decide)

/-!
## Exact group counts

`pendingPerKey` is bumped by every `add` and by every executable that `merge` moves, also where
`pendingExecutables` already has an executable under the same task key. `Tracker.Counted` therefore
only bounds the counts from below. They are exact as long as no key is brought in twice: slices that
are merged or compacted track different tasks, and the tasks that `SelectTasks` has ahead of it in the
pages of its iterators and in the store are distinct and not tracked already (`groupCounts_exact`).

Slices can come to share tasks. A split by predicate widens both parts to the universal predicate if
their predicates are too large, and each of them then loads every task; and where two slices over one
range are merged, the iterators are coalesced over what only one of them has loaded. In both cases a
count is left behind that no acknowledgement takes away (`sharedTask_countedTwice`).
-/

open Lib Tracker Iterator Range

variable {g : Grouper κ}

namespace Tracker

/-- Distinct task keys, and for each group the number of its executables. -/
structure Exact (g : Grouper κ) (t : Tracker κ) : Prop where
  distinct : t.pendingExecutables.Pairwise fun a b => a.task.key ≠ b.task.key
  count : ∀ k, t.pendingPerKey.count k = inGroup g k t.pendingExecutables

def Apart (es es' : List Executable) : Prop := ∀ e ∈ es, ∀ e' ∈ es', e.task.key ≠ e'.task.key

instance (es es' : List Executable) : Decidable (Apart es es') :=
  inferInstanceAs (Decidable (∀ e ∈ es, ∀ e' ∈ es', _))

lemma Apart.symm {es es'} (h : Apart es es') : Apart es' es :=
  fun e' he' e he => (h e he e' he').symm

lemma Apart.mono {es es' fs fs'} (h : Apart es es') (hf : fs ⊆ es) (hf' : fs' ⊆ es') : Apart fs fs' :=
  fun e he e' he' => h e (hf he) e' (hf' he')

lemma exact_empty : (empty : Tracker κ).Exact g where
  distinct := .nil
  count _ := by simp [empty, inGroup, PendingPerKey.empty]

/-- The parts of a tracker. -/
def Exact.Parts (g : Grouper κ) (t l r : Tracker κ) : Prop :=
  l.Exact g ∧ r.Exact g ∧ l.pendingExecutables ⊆ t.pendingExecutables ∧ r.pendingExecutables ⊆ t.pendingExecutables

lemma put_eq_append {es es'} (h : Apart es es') : put es es' = es ++ es' := by
  have hkeep : es.filter (fun e => es'.all fun e' => e'.task.key ≠ e.task.key) = es := by
    refine filter_eq_self.mpr fun e he => all_eq_true.mpr fun e' he' => ?_
    exact decide_eq_true (h e he e' he').symm
  rw [put, hkeep]

section

variable {t : Tracker κ} (ht : t.Exact g)

include ht

lemma Exact.split (sl sr : Scope) : Yields (fun _ => True) (fun lr => Parts g t lr.1 lr.2) (t.split g sl sr) := by
  simp only [Tracker.split]
  split
  · refine (show _ ∧ _ from ⟨⟨ht.distinct.filter _, fun k => ?_⟩, ⟨ht.distinct.filter _, fun k => ?_⟩,
      filter_subset_self _, filter_subset_self _⟩)
    · have hsum := inGroup_filter (g := g) k (fun e => sl.contains e.task.asExecutable) t.pendingExecutables
      have hcount := ht.count k
      rw [PendingPerKey.count_addAll]
      simp only [inGroup] at hsum hcount ⊢
      omega
    rw [PendingPerKey.count_addAll]
    simp [PendingPerKey.empty, inGroup]
  · trivial

lemma Exact.putAll {es : List Executable}
    (hes : es.Pairwise fun a b => a.task.key ≠ b.task.key) (h : Apart t.pendingExecutables es) :
    (t.putAll g es).Exact g  where
  distinct := distinct_put ht.distinct hes
  count k := by
    have hcount := ht.count k
    simp only [Tracker.putAll, put_eq_append h, inGroup_append, PendingPerKey.count_addAll]
    simp only [inGroup] at hcount ⊢
    omega

lemma Exact.merge {t' : Tracker κ} (ht' : t'.Exact g)
    (h : Apart t.pendingExecutables t'.pendingExecutables) : (t.merge g t').Exact g := by
  unfold Tracker.merge
  split
  · exact ht'.putAll ht.distinct h.symm
  · exact ht.putAll ht'.distinct h

lemma Exact.addAll {es : List Executable}
    (hes : es.Pairwise fun a b => a.task.key ≠ b.task.key) (h : Apart t.pendingExecutables es) :
    (es.foldl (add g) t).Exact g := by
  induction es generalizing t with
  | nil => exact ht
  | cons e es ih =>
    obtain ⟨hfirst, hrest⟩ := pairwise_cons.mp hes
    have hone : Apart t.pendingExecutables [e] := h.mono (List.Subset.refl _) (by simp)
    refine ih (ht.putAll (pairwise_singleton _ e) hone) hrest fun a ha b hb => ?_
    obtain ⟨ha, -⟩ | ha := mem_put.mp ha
    · exact h a ha b (mem_cons_of_mem _ hb)
    cases mem_singleton.mp ha
    exact hfirst b hb

lemma Exact.shrink : (t.shrink g).1.Exact g where
  distinct := ht.distinct.filter _
  count k := by
    have hcount := ht.count k
    have hsum := inGroup_filter (g := g) k (fun e => decide (e.state = .acked)) t.pendingExecutables
    simp only [Tracker.shrink, ne_eq, decide_not]
    rw [PendingPerKey.count_addAll]
    simp only [inGroup] at hcount hsum ⊢
    omega

end

end Tracker

namespace Slice

variable {m : Nat} {s incoming : Slice κ}

lemma make_tracker (scope : Scope) (its : List Iterator) (t : Tracker κ) : (make m scope its t).tracker = t :=
  ensure_tracker _

lemma splitByRange_exact (hs : s.tracker.Exact g) (key : Key) :
    Yields (fun _ => True) (fun lr => Exact.Parts g s.tracker lr.1.tracker lr.2.tracker) (s.splitByRange g m key) := by
  refine .of_bind fun _ => (hs.split _ _).bind fun _ hparts => .of_bind fun _ => ?_
  show Exact.Parts g _ (make ..).tracker (make ..).tracker
  rwa [make_tracker, make_tracker]

lemma splitByPredicate_exact (hs : s.tracker.Exact g) (q : Predicate) :
    Yields (fun _ => True) (fun lr => Exact.Parts g s.tracker lr.1.tracker lr.2.tracker) (s.splitByPredicate g m q) := by
  refine (hs.split _ _).bind fun _ hparts => ?_
  show Exact.Parts g _ (make ..).tracker (make ..).tracker
  rwa [make_tracker, make_tracker]

/-- The tracker of a slice that is made of two. -/
abbrev Combines (g : Grouper κ) (s incoming : Slice κ) : Except Panic (Slice κ) → Prop :=
  Yields (fun _ => True) fun o => o.tracker = s.tracker.merge g incoming.tracker

lemma mergeByRange_tracker : Combines g s incoming (s.mergeByRange g m incoming) :=
  .of_bind fun _ => .of_bind fun _ => make_tracker ..

lemma mergeByPredicate_tracker : Combines g s incoming (s.mergeByPredicate g m incoming) :=
  .of_bind fun _ => .of_bind fun _ => make_tracker ..

lemma compactWithSlice_tracker : Combines g s incoming (s.compactWithSlice g m incoming) :=
  .of_bind fun _ => .of_bind fun _ => make_tracker ..

section

variable (hs : s.tracker.Exact g) (hi : incoming.tracker.Exact g)
  (hapart : Apart s.tracker.pendingExecutables incoming.tracker.pendingExecutables)

include hs hi hapart

/-- The pieces that do not overlap keep their part of a tracker, the middle one gets both. -/
lemma mergeOrdered_exact :
    Yields (fun _ => True) (fun outs => ∀ o ∈ outs, o.tracker.Exact g) (s.mergeOrdered g m incoming) := by
  unfold mergeOrdered
  split
  · trivial
  split
  · refine mergeByRange_tracker.bind fun merged hmerged => forall_mem_singleton.mpr ?_
    rw [hmerged]
    exact hs.merge hi hapart
  refine (splitByRange_exact hs _).bind fun ⟨left, right⟩ ⟨hleft, hright, _, hrsub⟩ => ?_
  dsimp only at hleft hright hrsub ⊢
  -- the pieces with an empty scope are dropped
  have pieces : ∀ {a b c : Slice κ}, a.tracker.Exact g → b.tracker.Exact g → c.tracker.Exact g →
      ∀ o ∈ [a, b, c].filter (!·.scope.isEmpty), o.tracker.Exact g := by
    intro a b c ha hb hc o ho
    have hmem := mem_of_mem_filter ho
    simp only [mem_cons, not_mem_nil, or_false] at hmem
    obtain rfl | rfl | rfl := hmem
    · exact ha
    · exact hb
    · exact hc
  split
  · refine (splitByRange_exact hi _).bind fun ⟨leftIncoming, rightIncoming⟩ ⟨hli, hri, hlsub, _⟩ => ?_
    refine mergeByPredicate_tracker.bind fun mid hmid => pieces hleft ?_ hri
    rw [hmid]
    exact hright.merge hli (hapart.mono hrsub hlsub)
  refine (splitByRange_exact hright _).bind fun ⟨currentMid, currentRight⟩ ⟨hcm, hcr, hmsub, _⟩ => ?_
  refine mergeByPredicate_tracker.bind fun mid hmid => pieces hleft ?_ hcr
  rw [hmid]
  exact hcm.merge hi (hapart.mono (fun e he => hrsub (hmsub he)) (List.Subset.refl _))

lemma mergeWithSlice_exact :
    Yields (fun _ => True) (fun outs => ∀ o ∈ outs, o.tracker.Exact g) (s.mergeWithSlice g m incoming) := by
  unfold mergeWithSlice
  split
  · exact mergeOrdered_exact hi hs hapart.symm
  · exact mergeOrdered_exact hs hi hapart

omit hi hapart

lemma shrinkScope_exact : (s.shrinkScope g m).tracker.Exact g := by
  have hrange : (s.shrinkRange g).tracker.Exact g := hs.shrink
  unfold shrinkScope shrinkPredicate
  split
  · exact hrange
  rw [ensure_tracker]
  exact hrange

lemma ack_exact (key : Key) : (s.ack key).tracker.Exact g := by
  refine ⟨distinct_ack hs.distinct, fun k => ?_⟩
  rw [inGroup_ack]
  exact hs.count k

end

end Slice

/-- The range that is left when the items have been taken. -/
def Range.after (r : Range) (items : List Task) : Range :=
  items.foldl (fun r t => match t.key.next with
    | .ok next => { r with inclusiveMin := next }
    | .error _ => r) r

lemma Store.read_tail {store : Store} {r : Range} {t ts} (h : store.read r = t :: ts) :
    ∃ next, t.key.next = .ok next ∧ store.read { r with inclusiveMin := next } = ts := by
  obtain ⟨hin, hc⟩ := mem_filter.mp (h ▸ mem_cons_self : t ∈ store.read r)
  obtain ⟨hv, hlt⟩ := store.valid t hin
  obtain ⟨next, heq, -, htn, hleast⟩ := Key.next_spec hv hlt
  have hmin := (containsKey_iff.mp hc).1
  have hrest : store.read { r with inclusiveMin := next } =
      (store.read r).filter (containsKey { r with inclusiveMin := next } ·.key) := by
    rw [read, read, filter_filter]
    refine filter_congr fun a _ => Bool.eq_iff_iff.mpr ?_
    simp only [Bool.and_eq_true, containsKey_iff]
    exact ⟨fun h => ⟨h, hmin.trans (htn.le.trans h.1), h.2⟩, fun h => h.1⟩
  have hsorted : (t :: ts).Pairwise fun a b => a.key < b.key := h ▸ store.sorted.filter _
  refine ⟨next, heq, ?_⟩
  rw [hrest, h, filter_cons_of_neg (by simp [containsKey, htn])]
  refine filter_eq_self.mpr fun a ha => containsKey_iff.mpr ⟨?_, ?_⟩
  · obtain ⟨hmem, -⟩ := mem_filter.mp (h ▸ mem_cons_of_mem t ha : a ∈ store.read r)
    exact hleast _ (store.valid a hmem).1 ((pairwise_cons.mp hsorted).1 a ha)
  · exact (containsKey_iff.mp (mem_filter.mp (h ▸ mem_cons_of_mem t ha : a ∈ store.read r)).2).2

/-- The store goes on after a page where the page ends. -/
lemma Store.read_after (store : Store) (r : Range) (n : Nat) :
    store.read (r.after ((store.read r).take n)) = (store.read r).drop n := by
  induction n generalizing r with
  | zero => rfl
  | succ n ih =>
    cases h : store.read r with
    | nil => simpa [Range.after] using h
    | cons t ts =>
      obtain ⟨next, heq, rfl⟩ := read_tail h
      simpa [Range.after, heq] using ih { r with inclusiveMin := next }

/-- The tasks that an iterator has yet to return: its page, and what the store has after it. -/
def Iterator.ahead (store : Store) (it : Iterator) : List Task :=
  let page := it.page.getD ⟨[], true⟩
  page.items ++ if page.more then store.read (it.range.after page.items) else []

namespace Slice

section Selection

variable {store : Store} {scope : Scope} {batchSize : Nat} {t : Tracker κ} {total rest : List Task}

/-- `SelectTasks` tracks what it will return, which together with what is ahead is always the same. -/
structure Progress.Takes (g : Grouper κ) (scope : Scope) (batchSize : Nat) (t : Tracker κ) (total : List Task)
    (p : Progress κ) (ahead : List Task) : Prop where
  adds : p.tracker = p.executables.foldl (add g) t
  bound : p.executables.length ≤ batchSize
  splits : p.executables.map (·.task) ++ ahead.filter scope.predicate.test = total

variable {p : Progress κ}

lemma selectItems_takes {items range more} (hp : p.Takes g scope batchSize t total (ahead store ⟨range, some ⟨items, more⟩⟩ ++ rest)) :
    Yields (fun _ => True) (fun r => r.2.2.Takes g scope batchSize t total (ahead store ⟨r.2.1, some ⟨r.1, more⟩⟩ ++ rest) ∧
      (r.2.2.executables.length < batchSize → r.1 = [])) (selectItems g scope batchSize items range p) := by
  induction items generalizing range p with
  | nil => exact ⟨hp, fun _ => rfl⟩
  | cons task items ih =>
    unfold selectItems
    split
    · cases hnext : task.key.next with
      | error e => trivial
      | ok next =>
        -- the task is taken or skipped, and the range left is the same
        have hahead : ahead store ⟨range, some ⟨task :: items, more⟩⟩ =
            task :: ahead store ⟨{ range with inclusiveMin := next }, some ⟨items, more⟩⟩ := by
          simp [ahead, Range.after, hnext]
        rw [hahead, cons_append] at hp
        show Yields _ _ (ite _ _ _)
        split
        · trivial
        split
        next htest =>
          refine ih ⟨?_, by simpa using ‹_ < batchSize›, ?_⟩
          · simp only [foldl_append, foldl_cons, foldl_nil, ← hp.adds]
          · have hsplits := hp.splits
            rw [filter_cons_of_pos htest] at hsplits
            simpa [newExecutable] using hsplits
        next htest =>
          refine ih ⟨hp.adds, hp.bound, ?_⟩
          have hsplits := hp.splits
          rwa [filter_cons_of_neg htest] at hsplits
    next hfull => exact ⟨hp, fun h => absurd h hfull⟩

def Turn.progress : Turn κ → Progress κ
  | .exhausted _ p => p
  | .stopped _ p _ => p

def Turn.ahead (store : Store) : Turn κ → List Task
  | .exhausted .. => []
  | .stopped it .. => it.ahead store

/-- A turn ends with the batch or the iterator used up, or with a range to read. -/
lemma selectPage_takes {replies it} (hp : p.Takes g scope batchSize t total (it.ahead store ++ rest)) :
    Yields (fun _ => True) (Sum.elim
      (fun turn => turn.progress.Takes g scope batchSize t total (turn.ahead store ++ rest))
      fun x => x.2.Takes g scope batchSize t total (store.read x.1 ++ rest))
      (selectPage g scope batchSize replies it p) := by
  obtain ⟨page, hpage⟩ : ∃ page, it.page.getD ⟨[], true⟩ = page := ⟨_, rfl⟩
  have hp' : p.Takes g scope batchSize t total (ahead store ⟨it.range, some ⟨page.items, page.more⟩⟩ ++ rest) :=
    hpage ▸ hp
  unfold selectPage
  simp only [hpage]
  refine (selectItems_takes hp').bind fun ⟨items, range', q⟩ ⟨hq, hdone⟩ => ?_
  dsimp only at hq hdone ⊢
  split
  · exact hq
  rename_i hfull
  cases hdone (not_not.mp hfull)
  split
  next hmore =>
    rw [hmore] at hq
    exact hq
  next hmore =>
    rw [Bool.eq_false_iff.mpr hmore] at hq
    exact hq

lemma selectPages_takes {replies it} (hp : p.Takes g scope batchSize t total (it.ahead store ++ rest)) :
    Yields (fun _ => True) (fun turn => turn.progress.Takes g scope batchSize t total (turn.ahead store ++ rest))
      (selectPages g store scope batchSize replies it p) := by
  induction replies generalizing it p with
  | nil =>
    refine (selectPage_takes hp).bind fun r hr => ?_
    obtain turn | ⟨range, q⟩ := r
    · exact hr
    have hq : q.Takes g scope batchSize t total (ahead store ⟨range, some ⟨store.read range, false⟩⟩ ++ rest) := by
      simpa [ahead] using hr
    refine (selectItems_takes hq).bind fun ⟨items, range', q'⟩ ⟨hq', hdone⟩ => ?_
    dsimp only at hq' hdone ⊢
    split
    · exact hq'
    rename_i hfull
    cases hdone (not_not.mp hfull)
    exact hq'
  | cons reply replies ih =>
    refine (selectPage_takes hp).bind fun r hr => ?_
    obtain turn | ⟨range, q⟩ := r
    · exact hr
    cases reply with
    | failed => exact hr
    | page size more =>
      refine ih ?_
      have hfetch : ahead store ⟨range, some (fetch store size more range)⟩ = store.read range := by
        simp only [ahead, fetch, Option.getD_some, store.read_after]
        split
        · exact take_append_drop _ _
        next hmore =>
          rw [append_nil, take_of_length_le]
          simpa using (Bool.or_eq_false_iff.mp (Bool.eq_false_iff.mpr hmore)).2
      rwa [hfetch]

lemma selectIterators_takes {its replies} (hp : p.Takes g scope batchSize t total (its.flatMap (ahead store))) :
    Yields (fun _ => True) (fun r => r.2.1.Takes g scope batchSize t total (r.1.flatMap (ahead store)))
      (selectIterators g store scope batchSize its replies p) := by
  induction its generalizing replies p with
  | nil => exact hp
  | cons it its ih =>
    unfold selectIterators
    split
    · refine (selectPages_takes hp).bind fun turn hturn => ?_
      cases turn with
      | exhausted replies' q => exact ih hturn
      | stopped it' q failed => exact hturn
    · exact hp

end Selection

/-- The accepted tasks that a slice has ahead of it, in the order in which it selects them. -/
def upcoming (store : Store) (s : Slice κ) : List Task :=
  (s.iterators.flatMap (Iterator.ahead store)).filter s.scope.predicate.test

/-- `SelectTasks` takes the first of the upcoming tasks, and tracks them. -/
lemma selectTasks_takes {store batchSize replies} {s : Slice κ} : Yields (fun _ => True)
    (fun sel => sel.slice.tracker = sel.executables.foldl (add g) s.tracker ∧
      sel.executables.map (·.task) <+: (s.upcoming store).take batchSize) (s.selectTasks g store batchSize replies) := by
  have hp : Progress.Takes g s.scope batchSize s.tracker (s.upcoming store) ⟨s.tracker, []⟩
      (s.iterators.flatMap (ahead store)) := ⟨rfl, Nat.zero_le _, rfl⟩
  refine (selectIterators_takes hp).bind fun _ h => ⟨h.adds, prefix_take_iff.mpr ⟨⟨_, h.splits⟩, ?_⟩⟩
  rw [length_map]
  exact h.bound

end Slice

/-- No task key enters a tracker that has it already. -/
def AddsNewKeys (pool : List (Slice κ)) (op : Store × Nat × SliceOp) : Prop :=
  match op.2.2 with
  | .mergeWithSlice i j | .compactWithSlice i j =>
    ∀ s ∈ pool[i]?, ∀ incoming ∈ (pool.eraseIdx i)[j]?,
      Apart s.tracker.pendingExecutables incoming.tracker.pendingExecutables
  | .selectTasks i batchSize _ =>
    ∀ s ∈ pool[i]?, Apart s.tracker.pendingExecutables (((s.upcoming op.1).take batchSize).map newExecutable) ∧
      ((s.upcoming op.1).take batchSize).Pairwise fun a b => a.key ≠ b.key
  | _ => True

instance (pool : List (Slice κ)) (op : Store × Nat × SliceOp) :
    Decidable (AddsNewKeys pool op) := by
  obtain ⟨store, m, op⟩ := op
  rcases op <;> unfold AddsNewKeys <;> infer_instance

lemma storedStep_exact {pool op} (hpool : ∀ s ∈ pool, s.tracker.Exact g) (hnew : AddsNewKeys pool op) :
    Yields (fun _ => True) (fun pool' => ∀ s ∈ pool', s.tracker.Exact g) (storedStep g pool op) := by
  obtain ⟨store, m, op⟩ := op
  cases op with
  | newSlice range predicate proper built =>
    refine forall_mem_cons.mpr ⟨?_, hpool⟩
    rw [newSlice, make, ensure_tracker]
    exact exact_empty
  | splitByRange i key valid =>
    refine onSlice_yields hpool fun s _ hs => (splitByRange_exact hs key).bind fun _ ⟨hl, hr, _⟩ => ?_
    exact forall_mem_cons.mpr ⟨hl, forall_mem_singleton.mpr hr⟩
  | splitByPredicate i q built =>
    refine onSlice_yields hpool fun s _ hs => (splitByPredicate_exact hs q).bind fun _ ⟨hl, hr, _⟩ => ?_
    exact forall_mem_cons.mpr ⟨hl, forall_mem_singleton.mpr hr⟩
  | mergeWithSlice i j =>
    exact onSlices_yields hpool fun s incoming hi hj hs hincoming =>
      mergeWithSlice_exact hs hincoming (hnew s hi incoming hj)
  | compactWithSlice i j =>
    refine onSlices_yields hpool fun s incoming hi hj hs hincoming => compactWithSlice_tracker.bind fun o ho => ?_
    refine forall_mem_singleton.mpr ?_
    rw [ho]
    exact hs.merge hincoming (hnew s hi incoming hj)
  | shrinkScope i =>
    exact onSlice_yields hpool fun s _ hs => forall_mem_singleton.mpr (shrinkScope_exact hs)
  | selectTasks i batchSize replies =>
    refine onSlice_yields hpool fun s hi hs => .any fun outs houts => ?_
    obtain ⟨sel, hsel, houts⟩ := bind_ok houts
    cases houts
    obtain ⟨hapart, hdistinct⟩ := hnew s hi
    obtain ⟨htracker, htaken⟩ := selectTasks_takes.post hsel
    refine forall_mem_singleton.mpr ?_
    rw [htracker]
    have htasks := pairwise_map.mp (hdistinct.sublist htaken.sublist)
    refine hs.addAll htasks fun e he e' he' => ?_
    exact hapart e he (newExecutable e'.task) (mem_map_of_mem (htaken.subset (mem_map_of_mem he')))
  | clear i =>
    exact onSlice_yields hpool fun s _ hs => forall_mem_singleton.mpr exact_empty
  | ack i key =>
    exact onSlice_yields hpool fun s _ hs => forall_mem_singleton.mpr (ack_exact hs key)

/-- In every run of slice operations that never brings a task key into a tracker that has it already,
the count of each group is the number of its pending executables, in every slice. -/
theorem groupCounts_exact (g : Grouper κ) (ops : List (Store × Nat × SliceOp))
    (hnew : Along AddsNewKeys (storedStep g) [] ops) (pool : List (Slice κ))
    (hrun : run (storedStep g) [] ops = .ok pool) :
    ∀ s ∈ pool, ∀ k, s.tracker.pendingPerKey.count k =
      (s.tracker.pendingExecutables.filter fun e => g.key e.task.asExecutable = k).length := by
  have hexact : ∀ s ∈ pool, s.tracker.Exact g :=
    (hnew.yields (fun _ _ => storedStep_exact) nofun).post hrun
  intro s hs k
  rw [(hexact s hs).count k, inGroup, count_eq_countP, countP_map, countP_eq_length_filter]
  rfl

/-- Two parts of a range load a task each and are merged. -/
def disjointRun : List (Store × Nat × SliceOp) :=
  [(0, .newSlice ⟨⟨0, 0⟩, ⟨0, 10⟩⟩ .universal proper_tenKeys .universal), (0, .selectTasks 0 1 [.page 1 true]),
    (0, .splitByRange 0 ⟨0, 3⟩ valid_three),
    (0, .selectTasks 1 1 []),
    (0, .mergeWithSlice 0 0)].map fun op => (plainStore, op)

theorem groupCounts_exact_disjointRun :
    Along AddsNewKeys (storedStep grouperNamespaceID) [] disjointRun ∧
    ∃ s, run (storedStep grouperNamespaceID) [] disjointRun = .ok [s] ∧
      s.tracker.pendingPerKey.count "namespace" = 2 := by
  have hnew : Along AddsNewKeys (storedStep grouperNamespaceID) []
      disjointRun := by decide +kernel
  refine ⟨hnew, _, rfl, ?_⟩
  rw [groupCounts_exact grouperNamespaceID disjointRun hnew _ rfl _ mem_cons_self]
  decide +kernel

/-- Both parts of a split become universal, and each loads the same task. -/
def widenedRun : List (Store × Nat × SliceOp) :=
  [(0, .newSlice ⟨⟨0, 0⟩, ⟨0, 10⟩⟩ .universal proper_tenKeys .universal),
    (5, .splitByPredicate 0 (.namespaceIDs {"namespace"}) built_namespace),
    (5, .selectTasks 0 1 []),
    (5, .selectTasks 1 1 []),
    (5, .mergeWithSlice 0 0)].map fun op => (plainStore, op)

/-- The part that loads a task is merged with one that has read nothing, and reads again. -/
def coalescedRun : List (Store × Nat × SliceOp) :=
  [(0, .newSlice ⟨⟨0, 0⟩, ⟨0, 10⟩⟩ .universal proper_tenKeys .universal),
    (0, .splitByPredicate 0 (.namespaceIDs {"namespace"}) built_namespace),
    (0, .selectTasks 0 1 []),
    (0, .mergeWithSlice 0 0),
    (0, .selectTasks 0 1 [])].map fun op => (plainStore, op)

/-- One executable is tracked and two are counted. When it is acknowledged, one count stays. -/
theorem sharedTask_countedTwice : (∀ ops ∈ [widenedRun, coalescedRun],
      ∃ s, run (storedStep grouperNamespaceID) [] ops = .ok [s] ∧
        s.tracker.pendingExecutables = [newExecutable (plainTask 1)] ∧
        s.tracker.pendingPerKey.count "namespace" = 2) ∧
    ∃ s, run (storedStep grouperNamespaceID) [] (widenedRun ++
        [(plainStore, 0, .ack 0 ⟨0, 1⟩), (plainStore, 0, .shrinkScope 0)]) = .ok [s] ∧
      s.tracker.pendingExecutables = [] ∧ s.tracker.pendingPerKey.count "namespace" = 1 := by
  refine ⟨forall_mem_cons.mpr ⟨?_, forall_mem_singleton.mpr ?_⟩, ?_⟩
  all_goals exact ⟨_, rfl, by decide +kernel, by decide +kernel⟩

end FastOrchestration.Queues
