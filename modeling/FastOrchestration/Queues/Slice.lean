import FastOrchestration.Lib.MergeFold
import FastOrchestration.Queues.Scope

/-!
# Queue slices

Model of `grouper.go`, `tracker.go`, `iterator.go`, `slice.go` and of the paging iterator in
`common/collection`. A slice owns a scope. It tracks the executables that it loaded and keeps
iterators for the ranges that it has yet to read.

Choices of the model:

* The task maps are lists whose keys a later proof shows to be distinct; the group counts are a set of
  keys with a count, since Go distinguishes an absent key from one with count zero.
* `Grouper` is the Go interface together with what both implementations guarantee.
* The store answers a page request with the first tasks of what is left of the iterator's range; how
  many, whether a further token follows, and whether the call fails is up to a list of replies. When
  the replies run out, the rest of the range comes in one page.
* `SelectTasks` is one loop in Go; here it is a recursion over the iterators, over the pages of one
  iterator and over the items of one page.
* A destroyed slice has no name any more, and what is reported to the monitor is left out.
-/

namespace FastOrchestration.Queues

/-- Go `Grouper`: a group key for each task, and a predicate for a set of groups that selects exactly
their tasks. An executable belongs to the group of its task. -/
structure Grouper (κ : Type) [DecidableEq κ] where
  key : Task → κ
  predicate : Finset κ → Predicate
  normal : ∀ keys, (predicate keys).Normal
  test_predicate : ∀ keys t, (predicate keys).test t = true ↔ key t ∈ keys
  key_asExecutable : ∀ t, key t.asExecutable = key t

def grouperNamespaceID : Grouper String where
  key t := t.namespaceID
  predicate keys := .namespaceIDs keys
  normal _ := .namespaceIDs
  test_predicate keys t := by simp [Predicate.test]
  key_asExecutable _ := rfl

inductive TaskState where
  | pending
  | aborted
  | cancelled
  | acked
  deriving DecidableEq

structure Executable where
  task : Task
  state : TaskState
  deriving DecidableEq

def newExecutable (task : Task) : Executable := ⟨task, .pending⟩

def Executable.ack (e : Executable) : Executable :=
  if e.state = .pending then { e with state := .acked } else e

structure Store where
  tasks : List Task
  sorted : tasks.Pairwise fun a b => a.key < b.key
  valid : ∀ t ∈ tasks, t.key.Valid ∧ t.key < Key.maximumKey

def Store.empty : Store := ⟨[], .nil, nofun⟩

def Store.read (store : Store) (range : Range) : List Task :=
  store.tasks.filter fun t => range.containsKey t.key

variable {κ : Type} [DecidableEq κ]

/-- Go `map[any]int`. -/
structure PendingPerKey (κ : Type) where
  keys : Finset κ
  count : κ → Int

namespace PendingPerKey

def empty : PendingPerKey κ := ⟨∅, fun _ => 0⟩

def add (m : PendingPerKey κ) (key : κ) (n : Int) : PendingPerKey κ :=
  ⟨insert key m.keys, Function.update m.count key (m.count key + n)⟩

def addAll (m : PendingPerKey κ) (keys : List κ) (n : Int) : PendingPerKey κ :=
  keys.foldl (fun m key => m.add key n) m

end PendingPerKey

/-- Go `executableTracker`. -/
structure Tracker (κ : Type) where
  pendingExecutables : List Executable
  pendingPerKey : PendingPerKey κ

namespace Tracker

def empty : Tracker κ := ⟨[], .empty⟩

/-- Go `executableTracker.split`: what `thisScope` does not contain moves to the second tracker. -/
def split (g : Grouper κ) (t : Tracker κ) (thisScope thatScope : Scope) :
    Except Panic (Tracker κ × Tracker κ) :=
  let stay := t.pendingExecutables.filter fun e => thisScope.contains e.task.asExecutable
  let moved := t.pendingExecutables.filter fun e => !thisScope.contains e.task.asExecutable
  let groups := moved.map fun e => g.key e.task.asExecutable
  if moved.all fun e => thatScope.contains e.task.asExecutable then
    .ok (⟨stay, t.pendingPerKey.addAll groups (-1)⟩, ⟨moved, PendingPerKey.empty.addAll groups 1⟩)
  else .error .taskInNeitherScope

def put (pending incoming : List Executable) : List Executable :=
  pending.filter (fun e => incoming.all fun e' => e'.task.key ≠ e.task.key) ++ incoming

/-- The loop of `merge`: every executable of `that` goes into `this` and is counted there. -/
def putAll (g : Grouper κ) (this : Tracker κ) (that : List Executable) : Tracker κ :=
  ⟨put this.pendingExecutables that, this.pendingPerKey.addAll (that.map fun e => g.key e.task.asExecutable) 1⟩

/-- Go `executableTracker.merge`: the smaller map goes into the larger one. -/
def merge (g : Grouper κ) (t incoming : Tracker κ) : Tracker κ :=
  if t.pendingExecutables.length < incoming.pendingExecutables.length then
    putAll g incoming t.pendingExecutables
  else putAll g t incoming.pendingExecutables

def add (g : Grouper κ) (t : Tracker κ) (e : Executable) : Tracker κ :=
  ⟨put t.pendingExecutables [e], t.pendingPerKey.add (g.key e.task.asExecutable) 1⟩

/-- Go `executableTracker.shrink`, with the smallest key that is left. -/
def shrink (g : Grouper κ) (t : Tracker κ) : Tracker κ × Key :=
  let acked := t.pendingExecutables.filter fun e => e.state = .acked
  let left := t.pendingExecutables.filter fun e => e.state ≠ .acked
  let counts := t.pendingPerKey.addAll (acked.map fun e => g.key e.task.asExecutable) (-1)
  (⟨left, { counts with keys := counts.keys.filter fun key => counts.count key ≠ 0 }⟩,
    left.foldl (fun minKey e => Key.minKey minKey e.task.key) Key.maximumKey)

end Tracker

/-- The page an iterator holds: the items not yet returned, and whether a token for more follows. -/
structure Page where
  items : List Task
  more : Bool
  deriving DecidableEq

/-- Go `IteratorImpl`. Without a page, the first one is still to be read. -/
structure Iterator where
  range : Range
  page : Option Page
  deriving DecidableEq

namespace Iterator

def newIterator (range : Range) : Iterator := ⟨range, none⟩

def remaining (it : Iterator) : Iterator := newIterator it.range

def split (it : Iterator) (key : Key) : Except Panic (Iterator × Iterator) := do
  let (left, right) ← it.range.split key
  return (newIterator left, newIterator right)

def merge (it incoming : Iterator) : Except Panic Iterator := do
  let range ← it.range.merge incoming.range
  return newIterator range

end Iterator

/-- Go `SliceImpl`. -/
structure Slice (κ : Type) where
  scope : Scope
  iterators : List Iterator
  tracker : Tracker κ

/-- What the store does with one page request. -/
inductive Reply where
  | failed
  | page (size : Nat) (more : Bool)
  deriving DecidableEq

namespace Slice

section Operations

variable (g : Grouper κ) (maxPredicateSize : Nat)

/-- Go `ensurePredicateSizeLimit`; zero is unlimited. -/
def ensurePredicateSizeLimit (s : Slice κ) : Slice κ :=
  if 0 < maxPredicateSize ∧ maxPredicateSize < s.scope.predicate.size then
    { s with scope := { s.scope with predicate := .universal } }
  else s

/-- Go `SliceImpl.newSlice`. -/
def make (scope : Scope) (iterators : List Iterator) (tracker : Tracker κ) : Slice κ :=
  ensurePredicateSizeLimit maxPredicateSize ⟨scope, iterators, tracker⟩

def newSlice (scope : Scope) : Slice κ :=
  make maxPredicateSize scope [.newIterator scope.range] .empty

def splitIterators (left right : Range) (key : Key) :
    List Iterator → Except Panic (List Iterator × List Iterator)
  | [] => .ok ([], [])
  | it :: its => do
    let (ls, rs) ← splitIterators left right key its
    if left.containsRange it.range then return (it :: ls, rs)
    else if right.containsRange it.range then return (ls, it :: rs)
    else
      let (l, r) ← it.split key
      return (l :: ls, r :: rs)

def splitByRange (s : Slice κ) (key : Key) : Except Panic (Slice κ × Slice κ) := do
  let (leftScope, rightScope) ← s.scope.splitByRange key
  let (leftTracker, rightTracker) ← s.tracker.split g leftScope rightScope
  let (leftIterators, rightIterators) ← splitIterators leftScope.range rightScope.range key s.iterators
  return (make maxPredicateSize leftScope leftIterators leftTracker,
    make maxPredicateSize rightScope rightIterators rightTracker)

def splitByPredicate (s : Slice κ) (predicate : Predicate) :
    Except Panic (Slice κ × Slice κ) := do
  let (passScope, failScope) := s.scope.splitByPredicate predicate
  let (passTracker, failTracker) ← s.tracker.split g passScope failScope
  return (make maxPredicateSize passScope s.iterators passTracker,
    make maxPredicateSize failScope (s.iterators.map (·.remaining)) failTracker)

/-- Go `appendIterator`; the list built so far is reversed. -/
def appendIterator : List Iterator → Iterator → Except Panic (List Iterator)
  | [], it => .ok [it]
  | last :: built, it =>
    if last.range.canMerge it.range then do
      let merged ← last.merge it
      return merged :: built
    else .ok (it :: last :: built)

def validateIteratorsOrderedDisjoint : List Iterator → Except Panic Unit
  | it :: next :: its =>
    if it.range.exclusiveMax ≥ next.range.inclusiveMin then .error .overlappingIterators
    else validateIteratorsOrderedDisjoint (next :: its)
  | _ => .ok ()

def mergeIterators (current incoming : List Iterator) : Except Panic (List Iterator) := do
  let built ← Lib.mergeFold (fun it it' => it.range.inclusiveMin < it'.range.inclusiveMin)
    appendIterator [] current incoming
  validateIteratorsOrderedDisjoint built.reverse
  return built.reverse

def mergeByRange (s incoming : Slice κ) : Except Panic (Slice κ) := do
  let iterators ← mergeIterators s.iterators incoming.iterators
  let scope ← s.scope.mergeByRange incoming.scope
  return make maxPredicateSize scope iterators (s.tracker.merge g incoming.tracker)

def mergeByPredicate (s incoming : Slice κ) : Except Panic (Slice κ) := do
  let iterators ← mergeIterators s.iterators incoming.iterators
  let scope ← s.scope.mergeByPredicate incoming.scope
  return make maxPredicateSize scope iterators (s.tracker.merge g incoming.tracker)

/-- `MergeWithSlice` where this slice does not start after the incoming one. -/
def mergeOrdered (s incoming : Slice κ) : Except Panic (List (Slice κ)) :=
  if !s.scope.range.canMerge incoming.scope.range then .error .unableToMerge
  else if s.scope.canMergeByRange incoming.scope then do
    let merged ← mergeByRange g maxPredicateSize s incoming
    return [merged]
  else do
    let (left, right) ← splitByRange g maxPredicateSize s incoming.scope.range.inclusiveMin
    if incoming.scope.canSplitByRange right.scope.range.exclusiveMax then
      let (leftIncoming, rightIncoming) ← splitByRange g maxPredicateSize incoming right.scope.range.exclusiveMax
      let mid ← mergeByPredicate g maxPredicateSize right leftIncoming
      return [left, mid, rightIncoming].filter (!·.scope.isEmpty)
    else
      let (currentMid, currentRight) ← splitByRange g maxPredicateSize right incoming.scope.range.exclusiveMax
      let mid ← mergeByPredicate g maxPredicateSize currentMid incoming
      return [left, mid, currentRight].filter (!·.scope.isEmpty)

def mergeWithSlice (s incoming : Slice κ) : Except Panic (List (Slice κ)) :=
  if s.scope.range.inclusiveMin > incoming.scope.range.inclusiveMin then
    mergeOrdered g maxPredicateSize incoming s
  else mergeOrdered g maxPredicateSize s incoming

def compactWithSlice (s incoming : Slice κ) : Except Panic (Slice κ) := do
  let range ← Range.newRange (Key.minKey s.scope.range.inclusiveMin incoming.scope.range.inclusiveMin)
    (Key.maxKey s.scope.range.exclusiveMax incoming.scope.range.exclusiveMax)
  let iterators ← mergeIterators s.iterators incoming.iterators
  return make maxPredicateSize ⟨range, s.scope.predicate.orPredicates incoming.scope.predicate⟩ iterators
    (s.tracker.merge g incoming.tracker)

def shrinkPredicateMaxPendingKeys : Nat := 3

def shrinkRange (s : Slice κ) : Slice κ :=
  let (tracker, minPendingTaskKey) := s.tracker.shrink g
  let minIteratorKey :=
    match s.iterators with
    | [] => Key.maximumKey
    | it :: _ => it.range.inclusiveMin
  let newRangeMin := Key.minKey minPendingTaskKey minIteratorKey
  let inclusiveMin :=
    if newRangeMin = Key.maximumKey then s.scope.range.exclusiveMax else newRangeMin
  { s with
    scope := { s.scope with range := { s.scope.range with inclusiveMin := inclusiveMin } }
    tracker := tracker }

def shrinkPredicate (s : Slice κ) : Slice κ :=
  if s.iterators ≠ [] ∨ shrinkPredicateMaxPendingKeys < s.tracker.pendingPerKey.keys.card then s
  else
    ensurePredicateSizeLimit maxPredicateSize
      { s with scope := { s.scope with predicate := g.predicate s.tracker.pendingPerKey.keys } }

def shrinkScope (s : Slice κ) : Slice κ := shrinkPredicate g maxPredicateSize (shrinkRange g s)

def clear (s : Slice κ) : Slice κ :=
  let s := shrinkScope g maxPredicateSize s
  { s with iterators := [.newIterator s.scope.range], tracker := .empty }

end Operations

section Selection

variable (g : Grouper κ) (store : Store) (scope : Scope) (batchSize : Nat)

/-- What `SelectTasks` has done so far: the tracker and the executables it will return. -/
structure Progress (κ : Type) where
  tracker : Tracker κ
  executables : List Executable

/-- The items of one page, until they or the batch are used up. Answers what is left of the page and
of the range. -/
def selectItems : List Task → Range → Progress κ → Except Panic (List Task × Range × Progress κ)
  | [], range, p => .ok ([], range, p)
  | task :: items, range, p =>
    if p.executables.length < batchSize then do
      let next ← task.key.next
      if !scope.range.containsKey task.key then .error .taskOutsideRange
      else if scope.predicate.test task then
        selectItems items { range with inclusiveMin := next }
          ⟨p.tracker.add g (newExecutable task), p.executables ++ [newExecutable task]⟩
      else selectItems items { range with inclusiveMin := next } p
    else .ok (task :: items, range, p)

/-- How the selection from one iterator ends. -/
inductive Turn (κ : Type) where
  | exhausted (replies : List Reply) (p : Progress κ)
  | stopped (it : Iterator) (p : Progress κ) (failed : Bool)

def fetch (size : Nat) (more : Bool) (range : Range) : Page :=
  let rest := store.read range
  ⟨rest.take size, more || size < rest.length⟩

/-- The page at hand. Before the first page there are no items and there may be more. Answers how the
selection from the iterator ends, or the range for which the next page is needed. -/
def selectPage (replies : List Reply) (it : Iterator) (p : Progress κ) :
    Except Panic (Turn κ ⊕ Range × Progress κ) := do
  let page := it.page.getD ⟨[], true⟩
  let (items, range, p) ← selectItems g scope batchSize page.items it.range p
  if ¬ p.executables.length < batchSize then
    return .inl (.stopped ⟨range, some ⟨items, page.more⟩⟩ p false)
  else if page.more then return .inr (range, p)
  else return .inl (.exhausted replies p)

def selectPages : List Reply → Iterator → Progress κ → Except Panic (Turn κ)
  | [], it, p => do
    match ← selectPage g scope batchSize [] it p with
    | .inl turn => return turn
    | .inr (range, p) =>
      let (items, range, p) ← selectItems g scope batchSize (store.read range) range p
      if ¬ p.executables.length < batchSize then
        return .stopped ⟨range, some ⟨items, false⟩⟩ p false
      else return .exhausted [] p
  | reply :: replies, it, p => do
    match ← selectPage g scope batchSize (reply :: replies) it p, reply with
    | .inl turn, _ => return turn
    | .inr (range, p), .failed => return .stopped (.newIterator range) p true
    | .inr (range, p), .page size more =>
      selectPages replies ⟨range, some (fetch store size more range)⟩ p

def selectIterators : List Iterator → List Reply → Progress κ → Except Panic (List Iterator × Progress κ × Bool)
  | [], _, p => .ok ([], p, false)
  | it :: its, replies, p =>
    if p.executables.length < batchSize then do
      let turn ← selectPages g store scope batchSize replies it p
      match turn with
      | .exhausted replies p => selectIterators its replies p
      | .stopped it p failed => return (it :: its, p, failed)
    else .ok (it :: its, p, false)

/-- What `SelectTasks` returns: the executables, or the error if there are none. -/
structure Selected (κ : Type) where
  slice : Slice κ
  executables : List Executable
  failed : Bool

end Selection

def selectTasks (g : Grouper κ) (store : Store) (s : Slice κ) (batchSize : Nat)
    (replies : List Reply) : Except Panic (Selected κ) := do
  let (iterators, p, failed) ← selectIterators g store s.scope batchSize s.iterators replies ⟨s.tracker, []⟩
  return ⟨⟨s.scope, iterators, p.tracker⟩, p.executables, failed && p.executables.isEmpty⟩

def ack (s : Slice κ) (key : Key) : Slice κ :=
  let pending := s.tracker.pendingExecutables.map fun e =>
    if e.task.key = key then e.ack else e
  { s with tracker := { s.tracker with pendingExecutables := pending } }

end Slice

/-!
## What the executable tracker keeps

`Tracker.Counted` is the invariant of a tracker: the keys of its executables are distinct, and the
count of each group is at least the number of executables in the group. The count may be larger, as
`merge` counts an executable again that replaces one with the same key; what `shrinkPredicate` needs
is only that no group with an executable is left out of `pendingPerKey`.
-/

open List PendingPerKey

variable {g : Grouper κ}

lemma Grouper.stable (g : Grouper κ) (keys : Finset κ) (t : Task) :
    (g.predicate keys).test t.asExecutable = (g.predicate keys).test t := by
  rw [Bool.eq_iff_iff, g.test_predicate, g.test_predicate, g.key_asExecutable]

namespace PendingPerKey

lemma count_addAll (m : PendingPerKey κ) (keys : List κ) (n : Int) (k : κ) :
    (m.addAll keys n).count k = m.count k + n * (keys.count k : Int) := by
  induction keys generalizing m with
  | nil => simp [addAll]
  | cons key keys ih =>
    rw [show m.addAll (key :: keys) n = (m.add key n).addAll keys n from rfl, ih]
    by_cases h : k = key
    · subst h
      rw [count_cons_self]
      simp only [add, Function.update_self, Int.natCast_succ, Int.mul_add, Int.mul_one]
      omega
    rw [count_cons_of_ne (Ne.symm h)]
    simp only [add, Function.update_of_ne h]

lemma mem_keys_addAll {m : PendingPerKey κ} {keys n k} : k ∈ (m.addAll keys n).keys ↔ k ∈ m.keys ∨ k ∈ keys := by
  induction keys generalizing m with
  | nil => simp [addAll]
  | cons key keys ih =>
    rw [show m.addAll (key :: keys) n = (m.add key n).addAll keys n from rfl, ih]
    simp only [add, Finset.mem_insert, mem_cons]
    tauto

end PendingPerKey

namespace Tracker

def inGroup (g : Grouper κ) (k : κ) (es : List Executable) : Nat :=
  (es.map fun e => g.key e.task.asExecutable).count k

/-- Distinct task keys, and group counts that are not below what is tracked. -/
structure Counted (g : Grouper κ) (t : Tracker κ) : Prop where
  distinct : t.pendingExecutables.Pairwise fun a b => a.task.key ≠ b.task.key
  count : ∀ k, (inGroup g k t.pendingExecutables : Int) ≤ t.pendingPerKey.count k
  keys : ∀ k, t.pendingPerKey.count k ≠ 0 → k ∈ t.pendingPerKey.keys

lemma inGroup_filter (k : κ) (p : Executable → Bool) (es : List Executable) :
    inGroup g k (es.filter p) + inGroup g k (es.filter fun e => !p e) = inGroup g k es := by
  simp only [inGroup, count_eq_countP, countP_map]
  exact (countP_eq_countP_filter_add es _ p).symm

lemma inGroup_append (k : κ) (es es' : List Executable) :
    inGroup g k (es ++ es') = inGroup g k es + inGroup g k es' := by
  simp [inGroup]

variable {t : Tracker κ}

lemma mem_keys_of_pending (ht : t.Counted g) {e} (he : e ∈ t.pendingExecutables) :
    g.key e.task ∈ t.pendingPerKey.keys := by
  have hpos : 0 < inGroup g (g.key e.task) t.pendingExecutables :=
    count_pos_iff.mpr (mem_map.mpr ⟨e, he, g.key_asExecutable e.task⟩)
  have hle := ht.count (g.key e.task)
  exact ht.keys _ (by omega)

lemma counted_empty : (empty : Tracker κ).Counted g where
  distinct := .nil
  count _ := by simp [empty, inGroup, PendingPerKey.empty]
  keys _ h := absurd rfl h

lemma Counted.split {t l r : Tracker κ} (ht : t.Counted g) {sl sr : Scope} (h : t.split g sl sr = .ok (l, r)) :
    l.Counted g ∧ r.Counted g ∧
    (∀ e, e ∈ l.pendingExecutables ↔ e ∈ t.pendingExecutables ∧ sl.contains e.task.asExecutable) ∧
    (∀ e, e ∈ r.pendingExecutables ↔ e ∈ t.pendingExecutables ∧ sl.contains e.task.asExecutable = false) ∧
    ∀ e ∈ r.pendingExecutables, sr.contains e.task.asExecutable := by
  simp only [Tracker.split] at h
  split at h
  · rename_i hall
    cases h
    have hsum := fun k => inGroup_filter (g := g) k (fun e => sl.contains e.task.asExecutable) t.pendingExecutables
    refine ⟨⟨ht.distinct.filter _, fun k => ?_, fun k hk => ?_⟩,
      ⟨ht.distinct.filter _, fun k => ?_, fun k hk => ?_⟩, fun e => ?_, fun e => ?_, fun e he => ?_⟩
    · have hle := ht.count k
      have := hsum k
      rw [PendingPerKey.count_addAll]
      simp only [inGroup] at this hle ⊢
      omega
    · rw [PendingPerKey.mem_keys_addAll]
      rw [PendingPerKey.count_addAll] at hk
      by_cases h0 : t.pendingPerKey.count k = 0
      · refine .inr (count_pos_iff.mp ?_)
        rw [h0] at hk
        omega
      · exact .inl (ht.keys k h0)
    · rw [PendingPerKey.count_addAll]
      simp [PendingPerKey.empty, inGroup]
    · rw [PendingPerKey.mem_keys_addAll]
      rw [PendingPerKey.count_addAll] at hk
      refine .inr (count_pos_iff.mp ?_)
      simp only [PendingPerKey.empty] at hk
      omega
    · exact mem_filter
    · simp [mem_filter]
    · exact all_eq_true.mp hall e he
  · cases h

lemma split_ok (sl sr : Scope) (h : ∀ e ∈ t.pendingExecutables, sl.contains e.task.asExecutable ∨
      sr.contains e.task.asExecutable) : ∃ l r, t.split g sl sr = .ok (l, r) := by
  have hall : (t.pendingExecutables.filter fun e => !sl.contains e.task.asExecutable).all
      (fun e => sr.contains e.task.asExecutable) := by
    refine all_eq_true.mpr fun e he => ?_
    obtain ⟨he, hn⟩ := mem_filter.mp he
    exact (h e he).resolve_left (by simpa using hn)
  exact ⟨_, _, if_pos hall⟩

lemma mem_put {es es'} {e : Executable} :
    e ∈ put es es' ↔ e ∈ es ∧ (∀ e' ∈ es', e'.task.key ≠ e.task.key) ∨ e ∈ es' := by
  simp [put]

lemma distinct_put {es es' : List Executable} (h : es.Pairwise fun a b => a.task.key ≠ b.task.key)
    (h' : es'.Pairwise fun a b => a.task.key ≠ b.task.key) :
    (put es es').Pairwise fun a b => a.task.key ≠ b.task.key := by
  refine pairwise_append.mpr ⟨h.filter _, h', fun a ha b hb => ?_⟩
  obtain ⟨-, hall⟩ := mem_filter.mp ha
  have hne := of_decide_eq_true (all_eq_true.mp hall b hb)
  exact Ne.symm hne

lemma inGroup_put (k : κ) (es es' : List Executable) : inGroup g k (put es es') ≤ inGroup g k es + inGroup g k es' := by
  have h := inGroup_filter (g := g) k (fun e => es'.all fun e' => e'.task.key ≠ e.task.key) es
  rw [put, inGroup_append]
  omega

lemma Counted.putAll (ht : t.Counted g) {es : List Executable}
    (h : es.Pairwise fun a b => a.task.key ≠ b.task.key) : (t.putAll g es).Counted g where
  distinct := distinct_put ht.distinct h
  count k := by
    have hle := ht.count k
    have hput := inGroup_put (g := g) k t.pendingExecutables es
    simp only [Tracker.putAll, count_addAll]
    simp only [inGroup] at hle hput ⊢
    omega
  keys k hk := by
    simp only [Tracker.putAll, mem_keys_addAll]
    simp only [Tracker.putAll, count_addAll] at hk
    by_cases h0 : t.pendingPerKey.count k = 0
    · refine .inr (count_pos_iff.mp ?_)
      simp only [h0] at hk
      omega
    · exact .inl (ht.keys k h0)

lemma Counted.merge {t t' : Tracker κ} (ht : t.Counted g) (ht' : t'.Counted g) : (t.merge g t').Counted g := by
  unfold Tracker.merge
  split
  · exact ht'.putAll ht.distinct
  · exact ht.putAll ht'.distinct

lemma mem_merge (g : Grouper κ) (t t' : Tracker κ) : (∀ e ∈ (t.merge g t').pendingExecutables,
      e ∈ t.pendingExecutables ∨ e ∈ t'.pendingExecutables) ∧
    ∀ e, e ∈ t.pendingExecutables ∨ e ∈ t'.pendingExecutables →
      ∃ e' ∈ (t.merge g t').pendingExecutables, e'.task.key = e.task.key := by
  have hput : ∀ es es', ∀ e, e ∈ es ∨ e ∈ es' → ∃ e' ∈ put es es', e'.task.key = e.task.key := by
    intro es es' e he
    obtain he | he := he
    · by_cases hx : ∃ e' ∈ es', e'.task.key = e.task.key
      · obtain ⟨e', he', hk⟩ := hx
        exact ⟨e', mem_put.mpr (.inr he'), hk⟩
      · exact ⟨e, mem_put.mpr (.inl ⟨he, fun e' he' hk => hx ⟨e', he', hk⟩⟩), rfl⟩
    · exact ⟨e, mem_put.mpr (.inr he), rfl⟩
  unfold Tracker.merge
  split
  · refine ⟨fun e he => ?_, fun e he => hput _ _ e he.symm⟩
    exact (mem_put.mp he).elim (fun h => .inr h.1) .inl
  refine ⟨fun e he => ?_, fun e he => hput _ _ e he⟩
  exact (mem_put.mp he).elim (fun h => .inl h.1) .inr

lemma Counted.add (ht : t.Counted g) (e : Executable) : (t.add g e).Counted g :=
  ht.putAll (pairwise_singleton _ e)

lemma mem_shrink {e : Executable} :
    e ∈ (t.shrink g).1.pendingExecutables ↔ e ∈ t.pendingExecutables ∧ e.state ≠ .acked := by
  simp [shrink]

lemma Counted.shrink (ht : t.Counted g) : (t.shrink g).1.Counted g where
  distinct := ht.distinct.filter _
  count k := by
    have hle := ht.count k
    have hsum := inGroup_filter (g := g) k (fun e => decide (e.state = .acked)) t.pendingExecutables
    simp only [Tracker.shrink, ne_eq, decide_not]
    rw [count_addAll]
    simp only [inGroup] at hle hsum ⊢
    omega
  keys k hk := by
    refine Finset.mem_filter.mpr ⟨?_, hk⟩
    rw [mem_keys_addAll]
    simp only [Tracker.shrink, count_addAll] at hk
    by_cases h0 : t.pendingPerKey.count k = 0
    · refine .inr (count_pos_iff.mp ?_)
      rw [h0] at hk
      omega
    · exact .inl (ht.keys k h0)

lemma shrink_minKey (t : Tracker κ) : (∀ e ∈ (t.shrink g).1.pendingExecutables, (t.shrink g).2 ≤ e.task.key) ∧
    ((t.shrink g).2 = Key.maximumKey ∨ ∃ e ∈ (t.shrink g).1.pendingExecutables, e.task.key = (t.shrink g).2) := by
  obtain ⟨hle, hmem⟩ := Lib.foldl_least (fun e : Executable => some e.task.key) (fun _ _ => Key.minKey_eq_min ..)
    (t.pendingExecutables.filter fun e => e.state ≠ .acked) Key.maximumKey
  refine ⟨fun e he => ((hle _).mp le_rfl).2 e he _ rfl, hmem.imp_right ?_⟩
  rintro ⟨e, he, hkey⟩
  exact ⟨e, he, Option.some.inj hkey⟩

end Tracker

end FastOrchestration.Queues
