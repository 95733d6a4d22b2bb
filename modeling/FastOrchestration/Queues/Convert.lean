import FastOrchestration.Queues.Scope

/-!
# Persisting the queue state

Model of `convert.go`. A queue state is stored as a protocol buffer and read back when the shard is
loaded. Encoding a set predicate lists the keys of a Go map, in an order that Go does not fix and that
may differ at every place: `MapOrder` is such a choice of orders, one for each place of the state,
and all results hold for every `MapOrder`. A time is stored as seconds and nanoseconds.

Decoding goes through `And`, `Or` and `Not` again, and these rewrite what they are given. The round
trip is exact because the predicates a queue holds are in normal form, on which the constructors do
nothing: `conj_normal` and `disj_normal` say so for the two loops, and `fromPersistence_predicate`
follows by induction over the predicate.
-/

namespace FastOrchestration.Queues
open Predicate List

/-- An order of iteration over a map, for each place where one is listed. -/
structure MapOrder where
  keys : {α : Type} → List Nat → Finset α → List α
  mem_keys : ∀ {α : Type} (site : List Nat) (s : Finset α) (a : α), a ∈ keys site s ↔ a ∈ s

/-- Go `persistencespb.Predicate`. -/
inductive PersistencePredicate where
  | universal
  | empty
  | and (ps : List PersistencePredicate)
  | or (ps : List PersistencePredicate)
  | not (p : PersistencePredicate)
  | namespaceIDs (ids : List String)
  | types (ts : List Int)
  | destinations (ds : List String)
  | outboundTaskGroups (gs : List String)
  | outboundTasks (gs : List TaskGroup)
  | unknown (type : Int)

structure PersistenceTaskKey where
  seconds : Int
  nanos : Int
  taskId : Int

structure PersistenceRange where
  inclusiveMin : PersistenceTaskKey
  exclusiveMax : PersistenceTaskKey

structure PersistenceScope where
  range : PersistenceRange
  predicate : PersistencePredicate

structure PersistenceQueueState where
  readerStates : List (Int × List PersistenceScope)
  exclusiveReaderHighWatermark : PersistenceTaskKey

/-- The scopes of each reader and the first key that no reader has been given yet. -/
structure QueueState where
  readerScopes : List (Int × List Scope)
  exclusiveReaderHighWatermark : Key

/-! ## Encoding -/

mutual

def toPersistencePredicate (o : MapOrder) (site : List Nat) : Predicate → PersistencePredicate
  | .universal => .universal
  | .empty => .empty
  | .and ps => .and (toPersistencePredicates o site 0 ps)
  | .or ps => .or (toPersistencePredicates o site 0 ps)
  | .not p => .not (toPersistencePredicate o (0 :: site) p)
  | .namespaceIDs ids => .namespaceIDs (o.keys site ids)
  | .types ts => .types (o.keys site ts)
  | .destinations ds => .destinations (o.keys site ds)
  | .outboundTaskGroups gs => .outboundTaskGroups (o.keys site gs)
  | .outboundTasks gs => .outboundTasks (o.keys site gs)

def toPersistencePredicates (o : MapOrder) (site : List Nat) (i : Nat) :
    List Predicate → List PersistencePredicate
  | [] => []
  | p :: ps => toPersistencePredicate o (i :: site) p :: toPersistencePredicates o site (i + 1) ps

end

def toPersistenceTaskKey (key : Key) : PersistenceTaskKey :=
  ⟨key.fireTime / 1000000000, key.fireTime % 1000000000, key.taskID⟩

def toPersistenceRange (r : Range) : PersistenceRange :=
  ⟨toPersistenceTaskKey r.inclusiveMin, toPersistenceTaskKey r.exclusiveMax⟩

def toPersistenceScope (o : MapOrder) (site : List Nat) (s : Scope) : PersistenceScope :=
  ⟨toPersistenceRange s.range, toPersistencePredicate o site s.predicate⟩

/-- The loop body of Go `ToPersistenceQueueState`. -/
def toPersistenceReader (o : MapOrder) (i : Nat) (reader : Int × List Scope) :
    Int × List PersistenceScope :=
  (reader.1, reader.2.mapIdx fun j scope => toPersistenceScope o [j, i] scope)

def toPersistenceQueueState (o : MapOrder) (state : QueueState) : PersistenceQueueState where
  readerStates := state.readerScopes.mapIdx (toPersistenceReader o)
  exclusiveReaderHighWatermark := toPersistenceTaskKey state.exclusiveReaderHighWatermark

/-! ## Decoding -/

mutual

def fromPersistencePredicate : PersistencePredicate → Except Panic Predicate
  | .universal => .ok .universal
  | .empty => .ok .empty
  | .and ps => fromPersistencePredicates ps >>= newAnd
  | .or ps => fromPersistencePredicates ps >>= newOr
  | .not p => neg <$> fromPersistencePredicate p
  | .namespaceIDs ids => .ok (.namespaceIDs ids.toFinset)
  | .types ts => .ok (.types ts.toFinset)
  | .destinations ds => .ok (.destinations ds.toFinset)
  | .outboundTaskGroups gs => .ok (.outboundTaskGroups gs.toFinset)
  | .outboundTasks gs => .ok (.outboundTasks gs.toFinset)
  | .unknown _ => .error .unknownPredicate

def fromPersistencePredicates : List PersistencePredicate → Except Panic (List Predicate)
  | [] => .ok []
  | p :: ps => do
    let p ← fromPersistencePredicate p
    let ps ← fromPersistencePredicates ps
    return p :: ps

end

def fromPersistenceTaskKey (key : PersistenceTaskKey) : Key :=
  ⟨key.seconds * 1000000000 + key.nanos, key.taskId⟩

def fromPersistenceRange (r : PersistenceRange) : Except Panic Range :=
  Range.newRange (fromPersistenceTaskKey r.inclusiveMin) (fromPersistenceTaskKey r.exclusiveMax)

def fromPersistenceScope (s : PersistenceScope) : Except Panic Scope := do
  let range ← fromPersistenceRange s.range
  let predicate ← fromPersistencePredicate s.predicate
  return ⟨range, predicate⟩

/-- The loop body of Go `FromPersistenceQueueState`. -/
def fromPersistenceReader (reader : Int × List PersistenceScope) :
    Except Panic (Int × List Scope) := do
  let scopes ← reader.2.mapM fromPersistenceScope
  return (reader.1, scopes)

def fromPersistenceQueueState (state : PersistenceQueueState) : Except Panic QueueState := do
  let readerScopes ← state.readerStates.mapM fromPersistenceReader
  return ⟨readerScopes, fromPersistenceTaskKey state.exclusiveReaderHighWatermark⟩

/-! ## The constructors on normal forms -/

namespace Predicate

lemma flatten_operand {v p fl} (k : isOperand v p) (h : ∀ q ∈ fl, q.equals p = false)
    (rest : List Predicate) : flatten v fl (p :: rest) = flatten v (fl ++ [p]) rest := by
  have happ : appendPredicates fl [p] = fl ++ [p] := by
    have hany : fl.any (·.equals p) = false := by simpa using h
    simp [appendPredicates, hany]
  rw [← happ]
  cases v <;> cases p <;> first | rfl | cases k

lemma flatten_operands {v rest fl} (op : Operands (isOperand v) (fl ++ rest)) :
    flatten v fl rest = some (fl ++ rest) := by
  induction rest generalizing fl with
  | nil => cases v <;> simp [flatten, flattenAnd, flattenOr]
  | cons p rest ih =>
    have hdist := (pairwise_append.mp op.distinct).2.2
    rw [flatten_operand (op.kind p (by simp)) (fun q hq => hdist q hq p (by simp))]
    rw [ih (by simpa using op)]
    simp

/-- `And` and `Or` give a normal conjunction or disjunction back from its operands. -/
lemma join_normal {v ps} (n : Normal (node v ps)) : ¬ ps.length < 2 ∧ join v ps = node v ps := by
  obtain ⟨len, op⟩ : 2 ≤ ps.length ∧ Operands (isOperand v) ([] ++ ps) := by
    cases v <;> cases n <;> exact ⟨‹_›, ‹_›, ‹_›, ‹_›⟩
  refine ⟨by omega, ?_⟩
  rw [join_eq, flatten_operands op, nil_append]
  match ps with
  | [] => simp at len
  | [p] => simp at len
  | p :: q :: ps => rfl

lemma conj_normal {ps} (n : Normal (and ps)) : newAnd ps = .ok (and ps) := by
  obtain ⟨len, heq⟩ := join_normal (v := true) n
  rw [newAnd, if_neg len]
  exact congrArg _ heq

lemma disj_normal {ps} (n : Normal (or ps)) : newOr ps = .ok (or ps) := by
  obtain ⟨len, heq⟩ := join_normal (v := false) n
  rw [newOr, if_neg len]
  exact congrArg _ heq

lemma neg_normal {p} (n : Normal (not p)) : neg p = not p := by
  cases n with
  | not _ k => cases p <;> simp_all [isNegatable, neg]

/-- The predicates that the constructors of the language build. -/
inductive Built : Predicate → Prop where
  | universal : Built universal
  | empty : Built empty
  | namespaceIDs {ids} : Built (namespaceIDs ids)
  | types {ts} : Built (types ts)
  | destinations {ds} : Built (destinations ds)
  | outboundTaskGroups {gs} : Built (outboundTaskGroups gs)
  | outboundTasks {gs} : Built (outboundTasks gs)
  | newAnd {ps p} : (∀ q ∈ ps, Built q) → newAnd ps = .ok p → Built p
  | newOr {ps p} : (∀ q ∈ ps, Built q) → newOr ps = .ok p → Built p
  | neg {p} : Built p → Built (neg p)
  | andPredicates {p q} : Built p → Built q → Built (andPredicates p q)
  | orPredicates {p q} : Built p → Built q → Built (orPredicates p q)

lemma Built.normal {p} (b : Built p) : Normal p := by
  induction b with
  | universal => exact .universal
  | empty => exact .empty
  | namespaceIDs => exact .namespaceIDs
  | types => exact .types
  | destinations => exact .destinations
  | outboundTaskGroups => exact .outboundTaskGroups
  | outboundTasks => exact .outboundTasks
  | newAnd _ h ih =>
    unfold Predicate.newAnd at h
    split at h
    · cases h
    cases h
    exact .join (v := true) ih
  | newOr _ h ih =>
    unfold Predicate.newOr at h
    split at h
    · cases h
    cases h
    exact .join (v := false) ih
  | neg _ ih => exact ih.neg
  | andPredicates _ _ ih ih' => exact ih.andPredicates ih'
  | orPredicates _ _ ih ih' => exact ih.orPredicates ih'

end Predicate

/-! ## The round trip -/

lemma MapOrder.toFinset_keys {α : Type} [DecidableEq α] (o : MapOrder) (site : List Nat)
    (s : Finset α) : (o.keys site s).toFinset = s := by
  ext a
  rw [mem_toFinset, o.mem_keys]

lemma fromPersistence_predicates {o ps}
    (h : ∀ p ∈ ps, ∀ site, fromPersistencePredicate (toPersistencePredicate o site p) = .ok p)
    (site : List Nat) (i : Nat) :
    fromPersistencePredicates (toPersistencePredicates o site i ps) = .ok ps := by
  induction ps generalizing i with
  | nil => simp [toPersistencePredicates, fromPersistencePredicates]
  | cons p ps ih =>
    have hp := h p (by simp) (i :: site)
    have hps := ih (fun q hq => h q (by simp [hq])) (i + 1)
    simp [toPersistencePredicates, fromPersistencePredicates, hp, hps, bind, Except.bind, pure, Except.pure]

lemma fromPersistence_predicate {o p} (n : Normal p) (site : List Nat) :
    fromPersistencePredicate (toPersistencePredicate o site p) = .ok p := by
  induction n generalizing site with
  | and len nps kps dps ih =>
    simp only [toPersistencePredicate, fromPersistencePredicate, fromPersistence_predicates ih]
    exact conj_normal (.and len nps kps dps)
  | or len nps kps dps ih =>
    simp only [toPersistencePredicate, fromPersistencePredicate, fromPersistence_predicates ih]
    exact disj_normal (.or len nps kps dps)
  | not n k ih =>
    simp only [toPersistencePredicate, fromPersistencePredicate, ih]
    exact congrArg Except.ok (neg_normal (.not n k))
  | _ => simp [toPersistencePredicate, fromPersistencePredicate, MapOrder.toFinset_keys]

lemma fromPersistence_taskKey (key : Key) : fromPersistenceTaskKey (toPersistenceTaskKey key) = key := by
  ext
  · exact Int.ediv_mul_add_emod key.fireTime 1000000000
  · rfl

lemma fromPersistence_scope {o} {scope : Scope} (hr : scope.range.Valid) (n : Normal scope.predicate)
    (site : List Nat) : fromPersistenceScope (toPersistenceScope o site scope) = .ok scope := by
  have hrange : fromPersistenceRange (toPersistenceRange scope.range) = .ok scope.range := by
    simp only [fromPersistenceRange, toPersistenceRange, fromPersistence_taskKey]
    exact Range.newRange_ok hr
  simp [fromPersistenceScope, toPersistenceScope, hrange, fromPersistence_predicate n site, bind,
    Except.bind, pure, Except.pure]

lemma mapM_mapIdx {α β : Type} {dec : β → Except Panic α} {xs : List α} (enc : Nat → α → β)
    (h : ∀ i, ∀ x ∈ xs, dec (enc i x) = .ok x) : (xs.mapIdx enc).mapM dec = .ok xs := by
  induction xs generalizing enc with
  | nil => rfl
  | cons x xs ih =>
    have hxs := ih (fun i => enc (i + 1)) fun i y hy => h (i + 1) y (by simp [hy])
    simp [mapIdx_cons, mapM_cons, h 0 x (by simp), hxs, bind, Except.bind, pure, Except.pure]

lemma fromPersistence_queueState (o : MapOrder) {state : QueueState}
    (h : ∀ reader ∈ state.readerScopes, ∀ scope ∈ reader.2, scope.range.Valid ∧ Normal scope.predicate) :
    fromPersistenceQueueState (toPersistenceQueueState o state) = .ok state := by
  have hreader : ∀ i, ∀ reader ∈ state.readerScopes,
      fromPersistenceReader (toPersistenceReader o i reader) = .ok reader := by
    intro i reader hr
    have hscopes : (reader.2.mapIdx fun j scope => toPersistenceScope o [j, i] scope).mapM
        fromPersistenceScope = .ok reader.2 :=
      mapM_mapIdx _ fun j scope hs =>
        fromPersistence_scope (h reader hr scope hs).1 (h reader hr scope hs).2 [j, i]
    simp [fromPersistenceReader, toPersistenceReader, hscopes, bind, Except.bind, pure, Except.pure]
  have hreaders := mapM_mapIdx (toPersistenceReader o) hreader
  simp [fromPersistenceQueueState, toPersistenceQueueState, hreaders, fromPersistence_taskKey, bind,
    Except.bind, pure, Except.pure]

/-- The queue state round trip: decoding an encoded queue state does not panic and gives, for each
reader, the same ranges and predicates that equal the original ones and accept the same tasks, and
the same high watermark, whatever order the maps are listed in. -/
theorem queueState_roundTrip (o : MapOrder) (state : QueueState) (h : ∀ reader ∈ state.readerScopes, ∀ scope ∈ reader.2,
      (∃ lo hi, Range.newRange lo hi = .ok scope.range) ∧ Built scope.predicate) :
    ∃ state', fromPersistenceQueueState (toPersistenceQueueState o state) = .ok state' ∧
      state'.exclusiveReaderHighWatermark = state.exclusiveReaderHighWatermark ∧
      List.Forall₂ (fun reader reader' => reader'.1 = reader.1 ∧
        List.Forall₂ (fun scope scope' : Scope => scope'.range = scope.range ∧
          scope'.predicate.equals scope.predicate = true ∧
          ∀ t, scope'.predicate.test t = scope.predicate.test t) reader.2 reader'.2)
        state.readerScopes state'.readerScopes := by
  refine ⟨state, fromPersistence_queueState o fun reader hr scope hs => ?_, rfl, ?_⟩
  · obtain ⟨⟨lo, hi, hrange⟩, built⟩ := h reader hr scope hs
    obtain ⟨heq, hle⟩ := Range.newRange_inv hrange
    refine ⟨?_, built.normal⟩
    rw [heq]
    exact hle
  refine forall₂_same.mpr fun reader _ => ⟨rfl, forall₂_same.mpr fun scope _ => ?_⟩
  exact ⟨rfl, equals_refl _, fun _ => rfl⟩

def splitState : QueueState :=
  ⟨[(0, [⟨⟨⟨0, 1⟩, ⟨0, 5⟩⟩, andPredicates (.namespaceIDs {"a", "b"}) (neg (.types {1}))⟩])], ⟨0, 9⟩⟩

noncomputable def listOrder : MapOrder := ⟨fun _ s => s.toList, fun _ _ _ => Finset.mem_toList⟩

theorem queueState_roundTrip_splitState :
    ∃ state', fromPersistenceQueueState (toPersistenceQueueState listOrder splitState) = .ok state' ∧
      state'.exclusiveReaderHighWatermark = ⟨0, 9⟩ := by
  obtain ⟨state', h, hw, -⟩ := queueState_roundTrip listOrder splitState (by
    simp only [splitState, mem_singleton, forall_eq]
    exact ⟨⟨⟨0, 1⟩, ⟨0, 5⟩, rfl⟩, .andPredicates .namespaceIDs (.neg .types)⟩)
  exact ⟨state', h, hw⟩

end FastOrchestration.Queues
