import FastOrchestration.Queues.Key

/-!
# Task predicates

Model of `common/predicates` and `service/history/tasks/predicates.go`. A queue slice selects tasks
with a predicate: `universal`, `empty`, one of five set predicates, or a combination with `and`, `or`
and `not`. The Go maps with empty values are finite sets here.

The constructors of the language are not the constructors of `Predicate`: Go builds a conjunction with
`And`, which flattens nested conjunctions, drops universal operands and duplicates, and collapses;
`conj`, `disj` and `neg` are Go `And`, `Or` and `Not`. `andPredicates` and `orPredicates` are the
task-level versions, which also intersect, subtract and unite set predicates.

`Test` looks at a task through two optional interfaces, `HasDestination` and
`HasStateMachineTaskType`. A raw task implements them or not, so these fields are options; an
executable implements both, with the empty string as default (`Task.asExecutable`).
-/

namespace FastOrchestration.Queues

/-- What predicates and groupers read of a task, and its key. -/
structure Task where
  key : Key
  namespaceID : String
  taskType : Int
  destination : Option String
  stateMachineTaskType : Option String
  deriving DecidableEq

/-- A task as its executable shows it: `executableImpl` answers both optional interfaces. -/
def Task.asExecutable (t : Task) : Task :=
  { t with
    destination := some (t.destination.getD "")
    stateMachineTaskType := some (t.stateMachineTaskType.getD "") }

/-- Go `TaskGroupNamespaceIDAndDestination`. -/
structure TaskGroup where
  taskGroup : String
  namespaceID : String
  destination : String
  deriving DecidableEq

def Task.group (t : Task) : TaskGroup :=
  ⟨t.stateMachineTaskType.getD "", t.namespaceID, t.destination.getD ""⟩

inductive Predicate where
  | universal
  | empty
  | and (ps : List Predicate)
  | or (ps : List Predicate)
  | not (p : Predicate)
  | namespaceIDs (ids : Finset String)
  | types (ts : Finset Int)
  | destinations (ds : Finset String)
  | outboundTaskGroups (gs : Finset String)
  | outboundTasks (gs : Finset TaskGroup)

namespace Predicate

/-- Induction over a predicate, with one hypothesis for all operands. -/
@[induction_eliminator, elab_as_elim]
theorem induct {motive : Predicate → Prop} (universal : motive universal) (empty : motive empty)
    (and : ∀ ps, (∀ p ∈ ps, motive p) → motive (and ps)) (or : ∀ ps, (∀ p ∈ ps, motive p) → motive (or ps))
    (not : ∀ p, motive p → motive (not p)) (namespaceIDs : ∀ ids, motive (namespaceIDs ids))
    (types : ∀ ts, motive (types ts)) (destinations : ∀ ds, motive (destinations ds))
    (outboundTaskGroups : ∀ gs, motive (outboundTaskGroups gs))
    (outboundTasks : ∀ gs, motive (outboundTasks gs)) (p : Predicate) : motive p :=
  @Predicate.rec motive (fun ps => ∀ p ∈ ps, motive p) universal empty and or not namespaceIDs types
    destinations outboundTaskGroups outboundTasks (by simp)
    (fun _ _ hp hps => List.forall_mem_cons.mpr ⟨hp, hps⟩) p

mutual

def test : Predicate → Task → Bool
  | universal, _ => true
  | empty, _ => false
  | and ps, t => testAll ps t
  | or ps, t => testAny ps t
  | not p, t => !test p t
  | namespaceIDs ids, t => t.namespaceID ∈ ids
  | types ts, t => t.taskType ∈ ts
  | destinations ds, t => t.destination.any (· ∈ ds)
  | outboundTaskGroups gs, t => t.stateMachineTaskType.any (· ∈ gs)
  | outboundTasks gs, t => t.group ∈ gs

/-- The loop of `AndImpl.Test`. -/
def testAll : List Predicate → Task → Bool
  | [], _ => true
  | p :: ps, t => test p t && testAll ps t

/-- The loop of `OrImpl.Test`. -/
def testAny : List Predicate → Task → Bool
  | [], _ => false
  | p :: ps, t => test p t || testAny ps t

end

mutual

def equals : Predicate → Predicate → Bool
  | universal, universal => true
  | empty, empty => true
  | and ps, and qs => ps.length == qs.length && allMatched ps qs
  | or ps, or qs => ps.length == qs.length && allMatched ps qs
  | not p, not q => equals p q
  | namespaceIDs a, namespaceIDs b => a = b
  | types a, types b => a = b
  | destinations a, destinations b => a = b
  | outboundTaskGroups a, outboundTaskGroups b => a = b
  | outboundTasks a, outboundTasks b => a = b
  | _, _ => false

/-- The loop of `predicatesEqual`: each of `this` equals one of `that`. -/
def allMatched : List Predicate → List Predicate → Bool
  | [], _ => true
  | p :: ps, qs => qs.any (equals p) && allMatched ps qs

end

/-- Go `EmptyPredicateProtoSize`: two bytes for the type and two for the empty attributes. -/
def emptyPredicateProtoSize : Nat := 4

mutual

def size : Predicate → Nat
  | universal | empty => emptyPredicateProtoSize
  | and ps | or ps => emptyPredicateProtoSize + sizeAll ps
  | not p => size p + emptyPredicateProtoSize
  | namespaceIDs ids => emptyPredicateProtoSize + ∑ s ∈ ids, s.utf8ByteSize
  | types ts => emptyPredicateProtoSize + 4 * ts.card
  | destinations ds => emptyPredicateProtoSize + ∑ s ∈ ds, s.utf8ByteSize
  | outboundTaskGroups gs => emptyPredicateProtoSize + ∑ s ∈ gs, s.utf8ByteSize
  | outboundTasks gs => emptyPredicateProtoSize +
      ∑ g ∈ gs, (g.taskGroup.utf8ByteSize + g.namespaceID.utf8ByteSize + g.destination.utf8ByteSize)

def sizeAll : List Predicate → Nat
  | [] => 0
  | p :: ps => size p + sizeAll ps

end

/-! ## Construction -/

/-- Go `appendPredicates`: the new predicates that no current one equals. -/
def appendPredicates (current new : List Predicate) : List Predicate :=
  current ++ new.filter fun p => !current.any (·.equals p)

/-- The loop of Go `And` over its operands; `none` is the early return of an empty operand. -/
def flattenAnd : List Predicate → List Predicate → Option (List Predicate)
  | flattened, [] => some flattened
  | flattened, and ps :: rest => flattenAnd (appendPredicates flattened ps) rest
  | flattened, universal :: rest => flattenAnd flattened rest
  | _, empty :: _ => none
  | flattened, p :: rest => flattenAnd (appendPredicates flattened [p]) rest

/-- Go `And` on at least two operands. -/
def conj (ps : List Predicate) : Predicate :=
  match flattenAnd [] ps with
  | none => empty
  | some [] => universal
  | some [p] => p
  | some flattened => and flattened

/-- The loop of Go `Or`; `none` is the early return of a universal operand. -/
def flattenOr : List Predicate → List Predicate → Option (List Predicate)
  | flattened, [] => some flattened
  | flattened, or ps :: rest => flattenOr (appendPredicates flattened ps) rest
  | flattened, empty :: rest => flattenOr flattened rest
  | _, universal :: _ => none
  | flattened, p :: rest => flattenOr (appendPredicates flattened [p]) rest

/-- Go `Or` on at least two operands. -/
def disj (ps : List Predicate) : Predicate :=
  match flattenOr [] ps with
  | none => universal
  | some [] => empty
  | some [p] => p
  | some flattened => or flattened

/-- Go `And`. -/
def newAnd (ps : List Predicate) : Except Panic Predicate :=
  if ps.length < 2 then .error .tooFewPredicates else .ok (conj ps)

/-- Go `Or`. -/
def newOr (ps : List Predicate) : Except Panic Predicate :=
  if ps.length < 2 then .error .tooFewPredicates else .ok (disj ps)

/-- Go `Not`. -/
def neg : Predicate → Predicate
  | not p => p
  | universal => empty
  | empty => universal
  | p => not p

/-- A set predicate over what is left of a set, or `empty` if nothing is. -/
def ofSet {α : Type} (mk : Finset α → Predicate) (s : Finset α) : Predicate :=
  if s.card = 0 then empty else mk s

/-- The type switch of Go `AndPredicates` once its first operand is no negation. -/
def andSets : Predicate → Predicate → Predicate
  | namespaceIDs a, namespaceIDs b => ofSet namespaceIDs (a ∩ b)
  | namespaceIDs a, not (namespaceIDs b) => ofSet namespaceIDs (a \ b)
  | types a, types b => ofSet types (a ∩ b)
  | types a, not (types b) => ofSet types (a \ b)
  | destinations a, destinations b => ofSet destinations (a ∩ b)
  | destinations a, not (destinations b) => ofSet destinations (a \ b)
  | outboundTaskGroups a, outboundTaskGroups b => ofSet outboundTaskGroups (a ∩ b)
  | outboundTaskGroups a, not (outboundTaskGroups b) => ofSet outboundTaskGroups (a \ b)
  | outboundTasks a, outboundTasks b => ofSet outboundTasks (a ∩ b)
  | outboundTasks a, not (outboundTasks b) => ofSet outboundTasks (a \ b)
  | a, b => conj [a, b]

/-- The type switch of Go `OrPredicates` once no operand is a negation. -/
def orSets : Predicate → Predicate → Predicate
  | namespaceIDs a, namespaceIDs b => namespaceIDs (a ∪ b)
  | types a, types b => types (a ∪ b)
  | destinations a, destinations b => destinations (a ∪ b)
  | outboundTaskGroups a, outboundTaskGroups b => outboundTaskGroups (a ∪ b)
  | outboundTasks a, outboundTasks b => outboundTasks (a ∪ b)
  | a, b => disj [a, b]

mutual

/-- Go `AndPredicates`, where `fuel` bounds the depth of the mutual recursion. -/
def andFuel : Nat → Predicate → Predicate → Predicate
  | 0, a, b => conj [a, b]
  | fuel + 1, not a, not b => neg (orFuel fuel a b)
  | _ + 1, not a, b => andSets b (not a)
  | _ + 1, a, b => andSets a b

/-- Go `OrPredicates`, where `fuel` bounds the depth of the mutual recursion. -/
def orFuel : Nat → Predicate → Predicate → Predicate
  | 0, a, b => disj [a, b]
  | fuel + 1, not a, not b => neg (andFuel fuel a b)
  | fuel + 1, not a, b => neg (andFuel fuel a (neg b))
  | fuel + 1, a, not b => neg (andFuel fuel b (neg a))
  | _ + 1, a, b => orSets a b

end

/-- The number of negations in front of a predicate. -/
def nots : Predicate → Nat
  | not p => nots p + 1
  | _ => 0

def andPredicates (a b : Predicate) : Predicate := andFuel (nots a + nots b + 2) a b

def orPredicates (a b : Predicate) : Predicate := orFuel (nots a + nots b + 2) a b

/-- Go `IsUniverisalPredicate`. -/
def isUniversal : Predicate → Bool
  | universal => true
  | _ => false

/-- The type assertion of `Scope.IsEmpty`. -/
def isEmpty : Predicate → Bool
  | empty => true
  | _ => false

end Predicate

end FastOrchestration.Queues
