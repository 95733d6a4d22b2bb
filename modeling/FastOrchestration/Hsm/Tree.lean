import FastOrchestration.Lib.Run

/-!
# Trees of hierarchical state machines

Model of `AddChild`, `DeleteChild`, `Child` and `MachineTransition` in `service/history/hsm/tree.go`. A
`Node` has what never changes of a Go `*Node`, its parent and key, and a number that stands for the
pointer: a machine that is added again under the key of a deleted one is another node. The rest is in
`Tree`, with the maps of all nodes in one list each.

Go code can hold on to a node that was deleted. A transition of it and a deletion below it fail, but a child
can still be added to it, and this child is not marked as deleted. A call that fails changes nothing but what
is in memory, so the events of a transaction are the calls that succeed.

`start` and `trace` record the machines at the start of the transaction and what was done to which node; no
operation reads them.
-/

namespace FastOrchestration.Hsm

structure Key where
  type : String
  id : String
  deriving DecidableEq

abbrev Path := List Key

inductive Node where
  | root
  | child (parent : Node) (key : Key) (pointer : Nat)
  deriving DecidableEq

namespace Node

def path : Node → Path
  | root => []
  | child parent key _ => parent.path ++ [key]

def isLinked (children : List Node) : Node → Bool
  | root => true
  | child p k i => child p k i ∈ children && p.isLinked children

def isBelow (children : List Node) (c : Node) : Node → Bool
  | root => c = root
  | child p k i => c = child p k i || (child p k i ∈ children && isBelow children c p)

end Node

structure VersionedTransition where
  namespaceFailoverVersion : Int
  transitionCount : Int
  deriving DecidableEq

/-- Go `persistencespb.StateMachineNode`, without the children. -/
structure StateMachineNode (δ : Type) where
  data : δ
  initialVersionedTransition : VersionedTransition
  lastUpdateVersionedTransition : VersionedTransition
  transitionCount : Nat
  deriving DecidableEq

/-- Go `Operation`, with `TransitionOutputWithCount` in the second case. -/
inductive Operation (ω : Type) where
  | delete (path : Path)
  | transition (path : Path) (output : ω) (transitionCount : Nat)
  deriving DecidableEq

inductive Failure where
  | alreadyExists
  | notRegistered
  | notFound
  | invalidState
  /-- The node is not there for a caller: it was not loaded or added. -/
  | noNode
  /-- `List` panics on a child that cannot be loaded. -/
  | panic
  deriving DecidableEq

variable {δ ω : Type}

/-- A tree in a transaction. -/
structure Tree (δ ω : Type) where
  /-- The types that have a definition. -/
  registry : String → Bool
  /-- The nodes that are in the `persistence.Children` of their parents. -/
  children : List Node
  /-- The nodes that are in memory, where the cache of the parent has them if they are its children. -/
  cached : List Node
  dirty : List Node
  deleted : List Node
  persistence : Node → StateMachineNode δ
  opLog : List (Operation ω)
  /-- The next pointer. -/
  next : Nat
  /-- The persisted machines at the start of the transaction. -/
  start : Path → Option (StateMachineNode δ)
  /-- The operations with the nodes they were made on. -/
  trace : List (Node × Operation ω)

namespace Tree

variable (t : Tree δ ω)

def lookup (n : Node) (key : Key) : Option Node :=
  t.children.find? fun
    | .child p k _ => p = n ∧ k = key
    | .root => false

def alive (n : Node) : Bool := n.isLinked t.children

/-- Go `Walk` from `c` comes to the node. -/
def walks (c n : Node) : Bool := Node.isBelow t.children c n

/-- Go `Child`, for one key. -/
def childNode (n : Node) (key : Key) : Except Failure (Node × Tree δ ω) :=
  match t.lookup n key with
  | none => .error (if t.registry key.type then .notFound else .notRegistered)
  | some c =>
    if c ∈ t.cached then .ok (c, t)
    else if t.registry key.type then .ok (c, { t with cached := c :: t.cached })
    else .error .notRegistered

def insert (node : Node) (data : δ) (version : VersionedTransition) : Tree δ ω :=
  { t with
    children := node :: t.children
    cached := node :: t.cached
    dirty := node :: t.dirty
    persistence := Function.update t.persistence node ⟨data, version, version, 0⟩
    next := t.next + 1 }

def addChild (n : Node) (key : Key) (data : δ) (version : VersionedTransition) : Except Failure (Tree δ ω) :=
  if (t.lookup n key).isSome then .error .alreadyExists
  else if ¬ t.registry key.type then .error .notRegistered
  else .ok (t.insert (.child n key t.next) data version)

/-- A node and the nodes below it are loaded and marked as deleted, and it is taken out of the maps of its
parent. -/
def remove (c : Node) : Tree δ ω :=
  let below := t.children.filter (t.walks c)
  { t with
    deleted := t.deleted ++ below
    cached := t.cached ++ below
    opLog := t.opLog ++ [.delete c.path]
    trace := t.trace ++ [(c, .delete c.path)]
    children := t.children.erase c }

def deleteChild (n : Node) (key : Key) : Except Failure (Tree δ ω) :=
  if n ∈ t.deleted then .error .invalidState
  else do
    let (c, t) ← t.childNode n key
    if (t.children.filter (t.walks c)).any fun
      | .child p k i => .child p k i ∉ t.cached ∧ ¬ t.registry k.type
      | .root => false
    then .error .panic
    else .ok (t.remove c)

/-- Go `MachineTransition`, if it succeeds; `data` and `output` are what `transitionFn` makes. -/
def machineTransition (n : Node) (data : δ) (output : ω) (version : VersionedTransition) :
    Except Failure (Tree δ ω) :=
  if n ∈ t.deleted then .error .invalidState
  else
    let count := (t.persistence n).transitionCount + 1
    let op := .transition n.path output count
    .ok { t with
      persistence := Function.update t.persistence n
        { t.persistence n with data, lastUpdateVersionedTransition := version, transitionCount := count }
      dirty := n :: t.dirty
      opLog := t.opLog ++ [op]
      trace := t.trace ++ [(n, op)] }

def reached (n : Node) : Bool := n.isLinked (t.children.filter (· ∈ t.cached))

/-- Go `Dirty`, of the root. -/
def isDirty : Bool := t.dirty.any t.reached

def persisted (path : Path) : Option (StateMachineNode δ) :=
  ((Node.root :: t.children).find? fun n => n.path = path ∧ t.alive n).map t.persistence

end Tree

/-! ### Transactions -/

inductive Event (δ ω : Type) where
  | child (n : Node) (key : Key)
  | addChild (n : Node) (key : Key) (data : δ) (version : VersionedTransition)
  | deleteChild (n : Node) (key : Key)
  | machineTransition (n : Node) (data : δ) (output : ω) (version : VersionedTransition)

def Event.node : Event δ ω → Node
  | child n _ => n
  | addChild n _ _ _ => n
  | deleteChild n _ => n
  | machineTransition n _ _ _ => n

def step (t : Tree δ ω) (e : Event δ ω) : Except Failure (Tree δ ω) :=
  if e.node ∉ Node.root :: t.cached then .error .noNode
  else match e with
    | .child n key => (·.2) <$> t.childNode n key
    | .addChild n key data version => t.addChild n key data version
    | .deleteChild n key => t.deleteChild n key
    | .machineTransition n data output version => t.machineTransition n data output version

/-- A tree that was loaded from persistence: parents are in the tree, a node has one child of a key, and
what is in memory has its parent in memory. -/
structure Loaded (δ : Type) where
  registry : String → Bool
  children : List Node
  cached : List Node
  persistence : Node → StateMachineNode δ
  next : Nat
  parent : ∀ p k i, .child p k i ∈ children → p ∈ Node.root :: children
  unique : ∀ p k i j, .child p k i ∈ children → .child p k j ∈ children → i = j
  nodup : children.Nodup
  root : .root ∉ children
  pointers : ∀ p k i, .child p k i ∈ children → i < next
  subset : ∀ n ∈ cached, n ∈ children
  cachedParent : ∀ p k i, .child p k i ∈ cached → p ∈ Node.root :: cached

def Loaded.begin (l : Loaded δ) : Tree δ ω :=
  let t : Tree δ ω :=
    { registry := l.registry, children := l.children, cached := l.cached, dirty := [], deleted := [],
      persistence := l.persistence, opLog := [], next := l.next, start := fun _ => none, trace := [] }
  { t with start := t.persisted }

/-!
## Compaction of the operation log

Model of `OpLog` and `compact`: a tree of all paths of the log is built, in which the deleted ones are
marked, and the log is filtered by what is found on the way to each path. `compact_eq` says what is left:
the operations for which no path of a deletion leads to the machine, or for a deletion to its parent.
-/

open Lib List Function

variable {ω : Type}

/-- A tree of `opNode`s: the nodes that exist, with `isDeleted`. -/
abbrev OpTree := Path → Option Bool

namespace OpTree

def new : OpTree := Function.update (fun _ => none) [] (some false)

/-- Go `getOrCreateNode`, from the node `current`. -/
def getOrCreateNode (t : OpTree) (current : Path) : Path → OpTree
  | [] => t
  | key :: rest =>
    let next := current ++ [key]
    let t := if (t next).isSome then t else Function.update t next (some false)
    getOrCreateNode t next rest

/-- The first loop of `compact`. -/
def record (t : OpTree) : Operation ω → OpTree
  | .delete path => Function.update (t.getOrCreateNode [] path) path (some true)
  | .transition path _ _ => t.getOrCreateNode [] path

/-- The inner loop of `collect`: whether the operation is in the result. -/
def keeps (t : OpTree) (isDelete : Bool) (current : Path) : Path → Except Failure Bool
  | [] => .ok true
  | key :: rest =>
    match t (current ++ [key]) with
    | none => .error .panic
    | some true => .ok (rest.isEmpty && isDelete)
    | some false => keeps t isDelete (current ++ [key]) rest

end OpTree

namespace Operation

def path : Operation ω → Path
  | delete p => p
  | transition p _ _ => p

def isDelete : Operation ω → Bool
  | delete _ => true
  | transition _ _ _ => false

/-- The path of the machine that decides whether the operation counts: for a deletion the parent. -/
def host : Operation ω → Path
  | delete p => p.dropLast
  | transition p _ _ => p

end Operation

def collect (t : OpTree) : List (Operation ω) → Except Failure (List (Operation ω))
  | [] => .ok []
  | op :: ops => do
    let keep ← t.keeps op.isDelete [] op.path
    let result ← collect t ops
    .ok (if keep then op :: result else result)

def compact (log : List (Operation ω)) : Except Failure (List (Operation ω)) :=
  if log = [] then .ok log else collect (log.foldl OpTree.record .new) log

/-- Go `OpLog`. -/
def Tree.compacted {δ : Type} (t : Tree δ ω) : Except Failure (List (Operation ω)) := compact t.opLog

/-! ### What is left -/

/-- A machine on the way to the path was deleted. -/
def deletedAbove (log : List (Operation ω)) (path : Path) : Bool :=
  log.any fun
    | .delete q => q.isPrefixOf path
    | .transition _ _ _ => false

lemma deletedAbove_iff {log : List (Operation ω)} {path : Path} :
    deletedAbove log path ↔ ∃ q, .delete q ∈ log ∧ q <+: path := by
  simp only [deletedAbove, any_eq_true]
  constructor
  · rintro ⟨op, hop, h⟩
    cases op with
    | delete q => exact ⟨q, hop, isPrefixOf_iff_prefix.mp h⟩
    | transition p o c => cases h
  rintro ⟨q, hq, h⟩
  exact ⟨_, hq, isPrefixOf_iff_prefix.mpr h⟩

namespace OpTree

variable {t : OpTree}

lemma getOrCreateNode_true {current path q} : t.getOrCreateNode current path q = some true ↔ t q = some true := by
  induction path generalizing t current with
  | nil => rfl
  | cons key rest ih =>
    simp only [getOrCreateNode]
    rw [ih]
    split
    · rfl
    next hnone =>
    by_cases hq : q = current ++ [key]
    · subst hq
      rw [update_self]
      cases ht : t (current ++ [key]) with
      | none => simp
      | some b => simp [ht] at hnone
    · rw [update_of_ne hq]

lemma getOrCreateNode_isSome {current path q} (h : (t q).isSome ∨ ∃ p, p <+: path ∧ p ≠ [] ∧ q = current ++ p) :
    (t.getOrCreateNode current path q).isSome := by
  induction path generalizing t current with
  | nil =>
    rcases h with h | ⟨p, hp, hne, -⟩
    · exact h
    · exact absurd (prefix_nil.mp hp) hne
  | cons key rest ih =>
    simp only [getOrCreateNode]
    apply ih
    have hkept : (t q).isSome → ((if (t (current ++ [key])).isSome then t
        else Function.update t (current ++ [key]) (some false)) q).isSome := by
      intro hq
      split
      · exact hq
      by_cases heq : q = current ++ [key]
      · rw [heq, update_self]
        rfl
      rw [update_of_ne heq]
      exact hq
    rcases h with h | ⟨p, hp, hne, rfl⟩
    · exact .inl (hkept h)
    cases p with
    | nil => exact absurd rfl hne
    | cons k p =>
      obtain ⟨rfl, hrest⟩ := cons_prefix_cons.mp hp
      cases p with
      | nil =>
        left
        split
        · assumption
        rw [update_self]
        rfl
      | cons k' p => exact .inr ⟨k' :: p, hrest, by simp, by simp⟩

lemma record_true {op : Operation ω} {q : Path} : t.record op q = some true ↔ t q = some true ∨ op = .delete q := by
  cases op with
  | delete p =>
    simp only [record, Operation.delete.injEq]
    by_cases hq : q = p
    · subst hq
      simp
    rw [update_of_ne hq, getOrCreateNode_true]
    simp [Ne.symm hq]
  | transition p o c => simp [record, getOrCreateNode_true]

lemma record_isSome {op : Operation ω} {q} (h : (t q).isSome ∨ q <+: op.path ∧ q ≠ []) : (t.record op q).isSome := by
  have hcreated : (t.getOrCreateNode [] op.path q).isSome := by
    apply getOrCreateNode_isSome
    rcases h with h | ⟨hp, hne⟩
    · exact .inl h
    · exact .inr ⟨q, hp, hne, rfl⟩
  cases op with
  | delete p =>
    simp only [record]
    by_cases hq : q = p
    · rw [hq, update_self]
      rfl
    rw [update_of_ne hq]
    exact hcreated
  | transition p o c => exact hcreated

lemma foldl_record {t} {log : List (Operation ω)} :
    (∀ q, log.foldl record t q = some true ↔ t q = some true ∨ .delete q ∈ log) ∧
    ∀ q, ((t q).isSome ∨ ∃ op ∈ log, q <+: op.path ∧ q ≠ []) → (log.foldl record t q).isSome := by
  induction log generalizing t with
  | nil => simp
  | cons op log ih =>
    obtain ⟨htrue, hsome⟩ := @ih (t.record op)
    refine ⟨fun q => ?_, fun q h => ?_⟩
    · rw [foldl_cons, htrue, record_true, mem_cons, or_assoc, @eq_comm _ op]
    rw [foldl_cons]
    apply hsome
    rcases h with h | ⟨op', hop, hp⟩
    · exact .inl (record_isSome (.inl h))
    rcases mem_cons.mp hop with rfl | hop
    · exact .inl (record_isSome (.inr hp))
    · exact .inr ⟨op', hop, hp⟩

/-- The first deleted node on the way decides. -/
lemma keeps_eq {isDelete current path} (h : ∀ p, p <+: path → p ≠ [] → (t (current ++ p)).isSome) :
    ∃ b, t.keeps isDelete current path = .ok b ∧
      (b ↔ ∀ p, p <+: path → p ≠ [] → t (current ++ p) = some true → p = path ∧ isDelete) := by
  induction path generalizing current with
  | nil => exact ⟨true, rfl, by simp⟩
  | cons key rest ih =>
    have hkey := h [key] (by simp) (by simp)
    simp only [keeps]
    cases ht : t (current ++ [key]) with
    | none => simp [ht] at hkey
    | some deleted =>
      cases deleted with
      | true =>
        refine ⟨_, rfl, ?_⟩
        simp only [Bool.and_eq_true, List.isEmpty_iff]
        constructor
        · rintro ⟨rfl, hdel⟩ p hp hne -
          refine ⟨?_, hdel⟩
          cases p with
          | nil => exact absurd rfl hne
          | cons k p =>
            obtain ⟨rfl, hrest⟩ := List.cons_prefix_cons.mp hp
            rw [List.prefix_nil.mp hrest]
        intro hall
        obtain ⟨heq, hdel⟩ := hall [key] (by simp) (by simp) ht
        exact ⟨(List.cons.inj heq).2.symm, hdel⟩
      | false =>
        obtain ⟨b, hb, hiff⟩ := @ih (current ++ [key]) fun p hp hne => by
          simpa using h (key :: p) (List.cons_prefix_cons.mpr ⟨rfl, hp⟩) (by simp)
        refine ⟨b, hb, hiff.trans ⟨?_, ?_⟩⟩
        · intro hall p hp hne htrue
          cases p with
          | nil => exact absurd rfl hne
          | cons k p =>
            obtain ⟨rfl, hrest⟩ := cons_prefix_cons.mp hp
            cases p with
            | nil =>
              rw [ht] at htrue
              cases htrue
            | cons k' p =>
              obtain ⟨heq, hdel⟩ := hall (k' :: p) hrest (by simp) (by simpa using htrue)
              exact ⟨by rw [heq], hdel⟩
        intro hall p hp hne htrue
        obtain ⟨heq, hdel⟩ := hall (key :: p) (cons_prefix_cons.mpr ⟨rfl, hp⟩) (by simp) (by simpa using htrue)
        exact ⟨(List.cons.inj heq).2, hdel⟩

end OpTree

lemma collect_eq {ops : List (Operation ω)} {keep}
    (h : ∀ op ∈ ops, t.keeps op.isDelete [] op.path = .ok (keep op)) : collect t ops = .ok (ops.filter keep) := by
  induction ops with
  | nil => rfl
  | cons op ops ih =>
    have hop := h op (by simp)
    have hrest := ih fun op' hop' => h op' (by simp [hop'])
    cases hk : keep op <;> simp [collect, hop, hrest, hk, Bind.bind, Except.bind]

/-- Compaction never panics, and leaves the operations whose machine, or for a deletion its parent, is not at
or below a deleted path. -/
theorem compact_eq {log : List (Operation ω)} (hne : ∀ q, .delete q ∈ log → q ≠ []) :
    compact log = .ok (log.filter fun op => !deletedAbove log op.host) := by
  unfold compact
  split
  · next hnil => simp [hnil]
  apply collect_eq
  intro op hop
  obtain ⟨htrue, hsome⟩ := @OpTree.foldl_record ω .new log
  have hdeleted : ∀ q, q ≠ [] → (log.foldl OpTree.record .new q = some true ↔ .delete q ∈ log) := by
    intro q hq
    rw [htrue]
    simp [OpTree.new, update_of_ne hq]
  obtain ⟨b, hb, hiff⟩ := @OpTree.keeps_eq (log.foldl OpTree.record .new) op.isDelete [] op.path
    fun p hp hpne => hsome p (.inr ⟨op, hop, hp, hpne⟩)
  rw [hb]
  congr 1
  rw [Bool.eq_iff_iff, hiff, Bool.not_eq_true', ← Bool.not_eq_true, deletedAbove_iff]
  constructor
  · rintro hall ⟨q, hq, hprefix⟩
    have hqne := hne q hq
    have hpath : q <+: op.path := by
      cases op with
      | delete p => exact hprefix.trans (List.dropLast_prefix p)
      | transition p o c => exact hprefix
    obtain ⟨heq, hdel⟩ := hall q hpath hqne ((hdeleted q hqne).mpr hq)
    cases op with
    | delete p =>
      -- the deleted path is longer than the path of the parent
      have hlen := hprefix.length_le
      simp only [Operation.path] at heq
      simp only [Operation.host, length_dropLast, heq] at hlen
      have hpos : 0 < p.length := length_pos_iff.mpr (heq ▸ hqne)
      omega
    | transition p o c => cases hdel
  intro hnone q hq hqne htrue
  have hin := (hdeleted q hqne).mp htrue
  cases op with
  | delete p =>
    refine ⟨?_, rfl⟩
    by_contra hneq
    obtain ⟨r, hr⟩ := hq
    refine hnone ⟨q, hin, ?_⟩
    simp only [Operation.path] at hr hneq
    have hrne : r ≠ [] := by
      rintro rfl
      exact hneq (by simpa using hr)
    simp only [Operation.host, ← hr, dropLast_append_of_ne_nil hrne]
    exact prefix_append _ _
  | transition p o c => exact absurd ⟨q, hin, hq⟩ hnone

end FastOrchestration.Hsm
