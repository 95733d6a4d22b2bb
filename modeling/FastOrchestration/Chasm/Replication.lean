import FastOrchestration.Chasm.CloseTransaction

/-!
# Replication of a CHASM tree

`ApplyMutation` and `ApplySnapshot` bring a tree to a state of the source cluster and record in
`mutation` what has to be persisted. The tree is the map from the path of each node to the node; an
encoded path stands for its path. A node whose child was created first has no serialized node yet: it
is in the map, without content.

The Go maps of a mutation are ranged over in any order: `MapOrder` lists their keys in the order of one
such iteration.
-/

namespace FastOrchestration.Chasm

abbrev Path := List String

/-- The serialized node with its data, and with the metadata that replication does not look at. -/
structure DataNode extends ChasmNode where
  data : String
  attributes : String
deriving DecidableEq

structure NodesMutation where
  updatedNodes : Path → Option DataNode
  deletedNodes : Path → Bool

def NodesMutation.empty : NodesMutation := ⟨fun _ => none, fun _ => false⟩

abbrev NodesSnapshot := Path → Option DataNode

structure MapOrder where
  deleted : List Path
  updated : List Path

structure ReplicaTree where
  /-- `some none` is a node that has not been given its serialized node. -/
  nodes : Path → Option (Option DataNode)
  mutation : NodesMutation

namespace DataNode

def mapTasks (f g : ComponentTask → ComponentTask) (n : DataNode) : DataNode :=
  { n with component := n.component.map fun a =>
      { sideEffectTasks := a.sideEffectTasks.map f, pureTasks := a.pureTasks.map g } }

def resetTaskStatus (n : DataNode) : DataNode := n.mapTasks (·.setStatus .none) (·.setStatus .none)

end DataNode

/-- The status of a matching local task is carried over to the incoming one, with its data blob. -/
def ComponentTask.inherit (source target : ComponentTask) : ComponentTask :=
  { target with physicalTaskStatus := source.physicalTaskStatus, data := source.data }

def carryOverTaskStatus (compareFn : ComponentTask → ComponentTask → Ordering) :
    List ComponentTask → List ComponentTask → List ComponentTask
  | source :: sources, target :: targets =>
    match compareFn source target with
    | .eq => source.inherit target :: carryOverTaskStatus compareFn sources targets
    | .lt => carryOverTaskStatus compareFn sources (target :: targets)
    | .gt => target.setStatus .none :: carryOverTaskStatus compareFn (source :: sources) targets
  | [], targets => targets.map (·.setStatus .none)
  | _ :: _, [] => []
termination_by sources targets => sources.length + targets.length

/-- The incoming node as it is stored in place of `localNode`. Statuses are carried over where both
are components; otherwise those of the source stay. -/
def DataNode.replacing (localNode : Option DataNode) (n : DataNode) : DataNode :=
  match localNode.bind (·.component), n.component with
  | some localAttr, some updatedAttr =>
    { n with
      component := some ⟨carryOverTaskStatus compareSideEffectTasks localAttr.sideEffectTasks
            updatedAttr.sideEffectTasks,
          carryOverTaskStatus comparePureTasks localAttr.pureTasks updatedAttr.pureTasks⟩ }
  | _, _ => n

namespace ReplicaTree

def record (t : ReplicaTree) (path : Path) (n : DataNode) : NodesMutation :=
  { t.mutation with updatedNodes := Function.update t.mutation.updatedNodes path (some n) }

/-- `setSerializedNode`: the ancestors that are not there are created without content. -/
def setSerializedNode (nodes : Path → Option (Option DataNode)) (path : Path) (n : DataNode) :
    Path → Option (Option DataNode) := fun q =>
  if q = path then some (some n)
  else if q.isPrefixOf path ∧ nodes q = none then some none
  else nodes q

def applyUpdate (t : ReplicaTree) (path : Path) (updatedNode : DataNode) : ReplicaTree :=
  match t.nodes path with
  | none =>
    let newNode := updatedNode.resetTaskStatus
    { nodes := setSerializedNode t.nodes path newNode, mutation := t.record path newNode }
  | some node =>
    if node.all fun n => n.lastUpdateVersionedTransition.compare updatedNode.lastUpdateVersionedTransition ≠ .eq then
      let newNode := updatedNode.replacing node
      { nodes := Function.update t.nodes path (some (some newNode)), mutation := t.record path newNode }
    else t

def applyUpdates (updatedNodes : Path → Option DataNode) (t : ReplicaTree) (order : List Path) :
    ReplicaTree :=
  order.foldl (fun t path =>
    match updatedNodes path with
    | none => t
    | some n => t.applyUpdate path n) t

/-- `delete` removes the node with all its descendants; the root itself stays. -/
def delete (t : ReplicaTree) (path : Path) : ReplicaTree where
  nodes q := if path.isPrefixOf q ∧ q ≠ [] then none else t.nodes q
  mutation := { t.mutation with
    deletedNodes := fun q => t.mutation.deletedNodes q || (path.isPrefixOf q && (t.nodes q).isSome) }

def applyDeletion (t : ReplicaTree) (path : Path) : ReplicaTree :=
  match t.nodes path with
  | none => t
  | some _ => t.delete path

def applyDeletions (t : ReplicaTree) (order : List Path) : ReplicaTree := order.foldl applyDeletion t

def applyMutation (t : ReplicaTree) (m : NodesMutation) (order : MapOrder) : ReplicaTree :=
  applyUpdates m.updatedNodes (t.applyDeletions order.deleted) order.updated

/-- `Snapshot(nil)`: a missing transition counts as the zero one. -/
def snapshot (t : ReplicaTree) : NodesSnapshot := fun path =>
  (t.nodes path).join.filter fun n => n.lastUpdateVersionedTransition.compare ⟨0, 0⟩ = .gt

def snapshotMutation (t : ReplicaTree) (incoming : NodesSnapshot) : NodesMutation where
  deletedNodes path := (t.snapshot path).isSome && (incoming path).isNone
  updatedNodes path :=
    match incoming path, t.snapshot path with
    | none, _ => none
    | some incomingNode, none => some incomingNode
    | some incomingNode, some currentNode =>
      if currentNode.lastUpdateVersionedTransition.compare
          incomingNode.lastUpdateVersionedTransition ≠ .eq then some incomingNode
      else none

def applySnapshot (t : ReplicaTree) (incoming : NodesSnapshot) (order : MapOrder) : ReplicaTree :=
  t.applyMutation (t.snapshotMutation incoming) order

end ReplicaTree

/-! ### What replication is for -/

/-- The tasks of a node are kept in the order of their keys. -/
structure DataNode.Ok (n : DataNode) : Prop where
  transition : n.lastUpdateVersionedTransition.compare ⟨0, 0⟩ = .gt
  sideEffectTasks : n.sideEffectTasks.Pairwise (compareSideEffectTasks · · = .lt)
  pureTasks : n.pureTasks.Pairwise (comparePureTasks · · = .lt)

/-- A tree as it is persisted: every node has its parent. -/
structure StoredTree where
  nodes : Path → Option DataNode
  root : (nodes []).isSome
  parent : ∀ path name, (nodes (path ++ [name])).isSome → (nodes path).isSome
  ok : ∀ path n, nodes path = some n → n.Ok

/-- The tree at the start of a transaction. -/
def StoredTree.load (B : StoredTree) : ReplicaTree := ⟨fun path => (B.nodes path).map some, .empty⟩

def localStatus (compareFn : ComponentTask → ComponentTask → Ordering) (localTasks : List ComponentTask)
    (t : ComponentTask) : PhysicalTaskStatus :=
  ((localTasks.find? fun s => compareFn s t == .eq).map ComponentTask.physicalTaskStatus).getD .none

/-- The node of the source as the target should have it. -/
def DataNode.withLocalStatus (localNode : Option DataNode) (n : DataNode) : DataNode :=
  let localSideEffect := (localNode.map fun b => b.sideEffectTasks).getD []
  let localPure := (localNode.map fun b => b.pureTasks).getD []
  n.mapTasks (fun t => t.setStatus (localStatus compareSideEffectTasks localSideEffect t))
    (fun t => t.setStatus (localStatus comparePureTasks localPure t))

/-- The recorded mutation, applied to what is stored. -/
def NodesMutation.applyTo (m : NodesMutation) (stored : Path → Option DataNode) (path : Path) :
    Option DataNode :=
  if m.deletedNodes path then none else (m.updatedNodes path).or (stored path)

/-!
## Statuses carried over to incoming nodes

`carryOverTaskStatus` goes through two lists that are sorted by one comparison.
`carryOverTaskStatus_eq` says what it amounts to: each incoming task looks up the local task with its
key. From it come the two cases of an update, `DataNode.replacing_eq` for a node that is replaced and
`DataNode.withLocalStatus_same` for one that is left alone because it is up to date.
-/

open List Option ChasmNode

section Sorted

variable {compareFn : ComponentTask → ComponentTask → Ordering} {s t : ComponentTask}
  {sources targets : List ComponentTask}

abbrev ByKey (compareFn : ComponentTask → ComponentTask → Ordering) (tasks : List ComponentTask) :
    Prop := tasks.Pairwise (compareFn · · = .lt)

/-- What becomes of one incoming task. -/
def inheritFrom (compareFn : ComponentTask → ComponentTask → Ordering) (sources : List ComponentTask)
    (t : ComponentTask) : ComponentTask :=
  match sources.find? fun s => compareFn s t == .eq with
  | some s => s.inherit t
  | none => t.setStatus .none

lemma inheritFrom_cons_eq (h : compareFn s t = .eq) : inheritFrom compareFn (s :: sources) t = s.inherit t := by
  simp [inheritFrom, h]

lemma inheritFrom_cons_lt (h : compareFn s t = .lt) :
    inheritFrom compareFn (s :: sources) t = inheritFrom compareFn sources t := by
  simp [inheritFrom, h]

lemma inheritFrom_none (h : ∀ s ∈ sources, compareFn s t ≠ .eq) :
    inheritFrom compareFn sources t = t.setStatus .none := by
  have hnone : (sources.find? fun s => compareFn s t == .eq) = none := by simpa using h
  simp [inheritFrom, hnone]

/-- The tasks after the one compared: a local task before it matches none of them, and a local task
after it means that it has no match. -/
lemma carryOverTaskStatus_eq [Std.TransCmp compareFn] (hs : ByKey compareFn sources) (ht : ByKey compareFn targets) :
    carryOverTaskStatus compareFn sources targets = targets.map (inheritFrom compareFn sources) := by
  fun_induction carryOverTaskStatus compareFn sources targets with
  | case1 source sources target targets heq ih =>
    obtain ⟨-, hs'⟩ := pairwise_cons.mp hs
    obtain ⟨hhead, ht'⟩ := pairwise_cons.mp ht
    rw [ih hs' ht', map_cons, inheritFrom_cons_eq heq]
    congr 1
    refine map_congr_left fun u hu => (inheritFrom_cons_lt ?_).symm
    exact Std.TransCmp.lt_of_eq_of_lt heq (hhead u hu)
  | case2 source sources target targets hlt ih =>
    obtain ⟨-, hs'⟩ := pairwise_cons.mp hs
    obtain ⟨hhead, -⟩ := pairwise_cons.mp ht
    rw [ih hs' ht]
    refine map_congr_left fun u hu => (inheritFrom_cons_lt ?_).symm
    obtain rfl | hu := mem_cons.mp hu
    · exact hlt
    · exact Std.TransCmp.lt_trans hlt (hhead u hu)
  | case3 source sources target targets hgt ih =>
    obtain ⟨hhead, -⟩ := pairwise_cons.mp hs
    obtain ⟨-, ht'⟩ := pairwise_cons.mp ht
    have hlt : compareFn target source = .lt := Std.OrientedCmp.lt_of_gt hgt
    rw [ih hs ht', map_cons, inheritFrom_none]
    intro u hu heq
    have hback : compareFn target u = .lt := by
      obtain rfl | hu := mem_cons.mp hu
      · exact hlt
      · exact Std.TransCmp.lt_trans hlt (hhead u hu)
    rw [Std.OrientedCmp.eq_symm heq] at hback
    cases hback
  | case4 targets => exact map_congr_left fun u _ => (inheritFrom_none (by simp)).symm
  | case5 source sources => rfl

lemma inheritFrom_key :
    (inheritFrom compareFn sources t).key = t.key ∧
      (inheritFrom compareFn sources t).scheduledTime = t.scheduledTime := by
  unfold inheritFrom
  split <;> exact ⟨rfl, rfl⟩

def SameData (compareFn : ComponentTask → ComponentTask → Ordering) (sources targets : List ComponentTask) :
    Prop := ∀ s ∈ sources, ∀ t ∈ targets, compareFn s t = .eq → s.data = t.data

lemma inheritFrom_sameData (h : SameData compareFn sources targets) (ht : t ∈ targets) :
    inheritFrom compareFn sources t = t.setStatus (localStatus compareFn sources t) := by
  unfold inheritFrom localStatus
  cases hf : sources.find? fun s => compareFn s t == .eq with
  | none => rfl
  | some s =>
    have heq : compareFn s t = .eq := by simpa using find?_some hf
    have hdata := h s (mem_of_find?_eq_some hf) t ht heq
    simp [ComponentTask.inherit, ComponentTask.setStatus, hdata]

lemma map_localStatus_same (compareFn : ComponentTask → ComponentTask → Ordering) [Std.TransCmp compareFn]
    (hkeys : ∀ s t u, s.setStatus .none = t.setStatus .none →
      compareFn u s = compareFn u t) (hs : ByKey compareFn sources)
    (h : sources.map (·.setStatus .none) = targets.map (·.setStatus .none)) :
    targets.map (fun t => t.setStatus (localStatus compareFn sources t)) = sources := by
  have hlen : sources.length = targets.length := by simpa using congrArg List.length h
  refine ext_getElem (by simp [hlen]) fun i hi hi' => ?_
  rw [getElem_map]
  have hsame : sources[i].setStatus .none = targets[i].setStatus .none := by
    have := getElem_of_eq h (i := i) (by simpa using hi')
    simpa using this
  -- The first local task with this key is the one at the same place.
  have hfind : sources.find? (fun s => compareFn s targets[i] == .eq) = some sources[i] := by
    have hself : compareFn sources[i] targets[i] = .eq := by
      rw [← hkeys _ _ _ hsame]
      exact Std.ReflCmp.compare_self
    cases hf : sources.find? fun s => compareFn s targets[i] == .eq with
    | none =>
      have := find?_eq_none.mp hf sources[i] (getElem_mem hi')
      simp [hself] at this
    | some s =>
      have heq : compareFn s targets[i] = .eq := by simpa using find?_some hf
      rw [← hkeys _ _ _ hsame] at heq
      obtain ⟨j, hj, rfl⟩ := getElem_of_mem (mem_of_find?_eq_some hf)
      rcases lt_trichotomy i j with hij | rfl | hij
      · have := pairwise_iff_getElem.mp hs i j hi' hj hij
        rw [Std.OrientedCmp.eq_symm heq] at this
        cases this
      · rfl
      have := pairwise_iff_getElem.mp hs j i hj hi' hij
      rw [heq] at this
      cases this
  simp only [localStatus, hfind, map_some, getD_some]
  have hset : ∀ s t : ComponentTask, s.setStatus .none = t.setStatus .none → t.setStatus s.physicalTaskStatus = s := by
    rintro ⟨⟩ ⟨⟩ h
    simp only [ComponentTask.setStatus, ComponentTask.mk.injEq] at h ⊢
    obtain ⟨rfl, rfl, rfl, rfl, rfl, rfl, -⟩ := h
    simp
  exact hset _ _ hsame

end Sorted

/-! ### Nodes -/

variable {b n : DataNode}

/-- What is known of a local and an incoming node at one path, as versions of one node: the last
transition that wrote the node determines it but for the statuses, and the key of a task its data. -/
structure DataNode.Coherent (b n : DataNode) : Prop where
  same : b.lastUpdateVersionedTransition = n.lastUpdateVersionedTransition → b.resetTaskStatus = n.resetTaskStatus
  sideEffectTasks : SameData compareSideEffectTasks b.sideEffectTasks n.sideEffectTasks
  pureTasks : SameData comparePureTasks b.pureTasks n.pureTasks

lemma DataNode.mapTasks_congr {f f' g g'} (hf : ∀ t ∈ n.sideEffectTasks, f t = f' t)
    (hg : ∀ t ∈ n.pureTasks, g t = g' t) : n.mapTasks f g = n.mapTasks f' g' := by
  cases hn : n.component with
  | none => simp [mapTasks, hn]
  | some a =>
    simp only [sideEffectTasks, pureTasks, hn, map_some, getD_some] at hf hg
    simp [mapTasks, hn, map_congr_left hf, map_congr_left hg]

lemma DataNode.resetTaskStatus_eq (n : DataNode) : n.resetTaskStatus = n.withLocalStatus none := rfl

lemma DataNode.withLocalStatus_same (hb : b.Ok) (h : b.resetTaskStatus = n.resetTaskStatus) :
    n.withLocalStatus (some b) = b := by
  have hbs := hb.sideEffectTasks
  have hbp := hb.pureTasks
  obtain ⟨⟨bc, bi, bl⟩, bd, ba⟩ := b
  obtain ⟨⟨nc, ni, nl⟩, nd, na⟩ := n
  simp only [resetTaskStatus, mapTasks, DataNode.mk.injEq, ChasmNode.mk.injEq] at h
  obtain ⟨⟨hc, rfl, rfl⟩, rfl, rfl⟩ := h
  cases bc with
  | none =>
    have : nc = none := by simpa using hc.symm
    simp [withLocalStatus, mapTasks, this]
  | some c =>
    cases nc with
    | none => cases hc
    | some a =>
      simp only [map_some, Option.some.injEq, ComponentAttributes.mk.injEq] at hc
      simp only [sideEffectTasks, pureTasks, map_some, getD_some] at hbs hbp
      have hside := map_localStatus_same compareSideEffectTasks
        (fun s t u h => (congrArg (compareSideEffectTasks u) h :)) hbs hc.1
      have hpure := map_localStatus_same comparePureTasks (fun s t u h => (congrArg (comparePureTasks u) h :)) hbp hc.2
      simp [withLocalStatus, mapTasks, sideEffectTasks, pureTasks, hside, hpure]

lemma compareSideEffectTasks_congr {f : ComponentTask → ComponentTask} (hf : ∀ t, (f t).key = t.key)
    (s t : ComponentTask) : compareSideEffectTasks (f s) (f t) = compareSideEffectTasks s t := by
  obtain ⟨hsv, hso⟩ := Prod.ext_iff.mp (hf s)
  obtain ⟨htv, hto⟩ := Prod.ext_iff.mp (hf t)
  simp only [ComponentTask.key] at hsv hso htv hto
  simp [compareSideEffectTasks, compareLex, compareOn, hsv, hso, htv, hto]

lemma comparePureTasks_congr {f : ComponentTask → ComponentTask} (hf : ∀ t, (f t).key = t.key)
    (htime : ∀ t, (f t).scheduledTime = t.scheduledTime) (s t : ComponentTask) :
    comparePureTasks (f s) (f t) = comparePureTasks s t := by
  simp [comparePureTasks, compareLex, compareOn, htime, compareSideEffectTasks_congr hf]

lemma DataNode.Ok.mapTasks {f g} (hn : n.Ok) (hf : ∀ t, (f t).key = t.key) (hg : ∀ t, (g t).key = t.key)
    (htime : ∀ t, (g t).scheduledTime = t.scheduledTime) : (n.mapTasks f g).Ok := by
  have hside : (n.mapTasks f g).sideEffectTasks = n.sideEffectTasks.map f := by
    cases hc : n.component <;> simp [DataNode.mapTasks, ChasmNode.sideEffectTasks, hc]
  have hpure : (n.mapTasks f g).pureTasks = n.pureTasks.map g := by
    cases hc : n.component <;> simp [DataNode.mapTasks, ChasmNode.pureTasks, hc]
  refine ⟨hn.transition, ?_, ?_⟩
  · rw [hside, pairwise_map]
    exact hn.sideEffectTasks.imp fun h => (compareSideEffectTasks_congr hf _ _).trans h
  rw [hpure, pairwise_map]
  exact hn.pureTasks.imp fun h => (comparePureTasks_congr hg htime _ _).trans h

lemma DataNode.Ok.resetTaskStatus (hn : n.Ok) : n.resetTaskStatus.Ok :=
  hn.mapTasks (fun _ => rfl) (fun _ => rfl) (fun _ => rfl)

section Replacing

variable (hb : b.Ok) (hn : n.Ok) (hkind : b.component = none → n.component = none)

include hb hn hkind

lemma DataNode.replacing_eq :
    n.replacing (some b) = n.mapTasks (inheritFrom compareSideEffectTasks b.sideEffectTasks)
      (inheritFrom comparePureTasks b.pureTasks) := by
  have hbs := hb.sideEffectTasks
  have hbp := hb.pureTasks
  have hns := hn.sideEffectTasks
  have hnp := hn.pureTasks
  obtain ⟨⟨nc, ni, nl⟩, nd, na⟩ := n
  cases nc with
  | none => simp [replacing, mapTasks]
  | some a =>
    cases hbc : b.component with
    | none => cases hkind hbc
    | some c =>
      simp only [sideEffectTasks, pureTasks, hbc, map_some, getD_some] at hbs hbp hns hnp
      simp [replacing, mapTasks, hbc, sideEffectTasks, pureTasks,
        carryOverTaskStatus_eq hbs hns, carryOverTaskStatus_eq hbp hnp]

lemma DataNode.replacing_coherent (h : b.Coherent n) : n.replacing (some b) = n.withLocalStatus (some b) := by
  rw [replacing_eq hb hn hkind]
  exact mapTasks_congr (fun t ht => inheritFrom_sameData h.sideEffectTasks ht)
    (fun t ht => inheritFrom_sameData h.pureTasks ht)

lemma DataNode.Ok.replacing : (n.replacing (some b)).Ok := by
  rw [replacing_eq hb hn hkind]
  exact hn.mapTasks (fun _ => inheritFrom_key.1) (fun _ => inheritFrom_key.1) (fun _ => inheritFrom_key.2)

end Replacing

end FastOrchestration.Chasm
