import FastOrchestration.Chasm.CloseTransaction

/-!
# What closing does to one node

`NodeOk` is what a persisted node keeps: every side-effect task is marked and has its physical task,
and every pure task that is marked has its timer. `visitNode_ok` says what the walk does at a node that
met it when the transaction began: valid tasks stay, the new ones come after them, and those are the
ones for which physical tasks are generated.
-/

namespace FastOrchestration.Chasm

open Lib List ComponentTask NewTasksLoop ChasmNode

variable {V : Type} {reg : Registry V} {s : TreeState} {tx : Transaction V} {id : NodeId}

structure Generated.IsFor {P : Type} (g : Generated P) (id : NodeId) (t : ComponentTask) : Prop where
  key : g.key = t.key
  owner : g.owner = id
  type : g.task.type = t.type
  data : g.task.data = t.data
  destination : g.task.destination = t.destination
  time : g.task.visibilityTimestamp = t.scheduledTime
  category : g.task.category = taskCategory t

lemma Generated.IsFor.handOver {g : Generated Slice} {t} (h : g.IsFor id t)
    (arrays : Arrays String) : (g.handOver arrays).IsFor id t :=
  { h with }

lemma generate_isFor (n : ChasmNode) (p : Slice) (id : NodeId) (t : ComponentTask) :
    (closeTransactionGeneratePhysicalSideEffectTask n p id t).IsFor id (t.setStatus .created) :=
  ⟨rfl, rfl, rfl, rfl, rfl, rfl, rfl⟩

structure NodeOk (count : Nat) (physical : ComponentTask → Prop) (timers : List Time) (n : ChasmNode) : Prop where
  created : ∀ t ∈ n.sideEffectTasks, t.physicalTaskStatus = .created
  physical : ∀ t ∈ n.sideEffectTasks, physical t
  nodup : (n.sideEffectTasks.map key).Nodup
  bounded : ∀ t ∈ n.sideEffectTasks, t.versionedTransition.transitionCount ≤ count
  byTime : ByTime n.pureTasks
  timers : ∀ t ∈ n.pureTasks, t.physicalTaskStatus = .created → t.scheduledTime ∈ timers
  lastUpdate : n.lastUpdateVersionedTransition.transitionCount ≤ count

lemma NodeOk.mono {count count'} {physical physical' : ComponentTask → Prop}
    {timers timers' n} (h : NodeOk count physical timers n)
    (hcount : count ≤ count') (hphysical : ∀ t, physical t → physical' t) (htimers : timers ⊆ timers') :
    NodeOk count' physical' timers' n where
  created := h.created
  physical t ht := hphysical t (h.physical t ht)
  nodup := h.nodup
  bounded t ht := (h.bounded t ht).trans hcount
  byTime := h.byTime
  timers t ht hc := htimers (h.timers t ht hc)
  lastUpdate := h.lastUpdate.trans hcount

/-- What holds of the persisted tree between transactions. -/
structure TreeInv (s : TreeState) : Prop where
  node : ∀ id ∈ s.members, NodeOk s.transitionCount (fun t => ∃ g ∈ s.physicalTasks, g.IsFor id t) s.timers (s.node id)
  once : (s.physicalTasks.map Generated.key).Nodup
  bounded : ∀ g ∈ s.physicalTasks, g.key.1.transitionCount ≤ s.transitionCount

/-- The transaction comes after those of the persisted tree. -/
abbrev TreeState.Before {V : Type} (s : TreeState) (tx : Transaction V) : Prop :=
  s.transitionCount < tx.nextVersionedTransition.transitionCount

lemma TreeInv.empty : TreeInv .empty where
  node _ h := by cases h
  once := by simp [TreeState.empty]
  bounded _ h := by cases h

/-! ### Logical tasks -/

lemma deleteInvalid_ok {valid} {tasks kept : List ComponentTask} (h : deleteInvalid valid tasks = .ok kept) :
    kept = tasks.filter fun t => (valid t).toOption == some true := by
  unfold deleteInvalid at h
  split at h
  · cases h
  · exact (Except.ok.inj h).symm

def NewTask.request (reg : Registry V) (tx : Transaction V) (id : NodeId) (isPureTask : Bool)
    (new : NewTask V) : Option Request :=
  if tx.validate id new.attributes new.task = some true then
    match reg.taskFor new.task with
    | none => none
    | some rt =>
      if rt.isPureTask = isPureTask then (reg.serialize rt new.task).map fun taskBlob =>
        { type := rt.fqType
          destination := new.attributes.destination
          scheduledTime := new.attributes.scheduledTime
          data := taskBlob }
      else none
  else none

def Fresh (tx : Transaction V) (lo hi : Nat) (t : ComponentTask) : Prop :=
  t.versionedTransition = tx.nextVersionedTransition ∧ t.physicalTaskStatus = .none ∧
    lo ≤ t.versionedTransitionOffset ∧ t.versionedTransitionOffset < hi

lemma Fresh.mono {lo lo' hi hi' t} (h : Fresh tx lo hi t) (hlo : lo' ≤ lo) (hhi : hi ≤ hi') : Fresh tx lo' hi' t :=
  ⟨h.1, h.2.1, hlo.trans h.2.2.1, h.2.2.2.trans_le hhi⟩

/-- The loop over the new tasks of a node has appended `sideEffect` and `pure`. -/
structure NewTasksLoop.Extends (tx : Transaction V) (l l' : NewTasksLoop)
    (sideEffect pure : List ComponentTask) : Prop where
  sideEffectTasks : l'.attributes.sideEffectTasks = l.attributes.sideEffectTasks ++ sideEffect
  pureTasks : l'.attributes.pureTasks = l.attributes.pureTasks ++ pure
  le : l.taskOffset ≤ l'.taskOffset
  freshSideEffect : ∀ t ∈ sideEffect, Fresh tx l.taskOffset l'.taskOffset t
  freshPure : ∀ t ∈ pure, Fresh tx l.taskOffset l'.taskOffset t
  nodup : (sideEffect.map key).Nodup
  sorts : l'.sortPureTasks = false → l.sortPureTasks = false ∧ pure = []

lemma NewTasksLoop.Extends.refl (l : NewTasksLoop) : l.Extends tx l [] [] where
  sideEffectTasks := by simp
  pureTasks := by simp
  le := le_rfl
  freshSideEffect := by simp
  freshPure := by simp
  nodup := by simp
  sorts h := ⟨h, rfl⟩

lemma NewTasksLoop.Extends.trans {l l1 l2 : NewTasksLoop} {se1 se2 pu1 pu2}
    (h1 : l.Extends tx l1 se1 pu1) (h2 : l1.Extends tx l2 se2 pu2) :
    l.Extends tx l2 (se1 ++ se2) (pu1 ++ pu2) where
  sideEffectTasks := by rw [h2.sideEffectTasks, h1.sideEffectTasks, append_assoc]
  pureTasks := by rw [h2.pureTasks, h1.pureTasks, append_assoc]
  le := h1.le.trans h2.le
  freshSideEffect t ht := (mem_append.mp ht).elim (fun ht => (h1.freshSideEffect t ht).mono le_rfl h2.le)
    (fun ht => (h2.freshSideEffect t ht).mono h1.le le_rfl)
  freshPure t ht := (mem_append.mp ht).elim (fun ht => (h1.freshPure t ht).mono le_rfl h2.le)
    (fun ht => (h2.freshPure t ht).mono h1.le le_rfl)
  nodup := by
    rw [map_append, nodup_append]
    refine ⟨h1.nodup, h2.nodup, ?_⟩
    -- The offsets of the second part start where those of the first end.
    intro k hk k' hk' heq
    obtain ⟨t, ht, rfl⟩ := mem_map.mp hk
    obtain ⟨u, hu, rfl⟩ := mem_map.mp hk'
    have hlt := (h1.freshSideEffect t ht).2.2.2
    have hle := (h2.freshSideEffect u hu).2.2.1
    have hoff : t.versionedTransitionOffset = u.versionedTransitionOffset := (Prod.ext_iff.mp heq).2
    omega
  sorts h := by
    obtain ⟨hf, rfl⟩ := h2.sorts h
    obtain ⟨hf, rfl⟩ := h1.sorts hf
    exact ⟨hf, rfl⟩

lemma handleNewTask_ok {l l' : NewTasksLoop} {new : NewTask V}
    (h : handleNewTask reg tx id l new = .ok l') : ∃ se pu, l.Extends tx l' se pu ∧
      se.map request = (new.request reg tx id false).toList ∧
      pu.map request = (new.request reg tx id true).toList := by
  unfold handleNewTask at h
  split at h
  · cases h
  obtain ⟨valid, hvalid, h⟩ := bind_ok h
  unfold validateTask at hvalid
  cases hv : tx.validate id new.attributes new.task with
  | none => simp [hv] at hvalid
  | some v =>
    obtain rfl : v = valid := by simpa [hv] using hvalid
    cases v with
    | false =>
      cases h
      exact ⟨[], [], .refl l, by simp [NewTask.request, hv], by simp [NewTask.request, hv]⟩
    | true =>
      simp only [Bool.not_true, Bool.false_eq_true, if_false] at h
      split at h
      · cases h
      rename_i rt hrt
      split at h
      · cases h
      rename_i blob hblob
      cases h
      cases hpure : rt.isPureTask with
      | true =>
        refine ⟨[], [_], ⟨by simp [NewTasksLoop.add], by simp [NewTasksLoop.add]; rfl,
          by simp [NewTasksLoop.add], by simp, ?_, by simp, by simp [NewTasksLoop.add]⟩,
          by simp [NewTask.request, hv, hrt, hpure, hblob, request]⟩
        simp [Fresh, add]
      | false =>
        refine ⟨[_], [], ⟨by simp [add]; rfl, by simp [add], by simp [add], ?_, by simp, by simp, by simp [add]⟩,
          by simp [NewTask.request, hv, hrt, hpure, hblob, request],
          by simp [NewTask.request, hv, hrt, hpure]⟩
        simp [Fresh, add]

lemma run_handleNewTask_ok {l l' : NewTasksLoop} {news : List (NewTask V)}
    (h : run (handleNewTask reg tx id) l news = .ok l') : ∃ se pu, l.Extends tx l' se pu ∧
      se.map request = news.filterMap (NewTask.request reg tx id false) ∧
      pu.map request = news.filterMap (NewTask.request reg tx id true) := by
  induction news generalizing l with
  | nil =>
    cases h
    exact ⟨[], [], .refl _, rfl, rfl⟩
  | cons new news ih =>
    cases hstep : handleNewTask reg tx id l new with
    | error e => simp [run, hstep] at h
    | ok l1 =>
      obtain ⟨se1, pu1, hext1, hse1, hpu1⟩ := handleNewTask_ok hstep
      obtain ⟨se2, pu2, hext2, hse2, hpu2⟩ := ih (by simpa [run, hstep] using h)
      refine ⟨se1 ++ se2, pu1 ++ pu2, hext1.trans hext2, ?_, ?_⟩
      · rw [map_append, hse1, hse2]
        cases hn : new.request reg tx id false <;> simp [hn]
      rw [map_append, hpu1, hpu2]
      cases hn : new.request reg tx id true <;> simp [hn]

def ComponentAttributes.tasks (a : ComponentAttributes) (isPureTask : Bool) : List ComponentTask :=
  if isPureTask then a.pureTasks else a.sideEffectTasks

/-- The requests that the side-effect or the pure tasks of a component stand for after a transaction:
those of the valid tasks that it had, and those of the valid tasks added to it. -/
def expectedRequests (reg : Registry V) (s : TreeState) (tx : Transaction V) (isPureTask : Bool)
    (id : NodeId) : List Request :=
  match (closeTransactionSerializeNodes s tx id).component with
  | none => []
  | some a =>
    if Updated s tx id then
      ((a.tasks isPureTask).filter fun t => (validateExisting reg tx id t).toOption == some true).map request ++
        ((tx.accessed id).getD []).filterMap (NewTask.request reg tx id isPureTask)
    else (a.tasks isPureTask).map request

/-- What becomes of the logical tasks of one component. -/
structure LogicalTasks (tx : Transaction V) (lo hi : Nat) (a a' : ComponentAttributes)
    (se : List ComponentTask) : Prop where
  le : lo ≤ hi
  sideEffectTasks : ∃ kept, kept.Sublist a.sideEffectTasks ∧ a'.sideEffectTasks = kept ++ se
  fresh : ∀ t ∈ se, Fresh tx lo hi t
  nodup : (se.map key).Nodup
  byTime : ByTime a.pureTasks → ByTime a'.pureTasks
  pureTasks : ∀ t ∈ a'.pureTasks, t ∈ a.pureTasks ∨ t.physicalTaskStatus = .none

lemma handleNewTasks_ok {a : ComponentAttributes} {lo r} (h : closeTransactionHandleNewTasks reg tx id a lo = .ok r) :
    ∃ se pu, LogicalTasks tx lo r.2 a r.1 se ∧ r.1.sideEffectTasks = a.sideEffectTasks ++ se ∧
      r.1.pureTasks.Perm (a.pureTasks ++ pu) ∧
      se.map request = ((tx.accessed id).getD []).filterMap (NewTask.request reg tx id false) ∧
      pu.map request = ((tx.accessed id).getD []).filterMap (NewTask.request reg tx id true) := by
  obtain ⟨l, hl, h⟩ := bind_ok h
  obtain ⟨se, pu, hext, hreq⟩ := run_handleNewTask_ok hl
  have hse := hext.sideEffectTasks
  have hpu : ∀ t ∈ l.attributes.pureTasks, t ∈ a.pureTasks ∨ t.physicalTaskStatus = .none := by
    intro t ht
    rw [hext.pureTasks, mem_append] at ht
    exact ht.imp_right fun ht => (hext.freshPure t ht).2.1
  obtain rfl := Except.ok.inj h
  cases hsort : l.sortPureTasks with
  | true =>
    refine ⟨se, pu, ⟨hext.le, ⟨_, List.Sublist.refl _, by simpa using hse⟩, hext.freshSideEffect,
      hext.nodup, fun _ => by simpa using byTime_sortPureTasks _, ?_⟩, by simpa using hse, ?_, hreq⟩
    · intro t ht
      exact hpu t (mem_sortPureTasks.mp (by simpa using ht))
    · simpa [hext.pureTasks, sortPureTasks] using perm_insertionSort _ (a.pureTasks ++ pu)
  | false =>
    obtain ⟨-, rfl⟩ := hext.sorts hsort
    have hsame : l.attributes.pureTasks = a.pureTasks := by simpa using hext.pureTasks
    exact ⟨se, [], ⟨hext.le, ⟨_, List.Sublist.refl _, by simpa using hse⟩, hext.freshSideEffect,
      hext.nodup, fun hb => by simpa [hsame] using hb, by simpa using hpu⟩, by simpa using hse,
      by simp [hsame], hreq⟩

/-! ### The node when the transaction is closed -/

lemma Updated.serialized (h : Updated s tx id) :
    (closeTransactionSerializeNodes s tx id).lastUpdateVersionedTransition =
      tx.nextVersionedTransition := by
  unfold closeTransactionSerializeNodes
  split
  · rename_i hmem
    rw [if_pos (h.resolve_left (not_not_intro hmem))]
  · rfl

lemma serialized_of_not_updated (h : ¬ Updated s tx id) :
    id ∈ s.members ∧ closeTransactionSerializeNodes s tx id = s.node id := by
  obtain ⟨hmem, hacc⟩ := not_or.mp h
  have hmem := not_not.mp hmem
  exact ⟨hmem, by simp [closeTransactionSerializeNodes, hmem, hacc]⟩

lemma TreeInv.serialized (hs : TreeInv s) (hnext : s.Before tx)
    (id : NodeId) : NodeOk tx.nextVersionedTransition.transitionCount
      (fun t => t.versionedTransition.transitionCount ≤ s.transitionCount ∧
        ∃ g ∈ s.physicalTasks, g.IsFor id t) s.timers (closeTransactionSerializeNodes s tx id) := by
  by_cases hmem : id ∈ s.members
  · have hn := hs.node id hmem
    have hold : NodeOk tx.nextVersionedTransition.transitionCount
        (fun t => t.versionedTransition.transitionCount ≤ s.transitionCount ∧
          ∃ g ∈ s.physicalTasks, g.IsFor id t) s.timers (s.node id) :=
      ⟨hn.created, fun t ht => ⟨hn.bounded t ht, hn.physical t ht⟩, hn.nodup,
        fun t ht => (hn.bounded t ht).trans hnext.le, hn.byTime, hn.timers,
        hn.lastUpdate.trans hnext.le⟩
    unfold closeTransactionSerializeNodes
    rw [if_pos hmem]
    split
    · exact { hold with lastUpdate := le_rfl }
    · exact hold
  unfold closeTransactionSerializeNodes
  rw [if_neg hmem]
  cases tx.isComponent id <;>
    exact ⟨nofun, nofun, .nil, nofun, .nil, nofun, le_rfl⟩

lemma updateLogicalTasks_ok (hs : TreeInv s) (hnext : s.Before tx) {a lo r}
    (ha : (closeTransactionSerializeNodes s tx id).component = some a)
    (h : updateLogicalTasks reg s tx id (closeTransactionSerializeNodes s tx id) a lo = .ok r) :
    ∃ se, LogicalTasks tx lo r.2 a r.1 se ∧ r.1.sideEffectTasks.map request = expectedRequests reg s tx false id ∧
      (r.1.pureTasks.map request).Perm (expectedRequests reg s tx true id) := by
  unfold updateLogicalTasks at h
  by_cases hup : Updated s tx id
  · rw [if_pos ⟨by rw [hup.serialized, VersionedTransition.compare_self], by simp [valueState, hup]⟩] at h
    obtain ⟨a1, ha1, h⟩ := bind_ok h
    obtain ⟨sideEffectTasks, hse, ha1⟩ := bind_ok ha1
    obtain ⟨pureTasks, hpu, ha1⟩ := bind_ok ha1
    cases ha1
    obtain ⟨se, pu, hlog, hlist, hperm, hreq, hpureReq⟩ := handleNewTasks_ok h
    have hse := deleteInvalid_ok hse
    have hpure := deleteInvalid_ok hpu
    have hpu : pureTasks.Sublist a.pureTasks := hpure ▸ filter_sublist
    refine ⟨se, ⟨hlog.le, ⟨sideEffectTasks, hse ▸ filter_sublist, hlist⟩, hlog.fresh, hlog.nodup,
      fun hb => hlog.byTime (hb.sublist hpu), ?_⟩, ?_, ?_⟩
    · exact fun t ht => (hlog.pureTasks t ht).imp_left fun ht => hpu.subset ht
    · simp [expectedRequests, ComponentAttributes.tasks, ha, hup, hlist, hreq, hse]
    have hmap := hperm.map request
    rw [map_append, hpureReq] at hmap
    simpa [expectedRequests, ComponentAttributes.tasks, ha, hup, hpure] using hmap
  obtain ⟨hmem, hsame⟩ := serialized_of_not_updated hup
  rw [if_neg] at h
  · cases h
    exact ⟨[], ⟨le_rfl, ⟨_, List.Sublist.refl _, by simp⟩, by simp, by simp, fun hb => hb,
      fun t ht => .inl ht⟩, by simp [expectedRequests, ComponentAttributes.tasks, hup, ha],
      by simp [expectedRequests, ComponentAttributes.tasks, hup, ha]⟩
  -- The last update of a node that was not touched is older than this transaction.
  intro hcond
  have hlast := (hs.node id hmem).lastUpdate
  rw [← hsame, VersionedTransition.compare_eq.mp hcond.1] at hlast
  omega

/-! ### Physical tasks -/

lemma scanBackwards_append (news olds : List ComponentTask)
    (hnews : ∀ t ∈ news, t.physicalTaskStatus = .none) (holds : ∀ t ∈ olds, t.physicalTaskStatus = .created) :
    scanBackwards (news ++ olds) = (news, news.map (setStatus .created) ++ olds) := by
  induction news with
  | nil =>
    cases olds with
    | nil => rfl
    | cons t olds => simp [scanBackwards, holds t (by simp)]
  | cons t news ih =>
    have ht : t.physicalTaskStatus = .none := hnews t (by simp)
    simp [scanBackwards, ht, ih fun u hu => hnews u (by simp [hu])]

/-- What a visit to a node does: `se` are the side-effect tasks that it adds. -/
structure Visited (reg : Registry V) (s : TreeState) (tx : Transaction V) (w w' : Walk)
    (v : Slice × NodeId) (n' : ChasmNode) (se : List ComponentTask) : Prop where
  nodes : w'.nodes = Function.update w.nodes v.2 n'
  le : w.taskOffset ≤ w'.taskOffset
  generated : w'.generated = w.generated ++
    se.reverse.map (closeTransactionGeneratePhysicalSideEffectTask (w.nodes v.2) v.1 v.2)
  fresh : ∀ t ∈ se, Fresh tx w.taskOffset w'.taskOffset t
  nodup : (se.map key).Nodup
  first : w'.firstPureTask = earlierPureTask v.2 n'.pureTasks w.firstPureTask
  ok : NodeOk tx.nextVersionedTransition.transitionCount
    (fun t => (∃ g ∈ s.physicalTasks, g.IsFor v.2 t) ∨ ∃ u ∈ se, t = u.setStatus .created) s.timers n'
  requests : n'.sideEffectTasks.map request = expectedRequests reg s tx false v.2
  pureRequests : (n'.pureTasks.map request).Perm (expectedRequests reg s tx true v.2)

lemma visitNode_ok (hs : TreeInv s) (hnext : s.Before tx)
    {w w' : Walk} {v} (hn : w.nodes v.2 = closeTransactionSerializeNodes s tx v.2)
    (h : visitNode reg s tx w v = .ok w') : ∃ n' se, Visited reg s tx w w' v n' se := by
  have hold := hs.serialized hnext v.2
  simp only [visitNode, hn] at h
  split at h
  · rename_i hnone
    cases h
    refine ⟨w.nodes v.2, [], by simp, le_rfl, by simp, by simp, by simp, ?_, ?_, ?_, ?_⟩
    · simp [hn, pureTasks, hnone, earlierPureTask]
    · rw [hn]
      exact hold.mono le_rfl (fun t ht => .inl ht.2) (fun _ => id)
    · simp [hn, expectedRequests, sideEffectTasks, hnone]
    · simp [hn, expectedRequests, pureTasks, hnone]
  rename_i a ha
  obtain ⟨r, hr, h⟩ := bind_ok h
  obtain ⟨se, hlog, hreq, hpureReq⟩ := updateLogicalTasks_ok hs hnext ha hr
  obtain ⟨kept, hkept, hlist⟩ := hlog.sideEffectTasks
  have hsub : ∀ t ∈ kept, t ∈ (closeTransactionSerializeNodes s tx v.2).sideEffectTasks := by
    intro t ht
    simpa [sideEffectTasks, ha] using hkept.subset ht
  have hscan := scanBackwards_append se.reverse kept.reverse (fun t ht => (hlog.fresh t (by simpa using ht)).2.1)
    (fun t ht => hold.created t (hsub t (by simpa using ht)))
  rw [← reverse_append, ← hlist] at hscan
  simp only [hscan] at h
  cases h
  have htasks : (se.reverse.map (setStatus .created) ++ kept.reverse).reverse =
      kept ++ se.map (setStatus .created) := by simp
  refine ⟨_, se, rfl, hlog.le, by rw [hn], hlog.fresh, hlog.nodup, rfl, ?_, ?_, hpureReq⟩
  · simp only [htasks]
    have hkeys := List.Sublist.nodup ((hkept.map key)) (by simpa [sideEffectTasks, ha] using hold.nodup)
    refine ⟨?_, ?_, ?_, ?_, ?_, ?_, hold.lastUpdate⟩ <;>
      simp only [sideEffectTasks, pureTasks, Option.map_some, Option.getD_some,
        forall_mem_append, forall_mem_map]
    · exact ⟨fun t ht => hold.created t (hsub t ht), fun t _ => rfl⟩
    · exact ⟨fun t ht => .inl (hold.physical t (hsub t ht)).2, fun t ht => .inr ⟨t, ht, rfl⟩⟩
    · simp only [map_append, map_map, Function.comp_def, setStatus_key]
      refine nodup_append.mpr ⟨hkeys, hlog.nodup, ?_⟩
      -- The tasks that the node had are of earlier transactions.
      intro k hk k' hk' heq
      obtain ⟨t, ht, rfl⟩ := mem_map.mp hk
      obtain ⟨u, hu, rfl⟩ := mem_map.mp hk'
      have hvt : t.versionedTransition = u.versionedTransition := (Prod.ext_iff.mp heq).1
      have hle := (hold.physical t (hsub t ht)).1
      rw [hvt, (hlog.fresh u hu).1] at hle
      omega
    · refine ⟨fun t ht => hold.bounded t (hsub t ht), fun t ht => ?_⟩
      have hvt := (hlog.fresh t ht).1
      show t.versionedTransition.transitionCount ≤ _
      rw [hvt]
    · exact hlog.byTime (by simpa [pureTasks, ha] using hold.byTime)
    intro t ht hc
    obtain hmem | hnone := hlog.pureTasks t ht
    · exact hold.timers t (by simpa [pureTasks, ha] using hmem) hc
    rw [hnone] at hc
    cases hc
  simp only [sideEffectTasks, Option.map_some, Option.getD_some, htasks]
  rw [← hreq, hlist]
  simp [Function.comp_def]

end FastOrchestration.Chasm
