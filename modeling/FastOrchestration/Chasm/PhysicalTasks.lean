import FastOrchestration.Chasm.ClosedNode

/-!
# Physical tasks over whole runs

`TreeInv` is kept by every transaction, and what a transaction hands to persistence is described by
`Handed`: one physical task for each logical side-effect task over its life, generated by the
transaction that adds the task, and a timer for the earliest pure task of the tree.

The paths are right in trees where no two children are appended to one path slice. In other trees the
children of a node share the last cell of their paths, and every one of them reads the name of the
child that the walk visited last.
-/

namespace FastOrchestration.Chasm

open Lib List Function ComponentTask ChasmNode

variable {V : Type} {reg : Registry V} {s s' : TreeState} {tx : Transaction V}
  {physical : ComponentTask → Prop} {t : ComponentTask}

def FirstPure (visited : List NodeId) (w : Walk) : Prop :=
  match w.firstPureTask with
  | none => ∀ id ∈ visited, (w.nodes id).pureTasks = []
  | some (t, id) => id ∈ visited ∧ (w.nodes id).pureTasks.head? = some t ∧
      ∀ id' ∈ visited, ∀ t' ∈ (w.nodes id').pureTasks, t.scheduledTime ≤ t'.scheduledTime

/-- The state of the walk after the visits `done`. -/
structure WalkInv (reg : Registry V) (s : TreeState) (tx : Transaction V) (done : List (Slice × NodeId))
    (w : Walk) : Prop where
  unvisited : ∀ id ∉ done.map Prod.snd, w.nodes id = closeTransactionSerializeNodes s tx id
  visited : ∀ id ∈ done.map Prod.snd, NodeOk tx.nextVersionedTransition.transitionCount
    (fun t => (∃ g ∈ s.physicalTasks, g.IsFor id t) ∨ ∃ g ∈ w.generated, g.IsFor id t) s.timers
    (w.nodes id)
  requests : ∀ id ∈ done.map Prod.snd, (w.nodes id).sideEffectTasks.map request = expectedRequests reg s tx false id
  pureRequests : ∀ id ∈ done.map Prod.snd, ((w.nodes id).pureTasks.map request).Perm (expectedRequests reg s tx true id)
  once : (w.generated.map Generated.key).Nodup
  fresh : ∀ g ∈ w.generated, g.key.1 = tx.nextVersionedTransition ∧ g.key.2 < w.taskOffset
  paths : ∀ g ∈ w.generated, (g.task.path, g.owner) ∈ done
  first : FirstPure (done.map Prod.snd) w

lemma ByTime.head_le {tasks} {t u : ComponentTask} (h : ByTime (t :: tasks))
    (hu : u ∈ t :: tasks) : t.scheduledTime ≤ u.scheduledTime := by
  obtain rfl | hu := mem_cons.mp hu
  · exact le_rfl
  · exact rel_of_pairwise_cons h hu

lemma FirstPure.visit {visited} {w w' : Walk} {id} {n' : ChasmNode}
    (h : FirstPure visited w) (hid : id ∉ visited) (hnodes : w'.nodes = Function.update w.nodes id n')
    (hfirst : w'.firstPureTask = earlierPureTask id n'.pureTasks w.firstPureTask)
    (hn : ByTime n'.pureTasks) : FirstPure (visited ++ [id]) w' := by
  have hat : w'.nodes id = n' := by simp [hnodes]
  have hne : ∀ i ∈ visited, w'.nodes i = w.nodes i := by
    intro i hi
    have : i ≠ id := fun heq => hid (heq ▸ hi)
    simp [hnodes, update_of_ne this]
  unfold FirstPure at h ⊢
  rw [hfirst]
  cases hp : n'.pureTasks with
  | nil =>
    -- A node without pure tasks changes nothing.
    cases hw : w.firstPureTask with
    | none =>
      simp only [hw] at h
      intro i hi
      obtain hi | hi := mem_append.mp hi
      · rw [hne i hi, h i hi]
      · rw [mem_singleton.mp hi, hat, hp]
    | some f =>
      simp only [hw] at h
      obtain ⟨hmem, hhead, hle⟩ := h
      refine ⟨by simp [hmem], by rw [hne _ hmem, hhead], fun i hi t ht => ?_⟩
      obtain hi | hi := mem_append.mp hi
      · exact hle i hi t (hne i hi ▸ ht)
      rw [mem_singleton.mp hi, hat, hp] at ht
      cases ht
  | cons t rest =>
    rw [hp] at hn
    have hown : ∀ u ∈ (w'.nodes id).pureTasks, t.scheduledTime ≤ u.scheduledTime := by
      rw [hat, hp]
      exact fun u hu => hn.head_le hu
    have hhead : (w'.nodes id).pureTasks.head? = some t := by rw [hat, hp]; rfl
    cases hw : w.firstPureTask with
    | none =>
      simp only [hw, earlierPureTask] at h ⊢
      refine ⟨by simp, hhead, fun i hi u hu => ?_⟩
      obtain hi | hi := mem_append.mp hi
      · rw [hne i hi, h i hi] at hu
        cases hu
      · exact hown u (mem_singleton.mp hi ▸ hu)
    | some f =>
      obtain ⟨f, fid⟩ := f
      simp only [hw, earlierPureTask] at h ⊢
      obtain ⟨hmem, hfhead, hle⟩ := h
      by_cases hlt : comparePureTasks t f = .lt
      · rw [if_pos hlt]
        have htf : t.scheduledTime ≤ f.scheduledTime :=
          scheduledTime_le_of_isLE (by rw [hlt]; rfl)
        refine ⟨by simp, hhead, fun i hi u hu => ?_⟩
        obtain hi | hi := mem_append.mp hi
        · exact htf.trans (hle i hi u (hne i hi ▸ hu))
        · exact hown u (mem_singleton.mp hi ▸ hu)
      rw [if_neg hlt]
      refine ⟨by simp [hmem], by rw [hne _ hmem, hfhead], fun i hi u hu => ?_⟩
      obtain hi | hi := mem_append.mp hi
      · exact hle i hi u (hne i hi ▸ hu)
      · exact (le_scheduledTime_of_not_lt hlt).trans (hown u (mem_singleton.mp hi ▸ hu))

lemma WalkInv.visit (hs : TreeInv s) (hnext : s.Before tx) {done : List (Slice × NodeId)} {w w' v}
    (h : WalkInv reg s tx done w) (hv : v.2 ∉ done.map Prod.snd)
    (hok : visitNode reg s tx w v = .ok w') : WalkInv reg s tx (done ++ [v]) w' := by
  obtain ⟨n', se, hvis⟩ := visitNode_ok hs hnext (h.unvisited v.2 hv) hok
  have hat : w'.nodes v.2 = n' := by simp [hvis.nodes]
  have hne : ∀ i, i ≠ v.2 → w'.nodes i = w.nodes i := fun i hi => by
    simp [hvis.nodes, update_of_ne hi]
  have hold : ∀ i ∈ done.map Prod.snd, w'.nodes i = w.nodes i := fun i hi =>
    hne i fun heq => hv (heq ▸ hi)
  have hgen : ∀ g ∈ w'.generated, g ∈ w.generated ∨
      ∃ t ∈ se, g = closeTransactionGeneratePhysicalSideEffectTask (w.nodes v.2) v.1 v.2 t := by
    intro g hg
    rw [hvis.generated, mem_append] at hg
    refine hg.imp_right fun hg => ?_
    obtain ⟨t, ht, rfl⟩ := mem_map.mp hg
    exact ⟨t, by simpa using ht, rfl⟩
  have hids : (done ++ [v]).map Prod.snd = done.map Prod.snd ++ [v.2] := by simp
  refine ⟨?_, ?_, ?_, ?_, ?_, ?_, ?_, ?_⟩
  · intro i hi
    rw [hids, mem_append, not_or, mem_singleton] at hi
    rw [hne i hi.2, h.unvisited i hi.1]
  · intro i hi
    rw [hids, mem_append] at hi
    obtain hi | hi := hi
    · rw [hold i hi]
      refine (h.visited i hi).mono le_rfl (fun t ht => ht.imp_right ?_) (fun _ ht => ht)
      rintro ⟨g, hg, hfor⟩
      exact ⟨g, by simp [hvis.generated, hg], hfor⟩
    rw [mem_singleton.mp hi, hat]
    refine hvis.ok.mono le_rfl (fun t ht => ht.imp_right ?_) (fun _ ht => ht)
    rintro ⟨u, hu, rfl⟩
    refine ⟨_, ?_, generate_isFor (w.nodes v.2) v.1 v.2 u⟩
    rw [hvis.generated]
    exact mem_append_right _ (mem_map_of_mem (by simpa using hu))
  · intro i hi
    rw [hids, mem_append] at hi
    obtain hi | hi := hi
    · rw [hold i hi, h.requests i hi]
    · rw [mem_singleton.mp hi, hat, hvis.requests]
  · intro i hi
    rw [hids, mem_append] at hi
    obtain hi | hi := hi
    · rw [hold i hi]
      exact h.pureRequests i hi
    rw [mem_singleton.mp hi, hat]
    exact hvis.pureRequests
  · rw [hvis.generated, map_append, nodup_append]
    refine ⟨h.once, ?_, ?_⟩
    · rw [map_map, map_reverse, nodup_reverse]
      exact hvis.nodup
    -- The offsets given at this node start where those of the earlier ones end.
    intro k hk k' hk' heq
    obtain ⟨g, hg, rfl⟩ := mem_map.mp hk
    obtain ⟨g', hg', rfl⟩ := mem_map.mp hk'
    obtain ⟨t, ht, rfl⟩ := mem_map.mp hg'
    have hlt := (h.fresh g hg).2
    have hle := (hvis.fresh t (by simpa using ht)).2.2.1
    have hoff : g.key.2 = t.versionedTransitionOffset := (Prod.ext_iff.mp heq).2
    omega
  · intro g hg
    obtain hg | ⟨t, ht, rfl⟩ := hgen g hg
    · exact ⟨(h.fresh g hg).1, (h.fresh g hg).2.trans_le hvis.le⟩
    · exact ⟨(hvis.fresh t ht).1, (hvis.fresh t ht).2.2.2⟩
  · intro g hg
    obtain hg | ⟨t, ht, rfl⟩ := hgen g hg
    · simp [h.paths g hg]
    · simp [closeTransactionGeneratePhysicalSideEffectTask]
  rw [hids]
  exact h.first.visit hv hvis.nodes hvis.first hvis.ok.byTime

lemma WalkInv.start : WalkInv reg s tx []
    { nodes := closeTransactionSerializeNodes s tx, taskOffset := 1, generated := [],
      firstPureTask := none } where
  unvisited _ _ := rfl
  visited _ h := by cases h
  requests _ h := by cases h
  pureRequests _ h := by cases h
  once := .nil
  fresh _ h := by cases h
  paths _ h := by cases h
  first _ h := by cases h

/-- The walk visits every node once. -/
lemma andAllChildren_ids (tx : Transaction V) : tx.andAllChildren.2.map Prod.snd = tx.tree.ids :=
  congrArg (tx.tree.root :: ·) (Forest.walk_ids _ _ _ _)

/-- Where no cell is shared, the slices read as the paths of the nodes. -/
lemma andAllChildren_reads {tx : Transaction V} (h : tx.Unshared) :
    tx.andAllChildren.2.map (fun p => (tx.andAllChildren.1.read p.1, p.2)) = tx.tree.paths :=
  congrArg (([], tx.tree.root) :: ·) (Forest.walk_reads tx.growslice tx.tree.children
    (A := Tree.noArrays) (s := Tree.nilSlice) Nat.zero_lt_one rfl h)

/-! ### The timer of the first pure task -/

lemma markFirstPureTask_sideEffectTasks (n : ChasmNode) : n.markFirstPureTask.sideEffectTasks = n.sideEffectTasks := by
  cases hn : n.component <;> simp [markFirstPureTask, sideEffectTasks, hn]

lemma markFirstPureTask_pureTasks {n : ChasmNode} (h : n.pureTasks.head? = some t) :
    ∃ rest, n.pureTasks = t :: rest ∧ n.markFirstPureTask.pureTasks = t.setStatus .created :: rest := by
  obtain ⟨rest, hrest⟩ := head?_eq_some_iff.mp h
  cases hn : n.component with
  | none => simp [pureTasks, hn] at hrest
  | some a =>
    have ha : a.pureTasks = t :: rest := by simpa [pureTasks, hn] using hrest
    simp [markFirstPureTask, pureTasks, hn, ha]

lemma NodeOk.mark {count} {timers} {n : ChasmNode} (h : NodeOk count physical timers n) (ht : n.pureTasks.head? = some t) :
    NodeOk count physical (timers ++ [t.scheduledTime]) n.markFirstPureTask := by
  obtain ⟨rest, hrest, hmark⟩ := markFirstPureTask_pureTasks ht
  have hside := markFirstPureTask_sideEffectTasks n
  refine ⟨hside ▸ h.created, hside ▸ h.physical, hside ▸ h.nodup, hside ▸ h.bounded, ?_, ?_, h.lastUpdate⟩
  · have hby := h.byTime
    rw [hrest] at hby
    rw [hmark]
    exact pairwise_cons.mpr (pairwise_cons.mp hby)
  rw [hmark]
  intro u hu hc
  obtain rfl | hu := mem_cons.mp hu
  · simp
  · exact mem_append_left _ (h.timers u (by simp [hrest, hu]) hc)

/-- What a transaction that closes has done for the tasks of the tree. -/
structure Handed (reg : Registry V) (s : TreeState) (tx : Transaction V) (s' : TreeState) : Prop where
  /-- The side-effect tasks of a component: the valid ones it had and the valid ones added to it. -/
  requests : ∀ id ∈ tx.tree.ids, (s'.node id).sideEffectTasks.map request = expectedRequests reg s tx false id
  /-- Each of them is a task of its own. -/
  distinct : ∀ id ∈ tx.tree.ids, ((s'.node id).sideEffectTasks.map key).Nodup
  /-- Each of them has its physical task. -/
  physical : ∀ id ∈ tx.tree.ids, ∀ t ∈ (s'.node id).sideEffectTasks, ∃ g ∈ s'.physicalTasks, g.IsFor id t
  /-- No logical task has two physical tasks, over all transactions so far. -/
  once : (s'.physicalTasks.map Generated.key).Nodup
  /-- The physical tasks of this transaction are handed over with the paths of their nodes. -/
  paths : ∃ new, s'.physicalTasks = s.physicalTasks ++ new ∧ ∀ g ∈ new, (g.task.path, g.owner) ∈ tx.tree.paths
  /-- The earliest pure task of the whole tree has had a timer. -/
  timer : ∀ id ∈ tx.tree.ids, ∀ t ∈ (s'.node id).pureTasks,
    (∀ id' ∈ tx.tree.ids, ∀ t' ∈ (s'.node id').pureTasks, t.scheduledTime ≤ t'.scheduledTime) →
      t.scheduledTime ∈ s'.timers

/-- The walk over the whole tree, with the paths that its slices read at the end. -/
lemma walk_ok (hs : TreeInv s) (hnext : s.Before tx) {w w'}
    (h0 : WalkInv reg s tx [] w) (hw : run (visitNode reg s tx) w tx.andAllChildren.2 = .ok w') :
    WalkInv reg s tx tx.andAllChildren.2 w' := by
  refine run_loop (I := WalkInv reg s tx) ?_ h0 hw
  intro done v rest w w' hes hinv hok
  refine hinv.visit hs hnext (fun hmem => ?_) hok
  have hnodup : (tx.andAllChildren.2.map Prod.snd).Nodup := by
    rw [andAllChildren_ids]
    exact tx.tree.nodup
  rw [hes, map_append, map_cons, nodup_append] at hnodup
  exact hnodup.2.2 v.2 hmem v.2 (by simp) rfl

lemma generatePhysicalPureTask_tasks {visited} {w : Walk} (h : FirstPure visited w) (id : NodeId) :
    ((closeTransactionGeneratePhysicalPureTask w).1 id).sideEffectTasks = (w.nodes id).sideEffectTasks ∧
      ((closeTransactionGeneratePhysicalPureTask w).1 id).pureTasks.map request =
        (w.nodes id).pureTasks.map request := by
  unfold FirstPure at h
  unfold closeTransactionGeneratePhysicalPureTask
  split
  · exact ⟨rfl, rfl⟩
  rename_i t i hw
  simp only [hw] at h
  split
  · exact ⟨rfl, rfl⟩
  by_cases hid : id = i
  · subst hid
    obtain ⟨rest, hrest, hmark⟩ := markFirstPureTask_pureTasks h.2.1
    simp [hmark, hrest, markFirstPureTask_sideEffectTasks]
  · simp [update_of_ne hid]

lemma generatePhysicalPureTask_nodeOk {visited} {w : Walk} (h : FirstPure visited w) {id count} {timers} (hid : NodeOk count physical timers (w.nodes id)) :
    NodeOk count physical (timers ++ (closeTransactionGeneratePhysicalPureTask w).2)
      ((closeTransactionGeneratePhysicalPureTask w).1 id) := by
  unfold FirstPure at h
  unfold closeTransactionGeneratePhysicalPureTask
  split
  · simpa using hid
  rename_i t i hw
  simp only [hw] at h
  split
  · simpa using hid
  by_cases heq : id = i
  · subst heq
    simpa using hid.mark h.2.1
  simp only [update_of_ne heq]
  exact hid.mono le_rfl (fun _ ht => ht) (subset_append_left _ _)

/-- The first pure task has its timer: an earlier one if it is marked, else the one generated now. -/
lemma firstPureTask_timer {visited} {w : Walk} {id count} {timers} (h : FirstPure visited w)
    (hfirst : w.firstPureTask = some (t, id)) (hok : NodeOk count physical timers (w.nodes id)) :
    t.scheduledTime ∈ timers ++ (closeTransactionGeneratePhysicalPureTask w).2 := by
  simp only [FirstPure, hfirst] at h
  simp only [closeTransactionGeneratePhysicalPureTask, hfirst]
  split
  · rename_i hc
    exact mem_append_left _ (hok.timers t (mem_of_head? h.2.1) hc)
  · simp

theorem closeTransaction_ok (hs : TreeInv s) (hnext : s.Before tx)
    (h : closeTransaction reg s tx = .ok s') : TreeInv s' ∧ (tx.Unshared → Handed reg s tx s') := by
  obtain ⟨w, hw, h⟩ := bind_ok h
  have hinv := walk_ok hs hnext .start hw
  have hids : ∀ id ∈ tx.tree.ids, id ∈ tx.andAllChildren.2.map Prod.snd := by
    rw [andAllChildren_ids]
    exact fun _ hid => hid
  have htasks := generatePhysicalPureTask_tasks hinv.first
  have htimes : ∀ id, ((closeTransactionGeneratePhysicalPureTask w).1 id).pureTasks.map scheduledTime =
        (w.nodes id).pureTasks.map scheduledTime := fun id => by
    have h := congrArg (List.map Request.scheduledTime) (htasks id).2
    rwa [map_map, map_map] at h
  cases h
  have hnode : ∀ id ∈ tx.tree.ids, NodeOk tx.nextVersionedTransition.transitionCount
      (fun t => ∃ g ∈ s.physicalTasks ++ w.generated.map (Generated.handOver tx.andAllChildren.1),
        g.IsFor id t) (s.timers ++ (closeTransactionGeneratePhysicalPureTask w).2)
      ((closeTransactionGeneratePhysicalPureTask w).1 id) := by
    intro id hid
    refine (generatePhysicalPureTask_nodeOk hinv.first (hinv.visited id (hids id hid))).mono le_rfl ?_ (fun _ ht => ht)
    rintro t (⟨g, hg, hfor⟩ | ⟨g, hg, hfor⟩)
    · exact ⟨g, mem_append_left _ hg, hfor⟩
    · exact ⟨_, mem_append_right _ (mem_map_of_mem hg), hfor.handOver _⟩
  have honce : ((s.physicalTasks ++ w.generated.map
      (Generated.handOver tx.andAllChildren.1)).map Generated.key).Nodup := by
    rw [map_append, map_map, nodup_append]
    refine ⟨hs.once, hinv.once, ?_⟩
    -- Tasks of earlier transactions have smaller transition counts.
    intro k hk k' hk' heq
    obtain ⟨g, hg, rfl⟩ := mem_map.mp hk
    obtain ⟨g', hg', rfl⟩ := mem_map.mp hk'
    have hle := hs.bounded g hg
    rw [heq, show ((Generated.key ∘ Generated.handOver _) g').1 = _ from (hinv.fresh g' hg').1] at hle
    omega
  refine ⟨⟨hnode, honce, ?_⟩, fun hshape => ⟨?_, fun id hid => (hnode id hid).nodup,
    fun id hid => (hnode id hid).physical, honce, ⟨_, rfl, ?_⟩, ?_⟩⟩
  · intro g hg
    obtain hg | hg := mem_append.mp hg
    · exact (hs.bounded g hg).trans hnext.le
    obtain ⟨g', hg', rfl⟩ := mem_map.mp hg
    exact (congrArg VersionedTransition.transitionCount (hinv.fresh g' hg').1).le
  · intro id hid
    rw [(htasks id).1, hinv.requests id (hids id hid)]
  · intro g hg
    obtain ⟨g', hg', rfl⟩ := mem_map.mp hg
    rw [← andAllChildren_reads hshape]
    exact mem_map.mpr ⟨_, hinv.paths g' hg', rfl⟩
  intro id hid t ht hmin
  cases hfirst : w.firstPureTask with
  | none =>
    have hempty := hinv.first
    simp only [FirstPure, hfirst] at hempty
    have hnil := (htasks id).2
    rw [hempty id (hids id hid), map_nil, map_eq_nil_iff] at hnil
    rw [show (TreeState.node _ id).pureTasks = _ from hnil] at ht
    cases ht
  | some f =>
    obtain ⟨f, fid⟩ := f
    have hleads := hinv.first
    simp only [FirstPure, hfirst] at hleads
    obtain ⟨hfid, hhead, hle⟩ := hleads
    have hfmem : fid ∈ tx.tree.ids := by rwa [← andAllChildren_ids]
    -- The task `t` is as early as `f`, and the other way round.
    have hft : f.scheduledTime ≤ t.scheduledTime := by
      have := mem_map_of_mem (f := scheduledTime) ht
      rw [show List.map _ (TreeState.node _ id).pureTasks = _ from htimes id] at this
      obtain ⟨u, hu, hut⟩ := mem_map.mp this
      exact hut ▸ hle id (hids id hid) u hu
    have htf : t.scheduledTime ≤ f.scheduledTime := by
      have := mem_map_of_mem (f := scheduledTime) (mem_of_head? hhead)
      rw [← htimes fid] at this
      obtain ⟨u, hu, huf⟩ := mem_map.mp this
      exact huf ▸ hmin fid hfmem u hu
    rw [le_antisymm htf hft]
    exact firstPureTask_timer hinv.first hfirst (hinv.visited fid hfid)

/-- Time goes on: every transaction has a larger transition count than those before it. And in its
tree, no two children are appended to one path slice. -/
def Permitted (s : TreeState) (tx : Transaction V) : Prop :=
  s.transitionCount < tx.nextVersionedTransition.transitionCount ∧ tx.Unshared

instance (s : TreeState) (tx : Transaction V) : Decidable (Permitted s tx) :=
  inferInstanceAs (Decidable (_ ∧ _))

lemma transact_inv (hs : TreeInv s) (hp : Permitted s tx) (h : transact reg s tx = .ok s') : TreeInv s' := by
  unfold transact at h
  split at h
  · rename_i hclose
    cases h
    exact (closeTransaction_ok hs hp.1 hclose).1
  cases h
  exact hs

theorem physicalTasks_generated (reg : Registry V) {txs : List (Transaction V)}
    (al : Along Permitted (transact reg) .empty txs) (hr : run (transact reg) .empty txs = .ok s)
    (hp : Permitted s tx) (h : closeTransaction reg s tx = .ok s') : Handed reg s tx s' := by
  have hinv : TreeInv s := al.inv (fun _ _ _ hs hp h => transact_inv hs hp h) .empty hr
  exact (closeTransaction_ok hinv hp.1 h).2 hp.2

/-! ### Runs -/

/-- One pure and one side-effect task type; the value of a task says which it is. -/
def twoTypes : Registry Bool where
  task type := some ⟨type, type == "lib.pure"⟩
  taskFor isPure := some ⟨if isPure then "lib.pure" else "lib.effect", isPure⟩
  deserialize rt _ := some rt.isPureTask
  serialize _ _ := some "data"

/-- A transaction that adds the given tasks to components. Tasks for the given times are rejected. -/
def addTasks (tree : Tree) (transitionCount : Nat) (tasks : List (NodeId × List (Bool × Time)))
    (rejected : List Time) : Transaction Bool where
  tree := tree
  growslice cap := max 1 (2 * cap)
  isComponent _ := true
  accessed id := (tasks.lookup id).map fun news => news.map fun (isPure, time) => ⟨isPure, ⟨time, ""⟩⟩
  loaded _ := false
  validate _ attributes _ := some (attributes.scheduledTime ∉ rejected)
  nextVersionedTransition := ⟨1, transitionCount⟩

def threeNodes : Tree := ⟨0, .cons 1 "a" (.cons 2 "b" .nil .nil) .nil, by decide⟩

def twoNodes : Tree := ⟨0, .cons 1 "a" .nil .nil, by decide⟩

def growThree : Transaction Bool :=
  addTasks threeNodes 1 [(0, [(false, 0)]), (1, [(true, 9), (false, 3)]), (2, [(true, 5), (false, 0)])] []

/-- The lowest node is gone, and the task for time 9 is no longer valid. -/
def shrinkToTwo : Transaction Bool := addTasks twoNodes 2 [(1, [(false, 0), (true, 7)])] [9]

theorem physicalTasks_generated_twoNodes : ∃ s s',
    run (transact twoTypes) .empty [growThree] = .ok s ∧
      closeTransaction twoTypes s shrinkToTwo = .ok s' ∧
      (s.physicalTasks.map fun g => (g.owner, g.task.path)) = [(0, []), (1, ["a"]), (2, ["a", "b"])] ∧
      (s'.physicalTasks.map fun g => (g.owner, g.task.path)) =
        [(0, []), (1, ["a"]), (2, ["a", "b"]), (1, ["a"])] ∧
      (s'.node 1).pureTasks.map (·.scheduledTime) = [7] ∧ s'.timers = [5, 7] ∧
      Handed twoTypes s shrinkToTwo s' := by
  obtain ⟨s, hs, hcount, hbefore, s', hs', hpaths, htasks, htimers⟩ : ∃ s,
      run (transact twoTypes) .empty [growThree] = .ok s ∧ s.transitionCount = 1 ∧
      (s.physicalTasks.map fun g => (g.owner, g.task.path)) = [(0, []), (1, ["a"]), (2, ["a", "b"])] ∧
      ∃ s', closeTransaction twoTypes s shrinkToTwo = .ok s' ∧
        (s'.physicalTasks.map fun g => (g.owner, g.task.path)) =
          [(0, []), (1, ["a"]), (2, ["a", "b"]), (1, ["a"])] ∧
        (s'.node 1).pureTasks.map (·.scheduledTime) = [7] ∧ s'.timers = [5, 7] := by decide +kernel
  refine ⟨s, s', hs, hs', hbefore, hpaths, htasks, htimers, ?_⟩
  exact physicalTasks_generated twoTypes (by decide +kernel) hs ⟨by rw [hcount]; decide, by decide⟩ hs'

/-- Two children of a node at depth three. -/
def twoLeaves : Tree :=
  ⟨0, .cons 1 "a" (.cons 2 "b" (.cons 3 "c" (.cons 4 "d1" .nil (.cons 5 "d2" .nil .nil)) .nil) .nil) .nil, by decide⟩

/-- Both children get a side-effect task. The walk has room for one more name after `a`, `b`, `c`, so
it writes `d2` over `d1` in the slice that the physical task of the first child holds. -/
theorem siblingsShareCell_wrongPath : ∃ s',
    closeTransaction twoTypes .empty (addTasks twoLeaves 1 [(4, [(false, 0)]), (5, [(false, 0)])] []) = .ok s' ∧
      (s'.physicalTasks.map fun g => (g.owner, g.task.path)) =
        [(4, ["a", "b", "c", "d2"]), (5, ["a", "b", "c", "d2"])] ∧
      (["a", "b", "c", "d1"], 4) ∈ twoLeaves.paths ∧ (["a", "b", "c", "d2"], 4) ∉ twoLeaves.paths := by
  decide +kernel

/-!
## Pure tasks when a transaction is closed

A pure task has no physical task of its own and nothing removes it when it has been executed. It goes
when its validator rejects it (`closeTransaction_valid`), and it stays as long as it is accepted
(`closeTransaction_kept`).
-/

lemma closeTransaction_members (h : closeTransaction reg s tx = .ok s') : s'.members = tx.tree.ids := by
  obtain ⟨w, hw, h⟩ := bind_ok h
  cases h
  rfl

lemma closeTransaction_component (h : closeTransaction reg s tx = .ok s') (id : NodeId) :
    (s'.node id).component.isSome = (closeTransactionSerializeNodes s tx id).component.isSome := by
  obtain ⟨w, hw, h⟩ := bind_ok h
  cases h
  have hwalk : (w.nodes id).component.isSome = (closeTransactionSerializeNodes s tx id).component.isSome := by
    refine run_loop (I := fun _ w => (w.nodes id).component.isSome =
      (closeTransactionSerializeNodes s tx id).component.isSome) ?_ rfl hw
    intro done v rest w w' _ hI hok
    rw [← hI]
    unfold visitNode at hok
    dsimp only at hok
    split at hok
    · cases hok
      rfl
    rename_i a ha
    obtain ⟨r, hr, hok⟩ := bind_ok hok
    cases hok
    by_cases hid : id = v.2
    · subst hid
      simp [ha]
    · simp [Function.update_of_ne hid]
  show ((closeTransactionGeneratePhysicalPureTask w).1 id).component.isSome = _
  rw [← hwalk]
  unfold closeTransactionGeneratePhysicalPureTask
  split
  · rfl
  rename_i t i hfirst
  split
  · rfl
  by_cases hid : id = i
  · subst hid
    simp [ChasmNode.markFirstPureTask]
  · simp [Function.update_of_ne hid]

def Registry.RoundTrips (reg : Registry V) : Prop :=
  ∀ v rt taskBlob, reg.taskFor v = some rt → reg.serialize rt v = some taskBlob →
    reg.task rt.fqType = some rt ∧ reg.deserialize rt taskBlob = some v

lemma validateExisting_congr {id} {t t' : ComponentTask} (h : t.request = t'.request) :
    validateExisting reg tx id t = validateExisting reg tx id t' := by
  simp only [ComponentTask.request, ComponentTask.Request.mk.injEq] at h
  simp only [validateExisting, deserializeComponentTask, h]

lemma NewTask.request_valid (hreg : reg.RoundTrips) {id} {new : NewTask V} {t : ComponentTask} {isPureTask}
    (h : new.request reg tx id isPureTask = some t.request) : validateExisting reg tx id t = .ok true := by
  unfold NewTask.request at h
  split at h
  · rename_i hvalid
    split at h
    · cases h
    rename_i rt hrt
    split at h
    · obtain ⟨taskBlob, hblob, hreq⟩ := Option.map_eq_some_iff.mp h
      obtain ⟨htask, hread⟩ := hreg _ _ _ hrt hblob
      simp only [ComponentTask.request, ComponentTask.Request.mk.injEq] at hreq
      obtain ⟨htype, hdest, htime, hdata⟩ := hreq
      simp only [validateExisting, deserializeComponentTask, ← htype, ← hdest, ← htime, ← hdata, htask, hread]
      show validateTask tx id new.attributes new.task = _
      simp [validateTask, hvalid]
    · cases h
  · cases h

section

variable (hs : TreeInv s) (hnext : s.Before tx) (h : closeTransaction reg s tx = .ok s') {id} (hid : id ∈ tx.tree.ids)

include hs hnext h hid

/-- The pure tasks of a component: the valid ones it had and the valid ones added to it. -/
theorem closeTransaction_pureTasks :
    ((s'.node id).pureTasks.map ComponentTask.request).Perm (expectedRequests reg s tx true id) := by
  obtain ⟨w, hw, h⟩ := bind_ok h
  have hinv := walk_ok hs hnext .start hw
  cases h
  show (((closeTransactionGeneratePhysicalPureTask w).1 id).pureTasks.map _).Perm _
  rw [(generatePhysicalPureTask_tasks hinv.first id).2]
  exact hinv.pureRequests id (by rwa [andAllChildren_ids])

lemma closeTransaction_expected {r} (hr : r ∈ expectedRequests reg s tx true id) :
    ∃ t ∈ (s'.node id).pureTasks, t.request = r :=
  mem_map.mp ((closeTransaction_pureTasks hs hnext h hid).mem_iff.mpr hr)

/-- Every pure task that is stored at a node updated in the transaction is valid when it is closed. -/
theorem closeTransaction_valid (hreg : reg.RoundTrips) (hup : Updated s tx id) {t}
    (ht : t ∈ (s'.node id).pureTasks) : validateExisting reg tx id t = .ok true := by
  have hmem := (closeTransaction_pureTasks hs hnext h hid).mem_iff.mp (mem_map_of_mem (f := ComponentTask.request) ht)
  unfold expectedRequests at hmem
  split at hmem
  · cases hmem
  rw [if_pos hup, mem_append] at hmem
  obtain hmem | hmem := hmem
  · obtain ⟨t0, ht0, hreq⟩ := mem_map.mp hmem
    have hvalid := (mem_filter.mp ht0).2
    rw [← validateExisting_congr hreq]
    cases hv : validateExisting reg tx id t0 with
    | error e => simp [hv, Except.toOption] at hvalid
    | ok b => simpa [hv, Except.toOption] using hvalid
  obtain ⟨new, -, hreq⟩ := mem_filterMap.mp hmem
  exact NewTask.request_valid hreg hreq

theorem closeTransaction_kept (hmem : id ∈ s.members) {t : ComponentTask} (ht : t ∈ (s.node id).pureTasks) (hvalid : validateExisting reg tx id t = .ok true) :
    ∃ t' ∈ (s'.node id).pureTasks, t'.request = t.request := by
  apply closeTransaction_expected hs hnext h hid
  have hcomponent : (closeTransactionSerializeNodes s tx id).component = (s.node id).component := by
    simp only [closeTransactionSerializeNodes, hmem, if_true]
    split <;> rfl
  unfold expectedRequests
  rw [hcomponent]
  cases ha : (s.node id).component with
  | none => simp [ChasmNode.pureTasks, ha] at ht
  | some a =>
    have ht : t ∈ a.tasks true := by simpa [ChasmNode.pureTasks, ha, ComponentAttributes.tasks] using ht
    dsimp only
    split
    · exact mem_append_left _ (mem_map_of_mem (mem_filter.mpr ⟨ht, by simp [hvalid, Except.toOption]⟩))
    · exact mem_map_of_mem ht

theorem closeTransaction_added
    (hcomponent : (closeTransactionSerializeNodes s tx id).component.isSome) {new : NewTask V}
    (hnew : new ∈ (tx.accessed id).getD []) {r}
    (hr : new.request reg tx id true = some r) : ∃ t ∈ (s'.node id).pureTasks, t.request = r := by
  apply closeTransaction_expected hs hnext h hid
  obtain ⟨a, ha⟩ := Option.isSome_iff_exists.mp hcomponent
  have hup : Updated s tx id := by
    cases hacc : tx.accessed id with
    | none => simp [hacc] at hnew
    | some news => exact .inr (by simp [hacc])
  simp only [expectedRequests, ha, if_pos hup]
  exact mem_append_right _ (mem_filterMap.mpr ⟨new, hnew, hr⟩)

end

end FastOrchestration.Chasm
