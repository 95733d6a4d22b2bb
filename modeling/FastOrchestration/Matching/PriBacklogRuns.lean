import FastOrchestration.Matching.PriBacklogLaws
import FastOrchestration.Lib.Run

/-!
# The priority backlog loses no task

Every step keeps `Inv`, if no take-over writes a list of subqueues that is shorter than the persisted one
(`KeepsSubqueues`). `GetTaskQueue` and the update of a take-over are two calls, and the update is
conditional on the range id only. In between the old owner may add a subqueue and write tasks to it; the
new owner then overwrites the list without it. `droppedSubqueue_loses` is such a run.
-/

namespace FastOrchestration.Matching.PriBacklog

open Lib List Function SortedMap Option Owner PriBacklog

variable {K : Prop} {s s' : PriBacklog} {i : Nat} {o o' : Owner}

/-- The owner keeps its lease and its subqueues, and their ack levels do not decrease. -/
def Owner.Grows (o o' : Owner) : Prop :=
  o.lease = .held → o'.lease = .held ∧ ∀ (q : Nat) (sq : Subqueue), o.subqueues[q]? = some sq →
    ∃ sq' : Subqueue, o'.subqueues[q]? = some sq' ∧ sq.tr.ackLevel ≤ sq'.tr.ackLevel

def Grows (s s' : PriBacklog) : Prop := ∀ i, (s.owners i).Grows (s'.owners i)

lemma Owner.grows_of_eq (hlease : o'.lease = o.lease) (hsub : o'.subqueues = o.subqueues) : o.Grows o' :=
  fun ho => ⟨hlease.trans ho, fun _ sq hq => ⟨sq, hsub ▸ hq, le_rfl⟩⟩

lemma Owner.grows_modify {q} {sq : Subqueue} (hq : o.subqueues[q]? = some sq)
    {f} (hf : sq.tr.ackLevel ≤ (f sq).tr.ackLevel) (hlease : o'.lease = o.lease)
    (hsub : o'.subqueues = (o.modify q f).subqueues) : o.Grows o' := by
  refine fun ho => ⟨hlease.trans ho, fun q' sq0 hq' => ?_⟩
  rw [hsub]
  simp only [Owner.modify, getElem?_modify, hq', Option.map_eq_map, map_some]
  refine ⟨_, rfl, ?_⟩
  split
  · next heq =>
    subst heq
    obtain rfl := Option.some.inj (hq.symm.trans hq')
    exact hf
  · exact le_rfl

lemma Owner.grows_map {f : Nat → Subqueue → Subqueue} (hlease : o'.lease = o.lease)
    (hsub : ∀ q, o'.subqueues[q]? = o.subqueues[q]?.map (f q))
    (hf : ∀ q sq, sq.tr.ackLevel ≤ (f q sq).tr.ackLevel) : o.Grows o' := by
  refine fun ho => ⟨hlease.trans ho, fun q sq hq => ⟨f q sq, ?_, hf q sq⟩⟩
  rw [hsub, hq, map_some]

lemma grows_refl (s : PriBacklog) : s.Grows s := fun _ => Owner.grows_of_eq rfl rfl

lemma Grows.trans {s''} (h : s.Grows s') (h' : s'.Grows s'') : s.Grows s'' := by
  intro i hi
  obtain ⟨hi', hsub⟩ := h i hi
  obtain ⟨hi'', hsub'⟩ := h' i hi'
  refine ⟨hi'', fun q sq hq => ?_⟩
  obtain ⟨sq', hq', hle⟩ := hsub q sq hq
  obtain ⟨sq'', hq'', hle'⟩ := hsub' q sq' hq'
  exact ⟨sq'', hq'', hle.trans hle'⟩

lemma grows_update (hs : s'.owners = Function.update s.owners i o) (h : (s.owners i).Grows o) : s.Grows s' := by
  intro j
  rw [hs]
  rcases eq_or_ne j i with rfl | hne
  · rw [update_self]
    exact h
  rw [update_of_ne hne]
  exact grows_of_eq rfl rfl

/-! ### Rules for owners -/

lemma SubqueueOk.owner {q sq} (h : s.SubqueueOk K o q sq) (hblock : o'.taskIDBlock = o.taskIDBlock)
    (hassigned : o'.assigned.Sublist o.assigned) : s.SubqueueOk K o' q sq :=
  ⟨h.safe, h.ack, hblock ▸ h.gives.1, fun r hr => h.gives.2 r (hassigned.mem hr)⟩

lemma OwnerOk.frame (h : s.OwnerOk K o) (hrange : o'.rangeID = o.rangeID)
    (hblock : o'.taskIDBlock = o.taskIDBlock) (hassigned : o'.assigned.Sublist o.assigned)
    (hlen : o.subqueues.length ≤ o'.subqueues.length)
    (hwaiting : ∀ r ∈ o'.waiting, r.subqueue < o'.subqueues.length)
    (hsub : ∀ q sq, o'.subqueues[q]? = some sq → s.SubqueueOk K o' q sq)
    (hupdates : ∀ u ∈ o'.updates, u.2.tasks ≠ [] ∧ ∀ t ∈ u.2.tasks, u.2.maxReadLevelBefore < t.1) :
    s.OwnerOk K o' := by
  refine ⟨hrange ▸ h.range, ?_, ?_, hwaiting, ?_, h.sorted.sublist hassigned, hsub, hupdates⟩
  · rw [hrange, hblock]
    exact h.block
  · rw [hblock]
    exact h.free
  intro r hr
  obtain ⟨hlt, hstart, hin⟩ := h.assigned r (hassigned.mem hr)
  exact ⟨hlt.trans_le hlen, hblock ▸ hstart, hin⟩

section

variable (h : s.Inv K) (hi : (s.owners i).lease = .held)

include h hi

variable (hlease : o.lease = .held) (hrange : o.rangeID = (s.owners i).rangeID)
  (hblock : o.taskIDBlock = (s.owners i).taskIDBlock) (hassigned : o.assigned.Sublist (s.owners i).assigned)
  (hwaiting : ∀ r ∈ o.waiting, r.subqueue < (s.owners i).subqueues.length)

include hlease hrange hblock hassigned hwaiting

lemma Inv.owner (hlen : o.subqueues.length = (s.owners i).subqueues.length)
    (hsub : ∀ q sq, o.subqueues[q]? = some sq → s.SubqueueOk K o q sq)
    (hupdates : ∀ u ∈ o.updates, u.2.tasks ≠ [] ∧ ∀ t ∈ u.2.tasks, u.2.maxReadLevelBefore < t.1) :
    (s.setOwner i o).Inv K := by
  refine h.setOwner hi hlease hrange hblock (fun r hr => hassigned.mem hr)
    ((h.owners i hi).frame hrange hblock hassigned hlen.ge ?_ hsub hupdates) fun hr => ?_
  · rw [hlen]
    exact hwaiting
  have hcur := h.current i hi (hrange ▸ hr)
  exact ⟨hlen ▸ hcur.knows, hlen ▸ hcur.persisted⟩

variable (hupdates : ∀ u ∈ o.updates, u ∈ (s.owners i).updates)

include hupdates

lemma Inv.requests (hsub : o.subqueues = (s.owners i).subqueues) :
    (s.setOwner i o).Inv K ∧ s.Grows (s.setOwner i o) := by
  have hok := h.owners i hi
  refine ⟨?_, grows_update rfl (grows_of_eq (hlease.trans hi.symm) hsub)⟩
  refine h.owner hi hlease hrange hblock hassigned hwaiting (by rw [hsub]) ?_ fun u hu =>
    hok.updates u (hupdates u hu)
  intro q sq hq
  rw [hsub] at hq
  exact (hok.subqueues q sq hq).owner hblock hassigned

lemma Inv.modify {q} {sq : Subqueue} (hq : (s.owners i).subqueues[q]? = some sq) (f : Subqueue → Subqueue)
    (hsafe : (f sq).tr.Safe (s.OwedIn K q) (· ∈ s.completed) sq.db.maxReadLevel)
    (hack : (f sq).db.ackLevel ≤ (f sq).tr.ackLevel) (hmax : (f sq).db.maxReadLevel = sq.db.maxReadLevel)
    (hle : sq.tr.ackLevel ≤ (f sq).tr.ackLevel) (hsub : o.subqueues = ((s.owners i).modify q f).subqueues) :
    (s.setOwner i o).Inv K ∧ s.Grows (s.setOwner i o) := by
  have hok := h.owners i hi
  refine ⟨?_, grows_update rfl (grows_modify hq hle (hlease.trans hi.symm) hsub)⟩
  refine h.owner hi hlease hrange hblock hassigned hwaiting ?_ ?_ fun u hu => hok.updates u (hupdates u hu)
  · rw [hsub]
    exact length_modify ..
  intro q' sq1 hq'
  rw [hsub] at hq'
  rcases modify_cases hq' with ⟨rfl, sq0, hq0, rfl⟩ | hold
  · obtain rfl := Option.some.inj (hq.symm.trans hq0)
    have hgives := (hok.subqueues q' sq hq).gives
    rw [← hmax] at hgives hsafe
    exact SubqueueOk.owner ⟨hsafe, hack, hgives⟩ hblock hassigned
  · exact (hok.subqueues q' sq1 hold).owner hblock hassigned

end

lemma Inv.release (h : s.Inv K) (hlease : o.lease ≠ .held) (hfound : ∀ r info, o.lease = .found r info →
      1 ≤ r ∧ r ≤ s.store.rangeID ∧ (r = s.store.rangeID → s.Known info))
    (hidle : o.appendCh = [] ∧ o.writer = .idle) : (s.setOwner i o).Inv K :=
  h.act (m := s.issued) (fun _ he => he) h.issued (fun j _ hj => (h.owners j hj).free)
    (fun hh => absurd hh hlease) (fun hh => absurd hh hlease) (fun hh => absurd hh hlease)
    (fun hh => absurd hh hlease) hfound fun _ => hidle

/-! ### What an owner writes about the task queue -/

lemma getElem?_map_cases {α β : Type} {f : α → β} {l : List α} {q : Nat} {x} (h : (l.map f)[q]? = some x) :
    ∃ a, l[q]? = some a ∧ f a = x := by
  simpa using h

lemma hasLevel_cachedQueueInfo {dbs q a} (h : (cachedQueueInfo dbs).HasLevel q a) :
    (∃ db, dbs[q]? = some db ∧ a = db.ackLevel) ∨ dbs = [] ∧ q = 0 ∧ a = 0 := by
  rcases h with ⟨rfl, rfl⟩ | ⟨sq, hq, rfl⟩
  · cases dbs with
    | nil => exact .inr ⟨rfl, rfl, rfl⟩
    | cons db dbs => exact .inl ⟨db, rfl, rfl⟩
  obtain ⟨db, hdb, rfl⟩ := getElem?_map_cases hq
  exact .inl ⟨db, hdb, rfl⟩

lemma Inv.low_zero (h : s.Inv K) : s.Low K 0 0 := by
  have hnonneg := h.nonneg
  refine ⟨by simp only [rangeSize]; omega, fun t ht _ => ?_, fun j hj _ => ?_⟩
  · have := (h.issued _ (h.reported t ht.2.1)).1
    omega
  have ho := h.owners j hj
  have hrange := ho.range
  have hblock := ho.block
  simp only [rangeSize] at hblock
  refine ⟨by omega, fun r hr _ => ?_⟩
  have := (h.issued _ (ho.assigned r hr).2.2).1
  omega

section

variable (h : s.Inv K) (hi : (s.owners i).lease = .held) (hcur : (s.owners i).rangeID = s.store.rangeID)

include h hi hcur

lemma Inv.low_ackLevel {q} {sq : Subqueue} (hq : (s.owners i).subqueues[q]? = some sq) : s.Low K q sq.db.ackLevel := by
  have ho := h.owners i hi
  have hsq := ho.subqueues q sq hq
  have hle : sq.db.ackLevel ≤ sq.db.maxReadLevel := (hsq.ack.trans hsq.safe.le).trans hsq.safe.le_max
  refine ⟨hcur ▸ hle.trans (hsq.le_last ho), ?_, ?_⟩
  · rintro t ht rfl
    exact hsq.ack.trans_lt (hsq.safe.above (t.id, t.info) ht)
  intro j hj hcurj
  obtain rfl := h.current_unique hi hj hcur hcurj
  exact ⟨hle.trans_lt hsq.gives.1, fun r hr heq => hle.trans_lt (hsq.gives.2 r hr heq)⟩

lemma Inv.low_info {q a} (ha : (s.owners i).info.HasLevel q a) : s.Low K q a := by
  rcases hasLevel_cachedQueueInfo ha with ⟨db, hdb, rfl⟩ | ⟨-, rfl, rfl⟩
  · obtain ⟨sq, hsq, rfl⟩ := getElem?_map_cases hdb
    exact h.low_ackLevel hi hcur hsq
  · exact h.low_zero

omit h hi hcur in
@[simp]
lemma length_info : o.info.subqueues.length = o.subqueues.length := by
  simp [info, cachedQueueInfo]

lemma Inv.writeOwn : (s.writeInfo s.store.rangeID (s.owners i).info).Inv K := by
  refine h.writeInfo (fun q a ha => h.low_info hi hcur ha) ?_ fun j hj hcurj => ?_
  · rw [length_info]
    exact (h.current i hi hcur).knows
  obtain rfl := h.current_unique hi hj hcur hcurj
  exact length_info.ge

lemma Inv.low_new : s.Low K (s.owners i).subqueues.length (((s.owners i).rangeID - 1) * rangeSize) := by
  refine ⟨?_, ?_, ?_⟩
  · simp only [rangeSize]
    omega
  · intro t ht heq
    exact absurd ((h.current i hi hcur).knows t ht) (heq ▸ lt_irrefl _)
  intro j hj hcurj
  obtain rfl := h.current_unique hi hj hcur hcurj
  have ho := h.owners i hj
  exact ⟨ho.block.2.1, fun r hr heq => absurd (ho.assigned r hr).1 (heq ▸ lt_irrefl _)⟩

end

variable {reply : Reply} {dbs : List DbSubqueue}

lemma applies_eq {st : Store} {r} (h : reply.applies st r) : st.rangeID = r := by
  cases reply with
  | ok => simpa [Reply.applies] using h
  | lost b =>
    simp only [Reply.applies, Bool.and_eq_true, decide_eq_true_eq] at h
    exact h.1

lemma reports_eq {st : Store} {r} (h : reply.reports st r) : reply = .ok ∧ st.rangeID = r := by
  simpa [Reply.reports] using h

lemma applies_of_reports {st r} (h : reply.reports st r) : reply.applies st r := by
  obtain ⟨rfl, heq⟩ := reports_eq h
  simpa [Reply.applies] using heq

/-! ### Subqueues -/

lemma Inv.allocateSubqueue (h : s.Inv K) (hi : (s.owners i).lease = .held) (priority : Int) (reply : Reply) :
    (s.allocateSubqueue i (s.owners i) priority reply).Inv K := by
  have hwrite : reply.applies s.store (s.owners i).rangeID →
      (s.writeInfo (s.owners i).rangeID (cachedQueueInfo ((s.owners i).subqueues.map (·.db) ++
        [newSubqueueLocked (s.owners i).rangeID priority]))).Inv K := by
    intro happ
    have hcur := (applies_eq happ).symm
    rw [hcur]
    refine h.writeInfo ?_ ?_ ?_
    · intro q a ha
      rcases hasLevel_cachedQueueInfo ha with ⟨db, hdb, rfl⟩ | ⟨hnil, -⟩
      · rcases getElem?_concat_cases hdb with hold | ⟨rfl, rfl⟩
        · obtain ⟨sq, hsq, rfl⟩ := getElem?_map_cases hold
          exact h.low_ackLevel hi hcur hsq
        · simpa [newSubqueueLocked, rangeIDToTaskIDBlock, hcur] using h.low_new hi hcur
      · simp at hnil
    · intro t ht
      have := (h.current i hi hcur).knows t ht
      simp only [cachedQueueInfo, length_map, length_append, length_singleton]
      omega
    intro j hj hcurj
    obtain rfl := h.current_unique hi hj hcur hcurj
    simp [cachedQueueInfo]
  unfold PriBacklog.allocateSubqueue
  simp only
  split
  · next hrep =>
    have happ := applies_of_reports hrep
    have hcur := (reports_eq hrep).2.symm
    have hlow := h.low_new hi hcur
    rw [if_pos happ]
    have hinv := hwrite happ
    have hok := hinv.owners i hi
    refine hinv.setOwner hi hi rfl rfl (fun r hr => hr) ?_ fun _ => ⟨?_, ?_⟩
    · refine hok.frame rfl rfl (.refl _) (sublist_append_left _ _).length_le ?_ ?_ hok.updates
      · intro r hr
        have := hok.waiting r hr
        simp only [length_append, length_singleton]
        exact Nat.lt_succ_of_lt this
      intro q sq hq
      rcases getElem?_concat_cases hq with hold | ⟨rfl, rfl⟩
      · exact (hok.subqueues q sq hold).owner rfl (.refl _)
      -- a new reader, at the level of a new subqueue
      have hnew : (newSubqueueLocked (s.owners i).rangeID priority).ackLevel =
          ((s.owners i).rangeID - 1) * rangeSize := Int.add_sub_cancel _ 1
      rw [← hnew] at hlow
      exact ⟨PriTaskReader.safe_new le_rfl fun t ht => hlow.owed _ ht rfl, le_rfl, hlow.gives i hi hcur⟩
    · intro t ht
      have := (h.current i hi hcur).knows t ht
      simp only [length_append, length_singleton]
      omega
    · simp [PriBacklog.writeInfo, setStore, cachedQueueInfo]
  split
  · next happ => exact hwrite happ
  · exact h

/-! ### Leases -/

lemma lt_start {r a : Int} (h : a ≤ r * rangeSize) : a < (rangeIDToTaskIDBlock (r + 1)).start := by
  simp only [rangeIDToTaskIDBlock, add_sub_cancel_right]
  omega

/-- An owner has got the next lease. It may have given ids under the last one. -/
lemma Inv.leased (h : s.Inv K) {info : TaskQueueInfo}
    (hlevel : ∀ q a, info.HasLevel q a → a ≤ s.store.rangeID * rangeSize ∧ ∀ t, s.OwedIf K t → t.subqueue = q → a < t.id)
    (hcovered : ∀ t, s.OwedIf K t → t.subqueue < info.subqueues.length)
    (hlen : info.subqueues.length = o.subqueues.length) (hheld : o.lease = .held)
    (hrange : o.rangeID = s.store.rangeID + 1) (hblock : o.taskIDBlock = rangeIDToTaskIDBlock (s.store.rangeID + 1))
    (hwaiting : ∀ r ∈ o.waiting, r.subqueue < o.subqueues.length)
    (hassigned : ∀ r ∈ o.assigned, r.1.subqueue < o.subqueues.length ∧ (r.2, (r.1.subqueue, r.1.taskInfo)) ∈ s.issued ∧
      (∀ a, info.HasLevel r.1.subqueue a → a < r.2) ∧
      ∀ j, i ≠ j → (s.owners j).lease = .held → (s.owners j).rangeID * rangeSize < r.2)
    (hsorted : o.assigned.Pairwise (·.2 < ·.2))
    (hsub : ∀ q sq, o.subqueues[q]? = some sq → s.SubqueueOk K o q sq)
    (hupdates : ∀ u ∈ o.updates, u.2.tasks ≠ [] ∧ ∀ t ∈ u.2.tasks, u.2.maxReadLevelBefore < t.1) :
    ((s.writeInfo (s.store.rangeID + 1) info).setOwner i o).Inv K := by
  have hnonneg := h.nonneg
  have hinv := h.newLease (fun q a ha => (hlevel q a ha).1) (fun q a ha => (hlevel q a ha).2) hcovered
  refine hinv.act (m := s.issued) (fun _ he => he) hinv.issued (fun j _ hj => (hinv.owners j hj).free)
    (fun _ => ?_) (fun _ j hij hj => ?_) (fun _ _ => ⟨hlen ▸ hcovered, hlen.ge⟩) (fun _ _ info' hk q a ha => ?_)
    (by simp [hheld]) (fun hne => absurd hheld hne)
  · refine ⟨⟨by omega, hrange.le⟩, ?_, ?_, hwaiting, ?_, hsorted, fun q sq hq => ?_, hupdates⟩
    · rw [hrange, hblock]
      refine ⟨rfl, lt_start (by simp), ?_⟩
      simp only [rangeIDToTaskIDBlock, rangeSize]
      omega
    · intro e he
      have := lt_start (h.issued e he).2
      rw [hblock]
      omega
    · intro r hr
      obtain ⟨hlt, hin, -⟩ := hassigned r hr
      exact ⟨hlt, hblock ▸ lt_start (h.issued _ hin).2, hin⟩
    exact ⟨(hsub q sq hq).safe, (hsub q sq hq).ack, (hsub q sq hq).gives⟩
  · have hr : (s.owners j).rangeID ≤ s.store.rangeID := (h.owners j hj).range.2
    have hne : o.rangeID ≠ (s.owners j).rangeID := by omega
    refine ⟨⟨hne, fun _ q => ⟨hblock ▸ lt_start ?_, ?_⟩⟩, ⟨hne.symm, fun hlt => ?_⟩⟩
    · simp only [PriBacklog.writeInfo, setStore, rangeSize]
      omega
    · exact fun r hr _ => (hassigned r hr).2.2.2 j hij hj
    simp only [PriBacklog.writeInfo, setStore] at hlt
    omega
  obtain rfl := h.known_newLease hk
  exact ⟨hblock ▸ lt_start (hlevel q a ha).1, fun r hr hq => (hassigned r hr).2.2.1 a (hq ▸ ha)⟩

/-- The persisted list of subqueues is no longer than the one that a take-over has read, if its update
takes effect. -/
def KeepsSubqueues (s : PriBacklog) : Event → Prop
  | .takeOver i reply =>
    match (s.owners i).lease with
    | .found rangeID info => reply.applies s.store rangeID → s.store.info.subqueues.length ≤ info.subqueues.length
    | _ => True
  | _ => True

instance (s : PriBacklog) (e : Event) : Decidable (s.KeepsSubqueues e) := by
  unfold KeepsSubqueues
  split
  · split <;> infer_instance
  · infer_instance

lemma takeOverSubqueues_cases {r} {info : TaskQueueInfo} {q} {db : DbSubqueue}
    (h : (o.takeOverSubqueues r info)[q]? = some db) :
    info.HasLevel q db.ackLevel ∨ q = info.subqueues.length ∧ db.ackLevel = (r - 1) * rangeSize := by
  simp only [takeOverSubqueues, ensureDefaultSubqueuesLocked] at h
  split at h
  · obtain ⟨sq, hsq, rfl⟩ := getElem?_map_cases h
    exact .inl (.inr ⟨sq, hsq, rfl⟩)
  split at h
  · obtain ⟨hlt, rfl⟩ := List.getElem?_eq_some_iff.mp h
    obtain rfl : q = 0 := Nat.lt_one_iff.mp hlt
    exact .inl (.inl ⟨rfl, rfl⟩)
  rcases getElem?_concat_cases h with hold | ⟨rfl, rfl⟩
  · obtain ⟨sq, hsq, rfl⟩ := getElem?_map_cases hold
    exact .inl (.inr ⟨sq, hsq, rfl⟩)
  · exact .inr ⟨length_map _, Int.add_sub_cancel _ 1⟩

lemma length_takeOverSubqueues {r} {info : TaskQueueInfo} :
    info.subqueues.length ≤ (o.takeOverSubqueues r info).length := by
  simp only [takeOverSubqueues, ensureDefaultSubqueuesLocked]
  split
  · simp
  split
  · next hnil => simp_all
  · simp

lemma cachedQueueInfo_started {level} : cachedQueueInfo (dbs.map fun sq => { sq with maxReadLevel := level }) =
      cachedQueueInfo dbs := by
  cases dbs <;> simp [cachedQueueInfo]

lemma Inv.not_owed_of_zero (h : s.Inv K) (hzero : s.store.rangeID = 0) (t : PriTask) : ¬ s.OwedIf K t := by
  intro ht
  have := h.issued _ (h.reported t ht.2.1)
  simp only [hzero] at this
  omega

/-- An owner asks for the lease, with subqueues whose levels are not past the ids of earlier leases. -/
lemma Inv.lease (h : s.Inv K) {r} (hidle : (s.owners i).appendCh = [] ∧ (s.owners i).writer = .idle)
    (hmax : ∀ db ∈ dbs, db.maxReadLevel = r * rangeSize)
    (hdb : s.store.rangeID = r → reply.applies s.store r → ∀ q db, dbs[q]? = some db →
      db.ackLevel ≤ r * rangeSize ∧ ∀ t, s.OwedIf K t → t.subqueue = q → db.ackLevel < t.id)
    (hcovered : s.store.rangeID = r → reply.applies s.store r → ∀ t, s.OwedIf K t → t.subqueue < dbs.length) :
    ((if reply.applies s.store r then s.writeInfo (r + 1) (cachedQueueInfo dbs) else s).setOwner i
      (if reply.reports s.store r then (s.owners i).start (r + 1) dbs s.now
        else { s.owners i with lease := .none })).Inv K := by
  by_cases happ : reply.applies s.store r
  · have hr := applies_eq happ
    replace hdb := hdb hr happ
    replace hcovered := hcovered hr happ
    subst hr
    have hlevel : ∀ q a, (cachedQueueInfo dbs).HasLevel q a →
        a ≤ s.store.rangeID * rangeSize ∧ ∀ t, s.OwedIf K t → t.subqueue = q → a < t.id := by
      intro q a ha
      rcases hasLevel_cachedQueueInfo ha with ⟨db, hq, rfl⟩ | ⟨-, rfl, rfl⟩
      · exact hdb q db hq
      · exact ⟨h.low_zero.bound, h.low_zero.owed⟩
    have hcovers : ∀ t, s.OwedIf K t → t.subqueue < (cachedQueueInfo dbs).subqueues.length := by
      simpa [cachedQueueInfo] using hcovered
    have hassigned : ((s.owners i).start (s.store.rangeID + 1) dbs s.now).assigned = [] := by
      simp [start, assigned, hidle.2]
    rw [if_pos happ]
    split
    · refine h.leased hlevel hcovers (by simp [cachedQueueInfo, start]) rfl rfl rfl ?_ (by simp [hassigned])
        (by simp [hassigned]) ?_ (by simp [start, updates, hidle.2])
      · simp [start, waiting, hidle.1, hidle.2]
      intro q sq hq
      obtain ⟨db, hdbs, rfl⟩ := getElem?_map_cases hq
      have hlast := hmax db (mem_of_getElem? hdbs)
      refine ⟨PriTaskReader.safe_new ((hdb q db hdbs).1.trans hlast.ge) fun t ht => ?_, le_rfl,
        lt_start hlast.le, by simp [hassigned]⟩
      exact (hdb q db hdbs).2 _ ht rfl
    have hinv := h.newLease (fun q a ha => (hlevel q a ha).1) (fun q a ha => (hlevel q a ha).2) hcovers
    exact hinv.release (by simp) (by simp) hidle
  rw [if_neg happ, if_neg (mt applies_of_reports happ)]
  exact h.release (by simp) (by simp) hidle

lemma Inv.takeOver {reply} (h : s.Inv K) (hkeeps : K → s.KeepsSubqueues (.takeOver i reply))
    (hs : s.takeOver i reply = .ok s') : s'.Inv K := by
  unfold PriBacklog.takeOver at hs
  simp only at hs
  split at hs
  · next r info hl =>
    injection hs with hs
    subst hs
    rw [← @cachedQueueInfo_started _ ((rangeIDToTaskIDBlock (r + 1)).start - 1)]
    have hin : reply.applies s.store r → ∀ t, s.OwedIf K t → t.subqueue < info.subqueues.length := by
      simp only [KeepsSubqueues, hl] at hkeeps
      exact fun happ t ht => (h.covered t ht).trans_le (hkeeps ht.1 happ)
    refine h.lease (h.unheld i (by simp [hl])) ?_ ?_ ?_
    · simp [rangeIDToTaskIDBlock]
    · intro hr happ q db hq
      obtain ⟨db, hdb, rfl⟩ := getElem?_map_cases hq
      rcases takeOverSubqueues_cases hdb with hlevel | ⟨rfl, heq⟩
      · have hlow := h.known info (.inr ⟨i, hr ▸ hl⟩) q _ hlevel
        exact ⟨hr ▸ hlow.bound, hlow.owed⟩
      -- a new subqueue has no tasks
      refine ⟨?_, fun t ht htq => ?_⟩
      · simp only [heq, rangeSize]
        omega
      · exact absurd (hin happ t ht) (htq ▸ lt_irrefl _)
    intro _ happ t ht
    rw [length_map]
    exact (hin happ t ht).trans_le length_takeOverSubqueues
  · next hl =>
    injection hs with hs
    subst hs
    refine h.lease (r := 0) (h.unheld i (by simp [hl])) ?_ ?_ ?_
    · simp [ensureDefaultSubqueuesLocked, newSubqueueLocked, rangeIDToTaskIDBlock]
    · intro hr _ q db hq
      have hin := mem_of_getElem? hq
      simp only [ensureDefaultSubqueuesLocked, map_nil, any_nil, Bool.false_eq_true,
        if_false, isEmpty_nil, if_true, mem_singleton] at hin
      subst hin
      exact ⟨by simp, fun t ht => absurd ht (h.not_owed_of_zero hr t)⟩
    intro hr _ t ht
    exact absurd ht (h.not_owed_of_zero hr t)
  · cases hs

/-! ### Rows -/

lemma mem_createRows {tasks} (htasks : ∀ t ∈ tasks, (t.id, (t.subqueue, t.info)) ∈ s.issued) {q e}
    (hin : (e.1, (q, e.2)) ∈ s.issued) :
    e ∈ (s.createRows tasks).store.rows q ↔ ⟨q, e.1, e.2⟩ ∈ tasks ∨ e ∈ s.store.rows q := by
  have hlist : ∀ e' : Int × TaskInfo,
      e' ∈ (tasks.filter fun t => t.subqueue = q).map (fun t => (t.id, t.info)) ↔ ⟨q, e'.1, e'.2⟩ ∈ tasks := by
    intro e'
    simp only [List.mem_map, mem_filter, decide_eq_true_eq]
    constructor
    · rintro ⟨t, ⟨ht, rfl⟩, rfl⟩
      exact ht
    intro ht
    exact ⟨_, ⟨ht, rfl⟩, rfl⟩
  constructor
  · intro he
    rcases mem_of_mem_putAll he with he | ⟨he, -⟩
    · exact .inl ((hlist e).mp he)
    · exact .inr he
  intro he
  by_cases hkey : ∃ e' ∈ (tasks.filter fun t => t.subqueue = q).map (fun t => (t.id, t.info)), e'.1 = e.1
  · -- a row for the same id is the same row
    obtain ⟨v, hv, hmem⟩ := exists_mem_putAll (m := s.store.rows q) hkey
    have heq : v = e.2 := (Prod.mk.inj (SortedMap.functional (htasks _ ((hlist _).mp hmem)) hin)).2
    rw [heq] at hv
    exact hv
  refine mem_putAll_of_mem (he.resolve_left fun ht => ?_) fun e' he' heq => hkey ⟨e', he', heq⟩
  exact hkey ⟨e, (hlist e).mpr ht, rfl⟩

lemma Inv.createRows (h : s.Inv K) {tasks}
    (htasks : ∀ t ∈ tasks, (t.id, (t.subqueue, t.info)) ∈ s.issued) : (s.createRows tasks).Inv K := by
  refine h.world rfl (fun _ hid => hid) (fun t ht => .inl ht) ?_ h.limbo h.reported ?_
  · intro q e he
    rcases mem_of_mem_putAll he with he | ⟨he, -⟩
    · obtain ⟨t, hfilter, rfl⟩ := mem_map.mp he
      obtain ⟨ht, hq⟩ := mem_filter.mp hfilter
      obtain rfl : t.subqueue = q := of_decide_eq_true hq
      exact htasks t ht
    · exact h.rows q e he
  intro t ht
  exact (mem_createRows htasks (h.reported t ht.2.1)).mpr (.inr (h.stored t ht))

lemma mem_tasksIn {reqs q e} (h : e ∈ tasksIn reqs q) : ∃ r ∈ reqs, r.1.subqueue = q ∧ r.2 = e.1 := by
  obtain ⟨r, hr, rfl⟩ := mem_map.mp h
  obtain ⟨hr, hq⟩ := mem_filter.mp hr
  exact ⟨r, hr, of_decide_eq_true hq, rfl⟩

lemma maxReadLevelAfter_cases {reqs q level} : (update reqs q level).maxReadLevelAfter = level ∨
      ∃ r ∈ reqs, r.1.subqueue = q ∧ (update reqs q level).maxReadLevelAfter = r.2 := by
  simp only [update]
  cases hl : (tasksIn reqs q).getLast? with
  | none => exact .inl rfl
  | some e =>
    obtain ⟨r, hr, hq, hid⟩ := mem_tasksIn (mem_of_getLast? hl)
    exact .inr ⟨r, hr, hq, hid.symm⟩

/-! ### The writer -/

section

variable (h : s.Inv K) (hi : (s.owners i).lease = .held)

include h hi

lemma Inv.giveID {assigned req reqs} (hw : (s.owners i).writer = .assigning assigned (req :: reqs))
    (hle : (s.owners i).taskIDBlock.start ≤ (s.owners i).taskIDBlock.last) :
    (s.giveID i (s.owners i) assigned req reqs).Inv K := by
  have ho := h.owners i hi
  have hassigned : (s.owners i).assigned = assigned := by simp [Owner.assigned, hw]
  have hreq : req.subqueue < (s.owners i).subqueues.length :=
    ho.waiting req (by simp [waiting, hw])
  have hblock := ho.block
  have hrange := ho.range
  have hm : ∀ e ∈ s.issued, e ∈ s.issued.put (s.owners i).taskIDBlock.start (req.subqueue, req.taskInfo) := by
    intro e he
    refine mem_put.mpr (.inr ⟨fun heq => ho.free e he ⟨heq.ge, ?_⟩, he⟩)
    rw [heq]
    exact hle
  -- the new id is above what the old ids were above
  have hgives : ∀ q a, (s.owners i).GivesAbove q a → GivesAbove { s.owners i with
        writer := .assigning (assigned ++ [(req, (s.owners i).taskIDBlock.start)]) reqs
        taskIDBlock := { (s.owners i).taskIDBlock with start := (s.owners i).taskIDBlock.start + 1 } } q a := by
    intro q a ⟨hstart, hall⟩
    refine ⟨Int.lt_add_one_of_le hstart.le, fun r hr hq => ?_⟩
    rw [hassigned] at hall
    rcases mem_append.mp hr with hr | hr
    · exact hall r hr hq
    obtain rfl := mem_singleton.mp hr
    exact hstart
  refine h.act hm ?_ ?_ (fun _ => ?_) (fun _ => ?_) (fun _ hr => ?_) (fun _ hr => ?_) (by simp [hi])
    (fun hne => absurd hi hne)
  · intro e he
    rcases mem_put.mp he with rfl | ⟨-, he⟩
    · simp only [rangeSize] at hblock ⊢
      omega
    · exact h.issued e he
  · intro j hij hj e he
    rcases mem_put.mp he with rfl | ⟨-, he⟩
    · -- the blocks of two leases are apart
      have hoj := h.owners j hj
      have hij' := h.order i j hij hi hj
      have hji := h.order j i (Ne.symm hij) hj hi
      rcases lt_or_gt_of_ne hij'.ne with hlt | hgt
      · have := (hji.later hlt 0).1
        omega
      have := (hij'.later hgt 0).1
      have := hoj.block.1
      omega
    · exact (h.owners j hj).free e he
  · refine ⟨hrange, ⟨hblock.1, ?_, ?_⟩, ?_, ?_, ?_, ?_, ?_, ?_⟩
    · exact Int.lt_add_one_of_le hblock.2.1.le
    · exact Int.add_le_add_right hle 1
    · intro e he
      rcases mem_put.mp he with rfl | ⟨-, he⟩
      · simp only
        omega
      have := ho.free e he
      simp only
      omega
    · intro r hr
      refine ho.waiting r ?_
      simp only [waiting, hw, mem_append, mem_cons] at hr ⊢
      exact hr.imp_right .inr
    · intro r hr
      rcases mem_append.mp hr with hr | hr
      · obtain ⟨hlt, hstart, hin⟩ := ho.assigned r (hassigned ▸ hr)
        exact ⟨hlt, Int.lt_add_one_of_le hstart.le, hm _ hin⟩
      obtain rfl := mem_singleton.mp hr
      exact ⟨hreq, Int.lt_succ _, mem_put.mpr (.inl rfl)⟩
    · refine pairwise_append.mpr ⟨hassigned ▸ ho.sorted, pairwise_singleton _ _, ?_⟩
      intro r hr r' hr'
      obtain rfl := mem_singleton.mp hr'
      exact (ho.assigned r (hassigned ▸ hr)).2.1
    · intro q sq hq
      have hsq := ho.subqueues q sq hq
      exact ⟨hsq.safe, hsq.ack, hgives q _ hsq.gives⟩
    · simp [updates]
  · intro j hij hj
    have hij' := h.order i j hij hi hj
    exact ⟨⟨hij'.ne, fun hlt q => hgives q _ (hij'.later hlt q)⟩,
      ⟨hij'.ne.symm, (h.order j i (Ne.symm hij) hj hi).later⟩⟩
  · exact ⟨(h.current i hi hr).knows, (h.current i hi hr).persisted⟩
  intro info hk q a ha
  exact hgives q a ((h.known info hk q a ha).gives i hi hr)

lemma Inv.renew (hcur : (s.owners i).rangeID = s.store.rangeID) :
    (s.writeInfo (s.store.rangeID + 1) (s.owners i).info).Inv K ∧
    ((s.writeInfo (s.store.rangeID + 1) (s.owners i).info).setOwner i { s.owners i with
      rangeID := s.store.rangeID + 1
      taskIDBlock := rangeIDToTaskIDBlock (s.store.rangeID + 1) }).Inv K := by
  have ho := h.owners i hi
  have hlow : ∀ q a, (s.owners i).info.HasLevel q a → s.Low K q a := fun q a => h.low_info hi hcur
  have hcovered : ∀ t, s.OwedIf K t → t.subqueue < (s.owners i).info.subqueues.length := by
    rw [length_info]
    exact (h.current i hi hcur).knows
  refine ⟨h.newLease (fun q a ha => (hlow q a ha).bound) (fun q a ha => (hlow q a ha).owed) hcovered, ?_⟩
  refine h.leased (fun q a ha => ⟨(hlow q a ha).bound, (hlow q a ha).owed⟩) hcovered length_info hi rfl rfl ho.waiting
    (fun r hr => ?_) ho.sorted (fun q sq hq => ?_) ho.updates
  · obtain ⟨hlt, -, hin⟩ := ho.assigned r hr
    refine ⟨hlt, hin, fun a ha => ((hlow _ a ha).gives i hi hcur).2 r hr rfl, fun j hij hj => ?_⟩
    exact ((h.order i j hij hi hj).later (h.older hi hj hcur hij) r.1.subqueue).2 r hr rfl
  · have hsq := ho.subqueues q sq hq
    exact ⟨hsq.safe, hsq.ack, lt_start (hcur ▸ hsq.le_last ho), hsq.gives.2⟩

omit h hi in
lemma giveID_setOwner {assigned req reqs} :
    (s.setOwner i o).giveID i o assigned req reqs = s.giveID i o assigned req reqs := by
  simp [giveID, setOwner, update_idem]

lemma Inv.assignTaskID {assigned req reqs reply} (hw : (s.owners i).writer = .assigning assigned (req :: reqs)) :
    (s.assignTaskID i (s.owners i) assigned req reqs reply).Inv K := by
  have hstop : ∀ s1 : PriBacklog, s1.Inv K → s1.owners = s.owners →
      (s1.setOwner i { s.owners i with writer := .idle }).Inv K := by
    intro s1 h1 heq
    rw [← heq] at hi hw ⊢
    refine And.left (h1.requests hi hi rfl rfl (by simp [Owner.assigned]) ?_ (by simp [Owner.updates]) rfl)
    intro r hr
    refine (h1.owners i hi).waiting r ?_
    simp only [waiting, hw]
    exact mem_append_left _ hr
  unfold PriBacklog.assignTaskID
  split
  · split
    · exact hstop s h rfl
    simp only
    by_cases happ : reply.applies s.store (s.owners i).rangeID
    · have hcur := (applies_eq happ).symm
      obtain ⟨hwrite, hrenew⟩ := h.renew hi hcur
      rw [← hcur] at hwrite hrenew
      split
      · have hfull : (rangeIDToTaskIDBlock ((s.owners i).rangeID + 1)).start ≤
            (rangeIDToTaskIDBlock ((s.owners i).rangeID + 1)).last := by
          simp only [rangeIDToTaskIDBlock, rangeSize]
          omega
        have hgive := @Inv.giveID _ _ i hrenew (by simpa using hi) assigned req reqs (by simpa using hw)
          (by simpa using hfull)
        rw [setOwner_same, giveID_setOwner] at hgive
        exact hgive
      · exact hstop _ hwrite rfl
    rw [if_neg happ, if_neg (mt applies_of_reports happ)]
    exact hstop s h rfl
  · next hlt => exact h.giveID hi hw (not_lt.mp hlt)

lemma Inv.report (hcur : (s.owners i).rangeID = s.store.rangeID)
    (hrows : ∀ t ∈ tasksOf (s.owners i).assigned, (t.id, t.info) ∈ s.store.rows t.subqueue) :
    Inv K { s with reported := s.reported ++ tasksOf (s.owners i).assigned } := by
  have hcases : ∀ t, t ∈ tasksOf (s.owners i).assigned →
      ∃ r ∈ (s.owners i).assigned, r.1.subqueue = t.subqueue ∧ r.2 = t.id := by
    intro t ht
    obtain ⟨r, hr, rfl⟩ := mem_map.mp ht
    exact ⟨r, hr, rfl, rfl⟩
  refine h.world rfl (fun _ hid => hid) ?_ h.rows h.limbo ?_ ?_
  · rintro t ⟨hk, ht, hc, he⟩
    rcases mem_append.mp ht with hold | hnew
    · exact .inl ⟨hk, hold, hc, he⟩
    · exact .inr ⟨i, hi, hcur, hcases t hnew⟩
  · intro t ht
    rcases mem_append.mp ht with hold | hnew
    · exact h.reported t hold
    · exact h.rows _ _ (hrows t hnew)
  rintro t ⟨hk, ht, hc, he⟩
  rcases mem_append.mp ht with hold | hnew
  · exact h.stored t ⟨hk, hold, hc, he⟩
  · exact hrows t hnew

lemma Inv.owner_createTasks {reqs} (hw : (s.owners i).writer = .assigning reqs []) (ok : Bool) :
    (s.setOwner i ((s.owners i).createTasks reqs ok)).Inv K := by
  have ho := h.owners i hi
  have hassigned : (s.owners i).assigned = reqs := by simp [Owner.assigned, hw]
  refine h.owner hi hi rfl rfl ?_ ?_ (length_mapIdx ..) ?_ ?_
  · cases ok <;> simp [Owner.assigned, Owner.createTasks]
  · intro r hr
    refine ho.waiting r ?_
    cases ok <;> simpa [Owner.waiting, Owner.createTasks, hw] using hr
  · intro q sq hq
    simp only [Owner.createTasks, getElem?_mapIdx, map_eq_some_iff] at hq
    obtain ⟨sq, hsq, rfl⟩ := hq
    have hok := ho.subqueues q sq hsq
    obtain ⟨hstart, hall⟩ := hok.gives
    rw [hassigned] at hall
    have hlevel : sq.db.maxReadLevel ≤ (update reqs q sq.db.maxReadLevel).maxReadLevelAfter ∧
        (update reqs q sq.db.maxReadLevel).maxReadLevelAfter < (s.owners i).taskIDBlock.start := by
      rcases @maxReadLevelAfter_cases reqs q sq.db.maxReadLevel with heq | ⟨r, hr, hrq, heq⟩
      · exact ⟨heq.ge, heq.trans_lt hstart⟩
      rw [heq]
      exact ⟨(hall r hr hrq).le, (ho.assigned r (hassigned ▸ hr)).2.1⟩
    refine ⟨hok.safe.world hlevel.1 (fun _ hid => hid) fun _ ht => .inl ht, hok.ack, hlevel.2, ?_⟩
    cases ok <;> simp [Owner.assigned, Owner.createTasks]
  intro u hu
  cases ok with
  | false => simp [Owner.updates, Owner.createTasks] at hu
  | true =>
    simp only [Owner.updates, Owner.createTasks, if_true] at hu
    obtain ⟨⟨q, sq⟩, hzip, hu⟩ := mem_filterMap.mp hu
    split at hu
    · cases hu
    next hne =>
    cases hu
    have hsq : (s.owners i).subqueues[q]? = some sq := by
      obtain ⟨n, hn⟩ := getElem?_of_mem hzip
      obtain ⟨hrange, hsq⟩ := getElem?_zip_eq_some.mp hn
      obtain ⟨hlt, rfl⟩ := List.getElem?_eq_some_iff.mp hrange
      simpa using hsq
    refine ⟨fun hnil => hne (by simpa [update] using hnil), fun e he => ?_⟩
    obtain ⟨r, hr, hrq, hid⟩ := mem_tasksIn he
    exact hid ▸ (ho.subqueues q sq hsq).gives.2 r (hassigned ▸ hr) hrq

lemma Inv.createTasks {reqs reply updatesMetadata} (hw : (s.owners i).writer = .assigning reqs []) :
    (s.createTasks i (s.owners i) reqs reply updatesMetadata).Inv K := by
  have ho := h.owners i hi
  have hassigned : (s.owners i).assigned = reqs := by simp [assigned, hw]
  have htasks : ∀ t ∈ tasksOf reqs, (t.id, (t.subqueue, t.info)) ∈ s.issued := by
    intro t ht
    obtain ⟨r, hr, rfl⟩ := mem_map.mp ht
    exact (ho.assigned r (hassigned ▸ hr)).2.2
  unfold PriBacklog.createTasks
  simp only
  by_cases happ : reply.applies s.store (s.owners i).rangeID
  · rw [if_pos happ]
    have hcur := (applies_eq happ).symm
    have hrows := h.createRows htasks
    have hin : ∀ t ∈ tasksOf reqs, (t.id, t.info) ∈ (s.createRows (tasksOf reqs)).store.rows t.subqueue :=
      fun t ht => (mem_createRows htasks (htasks t ht)).mpr (.inl ht)
    -- both kinds of persistence have written the rows
    obtain ⟨s1, hs1, h1, howners, hreported, hrange, hin1⟩ : ∃ s1, (if updatesMetadata then
          (s.createRows (tasksOf reqs)).writeInfo (s.createRows (tasksOf reqs)).store.rangeID (s.owners i).info
        else s.createRows (tasksOf reqs)) = s1 ∧ s1.Inv K ∧ s1.owners = s.owners ∧ s1.reported = s.reported ∧
        s1.store.rangeID = s.store.rangeID ∧
        ∀ t ∈ tasksOf reqs, (t.id, t.info) ∈ s1.store.rows t.subqueue := by
      cases updatesMetadata with
      | true => exact ⟨_, rfl, hrows.writeOwn hi hcur, rfl, rfl, rfl, hin⟩
      | false => exact ⟨_, rfl, hrows, rfl, rfl, rfl, hin⟩
    rw [hs1]
    rw [← howners] at hi hcur hw hassigned ⊢
    rw [← hrange] at hcur
    split
    · have hreport := h1.report hi hcur (hassigned ▸ hin1)
      rw [hassigned, hreported] at hreport
      exact hreport.owner_createTasks hi hw _
    rw [← hreported]
    exact h1.owner_createTasks hi hw _
  rw [if_neg happ, if_neg (mt applies_of_reports happ)]
  split
  · have hlimbo : (s.setStore { s.store with limbo := s.store.limbo ++ tasksOf reqs }).Inv K := by
      refine h.world rfl (fun _ hid => hid) (fun t ht => .inl ht) h.rows ?_ h.reported h.stored
      intro t ht
      exact (mem_append.mp ht).elim (h.limbo t) (htasks t)
    exact hlimbo.owner_createTasks hi hw _
  · exact h.owner_createTasks hi hw _

end

/-! ### Ack levels -/

lemma grows_of_owners (hs : s'.owners = s.owners) : s.Grows s' := by
  intro j
  rw [hs]
  exact grows_of_eq rfl rfl

lemma grows_allocateSubqueue {priority reply} : s.Grows (s.allocateSubqueue i (s.owners i) priority reply) := by
  unfold allocateSubqueue
  simp only
  split
  · have hgrows : (s.owners i).Grows { s.owners i with subqueues := (s.owners i).subqueues ++
        [loadSubqueue s.now (newSubqueueLocked (s.owners i).rangeID priority)] } := by
      refine fun hi => ⟨hi, fun q sq hq => ⟨sq, ?_, le_rfl⟩⟩
      rw [List.getElem?_append_left (List.getElem?_eq_some_iff.mp hq).1]
      exact hq
    split <;> exact grows_update rfl hgrows
  · split <;> exact grows_of_owners rfl

lemma grows_assignTaskID {assigned req reqs reply} : s.Grows (s.assignTaskID i (s.owners i) assigned req reqs reply) := by
  unfold assignTaskID
  split
  · split
    · exact grows_update rfl (grows_of_eq rfl rfl)
    simp only
    split <;> split <;> exact grows_update rfl (grows_of_eq rfl rfl)
  · exact grows_update rfl (grows_of_eq rfl rfl)

lemma grows_createTasks {reqs reply updatesMetadata} :
    s.Grows (s.createTasks i (s.owners i) reqs reply updatesMetadata) := by
  have hgrows : ∀ ok, (s.owners i).Grows ((s.owners i).createTasks reqs ok) := fun ok =>
    grows_map rfl (fun _ => getElem?_mapIdx) fun _ _ => le_rfl
  unfold createTasks
  split
  · split <;> exact grows_update rfl (hgrows _)
  · split <;> exact grows_update rfl (hgrows _)

lemma grows_takeOver {reply} (hs : s.takeOver i reply = .ok s') : s.Grows s' := by
  unfold takeOver at hs
  simp only at hs
  split at hs
  iterate 2
    · next hl =>
      cases hs
      refine grows_update (i := i) (by split <;> rfl) fun hi => ?_
      rw [hl] at hi
      cases hi
  · cases hs

/-! ### Completions -/

lemma Inv.note (h : s.Inv K) {completed} (hc : ∀ id ∈ s.completed, id ∈ completed) : Inv K { s with completed } := by
  have howed : ∀ t, OwedIf K { s with completed } t → s.OwedIf K t := fun t ht =>
    ⟨ht.1, ht.2.1, fun hid => ht.2.2.1 (hc _ hid), ht.2.2.2⟩
  exact h.world rfl hc (fun t ht => .inl (howed t ht)) h.rows h.limbo h.reported fun t ht => h.stored t (howed t ht)

section

variable (h : s.Inv K) (hi : (s.owners i).lease = .held)

include h hi

lemma Inv.complete (t : PriTask) (respooled : List PriTask) : (s.complete i { s.owners i with respooled } t).Inv K ∧
      s.Grows (s.complete i { s.owners i with respooled } t) := by
  unfold PriBacklog.complete
  split
  · exact ⟨h, grows_refl s⟩
  next sq hq =>
  have hnote := @Inv.note K s h (if (t.id, false) ∈ sq.tr.outstandingTasks then t.id :: s.completed else s.completed)
    (by intro id hid; split <;> simp [hid])
  have hsq := (hnote.owners i hi).subqueues _ sq hq
  obtain ⟨hsafe, hack⟩ := @PriTaskReader.Safe.completeTask (s.owners i).config s.now _ _ _ _ hsq.safe t.id <| by
    intro hout
    rw [if_pos hout]
    refine ⟨mem_cons_self, ?_⟩
    rintro e ⟨-, -, hne, -⟩ heq
    exact hne (heq ▸ mem_cons_self)
  exact hnote.modify hi hi rfl rfl (.refl _) (hnote.owners i hi).waiting (fun _ hu => hu) hq _ hsafe le_rfl rfl hack rfl

/-! ### Readers -/

variable {q : Nat} {sq : Subqueue} (hq : (s.owners i).subqueues[q]? = some sq)

include hq

lemma Inv.setReader {tr : PriTaskReader} (hsafe : tr.Safe (s.OwedIn K q) (· ∈ s.completed) sq.db.maxReadLevel)
    (hack : sq.tr.ackLevel ≤ tr.ackLevel) : let s' := s.setOwner i ((s.owners i).modify q fun sq => { sq with tr })
    s'.Inv K ∧ s.Grows s' := by
  have ho := h.owners i hi
  exact h.modify hi hi rfl rfl (.refl _) ho.waiting (fun _ hu => hu) hq _ hsafe
    ((ho.subqueues q sq hq).ack.trans hack) rfl hack rfl

lemma Inv.deleteRows {call : GCCall}
    (hgc : sq.tr.inGC = some call) {left : SortedMap Int TaskInfo} (hsub : ∀ e ∈ left, e ∈ s.store.rows q)
    (hleft : ∀ e ∈ s.store.rows q, call.ackLevel < e.1 → e ∈ left) :
    (s.setStore { s.store with rows := Function.update s.store.rows q left }).Inv K := by
  have hsafe := ((h.owners i hi).subqueues q sq hq).safe
  refine h.world rfl (fun _ hid => hid) (fun t ht => .inl ht) ?_ h.limbo h.reported ?_
  · intro q' e he
    refine h.rows q' e ?_
    rcases eq_or_ne q' q with rfl | hne
    · simp only [setStore, update_self] at he
      exact hsub e he
    · simpa only [setStore, update_of_ne hne] using he
  intro t ht
  have hin := h.stored t ht
  rcases eq_or_ne t.subqueue q with rfl | hne
  · simp only [setStore, update_self]
    exact hleft _ hin ((hsafe.gc call (hgc ▸ rfl)).trans_lt (hsafe.above (t.id, t.info) ht))
  · simpa only [setStore, update_of_ne hne] using hin

inductive ReaderStep (K : Prop) (s : PriBacklog) (i q : Nat) (sq : Subqueue) : PriBacklog → Prop
  | reader (tr : PriTaskReader) (hsafe : tr.Safe (s.OwedIn K q) (· ∈ s.completed) sq.db.maxReadLevel)
    (hack : sq.tr.ackLevel ≤ tr.ackLevel) :
    ReaderStep K s i q sq (s.setOwner i ((s.owners i).modify q fun sq => { sq with tr }))
  | rows (call : GCCall) (left : SortedMap Int TaskInfo) (hgc : sq.tr.inGC = some call)
    (hsub : ∀ e ∈ left, e ∈ s.store.rows q)
    (hleft : ∀ e ∈ s.store.rows q, call.ackLevel < e.1 → e ∈ left) :
    ReaderStep K s i q sq (s.setStore { s.store with rows := Function.update s.store.rows q left })

lemma Inv.readerStep_cases {e} (hs : s.readerStep i (s.owners i) q sq e = .ok s') : ReaderStep K s i q sq s' := by
  have hsafe := ((h.owners i hi).subqueues q sq hq).safe
  have hset : ∀ tr, readerStep.set s i (s.owners i) q tr = .ok s' →
      tr.Safe (s.OwedIn K q) (· ∈ s.completed) sq.db.maxReadLevel → sq.tr.ackLevel ≤ tr.ackLevel →
      ReaderStep K s i q sq s' := by
    intro tr hs htr hack
    cases hs
    exact .reader tr htr hack
  cases e with simp only [readerStep] at hs
  | wake =>
    split at hs
    · next hw => exact hset _ hs (hsafe.wake _ hw.2).1 (hsafe.wake _ hw.2).2.ge
    · cases hs
  | capture =>
    split at hs
    · exact hset _ hs (hsafe.setPump rfl) le_rfl
    · cases hs
  | getMaxReadLevel =>
    split at hs
    · next r hp =>
      have hpump := hsafe.pump
      rw [hp] at hpump
      obtain rfl : r = sq.tr.readLevel := hpump
      exact hset _ hs (hsafe.setPump ⟨le_rfl, hsafe.le_max, le_rfl, fun _ _ hlt => hlt⟩) le_rfl
    · cases hs
  | getTasks =>
    split at hs
    · next hp => exact hset _ hs (hsafe.setPump (hsafe.getTaskBatch hp fun t ht => h.stored _ ht)) le_rfl
    · cases hs
  | getTasksFails =>
    split at hs
    · exact hset _ hs (hsafe.setPump trivial) le_rfl
    · cases hs
  | batch =>
    obtain ⟨hdone, hack⟩ := hsafe.pumpBatch fun t ht => ht.2.2.2
    exact hset _ hs hdone hack
  | backoffFires =>
    split at hs
    · exact hset _ hs (hsafe.setPump hsafe.pump) le_rfl
    · cases hs
  | deleteRows spared =>
    split at hs
    · next call hgc =>
      cases hs
      refine .rows call _ hgc (fun e he => (mem_select.mp he).1) fun e he hlt => ?_
      exact mem_select.mpr ⟨he, decide_eq_true (.inl (by omega))⟩
    · cases hs
  | gcDone result =>
    split at hs
    · next call _ => exact hset _ hs (hsafe.gcDone call result).1 (hsafe.gcDone call result).2.ge
    · cases hs

lemma Inv.readerStep {e} (hs : s.readerStep i (s.owners i) q sq e = .ok s') : s'.Inv K ∧ s.Grows s' := by
  cases h.readerStep_cases hi hq hs with
  | reader tr htr hack => exact h.setReader hi hq htr hack
  | rows call left hgc hsub hleft => exact ⟨h.deleteRows hi hq hgc hsub hleft, grows_of_owners rfl⟩

/-! ### Steps -/

omit hq

lemma Inv.addRequest {req : Request} (hlt : req.subqueue < (s.owners i).subqueues.length) :
    let s' := s.setOwner i { s.owners i with appendCh := (s.owners i).appendCh ++ [req] }
    s'.Inv K ∧ s.Grows s' := by
  have ho := h.owners i hi
  refine h.requests hi hi rfl rfl (.refl _) ?_ (fun _ hu => hu) rfl
  intro r hr
  have hcases : r ∈ (s.owners i).waiting ∨ r = req := by
    simp only [waiting] at hr ⊢
    cases hw : (s.owners i).writer <;> simp only [hw] at hr ⊢ <;> simp at hr ⊢ <;> grind
  rcases hcases with hold | rfl
  · exact ho.waiting r hold
  · exact hlt

lemma Inv.ownerStep {e} (hs : s.ownerStep i (s.owners i) e = .ok s') : s'.Inv K ∧ s.Grows s' := by
  have ho := h.owners i hi
  cases e with simp only [PriBacklog.ownerStep] at hs
  | allocateSubqueue priority reply =>
    cases hs
    exact ⟨h.allocateSubqueue hi priority reply, grows_allocateSubqueue⟩
  | syncState reply =>
    cases hs
    refine ⟨?_, grows_of_owners (by split <;> rfl)⟩
    split
    · next happ =>
      have hcur := applies_eq happ
      rw [← hcur]
      exact h.writeOwn hi hcur.symm
    · exact h
  | stop =>
    cases hs
    refine ⟨h.owner hi hi rfl rfl (.refl _) ho.waiting (length_map _) ?_ ho.updates,
      grows_update rfl (grows_map rfl (fun _ => getElem?_map) fun _ _ => le_rfl)⟩
    intro q sq hq
    obtain ⟨sq, hsq, rfl⟩ := getElem?_map_cases hq
    have hok := ho.subqueues q sq hsq
    exact ⟨hok.safe, le_rfl, hok.gives⟩
  | spool subqueue taskInfo =>
    obtain ⟨hlt, rfl⟩ := guard_ok hs
    exact h.addRequest hi hlt
  | takeBatch n =>
    split at hs
    · next req reqs hw hch =>
      cases hs
      refine h.requests hi hi rfl rfl (nil_sublist _) ?_ (by simp [updates]) rfl
      intro r hr
      refine ho.waiting r ?_
      simp only [waiting, hw, hch]
      rcases mem_append.mp hr with hr | hr
      · exact mem_cons_of_mem _ (mem_of_mem_drop hr)
      · exact (List.Sublist.cons_cons req (take_sublist n reqs)).mem hr
    · cases hs
  | assignTaskID reply =>
    split at hs
    · next hw =>
      cases hs
      exact ⟨h.assignTaskID hi hw, grows_assignTaskID⟩
    · cases hs
  | createTasks reply updatesMetadata =>
    split at hs
    · next hw =>
      cases hs
      exact ⟨h.createTasks hi hw, grows_createTasks⟩
    · cases hs
  | signalNewTasks q =>
    split at hs
    · next reqs updates sq hw hq =>
      split at hs
      · next u hu =>
        cases hs
        have hupdates : (s.owners i).updates = updates := by simp [Owner.updates, hw]
        have hsq := ho.subqueues q sq hq
        obtain ⟨hne, hnew⟩ := ho.updates u (hupdates ▸ mem_of_find?_eq_some hu)
        rw [hsq.safe.signalNewTasks_eq hne hnew]
        refine h.modify hi hi rfl rfl (nil_sublist _) ?_ ?_ hq _ (hsq.safe.setPump hsq.safe.pump) hsq.ack rfl le_rfl rfl
        · simpa [Owner.waiting, Owner.modify, hw] using ho.waiting
        rw [hupdates]
        exact fun u' hu' => mem_of_mem_erase hu'
      · cases hs
    · cases hs
  | respond =>
    split at hs
    · next hw =>
      cases hs
      refine h.requests hi hi rfl rfl (nil_sublist _) ?_ (by simp [updates]) rfl
      simpa [waiting, hw] using ho.waiting
    · cases hs
  | completeTask t res =>
    cases res with
    | success =>
      cases hs
      exact h.complete hi t (s.owners i).respooled
    | transient =>
      cases hs
      exact ⟨h, grows_refl s⟩
    | failed =>
      cases hs
      exact h.requests hi hi rfl rfl (.refl _) ho.waiting (fun _ hu => hu) rfl
  | respool t subqueue =>
    obtain ⟨hlt, rfl⟩ := guard_ok hs
    exact h.addRequest hi hlt.2
  | respooled t =>
    obtain ⟨-, rfl⟩ := guard_ok hs
    exact h.complete hi t _
  | reader q e =>
    split at hs
    · next hq => exact h.readerStep hi hq hs
    · cases hs

end

theorem step_inv {e} (h : s.Inv K) (hkeeps : K → s.KeepsSubqueues e) (hs : step s e = .ok s') : s'.Inv K ∧ s.Grows s' := by
  cases e with simp only [step] at hs
  | configure i defaultPriorityKey config =>
    cases hs
    by_cases hi : (s.owners i).lease = .held
    · exact h.requests hi hi rfl rfl (.refl _) (h.owners i hi).waiting (fun _ hu => hu) rfl
    refine ⟨h.release hi (fun r info hf => ?_) (h.unheld i hi), grows_update rfl (grows_of_eq rfl rfl)⟩
    obtain ⟨hr, hle⟩ := h.found i r info hf
    exact ⟨hr, hle, fun heq => .inr ⟨i, heq ▸ hf⟩⟩
  | getTaskQueue i =>
    obtain ⟨hi, rfl⟩ := guard_ok hs
    refine ⟨h.release ?_ ?_ (h.unheld i (by simp [hi])), grows_update rfl fun hh => ?_⟩
    · simp only
      split <;> simp
    · intro r info hf
      have hnonneg := h.nonneg
      split at hf
      · cases hf
      cases hf
      exact ⟨by omega, le_rfl, fun _ => .inl rfl⟩
    rw [hi] at hh
    cases hh
  | takeOver i reply => exact ⟨h.takeOver hkeeps hs, grows_takeOver hs⟩
  | owner i e =>
    split at hs
    · next hi => exact h.ownerStep hi hs
    · cases hs
  | land t =>
    obtain ⟨ht, rfl⟩ := guard_ok hs
    refine ⟨h.createRows fun t' ht' => ?_, grows_of_owners rfl⟩
    obtain rfl := mem_singleton.mp ht'
    exact h.limbo t' ht
  | tick d =>
    cases hs
    have howed : ∀ t, OwedIf K { s with now := s.now + d } t → s.OwedIf K t := fun t ht =>
      ⟨ht.1, ht.2.1, ht.2.2.1, fun he => ht.2.2.2 (TaskInfo.isTaskExpired_mono (by simp) he)⟩
    exact ⟨h.world rfl (fun _ hid => hid) (fun t ht => .inl (howed t ht)) h.rows h.limbo
      h.reported fun t ht => h.stored t (howed t ht), grows_of_owners rfl⟩

lemma inv_init (K : Prop) : init.Inv K := by
  have hlease : ∀ i, (init.owners i).lease = .none := fun _ => rfl
  have howed : ∀ t, ¬ init.OwedIf K t := fun t ht => by simpa [init] using ht.2.1
  refine ⟨le_rfl, by simp [init], by simp [init], by simp [init], by simp [init],
    fun t ht => absurd ht (howed t), by simp [hlease], by simp [hlease], fun _ _ => ⟨rfl, rfl⟩, ?_,
    by simp [hlease], fun t ht => absurd ht (howed t), by simp [hlease]⟩
  intro info hk q a ha
  obtain rfl : info = init.store.info := by simpa [Known, hlease] using hk
  obtain ⟨rfl, rfl⟩ : q = 0 ∧ a = 0 := by simpa [TaskQueueInfo.HasLevel, init] using ha
  exact ⟨by simp [init], fun t ht => absurd ht (howed t), by simp [hlease]⟩

/-! ### Runs -/

/-- No task is lost: in every subqueue of every owner the ack level is at most the read level, and a task
that was reported as written and is neither completed nor expired is above the ack level and has its
row. -/
structure LosesNothing (s : PriBacklog) : Prop where
  le : ∀ (i q : Nat) (sq : Subqueue), (s.owners i).lease = .held → (s.owners i).subqueues[q]? = some sq →
    sq.tr.ackLevel ≤ sq.tr.readLevel
  above : ∀ t, s.Owed t → ∀ (i : Nat) (sq : Subqueue), (s.owners i).lease = .held →
    (s.owners i).subqueues[t.subqueue]? = some sq → sq.tr.ackLevel < t.id
  stored : ∀ t, s.Owed t → (t.id, t.info) ∈ s.store.rows t.subqueue

lemma Inv.losesNothing (h : s.Inv True) : s.LosesNothing where
  le i q sq hi hq := ((h.owners i hi).subqueues q sq hq).safe.le
  above t ht i sq hi hq := ((h.owners i hi).subqueues _ sq hq).safe.above (t.id, t.info) ⟨trivial, ht⟩
  stored t ht := h.stored t ⟨trivial, ht⟩

/-- In every run whose take-overs keep the subqueues, no task is lost and no ack level decreases. -/
theorem priBacklog_losesNothing {es es' : List Event} (al : Along KeepsSubqueues step init (es ++ es'))
    (hr : run step init es = .ok s) (hr' : run step s es' = .ok s') : s'.LosesNothing ∧ s.Grows s' := by
  have hinv : s.Inv True :=
    al.of_append.inv (fun _ _ _ hI hP hs => (step_inv hI (fun _ => hP) hs).1) (inv_init True) hr
  have hend : s'.Inv True ∧ s.Grows s' := by
    refine (al.append hr).inv (I := fun s' => s'.Inv True ∧ s.Grows s') ?_ ⟨hinv, grows_refl s⟩ hr'
    rintro s₁ e s₂ ⟨hI, hgrows⟩ hP hs
    have hstep := step_inv hI (fun _ => hP) hs
    exact ⟨hstep.1, hgrows.trans hstep.2⟩
  exact ⟨hend.1.losesNothing, hend.2⟩

/-! ### The condition is needed -/

def lasting : TaskInfo := ⟨0⟩

/-- An owner adds a subqueue, and writes a task to subqueue 1. -/
def addsSubqueue (i : Nat) : List Event :=
  [.allocateSubqueue 1 .ok, .spool 1 lasting, .takeBatch 0, .assignTaskID .ok, .createTasks .ok false].map (.owner i)

/-- Owner 1 takes over from owner 0; some events happen before it reads the task queue, and some before
it writes it. -/
def takeOverRun (before between : List Event) : List Event :=
  [.getTaskQueue 0, .takeOver 0 .ok] ++ before ++ [.getTaskQueue 1] ++ between ++ [.takeOver 1 .ok]

/-- The task of `addsSubqueue` is read and completed, and rows are deleted. -/
def completesTask (i : Nat) (id : Int) : List Event :=
  [.owner i (.signalNewTasks 1), .owner i (.reader 1 .wake), .owner i (.reader 1 .capture),
    .owner i (.reader 1 .getMaxReadLevel), .owner i (.reader 1 .getTasks), .owner i (.reader 1 .batch), .tick 1,
    .owner i (.completeTask ⟨1, id, lasting⟩ .success), .owner i (.reader 1 (.deleteRows []))]

/-- The subqueue is there before the task queue is read. -/
theorem priBacklog_losesNothing_takenOver : ∃ s s',
    Along KeepsSubqueues step init (takeOverRun (addsSubqueue 0) [] ++ addsSubqueue 1) ∧
    run step init (takeOverRun (addsSubqueue 0) []) = .ok s ∧ run step s (addsSubqueue 1) = .ok s' ∧
    s'.Owed ⟨1, 1, lasting⟩ ∧ s'.LosesNothing ∧ s.Grows s' := by
  have al : Along KeepsSubqueues step init (takeOverRun (addsSubqueue 0) [] ++ addsSubqueue 1) := by
    decide +kernel
  obtain ⟨s', hr, howed⟩ : ∃ s, run step init (takeOverRun (addsSubqueue 0) [] ++ addsSubqueue 1) = .ok s ∧
      s.Owed ⟨1, 1, lasting⟩ := by decide +kernel
  obtain ⟨s, hs, hs'⟩ := run_append hr
  exact ⟨s, s', al, hs, hs', howed, priBacklog_losesNothing al hs hs'⟩

/-- Between the read and the write of a take-over, owner 0 adds a subqueue and a task. Owner 1 does not
know of it: the next subqueue that it adds has the same number and starts above the task, and the row of
the task is deleted. -/
theorem droppedSubqueue_loses : ∃ s,
    run step init (takeOverRun [] (addsSubqueue 0) ++ addsSubqueue 1 ++ completesTask 1 100001) = .ok s ∧
    s.Owed ⟨1, 1, lasting⟩ ∧ (s.owners 1).lease = .held ∧
    (∃ sq, (s.owners 1).subqueues[1]? = some sq ∧ ¬ sq.tr.ackLevel < 1) ∧ (1, lasting) ∉ s.store.rows 1 := by
  simp only [← Option.mem_def]
  decide +kernel

/-! ### Leases -/

/-- The ids that an owner may still give. -/
def Owner.ids (o : Owner) : Set Int := Set.Icc o.taskIDBlock.start o.taskIDBlock.last

/-- The ids of an owner are new, and its own. The store accepts the writes of one owner only. -/
theorem leases_exclusive {es} (hr : run step init es = .ok s) (hi : (s.owners i).lease = .held) : (∀ e ∈ s.issued, e.1 ∉ (s.owners i).ids) ∧
    ∀ j ≠ i, (s.owners j).lease = .held → Disjoint (s.owners i).ids (s.owners j).ids ∧
      ((s.owners i).rangeID = s.store.rangeID → (s.owners j).rangeID < s.store.rangeID) := by
  have al : Along (fun _ _ => True) step init es := .of_forall (fun _ _ _ => trivial) init
  have h : s.Inv False := al.inv (fun _ _ _ hI _ hs => (step_inv hI nofun hs).1) (inv_init False) hr
  have ho := h.owners i hi
  refine ⟨ho.free, fun j hne hj => ⟨Set.disjoint_left.mpr fun id hid hid' => ?_, fun hcur => ?_⟩⟩
  · have hrange := (h.order j i hne hj hi).ne
    have hblock := ho.block
    have hblock' := (h.owners j hj).block
    simp only [Owner.ids, Set.mem_Icc, rangeSize] at *
    omega
  · exact hcur ▸ h.older hi hj hcur hne.symm

theorem leases_exclusive_takenOver : ∃ s, run step init (takeOverRun [] (addsSubqueue 0)) = .ok s ∧
    (s.owners 0).lease = .held ∧ (s.owners 0).rangeID < s.store.rangeID := by
  obtain ⟨s, hr, h0, h1, hcur⟩ : ∃ s, run step init (takeOverRun [] (addsSubqueue 0)) = .ok s ∧
      (s.owners 0).lease = .held ∧ (s.owners 1).lease = .held ∧ (s.owners 1).rangeID = s.store.rangeID := by
    decide +kernel
  exact ⟨s, hr, h0, ((leases_exclusive hr h1).2 0 (by decide) h0).2 hcur⟩

end FastOrchestration.Matching.PriBacklog
