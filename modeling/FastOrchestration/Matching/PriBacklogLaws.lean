import FastOrchestration.Matching.PriBacklog

/-!
# Leases, ids and levels

The invariant of the priority backlog. Each lease has a block of ids of its own, later leases have higher
blocks, and only the owner of the current lease can create tasks. So the ids that can still be reported
lie above every level that an owner has, and above every ack level that is persisted (`Low`).

The invariant is kept by four kinds of changes, and every step is made of them: an owner acts
(`Inv.act`), rows or the records of what happened change (`Inv.world`), the owner of the current lease
writes the task queue (`Inv.writeInfo`), or the lease is taken (`Inv.newLease`).
-/

namespace FastOrchestration.Matching.PriBacklog

open Lib

def Owed (s : PriBacklog) (t : PriTask) : Prop :=
  t ∈ s.reported ∧ t.id ∉ s.completed ∧ ¬ t.info.isTaskExpired s.now

instance (s : PriBacklog) (t : PriTask) : Decidable (s.Owed t) := inferInstanceAs (Decidable (_ ∧ _ ∧ _))

/-- The owed tasks that the invariant is about: all of them if `K`, else none. `K` says that take-overs
keep the subqueues; without it the invariant is about leases and ids only. -/
def OwedIf (K : Prop) (s : PriBacklog) (t : PriTask) : Prop := K ∧ s.Owed t

def OwedIn (K : Prop) (s : PriBacklog) (q : Nat) (e : Int × TaskInfo) : Prop := s.OwedIf K ⟨q, e.1, e.2⟩

namespace Owner

def waiting (o : Owner) : List Request :=
  match o.writer with
  | .assigning _ reqs => o.appendCh ++ reqs
  | _ => o.appendCh

def updates (o : Owner) : List (Nat × PriTaskReader.Response) :=
  match o.writer with
  | .signalling _ updates => updates
  | _ => []

/-- The ids that the owner has given or may give to tasks of a subqueue are above a level. -/
def GivesAbove (o : Owner) (q : Nat) (a : Int) : Prop :=
  a < o.taskIDBlock.start ∧ ∀ r ∈ o.assigned, r.1.subqueue = q → a < r.2

end Owner

structure SubqueueOk (K : Prop) (s : PriBacklog) (o : Owner) (q : Nat) (sq : Subqueue) : Prop where
  safe : sq.tr.Safe (s.OwedIn K q) (· ∈ s.completed) sq.db.maxReadLevel
  ack : sq.db.ackLevel ≤ sq.tr.ackLevel
  gives : o.GivesAbove q sq.db.maxReadLevel

structure OwnerOk (K : Prop) (s : PriBacklog) (o : Owner) : Prop where
  range : 1 ≤ o.rangeID ∧ o.rangeID ≤ s.store.rangeID
  block : o.taskIDBlock.last = o.rangeID * rangeSize ∧
    (o.rangeID - 1) * rangeSize < o.taskIDBlock.start ∧ o.taskIDBlock.start ≤ o.taskIDBlock.last + 1
  free : ∀ e ∈ s.issued, ¬ (o.taskIDBlock.start ≤ e.1 ∧ e.1 ≤ o.taskIDBlock.last)
  waiting : ∀ r ∈ o.waiting, r.subqueue < o.subqueues.length
  assigned : ∀ r ∈ o.assigned, r.1.subqueue < o.subqueues.length ∧ r.2 < o.taskIDBlock.start ∧
    (r.2, (r.1.subqueue, r.1.taskInfo)) ∈ s.issued
  sorted : o.assigned.Pairwise (·.2 < ·.2)
  subqueues : ∀ q sq, o.subqueues[q]? = some sq → s.SubqueueOk K o q sq
  updates : ∀ u ∈ o.updates, u.2.tasks ≠ [] ∧ ∀ t ∈ u.2.tasks, u.2.maxReadLevelBefore < t.1

/-- A level of a subqueue that every task is above that is owed or can still be reported. -/
structure Low (K : Prop) (s : PriBacklog) (q : Nat) (a : Int) : Prop where
  bound : a ≤ s.store.rangeID * rangeSize
  owed : ∀ t, s.OwedIf K t → t.subqueue = q → a < t.id
  gives : ∀ i, (s.owners i).lease = .held → (s.owners i).rangeID = s.store.rangeID → (s.owners i).GivesAbove q a

/-- An ack level of the task queue. Subqueue 0 may have it in two places. -/
def TaskQueueInfo.HasLevel (info : TaskQueueInfo) (q : Nat) (a : Int) : Prop :=
  q = 0 ∧ a = info.ackLevel ∨ ∃ sq, info.subqueues[q]? = some sq ∧ a = sq.ackLevel

/-- What is persisted about the task queue, or was read under the current lease for a take-over. -/
def Known (s : PriBacklog) (info : TaskQueueInfo) : Prop :=
  info = s.store.info ∨ ∃ i, (s.owners i).lease = .found s.store.rangeID info

/-- The owner of the current lease knows every subqueue that has tasks, and so does persistence. -/
structure Current (K : Prop) (s : PriBacklog) (o : Owner) : Prop where
  knows : ∀ t, s.OwedIf K t → t.subqueue < o.subqueues.length
  persisted : o.subqueues.length ≤ s.store.info.subqueues.length

/-- Of two leases one is later, and has higher ids. -/
structure Ordered (o o' : Owner) : Prop where
  ne : o.rangeID ≠ o'.rangeID
  later : o'.rangeID < o.rangeID → ∀ q, o.GivesAbove q (o'.rangeID * rangeSize)

structure Inv (K : Prop) (s : PriBacklog) : Prop where
  nonneg : 0 ≤ s.store.rangeID
  issued : ∀ e ∈ s.issued, 1 ≤ e.1 ∧ e.1 ≤ s.store.rangeID * rangeSize
  rows : ∀ q, ∀ e ∈ s.store.rows q, (e.1, (q, e.2)) ∈ s.issued
  limbo : ∀ t ∈ s.store.limbo, (t.id, (t.subqueue, t.info)) ∈ s.issued
  reported : ∀ t ∈ s.reported, (t.id, (t.subqueue, t.info)) ∈ s.issued
  stored : ∀ t, s.OwedIf K t → (t.id, t.info) ∈ s.store.rows t.subqueue
  owners : ∀ i, (s.owners i).lease = .held → s.OwnerOk K (s.owners i)
  order : ∀ i j, i ≠ j → (s.owners i).lease = .held → (s.owners j).lease = .held → Ordered (s.owners i) (s.owners j)
  unheld : ∀ i, (s.owners i).lease ≠ .held → (s.owners i).appendCh = [] ∧ (s.owners i).writer = .idle
  known : ∀ info, s.Known info → ∀ q a, info.HasLevel q a → s.Low K q a
  found : ∀ i r info, (s.owners i).lease = .found r info → 1 ≤ r ∧ r ≤ s.store.rangeID
  covered : ∀ t, s.OwedIf K t → t.subqueue < s.store.info.subqueues.length
  current : ∀ i, (s.owners i).lease = .held → (s.owners i).rangeID = s.store.rangeID → s.Current K (s.owners i)

variable {K : Prop} {s s' : PriBacklog} {i : Nat} {o : Owner}

/-! ### Owners -/

@[simp]
lemma setOwner_same : (s.setOwner i o).owners i = o := Function.update_self ..

lemma setOwner_ne {j} (h : j ≠ i) : (s.setOwner i o).owners j = s.owners j :=
  Function.update_of_ne h ..

lemma owner_cases (s i o j) : i = j ∧ (setOwner s i o).owners j = o ∨ i ≠ j ∧ (setOwner s i o).owners j = s.owners j :=
  (eq_or_ne i j).imp (fun h => ⟨h, h ▸ setOwner_same⟩) fun h => ⟨h, setOwner_ne h.symm⟩

lemma modify_cases {q q' f sq} (h : (o.modify q f).subqueues[q']? = some sq) :
    (q' = q ∧ ∃ sq0, o.subqueues[q]? = some sq0 ∧ sq = f sq0) ∨ o.subqueues[q']? = some sq := by
  simp only [Owner.modify, List.getElem?_modify, Option.map_eq_map, Option.map_eq_some_iff] at h
  obtain ⟨sq0, h, rfl⟩ := h
  split
  · next heq =>
    subst heq
    exact .inl ⟨rfl, sq0, h, rfl⟩
  · exact .inr h

lemma OwnerOk.world (h : s.OwnerOk K o) (hrange : s.store.rangeID ≤ s'.store.rangeID)
    (hissued : ∀ e ∈ s.issued, e ∈ s'.issued)
    (hfree : ∀ e ∈ s'.issued, ¬ (o.taskIDBlock.start ≤ e.1 ∧ e.1 ≤ o.taskIDBlock.last))
    (hc : ∀ id ∈ s.completed, id ∈ s'.completed)
    (howed : ∀ t, s'.OwedIf K t → s.OwedIf K t ∨
      ∀ sq, o.subqueues[t.subqueue]? = some sq → sq.db.maxReadLevel < t.id) : s'.OwnerOk K o := by
  refine ⟨⟨h.range.1, h.range.2.trans hrange⟩, h.block, hfree, h.waiting, ?_, h.sorted, ?_, h.updates⟩
  · intro r hr
    obtain ⟨hsub, hlt, hin⟩ := h.assigned r hr
    exact ⟨hsub, hlt, hissued _ hin⟩
  intro q sq hq
  have hsq := h.subqueues q sq hq
  refine ⟨hsq.safe.world le_rfl hc fun t ht => ?_, hsq.ack, hsq.gives⟩
  exact (howed _ ht).imp_right fun hnew => hnew sq hq

lemma SubqueueOk.le_last {q} {sq : Subqueue} (h : s.SubqueueOk K o q sq) (ho : s.OwnerOk K o) :
    sq.db.maxReadLevel ≤ o.rangeID * rangeSize := by
  have hstart := h.gives.1
  have hblock := ho.block
  omega

section

variable (hi : (s.owners i).lease = .held) (h : s.Inv K) {j : Nat} (hj : (s.owners j).lease = .held)
  (hcur : (s.owners i).rangeID = s.store.rangeID)

include hi h hj hcur

lemma Inv.older (hne : i ≠ j) : (s.owners j).rangeID < (s.owners i).rangeID := by
  have hle := (h.owners j hj).range.2
  have := (h.order i j hne hi hj).ne
  omega

lemma Inv.current_unique (hcurj : (s.owners j).rangeID = s.store.rangeID) : i = j := by
  by_contra hne
  exact (h.order i j hne hi hj).ne (hcur.trans hcurj.symm)

lemma Inv.level_lt_assigned {r} (hr : r ∈ (s.owners i).assigned) {sq : Subqueue}
    (hsq : (s.owners j).subqueues[r.1.subqueue]? = some sq) : sq.db.maxReadLevel < r.2 := by
  have hok := (h.owners j hj).subqueues _ sq hsq
  by_cases hij : i = j
  · subst hij
    exact hok.gives.2 r hr rfl
  have hlt := ((h.order i j hij hi hj).later (h.older hi hj hcur hij) r.1.subqueue).2 r hr rfl
  exact (hok.le_last (h.owners j hj)).trans_lt hlt

/-! ### Changes that keep the invariant -/

omit hj hcur

omit hi in
lemma Inv.act {m : SortedMap Int (Nat × TaskInfo)} (hm : ∀ e ∈ s.issued, e ∈ m)
    (hissued : ∀ e ∈ m, 1 ≤ e.1 ∧ e.1 ≤ s.store.rangeID * rangeSize)
    (hfree : ∀ j, i ≠ j → (s.owners j).lease = .held → ∀ e ∈ m,
      ¬ ((s.owners j).taskIDBlock.start ≤ e.1 ∧ e.1 ≤ (s.owners j).taskIDBlock.last))
    (hok : o.lease = .held → ({ s.setOwner i o with issued := m } : PriBacklog).OwnerOk K o)
    (horder : o.lease = .held → ∀ j, i ≠ j → (s.owners j).lease = .held →
      Ordered o (s.owners j) ∧ Ordered (s.owners j) o)
    (hcur : o.lease = .held → o.rangeID = s.store.rangeID → s.Current K o)
    (hgives : o.lease = .held → o.rangeID = s.store.rangeID →
      ∀ info, s.Known info → ∀ q a, info.HasLevel q a → o.GivesAbove q a)
    (hfound : ∀ r info, o.lease = .found r info → 1 ≤ r ∧ r ≤ s.store.rangeID ∧ (r = s.store.rangeID → s.Known info))
    (hidle : o.lease ≠ .held → o.appendCh = [] ∧ o.writer = .idle) :
    Inv K { s.setOwner i o with issued := m } := by
  refine ⟨h.nonneg, hissued, fun q e he => hm _ (h.rows q e he), fun t ht => hm _ (h.limbo t ht),
    fun t ht => hm _ (h.reported t ht), h.stored, ?_, ?_, ?_, ?_, ?_, h.covered, ?_⟩
  · intro j hj
    obtain ⟨rfl, heq⟩ | ⟨hji, heq⟩ := owner_cases s i o j <;> simp only [heq] at hj ⊢
    · exact hok hj
    exact (h.owners j hj).world le_rfl hm (hfree j hji hj) (fun id hid => hid) fun t ht => .inl ht
  · intro j k hjk hj hk
    obtain ⟨rfl, heq⟩ | ⟨hji, heq⟩ := owner_cases s i o j <;> simp only [heq] at hj ⊢
    · rw [setOwner_ne (Ne.symm hjk)] at hk ⊢
      exact (horder hj k hjk hk).1
    obtain ⟨rfl, heq⟩ | ⟨-, heq⟩ := owner_cases s i o k <;> simp only [heq] at hk ⊢
    · exact (horder hk j hji hj).2
    exact h.order j k hjk hj hk
  · intro j hj
    obtain ⟨rfl, heq⟩ | ⟨hji, heq⟩ := owner_cases s i o j <;> simp only [heq] at hj ⊢
    · exact hidle hj
    exact h.unheld j hj
  · intro info hinfo q a hq
    have hknown : s.Known info := by
      obtain hinfo | ⟨j, hj⟩ := hinfo
      · exact .inl hinfo
      obtain ⟨rfl, heq⟩ | ⟨hji, heq⟩ := owner_cases s i o j <;> simp only [heq] at hj
      · exact (hfound _ info hj).2.2 rfl
      exact .inr ⟨j, hj⟩
    have hlow := h.known info hknown q a hq
    refine ⟨hlow.bound, hlow.owed, fun j hj hr => ?_⟩
    obtain ⟨rfl, heq⟩ | ⟨hji, heq⟩ := owner_cases s i o j <;> simp only [heq] at hj hr ⊢
    · exact hgives hj hr info hknown q a hq
    exact hlow.gives j hj hr
  · intro j r info hj
    obtain ⟨rfl, heq⟩ | ⟨hji, heq⟩ := owner_cases s i o j <;> simp only [heq] at hj
    · exact ⟨(hfound r info hj).1, (hfound r info hj).2.1⟩
    exact h.found j r info hj
  intro j hj hr
  obtain ⟨rfl, heq⟩ | ⟨hji, heq⟩ := owner_cases s i o j <;> simp only [heq] at hj hr ⊢
  · exact ⟨(hcur hj hr).knows, (hcur hj hr).persisted⟩
  exact ⟨(h.current j hj hr).knows, (h.current j hj hr).persisted⟩

/-- An owner acts under its lease and gives no ids; ids may have been written. -/
lemma Inv.setOwner (hlease : o.lease = .held)
    (hrange : o.rangeID = (s.owners i).rangeID) (hblock : o.taskIDBlock = (s.owners i).taskIDBlock)
    (hassigned : ∀ r ∈ o.assigned, r ∈ (s.owners i).assigned) (hok : s.OwnerOk K o)
    (hcur : o.rangeID = s.store.rangeID → s.Current K o) : (s.setOwner i o).Inv K := by
  have hgives : ∀ q a, (s.owners i).GivesAbove q a → o.GivesAbove q a := fun q a hg =>
    ⟨hblock ▸ hg.1, fun r hr => hg.2 r (hassigned r hr)⟩
  refine h.act (m := s.issued) (fun e he => he) h.issued (fun j _ hj => (h.owners j hj).free) ?_ ?_
    (fun _ => hcur) ?_ ?_ (fun hne => absurd hlease hne)
  · intro _
    exact hok.world le_rfl (fun e he => he) hok.free (fun id hid => hid) fun t ht => .inl ht
  · intro _ j hij hj
    have hsame := h.order i j hij hi hj
    have hback := h.order j i (Ne.symm hij) hj hi
    exact ⟨⟨hrange ▸ hsame.ne, fun hlt q => hgives q _ (hsame.later (hrange ▸ hlt) q)⟩,
      ⟨hrange ▸ hback.ne, hrange ▸ hback.later⟩⟩
  · intro _ hr info hknown q a hq
    exact hgives q a ((h.known info hknown q a hq).gives i hi (hrange ▸ hr))
  intro r info hf
  rw [hlease] at hf
  cases hf

end

/-- Rows change, or the records of what happened: a task that is newly owed was given its id under the
current lease. -/
lemma Inv.world (h : s.Inv K) {rows limbo now reported completed}
    (hs : s' = { s with store := { s.store with rows, limbo }, now, reported, completed })
    (hc : ∀ id ∈ s.completed, id ∈ s'.completed)
    (howed : ∀ t, s'.OwedIf K t → s.OwedIf K t ∨ ∃ i, (s.owners i).lease = .held ∧
      (s.owners i).rangeID = s.store.rangeID ∧ ∃ r ∈ (s.owners i).assigned, r.1.subqueue = t.subqueue ∧ r.2 = t.id)
    (hrows : ∀ q, ∀ e ∈ s'.store.rows q, (e.1, (q, e.2)) ∈ s.issued)
    (hlimbo : ∀ t ∈ s'.store.limbo, (t.id, (t.subqueue, t.info)) ∈ s.issued)
    (hreported : ∀ t ∈ s'.reported, (t.id, (t.subqueue, t.info)) ∈ s.issued)
    (hstored : ∀ t, s'.OwedIf K t → (t.id, t.info) ∈ s'.store.rows t.subqueue) : s'.Inv K := by
  have hsub : ∀ t, s'.OwedIf K t → t.subqueue < s.store.info.subqueues.length ∧
      ∀ i, (s.owners i).lease = .held → (s.owners i).rangeID = s.store.rangeID →
        t.subqueue < (s.owners i).subqueues.length := by
    intro t ht
    rcases howed t ht with hold | ⟨j, hj, hcurj, r, hr, hrt, -⟩
    · exact ⟨h.covered t hold, fun i hi hcur => (h.current i hi hcur).knows t hold⟩
    have hlt := ((h.owners j hj).assigned r hr).1
    rw [hrt] at hlt
    refine ⟨hlt.trans_le (h.current j hj hcurj).persisted, fun i hi hcur => ?_⟩
    rwa [h.current_unique hi hj hcur hcurj]
  subst hs
  refine ⟨h.nonneg, h.issued, hrows, hlimbo, hreported, hstored, ?_, h.order, h.unheld, ?_, h.found,
    fun t ht => (hsub t ht).1, ?_⟩
  · intro i hi
    have hok := h.owners i hi
    refine hok.world le_rfl (fun e he => he) hok.free hc fun t ht => ?_
    rcases howed t ht with hold | ⟨j, hj, hcurj, r, hr, hrt, hid⟩
    · exact .inl hold
    refine .inr fun sq hsq => ?_
    rw [← hrt] at hsq
    exact hid ▸ h.level_lt_assigned hj hi hcurj hr hsq
  · intro info hinfo q a hq
    have hlow := h.known info hinfo q a hq
    refine ⟨hlow.bound, fun t ht htq => ?_, hlow.gives⟩
    rcases howed t ht with hold | ⟨j, hj, hcurj, r, hr, hrt, hid⟩
    · exact hlow.owed t hold htq
    · exact hid ▸ (hlow.gives j hj hcurj).2 r hr (hrt.trans htq)
  intro i hi hcur
  exact ⟨fun t ht => (hsub t ht).2 i hi hcur, (h.current i hi hcur).persisted⟩

lemma Inv.writeInfo (h : s.Inv K) {info : TaskQueueInfo} (hlow : ∀ q a, info.HasLevel q a → s.Low K q a)
    (hcovered : ∀ t, s.OwedIf K t → t.subqueue < info.subqueues.length)
    (hcur : ∀ i, (s.owners i).lease = .held → (s.owners i).rangeID = s.store.rangeID →
      (s.owners i).subqueues.length ≤ info.subqueues.length) :
    (s.writeInfo s.store.rangeID info).Inv K := by
  refine { h with owners := ?_, known := ?_, covered := hcovered, current := ?_ }
  · intro i hi
    have hok := h.owners i hi
    exact hok.world le_rfl (fun e he => he) hok.free (fun id hid => hid) fun t ht => .inl ht
  · intro info' hk q a hq
    have hlow' : s.Low K q a := by
      rcases hk with rfl | hk
      · exact hlow q a hq
      · exact h.known info' (.inr hk) q a hq
    exact ⟨hlow'.bound, hlow'.owed, hlow'.gives⟩
  intro i hi hr
  exact ⟨(h.current i hi hr).knows, hcur i hi hr⟩

lemma Inv.known_newLease (h : s.Inv K) {info info'}
    (hk : (s.writeInfo (s.store.rangeID + 1) info).Known info') : info' = info := by
  rcases hk with hk | ⟨i, hi⟩
  · exact hk
  have hle := (h.found i _ info' hi).2
  simp only [PriBacklog.writeInfo, setStore] at hle
  omega

lemma Inv.newLease (h : s.Inv K) {info : TaskQueueInfo}
    (hbound : ∀ q a, info.HasLevel q a → a ≤ s.store.rangeID * rangeSize)
    (hlow : ∀ q a, info.HasLevel q a → ∀ t, s.OwedIf K t → t.subqueue = q → a < t.id)
    (hcovered : ∀ t, s.OwedIf K t → t.subqueue < info.subqueues.length) :
    (s.writeInfo (s.store.rangeID + 1) info).Inv K := by
  have hnone : ∀ i, (s.owners i).lease = .held → (s.owners i).rangeID ≠ s.store.rangeID + 1 := by
    intro i hi
    have := (h.owners i hi).range.2
    omega
  have hle : s.store.rangeID * rangeSize ≤ (s.store.rangeID + 1) * rangeSize := by
    simp only [rangeSize]
    omega
  refine ⟨Int.add_nonneg h.nonneg (by decide), fun e he => ⟨(h.issued e he).1, (h.issued e he).2.trans hle⟩,
    h.rows, h.limbo, h.reported, h.stored, ?_, h.order, h.unheld, ?_, ?_, hcovered, ?_⟩
  · intro i hi
    have hok := h.owners i hi
    exact hok.world (Int.le_add_one le_rfl) (fun e he => he) hok.free (fun id hid => hid) fun t ht => .inl ht
  · intro info' hk q a hq
    obtain rfl := h.known_newLease hk
    exact ⟨(hbound q a hq).trans hle, hlow q a hq, fun i hi hr => absurd hr (hnone i hi)⟩
  · intro i r info' hi
    obtain ⟨hr, hle⟩ := h.found i r info' hi
    exact ⟨hr, Int.le_add_one hle⟩
  intro i hi hr
  exact absurd hr (hnone i hi)

end FastOrchestration.Matching.PriBacklog
