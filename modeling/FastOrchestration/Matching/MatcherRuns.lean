import FastOrchestration.Matching.MatcherLaws

/-!
# Runs of the priority matcher

Any interleaving of the steps of the matcher with `AddTask` and `setEvicted` in other goroutines.

`AddTask` registers the remove function before it enqueues the task. In between, `setEvicted` can take
the function and call it. A new task has heap index zero, so `RemoveTask` takes it for queued: it removes
whatever task is first, or panics when there is none, and the evicted task is enqueued after that and
stays (`evictedBetween_removesOther`). `NotBetween` leaves this out, and with it all invariants hold.
-/

namespace FastOrchestration.Matching

open List Function MatcherSystem MatcherData

open MatcherData (Queues Moved)
open Lib (Yields)

namespace MatcherSystem

variable {it : Items} {s : MatcherSystem} {data : MatcherData} {t : TaskId} {p : PollerId}

/-- What is known of tasks and of the goroutines that add and evict them. -/
structure TaskSide (it : Items) (s : MatcherSystem) : Prop where
  adding : s.adding.Nodup ∧ ∀ t ∈ s.adding, t ∉ s.data.tasks.items
  notAdded : ∀ t, s.removeFromMatcher t = some .notAddedYet → t ∉ s.data.tasks.items ∧ t ∉ s.adding
  left : ∀ t, s.removeFromMatcher t = some .remove ∨ t ∈ s.evicting →
    t ∈ s.adding ∨ t ∈ s.data.tasks.items ∨ s.data.tasks.index t < 0
  evicted : ∀ t, s.removeFromMatcher t = some .evicted → t ∈ s.adding ∨ t ∈ s.data.tasks.items → t ∈ s.evicting
  backlog : ∀ t, t ∈ s.adding ∨ t ∈ s.evicting ∨ s.removeFromMatcher t ≠ none → (it.task t).localBacklog = true
  waiting : ∀ t ∈ s.waitingTasks, (it.task t).localBacklog = false ∧
    (s.data.taskResult t = none → t ∈ s.data.tasks.items)
  waits : ∀ t ∈ s.data.tasks.items, (it.task t).localBacklog = false → t ∈ s.waitingTasks

/-- What is known of pollers. -/
structure PollerSide (s : MatcherSystem) : Prop where
  queued : ∀ p ∈ s.data.pollers.items, p ∈ s.waitingPollers
  left : ∀ p ∈ s.waitingPollers, p ∈ s.data.pollers.items ∨ s.data.pollers.index p < 0
  forwarding : s.data.forwarding.Nodup ∧ ∀ p ∈ s.data.forwarding, p ∉ s.data.pollers.items ∧ p ∈ s.waitingPollers

structure Invariant (it : Items) (s : MatcherSystem) : Prop where
  queues : s.data.Queues
  tasks : TaskSide it s
  pollers : PollerSide s

/-- No panic, and the invariant holds in the state that is reached. -/
abbrev Keeps (it : Items) := Yields (π := MatcherPanic) (fun _ => False) (Invariant it)

lemma init_invariant (it : Items) (forwardCtx : PollerId → Bool) : Invariant it (init forwardCtx) := by
  refine ⟨⟨fun _ _ h => ?_, fun _ _ h => ?_, fun _ h => ?_, fun _ h => ?_, rfl⟩,
    ⟨⟨nodup_nil, fun _ h => ?_⟩, fun _ h => ?_, fun t h => ?_, fun _ h => ?_, fun t h => ?_,
      fun _ h => ?_, fun _ h => ?_⟩,
    ⟨fun _ h => ?_, fun _ h => ?_, nodup_nil, fun _ h => ?_⟩⟩
  all_goals simp [init] at h

/-! ## Steps of the matcher -/

section Move

variable {added dropped : List TaskId} {polled : List PollerId} {adding' evicting' waiting' : List TaskId}

lemma TaskSide.not_sync (h : TaskSide it s) (ht : t ∈ s.adding ∨ t ∈ s.evicting ∨ s.removeFromMatcher t ≠ none) :
    (it.task t).localBacklog ≠ false := Bool.ne_false_iff.mpr (h.backlog t ht)

/-- The task side after a step of the matcher, with the bookkeeping that goes with it. What is added
comes from `AddTask`, or it waits unless it is gone already. -/
lemma TaskSide.move (h : TaskSide it s) (hm : Moved added dropped polled s.data data)
    (hadding : adding'.Sublist s.adding)
    (hadded : ∀ t ∈ added, t ∉ adding' ∧ (t ∈ s.adding ∨
      ((it.task t).localBacklog = false ∧ (t ∈ waiting' ∨ t ∉ data.tasks.items))))
    (hgone : ∀ t ∈ s.adding, t ∈ adding' ∨ t ∈ added)
    (hevicting : ∀ t ∈ evicting', t ∈ s.evicting)
    (hremoved : ∀ t ∈ s.evicting, t ∈ evicting' ∨ (t ∉ data.tasks.items ∧ t ∉ adding'))
    (hwaiting : ∀ t ∈ s.waitingTasks, t ∈ waiting')
    (hwaits : ∀ t ∈ waiting', t ∈ s.waitingTasks ∨ (t ∈ added ∧ (it.task t).localBacklog = false))
    (hdropped : ∀ t ∈ dropped, t ∉ waiting') (hp : List PollerId) :
    TaskSide it { s with data := data, adding := adding', evicting := evicting',
                         waitingTasks := waiting', waitingPollers := hp } := by
  have hback : ∀ t func, s.removeFromMatcher t = some func → t ∈ data.tasks.items →
      t ∈ s.adding ∨ t ∈ s.data.tasks.items := fun t func ht hin =>
    (hm.stays t hin).elim .inr fun hin => .inl ((hadded t hin).2.resolve_right fun hsync =>
      h.not_sync (.inr (.inr (ht ▸ Option.some_ne_none _))) hsync.1)
  refine ⟨⟨h.adding.1.sublist hadding, fun t ht hin => ?_⟩, fun t ht => ⟨fun hin => ?_, fun hin => ?_⟩,
    fun t ht => ?_, fun t ht hin => ?_, fun t ht => ?_, fun t ht => ⟨?_, fun hnone => ?_⟩,
    fun t ht hsync => ?_⟩
  · obtain hin | hin := hm.stays t hin
    · exact h.adding.2 t (hadding.subset ht) hin
    · exact (hadded t hin).1 ht
  · exact (hback t _ ht hin).elim (h.notAdded t ht).2 (h.notAdded t ht).1
  · exact (h.notAdded t ht).2 (hadding.subset hin)
  · -- from adding to the heap, or out of the heap
    have hmoved : t ∈ s.data.tasks.items ∨ t ∈ added →
        t ∈ adding' ∨ t ∈ data.tasks.items ∨ data.tasks.index t < 0 := fun hin => by
      by_cases hstay : t ∈ data.tasks.items
      · exact .inr (.inl hstay)
      · exact .inr (.inr (hm.leaves t hin hstay).1)
    obtain hadd | hin | hneg := h.left t (ht.imp_right (hevicting t))
    · exact (hgone t hadd).elim .inl fun hin => hmoved (.inr hin)
    · exact hmoved (.inl hin)
    by_cases hin : t ∈ s.data.tasks.items ∨ t ∈ added
    · exact hmoved hin
    obtain ⟨hnot, hnotAdded⟩ := not_or.mp hin
    exact .inr (.inr ((hm.others t hnot hnotAdded).2 ▸ hneg))
  · have hold := h.evicted t ht (hin.elim (fun hin => .inl (hadding.subset hin)) (hback t _ ht))
    obtain hstill | ⟨hnot, hnot'⟩ := hremoved t hold
    · exact hstill
    · exact (hin.elim hnot' hnot).elim
  · exact h.backlog t (ht.imp (hadding.subset ·) (Or.imp_left (hevicting t)))
  · exact (hwaits t ht).elim (fun hw => (h.waiting t hw).1) fun hin => hin.2
  · -- a task that waits leaves with a result
    have hqueued : t ∈ s.data.tasks.items ∨ t ∈ added := by
      by_contra hnot
      obtain ⟨hnot, hnotAdded⟩ := not_or.mp hnot
      have hw := (hwaits t ht).resolve_right fun hin => hnotAdded hin.1
      exact hnot ((h.waiting t hw).2 ((hm.others t hnot hnotAdded).1 ▸ hnone))
    by_contra hgone
    exact (hm.leaves t hqueued hgone).2.elim (fun hne => hne hnone) fun hin => hdropped t hin ht
  obtain hin | hin := hm.stays t ht
  · exact hwaiting t (h.waits t hin hsync)
  obtain hadd | ⟨-, hw | hnot⟩ := (hadded t hin).2
  · exact absurd hsync (h.not_sync (.inl hadd))
  · exact hw
  · exact absurd ht hnot

lemma TaskSide.stay (h : TaskSide it s) (hm : Moved [] [] polled s.data data) (hp : List PollerId) :
    TaskSide it { s with data := data, waitingPollers := hp } :=
  h.move hm (.refl _) nofun (fun _ h => .inl h) (fun _ h => h)
    (fun _ h => .inl h) (fun _ h => h) (fun _ h => .inl h) nofun hp

lemma PollerSide.move {waiting} (h : PollerSide s) (hm : Moved added dropped polled s.data data)
    (hpolled : ∀ p ∈ polled, p ∉ s.data.forwarding ∧ p ∈ waiting)
    (hwaiting : ∀ p ∈ s.waitingPollers, p ∈ waiting)
    (hwaits : ∀ p ∈ waiting, p ∈ s.waitingPollers ∨ p ∈ polled) (adding evicting tasks : List TaskId) :
    PollerSide { s with data := data, adding := adding, evicting := evicting, waitingTasks := tasks,
                        waitingPollers := waiting } := by
  have hsource : ∀ p, p ∈ s.data.pollers.items ∨ p ∈ polled → p ∈ waiting := fun p hp =>
    hp.elim (fun hin => hwaiting p (h.queued p hin)) fun hin => (hpolled p hin).2
  obtain ⟨new, hnew, hnodup, hmem⟩ := hm.forwarding
  refine ⟨fun p hp => hsource p (hm.pollerStays p hp), fun p hp => ?_, ?_, fun p hp => ?_⟩
  · by_cases hin : p ∈ s.data.pollers.items ∨ p ∈ polled
    · by_cases hstay : p ∈ data.pollers.items
      · exact .inl hstay
      · exact .inr (hm.pollerLeaves p hin hstay)
    obtain ⟨hnot, hnotPolled⟩ := not_or.mp hin
    have hneg := (h.left p ((hwaits p hp).resolve_right hnotPolled)).resolve_left hnot
    exact .inr (hm.pollerOthers p hnot hnotPolled ▸ hneg)
  · show data.forwarding.Nodup
    rw [hnew]
    refine hnodup.append h.forwarding.1 fun p hp hold => ?_
    obtain hin | hin := (hmem p hp).1
    · exact (h.forwarding.2 p hold).1 hin
    · exact (hpolled p hin).1 hold
  rw [show data.forwarding = _ from hnew] at hp
  obtain hp | hp := mem_append.mp hp
  · exact ⟨(hmem p hp).2, hsource p (hmem p hp).1⟩
  refine ⟨fun hin => ?_, hwaiting p (h.forwarding.2 p hp).2⟩
  obtain hin | hin := hm.pollerStays p hin
  · exact (h.forwarding.2 p hp).1 hin
  · exact (hpolled p hin).1 hp

lemma PollerSide.stay (h : PollerSide s) (hm : Moved added dropped [] s.data data)
    (adding evicting tasks : List TaskId) :
    PollerSide { s with data := data, adding := adding, evicting := evicting, waitingTasks := tasks } :=
  h.move hm nofun (fun _ h => h) (fun _ h => .inl h) adding evicting tasks

lemma Invariant.stay (h : Invariant it s) (hq : data.Queues) (hm : Moved [] [] [] s.data data) :
    Invariant it { s with data := data } :=
  ⟨hq, h.tasks.stay hm _, h.pollers.stay hm _ _ _⟩

end Move

/-! ## Every step -/

variable (h : Invariant it s)

include h

lemma Invariant.enqueueTaskNoWait (m : Moment) (ht : t ∈ s.adding) :
    Keeps it (s.step it (.enqueueTaskNoWait t m)) := by
  refine (enqueueTask_spec it m h.queues (h.tasks.adding.2 t ht)).bind fun data ⟨hq, hmoved⟩ => ?_
  have hnotErased : t ∉ s.adding.erase t := h.tasks.adding.1.not_mem_erase
  refine ⟨hq, ?_, h.pollers.stay hmoved _ _ _⟩
  refine h.tasks.move hmoved erase_sublist (fun u hu => ?_) (fun u hu => ?_) (fun _ h => h)
    (fun _ h => .inl h) (fun _ h => h) (fun _ h => .inl h) nofun _
  · rw [mem_singleton.mp hu]
    exact ⟨hnotErased, .inl ht⟩
  by_cases heq : u = t
  · exact .inr (mem_singleton.mpr heq)
  · exact .inl ((mem_erase_of_ne heq).mpr hu)

lemma Invariant.removeTask (ht : t ∈ s.evicting) (hbetween : t ∉ s.adding) :
    Yields (fun _ => False) (fun s' => Invariant it s' ∧
      (t ∉ s.data.tasks.items → s' = { s with evicting := s.evicting.erase t })) (s.step it (.removeTask t)) := by
  refine (removeIfQueued_spec it h.queues ((h.tasks.left t (.inr ht)).resolve_left hbetween)).bind ?_
  intro data ⟨hq, hmoved, hgone, hsame⟩
  refine (show _ ∧ _ from ⟨⟨hq, ?_, h.pollers.stay hmoved _ _ _⟩, fun hnot => by rw [hsame hnot]⟩)
  refine h.tasks.move hmoved (.refl _) nofun (fun _ h => .inl h)
    (fun u hu => mem_of_mem_erase hu) (fun u hu => ?_) (fun _ h => h) (fun _ h => .inl h)
    (fun u hu hw => ?_) _
  · by_cases heq : u = t
    · subst heq
      exact .inr ⟨hgone, hbetween⟩
    · exact .inl ((mem_erase_of_ne heq).mpr hu)
  rw [mem_singleton.mp hu] at hw
  exact h.tasks.not_sync (.inr (.inl ht)) (h.tasks.waiting t hw).1

lemma Invariant.enqueueTaskAndWait (m : Moment)
    (hsync : (it.task t).localBacklog = false) (hwait : t ∉ s.waitingTasks ∨ s.data.taskResult t ≠ none) :
    Keeps it (s.step it (.enqueueTaskAndWait t m)) := by
  have hnot : t ∉ s.data.tasks.items := fun hin =>
    hwait.elim (fun hw => hw (h.tasks.waits t hin hsync)) fun hne => hne (h.queues.taskResult t hin)
  have hnotAdding : t ∉ s.adding := fun hadd => h.tasks.not_sync (.inl hadd) hsync
  refine (enqueueTask_spec it m h.queues hnot).bind fun data ⟨hq, hmoved⟩ => ⟨hq, ?_, h.pollers.stay hmoved _ _ _⟩
  refine h.tasks.move hmoved (.refl _) (fun u hu => ?_) (fun _ h => .inl h)
    (fun _ h => h) (fun _ h => .inl h) (fun _ h => mem_cons_of_mem _ h) (fun u hu => ?_)
    nofun _
  · rw [mem_singleton.mp hu]
    exact ⟨hnotAdding, .inr ⟨hsync, .inl mem_cons_self⟩⟩
  obtain rfl | hu := mem_cons.mp hu
  · exact .inr ⟨mem_singleton_self u, hsync⟩
  · exact .inl hu

lemma Invariant.matchTaskImmediately (m : Moment)
    (hsync : (it.task t).localBacklog = false) (hwait : t ∉ s.waitingTasks) :
    Keeps it (s.step it (.matchTaskImmediately t m)) := by
  have hnot : t ∉ s.data.tasks.items := fun hin => hwait (h.tasks.waits t hin hsync)
  have hnotAdding : t ∉ s.adding := fun hadd => h.tasks.not_sync (.inl hadd) hsync
  refine (matchTaskImmediately_spec it m h.queues hnot).bind fun data ⟨hq, hgone, hcases⟩ => ?_
  obtain rfl | hmoved := hcases
  · exact h
  refine ⟨hq, ?_, h.pollers.stay hmoved _ _ _⟩
  refine h.tasks.move hmoved (.refl _) (fun u hu => ?_) (fun _ h => .inl h)
    (fun _ h => h) (fun _ h => .inl h) (fun _ h => h) (fun _ h => .inl h) (fun u hu => ?_) _
  · rw [mem_singleton.mp hu]
    exact ⟨hnotAdding, .inr ⟨hsync, .inr hgone⟩⟩
  rw [mem_singleton.mp hu]
  exact hwait

lemma Invariant.enqueuePollerAndWait (m : Moment)
    (hwait : p ∉ s.waitingPollers ∨ (s.data.pollerResult p ≠ none ∧ p ∉ s.data.forwarding)) :
    Keeps it (s.step it (.enqueuePollerAndWait p m)) := by
  have hnot : p ∉ s.data.pollers.items := fun hin =>
    hwait.elim (fun hw => hw (h.pollers.queued p hin)) fun hr => hr.1 (h.queues.pollerResult p hin)
  have hnotFwd : p ∉ s.data.forwarding := fun hin =>
    hwait.elim (fun hw => hw (h.pollers.forwarding.2 p hin).2) fun hr => hr.2 hin
  refine (enqueuePoller_spec it m h.queues hnot).bind fun data ⟨hq, hmoved⟩ => ⟨hq, h.tasks.stay hmoved _, ?_⟩
  refine h.pollers.move hmoved (fun q hq => ?_) (fun _ h => mem_cons_of_mem _ h) (fun q hq => ?_) _ _ _
  · rw [mem_singleton.mp hq]
    exact ⟨hnotFwd, mem_cons_self⟩
  · exact (mem_cons.mp hq).symm.imp_right mem_singleton.mpr

lemma Invariant.letGo (p : PollerId) :
    Invariant it { s with data := { s.data with forwarding := s.data.forwarding.erase p } } :=
  ⟨{ h.queues with }, { h.tasks with }, h.pollers.queued, h.pollers.left, h.pollers.forwarding.1.erase _,
    fun q hq => h.pollers.forwarding.2 q (mem_of_mem_erase hq)⟩

lemma Invariant.finishMatchAfterPollForward (t : TaskId) (hp : p ∈ s.data.forwarding) :
    Keeps it (s.step it (.finishMatchAfterPollForward p t)) := by
  obtain ⟨hnot, hw⟩ := h.pollers.forwarding.2 p hp
  obtain ⟨hq, hmoved⟩ := finishMatchAfterPollForward_spec t h.queues hnot ((h.pollers.left p hw).resolve_left hnot)
  exact (h.stay hq hmoved).letGo p

lemma Invariant.reenqueuePollerIfNotMatched (m : Moment) (hp : p ∈ s.data.forwarding) :
    Keeps it (s.step it (.reenqueuePollerIfNotMatched p m)) := by
  obtain ⟨hnot, hw⟩ := h.pollers.forwarding.2 p hp
  have hfree := h.letGo p
  refine (reenqueuePollerIfNotMatched_spec it m hfree.queues hnot).bind fun data ⟨hq, hcases⟩ => ?_
  obtain hmoved | hmoved := hcases
  · exact hfree.stay hq hmoved
  refine ⟨hq, hfree.tasks.stay hmoved _, hfree.pollers.move hmoved (fun q hq => ?_) (fun _ h => h)
    (fun _ h => .inl h) _ _ _⟩
  rw [mem_singleton.mp hq]
  exact ⟨h.pollers.forwarding.1.not_mem_erase, hw⟩

/-- The atomic pointer of one task changes, and with it who adds or evicts the task. -/
lemma Invariant.setPointer {func : RemoveFunc} {adding evicting : List TaskId}
    (hlocal : (it.task t).localBacklog) (hadding : adding.Nodup ∧ ∀ u ∈ adding, u ∉ s.data.tasks.items)
    (hsame : ∀ u ≠ t, (u ∈ adding ↔ u ∈ s.adding) ∧ (u ∈ evicting ↔ u ∈ s.evicting))
    (hnotAdded : func = .notAddedYet → t ∉ s.data.tasks.items ∧ t ∉ adding)
    (hleft : func = .remove ∨ t ∈ evicting → t ∈ adding ∨ t ∈ s.data.tasks.items ∨ s.data.tasks.index t < 0)
    (hevicted : func = .evicted → t ∈ adding ∨ t ∈ s.data.tasks.items → t ∈ evicting) :
    Invariant it { s with
      adding, evicting, removeFromMatcher := Function.update s.removeFromMatcher t (some func) } := by
  refine ⟨h.queues, ⟨hadding, fun u hu => ?_, fun u hu => ?_, fun u hu hin => ?_, fun u hu => ?_,
    h.tasks.waiting, h.tasks.waits⟩, { h.pollers with }⟩
  all_goals obtain rfl | hne := eq_or_ne u t
  · exact hnotAdded (by simpa using hu)
  · simp only [update_of_ne hne, hsame u hne] at hu ⊢
    exact h.tasks.notAdded u hu
  · exact hleft (by simpa using hu)
  · simp only [update_of_ne hne, hsame u hne] at hu ⊢
    exact h.tasks.left u hu
  · exact hevicted (by simpa using hu) hin
  · simp only [update_of_ne hne, hsame u hne] at hu hin ⊢
    exact h.tasks.evicted u hu hin
  · exact hlocal
  · simp only [update_of_ne hne, hsame u hne] at hu
    exact h.tasks.backlog u hu

lemma Invariant.setRemoveFunc (t : TaskId) : Invariant it (s.setRemoveFunc t) := by
  unfold MatcherSystem.setRemoveFunc
  split
  · rename_i hptr
    obtain ⟨hnot, hnotAdding⟩ := h.tasks.notAdded t hptr
    have hlocal := h.tasks.backlog t (.inr (.inr (by rw [hptr]; exact Option.some_ne_none _)))
    refine h.setPointer hlocal ⟨nodup_cons.mpr ⟨hnotAdding, h.tasks.adding.1⟩, ?_⟩ (fun u hne => ?_) (by simp)
      (fun _ => .inl mem_cons_self) (by simp)
    · exact forall_mem_cons.mpr ⟨hnot, h.tasks.adding.2⟩
    · simp [hne]
  · exact h

lemma Invariant.resetMatcherState (hlocal : (it.task t).localBacklog)
    (hnot : t ∉ s.data.tasks.items) (hnotAdding : t ∉ s.adding) :
    Invariant it { s with
      removeFromMatcher := Function.update s.removeFromMatcher t (some .notAddedYet) } := by
  refine h.setPointer hlocal h.tasks.adding (fun _ _ => ⟨.rfl, .rfl⟩) (fun _ => ⟨hnot, hnotAdding⟩) ?_ (by simp)
  exact fun hu => h.tasks.left t (.inr (hu.resolve_left (by simp)))

lemma Invariant.setEvicted (hlocal : (it.task t).localBacklog)
    (hptr : s.removeFromMatcher t ≠ none) : Keeps it (s.setEvicted t) := by
  -- the pointer was taken from a task that is with the matcher, or is on its way
  have hmarked : ∀ evicting, (∀ u ≠ t, u ∈ evicting ↔ u ∈ s.evicting) →
      (t ∈ evicting → s.removeFromMatcher t = some .remove ∨ t ∈ s.evicting) →
      (t ∈ s.adding ∨ t ∈ s.data.tasks.items → t ∈ evicting) →
      Invariant it { s with
        removeFromMatcher := Function.update s.removeFromMatcher t (some .evicted)
        evicting := evicting } := by
    intro evicting hsame hback hthis
    refine h.setPointer hlocal h.tasks.adding (fun u hne => ⟨.rfl, hsame u hne⟩) (by simp) ?_ fun _ => hthis
    exact fun hu => h.tasks.left t (hback (hu.resolve_left (by simp)))
  unfold MatcherSystem.setEvicted
  split
  · rename_i hnone
    exact absurd hnone hptr
  · rename_i hremove
    exact hmarked _ (fun u hne => by simp [hne]) (fun _ => .inl hremove) fun _ => mem_cons_self
  rename_i func hother hfunc
  refine hmarked s.evicting (fun _ _ => .rfl) .inr fun hin => ?_
  cases func with
  | notAddedYet =>
    obtain ⟨hnot, hnotAdding⟩ := h.tasks.notAdded t hfunc
    exact (hin.elim hnotAdding hnot).elim
  | remove => exact (hother rfl).elim
  | evicted => exact h.tasks.evicted t hfunc hin

omit h

lemma step_spec (e : MatcherEvent) (h : Invariant it s) (he : s.Enabled it e) (hb : s.NotBetween e) :
    Keeps it (s.step it e) := by
  have hdata : ∀ x, Ends [] [] [] s.data x → Keeps it (do let data ← x; return { s with data := data }) :=
    fun x hx => hx.bind fun data ⟨hq, hmoved⟩ => h.stay hq hmoved
  cases e with
  | resetMatcherState t => exact h.resetMatcherState he.1 he.2.1 he.2.2
  | setRemoveFunc t => exact h.setRemoveFunc t
  | enqueueTaskNoWait t m => exact h.enqueueTaskNoWait m he
  | setEvicted t => exact h.setEvicted he hb
  | removeTask t => exact (h.removeTask he hb).mono (fun _ => id) fun _ => And.left
  | enqueueTaskAndWait t m => exact h.enqueueTaskAndWait m he.1 he.2
  | taskContextDone t i =>
    exact hdata _ (taskContextDone_spec it i h.queues (h.tasks.waiting t he).2)
  | matchTaskImmediately t m => exact h.matchTaskImmediately m he.1 he.2
  | enqueuePollerAndWait p m => exact h.enqueuePollerAndWait m he
  | pollerContextDone p i =>
    exact hdata _ (pollerContextDone_spec it i h.queues (h.pollers.left p he))
  | finishMatchAfterPollForward p t => exact h.finishMatchAfterPollForward t he
  | reenqueuePollerIfNotMatched p m => exact h.reenqueuePollerIfNotMatched m he
  | reprocessTasks pred =>
    obtain ⟨hq, hmoved⟩ := reprocessTasks_spec it pred h.queues
    exact h.stay hq hmoved
  | recycleToken m | rematchAfterTimer m => exact hdata _ (rematch_spec it m h.queues)

/-- The steps that are enabled, and do not fall between the two of `AddTask`. -/
def Permitted (it : Items) (s : MatcherSystem) (e : MatcherEvent) : Prop :=
  s.Enabled it e ∧ s.NotBetween e

instance (it : Items) (s : MatcherSystem) (e : MatcherEvent) : Decidable (s.Permitted it e) :=
  inferInstanceAs (Decidable (_ ∧ _))

def runFrom (it : Items) (forwardCtx : PollerId → Bool) (es : List MatcherEvent) :
    Except MatcherPanic MatcherSystem :=
  Lib.run (fun s e => s.step it e) (init forwardCtx) es

end MatcherSystem

/-- No run of permitted steps panics, and in all states: queued items have their heap position and no
result, no item was woken twice or while queued, an evicted task is queued only as long as the call that
removes it is under way, and that call leaves everything as it is where the task is not queued. Matching
ends where nothing that is queued may match, or where the pair that was found has to wait. -/
theorem matcher_invariants (it : Items) (forwardCtx : PollerId → Bool) (es : List MatcherEvent)
    (hes : Lib.Along (fun s e => s.Permitted it e) (fun s e => s.step it e) (init forwardCtx) es) :
    (∃ s, runFrom it forwardCtx es = .ok s) ∧
    (∀ s, runFrom it forwardCtx es = .ok s →
      (∀ (i : Nat) t, s.data.tasks.items[i]? = some t → s.data.tasks.index t = i) ∧
      (∀ (i : Nat) p, s.data.pollers.items[i]? = some p → s.data.pollers.index p = i) ∧
      (∀ t ∈ s.data.tasks.items, s.data.taskResult t = none) ∧
      (∀ p ∈ s.data.pollers.items, s.data.pollerResult p = none) ∧
      s.data.failedAsserts = [] ∧
      (∀ t ∈ s.data.tasks.items, s.removeFromMatcher t = some .evicted → t ∈ s.evicting) ∧
      ∀ t ∈ s.evicting, t ∉ s.adding → t ∉ s.data.tasks.items →
        s.step it (.removeTask t) = .ok { s with evicting := s.evicting.erase t }) ∧
    ∀ (d d' : MatcherData) (m : Moment) (outcome : MatchOutcome), d.findAndWakeMatches it m = .ok (d', outcome) →
      Settled it (d.allowForwarding m) m.delay d' outcome := by
  have hrun : Keeps it (runFrom it forwardCtx es) :=
    hes.yields (fun s e h hp => step_spec e h hp.1 hp.2) (init_invariant it forwardCtx)
  refine ⟨?_, fun s hs => ?_, fun d d' m outcome hok => ?_⟩
  · obtain ⟨s, hs, -⟩ := hrun.exists_ok fun _ => id
    exact ⟨s, hs⟩
  · have hinv := hrun.post hs
    refine ⟨hinv.queues.tasks, hinv.queues.pollers, hinv.queues.taskResult, hinv.queues.pollerResult,
      hinv.queues.asserts, fun t ht hev => hinv.tasks.evicted t hev (.inr ht), fun t ht hb hnot => ?_⟩
    obtain ⟨s', hok, -, hsame⟩ := (hinv.removeTask ht hb).exists_ok fun _ => id
    rw [hok, hsame hnot]
  · exact matchLoop_settled (Nat.lt_succ_self _) hok

def backlogTasks : Items where
  task t := ⟨3, ⟨0, t⟩, false, false, true, none⟩
  poller _ := ⟨0, false, false, false⟩

def calm : Moment := ⟨false, 0, 0, 0, 0, fun _ _ => 0⟩

def addTaskEvents (t : TaskId) : List MatcherEvent :=
  [.resetMatcherState t, .setRemoveFunc t, .enqueueTaskNoWait t calm]

/-- Two tasks are added, one is evicted, and a poller gets the other. -/
def addAndEvict : List MatcherEvent :=
  addTaskEvents 1 ++ addTaskEvents 2 ++ [.setEvicted 1, .removeTask 1, .enqueuePollerAndWait 0 calm]

theorem matcher_invariants_addAndEvict : ∃ s, runFrom backlogTasks (fun _ => true) addAndEvict = .ok s ∧
      s.data.failedAsserts = [] ∧ s.data.tasks.items = [] ∧
      s.data.pollerResult 0 = some (.matched 2 0) := by
  obtain ⟨s, hrun, hitems, hres⟩ : ∃ s, runFrom backlogTasks (fun _ => true) addAndEvict = .ok s ∧
      s.data.tasks.items = [] ∧ s.data.pollerResult 0 = some (.matched 2 0) := by decide +kernel
  have h := matcher_invariants backlogTasks (fun _ => true) addAndEvict (by decide +kernel)
  exact ⟨s, hrun, (h.2.1 s hrun).2.2.2.2.1, hitems, hres⟩

/-- The second task is evicted between the two steps of its `AddTask`. -/
def evictBetween : List MatcherEvent :=
  addTaskEvents 1 ++ [.resetMatcherState 2, .setRemoveFunc 2, .setEvicted 2, .removeTask 2, .enqueueTaskNoWait 2 calm]

/-- The first task, which was queued, has left the matcher without a result, and the evicted one stays
queued. Without the first task there is a panic. -/
theorem evictedBetween_removesOther :
    (Lib.Along (fun s e => s.Enabled backlogTasks e) (fun s e => s.step backlogTasks e)
      (init fun _ => true) evictBetween ∧
    ∃ s, runFrom backlogTasks (fun _ => true) evictBetween = .ok s ∧
      s.data.tasks.items = [2] ∧ s.removeFromMatcher 2 = some .evicted ∧
      s.evicting = [] ∧ s.data.taskResult 1 = none ∧
      s.removeFromMatcher 1 = some .remove) ∧
    runFrom backlogTasks (fun _ => true) (evictBetween.drop 3) = .error .indexOutOfRange := by
  exact ⟨⟨by decide +kernel, by decide +kernel⟩, rfl⟩

end FastOrchestration.Matching
