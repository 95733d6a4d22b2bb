import FastOrchestration.Matching.MatcherData

/-!
# What the methods of the matcher do

`Queues` is the invariant of the two heaps: positions are right, what is queued has no result, and no
assertion has failed. Each method keeps it where it is called as it should be, without a panic.

`Moved` says all that the goroutines need to know of a step: which tasks and pollers may be queued after
it, and that one which has left has a negative index and, unless it was taken back, a result.
-/

namespace FastOrchestration.Matching

open List Function Option Lib

namespace MatcherData

variable {it : Items} {d d' d1 d2 d3 : MatcherData} {t : TaskId} {p : PollerId}

/-- The invariant of the two heaps. -/
structure Queues (d : MatcherData) : Prop where
  tasks : d.tasks.Indexed
  pollers : d.pollers.Indexed
  taskResult : ∀ t ∈ d.tasks.items, d.taskResult t = none
  pollerResult : ∀ p ∈ d.pollers.items, d.pollerResult p = none
  asserts : d.failedAsserts = []

/-- From `d` to `d'`, with the tasks and pollers that were added and the tasks that were taken back. -/
structure Moved (added dropped : List TaskId) (polled : List PollerId) (d d' : MatcherData) : Prop where
  stays : ∀ t ∈ d'.tasks.items, t ∈ d.tasks.items ∨ t ∈ added
  leaves : ∀ t, t ∈ d.tasks.items ∨ t ∈ added → t ∉ d'.tasks.items →
    d'.tasks.index t < 0 ∧ (d'.taskResult t ≠ none ∨ t ∈ dropped)
  others : ∀ t, t ∉ d.tasks.items → t ∉ added → d'.taskResult t = d.taskResult t ∧ d'.tasks.index t = d.tasks.index t
  pollerStays : ∀ p ∈ d'.pollers.items, p ∈ d.pollers.items ∨ p ∈ polled
  pollerLeaves : ∀ p, p ∈ d.pollers.items ∨ p ∈ polled → p ∉ d'.pollers.items → d'.pollers.index p < 0
  pollerOthers : ∀ p, p ∉ d.pollers.items → p ∉ polled → d'.pollers.index p = d.pollers.index p
  forwarding : ∃ new, d'.forwarding = new ++ d.forwarding ∧ new.Nodup ∧
    ∀ p ∈ new, (p ∈ d.pollers.items ∨ p ∈ polled) ∧ p ∉ d'.pollers.items

/-- No panic, and the data that are reached. -/
abbrev Ends (added dropped : List TaskId) (polled : List PollerId) (d : MatcherData) :=
  Yields (π := MatcherPanic) (fun _ => False) fun d' => d'.Queues ∧ Moved added dropped polled d d'

lemma Moved.refl (d : MatcherData) : Moved [] [] [] d d where
  stays _ ht := .inl ht
  leaves _ ht hnot := (ht.elim hnot nofun).elim
  others _ _ _ := ⟨rfl, rfl⟩
  pollerStays _ hp := .inl hp
  pollerLeaves _ hp hnot := (hp.elim hnot nofun).elim
  pollerOthers _ _ _ := rfl
  forwarding := ⟨[], rfl, nodup_nil, nofun⟩

lemma Moved.trans {added dropped dropped' polled} (h : Moved added dropped polled d1 d2)
    (h' : Moved [] dropped' [] d2 d3) : Moved added (dropped ++ dropped') polled d1 d3 := by
  obtain ⟨new, hnew, hnodup, hmem⟩ := h.forwarding
  obtain ⟨new', hnew', hnodup', hmem'⟩ := h'.forwarding
  have hqueued : ∀ {p}, p ∈ d2.pollers.items ∨ p ∈ ([] : List PollerId) → p ∈ d2.pollers.items :=
    fun hp => hp.elim id nofun
  have hback : ∀ {t}, t ∈ d3.tasks.items → t ∈ d2.tasks.items := fun ht =>
    (h'.stays _ ht).elim id nofun
  refine ⟨fun t ht => h.stays t (hback ht), fun t ht hnot => ?_, fun t ht hadded => ?_,
    fun p hp => h.pollerStays p (hqueued (h'.pollerStays p hp)), fun p hp hnot => ?_,
    fun p hp hpolled => ?_, new' ++ new, ?_, ?_, fun p hp => ?_⟩
  · by_cases hin : t ∈ d2.tasks.items
    · obtain ⟨hindex, hres⟩ := h'.leaves t (.inl hin) hnot
      exact ⟨hindex, hres.imp_right (mem_append_right _)⟩
    obtain ⟨hindex, hres⟩ := h.leaves t ht hin
    obtain ⟨hsame, hsameIndex⟩ := h'.others t hin not_mem_nil
    rw [hsame, hsameIndex]
    exact ⟨hindex, hres.imp_right (mem_append_left _)⟩
  · have hnot : t ∉ d2.tasks.items := fun hin => (h.stays t hin).elim ht hadded
    obtain ⟨hres, hindex⟩ := h'.others t hnot not_mem_nil
    obtain ⟨hres1, hindex1⟩ := h.others t ht hadded
    exact ⟨hres.trans hres1, hindex.trans hindex1⟩
  · by_cases hin : p ∈ d2.pollers.items
    · exact h'.pollerLeaves p (.inl hin) hnot
    rw [h'.pollerOthers p hin not_mem_nil]
    exact h.pollerLeaves p hp hin
  · have hnot : p ∉ d2.pollers.items := fun hin => (h.pollerStays p hin).elim hp hpolled
    exact (h'.pollerOthers p hnot not_mem_nil).trans (h.pollerOthers p hp hpolled)
  · rw [hnew', hnew, append_assoc]
  · exact hnodup'.append hnodup fun p hp hp' => (hmem p hp').2 (hqueued (hmem' p hp).1)
  obtain hp | hp := mem_append.mp hp
  · exact ⟨h.pollerStays p (hqueued (hmem' p hp).1), (hmem' p hp).2⟩
  · exact ⟨(hmem p hp).1, fun hin => (hmem p hp).2 (hqueued (h'.pollerStays p hin))⟩

/-! ## The heaps -/

lemma wakeAsserts_nil {i} (hi : i < 0) : wakeAsserts none i = [] := by
  simp [wakeAsserts, hi]

lemma not_mem_of_cons_perm {α : Type} {a} {l l' : List α} (h : (a :: l).Perm l')
    (hnodup : l'.Nodup) : a ∉ l := (nodup_cons.mp (h.nodup_iff.mpr hnodup)).1

@[simp]
lemma wakeTask_taskResult (d : MatcherData) (t : TaskId) (res : MatchResult) :
    (d.wakeTask t res).taskResult t = some res := update_self _ _ _

lemma wakeTask_taskResult_of_ne (d : MatcherData) {t u} (h : u ≠ t) (res : MatchResult) :
    (d.wakeTask t res).taskResult u = d.taskResult u := update_of_ne h _ _

lemma Queues.wakeTask (h : d.Queues) (ht : t ∉ d.tasks.items) (hindex : d.tasks.index t < 0)
    (hres : d.taskResult t = none) (res : MatchResult) : (d.wakeTask t res).Queues := by
  refine ⟨h.tasks, h.pollers, fun u hu => ?_, h.pollerResult, ?_⟩
  · have hne : u ≠ t := fun heq => ht (heq ▸ hu)
    exact (update_of_ne hne _ _).trans (h.taskResult u hu)
  · simp only [MatcherData.wakeTask, hres, wakeAsserts_nil hindex, h.asserts, append_nil]

lemma Queues.wakePoller (h : d.Queues) (hp : p ∉ d.pollers.items) (hindex : d.pollers.index p < 0)
    (hres : d.pollerResult p = none) (res : MatchResult) : (d.wakePoller p res).Queues := by
  refine ⟨h.tasks, h.pollers, h.taskResult, fun q hq => ?_, ?_⟩
  · have hne : q ≠ p := fun heq => hp (heq ▸ hq)
    exact (update_of_ne hne _ _).trans (h.pollerResult q hq)
  · simp only [MatcherData.wakePoller, hres, wakeAsserts_nil hindex, h.asserts, append_nil]

lemma removeTask_spec (it : Items) (h : d.Queues) (ht : t ∈ d.tasks.items) :
    ∃ d', d.removeTask it t = .ok d' ∧ d'.Queues ∧ Moved [] [t] [] d d' ∧ t ∉ d'.tasks.items ∧
      d'.taskResult = d.taskResult ∧ d'.pollers = d.pollers ∧ d'.pollerResult = d.pollerResult ∧
      d'.forwarding = d.forwarding := by
  obtain ⟨tasks, hremove, hperm, hindexed, hinvalid, hothers⟩ :=
    Lib.IndexedHeap.remove_spec it.taskLess invalidHeapIndex h.tasks ht
  have hsub : ∀ u ∈ tasks.items, u ∈ d.tasks.items := fun u hu => hperm.subset (mem_cons_of_mem _ hu)
  refine ⟨{ d with tasks := tasks, ages := d.recordAge it t false }, ?_,
    { h with tasks := hindexed, taskResult := fun u hu => h.taskResult u (hsub u hu) },
    { Moved.refl d with
      stays := fun u hu => .inl (hsub u hu)
      leaves := fun u hu hgone => ?_
      others := fun u hu _ => ⟨rfl, hothers u hu⟩ },
    not_mem_of_cons_perm hperm h.tasks.nodup, rfl, rfl, rfl, rfl⟩
  · simp only [removeTask, hremove]
  -- only the task itself has left
  obtain rfl | hin := mem_cons.mp (hperm.symm.subset (hu.elim id nofun))
  · exact ⟨hinvalid ▸ by decide, .inr (mem_singleton_self u)⟩
  · exact absurd hin hgone

lemma removePoller_spec (it : Items) (h : d.Queues) (hp : p ∈ d.pollers.items) :
    ∃ d', d.removePoller it p = .ok d' ∧ d'.Queues ∧ Moved [] [] [] d d' ∧ p ∉ d'.pollers.items ∧
      d'.pollers.index p < 0 ∧ d'.pollerResult = d.pollerResult ∧ d'.tasks = d.tasks ∧
      d'.taskResult = d.taskResult ∧ d'.forwarding = d.forwarding := by
  obtain ⟨pollers, hremove, hperm, hindexed, hinvalid, hothers⟩ :=
    Lib.IndexedHeap.remove_spec it.pollerLess invalidHeapIndex h.pollers hp
  have hneg : pollers.index p < 0 := hinvalid ▸ by decide
  have hsub : ∀ q ∈ pollers.items, q ∈ d.pollers.items := fun q hq =>
    hperm.subset (mem_cons_of_mem _ hq)
  refine ⟨{ d with pollers := pollers }, ?_,
    { h with pollers := hindexed, pollerResult := fun q hq => h.pollerResult q (hsub q hq) },
    { Moved.refl d with
      pollerStays := fun q hq => .inl (hsub q hq)
      pollerLeaves := fun q hq hgone => ?_
      pollerOthers := fun q hq _ => hothers q hq
      forwarding := ⟨[], rfl, nodup_nil, nofun⟩ },
    not_mem_of_cons_perm hperm h.pollers.nodup, hneg, rfl, rfl, rfl, rfl⟩
  · simp only [removePoller, hremove]
  obtain rfl | hin := mem_cons.mp (hperm.symm.subset (hq.elim id nofun))
  · exact hneg
  · exact absurd hin hgone

lemma Moved.wakeTask (h : Moved [] [t] [] d d') (ht : t ∈ d.tasks.items) (res : MatchResult) :
    Moved [] [] [] d (d'.wakeTask t res) := by
  refine { h with leaves := fun u hu hgone => ?_, others := fun u hu hadded => ?_ }
  · obtain ⟨hindex, hres⟩ := h.leaves u hu hgone
    refine ⟨hindex, .inl ?_⟩
    by_cases heq : u = t
    · simp [heq]
    rw [wakeTask_taskResult_of_ne _ heq]
    exact hres.resolve_right (by simpa using heq)
  have hne : u ≠ t := fun heq => hu (heq ▸ ht)
  rw [wakeTask_taskResult_of_ne _ hne]
  exact h.others u hu hadded

/-! ## Matching -/

lemma findMatch_some {allow} (h : d.findMatch it allow = some (t, p)) :
    t ∈ d.tasks.items ∧ p ∈ d.pollers.items ∧ d.MayMatch it allow t p := by
  obtain ⟨u, hu, hfound⟩ := exists_of_findSome?_eq_some h
  split at hfound
  · cases hfound
  rename_i hallowed
  obtain ⟨q, hq, heq⟩ := map_eq_some_iff.mp hfound
  cases heq
  refine ⟨hu, mem_of_find?_eq_some hq, hallowed, ?_⟩
  simpa using find?_some hq

lemma findMatch_none {allow} (h : d.findMatch it allow = none) (ht : t ∈ d.tasks.items)
    (hp : p ∈ d.pollers.items) : ¬ d.MayMatch it allow t p := by
  rintro ⟨hallowed, hcan⟩
  have hnone := findSome?_eq_none_iff.mp h t ht
  rw [if_neg hallowed, map_eq_none_iff, find?_eq_none] at hnone
  exact hnone p hp (by simpa using hcan)

lemma signalMatch_spec (it : Items) (h : d.Queues) (ht : t ∈ d.tasks.items) (hp : p ∈ d.pollers.items) :
    Ends [] [] [] d (d.signalMatch it t p) := by
  obtain ⟨d1, hok1, hq1, hmoved1, hnot, hres1, hpollers1, hpres1, hfwd1⟩ := removeTask_spec it h ht
  obtain ⟨d2, hok2, hq2, hmoved2, hnotp, hnegp, hpres2, htasks2, hres2, hfwd2⟩ :=
    removePoller_spec it hq1 (hpollers1 ▸ hp)
  have hmoved : Moved [] [] [] d (d2.wakeTask t (.matched t p)) := (hmoved1.trans hmoved2).wakeTask ht _
  have hq3 : (d2.wakeTask t (.matched t p)).Queues := by
    refine hq2.wakeTask (htasks2 ▸ hnot) (htasks2 ▸ (hmoved1.leaves t (.inl ht) hnot).1) ?_ _
    rw [hres2, hres1]
    exact h.taskResult t ht
  have hpnone : d2.pollerResult p = none := by
    rw [hpres2, hpres1]
    exact h.pollerResult p hp
  rw [signalMatch, hok1]
  change Ends _ _ _ _ (removePoller _ _ _ >>= _)
  rw [hok2]
  refine (show _ ∧ _ from ?_)
  split
  · refine ⟨{ hq3 with }, { hmoved with forwarding := ⟨[p], ?_, nodup_singleton p, fun q hq => ?_⟩ }⟩
    · simp [MatcherData.wakeTask, hfwd2, hfwd1]
    obtain rfl := mem_singleton.mp hq
    exact ⟨.inl hp, hnotp⟩
  exact ⟨hq3.wakePoller hnotp hnegp hpnone _, { hmoved with }⟩

lemma matchLoop_spec (it : Items) (allow : Bool) (delay : Nat → TaskId → Int) (fuel round : Nat) (h : d.Queues) :
    Yields (fun _ => False) (fun r => r.1.Queues ∧ Moved [] [] [] d r.1) (matchLoop it allow delay fuel round d) := by
  induction fuel generalizing round d with
  | zero => exact ⟨h, .refl d⟩
  | succ fuel ih =>
    simp only [matchLoop]
    split
    · exact ⟨h, .refl d⟩
    rename_i t p hfound
    split
    · exact ⟨h, .refl d⟩
    obtain ⟨ht, hp, -⟩ := findMatch_some hfound
    refine (signalMatch_spec it h ht hp).bind fun d1 ⟨hq, hmoved⟩ => ?_
    exact (ih (round + 1) hq).mono (fun _ => id) fun _ => .imp_right hmoved.trans

lemma rematch_spec (it : Items) (m : Moment) (h : d.Queues) : Ends [] [] [] d (d.rematch it m) :=
  (matchLoop_spec it (d.allowForwarding m) m.delay (d.tasks.items.length + 1) 0 h).map fun _ => id

lemma signalMatch_length (h : d.signalMatch it t p = .ok d') : d'.tasks.items.length + 1 = d.tasks.items.length := by
  obtain ⟨d1, h1, h⟩ := Lib.bind_ok h
  obtain ⟨d2, h2, h⟩ := Lib.bind_ok h
  cases h
  have hlen1 : d1.tasks.items.length + 1 = d.tasks.items.length := by
    unfold removeTask at h1
    split at h1
    · cases h1
    rename_i popped tasks hremove
    cases h1
    exact Lib.IndexedHeap.remove_length hremove
  have htasks2 : d2.tasks = d1.tasks := by
    unfold removePoller at h2
    split at h2
    · cases h2
    cases h2
    rfl
  have htasks : ∀ b : Bool, (if b then
      { d2.wakeTask t (.matched t p) with
        forwarding := p :: (d2.wakeTask t (.matched t p)).forwarding }
      else (d2.wakeTask t (.matched t p)).wakePoller p (.matched t p)).tasks = d2.tasks := by
    rintro (_ | _) <;> rfl
  rw [htasks, htasks2]
  exact hlen1

/-- When matching ends, the pair that was found has to wait, or nothing that is queued may match. -/
def Settled (it : Items) (allow : Bool) (delay : Nat → TaskId → Int) (d : MatcherData) :
    MatchOutcome → Prop
  | .noMatch => ∀ t ∈ d.tasks.items, ∀ p ∈ d.pollers.items, ¬ d.MayMatch it allow t p
  | .rateLimited t p => d.findMatch it allow = some (t, p) ∧ ∃ round, 0 < delay round t
  | .outOfFuel => False

lemma matchLoop_settled {allow delay fuel round outcome} (hfuel : d.tasks.items.length < fuel)
    (h : matchLoop it allow delay fuel round d = .ok (d', outcome)) : Settled it allow delay d' outcome := by
  induction fuel generalizing round d with
  | zero => exact absurd hfuel (Nat.not_lt_zero _)
  | succ fuel ih =>
    simp only [matchLoop] at h
    split at h
    · rename_i hnone
      cases h
      exact fun t ht p hp => findMatch_none hnone ht hp
    rename_i t p hfound
    split at h
    · rename_i hdelay
      cases h
      exact ⟨hfound, round, hdelay⟩
    obtain ⟨d1, hsignal, hloop⟩ := Lib.bind_ok h
    have hlen := signalMatch_length hsignal
    exact ih (by omega) hloop

/-! ## The methods -/

section

variable (it) (m : Moment) (i : Nat) (h : d.Queues)

include h

lemma addTask_spec (ht : t ∉ d.tasks.items) :
    ((d.initTask t).addTask it t).Queues ∧ Moved [t] [] [] d ((d.initTask t).addTask it t) := by
  obtain ⟨hperm, hindexed, hothers⟩ := Lib.IndexedHeap.push_spec it.taskLess h.tasks ht
  have hmem : ∀ u, u ∈ ((d.initTask t).addTask it t).tasks.items ↔ u = t ∨ u ∈ d.tasks.items :=
    fun u => hperm.mem_iff.trans mem_cons
  have hres : ∀ u, u ≠ t → ((d.initTask t).addTask it t).taskResult u = d.taskResult u := fun u hne =>
    update_of_ne hne _ _
  refine ⟨{ h with tasks := hindexed, taskResult := fun u hu => ?_ }, { Moved.refl d with
      stays := fun u hu => ((hmem u).mp hu).symm.imp_right mem_singleton.mpr
      leaves := fun u hu hnot => absurd ((hmem u).mpr (hu.symm.imp_left mem_singleton.mp)) hnot
      others := fun u hu hadded => ?_ }⟩
  · obtain rfl | hu := (hmem u).mp hu
    · exact update_self _ _ _
    have hne : u ≠ t := fun heq => ht (heq ▸ hu)
    exact (hres u hne).trans (h.taskResult u hu)
  have hne : u ≠ t := fun heq => hadded (heq ▸ mem_singleton_self t)
  exact ⟨hres u hne, hothers u hne hu⟩

lemma enqueueTask_spec (ht : t ∉ d.tasks.items) : Ends [t] [] [] d (d.enqueueTask it m t) := by
  obtain ⟨hq, hadded⟩ := addTask_spec it h ht
  exact (rematch_spec it m hq).mono (fun _ => id) fun _ => .imp_right hadded.trans

lemma removeIfQueued_spec (ht : t ∈ d.tasks.items ∨ d.tasks.index t < 0) :
    Yields (fun _ => False) (fun d' => d'.Queues ∧ Moved [] [t] [] d d' ∧ t ∉ d'.tasks.items ∧
      (t ∉ d.tasks.items → d' = d)) (d.removeIfQueued it t) := by
  by_cases hin : t ∈ d.tasks.items
  · obtain ⟨d', hok, hq, hmoved, hnot, -⟩ := removeTask_spec it h hin
    rw [removeIfQueued, if_pos (h.tasks.nonneg hin).1, hok]
    exact ⟨hq, hmoved, hnot, fun hnot => absurd hin hnot⟩
  have hneg := ht.resolve_left hin
  rw [removeIfQueued, if_neg (by omega)]
  exact ⟨h, { Moved.refl d with leaves := fun u hu hgone => (hu.elim hgone nofun).elim }, hin, fun _ => rfl⟩

lemma taskContextDone_spec (ht : d.taskResult t = none → t ∈ d.tasks.items) :
    Ends [] [] [] d (d.taskContextDone it t i) := by
  unfold taskContextDone
  split
  · rename_i hnone
    have ht := ht hnone
    obtain ⟨d', hok, hq, hmoved, hnot, hres, -⟩ := removeTask_spec it h ht
    have hneg := (hmoved.leaves t (.inl ht) hnot).1
    rw [hok]
    exact ⟨hq.wakeTask hnot hneg (hres ▸ hnone) (.ctxErr i), hmoved.wakeTask ht _⟩
  · exact ⟨h, .refl d⟩

lemma matchTaskImmediately_spec (ht : t ∉ d.tasks.items) :
    Yields (fun _ => False) (fun d' => d'.Queues ∧ t ∉ d'.tasks.items ∧ (d' = d ∨ Moved [t] [t] [] d d'))
      (d.matchTaskImmediately it m t) := by
  unfold matchTaskImmediately
  split
  · refine (enqueueTask_spec it m h ht).bind fun d1 ⟨hq, hmoved⟩ => ?_
    split
    · rename_i hnone
      -- without a result it is still queued
      have hin : t ∈ d1.tasks.items := by
        by_contra hnot
        exact (hmoved.leaves t (.inr (mem_singleton_self t)) hnot).2.elim (fun hne => hne hnone) nofun
      obtain ⟨d', hok', hq', hmoved', hnot, -⟩ := removeTask_spec it hq hin
      rw [hok']
      exact ⟨hq', hnot, .inr (hmoved.trans hmoved')⟩
    rename_i hnone
    refine ⟨hq, fun hin => hnone (hq.taskResult t hin), .inr { hmoved with leaves := fun u hu hgone => ?_ }⟩
    exact (hmoved.leaves u hu hgone).imp_right fun h => .inl (h.resolve_right nofun)
  · exact ⟨h, ht, .inl rfl⟩

lemma addPoller_spec (hp : p ∉ d.pollers.items) (hnone : d.pollerResult p = none) :
    (d.addPoller it p).Queues ∧ Moved [] [] [p] d (d.addPoller it p) := by
  obtain ⟨hperm, hindexed, hothers⟩ := Lib.IndexedHeap.push_spec it.pollerLess h.pollers hp
  have hmem : ∀ q, q ∈ (d.addPoller it p).pollers.items ↔ q = p ∨ q ∈ d.pollers.items :=
    fun q => hperm.mem_iff.trans mem_cons
  refine ⟨{ h with pollers := hindexed, pollerResult := fun q hq => ?_ }, { Moved.refl d with
      pollerStays := fun q hq => ((hmem q).mp hq).symm.imp_right mem_singleton.mpr
      pollerLeaves := fun q hq hnot => absurd ((hmem q).mpr (hq.symm.imp_left mem_singleton.mp)) hnot
      pollerOthers := fun q hq hne => hothers q (fun heq => hne (heq ▸ mem_singleton_self p)) hq
      forwarding := ⟨[], rfl, nodup_nil, nofun⟩ }⟩
  obtain rfl | hq := (hmem q).mp hq
  · exact hnone
  · exact h.pollerResult q hq

lemma enqueuePoller_spec (hp : p ∉ d.pollers.items) : Ends [] [] [p] d (d.enqueuePoller it m p) := by
  let ready := MatcherData.initPoller { d with lastPoller := max d.lastPoller (it.poller p).startTime } p
  have hready : ready.Queues := by
    refine { h with pollerResult := fun q hq => ?_ }
    have hne : q ≠ p := fun heq => hp (heq ▸ hq)
    exact (update_of_ne hne _ _).trans (h.pollerResult q hq)
  obtain ⟨hq, hadded⟩ := addPoller_spec it hready hp (update_self _ _ _)
  -- the new time and result do not show
  exact (rematch_spec it m hq).mono (fun _ => id) fun _ => .imp_right fun hmoved => { hadded.trans hmoved with }

lemma reenqueuePollerIfNotMatched_spec (hp : p ∉ d.pollers.items) :
    Yields (fun _ => False) (fun d' => d'.Queues ∧ (Moved [] [] [] d d' ∨ Moved [] [] [p] d d'))
      (d.reenqueuePollerIfNotMatched it m p) := by
  let ready : MatcherData := { d with forwardCtx := Function.update d.forwardCtx p false }
  have hready : ready.Queues := { h with }
  unfold reenqueuePollerIfNotMatched
  dsimp only
  split
  · rename_i hnone
    obtain ⟨hq, hadded⟩ := addPoller_spec it hready hp hnone
    exact (rematch_spec it m hq).mono (fun _ => id) fun _ => .imp_right fun hmoved => .inr { hadded.trans hmoved with }
  exact ⟨hready, .inl { Moved.refl d with }⟩

lemma pollerContextDone_spec (hp : p ∈ d.pollers.items ∨ d.pollers.index p < 0) :
    Ends [] [] [] d (d.pollerContextDone it p i) := by
  unfold pollerContextDone
  split
  · rename_i hnone
    by_cases hin : p ∈ d.pollers.items
    · obtain ⟨d1, hok, hq, hmoved, hnot, hneg, hpres, -⟩ := removePoller_spec it h hin
      rw [if_pos (h.pollers.nonneg hin).1, hok]
      exact ⟨hq.wakePoller hnot hneg (hpres ▸ hnone) _, { hmoved with }⟩
    have hneg := hp.resolve_left hin
    rw [if_neg (by omega)]
    exact ⟨h.wakePoller hin hneg hnone _, { Moved.refl d with }⟩
  · exact ⟨h, .refl d⟩

end

lemma finishMatchAfterPollForward_spec (t : TaskId) (h : d.Queues) (hp : p ∉ d.pollers.items)
    (hneg : d.pollers.index p < 0) :
    (d.finishMatchAfterPollForward p t).Queues ∧ Moved [] [] [] d (d.finishMatchAfterPollForward p t) := by
  unfold finishMatchAfterPollForward
  split
  · rename_i hnone
    exact ⟨h.wakePoller hp hneg hnone _, { Moved.refl d with }⟩
  · exact ⟨h, .refl d⟩

lemma wakeAll_spec {res : MatchResult} {out : List TaskId} {d'} (hd : out.foldl (fun d t => d.wakeTask t res) d = d')
    (h : d.Queues) (hnodup : out.Nodup)
    (hout : ∀ t ∈ out, t ∉ d.tasks.items ∧ d.tasks.index t < 0 ∧ d.taskResult t = none) :
    d'.Queues ∧ d'.tasks = d.tasks ∧ d'.pollers = d.pollers ∧ d'.forwarding = d.forwarding ∧
      ∀ t, d'.taskResult t = if t ∈ out then some res else d.taskResult t := by
  induction out generalizing d with
  | nil =>
    subst hd
    exact ⟨h, rfl, rfl, rfl, fun t => by simp⟩
  | cons u out ih =>
    obtain ⟨hu, hrest⟩ := nodup_cons.mp hnodup
    obtain ⟨hnot, hneg, hnone⟩ := hout u mem_cons_self
    have hstep : ∀ t ∈ out, t ∉ (d.wakeTask u res).tasks.items ∧ (d.wakeTask u res).tasks.index t < 0 ∧
        (d.wakeTask u res).taskResult t = none := by
      intro t ht
      obtain ⟨htn, hti, htr⟩ := hout t (mem_cons_of_mem _ ht)
      have hne : t ≠ u := fun heq => hu (heq ▸ ht)
      exact ⟨htn, hti, (wakeTask_taskResult_of_ne d hne res).trans htr⟩
    obtain ⟨hq, htasks, hpollers, hfwd, hres⟩ := ih hd (h.wakeTask hnot hneg hnone res) hrest hstep
    refine ⟨hq, htasks, hpollers, hfwd, fun t => (hres t).trans ?_⟩
    by_cases heq : t = u
    · subst heq
      simp [hu]
    · simp [heq, wakeTask_taskResult_of_ne d heq res]

lemma reprocessTasks_spec (it : Items) (pred : TaskId → Bool) (h : d.Queues) :
    (d.reprocessTasks it pred).Queues ∧ Moved [] [] [] d (d.reprocessTasks it pred) := by
  let keep (t : TaskId) : Bool := it.isPollForwarder t || !pred t
  obtain ⟨hperm, hindexed, hleft, hothers⟩ :=
    Lib.IndexedHeap.filterInit_spec it.taskLess (invalidHeapIndex - 1) h.tasks keep
  let cleared : MatcherData := { d with
    ages := (d.tasks.items.filter fun t => !keep t).foldl
      (fun ages t => recordAge it { d with ages := ages } t false) d.ages
    tasks := d.tasks.filterInit it.taskLess (invalidHeapIndex - 1) keep }
  have hmem : ∀ t, t ∈ cleared.tasks.items ↔ t ∈ d.tasks.items ∧ keep t := fun t =>
    hperm.mem_iff.trans mem_filter
  have hcleared : cleared.Queues :=
    ⟨hindexed, h.pollers, fun t ht => h.taskResult t ((hmem t).mp ht).1, h.pollerResult, h.asserts⟩
  have hneg : ∀ t ∈ d.tasks.items, keep t = false → cleared.tasks.index t < 0 := fun t ht hk => by
    rw [hleft t ht hk]
    decide
  obtain ⟨hq, htasks, hpollers, hfwd, hres⟩ := @wakeAll_spec cleared (.ctxErr (-1)) (d.tasks.items.filter fun t => !keep t)
    _ rfl hcleared (h.tasks.nodup.filter _) fun t ht => by
      obtain ⟨hin, hk⟩ := mem_filter.mp ht
      have hk : keep t = false := by simpa using hk
      exact ⟨fun hin' => by simp [((hmem t).mp hin').2] at hk, hneg t hin hk, h.taskResult t hin⟩
  have htasks : (d.reprocessTasks it pred).tasks = cleared.tasks := htasks
  refine ⟨hq, fun t ht => ?_, fun t ht hgone => ?_, fun t ht _ => ?_, fun p hp => .inl (hpollers ▸ hp),
    fun p hp hgone => ?_, fun p _ _ => congrArg (fun h => h.index p) hpollers, [], hfwd, nodup_nil,
    nofun⟩
  · rw [htasks] at ht
    exact .inl ((hmem t).mp ht).1
  · have ht : t ∈ d.tasks.items := ht.elim id nofun
    rw [htasks] at hgone ⊢
    have hk : keep t = false := by
      cases hk : keep t with
      | false => rfl
      | true => exact absurd ((hmem t).mpr ⟨ht, hk⟩) hgone
    refine ⟨hneg t ht hk, .inl ?_⟩
    rw [show (d.reprocessTasks it pred).taskResult t = _ from hres t, if_pos (mem_filter.mpr ⟨ht, by simp [hk]⟩)]
    exact some_ne_none _
  · refine ⟨(hres t).trans (if_neg fun hmem => ht (mem_of_mem_filter hmem)), ?_⟩
    rw [htasks]
    exact hothers t ht
  · exact absurd (hpollers.symm ▸ hp.elim id nofun) hgone

end MatcherData

end FastOrchestration.Matching
