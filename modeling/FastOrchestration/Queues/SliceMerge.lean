import FastOrchestration.Queues.SliceLaws

/-!
# Merging, compacting, shrinking and clearing slices

The second half of the slice laws. Two slices whose iterators and trackers are combined under a scope
that is wide enough for both are well formed and cover what either covered (`merged_spec`); the three
ways to merge differ in the scope only. `MergeWithSlice` cuts both slices at each other's ends, and
`Merged` records how the pieces lie, which is what a reader needs to keep its slices in order.

`shrinkScope` forgets acknowledged executables, moves the start of the range up to the first task that
is tracked or unread, and narrows the predicate to the groups that are left once everything is read.
-/

namespace FastOrchestration.Queues

open List Range Tracker

open Lib (Yields)

variable {κ : Type} [DecidableEq κ] {g : Grouper κ} {w : World} {F : Panic → Prop}

namespace Slice

variable {m : Nat} {s i : Slice κ}

/-- A slice with the range that covers what two slices cover. -/
def Joins (g : Grouper κ) (w : World) (s i : Slice κ) (range : Range) (o : Slice κ) : Prop :=
  o.scope.range = range ∧ o.Wf g w ∧ ∀ t ∈ w.store.tasks, s.Covers t ∨ i.Covers t → o.Covers t

section

variable (hs : s.Wf g w)

include hs

/-- Iterators and trackers of two slices under a scope that is wide enough for both. -/
lemma merged_spec (hi : i.Wf g w) (scope : Scope) (hr : scope.range.Proper)
    (hn : w.admits scope.predicate) (hrs : scope.range.containsRange s.scope.range)
    (hri : scope.range.containsRange i.scope.range)
    (hps : ∀ t, s.scope.predicate.test t → scope.predicate.test t)
    (hpi : ∀ t, i.scope.predicate.test t → scope.predicate.test t) :
    Yields F (fun its => Joins g w s i scope.range (make m scope its (s.tracker.merge g i.tracker)))
      (mergeIterators s.iterators i.iterators) := by
  refine (mergeIterators_spec
    (fun it h => ⟨(hs.inside it h).1, containsRange_trans hrs (hs.inside it h).2⟩) hs.separated
    (fun it h => ⟨(hi.inside it h).1, containsRange_trans hri (hi.inside it h).2⟩) hi.separated).mono (fun _ => id) ?_
  intro its ⟨hin, hsep, hreads⟩
  obtain ⟨hfrom, hkeep⟩ := mem_merge g s.tracker i.tracker
  have hpend : ∀ e ∈ (s.tracker.merge g i.tracker).pendingExecutables,
      scope.range.containsKey e.task.key ∧ scope.predicate.test e.task ∧
      w.known e.task ∧ (e.state = .acked → w.done e.task.key) := by
    intro e he
    obtain he | he := hfrom e he
    · obtain ⟨h1, h2, h3⟩ := hs.pending e he
      exact ⟨containsKey_of_containsRange hrs h1, hps _ h2, h3⟩
    obtain ⟨h1, h2, h3⟩ := hi.pending e he
    exact ⟨containsKey_of_containsRange hri h1, hpi _ h2, h3⟩
  -- an executable may be replaced by another one for the same task
  have htracks : ∀ t ∈ w.store.tasks, s.Tracks t ∨ i.Tracks t →
      ∃ e ∈ (s.tracker.merge g i.tracker).pendingExecutables, e.task = t := by
    intro t ht h
    obtain ⟨e', he', hk⟩ : ∃ e' ∈ (s.tracker.merge g i.tracker).pendingExecutables, e'.task.key = t.key := by
      obtain ⟨e, he, rfl⟩ | ⟨e, he, rfl⟩ := h
      · exact hkeep e (.inl he)
      · exact hkeep e (.inr he)
    exact ⟨e', he', (w.agree e'.task (hpend e' he').2.2.1 t ht hk.symm).symm⟩
  refine ⟨ensure_range _, Wf.ensure ⟨hr, hn, hin, hsep, hs.counted.merge hi.counted, hpend⟩, fun t ht h => Covers.ensure ?_⟩
  obtain (h | ⟨h, hp⟩) | (h | ⟨h, hp⟩) := h
  · exact .inl (htracks t ht (.inl h))
  · exact .inr ⟨hreads _ (.inl h), hps _ hp⟩
  · exact .inl (htracks t ht (.inr h))
  · exact .inr ⟨hreads _ (.inr h), hpi _ hp⟩

abbrev hull (a b : Range) : Range :=
  ⟨min a.inclusiveMin b.inclusiveMin, max a.exclusiveMax b.exclusiveMax⟩

omit hs in
lemma hull_proper {a b : Range} (ha : a.Proper) (hb : b.Proper) :
    (hull a b).Proper ∧ (hull a b).containsRange a ∧ (hull a b).containsRange b :=
  ⟨⟨(min_le_left _ _).trans (ha.1.trans (le_max_left _ _)), ha.2.1.min hb.2.1, ha.2.2.max hb.2.2⟩,
    containsRange_iff.mpr ⟨min_le_left _ _, le_max_left _ _⟩,
    containsRange_iff.mpr ⟨min_le_right _ _, le_max_right _ _⟩⟩

lemma mergeByRange_spec (hi : i.Wf g w) (h : s.scope.canMergeByRange i.scope) :
    Yields F (Joins g w s i (hull s.scope.range i.scope.range)) (mergeByRange g m s i) := by
  obtain ⟨hcan, heq⟩ := Bool.and_eq_true_iff.mp h
  obtain ⟨hr, hrs, hri⟩ := hull_proper hs.proper hi.proper
  have hsound := hs.normal.laws.sound hi.normal heq
  refine (merged_spec (m := m) hs hi ⟨_, s.scope.predicate⟩ hr hs.admitted
    hrs hri (fun _ h => h) fun t h => (hsound t).trans h).bind fun its hits => ?_
  simp only [Scope.mergeByRange, h, merge_ok hs.proper.1 hcan]
  exact hits

lemma mergeByPredicate_spec (hi : i.Wf g w) (h : s.scope.range = i.scope.range) :
    Yields F (Joins g w s i s.scope.range) (mergeByPredicate g m s i) := by
  have hor := Predicate.test_orPredicates hs.normal hi.normal
  have hcan : s.scope.canMergeByPredicate i.scope := by
    simp [Scope.canMergeByPredicate, equals, h]
  refine (merged_spec (m := m) hs hi ⟨s.scope.range, s.scope.predicate.orPredicates i.scope.predicate⟩
    hs.proper (w.admits_or hs.admitted hi.admitted) (containsRange_refl _)
    (h ▸ containsRange_refl _) (fun t h => by rw [hor, h, Bool.true_or])
    fun t h => by rw [hor, h, Bool.or_true]).bind fun its hits => ?_
  simp only [Scope.mergeByPredicate, hcan]
  exact hits

lemma compactWithSlice_spec (hi : i.Wf g w) :
    Yields F (Joins g w s i (hull s.scope.range i.scope.range)) (compactWithSlice g m s i) := by
  obtain ⟨hr, hrs, hri⟩ := hull_proper hs.proper hi.proper
  have hor := Predicate.test_orPredicates hs.normal hi.normal
  simp only [compactWithSlice, Key.minKey_eq_min, Key.maxKey_eq_max, newRange_ok hr.1]
  exact (merged_spec (m := m) hs hi ⟨_, s.scope.predicate.orPredicates i.scope.predicate⟩ hr
    (w.admits_or hs.admitted hi.admitted) hrs hri (fun t h => by rw [hor, h, Bool.true_or])
    fun t h => by rw [hor, h, Bool.or_true]).bind fun its hits => hits

lemma Wf.scope_contains {t} (h : s.Covers t) : s.scope.contains t := by
  obtain ⟨e, he, rfl⟩ | ⟨⟨it, hit, hc⟩, hp⟩ := h
  · exact Bool.and_eq_true_iff.mpr ⟨(hs.pending e he).1, (hs.pending e he).2.1⟩
  have hc := containsKey_of_containsRange (hs.inside it hit).2 hc
  exact Bool.and_eq_true_iff.mpr ⟨hc, hp⟩

lemma Wf.not_covers (he : s.scope.isEmpty) (t : Task) : ¬ s.Covers t := by
  intro h
  obtain ⟨hk, hp⟩ := Bool.and_eq_true_iff.mp (hs.scope_contains h)
  obtain he | he := Bool.or_eq_true_iff.mp he
  · obtain ⟨h1, h2⟩ := containsKey_iff.mp hk
    exact absurd (of_decide_eq_true he) (h1.trans_lt h2).ne
  cases hpred : s.scope.predicate with
  | empty => simp [hpred, Predicate.test] at hp
  | _ => simp [hpred, Predicate.isEmpty] at he

/-- The results of merging `s` with a slice `i` that does not start before it. -/
structure Merged (g : Grouper κ) (w : World) (s i : Slice κ) (outs : List (Slice κ)) : Prop where
  wf : ∀ o ∈ outs, o.Wf g w
  covers : ∀ t ∈ w.store.tasks, s.Covers t ∨ i.Covers t → ∃ o ∈ outs, o.Covers t
  ordered : outs.Pairwise fun a b => a.scope.range.exclusiveMax ≤ b.scope.range.inclusiveMin
  lower : ∀ o ∈ outs, s.scope.range.inclusiveMin ≤ o.scope.range.inclusiveMin
  start : ∀ o ∈ outs, o.scope.range.inclusiveMin ≤ s.scope.range.exclusiveMax ∧
    o.scope.range.inclusiveMin ≤ i.scope.range.exclusiveMax
  upper : ∀ o ∈ outs, o.scope.range.exclusiveMax ≤ max s.scope.range.exclusiveMax i.scope.range.exclusiveMax

omit hs in
lemma Merged.filter {outs : List (Slice κ)} (h : Merged g w s i outs) :
    Merged g w s i (outs.filter (!·.scope.isEmpty)) where
  wf o ho := h.wf o (mem_of_mem_filter ho)
  covers t ht hc := by
    obtain ⟨o, ho, hoc⟩ := h.covers t ht hc
    refine ⟨o, mem_filter.mpr ⟨ho, ?_⟩, hoc⟩
    cases he : o.scope.isEmpty with
    | true => exact absurd hoc ((h.wf o ho).not_covers he t)
    | false => rfl
  ordered := h.ordered.filter _
  lower o ho := h.lower o (mem_of_mem_filter ho)
  start o ho := h.start o (mem_of_mem_filter ho)
  upper o ho := h.upper o (mem_of_mem_filter ho)

omit hs in
lemma Merged.pieces {a b c : Slice κ} {k k'} (hwa : a.Wf g w) (hwb : b.Wf g w) (hwc : c.Wf g w)
    (ha : a.scope.range = ⟨s.scope.range.inclusiveMin, k⟩) (hb : b.scope.range = ⟨k, k'⟩)
    (hc : c.scope.range.inclusiveMin = k')
    (hk : s.scope.range.inclusiveMin ≤ k) (hkk : k ≤ k') (hks : k' ≤ s.scope.range.exclusiveMax)
    (hki : k' ≤ i.scope.range.exclusiveMax)
    (hup : c.scope.range.exclusiveMax ≤ max s.scope.range.exclusiveMax i.scope.range.exclusiveMax)
    (hcov : ∀ t ∈ w.store.tasks, s.Covers t ∨ i.Covers t → a.Covers t ∨ b.Covers t ∨ c.Covers t) :
    Merged g w s i [a, b, c] where
  wf := by
    simp only [forall_mem_cons]
    exact ⟨hwa, hwb, hwc, nofun⟩
  covers t ht h := by
    obtain h | h | h := hcov t ht h
    · exact ⟨a, by simp, h⟩
    · exact ⟨b, by simp, h⟩
    · exact ⟨c, by simp, h⟩
  ordered := by
    simp only [pairwise_cons, forall_mem_cons, ha, hb, hc]
    exact ⟨⟨le_rfl, hkk, nofun⟩, ⟨le_rfl, nofun⟩, nofun, .nil⟩
  lower := by
    simp only [forall_mem_cons, ha, hb, hc]
    exact ⟨le_rfl, hk, hk.trans hkk, nofun⟩
  start := by
    simp only [forall_mem_cons, ha, hb, hc]
    have hs := hk.trans (hkk.trans hks)
    exact ⟨⟨hs, (hk.trans hkk).trans hki⟩, ⟨hkk.trans hks, hkk.trans hki⟩, ⟨hks, hki⟩, nofun⟩
  upper := by
    simp only [forall_mem_cons, ha, hb]
    have hmax := hks.trans (le_max_left _ i.scope.range.exclusiveMax)
    exact ⟨hkk.trans hmax, hmax, hup, nofun⟩

lemma mergeOrdered_yields (hi : i.Wf g w) (hle : s.scope.range.inclusiveMin ≤ i.scope.range.inclusiveMin) :
    Yields (Fault w) (Merged g w s i) (mergeOrdered g m s i) := by
  unfold mergeOrdered
  cases hc : s.scope.range.canMerge i.scope.range with
  | false => exact .unableToMerge
  | true =>
    obtain ⟨-, hmeet⟩ := canMerge_iff.mp hc
    simp only [Bool.not_true, Bool.false_eq_true, if_false]
    split
    · rename_i hcan
      refine (mergeByRange_spec hs hi hcan).bind fun o ⟨hr, hwf, hcov⟩ => ?_
      have hv := hi.proper.1
      refine (show Merged .. from ⟨by simpa using hwf, fun t ht h => ⟨o, by simp, hcov t ht h⟩, pairwise_singleton _ _,
        ?_, ?_, ?_⟩)
      · simp [hr, min_eq_left hle]
      · simp only [forall_mem_cons, hr, min_eq_left hle]
        exact ⟨⟨hs.proper.1, hle.trans hv⟩, nofun⟩
      simp only [forall_mem_cons, hr]
      exact ⟨le_rfl, nofun⟩
    refine (splitByRange_yields hs hi.proper.2.1).bind fun (l, r) ⟨_, hlr, hrr, hwl, hwr, hcov⟩ => ?_
    dsimp only at hlr hrr hwl hwr hcov ⊢
    split
    · -- the incoming slice reaches beyond this one
      refine (splitByRange_yields hi hwr.proper.2.2).bind fun (li, ri) ⟨⟨_, hmax⟩, hlir, hrir, hwli, hwri, hcov'⟩ => ?_
      dsimp only at hlir hrir hwli hwri hcov' ⊢
      refine (mergeByPredicate_spec hwr hwli (by rw [hlir, hrr])).bind fun mid ⟨hmr, hwm, hcovm⟩ => ?_
      simp only [hrr] at hmax hrir hmr
      refine Merged.filter (.pieces hwl hwm hwri hlr hmr (by rw [hrir]) hle hmeet le_rfl
        hmax (by simp [hrir]) fun t ht h => ?_)
      obtain h | h := h
      · exact (hcov t h).imp id fun h => .inl (hcovm t ht (.inl h))
      · exact .inr ((hcov' t h).imp (fun h => hcovm t ht (.inr h)) id)
    -- the incoming slice ends inside this one
    refine (splitByRange_yields hwr hi.proper.2.2).bind fun (cm, cr) ⟨⟨hmin, hmax⟩, hcmr, hcrr, hwcm, hwcr, hcov'⟩ => ?_
    dsimp only at hcmr hcrr hwcm hwcr hcov' ⊢
    simp only [hrr] at hmin hmax hcmr hcrr
    refine (mergeByPredicate_spec hwcm hi hcmr).bind fun mid ⟨hmr, hwm, hcovm⟩ => ?_
    rw [hcmr] at hmr
    refine Merged.filter (.pieces hwl hwm hwcr hlr hmr (by rw [hcrr]) hle hmin hmax
      le_rfl (by simp [hcrr]) fun t ht h => ?_)
    obtain h | h := h
    · obtain h | h := hcov t h
      · exact .inl h
      · exact .inr ((hcov' t h).imp (fun h => hcovm t ht (.inl h)) id)
    · exact .inr (.inl (hcovm t ht (.inr h)))

/-- A slice that takes over the range end and the coverage of another one. -/
structure Reduced (g : Grouper κ) (w : World) (s s' : Slice κ) : Prop where
  wf : s'.Wf g w
  lower : s.scope.range.inclusiveMin ≤ s'.scope.range.inclusiveMin
  upper : s'.scope.range.exclusiveMax = s.scope.range.exclusiveMax
  covers : ∀ t ∈ w.store.tasks, ¬ w.done t.key → s.Covers t → s'.Covers t

lemma Reduced.refl : Reduced g w s s := ⟨hs, le_rfl, rfl, fun _ _ _ h => h⟩

omit hs in
lemma Reduced.trans {s' s''} (h : Reduced g w s s') (h' : Reduced g w s' s'') : Reduced g w s s'' where
  wf := h'.wf
  lower := h.lower.trans h'.lower
  upper := h'.upper.trans h.upper
  covers t ht hd hc := h'.covers t ht hd (h.covers t ht hd hc)

/-- The new start of the range is between the ends of the old one, and at or before all that the
slice still has to do. -/
def firstUnread : List Iterator → Key
  | [] => Key.maximumKey
  | it :: _ => it.range.inclusiveMin

lemma Wf.shrinkRange_min {k} (hk : (shrinkRange g s).scope.range.inclusiveMin = k) : k.Valid ∧
    s.scope.range.inclusiveMin ≤ k ∧ k ≤ s.scope.range.exclusiveMax ∧
    (∀ e ∈ (s.tracker.shrink g).1.pendingExecutables, k ≤ e.task.key) ∧
    ∀ it ∈ s.iterators, k ≤ it.range.inclusiveMin := by
  obtain ⟨hv, hminv, hmaxv⟩ := hs.proper
  obtain ⟨hlow, hwit⟩ := shrink_minKey (g := g) s.tracker
  have hpend : ∀ e ∈ (s.tracker.shrink g).1.pendingExecutables,
      s.scope.range.containsKey e.task.key ∧ e.task.key.Valid ∧
      e.task.key < Key.maximumKey := fun e he => by
    obtain ⟨h1, -, hknown, -⟩ := hs.pending e (mem_shrink.mp he).1
    exact ⟨h1, w.valid _ hknown⟩
  obtain ⟨itMin, hitMin⟩ : ∃ k, k = firstUnread s.iterators := ⟨_, rfl⟩
  have hits : ∀ it ∈ s.iterators, itMin ≤ it.range.inclusiveMin := by
    cases hi : s.iterators with
    | nil => simp
    | cons it its =>
      rw [hi] at hitMin
      rw [hitMin]
      have hin := hs.inside
      have hsep := hs.separated
      rw [hi] at hin hsep
      exact head_le hin hsep
  have hitWit : itMin = Key.maximumKey ∨ ∃ it ∈ s.iterators, it.range.inclusiveMin = itMin := by
    cases hi : s.iterators with
    | nil => exact .inl (by rw [hitMin, hi, firstUnread])
    | cons it its => exact .inr ⟨it, mem_cons_self, by rw [hitMin, hi, firstUnread]⟩
  have hnew : k = if min (s.tracker.shrink g).2 itMin = Key.maximumKey then s.scope.range.exclusiveMax
      else min (s.tracker.shrink g).2 itMin := by
    rw [← Key.minKey_eq_min, hitMin, ← hk]
    rfl
  rw [hnew]
  split
  · -- nothing is tracked, and what is unread starts at the largest key
    rename_i hmax
    have hpmax : Key.maximumKey ≤ (s.tracker.shrink g).2 := hmax ▸ min_le_left _ _
    have himax : Key.maximumKey ≤ itMin := hmax ▸ min_le_right _ _
    refine ⟨hmaxv, hv, le_rfl, fun e he => ?_, fun it hit => ?_⟩
    · exact absurd (hpend e he).2.2 (not_lt.mpr (hpmax.trans (hlow e he)))
    · exact hmaxv.le_maximumKey.trans (himax.trans (hits it hit))
  rename_i hne
  have hmem : (min (s.tracker.shrink g).2 itMin).Valid ∧ s.scope.range.inclusiveMin ≤ min (s.tracker.shrink g).2 itMin ∧
      min (s.tracker.shrink g).2 itMin ≤ s.scope.range.exclusiveMax := by
    obtain h | h := min_choice (s.tracker.shrink g).2 itMin
    · rw [h] at hne ⊢
      obtain ⟨e, he, hk⟩ := hwit.resolve_left hne
      obtain ⟨h1, h2, -⟩ := hpend e he
      rw [← hk]
      obtain ⟨h3, h4⟩ := containsKey_iff.mp h1
      exact ⟨h2, h3, h4.le⟩
    rw [h] at hne ⊢
    obtain ⟨it, hit, hk⟩ := hitWit.resolve_left hne
    obtain ⟨hwf, hc⟩ := hs.inside it hit
    obtain ⟨h1, h2⟩ := containsRange_iff.mp hc
    rw [← hk]
    exact ⟨hwf.proper.2.1, h1, hwf.proper.1.trans h2⟩
  exact ⟨hmem.1, hmem.2.1, hmem.2.2, fun e he => (min_le_left _ _).trans (hlow e he),
    fun it hit => (min_le_right _ _).trans (hits it hit)⟩

lemma Wf.shrinkRange : Reduced g w s (shrinkRange g s) := by
  obtain ⟨hmv, hlow, hhigh, hpend, hits⟩ := hs.shrinkRange_min rfl
  refine ⟨⟨⟨hhigh, hmv, hs.proper.2.2⟩, hs.admitted, fun it hit => ?_, hs.separated,
    hs.counted.shrink, fun e he => ?_⟩, hlow, rfl, fun t _ hd hc => ?_⟩
  · obtain ⟨hwf, hc⟩ := hs.inside it hit
    exact ⟨hwf, containsRange_iff.mpr ⟨hits it hit, (containsRange_iff.mp hc).2⟩⟩
  · obtain ⟨h1, h2⟩ := hs.pending e (mem_shrink.mp he).1
    exact ⟨containsKey_iff.mpr ⟨hpend e he, (containsKey_iff.mp h1).2⟩, h2⟩
  obtain ⟨e, he, rfl⟩ | hc := hc
  · have hna : e.state ≠ .acked := fun ha => hd ((hs.pending e he).2.2.2 ha)
    exact .inl ⟨e, mem_shrink.mpr ⟨he, hna⟩, rfl⟩
  · exact .inr hc

lemma Wf.shrinkPredicate : Reduced g w s (shrinkPredicate g m s) := by
  unfold Slice.shrinkPredicate
  split
  · exact .refl hs
  rename_i hguard
  have hnil : s.iterators = [] := by
    by_contra hne
    exact hguard (.inl hne)
  have hadm : w.admits (g.predicate s.tracker.pendingPerKey.keys) :=
    w.admits_stable (g.normal _) (g.stable _)
  refine ⟨Wf.ensure ⟨hs.proper, hadm, hs.inside, hs.separated, hs.counted, fun e he => ?_⟩,
    by simp, by simp, fun t _ _ hc => Covers.ensure ?_⟩
  · obtain ⟨h1, -, h3⟩ := hs.pending e he
    exact ⟨h1, (g.test_predicate _ _).mpr (mem_keys_of_pending hs.counted he), h3⟩
  obtain hc | ⟨⟨it, hit, -⟩, -⟩ := hc
  · exact .inl hc
  rw [hnil] at hit
  cases hit

lemma shrinkScope_spec : Reduced g w s (shrinkScope g m s) :=
  hs.shrinkRange.trans hs.shrinkRange.wf.shrinkPredicate

lemma clear_spec : Reduced g w s (clear g m s) := by
  have hred := shrinkScope_spec (m := m) hs
  obtain ⟨hproper, hn, hin, -, -, hpend⟩ := hred.wf
  refine hred.trans ⟨⟨hproper, hn, ?_, pairwise_singleton _ _, counted_empty,
    nofun⟩, le_rfl, rfl, fun t _ _ hc => .inr ?_⟩
  · exact forall_mem_cons.mpr ⟨⟨Iterator.wf_newIterator hproper, containsRange_refl _⟩, nofun⟩
  obtain ⟨e, he, rfl⟩ | ⟨⟨it, hit, hc⟩, hp⟩ := hc
  · exact ⟨⟨_, mem_cons_self, (hpend e he).1⟩, (hpend e he).2.1⟩
  · exact ⟨⟨_, mem_cons_self, containsKey_of_containsRange (hin it hit).2 hc⟩, hp⟩

end

end Slice

end FastOrchestration.Queues
