import FastOrchestration.Queues.SliceLaws

/-!
# Selecting tasks from a slice

`SelectTasks` reads pages, moves the start of its first iterator behind each task it takes, tracks the
tasks that the predicate accepts and drops iterators that are used up. Three facts are carried through
its loops. The page at hand serves what is left of the range (`Iterator.Serves`), so a task that the
iterator moves past is the one it just took. What is tracked stays in the scope (`Held`). And a stored
task that was to be read and is accepted is tracked once it is no longer to be read (`Passes`).

It follows that the operation never panics on a well formed slice, whatever the store replies, and
that it loses no task (`selectTasks_spec`).
-/

namespace FastOrchestration.Queues

open List Iterator Range Lib

variable {κ : Type} [DecidableEq κ] {g : Grouper κ} {w : World} {store : Store}

namespace Iterator

lemma serves_fetch (hst : w.Feeds store) (range : Range) (size : Nat) (more : Bool) :
    Serves w range (Slice.fetch store size more range) := by
  have hsorted : (store.read range).Pairwise fun a b => a.key < b.key := store.sorted.filter _
  rw [← take_append_drop size (store.read range)] at hsorted
  obtain ⟨htake, -, hcross⟩ := pairwise_append.mp hsorted
  refine ⟨htake, fun t ht => ?_, fun t ht hc => ?_⟩
  · obtain ⟨hin, hc⟩ := mem_filter.mp (mem_of_mem_take ht)
    exact ⟨hc, hst.2 t hin⟩
  have hread : t ∈ store.read range := mem_filter.mpr ⟨hst.1 t ht, hc⟩
  rw [← take_append_drop size (store.read range)] at hread
  obtain h | h := mem_append.mp hread
  · exact .inl h
  have hlt : size < (store.read range).length := by
    have hpos := length_pos_of_mem h
    rw [length_drop] at hpos
    omega
  exact .inr ⟨by simp [Slice.fetch, hlt], fun i hi => hcross i hi t h⟩

lemma serves_read (hst : w.Feeds store) (range : Range) : Serves w range ⟨store.read range, false⟩ := by
  refine ⟨store.sorted.filter _, fun t ht => ?_, fun t ht hc => ?_⟩
  · obtain ⟨hin, hc⟩ := mem_filter.mp ht
    exact ⟨hc, hst.2 t hin⟩
  · exact .inl (mem_filter.mpr ⟨hst.1 t ht, hc⟩)

/-- Taking the first item: the rest of the page serves the rest of the range, and the range has lost
no other stored task. -/
lemma Serves.tail {range : Range} {t : Task} {items more} (hr : range.Proper) (h : Serves w range ⟨t :: items, more⟩) :
    ∃ next, t.key.next = .ok next ∧ Proper ⟨next, range.exclusiveMax⟩ ∧
      range.containsRange ⟨next, range.exclusiveMax⟩ ∧
      Serves w ⟨next, range.exclusiveMax⟩ ⟨items, more⟩ ∧
      ∀ t' ∈ w.store.tasks, range.containsKey t'.key →
        t' = t ∨ containsKey ⟨next, range.exclusiveMax⟩ t'.key := by
  obtain ⟨hc, hknown⟩ := h.items t mem_cons_self
  obtain ⟨hmin, hmax⟩ := containsKey_iff.mp hc
  obtain ⟨hv, hlt⟩ := w.valid t hknown
  obtain ⟨next, heq, hnv, htn, hleast⟩ := Key.next_spec hv hlt
  obtain ⟨hfirst, hsorted⟩ := pairwise_cons.mp h.sorted
  have hafter : ∀ t', w.known t' → t.key < t'.key → range.containsKey t'.key →
      containsKey ⟨next, range.exclusiveMax⟩ t'.key := fun t' hk hlt hc =>
    containsKey_iff.mpr ⟨hleast _ (w.valid t' hk).1 hlt, (containsKey_iff.mp hc).2⟩
  have hstored : ∀ t' ∈ w.store.tasks, range.containsKey t'.key → t' = t ∨ t.key < t'.key := by
    intro t' ht' hc'
    obtain h | ⟨-, h⟩ := h.complete t' ht' hc'
    · obtain h | h := mem_cons.mp h
      · exact .inl h
      · exact .inr (hfirst t' h)
    · exact .inr (h t mem_cons_self)
  refine ⟨next, heq, ⟨hleast _ hr.2.2 hmax, hnv, hr.2.2⟩, containsRange_iff.mpr ⟨hmin.trans htn.le, le_rfl⟩,
    ⟨hsorted, fun i hi => ?_, fun t' ht' hc' => ?_⟩, fun t' ht' hc' => ?_⟩
  · obtain ⟨hci, hki⟩ := h.items i (mem_cons_of_mem _ hi)
    exact ⟨hafter i hki (hfirst i hi) hci, hki⟩
  · obtain ⟨h1, h2⟩ := containsKey_iff.mp hc'
    have hin : range.containsKey t'.key :=
      containsKey_iff.mpr ⟨hmin.trans (htn.le.trans h1), h2⟩
    obtain h | ⟨hm, h⟩ := h.complete t' ht' hin
    · obtain rfl | h := mem_cons.mp h
      · exact absurd h1 (not_le.mpr htn)
      · exact .inl h
    · exact .inr ⟨hm, fun i hi => h i (mem_cons_of_mem _ hi)⟩
  · exact (hstored t' ht' hc').imp id fun hlt => hafter t' (w.stored t' ht') hlt hc'

end Iterator

namespace Slice

structure Held (g : Grouper κ) (w : World) (scope : Scope) (t : Tracker κ) : Prop where
  counted : t.Counted g
  pending : ∀ e ∈ t.pendingExecutables, scope.range.containsKey e.task.key = true ∧
    scope.predicate.test e.task = true ∧ w.known e.task ∧ (e.state = .acked → w.done e.task.key)

def Tracked (tr : Tracker κ) (t : Task) : Prop := ∃ e ∈ tr.pendingExecutables, e.task = t

/-- Going from one range and tracker to another: accepted stored tasks stay tracked or unread. -/
structure Passes (w : World) (scope : Scope) (r : Range) (tr : Tracker κ) (r' : Range) (tr' : Tracker κ) : Prop where
  sub : r.containsRange r' = true
  tracks : ∀ t ∈ w.store.tasks, Tracked tr t → Tracked tr' t
  reads : ∀ t ∈ w.store.tasks, r.containsKey t.key = true → scope.predicate.test t = true →
    r'.containsKey t.key = true ∨ Tracked tr' t

variable {scope : Scope} {r r' r'' : Range} {tr tr' tr'' : Tracker κ} {p : Progress κ} {F : Panic → Prop}

omit [DecidableEq κ] in
lemma Passes.refl : Passes w scope r tr r tr where
  sub := containsRange_refl r
  tracks _ _ h := h
  reads _ _ h _ := .inl h

omit [DecidableEq κ] in
lemma Passes.trans (h : Passes w scope r tr r' tr') (h' : Passes w scope r' tr' r'' tr'') :
    Passes w scope r tr r'' tr'' where
  sub := containsRange_trans h.sub h'.sub
  tracks t ht hk := h'.tracks t ht (h.tracks t ht hk)
  reads t ht hc hp := by
    obtain hc | hk := h.reads t ht hc hp
    · exact h'.reads t ht hc hp
    · exact .inr (h'.tracks t ht hk)

lemma Held.add {t : Task} (h : Held g w scope tr) (hc : scope.range.containsKey t.key)
    (hp : scope.predicate.test t) (hk : w.known t) :
    Held g w scope (tr.add g (newExecutable t)) ∧ Tracked (tr.add g (newExecutable t)) t ∧
      ∀ t' ∈ w.store.tasks, Tracked tr t' → Tracked (tr.add g (newExecutable t)) t' := by
  have hmem : ∀ e, e ∈ (tr.add g (newExecutable t)).pendingExecutables ↔
      e ∈ tr.pendingExecutables ∧ t.key ≠ e.task.key ∨ e = newExecutable t := by
    simp [Tracker.add, Tracker.mem_put, newExecutable]
  have hnew : Tracked (tr.add g (newExecutable t)) t := ⟨_, (hmem _).mpr (.inr rfl), rfl⟩
  refine ⟨⟨h.counted.add _, fun e he => ?_⟩, hnew, fun t' ht' ⟨e, he, het⟩ => ?_⟩
  · obtain ⟨he, -⟩ | rfl := (hmem e).mp he
    · exact h.pending e he
    · exact ⟨hc, hp, hk, nofun⟩
  by_cases hkey : t.key = e.task.key
  · -- the executable with this key is replaced by one for the same task
    have heq := w.agree t hk t' ht' (by rw [← het, hkey])
    exact heq ▸ hnew
  · exact ⟨e, (hmem e).mpr (.inl ⟨he, hkey⟩), het⟩

lemma selectItems_spec {b items more} (hr : r.Proper) (hin : scope.range.containsRange r)
    (hserves : Serves w r ⟨items, more⟩) (hheld : Held g w scope p.tracker) :
    Yields F (fun x => x.2.1.Proper ∧ Serves w x.2.1 ⟨x.1, more⟩ ∧ Held g w scope x.2.2.tracker ∧
      Passes w scope r p.tracker x.2.1 x.2.2.tracker ∧ (x.2.2.executables.length < b → x.1 = []))
      (selectItems g scope b items r p) := by
  induction items generalizing r p with
  | nil => exact ⟨hr, hserves, hheld, .refl, fun _ => rfl⟩
  | cons t items ih =>
    rw [selectItems]
    split
    · obtain ⟨next, heq, hr', hsub, hserves', hlost⟩ := hserves.tail hr
      obtain ⟨hc, hknown⟩ := hserves.items t mem_cons_self
      have hcs := containsKey_of_containsRange hin hc
      have hin' := containsRange_trans hin hsub
      rw [heq]
      change Yields _ _ (if _ then _ else _)
      rw [if_neg (by simp [hcs])]
      split
      next hp =>
        obtain ⟨hheld', hnew, hkeep⟩ := hheld.add hcs hp hknown
        refine (ih hr' hin' hserves' hheld').mono (fun _ => id) ?_
        intro x ⟨h1, h2, h3, h4, h5⟩
        refine ⟨h1, h2, h3, .trans ⟨hsub, hkeep, fun t' ht' hc' _ => ?_⟩ h4, h5⟩
        obtain rfl | hc' := hlost t' ht' hc'
        · exact .inr hnew
        · exact .inl hc'
      next hp =>
        refine (ih hr' hin' hserves' hheld).mono (fun _ => id) ?_
        intro x ⟨h1, h2, h3, h4, h5⟩
        refine ⟨h1, h2, h3, .trans ⟨hsub, fun _ _ h => h, fun t' ht' hc' hp' => ?_⟩ h4, h5⟩
        obtain rfl | hc' := hlost t' ht' hc'
        · exact absurd hp' hp
        · exact .inl hc'
    next hfull => exact ⟨hr, hserves, hheld, .refl, fun h => absurd h hfull⟩

/-- What the selection from one iterator may end with: the iterator is used up and every task of its
range that is accepted is tracked, or an iterator for what is left remains. -/
def TurnOk (g : Grouper κ) (w : World) (scope : Scope) (r : Range) (tr : Tracker κ) :
    Turn κ → Prop
  | .exhausted _ p => Held g w scope p.tracker ∧ (∀ t ∈ w.store.tasks, Tracked tr t → Tracked p.tracker t) ∧
    ∀ t ∈ w.store.tasks, r.containsKey t.key = true → scope.predicate.test t = true → Tracked p.tracker t
  | .stopped it p _ => Held g w scope p.tracker ∧ it.Wf w ∧ Passes w scope r tr it.range p.tracker

lemma TurnOk.trans {turn} (h : Passes w scope r tr r' tr')
    (h' : TurnOk g w scope r' tr' turn) : TurnOk g w scope r tr turn := by
  cases turn with
  | exhausted replies p =>
    obtain ⟨hheld, htracks, hreads⟩ := h'
    refine ⟨hheld, fun t ht hk => htracks t ht (h.tracks t ht hk), fun t ht hc hp => ?_⟩
    obtain hc | hk := h.reads t ht hc hp
    · exact hreads t ht hc hp
    · exact htracks t ht hk
  | stopped it p failed =>
    obtain ⟨hheld, hwf, hpass⟩ := h'
    exact ⟨hheld, hwf, h.trans hpass⟩

lemma turnOk_exhausted (replies : List Reply) (hheld : Held g w scope p.tracker)
    (hserves : Serves w r ⟨[], false⟩) : TurnOk g w scope r p.tracker (.exhausted replies p) := by
  refine ⟨hheld, fun _ _ h => h, fun t ht hc _ => ?_⟩
  obtain h | ⟨h, -⟩ := hserves.complete t ht hc
  · cases h
  · cases h

lemma turnOk_stopped {more items} (hr : r'.Proper) (hserves : Serves w r' ⟨items, more⟩) (hheld : Held g w scope p.tracker)
    (hpass : Passes w scope r tr r' p.tracker) :
    TurnOk g w scope r tr (.stopped ⟨r', some ⟨items, more⟩⟩ p false) := by
  refine ⟨hheld, ⟨hr, fun q hq => ?_⟩, hpass⟩
  cases hq
  exact hserves

lemma selectPage_spec (batchSize : Nat) (replies : List Reply) {it : Iterator}
    (hit : it.Wf w) (hin : scope.range.containsRange it.range) (hheld : Held g w scope p.tracker) :
    Yields F (Sum.elim (TurnOk g w scope it.range p.tracker) fun x => x.1.Proper ∧ Held g w scope x.2.tracker ∧
      Passes w scope it.range p.tracker x.1 x.2.tracker) (selectPage g scope batchSize replies it p) := by
  unfold selectPage
  obtain ⟨⟨items, more⟩, hpage⟩ : ∃ page, it.page.getD ⟨[], true⟩ = page := ⟨_, rfl⟩
  simp only [hpage]
  refine (selectItems_spec (b := batchSize) hit.proper hin (hpage ▸ hit.serves) hheld).bind ?_
  intro (items', r', p') ⟨hr', hserves, hheld', hpass, hdone⟩
  dsimp only at *
  split
  · exact turnOk_stopped hr' hserves hheld' hpass
  rename_i hfull
  cases hdone (not_not.mp hfull)
  cases more with
  | false => exact .trans hpass (turnOk_exhausted replies hheld' hserves)
  | true => exact ⟨hr', hheld', hpass⟩

lemma selectPages_spec (hst : w.Feeds store) (batchSize : Nat) (replies : List Reply) {it : Iterator}
    (hit : it.Wf w) (hin : scope.range.containsRange it.range) (hheld : Held g w scope p.tracker) :
    Yields F (TurnOk g w scope it.range p.tracker) (selectPages g store scope batchSize replies it p) := by
  induction replies generalizing it p with
  | nil =>
    rw [selectPages]
    refine (selectPage_spec batchSize [] hit hin hheld).bind fun x hx => ?_
    obtain turn | ⟨r', p'⟩ := x
    · exact hx
    obtain ⟨hr', hheld', hpass⟩ := hx
    refine (selectItems_spec (b := batchSize) hr' (containsRange_trans hin hpass.sub) (serves_read hst r') hheld').bind ?_
    intro (items, r2, p2) ⟨hr2, hserves2, hheld2, hpass2, hdone2⟩
    dsimp only at *
    split
    · exact turnOk_stopped hr2 hserves2 hheld2 (hpass.trans hpass2)
    rename_i hfull
    cases hdone2 (not_not.mp hfull)
    exact .trans (hpass.trans hpass2) (turnOk_exhausted [] hheld2 hserves2)
  | cons reply replies ih =>
    rw [selectPages]
    refine (selectPage_spec batchSize (reply :: replies) hit hin hheld).bind fun x hx => ?_
    obtain turn | ⟨r', p'⟩ := x
    · exact hx
    obtain ⟨hr', hheld', hpass⟩ := hx
    cases reply with
    | failed => exact ⟨hheld', Iterator.wf_newIterator hr', hpass⟩
    | page size more =>
      have hit' : Iterator.Wf w ⟨r', some (fetch store size more r')⟩ :=
        ⟨hr', fun q hq => by cases hq; exact Iterator.serves_fetch hst r' size more⟩
      exact (ih hit' (containsRange_trans hin hpass.sub) hheld').mono (fun _ => id) fun _ => .trans hpass

lemma selectIterators_spec (hst : w.Feeds store) (batchSize : Nat) {its} (replies : List Reply)
    (hin : Inside w scope.range its) (hsep : Separated its) (hheld : Held g w scope p.tracker) :
    Yields F (fun x => Inside w scope.range x.1 ∧ Separated x.1 ∧ Held g w scope x.2.1.tracker ∧
      (∀ t ∈ w.store.tasks, Tracked p.tracker t → Tracked x.2.1.tracker t) ∧
      ∀ t ∈ w.store.tasks, Reads its t.key → scope.predicate.test t → Reads x.1 t.key ∨ Tracked x.2.1.tracker t)
      (selectIterators g store scope batchSize its replies p) := by
  induction its generalizing replies p with
  | nil => exact ⟨hin, hsep, hheld, fun _ _ h => h, fun _ _ h _ => .inl h⟩
  | cons it its ih =>
    rw [selectIterators]
    split
    · obtain ⟨⟨hit, hcit⟩, hin'⟩ := forall_mem_cons.mp hin
      obtain ⟨hlt, hsep'⟩ := pairwise_cons.mp hsep
      refine (selectPages_spec hst batchSize replies hit hcit hheld).bind fun turn hok => ?_
      cases turn with
      | exhausted replies' p' =>
        obtain ⟨hheld', htracks, hreads⟩ := hok
        refine (ih replies' hin' hsep' hheld').mono (fun _ => id) ?_
        intro x ⟨hin2, hsep2, hheld2, htracks2, hreads2⟩
        refine ⟨hin2, hsep2, hheld2, fun t ht hk => htracks2 t ht (htracks t ht hk), fun t ht hr hp => ?_⟩
        obtain hr | hr := reads_cons.mp hr
        · exact .inr (htracks2 t ht (hreads t ht hr hp))
        · exact hreads2 t ht hr hp
      | stopped it' p' failed =>
        obtain ⟨hheld', hwf, hpass⟩ := hok
        refine (show _ ∧ _ from ⟨?_, ?_, hheld', hpass.tracks, fun t ht hr hp => ?_⟩)
        · exact forall_mem_cons.mpr ⟨⟨hwf, containsRange_trans hcit hpass.sub⟩, hin'⟩
        · refine .cons (fun a ha => ?_) hsep'
          exact (containsRange_iff.mp hpass.sub).2.trans_lt (hlt a ha)
        rw [reads_cons] at hr ⊢
        obtain hr | hr := hr
        · exact (hpass.reads t ht hr hp).imp .inl id
        · exact .inl (.inr hr)
    · exact ⟨hin, hsep, hheld, fun _ _ h => h, fun _ _ h _ => .inl h⟩

lemma selectTasks_spec (hst : w.Feeds store) {s : Slice κ} (hs : s.Wf g w) (batchSize : Nat) (replies : List Reply) :
    Yields F (fun sel => sel.slice.scope = s.scope ∧ sel.slice.Wf g w ∧
      ∀ t ∈ w.store.tasks, s.Covers t → sel.slice.Covers t) (selectTasks g store s batchSize replies) := by
  refine (selectIterators_spec hst batchSize replies (p := ⟨s.tracker, []⟩) hs.inside hs.separated
    ⟨hs.counted, hs.pending⟩).bind ?_
  intro x ⟨hin, hsep, hheld, htracks, hreads⟩
  refine ⟨rfl, ⟨hs.proper, hs.admitted, hin, hsep, hheld.counted, hheld.pending⟩, fun t ht hc => ?_⟩
  obtain hc | ⟨hc, hp⟩ := hc
  · exact .inl (htracks t ht hc)
  · exact (hreads t ht hc hp).symm.imp id fun h => ⟨h, hp⟩

end Slice

end FastOrchestration.Queues
