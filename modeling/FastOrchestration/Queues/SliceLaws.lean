import FastOrchestration.Queues.Slice

/-!
# What the slice operations keep

`Slice.Wf` is the representation invariant of a slice with respect to a store: its iterators are
strictly separated, in order and inside its range, and its executables are inside its scope.
`Slice.Covers` says that a slice is responsible for a task: it tracks the task, or has yet to read it
and will accept it.

Each operation gets one lemma that says, where it succeeds, how the ranges of its results lie, that
they are well formed and that they cover what was covered before. The laws are
relative to a `World`; the tasks that may be dropped are those that it says are done.
-/

namespace FastOrchestration.Queues

open List Iterator Range Predicate

open Lib (bind_ok Yields)

variable {κ : Type} [DecidableEq κ] {g : Grouper κ} {w : World} {F : Panic → Prop} {it : Iterator} {s : Slice κ}

namespace Range

/-- A well formed range between keys that tasks can have. -/
def Proper (r : Range) : Prop := r.Valid ∧ r.inclusiveMin.Valid ∧ r.exclusiveMax.Valid

instance (r : Range) : Decidable r.Proper := inferInstanceAs (Decidable (_ ∧ _ ∧ _))

lemma containsKey_of_containsRange {r i : Range} (h : r.containsRange i) {k}
    (hk : i.containsKey k) : r.containsKey k := by
  obtain ⟨h1, h2⟩ := containsRange_iff.mp h
  obtain ⟨h3, h4⟩ := containsKey_iff.mp hk
  exact containsKey_iff.mpr ⟨h1.trans h3, h4.trans_le h2⟩

lemma containsRange_trans {r i j : Range} (h : r.containsRange i) (h' : i.containsRange j) : r.containsRange j := by
  obtain ⟨h1, h2⟩ := containsRange_iff.mp h
  obtain ⟨h3, h4⟩ := containsRange_iff.mp h'
  exact containsRange_iff.mpr ⟨h1.trans h3, h4.trans h2⟩

lemma containsRange_refl (r : Range) : r.containsRange r :=
  containsRange_iff.mpr ⟨le_rfl, le_rfl⟩

end Range

lemma Store.eq_of_key (store : Store) {t t' : Task} (ht : t ∈ store.tasks)
    (ht' : t' ∈ store.tasks) (hk : t'.key = t.key) : t' = t := by
  have hnodup : (store.tasks.map (·.key)).Nodup :=
    pairwise_map.mpr (store.sorted.imp fun h => h.ne)
  exact inj_on_of_nodup_map hnodup ht' ht hk

/-- What the slice laws refer to: a store, the tasks that slices may hold, the keys that have been
acknowledged, and the predicates that scopes may have. A stored task is known, and a known task is the
stored one with its key, if any. The predicates are normal forms, are closed under the operations, and
include each one that cannot tell a task from its executable. -/
structure World where
  store : Store
  known : Task → Prop
  done : Key → Prop
  admits : Predicate → Prop
  valid : ∀ t, known t → t.key.Valid ∧ t.key < Key.maximumKey
  stored : ∀ t ∈ store.tasks, known t
  agree : ∀ t, known t → ∀ t' ∈ store.tasks, t'.key = t.key → t' = t
  normal : ∀ {p}, admits p → p.Normal
  admits_stable : ∀ {p : Predicate}, p.Normal → (∀ t, p.test t.asExecutable = p.test t) → admits p
  admits_and : ∀ {p q}, admits p → admits q → admits (p.andPredicates q)
  admits_or : ∀ {p q}, admits p → admits q → admits (p.orPredicates q)
  admits_neg : ∀ {p}, admits p → admits p.neg

/-- A store that tasks are read from: it has the tasks of the world, and only known ones. -/
def World.Feeds (w : World) (store : Store) : Prop :=
  (∀ t ∈ w.store.tasks, t ∈ store.tasks) ∧ ∀ t ∈ store.tasks, w.known t

lemma World.feeds_store (w : World) : w.Feeds w.store := ⟨fun _ h => h, w.stored⟩

namespace Iterator

/-- A page serves a range: its items are tasks of the range in order, and a stored task of the range
is one of them or comes after all of them, with more to follow. -/
structure Serves (w : World) (range : Range) (p : Page) : Prop where
  sorted : p.items.Pairwise fun a b => a.key < b.key
  items : ∀ t ∈ p.items, range.containsKey t.key = true ∧ w.known t
  complete : ∀ t ∈ w.store.tasks, range.containsKey t.key = true →
    t ∈ p.items ∨ p.more = true ∧ ∀ i ∈ p.items, i.key < t.key

structure Wf (w : World) (it : Iterator) : Prop where
  proper : it.range.Proper
  page : ∀ p, it.page = some p → Serves w it.range p

lemma wf_newIterator {r : Range} (h : r.Proper) : (newIterator r).Wf w :=
  ⟨h, nofun⟩

lemma Wf.serves (h : it.Wf w) : Serves w it.range (it.page.getD ⟨[], true⟩) := by
  cases hp : it.page with
  | none => exact ⟨.nil, nofun, fun _ _ _ => .inr ⟨rfl, nofun⟩⟩
  | some p => exact h.page p hp

/-- The ranges of a list of iterators are strictly separated and in order. -/
def Separated (its : List Iterator) : Prop :=
  its.Pairwise fun a b => a.range.exclusiveMax < b.range.inclusiveMin

def Reads (its : List Iterator) (k : Key) : Prop := ∃ it ∈ its, it.range.containsKey k = true

lemma reads_cons {its k} : Reads (it :: its) k ↔ it.range.containsKey k ∨ Reads its k := by
  simp [Reads]

lemma reads_append {its its' : List Iterator} {k} : Reads (its ++ its') k ↔ Reads its k ∨ Reads its' k := by
  simp [Reads, or_and_right, exists_or]

def Inside (w : World) (r : Range) (its : List Iterator) : Prop :=
  ∀ it ∈ its, it.Wf w ∧ r.containsRange it.range = true

end Iterator

namespace Slice

structure Wf (g : Grouper κ) (w : World) (s : Slice κ) : Prop where
  proper : s.scope.range.Proper
  admitted : w.admits s.scope.predicate
  inside : Inside w s.scope.range s.iterators
  separated : Separated s.iterators
  counted : s.tracker.Counted g
  pending : ∀ e ∈ s.tracker.pendingExecutables, s.scope.range.containsKey e.task.key = true ∧
    s.scope.predicate.test e.task = true ∧ w.known e.task ∧
    (e.state = .acked → w.done e.task.key)

lemma Wf.normal (hs : s.Wf g w) : s.scope.predicate.Normal := w.normal hs.admitted

def Tracks (s : Slice κ) (t : Task) : Prop := ∃ e ∈ s.tracker.pendingExecutables, e.task = t

def Covers (s : Slice κ) (t : Task) : Prop :=
  s.Tracks t ∨ Reads s.iterators t.key ∧ s.scope.predicate.test t = true

end Slice

namespace Iterator

lemma split_eq {k} (h1 : it.range.inclusiveMin ≤ k) (h2 : k ≤ it.range.exclusiveMax) :
    it.split k = .ok (newIterator ⟨it.range.inclusiveMin, k⟩, newIterator ⟨k, it.range.exclusiveMax⟩) := by
  simp only [split, split_ok h1 h2]
  rfl

lemma merge_eq {it it' : Iterator} (hv : it.range.Valid) (hc : it.range.canMerge it'.range) :
    it.merge it' = .ok (newIterator ⟨min it.range.inclusiveMin it'.range.inclusiveMin,
      max it.range.exclusiveMax it'.range.exclusiveMax⟩) := by
  simp only [merge, merge_ok hv hc]
  rfl

end Iterator

namespace Slice

/-- The iterators on both sides of a key: inside their side, separated, each a part of one that was
there, and reading every key that was to be read. -/
structure IsSplit (w : World) (left right : Range) (its ls rs : List Iterator) : Prop where
  left : Inside w left ls
  right : Inside w right rs
  leftApart : Separated ls
  rightApart : Separated rs
  parts : ∀ it ∈ ls ++ rs, ∃ it' ∈ its, it'.range.containsRange it.range
  reads : ∀ key, Reads its key → Reads ls key ∨ Reads rs key

lemma IsSplit.cons {left right : Range} {it its as bs ls rs} (h : IsSplit w left right [it] as bs)
    (h' : IsSplit w left right its ls rs)
    (hlt : ∀ it' ∈ its, it.range.exclusiveMax < it'.range.inclusiveMin) :
    IsSplit w left right (it :: its) (as ++ ls) (bs ++ rs) := by
  have hpart : ∀ a ∈ as ++ bs, it.range.containsRange a.range := fun a ha => by
    simpa using h.parts a ha
  -- a part of a later iterator is still behind those of `it`
  have hafter : ∀ a ∈ as ++ bs, ∀ b ∈ ls ++ rs, a.range.exclusiveMax < b.range.inclusiveMin := by
    intro a ha b hb
    obtain ⟨it', hit', hc⟩ := h'.parts b hb
    have hle := (containsRange_iff.mp (hpart a ha)).2
    exact hle.trans_lt ((hlt it' hit').trans_le (containsRange_iff.mp hc).1)
  refine ⟨forall_mem_append.mpr ⟨h.left, h'.left⟩, forall_mem_append.mpr ⟨h.right, h'.right⟩,
    pairwise_append.mpr ⟨h.leftApart, h'.leftApart, fun a ha b hb => ?_⟩,
    pairwise_append.mpr ⟨h.rightApart, h'.rightApart, fun a ha b hb => ?_⟩, fun a ha => ?_, fun key hk => ?_⟩
  · exact hafter a (mem_append_left _ ha) b (mem_append_left _ hb)
  · exact hafter a (mem_append_right _ ha) b (mem_append_right _ hb)
  · have ha : a ∈ as ++ bs ∨ a ∈ ls ++ rs := by
      simp only [mem_append] at ha ⊢
      tauto
    obtain ha | ha := ha
    · exact ⟨it, mem_cons_self, hpart a ha⟩
    obtain ⟨it', hit', hc⟩ := h'.parts a ha
    exact ⟨it', mem_cons_of_mem _ hit', hc⟩
  rw [reads_append, reads_append]
  obtain hk | hk := reads_cons.mp hk
  · exact (h.reads key (reads_cons.mpr (.inl hk))).imp .inl .inl
  · exact (h'.reads key hk).imp .inr .inr

lemma splitIterators_spec (left right : Range) {k : Key} {its} (hk : k.Valid)
    (hleft : left.exclusiveMax = k) (hright : right.inclusiveMin = k)
    (hin : Inside w ⟨left.inclusiveMin, right.exclusiveMax⟩ its) (hsep : Separated its) :
    Yields F (fun x => IsSplit w left right its x.1 x.2) (splitIterators left right k its) := by
  induction its with
  | nil => exact ⟨nofun, nofun, .nil, .nil, nofun, fun _ => .inl⟩
  | cons it its ih =>
    obtain ⟨⟨hwf, hit⟩, hin⟩ := forall_mem_cons.mp hin
    obtain ⟨hlt, hsep⟩ := pairwise_cons.mp hsep
    refine (ih hin hsep).bind fun x hrest => ?_
    have hself : it.range.containsRange it.range := containsRange_refl _
    obtain ⟨hmin, hmax⟩ := containsRange_iff.mp hit
    dsimp only
    split
    · rename_i hl
      have hone : IsSplit w left right [it] [it] [] :=
        ⟨by simp [Inside, hwf, hl], nofun, pairwise_singleton _ _, .nil, by simp [hself], fun _ => .inl⟩
      exact hone.cons hrest hlt
    rename_i hl
    split
    · rename_i hr
      have hone : IsSplit w left right [it] [] [it] :=
        ⟨nofun, by simp [Inside, hwf, hr], .nil, pairwise_singleton _ _, by simp [hself], fun _ => .inr⟩
      exact hone.cons hrest hlt
    rename_i hr
    -- the key lies inside the range of `it`
    have h1 : it.range.inclusiveMin < k := by
      by_contra hc
      exact hr (containsRange_iff.mpr ⟨hright ▸ not_lt.mp hc, hmax⟩)
    have h2 : k < it.range.exclusiveMax := by
      by_contra hc
      exact hl (containsRange_iff.mpr ⟨hmin, hleft ▸ not_lt.mp hc⟩)
    obtain ⟨-, hminv, hmaxv⟩ := hwf.proper
    have hone : IsSplit w left right [it] [.newIterator ⟨it.range.inclusiveMin, k⟩]
        [.newIterator ⟨k, it.range.exclusiveMax⟩] := by
      refine ⟨forall_mem_singleton.mpr ⟨wf_newIterator ⟨h1.le, hminv, hk⟩, ?_⟩,
        forall_mem_singleton.mpr ⟨wf_newIterator ⟨h2.le, hk, hmaxv⟩, ?_⟩, pairwise_singleton _ _,
        pairwise_singleton _ _, ?_, fun key h => ?_⟩
      · exact containsRange_iff.mpr ⟨hmin, hleft.ge⟩
      · exact containsRange_iff.mpr ⟨hright.le, hmax⟩
      · simp [Iterator.newIterator, containsRange_iff, h1.le, h2.le]
      obtain ⟨it', h, hc⟩ := h
      cases mem_singleton.mp h
      obtain ⟨h3, h4⟩ := containsKey_iff.mp hc
      obtain hlt | hge := lt_or_ge key k
      · exact .inl ⟨_, mem_cons_self, containsKey_iff.mpr ⟨h3, hlt⟩⟩
      · exact .inr ⟨_, mem_cons_self, containsKey_iff.mpr ⟨hge, h4⟩⟩
    rw [split_eq h1.le h2.le]
    exact hone.cons hrest hlt

lemma appendIterator_spec {r : Range} {built : List Iterator} (hin : Inside w r built)
    (hsep : built.Pairwise fun a b => b.range.exclusiveMax < a.range.inclusiveMin)
    (hwf : it.Wf w) (hit : r.containsRange it.range)
    (hlast : ∀ last ∈ built, last.range.inclusiveMin ≤ it.range.inclusiveMin) :
    ∃ last built', appendIterator built it = .ok (last :: built') ∧ Inside w r (last :: built') ∧
      (last :: built').Pairwise (fun a b => b.range.exclusiveMax < a.range.inclusiveMin) ∧
      last.range.inclusiveMin ≤ it.range.inclusiveMin ∧
      ∀ k, Reads (it :: built) k → Reads (last :: built') k := by
  cases built with
  | nil =>
    refine ⟨it, [], rfl, ?_, pairwise_singleton _ _, le_rfl, fun _ h => h⟩
    exact forall_mem_cons.mpr ⟨⟨hwf, hit⟩, nofun⟩
  | cons last built =>
    obtain ⟨⟨hlwf, hlin⟩, hin⟩ := forall_mem_cons.mp hin
    obtain ⟨hlt, hsep⟩ := pairwise_cons.mp hsep
    have hmin := hlast last mem_cons_self
    obtain ⟨hlv, hlminv, hlmaxv⟩ := hlwf.proper
    obtain ⟨hv, hminv, hmaxv⟩ := hwf.proper
    simp only [appendIterator]
    split
    · rename_i hc
      rw [merge_eq hlv hc, min_eq_left hmin]
      refine ⟨_, built, rfl, forall_mem_cons.mpr ⟨⟨wf_newIterator ⟨?_, hlminv, ?_⟩, ?_⟩,
        hin⟩, pairwise_cons.mpr ⟨hlt, hsep⟩, hmin, fun k h => ?_⟩
      · exact hlv.trans (le_max_left _ _)
      · show (max _ _ : Key).Valid
        obtain h | h := max_choice last.range.exclusiveMax it.range.exclusiveMax
        · rw [h]; exact hlmaxv
        · rw [h]; exact hmaxv
      · obtain ⟨h1, h2⟩ := containsRange_iff.mp hlin
        obtain ⟨h3, h4⟩ := containsRange_iff.mp hit
        exact containsRange_iff.mpr ⟨h1, max_le h2 h4⟩
      rw [reads_cons, reads_cons] at h
      rw [reads_cons]
      obtain h | h | h := h
      · obtain ⟨h1, h2⟩ := containsKey_iff.mp h
        exact .inl (containsKey_iff.mpr ⟨hmin.trans h1, h2.trans_le (le_max_right _ _)⟩)
      · obtain ⟨h1, h2⟩ := containsKey_iff.mp h
        exact .inl (containsKey_iff.mpr ⟨h1, h2.trans_le (le_max_left _ _)⟩)
      · exact .inr h
    rename_i hc
    have hgap : last.range.exclusiveMax < it.range.inclusiveMin := by
      by_contra hle
      exact hc (canMerge_iff.mpr ⟨hmin.trans hv, not_lt.mp hle⟩)
    refine ⟨it, last :: built, rfl, ?_, ?_, le_rfl, fun _ h => h⟩
    · exact forall_mem_cons.mpr ⟨⟨hwf, hit⟩, forall_mem_cons.mpr ⟨⟨hlwf, hlin⟩, hin⟩⟩
    refine .cons (fun a ha => ?_) (pairwise_cons.mpr ⟨hlt, hsep⟩)
    obtain rfl | ha := mem_cons.mp ha
    · exact hgap
    · exact (hlt a ha).trans_le hmin

/-- The state of `mergeIterators`: what is built does not start after what is left, and together they
read every key in `keys`. -/
structure Merging (w : World) (r : Range) (keys : Key → Prop) (built xs ys : List Iterator) : Prop where
  inside : Inside w r built
  separated : built.Pairwise fun a b => b.range.exclusiveMax < a.range.inclusiveMin
  left : Inside w r xs ∧ Separated xs
  right : Inside w r ys ∧ Separated ys
  behind : ∀ last ∈ built, ∀ it : Iterator, it ∈ xs ∨ it ∈ ys → last.range.inclusiveMin ≤ it.range.inclusiveMin
  reads : ∀ k, keys k → Reads built k ∨ Reads xs k ∨ Reads ys k

lemma Merging.symm {r} {keys : Key → Prop} {built xs ys}
    (h : Merging w r keys built xs ys) : Merging w r keys built ys xs where
  inside := h.inside
  separated := h.separated
  left := h.right
  right := h.left
  behind last hl it hit := h.behind last hl it hit.symm
  reads k hk := (h.reads k hk).imp id Or.symm

/-- One step of the merge: the head of one list is appended, and the other list has no smaller
minimum. -/
lemma Merging.step {r} {keys : Key → Prop} {built xs ys} (h : Merging w r keys built (it :: xs) ys)
    (hle : ∀ it' ∈ ys, it.range.inclusiveMin ≤ it'.range.inclusiveMin) :
    Yields F (Merging w r keys · xs ys) (appendIterator built it) := by
  obtain ⟨⟨hwf, hit⟩, hin⟩ := forall_mem_cons.mp h.left.1
  obtain ⟨hlt, hsep⟩ := pairwise_cons.mp h.left.2
  obtain ⟨last, built', heq, hin', hsep', hmin, hreads⟩ := appendIterator_spec h.inside h.separated
    hwf hit fun last hl => h.behind last hl it (.inl mem_cons_self)
  -- the last element starts no later than `it`, and all before it start earlier
  have hfirst : ∀ a ∈ last :: built', a.range.inclusiveMin ≤ it.range.inclusiveMin := by
    rintro a (_ | ⟨_, ha⟩)
    · exact hmin
    have hval := (hin' a (mem_cons_of_mem _ ha)).1.proper.1
    exact (hval.trans ((pairwise_cons.mp hsep').1 a ha).le).trans hmin
  rw [heq]
  refine ⟨hin', hsep', ⟨hin, hsep⟩, h.right, fun a ha it' hit' => ?_, fun k hk => ?_⟩
  · obtain hit' | hit' := hit'
    · exact (hfirst a ha).trans (hwf.proper.1.trans (hlt it' hit').le)
    · exact (hfirst a ha).trans (hle it' hit')
  obtain hk | hk | hk := h.reads k hk
  · exact .inl (hreads k (reads_cons.mpr (.inr hk)))
  · obtain hk | hk := reads_cons.mp hk
    · exact .inl (hreads k (reads_cons.mpr (.inl hk)))
    · exact .inr (.inl hk)
  · exact .inr (.inr hk)

lemma validate_ok {its} (h : Separated its) : validateIteratorsOrderedDisjoint its = .ok () := by
  induction its with
  | nil => rfl
  | cons it its ih =>
    obtain ⟨hlt, hsep⟩ := pairwise_cons.mp h
    cases its with
    | nil => rfl
    | cons next its =>
      have hn := hlt next mem_cons_self
      simp only [validateIteratorsOrderedDisjoint, ge_iff_le, not_le.mpr hn, if_false]
      exact ih hsep

lemma head_le {r} {its} (hin : Inside w r (it :: its)) (hsep : Separated (it :: its)) :
    ∀ it' ∈ it :: its, it.range.inclusiveMin ≤ it'.range.inclusiveMin := by
  rintro it' (_ | ⟨_, h⟩)
  · exact le_rfl
  have hval := (hin it mem_cons_self).1.proper.1
  exact hval.trans ((pairwise_cons.mp hsep).1 it' h).le

lemma mergeIterators_spec {r xs ys} (hx : Inside w r xs) (hxs : Separated xs)
    (hy : Inside w r ys) (hys : Separated ys) :
    Yields F (fun its => Inside w r its ∧ Separated its ∧ ∀ k, Reads xs k ∨ Reads ys k → Reads its k)
      (mergeIterators xs ys) := by
  have hstart : Merging w r (fun k => Reads xs k ∨ Reads ys k) [] xs ys :=
    ⟨nofun, .nil, ⟨hx, hxs⟩, ⟨hy, hys⟩, nofun, fun _ => .inr⟩
  refine (Lib.mergeFold_yields (fun it it' => it.range.inclusiveMin < it'.range.inclusiveMin)
    (fun acc x xs ys h turn => h.step fun it' hit' => by
      cases ys with
      | nil => cases hit'
      | cons y ys =>
        have hlt : x.range.inclusiveMin < y.range.inclusiveMin := by simpa [Lib.LeftTurn] using turn
        exact hlt.le.trans (head_le h.right.1 h.right.2 it' hit'))
    (fun acc y xs ys h turn => (h.symm.step fun it' hit' => by
      cases xs with
      | nil => cases hit'
      | cons x xs =>
        have hle : y.range.inclusiveMin ≤ x.range.inclusiveMin := by
          simpa [Lib.RightTurn] using turn
        exact hle.trans (head_le h.left.1 h.left.2 it' hit')).mono (fun _ h => h) fun _ h => h.symm)
    hstart).bind fun built hm => ?_
  have hsep : Separated built.reverse := pairwise_reverse.mpr hm.separated
  rw [validate_ok hsep]
  refine (show _ ∧ _ from ⟨fun it h => hm.inside it (mem_reverse.mp h), hsep, fun k hk => ?_⟩)
  obtain ⟨it, h, hc⟩ | ⟨it, h, hc⟩ | ⟨it, h, hc⟩ := hm.reads k hk
  · exact ⟨it, mem_reverse.mpr h, hc⟩
  · cases h
  · cases h

section Make

variable {m : Nat} {scope : Scope} {its : List Iterator} {tr : Tracker κ}

omit [DecidableEq κ] in
@[simp]
lemma ensure_range (s : Slice κ) : (ensurePredicateSizeLimit m s).scope.range = s.scope.range := by
  unfold ensurePredicateSizeLimit
  split <;> rfl

@[simp]
lemma ensure_iterators (s : Slice κ) : (ensurePredicateSizeLimit m s).iterators = s.iterators := by
  unfold ensurePredicateSizeLimit
  split <;> rfl

@[simp]
lemma ensure_tracker (s : Slice κ) : (ensurePredicateSizeLimit m s).tracker = s.tracker := by
  unfold ensurePredicateSizeLimit
  split <;> rfl

lemma ensure_predicate (s : Slice κ) : (ensurePredicateSizeLimit m s).scope.predicate = s.scope.predicate ∨
      (ensurePredicateSizeLimit m s).scope.predicate = .universal := by
  unfold ensurePredicateSizeLimit
  split
  · exact .inr rfl
  · exact .inl rfl

lemma test_ensure {t} (h : s.scope.predicate.test t) :
    (ensurePredicateSizeLimit m s).scope.predicate.test t := by
  obtain e | e := ensure_predicate (m := m) s
  · rw [e]; exact h
  · rw [e]; rfl

lemma Wf.ensure (hs : s.Wf g w) : (ensurePredicateSizeLimit m s).Wf g w where
  proper := by simpa using hs.proper
  admitted := by
    obtain e | e := ensure_predicate (m := m) s
    · rw [e]; exact hs.admitted
    · rw [e]; exact w.admits_stable .universal fun _ => rfl
  inside := by simpa using hs.inside
  separated := by simpa using hs.separated
  counted := by simpa using hs.counted
  pending e he := by
    rw [ensure_tracker] at he
    obtain ⟨h1, h2, h3⟩ := hs.pending e he
    exact ⟨by simpa using h1, test_ensure h2, h3⟩

lemma Covers.ensure {t} (h : s.Covers t) : (ensurePredicateSizeLimit m s).Covers t := by
  obtain ⟨e, he, rfl⟩ | ⟨hr, ht⟩ := h
  · exact .inl ⟨e, by simpa using he, rfl⟩
  · exact .inr ⟨by simpa using hr, test_ensure ht⟩

lemma wf_newSlice (hr : scope.range.Proper) (hn : w.admits scope.predicate) : (newSlice m scope : Slice κ).Wf g w := by
  refine Wf.ensure ⟨hr, hn, ?_, pairwise_singleton _ _, Tracker.counted_empty, nofun⟩
  exact forall_mem_cons.mpr ⟨⟨wf_newIterator hr, containsRange_refl _⟩, nofun⟩

lemma covers_newSlice {t} (h : scope.contains t) : (newSlice m scope : Slice κ).Covers t := by
  obtain ⟨hr, ht⟩ := Bool.and_eq_true_iff.mp h
  exact Covers.ensure (.inr ⟨⟨_, mem_cons_self, hr⟩, ht⟩)

end Make

section Ack

variable {key : Key}

lemma task_ack (e : Executable) : (if e.task.key = key then e.ack else e).task = e.task := by
  unfold Executable.ack
  split
  · split <;> rfl
  · rfl

omit [DecidableEq κ] in
lemma distinct_ack (h : s.tracker.pendingExecutables.Pairwise fun a b => a.task.key ≠ b.task.key) :
    (s.ack key).tracker.pendingExecutables.Pairwise fun a b => a.task.key ≠ b.task.key := by
  refine pairwise_map.mpr (h.imp fun {a b} hab => ?_)
  rw [task_ack, task_ack]
  exact hab

lemma inGroup_ack (k : κ) : Tracker.inGroup g k (s.ack key).tracker.pendingExecutables =
    Tracker.inGroup g k s.tracker.pendingExecutables := by
  simp only [Slice.ack, Tracker.inGroup, map_map, Function.comp_def, task_ack]

lemma Wf.ack (hs : s.Wf g w) (hd : w.done key) : (s.ack key).Wf g w := by
  refine ⟨hs.proper, hs.admitted, hs.inside, hs.separated,
    ⟨distinct_ack hs.counted.distinct, fun k => ?_, hs.counted.keys⟩, fun e he => ?_⟩
  · rw [inGroup_ack]
    exact hs.counted.count k
  obtain ⟨e', he', rfl⟩ := mem_map.mp he
  obtain ⟨h1, h2, h3, h4⟩ := hs.pending e' he'
  rw [task_ack]
  refine ⟨h1, h2, h3, fun hacked => ?_⟩
  split at hacked
  · rename_i hkey
    exact hkey ▸ hd
  · exact h4 hacked

lemma covers_ack {t} (h : s.Covers t) (key : Key) : (s.ack key).Covers t := by
  obtain ⟨e, he, rfl⟩ | h := h
  · exact .inl ⟨_, mem_map.mpr ⟨e, he, rfl⟩, task_ack e⟩
  · exact .inr h

end Ack

end Slice

/-!
## How operations on well formed slices can fail

The assertions of the slice code guard against callers that ignore `CanSplitByRange` and
`CanMergeWithSlice`, and against slices that are broken inside. On well formed slices the second kind
is out of reach but for one: `executableTracker.split` tests a predicate on an executable that was
tested on the task before, and the answers can differ. A `World` in which they do is said to blur
tasks. Each operation yields what the slice laws say of it, or a `Fault`; here are the two that split a slice.
-/

variable {m : Nat}

/-- Some admitted predicate tells a known task from its executable. -/
def World.Blurs (w : World) : Prop :=
  ∃ p t, w.admits p ∧ w.known t ∧ p.test t.asExecutable ≠ p.test t

/-- The panics that are left on well formed slices. -/
inductive Fault (w : World) : Panic → Prop where
  | unableToSplit : Fault w .unableToSplit
  | unableToMerge : Fault w .unableToMerge
  | taskInNeitherScope : w.Blurs → Fault w .taskInNeitherScope

namespace Slice

section

variable (hs : s.Wf g w)

include hs

lemma Wf.contains (hb : ¬ w.Blurs) {e : Executable}
    (he : e ∈ s.tracker.pendingExecutables) : s.scope.contains e.task.asExecutable := by
  obtain ⟨h1, h2, h3, -⟩ := hs.pending e he
  refine Bool.and_eq_true_iff.mpr ⟨h1, ?_⟩
  by_contra hne
  exact hb ⟨_, _, hs.admitted, h3, fun heq => hne (heq.trans h2)⟩

lemma Wf.split_yields {sl sr : Scope} (h : ∀ e : Executable, s.scope.contains e.task.asExecutable →
      sl.contains e.task.asExecutable ∨ sr.contains e.task.asExecutable) :
    Yields (Fault w) (fun lr => s.tracker.split g sl sr = .ok lr) (s.tracker.split g sl sr) := by
  by_cases hb : w.Blurs
  · refine .of_cases (fun _ => id) fun p hp => ?_
    simp only [Tracker.split] at hp
    split at hp
    all_goals cases hp
    exact .taskInNeitherScope hb
  obtain ⟨l, r, hok⟩ := Tracker.split_ok (g := g) sl sr fun e he => h e (hs.contains hb he)
  rw [hok]
  exact rfl

lemma splitByRange_yields {k : Key} (hk : k.Valid) :
    Yields (Fault w) (fun lr => (s.scope.range.inclusiveMin ≤ k ∧ k ≤ s.scope.range.exclusiveMax) ∧
      lr.1.scope.range = ⟨s.scope.range.inclusiveMin, k⟩ ∧
      lr.2.scope.range = ⟨k, s.scope.range.exclusiveMax⟩ ∧
      lr.1.Wf g w ∧ lr.2.Wf g w ∧ ∀ t, s.Covers t → lr.1.Covers t ∨ lr.2.Covers t)
      (splitByRange g m s k) := by
  unfold splitByRange
  cases hc : s.scope.canSplitByRange k with
  | false =>
    rw [Scope.splitByRange, hc]
    exact .unableToSplit
  | true =>
    obtain ⟨hv, hminv, hmaxv⟩ := hs.proper
    obtain ⟨h1, h2⟩ := (canSplit_iff hv).mp hc
    rw [Scope.splitByRange_ok h1 h2]
    change Yields _ _ (s.tracker.split g _ _ >>= _)
    refine (hs.split_yields fun e he => ?_).bind fun track htrack => ?_
    · obtain ⟨hc, hp⟩ := Bool.and_eq_true_iff.mp he
      obtain ⟨hmin, hmax⟩ := containsKey_iff.mp hc
      obtain h | h := lt_or_ge e.task.key k
      · exact .inl (Bool.and_eq_true_iff.mpr ⟨containsKey_iff.mpr ⟨hmin, h⟩, hp⟩)
      · exact .inr (Bool.and_eq_true_iff.mpr ⟨containsKey_iff.mpr ⟨h, hmax⟩, hp⟩)
    obtain ⟨tl, tr⟩ := track
    obtain ⟨hcl, hcr, hml, hmr, hright⟩ := hs.counted.split htrack
    refine (splitIterators_spec ⟨s.scope.range.inclusiveMin, k⟩ ⟨k, s.scope.range.exclusiveMax⟩ hk rfl rfl hs.inside
      hs.separated).bind fun x hx => ?_
    obtain ⟨hls, hrs, hsl, hsr, -, hreads⟩ := hx
    refine (show _ ∧ _ from ⟨⟨h1, h2⟩, ensure_range _, ensure_range _,
      Wf.ensure ⟨⟨h1, hminv, hk⟩, hs.admitted, hls, hsl, hcl, fun e he => ?_⟩,
      Wf.ensure ⟨⟨h2, hk, hmaxv⟩, hs.admitted, hrs, hsr, hcr, fun e he => ?_⟩, fun t ht => ?_⟩)
    · obtain ⟨he, hc⟩ := (hml e).mp he
      exact ⟨(Bool.and_eq_true_iff.mp hc).1, (hs.pending e he).2⟩
    · have hc := hright e he
      exact ⟨(Bool.and_eq_true_iff.mp hc).1, (hs.pending e ((hmr e).mp he).1).2⟩
    obtain ⟨e, he, rfl⟩ | ⟨hr, ht⟩ := ht
    · cases hc : Scope.contains ⟨⟨s.scope.range.inclusiveMin, k⟩, s.scope.predicate⟩ e.task.asExecutable with
      | true => exact .inl (Covers.ensure (.inl ⟨e, (hml e).mpr ⟨he, hc⟩, rfl⟩))
      | false => exact .inr (Covers.ensure (.inl ⟨e, (hmr e).mpr ⟨he, hc⟩, rfl⟩))
    exact (hreads t.key hr).imp (fun h => Covers.ensure (.inr ⟨h, ht⟩)) fun h => Covers.ensure (.inr ⟨h, ht⟩)

/-- A slice that is split by a predicate. An executable is placed by what it shows, which must be what
the predicate says of its task. -/
lemma splitByPredicate_yields {q : Predicate} (ha : w.admits q)
    (hview : ∀ t, w.known t → q.test t.asExecutable = q.test t) :
    Yields (Fault w) (fun lr => lr.1.scope.range = s.scope.range ∧ lr.2.scope.range = s.scope.range ∧
      lr.1.Wf g w ∧ lr.2.Wf g w ∧ ∀ t, s.Covers t → lr.1.Covers t ∨ lr.2.Covers t)
      (splitByPredicate g m s q) := by
  have hand := test_andPredicates hs.normal (w.normal ha)
  have hneg := test_andPredicates hs.normal (w.normal ha).neg
  refine (hs.split_yields fun e he => ?_).bind fun (tl, tr) htrack => ?_
  · obtain ⟨hc, hp⟩ := Bool.and_eq_true_iff.mp he
    cases ht : q.test e.task.asExecutable with
    | true => exact .inl (Bool.and_eq_true_iff.mpr ⟨hc, by rw [hand, hp, ht]; rfl⟩)
    | false => exact .inr (Bool.and_eq_true_iff.mpr ⟨hc, by rw [hneg, test_neg, hp, ht]; rfl⟩)
  obtain ⟨hcl, hcr, hml, hmr, hright⟩ := hs.counted.split htrack
  have hreads : ∀ k, Reads s.iterators k → Reads (s.iterators.map (·.remaining)) k := fun k ⟨it, hit, hc⟩ =>
    ⟨it.remaining, mem_map.mpr ⟨it, hit, rfl⟩, hc⟩
  refine (show _ ∧ _ from ⟨ensure_range _, ensure_range _,
    Wf.ensure ⟨hs.proper, w.admits_and hs.admitted ha, hs.inside, hs.separated, hcl, fun e he => ?_⟩,
    Wf.ensure ⟨hs.proper, w.admits_and hs.admitted (w.admits_neg ha), ?_, pairwise_map.mpr hs.separated, hcr,
      fun e he => ?_⟩, fun t ht => ?_⟩)
  · obtain ⟨he, hc⟩ := (hml e).mp he
    obtain ⟨h1, h2, h3⟩ := hs.pending e he
    simp only [Scope.contains, hand, Bool.and_eq_true] at hc
    refine ⟨h1, ?_, h3⟩
    simp only [hand, h2, ← hview _ h3.1, hc.2.2, Bool.and_true]
  · intro it hit
    obtain ⟨it', hit', rfl⟩ := mem_map.mp hit
    exact ⟨wf_newIterator (hs.inside it' hit').1.proper, (hs.inside it' hit').2⟩
  · have hc := hright e he
    obtain ⟨h1, h2, h3⟩ := hs.pending e ((hmr e).mp he).1
    simp only [Scope.contains, hneg, test_neg, Bool.and_eq_true] at hc
    refine ⟨h1, ?_, h3⟩
    simp only [hneg, test_neg, h2, ← hview _ h3.1, hc.2.2, Bool.and_true]
  obtain ⟨e, he, rfl⟩ | ⟨hr, ht⟩ := ht
  · cases hc : (s.scope.splitByPredicate q).1.contains e.task.asExecutable with
    | true => exact .inl (Covers.ensure (.inl ⟨e, (hml e).mpr ⟨he, hc⟩, rfl⟩))
    | false => exact .inr (Covers.ensure (.inl ⟨e, (hmr e).mpr ⟨he, hc⟩, rfl⟩))
  cases hqt : q.test t with
  | true =>
    refine .inl (Covers.ensure (.inr ⟨hr, ?_⟩))
    simp [hand, ht, hqt]
  | false =>
    refine .inr (Covers.ensure (.inr ⟨hreads _ hr, ?_⟩))
    simp [hneg, test_neg, ht, hqt]

end

end Slice

end FastOrchestration.Queues
