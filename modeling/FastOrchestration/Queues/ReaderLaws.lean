import FastOrchestration.Queues.Reader
import FastOrchestration.Queues.SliceMerge
import FastOrchestration.Queues.SliceSelect

/-!
# What readers keep

The slices of a reader are well formed and in order, each ending at or before the start of the next
one. Operations that change the slices one by one keep the ends of their ranges and do not move their
starts down (`Slice.Reduced`), so that the order is kept. `SplitSlices` leaves and sets aside parts of
slices, both in order.

`MergeSlices` folds two ordered lists into one. A step may replace the last slice built so far by up
to three pieces, and the next slice may start before some of them. What carries the proof
(`Building`) is that each slice built so far starts no later than all that are to come, and ends
before those that are to come from one of the two lists.
-/

namespace FastOrchestration.Queues

open List Slice

open Lib (Yields bind_ok)

variable {κ : Type} [DecidableEq κ] {g : Grouper κ} {w : World} {m : Nat} {b : Key}

namespace Reader

/-- Each slice ends at or before the start of the next ones. -/
def Ordered (slices : List (Slice κ)) : Prop :=
  slices.Pairwise fun s s' => s.scope.range.exclusiveMax ≤ s'.scope.range.inclusiveMin

structure Wf (g : Grouper κ) (w : World) (b : Key) (slices : List (Slice κ)) : Prop where
  each : ∀ s ∈ slices, s.Wf g w ∧ s.scope.range.exclusiveMax ≤ b
  ordered : Ordered slices

def Covers (slices : List (Slice κ)) (t : Task) : Prop := ∃ s ∈ slices, s.Covers t

/-- Going from one list of slices to another: the second is well formed, and is responsible for all
tasks that the first was responsible for and that are not done. -/
structure Keeps (g : Grouper κ) (w : World) (b : Key) (slices slices' : List (Slice κ)) : Prop where
  wf : Wf g w b slices'
  covers : ∀ t ∈ w.store.tasks, ¬ w.done t.key → Covers slices t → Covers slices' t

lemma wf_nil : Wf g w b ([] : List (Slice κ)) := ⟨by simp, .nil⟩

lemma Wf.tail {s slices} (h : Wf g w b (s :: slices)) : Wf g w b slices :=
  ⟨fun s hs => h.each s (mem_cons_of_mem _ hs), (pairwise_cons.mp h.ordered).2⟩

lemma Wf.head {s : Slice κ} {slices} (h : Wf g w b (s :: slices)) :
    s.Wf g w ∧ s.scope.range.exclusiveMax ≤ b := h.each s mem_cons_self

lemma Wf.head_le {s : Slice κ} {slices} (h : Wf g w b (s :: slices)) :
    ∀ s' ∈ s :: slices, s.scope.range.inclusiveMin ≤ s'.scope.range.inclusiveMin := by
  rintro s' (_ | ⟨_, hs'⟩)
  · exact le_rfl
  · exact h.head.1.proper.1.trans ((pairwise_cons.mp h.ordered).1 s' hs')

lemma covers_cons {s : Slice κ} {slices t} : Covers (s :: slices) t ↔ s.Covers t ∨ Covers slices t := by
  simp [Covers]

lemma covers_append {slices slices' : List (Slice κ)} {t : Task} :
    Covers (slices ++ slices') t ↔ Covers slices t ∨ Covers slices' t := by
  simp [Covers, or_and_right, exists_or]

variable {slices : List (Slice κ)}

lemma Covers.filter (hwf : ∀ s ∈ slices, s.Wf g w) {t}
    (h : Covers slices t) : Covers (slices.filter (!·.scope.isEmpty)) t := by
  obtain ⟨s, hs, hc⟩ := h
  refine ⟨s, mem_filter.mpr ⟨hs, ?_⟩, hc⟩
  cases he : s.scope.isEmpty with
  | true => exact absurd hc ((hwf s hs).not_covers he t)
  | false => rfl

lemma Wf.filter (h : Wf g w b slices) (p : Slice κ → Bool) : Wf g w b (slices.filter p) :=
  ⟨fun s hs => h.each s (mem_of_mem_filter hs), h.ordered.filter p⟩

section Pointwise

variable {slices slices' : List (Slice κ)}

section

variable (h : Wf g w b slices)

include h

lemma Wf.reduced (hred : List.Forall₂ (Reduced g w) slices slices') : Keeps g w b slices slices' := by
  induction hred with
  | nil => exact ⟨h, fun _ _ _ h => h⟩
  | @cons s s' slices slices' hs hrest ih =>
    obtain ⟨hwf, hcov⟩ := ih h.tail
    have hle := (pairwise_cons.mp h.ordered).1
    refine ⟨⟨forall_mem_cons.mpr ⟨⟨hs.wf, hs.upper ▸ h.head.2⟩, hwf.each⟩,
      .cons (fun o ho => ?_) hwf.ordered⟩, fun t ht hd hc => ?_⟩
    · obtain ⟨i, hi, rfl⟩ := getElem_of_mem ho
      have hi' : i < slices.length := hrest.length_eq ▸ hi
      have hred := hrest.get hi' hi
      exact (hs.upper ▸ hle _ (getElem_mem hi')).trans hred.lower
    obtain hc | hc := covers_cons.mp hc
    · exact covers_cons.mpr (.inl (hs.covers t ht hd hc))
    · exact covers_cons.mpr (.inr (hcov t ht hd hc))

lemma clearSlices_keeps (chosen : Nat → Bool) : Keeps g w b slices (clearSlices g m chosen slices) := by
  refine h.reduced ?_
  have hwf := fun s hs => (h.each s hs).1
  clear h
  induction slices generalizing chosen with
  | nil => exact .nil
  | cons s slices ih =>
    obtain ⟨hs, hwf⟩ := forall_mem_cons.mp hwf
    rw [clearSlices, mapIdx_cons]
    refine .cons ?_ (ih (fun i => chosen (i + 1)) hwf)
    split
    · exact clear_spec hs
    · exact .refl hs

lemma shrinkSlices_keeps : Keeps g w b slices (shrinkSlices g m slices) := by
  have hred : List.Forall₂ (Reduced g w) slices (slices.map (·.shrinkScope g m)) :=
    forall₂_map_right_iff.mpr (forall₂_same.mpr fun s hs => shrinkScope_spec (h.each s hs).1)
  obtain ⟨hwf, hcov⟩ := h.reduced hred
  exact ⟨hwf.filter _, fun t ht hd hc => (hcov t ht hd hc).filter fun s hs => (hwf.each s hs).1⟩

lemma Wf.set {i s s'} (hi : slices[i]? = some s)
    (hs : Reduced g w s s') : Keeps g w b slices (slices.set i s') := by
  refine h.reduced ?_
  have hwf := fun s hs => (h.each s hs).1
  clear h
  induction slices generalizing i with
  | nil => cases hi
  | cons a slices ih =>
    obtain ⟨ha, hrest⟩ := forall_mem_cons.mp hwf
    cases i with
    | zero =>
      cases hi
      exact .cons hs (forall₂_same.mpr fun o ho => .refl (hrest o ho))
    | succ i => exact .cons (.refl ha) (ih hi hrest)

lemma selectTasks_yields {store} (hst : w.Feeds store) (i batchSize : Nat) (replies : List Reply) :
    Yields (Fault w) (Keeps g w b slices) (selectTasks g store i batchSize replies slices) := by
  unfold selectTasks
  split
  · exact ⟨h, fun _ _ _ hc => hc⟩
  rename_i s hi
  have hs := (h.each s (mem_of_getElem? hi)).1
  refine (selectTasks_spec hst hs batchSize replies).bind fun sel ⟨hscope, hwf, hcov⟩ => ?_
  exact h.set hi ⟨hwf, by rw [hscope], by rw [hscope], fun t ht _ hc => hcov t ht hc⟩

lemma ack_keeps (i : Nat) {key} (hd : w.done key) : Keeps g w b slices (ack i key slices) := by
  unfold ack
  split
  · exact ⟨h, fun _ _ _ hc => hc⟩
  rename_i s hi
  have hs := (h.each s (mem_of_getElem? hi)).1
  exact h.set hi ⟨hs.ack hd, le_rfl, rfl, fun t _ _ hc => covers_ack hc key⟩

end

end Pointwise

section Compact

lemma compactAfter_spec (chosen : Nat → Bool) (i : Nat) {prev : Slice κ} {slices} (h : Wf g w b (prev :: slices)) :
    Yields F (fun outs => Keeps g w b (prev :: slices) outs ∧
      ∀ o ∈ outs, prev.scope.range.inclusiveMin ≤ o.scope.range.inclusiveMin) (compactAfter g m chosen i prev slices) := by
  induction slices generalizing i prev with
  | nil =>
    exact ⟨⟨h, fun _ _ _ hc => hc⟩, h.head_le⟩
  | cons s slices ih =>
    obtain ⟨hprev, hbprev⟩ := h.head
    obtain ⟨hs, hbs⟩ := h.tail.head
    obtain ⟨hlt, -⟩ := pairwise_cons.mp h.ordered
    obtain ⟨hlt', hord⟩ := pairwise_cons.mp h.tail.ordered
    simp only [compactAfter]
    split
    · refine (compactWithSlice_spec hprev hs).bind fun c ⟨hr, hwf, hcov⟩ => ?_
      have hmin : c.scope.range.inclusiveMin = prev.scope.range.inclusiveMin := by
        rw [hr]
        exact min_eq_left (h.head_le s (by simp))
      have hc : Wf g w b (c :: slices) := by
        refine ⟨forall_mem_cons.mpr ⟨⟨hwf, ?_⟩, h.tail.tail.each⟩, .cons (fun o ho => ?_) hord⟩
        · rw [hr]
          exact max_le hbprev hbs
        rw [hr]
        exact max_le (hlt o (mem_cons_of_mem _ ho)) (hlt' o ho)
      refine (ih (i + 1) hc).mono (fun _ => id) fun outs ⟨⟨hwfo, hcovo⟩, hlow⟩ => ?_
      refine ⟨⟨hwfo, fun t ht hd hcv => ?_⟩, hmin ▸ hlow⟩
      refine hcovo t ht hd (covers_cons.mpr ?_)
      obtain hcv | hcv := covers_cons.mp hcv
      · exact .inl (hcov t ht (.inl hcv))
      · exact (covers_cons.mp hcv).imp (fun hcv => hcov t ht (.inr hcv)) id
    refine (ih (i + 1) h.tail).bind fun outs ⟨⟨hwfo, hcovo⟩, hlow⟩ => ?_
    have hle := h.head_le s (by simp)
    refine (show _ ∧ _ from ⟨⟨⟨forall_mem_cons.mpr ⟨h.head, hwfo.each⟩, .cons (fun o ho => ?_) hwfo.ordered⟩, fun t ht hd hcv => ?_⟩, ?_⟩)
    · exact (hlt s (by simp)).trans (hlow o ho)
    · exact covers_cons.mpr ((covers_cons.mp hcv).imp id (hcovo t ht hd))
    · exact forall_mem_cons.mpr ⟨le_rfl, fun o ho => hle.trans (hlow o ho)⟩

lemma compactSlices_yields {slices} (h : Wf g w b slices) (chosen : Nat → Bool) :
    Yields (Fault w) (Keeps g w b slices) (compactSlices g m chosen slices) := by
  cases slices with
  | nil => exact ⟨h, fun _ _ _ hc => hc⟩
  | cons s slices =>
    exact (compactAfter_spec chosen 1 h).mono (fun _ => id) fun _ => And.left

end Compact

section Split

/-- What becomes of a slice that is split: parts of it, responsible for the same tasks. -/
structure Splits (g : Grouper κ) (w : World) (s : Slice κ) (remaining : List (Slice κ)) (moved : Slice κ) : Prop where
  wf : ∀ o ∈ moved :: remaining, o.Wf g w
  covers : ∀ t ∈ w.store.tasks, ¬ w.done t.key → s.Covers t → moved.Covers t ∨ Covers remaining t
  lower : ∀ o ∈ moved :: remaining, s.scope.range.inclusiveMin ≤ o.scope.range.inclusiveMin
  upper : ∀ o ∈ moved :: remaining, o.scope.range.exclusiveMax ≤ s.scope.range.exclusiveMax
  ordered : Ordered remaining

def Sound (g : Grouper κ) (w : World) (splitter : Splitter κ) : Prop :=
  ∀ i s, s.Wf g w → Yields (Fault w) (fun split => ∀ remaining moved, split = some (remaining, moved) →
      Splits g w s remaining moved) (splitter i s)

lemma splitSlices_yields {splitter} (hsound : Sound g w splitter) (i : Nat) {slices} (h : Wf g w b slices) :
    Yields (Fault w) (fun ka => Wf g w b ka.1 ∧ Wf g w b ka.2 ∧ (∀ o ∈ ka.1 ++ ka.2, ∃ s ∈ slices,
        s.scope.range.inclusiveMin ≤ o.scope.range.inclusiveMin) ∧
      ∀ t ∈ w.store.tasks, ¬ w.done t.key → Covers slices t → Covers ka.1 t ∨ Covers ka.2 t)
      (splitSlices splitter i slices) := by
  induction slices generalizing i with
  | nil => exact ⟨wf_nil, wf_nil, by simp, fun _ _ _ hc => .inl hc⟩
  | cons s slices ih =>
    obtain ⟨hs, hbs⟩ := h.head
    have hlt := (pairwise_cons.mp h.ordered).1
    refine (hsound i s hs).bind fun split hsplit => ?_
    refine (ih (i + 1) h.tail).bind fun ka hka => ?_
    obtain ⟨kept, aside⟩ := ka
    obtain ⟨hk, ha, hlow, hcov⟩ := hka
    -- what comes from the other slices is behind this one
    have hafter : ∀ o ∈ kept ++ aside, s.scope.range.exclusiveMax ≤ o.scope.range.inclusiveMin := fun o ho => by
      obtain ⟨s', hs', hle⟩ := hlow o ho
      exact (hlt s' hs').trans hle
    have hlow' : ∀ o ∈ kept ++ aside, ∃ s' ∈ s :: slices,
        s'.scope.range.inclusiveMin ≤ o.scope.range.inclusiveMin := fun o ho => by
      obtain ⟨s', hs', hle⟩ := hlow o ho
      exact ⟨s', mem_cons_of_mem _ hs', hle⟩
    cases split with
    | none =>
      refine ⟨⟨forall_mem_cons.mpr ⟨h.head, hk.each⟩,
        .cons (fun o ho => hafter o (mem_append_left _ ho)) hk.ordered⟩, ha, ?_,
        fun t ht hd hc => ?_⟩
      · exact forall_mem_cons.mpr ⟨⟨s, mem_cons_self, le_rfl⟩, hlow'⟩
      obtain hc | hc := covers_cons.mp hc
      · exact .inl (covers_cons.mpr (.inl hc))
      · exact (hcov t ht hd hc).imp (fun hc => covers_cons.mpr (.inr hc)) id
    | some rm =>
      obtain ⟨remaining, moved⟩ := rm
      obtain ⟨hwf, hcovs, hlower, hupper, hord⟩ := hsplit remaining moved rfl
      have hrem : Wf g w b remaining :=
        ⟨fun o ho => ⟨hwf o (mem_cons_of_mem _ ho), (hupper o (mem_cons_of_mem _ ho)).trans hbs⟩, hord⟩
      refine ⟨⟨fun o ho => ?_, pairwise_append.mpr ⟨(hrem.filter _).ordered, hk.ordered, ?_⟩⟩,
        ⟨forall_mem_cons.mpr ⟨⟨hwf moved mem_cons_self,
          (hupper moved mem_cons_self).trans hbs⟩, ha.each⟩, .cons (fun o ho => ?_) ha.ordered⟩,
        fun o ho => ?_, fun t ht hd hc => ?_⟩
      · exact (mem_append.mp ho).elim ((hrem.filter _).each o) (hk.each o)
      · intro o ho o' ho'
        have ho := mem_cons_of_mem moved (mem_of_mem_filter ho)
        exact (hupper o ho).trans (hafter o' (mem_append_left _ ho'))
      · exact (hupper moved mem_cons_self).trans (hafter o (mem_append_right _ ho))
      · simp only [mem_append, mem_cons] at ho
        obtain (ho | ho) | rfl | ho := ho
        · have ho := mem_cons_of_mem moved (mem_of_mem_filter ho)
          exact ⟨s, mem_cons_self, hlower o ho⟩
        · exact hlow' o (mem_append_left _ ho)
        · exact ⟨s, mem_cons_self, hlower o mem_cons_self⟩
        · exact hlow' o (mem_append_right _ ho)
      rw [covers_append, covers_cons]
      obtain hc | hc := covers_cons.mp hc
      · obtain hc | hc := hcovs t ht hd hc
        · exact .inr (.inl hc)
        · exact .inl (.inl (hc.filter fun o ho => (hrem.each o ho).1))
      · exact (hcov t ht hd hc).imp .inr .inr

end Split

section Merge

omit [DecidableEq κ] in
lemma validate_ok (h : Ordered slices) : validateSlicesOrderedDisjoint slices = .ok () := by
  induction slices with
  | nil => rfl
  | cons s slices ih =>
    cases slices with
    | nil => rfl
    | cons s' slices =>
      obtain ⟨hle, hord⟩ := pairwise_cons.mp h
      simp only [validateSlicesOrderedDisjoint, not_lt.mpr (hle s' mem_cons_self), if_false]
      exact ih hord

lemma ordered_of_validate {slices} (hwf : ∀ s ∈ slices, s.Wf g w)
    (h : validateSlicesOrderedDisjoint slices = .ok ()) : Ordered slices := by
  induction slices with
  | nil => exact .nil
  | cons s slices ih =>
    cases slices with
    | nil => exact pairwise_singleton _ _
    | cons s' slices =>
      simp only [validateSlicesOrderedDisjoint] at h
      split at h
      · cases h
      rename_i hle
      have hord := ih (fun o ho => hwf o (mem_cons_of_mem _ ho)) h
      have hs' := hwf s' (by simp)
      refine .cons (fun o ho => (not_lt.mp hle).trans ?_) hord
      obtain rfl | ho := mem_cons.mp ho
      · exact le_rfl
      · exact hs'.proper.1.trans ((pairwise_cons.mp hord).1 o ho)

/-- A merge under way: what is built, reversed, and what is left of both lists. -/
structure Building (g : Grouper κ) (w : World) (b : Key) (tasks : Task → Prop)
    (built xs ys : List (Slice κ)) : Prop where
  each : ∀ s ∈ built, s.Wf g w ∧ s.scope.range.exclusiveMax ≤ b
  ordered : built.Pairwise fun s s' => s'.scope.range.exclusiveMax ≤ s.scope.range.inclusiveMin
  left : Wf g w b xs
  right : Wf g w b ys
  before : ∀ s ∈ built, ∀ z, z ∈ xs ∨ z ∈ ys → s.scope.range.inclusiveMin ≤ z.scope.range.inclusiveMin
  apart : ∀ s ∈ built, (∀ z ∈ xs, s.scope.range.exclusiveMax ≤ z.scope.range.inclusiveMin) ∨
    ∀ z ∈ ys, s.scope.range.exclusiveMax ≤ z.scope.range.inclusiveMin
  covers : ∀ t ∈ w.store.tasks, tasks t → Covers built t ∨ Covers xs t ∨ Covers ys t

variable {tasks : Task → Prop}

lemma Building.symm {built xs ys} (h : Building g w b tasks built xs ys) : Building g w b tasks built ys xs :=
  ⟨h.each, h.ordered, h.right, h.left, fun s hs z hz => h.before s hs z hz.symm,
    fun s hs => (h.apart s hs).symm, fun t ht hc => (h.covers t ht hc).imp id Or.symm⟩

/-- The next slice is taken: slices `outs` replace it and what was built behind `rest`. -/
lemma Building.put {built rest xs ys : List (Slice κ)} {x : Slice κ}
    (h : Building g w b tasks built (x :: xs) ys) (hrest : rest.Sublist built)
    (outs : List (Slice κ)) (houts : Wf g w b outs)
    (hbehind : ∀ o ∈ outs, ∀ s ∈ rest, s.scope.range.exclusiveMax ≤ o.scope.range.inclusiveMin)
    (hbefore : ∀ o ∈ outs, ∀ z, z ∈ xs ∨ z ∈ ys → o.scope.range.inclusiveMin ≤ z.scope.range.inclusiveMin)
    (hapart : ∀ o ∈ outs, (∀ z ∈ xs, o.scope.range.exclusiveMax ≤ z.scope.range.inclusiveMin) ∨
      ∀ z ∈ ys, o.scope.range.exclusiveMax ≤ z.scope.range.inclusiveMin)
    (hcovers : ∀ t ∈ w.store.tasks, Covers built t ∨ x.Covers t → Covers outs t ∨ Covers rest t) :
    Building g w b tasks (outs.reverse ++ rest) xs ys := by
  have hmem : ∀ {P : Slice κ → Prop}, (∀ o ∈ outs, P o) → (∀ s ∈ built, P s) →
      ∀ s ∈ outs.reverse ++ rest, P s := fun h1 h2 s hs =>
    (mem_append.mp hs).elim (fun hs => h1 s (mem_reverse.mp hs)) fun hs => h2 s (hrest.subset hs)
  refine ⟨hmem houts.each h.each, ?_, h.left.tail, h.right, hmem hbefore fun s hs z hz => ?_,
    hmem hapart fun s hs => ?_, fun t ht hc => ?_⟩
  · refine pairwise_append.mpr ⟨pairwise_reverse.mpr houts.ordered,
      h.ordered.sublist hrest, fun o ho s hs => hbehind o (mem_reverse.mp ho) s hs⟩
  · exact h.before s hs z (hz.imp (mem_cons_of_mem _) id)
  · exact (h.apart s hs).imp (fun ha z hz => ha z (mem_cons_of_mem _ hz)) id
  have hout : Covers built t ∨ x.Covers t → Covers (outs.reverse ++ rest) t := fun hc => by
    obtain ⟨o, ho, hc⟩ | ⟨o, ho, hc⟩ := hcovers t ht hc
    · exact ⟨o, mem_append_left _ (mem_reverse.mpr ho), hc⟩
    · exact ⟨o, mem_append_right _ ho, hc⟩
  obtain hc | hc | hc := h.covers t ht hc
  · exact .inl (hout (.inl hc))
  · exact (covers_cons.mp hc).elim (fun hc => .inl (hout (.inr hc))) fun hc => .inr (.inl hc)
  · exact .inr (.inr hc)

lemma Building.step {built xs ys} {x : Slice κ} (h : Building g w b tasks built (x :: xs) ys)
    (hle : ∀ z ∈ ys, x.scope.range.inclusiveMin ≤ z.scope.range.inclusiveMin) :
    Yields (Fault w) (Building g w b tasks · xs ys) (mergeOrAppendSlice g m built x) := by
  obtain ⟨hx, hbx⟩ := h.left.head
  have hxs := (pairwise_cons.mp h.left.ordered).1
  have hone : Wf g w b [x] :=
    ⟨forall_mem_singleton.mpr h.left.head, pairwise_singleton _ _⟩
  -- the next slice starts no later than all that are to come, and ends before those of its list
  have hfirst : ∀ z, z ∈ xs ∨ z ∈ ys → x.scope.range.inclusiveMin ≤ z.scope.range.inclusiveMin :=
    fun z hz => hz.elim (fun hz => hx.proper.1.trans (hxs z hz)) (hle z)
  unfold mergeOrAppendSlice
  split
  · rename_i hempty
    refine h.put (.refl _) [] wf_nil (by simp) (by simp) (by simp) fun t _ hc => .inr ?_
    exact hc.resolve_right (hx.not_covers hempty t)
  split
  · exact h.put (.refl _) [x] hone (fun _ _ _ h => nomatch h)
      (forall_mem_singleton.mpr hfirst) (forall_mem_singleton.mpr (.inl hxs))
      fun t _ hc => .inl (covers_cons.mpr (hc.symm.imp id id))
  rename_i last rest
  obtain ⟨hlast, hblast⟩ := h.each last mem_cons_self
  obtain ⟨hlt, -⟩ := pairwise_cons.mp h.ordered
  have hmin := h.before last mem_cons_self x (.inl mem_cons_self)
  split
  · -- the last slice ends before the next one starts
    rename_i hcan
    have hend : last.scope.range.exclusiveMax ≤ x.scope.range.inclusiveMin := by
      by_contra hne
      have hmeet := Range.canMerge_iff.mpr ⟨hmin.trans hx.proper.1, (not_le.mp hne).le⟩
      simp [hmeet] at hcan
    refine h.put (.refl _) [x] hone (forall_mem_singleton.mpr ?_)
      (forall_mem_singleton.mpr hfirst) (forall_mem_singleton.mpr (.inl hxs))
      fun t _ hc => hc.symm.imp (fun hc => covers_cons.mpr (.inl hc)) id
    exact forall_mem_cons.mpr ⟨hend, fun s hs => (hlt s hs).trans hmin⟩
  have heq : last.mergeWithSlice g m x = mergeOrdered g m last x := if_neg (not_lt.mpr hmin)
  rw [heq]
  refine (mergeOrdered_yields hlast hx hmin).bind fun outs hm => ?_
  have hmax : ∀ o ∈ outs, o.scope.range.exclusiveMax ≤ b :=
    fun o ho => (hm.upper o ho).trans (max_le hblast hbx)
  refine h.put (sublist_cons_self last rest) outs ⟨fun o ho => ⟨hm.wf o ho, hmax o ho⟩,
    hm.ordered⟩ (fun o ho s hs => (hlt s hs).trans (hm.lower o ho)) (fun o ho z hz => ?_)
    (fun o ho => ?_) fun t ht hc => ?_
  · obtain hz | hz := hz
    · exact (hm.start o ho).2.trans (hxs z hz)
    obtain ha | ha := h.apart last mem_cons_self
    · exact ((hm.start o ho).1.trans (ha x mem_cons_self)).trans (hle z hz)
    · exact (hm.start o ho).1.trans (ha z hz)
  · obtain hxl | hxl := le_total last.scope.range.exclusiveMax x.scope.range.exclusiveMax
    · exact .inl fun z hz => ((hm.upper o ho).trans (max_le hxl le_rfl)).trans (hxs z hz)
    have hol := (hm.upper o ho).trans (max_le le_rfl hxl)
    exact (h.apart last mem_cons_self).imp (fun ha z hz => hol.trans (ha z (mem_cons_of_mem _ hz)))
      fun ha z hz => hol.trans (ha z hz)
  rw [covers_cons, or_assoc, or_comm, or_assoc] at hc
  obtain hc | hc | hc := hc
  · exact .inr hc
  · exact .inl (hm.covers t ht (.inr hc))
  · exact .inl (hm.covers t ht (.inl hc))

lemma mergeSlices_yields {slices incoming} (hs : Wf g w b slices) (hi : Wf g w b incoming) :
    Yields (Fault w) (Keeps g w b (slices ++ incoming)) (mergeSlices g m slices incoming) := by
  unfold mergeSlices
  split
  · rename_i hempty
    rw [isEmpty_iff.mp hempty, append_nil]
    exact ⟨hs, fun _ _ _ hc => hc⟩
  rw [validate_ok hi.ordered]
  have hstart : Building g w b (fun t => Covers slices t ∨ Covers incoming t) [] slices incoming :=
    ⟨by simp, .nil, hs, hi, by simp, by simp, fun _ _ hc => .inr hc⟩
  have hfold := Lib.mergeFold_yields (F := Fault w)
    (fun s s' => s.scope.range.inclusiveMin < s'.scope.range.inclusiveMin)
    (f := mergeOrAppendSlice g m)
    (fun built x xs ys h turn => h.step fun z hz => by
      cases ys with
      | nil => cases hz
      | cons y ys =>
        have hlt : x.scope.range.inclusiveMin < y.scope.range.inclusiveMin := by
          simpa [Lib.LeftTurn] using turn
        exact hlt.le.trans (h.right.head_le z hz))
    (fun built y xs ys h turn => (h.symm.step fun z hz => by
      cases xs with
      | nil => cases hz
      | cons x xs =>
        have hle : y.scope.range.inclusiveMin ≤ x.scope.range.inclusiveMin := by
          simpa [Lib.RightTurn] using turn
        exact hle.trans (h.left.head_le z hz)).mono (fun _ h => h) fun _ h => h.symm) hstart
  refine hfold.bind fun built hb => ?_
  refine ⟨⟨fun s hs => hb.each s (mem_reverse.mp hs), pairwise_reverse.mpr hb.ordered⟩, fun t ht _ hc => ?_⟩
  obtain ⟨s, hs, hc⟩ | ⟨s, hs, -⟩ | ⟨s, hs, -⟩ := hb.covers t ht (covers_append.mp hc)
  · exact ⟨s, mem_reverse.mpr hs, hc⟩
  · cases hs
  · cases hs

lemma mergeSlices_spec {slices incoming outs} (hs : Wf g w b slices)
    (hi : ∀ s ∈ incoming, s.Wf g w ∧ s.scope.range.exclusiveMax ≤ b)
    (h : mergeSlices g m slices incoming = .ok outs) : Keeps g w b (slices ++ incoming) outs := by
  refine (mergeSlices_yields hs ⟨hi, ?_⟩).post h
  unfold mergeSlices at h
  split at h
  · rename_i hempty
    rw [isEmpty_iff.mp hempty]
    exact .nil
  obtain ⟨⟨⟩, hval, -⟩ := bind_ok h
  exact ordered_of_validate (fun s hs => (hi s hs).1) hval

lemma appendSlices_spec {slices incoming outs} (hs : Wf g w b slices)
    (hi : ∀ s ∈ incoming, s.Wf g w ∧ s.scope.range.exclusiveMax ≤ b)
    (h : appendSlices slices incoming = .ok outs) : Keeps g w b (slices ++ incoming) outs := by
  obtain ⟨⟨⟩, hval, h⟩ := bind_ok h
  have hord := ordered_of_validate (fun s hs => (hi s hs).1) hval
  have hinc : Wf g w b incoming := ⟨hi, hord⟩
  -- the last slice ends before the first incoming one starts, if there are both
  obtain ⟨rfl, hcross⟩ : outs = slices ++ incoming.filter (!·.scope.isEmpty) ∧ ∀ s ∈ slices, ∀ s' ∈ incoming,
        s.scope.range.exclusiveMax ≤ s'.scope.range.inclusiveMin := by
    cases hlast : slices.getLast? with
    | none =>
      rw [hlast] at h
      cases h
      rw [getLast?_eq_none_iff.mp hlast]
      exact ⟨rfl, fun _ h => nomatch h⟩
    | some last =>
      cases incoming with
      | nil =>
        rw [hlast] at h
        cases h
        exact ⟨rfl, fun _ _ _ h => nomatch h⟩
      | cons first incoming =>
        simp only [hlast, head?_cons] at h
        split at h
        · cases h
        rename_i hle
        cases h
        refine ⟨rfl, fun s hs' s' hs'' => ?_⟩
        obtain ⟨init, rfl⟩ := getLast?_eq_some_iff.mp hlast
        have hmax : s.scope.range.exclusiveMax ≤ last.scope.range.exclusiveMax := by
          obtain hs' | hs' := mem_append.mp hs'
          · obtain ⟨-, -, hc⟩ := pairwise_append.mp hs.ordered
            exact (hc s hs' last (by simp)).trans (hs.each last (by simp)).1.proper.1
          · rw [mem_singleton.mp hs']
        exact (hmax.trans (not_lt.mp hle)).trans (hinc.head_le s' hs'')
  refine ⟨⟨fun s hs' => ?_, pairwise_append.mpr ⟨hs.ordered, (hinc.filter _).ordered,
    fun s hs' s' hs'' => hcross s hs' s' (mem_of_mem_filter hs'')⟩⟩, fun t _ _ hc => ?_⟩
  · exact (mem_append.mp hs').elim (hs.each s) ((hinc.filter _).each s)
  exact covers_append.mpr ((covers_append.mp hc).imp id fun hc => hc.filter fun s hs => (hi s hs).1)

end Merge

end Reader

end FastOrchestration.Queues
