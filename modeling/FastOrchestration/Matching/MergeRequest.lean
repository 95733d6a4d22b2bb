import FastOrchestration.Matching.VersionSetLaws

/-!
# The merge request

A merge request stamps the default of the primary set, gives the secondary set the set ids of both, and
merges the primary set with all sets. The two sets are the only ones that share a set id then, so there
are no chains and the result is the join: the other sets and the union of the two.

Merging sorts everything again by the times, with a sort that is not stable. Where the times are
different the order is what it was.
-/

namespace FastOrchestration.Matching

open List VersionSet

def VersionSet.union (s t : VersionSet) : VersionSet where
  setIds := mergeSetIDs s.setIds t.setIds
  buildIds := s.buildIds ++ t.buildIds
  becameDefaultTimestamp := max s.becameDefaultTimestamp t.becameDefaultTimestamp

def VersionSet.withIdsOf (s t : VersionSet) : VersionSet :=
  { t with setIds := mergeSetIDs s.setIds t.setIds }

section Union

variable {before after : List VersionSet} {s t : VersionSet}

/-- What a merge request merges. -/
def operands (before after : List VersionSet) (s t : VersionSet) : List VersionSet :=
  s :: (before ++ s.withIdsOf t :: after)

/-- What the result is, up to order. -/
def unionOf (before after : List VersionSet) (s t : VersionSet) : List VersionSet :=
  (before ++ after).erase s ++ [s.union t]

lemma mem_operands (hs : s ∈ before ++ after) {w} :
    w ∈ operands before after s t ↔ w = s.withIdsOf t ∨ w ∈ before ++ after := by
  simp only [operands, mem_cons, mem_append] at hs ⊢
  constructor
  · rintro (rfl | h | h | h) <;> tauto
  · tauto

lemma mem_sets_of_mem {w} (hw : w ∈ before ++ after) : w ∈ before ++ t :: after := by
  simp only [mem_append, mem_cons] at hw ⊢
  tauto

lemma perm_unionOf (hs : s ∈ before ++ after) : ((unionOf before after s t).flatMap (·.ids)).Perm
    ((before ++ t :: after).flatMap (·.ids)) := by
  have hrest : (s :: (before ++ after).erase s).Perm (before ++ after) := (perm_cons_erase hs).symm
  have hall : (t :: (before ++ after)).Perm (before ++ t :: after) := perm_middle.symm
  have hunion : (s.union t).ids = s.ids ++ t.ids := by
    simp [union, ids]
  have hsplit : (unionOf before after s t).flatMap (·.ids) = ((before ++ after).erase s ++ [s, t]).flatMap (·.ids) := by
    simp [unionOf, hunion]
  rw [hsplit]
  refine List.Perm.flatMap_right _ ?_
  calc ((before ++ after).erase s ++ [s, t]).Perm ([s, t] ++ (before ++ after).erase s) :=
        perm_append_comm
    _ |>.Perm (t :: s :: (before ++ after).erase s) := .swap _ _ _
    _ |>.Perm (t :: (before ++ after)) := hrest.cons t
    _ |>.Perm (before ++ t :: after) := hall

variable (h : SetsInv (before ++ t :: after)) (hs : s ∈ before ++ after)

include h

lemma ids_withIdsOf_disjoint {w : VersionSet} (hw : w ∈ before ++ after) :
    (s.withIdsOf t).ids.Disjoint w.ids := (h.apart hw).ids

lemma mem_unionOf {w} : w ∈ unionOf before after s t ↔ w = s.union t ∨ (w ∈ before ++ after ∧ w ≠ s) := by
  have hnodup : (before ++ after).Nodup := h.without.joins.nodup
  rw [unionOf, mem_append, mem_singleton, hnodup.mem_erase_iff]
  tauto

include hs

omit h in
lemma occurs {w b} (hw : w = s.withIdsOf t ∨ w ∈ before ++ after) (hb : b ∈ w.buildIds) :
    (w, b) ∈ occurrences (operands before after s t) := mem_occurrences.mpr ⟨(mem_operands hs).mpr hw, hb⟩

lemma operands_unique {o o'} (ho : o ∈ occurrences (operands before after s t))
    (ho' : o' ∈ occurrences (operands before after s t)) (hid : o.2.id = o'.2.id) : o = o' := by
  obtain ⟨hw, hb⟩ := mem_occurrences.mp ho
  obtain ⟨hw', hb'⟩ := mem_occurrences.mp ho'
  have hx : o.2.id ∈ o.1.ids := id_mem hb
  have hx' : o.2.id ∈ o'.1.ids := mem_ids.mpr ⟨_, hb', hid.symm⟩
  have hsame : o.1 = o'.1 ∧ (o.1.buildIds.map (·.id)).Nodup := by
    obtain heq | hw := (mem_operands hs).mp hw
    · obtain heq' | hw' := (mem_operands hs).mp hw'
      · refine ⟨heq.trans heq'.symm, ?_⟩
        rw [heq]
        exact (h.good mem_append_cons_self).ids
      · exact absurd hx' (ids_withIdsOf_disjoint h hw' (heq ▸ hx))
    obtain heq' | hw' := (mem_operands hs).mp hw'
    · exact absurd hx (ids_withIdsOf_disjoint h hw (heq' ▸ hx'))
    exact ⟨eq_of_mem_ids h.ids (mem_sets_of_mem hw) (mem_sets_of_mem hw') hx hx', (h.good (mem_sets_of_mem hw)).ids⟩
  exact Prod.ext hsame.1 (inj_on_of_nodup_map hsame.2 hb (hsame.1 ▸ hb') hid)

lemma operands_consistent : Consistent (occurrences (operands before after s t)) :=
  fun _ ho _ ho' hid _ => by rw [operands_unique h hs ho ho' hid]

lemma linked_of_mem_unionOf {w : VersionSet} (hw : w ∈ unionOf before after s t) {x y}
    (hx : x ∈ w.ids) (hy : y ∈ w.ids) : Linked (occurrences (operands before after s t)) x y := by
  obtain rfl | ⟨hw, -⟩ := (mem_unionOf h).mp hw
  · -- both sets have the set ids of the primary one
    obtain ⟨i, hi⟩ := exists_mem_of_ne_nil _ (h.good (mem_sets_of_mem hs)).named
    have hpart : ∀ z ∈ (s.union t).ids, ∃ o ∈ occurrences (operands before after s t), o.2.id = z ∧ i ∈ o.1.setIds := by
      intro z hz
      obtain ⟨b, hb, rfl⟩ := mem_ids.mp hz
      obtain hb | hb := mem_append.mp hb
      · exact ⟨(s, b), occurs hs (.inr hs) hb, rfl, hi⟩
      · exact ⟨(s.withIdsOf t, b), occurs hs (.inl rfl) hb, rfl, mem_mergeSetIDs.mpr (.inl hi)⟩
    obtain ⟨o, ho, rfl, hio⟩ := hpart x hx
    obtain ⟨o', ho', rfl, hio'⟩ := hpart y hy
    exact ⟨o, ho, o', ho', rfl, rfl, i, hio, hio'⟩
  exact linked_of_set (h.good (mem_sets_of_mem hw)).named (fun b => occurs hs (.inr hw)) hx hy

lemma unionOf_joins : Joins (occurrences (operands before after s t)) (unionOf before after s t) := by
  have hgood := fun {w} hw => h.good (mem_sets_of_mem (w := w) hw)
  have hgoods := hgood hs
  obtain ⟨b, hb⟩ := exists_mem_of_ne_nil _ (h.good (mem_append_cons_self (a := t))).nonempty
  have hmem := fun {w} => mem_unionOf (s := s) (w := w) h
  have hmerged : ∀ o ∈ occurrences (operands before after s t),
      IsMerged (occurrences (operands before after s t)) o.2 := fun o ho =>
    .of_unique ho fun o' ho' => operands_unique h hs ho' ho
  refine ⟨(perm_unionOf hs).nodup_iff.mpr h.ids, ?_, fun w hw => ?_, fun w hw b hb => ?_,
    fun o ho => ?_, fun w hw i hi => ?_, fun w hw => ?_,
    fun w hw x hx y hy => .single (linked_of_mem_unionOf h hs hw hx hy)⟩
  · have hsub : ((before ++ after).erase s).Sublist (before ++ after) := erase_sublist
    refine pairwise_append.mpr ⟨h.without.disjoint.sublist hsub, pairwise_singleton _ _, fun w hw u hu i hi hi' => ?_⟩
    have hwin := hsub.subset hw
    rw [mem_singleton.mp hu] at hi'
    obtain hi' | hi' := mem_mergeSetIDs.mp hi'
    · have heq := eq_of_mem_setIds h.disjoint (mem_sets_of_mem hwin) (mem_sets_of_mem hs) hi hi'
      exact (h.without.joins.nodup.mem_erase_iff.mp hw).1 heq
    · exact (h.apart hwin).setIds hi' hi
  · obtain rfl | ⟨hw, -⟩ := hmem.mp hw
    · obtain ⟨i, hi⟩ := exists_mem_of_ne_nil _ hgoods.named
      exact ⟨append_ne_nil_of_left_ne_nil hgoods.nonempty _, ne_nil_of_mem (mem_mergeSetIDs.mpr (.inl hi))⟩
    · exact ⟨(hgood hw).nonempty, (hgood hw).named⟩
  · obtain rfl | ⟨hw, -⟩ := hmem.mp hw
    · obtain hb | hb := mem_append.mp hb
      · exact hmerged (s, b) (occurs hs (.inr hs) hb)
      · exact hmerged (s.withIdsOf t, b) (occurs hs (.inl rfl) hb)
    · exact hmerged (w, b) (occurs hs (.inr hw) hb)
  · obtain ⟨w, b⟩ := o
    obtain ⟨hw, hb⟩ := mem_occurrences.mp ho
    obtain rfl | hw := (mem_operands hs).mp hw
    · exact ⟨s.union t, hmem.mpr (.inl rfl), id_mem (mem_append_right _ hb), fun _ hi => hi, le_max_right _ _⟩
    by_cases heq : w = s
    · subst heq
      exact ⟨w.union t, hmem.mpr (.inl rfl), id_mem (mem_append_left _ hb),
        fun _ hi => mem_mergeSetIDs.mpr (.inl hi), le_max_left _ _⟩
    · exact ⟨w, hmem.mpr (.inr ⟨hw, heq⟩), id_mem hb, fun _ hi => hi, le_rfl⟩
  · obtain rfl | ⟨hw, -⟩ := hmem.mp hw
    · exact ⟨(s.withIdsOf t, b), occurs hs (.inl rfl) hb, id_mem (mem_append_right _ hb), hi⟩
    obtain ⟨b, hb⟩ := exists_mem_of_ne_nil _ (hgood hw).nonempty
    exact ⟨(w, b), occurs hs (.inr hw) hb, id_mem hb, hi⟩
  obtain rfl | ⟨hw, -⟩ := hmem.mp hw
  · obtain hle | hle := le_total s.becameDefaultTimestamp t.becameDefaultTimestamp
    · exact ⟨(s.withIdsOf t, b), occurs hs (.inl rfl) hb, id_mem (mem_append_right _ hb), (max_eq_right hle).symm⟩
    obtain ⟨b, hb⟩ := exists_mem_of_ne_nil _ hgoods.nonempty
    exact ⟨(s, b), occurs hs (.inr hs) hb, id_mem (mem_append_left _ hb), (max_eq_left hle).symm⟩
  obtain ⟨b, hb⟩ := exists_mem_of_ne_nil _ (hgood hw).nonempty
  exact ⟨(w, b), occurs hs (.inr hw) hb, id_mem hb, rfl⟩

lemma operands_unchained : Unchained (occurrences (operands before after s t)) := by
  intro x y z hxy hyz
  have hj := unionOf_joins h hs
  obtain ⟨o, ho, rfl⟩ := mem_map.mp hxy.mem.1
  obtain ⟨w, hw, hx, -⟩ := hj.placed o ho
  exact linked_of_mem_unionOf h hs hw hx (hj.closed hw (hj.closed hw hx hxy) hyz)

end Union

/-! ## The order after a merge -/

section Order

variable {α : Type}

lemma eq_of_perm_of_strict {f : α → Clock} {l l' : List α} (hperm : l.Perm l')
    (hl : l.Pairwise fun a b => f a ≤ f b) (hl' : l'.Pairwise fun a b => f a < f b) : l = l' := by
  have hnodup : (l'.map f).Nodup := pairwise_map.mpr (hl'.imp fun h => h.ne)
  refine hperm.eq_of_pairwise (fun a b ha hb hab hba => ?_) hl (hl'.imp fun h => h.le)
  exact inj_on_of_nodup_map hnodup (hperm.subset ha) hb (le_antisymm hab hba)

lemma getLast?_of_latest {f : α → Clock} {l : List α} (hl : l.Pairwise fun a b => f a ≤ f b) {a : α}
    (ha : a ∈ l) (hlatest : ∀ b ∈ l, b = a ∨ f b < f a) : l.getLast? = some a := by
  obtain ⟨front, b, rfl⟩ := eq_nil_or_concat' l |>.resolve_left (ne_nil_of_mem ha)
  rw [getLast?_concat]
  obtain rfl | hlt := hlatest b mem_concat_self
  · rfl
  obtain ha | ha := mem_append.mp ha
  · have hle := (pairwise_append.mp hl).2.2 a ha b (mem_singleton_self b)
    exact absurd hlt hle.not_gt
  · rw [mem_singleton.mp ha]

end Order

def TimesDistinct (sets : List VersionSet) : Prop :=
  (sets.Pairwise fun s s' => s.becameDefaultTimestamp < s'.becameDefaultTimestamp) ∧
    ∀ s ∈ sets, s.buildIds.Pairwise fun b b' => b.becameDefaultTimestamp < b'.becameDefaultTimestamp

instance (sets : List VersionSet) : Decidable (TimesDistinct sets) :=
  inferInstanceAs (Decidable (_ ∧ _))

/-- The set of the first build id is joined with the set of the second and keeps its default. The
build ids of both stay in their order, and so do all other sets. -/
structure UnitedWith (primary secondary : String) (s t : VersionSet) (old new : List VersionSet)
    (u : VersionSet) : Prop where
  mem : u ∈ new
  ids : ∀ x, x ∈ u.ids ↔ x ∈ s.ids ∨ x ∈ t.ids
  setIds : ∀ i, i ∈ u.setIds ↔ i ∈ s.setIds ∨ i ∈ t.setIds
  default : u.ids.getLast? = s.ids.getLast?
  ordered : s.ids.Sublist u.ids ∧ t.ids.Sublist u.ids
  others : (new.filter fun w => primary ∉ w.ids).map (·.buildIds) =
    (old.filter fun w => primary ∉ w.ids ∧ secondary ∉ w.ids).map (·.buildIds)

section Request

variable {sets before after new : List VersionSet} {s t u : VersionSet} {v w : String} {timestamp : Clock}

lemma sublist_of_counterpart {l : List BuildId} (hl : l.Pairwise fun b b' =>
      b.becameDefaultTimestamp < b'.becameDefaultTimestamp) (hu : u.Good)
    (hsub : ∀ b ∈ l, b ∈ u.buildIds) : (l.map (·.id)).Sublist u.ids := by
  have hperm : (u.buildIds.filter fun b => b ∈ l).Perm l := by
    refine (perm_ext_iff_of_nodup (hu.ids.of_map _ |>.filter _)
      (hl.imp fun hlt heq => hlt.ne (congrArg _ heq))).mpr fun b => ?_
    rw [mem_filter, decide_eq_true_eq]
    exact ⟨fun h => h.2, fun h => ⟨hsub b h, h⟩⟩
  have heq := eq_of_perm_of_strict (f := fun b => b.becameDefaultTimestamp) hperm (hu.builds.sublist filter_sublist) hl
  rw [← heq]
  exact filter_sublist.map _

lemma buildIds_eq_of_counterpart (hu : u.Good) (hs : s.buildIds.Pairwise fun b b' =>
      b.becameDefaultTimestamp < b'.becameDefaultTimestamp) (hc : Counterpart u s) :
    u.buildIds = s.buildIds :=
  eq_of_perm_of_strict hc.buildIds hu.builds hs

variable (ch : Choices) (h : SetsInv (before ++ t :: after)) (hs : s ∈ before ++ after)

include h hs

lemma merged_operands : SetsInv (mergedSets ch (operands before after s t)) ∧
    Joins (occurrences (operands before after s t)) (mergedSets ch (operands before after s t)) := by
  have hun := operands_unchained h hs
  have hsets : ∀ w ∈ operands before after s t, w.setIds.Nodup ∧ w.setIds ≠ [] := by
    intro w hw
    obtain rfl | hw := (mem_operands hs).mp hw
    · have ht := h.setIds t mem_append_cons_self
      have hs := h.setIds s (mem_sets_of_mem hs)
      exact ⟨mergeClosed_nodup _ _ hs.1 ht.1, mergeClosed_ne_nil _ _ hs.2 ht.2⟩
    · exact h.setIds w (mem_sets_of_mem hw)
  exact ⟨mergedSets_inv ch hun hsets, (mergedSets_joins ch mergeClosed_nodup hun hsets).1⟩

lemma mem_others (hv : v ∈ s.ids) (hw : w ∈ t.ids) {r : VersionSet} :
    r ∈ (before ++ t :: after).filter (fun r => v ∉ r.ids ∧ w ∉ r.ids) ↔ r ∈ before ++ after ∧ r ≠ s := by
  rw [mem_filter, decide_eq_true_eq]
  constructor
  · rintro ⟨hr, hvr, hwr⟩
    refine ⟨?_, fun heq => hvr (heq ▸ hv)⟩
    simp only [mem_append, mem_cons] at hr ⊢
    obtain hr | rfl | hr := hr
    · exact .inl hr
    · exact absurd hw hwr
    · exact .inr hr
  rintro ⟨hr, hne⟩
  refine ⟨mem_sets_of_mem hr, fun hvr => hne ?_, fun hwr => (h.apart hr).ids hw hwr⟩
  exact eq_of_mem_ids h.ids (mem_sets_of_mem hr) (mem_sets_of_mem hs) hvr hv

lemma others_eq (hdist : TimesDistinct (before ++ t :: after)) (hv : v ∈ s.ids) (hw : w ∈ t.ids) :
    ((mergedSets ch (operands before after s t)).filter fun r => v ∉ r.ids).map (·.buildIds) =
      ((before ++ t :: after).filter fun r => v ∉ r.ids ∧ w ∉ r.ids).map (·.buildIds) := by
  obtain ⟨hinv, hj⟩ := merged_operands ch h hs
  have hju := unionOf_joins h hs
  have hcons := operands_consistent h hs
  let key (r : VersionSet) : List BuildId × Clock := (r.buildIds, r.becameDefaultTimestamp)
  let merged := (mergedSets ch (operands before after s t)).filter fun r => v ∉ r.ids
  let others := (before ++ t :: after).filter fun r => v ∉ r.ids ∧ w ∉ r.ids
  have hstrict : (others.map key).Pairwise (·.2 < ·.2) := pairwise_map.mpr (hdist.1.sublist filter_sublist)
  have hsorted : (merged.map key).Pairwise (·.2 ≤ ·.2) := pairwise_map.mpr (hinv.ordered.sublist filter_sublist)
  have hnodup : (merged.map key).Nodup := by
    refine List.Nodup.map_on (fun r hr r' hr' heq => ?_) (hj.nodup.filter _)
    have hr := mem_of_mem_filter hr
    obtain ⟨b, hb⟩ := exists_mem_of_ne_nil _ (hinv.nonempty r hr)
    have hbuilds : r.buildIds = r'.buildIds := congrArg Prod.fst heq
    have hb' : b ∈ r'.buildIds := hbuilds ▸ hb
    exact eq_of_mem_ids hinv.ids hr (mem_of_mem_filter hr') (id_mem hb) (id_mem hb')
  -- a set of the result and its counterpart have the same key
  have hkey : ∀ r' r, r' ∈ mergedSets ch (operands before after s t) → r ∈ before ++ after →
      Counterpart r' r → key r' = key r := fun r' r hr' hr hc => by
    have hb := buildIds_eq_of_counterpart (hinv.good hr') (hdist.2 r (mem_sets_of_mem hr)) hc
    exact Prod.ext hb hc.time
  have hmem : ∀ k, k ∈ merged.map key ↔ k ∈ others.map key := by
    intro k
    constructor
    · intro hk
      obtain ⟨r', hr', rfl⟩ := mem_map.mp hk
      obtain ⟨hr', hvr⟩ := mem_filter.mp hr'
      obtain ⟨r, hr, hc⟩ := hj.counterpart hcons hju hr'
      obtain rfl | ⟨hr, hne⟩ := (mem_unionOf h).mp hr
      · -- the union has the build id
        obtain ⟨b, hb, hid⟩ := mem_ids.mp hv
        refine absurd (mem_ids.mpr ⟨b, hc.buildIds.symm.subset (mem_append_left _ hb), hid⟩) ?_
        exact of_decide_eq_true hvr
      · exact mem_map.mpr ⟨r, (mem_others h hs hv hw).mpr ⟨hr, hne⟩, (hkey r' r hr' hr hc).symm⟩
    intro hk
    obtain ⟨r, hr, rfl⟩ := mem_map.mp hk
    have hvr : v ∉ r.ids := (of_decide_eq_true (mem_filter.mp hr).2 : v ∉ r.ids ∧ _).1
    obtain ⟨hr, hne⟩ := (mem_others h hs hv hw).mp hr
    obtain ⟨r', hr', hc⟩ := hju.counterpart hcons hj ((mem_unionOf h).mpr (.inr ⟨hr, hne⟩))
    have hc' : Counterpart r' r := ⟨fun i => (hc.setIds i).symm, hc.buildIds.symm, hc.time.symm⟩
    refine mem_map.mpr ⟨r', mem_filter.mpr ⟨hr', decide_eq_true fun hvr' => hvr ?_⟩, hkey r' r hr' hr hc'⟩
    exact (hc.buildIds.map (·.id)).symm.subset hvr'
  have heq := eq_of_perm_of_strict (f := Prod.snd)
    ((perm_ext_iff_of_nodup hnodup (hstrict.imp fun hlt heq => hlt.ne (congrArg _ heq))).mpr hmem)
    hsorted hstrict
  have hfst := congrArg (List.map Prod.fst) heq
  rwa [map_map, map_map] at hfst

lemma united {front} {b : BuildId} (hdist : TimesDistinct (before ++ t :: after))
    (hv : v ∈ s.ids) (hw : w ∈ t.ids) (hb : s.buildIds = front ++ [b])
    (hlatest : ∀ c ∈ s.buildIds ++ t.buildIds, c = b ∨ c.becameDefaultTimestamp < b.becameDefaultTimestamp) :
    ∃ u, UnitedWith v w s t (before ++ t :: after) (mergedSets ch (operands before after s t)) u := by
  obtain ⟨hinv, hj⟩ := merged_operands ch h hs
  obtain ⟨u, hu, hc⟩ := (unionOf_joins h hs).counterpart (operands_consistent h hs) hj ((mem_unionOf h).mpr (.inl rfl))
  have hperm : (s.buildIds ++ t.buildIds).Perm u.buildIds := hc.buildIds
  have hgood := hinv.good hu
  have hlast : u.buildIds.getLast? = some b := by
    refine getLast?_of_latest hgood.builds (hperm.subset ?_) fun c hc =>
      hlatest c (hperm.symm.subset hc)
    simp [hb]
  have hlastId : ∀ {r : VersionSet}, r.buildIds.getLast? = some b → r.ids.getLast? = some b.id :=
    fun hr => by rw [ids, getLast?_map, hr, Option.map_some]
  refine ⟨u, hu, fun x => ?_, fun i => ?_, ?_, ⟨?_, ?_⟩, others_eq ch h hs hdist hv hw⟩
  · have hids := (hperm.map (·.id)).mem_iff (a := x)
    rw [map_append, mem_append] at hids
    exact hids.symm
  · exact (hc.setIds i).symm.trans mem_mergeSetIDs
  · rw [hlastId hlast, hlastId]
    rw [hb, getLast?_concat]
  · exact sublist_of_counterpart (hdist.2 s (mem_sets_of_mem hs)) hgood fun c hc =>
      hperm.subset (mem_append_left _ hc)
  exact sublist_of_counterpart (hdist.2 t mem_append_cons_self) hgood fun c hc => hperm.subset (mem_append_right _ hc)

end Request

/-! ## The request -/

def VersionSet.stampDefault (set : VersionSet) (timestamp : Clock) : VersionSet :=
  set.makeDefault (set.buildIds.length - 1) timestamp

section MergeSets

variable {sets before after before' after' : List VersionSet} {s t : VersionSet} {v w : String} {timestamp : Clock}

lemma stampDefault_eq {front b} (hb : s.buildIds = front ++ [b]) : s.stampDefault timestamp =
      { s with buildIds := front ++ [{ b with becameDefaultTimestamp := timestamp }] } := by
  have hmid : s.makeDefault front.length timestamp = _ := makeDefault_middle hb
  have hlen : s.buildIds.length - 1 = front.length := by simp [hb]
  rw [stampDefault, hlen, hmid, append_nil]

lemma VersionSet.Good.stampDefault (h : s.Good) (hlater : ∀ b ∈ s.buildIds, b.becameDefaultTimestamp < timestamp) :
    (s.stampDefault timestamp).Good ∧ (s.stampDefault timestamp).ids = s.ids ∧
      (s.stampDefault timestamp).setIds = s.setIds ∧
      (s.stampDefault timestamp).becameDefaultTimestamp = s.becameDefaultTimestamp := by
  obtain ⟨front, b, hb⟩ := (eq_nil_or_concat' s.buildIds).resolve_left h.nonempty
  have hids : (s.stampDefault timestamp).ids = s.ids := by
    rw [stampDefault_eq hb, VersionSet.ids, VersionSet.ids, hb, map_append, map_append]
    rfl
  have hgood := (h.makeDefault (hb : s.buildIds = front ++ b :: []) hlater).1
  have hlen : s.buildIds.length - 1 = front.length := by simp [hb]
  rw [← hlen] at hgood
  refine ⟨hgood, hids, ?_, ?_⟩ <;> rw [stampDefault_eq hb]

lemma SetsInv.stamp (h : SetsInv (before ++ s :: after)) (hlater : Later timestamp (before ++ s :: after)) :
    SetsInv (before ++ s.stampDefault timestamp :: after) := by
  have hs : s ∈ before ++ s :: after := mem_append_cons_self
  obtain ⟨hgood, hids, hsetIds, htime⟩ := (h.good hs).stampDefault (hlater s hs).2
  refine h.replace hgood (fun r hr => ⟨?_, ?_⟩) htime
  · rw [hsetIds]
    exact (h.apart hr).setIds
  rw [hids]
  exact (h.apart hr).ids

lemma TimesDistinct.stamp (h : TimesDistinct (before ++ s :: after))
    (hlater : Later timestamp (before ++ s :: after)) (hne : s.buildIds ≠ []) :
    TimesDistinct (before ++ s.stampDefault timestamp :: after) := by
  obtain ⟨front, b, hb⟩ := (eq_nil_or_concat' s.buildIds).resolve_left hne
  rw [stampDefault_eq hb]
  obtain ⟨hbefore, hrest, hcross⟩ := pairwise_append.mp h.1
  obtain ⟨hafter, hpairs⟩ := pairwise_cons.mp hrest
  have hs : s ∈ before ++ s :: after := mem_append_cons_self
  refine ⟨pairwise_append.mpr ⟨hbefore, pairwise_cons.mpr ⟨hafter, hpairs⟩, fun r hr r' hr' => ?_⟩, fun r hr => ?_⟩
  · obtain rfl | hr' := mem_cons.mp hr'
    · exact hcross r hr s mem_cons_self
    · exact hcross r hr r' (mem_cons_of_mem _ hr')
  have hold : r ∈ before ++ after → r.buildIds.Pairwise fun b b' =>
      b.becameDefaultTimestamp < b'.becameDefaultTimestamp := fun hr => h.2 r (mem_sets_of_mem hr)
  obtain hr | hr := mem_append.mp hr
  · exact hold (mem_append_left _ hr)
  obtain rfl | hr := mem_cons.mp hr
  · have hfront := h.2 s hs
    rw [hb] at hfront
    refine pairwise_append.mpr ⟨(pairwise_append.mp hfront).1, pairwise_singleton _ _, fun c hc d hd => ?_⟩
    rw [mem_singleton.mp hd]
    exact (hlater s hs).2 c (by simp [hb, hc])
  · exact hold (mem_append_right _ hr)

lemma exists_middle {α : Type} {l : List α} {i : Nat} {a : α} (h : l[i]? = some a) :
    ∃ front back, l = front ++ a :: back ∧ front.length = i := by
  obtain ⟨hlt, rfl⟩ := List.getElem?_eq_some_iff.mp h
  refine ⟨l.take i, l.drop (i + 1), ?_, ?_⟩
  · rw [← drop_eq_getElem_cons hlt, take_append_drop]
  · rw [length_take, min_eq_left hlt.le]

lemma mergeOperands_eq (timestamp : Clock) (heq : sets = before ++ s :: after) (heq' : sets = before' ++ t :: after')
    (hne : before.length ≠ before'.length) :
    ∃ front back, before ++ s.stampDefault timestamp :: after = front ++ t :: back ∧
      mergeOperands timestamp sets before.length before'.length =
        ([s.stampDefault timestamp], front ++ (s.stampDefault timestamp).withIdsOf t :: back) := by
  have hmod : sets.modify before.length (fun set =>
      set.makeDefault (set.buildIds.length - 1) timestamp) = before ++ s.stampDefault timestamp :: after := by
    rw [heq, modify_middle, stampDefault]
  have hget : (before ++ s.stampDefault timestamp :: after)[before'.length]? = some t := by
    rw [← hmod, getElem?_modify_ne _ _ hne, heq']
    simp
  obtain ⟨front, back, hsplit, hlen⟩ := exists_middle hget
  refine ⟨front, back, hsplit, ?_⟩
  simp only [mergeOperands, hmod]
  rw [hsplit, ← hlen, modify_middle, ← hsplit]
  simp [withIdsOf]

lemma SetsInv.ne_of_length_ne (h : SetsInv sets) (heq : sets = before ++ s :: after)
    (heq' : sets = before' ++ t :: after') (hne : before.length ≠ before'.length) : s ≠ t := by
  rintro rfl
  have hget : sets[before.length]? = some s := by simp [heq]
  have hget' : sets[before'.length]? = some s := by simp [heq']
  have hlt : before.length < sets.length := by simp [heq]
  exact hne ((getElem?_inj hlt h.joins.nodup).mp (hget.trans hget'.symm))

lemma mergeSetsRequest_ok {data new : VersioningData} (ch : Choices) (h : SetsInv data.versionSets)
    (hlater : Later timestamp data.versionSets) (hok : mergeSetsRequest timestamp ch data v w = .ok new) :
    SetsInv new.versionSets ∧ (TimesDistinct data.versionSets →
      ∃ s ∈ data.versionSets, v ∈ s.ids ∧ ∃ t ∈ data.versionSets, w ∈ t.ids ∧ ((s = t ∧ new = data) ∨
          (s ≠ t ∧ ∃ u, UnitedWith v w s t data.versionSets new.versionSets u))) := by
  unfold mergeSetsRequest at hok
  split at hok
  · cases hok
  rename_i hv
  split at hok
  · cases hok
  rename_i hw
  obtain ⟨before, s, after, _, b, _, heq, rfl, -, -, rfl, hs, hvs⟩ := findBuildId_some hv
  obtain ⟨before', t, after', _, b', _, heq', rfl, -, -, rfl, ht, hwt⟩ := findBuildId_some hw
  split at hok
  · rename_i hsame
    cases hok
    refine ⟨h, fun _ => ⟨s, hs, hvs, t, ht, hwt, .inl ⟨?_, rfl⟩⟩⟩
    exact (List.cons.inj (append_inj_right (heq.symm.trans heq') hsame)).1
  rename_i hne
  obtain ⟨front, back, hsplit, hops⟩ := mergeOperands_eq timestamp heq heq' hne
  rw [hops] at hok
  cases hok
  have hst := h.ne_of_length_ne heq heq' hne
  obtain ⟨-, hids, hsetIds, -⟩ := (h.good hs).stampDefault (hlater s hs).2
  have hinv : SetsInv (front ++ t :: back) := by
    rw [← hsplit]
    rw [heq] at h hlater
    exact h.stamp hlater
  -- the stamped set has the build ids of the primary one, so it is not the secondary
  have hmem : s.stampDefault timestamp ∈ front ++ back := by
    have hin : s.stampDefault timestamp ∈ front ++ t :: back :=
      hsplit ▸ mem_append_cons_self
    have hne : s.stampDefault timestamp ≠ t := fun hstamp => by
      rw [hstamp] at hids
      exact hst (eq_of_mem_ids h.ids hs ht hvs (hids ▸ hvs))
    simp only [mem_append, mem_cons] at hin ⊢
    tauto
  refine ⟨(merged_operands ch hinv hmem).1, fun hdist => ⟨s, hs, hvs, t, ht, hwt, .inr ⟨hst, ?_⟩⟩⟩
  have hdist' : TimesDistinct (front ++ t :: back) := by
    rw [← hsplit]
    rw [heq] at hdist hlater
    exact hdist.stamp hlater (h.nonempty s hs)
  obtain ⟨most, last, hlast⟩ :=
    (eq_nil_or_concat' s.buildIds).resolve_left (h.nonempty s hs)
  obtain ⟨u, hu⟩ := united ch hinv hmem hdist' (hids.symm ▸ hvs) hwt
    (congrArg buildIds (stampDefault_eq hlast)) fun c hc => by
      obtain hc | hc := mem_append.mp hc
      · rw [stampDefault_eq hlast] at hc
        obtain hc | hc := mem_append.mp hc
        · exact .inr ((hlater s hs).2 c (by simp [hlast, hc]))
        · exact .inl (mem_singleton.mp hc)
      · exact .inr ((hlater t ht).2 c hc)
  refine ⟨u, hu.mem, fun x => hids ▸ hu.ids x, fun i => hsetIds ▸ hu.setIds i, hids ▸ hu.default,
    hids ▸ hu.ordered, hu.others.trans ?_⟩
  rw [← hsplit, heq]
  simp [filter_append, hids, hvs]

end MergeSets

end FastOrchestration.Matching
