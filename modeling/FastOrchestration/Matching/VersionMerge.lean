import FastOrchestration.Matching.VersionJoin

/-!
# Merging version sets

`MergeVersioningData` puts each build id into the first set that fits and never joins two sets that it has
built. So it computes a join just if no build id links two groups of set ids that are otherwise apart
(`Unchained`); otherwise there is an order of the map iteration for which a set id is in two sets
(`mergedSets_chain`). Joins are unique, so merging without chains is commutative, associative and idempotent,
and replicas that merge the same values agree (`merge_isJoin`).
-/

namespace FastOrchestration.Matching

open List VersionSet

section Grouping

variable {occ : List (VersionSet × BuildId)} {infos : List (String × BuildIDInfo)}
  {sets : List VersionSet} {p : String × BuildIDInfo}

lemma setContainsSetIDs_iff {set : VersionSet} {ids} : setContainsSetIDs set ids ↔ ∃ i ∈ set.setIds, i ∈ ids := by
  simp only [setContainsSetIDs, any_eq_true, decide_eq_true_eq]
  constructor
  · rintro ⟨i, hi, j, hj, rfl⟩
    exact ⟨i, hj, hi⟩
  rintro ⟨i, hi, hi'⟩
  exact ⟨i, hi', i, hi, rfl⟩

lemma joinSet_cases (sets : List VersionSet) (p : String × BuildIDInfo) :
    (∀ s ∈ sets, s.setIds.Disjoint p.2.setIDs) ∧ joinSet sets p = sets ++ [.ofInfo p] ∨
    ∃ before s after, sets = before ++ s :: after ∧ (∃ i ∈ s.setIds, i ∈ p.2.setIDs) ∧
      joinSet sets p = before ++ s.addInfo p :: after := by
  induction sets with
  | nil => exact .inl ⟨by simp, rfl⟩
  | cons s sets ih =>
    simp only [joinSet]
    split
    · rename_i hs
      exact .inr ⟨[], s, sets, rfl, setContainsSetIDs_iff.mp hs, rfl⟩
    rename_i hs
    obtain ⟨hdis, heq⟩ | ⟨before, s', after, rfl, hi, heq⟩ := ih
    · refine .inl ⟨fun t ht => ?_, by rw [heq, cons_append]⟩
      obtain rfl | ht := mem_cons.mp ht
      · exact fun i hi hi' => hs (setContainsSetIDs_iff.mpr ⟨i, hi, hi'⟩)
      · exact hdis t ht
    · exact .inr ⟨s :: before, s', after, rfl, hi, by rw [heq, cons_append]⟩

/-- The sets that the loop of `intoVersionSets` has built from some of the collected build ids. -/
structure Grouping (P : List String → Prop) (occ : List (VersionSet × BuildId))
    (infos : List (String × BuildIDInfo)) (sets : List VersionSet) : Prop where
  ids : (sets.flatMap (·.ids)).Perm (infos.map (·.1))
  each : ∀ s ∈ sets, s.buildIds ≠ [] ∧ P s.setIds
  builds : ∀ s ∈ sets, ∀ b ∈ s.buildIds, ∃ p ∈ infos, b = p.2.toBuildId p.1
  placed : ∀ p ∈ infos, ∃ s ∈ sets, p.1 ∈ s.ids ∧ (∀ i ∈ p.2.setIDs, i ∈ s.setIds) ∧
    p.2.setMadeDefaultAt ≤ s.becameDefaultTimestamp
  setIds : ∀ s ∈ sets, ∀ i ∈ s.setIds, ∃ p ∈ infos, p.1 ∈ s.ids ∧ i ∈ p.2.setIDs
  latest : ∀ s ∈ sets, ∃ p ∈ infos, p.1 ∈ s.ids ∧ p.2.setMadeDefaultAt = s.becameDefaultTimestamp
  disjoint : sets.Pairwise fun s s' => s.setIds.Disjoint s'.setIds
  linked : ∀ s ∈ sets, ∀ x ∈ s.ids, ∀ y ∈ s.ids, Linked occ x y

lemma IsInfo.linked {q : String × BuildIDInfo} (hp : IsInfo occ p.1 p.2) (hq : IsInfo occ q.1 q.2)
    {i : String} (hi : i ∈ p.2.setIDs) (hi' : i ∈ q.2.setIDs) : Linked occ p.1 q.1 := by
  obtain ⟨o, ho, hid, hio⟩ := (hp.setIDs i).mp hi
  obtain ⟨o', ho', hid', hio'⟩ := (hq.setIDs i).mp hi'
  exact ⟨o, ho, o', ho', hid, hid', i, hio, hio'⟩

variable {P : List String → Prop}

/-- The set `s` has been built from the build ids of `g`, each two of which are linked. -/
structure Built (P : List String → Prop) (occ : List (VersionSet × BuildId)) (g : List (String × BuildIDInfo))
    (s : VersionSet) : Prop where
  buildIds : s.buildIds = g.map fun p => p.2.toBuildId p.1
  keeps : P s.setIds
  setIds : ∀ i, i ∈ s.setIds ↔ ∃ p ∈ g, i ∈ p.2.setIDs
  upper : ∀ p ∈ g, p.2.setMadeDefaultAt ≤ s.becameDefaultTimestamp
  latest : ∃ p ∈ g, p.2.setMadeDefaultAt = s.becameDefaultTimestamp
  linked : ∀ p ∈ g, ∀ q ∈ g, Linked occ p.1 q.1

variable {g : List (String × BuildIDInfo)} {s : VersionSet}

lemma Built.ids (h : Built P occ g s) : s.ids = g.map (·.1) := by
  rw [VersionSet.ids, h.buildIds, map_map]
  rfl

lemma Built.ofInfo (hP : P p.2.setIDs) (hp : Linked occ p.1 p.1) : Built P occ [p] (.ofInfo p) := by
  constructor <;> simp [VersionSet.ofInfo, hP, hp]

lemma Built.addInfo (hun : Unchained occ) (hPc : MergeClosed P) (h : Built P occ g s) (hP : P p.2.setIDs) {r} (hr : r ∈ g)
    (hrp : Linked occ r.1 p.1) : Built P occ (g ++ [p]) (s.addInfo p) := by
  have hto : ∀ q ∈ g, Linked occ q.1 p.1 := fun q hq => hun _ _ _ (h.linked q hq r hr) hrp
  have hmax : (s.addInfo p).becameDefaultTimestamp = max p.2.setMadeDefaultAt s.becameDefaultTimestamp :=
    Clock.maxClock_eq_max _ _
  refine ⟨by simp [VersionSet.addInfo, h.buildIds], hPc _ _ h.keeps hP, fun i => ?_, ?_, ?_, ?_⟩
  · simp [VersionSet.addInfo, mem_mergeSetIDs, h.setIds, or_and_right, exists_or]
  · rw [hmax, forall_mem_append, forall_mem_singleton]
    exact ⟨fun q hq => (h.upper q hq).trans (le_max_right _ _), le_max_left _ _⟩
  · rw [hmax]
    obtain hle | hle := le_total p.2.setMadeDefaultAt s.becameDefaultTimestamp
    · obtain ⟨q, hq, heq⟩ := h.latest
      exact ⟨q, mem_append_left _ hq, by rw [heq, max_eq_right hle]⟩
    · exact ⟨p, mem_concat_self, by rw [max_eq_left hle]⟩
  simp only [forall_mem_append, forall_mem_singleton]
  exact ⟨fun q hq => ⟨h.linked q hq, hto q hq⟩, fun q hq => (hto q hq).symm, hun _ _ _ hrp.symm hrp⟩

/-- The sets with the groups that they have been built from. -/
structure Groups (P : List String → Prop) (occ : List (VersionSet × BuildId)) (infos : List (String × BuildIDInfo))
    (groups : List (List (String × BuildIDInfo) × VersionSet)) : Prop where
  perm : (groups.flatMap (·.1)).Perm infos
  built : ∀ b ∈ groups, Built P occ b.1 b.2
  disjoint : groups.Pairwise fun b c => b.2.setIds.Disjoint c.2.setIds

variable {groups : List (List (String × BuildIDInfo) × VersionSet)}

/-- A build id that joins a set has no set id in common with another one: without chains that would link the build ids
of two sets that are disjoint. -/
lemma Groups.join (hun : Unchained occ) (hPc : MergeClosed P) (h : Groups P occ infos groups)
    (hinfos : ∀ q ∈ infos ++ [p], IsInfo occ q.1 q.2) (hP : P p.2.setIDs) (hne : p.2.setIDs ≠ []) :
    ∃ groups', joinSet (groups.map (·.2)) p = groups'.map (·.2) ∧ Groups P occ (infos ++ [p]) groups' := by
  have hp := hinfos p mem_concat_self
  have hinfo : ∀ b ∈ groups, ∀ q ∈ b.1, IsInfo occ q.1 q.2 := fun b hb q hq =>
    hinfos q (mem_append_left _ (h.perm.subset (mem_flatMap.mpr ⟨b, hb, hq⟩)))
  obtain ⟨hdis, hjoin⟩ | ⟨_, _, _, hsplit, ⟨i, hi, hip⟩, hjoin⟩ := joinSet_cases (groups.map (·.2)) p
  · obtain ⟨i, hi⟩ := exists_mem_of_ne_nil _ hne
    refine ⟨groups ++ [([p], .ofInfo p)], by simp [hjoin], by simpa using h.perm.append_right [p], ?_, ?_⟩
    · exact forall_mem_append.mpr ⟨h.built, forall_mem_singleton.mpr (.ofInfo hP (hp.linked hp hi hi))⟩
    · refine pairwise_append.mpr ⟨h.disjoint, pairwise_singleton _ _, fun b hb => forall_mem_singleton.mpr ?_⟩
      exact hdis _ (mem_map_of_mem hb)
  obtain ⟨before, _, rfl, rfl, hrest⟩ := map_eq_append_iff.mp hsplit
  obtain ⟨⟨g, s⟩, after, rfl, rfl, rfl⟩ := map_eq_cons_iff.mp hrest
  have hin : (g, s) ∈ before ++ (g, s) :: after := mem_append_cons_self
  have hs := h.built _ hin
  obtain ⟨r, hr, hir⟩ := (hs.setIds i).mp hi
  have hrp := (hinfo _ hin r hr).linked hp hir hip
  have hdis : ∀ c ∈ before ++ (g, s) :: after, s.setIds.Disjoint c.2.setIds →
      (s.addInfo p).setIds.Disjoint c.2.setIds := by
    intro c hc hsc j hj hjc
    obtain hj | hj := mem_mergeSetIDs.mp hj
    · exact hsc hj hjc
    obtain ⟨q, hq, hjq⟩ := ((h.built c hc).setIds j).mp hjc
    obtain ⟨o, ho, o', ho', hor, hoq, k, hk, hk'⟩ := hun _ _ _ hrp (hp.linked (hinfo c hc q hq) hj hjq)
    exact hsc ((hs.setIds k).mpr ⟨r, hr, ((hinfo _ hin r hr).setIDs k).mpr ⟨o, ho, hor, hk⟩⟩)
      (((h.built c hc).setIds k).mpr ⟨q, hq, ((hinfo c hc q hq).setIDs k).mpr ⟨o', ho', hoq, hk'⟩⟩)
  obtain ⟨hbefore, hbuilt⟩ := forall_mem_append.mp h.built
  obtain ⟨hpre, hrest, hcross⟩ := pairwise_append.mp h.disjoint
  obtain ⟨hpost, hafter⟩ := pairwise_cons.mp hrest
  refine ⟨before ++ (g ++ [p], s.addInfo p) :: after, by simpa using hjoin, ?_, ?_, ?_⟩
  · refine .trans ?_ (h.perm.append_right [p])
    simp only [flatMap_append, flatMap_cons, append_assoc]
    exact (perm_append_comm.append_left _).append_left _
  · exact forall_mem_append.mpr ⟨hbefore, forall_mem_cons.mpr
      ⟨hs.addInfo hun hPc hP hr hrp, (forall_mem_cons.mp hbuilt).2⟩⟩
  refine pairwise_append.mpr ⟨hpre, pairwise_cons.mpr ⟨fun c hc => ?_, hafter⟩, fun c hc =>
    forall_mem_cons.mpr ⟨?_, fun d hd => ?_⟩⟩
  · exact hdis c (mem_append_right _ (mem_cons_of_mem _ hc)) (hpost c hc)
  · exact List.disjoint_comm.mp (hdis c (mem_append_left _ hc) (List.disjoint_comm.mp (hcross c hc _ mem_cons_self)))
  · exact hcross c hc d (mem_cons_of_mem _ hd)

lemma Groups.grouping (h : Groups P occ infos groups) : Grouping P occ infos (groups.map (·.2)) := by
  have hset : ∀ {s}, s ∈ groups.map (·.2) → ∃ g, Built P occ g s ∧ ∀ q ∈ g, q ∈ infos ∧ q.1 ∈ s.ids := by
    intro s hs
    obtain ⟨b, hb, rfl⟩ := mem_map.mp hs
    refine ⟨b.1, h.built b hb, fun q hq => ⟨h.perm.subset (mem_flatMap.mpr ⟨b, hb, hq⟩), ?_⟩⟩
    exact (h.built b hb).ids ▸ mem_map_of_mem hq
  refine ⟨?_, fun s hs => ?_, fun s hs b hb => ?_, fun q hq => ?_, fun s hs i hi => ?_, fun s hs => ?_,
    pairwise_map.mpr h.disjoint, fun s hs x hx y hy => ?_⟩
  · rw [flatMap_map, flatMap_congr fun b hb => (h.built b hb).ids, ← map_flatMap]
    exact h.perm.map _
  · obtain ⟨g, hg, -⟩ := hset hs
    obtain ⟨q, hq, -⟩ := hg.latest
    exact ⟨by rw [hg.buildIds]; exact ne_nil_of_mem (mem_map_of_mem hq), hg.keeps⟩
  · obtain ⟨g, hg, hinfos⟩ := hset hs
    obtain ⟨q, hq, rfl⟩ := mem_map.mp (hg.buildIds ▸ hb)
    exact ⟨q, (hinfos q hq).1, rfl⟩
  · obtain ⟨b, hb, hqb⟩ := mem_flatMap.mp (h.perm.symm.subset hq)
    have hbuilt := h.built b hb
    exact ⟨b.2, mem_map_of_mem hb, hbuilt.ids ▸ mem_map_of_mem hqb,
      fun i hi => (hbuilt.setIds i).mpr ⟨q, hqb, hi⟩, hbuilt.upper q hqb⟩
  · obtain ⟨g, hg, hinfos⟩ := hset hs
    obtain ⟨q, hq, hiq⟩ := (hg.setIds i).mp hi
    exact ⟨q, (hinfos q hq).1, (hinfos q hq).2, hiq⟩
  · obtain ⟨g, hg, hinfos⟩ := hset hs
    obtain ⟨q, hq, heq⟩ := hg.latest
    exact ⟨q, (hinfos q hq).1, (hinfos q hq).2, heq⟩
  obtain ⟨g, hg, -⟩ := hset hs
  rw [hg.ids] at hx hy
  obtain ⟨p, hp, rfl⟩ := mem_map.mp hx
  obtain ⟨q, hq, rfl⟩ := mem_map.mp hy
  exact hg.linked p hp q hq

end Grouping

lemma intoVersionSets_loop {P : List String → Prop} (hPc : MergeClosed P) {occ} (hun : Unchained occ)
    (infos : List (String × BuildIDInfo)) (hinfos : ∀ p ∈ infos, IsInfo occ p.1 p.2 ∧ P p.2.setIDs ∧ p.2.setIDs ≠ []) :
    Grouping P occ infos (infos.foldl joinSet []) := by
  have loop : ∀ rest done groups, infos = done ++ rest → Groups P occ done groups →
      Grouping P occ infos (rest.foldl joinSet (groups.map (·.2))) := by
    intro rest
    induction rest with
    | nil =>
      intro done groups heq h
      rw [heq, append_nil]
      exact h.grouping
    | cons p rest ih =>
      intro done groups heq h
      rw [append_cons] at heq
      have hmem : ∀ q ∈ done ++ [p], q ∈ infos := fun q hq => heq ▸ mem_append_left _ hq
      obtain ⟨-, hP, hne⟩ := hinfos p (hmem p mem_concat_self)
      obtain ⟨groups', hjoin, h'⟩ := h.join hun hPc (fun q hq => (hinfos q (hmem q hq)).1) hP hne
      rw [foldl_cons, hjoin]
      exact ih _ groups' heq h'
  exact loop infos [] [] rfl ⟨.nil, by simp, .nil⟩

lemma Joins.sort {occ} {sets sorted : List VersionSet} (h : Joins occ sets) (hperm : sorted.Perm sets)
    (f : List BuildId → List BuildId) (hf : ∀ l, (f l).Perm l) :
    Joins occ (sorted.map fun s => { s with buildIds := f s.buildIds }) := by
  let g (s : VersionSet) : VersionSet := { s with buildIds := f s.buildIds }
  have hids : ∀ s, (g s).ids.Perm s.ids := fun s => (hf s.buildIds).map _
  have hback : ∀ {t}, t ∈ sorted.map g → ∃ s ∈ sets, g s = t := fun ht => by
    obtain ⟨s, hs, rfl⟩ := mem_map.mp ht
    exact ⟨s, hperm.subset hs, rfl⟩
  refine ⟨?_, ?_, fun t ht => ?_, fun t ht b hb => ?_, fun o ho => ?_, fun t ht i hi => ?_, fun t ht => ?_,
    fun t ht x hx y hy => ?_⟩
  · rw [flatMap_map]
    have hpoint : (sorted.flatMap fun s => (g s).ids).Perm (sorted.flatMap (·.ids)) :=
      List.Perm.flatMap_left _ fun s _ => hids s
    exact (hpoint.trans (hperm.flatMap_right _)).nodup_iff.mpr h.ids
  · refine pairwise_map.mpr ?_
    refine (hperm.pairwise_iff fun {s s'} hd => ?_).mpr h.disjoint
    exact fun i hi hi' => hd hi' hi
  · obtain ⟨s, hs, rfl⟩ := hback ht
    refine ⟨fun hnil => (h.nonempty s hs).1 ?_, (h.nonempty s hs).2⟩
    have hlen := (hf s.buildIds).length_eq
    rw [show f s.buildIds = [] from hnil] at hlen
    exact length_eq_zero_iff.mp hlen.symm
  · obtain ⟨s, hs, rfl⟩ := hback ht
    exact h.merged s hs b ((hf _).subset hb)
  · obtain ⟨s, hs, hid, hrest⟩ := h.placed o ho
    exact ⟨g s, mem_map_of_mem (hperm.symm.subset hs), (hids s).symm.subset hid, hrest⟩
  · obtain ⟨s, hs, rfl⟩ := hback ht
    obtain ⟨o, ho, hid, hio⟩ := h.setIds s hs i hi
    exact ⟨o, ho, (hids s).symm.subset hid, hio⟩
  · obtain ⟨s, hs, rfl⟩ := hback ht
    obtain ⟨o, ho, hid, heq⟩ := h.latest s hs
    exact ⟨o, ho, (hids s).symm.subset hid, heq⟩
  obtain ⟨s, hs, rfl⟩ := hback ht
  exact h.connected s hs x ((hids s).subset hx) y ((hids s).subset hy)

def mergedSets (ch : Choices) (sets : List VersionSet) : List VersionSet :=
  intoVersionSets ch (collectBuildIdInfo sets)

/-- A merge without chains computes the join of all sets, and keeps what merging set ids keeps. -/
lemma mergedSets_joins (ch : Choices) {P : List String → Prop} (hPc : MergeClosed P) {sets}
    (hun : Unchained (occurrences sets)) (hsets : ∀ s ∈ sets, P s.setIds ∧ s.setIds ≠ []) :
    Joins (occurrences sets) (mergedSets ch sets) ∧ ∀ s ∈ mergedSets ch sets, P s.setIds := by
  have hPn : MergeClosed fun ids => P ids ∧ ids ≠ [] := fun a b ha hb =>
    ⟨hPc a b ha.1 hb.1, mergeClosed_ne_nil a b ha.2 hb.2⟩
  have hcol := collectBuildIdInfo_spec hPn hsets
  let infos := ch.order (collectBuildIdInfo sets)
  have hperm : infos.Perm (collectBuildIdInfo sets) := ch.order_perm _
  have hmem : ∀ p ∈ infos, IsInfo (occurrences sets) p.1 p.2 ∧ P p.2.setIDs ∧ p.2.setIDs ≠ [] :=
    fun p hp => hcol.each p (hperm.subset hp)
  have hnodup : (infos.map (·.1)).Nodup := (hperm.map _).nodup_iff.mpr hcol.nodup
  have hgroup := intoVersionSets_loop hPn hun infos fun p hp =>
    ⟨(hmem p hp).1, (hmem p hp).2, (hmem p hp).2.2⟩
  have hinfo : ∀ o ∈ occurrences sets, ∃ p ∈ infos, p.1 = o.2.id := fun o ho =>
    mem_map.mp ((hperm.map _).symm.subset (hcol.complete o ho))
  have hjoins : Joins (occurrences sets) (infos.foldl joinSet []) := by
    refine ⟨hgroup.ids.nodup_iff.mpr hnodup, hgroup.disjoint,
      fun s hs => ⟨(hgroup.each s hs).1, (hgroup.each s hs).2.2⟩, fun s hs b hb => ?_, fun o ho => ?_,
      fun s hs i hi => ?_, fun s hs => ?_, fun s hs x hx y hy => .single (hgroup.linked s hs x hx y hy)⟩
    · obtain ⟨p, hp, rfl⟩ := hgroup.builds s hs b hb
      exact (hmem p hp).1.merged
    · obtain ⟨p, hp, hid⟩ := hinfo o ho
      obtain ⟨s, hs, hps, hsub, hle⟩ := hgroup.placed p hp
      refine ⟨s, hs, hid ▸ hps, fun i hi => hsub i (((hmem p hp).1.setIDs i).mpr ⟨o, ho, hid.symm, hi⟩),
        ((hmem p hp).1.setDefaultMax o ho hid.symm).trans hle⟩
    · obtain ⟨p, hp, hps, hip⟩ := hgroup.setIds s hs i hi
      obtain ⟨o, ho, hid, hio⟩ := ((hmem p hp).1.setIDs i).mp hip
      exact ⟨o, ho, hid ▸ hps, hio⟩
    obtain ⟨p, hp, hps, heq⟩ := hgroup.latest s hs
    obtain ⟨o, ho, hid, hot⟩ := (hmem p hp).1.setDefault
    exact ⟨o, ho, hid ▸ hps, hot.trans heq⟩
  refine ⟨hjoins.sort (ch.sortSets_perm _) ch.sortBuildIds ch.sortBuildIds_perm, fun t ht => ?_⟩
  obtain ⟨s, hs, rfl⟩ := mem_map.mp ht
  exact (hgroup.each s ((ch.sortSets_perm _).subset hs)).2.1

/-! ## The algebra of merging -/

/-- Build ids and set ids are unique, no set is without either, and everything is ordered by the time
at which it became the default. -/
structure SetsInv (sets : List VersionSet) : Prop where
  ids : (sets.flatMap (·.ids)).Nodup
  disjoint : sets.Pairwise fun s s' => s.setIds.Disjoint s'.setIds
  setIds : ∀ s ∈ sets, s.setIds.Nodup ∧ s.setIds ≠ []
  nonempty : ∀ s ∈ sets, s.buildIds ≠ []
  ordered : sets.Pairwise fun s s' => s.becameDefaultTimestamp ≤ s'.becameDefaultTimestamp
  builds : ∀ s ∈ sets, s.buildIds.Pairwise fun b b' =>
    b.becameDefaultTimestamp ≤ b'.becameDefaultTimestamp

instance (sets : List VersionSet) : Decidable (SetsInv sets) :=
  decidable_of_iff ((sets.flatMap (·.ids)).Nodup ∧
      (sets.Pairwise fun s s' : VersionSet => ∀ i ∈ s.setIds, i ∉ s'.setIds) ∧
      (∀ s ∈ sets, s.setIds.Nodup ∧ s.setIds ≠ []) ∧ (∀ s ∈ sets, s.buildIds ≠ []) ∧
      (sets.Pairwise fun s s' => s.becameDefaultTimestamp ≤ s'.becameDefaultTimestamp) ∧
      ∀ s ∈ sets, s.buildIds.Pairwise fun b b' =>
        b.becameDefaultTimestamp ≤ b'.becameDefaultTimestamp)
    ⟨fun ⟨h1, h2, h3, h4, h5, h6⟩ => ⟨h1, h2.imp fun hd _ hi hi' => hd _ hi hi', h3, h4, h5, h6⟩,
      fun h => ⟨h.ids, h.disjoint.imp fun hd _ hi hi' => hd hi hi', h.setIds, h.nonempty, h.ordered, h.builds⟩⟩

def NamesSorted (sets : List VersionSet) : Prop := ∀ s ∈ sets, s.setIds.Pairwise (· ≤ ·)

instance (sets : List VersionSet) : Decidable (NamesSorted sets) :=
  inferInstanceAs (Decidable (∀ s ∈ sets, s.setIds.Pairwise (· ≤ ·)))

section Algebra

variable {sets : List VersionSet}

lemma SetsInv.linked (h : SetsInv sets) {x y} (hxy : Linked (occurrences sets) x y) :
    ∃ s ∈ sets, x ∈ s.ids ∧ y ∈ s.ids := by
  obtain ⟨o, ho, o', ho', rfl, rfl, i, hi, hi'⟩ := hxy
  obtain ⟨hs, hb⟩ := mem_occurrences.mp ho
  obtain ⟨hs', hb'⟩ := mem_occurrences.mp ho'
  have heq := eq_of_mem_setIds h.disjoint hs hs' hi hi'
  exact ⟨o.1, hs, id_mem hb, id_mem (heq ▸ hb')⟩

lemma SetsInv.linked_of_mem (h : SetsInv sets) {s : VersionSet} (hs : s ∈ sets) {x y}
    (hx : x ∈ s.ids) (hy : y ∈ s.ids) : Linked (occurrences sets) x y :=
  linked_of_set (h.setIds s hs).2 (fun _ hb => mem_occurrences.mpr ⟨hs, hb⟩) hx hy

lemma SetsInv.unchained (h : SetsInv sets) : Unchained (occurrences sets) := by
  intro x y z hxy hyz
  obtain ⟨s, hs, hx, hy⟩ := h.linked hxy
  obtain ⟨s', hs', hy', hz⟩ := h.linked hyz
  exact h.linked_of_mem hs hx (eq_of_mem_ids h.ids hs hs' hy hy' ▸ hz)

lemma SetsInv.joins (h : SetsInv sets) : Joins (occurrences sets) sets := by
  have hsame : ∀ s ∈ sets, ∀ b ∈ s.buildIds, ∀ o ∈ occurrences sets, o.2.id = b.id → o = (s, b) := by
    intro s hs b hb o ho hid
    obtain ⟨hs', hb'⟩ := mem_occurrences.mp ho
    have heq : o.1 = s := eq_of_mem_ids h.ids hs' hs (id_mem hb') (mem_ids.mpr ⟨b, hb, hid.symm⟩)
    have hnodup : (s.buildIds.map (·.id)).Nodup := (nodup_flatMap.mp h.ids).1 s hs
    exact Prod.ext heq (inj_on_of_nodup_map hnodup (heq ▸ hb') hb hid)
  refine ⟨h.ids, h.disjoint, fun s hs => ⟨h.nonempty s hs, (h.setIds s hs).2⟩, fun s hs b hb => ?_,
    fun o ho => ?_, fun s hs i hi => ?_, fun s hs => ?_,
    fun s hs x hx y hy => .single (h.linked_of_mem hs hx hy)⟩
  · exact IsMerged.of_unique (o := (s, b)) (mem_occurrences.mpr ⟨hs, hb⟩) (hsame s hs b hb)
  · obtain ⟨hs, hb⟩ := mem_occurrences.mp ho
    exact ⟨o.1, hs, id_mem hb, fun _ hi => hi, le_rfl⟩
  · obtain ⟨b, hb⟩ := exists_mem_of_ne_nil _ (h.nonempty s hs)
    exact ⟨(s, b), mem_occurrences.mpr ⟨hs, hb⟩, id_mem hb, hi⟩
  obtain ⟨b, hb⟩ := exists_mem_of_ne_nil _ (h.nonempty s hs)
  exact ⟨(s, b), mem_occurrences.mpr ⟨hs, hb⟩, id_mem hb, rfl⟩

lemma mergedSets_inv (ch : Choices) (hun : Unchained (occurrences sets))
    (hsets : ∀ s ∈ sets, s.setIds.Nodup ∧ s.setIds ≠ []) : SetsInv (mergedSets ch sets) := by
  obtain ⟨hj, hnodup⟩ := mergedSets_joins ch mergeClosed_nodup hun hsets
  refine ⟨hj.ids, hj.disjoint, fun s hs => ⟨hnodup s hs, (hj.nonempty s hs).2⟩,
    fun s hs => (hj.nonempty s hs).1, ?_, fun s hs => ?_⟩
  · exact pairwise_map.mpr (ch.sortSets_sorted _)
  obtain ⟨t, -, rfl⟩ := mem_map.mp hs
  exact ch.sortBuildIds_sorted _

def setsOf (data : Option VersioningData) : List VersionSet := (data.getD .empty).versionSets

def DataWf (data : Option VersioningData) : Prop := SetsInv (setsOf data) ∧ NamesSorted (setsOf data)

instance (data : Option VersioningData) : Decidable (DataWf data) :=
  inferInstanceAs (Decidable (_ ∧ _))

/-- The values can be merged without a chain. -/
def MergeUnchained (a b : Option VersioningData) : Prop :=
  Unchained (occurrences (setsOf a ++ setsOf b))

instance (a b : Option VersioningData) : Decidable (MergeUnchained a b) :=
  inferInstanceAs (Decidable (Unchained _))

lemma mergeVersioningData_joins (ch : Choices) {a b} (ha : DataWf a) (hb : DataWf b) (hun : MergeUnchained a b) :
    Joins (occurrences (setsOf a ++ setsOf b)) (setsOf (mergeVersioningData ch a b)) ∧
      DataWf (mergeVersioningData ch a b) := by
  cases a with
  | none => exact ⟨hb.1.joins, hb⟩
  | some a =>
    cases b with
    | none =>
      have happ : setsOf (some a) ++ setsOf none = setsOf (some a) := append_nil _
      rw [happ]
      exact ⟨ha.1.joins, ha⟩
    | some b =>
      have hmem : ∀ s ∈ setsOf (some a) ++ setsOf (some b),
          (s.setIds.Nodup ∧ s.setIds ≠ []) ∧ s.setIds.Pairwise (· ≤ ·) := by
        intro s hs
        obtain hs | hs := mem_append.mp hs
        · exact ⟨ha.1.setIds s hs, ha.2 s hs⟩
        · exact ⟨hb.1.setIds s hs, hb.2 s hs⟩
      obtain ⟨hj, hsorted⟩ := mergedSets_joins ch mergeClosed_sorted hun fun s hs =>
        ⟨(hmem s hs).2, (hmem s hs).1.2⟩
      exact ⟨hj, mergedSets_inv ch hun fun s hs => (hmem s hs).1, hsorted⟩

lemma DataWf.agree {occ} (hc : Consistent occ) {a b} (ha : DataWf a) (hb : DataWf b)
    (hja : Joins occ (setsOf a)) (hjb : Joins occ (setsOf b)) : Agree (setsOf a) (setsOf b) :=
  hja.agree hc hjb (fun s hs => ⟨(ha.1.setIds s hs).1, ha.2 s hs⟩) fun s hs => ⟨(hb.1.setIds s hs).1, hb.2 s hs⟩

lemma Consistent.mono {occ occ'} (h : Consistent occ) (hsub : ∀ o ∈ occ', o ∈ occ) : Consistent occ' :=
  fun o ho o' ho' => h o (hsub o ho) o' (hsub o' ho')

lemma occurrences_append (sets sets' : List VersionSet) :
    occurrences (sets ++ sets') = occurrences sets ++ occurrences sets' := flatMap_append

/-! ## Chains -/

/-- A build id leaves every set id in as many sets as before, or more. -/
lemma countP_joinSet (i : String) (sets : List VersionSet) (p : String × BuildIDInfo) :
    sets.countP (i ∈ ·.setIds) ≤ (joinSet sets p).countP (i ∈ ·.setIds) := by
  obtain ⟨-, heq⟩ | ⟨before, s, after, rfl, -, heq⟩ := joinSet_cases sets p
  · simp [heq, countP_append]
  · have hgrows : i ∈ s.setIds → i ∈ (s.addInfo p).setIds := fun hi => mem_mergeSetIDs.mpr (.inl hi)
    by_cases hi : i ∈ s.setIds
    · simp [heq, countP_append, hi, hgrows hi]
    · simp only [heq, countP_append, countP_cons, hi]
      simp

lemma countP_foldl_joinSet (i : String) (infos : List (String × BuildIDInfo)) (sets : List VersionSet) :
    sets.countP (i ∈ ·.setIds) ≤ (infos.foldl joinSet sets).countP (i ∈ ·.setIds) := by
  induction infos generalizing sets with
  | nil => exact le_rfl
  | cons p infos ih => exact (countP_joinSet i sets p).trans (ih _)

/-- No set id is in two sets. -/
lemma SetsInv.countP_le_one (h : SetsInv sets) (i : String) : sets.countP (i ∈ ·.setIds) ≤ 1 := by
  rw [countP_eq_length_filter]
  have hdis := h.disjoint.filter (i ∈ ·.setIds)
  have hmem : ∀ s ∈ sets.filter (i ∈ ·.setIds), i ∈ s.setIds := fun s hs => by simpa using (mem_filter.mp hs).2
  generalize sets.filter (i ∈ ·.setIds) = found at hdis hmem ⊢
  match found with
  | [] | [_] => simp
  | s :: t :: _ =>
    have hst := (pairwise_cons.mp hdis).1 t (by simp)
    exact absurd (hmem t (by simp)) (hst (hmem s (by simp)))

lemma pairwise_sort {α : Type} (time : α → Clock) (l : List α) :
    (l.insertionSort fun a b => time a ≤ time b).Pairwise fun a b => time a ≤ time b :=
  have : Std.Total fun a b => time a ≤ time b := ⟨fun _ _ => le_total _ _⟩
  have : IsTrans α fun a b => time a ≤ time b := ⟨fun _ _ _ => le_trans⟩
  pairwise_insertionSort _ _

/-- Maps in a given order, and sorting by insertion. -/
def choicesOf (order : List (String × BuildIDInfo) → List (String × BuildIDInfo))
    (hperm : ∀ infos, (order infos).Perm infos) : Choices where
  order := order
  sortSets sets := sets.insertionSort fun s s' => s.becameDefaultTimestamp ≤ s'.becameDefaultTimestamp
  sortBuildIds l := l.insertionSort fun b b' => b.becameDefaultTimestamp ≤ b'.becameDefaultTimestamp
  order_perm := hperm
  sortSets_perm _ := perm_insertionSort _ _
  sortSets_sorted := pairwise_sort _
  sortBuildIds_perm _ := perm_insertionSort _ _
  sortBuildIds_sorted := pairwise_sort _

/-- Two build ids that are not linked, and then one that links them: it joins the set of the first, and the
second keeps a set with one of the set ids of the third. -/
lemma mergedSets_chain {sets : List VersionSet} (hne : ∀ s ∈ sets, s.setIds ≠ []) {x y z : String}
    (hxy : Linked (occurrences sets) x y) (hyz : Linked (occurrences sets) y z)
    (hxz : ¬Linked (occurrences sets) x z) : ∃ ch i, 2 ≤ (mergedSets ch sets).countP (i ∈ ·.setIds) := by
  have hcol := collectBuildIdInfo_spec mergeClosed_ne_nil hne
  have hinfo : ∀ {k l}, Linked (occurrences sets) k l → ∃ p ∈ collectBuildIdInfo sets, p.1 = k := by
    rintro k l ⟨o, ho, -, -, rfl, -⟩
    exact mem_map.mp (hcol.complete o ho)
  obtain ⟨p, hp, rfl⟩ := hinfo hxy
  obtain ⟨q, hq, rfl⟩ := hinfo hyz
  obtain ⟨r, hr, rfl⟩ := hinfo hyz.symm
  have hshare : ∀ {p q}, p ∈ collectBuildIdInfo sets → q ∈ collectBuildIdInfo sets →
      Linked (occurrences sets) p.1 q.1 → ∃ i ∈ p.2.setIDs, i ∈ q.2.setIDs := by
    rintro p q hp hq ⟨o, ho, o', ho', hid, hid', i, hi, hi'⟩
    exact ⟨i, ((hcol.each p hp).1.setIDs i).mpr ⟨o, ho, hid, hi⟩, ((hcol.each q hq).1.setIDs i).mpr ⟨o', ho', hid', hi'⟩⟩
  obtain ⟨i, hip, hiq⟩ := hshare hp hq hxy
  obtain ⟨j, hjq, hjr⟩ := hshare hq hr hyz
  have hpr : ∀ k ∈ p.2.setIDs, k ∉ r.2.setIDs := fun k hk hk' =>
    hxz ((hcol.each p hp).1.linked (hcol.each r hr).1 hk hk')
  have hrp : r ≠ p := fun h => hpr i hip (h ▸ hip)
  have hqr : q ≠ r := fun h => hxz (h ▸ hxy)
  have hqp : q ≠ p := fun h => hxz (h ▸ hyz)
  -- the iteration meets the two ends of the chain first
  let rest := (((collectBuildIdInfo sets).erase p).erase r).erase q
  have hperm : (p :: r :: q :: rest).Perm (collectBuildIdInfo sets) := by
    have hr' : r ∈ (collectBuildIdInfo sets).erase p := (mem_erase_of_ne hrp).mpr hr
    have hq' : q ∈ ((collectBuildIdInfo sets).erase p).erase r :=
      (mem_erase_of_ne hqr).mpr ((mem_erase_of_ne hqp).mpr hq)
    exact ((((perm_cons_erase hq').symm.cons r).trans (perm_cons_erase hr').symm).cons p).trans
      (perm_cons_erase hp).symm
  let order (infos : List (String × BuildIDInfo)) :=
    if (p :: r :: q :: rest).Perm infos then p :: r :: q :: rest else infos
  have horder : ∀ infos, (order infos).Perm infos := fun infos => by
    simp only [order]
    split
    · assumption
    · exact .refl _
  refine ⟨choicesOf order horder, j, ?_⟩
  have hfirst : joinSet [.ofInfo p] r = [.ofInfo p, .ofInfo r] := by
    have hnot : setContainsSetIDs (.ofInfo p) r.2.setIDs = false := by
      rw [Bool.eq_false_iff, ne_eq, setContainsSetIDs_iff]
      rintro ⟨k, hk, hk'⟩
      exact hpr k hk hk'
    simp [joinSet, hnot]
  have hthird : joinSet [.ofInfo p, .ofInfo r] q = [(VersionSet.ofInfo p).addInfo q, .ofInfo r] := by
    have hin : setContainsSetIDs (.ofInfo p) q.2.setIDs := setContainsSetIDs_iff.mpr ⟨i, hip, hiq⟩
    simp [joinSet, hin]
  have hcount := countP_foldl_joinSet j rest [(VersionSet.ofInfo p).addInfo q, .ofInfo r]
  have htwo : [(VersionSet.ofInfo p).addInfo q, .ofInfo r].countP (j ∈ ·.setIds) = 2 := by
    have hj : j ∈ ((VersionSet.ofInfo p).addInfo q).setIds := mem_mergeSetIDs.mpr (.inr hjq)
    have hj' : j ∈ (VersionSet.ofInfo r).setIds := hjr
    simp [hj, hj']
  rw [htwo, ← hthird, ← hfirst] at hcount
  have hmerged : (mergedSets (choicesOf order horder) sets).countP (j ∈ ·.setIds) =
      ((p :: r :: q :: rest).foldl joinSet []).countP (j ∈ ·.setIds) := by
    simp only [mergedSets, intoVersionSets, countP_map]
    rw [((choicesOf order horder).sortSets_perm _).countP_eq, show (choicesOf order horder).order _ = _ from if_pos hperm]
    rfl
  rw [hmerged]
  exact hcount

def mergeAll : Option VersioningData → List (Choices × Option VersioningData) → Option VersioningData
  | data, [] => data
  | data, (ch, next) :: rest => mergeAll (mergeVersioningData ch data next) rest

def UnchainedAll : Option VersioningData → List (Choices × Option VersioningData) → Prop
  | _, [] => True
  | data, (ch, next) :: rest =>
    MergeUnchained data next ∧ UnchainedAll (mergeVersioningData ch data next) rest

def allSets (data : Option VersioningData) (rest : List (Choices × Option VersioningData)) :
    List VersionSet :=
  setsOf data ++ rest.flatMap fun next => setsOf next.2

lemma mergeAll_joins {data rest}
    (hdata : DataWf data) (hrest : ∀ next ∈ rest, DataWf next.2) (hun : UnchainedAll data rest) :
    Joins (occurrences (allSets data rest)) (setsOf (mergeAll data rest)) ∧ DataWf (mergeAll data rest) := by
  induction rest generalizing data with
  | nil =>
    have hsets : allSets data [] = setsOf data := append_nil _
    rw [hsets]
    exact ⟨hdata.1.joins, hdata⟩
  | cons next rest ih =>
    obtain ⟨ch, next⟩ := next
    obtain ⟨hj, hwf⟩ := mergeVersioningData_joins ch hdata (hrest _ mem_cons_self) hun.1
    obtain ⟨hjr, hwfr⟩ := ih hwf (fun n hn => hrest n (mem_cons_of_mem _ hn)) hun.2
    refine ⟨?_, hwfr⟩
    rw [allSets, occurrences_append] at hjr
    have hjoin := hj.trans hjr
    rw [← occurrences_append, append_assoc] at hjoin
    exact hjoin

/-- The merge is independent of the map order and of the order of its arguments, up to the order of elements
with the same timestamp, and its result has the invariants again. -/
def MergesWell (a b : Option VersioningData) : Prop :=
  ∀ ch ch' : Choices,
    Agree (setsOf (mergeVersioningData ch a b)) (setsOf (mergeVersioningData ch' a b)) ∧
    Agree (setsOf (mergeVersioningData ch a b)) (setsOf (mergeVersioningData ch' b a)) ∧
    DataWf (mergeVersioningData ch a b)

/-- With a chain there is an order of the map for which a set id is in two sets. -/
lemma MergesWell.unchained {a b : Option VersioningData} (ha : DataWf a) (hb : DataWf b)
    (h : MergesWell a b) : MergeUnchained a b := by
  cases a with
  | none => exact hb.1.unchained
  | some a =>
    cases b with
    | none =>
      have happ : setsOf (some a) ++ setsOf none = setsOf (some a) := append_nil _
      rw [MergeUnchained, happ]
      exact ha.1.unchained
    | some b =>
      intro x y z hxy hyz
      by_contra hxz
      have hne : ∀ s ∈ setsOf (some a) ++ setsOf (some b), s.setIds ≠ [] :=
        forall_mem_append.mpr ⟨fun s hs => (ha.1.setIds s hs).2, fun s hs => (hb.1.setIds s hs).2⟩
      obtain ⟨ch, i, htwo⟩ := mergedSets_chain hne hxy hyz hxz
      exact absurd htwo (Nat.not_le.mpr (Nat.lt_succ_of_le ((h ch ch).2.2.1.countP_le_one i)))

/-- A merge does what it should just if there are no chains. Where there are none, merging is associative, and
replicas that merge the same values in any order agree; it is always idempotent. -/
theorem merge_isJoin (a b c : Option VersioningData) (ha : DataWf a) (hb : DataWf b) (hc : DataWf c)
    (hclocks : Consistent (occurrences (setsOf a ++ setsOf b ++ setsOf c))) :
    (MergesWell a b ↔ MergeUnchained a b) ∧
    (∀ ch₁ ch₂ ch₃ ch₄ : Choices, MergeUnchained a b → MergeUnchained b c →
      MergeUnchained (mergeVersioningData ch₁ a b) c →
      MergeUnchained a (mergeVersioningData ch₂ b c) →
      Agree (setsOf (mergeVersioningData ch₃ (mergeVersioningData ch₁ a b) c))
        (setsOf (mergeVersioningData ch₄ a (mergeVersioningData ch₂ b c)))) ∧
    (∀ ch : Choices, Agree (setsOf (mergeVersioningData ch a a)) (setsOf a)) ∧
    ∀ (first first' : Option VersioningData) (rest rest' : List (Choices × Option VersioningData)),
      DataWf first → DataWf first' → (∀ next ∈ rest, DataWf next.2) →
      (∀ next ∈ rest', DataWf next.2) → UnchainedAll first rest → UnchainedAll first' rest' →
      (∀ s, s ∈ allSets first rest ↔ s ∈ allSets first' rest') →
      Consistent (occurrences (allSets first rest)) →
      Agree (setsOf (mergeAll first rest)) (setsOf (mergeAll first' rest')) := by
  have hab : Consistent (occurrences (setsOf a ++ setsOf b)) := hclocks.mono fun o ho => by
    rw [occurrences_append]
    exact mem_append_left _ ho
  have hocc : ∀ {sets sets' : List VersionSet}, (∀ s, s ∈ sets ↔ s ∈ sets') →
      ∀ o, o ∈ occurrences sets ↔ o ∈ occurrences sets' := fun h o => by
    rw [mem_occurrences, mem_occurrences, h]
  refine ⟨⟨MergesWell.unchained ha hb, fun hun ch ch' => ?_⟩, fun ch₁ ch₂ ch₃ ch₄ hun₁ hun₂ hun₃ hun₄ => ?_, fun ch => ?_,
    fun first first' rest rest' hf hf' hr hr' hu hu' hsame hcons => ?_⟩
  · have hswap : ∀ s, s ∈ setsOf b ++ setsOf a ↔ s ∈ setsOf a ++ setsOf b := fun s => by
      rw [mem_append, mem_append, or_comm]
    have hun' : MergeUnchained b a := fun x y z hxy hyz => by
      have hto := fun o => (hocc hswap o).mp
      have hfrom := fun o => (hocc hswap o).mpr
      exact (hun x y z (hxy.mono hto) (hyz.mono hto)).mono hfrom
    obtain ⟨hj, hwf⟩ := mergeVersioningData_joins ch ha hb hun
    obtain ⟨hj', hwf'⟩ := mergeVersioningData_joins ch' ha hb hun
    obtain ⟨hjs, hwfs⟩ := mergeVersioningData_joins ch' hb ha hun'
    exact ⟨hwf.agree hab hwf' hj hj', hwf.agree hab hwfs hj (hjs.congr (hocc hswap)), hwf⟩
  · obtain ⟨hj₁, hwf₁⟩ := mergeVersioningData_joins ch₁ ha hb hun₁
    obtain ⟨hj₂, hwf₂⟩ := mergeVersioningData_joins ch₂ hb hc hun₂
    obtain ⟨hj₃, hwf₃⟩ := mergeVersioningData_joins ch₃ hwf₁ hc hun₃
    obtain ⟨hj₄, hwf₄⟩ := mergeVersioningData_joins ch₄ ha hwf₂ hun₄
    rw [occurrences_append] at hj₃ hj₄
    have hl := hj₁.trans hj₃
    have hr := hj₂.trans (hj₄.congr fun o => by rw [mem_append, mem_append, or_comm])
    rw [← occurrences_append] at hl hr
    refine hwf₃.agree hclocks hwf₄ hl (hr.congr (hocc fun s => ?_))
    simp only [mem_append]
    tauto
  · have hdup : ∀ s, s ∈ setsOf a ++ setsOf a ↔ s ∈ setsOf a := fun s => by
      rw [mem_append, or_self]
    have hun : MergeUnchained a a := fun x y z hxy hyz => by
      have hto := fun o => (hocc hdup o).mp
      exact (ha.1.unchained x y z (hxy.mono hto) (hyz.mono hto)).mono fun o => (hocc hdup o).mpr
    obtain ⟨hj, hwf⟩ := mergeVersioningData_joins ch ha ha hun
    have hca : Consistent (occurrences (setsOf a)) := hab.mono fun o ho => by
      rw [occurrences_append]
      exact mem_append_left _ ho
    exact hwf.agree hca ha (hj.congr (hocc hdup)) ha.1.joins
  obtain ⟨hj, hwf⟩ := mergeAll_joins hf hr hu
  obtain ⟨hj', hwf'⟩ := mergeAll_joins hf' hr' hu'
  exact hwf.agree hcons hwf' hj (hj'.congr (hocc fun s => (hsame s).symm))

end Algebra

def insertionOrder : Choices := choicesOf id fun _ => .refl _

def reverseOrder : Choices := choicesOf List.reverse reverse_perm

def soleBuildId (id : String) (time : Int) : BuildId :=
  ⟨id, .active, ⟨time, 0, 1⟩, ⟨time, 0, 1⟩⟩

def twoSets : VersioningData where
  versionSets := [⟨["s1"], [soleBuildId "x" 1], ⟨1, 0, 1⟩⟩, ⟨["s2"], [soleBuildId "y" 2], ⟨2, 0, 1⟩⟩]
  assignmentRules := []
  redirectRules := []

def linkingSet : VersioningData where
  versionSets := [⟨["s1", "s2"], [soleBuildId "z" 3], ⟨3, 0, 1⟩⟩]
  assignmentRules := []
  redirectRules := []

def grownSet : VersioningData where
  versionSets := [⟨["s1"], [soleBuildId "x" 1, soleBuildId "w" 4], ⟨1, 0, 1⟩⟩]
  assignmentRules := []
  redirectRules := []

def otherGrownSet : VersioningData where
  versionSets := [⟨["s2"], [soleBuildId "y" 2, soleBuildId "v" 5], ⟨2, 0, 1⟩⟩]
  assignmentRules := []
  redirectRules := []

/-- Two sets, and later values of each of them. -/
theorem merge_isJoin_grown : MergesWell (some twoSets) (some grownSet) ∧ ∀ ch ch' : Choices,
      Agree (setsOf (mergeVersioningData ch (mergeVersioningData insertionOrder (some twoSets) (some grownSet))
          (some otherGrownSet)))
        (setsOf (mergeVersioningData ch' (some twoSets)
          (mergeVersioningData reverseOrder (some grownSet) (some otherGrownSet)))) := by
  have h := merge_isJoin (some twoSets) (some grownSet) (some otherGrownSet) (by decide +kernel)
    (by decide +kernel) (by decide +kernel) (by decide +kernel)
  exact ⟨h.1.mpr (by decide +kernel), fun ch ch' => h.2.1 insertionOrder reverseOrder ch ch'
    (by decide +kernel) (by decide +kernel) (by decide +kernel) (by decide +kernel)⟩

/-- A set that links two others. With one order of the map all three build ids end up in one set. With
another, the first two are in different sets when the third comes, and both sets keep one of the set
ids in common. -/
theorem chainedMerge_overlaps : DataWf (some twoSets) ∧ DataWf (some linkingSet) ∧
    Consistent (occurrences (setsOf (some twoSets) ++ setsOf (some linkingSet))) ∧
    ((setsOf (mergeVersioningData insertionOrder (some twoSets) (some linkingSet))).map fun s =>
      (s.setIds, s.ids)) = [(["s2"], ["y"]), (["s1", "s2"], ["x", "z"])] ∧
    ((setsOf (mergeVersioningData reverseOrder (some twoSets) (some linkingSet))).map fun s =>
      (s.setIds, s.ids)) = [(["s1", "s2"], ["x", "y", "z"])] ∧
    ¬ SetsInv (setsOf (mergeVersioningData insertionOrder (some twoSets) (some linkingSet))) ∧
    ¬ Agree (setsOf (mergeVersioningData insertionOrder (some twoSets) (some linkingSet)))
      (setsOf (mergeVersioningData reverseOrder (some twoSets) (some linkingSet))) := by
  refine ⟨by decide +kernel, by decide +kernel, by decide +kernel, by decide +kernel,
    by decide +kernel, by decide +kernel, fun ⟨sets, hperm, hsame⟩ => ?_⟩
  have hlen := hsame.length_eq.trans hperm.length_eq
  revert hlen
  decide +kernel

end FastOrchestration.Matching
