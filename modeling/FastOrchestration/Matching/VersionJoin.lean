import FastOrchestration.Matching.VersionSets

/-!
# Joins of version sets

What a merge is meant to compute is stated by `Joins`: build ids are together in a set if and only if
they are connected through set ids, each set has the set ids and the latest timestamp of all sets that
went into it, and each build id has the latest state. This determines the result up to order
(`Joins.agree`), and a join of joins is a join of everything (`Joins.trans`).

Before that, `collectBuildIdInfo_spec` says what is collected of each build id, in terms of its
occurrences in the sets that are merged.
-/

namespace FastOrchestration.Matching

open List Relation

/-! ## Set ids -/

lemma mem_mergeSetIDs {a b i} : i ∈ mergeSetIDs a b ↔ i ∈ a ∨ i ∈ b := by
  by_cases h : i ∈ a <;> simp [mergeSetIDs, h]

/-- A property of lists of set ids that merging keeps. -/
def MergeClosed (P : List String → Prop) : Prop := ∀ a b, P a → P b → P (mergeSetIDs a b)

lemma mergeClosed_nodup : MergeClosed List.Nodup := by
  intro a b ha hb
  refine (perm_insertionSort _ _).nodup_iff.mpr (ha.append (hb.filter _) fun i hi hi' => ?_)
  simpa [hi] using (mem_filter.mp hi').2

lemma mergeClosed_sorted : MergeClosed fun ids => ids.Pairwise (· ≤ ·) :=
  fun _ _ _ _ => pairwise_insertionSort _ _

lemma mergeClosed_ne_nil : MergeClosed fun ids => ids ≠ [] := by
  intro a b ha _
  obtain ⟨i, hi⟩ := exists_mem_of_ne_nil a ha
  exact ne_nil_of_mem (mem_mergeSetIDs.mpr (.inl hi))

/-! ## Occurrences of build ids -/

lemma mem_occurrences {sets o} : o ∈ occurrences sets ↔ o.1 ∈ sets ∧ o.2 ∈ o.1.buildIds := by
  obtain ⟨set, buildID⟩ := o
  simp only [occurrences, mem_flatMap, mem_map, Prod.mk.injEq]
  constructor
  · rintro ⟨s, hs, b, hb, rfl, rfl⟩
    exact ⟨hs, hb⟩
  rintro ⟨hs, hb⟩
  exact ⟨set, hs, buildID, hb, rfl, rfl⟩

lemma mem_ids {set : VersionSet} {id} : id ∈ set.ids ↔ ∃ b ∈ set.buildIds, b.id = id :=
  mem_map

lemma id_mem {set : VersionSet} {b} (hb : b ∈ set.buildIds) : b.id ∈ set.ids := mem_map_of_mem hb

section Info

variable {occ : List (VersionSet × BuildId)} {id : String} {info : BuildIDInfo}

/-- The latest state and the latest time as default among the occurrences of a build id. -/
structure IsMerged (occ : List (VersionSet × BuildId)) (b : BuildId) : Prop where
  state : ∃ o ∈ occ, o.2.id = b.id ∧ o.2.state = b.state ∧ o.2.stateUpdateTimestamp = b.stateUpdateTimestamp
  stateMax : ∀ o ∈ occ, o.2.id = b.id → o.2.stateUpdateTimestamp ≤ b.stateUpdateTimestamp
  default : ∃ o ∈ occ, o.2.id = b.id ∧ o.2.becameDefaultTimestamp = b.becameDefaultTimestamp
  defaultMax : ∀ o ∈ occ, o.2.id = b.id → o.2.becameDefaultTimestamp ≤ b.becameDefaultTimestamp

/-- What is collected of a build id is what its occurrences say. -/
structure IsInfo (occ : List (VersionSet × BuildId)) (id : String) (info : BuildIDInfo) : Prop where
  merged : IsMerged occ (info.toBuildId id)
  setIDs : ∀ i, i ∈ info.setIDs ↔ ∃ o ∈ occ, o.2.id = id ∧ i ∈ o.1.setIds
  setDefault : ∃ o ∈ occ, o.2.id = id ∧ o.1.becameDefaultTimestamp = info.setMadeDefaultAt
  setDefaultMax : ∀ o ∈ occ, o.2.id = id → o.1.becameDefaultTimestamp ≤ info.setMadeDefaultAt

variable {occ' : List (VersionSet × BuildId)}

lemma IsMerged.congr {b} (h : IsMerged occ b) (hocc : ∀ o, o.2.id = b.id → (o ∈ occ ↔ o ∈ occ')) : IsMerged occ' b := by
  obtain ⟨⟨o, ho, hid, hs⟩, hsm, ⟨o', ho', hid', hd⟩, hdm⟩ := h
  exact ⟨⟨o, (hocc o hid).mp ho, hid, hs⟩, fun o ho hid => hsm o ((hocc o hid).mpr ho) hid,
    ⟨o', (hocc o' hid').mp ho', hid', hd⟩, fun o ho hid => hdm o ((hocc o hid).mpr ho) hid⟩

lemma IsMerged.of_unique {o} (ho : o ∈ occ) (h : ∀ o' ∈ occ, o'.2.id = o.2.id → o' = o) : IsMerged occ o.2 := by
  refine ⟨⟨o, ho, rfl, rfl, rfl⟩, fun o' ho' hid => ?_, ⟨o, ho, rfl, rfl⟩, fun o' ho' hid => ?_⟩
  · rw [h o' ho' hid]
  · rw [h o' ho' hid]

lemma IsInfo.congr (h : IsInfo occ id info) (hocc : ∀ o, o.2.id = id → (o ∈ occ ↔ o ∈ occ')) : IsInfo occ' id info := by
  obtain ⟨o, ho, hid, ht⟩ := h.setDefault
  refine ⟨h.merged.congr hocc, fun i => (h.setIDs i).trans (exists_congr fun o => ?_), ⟨o, (hocc o hid).mp ho, hid, ht⟩,
    fun o ho hid => h.setDefaultMax o ((hocc o hid).mpr ho) hid⟩
  exact ⟨fun ⟨ho, hid, hi⟩ => ⟨(hocc o hid).mp ho, hid, hi⟩, fun ⟨ho, hid, hi⟩ => ⟨(hocc o hid).mpr ho, hid, hi⟩⟩

lemma IsInfo.other (h : IsInfo occ id info) {o} (hne : o.2.id ≠ id) : IsInfo (occ ++ [o]) id info :=
  h.congr fun o' hid => by
    have : o' ≠ o := fun heq => hne (heq ▸ hid)
    simp [this]

lemma IsInfo.first {o} (h : ∀ o' ∈ occ, o'.2.id ≠ o.2.id) : IsInfo (occ ++ [o]) o.2.id (firstInfo o.1 o.2) := by
  have hone : IsInfo [o] o.2.id (firstInfo o.1 o.2) := by
    refine ⟨⟨?_, ?_, ?_, ?_⟩, ?_, ?_, ?_⟩ <;> simp [firstInfo, BuildIDInfo.toBuildId]
  exact hone.congr fun o' hid => by simpa using fun ho' => absurd hid (h o' ho')

lemma isMax_snoc {f : VersionSet × BuildId → Clock} {o : VersionSet × BuildId} (hid : o.2.id = id)
    {c : Clock} (hex : ∃ o' ∈ occ, o'.2.id = id ∧ f o' = c) (hmax : ∀ o' ∈ occ, o'.2.id = id → f o' ≤ c) :
    (∃ o' ∈ occ ++ [o], o'.2.id = id ∧ f o' = Clock.maxClock (f o) c) ∧
      ∀ o' ∈ occ ++ [o], o'.2.id = id → f o' ≤ Clock.maxClock (f o) c := by
  rw [Clock.maxClock_eq_max]
  refine ⟨?_, fun o' ho' hid' => ?_⟩
  · obtain hle | hle := le_total (f o) c
    · obtain ⟨o', ho', hid', heq⟩ := hex
      exact ⟨o', mem_append_left _ ho', hid', by rw [heq, max_eq_right hle]⟩
    exact ⟨o, mem_concat_self, hid, by rw [max_eq_left hle]⟩
  obtain ho' | ho' := mem_append.mp ho'
  · exact (hmax o' ho' hid').trans (le_max_right _ _)
  rw [mem_singleton.mp ho']
  exact le_max_left _ _

lemma IsInfo.again {o} (h : IsInfo occ o.2.id info) : IsInfo (occ ++ [o]) o.2.id (mergeInfo info o.1 o.2) := by
  have hself : o ∈ occ ++ [o] := mem_concat_self
  obtain ⟨hde, hdm⟩ := isMax_snoc (f := fun o => o.2.becameDefaultTimestamp) (o := o) rfl
    h.merged.default h.merged.defaultMax
  obtain ⟨hse, hsm⟩ := isMax_snoc (f := fun o => o.1.becameDefaultTimestamp) (o := o) rfl h.setDefault h.setDefaultMax
  obtain ⟨o', ho', hid, hstate, htime⟩ := h.merged.state
  obtain ⟨-, hum⟩ := isMax_snoc (f := fun o => o.2.stateUpdateTimestamp) (o := o) rfl
    ⟨o', ho', hid, htime⟩ h.merged.stateMax
  refine ⟨⟨?_, hum, hde, hdm⟩, fun i => ?_, hse, hsm⟩
  · -- the later of the two states is kept, and the new one if they are of the same time
    simp only [mergeInfo, BuildIDInfo.toBuildId, Clock.maxClock_eq_max]
    split
    · rename_i hmax
      exact ⟨o, hself, rfl, rfl, hmax.symm⟩
    rename_i hmax
    have hle : o.2.stateUpdateTimestamp ≤ info.stateUpdateTimestamp := by
      by_contra hlt
      exact hmax (max_eq_left (not_le.mp hlt).le)
    exact ⟨o', mem_append_left _ ho', hid, hstate, htime.trans (max_eq_right hle).symm⟩
  rw [mergeInfo, mem_mergeSetIDs, h.setIDs]
  constructor
  · rintro (⟨o', ho', hid, hi⟩ | hi)
    · exact ⟨o', mem_append_left _ ho', hid, hi⟩
    · exact ⟨o, hself, rfl, hi⟩
  rintro ⟨o', ho', hid, hi⟩
  obtain ho' | ho' := mem_append.mp ho'
  · exact .inl ⟨o', ho', hid, hi⟩
  rw [mem_singleton.mp ho'] at hi
  exact .inr hi

end Info

/-- The map that `collectBuildIdInfo` has built from some occurrences. -/
structure Collected (P : List String → Prop) (occ : List (VersionSet × BuildId))
    (infos : List (String × BuildIDInfo)) : Prop where
  nodup : (infos.map (·.1)).Nodup
  complete : ∀ o ∈ occ, o.2.id ∈ infos.map (·.1)
  each : ∀ p ∈ infos, IsInfo occ p.1 p.2 ∧ P p.2.setIDs

lemma track_spec {infos : List (String × BuildIDInfo)} {o} (h : (infos.map (·.1)).Nodup) :
    ((track infos o).map (·.1)).Nodup ∧ (∀ k, k ∈ (track infos o).map (·.1) ↔ k ∈ infos.map (·.1) ∨ k = o.2.id) ∧
      ∀ p ∈ track infos o, p ∈ infos ∧ o.2.id ≠ p.1 ∨ o.2.id = p.1 ∧ (o.2.id ∉ infos.map (·.1) ∧ p.2 = firstInfo o.1 o.2 ∨
        ∃ info, (o.2.id, info) ∈ infos ∧ p.2 = mergeInfo info o.1 o.2) := by
  induction infos with
  | nil => simp [track]
  | cons q infos ih =>
    obtain ⟨id, info⟩ := q
    obtain ⟨hid, hnodup⟩ := nodup_cons.mp h
    unfold track
    split
    · next heq =>
      subst heq
      refine ⟨h, by simp, forall_mem_cons.mpr ⟨.inr ⟨rfl, .inr ⟨info, mem_cons_self, rfl⟩⟩, fun p hp => .inl ?_⟩⟩
      exact ⟨mem_cons_of_mem _ hp, fun heq => hid (mem_map.mpr ⟨p, hp, heq.symm⟩)⟩
    next hne =>
    obtain ⟨hnodup', hkeys, heach⟩ := ih hnodup
    refine ⟨nodup_cons.mpr ⟨fun hin => ?_, hnodup'⟩, fun k => ?_, forall_mem_cons.mpr
      ⟨.inl ⟨mem_cons_self, Ne.symm hne⟩, fun p hp => ?_⟩⟩
    · exact ((hkeys id).mp hin).elim hid hne
    · rw [map_cons, map_cons, mem_cons, mem_cons, hkeys, or_assoc]
    obtain ⟨hp, hother⟩ | ⟨heq, ⟨hnew, hfirst⟩ | ⟨info', hin, hmerge⟩⟩ := heach p hp
    · exact .inl ⟨mem_cons_of_mem _ hp, hother⟩
    · exact .inr ⟨heq, .inl ⟨by simpa [Ne.symm hne] using hnew, hfirst⟩⟩
    · exact .inr ⟨heq, .inr ⟨info', mem_cons_of_mem _ hin, hmerge⟩⟩

lemma Collected.track {P : List String → Prop} (hP : MergeClosed P) {occ infos} (h : Collected P occ infos)
    {o} (ho : P o.1.setIds) : Collected P (occ ++ [o]) (track infos o) := by
  obtain ⟨hnodup, hkeys, heach⟩ := @track_spec infos o h.nodup
  refine ⟨hnodup, forall_mem_append.mpr ⟨fun o' ho' => ?_, forall_mem_singleton.mpr ?_⟩, fun p hp => ?_⟩
  · exact (hkeys _).mpr (.inl (h.complete o' ho'))
  · exact (hkeys _).mpr (.inr rfl)
  obtain ⟨id, info⟩ := p
  obtain ⟨hp, hother⟩ | ⟨rfl, ⟨hnew, rfl⟩ | ⟨info, hin, rfl⟩⟩ := heach _ hp
  · exact ⟨(h.each _ hp).1.other hother, (h.each _ hp).2⟩
  · exact ⟨.first fun o' ho' heq => hnew (heq ▸ h.complete o' ho'), ho⟩
  · exact ⟨(h.each _ hin).1.again, hP _ _ (h.each _ hin).2 ho⟩

lemma collectBuildIdInfo_spec {P : List String → Prop} (hP : MergeClosed P) {sets}
    (h : ∀ set ∈ sets, P set.setIds) : Collected P (occurrences sets) (collectBuildIdInfo sets) := by
  have loop : ∀ occ done infos, (∀ o ∈ occ, P o.1.setIds) → Collected P done infos →
      Collected P (done ++ occ) (occ.foldl track infos) := by
    intro occ
    induction occ with
    | nil =>
      intro done infos _ hc
      rwa [append_nil]
    | cons o occ ih =>
      intro done infos hocc hc
      have hnext := ih (done ++ [o]) (track infos o) (fun o' ho' => hocc o' (mem_cons_of_mem _ ho'))
        (hc.track hP (hocc o mem_cons_self))
      rwa [append_assoc, singleton_append] at hnext
  exact loop (occurrences sets) [] [] (fun o ho => h o.1 (mem_occurrences.mp ho).1) ⟨nodup_nil, by simp, by simp⟩

/-! ## Joins -/

section Joins

variable {occ occ' : List (VersionSet × BuildId)} {sets sets' : List VersionSet} {s s' : VersionSet}

def Linked (occ : List (VersionSet × BuildId)) (x y : String) : Prop :=
  ∃ o ∈ occ, ∃ o' ∈ occ, o.2.id = x ∧ o'.2.id = y ∧ ∃ i ∈ o.1.setIds, i ∈ o'.1.setIds

/-- No build id links two others that are not linked themselves. -/
def Unchained (occ : List (VersionSet × BuildId)) : Prop :=
  ∀ x y z, Linked occ x y → Linked occ y z → Linked occ x z

instance (occ : List (VersionSet × BuildId)) (x y : String) : Decidable (Linked occ x y) :=
  inferInstanceAs (Decidable (∃ o ∈ occ, ∃ o' ∈ occ, _ ∧ _ ∧ ∃ i ∈ o.1.setIds, i ∈ o'.1.setIds))

lemma Linked.mem {x y} (h : Linked occ x y) : x ∈ occ.map (·.2.id) ∧ y ∈ occ.map (·.2.id) := by
  obtain ⟨o, ho, o', ho', rfl, rfl, -⟩ := h
  exact ⟨mem_map_of_mem ho, mem_map_of_mem ho'⟩

instance (occ : List (VersionSet × BuildId)) : Decidable (Unchained occ) :=
  decidable_of_iff (∀ x ∈ occ.map fun o : VersionSet × BuildId => o.2.id,
      ∀ y ∈ occ.map fun o : VersionSet × BuildId => o.2.id,
      ∀ z ∈ occ.map fun o : VersionSet × BuildId => o.2.id,
      Linked occ x y → Linked occ y z → Linked occ x z)
    ⟨fun h x y z hxy hyz => h x hxy.mem.1 y hxy.mem.2 z hyz.mem.2 hxy hyz, fun h x _ y _ z _ => h x y z⟩

lemma Linked.symm {x y} (h : Linked occ x y) : Linked occ y x := by
  obtain ⟨o, ho, o', ho', hx, hy, i, hi, hi'⟩ := h
  exact ⟨o', ho', o, ho, hy, hx, i, hi', hi⟩

lemma linked_of_set {s : VersionSet} (hne : s.setIds ≠ []) (hocc : ∀ b ∈ s.buildIds, (s, b) ∈ occ) {x y}
    (hx : x ∈ s.ids) (hy : y ∈ s.ids) : Linked occ x y := by
  obtain ⟨b, hb, rfl⟩ := mem_ids.mp hx
  obtain ⟨b', hb', rfl⟩ := mem_ids.mp hy
  obtain ⟨i, hi⟩ := exists_mem_of_ne_nil _ hne
  exact ⟨(s, b), hocc b hb, (s, b'), hocc b' hb', rfl, rfl, i, hi, hi⟩

lemma Linked.mono (hsub : ∀ o ∈ occ, o ∈ occ') {x y} (h : Linked occ x y) : Linked occ' x y := by
  obtain ⟨o, ho, o', ho', hxy⟩ := h
  exact ⟨o, hsub o ho, o', hsub o' ho', hxy⟩

structure Joins (occ : List (VersionSet × BuildId)) (sets : List VersionSet) : Prop where
  ids : (sets.flatMap (·.ids)).Nodup
  disjoint : sets.Pairwise fun s s' => s.setIds.Disjoint s'.setIds
  nonempty : ∀ s ∈ sets, s.buildIds ≠ [] ∧ s.setIds ≠ []
  merged : ∀ s ∈ sets, ∀ b ∈ s.buildIds, IsMerged occ b
  placed : ∀ o ∈ occ, ∃ s ∈ sets, o.2.id ∈ s.ids ∧ (∀ i ∈ o.1.setIds, i ∈ s.setIds) ∧
    o.1.becameDefaultTimestamp ≤ s.becameDefaultTimestamp
  setIds : ∀ s ∈ sets, ∀ i ∈ s.setIds, ∃ o ∈ occ, o.2.id ∈ s.ids ∧ i ∈ o.1.setIds
  latest : ∀ s ∈ sets, ∃ o ∈ occ, o.2.id ∈ s.ids ∧ o.1.becameDefaultTimestamp = s.becameDefaultTimestamp
  connected : ∀ s ∈ sets, ∀ x ∈ s.ids, ∀ y ∈ s.ids, ReflTransGen (Linked occ) x y

lemma eq_of_pairwise_disjoint {f : VersionSet → List String}
    (h : sets.Pairwise fun s s' => (f s).Disjoint (f s')) (hs : s ∈ sets)
    (hs' : s' ∈ sets) {x : String} (hx : x ∈ f s) (hx' : x ∈ f s') : s = s' := by
  induction h with
  | nil => cases hs
  | cons hhead _ ih =>
    obtain rfl | hin := mem_cons.mp hs
    · obtain rfl | hin' := mem_cons.mp hs'
      · rfl
      · exact absurd hx' (hhead s' hin' hx)
    obtain rfl | hin' := mem_cons.mp hs'
    · exact absurd hx (hhead s hin hx')
    · exact ih hin hin'

lemma eq_of_mem_ids (h : (sets.flatMap (·.ids)).Nodup) (hs : s ∈ sets)
    (hs' : s' ∈ sets) {x} (hx : x ∈ s.ids) (hx' : x ∈ s'.ids) : s = s' :=
  eq_of_pairwise_disjoint (f := VersionSet.ids) (nodup_flatMap.mp h).2 hs hs' hx hx'

lemma eq_of_mem_setIds (h : sets.Pairwise fun s s' => s.setIds.Disjoint s'.setIds)
    (hs : s ∈ sets) (hs' : s' ∈ sets) {i} (hi : i ∈ s.setIds) (hi' : i ∈ s'.setIds) : s = s' :=
  eq_of_pairwise_disjoint (f := VersionSet.setIds) h hs hs' hi hi'

section

variable (h : Joins occ sets) {s : VersionSet}

include h

lemma Joins.placed_in (hs : s ∈ sets) {o} (ho : o ∈ occ) (hid : o.2.id ∈ s.ids) :
    (∀ i ∈ o.1.setIds, i ∈ s.setIds) ∧ o.1.becameDefaultTimestamp ≤ s.becameDefaultTimestamp := by
  obtain ⟨s', hs', hid', hsub, hle⟩ := h.placed o ho
  rw [eq_of_mem_ids h.ids hs hs' hid hid']
  exact ⟨hsub, hle⟩

lemma Joins.closed (hs : s ∈ sets) {x y} (hx : x ∈ s.ids) (hxy : Linked occ x y) : y ∈ s.ids := by
  obtain ⟨o, ho, o', ho', rfl, rfl, i, hi, hi'⟩ := hxy
  obtain ⟨s', hs', hid', hsub, -⟩ := h.placed o' ho'
  have heq := eq_of_mem_setIds h.disjoint hs hs' ((h.placed_in hs ho hx).1 i hi) (hsub i hi')
  rwa [heq]

lemma Joins.reach (hs : s ∈ sets) {x y}
    (hx : x ∈ s.ids) (hxy : ReflTransGen (Linked occ) x y) : y ∈ s.ids := by
  induction hxy with
  | refl => exact hx
  | tail _ hyz ih => exact h.closed hs ih hyz

lemma Joins.congr (hocc : ∀ o, o ∈ occ ↔ o ∈ occ') : Joins occ' sets where
  ids := h.ids
  disjoint := h.disjoint
  nonempty := h.nonempty
  merged s hs b hb := (h.merged s hs b hb).congr fun o _ => hocc o
  placed o ho := h.placed o ((hocc o).mpr ho)
  setIds s hs i hi := by
    obtain ⟨o, ho, hoi⟩ := h.setIds s hs i hi
    exact ⟨o, (hocc o).mp ho, hoi⟩
  latest s hs := by
    obtain ⟨o, ho, hl⟩ := h.latest s hs
    exact ⟨o, (hocc o).mp ho, hl⟩
  connected s hs x hx y hy := Relation.ReflTransGen.mono
    (fun _ _ hl => hl.mono fun o ho => (hocc o).mp ho) x y (h.connected s hs x hx y hy)

omit h in
lemma Joins.trans {parts} (h : Joins occ parts)
    (h' : Joins (occurrences parts ++ occ') sets) : Joins (occ ++ occ') sets := by
  have hleft : ∀ {o}, o ∈ occ → o ∈ occ ++ occ' := fun ho => mem_append_left _ ho
  have hright : ∀ {o}, o ∈ occ' → o ∈ occ ++ occ' := fun ho => mem_append_right _ ho
  have hpart : ∀ {p b}, p ∈ parts → b ∈ p.buildIds → (p, b) ∈ occurrences parts ++ occ' :=
    fun hp hb => mem_append_left _ (mem_occurrences.mpr ⟨hp, hb⟩)
  -- an occurrence has a part, with a build id in it that stands for the occurrence
  have hplaced : ∀ o ∈ occ, ∃ p ∈ parts, ∃ b ∈ p.buildIds, b.id = o.2.id ∧
      (∀ i ∈ o.1.setIds, i ∈ p.setIds) ∧ o.1.becameDefaultTimestamp ≤ p.becameDefaultTimestamp := by
    intro o ho
    obtain ⟨p, hp, hid, hsub, hle⟩ := h.placed o ho
    obtain ⟨b, hb, hbid⟩ := mem_ids.mp hid
    exact ⟨p, hp, b, hb, hbid, hsub, hle⟩
  -- all build ids of a part go to the same set
  have htogether : ∀ p ∈ parts, ∀ s ∈ sets, ∀ x ∈ p.ids, ∀ y ∈ p.ids, x ∈ s.ids → y ∈ s.ids := by
    intro p hp s hs x hx y hy hxs
    exact h'.closed hs hxs (linked_of_set (h.nonempty p hp).2 (fun b => hpart hp) hx hy)
  have hconn : ∀ p ∈ parts, ∀ x ∈ p.ids, ∀ y ∈ p.ids,
      ReflTransGen (Linked (occ ++ occ')) x y := fun p hp x hx y hy =>
    Relation.ReflTransGen.mono (fun _ _ hl => hl.mono fun o => hleft) x y (h.connected p hp x hx y hy)
  -- a set id of an occurrence comes from an original one, with a connected build id
  have horigin : ∀ o ∈ occurrences parts ++ occ', ∀ i ∈ o.1.setIds, ∃ o' ∈ occ ++ occ',
      i ∈ o'.1.setIds ∧ ReflTransGen (Linked (occ ++ occ')) o.2.id o'.2.id ∧
      ReflTransGen (Linked (occ ++ occ')) o'.2.id o.2.id ∧
      ∀ s ∈ sets, o.2.id ∈ s.ids → o'.2.id ∈ s.ids := by
    intro o ho i hi
    obtain ho | ho := mem_append.mp ho
    · obtain ⟨hp, hb⟩ := mem_occurrences.mp ho
      obtain ⟨o', ho', hid, hi'⟩ := h.setIds o.1 hp i hi
      have hob : o.2.id ∈ o.1.ids := id_mem hb
      exact ⟨o', hleft ho', hi', hconn o.1 hp _ hob _ hid, hconn o.1 hp _ hid _ hob,
        fun s hs => htogether o.1 hp s hs _ hob _ hid⟩
    · exact ⟨o, hright ho, hi, .refl, .refl, fun _ _ h => h⟩
  refine ⟨h'.ids, h'.disjoint, h'.nonempty, fun s hs b hb => ?_, fun o ho => ?_, fun s hs i hi => ?_,
    fun s hs => ?_, fun s hs x hx y hy => ?_⟩
  · obtain ⟨⟨o, ho, hid, hst, hsu⟩, hsm, ⟨o', ho', hid', hd⟩, hdm⟩ := h'.merged s hs b hb
    have hbound : ∀ o ∈ occ ++ occ', o.2.id = b.id → ∃ o' ∈ occurrences parts ++ occ',
        o'.2.id = b.id ∧ o.2.stateUpdateTimestamp ≤ o'.2.stateUpdateTimestamp ∧
        o.2.becameDefaultTimestamp ≤ o'.2.becameDefaultTimestamp := by
      intro o ho hid
      obtain ho | ho := mem_append.mp ho
      · obtain ⟨p, hp, b', hb', hid', -⟩ := hplaced o ho
        have hm := h.merged p hp b' hb'
        exact ⟨(p, b'), hpart hp hb', hid'.trans hid, hm.stateMax o ho hid'.symm, hm.defaultMax o ho hid'.symm⟩
      · exact ⟨o, mem_append_right _ ho, hid, le_rfl, le_rfl⟩
    refine ⟨?_, fun o ho hid => ?_, ?_, fun o ho hid => ?_⟩
    · obtain ho | ho := mem_append.mp ho
      · obtain ⟨hp, hb⟩ := mem_occurrences.mp ho
        obtain ⟨o1, ho1, hid1, hst1, hsu1⟩ := (h.merged o.1 hp o.2 hb).state
        exact ⟨o1, hleft ho1, hid1.trans hid, hst1.trans hst, hsu1.trans hsu⟩
      · exact ⟨o, hright ho, hid, hst, hsu⟩
    · obtain ⟨o', ho', hid', hle, -⟩ := hbound o ho hid
      exact hle.trans (hsm o' ho' hid')
    · obtain ho' | ho' := mem_append.mp ho'
      · obtain ⟨hp, hb⟩ := mem_occurrences.mp ho'
        obtain ⟨o1, ho1, hid1, hd1⟩ := (h.merged o'.1 hp o'.2 hb).default
        exact ⟨o1, hleft ho1, hid1.trans hid', hd1.trans hd⟩
      · exact ⟨o', hright ho', hid', hd⟩
    obtain ⟨o', ho', hid', -, hle⟩ := hbound o ho hid
    exact hle.trans (hdm o' ho' hid')
  · obtain ho | ho := mem_append.mp ho
    · obtain ⟨p, hp, b, hb, hid, hsub, hle⟩ := hplaced o ho
      obtain ⟨s, hs, hids, hsubs, hles⟩ := h'.placed (p, b) (hpart hp hb)
      exact ⟨s, hs, hid ▸ hids, fun i hi => hsubs i (hsub i hi), hle.trans hles⟩
    · exact h'.placed o (mem_append_right _ ho)
  · obtain ⟨o, ho, hid, hio⟩ := h'.setIds s hs i hi
    obtain ⟨o', ho', hi', -, -, hto⟩ := horigin o ho i hio
    exact ⟨o', ho', hto s hs hid, hi'⟩
  · obtain ⟨o, ho, hid, heq⟩ := h'.latest s hs
    obtain ho | ho := mem_append.mp ho
    · obtain ⟨hp, hb⟩ := mem_occurrences.mp ho
      obtain ⟨o', ho', hid', heq'⟩ := h.latest o.1 hp
      exact ⟨o', hleft ho', htogether o.1 hp s hs _ (id_mem hb) _ hid' hid, heq'.trans heq⟩
    · exact ⟨o, hright ho, hid, heq⟩
  have hstep : ∀ a b, Linked (occurrences parts ++ occ') a b → ReflTransGen (Linked (occ ++ occ')) a b := by
    rintro a b ⟨o, ho, o', ho', rfl, rfl, i, hi, hi'⟩
    obtain ⟨o1, ho1, hi1, hto1, -⟩ := horigin o ho i hi
    obtain ⟨o2, ho2, hi2, -, hfrom2, -⟩ := horigin o' ho' i hi'
    exact (hto1.tail ⟨o1, ho1, o2, ho2, rfl, rfl, i, hi1, hi2⟩).trans hfrom2
  have hxy := h'.connected s hs x hx y hy
  clear hy
  induction hxy with
  | refl => exact .refl
  | tail _ hyz ih => exact ih.trans (hstep _ _ hyz)

/-! ## A join is unique up to order -/

/-- Equal but for the order of the build ids. -/
structure Same (s s' : VersionSet) : Prop where
  setIds : s.setIds = s'.setIds
  buildIds : s.buildIds.Perm s'.buildIds
  time : s.becameDefaultTimestamp = s'.becameDefaultTimestamp

/-- Equal but for the order of the sets, and of the build ids in each set. Both are sorted by their
timestamps after a merge, so only elements with equal timestamps can differ in order. -/
def Agree (sets sets' : List VersionSet) : Prop :=
  ∃ reordered : List VersionSet, reordered.Perm sets' ∧ List.Forall₂ Same sets reordered

def Consistent (occ : List (VersionSet × BuildId)) : Prop :=
  ∀ o ∈ occ, ∀ o' ∈ occ, o.2.id = o'.2.id →
    o.2.stateUpdateTimestamp = o'.2.stateUpdateTimestamp → o.2.state = o'.2.state

instance (occ : List (VersionSet × BuildId)) : Decidable (Consistent occ) :=
  inferInstanceAs (Decidable (∀ o ∈ occ, ∀ o' ∈ occ, _ → _ → _))

omit h in
lemma IsMerged.unique (hc : Consistent occ) {b b' : BuildId} (h : IsMerged occ b)
    (h' : IsMerged occ b') (hid : b.id = b'.id) : b = b' := by
  obtain ⟨o, ho, hoid, hst, hsu⟩ := h.state
  obtain ⟨o', ho', hoid', hst', hsu'⟩ := h'.state
  obtain ⟨d, hd, hdid, hdt⟩ := h.default
  obtain ⟨d', hd', hdid', hdt'⟩ := h'.default
  have hupdate : b.stateUpdateTimestamp = b'.stateUpdateTimestamp :=
    le_antisymm (hsu ▸ h'.stateMax o ho (hoid.trans hid)) (hsu' ▸ h.stateMax o' ho' (hoid'.trans hid.symm))
  have hdefault : b.becameDefaultTimestamp = b'.becameDefaultTimestamp :=
    le_antisymm (hdt ▸ h'.defaultMax d hd (hdid.trans hid)) (hdt' ▸ h.defaultMax d' hd' (hdid'.trans hid.symm))
  have hstate : b.state = b'.state := by
    rw [← hst, ← hst']
    refine hc o ho o' ho' ?_ ?_
    · rw [hoid, hoid', hid]
    · rw [hsu, hsu', hupdate]
  obtain ⟨id, state, update, default⟩ := b
  simp_all

omit h in
lemma nodup_buildIds (h : (sets.flatMap (·.ids)).Nodup) (hs : s ∈ sets) :
    s.buildIds.Nodup := .of_map _ ((nodup_flatMap.mp h).1 s hs)

/-- Equal but for the order of the build ids and of the set ids. -/
structure Counterpart (s s' : VersionSet) : Prop where
  setIds : ∀ i, i ∈ s.setIds ↔ i ∈ s'.setIds
  buildIds : s.buildIds.Perm s'.buildIds
  time : s.becameDefaultTimestamp = s'.becameDefaultTimestamp

lemma Joins.nodup : sets.Nodup := by
  refine (nodup_flatMap.mp h.ids).2.imp_of_mem fun {s s'} hs _ hdis heq => ?_
  obtain ⟨b, hb⟩ := exists_mem_of_ne_nil _ (h.nonempty s hs).1
  have hid : b.id ∈ s.ids := id_mem hb
  exact hdis hid (heq ▸ hid)

variable (hc : Consistent occ) (h' : Joins occ sets')

include hc h'

lemma Joins.counterpart {s} (hs : s ∈ sets) : ∃ s' ∈ sets', Counterpart s s' := by
  obtain ⟨b, hb⟩ := exists_mem_of_ne_nil _ (h.nonempty s hs).1
  have hbs : b.id ∈ s.ids := id_mem hb
  obtain ⟨o, ho, hid, -⟩ := (h.merged s hs b hb).state
  obtain ⟨s', hs', hbs', -⟩ := h'.placed o ho
  rw [hid] at hbs'
  have hmem : ∀ x, x ∈ s.ids ↔ x ∈ s'.ids := fun x =>
    ⟨fun hx => h'.reach hs' hbs' (h.connected s hs _ hbs x hx),
      fun hx => h.reach hs hbs (h'.connected s' hs' _ hbs' x hx)⟩
  refine ⟨s', hs', fun i => ⟨fun hi => ?_, fun hi => ?_⟩, ?_, ?_⟩
  · obtain ⟨o, ho, hid, hio⟩ := h.setIds s hs i hi
    exact (h'.placed_in hs' ho ((hmem _).mp hid)).1 i hio
  · obtain ⟨o, ho, hid, hio⟩ := h'.setIds s' hs' i hi
    exact (h.placed_in hs ho ((hmem _).mpr hid)).1 i hio
  · refine (perm_ext_iff_of_nodup (nodup_buildIds h.ids hs) (nodup_buildIds h'.ids hs')).mpr fun c => ?_
    constructor
    · intro hcb
      obtain ⟨c', hc', hid⟩ := mem_ids.mp ((hmem c.id).mp (id_mem hcb))
      rwa [(h.merged s hs c hcb).unique hc (h'.merged s' hs' c' hc') hid.symm]
    intro hcb
    obtain ⟨c', hc', hid⟩ := mem_ids.mp ((hmem c.id).mpr (id_mem hcb))
    rwa [(h'.merged s' hs' c hcb).unique hc (h.merged s hs c' hc') hid.symm]
  obtain ⟨o, ho, hid, heq⟩ := h.latest s hs
  obtain ⟨o', ho', hid', heq'⟩ := h'.latest s' hs'
  exact le_antisymm (heq ▸ (h'.placed_in hs' ho ((hmem _).mp hid)).2)
    (heq' ▸ (h.placed_in hs ho' ((hmem _).mpr hid')).2)

variable (hids : ∀ s ∈ sets, s.setIds.Nodup ∧ s.setIds.Pairwise (· ≤ ·))
  (hids' : ∀ s ∈ sets', s.setIds.Nodup ∧ s.setIds.Pairwise (· ≤ ·))

include hids hids'

lemma Joins.same (hs : s ∈ sets) : ∃ s' ∈ sets', Same s s' ∧ ∃ x ∈ s.ids, x ∈ s'.ids := by
  obtain ⟨s', hs', hc⟩ := h.counterpart hc h' hs
  have hperm : s.setIds.Perm s'.setIds :=
    (perm_ext_iff_of_nodup (hids s hs).1 (hids' s' hs').1).mpr hc.setIds
  obtain ⟨b, hb⟩ := exists_mem_of_ne_nil _ (h.nonempty s hs).1
  refine ⟨s', hs', ⟨?_, hc.buildIds, hc.time⟩, b.id, id_mem hb, id_mem (hc.buildIds.subset hb)⟩
  exact hperm.eq_of_pairwise (fun _ _ _ _ => le_antisymm) (hids s hs).2 (hids' s' hs').2

theorem Joins.agree : Agree sets sets' := by
  have hex : ∀ s, ∃ s', s ∈ sets → s' ∈ sets' ∧ Same s s' ∧ ∃ x ∈ s.ids, x ∈ s'.ids := by
    intro s
    by_cases hs : s ∈ sets
    · obtain ⟨s', hs'⟩ := h.same hc h' hids hids' hs
      exact ⟨s', fun _ => hs'⟩
    · exact ⟨s, fun h => absurd h hs⟩
  choose f hf using hex
  refine ⟨sets.map f, ?_, forall₂_map_right_iff.mpr (forall₂_same.mpr fun s hs => (hf s hs).2.1)⟩
  refine (perm_ext_iff_of_nodup ?_ h'.nodup).mpr fun s' => ⟨fun hs' => ?_, fun hs' => ?_⟩
  · refine List.Nodup.map_on (fun s hs t ht heq => ?_) h.nodup
    -- the counterpart has the build ids of both, so they are the same set
    obtain ⟨x, hx, hx'⟩ := (hf s hs).2.2
    have hperm := (heq ▸ (hf s hs).2.1.buildIds).trans (hf t ht).2.1.buildIds.symm
    exact eq_of_mem_ids h.ids hs ht hx ((hperm.map (·.id)).subset hx)
  · obtain ⟨s, hs, rfl⟩ := mem_map.mp hs'
    exact (hf s hs).1
  obtain ⟨s, hs, -, x, hx', hx⟩ := h'.same hc h hids' hids hs'
  refine mem_map.mpr ⟨s, hs, ?_⟩
  have hfx : x ∈ (f s).ids := ((hf s hs).2.1.buildIds.map (·.id)).subset hx
  exact eq_of_mem_ids h'.ids (hf s hs).1 hs' hfx hx'

end

end Joins

end FastOrchestration.Matching
