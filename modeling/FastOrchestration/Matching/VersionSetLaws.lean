import FastOrchestration.Matching.VersionMerge

/-!
# Requests on version sets

What each request does to the version sets, as one lemma for each: the invariants are kept
(`SetsInv`), and the request is fulfilled (`Fulfils`), which says where its target ends up and that all
else is as before. A request comes with a clock that is later than all times in the data, so what is
moved to the end belongs there.

The sets are taken apart at the one that a request is about: it is the only one with its build ids and
set ids (`Apart`), and the others stay in their order.
-/

namespace FastOrchestration.Matching

open List VersionSet

/-! ## One set among others -/

structure VersionSet.Good (s : VersionSet) : Prop where
  setIds : s.setIds.Nodup
  named : s.setIds ≠ []
  ids : s.ids.Nodup
  nonempty : s.buildIds ≠ []
  builds : s.buildIds.Pairwise fun b b' => b.becameDefaultTimestamp ≤ b'.becameDefaultTimestamp

structure Apart (s t : VersionSet) : Prop where
  setIds : s.setIds.Disjoint t.setIds
  ids : s.ids.Disjoint t.ids

lemma Apart.symm {s t} (h : Apart s t) : Apart t s :=
  ⟨fun _ hi hi' => h.setIds hi' hi, fun _ hi hi' => h.ids hi' hi⟩

def Before (s t : VersionSet) : Prop :=
  Apart s t ∧ s.becameDefaultTimestamp ≤ t.becameDefaultTimestamp

section Sets

variable {sets before after : List VersionSet} {s s' : VersionSet} {timestamp : Clock}

lemma setsInv_iff : SetsInv sets ↔ (∀ s ∈ sets, s.Good) ∧ sets.Pairwise Before := by
  constructor
  · intro h
    obtain ⟨hnodup, hdis⟩ := nodup_flatMap.mp h.ids
    refine ⟨fun s hs => ⟨(h.setIds s hs).1, (h.setIds s hs).2, hnodup s hs, h.nonempty s hs, h.builds s hs⟩, ?_⟩
    exact ((h.disjoint.and hdis).and h.ordered).imp fun hst => ⟨⟨hst.1.1, hst.1.2⟩, hst.2⟩
  rintro ⟨hgood, hpair⟩
  exact ⟨nodup_flatMap.mpr ⟨fun s hs => (hgood s hs).ids, hpair.imp fun h => h.1.ids⟩,
    hpair.imp fun h => h.1.setIds, fun s hs => ⟨(hgood s hs).setIds, (hgood s hs).named⟩,
    fun s hs => (hgood s hs).nonempty, hpair.imp fun h => h.2, fun s hs => (hgood s hs).builds⟩

lemma SetsInv.good (h : SetsInv sets) (hs : s ∈ sets) : s.Good := (setsInv_iff.mp h).1 s hs

variable (h : SetsInv (before ++ s :: after))

include h

lemma SetsInv.apart {t} (ht : t ∈ before ++ after) : Apart s t := by
  obtain ⟨-, hrest, hcross⟩ := pairwise_append.mp (setsInv_iff.mp h).2
  obtain ht | ht := mem_append.mp ht
  · exact (hcross t ht s mem_cons_self).1.symm
  · exact ((pairwise_cons.mp hrest).1 t ht).1

lemma SetsInv.replace (hgood : s'.Good) (hapart : ∀ t ∈ before ++ after, Apart s' t)
    (htime : s'.becameDefaultTimestamp = s.becameDefaultTimestamp) : SetsInv (before ++ s' :: after) := by
  obtain ⟨hall, hpair⟩ := setsInv_iff.mp h
  obtain ⟨hbefore, hrest, hcross⟩ := pairwise_append.mp hpair
  obtain ⟨hafter, hpairs⟩ := pairwise_cons.mp hrest
  refine setsInv_iff.mpr ⟨fun t ht => ?_, pairwise_append.mpr ⟨hbefore,
    pairwise_cons.mpr ⟨fun t ht => ⟨?_, ?_⟩, hpairs⟩, fun t ht u hu => ?_⟩⟩
  · obtain ht | ht := mem_append.mp ht
    · exact hall t (mem_append_left _ ht)
    obtain rfl | ht := mem_cons.mp ht
    · exact hgood
    · exact hall t (mem_append_right _ (mem_cons_of_mem _ ht))
  · exact hapart t (mem_append_right _ ht)
  · exact htime ▸ (hafter t ht).2
  obtain rfl | hu := mem_cons.mp hu
  · exact ⟨(hapart t (mem_append_left _ ht)).symm, htime ▸ (hcross t ht s mem_cons_self).2⟩
  · exact hcross t ht u (mem_cons_of_mem _ hu)

lemma SetsInv.without : SetsInv (before ++ after) := by
  obtain ⟨hall, hpair⟩ := setsInv_iff.mp h
  have hsub : (before ++ after).Sublist (before ++ s :: after) :=
    (sublist_cons_self s after).append_left before
  exact setsInv_iff.mpr ⟨fun t ht => hall t (hsub.subset ht), hpair.sublist hsub⟩

omit h

lemma middle_subset : before ++ after ⊆ before ++ s :: after := ((sublist_cons_self s after).append_left before).subset

lemma SetsInv.snoc (h : SetsInv sets) (hgood : s.Good) (hapart : ∀ t ∈ sets, Apart s t)
    (hlater : ∀ t ∈ sets, t.becameDefaultTimestamp ≤ s.becameDefaultTimestamp) : SetsInv (sets ++ [s]) := by
  obtain ⟨hall, hpair⟩ := setsInv_iff.mp h
  refine setsInv_iff.mpr ⟨fun t ht => ?_, pairwise_append.mpr ⟨hpair, pairwise_singleton _ _, fun t ht u hu => ?_⟩⟩
  · obtain ht | ht := mem_append.mp ht
    · exact hall t ht
    rw [mem_singleton.mp ht]
    exact hgood
  rw [mem_singleton.mp hu]
  exact ⟨(hapart t ht).symm, hlater t ht⟩

def Later (timestamp : Clock) (sets : List VersionSet) : Prop :=
  ∀ s ∈ sets, s.becameDefaultTimestamp < timestamp ∧ ∀ b ∈ s.buildIds, b.becameDefaultTimestamp < timestamp

instance (timestamp : Clock) (sets : List VersionSet) : Decidable (Later timestamp sets) :=
  inferInstanceAs (Decidable (∀ s ∈ sets, _ ∧ ∀ b ∈ s.buildIds, _))

/-- A set that has taken the place of another one is moved to the end. -/
lemma SetsInv.toEnd (h : SetsInv (before ++ s :: after)) (hlater : Later timestamp (before ++ s :: after))
    (hgood : s'.Good) (hapart : ∀ t ∈ before ++ after, Apart s' t) :
    SetsInv (before ++ after ++ [{ s' with becameDefaultTimestamp := timestamp }]) :=
  h.without.snoc { hgood with } (fun t ht => { hapart t ht with }) fun t ht => (hlater t (middle_subset ht)).1.le

end Sets

/-! ## Finding and moving -/

section Lists

variable {α : Type}

lemma modify_middle (before after : List α) (a : α) (f : α → α) :
    (before ++ a :: after).modify before.length f = before ++ f a :: after := by
  induction before with
  | nil => rfl
  | cons b before ih => simp [ih]

lemma eq_nil_of_last {before after : List α} {a : α} (h : before.length = (before ++ a :: after).length - 1) :
    after = [] := by
  rw [length_append, length_cons] at h
  exact length_eq_zero_iff.mp (by omega)

lemma eraseIdx_middle (before after : List α) (a : α) :
    (before ++ a :: after).eraseIdx before.length = before ++ after := by
  rw [eraseIdx_append_of_length_le le_rfl, Nat.sub_self, eraseIdx_cons_zero]

end Lists

section Find

variable {sets : List VersionSet} {v : String} {timestamp : Clock}

lemma exists_middle_of_idxOf? {builds : List BuildId} {i} (h : (builds.map (·.id)).idxOf? v = some i) :
    ∃ front b back, builds = front ++ b :: back ∧ i = front.length ∧ b.id = v := by
  obtain ⟨hlt, hv, -⟩ := idxOf?_eq_some_iff.mp h
  rw [length_map] at hlt
  refine ⟨builds.take i, builds[i], builds.drop (i + 1), ?_, ?_, ?_⟩
  · rw [← drop_eq_getElem_cons hlt, take_append_drop]
  · rw [length_take, min_eq_left hlt.le]
  · simpa using hv

lemma findBuildId_some {i j} (h : findBuildId sets v = some (i, j)) :
    ∃ before s after front b back, sets = before ++ s :: after ∧ i = before.length ∧
      s.buildIds = front ++ b :: back ∧ j = front.length ∧ b.id = v ∧ s ∈ sets ∧ v ∈ s.ids := by
  induction sets generalizing i with
  | nil => cases h
  | cons s sets ih =>
    simp only [findBuildId] at h
    split at h
    · rename_i k hk
      cases h
      obtain ⟨front, b, back, hb, hj, hid⟩ := exists_middle_of_idxOf? hk
      exact ⟨[], s, sets, front, b, back, rfl, rfl, hb, hj, hid, mem_cons_self, mem_ids.mpr ⟨b, by simp [hb], hid⟩⟩
    obtain ⟨⟨i', j'⟩, hfind, heq⟩ := Option.map_eq_some_iff.mp h
    cases heq
    obtain ⟨before, t, after, front, b, back, rfl, rfl, hb, hj, hid, ht, hv⟩ := ih hfind
    exact ⟨s :: before, t, after, front, b, back, rfl, rfl, hb, hj, hid, mem_cons_of_mem _ ht, hv⟩

lemma findBuildId_none (h : findBuildId sets v = none) : ∀ s ∈ sets, v ∉ s.ids := by
  induction sets with
  | nil => exact nofun
  | cons s sets ih =>
    simp only [findBuildId] at h
    split at h
    · cases h
    rename_i hnone
    rintro t (_ | ⟨_, ht⟩)
    · exact idxOf?_eq_none_iff.mp hnone
    · exact ih (Option.map_eq_none_iff.mp h) t ht

lemma makeDefaultSet_middle (before after : List VersionSet) (s : VersionSet) :
    makeDefaultSet (before ++ s :: after) before.length timestamp =
      before ++ after ++ [{ s with becameDefaultTimestamp := timestamp }] := by
  simp [makeDefaultSet, eraseIdx_middle]

lemma makeDefault_middle {s : VersionSet} {front back : List BuildId} {b} (h : s.buildIds = front ++ b :: back) :
    s.makeDefault front.length timestamp = { s with
      buildIds := front ++ back ++ [{ b with becameDefaultTimestamp := timestamp }] } := by
  simp [makeDefault, h, eraseIdx_middle]

end Find

/-! ## What a request is for -/

/-- The build id is the last of its set, and the others are as before. -/
def MadeDefault (v : String) (s s' : VersionSet) : Prop :=
  (s'.ids.getLast? = some v) ∧ s'.setIds = s.setIds ∧
    s'.buildIds.filter (fun b => b.id ≠ v) = s.buildIds.filter (fun b => b.id ≠ v)

/-- The set of the build id is `s'`, in its place among the others. -/
def InPlace (v : String) (s' : VersionSet) (old new : List VersionSet) : Prop :=
  new = old.map fun s => if v ∈ s.ids then s' else s

/-- The set of the build id is `s'`, after all others. -/
def AtEnd (v : String) (s' : VersionSet) (old new : List VersionSet) : Prop :=
  new = old.filter (fun s => v ∉ s.ids) ++ [s']

section Requests

variable {sets before after new : List VersionSet} {s s' : VersionSet} {v : String} {timestamp : Clock}

section

variable (s') (h : SetsInv (before ++ s :: after)) (hv : v ∈ s.ids)

include h hv

lemma SetsInv.not_mem : (∀ t ∈ before, v ∉ t.ids) ∧ ∀ t ∈ after, v ∉ t.ids :=
  ⟨fun _ ht hvt => (h.apart (mem_append_left _ ht)).ids hv hvt,
    fun _ ht hvt => (h.apart (mem_append_right _ ht)).ids hv hvt⟩

lemma inPlace_middle : InPlace v s' (before ++ s :: after) (before ++ s' :: after) := by
  obtain ⟨hbefore, hafter⟩ := h.not_mem hv
  have hid : ∀ l : List VersionSet, (∀ t ∈ l, v ∉ t.ids) →
      l.map (fun t => if v ∈ t.ids then s' else t) = l := fun l hl =>
    (map_congr_left fun t ht => if_neg (hl t ht)).trans (map_id _)
  rw [InPlace, map_append, map_cons, hid _ hbefore, hid _ hafter, if_pos hv]

lemma filter_middle : (before ++ s :: after).filter (fun t => v ∉ t.ids) = before ++ after := by
  obtain ⟨hbefore, hafter⟩ := h.not_mem hv
  have hid : ∀ l : List VersionSet, (∀ t ∈ l, v ∉ t.ids) → l.filter (fun t => v ∉ t.ids) = l :=
    fun l hl => filter_eq_self.mpr fun t ht => decide_eq_true (hl t ht)
  rw [filter_append, filter_cons_of_neg (by simpa using hv), hid _ hbefore, hid _ hafter]

lemma atEnd_middle : AtEnd v s' (before ++ s :: after) (before ++ after ++ [s']) := by
  rw [AtEnd, filter_middle h hv]

end

lemma VersionSet.Good.makeDefault (h : s.Good) {front back : List BuildId} {b : BuildId}
    (hb : s.buildIds = front ++ b :: back) (hlater : ∀ b ∈ s.buildIds, b.becameDefaultTimestamp < timestamp) :
    (s.makeDefault front.length timestamp).Good ∧ (s.makeDefault front.length timestamp).ids.Perm s.ids ∧
      MadeDefault b.id s (s.makeDefault front.length timestamp) := by
  rw [makeDefault_middle hb]
  have hperm : (front ++ back ++ [b]).Perm s.buildIds := by
    rw [hb, append_assoc]
    exact (List.Perm.refl front).append perm_append_comm
  have hids : (VersionSet.ids { s with
      buildIds := front ++ back ++ [{ b with becameDefaultTimestamp := timestamp }] }).Perm s.ids := by
    have hmap := hperm.map (·.id)
    simpa [VersionSet.ids] using hmap
  have hsub : (front ++ back).Sublist s.buildIds := by
    rw [hb]
    exact (sublist_cons_self b back).append_left front
  refine ⟨⟨h.setIds, h.named, hids.nodup_iff.mpr h.ids, append_ne_nil_of_right_ne_nil _
    (cons_ne_nil _ _), ?_⟩, hids, ?_, rfl, ?_⟩
  · refine pairwise_append.mpr ⟨h.builds.sublist hsub, pairwise_singleton _ _, fun c hc d hd => ?_⟩
    rw [mem_singleton.mp hd]
    exact (hlater c (hsub.subset hc)).le
  · simp [VersionSet.ids]
  · simp [hb]

lemma promoteSet_ok (h : SetsInv sets) (hlater : Later timestamp sets) (hok : promoteSet timestamp sets v = .ok new) :
    SetsInv new ∧ ∃ s ∈ sets, v ∈ s.ids ∧ ∃ s', s'.buildIds = s.buildIds ∧ s'.setIds = s.setIds ∧
      AtEnd v s' sets new := by
  unfold promoteSet at hok
  split at hok
  · cases hok
  rename_i i j hfind
  obtain ⟨before, s, after, front, b, back, rfl, rfl, hb, -, rfl, hs, hv⟩ := findBuildId_some hfind
  split at hok
  · -- the set is the last one
    rename_i hlast
    cases hok
    obtain rfl := eq_nil_of_last hlast
    refine ⟨h, s, hs, hv, s, rfl, rfl, ?_⟩
    simpa using atEnd_middle s h hv
  cases hok
  rw [makeDefaultSet_middle]
  exact ⟨h.toEnd hlater (h.good hs) fun t ht => h.apart ht, s, hs, hv, { s with becameDefaultTimestamp := timestamp },
    rfl, rfl, atEnd_middle _ h hv⟩

lemma promoteWithinSet_ok (h : SetsInv sets) (hlater : Later timestamp sets)
    (hok : promoteWithinSet timestamp sets v = .ok new) :
    SetsInv new ∧ ∃ s ∈ sets, v ∈ s.ids ∧ ∃ s', MadeDefault v s s' ∧ InPlace v s' sets new := by
  unfold promoteWithinSet at hok
  split at hok
  · cases hok
  rename_i i j hfind
  obtain ⟨before, s, after, front, b, back, rfl, rfl, hb, rfl, rfl, hs, hv⟩ := findBuildId_some hfind
  split at hok
  · -- the build id is the last one
    rename_i hlast
    cases hok
    simp only [getElem?_append_right le_rfl, Nat.sub_self, getElem?_cons_zero, Option.all_some, hb,
      decide_eq_true_eq] at hlast
    obtain rfl := eq_nil_of_last hlast
    exact ⟨h, s, hs, hv, s, ⟨by simp [ids, hb], rfl, rfl⟩, inPlace_middle _ h hv⟩
  cases hok
  rw [makeVersionInSetDefault, modify_middle]
  obtain ⟨hgood, hperm, hdef⟩ := (h.good hs).makeDefault hb (hlater s hs).2
  refine ⟨h.replace hgood (fun t ht => ⟨?_, ?_⟩) ?_, s, hs, hv, _, hdef, inPlace_middle _ h hv⟩
  · rw [hdef.2.1]
    exact (h.apart ht).setIds
  · exact fun x hx hx' => (h.apart ht).ids (hperm.subset hx) hx'
  · rw [makeDefault_middle hb]

def VersionSet.add (s : VersionSet) (v : String) (timestamp : Clock) : VersionSet :=
  { s with buildIds := s.buildIds ++ [⟨v, .active, timestamp, timestamp⟩] }

lemma VersionSet.Good.add (h : s.Good) (hv : v ∉ s.ids)
    (hlater : ∀ b ∈ s.buildIds, b.becameDefaultTimestamp < timestamp) : (s.add v timestamp).Good := by
  refine ⟨h.setIds, h.named, ?_, append_ne_nil_of_right_ne_nil _ (cons_ne_nil _ _),
    pairwise_append.mpr ⟨h.builds, pairwise_singleton _ _, fun b hb c hc => ?_⟩⟩
  · simp only [VersionSet.ids, VersionSet.add, map_append, map_cons, map_nil]
    refine h.ids.append (nodup_singleton v) fun x hx hx' => hv ?_
    rwa [mem_singleton.mp hx'] at hx
  rw [mem_singleton.mp hc]
  exact (hlater b hb).le

lemma addNewCompatible_ok {compatVer makeSetDefault} (h : SetsInv sets) (hlater : Later timestamp sets)
    (hok : addNewCompatible timestamp sets v compatVer makeSetDefault = .ok new) :
    SetsInv new ∧ ∃ s ∈ sets, compatVer ∈ s.ids ∧ ∃ s', MadeDefault v s s' ∧
      if makeSetDefault then AtEnd compatVer s' sets new else InPlace compatVer s' sets new := by
  unfold addNewCompatible at hok
  split at hok
  · cases hok
  rename_i i j hfind
  obtain ⟨before, s, after, front, b, back, rfl, rfl, hb, -, rfl, hs, hc⟩ := findBuildId_some hfind
  split at hok
  · -- the build id is there, as the default that the request asks for
    rename_i i' j' hfind'
    split at hok
    · rename_i hsame
      split at hok
      · cases hok
      rename_i hdefault
      split at hok
      · cases hok
      rename_i hlast
      cases hok
      obtain ⟨before', t, after', front', b', back', heq, hi', hb', rfl, rfl, -⟩ :=
        findBuildId_some hfind'
      obtain ⟨rfl, hcons⟩ := append_inj heq (hsame.trans hi')
      cases hcons
      simp only [← hsame, getElem?_append_right le_rfl, Nat.sub_self, getElem?_cons_zero, Option.all_some, hb',
        decide_eq_true_eq, not_not] at hlast
      obtain rfl := eq_nil_of_last hlast
      refine ⟨h, s, hs, hc, s, ⟨by simp [ids, hb'], rfl, rfl⟩, ?_⟩
      cases makeSetDefault with
      | false => exact inPlace_middle _ h hc
      | true =>
        simp only [true_and, not_not, ← hsame] at hdefault
        obtain rfl := eq_nil_of_last hdefault
        simpa using atEnd_middle s h hc
    · cases hok
  rename_i hnone
  cases hok
  have hv : v ∉ s.ids := findBuildId_none hnone s hs
  -- the new build id is stamped where it is
  generalize hadded : makeVersionInSetDefault _ _ _ _ = added
  obtain rfl : before ++ s.add v timestamp :: after = added := by
    rw [← hadded, modify_middle, makeVersionInSetDefault, modify_middle]
    simp [makeDefault, VersionSet.add, eraseIdx_append_of_length_le]
  have hdef : MadeDefault v s (s.add v timestamp) := ⟨by simp [ids, VersionSet.add], rfl, by simp [VersionSet.add]⟩
  have hapart : ∀ t ∈ before ++ after, Apart (s.add v timestamp) t := by
    intro t ht
    refine ⟨(h.apart ht).setIds, fun x hx hx' => ?_⟩
    have hx : x ∈ s.ids ∨ x = v := by simpa [ids, VersionSet.add] using hx
    obtain hx | rfl := hx
    · exact (h.apart ht).ids hx hx'
    · exact findBuildId_none hnone t (middle_subset ht) hx'
  have hgood := (h.good hs).add hv (hlater s hs).2
  cases makeSetDefault with
  | false => exact ⟨h.replace hgood hapart rfl, s, hs, hc, _, hdef, inPlace_middle _ h hc⟩
  | true =>
    simp only [if_true, makeDefaultSet_middle]
    exact ⟨h.toEnd hlater hgood hapart, s, hs, hc, { s.add v timestamp with becameDefaultTimestamp := timestamp }, hdef,
      atEnd_middle _ h hc⟩

/-- The set id made from a build id is that of its own set. -/
def SetIdFree (hashBuildId : String → String) (sets : List VersionSet) (v : String) : Prop :=
  ∀ s ∈ sets, hashBuildId v ∈ s.setIds → v ∈ s.ids

instance (hashBuildId : String → String) (sets : List VersionSet) (v : String) :
    Decidable (SetIdFree hashBuildId sets v) :=
  inferInstanceAs (Decidable (∀ s ∈ sets, _ → _))

variable {hashBuildId : String → String}

lemma newSet_good : (newSet hashBuildId timestamp v).Good :=
  ⟨nodup_singleton _, cons_ne_nil _ _, nodup_singleton _, cons_ne_nil _ _, pairwise_singleton _ _⟩

lemma newSet_apart (hfree : SetIdFree hashBuildId sets v) (hv : ∀ s ∈ sets, v ∉ s.ids) :
    ∀ t ∈ sets, Apart (newSet hashBuildId timestamp v) t := by
  intro t ht
  refine ⟨fun i hi hi' => hv t ht (hfree t ht ?_), fun x hx hx' => hv t ht ?_⟩
  · rwa [mem_singleton.mp hi] at hi'
  · rwa [mem_singleton.mp hx] at hx'

lemma addNewDefaultSet_ok (h : SetsInv sets) (hlater : Later timestamp sets)
    (hfree : SetIdFree hashBuildId sets v) (hok : addNewDefaultSet hashBuildId timestamp sets v = .ok new) :
    SetsInv new ∧ ∃ s', s'.ids = [v] ∧ AtEnd v s' sets new := by
  unfold addNewDefaultSet at hok
  split at hok
  · rename_i hnone
    cases hok
    have hv := findBuildId_none hnone
    have hadded : makeVersionInSetDefault (sets ++ [newSet hashBuildId timestamp v]) sets.length 0
        timestamp = sets ++ [newSet hashBuildId timestamp v] := by
      rw [makeVersionInSetDefault, modify_middle]
      rfl
    rw [hadded, makeDefaultSet_middle, append_nil]
    refine ⟨h.snoc newSet_good (newSet_apart hfree hv) fun t ht => (hlater t ht).1.le,
      newSet hashBuildId timestamp v, rfl, ?_⟩
    rw [AtEnd, filter_eq_self.mpr fun t ht => decide_eq_true (hv t ht)]
    rfl
  rename_i i j hfind
  obtain ⟨before, s, after, front, b, back, rfl, rfl, hb, rfl, rfl, -, hv⟩ := findBuildId_some hfind
  split at hok
  · -- the request was made before
    rename_i hsame
    cases hok
    obtain ⟨hlast, hfront, hone⟩ := hsame
    obtain rfl := eq_nil_of_last hlast
    obtain rfl := length_eq_zero_iff.mp hfront
    obtain rfl : back = [] := by simpa [hb] using hone
    refine ⟨h, s, by simp [ids, hb], ?_⟩
    simpa using atEnd_middle s h hv
  · cases hok

end Requests

/-! ## Removal and unknown build ids -/

section Upkeep

variable {sets : List VersionSet} {v : String} {timestamp : Clock} {hashBuildId : String → String}

lemma removeBuildIds_inv (h : SetsInv sets) (buildIds : List String) :
    SetsInv (removeBuildIds timestamp sets buildIds) := by
  let mark (b : BuildId) : BuildId := if b.id ∈ buildIds then
    { b with state := .deleted, stateUpdateTimestamp := timestamp } else b
  have hid : ∀ b, (mark b).id = b.id := fun b => by
    simp only [mark]
    split <;> rfl
  have htime : ∀ b, (mark b).becameDefaultTimestamp = b.becameDefaultTimestamp := fun b => by
    simp only [mark]
    split <;> rfl
  have hids : ∀ s : VersionSet, ids { s with buildIds := s.buildIds.map mark } = s.ids :=
    fun s => by simp [ids, hid]
  obtain ⟨hgood, hpair⟩ := setsInv_iff.mp h
  refine setsInv_iff.mpr ⟨fun t ht => ?_, pairwise_map.mpr (hpair.imp fun {s t} hst => ?_)⟩
  · obtain ⟨s, hs, rfl⟩ := mem_map.mp ht
    have hg := hgood s hs
    refine ⟨hg.setIds, hg.named, ?_, fun hnil => hg.nonempty (map_eq_nil_iff.mp hnil), ?_⟩
    · exact (hids s).symm ▸ hg.ids
    refine pairwise_map.mpr (hg.builds.imp fun {b c} hle => ?_)
    exact (htime b).symm ▸ (htime c).symm ▸ hle
  · exact ⟨⟨hst.1.setIds, (hids s).symm ▸ (hids t).symm ▸ hst.1.ids⟩, hst.2⟩

lemma clearTombstones_inv (h : SetsInv sets) : SetsInv (clearTombstones sets) := by
  let clear (s : VersionSet) : VersionSet :=
    { s with buildIds := s.buildIds.filter fun buildId => buildId.state ≠ .deleted }
  have hids : ∀ s, (clear s).ids.Sublist s.ids := fun s => filter_sublist.map _
  obtain ⟨hgood, hpair⟩ := setsInv_iff.mp h
  refine setsInv_iff.mpr ⟨fun t ht => ?_, ?_⟩
  · obtain ⟨ht, hne⟩ := mem_filter.mp ht
    obtain ⟨s, hs, rfl⟩ := mem_map.mp ht
    have hg := hgood s hs
    refine ⟨hg.setIds, hg.named, hg.ids.sublist (hids s), ?_, hg.builds.sublist filter_sublist⟩
    simpa [List.isEmpty_iff] using hne
  refine List.Pairwise.sublist filter_sublist (pairwise_map.mpr (hpair.imp fun {s t} hst => ?_))
  exact ⟨⟨hst.1.setIds, fun x hx hx' => hst.1.ids ((hids s).subset hx) ((hids t).subset hx')⟩, hst.2⟩

lemma persistUnknownBuildId_inv (h : SetsInv sets) (hfree : SetIdFree hashBuildId sets v)
    (hzero : ∀ s ∈ sets, Clock.zero timestamp.clusterId ≤ s.becameDefaultTimestamp) :
    SetsInv (persistUnknownBuildId hashBuildId timestamp sets v) := by
  unfold persistUnknownBuildId
  split
  · rename_i i j hfind
    obtain ⟨before, s, after, front, b, back, rfl, rfl, hb, -, rfl, hs, hv⟩ := findBuildId_some hfind
    rw [modify_middle]
    have hg := h.good hs
    split
    · exact h
    rename_i hguess
    refine h.replace ⟨?_, ?_, hg.ids, hg.nonempty, hg.builds⟩ (fun t ht => ?_) rfl
    · refine hg.setIds.append (nodup_singleton _) fun i hi hi' => hguess ?_
      rwa [mem_singleton.mp hi'] at hi
    · exact append_ne_nil_of_right_ne_nil _ (cons_ne_nil _ _)
    refine ⟨fun i hi hi' => ?_, (h.apart ht).ids⟩
    obtain hi | hi := mem_append.mp hi
    · exact (h.apart ht).setIds hi hi'
    rw [mem_singleton.mp hi] at hi'
    have htin : t ∈ before ++ s :: after :=
      ((sublist_cons_self s after).append_left before).subset ht
    exact (h.apart ht).ids hv (hfree t htin hi')
  rename_i hnone
  obtain ⟨hgood, hpair⟩ := setsInv_iff.mp h
  refine setsInv_iff.mpr ⟨fun t ht => ?_, pairwise_cons.mpr ⟨fun t ht => ?_, hpair⟩⟩
  · obtain rfl | ht := mem_cons.mp ht
    · exact newSet_good
    · exact hgood t ht
  · exact ⟨newSet_apart hfree (findBuildId_none hnone) t ht, hzero t ht⟩

end Upkeep

end FastOrchestration.Matching
