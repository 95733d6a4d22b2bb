import Mathlib

/-!
# Sorted maps

`SortedMap κ ν` is a finite map from a linearly ordered type of keys, as the list of its entries in
increasing order of the keys. The order is a field, so that the list is the one an iterator visits and
its head is the minimum.

Facts about the operations are stated by membership of an entry in a map: `mem_put`, `mem_remove`,
`mem_filterMap`; `putAll` and `removeAll` are the loops over `put` and `remove`. `functional` says that a
map has one value for a key, `take_or_drop` and `getLast_take` are about an iterator that stops early,
and `dropWhile` is the loop that removes the minimum while it has a property.
-/

namespace FastOrchestration.Lib

open List

universe u v w

/-- A finite map, as its entries in increasing order of the keys. -/
structure SortedMap (κ : Type u) (ν : Type v) [LinearOrder κ] where
  entries : List (κ × ν)
  sorted : entries.Pairwise (·.1 < ·.1)

namespace SortedMap

variable {κ : Type u} {ν : Type v} {μ : Type w} [LinearOrder κ] {m : SortedMap κ ν}

instance : Membership (κ × ν) (SortedMap κ ν) := ⟨fun m e => e ∈ m.entries⟩

@[ext]
lemma ext {m n : SortedMap κ ν} (h : m.entries = n.entries) : m = n := by
  cases m
  cases n
  cases h
  rfl

instance [DecidableEq ν] : DecidableEq (SortedMap κ ν) := fun m n =>
  decidable_of_iff (m.entries = n.entries) ⟨ext, fun h => h ▸ rfl⟩

instance [DecidableEq ν] (e : κ × ν) (m : SortedMap κ ν) : Decidable (e ∈ m) :=
  inferInstanceAs (Decidable (e ∈ m.entries))

lemma mem_def {e} : e ∈ m ↔ e ∈ m.entries := Iff.rfl

def empty : SortedMap κ ν := ⟨[], .nil⟩

@[simp]
lemma not_mem_empty {e} : e ∉ (empty : SortedMap κ ν) := not_mem_nil

lemma functional {k v w} (hv : (k, v) ∈ m) (hw : (k, w) ∈ m) : v = w := by
  by_contra hne
  have keys : m.entries.Pairwise fun a b => a.1 ≠ b.1 := m.sorted.imp fun h => h.ne
  have : Std.Symm fun a b : κ × ν => a.1 ≠ b.1 := ⟨fun _ _ h => h.symm⟩
  exact keys.forall hv hw (fun e => hne (Prod.mk.inj e).2) rfl

omit [LinearOrder κ] in
lemma length_eq_of_keys {l : List (κ × ν)} {ks : List κ} (hl : l.Pairwise (·.1 ≠ ·.1)) (hks : ks.Nodup)
    (h : ∀ k, (∃ v, (k, v) ∈ l) ↔ k ∈ ks) : l.length = ks.length := by
  have hperm : (l.map (·.1)).Perm ks := by
    refine (perm_ext_iff_of_nodup (pairwise_map.mpr hl) hks).mpr fun k => ?_
    simpa using h k
  simpa using hperm.length_eq

/-! ### Lookup -/

def get? (m : SortedMap κ ν) (k : κ) : Option ν := (m.entries.find? fun e => e.1 = k).map (·.2)

lemma get?_eq_some {k v} : m.get? k = some v ↔ (k, v) ∈ m := by
  constructor
  · intro h
    obtain ⟨e, he, rfl⟩ := Option.map_eq_some_iff.mp h
    have hk : e.1 = k := by simpa using find?_some he
    exact hk ▸ mem_of_find?_eq_some he
  intro h
  cases hf : m.entries.find? fun e => e.1 = k with
  | none => simpa using find?_eq_none.mp hf (k, v) h
  | some e =>
    have hk : e.1 = k := by simpa using find?_some hf
    have he : (k, e.2) ∈ m := hk ▸ mem_of_find?_eq_some hf
    simp [get?, hf, functional he h]

lemma get?_eq_none {k} : m.get? k = none ↔ ∀ v, (k, v) ∉ m := by
  simp only [← get?_eq_some, Option.eq_none_iff_forall_ne_some, ne_eq]

/-! ### Updates -/

def put (m : SortedMap κ ν) (k : κ) (v : ν) : SortedMap κ ν where
  entries := m.entries.filter (fun e => e.1 < k) ++ (k, v) :: m.entries.filter (fun e => k < e.1)
  sorted := by
    refine pairwise_append.mpr ⟨m.sorted.filter _, ?_, ?_⟩
    · refine pairwise_cons.mpr ⟨fun e he => ?_, m.sorted.filter _⟩
      simpa using (mem_filter.mp he).2
    · intro a ha b hb
      have hak : a.1 < k := by simpa using (mem_filter.mp ha).2
      rcases mem_cons.mp hb with rfl | hb
      · exact hak
      · exact hak.trans (by simpa using (mem_filter.mp hb).2)

@[simp]
lemma mem_put {k v e} : e ∈ m.put k v ↔ e = (k, v) ∨ e.1 ≠ k ∧ e ∈ m := by
  simp only [mem_def, put, mem_append, mem_filter, mem_cons, decide_eq_true_eq]
  constructor
  · rintro (⟨h, hlt⟩ | rfl | ⟨h, hlt⟩)
    · exact .inr ⟨hlt.ne, h⟩
    · exact .inl rfl
    · exact .inr ⟨hlt.ne', h⟩
  rintro (rfl | ⟨hne, h⟩)
  · exact .inr (.inl rfl)
  rcases lt_or_gt_of_ne hne with hlt | hlt
  · exact .inl ⟨h, hlt⟩
  · exact .inr (.inr ⟨h, hlt⟩)

def filterMap (m : SortedMap κ ν) (f : κ → ν → Option μ) : SortedMap κ μ where
  entries := m.entries.filterMap fun e => (f e.1 e.2).map (e.1, ·)
  sorted := by
    refine List.pairwise_filterMap.mpr (m.sorted.imp ?_)
    intro a b hab a' ha' b' hb'
    simp only [Option.map_eq_some_iff] at ha' hb'
    obtain ⟨x, -, rfl⟩ := ha'
    obtain ⟨y, -, rfl⟩ := hb'
    exact hab

@[simp]
lemma mem_filterMap {f : κ → ν → Option μ} {k : κ} {v : μ} :
    (k, v) ∈ m.filterMap f ↔ ∃ v0, (k, v0) ∈ m ∧ f k v0 = some v := by
  simp only [mem_def, filterMap, List.mem_filterMap, Option.map_eq_some_iff, Prod.mk.injEq]
  constructor
  · rintro ⟨e, he, x, hx, rfl, rfl⟩
    exact ⟨e.2, he, hx⟩
  rintro ⟨v0, h, hv⟩
  exact ⟨(k, v0), h, v, hv, rfl, rfl⟩

def select (m : SortedMap κ ν) (p : κ → ν → Bool) : SortedMap κ ν :=
  ⟨m.entries.filter fun e => p e.1 e.2, m.sorted.filter _⟩

@[simp]
lemma mem_select {p e} : e ∈ m.select p ↔ e ∈ m ∧ p e.1 e.2 := mem_filter

def remove (m : SortedMap κ ν) (k : κ) : SortedMap κ ν := m.select fun k' _ => k' ≠ k

lemma mem_remove {k e} : e ∈ m.remove k ↔ e ∈ m ∧ e.1 ≠ k := by
  simp [remove]

def removeAll (m : SortedMap κ ν) (ks : List κ) : SortedMap κ ν := ks.foldl remove m

@[simp]
lemma mem_removeAll {ks e} : e ∈ m.removeAll ks ↔ e ∈ m ∧ e.1 ∉ ks := by
  induction ks generalizing m with
  | nil => simp [removeAll]
  | cons k ks ih =>
    rw [removeAll, foldl_cons]
    change e ∈ (m.remove k).removeAll ks ↔ _
    rw [ih, mem_remove]
    simp [and_assoc]

def putAll (m : SortedMap κ ν) (es : List (κ × ν)) : SortedMap κ ν :=
  es.foldl (fun m e => m.put e.1 e.2) m

lemma putAll_cons {e es} : m.putAll (e :: es) = (m.put e.1 e.2).putAll es := rfl

lemma mem_of_mem_putAll {es e} (h : e ∈ m.putAll es) : e ∈ es ∨ e ∈ m ∧ ∀ e' ∈ es, e'.1 ≠ e.1 := by
  induction es generalizing m with
  | nil => exact .inr ⟨h, by simp⟩
  | cons a es ih =>
    rcases ih (m := m.put a.1 a.2) h with h | ⟨h, hes⟩
    · exact .inl (mem_cons_of_mem _ h)
    rcases mem_put.mp h with rfl | ⟨hne, h⟩
    · exact .inl mem_cons_self
    · exact .inr ⟨h, forall_mem_cons.mpr ⟨Ne.symm hne, hes⟩⟩

lemma mem_putAll_of_mem {es e} (h : e ∈ m) (hes : ∀ e' ∈ es, e'.1 ≠ e.1) : e ∈ m.putAll es := by
  induction es generalizing m with
  | nil => exact h
  | cons a es ih =>
    refine ih (mem_put.mpr (.inr ⟨?_, h⟩)) fun e' he' => hes e' (mem_cons_of_mem _ he')
    exact (hes a mem_cons_self).symm

lemma exists_mem_putAll {es k} (h : ∃ e ∈ es, e.1 = k) : ∃ v, (k, v) ∈ m.putAll es ∧ (k, v) ∈ es := by
  induction es generalizing m with
  | nil => simp at h
  | cons a es ih =>
    by_cases hes : ∃ e ∈ es, e.1 = k
    · obtain ⟨v, hv, hmem⟩ := ih (m := m.put a.1 a.2) hes
      exact ⟨v, hv, mem_cons_of_mem _ hmem⟩
    simp only [not_exists, not_and] at hes
    have ha : a.1 = k := by
      obtain ⟨e, he, hk⟩ := h
      rcases mem_cons.mp he with rfl | he
      · exact hk
      · exact absurd hk (hes e he)
    subst ha
    rw [putAll_cons]
    exact ⟨a.2, mem_putAll_of_mem (mem_put.mpr (.inl rfl)) hes, mem_cons_self⟩

lemma mem_putAll_of_pairwise {es : List (κ × ν)} (hes : es.Pairwise (·.1 ≠ ·.1))
    {e} (h : e ∈ es) : e ∈ m.putAll es := by
  induction es generalizing m with
  | nil => cases h
  | cons a es ih =>
    obtain ⟨ha, hes⟩ := pairwise_cons.mp hes
    rw [putAll_cons]
    rcases mem_cons.mp h with rfl | h
    · exact mem_putAll_of_mem (mem_put.mpr (.inl rfl)) fun e' he' => (ha e' he').symm
    · exact ih hes h

/-! ### Iterators -/

lemma take_lt_drop {n a b} (ha : a ∈ m.entries.take n) (hb : b ∈ m.entries.drop n) : a.1 < b.1 := by
  have h := m.sorted
  rw [← take_append_drop n m.entries] at h
  exact (pairwise_append.mp h).2.2 a ha b hb

lemma mem_take_or_drop {n e} (h : e ∈ m) : e ∈ m.entries.take n ∨ e ∈ m.entries.drop n := by
  rw [mem_def, ← take_append_drop n m.entries] at h
  exact mem_append.mp h

lemma le_getLast {es : List (κ × ν)} (hs : es.Pairwise (·.1 < ·.1)) {a l} (ha : a ∈ es)
    (hl : es.getLast? = some l) : a.1 ≤ l.1 := by
  obtain ⟨ys, rfl⟩ := getLast?_eq_some_iff.mp hl
  rcases mem_append.mp ha with h | h
  · exact ((pairwise_append.mp hs).2.2 a h l (by simp)).le
  · exact (mem_singleton.mp h) ▸ le_rfl

def dropWhile (m : SortedMap κ ν) (p : κ → ν → Bool) : SortedMap κ ν :=
  ⟨m.entries.dropWhile fun e => p e.1 e.2, m.sorted.sublist (dropWhile_sublist _)⟩

lemma takeWhile_lt_dropWhile {p a b}
    (ha : a ∈ m.entries.takeWhile fun e => p e.1 e.2) (hb : b ∈ m.dropWhile p) : a.1 < b.1 := by
  have h := m.sorted
  rw [← takeWhile_append_dropWhile (p := fun e => p e.1 e.2) (l := m.entries)] at h
  exact (pairwise_append.mp h).2.2 a ha b hb

lemma mem_of_mem_dropWhile {p e} (h : e ∈ m.dropWhile p) : e ∈ m := (dropWhile_sublist _).mem h

lemma mem_takeWhile_or_dropWhile {p e} (h : e ∈ m) :
    e ∈ m.entries.takeWhile (fun e => p e.1 e.2) ∨ e ∈ m.dropWhile p := by
  rw [mem_def, ← takeWhile_append_dropWhile (p := fun e => p e.1 e.2) (l := m.entries)] at h
  exact mem_append.mp h

lemma mem_dropWhile_of_mem {p e} (h : e ∈ m) (hp : ¬ p e.1 e.2) : e ∈ m.dropWhile p := by
  rcases mem_takeWhile_or_dropWhile (p := p) h with h | h
  · exact absurd (mem_takeWhile_imp h) hp
  · exact h

/-- A level that moves over the first entries, as long as they meet `p`: what is kept is what is above it. -/
lemma dropWhile_level (m : SortedMap κ ν) (p : κ → ν → Bool) {k} (hk : ∀ e ∈ m, k < e.1) {l : κ}
    (hl : (m.entries.takeWhile fun e => p e.1 e.2).getLast?.elim k (·.1) = l) :
    k ≤ l ∧ (l = k ∨ ∃ v, (l, v) ∈ m ∧ p l v) ∧ ∀ e, e ∈ m.dropWhile p ↔ e ∈ m ∧ l < e.1 := by
  subst hl
  cases hlast : (m.entries.takeWhile fun e => p e.1 e.2).getLast? with
  | none =>
    have hnil := getLast?_eq_none_iff.mp hlast
    refine ⟨le_rfl, .inl rfl, fun e => ⟨fun he => ?_, fun he => ?_⟩⟩
    · exact ⟨mem_of_mem_dropWhile he, hk e (mem_of_mem_dropWhile he)⟩
    · exact (mem_takeWhile_or_dropWhile he.1).resolve_left (hnil ▸ not_mem_nil)
  | some l =>
    have hin := mem_of_getLast? hlast
    have hmem : l ∈ m := (takeWhile_sublist _).mem hin
    have hp : p l.1 l.2 := mem_takeWhile_imp (p := fun e : κ × ν => p e.1 e.2) hin
    refine ⟨(hk l hmem).le, .inr ⟨l.2, hmem, hp⟩, fun e => ⟨fun he => ?_, fun he => ?_⟩⟩
    · exact ⟨mem_of_mem_dropWhile he, takeWhile_lt_dropWhile hin he⟩
    refine (mem_takeWhile_or_dropWhile he.1).resolve_left fun htake => he.2.not_ge ?_
    exact le_getLast (m.sorted.sublist (takeWhile_sublist _)) htake hlast

end SortedMap

end FastOrchestration.Lib
