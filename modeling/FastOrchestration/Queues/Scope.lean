import FastOrchestration.Lib.Run
import FastOrchestration.Queues.PredicateLaws

/-!
# Ranges and scopes

Model of `range.go` and `scope.go`. A range is a half-open interval of keys and a scope is a range
with a predicate. `NewRange` refuses a minimum above the maximum, but ranges are also changed in place
(`Iterator.Next`, `SliceImpl.shrinkRange`), so that a range is well formed (`Range.Valid`) is a fact
to prove and not part of the type.

Each partial operation comes with one lemma that says when it succeeds and with what; the slice proofs
use these and never unfold the operations.
-/

namespace FastOrchestration.Queues

structure Range where
  inclusiveMin : Key
  exclusiveMax : Key
  deriving DecidableEq

namespace Range

def Valid (r : Range) : Prop := r.inclusiveMin ≤ r.exclusiveMax

instance (r : Range) : Decidable r.Valid := inferInstanceAs (Decidable (_ ≤ _))

def newRange (inclusiveMin exclusiveMax : Key) : Except Panic Range :=
  if inclusiveMin > exclusiveMax then .error .invalidRange else .ok ⟨inclusiveMin, exclusiveMax⟩

def isEmpty (r : Range) : Bool := r.inclusiveMin = r.exclusiveMax

def containsKey (r : Range) (key : Key) : Bool := r.inclusiveMin ≤ key && key < r.exclusiveMax

def containsRange (r input : Range) : Bool :=
  r.inclusiveMin ≤ input.inclusiveMin && input.exclusiveMax ≤ r.exclusiveMax

def canSplit (r : Range) (key : Key) : Bool := r.containsKey key || r.exclusiveMax = key

def split (r : Range) (key : Key) : Except Panic (Range × Range) :=
  if !r.canSplit key then .error .unableToSplit
  else do
    let left ← newRange r.inclusiveMin key
    let right ← newRange key r.exclusiveMax
    return (left, right)

def canMerge (r input : Range) : Bool :=
  r.inclusiveMin ≤ input.exclusiveMax && input.inclusiveMin ≤ r.exclusiveMax

def merge (r input : Range) : Except Panic Range :=
  if !r.canMerge input then .error .unableToMerge
  else newRange (Key.minKey r.inclusiveMin input.inclusiveMin) (Key.maxKey r.exclusiveMax input.exclusiveMax)

def equals (r input : Range) : Bool :=
  r.inclusiveMin = input.inclusiveMin && r.exclusiveMax = input.exclusiveMax

lemma newRange_ok {a b} (h : a ≤ b) : newRange a b = .ok ⟨a, b⟩ := by
  simp [newRange, not_lt.mpr h]

lemma newRange_inv {a b r} (h : newRange a b = .ok r) : r = ⟨a, b⟩ ∧ a ≤ b := by
  unfold newRange at h
  split at h
  · cases h
  rename_i hle
  cases h
  exact ⟨rfl, not_lt.mp hle⟩

lemma containsKey_iff {r : Range} {k} : r.containsKey k ↔ r.inclusiveMin ≤ k ∧ k < r.exclusiveMax := by
  simp [containsKey]

lemma containsRange_iff {r i : Range} : r.containsRange i ↔
    r.inclusiveMin ≤ i.inclusiveMin ∧ i.exclusiveMax ≤ r.exclusiveMax := by
  simp [containsRange]

lemma canMerge_iff {r i : Range} : r.canMerge i ↔
    r.inclusiveMin ≤ i.exclusiveMax ∧ i.inclusiveMin ≤ r.exclusiveMax := by
  simp [canMerge]

lemma canSplit_iff {r : Range} (hv : r.Valid) {k} : r.canSplit k ↔ r.inclusiveMin ≤ k ∧ k ≤ r.exclusiveMax := by
  simp only [canSplit, Bool.or_eq_true, containsKey_iff, decide_eq_true_eq]
  constructor
  · rintro (⟨h1, h2⟩ | rfl)
    · exact ⟨h1, h2.le⟩
    · exact ⟨hv, le_rfl⟩
  rintro ⟨h1, h2⟩
  rcases h2.lt_or_eq with h | rfl
  · exact .inl ⟨h1, h⟩
  · exact .inr rfl

lemma split_ok {r : Range} {k} (h1 : r.inclusiveMin ≤ k) (h2 : k ≤ r.exclusiveMax) :
    r.split k = .ok (⟨r.inclusiveMin, k⟩, ⟨k, r.exclusiveMax⟩) := by
  have hc : r.canSplit k := (canSplit_iff (h1.trans h2)).mpr ⟨h1, h2⟩
  simp [split, hc, newRange_ok h1, newRange_ok h2, bind, Except.bind, pure, Except.pure]

lemma merge_ok {r i : Range} (hr : r.Valid) (h : r.canMerge i) :
    r.merge i = .ok ⟨min r.inclusiveMin i.inclusiveMin, max r.exclusiveMax i.exclusiveMax⟩ := by
  have hle : min r.inclusiveMin i.inclusiveMin ≤ max r.exclusiveMax i.exclusiveMax :=
    (min_le_left _ _).trans (hr.trans (le_max_left _ _))
  simp [merge, h, Key.minKey_eq_min, Key.maxKey_eq_max, newRange_ok hle]

end Range

structure Scope where
  range : Range
  predicate : Predicate

namespace Scope

/-- Go `Scope.Contains`, on a raw task or on an executable's view of it. -/
def contains (s : Scope) (t : Task) : Bool := s.range.containsKey t.key && s.predicate.test t

def canSplitByRange (s : Scope) (key : Key) : Bool := s.range.canSplit key

def splitByRange (s : Scope) (key : Key) : Except Panic (Scope × Scope) :=
  if !s.canSplitByRange key then .error .unableToSplit
  else do
    let (left, right) ← s.range.split key
    return (⟨left, s.predicate⟩, ⟨right, s.predicate⟩)

def splitByPredicate (s : Scope) (predicate : Predicate) : Scope × Scope :=
  (⟨s.range, s.predicate.andPredicates predicate⟩, ⟨s.range, s.predicate.andPredicates predicate.neg⟩)

def canMergeByRange (s incoming : Scope) : Bool :=
  s.range.canMerge incoming.range && s.predicate.equals incoming.predicate

def mergeByRange (s incoming : Scope) : Except Panic Scope :=
  if !s.canMergeByRange incoming then .error .unableToMerge
  else do
    let range ← s.range.merge incoming.range
    return ⟨range, s.predicate⟩

def canMergeByPredicate (s incoming : Scope) : Bool := s.range.equals incoming.range

def mergeByPredicate (s incoming : Scope) : Except Panic Scope :=
  if !s.canMergeByPredicate incoming then .error .unableToMerge
  else .ok ⟨s.range, s.predicate.orPredicates incoming.predicate⟩

def isEmpty (s : Scope) : Bool := s.range.isEmpty || s.predicate.isEmpty

lemma splitByRange_ok {s : Scope} {k} (h1 : s.range.inclusiveMin ≤ k) (h2 : k ≤ s.range.exclusiveMax) :
    s.splitByRange k = .ok (⟨⟨s.range.inclusiveMin, k⟩, s.predicate⟩, ⟨⟨k, s.range.exclusiveMax⟩, s.predicate⟩) := by
  have hc : s.canSplitByRange k := (Range.canSplit_iff (h1.trans h2)).mpr ⟨h1, h2⟩
  simp [splitByRange, hc, Range.split_ok h1 h2, bind, Except.bind, pure, Except.pure]

/-- A scope that was split had the key in its range. -/
lemma splitByRange_inv {s l r : Scope} {k} (h : s.splitByRange k = .ok (l, r)) :
    (s.range.inclusiveMin ≤ k ∧ k ≤ s.range.exclusiveMax) ∧
      l = ⟨⟨s.range.inclusiveMin, k⟩, s.predicate⟩ ∧ r = ⟨⟨k, s.range.exclusiveMax⟩, s.predicate⟩ := by
  unfold splitByRange Range.split at h
  split at h
  · cases h
  obtain ⟨⟨left, right⟩, hrange, h⟩ := Lib.bind_ok h
  split at hrange
  · cases hrange
  obtain ⟨left, hleft, hrange⟩ := Lib.bind_ok hrange
  obtain ⟨right, hright, hrange⟩ := Lib.bind_ok hrange
  obtain ⟨rfl, hmin⟩ := Range.newRange_inv hleft
  obtain ⟨rfl, hmax⟩ := Range.newRange_inv hright
  cases hrange
  cases h
  exact ⟨⟨hmin, hmax⟩, rfl, rfl⟩

end Scope

/-!
## Distances between task keys

A key is a number of two digits, with 2^63 task ids to a nanosecond. `Sub` borrows one task id too few, so
that a distance with a borrow is one short (`sub_iff`). Compaction takes gaps in the order of these
distances, which is that of their lengths unless a gap with a borrow is longer by one than another without.
-/

open List Lib

section Compaction

variable {σ : Type} (range : σ → Range) (slicePredicate : σ → Bool)

/-- The walk over the slices of a reader: two that are next to each other and eligible give a candidate. -/
def appendCompactCandidatesForReader (candidates : List (σ × Key)) :
    List σ → Except Panic (List (σ × Key))
  | p :: s :: slices =>
    if slicePredicate p && slicePredicate s then do
      let distance ← (range s).inclusiveMin.sub (range p).exclusiveMax
      appendCompactCandidatesForReader (candidates ++ [(s, distance)]) (s :: slices)
    else appendCompactCandidatesForReader candidates (s :: slices)
  | _ => .ok candidates

/-- The pairs of eligible slices that are next to each other. -/
def gaps : List σ → List (σ × σ)
  | p :: s :: slices =>
    if slicePredicate p && slicePredicate s then (p, s) :: gaps (s :: slices) else gaps (s :: slices)
  | _ => []

/-- The slices of a gap do not overlap. -/
def NotOverlapping (gap : σ × σ) : Prop :=
  (range gap.1).exclusiveMax.Valid ∧ (range gap.2).inclusiveMin.Valid ∧
    (range gap.1).exclusiveMax ≤ (range gap.2).inclusiveMin

/-- The number of keys in a gap. -/
def trueDistance (gap : σ × σ) : Int := (range gap.2).inclusiveMin.place - (range gap.1).exclusiveMax.place

/-- The task ids at the ends of a gap need a borrow. -/
def Borrows (gap : σ × σ) : Prop := (range gap.2).inclusiveMin.taskID < (range gap.1).exclusiveMax.taskID

/-- The candidate of a gap: its second slice, with the distance to the first. -/
def Measured (gap : σ × σ) (c : σ × Key) : Prop :=
  c.1 = gap.2 ∧ (range gap.2).inclusiveMin.sub (range gap.1).exclusiveMax = .ok c.2

/-- Each order of the candidates by distance, with their gaps, is one by length. -/
def RanksByLength (measured : List ((σ × σ) × σ × Key)) : Prop :=
  ∀ order : List ((σ × σ) × σ × Key), order.Perm measured → order.Pairwise (·.2.2 ≤ ·.2.2) →
    order.Pairwise fun x y => trueDistance range x.1 ≤ trueDistance range y.1

instance (gap : σ × σ) : Decidable (NotOverlapping range gap) := inferInstanceAs (Decidable (_ ∧ _ ∧ _))

instance (gap : σ × σ) : Decidable (Borrows range gap) := inferInstanceAs (Decidable (_ < _))

variable {range slicePredicate} {readers : List (List σ)} {candidates : List (σ × Key)}
  {found : List (σ × σ)} {slices : List σ}

/-- The walk adds the candidates of the gaps. -/
lemma appendCompactCandidatesForReader_ok (h : Forall₂ (Measured range) found candidates)
    (hgaps : ∀ gap ∈ gaps slicePredicate slices, NotOverlapping range gap) :
    ∃ out, appendCompactCandidatesForReader range slicePredicate candidates slices = .ok out ∧
      Forall₂ (Measured range) (found ++ gaps slicePredicate slices) out := by
  induction slices generalizing candidates found with
  | nil => exact ⟨_, rfl, by simpa [gaps] using h⟩
  | cons p slices ih =>
    cases slices with
    | nil => exact ⟨_, rfl, by simpa [gaps] using h⟩
    | cons s slices =>
      unfold appendCompactCandidatesForReader
      unfold gaps at hgaps ⊢
      split
      · next heligible =>
        rw [if_pos heligible, forall_mem_cons] at hgaps
        obtain ⟨hp, hs, hle⟩ := hgaps.1
        obtain ⟨distance, hsub⟩ := Key.sub_ok hp hs hle
        have hnew : Forall₂ (Measured range) (found ++ [(p, s)]) (candidates ++ [(s, distance)]) :=
          rel_append h (.cons ⟨rfl, hsub⟩ .nil)
        obtain ⟨out, hout, hmeasured⟩ := ih hnew hgaps.2
        exact ⟨out, by rw [hsub]; exact hout, by simpa using hmeasured⟩
      · next heligible =>
        rw [if_neg heligible] at hgaps
        exact ih h hgaps

/-- All readers together give a candidate for each gap. -/
lemma compactCandidates_ok (h : Forall₂ (Measured range) found candidates)
    (hgaps : ∀ gap ∈ readers.flatMap (gaps slicePredicate), NotOverlapping range gap) :
    ∃ out, readers.foldlM (appendCompactCandidatesForReader range slicePredicate) candidates = .ok out ∧
      Forall₂ (Measured range) (found ++ readers.flatMap (gaps slicePredicate)) out := by
  induction readers generalizing candidates found with
  | nil => exact ⟨_, rfl, by simpa using h⟩
  | cons slices readers ih =>
    rw [flatMap_cons, forall_mem_append] at hgaps
    obtain ⟨mid, hmid, hfirst⟩ := appendCompactCandidatesForReader_ok h hgaps.1
    obtain ⟨out, hout, hrest⟩ := ih hfirst hgaps.2
    exact ⟨out, by rw [foldlM_cons, hmid]; exact hout, by simpa using hrest⟩

/-- A measured distance is the true one, less the borrow. -/
lemma Measured.place {gap : σ × σ} {c} (h : Measured range gap c) (hgap : NotOverlapping range gap) :
    c.2.Valid ∧ c.2.place = trueDistance range gap - if Borrows range gap then 1 else 0 :=
  (Key.sub_iff hgap.1 hgap.2.1).mp h.2

/-- A gap with a borrow that is one longer than another without gets the same distance. -/
lemma ranksByLength_iff (h : Forall₂ (Measured range) found candidates)
    (hgaps : ∀ gap ∈ found, NotOverlapping range gap) :
    RanksByLength range (found.zip candidates) ↔ ∀ g ∈ found, ∀ g' ∈ found,
      Borrows range g → ¬Borrows range g' → trueDistance range g ≠ trueDistance range g' + 1 := by
  classical
  have hplace : ∀ x ∈ found.zip candidates, x.2.2.Valid ∧
      x.2.2.place = trueDistance range x.1 - if Borrows range x.1 then 1 else 0 := fun x hx =>
    ((forall₂_iff_zip.mp h).2 hx).place (hgaps x.1 (of_mem_zip hx).1)
  have hpair : ∀ g ∈ found, ∃ x ∈ found.zip candidates, x.1 = g := by
    intro g hg
    have hmem : g ∈ (found.zip candidates).map Prod.fst := by rwa [map_fst_zip h.length_eq.le]
    exact mem_map.mp hmem
  constructor
  · intro hrank g hg g' hg' hborrow hnot hlonger
    obtain ⟨x, hx, rfl⟩ := hpair g hg
    obtain ⟨y, hy, rfl⟩ := hpair g' hg'
    obtain ⟨hxv, hxplace⟩ := hplace x hx
    obtain ⟨hyv, hyplace⟩ := hplace y hy
    rw [if_pos hborrow] at hxplace
    rw [if_neg hnot] at hyplace
    have hle : x.2.2 ≤ y.2.2 := by
      rw [← not_lt, ← Key.place_lt_iff hyv hxv]
      omega
    -- A stable sort leaves `x` before `y`, where it is put first.
    let first := x :: y :: ((found.zip candidates).erase x).erase y
    have hperm : first.Perm (found.zip candidates) := by
      have hne : y ≠ x := fun h => hnot (h ▸ hborrow)
      exact ((perm_cons_erase ((mem_erase_of_ne hne).mpr hy)).symm.cons x).trans (perm_cons_erase hx).symm
    have htrans : ∀ a b c : (σ × σ) × σ × Key, decide (a.2.2 ≤ b.2.2) → decide (b.2.2 ≤ c.2.2) →
        decide (a.2.2 ≤ c.2.2) := fun a b c => by simpa using le_trans
    have htotal : ∀ a b : (σ × σ) × σ × Key, decide (a.2.2 ≤ b.2.2) || decide (b.2.2 ≤ a.2.2) :=
      fun a b => by simpa using le_total _ _
    have hfirst : [x, y].Sublist (mergeSort first (·.2.2 ≤ ·.2.2)) :=
      sublist_mergeSort htrans htotal (by simpa using hle) (by simp [first])
    have hranked := (hrank _ ((mergeSort_perm _ _).trans hperm)
      (by simpa using pairwise_mergeSort htrans htotal first)).sublist hfirst
    rw [pairwise_pair] at hranked
    omega
  · intro hgap order hperm hsorted
    refine hsorted.imp_of_mem fun {x y} hx hy hle => ?_
    have hx := hperm.mem_iff.mp hx
    have hy := hperm.mem_iff.mp hy
    obtain ⟨hxv, hxplace⟩ := hplace x hx
    obtain ⟨hyv, hyplace⟩ := hplace y hy
    rw [← not_lt, ← Key.place_lt_iff hyv hxv] at hle
    have hlonger := hgap x.1 (of_mem_zip hx).1 y.1 (of_mem_zip hy).1
    by_cases hborrow : Borrows range x.1 ∧ ¬Borrows range y.1
    · rw [if_pos hborrow.1] at hxplace
      rw [if_neg hborrow.2] at hyplace
      have := hlonger hborrow.1 hborrow.2
      omega
    · split_ifs at hxplace hyplace <;> first | omega | exact absurd ⟨‹_›, ‹_›⟩ hborrow

end Compaction

/-- A distance is exact, less one where the task ids need a borrow. So it is zero for two keys next to each
other over a borrow, it stays the same at the key where the borrow begins, and compaction ranks gaps by
their lengths just if no gap with a borrow is one longer than one without. -/
theorem key_arithmetic {a b : Key} (ha : a.Valid) (hb : b.Valid) (hab : a ≤ b) :
    (∀ k, a.next = .ok k → k.prev = .ok a ∧ a < k ∧ ∀ c, c.Valid → a < c → k ≤ c) ∧
    (∀ k, a.prev = .ok k → k.next = .ok a) ∧
    (∃ d, b.sub a = .ok d ∧ d.Valid ∧ d.place = a.measure b ∧
      ((d = Key.minimumKey → a = b) ↔ ¬(a.next = .ok b ∧ b.taskID < a.taskID)) ∧
      ∀ c e, c.Valid → b < c → c.sub a = .ok e →
        (d < e ↔ ¬(b.next = .ok c ∧ c.taskID < a.taskID ∧ a.taskID ≤ b.taskID))) ∧
    ∀ (σ : Type) (range : σ → Range) (slicePredicate : σ → Bool) (readers : List (List σ)),
      (∀ gap ∈ readers.flatMap (gaps slicePredicate), NotOverlapping range gap) →
      ∃ candidates, readers.foldlM (appendCompactCandidatesForReader range slicePredicate) [] = .ok candidates ∧
        Forall₂ (Measured range) (readers.flatMap (gaps slicePredicate)) candidates ∧
        (RanksByLength range ((readers.flatMap (gaps slicePredicate)).zip candidates) ↔
          ∀ g ∈ readers.flatMap (gaps slicePredicate), ∀ g' ∈ readers.flatMap (gaps slicePredicate),
            Borrows range g → ¬Borrows range g' → trueDistance range g ≠ trueDistance range g' + 1) := by
  refine ⟨fun k hk => ?_, fun k hk => ?_, ?_, ?_⟩
  · obtain ⟨hkv, hplace⟩ := (Key.next_iff ha).mp hk
    exact ⟨(Key.prev_iff hkv).mpr ⟨ha, hplace⟩, (Key.next_least ha hk).2⟩
  · obtain ⟨hkv, hplace⟩ := (Key.prev_iff ha).mp hk
    exact (Key.next_iff hkv).mpr ⟨ha, hplace⟩
  · obtain ⟨d, hd⟩ := Key.sub_ok ha hb hab
    obtain ⟨hdv, hplace⟩ := (Key.sub_iff ha hb).mp hd
    refine ⟨d, hd, hdv, hplace, ?_, fun c e hc hbc he => ?_⟩
    · have hequal : a = b ↔ ¬a.place < b.place := by
        rw [Key.place_lt_iff ha hb, not_lt]
        exact ⟨fun h => h.ge, hab.antisymm⟩
      rw [Key.place_eq_zero hdv, hplace, Key.next_iff ha, hequal, Key.measure]
      have hle := (Key.place_lt_iff hb ha).not.mpr hab.not_gt
      simp only [hb, true_and]
      split_ifs <;> omega
    obtain ⟨hev, hplace'⟩ := (Key.sub_iff ha hc).mp he
    rw [← Key.place_lt_iff hb hc] at hbc
    rw [← Key.place_lt_iff hdv hev, hplace, hplace', Key.next_iff hb, Key.measure, Key.measure]
    simp only [hc, true_and]
    split_ifs <;> omega
  · intro σ range slicePredicate readers hgaps
    obtain ⟨candidates, hrun, hmeasured⟩ := compactCandidates_ok (.nil : Forall₂ _ [] []) hgaps
    exact ⟨candidates, hrun, hmeasured, ranksByLength_iff hmeasured hgaps⟩

/-- Two gaps, the longer one with a borrow. -/
def threeRanges : List Range := [⟨⟨0, 0⟩, ⟨0, 5⟩⟩, ⟨⟨1, 3⟩, ⟨1, 4⟩⟩, ⟨⟨1, 9⟩, ⟨1, 10⟩⟩]

theorem key_arithmetic_gap : (∃ d, Key.sub ⟨6, 0⟩ ⟨5, 7⟩ = .ok d ∧ d ≠ Key.minimumKey ∧
      ∀ e, Key.sub ⟨6, 1⟩ ⟨5, 7⟩ = .ok e → d < e) ∧
    ∃ candidates, appendCompactCandidatesForReader id (fun _ => true) [] threeRanges = .ok candidates ∧
      RanksByLength id ((gaps (fun _ => true) threeRanges).zip candidates) := by
  obtain ⟨-, -, ⟨d, hd, -, -, hzero, hmono⟩, hrank⟩ :=
    key_arithmetic (a := ⟨5, 7⟩) (b := ⟨6, 0⟩) (by decide) (by decide) (by decide)
  refine ⟨⟨d, hd, fun h => ?_, fun e he => (hmono ⟨6, 1⟩ e (by decide) (by decide) he).mpr (by decide)⟩, ?_⟩
  · exact absurd (hzero.mpr (by decide) h) (by decide)
  obtain ⟨candidates, hrun, -, hiff⟩ := hrank Range id (fun _ => true) [threeRanges] (by decide)
  refine ⟨candidates, ?_, hiff.mpr (by decide)⟩
  simpa using hrun

/-- A distance is zero, and two are the same. -/
theorem sub_borrow_zero : Key.sub ⟨1, 0⟩ ⟨0, Key.maxInt64⟩ = .ok Key.minimumKey ∧
    Key.sub ⟨1, 0⟩ ⟨0, 1⟩ = Key.sub ⟨0, Key.maxInt64⟩ ⟨0, 1⟩ := by
  decide

end FastOrchestration.Queues
