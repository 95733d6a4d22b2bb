import Mathlib

/-!
# Slices over shared backing arrays

A slice is a header: which backing array it looks at, how many cells of it are its own, and how many
it may take without a new array. `Arrays.append` writes in place while there is room, so two slices
that were appended to the same slice can share the cell that each of them takes for its own.

`Forest.walk` is the depth-first traversal that passes `append path name` down to each child. What the
collected headers read in the end is `Forest.paths` as long as no node appends two children to a slice
with room (`Forest.Unshared`, `Forest.walk_reads`).
-/

namespace FastOrchestration.Lib

open List Function

universe u v

structure Arrays (α : Type u) where
  next : Nat
  cell : Nat → Nat → α

structure Slice where
  array : Nat
  len : Nat
  cap : Nat
deriving DecidableEq

variable {α : Type u} {ι : Type v} (grow : Nat → Nat) {A : Arrays α} {s q : Slice} {x : α}

namespace Arrays

def read (A : Arrays α) (s : Slice) : List α := (List.range s.len).map (A.cell s.array)

def write (A : Arrays α) (array index : Nat) (x : α) : Arrays α :=
  { A with cell := Function.update A.cell array (Function.update (A.cell array) index x) }

/-- A new array with the cells of `array`. Those past the length of the slice are written before any
slice reads them. -/
def copy (A : Arrays α) (array : Nat) : Arrays α :=
  { next := A.next + 1, cell := Function.update A.cell A.next (A.cell array) }

def append (grow : Nat → Nat) (A : Arrays α) (s : Slice) (x : α) : Arrays α × Slice :=
  if s.len < s.cap then (A.write s.array s.len x, { s with len := s.len + 1 })
  else ((A.copy s.array).write A.next s.len x, ⟨A.next, s.len + 1, grow s.cap⟩)

lemma read_congr {B : Arrays α} (h : ∀ i < s.len, B.cell s.array i = A.cell s.array i) : B.read s = A.read s :=
  map_congr_left fun i hi => h i (mem_range.mp hi)

/-- A write is not seen by a slice of another array or by one that ends before it. -/
lemma read_write {array index} (h : q.array ≠ array ∨ q.len ≤ index) : (A.write array index x).read q = A.read q := by
  refine read_congr fun i hi => ?_
  by_cases ha : q.array = array
  · have hne : i ≠ index := by
      have := h.resolve_left (fun hne => hne ha)
      omega
    simp [write, ha, update_of_ne hne]
  · simp [write, update_of_ne ha]

lemma read_copy {array} (h : q.array < A.next) : (A.copy array).read q = A.read q :=
  read_congr fun i _ => by
    have hne : q.array ≠ A.next := by omega
    simp [copy, update_of_ne hne]

section

variable (A s x)

lemma append_next : A.next ≤ (A.append grow s x).1.next := by
  unfold append
  split <;> simp [write, copy]

/-- The header of the appended slice: the same array while there was room, else a new one. -/
lemma append_header : (A.append grow s x).2.len = s.len + 1 ∧
    (A.append grow s x).2.cap = (if s.len < s.cap then s.cap else grow s.cap) ∧
    (A.append grow s x).2.array = (if s.len < s.cap then s.array else A.next) := by
  unfold append
  split <;> simp

lemma append_reads : (A.append grow s x).1.read (A.append grow s x).2 = A.read s ++ [x] := by
  unfold append
  split
  · simp only [read, range_succ, map_append, map_cons, map_nil]
    congr 1
    · exact read_write (q := s) (A := A) (.inr le_rfl)
    · simp [write]
  simp only [read, range_succ, map_append, map_cons, map_nil]
  congr 1
  · refine map_congr_left fun i hi => ?_
    have hne : i ≠ s.len := by
      have := mem_range.mp hi
      omega
    simp [write, copy, update_of_ne hne]
  · simp [write]

end

lemma append_array_lt (x : α) (h : s.array < A.next) : (A.append grow s x).2.array < (A.append grow s x).1.next := by
  unfold append
  split
  · exact h
  · simp [write, copy]

/-- What an append leaves alone: slices of other arrays, and slices that end where `s` ends. -/
lemma append_frame (hq : q.array < A.next) (h : q.array ≠ s.array ∨ q.len ≤ s.len) :
    (A.append grow s x).1.read q = A.read q := by
  unfold append
  split
  · exact read_write h
  have hne : q.array ≠ A.next := by omega
  exact (read_write (.inl hne)).trans (read_copy hq)

end Arrays

/-- The capacity of a slice after so many appends to the empty one. -/
def capAt (grow : Nat → Nat) : Nat → Nat
  | 0 => 0
  | d + 1 => if d < capAt grow d then capAt grow d else grow (capAt grow d)

/-- An ordered forest, in first-child next-sibling form. -/
inductive Forest (ι : Type v) (α : Type u) where
  | nil
  | cons (id : ι) (name : α) (children siblings : Forest ι α)
deriving DecidableEq

namespace Forest

variable (f : Forest ι α)

def ids : Forest ι α → List ι
  | nil => []
  | cons id _ children siblings => id :: (children.ids ++ siblings.ids)

def paths (base : List α) : Forest ι α → List (List α × ι)
  | nil => []
  | cons id name children siblings =>
    (base ++ [name], id) :: (children.paths (base ++ [name]) ++ siblings.paths base)

def walk (grow : Nat → Nat) : Forest ι α → Arrays α → Slice → Arrays α × List (Slice × ι)
  | nil, A, _ => (A, [])
  | cons id name children siblings, A, s =>
    let one := A.append grow s name
    let below := children.walk grow one.1 one.2
    let beside := siblings.walk grow below.1 s
    (beside.1, (one.2, id) :: (below.2 ++ beside.2))

/-- No node appends two children to a slice that has room. -/
def Unshared (grow : Nat → Nat) (d : Nat) : Forest ι α → Prop
  | nil => True
  | cons _ _ children siblings =>
    (d < capAt grow d → siblings = nil) ∧ children.Unshared grow (d + 1) ∧ siblings.Unshared grow d

instance Unshared.decidable [DecidableEq ι] [DecidableEq α] :
    ∀ (d : Nat) (f : Forest ι α), Decidable (f.Unshared grow d)
  | _, nil => isTrue trivial
  | d, cons _ _ children siblings =>
    have := Unshared.decidable (d + 1) children
    have := Unshared.decidable d siblings
    inferInstanceAs (Decidable ((d < capAt grow d → siblings = nil) ∧
      children.Unshared grow (d + 1) ∧ siblings.Unshared grow d))

lemma walk_ids (A : Arrays α) (s : Slice) : (f.walk grow A s).2.map (·.2) = f.ids := by
  induction f generalizing A s with
  | nil => rfl
  | cons id name children siblings ihc ihs => simp [walk, ids, ihc, ihs]

lemma walk_next (A : Arrays α) (s : Slice) : A.next ≤ (f.walk grow A s).1.next := by
  induction f generalizing A s with
  | nil => exact le_rfl
  | cons id name children siblings ihc ihs =>
    exact (Arrays.append_next grow A s name).trans ((ihc _ _).trans (ihs _ _))

lemma walk_frame (hq : q.array < A.next) (h : q.array ≠ s.array ∨ q.len ≤ s.len) :
    (f.walk grow A s).1.read q = A.read q := by
  induction f generalizing A s with
  | nil => rfl
  | cons id name children siblings ihc ihs =>
    have hq1 := hq.trans_le (Arrays.append_next grow A s name)
    have hone : q.array ≠ (A.append grow s name).2.array ∨ q.len ≤ (A.append grow s name).2.len := by
      obtain ⟨hlen, -, harr⟩ := Arrays.append_header grow A s name
      rw [hlen, harr]
      split
      · exact h.imp_right (by omega)
      · exact .inl (by omega)
    calc _ = (children.walk grow (A.append grow s name).1 (A.append grow s name).2).1.read q :=
          ihs (hq1.trans_le (walk_next grow _ _ _)) h
      _ = (A.append grow s name).1.read q := ihc hq1 hone
      _ = A.read q := Arrays.append_frame grow hq h

/-- The arrays a walk uses: that of `s` if it has room, else only new ones. -/
lemma walk_arrays (hs : s.array < A.next) :
    ∀ p ∈ (f.walk grow A s).2, p.1.array < (f.walk grow A s).1.next ∧
      (p.1.array = s.array ∧ s.len < s.cap ∨ A.next ≤ p.1.array) := by
  induction f generalizing A s with
  | nil => simp [walk]
  | cons id name children siblings ihc ihs =>
    intro p hp
    have hone := Arrays.append_array_lt grow name hs
    have hnext := Arrays.append_next grow A s name
    have hbelow := walk_next grow children (A.append grow s name).1 (A.append grow s name).2
    have hall := walk_next grow siblings (children.walk grow (A.append grow s name).1 (A.append grow s name).2).1 s
    have harr := (Arrays.append_header grow A s name).2.2
    simp only [walk, mem_cons, mem_append] at hp ⊢
    obtain rfl | hp | hp := hp
    · refine ⟨hone.trans_le (hbelow.trans hall), ?_⟩
      rw [harr]
      split <;> simp_all
    · obtain ⟨hlt, heq | hge⟩ := ihc hone p hp
      · refine ⟨by omega, ?_⟩
        rw [heq.1, harr]
        split <;> simp_all
      · exact ⟨by omega, .inr (by omega)⟩
    obtain ⟨hlt, heq | hge⟩ := ihs (by omega) p hp
    · exact ⟨hlt, .inl heq⟩
    · exact ⟨hlt, .inr (by omega)⟩

/-- The headers that a walk without sharing collects read the paths of their nodes. -/
theorem walk_reads (hs : s.array < A.next) (hcap : s.cap = capAt grow s.len)
    (hf : f.Unshared grow s.len) :
    (f.walk grow A s).2.map (fun p => ((f.walk grow A s).1.read p.1, p.2)) = f.paths (A.read s) := by
  induction f generalizing A s with
  | nil => rfl
  | cons id name children siblings ihc ihs =>
    obtain ⟨hroom, hchildren, hsiblings⟩ := hf
    have hone := Arrays.append_array_lt grow name hs
    obtain ⟨hlen, hcap1, harr⟩ := Arrays.append_header grow A s name
    have hreads := Arrays.append_reads grow A s name
    have hnext := Arrays.append_next grow A s name
    have hs1 : s.array < (A.append grow s name).1.next := hs.trans_le hnext
    have hbase := Arrays.append_frame grow (x := name) hs (.inr (le_refl s.len))
    simp only [walk, paths, map_cons, map_append]
    generalize A.append grow s name = one at *
    have hbelow := ihc hone (by rw [hcap1, hlen, capAt, hcap]) (by rwa [hlen])
    have hframe := walk_frame grow children hone (.inr le_rfl)
    have hbefore := walk_frame grow (q := s) (s := one.2) children hs1 (.inr (by omega))
    have harrays := walk_arrays grow children hone
    have hgrows := walk_next grow children one.1 one.2
    have hsib := ihs (hs1.trans_le hgrows) hcap hsiblings
    generalize hc : children.walk grow one.1 one.2 = below at *
    -- The walk over the siblings does not reach the slices collected so far.
    have hkeep : ∀ q, q.array < below.1.next → (q.array = one.2.array ∨ one.1.next ≤ q.array) →
        (siblings.walk grow below.1 s).1.read q = below.1.read q := by
      intro q hlt hq
      by_cases hfull : s.len < s.cap
      · rw [hroom (hcap ▸ hfull)]
        rfl
      rw [if_neg hfull] at harr
      exact walk_frame grow _ hlt (.inl (by omega))
    congr 1
    · rw [hkeep one.2 (hone.trans_le hgrows) (.inl rfl), hframe, hreads]
    congr 1
    · rw [← hreads, ← hbelow]
      refine map_congr_left fun p hp => ?_
      obtain ⟨hlt, hp⟩ := harrays p hp
      rw [hkeep p.1 hlt (hp.imp_left And.left)]
    · rw [hsib, hbefore, hbase]

end Forest

end FastOrchestration.Lib
