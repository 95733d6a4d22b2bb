import FastOrchestration.Lib.SortedMap

/-!
# The fairness counter

Model of `service/matching/counter`: the exact `mapCounter`, the count-min sketch, and the hybrid, which
moves the counts of its map into a sketch when the map is too large. Left out is the growing of a sketch,
with the counts of calls and skips that decide on it. The hash is any function of row and key; the code
reduces it to 32 bits, so that an index is in its row.
-/

namespace FastOrchestration.Matching

open List Lib SortedMap

variable {κ : Type}

def maxInt64 : Int := 2 ^ 63 - 1

structure PassCall (κ : Type) where
  key : κ
  base : Int
  inc : Int

structure CMSketch (κ : Type) where
  hash : Nat → κ → Nat
  d : Nat
  w : Nat
  cells : Nat → Int

namespace CMSketch

variable (s : CMSketch κ)

/-- Go `fillIndexes`. -/
def indexes (key : κ) : List Nat := (range s.d).map fun i => i * s.w + s.hash i key * s.w / 2 ^ 32

def getByIndexes (indexes : List Nat) : Int :=
  indexes.foldl (fun minVal idx => min minVal (s.cells idx)) maxInt64

def ensureByIndexes (indexes : List Nat) (target : Int) : CMSketch κ :=
  { s with cells := indexes.foldl (fun cells idx =>
      if cells idx < target then Function.update cells idx target else cells) s.cells }

def getPass (c : PassCall κ) : Int × CMSketch κ :=
  if c.inc < 0 then (c.base, s)
  else
    let indexes := s.indexes c.key
    let pass := max c.base (s.getByIndexes indexes + c.inc)
    (pass, s.ensureByIndexes indexes pass)

def count (key : κ) : Int := s.getByIndexes (s.indexes key)

variable {s}

lemma le_getByIndexes {is a} : a ≤ s.getByIndexes is ↔ a ≤ maxInt64 ∧ ∀ i ∈ is, a ≤ s.cells i := by
  unfold getByIndexes
  generalize maxInt64 = start
  induction is generalizing start with
  | nil => simp
  | cons i is ih => simp [ih, and_assoc]

lemma le_ensureByIndexes {is target} (i) : s.cells i ≤ (s.ensureByIndexes is target).cells i ∧
    (i ∈ is → target ≤ (s.ensureByIndexes is target).cells i) := by
  unfold ensureByIndexes
  generalize s.cells = cells
  induction is generalizing cells with
  | nil => simp
  | cons j is ih =>
    simp only [foldl_cons]
    split
    · next hlt =>
      obtain ⟨hle, hmem⟩ := ih (Function.update cells j target)
      rcases eq_or_ne i j with rfl | hne
      · rw [Function.update_self] at hle
        exact ⟨hlt.le.trans hle, fun _ => hle⟩
      rw [Function.update_of_ne hne] at hle
      exact ⟨hle, fun hi => hmem ((mem_cons.mp hi).resolve_left hne)⟩
    next hge =>
    obtain ⟨hle, hmem⟩ := ih cells
    refine ⟨hle, fun hi => ?_⟩
    obtain rfl | hi := mem_cons.mp hi
    · exact (not_lt.mp hge).trans hle
    · exact hmem hi

variable [LinearOrder κ]

lemma getPass_spec {c} (hinc : 0 ≤ c.inc) :
    (s.getPass c).1 = max c.base (s.count c.key + c.inc) ∧ ((s.getPass c).1 ≤ maxInt64 →
      ∀ k, (if k = c.key then (s.getPass c).1 else s.count k) ≤ (s.getPass c).2.count k) := by
  rw [getPass, if_neg hinc.not_gt]
  refine ⟨rfl, fun hle k => ?_⟩
  split
  · next heq =>
    rw [heq]
    exact le_getByIndexes.mpr ⟨hle, fun i hi => (le_ensureByIndexes i).2 hi⟩
  obtain ⟨hmax, hcells⟩ := le_getByIndexes.mp (le_refl (s.count k))
  exact le_getByIndexes.mpr ⟨hmax, fun i hi => (hcells i hi).trans (le_ensureByIndexes i).1⟩

end CMSketch

variable [LinearOrder κ]

abbrev MapCounter (κ : Type) [LinearOrder κ] : Type := SortedMap κ Int

namespace MapCounter

def count (m : MapCounter κ) (key : κ) : Int := (m.get? key).getD 0

def getPass (m : MapCounter κ) (c : PassCall κ) : Int × MapCounter κ :=
  let pass := max c.base (count m c.key + c.inc)
  (pass, m.put c.key pass)

lemma count_put {m : MapCounter κ} {key v} (k) : count (m.put key v) k = if k = key then v else count m k := by
  have hget : (m.put key v).get? k = if k = key then some v else m.get? k := by
    ext w
    rw [get?_eq_some, mem_put]
    split
    · simp_all [eq_comm]
    · simp_all [get?_eq_some]
  rw [count, hget]
  split <;> rfl

end MapCounter

structure CounterParams (κ : Type) where
  mapLimit : Int
  w : Nat
  d : Nat
  hash : Nat → κ → Nat
  /-- The order in which Go iterates over a map. -/
  order : List (κ × Int) → List (κ × Int)
  order_perm : ∀ l, (order l).Perm l

inductive HybridCounter (κ : Type) [LinearOrder κ] where
  | map (m : MapCounter κ)
  | cms (s : CMSketch κ)

def passes {σ : Type} (getPass : σ → PassCall κ → Int × σ) : σ → List (PassCall κ) → List (PassCall κ × Int)
  | _, [] => []
  | s, c :: calls => (c, (getPass s c).1) :: passes getPass (getPass s c).2 calls

namespace HybridCounter

variable (p : CounterParams κ)

def newCMSketchCounter : CMSketch κ := ⟨p.hash, max 2 p.d, max 2 p.w, fun _ => 0⟩

def migrateToCMS (m : MapCounter κ) : CMSketch κ :=
  (p.order m.entries).foldl (fun s e => (s.getPass ⟨e.1, e.2, 0⟩).2) (newCMSketchCounter p)

def getPass : HybridCounter κ → PassCall κ → Int × HybridCounter κ
  | .map m, c =>
    let (pass, m) := MapCounter.getPass m c
    (pass, if p.mapLimit < m.entries.length then .cms (migrateToCMS p m) else .map m)
  | .cms s, c =>
    let (pass, s) := s.getPass c
    (pass, .cms s)

/-- What the next pass of a key starts from. -/
def count : HybridCounter κ → κ → Int
  | .map m => MapCounter.count m
  | .cms s => s.count

variable {p} {m : MapCounter κ} {h : HybridCounter κ}

lemma le_foldl_getPass {es : List (κ × Int)} (hes : ∀ e ∈ es, e.2 ≤ maxInt64) {s : CMSketch κ} :
    (∀ k, s.count k ≤ (es.foldl (fun s e => (s.getPass ⟨e.1, e.2, 0⟩).2) s).count k) ∧
      ∀ e ∈ es, e.2 ≤ (es.foldl (fun s e => (s.getPass ⟨e.1, e.2, 0⟩).2) s).count e.1 := by
  induction es generalizing s with
  | nil => simp
  | cons e es ih =>
    obtain ⟨hle, hes⟩ := forall_mem_cons.mp hes
    obtain ⟨hpass, hkeeps⟩ := @CMSketch.getPass_spec _ s _ ⟨e.1, e.2, 0⟩ le_rfl
    obtain ⟨hall, hin⟩ := @ih hes (s.getPass ⟨e.1, e.2, 0⟩).2
    have hcount : s.count e.1 ≤ maxInt64 := (CMSketch.le_getByIndexes.mp le_rfl).1
    rw [hpass] at hkeeps
    have hnext := hkeeps (by simp [hle, hcount])
    refine ⟨fun k => le_trans ?_ (hall k), forall_mem_cons.mpr ⟨?_, hin⟩⟩
    · refine le_trans ?_ (hnext k)
      split
      · next heq => simp [heq]
      · exact le_rfl
    have := hnext e.1
    rw [if_pos rfl] at this
    exact ((le_max_left ..).trans this).trans (hall e.1)

lemma count_le_migrateToCMS (hle : ∀ k, MapCounter.count m k ≤ maxInt64) (k) :
    MapCounter.count m k ≤ (migrateToCMS p m).count k := by
  have hes : ∀ e ∈ p.order m.entries, e.2 ≤ maxInt64 := by
    intro e he
    have hget := get?_eq_some.mpr ((p.order_perm _).mem_iff.mp he)
    simpa [MapCounter.count, hget] using hle e.1
  obtain ⟨hall, hin⟩ := @le_foldl_getPass _ _ _ hes (newCMSketchCounter p)
  cases hget : m.get? k with
  | none =>
    simp only [MapCounter.count, hget, Option.getD_none]
    exact (CMSketch.le_getByIndexes.mpr ⟨by decide, fun _ _ => le_rfl⟩).trans (hall k)
  | some v =>
    simp only [MapCounter.count, hget, Option.getD_some]
    exact hin (k, v) ((p.order_perm _).mem_iff.mpr (get?_eq_some.mp hget))

lemma getPass_spec {c} (hinc : 0 ≤ c.inc) (hle : ∀ k, h.count k ≤ maxInt64) :
    (getPass p h c).1 = max c.base (h.count c.key + c.inc) ∧ ((getPass p h c).1 ≤ maxInt64 →
      ∀ k, (if k = c.key then (getPass p h c).1 else h.count k) ≤ (getPass p h c).2.count k ∧
        (getPass p h c).2.count k ≤ maxInt64) := by
  cases h with
  | cms s =>
    obtain ⟨hpass, hkeeps⟩ := @CMSketch.getPass_spec _ s _ c hinc
    exact ⟨hpass, fun hfits k => ⟨hkeeps hfits k, (CMSketch.le_getByIndexes.mp le_rfl).1⟩⟩
  | map m =>
    refine ⟨rfl, fun hfits k => ?_⟩
    have hput : ∀ k, MapCounter.count (MapCounter.getPass m c).2 k ≤ maxInt64 := by
      intro k
      rw [MapCounter.getPass, MapCounter.count_put]
      split
      · exact hfits
      · exact hle k
    simp only [getPass]
    rw [count, ← MapCounter.count_put]
    split
    · exact ⟨count_le_migrateToCMS hput k, (CMSketch.le_getByIndexes.mp le_rfl).1⟩
    · exact ⟨le_rfl, hput k⟩

/-- A pass is at least its base and the exact one, and beyond those before it of the same key by its
increment. -/
structure OverApproximates (p : CounterParams κ) (h : HybridCounter κ) (m : MapCounter κ)
    (calls : List (PassCall κ)) : Prop where
  base : ∀ x ∈ passes (getPass p) h calls, x.1.base ≤ x.2
  exact : Forall₂ (fun x y => y.2 ≤ x.2) (passes (getPass p) h calls) (passes MapCounter.getPass m calls)
  apart : (passes (getPass p) h calls).Pairwise fun x y => x.1.key = y.1.key → x.2 + y.1.inc ≤ y.2

lemma overApproximates_of_count {calls} (hinc : ∀ c ∈ calls, 0 ≤ c.inc)
    (hfits : ∀ x ∈ passes (getPass p) h calls, x.2 ≤ maxInt64) (hle : ∀ k, h.count k ≤ maxInt64)
    (hcount : ∀ k, MapCounter.count m k ≤ h.count k) : OverApproximates p h m calls ∧
      ∀ x ∈ passes (getPass p) h calls, h.count x.1.key + x.1.inc ≤ x.2 := by
  induction calls generalizing h m with
  | nil => exact ⟨⟨nofun, .nil, .nil⟩, nofun⟩
  | cons c calls ih =>
    obtain ⟨hc, hinc⟩ := forall_mem_cons.mp hinc
    obtain ⟨hfit, hfits⟩ := forall_mem_cons.mp hfits
    obtain ⟨hpass, hnext⟩ := getPass_spec (p := p) hc hle
    have hnext := hnext hfit
    have hexact : (MapCounter.getPass m c).1 ≤ (getPass p h c).1 := by
      rw [hpass]
      exact max_le_max le_rfl (add_le_add (hcount c.key) le_rfl)
    have hcount' : ∀ k, MapCounter.count (MapCounter.getPass m c).2 k ≤ (getPass p h c).2.count k := by
      intro k
      refine le_trans ?_ (hnext k).1
      rw [MapCounter.getPass, MapCounter.count_put]
      split
      · exact hexact
      · exact hcount k
    have hmono : ∀ k, h.count k ≤ (getPass p h c).2.count k := by
      intro k
      refine le_trans ?_ (hnext k).1
      split
      · next heq =>
        rw [hpass, heq]
        omega
      · exact le_rfl
    obtain ⟨⟨hbase, hle', hapart⟩, hafter⟩ := ih hinc hfits (fun k => (hnext k).2) hcount'
    have hkeep := (hnext c.key).1
    rw [if_pos rfl] at hkeep
    refine ⟨⟨forall_mem_cons.mpr ⟨?_, hbase⟩, .cons hexact hle',
      pairwise_cons.mpr ⟨fun y hy heq => ?_, hapart⟩⟩, forall_mem_cons.mpr ⟨?_, fun x hx => ?_⟩⟩
    · exact hpass ▸ le_max_left ..
    · exact (add_le_add (heq ▸ hkeep) le_rfl).trans (hafter y hy)
    · exact hpass ▸ le_max_right ..
    · exact (add_le_add (hmono _) le_rfl).trans (hafter x hx)

theorem hybrid_overApproximates (p : CounterParams κ) (calls : List (PassCall κ)) (hinc : ∀ c ∈ calls, 0 ≤ c.inc)
    (hfits : ∀ x ∈ passes (getPass p) (.map .empty) calls, x.2 ≤ maxInt64) :
    OverApproximates p (.map .empty) .empty calls :=
  (overApproximates_of_count hinc hfits (fun _ => (by decide : (0 : Int) ≤ maxInt64)) fun _ => le_rfl).1

/-- The second key moves the counts to a sketch in which it shares its cells with the first. -/
theorem hybrid_overApproximates_shared : (passes (getPass ⟨1, 2, 2, fun _ _ => 0, id, fun _ => .refl _⟩) (.map .empty)
      [⟨0, 5, 1⟩, ⟨1, 0, 2⟩, ⟨1, 0, 2⟩]).map (·.2) = [5, 2, 7] ∧
    OverApproximates ⟨1, 2, 2, fun _ _ => 0, id, fun _ => .refl _⟩ (.map .empty) .empty
      [⟨(0 : Nat), 5, 1⟩, ⟨1, 0, 2⟩, ⟨1, 0, 2⟩] :=
  ⟨by decide +kernel, hybrid_overApproximates _ _ (by decide) (by decide +kernel)⟩

end HybridCounter

end FastOrchestration.Matching
