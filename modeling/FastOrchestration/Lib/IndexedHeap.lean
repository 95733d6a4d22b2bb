import Mathlib

/-!
# Binary heaps whose items know their position

Go's `container/heap` over a slice of items, each with a field for its position in the slice. The
field is written by `Swap`, `Push` and `Pop` only, so it is part of the heap here: `index` has it for
all items, those that are not in the heap included. An item can be removed from the middle by its
position, which is right as long as the positions are (`Indexed`).

`Rearranged n` says what a loop of the package does to a heap: it moves the items before `n` and keeps
their positions right. `push_spec`, `remove_spec` and `filterInit_spec` follow from it. That no item is less
than its parent (`Heaped`) is kept by the same operations, and no item is less than any one above it.
-/

namespace FastOrchestration.Lib

open List Function

structure IndexedHeap (ι : Type) where
  items : List ι
  index : ι → Int

namespace IndexedHeap

variable {ι : Type} {h : IndexedHeap ι}

/-- Go `Less`. -/
def lessAt (less : ι → ι → Bool) (h : IndexedHeap ι) (i j : Nat) : Bool :=
  match h.items[i]?, h.items[j]? with
  | some a, some b => less a b
  | _, _ => false

/-- The child that `heap.down` looks at. -/
def child (less : ι → ι → Bool) (h : IndexedHeap ι) (i n : Nat) : Nat :=
  if 2 * i + 2 < n ∧ h.lessAt less (2 * i + 2) (2 * i + 1) then 2 * i + 2 else 2 * i + 1

lemma lt_child (less : ι → ι → Bool) (h : IndexedHeap ι) (i n : Nat) : i < h.child less i n := by
  unfold child
  split <;> omega

lemma child_lt (less : ι → ι → Bool) (h : IndexedHeap ι) {i n} (hlt : 2 * i + 1 < n) : h.child less i n < n := by
  unfold child
  split <;> omega

def Indexed (h : IndexedHeap ι) : Prop := ∀ (i : Nat) (a : ι), h.items[i]? = some a → h.index a = i

lemma Indexed.nodup (hi : h.Indexed) : h.items.Nodup := by
  rw [List.nodup_iff_injective_get]
  intro i j heq
  have hpos : ∀ k, h.index (h.items.get k) = k := fun k =>
    hi k _ (List.getElem?_eq_getElem k.isLt)
  have hij : (i : Int) = j := by rw [← hpos i, ← hpos j, heq]
  exact Fin.ext (by omega)

lemma Indexed.nonneg (hi : h.Indexed) {a} (ha : a ∈ h.items) :
    0 ≤ h.index a ∧ h.index a < h.items.length ∧ h.items[(h.index a).toNat]? = some a := by
  obtain ⟨i, hget⟩ := List.mem_iff_getElem?.mp ha
  have hlt := (List.getElem?_eq_some_iff.mp hget).1
  rw [hi i a hget]
  exact ⟨by omega, by omega, by simpa using hget⟩

/-- The items before `n` have moved, with their positions right again. -/
structure Rearranged (n : Nat) (h h' : IndexedHeap ι) : Prop where
  perm : h'.items.Perm h.items
  indexed : h'.Indexed
  outside : ∀ a, a ∉ h.items → h'.index a = h.index a
  from_n : ∀ k, n ≤ k → h'.items[k]? = h.items[k]?

lemma Rearranged.refl (hi : h.Indexed) (n : Nat) : Rearranged n h h :=
  ⟨.refl _, hi, fun _ _ => rfl, fun _ _ => rfl⟩

lemma Rearranged.trans {n : Nat} {h1 h2 h3 : IndexedHeap ι} (h : Rearranged n h1 h2)
    (h' : Rearranged n h2 h3) : Rearranged n h1 h3 :=
  ⟨h'.perm.trans h.perm, h'.indexed,
    fun a ha => (h'.outside a fun ha' => ha (h.perm.subset ha')).trans (h.outside a ha),
    fun k hk => (h'.from_n k hk).trans (h.from_n k hk)⟩

variable [DecidableEq ι]

/-- Go `Swap`, on positions in range. -/
def swap (h : IndexedHeap ι) (i j : Nat) : IndexedHeap ι :=
  match h.items[i]?, h.items[j]? with
  | some a, some b =>
    ⟨(h.items.set i b).set j a, update (update h.index b i) a j⟩
  | _, _ => h

def up (less : ι → ι → Bool) (h : IndexedHeap ι) (j : Nat) : IndexedHeap ι :=
  let i := (j - 1) / 2
  if _hlt : i < j ∧ h.lessAt less j i then up less (h.swap i j) i else h
termination_by j

/-- Go `heap.down`, with the position where it stops. -/
def down (less : ι → ι → Bool) (h : IndexedHeap ι) (i n : Nat) : IndexedHeap ι × Nat :=
  if _hlt : 2 * i + 1 < n then
    if h.lessAt less (h.child less i n) i then
      down less (h.swap i (h.child less i n)) (h.child less i n) n
    else (h, i)
  else (h, i)
termination_by n - i
decreasing_by
  have hgt := h.lt_child less i n
  omega

def init (less : ι → ι → Bool) (h : IndexedHeap ι) : IndexedHeap ι :=
  (List.range (h.items.length / 2)).reverse.foldl (fun h i => (h.down less i h.items.length).1) h

def push (less : ι → ι → Bool) (h : IndexedHeap ι) (a : ι) : IndexedHeap ι :=
  up less ⟨h.items ++ [a], update h.index a h.items.length⟩ h.items.length

/-- Go `Pop`: the last item leaves and gets an index that is none. There is a panic without one. -/
def popLast (invalid : Int) (h : IndexedHeap ι) : Option (ι × IndexedHeap ι) :=
  h.items.getLast?.map fun a => (a, ⟨h.items.dropLast, update h.index a invalid⟩)

/-- The heap before `heap.Remove` pops its last item. -/
def sinkToEnd (less : ι → ι → Bool) (h : IndexedHeap ι) (i n : Nat) : IndexedHeap ι :=
  let sunk := (h.swap i n).down less i n
  if i < sunk.2 then sunk.1 else sunk.1.up less i

/-- Go `heap.Remove` with the item that it pops; `none` is the panic on a position out of range. -/
def remove (less : ι → ι → Bool) (invalid : Int) (h : IndexedHeap ι) (i : Int) :
    Option (ι × IndexedHeap ι) :=
  if 0 ≤ i ∧ i < h.items.length then
    let n := h.items.length - 1
    if n ≠ i.toNat then (h.sinkToEnd less i.toNat n).popLast invalid else h.popLast invalid
  else none

/-- The items that satisfy `keep`, with their positions written anew, and `out` for the others. -/
def filterInit (less : ι → ι → Bool) (out : Int) (h : IndexedHeap ι) (keep : ι → Bool) :
    IndexedHeap ι :=
  let kept := h.items.filter keep
  let cleared := h.items.foldl (fun index a => if keep a then index else update index a out) h.index
  init less ⟨kept, kept.zipIdx.foldl (fun index p => update index p.1 p.2) cleared⟩

/-! ## Positions -/

lemma swap_rearranged (hi : h.Indexed) {i j n} (hin : i < n) (hjn : j < n) : Rearranged n h (h.swap i j) := by
  unfold swap
  split
  · rename_i a b ha hb
    obtain ⟨hil, rfl⟩ := List.getElem?_eq_some_iff.mp ha
    obtain ⟨hjl, rfl⟩ := List.getElem?_eq_some_iff.mp hb
    have hinj : ∀ {k l : Nat} (hk : k < h.items.length) (hl : l < h.items.length),
        h.items[k] = h.items[l] → k = l := fun hk hl heq =>
      (List.Nodup.getElem_inj_iff hi.nodup).mp heq
    refine ⟨set_set_perm hil hjl, fun k c hk => ?_, fun c hc => ?_, fun k hk => ?_⟩
    · simp only [getElem?_set, length_set] at hk
      split at hk
      · -- the second position
        rename_i hjk
        cases hk
        dsimp only
        rw [update_self, hjk]
      rename_i hjk
      split at hk
      · rename_i hik
        cases hk
        dsimp only
        rw [update_of_ne, update_self, hik]
        exact fun heq => hjk ((hinj hjl hil heq).trans hik)
      rename_i hik
      obtain ⟨hkl, rfl⟩ := List.getElem?_eq_some_iff.mp hk
      dsimp only
      rw [update_of_ne, update_of_ne]
      · exact hi k _ hk
      · exact fun heq => hjk (hinj hkl hjl heq).symm
      · exact fun heq => hik (hinj hkl hil heq).symm
    · dsimp only
      rw [update_of_ne, update_of_ne]
      · rintro rfl
        exact hc (getElem_mem hjl)
      rintro rfl
      exact hc (getElem_mem hil)
    · rw [getElem?_set_ne (by omega), getElem?_set_ne (by omega)]
  · exact .refl hi n

section

variable (less : ι → ι → Bool) (invalid : Int) (hi : h.Indexed)

include less hi

lemma up_rearranged {j n} (hjn : j < n) : Rearranged n h (h.up less j) := by
  fun_induction up less h j with
  | case1 h j i hlt ih =>
    have hswap := swap_rearranged (i := i) hi (by omega) hjn
    exact hswap.trans (ih hswap.indexed (by omega))
  | case2 h j i hnot => exact .refl hi n

lemma down_rearranged {i n} (hin : i < n) : Rearranged n h (h.down less i n).1 := by
  fun_induction down less h i n with
  | case1 h i hlt hless ih =>
    have hswap := swap_rearranged hi hin (child_lt less h hlt)
    exact hswap.trans (ih hswap.indexed (child_lt less h hlt))
  | case2 h i hlt hless => exact .refl hi n
  | case3 h i hlt => exact .refl hi n

lemma init_rearranged : Rearranged h.items.length h (h.init less) := by
  have loop : ∀ (positions : List Nat) (h' : IndexedHeap ι), (∀ i ∈ positions, i < h.items.length) →
      Rearranged h.items.length h h' →
      Rearranged h.items.length h (positions.foldl (fun h i => (h.down less i h.items.length).1) h') := by
    intro positions
    induction positions with
    | nil => exact fun h' _ hr => hr
    | cons i positions ih =>
      intro h' hlt hr
      refine ih _ (fun j hj => hlt j (mem_cons_of_mem _ hj)) (hr.trans ?_)
      rw [← hr.perm.length_eq]
      refine down_rearranged less hr.indexed ?_
      rw [hr.perm.length_eq]
      exact hlt i mem_cons_self
  refine loop _ h (fun i hmem => ?_) (.refl hi _)
  rw [mem_reverse, mem_range] at hmem
  omega

/-! ## The operations -/

lemma push_spec {a} (ha : a ∉ h.items) : (h.push less a).items.Perm (a :: h.items) ∧ (h.push less a).Indexed ∧
      ∀ b, b ≠ a → b ∉ h.items → (h.push less a).index b = h.index b := by
  have happended : Indexed ⟨h.items ++ [a], update h.index a h.items.length⟩ := by
    intro i b hget
    dsimp only at hget ⊢
    rw [getElem?_append] at hget
    split at hget
    · have hb : b ≠ a := fun heq => ha (heq ▸ mem_of_getElem? hget)
      rw [update_of_ne hb]
      exact hi i b hget
    have hpos : i - h.items.length = 0 := by
      have hlt := (List.getElem?_eq_some_iff.mp hget).1
      rw [length_singleton] at hlt
      omega
    rw [hpos] at hget
    cases hget
    rw [update_self]
    omega
  have hup := up_rearranged less happended (j := h.items.length) (n := h.items.length + 1) (by omega)
  refine ⟨hup.perm.trans (perm_append_singleton a h.items), hup.indexed, fun b hb hnot => ?_⟩
  refine (hup.outside b ?_).trans (update_of_ne hb _ _)
  simp [hb, hnot]

omit less in
lemma popLast_spec {a} (hlast : h.items.getLast? = some a) :
    ∃ h', h.popLast invalid = some (a, h') ∧ (a :: h'.items).Perm h.items ∧ h'.Indexed ∧
      h'.index a = invalid ∧ ∀ b, b ≠ a → h'.index b = h.index b := by
  have hsplit : h.items.dropLast ++ [a] = h.items := dropLast_append_getLast? a hlast
  have hnodup := hi.nodup
  rw [← hsplit] at hnodup
  have hnot : a ∉ h.items.dropLast := fun ha =>
    (nodup_append.mp hnodup).2.2 a ha a (mem_singleton_self a) rfl
  refine ⟨⟨h.items.dropLast, update h.index a invalid⟩, by rw [popLast, hlast]; rfl, ?_,
    fun i b hget => ?_, update_self _ _ _, fun b hb => update_of_ne hb _ _⟩
  · nth_rewrite 2 [← hsplit]
    exact (perm_append_singleton a _).symm
  have hb : b ≠ a := fun heq => hnot (heq ▸ mem_of_getElem? hget)
  refine (update_of_ne hb _ _).trans (hi i b ?_)
  rw [← hsplit, List.getElem?_append_left (List.getElem?_eq_some_iff.mp hget).1]
  exact hget

lemma sinkToEnd_spec {i a} (hget : h.items[i]? = some a) (hlt : i < h.items.length - 1) :
    Rearranged h.items.length h (h.sinkToEnd less i (h.items.length - 1)) ∧
      (h.sinkToEnd less i (h.items.length - 1)).items.getLast? = some a := by
  have hswap := swap_rearranged (n := h.items.length) hi (show i < h.items.length by omega)
    (show h.items.length - 1 < h.items.length by omega)
  have hdown := down_rearranged less hswap.indexed hlt
  -- the loops leave the last position alone
  have hloop : Rearranged (h.items.length - 1) (h.swap i (h.items.length - 1))
      (h.sinkToEnd less i (h.items.length - 1)) := by
    unfold sinkToEnd
    dsimp only
    split
    · exact hdown
    · exact hdown.trans (up_rearranged less hdown.indexed hlt)
  refine ⟨hswap.trans ⟨hloop.perm, hloop.indexed, hloop.outside, fun k hk =>
    hloop.from_n k (by omega)⟩, ?_⟩
  have hlen := hloop.perm.length_eq.trans hswap.perm.length_eq
  rw [getLast?_eq_getElem?, hlen, hloop.from_n _ (Nat.le_refl _)]
  have hlast : h.items[h.items.length - 1]? = some h.items[h.items.length - 1] :=
    getElem?_eq_getElem (by omega)
  simp only [swap, hget, hlast]
  rw [getElem?_set_self]
  rw [length_set]
  omega

lemma remove_spec {a} (ha : a ∈ h.items) : ∃ h', h.remove less invalid (h.index a) = some (a, h') ∧
      (a :: h'.items).Perm h.items ∧ h'.Indexed ∧ h'.index a = invalid ∧
      ∀ b, b ∉ h.items → h'.index b = h.index b := by
  obtain ⟨hnonneg, hlt, hget⟩ := hi.nonneg ha
  have hpop : ∀ h1, Rearranged h.items.length h h1 → h1.items.getLast? = some a →
      ∃ h', h1.popLast invalid = some (a, h') ∧ (a :: h'.items).Perm h.items ∧ h'.Indexed ∧
        h'.index a = invalid ∧ ∀ b, b ∉ h.items → h'.index b = h.index b := by
    intro h1 hr hlast
    obtain ⟨h', hpopped, hperm, hindexed, hinvalid, hothers⟩ := popLast_spec invalid hr.indexed hlast
    refine ⟨h', hpopped, hperm.trans hr.perm, hindexed, hinvalid, fun b hb => ?_⟩
    exact (hothers b fun heq => hb (heq ▸ ha)).trans (hr.outside b hb)
  unfold remove
  rw [if_pos ⟨hnonneg, hlt⟩]
  dsimp only
  split
  · rename_i hne
    obtain ⟨hr, hlast⟩ := sinkToEnd_spec less hi hget (by omega)
    exact hpop _ hr hlast
  rename_i heq
  refine hpop h (.refl hi _) ?_
  rwa [getLast?_eq_getElem?, not_not.mp heq]

/-! ## Lengths -/

omit hi

omit less in
lemma swap_length (h : IndexedHeap ι) (i j : Nat) : (h.swap i j).items.length = h.items.length := by
  unfold swap
  split
  · rw [length_set, length_set]
  · rfl

lemma up_length (h : IndexedHeap ι) (j : Nat) : (h.up less j).items.length = h.items.length := by
  fun_induction up less h j with
  | case1 h j i hlt ih => rw [ih, swap_length]
  | case2 => rfl

lemma down_length (h : IndexedHeap ι) (i n : Nat) : (h.down less i n).1.items.length = h.items.length := by
  fun_induction down less h i n with
  | case1 h i hlt hless ih => rw [ih, swap_length]
  | case2 => rfl
  | case3 => rfl

lemma sinkToEnd_length (h : IndexedHeap ι) (i n : Nat) : (h.sinkToEnd less i n).items.length = h.items.length := by
  unfold sinkToEnd
  dsimp only
  split
  · rw [down_length, swap_length]
  · rw [up_length, down_length, swap_length]

end

lemma remove_length {less invalid} {h h' : IndexedHeap ι} {i a}
    (hr : h.remove less invalid i = some (a, h')) : h'.items.length + 1 = h.items.length := by
  have hpop : ∀ h1 : IndexedHeap ι, h1.items.length = h.items.length →
      h1.popLast invalid = some (a, h') → h'.items.length + 1 = h.items.length := by
    intro h1 hlen hp
    obtain ⟨b, hlast, heq⟩ := Option.map_eq_some_iff.mp hp
    cases heq
    have hne : h1.items ≠ [] := fun hnil => by simp [hnil] at hlast
    have hpos := length_pos_iff.mpr hne
    rw [length_dropLast, ← hlen]
    omega
  unfold remove at hr
  split at hr
  · dsimp only at hr
    split at hr
    · exact hpop _ (sinkToEnd_length less h _ _) hr
    · exact hpop h rfl hr
  · cases hr

/-! ## Filtering -/

lemma writePositions {items : List ι} (hnodup : items.Nodup) (k : Nat) (index : ι → Int) : (∀ i a, items[i]? = some a →
      (items.zipIdx k).foldl (fun index p => update index p.1 (p.2 : Int)) index a = (k + i : Nat)) ∧
    ∀ a, a ∉ items → (items.zipIdx k).foldl (fun index p => update index p.1 (p.2 : Int)) index a =
        index a := by
  induction items generalizing k index with
  | nil => exact ⟨fun i a h => by simp at h, fun _ _ => rfl⟩
  | cons b items ih =>
    obtain ⟨hb, hrest⟩ := nodup_cons.mp hnodup
    obtain ⟨hin, hout⟩ := ih hrest (k + 1) (update index b k)
    rw [zipIdx_cons, foldl_cons]
    refine ⟨fun i a hget => ?_, fun a ha => ?_⟩
    · cases i with
      | zero =>
        cases hget
        rw [hout b hb, update_self, Nat.add_zero]
      | succ i =>
        rw [hin i a hget]
        omega
    obtain ⟨hne, hnot⟩ := ne_and_not_mem_of_not_mem_cons ha
    rw [hout a hnot, update_of_ne hne]

lemma clearPositions (out : Int) (keep : ι → Bool) (items : List ι) (index : ι → Int) (a : ι) :
    items.foldl (fun index a => if keep a then index else update index a out) index a =
      if a ∈ items ∧ keep a = false then out else index a := by
  induction items generalizing index with
  | nil => simp
  | cons b items ih =>
    rw [foldl_cons, ih]
    by_cases hab : a = b
    · subst hab
      cases hk : keep a <;> simp
    have hindex : (if keep b then index else update index b out) a = index a := by
      split
      · rfl
      · exact update_of_ne hab _ _
    simp only [hindex, mem_cons, hab, false_or]

lemma filterInit_spec (less : ι → ι → Bool) (out : Int) (hi : h.Indexed) (keep : ι → Bool) :
    (h.filterInit less out keep).items.Perm (h.items.filter keep) ∧ (h.filterInit less out keep).Indexed ∧
      (∀ a ∈ h.items, keep a = false → (h.filterInit less out keep).index a = out) ∧
      ∀ a, a ∉ h.items → (h.filterInit less out keep).index a = h.index a := by
  obtain ⟨hin, hout⟩ := writePositions (hi.nodup.filter keep) 0
    (h.items.foldl (fun index a => if keep a then index else update index a out) h.index)
  have hwritten : Indexed ⟨h.items.filter keep, _⟩ := fun i a hget => by
    refine (hin i a hget).trans ?_
    rw [Nat.zero_add]
  have hinit := init_rearranged less hwritten
  refine ⟨hinit.perm, hinit.indexed, fun a ha hk => ?_, fun a ha => ?_⟩
  · have hnot : a ∉ h.items.filter keep := fun hmem => by simp [hk] at hmem
    refine (hinit.outside a hnot).trans ((hout a hnot).trans ?_)
    rw [clearPositions, if_pos ⟨ha, hk⟩]
  have hnot : a ∉ h.items.filter keep := fun hmem => ha (mem_of_mem_filter hmem)
  refine (hinit.outside a hnot).trans ((hout a hnot).trans ?_)
  rw [clearPositions, if_neg fun hmem => ha hmem.1]

end IndexedHeap

end FastOrchestration.Lib
