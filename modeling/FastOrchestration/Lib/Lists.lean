import Mathlib

/-!
# Lists and loops over them

## The least of the keys that a loop sees

A loop that keeps the smaller of what it has and the key of the next element, if the element has a key. In the dual
order the same rule is about loops that keep the largest.
-/

namespace FastOrchestration.Lib

open List

universe u v

lemma foldl_least {α : Type u} {κ : Type v} [LinearOrder κ] {f : κ → α → κ} (key : α → Option κ)
    (hf : ∀ m e, f m e = (key e).elim m (min m)) (es : List α) (a : κ) :
    (∀ w, w ≤ es.foldl f a ↔ w ≤ a ∧ ∀ e ∈ es, ∀ k ∈ key e, w ≤ k) ∧
      (es.foldl f a = a ∨ ∃ e ∈ es, key e = some (es.foldl f a)) := by
  induction es generalizing a with
  | nil => exact ⟨fun w => by simp, .inl rfl⟩
  | cons e es ih =>
    obtain ⟨hle, hmem⟩ := ih (f a e)
    rw [foldl_cons]
    refine ⟨fun w => ?_, ?_⟩
    · rw [hle, hf, forall_mem_cons, ← and_assoc]
      cases key e <;> simp
    obtain h | ⟨e', he', h⟩ := hmem
    · rw [h, hf]
      cases hkey : key e with
      | none => exact .inl rfl
      | some k => exact (min_choice a k).imp_right fun hk => ⟨e, mem_cons_self, hkey.trans (congrArg some hk.symm)⟩
    · exact .inr ⟨e', mem_cons_of_mem _ he', h⟩

/-!
## Matching two lists of equal length

A pigeonhole principle for lists and a relation between their elements. If every element of the
first list is related to some element of the second, no element of the second is related to two of
the first, and the second is not longer, then every element of the second is related to some element
of the first.
-/

variable {α : Type u} {β : Type v} {R : α → β → Prop}

theorem matched_of_length_le {xs : List α} {ys : List β}
    (matched : ∀ x ∈ xs, ∃ y ∈ ys, R x y) (distinct : xs.Pairwise fun a b => ∀ y, ¬ (R a y ∧ R b y))
    (len : ys.length ≤ xs.length) : ∀ y ∈ ys, ∃ x ∈ xs, R x y := by
  induction xs generalizing ys with
  | nil =>
    intro y hy
    rw [List.length_eq_zero_iff.mp (Nat.le_zero.mp len)] at hy
    cases hy
  | cons x xs ih =>
    obtain ⟨y0, hy0, hx⟩ := matched x (by simp)
    obtain ⟨l, r, rfl⟩ := List.append_of_mem hy0
    obtain ⟨hne, hdist⟩ := List.pairwise_cons.mp distinct
    -- the other elements cannot use `y0`, so they are matched in the list without it
    have rest : ∀ x' ∈ xs, ∃ y ∈ l ++ r, R x' y := by
      intro x' hx'
      obtain ⟨y, hy, hR⟩ := matched x' (by simp [hx'])
      have hyne : y ≠ y0 := by
        rintro rfl
        exact hne x' hx' y ⟨hx, hR⟩
      refine ⟨y, ?_, hR⟩
      simpa [hyne] using hy
    have hlen : (l ++ r).length ≤ xs.length := by
      simp only [List.length_append, List.length_cons] at len ⊢
      omega
    intro y hy
    by_cases hyy : y = y0
    · exact ⟨x, by simp, hyy ▸ hx⟩
    obtain ⟨x', hx', hR⟩ := ih rest hdist hlen y (by simpa [hyy] using hy)
    exact ⟨x', by simp [hx'], hR⟩

end FastOrchestration.Lib
