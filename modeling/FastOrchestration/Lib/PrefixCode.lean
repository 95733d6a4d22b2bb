import Mathlib

/-!
# Prefix codes and ranges of byte order

A code whose words are not prefixes of each other can be read back word by word: what has an encoded
list as a prefix is the encoding of a longer list (`PrefixFree.of_append`). In lexicographic order the
lists from `l` up to `l ++ [c]` are `l` and its extensions by something that starts below `c`
(`le_and_lt_concat`).
-/

namespace FastOrchestration.Lib

open List

variable {α β : Type} {f : α → List β}

/-- No word of the code is empty or a prefix of another one. -/
structure PrefixFree (f : α → List β) : Prop where
  nonempty : ∀ a, f a ≠ []
  inj : ∀ a b, f a <+: f b → a = b

lemma PrefixFree.of_append_eq (h : PrefixFree f) {a b : α} {l m : List β}
    (heq : f a ++ l = f b ++ m) : a = b ∧ l = m := by
  have hab : a = b := by
    rcases prefix_or_prefix_of_prefix (prefix_append (f a) l) (heq ▸ prefix_append (f b) m) with hp | hp
    · exact h.inj a b hp
    · exact (h.inj b a hp).symm
  subst hab
  exact ⟨rfl, append_cancel_left heq⟩

/-- What begins with an encoded list is read back. -/
theorem PrefixFree.of_append (h : PrefixFree f) {l m : List α} {r : List β}
    (heq : l.flatMap f ++ r = m.flatMap f) : ∃ k, m = l ++ k ∧ r = k.flatMap f := by
  induction l generalizing m with
  | nil => exact ⟨m, rfl, heq⟩
  | cons a l ih =>
    cases m with
    | nil =>
      have hnil : f a ++ l.flatMap f ++ r = [] := heq
      simp only [append_eq_nil_iff] at hnil
      exact absurd hnil.1.1 (h.nonempty a)
    | cons b m =>
      simp only [flatMap_cons, append_assoc] at heq
      obtain ⟨rfl, hrest⟩ := h.of_append_eq heq
      obtain ⟨k, rfl, hk⟩ := ih hrest
      exact ⟨k, rfl, hk⟩

/-- A prefix code can be written in another one. -/
lemma PrefixFree.comp {γ : Type} {g : β → List γ} (hf : PrefixFree f) (hg : PrefixFree g) :
    PrefixFree fun a => (f a).flatMap g where
  nonempty a h := by
    cases hfa : f a with
    | nil => exact hf.nonempty a hfa
    | cons b l =>
      simp only [hfa, flatMap_cons, append_eq_nil_iff] at h
      exact hg.nonempty b h.1
  inj a b h := by
    obtain ⟨r, hr⟩ := h
    obtain ⟨k, hk, -⟩ := hg.of_append hr
    exact hf.inj a b ⟨k, hk.symm⟩

variable [LT β] [Std.Asymm (α := β) (· < ·)] [Std.Trichotomous (α := β) (· < ·)]

/-- The lists from `l` up to `l ++ [c]` in lexicographic order. -/
theorem le_and_lt_concat {l e : List β} {c : β} : l ≤ e ∧ e < l ++ [c] ↔ ∃ r, e = l ++ r ∧ ∀ b ∈ r.head?, b < c := by
  induction l generalizing e with
  | nil =>
    simp only [nil_append, nil_le, true_and]
    cases e with
    | nil => simp
    | cons b e => simp [cons_lt_cons_iff]
  | cons a l ih =>
    cases e with
    | nil => simp
    | cons b e =>
      simp only [cons_append, cons_le_cons_iff, cons_lt_cons_iff, List.cons.injEq]
      constructor
      · rintro ⟨hle, hlt⟩
        have hab : a = b := by
          rcases hle with hlt' | ⟨rfl, -⟩
          · rcases hlt with hgt | ⟨rfl, -⟩
            · exact absurd hgt (Std.Asymm.asymm _ _ hlt')
            · rfl
          · rfl
        subst hab
        have hirr : ¬ a < a := fun h => Std.Asymm.asymm _ _ h h
        obtain ⟨r, hr, hhead⟩ := ih.mp ⟨(hle.resolve_left hirr).2, (hlt.resolve_left hirr).2⟩
        exact ⟨r, ⟨rfl, hr⟩, hhead⟩
      rintro ⟨r, ⟨rfl, hr⟩, hhead⟩
      obtain ⟨hle, hlt⟩ := ih.mpr ⟨r, hr, hhead⟩
      exact ⟨.inr ⟨rfl, hle⟩, .inr ⟨rfl, hlt⟩⟩

end FastOrchestration.Lib
