import Mathlib

/-!
# Postconditions of computations that can panic

`Yields F Q x` says what a computation `x : Except π α` can do: it ends in a value with `Q` or in a
panic with `F`. With `F` always false it is total correctness, with `F` always true it is partial
correctness; in between, `F` lists the panics that the caller has to rule out by other means.

The rules follow the structure of a `do` block. `Yields.bind` and `Yields.map` compose, `Yields.foldlM` and
`Yields.mapM` are for loops over lists, `Yields.mono` weakens, and `Yields.post` and `Yields.fault` read off
what is known about a result.
-/

namespace FastOrchestration.Lib

universe u w

variable {α β : Type u} {π : Type w} {F : π → Prop} {Q : α → Prop} {x : Except π α}

def Yields (F : π → Prop) (Q : α → Prop) : Except π α → Prop
  | .ok a => Q a
  | .error p => F p

section

variable (h : Yields F Q x) {R : β → Prop}

include h

lemma Yields.post {a} (hx : x = .ok a) : Q a := by
  subst hx
  exact h

lemma Yields.fault {p} (hx : x = .error p) : F p := by
  subst hx
  exact h

lemma Yields.exists_ok (hF : ∀ p, ¬ F p) : ∃ a, x = .ok a ∧ Q a := by
  cases x with
  | error p => exact absurd h (hF p)
  | ok a => exact ⟨a, rfl, h⟩

omit h in
lemma Yields.of_exists (hx : ∃ a, x = .ok a ∧ Q a) : Yields F Q x := by
  obtain ⟨a, rfl, ha⟩ := hx
  exact ha

omit h in
lemma Yields.of_cases (hok : ∀ a, x = .ok a → Q a) (herr : ∀ p, x = .error p → F p) : Yields F Q x := by
  cases x with
  | error p => exact herr p rfl
  | ok a => exact hok a rfl

omit h in
lemma Yields.any (hok : ∀ a, x = .ok a → Q a) : Yields (fun _ => True) Q x :=
  .of_cases hok fun _ _ => trivial

lemma Yields.mono {F' : π → Prop} {Q' : α → Prop} (hF : ∀ p, F p → F' p) (hQ : ∀ a, Q a → Q' a) : Yields F' Q' x := by
  cases x with
  | error p => exact hF p h
  | ok a => exact hQ a h

lemma Yields.bind {f} (hf : ∀ a, Q a → Yields F R (f a)) : Yields F R (x >>= f) := by
  cases x with
  | error p => exact h
  | ok a => exact hf a h

lemma Yields.map {f} (hf : ∀ a, Q a → R (f a)) : Yields F R (f <$> x) := by
  cases x with
  | error p => exact h
  | ok a => exact hf a h

end

lemma Yields.of_bind {f : α → Except π β} (hf : ∀ a, Yields (fun _ => True) R (f a)) :
    Yields (fun _ => True) R (x >>= f) := by
  cases x with
  | error p => trivial
  | ok a => exact hf a

lemma Yields.of_map {f} (hf : ∀ a, R (f a)) : Yields (fun _ => True) R (f <$> x) := by
  cases x with
  | error p => trivial
  | ok a => exact hf a

lemma Yields.foldlM {f} {I : β → Prop} {xs : List α}
    (one : ∀ b, I b → ∀ x ∈ xs, Yields F I (f b x)) {b} (hb : I b) : Yields F I (xs.foldlM f b) := by
  induction xs generalizing b with
  | nil => exact hb
  | cons x xs ih =>
    rw [List.foldlM_cons]
    refine (one b hb x List.mem_cons_self).bind fun b' hb' => ih ?_ hb'
    exact fun c hc y hy => one c hc y (List.mem_cons_of_mem _ hy)

lemma Yields.mapM {f} {xs : List α} (one : ∀ x ∈ xs, Yields F R (f x)) :
    Yields F (fun ys => ∀ y ∈ ys, R y) (xs.mapM f) := by
  induction xs with
  | nil => exact fun y hy => nomatch hy
  | cons x xs ih =>
    rw [List.mapM_cons]
    refine (one x List.mem_cons_self).bind fun y hy => ?_
    refine (ih fun z hz => one z (List.mem_cons_of_mem _ hz)).bind fun ys hys => ?_
    exact List.forall_mem_cons.mpr ⟨hy, hys⟩

end FastOrchestration.Lib
