import FastOrchestration.Lib.Yields

/-!
# Folding two lists in merge order

`mergeFold first f acc xs ys` runs a fallible step over the elements of two lists: while both have
elements left it takes the head of the first list if `first x y` and the head of the second one
otherwise, and then what is left of either. This is the loop of a two-way merge that does not only
collect the elements but combines each with what was built before.

The rules are about an invariant of the accumulator and of what is left of both lists, so that a
proof can relate what was built to what is still to come.
-/

namespace FastOrchestration.Lib

universe u v w

variable {σ : Type u} {α : Type v} {π : Type w}

/-- The loop over what is left of one list. -/
def foldSteps (f : σ → α → Except π σ) : σ → List α → Except π σ
  | acc, [] => .ok acc
  | acc, x :: xs =>
    match f acc x with
    | .ok acc => foldSteps f acc xs
    | .error p => .error p

def mergeFold (first : α → α → Bool) (f : σ → α → Except π σ) (acc : σ) :
    List α → List α → Except π σ
  | [], ys => foldSteps f acc ys
  | x :: xs, ys => inner x xs (fun acc ys => mergeFold first f acc xs ys) acc ys
where
  /-- The steps until `x` is taken. -/
  inner (x : α) (xs : List α) (rest : σ → List α → Except π σ) : σ → List α → Except π σ
    | acc, [] => foldSteps f acc (x :: xs)
    | acc, y :: ys =>
      if first x y then
        match f acc x with
        | .ok acc => rest acc (y :: ys)
        | .error p => .error p
      else
        match f acc y with
        | .ok acc => inner x xs rest acc ys
        | .error p => .error p

section Rules

variable (first : α → α → Bool) {f : σ → α → Except π σ} {I : σ → List α → List α → Prop} {F : π → Prop}

lemma foldSteps_yields {J : σ → List α → Prop}
    (step : ∀ acc x xs, J acc (x :: xs) → Yields F (J · xs) (f acc x)) {acc xs}
    (h : J acc xs) : Yields F (J · []) (foldSteps f acc xs) := by
  induction xs generalizing acc with
  | nil => exact h
  | cons x xs ih =>
    have hx := step acc x xs h
    cases heq : f acc x with
    | error p =>
      simp only [foldSteps, heq]
      exact hx.fault heq
    | ok acc1 => simpa only [foldSteps, heq] using ih (hx.post heq)

/-- Where the head of the second list is taken only if `first` does not prefer the other head. -/
def LeftTurn (first : α → α → Bool) (x : α) : List α → Prop
  | [] => True
  | y :: _ => first x y = true

def RightTurn (first : α → α → Bool) (y : α) : List α → Prop
  | [] => True
  | x :: _ => first x y = false

theorem mergeFold_yields (left : ∀ acc x xs ys, I acc (x :: xs) ys → LeftTurn first x ys →
      Yields F (I · xs ys) (f acc x))
    (right : ∀ acc y xs ys, I acc xs (y :: ys) → RightTurn first y xs → Yields F (I · xs ys) (f acc y)) {acc xs ys}
    (h : I acc xs ys) : Yields F (I · [] []) (mergeFold first f acc xs ys) := by
  induction xs generalizing acc ys with
  | nil =>
    exact foldSteps_yields (J := fun acc ys => I acc [] ys) (fun acc y ys h => right acc y [] ys h trivial) h
  | cons x xs ih =>
    simp only [mergeFold]
    induction ys generalizing acc with
    | nil =>
      exact foldSteps_yields (J := fun acc xs => I acc xs []) (fun acc x xs h => left acc x xs [] h trivial) h
    | cons y ys ihy =>
      simp only [mergeFold.inner]
      split
      · rename_i hfirst
        have hx := left acc x xs (y :: ys) h hfirst
        cases heq : f acc x with
        | error p => exact hx.fault heq
        | ok acc1 => exact ih (hx.post heq)
      rename_i hfirst
      have hy := right acc y (x :: xs) ys h (Bool.eq_false_iff.mpr hfirst)
      cases heq : f acc y with
      | error p => exact hy.fault heq
      | ok acc1 => exact ihy (hy.post heq)

end Rules

end FastOrchestration.Lib
