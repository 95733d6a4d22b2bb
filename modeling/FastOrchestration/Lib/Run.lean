import FastOrchestration.Lib.Yields

/-!
# Runs of a fallible step function

A program that can panic is modelled as a step function `σ → ε → Except π σ` over states `σ`, events
`ε` and panics `π`. This file develops what all such models share: `run` folds a step function over a
list of events, `Along P` says that a condition holds at every step of a run, and `Along.yields` turns
what one step yields under an invariant into what a whole run yields.

`Along.inv` is its half about runs that succeed, and `run_yields` is the rule for a given list of events.
-/

namespace FastOrchestration.Lib

open List

universe u v w

variable {σ : Type u} {ε : Type v} {π : Type w} {step : σ → ε → Except π σ} {P : σ → ε → Prop} {I : σ → Prop}
  {α β : Type u}

lemma bind_ok {x : Except π α} {f : α → Except π β} {b : β} (h : x >>= f = .ok b) : ∃ a, x = .ok a ∧ f a = .ok b := by
  cases x with
  | error p => cases h
  | ok a => exact ⟨a, rfl, h⟩

lemma guard_ok {c : Prop} [Decidable c] {a b : α} {e : π} (h : (if c then .ok a else .error e) = Except.ok b) :
    c ∧ a = b := by
  split at h
  · next hc => exact ⟨hc, Except.ok.inj h⟩
  · cases h

lemma map_ok {x : Except π α} {f : α → β} {b : β} (h : f <$> x = .ok b) : ∃ a, x = .ok a ∧ b = f a := by
  cases x with
  | error p => cases h
  | ok a =>
    cases h
    exact ⟨a, rfl, rfl⟩

/-! A state may be a list, to which a step appends or in which it changes one entry. -/

lemma getElem?_concat_cases {l : List α} {a x} {k : Nat} (h : (l ++ [a])[k]? = some x) :
    l[k]? = some x ∨ k = l.length ∧ x = a := by
  rw [getElem?_append] at h
  split at h
  · exact .inl h
  next hle =>
  obtain ⟨hlt, rfl⟩ := List.getElem?_eq_some_iff.mp h
  simp only [length_singleton] at hlt
  exact .inr ⟨by omega, by simp⟩

lemma getElem?_set_cases {l : List α} {a x} {i k : Nat} (h : (l.set i a)[k]? = some x) :
    k = i ∧ x = a ∨ k ≠ i ∧ l[k]? = some x := by
  rw [getElem?_set] at h
  split at h
  · next hik =>
    obtain ⟨-, h⟩ : _ ∧ a = x := by simpa using h
    exact .inl ⟨hik.symm, h.symm⟩
  · next hik => exact .inr ⟨Ne.symm hik, h⟩

lemma mapM_ok {f : α → Except π β} {xs : List α} {ys : List β} (h : xs.mapM f = .ok ys) :
    (∀ x ∈ xs, ∃ y ∈ ys, f x = .ok y) ∧ ∀ y ∈ ys, ∃ x ∈ xs, f x = .ok y := by
  induction xs generalizing ys with
  | nil =>
    cases h
    simp
  | cons x xs ih =>
    rw [mapM_cons] at h
    obtain ⟨y, hy, h⟩ := bind_ok h
    obtain ⟨zs, hzs, h⟩ := bind_ok h
    cases h
    obtain ⟨hxs, hys⟩ := ih hzs
    constructor
    · refine forall_mem_cons.mpr ⟨⟨y, mem_cons_self, hy⟩, fun a ha => ?_⟩
      obtain ⟨b, hb, hab⟩ := hxs a ha
      exact ⟨b, mem_cons_of_mem _ hb, hab⟩
    refine forall_mem_cons.mpr ⟨⟨x, mem_cons_self, hy⟩, fun b hb => ?_⟩
    obtain ⟨a, ha, hab⟩ := hys b hb
    exact ⟨a, mem_cons_of_mem _ ha, hab⟩

/-- A computation is evaluated to decide what it ends in. -/
instance decidableExistsOk {x : Except π α} {P : α → Prop} [DecidablePred P] : Decidable (∃ a, x = .ok a ∧ P a) :=
  match x with
  | .ok a => decidable_of_iff (P a) (by simp)
  | .error _ => .isFalse (by simp)

/-- The state a list of events leads to, or the first panic. -/
def run (step : σ → ε → Except π σ) : σ → List ε → Except π σ
  | s, [] => .ok s
  | s, e :: es =>
    match step s e with
    | .ok s' => run step s' es
    | .error p => .error p

/-- `P` holds of every state and event that a run meets. -/
def Along (P : σ → ε → Prop) (step : σ → ε → Except π σ) : σ → List ε → Prop
  | _, [] => True
  | s, e :: es =>
    P s e ∧ match step s e with
      | .ok s' => Along P step s' es
      | .error _ => True

lemma run_append {s s' es fs} (h : run step s (es ++ fs) = .ok s') :
    ∃ t, run step s es = .ok t ∧ run step t fs = .ok s' := by
  induction es generalizing s with
  | nil => exact ⟨s, rfl, h⟩
  | cons e es ih =>
    cases hs : step s e with
    | error p => simp [run, hs] at h
    | ok s1 => simpa [run, hs] using ih (by simpa [run, hs] using h)

lemma Along.append {s t es fs} (al : Along P step s (es ++ fs)) (hr : run step s es = .ok t) : Along P step t fs := by
  induction es generalizing s with
  | nil =>
    cases hr
    exact al
  | cons e es ih =>
    cases hs : step s e with
    | error p => simp [run, hs] at hr
    | ok s1 =>
      simp only [cons_append, Along, hs] at al
      exact ih al.2 (by simpa [run, hs] using hr)

lemma Along.of_append {s es fs} (al : Along P step s (es ++ fs)) : Along P step s es := by
  induction es generalizing s with
  | nil => trivial
  | cons e es ih =>
    refine ⟨al.1, ?_⟩
    cases hs : step s e with
    | error p => trivial
    | ok s1 =>
      simp only [cons_append, Along, hs] at al
      exact ih al.2

instance Along.decidable {P : σ → ε → Prop} [∀ s e, Decidable (P s e)] :
    ∀ (s : σ) (es : List ε), Decidable (Along P step s es)
  | _, [] => isTrue trivial
  | s, e :: es =>
    match hs : step s e with
    | .ok s' =>
      have := Along.decidable (P := P) s' es
      decidable_of_iff (P s e ∧ Along P step s' es) (by simp [Along, hs])
    | .error _ => decidable_of_iff (P s e) (by simp [Along, hs])

lemma Along.of_forall {es} (h : ∀ s, ∀ e ∈ es, P s e) (s : σ) : Along P step s es := by
  induction es generalizing s with
  | nil => trivial
  | cons e es ih =>
    refine ⟨h s e (by simp), ?_⟩
    split
    · exact ih (fun s e he => h s e (by simp [he])) _
    · trivial

/-- The rule for runs: what one step yields under the invariant and `P`, a run along `P` yields. -/
theorem Along.yields {F : π → Prop} (one : ∀ s e, I s → P s e → Yields F I (step s e)) {s es}
    (al : Along P step s es) (hs : I s) : Yields F I (run step s es) := by
  induction es generalizing s with
  | nil => exact hs
  | cons e es ih =>
    have h := one s e hs al.1
    cases ht : step s e with
    | ok t =>
      simp only [Along, ht] at al
      simpa only [run, ht] using ih al.2 (h.post ht)
    | error p =>
      simp only [run, ht]
      exact h.fault ht

/-- The invariant rule: what every step keeps under `P`, a run along `P` keeps. -/
theorem Along.inv (keep : ∀ s e s', I s → P s e → step s e = .ok s' → I s') {s s' es}
    (al : Along P step s es) (hs : I s) (hr : run step s es = .ok s') : I s' :=
  (al.yields (F := fun _ => True)
    (fun s e hI hP => .any fun s' => keep s e s' hI hP) hs).post hr

/-- The rule for a loop whose invariant `I done` speaks of the events already processed. -/
theorem run_loop {I : List ε → σ → Prop} {es}
    (one : ∀ done e rest s s', es = done ++ e :: rest → I done s → step s e = .ok s' →
      I (done ++ [e]) s') {s s'} (hs : I [] s) (hr : run step s es = .ok s') : I es s' := by
  suffices h : ∀ done rest s, es = done ++ rest → I done s → run step s rest = .ok s' → I es s' from
    h [] es s rfl hs hr
  intro done rest
  induction rest generalizing done with
  | nil =>
    intro s hes hs hr
    cases hr
    simpa [hes] using hs
  | cons e rest ih =>
    intro s hes hs hr
    cases ht : step s e with
    | error p => simp [run, ht] at hr
    | ok t =>
      exact ih (done ++ [e]) t (by simpa using hes) (one done e rest s t hes hs ht) (by simpa [run, ht] using hr)

/-- The rule for steps that yield the invariant for each event of a list. -/
theorem run_yields {F : π → Prop} {es} (one : ∀ s, ∀ e ∈ es, I s → Yields F I (step s e)) {s}
    (hs : I s) : Yields F I (run step s es) :=
  (Along.of_forall (P := fun _ e => e ∈ es) (fun _ _ he => he) s).yields (fun s e hI he => one s e he hI) hs

lemma yields_run_cons {F : π → Prop} {s e es} :
    Yields F I (run step s (e :: es)) ↔ Yields F (fun t => Yields F I (run step t es)) (step s e) := by
  rw [run]
  cases step s e <;> rfl

end FastOrchestration.Lib
