import FastOrchestration.Chasm.CloseTransaction

/-!
# Stale references

Model of `StalenessCheck` (`common/persistence/transitionhistory/transition_history.go`). A history
lists the last transition of each failover version; the transitions of a version are those after the
last one of the version before.
-/

namespace FastOrchestration.Chasm
open List

/-- The loop of Go `transitionHistoryRangeForVersion` at index `i`; `least` is the transition after
the last one of the previous version. -/
def rangeFrom (version : Int) (i least : Nat) : List VersionedTransition → Option (Nat × Nat × Nat)
  | [] => none
  | item :: rest =>
    if item.namespaceFailoverVersion = version then some (i, least, item.transitionCount)
    else rangeFrom version (i + 1) (item.transitionCount + 1) rest

/-- The index and the least and greatest transition of a version, or none for index -1. -/
def transitionHistoryRangeForVersion (history : List VersionedTransition) (version : Int) :=
  rangeFrom version 0 0 history

inductive StalenessError where
  | internal (text : String)
  | staleState (text : String)
  | staleReference (text : String)

def stalenessCheck (history : List VersionedTransition) (ref : VersionedTransition) :
    Except StalenessError Unit :=
  match history.getLast? with
  | none => .error (.internal "state has empty transition history")
  | some lastItem =>
    match transitionHistoryRangeForVersion history ref.namespaceFailoverVersion with
    | none =>
      if lastItem.namespaceFailoverVersion < ref.namespaceFailoverVersion then
        .error (.staleState "state namespace failover version < ref namespace failover version")
      else
        .error (.staleReference "state namespace failover version > ref namespace failover version")
    | some (idx, minTransitionCount, maxTransitionCount) =>
      if idx = history.length - 1 ∧ ref.transitionCount > maxTransitionCount then
        .error (.staleState "state transition count < ref transition count")
      else if minTransitionCount > ref.transitionCount ∨ maxTransitionCount < ref.transitionCount then
        .error (.staleReference ("ref transition count out of range for version "
          ++ toString ref.namespaceFailoverVersion))
      else .ok ()

def Increasing (history : List VersionedTransition) : Prop :=
  history.Pairwise fun a b => a.namespaceFailoverVersion < b.namespaceFailoverVersion ∧
    a.transitionCount < b.transitionCount

/-- The history has the version of `ref`, and its count is at most the last one of that version and
above those of every earlier version. Transitions that were made lie on it, and so does a count of zero at
the first version. -/
def LiesOn (history : List VersionedTransition) (ref : VersionedTransition) : Prop :=
  (∃ item ∈ history, item.namespaceFailoverVersion = ref.namespaceFailoverVersion ∧
    ref.transitionCount ≤ item.transitionCount) ∧
  ∀ item ∈ history, item.namespaceFailoverVersion < ref.namespaceFailoverVersion →
    item.transitionCount < ref.transitionCount

def Behind (history : List VersionedTransition) (ref : VersionedTransition) : Prop :=
  ∃ last ∈ history.getLast?, last.compare ref = .lt

/-- More transitions at the last version and new versions after it. -/
inductive Extends : List VersionedTransition → List VersionedTransition → Prop where
  | mk (before last count more) : last.transitionCount ≤ count →
      Extends (before ++ [last]) (before ++ ⟨last.namespaceFailoverVersion, count⟩ :: more)

lemma compare_lt {v w : VersionedTransition} : v.compare w = .lt ↔
    v.namespaceFailoverVersion < w.namespaceFailoverVersion ∨
      v.namespaceFailoverVersion = w.namespaceFailoverVersion ∧ v.transitionCount < w.transitionCount := by
  simp [VersionedTransition.compare, compareLex, compareOn, Ordering.then_eq_lt, compare_lt_iff_lt]

variable {history : List VersionedTransition} {ref : VersionedTransition}

lemma rangeFrom_none {version i least} (h : rangeFrom version i least history = none) :
    ∀ item ∈ history, item.namespaceFailoverVersion ≠ version := by
  induction history generalizing i least with
  | nil => simp
  | cons item rest ih =>
    unfold rangeFrom at h
    split at h
    · cases h
    rename_i hne
    exact forall_mem_cons.mpr ⟨hne, ih h⟩

lemma rangeFrom_some {version i least idx lo hi} (hwf : Increasing history)
    (hleast : ∀ item ∈ history, least ≤ item.transitionCount)
    (h : rangeFrom version i least history = some (idx, lo, hi)) :
    ∃ before item after, history = before ++ item :: after ∧
      item.namespaceFailoverVersion = version ∧ idx = i + before.length ∧
      hi = item.transitionCount ∧
      ∀ c, lo ≤ c ↔ least ≤ c ∧ ∀ e ∈ before, e.transitionCount < c := by
  induction history generalizing i least with
  | nil => cases h
  | cons x rest ih =>
    unfold rangeFrom at h
    split at h
    · rename_i hx
      cases h
      exact ⟨[], x, rest, rfl, hx, rfl, rfl, by simp⟩
    obtain ⟨hx, hrest⟩ := pairwise_cons.mp hwf
    obtain ⟨before, item, after, rfl, hv, rfl, hhi, hlo⟩ := ih hrest (fun e he => (hx e he).2) h
    refine ⟨x :: before, item, after, rfl, hv, by simp only [length_cons]; omega, hhi, ?_⟩
    intro c
    have := hleast x mem_cons_self
    simp only [hlo, forall_mem_cons]
    exact ⟨fun ⟨hc, hb⟩ => ⟨by omega, hc, hb⟩, fun ⟨_, hc, hb⟩ => ⟨hc, hb⟩⟩

/-- Only the items up to the version of the reference decide whether it lies on the history. -/
lemma liesOn_append {before item after} (hwf : Increasing (before ++ item :: after))
    (hv : ref.namespaceFailoverVersion ≤ item.namespaceFailoverVersion) :
    LiesOn (before ++ item :: after) ref ↔ ((∃ e ∈ before, e.namespaceFailoverVersion =
        ref.namespaceFailoverVersion ∧ ref.transitionCount ≤ e.transitionCount) ∨
      item.namespaceFailoverVersion = ref.namespaceFailoverVersion ∧ ref.transitionCount ≤ item.transitionCount) ∧
      ∀ e ∈ before, e.namespaceFailoverVersion < ref.namespaceFailoverVersion →
        e.transitionCount < ref.transitionCount := by
  have hgt : ∀ e ∈ after, ref.1 < e.1 := fun e he =>
    hv.trans_lt ((pairwise_cons.mp (pairwise_append.mp hwf).2.1).1 e he).1
  simp only [LiesOn, mem_append, mem_cons]
  constructor
  · rintro ⟨⟨e, he | rfl | he, hev, hle⟩, hall⟩
    · exact ⟨.inl ⟨e, he, hev, hle⟩, fun e he => hall e (.inl he)⟩
    · exact ⟨.inr ⟨hev, hle⟩, fun e he => hall e (.inl he)⟩
    · exact absurd hev (hgt e he).ne'
  rintro ⟨hex, hall⟩
  refine ⟨?_, ?_⟩
  · obtain ⟨e, he, h⟩ | h := hex
    · exact ⟨e, .inl he, h⟩
    · exact ⟨item, .inr (.inl rfl), h⟩
  rintro e (he | rfl | he) hev
  · exact hall e he hev
  · exact absurd hev hv.not_gt
  · exact absurd hev (hgt e he).asymm

lemma stalenessCheck_cases (ref : VersionedTransition) {last} (hwf : Increasing history)
    (hlast : history.getLast? = some last) :
    stalenessCheck history ref = .ok () ∧ LiesOn history ref ∧ ¬ Behind history ref ∨
    (∃ text, stalenessCheck history ref = .error (.staleState text)) ∧ ¬ LiesOn history ref ∧ Behind history ref ∨
    (∃ text, stalenessCheck history ref = .error (.staleReference text)) ∧ ¬ LiesOn history ref ∧
      ¬ Behind history ref := by
  have hbehind : Behind history ref ↔ last.compare ref = .lt := by simp [Behind, hlast]
  simp only [stalenessCheck, hlast, transitionHistoryRangeForVersion, hbehind, compare_lt]
  cases hr : rangeFrom ref.1 0 0 history with
  | none =>
    have hother := rangeFrom_none hr
    have hoff : ¬ LiesOn history ref := fun ⟨⟨e, he, hev, _⟩, _⟩ => hother e he hev
    have hne := hother last (mem_of_getLast? hlast)
    by_cases hv : last.1 < ref.1
    · simp [hv, hoff]
    · simp [hv, hoff, hne]
  | some range =>
    obtain ⟨idx, lo, hi⟩ := range
    obtain ⟨before, item, after, rfl, hv, rfl, rfl, hlo⟩ := rangeFrom_some hwf (by simp) hr
    have hlo := hlo ref.2
    simp only [Nat.zero_le, true_and] at hlo
    have hbefore : ∀ e ∈ before, e.1 < ref.1 :=
      fun e he => hv ▸ ((pairwise_append.mp hwf).2.2 e he item mem_cons_self).1
    have hon : LiesOn (before ++ item :: after) ref ↔ ref.2 ≤ item.2 ∧ lo ≤ ref.2 := by
      rw [liesOn_append hwf hv.ge, hlo]
      simp +contextual [hv, (hbefore _ ·), (hbefore _ · |>.ne)]
    rw [hon]
    -- the last item is the one of the version, or it has a later version
    have hahead : 0 + before.length = (before ++ item :: after).length - 1 ∧ ref.2 > item.2 ↔
        last.1 < ref.1 ∨ last.1 = ref.1 ∧ last.2 < ref.2 := by
      cases after with
      | nil =>
        obtain rfl : item = last := by simpa using hlast
        simp [hv]
      | cons y rest =>
        have hmem : last ∈ y :: rest := mem_of_getLast? (by simpa using hlast)
        obtain ⟨-, hitem, -⟩ := pairwise_append.mp hwf
        have hgt := ((pairwise_cons.mp hitem).1 last hmem).1
        simp only [length_append, length_cons]
        omega
    rw [← hahead]
    dsimp only
    split
    · rename_i h
      exact .inr (.inl ⟨⟨_, rfl⟩, by omega, h⟩)
    split
    · exact .inr (.inr ⟨⟨_, rfl⟩, by omega, ‹_›⟩)
    · exact .inl ⟨rfl, by omega, ‹_›⟩

/-- An extension changes nothing for the references the history has come to. -/
lemma Extends.spec {longer} (ex : Extends history longer) (hwf : Increasing history)
    (hlonger : Increasing longer) (ref : VersionedTransition) (h : ¬ Behind history ref) :
    (LiesOn longer ref ↔ LiesOn history ref) ∧ ¬ Behind longer ref := by
  cases ex with
  | mk before last count more hle =>
    simp only [Behind, getLast?_concat, Option.mem_some_iff, exists_eq_left', compare_lt, not_or, not_and, not_lt] at h
    obtain ⟨hv, hc⟩ := h
    refine ⟨?_, ?_⟩
    · rw [liesOn_append hwf hv, liesOn_append hlonger hv]
      have hlast : last.1 = ref.1 → (ref.2 ≤ count ↔ ref.2 ≤ last.2) := fun h =>
        iff_of_true ((hc h).trans hle) (hc h)
      simp only [and_congr_right_iff.mpr hlast]
    rintro ⟨z, hz, hlt⟩
    rw [compare_lt] at hlt
    have hz : z ∈ ⟨last.1, count⟩ :: more := mem_of_getLast? (by simpa using hz)
    obtain rfl | hz := mem_cons.mp hz
    · simp only at hlt
      omega
    have := ((pairwise_cons.mp (pairwise_append.mp hlonger).2.1).1 z hz).1
    simp only at this
    omega

/-- A reference is accepted exactly if it lies on the history, the state is stale exactly if the
reference is greater than the last item, and otherwise the reference is stale. Accepted and stale
references stay so in every extension. -/
theorem stalenessCheck_exact (hwf : Increasing history) (ref : VersionedTransition) :
    (stalenessCheck history ref = .ok () ↔ LiesOn history ref) ∧
    ((∃ text, stalenessCheck history ref = .error (.staleState text)) ↔ Behind history ref) ∧
    ((∃ text, stalenessCheck history ref = .error (.staleReference text)) ↔
      history ≠ [] ∧ ¬ LiesOn history ref ∧ ¬ Behind history ref) ∧
    ∀ longer, Extends history longer → Increasing longer →
      (stalenessCheck history ref = .ok () → stalenessCheck longer ref = .ok ()) ∧
      ((∃ text, stalenessCheck history ref = .error (.staleReference text)) →
        ∃ text, stalenessCheck longer ref = .error (.staleReference text)) := by
  cases hlast : history.getLast? with
  | none =>
    obtain rfl := getLast?_eq_none_iff.mp hlast
    refine ⟨by simp [stalenessCheck, LiesOn], by simp [stalenessCheck, Behind],
      by simp [stalenessCheck], fun longer ex => ?_⟩
    generalize hnil : ([] : List VersionedTransition) = history at ex
    cases ex
    simp at hnil
  | some last =>
    have hcases := stalenessCheck_cases ref hwf hlast
    refine ⟨by grind, by grind, by grind, fun longer ex hlonger => ?_⟩
    obtain ⟨last', hlast'⟩ : ∃ last', longer.getLast? = some last' := by
      cases ex
      exact ⟨_, getLast?_append_cons ..⟩
    have hcases' := stalenessCheck_cases ref hlonger hlast'
    have hspec := ex.spec hwf hlonger ref
    grind

theorem stalenessCheck_exact_extended : Increasing [⟨1, 3⟩, ⟨2, 5⟩] ∧ LiesOn [⟨1, 3⟩, ⟨2, 5⟩] ⟨2, 4⟩ ∧
      stalenessCheck [⟨1, 3⟩, ⟨2, 7⟩, ⟨4, 9⟩] ⟨2, 4⟩ = .ok () := by
  have hwf : Increasing [⟨1, 3⟩, ⟨2, 5⟩] := by simp [Increasing]
  obtain ⟨hok, -, -, hext⟩ := stalenessCheck_exact hwf ⟨2, 4⟩
  have ex : Extends [⟨1, 3⟩, ⟨2, 5⟩] [⟨1, 3⟩, ⟨2, 7⟩, ⟨4, 9⟩] :=
    .mk [⟨1, 3⟩] _ 7 [⟨4, 9⟩] (by decide)
  exact ⟨hwf, hok.mp rfl, (hext _ ex (by simp [Increasing])).1 rfl⟩

end FastOrchestration.Chasm
