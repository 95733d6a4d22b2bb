import FastOrchestration.Queues.Convert

/-!
# What predicates mean

`AndReturns` and `OrReturns` are the call trees of Go `AndPredicates` and `OrPredicates`: a call returns
if and only if it has one. Every call has one (`andPredicates_returns`), so the two functions terminate
although each calls the other with a negated operand.

Together with the laws of `PredicateLaws` this gives the meaning of the operations on scopes: a split by
a predicate is a partition, a merge by predicate is a union, and two scopes that `CanMergeByRange`
accepts select by the same test.
-/

namespace FastOrchestration.Queues

namespace Predicate

mutual

inductive AndReturns : Predicate → Predicate → Predicate → Prop where
  | notNot {a b r} : OrReturns a b r → AndReturns (not a) (not b) (neg r)
  | swap {a b} : nots b = 0 → AndReturns (not a) b (andSets b (not a))
  | sets {a b} : nots a = 0 → AndReturns a b (andSets a b)

inductive OrReturns : Predicate → Predicate → Predicate → Prop where
  | notNot {a b r} : AndReturns a b r → OrReturns (not a) (not b) (neg r)
  | swap {a b r} : nots b = 0 → AndReturns a (neg b) r → OrReturns (not a) b (neg r)
  | notRight {a b r} : nots a = 0 → AndReturns b (neg a) r → OrReturns a (not b) (neg r)
  | sets {a b} : nots a = 0 → nots b = 0 → OrReturns a b (orSets a b)

end

/-- A call returns within as many steps as there are negations in front of its operands, and two
more. -/
lemma fuel_returns {n a b} : (nots a + nots b + 1 ≤ n → AndReturns a b (andFuel n a b)) ∧
      (nots a + nots b + 2 ≤ n → OrReturns a b (orFuel n a b)) := by
  induction n generalizing a b with
  | zero => exact ⟨fun h => by omega, fun h => by omega⟩
  | succ n ih =>
    obtain ⟨a, rfl⟩ | ha := eq_not_or a
    · obtain ⟨b, rfl⟩ | hb := eq_not_or b
      · simp only [nots, andFuel_not_not, orFuel_not_not]
        exact ⟨fun h => .notNot (ih.2 (by omega)), fun h => .notNot (ih.1 (by omega))⟩
      have hnb := nots_neg hb
      simp only [nots, andFuel_not n a hb, orFuel_not_left n a hb]
      exact ⟨fun _ => .swap hb, fun h => .swap hb (ih.1 (by omega))⟩
    rw [andFuel_sets n b ha]
    refine ⟨fun _ => .sets ha, fun h => ?_⟩
    obtain ⟨b, rfl⟩ | hb := eq_not_or b
    · have hna := nots_neg ha
      simp only [nots] at h
      rw [orFuel_not_right n b ha]
      exact .notRight ha (ih.1 (by omega))
    rw [orFuel_sets n ha hb]
    exact .sets ha hb

lemma andPredicates_returns (a b : Predicate) : AndReturns a b (andPredicates a b) :=
  fuel_returns.1 (by omega)

lemma orPredicates_returns (a b : Predicate) : OrReturns a b (orPredicates a b) :=
  fuel_returns.2 le_rfl

mutual

lemma Built.fromPersistence {p} : ∀ {stored}, fromPersistencePredicate stored = .ok p → Built p
  | .universal, h => by cases h; exact .universal
  | .empty, h => by cases h; exact .empty
  | .and _, h => by
    obtain ⟨ps, hps, h⟩ := Lib.bind_ok h
    exact .newAnd (fromPersistences hps) h
  | .or _, h => by
    obtain ⟨ps, hps, h⟩ := Lib.bind_ok h
    exact .newOr (fromPersistences hps) h
  | .not _, h => by
    obtain ⟨q, hq, rfl⟩ := Lib.map_ok h
    exact .neg (fromPersistence hq)
  | .namespaceIDs _, h => by cases h; exact .namespaceIDs
  | .types _, h => by cases h; exact .types
  | .destinations _, h => by cases h; exact .destinations
  | .outboundTaskGroups _, h => by cases h; exact .outboundTaskGroups
  | .outboundTasks _, h => by cases h; exact .outboundTasks

lemma Built.fromPersistences {ps} : ∀ {stored}, fromPersistencePredicates stored = .ok ps → ∀ p ∈ ps, Built p
  | [], h, p, hp => by
    cases h
    cases hp
  | _ :: _, h, p, hp => by
    obtain ⟨q, hq, h⟩ := Lib.bind_ok h
    obtain ⟨qs, hqs, h⟩ := Lib.bind_ok h
    cases h
    obtain rfl | hp := List.mem_cons.mp hp
    · exact fromPersistence hq
    · exact fromPersistences hqs p hp

end

end Predicate

open Predicate Built Scope

/-- `AndPredicates` and `OrPredicates` return, and mean what they are called. So a split of a scope by a
predicate is a partition of its tasks, and a merge by predicate accepts the union. -/
theorem predicateOperations_mean {a b : Predicate} (ha : Built a) (hb : Built b) :
    AndReturns a b (andPredicates a b) ∧ OrReturns a b (orPredicates a b) ∧
      (∀ t, (andPredicates a b).test t = (a.test t && b.test t)) ∧
      (∀ t, (orPredicates a b).test t = (a.test t || b.test t)) ∧
      ∀ range t,
        let pass := (splitByPredicate ⟨range, a⟩ b).1
        let fail := (splitByPredicate ⟨range, a⟩ b).2
        (pass.contains t = true ∨ fail.contains t = true ↔ contains ⟨range, a⟩ t = true) ∧
          ¬(pass.contains t = true ∧ fail.contains t = true) ∧
          ∃ merged, mergeByPredicate ⟨range, a⟩ ⟨range, b⟩ = .ok merged ∧
            merged.contains t = (contains ⟨range, a⟩ t || contains ⟨range, b⟩ t) := by
  have na := ha.normal
  have nb := hb.normal
  refine ⟨andPredicates_returns a b, orPredicates_returns a b, test_andPredicates na nb,
    test_orPredicates na nb, fun range t => ?_⟩
  simp only [splitByPredicate, contains, test_andPredicates na nb, test_andPredicates na nb.neg, test_neg]
  refine ⟨?_, ?_, ⟨range, orPredicates a b⟩, ?_, ?_⟩
  · cases range.containsKey t.key <;> cases a.test t <;> cases b.test t <;> simp
  · cases b.test t <;> simp
  · simp [mergeByPredicate, canMergeByPredicate, Range.equals]
  · rw [test_orPredicates na nb, Bool.and_or_distrib_left]

theorem predicateOperations_mean_nested : ∃ merged, mergeByPredicate ⟨⟨⟨0, 1⟩, ⟨0, 5⟩⟩, neg (.namespaceIDs {"a"})⟩
        ⟨⟨⟨0, 1⟩, ⟨0, 5⟩⟩, conj [.namespaceIDs {"a", "b"}, neg (.types {1})]⟩ = .ok merged ∧
      merged.contains ⟨⟨0, 2⟩, "a", 2, none, none⟩ = true ∧
      merged.contains ⟨⟨0, 2⟩, "a", 1, none, none⟩ = false := by
  have ha : Built (neg (.namespaceIDs {"a"})) := .neg .namespaceIDs
  have hops : ∀ q ∈ [.namespaceIDs {"a", "b"}, neg (.types {1})], Built q := by
    simp [Built.namespaceIDs, Built.neg Built.types]
  have h := (predicateOperations_mean ha (.newAnd hops rfl)).2.2.2.2 ⟨⟨0, 1⟩, ⟨0, 5⟩⟩
  obtain ⟨merged, hmerged, hyes⟩ := (h ⟨⟨0, 2⟩, "a", 2, none, none⟩).2.2
  obtain ⟨merged', hmerged', hno⟩ := (h ⟨⟨0, 2⟩, "a", 1, none, none⟩).2.2
  cases hmerged.symm.trans hmerged'
  exact ⟨merged, hmerged, by rw [hyes]; decide, by rw [hno]; decide⟩

/-- On what the constructors build, and on what is decoded from persistence, `Equals` is an equivalence
that implies equal tests. So scopes are merged by range only if their predicates agree on all tasks. -/
theorem equals_equivalence : (∀ stored p, fromPersistencePredicate stored = .ok p → Built p) ∧
      (∀ p q, Built p → Built q → p.equals q = true → ∀ t, p.test t = q.test t) ∧
      (∀ p, Built p → p.equals p = true) ∧
      (∀ p q, Built p → Built q → p.equals q = true → q.equals p = true) ∧
      (∀ p q r, Built p → Built q → Built r → p.equals q = true → q.equals r = true → p.equals r = true) ∧
      ∀ s incoming : Scope, Built s.predicate → Built incoming.predicate →
        s.canMergeByRange incoming = true → ∀ t, s.predicate.test t = incoming.predicate.test t := by
  have sound : ∀ p q, Built p → Built q → p.equals q = true → ∀ t, p.test t = q.test t :=
    fun p q hp hq => hp.normal.laws.sound hq.normal
  refine ⟨fun _ _ => fromPersistence, sound, fun p _ => equals_refl p,
    fun p q hp hq => hp.normal.laws.symm hq.normal,
    fun p q r hp hq hr => hp.normal.laws.trans hq.normal hr.normal, ?_⟩
  intro s incoming hs hi hmerge
  exact sound _ _ hs hi (Bool.and_eq_true_iff.mp hmerge).2

theorem equals_equivalence_reordered :
    (conj [.types {1}, .namespaceIDs {"a"}]).equals (conj [.namespaceIDs {"a"}, .types {1}]) = true ∧
      ∀ t, (conj [.types {1}, .namespaceIDs {"a"}]).test t = (conj [.namespaceIDs {"a"}, .types {1}]).test t := by
  have hequals : (conj [.types {1}, .namespaceIDs {"a"}]).equals
      (conj [.namespaceIDs {"a"}, .types {1}]) = true := by decide
  have hleft : ∀ q ∈ [.types {1}, .namespaceIDs {"a"}], Built q := by
    simp [Built.namespaceIDs, Built.types]
  have hright : ∀ q ∈ [.namespaceIDs {"a"}, .types {1}], Built q := by
    simp [Built.namespaceIDs, Built.types]
  exact ⟨hequals, equals_equivalence.2.1 _ _ (.newAnd hleft rfl) (.newAnd hright rfl) hequals⟩

end FastOrchestration.Queues
