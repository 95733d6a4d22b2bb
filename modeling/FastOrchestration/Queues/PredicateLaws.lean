import FastOrchestration.Lib.Lists
import FastOrchestration.Queues.Predicate

/-!
# Laws of task predicates

Every predicate that the constructors build is in normal form (`Normal`): a conjunction has at least
two operands, none of them a conjunction, universal or empty, and no two of them equal; likewise a
disjunction; and a negation is never applied to a negation, to universal or to empty.

On normal forms `Equals` is an equivalence relation that implies equal meaning (`Normal.laws`);
without it `predicatesEqual`, which only looks for a partner of each operand on the
left, would not even be symmetric. With it `conj` and `disj` preserve the meaning although they drop
operands (`test_conj`, `test_disj`), and so do `andPredicates` and `orPredicates`
(`test_andPredicates`, `test_orPredicates`).
-/

namespace FastOrchestration.Queues.Predicate
open Lib List

/-! ## Loops -/

lemma testAll_eq (ps : List Predicate) (t : Task) : testAll ps t = ps.all (test · t) := by
  induction ps with
  | nil => rfl
  | cons p ps ih => simp only [testAll, ih, all_cons]

lemma testAny_eq (ps : List Predicate) (t : Task) : testAny ps t = ps.any (test · t) := by
  induction ps with
  | nil => rfl
  | cons p ps ih => simp only [testAny, ih, any_cons]

lemma allMatched_iff {ps qs} : allMatched ps qs ↔ ∀ p ∈ ps, ∃ q ∈ qs, p.equals q := by
  induction ps with
  | nil => simp [allMatched]
  | cons p ps ih => simp [allMatched, ih]

/-! ## Conjunctions and disjunctions at once

A conjunction is true, and a disjunction false, exactly if all operands are. The lemmas below are about
both, with the value `v` of the operands as a parameter. -/

def node : Bool → List Predicate → Predicate
  | true => and
  | false => or

def const : Bool → Predicate
  | true => universal
  | false => empty

def flatten : Bool → List Predicate → List Predicate → Option (List Predicate)
  | true => flattenAnd
  | false => flattenOr

def join : Bool → List Predicate → Predicate
  | true => conj
  | false => disj

lemma test_node {v ps t} : test (node v ps) t = v ↔ ∀ p ∈ ps, test p t = v := by
  cases v <;> simp [node, test, testAll_eq, testAny_eq]

@[simp] lemma test_const (v : Bool) (t : Task) : (const v).test t = v := by
  cases v <;> rfl

lemma equals_node {v ps qs} : equals (node v ps) (node v qs) ↔
    ps.length = qs.length ∧ ∀ p ∈ ps, ∃ q ∈ qs, p.equals q := by
  cases v <;> simp [node, equals, allMatched_iff]

lemma equals_refl (p : Predicate) : p.equals p := by
  induction p with
  | and ps ih => exact (equals_node (v := true)).mpr ⟨rfl, fun p hp => ⟨p, hp, ih p hp⟩⟩
  | or ps ih => exact (equals_node (v := false)).mpr ⟨rfl, fun p hp => ⟨p, hp, ih p hp⟩⟩
  | not p ih => simpa [equals] using ih
  | _ => simp [equals]

/-! ## Normal forms -/

def isConjunct : Predicate → Bool
  | and _ | universal | empty => false
  | _ => true

def isDisjunct : Predicate → Bool
  | or _ | universal | empty => false
  | _ => true

def isNegatable : Predicate → Bool
  | not _ | universal | empty => false
  | _ => true

inductive Normal : Predicate → Prop where
  | universal : Normal universal
  | empty : Normal empty
  | and {ps} : 2 ≤ ps.length → (∀ p ∈ ps, Normal p) → (∀ p ∈ ps, p.isConjunct = true) →
      ps.Pairwise (fun p q => p.equals q = false) → Normal (and ps)
  | or {ps} : 2 ≤ ps.length → (∀ p ∈ ps, Normal p) → (∀ p ∈ ps, p.isDisjunct = true) →
      ps.Pairwise (fun p q => p.equals q = false) → Normal (or ps)
  | not {p} : Normal p → p.isNegatable = true → Normal (not p)
  | namespaceIDs {ids} : Normal (namespaceIDs ids)
  | types {ts} : Normal (types ts)
  | destinations {ds} : Normal (destinations ds)
  | outboundTaskGroups {gs} : Normal (outboundTaskGroups gs)
  | outboundTasks {gs} : Normal (outboundTasks gs)

/-- What `Equals` should satisfy from a predicate on: it can be reversed and composed, and equal
predicates have the same meaning. -/
structure EqualsLaws (p : Predicate) : Prop where
  symm : ∀ {q}, Normal q → p.equals q = true → q.equals p = true
  trans : ∀ {q r}, Normal q → Normal r → p.equals q = true → q.equals r = true → p.equals r = true
  sound : ∀ {q}, Normal q → p.equals q = true → ∀ t, p.test t = q.test t

/-- Operands that match one way match the other way too, as none of them equal each other. -/
lemma matched_symm {ps qs : List Predicate} (laws : ∀ p ∈ ps, EqualsLaws p) (normal : ∀ p ∈ ps, Normal p)
    (normal' : ∀ q ∈ qs, Normal q) (distinct : ps.Pairwise fun p q => p.equals q = false)
    (len : ps.length = qs.length) (hm : ∀ p ∈ ps, ∃ q ∈ qs, p.equals q) :
    ∀ q ∈ qs, ∃ p ∈ ps, p.equals q := by
  let R (p q : Predicate) : Prop := p ∈ ps ∧ q ∈ qs ∧ p.equals q
  have single : ps.Pairwise fun a b => ∀ y, ¬ (R a y ∧ R b y) := by
    refine distinct.imp_of_mem fun {a b} ha hb hab y hy => ?_
    obtain ⟨⟨-, hyq, hay⟩, -, -, hby⟩ := hy
    have hyb := (laws b hb).symm (normal' y hyq) hby
    have haeq := (laws a ha).trans (normal' y hyq) (normal b hb) hay hyb
    simp [hab] at haeq
  have paired : ∀ p ∈ ps, ∃ q ∈ qs, R p q := by
    intro p hp
    obtain ⟨q, hq, h⟩ := hm p hp
    exact ⟨q, hq, hp, hq, h⟩
  intro q hq
  obtain ⟨p, hp, -, -, h⟩ := matched_of_length_le paired single len.ge q hq
  exact ⟨p, hp, h⟩

lemma matched_trans {ps qs rs : List Predicate} (laws : ∀ p ∈ ps, EqualsLaws p)
    (normal : ∀ q ∈ qs, Normal q) (normal' : ∀ r ∈ rs, Normal r)
    (hm : ∀ p ∈ ps, ∃ q ∈ qs, p.equals q) (hm' : ∀ q ∈ qs, ∃ r ∈ rs, q.equals r) :
    ∀ p ∈ ps, ∃ r ∈ rs, p.equals r := by
  intro p hp
  obtain ⟨q, hq, hpq⟩ := hm p hp
  obtain ⟨r, hr, hqr⟩ := hm' q hq
  exact ⟨r, hr, (laws p hp).trans (normal q hq) (normal' r hr) hpq hqr⟩

lemma matched_reverse {ps qs : List Predicate} (laws : ∀ p ∈ ps, EqualsLaws p) (normal : ∀ q ∈ qs, Normal q)
    (hm : ∀ q ∈ qs, ∃ p ∈ ps, p.equals q) : ∀ q ∈ qs, ∃ p ∈ ps, q.equals p := by
  intro q hq
  obtain ⟨p, hp, hpq⟩ := hm q hq
  exact ⟨p, hp, (laws p hp).symm (normal q hq) hpq⟩

lemma equals_node_inv {v ps q} (h : equals (node v ps) q) :
    ∃ qs, q = node v qs ∧ ps.length = qs.length ∧ ∀ p ∈ ps, ∃ q ∈ qs, p.equals q := by
  obtain ⟨qs, rfl⟩ : ∃ qs, q = node v qs := by
    cases v <;> cases q <;> simp_all [node, equals]
  exact ⟨qs, rfl, equals_node.mp h⟩

lemma equals_not_inv {p q} (h : equals (not p) q) : ∃ q', q = not q' ∧ p.equals q' := by
  cases q with
  | not q => exact ⟨q, rfl, by simpa [equals] using h⟩
  | _ => simp [equals] at h

lemma EqualsLaws.of_eq {p : Predicate} (h : ∀ q, p.equals q → q = p) : EqualsLaws p where
  symm _ hq := by
    obtain rfl := h _ hq
    exact hq
  trans _ _ hq hr := by
    obtain rfl := h _ hq
    exact hr
  sound _ hq := by
    obtain rfl := h _ hq
    exact fun _ => rfl

lemma Normal.operands {v ps} (n : Normal (node v ps)) : ∀ p ∈ ps, Normal p := by
  cases v <;> cases n <;> assumption

lemma EqualsLaws.node {v ps} (n : Normal (node v ps)) (ih : ∀ p ∈ ps, EqualsLaws p)
    (dist : ps.Pairwise fun p q => p.equals q = false) : EqualsLaws (node v ps) := by
  have np := n.operands
  constructor
  · intro q nq h
    obtain ⟨qs, rfl, len, hm⟩ := equals_node_inv h
    have hm' := matched_symm ih np nq.operands dist len hm
    exact equals_node.mpr ⟨len.symm, matched_reverse ih nq.operands hm'⟩
  · intro q r nq nr h h'
    obtain ⟨qs, rfl, len, hm⟩ := equals_node_inv h
    obtain ⟨rs, rfl, len', hm'⟩ := equals_node_inv h'
    exact equals_node.mpr ⟨len.trans len', matched_trans ih nq.operands nr.operands hm hm'⟩
  intro q nq h t
  obtain ⟨qs, rfl, len, hm⟩ := equals_node_inv h
  have hm' := matched_symm ih np nq.operands dist len hm
  -- two Booleans are equal if each is `v` exactly if the other is
  suffices hv : (Predicate.node v ps).test t = v ↔ (Predicate.node v qs).test t = v by
    revert hv
    cases v <;> cases (Predicate.node _ ps).test t <;> simp
  rw [test_node, test_node]
  constructor
  · intro ht q hq
    obtain ⟨p, hp, hpq⟩ := hm' q hq
    rw [← (ih p hp).sound (nq.operands q hq) hpq]
    exact ht p hp
  intro ht p hp
  obtain ⟨q, hq, hpq⟩ := hm p hp
  rw [(ih p hp).sound (nq.operands q hq) hpq]
  exact ht q hq

lemma Normal.laws {p} (n : Normal p) : EqualsLaws p := by
  induction n with
  | and h np k dist ih => exact .node (v := true) (.and h np k dist) ih dist
  | or h np k dist ih => exact .node (v := false) (.or h np k dist) ih dist
  | not _ _ ih =>
    constructor
    · intro q nq h
      obtain ⟨q, rfl, hpq⟩ := equals_not_inv h
      cases nq with
      | not nq _ => simpa [equals] using ih.symm nq hpq
    · intro q r nq nr h h'
      obtain ⟨q, rfl, hpq⟩ := equals_not_inv h
      obtain ⟨r, rfl, hqr⟩ := equals_not_inv h'
      cases nq with
      | not nq _ =>
        cases nr with
        | not nr _ => simpa [equals] using ih.trans nq nr hpq hqr
    intro q nq h t
    obtain ⟨q, rfl, hpq⟩ := equals_not_inv h
    cases nq with
    | not nq _ => simp [test, ih.sound nq hpq t]
  | _ =>
    refine .of_eq fun q h => ?_
    cases q <;> simp_all [equals]

/-! ## Conjunctions and disjunctions -/

/-- Lists that can be the operands of a conjunction or a disjunction, up to their length. -/
structure Operands (kind : Predicate → Bool) (ps : List Predicate) : Prop where
  normal : ∀ p ∈ ps, Normal p
  kind : ∀ p ∈ ps, kind p = true
  distinct : ps.Pairwise fun p q => p.equals q = false

lemma Operands.nil {kind} : Operands kind [] := ⟨by simp, by simp, .nil⟩

lemma Operands.single {kind p} (n : Normal p) (k : kind p) : Operands kind [p] :=
  ⟨by simpa using n, by simpa using k, pairwise_singleton _ _⟩

/-- Appending keeps the operands distinct: the new ones were so before, and none is kept that an old
one equals. -/
lemma Operands.append {kind ps qs} (op : Operands kind ps) (op' : Operands kind qs) :
    Operands kind (appendPredicates ps qs) where
  normal p hp := by
    rcases mem_append.mp hp with h | h
    · exact op.normal p h
    · exact op'.normal p (mem_of_mem_filter h)
  kind p hp := by
    rcases mem_append.mp hp with h | h
    · exact op.kind p h
    · exact op'.kind p (mem_of_mem_filter h)
  distinct := by
    refine pairwise_append.mpr ⟨op.distinct, op'.distinct.filter _, fun p hp q hq => ?_⟩
    have hno := (mem_filter.mp hq).2
    simp only [Bool.not_eq_true', any_eq_false, Bool.not_eq_true] at hno
    exact hno p hp

lemma mem_appendPredicates {kind ps qs q} (op : Operands kind ps) (op' : Operands kind qs)
    (hq : q ∈ qs) : ∃ p ∈ appendPredicates ps qs, ∀ t, p.test t = q.test t := by
  cases hany : ps.any (·.equals q) with
  | false =>
    refine ⟨q, mem_append_right _ (mem_filter.mpr ⟨hq, ?_⟩), fun _ => rfl⟩
    simp [hany]
  | true =>
    obtain ⟨p, hp, hpq⟩ := any_eq_true.mp hany
    exact ⟨p, mem_append_left _ hp, (op.normal p hp).laws.sound (op'.normal q hq) hpq⟩

lemma mem_of_mem_appendPredicates {ps qs p} (h : p ∈ appendPredicates ps qs) : p ∈ ps ∨ p ∈ qs :=
  (mem_append.mp h).imp id mem_of_mem_filter

lemma all_appendPredicates {kind v ps qs t} (op : Operands kind ps) (op' : Operands kind qs) :
    (∀ p ∈ appendPredicates ps qs, p.test t = v) ↔
      (∀ p ∈ ps, p.test t = v) ∧ ∀ q ∈ qs, q.test t = v := by
  constructor
  · intro h
    refine ⟨fun p hp => h p (mem_append_left _ hp), fun q hq => ?_⟩
    obtain ⟨p, hp, hpq⟩ := mem_appendPredicates op op' hq
    rw [← hpq t]
    exact h p hp
  rintro ⟨hp, hq⟩ p h
  exact (mem_of_mem_appendPredicates h).elim (hp p) (hq p)

def isOperand : Bool → Predicate → Bool
  | true => isConjunct
  | false => isDisjunct

/-- One round of the loop: the operand is split into operands that can stay, or it ends the loop. -/
lemma flatten_cons {v p} (n : Normal p) (fl rest : List Predicate) :
    (p = const !v ∧ flatten v fl (p :: rest) = none) ∨
      ∃ ps, Operands (isOperand v) ps ∧ (∀ t, p.test t = v ↔ ∀ q ∈ ps, q.test t = v) ∧
        flatten v fl (p :: rest) = flatten v (appendPredicates fl ps) rest := by
  cases hk : isOperand v p with
  | true =>
    refine .inr ⟨[p], .single n hk, by simp, ?_⟩
    cases v <;> cases p <;> first | rfl | cases hk
  | false =>
    obtain ⟨ps, rfl⟩ | rfl | rfl : (∃ ps, p = node v ps) ∨ p = const v ∨ p = const !v := by
      cases v <;> cases p <;> simp_all [isOperand, isConjunct, isDisjunct, node, const]
    · refine .inr ⟨ps, ?_, fun _ => test_node, by cases v <;> rfl⟩
      cases v <;> cases n <;> exact ⟨‹_›, ‹_›, ‹_›⟩
    · refine .inr ⟨[], .nil, by simp, ?_⟩
      cases v <;> simp [flatten, const, flattenAnd, flattenOr, appendPredicates]
    · exact .inl ⟨rfl, by cases v <;> rfl⟩

/-- The loop collects operands and keeps the meaning; it stops early only at an operand that settles
it. -/
lemma flatten_spec {v rest fl} (op : Operands (isOperand v) fl) (nr : ∀ p ∈ rest, Normal p) :
    (flatten v fl rest = none ∧ const (!v) ∈ rest) ∨
      ∃ out, flatten v fl rest = some out ∧ Operands (isOperand v) out ∧
        ∀ t, (∀ p ∈ out, p.test t = v) ↔ (∀ p ∈ fl, p.test t = v) ∧ ∀ p ∈ rest, p.test t = v := by
  induction rest generalizing fl with
  | nil => exact .inr ⟨fl, by cases v <;> rfl, op, by simp⟩
  | cons p rest ih =>
    have nr' : ∀ q ∈ rest, Normal q := fun q hq => nr q (by simp [hq])
    obtain ⟨rfl, h⟩ | ⟨ps, op', meaning, h⟩ := flatten_cons (v := v) (nr p (by simp)) fl rest
    · exact .inl ⟨h, by simp⟩
    rw [h]
    obtain ⟨hn, hmem⟩ | ⟨out, ho, opo, ht⟩ := ih (op.append op') nr'
    · exact .inl ⟨hn, by simp [hmem]⟩
    refine .inr ⟨out, ho, opo, fun t => ?_⟩
    rw [ht, all_appendPredicates op op', ← meaning, forall_mem_cons, and_assoc]

lemma join_eq (v : Bool) (ps : List Predicate) : join v ps =
    match flatten v [] ps with
    | none => const !v
    | some [] => const v
    | some [p] => p
    | some flattened => node v flattened := by
  cases v <;> rfl

section

variable {v : Bool} {ps : List Predicate} (n : ∀ p ∈ ps, Normal p) (t : Task)

include n

lemma test_join : (join v ps).test t = v ↔ ∀ p ∈ ps, p.test t = v := by
  rw [join_eq]
  obtain ⟨h, hmem⟩ | ⟨out, h, -, ht⟩ := flatten_spec (v := v) .nil n
  · rw [h]
    refine ⟨fun hf => by simp at hf, fun hall => ?_⟩
    simpa using hall _ hmem
  have ht := ht t
  simp only [not_mem_nil, false_implies, implies_true, true_and] at ht
  rw [h, ← ht]
  obtain - | ⟨p, - | ⟨q, out⟩⟩ := out
  · simp
  · simp
  · exact test_node

lemma test_conj : (conj ps).test t ↔ ∀ p ∈ ps, p.test t := test_join (v := true) n t

lemma test_disj : (disj ps).test t ↔ ∃ p ∈ ps, p.test t := by
  rw [← not_iff_not]
  simpa [join] using test_join (v := false) n t

lemma Normal.join : Normal (join v ps) := by
  rw [join_eq]
  obtain ⟨h, -⟩ | ⟨out, h, op, -⟩ := flatten_spec (v := v) .nil n
  · rw [h]
    cases v <;> constructor
  rw [h]
  match out with
  | [] => cases v <;> constructor
  | [p] => exact op.normal p (by simp)
  | p :: q :: out =>
    cases v with
    | true => exact .and (by simp) op.normal op.kind op.distinct
    | false => exact .or (by simp) op.normal op.kind op.distinct

end

lemma test_neg (p : Predicate) (t : Task) : (neg p).test t = !p.test t := by
  cases p <;> simp [neg, test]

lemma Normal.neg {p} (n : Normal p) : Normal (neg p) := by
  cases n with
  | not n _ => exact n
  | universal => exact .empty
  | empty => exact .universal
  | and h1 h2 h3 h4 => exact .not (.and h1 h2 h3 h4) rfl
  | or h1 h2 h3 h4 => exact .not (.or h1 h2 h3 h4) rfl
  | namespaceIDs => exact .not .namespaceIDs rfl
  | types => exact .not .types rfl
  | destinations => exact .not .destinations rfl
  | outboundTaskGroups => exact .not .outboundTaskGroups rfl
  | outboundTasks => exact .not .outboundTasks rfl

/-! ## Task-level conjunction and disjunction -/

lemma test_ofSet {α mk t} (h : (mk ∅).test t = false)
    (s : Finset α) : (ofSet mk s).test t = (mk s).test t := by
  unfold ofSet
  split
  · rename_i hs
    rw [Finset.card_eq_zero.mp hs, h]
    rfl
  · rfl

lemma Normal.ofSet {α mk} (n : ∀ s, Normal (mk s)) (s : Finset α) : Normal (ofSet mk s) := by
  unfold Predicate.ofSet
  split
  · exact .empty
  · exact n s

lemma forall_pair {P : Predicate → Prop} {a b} (ha : P a) (hb : P b) : ∀ p ∈ [a, b], P p := by
  simpa using ⟨ha, hb⟩

variable {a b : Predicate}

section

variable (na : Normal a) (nb : Normal b) (t : Task)

include na nb

lemma test_andSets : (andSets a b).test t = (a.test t && b.test t) := by
  unfold andSets
  split
  case h_11 =>
    rw [Bool.eq_iff_iff, test_conj (forall_pair na nb), Bool.and_eq_true]
    simp
  all_goals
    rw [test_ofSet (by simp [test])]
    simp only [test]
  · simp
  · simp
  · simp
  · simp
  · cases t.destination <;> simp
  · cases t.destination <;> simp
  · cases t.stateMachineTaskType <;> simp
  · cases t.stateMachineTaskType <;> simp
  · simp
  · simp

lemma Normal.andSets : Normal (andSets a b) := by
  unfold Predicate.andSets
  split
  case h_11 => exact .join (v := true) (forall_pair na nb)
  all_goals
    refine .ofSet (fun s => ?_) _
    constructor

lemma test_orSets : (orSets a b).test t = (a.test t || b.test t) := by
  unfold orSets
  split
  case h_6 =>
    rw [Bool.eq_iff_iff, test_disj (forall_pair na nb), Bool.or_eq_true]
    simp
  all_goals simp only [test]
  · simp
  · simp
  · cases t.destination <;> simp
  · cases t.stateMachineTaskType <;> simp
  · simp

lemma Normal.orSets : Normal (orSets a b) := by
  unfold Predicate.orSets
  split
  case h_6 => exact .join (v := false) (forall_pair na nb)
  all_goals constructor

end

lemma eq_not_or (p : Predicate) : (∃ q, p = not q) ∨ nots p = 0 := by
  cases p with
  | not q => exact .inl ⟨q, rfl⟩
  | _ => exact .inr rfl

variable (n : Nat)

lemma andFuel_not_not (a b : Predicate) : andFuel (n + 1) (not a) (not b) = neg (orFuel n a b) := rfl

lemma andFuel_not (a : Predicate) {b} (hb : nots b = 0) : andFuel (n + 1) (not a) b = andSets b (not a) := by
  cases b with
  | not b => simp [nots] at hb
  | _ => rfl

lemma andFuel_sets {a} (b : Predicate) (ha : nots a = 0) : andFuel (n + 1) a b = andSets a b := by
  cases a with
  | not a => simp [nots] at ha
  | _ => rfl

lemma orFuel_not_not (a b : Predicate) : orFuel (n + 1) (not a) (not b) = neg (andFuel n a b) := rfl

lemma orFuel_not_left (a : Predicate) {b} (hb : nots b = 0) :
    orFuel (n + 1) (not a) b = neg (andFuel n a (neg b)) := by
  cases b with
  | not b => simp [nots] at hb
  | _ => rfl

lemma orFuel_not_right {a} (b : Predicate) (ha : nots a = 0) :
    orFuel (n + 1) a (not b) = neg (andFuel n b (neg a)) := by
  cases a with
  | not a => simp [nots] at ha
  | _ => rfl

lemma orFuel_sets {a b} (ha : nots a = 0) (hb : nots b = 0) : orFuel (n + 1) a b = orSets a b := by
  cases a with
  | not a => simp [nots] at ha
  | _ =>
    cases b with
    | not b => simp [nots] at hb
    | _ => rfl

lemma Normal.of_not {p} (n : Normal (.not p)) : Normal p := by
  cases n with
  | not n _ => exact n

section

variable (fuel : Nat) (na : Normal a) (nb : Normal b) (t : Task)

include na nb

/-- With any fuel the task-level operations are normal and mean conjunction and disjunction. -/
lemma fuel_spec : (Normal (andFuel fuel a b) ∧ ∀ t, (andFuel fuel a b).test t = (a.test t && b.test t)) ∧
      Normal (orFuel fuel a b) ∧ ∀ t, (orFuel fuel a b).test t = (a.test t || b.test t) := by
  induction fuel generalizing a b with
  | zero =>
    refine ⟨⟨.join (v := true) (forall_pair na nb), fun t => ?_⟩, .join (v := false) (forall_pair na nb), fun t => ?_⟩
    · rw [andFuel, Bool.eq_iff_iff, test_conj (forall_pair na nb), Bool.and_eq_true]
      simp
    rw [orFuel, Bool.eq_iff_iff, test_disj (forall_pair na nb), Bool.or_eq_true]
    simp
  | succ fuel ih =>
    obtain ⟨a, rfl⟩ | ha := eq_not_or a
    · have na' := na.of_not
      obtain ⟨b, rfl⟩ | hb := eq_not_or b
      · obtain ⟨⟨n1, t1⟩, n2, t2⟩ := ih na' nb.of_not
        refine ⟨⟨n2.neg, fun t => ?_⟩, n1.neg, fun t => ?_⟩
        · rw [andFuel_not_not, test_neg, t2, test, test, Bool.not_or]
        · rw [orFuel_not_not, test_neg, t1, test, test, Bool.not_and]
      obtain ⟨⟨n1, t1⟩, -⟩ := ih na' nb.neg
      rw [andFuel_not fuel a hb, orFuel_not_left fuel a hb]
      refine ⟨⟨nb.andSets na, fun t => ?_⟩, n1.neg, fun t => ?_⟩
      · rw [test_andSets nb na, Bool.and_comm]
      · rw [test_neg, t1, test_neg, test, Bool.not_and, Bool.not_not]
    rw [andFuel_sets fuel b ha]
    refine ⟨⟨na.andSets nb, test_andSets na nb⟩, ?_⟩
    obtain ⟨b, rfl⟩ | hb := eq_not_or b
    · obtain ⟨⟨n1, t1⟩, -⟩ := ih nb.of_not na.neg
      rw [orFuel_not_right fuel b ha]
      refine ⟨n1.neg, fun t => ?_⟩
      rw [test_neg, t1, test_neg, test, Bool.not_and, Bool.not_not, Bool.or_comm]
    rw [orFuel_sets fuel ha hb]
    exact ⟨na.orSets nb, test_orSets na nb⟩

lemma Normal.andPredicates : Normal (andPredicates a b) :=
  (fuel_spec _ na nb).1.1

lemma Normal.orPredicates : Normal (orPredicates a b) :=
  (fuel_spec _ na nb).2.1

lemma test_andPredicates : (andPredicates a b).test t = (a.test t && b.test t) :=
  (fuel_spec _ na nb).1.2 t

lemma test_orPredicates : (orPredicates a b).test t = (a.test t || b.test t) :=
  (fuel_spec _ na nb).2.2 t

end

lemma nots_neg {p} (h : nots p = 0) : nots (neg p) ≤ 1 := by
  cases p with
  | not p => simp [nots] at h
  | _ => simp [neg, nots]

end FastOrchestration.Queues.Predicate
