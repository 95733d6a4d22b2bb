import Mathlib

/-!
# Depth-first search for a cycle

A directed graph is given by the successors of each node. `search` walks it with two maps, `visited`
and `inStack`, and answers whether it has met a node that is in the stack. The maps are threaded
through the walk as a program with mutable maps does it, and the depth of the recursion is bounded by
fuel.

`search_spec` says that one unit of fuel for each node that is not visited is enough, and what an answer
means: with `true` there is a cycle, and with `false` the node is explored, which is to say that all that
can be reached from it is visited, is not in the stack and is on no cycle. `cyclic_iff` has it for the loop
over all start nodes. In a graph with at most one successor
for each node, `follow` goes to the end of a chain, and `follow_total` says that there is one.
-/

namespace FastOrchestration.Lib

open List Function Relation Finset

universe u

variable {α : Type u} [DecidableEq α]

/-- The maps of a search: what was visited, and what is in the stack. -/
structure Marks (α : Type u) where
  visited : α → Bool
  inStack : α → Bool

namespace Marks

def enter (m : Marks α) (a : α) : Marks α :=
  ⟨update m.visited a true, update m.inStack a true⟩

def leave (m : Marks α) (a : α) : Marks α := ⟨m.visited, update m.inStack a false⟩

end Marks

/-- A search from each node of a list, until one of them answers `true`. -/
def searchAll (f : α → Marks α → Option (Bool × Marks α)) :
    List α → Marks α → Option (Bool × Marks α)
  | [], m => some (false, m)
  | a :: as, m =>
    match f a m with
    | none => none
    | some (true, m) => some (true, m)
    | some (false, m) => searchAll f as m

def search (next : α → List α) : Nat → α → Marks α → Option (Bool × Marks α)
  | 0, _, _ => none
  | fuel + 1, a, m =>
    if m.inStack a then some (true, m)
    else if m.visited a then some (false, m)
    else
      match searchAll (search next fuel) (next a) (m.enter a) with
      | some (false, m) => some (false, m.leave a)
      | result => result

/-- The search from all start nodes, with one map of visited nodes and a new stack for each. -/
def cyclic (next : α → List α) (fuel : Nat) : List α → (α → Bool) → Option Bool
  | [], _ => some false
  | a :: as, visited =>
    match search next fuel a ⟨visited, fun _ => false⟩ with
    | none => none
    | some (true, _) => some true
    | some (false, m) => cyclic next fuel as m.visited

section Spec

variable {next : α → List α} {m : Marks α}

def Edge (next : α → List α) (a b : α) : Prop := b ∈ next a

def HasCycle (next : α → List α) : Prop := ∃ a, TransGen (Edge next) a a

/-- What is visited and no longer in the stack is closed under successors and on no cycle. -/
structure Explored (next : α → List α) (m : Marks α) : Prop where
  stack : ∀ a, m.inStack a = true → m.visited a = true
  closed : ∀ a, m.visited a = true → m.inStack a = false → ∀ b ∈ next a, m.visited b = true ∧ m.inStack b = false
  acyclic : ∀ a, m.visited a = true → m.inStack a = false → ¬ TransGen (Edge next) a a

omit [DecidableEq α] in
lemma Explored.reach (h : Explored next m) {a b} (hr : TransGen (Edge next) a b)
    (hv : m.visited a) (hs : m.inStack a = false) : m.visited b ∧ m.inStack b = false := by
  induction hr with
  | single he => exact h.closed a hv hs _ he
  | tail _ he ih => exact h.closed _ ih.1 ih.2 _ he

/-- What a search that does not find a cycle leaves behind. -/
structure Leaves (next : α → List α) (m m' : Marks α) : Prop where
  explored : Explored next m'
  grows : ∀ a, m.visited a = true → m'.visited a = true
  inStack : m'.inStack = m.inStack

omit [DecidableEq α] in
lemma Leaves.trans {m m' m''} (h : Leaves next m m') (h' : Leaves next m' m'') : Leaves next m m'' :=
  ⟨h'.explored, fun a ha => h'.grows a (h.grows a ha), h'.inStack.trans h.inStack⟩

/-- What the answer of a search means, for a node with the nodes of the stack before it. -/
def Answers (next : α → List α) (a : α) (m : Marks α) (result : Bool × Marks α) : Prop :=
  match result.1 with
  | true => HasCycle next
  | false => Leaves next m result.2 ∧ result.2.visited a = true ∧ m.inStack a = false

def AnswersAll (next : α → List α) (as : List α) (m : Marks α) (result : Bool × Marks α) : Prop :=
  match result.1 with
  | true => HasCycle next
  | false => Leaves next m result.2 ∧ ∀ a ∈ as, result.2.visited a = true ∧ m.inStack a = false

variable {nodes : Finset α}

def unvisited (nodes : Finset α) (visited : α → Bool) : Finset α :=
  nodes.filter fun a => visited a = false

omit [DecidableEq α] in
lemma unvisited_subset {visited visited' : α → Bool} (h : ∀ a, visited a → visited' a) :
    unvisited nodes visited' ⊆ unvisited nodes visited := by
  refine monotone_filter_right _ fun a _ ha => ?_
  exact Bool.eq_false_iff.mpr fun hv => Bool.eq_false_iff.mp ha (h a hv)

lemma visited_enter {a b : α} (hb : m.visited b) : (m.enter a).visited b := by
  by_cases hne : b = a
  · simp [Marks.enter, hne]
  · simpa only [Marks.enter, update_of_ne hne] using hb

lemma unvisited_update_lt {visited a} (ha : a ∈ nodes) (hv : visited a = false) :
    (unvisited nodes (update visited a true)).card < (unvisited nodes visited).card := by
  have hsub : unvisited nodes (update visited a true) ⊆ unvisited nodes visited :=
    unvisited_subset fun b => visited_enter (m := ⟨visited, visited⟩)
  refine card_lt_card ((ssubset_iff_of_subset hsub).mpr ⟨a, mem_filter.mpr ⟨ha, hv⟩, fun h => ?_⟩)
  simpa using (mem_filter.mp h).2

omit [DecidableEq α] in
lemma searchAll_spec {f as n} {stack}
    (hf : ∀ a ∈ as, ∀ m, m.inStack = stack → Explored next m → (unvisited nodes m.visited).card ≤ n →
      ∃ result, f a m = some result ∧ Answers next a m result)
    (hm : Explored next m) (hs : m.inStack = stack) (hn : (unvisited nodes m.visited).card ≤ n) :
    ∃ result, searchAll f as m = some result ∧ AnswersAll next as m result := by
  induction as generalizing m with
  | nil => exact ⟨_, rfl, ⟨hm, fun _ h => h, rfl⟩, nofun⟩
  | cons a as ih =>
    obtain ⟨⟨found, m'⟩, heq, hans⟩ := hf a mem_cons_self m hs hm hn
    simp only [searchAll, heq]
    cases found with
    | true => exact ⟨_, rfl, hans⟩
    | false =>
      obtain ⟨hl, hv, hstk⟩ := hans
      obtain ⟨⟨found, m''⟩, heq', hrest⟩ := ih (fun b hb => hf b (mem_cons_of_mem _ hb)) hl.explored
        (hl.inStack.trans hs) ((card_le_card (unvisited_subset hl.grows)).trans hn)
      refine ⟨_, heq', ?_⟩
      cases found with
      | true => exact hrest
      | false =>
        refine ⟨hl.trans hrest.1, forall_mem_cons.mpr ⟨⟨hrest.1.grows _ hv, hstk⟩, fun b hb => ?_⟩⟩
        exact ⟨(hrest.2 b hb).1, hl.inStack ▸ (hrest.2 b hb).2⟩

/-- Visited, and no longer in the stack. -/
def Marks.done (m : Marks α) (a : α) : Prop := m.visited a = true ∧ m.inStack a = false

lemma Marks.done_enter {a b} (hv : m.visited a = false) : (m.enter a).done b ↔ m.done b := by
  by_cases hne : b = a
  · simp [done, enter, hne, hv]
  · simp [done, enter, hne]

lemma Marks.done_leave {a b} (hs : m.inStack a) : (m.leave a).done b ↔ m.done b ∨ b = a ∧ m.visited a := by
  by_cases hne : b = a
  · simp [done, leave, hne, hs]
  · simp [done, leave, hne]

/-- A node is entered. It is in the stack from then on, so nothing new is explored. -/
lemma Explored.enter (h : Explored next m) {a} (hv : m.visited a = false) : Explored next (m.enter a) := by
  refine ⟨fun b hb => ?_, fun b hb hs c hc => ?_, fun b hb hs => ?_⟩
  · by_cases hne : b = a
    · simp [Marks.enter, hne]
    simp only [Marks.enter, update_of_ne hne] at hb ⊢
    exact h.stack b hb
  · obtain ⟨hb, hs⟩ := (Marks.done_enter hv).mp ⟨hb, hs⟩
    exact (Marks.done_enter hv).mpr (h.closed b hb hs c hc)
  · obtain ⟨hb, hs⟩ := (Marks.done_enter hv).mp ⟨hb, hs⟩
    exact h.acyclic b hb hs

/-- A node is left whose successors are all explored. A cycle through it would come back to it from
one of them. -/
lemma Explored.leave (h : Explored next m) {a} (hs : m.inStack a) (hnext : ∀ b ∈ next a, m.done b) :
    Explored next (m.leave a) := by
  refine ⟨fun b hb => ?_, fun b hb hbs c hc => (Marks.done_leave hs).mpr (.inl ?_), fun b hb hbs hcycle => ?_⟩
  · by_cases hne : b = a
    · simp [Marks.leave, hne] at hb
    simp only [Marks.leave, update_of_ne hne] at hb
    exact h.stack b hb
  · obtain ⟨hb, hbs⟩ | ⟨rfl, -⟩ := (Marks.done_leave hs).mp ⟨hb, hbs⟩
    · exact h.closed b hb hbs c hc
    · exact hnext c hc
  obtain ⟨hb, hbs⟩ | ⟨rfl, -⟩ := (Marks.done_leave hs).mp ⟨hb, hbs⟩
  · exact h.acyclic b hb hbs hcycle
  obtain ⟨c, hc, hback⟩ := TransGen.head'_iff.mp hcycle
  obtain ⟨hcv, hcs⟩ := hnext c hc
  have hbad : m.inStack b = false := by
    obtain rfl | hback := reflTransGen_iff_eq_or_transGen.mp hback
    · exact hcs
    · exact (h.reach hback hcv hcs).2
  rw [hs] at hbad
  cases hbad

lemma search_spec (hclosed : ∀ a ∈ nodes, ∀ b ∈ next a, b ∈ nodes) {fuel a} (ha : a ∈ nodes) (hm : Explored next m)
    (hstack : ∀ b, m.inStack b → TransGen (Edge next) b a) (hn : (unvisited nodes m.visited).card < fuel) :
    ∃ result, search next fuel a m = some result ∧ Answers next a m result := by
  induction fuel generalizing a m with
  | zero => exact absurd hn (Nat.not_lt_zero _)
  | succ fuel ih =>
    simp only [search]
    split
    · next hs => exact ⟨_, rfl, a, hstack a hs⟩
    next hs =>
    have hs : m.inStack a = false := Bool.eq_false_iff.mpr hs
    split
    · next hv => exact ⟨_, rfl, ⟨hm, fun _ h => h, rfl⟩, hv, hs⟩
    next hv =>
    have hv : m.visited a = false := Bool.eq_false_iff.mpr hv
    -- a successor is reached from the node and from all that is below it in the stack
    have hbelow : ∀ b ∈ next a, ∀ c, (m.enter a).inStack c → TransGen (Edge next) c b := by
      intro b hb c hc
      by_cases hne : c = a
      · exact hne ▸ .single hb
      simp only [Marks.enter, update_of_ne hne] at hc
      exact (hstack c hc).tail hb
    have hlt : (unvisited nodes (m.enter a).visited).card < (unvisited nodes m.visited).card := unvisited_update_lt ha hv
    obtain ⟨⟨found, m'⟩, heq, hall⟩ := searchAll_spec
      (fun b hb m hms hexp hle => ih (hclosed a ha b hb) hexp (hms ▸ hbelow b hb) (by omega)) (hm.enter hv) rfl
      (show (unvisited nodes (m.enter a).visited).card ≤ fuel - 1 by omega)
    rw [heq]
    cases found with
    | true => exact ⟨_, rfl, hall⟩
    | false =>
      obtain ⟨hl, hnext⟩ := hall
      have hstk : m'.inStack = update m.inStack a true := hl.inStack
      have hin : m'.inStack a := by
        rw [hstk, update_self]
      refine ⟨_, rfl, ⟨hl.explored.leave hin fun b hb => ?_, fun b hb => hl.grows b (visited_enter hb), ?_⟩,
        hl.grows a (by simp [Marks.enter]), hs⟩
      · obtain ⟨hb, hbs⟩ := hnext b hb
        exact ⟨hb, hl.inStack ▸ hbs⟩
      · show update m'.inStack a false = m.inStack
        rw [hstk, update_idem, ← hs, update_eq_self]

/-- From all nodes with successors, and with fuel for all nodes, the search answers whether there is a
cycle. -/
theorem cyclic_iff (nodes : Finset α) (hclosed : ∀ a ∈ nodes, ∀ b ∈ next a, b ∈ nodes) {starts}
    (hstarts : ∀ a ∈ starts, a ∈ nodes) (hall : ∀ a, next a ≠ [] → a ∈ starts) {fuel}
    (hfuel : nodes.card < fuel) :
    ∃ found, cyclic next fuel starts (fun _ => false) = some found ∧ (found ↔ HasCycle next) := by
  -- the marks between two starts: all stacks are empty, so all that is visited is explored
  have loop : ∀ starts visited, (∀ a ∈ starts, a ∈ nodes) → Explored next ⟨visited, fun _ => false⟩ →
      ∃ found, cyclic next fuel starts visited = some found ∧ (found → HasCycle next) ∧
        (found = false → ∃ visited', Explored next ⟨visited', fun _ => false⟩ ∧
          (∀ a, visited a → visited' a) ∧ ∀ a ∈ starts, visited' a) := by
    intro starts
    induction starts with
    | nil =>
      intro visited _ hv
      exact ⟨false, rfl, nofun, fun _ => ⟨visited, hv, fun _ h => h, nofun⟩⟩
    | cons a as ih =>
      intro visited hin hv
      have hleft : (unvisited nodes visited).card < fuel :=
        (card_filter_le _ _).trans_lt hfuel
      obtain ⟨⟨found, m⟩, heq, hans⟩ := search_spec hclosed (hin a mem_cons_self) hv nofun hleft
      simp only [cyclic, heq]
      cases found with
      | true => exact ⟨true, rfl, fun _ => hans, nofun⟩
      | false =>
        obtain ⟨hl, hva, -⟩ := hans
        have hm : m = ⟨m.visited, fun _ => false⟩ := by
          have hstk : m.inStack = fun _ => false := hl.inStack
          rw [← hstk]
        have hexp : Explored next ⟨m.visited, fun _ => false⟩ := hm ▸ hl.explored
        obtain ⟨found, heq', htrue, hfalse⟩ := ih m.visited (fun b hb => hin b (mem_cons_of_mem _ hb)) hexp
        refine ⟨found, heq', htrue, fun hf => ?_⟩
        obtain ⟨visited', hexp', hgrow, hvis⟩ := hfalse hf
        refine ⟨visited', hexp', fun b hb => hgrow b (hl.grows b hb), fun b hb => ?_⟩
        obtain rfl | hb := mem_cons.mp hb
        · exact hgrow _ hva
        · exact hvis b hb
  obtain ⟨found, heq, htrue, hfalse⟩ := loop starts (fun _ => false) hstarts ⟨nofun, nofun, nofun⟩
  refine ⟨found, heq, htrue, fun ⟨a, hcycle⟩ => ?_⟩
  cases found with
  | true => rfl
  | false =>
    obtain ⟨visited', hexp, -, hvis⟩ := hfalse rfl
    obtain ⟨b, hb, -⟩ := TransGen.head'_iff.mp hcycle
    exact absurd hcycle (hexp.acyclic a (hvis a (hall a (ne_nil_of_mem hb))) rfl)

end Spec

/-! ## Following a chain -/

section Follow

variable {hop : α → Option α}

/-- From one element to the next, up to one that has no next. -/
def follow (hop : α → Option α) : Nat → α → Option α
  | 0, _ => none
  | fuel + 1, a =>
    match hop a with
    | none => some a
    | some b => follow hop fuel b

omit [DecidableEq α] in
open Classical in
/-- Without a cycle, a chain ends after at most as many hops as there are elements with a next. -/
theorem follow_total (hacyclic : ∀ a, ¬ TransGen (fun a b => hop a = some b) a a)
    (sources : Finset α) (hsources : ∀ a, hop a ≠ none → a ∈ sources) (a : α) :
    ∃ last, hop last = none ∧ ∀ fuel > sources.card, follow hop fuel a = some last := by
  let ahead (a : α) : Finset α :=
    sources.filter fun b => ReflTransGen (fun a b => hop a = some b) a b
  -- the sources ahead get fewer with each hop, since no hop leads back
  have main : ∀ n a, (ahead a).card ≤ n → ∃ last, hop last = none ∧ ∀ fuel > n, follow hop fuel a = some last := by
    intro n
    induction n using Nat.strong_induction_on with
    | _ n ih =>
      intro a ha
      cases hhop : hop a with
      | none =>
        refine ⟨a, hhop, fun fuel hfuel => ?_⟩
        obtain ⟨k, rfl⟩ : ∃ k, fuel = k + 1 := ⟨fuel - 1, by omega⟩
        simp only [follow, hhop]
      | some b =>
        have hsub : ahead b ⊂ ahead a := by
          refine (ssubset_iff_of_subset fun c hc => ?_).mpr ⟨a, ?_, fun h => ?_⟩
          · obtain ⟨hc, hr⟩ := mem_filter.mp hc
            exact mem_filter.mpr ⟨hc, hr.head hhop⟩
          · exact mem_filter.mpr ⟨hsources a (by simp [hhop]), ReflTransGen.refl⟩
          · exact hacyclic a (TransGen.head' hhop (mem_filter.mp h).2)
        have hlt := card_lt_card hsub
        obtain ⟨last, hlast, hall⟩ := ih (n - 1) (by omega) b (by omega)
        refine ⟨last, hlast, fun fuel hfuel => ?_⟩
        obtain ⟨k, rfl⟩ : ∃ k, fuel = k + 1 := ⟨fuel - 1, by omega⟩
        simp only [follow, hhop]
        exact hall k (by omega)
  exact main sources.card a (card_filter_le _ _)

end Follow

end FastOrchestration.Lib
