import FastOrchestration.Hsm.Tree

/-!
# The operation log of a transaction

Compaction goes by paths, and a path does not tell a machine from the deleted one that it replaces. `Dirty`
looks at the nodes that are left, and a deletion marks none. `opLog_dirty` says that both are right in every
transaction that does not transition or delete below a machine that was added again, and that deletes
machines of the start only below something dirty (`Traced`); `readded_deleted` has a run without the first
condition and one without the second.
-/

namespace FastOrchestration.Hsm

open Lib List Node Tree

variable {δ ω : Type}

/-- The machine that decides whether an operation counts: the one of a transition, the parent for a
deletion. -/
def hostNode : Node × Operation ω → Node
  | (n, .transition _ _ _) => n
  | (.child p _ _, .delete _) => p
  | (.root, .delete _) => .root

namespace Tree

/-- What the log of the transaction should be, in the order of the operations: the transitions of the
machines that are alive, and the deletions of machines whose parent is alive. -/
def expected (t : Tree δ ω) : List (Operation ω) :=
  (t.trace.filter fun e => t.alive (hostNode e)).map (·.2)

/-- The condition under which the log and the flags tell what an operation does. -/
def Traced (t : Tree δ ω) : Event δ ω → Prop
  | .machineTransition n _ _ _ => t.alive n → ¬ deletedAbove t.opLog n.path
  | .deleteChild n key => t.alive n → ¬ deletedAbove t.opLog n.path ∧
      ((t.start (n.path ++ [key])).isNone ∨ ∃ a ∈ t.dirty, t.alive a ∧ a.path <+: n.path)
  | _ => True

instance (t : Tree δ ω) (e : Event δ ω) : Decidable (t.Traced e) := by
  cases e <;> unfold Traced <;> infer_instance

end Tree

/-! ### Nodes in a tree -/

def Node.Bounded (next : Nat) : Node → Prop
  | .root => True
  | .child p _ i => i < next ∧ p.Bounded next

variable {n : Node}

lemma Node.Bounded.mono {a b} (h : n.Bounded a) (hab : a ≤ b) : n.Bounded b := by
  induction n with
  | root => trivial
  | child p k i ih => exact ⟨Nat.lt_of_lt_of_le h.1 hab, ih h.2⟩

namespace Tree

variable {t t' : Tree δ ω}

lemma alive_child {p k i} : t.alive (.child p k i) ↔ .child p k i ∈ t.children ∧ t.alive p := by
  simp [alive, isLinked]

lemma mem_of_alive {n} (h : t.alive n) : n ∈ root :: t.children := by
  cases n with
  | root => simp
  | child p k i => exact mem_cons_of_mem _ (alive_child.mp h).1

lemma alive_mono (hsub : ∀ n ∈ t'.children, n ∈ t.children) {n} (h : t'.alive n) : t.alive n := by
  induction n with
  | root => rfl
  | child p k i ih =>
    obtain ⟨hin, hp⟩ := alive_child.mp h
    exact alive_child.mpr ⟨hsub _ hin, ih hp⟩

lemma alive_prefix (h : t.alive n) {q} (hq : q <+: n.path) : ∃ a, t.alive a ∧ a.path = q := by
  induction n with
  | root => exact ⟨.root, rfl, (prefix_nil.mp hq).symm⟩
  | child p k i ih =>
    rcases prefix_concat_iff.mp hq with rfl | hp
    · exact ⟨_, h, rfl⟩
    · exact ih (alive_child.mp h).2 hp

def Unique (t : Tree δ ω) : Prop :=
  ∀ p k i j, child p k i ∈ t.children → child p k j ∈ t.children → i = j

lemma Unique.path (h : t.Unique) {n m : Node} (hn : t.alive n) (hm : t.alive m) (heq : n.path = m.path) : n = m := by
  induction n generalizing m with
  | root =>
    cases m with
    | root => rfl
    | child p k i => simp [Node.path] at heq
  | child p k i ih =>
    cases m with
    | root => simp [Node.path] at heq
    | child p' k' i' =>
      obtain ⟨hin, hp⟩ := alive_child.mp hn
      obtain ⟨hin', hp'⟩ := alive_child.mp hm
      obtain ⟨hpath, hkey⟩ := append_inj' heq rfl
      obtain rfl := ih hp hp' hpath
      obtain rfl : k = k' := by simpa using hkey
      rw [h p k i i' hin hin']

lemma path_of_walks {c n : Node} (h : t.walks c n) : c.path <+: n.path := by
  induction n with
  | root =>
    obtain rfl : c = .root := by simpa [walks, isBelow] using h
    exact prefix_rfl
  | child p k i ih =>
    simp only [walks, isBelow, Bool.or_eq_true, decide_eq_true_eq, Bool.and_eq_true] at h
    rcases h with rfl | ⟨-, hp⟩
    · exact prefix_rfl
    · exact (ih hp).trans (prefix_append _ _)

/-! ### Persisted machines -/

lemma Unique.persisted_some (h : t.Unique) (hn : t.alive n) : t.persisted n.path = some (t.persistence n) := by
  unfold persisted
  cases hf : (root :: t.children).find? fun m => m.path = n.path ∧ t.alive m with
  | none =>
    have hnot := find?_eq_none.mp hf n (mem_of_alive hn)
    exact absurd (decide_eq_true ⟨rfl, hn⟩) hnot
  | some m =>
    have hm := find?_some hf
    simp only [decide_eq_true_eq] at hm
    rw [h.path hm.2 hn hm.1]
    rfl

lemma persisted_none {path} (h : ∀ n, t.alive n → n.path ≠ path) : t.persisted path = none := by
  unfold persisted
  rw [Option.map_eq_none_iff, find?_eq_none]
  intro m _ hm
  simp only [decide_eq_true_eq] at hm
  exact h m hm.2 hm.1

lemma Unique.persisted_congr (h : t.Unique) (h' : t'.Unique) {path}
    (halive : ∀ n, n.path = path → (t'.alive n ↔ t.alive n))
    (hsame : ∀ n, n.path = path → t.alive n → t'.persistence n = t.persistence n) :
    t'.persisted path = t.persisted path := by
  by_cases hex : ∃ n, t.alive n ∧ n.path = path
  · obtain ⟨n, hn, rfl⟩ := hex
    rw [h.persisted_some hn, h'.persisted_some ((halive n rfl).mpr hn), hsame n rfl hn]
  have hnone : ∀ n, t.alive n → n.path ≠ path := fun n hn heq => hex ⟨n, hn, heq⟩
  rw [persisted_none hnone, persisted_none]
  exact fun n hn heq => hnone n ((halive n heq).mp hn) heq

/-! ### The invariant -/

structure Inv (t : Tree δ ω) : Prop where
  unique : t.Unique
  nodup : t.children.Nodup
  bounded : ∀ n, n ∈ t.children ∨ n ∈ root :: t.cached → n.Bounded t.next
  cachedParent : ∀ p k i, child p k i ∈ t.cached → p ∈ root :: t.cached
  dirtyCached : ∀ n ∈ t.dirty, n ∈ root :: t.cached
  log : t.opLog = t.trace.map (·.2)
  host : ∀ e ∈ t.trace, e.2.host = (hostNode e).path ∧ hostNode e ∈ root :: t.cached ∧ (e.2.isDelete → e.2.path ≠ [])
  /-- What was done to a machine that is alive is not below a deleted path. -/
  kept : ∀ e ∈ t.trace, t.alive (hostNode e) → ¬ deletedAbove t.opLog (hostNode e).path
  /-- What is not alive is below a deleted path. -/
  lost : ∀ n ∈ root :: t.cached, ¬ t.alive n → deletedAbove t.opLog n.path
  startParent : ∀ p q, p <+: q → (t.start p).isNone → (t.start q).isNone
  changed : ∀ path, t.persisted path ≠ t.start path → ∃ n ∈ t.dirty, t.alive n ∧ n.path <+: path

lemma Inv.reached (h : t.Inv) {n} (hn : t.alive n) (hc : n ∈ root :: t.cached) : t.reached n := by
  induction n with
  | root => rfl
  | child p k i ih =>
    have hin : .child p k i ∈ t.cached := by simpa using hc
    obtain ⟨hchild, hp⟩ := alive_child.mp hn
    have hparent := ih hp (h.cachedParent p k i hin)
    simp only [Tree.reached] at hparent ⊢
    simp [isLinked, hchild, hin, hparent]

lemma Inv.compacted (h : t.Inv) : t.compacted = .ok t.expected := by
  have hne : ∀ q, .delete q ∈ t.opLog → q ≠ [] := by
    intro q hq
    rw [h.log] at hq
    obtain ⟨e, he, heq⟩ := mem_map.mp hq
    have := (h.host e he).2.2
    rw [heq] at this
    exact this rfl
  have hkeep : ∀ e ∈ t.trace, (!deletedAbove t.opLog e.2.host) = t.alive (hostNode e) := by
    intro e he
    rw [(h.host e he).1, Bool.eq_iff_iff, Bool.not_eq_true', ← Bool.not_eq_true]
    constructor
    · intro hnot
      by_contra hdead
      exact hnot (h.lost _ (h.host e he).2.1 hdead)
    · exact h.kept e he
  rw [Tree.compacted, compact_eq hne]
  congr 1
  rw [expected, h.log, filter_map]
  congr 1
  apply filter_congr
  intro e he
  rw [← hkeep e he, h.log]
  rfl

lemma Inv.isDirty (h : t.Inv) (hne : t.persisted ≠ t.start) : t.isDirty := by
  obtain ⟨path, hpath⟩ := Function.ne_iff.mp hne
  obtain ⟨n, hn, halive, -⟩ := h.changed path hpath
  exact any_eq_true.mpr ⟨n, hn, h.reached halive (h.dirtyCached n hn)⟩

lemma lookup_some {n key c} (h : t.lookup n key = some c) : ∃ i, c = .child n key i ∧ c ∈ t.children := by
  have hc := find?_some h
  cases c with
  | root => simp at hc
  | child p k i =>
    simp only [decide_eq_true_eq] at hc
    obtain ⟨rfl, rfl⟩ := hc
    exact ⟨i, rfl, mem_of_find?_eq_some h⟩

lemma lookup_none {n key} (h : ¬ (t.lookup n key).isSome) (i : Nat) : .child n key i ∉ t.children := by
  intro hin
  rw [Bool.not_eq_true, Option.isSome_eq_false_iff, Option.isNone_iff_eq_none] at h
  have := find?_eq_none.mp h _ hin
  simp at this

/-! ### Loading a child -/

inductive Loads (t : Tree δ ω) (n : Node) (key : Key) : Node → Tree δ ω → Prop
  | mk (i : Nat) (cached : List Node) (hin : .child n key i ∈ t.children) (hc : .child n key i ∈ cached)
    (hsub : ∀ m ∈ t.cached, m ∈ cached) (hcached : ∀ m ∈ cached, m ∈ t.cached ∨ m = .child n key i) :
    Loads t n key (.child n key i) { t with cached }

lemma childNode_ok {n c key} (h : t.childNode n key = .ok (c, t')) : Loads t n key c t' := by
  unfold childNode at h
  split at h
  · cases h
  next c' hl =>
  obtain ⟨i, rfl, hin⟩ := lookup_some hl
  split at h
  · next hc =>
    cases h
    exact .mk i t.cached hin hc (fun _ hm => hm) fun _ hm => .inl hm
  split at h
  · cases h
    exact .mk i _ hin (by simp) (fun _ hm => by simp [hm]) fun m hm => (mem_cons.mp hm).symm
  · cases h

lemma deletedAbove_mono {log : List (Operation ω)} {p q : Path} (h : deletedAbove log p) (hpq : p <+: q) :
    deletedAbove log q := by
  obtain ⟨r, hr, hrp⟩ := deletedAbove_iff.mp h
  exact deletedAbove_iff.mpr ⟨r, hr, hrp.trans hpq⟩

lemma mem_root_cons {l l'} (h : ∀ m ∈ l, m ∈ l') {n} (hn : n ∈ root :: l) : n ∈ root :: l' := by
  rcases mem_cons.mp hn with rfl | hn
  · simp
  · exact mem_cons_of_mem _ (h n hn)

lemma Inv.load (h : t.Inv) {n c key} (hn : n ∈ root :: t.cached) (hl : Loads t n key c t') : t'.Inv := by
  cases hl with
  | mk i cached hin hc hsub hcached =>
    refine ⟨h.unique, h.nodup, ?_, ?_, fun m hm => mem_root_cons hsub (h.dirtyCached m hm), h.log, ?_, h.kept, ?_,
      h.startParent, h.changed⟩
    · rintro m (hm | _ | ⟨_, hm⟩)
      · exact h.bounded m (.inl hm)
      · trivial
      rcases hcached m hm with hm | rfl
      · exact h.bounded m (.inr (by simp [hm]))
      · exact h.bounded _ (.inl hin)
    · intro p k j hj
      rcases hcached _ hj with hj | heq
      · exact mem_root_cons hsub (h.cachedParent p k j hj)
      cases heq
      exact mem_root_cons hsub hn
    · intro e he
      obtain ⟨hpath, hmem, hdel⟩ := h.host e he
      exact ⟨hpath, mem_root_cons hsub hmem, hdel⟩
    rintro m (_ | ⟨_, hm⟩) hdead
    · exact absurd rfl hdead
    rcases hcached m hm with hm | rfl
    · exact h.lost m (by simp [hm]) hdead
    have hparent : ¬ t.alive n := fun ha => hdead (alive_child.mpr ⟨hin, ha⟩)
    exact deletedAbove_mono (h.lost n hn hparent) (prefix_append _ _)

/-! ### Adding a child -/

section insert

variable {n : Node} {key : Key} {data : δ} {version : VersionedTransition} {m : Node}

lemma not_bounded_new : ¬ (child n key t.next).Bounded t.next := fun h => Nat.lt_irrefl _ h.1

lemma alive_insert (hm : m.Bounded t.next) : (t.insert (.child n key t.next) data version).alive m = t.alive m := by
  induction m with
  | root => rfl
  | child p k i ih =>
    have hne : child p k i ≠ .child n key t.next := fun heq => not_bounded_new (heq ▸ hm)
    have hp : isLinked (.child n key t.next :: t.children) p = isLinked t.children p := ih hm.2
    simp only [alive, isLinked, insert, mem_cons, hne, false_or, hp]

variable (h : t.Inv)

include h

lemma Inv.bounded_of_alive (hm : t.alive m) : m.Bounded t.next := by
  rcases mem_cons.mp (mem_of_alive hm) with rfl | hin
  · trivial
  · exact h.bounded m (.inl hin)

lemma Inv.alive_insert_of_alive {m} (hm : t.alive m) : (t.insert (.child n key t.next) data version).alive m := by
  rw [alive_insert (h.bounded_of_alive hm)]
  exact hm

lemma Inv.alive_insert_cases (hn : n.Bounded t.next) (hm : (t.insert (.child n key t.next) data version).alive m) :
    m = .child n key t.next ∧ t.alive n ∨ m.Bounded t.next ∧ t.alive m := by
  rcases mem_cons.mp (mem_of_alive hm) with rfl | hin
  · exact .inr ⟨trivial, rfl⟩
  rcases mem_cons.mp hin with rfl | hin
  · left
    refine ⟨rfl, ?_⟩
    rw [← @alive_insert δ ω t n key data version n hn]
    exact (alive_child.mp hm).2
  right
  have hb := h.bounded m (.inl hin)
  rw [alive_insert hb] at hm
  exact ⟨hb, hm⟩

lemma Inv.unique_insert (hnone : ¬ (t.lookup n key).isSome) : (t.insert (.child n key t.next) data version).Unique := by
  rintro p k i j (_ | ⟨_, hi⟩) (_ | ⟨_, hj⟩)
  · rfl
  · exact absurd hj (lookup_none hnone j)
  · exact absurd hi (lookup_none hnone i)
  · exact h.unique p k i j hi hj

lemma Inv.persisted_insert (hn : n.Bounded t.next) (hnone : ¬ (t.lookup n key).isSome) {path}
    (hpath : ¬ (path = n.path ++ [key] ∧ t.alive n)) :
    (t.insert (.child n key t.next) data version).persisted path = t.persisted path := by
  apply h.unique.persisted_congr (h.unique_insert hnone)
  · intro m hm
    refine ⟨fun ha => ?_, h.alive_insert_of_alive⟩
    rcases h.alive_insert_cases hn ha with ⟨rfl, hparent⟩ | ⟨-, hold⟩
    · exact absurd ⟨hm.symm, hparent⟩ hpath
    · exact hold
  intro m _ ha
  refine Function.update_of_ne ?_ _ _
  rintro rfl
  exact not_bounded_new (h.bounded_of_alive ha)

lemma Inv.insert (hn : n ∈ root :: t.cached) (hnone : ¬ (t.lookup n key).isSome) :
    (t.insert (.child n key t.next) data version).Inv := by
  have hnb := h.bounded n (.inr hn)
  have hsub : ∀ m ∈ t.cached, m ∈ child n key t.next :: t.cached := fun m hm => mem_cons_of_mem _ hm
  have hnew : (child n key t.next).Bounded (t.next + 1) := ⟨Nat.lt_succ_self _, hnb.mono (Nat.le_succ _)⟩
  refine ⟨h.unique_insert hnone, ?_, ?_, ?_, ?_, h.log, ?_, ?_, ?_, h.startParent, ?_⟩
  · exact nodup_cons.mpr ⟨fun hin => not_bounded_new (h.bounded _ (.inl hin)), h.nodup⟩
  · rintro m ((_ | ⟨_, hm⟩) | _ | ⟨_, _ | ⟨_, hm⟩⟩)
    · exact hnew
    · exact (h.bounded m (.inl hm)).mono (Nat.le_succ _)
    · trivial
    · exact hnew
    · exact (h.bounded m (.inr (mem_cons_of_mem _ hm))).mono (Nat.le_succ _)
  · rintro p k i (_ | ⟨_, hi⟩)
    · exact mem_root_cons hsub hn
    · exact mem_root_cons hsub (h.cachedParent p k i hi)
  · rintro m (_ | ⟨_, hm⟩)
    · exact mem_cons_of_mem _ mem_cons_self
    · exact mem_root_cons hsub (h.dirtyCached m hm)
  · intro e he
    obtain ⟨hpath, hmem, hdel⟩ := h.host e he
    exact ⟨hpath, mem_root_cons hsub hmem, hdel⟩
  · intro e he ha
    apply h.kept e he
    rw [alive_insert (h.bounded _ (.inr (h.host e he).2.1))] at ha
    exact ha
  · rintro m (_ | ⟨_, _ | ⟨_, hm⟩⟩) hdead
    · exact absurd rfl hdead
    · have hparent : ¬ t.alive n := fun ha =>
        hdead (alive_child.mpr ⟨mem_cons_self, h.alive_insert_of_alive ha⟩)
      exact deletedAbove_mono (h.lost n hn hparent) (prefix_append _ _)
    · exact h.lost m (mem_cons_of_mem _ hm) fun ha => hdead (h.alive_insert_of_alive ha)
  intro path hpath
  by_cases hnode : path = n.path ++ [key] ∧ t.alive n
  · obtain ⟨rfl, ha⟩ := hnode
    exact ⟨_, mem_cons_self, alive_child.mpr ⟨mem_cons_self, h.alive_insert_of_alive ha⟩, prefix_rfl⟩
  rw [h.persisted_insert hnb hnone hnode] at hpath
  obtain ⟨m, hm, ha, hprefix⟩ := h.changed path hpath
  exact ⟨m, mem_cons_of_mem _ hm, h.alive_insert_of_alive ha, hprefix⟩

omit h

end insert

lemma Inv.addChild (h : t.Inv) {n key data version}
    (hn : n ∈ root :: t.cached) (hs : t.addChild n key data version = .ok t') : t'.Inv ∧ t'.start = t.start := by
  unfold Tree.addChild at hs
  split at hs
  · cases hs
  next hnone =>
  split at hs
  · cases hs
  cases hs
  exact ⟨h.insert hn hnone, rfl⟩

/-! ### Transitions -/

lemma deletedAbove_transition {log : List (Operation ω)} {p path : Path} {output : ω} {count : Nat} :
    deletedAbove (log ++ [.transition p output count]) path = deletedAbove log path := by
  simp [deletedAbove]

lemma Inv.persisted_update (h : t.Inv) {v path} (hnode : ¬ (path = n.path ∧ t.alive n)) :
    ({ t with persistence := Function.update t.persistence n v } : Tree δ ω).persisted path =
      t.persisted path := by
  have hunique : ({ t with persistence := Function.update t.persistence n v } : Tree δ ω).Unique := h.unique
  refine h.unique.persisted_congr hunique (fun _ _ => Iff.rfl) fun m hm ha => ?_
  refine Function.update_of_ne ?_ _ _
  rintro rfl
  exact hnode ⟨hm.symm, ha⟩

lemma Inv.machineTransition (h : t.Inv) {data output version}
    (hn : n ∈ root :: t.cached) (hcond : t.alive n → ¬ deletedAbove t.opLog n.path)
    (hs : t.machineTransition n data output version = .ok t') : t'.Inv ∧ t'.start = t.start := by
  unfold Tree.machineTransition at hs
  split at hs
  · cases hs
  cases hs
  refine ⟨⟨h.unique, h.nodup, h.bounded, h.cachedParent, ?_, by simp [h.log], ?_, ?_, ?_, h.startParent, ?_⟩, rfl⟩
  · rintro m (_ | ⟨_, hm⟩)
    · exact hn
    · exact h.dirtyCached m hm
  · intro e he
    rcases mem_append.mp he with he | he
    · exact h.host e he
    obtain rfl := mem_singleton.mp he
    exact ⟨rfl, hn, by simp [Operation.isDelete]⟩
  · intro e he ha
    rw [deletedAbove_transition]
    rcases mem_append.mp he with he | he
    · exact h.kept e he ha
    obtain rfl := mem_singleton.mp he
    exact hcond ha
  · intro m hm hdead
    rw [deletedAbove_transition]
    exact h.lost m hm hdead
  intro path hpath
  by_cases hnode : path = n.path ∧ t.alive n
  · obtain ⟨rfl, ha⟩ := hnode
    exact ⟨n, mem_cons_self, ha, prefix_rfl⟩
  obtain ⟨m, hm, ha, hprefix⟩ := h.changed path fun heq => hpath ((h.persisted_update hnode).trans heq)
  exact ⟨m, mem_cons_of_mem _ hm, ha, hprefix⟩

/-! ### Deleting a child -/

section remove

variable {c : Node}

lemma alive_remove (h : t.children.Nodup) (hm : t.alive m) (hc : ¬ (t.alive c ∧ c.path <+: m.path)) :
    (t.remove c).alive m := by
  induction m with
  | root => rfl
  | child p k i ih =>
    obtain ⟨hin, hp⟩ := alive_child.mp hm
    have hne : child p k i ≠ c := by
      rintro rfl
      exact hc ⟨hm, prefix_rfl⟩
    refine alive_child.mpr ⟨h.mem_erase_iff.mpr ⟨hne, hin⟩, ih hp ?_⟩
    exact fun hcp => hc ⟨hcp.1, hcp.2.trans (prefix_append _ _)⟩

lemma alive_of_remove {m} (hm : (t.remove c).alive m) : t.alive m :=
  alive_mono (fun _ hn => mem_of_mem_erase hn) hm

lemma Inv.not_alive_remove (h : t.Inv) (hroot : c ≠ .root) (hc : t.alive c) (hcm : c.path <+: m.path) :
    ¬ (t.remove c).alive m := by
  intro hm
  obtain ⟨a, ha, hpath⟩ := alive_prefix hm hcm
  obtain rfl : a = c := h.unique.path (alive_of_remove ha) hc hpath
  cases a with
  | root => exact hroot rfl
  | child p k i => exact (h.nodup.mem_erase_iff.mp (alive_child.mp ha).1).1 rfl

lemma deletedAbove_remove {path} :
    deletedAbove (t.remove c).opLog path ↔ deletedAbove t.opLog path ∨ c.path <+: path := by
  simp [remove, deletedAbove, isPrefixOf_iff_prefix]

lemma mem_cached_remove {m} (hm : m ∈ (t.remove c).cached) : m ∈ t.cached ∨ m ∈ t.children ∧ t.walks c m :=
  (mem_append.mp hm).imp_right mem_filter.mp

lemma walks_parent {p k i} (h : t.walks c (.child p k i)) : c = .child p k i ∨ t.walks c p := by
  simp only [walks, isBelow, Bool.or_eq_true, decide_eq_true_eq, Bool.and_eq_true] at h ⊢
  exact h.imp_right And.right

lemma walks_mem (hc : c ∈ t.children) {m} (h : t.walks c m) (hm : c ≠ .root) : m ∈ t.children := by
  cases m with
  | root => exact absurd (by simpa [walks, isBelow] using h) hm
  | child p k i =>
    simp only [walks, isBelow, Bool.or_eq_true, decide_eq_true_eq, Bool.and_eq_true] at h
    rcases h with rfl | ⟨hin, -⟩
    · exact hc
    · exact hin

end remove

lemma not_prefix_of_concat {p q : Path} {key : Key} (h : p ++ [key] <+: q) : ¬ q <+: p := by
  intro hq
  have hlen : (p ++ [key]).length ≤ p.length := (h.trans hq).length_le
  rw [length_append] at hlen
  exact Nat.not_succ_le_self _ hlen

lemma Inv.remove (h : t.Inv) {key i} (hn : n ∈ root :: t.cached) (hin : .child n key i ∈ t.children)
    (hcond : t.alive n → ¬ deletedAbove t.opLog n.path ∧
      ((t.start (n.path ++ [key])).isNone ∨ ∃ a ∈ t.dirty, t.alive a ∧ a.path <+: n.path)) :
    (t.remove (.child n key i)).Inv := by
  have hsub : ∀ m ∈ t.cached, m ∈ (t.remove (.child n key i)).cached := fun m hm => mem_append_left _ hm
  -- a machine that is alive afterwards was alive, and is not below the deleted one
  have hstays : ∀ m, (t.remove (.child n key i)).alive m → t.alive n → ¬ n.path ++ [key] <+: m.path := by
    intro m hm ha hcm
    exact h.not_alive_remove (by simp) (alive_child.mpr ⟨hin, ha⟩) hcm hm
  have hunique : (t.remove (.child n key i)).Unique := by
    intro p k a b ha hb
    exact h.unique p k a b (mem_of_mem_erase ha) (mem_of_mem_erase hb)
  refine ⟨hunique, h.nodup.erase _, ?_, ?_, ?_, by simp [Tree.remove, h.log], ?_, ?_, ?_, h.startParent, ?_⟩
  · rintro m (hm | _ | ⟨_, hm⟩)
    · exact h.bounded m (.inl (mem_of_mem_erase hm))
    · trivial
    rcases mem_cached_remove hm with hm | ⟨hm, -⟩
    · exact h.bounded m (.inr (mem_cons_of_mem _ hm))
    · exact h.bounded m (.inl hm)
  · intro p k a ha
    rcases mem_cached_remove ha with ha | ⟨-, hwalk⟩
    · exact mem_root_cons hsub (h.cachedParent p k a ha)
    rcases walks_parent hwalk with heq | hp
    · cases heq
      exact mem_root_cons hsub hn
    -- the parent is below the deleted machine as well
    apply mem_cons_of_mem
    apply mem_append_right
    exact mem_filter.mpr ⟨walks_mem hin hp (by simp), hp⟩
  · intro m hm
    exact mem_root_cons hsub (h.dirtyCached m hm)
  · intro e he
    rcases mem_append.mp he with he | he
    · obtain ⟨hhost, hmem, hdel⟩ := h.host e he
      exact ⟨hhost, mem_root_cons hsub hmem, hdel⟩
    obtain rfl := mem_singleton.mp he
    refine ⟨?_, mem_root_cons hsub hn, ?_⟩ <;> simp [Operation.host, Operation.path, hostNode, path]
  · intro e he ha
    have hold := alive_of_remove ha
    rw [deletedAbove_remove, not_or]
    rcases mem_append.mp he with he | he
    · refine ⟨h.kept e he hold, fun hcm => ?_⟩
      by_cases hna : t.alive n
      · exact hstays _ ha hna hcm
      -- a deletion below a machine that is gone
      exact h.kept e he hold (deletedAbove_mono (h.lost n hn hna) ((prefix_append _ _).trans hcm))
    obtain rfl := mem_singleton.mp he
    refine ⟨(hcond hold).1, fun hcm => ?_⟩
    exact not_prefix_of_concat hcm prefix_rfl
  · rintro m (_ | ⟨_, hm⟩) hdead
    · exact absurd rfl hdead
    rw [deletedAbove_remove]
    rcases mem_cached_remove hm with hm | ⟨-, hwalk⟩
    · by_cases ha : t.alive m
      · by_cases hcm : n.path ++ [key] <+: m.path
        · exact .inr hcm
        have hstay : (t.remove (.child n key i)).alive m := alive_remove h.nodup ha fun hc => hcm hc.2
        exact absurd hstay hdead
      · exact .inl (h.lost m (mem_cons_of_mem _ hm) ha)
    · exact .inr (path_of_walks hwalk)
  intro path hchanged
  by_cases hbelow : t.alive (.child n key i) ∧ n.path ++ [key] <+: path
  · obtain ⟨hc, hprefix⟩ := hbelow
    have hna := (alive_child.mp hc).2
    rw [persisted_none fun m hm heq => hstays m hm hna (heq ▸ hprefix)] at hchanged
    rcases (hcond hna).2 with hnew | ⟨a, hdirty, ha, han⟩
    · have hnone := h.startParent _ _ hprefix hnew
      exact absurd (Option.isNone_iff_eq_none.mp hnone).symm hchanged
    refine ⟨a, hdirty, alive_remove h.nodup ha fun hca => ?_, han.trans ((prefix_append _ _).trans hprefix)⟩
    exact not_prefix_of_concat hca.2 han
  rw [h.unique.persisted_congr hunique ?_ fun _ _ _ => rfl] at hchanged
  · obtain ⟨m, hm, ha, hprefix⟩ := h.changed path hchanged
    exact ⟨m, hm, alive_remove h.nodup ha fun hc => hbelow ⟨hc.1, hc.2.trans hprefix⟩, hprefix⟩
  rintro m rfl
  exact ⟨alive_of_remove, fun ha => alive_remove h.nodup ha hbelow⟩

lemma Inv.deleteChild (h : t.Inv) {n key} (hn : n ∈ root :: t.cached)
    (hcond : t.Traced (.deleteChild n key)) (hs : t.deleteChild n key = .ok t') : t'.Inv ∧ t'.start = t.start := by
  unfold Tree.deleteChild at hs
  split at hs
  · cases hs
  obtain ⟨⟨c, tl⟩, hload, hs⟩ := bind_ok hs
  have hloads := childNode_ok hload
  have hinv := h.load hn hloads
  cases hloads with
  | mk i cached hin hc hsub hcached =>
    dsimp only at hs
    split at hs
    · cases hs
    cases hs
    exact ⟨hinv.remove (mem_root_cons hsub hn) hin hcond, rfl⟩

/-! ### Transactions -/

lemma Inv.step (h : t.Inv) {e} (hcond : t.Traced e) (hs : Hsm.step t e = .ok t') : t'.Inv ∧ t'.start = t.start := by
  unfold Hsm.step at hs
  split at hs
  · cases hs
  next hn =>
  have hn := not_not.mp hn
  cases e with
  | child n key =>
    obtain ⟨⟨c, t'⟩, hload, rfl⟩ := map_ok hs
    have hloads := childNode_ok hload
    refine ⟨h.load hn hloads, ?_⟩
    cases hloads
    rfl
  | addChild n key data version => exact h.addChild hn hs
  | deleteChild n key => exact h.deleteChild hn hcond hs
  | machineTransition n data output version => exact h.machineTransition hn hcond hs

end Tree

lemma Loaded.bounded (l : Loaded δ) (hn : n ∈ Node.root :: l.children) : n.Bounded l.next := by
  induction n with
  | root => trivial
  | child p k i ih =>
    have hin : .child p k i ∈ l.children := by simpa using hn
    exact ⟨l.pointers p k i hin, ih (l.parent p k i hin)⟩

lemma Loaded.alive (l : Loaded δ) {n} (hn : n ∈ Node.root :: l.children) : (l.begin : Tree δ ω).alive n := by
  induction n with
  | root => rfl
  | child p k i ih =>
    have hin : .child p k i ∈ l.children := by simpa using hn
    exact alive_child.mpr ⟨hin, ih (l.parent p k i hin)⟩

lemma Loaded.inv (l : Loaded δ) : (l.begin : Tree δ ω).Inv where
  unique := l.unique
  nodup := l.nodup
  bounded := by
    rintro n (hn | hn)
    · exact l.bounded (mem_cons_of_mem _ hn)
    · exact l.bounded (mem_root_cons l.subset hn)
  cachedParent := l.cachedParent
  dirtyCached := by simp [Loaded.begin]
  log := rfl
  host := by simp [Loaded.begin]
  kept := by simp [Loaded.begin]
  lost := fun n hn hdead => absurd (l.alive (mem_root_cons l.subset hn)) hdead
  startParent := by
    intro p q hpq hp
    have hunique : (l.begin : Tree δ ω).Unique := l.unique
    apply Option.isNone_iff_eq_none.mpr
    apply persisted_none
    rintro n hn rfl
    -- a machine would need one at `p`
    obtain ⟨a, ha, rfl⟩ := alive_prefix hn hpq
    have hsome := hunique.persisted_some ha
    rw [show (l.begin : Tree δ ω).start a.path = (l.begin : Tree δ ω).persisted a.path from rfl, hsome] at hp
    cases hp
  changed := fun path hpath => absurd rfl hpath

/-- In every transaction whose steps are all `Traced`, compaction keeps exactly the transitions of machines
that are left and the deletions below such machines, in their order, and a tree that differs from the one
at the start is dirty. -/
theorem opLog_dirty (l : Loaded δ) (es : List (Event δ ω)) (t : Tree δ ω)
    (h : Along Traced step l.begin es) (hrun : run step l.begin es = .ok t) :
    t.compacted = .ok t.expected ∧ (t.persisted ≠ (l.begin : Tree δ ω).persisted → t.isDirty) := by
  -- what was there at the start goes through the run together with the invariant
  have hkeep : ∀ (s : Tree δ ω) (e : Event δ ω) (s' : Tree δ ω),
      s.Inv ∧ s.start = (l.begin : Tree δ ω).persisted → s.Traced e → step s e = .ok s' →
      s'.Inv ∧ s'.start = (l.begin : Tree δ ω).persisted :=
    fun s e s' hs hP he => (hs.1.step hP he).imp_right (·.trans hs.2)
  obtain ⟨hinv, hstart⟩ := h.inv hkeep ⟨l.inv, rfl⟩ hrun
  refine ⟨hinv.compacted, fun hne => hinv.isDirty ?_⟩
  rw [hstart]
  exact hne

/-! ### Runs -/

namespace Sample

def key (id : String) : Key := ⟨"machine", id⟩

def first : Node := .child .root (key "a") 0

/-- A tree with a machine `a` that is in memory. -/
def loaded : Loaded Nat where
  registry := fun _ => true
  children := [first]
  cached := [first]
  persistence := fun _ => ⟨0, ⟨1, 1⟩, ⟨1, 1⟩, 0⟩
  next := 1
  parent := by
    rintro p k i hin
    cases mem_singleton.mp hin
    exact mem_cons_self
  unique := by
    rintro p k i j hi hj
    cases mem_singleton.mp hi
    cases mem_singleton.mp hj
    rfl
  nodup := by simp
  root := by simp [first]
  pointers := by simp [first]
  subset := by simp
  cachedParent := by
    rintro p k i hin
    cases mem_singleton.mp hin
    exact mem_cons_self

def version : VersionedTransition := ⟨1, 2⟩

/-- A transition of the root and of `a`, a child of `a` that transitions, and then `a` is deleted. -/
def traced : List (Event Nat Nat) :=
  [.machineTransition .root 1 10 version, .machineTransition first 1 11 version,
    .addChild first (key "b") 0 version, .machineTransition (.child first (key "b") 1) 1 12 version,
    .deleteChild .root (key "a")]

/-- `a` is deleted, added again, and transitions. -/
def readded : List (Event Nat Nat) :=
  [.deleteChild .root (key "a"), .addChild .root (key "a") 0 version,
    .machineTransition (.child .root (key "a") 1) 1 11 version]

def deleted : List (Event Nat Nat) := [.deleteChild .root (key "a")]

end Sample

theorem opLog_dirty_traced : ∃ t, run step (Sample.loaded.begin : Tree Nat Nat) Sample.traced = .ok t ∧
    t.expected = [.transition [] 10 1, .delete [Sample.key "a"]] ∧
    t.compacted = .ok t.expected ∧
    (t.persisted ≠ (Sample.loaded.begin : Tree Nat Nat).persisted → t.isDirty) := by
  obtain ⟨t, hrun, hexp⟩ : ∃ t, run step (Sample.loaded.begin : Tree Nat Nat) Sample.traced = .ok t ∧
      t.expected = [.transition [] 10 1, .delete [Sample.key "a"]] := by decide +kernel
  exact ⟨t, hrun, hexp, opLog_dirty Sample.loaded Sample.traced t (by decide +kernel) hrun⟩

/-- The transition of a machine that is in the tree is dropped if a machine of that key was deleted before,
and the tree is not dirty when a machine of the start was deleted. -/
theorem readded_deleted : (∃ t, run step (Sample.loaded.begin : Tree Nat Nat) Sample.readded = .ok t ∧
      t.compacted = .ok [.delete [Sample.key "a"]] ∧
      t.expected = [.delete [Sample.key "a"], .transition [Sample.key "a"] 11 1]) ∧
    ∃ t, run step (Sample.loaded.begin : Tree Nat Nat) Sample.deleted = .ok t ∧
      t.persisted [Sample.key "a"] ≠ (Sample.loaded.begin : Tree Nat Nat).persisted [Sample.key "a"] ∧
      t.isDirty = false := by
  exact ⟨by decide +kernel, by decide +kernel⟩

end FastOrchestration.Hsm
