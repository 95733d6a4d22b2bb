import FastOrchestration.Chasm.Replication

/-!
# Replication over whole transactions

`ReplicaInv` relates a tree in the middle of a transaction to what is stored: the recorded mutation,
applied to the stored nodes, gives the nodes of the tree. Deletions and updates keep it
(`ReplicaInv.applyDeletion`, `ReplicaInv.applyUpdate`) under two conditions. A node is created after
its parent: otherwise the parent is first made without content, and when its own update comes it is
taken for a node that is replaced, so that the statuses of the source stay. And no path is both updated
and deleted in one transaction: otherwise it is recorded as both.
-/

namespace FastOrchestration.Chasm

open Lib List Function Option ReplicaTree DataNode NodesMutation

variable {stored : Path → Option DataNode} {t t' : ReplicaTree} {p q : Path} {n : DataNode}

structure ReplicaInv (stored : Path → Option DataNode) (t : ReplicaTree) : Prop where
  root : (t.nodes []).isSome
  parent : ∀ path name, (t.nodes (path ++ [name])).isSome → (t.nodes path).isSome
  full : ∀ path, t.nodes path ≠ some none
  ok : ∀ path n, t.nodes path = some (some n) → n.Ok
  disjoint : ∀ path, t.mutation.deletedNodes path = true → t.mutation.updatedNodes path = none
  recorded : ∀ path, t.nodes path = (t.mutation.applyTo stored path).map some

lemma StoredTree.load_inv (B : StoredTree) : ReplicaInv B.nodes B.load where
  root := by simpa [load] using B.root
  parent path name h := by simpa [load] using B.parent path name (by simpa [load] using h)
  full path h := by simp [load] at h
  ok path n h := B.ok path n (by simpa [load] using h)
  disjoint path h := by simp [load, empty] at h
  recorded path := by simp [load, empty, applyTo]

lemma isSome_above {α : Type} {nodes : Path → Option α}
    (parent : ∀ path name, (nodes (path ++ [name])).isSome → (nodes path).isSome)
    (hpq : p <+: q) (hq : (nodes q).isSome) : (nodes p).isSome := by
  obtain ⟨rest, rfl⟩ := hpq
  induction rest using List.reverseRecOn with
  | nil => simpa using hq
  | append_singleton rest name ih => exact ih (parent _ name (by simpa using hq))

/-! ### Deletions -/

section

variable (h : ReplicaInv stored t)

include h

lemma ReplicaTree.applyDeletion_nodes (hp : p ≠ []) (q : Path) :
    (t.applyDeletion p).nodes q = if p <+: q then none else t.nodes q := by
  unfold applyDeletion
  split
  · rename_i hnone
    split
    · rename_i hpq
      by_contra hsome
      have := isSome_above h.parent hpq (isSome_iff_ne_none.mpr hsome)
      simp [hnone] at this
    · rfl
  have hq : p <+: q → q ≠ [] := fun hpq hnil => hp (prefix_nil.mp (hnil ▸ hpq))
  by_cases hpq : p <+: q <;> simp [delete, hpq, hq]

lemma ReplicaTree.applyDeletion_deleted (q : Path) :
    (t.applyDeletion p).mutation.deletedNodes q ↔
      t.mutation.deletedNodes q ∨ p <+: q ∧ (t.nodes q).isSome := by
  unfold applyDeletion
  split
  · rename_i hnone
    refine ⟨.inl, fun hor => hor.resolve_right fun ⟨hpq, hsome⟩ => ?_⟩
    have := isSome_above h.parent hpq hsome
    simp [hnone] at this
  · simp [delete]

omit h in
lemma ReplicaTree.applyDeletion_updated (t : ReplicaTree) (p : Path) :
    (t.applyDeletion p).mutation.updatedNodes = t.mutation.updatedNodes := by
  unfold applyDeletion
  split <;> rfl

lemma ReplicaInv.applyDeletion (hp : p ≠ [])
    (hupd : ∀ q, p <+: q → t.mutation.updatedNodes q = none) : ReplicaInv stored (t.applyDeletion p) := by
  have hnodes := applyDeletion_nodes h hp
  have hdel := applyDeletion_deleted (p := p) h
  have hsub : ∀ q x, (t.applyDeletion p).nodes q = some x → ¬ p <+: q ∧ t.nodes q = some x := by
    intro q x hq
    rw [hnodes] at hq
    split at hq
    · cases hq
    · exact ⟨‹_›, hq⟩
  refine ⟨?_, ?_, ?_, ?_, ?_, ?_⟩
  · rw [hnodes, if_neg fun hnil => hp (prefix_nil.mp hnil)]
    exact h.root
  · intro path name hsome
    obtain ⟨x, hx⟩ := isSome_iff_exists.mp hsome
    obtain ⟨hnp, hx⟩ := hsub _ x hx
    rw [hnodes, if_neg fun hpq => hnp (hpq.trans (prefix_append _ _))]
    exact h.parent path name (by simp [hx])
  · exact fun path heq => h.full path (hsub path _ heq).2
  · exact fun path n heq => h.ok path n (hsub path _ heq).2
  · intro path hd
    rw [applyDeletion_updated]
    exact ((hdel path).mp hd).elim (h.disjoint path) fun hpq => hupd path hpq.1
  intro path
  rw [hnodes, applyTo, applyDeletion_updated]
  have hrec := h.recorded path
  rw [applyTo] at hrec
  have hsame (hnot : ¬ (p <+: path ∧ (t.nodes path).isSome)) :
      (t.applyDeletion p).mutation.deletedNodes path = t.mutation.deletedNodes path := by
    rw [Bool.eq_iff_iff, hdel path, or_iff_left hnot]
  by_cases hpq : p <+: path
  · rw [if_pos hpq]
    by_cases hsome : (t.nodes path).isSome
    · simp [(hdel path).mpr (.inr ⟨hpq, hsome⟩)]
    -- Nothing was there, and nothing is recorded.
    have hnone : t.nodes path = none := by simpa using hsome
    rw [hsame fun h => hsome h.2, ← hrec, hnone]
  rw [if_neg hpq, hsame fun h => hpq h.1, hrec]

lemma ReplicaInv.applyDeletions {order}
    (hroot : [] ∉ order) (hupd : ∀ p ∈ order, ∀ q, p <+: q → t.mutation.updatedNodes q = none) :
    ReplicaInv stored (t.applyDeletions order) ∧
      (t.applyDeletions order).mutation.updatedNodes = t.mutation.updatedNodes ∧
      (∀ q, (∃ p ∈ order, p <+: q) → (t.applyDeletions order).nodes q = none) ∧
      ∀ q, (∀ p ∈ order, ¬ p <+: q) → (t.applyDeletions order).nodes q = t.nodes q ∧
        (t.applyDeletions order).mutation.deletedNodes q = t.mutation.deletedNodes q := by
  induction order generalizing t with
  | nil => exact ⟨h, rfl, by simp, fun q _ => ⟨rfl, rfl⟩⟩
  | cons p order ih =>
    have hp : p ≠ [] := fun hnil => hroot (by simp [hnil])
    have h1 := h.applyDeletion hp (hupd p (by simp))
    have hu1 := applyDeletion_updated t p
    have hn1 := applyDeletion_nodes h hp
    have hd1 := applyDeletion_deleted (p := p) h
    obtain ⟨hinv, hu, hgone, hstay⟩ := ih h1 (fun hmem => hroot (by simp [hmem]))
      (fun p' hp' q hq => by rw [hu1]; exact hupd p' (by simp [hp']) q hq)
    refine ⟨hinv, hu.trans hu1, ?_, ?_⟩
    · rintro q ⟨p', hp', hq⟩
      by_cases hrest : ∃ p ∈ order, p <+: q
      · exact hgone q hrest
      obtain rfl | hp' := mem_cons.mp hp'
      · have := (hstay q fun p hp hpq => hrest ⟨p, hp, hpq⟩).1
        exact this.trans (by rw [hn1, if_pos hq])
      · exact absurd ⟨p', hp', hq⟩ hrest
    intro q hq
    have hnp : ¬ p <+: q := hq p (by simp)
    obtain ⟨hnodes, hdel⟩ := hstay q fun p' hp' => hq p' (by simp [hp'])
    refine ⟨hnodes.trans (by rw [hn1, if_neg hnp]), hdel.trans ?_⟩
    rw [Bool.eq_iff_iff, hd1]
    simp [hnp]

/-! ### Updates -/

def DataNode.updating (localNode : Option DataNode) (n : DataNode) : DataNode :=
  match localNode with
  | none => n.resetTaskStatus
  | some b =>
    if b.lastUpdateVersionedTransition.compare n.lastUpdateVersionedTransition ≠ .eq then
      n.replacing (some b)
    else b

lemma ReplicaTree.applyUpdate_nodes (hpar : p = [] ∨ (t.nodes p.dropLast).isSome)
    (n : DataNode) : (t.applyUpdate p n).nodes =
      Function.update t.nodes p (some (some (n.updating (t.nodes p).join))) := by
  unfold applyUpdate
  cases hp : t.nodes p with
  | none =>
    funext q
    by_cases hq : q = p
    · subst hq
      simp [setSerializedNode, updating]
    simp only [setSerializedNode, if_neg hq, update_of_ne hq, ite_eq_right_iff]
    rintro ⟨hpre, hnone⟩
    -- A proper ancestor is the parent or above it.
    have hpre : q <+: p := by simpa using hpre
    have hne : p ≠ [] := fun hnil => hq (by rw [hnil] at hpre ⊢; exact prefix_nil.mp hpre)
    have hparent := hpar.resolve_left hne
    have habove : q <+: p.dropLast := by
      rw [← dropLast_append_getLast hne] at hpre
      exact (prefix_concat_iff.mp hpre).resolve_left fun heq =>
        hq (heq.trans (dropLast_append_getLast hne))
    have := isSome_above h.parent habove hparent
    simp [hnone] at this
  | some node =>
    cases node with
    | none => exact absurd hp (h.full p)
    | some b =>
      by_cases hc : b.lastUpdateVersionedTransition.compare n.lastUpdateVersionedTransition = .eq
      · have hself : Function.update t.nodes p (some (some b)) = t.nodes := by
          rw [← hp, update_eq_self]
        simp [updating, hc, hself]
      · simp [updating, hc]

lemma ReplicaTree.applyUpdate_mutation (p : Path) (n : DataNode) :
    (t.applyUpdate p n).mutation = t.record p (n.updating (t.nodes p).join) ∨ t.applyUpdate p n = t := by
  unfold applyUpdate
  cases hp : t.nodes p with
  | none => exact .inl (by simp [updating])
  | some node =>
    cases node with
    | none => exact absurd hp (h.full p)
    | some b =>
      by_cases hc : b.lastUpdateVersionedTransition.compare n.lastUpdateVersionedTransition = .eq
      · exact .inr (by simp [hc])
      · exact .inl (by simp [updating, hc])

omit h in
lemma DataNode.Ok.updating (hn : n.Ok) {localNode}
    (hb : ∀ b, localNode = some b → b.Ok ∧ (b.component = none → n.component = none)) :
    (n.updating localNode).Ok := by
  cases localNode with
  | none => exact hn.resetTaskStatus
  | some b =>
    obtain ⟨hok, hkind⟩ := hb b rfl
    simp only [DataNode.updating]
    split
    · exact hok.replacing hn hkind
    · exact hok

/-- The nodes of the tree of which an update is made: it can be put in place. -/
structure Fits (t : ReplicaTree) (p : Path) (n : DataNode) : Prop where
  ok : n.Ok
  kind : ∀ b, t.nodes p = some (some b) → b.component = none → n.component = none
  notDeleted : t.mutation.deletedNodes p = false

lemma ReplicaInv.applyUpdate (hpar : p = [] ∨ (t.nodes p.dropLast).isSome)
    (hfits : Fits t p n) : ReplicaInv stored (t.applyUpdate p n) := by
  obtain hmut | hsame := applyUpdate_mutation h p n
  swap
  · rwa [hsame]
  have hnodes := applyUpdate_nodes h hpar n
  have hok : (n.updating (t.nodes p).join).Ok := by
    refine hfits.ok.updating fun b hb => ?_
    have hb : t.nodes p = some (some b) := join_eq_some_iff.mp hb
    exact ⟨h.ok p b hb, hfits.kind b hb⟩
  refine ⟨?_, ?_, ?_, ?_, ?_, ?_⟩
  · rw [hnodes]
    by_cases hp : p = []
    · simp [hp]
    rw [update_of_ne (Ne.symm hp)]
    exact h.root
  · intro path name hsome
    rw [hnodes] at hsome ⊢
    by_cases hpath : path = p
    · simp [hpath]
    rw [update_of_ne hpath]
    by_cases hnew : path ++ [name] = p
    · subst hnew
      simpa using hpar
    rw [update_of_ne hnew] at hsome
    exact h.parent path name hsome
  · intro path heq
    rw [hnodes] at heq
    by_cases hpath : path = p
    · simp [hpath] at heq
    · exact h.full path (by rwa [update_of_ne hpath] at heq)
  · intro path m heq
    rw [hnodes] at heq
    by_cases hpath : path = p
    · subst hpath
      obtain rfl : n.updating (t.nodes path).join = m := by simpa using heq
      exact hok
    · exact h.ok path m (by rwa [update_of_ne hpath] at heq)
  · intro path hd
    rw [hmut] at hd ⊢
    have hpath : path ≠ p := fun heq => by
      rw [heq] at hd
      simp [record, hfits.notDeleted] at hd
    simpa [record, update_of_ne hpath] using h.disjoint path hd
  intro path
  rw [hnodes, hmut]
  by_cases hpath : path = p
  · subst hpath
    simp [applyTo, record, hfits.notDeleted]
  simpa [applyTo, record, update_of_ne hpath] using
    h.recorded path

/-- Every node that is new comes after its parent. -/
def ParentsFirst (present : Path → Prop) : List Path → Prop
  | [] => True
  | p :: order => (p = [] ∨ present p.dropLast) ∧ ParentsFirst (fun q => q = p ∨ present q) order

lemma ReplicaInv.applyUpdates {updatedNodes} {order : List Path}
    (hnodup : order.Nodup) (hupd : ∀ p ∈ order, ∃ n, updatedNodes p = some n ∧ Fits t p n)
    (hfirst : ParentsFirst (fun q => (t.nodes q).isSome) order) :
    ReplicaInv stored (t.applyUpdates updatedNodes order) ∧
      ∀ q, (t.applyUpdates updatedNodes order).nodes q =
        if q ∈ order then (updatedNodes q).map fun n => some (n.updating (t.nodes q).join)
        else t.nodes q := by
  induction order generalizing t with
  | nil => exact ⟨h, fun q => by simp [applyUpdates]⟩
  | cons p order ih =>
    obtain ⟨hp, hnodup⟩ := nodup_cons.mp hnodup
    obtain ⟨hpar, hfirst⟩ := hfirst
    obtain ⟨n, hn, hfits⟩ := hupd p (by simp)
    have h1 := h.applyUpdate hpar hfits
    have hnodes := applyUpdate_nodes h hpar n
    have hdel : (t.applyUpdate p n).mutation.deletedNodes = t.mutation.deletedNodes := by
      obtain hmut | hsame := applyUpdate_mutation h p n
      · rw [hmut]
        rfl
      · rw [hsame]
    have hne : ∀ q ∈ order, q ≠ p := fun q hq heq => hp (heq ▸ hq)
    have hstep : t.applyUpdates updatedNodes (p :: order) =
        (t.applyUpdate p n).applyUpdates updatedNodes order := by
      simp [applyUpdates, hn]
    have hpresent : (fun q => ((t.applyUpdate p n).nodes q).isSome = true) =
        fun q => q = p ∨ (t.nodes q).isSome := by
      funext q
      rw [hnodes]
      by_cases hq : q = p
      · simp [hq]
      · simp [hq]
    obtain ⟨hinv, hall⟩ := ih h1 hnodup (fun q hq => by
      obtain ⟨m, hm, hfits⟩ := hupd q (by simp [hq])
      refine ⟨m, hm, hfits.ok, fun b hb => hfits.kind b ?_, hdel ▸ hfits.notDeleted⟩
      rwa [hnodes, update_of_ne (hne q hq)] at hb) (hpresent ▸ hfirst)
    rw [hstep]
    refine ⟨hinv, fun q => ?_⟩
    rw [hall q, hnodes]
    by_cases hqp : q = p
    · subst hqp
      simp [hp, hn]
    · simp [hqp]

/-! ### Calls in one transaction -/

/-- The orders in which the maps of a mutation can be ranged over. -/
structure MapOrder.Orders (order : MapOrder) (m : NodesMutation) : Prop where
  deleted : ∀ p, p ∈ order.deleted ↔ m.deletedNodes p = true
  updated : ∀ p, p ∈ order.updated ↔ (m.updatedNodes p).isSome
  nodupDeleted : order.deleted.Nodup
  nodupUpdated : order.updated.Nodup

/-- A mutation as the source makes them: the root is never deleted, and nothing is updated at or below
a path that is deleted. -/
structure NodesMutation.WellFormed (m : NodesMutation) : Prop where
  ok : ∀ p n, m.updatedNodes p = some n → n.Ok
  root : m.deletedNodes [] = false
  apart : ∀ p q, m.deletedNodes p = true → p <+: q → m.updatedNodes q = none

structure Allowed (t : ReplicaTree) (m : NodesMutation) (order : MapOrder) : Prop where
  orders : order.Orders m
  parentsFirst :
    ParentsFirst (fun q => ((t.applyDeletions order.deleted).nodes q).isSome) order.updated
  /-- A component does not take the place of a node of another kind. -/
  kind : ∀ p b n, t.nodes p = some (some b) → m.updatedNodes p = some n → b.component = none →
    n.component = none
  /-- What was updated in this transaction is not deleted in it. -/
  deletions : ∀ p q, m.deletedNodes p = true → p <+: q → t.mutation.updatedNodes q = none
  /-- What was deleted in this transaction is not updated in it. -/
  updates : ∀ p, (m.updatedNodes p).isSome → t.mutation.deletedNodes p = false

lemma ReplicaInv.applyMutation {m : NodesMutation} {order} (hm : m.WellFormed) (hal : Allowed t m order) :
    ReplicaInv stored (t.applyMutation m order) ∧
      (∀ q, (∃ p, m.deletedNodes p ∧ p <+: q) → (t.applyMutation m order).nodes q = none) ∧
      ∀ q, (∀ p, m.deletedNodes p → ¬ p <+: q) → (t.applyMutation m order).nodes q =
        match m.updatedNodes q with
        | none => t.nodes q
        | some n => some (some (n.updating (t.nodes q).join)) := by
  have hmem := hal.orders.deleted
  have hroot : [] ∉ order.deleted := fun hnil => by
    simpa [hm.root] using (hmem []).mp hnil
  obtain ⟨h1, hupd, hgone, hstay⟩ := h.applyDeletions hroot
    fun p hp q hpq => hal.deletions p q ((hmem p).mp hp) hpq
  have hapart : ∀ q, (m.updatedNodes q).isSome → ∀ p ∈ order.deleted, ¬ p <+: q := by
    intro q hq p hp hpq
    simp [hm.apart p q ((hmem p).mp hp) hpq] at hq
  obtain ⟨hinv, hnodes⟩ := h1.applyUpdates hal.orders.nodupUpdated (fun p hp => by
    have hsome := (hal.orders.updated p).mp hp
    obtain ⟨n, hn⟩ := isSome_iff_exists.mp hsome
    obtain ⟨hsame, hdel⟩ := hstay p (hapart p hsome)
    exact ⟨n, hn, hm.ok p n hn, fun b hb => hal.kind p b n (hsame ▸ hb) hn,
      hdel.trans (hal.updates p hsome)⟩) hal.parentsFirst
  refine ⟨hinv, fun q hq => ?_, fun q hq => ?_⟩
  · obtain ⟨p, hp, hpq⟩ := hq
    have hnot : q ∉ order.updated := fun hmem' =>
      hapart q ((hal.orders.updated q).mp hmem') p ((hmem p).mpr hp) hpq
    exact (hnodes q).trans (by rw [if_neg hnot, hgone q ⟨p, (hmem p).mpr hp, hpq⟩])
  obtain ⟨hsame, -⟩ := hstay q fun p hp => hq p ((hmem p).mp hp)
  refine (hnodes q).trans ?_
  have hiff := hal.orders.updated q
  cases hu : m.updatedNodes q with
  | none =>
    rw [if_neg fun hmem' => by simp [hu] at hiff; exact hiff hmem']
    exact hsame
  | some n =>
    rw [if_pos (hiff.mpr (by simp [hu])), hsame]
    rfl

/-- A call in the course of a transaction, with the iteration order of its maps. -/
inductive Call where
  | mutation (m : NodesMutation) (order : MapOrder)
  | snapshot (source : StoredTree) (order : MapOrder)

def Call.apply (t : ReplicaTree) : Call → Except Empty ReplicaTree
  | .mutation m order => .ok (t.applyMutation m order)
  | .snapshot source order => .ok (t.applySnapshot source.load.snapshot order)

def Call.Permitted (t : ReplicaTree) : Call → Prop
  | .mutation m order => m.WellFormed ∧ Allowed t m order
  | .snapshot source order =>
    Allowed t (t.snapshotMutation source.load.snapshot) order ∧
      ∀ p b n, t.nodes p = some (some b) → source.nodes p = some n → b.Coherent n

lemma ReplicaInv.snapshot (p : Path) : t.snapshot p = (t.nodes p).join := by
  unfold ReplicaTree.snapshot
  cases hp : (t.nodes p).join with
  | none => rfl
  | some n =>
    have := (h.ok p n (join_eq_some_iff.mp hp)).transition
    simp [this]

omit h in
lemma StoredTree.load_snapshot (A : StoredTree) (p : Path) : A.load.snapshot p = A.nodes p := by
  rw [A.load_inv.snapshot]
  cases hp : A.nodes p <;> simp [load, hp]

lemma ReplicaInv.isSome_join (p : Path) : (t.nodes p).join.isSome = (t.nodes p).isSome := by
  rcases hp : t.nodes p with _ | _ | n
  · rfl
  · exact absurd hp (h.full p)
  · rfl

omit h in
lemma StoredTree.snapshotMutation_wellFormed (A : StoredTree) (t : ReplicaTree) :
    (t.snapshotMutation A.load.snapshot).WellFormed := by
  have hupd : ∀ p n, (t.snapshotMutation A.load.snapshot).updatedNodes p = some n →
      A.nodes p = some n := by
    intro p n hn
    simp only [snapshotMutation, A.load_snapshot] at hn
    split at hn
    · cases hn
    · rename_i hA _
      rw [hA, hn]
    rename_i hA _
    split at hn
    · rw [hA, hn]
    · cases hn
  have hdel : ∀ p, (t.snapshotMutation A.load.snapshot).deletedNodes p → A.nodes p = none := by
    intro p hp
    simp only [snapshotMutation, A.load_snapshot, Bool.and_eq_true,
      isNone_iff_eq_none] at hp
    exact hp.2
  refine ⟨fun p n hn => A.ok p n (hupd p n hn), ?_, fun p q hp hpq => ?_⟩
  · have := A.root
    simp only [snapshotMutation, A.load_snapshot, Bool.and_eq_false_iff,
      isNone_eq_false_iff]
    exact .inr this
  by_contra hsome
  obtain ⟨n, hn⟩ := ne_none_iff_exists'.mp hsome
  have := isSome_above A.parent hpq (by simp [hupd q n hn])
  simp [hdel p hp] at this

lemma ReplicaInv.applySnapshot {A : StoredTree} {order}
    (hal : Allowed t (t.snapshotMutation A.load.snapshot) order)
    (hcoh : ∀ p b n, t.nodes p = some (some b) → A.nodes p = some n → b.Coherent n) (q : Path) :
    (t.applySnapshot A.load.snapshot order).nodes q =
      (A.nodes q).map fun n => some (n.withLocalStatus (t.nodes q).join) := by
  obtain ⟨-, hgone, hstay⟩ := h.applyMutation (A.snapshotMutation_wellFormed t) hal
  have hdel : ∀ p, (t.snapshotMutation A.load.snapshot).deletedNodes p ↔
      (t.nodes p).isSome ∧ A.nodes p = none := by
    simp [snapshotMutation, A.load_snapshot, h.snapshot, h.isSome_join]
  unfold ReplicaTree.applySnapshot
  cases hA : A.nodes q with
  | none =>
    by_cases hq : (t.nodes q).isSome
    · exact hgone q ⟨q, (hdel q).mpr ⟨hq, hA⟩, prefix_refl q⟩
    -- The path was not there before.
    have hnone : t.nodes q = none := by simpa using hq
    by_cases hab : ∃ p, (t.snapshotMutation A.load.snapshot).deletedNodes p ∧ p <+: q
    · exact hgone q hab
    rw [hstay q fun p hp hpq => hab ⟨p, hp, hpq⟩]
    simp [snapshotMutation, A.load_snapshot, hA, hnone]
  | some n =>
    have hnot : ∀ p, (t.snapshotMutation A.load.snapshot).deletedNodes p → ¬ p <+: q := by
      intro p hp hpq
      have := isSome_above A.parent hpq (by simp [hA])
      simp [((hdel p).mp hp).2] at this
    rw [hstay q hnot]
    rcases hq : t.nodes q with _ | _ | b
    · simp [snapshotMutation, A.load_snapshot, h.snapshot, hA, hq, updating,
        resetTaskStatus_eq]
    · exact absurd hq (h.full q)
    have hco := hcoh q b n hq hA
    have hb := h.ok q b hq
    by_cases hc : b.lastUpdateVersionedTransition.compare n.lastUpdateVersionedTransition = .eq
    · have hsame := hco.same (VersionedTransition.compare_eq.mp hc)
      simp [snapshotMutation, A.load_snapshot, h.snapshot, hA, hq, hc,
        withLocalStatus_same hb hsame]
    have hkind : b.component = none → n.component = none := hal.kind q b n hq
      (by simp [snapshotMutation, A.load_snapshot, h.snapshot, hA, hq, hc])
    simp [snapshotMutation, A.load_snapshot, h.snapshot, hA, hq, hc,
      updating, replacing_coherent hb (A.ok q n hA) hkind hco]

/-- What a call made in a transaction on the stored tree `B` has done. -/
structure Replicated (B : StoredTree) (t : ReplicaTree) (call : Call) (t' : ReplicaTree) : Prop where
  disjoint : ∀ p, ¬ (t'.mutation.deletedNodes p = true ∧ (t'.mutation.updatedNodes p).isSome)
  /-- The recorded mutation turns the stored nodes into the nodes of the tree. -/
  recorded : ∀ p, t'.nodes p = (t'.mutation.applyTo B.nodes p).map some
  /-- A snapshot leaves the nodes of its source, with the local statuses. -/
  snapshot : ∀ source order, call = .snapshot source order → ∀ p, t'.nodes p =
    (source.nodes p).map fun n => some (n.withLocalStatus (t.nodes p).join)

lemma ReplicaInv.apply {call : Call} (hp : call.Permitted t)
    (hc : call.apply t = .ok t') : ReplicaInv stored t' := by
  cases call with
  | mutation m order =>
    cases hc
    exact (h.applyMutation hp.1 hp.2).1
  | snapshot source order =>
    cases hc
    exact (h.applyMutation (source.snapshotMutation_wellFormed t) hp.1).1

end

theorem replication_exact (B : StoredTree) (calls : List Call) {call : Call}
    (al : Along Call.Permitted Call.apply B.load calls) (hr : run Call.apply B.load calls = .ok t)
    (hp : call.Permitted t) (hc : call.apply t = .ok t') : Replicated B t call t' := by
  have hinv : ReplicaInv B.nodes t :=
    al.inv (fun _ _ _ hs hp h => hs.apply hp h) B.load_inv hr
  have hinv' := hinv.apply hp hc
  refine ⟨fun p ⟨hd, hu⟩ => ?_, hinv'.recorded, ?_⟩
  · simp [hinv'.disjoint p hd] at hu
  rintro source order rfl
  cases hc
  exact hinv.applySnapshot hp.1 hp.2

/-! ### Runs -/

def nodeAt : List (Path × DataNode) → Path → Option DataNode
  | [], _ => none
  | (path, n) :: rest, p => if p = path then some n else nodeAt rest p

lemma mem_of_nodeAt {l} (h : nodeAt l p = some n) : (p, n) ∈ l := by
  induction l with
  | nil => cases h
  | cons e l ih =>
    unfold nodeAt at h
    split at h
    · rename_i hp
      simp [hp, ← Option.some.inj h]
    · simp [ih h]

lemma isSome_nodeAt {l} : (nodeAt l p).isSome ↔ p ∈ l.map (·.1) := by
  induction l with
  | nil => simp [nodeAt]
  | cons e l ih =>
    unfold nodeAt
    split
    · simp_all
    · simp_all

def StoredTree.ofList (l : List (Path × DataNode)) (root : (nodeAt l []).isSome)
    (parent : ∀ e ∈ l, e.1 = [] ∨ (nodeAt l e.1.dropLast).isSome) (ok : ∀ e ∈ l, e.2.Ok) :
    StoredTree where
  nodes := nodeAt l
  root := root
  parent path name h := by
    obtain ⟨n, hn⟩ := isSome_iff_exists.mp h
    simpa using parent _ (mem_of_nodeAt hn)
  ok path n h := ok _ (mem_of_nodeAt h)

instance (n : DataNode) : Decidable n.Ok :=
  decidable_of_iff (n.lastUpdateVersionedTransition.compare ⟨0, 0⟩ = .gt ∧
      n.sideEffectTasks.Pairwise (compareSideEffectTasks · · = .lt) ∧
      n.pureTasks.Pairwise (comparePureTasks · · = .lt))
    ⟨fun ⟨h₁, h₂, h₃⟩ => ⟨h₁, h₂, h₃⟩, fun h => ⟨h.1, h.2, h.3⟩⟩

/-- A component last written by transition `count`, with one side-effect task of each transition in
`tasks`, all of which the source has created. -/
def sampleNode (count : Nat) (tasks : List Nat) : DataNode :=
  { component := some
      { sideEffectTasks := tasks.map fun c => ⟨"lib.effect", "", 0, "data", ⟨1, c⟩, 1, .created⟩
        pureTasks := [] }
    initialVersionedTransition := ⟨1, 1⟩
    lastUpdateVersionedTransition := ⟨1, count⟩
    data := "node"
    attributes := "" }

def leftBehind : StoredTree := .ofList [([], sampleNode 1 [1])] (by decide) (by decide) (by decide)

def withOld : StoredTree :=
  .ofList [([], sampleNode 1 [1]), (["old"], sampleNode 1 [])] (by decide) (by decide) (by decide)

def secondUpdates : List (Path × DataNode) := [([], sampleNode 2 [1, 2]), (["a"], sampleNode 2 [2])]

/-- The second transition of the source: it made the component `a` and removed `old`. -/
def secondTransition : NodesMutation := ⟨nodeAt secondUpdates, fun p => p = ["old"]⟩

/-- The source after a third transition, in which `a` was written and got a child. -/
def goneOn : StoredTree :=
  .ofList [([], sampleNode 2 [1, 2]), (["a"], sampleNode 3 [2, 3]), (["a", "b"], sampleNode 3 [])] (by decide)
    (by decide) (by decide)

def afterSecond : ReplicaTree := withOld.load.applyMutation secondTransition ⟨[["old"]], [[], ["a"]]⟩

lemma secondTransition_permitted : Call.Permitted withOld.load (.mutation secondTransition ⟨[["old"]], [[], ["a"]]⟩) := by
  refine ⟨⟨fun p n h => ?_, by decide, fun p q hp hpq => ?_⟩, ⟨fun p => by simp [secondTransition],
    fun p => (isSome_nodeAt (l := secondUpdates)).symm, by decide, by decide⟩, ⟨.inl rfl, .inr (.inl rfl), trivial⟩,
    fun p b n hb _ hnone => ?_, fun _ _ _ _ => rfl, fun _ _ => rfl⟩
  · exact (by decide : ∀ e ∈ secondUpdates, e.2.Ok) (p, n) (mem_of_nodeAt h)
  · obtain ⟨rest, rfl⟩ := of_decide_eq_true hp ▸ hpq
    simp [secondTransition, secondUpdates, nodeAt]
  · obtain ⟨b', hb', rfl⟩ : ∃ b', withOld.nodes p = some b' ∧ b' = b := by simpa [StoredTree.load] using hb
    have hall : ∀ e ∈ [([], sampleNode 1 [1]), (["old"], sampleNode 1 [])], e.2.component ≠ none := by decide
    exact absurd hnone (hall _ (mem_of_nodeAt hb'))

/-- The nodes after it. -/
def secondNodes : List (Path × DataNode) :=
  [([], (sampleNode 2 [1, 2]).updating (some (sampleNode 1 [1]))), (["a"], (sampleNode 2 [2]).updating none)]

lemma afterSecond_nodes (p : Path) : afterSecond.nodes p = (nodeAt secondNodes p).map some := by
  obtain ⟨hwf, hal⟩ := secondTransition_permitted
  obtain ⟨-, hgone, hrest⟩ := withOld.load_inv.applyMutation hwf hal
  by_cases hold : ["old"] <+: p
  · rw [afterSecond, hgone p ⟨["old"], by decide, hold⟩]
    obtain ⟨rest, rfl⟩ := hold
    simp [secondNodes, nodeAt]
  rw [afterSecond, hrest p fun q hq => of_decide_eq_true hq ▸ hold]
  by_cases hp : p = []
  · subst hp
    rfl
  by_cases ha : p = ["a"]
  · subst ha
    rfl
  have hne : p ≠ ["old"] := fun h => hold (h ▸ prefix_rfl)
  simp [secondTransition, secondUpdates, nodeAt, StoredTree.load, withOld, StoredTree.ofList, secondNodes, hp, ha, hne]

/-- A mutation and a snapshot in one transaction. -/
theorem replication_exact_goneOn : ∃ t', Call.apply afterSecond (.snapshot goneOn ⟨[], [["a"], ["a", "b"]]⟩) = .ok t' ∧
      t'.nodes ["old"] = none ∧ (((t'.nodes []).join.map fun n => n.sideEffectTasks.map (·.physicalTaskStatus)) =
        some [.created, .none]) ∧
      Replicated withOld afterSecond (.snapshot goneOn ⟨[], [["a"], ["a", "b"]]⟩) t' := by
  have hsnap : ∀ p, afterSecond.snapshot p = (afterSecond.nodes p).join :=
    (withOld.load_inv.applyMutation secondTransition_permitted.1 secondTransition_permitted.2).1.snapshot
  have hA : ∀ p, goneOn.nodes p = if p = [] then some (sampleNode 2 [1, 2]) else
      if p = ["a"] then some (sampleNode 3 [2, 3]) else if p = ["a", "b"] then some (sampleNode 3 []) else none :=
    fun _ => rfl
  have hdel : ∀ p, (afterSecond.snapshotMutation goneOn.load.snapshot).deletedNodes p = false := by
    intro p
    simp only [snapshotMutation, hsnap, afterSecond_nodes, secondNodes, goneOn.load_snapshot, hA, nodeAt]
    by_cases hp : p = [] <;> by_cases ha : p = ["a"] <;> simp [hp, ha]
  have hupd : (afterSecond.snapshotMutation goneOn.load.snapshot).updatedNodes =
      nodeAt [(["a"], sampleNode 3 [2, 3]), (["a", "b"], sampleNode 3 [])] := by
    funext p
    simp only [snapshotMutation, hsnap, afterSecond_nodes, secondNodes, goneOn.load_snapshot, hA, nodeAt]
    by_cases hp : p = []
    · subst hp
      decide +kernel
    by_cases ha : p = ["a"]
    · subst ha
      decide +kernel
    by_cases hb : p = ["a", "b"] <;> simp [hp, ha, hb]
  refine ⟨_, rfl, by decide +kernel, by decide +kernel, replication_exact withOld
    [.mutation secondTransition ⟨[["old"]], [[], ["a"]]⟩] ⟨secondTransition_permitted, trivial⟩ rfl ?_ rfl⟩
  have hlocal : ∀ p b, afterSecond.nodes p = some (some b) → (p, b) ∈ secondNodes := by
    intro p b hb
    rw [afterSecond_nodes] at hb
    exact mem_of_nodeAt (by simpa using hb)
  refine ⟨⟨⟨fun p => by simp [hdel], fun p => ?_, by decide, by decide⟩, ⟨.inr rfl, .inr (.inl rfl), trivial⟩,
    fun p b n hb _ hnone => ?_, fun p q hp => ?_, fun p hp => ?_⟩, fun p b n hb hn => ?_⟩
  · rw [hupd]
    exact (isSome_nodeAt (l := [(["a"], sampleNode 3 [2, 3]), (["a", "b"], sampleNode 3 [])])).symm
  · have hall : ∀ e ∈ secondNodes, e.2.component ≠ none := by decide +kernel
    exact absurd hnone (hall _ (hlocal p b hb))
  · rw [hdel p] at hp
    cases hp
  · rw [hupd, isSome_nodeAt] at hp
    exact (by decide +kernel : ∀ p ∈ [["a"], ["a", "b"]], afterSecond.mutation.deletedNodes p = false) p hp
  have hpaths := hlocal p b hb
  simp only [secondNodes, mem_cons, Prod.mk.injEq, not_mem_nil, or_false] at hpaths
  obtain ⟨rfl, rfl⟩ | ⟨rfl, rfl⟩ := hpaths
  all_goals
    cases hn
    exact ⟨by decide +kernel, by unfold SameData; decide +kernel, by unfold SameData; decide +kernel⟩

/-- The source has two new components, one below the other. -/
def deeper : StoredTree :=
  .ofList [([], sampleNode 1 [1]), (["a"], sampleNode 2 [2]), (["a", "b"], sampleNode 2 [])] (by decide)
    (by decide) (by decide)

/-- A node that is created and then deleted, by two mutations in one transaction. -/
def createdAndDeleted : ReplicaTree :=
  (leftBehind.load.applyMutation ⟨nodeAt [(["a"], sampleNode 2 [2])], fun _ => false⟩
    ⟨[], [["a"]]⟩).applyMutation ⟨fun _ => none, fun p => p = ["a"]⟩ ⟨[["a"]], []⟩

/-- With the update of `a/b` before that of `a`, the task of `a` keeps the status that it has in the
source, and no physical task will be generated for it. And a node that one call creates and the next
one deletes is recorded both as updated and as deleted. -/
theorem childFirst_keepsSourceStatus :
    ((((leftBehind.load.applySnapshot deeper.load.snapshot ⟨[], [["a", "b"], ["a"]]⟩).nodes ["a"]).join.map
        fun n => n.sideEffectTasks.map (·.physicalTaskStatus)) = some [.created] ∧
      ((deeper.nodes ["a"]).map fun n =>
        (n.withLocalStatus (leftBehind.nodes ["a"])).sideEffectTasks.map (·.physicalTaskStatus)) =
          some [.none]) ∧
    createdAndDeleted.mutation.deletedNodes ["a"] = true ∧
      (createdAndDeleted.mutation.updatedNodes ["a"]).isSome := by
  decide +kernel

end FastOrchestration.Chasm
