import FastOrchestration.Lib.GoText

/-!
# Partitions of task queues

The name of a partition in RPCs has the family name and the partition id, behind a prefix that no family name has, and
is cut at its last delimiter when it is parsed; it does not say the namespace. The parent comes from the id by a rounded
division (`partitions_exact`), whose dividend can overflow: with a large degree, a partition is then outside the tree.
-/

namespace FastOrchestration.Matching.Tqid

open Lib.GoText List Relation

structure TaskQueueFamily where
  namespaceId : String
  name : List Char
  deriving DecidableEq

structure NormalPartition where
  family : TaskQueueFamily
  partitionId : Int
  deriving DecidableEq

def nonRootPartitionPrefix : List Char := ['/', '_', 's', 'y', 's', '/']

def maxInt64 : Int := 2 ^ 63 - 1

def int64 (n : Int) : Int := (n + 2 ^ 63) % 2 ^ 64 - 2 ^ 63

def checkFamilyName (baseName : List Char) (partition : Int) : Except String (List Char × Int) :=
  if nonRootPartitionPrefix <+: baseName then
    .error ("task queue family name cannot have prefix /_sys/ " ++ .ofList baseName)
  else .ok (baseName, partition)

def invalidPartitionName (rpcName : List Char) : Except String (List Char × Int) :=
  .error ("invalid task queue partition name " ++ .ofList rpcName)

def parseRpcName (rpcName : List Char) : Except String (List Char × Int) :=
  if nonRootPartitionPrefix <+: rpcName then
    match cutLast '/' rpcName with
    | none => invalidPartitionName rpcName
    | some (front, suffix) =>
      -- the prefix has one byte for each character
      if front.length ≤ nonRootPartitionPrefix.length then invalidPartitionName rpcName
      else
        match atoi suffix with
        | .error _ => invalidPartitionName rpcName
        | .ok partition =>
          if partition ≤ 0 then invalidPartitionName rpcName
          else checkFamilyName (front.drop nonRootPartitionPrefix.length) partition
  else checkFamilyName rpcName 0

namespace NormalPartition

variable (p : NormalPartition)

def isRoot : Prop := p.partitionId = 0

instance : Decidable p.isRoot := inferInstanceAs (Decidable (_ = _))

def parentPartition (degree : Int) : Except String NormalPartition :=
  if p.isRoot then .error "root task queue partition has no parent"
  else if degree < 1 then .error "invalid task queue partition branching degree"
  else .ok { p with partitionId := int64 ((int64 (p.partitionId + degree - 1)).tdiv degree - 1) }

def HasParent (degree : Int) (p parent : NormalPartition) : Prop := p.parentPartition degree = .ok parent

def rpcName : List Char :=
  if p.isRoot then p.family.name
  else nonRootPartitionPrefix ++ p.family.name ++ '/' :: p.partitionId.repr.toList

/-- What `NewTaskQueueFamily` accepts, and an id of the tree. -/
structure Valid : Prop where
  name : p.family.name ≠ [] ∧ ¬ nonRootPartitionPrefix <+: p.family.name
  id : 0 ≤ p.partitionId ∧ p.partitionId ≤ maxInt64

variable {p}

lemma parseRpcName_rpcName (h : p.Valid) : parseRpcName p.rpcName = .ok (p.family.name, p.partitionId) := by
  obtain ⟨hne, hprefix⟩ := h.name
  unfold rpcName parseRpcName checkFamilyName
  split
  · next hroot => rw [show p.partitionId = 0 from hroot]
  next hroot =>
  obtain ⟨n, hn⟩ := Int.eq_ofNat_of_zero_le h.id.1
  have hdigits : p.partitionId.repr.toList = Nat.toDigits 10 n := by
    simp [hn, Int.repr, Nat.repr_eq_ofList_toDigits]
  have hslash : '/' ∉ Nat.toDigits 10 n := fun hin =>
    absurd (Nat.isDigit_of_mem_toDigits (by decide) (by decide) hin) (by decide)
  have hpos : 0 < p.partitionId := lt_of_le_of_ne h.id.1 (Ne.symm hroot)
  have hlen := length_pos_of_ne_nil hne
  rw [if_pos (by simp [append_assoc]), hdigits, cutLast_append hslash]
  simp only [length_append, atoi_toDigits (hn ▸ Int.lt_of_le_sub_one h.id.2), ← hn]
  rw [if_neg (by omega), if_neg (by omega), drop_left, if_neg hprefix]

variable {degree : Int} (hid : 0 ≤ p.partitionId) (hdegree : 1 ≤ degree) (hsum : p.partitionId + degree - 1 ≤ maxInt64)

include hid hdegree hsum

lemma parentPartition_iff {parent : NormalPartition} (hparent : 0 ≤ parent.partitionId) :
    p.HasParent degree parent ↔ parent.family = p.family ∧
      parent.partitionId * degree + 1 ≤ p.partitionId ∧ p.partitionId ≤ parent.partitionId * degree + degree := by
  have hdiv := @Int.ediv_eq_iff_of_pos degree (p.partitionId + degree - 1) (parent.partitionId + 1) (by omega)
  have hle : (p.partitionId + degree - 1) / degree ≤ p.partitionId + degree - 1 := Int.ediv_le_self _ (by omega)
  have hge : 0 ≤ (p.partitionId + degree - 1) / degree := Int.ediv_nonneg (by omega) (by omega)
  rw [Int.add_mul, Int.one_mul] at hdiv
  unfold HasParent parentPartition
  split
  · next hroot =>
    have hroot : p.partitionId = 0 := hroot
    have := Int.mul_nonneg hparent (by omega : 0 ≤ degree)
    simp only [false_iff, reduceCtorEq]
    omega
  have hwrap : ∀ n, 0 ≤ n + 1 → n ≤ maxInt64 → int64 n = n := by
    intro n hlow hhigh
    simp only [int64, maxInt64] at *
    omega
  rw [if_neg (by omega), Except.ok.injEq, hwrap _ (by omega) hsum, Int.tdiv_eq_ediv_of_nonneg (by omega),
    hwrap _ (by omega) (by omega)]
  obtain ⟨family, partitionId⟩ := parent
  simp only [mk.injEq] at *
  rw [eq_comm (a := family)]
  refine and_congr_right fun _ => ?_
  omega

/-- The family's partitions, each below its parent. -/
lemma reaches_root : ReflTransGen (HasParent degree) p { p with partitionId := 0 } := by
  obtain ⟨n, hn⟩ := Int.eq_ofNat_of_zero_le hid
  induction n using Nat.strong_induction_on generalizing p with
  | _ n ih =>
    by_cases hroot : p.partitionId = 0
    · rw [← hroot]
    have hfloor := (@Int.ediv_eq_iff_of_pos degree (p.partitionId - 1) _ (by omega)).mp rfl
    have hlow : 0 ≤ (p.partitionId - 1) / degree := Int.ediv_nonneg (by omega) (by omega)
    have hless : (p.partitionId - 1) / degree ≤ p.partitionId - 1 := Int.ediv_le_self _ (by omega)
    refine .head (b := { p with partitionId := (p.partitionId - 1) / degree }) ?_ ?_
    · exact (parentPartition_iff hid hdegree hsum hlow).mpr ⟨rfl, by dsimp only; omega, by dsimp only; omega⟩
    obtain ⟨m, hm⟩ := Int.eq_ofNat_of_zero_le hlow
    exact ih m (by omega) hlow (by dsimp only; omega) hm

end NormalPartition

open NormalPartition

theorem partitions_exact {p : NormalPartition} (h : p.Valid) :
    parseRpcName p.rpcName = .ok (p.family.name, p.partitionId) ∧
    (∀ q : NormalPartition, q.Valid → (p.rpcName = q.rpcName ↔
      p.family.name = q.family.name ∧ p.partitionId = q.partitionId)) ∧
    ∀ degree, 1 ≤ degree → p.partitionId + degree - 1 ≤ maxInt64 →
      ReflTransGen (HasParent degree) p { p with partitionId := 0 } ∧
      ∀ parent : NormalPartition, 0 ≤ parent.partitionId → (p.HasParent degree parent ↔
        parent.family = p.family ∧ p.partitionId ∈
          Set.Icc (parent.partitionId * degree + 1) (parent.partitionId * degree + degree)) := by
  have hparse := parseRpcName_rpcName h
  refine ⟨hparse, fun q hq => ⟨fun heq => ?_, ?_⟩, fun degree hdegree hsum => ⟨reaches_root h.id.1 hdegree hsum,
    fun parent hparent => ?_⟩⟩
  · rw [heq, parseRpcName_rpcName hq] at hparse
    grind
  · rintro ⟨hname, hid⟩
    simp only [rpcName, isRoot, hname, hid]
    rfl
  · rw [Set.mem_Icc, parentPartition_iff h.id.1 hdegree hsum hparent]

/-- A name that looks like a partition's. -/
theorem partitions_exact_slash : parseRpcName (NormalPartition.mk ⟨"ns", "a/7".toList⟩ 5).rpcName =
    .ok ("a/7".toList, 5) :=
  (partitions_exact ⟨by decide, by decide⟩).1

theorem largeDegree_outside :
    (∃ p q : NormalPartition, p.Valid ∧ q.Valid ∧ p ≠ q ∧ p.rpcName = q.rpcName) ∧
    ∀ p, ReflTransGen (HasParent maxInt64) ⟨⟨"ns", ['a']⟩, 2⟩ p → ¬ p.isRoot := by
  refine ⟨⟨⟨⟨"x", ['a']⟩, 0⟩, ⟨⟨"y", ['a']⟩, 0⟩, ⟨by decide, by decide⟩, ⟨by decide, by decide⟩, by decide, by decide⟩,
    fun p hreach => ?_⟩
  have hids : p.partitionId = 2 ∨ p.partitionId = -2 ∨ p.partitionId = -1 := by
    induction hreach with
    | refl => exact .inl rfl
    | @tail q parent _ hstep ih =>
      obtain ⟨family, id⟩ := q
      obtain rfl | rfl | rfl : id = 2 ∨ id = -2 ∨ id = -1 := ih <;> cases hstep <;> dsimp only <;> decide
  intro hroot
  rw [show p.partitionId = 0 from hroot] at hids
  exact absurd hids (by decide)

end FastOrchestration.Matching.Tqid
