import FastOrchestration.Lib.Run

/-!
# History trees

Model of `ForkHistoryBranch`, `DeleteHistoryBranch` and the append path in `history_manager.go`, for one
tree. A branch owns the nodes under its ID from `GetBeginNodeID` on and inherits ranges of nodes of its
ancestors. The store has a row for each live branch and the nodes; a node is its branch ID and node ID.

Node IDs are `int64` in the source, so requests carry a proof that theirs are at most `LastEventID`,
the largest of them. A branch token is what it parses to, and new branch IDs are UUIDs: an event with
one that exists is not enabled. Transaction IDs, payloads and size limits are left out.

`deletion_safe` says what a deletion keeps and what it leaves behind. One node can be left: `LastEventID`
also stands for a branch that is in use as a whole, so a branch that was forked at `LastEventID` looks
live after its deletion, and a node with that ID stays (`lastNode_stays`).
-/

namespace FastOrchestration.Persistence.HistoryTree

open Lib List Function

structure HistoryBranchRange where
  branchId : Nat
  beginNodeId : Int
  endNodeId : Int
  deriving DecidableEq

structure HistoryBranch where
  branchId : Nat
  ancestors : List HistoryBranchRange
  deriving DecidableEq

abbrev Node := Nat × Int

def lastEventID : Int := 2 ^ 63 - 1

def getBeginNodeID (bi : HistoryBranch) : Int :=
  match bi.ancestors.getLast? with
  | none => 1
  | some br => br.endNodeId

structure Tree where
  rows : List HistoryBranch
  nodes : List Node
  deriving DecidableEq

inductive Err where
  | forkNodeIDTooSmall
  | eventIDTooSmall
  | ancestorsNodes
  | notEnabled
  deriving DecidableEq

/-! ### Forks -/

def cutAncestors (forkNodeID : Int) : List HistoryBranchRange → List HistoryBranchRange
  | [] => []
  | br :: brs =>
    if br.endNodeId ≥ forkNodeID then [⟨br.branchId, br.beginNodeId, forkNodeID⟩]
    else br :: cutAncestors forkNodeID brs

def forkBranch (fork : HistoryBranch) (forkNodeID : Int) (newBranchID : Nat) : HistoryBranch :=
  let beginNodeID := getBeginNodeID fork
  if beginNodeID ≥ forkNodeID then ⟨newBranchID, cutAncestors forkNodeID fork.ancestors⟩
  else ⟨newBranchID, fork.ancestors ++ [⟨fork.branchId, beginNodeID, forkNodeID⟩]⟩

/-! ### Appends -/

/-- The loop of `sortAncestors` over the sorted ranges. -/
def setBegins : Int → List HistoryBranchRange → List HistoryBranchRange
  | _, [] => []
  | begin_, br :: brs => { br with beginNodeId := begin_ } :: setBegins br.endNodeId brs

def sortAncestors (ans : List HistoryBranchRange) : List HistoryBranchRange :=
  setBegins 1 (ans.insertionSort fun a b => a.endNodeId ≤ b.endNodeId)

/-- Go `AppendHistoryNodes`: a new branch gets its row. -/
def appendHistoryNodes (t : Tree) (branch : HistoryBranch) (nodeID : Int) (isNewBranch : Bool) :
    Except Err Tree :=
  let branch := { branch with ancestors := sortAncestors branch.ancestors }
  if nodeID ≤ 0 then .error .eventIDTooSmall
  else if nodeID < getBeginNodeID branch then .error .ancestorsNodes
  else
    let rows :=
      if isNewBranch && t.rows.all (·.branchId ≠ branch.branchId) then branch :: t.rows else t.rows
    .ok ⟨rows, (branch.branchId, nodeID) :: t.nodes⟩

/-! ### Deletions -/

/-- Go `map[string]int64`. -/
abbrev UsedBranches := Nat → Option Int

def useAncestor (used : UsedBranches) (ancestor : HistoryBranchRange) : UsedBranches :=
  match used ancestor.branchId with
  | none => Function.update used ancestor.branchId (some ancestor.endNodeId)
  | some curr =>
    if curr < ancestor.endNodeId then
      Function.update used ancestor.branchId (some ancestor.endNodeId)
    else used

def useBranch (used : UsedBranches) (branch : HistoryBranch) : UsedBranches :=
  branch.ancestors.foldl useAncestor (Function.update used branch.branchId (some lastEventID))

/-- The rows but for that of the target branch. -/
def Tree.others (t : Tree) (branch : HistoryBranch) : List HistoryBranch :=
  t.rows.filter fun b => b.branchId ≠ branch.branchId

def usedBranches (t : Tree) (branch : HistoryBranch) : UsedBranches :=
  (t.others branch).foldl useBranch fun _ => none

def brsToDelete (branch : HistoryBranch) : List HistoryBranchRange :=
  branch.ancestors ++ [⟨branch.branchId, getBeginNodeID branch, 0⟩]

/-- The loop `findDeleteRanges` over the ranges from the bottom up: a branch ID, and from where on. -/
def findDeleteRanges (used : UsedBranches) : List HistoryBranchRange → List Node
  | [] => []
  | br :: brs =>
    match used br.branchId with
    | some maxEndNode => if maxEndNode ≠ lastEventID then [(br.branchId, maxEndNode)] else []
    | none => (br.branchId, br.beginNodeId) :: findDeleteRanges used brs

def deleteRanges (t : Tree) (branch : HistoryBranch) : List Node :=
  findDeleteRanges (usedBranches t branch) (brsToDelete branch).reverse

def covers (range n : Node) : Bool := n.1 = range.1 && decide (range.2 ≤ n.2)

def deleteHistoryBranch (t : Tree) (branch : HistoryBranch) : Tree where
  rows := t.others branch
  nodes := t.nodes.filter fun n => (deleteRanges t branch).all fun range => !covers range n

/-! ### Runs -/

/-- The tree, and the branches that were ever made. -/
structure System where
  tree : Tree
  branches : List HistoryBranch
  deriving DecidableEq

def newTree : System := ⟨⟨[], []⟩, []⟩

inductive Event where
  | newHistoryBranch (branchID : Nat)
  | append (branch : HistoryBranch) (nodeID : Int) (le : nodeID ≤ lastEventID) (isNewBranch : Bool)
  | fork (branch : HistoryBranch) (forkNodeID : Int) (le : forkNodeID ≤ lastEventID) (newBranchID : Nat)
  | delete (branch : HistoryBranch)

def System.fresh (s : System) (id : Nat) : Bool := s.branches.all (·.branchId ≠ id)

def step (s : System) : Event → Except Err System
  | .newHistoryBranch id =>
    if s.fresh id then .ok { s with branches := ⟨id, []⟩ :: s.branches } else .error .notEnabled
  | .append branch nodeID _ isNewBranch =>
    if branch ∈ s.branches then do
      let tree ← appendHistoryNodes s.tree branch nodeID isNewBranch
      return { s with tree }
    else .error .notEnabled
  | .fork branch forkNodeID _ newBranchID =>
    if branch ∈ s.branches ∧ s.fresh newBranchID then
      if forkNodeID ≤ 1 then .error .forkNodeIDTooSmall
      else
        let new := forkBranch branch forkNodeID newBranchID
        .ok ⟨{ s.tree with rows := new :: s.tree.rows }, new :: s.branches⟩
    else .error .notEnabled
  | .delete branch =>
    if branch ∈ s.branches then .ok { s with tree := deleteHistoryBranch s.tree branch }
    else .error .notEnabled

/-- The nodes in the range of a branch: its own, and those that it inherits. -/
def HistoryBranch.Reaches (b : HistoryBranch) (n : Node) : Prop :=
  (n.1 = b.branchId ∧ getBeginNodeID b ≤ n.2) ∨
    ∃ br ∈ b.ancestors, n.1 = br.branchId ∧ br.beginNodeId ≤ n.2 ∧ n.2 < br.endNodeId

instance (b : HistoryBranch) (n : Node) : Decidable (b.Reaches n) := by
  unfold HistoryBranch.Reaches
  infer_instance

/-- Ranges that follow on each other, from a node on. -/
def Contiguous : Int → List HistoryBranchRange → Prop
  | _, [] => True
  | begin_, br :: brs =>
    br.beginNodeId = begin_ ∧ begin_ < br.endNodeId ∧ Contiguous br.endNodeId brs

/-! ### Contiguous ranges -/

/-- The end of the last range, or where the first one would begin. -/
def endOf : Int → List HistoryBranchRange → Int
  | begin_, [] => begin_
  | _, br :: brs => endOf br.endNodeId brs

lemma getBeginNodeID_eq (id : Nat) (brs : List HistoryBranchRange) : getBeginNodeID ⟨id, brs⟩ = endOf 1 brs := by
  have h : ∀ begin_, (match brs.getLast? with
      | none => begin_
      | some br => br.endNodeId) = endOf begin_ brs := by
    induction brs with
    | nil => exact fun _ => rfl
    | cons br brs ih =>
      intro begin_
      rw [endOf, ← ih, getLast?_cons]
      cases brs.getLast? <;> rfl
  exact h 1

lemma contiguous_append {begin_ brs brs'} :
    Contiguous begin_ (brs ++ brs') ↔ Contiguous begin_ brs ∧ Contiguous (endOf begin_ brs) brs' := by
  induction brs generalizing begin_ with
  | nil => simp [Contiguous, endOf]
  | cons br brs ih =>
    rw [cons_append, Contiguous, Contiguous, ih, endOf]
    tauto

lemma Contiguous.pairwise {begin_} {brs : List HistoryBranchRange} (h : Contiguous begin_ brs) :
    (∀ br ∈ brs, begin_ < br.endNodeId) ∧ brs.Pairwise fun a b => a.endNodeId < b.endNodeId := by
  induction brs generalizing begin_ with
  | nil => exact ⟨nofun, .nil⟩
  | cons br brs ih =>
    obtain ⟨hlt, hpair⟩ := ih h.2.2
    exact ⟨forall_mem_cons.mpr ⟨h.2.1, fun br' hbr' => h.2.1.trans (hlt br' hbr')⟩, .cons hlt hpair⟩

lemma setBegins_eq {begin_ brs} (h : Contiguous begin_ brs) : setBegins begin_ brs = brs := by
  induction brs generalizing begin_ with
  | nil => rfl
  | cons br brs ih =>
    obtain ⟨rfl, -, hrest⟩ := h
    rw [setBegins, ih hrest]

lemma sortAncestors_eq {brs} (h : Contiguous 1 brs) : sortAncestors brs = brs := by
  unfold sortAncestors
  rw [List.Pairwise.insertionSort_eq (h.pairwise.2.imp Int.le_of_lt), setBegins_eq h]

/-! ### The branches in use -/

/-- What the map says of the branches `ids` that are live and the ranges `brs` that are inherited. -/
structure Uses (ids : List Nat) (brs : List HistoryBranchRange) (used : UsedBranches) : Prop where
  live : ∀ id ∈ ids, used id = some lastEventID
  inherited : ∀ br ∈ brs, ∃ m, used br.branchId = some m ∧ br.endNodeId ≤ m
  source : ∀ id m, used id = some m → id ∈ ids ∨ ∃ br ∈ brs, br.branchId = id ∧ br.endNodeId = m

lemma Uses.branch {ids brs used} (h : Uses ids brs used) (hle : ∀ br ∈ brs, br.endNodeId ≤ lastEventID)
    (id : Nat) : Uses (ids ++ [id]) brs (Function.update used id (some lastEventID)) := by
  refine ⟨fun id' hid' => ?_, fun br hbr => ?_, fun id' m hm => ?_⟩
  · by_cases heq : id' = id
    · rw [heq, update_self]
    rw [update_of_ne heq]
    exact h.live id' (by simpa [heq] using hid')
  · by_cases heq : br.branchId = id
    · exact ⟨lastEventID, by rw [heq, update_self], hle br hbr⟩
    rw [update_of_ne heq]
    exact h.inherited br hbr
  by_cases heq : id' = id
  · exact .inl (by simp [heq])
  rw [update_of_ne heq] at hm
  exact (h.source id' m hm).imp_left (mem_append_left [id])

lemma useAncestor_eq (used : UsedBranches) (br : HistoryBranchRange) :
    (useAncestor used br = Function.update used br.branchId (some br.endNodeId) ∧
      ∀ m, used br.branchId = some m → m < br.endNodeId) ∨
    (useAncestor used br = used ∧ ∃ m, used br.branchId = some m ∧ br.endNodeId ≤ m) := by
  unfold useAncestor
  split
  · next hnone => exact .inl ⟨rfl, fun m hm => by simp [hnone] at hm⟩
  next curr hcurr =>
  split
  · next hlt => exact .inl ⟨rfl, fun m hm => by rwa [hcurr, Option.some.injEq] at hm ▸ hlt⟩
  · next hge => exact .inr ⟨rfl, curr, hcurr, Int.not_lt.mp hge⟩

lemma Uses.ancestor {ids brs used} (h : Uses ids brs used) {br : HistoryBranchRange}
    (hle : br.endNodeId ≤ lastEventID) : Uses ids (brs ++ [br]) (useAncestor used br) := by
  have hsource : ∀ id m, used id = some m → id ∈ ids ∨ ∃ br' ∈ brs ++ [br], br'.branchId = id ∧ br'.endNodeId = m :=
    fun id m hm => (h.source id m hm).imp_right fun ⟨br', hbr', hrest⟩ => ⟨br', mem_append_left _ hbr', hrest⟩
  rcases useAncestor_eq used br with ⟨heq, hlt⟩ | ⟨heq, m, hm, hbr⟩
  · rw [heq]
    refine ⟨fun id hid => ?_, fun br' hbr' => ?_, fun id m hm => ?_⟩
    · have hne : id ≠ br.branchId := by
        intro he
        have := hlt lastEventID (he ▸ h.live id hid)
        omega
      rw [update_of_ne hne]
      exact h.live id hid
    · by_cases he : br'.branchId = br.branchId
      · refine ⟨br.endNodeId, by rw [he, update_self], ?_⟩
        rcases mem_append.mp hbr' with hbr' | hbr'
        · obtain ⟨m, hm, hle'⟩ := h.inherited br' hbr'
          have := hlt m (he ▸ hm)
          omega
        · rw [mem_singleton.mp hbr']
      rw [update_of_ne he]
      rcases mem_append.mp hbr' with hbr' | hbr'
      · exact h.inherited br' hbr'
      · exact absurd (congrArg _ (mem_singleton.mp hbr')) he
    by_cases he : id = br.branchId
    · subst he
      rw [update_self] at hm
      exact .inr ⟨br, by simp, rfl, Option.some.inj hm⟩
    rw [update_of_ne he] at hm
    exact hsource id m hm
  rw [heq]
  refine ⟨h.live, fun br' hbr' => ?_, hsource⟩
  rcases mem_append.mp hbr' with hbr' | hbr'
  · exact h.inherited br' hbr'
  rw [mem_singleton.mp hbr']
  exact ⟨m, hm, hbr⟩

lemma Uses.ancestors {ids} {brs brs' : List HistoryBranchRange} {used}
    (h : Uses ids brs used) (hle : ∀ br ∈ brs', br.endNodeId ≤ lastEventID) :
    Uses ids (brs ++ brs') (brs'.foldl useAncestor used) := by
  induction brs' generalizing brs used with
  | nil => simpa using h
  | cons br brs' ih =>
    have := ih (h.ancestor (hle br (by simp))) fun br' hbr' => hle br' (by simp [hbr'])
    simpa using this

lemma Uses.branches {ids brs used} (h : Uses ids brs used) (hle : ∀ br ∈ brs, br.endNodeId ≤ lastEventID)
    {bs : List HistoryBranch} (hbs : ∀ b ∈ bs, ∀ br ∈ b.ancestors, br.endNodeId ≤ lastEventID) :
    Uses (ids ++ bs.map (·.branchId)) (brs ++ bs.flatMap (·.ancestors)) (bs.foldl useBranch used) := by
  induction bs generalizing ids brs used with
  | nil => simpa using h
  | cons b bs ih =>
    have hb := (h.branch hle b.branchId).ancestors (hbs b (by simp))
    have := ih hb (fun br hbr => ?_) fun b' hb' => hbs b' (by simp [hb'])
    · simpa [useBranch] using this
    rcases mem_append.mp hbr with hbr | hbr
    · exact hle br hbr
    · exact hbs b (by simp) br hbr

/-! ### The loop over the ranges -/

/-- What is to be deleted is in use by no other branch, or from the end of their use on. -/
lemma findDeleteRanges_unused {used brs range} (h : range ∈ findDeleteRanges used brs) :
    used range.1 = none ∨ (used range.1 = some range.2 ∧ range.2 ≠ lastEventID) := by
  induction brs with
  | nil => cases h
  | cons br brs ih =>
    rw [findDeleteRanges] at h
    split at h
    · next m hm =>
      split at h
      · next hne =>
        rw [mem_singleton.mp h]
        exact .inr ⟨hm, hne⟩
      · cases h
    next hnone =>
    rcases mem_cons.mp h with rfl | h
    · exact .inl hnone
    · exact ih h

/-- The loop deletes whole ranges, up to the first one that is in use. -/
lemma findDeleteRanges_stops (used : UsedBranches) (brs : List HistoryBranchRange) :
    (∀ br ∈ brs, (br.branchId, br.beginNodeId) ∈ findDeleteRanges used brs) ∨
    ∃ below br above m, brs = below ++ br :: above ∧ used br.branchId = some m ∧
      (∀ br' ∈ below, (br'.branchId, br'.beginNodeId) ∈ findDeleteRanges used brs) ∧
      (m ≠ lastEventID → (br.branchId, m) ∈ findDeleteRanges used brs) := by
  induction brs with
  | nil => exact .inl nofun
  | cons br brs ih =>
    cases hused : used br.branchId with
    | some m =>
      refine .inr ⟨[], br, brs, m, rfl, hused, nofun, fun hne => ?_⟩
      rw [findDeleteRanges, hused]
      simp [hne]
    | none =>
      have heq : findDeleteRanges used (br :: brs) = (br.branchId, br.beginNodeId) :: findDeleteRanges used brs := by
        rw [findDeleteRanges, hused]
      rw [heq]
      rcases ih with hall | ⟨below, br', above, m, rfl, hm, hbelow, hne⟩
      · exact .inl (forall_mem_cons.mpr ⟨mem_cons_self, fun br' hbr' => mem_cons_of_mem _ (hall br' hbr')⟩)
      refine .inr ⟨br :: below, br', above, m, rfl, hm, ?_, fun h => mem_cons_of_mem _ (hne h)⟩
      exact forall_mem_cons.mpr ⟨mem_cons_self, fun x hx => mem_cons_of_mem _ (hbelow x hx)⟩

/-! ### The shape of a tree -/

structure Inv (s : System) : Prop where
  unique : ∀ b ∈ s.branches, ∀ b' ∈ s.branches, b.branchId = b'.branchId → b = b'
  rows : ∀ b ∈ s.tree.rows, b ∈ s.branches
  contiguous : ∀ b ∈ s.branches, Contiguous 1 b.ancestors
  /-- An ancestor has the ancestors that come before it. -/
  inherits : ∀ b ∈ s.branches, ∀ above br below, b.ancestors = above ++ br :: below → ⟨br.branchId, above⟩ ∈ s.branches
  bounded : ∀ b ∈ s.branches, ∀ br ∈ b.ancestors, br.endNodeId ≤ lastEventID
  nodes : ∀ n ∈ s.tree.nodes, n.2 ≤ lastEventID

lemma cutAncestors_eq {begin_ forkNodeID brs}
    (h : Contiguous begin_ brs) (hlt : begin_ < forkNodeID) (hle : forkNodeID ≤ endOf begin_ brs) :
    ∃ above br below, brs = above ++ br :: below ∧ br.beginNodeId < forkNodeID ∧ forkNodeID ≤ br.endNodeId ∧
      cutAncestors forkNodeID brs = above ++ [⟨br.branchId, br.beginNodeId, forkNodeID⟩] := by
  induction brs generalizing begin_ with
  | nil => exact absurd hle (Int.not_le.mpr hlt)
  | cons br brs ih =>
    obtain ⟨rfl, hbr, hrest⟩ := h
    rw [cutAncestors]
    split
    · next hge => exact ⟨[], br, brs, rfl, hlt, hge, rfl⟩
    next hge =>
    obtain ⟨above, br', below, rfl, hlt', hle', heq⟩ := ih hrest (Int.not_le.mp hge) hle
    exact ⟨br :: above, br', below, rfl, hlt', hle', by rw [heq]; rfl⟩

variable {s : System}

/-- The owner of a range has the ancestors above it, and the range begins where its nodes do. -/
lemma Inv.owner (hs : Inv s) {b : HistoryBranch} (hb : b ∈ s.branches) {above below}
    {br : HistoryBranchRange} (h : b.ancestors = above ++ br :: below) :
    ⟨br.branchId, above⟩ ∈ s.branches ∧ br.beginNodeId = endOf 1 above := by
  refine ⟨hs.inherits b hb above br below h, ?_⟩
  have := hs.contiguous b hb
  rw [h] at this
  exact (contiguous_append.mp this).2.1

lemma forkBranch_ancestors (hs : Inv s) {b} (hb : b ∈ s.branches) {forkNodeID} (hfork : 1 < forkNodeID) (id : Nat) :
    ∃ owner ∈ s.branches, getBeginNodeID owner < forkNodeID ∧ forkBranch b forkNodeID id =
        ⟨id, owner.ancestors ++ [⟨owner.branchId, getBeginNodeID owner, forkNodeID⟩]⟩ := by
  unfold forkBranch
  dsimp only
  split
  · next hge =>
    rw [← show HistoryBranch.mk b.branchId b.ancestors = b from rfl, getBeginNodeID_eq] at hge
    obtain ⟨above, br, below, heq, hlt, -, hcut⟩ :=
      cutAncestors_eq (hs.contiguous b hb) hfork hge
    obtain ⟨howner, hbegin⟩ := hs.owner hb heq
    refine ⟨⟨br.branchId, above⟩, howner, ?_, ?_⟩
    · rwa [getBeginNodeID_eq, ← hbegin]
    · rw [getBeginNodeID_eq, hcut, hbegin]
  · next hge => exact ⟨b, hb, Int.not_le.mp hge, rfl⟩

lemma inv_newTree : Inv newTree where
  unique := nofun
  rows := nofun
  contiguous := nofun
  inherits := nofun
  bounded := nofun
  nodes := nofun

lemma split_concat {brs above below : List HistoryBranchRange} {last br : HistoryBranchRange}
    (h : brs ++ [last] = above ++ br :: below) :
    (brs = above ∧ last = br ∧ below = []) ∨ ∃ below', brs = above ++ br :: below' := by
  rcases eq_nil_or_concat below with rfl | ⟨below', x, rfl⟩
  · obtain ⟨hbrs, hlast⟩ := append_inj' h rfl
    exact .inl ⟨hbrs, singleton_inj.mp hlast, rfl⟩
  rw [concat_eq_append, ← cons_append, ← append_assoc] at h
  exact .inr ⟨below', (append_inj' h rfl).1⟩

lemma System.fresh_ne {id} (h : s.fresh id) : ∀ b ∈ s.branches, b.branchId ≠ id := by
  simpa [System.fresh] using h

lemma Inv.cons (hs : Inv s) {new : HistoryBranch} (hid : s.fresh new.branchId) (hc : Contiguous 1 new.ancestors)
    (hi : ∀ above br below, new.ancestors = above ++ br :: below → ⟨br.branchId, above⟩ ∈ s.branches)
    (hb : ∀ br ∈ new.ancestors, br.endNodeId ≤ lastEventID) :
    Inv { s with branches := new :: s.branches } := by
  have hne := System.fresh_ne hid
  refine ⟨?_, fun b h => mem_cons_of_mem _ (hs.rows b h), ?_, ?_, ?_, hs.nodes⟩
  · rintro b (_ | ⟨_, hold⟩) b' (_ | ⟨_, hold'⟩) heq
    · rfl
    · exact absurd heq.symm (hne b' hold')
    · exact absurd heq (hne b hold)
    · exact hs.unique b hold b' hold' heq
  · exact forall_mem_cons.mpr ⟨hc, hs.contiguous⟩
  · refine forall_mem_cons.mpr ⟨fun above br below heq => mem_cons_of_mem _ (hi above br below heq), ?_⟩
    exact fun b hb above br below heq => mem_cons_of_mem _ (hs.inherits b hb above br below heq)
  · exact forall_mem_cons.mpr ⟨hb, hs.bounded⟩

lemma Inv.fork (hs : Inv s) {b} (hb : b ∈ s.branches) {forkNodeID} (hfork : 1 < forkNodeID)
    (hle : forkNodeID ≤ lastEventID) {id} (hid : s.fresh id) :
    Inv { s with branches := forkBranch b forkNodeID id :: s.branches } := by
  obtain ⟨owner, howner, hlt, heq⟩ := forkBranch_ancestors hs hb hfork id
  rw [heq]
  have hbegin : getBeginNodeID owner = endOf 1 owner.ancestors := getBeginNodeID_eq owner.branchId _
  refine hs.cons hid ?_ ?_ ?_
  · refine contiguous_append.mpr ⟨hs.contiguous owner howner, hbegin, ?_, trivial⟩
    rwa [← hbegin]
  · intro above br below hsplit
    rcases split_concat hsplit with ⟨rfl, rfl, -⟩ | ⟨below', hsplit'⟩
    · exact howner
    · exact hs.inherits owner howner above br below' hsplit'
  intro br hbr
  rcases mem_append.mp hbr with hbr | hbr
  · exact hs.bounded owner howner br hbr
  rw [mem_singleton.mp hbr]
  exact hle

lemma step_inv (s : System) (e : Event) (s' : System) (hs : Inv s) (h : step s e = .ok s') : Inv s' := by
  cases e with simp only [step] at h
  | newHistoryBranch id =>
    obtain ⟨hid, rfl⟩ := guard_ok h
    exact hs.cons hid trivial (fun above br below heq => by simp at heq) nofun
  | append branch nodeID le isNewBranch =>
    split at h
    · next hb =>
      obtain ⟨tree, ht, h⟩ := bind_ok h
      cases h
      simp only [appendHistoryNodes, sortAncestors_eq (hs.contiguous branch hb)] at ht
      split at ht
      · cases ht
      split at ht
      · cases ht
      cases ht
      refine ⟨hs.unique, fun b hrow => ?_, hs.contiguous, hs.inherits, hs.bounded, forall_mem_cons.mpr ⟨le, hs.nodes⟩⟩
      split at hrow
      · rcases mem_cons.mp hrow with rfl | hrow
        · exact hb
        · exact hs.rows b hrow
      · exact hs.rows b hrow
    · cases h
  | fork branch forkNodeID le newBranchID =>
    split at h
    · next hcond =>
      split at h
      · cases h
      next hfork =>
      cases h
      have hnew := hs.fork hcond.1 (Int.not_le.mp hfork) le hcond.2
      exact { hnew with rows := forall_mem_cons.mpr ⟨mem_cons_self, hnew.rows⟩ }
    · cases h
  | delete branch =>
    obtain ⟨-, rfl⟩ := guard_ok h
    exact { hs with
      rows := fun b hb => hs.rows b (mem_of_mem_filter hb)
      nodes := fun n hn => hs.nodes n (mem_of_mem_filter hn) }

/-! ### Deletions -/

lemma mem_others {t : Tree} {b branch : HistoryBranch} :
    b ∈ t.others branch ↔ b ∈ t.rows ∧ b.branchId ≠ branch.branchId := by
  simp [Tree.others]

variable (hs : Inv s)

include hs

lemma Inv.uses (branch : HistoryBranch) :
    Uses ((s.tree.others branch).map (·.branchId)) ((s.tree.others branch).flatMap (·.ancestors))
      (usedBranches s.tree branch) := by
  have empty : Uses [] [] fun _ => none := ⟨nofun, nofun, nofun⟩
  have hbs : ∀ b ∈ s.tree.others branch, ∀ br ∈ b.ancestors, br.endNodeId ≤ lastEventID :=
    fun b hb => hs.bounded b (hs.rows b (mem_others.mp hb).1)
  exact empty.branches nofun hbs

lemma Inv.keeps {branch b : HistoryBranch} (hb : b ∈ s.tree.others branch) {n}
    (hn : n ∈ s.tree.nodes) (hreach : b.Reaches n) : n ∈ (deleteHistoryBranch s.tree branch).nodes := by
  refine mem_filter.mpr ⟨hn, all_eq_true.mpr fun range hrange => ?_⟩
  have huses := hs.uses branch
  by_contra hcov
  simp only [Bool.not_eq_true', Bool.not_eq_false, covers, Bool.and_eq_true, decide_eq_true_eq] at hcov
  obtain ⟨hid, hle⟩ := hcov
  rcases hreach with ⟨hown, -⟩ | ⟨br, hbr, hid', -, hlt⟩
  · have hlive := huses.live b.branchId (mem_map_of_mem hb)
    rw [← hown, hid] at hlive
    rcases findDeleteRanges_unused hrange with hnone | ⟨hsome, hne⟩
    · rw [hnone] at hlive
      cases hlive
    rw [hsome] at hlive
    exact hne (Option.some.inj hlive)
  obtain ⟨m, hm, hend⟩ := huses.inherited br (mem_flatMap.mpr ⟨b, hb, hbr⟩)
  rw [← hid', hid] at hm
  rcases findDeleteRanges_unused hrange with hnone | ⟨hsome, -⟩
  · rw [hnone] at hm
    cases hm
  rw [hsome] at hm
  cases hm
  omega

/-- Whoever uses the branch of a range reaches all above it, and what is in use of the branch. -/
lemma Inv.user {branch id above} (howner : ⟨id, above⟩ ∈ s.branches) {m} (hm : usedBranches s.tree branch id = some m) :
    ∃ b ∈ s.tree.others branch, (∀ br ∈ above, br ∈ b.ancestors) ∧
      ∀ n, n.1 = id → endOf 1 above ≤ n.2 → n.2 < m → b.Reaches n := by
  rcases (hs.uses branch).source id m hm with hlive | ⟨br, hbr, hid, hend⟩
  · obtain ⟨b, hb, rfl⟩ := mem_map.mp hlive
    have heq := hs.unique b (hs.rows b (mem_others.mp hb).1) _ howner rfl
    have hanc : b.ancestors = above := congrArg HistoryBranch.ancestors heq
    refine ⟨b, hb, fun br hbr => hanc ▸ hbr, fun n hn hle _ => .inl ⟨hn, ?_⟩⟩
    rw [heq, getBeginNodeID_eq]
    exact hle
  obtain ⟨b, hb, hbr⟩ := mem_flatMap.mp hbr
  have hbs := hs.rows b (mem_others.mp hb).1
  obtain ⟨above', below, hsplit⟩ := append_of_mem hbr
  obtain ⟨howner', hbegin⟩ := hs.owner hbs hsplit
  have heq := hs.unique _ howner' _ howner hid
  cases hid
  have hanc : above' = above := congrArg HistoryBranch.ancestors heq
  subst hanc
  refine ⟨b, hb, fun br' hbr' => by simp [hsplit, hbr'], fun n hn hle hlt => .inr ⟨br, hbr, hn, ?_, ?_⟩⟩
  · rwa [hbegin]
  · rwa [hend]

/-- The owner of a range in the list of a deletion, and what is above it. -/
lemma Inv.stopOwner {branch : HistoryBranch} (hb : branch ∈ s.branches)
    {below above : List HistoryBranchRange} {stop : HistoryBranchRange}
    (h : (brsToDelete branch).reverse = below ++ stop :: above) :
    (⟨stop.branchId, above.reverse⟩ ∈ s.branches ∧ stop.beginNodeId = endOf 1 above.reverse) ∧
      ∀ br ∈ above, br ∈ branch.ancestors := by
  have h' : branch.ancestors ++ [⟨branch.branchId, getBeginNodeID branch, 0⟩] =
      above.reverse ++ stop :: below.reverse := by
    have := congrArg List.reverse h
    simpa [brsToDelete] using this
  rcases split_concat h' with ⟨hanc, rfl, -⟩ | ⟨below', hanc⟩
  · rw [← hanc]
    refine ⟨⟨hb, getBeginNodeID_eq branch.branchId branch.ancestors⟩, fun br hbr => ?_⟩
    rw [hanc]
    exact mem_reverse.mpr hbr
  refine ⟨hs.owner hb hanc, fun br hbr => ?_⟩
  rw [hanc]
  simp [hbr]

/-- What is left of the range of a deleted branch is in the range of a live one. -/
lemma Inv.leaves {branch : HistoryBranch} (hb : branch ∈ s.branches) {n}
    (hn : n ∈ (deleteHistoryBranch s.tree branch).nodes) (hreach : branch.Reaches n)
    (hlast : n.2 ≠ lastEventID) : ∃ b ∈ s.tree.others branch, b.Reaches n := by
  obtain ⟨hmem, hkept⟩ := mem_filter.mp hn
  have hlt : n.2 < lastEventID := lt_of_le_of_ne (hs.nodes n hmem) hlast
  have kept : ∀ range ∈ deleteRanges s.tree branch, n.1 = range.1 → n.2 < range.2 := by
    intro range hrange hid
    have := all_eq_true.mp hkept range hrange
    simpa [covers, hid] using this
  -- the node is in a range of the list that the loop goes through
  obtain ⟨br, hbr, hid, hle, hend⟩ : ∃ br ∈ (brsToDelete branch).reverse, n.1 = br.branchId ∧
      br.beginNodeId ≤ n.2 ∧ (br.endNodeId = 0 ∨ n.2 < br.endNodeId) := by
    rcases hreach with ⟨hid, hle⟩ | ⟨br, hbr, hid, hle, hend⟩
    · exact ⟨⟨branch.branchId, getBeginNodeID branch, 0⟩, by simp [brsToDelete], hid, hle, .inl rfl⟩
    · exact ⟨br, by simp [brsToDelete, hbr], hid, hle, .inr hend⟩
  rcases findDeleteRanges_stops (usedBranches s.tree branch) (brsToDelete branch).reverse with
    hall | ⟨below, stop, above, m, hsplit, hm, hbelow, hstop⟩
  · exact absurd hle (Int.not_le.mpr (kept _ (hall br hbr) hid))
  rw [hsplit] at hbr
  obtain ⟨⟨howner, hbegin⟩, hsub⟩ := hs.stopOwner hb hsplit
  obtain ⟨b, hb', habove, hown⟩ := hs.user howner hm
  refine ⟨b, hb', ?_⟩
  rcases mem_append.mp hbr with hbr | hbr
  · exact absurd hle (Int.not_le.mpr (kept _ (hbelow br hbr) hid))
  rcases mem_cons.mp hbr with rfl | hbr
  · -- the range at which the loop stops: the rest of it is gone
    have hm' : n.2 < m := by
      by_cases hml : m = lastEventID
      · rw [hml]
        exact hlt
      · exact kept _ (hstop hml) hid
    exact hown n hid (hbegin ▸ hle) hm'
  have hpos := (hs.contiguous branch hb).pairwise.1 br (hsub br hbr)
  have hend' : n.2 < br.endNodeId := hend.resolve_left (by omega)
  exact .inr ⟨br, habove br (by simpa using hbr), hid, hle, hend'⟩

omit hs

/-- What a deletion keeps, and what it leaves behind. -/
theorem deletion_safe {es : List Event} {s : System} (hr : run step newTree es = .ok s) :
    (∀ b ∈ s.tree.rows, Contiguous 1 b.ancestors) ∧
    ∀ branch ∈ s.branches,
      -- no node in the range of another live branch is removed
      (∀ b ∈ s.tree.rows, b.branchId ≠ branch.branchId → ∀ n ∈ s.tree.nodes, b.Reaches n →
        n ∈ (deleteHistoryBranch s.tree branch).nodes) ∧
      -- a node in its own range remains only if it is in the range of another live branch
      (∀ n ∈ (deleteHistoryBranch s.tree branch).nodes, branch.Reaches n → n.2 ≠ lastEventID →
        ∃ b ∈ (deleteHistoryBranch s.tree branch).rows, b.Reaches n) := by
  have hs : Inv s :=
    (Along.of_forall (fun _ _ _ => trivial) newTree).inv (fun s e s' hs _ => step_inv s e s' hs) inv_newTree hr
  refine ⟨fun b hb => hs.contiguous b (hs.rows b hb), fun branch hbranch => ⟨?_, ?_⟩⟩
  · intro b hb hne n hn hreach
    exact hs.keeps (mem_others.mpr ⟨hb, hne⟩) hn hreach
  intro n hn hreach hlast
  exact hs.leaves hbranch hn hreach hlast

def root : HistoryBranch := ⟨0, []⟩

def child : HistoryBranch := ⟨1, [⟨0, 1, 5⟩]⟩

def grandchild : HistoryBranch := ⟨3, [⟨0, 1, 5⟩, ⟨1, 5, 7⟩]⟩

/-- A branch with two forks, one of them within what it inherits; its parent is deleted. -/
def forked : List Event :=
  [.newHistoryBranch 0, .append root 1 (by decide) true, .append root 3 (by decide) false,
    .append root 5 (by decide) false, .fork root 5 (by decide) 1, .append child 5 (by decide) false,
    .append child 7 (by decide) false, .fork child 3 (by decide) 2, .fork child 7 (by decide) 3,
    .delete root]

theorem deletion_safe_forked : ∃ s, run step newTree forked = .ok s ∧
      s.tree.rows = [grandchild, ⟨2, [⟨0, 1, 3⟩]⟩, child] ∧
      (1, 5) ∈ (deleteHistoryBranch s.tree child).nodes ∧
      ∀ n ∈ (deleteHistoryBranch s.tree child).nodes, child.Reaches n → n.2 ≠ lastEventID →
        ∃ b ∈ (deleteHistoryBranch s.tree child).rows, b.Reaches n := by
  obtain ⟨s, hr, hrows, hchild, hnode⟩ : ∃ s, run step newTree forked = .ok s ∧
      s.tree.rows = [grandchild, ⟨2, [⟨0, 1, 3⟩]⟩, child] ∧ child ∈ s.branches ∧ (1, 5) ∈ s.tree.nodes := by
    decide +kernel
  obtain ⟨-, hdelete⟩ := deletion_safe hr
  obtain ⟨hkeep, hleave⟩ := hdelete child hchild
  refine ⟨s, hr, hrows, hkeep grandchild (by simp [hrows]) (by decide) (1, 5) hnode (by decide), hleave⟩

/-- A fork at the largest node ID, and a node with that ID in the branch that it was forked from. -/
def forkedAtEnd : List Event :=
  [.newHistoryBranch 0, .append root 1 (by decide) true, .fork root lastEventID (Int.le_refl _) 1,
    .append root lastEventID (Int.le_refl _) false]

/-- When the branch is deleted, that node stays, and no live branch reaches it. -/
theorem lastNode_stays : ∃ s, run step newTree forkedAtEnd = .ok s ∧ root ∈ s.branches ∧
      (0, lastEventID) ∈ (deleteHistoryBranch s.tree root).nodes ∧ root.Reaches (0, lastEventID) ∧
      ∀ b ∈ (deleteHistoryBranch s.tree root).rows, ¬ b.Reaches (0, lastEventID) := by
  decide +kernel

/-! ### The events of a branch -/

lemma Contiguous.covers {begin_ brs} (h : Contiguous begin_ brs) (b : Nat) (n : Int) :
    let Reaches id := id = b ∧ endOf begin_ brs ≤ n ∨ ∃ br ∈ brs, id = br.branchId ∧ br.beginNodeId ≤ n ∧ n < br.endNodeId
    begin_ ≤ n ∧ (∃! id, Reaches id) ∨ n < begin_ ∧ ∀ id, ¬ Reaches id := by
  induction brs generalizing begin_ with
  | nil => obtain h | h := le_or_gt begin_ n <;> simp [endOf, h]
  | cons br brs ih =>
    obtain ⟨rfl, hlt, hrest⟩ := h
    obtain ⟨hin, hrest⟩ | ⟨hin, hnone⟩ := ih hrest
    · exact .inl ⟨hlt.le.trans hin, by simpa [endOf, hin.not_gt] using hrest⟩
    simp only [not_or, forall_and] at hnone
    obtain h | h := le_or_gt br.beginNodeId n
    · simp [endOf, hnone, h, hin]
    · simp [endOf, hnone, h, h.not_ge, hin]

/-- In every run, each event of a branch is in the range of one of the branches that it is made of. -/
theorem branches_partition (es : List Event) : Yields (fun _ => True)
    (fun s => ∀ b ∈ s.branches, ∀ n ≥ 1, ∃! id, b.Reaches (id, n)) (run step newTree es) := by
  refine .any fun s hr b hb n hn => ?_
  have hs : Inv s := (Along.of_forall (fun _ _ _ => trivial) newTree).inv (fun s e s' hs _ => step_inv s e s' hs) inv_newTree hr
  obtain ⟨-, h⟩ | ⟨hlt, -⟩ := (hs.contiguous b hb).covers b.branchId n
  · simpa only [HistoryBranch.Reaches, getBeginNodeID_eq b.branchId b.ancestors] using h
  · exact absurd hn hlt.not_ge

end FastOrchestration.Persistence.HistoryTree
