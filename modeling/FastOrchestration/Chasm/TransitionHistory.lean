import FastOrchestration.Chasm.Staleness

/-!
# Updates of a transition history

Model of `UpdatedTransitionHistory` (`service/history/workflow/state_transition_history.go`) on slices
over shared arrays. Its comment says that it does not modify the history in place. It appends to the
argument, or to the argument without its last item, so it writes to the array of the argument whenever
that has room.
-/

namespace FastOrchestration.Chasm.TransitionHistory
open List Lib

/-- A Go `*VersionedTransition`: the address, and the item there, which is never written. -/
structure ItemPtr where
  address : Nat
  item : VersionedTransition

def items (A : Arrays ItemPtr) (s : Slice) : List VersionedTransition := (A.read s).map (·.item)

/-- Go `UpdatedTransitionHistory`; `fresh` is the address of the item it makes. -/
def updatedTransitionHistory (grow : Nat → Nat) (A : Arrays ItemPtr) (fresh : Nat) (history : Slice)
    (namespaceFailoverVersion : Int) : Arrays ItemPtr × Slice :=
  match (items A history).getLast? with
  -- a slice literal is an array of its own
  | none => A.append (fun _ => 1) ⟨A.next, 0, 0⟩ ⟨fresh, namespaceFailoverVersion, 1⟩
  | some last =>
    let history := if last.namespaceFailoverVersion = namespaceFailoverVersion then
      { history with len := history.len - 1 } else history
    A.append grow history ⟨fresh, namespaceFailoverVersion, last.transitionCount + 1⟩

/-- The transitions that a history stands for, after `made` others. -/
def transitions (made : Nat) : List VersionedTransition → List VersionedTransition
  | [] => []
  | item :: rest =>
    (range' (made + 1) (item.transitionCount - made)).map (⟨item.namespaceFailoverVersion, ·⟩) ++
      transitions item.transitionCount rest

def lastTransitionCount (history : List VersionedTransition) : Nat :=
  history.getLast?.elim 0 (·.transitionCount)

/-- What an update of the history `s` to `B` and `t` is for. -/
structure Updated (A : Arrays ItemPtr) (s : Slice) (version : Int) (B : Arrays ItemPtr) (t : Slice) :
    Prop where
  increasing : Increasing (items B t)
  made : transitions 0 (items B t) = transitions 0 (items A s) ++ [⟨version, lastTransitionCount (items A s) + 1⟩]
  /-- Every slice of an array that existed reads some of these cells. -/
  cells : ∀ array < A.next, B.cell array = A.cell array
  staleness : ∀ q : Slice, q.array < A.next → ∀ ref, stalenessCheck (items B q) ref = stalenessCheck (items A q) ref

variable {before : List VersionedTransition} {last : VersionedTransition} {version : Int}

lemma transitions_concat (made : Nat) (hwf : Increasing (before ++ [last]))
    (hmade : ∀ item ∈ before ++ [last], made ≤ item.transitionCount) (version : Int) :
    transitions made (before ++ [⟨last.1, last.2 + 1⟩]) =
      transitions made (before ++ [last]) ++ [⟨last.1, last.2 + 1⟩] ∧
    transitions made (before ++ [last] ++ [⟨version, last.2 + 1⟩]) =
      transitions made (before ++ [last]) ++ [⟨version, last.2 + 1⟩] := by
  induction before generalizing made with
  | nil =>
    obtain ⟨more, hmore⟩ := Nat.exists_eq_add_of_le (hmade last (by simp))
    have hrange : made + more + 1 - made = more + 1 := by omega
    simp [transitions, hmore, hrange, range'_concat, Nat.add_right_comm]
  | cons item before ih =>
    obtain ⟨hitem, hwf⟩ := pairwise_cons.mp hwf
    obtain ⟨hsame, hnew⟩ := ih item.2 hwf fun e he => (hitem e he).2.le
    simp only [cons_append, transitions, append_assoc] at hsame hnew ⊢
    exact ⟨by rw [hsame], by rw [hnew]⟩

lemma increasing_concat {history : List VersionedTransition} {item : VersionedTransition} :
    Increasing (history ++ [item]) ↔ Increasing history ∧ ∀ e ∈ history, e.1 < item.1 ∧ e.2 < item.2 := by
  simp [Increasing, pairwise_append]

variable {A : Arrays ItemPtr} {history : Slice} {grow : Nat → Nat} {fresh : Nat}

lemma items_dropLast (A : Arrays ItemPtr) (s : Slice) : items A { s with len := s.len - 1 } = (items A s).dropLast := by
  obtain ⟨array, _ | len, cap⟩ := s
  · rfl
  · simp [items, Arrays.read, range_succ]

lemma append_cells {s : Slice} {x : ItemPtr} (hs : s.len < s.cap → s.array < A.next)
    (hx : ∀ array index, A.cell array index ≠ x) :
    (∀ array < A.next, (A.append grow s x).1.cell array = A.cell array) ↔ ¬ s.len < s.cap := by
  unfold Arrays.append
  split
  · rename_i hroom
    refine iff_of_false (fun h => hx s.array s.len ?_) (not_not.mpr hroom)
    rw [← h _ (hs hroom)]
    simp [Arrays.write]
  · refine iff_of_true (fun array harray => ?_) ‹_›
    simp [Arrays.write, Arrays.copy, harray.ne]

lemma updated_append_iff {s : Slice} {item : VersionedTransition} (hs : s.len < s.cap → s.array < A.next)
    (hfresh : ∀ array index, (A.cell array index).address ≠ fresh)
    (hwf : Increasing (items A s ++ [item]))
    (hmade : transitions 0 (items A s ++ [item]) =
      transitions 0 (items A history) ++ [⟨version, lastTransitionCount (items A history) + 1⟩]) :
    Updated A history version (A.append grow s ⟨fresh, item⟩).1 (A.append grow s ⟨fresh, item⟩).2 ↔
      ¬ s.len < s.cap := by
  have hx : ∀ array index, A.cell array index ≠ ⟨fresh, item⟩ :=
    fun array index h => hfresh array index (congrArg (·.address) h)
  have hitems : items (A.append grow s ⟨fresh, item⟩).1 (A.append grow s ⟨fresh, item⟩).2 = items A s ++ [item] := by
    simp [items, A.append_reads]
  rw [← append_cells hs hx]
  rw [← hitems] at hwf hmade
  refine ⟨Updated.cells, fun hcells => ⟨hwf, hmade, hcells, fun q hq ref => ?_⟩⟩
  rw [items, items, Arrays.read, Arrays.read, hcells _ hq]

/-- An update is right and leaves what existed alone exactly if the history is empty, or has no room and
ends with another version. -/
theorem updatedTransitionHistory_pure_iff (harray : history.array < A.next)
    (hcap : history.len ≤ history.cap) (hfresh : ∀ array index, (A.cell array index).address ≠ fresh)
    (hwf : Increasing (items A history))
    (hversion : ∀ last ∈ (items A history).getLast?, last.namespaceFailoverVersion ≤ version) :
    Updated A history version (updatedTransitionHistory grow A fresh history version).1
      (updatedTransitionHistory grow A fresh history version).2 ↔
    history.len = 0 ∨ history.len = history.cap ∧
      ∀ last ∈ (items A history).getLast?, last.namespaceFailoverVersion ≠ version := by
  have hlen : (items A history).length = history.len := by simp [items, Arrays.read]
  unfold updatedTransitionHistory
  cases hlast : (items A history).getLast? with
  | none =>
    have hempty := getLast?_eq_none_iff.mp hlast
    have hliteral : items A ⟨A.next, 0, 0⟩ = [] := rfl
    dsimp only
    rw [updated_append_iff (by simp) hfresh]
    · simp [← hlen, hempty]
    · simp [hliteral, Increasing]
    · simp [hliteral, hempty, transitions, lastTransitionCount]
  | some last =>
    obtain ⟨before, hbefore⟩ := getLast?_eq_some_iff.mp hlast
    have hcount : lastTransitionCount (items A history) = last.2 := by simp [lastTransitionCount, hlast]
    have hpos : history.len ≠ 0 := by simp [← hlen, hbefore]
    have hle := hversion last hlast
    have hinit := items_dropLast A history
    rw [hbefore, dropLast_concat] at hinit
    have hwf' := hbefore ▸ hwf
    obtain ⟨hsame, hnew⟩ := transitions_concat 0 hwf' (by simp) version
    obtain ⟨hincr, habove⟩ := increasing_concat.mp hwf'
    by_cases hv : last.namespaceFailoverVersion = version
    · subst hv
      simp only [if_pos]
      rw [updated_append_iff (fun _ => by exact harray) hfresh]
      · simp [hpos]
        omega
      · rw [hinit, increasing_concat]
        exact ⟨hincr, fun e he => ⟨(habove e he).1, Nat.lt_succ_of_lt (habove e he).2⟩⟩
      · rw [hinit, hcount, hbefore, hsame]
    simp only [if_neg hv]
    rw [updated_append_iff (fun _ => harray) hfresh]
    · simp [hpos, hv]
      omega
    · refine increasing_concat.mpr ⟨hwf, fun e he => ?_⟩
      rw [hbefore, mem_append, mem_singleton] at he
      simp only
      obtain he | rfl := he
      · have := habove e he
        omega
      · omega
    · rw [hcount, hbefore, hnew]

/-- The history `[⟨1, 3⟩]`, with the given capacity. -/
def oneVersion (cap : Nat) : Arrays ItemPtr × Slice := (⟨1, fun _ _ => ⟨0, 1, 3⟩⟩, ⟨0, 1, cap⟩)

theorem updatedTransitionHistory_pure_iff_full : Updated (oneVersion 1).1 (oneVersion 1).2 2
      (updatedTransitionHistory (2 * ·) (oneVersion 1).1 1 (oneVersion 1).2 2).1
      (updatedTransitionHistory (2 * ·) (oneVersion 1).1 1 (oneVersion 1).2 2).2 :=
  (updatedTransitionHistory_pure_iff (by decide) (by decide) (fun _ _ => Nat.zero_ne_one)
    (by simp [oneVersion, items, Arrays.read, Increasing])
    (by simp [oneVersion, items, Arrays.read])).mpr (.inr ⟨rfl, by simp [oneVersion, items, Arrays.read]⟩)

/-- Without a new version the kept history changes, and accepts a reference that it did not. -/
theorem keptHistory_overwritten :
    let new := (updatedTransitionHistory (2 * ·) (oneVersion 1).1 1 (oneVersion 1).2 1).1
    Increasing (items (oneVersion 1).1 (oneVersion 1).2) ∧
    items (oneVersion 1).1 (oneVersion 1).2 = [⟨1, 3⟩] ∧ items new (oneVersion 1).2 = [⟨1, 4⟩] ∧
    stalenessCheck (items (oneVersion 1).1 (oneVersion 1).2) ⟨1, 4⟩ ≠ .ok () ∧
    stalenessCheck (items new (oneVersion 1).2) ⟨1, 4⟩ = .ok () := by
  refine ⟨by simp [oneVersion, items, Arrays.read, Increasing], rfl, rfl, fun h => ?_, rfl⟩
  cases h

end FastOrchestration.Chasm.TransitionHistory
