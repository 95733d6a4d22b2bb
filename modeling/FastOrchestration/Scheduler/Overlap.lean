import FastOrchestration.Scheduler.Spec

/-!
# Overlap policies

Model of `ProcessBuffer` in `service/worker/scheduler/buffer.go`, which decides for the starts of a buffer
whether they are started, wait or are dropped. `Resolved` accounts for every start of a buffer, and
`processBuffer_resolved` says that this is what `ProcessBuffer` does.

`Handled` lists what it can do with one start. `Settled` is the invariant of the loop: it names the starts
that were skipped and those that were replaced, which the code only counts or forgets.
-/

namespace FastOrchestration.Scheduler.Overlap

open List Option

structure ProcessBufferResult (T : Type) where
  overlappingStarts : List T := []
  nonOverlappingStart : Option T := none
  newBuffer : List T := []
  needCancel : Bool := false
  needTerminate : Bool := false
  overlapSkipped : Nat := 0

variable {T : Type} (policy : T → OverlapPolicy) (isRunning : Bool)

def applyPolicy (a : ProcessBufferResult T) (start : T) : ProcessBufferResult T :=
  match policy start with
  | .skip => { a with overlapSkipped := a.overlapSkipped + 1 }
  | .bufferOne =>
    if a.newBuffer.length = 0 then { a with newBuffer := a.newBuffer ++ [start] }
    else { a with overlapSkipped := a.overlapSkipped + 1 }
  | .bufferAll => { a with newBuffer := a.newBuffer ++ [start] }
  | .cancelOther =>
    if isRunning then { a with needCancel := true, newBuffer := a.newBuffer ++ [start] }
    else { a with nonOverlappingStart := some start }
  | .terminateOther =>
    if isRunning then { a with needTerminate := true, newBuffer := a.newBuffer ++ [start] }
    else { a with nonOverlappingStart := some start }
  | .allowAll => a
  | .unspecified => a

/-- One iteration of the loop; `policy` is the resolved policy of a start. -/
def processStart (a : ProcessBufferResult T) (start : T) : ProcessBufferResult T :=
  if policy start = .allowAll then { a with overlappingStarts := a.overlappingStarts ++ [start] }
  else if !isRunning && a.nonOverlappingStart.isNone then { a with nonOverlappingStart := some start }
  else applyPolicy policy isRunning a start

/-- What is done about allow-all starts if the running workflow is cancelled or terminated. -/
def finish (a : ProcessBufferResult T) : ProcessBufferResult T :=
  if a.needCancel || a.needTerminate then { a with overlappingStarts := [] } else a

def processBuffer (buffer : List T) : ProcessBufferResult T :=
  finish (buffer.foldl (processStart policy isRunning) {})

def Displaces (start : T) : Prop := policy start = .cancelOther ∨ policy start = .terminateOther

/-- What became of the starts of a buffer. -/
structure Resolved (buffer : List T) (a : ProcessBufferResult T) : Prop where
  /-- A start is in one of the three, and once. -/
  once : (a.overlappingStarts ++ a.nonOverlappingStart.toList ++ a.newBuffer).Nodup
  overlapping_order : a.overlappingStarts.Sublist buffer
  newBuffer_order : a.newBuffer.Sublist buffer
  not_running : isRunning → a.nonOverlappingStart = none
  /-- Nothing waits before a start that is the only one to be buffered. -/
  buffer_one : ∀ x ∈ a.newBuffer.tail, policy x ≠ .bufferOne
  /-- The rest was skipped, or replaced by a later start, or is an allow-all start that would be cancelled. -/
  account : ∃ skipped replaced dropped : List T,
    (a.overlappingStarts ++ a.nonOverlappingStart.toList ++ a.newBuffer ++ skipped ++ replaced ++ dropped).Perm buffer ∧
    skipped.length = a.overlapSkipped ∧
    (∀ x ∈ replaced, ∃ y, [x, y].Sublist buffer ∧ Displaces policy y) ∧
    ∀ x ∈ dropped, policy x = .allowAll ∧ isRunning ∧ (a.needCancel ∨ a.needTerminate)

/-! ### One start -/

inductive Handled (a : ProcessBufferResult T) (start : T) : ProcessBufferResult T → Prop
  | allow (h : policy start = .allowAll) :
    Handled a start { a with overlappingStarts := a.overlappingStarts ++ [start] }
  | select (h : policy start ≠ .allowAll) (hrun : isRunning = false) (hnone : a.nonOverlappingStart = none) :
    Handled a start { a with nonOverlappingStart := some start }
  | replace (old : T) (h : Displaces policy start) (hrun : isRunning = false)
    (hold : a.nonOverlappingStart = some old) : Handled a start { a with nonOverlappingStart := some start }
  | skip (h : policy start ≠ .allowAll) : Handled a start { a with overlapSkipped := a.overlapSkipped + 1 }
  | wait (cancel terminate : Bool) (h : policy start ≠ .allowAll) (hone : policy start = .bufferOne → a.newBuffer = [])
    (hflags : cancel ∨ terminate → isRunning ∨ a.needCancel ∨ a.needTerminate) :
    Handled a start { a with newBuffer := a.newBuffer ++ [start], needCancel := cancel, needTerminate := terminate }

variable {policy isRunning}

lemma processStart_handled {a start} (h : policy start ≠ .unspecified) :
    Handled policy isRunning a start (processStart policy isRunning a start) := by
  unfold processStart
  split
  · next hallow => exact .allow hallow
  next hallow =>
  split
  · next hfree =>
    simp only [Bool.and_eq_true, Bool.not_eq_true', isNone_iff_eq_none] at hfree
    exact .select hallow hfree.1 hfree.2
  next hfree =>
  have hold : isRunning = false → ∃ old, a.nonOverlappingStart = some old := by
    rintro rfl
    simpa [isNone_iff_eq_none, ne_none_iff_exists', ← ne_eq] using hfree
  unfold applyPolicy
  cases hp : policy start with
  | unspecified => exact absurd hp h
  | allowAll => exact absurd hp hallow
  | skip => exact .skip hallow
  | bufferOne =>
    dsimp only
    split
    · next hempty =>
      exact .wait a.needCancel a.needTerminate hallow (fun _ => length_eq_zero_iff.mp hempty) .inr
    · exact .skip hallow
  | bufferAll =>
    exact .wait a.needCancel a.needTerminate hallow (fun hone => by simp [hp] at hone) .inr
  | cancelOther =>
    dsimp only
    split
    · next hrun => exact .wait true a.needTerminate hallow (fun hone => by simp [hp] at hone) fun _ => .inl hrun
    next hrun =>
    obtain ⟨old, hold⟩ := hold (by simpa using hrun)
    exact .replace old (.inl hp) (by simpa using hrun) hold
  | terminateOther =>
    dsimp only
    split
    · next hrun => exact .wait a.needCancel true hallow (fun hone => by simp [hp] at hone) fun _ => .inl hrun
    next hrun =>
    obtain ⟨old, hold⟩ := hold (by simpa using hrun)
    exact .replace old (.inr hp) (by simpa using hrun) hold

/-! ### The loop -/

variable (policy isRunning)

/-- What became of the starts that were looked at, before the allow-all starts may be dropped. -/
structure Settled (done : List T) (a : ProcessBufferResult T) (skipped replaced : List T) : Prop where
  perm : (a.overlappingStarts ++ a.nonOverlappingStart.toList ++ a.newBuffer ++ skipped ++ replaced).Perm done
  overlapping : a.overlappingStarts.Sublist done
  allow : ∀ x ∈ a.overlappingStarts, policy x = .allowAll
  newBuffer : a.newBuffer.Sublist done
  count : skipped.length = a.overlapSkipped
  not_running : isRunning → a.nonOverlappingStart = none
  buffer_one : ∀ x ∈ a.newBuffer.tail, policy x ≠ .bufferOne
  flags : a.needCancel ∨ a.needTerminate → isRunning
  replaced : ∀ x ∈ replaced, ∃ y, [x, y].Sublist done ∧ Displaces policy y

variable {policy isRunning}

lemma perm_concat {l l' done : List T} {start} (h : l.Perm done)
    (hcount : ∀ [DecidableEq T], ∀ x, l'.count x = l.count x + [start].count x) : l'.Perm (done ++ [start]) := by
  classical
  rw [perm_iff_count] at h ⊢
  intro x
  rw [hcount x, h x, count_append]

lemma replaced_concat {done replaced : List T} (start : T)
    (h : ∀ x ∈ replaced, ∃ y, [x, y].Sublist done ∧ Displaces policy y) :
    ∀ x ∈ replaced, ∃ y, [x, y].Sublist (done ++ [start]) ∧ Displaces policy y := by
  intro x hx
  obtain ⟨y, hy, hd⟩ := h x hx
  exact ⟨y, hy.trans (sublist_append_left _ _), hd⟩

theorem Settled.step {done a a' skipped replaced start}
    (h : Settled policy isRunning done a skipped replaced) (hs : Handled policy isRunning a start a') :
    ∃ skipped' replaced', Settled policy isRunning (done ++ [start]) a' skipped' replaced' := by
  have hov : a.overlappingStarts.Sublist (done ++ [start]) := h.overlapping.trans (sublist_append_left _ _)
  have hnew : a.newBuffer.Sublist (done ++ [start]) := h.newBuffer.trans (sublist_append_left _ _)
  have hrep := replaced_concat start h.replaced
  cases hs with
  | allow hallow =>
    refine ⟨skipped, replaced, ⟨perm_concat h.perm fun x => ?_, h.overlapping.append_right _, ?_, hnew, h.count,
      h.not_running, h.buffer_one, h.flags, hrep⟩⟩
    · simp only [count_append]
      omega
    · simpa [or_imp, forall_and] using ⟨h.allow, hallow⟩
  | select hallow hrun hnone =>
    refine ⟨skipped, replaced, ⟨perm_concat h.perm fun x => ?_, hov, h.allow, hnew, h.count, by simp [hrun],
      h.buffer_one, h.flags, hrep⟩⟩
    simp only [hnone, count_append, toList_none, toList_some, count_nil]
    omega
  | replace old hdisplaces hrun hold =>
    have hmem : old ∈ done := h.perm.subset (by simp [hold])
    refine ⟨skipped, old :: replaced, ⟨perm_concat h.perm fun x => ?_, hov, h.allow, hnew, h.count, by simp [hrun],
      h.buffer_one, h.flags, ?_⟩⟩
    · simp only [hold, count_append, toList_some, count_cons, count_nil]
      omega
    refine forall_mem_cons.mpr ⟨⟨start, ?_, hdisplaces⟩, hrep⟩
    exact (singleton_sublist.mpr hmem).append (List.Sublist.refl [start])
  | skip hallow =>
    refine ⟨skipped ++ [start], replaced, ⟨perm_concat h.perm fun x => ?_, hov, h.allow, hnew, by simp [h.count],
      h.not_running, h.buffer_one, h.flags, hrep⟩⟩
    simp only [count_append]
    omega
  | wait cancel terminate hallow hone hflags =>
    refine ⟨skipped, replaced, ⟨perm_concat h.perm fun x => ?_, hov, h.allow, h.newBuffer.append_right _, h.count,
      h.not_running, ?_, ?_, hrep⟩⟩
    · simp only [count_append]
      omega
    · intro x hx
      cases hb : a.newBuffer with
      | nil => simp [hb] at hx
      | cons y ys =>
        simp only [hb, cons_append, tail_cons, mem_append, mem_singleton] at hx
        rcases hx with hx | rfl
        · exact h.buffer_one x (by simp [hb, hx])
        · exact fun hp => by simp [hone hp] at hb
    intro hset
    rcases hflags hset with hrun | hold
    · exact hrun
    · exact h.flags hold

theorem settled_foldl (buffer : List T) (h : ∀ x ∈ buffer, policy x ≠ .unspecified) : ∃ skipped replaced,
      Settled policy isRunning buffer (buffer.foldl (processStart policy isRunning) {}) skipped replaced := by
  induction buffer using List.reverseRecOn with
  | nil => exact ⟨[], [], by constructor <;> simp⟩
  | append_singleton done start ih =>
    obtain ⟨skipped, replaced, hs⟩ := ih fun x hx => h x (by simp [hx])
    rw [foldl_append]
    exact hs.step (processStart_handled (h start (by simp)))

/-- `ProcessBuffer` accounts for every start. -/
theorem processBuffer_resolved {buffer : List T} (hnodup : buffer.Nodup) (h : ∀ x ∈ buffer, policy x ≠ .unspecified) :
    Resolved policy isRunning buffer (processBuffer policy isRunning buffer) := by
  obtain ⟨skipped, replaced, hs⟩ := @settled_foldl T policy isRunning buffer h
  unfold processBuffer
  generalize buffer.foldl (processStart policy isRunning) {} = a at hs
  have hall := hs.perm.nodup_iff.mpr hnodup
  have hthree : (a.overlappingStarts ++ a.nonOverlappingStart.toList ++ a.newBuffer).Nodup :=
    hall.sublist (by simp [append_assoc])
  unfold finish
  split
  · next hflag =>
    have hflag' : a.needCancel ∨ a.needTerminate := by simpa using hflag
    refine ⟨hthree.sublist (by simp [append_assoc]), nil_sublist _, hs.newBuffer, hs.not_running,
      hs.buffer_one, skipped, replaced, a.overlappingStarts, ?_, hs.count, hs.replaced, ?_⟩
    · refine List.Perm.trans ?_ hs.perm
      classical
      rw [perm_iff_count]
      intro x
      simp only [count_append, count_nil]
      omega
    · exact fun x hx => ⟨hs.allow x hx, hs.flags hflag', hflag'⟩
  exact ⟨hthree, hs.overlapping, hs.newBuffer, hs.not_running, hs.buffer_one, skipped, replaced, [],
    by simpa using hs.perm, hs.count, hs.replaced, by simp⟩

end FastOrchestration.Scheduler.Overlap
