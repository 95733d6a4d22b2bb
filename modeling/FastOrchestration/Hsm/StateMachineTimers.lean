import FastOrchestration.Hsm.Tree

/-!
# Timers of state machines

Model of `service/history/workflow/state_machine_timers.go`. A machine has at most one task of a type, and
one that is tracked again should take the place of the one before. `TrackStateMachineTimer` looks for it in
the group of the new deadline only (`track_twice`); `timers_tracked` is about runs in which it is not in
another group.
-/

namespace FastOrchestration.Hsm

open Lib List

/-- Go `transitionhistory.Compare`. -/
def VersionedTransition.compare : VersionedTransition → VersionedTransition → Ordering :=
  compareLex (compareOn (·.namespaceFailoverVersion)) (compareOn (·.transitionCount))

variable {δ ω ρ : Type}

/-- Go `Child`. The nodes it brings into memory are those it finds again. -/
def Tree.child (t : Tree δ ω) (n : Node) : Path → Except Failure Node
  | [] => .ok n
  | key :: rest => do
    let (c, t) ← t.childNode n key
    t.child c rest

namespace Timers

/-- Go `StateMachineTaskInfo`; `rest` is what is not compared. -/
structure TaskInfo (ρ : Type) where
  path : Path
  type : String
  rest : ρ

def TaskInfo.key (info : TaskInfo ρ) : Path × String := (info.path, info.type)

structure TimerGroup (ρ : Type) where
  infos : List (TaskInfo ρ)
  deadline : Int
  scheduled : Bool

def tasks (timers : List (TimerGroup ρ)) : List (TaskInfo ρ) := timers.flatMap (·.infos)

def override (info : TaskInfo ρ) : List (TaskInfo ρ) → List (TaskInfo ρ)
  | [] => [info]
  | i :: infos => if i.key = info.key then info :: infos else i :: override info infos

/-- Go `TrackStateMachineTimer`: the binary search finds the first group that is not earlier. -/
def trackStateMachineTimer (deadline : Int) (info : TaskInfo ρ) : List (TimerGroup ρ) → List (TimerGroup ρ)
  | [] => [⟨[info], deadline, false⟩]
  | g :: timers =>
    if g.deadline < deadline then g :: trackStateMachineTimer deadline info timers
    else if g.deadline = deadline then { g with infos := override info g.infos } :: timers
    else ⟨[info], deadline, false⟩ :: g :: timers

section

variable (t : Tree δ ω) (min : VersionedTransition)

/-- The machine is there, and was not updated since. -/
def isOld (info : TaskInfo ρ) : Except Failure Bool :=
  match t.child .root info.path with
  | .error .notFound => .ok false
  | .error e => .error e
  | .ok node => .ok ((t.persistence node).lastUpdateVersionedTransition.compare min = .lt)

def trimInfos : List (TaskInfo ρ) → Except Failure (List (TaskInfo ρ))
  | [] => .ok []
  | info :: infos => do
    let keep ← isOld t min info
    let kept ← trimInfos infos
    .ok (if keep then info :: kept else kept)

def trimGroups : List (TimerGroup ρ) → Except Failure (List (TimerGroup ρ))
  | [] => .ok []
  | g :: timers => do
    let infos ← trimInfos t min g.infos
    let kept ← trimGroups timers
    .ok (if infos ≠ [] ∨ g.scheduled then { g with infos } :: kept else kept)

def trimStateMachineTimers (timers : List (TimerGroup ρ)) : Except Failure (List (TimerGroup ρ)) :=
  if min.compare ⟨0, 0⟩ = .eq then .ok [] else trimGroups t min timers

end

/-- `added` has the deadlines of the physical tasks, and `tracked` the tracked tasks, the last one first. -/
structure State (ρ : Type) where
  timers : List (TimerGroup ρ) := []
  added : List Int := []
  tracked : List (TaskInfo ρ) := []

def addNextStateMachineTimerTask (s : State ρ) : State ρ :=
  match s.timers.filter (·.infos ≠ []) with
  | [] => { s with timers := [] }
  | g :: timers =>
    if g.scheduled then { s with timers := g :: timers }
    else { s with timers := { g with scheduled := true } :: timers, added := s.added ++ [g.deadline] }

inductive Event (δ ω ρ : Type) where
  | track (deadline : Int) (info : TaskInfo ρ)
  | trim (t : Tree δ ω) (min : VersionedTransition)
  | addNext

def step (s : State ρ) : Event δ ω ρ → Except Empty (State ρ)
  | .track deadline info =>
    .ok { s with timers := trackStateMachineTimer deadline info s.timers, tracked := info :: s.tracked }
  | .trim t min =>
    match trimStateMachineTimers t min s.timers with
    | .ok timers => .ok { s with timers }
    | .error _ => .ok s
  | .addNext => .ok (addNextStateMachineTimerTask s)

def Ordered (timers : List (TimerGroup ρ)) : Prop := timers.Pairwise (·.deadline < ·.deadline)

/-- What the timers are for: the tasks are those tracked last, one for each machine and type. -/
structure Good (s : State ρ) : Prop where
  ordered : Ordered s.timers
  unique : ((tasks s.timers).map (·.key)).Nodup
  last : ∀ info ∈ tasks s.timers, s.tracked.find? (·.key = info.key) = some info
  scheduled : ∀ g ∈ s.timers, g.scheduled → g.deadline ∈ s.added

/-- No group of another deadline has such a task. -/
def Unmoved (deadline : Int) (info : TaskInfo ρ) (timers : List (TimerGroup ρ)) : Prop :=
  ∀ g ∈ timers, g.deadline ≠ deadline → ∀ i ∈ g.infos, i.key ≠ info.key

def Fresh (s : State ρ) : Event δ ω ρ → Prop
  | .track deadline info => Unmoved deadline info s.timers
  | _ => True

variable {deadline : Int} {info : TaskInfo ρ} {infos : List (TaskInfo ρ)} {timers kept : List (TimerGroup ρ)}

lemma filter_key (h : ∀ i ∈ infos, i.key ≠ info.key) : infos.filter (·.key ≠ info.key) = infos :=
  filter_eq_self.mpr (by simpa using h)

lemma override_perm (h : (infos.map (·.key)).Nodup) :
    override info infos ~ info :: infos.filter (·.key ≠ info.key) := by
  induction infos with
  | nil => rfl
  | cons i infos ih =>
    obtain ⟨hi, h⟩ := nodup_cons.mp h
    rw [override]
    split
    · next heq =>
      rw [filter_cons_of_neg (by simpa), filter_key fun j hj hkey => hi (mem_map.mpr ⟨j, hj, hkey.trans heq.symm⟩)]
    · next hne =>
      rw [filter_cons_of_pos (by simpa)]
      exact ((ih h).cons i).trans (.swap ..)

lemma track_perm (hord : Ordered timers) (huniq : ((tasks timers).map (·.key)).Nodup)
    (hfresh : Unmoved deadline info timers) :
    tasks (trackStateMachineTimer deadline info timers) ~ info :: (tasks timers).filter (·.key ≠ info.key) := by
  induction timers with
  | nil => rfl
  | cons g timers ih =>
    obtain ⟨hg, hord⟩ := pairwise_cons.mp hord
    have hcons : tasks (g :: timers) = g.infos ++ tasks timers := rfl
    obtain ⟨hinfos, htasks, -⟩ := nodup_append.mp (by simpa only [hcons, map_append] using huniq)
    -- a deadline up to that of the first group is not one of the other groups
    have hother (hle : deadline ≤ g.deadline) : (tasks timers).filter (·.key ≠ info.key) = tasks timers := by
      refine filter_key fun i hi => ?_
      obtain ⟨g', hg', hi⟩ := mem_flatMap.mp hi
      have := hg g' hg'
      exact hfresh g' (mem_cons_of_mem _ hg') (by omega) i hi
    rw [hcons, filter_append, trackStateMachineTimer]
    split
    · next hlt =>
      rw [filter_key (hfresh g mem_cons_self (by omega))]
      have ih := ih hord htasks fun g' hg' => hfresh g' (mem_cons_of_mem _ hg')
      exact (ih.append_left g.infos).trans perm_middle
    split
    · rw [hother (by omega)]
      exact (override_perm hinfos).append_right _
    · rw [hother (by omega), filter_key (hfresh g mem_cons_self ‹_›)]
      rfl

lemma mem_track {g} (h : g ∈ trackStateMachineTimer deadline info timers) :
    g.deadline = deadline ∧ ¬ g.scheduled ∨
      ∃ g' ∈ timers, g'.deadline = g.deadline ∧ g'.scheduled = g.scheduled := by
  induction timers with
  | nil =>
    cases mem_singleton.mp h
    simp
  | cons g' timers ih =>
    rw [trackStateMachineTimer] at h
    split at h
    · obtain rfl | h := mem_cons.mp h
      · exact .inr ⟨g, mem_cons_self, rfl, rfl⟩
      · exact (ih h).imp_right fun ⟨g', hg', h⟩ => ⟨g', mem_cons_of_mem _ hg', h⟩
    split at h
    all_goals obtain rfl | h := mem_cons.mp h
    · exact .inr ⟨g', mem_cons_self, rfl, rfl⟩
    · exact .inr ⟨g, mem_cons_of_mem _ h, rfl, rfl⟩
    · simp
    · exact .inr ⟨g, h, rfl, rfl⟩

lemma track_ordered (h : Ordered timers) : Ordered (trackStateMachineTimer deadline info timers) := by
  induction timers with
  | nil => exact pairwise_singleton ..
  | cons g timers ih =>
    have hcons := pairwise_cons.mp h
    rw [trackStateMachineTimer]
    split
    · next hlt =>
      refine pairwise_cons.mpr ⟨fun g' hg' => ?_, ih hcons.2⟩
      obtain ⟨heq, -⟩ | ⟨g'', hg'', heq, -⟩ := mem_track hg'
      · omega
      · exact heq ▸ hcons.1 g'' hg''
    split
    · exact pairwise_cons.mpr hcons
    · have hlt : deadline < g.deadline := by omega
      exact pairwise_cons.mpr ⟨forall_mem_cons.mpr ⟨hlt, fun g' hg' => Int.lt_trans hlt (hcons.1 g' hg')⟩, h⟩

def TimerGroup.clear (g : TimerGroup ρ) : TimerGroup ρ := { g with infos := [] }

structure Shrinks (timers kept : List (TimerGroup ρ)) : Prop where
  groups : kept.map TimerGroup.clear <+ timers.map TimerGroup.clear
  tasks : tasks kept <+ tasks timers

variable {s : State ρ}

lemma Good.shrink (h : Good s) (hs : Shrinks s.timers kept) : Good { s with timers := kept } where
  ordered := by
    have hkept : Ordered (kept.map TimerGroup.clear) := Pairwise.sublist hs.groups (pairwise_map.mpr h.ordered)
    simpa only [Ordered, pairwise_map, TimerGroup.clear] using hkept
  unique := h.unique.sublist (hs.tasks.map _)
  last info hi := h.last info (hs.tasks.subset hi)
  scheduled g hg := by
    obtain ⟨g', hg', heq⟩ := mem_map.mp (hs.groups.subset (mem_map_of_mem hg))
    obtain ⟨-, hd, hs⟩ := TimerGroup.mk.inj heq
    exact hd ▸ hs ▸ h.scheduled g' hg'

lemma trimInfos_sublist {t : Tree δ ω} {min kept} (h : trimInfos t min infos = .ok kept) : kept <+ infos := by
  induction infos generalizing kept with
  | nil =>
    cases h
    rfl
  | cons info infos ih =>
    obtain ⟨keep, -, h⟩ := bind_ok h
    obtain ⟨kept, hkept, h⟩ := bind_ok h
    cases h
    split
    · exact (ih hkept).cons_cons info
    · exact (ih hkept).cons info

lemma trimGroups_shrinks {t : Tree δ ω} {min} (h : trimGroups t min timers = .ok kept) : Shrinks timers kept := by
  induction timers generalizing kept with
  | nil =>
    cases h
    exact ⟨.refl _, .refl _⟩
  | cons g timers ih =>
    obtain ⟨infos, hinfos, h⟩ := bind_ok h
    obtain ⟨kept, hkept, h⟩ := bind_ok h
    cases h
    obtain ⟨hgroups, htasks⟩ := ih hkept
    split
    · exact ⟨hgroups.cons_cons _, (trimInfos_sublist hinfos).append htasks⟩
    · exact ⟨hgroups.cons _, htasks.trans (sublist_append_right ..)⟩

lemma Good.trim (h : Good s) {t : Tree δ ω} {min}
    (ht : trimStateMachineTimers t min s.timers = .ok kept) : Good { s with timers := kept } := by
  unfold trimStateMachineTimers at ht
  split at ht
  · cases ht
    exact h.shrink ⟨nil_sublist _, nil_sublist _⟩
  · exact h.shrink (trimGroups_shrinks ht)

lemma Good.track (h : Good s) (hfresh : Unmoved deadline info s.timers) :
    Good { s with timers := trackStateMachineTimer deadline info s.timers, tracked := info :: s.tracked } := by
  have hperm := track_perm h.ordered h.unique hfresh
  refine ⟨track_ordered h.ordered, (hperm.map _).nodup_iff.mpr ?_, fun i hi => ?_, fun g hg => ?_⟩
  · exact nodup_cons.mpr ⟨by simp, h.unique.sublist (filter_sublist.map _)⟩
  · obtain rfl | hi := mem_cons.mp (hperm.subset hi)
    · simp
    · obtain ⟨hi, hne⟩ := mem_filter.mp hi
      rw [find?_cons_of_neg (by simpa using Ne.symm (of_decide_eq_true hne))]
      exact h.last i hi
  · obtain ⟨-, hnot⟩ | ⟨g', hg', hd, hs⟩ := mem_track hg
    · exact fun hs => absurd hs hnot
    · exact hd ▸ hs ▸ h.scheduled g' hg'

lemma Good.addNext (h : Good s) :
    Good (addNextStateMachineTimerTask s) ∧ ∀ g ∈ (addNextStateMachineTimerTask s).timers.head?,
      g.infos ≠ [] ∧ g.deadline ∈ (addNextStateMachineTimerTask s).added := by
  have hgood : Good { s with timers := s.timers.filter (·.infos ≠ []) } :=
    h.shrink ⟨filter_sublist.map _, filter_sublist.flatMap _⟩
  unfold addNextStateMachineTimerTask
  split
  · next hnil => exact ⟨hnil ▸ hgood, by simp⟩
  next g timers hcons =>
  have hmem : g ∈ s.timers.filter (·.infos ≠ []) := hcons ▸ mem_cons_self
  have hne : g.infos ≠ [] := by simpa using (mem_filter.mp hmem).2
  rw [hcons] at hgood
  split
  · next hs => exact ⟨hgood, by simpa using ⟨hne, hgood.scheduled g mem_cons_self hs⟩⟩
  refine ⟨⟨pairwise_cons.mpr (pairwise_cons.mp hgood.ordered), hgood.unique, hgood.last, ?_⟩, by simpa using hne⟩
  refine forall_mem_cons.mpr ⟨by simp, fun g' hg' hs => ?_⟩
  exact mem_append_left _ (hgood.scheduled g' (mem_cons_of_mem _ hg') hs)

theorem timers_tracked {es : List (Event δ ω ρ)} (al : Along Fresh step {} es) (hr : run step {} es = .ok s) :
    Good s ∧ ∀ g ∈ (addNextStateMachineTimerTask s).timers.head?,
      g.infos ≠ [] ∧ g.deadline ∈ (addNextStateMachineTimerTask s).added := by
  suffices h : Good s from ⟨h, h.addNext.2⟩
  refine al.inv (fun s e s' h hfresh hs => ?_) ⟨.nil, .nil, by simp [tasks], by simp⟩ hr
  cases e with
  | track deadline info =>
    cases hs
    exact h.track hfresh
  | trim t min =>
    rw [step] at hs
    split at hs
    all_goals cases hs
    · exact h.trim ‹_›
    · exact h
  | addNext =>
    cases hs
    exact h.addNext.1

theorem timers_tracked_again : ∃ (es : List (Event Unit Unit Nat)) (s : State Nat),
    run step {} es = .ok s ∧ Good s ∧ tasks s.timers = [⟨[], "a", 2⟩, ⟨[], "", 3⟩] := by
  have hr : run (@step Unit Unit Nat) {}
    [.track 2 ⟨[], "", 1⟩, .track 1 ⟨[], "a", 2⟩, .addNext, .track 2 ⟨[], "", 3⟩] = .ok _ := rfl
  refine ⟨_, _, hr, (timers_tracked ?_ hr).1, rfl⟩
  simp [Along, step, Fresh, Unmoved, trackStateMachineTimer, addNextStateMachineTimerTask, TaskInfo.key]

/-- A task tracked again with a later deadline is in two groups. -/
theorem track_twice : ∃ s, run (@step Unit Unit Nat) {} [.track 1 ⟨[], "", 1⟩, .track 2 ⟨[], "", 2⟩] = .ok s ∧
    ¬ Good s :=
  ⟨_, rfl, fun h => absurd h.unique (by decide)⟩

end Timers

end FastOrchestration.Hsm
