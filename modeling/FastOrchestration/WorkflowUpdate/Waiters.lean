import FastOrchestration.WorkflowUpdate.Update

/-!
# Waiters of an Update are resolved once

Callers wait on two futures of an Update: `accepted` and `outcome`. This file proves that no run of
the registry completes a future twice, and says when a terminal Update has both of them completed.

The callbacks that one transaction has buffered for an Update form a `Chain`: each was registered in
the state the one before it led to, starting from the settled state the transaction found. `Chain` is
what rolling back undoes one link at a time, and reading it from the front gives the few shapes a
commit can meet. `Consistent` ties the chain to the futures. `Follows` is the one fact about the
methods of an Update that the proofs use: a method leaves the futures alone and adds at most one link.

An abort that falls on an Update in `provisionallyCompleted` resolves `outcome` only, because that
state is not among `preAcceptedStates`. If nothing has resolved `accepted` by then, nothing ever will:
`Calm` excludes the two ways this happens, and `Consistent true` is what calm runs keep.
-/

namespace FastOrchestration.WorkflowUpdate
open Lib Update State Future

/-! ## Chains of buffered callbacks -/

/-- One buffered callback: the state it was registered in and the state its method led to. -/
inductive Link : State → Callback → State → Prop where
  | onAdmit : Link .created (.onAdmit .created) .provisionallyAdmitted
  | accept {st} : st ∈ [sent, .admitted] → Link st (.accept st) .provisionallyAccepted
  | reject {st f} : st ∈ [sent, .admitted] → Link st (.reject st f) .provisionallyCompleted
  | respond {st o} : st ∈ [provisionallyAccepted, .accepted] → Link st (.respond st o) .provisionallyCompleted
  | abort {st f e} : st ∉ [completed, .provisionallyAborted, .aborted] →
      Link st (.abort st f e) .provisionallyAborted

lemma Link.source_ne_aborted {st cb st'} (ln : Link st cb st') : st ≠ .aborted := by
  rintro rfl
  cases ln <;> simp_all

inductive Chain : State → List Callback → State → Prop where
  | nil {st} : Chain st [] st
  | cons {st st' st'' cb cbs} : Link st cb st' → Chain st' cbs st'' → Chain st (cb :: cbs) st''

lemma Chain.snoc {st st' st'' cbs cb} (ch : Chain st cbs st') (ln : Link st' cb st'') :
    Chain st (cbs ++ [cb]) st'' := by
  induction ch with
  | nil => exact .cons ln .nil
  | cons ln' _ ih => exact .cons ln' (ih ln)

variable {u : Update}

lemma Link.rollback {st cb} (ln : Link st cb u.state) :
    (cb.rollback u).state = st ∧ (cb.rollback u).accepted = u.accepted ∧ (cb.rollback u).outcome = u.outcome := by
  generalize hs : u.state = st' at ln
  cases ln <;> simp [Callback.rollback, hs, setState]

lemma Chain.rollback {st cbs} (ch : Chain st cbs u.state) : let u' := cbs.foldr Callback.rollback u
    u'.state = st ∧ u'.accepted = u.accepted ∧ u'.outcome = u.outcome := by
  generalize hs : u.state = st' at ch
  induction ch with
  | nil => exact ⟨hs, rfl, rfl⟩
  | cons ln _ ih =>
    obtain ⟨hst, hacc, hout⟩ := ih hs
    rw [← hst] at ln
    obtain ⟨hst', hacc', hout'⟩ := ln.rollback
    exact ⟨hst', hacc'.trans hacc, hout'.trans hout⟩

/-! ## Methods add at most one link -/

/-- A transition leaves the futures alone and registers a callback only for a link. -/
def Follows (u : Update) (t : Transition) : Prop :=
  t.upd.accepted = u.accepted ∧ t.upd.outcome = u.outcome ∧ match t.callback with
    | none => t.upd.state = u.state
    | some cb => Link u.state cb t.upd.state

lemma AbortReason.abortable {reason : AbortReason} {st} (h : reason.failureError st ≠ (none, none)) :
    st ∉ [completed, .provisionallyAborted, .aborted] := by
  cases reason <;> cases st <;> simp_all [AbortReason.failureError]

lemma Update.checkStateSet_isSome {msg allowed} : (u.checkStateSet msg allowed).isSome ↔ u.state ∉ allowed := by
  unfold Update.checkStateSet
  split <;> simp_all

lemma Follows.reject (hst : u.state ∈ [sent, .admitted]) (f : Option Failure) : Follows u (u.reject f) :=
  ⟨rfl, rfl, .reject hst⟩

section

variable (u)

lemma Follows.answer (err : Option ServiceError) : Follows u (u.answer err) :=
  ⟨rfl, rfl, rfl⟩

lemma Follows.abort (reason : AbortReason) : Follows u (u.abort reason) := by
  unfold Update.abort
  split
  · exact .answer u none
  rename_i f e hne heq
  have hab : reason.failureError u.state ≠ (none, none) := by
    rw [heq]
    simpa using hne
  exact ⟨rfl, rfl, .abort (AbortReason.abortable hab)⟩

lemma Follows.onAdmit (req : Option Request) (store : EventStore)
    (limitErr marshalErr : Option ServiceError) : Follows u (u.onAdmit req store limitErr marshalErr) := by
  unfold Update.onAdmit
  split
  · exact .answer u none
  rename_i hst
  have hst : u.state = .created := by simpa using hst
  split
  · exact ⟨rfl, rfl, rfl⟩
  split
  · exact .answer u _
  split
  · exact Follows.abort u .workflowCompleted
  split
  · exact .answer u _
  · exact ⟨rfl, rfl, by rw [hst]; exact .onAdmit⟩

lemma Follows.onAcceptanceMsg (acpt : Acceptance) (store : EventStore) :
    Follows u (u.onAcceptanceMsg acpt store) := by
  simp only [Update.onAcceptanceMsg, Update.checkStateSet_isSome]
  split
  · exact .answer u _
  rename_i hst
  split
  · exact .answer u _
  split
  · exact .answer u _
  · exact ⟨rfl, rfl, .accept (not_not.mp hst)⟩

lemma Follows.onRejectionMsg (rej : Rejection) : Follows u (u.onRejectionMsg rej) := by
  simp only [Update.onRejectionMsg, Update.checkStateSet_isSome]
  split
  · exact .answer u _
  rename_i hst
  exact .reject (not_not.mp hst) _

lemma Follows.onResponseMsg (res : Response) (store : EventStore) :
    Follows u (u.onResponseMsg res store) := by
  simp only [Update.onResponseMsg, Update.checkStateSet_isSome]
  split
  · exact .answer u _
  rename_i hst
  split
  · exact .answer u _
  split
  · exact .answer u _
  · exact ⟨rfl, rfl, .respond (not_not.mp hst)⟩

lemma Follows.onProtocolMessage (msg : Option Message) (store : EventStore) :
    Follows u (u.onProtocolMessage msg store) := by
  unfold Update.onProtocolMessage
  split
  · exact .answer u _
  · exact .answer u _
  · exact .answer u _
  split
  · exact .abort u _
  split
  · exact .onAcceptanceMsg u _ store
  · exact .onRejectionMsg u _
  · exact .onResponseMsg u _ store
  · exact .answer u _

lemma Follows.abortIfAccepted (reason : AbortReason) (u : Update) : Follows u (Registry.abortIfAccepted reason u) := by
  unfold Registry.abortIfAccepted
  split
  · exact .abort u reason
  · exact .answer u none

lemma Follows.rejectIfSent : Follows u (Registry.rejectIfSent u) := by
  unfold Registry.rejectIfSent
  split
  · rename_i hst
    have hst : u.state = .sent := by simpa [isSent] using hst
    exact .reject (by simp [hst]) _
  · exact .answer u none

end

/-! ## The shapes of a transaction -/

/-- Whether the accepted and the outcome future are completed in a state between transactions; a
provisional state is not such a state. -/
def settled : State → Option (Bool × Bool)
  | .created | .admitted | .sent => some (false, false)
  | .accepted => some (true, false)
  | .completed | .aborted => some (true, true)
  | _ => none

/-- The chains one transaction can build for an Update. -/
inductive Shape : State → List Callback → State → Prop where
  | idle {st} : Shape st [] st
  | admitting : Shape .created [.onAdmit .created] .provisionallyAdmitted
  | admittingAborted {f e} : Shape .created [.onAdmit .created, .abort .provisionallyAdmitted f e] .provisionallyAborted
  | aborting {st f e} : st ∈ [created, .admitted, .sent, .accepted] →
      Shape st [.abort st f e] .provisionallyAborted
  | accepting {st} : st ∈ [sent, .admitted] → Shape st [.accept st] .provisionallyAccepted
  | acceptingAborted {st f e} : st ∈ [sent, .admitted] →
      Shape st [.accept st, .abort .provisionallyAccepted f e] .provisionallyAborted
  | acceptingResponded {st o} : st ∈ [sent, .admitted] →
      Shape st [.accept st, .respond .provisionallyAccepted o] .provisionallyCompleted
  | acceptingRespondedAborted {st o f e} : st ∈ [sent, .admitted] →
      Shape st [.accept st, .respond .provisionallyAccepted o, .abort .provisionallyCompleted f e] .provisionallyAborted
  | rejecting {st f} : st ∈ [sent, .admitted] → Shape st [.reject st f] .provisionallyCompleted
  | rejectingAborted {st f f' e} : st ∈ [sent, .admitted] →
      Shape st [.reject st f, .abort .provisionallyCompleted f' e] .provisionallyAborted
  | responding {o} : Shape .accepted [.respond .accepted o] .provisionallyCompleted
  | respondingAborted {o f e} :
      Shape .accepted [.respond .accepted o, .abort .provisionallyCompleted f e] .provisionallyAborted

lemma Chain.of_provisionallyAborted {cbs st} (ch : Chain .provisionallyAborted cbs st) :
    cbs = [] ∧ st = .provisionallyAborted := by
  cases ch with
  | nil => exact ⟨rfl, rfl⟩
  | cons ln _ => cases ln <;> simp_all

lemma Chain.of_provisionallyCompleted {cbs st} (ch : Chain .provisionallyCompleted cbs st) :
    cbs = [] ∧ st = .provisionallyCompleted ∨
      ∃ f e, cbs = [.abort .provisionallyCompleted f e] ∧ st = .provisionallyAborted := by
  cases ch with
  | nil => exact .inl ⟨rfl, rfl⟩
  | cons ln ch =>
    cases ln with
    | abort _ =>
      obtain ⟨rfl, rfl⟩ := ch.of_provisionallyAborted
      exact .inr ⟨_, _, rfl, rfl⟩
    | _ => simp_all

lemma Chain.shape {st cbs st' acc out} (hs : settled st = some (acc, out)) (ch : Chain st cbs st') :
    Shape st cbs st' := by
  cases ch with
  | nil => exact .idle
  | cons ln ch =>
    cases ln with
    | onAdmit =>
      cases ch with
      | nil => exact .admitting
      | cons ln ch =>
        cases ln with
        | abort _ =>
          obtain ⟨rfl, rfl⟩ := ch.of_provisionallyAborted
          exact .admittingAborted
        | _ => simp_all
    | abort hst =>
      obtain ⟨rfl, rfl⟩ := ch.of_provisionallyAborted
      exact .aborting (by cases st <;> simp_all [settled])
    | accept hst =>
      cases ch with
      | nil => exact .accepting hst
      | cons ln ch =>
        cases ln with
        | abort _ =>
          obtain ⟨rfl, rfl⟩ := ch.of_provisionallyAborted
          exact .acceptingAborted hst
        | respond _ =>
          obtain ⟨rfl, rfl⟩ | ⟨f, e, rfl, rfl⟩ := ch.of_provisionallyCompleted
          · exact .acceptingResponded hst
          · exact .acceptingRespondedAborted hst
        | _ => simp_all
    | reject hst =>
      obtain ⟨rfl, rfl⟩ | ⟨f, e, rfl, rfl⟩ := ch.of_provisionallyCompleted
      · exact .rejecting hst
      · exact .rejectingAborted hst
    | respond hst =>
      have hacc : st = .accepted := by cases st <;> simp_all [settled]
      subst hacc
      obtain ⟨rfl, rfl⟩ | ⟨f, e, rfl, rfl⟩ := ch.of_provisionallyCompleted
      · exact .responding
      · exact .respondingAborted

lemma Shape.terminal {st cbs st'} (sh : Shape st cbs st') (h : st' = .completed ∨ st' = .aborted) : st = st' := by
  cases sh with
  | idle => rfl
  | _ => simp at h

/-! ## Committing a transaction -/

/-- The futures of an Update are completed as the two flags say. -/
def Ready (u : Update) (acc out : Bool) : Prop :=
  u.accepted.isReady = acc ∧ u.outcome.isReady = out

/-- An Update and the callbacks buffered for it fit together. An aborted Update ignores what is still
buffered for it; any other is where the buffered chain led it. `strict` asks that an aborted Update
has its accepted future completed too. -/
inductive Consistent (strict : Bool) (u : Update) (cbs : List Callback) : Prop where
  | aborted : u.state = .aborted → u.outcome.isReady = true →
      (strict = true → u.accepted.isReady = true) → Consistent strict u cbs
  | chained {st acc out} : settled st = some (acc, out) → Ready u acc out →
      Chain st cbs u.state → Consistent strict u cbs

lemma Consistent.idle {strict}
    (hs : settled u.state = some (u.accepted.isReady, u.outcome.isReady)) : Consistent strict u [] :=
  .chained hs ⟨rfl, rfl⟩ .nil

lemma Consistent.weaken {u cbs} (co : Consistent true u cbs) : Consistent false u cbs := by
  cases co with
  | aborted hst hout _ => exact .aborted hst hout (by simp)
  | chained hs hr ch => exact .chained hs hr ch

def commitAll (now : Nat) : Update → List Callback → Except Panic Update :=
  run fun u cb => (cb.commit now u).map Prod.fst

/-- The transaction rejected the Update and aborted it afterwards. -/
def rejectedThenAborted : List Callback → Bool
  | [.reject _ _, .abort _ _ _] => true
  | _ => false

@[simp] lemma Future.isReady_eq_false {α} {f : Future α} : f.isReady = false ↔ f = .pending := by
  cases f <;> simp [isReady]

@[simp] lemma Future.set_pending {α} (v : Option α) (e : Option AbortErr) :
    set v e .pending = .ok (.ready v e) := rfl

@[simp] lemma Future.isReady_ready {α} (v : Option α) (e : Option AbortErr) : (ready v e).isReady := rfl

lemma Callback.commit_aborted (now : Nat) (cb : Callback) (hu : u.state = .aborted) :
    cb.commit now u = .ok (u, false) := by
  cases cb <;> simp [Callback.commit, hu]

lemma commitAll_aborted (now : Nat) (cbs : List Callback) (hu : u.state = .aborted) : commitAll now u cbs = .ok u := by
  induction cbs with
  | nil => rfl
  | cons cb cbs ih => simpa [commitAll, run, Callback.commit_aborted now cb hu, Except.map] using ih

lemma Ready.pending {st acc out} (hr : Ready u acc out) (hs : settled st = some (acc, out))
    (hst : st ∈ [created, .admitted, .sent]) : u.accepted = .pending ∧ u.outcome = .pending := by
  have hff : acc = false ∧ out = false := by
    simp only [List.mem_cons, List.not_mem_nil, or_false] at hst
    rcases hst with rfl | rfl | rfl <;> simpa [settled, eq_comm] using hs
  obtain ⟨rfl, rfl⟩ := hff
  exact ⟨isReady_eq_false.mp hr.1, isReady_eq_false.mp hr.2⟩

lemma Ready.answerable {st acc out} (hr : Ready u acc out) (hs : settled st = some (acc, out))
    (hst : st ∈ [sent, .admitted]) : u.accepted = .pending ∧ u.outcome = .pending := by
  refine hr.pending hs ?_
  simp only [List.mem_cons, List.not_mem_nil, or_false] at hst ⊢
  exact .inr hst.symm

lemma Ready.ofAccepted {acc out} (hr : Ready u acc out)
    (hs : settled .accepted = some (acc, out)) : u.accepted.isReady ∧ u.outcome = .pending := by
  have htf : acc ∧ out = false := by simpa [settled, eq_comm] using hs
  obtain ⟨rfl, rfl⟩ := htf
  exact ⟨hr.1, isReady_eq_false.mp hr.2⟩

/-- Committing a transaction completes no future twice and leaves the Update settled. The shape that
breaks `strict` is a rejection followed by an abort. -/
lemma Shape.commitAll {strict st cbs acc out} (now : Nat)
    (sh : Shape st cbs u.state) (hs : settled st = some (acc, out)) (hr : Ready u acc out)
    (calm : strict = true → rejectedThenAborted cbs = false) :
    ∃ u', commitAll now u cbs = .ok u' ∧ Consistent strict u' [] := by
  obtain ⟨id, st', req, ev, time, accepted, outcome⟩ := u
  cases sh with
  | idle => exact ⟨_, rfl, .chained hs hr .nil⟩
  | admitting =>
    obtain ⟨rfl, rfl⟩ := hr.pending hs (by simp)
    exact ⟨_, rfl, .idle rfl⟩
  | admittingAborted =>
    obtain ⟨rfl, rfl⟩ := hr.pending hs (by simp)
    exact ⟨_, rfl, .aborted rfl rfl fun _ => rfl⟩
  | aborting hst =>
    simp only [List.mem_cons, List.not_mem_nil, or_false] at hst
    rcases hst with rfl | rfl | rfl | rfl
    iterate 3
      · obtain ⟨rfl, rfl⟩ := hr.pending hs (by simp)
        exact ⟨_, rfl, .aborted rfl rfl fun _ => rfl⟩
    obtain ⟨hacc, rfl⟩ := hr.ofAccepted hs
    exact ⟨_, rfl, .aborted rfl rfl fun _ => hacc⟩
  | accepting hst | acceptingResponded hst | acceptingRespondedAborted hst | rejecting hst =>
    obtain ⟨rfl, rfl⟩ := hr.answerable hs hst
    exact ⟨_, rfl, .idle rfl⟩
  | acceptingAborted hst =>
    obtain ⟨rfl, rfl⟩ := hr.answerable hs hst
    exact ⟨_, rfl, .aborted rfl rfl fun _ => rfl⟩
  | rejectingAborted hst =>
    obtain ⟨rfl, rfl⟩ := hr.answerable hs hst
    exact ⟨_, rfl, .aborted rfl rfl fun hstrict => by simp [rejectedThenAborted] at calm; simp_all⟩
  | responding =>
    obtain ⟨hacc, rfl⟩ := hr.ofAccepted hs
    exact ⟨_, rfl, .chained (rfl : settled .completed = _) ⟨hacc, rfl⟩ .nil⟩
  | respondingAborted =>
    obtain ⟨hacc, rfl⟩ := hr.ofAccepted hs
    exact ⟨_, rfl, .aborted rfl rfl fun _ => hacc⟩

lemma Consistent.commitAll {strict cbs u} (now : Nat) (co : Consistent strict u cbs)
    (calm : strict → rejectedThenAborted cbs = false) :
    ∃ u', commitAll now u cbs = .ok u' ∧ Consistent strict u' [] := by
  cases co with
  | aborted hst hout hacc => exact ⟨u, commitAll_aborted now cbs hst, .aborted hst hout hacc⟩
  | chained hs hr ch => exact (ch.shape hs).commitAll now hs hr calm

lemma Consistent.rollback {strict cbs u} (co : Consistent strict u cbs) :
    Consistent strict (cbs.foldr Callback.rollback u) [] := by
  cases co with
  | aborted hst hout hacc =>
    have hid : cbs.foldr Callback.rollback u = u := by
      induction cbs with
      | nil => rfl
      | cons cb cbs ih => cases cb <;> simp [ih, Callback.rollback, hst]
    rw [hid]
    exact .aborted hst hout hacc
  | chained hs hr ch =>
    obtain ⟨hst, hacc, hout⟩ := ch.rollback
    refine .chained hs ?_ (hst ▸ .nil)
    rw [Ready, hacc, hout]
    exact hr

lemma Consistent.follow {strict cbs t u} (co : Consistent strict u cbs)
    (fo : Follows u t) : Consistent strict t.upd (cbs ++ t.callback.toList) := by
  obtain ⟨hacc, hout, hcb⟩ := fo
  cases hc : t.callback with
  | none =>
    rw [hc] at hcb
    rw [Option.toList_none, List.append_nil]
    cases co with
    | aborted hst hout' hacc' =>
      exact .aborted (hcb.trans hst) (hout ▸ hout') (hacc ▸ hacc')
    | chained hs hr ch => exact .chained hs ⟨hacc ▸ hr.1, hout ▸ hr.2⟩ (hcb ▸ ch)
  | some cb =>
    rw [hc] at hcb
    cases co with
    | aborted hst _ _ => exact absurd hst hcb.source_ne_aborted
    | chained hs hr ch => exact .chained hs ⟨hacc ▸ hr.1, hout ▸ hr.2⟩ (ch.snoc hcb)

/-! ## Immediate effects -/

def Update.Unresolved (u : Update) : Prop :=
  u.state = .provisionallyCompleted ∧ u.accepted = .pending

instance (u : Update) : Decidable u.Unresolved := inferInstanceAs (Decidable (_ ∧ _))

/-- The futures of an Update that can still be aborted: the outcome is pending, and so is the
accepted future in a state before acceptance. -/
lemma Shape.abortable {st cbs acc out} (sh : Shape st cbs u.state) (hs : settled st = some (acc, out))
    (hr : Ready u acc out) (hst : u.state ∉ [completed, .provisionallyAborted, .aborted]) :
    u.outcome = .pending ∧ (u.state ∈ preAcceptedStates → u.accepted = .pending) ∧
      (u.state ∉ preAcceptedStates → u.state ≠ .provisionallyCompleted → u.accepted.isReady) := by
  obtain ⟨id, st', req, ev, time, accepted, outcome⟩ := u
  cases sh with
  | idle =>
    obtain ⟨rfl, rfl⟩ := hr
    cases st' <;> simp_all [settled, preAcceptedStates]
  | admitting =>
    obtain ⟨rfl, rfl⟩ := hr.pending hs (by simp)
    simp [preAcceptedStates]
  | accepting h | acceptingResponded h | rejecting h =>
    obtain ⟨rfl, rfl⟩ := hr.answerable hs h
    simp [preAcceptedStates]
  | responding =>
    obtain ⟨hacc, rfl⟩ := hr.ofAccepted hs
    simp [preAcceptedStates]
  | _ => simp at hst

/-- An immediate abort completes no future twice; it keeps `strict` unless it falls on an unresolved
Update. -/
lemma Consistent.abortNow {strict cbs} (now : Nat) (reason : AbortReason)
    (co : Consistent strict u cbs) (calm : strict → reason ≠ .workflowTaskFailed → ¬ u.Unresolved) :
    ∃ u', (u.abort reason).immediately now = .ok u' ∧ Consistent strict u' cbs ∧ (u' = u ∨ u'.state = .aborted) := by
  unfold Update.abort
  split
  · exact ⟨u, rfl, co, .inl rfl⟩
  rename_i f e hne heq
  have hfe : reason.failureError u.state ≠ (none, none) := by
    rw [heq]
    simpa using hne
  have hst := AbortReason.abortable hfe
  cases co with
  | aborted h _ _ => simp [h] at hst
  | chained hs hr ch =>
    obtain ⟨hout, hpre, hpost⟩ := (ch.shape hs).abortable hs hr hst
    by_cases hp : u.state ∈ preAcceptedStates
    · refine ⟨{ u with
        state := .aborted, outcome := .ready (f.map (.failure ∘ some)) e,
        accepted := .ready f e }, ?_, .aborted rfl rfl fun _ => rfl, .inr rfl⟩
      simp [Transition.immediately, Callback.commit, setState, setOutcome,
        setAccepted, hout, hp, hpre hp, Except.map, bind, Except.bind, pure, Except.pure]
    refine ⟨{ u with state := .aborted, outcome := .ready (f.map (.failure ∘ some)) e }, ?_,
      .aborted rfl rfl fun hstrict => ?_, .inr rfl⟩
    · simp [Transition.immediately, Callback.commit, setState, setOutcome,
        hout, hp, Except.map, bind, Except.bind, pure, Except.pure]
    by_cases hpc : u.state = .provisionallyCompleted
    · have hwf : reason ≠ .workflowTaskFailed := by
        rintro rfl
        simp [hpc, AbortReason.failureError] at hfe
      have hun := calm hstrict hwf
      rw [Update.Unresolved, not_and] at hun
      simpa [← isReady_eq_false] using hun hpc
    · exact hpost hp hpc

lemma Consistent.onAdmitNow {strict cbs} (now : Nat) (req : Option Request)
    (store : EventStore) (limitErr marshalErr : Option ServiceError) (co : Consistent strict u cbs) :
    ∃ u', (u.onAdmit req store limitErr marshalErr).immediately now = .ok u' ∧ Consistent strict u' cbs := by
  unfold onAdmit
  split
  · exact ⟨u, rfl, co⟩
  rename_i hst
  have hst : u.state = .created := by simpa using hst
  split
  · exact ⟨u, rfl, co⟩
  split
  · exact ⟨u, rfl, co⟩
  split
  · obtain ⟨u', h, co', _⟩ := co.abortNow now .workflowCompleted (fun _ _ hun => by simp [hun.1] at hst)
    exact ⟨u', h, co'⟩
  split
  · exact ⟨u, rfl, co⟩
  refine ⟨{ u with request := req, state := .admitted, admittedTime := now }, ?_, ?_⟩
  · simp [Transition.immediately, Callback.commit, setState, Except.map]
  cases co with
  | aborted h _ _ => simp [h] at hst
  | chained hs hr ch =>
    generalize hgen : u.state = st' at ch
    have hsh := ch.shape hs
    rw [← hgen, hst] at hsh
    cases hsh with
    | idle =>
      obtain ⟨rfl, rfl⟩ := hr
      exact .idle hs

end FastOrchestration.WorkflowUpdate
