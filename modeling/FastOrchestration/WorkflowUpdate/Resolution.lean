import FastOrchestration.WorkflowUpdate.Waiters

/-!
# Resolution of waiters over whole runs

`Waiters.lean` follows one Update through one transaction. Here the facts are lifted to the registry,
where many Updates share one effect buffer. The callbacks of one Update are the buffer entries at its
address, and `Inv` asks that every Update on the heap is `Consistent` with them. A registry call
touches one address at a time, so each event reduces to the per-Update lemmas: `Inv.call` for the
methods, `Inv.commitBuffer` and `Inv.rollbackBuffer` for the two ends of a transaction.

`step_ok` is the step lemma. `futures_set_once` and `waiters_resolved` are what follows for runs.
-/

namespace FastOrchestration.WorkflowUpdate
open Lib List Registry

def callbacksOf (buf : List (Nat × Callback)) (a : Nat) : List Callback :=
  (buf.filter (·.1 = a)).map Prod.snd

@[simp] lemma callbacksOf_nil (a : Nat) : callbacksOf [] a = [] := rfl

lemma callbacksOf_append (buf buf' : List (Nat × Callback)) (a : Nat) :
    callbacksOf (buf ++ buf') a = callbacksOf buf a ++ callbacksOf buf' a := by
  simp [callbacksOf]

@[simp] lemma callbacksOf_cons_self (a : Nat) (cb : Callback) (buf : List (Nat × Callback)) :
    callbacksOf ((a, cb) :: buf) a = cb :: callbacksOf buf a := by
  simp [callbacksOf]

lemma callbacksOf_cons_ne {a b} (h : b ≠ a) (cb : Callback) (buf : List (Nat × Callback)) :
    callbacksOf ((b, cb) :: buf) a = callbacksOf buf a := by
  simp [callbacksOf, h]

lemma callbacksOf_eq_nil {buf a} (h : ∀ c ∈ buf, c.1 < a) : callbacksOf buf a = [] := by
  simp only [callbacksOf, map_eq_nil_iff, filter_eq_nil_iff, decide_eq_true_eq]
  exact fun c hc => Nat.ne_of_lt (h c hc)

structure Inv (strict : Bool) (r : Registry) : Prop where
  consistent : ∀ a u, r.heap[a]? = some u → Consistent strict u (callbacksOf r.buffer a)
  onHeap : ∀ c ∈ r.buffer, c.1 < r.heap.length

variable {strict : Bool} {now a : Nat} {u u' : Update} {r r' : Registry} {F : Panic → Prop} {Q : Update → Prop}

namespace Registry

@[simp] lemma remover_heap (r : Registry) (id : String) : (r.remover id).heap = r.heap := by
  unfold remover
  split <;> rfl

@[simp] lemma remover_buffer (r : Registry) (id : String) : (r.remover id).buffer = r.buffer := by
  unfold remover
  split <;> rfl

@[simp] lemma put_heap (r : Registry) (a : Nat) (u : Update) : (r.put a u).heap = r.heap.set a u :=
  rfl

@[simp] lemma put_buffer (r : Registry) (a : Nat) (u : Update) : (r.put a u).buffer = r.buffer := rfl

lemma commit_spec {cb} (hu : r.heap[a]? = some u) (hc : Yields F Q ((Callback.commit now cb u).map Prod.fst)) :
    Yields F (fun r' => ∃ u', Q u' ∧ r'.heap = r.heap.set a u' ∧ r'.buffer = r.buffer) (r.commit now a cb) := by
  simp only [commit, hu]
  cases h : Callback.commit now cb u with
  | error p =>
    rw [h] at hc
    exact hc
  | ok res =>
    rw [h] at hc
    refine ⟨res.1, hc, ?_, ?_⟩ <;> split <;> simp

lemma rollback_heap (r : Registry) (a : Nat) (cb : Callback) (b : Nat) : (r.rollback a cb).heap[b]? =
      if a = b then r.heap[b]?.map cb.rollback else r.heap[b]? := by
  by_cases hab : a = b
  · subst hab
    cases hu : r.heap[a]? with
    | none => simp only [rollback, hu, ↓reduceIte, Option.map_none]
    | some u =>
      have hlt := (List.getElem?_eq_some_iff.mp hu).1
      simp only [rollback, hu, put_heap, getElem?_set_self hlt, ↓reduceIte, Option.map_some]
  rw [if_neg hab]
  cases hu : r.heap[a]? with
  | none => simp only [rollback, hu]
  | some u => simp only [rollback, hu, put_heap, getElem?_set_ne hab]

lemma find_inr {id stored} (h : r.find id stored = some (.inr u)) :
    ∃ outcome err, u = newCompleted id outcome err := by
  unfold find at h
  split at h
  · cases h
  obtain ⟨⟨outcome, err⟩, -, ho⟩ := Option.map_eq_some_iff.mp h
  exact ⟨outcome, err, (Sum.inr.inj ho).symm⟩

lemma call_immediate (method : Update → Transition)
    (hu : r.heap[a]? = some u) (him : Yields F Q ((method u).immediately now)) :
    Yields F (fun r' => ∃ u', Q u' ∧ r'.heap = r.heap.set a u' ∧ r'.buffer = r.buffer)
      (r.call now .immediate method a) := by
  have ha : a < r.heap.length := (List.getElem?_eq_some_iff.mp hu).1
  simp only [call, hu, perform]
  simp only [Transition.immediately] at him
  cases hcb : (method u).callback with
  | none =>
    rw [hcb] at him
    refine ⟨_, him, ?_, ?_⟩ <;> split <;> simp
  | some cb =>
    rw [hcb] at him
    refine (commit_spec (u := (method u).upd) (by split <;> simp [ha]) him).mono (fun _ => id) ?_
    rintro r' ⟨u', hu', hh, hb⟩
    refine ⟨u', hu', ?_, ?_⟩
    · rw [hh]; split <;> simp
    · rw [hb]; split <;> simp

lemma call_buffered (now : Nat) (method : Update → Transition) (hu : r.heap[a]? = some u) :
    ∃ r', r.call now .buffered method a = .ok r' ∧ r'.heap = r.heap.set a (method u).upd ∧
      r'.buffer = r.buffer ++ (method u).callback.toList.map (a, ·) := by
  simp only [call, hu, perform]
  cases hcb : (method u).callback with
  | none | some cb =>
    refine ⟨_, rfl, ?_, ?_⟩ <;> split <;> simp

end Registry

/-! ## One address at a time -/

/-- Replacing the Update at `a` keeps the invariant if the new one is consistent with the new
buffer, which differs from the old one only in callbacks for `a`. -/
lemma Inv.replace (inv : Inv strict r) (ext : Option Callback)
    (hu : r.heap[a]? = some u) (hh : r'.heap = r.heap.set a u')
    (hb : r'.buffer = r.buffer ++ ext.toList.map (a, ·))
    (co : Consistent strict u' (callbacksOf r.buffer a ++ ext.toList)) : Inv strict r' where
  consistent b v hv := by
    rw [hh] at hv
    rw [hb, callbacksOf_append]
    obtain ⟨rfl, rfl⟩ | ⟨hba, hv⟩ := getElem?_set_cases hv
    · have hext : callbacksOf (ext.toList.map (b, ·)) b = ext.toList := by cases ext <;> simp
      rw [hext]
      exact co
    have hnil : callbacksOf (ext.toList.map (a, ·)) b = [] := by
      cases ext <;> simp [callbacksOf_cons_ne hba.symm]
    rw [hnil, append_nil]
    exact inv.consistent b v hv
  onHeap c hc := by
    rw [hh, length_set]
    rw [hb, mem_append] at hc
    rcases hc with hc | hc
    · exact inv.onHeap c hc
    obtain ⟨cb, -, rfl⟩ := mem_map.mp hc
    exact (List.getElem?_eq_some_iff.mp hu).1

lemma Inv.call (inv : Inv strict r) (now : Nat) {method} (fo : ∀ u, Follows u (method u)) (a : Nat) :
    Yields F (Inv strict) (r.call now .buffered method a) := by
  cases hu : r.heap[a]? with
  | none =>
    rw [Registry.call, hu]
    exact inv
  | some u =>
    obtain ⟨r', hr, hh, hb⟩ := call_buffered now method hu
    rw [hr]
    exact inv.replace _ hu hh hb ((inv.consistent a u hu).follow (fo u))

lemma Inv.callNow (inv : Inv strict r) (now : Nat) {method} (a : Nat)
    (im : ∀ u cbs, r.heap[a]? = some u → Consistent strict u cbs →
      Yields F (fun u' => Consistent strict u' cbs ∧ Q u') ((method u).immediately now)) :
    Yields F (fun r' => Inv strict r' ∧ (r' = r ∨ ∃ u', r'.heap = r.heap.set a u' ∧ Q u'))
      (r.call now .immediate method a) := by
  cases hu : r.heap[a]? with
  | none =>
    rw [Registry.call, hu]
    exact ⟨inv, .inl rfl⟩
  | some u =>
    refine (call_immediate method hu (im u _ hu (inv.consistent a u hu))).mono (fun _ => id) ?_
    intro r' ⟨u', ⟨co, hQ⟩, hh, hb⟩
    exact ⟨inv.replace none hu hh (by simpa using hb) (by simpa using co), .inr ⟨u', hh, hQ⟩⟩

lemma Inv.extend (inv : Inv strict r)
    (hh : r'.heap = r.heap ++ [u]) (hb : r'.buffer = r.buffer) (co : Consistent strict u []) :
    Inv strict r' where
  consistent a v hv := by
    rw [hb]
    rw [hh] at hv
    obtain hv | ⟨rfl, rfl⟩ := getElem?_concat_cases hv
    · exact inv.consistent a v hv
    rwa [callbacksOf_eq_nil inv.onHeap]
  onHeap c hc := by
    rw [hb] at hc
    rw [hh, length_append]
    exact Nat.lt_add_right _ (inv.onHeap c hc)

/-! ## The two ends of a transaction -/

lemma commit_buffer (now : Nat) {buf} (hq : ∀ a u, r.heap[a]? = some u →
      Yields F Q (commitAll now u (callbacksOf buf a))) :
    Yields F (fun r' => ∀ (a : Nat) u, r'.heap[a]? = some u → Q u) (run (fun r c => r.commit now c.1 c.2) r buf) := by
  induction buf generalizing r with
  | nil => exact hq
  | cons c buf ih =>
    obtain ⟨a, cb⟩ := c
    rw [yields_run_cons]
    cases hu : r.heap[a]? with
    | none =>
      simp only [commit, hu]
      refine ih fun b v hv => ?_
      have hab : a ≠ b := by rintro rfl; simp [hu] at hv
      simpa [callbacksOf_cons_ne hab] using hq b v hv
    | some u =>
      have h := hq a u hu
      rw [callbacksOf_cons_self, commitAll, yields_run_cons] at h
      refine (commit_spec hu h).mono (fun _ => id) ?_
      rintro r' ⟨v, hv, hh, -⟩
      refine ih fun b w hw => ?_
      rw [hh] at hw
      obtain ⟨rfl, rfl⟩ | ⟨hba, hw⟩ := getElem?_set_cases hw
      · exact hv
      · simpa [callbacksOf_cons_ne hba.symm] using hq b w hw

lemma rollback_buffer (buf : List (Nat × Callback)) (r : Registry) (a : Nat) :
    (buf.reverse.foldl (fun r c => r.rollback c.1 c.2) r).heap[a]? =
      r.heap[a]?.map fun u => (callbacksOf buf a).foldr Callback.rollback u := by
  induction buf with
  | nil => simp
  | cons c buf ih =>
    rw [reverse_cons, foldl_append, foldl_cons, foldl_nil, rollback_heap]
    split
    · rename_i hab
      subst hab
      rw [ih, Option.map_map, callbacksOf_cons_self]
      rfl
    rename_i hab
    rw [ih, callbacksOf_cons_ne hab]

lemma Consistent.send {cbs} (co : Consistent strict u cbs)
    (includeAlreadySent : Bool) : Consistent strict (u.send includeAlreadySent).1 cbs := by
  unfold Update.send
  split
  · exact co
  split
  · rename_i hst
    cases co with
    | aborted h _ _ => simp [h] at hst
    | chained hs hr ch =>
      have hsh := ch.shape hs
      rw [hst] at hsh
      cases hsh with
      | idle =>
        obtain ⟨rfl, rfl⟩ := hr
        exact .idle hs
  · exact co

section

variable (inv : Inv strict r)

include inv

lemma Inv.send (includeAlreadySent : Bool) (order : List Nat) : Inv strict (r.send includeAlreadySent order) := by
  induction order generalizing r with
  | nil => exact inv
  | cons a order ih =>
    refine ih ?_
    cases hu : r.heap[a]? with
    | none => simpa [sendOne, hu] using inv
    | some u =>
      simp only [sendOne, hu]
      refine inv.replace none hu rfl (by simp) ?_
      simpa using (inv.consistent a u hu).send includeAlreadySent

lemma Inv.cancel : Inv strict r.cancel  where
  consistent a u hu := by
    simp only [Registry.cancel, rollback_buffer, Option.map_eq_some_iff] at hu
    obtain ⟨v, hv, rfl⟩ := hu
    exact (inv.consistent a v hv).rollback
  onHeap c hc := by simp [Registry.cancel] at hc

/-- Go `Buffer.Apply` completes no future twice; it keeps `strict` unless it commits a rejection that
was aborted in the same transaction. -/
lemma Inv.apply (now : Nat) (calm : strict → ∀ a, rejectedThenAborted (callbacksOf r.buffer a) = false) :
    Yields F (Inv strict) (r.apply now) := by
  refine (commit_buffer now (Q := fun u => Consistent strict u []) fun a u hu => .of_exists ?_).bind fun r' hQ => ?_
  · exact (inv.consistent a u hu).commitAll now fun h => calm h a
  · exact ⟨hQ, by simp⟩

/-- Go `registry.Abort` completes no future twice; it keeps `strict` unless it falls on an
unresolved Update. -/
lemma Inv.abort (now : Nat) (reason : AbortReason)
    (order : List Nat) (calm : strict → reason ≠ .workflowTaskFailed → ∀ a ∈ order, ∀ u ∈ r.heap[a]?, ¬ u.Unresolved) :
    Yields F (Inv strict) (r.abort now reason order) := by
  -- aborting one Update leaves the others as they are, so the condition survives each step
  let I (r : Registry) := Inv strict r ∧ (strict → reason ≠ .workflowTaskFailed →
    ∀ a ∈ order, ∀ u ∈ r.heap[a]?, ¬ u.Unresolved)
  have hrun : Yields F I (run (Registry.call now .immediate (·.abort reason)) r order) := by
    refine run_yields (fun r a ha hI => ?_) (⟨inv, calm⟩ : I r)
    obtain ⟨inv, calm⟩ := hI
    refine (inv.callNow now a (Q := fun u => strict → reason ≠ .workflowTaskFailed → ¬ u.Unresolved)
      fun u cbs hu co => .of_exists ?_).mono (fun _ => id) ?_
    · obtain ⟨u', him, co', hcase⟩ := co.abortNow now reason fun h h' => calm h h' a ha u hu
      refine ⟨u', him, co', fun h h' hun => ?_⟩
      obtain rfl | hst := hcase
      · exact calm h h' a ha _ hu hun
      · simp [hun.1] at hst
    intro r' ⟨inv', hcase⟩
    refine ⟨inv', fun h h' b hb v hv => ?_⟩
    obtain rfl | ⟨u', hh, hu'⟩ := hcase
    · exact calm h h' b hb v hv
    rw [hh, Option.mem_def] at hv
    obtain ⟨rfl, rfl⟩ | ⟨-, hv⟩ := getElem?_set_cases hv
    · exact hu' h h'
    · exact calm h h' b hb v hv
  exact hrun.mono (fun _ => id) fun _ => And.left

lemma Inv.callEach (now : Nat) {method} (fo : ∀ u, Follows u (method u)) (order : List Nat) :
    Yields F (Inv strict) (r.callEach now .buffered method order) :=
  run_yields (fun _ a _ hI => hI.call now fo a) inv

/-! ## Steps and runs -/

/-- A step that leaves no waiter behind: no abort falls on an Update that is provisionally completed
with its accepted future pending, and no transaction is committed that rejected an Update and aborted
it afterwards. -/
def Calm (r : Registry) : Nat × Event → Prop
  | (_, .abort reason order) =>
    reason ≠ .workflowTaskFailed → ∀ a ∈ order, ∀ u ∈ r.heap[a]?, ¬ u.Unresolved
  | (_, .clear order) => ∀ a ∈ order, ∀ u ∈ r.heap[a]?, ¬ u.Unresolved
  | (_, .apply) => ∀ a ∈ r.buffer.map Prod.fst, rejectedThenAborted (callbacksOf r.buffer a) = false
  | _ => True

instance (r : Registry) : ∀ e, Decidable (Calm r e)
  | (_, .abort reason order) =>
    inferInstanceAs (Decidable (reason ≠ .workflowTaskFailed → ∀ a ∈ order, ∀ u ∈ r.heap[a]?, ¬ _))
  | (_, .clear order) => inferInstanceAs (Decidable (∀ a ∈ order, ∀ u ∈ r.heap[a]?, ¬ _))
  | (_, .apply) => inferInstanceAs (Decidable (∀ a ∈ r.buffer.map Prod.fst, _ = false))
  | (_, .findOrCreate ..) | (_, .tryResurrect ..) | (_, .onAdmit ..) | (_, .onProtocolMessage ..)
  | (_, .send ..) | (_, .rejectUnprocessed ..) | (_, .abortAccepted ..) | (_, .cancel) =>
    isTrue trivial

lemma Inv.register (co : Consistent strict u []) :
    Yields (· = .assignmentToNilMap ∧ r.updates = none) (fun r' => Inv strict r' ∧ r'.updates ≠ none) (r.register u) := by
  unfold Registry.register
  split
  next hm => exact ⟨rfl, hm⟩
  · exact ⟨inv.extend rfl rfl co, by simp⟩

lemma Inv.step (e : Nat × Event) (calm : strict → Calm r e) :
    Yields (· = .assignmentToNilMap) (Inv strict) (step r e) := by
  have hregister : ∀ u, Consistent strict u [] → Yields (· = .assignmentToNilMap) (Inv strict) (r.register u) :=
    fun u co => (inv.register co).mono (fun _ => And.left) fun _ => And.left
  obtain ⟨now, e⟩ := e
  cases e with
  | findOrCreate id stored limits =>
    simp only [WorkflowUpdate.step, findOrCreate]
    split
    · exact inv
    · rename_i u hu
      refine inv.extend (u := u) rfl rfl ?_
      obtain ⟨outcome, err, rfl⟩ := find_inr hu
      exact .idle rfl
    split
    · exact inv
    · exact hregister _ (.idle rfl)
  | tryResurrect msg limits =>
    simp only [WorkflowUpdate.step, tryResurrect]
    split
    · split
      · exact inv
      split
      · exact inv
      · exact hregister _ (.idle rfl)
    · exact inv
  | onAdmit a req store limitErr marshalErr ctrl =>
    cases ctrl with
    | buffered => exact inv.call now (.onAdmit · req store limitErr marshalErr) a
    | immediate =>
      refine (inv.callNow now a (Q := fun _ => True) fun u cbs _ co => .of_exists ?_).mono (fun _ => id) fun _ => And.left
      obtain ⟨u', him, co'⟩ := co.onAdmitNow now req store limitErr marshalErr
      exact ⟨u', him, co', trivial⟩
  | onProtocolMessage a msg store => exact inv.call now (.onProtocolMessage · msg store) a
  | send includeAlreadySent order => exact inv.send includeAlreadySent order
  | rejectUnprocessed order => exact inv.callEach now .rejectIfSent order
  | abort reason order => exact inv.abort now reason order calm
  | abortAccepted reason order => exact inv.callEach now (.abortIfAccepted reason) order
  | clear order =>
    exact (inv.abort now .registryCleared order fun h _ => calm h).bind fun r' hi => ⟨hi.consistent, hi.onHeap⟩
  | apply =>
    refine inv.apply now fun h a => ?_
    by_cases ha : a ∈ r.buffer.map Prod.fst
    · exact calm h a ha
    have hnil : callbacksOf r.buffer a = [] := by
      simp only [callbacksOf, map_eq_nil_iff, filter_eq_nil_iff, decide_eq_true_eq]
      exact fun c hc hca => ha (mem_map.mpr ⟨c, hc, hca⟩)
    simp [hnil, rejectedThenAborted]
  | cancel => exact inv.cancel

end

lemma Inv.newRegistry (now : Nat) (running : Bool) (infos : List (String × UpdateInfo)) :
    Yields F (Inv true) (newRegistry now running infos) := by
  -- loading never meets a nil map, so this is part of the induction
  let I (r : Registry) := Inv true r ∧ r.updates ≠ none
  have hload : ∀ r, ∀ info ∈ infos, I r → Yields F I (r.load now running info) := by
    rintro r ⟨id, info⟩ - ⟨inv, hmap⟩
    have hreg : ∀ u, Consistent true u [] → Yields F I (r.register u) := fun u co =>
      (inv.register co).mono (fun _ hp => absurd hp.2 hmap) fun _ hI => hI
    cases info with
    | admission => exact hreg _ (.idle rfl)
    | completion => exact ⟨⟨inv.consistent, inv.onHeap⟩, hmap⟩
    | acceptance eventID =>
      have co : Consistent true (newAccepted id eventID) [] :=
        .idle rfl
      cases running with
      | true => exact hreg _ co
      | false =>
        obtain ⟨u', hu, co', -⟩ := co.abortNow now .workflowCompleted (by
          simp [Update.Unresolved, newAccepted])
        refine Yields.bind (Q := (· = u')) (.of_exists ⟨u', hu, rfl⟩) ?_
        rintro _ rfl
        exact hreg _ co'
  exact (run_yields hload (s := empty) ⟨⟨by simp [empty], by simp [empty]⟩, by simp [empty]⟩).mono (fun _ => id)
    fun _ => And.left

lemma Inv.resolved (inv : Inv true r) (hu : u ∈ r.heap)
    (hst : u.state = .completed ∨ u.state = .aborted) :
    u.accepted.isReady ∧ u.outcome.isReady := by
  obtain ⟨a, ha⟩ := mem_iff_getElem?.mp hu
  cases inv.consistent a u ha with
  | aborted _ hout hacc => exact ⟨hacc rfl, hout⟩
  | chained hs hr ch =>
    rw [(ch.shape hs).terminal hst] at hs
    obtain ⟨rfl, rfl⟩ := hr
    rcases hst with h | h <;> rw [h] at hs <;> exact Prod.mk.inj (Option.some.inj hs.symm)

/-- Waiters of an Update are resolved once. In every run no future is completed twice; and if no
abort falls on a provisionally completed Update that nothing has resolved, and no transaction is
committed that rejects an Update and then aborts it, both futures of every completed or aborted
Update are completed. -/
theorem waiters_resolved {now : Nat} {running : Bool} {infos : List (String × UpdateInfo)}
    {r₀ : Registry} (h₀ : newRegistry now running infos = .ok r₀)
    (events : List (Nat × Event)) :
    run step r₀ events ≠ .error .futureAlreadyCompleted ∧
      (Along Calm step r₀ events → ∀ r, run step r₀ events = .ok r → ∀ u ∈ r.heap,
        u.state = .completed ∨ u.state = .aborted → u.accepted.isReady = true ∧ u.outcome.isReady = true) := by
  have inv : Inv true r₀ := (Inv.newRegistry (F := fun _ => False) now running infos).post h₀
  have weak : Inv false r₀ := ⟨fun a u hu => (inv.consistent a u hu).weaken, inv.onHeap⟩
  have hrun : Yields (· = .assignmentToNilMap) (Inv false) (run step r₀ events) :=
    run_yields (fun r e _ hI => hI.step e (by simp)) weak
  refine ⟨fun hr => (nomatch hrun.fault hr), fun calm r hr u hu hst => ?_⟩
  exact Inv.resolved ((calm.yields (fun r e hI hc => hI.step e fun _ => hc) inv).post hr) hu hst

def rejectedUpdate : List (Nat × Event) :=
  let store : EventStore := ⟨true, .ok 5, none⟩
  [(0, .findOrCreate "u" none ⟨0, 0, 0⟩),
   (0, .onAdmit 0 (some ⟨some ⟨"u"⟩, some ⟨"input"⟩⟩) store none none .immediate),
   (0, .send false [0]),
   (0, .onProtocolMessage 0 (some ⟨"u", some (.ok (.rejection ⟨none, none⟩))⟩) store)]

/-- The rejection committed: both futures are completed. -/
theorem waiters_resolved_rejectedUpdate : newRegistry 0 true [] = .ok empty ∧
      Along Calm step empty (rejectedUpdate ++ [(0, .apply)]) ∧
      ∀ r, run step empty (rejectedUpdate ++ [(0, .apply)]) = .ok r → ∀ u ∈ r.heap,
        u.state = .completed ∨ u.state = .aborted → u.accepted.isReady = true ∧ u.outcome.isReady = true := by
  have calm : Along Calm step empty (rejectedUpdate ++ [(0, .apply)]) := by
    decide
  exact ⟨rfl, calm, (waiters_resolved (rfl : newRegistry 0 true [] = _) (rejectedUpdate ++ [(0, .apply)])).2 calm⟩

/-- The registry cleared before the rejection is committed: the Update is aborted and its accepted
future stays pending. -/
theorem rejectedUpdate_cleared : newRegistry 0 true [] = .ok empty ∧
      Along (fun r e => e.2.Visits r) step empty (rejectedUpdate ++ [(0, .clear [0])]) ∧
      ∃ r, run step empty (rejectedUpdate ++ [(0, .clear [0])]) = .ok r ∧
        ∃ u ∈ r.heap, u.state = .aborted ∧ u.accepted = .pending := by
  refine ⟨rfl, ?_, _, rfl, _, .head _, rfl, rfl⟩
  decide

/-!
## Admissions that fail

The update API creates an Update and admits it in two calls. `Admit` has four error exits, and only
the first one, the payload limit, calls `onComplete` to take the new Update out of the registry.
-/

namespace Registry

lemma findOrCreate_new {r r1 : Registry} {id stored limits} (hnew : r.find id stored = none)
    (hlim : r.checkLimits limits = none) (h : r.findOrCreate id stored limits = .ok r1) :
    ∃ m, r.updates = some m ∧ m.filter (·.1 ≠ id) = m ∧ r1 = { r with
      heap := r.heap ++ [new id], updates := some ((id, r.heap.length) :: m) } := by
  simp only [findOrCreate, hnew, hlim, Option.isSome_none, Bool.false_eq_true, ↓reduceIte, register] at h
  cases hm : r.updates with
  | none => simp [hm] at h
  | some m =>
    have hid : m.lookup id = none := by
      unfold find at hnew
      split at hnew
      · cases hnew
      rename_i hl
      simpa [entries, hm] using hl
    have hkeep : m.filter (·.1 ≠ id) = m := by
      rw [List.lookup_eq_none_iff] at hid
      refine List.filter_eq_self.mpr fun e he => decide_eq_true ?_
      rintro rfl
      simpa using hid e he
    refine ⟨m, rfl, hkeep, ?_⟩
    simp only [hm] at h
    rw [← Except.ok.inj h]
    exact congrArg (fun m => mk _ (some (_ :: m)) _ _) hkeep

end Registry

/-- The error exits of Go `Admit` on a new Update. -/
lemma onAdmit_refused {id req store limitErr marshalErr}
    (h : ((new id).onAdmit req store limitErr marshalErr).err.isSome) :
    let t := (new id).onAdmit req store limitErr marshalErr
    limitErr.isSome ∧ t = ⟨new id, none, true, limitErr⟩ ∨
      limitErr.isSome = false ∧ ∃ err, t = (new id).answer err ∨ t = ⟨(new id).setState .provisionallyAborted,
          some (.abort .created none (some .abortedByWorkflowClosing)), false, err⟩ := by
  unfold Update.onAdmit at h ⊢
  simp only [show (new id).state = .created from rfl, ne_eq, not_true, ↓reduceIte] at h ⊢
  cases hl : limitErr.isSome with
  | true => exact .inl ⟨rfl, rfl⟩
  | false =>
    simp only [hl, Bool.false_eq_true, ↓reduceIte, true_and, false_and, false_or] at h ⊢
    split
    · exact ⟨_, .inl rfl⟩
    split
    · exact ⟨_, .inr rfl⟩
    split
    · exact ⟨_, .inl rfl⟩
    · simp_all

/-- A request that `Admit` refuses leaves the registry as it was before `FindOrCreate` exactly if it
is the payload limit that refuses it. -/
theorem refused_leavesNoTrace_iff (r : Registry) {r₁ : Registry} (id : String)
    (stored : StoredOutcome) (limits : Limits) (now : Nat)
    (req : Option Request) (store : EventStore) (limitErr marshalErr : Option ServiceError)
    (hnew : r.find id stored = none) (hlim : r.checkLimits limits = none)
    (hcreate : r.findOrCreate id stored limits = .ok r₁)
    (herr : ((new id).onAdmit req store limitErr marshalErr).err.isSome) :
    ∃ r₂, r₁.call now .immediate (·.onAdmit req store limitErr marshalErr) r.heap.length = .ok r₂ ∧
      (r₂.updates = r.updates ↔ limitErr.isSome) := by
  obtain ⟨m, hm, hkeep, rfl⟩ := findOrCreate_new hnew hlim hcreate
  have hleft : some ((id, r.heap.length) :: m) ≠ some m := by simp
  simp only [call, List.getElem?_concat_length, hm]
  obtain ⟨hl, ht⟩ | ⟨hl, err, ht | ht⟩ := onAdmit_refused herr
  · refine ⟨_, by rw [ht]; rfl, iff_of_true ?_ hl⟩
    show some (((id, r.heap.length) :: m).filter (·.1 ≠ id)) = some m
    rw [List.filter_cons_of_neg (by simp), hkeep]
  · exact ⟨_, by rw [ht]; rfl, iff_of_false hleft (by simp [hl])⟩
  -- `abort` seals the new Update and leaves it registered
  have hseal : ∃ u, Callback.commit now (.abort .created none (some .abortedByWorkflowClosing))
      ((new id).setState .provisionallyAborted) = .ok (u, false) := ⟨_, rfl⟩
  obtain ⟨u, hu⟩ := hseal
  refine ⟨_, by simp [ht, perform, commit, hu, bind, Except.bind]; rfl, ?_⟩
  exact iff_of_false hleft (by simp [hl])

def noInput : Option Request := some ⟨some ⟨"a"⟩, none⟩

def openStore : EventStore := ⟨true, .ok 1, none⟩

/-- Ten bytes are allowed in flight: the request has four, and there are eight before it. -/
def overTenBytes : Option ServiceError := payloadSizeLimiter ⟨0, 1, 10⟩ 8 4

theorem refused_leavesNoTrace_iff_noInput :
    (∃ r₂, (⟨[new "a"], some [("a", 0)], 0, []⟩ : Registry).call 1 .immediate
        (·.onAdmit noInput openStore none none) 0 = .ok r₂ ∧ (r₂.updates = some [] ↔ false)) ∧
      ∃ r₂, (⟨[new "a"], some [("a", 0)], 0, []⟩ : Registry).call 1 .immediate
        (·.onAdmit noInput openStore overTenBytes none) 0 = .ok r₂ ∧
        (r₂.updates = some [] ↔ overTenBytes.isSome) ∧ overTenBytes.isSome := by
  obtain ⟨r₂, hcall, hiff⟩ := refused_leavesNoTrace_iff .empty "a" none ⟨0, 1, 10⟩ 1 noInput openStore
    overTenBytes none rfl rfl rfl rfl
  exact ⟨refused_leavesNoTrace_iff .empty "a" none ⟨0, 1, 0⟩ 1 noInput openStore none none rfl rfl rfl rfl,
    r₂, hcall, hiff, rfl⟩

/-- The request is refused, and with one update in flight allowed the registry is then full. -/
theorem noInput_staysRegistered : ∃ r₁ r₂, empty.findOrCreate "a" none ⟨0, 1, 0⟩ = .ok r₁ ∧
      ((new "a").onAdmit noInput openStore none none).err.isSome ∧
      r₁.call 1 .immediate (·.onAdmit noInput openStore none none) 0 = .ok r₂ ∧
      r₂.updates ≠ empty.updates ∧ (r₂.checkLimits ⟨0, 1, 0⟩).isSome :=
  ⟨_, _, rfl, rfl, rfl, by decide, rfl⟩

end FastOrchestration.WorkflowUpdate
