import FastOrchestration.Lib.Run

/-!
# The priority semaphore

A call of `Acquire` runs one section under the lock when it starts and one when it stops waiting. Whatever is done in
between, no token is given out twice, and a call that fails leaves nothing behind. But a call that fits is queued
as soon as anybody waits. Behind waiters of lower priority only, it waits for no reason (`queued_fits`).
-/

namespace FastOrchestration.Locks

open Lib List

/-- A waiting call of `Acquire`. -/
structure Waiter where
  call : Nat
  n : Nat
  deriving DecidableEq

structure PrioritySemaphore where
  size : Nat
  cur : Nat
  waitLists : List (List Waiter)

/-- The semaphore and its callers: the calls whose channel is closed and that have not returned, the tokens of
those that have, the number of calls and the ones that returned an error. -/
structure State extends PrioritySemaphore where
  ready : List Waiter
  held : Nat
  calls : Nat
  failed : List Waiter

inductive Err where
  | invalidPriority
  | releasedMoreThanHeld
  | notEnabled

def numPriorities : Nat := 2

def newPrioritySemaphore (n : Nat) : State :=
  { size := n, cur := 0, waitLists := List.replicate numPriorities [], ready := [], held := 0, calls := 0, failed := [] }

/-- The loop over one list. -/
def notifyList (size : Nat) : Nat × List Waiter → List Waiter → (Nat × List Waiter) × List Waiter
  | (cur, ready), [] => ((cur, ready), [])
  | (cur, ready), w :: l =>
    if size < cur + w.n then ((cur, ready), w :: l) else notifyList size (cur + w.n, ready ++ [w]) l

def notifyLists (size : Nat) : Nat × List Waiter → List (List Waiter) → (Nat × List Waiter) × List (List Waiter)
  | r, [] => (r, [])
  | r, l :: ls =>
    match notifyList size r l with
    | (r, []) => ((notifyLists size r ls).1, [] :: (notifyLists size r ls).2)
    | (r, l) => (r, l :: ls)

namespace State

variable (s : State)

def notifyWaiters : State :=
  let ((cur, ready), waitLists) := notifyLists s.size (s.cur, s.ready) s.waitLists
  { s with cur, ready, waitLists }

def noWaiters : Bool := s.waitLists.all (·.isEmpty)

def acquire (priority n : Nat) (done : Bool) : Except Err State :=
  match s.waitLists[priority]? with
  | none => .error .invalidPriority
  | some l =>
    let w := ⟨s.calls, n⟩
    let calls := s.calls + 1
    if done then .ok { s with calls, failed := w :: s.failed }
    else if s.cur + n ≤ s.size ∧ s.noWaiters then .ok { s with cur := s.cur + n, held := s.held + n }
    else if s.size < n then .ok { s with calls, failed := w :: s.failed }
    else .ok { s with calls, waitLists := s.waitLists.set priority (l ++ [w]) }

def tryAcquire (n : Nat) : State :=
  if s.cur + n ≤ s.size ∧ s.noWaiters then { s with cur := s.cur + n, held := s.held + n } else s

def release (n : Nat) : Except Err State :=
  if s.cur < n then .error .releasedMoreThanHeld else .ok (notifyWaiters { s with cur := s.cur - n })

/-- The wait of a call ends because its context is done. -/
def waitDone (priority : Nat) (w : Waiter) : Except Err State :=
  let failed := w :: s.failed
  if w ∈ s.ready then .ok (notifyWaiters { s with failed, cur := s.cur - w.n, ready := s.ready.erase w })
  else
    match s.waitLists[priority]? with
    | none => .error .notEnabled
    | some l =>
      let s' := { s with failed, waitLists := s.waitLists.set priority (l.erase w) }
      if w ∉ l then .error .notEnabled
      else .ok (if l.head? = some w ∧ s.cur < s.size then s'.notifyWaiters else s')

/-- The wait of a call ends because its channel is closed; its context may be done as well. -/
def waitReady (w : Waiter) (done : Bool) : Except Err State :=
  let ready := s.ready.erase w
  if w ∉ s.ready then .error .notEnabled
  else if done then release { s with ready, failed := w :: s.failed } w.n
  else .ok { s with ready, held := s.held + w.n }

end State

inductive Event where
  | acquire (priority n : Nat) (done : Bool)
  | waitDone (priority : Nat) (w : Waiter)
  | waitReady (w : Waiter) (done : Bool)
  | tryAcquire (n : Nat)
  | release (n : Nat)

def step (s : State) : Event → Except Err State
  | .acquire priority n done => s.acquire priority n done
  | .waitDone priority w => s.waitDone priority w
  | .waitReady w done => s.waitReady w done
  | .tryAcquire n => .ok (s.tryAcquire n)
  | .release n => if n ≤ s.held then State.release { s with held := s.held - n } n else .error .notEnabled

def Fresh (ws : List Waiter) (calls : Nat) : Prop := ws.Nodup ∧ ∀ w ∈ ws, w.call < calls

def tokens (ws : List Waiter) : Nat := (ws.map (·.n)).sum

/-- Nobody waits for nothing, and the first one does not fit. -/
def Blocks (size cur : Nat) (ws : List Waiter) : Prop := (∀ w ∈ ws, 0 < w.n) ∧ ∀ w ∈ ws.head?, size < cur + w.n

namespace State

/-- The calls that have failed or may fail. -/
def known (s : State) : List Waiter := s.failed ++ (s.ready ++ s.waitLists.flatten)

structure Inv (s : State) : Prop where
  le : s.cur ≤ s.size
  cur : s.cur = s.held + tokens s.ready
  fresh : Fresh s.known s.calls

def Blocked (s : State) : Prop := Blocks s.size s.cur s.waitLists.flatten

end State

/-- A call asks for a token, and if it fits, it does not find waiters of lower priority only. -/
def Waits (s : State) : Event → Prop
  | .acquire priority n _ => 0 < n ∧
      (s.cur + n ≤ s.size → (s.waitLists.take (priority + 1)).flatten = [] → s.waitLists.flatten = [])
  | _ => True

instance (s : State) (e : Event) : Decidable (Waits s e) := by
  unfold Waits
  split <;> infer_instance

variable {s s' : State} {size : Nat}

/-- The first waiters have got tokens, up to one that does not fit. -/
def Notified (size : Nat) (r : Nat × List Waiter) (l : List Waiter) (r' : Nat × List Waiter) (l' : List Waiter) : Prop :=
  ∃ woken, l = woken ++ l' ∧ r' = (r.1 + tokens woken, r.2 ++ woken) ∧ (r.1 ≤ size → r'.1 ≤ size) ∧
    ∀ w ∈ l'.head?, size < r'.1 + w.n

lemma notifyList_spec (r : Nat × List Waiter) (l : List Waiter) :
    Notified size r l (notifyList size r l).1 (notifyList size r l).2 := by
  induction l generalizing r with
  | nil => exact ⟨[], rfl, by simp [notifyList, tokens], id, by simp [notifyList]⟩
  | cons w l ih =>
    rw [notifyList]
    split
    next hlt => exact ⟨[], rfl, by simp [tokens], id, by simpa using hlt⟩
    next hfits =>
    obtain ⟨woken, hl, hr, hle, hblocks⟩ := ih (r.1 + w.n, r.2 ++ [w])
    refine ⟨w :: woken, by rw [List.cons_append, ← hl], ?_, fun _ => hle (Nat.le_of_not_lt hfits), hblocks⟩
    rw [hr]
    simp [tokens, Nat.add_assoc]

lemma notifyLists_spec (r : Nat × List Waiter) (ls : List (List Waiter)) :
    Notified size r ls.flatten (notifyLists size r ls).1 (notifyLists size r ls).2.flatten := by
  induction ls generalizing r with
  | nil => exact ⟨[], rfl, by simp [notifyLists, tokens], id, by simp [notifyLists]⟩
  | cons l ls ih =>
    have hspec := @notifyList_spec size r l
    rw [notifyLists]
    split
    · next heq =>
      rw [heq] at hspec
      obtain ⟨woken, rfl, rfl, hle, -⟩ := hspec
      obtain ⟨more, hls, hr, hle', hblocks'⟩ := ih (r.1 + tokens woken, r.2 ++ woken)
      refine ⟨woken ++ more, by simpa using hls, ?_, hle' ∘ hle, by simpa using hblocks'⟩
      rw [hr]
      simp [tokens, Nat.add_assoc]
    · next hne heq =>
      rw [heq] at hspec
      obtain ⟨woken, rfl, rfl, hle, hblocks⟩ := hspec
      obtain ⟨w, l', rfl⟩ := List.exists_cons_of_ne_nil hne
      exact ⟨woken, by simp, rfl, hle, by simpa using hblocks⟩

section

variable {ws ws' : List Waiter} {calls : Nat} (h : Fresh ws calls)

include h

lemma Fresh.sublist (hws : ws' <+ ws) : Fresh ws' calls := ⟨h.1.sublist hws, fun w hw => h.2 w (hws.subset hw)⟩

lemma Fresh.perm (hws : ws' ~ ws) : Fresh ws' calls := ⟨hws.nodup_iff.mpr h.1, fun w hw => h.2 w (hws.subset hw)⟩

lemma Fresh.call (n : Nat) : Fresh (⟨calls, n⟩ :: ws) (calls + 1) := by
  refine ⟨List.nodup_cons.mpr ⟨fun hin => Nat.lt_irrefl _ (h.2 _ hin), h.1⟩, ?_⟩
  simpa using fun w hw => Nat.lt_succ_of_lt (h.2 w hw)

end

namespace State

lemma Inv.notifyWaiters (h : s.Inv) :
    s.notifyWaiters.Inv ∧ ((∀ w ∈ s.waitLists.flatten, 0 < w.n) → s.notifyWaiters.Blocked) := by
  obtain ⟨woken, hl, hr, hle, hblocks⟩ := @notifyLists_spec s.size (s.cur, s.ready) s.waitLists
  obtain ⟨hcur, hready⟩ := Prod.mk.inj hr
  have hknown : s.notifyWaiters.known = s.known := by simp [known, State.notifyWaiters, hready, hl]
  refine ⟨⟨hle h.le, ?_, hknown ▸ h.fresh⟩, fun hpos => ⟨fun w hw => hpos w ?_, hblocks⟩⟩
  · show (notifyLists _ _ _).1.1 = s.held + tokens (notifyLists _ _ _).1.2
    rw [hcur, hready, h.cur]
    simp [tokens, Nat.add_assoc]
  · rw [hl]
    exact mem_append_right _ hw

lemma flatten_set {ls : List (List Waiter)} {p l} (hl : ls[p]? = some l) : ∃ before after,
    ls.flatten = before ++ (l ++ after) ∧ (ls.take (p + 1)).flatten = before ++ l ∧
      ∀ l', (ls.set p l').flatten = before ++ (l' ++ after) := by
  obtain ⟨hlt, rfl⟩ := List.getElem?_eq_some_iff.mp hl
  have hset : ∀ l', (ls.set p l').flatten = (ls.take p).flatten ++ (l' ++ (ls.drop (p + 1)).flatten) := by
    simp [set_eq_take_append_cons_drop, hlt]
  refine ⟨_, _, ?_, ?_, hset⟩
  · rw [← hset, set_getElem_self]
  · rw [take_add_one, hl, flatten_append, Option.toList_some, flatten_singleton]

lemma perm_erase {w} {ws l after : List Waiter} (hw : w ∈ l) : w :: (ws ++ (l.erase w ++ after)) ~ ws ++ (l ++ after) :=
  perm_middle.symm.trans (((perm_cons_erase hw).symm.append_right after).append_left ws)

lemma Inv.take {n} (h : s.Inv) (hfits : s.cur + n ≤ s.size ∧ s.noWaiters) :
    Inv { s with cur := s.cur + n, held := s.held + n } ∧ Blocked { s with cur := s.cur + n, held := s.held + n } := by
  have hcur := h.cur
  have hnil : s.waitLists.flatten = [] := by simpa [noWaiters] using hfits.2
  exact ⟨⟨hfits.1, by dsimp only; omega, h.fresh⟩, by simp [Blocked, Blocks, hnil]⟩

/-- A step does not panic and keeps the invariant; under a condition it keeps the first waiter blocked. -/
abbrev Keeps (s : State) (c : Prop) : Except Err State → Prop :=
  Yields (· ≠ .releasedMoreThanHeld) fun s' => s'.Inv ∧ (c → s.Blocked → s'.Blocked)

lemma Inv.acquire (h : s.Inv) (priority n : Nat) (done : Bool) :
    Keeps s (Waits s (.acquire priority n done)) (s.acquire priority n done) := by
  have hfailed : Inv { s with calls := s.calls + 1, failed := ⟨s.calls, n⟩ :: s.failed } := ⟨h.le, h.cur, h.fresh.call n⟩
  unfold State.acquire
  split
  · exact nofun
  next l hl =>
  obtain ⟨before, after, hflat, htake, hset⟩ := flatten_set hl
  split_ifs with hdone hfits hlarge
  · exact ⟨hfailed, fun _ hb => hb⟩
  · exact (h.take hfits).imp_right fun hb _ _ => hb
  · exact ⟨hfailed, fun _ hb => hb⟩
  refine ⟨⟨h.le, h.cur, (h.fresh.call n).perm ?_⟩, fun ⟨hpos, hfirst⟩ hb => ?_⟩
  · simp only [known, hset, hflat]
    simpa using @perm_middle _ ⟨s.calls, n⟩ (s.failed ++ s.ready ++ before ++ l) after
  unfold Blocked Blocks at *
  rw [hflat] at hb
  rw [htake, append_eq_nil_iff] at hfirst
  simp only [hset]
  refine ⟨?_, ?_⟩
  · simp only [mem_append, mem_singleton] at hb ⊢
    grind
  have hlt : before = [] → l = [] → s.size < s.cur + n := by
    intro hbefore hl
    by_contra hle
    have hle := Nat.le_of_not_lt hle
    exact hfits ⟨hle, by simpa [noWaiters] using hfirst hle ⟨hbefore, hl⟩⟩
  cases before <;> cases l <;> simp_all

lemma tokens_erase {w ws} (hw : w ∈ ws) : tokens ws = w.n + tokens (ws.erase w) :=
  ((perm_cons_erase hw).map _).sum_nat

lemma Inv.giveBack {w} (h : s.Inv) (hw : w ∈ s.ready) :
    let t := { s with failed := w :: s.failed, cur := s.cur - w.n, ready := s.ready.erase w }
    w.n ≤ s.cur ∧ t.notifyWaiters.Inv ∧ (True → s.Blocked → t.notifyWaiters.Blocked) := by
  intro t
  have htokens := tokens_erase hw
  have hcur := h.cur
  have hle := h.le
  have ht : t.Inv := ⟨by simp only [t]; omega, by simp only [t]; omega, h.fresh.perm (perm_erase hw)⟩
  exact ⟨by omega, ht.notifyWaiters.1, fun _ hb => ht.notifyWaiters.2 hb.1⟩

lemma Inv.waitDone (h : s.Inv) (priority : Nat) (w : Waiter) : Keeps s True (s.waitDone priority w) := by
  unfold State.waitDone
  split
  next hw => exact (h.giveBack hw).2
  split
  · exact nofun
  next l hl =>
  split
  · exact nofun
  next hw =>
  obtain ⟨before, after, hflat, -, hset⟩ := flatten_set hl
  have hinv : Inv { s with failed := w :: s.failed, waitLists := s.waitLists.set priority (l.erase w) } := by
    refine ⟨h.le, h.cur, h.fresh.perm ?_⟩
    simp only [known, hset, hflat]
    simpa using @perm_erase w (s.failed ++ s.ready ++ before) l after (not_not.mp hw)
  have hpos : s.Blocked → ∀ w' ∈ (s.waitLists.set priority (l.erase w)).flatten, 0 < w'.n := by
    intro hb w' hw'
    refine hb.1 w' ?_
    rw [hset] at hw'
    rw [hflat]
    simp only [mem_append] at hw' ⊢
    exact hw'.imp_right (.imp_left mem_of_mem_erase)
  split
  · exact ⟨hinv.notifyWaiters.1, fun _ hb => hinv.notifyWaiters.2 (hpos hb)⟩
  next hnot =>
  refine (show _ ∧ _ from ⟨hinv, fun _ hb => ⟨hpos hb, fun w' hw' => ?_⟩⟩)
  by_cases hcur : s.cur < s.size
  · refine hb.2 w' ?_
    simp only [hset] at hw'
    rw [hflat]
    cases before <;> cases l <;> simp_all [erase_cons_tail]
  · have : 0 < w'.n := hpos hb w' (mem_of_mem_head? hw')
    dsimp only
    omega

lemma Inv.waitReady (h : s.Inv) (w : Waiter) (done : Bool) : Keeps s True (s.waitReady w done) := by
  unfold State.waitReady
  split
  · exact nofun
  next hw =>
  obtain ⟨hle, hback⟩ := h.giveBack (not_not.mp hw)
  split
  · rw [release, if_neg (Nat.not_lt.mpr hle)]
    exact hback
  have hcur := h.cur
  have htokens := tokens_erase (not_not.mp hw)
  exact ⟨⟨h.le, by dsimp only; omega, h.fresh.sublist ((erase_sublist.append_right _).append_left _)⟩, fun _ hb => hb⟩

lemma Inv.step (h : s.Inv) (e : Event) : Keeps s (Waits s e) (step s e) := by
  cases e with
  | acquire priority n done => exact h.acquire priority n done
  | waitDone priority w => exact h.waitDone priority w
  | waitReady w done => exact h.waitReady w done
  | tryAcquire n =>
    change _ ∧ _
    unfold tryAcquire
    split
    next hfits => exact (h.take hfits).imp_right fun hb _ _ => hb
    next => exact ⟨h, fun _ hb => hb⟩
  | release n =>
    have hcur := h.cur
    rw [Locks.step]
    split
    · have ht : Inv { s with cur := s.cur - n, held := s.held - n } :=
        ⟨Nat.le_trans (Nat.sub_le ..) h.le, by dsimp only; omega, h.fresh⟩
      rw [release, if_neg (by dsimp only; omega)]
      exact ⟨ht.notifyWaiters.1, fun _ hb => ht.notifyWaiters.2 hb.1⟩
    · exact nofun

lemma inv_new (n : Nat) : (newPrioritySemaphore n).Inv ∧ (newPrioritySemaphore n).Blocked :=
  ⟨⟨Nat.zero_le _, rfl, by simp [Fresh, known, newPrioritySemaphore]⟩, by simp [Blocked, Blocks, newPrioritySemaphore]⟩

end State

/-- No run releases more than is held. The tokens that are held are counted once and fit, and a call that has failed
holds none and does not wait. If every call `Waits`, the first waiter does not fit. -/
theorem semaphore_run (n : Nat) (es : List Event) :
    run step (newPrioritySemaphore n) es ≠ .error .releasedMoreThanHeld ∧
    ∀ s, run step (newPrioritySemaphore n) es = .ok s →
      (s.cur = s.held + tokens s.ready ∧ s.cur ≤ s.size ∧ ∀ w ∈ s.failed, w ∉ s.ready ∧ w ∉ s.waitLists.flatten) ∧
      (Along Waits step (newPrioritySemaphore n) es → ∀ w ∈ s.waitLists.flatten.head?, s.size < s.cur + w.n) := by
  obtain ⟨hinv, hblocked⟩ := State.inv_new n
  have hrun : Yields (· ≠ .releasedMoreThanHeld) State.Inv (run step (newPrioritySemaphore n) es) :=
    run_yields (fun s e _ hI => (hI.step e).mono (fun _ => id) fun _ => And.left) hinv
  refine ⟨fun hr => hrun.fault hr rfl, fun s hr => ⟨⟨(hrun.post hr).cur, (hrun.post hr).le, fun w hw => ?_⟩, fun al => ?_⟩⟩
  · simpa [not_or] using disjoint_of_nodup_append (hrun.post hr).fresh.1 hw
  · have hb : s.Inv ∧ s.Blocked := al.inv (I := fun s => s.Inv ∧ s.Blocked)
      (fun s e s' hI hP hs => ((hI.1.step e).post hs).imp_right fun hb => hb hP hI.2) ⟨hinv, hblocked⟩ hr
    exact hb.2.2

/-- A call with low priority waits for the tokens of another one, and the next call for its own. -/
def handedOver : List Event :=
  [.tryAcquire 5, .acquire 1 10 false, .release 5, .acquire 0 3 false, .waitReady ⟨0, 10⟩ false]

theorem semaphore_run_handedOver : ∃ s, run step (newPrioritySemaphore 10) handedOver = .ok s ∧
    s.waitLists = [[⟨1, 3⟩], []] ∧ s.size < s.cur + 3 :=
  ⟨_, rfl, rfl, ((semaphore_run 10 handedOver).2 _ rfl).2 (by decide) ⟨1, 3⟩ rfl⟩

/-- A call with high priority fits and waits behind one with low priority. A call for no token waits when the one
before it is cancelled. -/
theorem queued_fits :
    (∃ s, run step (newPrioritySemaphore 10) [.tryAcquire 5, .acquire 1 10 false, .acquire 0 3 false] = .ok s ∧
      s.waitLists = [[⟨1, 3⟩], [⟨0, 10⟩]] ∧ s.cur + 3 ≤ s.size) ∧
    ∃ s, run step (newPrioritySemaphore 1)
        [.tryAcquire 1, .acquire 0 1 false, .acquire 0 0 false, .waitDone 0 ⟨0, 1⟩] = .ok s ∧
      s.waitLists = [[⟨1, 0⟩], []] ∧ s.cur + 0 ≤ s.size :=
  ⟨⟨_, rfl, rfl, by decide⟩, _, rfl, rfl, by decide⟩

end FastOrchestration.Locks
