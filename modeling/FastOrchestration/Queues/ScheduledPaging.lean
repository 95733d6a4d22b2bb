import FastOrchestration.Queues.Slice

/-!
# Paging through the timer tasks

Model of `PagingIteratorImpl` in `common/collection` and of the pagination function that
`NewScheduledQueue` gives it. The store is asked for a wider range of whole fire times, and each page
is trimmed at both ends to the keys of the range.

`Cuts fn token answer` says that `fn`, called with `token` and then with the tokens that it returns,
cuts `answer` into pages, of any sizes and with any tokens. `HasNext` calls itself as long as pages are
empty, so it has a fuel argument here, and what is proved of a drained iterator holds from some fuel on
(`drain_cuts`). What is left to prove of the scheduled queue speaks of cuttings only: where the store
cuts its answer, the trimmed pages cut the tasks of the range (`Cuts.scheduled`).
-/

namespace FastOrchestration.Queues

open List

/-- Go `[]byte`; the empty token and `nil` are the same to all readers. -/
abbrev PageToken := List UInt8

abbrev PaginationFn (ε α : Type) := PageToken → Except ε (List α × PageToken)

/-- Go `PagingIteratorImpl`, without its pagination function. -/
structure PagingIterator (ε α : Type) where
  pageToken : PageToken
  pageErr : Option ε
  pageItems : List α
  nextPageItemIndex : Nat

/-- The two calls of `panic` in `Next`. -/
inductive IteratorPanic where
  | nextWithoutHasNext
  | neitherItemNorError
  deriving DecidableEq

namespace PagingIterator

variable {ε α : Type} (fn : PaginationFn ε α)

def getNextPage (it : PagingIterator ε α) : PagingIterator ε α :=
  match fn it.pageToken with
  | .ok (items, token) => ⟨token, none, items, 0⟩
  | .error err => ⟨[], some err, [], 0⟩

def newPagingIterator : PagingIterator ε α := getNextPage fn ⟨[], none, [], 0⟩

/-- Go `HasNext`; no answer where the fuel runs out. -/
def hasNext : Nat → PagingIterator ε α → Option (Bool × PagingIterator ε α)
  | 0, _ => none
  | fuel + 1, it =>
    if it.pageErr.isSome then some (true, it)
    else if it.nextPageItemIndex < it.pageItems.length then some (true, it)
    else if it.pageToken.length ≠ 0 then hasNext fuel (it.getNextPage fn)
    else some (false, it)

def next (fuel : Nat) (it : PagingIterator ε α) :
    Option (Except IteratorPanic (Except ε α × PagingIterator ε α)) := do
  let (more, it) ← it.hasNext fn fuel
  if !more then return .error .nextWithoutHasNext
  else
    match it.pageErr, it.pageItems[it.nextPageItemIndex]? with
    | some err, _ => return .ok (.error err, { it with pageErr := none })
    | none, some item =>
      return .ok (.ok item, { it with nextPageItemIndex := it.nextPageItemIndex + 1 })
    | none, none => return .error .neitherItemNorError

def drain : Nat → PagingIterator ε α → Option (Except IteratorPanic (List (Except ε α)))
  | 0, _ => none
  | fuel + 1, it => do
    let (more, it) ← it.hasNext fn fuel
    if more then
      match ← it.next fn fuel with
      | .ok (received, it) =>
        let rest ← drain fuel it
        return (received :: ·) <$> rest
      | .error p => return .error p
    else return .ok []

end PagingIterator

/-- From a token on, the pages of `fn` are `answer`. -/
inductive Cuts {ε α : Type} (fn : PaginationFn ε α) : PageToken → List α → Prop where
  | last {token items} : fn token = .ok (items, []) → Cuts fn token items
  | more {token items next rest} : fn token = .ok (items, next) → next ≠ [] → Cuts fn next rest →
      Cuts fn token (items ++ rest)

namespace PagingIterator

variable {ε α : Type} {fn : PaginationFn ε α} {it : PagingIterator ε α}

/-- What an iterator without an error has yet to return. -/
inductive Holds (fn : PaginationFn ε α) : PagingIterator ε α → List α → Prop where
  | done {items index} : items.length ≤ index → Holds fn ⟨[], none, items, index⟩ []
  | item {token items index a rest} : items[index]? = some a →
      Holds fn ⟨token, none, items, index + 1⟩ rest → Holds fn ⟨token, none, items, index⟩ (a :: rest)
  | page {token items index left} : items.length ≤ index → token ≠ [] →
      Holds fn (getNextPage fn ⟨token, none, items, index⟩) left →
      Holds fn ⟨token, none, items, index⟩ left

lemma Holds.append {token} {items : List α} {rest} :
    ∀ {index : Nat}, index ≤ items.length → Holds fn ⟨token, none, items, items.length⟩ rest →
      Holds fn ⟨token, none, items, index⟩ (items.drop index ++ rest) := by
  intro index hle h
  induction hle using Nat.decreasingInduction with
  | self => simpa using h
  | of_succ index hlt ih =>
    rw [drop_eq_getElem_cons hlt]
    exact .item (getElem?_eq_getElem hlt) ih

lemma Cuts.holds {left} (h : Cuts fn it.pageToken left) : Holds fn (it.getNextPage fn) left := by
  generalize htoken : it.pageToken = token at h
  induction h generalizing it with
  | @last token items hfn =>
    have hdone : Holds fn ⟨[], none, items, items.length⟩ [] := .done le_rfl
    simpa [getNextPage, htoken, hfn] using hdone.append (Nat.zero_le _)
  | @more token items next rest hfn hne hrest ih =>
    have hpage : Holds fn ⟨next, none, items, items.length⟩ rest := .page le_rfl hne (ih rfl)
    simpa [getNextPage, htoken, hfn] using hpage.append (Nat.zero_le _)

/-- Where nothing is left, `HasNext` says so after any number of empty pages. -/
lemma Holds.hasNext_nil (h : Holds fn it []) : ∃ n it', ∀ fuel, n ≤ fuel → it.hasNext fn fuel = some (false, it') := by
  generalize hleft : ([] : List α) = left at h
  induction h with
  | @done items index hle =>
    refine ⟨1, ⟨[], none, items, index⟩, fun fuel hfuel => ?_⟩
    obtain ⟨fuel, rfl⟩ := Nat.exists_eq_add_of_le' hfuel
    simp [hasNext, Nat.not_lt.mpr hle]
  | item => cases hleft
  | @page token items index left hle hne hrest ih =>
    obtain ⟨n, it', hit'⟩ := ih hleft
    refine ⟨n + 1, it', fun fuel hfuel => ?_⟩
    obtain ⟨fuel, rfl⟩ := Nat.exists_eq_add_of_le' (Nat.le_of_add_left_le hfuel)
    simpa [hasNext, Nat.not_lt.mpr hle, hne] using hit' fuel (by omega)

/-- Otherwise it stops at the next item, where `HasNext` and `Next` then find it. -/
lemma Holds.hasNext_cons {a rest} (h : Holds fn it (a :: rest)) : ∃ n token items index, (∀ fuel, n ≤ fuel →
        it.hasNext fn fuel = some (true, ⟨token, none, items, index⟩)) ∧
      items[index]? = some a ∧ Holds fn ⟨token, none, items, index + 1⟩ rest := by
  generalize hleft : a :: rest = left at h
  induction h with
  | done => cases hleft
  | @item token items index a' rest' hitem hrest =>
    cases hleft
    refine ⟨1, token, items, index, fun fuel hfuel => ?_, hitem, hrest⟩
    obtain ⟨fuel, rfl⟩ := Nat.exists_eq_add_of_le' hfuel
    simp [hasNext, (List.getElem?_eq_some_iff.mp hitem).1]
  | @page token items index left hle hne hrest ih =>
    obtain ⟨n, token', items', index', hnext, hitem, hrest'⟩ := ih hleft
    refine ⟨n + 1, token', items', index', fun fuel hfuel => ?_, hitem, hrest'⟩
    obtain ⟨fuel, rfl⟩ := Nat.exists_eq_add_of_le' (Nat.le_of_add_left_le hfuel)
    simpa [hasNext, Nat.not_lt.mpr hle, hne] using hnext fuel (by omega)

lemma next_item {token items index a} (h : items[index]? = some a) (fuel : Nat) :
    next fn (fuel + 1) ⟨token, none, items, index⟩ = some (.ok (.ok a, ⟨token, none, items, index + 1⟩)) := by
  obtain ⟨hlt, rfl⟩ := List.getElem?_eq_some_iff.mp h
  simp [next, hasNext, hlt]

lemma Holds.drain {left : List α} (h : Holds fn it left) :
    ∃ n, ∀ fuel, n ≤ fuel → it.drain fn fuel = some (.ok (left.map .ok)) := by
  induction left generalizing it with
  | nil =>
    obtain ⟨n, it', hit'⟩ := h.hasNext_nil
    refine ⟨n + 1, fun fuel hfuel => ?_⟩
    obtain ⟨fuel, rfl⟩ := Nat.exists_eq_add_of_le' (Nat.le_of_add_left_le hfuel)
    simp [PagingIterator.drain, hit' fuel (by omega)]
  | cons a rest ih =>
    obtain ⟨n, token, items, index, hnext, hitem, hrest⟩ := h.hasNext_cons
    obtain ⟨n', hdrain⟩ := ih hrest
    refine ⟨n + n' + 2, fun fuel hfuel => ?_⟩
    obtain ⟨fuel, rfl⟩ := Nat.exists_eq_add_of_le' (Nat.le_of_add_left_le hfuel)
    rw [PagingIterator.drain, hnext (fuel + 1) (by omega)]
    simp only [Option.bind_eq_bind, Option.bind_some, next_item hitem, hdrain (fuel + 1) (by omega)]
    rfl

lemma drain_cuts {answer : List α} (h : Cuts fn [] answer) : ∃ n, ∀ fuel, n ≤ fuel →
      (newPagingIterator fn).drain fn fuel = some (.ok (answer.map .ok)) := by
  have hstart : Cuts fn (⟨[], none, [], 0⟩ : PagingIterator ε α).pageToken answer := h
  exact (Cuts.holds hstart).drain

end PagingIterator

/-- Go `persistence.ScheduledTaskMinPrecision`, in nanoseconds. -/
def scheduledTaskMinPrecision : Int := 1000000

/-- Go `GetHistoryTasksRequest`, for the shard and the category of the queue. -/
structure GetHistoryTasksRequest where
  inclusiveMinTaskKey : Key
  exclusiveMaxTaskKey : Key
  batchSize : Nat
  nextPageToken : PageToken

section Scheduled

variable {ε : Type} (getHistoryTasks : GetHistoryTasksRequest → Except ε (List Task × PageToken))
variable (batchSize : PageToken → Nat) (r : Range)

/-- The request for a page; the batch size is read again for each one. -/
def scheduledRequest (token : PageToken) : GetHistoryTasksRequest where
  inclusiveMinTaskKey := ⟨r.inclusiveMin.fireTime, 0⟩
  exclusiveMaxTaskKey := ⟨r.exclusiveMax.fireTime + scheduledTaskMinPrecision, 0⟩
  batchSize := batchSize token
  nextPageToken := token

/-- The function that `paginationFnProvider` of the scheduled queue returns. -/
def scheduledPaginationFn : PaginationFn ε Task := fun token => do
  let (tasks, next) ← getHistoryTasks (scheduledRequest batchSize r token)
  let front := tasks.dropWhile fun t => !r.containsKey t.key
  let kept := front.rdropWhile fun t => !r.containsKey t.key
  return (kept, if kept.length < front.length then [] else next)

/-- The store's answer to the requests for a range. -/
def scheduledAnswer (tasks : List Task) : List Task :=
  tasks.filter fun t => r.inclusiveMin.fireTime ≤ t.key.fireTime ∧
    t.key.fireTime < r.exclusiveMax.fireTime + scheduledTaskMinPrecision

end Scheduled

lemma containsKey_between {r : Range} (a b c : Task) (hab : a.key ≤ b.key) (hbc : b.key ≤ c.key)
    (ha : r.containsKey a.key) (hc : r.containsKey c.key) : r.containsKey b.key := by
  rw [Range.containsKey_iff] at ha hc ⊢
  exact ⟨ha.1.trans hab, hbc.trans_lt hc.2⟩

section Trim

variable {q : Task → Bool} {tasks rest : List Task}

lemma filter_dropWhile_not {α : Type} (q : α → Bool) (xs : List α) :
    (xs.dropWhile fun x => !q x).filter q = xs.filter q := by
  induction xs with
  | nil => rfl
  | cons x xs ih => cases hx : q x <;> simp [hx, ih]

lemma filter_rdropWhile_not {α : Type} (q : α → Bool) (xs : List α) :
    (xs.rdropWhile fun x => !q x).filter q = xs.filter q := by
  rw [List.rdropWhile, ← reverse_inj, ← filter_reverse, reverse_reverse, filter_dropWhile_not, filter_reverse]

variable (hsorted : tasks.Pairwise fun a b => a.key ≤ b.key)

include hsorted

lemma head_le_of_mem {t : Task} (ht : t ∈ tasks) (hne : tasks ≠ []) : (tasks.head hne).key ≤ t.key := by
  obtain ⟨a, tasks, rfl⟩ := exists_cons_of_ne_nil hne
  obtain rfl | ht := mem_cons.mp ht
  · exact le_rfl
  · exact rel_of_pairwise_cons hsorted ht

lemma le_getLast_of_mem {t : Task} (ht : t ∈ tasks) (hne : tasks ≠ []) : t.key ≤ (tasks.getLast hne).key := by
  rw [← dropLast_append_getLast hne] at ht hsorted
  obtain ht | ht := mem_append.mp ht
  · exact (pairwise_append.mp hsorted).2.2 t ht _ (mem_singleton_self _)
  · exact (congrArg Task.key (mem_singleton.mp ht)).le

omit hsorted in
lemma front_head (hne : tasks.dropWhile (fun t => !q t) ≠ []) : q ((tasks.dropWhile fun t => !q t).head hne) := by
  simpa using head_dropWhile_not (fun t => !q t) hne

variable (hq : ∀ a b c, a.key ≤ b.key → b.key ≤ c.key → q a → q c → q b)

include hq

lemma trim_eq_filter : (tasks.dropWhile fun t => !q t).rdropWhile (fun t => !q t) = tasks.filter q := by
  have hfilter := filter_rdropWhile_not q (tasks.dropWhile fun t => !q t)
  rw [filter_dropWhile_not] at hfilter
  rw [← hfilter, eq_comm, filter_eq_self]
  have hfront := hsorted.sublist (dropWhile_sublist fun t => !q t)
  have hprefix := rdropWhile_prefix (fun t => !q t) (tasks.dropWhile fun t => !q t)
  intro t ht
  have hmem := hprefix.subset ht
  have hlast := rdropWhile_last_not (fun t => !q t) (tasks.dropWhile fun t => !q t) (ne_nil_of_mem ht)
  refine hq _ t _ (head_le_of_mem hfront hmem (ne_nil_of_mem hmem))
    (le_getLast_of_mem (hfront.sublist hprefix.sublist) ht (ne_nil_of_mem ht)) (front_head _) ?_
  simpa using hlast

omit hsorted in
lemma trimmed_end (hsorted : (tasks ++ rest).Pairwise fun a b => a.key ≤ b.key)
    (hlt : ((tasks.dropWhile fun t => !q t).rdropWhile fun t => !q t).length <
      (tasks.dropWhile fun t => !q t).length) : rest.filter q = [] := by
  obtain ⟨hpage, -, hlater⟩ := pairwise_append.mp hsorted
  have hfront := hpage.sublist (dropWhile_sublist fun t => !q t)
  have hne : tasks.dropWhile (fun t => !q t) ≠ [] := by
    rintro h
    simp [h] at hlt
  have hlast : q ((tasks.dropWhile fun t => !q t).getLast hne) = false := by
    by_contra hc
    refine absurd hlt (Nat.not_lt.mpr (le_of_eq (congrArg List.length ?_)))
    exact (rdropWhile_eq_self_iff.mpr fun _ => by simpa using hc).symm
  refine filter_eq_nil_iff.mpr fun t ht hc => ?_
  -- the last task of the page is between its first one and `t`
  have hmem := getLast_mem hne
  have hle := hlater _ ((dropWhile_sublist _).subset hmem) t ht
  have hin := hq _ _ t (head_le_of_mem hfront hmem hne) hle (front_head hne) hc
  exact absurd (hlast.symm.trans hin) Bool.false_ne_true

end Trim

section Scheduled

variable {ε : Type} {getHistoryTasks : GetHistoryTasksRequest → Except ε (List Task × PageToken)}
variable {batchSize : PageToken → Nat} {r : Range}

lemma Cuts.scheduled {token} {answer : List Task}
    (h : Cuts (fun token => getHistoryTasks (scheduledRequest batchSize r token)) token answer)
    (hsorted : answer.Pairwise fun a b => a.key ≤ b.key) :
    Cuts (scheduledPaginationFn getHistoryTasks batchSize r) token (answer.filter fun t => r.containsKey t.key) := by
  induction h with
  | @last token items hfn =>
    rw [← trim_eq_filter hsorted containsKey_between]
    refine .last ?_
    simp [scheduledPaginationFn, hfn, bind, Except.bind, pure, Except.pure]
  | @more token items next rest hfn hne hrest ih =>
    obtain ⟨hpage, hlater, -⟩ := pairwise_append.mp hsorted
    rw [filter_append]
    by_cases hlt : ((items.dropWhile fun t => !r.containsKey t.key).rdropWhile fun t => !r.containsKey t.key).length <
      (items.dropWhile fun t => !r.containsKey t.key).length
    · rw [trimmed_end containsKey_between hsorted hlt, append_nil, ← trim_eq_filter hpage containsKey_between]
      refine .last ?_
      simp [scheduledPaginationFn, hfn, hlt, bind, Except.bind, pure, Except.pure]
    rw [← trim_eq_filter hpage containsKey_between]
    refine .more ?_ hne (ih hlater)
    simp [scheduledPaginationFn, hfn, hlt, bind, Except.bind, pure, Except.pure]

lemma scheduledAnswer_filter (tasks : List Task) : (scheduledAnswer r tasks).filter (fun t => r.containsKey t.key) =
      tasks.filter fun t => r.containsKey t.key := by
  rw [scheduledAnswer, filter_filter]
  refine filter_congr fun t _ => ?_
  rw [Bool.and_eq_left_iff_imp]
  intro hc
  obtain ⟨hmin, hmax⟩ := Range.containsKey_iff.mp hc
  rw [Key.le_def] at hmin
  rw [Key.lt_def] at hmax
  simp only [scheduledTaskMinPrecision]
  refine decide_eq_true ⟨?_, ?_⟩ <;> omega

lemma scheduled_cuts {tasks : List Task} (hsorted : tasks.Pairwise fun a b => a.key < b.key)
    (hstore : Cuts (fun token => getHistoryTasks (scheduledRequest batchSize r token)) [] (scheduledAnswer r tasks)) :
    Cuts (scheduledPaginationFn getHistoryTasks batchSize r) [] (tasks.filter fun t => r.containsKey t.key) := by
  have hanswer : (scheduledAnswer r tasks).Pairwise fun a b => a.key ≤ b.key :=
    (hsorted.imp fun h => h.le).filter _
  have hcuts := hstore.scheduled hanswer
  rw [scheduledAnswer_filter] at hcuts
  exact hcuts

/-- Draining the paging iterator of the scheduled queue returns the stored tasks whose keys are in the
range, in key order and each once, for all sizes and tokens of the pages into which the store cuts its
answer. -/
theorem scheduledPaging_exact (getHistoryTasks : GetHistoryTasksRequest →
      Except ε (List Task × PageToken)) (batchSize : PageToken → Nat) (r : Range)
    (tasks : List Task) (hsorted : tasks.Pairwise fun a b => a.key < b.key)
    (hstore : Cuts (fun token => getHistoryTasks (scheduledRequest batchSize r token)) [] (scheduledAnswer r tasks)) :
    let fn := scheduledPaginationFn getHistoryTasks batchSize r
    ∃ n, ∀ fuel, n ≤ fuel → (PagingIterator.newPagingIterator fn).drain fn fuel =
      some (.ok ((tasks.filter fun t => r.containsKey t.key).map .ok)) :=
  PagingIterator.drain_cuts (scheduled_cuts hsorted hstore)

def timerTask (fireTime taskID : Int) : Task := ⟨⟨fireTime, taskID⟩, "namespace", 0, none, none⟩

/-- A store that answers with a page before the range, an empty page, a page across the end of the
range and one beyond it. -/
def fourPages (request : GetHistoryTasksRequest) : Except String (List Task × PageToken) :=
  match request.nextPageToken with
  | [] => .ok ([timerTask 1 2], [1])
  | [1] => .ok ([], [2])
  | [2] => .ok ([timerTask 1 7, timerTask 3 1, timerTask 3 9], [3])
  | [3] => .ok ([timerTask 4 1], [])
  | _ => .error "invalid token"

def storedTimers : List Task :=
  [timerTask 0 1, timerTask 1 2, timerTask 1 7, timerTask 3 1, timerTask 3 9, timerTask 4 1, timerTask 2000000 1]

theorem scheduledPaging_exact_fourPages :
    let fn := scheduledPaginationFn fourPages (fun _ => 3) ⟨⟨1, 5⟩, ⟨3, 4⟩⟩
    ∃ fuel, (PagingIterator.newPagingIterator fn).drain fn fuel =
      some (.ok [.ok (timerTask 1 7), .ok (timerTask 3 1)]) := by
  have hpages : Cuts (fun token => fourPages (scheduledRequest (fun _ => 3) ⟨⟨1, 5⟩, ⟨3, 4⟩⟩ token)) []
      ([timerTask 1 2] ++ ([] ++ ([timerTask 1 7, timerTask 3 1, timerTask 3 9] ++ [timerTask 4 1]))) :=
    .more rfl (cons_ne_nil 1 []) (.more rfl (cons_ne_nil 2 []) (.more rfl (cons_ne_nil 3 []) (.last rfl)))
  have hanswer : [timerTask 1 2] ++ ([] ++ ([timerTask 1 7, timerTask 3 1, timerTask 3 9] ++
      [timerTask 4 1])) = scheduledAnswer ⟨⟨1, 5⟩, ⟨3, 4⟩⟩ storedTimers := by decide
  rw [hanswer] at hpages
  obtain ⟨n, hn⟩ := scheduledPaging_exact fourPages (fun _ => 3) ⟨⟨1, 5⟩, ⟨3, 4⟩⟩ storedTimers (by decide) hpages
  exact ⟨n, hn n le_rfl⟩

end Scheduled

end FastOrchestration.Queues
