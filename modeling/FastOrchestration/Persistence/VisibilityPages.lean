import FastOrchestration.Lib.KeysetPages

/-!
# Pages of a visibility listing

Model of `ListWorkflowExecutions` of the SQL visibility store, of the statement of `buildSelectStmt` and
of how MySQL rows are read back. The minimum datetime, which the zero time is stored as, comes back as the
zero time. The token of the next page is made of such a row, so it can lie behind rows that have not been
listed.
-/

namespace FastOrchestration.Persistence.Visibility

open List OrderDual Lib

variable {ρ α : Type} [LinearOrder ρ]

/-- Go `VisibilityRow`, with times in nanoseconds. -/
structure Row (ρ α : Type) where
  namespaceID : String
  runID : ρ
  startTime : Int
  closeTime : Option Int
  searchAttributes : α

structure PageToken (ρ : Type) where
  closeTime : Int
  startTime : Int
  runID : ρ

/-- Here `query` is the condition to which the query string is converted. -/
structure ListRequest (ρ α : Type) where
  namespaceID : String
  pageSize : Nat
  query : Row ρ α → Bool

/-- The last second of the year 9999. -/
def maxDatetimeValue : Int := 253402300799000000000

/-- The first second of the year 1000. -/
def minMySQLDateTime : Int := -30610224000000000000

/-- Go's zero time, in the year 1. -/
def zeroTime : Int := -62135596800000000000

/-- Go `FromMySQLDateTime`. -/
def fromMySQLDateTime (t : Int) : Int := if t = minMySQLDateTime then zeroTime else t

/-- What the statement orders by: two columns `DESC`, then the run ID. -/
def PageToken.key (token : PageToken ρ) : ℤᵒᵈ ×ₗ ℤᵒᵈ ×ₗ ρ :=
  toLex (toDual token.closeTime, toLex (toDual token.startTime, token.runID))

namespace Row

def coalesceCloseTime (row : Row ρ α) : Int := row.closeTime.getD maxDatetimeValue

def token (row : Row ρ α) : PageToken ρ := ⟨row.coalesceCloseTime, row.startTime, row.runID⟩

/-- Go `processRowFromDB`, on what the listing reads. -/
def processRowFromDB (row : Row ρ α) : Row ρ α :=
  { row with startTime := fromMySQLDateTime row.startTime
             closeTime := row.closeTime.map fromMySQLDateTime }

/-- The condition for the rows after a token. -/
def Follows (row : Row ρ α) (token : PageToken ρ) : Prop :=
  (row.coalesceCloseTime = token.closeTime ∧ row.startTime = token.startTime ∧ token.runID < row.runID) ∨
    (row.coalesceCloseTime = token.closeTime ∧ row.startTime < token.startTime) ∨
    row.coalesceCloseTime < token.closeTime

instance (row : Row ρ α) (token : PageToken ρ) : Decidable (row.Follows token) :=
  inferInstanceAs (Decidable (_ ∨ _))

/-- Open workflows first, then the later close time, the later start time and the lesser run ID. -/
def Precedes (a b : Row ρ α) : Prop :=
  (∃ c ∈ b.closeTime, ∀ c' ∈ a.closeTime, c < c') ∨ a.closeTime = b.closeTime ∧
    (b.startTime < a.startTime ∨ a.startTime = b.startTime ∧ a.runID < b.runID)

lemma follows_iff {row : Row ρ α} {token : PageToken ρ} : row.Follows token ↔ token.key < row.token.key := by
  simp only [Follows, PageToken.key, Row.token, Prod.Lex.toLex_lt_toLex, toDual_lt_toDual, toDual_inj,
    @eq_comm _ row.coalesceCloseTime, @eq_comm _ row.startTime]
  tauto

/-- The order of the listing in words of its columns. -/
lemma precedes_iff {a b : Row ρ α} (ha : ∀ c ∈ a.closeTime, c < maxDatetimeValue)
    (hb : ∀ c ∈ b.closeTime, c < maxDatetimeValue) : a.Precedes b ↔ a.token.key < b.token.key := by
  rw [← follows_iff]
  unfold Follows token coalesceCloseTime Precedes
  cases hac : a.closeTime <;> cases hbc : b.closeTime <;>
    simp only [hac, hbc, Option.getD_none, Option.getD_some, Option.mem_def, Option.some.injEq,
      reduceCtorEq] at ha hb ⊢ <;> grind

/-- A time is never later when it is read back. -/
lemma fromMySQLDateTime_le (t : Int) : fromMySQLDateTime t ≤ t := by
  unfold fromMySQLDateTime
  split
  · next h => subst h; decide
  · exact le_rfl

/-- So the token that is made of a row is not before the row. -/
lemma key_le_processed (row : Row ρ α) : row.token.key ≤ row.processRowFromDB.token.key := by
  have hclose : row.processRowFromDB.coalesceCloseTime ≤ row.coalesceCloseTime := by
    unfold processRowFromDB coalesceCloseTime
    cases row.closeTime with
    | none => exact le_rfl
    | some c => exact fromMySQLDateTime_le c
  refine Prod.Lex.toLex_le_toLex.mpr ?_
  rcases hclose.lt_or_eq with hlt | heq
  · exact .inl hlt
  refine .inr ⟨congrArg toDual heq.symm, Prod.Lex.toLex_le_toLex.mpr ?_⟩
  rcases (fromMySQLDateTime_le row.startTime).lt_or_eq with hlt | hsame
  · exact .inl hlt
  · exact .inr ⟨congrArg toDual hsame.symm, le_rfl⟩

end Row

variable (rows : List (Row ρ α)) (request : ListRequest ρ α) (token : Option (PageToken ρ))

def matching : List (Row ρ α) :=
  rows.filter fun row => row.namespaceID = request.namespaceID ∧ request.query row

/-- Go `SelectFromVisibility`: the statement, and the rows as they are read back. -/
def selectFromVisibility : List (Row ρ α) :=
  ((((matching rows request).filter fun row => ∀ t ∈ token, row.Follows t).mergeSort
    (·.token.key ≤ ·.token.key)).take request.pageSize).map Row.processRowFromDB

/-- There may be another page after a full one. -/
def listWorkflowExecutions : List (Row ρ α) × Option (PageToken ρ) :=
  let selected := selectFromVisibility rows request token
  match selected.getLast? with
  | none => ([], none)
  | some lastRow => (selected, if selected.length = request.pageSize then some lastRow.token else none)

def rowsLeft : List (Row ρ α) := rowsAfter (·.token.key) (matching rows request) (token.map PageToken.key)

lemma selectFromVisibility_eq : selectFromVisibility rows request token =
    ((rowsLeft rows request token).take request.pageSize).map Row.processRowFromDB := by
  cases token <;> simp [selectFromVisibility, rowsLeft, rowsAfter, Row.follows_iff]

variable {rows request}

/-- A page with its token, in terms of the rows that are left. -/
lemma listWorkflowExecutions_eq (hsize : 1 ≤ request.pageSize) : listWorkflowExecutions rows request token =
    (((rowsLeft rows request token).take request.pageSize).map Row.processRowFromDB,
      (rowsLeft rows request token)[request.pageSize - 1]?.map (·.processRowFromDB.token)) := by
  simp only [listWorkflowExecutions, selectFromVisibility_eq]
  generalize rowsLeft rows request token = left
  by_cases hfull : request.pageSize ≤ left.length
  · have hlast : (left.take request.pageSize).getLast? = left[request.pageSize - 1]? := by
      rw [getLast?_eq_getElem?, length_take, getElem?_take_of_lt (by omega), Nat.min_eq_left hfull]
    rw [getLast?_map, hlast, List.getElem?_eq_getElem (show request.pageSize - 1 < left.length by omega)]
    simp [hfull]
  rw [take_of_length_le (by omega), List.getElem?_eq_none (show left.length ≤ request.pageSize - 1 by omega)]
  cases hleft : (left.map Row.processRowFromDB).getLast? with
  | none =>
    rw [getLast?_eq_none_iff.mp hleft]
    rfl
  | some lastRow =>
    have hne : left.length ≠ request.pageSize := by omega
    simp [hne]

lemma rowsLeft_next (hsize : 1 ≤ request.pageSize) (hkeys : ((matching rows request).map (·.token.key)).Nodup)
    {i b} (hget : (rowsLeft rows request token)[(i + 1) * request.pageSize - 1]? = some b) :
    rowsLeft rows request (some b.processRowFromDB.token) =
      ((rowsLeft rows request token).drop ((i + 1) * request.pageSize)).filter
        (b.processRowFromDB.token.key < ·.token.key) := by
  have hpos : 0 < (i + 1) * request.pageSize := Nat.mul_pos i.succ_pos hsize
  have hnext := rowsAfter_next hkeys hget b.key_le_processed
  rwa [Nat.sub_add_cancel hpos] at hnext

/-- The matching rows, each once and in the order of the listing. -/
def Listing (rows : List (Row ρ α)) (request : ListRequest ρ α) (order : List (Row ρ α)) : Prop :=
  order.Perm (matching rows request) ∧ order.Pairwise Row.Precedes

/-- The rows of later pages come after the last row of each full page as it is read back. -/
def NoRowSkipped (request : ListRequest ρ α) (order : List (Row ρ α)) : Prop :=
  ∀ i b, order[(i + 1) * request.pageSize - 1]? = some b →
    ∀ row ∈ order.drop ((i + 1) * request.pageSize), row.Follows b.processRowFromDB.token

end FastOrchestration.Persistence.Visibility
