import Mathlib

/-!
# Pages by key

The token for a page comes from the last row before it. If no two rows have the same key, the rows after
the key of that row are those behind the page. A token whose key lies further on leaves some of them out,
and they are on no later page.
-/

namespace FastOrchestration.Lib

open List

variable {α κ τ : Type} [LinearOrder κ] {key : α → κ} {rows : List α}

def rowsAfter (key : α → κ) (rows : List α) (token : Option κ) : List α :=
  (rows.filter fun a => ∀ k ∈ token, k < key a).mergeSort (key · ≤ key ·)

lemma mem_rowsAfter {token a} : a ∈ rowsAfter key rows token ↔ a ∈ rows ∧ ∀ k ∈ token, k < key a := by
  simp [rowsAfter]

lemma rowsAfter_perm (key : α → κ) (rows : List α) : (rowsAfter key rows none).Perm rows := by
  simpa [rowsAfter] using mergeSort_perm rows _

lemma rowsAfter_sorted (h : (rows.map key).Nodup) (token : Option κ) :
    (rowsAfter key rows token).Pairwise (key · < key ·) := by
  have hle : (rowsAfter key rows token).Pairwise (key · ≤ key ·) := by
    simpa [rowsAfter] using @pairwise_mergeSort _ (key · ≤ key ·)
      (fun a b c => by simpa using le_trans) (fun a b => by simpa using le_total _ _) _
  have hne : (rowsAfter key rows token).Pairwise (key · ≠ key ·) := by
    refine pairwise_map.mp (((mergeSort_perm _ _).map key).nodup_iff.mpr ?_)
    exact h.sublist (filter_sublist.map key)
  exact (hle.and hne).imp fun h => lt_of_le_of_ne h.1 h.2

/-- The rows after a later key are the last of those that come before. -/
lemma rowsAfter_filter (h : (rows.map key).Nodup) {token k} (hk : ∀ k' ∈ token, k' ≤ k) :
    rowsAfter key rows (some k) = (rowsAfter key rows token).filter (k < key ·) := by
  refine @Pairwise.eq_of_mem_iff _ (key · < key ·) ⟨fun a b h h' => (lt_asymm h h').elim⟩
    ⟨fun a => lt_irrefl _⟩ _ _ (rowsAfter_sorted h _) ((rowsAfter_sorted h _).filter _) fun b => ?_
  simp only [mem_rowsAfter, Option.mem_some_iff, forall_eq', mem_filter, decide_eq_true_eq]
  exact ⟨fun ⟨hb, hlt⟩ => ⟨⟨hb, fun k' hk' => (hk k' hk').trans_lt hlt⟩, hlt⟩, fun h => ⟨h.1.1, h.2⟩⟩

/-- A key from the `i`-th row on leaves only rows that stand behind it. -/
lemma rowsAfter_next (h : (rows.map key).Nodup) {token i a k}
    (hget : (rowsAfter key rows token)[i]? = some a) (hk : key a ≤ k) :
    rowsAfter key rows (some k) = ((rowsAfter key rows token).drop (i + 1)).filter (k < key ·) := by
  have ha := (mem_rowsAfter.mp (mem_of_getElem? hget)).2
  rw [rowsAfter_filter h fun k' hk' => (ha k' hk').le.trans hk]
  obtain ⟨hi, rfl⟩ := List.getElem?_eq_some_iff.mp hget
  have hsorted := rowsAfter_sorted h token
  generalize rowsAfter key rows token = left at *
  nth_rewrite 1 [← take_append_drop (i + 1) left]
  rw [filter_append, filter_eq_nil_iff.mpr, nil_append]
  intro b hb
  obtain ⟨j, hj, rfl⟩ := getElem_of_mem hb
  rw [length_take] at hj
  rw [getElem_take, decide_eq_true_eq, not_lt]
  refine le_trans ?_ hk
  rcases Nat.lt_or_eq_of_le (show j ≤ i by omega) with hlt | rfl
  · exact (pairwise_iff_getElem.mp hsorted j i _ hi hlt).le
  · exact le_rfl

def followTokens (page : Option τ → List α × Option τ) : Nat → Option τ → Option (List α)
  | 0, _ => none
  | fuel + 1, token =>
    match page token with
    | (rows, none) => some rows
    | (rows, some next) => (followTokens page fuel (some next)).map (rows ++ ·)

variable {β : Type} {page : Option τ → List β × Option τ} {left : Option τ → List α} {n : Nat} {out : α → β}
  {next : α → τ}

/-- After each full page, the token leaves all that stands behind the page. -/
def Lossless (left : Option τ → List α) (n : Nat) (next : α → τ) (token : Option τ) : Prop :=
  ∀ i a, (left token)[(i + 1) * n - 1]? = some a → left (some (next a)) = (left token).drop ((i + 1) * n)

/-- The condition for one page and for those behind it. -/
lemma lossless_iff (hn : 1 ≤ n) {token a} (hget : (left token)[n - 1]? = some a) :
    Lossless left n next token ↔
      left (some (next a)) = (left token).drop n ∧ Lossless left n next (some (next a)) := by
  have hshift : ∀ i, n + ((i + 1) * n - 1) = (i + 1 + 1) * n - 1 := fun i => by
    have : 0 < (i + 1) * n := Nat.mul_pos i.succ_pos hn
    rw [Nat.add_one_mul (i + 1)]
    omega
  have hbehind (i : Nat) (h : left (some (next a)) = (left token).drop n) :
      (left (some (next a)))[(i + 1) * n - 1]? = (left token)[(i + 1 + 1) * n - 1]? ∧
        (left (some (next a))).drop ((i + 1) * n) = (left token).drop ((i + 1 + 1) * n) := by
    rw [h, getElem?_drop, drop_drop, hshift, Nat.add_one_mul (i + 1), Nat.add_comm]
    exact ⟨rfl, rfl⟩
  constructor
  · intro h
    have hfirst : left (some (next a)) = (left token).drop n := by simpa using h 0 a (by simpa using hget)
    refine ⟨hfirst, fun i b hb => ?_⟩
    rw [(hbehind i hfirst).1] at hb
    rw [(hbehind i hfirst).2, h (i + 1) b hb]
  · rintro ⟨hfirst, h⟩ i b hb
    cases i with
    | zero =>
      obtain rfl : a = b := by simpa [hget] using hb
      simpa using hfirst
    | succ i =>
      rw [← (hbehind i hfirst).1] at hb
      rw [← (hbehind i hfirst).2, h i b hb]

/-- Following the tokens lists some of the rows, and all of them just if no token loses any. -/
lemma followTokens_spec (hn : 1 ≤ n) (hpage : ∀ token, page token = (((left token).take n).map out,
      (left token)[n - 1]?.map next))
    (hnext : ∀ token a, (left token)[n - 1]? = some a →
      (left (some (next a))).Sublist ((left token).drop n)) {fuel token} (hfuel : (left token).length < fuel) :
    ∃ listed, followTokens page fuel token = some (listed.map out) ∧ listed.Sublist (left token) ∧
      (listed = left token ↔ Lossless left n next token) := by
  induction fuel generalizing token with
  | zero => cases hfuel
  | succ fuel ih =>
    unfold followTokens
    rw [hpage]
    cases hget : (left token)[n - 1]? with
    | none =>
      have hlen := List.getElem?_eq_none_iff.mp hget
      refine ⟨left token, by rw [take_of_length_le (by omega)]; rfl, .refl _, fun _ i a ha => ?_, fun _ => rfl⟩
      have hle : n ≤ (i + 1) * n := Nat.le_mul_of_pos_left n i.succ_pos
      obtain ⟨hlt, -⟩ := List.getElem?_eq_some_iff.mp ha
      omega
    | some a =>
      have hlen := (List.getElem?_eq_some_iff.mp hget).1
      have hsub := hnext token a hget
      have hle := hsub.length_le
      rw [length_drop] at hle
      obtain ⟨rest, hfollow, hrest, hiff⟩ := ih (show (left (some (next a))).length < fuel by omega)
      refine ⟨(left token).take n ++ rest, by simp [hfollow], ?_, ?_⟩
      · nth_rewrite 2 [← take_append_drop n (left token)]
        exact (hrest.trans hsub).append_left _
      rw [lossless_iff hn hget, ← hiff]
      constructor
      · intro h
        have hdrop : rest = (left token).drop n := by
          rw [← append_cancel_left_eq ((left token).take n), h, take_append_drop]
        -- what is listed lies between the two lists, which are then the same
        have heq := hsub.eq_of_length_le (hdrop ▸ hrest.length_le)
        exact ⟨heq, hdrop.trans heq.symm⟩
      · rintro ⟨hfirst, rfl⟩
        rw [hfirst, take_append_drop]

end FastOrchestration.Lib
