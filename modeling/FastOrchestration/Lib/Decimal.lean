import Mathlib

/-!
# Numbers separated by dashes

A decimal number that is followed by a dash can be read back, also when it has a sign of its own:
behind its first character it has digits only. `repr_dash_inj` is what this gives for texts that are
put together from such numbers.
-/

namespace FastOrchestration.Lib

lemma append_cons_inj {α : Type} {a : α} {x y u v : List α} (hx : a ∉ x) (hy : a ∉ y)
    (h : x ++ a :: u = y ++ a :: v) : x = y ∧ u = v := by
  induction x generalizing y with
  | nil =>
    cases y with
    | nil => exact ⟨rfl, (List.cons.inj h).2⟩
    | cons b y => exact absurd (List.cons.inj h).1 fun hab => hy (by simp [hab])
  | cons b x ih =>
    cases y with
    | nil => exact absurd (List.cons.inj h).1 fun hab => hx (by simp [hab])
    | cons c y =>
      obtain ⟨rfl, htail⟩ := List.cons.inj h
      obtain ⟨rfl, huv⟩ := ih (fun hm => hx (by simp [hm])) (fun hm => hy (by simp [hm])) htail
      exact ⟨rfl, huv⟩

lemma dash_notMem_toDigits (n : Nat) : '-' ∉ Nat.toDigits 10 n := fun h => by
  have := Nat.isDigit_of_mem_toDigits (by decide) (by decide) h
  revert this
  decide

lemma repr_toList (n : Int) : ∃ c digits, n.repr.toList = c :: digits ∧ '-' ∉ digits := by
  cases n with
  | ofNat n =>
    cases hd : Nat.toDigits 10 n with
    | nil => exact absurd hd Nat.toDigits_ne_nil
    | cons c digits =>
      refine ⟨c, digits, by simp [Int.repr, Nat.repr_eq_ofList_toDigits, hd], fun hm => ?_⟩
      exact dash_notMem_toDigits n (by simp [hd, hm])
  | negSucc n =>
    exact ⟨'-', Nat.toDigits 10 (n + 1), by simp [Int.repr, Nat.repr_eq_ofList_toDigits], dash_notMem_toDigits _⟩

theorem repr_dash_inj {m n : Int} {x y} (h : m.repr ++ "-" ++ x = n.repr ++ "-" ++ y) : m = n ∧ x = y := by
  obtain ⟨c, ds, hm, hds⟩ := repr_toList m
  obtain ⟨d, es, hn, hes⟩ := repr_toList n
  have h := congrArg String.toList h
  simp only [String.toList_append, hm, hn, List.cons_append, List.append_assoc] at h
  obtain ⟨rfl, htail⟩ := List.cons.inj h
  obtain ⟨rfl, hxy⟩ := append_cons_inj hds hes htail
  exact ⟨Int.repr_inj.mp (String.toList_inj.mp (hm.trans hn.symm)), String.toList_inj.mp hxy⟩

end FastOrchestration.Lib
