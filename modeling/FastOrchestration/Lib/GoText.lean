import Mathlib

/-!
# Texts as Go reads them

The functions of `strings` and `strconv` that a small parser needs, over lists of characters. What is said
about them here is how a text is cut at a separator, and that the digits of a number are read back.
-/

namespace FastOrchestration.Lib.GoText

def isSpace (c : Char) : Bool :=
  c ∈ ['\t', '\n', '\x0b', '\x0c', '\r', ' ', '\u0085', '\u00a0', '\u1680', '\u2028', '\u2029', '\u202f',
    '\u205f', '\u3000'] || ('\u2000' ≤ c && c ≤ '\u200a')

def trimSpace (s : List Char) : List Char :=
  ((s.dropWhile isSpace).reverse.dropWhile isSpace).reverse

/-- Go `strings.Cut`: what is before and after the first separator. -/
def cut (sep : Char) : List Char → Option (List Char × List Char)
  | [] => none
  | c :: s => if c = sep then some ([], s) else (cut sep s).map fun (a, b) => (c :: a, b)

/-- Cuts at the index that Go `strings.LastIndex` finds. -/
def cutLast (sep : Char) (s : List Char) : Option (List Char × List Char) :=
  (cut sep s.reverse).map fun (suffix, front) => (front.reverse, suffix.reverse)

/-- Go `unicode.ToLower`, as far as the result is in ASCII: the capital I with a dot and the Kelvin sign are
the two characters outside ASCII that have such a lower case. -/
def toLower (c : Char) : Char :=
  if c = '\u0130' then 'i' else if c = '\u212a' then 'k' else c.toLower

def byteLength (s : List Char) : Nat := (s.map Char.utf8Size).sum

def digitsValue (s : List Char) : Nat := s.foldl (fun n c => n * 10 + (c.toNat - '0'.toNat)) 0

/-- Go `strconv.Atoi`, with `int` of 64 bits. -/
def atoi (s : List Char) : Except String Int :=
  let (negative, digits) : Bool × List Char :=
    match s with
    | '-' :: rest => (true, rest)
    | '+' :: rest => (false, rest)
    | rest => (false, rest)
  if digits = [] ∨ ¬ digits.all Char.isDigit then
    .error ("strconv.Atoi: parsing " ++ (String.ofList s).quote ++ ": invalid syntax")
  else
    let n : Int := if negative then -digitsValue digits else digitsValue digits
    if n < -2 ^ 63 ∨ 2 ^ 63 ≤ n then
      .error ("strconv.Atoi: parsing " ++ (String.ofList s).quote ++ ": value out of range")
    else .ok n

def fields (s : List Char) : List (List Char) := (s.splitOnP isSpace).filter (· ≠ [])

lemma cut_eq_none {sep s} : cut sep s = none ↔ sep ∉ s := by
  induction s with
  | nil => simp [cut]
  | cons c s ih =>
    by_cases hc : c = sep
    · simp [cut, hc]
    · simp [cut, hc, ih, Ne.symm hc]

lemma cut_eq_some {sep s a b} : cut sep s = some (a, b) ↔ s = a ++ sep :: b ∧ sep ∉ a := by
  induction s generalizing a with
  | nil => simp [cut]
  | cons c s ih =>
    by_cases hc : c = sep
    · subst hc
      cases a with
      | nil => simp [cut]
      | cons d a => simp +contextual [cut]
    rw [cut, if_neg hc, Option.map_eq_some_iff]
    constructor
    · rintro ⟨⟨a', b'⟩, h, heq⟩
      cases heq
      obtain ⟨rfl, hn⟩ := ih.mp h
      exact ⟨rfl, by simp [hn, Ne.symm hc]⟩
    rintro ⟨heq, hn⟩
    cases a with
    | nil => exact absurd (List.cons.inj heq).1 hc
    | cons d a =>
      obtain ⟨rfl, rfl⟩ := List.cons.inj heq
      exact ⟨(a, b), ih.mpr ⟨rfl, fun h => hn (List.mem_cons_of_mem _ h)⟩, rfl⟩

lemma cutLast_append {sep : Char} {front suffix : List Char} (h : sep ∉ suffix) :
    cutLast sep (front ++ sep :: suffix) = some (front, suffix) := by
  have hcut : cut sep (suffix.reverse ++ sep :: front.reverse) = some (suffix.reverse, front.reverse) :=
    cut_eq_some.mpr ⟨rfl, by simpa using h⟩
  simp [cutLast, hcut]

lemma atoi_toDigits {n : Nat} (h : (n : Int) < 2 ^ 63) : atoi (Nat.toDigits 10 n) = .ok (n : Int) := by
  have hdigit : ∀ c ∈ Nat.toDigits 10 n, c.isDigit := fun c => Nat.isDigit_of_mem_toDigits (by decide) (by decide)
  have hvalue : digitsValue (Nat.toDigits 10 n) = n := by
    simpa only [digitsValue, Nat.ofDigitChars, Nat.mul_comm] using @Nat.ofDigitChars_ten_toDigits n
  cases hs : Nat.toDigits 10 n with
  | nil => exact absurd hs Nat.toDigits_ne_nil
  | cons c digits =>
    rw [hs] at hdigit hvalue
    have hsign : c ≠ '-' ∧ c ≠ '+' := by
      constructor <;> rintro rfl <;> exact absurd (hdigit _ List.mem_cons_self) (by decide)
    have hall : (c :: digits).all Char.isDigit := List.all_eq_true.mpr hdigit
    have hrange : ¬((n : Int) < -2 ^ 63 ∨ 2 ^ 63 ≤ (n : Int)) := by omega
    unfold atoi
    split
    next negative ds heq =>
    obtain ⟨rfl, rfl⟩ : negative = false ∧ ds = c :: digits := by
      split at heq <;> simp_all
    rw [if_neg (by simpa using hall), hvalue]
    exact if_neg hrange

end FastOrchestration.Lib.GoText
