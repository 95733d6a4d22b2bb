import FastOrchestration.Lib.Run
import FastOrchestration.Scheduler.Ranges

/-!
# The grammar of calendar ranges

What the texts of a calendar stand for, after the comment of `makeRange`: `*`, `x`, `x-z`, `x-z/y`, `x/y` and
lists of these, with 7 for Sunday. An item has a reading (`Item.Reads`), which is unique, and a reading has
values. `calendar_ranges` says that the ranges of a calendar enumerate the values that its texts denote, and
pass the validation.

There are texts for which they do not, see `calendar_ranges_differ`. For years, `*` alone is the empty list,
which stands for every year. On days of the week, a range from 1 to 7 with step 1 loses its Sunday. A step that
does not fit into 32 bits becomes another step. `Part.Plain` leaves out the last two.
-/

namespace FastOrchestration.Scheduler

open Lib List CalendarField GoText Range Part

/-! ### The grammar -/

structure Token (f : CalendarField) (w : List Char) (x : Int) : Prop where
  dash : '-' ∉ w
  slash : '/' ∉ w
  reads : readValue f.parseMode w = .ok x

inductive Base where
  | all
  | value (x : Int)
  | interval (x z : Int)

inductive Base.Reads (f : CalendarField) : List Char → Base → Prop
  | all : Reads f ['*'] .all
  | value {w : List Char} {x : Int} (hx : Token f w x) : Reads f w (.value x)
  | interval {w w' : List Char} {x z : Int} (hx : Token f w x) (hz : Token f w' z) :
    Reads f (w ++ '-' :: w') (.interval x z)

@[ext]
structure Item where
  base : Base
  step : Option Int

inductive Item.Reads (f : CalendarField) : List Char → Item → Prop
  | plain {t : List Char} {b : Base} (hb : b.Reads f t) : Reads f t ⟨b, none⟩
  | step {t w : List Char} {b : Base} {y : Int} (hb : b.Reads f t) (hy : atoi w = .ok y) (hpos : 1 ≤ y) :
    Reads f (t ++ '/' :: w) ⟨b, some y⟩

/-- The bounds and the step of an item: a single value with a step goes up to the maximum. -/
def Item.part (f : CalendarField) (i : Item) : Part :=
  let step := i.step.getD 1
  match i.base with
  | .all => ⟨f.minVal, f.maxVal, step⟩
  | .value x => ⟨x, if i.step.isSome then f.maxVal else x, step⟩
  | .interval x z => ⟨x, z, step⟩

/-- Both 0 and 7 are Sunday. -/
def dayValue (f : CalendarField) (v : Int) : Int := if f.parseMode = .dow ∧ v = 7 then 0 else v

def Part.Denotes (f : CalendarField) (p : Part) (v : Int) : Prop :=
  ∃ k : Nat, p.start + k * p.step ≤ p.endValue ∧ v = dayValue f (p.start + k * p.step)

def Denotes (f : CalendarField) (s : List Char) (v : Int) : Prop :=
  ∃ t ∈ (fieldText f s).splitOn ',', ∃ i, Item.Reads f t i ∧ (i.part f).Denotes f v

/-- The part is not from 1 to 7 with step 1 on days of the week, and the step fits into 32 bits. -/
def Part.Plain (f : CalendarField) (p : Part) : Prop :=
  ¬ (f = .dayOfWeek ∧ p = ⟨1, 7, 1⟩) ∧ p.step < 2 ^ 31

instance (f : CalendarField) (p : Part) : Decidable (p.Plain f) := by
  unfold Plain
  infer_instance

def Plain (f : CalendarField) (s : List Char) : Prop :=
  ∀ t ∈ (fieldText f s).splitOn ',', ∀ i, Item.Reads f t i → (i.part f).Plain f

/-! ### Readings are unique -/

variable {f : CalendarField}

lemma not_token_star {x} : ¬ Token f ['*'] x := by
  intro h
  have hreads := h.reads
  cases f <;> cases hreads

lemma Base.Reads.slash {t} {b : Base} (h : b.Reads f t) : '/' ∉ t := by
  cases h with
  | all => decide
  | value hx => exact hx.slash
  | interval hx hz => simp [hx.slash, hz.slash]

lemma Base.Reads.inv {t} {b : Base} (h : b.Reads f t) : if t = ['*'] then b = .all else match cut '-' t with
    | none => ∃ x, b = .value x ∧ readValue f.parseMode t = .ok x
    | some (w, w') => ∃ x z, b = .interval x z ∧ readValue f.parseMode w = .ok x ∧ readValue f.parseMode w' = .ok z := by
  cases h with
  | all => rfl
  | value hx =>
    rw [if_neg fun ht => not_token_star (ht ▸ hx), cut_eq_none.mpr hx.dash]
    exact ⟨_, rfl, hx.reads⟩
  | @interval w w' x z hx hz =>
    have ht : w ++ '-' :: w' ≠ ['*'] := fun ht => absurd (ht ▸ mem_append_right w mem_cons_self) (by decide)
    rw [if_neg ht, cut_eq_some.mpr ⟨rfl, hx.dash⟩]
    exact ⟨_, _, rfl, hx.reads, hz.reads⟩

lemma Base.Reads.unique {t} {b b' : Base} (h : b.Reads f t) (h' : b'.Reads f t) : b = b' := by
  have hi := h.inv
  have hi' := h'.inv
  by_cases ht : t = ['*']
  · rw [if_pos ht] at hi hi'
    exact hi.trans hi'.symm
  rw [if_neg ht] at hi hi'
  cases hcut : cut '-' t with
  | none =>
    rw [hcut] at hi hi'
    obtain ⟨x, rfl, hx⟩ := hi
    obtain ⟨x', rfl, hx'⟩ := hi'
    cases hx.symm.trans hx'
    rfl
  | some p =>
    rw [hcut] at hi hi'
    obtain ⟨x, z, rfl, hx, hz⟩ := hi
    obtain ⟨x', z', rfl, hx', hz'⟩ := hi'
    cases hx.symm.trans hx'
    cases hz.symm.trans hz'
    rfl

lemma Item.Reads.inv {t} {i : Item} (h : i.Reads f t) : cut '/' t = none ∧ i.step = none ∧ i.base.Reads f t ∨
      ∃ rest w y, cut '/' t = some (rest, w) ∧ i.step = some y ∧ i.base.Reads f rest ∧ atoi w = .ok y := by
  cases h with
  | plain hb => exact .inl ⟨cut_eq_none.mpr hb.slash, rfl, hb⟩
  | step hb hy hpos => exact .inr ⟨_, _, _, cut_eq_some.mpr ⟨rfl, hb.slash⟩, rfl, hb, hy⟩

lemma Item.Reads.unique {t} {i i' : Item} (h : i.Reads f t) (h' : i'.Reads f t) : i = i' := by
  rcases h.inv with ⟨hcut, hstep, hb⟩ | ⟨rest, w, y, hcut, hstep, hb, hy⟩
  · rcases h'.inv with ⟨-, hstep', hb'⟩ | ⟨rest', w', y', hcut', -⟩
    · exact Item.ext (hb.unique hb') (hstep.trans hstep'.symm)
    · cases hcut.symm.trans hcut'
  rcases h'.inv with ⟨hcut', -⟩ | ⟨rest', w', y', hcut', hstep', hb', hy'⟩
  · cases hcut.symm.trans hcut'
  cases hcut.symm.trans hcut'
  cases hy.symm.trans hy'
  exact Item.ext (hb.unique hb') (hstep.trans hstep'.symm)

/-! ### What is parsed is a reading -/

structure Part.Bounded (f : CalendarField) (p : Part) : Prop where
  minVal_le : f.minVal ≤ p.start
  start_le : p.start ≤ p.endValue
  le_maxVal : p.endValue ≤ f.maxVal
  step : 1 ≤ p.step

lemma Part.Bounded.fits {p : Part} (hb : p.Bounded f) : 0 ≤ p.start ∧ p.endValue < 2 ^ 31 :=
  ⟨le_trans (by cases f <;> decide) hb.minVal_le, lt_of_le_of_lt hb.le_maxVal (by cases f <;> decide)⟩

lemma parseValue_ok {s min max x mode} (h : parseValue s min max mode = .ok x) :
    readValue mode s = .ok x ∧ min ≤ x ∧ x ≤ max := by
  obtain ⟨i, hi, h⟩ := bind_ok h
  split at h
  · cases h
  next hbounds =>
  cases h
  exact ⟨hi, by omega⟩

lemma splitStep_ok {t rest step} (h : splitStep f t = .ok (rest, step)) : '/' ∉ rest ∧ (step = none ∧ t = rest ∨
      ∃ w y, step = some y ∧ 1 ≤ y ∧ atoi w = .ok y ∧ t = rest ++ '/' :: w) := by
  unfold splitStep at h
  split at h
  · cases h
  split at h
  · next hcut =>
    cases h
    exact ⟨cut_eq_none.mp hcut, .inl ⟨rfl, rfl⟩⟩
  · cases h
  next rest' w hne hcut =>
  obtain ⟨y, hy, h⟩ := bind_ok h
  split at h
  · cases h
  next hpos =>
  cases h
  obtain ⟨rfl, hslash⟩ := cut_eq_some.mp hcut
  exact ⟨hslash, .inr ⟨w, y, rfl, by omega, hy, rfl⟩⟩

lemma parseBounds_ok {t hasStep start endValue} (hslash : '/' ∉ t)
    (h : parseBounds f t hasStep = .ok (start, endValue)) :
    (f.minVal ≤ start ∧ start ≤ endValue ∧ endValue ≤ f.maxVal) ∧
      ∃ b : Base, b.Reads f t ∧ ∀ step : Option Int, step.isSome = hasStep →
        Item.part f ⟨b, step⟩ = ⟨start, endValue, step.getD 1⟩ := by
  unfold parseBounds at h
  split at h
  · next hstar =>
    cases h
    subst hstar
    exact ⟨⟨le_rfl, by cases f <;> decide, le_rfl⟩, .all, .all, fun _ _ => rfl⟩
  split at h
  · next a b hcut =>
    obtain ⟨rfl, hdash⟩ := cut_eq_some.mp hcut
    split at h
    · cases h
    next hcount =>
    have hb : '-' ∉ b := by
      rw [← count_eq_zero]
      simp only [count_append, count_cons_self] at hcount
      omega
    simp only [mem_append, mem_cons, not_or] at hslash
    split at h
    · cases h
    next x hx =>
    split at h
    · cases h
    next z hz =>
    cases h
    obtain ⟨hxr, hxmin, hxmax⟩ := parseValue_ok hx
    obtain ⟨hzr, hzmin, hzmax⟩ := parseValue_ok hz
    exact ⟨⟨hxmin, hzmin, hzmax⟩, _, .interval ⟨hdash, hslash.1, hxr⟩ ⟨hb, hslash.2.2, hzr⟩, fun _ _ => rfl⟩
  next hcut =>
  split at h
  · cases h
  next x hx =>
  cases h
  obtain ⟨hxr, hxmin, hxmax⟩ := parseValue_ok hx
  refine ⟨⟨hxmin, ?_⟩, _, .value ⟨cut_eq_none.mp hcut, hslash, hxr⟩, ?_⟩
  · split
    · exact ⟨hxmax, le_rfl⟩
    · exact ⟨le_rfl, hxmax⟩
  rintro step rfl
  rfl

theorem parsePart_ok {t} {p : Part} (h : parsePart f t = .ok p) :
    p.Bounded f ∧ ∃ i : Item, i.Reads f t ∧ i.part f = p := by
  obtain ⟨⟨rest, step⟩, hstep, h⟩ := bind_ok h
  obtain ⟨⟨start, endValue⟩, hbounds, h⟩ := bind_ok h
  cases h
  obtain ⟨hslash, hcases⟩ := splitStep_ok hstep
  obtain ⟨⟨hmin, hle, hmax⟩, b, hb, hpart⟩ := parseBounds_ok hslash hbounds
  rcases hcases with ⟨rfl, rfl⟩ | ⟨w, y, rfl, hpos, hy, rfl⟩
  · exact ⟨⟨hmin, hle, hmax, le_rfl⟩, _, .plain hb, hpart none rfl⟩
  · exact ⟨⟨hmin, hle, hmax, hpos⟩, _, .step hb hy hpos, hpart (some y) rfl⟩

/-! ### The values of a part -/

lemma int32_eq {i} (h0 : 0 ≤ i) (h : i < 2 ^ 31) : int32 i = i := by
  unfold int32
  rw [Int.bmod_def]
  omega

section encode

variable {start endValue step : Int}

lemma mem_encode (h0 : 0 ≤ start) (hle : start ≤ endValue) (hmax : endValue < 2 ^ 31) (hstep : 1 ≤ step)
    (hfit : step < 2 ^ 31) {v} :
    v ∈ (encode start endValue step).values ↔ ∃ k : Nat, start + k * step ≤ endValue ∧ v = start + k * step := by
  have hstart : (encode start endValue step).start = start := int32_eq h0 (by omega)
  have hs : (encode start endValue step).step = if step = 1 then 0 else step := by
    show int32 _ = _
    split <;> apply int32_eq <;> omega
  have he : (encode start endValue step).endValue = if start = endValue then 0 else endValue := by
    show int32 _ = _
    split <;> apply int32_eq <;> omega
  have hsv : (encode start endValue step).stepValue = step := by
    rw [stepValue, hs]
    split_ifs <;> omega
  have hlast : (encode start endValue step).lastValue = endValue := by
    rw [lastValue, he, hstart]
    split_ifs <;> omega
  rw [mem_values, hsv, hlast, hstart]
  · constructor
    · rintro ⟨k, rfl, hk⟩
      exact ⟨k, hk, rfl⟩
    rintro ⟨k, hk, rfl⟩
    exact ⟨k, rfl, hk⟩
  rw [hs]
  split <;> omega

lemma encode_inBounds (hmin : f.minVal ≤ start) (h0 : 0 ≤ start) (hle : start ≤ endValue)
    (hmax : endValue ≤ f.maxRange) (hfit : endValue < 2 ^ 31) (hstep : 1 ≤ step) (hstepfit : step < 2 ^ 31) :
    (encode start endValue step).InBounds f := by
  have hstart : (encode start endValue step).start = start := int32_eq h0 (by omega)
  refine ⟨by rw [hstart]; exact hmin, by rw [hstart]; omega, ?_, ?_⟩
  · rw [hstart]
    show int32 _ = 0 ∨ _ ≤ int32 _ ∧ int32 _ ≤ _
    split
    · exact .inl rfl
    rw [int32_eq (by omega) hfit]
    exact .inr ⟨hle, hmax⟩
  show 0 ≤ int32 _
  split
  · exact le_rfl
  rw [int32_eq (by omega) hstepfit]
  omega

end encode

lemma parseMode_dow : f.parseMode = .dow ↔ f = .dayOfWeek := by
  cases f <;> simp [parseMode]

namespace Part

variable {p : Part}

lemma tmod_eq_zero_iff {start step : Int} (hstart : start ≤ 7) (hstep : 1 ≤ step) :
    (7 - start).tmod step = 0 ↔ ∃ k : Nat, start + k * step = 7 := by
  rw [← Int.dvd_iff_tmod_eq_zero]
  constructor
  · rintro ⟨k, hk⟩
    have hk0 : 0 ≤ k := by
      by_contra hneg
      have : step * k < 0 := Int.mul_neg_of_pos_of_neg (by omega) (by omega)
      omega
    obtain ⟨k, rfl⟩ := Int.eq_ofNat_of_zero_le hk0
    rw [Int.mul_comm] at hk
    exact ⟨k, by omega⟩
  rintro ⟨k, hk⟩
  refine ⟨k, ?_⟩
  rw [Int.mul_comm]
  omega

/-- A part of days of the week that goes up to 7 stands for the values below and, if it comes to 7, for 0. -/
lemma denotes_sunday {start step v} : Denotes .dayOfWeek ⟨start, 7, step⟩ v ↔
      (∃ k : Nat, start + k * step ≤ 6 ∧ v = start + k * step) ∨ v = 0 ∧ ∃ k : Nat, start + k * step = 7 := by
  constructor
  · rintro ⟨k, hk, rfl⟩
    by_cases h7 : start + k * step = 7
    · exact .inr ⟨by simp [dayValue, parseMode, h7], k, h7⟩
    refine .inl ⟨k, ?_, by simp [dayValue, h7]⟩
    simp only at hk
    omega
  rintro (⟨k, hk, rfl⟩ | ⟨rfl, k, hk⟩)
  · refine ⟨k, ?_, ?_⟩
    · simp only
      omega
    have h7 : start + k * step ≠ 7 := by omega
    simp [dayValue, h7]
  · exact ⟨k, hk.le, by simp [dayValue, parseMode, hk]⟩

lemma mem_sunday {v} : v ∈ values ⟨0, 0, 0⟩ ↔ v = 0 := by
  rw [mem_values (by decide)]
  constructor
  · rintro ⟨k, rfl, hk⟩
    simp [lastValue, stepValue] at hk ⊢
    exact hk
  rintro rfl
  exact ⟨0, rfl, le_rfl⟩

lemma mem_ranges_sunday {start step v} (h0 : 0 ≤ start) (hle : start ≤ 7) (hstep : 1 ≤ step)
    (hfit : step < 2 ^ 31) (hplain : ¬ (start = 1 ∧ step = 1)) :
    (∃ r ∈ ranges .dayOfWeek ⟨start, 7, step⟩, v ∈ r.values) ↔ Denotes .dayOfWeek ⟨start, 7, step⟩ v := by
  rw [denotes_sunday, ← tmod_eq_zero_iff hle hstep]
  unfold ranges
  rw [if_pos ⟨rfl, rfl⟩]
  simp only
  by_cases h7 : start = 7
  · -- only 7 itself
    subst h7
    have hnone : ∀ k : Nat, ¬ 7 + k * step ≤ 6 := by
      intro k
      have : 0 ≤ k * step := Int.mul_nonneg (by omega) (by omega)
      omega
    have hextra : step > 1 ∨ step = 1 ∧ (7 : Int) > 1 := by omega
    rw [if_pos ⟨by simp, hextra⟩]
    simp [hnone, mem_sunday]
  have hmem := @mem_encode start 6 step h0 (by omega) (by omega) hstep hfit v
  split
  · next hextra => simp [hmem, mem_sunday, hextra.1, or_comm]
  next hextra =>
  simp only [mem_singleton, exists_eq_left, hmem]
  constructor
  · exact .inl
  rintro (hlow | ⟨rfl, hmod⟩)
  · exact hlow
  -- the range starts at 0 and has it anyway
  have hstart : start = 0 := by
    omega
  exact ⟨0, by simp [hstart]⟩

theorem mem_ranges {v} (hb : p.Bounded f) (hp : p.Plain f) : (∃ r ∈ p.ranges f, v ∈ r.values) ↔ p.Denotes f v := by
  obtain ⟨h0, hmax⟩ := hb.fits
  by_cases hdow : f.parseMode = .dow ∧ p.endValue = 7
  · obtain ⟨hf, h7⟩ := hdow
    obtain rfl := parseMode_dow.mp hf
    obtain ⟨start, endValue, step⟩ := p
    obtain rfl : endValue = 7 := h7
    refine mem_ranges_sunday h0 hb.start_le hb.step hp.2 ?_
    rintro ⟨rfl, rfl⟩
    exact hp.1 ⟨rfl, rfl⟩
  have hday : ∀ k : Nat, p.start + k * p.step ≤ p.endValue →
      dayValue f (p.start + k * p.step) = p.start + k * p.step := by
    intro k hk
    refine if_neg fun ⟨hf, h7⟩ => hdow ⟨hf, ?_⟩
    obtain rfl := parseMode_dow.mp hf
    have hmax := hb.le_maxVal
    simp only [maxVal] at hmax
    omega
  rw [ranges, if_neg hdow]
  simp only [mem_singleton, exists_eq_left, mem_encode h0 hb.start_le hmax hb.step hp.2, Denotes]
  constructor
  · rintro ⟨k, hk, rfl⟩
    exact ⟨k, hk, (hday k hk).symm⟩
  rintro ⟨k, hk, rfl⟩
  exact ⟨k, hk, hday k hk⟩

theorem ranges_inBounds (hb : p.Bounded f) (hp : p.Plain f) : ∀ r ∈ p.ranges f, r.InBounds f := by
  obtain ⟨h0, hmax⟩ := hb.fits
  have hle := hb.start_le
  unfold ranges
  split
  · next hdow =>
    obtain rfl := parseMode_dow.mp hdow.1
    have hzero : InBounds .dayOfWeek ⟨0, 0, 0⟩ := by decide
    split
    · next hextra =>
      split
      · simpa using hzero
      have henc := encode_inBounds hb.minVal_le h0 (by omega) (le_refl 6) (by decide) hb.step hp.2
      simpa using ⟨hzero, henc⟩
    next hextra =>
    have hlow : p.start ≤ 6 := by
      by_contra h
      obtain h7 : p.start = 7 := by omega
      have hs := hb.step
      refine hextra ⟨by simp [h7], by omega⟩
    have henc := encode_inBounds hb.minVal_le h0 hlow (le_refl 6) (by decide) hb.step hp.2
    simpa using henc
  next hdow =>
  have hrange : p.endValue ≤ f.maxRange := by
    have hle := hb.le_maxVal
    cases f <;> first | exact hle | skip
    simp only [maxVal, maxRange, parseMode, true_and] at *
    omega
  have henc := encode_inBounds hb.minVal_le h0 hle hrange hmax hb.step hp.2
  simpa using henc

end Part

/-! ### Texts -/

section parts

variable {s : List Char} {parts : List Part}

section

variable (h : ((fieldText f s).splitOn ',').mapM (parsePart f) = .ok parts)

include h

lemma mem_parts {p} : p ∈ parts ↔ ∃ t ∈ (fieldText f s).splitOn ',', ∃ i, Item.Reads f t i ∧ i.part f = p := by
  obtain ⟨hto, hfrom⟩ := mapM_ok h
  constructor
  · intro hp
    obtain ⟨t, ht, hparse⟩ := hfrom p hp
    exact ⟨t, ht, (parsePart_ok hparse).2⟩
  rintro ⟨t, ht, i, hi, rfl⟩
  obtain ⟨p, hp, hparse⟩ := hto t ht
  obtain ⟨-, i', hi', rfl⟩ := parsePart_ok hparse
  rwa [hi.unique hi']

lemma denotes_iff {v} : Denotes f s v ↔ ∃ p ∈ parts, p.Denotes f v := by
  simp only [mem_parts h]
  constructor
  · rintro ⟨t, ht, i, hi, hv⟩
    exact ⟨_, ⟨t, ht, i, hi, rfl⟩, hv⟩
  rintro ⟨p, ⟨t, ht, i, hi, rfl⟩, hv⟩
  exact ⟨t, ht, i, hi, hv⟩

lemma plain_iff : Plain f s ↔ ∀ p ∈ parts, p.Plain f := by
  simp only [mem_parts h]
  constructor
  · rintro hplain p ⟨t, ht, i, hi, rfl⟩
    exact hplain t ht i hi
  · exact fun hplain t ht i hi => hplain _ ⟨t, ht, i, hi, rfl⟩

lemma bounded_of_mapM : ∀ p ∈ parts, p.Bounded f := by
  intro p hp
  obtain ⟨t, -, hparse⟩ := (mapM_ok h).2 p hp
  exact (parsePart_ok hparse).1

end

end parts

def EveryYear (f : CalendarField) (s : List Char) : Prop := f = .year ∧ fieldText f s = ['*']

instance (f : CalendarField) (s : List Char) : Decidable (EveryYear f s) := by
  unfold EveryYear
  infer_instance

lemma makeRange_ok {s rs} (h : makeRange f s = .ok rs) : EveryYear f s ∧ rs = [] ∨ ¬ EveryYear f s ∧ ∃ parts,
      ((fieldText f s).splitOn ',').mapM (parsePart f) = .ok parts ∧ rs = parts.flatMap (·.ranges f) := by
  have hyear : f.parseMode = .year ↔ f = .year := by
    cases f <;> simp [parseMode]
  unfold makeRange at h
  simp only [hyear, and_comm] at h
  split at h
  · next hevery =>
    cases h
    exact .inl ⟨hevery, rfl⟩
  next hnot =>
  obtain ⟨parts, hparts, h⟩ := bind_ok h
  cases h
  exact .inr ⟨hnot, parts, hparts, rfl⟩

lemma makeRange_inBounds {s rs} (h : makeRange f s = .ok rs) (hp : Plain f s) : ∀ r ∈ rs, r.InBounds f := by
  rcases makeRange_ok h with ⟨-, rfl⟩ | ⟨-, parts, hparts, rfl⟩
  · simp
  intro r hr
  obtain ⟨p, hmem, hr⟩ := mem_flatMap.mp hr
  exact ranges_inBounds (bounded_of_mapM hparts p hmem) ((plain_iff hparts).mp hp p hmem) r hr

def collectValue (values : List Int) (i : Int) : Except CompileFailure (List Int) := .ok (values ++ [i])

lemma foldlM_collectValue (values vs : List Int) : vs.foldlM collectValue values = .ok (values ++ vs) := by
  induction vs generalizing values with
  | nil =>
    rw [append_nil]
    rfl
  | cons v vs ih =>
    show vs.foldlM collectValue (values ++ [v]) = _
    rw [ih, append_assoc]
    rfl

lemma makeRange_enumerates {s rs} (h : makeRange f s = .ok rs) (hp : Plain f s) (hyear : ¬ EveryYear f s) :
    ∃ fuel values, iterateRanges collectValue fuel rs [] = .ok values ∧ ∀ v, v ∈ values ↔ Denotes f s v := by
  obtain ⟨fuel, hfuel⟩ := exists_fuel rs
  have hstep : ∀ r ∈ rs, 0 ≤ r.step := fun r hr => (makeRange_inBounds h hp r hr).step
  refine ⟨fuel, rs.flatMap values, ?_, fun v => ?_⟩
  · rw [iterateRanges_eq collectValue hstep hfuel, foldlM_collectValue]
    rfl
  rcases makeRange_ok h with ⟨hevery, -⟩ | ⟨-, parts, hparts, rfl⟩
  · exact absurd hevery hyear
  have hmem : ∀ p ∈ parts, (∃ r ∈ p.ranges f, v ∈ r.values) ↔ p.Denotes f v := fun p hmem =>
    mem_ranges (bounded_of_mapM hparts p hmem) ((plain_iff hparts).mp hp p hmem)
  rw [denotes_iff hparts, flatMap_assoc]
  simp only [mem_flatMap]
  exact exists_congr fun p => and_congr_right fun hin => hmem p hin

lemma parseCalendarToStructured_ok {cal : CalendarSpec} {ss : StructuredCalendarSpec}
    (h : parseCalendarToStructured cal = .ok ss) :
    (∀ f, makeRange f (cal.text f) = .ok (ss.ranges f)) ∧ ss.comment = cal.comment := by
  unfold parseCalendarToStructured at h
  simp only [ne_eq, ite_not] at h
  obtain ⟨hnone, rfl⟩ := guard_ok h
  refine ⟨fun f => ?_, rfl⟩
  have hf : errorOf (makeRange f (cal.text f)) = none :=
    filterMap_eq_nil_iff.mp hnone f (mem_all f)
  have hok : makeRange f (cal.text f) = .ok ((makeRange f (cal.text f)).toOption.getD []) := by
    cases hm : makeRange f (cal.text f) with
    | error e =>
      rw [hm] at hf
      cases hf
    | ok rs => rfl
  rw [hok]
  cases f <;> rfl

/-- The ranges that `makeRange` gives for a text enumerate the values that the text denotes, except that all
years are the empty list; and the calendar that is made of such ranges is valid. -/
theorem calendar_ranges : (∀ f s rs, makeRange f s = .ok rs → Plain f s → if EveryYear f s then rs = []
      else ∃ fuel values, iterateRanges collectValue fuel rs [] = .ok values ∧ ∀ v, v ∈ values ↔ Denotes f s v) ∧
    ∀ cal ss, parseCalendarToStructured cal = .ok ss → (∀ f, Plain f (cal.text f)) →
      cal.comment.utf8ByteSize ≤ maxCommentLen → validateStructuredCalendar ss = .ok () := by
  refine ⟨fun f s rs h hp => ?_, fun cal ss h hp hcomment => ?_⟩
  · split
    · next hyear =>
      rcases makeRange_ok h with ⟨-, rfl⟩ | ⟨hnot, -⟩
      · rfl
      · exact absurd hyear hnot
    · next hyear => exact makeRange_enumerates h hp hyear
  obtain ⟨hranges, hc⟩ := parseCalendarToStructured_ok h
  refine validateStructuredCalendar_ok.mpr ⟨fun f => makeRange_inBounds (hranges f) (hp f), ?_⟩
  rw [hc]
  exact hcomment

/-- A weekday text with names, a step and the other number of Sunday. -/
def weekdays : List Char := ['m', 'o', 'n', '-', 'F', 'R', 'I', '/', '2', ',', '7']

lemma weekdays_parts :
    ((fieldText .dayOfWeek weekdays).splitOn ',').mapM (parsePart .dayOfWeek) = .ok [⟨1, 5, 2⟩, ⟨7, 7, 1⟩] := by
  decide +kernel

lemma weekdays_plain : ∀ f, Plain f (CalendarSpec.text { dayOfWeek := weekdays } f)
  | .second | .minute | .hour => (@plain_iff _ _ [⟨0, 0, 1⟩] (by decide +kernel)).mpr (by decide)
  | .dayOfWeek => (plain_iff weekdays_parts).mpr (by decide)
  | .dayOfMonth => (@plain_iff .dayOfMonth _ [⟨1, 31, 1⟩] (by decide +kernel)).mpr (by decide)
  | .month => (@plain_iff .month _ [⟨1, 12, 1⟩] (by decide +kernel)).mpr (by decide)
  | .year => (@plain_iff .year _ [⟨2000, 2100, 1⟩] (by decide +kernel)).mpr (by decide)

theorem calendar_ranges_weekdays :
    (∃ fuel values, iterateRanges collectValue fuel [⟨1, 5, 2⟩, ⟨0, 0, 0⟩] [] = .ok values ∧
      ∀ v, v ∈ values ↔ Denotes .dayOfWeek weekdays v) ∧
    ∃ ss, parseCalendarToStructured { dayOfWeek := weekdays } = .ok ss ∧ validateStructuredCalendar ss = .ok () := by
  have hranges : makeRange .dayOfWeek weekdays = .ok [⟨1, 5, 2⟩, ⟨0, 0, 0⟩] := by decide +kernel
  constructor
  · have h := calendar_ranges.1 .dayOfWeek weekdays _ hranges (weekdays_plain .dayOfWeek)
    exact h
  obtain ⟨ss, hss, -⟩ : ∃ ss, parseCalendarToStructured { dayOfWeek := weekdays } = .ok ss ∧
      ss.dayOfWeek = [⟨1, 5, 2⟩, ⟨0, 0, 0⟩] := by decide +kernel
  exact ⟨ss, hss, calendar_ranges.2 _ ss hss weekdays_plain (by decide)⟩

def hugeStep : List Char := ['5', '/', '4', '2', '9', '4', '9', '6', '7', '2', '9', '7']

/-- The year `*` has no range. The weekdays `1-7` are enumerated without Sunday, and the seconds
`5/4294967297` with the step 1. -/
theorem calendar_ranges_differ :
    (makeRange .year ['*'] = .ok [] ∧ iterateRanges collectValue 10 [] [] = .ok [] ∧ Denotes .year ['*'] 2024) ∧
    (makeRange .dayOfWeek ['1', '-', '7'] = .ok [⟨1, 6, 0⟩] ∧
      iterateRanges collectValue 10 [⟨1, 6, 0⟩] [] = .ok [1, 2, 3, 4, 5, 6] ∧
      Denotes .dayOfWeek ['1', '-', '7'] 0) ∧
    (makeRange .second hugeStep = .ok [⟨5, 59, 1⟩] ∧
      (∃ values, iterateRanges collectValue 100 [⟨5, 59, 1⟩] [] = .ok values ∧ 6 ∈ values) ∧
      ¬ Denotes .second hugeStep 6) := by
  refine ⟨⟨by decide +kernel, rfl, ?_⟩, ⟨by decide +kernel, by decide +kernel, ?_⟩, by decide +kernel, by decide +kernel, ?_⟩
  · rw [@denotes_iff .year ['*'] [⟨2000, 2100, 1⟩] (by decide +kernel)]
    exact ⟨_, mem_cons_self, 24, by decide, rfl⟩
  · rw [@denotes_iff .dayOfWeek ['1', '-', '7'] [⟨1, 7, 1⟩] (by decide +kernel)]
    exact ⟨_, mem_cons_self, 6, by decide, rfl⟩
  rw [@denotes_iff .second hugeStep [⟨5, 59, 4294967297⟩] (by decide +kernel)]
  rintro ⟨p, hp, k, hk, hv⟩
  obtain rfl := mem_singleton.mp hp
  simp only [dayValue, parseMode] at hk hv
  omega

end FastOrchestration.Scheduler
