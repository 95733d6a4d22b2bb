import Mathlib

/-!
# Wall clocks

The wall clock of a time zone whose offset from UTC changes. Instants and wall times are in seconds since
the Unix epoch. `Zone.date` is the instant that a standard library gives for a wall time: the offset found
for the wall time taken as UTC is tried, and corrected once.

`Zone.Hourly` is what a search by the hours of the wall clock needs: hours are whole, and an hour of the
clock can be shown twice or skipped. `First` is the instant at which an hour of the clock, or a later one, is
reached first. `Zone.OneHourChanges` are the zones with daylight saving; `date_first`, `date_skipped` and
`date_skipped_later` say which instant `date` chooses around a change.
-/

namespace FastOrchestration.Lib

/-- A time zone, by its seconds east of UTC at every instant. -/
structure Zone where
  offset : Int → Int

namespace Zone

variable (z : Zone)

def wall (t : Int) : Int := t + z.offset t

/-- The instant of a wall time. -/
def date (w : Int) : Int := w - z.offset (w - z.offset w)

def hour (t : Int) : Int := z.wall t / 3600

/-! ### Clocks by the hour -/

structure Hourly : Prop where
  aligned : ∀ t t', z.offset t % 3600 = z.offset t' % 3600
  block : ∀ t, z.offset (t - z.wall t % 3600) = z.offset t
  next : ∀ t, z.wall t % 3600 = 0 →
    z.wall (t + 3600) = z.wall t ∨ z.wall (t + 3600) = z.wall t + 3600 ∨ z.wall (t + 3600) = z.wall t + 7200
  apart : ∀ t, z.wall t % 3600 = 0 → z.wall (t + 3600) ≠ z.wall t + 3600 → z.wall (t + 7200) = z.wall (t + 3600) + 3600
  bounded : ∃ b, ∀ t, -b ≤ z.offset t ∧ z.offset t ≤ b

variable {z}

namespace Hourly

lemma wall_mod (h : z.Hourly) (t x : Int) : z.wall (t + x) % 3600 = (z.wall t + x) % 3600 := by
  have := h.aligned (t + x) t
  unfold wall
  omega

lemma wall_add (h : z.Hourly) {t x} (ht : z.wall t % 3600 = 0) (h0 : 0 ≤ x) (hx : x < 3600) :
    z.wall (t + x) = z.wall t + x := by
  have hmod := h.wall_mod t x
  have hblock := h.block (t + x)
  rw [show t + x - z.wall (t + x) % 3600 = t by omega] at hblock
  unfold wall at *
  omega

lemma hour_mono (h : z.Hourly) : Monotone z.hour := by
  refine monotone_int_of_le_succ fun t => ?_
  have hmod := h.wall_mod t 1
  have hblock := h.block t
  have hblock' := h.block (t + 1)
  by_cases hzero : z.wall (t + 1) % 3600 = 0
  · have hstart : t - z.wall t % 3600 + 3600 = t + 1 := by omega
    have hwall : z.wall (t - z.wall t % 3600) = z.wall t - z.wall t % 3600 := by
      unfold wall at *
      omega
    have hnext := h.next (t - z.wall t % 3600) (by omega)
    rw [hstart] at hnext
    unfold hour
    omega
  rw [show t + 1 - z.wall (t + 1) % 3600 = t - z.wall t % 3600 by omega] at hblock'
  unfold hour wall at *
  omega

end Hourly

/-- The first instant at which the clock shows the hour `H` or a later one. -/
structure First (z : Zone) (H p : Int) : Prop where
  le_hour : H ≤ z.hour p
  hour_lt : ∀ t, t < p → z.hour t < H

lemma Hourly.first (h : z.Hourly) {H p} (hp : z.wall p % 3600 = 0) (hH : z.hour p = H)
    (hprev : z.hour (p - 3600) ≠ H) : First z H p := by
  have hmono := h.hour_mono (show p - 3600 ≤ p by omega)
  have hmod := h.wall_mod p (-3600)
  rw [← Int.sub_eq_add_neg] at hmod
  have hend := h.wall_add (t := p - 3600) (x := 3599) (by omega) (by omega) (by omega)
  rw [show p - 3600 + 3599 = p - 1 by omega] at hend
  refine ⟨hH.ge, fun t ht => ?_⟩
  have hle := h.hour_mono (show t ≤ p - 1 by omega)
  unfold hour at *
  omega

lemma exists_first (h : z.Hourly) (H : Int) : ∃ p, First z H p := by
  obtain ⟨b, hb⟩ := h.bounded
  obtain ⟨p, hp, hleast⟩ := @Int.exists_least_of_bdd (fun t => H ≤ z.hour t) ⟨3600 * H - b, fun t ht => by
      have := hb t
      unfold hour wall at ht
      omega⟩
    ⟨3600 * H + b, by
      have := hb (3600 * H + b)
      unfold hour wall
      omega⟩
  exact ⟨p, hp, fun t ht => Int.not_le.mp fun hle => absurd (hleast t hle) (by omega)⟩

namespace First

variable {H p : Int}

section

variable (hp : First z H p)

include hp

variable (h : z.Hourly)

include h

lemma aligned : z.wall p % 3600 = 0 := by
  have hblock := h.block p
  have hle := hp.le_hour
  by_contra hne
  have hlt := hp.hour_lt (p - z.wall p % 3600) (by omega)
  unfold hour wall at *
  omega

lemma hour : z.hour p = H ∨ z.hour p = H + 1 := by
  have hmod := h.wall_mod p (-3600)
  have hzero := hp.aligned h
  have hnext := h.next (p - 3600) (by rw [show p - 3600 = p + -3600 by omega]; omega)
  rw [Int.sub_add_cancel] at hnext
  have hlt := hp.hour_lt (p - 3600) (by omega)
  have hle := hp.le_hour
  unfold Zone.hour at *
  omega

lemma wall (hH : z.hour p = H) : z.wall p = 3600 * H := by
  have := hp.aligned h
  unfold Zone.hour at hH
  omega

lemma succ (hH : z.hour p = H) (hne : z.hour (p + 3600) ≠ H) : First z (H + 1) (p + 3600) := by
  have hle := h.hour_mono (show p ≤ p + 3600 by omega)
  refine ⟨by omega, fun t ht => ?_⟩
  obtain hlt | hge := Int.lt_or_le t p
  · have := hp.hour_lt t hlt
    omega
  have hwall := h.wall_add (hp.aligned h) (show 0 ≤ t - p by omega) (by omega)
  rw [show p + (t - p) = t by omega] at hwall
  have := hp.aligned h
  unfold Zone.hour at *
  omega

lemma succ_repeated (hH : z.hour p = H) (heq : z.hour (p + 3600) = H) :
    First z (H + 1) (p + 7200) ∧ z.hour (p + 7200) = H + 1 := by
  have hzero := hp.aligned h
  have hmod := h.wall_mod p 3600
  have hapart := h.apart p hzero (by unfold Zone.hour at *; omega)
  have hhour : z.hour (p + 7200) = H + 1 := by
    unfold Zone.hour at *
    omega
  refine ⟨⟨hhour.ge, fun t ht => ?_⟩, hhour⟩
  obtain hlt | hge := Int.lt_or_le t (p + 3600)
  · have := h.hour_mono hlt.le
    omega
  have hwall := h.wall_add (t := p + 3600) (x := t - (p + 3600)) (by omega) (by omega) (by omega)
  rw [show p + 3600 + (t - (p + 3600)) = t by omega] at hwall
  unfold Zone.hour at *
  omega

omit h

lemma succ_skipped (hH : z.hour p = H + 1) : First z (H + 1) p :=
  ⟨hH.ge, fun t ht => (hp.hour_lt t ht).trans (by omega)⟩

end

end First

/-! ### Daylight saving -/

def Changes (z : Zone) (t : Int) : Prop := z.offset (t - 1) ≠ z.offset t

def SetBack (z : Zone) (t : Int) : Prop := z.offset t = z.offset (t - 1) - 3600

def SetForward (z : Zone) (t : Int) : Prop := z.offset t = z.offset (t - 1) + 3600

lemma SetBack.changes {t} (ht : z.SetBack t) : z.Changes t := by
  unfold SetBack at ht
  unfold Changes
  omega

lemma SetForward.changes {t} (ht : z.SetForward t) : z.Changes t := by
  unfold SetForward at ht
  unfold Changes
  omega

lemma offset_eq {a b} (hle : a ≤ b) (hno : ∀ t, a < t → t ≤ b → ¬z.Changes t) : z.offset b = z.offset a := by
  induction b, hle using Int.leInduction with
  | base => rfl
  | succ b hle ih =>
    have hb : z.offset b = z.offset a := ih fun t hlt hle => hno t hlt (by omega)
    have hsame : z.offset (b + 1 - 1) = z.offset (b + 1) := not_not.mp (hno (b + 1) (by omega) le_rfl)
    rw [← hsame, Int.add_sub_cancel, hb]

lemma exists_change {a b} (hle : a ≤ b) (hne : z.offset b ≠ z.offset a) : ∃ t, a < t ∧ t ≤ b ∧ z.Changes t := by
  by_contra hno
  exact hne (offset_eq hle fun t hlt hle hchange => hno ⟨t, hlt, hle, hchange⟩)

/-- The offset changes by exactly one hour, at whole hours of the wall clock, and changes are at least a week
apart. No zone is a day or more from UTC. -/
structure OneHourChanges (z : Zone) : Prop where
  oneHour : ∀ t, z.Changes t → z.SetBack t ∨ z.SetForward t
  whole : ∀ t, z.Changes t → z.wall t % 3600 = 0
  week : ∀ t t', z.Changes t → z.Changes t' → t < t' → t + 604800 ≤ t'
  near : ∀ t, -86400 < z.offset t ∧ z.offset t < 86400

namespace OneHourChanges

variable (h : z.OneHourChanges)

include h

lemma offset_before {t u} (ht : z.Changes t) (hlt : u < t) (hweek : t ≤ u + 604800) :
    z.offset u = z.offset (t - 1) := by
  refine (offset_eq (by omega) fun t' hgt hle hchange => ?_).symm
  have := h.week t' t hchange ht (by omega)
  omega

lemma offset_after {t u} (ht : z.Changes t) (hle : t ≤ u) (hweek : u < t + 604800) : z.offset u = z.offset t := by
  refine offset_eq hle fun t' hgt hle' hchange => ?_
  have := h.week t t' ht hchange hgt
  omega

lemma hourly : z.Hourly := by
  have haligned : ∀ t t', z.offset t % 3600 = z.offset t' % 3600 := by
    have hstep : ∀ t, z.offset t % 3600 = z.offset (t - 1) % 3600 := by
      intro t
      by_cases ht : z.Changes t
      · have := h.oneHour t ht
        unfold SetBack SetForward at this
        omega
      · rw [not_not.mp ht]
    have hzero : ∀ t, z.offset t % 3600 = z.offset 0 % 3600 := by
      intro t
      induction t using Int.induction_on with
      | zero => rfl
      | succ i ih =>
        rw [← ih, hstep, Int.add_sub_cancel]
      | pred i ih => rw [← ih, hstep (-i)]
    exact fun t t' => (hzero t).trans (hzero t').symm
  -- A change is at the start of an hour, so there is none within one.
  have hblock : ∀ t, z.offset (t - z.wall t % 3600) = z.offset t := by
    intro t
    refine (offset_eq (by omega) fun u hgt hle hchange => ?_).symm
    have hsame := h.offset_after hchange hle (by omega)
    have hwhole := h.whole u hchange
    unfold wall at *
    omega
  have hnext : ∀ t, z.wall t % 3600 = 0 →
      z.offset (t + 3600) = z.offset t ∨ z.Changes (t + 3600) ∧ z.offset (t + 3600 - 1) = z.offset t := by
    intro t ht
    have hprev : z.offset (t + 3600 - 1) = z.offset t := by
      have hb := hblock (t + 3600 - 1)
      have hmod := haligned (t + 3600 - 1) t
      rw [← hb]
      congr 1
      unfold wall at *
      omega
    by_cases hchange : z.Changes (t + 3600)
    · exact .inr ⟨hchange, hprev⟩
    · exact .inl ((not_not.mp hchange).symm.trans hprev)
  refine ⟨haligned, hblock, fun t ht => ?_, fun t ht hne => ?_, 86400, fun t => ?_⟩
  · obtain hsame | ⟨hchange, hprev⟩ := hnext t ht
    · unfold wall
      omega
    have := h.oneHour _ hchange
    unfold SetBack SetForward at this
    unfold wall
    omega
  · obtain hsame | ⟨hchange, -⟩ := hnext t ht
    · exact absurd (show t + 3600 + z.offset (t + 3600) = t + z.offset t + 3600 by omega) hne
    have := h.offset_after hchange (show t + 3600 ≤ t + 7200 by omega) (by omega)
    unfold wall
    omega
  have := h.near t
  omega

lemma date_once {t} (hprev : z.wall (t - 3600) ≠ z.wall t) (hnext : z.wall (t + 3600) ≠ z.wall t) :
    z.date (z.wall t) = t := by
  have hnear := h.near t
  by_cases hsame : z.offset (z.wall t) = z.offset t
  · unfold date
    rw [hsame, show z.wall t - z.offset t = t by unfold wall; omega]
    unfold wall
    omega
  suffices hoff : z.offset (z.wall t - z.offset (z.wall t)) = z.offset t by
    unfold date
    rw [hoff]
    unfold wall
    omega
  have hw : z.wall t = t + z.offset t := rfl
  obtain hle | hlt := le_or_gt t (z.wall t)
  · obtain ⟨c, hgt, hcle, hc⟩ := exists_change hle hsame
    have hbefore := h.offset_before hc hgt (by omega)
    have hafter := h.offset_after hc hcle (by omega)
    rw [hafter, hbefore]
    obtain hback | hforward := h.oneHour c hc
    · unfold SetBack at hback
      by_cases hend : t + 3600 < c
      · exact h.offset_before hc (by omega) (by omega)
      have := h.offset_after hc (show c ≤ t + 3600 by omega) (by omega)
      exact absurd (show t + 3600 + z.offset (t + 3600) = t + z.offset t by omega) hnext
    unfold SetForward at hforward
    exact h.offset_before hc (by omega) (by omega)
  obtain ⟨c, hgt, hcle, hc⟩ := exists_change hlt.le (Ne.symm hsame)
  have hbefore := h.offset_before hc hgt (by omega)
  have hafter := h.offset_after hc hcle (by omega)
  rw [hafter, hbefore]
  obtain hback | hforward := h.oneHour c hc
  · unfold SetBack at hback
    by_cases hend : c ≤ t - 3600
    · exact h.offset_after hc (by omega) (by omega)
    have := h.offset_before hc (show t - 3600 < c by omega) (by omega)
    exact absurd (show t - 3600 + z.offset (t - 3600) = t + z.offset t by omega) hprev
  unfold SetForward at hforward
  exact h.offset_after hc (by omega) (by omega)

/-- A wall time that is shown twice: the choice depends on where the wall time taken as UTC falls. -/
lemma date_repeated {c t} (hc : z.SetBack c) (hlt : t < c) (hle : c ≤ t + 3600) :
    z.date (z.wall t) = if z.wall t < c then t else t + 3600 := by
  have hchange := hc.changes
  have hnear := h.near t
  have hbefore := h.offset_before hchange hlt (by omega)
  have hw : z.wall t = t + z.offset t := rfl
  unfold SetBack at hc
  unfold date
  split
  · have hguess := h.offset_before hchange (show z.wall t < c by omega) (by omega)
    rw [hguess, h.offset_before hchange (show z.wall t - z.offset (c - 1) < c by omega) (by omega)]
    omega
  have hguess := h.offset_after hchange (show c ≤ z.wall t by omega) (by omega)
  rw [hguess, h.offset_after hchange (show c ≤ z.wall t - z.offset c by omega) (by omega)]
  omega

lemma date_skipped {c x} (hc : z.SetForward c) (h0 : 0 ≤ x) (hx : x < 3600) :
    z.date (c + z.offset (c - 1) + x) = if c + z.offset (c - 1) + x < c then c + x - 3600 else c + x := by
  have hchange := hc.changes
  have hnear := h.near (c - 1)
  unfold SetForward at hc
  unfold date
  split
  · have hguess := h.offset_before hchange (show c + z.offset (c - 1) + x < c by omega) (by omega)
    rw [hguess, h.offset_after hchange (show c ≤ c + z.offset (c - 1) + x - z.offset (c - 1) by omega) (by omega)]
    omega
  have hguess := h.offset_after hchange (show c ≤ c + z.offset (c - 1) + x by omega) (by omega)
  rw [hguess, h.offset_before hchange (show c + z.offset (c - 1) + x - z.offset c < c by omega) (by omega)]
  omega

end OneHourChanges

/-! ### Regular clocks -/

/-- Up to the wall time `limit`, `date` gives the first of two instants that show one wall time, and for a
midnight that is skipped it gives an instant of the same day. -/
structure Regular (z : Zone) (limit : Int) : Prop extends z.Hourly where
  date_first : ∀ t, z.wall (t - 3600) ≠ z.wall t → z.wall t ≤ limit → z.date (z.wall t) = t
  date_skipped : ∀ H p x, First z H p → z.hour p = H + 1 → 0 ≤ x → x < 3600 →
    z.wall (z.date (3600 * H + x)) = 3600 * H + x - 3600 ∨ z.wall (z.date (3600 * H + x)) = 3600 * H + x + 3600
  date_midnight : ∀ H p x, First z H p → z.hour p = H + 1 → 0 ≤ x → x < 3600 → H % 24 = 0 → 3600 * H < limit →
    z.wall (z.date (3600 * H + x)) = 3600 * H + x + 3600

/-- The clock is set back only where it was not ahead of UTC, and not set forward at a midnight where it was
behind UTC. At the limit itself only the first instant of the hour counts. -/
structure Favourable (z : Zone) (limit : Int) : Prop where
  setBack : ∀ t, z.SetBack t → z.wall t < limit → z.offset (t - 1) ≤ 0
  setBack_limit : ∀ t, z.SetBack t → z.wall t = limit → z.offset (t - 1) < 3600
  setForward : ∀ t, z.SetForward t → z.wall t % 86400 = 3600 → z.wall t < limit + 3600 → 0 ≤ z.offset (t - 1)

namespace OneHourChanges

variable (h : z.OneHourChanges)

include h

lemma setForward_of_skipped {H p} (hp : First z H p) (hH : z.hour p = H + 1) :
    z.SetForward p ∧ 3600 * H = p + z.offset (p - 1) := by
  have hlt := hp.hour_lt (p - 1) (by omega)
  have hchange : z.Changes p := by
    intro hsame
    unfold Zone.hour wall at *
    omega
  obtain hback | hforward := h.oneHour p hchange
  · unfold SetBack at hback
    unfold Zone.hour wall at *
    omega
  refine ⟨hforward, ?_⟩
  unfold SetForward at hforward
  unfold Zone.hour wall at *
  omega

lemma regular {limit} (hf : z.Favourable limit) : z.Regular limit := by
  refine ⟨h.hourly, fun t hprev hlimit => ?_, fun H p x hp hH h0 hx => ?_, fun H p x hp hH h0 hx hmidnight hlimit => ?_⟩
  · by_cases hnext : z.wall (t + 3600) = z.wall t
    -- The repeated hour: the wall time taken as UTC is before the change.
    · have hne : z.offset (t + 3600) ≠ z.offset t := by
        unfold wall at hnext
        omega
      obtain ⟨c, hlt, hle, hc⟩ := exists_change (show t ≤ t + 3600 by omega) hne
      have hbefore := h.offset_before hc hlt (by omega)
      have hafter := h.offset_after hc hle (by omega)
      have hback : z.SetBack c := by
        unfold SetBack
        unfold wall at hnext
        omega
      have hwall : z.wall t < c := by
        obtain hwlt | hweq : z.wall c < limit ∨ z.wall c = limit ∧ c = t + 3600 := by
          unfold wall at *
          omega
        · have := hf.setBack c hback hwlt
          unfold wall
          omega
        have := hf.setBack_limit c hback hweq.1
        unfold wall
        omega
      rw [h.date_repeated hback hlt hle, if_pos hwall]
    · exact h.date_once hprev hnext
  · obtain ⟨hforward, hstart⟩ := h.setForward_of_skipped hp hH
    have hafter := h.offset_after hforward.changes (show p ≤ p + x by omega) (by omega)
    have hbefore := h.offset_before hforward.changes (show p + x - 3600 < p by omega) (by omega)
    unfold SetForward at hforward
    rw [hstart, h.date_skipped hforward h0 hx]
    unfold wall
    split <;> omega
  obtain ⟨hforward, hstart⟩ := h.setForward_of_skipped hp hH
  have hafter := h.offset_after hforward.changes (show p ≤ p + x by omega) (by omega)
  have hwall := hp.aligned h.hourly
  have hsign := hf.setForward p hforward (by unfold Zone.hour at hH; omega) (by unfold Zone.hour at hH; omega)
  unfold SetForward at hforward
  rw [hstart, h.date_skipped hforward h0 hx, if_neg (by omega)]
  unfold wall
  omega

end OneHourChanges

end Zone

end FastOrchestration.Lib
