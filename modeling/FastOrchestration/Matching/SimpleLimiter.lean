import FastOrchestration.Lib.Run

/-!
# The rate limiter of the matcher

Model of `simpleLimiter` in `service/matching/matcher_data.go`: a single ready time, which a token moves
on by an interval and which falls behind the clock by the burst at most. Durations and times are
nanoseconds without a bound: at the times the code meets, `int64` does not overflow.
-/

namespace FastOrchestration.Matching

structure SimpleLimiterParams where
  interval : Int
  burst : Int

def makeSimpleLimiterParams (rate : ℚ) (burstDuration : Int) : SimpleLimiterParams :=
  if rate ≤ 1 / 10 ^ 9 then ⟨-1, 0⟩
  else ⟨⌊10 ^ 9 / rate⌋, min burstDuration (60 * 10 ^ 9)⟩

namespace SimpleLimiter

/-- `simpleLimiterNever`, as a ready time. -/
def never : Int := 7 * 2 ^ 60

def delay (ready now : Int) : Int := ready - now

def consume (ready : Int) (p : SimpleLimiterParams) (now tokens : Int) : Int :=
  if p.interval < 0 then never
  else max now (ready + p.burst) - p.burst + tokens * p.interval

/-- A task is matched, or the token of one that was matched is given back. -/
structure Call where
  now : Int
  recycles : Bool

/-- What `findAndWakeMatches` and `recycleToken` do: a match waits until the limiter is ready. -/
def step (p : SimpleLimiterParams) (ready : Int) (c : Call) : Except Unit Int :=
  if c.recycles then .ok (consume ready p c.now (-1))
  else if delay ready c.now ≤ 0 then .ok (consume ready p c.now 1)
  else .error ()

section Window
variable (start length : Int)

abbrev Call.Within (c : Call) : Prop := start ≤ c.now ∧ c.now ≤ start + length

def consumed (calls : List Call) : Nat := calls.countP fun c => c.Within start length ∧ !c.recycles

def recycled (calls : List Call) : Nat := calls.countP fun c => c.Within start length ∧ c.recycles

/-- While the window lasts, every token of it that is not given back has moved the ready time on by an
interval, from a burst before the start at least. A match finds the limiter ready, so the tokens before
it fit into the window and the burst. -/
structure Fits (p : SimpleLimiterParams) (calls : List Call) (ready : Int) : Prop where
  moved : (∀ c ∈ calls, c.now ≤ start + length) → 0 < consumed start length calls →
    start - p.burst + (consumed start length calls - recycled start length calls) * p.interval ≤ ready
  bound : (consumed start length calls - 1 - recycled start length calls) * p.interval ≤ max (length + p.burst) 0

end Window

variable {p : SimpleLimiterParams} {start length : Int}

lemma le_consume (hp : 0 < p.interval) (ready now tokens) : ready + tokens * p.interval ≤ consume ready p now tokens ∧
      now - p.burst + tokens * p.interval ≤ consume ready p now tokens := by
  simp only [consume, if_neg hp.not_gt]
  constructor <;> linarith [le_max_left now (ready + p.burst), le_max_right now (ready + p.burst)]

lemma counts_snoc (calls : List Call) (c : Call) :
    (consumed start length (calls ++ [c]) : Int) = consumed start length calls +
        (if c.Within start length ∧ !c.recycles then 1 else 0) ∧
      (recycled start length (calls ++ [c]) : Int) = recycled start length calls +
        if c.Within start length ∧ c.recycles then 1 else 0 := by
  simp [consumed, recycled, List.countP_singleton]

lemma Fits.step {calls c ready ready'} (hp : 0 < p.interval) (hc : ∀ c' ∈ calls, c'.now ≤ c.now)
    (h : Fits start length p calls ready) (hs : SimpleLimiter.step p ready c = .ok ready') :
    Fits start length p (calls ++ [c]) ready' := by
  obtain ⟨hn, hm⟩ := @counts_snoc start length calls c
  by_cases hin : c.Within start length
  · have hmoved := h.moved fun c' hc' => (hc c' hc').trans hin.2
    unfold SimpleLimiter.step at hs
    split_ifs at hs with hr hready <;> cases hs
    · have hle := (le_consume hp ready c.now (-1)).1
      rw [if_neg (by simp [hr])] at hn
      rw [if_pos ⟨hin, hr⟩] at hm
      constructor
      · intro _ hpos
        have := hmoved (by omega)
        rw [hn, hm]
        linarith
      rw [hn, hm]
      linarith [h.bound]
    obtain ⟨hle, hnow⟩ := le_consume hp ready c.now 1
    have hback : 0 ≤ (recycled start length calls : Int) * p.interval := by positivity
    have hmax := le_max_left (length + p.burst) 0
    rw [if_pos ⟨hin, by simpa using hr⟩] at hn
    rw [if_neg (by simp [hr])] at hm
    rw [delay] at hready
    obtain hzero | hpos := (consumed start length calls).eq_zero_or_pos
    · rw [hzero] at hn
      constructor
      · intro _ _
        rw [hn, hm]
        push_cast
        linarith [hin.1]
      rw [hn, hm]
      push_cast
      linarith [le_max_right (length + p.burst) 0]
    have := hmoved hpos
    constructor
    · intro _ _
      rw [hn, hm]
      linarith
    rw [hn, hm]
    linarith [hin.2]
  rw [if_neg fun h => hin h.1, add_zero] at hn hm
  constructor
  · intro hall hpos
    -- The calls before one that comes before the window are not in it either.
    have hnone : consumed start length calls = 0 := List.countP_eq_zero.mpr fun c' hc' => by
      have := hc c' hc'
      have := hall c (by simp)
      simp
      omega
    omega
  · simpa only [hn, hm] using h.bound

/-- In every window the tokens consumed are at most one more than the intervals that fit into it and the
burst, and one more for each token given back. -/
theorem consumed_le (p : SimpleLimiterParams) (hp : 0 < p.interval) {calls ready ready'}
    (hsorted : calls.Pairwise fun c c' => c.now ≤ c'.now)
    (hrun : Lib.run (SimpleLimiter.step p) ready calls = .ok ready') (start length : Int) :
    (consumed start length calls : Int) ≤ 1 + max (length + p.burst) 0 / p.interval + recycled start length calls := by
  have hfits : Fits start length p calls ready' := by
    refine Lib.run_loop (I := Fits start length p) (fun done c rest s s' hcalls h hs => ?_) ?_ hrun
    · rw [hcalls] at hsorted
      exact h.step hp (fun c' hc' => (List.pairwise_append.mp hsorted).2.2 c' hc' c (by simp)) hs
    · exact ⟨fun _ h => by simp [consumed] at h, by simp [consumed, recycled, hp.le]⟩
  have := (Int.le_ediv_iff_mul_le hp).mpr hfits.bound
  omega

theorem consumed_le_burst : consumed 0 0 (List.replicate 3 ⟨0, false⟩) = 3 ∧
      (consumed 0 0 (List.replicate 3 ⟨0, false⟩) : Int)
        ≤ 1 + max (0 + 10 ^ 9) 0 / (5 * 10 ^ 8) + recycled 0 0 (List.replicate 3 ⟨0, false⟩) :=
  ⟨by decide, consumed_le ⟨5 * 10 ^ 8, 10 ^ 9⟩ (by decide) (by decide)
    (show Lib.run _ (-10 ^ 9) _ = .ok (5 * 10 ^ 8) by decide) 0 0⟩

/-- A negative burst is not excluded: a first token goes through, in a window that it makes less than
nothing. -/
theorem negativeBurst_token :
    Lib.run (SimpleLimiter.step (makeSimpleLimiterParams 1 (-2 * 10 ^ 9))) 0 [⟨0, false⟩] = .ok (3 * 10 ^ 9) ∧
      1 + (0 + (makeSimpleLimiterParams 1 (-2 * 10 ^ 9)).burst)
          / (makeSimpleLimiterParams 1 (-2 * 10 ^ 9)).interval + recycled 0 0 [⟨0, false⟩]
        < consumed 0 0 [⟨0, false⟩] := by
  decide +kernel

end SimpleLimiter

end FastOrchestration.Matching
