import HelixRouter.Router.Autoscaler
import HelixRouter.Statistics.Samples
import Mathlib.Analysis.Real.Sqrt
import Mathlib.Data.Rat.Cast.Order

namespace HelixRouter.Autoscaler

open Statistics

/-- Midpoint and rate of each interval of some length. -/
def trendPoints (a : Autoscaler) : List (ℚ × ℚ) :=
  match a.observations.head? with
  | some first => ratePoints first.timestampSecs a.observations
  | none => []

/-- Seconds from the first observation to the last. -/
def lastElapsed (a : Autoscaler) : Nat :=
  match a.observations.head?, a.observations.getLast? with
  | some first, some last => last.timestampSecs - first.timestampSecs
  | _, _ => 0

theorem intervalRate_nonneg {prev obs : LoadObservation} {rate : ℚ}
    (h : intervalRate prev obs = some rate) : 0 ≤ rate := by
  simp only [intervalRate, Option.ite_none_left_eq_some, Option.some.injEq] at h
  obtain ⟨_, rfl⟩ := h
  positivity

theorem ratePoints_nonneg (first : Nat) (observations : List LoadObservation) :
    ∀ p ∈ ratePoints first observations, 0 ≤ p.2 := by
  fun_induction ratePoints first observations with
  | case1 prev obs rest points rate hrate dt ih =>
    intro p hp
    rcases List.mem_cons.mp hp with rfl | hp
    · exact intervalRate_nonneg hrate
    · exact ih p hp
  | case2 prev obs rest points hrate ih => exact ih
  | case3 => exact fun _ hp => nomatch hp

/-- The midpoints are whole numbers: half an interval is rounded down. -/
theorem exists_midpoints (first : Nat) (observations : List LoadObservation) :
    ∃ m : List Nat, (ratePoints first observations).map (·.1) = m.map fun k : Nat => (k : ℚ) := by
  fun_induction ratePoints first observations with
  | case1 prev obs rest points rate hrate dt ih =>
    obtain ⟨m, hm⟩ := ih
    exact ⟨(prev.timestampSecs + dt / 2 - first) :: m, by rw [List.map_cons, List.map_cons, hm]⟩
  | case2 prev obs rest points hrate ih => exact ih
  | case3 => exact ⟨[], rfl⟩

section Fit

variable {K : Type} [Field K] [LinearOrder K] [IsStrictOrderedRing K] {points : List (K × K)}
  {m : List Nat} {α β : K}

theorem leastSquares_of_spread_eq_zero (h : spread (points.map (·.1)) = 0) :
    leastSquares points = (mean (points.map (·.2)), 0) := by
  have hdenom : points.length * (points.map fun p => p.1 * p.1).sum -
      (points.map (·.1)).sum * (points.map (·.1)).sum = 0 := by
    rw [spread, List.map_map, List.length_map] at h
    exact h
  rw [leastSquares, fitLine, hdenom, mean, List.length_map]
  exact if_pos (by rw [abs_zero]; positivity)

/-- No determinant of whole midpoints is so small that it is mistaken for zero. -/
theorem leastSquares_of_line (hm : points.map (·.1) = m.map fun k : Nat => (k : K))
    (hs : spread (points.map (·.1)) ≠ 0) (h : ∀ p ∈ points, p.2 = α + β * p.1) :
    leastSquares points = (α, β) := by
  have hlarge : ¬ |spread (points.map (·.1))| < 1 / 2 ^ 52 := by
    rw [hm, spread_natCast, ← Int.cast_abs]
    rw [hm, spread_natCast, Int.cast_ne_zero] at hs
    have hone : (1 : K) ≤ ((|(m.length * (m.map fun k => k * k).sum - m.sum * m.sum : Int)| : Int) : K) :=
      Int.cast_one_le_of_pos (abs_pos.mpr hs)
    have hsmall : (1 : K) / 2 ^ 52 ≤ 1 := by norm_num
    exact not_lt.mpr (hsmall.trans hone)
  have hne : points ≠ [] := by
    rintro rfl
    exact hs (by simp [spread])
  have hdenom : points.length * (points.map fun p => p.1 * p.1).sum -
      (points.map (·.1)).sum * (points.map (·.1)).sum = spread (points.map (·.1)) := by
    rw [spread, List.map_map, List.length_map]
    rfl
  rw [leastSquares, fitLine, hdenom]
  simp only [if_neg hlarge, slope_of_line h hs, intercept_of_line h hne]

end Fit

section Trend

variable {K : Type} [Field K]

/-- The points as the fit reads them. -/
def castPoints (points : List (ℚ × ℚ)) : List (K × K) := points.map fun p => ((p.1 : K), (p.2 : K))

theorem exists_castPoints_fst [CharZero K] (a : Autoscaler) : ∃ m : List Nat,
    (castPoints a.trendPoints : List (K × K)).map (·.1) = m.map fun k : Nat => (k : K) := by
  have hcast : (castPoints a.trendPoints : List (K × K)).map (·.1) =
      (a.trendPoints.map (·.1)).map fun q : ℚ => (q : K) := by
    simp [castPoints, Function.comp_def]
  rw [hcast, trendPoints]
  cases a.observations.head? with
  | none => exact ⟨[], rfl⟩
  | some first =>
    obtain ⟨m, hm⟩ := exists_midpoints first.timestampSecs a.observations
    exact ⟨m, by simp [hm]⟩

variable [LinearOrder K]

theorem predictRate_eq (sqrt : ℚ → K) (a : Autoscaler) (h : a.trendPoints ≠ []) :
    a.predictRate sqrt = max ((leastSquares (castPoints a.trendPoints : List (K × K))).1 +
      (leastSquares (castPoints a.trendPoints : List (K × K))).2 *
        (a.lastElapsed + a.effectiveHorizonSecs sqrt)) 0 := by
  unfold predictRate
  unfold trendPoints at h ⊢
  unfold lastElapsed castPoints
  cases hfirst : a.observations.head? with
  | none =>
    rw [hfirst] at h
    exact absurd rfl h
  | some first =>
    rw [hfirst] at h
    cases hlast : a.observations.getLast? with
    | none =>
      rw [List.getLast?_eq_none_iff.mp hlast] at hfirst
      exact nomatch hfirst
    | some last => exact if_neg (mt List.map_eq_nil_iff.mp h)

variable [IsStrictOrderedRing K]

theorem trendPoints_nonneg (a : Autoscaler) : ∀ p ∈ a.trendPoints, 0 ≤ p.2 := by
  unfold trendPoints
  cases a.observations.head? with
  | none => exact fun _ h => nomatch h
  | some first => exact ratePoints_nonneg first.timestampSecs a.observations

/-- A line through the rates is found again and read off at the horizon, whatever the root of
the variance is. -/
theorem predictRate_of_line (sqrt : ℚ → K) (a : Autoscaler) {α β : K}
    (h : ∀ p ∈ a.trendPoints, (p.2 : K) = α + β * p.1)
    (hdistinct : ∃ p ∈ a.trendPoints, ∃ q ∈ a.trendPoints, p.1 ≠ q.1) :
    a.predictRate sqrt = max (α + β * (a.lastElapsed + a.effectiveHorizonSecs sqrt)) 0 := by
  obtain ⟨p, hp, q, hq, hpq⟩ := hdistinct
  obtain ⟨m, hm⟩ := exists_castPoints_fst (K := K) a
  have hline : ∀ r ∈ (castPoints a.trendPoints : List (K × K)), r.2 = α + β * r.1 := by
    intro r hr
    obtain ⟨s, hs, rfl⟩ := List.mem_map.mp hr
    exact h s hs
  have hspread : spread ((castPoints a.trendPoints : List (K × K)).map (·.1)) ≠ 0 := by
    intro hzero
    have hmem : ∀ s ∈ a.trendPoints, (s.1 : K) ∈ (castPoints a.trendPoints).map (·.1) := by
      intro s hs
      exact List.mem_map_of_mem (List.mem_map_of_mem hs)
    exact hpq (Rat.cast_injective (spread_eq_zero_iff.mp hzero _ (hmem p hp) _ (hmem q hq)))
  rw [predictRate_eq sqrt a (List.ne_nil_of_mem hp), leastSquares_of_line hm hspread hline]

theorem predictRate_of_single (sqrt : ℚ → K) (a : Autoscaler) (hne : a.trendPoints ≠ [])
    (hsame : ∀ p ∈ a.trendPoints, ∀ q ∈ a.trendPoints, p.1 = q.1) :
    a.predictRate sqrt = mean (a.trendPoints.map fun p => (p.2 : K)) := by
  have hspread : spread ((castPoints a.trendPoints : List (K × K)).map (·.1)) = 0 := by
    apply spread_eq_zero_iff.mpr
    simp only [castPoints, List.map_map, List.forall_mem_map]
    intro p hp q hq
    exact congrArg (fun x : ℚ => (x : K)) (hsame p hp q hq)
  have hmean : (castPoints a.trendPoints : List (K × K)).map (·.2) =
      a.trendPoints.map fun p => (p.2 : K) := List.map_map
  have hnonneg : 0 ≤ mean (a.trendPoints.map fun p => (p.2 : K)) := by
    apply div_nonneg
    · apply List.sum_nonneg
      simp only [List.forall_mem_map]
      exact fun p hp => Rat.cast_nonneg.mpr (trendPoints_nonneg a p hp)
    · exact Nat.cast_nonneg _
  rw [predictRate_eq sqrt a hne, leastSquares_of_spread_eq_zero hspread, hmean, zero_mul, add_zero]
  exact max_eq_left hnonneg

/-- The trend of the observed rates: their line, or their mean where they are all rates of one
moment. -/
theorem predictRate_trend (sqrt : ℚ → K) (a : Autoscaler) :
    (∀ α β : K, (∀ p ∈ a.trendPoints, (p.2 : K) = α + β * p.1) →
      (∃ p ∈ a.trendPoints, ∃ q ∈ a.trendPoints, p.1 ≠ q.1) →
      a.predictRate sqrt = max (α + β * (a.lastElapsed + a.effectiveHorizonSecs sqrt)) 0) ∧
    (a.trendPoints ≠ [] → (∀ p ∈ a.trendPoints, ∀ q ∈ a.trendPoints, p.1 = q.1) →
      a.predictRate sqrt = mean (a.trendPoints.map fun p => (p.2 : K))) :=
  ⟨fun _ _ h hdistinct => predictRate_of_line sqrt a h hdistinct,
    fun hne hsame => predictRate_of_single sqrt a hne hsame⟩

/-- One job a second, then two: the load rises by a tenth of a job a second. -/
def risingLoad : Autoscaler :=
  ((({} : Autoscaler).observe ⟨0, 0, 0, 0⟩).observe ⟨10, 10, 0, 0⟩).observe ⟨20, 30, 0, 0⟩

theorem risingLoad_trend : risingLoad.predictRate (fun v => √(v : ℝ)) =
    max (1 / 2 + 1 / 10 * (risingLoad.lastElapsed + risingLoad.effectiveHorizonSecs fun v => √(v : ℝ))) 0 := by
  have hpoints : risingLoad.trendPoints = [(5, 1), (15, 2)] := by decide +kernel
  apply (predictRate_trend (fun v => √(v : ℝ)) risingLoad).1
  · rw [hpoints]
    simp only [List.forall_mem_cons, List.not_mem_nil, false_implies, implies_true, and_true]
    constructor <;> norm_num
  · rw [hpoints]
    exact ⟨(5, 1), List.mem_cons_self, (15, 2), by simp, by norm_num⟩

end Trend

end HelixRouter.Autoscaler
