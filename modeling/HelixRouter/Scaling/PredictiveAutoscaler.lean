import HelixRouter.Floats.F64
import HelixRouter.Router.Numbers
import HelixRouter.Scaling.HoltWinters

namespace HelixRouter.Scaling

open Floats

inductive ScalingAction where
  | scaleUp (n : UInt64)
  | scaleDown (n : UInt64)
  | hold
  deriving DecidableEq

structure ScalingRecommendation where
  targetPoolSize : UInt64
  confidence : ℚ
  reason : String
  lookaheadMs : Nat
  action : ScalingAction
  forecastRate : ℚ
  sparkline : List ℚ

structure PredictiveAutoscalerConfig where
  alpha : ℚ := 20 / 100
  beta : ℚ := 10 / 100
  gamma : ℚ := 15 / 100
  ringCap : Nat := 3600
  minObservations : Nat := 10
  scaleUpFraction : ℚ := 80 / 100
  scaleDownFraction : ℚ := 30 / 100
  maxParallelism : UInt64 := 64
  minParallelism : UInt64 := 1
  jobsPerWorker : ℚ := 10
  lookaheadMs : Nat := 60000

structure LoadSample where
  timestampSecs : Nat
  totalJobs : Nat
  pressureScore : ℚ

/-- The ring buffer runs from its oldest sample to its newest. -/
structure PredictiveAutoscaler where
  config : PredictiveAutoscalerConfig := {}
  hw : HoltWintersState := {}
  samples : List LoadSample := []
  totalSamples : Nat := 0

def epsilon : ℚ := 1 / 2 ^ 52

/-- Nothing where the bounds are the wrong way round: there the clamp panics. -/
def clamp (x low high : UInt64) : Option UInt64 :=
  if low ≤ high then some (if x < low then low else if high < x then high else x) else none

namespace PredictiveAutoscaler

def observe (a : PredictiveAutoscaler) (sample : LoadSample) : PredictiveAutoscaler :=
  let rate : ℚ := match a.samples.getLast? with
    | some prev =>
      let dt := sample.timestampSecs - prev.timestampSecs
      let dj := sample.totalJobs - prev.totalJobs
      if dt > 0 then dj / dt else 0
    | none => 0
  let samples := if a.samples.length = a.config.ringCap then a.samples.tail else a.samples
  { a with
    samples := samples ++ [sample]
    totalSamples := a.totalSamples + 1
    hw := a.hw.update rate a.config.alpha a.config.beta a.config.gamma }

def forecast (a : PredictiveAutoscaler) : ℚ × List ℚ :=
  let h := a.config.lookaheadMs / 1000
  (a.hw.forecast h, a.hw.sparkline h)

def confidence (a : PredictiveAutoscaler) : ℚ :=
  let warmupFrac := min ((a.totalSamples : ℚ) / seasonLen) 1
  let volatility := if epsilon < a.hw.level then min (|a.hw.trend| / a.hw.level) 1 else 0
  max 0 (min (warmupFrac * (1 - volatility * (1 / 2))) 1)

def recommend (a : PredictiveAutoscaler) (currentPoolSize : UInt64) :
    Option ScalingRecommendation :=
  let n := a.totalSamples
  let lookaheadMs := a.config.lookaheadMs
  let h := lookaheadMs / 1000
  if n < a.config.minObservations then
    some {
      targetPoolSize := currentPoolSize
      confidence := 0
      reason := s!"warming up ({n}/{a.config.minObservations} samples collected)"
      lookaheadMs := lookaheadMs
      action := .hold
      forecastRate := 0
      sparkline := List.replicate h 0 }
  else
    let forecastRate := a.forecast.1
    let jobsPerWorker := max a.config.jobsPerWorker epsilon
    let required := castU64 ⌈forecastRate / jobsPerWorker⌉
    (clamp required a.config.minParallelism a.config.maxParallelism).map fun target =>
      let currentCapacity := toRat currentPoolSize * jobsPerWorker
      let scaleUpThreshold := currentCapacity * a.config.scaleUpFraction
      let scaleDownThreshold := currentCapacity * a.config.scaleDownFraction
      let rate := (F64.finite forecastRate).toFixed 1
      let up := (F64.finite scaleUpThreshold).toFixed 1
      let down := (F64.finite scaleDownThreshold).toFixed 1
      let (action, reason) :=
        if forecastRate > scaleUpThreshold ∧ target > currentPoolSize then
          let delta := saturatingSub target currentPoolSize
          (ScalingAction.scaleUp delta,
            s!"forecast {rate} jobs/s > scale-up threshold {up}; adding {delta} worker(s)")
        else if forecastRate < scaleDownThreshold ∧ target < currentPoolSize then
          let delta := saturatingSub currentPoolSize target
          (ScalingAction.scaleDown delta,
            s!"forecast {rate} jobs/s < scale-down threshold {down}; removing {delta} worker(s)")
        else
          (ScalingAction.hold, s!"forecast {rate} jobs/s within bounds [{down}, {up}]")
      { targetPoolSize := target
        confidence := a.confidence
        reason := reason
        lookaheadMs := lookaheadMs
        action := action
        forecastRate := forecastRate
        sparkline := a.forecast.2 }

/-- The autoscaler once it has taken in a history of samples. -/
def observed (config : PredictiveAutoscalerConfig) (history : List LoadSample) :
    PredictiveAutoscaler :=
  history.foldl observe { config := config }

end PredictiveAutoscaler

/-- The pool size an action makes of this one. -/
def ScalingAction.Makes (p target : UInt64) : ScalingAction → Prop
  | .scaleUp n => 0 < n ∧ target.toNat = p.toNat + n.toNat
  | .scaleDown n => 0 < n ∧ target.toNat = p.toNat - n.toNat ∧ n ≤ p
  | .hold => target = p

namespace PredictiveAutoscalerConfig

variable (config : PredictiveAutoscalerConfig) (p : UInt64)

/-- The load that this many workers carry. -/
def capacity (workers : ℚ) : ℚ := workers * max config.jobsPerWorker epsilon

def scaleUpThreshold : ℚ := config.capacity (toRat p) * config.scaleUpFraction

def scaleDownThreshold : ℚ := config.capacity (toRat p) * config.scaleDownFraction

structure Consistent (r : ScalingRecommendation) : Prop where
  lower : config.minParallelism ≤ r.targetPoolSize
  upper : r.targetPoolSize ≤ config.maxParallelism
  makes : r.action.Makes p r.targetPoolSize
  up : ∀ n, r.action = .scaleUp n → config.scaleUpThreshold p < r.forecastRate
  down : ∀ n, r.action = .scaleDown n → r.forecastRate < config.scaleDownThreshold p

end PredictiveAutoscalerConfig

theorem clamp_spec {low high : UInt64} (x : UInt64) (h : low ≤ high) :
    ∃ target, clamp x low high = some target ∧ low ≤ target ∧ target ≤ high ∧
      ∀ p, low ≤ p → p ≤ high →
        (p < target ↔ p < high ∧ p < x) ∧ (target < p ↔ low < p ∧ x < p) := by
  refine ⟨if x < low then low else if high < x then high else x, if_pos h, ?_⟩
  simp only [UInt64.lt_iff_toNat_lt, UInt64.le_iff_toNat_le] at *
  split
  · refine ⟨Nat.le_refl _, h, fun p hlow hhigh => ?_⟩
    omega
  · split
    · refine ⟨h, Nat.le_refl _, fun p hlow hhigh => ?_⟩
      omega
    · refine ⟨by omega, by omega, fun p hlow hhigh => ?_⟩
      omega

section Required

variable {p : UInt64} {rate w : ℚ}

theorem lt_required_iff (hw : 0 < w) (hp : p.toNat < u64Max) :
    p < castU64 ⌈rate / w⌉ ↔ toRat p * w < rate := by
  have hcast : toRat p + 1 ≤ ((⌈rate / w⌉ : ℤ) : ℚ) ↔ (p.toNat : ℤ) + 1 ≤ ⌈rate / w⌉ := by
    rw [toRat]
    exact_mod_cast Iff.rfl
  rw [lt_castU64_iff, and_iff_right hp, hcast, Int.add_one_le_iff, Int.lt_ceil,
    ← lt_div_iff₀ hw, toRat]
  norm_cast

theorem required_lt_iff (hw : 0 < w) (hp : 0 < p) :
    castU64 ⌈rate / w⌉ < p ↔ rate ≤ (toRat p - 1) * w := by
  have hpos : 0 < p.toNat := UInt64.lt_iff_toNat_lt.mp hp
  have hle := toNat_le_u64Max p
  have hfloor : ((⌈rate / w⌉ : ℤ) : ℚ).floor = ⌈rate / w⌉ := Rat.floor_intCast _
  rw [UInt64.lt_iff_toNat_lt, toNat_castU64, hfloor, ← div_le_iff₀ hw]
  have hceil : ⌈rate / w⌉ ≤ (p.toNat : ℤ) - 1 ↔ rate / w ≤ toRat p - 1 := by
    rw [Int.ceil_le, toRat]
    push_cast
    rfl
  rw [← hceil]
  omega

end Required

namespace PredictiveAutoscaler

variable {config : PredictiveAutoscalerConfig} {a : PredictiveAutoscaler} {p target : UInt64}
  {history : List LoadSample}

theorem observed_keeps : (observed config history).config = config ∧
    (observed config history).totalSamples = history.length := by
  have hfrom : ∀ a : PredictiveAutoscaler, (history.foldl observe a).config = a.config ∧
      (history.foldl observe a).totalSamples = a.totalSamples + history.length := by
    induction history with
    | nil => exact fun a => ⟨rfl, rfl⟩
    | cons sample history ih =>
      intro a
      refine ⟨(ih _).1, (ih _).2.trans ?_⟩
      change a.totalSamples + 1 + history.length = a.totalSamples + (history.length + 1)
      omega
  refine ⟨(hfrom _).1, (hfrom _).2.trans (Nat.zero_add _)⟩

theorem recommend_cold (hn : a.totalSamples < a.config.minObservations) :
    ∃ r, a.recommend p = some r ∧ r.targetPoolSize = p ∧ r.action = .hold := by
  refine ⟨_, if_pos hn, rfl, rfl⟩

/-- The action taken towards a target: none where the target's side of the pool size is not the
side of the threshold that the forecast is on. -/
def actionTowards (config : PredictiveAutoscalerConfig) (rate : ℚ) (p target : UInt64) :
    ScalingAction :=
  if config.scaleUpThreshold p < rate ∧ p < target then .scaleUp (saturatingSub target p)
  else if rate < config.scaleDownThreshold p ∧ target < p then
    .scaleDown (saturatingSub p target)
  else .hold

theorem recommend_warm (hn : ¬a.totalSamples < a.config.minObservations)
    (hclamp : clamp (castU64 ⌈a.forecast.1 / max a.config.jobsPerWorker epsilon⌉)
      a.config.minParallelism a.config.maxParallelism = some target) :
    ∃ r, a.recommend p = some r ∧ r.targetPoolSize = target ∧ r.forecastRate = a.forecast.1 ∧
      r.action = actionTowards a.config a.forecast.1 p target := by
  unfold recommend
  dsimp only
  rw [if_neg hn, hclamp]
  refine ⟨_, rfl, rfl, rfl, ?_⟩
  unfold actionTowards PredictiveAutoscalerConfig.scaleUpThreshold
    PredictiveAutoscalerConfig.scaleDownThreshold PredictiveAutoscalerConfig.capacity
  dsimp only
  split
  · rfl
  · split <;> rfl

theorem makes_actionTowards_iff {rate : ℚ} :
    (actionTowards config rate p target).Makes p target ↔
      (p < target → config.scaleUpThreshold p < rate) ∧
        (target < p → rate < config.scaleDownThreshold p) := by
  obtain hnat | heq | hnat := Nat.lt_trichotomy p.toNat target.toNat
  · have hlt : p < target := UInt64.lt_iff_toNat_lt.mpr hnat
    have hback : ¬target < p := UInt64.not_lt.mpr (UInt64.le_of_lt hlt)
    have hdelta := toNat_saturatingSub target p
    by_cases hup : config.scaleUpThreshold p < rate
    · simp [actionTowards, hup, hlt, hback, ScalingAction.Makes, UInt64.lt_iff_toNat_lt, hdelta]
      omega
    · simp [actionTowards, hup, hlt, hback, ScalingAction.Makes, (UInt64.ne_of_lt hlt).symm]
  · obtain rfl := UInt64.toNat_inj.mp heq
    simp [actionTowards, ScalingAction.Makes]
  · have hgt : target < p := UInt64.lt_iff_toNat_lt.mpr hnat
    have hback : ¬p < target := UInt64.not_lt.mpr (UInt64.le_of_lt hgt)
    have hdelta := toNat_saturatingSub p target
    by_cases hdown : rate < config.scaleDownThreshold p
    · simp [actionTowards, hdown, hgt, hback, ScalingAction.Makes, UInt64.lt_iff_toNat_lt,
        UInt64.le_iff_toNat_le, hdelta]
      omega
    · simp [actionTowards, hdown, hgt, hback, ScalingAction.Makes, UInt64.ne_of_lt hgt]

theorem lt_of_scaleUp {rate : ℚ} {n : UInt64}
    (h : actionTowards config rate p target = .scaleUp n) : config.scaleUpThreshold p < rate := by
  unfold actionTowards at h
  split at h
  · rename_i hup
    exact hup.1
  · split at h <;> cases h

theorem lt_of_scaleDown {rate : ℚ} {n : UInt64}
    (h : actionTowards config rate p target = .scaleDown n) :
    rate < config.scaleDownThreshold p := by
  unfold actionTowards at h
  split at h
  · cases h
  · split at h
    · rename_i hdown
      exact hdown.1
    · cases h

theorem consistent_cold {r : ScalingRecommendation} (hmin : config.minParallelism ≤ p)
    (hmax : p ≤ config.maxParallelism) (htarget : r.targetPoolSize = p)
    (haction : r.action = .hold) : config.Consistent p r where
  lower := htarget ▸ hmin
  upper := htarget ▸ hmax
  makes := by
    rw [haction]
    exact htarget
  up := fun _ h => by
    rw [haction] at h
    cases h
  down := fun _ h => by
    rw [haction] at h
    cases h

/-- The bounds and the thresholds are kept in any case: what can go wrong is a target away from
the pool size where the action is to hold. -/
theorem consistent_warm_iff {r : ScalingRecommendation}
    (hlower : config.minParallelism ≤ r.targetPoolSize)
    (hupper : r.targetPoolSize ≤ config.maxParallelism)
    (haction : r.action = actionTowards config r.forecastRate p r.targetPoolSize) :
    config.Consistent p r ↔ (p < r.targetPoolSize → config.scaleUpThreshold p < r.forecastRate) ∧
      (r.targetPoolSize < p → r.forecastRate < config.scaleDownThreshold p) := by
  rw [← makes_actionTowards_iff, ← haction]
  refine ⟨fun h => h.makes, fun hmakes => ⟨hlower, hupper, hmakes, fun n hn => ?_, fun n hn => ?_⟩⟩
  · exact lt_of_scaleUp (haction ▸ hn)
  · exact lt_of_scaleDown (haction ▸ hn)

/-- A recommendation is the result of its action as long as the band between the thresholds is
where the pool size is the one that the forecast takes. -/
theorem recommend_consistent_iff (hmin : config.minParallelism ≤ p)
    (hmax : p ≤ config.maxParallelism) :
    (∃ r, (observed config history).recommend p = some r ∧ config.Consistent p r) ↔
      history.length < config.minObservations ∨
        (p < config.maxParallelism →
          config.capacity (toRat p) < (observed config history).forecast.1 →
            config.scaleUpThreshold p < (observed config history).forecast.1) ∧
        (config.minParallelism < p →
          (observed config history).forecast.1 ≤ config.capacity (toRat p - 1) →
            (observed config history).forecast.1 < config.scaleDownThreshold p) := by
  obtain ⟨hconfig, htotal⟩ := @observed_keeps config history
  by_cases hn : history.length < config.minObservations
  · obtain ⟨r, hr, htarget, haction⟩ := recommend_cold (a := observed config history) (p := p)
      (by rwa [hconfig, htotal])
    exact iff_of_true ⟨r, hr, consistent_cold hmin hmax htarget haction⟩ (.inl hn)
  · have hw : 0 < max config.jobsPerWorker epsilon := lt_max_of_lt_right (by norm_num [epsilon])
    obtain ⟨target, hclamp, hlower, hupper, hside⟩ :=
      clamp_spec (castU64 ⌈(observed config history).forecast.1 / max config.jobsPerWorker epsilon⌉)
        (UInt64.le_trans hmin hmax)
    obtain ⟨hup, hdown⟩ := hside p hmin hmax
    obtain ⟨r, hr, htarget, hrate, haction⟩ := @recommend_warm (observed config history) p target
      (by rwa [hconfig, htotal]) (by rwa [hconfig])
    have hunique : (∃ r, (observed config history).recommend p = some r ∧ config.Consistent p r) ↔
        config.Consistent p r := by
      rw [hr]
      simp
    rw [hconfig, ← hrate, ← htarget] at haction
    rw [hunique, consistent_warm_iff (htarget ▸ hlower) (htarget ▸ hupper) haction,
      or_iff_right hn, htarget, hrate, hup, hdown, and_imp, and_imp]
    refine and_congr (forall_congr' fun hroom => ?_) (forall_congr' fun hroom => ?_)
    · have hfits : p.toNat < u64Max :=
        (UInt64.lt_iff_toNat_lt.mp hroom).trans_le (toNat_le_u64Max _)
      rw [lt_required_iff hw hfits, PredictiveAutoscalerConfig.capacity]
    · have hpos : 0 < p := UInt64.lt_of_le_of_lt (UInt64.zero_le) hroom
      rw [required_lt_iff hw hpos, PredictiveAutoscalerConfig.capacity]

/-- Ten samples a second apart, of 25 jobs each. -/
def steadyLoad : List LoadSample :=
  (List.range 10).map fun i => ⟨i, 25 * i, 3 / 10⟩

theorem recommend_consistent_iff_steady :
    (∃ r, (observed {} steadyLoad).recommend 3 = some r ∧
      PredictiveAutoscalerConfig.Consistent {} 3 r) ↔
      steadyLoad.length < ({} : PredictiveAutoscalerConfig).minObservations ∨
        ((3 : UInt64) < 64 → PredictiveAutoscalerConfig.capacity {} (toRat 3) <
            (observed {} steadyLoad).forecast.1 →
            PredictiveAutoscalerConfig.scaleUpThreshold {} 3 <
              (observed {} steadyLoad).forecast.1) ∧
        ((1 : UInt64) < 3 → (observed {} steadyLoad).forecast.1 ≤
            PredictiveAutoscalerConfig.capacity {} (toRat 3 - 1) →
            (observed {} steadyLoad).forecast.1 <
              PredictiveAutoscalerConfig.scaleDownThreshold {} 3) :=
  recommend_consistent_iff (by decide) (by decide)

/-- Three workers would do for 25 jobs a second, and a pool of four is told to hold at three. -/
theorem holds_at_another_size :
    ¬∃ r, (observed {} steadyLoad).recommend 4 = some r ∧
      PredictiveAutoscalerConfig.Consistent {} 4 r := by
  rintro ⟨r, hr, hconsistent⟩
  have hmakes := hconsistent.makes
  have hheld : ((observed {} steadyLoad).recommend 4).map (fun r => (r.action, r.targetPoolSize)) =
      some (.hold, 3) := by decide +kernel
  rw [hr] at hheld
  have hpair := Option.some.inj hheld
  rw [(Prod.mk.inj hpair).1, (Prod.mk.inj hpair).2] at hmakes
  exact absurd hmakes (show (3 : UInt64) ≠ 4 by decide)

end PredictiveAutoscaler

end HelixRouter.Scaling
