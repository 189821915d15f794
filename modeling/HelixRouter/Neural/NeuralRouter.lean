import HelixRouter.Router.Numbers
import HelixRouter.Router.Types
import HelixRouter.Statistics.Samples
import Mathlib.Logic.Function.Basic

namespace HelixRouter.Neural

structure NeuralRouterConfig where
  learningRate : ℚ := 1 / 100
  epsilon : ℚ := 1 / 10
  dropPressureThreshold : ℚ := 8 / 10
  minSamplesBeforeLearning : Nat := 10
  epsilonDecay : ℚ := 5 / 100
  maxComputeCost : ℚ := 1000000
  maxLatencyBudgetMs : ℚ := 5000

/-- What was seen of a routed job. -/
structure StrategyOutcome where
  strategy : Strategy
  latencyMs : UInt64
  budgetMs : UInt64
  dropped : Bool

def rewardWithinBudget : ℚ := 1

def rewardOverBudget : ℚ := -1 / 2

def rewardDropped : ℚ := -1

def StrategyOutcome.reward (outcome : StrategyOutcome) : ℚ :=
  if outcome.dropped then rewardDropped
  else if outcome.latencyMs ≤ outcome.budgetMs then rewardWithinBudget
  else rewardOverBudget

/-- Weights and counts, a row or an entry for each strategy. -/
structure NeuralRouter where
  config : NeuralRouterConfig
  weights : Strategy → List ℚ
  sampleCount : Nat := 0
  totalReward : ℚ := 0
  rewardM2 : ℚ := 0
  perStrategyCounts : Strategy → Nat := fun _ => 0

/-- What can be stored of a router and given to another one. -/
structure WeightSnapshot where
  weights : Strategy → List ℚ
  sampleCount : Nat
  totalReward : ℚ

/-- The next state of the generator of first weights. -/
def lcgNext (state : UInt64) : UInt64 := state * 6364136223846793005 + 1442695040888963407

def smallWeights : Nat → UInt64 → List ℚ × UInt64
  | 0, state => ([], state)
  | n + 1, state =>
    let state := lcgNext state
    let (weights, last) := smallWeights n state
    ((toRat state / (u64Max : ℚ) - 1 / 2) * (1 / 10) :: weights, last)

/-- The rows are drawn one after the other, of seven weights each. -/
def initialWeights (s : Strategy) : List ℚ :=
  let row := match s with
    | .inline => 0
    | .spawn => 1
    | .cpuPool => 2
    | .batch => 3
    | .drop => 4
  ((smallWeights 35 0xDEADBEEFCAFE1234).1.drop (7 * row)).take 7

def clamp01 (q : ℚ) : ℚ := max 0 (min q 1)

/-- The seven features of a job, given the number that an `f32` stands for. A zero
denominator gives no number, which moves no weight, as zero does. -/
def featureVectorNormalized (f32 : Float32 → ℚ) (job : Job) (pressure maxCost maxBudget : ℚ) :
    List ℚ :=
  [toRat (min job.computeCost (castU64 maxCost)) / maxCost,
    if job.kind = .hashMix then 1 else 0,
    if job.kind = .primeCount then 1 else 0,
    if job.kind = .monteCarloRisk then 1 else 0,
    clamp01 (f32 job.scalingPotential),
    toRat (min job.latencyBudgetMs (castU64 maxBudget)) / maxBudget,
    clamp01 pressure]

namespace NeuralRouter

def new (config : NeuralRouterConfig) : NeuralRouter where
  config := config
  weights := initialWeights

/-- Exploration is reduced at every hundredth sample. -/
def decayedEpsilon (config : NeuralRouterConfig) (sampleCount : Nat) : ℚ :=
  if 0 < config.epsilonDecay ∧ sampleCount % 100 = 0 then
    max (config.epsilon * (1 - config.epsilonDecay)) (1 / 100)
  else config.epsilon

def recordOutcome (f32 : Float32 → ℚ) (n : NeuralRouter) (job : Job) (pressure : ℚ)
    (outcome : StrategyOutcome) : NeuralRouter :=
  let reward := outcome.reward
  let totalReward := n.totalReward + reward
  let sampleCount := n.sampleCount + 1
  let mean := if sampleCount = 1 then reward else totalReward / sampleCount
  let delta := reward - (totalReward - reward) / ((max (sampleCount - 1) 1 : Nat) : ℚ)
  let delta2 := reward - mean
  let counts := Function.update n.perStrategyCounts outcome.strategy
    (n.perStrategyCounts outcome.strategy + 1)
  let config := { n.config with epsilon := decayedEpsilon n.config sampleCount }
  let features := featureVectorNormalized f32 job pressure config.maxComputeCost
    config.maxLatencyBudgetMs
  let weights :=
    if sampleCount < config.minSamplesBeforeLearning then n.weights
    else Function.update n.weights outcome.strategy
      ((n.weights outcome.strategy).zipWith (fun w f => w + config.learningRate * reward * f)
        features)
  { config := config
    weights := weights
    sampleCount := sampleCount
    totalReward := totalReward
    rewardM2 := n.rewardM2 + delta * delta2
    perStrategyCounts := counts }

def avgReward (n : NeuralRouter) : ℚ :=
  if n.sampleCount = 0 then 0 else n.totalReward / n.sampleCount

def rewardVariance (n : NeuralRouter) : ℚ :=
  if n.sampleCount < 2 then 0 else n.rewardM2 / ((n.sampleCount - 1 : Nat) : ℚ)

def snapshot (n : NeuralRouter) : WeightSnapshot := ⟨n.weights, n.sampleCount, n.totalReward⟩

/-- Neither the sum of squares nor the counts of the strategies are in a snapshot. -/
def restore (n : NeuralRouter) (snap : WeightSnapshot) : NeuralRouter :=
  { n with
    weights := snap.weights
    sampleCount := snap.sampleCount
    totalReward := snap.totalReward }

def heuristicWeights : Strategy → List ℚ
  | .inline => [-2, 1 / 2, 0, 0, 0, 1 / 2, -1]
  | .spawn => [1 / 2, 3 / 10, 3 / 10, 0, 0, 3 / 10, -1 / 2]
  | .cpuPool => [3 / 2, 0, 1 / 2, 1 / 2, -1, 0, -1 / 2]
  | .batch => [1, 0, 0, 3 / 10, 8 / 10, 0, 0]
  | .drop => [-1, -1, -1, -1, -1, -1, 2]

/-- The sample count is moved past the warm-up, with no outcome recorded. -/
def warmStartFromHeuristics (n : NeuralRouter) : NeuralRouter :=
  { n with
    weights := heuristicWeights
    sampleCount := max n.sampleCount n.config.minSamplesBeforeLearning }

/-- The entries of `per_strategy_counts`, added up. -/
def totalCount (n : NeuralRouter) : Nat :=
  n.perStrategyCounts .inline + n.perStrategyCounts .spawn + n.perStrategyCounts .cpuPool +
    n.perStrategyCounts .batch + n.perStrategyCounts .drop

end NeuralRouter

open Statistics

/-- How a router came to be what it is. A snapshot restored into it was taken from a router
with a life of its own. -/
inductive Life where
  | new (config : NeuralRouterConfig)
  | record (life : Life) (job : Job) (pressure : ℚ) (outcome : StrategyOutcome)
  | warmStart (life : Life)
  | restore (life source : Life)

section Lives

variable (f32 : Float32 → ℚ)

def Life.router : Life → NeuralRouter
  | .new config => .new config
  | .record life job pressure outcome => life.router.recordOutcome f32 job pressure outcome
  | .warmStart life => life.router.warmStartFromHeuristics
  | .restore life source => life.router.restore source.router.snapshot

/-- The rewards of the outcomes the state stands for: a restored router goes on from what
the other one had recorded. -/
def Life.rewards : Life → List ℚ
  | .new _ => []
  | .record life _ _ outcome => life.rewards ++ [outcome.reward]
  | .warmStart life => life.rewards
  | .restore _ source => source.rewards

/-- The statistics are those of the rewards. -/
structure NeuralRouter.Right (n : NeuralRouter) (rewards : List ℚ) : Prop where
  average : n.avgReward = mean rewards
  variance : n.rewardVariance = sampleVariance rewards
  counts : n.totalCount = rewards.length

/-- The statistics were right all along, those of a router that was restored from included. -/
def Life.AlwaysRight : Life → Prop
  | .new config => (NeuralRouter.new config).Right []
  | .record life job pressure outcome => life.AlwaysRight ∧
      ((Life.record life job pressure outcome).router f32).Right
        (Life.record life job pressure outcome).rewards
  | .warmStart life => life.AlwaysRight ∧ ((Life.warmStart life).router f32).Right life.rewards
  | .restore life source => life.AlwaysRight ∧ source.AlwaysRight ∧
      ((Life.restore life source).router f32).Right source.rewards

/-- An outcome is recorded while the count is that of the outcomes, a warm start raises no
count but that of a router without outcomes, and what a snapshot leaves out is the same in
both routers. -/
def Life.Careful : Life → Prop
  | .new _ => True
  | .record life _ _ _ => life.Careful ∧ (life.router f32).sampleCount = life.rewards.length
  | .warmStart life => life.Careful ∧
      ((life.router f32).sampleCount < (life.router f32).config.minSamplesBeforeLearning →
        life.rewards = [])
  | .restore life source => life.Careful ∧ source.Careful ∧
      (life.router f32).totalCount = (source.router f32).totalCount ∧
      (life.router f32).rewardM2 = (source.router f32).rewardM2

end Lives

/-- What the fields hold: only the sample count may be ahead, while there is no outcome. -/
structure NeuralRouter.Tidy (n : NeuralRouter) (rewards : List ℚ) : Prop where
  total : n.totalReward = rewards.sum
  squares : n.rewardM2 = sumSqDev rewards
  counts : n.totalCount = rewards.length
  samples : n.sampleCount = rewards.length ∨ rewards = []

section Rewards

variable {f32 : Float32 → ℚ} {n : NeuralRouter} {rewards : List ℚ} {job : Job} {pressure : ℚ}
  {outcome : StrategyOutcome}

theorem reward_ne_zero (outcome : StrategyOutcome) : outcome.reward ≠ 0 := by
  unfold StrategyOutcome.reward rewardDropped rewardWithinBudget rewardOverBudget
  split
  · norm_num
  · split
    · norm_num
    · norm_num

theorem rewards_ne_zero (life : Life) : ∀ x ∈ life.rewards, x ≠ 0 := by
  induction life with
  | new config => exact fun _ h => nomatch h
  | record life job pressure outcome ih =>
    intro x hx
    rcases List.mem_append.mp hx with hx | hx
    · exact ih x hx
    · rw [List.mem_singleton.mp hx]
      exact reward_ne_zero outcome
  | warmStart life ih => exact ih
  | restore life source _ ih => exact ih

theorem totalCount_recordOutcome :
    (n.recordOutcome f32 job pressure outcome).totalCount = n.totalCount + 1 := by
  unfold NeuralRouter.totalCount NeuralRouter.recordOutcome
  cases outcome.strategy <;> simp <;> omega

/-- Recording adds what one reward more adds to the deviations. -/
theorem rewardM2_recordOutcome (ht : n.totalReward = rewards.sum)
    (hs : n.sampleCount = rewards.length) :
    (n.recordOutcome f32 job pressure outcome).rewardM2 = n.rewardM2 +
      (outcome.reward - mean rewards) * (outcome.reward - mean (rewards ++ [outcome.reward])) := by
  unfold NeuralRouter.recordOutcome mean
  simp only [ht, hs, add_sub_cancel_right, List.sum_append, List.sum_singleton, List.length_append,
    List.length_singleton, Nat.add_sub_cancel]
  by_cases hr : rewards = []
  · simp [hr]
  · have hpos : 0 < rewards.length := List.length_pos_iff.mpr hr
    rw [if_neg (by omega), Nat.max_eq_left hpos]

theorem NeuralRouter.Tidy.record (h : n.Tidy rewards) (hs : n.sampleCount = rewards.length) :
    (n.recordOutcome f32 job pressure outcome).Tidy (rewards ++ [outcome.reward]) := by
  refine ⟨?_, ?_, ?_, Or.inl ?_⟩
  · simp [NeuralRouter.recordOutcome, h.total]
  · rw [rewardM2_recordOutcome h.total hs, h.squares, sumSqDev_concat]
  · rw [totalCount_recordOutcome, h.counts, List.length_append, List.length_singleton]
  · simp [NeuralRouter.recordOutcome, hs]

/-- Tidy fields give the right statistics. -/
theorem NeuralRouter.Tidy.right (h : n.Tidy rewards) : n.Right rewards := by
  rcases h.samples with hs | rfl
  · refine ⟨?_, ?_, h.counts⟩
    · unfold NeuralRouter.avgReward mean
      rw [hs, h.total]
      split
      · rename_i hz
        simp [hz]
      · rfl
    · unfold NeuralRouter.rewardVariance sampleVariance
      rw [hs, h.squares]
  · refine ⟨?_, ?_, h.counts⟩
    · simp [NeuralRouter.avgReward, mean, h.total]
    · simp [NeuralRouter.rewardVariance, sampleVariance, h.squares, sumSqDev]

end Rewards

section Conditions

variable {f32 : Float32 → ℚ} {n m : NeuralRouter} {rewards others : List ℚ} {job : Job}
  {pressure : ℚ} {outcome : StrategyOutcome}

/-- The first reward on top of a raised count is averaged over too many. -/
theorem samples_of_record_right (h : n.Tidy rewards)
    (hr : (n.recordOutcome f32 job pressure outcome).Right (rewards ++ [outcome.reward])) :
    n.sampleCount = rewards.length := by
  rcases h.samples with hs | rfl
  · exact hs
  · have havg := hr.average
    have hc : ((n.sampleCount : ℚ) + 1) ≠ 0 := Nat.cast_add_one_ne_zero _
    simp only [NeuralRouter.avgReward, NeuralRouter.recordOutcome, h.total, mean,
      Nat.add_eq_zero_iff, one_ne_zero, and_false, if_false, List.sum_nil, zero_add,
      List.nil_append, List.sum_singleton, List.length_singleton, Nat.cast_add, Nat.cast_one,
      div_one] at havg
    rw [div_eq_iff hc, mul_add, mul_one, right_eq_add, mul_eq_zero] at havg
    rcases havg with hzero | hcount
    · exact absurd hzero (reward_ne_zero outcome)
    · exact Nat.cast_eq_zero.mp hcount

/-- A raised count changes the average of rewards, or else their variance. -/
theorem nil_of_warmStart_right (h : n.Tidy rewards) (hne : ∀ x ∈ rewards, x ≠ 0)
    (hr : n.warmStartFromHeuristics.Right rewards)
    (hraise : n.sampleCount < n.config.minSamplesBeforeLearning) : rewards = [] := by
  rcases h.samples with hs | hnil
  swap
  · exact hnil
  by_contra hrewards
  obtain ⟨x, hx⟩ := List.exists_mem_of_ne_nil rewards hrewards
  have hpos : 0 < rewards.length := List.length_pos_iff.mpr hrewards
  generalize hmin : n.config.minSamplesBeforeLearning = min at hraise
  have hmax : max n.sampleCount min = min := Nat.max_eq_right (Nat.le_of_lt hraise)
  rw [hs] at hraise
  have hlen : (rewards.length : ℚ) ≠ 0 := Nat.cast_ne_zero.mpr (Nat.ne_of_gt hpos)
  have hmin0 : (min : ℚ) ≠ 0 := Nat.cast_ne_zero.mpr (by omega)
  have hsum : rewards.sum = 0 := by
    have havg := hr.average
    simp only [NeuralRouter.avgReward, NeuralRouter.warmStartFromHeuristics, hmin, hmax, h.total,
      mean] at havg
    rw [if_neg (by omega), div_eq_div_iff hmin0 hlen] at havg
    by_contra hsum
    have hcast : (rewards.length : ℚ) = min := mul_left_cancel₀ hsum havg
    have := Nat.cast_injective hcast
    omega
  have hdev : 0 < sumSqDev rewards := sumSqDev_pos hsum hx (hne x hx)
  have htwo : 2 ≤ rewards.length := by
    by_contra hlt
    rw [sumSqDev_of_length_le_one (by omega)] at hdev
    exact absurd hdev (lt_irrefl 0)
  have hvar := hr.variance
  simp only [NeuralRouter.rewardVariance, NeuralRouter.warmStartFromHeuristics, hmin, hmax,
    h.squares, sampleVariance] at hvar
  have hone : ((rewards.length - 1 : Nat) : ℚ) ≠ 0 := Nat.cast_ne_zero.mpr (by omega)
  have hmin1 : ((min - 1 : Nat) : ℚ) ≠ 0 := Nat.cast_ne_zero.mpr (by omega)
  rw [if_neg (by omega), if_neg (by omega), div_eq_div_iff hmin1 hone] at hvar
  have hcast : ((rewards.length - 1 : Nat) : ℚ) = (min - 1 : Nat) :=
    mul_left_cancel₀ hdev.ne' hvar
  have := Nat.cast_injective hcast
  omega

/-- What a snapshot leaves out has to be there already. -/
theorem kept_of_restore_right (h : n.Tidy rewards) (hm : m.Tidy others)
    (hr : (n.restore m.snapshot).Right others) :
    n.totalCount = m.totalCount ∧ n.rewardM2 = m.rewardM2 := by
  have hcounts : n.totalCount = others.length := hr.counts
  refine ⟨hcounts.trans hm.counts.symm, ?_⟩
  by_cases htwo : 2 ≤ others.length
  · have hs : m.sampleCount = others.length := by
      rcases hm.samples with hs | hnil
      · exact hs
      · rw [hnil] at htwo
        cases htwo
    have hvar := hr.variance
    simp only [NeuralRouter.rewardVariance, NeuralRouter.restore, NeuralRouter.snapshot, hs,
      sampleVariance] at hvar
    have hone : ((others.length - 1 : Nat) : ℚ) ≠ 0 := Nat.cast_ne_zero.mpr (by omega)
    rw [if_neg (by omega), if_neg (by omega), div_left_inj' hone] at hvar
    rw [hvar, hm.squares]
  · have hrewards : rewards.length = others.length := h.counts.symm.trans hcounts
    rw [h.squares, hm.squares, sumSqDev_of_length_le_one (by omega),
      sumSqDev_of_length_le_one (by omega)]

end Conditions

section Runs

variable {f32 : Float32 → ℚ} {life : Life}

theorem Life.Careful.tidy (h : life.Careful f32) : (life.router f32).Tidy life.rewards := by
  induction life with
  | new config => exact ⟨rfl, rfl, rfl, Or.inr rfl⟩
  | record life job pressure outcome ih => exact (ih h.1).record h.2
  | warmStart life ih =>
    have htidy := ih h.1
    refine ⟨htidy.total, htidy.squares, htidy.counts, ?_⟩
    by_cases hraise : (life.router f32).sampleCount <
        (life.router f32).config.minSamplesBeforeLearning
    · exact Or.inr (h.2 hraise)
    · have hmax : max (life.router f32).sampleCount
          (life.router f32).config.minSamplesBeforeLearning = (life.router f32).sampleCount :=
        Nat.max_eq_left (Nat.le_of_not_lt hraise)
      exact htidy.samples.imp_left fun hs => hmax.trans hs
  | restore life source _ ih =>
    obtain ⟨_, hsource, hcounts, hsquares⟩ := h
    have htidy := ih hsource
    exact ⟨htidy.total, hsquares.trans htidy.squares, hcounts.trans htidy.counts, htidy.samples⟩

/-- The statistics are right all along exactly if every step is careful. -/
theorem alwaysRight_iff_careful (f32 : Float32 → ℚ) (life : Life) :
    life.AlwaysRight f32 ↔ life.Careful f32 := by
  induction life with
  | new config =>
    have htidy : (NeuralRouter.new config).Tidy [] := ⟨rfl, rfl, rfl, Or.inr rfl⟩
    exact iff_of_true htidy.right trivial
  | record life job pressure outcome ih =>
    constructor
    · rintro ⟨hlife, hright⟩
      have hcareful := ih.mp hlife
      exact ⟨hcareful, samples_of_record_right hcareful.tidy hright⟩
    · intro h
      exact ⟨ih.mpr h.1, h.tidy.right⟩
  | warmStart life ih =>
    constructor
    · rintro ⟨hlife, hright⟩
      have hcareful := ih.mp hlife
      exact ⟨hcareful, nil_of_warmStart_right hcareful.tidy (rewards_ne_zero life) hright⟩
    · intro h
      exact ⟨ih.mpr h.1, h.tidy.right⟩
  | restore life source ih ihsource =>
    constructor
    · rintro ⟨hlife, hsource, hright⟩
      have hcareful := ih.mp hlife
      have hcareful' := ihsource.mp hsource
      exact ⟨hcareful, hcareful',
        kept_of_restore_right hcareful.tidy hcareful'.tidy hright⟩
    · intro h
      exact ⟨ih.mpr h.1, ihsource.mpr h.2.1, h.tidy.right⟩

end Runs

/-- A job done in time is recorded by a router as `Router::new` makes it. -/
def firstOutcome : Life :=
  .record (.warmStart (.new {})) {} 0
    { strategy := .inline, latencyMs := 0, budgetMs := 1, dropped := false }

/-- Its one reward is averaged over eleven samples. -/
theorem warmStart_dilutes : ¬ (firstOutcome.router fun _ => 0).Right firstOutcome.rewards := by
  intro h
  have havg : (firstOutcome.router fun _ => 0).avgReward = 1 / 11 := by decide +kernel
  have hmean : mean firstOutcome.rewards = 1 := by decide +kernel
  have := h.average
  rw [havg, hmean] at this
  norm_num at this

end HelixRouter.Neural
