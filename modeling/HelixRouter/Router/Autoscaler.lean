import HelixRouter.Router.Numbers
import Mathlib.Algebra.BigOperators.Group.List.Basic
import Mathlib.Algebra.Order.Field.Basic
import Mathlib.Algebra.Order.Group.Unbundled.Abs

namespace HelixRouter

structure LoadObservation where
  timestampSecs : Nat
  totalJobs : Nat
  pressureScore : ℚ
  dropRate : ℚ

structure AutoscalerConfig where
  ringBufferCap : Nat := 60
  minObservations : Nat := 5
  predictHorizonSecs : Nat := 30
  highPressureThreshold : ℚ := 3 / 4
  lowPressureThreshold : ℚ := 1 / 4
  highLoadFraction : ℚ := 8 / 10
  lowLoadFraction : ℚ := 3 / 10
  maxParallelism : UInt64 := 64
  minParallelism : UInt64 := 1
  maxQueueCap : UInt64 := 4096
  minQueueCap : UInt64 := 16

inductive ScaleDirection where
  | up
  | down
  | hold
  deriving DecidableEq, Repr

structure AutoscaleRecommendation where
  direction : ScaleDirection
  recommendedParallelism : UInt64
  recommendedQueueCap : UInt64
  predictedRate : ℚ

/-- The ring buffer runs from its oldest observation to its newest. -/
structure Autoscaler where
  config : AutoscalerConfig := {}
  observations : List LoadObservation := []
  rateEma : ℚ := 0
  rateVariance : ℚ := 0

namespace Autoscaler

def rateEmaAlpha : ℚ := 1 / 5

/-- The moving average and variance after one more interval rate. -/
def observeRate (a : Autoscaler) (instantRate : ℚ) : Autoscaler :=
  if a.rateEma = 0 then { a with rateEma := instantRate, rateVariance := 1 / 100 }
  else
    let diff := instantRate - a.rateEma
    { a with
      rateEma := rateEmaAlpha * instantRate + (1 - rateEmaAlpha) * a.rateEma
      rateVariance := (1 - rateEmaAlpha) * (a.rateVariance + rateEmaAlpha * diff * diff) }

/-- Jobs per second between two observations, unless they share a timestamp. -/
def intervalRate (prev obs : LoadObservation) : Option ℚ :=
  let dt := obs.timestampSecs - prev.timestampSecs
  if dt = 0 then none else some (((obs.totalJobs - prev.totalJobs : Nat) : ℚ) / (dt : ℚ))

def observe (a : Autoscaler) (obs : LoadObservation) : Autoscaler :=
  let a := match a.observations.getLast?.bind (fun prev => intervalRate prev obs) with
    | some rate => a.observeRate rate
    | none => a
  let kept := if a.observations.length = a.config.ringBufferCap then a.observations.tail
    else a.observations
  { a with observations := kept ++ [obs] }

section Prediction

variable {K : Type} [Field K] [LinearOrder K]

/-- The horizon shrinks to one half as the load gets more volatile. The root may lie in a
number type that is wider than the rationals. -/
def effectiveHorizonSecs (sqrt : ℚ → K) (a : Autoscaler) : K :=
  let cv := if 0 < a.rateEma then sqrt a.rateVariance / a.rateEma else 0
  (a.config.predictHorizonSecs : K) * max (1 - min cv 1 * (1 / 2)) (1 / 2)

/-- The points of the fit: midpoint of each interval and its rate. -/
def ratePoints (first : Nat) : List LoadObservation → List (ℚ × ℚ)
  | prev :: obs :: rest =>
    let points := ratePoints first (obs :: rest)
    match intervalRate prev obs with
    | some rate =>
      let dt := obs.timestampSecs - prev.timestampSecs
      (((prev.timestampSecs + dt / 2 - first : Nat) : ℚ), rate) :: points
    | none => points
  | _ => []

/-- Intercept and slope of the least-squares line; a flat one when all points share an abscissa. -/
def fitLine (n sumX sumY sumXX sumXY : K) : K × K :=
  let denom := n * sumXX - sumX * sumX
  if |denom| < 1 / 2 ^ 52 then (sumY / n, 0)
  else
    let slope := (n * sumXY - sumX * sumY) / denom
    ((sumY - slope * sumX) / n, slope)

def leastSquares (points : List (K × K)) : K × K :=
  fitLine (points.length : K) (points.map (fun p => p.1)).sum (points.map (fun p => p.2)).sum
    (points.map (fun p => p.1 * p.1)).sum (points.map (fun p => p.1 * p.2)).sum

def predictRate (sqrt : ℚ → K) (a : Autoscaler) : K :=
  match a.observations.head?, a.observations.getLast? with
  | some first, some last =>
    let points := (ratePoints first.timestampSecs a.observations).map fun p => ((p.1 : K), (p.2 : K))
    if points = [] then 0
    else
      let line := leastSquares points
      let at_ := ((last.timestampSecs - first.timestampSecs : Nat) : K) +
        a.effectiveHorizonSecs sqrt
      max (line.1 + line.2 * at_) 0
  | _, _ => 0

end Prediction

/-- The recommendation for a predicted rate. -/
def recommendWith (a : Autoscaler) (predictedRate : ℚ) (currentParallelism currentQueueCap : UInt64) :
    Option AutoscaleRecommendation :=
  if a.observations.length < a.config.minObservations then none
  else
    let latest := a.observations.getLast?
    let pressure := max ((latest.map (·.pressureScore)).getD 0) ((latest.map (·.dropRate)).getD 0)
    let cap := toRat currentQueueCap
    let highLoad := cap * a.config.highLoadFraction < predictedRate
    let highPressure := a.config.highPressureThreshold < pressure
    let lowLoad := predictedRate < cap * a.config.lowLoadFraction
    let lowPressure := pressure < a.config.lowPressureThreshold
    if highPressure ∨ highLoad then
      some {
        direction := .up
        recommendedParallelism := min (currentParallelism + 1) a.config.maxParallelism
        recommendedQueueCap := min (castU64 (cap * (5 / 4))) a.config.maxQueueCap
        predictedRate := predictedRate }
    else if lowPressure ∧ lowLoad then
      some {
        direction := .down
        recommendedParallelism :=
          max (saturatingSub currentParallelism 1) a.config.minParallelism
        recommendedQueueCap := max (castU64 (cap * (8 / 10))) a.config.minQueueCap
        predictedRate := predictedRate }
    else
      some {
        direction := .hold
        recommendedParallelism := currentParallelism
        recommendedQueueCap := currentQueueCap
        predictedRate := predictedRate }

def recommend (sqrt : ℚ → ℚ) (a : Autoscaler) (currentParallelism currentQueueCap : UInt64) :
    Option AutoscaleRecommendation :=
  a.recommendWith (a.predictRate sqrt) currentParallelism currentQueueCap

end Autoscaler

end HelixRouter
