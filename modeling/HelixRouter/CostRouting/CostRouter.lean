import HelixRouter.Floats.F64
import HelixRouter.Interleaving.Ledger
import HelixRouter.Interleaving.Prog
import HelixRouter.Router.Types

namespace HelixRouter.CostRouting

open Floats Interleaving

def maxComputeCost : F64 := .finite 1000000

def cheapJobThreshold : F64 := .ofRat (1 / 20)

def expensiveJobThreshold : F64 := .ofRat (2 / 5)

def budgetPressureSoft : F64 := .ofRat (7 / 10)

def budgetPressureHard : F64 := .ofRat (9 / 10)

def kindWeight : JobKind → F64
  | .hashMix => .ofRat (3 / 10)
  | .primeCount => .ofRat (13 / 20)
  | .monteCarloRisk => .ofRat 1

def estimate (job : Job) : F64 :=
  (kindWeight job.kind).mul
    (((F64.ofU64 job.computeCost).div maxComputeCost).clamp (.finite 0) (.finite 2))

/-- To spawn a job stands for no opinion. -/
def recommend (normalisedCost budgetPressure : F64) (allowDrop : Bool) : Strategy :=
  if normalisedCost.le cheapJobThreshold then .inline
  else
    let isExpensive := expensiveJobThreshold.le normalisedCost
    if budgetPressureHard.le budgetPressure then
      if isExpensive && allowDrop then .drop else .batch
    else if budgetPressureSoft.le budgetPressure && isExpensive then .batch
    else .spawn

inductive Window where
  | minute
  | hour
  deriving DecidableEq

structure CostBudget where
  perMinuteLimit : F64 := .finite 500
  perHourLimit : F64 := .finite 20000
  currentMinute : F64 := .finite 0
  currentHour : F64 := .finite 0

def fraction (limit current : F64) : F64 :=
  if limit.le (.finite 0) then .finite 1 else (current.div limit).clamp (.finite 0) (.finite 1)

namespace CostBudget

variable (b : CostBudget)

def minuteFraction : F64 := fraction b.perMinuteLimit b.currentMinute

def hourFraction : F64 := fraction b.perHourLimit b.currentHour

def pressure : F64 := b.minuteFraction.max b.hourFraction

def record (cost : F64) : CostBudget :=
  { b with currentMinute := b.currentMinute.add cost, currentHour := b.currentHour.add cost }

def tickMinute : CostBudget := { b with currentMinute := .finite 0 }

def tickHour : CostBudget := { b with currentHour := .finite 0 }

def limit : Window → F64
  | .minute => b.perMinuteLimit
  | .hour => b.perHourLimit

def current : Window → F64
  | .minute => b.currentMinute
  | .hour => b.currentHour

end CostBudget

/-- The budget and the counters. What is spent on expensive jobs in a window, added up as the budget
does, how many of them wait between their check and their record, and the most that ever did are
noted besides, and no call reads them. -/
structure CostRouterInner where
  budget : CostBudget := {}
  costInlineCount : Nat := 0
  costBatchCount : Nat := 0
  costDropCount : Nat := 0
  totalSubmitted : Nat := 0
  spent : Window → F64 := fun _ => .finite 0
  waiting : Nat := 0
  peak : Nat := 0

/-- The atomic steps: one access to a counter or to the budget under its lock. -/
inductive Op where
  | countSubmitted
  | pressure (cost : F64)
  | countInline
  | countBatch
  | countDrop
  | record (cost : F64)
  | submit (job : Job)
  | tickMinute
  | tickHour

abbrev Op.Resp : Op → Type
  | .pressure _ => F64
  | .submit _ => Option (List Output)
  | _ => Unit

inductive Call where
  | submit (job : Job)
  | tickMinute
  | tickHour

def isExpensive (cost : F64) : Bool := expensiveJobThreshold.le cost

/-- An expensive job that is let through under a pressure. -/
def admits (allowDrop : Bool) (cost pressure : F64) : Bool :=
  isExpensive cost && recommend cost pressure allowDrop != .drop

namespace CostRouterInner

variable (s : CostRouterInner)

def wait (admitted : Bool) : CostRouterInner :=
  { s with
    waiting := s.waiting + admitted.toNat
    peak := max s.peak (s.waiting + admitted.toNat) }

def recordCost (cost : F64) : CostRouterInner :=
  { s with
    budget := s.budget.record cost
    spent := fun w => if isExpensive cost then (s.spent w).add cost else s.spent w
    waiting := s.waiting - (isExpensive cost).toNat }

def clear (w : Window) (budget : CostBudget) : CostRouterInner :=
  { s with budget, spent := Function.update s.spent w (.finite 0) }

end CostRouterInner

/-- What the base router answers comes from the environment. -/
def Op.exec (allowDrop : Bool) : (e : Op) → Option (List Output) → CostRouterInner →
    Option (e.Resp × CostRouterInner × List Call)
  | .countSubmitted, _, s => some ((), { s with totalSubmitted := s.totalSubmitted + 1 }, [])
  | .pressure cost, _, s =>
    some (s.budget.pressure, s.wait (admits allowDrop cost s.budget.pressure), [])
  | .countInline, _, s => some ((), { s with costInlineCount := s.costInlineCount + 1 }, [])
  | .countBatch, _, s => some ((), { s with costBatchCount := s.costBatchCount + 1 }, [])
  | .countDrop, _, s => some ((), { s with costDropCount := s.costDropCount + 1 }, [])
  | .record cost, _, s => some ((), s.recordCost cost, [])
  | .submit _, answer, s => some (answer, s, [])
  | .tickMinute, _, s => some ((), s.clear .minute s.budget.tickMinute, [])
  | .tickHour, _, s => some ((), s.clear .hour s.budget.tickHour, [])

abbrev CostM := Prog Op Op.Resp

abbrev Op.perform (e : Op) : CostM e.Resp := Prog.perform e

inductive Answer where
  | answered (outputs : Option (List Output))
  | blocked (jobId : UInt64) (normalisedCost budgetPressure : F64)
  | ticked

def recordAndSubmit (job : Job) : CostM Answer := do
  (Op.record (estimate job)).perform
  let result ← (Op.submit job).perform
  pure (.answered result)

def submit (allowDrop : Bool) (job : Job) : CostM Answer := do
  Op.countSubmitted.perform
  let budgetPressure ← (Op.pressure (estimate job)).perform
  match recommend (estimate job) budgetPressure allowDrop with
  | .drop => do
    Op.countDrop.perform
    pure (.blocked job.id (estimate job) budgetPressure)
  | .inline => do
    Op.countInline.perform
    recordAndSubmit job
  | .batch => do
    Op.countBatch.perform
    recordAndSubmit job
  | _ => recordAndSubmit job

def Call.body (allowDrop : Bool) : Call → CostM Answer
  | .submit job => CostRouting.submit allowDrop job
  | .tickMinute => do
    Op.tickMinute.perform
    pure .ticked
  | .tickHour => do
    Op.tickHour.perform
    pure .ticked

abbrev CostTask := Task Op Op.Resp Call Answer

abbrev CostPool := Pool Op Op.Resp CostRouterInner Call Answer

abbrev CostAction := Action (Option (List Output)) Call

/-- Any number of submissions and ticks at once. -/
def machine (allowDrop : Bool) :
    Machine Op Op.Resp CostRouterInner (Option (List Output)) Call Answer where
  exec := Op.exec allowDrop
  body := Call.body allowDrop
  external _ := true

def startPool (limits : Window → F64) : CostPool :=
  ⟨{ budget := { perMinuteLimit := limits .minute, perHourLimit := limits .hour } }, []⟩

section Costs

variable {cost pressure : F64} {allowDrop : Bool}

/-- The double that 0.9 stands for. -/
def hardShare : ℚ := F64.rounded (9 / 10)

theorem budgetPressureHard_eq : budgetPressureHard = .finite hardShare :=
  F64.ofRat_eq_rounded (by norm_num) (by norm_num)

theorem hardShare_nonneg : 0 ≤ hardShare := F64.rounded_nonneg (by norm_num)

theorem hardShare_le_one : hardShare ≤ 1 := by
  have hone := F64.rounded_natCast (n := 1) (by norm_num)
  rw [Nat.cast_one] at hone
  exact (F64.rounded_mono (by norm_num) (by norm_num)).trans_eq hone

theorem hard_le_one : budgetPressureHard.le (.finite 1) = true := by
  rw [budgetPressureHard_eq]
  simpa [F64.le, F64.lt] using hardShare_le_one

theorem kindWeight_eq (kind : JobKind) : ∃ q, kindWeight kind = .finite q ∧ 0 ≤ q ∧ q ≤ 1 := by
  have hweight : ∀ q : ℚ, 0 ≤ q → q ≤ 1 → ∃ v, F64.ofRat q = .finite v ∧ 0 ≤ v ∧ v ≤ 1 := by
    intro q h0 h1
    have hone := F64.rounded_natCast (n := 1) (by norm_num)
    rw [Nat.cast_one] at hone
    exact ⟨_, F64.ofRat_eq_rounded h0 (h1.trans (by norm_num)), F64.rounded_nonneg h0,
      (F64.rounded_mono h0 h1).trans_eq hone⟩
  cases kind <;> exact hweight _ (by norm_num) (by norm_num)

/-- A job costs between nothing and twice the greatest compute cost. -/
theorem estimate_eq (job : Job) : ∃ q, estimate job = .finite q ∧ 0 ≤ q ∧ q ≤ 2 := by
  obtain ⟨w, hw, hw0, hw1⟩ := kindWeight_eq job.kind
  obtain ⟨n, hn, -⟩ := F64.ofU64_eq_finite job.computeCost
  have hdiv : (F64.ofU64 job.computeCost).div maxComputeCost ≠ .nan := by
    rw [hn, maxComputeCost, F64.div, if_neg (by norm_num)]
    exact F64.ofRat_ne_nan _
  obtain ⟨v, hv, hv0, hv2⟩ := F64.clamp_finite hdiv (zero_le_two (α := ℚ))
  have hpos : 0 ≤ w * v := mul_nonneg hw0 hv0
  have htwo : w * v ≤ 2 := (mul_le_of_le_one_left hv0 hw1).trans hv2
  have hround := F64.rounded_natCast (n := 2) (by norm_num)
  rw [Nat.cast_ofNat] at hround
  refine ⟨F64.rounded (w * v), ?_, F64.rounded_nonneg hpos, ?_⟩
  · rw [estimate, hw, hv]
    exact F64.ofRat_eq_rounded hpos (htwo.trans (by norm_num))
  · exact (F64.rounded_mono hpos htwo).trans_eq hround

theorem not_cheap_of_isExpensive (h : isExpensive cost = true) :
    cost.le cheapJobThreshold = false := by
  refine Bool.eq_false_of_not_eq_true fun hcheap => ?_
  have hle : expensiveJobThreshold.le cheapJobThreshold = true := F64.le_trans h hcheap
  exact absurd hle (by decide +kernel)

/-- Only an expensive job is dropped, and only under hard pressure. -/
theorem recommend_drop_iff : recommend cost pressure allowDrop = .drop ↔
    isExpensive cost = true ∧ budgetPressureHard.le pressure = true ∧ allowDrop = true := by
  unfold recommend
  split
  · rename_i hcheap
    exact iff_of_false nofun fun h => nomatch (not_cheap_of_isExpensive h.1).symm.trans hcheap
  · dsimp only
    split
    · rename_i hhard
      simp [isExpensive, hhard]
    · rename_i hsoft
      split <;> simp [hsoft]

theorem recommend_inline (h : recommend cost pressure allowDrop = .inline) :
    isExpensive cost = false := by
  unfold recommend at h
  split at h
  · rename_i hcheap
    exact Bool.eq_false_of_not_eq_true fun hexpensive =>
      nomatch (not_cheap_of_isExpensive hexpensive).symm.trans hcheap
  · dsimp only at h
    split at h <;> split at h <;> cases h

/-- The most that may be spent in a window before hard pressure, if that is limited at all. -/
def cap : F64 → Option ℚ
  | .finite limit => some (max 0 (hardShare * limit))
  | .infinite true => some 0
  | _ => none

theorem cap_nonneg {limit : F64} {c : ℚ} (h : cap limit = some c) : 0 ≤ c := by
  cases limit with
  | finite q =>
    cases h
    exact le_max_left ..
  | infinite negative =>
    cases negative with
    | true =>
      cases h
      exact le_refl 0
    | false => cases h
  | nan => cases h

theorem le_cap_of_fraction {limit : F64} {current c : ℚ} (hcap : cap limit = some c)
    (h : budgetPressureHard.le (fraction limit (.finite current)) = false) : current ≤ c := by
  unfold fraction at h
  split at h
  · exact nomatch hard_le_one.symm.trans h
  · rename_i hpos
    cases limit with
    | nan => cases hcap
    | infinite negative =>
      cases negative with
      | true => exact absurd rfl hpos
      | false => cases hcap
    | finite q =>
      have hq : 0 < q := by simpa [F64.le, F64.lt] using hpos
      cases hcap
      by_contra hgt
      have hge : hardShare ≤ current / q := by
        rw [le_div_iff₀ hq]
        exact (lt_of_le_of_lt (le_max_right ..) (not_le.mp hgt)).le
      -- what the quotient reaches exactly it reaches rounded
      have hround : budgetPressureHard.le (.ofRat hardShare) = true := by
        have hsame : F64.ofRat hardShare = .finite hardShare := by
          rw [F64.ofRat_eq_rounded hardShare_nonneg (hardShare_le_one.trans (by norm_num)), hardShare,
            F64.rounded_rounded (by norm_num)]
        rw [hsame, budgetPressureHard_eq]
        simp [F64.le, F64.lt]
      have hreach := F64.le_ofRat_mono hardShare_nonneg hge hround
      rw [F64.div, if_neg hq.ne', F64.le_clamp hreach hard_le_one] at h
      cases h

/-- Whoever is let through has found both windows short of hard pressure. -/
theorem le_cap_of_admits {b : CostBudget} (h : admits true cost b.pressure = true) {w : Window}
    {current c : ℚ} (hcurrent : b.current w = .finite current) (hcap : cap (b.limit w) = some c) :
    current ≤ c := by
  rw [admits, Bool.and_eq_true, bne_iff_ne, ne_eq, recommend_drop_iff] at h
  have hshort : budgetPressureHard.le b.pressure ≠ true := fun hhard => h.2 ⟨h.1, hhard, rfl⟩
  refine le_cap_of_fraction hcap (Bool.eq_false_of_not_eq_true fun hfraction => hshort ?_)
  rw [← hcurrent] at hfraction
  cases w with
  | minute => exact F64.le_max_left hfraction
  | hour => exact F64.le_max_right hfraction

end Costs

end HelixRouter.CostRouting
