import HelixRouter.Router.Autoscaler
import Mathlib.Data.Rat.Sqrt
import Mathlib.Tactic.MkIffOfInductiveProp

namespace HelixRouter.Autoscaler

/-- A recommendation moves the way its direction says, to within the bounds. -/
@[mk_iff]
structure Sensible (config : AutoscalerConfig) (currentParallelism currentQueueCap : UInt64)
    (r : AutoscaleRecommendation) : Prop where
  up : r.direction = .up → currentParallelism ≤ r.recommendedParallelism ∧
    currentQueueCap ≤ r.recommendedQueueCap
  down : r.direction = .down → r.recommendedParallelism ≤ currentParallelism ∧
    r.recommendedQueueCap ≤ currentQueueCap
  parallelismBounds : r.direction ≠ .hold →
    config.minParallelism ≤ r.recommendedParallelism ∧
      r.recommendedParallelism ≤ config.maxParallelism
  queueCapBounds : r.direction ≠ .hold →
    config.minQueueCap ≤ r.recommendedQueueCap ∧ r.recommendedQueueCap ≤ config.maxQueueCap

section Branches

variable (a : Autoscaler) (predictedRate : ℚ) (currentQueueCap : UInt64)

def effectivePressure : ℚ :=
  max ((a.observations.getLast?.map (·.pressureScore)).getD 0)
    ((a.observations.getLast?.map (·.dropRate)).getD 0)

def ScalesUp : Prop :=
  a.config.highPressureThreshold < a.effectivePressure ∨
    toRat currentQueueCap * a.config.highLoadFraction < predictedRate

def ScalesDown : Prop :=
  ¬ a.ScalesUp predictedRate currentQueueCap ∧
    a.effectivePressure < a.config.lowPressureThreshold ∧
    predictedRate < toRat currentQueueCap * a.config.lowLoadFraction

instance : Decidable (a.ScalesUp predictedRate currentQueueCap) := inferInstanceAs (Decidable (_ ∨ _))

instance : Decidable (a.ScalesDown predictedRate currentQueueCap) :=
  inferInstanceAs (Decidable (_ ∧ _))

end Branches

section Steps

variable (config : AutoscalerConfig) (currentParallelism currentQueueCap : UInt64)

def stepUp (predictedRate : ℚ) : AutoscaleRecommendation where
  direction := .up
  recommendedParallelism := min (currentParallelism + 1) config.maxParallelism
  recommendedQueueCap := min (castU64 (toRat currentQueueCap * (5 / 4))) config.maxQueueCap
  predictedRate := predictedRate

def stepDown (predictedRate : ℚ) : AutoscaleRecommendation where
  direction := .down
  recommendedParallelism := max (saturatingSub currentParallelism 1) config.minParallelism
  recommendedQueueCap := max (castU64 (toRat currentQueueCap * (8 / 10))) config.minQueueCap
  predictedRate := predictedRate

/-- The current values are such that a step up leads into the bounds and not down. -/
@[mk_iff]
structure RoomAbove : Prop where
  parallelism : currentParallelism ≤ config.maxParallelism
  noWrap : currentParallelism.toNat < u64Max
  minParallelism : config.minParallelism.toNat ≤ currentParallelism.toNat + 1
  queueCap : currentQueueCap ≤ config.maxQueueCap
  minQueueCap : 4 * config.minQueueCap.toNat ≤ 5 * currentQueueCap.toNat

/-- The current values are such that a step down leads into the bounds and not up. -/
@[mk_iff]
structure RoomBelow : Prop where
  parallelism : config.minParallelism ≤ currentParallelism
  maxParallelism : currentParallelism.toNat ≤ config.maxParallelism.toNat + 1
  queueCap : config.minQueueCap ≤ currentQueueCap
  maxQueueCap : 4 * currentQueueCap.toNat < 5 * (config.maxQueueCap.toNat + 1)

end Steps

variable {a : Autoscaler} {config : AutoscalerConfig} {predictedRate : ℚ}
  {currentParallelism currentQueueCap : UInt64} {r : AutoscaleRecommendation}

theorem recommendWith_eq : a.recommendWith predictedRate currentParallelism currentQueueCap =
    if a.observations.length < a.config.minObservations then none
    else if a.ScalesUp predictedRate currentQueueCap then
      some (stepUp a.config currentParallelism currentQueueCap predictedRate)
    else if a.ScalesDown predictedRate currentQueueCap then
      some (stepDown a.config currentParallelism currentQueueCap predictedRate)
    else some ⟨.hold, currentParallelism, currentQueueCap, predictedRate⟩ := by
  unfold recommendWith
  by_cases hfew : a.observations.length < a.config.minObservations
  · rw [if_pos hfew, if_pos hfew]
  rw [if_neg hfew, if_neg hfew]
  by_cases hup : a.ScalesUp predictedRate currentQueueCap
  · rw [if_pos hup]
    exact if_pos hup
  rw [if_neg hup]
  refine (if_neg hup).trans ?_
  by_cases hdown : a.ScalesDown predictedRate currentQueueCap
  · rw [if_pos hdown]
    exact if_pos hdown.2
  · rw [if_neg hdown]
    exact if_neg fun h => hdown ⟨hup, h⟩

/-- Five quarters and four fifths of a capacity, as the casts round them. -/
theorem toNat_castU64_up : (castU64 (toRat currentQueueCap * (5 / 4))).toNat =
    min (5 * currentQueueCap.toNat / 4) u64Max := by
  rw [← toNat_castU64_div, toRat]
  push_cast
  ring_nf

theorem toNat_castU64_down : (castU64 (toRat currentQueueCap * (8 / 10))).toNat =
    min (4 * currentQueueCap.toNat / 5) u64Max := by
  rw [← toNat_castU64_div, toRat]
  push_cast
  ring_nf

theorem toNat_add_one : (currentParallelism + 1).toNat =
    if currentParallelism.toNat < u64Max then currentParallelism.toNat + 1 else 0 := by
  have hle := toNat_le_u64Max currentParallelism
  rw [UInt64.toNat_add]
  unfold u64Max at hle ⊢
  split <;> simp <;> omega

theorem sensible_stepUp_iff (hp : config.minParallelism ≤ config.maxParallelism)
    (hc : config.minQueueCap ≤ config.maxQueueCap) :
    Sensible config currentParallelism currentQueueCap
        (stepUp config currentParallelism currentQueueCap predictedRate) ↔
      RoomAbove config currentParallelism currentQueueCap := by
  have hcap := toNat_le_u64Max currentQueueCap
  have hmin := toNat_le_u64Max config.minQueueCap
  have hpos : 0 < u64Max := Nat.zero_lt_succ _
  rw [sensible_iff, roomAbove_iff]
  simp only [stepUp, reduceCtorEq, ne_eq, not_false_eq_true, forall_const, false_implies, true_and,
    UInt64.le_iff_toNat_le, toNat_min, toNat_castU64_up, toNat_add_one] at hp hc ⊢
  split <;> omega

theorem sensible_stepDown_iff (hp : config.minParallelism ≤ config.maxParallelism)
    (hc : config.minQueueCap ≤ config.maxQueueCap) :
    Sensible config currentParallelism currentQueueCap
        (stepDown config currentParallelism currentQueueCap predictedRate) ↔
      RoomBelow config currentParallelism currentQueueCap := by
  have hcap := toNat_le_u64Max currentQueueCap
  have hone : (1 : UInt64).toNat = 1 := rfl
  rw [sensible_iff, roomBelow_iff]
  simp only [stepDown, reduceCtorEq, ne_eq, not_false_eq_true, forall_const, false_implies, true_and,
    UInt64.le_iff_toNat_le, toNat_max, toNat_castU64_down, toNat_saturatingSub, hone] at hp hc ⊢
  omega

theorem sensible_hold (h : r.direction = .hold) : Sensible config currentParallelism currentQueueCap r := by
  refine ⟨fun hup => ?_, fun hdown => ?_, fun hne => absurd h hne, fun hne => absurd h hne⟩
  · exact nomatch h.symm.trans hup
  · exact nomatch h.symm.trans hdown

/-- Whatever rate is predicted, the recommendation is sensible just when there is room on the
side it moves to: each branch looks at one bound only. -/
theorem recommendWith_sensible_iff (a : Autoscaler) (predictedRate : ℚ)
    (currentParallelism currentQueueCap : UInt64)
    (hp : a.config.minParallelism ≤ a.config.maxParallelism)
    (hc : a.config.minQueueCap ≤ a.config.maxQueueCap) :
    (∀ r, a.recommendWith predictedRate currentParallelism currentQueueCap = some r →
        Sensible a.config currentParallelism currentQueueCap r) ↔
      (a.config.minObservations ≤ a.observations.length →
        (a.ScalesUp predictedRate currentQueueCap →
          RoomAbove a.config currentParallelism currentQueueCap) ∧
        (a.ScalesDown predictedRate currentQueueCap →
          RoomBelow a.config currentParallelism currentQueueCap)) := by
  rw [recommendWith_eq]
  by_cases hfew : a.observations.length < a.config.minObservations
  · rw [if_pos hfew]
    exact ⟨fun _ hle => absurd hle (Nat.not_le.mpr hfew), fun _ _ h => nomatch h⟩
  rw [if_neg hfew]
  simp only [Nat.not_lt.mp hfew, forall_const]
  by_cases hup : a.ScalesUp predictedRate currentQueueCap
  · have hdown : ¬ a.ScalesDown predictedRate currentQueueCap := fun h => h.1 hup
    rw [if_pos hup]
    simp only [Option.some.injEq, forall_eq', sensible_stepUp_iff hp hc, hup, hdown, forall_const,
      false_implies, and_true]
  rw [if_neg hup]
  by_cases hdown : a.ScalesDown predictedRate currentQueueCap
  · rw [if_pos hdown]
    simp only [Option.some.injEq, forall_eq', sensible_stepDown_iff hp hc, hup, hdown, forall_const,
      false_implies, true_and]
  · rw [if_neg hdown]
    simp only [Option.some.injEq, forall_eq', hup, hdown, false_implies, and_self, iff_true]
    exact sensible_hold rfl

/-- Five observations under high pressure. -/
def pressed : Autoscaler :=
  (List.range 5).foldl (fun a i => a.observe ⟨10 * i, 100 * i, 9 / 10, 0⟩) {}

theorem recommendWith_sensible_pressed :
    (∀ r, pressed.recommendWith 10 4 512 = some r → Sensible pressed.config 4 512 r) ↔
      (pressed.config.minObservations ≤ pressed.observations.length →
        (pressed.ScalesUp 10 512 → RoomAbove pressed.config 4 512) ∧
        (pressed.ScalesDown 10 512 → RoomBelow pressed.config 4 512)) :=
  recommendWith_sensible_iff pressed 10 4 512 (by decide +kernel) (by decide +kernel)

/-- Scaled up from a hundred workers to sixty-four. -/
theorem pressed_scales_up_to_fewer : ¬ ∀ r, pressed.recommend Rat.sqrt 100 512 = some r →
    Sensible pressed.config 100 512 r := by
  intro h
  have hr : (pressed.recommend Rat.sqrt 100 512).map
      (fun r => (r.direction, r.recommendedParallelism)) = some (.up, 64) := by decide +kernel
  obtain ⟨r, hrec, hfields⟩ := Option.map_eq_some_iff.mp hr
  obtain ⟨hdir, hpar⟩ := Prod.mk.inj hfields
  have hle := ((h r hrec).up hdir).1
  rw [hpar] at hle
  exact absurd hle (by decide)

end HelixRouter.Autoscaler
