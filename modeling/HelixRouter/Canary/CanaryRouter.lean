import HelixRouter.Arithmetic.Residues
import HelixRouter.Router.Numbers
import HelixRouter.Router.Types
import HelixRouter.Runs.Stepwise
import Mathlib.Algebra.Order.Round

namespace HelixRouter.Canary

structure CanaryConfig where
  canaryPct : ℚ := 1 / 10
  minSamples : UInt64 := 50
  promoteThreshold : Float := 0.05
  rollbackThreshold : Float := 0.03

structure CohortMetrics where
  jobs : UInt64 := 0
  completed : UInt64 := 0
  dropped : UInt64 := 0
  qualitySum : Float := 0

namespace CohortMetrics

def meanQuality (m : CohortMetrics) : Float :=
  if m.completed = 0 then 0 else m.qualitySum / m.completed.toFloat

def magnitude : Output → Float
  | .u64 v => v.toFloat
  | .f64 v => v.abs

def record (m : CohortMetrics) : Option (List Output) → CohortMetrics
  | none => { m with jobs := m.jobs + 1, dropped := m.dropped + 1 }
  | some outs =>
    let m := { m with jobs := m.jobs + 1, completed := m.completed + 1 }
    if outs.isEmpty then m
    else
      let q := (outs.map magnitude).foldl (· + ·) 0 / (UInt64.ofNat outs.length).toFloat
      { m with qualitySum := m.qualitySum + q }

end CohortMetrics

inductive CanaryState where
  | running
  | promoted
  | rolledBack
  deriving DecidableEq

inductive RoutedTo where
  | stable
  | canary
  deriving DecidableEq

def clampUnit (pct : ℚ) : ℚ := min (max pct 0) 1

structure CanaryInner where
  config : CanaryConfig
  state : CanaryState
  effectivePct : ℚ
  stableMetrics : CohortMetrics := {}
  canaryMetrics : CohortMetrics := {}
  routeCounter : UInt64 := 0
  promoteCount : UInt64 := 0
  rollbackCount : UInt64 := 0

/-- One job in this many goes to the canary. -/
def period (pct : ℚ) : UInt64 := max (castU64 (round (1 / pct) : ℤ)) 1

namespace CanaryInner

def new (config : CanaryConfig) : CanaryInner where
  config := config
  state := .running
  effectivePct := clampUnit config.canaryPct

def nextCohort (c : CanaryInner) : RoutedTo × CanaryInner :=
  if c.effectivePct ≤ 0 then (.stable, c)
  else if 1 ≤ c.effectivePct then (.canary, c)
  else
    let isCanary := c.routeCounter % period c.effectivePct == 0
    (if isCanary then .canary else .stable, { c with routeCounter := c.routeCounter + 1 })

def recordAndEvaluate (c : CanaryInner) (cohort : RoutedTo) (outputs : Option (List Output)) :
    CanaryInner :=
  let c := match cohort with
    | .stable => { c with stableMetrics := c.stableMetrics.record outputs }
    | .canary => { c with canaryMetrics := c.canaryMetrics.record outputs }
  if c.state ≠ .running then c
  else if c.stableMetrics.jobs < c.config.minSamples ∨
      c.canaryMetrics.jobs < c.config.minSamples then c
  else
    let sQ := c.stableMetrics.meanQuality
    let cQ := c.canaryMetrics.meanQuality
    if sQ ≤ 0 then c
    else
      let relative := (cQ - sQ) / sQ
      if c.config.promoteThreshold ≤ relative then
        { c with
          state := .promoted
          effectivePct := 1
          promoteCount := c.promoteCount + 1
          canaryMetrics := {} }
      else if relative ≤ -c.config.rollbackThreshold then
        { c with
          state := .rolledBack
          effectivePct := 0
          rollbackCount := c.rollbackCount + 1
          canaryMetrics := {} }
      else c

def setCanaryPct (c : CanaryInner) (pct : ℚ) : CanaryInner :=
  { c with effectivePct := clampUnit pct }

def resetCanary (c : CanaryInner) : CanaryInner :=
  { c with
    state := .running
    effectivePct := clampUnit c.config.canaryPct
    canaryMetrics := {} }

end CanaryInner

open Arithmetic Runs

inductive Op where
  | nextCohort
  | recordAndEvaluate (cohort : RoutedTo) (outputs : Option (List Output))
  | setCanaryPct (pct : ℚ)
  | resetCanary

/-- The split, with how many decisions it has made and how many of them for the canary. -/
structure History where
  inner : CanaryInner
  decided : Nat := 0
  toCanary : Nat := 0

def step (h : History) : Op → Option History
  | .nextCohort =>
    let (cohort, inner) := h.inner.nextCohort
    some
      { inner := inner
        decided := h.decided + 1
        toCanary := h.toCanary + if cohort = .canary then 1 else 0 }
  | .recordAndEvaluate cohort outputs =>
    some { h with inner := h.inner.recordAndEvaluate cohort outputs }
  | .setCanaryPct pct => some { h with inner := h.inner.setCanaryPct pct }
  | .resetCanary => some { h with inner := h.inner.resetCanary }

/-- The canary runs and is given the fraction `p`. -/
def Running (p : ℚ) (h : History) : Prop := h.inner.state = .running ∧ h.inner.effectivePct = p

/-- A part of a run all through which the canary runs with one fraction. -/
def Window (p : ℚ) (h h' : History) : Prop :=
  ∃ config before after, exec step { inner := .new config } before = some h ∧
    Throughout step (Running p) h after ∧ exec step h after = some h'

/-- Of the decisions between two states a share `p` is for the canary, to one. -/
def SplitEvenly (p : ℚ) (h h' : History) : Prop :=
  |((h'.toCanary : ℚ) - h.toCanary) - p * ((h'.decided : ℚ) - h.decided)| ≤ 1

/-- All windows are split evenly. -/
def SplitsEvenly (p : ℚ) : Prop := ∀ h h', Window p h h' → SplitEvenly p h h'

section Period

variable {p : ℚ}

theorem toNat_period (p : ℚ) :
    (period p).toNat = max (min (round (1 / p)).toNat u64Max) 1 := by
  rw [period, toNat_max, toNat_castU64, Rat.floor_intCast]
  rfl

theorem period_pos (p : ℚ) : 0 < (period p).toNat := by
  rw [toNat_period]
  omega

theorem period_lt (p : ℚ) : (period p).toNat < 2 ^ 64 := (period p).toNat_lt

end Period

section Tracking

variable {p : ℚ} {h h' s : History}

/-- How far the counter has come since an earlier state, and what the canary was given. -/
def Tracked (p : ℚ) (h s : History) : Prop :=
  ∃ n, s.decided = h.decided + n ∧
    s.inner.routeCounter.toNat = (h.inner.routeCounter.toNat + n) % 2 ^ 64 ∧
    s.toCanary + hits (2 ^ 64) (period p).toNat h.inner.routeCounter.toNat =
      h.toCanary + hits (2 ^ 64) (period p).toNat (h.inner.routeCounter.toNat + n)

theorem tracked_refl : Tracked p h h :=
  ⟨0, rfl, (Nat.mod_eq_of_lt h.inner.routeCounter.toNat_lt).symm, rfl⟩

theorem recordAndEvaluate_counter (c : CanaryInner) (cohort : RoutedTo)
    (outputs : Option (List Output)) :
    (c.recordAndEvaluate cohort outputs).routeCounter = c.routeCounter := by
  unfold CanaryInner.recordAndEvaluate
  cases cohort <;> dsimp only <;> split_ifs <;> rfl

theorem nextCohort_eq {c : CanaryInner} (h0 : 0 < p) (h1 : p < 1) (hp : c.effectivePct = p) :
    c.nextCohort = (if c.routeCounter.toNat % (period p).toNat = 0 then .canary else .stable,
      { c with routeCounter := c.routeCounter + 1 }) := by
  unfold CanaryInner.nextCohort
  rw [hp, if_neg (not_le.mpr h0), if_neg (not_le.mpr h1)]
  have hmod : (c.routeCounter % period p == 0) = true ↔
      c.routeCounter.toNat % (period p).toNat = 0 := by
    rw [beq_iff_eq, ← UInt64.toNat_inj, UInt64.toNat_mod]
    rfl
  simp only [hmod]

theorem toNat_add_one (a : UInt64) : (a + 1).toNat = (a.toNat + 1) % 2 ^ 64 := UInt64.toNat_add a 1

theorem Tracked.nextCohort (h0 : 0 < p) (h1 : p < 1) (hp : s.inner.effectivePct = p)
    (ht : Tracked p h s) (hstep : step s .nextCohort = some h') : Tracked p h h' := by
  obtain ⟨n, hdecided, hcounter, hcanary⟩ := ht
  rw [step, nextCohort_eq h0 h1 hp] at hstep
  cases hstep
  refine ⟨n + 1, ?_, ?_, ?_⟩
  · rw [hdecided, Nat.add_assoc]
  · dsimp only
    rw [toNat_add_one, hcounter, Nat.mod_add_mod, Nat.add_assoc]
  · dsimp only
    rw [← Nat.add_assoc, hits_succ, ← hcounter]
    split
    · simp only [↓reduceIte]
      omega
    · simp only [reduceCtorEq, ↓reduceIte]
      omega

/-- Whatever is not a decision leaves the counts of them as they are. -/
theorem step_cases {e : Op} (hstep : step s e = some h') :
    (e = .nextCohort ∧ h'.decided = s.decided + 1 ∧
      h'.toCanary = s.toCanary + if s.inner.nextCohort.1 = .canary then 1 else 0) ∨
    (h'.decided = s.decided ∧ h'.toCanary = s.toCanary ∧
      h'.inner.routeCounter = s.inner.routeCounter) := by
  cases e with
  | nextCohort =>
    cases hstep
    exact Or.inl ⟨rfl, rfl, rfl⟩
  | recordAndEvaluate cohort outputs =>
    cases hstep
    exact Or.inr ⟨rfl, rfl, recordAndEvaluate_counter s.inner cohort outputs⟩
  | setCanaryPct pct =>
    cases hstep
    exact Or.inr ⟨rfl, rfl, rfl⟩
  | resetCanary =>
    cases hstep
    exact Or.inr ⟨rfl, rfl, rfl⟩

theorem Tracked.along {es : List Op} (h0 : 0 < p) (h1 : p < 1)
    (hr : Throughout step (Running p) h es) (hx : exec step h es = some h') : Tracked p h h' := by
  apply hr.induction hx tracked_refl
  intro s e t hs ht hstep
  rcases step_cases hstep with ⟨rfl, -, -⟩ | ⟨hdecided', hcanary', hcounter'⟩
  · exact ht.nextCohort h0 h1 hs.2 hstep
  · obtain ⟨n, hdecided, hcounter, hcanary⟩ := ht
    exact ⟨n, hdecided'.trans hdecided, (congrArg _ hcounter').trans hcounter, hcanary' ▸ hcanary⟩

theorem splitEvenly_iff {n : Nat} (hdecided : h'.decided = h.decided + n)
    (hcanary : h'.toCanary + hits (2 ^ 64) (period p).toNat h.inner.routeCounter.toNat =
      h.toCanary + hits (2 ^ 64) (period p).toNat (h.inner.routeCounter.toNat + n)) :
    SplitEvenly p h h' ↔
      |(hits (2 ^ 64) (period p).toNat (h.inner.routeCounter.toNat + n) : ℚ) -
        hits (2 ^ 64) (period p).toNat h.inner.routeCounter.toNat - p * n| ≤ 1 := by
  have hcast : (h'.toCanary : ℚ) - h.toCanary =
      hits (2 ^ 64) (period p).toNat (h.inner.routeCounter.toNat + n) -
        hits (2 ^ 64) (period p).toNat h.inner.routeCounter.toNat := by
    rw [sub_eq_sub_iff_add_eq_add]
    exact_mod_cast hcanary.trans (Nat.add_comm _ _)
  rw [SplitEvenly, hcast, hdecided, Nat.cast_add, add_sub_cancel_left]

theorem running_nextCohort (hs : Running p s) (hstep : step s .nextCohort = some h') :
    Running p h' := by
  rw [step, CanaryInner.nextCohort] at hstep
  split_ifs at hstep <;> cases hstep <;> exact hs

end Tracking

section Windows

variable {p : ℚ}

theorem clampUnit_eq (h0 : 0 ≤ p) (h1 : p ≤ 1) : clampUnit p = p := by
  rw [clampUnit, max_eq_left h0, min_eq_left h1]

theorem exec_nextCohort (s : History) (n : Nat) :
    ∃ t, exec step s (List.replicate n .nextCohort) = some t ∧ t.decided = s.decided + n := by
  apply exec_replicate (fun (m : Nat) (t : History) => t.decided = s.decided + m) rfl
  intro m _ t ht
  refine ⟨_, rfl, ?_⟩
  dsimp only
  rw [ht, Nat.add_assoc]

theorem running_replicate {s : History} (hs : Running p s) (n : Nat) :
    Throughout step (Running p) s (List.replicate n .nextCohort) := by
  apply throughout_of_mem hs
  intro s e he t hs hstep
  rw [List.eq_of_mem_replicate he] at hstep
  exact running_nextCohort hs hstep

/-- A new canary that has made some decisions, and then makes some more. -/
theorem exists_window (h0 : 0 < p) (h1 : p < 1) {c : Nat} (hc : c < 2 ^ 64) (n : Nat) :
    ∃ h h', Window p h h' ∧ h.inner.routeCounter.toNat = c ∧ h'.decided = h.decided + n := by
  obtain ⟨h, hx, hdecided⟩ := exec_nextCohort { inner := .new { canaryPct := p } } c
  obtain ⟨h', hx', hdecided'⟩ := exec_nextCohort h n
  have hnew : Running p { inner := .new { canaryPct := p } } := ⟨rfl, clampUnit_eq h0.le h1.le⟩
  have hfirst := running_replicate hnew c
  obtain ⟨m, hm, hcounter, -⟩ := Tracked.along h0 h1 hfirst hx
  refine ⟨h, h', ⟨_, _, _, hx, running_replicate (hfirst.last hx) n, hx'⟩, ?_, hdecided'⟩
  have hmc : m = c := Nat.add_left_cancel (hm.symm.trans hdecided)
  rw [hcounter, hmc]
  exact (congrArg (· % 2 ^ 64) (Nat.zero_add c)).trans (Nat.mod_eq_of_lt hc)

theorem evenlySpread_iff (h0 : 0 < p) (h1 : p < 1) :
    SplitsEvenly p ↔ EvenlySpread (2 ^ 64) (period p).toNat p := by
  constructor
  · intro heven c hc n
    obtain ⟨h, h', hw, rfl, hn⟩ := exists_window h0 h1 hc n
    have hsplit := heven h h' hw
    obtain ⟨config, before, after, -, hr, hx⟩ := hw
    obtain ⟨m, hm, -, hcanary⟩ := Tracked.along h0 h1 hr hx
    have hmn : m = n := Nat.add_left_cancel (hm.symm.trans hn)
    rw [hmn] at hm hcanary
    exact (splitEvenly_iff hm hcanary).mp hsplit
  · rintro heven h h' ⟨config, before, after, -, hr, hx⟩
    obtain ⟨n, hdecided, -, hcanary⟩ := Tracked.along h0 h1 hr hx
    rw [splitEvenly_iff hdecided hcanary]
    exact heven _ h.inner.routeCounter.toNat_lt n

/-- The fractions that add up to a whole number of decisions in each lap of the counter, and to
no more than one too many for the lap. -/
def WholeInLap (p : ℚ) : Prop :=
  ∃ A : Nat, p * 2 ^ 64 = A ∧
    (A * (period p).toNat = 2 ^ 64 ∨ A * (period p).toNat = 2 ^ 64 + 1)

theorem WholeInLap.evenlySpread (h1 : p < 1) (h : WholeInLap p) :
    EvenlySpread (2 ^ 64) (period p).toNat p := by
  obtain ⟨A, hA, hk⟩ := h
  have hpos := period_pos p
  have hless : A < 2 ^ 64 := by
    have hscaled : p * 2 ^ 64 < 1 * 2 ^ 64 := mul_lt_mul_of_pos_right h1 (by norm_num)
    rw [hA, one_mul] at hscaled
    exact_mod_cast hscaled
  generalize (period p).toNat = k at hk hpos
  rw [Nat.mul_comm] at hk
  have hgap : k ≠ 1 ∨ k * A = 2 ^ 64 := by
    rcases hk with hk | hk
    · exact Or.inr hk
    · refine Or.inl ?_
      rintro rfl
      omega
  have hhits : hits (2 ^ 64) k (2 ^ 64) = A := hits_lap_eq hpos (by omega) (by omega)
  apply evenlySpread_of_hits (by norm_num) hpos
  · rw [hhits]
    omega
  · rw [hhits]
    exact_mod_cast hA

theorem period_half (h : p * 2 ^ 64 = 2) : (period p).toNat = 2 ^ 63 := by
  have hp : p = 2 / 2 ^ 64 := eq_div_of_mul_eq (by norm_num) h
  rw [hp]
  decide +kernel

theorem wholeInLap_of_evenlySpread (h : EvenlySpread (2 ^ 64) (period p).toNat p) :
    WholeInLap p := by
  have hpos := period_pos p
  have hlt := period_lt p
  have hhalf := period_half (p := p)
  have hshare : p * 2 ^ 64 = hits (2 ^ 64) (period p).toNat (2 ^ 64) := by
    exact_mod_cast h.share (by norm_num)
  obtain ⟨hle, -⟩ := hits_lap hpos (le_refl (2 ^ 64))
  obtain ⟨r, hr⟩ := Nat.exists_eq_add_of_le hle
  have hclose := h.overshoot (by norm_num) hpos hr
  refine ⟨_, hshare, ?_⟩
  generalize hits (2 ^ 64) (period p).toNat (2 ^ 64) = A at *
  generalize (period p).toNat = k at *
  rw [Nat.mul_comm A k]
  have hA : 2 ≤ A := by
    rcases Nat.lt_or_ge A 2 with hsmall | hA
    · have : k * A ≤ k * 1 := Nat.mul_le_mul_left k (by omega)
      omega
    · exact hA
  rcases le_one_of_mul_le_add hA hclose with hr1 | ⟨hA2, hr2⟩
  · omega
  · -- Then the period is one more than what half the lap is rounded to.
    subst hA2
    have := hhalf (by exact_mod_cast hshare)
    omega

theorem even_of_none {h h' : History} (hw : Window 0 h h') : SplitEvenly 0 h h' := by
  obtain ⟨config, before, after, -, hr, hx⟩ := hw
  have hsame : h'.toCanary = h.toCanary := by
    apply hr.induction (Q := fun s => s.toCanary = h.toCanary) hx rfl
    intro s e t hs hsame hstep
    rcases step_cases hstep with ⟨rfl, -, hcanary⟩ | ⟨-, hcanary, -⟩
    · have hstable : s.inner.nextCohort.1 = .stable := by
        rw [CanaryInner.nextCohort, if_pos hs.2.le]
      rw [hstable, if_neg (nofun), Nat.add_zero] at hcanary
      exact hcanary.trans hsame
    · exact hcanary.trans hsame
  simp [SplitEvenly, hsame]

theorem even_of_all {h h' : History} (hw : Window 1 h h') : SplitEvenly 1 h h' := by
  obtain ⟨config, before, after, -, hr, hx⟩ := hw
  have hsame : h'.toCanary + h.decided = h.toCanary + h'.decided := by
    apply hr.induction (Q := fun s => s.toCanary + h.decided = h.toCanary + s.decided) hx rfl
    intro s e t hs hsame hstep
    rcases step_cases hstep with ⟨rfl, hdecided, hcanary⟩ | ⟨hdecided, hcanary, -⟩
    · have hall : s.inner.nextCohort.1 = .canary := by
        have hpos : ¬ s.inner.effectivePct ≤ 0 := by simp [hs.2]
        rw [CanaryInner.nextCohort, if_neg hpos, if_pos hs.2.ge]
      rw [hall, if_pos rfl] at hcanary
      omega
    · omega
  have hcast : (h'.toCanary : ℚ) - h.toCanary = h'.decided - h.decided := by
    rw [sub_eq_sub_iff_add_eq_add]
    exact_mod_cast hsame.trans (Nat.add_comm _ _)
  simp [SplitEvenly, hcast]

theorem even_before_wrap {h h' : History} (h0 : 0 < p) (h1 : p < 1)
    (hp : p * (period p).toNat = 1) (hw : Window p h h')
    (hn : h.inner.routeCounter.toNat + (h'.decided - h.decided) ≤ 2 ^ 64) :
    SplitEvenly p h h' := by
  obtain ⟨config, before, after, -, hr, hx⟩ := hw
  obtain ⟨n, hdecided, -, hcanary⟩ := Tracked.along h0 h1 hr hx
  rw [hdecided, Nat.add_sub_cancel_left] at hn
  rw [splitEvenly_iff hdecided hcanary]
  exact hits_even_lap (period_pos p) hp hn

/-- The split is even, however long it goes on, for the fractions that fill each lap of the
counter. Until the counter starts again it is so for one in a whole number, too. -/
theorem split_evenly_iff (p : ℚ) (h0 : 0 ≤ p) (h1 : p ≤ 1) :
    (SplitsEvenly p ↔ p = 0 ∨ p = 1 ∨ WholeInLap p) ∧
    (p * (period p).toNat = 1 → ∀ h h', Window p h h' →
      h.inner.routeCounter.toNat + (h'.decided - h.decided) ≤ 2 ^ 64 → SplitEvenly p h h') := by
  rcases h0.eq_or_lt with rfl | h0
  · refine ⟨iff_of_true (fun h h' => even_of_none) (Or.inl rfl), ?_⟩
    intro _ h h' hw _
    exact even_of_none hw
  rcases h1.eq_or_lt with rfl | h1
  · refine ⟨iff_of_true (fun h h' => even_of_all) (Or.inr (Or.inl rfl)), ?_⟩
    intro _ h h' hw _
    exact even_of_all hw
  refine ⟨?_, fun hp h h' => even_before_wrap h0 h1 hp⟩
  rw [evenlySpread_iff h0 h1, or_iff_right h0.ne', or_iff_right h1.ne]
  exact ⟨wholeInLap_of_evenlySpread, fun h => h.evenlySpread h1⟩

theorem split_evenly_iff_quarter : SplitsEvenly (1 / 4) := by
  apply (split_evenly_iff (1 / 4) (by norm_num) (by norm_num)).1.mpr
  exact Or.inr (Or.inr ⟨2 ^ 62, by norm_num, Or.inl (by decide +kernel)⟩)

/-- Seven in ten are rounded to every one. -/
theorem seven_in_ten_uneven : ¬ SplitsEvenly (7 / 10) := by
  intro heven
  have hspread := (evenlySpread_iff (by norm_num) (by norm_num)).mp heven
  have hperiod : (period (7 / 10)).toNat = 1 := by decide +kernel
  have hten := hspread 0 (by norm_num) 10
  rw [hperiod] at hten
  have hhits : hits (2 ^ 64) 1 (0 + 10) = 10 ∧ hits (2 ^ 64) 1 0 = 0 := by decide +kernel
  rw [hhits.1, hhits.2] at hten
  norm_num at hten

end Windows

end HelixRouter.Canary
