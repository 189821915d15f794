import Mathlib.Algebra.BigOperators.Group.List.Basic
import Mathlib.Algebra.Field.Rat
import Mathlib.Algebra.Order.Ring.Rat
import Mathlib.Tactic.FieldSimp
import Mathlib.Tactic.Linarith
import Mathlib.Tactic.Ring

namespace HelixRouter.Scaling

abbrev seasonLen : Nat := 60

/-- The slot of the season that observation `k` falls into. -/
def slot (k : Nat) : Fin seasonLen := ⟨k % seasonLen, Nat.mod_lt _ (by decide)⟩

structure HoltWintersState where
  level : ℚ := 0
  trend : ℚ := 0
  seasonal : Vector ℚ seasonLen := Vector.replicate seasonLen 0
  n : Nat := 0
  initBuf : List ℚ := []

namespace HoltWintersState

def isWarmedUp (s : HoltWintersState) : Bool := decide (seasonLen ≤ s.n)

/-- Level, trend and seasonal components as simple averages over the buffer. -/
def bootstrap (s : HoltWintersState) : HoltWintersState :=
  let buf := s.initBuf
  let n := buf.length
  let mean := buf.sum / n
  let trendSum := (List.zipWith (fun next val => next - val) buf.tail buf).sum
  { s with
    level := mean
    trend := if n > 1 then trendSum / (n - 1 : Nat) else 0
    seasonal := buf.zipIdx.foldl (fun seasonal slotted =>
      seasonal.set (slot slotted.2) (slotted.1 - mean)) s.seasonal }

def smooth (s : HoltWintersState) (rate alpha beta gamma : ℚ) : HoltWintersState :=
  let seasonIdx := slot (s.n - 1)
  let prevSeasonal := s.seasonal.get seasonIdx
  let level := alpha * (rate - prevSeasonal) + (1 - alpha) * (s.level + s.trend)
  { s with
    level := level
    trend := beta * (level - s.level) + (1 - beta) * s.trend
    seasonal := s.seasonal.set seasonIdx (gamma * (rate - level) + (1 - gamma) * prevSeasonal) }

def update (s : HoltWintersState) (rate alpha beta gamma : ℚ) : HoltWintersState :=
  let s := { s with n := s.n + 1 }
  if ¬s.isWarmedUp then
    let s := { s with initBuf := s.initBuf ++ [rate] }
    if s.n = seasonLen then s.bootstrap else s
  else s.smooth rate alpha beta gamma

def forecast (s : HoltWintersState) (h : Nat) : ℚ :=
  if ¬s.isWarmedUp then s.initBuf.getLastD 0
  else max (s.level + h * s.trend + s.seasonal.get (slot (s.n + h - 1))) 0

def sparkline (s : HoltWintersState) (len : Nat) : List ℚ :=
  (List.range' 1 len).map s.forecast

/-- The state once the first `n` of these rates are fed. -/
def fed (alpha beta gamma : ℚ) (rates : Nat → ℚ) : Nat → HoltWintersState
  | 0 => {}
  | n + 1 => (fed alpha beta gamma rates n).update (rates n) alpha beta gamma

end HoltWintersState

/-- The forecasts after any number of whole seasons or more are the repeated pattern itself. -/
def ForecastsExactly (alpha beta gamma : ℚ) (pattern : Vector ℚ seasonLen) : Prop :=
  ∀ n, seasonLen ≤ n → ∀ h, 1 ≤ h →
    (HoltWintersState.fed alpha beta gamma (fun k => pattern.get (slot k)) n).forecast h =
      pattern.get (slot (n + h - 1))

namespace HoltWintersState

variable {s : HoltWintersState} {alpha beta gamma rate : ℚ} {rates : Nat → ℚ}
  {pattern : Vector ℚ seasonLen}

/-- The guard for the end of the warm-up stands where the warm-up is not yet over, so the buffer
is never bootstrapped from. -/
theorem update_warming (h : s.n + 1 < seasonLen) :
    s.update rate alpha beta gamma =
      { s with n := s.n + 1, initBuf := s.initBuf ++ [rate] } := by
  have hcold : ¬seasonLen ≤ s.n + 1 := Nat.not_le.mpr h
  simp [update, isWarmedUp, hcold, h.ne]

theorem update_warm (h : seasonLen ≤ s.n + 1) :
    s.update rate alpha beta gamma =
      { s with n := s.n + 1 }.smooth rate alpha beta gamma := by
  simp [update, isWarmedUp, h]

theorem fed_warming : ∀ {n : Nat}, n < seasonLen →
    fed alpha beta gamma rates n = { n := n, initBuf := (List.range n).map rates }
  | 0, _ => rfl
  | n + 1, h => by
    rw [fed, fed_warming (Nat.lt_of_succ_lt h), update_warming h, List.range_succ, List.map_append]
    rfl

/-- The parts of the state add up to the pattern, and the load has no trend. -/
structure Steady (s : HoltWintersState) (pattern : Vector ℚ seasonLen) : Prop where
  trend : s.trend = 0
  parts : ∀ i : Fin seasonLen, s.level + s.seasonal.get i = pattern.get i

namespace Steady

/-- A steady state is a fixed point of the three recurrences. -/
theorem smooth_eq (hs : s.Steady pattern) :
    s.smooth (pattern.get (slot (s.n - 1))) alpha beta gamma = s := by
  have hpart := hs.parts (slot (s.n - 1))
  have hlevel : alpha * ((pattern.get (slot (s.n - 1))) - s.seasonal.get (slot (s.n - 1))) +
      (1 - alpha) * (s.level + s.trend) = s.level := by
    rw [← hpart, hs.trend]
    ring
  have hseasonal : gamma * ((pattern.get (slot (s.n - 1))) - s.level) +
      (1 - gamma) * s.seasonal.get (slot (s.n - 1)) = s.seasonal.get (slot (s.n - 1)) := by
    rw [← hpart]
    ring
  have htrend : beta * (s.level - s.level) + (1 - beta) * s.trend = s.trend := by
    rw [hs.trend]
    ring
  simp only [smooth, hlevel, hseasonal, htrend]
  congr 1
  exact Vector.set_getElem_self _

theorem update_eq (hs : s.Steady pattern) (h : seasonLen ≤ s.n + 1) :
    s.update (pattern.get (slot s.n)) alpha beta gamma = { s with n := s.n + 1 } := by
  rw [update_warm h]
  exact smooth_eq (s := { s with n := s.n + 1 }) ⟨hs.trend, hs.parts⟩

theorem forecast_eq (hs : s.Steady pattern) (hn : seasonLen ≤ s.n)
    (hpattern : ∀ i : Fin seasonLen, 0 ≤ pattern.get i) (h : Nat) :
    s.forecast h = pattern.get (slot (s.n + h - 1)) := by
  have hpart := hs.parts (slot (s.n + h - 1))
  have hprojected : s.level + h * s.trend + s.seasonal.get (slot (s.n + h - 1)) =
      pattern.get (slot (s.n + h - 1)) := by
    rw [← hpart, hs.trend]
    ring
  simp only [forecast, isWarmedUp, hn, hprojected]
  simpa using hpattern _

end Steady

theorem fed_n (n : Nat) : (fed alpha beta gamma rates n).n = n := by
  induction n with
  | zero => rfl
  | succ n ih =>
    rw [fed]
    by_cases h : n + 1 < seasonLen
    · rw [update_warming (by rwa [ih])]
      exact congrArg (· + 1) ih
    · rw [update_warm (by rw [ih]; exact Nat.not_lt.mp h)]
      exact congrArg (· + 1) ih

theorem fed_steady {n m : Nat} (hnm : n ≤ m) (hwarm : seasonLen ≤ n + 1)
    (h : (fed alpha beta gamma (fun k => pattern.get (slot k)) n).Steady pattern) :
    (fed alpha beta gamma (fun k => pattern.get (slot k)) m).Steady pattern := by
  induction m, hnm using Nat.le_induction with
  | base => exact h
  | succ m hnm ih =>
    have hstep := @Steady.update_eq _ alpha beta gamma _ ih (by rw [fed_n]; omega)
    rw [fed_n] at hstep
    rw [fed, hstep]
    exact ⟨ih.trend, ih.parts⟩

theorem sum_deltas (first : ℚ) (rest : List ℚ) :
    (List.zipWith (fun next val => next - val) rest (first :: rest)).sum =
      rest.getLastD first - first := by
  induction rest generalizing first with
  | nil => simp
  | cons second rest ih =>
    rw [List.zipWith_cons_cons, List.sum_cons, ih, List.getLastD_cons]
    ring

theorem get_eq_getElem (xs : Vector ℚ seasonLen) (i : Fin seasonLen) : xs.get i = xs[i.val] := rfl

theorem get_toList (xs : Vector ℚ seasonLen) (i : Fin seasonLen) :
    xs.toList[i.val]? = some (xs.get i) := by
  rw [get_eq_getElem]
  simp

theorem getElem_bootstrapped (mean : ℚ) (buf : List ℚ) (k : Nat) (seasonal : Vector ℚ seasonLen)
    (i : Fin seasonLen) (hfit : k + buf.length ≤ seasonLen) :
    ((buf.zipIdx k).foldl (fun seasonal slotted =>
      seasonal.set (slot slotted.2) (slotted.1 - mean)) seasonal).get i =
      if k ≤ i then (buf[i - k]?.map (· - mean)).getD (seasonal.get i) else seasonal.get i := by
  induction buf generalizing k seasonal with
  | nil => simp
  | cons rate buf ih =>
    rw [List.length_cons] at hfit
    have hslot : (slot k).val = k := Nat.mod_eq_of_lt (by omega)
    rw [List.zipIdx_cons, List.foldl_cons, ih (k + 1) _ (by omega)]
    obtain hik | hik | hik := Nat.lt_trichotomy i.val k
    · have hne : (slot k).val ≠ i.val := by omega
      rw [if_neg (by omega), if_neg (by omega), get_eq_getElem, get_eq_getElem,
        Vector.getElem_set_ne _ _ hne]
    · have heq : (slot k).val = i.val := by omega
      rw [if_neg (by omega), if_pos hik.ge, get_eq_getElem, Vector.getElem_set, if_pos heq]
      simp [hik]
    · have hne : (slot k).val ≠ i.val := by omega
      have hrest : i.val - k = i.val - (k + 1) + 1 := by omega
      rw [if_pos (by omega), if_pos hik.le, hrest, List.getElem?_cons_succ, get_eq_getElem,
        get_eq_getElem, Vector.getElem_set_ne _ _ hne]

/-- Bootstrapped from one round of the pattern, the state would be steady at once. -/
theorem bootstrap_steady (hbuf : s.initBuf = pattern.toList)
    (hends : pattern.get 0 = pattern.get 59) : s.bootstrap.Steady pattern := by
  constructor
  · obtain ⟨first, rest, hcons⟩ : ∃ first rest, pattern.toList = first :: rest :=
      List.exists_cons_of_length_pos (by simp)
    have hlen : rest.length = 59 := by
      have hsucc : seasonLen = rest.length + 1 := by
        simpa using congrArg List.length hcons
      exact Nat.succ.inj hsucc.symm
    have hfirst : pattern.get 0 = first := by
      have hat := get_toList pattern 0
      rw [hcons] at hat
      exact (Option.some.inj hat).symm
    have hlast : rest.getLastD first = first := by
      have hat : (first :: rest)[58 + 1]? = some (pattern.get 59) := hcons ▸ get_toList pattern 59
      rw [List.getElem?_cons_succ, ← hends, hfirst] at hat
      rw [List.getLastD_eq_getLast?, List.getLast?_eq_getElem?, hlen, hat]
      rfl
    simp only [bootstrap, hbuf, hcons, List.tail_cons, sum_deltas, hlast]
    simp
  · intro i
    simp only [bootstrap, hbuf]
    rw [getElem_bootstrapped _ _ _ _ _ (by simp), if_pos (Nat.zero_le _), Nat.sub_zero,
      get_toList]
    simp

end HoltWintersState

open HoltWintersState

variable {α β γ : ℚ} {pattern : Vector ℚ seasonLen}

theorem forecastsExactly_of_zero (hzero : ∀ i : Fin seasonLen, pattern.get i = 0) :
    ForecastsExactly α β γ pattern := by
  intro n hn h _
  have hcold : (fed α β γ (fun k => pattern.get (slot k)) 59).Steady pattern := by
    rw [fed_warming (by decide)]
    refine ⟨rfl, fun i => ?_⟩
    rw [hzero i, get_eq_getElem, Vector.getElem_replicate, add_zero]
  have hsteady := fed_steady (Nat.le_of_succ_le hn) (Nat.le_refl _) hcold
  rw [hsteady.forecast_eq (by rw [fed_n]; exact hn) (fun i => (hzero i).ge), fed_n]

/-- The first smoothed observation meets a level, a trend and a season of nothing. -/
theorem forecast_season (rates : Nat → ℚ) (h : Nat) :
    (fed α β γ rates seasonLen).forecast h =
      max (α * rates 59 + h * (β * (α * rates 59)) +
        (if 59 = (slot (seasonLen + h - 1)).val then γ * (rates 59 - α * rates 59) else 0)) 0 := by
  have hcold : ∀ i, (Vector.replicate seasonLen (0 : ℚ)).get i = 0 := by
    intro i
    rw [get_eq_getElem, Vector.getElem_replicate]
  have hfed : fed α β γ rates seasonLen =
      { n := seasonLen, initBuf := (List.range 59).map rates : HoltWintersState }.smooth
        (rates 59) α β γ := by
    change (fed α β γ rates 59).update (rates 59) α β γ = _
    rw [fed_warming (by decide)]
    exact update_warm (Nat.le_refl seasonLen)
  have hlast : (slot (seasonLen - 1)).val = 59 := rfl
  rw [hfed, forecast, if_neg (by simp [isWarmedUp, smooth])]
  simp only [smooth, hcold, sub_zero, add_zero, mul_zero]
  rw [get_eq_getElem, Vector.getElem_set, hlast, ← get_eq_getElem, hcold]

/-- A load is forecast as it comes from the first full season on only where there is none: the
60th observation leaves a trend of a part of its rate, and a forecast a season further on sees it
60 times more. -/
theorem forecastsExactly_iff (hα : 0 < α) (hβ : 0 < β)
    (hpattern : ∀ i : Fin seasonLen, 0 ≤ pattern.get i) :
    ForecastsExactly α β γ pattern ↔ ∀ i : Fin seasonLen, pattern.get i = 0 := by
  refine ⟨fun hexact => ?_, forecastsExactly_of_zero⟩
  have hseason : ∀ h : Nat, 1 ≤ h →
      max (α * pattern.get 59 + h * (β * (α * pattern.get 59)) +
        (if 59 = (slot (seasonLen + h - 1)).val then
          γ * (pattern.get 59 - α * pattern.get 59) else 0)) 0 =
      pattern.get (slot (seasonLen + h - 1)) := by
    intro h hh
    rw [← hexact seasonLen (Nat.le_refl _) h hh, forecast_season]
    rfl
  have hrate := hpattern 59
  have hlast : pattern.get 59 = 0 := by
    have hlevel : 0 ≤ α * pattern.get 59 := mul_nonneg hα.le hrate
    have htrend : 0 ≤ β * (α * pattern.get 59) := mul_nonneg hβ.le hlevel
    have hnext : max (α * pattern.get 59 + (1 : Nat) * (β * (α * pattern.get 59)) + 0) 0 =
      pattern.get 0 := hseason 1 (Nat.le_refl 1)
    have hround : max (α * pattern.get 59 + (61 : Nat) * (β * (α * pattern.get 59)) + 0) 0 =
      pattern.get 0 := hseason 61 (by decide)
    rw [max_eq_left (by positivity)] at hnext hround
    have hzero : β * (α * pattern.get 59) = 0 := by
      push_cast at hnext hround
      linarith
    simpa [hα.ne', hβ.ne'] using hzero
  intro i
  have hat : slot (seasonLen + (i.val + 1) - 1) = i := by
    apply Fin.ext
    change (60 + (i.val + 1) - 1) % 60 = i.val
    have hi : i.val < 60 := i.isLt
    omega
  have hi := hseason (i.val + 1) (Nat.succ_pos _)
  rw [hat, hlast] at hi
  simpa using hi.symm

theorem forecastsExactly_iff_constant :
    ForecastsExactly (1 / 5) (1 / 10) (3 / 20) (Vector.replicate seasonLen 10) ↔
      ∀ i : Fin seasonLen, (Vector.replicate seasonLen (10 : ℚ)).get i = 0 :=
  forecastsExactly_iff (by norm_num) (by norm_num) (by decide +kernel)

/-- A constant load of 10, under the default smoothing, is forecast as 11 / 5 a second ahead and
as 76 / 5 a minute ahead. -/
theorem constant_load_missed :
    ¬ForecastsExactly (1 / 5) (1 / 10) (3 / 20) (Vector.replicate seasonLen 10) := by
  intro hexact
  have hnext := hexact seasonLen (Nat.le_refl _) 1 (Nat.le_refl 1)
  exact absurd hnext (by decide +kernel)

end HelixRouter.Scaling
