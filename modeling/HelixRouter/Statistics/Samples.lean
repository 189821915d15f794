import Mathlib.Algebra.BigOperators.Group.List.Basic
import Mathlib.Algebra.BigOperators.Ring.Finset
import Mathlib.Algebra.BigOperators.Ring.List
import Mathlib.Algebra.Order.BigOperators.Group.List
import Mathlib.Algebra.Order.Field.Basic
import Mathlib.Data.List.Sort
import Mathlib.Order.Lattice
import Mathlib.Tactic.FieldSimp
import Mathlib.Tactic.Positivity
import Mathlib.Tactic.Ring

namespace HelixRouter.Statistics

section Ordered

variable {α : Type} [LinearOrder α] {l : List α} {i j : Nat}

theorem getElem_mono (hl : l.Pairwise (· ≤ ·)) (hij : i ≤ j) (hj : j < l.length) :
    l[i] ≤ l[j] := by
  rcases Nat.eq_or_lt_of_le hij with rfl | hlt
  · exact le_rfl
  · exact List.pairwise_iff_getElem.mp hl i j _ hj hlt

/-- In a sorted list what stands up to a place is at most what stands there. -/
theorem lt_countP_le (hl : l.Pairwise (· ≤ ·)) (hi : i < l.length) :
    i < l.countP (· ≤ l[i]) := by
  have htake : (l.take (i + 1)).countP (· ≤ l[i]) = (l.take (i + 1)).length := by
    apply List.countP_eq_length.mpr
    intro x hx
    obtain ⟨k, hk, rfl⟩ := List.mem_take_iff_getElem.mp hx
    exact decide_eq_true (getElem_mono hl (by omega) hi)
  have hle := (List.take_sublist (i + 1) l).countP_le (p := fun x => decide (x ≤ l[i]))
  rw [htake, List.length_take] at hle
  omega

/-- And what stands from there on is at least that. -/
theorem le_countP_ge (hl : l.Pairwise (· ≤ ·)) (hi : i < l.length) :
    l.length - i ≤ l.countP (l[i] ≤ ·) := by
  have hdrop : (l.drop i).countP (l[i] ≤ ·) = (l.drop i).length := by
    apply List.countP_eq_length.mpr
    intro x hx
    obtain ⟨k, hk, rfl⟩ := List.mem_drop_iff_getElem.mp hx
    exact decide_eq_true (getElem_mono hl (Nat.le_add_right i k) _)
  have hle := (List.drop_sublist i l).countP_le (p := fun x => decide (l[i] ≤ x))
  rw [hdrop, List.length_drop] at hle
  exact hle

end Ordered

section Deviation

variable {K : Type} [Field K] {l : List K} {x : K}

def mean (l : List K) : K := l.sum / l.length

/-- The squared deviations from the mean, added up. -/
def sumSqDev (l : List K) : K := (l.map fun x => (x - mean l) ^ 2).sum

/-- The unbiased sample variance, of two numbers or more. -/
def sampleVariance (l : List K) : K := if l.length < 2 then 0 else sumSqDev l / ((l.length - 1 : Nat) : K)

theorem sumSqDev_of_length_le_one (h : l.length ≤ 1) : sumSqDev l = 0 := by
  match l with
  | [] => rfl
  | [x] => simp [sumSqDev, mean]

theorem sum_sq_sub (l : List K) (m : K) : (l.map fun x => (x - m) ^ 2).sum =
    (l.map (· ^ 2)).sum - 2 * m * l.sum + l.length * m ^ 2 := by
  induction l with
  | nil => simp
  | cons x l ih =>
    simp only [List.map_cons, List.sum_cons, ih, List.length_cons, Nat.cast_add, Nat.cast_one]
    ring

variable [CharZero K]

/-- The squares less the square of the sum over the number of terms. -/
theorem sumSqDev_eq (l : List K) : sumSqDev l = (l.map (· ^ 2)).sum - l.sum ^ 2 / l.length := by
  rw [sumSqDev, sum_sq_sub, mean]
  by_cases hl : l = []
  · simp [hl]
  · have hn : (l.length : K) ≠ 0 := Nat.cast_ne_zero.mpr fun h => hl (List.length_eq_zero_iff.mp h)
    field_simp
    ring

/-- One number more adds the product of its distances from the mean before and after. -/
theorem sumSqDev_concat (l : List K) (x : K) :
    sumSqDev (l ++ [x]) = sumSqDev l + (x - mean l) * (x - mean (l ++ [x])) := by
  rw [sumSqDev_eq, sumSqDev_eq, mean, mean]
  simp only [List.map_append, List.map_cons, List.map_nil, List.sum_append, List.sum_cons,
    List.sum_nil, add_zero, List.length_append, List.length_singleton, Nat.cast_add, Nat.cast_one]
  have hsucc : (l.length : K) + 1 ≠ 0 := Nat.cast_add_one_ne_zero _
  by_cases hl : l = []
  · simp [hl]
  · have hn : (l.length : K) ≠ 0 := Nat.cast_ne_zero.mpr fun h => hl (List.length_eq_zero_iff.mp h)
    field_simp
    ring

variable [LinearOrder K] [IsStrictOrderedRing K]

/-- Numbers that add up to zero and are not all zero deviate. -/
theorem sumSqDev_pos (hsum : l.sum = 0) (hx : x ∈ l) (hne : x ≠ 0) : 0 < sumSqDev l := by
  rw [sumSqDev_eq, hsum]
  have hle : x ^ 2 ≤ (l.map (· ^ 2)).sum := by
    apply List.single_le_sum
    · intro y hy
      obtain ⟨z, _, rfl⟩ := List.mem_map.mp hy
      exact sq_nonneg z
    · exact List.mem_map_of_mem hx
  have hpos : 0 < x ^ 2 := by positivity
  simpa using hpos.trans_le hle

end Deviation

section LeastSquares

variable {K : Type} [Field K] {l : List K} {points : List (K × K)} {a b : K}

/-- The determinant of the normal equations, for points with these abscissas. -/
def spread (l : List K) : K := l.length * (l.map fun x => x * x).sum - l.sum * l.sum

theorem spread_natCast (m : List Nat) :
    spread (m.map fun k : Nat => (k : K)) =
      ((m.length * (m.map fun k => k * k).sum - m.sum * m.sum : Int) : K) := by
  simp [spread, Nat.cast_list_sum, Function.comp_def]

theorem sum_snd_of_line (h : ∀ p ∈ points, p.2 = a + b * p.1) :
    (points.map (·.2)).sum = points.length * a + b * (points.map (·.1)).sum := by
  rw [List.map_congr_left h, List.sum_map_add, List.sum_map_mul_left, List.map_const',
    List.sum_replicate, nsmul_eq_mul]

theorem sum_mul_of_line (h : ∀ p ∈ points, p.2 = a + b * p.1) :
    (points.map fun p => p.1 * p.2).sum =
      a * (points.map (·.1)).sum + b * (points.map fun p => p.1 * p.1).sum := by
  have hterm : ∀ p ∈ points, p.1 * p.2 = a * p.1 + b * (p.1 * p.1) := by
    intro p hp
    rw [h p hp]
    ring
  rw [List.map_congr_left hterm, List.sum_map_add, List.sum_map_mul_left, List.sum_map_mul_left]

/-- The normal equations of points on a line give its slope, unless they are singular. -/
theorem slope_of_line (h : ∀ p ∈ points, p.2 = a + b * p.1)
    (hs : spread (points.map (·.1)) ≠ 0) :
    (points.length * (points.map fun p => p.1 * p.2).sum -
      (points.map (·.1)).sum * (points.map (·.2)).sum) / spread (points.map (·.1)) = b := by
  rw [div_eq_iff hs, sum_snd_of_line h, sum_mul_of_line h, spread, List.map_map, List.length_map]
  simp only [Function.comp_def]
  ring

variable [CharZero K]

theorem intercept_of_line (h : ∀ p ∈ points, p.2 = a + b * p.1) (hne : points ≠ []) :
    ((points.map (·.2)).sum - b * (points.map (·.1)).sum) / points.length = a := by
  have hn : (points.length : K) ≠ 0 :=
    Nat.cast_ne_zero.mpr fun h => hne (List.length_eq_zero_iff.mp h)
  rw [div_eq_iff hn, sum_snd_of_line h]
  ring

theorem spread_eq (l : List K) : spread l = l.length * sumSqDev l := by
  rw [spread, sumSqDev_eq]
  by_cases hl : l = []
  · simp [hl]
  · have hn : (l.length : K) ≠ 0 := Nat.cast_ne_zero.mpr fun h => hl (List.length_eq_zero_iff.mp h)
    simp only [sq]
    field_simp

variable [LinearOrder K] [IsStrictOrderedRing K]

/-- The normal equations are singular just when all abscissas are one. -/
theorem spread_eq_zero_iff : spread l = 0 ↔ ∀ x ∈ l, ∀ y ∈ l, x = y := by
  constructor
  · intro h x hx y hy
    have hn : (l.length : K) ≠ 0 := Nat.cast_ne_zero.mpr (Nat.ne_of_gt (List.length_pos_of_mem hx))
    have hdev : sumSqDev l = 0 := (mul_eq_zero.mp (spread_eq l ▸ h)).resolve_left hn
    have hmean : ∀ z ∈ l, z = mean l := by
      intro z hz
      have hle : (z - mean l) ^ 2 ≤ sumSqDev l := by
        apply List.single_le_sum
        · intro w hw
          obtain ⟨v, _, rfl⟩ := List.mem_map.mp hw
          exact sq_nonneg _
        · exact List.mem_map.mpr ⟨z, hz, rfl⟩
      have hzero : (z - mean l) ^ 2 = 0 := le_antisymm (hdev ▸ hle) (sq_nonneg _)
      exact sub_eq_zero.mp (pow_eq_zero_iff two_ne_zero |>.mp hzero)
    rw [hmean x hx, hmean y hy]
  · intro h
    cases l with
    | nil => simp [spread]
    | cons x l =>
      have hall : x :: l = List.replicate (x :: l).length x :=
        List.eq_replicate_iff.mpr ⟨rfl, fun y hy => h y hy x List.mem_cons_self⟩
      rw [hall, spread, List.map_replicate]
      simp only [List.sum_replicate, List.length_replicate, nsmul_eq_mul]
      ring

end LeastSquares

end HelixRouter.Statistics
