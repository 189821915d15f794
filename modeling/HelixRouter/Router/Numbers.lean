import Mathlib.Data.Rat.Floor
import Mathlib.Tactic.Linarith

namespace HelixRouter

def u64Max : Nat := 18446744073709551615

/-- The cast of a number to a 64-bit word: truncated and saturating. -/
def castU64 (q : ℚ) : UInt64 := UInt64.ofNat (min q.floor.toNat u64Max)

def saturatingAdd (a b : UInt64) : UInt64 := UInt64.ofNat (min (a.toNat + b.toNat) u64Max)

def saturatingSub (a b : UInt64) : UInt64 := if b ≤ a then a - b else 0

def saturatingMul (a b : UInt64) : UInt64 := UInt64.ofNat (min (a.toNat * b.toNat) u64Max)

def toRat (a : UInt64) : ℚ := (a.toNat : ℚ)

theorem toNat_le_u64Max (a : UInt64) : a.toNat ≤ u64Max := by
  have := a.toNat_lt
  unfold u64Max
  omega

theorem toNat_ofNat_min (n : Nat) : (UInt64.ofNat (min n u64Max)).toNat = min n u64Max := by
  apply UInt64.toNat_ofNat_of_lt'
  change min n u64Max < 2 ^ 64
  unfold u64Max
  omega

theorem toNat_castU64 (q : ℚ) : (castU64 q).toNat = min q.floor.toNat u64Max :=
  toNat_ofNat_min _

theorem toNat_castU64_div (n d : Nat) : (castU64 ((n : ℚ) / d)).toNat = min (n / d) u64Max := by
  have hfloor : ((n : ℚ) / d).floor = ((n / d : Nat) : Int) := Rat.floor_natCast_div_natCast n d
  rw [toNat_castU64, hfloor, Int.toNat_natCast]

theorem toNat_saturatingAdd (a b : UInt64) :
    (saturatingAdd a b).toNat = min (a.toNat + b.toNat) u64Max := toNat_ofNat_min _

theorem toNat_saturatingMul (a b : UInt64) :
    (saturatingMul a b).toNat = min (a.toNat * b.toNat) u64Max := toNat_ofNat_min _

theorem toNat_saturatingSub (a b : UInt64) :
    (saturatingSub a b).toNat = a.toNat - b.toNat := by
  unfold saturatingSub
  split
  · rename_i h
    exact UInt64.toNat_sub_of_le _ _ h
  · rename_i h
    have : a.toNat < b.toNat := UInt64.lt_iff_toNat_lt.mp (UInt64.not_le.mp h)
    simp
    omega

theorem toNat_max (a b : UInt64) : (max a b).toNat = max a.toNat b.toNat := by
  change (if a ≤ b then b else a).toNat = _
  split
  · rename_i h
    exact (Nat.max_eq_right (UInt64.le_iff_toNat_le.mp h)).symm
  · rename_i h
    have := UInt64.lt_iff_toNat_lt.mp (UInt64.not_le.mp h)
    omega

theorem toNat_min (a b : UInt64) : (min a b).toNat = min a.toNat b.toNat := by
  change (if a ≤ b then a else b).toNat = _
  split
  · rename_i h
    exact (Nat.min_eq_left (UInt64.le_iff_toNat_le.mp h)).symm
  · rename_i h
    have := UInt64.lt_iff_toNat_lt.mp (UInt64.not_le.mp h)
    omega

/-- A number at least a word casts to at least that word. -/
theorem le_castU64 {a : UInt64} {q : ℚ} (h : toRat a ≤ q) : a ≤ castU64 q := by
  rw [UInt64.le_iff_toNat_le, toNat_castU64]
  refine Nat.le_min.mpr ⟨?_, toNat_le_u64Max a⟩
  have hf : (a.toNat : ℤ) ≤ q.floor := Rat.le_floor_iff.mpr (by simpa [toRat] using h)
  omega

/-- A number at most a word casts to at most that word. -/
theorem castU64_le {a : UInt64} {q : ℚ} (h : q ≤ toRat a) : castU64 q ≤ a := by
  rw [UInt64.le_iff_toNat_le, toNat_castU64]
  have hf : (q.floor : ℚ) ≤ q := Rat.floor_le q
  have hz : q.floor ≤ (a.toNat : ℤ) := by
    have : (q.floor : ℚ) ≤ ((a.toNat : ℤ) : ℚ) := hf.trans (by simpa [toRat] using h)
    exact_mod_cast this
  omega

theorem lt_castU64_iff {t : UInt64} {q : ℚ} :
    t < castU64 q ↔ t.toNat < u64Max ∧ toRat t + 1 ≤ q := by
  rw [UInt64.lt_iff_toNat_lt, toNat_castU64, Nat.lt_min, and_comm]
  apply and_congr_right'
  have hfloor : ((t.toNat : Int) + 1 ≤ q.floor) ↔ ((t.toNat + 1 : Int) : ℚ) ≤ q := Rat.le_floor_iff
  have hcast : ((t.toNat + 1 : Int) : ℚ) = toRat t + 1 := by
    rw [toRat]
    push_cast
    rfl
  rw [← hcast, ← hfloor]
  omega

theorem castU64_lt {a : UInt64} {q : ℚ} (ha : 0 < a) (h : q < toRat a) : castU64 q < a := by
  rw [UInt64.lt_iff_toNat_lt, toNat_castU64]
  have hz : q.floor < (a.toNat : ℤ) := Rat.floor_lt_iff.mpr (by simpa [toRat] using h)
  have hpos : 0 < a.toNat := UInt64.lt_iff_toNat_lt.mp ha
  omega

theorem le_saturatingMul (a : UInt64) {b : UInt64} (hb : 0 < b) : a ≤ saturatingMul a b := by
  rw [UInt64.le_iff_toNat_le, toNat_saturatingMul]
  refine Nat.le_min.mpr ⟨?_, toNat_le_u64Max a⟩
  exact Nat.le_mul_of_pos_right _ (UInt64.lt_iff_toNat_lt.mp hb)

end HelixRouter
