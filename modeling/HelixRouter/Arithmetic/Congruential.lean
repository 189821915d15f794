import Mathlib.Algebra.Ring.Parity
import Mathlib.Data.List.Nodup
import Mathlib.Data.List.Perm.Subperm
import Mathlib.Data.Nat.ModEq
import Mathlib.Data.Nat.Prime.Basic
import Mathlib.Data.UInt
import Mathlib.Tactic.Ring

namespace HelixRouter.Arithmetic

variable {b c k i j n x : Nat}

/-- One step of a linear congruential generator, before it is cut to a word. -/
def congruential (a c x : Nat) : Nat := a * x + c

/-- What the increments of `n` steps add up to. -/
def repunit (a : Nat) : Nat → Nat
  | 0 => 0
  | n + 1 => a * repunit a n + 1

theorem pow_eq_repunit (b n : Nat) : (b + 1) ^ n = b * repunit (b + 1) n + 1 := by
  induction n with
  | zero => rfl
  | succ n ih =>
    rw [pow_succ, ih, repunit]
    ring

theorem repunit_add (b m n : Nat) :
    repunit (b + 1) (m + n) = repunit (b + 1) m * (b + 1) ^ n + repunit (b + 1) n := by
  induction n with
  | zero => simp [repunit]
  | succ n ih =>
    rw [← Nat.add_assoc, repunit, ih, repunit, pow_succ]
    ring

theorem iterate_congruential (b c n x : Nat) :
    (congruential (b + 1) c)^[n] x = x + repunit (b + 1) n * (b * x + c) := by
  induction n with
  | zero => simp [repunit]
  | succ n ih =>
    rw [Function.iterate_succ_apply', ih, congruential, repunit]
    ring

theorem odd_repunit_iff (hb : 4 ∣ b) : Odd (repunit (b + 1) n) ↔ Odd n := by
  have hodd : Odd (b + 1) := by
    obtain ⟨d, rfl⟩ := hb
    exact ⟨2 * d, by ring⟩
  induction n with
  | zero => simp [repunit]
  | succ n ih =>
    rw [repunit, Nat.odd_add_one, Nat.odd_add_one, Nat.odd_mul]
    exact not_congr ((and_iff_right hodd).trans ih)

/-- An even number of steps is twice as many as half of them, times an odd number: the sum of the
increments has as many factors of two as the number of steps. -/
theorem two_pow_dvd_repunit_iff (hb : 4 ∣ b) : 2 ^ k ∣ repunit (b + 1) n ↔ 2 ^ k ∣ n := by
  induction k generalizing n with
  | zero => simp
  | succ k ih =>
    have hparity := odd_repunit_iff (n := n) hb
    rcases Nat.even_or_odd n with ⟨m, rfl⟩ | hodd
    · obtain ⟨d, rfl⟩ := hb
      have hsplit : repunit (4 * d + 1) (m + m) =
          2 * (repunit (4 * d + 1) m * (2 * (d * repunit (4 * d + 1) m) + 1)) := by
        rw [repunit_add, pow_eq_repunit]
        ring
      have hcoprime : Nat.Coprime (2 ^ k) (2 * (d * repunit (4 * d + 1) m) + 1) :=
        Nat.Coprime.pow_left k (by simp)
      rw [hsplit, pow_succ', Nat.mul_dvd_mul_iff_left (by omega), hcoprime.dvd_mul_right,
        ih, ← two_mul, Nat.mul_dvd_mul_iff_left (by omega)]
    · have hdvd : ∀ {m : Nat}, Odd m → ¬2 ^ (k + 1) ∣ m := fun hm h =>
        (Nat.not_even_iff_odd.mpr hm) (even_iff_two_dvd.mpr
          ((Dvd.intro_left (2 ^ k) (pow_succ 2 k).symm).trans h))
      exact iff_of_false (hdvd (hparity.mpr hodd)) (hdvd hodd)

/-- A generator with such numbers comes back to a remainder exactly after all the others. -/
theorem iterate_modEq_iff (hb : 4 ∣ b) (hc : Odd c) :
    (congruential (b + 1) c)^[n] x ≡ x [MOD 2 ^ k] ↔ 2 ^ k ∣ n := by
  have hodd : Odd (b * x + c) := by
    obtain ⟨d, rfl⟩ := hb
    exact Even.add_odd ⟨2 * (d * x), by ring⟩ hc
  have hcoprime : Nat.Coprime (2 ^ k) (b * x + c) :=
    Nat.Coprime.pow_left k hodd.coprime_two_left
  have hback : (congruential (b + 1) c)^[n] x ≡ x [MOD 2 ^ k] ↔
      x ≡ (congruential (b + 1) c)^[n] x [MOD 2 ^ k] := ⟨Nat.ModEq.symm, Nat.ModEq.symm⟩
  rw [hback, iterate_congruential, Nat.modEq_iff_dvd' (Nat.le_add_right _ _),
    Nat.add_sub_cancel_left, hcoprime.dvd_mul_right, two_pow_dvd_repunit_iff hb]

/-- Within one lap no remainder comes up twice. -/
theorem eq_of_iterates_modEq (hb : 4 ∣ b) (hc : Odd c) (hi : i < 2 ^ k) (hj : j < 2 ^ k)
    (h : (congruential (b + 1) c)^[i] x ≡ (congruential (b + 1) c)^[j] x [MOD 2 ^ k]) :
    i = j := by
  wlog hij : i ≤ j generalizing i j
  · exact (this hj hi h.symm (Nat.le_of_not_le hij)).symm
  obtain ⟨d, rfl⟩ := Nat.exists_eq_add_of_le' hij
  rw [Function.iterate_add_apply] at h
  have hd := Nat.eq_zero_of_dvd_of_lt ((iterate_modEq_iff hb hc).mp h.symm) (by omega)
  omega

/-- The remainders of `2 ^ k` states in a row are all there are, each once. -/
theorem iterates_perm (hb : 4 ∣ b) (hc : Odd c) (k x : Nat) :
    ((List.range (2 ^ k)).map fun i => (congruential (b + 1) c)^[i] x % 2 ^ k).Perm
      (List.range (2 ^ k)) := by
  have hnodup : ((List.range (2 ^ k)).map fun i =>
      (congruential (b + 1) c)^[i] x % 2 ^ k).Nodup := by
    refine List.Nodup.map_on (fun i hi j hj h => ?_) List.nodup_range
    exact eq_of_iterates_modEq hb hc (List.mem_range.mp hi) (List.mem_range.mp hj) h
  apply List.Subperm.perm_of_length_le
  · apply List.subperm_of_subset hnodup
    intro r hr
    obtain ⟨i, _, rfl⟩ := List.mem_map.mp hr
    exact List.mem_range.mpr (Nat.mod_lt _ (Nat.two_pow_pos k))
  · simp

/-- Of the numbers below a bound each remainder has as many as go into the bound, or one more. -/
theorem countP_mod_bounds (p : Nat → Bool) {m : Nat} (hm : 0 < m) (bound : Nat) :
    (List.range m).countP (fun r => p (r % m)) * (bound / m) ≤
        (List.range bound).countP (fun r => p (r % m)) ∧
      (List.range bound).countP (fun r => p (r % m)) ≤
        (List.range m).countP (fun r => p (r % m)) * (bound / m + 1) := by
  have hrounds : ∀ q rest, (List.range (m * q + rest)).countP (fun r => p (r % m)) =
      (List.range m).countP (fun r => p (r % m)) * q +
        (List.range rest).countP (fun r => p (r % m)) := by
    intro q rest
    induction q with
    | zero => simp
    | succ q ih =>
      have hround : m * (q + 1) + rest = m + (m * q + rest) := by ring
      rw [hround, List.range_add, List.countP_append, List.countP_map]
      have hshift : (fun r => p (r % m)) ∘ (fun r => m + r) = fun r => p (r % m) := by
        funext r
        rw [Function.comp_apply, Nat.add_mod_left]
      rw [hshift, ih]
      ring
  have hsplit := hrounds (bound / m) (bound % m)
  rw [Nat.div_add_mod] at hsplit
  have hrest : (List.range (bound % m)).countP (fun r => p (r % m)) ≤
      (List.range m).countP (fun r => p (r % m)) :=
    (List.range_sublist.mpr (Nat.mod_lt bound hm).le).countP_le
  rw [hsplit, Nat.mul_add_one]
  exact ⟨Nat.le_add_right _ _, Nat.add_le_add_left hrest _⟩

/-- The generator on a word. -/
def lcg (a c x : UInt64) : UInt64 := x * a + c

theorem toNat_iterate_lcg (a c x : UInt64) (n : Nat) :
    ((lcg a c)^[n] x).toNat = (congruential a.toNat c.toNat)^[n] x.toNat % 2 ^ 64 := by
  induction n with
  | zero => exact (Nat.mod_eq_of_lt x.toNat_lt).symm
  | succ n ih =>
    rw [Function.iterate_succ_apply', Function.iterate_succ_apply', lcg, UInt64.toNat_add,
      UInt64.toNat_mul, ih, Nat.mod_add_mod, congruential, Nat.mul_comm]
    exact ((Nat.mod_modEq _ _).mul_left _).add_right _

/-- The low bits of the states of a lap are all there are, each once. -/
theorem lcg_perm {a c : UInt64} (ha : a.toNat % 4 = 1) (hc : c.toNat % 2 = 1) (hk : k ≤ 64)
    (x : UInt64) :
    ((List.range (2 ^ k)).map fun i => ((lcg a c)^[i] x).toNat % 2 ^ k).Perm
      (List.range (2 ^ k)) := by
  have hb : 4 ∣ a.toNat - 1 := by omega
  have ha1 : a.toNat - 1 + 1 = a.toNat := by omega
  have hperm := iterates_perm hb (Nat.odd_iff.mpr hc) k x.toNat
  rw [ha1] at hperm
  refine (List.Perm.of_eq (List.map_congr_left fun i _ => ?_)).trans hperm
  rw [toNat_iterate_lcg, Nat.mod_mod_of_dvd _ (pow_dvd_pow 2 hk)]

end HelixRouter.Arithmetic
