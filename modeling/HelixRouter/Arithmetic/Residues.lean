import Mathlib.Algebra.Order.Archimedean.Basic
import Mathlib.Data.Int.CardIntervalMod
import Mathlib.Data.Int.GCD
import Mathlib.Tactic.LinearCombination

namespace HelixRouter.Arithmetic

/-- Some number of steps of width `g` around a circle of length `m` leads as high as the last
place that differs from the first by a multiple of their common divisor. -/
theorem exists_add_mul_mod_eq {m : Nat} (hm : 0 < m) (d g : Nat) :
    ∃ n, 1 ≤ n ∧ (d + n * g) % m = m - Nat.gcd g m + d % Nat.gcd g m := by
  obtain ⟨k, hk⟩ := Nat.gcd_dvd_right g m
  have hpos : 0 < Nat.gcd g m := Nat.gcd_pos_of_pos_right g hm
  have hbezout := Nat.gcd_eq_gcd_ab g m
  generalize Nat.gcd g m = G at hk hpos hbezout ⊢
  generalize Nat.gcdA g m = a at hbezout
  generalize Nat.gcdB g m = b at hbezout
  have hGm : G ≤ m := Nat.le_of_dvd hm ⟨k, hk⟩
  have hlt : m - G + d % G < m := by
    have := Nat.mod_lt d hpos
    omega
  let q : ℤ := k - 1 - (d / G : ℕ)
  have hgap : ((m - G + d % G : ℕ) : ℤ) - d = G * q := by
    have hd : (d : ℤ) = (d % G : ℕ) + G * (d / G : ℕ) := by
      exact_mod_cast (Nat.mod_add_div d G).symm
    have hm : (m : ℤ) = G * k := by exact_mod_cast hk
    rw [Nat.cast_add, Nat.cast_sub hGm]
    linear_combination hm - hd
  have hn : (((a * q) % m).toNat : ℤ) = a * q - m * (a * q / m) := by
    rw [Int.toNat_of_nonneg (Int.emod_nonneg _ (by omega))]
    linear_combination Int.emod_add_mul_ediv (a * q) m
  refine ⟨((a * q) % m).toNat + m, by omega, ?_⟩
  have heq : ((d + (((a * q) % m).toNat + m) * g : ℕ) : ℤ) =
      (m - G + d % G : ℕ) + m * (g * (1 - a * q / m) - b * q) := by
    push_cast [hn]
    push_cast at hgap
    linear_combination -hgap - q * hbezout
  have hmod := congrArg (· % (m : ℤ)) heq
  simp only [Int.add_mul_emod_self_left] at hmod
  rw [← Nat.mod_eq_of_lt hlt]
  exact_mod_cast hmod

/-- No number of steps leads higher. -/
theorem exists_le_add_mul_mod_iff {m : Nat} (hm : 0 < m) (d g c : Nat) :
    (∃ n, 1 ≤ n ∧ c ≤ (d + n * g) % m) ↔ c ≤ m - Nat.gcd g m + d % Nat.gcd g m := by
  constructor
  · rintro ⟨n, -, hc⟩
    obtain ⟨k, hk⟩ := Nat.gcd_dvd_right g m
    have hpos : 0 < Nat.gcd g m := Nat.gcd_pos_of_pos_right g hm
    have hres : (d + n * g) % m % Nat.gcd g m = d % Nat.gcd g m := by
      obtain ⟨j, hj⟩ := (Nat.gcd_dvd_left g m).mul_left n
      rw [Nat.mod_mod_of_dvd _ ⟨k, hk⟩, hj, Nat.add_mul_mod_self_left]
    have hsplit := Nat.mod_add_div ((d + n * g) % m) (Nat.gcd g m)
    rw [hres] at hsplit
    have hq : (d + n * g) % m / Nat.gcd g m < k :=
      Nat.div_lt_of_lt_mul (Nat.lt_of_lt_of_eq (Nat.mod_lt _ hm) hk)
    have hle := Nat.mul_le_mul_left (Nat.gcd g m) hq
    rw [← hk, Nat.succ_eq_add_one, Nat.mul_add, Nat.mul_one] at hle
    omega
  · intro hc
    obtain ⟨n, hn, heq⟩ := exists_add_mul_mod_eq hm d g
    exact ⟨n, hn, heq ▸ hc⟩

/-- How many of the first `m` readings of a counter that starts at zero, and again every `N`
steps, are multiples of `k`. -/
def hits (N k m : Nat) : Nat := Nat.count (fun i => i % N % k = 0) m

variable {N k A r : Nat}

theorem hits_mono (N k : Nat) : Monotone (hits N k) := Nat.count_monotone _

theorem hits_succ (m : Nat) :
    hits N k (m + 1) = hits N k m + if m % N % k = 0 then 1 else 0 := Nat.count_succ _ _

/-- Within one lap the hits are as many as it takes for that many gaps to reach as far. -/
theorem hits_lap (hk : 0 < k) {s : Nat} (hs : s ≤ N) :
    s ≤ k * hits N k s ∧ k * hits N k s < s + k := by
  induction s with
  | zero => simp [hits, hk]
  | succ s ih =>
    obtain ⟨hle, hlt⟩ := ih (Nat.le_of_succ_le hs)
    rw [hits_succ, Nat.mod_eq_of_lt hs]
    split
    · rename_i hdvd
      obtain ⟨j, rfl⟩ := Nat.dvd_of_mod_eq_zero hdvd
      have hge : j ≤ hits N k (k * j) := Nat.le_of_mul_le_mul_left hle hk
      have hle : hits N k (k * j) ≤ j := by
        rw [← Nat.mul_succ] at hlt
        exact Nat.lt_succ_iff.mp (Nat.lt_of_mul_lt_mul_left hlt)
      rw [Nat.le_antisymm hle hge, Nat.mul_succ]
      omega
    · rename_i hdvd
      have hne : s ≠ k * hits N k s := by
        intro heq
        rw [heq, Nat.mul_mod_right] at hdvd
        exact hdvd rfl
      simp only [Nat.add_zero]
      omega

theorem hits_lap_eq (hk : 0 < k) (hlo : N ≤ k * A) (hhi : k * A < N + k) : hits N k N = A := by
  obtain ⟨hle, hlt⟩ := hits_lap hk (le_refl N)
  have hlt₁ : k * hits N k N < k * (A + 1) := by
    rw [Nat.mul_succ]
    omega
  have hlt₂ : k * A < k * (hits N k N + 1) := by
    rw [Nat.mul_succ]
    omega
  have := Nat.lt_of_mul_lt_mul_left hlt₁
  have := Nat.lt_of_mul_lt_mul_left hlt₂
  omega

theorem hits_laps (q s : Nat) : hits N k (q * N + s) = q * hits N k N + hits N k s := by
  induction q with
  | zero => simp
  | succ q ih =>
    rw [Nat.succ_mul, Nat.add_comm (q * N) N, Nat.add_assoc, hits, Nat.count_add]
    simp only [Nat.add_mod_left]
    change hits N k N + hits N k (q * N + s) = _
    rw [ih, Nat.succ_mul]
    omega

/-- Where the gaps of a lap overshoot it by at most one, the hits never stray from their share
by more than what is left of one. -/
theorem hits_share_lap (hk : 0 < k) (hA : k * hits N k N ≤ N + 1) {s : Nat} (hs : s < N) :
    hits N k N * s + 1 ≤ N * hits N k s + hits N k N ∧
      N * hits N k s + hits N k N ≤ hits N k N * s + N := by
  have hlap := hits_lap hk (le_refl N)
  have hpart := hits_lap hk hs.le
  have hmono := hits_mono N k hs.le
  generalize hits N k N = A at *
  generalize hits N k s = g at *
  obtain ⟨r, hr⟩ := Nat.exists_eq_add_of_le hlap.1
  obtain ⟨e, he⟩ := Nat.exists_eq_add_of_le hpart.1
  have hpos : 0 < A := by
    apply Nat.pos_of_ne_zero
    intro hzero
    subst hzero
    omega
  have hbalance : N * g + r * g = A * s + A * e := by
    rw [← Nat.add_mul, ← hr, ← Nat.mul_add, ← he, Nat.mul_right_comm, Nat.mul_comm]
  have hrg : r * g ≤ 1 * g := Nat.mul_le_mul_right g (by omega)
  have hlow : r * g + 1 ≤ A * e + A := by
    rcases Nat.eq_zero_or_pos e with he0 | he0
    · subst he0
      have hg : g ≠ A := by
        intro heq
        subst heq
        omega
      omega
    · have : A * 1 ≤ A * e := Nat.mul_le_mul_left A he0
      omega
  have hhigh : A * e + A + r ≤ k * A + r * g := by
    have hgaps : A * (e + 1) ≤ A * k := Nat.mul_le_mul_left A (by omega)
    rw [Nat.mul_succ, Nat.mul_comm A k] at hgaps
    rcases Nat.eq_zero_or_pos g with hg | hg
    · subst hg
      have he0 : e = 0 := by omega
      subst he0
      rcases Nat.lt_or_ge k 2 with hk1 | hk2
      · have hk1 : k = 1 := by omega
        subst hk1
        omega
      · have : 2 * A ≤ k * A := Nat.mul_le_mul_right A hk2
        omega
    · have : r * 1 ≤ r * g := Nat.mul_le_mul_left r hg
      omega
  omega

theorem hits_share (hN : 0 < N) (hk : 0 < k) (hA : k * hits N k N ≤ N + 1) (m : Nat) :
    hits N k N * m + 1 ≤ N * hits N k m + hits N k N ∧
      N * hits N k m + hits N k N ≤ hits N k N * m + N := by
  rw [← Nat.div_add_mod' m N, hits_laps]
  have hlap := hits_share_lap hk hA (Nat.mod_lt m hN)
  generalize hits N k N = A at *
  generalize hits N k (m % N) = g at *
  have hleft : A * (m / N * N + m % N) = m / N * (A * N) + A * (m % N) := by ring
  have hright : N * (m / N * A + g) = m / N * (A * N) + N * g := by ring
  rw [hleft, hright]
  omega

/-- From any place in a lap on the hits are a share `p` of the steps, to one. -/
def EvenlySpread (N k : Nat) (p : ℚ) : Prop :=
  ∀ c < N, ∀ n : Nat, |(hits N k (c + n) : ℚ) - hits N k c - p * n| ≤ 1

theorem evenlySpread_of_hits {p : ℚ} (hN : 0 < N) (hk : 0 < k) (hA : k * hits N k N ≤ N + 1)
    (hp : p * N = hits N k N) : EvenlySpread N k p := by
  intro c _ n
  have hstart := hits_share hN hk hA c
  have hstop := hits_share hN hk hA (c + n)
  have hNpos : (0 : ℚ) < N := by exact_mod_cast hN
  generalize hits N k N = A at hp hstart hstop
  have hscaled : ((hits N k (c + n) : ℚ) - hits N k c - p * n) * N =
      N * hits N k (c + n) - N * hits N k c - A * n := by
    rw [← hp]
    ring
  have hbound : |((hits N k (c + n) : ℚ) - hits N k c - p * n) * N| ≤ N := by
    rw [hscaled]
    have h1 : (A * c + 1 : ℚ) ≤ N * hits N k c + A := by exact_mod_cast hstart.1
    have h2 : (N * hits N k c + A : ℚ) ≤ A * c + N := by exact_mod_cast hstart.2
    have h3 : (A * (c + n) + 1 : ℚ) ≤ N * hits N k (c + n) + A := by exact_mod_cast hstop.1
    have h4 : (N * hits N k (c + n) + A : ℚ) ≤ A * (c + n) + N := by exact_mod_cast hstop.2
    rw [abs_le]
    constructor <;> linarith
  rw [abs_mul, abs_of_pos hNpos] at hbound
  exact (mul_le_iff_le_one_left hNpos).mp hbound

/-- Within one lap it is enough that the share is one in `k`. -/
theorem hits_even_lap {p : ℚ} {c n : Nat} (hk : 0 < k) (hp : p * k = 1) (hn : c + n ≤ N) :
    |(hits N k (c + n) : ℚ) - hits N k c - p * n| ≤ 1 := by
  obtain ⟨hstart, hstart'⟩ := hits_lap hk (Nat.le_of_add_right_le hn)
  obtain ⟨hstop, hstop'⟩ := hits_lap hk hn
  have hkpos : (0 : ℚ) < k := by exact_mod_cast hk
  have hscaled : ((hits N k (c + n) : ℚ) - hits N k c - p * n) * k =
      k * hits N k (c + n) - k * hits N k c - n := by
    linear_combination -(n : ℚ) * hp
  have hbound : |((hits N k (c + n) : ℚ) - hits N k c - p * n) * k| ≤ k := by
    rw [hscaled]
    have h1 : (c : ℚ) ≤ k * hits N k c := by exact_mod_cast hstart
    have h2 : (k * hits N k c : ℚ) < c + k := by exact_mod_cast hstart'
    have h3 : (c + n : ℚ) ≤ k * hits N k (c + n) := by exact_mod_cast hstop
    have h4 : (k * hits N k (c + n) : ℚ) < c + n + k := by exact_mod_cast hstop'
    rw [abs_le]
    constructor <;> linarith
  rw [abs_mul, abs_of_pos hkpos] at hbound
  exact (mul_le_iff_le_one_left hkpos).mp hbound

/-- What a lap is off by adds up lap by lap. -/
theorem EvenlySpread.share {p : ℚ} (hN : 0 < N) (h : EvenlySpread N k p) : p * N = hits N k N := by
  have hlaps : ∀ q : Nat, |(hits N k N : ℚ) - p * N| * q ≤ 1 := by
    intro q
    have hq := h 0 hN (q * N)
    have hzero : hits N k 0 = 0 := rfl
    have hhits : hits N k (0 + q * N) = q * hits N k N := by
      rw [Nat.zero_add]
      exact hits_laps q 0
    rw [hhits, hzero] at hq
    push_cast at hq
    calc |(hits N k N : ℚ) - p * N| * q = |((hits N k N : ℚ) - p * N) * q| := by
          rw [abs_mul, Nat.abs_cast]
      _ = |(q : ℚ) * hits N k N - 0 - p * (q * N)| := by
          congr 1
          ring
      _ ≤ 1 := hq
  have hnone : |(hits N k N : ℚ) - p * N| = 0 := by
    by_contra hne
    have hpos : 0 < |(hits N k N : ℚ) - p * N| := (abs_nonneg _).lt_of_ne' hne
    obtain ⟨q, hq⟩ := exists_nat_gt (1 / |(hits N k N : ℚ) - p * N|)
    rw [div_lt_iff₀ hpos] at hq
    exact absurd (hlaps q) (not_le.mpr (mul_comm (q : ℚ) _ ▸ hq))
  linarith [abs_eq_zero.mp hnone]

/-- The last hit of a lap and the first one of the next must not be too close. -/
theorem EvenlySpread.gap {p : ℚ} (h : EvenlySpread N k p) {j d : Nat} (hd : 0 < d)
    (hj : k * j + d = N) : 1 ≤ p * (d + 1) := by
  have hhit : hits N k (k * j + (d + 1)) = hits N k (k * j + d) + 1 := by
    rw [← Nat.add_assoc, hits_succ, hj, Nat.mod_self, Nat.zero_mod, if_pos rfl]
  have hlap : k * j < N := by omega
  have hfirst : hits N k (k * j + 1) = hits N k (k * j) + 1 := by
    rw [hits_succ, Nat.mod_eq_of_lt hlap, Nat.mul_mod_right, if_pos rfl]
  have hmono : hits N k (k * j + 1) ≤ hits N k (k * j + d) := hits_mono N k (by omega)
  have hwindow := (abs_le.mp (h (k * j) hlap (d + 1))).2
  rw [hhit] at hwindow
  have htwo : (hits N k (k * j) + 1 : ℚ) ≤ hits N k (k * j + d) := by
    exact_mod_cast hfirst ▸ hmono
  push_cast at hwindow
  linarith

/-- How far the gaps of a lap may overshoot it. -/
theorem EvenlySpread.overshoot {p : ℚ} (h : EvenlySpread N k p) (hN : 0 < N) (hk : 0 < k)
    (hr : k * hits N k N = N + r) : hits N k N * r ≤ hits N k N + r := by
  have hshare := h.share hN
  have hlap := hits_lap hk (le_refl N)
  have hgap := @EvenlySpread.gap _ _ _ h
  generalize hits N k N = A at *
  have hpos : 0 < A := by
    apply Nat.pos_of_ne_zero
    intro hzero
    subst hzero
    omega
  have hrk : r < k := by omega
  have hj : k * (A - 1) + (k - r) = N := by
    rw [Nat.mul_sub, Nat.mul_one]
    have : k * 1 ≤ k * A := Nat.mul_le_mul_left k hpos
    omega
  have hscaled : (N : ℚ) ≤ A * ((k - r : ℕ) + 1) := by
    have hone := hgap (Nat.sub_pos_of_lt hrk) hj
    calc (N : ℚ) = 1 * N := (one_mul _).symm
      _ ≤ p * ((k - r : ℕ) + 1) * N := mul_le_mul_of_nonneg_right hone (Nat.cast_nonneg N)
      _ = p * N * ((k - r : ℕ) + 1) := mul_right_comm _ _ _
      _ = A * ((k - r : ℕ) + 1) := by rw [hshare]
  have hnat : N ≤ A * (k - r + 1) := by exact_mod_cast hscaled
  have hless : A * r ≤ k * A := Nat.mul_comm A k ▸ Nat.mul_le_mul_left A hrk.le
  rw [Nat.mul_succ, Nat.mul_sub, Nat.mul_comm A k] at hnat
  omega

/-- Two numbers whose product is not above their sum. -/
theorem le_one_of_mul_le_add (hA : 2 ≤ A) (h : A * r ≤ A + r) : r ≤ 1 ∨ A = 2 ∧ r = 2 := by
  rcases Nat.lt_or_ge r 2 with hr | hr
  · exact Or.inl (by omega)
  · have h1 : A * 2 ≤ A * r := Nat.mul_le_mul_left A hr
    have h2 : 2 * r ≤ A * r := Nat.mul_le_mul_right r hA
    have hAr : A = r := by omega
    subst hAr
    rcases Nat.lt_or_ge A 3 with hA3 | hA3
    · exact Or.inr ⟨by omega, by omega⟩
    · have : 3 * A ≤ A * A := Nat.mul_le_mul_right A hA3
      omega

end HelixRouter.Arithmetic
