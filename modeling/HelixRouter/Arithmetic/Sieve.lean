import Mathlib.Data.Nat.Prime.Basic

namespace HelixRouter.Arithmetic

variable {n d j : Nat} {stands struck : Nat → Prop}

/-- A sieve that has come to `d`: of the numbers up to `n` there stand the primes, and those
whose least factor is still to come. -/
def Sieved (n d : Nat) (stands : Nat → Prop) : Prop :=
  ∀ j ≤ n, stands j ↔ 2 ≤ j ∧ (j.Prime ∨ d ≤ j.minFac)

namespace Sieved

theorem start (h : ∀ j ≤ n, stands j ↔ 2 ≤ j) : Sieved n 2 stands := by
  intro j hj
  rw [h j hj]
  refine ⟨fun htwo => ⟨htwo, .inr ?_⟩, And.left⟩
  exact (Nat.minFac_prime (by omega)).two_le

/-- The number a sieve has come to stands exactly if it is a prime. -/
theorem prime_of_stands (h : Sieved n d stands) (hd : d ≤ n) : stands d ↔ d.Prime := by
  rw [h d hd]
  constructor
  · rintro ⟨htwo, hprime | hleast⟩
    · exact hprime
    · have hfac : d.minFac = d := le_antisymm (Nat.minFac_le (by omega)) hleast
      exact hfac ▸ Nat.minFac_prime (by omega)
  · exact fun hprime => ⟨hprime.two_le, .inl hprime⟩

theorem skip (h : Sieved n d stands) (hd : ¬d.Prime) : Sieved n (d + 1) stands := by
  intro j hj
  rw [h j hj]
  refine and_congr_right fun htwo => or_congr_right ⟨fun hle => ?_, fun hle => by omega⟩
  have hne : d ≠ j.minFac := fun he => hd (he ▸ Nat.minFac_prime (by omega))
  omega

/-- Striking out the multiples of a prime from its square on leaves no number behind whose least
factor it is: a smaller multiple has a smaller factor. -/
theorem strike (h : Sieved n d stands) (hd : d.Prime)
    (hstruck : ∀ j ≤ n, struck j ↔ stands j ∧ ¬(d * d ≤ j ∧ d ∣ j)) :
    Sieved n (d + 1) struck := by
  intro j hj
  rw [hstruck j hj, h j hj]
  constructor
  · rintro ⟨⟨htwo, hprime | hle⟩, hnot⟩
    · exact ⟨htwo, .inl hprime⟩
    · by_cases hprime : j.Prime
      · exact ⟨htwo, .inl hprime⟩
      · refine ⟨htwo, .inr (Nat.lt_of_le_of_ne hle fun he => hnot ⟨?_, ?_⟩)⟩
        · have hsq := Nat.minFac_sq_le_self (by omega) hprime
          rwa [← he, pow_two] at hsq
        · exact he ▸ Nat.minFac_dvd j
  · rintro ⟨htwo, hprime | hle⟩
    · refine ⟨⟨htwo, .inl hprime⟩, fun hmul => ?_⟩
      have he : d = j := (Nat.prime_dvd_prime_iff_eq hd hprime).mp hmul.2
      have hlt : j < d * d := by
        rw [he]
        exact Nat.lt_mul_self_iff.mpr hprime.one_lt
      omega
    · refine ⟨⟨htwo, .inr (by omega)⟩, fun hmul => ?_⟩
      have hfac := Nat.minFac_le_of_dvd hd.two_le hmul.2
      omega

/-- Past the root of its bound a sieve has only the primes left. -/
theorem stands_iff_prime (h : Sieved n d stands) (hd : n < d * d) (hj : j ≤ n) :
    stands j ↔ j.Prime := by
  rw [h j hj]
  refine ⟨fun ⟨htwo, hor⟩ => ?_, fun hprime => ⟨hprime.two_le, .inl hprime⟩⟩
  by_contra hprime
  have hle := hor.resolve_left hprime
  have hsq := Nat.minFac_sq_le_self (by omega) hprime
  have hdd := Nat.mul_le_mul hle hle
  rw [pow_two] at hsq
  omega

end Sieved

end HelixRouter.Arithmetic
