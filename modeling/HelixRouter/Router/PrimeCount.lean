import HelixRouter.Arithmetic.Sieve
import HelixRouter.Router.Kernels
import Mathlib.NumberTheory.PrimeCounting

namespace HelixRouter

open Arithmetic

variable {n p j : Nat} {isPrime : Array Bool}

/-- The flags of the sieve: a number beyond the last one has none. -/
def Standing (isPrime : Array Bool) (j : Nat) : Prop := isPrime.getD j false = true

theorem size_foldl_set (ks : List Nat) (isPrime : Array Bool) :
    (ks.foldl (fun a k => a.set! k false) isPrime).size = isPrime.size := by
  induction ks generalizing isPrime with
  | nil => rfl
  | cons k ks ih =>
    rw [List.foldl_cons, ih]
    simp

theorem standing_set {k : Nat} :
    Standing (isPrime.set! k false) j ↔ Standing isPrime j ∧ j ≠ k := by
  unfold Standing
  by_cases hj : j = k
  · subst hj
    simp [Array.getD_eq_getD_getElem?]
  · have hne : k ≠ j := fun h => hj h.symm
    simp [Array.getD_eq_getD_getElem?, hj, hne]

theorem standing_foldl_set (ks : List Nat) (isPrime : Array Bool) :
    Standing (ks.foldl (fun a k => a.set! k false) isPrime) j ↔
      Standing isPrime j ∧ j ∉ ks := by
  induction ks generalizing isPrime with
  | nil => simp
  | cons k ks ih =>
    rw [List.foldl_cons, ih, standing_set, List.mem_cons, not_or, and_assoc]

/-- The inner loop goes through the multiples from the square on, up to the bound. -/
theorem mem_multiples (hp : 0 < p) (hn : p * p ≤ n) (hj : j ≤ n) :
    j ∈ List.range' (p * p) ((n - p * p) / p + 1) p ↔ p * p ≤ j ∧ p ∣ j := by
  rw [List.mem_range']
  constructor
  · rintro ⟨i, _, rfl⟩
    exact ⟨Nat.le_add_right _ _, Dvd.intro (p + i) (by rw [Nat.mul_add])⟩
  · rintro ⟨hle, m, rfl⟩
    have hpm : p ≤ m := Nat.le_of_mul_le_mul_left hle hp
    refine ⟨m - p, ?_, ?_⟩
    · apply Nat.lt_succ_of_le
      apply (Nat.le_div_iff_mul_le hp).mpr
      rw [Nat.sub_mul, Nat.mul_comm m p]
      omega
    · rw [← Nat.mul_add, Nat.add_sub_cancel' hpm]

theorem size_sieveStep : (sieveStep n isPrime p).size = isPrime.size := by
  unfold sieveStep
  split
  · exact size_foldl_set _ _
  · rfl

theorem sieved_sieveStep (h : Sieved n p (Standing isPrime)) (hp : 2 ≤ p) (hn : p * p ≤ n) :
    Sieved n (p + 1) (Standing (sieveStep n isPrime p)) := by
  have hle : p ≤ n := le_trans (Nat.le_mul_of_pos_left p (by omega)) hn
  have hprime := h.prime_of_stands hle
  unfold sieveStep
  by_cases hstands : Standing isPrime p
  · have hflag : isPrime.getD p false = true := hstands
    rw [if_pos hflag]
    refine h.strike (hprime.mp hstands) fun j hj => ?_
    rw [standing_foldl_set, mem_multiples (by omega) hn hj]
  · have hflag : ¬isPrime.getD p false = true := hstands
    rw [if_neg hflag]
    exact h.skip (hprime.not.mp hstands)

/-- The outer loop, one step for each number whose square is at most the bound. -/
theorem sieved_foldl (k : Nat) (hk : ∀ p ∈ List.range' 2 k, p * p ≤ n)
    (h : Sieved n 2 (Standing isPrime)) :
    Sieved n (2 + k) (Standing ((List.range' 2 k).foldl (sieveStep n) isPrime)) ∧
      ((List.range' 2 k).foldl (sieveStep n) isPrime).size = isPrime.size := by
  induction k with
  | zero => exact ⟨h, rfl⟩
  | succ k ih =>
    have hlast : (2 + k) * (2 + k) ≤ n := hk _ (List.mem_range'_1.mpr (by omega))
    obtain ⟨hsieved, hsize⟩ := ih fun p hp => hk p (List.mem_range'_1.mpr (by
      have := List.mem_range'_1.mp hp
      omega))
    rw [List.range'_1_concat, List.foldl_append, List.foldl_cons, List.foldl_nil]
    exact ⟨sieved_sieveStep hsieved (Nat.le_add_right 2 k) hlast, size_sieveStep.trans hsize⟩

theorem countP_range (p : Nat → Prop) [DecidablePred p] (n : Nat) :
    (List.range n).countP (fun j => decide (p j)) = Nat.count p n := by
  induction n with
  | zero => rfl
  | succ n ih =>
    rw [List.range_succ, List.countP_append, ih, Nat.count_succ]
    simp

/-- The flags that are set are as many as the numbers that stand. -/
theorem count_eq_countP (isPrime : Array Bool) :
    isPrime.count true = (List.range isPrime.size).countP fun j => isPrime.getD j false := by
  have hlist : isPrime.toList = (List.range isPrime.size).map fun j => isPrime.getD j false := by
    apply List.ext_getElem (by simp)
    intro i hi _
    have hsize : i < isPrime.size := by simpa using hi
    simp [Array.getD_eq_getD_getElem?, hsize]
  rw [← Array.count_toList, hlist, List.count_eq_countP, List.countP_map]
  apply List.countP_congr
  simp

/-- The kernel answers with the number of primes up to its bound, and never wraps. -/
theorem primecount_counts (job : Job) : ∃ count : UInt64, primecount job = .u64 count ∧
    count.toNat = Nat.primeCounting (min (max job.computeCost.toNat 10000) 250000) := by
  refine ⟨_, rfl, ?_⟩
  generalize hn : min (max job.computeCost.toNat 10000) 250000 = n
  generalize hstart : ((Array.replicate (n + 1) true).set! 0 false).set! 1 false = start
  have hsize : start.size = n + 1 := by
    rw [← hstart]
    simp
  have hnew : Sieved n 2 (Standing start) := Sieved.start fun j hj => by
    rw [← hstart, standing_set, standing_set]
    simp only [Standing, Array.getD_eq_getD_getElem?, Array.getElem?_replicate]
    rw [if_pos (by omega)]
    simp only [Option.getD_some, true_and]
    omega
  have hroot : 2 ≤ Nat.sqrt n := Nat.le_sqrt.mpr (by omega)
  obtain ⟨hsieved, hsame⟩ := sieved_foldl (Nat.sqrt n - 1) (fun p hp => by
    have hp := List.mem_range'_1.mp hp
    exact Nat.le_sqrt.mp (by omega)) hnew
  have hpast : n < (2 + (Nat.sqrt n - 1)) * (2 + (Nat.sqrt n - 1)) := by
    have hend : 2 + (Nat.sqrt n - 1) = Nat.sqrt n + 1 := by omega
    rw [hend]
    exact Nat.lt_succ_sqrt n
  generalize (List.range' 2 (Nat.sqrt n - 1)).foldl (sieveStep n) start = isPrime at hsieved hsame
  have hcount : isPrime.count true = Nat.primeCounting n := by
    rw [count_eq_countP, hsame, hsize, Nat.primeCounting, Nat.primeCounting', ← countP_range]
    refine List.countP_congr fun j hj => ?_
    rw [decide_eq_true_iff]
    exact hsieved.stands_iff_prime hpast (by
      have := List.mem_range.mp hj
      omega)
  have hle : isPrime.count true ≤ n + 1 := by
    rw [← hsize, ← hsame]
    exact Array.count_le_size
  rw [hcount] at hle ⊢
  exact UInt64.toNat_ofNat_of_lt' (by unfold UInt64.size; omega)

end HelixRouter
