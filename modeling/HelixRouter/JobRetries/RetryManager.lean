import HelixRouter.Router.Numbers
import HelixRouter.Texts.Bytes
import Mathlib.Tactic.FieldSimp
import Mathlib.Tactic.NormNum

namespace HelixRouter.JobRetries

open Texts

/-- Durations are whole milliseconds. -/
structure RetryPolicy where
  maxAttempts : UInt32 := 3
  initialBackoff : UInt64 := 100
  maxBackoff : UInt64 := 30000
  backoffMultiplier : ℚ := 2
  jitter : Bool := true

structure Lcg where
  state : UInt64

namespace Lcg

def next (g : Lcg) : Lcg := ⟨g.state * 6364136223846793005 + 1442695040888963407⟩

/-- The upper bits of the next state, all ones of which are taken to the upper end. -/
def drawn (g : Lcg) (lo hi : ℚ) : ℚ :=
  let raw := toRat (g.next.state >>> 11) / toRat (UInt64.ofNat u64Max >>> 11)
  lo + raw * (hi - lo)

end Lcg

/-- Halves are rounded away from zero. -/
def roundAway (q : ℚ) : ℤ := if 0 ≤ q then ⌊q + 1 / 2⌋ else ⌈q - 1 / 2⌉

/-- The back-off that follows a back-off. -/
def nextBackoff (policy : RetryPolicy) (backoff : UInt64) (g : Lcg) : UInt64 × Lcg :=
  let raw := min (toRat backoff * policy.backoffMultiplier) (toRat policy.maxBackoff)
  let (jittered, g) :=
    if policy.jitter then (roundAway (raw * g.drawn (1 / 2) (3 / 2)), g.next) else (⌈raw⌉, g)
  (min (castU64 jittered) policy.maxBackoff, g)

structure RetryState where
  attempts : Nat
  nextBackoff : UInt64
  lastError : Option String

inductive RetryError where
  | maxAttemptsExceeded (attempts : Nat) (lastError : String)

structure RetryStats where
  totalAttempts : Nat := 0
  totalSuccesses : Nat := 0
  totalFailures : Nat := 0
  avgAttemptsPerJob : ℚ := 0

structure RetryManager where
  stats : RetryStats := {}
  lcgSeed : UInt64 := 0

/-- What came of the attempts at one job: how often the executor was called, and how long it
was waited between the calls. -/
structure Course where
  result : Except RetryError String
  calls : Nat
  waits : List UInt64

/-- What each call of the executor returns. -/
abbrev Executor := Nat → Except String String

namespace RetryState

def initial (policy : RetryPolicy) : RetryState := ⟨0, policy.initialBackoff, none⟩

def advance (s : RetryState) (policy : RetryPolicy) (err : String) (g : Lcg) :
    RetryState × Lcg :=
  let (backoff, g) := JobRetries.nextBackoff policy s.nextBackoff g
  ({ attempts := s.attempts + 1, nextBackoff := backoff, lastError := some err }, g)

/-- The loop of `run`. -/
def course (policy : RetryPolicy) (executor : Executor) (s : RetryState) (g : Lcg) : Course :=
  match executor s.attempts with
  | .ok output => ⟨.ok output, 1, []⟩
  | .error err =>
    let next := s.advance policy err g
    if policy.maxAttempts.toNat ≤ s.attempts + 1 then
      ⟨.error (.maxAttemptsExceeded (s.attempts + 1) (next.1.lastError.getD "")), 1, []⟩
    else
      let rest := course policy executor next.1 next.2
      { rest with calls := rest.calls + 1, waits := next.1.nextBackoff :: rest.waits }
termination_by policy.maxAttempts.toNat - s.attempts
decreasing_by
  simp only [advance]
  omega

end RetryState

namespace RetryStats

def finish (s : RetryStats) (course : Course) : RetryStats :=
  let totalAttempts := s.totalAttempts + course.calls
  let (successes, failures) :=
    match course.result with
    | .ok _ => (s.totalSuccesses + 1, s.totalFailures)
    | .error _ => (s.totalSuccesses, s.totalFailures + 1)
  ⟨totalAttempts, successes, failures, totalAttempts / (successes + failures : Nat)⟩

end RetryStats

namespace RetryManager

def jobSeed (m : RetryManager) (job : Text) : UInt64 :=
  m.lcgSeed + (encodeUtf8 job).foldl (fun acc b => acc * 31 + b.toUInt64) 0

def run (m : RetryManager) (job : Text) (policy : RetryPolicy) (executor : Executor) :
    Course × RetryManager :=
  let course := (RetryState.initial policy).course policy executor ⟨m.jobSeed job⟩
  (course, ⟨m.stats.finish course, m.lcgSeed + 1⟩)

end RetryManager

open Texts

/-- The first calls of an executor that fail. -/
def Fails (executor : Executor) (n : Nat) : Prop := ∀ i < n, ∃ err, executor i = .error err

/-- A retry that is waited for. -/
def Due (policy : RetryPolicy) (executor : Executor) (j : Nat) : Prop :=
  Fails executor j ∧ j < policy.maxAttempts.toNat

/-- The documented back-off before a retry. -/
def RetryPolicy.backoff (policy : RetryPolicy) (m j : Nat) : Nat :=
  min policy.maxBackoff.toNat (policy.initialBackoff.toNat * m ^ (j - 1))

/-- A wait before a retry that is the documented one, or about that with jitter. -/
def RetryPolicy.Grants (policy : RetryPolicy) (m j : Nat) (wait : UInt64) : Prop :=
  if policy.jitter then
    min (policy.maxBackoff.toNat : ℤ) (roundAway (1 / 2 * policy.backoff m j)) ≤ wait.toNat ∧
      wait.toNat ≤ min (policy.maxBackoff.toNat : ℤ) (roundAway (3 / 2 * policy.backoff m j))
  else wait.toNat = policy.backoff m j

/-- Jobs are waited for as documented, and given up when the attempts are. -/
structure Scheduled (policy : RetryPolicy) (m : Nat) (executor : Executor) : Prop where
  waits : ∀ (manager : RetryManager) job j, 1 ≤ j → Due policy executor j →
    ∃ wait, (manager.run job policy executor).1.waits[j - 1]? = some wait ∧
      policy.Grants m j wait
  calls : (∀ n, Fails executor n) → ∀ (manager : RetryManager) job,
    (manager.run job policy executor).1.calls = max 1 policy.maxAttempts.toNat

section Courses

variable {policy : RetryPolicy} {executor : Executor} {s : RetryState} {g : Lcg} {n j : Nat}

theorem Fails.mono (h : Fails executor n) (hle : j ≤ n) : Fails executor j :=
  fun i hi => h i (Nat.lt_of_lt_of_le hi hle)

theorem Due.mono (h : Due policy executor n) (hle : j ≤ n) : Due policy executor j :=
  ⟨h.1.mono hle, Nat.lt_of_le_of_lt hle h.2⟩

/-- The back-off and the state of the generator after a number of failures. -/
def backoffs (policy : RetryPolicy) (g : Lcg) (n : Nat) : UInt64 × Lcg :=
  (fun p => nextBackoff policy p.1 p.2)^[n] (policy.initialBackoff, g)

theorem backoffs_succ :
    backoffs policy g (n + 1) =
      nextBackoff policy (backoffs policy g n).1 (backoffs policy g n).2 :=
  Function.iterate_succ_apply' ..

theorem course_of_error {err : String} (herr : executor s.attempts = .error err)
    (hlt : s.attempts + 1 < policy.maxAttempts.toNat) :
    s.course policy executor g =
      let next := s.advance policy err g
      let rest := next.1.course policy executor next.2
      { rest with calls := rest.calls + 1, waits := next.1.nextBackoff :: rest.waits } := by
  rw [RetryState.course, herr]
  exact if_neg (Nat.not_le.mpr hlt)

theorem course_of_exhausted {err : String} (herr : executor s.attempts = .error err)
    (hle : policy.maxAttempts.toNat ≤ s.attempts + 1) :
    (s.course policy executor g).calls = 1 := by
  rw [RetryState.course, herr]
  dsimp only
  rw [if_pos hle]

theorem waits_course (hfails : Fails executor (s.attempts + n + 1))
    (hlt : s.attempts + n + 1 < policy.maxAttempts.toNat) :
    (s.course policy executor g).waits[n]? =
      some ((fun p => nextBackoff policy p.1 p.2)^[n + 1] (s.nextBackoff, g)).1 := by
  induction n generalizing s g with
  | zero =>
    obtain ⟨err, herr⟩ := hfails s.attempts (by omega)
    rw [course_of_error herr hlt]
    rfl
  | succ n ih =>
    obtain ⟨err, herr⟩ := hfails s.attempts (by omega)
    rw [course_of_error herr (by omega), Function.iterate_succ_apply]
    have hattempts : (s.advance policy err g).1.attempts = s.attempts + 1 := rfl
    exact ih (by rwa [hattempts, Nat.add_right_comm _ 1]) (by omega)

theorem waits_run (manager : RetryManager) (job : Text) (hdue : Due policy executor (n + 1)) :
    (manager.run job policy executor).1.waits[n]? =
      some (backoffs policy ⟨manager.jobSeed job⟩ (n + 1)).1 := by
  have hzero : (RetryState.initial policy).attempts + n + 1 = n + 1 := by
    simp [RetryState.initial]
  exact waits_course (by rw [hzero]; exact hdue.1) (by rw [hzero]; exact hdue.2)

theorem calls_course (hfails : ∀ i, Fails executor i) :
    (s.course policy executor g).calls = max 1 (policy.maxAttempts.toNat - s.attempts) := by
  induction hleft : policy.maxAttempts.toNat - s.attempts generalizing s g with
  | zero =>
    obtain ⟨err, herr⟩ := hfails (s.attempts + 1) s.attempts (Nat.lt_succ_self _)
    rw [course_of_exhausted herr (by omega)]
    rfl
  | succ left ih =>
    obtain ⟨err, herr⟩ := hfails (s.attempts + 1) s.attempts (Nat.lt_succ_self _)
    have hattempts : (s.advance policy err g).1.attempts = s.attempts + 1 := rfl
    by_cases hlt : s.attempts + 1 < policy.maxAttempts.toNat
    · rw [course_of_error herr hlt]
      dsimp only
      rw [ih (by omega)]
      omega
    · rw [course_of_exhausted herr (Nat.not_lt.mp hlt)]
      omega

theorem calls_run (manager : RetryManager) (job : Text) (hfails : ∀ i, Fails executor i) :
    (manager.run job policy executor).1.calls = max 1 policy.maxAttempts.toNat :=
  calls_course hfails

end Courses

section Rounding

variable {x r : Nat} {q : ℚ}

theorem roundAway_eq_iff (h : 0 ≤ q) :
    roundAway q = (r : ℤ) ↔ 2 * r ≤ 2 * q + 1 ∧ 2 * q < 2 * r + 1 := by
  rw [roundAway, if_pos h, Int.floor_eq_iff]
  push_cast
  constructor
  · rintro ⟨hle, hlt⟩
    exact ⟨by linarith, by linarith⟩
  · rintro ⟨hle, hlt⟩
    exact ⟨by linarith, by linarith⟩

theorem exists_roundAway (h : 0 ≤ q) : ∃ r : Nat, roundAway q = r := by
  have hnonneg : 0 ≤ roundAway q := by
    rw [roundAway, if_pos h]
    exact Int.floor_nonneg.mpr (by linarith)
  exact ⟨_, (Int.toNat_of_nonneg hnonneg).symm⟩

theorem roundAway_half (x : Nat) : roundAway (1 / 2 * x) = ((x + 1) / 2 : Nat) := by
  rw [roundAway_eq_iff (by positivity)]
  have hle : 2 * ((x + 1) / 2) ≤ x + 1 := Nat.mul_div_le _ _
  have hlt : x < 2 * ((x + 1) / 2) + 1 := by omega
  have hle' : (2 * ((x + 1) / 2 : Nat) : ℚ) ≤ x + 1 := by exact_mod_cast hle
  have hlt' : (x : ℚ) < 2 * ((x + 1) / 2 : Nat) + 1 := by exact_mod_cast hlt
  exact ⟨by linarith, by linarith⟩

theorem roundAway_threeHalves (x : Nat) : roundAway (3 / 2 * x) = ((3 * x + 1) / 2 : Nat) := by
  have h := roundAway_half (3 * x)
  rw [← h]
  congr 1
  push_cast
  ring

theorem toNat_min_castU64 (r : Nat) (max : UInt64) :
    (min (castU64 ((r : ℤ) : ℚ)) max).toNat = min r max.toNat := by
  have hfloor : (((r : ℤ) : ℚ)).floor = r := Rat.floor_intCast _
  rw [toNat_min, toNat_castU64, hfloor, Int.toNat_natCast, Nat.min_assoc,
    Nat.min_eq_right (toNat_le_u64Max max)]

end Rounding

section Steps

variable {policy : RetryPolicy} {m : Nat} {backoff : UInt64} {g : Lcg}

/-- What a back-off is multiplied to, before the jitter. -/
def multiplied (policy : RetryPolicy) (m : Nat) (backoff : UInt64) : Nat :=
  min (backoff.toNat * m) policy.maxBackoff.toNat

theorem raw_eq (hm : policy.backoffMultiplier = m) :
    min (toRat backoff * policy.backoffMultiplier) (toRat policy.maxBackoff) =
      multiplied policy m backoff := by
  rw [hm, multiplied, Nat.cast_min, Nat.cast_mul]
  rfl

theorem nextBackoff_plain (hm : policy.backoffMultiplier = m) (hjitter : policy.jitter = false) :
    (nextBackoff policy backoff g).1.toNat = multiplied policy m backoff := by
  have hceil : ⌈(multiplied policy m backoff : ℚ)⌉ = multiplied policy m backoff :=
    Int.ceil_natCast _
  rw [nextBackoff, raw_eq hm, hjitter, if_neg Bool.false_ne_true, hceil, toNat_min_castU64]
  exact Nat.min_eq_left (Nat.min_le_right _ _)

theorem drawn_bounds (g : Lcg) :
    1 / 2 ≤ g.drawn (1 / 2) (3 / 2) ∧ g.drawn (1 / 2) (3 / 2) ≤ 3 / 2 := by
  have hpos : (0 : ℚ) < toRat (UInt64.ofNat u64Max >>> 11) := by
    unfold toRat
    exact_mod_cast (by decide : 0 < (UInt64.ofNat u64Max >>> 11).toNat)
  have hnonneg : (0 : ℚ) ≤ toRat (g.next.state >>> 11) := Nat.cast_nonneg _
  have hle : toRat (g.next.state >>> 11) ≤ toRat (UInt64.ofNat u64Max >>> 11) := by
    refine Nat.cast_le.mpr ?_
    have hshift : (UInt64.ofNat u64Max >>> 11).toNat = u64Max >>> 11 := by decide
    have hmax := toNat_le_u64Max g.next.state
    rw [hshift, UInt64.toNat_shiftRight, Nat.shiftRight_eq_div_pow, Nat.shiftRight_eq_div_pow]
    exact Nat.div_le_div_right hmax
  have hraw := div_le_one_of_le₀ hle hpos.le
  have hraw0 := div_nonneg hnonneg hpos.le
  unfold Lcg.drawn
  exact ⟨by linarith, by linarith⟩

/-- A wait with jitter, by the number that is drawn. -/
theorem nextBackoff_jitter (hm : policy.backoffMultiplier = m) (hjitter : policy.jitter = true)
    (backoff : UInt64) (g : Lcg) :
    ∃ r : Nat, (nextBackoff policy backoff g).1.toNat = min r policy.maxBackoff.toNat ∧
      2 * r ≤ 2 * (multiplied policy m backoff * g.drawn (1 / 2) (3 / 2)) + 1 ∧
      2 * (multiplied policy m backoff * g.drawn (1 / 2) (3 / 2)) < 2 * r + 1 := by
  have hnonneg : 0 ≤ multiplied policy m backoff * g.drawn (1 / 2) (3 / 2) :=
    mul_nonneg (Nat.cast_nonneg _) ((by norm_num : (0 : ℚ) ≤ 1 / 2).trans (drawn_bounds g).1)
  obtain ⟨r, hr⟩ := exists_roundAway hnonneg
  refine ⟨r, ?_, (roundAway_eq_iff hnonneg).mp hr⟩
  rw [nextBackoff, raw_eq hm, hjitter]
  dsimp only
  rw [if_pos rfl, hr, toNat_min_castU64]

theorem nextBackoff_jitter_bounds (hm : policy.backoffMultiplier = m)
    (hjitter : policy.jitter = true) (backoff : UInt64) (g : Lcg) :
    min ((multiplied policy m backoff + 1) / 2) policy.maxBackoff.toNat ≤
        (nextBackoff policy backoff g).1.toNat ∧
      (nextBackoff policy backoff g).1.toNat ≤
        min ((3 * multiplied policy m backoff + 1) / 2) policy.maxBackoff.toNat := by
  obtain ⟨r, hr, hle, hlt⟩ := nextBackoff_jitter hm hjitter backoff g
  obtain ⟨hlo, hhi⟩ := drawn_bounds g
  have hx : (0 : ℚ) ≤ multiplied policy m backoff := Nat.cast_nonneg _
  have hlow : (multiplied policy m backoff : ℚ) < 2 * r + 1 := by
    nlinarith
  have hhigh : (2 * r : ℚ) ≤ 3 * multiplied policy m backoff + 1 := by
    nlinarith
  have hlow' : multiplied policy m backoff < 2 * r + 1 := by exact_mod_cast hlow
  have hhigh' : 2 * r ≤ 3 * multiplied policy m backoff + 1 := by exact_mod_cast hhigh
  rw [hr]
  omega

end Steps

section Schedules

variable {policy : RetryPolicy} {m n : Nat} {g : Lcg} {executor : Executor}

theorem scheduled_iff_grants : Scheduled policy m executor ↔
    ∀ (manager : RetryManager) job n, Due policy executor (n + 1) →
      policy.Grants m (n + 1) (backoffs policy ⟨manager.jobSeed job⟩ (n + 1)).1 := by
  constructor
  · intro h manager job n hdue
    obtain ⟨wait, hwait, hgrants⟩ := h.waits manager job (n + 1) (Nat.le_add_left 1 n) hdue
    have hrun := waits_run manager job hdue
    rw [Nat.add_sub_cancel, hrun] at hwait
    rwa [Option.some.inj hwait]
  · intro h
    refine ⟨fun manager job j hj hdue => ?_, fun hfails manager job => calls_run manager job hfails⟩
    obtain ⟨n, rfl⟩ := Nat.exists_eq_add_of_le' hj
    exact ⟨_, waits_run manager job hdue, h manager job n hdue⟩

theorem grants_jitter_iff {j : Nat} {wait : UInt64} (hjitter : policy.jitter = true) :
    policy.Grants m j wait ↔
      min policy.maxBackoff.toNat ((policy.backoff m j + 1) / 2) ≤ wait.toNat ∧
        wait.toNat ≤ min policy.maxBackoff.toNat ((3 * policy.backoff m j + 1) / 2) := by
  rw [RetryPolicy.Grants, if_pos hjitter, roundAway_half, roundAway_threeHalves]
  norm_cast

theorem grants_plain_iff {j : Nat} {wait : UInt64} (hjitter : policy.jitter = false) :
    policy.Grants m j wait ↔ wait.toNat = policy.backoff m j := by
  rw [RetryPolicy.Grants, hjitter, if_neg Bool.false_ne_true]

theorem backoff_first : policy.backoff m 1 =
    min policy.maxBackoff.toNat policy.initialBackoff.toNat := by
  rw [RetryPolicy.backoff, Nat.sub_self, Nat.pow_zero, Nat.mul_one]

theorem backoff_one (j : Nat) : policy.backoff 1 j =
    min policy.maxBackoff.toNat policy.initialBackoff.toNat := by
  rw [RetryPolicy.backoff, Nat.one_pow, Nat.mul_one]

theorem le_backoff (policy : RetryPolicy) (h1 : 1 ≤ m) (j : Nat) :
    min policy.maxBackoff.toNat policy.initialBackoff.toNat ≤ policy.backoff m j :=
  min_le_min_left _ (Nat.le_mul_of_pos_right _ (Nat.pow_pos h1))

theorem backoff_zero (hzero : policy.initialBackoff = 0) (j : Nat) : policy.backoff m j = 0 := by
  rw [RetryPolicy.backoff, hzero, UInt64.toNat_zero, Nat.zero_mul, Nat.min_zero]

/-- From no back-off none grows. -/
theorem backoffs_zero (hm : policy.backoffMultiplier = m) (hzero : policy.initialBackoff = 0) :
    (backoffs policy g n).1.toNat = 0 := by
  induction n with
  | zero =>
    change policy.initialBackoff.toNat = 0
    rw [hzero, UInt64.toNat_zero]
  | succ n ih =>
    rw [backoffs_succ]
    have hnone : multiplied policy m (backoffs policy g n).1 = 0 := by
      rw [multiplied, ih, Nat.zero_mul, Nat.zero_min]
    cases hjitter : policy.jitter with
    | false => rw [nextBackoff_plain hm hjitter, hnone]
    | true =>
      have h := (nextBackoff_jitter_bounds hm hjitter (backoffs policy g n).1
        (backoffs policy g n).2).2
      rw [hnone] at h
      omega

/-- Without jitter a back-off is the documented one times the multiplier. -/
theorem backoffs_plain (hm : policy.backoffMultiplier = m) (h1 : 1 ≤ m)
    (hjitter : policy.jitter = false) :
    (backoffs policy g (n + 1)).1.toNat =
      min policy.maxBackoff.toNat (policy.initialBackoff.toNat * m ^ (n + 1)) := by
  induction n with
  | zero =>
    rw [backoffs_succ, nextBackoff_plain hm hjitter, multiplied, Nat.min_comm, Nat.zero_add,
      Nat.pow_one]
    rfl
  | succ n ih =>
    rw [backoffs_succ, nextBackoff_plain hm hjitter, multiplied, ih, Nat.pow_succ _ (n + 1),
      ← Nat.mul_assoc]
    have hle : policy.maxBackoff.toNat ≤ policy.maxBackoff.toNat * m :=
      Nat.le_mul_of_pos_right _ h1
    rcases Nat.le_total policy.maxBackoff.toNat (policy.initialBackoff.toNat * m ^ (n + 1)) with
      hcap | hcap
    · rw [Nat.min_eq_left hcap, Nat.min_eq_right hle, Nat.min_eq_left]
      exact hcap.trans (Nat.le_mul_of_pos_right _ h1)
    · rw [Nat.min_eq_right hcap, Nat.min_comm]

/-- What a policy and an executor have to be for every wait to be a documented one. -/
def KeepsTo (policy : RetryPolicy) (m : Nat) (executor : Executor) : Prop :=
  ¬Due policy executor 1 ∨ policy.initialBackoff = 0 ∨
    if policy.jitter then
      if m = 1 then
        ¬Due policy executor 2 ∨
          min policy.maxBackoff.toNat policy.initialBackoff.toNat ≤ 2 ∧
            policy.maxBackoff.toNat ≤
              min policy.maxBackoff.toNat policy.initialBackoff.toNat + 1
      else policy.maxBackoff.toNat ≤ (3 * policy.initialBackoff.toNat + 1) / 2
    else m = 1 ∨ policy.maxBackoff ≤ policy.initialBackoff

theorem grants_zero (hm : policy.backoffMultiplier = m) (hzero : policy.initialBackoff = 0)
    (j : Nat) : policy.Grants m j (backoffs policy g n).1 := by
  have hwait := backoffs_zero (n := n) (g := g) hm hzero
  cases hjitter : policy.jitter with
  | false => rw [grants_plain_iff hjitter, hwait, backoff_zero hzero]
  | true =>
    rw [grants_jitter_iff hjitter, hwait, backoff_zero hzero]
    omega

theorem grants_plain (hm : policy.backoffMultiplier = m) (h1 : 1 ≤ m)
    (hjitter : policy.jitter = false)
    (h : m = 1 ∨ policy.maxBackoff ≤ policy.initialBackoff) :
    policy.Grants m (n + 1) (backoffs policy g (n + 1)).1 := by
  rw [grants_plain_iff hjitter, backoffs_plain hm h1 hjitter, RetryPolicy.backoff,
    Nat.add_sub_cancel]
  rcases h with rfl | hle
  · rw [Nat.one_pow, Nat.one_pow]
  · have hle := UInt64.le_iff_toNat_le.mp hle
    rw [Nat.min_eq_left (hle.trans (Nat.le_mul_of_pos_right _ (Nat.pow_pos h1))),
      Nat.min_eq_left (hle.trans (Nat.le_mul_of_pos_right _ (Nat.pow_pos h1)))]

/-- A multiplier that makes up for the least jitter keeps the back-off at its bound. -/
theorem grants_growing (hm : policy.backoffMultiplier = m) (h2 : 2 ≤ m)
    (hjitter : policy.jitter = true)
    (h : policy.maxBackoff.toNat ≤ (3 * policy.initialBackoff.toNat + 1) / 2) :
    policy.Grants m (n + 1) (backoffs policy g (n + 1)).1 := by
  have hcap : ∀ k, policy.maxBackoff.toNat ≤ (backoffs policy g k).1.toNat * m := by
    intro k
    have htwice := Nat.mul_le_mul_left (backoffs policy g k).1.toNat h2
    refine le_trans ?_ htwice
    induction k with
    | zero =>
      change _ ≤ policy.initialBackoff.toNat * 2
      omega
    | succ k ih =>
      have hprev := (ih (Nat.mul_le_mul_left _ h2)).trans (Nat.mul_le_mul_left _ h2)
      rw [backoffs_succ]
      have hbounds := (nextBackoff_jitter_bounds hm hjitter (backoffs policy g k).1
        (backoffs policy g k).2).1
      rw [multiplied, Nat.min_eq_right hprev] at hbounds
      omega
  have hbounds := nextBackoff_jitter_bounds hm hjitter (backoffs policy g n).1
    (backoffs policy g n).2
  rw [multiplied, Nat.min_eq_right (hcap n)] at hbounds
  rw [grants_jitter_iff hjitter, backoffs_succ]
  have hle := le_backoff policy (Nat.le_of_succ_le h2) (n + 1)
  have hmax : policy.backoff m (n + 1) ≤ policy.maxBackoff.toNat := Nat.min_le_left _ _
  omega

theorem grants_constant_first (hm : policy.backoffMultiplier = (1 : Nat))
    (hjitter : policy.jitter = true) : policy.Grants 1 1 (backoffs policy g 1).1 := by
  have hbounds := nextBackoff_jitter_bounds hm hjitter policy.initialBackoff g
  rw [multiplied, Nat.mul_one] at hbounds
  rw [grants_jitter_iff hjitter, backoff_one]
  change _ ≤ (nextBackoff policy policy.initialBackoff g).1.toNat ∧
    (nextBackoff policy policy.initialBackoff g).1.toNat ≤ _
  omega

/-- Back-offs this small are rounded back to where they were. -/
theorem grants_constant_small (hm : policy.backoffMultiplier = (1 : Nat))
    (hjitter : policy.jitter = true)
    (hsmall : min policy.maxBackoff.toNat policy.initialBackoff.toNat ≤ 2)
    (hnear : policy.maxBackoff.toNat ≤
      min policy.maxBackoff.toNat policy.initialBackoff.toNat + 1) :
    policy.Grants 1 (n + 1) (backoffs policy g (n + 1)).1 := by
  rw [grants_jitter_iff hjitter, backoff_one]
  induction n with
  | zero =>
    have hfirst := grants_constant_first (g := g) hm hjitter
    rwa [grants_jitter_iff hjitter, backoff_one] at hfirst
  | succ n ih =>
    have hbounds := nextBackoff_jitter_bounds hm hjitter (backoffs policy g (n + 1)).1
      (backoffs policy g (n + 1)).2
    rw [multiplied, Nat.mul_one] at hbounds
    rw [backoffs_succ]
    omega

end Schedules

section Draws

/-- A job whose first number is the highest there is, and whose second one is high. -/
def highJob : Text := "179J2EGHIAKNB".toList

/-- A job whose first two numbers are low. -/
def lowJob : Text := "dvu".toList

def jobLcg (job : Text) : Lcg := ⟨({} : RetryManager).jobSeed job⟩

theorem drawn_eq (g : Lcg) : g.drawn (1 / 2) (3 / 2) =
    1 / 2 + (g.next.state >>> 11).toNat / 9007199254740991 := by
  have hones : toRat (UInt64.ofNat u64Max >>> 11) = 9007199254740991 := by
    unfold toRat
    exact_mod_cast (by decide : (UInt64.ofNat u64Max >>> 11).toNat = 9007199254740991)
  rw [Lcg.drawn, hones]
  unfold toRat
  ring

theorem drawn_high : (jobLcg highJob).drawn (1 / 2) (3 / 2) = 3 / 2 := by
  have hbits : ((jobLcg highJob).next.state >>> 11).toNat = 9007199254740991 := by decide
  rw [drawn_eq, hbits]
  norm_num

theorem drawn_high_next : 5 / 4 ≤ (jobLcg highJob).next.drawn (1 / 2) (3 / 2) := by
  have hbits : 6755399441055744 ≤ ((jobLcg highJob).next.next.state >>> 11).toNat := by decide
  have hcast : (6755399441055744 : ℚ) ≤ ((jobLcg highJob).next.next.state >>> 11).toNat := by
    exact_mod_cast hbits
  rw [drawn_eq]
  linarith

theorem drawn_low : (jobLcg lowJob).drawn (1 / 2) (3 / 2) ≤ 33 / 64 := by
  have hbits : ((jobLcg lowJob).next.state >>> 11).toNat ≤ 140737488355327 := by decide
  have hcast : (((jobLcg lowJob).next.state >>> 11).toNat : ℚ) ≤ 140737488355327 := by
    exact_mod_cast hbits
  rw [drawn_eq]
  linarith

theorem drawn_low_next : (jobLcg lowJob).next.drawn (1 / 2) (3 / 2) ≤ 33 / 64 := by
  have hbits : ((jobLcg lowJob).next.next.state >>> 11).toNat ≤ 140737488355327 := by decide
  have hcast : (((jobLcg lowJob).next.next.state >>> 11).toNat : ℚ) ≤ 140737488355327 := by
    exact_mod_cast hbits
  rw [drawn_eq]
  linarith

end Draws

section Misses

variable {policy : RetryPolicy} {m : Nat} {executor : Executor}

theorem multiplied_one (backoff : UInt64) :
    multiplied policy 1 backoff = min backoff.toNat policy.maxBackoff.toNat := by
  rw [multiplied, Nat.mul_one]

theorem backoffs_second (hjitter : policy.jitter = true) (g : Lcg) :
    backoffs policy g 2 = nextBackoff policy (backoffs policy g 1).1 g.next := by
  have hnext : (backoffs policy g 1).2 = g.next := by
    change (nextBackoff policy policy.initialBackoff g).2 = g.next
    rw [nextBackoff, if_pos hjitter]
  rw [backoffs_succ, hnext]

/-- The highest jitter is too high for a bound that is reached later. -/
theorem cap_of_grants (hm : policy.backoffMultiplier = m) (h2 : 2 ≤ m)
    (hjitter : policy.jitter = true) (hpos : 0 < policy.initialBackoff.toNat)
    (h : policy.Grants m 1 (backoffs policy (jobLcg highJob) 1).1) :
    policy.maxBackoff.toNat ≤ (3 * policy.initialBackoff.toNat + 1) / 2 := by
  obtain ⟨r, hr, -, hlt⟩ :=
    nextBackoff_jitter hm hjitter policy.initialBackoff (jobLcg highJob)
  rw [grants_jitter_iff hjitter, backoff_first] at h
  replace h : (nextBackoff policy policy.initialBackoff (jobLcg highJob)).1.toNat ≤ _ := h.2
  have hlow : 3 * multiplied policy m policy.initialBackoff < 2 * r + 1 := by
    rw [drawn_high] at hlt
    have hcast : (3 * multiplied policy m policy.initialBackoff : ℚ) < 2 * r + 1 := by linarith
    exact_mod_cast hcast
  have htwice : policy.initialBackoff.toNat * 2 ≤ policy.initialBackoff.toNat * m :=
    Nat.mul_le_mul_left _ h2
  rw [multiplied] at hlow
  rw [hr] at h
  omega

/-- Two low jitters lead below the half of a back-off of three or more. -/
theorem small_of_grants (hm : policy.backoffMultiplier = (1 : Nat))
    (hjitter : policy.jitter = true)
    (h : policy.Grants 1 2 (backoffs policy (jobLcg lowJob) 2).1) :
    min policy.maxBackoff.toNat policy.initialBackoff.toNat ≤ 2 := by
  obtain ⟨r, hr, hle, -⟩ := nextBackoff_jitter hm hjitter policy.initialBackoff (jobLcg lowJob)
  obtain ⟨r', hr', hle', -⟩ := nextBackoff_jitter hm hjitter
    (backoffs policy (jobLcg lowJob) 1).1 (jobLcg lowJob).next
  rw [grants_jitter_iff hjitter, backoff_one, backoffs_second hjitter, hr'] at h
  replace hr : (backoffs policy (jobLcg lowJob) 1).1.toNat = _ := hr
  have hfirst : 64 * r ≤ 33 * multiplied policy 1 policy.initialBackoff + 32 := by
    have hmul := mul_le_mul_of_nonneg_left drawn_low
      (Nat.cast_nonneg (α := ℚ) (multiplied policy 1 policy.initialBackoff))
    have hcast : (64 * r : ℚ) ≤ 33 * multiplied policy 1 policy.initialBackoff + 32 := by
      linarith
    exact_mod_cast hcast
  have hsecond : 64 * r' ≤
      33 * multiplied policy 1 (backoffs policy (jobLcg lowJob) 1).1 + 32 := by
    have hmul := mul_le_mul_of_nonneg_left drawn_low_next
      (Nat.cast_nonneg (α := ℚ) (multiplied policy 1 (backoffs policy (jobLcg lowJob) 1).1))
    have hcast : (64 * r' : ℚ) ≤
        33 * multiplied policy 1 (backoffs policy (jobLcg lowJob) 1).1 + 32 := by
      linarith
    exact_mod_cast hcast
  rw [multiplied_one] at hfirst hsecond
  rw [hr] at hsecond
  omega

/-- Two high jitters lead above one and a half of a small back-off. -/
theorem near_of_grants (hm : policy.backoffMultiplier = (1 : Nat))
    (hjitter : policy.jitter = true) (hpos : 0 < policy.initialBackoff.toNat)
    (hsmall : min policy.maxBackoff.toNat policy.initialBackoff.toNat ≤ 2)
    (h : policy.Grants 1 2 (backoffs policy (jobLcg highJob) 2).1) :
    policy.maxBackoff.toNat ≤
      min policy.maxBackoff.toNat policy.initialBackoff.toNat + 1 := by
  obtain ⟨r, hr, -, hlt⟩ := nextBackoff_jitter hm hjitter policy.initialBackoff (jobLcg highJob)
  obtain ⟨r', hr', -, hlt'⟩ := nextBackoff_jitter hm hjitter
    (backoffs policy (jobLcg highJob) 1).1 (jobLcg highJob).next
  rw [grants_jitter_iff hjitter, backoff_one, backoffs_second hjitter, hr'] at h
  replace hr : (backoffs policy (jobLcg highJob) 1).1.toNat = _ := hr
  have hfirst : 3 * multiplied policy 1 policy.initialBackoff < 2 * r + 1 := by
    rw [drawn_high] at hlt
    have hcast : (3 * multiplied policy 1 policy.initialBackoff : ℚ) < 2 * r + 1 := by linarith
    exact_mod_cast hcast
  have hsecond : 5 * multiplied policy 1 (backoffs policy (jobLcg highJob) 1).1 <
      4 * r' + 2 := by
    have hmul := mul_le_mul_of_nonneg_left drawn_high_next
      (Nat.cast_nonneg (α := ℚ) (multiplied policy 1 (backoffs policy (jobLcg highJob) 1).1))
    have hcast : (5 * multiplied policy 1 (backoffs policy (jobLcg highJob) 1).1 : ℚ) <
        4 * r' + 2 := by
      linarith
    exact_mod_cast hcast
  rw [multiplied_one] at hfirst hsecond
  rw [hr, Nat.min_assoc, Nat.min_self] at hsecond
  by_contra hfar
  have hcases : min policy.maxBackoff.toNat policy.initialBackoff.toNat = 1 ∨
      min policy.maxBackoff.toNat policy.initialBackoff.toNat = 2 := by
    omega
  rcases hcases with hone | htwo
  · omega
  · omega

theorem not_eq_zero_iff_pos {w : UInt64} : w ≠ 0 ↔ 0 < w.toNat := by
  rw [Nat.pos_iff_ne_zero, ne_eq, ne_eq, ← UInt64.toNat_zero, UInt64.toNat_inj]

/-- Every wait is the documented one, whatever numbers are drawn, where the multiplier that is
taken too early and the jitters that are taken on top of each other make no difference. -/
theorem scheduled_iff (hm : policy.backoffMultiplier = m) (h1 : 1 ≤ m) :
    Scheduled policy m executor ↔ KeepsTo policy m executor := by
  rw [scheduled_iff_grants]
  constructor
  · intro h
    by_contra hnot
    obtain ⟨hdue, hnot⟩ := not_or.mp hnot
    obtain ⟨hzero, hnot⟩ := not_or.mp hnot
    replace hdue := not_not.mp hdue
    have hpos := not_eq_zero_iff_pos.mp hzero
    cases hjitter : policy.jitter with
    | false =>
      have hfirst := h {} [] 0 hdue
      rw [grants_plain_iff hjitter, backoffs_plain hm h1 hjitter, backoff_first, Nat.zero_add,
        Nat.pow_one] at hfirst
      rw [hjitter, if_neg Bool.false_ne_true, not_or, UInt64.not_le,
        UInt64.lt_iff_toNat_lt] at hnot
      obtain ⟨hne, hlt⟩ := hnot
      have htwice : policy.initialBackoff.toNat * 2 ≤ policy.initialBackoff.toNat * m :=
        Nat.mul_le_mul_left _ (by omega)
      omega
    | true =>
      rw [if_pos hjitter] at hnot
      by_cases hone : m = 1
      · subst hone
        rw [if_pos rfl, not_or] at hnot
        obtain ⟨hdue2, hnot⟩ := hnot
        replace hdue2 := not_not.mp hdue2
        have hsmall := small_of_grants hm hjitter (h {} lowJob 1 hdue2)
        exact hnot ⟨hsmall, near_of_grants hm hjitter hpos hsmall (h {} highJob 1 hdue2)⟩
      · rw [if_neg hone] at hnot
        exact hnot (cap_of_grants hm (by omega) hjitter hpos (h {} highJob 0 hdue))
  · rintro (hnot | hzero | hkeeps) manager job n hdue
    · exact absurd (hdue.mono (Nat.le_add_left 1 n)) hnot
    · exact grants_zero hm hzero _
    · cases hjitter : policy.jitter with
      | false =>
        rw [hjitter, if_neg Bool.false_ne_true] at hkeeps
        exact grants_plain hm h1 hjitter hkeeps
      | true =>
        rw [if_pos hjitter] at hkeeps
        by_cases hone : m = 1
        · subst hone
          rw [if_pos rfl] at hkeeps
          rcases hkeeps with hnot | ⟨hsmall, hnear⟩
          · cases n with
            | zero => exact grants_constant_first hm hjitter
            | succ n => exact absurd (hdue.mono (Nat.le_add_left 2 n)) hnot
          · exact grants_constant_small hm hjitter hsmall hnear
        · rw [if_neg hone] at hkeeps
          exact grants_growing hm (by omega) hjitter hkeeps

end Misses

def unavailable : Executor := fun _ => .error "unavailable"

theorem fails_unavailable (n : Nat) : Fails unavailable n := fun _ _ => ⟨_, rfl⟩

theorem capped_scheduled : Scheduled { maxBackoff := 100 } 2 unavailable := by
  have hcap : KeepsTo { maxBackoff := 100 } 2 unavailable :=
    .inr (.inr (by decide : (100 : UInt64).toNat ≤ (3 * (100 : UInt64).toNat + 1) / 2))
  exact (scheduled_iff (by norm_num) (by decide)).mpr hcap

/-- Two hundred milliseconds are waited for before the first retry, and not a hundred. -/
theorem doubled_not_scheduled : ¬Scheduled { jitter := false } 2 unavailable := by
  intro h
  have hgrants := scheduled_iff_grants.mp h {} [] 0 ⟨fails_unavailable 1, by decide⟩
  have htwo : ({ jitter := false } : RetryPolicy).backoffMultiplier = (2 : Nat) := by norm_num
  rw [grants_plain_iff rfl, backoffs_plain htwo (by decide) rfl] at hgrants
  exact absurd hgrants (by decide)

end HelixRouter.JobRetries
