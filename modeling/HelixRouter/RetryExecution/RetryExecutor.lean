import HelixRouter.Router.Numbers
import Mathlib.Tactic.NormNum

namespace HelixRouter.RetryExecution

inductive BackoffKind where
  | fixed
  | linear
  | exponential
  | exponentialWithJitter

structure RetryConfig where
  maxAttempts : UInt32
  baseDelayMs : UInt64
  maxDelayMs : UInt64
  backoff : BackoffKind
  jitterFactor : ℚ

inductive RetryableError where
  | timeout
  | rateLimit
  | serviceUnavailable
  | networkError
  | nonRetryable
deriving DecidableEq

def RetryableError.isRetryable (e : RetryableError) : Bool := e ≠ .nonRetryable

structure RetryState where
  attempt : Nat
  config : RetryConfig
  lcgState : UInt64

namespace RetryConfig

def rawDelay (config : RetryConfig) (attempt : Nat) : ℚ :=
  let base := toRat config.baseDelayMs
  match config.backoff with
  | .fixed => base
  | .linear => base * attempt
  | .exponential => base * 2 ^ (attempt - 1)
  | .exponentialWithJitter => base * 2 ^ (attempt - 1)

def clampedDelay (config : RetryConfig) (attempt : Nat) : ℚ :=
  min (config.rawDelay attempt) (toRat config.maxDelayMs)

end RetryConfig

namespace RetryState

def new (config : RetryConfig) : RetryState := ⟨0, config, 6364136223846793005⟩

def advanceLcg (s : RetryState) : RetryState :=
  { s with lcgState := s.lcgState * 6364136223846793005 + 1442695040888963407 }

def lcgFloat (s : RetryState) : ℚ := (s.advanceLcg.lcgState >>> 11).toNat / 2 ^ 53

/-- The jitter is added to what is clamped. -/
def nextDelayMs (s : RetryState) : Option UInt64 × RetryState :=
  if s.config.maxAttempts.toNat ≤ s.attempt then (none, s)
  else
    let s := { s with attempt := s.attempt + 1 }
    let clamped := s.config.clampedDelay s.attempt
    if 0 < s.config.jitterFactor then
      let jitter := (s.lcgFloat * 2 - 1) * s.config.jitterFactor * clamped
      (some (castU64 (max (clamped + jitter) 0)), s.advanceLcg)
    else (some (castU64 clamped), s)

def shouldRetry (s : RetryState) (errorKind : RetryableError) : Bool :=
  errorKind.isRetryable && s.attempt < s.config.maxAttempts.toNat

end RetryState

/-- The sum of the delays is one of words, as a release build has it. -/
structure RetryMetrics where
  totalAttempts : Nat := 0
  totalDelayMs : UInt64 := 0
  finalSuccess : Bool := false

/-- What an execution returns, and the attempt numbers that it called with. -/
structure Execution (T E : Type) where
  result : Except E (T × RetryMetrics)
  attempts : List Nat

variable {T E : Type}

/-- The loop of `execute_sync`, with what each call returns and the conversion of errors. -/
def RetryConfig.execute (config : RetryConfig) (ofError : RetryableError → E)
    (outcomes : Nat → Except RetryableError T) (s : RetryState) (metrics : RetryMetrics) :
    Execution T E :=
  let attempt := s.attempt + 1
  match outcomes metrics.totalAttempts with
  | .ok value =>
    let metrics :=
      { metrics with totalAttempts := metrics.totalAttempts + 1, finalSuccess := true }
    ⟨.ok (value, metrics), [attempt]⟩
  | .error err =>
    if ¬err.isRetryable then ⟨.error (ofError err), [attempt]⟩
    else if config.maxAttempts.toNat ≤ metrics.totalAttempts + 1 then
      ⟨.error (ofError err), [attempt]⟩
    else
      match s.nextDelayMs with
      | (none, _) => ⟨.error (ofError err), [attempt]⟩
      | (some delay, next) =>
        let metrics :=
          { metrics with
            totalAttempts := metrics.totalAttempts + 1
            totalDelayMs := metrics.totalDelayMs + delay }
        let rest := execute config ofError outcomes next metrics
        { rest with attempts := attempt :: rest.attempts }
termination_by config.maxAttempts.toNat - metrics.totalAttempts

def executeSync (config : RetryConfig) (ofError : RetryableError → E)
    (outcomes : Nat → Except RetryableError T) : Execution T E :=
  config.execute ofError outcomes (.new config) {}

variable {T E : Type} {config : RetryConfig} {ofError : RetryableError → E}
  {outcomes : Nat → Except RetryableError T} {s : RetryState} {metrics : RetryMetrics}
  {n : Nat}

/-- The outcomes that an execution stops at. -/
def Final : Except RetryableError T → Prop
  | .ok _ => True
  | .error err => err = .nonRetryable

/-- The calls up to the first final outcome, and no more than the attempts allow. -/
structure UntilFinal (limit : Nat) (outcomes : Nat → Except RetryableError T) (n : Nat) :
    Prop where
  some : 1 ≤ n
  bounded : n ≤ limit
  unfinished : ∀ i, i + 1 < n → ¬Final (outcomes i)
  finished : n = limit ∨ Final (outcomes (n - 1))

/-- Attempts are numbered one by one until they are over, and no delay is above its bound. -/
structure Envelope (config : RetryConfig) : Prop where
  numbered : ∀ {T E : Type} (ofError : RetryableError → E)
    (outcomes : Nat → Except RetryableError T),
    ∃ n, UntilFinal (max 1 config.maxAttempts.toNat) outcomes n ∧
      (executeSync config ofError outcomes).attempts = List.range' 1 n
  capped : ∀ s : RetryState, s.config = config → ∀ delay, s.nextDelayMs.1 = some delay →
    0 ≤ delay ∧ delay ≤ config.maxDelayMs

section Numbering

theorem nextDelayMs_of_lt (h : s.attempt < s.config.maxAttempts.toNat) :
    ∃ delay next, s.nextDelayMs = (some delay, next) ∧ next.attempt = s.attempt + 1 ∧
      next.config = s.config := by
  rw [RetryState.nextDelayMs, if_neg (Nat.not_le.mpr h)]
  dsimp only
  split
  · exact ⟨_, _, rfl, rfl, rfl⟩
  · exact ⟨_, _, rfl, rfl, rfl⟩

/-- An execution that goes on counts an attempt in both places. -/
theorem execute_cases (ofError : RetryableError → E)
    (outcomes : Nat → Except RetryableError T) (hstep : s.attempt = metrics.totalAttempts)
    (hconfig : s.config = config) :
    (config.execute ofError outcomes s metrics).attempts = [metrics.totalAttempts + 1] ∧
        (config.maxAttempts.toNat ≤ metrics.totalAttempts + 1 ∨
          Final (outcomes metrics.totalAttempts)) ∨
      metrics.totalAttempts + 1 < config.maxAttempts.toNat ∧
        ¬Final (outcomes metrics.totalAttempts) ∧
        ∃ next rest, next.attempt = metrics.totalAttempts + 1 ∧ next.config = config ∧
          rest.totalAttempts = metrics.totalAttempts + 1 ∧
          (config.execute ofError outcomes s metrics).attempts =
            (metrics.totalAttempts + 1) ::
              (config.execute ofError outcomes next rest).attempts := by
  rw [RetryConfig.execute]
  cases hout : outcomes metrics.totalAttempts with
  | ok value => exact .inl ⟨by rw [hstep], .inr trivial⟩
  | error err =>
    dsimp only
    by_cases hretry : err.isRetryable
    · have hfinal : ¬Final (Except.error err : Except RetryableError T) := by
        simpa [RetryableError.isRetryable, Final] using hretry
      rw [if_neg (not_not.mpr hretry)]
      by_cases hlimit : config.maxAttempts.toNat ≤ metrics.totalAttempts + 1
      · rw [if_pos hlimit]
        exact .inl ⟨by rw [hstep], .inl hlimit⟩
      · rw [if_neg hlimit]
        obtain ⟨delay, next, hnext, hattempt, hsame⟩ :=
          nextDelayMs_of_lt (s := s) (by rw [hstep, hconfig]; omega)
        rw [hnext]
        refine .inr ⟨Nat.not_le.mp hlimit, hfinal, next, _, by rw [hattempt, hstep],
          hsame.trans hconfig, rfl, by rw [hstep]⟩
    · rw [if_pos hretry]
      refine .inl ⟨by rw [hstep], .inr ?_⟩
      change err = .nonRetryable
      simpa [RetryableError.isRetryable] using hretry

/-- From a number of attempts on, the rest of them is numbered until it is over. -/
theorem attempts_execute (ofError : RetryableError → E)
    (outcomes : Nat → Except RetryableError T) (hstep : s.attempt = metrics.totalAttempts)
    (hconfig : s.config = config) :
    ∃ n, UntilFinal (max 1 (config.maxAttempts.toNat - metrics.totalAttempts))
        (fun i => outcomes (metrics.totalAttempts + i)) n ∧
      (config.execute ofError outcomes s metrics).attempts =
        List.range' (metrics.totalAttempts + 1) n := by
  induction hleft : config.maxAttempts.toNat - metrics.totalAttempts
    generalizing s metrics with
  | zero =>
    rcases execute_cases ofError outcomes hstep hconfig with
      ⟨hattempts, -⟩ | ⟨hlt, -⟩
    · exact ⟨1, ⟨le_refl 1, le_refl 1, fun i hi => by omega, .inl rfl⟩, hattempts⟩
    · omega
  | succ left ih =>
    rcases execute_cases ofError outcomes hstep hconfig with
      ⟨hattempts, hend⟩ | ⟨hlt, hfinal, next, rest, hnext, hsame, hrest, hattempts⟩
    · refine ⟨1, ⟨le_refl 1, Nat.le_max_left 1 _, fun i hi => by omega, ?_⟩, hattempts⟩
      rcases hend with hlimit | hend
      · exact .inl (by omega)
      · exact .inr hend
    · obtain ⟨n, hn, heq⟩ := ih (hnext.trans hrest.symm) hsame (by omega)
      refine ⟨n + 1, ⟨Nat.le_add_left 1 n, ?_, fun i hi => ?_, ?_⟩, ?_⟩
      · have := hn.bounded
        omega
      · cases i with
        | zero => exact hfinal
        | succ i =>
          have := hn.unfinished i (by omega)
          rwa [hrest, Nat.add_right_comm, Nat.add_assoc] at this
      · have hsome := hn.some
        rcases hn.finished with hlimit | hend
        · exact .inl (by omega)
        · refine .inr ?_
          rw [hrest, Nat.add_right_comm, Nat.add_assoc, Nat.sub_add_cancel hsome] at hend
          exact hend
      · rw [hattempts, heq, hrest, List.range'_succ]

theorem attempts_executeSync (ofError : RetryableError → E)
    (outcomes : Nat → Except RetryableError T) :
    ∃ n, UntilFinal (max 1 config.maxAttempts.toNat) outcomes n ∧
      (executeSync config ofError outcomes).attempts = List.range' 1 n := by
  have hcounters : (RetryState.new config).attempt = ({} : RetryMetrics).totalAttempts := rfl
  obtain ⟨n, hn, hattempts⟩ := attempts_execute ofError outcomes hcounters rfl
  simp only [Nat.sub_zero, Nat.zero_add] at hn
  exact ⟨n, hn, hattempts⟩

end Numbering

section Delays

variable {m n : Nat} {q : ℚ} {bound : UInt64}

theorem castU64_le_iff : castU64 q ≤ bound ↔ bound.toNat = u64Max ∨ q < toRat bound + 1 := by
  rw [← UInt64.not_lt, lt_castU64_iff, not_and_or, not_le, Nat.not_lt]
  refine or_congr_left ⟨fun h => ?_, fun h => h.ge⟩
  exact Nat.le_antisymm (toNat_le_u64Max bound) h

theorem rawDelay_nonneg (config : RetryConfig) (n : Nat) : 0 ≤ config.rawDelay n := by
  have hbase : 0 ≤ toRat config.baseDelayMs := Nat.cast_nonneg _
  unfold RetryConfig.rawDelay
  split <;> positivity

theorem rawDelay_mono (config : RetryConfig) (h : m ≤ n) :
    config.rawDelay m ≤ config.rawDelay n := by
  have hbase : 0 ≤ toRat config.baseDelayMs := Nat.cast_nonneg _
  unfold RetryConfig.rawDelay
  cases config.backoff with
  | fixed => exact le_rfl
  | linear => exact mul_le_mul_of_nonneg_left (Nat.cast_le.mpr h) hbase
  | exponential | exponentialWithJitter =>
    have hpow : (2 : ℚ) ^ (m - 1) ≤ 2 ^ (n - 1) :=
      pow_le_pow_right₀ one_le_two (Nat.sub_le_sub_right h 1)
    exact mul_le_mul_of_nonneg_left hpow hbase

theorem clampedDelay_nonneg (config : RetryConfig) (n : Nat) : 0 ≤ config.clampedDelay n :=
  le_min (rawDelay_nonneg config n) (Nat.cast_nonneg _)

theorem clampedDelay_mono (config : RetryConfig) (h : m ≤ n) :
    config.clampedDelay m ≤ config.clampedDelay n :=
  min_le_min_right _ (rawDelay_mono config h)

/-- The highest number that is drawn. -/
def topFloat : ℚ := 9007199254740991 / 2 ^ 53

theorem lcgFloat_le (s : RetryState) : s.lcgFloat ≤ topFloat := by
  have hbits : (s.advanceLcg.lcgState >>> 11).toNat ≤ 9007199254740991 := by
    have hshift : (11 : UInt64).toNat % 64 = 11 := by decide
    have hmax := s.advanceLcg.lcgState.toNat_lt
    rw [UInt64.toNat_shiftRight, hshift, Nat.shiftRight_eq_div_pow]
    omega
  have hcast : ((s.advanceLcg.lcgState >>> 11).toNat : ℚ) ≤ 9007199254740991 := by
    exact_mod_cast hbits
  unfold RetryState.lcgFloat topFloat
  gcongr

/-- The longest delay of all: that of the last attempt, with the most jitter. -/
def RetryConfig.longestDelay (config : RetryConfig) : ℚ :=
  config.clampedDelay config.maxAttempts.toNat *
    (1 + (topFloat * 2 - 1) * max config.jitterFactor 0)

/-- No attempt is made, or the longest delay is cut down to the bound. -/
def RetryConfig.KeepsTo (config : RetryConfig) : Prop :=
  config.maxAttempts = 0 ∨ config.maxDelayMs.toNat = u64Max ∨
    config.longestDelay < toRat config.maxDelayMs + 1

theorem topFloat_pos : 0 < topFloat * 2 - 1 := by
  unfold topFloat
  norm_num

theorem le_longestDelay (config : RetryConfig) (h : n ≤ config.maxAttempts.toNat) :
    config.clampedDelay n ≤ config.longestDelay := by
  have hjitter : 0 ≤ (topFloat * 2 - 1) * max config.jitterFactor 0 :=
    mul_nonneg topFloat_pos.le (le_max_right _ _)
  calc config.clampedDelay n
      ≤ config.clampedDelay config.maxAttempts.toNat := clampedDelay_mono config h
    _ ≤ config.longestDelay :=
        le_mul_of_one_le_right (clampedDelay_nonneg config _) (by linarith)

theorem jittered_le_longestDelay (s : RetryState) (hjitter : 0 < s.config.jitterFactor)
    (h : n ≤ s.config.maxAttempts.toNat) :
    s.config.clampedDelay n +
        (s.lcgFloat * 2 - 1) * s.config.jitterFactor * s.config.clampedDelay n ≤
      s.config.longestDelay := by
  have hdrawn : (s.lcgFloat * 2 - 1) * s.config.jitterFactor ≤
      (topFloat * 2 - 1) * s.config.jitterFactor :=
    mul_le_mul_of_nonneg_right (by linarith [lcgFloat_le s]) hjitter.le
  have hpos : 0 ≤ 1 + (topFloat * 2 - 1) * s.config.jitterFactor := by
    have := mul_nonneg topFloat_pos.le hjitter.le
    linarith
  calc s.config.clampedDelay n +
        (s.lcgFloat * 2 - 1) * s.config.jitterFactor * s.config.clampedDelay n
      = s.config.clampedDelay n * (1 + (s.lcgFloat * 2 - 1) * s.config.jitterFactor) := by ring
    _ ≤ s.config.clampedDelay n * (1 + (topFloat * 2 - 1) * s.config.jitterFactor) :=
        mul_le_mul_of_nonneg_left (by linarith) (clampedDelay_nonneg _ n)
    _ ≤ s.config.clampedDelay s.config.maxAttempts.toNat *
          (1 + (topFloat * 2 - 1) * s.config.jitterFactor) :=
        mul_le_mul_of_nonneg_right (clampedDelay_mono _ h) hpos
    _ = s.config.longestDelay := by rw [RetryConfig.longestDelay, max_eq_left hjitter.le]

theorem nextDelayMs_jittered (hlimit : s.attempt < s.config.maxAttempts.toNat)
    (hjitter : 0 < s.config.jitterFactor) : s.nextDelayMs =
      (some (castU64 (max (s.config.clampedDelay (s.attempt + 1) +
        (s.lcgFloat * 2 - 1) * s.config.jitterFactor *
          s.config.clampedDelay (s.attempt + 1)) 0)),
        { s with attempt := s.attempt + 1 }.advanceLcg) := by
  rw [RetryState.nextDelayMs, if_neg (Nat.not_le.mpr hlimit)]
  dsimp only
  rw [if_pos hjitter]
  rfl

theorem nextDelayMs_plain (hlimit : s.attempt < s.config.maxAttempts.toNat)
    (hjitter : ¬0 < s.config.jitterFactor) :
    s.nextDelayMs.1 = some (castU64 (s.config.clampedDelay (s.attempt + 1))) := by
  rw [RetryState.nextDelayMs, if_neg (Nat.not_le.mpr hlimit)]
  dsimp only
  rw [if_neg hjitter]

theorem nextDelayMs_le (h : s.config.KeepsTo) {delay : UInt64}
    (hdelay : s.nextDelayMs.1 = some delay) : delay ≤ s.config.maxDelayMs := by
  by_cases hlimit : s.attempt < s.config.maxAttempts.toNat
  · have hbound : s.config.maxDelayMs.toNat = u64Max ∨
        s.config.longestDelay < toRat s.config.maxDelayMs + 1 := by
      refine h.resolve_left fun hzero => ?_
      rw [hzero] at hlimit
      exact Nat.not_lt_zero _ hlimit
    by_cases hjitter : 0 < s.config.jitterFactor
    · rw [nextDelayMs_jittered hlimit hjitter] at hdelay
      cases Option.some.inj hdelay
      refine castU64_le_iff.mpr (hbound.imp_right fun hlt => lt_of_le_of_lt ?_ hlt)
      exact max_le (jittered_le_longestDelay s hjitter hlimit)
        ((clampedDelay_nonneg _ 0).trans (le_longestDelay _ (Nat.zero_le _)))
    · rw [nextDelayMs_plain hlimit hjitter] at hdelay
      cases Option.some.inj hdelay
      exact castU64_le_iff.mpr
        (hbound.imp_right fun hlt => lt_of_le_of_lt (le_longestDelay _ hlimit) hlt)
  · rw [RetryState.nextDelayMs, if_pos (Nat.not_lt.mp hlimit)] at hdelay
    cases hdelay

/-- The last attempt, with a generator about to draw the highest number. -/
def lastState (config : RetryConfig) : RetryState :=
  ⟨config.maxAttempts.toNat - 1, config, 15635871386175874928⟩

theorem lcgFloat_lastState (config : RetryConfig) :
    (lastState config).lcgFloat = topFloat := by
  have hbits : ((lastState config).advanceLcg.lcgState >>> 11).toNat = 9007199254740991 := by
    change (((15635871386175874928 : UInt64) * 6364136223846793005 +
      1442695040888963407) >>> 11).toNat = 9007199254740991
    decide
  rw [RetryState.lcgFloat, hbits, topFloat]
  norm_num

theorem nextDelayMs_lastState (hpos : config.maxAttempts ≠ 0) :
    (lastState config).nextDelayMs.1 = some (castU64 config.longestDelay) := by
  have hlimit : 0 < config.maxAttempts.toNat := by
    rw [Nat.pos_iff_ne_zero, ne_eq, ← UInt32.toNat_zero, UInt32.toNat_inj]
    exact hpos
  have hlast : (lastState config).attempt < (lastState config).config.maxAttempts.toNat :=
    Nat.sub_one_lt_of_lt hlimit
  have hsucc : (lastState config).attempt + 1 = config.maxAttempts.toNat :=
    Nat.sub_add_cancel hlimit
  have hconfig : (lastState config).config = config := rfl
  by_cases hjitter : 0 < config.jitterFactor
  · have hnonneg : 0 ≤ config.longestDelay :=
      (clampedDelay_nonneg config 0).trans (le_longestDelay config (Nat.zero_le _))
    have heq : config.clampedDelay config.maxAttempts.toNat +
        (topFloat * 2 - 1) * config.jitterFactor *
          config.clampedDelay config.maxAttempts.toNat = config.longestDelay := by
      rw [RetryConfig.longestDelay, max_eq_left hjitter.le]
      ring
    rw [nextDelayMs_jittered hlast hjitter, lcgFloat_lastState, hsucc, hconfig, heq,
      max_eq_left hnonneg]
  · rw [nextDelayMs_plain hlast hjitter, hsucc, hconfig, RetryConfig.longestDelay,
      max_eq_right (not_lt.mp hjitter), mul_zero, add_zero, mul_one]

/-- Attempts are numbered in any case. The delays keep to the bound where the jitter, which is
added after they are cut down to it, adds less than a millisecond to what is below it. -/
theorem envelope_iff : Envelope config ↔ config.KeepsTo := by
  constructor
  · intro h
    by_contra hnot
    obtain ⟨hpos, hnot⟩ := not_or.mp hnot
    have hcapped := (h.capped (lastState config) rfl _ (nextDelayMs_lastState hpos)).2
    exact hnot (castU64_le_iff.mp hcapped)
  · intro h
    refine ⟨fun ofError outcomes => attempts_executeSync ofError outcomes, ?_⟩
    intro s hconfig delay hdelay
    subst hconfig
    exact ⟨UInt64.zero_le, nextDelayMs_le h hdelay⟩

/-- Up to half a second more or less than a second, which is the bound. -/
def jittery : RetryConfig := ⟨3, 1000, 1000, .fixed, 1 / 2⟩

/-- What the first two delays leave behind. -/
def jitteryThird : RetryState := ((RetryState.new jittery).nextDelayMs.2).nextDelayMs.2

theorem jitteryThird_eq : jitteryThird = ⟨2, jittery, 2669886397722105383⟩ := by
  have hjitter : 0 < jittery.jitterFactor := by norm_num [jittery]
  have hfirst : (RetryState.new jittery).nextDelayMs.2 =
      ⟨1, jittery, 8963592765199298360⟩ := by
    rw [nextDelayMs_jittered (by decide) hjitter]
    rfl
  rw [jitteryThird, hfirst, nextDelayMs_jittered (by decide) hjitter]
  rfl

theorem lcgFloat_jitteryThird : jitteryThird.lcgFloat = 5286960335166631 / 2 ^ 53 := by
  have hbits : (((2669886397722105383 : UInt64) * 6364136223846793005 +
      1442695040888963407) >>> 11).toNat = 5286960335166631 := by
    decide
  rw [jitteryThird_eq]
  change ((((2669886397722105383 : UInt64) * 6364136223846793005 +
    1442695040888963407) >>> 11).toNat : ℚ) / 2 ^ 53 = _
  rw [hbits]
  norm_num

theorem clampedDelay_jittery (n : Nat) : jittery.clampedDelay n = 1000 := min_self 1000

/-- The third delay is more than a second. -/
theorem jittery_not_envelope : ¬Envelope jittery := by
  intro h
  have hconfig : jitteryThird.config = jittery := by rw [jitteryThird_eq]
  have hlimit : jitteryThird.attempt < jitteryThird.config.maxAttempts.toNat := by
    rw [jitteryThird_eq]
    decide
  have hjitter : jittery.jitterFactor = 1 / 2 := rfl
  have hdelay := nextDelayMs_jittered hlimit (by rw [hconfig, hjitter]; norm_num)
  have hcapped := (h.capped jitteryThird hconfig _ (congrArg Prod.fst hdelay)).2
  have hbound : toRat jittery.maxDelayMs = 1000 := rfl
  rw [castU64_le_iff, hbound, hconfig, hjitter, clampedDelay_jittery, lcgFloat_jitteryThird]
    at hcapped
  rcases hcapped with hmax | hlt
  · exact absurd hmax (by decide)
  · norm_num at hlt

end Delays

end HelixRouter.RetryExecution
