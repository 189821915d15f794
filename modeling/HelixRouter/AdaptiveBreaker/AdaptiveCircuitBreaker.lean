import HelixRouter.Runs.Stepwise
import Mathlib.Data.Rat.Cast.Order
import Mathlib.Tactic.Linarith

namespace HelixRouter.AdaptiveBreaker

open Runs

/-- Times that are computed with are in nanoseconds, like the clock. -/
abbrev Duration : Type := ℚ

inductive BreakerState where
  | closed (failureCount : UInt32)
  | opened (openedAt : Instant) (cooldown : Duration)
  | halfOpen (probeCount successCount : UInt32) (loadPct : ℚ)
  deriving DecidableEq

structure AdaptiveCircuitBreaker where
  state : BreakerState := .closed 0
  failureHistory : List (Instant × Bool) := []
  recoveryTimes : List Duration := []
  baseThreshold : UInt32
  baseTimeout : Nat
  rngState : UInt32 := 0xdeadbeef
  threshold_pos : 0 < baseThreshold

def minute : Nat := 60 * nanosPerSec

/-- The longest time that a failed recovery keeps the circuit open. -/
def cooldownCap : Duration := (300 * nanosPerSec : Nat)

def clamp (q low high : ℚ) : ℚ := min (max q low) high

namespace AdaptiveCircuitBreaker

def new (baseThreshold : UInt32) (baseTimeout : Nat) (h : 0 < baseThreshold) :
    AdaptiveCircuitBreaker where
  baseThreshold := baseThreshold
  baseTimeout := baseTimeout
  threshold_pos := h

def pushHistory (b : AdaptiveCircuitBreaker) (wasFailure : Bool) (now : Instant) :
    AdaptiveCircuitBreaker :=
  let history := b.failureHistory ++ [(now, wasFailure)]
  { b with failureHistory := history.dropWhile (·.1 < now - minute) }

def failureRateLastMinute (b : AdaptiveCircuitBreaker) (now : Instant) : ℚ :=
  let recent := b.failureHistory.filter (now - minute ≤ ·.1)
  let total := UInt32.ofNat recent.length
  let failures := UInt32.ofNat (recent.countP (·.2))
  if total = 0 then 0 else failures.toNat / total.toNat

def adaptiveThreshold (b : AdaptiveCircuitBreaker) (now : Instant) : UInt32 :=
  let rate := b.failureRateLastMinute now
  if 1 / 2 < rate then max (b.baseThreshold / 2) 1
  else if rate < 1 / 10 then b.baseThreshold * 2
  else b.baseThreshold

/-- The mean of the last ten recovery times. -/
def meanRecovery (b : AdaptiveCircuitBreaker) : Duration :=
  let recent := b.recoveryTimes.reverse.take 10
  recent.sum / recent.length

def adaptiveTimeout (b : AdaptiveCircuitBreaker) : Duration :=
  if b.recoveryTimes.isEmpty then b.baseTimeout
  else
    let scale := clamp (b.meanRecovery / max (b.baseTimeout : ℚ) 1) 1 5
    b.baseTimeout * scale

def halfOpenLoadPct : ℚ := 1 / 10

/-- The clock is read again for the time that the recovery took. -/
def maybeTransitionOpenToHalfOpen (b : AdaptiveCircuitBreaker) (now again : Instant) :
    AdaptiveCircuitBreaker :=
  match b.state with
  | .opened openedAt cooldown =>
    if cooldown ≤ (now - openedAt : Nat) then
      let times := b.recoveryTimes ++ [((again - openedAt : Nat) : Duration)]
      { b with
        recoveryTimes := if 20 < times.length then times.tail else times
        state := .halfOpen 0 0 halfOpenLoadPct }
    else b
  | _ => b

def xorshift (b : AdaptiveCircuitBreaker) : ℚ × AdaptiveCircuitBreaker :=
  let x := b.rngState
  let x := x ^^^ (x <<< 13)
  let x := x ^^^ (x >>> 17)
  let x := x ^^^ (x <<< 5)
  (x.toNat / 2 ^ 32, { b with rngState := x })

def permit (b : AdaptiveCircuitBreaker) (now again : Instant) : Bool × AdaptiveCircuitBreaker :=
  let b := b.maybeTransitionOpenToHalfOpen now again
  match b.state with
  | .closed _ => (true, b)
  | .opened _ _ => (false, b)
  | .halfOpen _ _ loadPct =>
    let (r, b) := b.xorshift
    (r < loadPct, b)

def recordSuccess (b : AdaptiveCircuitBreaker) (now : Instant) : AdaptiveCircuitBreaker :=
  let b := b.pushHistory false now
  match b.state with
  | .closed _ => { b with state := .closed 0 }
  | .halfOpen probeCount successCount loadPct =>
    let probeCount := probeCount + 1
    let successCount := successCount + 1
    let successRate := (successCount.toNat : ℚ) / max (probeCount.toNat : ℚ) 1
    if 4 / 5 ≤ successRate ∧ 9 / 10 ≤ loadPct then { b with state := .closed 0 }
    else if 4 / 5 ≤ successRate then
      { b with state := .halfOpen probeCount successCount (min (loadPct + 1 / 5) 1) }
    else { b with state := .halfOpen probeCount successCount loadPct }
  | .opened _ _ => b

/-- The proxy for the cooldown of the last time that the circuit was open. -/
def lastCooldownOrBase (b : AdaptiveCircuitBreaker) : Duration := b.adaptiveTimeout

/-- The clock is read for the history, for the failure rate, and when the circuit opens. -/
def recordFailure (b : AdaptiveCircuitBreaker) (now rateAt openedAt : Instant) :
    AdaptiveCircuitBreaker :=
  let b := b.pushHistory true now
  match b.state with
  | .closed failureCount =>
    let current := failureCount + 1
    if b.adaptiveThreshold rateAt ≤ current then
      { b with state := .opened openedAt b.adaptiveTimeout }
    else { b with state := .closed current }
  | .halfOpen _ _ _ =>
    { b with state := .opened openedAt (min (b.lastCooldownOrBase * (3 / 2)) cooldownCap) }
  | .opened _ _ => b

end AdaptiveCircuitBreaker

open Runs

inductive Op where
  | permit (now again : Instant)
  | recordSuccess (now : Instant)
  | recordFailure (now rateAt openedAt : Instant)

inductive Outcome where
  | success
  | failure
  deriving DecidableEq

def Op.apply (b : AdaptiveCircuitBreaker) : Op → AdaptiveCircuitBreaker
  | permit now again => (b.permit now again).2
  | recordSuccess now => b.recordSuccess now
  | recordFailure now rateAt openedAt => b.recordFailure now rateAt openedAt

def Op.recorded : Op → List Outcome
  | permit _ _ => []
  | recordSuccess _ => [.success]
  | recordFailure _ _ _ => [.failure]

namespace BreakerState

def isHalfOpen : BreakerState → Bool
  | halfOpen _ _ _ => true
  | _ => false

def isClosed : BreakerState → Bool
  | closed _ => true
  | _ => false

/-- The cooldown that is running, or the one of an earlier state. -/
def cooldownOr (earlier : Duration) : BreakerState → Duration
  | opened _ cooldown => cooldown
  | _ => earlier

end BreakerState

/-- A breaker, the cooldown it was last opened with, and what has been recorded since it last
turned half open. -/
structure History where
  breaker : AdaptiveCircuitBreaker
  lastCooldown : Duration := 0
  outcomes : List Outcome := []

namespace AdaptiveCircuitBreaker

variable {b : AdaptiveCircuitBreaker} {now again rateAt openedAt : Instant}

@[simp] theorem pushHistory_state {wasFailure : Bool} :
    (b.pushHistory wasFailure now).state = b.state := rfl

theorem permit_breaker (b : AdaptiveCircuitBreaker) (now again : Instant) :
    (b.permit now again).2.state = (b.maybeTransitionOpenToHalfOpen now again).state ∧
      (b.permit now again).2.recoveryTimes =
        (b.maybeTransitionOpenToHalfOpen now again).recoveryTimes := by
  unfold permit
  dsimp only
  split
  · exact ⟨rfl, rfl⟩
  · exact ⟨rfl, rfl⟩
  · exact ⟨rfl, rfl⟩

/-- A circuit that is asked stays as it is, or was open for its cooldown and is half open. -/
theorem permit_cases (b : AdaptiveCircuitBreaker) (now again : Instant) :
    ((b.permit now again).2.state = b.state ∧
      (b.permit now again).2.recoveryTimes = b.recoveryTimes) ∨
    ∃ openedAt cooldown, b.state = .opened openedAt cooldown ∧
      cooldown ≤ (now - openedAt : Nat) ∧
      (b.permit now again).2.state = .halfOpen 0 0 halfOpenLoadPct ∧
      (b.permit now again).2.recoveryTimes ≠ [] := by
  obtain ⟨hstate, htimes⟩ := permit_breaker b now again
  rw [hstate, htimes]
  cases hs : b.state with
  | closed failures =>
    rw [maybeTransitionOpenToHalfOpen, hs]
    exact Or.inl ⟨hs, rfl⟩
  | halfOpen probes successes load =>
    rw [maybeTransitionOpenToHalfOpen, hs]
    exact Or.inl ⟨hs, rfl⟩
  | opened openedAt cooldown =>
    rw [maybeTransitionOpenToHalfOpen, hs]
    dsimp only
    split
    · rename_i hover
      refine Or.inr ⟨openedAt, cooldown, rfl, hover, rfl, ?_⟩
      dsimp only
      split
      · rename_i hlong
        apply List.ne_nil_of_length_pos
        rw [List.length_tail]
        omega
      · simp
    · exact Or.inl ⟨hs, rfl⟩

theorem permit_opened {openedAt : Instant} {cooldown : Duration}
    (hs : b.state = .opened openedAt cooldown) (h : ¬ cooldown ≤ (now - openedAt : Nat)) :
    (b.permit now again).1 = false := by
  rw [permit, maybeTransitionOpenToHalfOpen, hs]
  simp only [h, ↓reduceIte, hs]

/-- The load of a half-open circuit counts the successes, the fifth of which closes it. -/
theorem recordSuccess_probing (now : Instant) {n : Nat} (hn : n ≤ 4)
    (hs : b.state = .halfOpen (UInt32.ofNat n) (UInt32.ofNat n) (1 / 10 + n / 5)) :
    (b.recordSuccess now).state = if n = 4 then .closed 0
      else .halfOpen (UInt32.ofNat (n + 1)) (UInt32.ofNat (n + 1)) (1 / 10 + (n + 1 : Nat) / 5) := by
  have hnext : UInt32.ofNat n + 1 = UInt32.ofNat (n + 1) := (UInt32.ofNat_add n 1).symm
  have hsmall : n + 1 < 2 ^ 32 := by omega
  have htoNat : (UInt32.ofNat (n + 1)).toNat = n + 1 := UInt32.toNat_ofNat_of_lt' hsmall
  have hrate : (((n + 1 : Nat) : ℚ) / max ((n + 1 : Nat) : ℚ) 1) = 1 := by
    have hone : (1 : ℚ) ≤ (n + 1 : Nat) := by exact_mod_cast Nat.le_add_left 1 n
    rw [max_eq_left hone, div_self (by linarith)]
  have hsure : (4 / 5 : ℚ) ≤ 1 := by norm_num
  rw [recordSuccess]
  simp only [pushHistory_state, hs, hnext, htoNat, hrate, hsure, true_and, if_true]
  by_cases h4 : n = 4
  · subst h4
    norm_num
  · have hless : (n : ℚ) ≤ 3 := by exact_mod_cast (by omega : n ≤ 3)
    have hload : ¬ (9 / 10 : ℚ) ≤ 1 / 10 + n / 5 := by linarith
    rw [if_neg hload, if_neg h4, min_eq_left (by linarith), add_assoc, ← add_div]
    push_cast
    rfl

theorem recordSuccess_isHalfOpen (hs : b.state.isHalfOpen = false) :
    (b.recordSuccess now).state.isHalfOpen = false := by
  cases hb : b.state with
  | closed failures => simp only [recordSuccess, pushHistory_state, hb, BreakerState.isHalfOpen]
  | opened openedAt cooldown =>
    simp only [recordSuccess, pushHistory_state, hb, BreakerState.isHalfOpen]
  | halfOpen probes successes load =>
    rw [hb] at hs
    cases hs

theorem recordSuccess_recoveryTimes :
    (b.recordSuccess now).recoveryTimes = b.recoveryTimes := by
  unfold recordSuccess
  dsimp only
  split
  · rfl
  · split_ifs <;> rfl
  · rfl

theorem recordFailure_isHalfOpen :
    (b.recordFailure now rateAt openedAt).state.isHalfOpen = false := by
  cases hb : b.state with
  | closed failures =>
    simp only [recordFailure, pushHistory_state, hb]
    split <;> rfl
  | opened openedAt cooldown =>
    simp only [recordFailure, pushHistory_state, hb, BreakerState.isHalfOpen]
  | halfOpen probes successes load => simp only [recordFailure, pushHistory_state, hb]; rfl

theorem recordFailure_probing (hs : b.state.isHalfOpen) :
    (b.recordFailure now rateAt openedAt).state =
      .opened openedAt (min (b.adaptiveTimeout * (3 / 2)) cooldownCap) := by
  cases hb : b.state with
  | halfOpen probes successes load =>
    simp only [recordFailure, pushHistory_state, hb]
    rfl
  | closed failures => simp [hb, BreakerState.isHalfOpen] at hs
  | opened openedAt cooldown => simp [hb, BreakerState.isHalfOpen] at hs

theorem adaptiveTimeout_eq (h : b.recoveryTimes ≠ []) :
    b.adaptiveTimeout = clamp b.meanRecovery b.baseTimeout (5 * b.baseTimeout) := by
  have hnonempty : b.recoveryTimes.isEmpty = false := List.isEmpty_eq_false_iff.mpr h
  rw [adaptiveTimeout, hnonempty]
  dsimp only [clamp]
  rcases Nat.eq_zero_or_pos b.baseTimeout with hzero | hpos
  · simp [hzero]
  · have hone : (1 : ℚ) ≤ b.baseTimeout := by exact_mod_cast hpos
    have hnonneg : (0 : ℚ) ≤ b.baseTimeout := by linarith
    have hne : (b.baseTimeout : ℚ) ≠ 0 := by linarith
    rw [if_neg (nofun), max_eq_left hone, mul_min_of_nonneg _ _ hnonneg,
      mul_max_of_nonneg _ _ hnonneg, mul_div_cancel₀ _ hne, mul_one, mul_comm _ (5 : ℚ)]

end AdaptiveCircuitBreaker

theorem min_cooldownCap_inj {a c : Duration} :
    min (a * (3 / 2)) cooldownCap = min (c * (3 / 2)) cooldownCap ↔
      a = c ∨ (200 * nanosPerSec : Nat) ≤ a ∧ (200 * nanosPerSec : Nat) ≤ c := by
  have hcap : cooldownCap = ((200 * nanosPerSec : Nat) : ℚ) * (3 / 2) := by
    norm_num [cooldownCap, nanosPerSec]
  have hpos : (0 : ℚ) < 3 / 2 := by norm_num
  rw [hcap, ← min_mul_of_nonneg _ _ hpos.le, ← min_mul_of_nonneg _ _ hpos.le,
    mul_left_inj' hpos.ne']
  generalize ((200 * nanosPerSec : Nat) : ℚ) = cut
  constructor
  · intro h
    rcases le_total cut a with ha | ha
    · rcases le_total cut c with hc | hc
      · exact Or.inr ⟨ha, hc⟩
      · rw [min_eq_right ha, min_eq_left hc] at h
        exact Or.inr ⟨ha, h.le⟩
    · rcases le_total cut c with hc | hc
      · rw [min_eq_left ha, min_eq_right hc] at h
        exact Or.inr ⟨h.ge, hc⟩
      · rw [min_eq_left ha, min_eq_left hc] at h
        exact Or.inl h
  · rintro (rfl | ⟨ha, hc⟩)
    · rfl
    · rw [min_eq_right ha, min_eq_right hc]

namespace History

def next (h : History) (op : Op) : History :=
  let breaker := op.apply h.breaker
  { breaker := breaker
    lastCooldown := breaker.state.cooldownOr h.lastCooldown
    outcomes := if h.breaker.state.isHalfOpen then h.outcomes ++ op.recorded else [] }

def step (h : History) (op : Op) : Option History := some (h.next op)

/-- An open circuit permits nothing before its cooldown is over. -/
def Rejects (h : History) : Op → Prop
  | .permit now again => ∀ openedAt cooldown, h.breaker.state = .opened openedAt cooldown →
    openedAt ≤ now → (now : ℚ) < openedAt + cooldown → (h.breaker.permit now again).1 = false
  | _ => True

/-- A half-open circuit closes with five successes and no failure. -/
def ClosesOnFive (h : History) (op : Op) : Prop :=
  h.breaker.state.isHalfOpen → (op.apply h.breaker).state.isClosed →
    h.outcomes ++ op.recorded = List.replicate 5 .success

/-- A failure opens a half-open circuit for half as long again as the last time, five minutes
at most. -/
def Escalates (h : History) : Op → Prop
  | .recordFailure now rateAt openedAt => h.breaker.state.isHalfOpen →
    (h.breaker.recordFailure now rateAt openedAt).state =
      .opened openedAt (min (h.lastCooldown * (3 / 2)) cooldownCap)
  | _ => True

def FollowsProtocol (h : History) (op : Op) : Prop :=
  h.Rejects op ∧ h.ClosesOnFive op ∧ h.Escalates op

/-- A failure of a half-open circuit finds that the mean of the last recoveries, kept between
once and five times the base, is the last cooldown, or that both are so long that half as long
again is cut. -/
def MeanIsLastCooldown (h : History) : Op → Prop
  | .recordFailure _ _ _ => h.breaker.state.isHalfOpen →
    let mean := clamp h.breaker.meanRecovery h.breaker.baseTimeout (5 * h.breaker.baseTimeout)
    mean = h.lastCooldown ∨
      (200 * nanosPerSec : Nat) ≤ mean ∧ (200 * nanosPerSec : Nat) ≤ h.lastCooldown
  | _ => True

/-- What a breaker knows of its last two episodes. -/
structure Sound (h : History) : Prop where
  opened : ∀ openedAt cooldown, h.breaker.state = .opened openedAt cooldown →
    h.lastCooldown = cooldown
  probing : ∀ probes successes load, h.breaker.state = .halfOpen probes successes load →
    ∃ n, n ≤ 4 ∧ h.outcomes = List.replicate n .success ∧ probes = UInt32.ofNat n ∧
      successes = UInt32.ofNat n ∧ load = 1 / 10 + n / 5
  recovered : h.breaker.state.isHalfOpen → h.breaker.recoveryTimes ≠ []

variable {h : History} {op : Op}

theorem sound_new {baseThreshold : UInt32} {baseTimeout : Nat} {hb : 0 < baseThreshold} :
    Sound { breaker := .new baseThreshold baseTimeout hb } where
  opened _ _ hs := nomatch hs
  probing _ _ _ hs := nomatch hs
  recovered hs := nomatch hs

theorem sound_of_not_halfOpen (hn : (op.apply h.breaker).state.isHalfOpen = false) :
    Sound (h.next op) := by
  refine ⟨?_, ?_, ?_⟩
  · intro openedAt cooldown hs
    exact congrArg (BreakerState.cooldownOr h.lastCooldown) hs
  · intro probes successes load hs
    rw [show (op.apply h.breaker).state = _ from hs] at hn
    cases hn
  · intro hs
    exact absurd hs (Bool.eq_false_iff.mp hn)

theorem sound_of_probing {n : Nat} (hn : n ≤ 4) (ho : h.outcomes = List.replicate n .success)
    (hs : h.breaker.state = .halfOpen (UInt32.ofNat n) (UInt32.ofNat n) (1 / 10 + n / 5))
    (ht : h.breaker.recoveryTimes ≠ []) : Sound h := by
  refine ⟨?_, ?_, fun _ => ht⟩
  · intro openedAt cooldown hs'
    rw [hs] at hs'
    cases hs'
  · intro probes successes load hs'
    rw [hs] at hs'
    cases hs'
    exact ⟨n, hn, ho, rfl, rfl, rfl⟩

/-- A half-open circuit has seen fewer than five outcomes, successes all. -/
theorem Sound.outcomes (hs : Sound h) (hh : h.breaker.state.isHalfOpen) :
    ∃ n, n ≤ 4 ∧ h.outcomes = List.replicate n .success ∧
      h.breaker.state = .halfOpen (UInt32.ofNat n) (UInt32.ofNat n) (1 / 10 + n / 5) := by
  cases hb : h.breaker.state with
  | closed failures => simp [hb, BreakerState.isHalfOpen] at hh
  | opened openedAt cooldown => simp [hb, BreakerState.isHalfOpen] at hh
  | halfOpen probes successes load =>
    obtain ⟨n, hn, ho, rfl, rfl, rfl⟩ := hs.probing probes successes load hb
    exact ⟨n, hn, ho, rfl⟩

theorem outcomes_next (hh : h.breaker.state.isHalfOpen) :
    (h.next op).outcomes = h.outcomes ++ op.recorded := if_pos hh

theorem Sound.permit (hs : Sound h) (now again : Instant) :
    Sound (h.next (.permit now again)) := by
  rcases h.breaker.permit_cases now again with ⟨hsame, htimes⟩ | ⟨openedAt, cooldown, hb, -, hb', ht⟩
  · by_cases hh : h.breaker.state.isHalfOpen
    · obtain ⟨n, hn, ho, hb⟩ := hs.outcomes hh
      apply sound_of_probing hn
      · rw [outcomes_next hh, ho]
        exact List.append_nil _
      · exact hsame.trans hb
      · exact htimes.trans_ne (hs.recovered hh)
    · apply sound_of_not_halfOpen
      rw [Op.apply, hsame]
      exact Bool.eq_false_iff.mpr hh
  · apply sound_of_probing (Nat.zero_le 4)
    · rw [next, hb]
      rfl
    · rw [next, Op.apply, hb']
      norm_num [AdaptiveCircuitBreaker.halfOpenLoadPct]
      rfl
    · exact ht

theorem Sound.recordSuccess (hs : Sound h) (now : Instant) :
    Sound (h.next (.recordSuccess now)) := by
  by_cases hh : h.breaker.state.isHalfOpen
  · obtain ⟨n, hn, ho, hb⟩ := hs.outcomes hh
    have hnext := h.breaker.recordSuccess_probing now hn hb
    split at hnext
    · exact sound_of_not_halfOpen (congrArg _ hnext)
    · have hless : n + 1 ≤ 4 := by omega
      apply sound_of_probing hless
      · rw [outcomes_next hh, ho, List.replicate_succ']
        rfl
      · exact hnext
      · exact h.breaker.recordSuccess_recoveryTimes.trans_ne (hs.recovered hh)
  · exact sound_of_not_halfOpen (h.breaker.recordSuccess_isHalfOpen (Bool.eq_false_iff.mpr hh))

theorem Sound.next (hs : Sound h) (op : Op) : Sound (h.next op) := by
  cases op with
  | permit now again => exact hs.permit now again
  | recordSuccess now => exact hs.recordSuccess now
  | recordFailure now rateAt openedAt =>
    exact sound_of_not_halfOpen h.breaker.recordFailure_isHalfOpen

theorem rejects (h : History) (op : Op) : h.Rejects op := by
  cases op with
  | permit now again =>
    intro openedAt cooldown hb hsince hbefore
    apply h.breaker.permit_opened hb
    rw [Nat.cast_sub hsince]
    linarith
  | recordSuccess now => trivial
  | recordFailure now rateAt openedAt => trivial

theorem Sound.closesOnFive (hs : Sound h) (op : Op) : h.ClosesOnFive op := by
  intro hh hclosed
  obtain ⟨n, hn, ho, hb⟩ := hs.outcomes hh
  cases op with
  | permit now again =>
    rcases h.breaker.permit_cases now again with ⟨hsame, -⟩ | ⟨openedAt, cooldown, hb', -⟩
    · rw [Op.apply, hsame, hb] at hclosed
      cases hclosed
    · rw [hb'] at hh
      cases hh
  | recordSuccess now =>
    have hnext := h.breaker.recordSuccess_probing now hn hb
    split at hnext
    · rename_i h4
      rw [ho, h4]
      rfl
    · rw [Op.apply, hnext] at hclosed
      cases hclosed
  | recordFailure now rateAt openedAt =>
    rw [Op.apply, h.breaker.recordFailure_probing hh] at hclosed
    cases hclosed

theorem Sound.escalates_iff (hs : Sound h) (op : Op) :
    h.Escalates op ↔ h.MeanIsLastCooldown op := by
  cases op with
  | permit now again => exact Iff.rfl
  | recordSuccess now => exact Iff.rfl
  | recordFailure now rateAt openedAt =>
    apply forall_congr'
    intro hh
    rw [h.breaker.recordFailure_probing hh, BreakerState.opened.injEq, and_iff_right rfl,
      h.breaker.adaptiveTimeout_eq (hs.recovered hh), min_cooldownCap_inj]

end History

open History

/-- The protocol is followed in just the runs in which the mean of the last recoveries stands
for the last cooldown at every failed recovery. -/
theorem follows_protocol_iff (baseThreshold : UInt32) (baseTimeout : Nat)
    (h : 0 < baseThreshold) (ops : List Op) :
    EachStep step FollowsProtocol { breaker := .new baseThreshold baseTimeout h } ops ↔
      EachStep step MeanIsLastCooldown { breaker := .new baseThreshold baseTimeout h } ops := by
  apply eachStep_iff_of_invariant sound_new
  intro h op h' hs hstep
  cases hstep
  refine ⟨?_, fun _ => hs.next op⟩
  rw [FollowsProtocol, and_iff_right (h.rejects op), and_iff_right (hs.closesOnFive op)]
  exact hs.escalates_iff op

def seconds (n : Nat) : Instant := n * nanosPerSec

/-- Trips with the first failure, for ten seconds. -/
def touchy : History := { breaker := .new 1 (seconds 10) (by decide) }

theorem follows_protocol_iff_touchy : EachStep step FollowsProtocol touchy
    [.recordFailure 0 0 0, .permit (seconds 10) (seconds 10),
      .recordFailure (seconds 11) (seconds 11) (seconds 11)] := by
  apply (follows_protocol_iff 1 (seconds 10) (by decide) _).mpr
  intro h₁ hstep
  cases hstep
  refine ⟨nofun, fun h₂ hstep => ?_⟩
  cases hstep
  refine ⟨trivial, fun h₃ hstep => ?_⟩
  cases hstep
  exact ⟨fun _ => Or.inl (by decide +kernel), trivial⟩

/-- The second failed recovery is followed by one and a half times the mean of both. -/
theorem second_failure_escalates_less : ¬ EachStep step FollowsProtocol touchy
    [.recordFailure 0 0 0, .permit (seconds 10) (seconds 10),
      .recordFailure (seconds 10) (seconds 10) (seconds 10), .permit (seconds 25) (seconds 25),
      .recordFailure (seconds 25) (seconds 25) (seconds 25)] := by
  intro h
  have hlast := (((((h _ rfl).2 _ rfl).2 _ rfl).2 _ rfl).2 _ rfl).1.2.2
  dsimp only [Escalates] at hlast
  exact absurd (hlast (by decide +kernel)) (by decide +kernel)

end HelixRouter.AdaptiveBreaker
