import HelixRouter.CircuitRegistry.CircuitBreaker
import HelixRouter.Runs.Stepwise
import Mathlib.Algebra.Ring.Nat

namespace HelixRouter.CircuitRegistry

open Runs

inductive Op where
  | canPass (now : UInt64)
  | recordSuccess (now : UInt64)
  | recordFailure (now : UInt64)

def CircuitState.isHalfOpen : CircuitState → Bool
  | halfOpen _ => true
  | _ => false

/-- A breaker, the time of the last call of it, the calls it has let pass that have no outcome
yet, and those it has let pass since it turned half open. -/
structure History where
  breaker : CircuitBreaker
  clock : UInt64 := 0
  outstanding : Nat := 0
  probes : Nat := 0

namespace History

def start (config : CircuitConfig) : History := { breaker := .new config }

/-- A half-open episode lasts as long as the breaker stays half open. -/
def next (h : History) (breaker : CircuitBreaker) (now : UInt64) (outstanding passed : Nat) :
    History where
  breaker := breaker
  clock := now
  outstanding := outstanding
  probes :=
    if breaker.state.isHalfOpen then
      if h.breaker.state.isHalfOpen then h.probes + passed else passed
    else 0

/-- Time does not go back, and only calls that passed have an outcome. -/
def step (h : History) : Op → Option History
  | .canPass now =>
    if h.clock ≤ now then
      let (passed, breaker) := h.breaker.canPass now
      some (h.next breaker now (h.outstanding + passed.toNat) passed.toNat)
    else none
  | .recordSuccess now =>
    if h.clock ≤ now ∧ 0 < h.outstanding then
      some (h.next (h.breaker.recordSuccess now) now (h.outstanding - 1) 0)
    else none
  | .recordFailure now =>
    if h.clock ≤ now ∧ 0 < h.outstanding then
      some (h.next (h.breaker.recordFailure now) now (h.outstanding - 1) 0)
    else none

/-- Where every call that passed has its outcome, the next one passes, with an open circuit
once its timeout is over. -/
def Passes (h : History) : Prop :=
  h.outstanding = 0 → ∀ now, h.clock ≤ now →
    (∀ openedAt, h.breaker.state = .opened openedAt →
      openedAt.toNat + h.breaker.config.timeoutMs.toNat ≤ now.toNat) →
    (h.breaker.canPass now).1 = true

def WithinBudget (h : History) : Prop :=
  h.probes ≤ h.breaker.config.halfOpenMaxCalls.toNat

/-- Each probe of a half-open breaker has succeeded or has no outcome yet. -/
structure Sound (config : CircuitConfig) (h : History) : Prop where
  configured : h.breaker.config = config
  counted : ∀ tests, h.breaker.state = .halfOpen tests → h.probes = tests.toNat
  probes_le : h.probes ≤ config.halfOpenMaxCalls.toNat
  answered : h.probes ≤ h.breaker.halfOpenSuccesses.toNat + h.outstanding
  probing : h.breaker.state.isHalfOpen →
    h.breaker.halfOpenSuccesses.toNat < config.successThreshold.toNat

variable {config : CircuitConfig} {h h' : History} {now : UInt64} {breaker : CircuitBreaker}
  {outstanding passed : Nat} {op : Op}

theorem probes_next_of_halfOpen {tests : UInt32} (hb : breaker.state = .halfOpen tests) :
    (h.next breaker now outstanding passed).probes =
      if h.breaker.state.isHalfOpen then h.probes + passed else passed := by
  rw [next, hb]
  rfl

theorem sound_start : (start config).Sound config where
  configured := rfl
  counted _ hs := nomatch hs
  probes_le := Nat.zero_le _
  answered := Nat.zero_le _
  probing hs := nomatch hs

theorem sound_of_not_halfOpen (hc : breaker.config = config)
    (hb : ∀ tests, breaker.state ≠ .halfOpen tests) :
    (h.next breaker now outstanding passed).Sound config := by
  have hnot : breaker.state.isHalfOpen = false := by
    cases hs : breaker.state with
    | closed failures => rfl
    | opened openedAt => rfl
    | halfOpen tests => exact absurd hs (hb tests)
  have hzero : (h.next breaker now outstanding passed).probes = 0 := by
    rw [next, hnot]
    rfl
  refine ⟨hc, fun tests hs => absurd hs (hb tests), ?_, ?_, ?_⟩
  · exact hzero ▸ Nat.zero_le _
  · exact hzero ▸ Nat.zero_le _
  · intro hs
    exact absurd hs (Bool.eq_false_iff.mp hnot)

theorem Sound.canPass (hs : h.Sound config) (hthreshold : 1 ≤ config.successThreshold)
    (hmax : 1 ≤ config.halfOpenMaxCalls) (now : UInt64) :
    (h.next (h.breaker.canPass now).2 now (h.outstanding + (h.breaker.canPass now).1.toNat)
      (h.breaker.canPass now).1.toNat).Sound config := by
  have hconfig : (h.breaker.canPass now).2.config = config :=
    h.breaker.canPass_config.trans hs.configured
  cases hb : h.breaker.state with
  | closed failures =>
    apply sound_of_not_halfOpen hconfig
    rw [h.breaker.canPass_closed hb, hb]
    simp
  | opened openedAt =>
    rw [h.breaker.canPass_opened hb] at hconfig ⊢
    split
    · -- the breaker turns half open with its first probe
      have hprobes : (h.next { h.breaker with halfOpenSuccesses := 0, state := .halfOpen 1 } now
          (h.outstanding + 1) 1).probes = 1 := by
        rw [probes_next_of_halfOpen rfl, hb]
        rfl
      refine ⟨hs.configured, ?_, ?_, ?_, fun _ => ?_⟩
      · rintro tests ⟨⟩
        exact hprobes
      · exact hprobes.trans_le (UInt32.le_iff_toNat_le.mp hmax)
      · exact hprobes.trans_le (Nat.le_add_left 1 _ |>.trans (Nat.le_add_left _ _))
      · exact UInt32.le_iff_toNat_le.mp hthreshold
    · apply sound_of_not_halfOpen hs.configured
      rw [hb]
      simp
  | halfOpen tests =>
    have hcounted := hs.counted tests hb
    rw [h.breaker.canPass_halfOpen hb]
    split
    · rename_i hless
      rw [hs.configured] at hless
      have htests : (tests + 1).toNat = tests.toNat + 1 := by
        have hle := UInt32.lt_iff_toNat_lt.mp hless
        have hword := config.halfOpenMaxCalls.toNat_lt
        rw [UInt32.toNat_add]
        exact Nat.mod_eq_of_lt (by simp; omega)
      have hprobes : (h.next { h.breaker with state := .halfOpen (tests + 1) } now
          (h.outstanding + 1) 1).probes = tests.toNat + 1 := by
        rw [probes_next_of_halfOpen rfl, hb, hcounted]
        rfl
      refine ⟨hs.configured, ?_, ?_, ?_, fun _ => hs.probing (hb ▸ rfl)⟩
      · rintro _ ⟨⟩
        exact hprobes.trans htests.symm
      · exact hprobes.trans_le (UInt32.lt_iff_toNat_lt.mp hless)
      · exact hprobes.trans_le (Nat.succ_le_succ (hcounted ▸ hs.answered))
    · have hprobes : (h.next h.breaker now (h.outstanding + 0) 0).probes = tests.toNat := by
        rw [probes_next_of_halfOpen hb, hb, hcounted]
        rfl
      refine ⟨hs.configured, ?_, ?_, ?_, hs.probing⟩
      · intro tests' hb'
        cases hb.symm.trans hb'
        exact hprobes
      · exact hprobes.trans_le (hcounted ▸ hs.probes_le)
      · exact hprobes.trans_le (hcounted ▸ hs.answered)

theorem Sound.recordSuccess (hs : h.Sound config) (now : UInt64) (hout : 0 < h.outstanding) :
    (h.next (h.breaker.recordSuccess now) now (h.outstanding - 1) 0).Sound config := by
  cases hb : h.breaker.state with
  | closed failures =>
    rw [h.breaker.recordSuccess_closed hb]
    exact sound_of_not_halfOpen hs.configured (by simp)
  | opened openedAt =>
    rw [h.breaker.recordSuccess_opened hb]
    apply sound_of_not_halfOpen hs.configured
    rw [hb]
    simp
  | halfOpen tests =>
    have hcounted := hs.counted tests hb
    rw [h.breaker.recordSuccess_halfOpen hb]
    split
    · exact sound_of_not_halfOpen hs.configured (by simp)
    · rename_i hmore
      rw [hs.configured] at hmore
      have hless := hs.probing (hb ▸ rfl)
      have hword := config.successThreshold.toNat_lt
      have hsuccesses : (h.breaker.halfOpenSuccesses + 1).toNat =
          h.breaker.halfOpenSuccesses.toNat + 1 := by
        rw [UInt32.toNat_add]
        exact Nat.mod_eq_of_lt (by simp; omega)
      have hprobes : (h.next { h.breaker with
          halfOpenSuccesses := h.breaker.halfOpenSuccesses + 1, state := .halfOpen tests } now
          (h.outstanding - 1) 0).probes = tests.toNat := by
        rw [probes_next_of_halfOpen rfl, hb, hcounted]
        rfl
      refine ⟨hs.configured, ?_, ?_, ?_, fun _ => ?_⟩
      · rintro _ ⟨⟩
        exact hprobes
      · exact hprobes.trans_le (hcounted ▸ hs.probes_le)
      · have hanswered := hs.answered
        rw [hprobes]
        change _ ≤ (h.breaker.halfOpenSuccesses + 1).toNat + (h.outstanding - 1)
        omega
      · exact UInt32.lt_iff_toNat_lt.mp (UInt32.not_le.mp hmore)

theorem Sound.step (hs : h.Sound config) (hthreshold : 1 ≤ config.successThreshold)
    (hmax : 1 ≤ config.halfOpenMaxCalls) (hstep : h.step op = some h') : h'.Sound config := by
  cases op with
  | canPass now =>
    obtain ⟨-, heq⟩ := Option.ite_none_right_eq_some.mp hstep
    cases heq
    exact hs.canPass hthreshold hmax now
  | recordSuccess now =>
    obtain ⟨⟨-, hout⟩, heq⟩ := Option.ite_none_right_eq_some.mp hstep
    cases heq
    exact hs.recordSuccess now hout
  | recordFailure now =>
    obtain ⟨-, heq⟩ := Option.ite_none_right_eq_some.mp hstep
    cases heq
    apply sound_of_not_halfOpen (h.breaker.recordFailure_config.trans hs.configured)
    exact h.breaker.recordFailure_state

theorem Sound.withinBudget (hs : h.Sound config) : h.WithinBudget := by
  rw [WithinBudget, hs.configured]
  exact hs.probes_le

/-- A half-open breaker with no call outstanding has had fewer successes than close it, and has
made no more probes. -/
theorem Sound.passes (hs : h.Sound config)
    (hle : config.successThreshold ≤ config.halfOpenMaxCalls) : h.Passes := by
  intro hout now _ hover
  cases hb : h.breaker.state with
  | closed failures => rw [h.breaker.canPass_closed hb]
  | opened openedAt =>
    have hpast : saturatingAdd openedAt h.breaker.config.timeoutMs ≤ now := by
      rw [UInt64.le_iff_toNat_le, toNat_saturatingAdd]
      exact (Nat.min_le_left _ _).trans (hover openedAt hb)
    rw [h.breaker.canPass_opened hb, if_pos hpast]
  | halfOpen tests =>
    have hcounted := hs.counted tests hb
    have hanswered := hs.answered
    have hprobing := hs.probing (hb ▸ rfl)
    have hless : tests < h.breaker.config.halfOpenMaxCalls := by
      rw [hs.configured, UInt32.lt_iff_toNat_lt]
      have hle := UInt32.le_iff_toNat_le.mp hle
      omega
    rw [h.breaker.canPass_halfOpen hb, if_pos hless]

section Stuck

variable {tests successes failures calls : Nat}

theorem step_canPass (hle : h.clock ≤ now) (hb : h.breaker.canPass now = (true, breaker)) :
    h.step (.canPass now) = some (h.next breaker now (h.outstanding + 1) 1) := by
  rw [step, if_pos hle, hb]
  rfl

theorem step_recordSuccess (hle : h.clock ≤ now) (hout : 0 < h.outstanding) :
    h.step (.recordSuccess now) =
      some (h.next (h.breaker.recordSuccess now) now (h.outstanding - 1) 0) :=
  if_pos ⟨hle, hout⟩

theorem step_recordFailure (hle : h.clock ≤ now) (hout : 0 < h.outstanding) :
    h.step (.recordFailure now) =
      some (h.next (h.breaker.recordFailure now) now (h.outstanding - 1) 0) :=
  if_pos ⟨hle, hout⟩

/-- A breaker that is closed at the beginning of time, with some failures counted. -/
structure Failing (config : CircuitConfig) (failures outstanding : Nat) (h : History) : Prop where
  configured : h.breaker.config = config
  closed : ∃ count, h.breaker.state = .closed count ∧ count.toNat = failures
  clock : h.clock = 0
  outstanding : h.outstanding = outstanding

/-- A breaker that is half open once the timeout is over. -/
structure Probing (config : CircuitConfig) (tests outstanding successes : Nat) (h : History) :
    Prop where
  configured : h.breaker.config = config
  halfOpen : ∃ count, h.breaker.state = .halfOpen count ∧ count.toNat = tests
  clock : h.clock = config.timeoutMs
  outstanding : h.outstanding = outstanding
  successes : h.breaker.halfOpenSuccesses.toNat = successes

theorem failing_start : (start config).Failing config 0 0 := ⟨rfl, ⟨0, rfl, rfl⟩, rfl, rfl⟩

theorem Failing.canPass (hf : h.Failing config failures outstanding) :
    ∃ h', h.step (.canPass 0) = some h' ∧ h'.Failing config failures (outstanding + 1) := by
  obtain ⟨count, hclosed, hcount⟩ := hf.closed
  refine ⟨_, step_canPass (UInt64.le_of_eq hf.clock) (h.breaker.canPass_closed hclosed), ?_⟩
  exact ⟨hf.configured, ⟨count, hclosed, hcount⟩, rfl, congrArg (· + 1) hf.outstanding⟩

theorem Failing.recordFailure (hf : h.Failing config failures (outstanding + 1))
    (hless : failures + 1 < config.failureThreshold.toNat) :
    ∃ h', h.step (.recordFailure 0) = some h' ∧ h'.Failing config (failures + 1) outstanding := by
  obtain ⟨count, hclosed, rfl⟩ := hf.closed
  have hword := config.failureThreshold.toNat_lt
  have hcount : (count + 1).toNat = count.toNat + 1 := by
    rw [UInt32.toNat_add]
    exact Nat.mod_eq_of_lt (by simp; omega)
  have hmore : ¬ h.breaker.config.failureThreshold ≤ count + 1 := by
    rw [hf.configured, UInt32.le_iff_toNat_le, hcount]
    exact Nat.not_le.mpr hless
  refine ⟨_, step_recordFailure (UInt64.le_of_eq hf.clock) (hf.outstanding ▸ Nat.succ_pos _), ?_⟩
  rw [h.breaker.recordFailure_closed hclosed, if_neg hmore]
  exact ⟨hf.configured, ⟨count + 1, rfl, hcount⟩, rfl, congrArg (· - 1) hf.outstanding⟩

/-- The failure that opens the circuit. -/
theorem Failing.trip (hf : h.Failing config failures 1)
    (hle : config.failureThreshold.toNat ≤ failures + 1) (hword : failures + 1 < 2 ^ 32) :
    ∃ h', h.step (.recordFailure 0) = some h' ∧ h'.breaker.config = config ∧
      h'.breaker.state = .opened 0 ∧ h'.outstanding = 0 ∧ h'.clock = 0 := by
  obtain ⟨count, hclosed, rfl⟩ := hf.closed
  have hcount : (count + 1).toNat = count.toNat + 1 := by
    rw [UInt32.toNat_add]
    exact Nat.mod_eq_of_lt hword
  have hover : h.breaker.config.failureThreshold ≤ count + 1 := by
    rw [hf.configured, UInt32.le_iff_toNat_le, hcount]
    exact hle
  refine ⟨_, step_recordFailure (UInt64.le_of_eq hf.clock) (hf.outstanding ▸ Nat.one_pos), ?_⟩
  rw [h.breaker.recordFailure_closed hclosed, if_pos hover]
  exact ⟨hf.configured, rfl, congrArg (· - 1) hf.outstanding, rfl⟩

theorem probing_of_opened (hc : h.breaker.config = config) (hb : h.breaker.state = .opened 0)
    (hclock : h.clock = 0) (hout : h.outstanding = 0) :
    ∃ h', h.step (.canPass config.timeoutMs) = some h' ∧ h'.Probing config 1 1 0 := by
  have hover : saturatingAdd 0 h.breaker.config.timeoutMs ≤ config.timeoutMs := by
    rw [hc, UInt64.le_iff_toNat_le, toNat_saturatingAdd]
    exact (Nat.min_le_left _ _).trans (Nat.zero_add _).le
  have hbreaker : h.breaker.canPass config.timeoutMs = _ := h.breaker.canPass_opened hb
  rw [if_pos hover] at hbreaker
  have hle : h.clock ≤ config.timeoutMs := by
    rw [hclock, UInt64.le_iff_toNat_le]
    exact Nat.zero_le _
  refine ⟨_, step_canPass hle hbreaker, hc, ⟨1, rfl, rfl⟩, rfl, ?_, rfl⟩
  exact congrArg (· + 1) hout

theorem Probing.canPass (hp : h.Probing config tests outstanding successes)
    (hless : tests < config.halfOpenMaxCalls.toNat) :
    ∃ h', h.step (.canPass config.timeoutMs) = some h' ∧
      h'.Probing config (tests + 1) (outstanding + 1) successes := by
  obtain ⟨count, hb, rfl⟩ := hp.halfOpen
  have hword := config.halfOpenMaxCalls.toNat_lt
  have hcount : (count + 1).toNat = count.toNat + 1 := by
    rw [UInt32.toNat_add]
    exact Nat.mod_eq_of_lt (by simp; omega)
  have hbreaker : h.breaker.canPass config.timeoutMs = _ := h.breaker.canPass_halfOpen hb
  rw [if_pos (hp.configured ▸ UInt32.lt_iff_toNat_lt.mpr hless)] at hbreaker
  refine ⟨_, step_canPass (UInt64.le_of_eq hp.clock) hbreaker, hp.configured,
    ⟨count + 1, rfl, hcount⟩, rfl, ?_, hp.successes⟩
  exact congrArg (· + 1) hp.outstanding

theorem Probing.recordSuccess (hp : h.Probing config tests (outstanding + 1) successes)
    (hless : successes + 1 < config.successThreshold.toNat) :
    ∃ h', h.step (.recordSuccess config.timeoutMs) = some h' ∧
      h'.Probing config tests outstanding (successes + 1) := by
  obtain ⟨count, hb, hcount⟩ := hp.halfOpen
  have hword := config.successThreshold.toNat_lt
  have hsuccesses : (h.breaker.halfOpenSuccesses + 1).toNat = successes + 1 := by
    rw [UInt32.toNat_add, hp.successes]
    exact Nat.mod_eq_of_lt (by simp; omega)
  have hmore : ¬ h.breaker.config.successThreshold ≤ h.breaker.halfOpenSuccesses + 1 := by
    rw [hp.configured, UInt32.le_iff_toNat_le, hsuccesses]
    exact Nat.not_le.mpr hless
  refine ⟨_, step_recordSuccess (UInt64.le_of_eq hp.clock) (hp.outstanding ▸ Nat.succ_pos _), ?_⟩
  rw [h.breaker.recordSuccess_halfOpen hb, if_neg hmore]
  exact ⟨hp.configured, ⟨count, rfl, hcount⟩, rfl, congrArg (· - 1) hp.outstanding, hsuccesses⟩

/-- Once all the probes there may be have succeeded, and that closes nothing, no call passes. -/
theorem Probing.not_passes
    (hp : h.Probing config config.halfOpenMaxCalls.toNat 0 successes) : ¬ h.Passes := by
  obtain ⟨count, hb, hcount⟩ := hp.halfOpen
  intro hpasses
  have hpass := hpasses hp.outstanding h.clock (UInt64.le_refl _)
    (fun openedAt hopened => nomatch hb.symm.trans hopened)
  have hfull : ¬ count < h.breaker.config.halfOpenMaxCalls := by
    rw [hp.configured, UInt32.lt_iff_toNat_lt, hcount]
    exact Nat.lt_irrefl _
  rw [h.breaker.canPass_halfOpen hb, if_neg hfull] at hpass
  cases hpass

/-- A run that trips the circuit, and then makes all the probes there may be with success. -/
def lockUp (config : CircuitConfig) : List Op :=
  let failures := max config.failureThreshold.toNat 1
  let probes := config.halfOpenMaxCalls.toNat
  List.replicate failures (.canPass 0) ++ List.replicate failures (.recordFailure 0) ++
    List.replicate probes (.canPass config.timeoutMs) ++
    List.replicate probes (.recordSuccess config.timeoutMs)

theorem exec_trip (config : CircuitConfig) :
    ∃ h, exec step (start config) (List.replicate (max config.failureThreshold.toNat 1) (.canPass 0)
        ++ List.replicate (max config.failureThreshold.toNat 1) (.recordFailure 0)) = some h ∧
      h.breaker.config = config ∧ h.breaker.state = .opened 0 ∧ h.outstanding = 0 ∧
      h.clock = 0 := by
  obtain ⟨n, hn⟩ : ∃ n, max config.failureThreshold.toNat 1 = n + 1 :=
    Nat.exists_eq_succ_of_ne_zero (by omega)
  have hword := config.failureThreshold.toNat_lt
  rw [hn, exec_append]
  obtain ⟨t, ht, hft⟩ : ∃ t,
      exec step (start config) (List.replicate (n + 1) (.canPass 0)) = some t ∧
        t.Failing config 0 (n + 1) :=
    exec_replicate (fun k => Failing config 0 k) failing_start fun _ _ _ hf => hf.canPass
  rw [ht, Option.bind_some, exec_replicate_succ]
  -- all failures but the last are counted
  obtain ⟨u, hu, hfu⟩ : ∃ u, exec step t (List.replicate n (.recordFailure 0)) = some u ∧
      u.Failing config n (n + 1 - n) := by
    refine exec_replicate (fun k => Failing config k (n + 1 - k)) hft fun k hk h hf => ?_
    obtain ⟨m, hm⟩ : ∃ m, n + 1 - k = m + 1 := ⟨n - k, by omega⟩
    rw [hm] at hf
    obtain ⟨h', hstep, hf'⟩ := hf.recordFailure (by omega)
    refine ⟨h', hstep, ?_⟩
    rwa [show n + 1 - (k + 1) = m by omega]
  rw [hu, Option.bind_some]
  rw [show n + 1 - n = 1 by omega] at hfu
  exact hfu.trip (by omega) (by omega)

theorem exec_lockUp (hmax : 1 ≤ config.halfOpenMaxCalls)
    (hless : config.halfOpenMaxCalls < config.successThreshold) :
    ∃ h, exec step (start config) (lockUp config) = some h ∧
      h.Probing config config.halfOpenMaxCalls.toNat 0 config.halfOpenMaxCalls.toNat := by
  have hmax : 1 ≤ config.halfOpenMaxCalls.toNat := UInt32.le_iff_toNat_le.mp hmax
  have hless := UInt32.lt_iff_toNat_lt.mp hless
  obtain ⟨n, hn⟩ : ∃ n, config.halfOpenMaxCalls.toNat = n + 1 :=
    Nat.exists_eq_succ_of_ne_zero (by omega)
  obtain ⟨t, ht, hconfig, hopened, hout, hclock⟩ := exec_trip config
  obtain ⟨u, hu, hpu⟩ := probing_of_opened hconfig hopened hclock hout
  obtain ⟨v, hv, hpv⟩ : ∃ v, exec step u (List.replicate n (.canPass config.timeoutMs)) = some v ∧
      v.Probing config (1 + n) (1 + n) 0 :=
    exec_replicate (fun k => Probing config (1 + k) (1 + k) 0) hpu
      fun k hk h hp => hp.canPass (by omega)
  obtain ⟨w, hw, hpw⟩ :
      ∃ w, exec step v (List.replicate (n + 1) (.recordSuccess config.timeoutMs)) = some w ∧
        w.Probing config (1 + n) (1 + n - (n + 1)) (n + 1) := by
    refine exec_replicate (fun k => Probing config (1 + n) (1 + n - k) k) hpv fun k hk h hp => ?_
    obtain ⟨m, hm⟩ : ∃ m, 1 + n - k = m + 1 := ⟨n - k, by omega⟩
    rw [hm] at hp
    obtain ⟨h', hstep, hp'⟩ := hp.recordSuccess (by omega)
    refine ⟨h', hstep, ?_⟩
    rwa [show 1 + n - (k + 1) = m by omega]
  refine ⟨w, ?_, ?_⟩
  · rw [lockUp, hn, exec_append, exec_append, ht, Option.bind_some, List.replicate_succ, exec_cons,
      hu, Option.bind_some, hv, Option.bind_some, hw]
  · rwa [show 1 + n - (n + 1) = 0 by omega, Nat.add_comm 1 n, ← hn] at hpw

end Stuck

end History

open History

/-- A breaker never locks itself up just where as many calls may probe as have to succeed. -/
theorem never_locked_up_iff (config : CircuitConfig) (hthreshold : 1 ≤ config.successThreshold)
    (hmax : 1 ≤ config.halfOpenMaxCalls) :
    (∀ ops, Throughout step (fun h => h.Passes ∧ h.WithinBudget) (start config) ops) ↔
      config.successThreshold ≤ config.halfOpenMaxCalls := by
  constructor
  · intro h
    by_contra hless
    obtain ⟨t, ht, hp⟩ := exec_lockUp hmax (UInt32.not_le.mp hless)
    exact hp.not_passes ((h _).last ht).1
  · intro hle ops
    have hsound : Throughout step (Sound config) (start config) ops :=
      throughout_of_step sound_start fun h op h' hs hstep => hs.step hthreshold hmax hstep
    exact hsound.imp fun h hs => ⟨hs.passes hle, hs.withinBudget⟩

theorem never_locked_up_iff_default :
    (∀ ops, Throughout step (fun h => h.Passes ∧ h.WithinBudget) (start {}) ops) ↔
      (2 : UInt32) ≤ 3 :=
  never_locked_up_iff {} (by decide) (by decide)

/-- Two successes close the circuit, and one call may probe. -/
def strict : CircuitConfig where
  failureThreshold := 1
  halfOpenMaxCalls := 1
  timeoutMs := 100

theorem strict_locks_up : ¬ Throughout step (fun h => h.Passes ∧ h.WithinBudget) (start strict)
    [.canPass 0, .recordFailure 0, .canPass 100, .recordSuccess 100] := by
  intro h
  have hpass := (h.last rfl).1 rfl 100 (by decide) (fun _ hopened => nomatch hopened)
  exact absurd hpass (by decide)

end HelixRouter.CircuitRegistry
