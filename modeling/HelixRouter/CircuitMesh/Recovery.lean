import HelixRouter.CircuitMesh.CircuitMesh
import HelixRouter.Runs.Stepwise

namespace HelixRouter.CircuitMesh

open Runs

inductive Call where
  | allowRequest
  | recordSuccess
  | recordFailure

/-- A call, and how long after the previous one it is made. -/
structure Event where
  wait : Nat
  call : Call

/-- A circuit with the allowed requests whose outcome is still to be recorded. -/
structure Traffic where
  circuit : RouteCircuit
  clock : Instant := 0
  outstanding : Nat := 0

namespace Traffic

def start (config : RouteConfig) : Traffic := { circuit := .new config }

/-- An outcome is recorded only for a request that was allowed, and once. -/
def step (t : Traffic) (e : Event) : Option Traffic :=
  let now := t.clock + e.wait
  match e.call with
  | .allowRequest =>
    let answer := t.circuit.allowRequest now
    some ⟨answer.2, now, if answer.1 then t.outstanding + 1 else t.outstanding⟩
  | .recordSuccess =>
    match t.outstanding with
    | 0 => none
    | n + 1 => some ⟨t.circuit.recordSuccess, now, n⟩
  | .recordFailure =>
    match t.outstanding with
    | 0 => none
    | n + 1 => some ⟨t.circuit.recordFailure now, now, n⟩

/-- A time at which the circuit is to let a request through. -/
def Due (t : Traffic) (now : Instant) : Prop :=
  match t.circuit.state with
  | .opened openedAt _ => openedAt + t.circuit.config.timeoutSecs.toNat * nanosPerSec ≤ now
  | _ => t.clock ≤ now

def Available (t : Traffic) : Prop :=
  t.outstanding = 0 → ∀ now, t.Due now → (t.circuit.allowRequest now).1 = true

/-- A success of the last outstanding request while the probe is out closes the
circuit, unless half-open circuits let everything through. -/
def Settles (t : Traffic) (e : Event) : Prop :=
  e.call = .recordSuccess → t.outstanding = 1 → t.circuit.state = .halfOpen true →
    1.0 ≤ t.circuit.config.halfOpenProbeRate ∨
      t.circuit.config.successThreshold ≤ t.circuit.metrics.consecutiveSuccesses + 1

end Traffic

section Steps

variable {c : RouteCircuit} {now : Instant}

@[simp] theorem RouteCircuit.recordSuccess_config : c.recordSuccess.config = c.config := by
  unfold RouteCircuit.recordSuccess
  split
  · dsimp only
    split <;> rfl
  · rfl

@[simp] theorem RouteCircuit.recordFailure_config : (c.recordFailure now).config = c.config := by
  unfold RouteCircuit.recordFailure
  split
  · dsimp only
    split <;> rfl
  · rfl
  · rfl

theorem RouteCircuit.allowRequest_closed (h : c.state = .closed) :
    c.allowRequest now = (true, c) := by
  simp [RouteCircuit.allowRequest, RouteCircuit.isOpen, h]

theorem RouteCircuit.allowRequest_probe (h : c.state = .halfOpen false) :
    c.allowRequest now = (true, { c with state := .halfOpen true }) := by
  simp [RouteCircuit.allowRequest, RouteCircuit.isOpen, h]

theorem RouteCircuit.allowRequest_probed (h : c.state = .halfOpen true) :
    c.allowRequest now = (decide (1.0 ≤ c.config.halfOpenProbeRate), c) := by
  simp [RouteCircuit.allowRequest, RouteCircuit.isOpen, h]

theorem RouteCircuit.allowRequest_opened {openedAt : Instant} {failures : UInt32}
    (h : c.state = .opened openedAt failures) :
    c.allowRequest now =
      if c.config.timeoutSecs.toNat ≤ elapsedSecs openedAt now then
        (true, { c with state := .halfOpen true })
      else (false, c) := by
  by_cases ht : c.config.timeoutSecs.toNat ≤ elapsedSecs openedAt now
  · simp [RouteCircuit.allowRequest, RouteCircuit.isOpen, h, ht]
  · simp [RouteCircuit.allowRequest, RouteCircuit.isOpen, h, ht]

/-- A request that is let through leaves the circuit closed, or half open with its probe out. -/
theorem RouteCircuit.allowRequest_cases (c : RouteCircuit) (now : Instant) :
    (c.allowRequest now).2 = c ∨
      (c.allowRequest now).1 = true ∧ (c.allowRequest now).2 = { c with state := .halfOpen true } := by
  cases h : c.state with
  | closed => exact Or.inl (by rw [allowRequest_closed h])
  | opened openedAt failures =>
    rw [allowRequest_opened h]
    split
    · exact Or.inr ⟨rfl, rfl⟩
    · exact Or.inl rfl
  | halfOpen sent =>
    cases sent with
    | false => exact Or.inr (by rw [allowRequest_probe h]; exact ⟨rfl, rfl⟩)
    | true => exact Or.inl (by rw [allowRequest_probed h])

theorem RouteCircuit.allowRequest_config : (c.allowRequest now).2.config = c.config := by
  rcases c.allowRequest_cases now with h | ⟨_, h⟩
  · rw [h]
  · rw [h]

/-- A success keeps a circuit half open only where it is short of the threshold. -/
theorem RouteCircuit.recordSuccess_state_eq_halfOpen {sent : Bool} :
    c.recordSuccess.state = .halfOpen sent ↔
      c.state = .halfOpen sent ∧
        ¬ c.config.successThreshold ≤ c.metrics.consecutiveSuccesses + 1 := by
  unfold RouteCircuit.recordSuccess
  cases h : c.state with
  | closed => simp
  | opened openedAt failures => simp
  | halfOpen s =>
    by_cases ht : c.config.successThreshold ≤ c.metrics.consecutiveSuccesses + 1
    · simp [ht]
    · simp [ht]

theorem RouteCircuit.recordFailure_short (now : Instant) (h : c.state = .closed)
    (ht : ¬ c.config.failureThreshold ≤ c.metrics.consecutiveFailures + 1) :
    (c.recordFailure now).state = .closed ∧
      (c.recordFailure now).metrics.consecutiveFailures = c.metrics.consecutiveFailures + 1 ∧
      (c.recordFailure now).metrics.consecutiveSuccesses = 0 := by
  simp [RouteCircuit.recordFailure, h, ht]

theorem RouteCircuit.recordFailure_trips (now : Instant) (h : c.state = .closed)
    (ht : c.config.failureThreshold ≤ c.metrics.consecutiveFailures + 1) :
    (c.recordFailure now).state = .opened now (c.metrics.consecutiveFailures + 1) ∧
      (c.recordFailure now).metrics.consecutiveSuccesses = 0 := by
  simp [RouteCircuit.recordFailure, h, ht]

/-- Late successes count while the circuit is open. -/
theorem RouteCircuit.recordSuccess_opened {openedAt : Instant} {failures : UInt32}
    (h : c.state = .opened openedAt failures) :
    c.recordSuccess.state = .opened openedAt failures ∧
      c.recordSuccess.metrics.consecutiveSuccesses = c.metrics.consecutiveSuccesses + 1 := by
  simp [RouteCircuit.recordSuccess, h]

theorem RouteCircuit.recordFailure_state_ne_halfOpen {sent : Bool} :
    (c.recordFailure now).state ≠ .halfOpen sent := by
  unfold RouteCircuit.recordFailure
  cases h : c.state with
  | closed =>
    by_cases ht : c.config.failureThreshold ≤ c.metrics.consecutiveFailures + 1
    · simp [ht]
    · simp [ht]
  | opened openedAt failures => simp
  | halfOpen s => simp

end Steps

namespace Traffic

variable {t t' : Traffic} {e : Event}

/-- Only a half-open circuit whose probe is out turns a request away when it is due. -/
theorem available_iff : t.Available ↔
    (t.outstanding = 0 → t.circuit.state = .halfOpen true →
      1.0 ≤ t.circuit.config.halfOpenProbeRate) := by
  constructor
  · intro h h0 hs
    have hdue : t.Due t.clock := by
      unfold Due
      rw [hs]
    have ha := h h0 t.clock hdue
    rw [RouteCircuit.allowRequest_probed hs] at ha
    exact of_decide_eq_true ha
  · intro h h0 now hdue
    cases hs : t.circuit.state with
    | closed => rw [RouteCircuit.allowRequest_closed hs]
    | opened openedAt failures =>
      have hd : openedAt + t.circuit.config.timeoutSecs.toNat * nanosPerSec ≤ now := by
        unfold Due at hdue
        rw [hs] at hdue
        exact hdue
      rw [RouteCircuit.allowRequest_opened hs, if_pos (le_elapsedSecs hd)]
    | halfOpen sent =>
      cases sent with
      | false => rw [RouteCircuit.allowRequest_probe hs]
      | true =>
        rw [RouteCircuit.allowRequest_probed hs]
        exact decide_eq_true (h h0 hs)

/-- What the three calls do to the traffic. -/
theorem step_cases (h : t.step e = some t') :
    (e.call = .allowRequest ∧ t'.circuit = (t.circuit.allowRequest (t.clock + e.wait)).2 ∧
      t'.outstanding = t.outstanding +
        if (t.circuit.allowRequest (t.clock + e.wait)).1 then 1 else 0) ∨
    (e.call = .recordSuccess ∧ t'.circuit = t.circuit.recordSuccess ∧
      t.outstanding = t'.outstanding + 1) ∨
    (e.call = .recordFailure ∧ t'.circuit = t.circuit.recordFailure (t.clock + e.wait) ∧
      t.outstanding = t'.outstanding + 1) := by
  unfold step at h
  split at h
  · rename_i hc
    simp only [Option.some.injEq] at h
    subst h
    refine Or.inl ⟨hc, rfl, ?_⟩
    by_cases ha : (t.circuit.allowRequest (t.clock + e.wait)).1 = true
    · simp [ha]
    · simp [ha]
  · rename_i hc
    split at h
    · cases h
    · rename_i n hn
      cases h
      exact Or.inr (Or.inl ⟨hc, rfl, hn⟩)
  · rename_i hc
    split at h
    · cases h
    · rename_i n hn
      cases h
      exact Or.inr (Or.inr ⟨hc, rfl, hn⟩)

theorem step_config (h : t.step e = some t') : t'.circuit.config = t.circuit.config := by
  rcases step_cases h with ⟨_, hc, _⟩ | ⟨_, hc, _⟩ | ⟨_, hc, _⟩
  · rw [hc, RouteCircuit.allowRequest_config]
  · rw [hc, RouteCircuit.recordSuccess_config]
  · rw [hc, RouteCircuit.recordFailure_config]

/-- From a state that admits requests a call leads to one that does exactly where it settles. -/
theorem step_available (ht : t.Available) (h : t.step e = some t') :
    t'.Available ↔ t.Settles e := by
  rw [available_iff] at ht ⊢
  rw [step_config h]
  rcases step_cases h with ⟨he, hc, hn⟩ | ⟨he, hc, hn⟩ | ⟨he, hc, hn⟩
  · constructor
    · intro _ hs
      rw [he] at hs
      cases hs
    · intro _ h0 hs
      rw [hn] at h0
      rw [hc] at hs
      rcases t.circuit.allowRequest_cases (t.clock + e.wait) with hsame | ⟨hyes, _⟩
      · rw [hsame] at hs
        exact ht (by omega) hs
      · rw [hyes, if_pos rfl] at h0
        omega
  · rw [hc, RouteCircuit.recordSuccess_state_eq_halfOpen]
    constructor
    · intro hrate _ hone hs
      by_cases hth : t.circuit.config.successThreshold ≤ t.circuit.metrics.consecutiveSuccesses + 1
      · exact Or.inr hth
      · exact Or.inl (hrate (by omega) ⟨hs, hth⟩)
    · intro hset h0 hs
      rcases hset he (by omega) hs.1 with hrate | hth
      · exact hrate
      · exact absurd hth hs.2
  · constructor
    · intro _ hs
      rw [he] at hs
      cases hs
    · intro _ _ hs
      rw [hc] at hs
      exact absurd hs RouteCircuit.recordFailure_state_ne_halfOpen

theorem step_recordSuccess {wait n : Nat} (h : t.outstanding = n + 1) :
    t.step ⟨wait, .recordSuccess⟩ = some ⟨t.circuit.recordSuccess, t.clock + wait, n⟩ := by
  simp [step, h]

theorem step_recordFailure {wait n : Nat} (h : t.outstanding = n + 1) :
    t.step ⟨wait, .recordFailure⟩ =
      some ⟨t.circuit.recordFailure (t.clock + wait), t.clock + wait, n⟩ := by
  simp [step, h]

section Overflow

variable {config : RouteConfig}

/-- A closed circuit that has let requests out. -/
def flooded (config : RouteConfig) (n : Nat) : Traffic :=
  { start config with outstanding := n }

theorem exec_flood (config : RouteConfig) (n : Nat) :
    exec step (start config) (List.replicate n ⟨0, .allowRequest⟩) = some (flooded config n) := by
  have hrun : ∃ t, exec step (start config) (List.replicate n ⟨0, .allowRequest⟩) = some t ∧
      t = flooded config n := by
    apply exec_replicate (fun k t => t = flooded config k) rfl
    intro k _ t ht
    exact ⟨_, by rw [ht]; rfl, rfl⟩
  obtain ⟨t, ht, rfl⟩ := hrun
  exact ht

/-- The number of failures that opens a closed circuit. -/
def tripsAfter (config : RouteConfig) : Nat := config.failureThreshold.toNat - 1 + 1

structure Failing (config : RouteConfig) (total k : Nat) (t : Traffic) : Prop where
  config : t.circuit.config = config
  closed : t.circuit.state = .closed
  failures : t.circuit.metrics.consecutiveFailures = UInt32.ofNat k
  left : t.outstanding + k = total

structure Opened (config : RouteConfig) (total k : Nat) (t : Traffic) : Prop where
  config : t.circuit.config = config
  opened : ∃ openedAt failures, t.circuit.state = .opened openedAt failures
  successes : t.circuit.metrics.consecutiveSuccesses = UInt32.ofNat k
  left : t.outstanding + k = total

/-- Failures open the circuit however high its threshold is. -/
theorem exec_open (config : RouteConfig) (total : Nat) :
    ∃ t, exec step (flooded config (total + tripsAfter config))
        (List.replicate (tripsAfter config) ⟨0, .recordFailure⟩) = some t ∧
      Opened config total 0 t := by
  have hlt := config.failureThreshold.toNat_lt
  have hsize : UInt32.size = 4294967296 := rfl
  have hrun : ∃ t, exec step (flooded config (total + tripsAfter config))
      (List.replicate (config.failureThreshold.toNat - 1) ⟨0, .recordFailure⟩) = some t ∧
        Failing config (total + tripsAfter config) (config.failureThreshold.toNat - 1) t := by
    apply exec_replicate (Failing config (total + tripsAfter config)) ⟨rfl, rfl, rfl, rfl⟩
    intro k hk t hf
    obtain ⟨m, hm⟩ : ∃ m, t.outstanding = m + 1 := by
      have hl := hf.left
      unfold tripsAfter at hl
      exact ⟨t.outstanding - 1, by omega⟩
    have hshort : ¬ t.circuit.config.failureThreshold ≤
        t.circuit.metrics.consecutiveFailures + 1 := by
      rw [hf.config, hf.failures, ← UInt32.ofNat_one, ← UInt32.ofNat_add, UInt32.le_iff_toNat_le,
        UInt32.toNat_ofNat_of_lt' (by omega)]
      omega
    obtain ⟨hs, hc, _⟩ := RouteCircuit.recordFailure_short (t.clock + 0) hf.closed hshort
    refine ⟨_, step_recordFailure hm, ?_, hs, ?_, ?_⟩
    · exact RouteCircuit.recordFailure_config.trans hf.config
    · rw [hc, hf.failures, ← UInt32.ofNat_one, ← UInt32.ofNat_add]
    · have hl := hf.left
      dsimp only
      omega
  obtain ⟨t, ht, hf⟩ := hrun
  have htrip : t.circuit.config.failureThreshold ≤ t.circuit.metrics.consecutiveFailures + 1 := by
    rw [hf.config, hf.failures, ← UInt32.ofNat_one, ← UInt32.ofNat_add, UInt32.le_iff_toNat_le,
      UInt32.toNat_ofNat_of_lt' (by omega)]
    omega
  have hleft : t.outstanding = total + 1 := by
    have hl := hf.left
    unfold tripsAfter at hl
    omega
  obtain ⟨hs, hc⟩ := RouteCircuit.recordFailure_trips (t.clock + 0) hf.closed htrip
  refine ⟨⟨t.circuit.recordFailure (t.clock + 0), t.clock + 0, total⟩, ?_, ?_, ⟨_, _, hs⟩, hc, rfl⟩
  · apply exec_replicate_succ.trans
    rw [ht]
    exact step_recordFailure hleft
  · exact RouteCircuit.recordFailure_config.trans hf.config

/-- Late successes are counted one by one while the circuit is open. -/
theorem exec_late {n : Nat} (h : Opened config n 0 t) :
    ∃ t', exec step t (List.replicate n ⟨0, .recordSuccess⟩) = some t' ∧
      Opened config n n t' := by
  apply exec_replicate (Opened config n) h
  intro k hk t ho
  obtain ⟨m, hm⟩ : ∃ m, t.outstanding = m + 1 := by
    have hl := ho.left
    exact ⟨t.outstanding - 1, by omega⟩
  obtain ⟨openedAt, failures, hs⟩ := ho.opened
  obtain ⟨hs', hc⟩ := RouteCircuit.recordSuccess_opened hs
  refine ⟨_, step_recordSuccess hm, ?_, ⟨_, _, hs'⟩, ?_, ?_⟩
  · exact RouteCircuit.recordSuccess_config.trans ho.config
  · rw [hc, ho.successes, ← UInt32.ofNat_one, ← UInt32.ofNat_add]
  · have hl := ho.left
    dsimp only
    omega

/-- An open circuit whose count of successes has run up to the last number lets a
probe out and takes its success for none. -/
theorem exec_jam {n : Nat} (h : Opened config n 4294967295 t) (h0 : t.outstanding = 0)
    (hthreshold : config.successThreshold ≠ 0) :
    ∃ events t', exec step t events = some t' ∧ t'.circuit.config = config ∧
      t'.outstanding = 0 ∧ t'.circuit.state = .halfOpen true := by
  obtain ⟨openedAt, failures, hs⟩ := h.opened
  let wait := openedAt + config.timeoutSecs.toNat * nanosPerSec
  have hdue : t.circuit.config.timeoutSecs.toNat ≤ elapsedSecs openedAt (t.clock + wait) := by
    apply le_elapsedSecs
    rw [h.config]
    exact Nat.le_add_left _ _
  let probed : Traffic := ⟨{ t.circuit with state := .halfOpen true }, t.clock + wait, 1⟩
  have hprobe : t.step ⟨wait, .allowRequest⟩ = some probed := by
    simp only [step, RouteCircuit.allowRequest_opened hs, if_pos hdue, h0]
    rfl
  have hshort : ¬ t.circuit.config.successThreshold ≤ t.circuit.metrics.consecutiveSuccesses + 1 := by
    rw [h.config, h.successes, UInt32.le_iff_toNat_le]
    intro hle
    apply hthreshold
    apply UInt32.toNat_inj.mp
    exact Nat.le_zero.mp hle
  have hstuck : probed.circuit.recordSuccess.state = .halfOpen true :=
    RouteCircuit.recordSuccess_state_eq_halfOpen.mpr ⟨rfl, hshort⟩
  refine ⟨[⟨wait, .allowRequest⟩, ⟨0, .recordSuccess⟩],
    ⟨probed.circuit.recordSuccess, probed.clock + 0, 0⟩, ?_, ?_, rfl, hstuck⟩
  · rw [exec_cons, hprobe, Option.bind_some, exec_cons, step_recordSuccess (n := 0) rfl]
    rfl
  · exact RouteCircuit.recordSuccess_config.trans h.config

/-- Whatever the thresholds, the wrapping count of successes can cost a probe its effect. -/
theorem exists_jam (config : RouteConfig) (hthreshold : config.successThreshold ≠ 0) :
    ∃ events t, exec step (start config) events = some t ∧ t.circuit.config = config ∧
      t.outstanding = 0 ∧ t.circuit.state = .halfOpen true := by
  obtain ⟨t, ht, ho⟩ := exec_open config 4294967295
  obtain ⟨u, hu, hl⟩ := exec_late ho
  have h0 : u.outstanding = 0 := by
    have := hl.left
    omega
  obtain ⟨events, v, hv, hj⟩ := exec_jam hl h0 hthreshold
  refine ⟨List.replicate (4294967295 + tripsAfter config) ⟨0, .allowRequest⟩ ++
    (List.replicate (tripsAfter config) ⟨0, .recordFailure⟩ ++
      (List.replicate 4294967295 ⟨0, .recordSuccess⟩ ++ events)), v, ?_, hj⟩
  rw [exec_append, exec_flood, Option.bind_some, exec_append, ht, Option.bind_some, exec_append,
    hu, Option.bind_some, hv]

end Overflow

/-- A run leaves the circuit open to requests throughout exactly where every last
success settles the probe. A configuration guarantees that for all runs in two cases only. -/
theorem available_throughout_iff (config : RouteConfig) :
    (∀ events, Throughout step Available (start config) events ↔
      EachStep step Settles (start config) events) ∧
    ((∀ events, Throughout step Available (start config) events) ↔
      1.0 ≤ config.halfOpenProbeRate ∨ config.successThreshold = 0) := by
  have hstart : (start config).Available := by
    rw [available_iff]
    intro _ hs
    cases hs
  refine ⟨fun events => ?_, ?_, ?_⟩
  · apply throughout_iff_eachStep hstart
    intro t e _ t' ht h
    exact step_available ht h
  · intro h
    by_cases hthreshold : config.successThreshold = 0
    · exact Or.inr hthreshold
    · obtain ⟨events, t, hx, hc, h0, hs⟩ := exists_jam config hthreshold
      have ht := available_iff.mp ((h events).last hx) h0 hs
      rw [hc] at ht
      exact Or.inl ht
  · intro h events
    have hall : Throughout step (fun t => t.Available ∧ t.circuit.config = config)
        (start config) events := by
      apply throughout_of_step ⟨hstart, rfl⟩
      intro t e t' ht hstep
      refine ⟨(step_available ht.1 hstep).mpr ?_, (step_config hstep).trans ht.2⟩
      intro _ _ _
      rw [ht.2]
      rcases h with hrate | hzero
      · exact Or.inl hrate
      · rw [hzero]
        exact Or.inr UInt32.zero_le
    exact hall.imp fun _ ht => ht.1

/-- Five failures open a circuit with the defaults; after the timeout the success of
the one probe neither closes it nor lets another probe out. -/
theorem default_jams : ¬ ∀ (config : RouteConfig) (events : List Event),
    Throughout step Available (start config) events := by
  intro h
  let events : List Event := List.replicate 5 ⟨0, .allowRequest⟩ ++
    List.replicate 5 ⟨0, .recordFailure⟩ ++
    [⟨30000000000, .allowRequest⟩, ⟨0, .recordSuccess⟩]
  have hx : ∃ t, exec step (start (.new "route")) events = some t ∧ t.outstanding = 0 ∧
      t.circuit.state = .halfOpen true ∧ t.circuit.config.halfOpenProbeRate = 0.1 :=
    ⟨_, rfl, rfl, rfl, rfl⟩
  obtain ⟨t, ht, h0, hs, hrate⟩ := hx
  have ha := available_iff.mp ((h _ events).last ht) h0 hs
  rw [hrate] at ha
  exact absurd ha (by decide +kernel)

end Traffic

end HelixRouter.CircuitMesh
