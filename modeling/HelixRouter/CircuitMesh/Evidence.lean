import HelixRouter.CircuitMesh.Recovery

namespace HelixRouter.CircuitMesh

open Runs

inductive Op where
  | isOpen (now : Instant)
  | allowRequest (now : Instant)
  | recordSuccess
  | recordFailure (now : Instant)
  | forceOpen (now : Instant)
  | forceClose

inductive Outcome where
  | success
  | failure
  deriving DecidableEq

def Op.apply (c : RouteCircuit) : Op → RouteCircuit
  | isOpen now => (c.isOpen now).2
  | allowRequest now => (c.allowRequest now).2
  | recordSuccess => c.recordSuccess
  | recordFailure now => c.recordFailure now
  | forceOpen now => c.forceOpen now
  | forceClose => c.forceClose

def Op.recorded : Op → List Outcome
  | recordSuccess => [.success]
  | recordFailure _ => [.failure]
  | _ => []

/-- A circuit with the outcomes recorded so far, the newest first: all of them, and those
since it last turned half open. -/
structure History where
  circuit : RouteCircuit
  outcomes : List Outcome := []
  probing : List Outcome := []
  /-- The success streak that the circuit last turned half open with. -/
  streak : UInt32 := 0

namespace History

def start (config : RouteConfig) : History := { circuit := .new config }

def step (h : History) (op : Op) : Option History :=
  let circuit := op.apply h.circuit
  match h.circuit.state, circuit.state with
  | .opened _ _, .halfOpen _ =>
    some ⟨circuit, h.outcomes, [], circuit.metrics.consecutiveSuccesses⟩
  | _, _ => some ⟨circuit, op.recorded ++ h.outcomes, op.recorded ++ h.probing, h.streak⟩

/-- A success closes a half-open circuit after enough successes since it turned half open, and
no failure; a failure opens a closed one as the last of enough failures in a row. -/
def OnEvidence (h : History) : Op → Prop
  | .recordSuccess => ∀ sent, h.circuit.state = .halfOpen sent →
    h.circuit.recordSuccess.state = .closed →
      h.circuit.config.successThreshold.toNat ≤ h.probing.length + 1 ∧
        ∀ o ∈ h.probing, o = .success
  | .recordFailure now => h.circuit.state = .closed →
    (∃ openedAt failures, (h.circuit.recordFailure now).state = .opened openedAt failures) →
      List.replicate h.circuit.config.failureThreshold.toNat .failure <+: .failure :: h.outcomes
  | _ => True

/-- A success that closes a half-open circuit finds that it turned half open without a streak
of successes, or with one that the next success wraps, or one success is enough. -/
def FreshStreak (h : History) : Op → Prop
  | .recordSuccess => ∀ sent, h.circuit.state = .halfOpen sent →
    h.circuit.config.successThreshold ≤ h.circuit.metrics.consecutiveSuccesses + 1 →
      h.circuit.config.successThreshold ≤ 1 ∨ h.streak = 0 ∨ h.streak = 4294967295
  | _ => True

/-- What the two streaks of a circuit stand for. -/
structure Counted (h : History) : Prop where
  failing : List.replicate h.circuit.metrics.consecutiveFailures.toNat .failure <+: h.outcomes
  probing : ∀ sent, h.circuit.state = .halfOpen sent → (∀ o ∈ h.probing, o = .success) ∧
    h.circuit.metrics.consecutiveSuccesses = h.streak + UInt32.ofNat h.probing.length
  /-- None of the successes since closed the circuit. -/
  short : ∀ sent, h.circuit.state = .halfOpen sent → ∀ n < h.probing.length,
    ¬ h.circuit.config.successThreshold ≤ h.streak + UInt32.ofNat (n + 1)

end History

namespace RouteCircuit

variable {c c' : RouteCircuit} {now : Instant}

/-- A circuit that is asked stays as it is, or was not closed and is half open then. -/
def Polled (c c' : RouteCircuit) : Prop :=
  c' = c ∨ c.state ≠ .closed ∧ ∃ sent, c' = { c with state := .halfOpen sent }

theorem isOpen_polled (c : RouteCircuit) (now : Instant) : c.Polled (c.isOpen now).2 := by
  unfold Polled isOpen
  cases hs : c.state with
  | closed => exact Or.inl rfl
  | halfOpen sent => exact Or.inl rfl
  | opened openedAt failures =>
    dsimp only
    split
    · exact Or.inr ⟨by simp, _, rfl⟩
    · exact Or.inl rfl

theorem allowRequest_polled (c : RouteCircuit) (now : Instant) :
    c.Polled (c.allowRequest now).2 := by
  unfold Polled
  cases hs : c.state with
  | closed =>
    left
    rw [allowRequest_closed hs]
  | opened openedAt failures =>
    rw [allowRequest_opened hs]
    split
    · exact Or.inr ⟨by simp, true, rfl⟩
    · exact Or.inl rfl
  | halfOpen sent =>
    cases sent with
    | false => exact Or.inr ⟨by simp, true, by rw [allowRequest_probe hs]⟩
    | true => exact Or.inl (by rw [allowRequest_probed hs])

theorem recordSuccess_consecutiveFailures (c : RouteCircuit) :
    c.recordSuccess.metrics.consecutiveFailures = 0 := by
  unfold recordSuccess
  split
  · dsimp only
    split <;> rfl
  · rfl

/-- A success that leaves a circuit half open has lengthened the streak. -/
theorem recordSuccess_consecutiveSuccesses {sent : Bool}
    (hs : c.recordSuccess.state = .halfOpen sent) :
    c.recordSuccess.metrics.consecutiveSuccesses = c.metrics.consecutiveSuccesses + 1 := by
  obtain ⟨hc, ht⟩ := recordSuccess_state_eq_halfOpen.mp hs
  simp [recordSuccess, hc, ht]

theorem recordSuccess_closes {sent : Bool} (hs : c.state = .halfOpen sent) :
    c.recordSuccess.state = .closed ↔
      c.config.successThreshold ≤ c.metrics.consecutiveSuccesses + 1 := by
  unfold recordSuccess
  by_cases ht : c.config.successThreshold ≤ c.metrics.consecutiveSuccesses + 1
  · simp [hs, ht]
  · simp [hs, ht]

/-- A failure counts, unless it opens the circuit and the count starts anew. -/
theorem recordFailure_consecutiveFailures (c : RouteCircuit) (now : Instant) :
    (c.recordFailure now).metrics.consecutiveFailures = 0 ∨
      (c.recordFailure now).metrics.consecutiveFailures = c.metrics.consecutiveFailures + 1 := by
  unfold recordFailure
  cases c.state with
  | closed =>
    dsimp only
    split
    · exact Or.inl rfl
    · exact Or.inr rfl
  | opened openedAt failures => exact Or.inr rfl
  | halfOpen sent => exact Or.inl rfl

theorem recordFailure_opens {openedAt : Instant} {failures : UInt32} (hs : c.state = .closed)
    (ho : (c.recordFailure now).state = .opened openedAt failures) :
    c.config.failureThreshold ≤ c.metrics.consecutiveFailures + 1 := by
  by_contra ht
  rw [(recordFailure_short now hs ht).1] at ho
  contradiction

end RouteCircuit

theorem replicate_initial {m n : Nat} {o : Outcome} (h : m ≤ n) :
    List.replicate m o <+: List.replicate n o := by
  apply List.prefix_replicate_iff.mpr
  rw [List.length_replicate]
  exact ⟨h, rfl⟩

namespace History

open RouteCircuit

variable {h h' : History} {c : RouteCircuit} {op : Op}

theorem counted_start (config : RouteConfig) : Counted (start config) :=
  ⟨List.nil_prefix, fun _ hs => (nomatch hs), fun _ hs => (nomatch hs)⟩

/-- A circuit that turns half open starts counting at its streak. -/
theorem Counted.turned (hk : Counted h) (sent : Bool) :
    Counted ⟨{ h.circuit with state := .halfOpen sent }, h.outcomes, [],
      h.circuit.metrics.consecutiveSuccesses⟩ := by
  refine ⟨hk.failing, fun _ _ => ⟨by simp, ?_⟩, fun _ _ n hn => ?_⟩
  · exact (UInt32.add_zero _).symm
  · simp at hn

/-- What changes the state only, and does not turn the circuit half open. -/
theorem Counted.kept (hk : Counted h) (hconfig : c.config = h.circuit.config)
    (hmetrics : c.metrics = h.circuit.metrics)
    (hs : ∀ sent, c.state = .halfOpen sent → ∃ sent', h.circuit.state = .halfOpen sent') :
    Counted { h with circuit := c } := by
  refine ⟨?_, fun sent hc => ?_, fun sent hc => ?_⟩
  · change List.replicate c.metrics.consecutiveFailures.toNat _ <+: _
    rw [hmetrics]
    exact hk.failing
  · obtain ⟨sent', hold⟩ := hs sent hc
    change _ ∧ c.metrics.consecutiveSuccesses = _
    rw [hmetrics]
    exact hk.probing sent' hold
  · obtain ⟨sent', hold⟩ := hs sent hc
    change ∀ n < _, ¬ c.config.successThreshold ≤ _
    rw [hconfig]
    exact hk.short sent' hold

theorem step_turns {openedAt : Instant} {failures : UInt32} {sent : Bool}
    (ho : h.circuit.state = .opened openedAt failures)
    (ht : (op.apply h.circuit).state = .halfOpen sent) :
    h.step op = some ⟨op.apply h.circuit, h.outcomes, [],
      (op.apply h.circuit).metrics.consecutiveSuccesses⟩ := by
  simp only [step, ho, ht]

theorem step_stays (hs : h.circuit.state = .closed ∨ (∃ sent, h.circuit.state = .halfOpen sent) ∨
    ∀ sent, (op.apply h.circuit).state ≠ .halfOpen sent) :
    h.step op = some ⟨op.apply h.circuit, op.recorded ++ h.outcomes, op.recorded ++ h.probing,
      h.streak⟩ := by
  rcases hs with hc | ⟨sent, hc⟩ | hout
  · simp only [step, hc]
  · simp only [step, hc]
  · unfold step
    dsimp only
    split
    · rename_i hsent
      exact absurd hsent (hout _)
    · rfl

theorem Counted.polled (hk : Counted h) (hp : h.circuit.Polled (op.apply h.circuit))
    (hrec : op.recorded = []) (hs : h.step op = some h') : Counted h' := by
  cases hc : h.circuit.state with
  | closed =>
    rw [step_stays (.inl hc), hrec] at hs
    cases hs
    rcases hp with hsame | ⟨hopen, _⟩
    · rw [hsame]
      exact hk
    · exact absurd hc hopen
  | halfOpen sent =>
    rw [step_stays (.inr (.inl ⟨sent, hc⟩)), hrec] at hs
    cases hs
    rcases hp with hsame | ⟨_, sent', hturned⟩
    · rw [hsame]
      exact hk
    · rw [hturned]
      exact hk.kept rfl rfl fun _ _ => ⟨sent, hc⟩
  | opened openedAt failures =>
    rcases hp with hsame | ⟨_, sent, hturned⟩
    · have hout : ∀ sent, (op.apply h.circuit).state ≠ .halfOpen sent := by
        intro sent
        rw [hsame, hc]
        simp
      rw [step_stays (.inr (.inr hout)), hrec, hsame] at hs
      cases hs
      exact hk
    · rw [step_turns hc (by rw [hturned]), hturned] at hs
      cases hs
      exact hk.turned sent

/-- An outcome does not turn an open circuit half open. -/
theorem step_recordSuccess : h.step .recordSuccess = some ⟨h.circuit.recordSuccess,
    .success :: h.outcomes, .success :: h.probing, h.streak⟩ := by
  apply step_stays
  cases hc : h.circuit.state with
  | closed => exact Or.inl rfl
  | halfOpen sent => exact Or.inr (Or.inl ⟨sent, rfl⟩)
  | opened openedAt failures =>
    right; right
    intro sent hs
    have hold := (recordSuccess_state_eq_halfOpen.mp hs).1
    rw [hc] at hold
    contradiction

theorem step_recordFailure (now : Instant) : h.step (.recordFailure now) =
    some ⟨h.circuit.recordFailure now, .failure :: h.outcomes, .failure :: h.probing, h.streak⟩ :=
  step_stays (.inr (.inr fun _ => recordFailure_state_ne_halfOpen))

theorem Counted.success (hk : Counted h) : Counted ⟨h.circuit.recordSuccess,
    .success :: h.outcomes, .success :: h.probing, h.streak⟩ := by
  refine ⟨?_, fun sent hs => ?_, fun sent hs n hn => ?_⟩
  · change List.replicate h.circuit.recordSuccess.metrics.consecutiveFailures.toNat _ <+: _
    rw [recordSuccess_consecutiveFailures]
    exact List.nil_prefix
  · obtain ⟨hsuccess, hstreak⟩ := hk.probing sent (recordSuccess_state_eq_halfOpen.mp hs).1
    refine ⟨List.forall_mem_cons.mpr ⟨rfl, hsuccess⟩, ?_⟩
    change h.circuit.recordSuccess.metrics.consecutiveSuccesses = _
    rw [recordSuccess_consecutiveSuccesses hs, hstreak, List.length_cons, UInt32.add_assoc,
      UInt32.ofNat_add]
    rfl
  · obtain ⟨hold, hshort⟩ := recordSuccess_state_eq_halfOpen.mp hs
    change ¬ h.circuit.recordSuccess.config.successThreshold ≤ _
    rw [recordSuccess_config]
    rcases Nat.lt_succ_iff_lt_or_eq.mp hn with hn | rfl
    · exact hk.short sent hold n hn
    · rw [(hk.probing sent hold).2] at hshort
      rw [UInt32.ofNat_add, ← UInt32.add_assoc]
      exact hshort

/-- As many failures as a wrapping count says are the last outcomes. -/
theorem Counted.failures (hk : Counted h) :
    List.replicate (h.circuit.metrics.consecutiveFailures + 1).toNat .failure <+:
      .failure :: h.outcomes := by
  have hle : (h.circuit.metrics.consecutiveFailures + 1).toNat ≤
      h.circuit.metrics.consecutiveFailures.toNat + 1 := by
    rw [UInt32.toNat_add]
    exact Nat.mod_le _ _
  have hall : List.replicate (h.circuit.metrics.consecutiveFailures.toNat + 1) .failure <+:
      .failure :: h.outcomes := by
    rw [List.replicate_succ]
    exact List.cons_prefix_cons.mpr ⟨rfl, hk.failing⟩
  exact (replicate_initial hle).trans hall

theorem Counted.failure (hk : Counted h) (now : Instant) :
    Counted ⟨h.circuit.recordFailure now, .failure :: h.outcomes, .failure :: h.probing,
      h.streak⟩ := by
  refine ⟨?_, fun sent hs => ?_, fun sent hs => ?_⟩
  · change List.replicate (h.circuit.recordFailure now).metrics.consecutiveFailures.toNat _ <+: _
    rcases h.circuit.recordFailure_consecutiveFailures now with hzero | hmore
    · rw [hzero]
      exact List.nil_prefix
    · rw [hmore]
      exact hk.failures
  · exact absurd hs recordFailure_state_ne_halfOpen
  · exact absurd hs recordFailure_state_ne_halfOpen

theorem Counted.step (hk : Counted h) (hs : h.step op = some h') : Counted h' := by
  cases op with
  | isOpen now =>
    have hp : h.circuit.Polled (Op.apply h.circuit (.isOpen now)) := h.circuit.isOpen_polled now
    exact hk.polled hp rfl hs
  | allowRequest now =>
    have hp : h.circuit.Polled (Op.apply h.circuit (.allowRequest now)) :=
      h.circuit.allowRequest_polled now
    exact hk.polled hp rfl hs
  | recordSuccess =>
    rw [step_recordSuccess] at hs
    cases hs
    exact hk.success
  | recordFailure now =>
    rw [step_recordFailure] at hs
    cases hs
    exact hk.failure now
  | forceOpen now =>
    have hout : ∀ sent, (Op.apply h.circuit (.forceOpen now)).state ≠ .halfOpen sent := by
      simp [Op.apply, forceOpen]
    rw [step_stays (.inr (.inr hout))] at hs
    cases hs
    exact hk.kept rfl rfl fun sent hsent => absurd hsent (hout sent)
  | forceClose =>
    have hout : ∀ sent, (Op.apply h.circuit .forceClose).state ≠ .halfOpen sent := by
      simp [Op.apply, forceClose]
    rw [step_stays (.inr (.inr hout))] at hs
    cases hs
    exact ⟨List.nil_prefix, fun sent hsent => absurd hsent (hout sent),
      fun sent hsent => absurd hsent (hout sent)⟩

/-- How many successes it takes to bring a wrapping streak to a threshold. -/
theorem enough_iff {threshold streak : UInt32} {n : Nat}
    (hclose : threshold ≤ streak + UInt32.ofNat (n + 1))
    (hshort : ∀ k < n, ¬ threshold ≤ streak + UInt32.ofNat (k + 1)) :
    threshold.toNat ≤ n + 1 ↔ threshold ≤ 1 ∨ streak = 0 ∨ streak = 4294967295 := by
  have hsum : ∀ k, (streak + UInt32.ofNat (k + 1)).toNat = (streak.toNat + (k + 1)) % 2 ^ 32 := by
    intro k
    rw [UInt32.toNat_add, UInt32.toNat_ofNat', Nat.add_mod_mod]
  simp only [UInt32.le_iff_toNat_le, hsum, ← UInt32.toNat_inj, UInt32.toNat_one,
    UInt32.toNat_zero, UInt32.reduceToNat] at *
  have ht := threshold.toNat_lt
  have hs := streak.toNat_lt
  constructor
  · intro hle
    by_contra hstale
    -- The success that brings the streak to the threshold, or the first one if it is there.
    have hfirst := hshort (threshold.toNat - streak.toNat - 1) (by omega)
    omega
  · rintro (h1 | h0 | hmax)
    · omega
    · rw [h0] at hclose
      have := Nat.mod_le (0 + (n + 1)) (2 ^ 32)
      omega
    · omega

theorem Counted.onEvidence_iff (hk : Counted h) : h.OnEvidence op ↔ h.FreshStreak op := by
  cases op with
  | recordSuccess =>
    refine forall_congr' fun sent => forall_congr' fun hs => ?_
    rw [recordSuccess_closes hs]
    refine forall_congr' fun hclose => ?_
    obtain ⟨hsuccess, hstreak⟩ := hk.probing sent hs
    rw [hstreak, UInt32.add_assoc] at hclose
    have henough := enough_iff (by simpa [UInt32.ofNat_add] using hclose) (hk.short sent hs)
    rw [← henough]
    exact and_iff_left hsuccess
  | recordFailure now =>
    refine iff_of_true (fun hs ho => ?_) trivial
    obtain ⟨openedAt, failures, ho⟩ := ho
    have hle := UInt32.le_iff_toNat_le.mp (recordFailure_opens hs ho)
    exact (replicate_initial hle).trans hk.failures
  | _ => exact Iff.rfl

end History

open History

/-- A circuit that is tripped by failures opens on evidence always, and one that is half open
closes on evidence in just the runs in which it turned half open without a streak of
successes whenever a success closes it. -/
theorem closes_on_evidence_iff (config : RouteConfig) (ops : List Op) :
    EachStep step OnEvidence (start config) ops ↔ EachStep step FreshStreak (start config) ops :=
  eachStep_iff_of_invariant (counted_start config) fun _ _ _ hk hs =>
    ⟨hk.onEvidence_iff, fun _ => hk.step hs⟩

/-- A success that comes late counts towards closing: one probe is enough where two are asked. -/
theorem closes_on_stale_streak : ¬ EachStep step OnEvidence (start (.new "route"))
    [.recordSuccess, .forceOpen 0, .allowRequest 30000000000, .recordSuccess] := by
  intro hev
  have hlast := ((((hev _ rfl).2 _ rfl).2 _ rfl).2 _ rfl).1
  have henough := (hlast true rfl rfl).1
  exact absurd henough (by decide)

end HelixRouter.CircuitMesh
