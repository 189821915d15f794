import HelixRouter.Router.Numbers

namespace HelixRouter.CircuitRegistry

inductive CircuitState where
  | closed (failureCount : UInt32)
  | opened (openedAt : UInt64)
  | halfOpen (testCount : UInt32)
  deriving DecidableEq

structure CircuitConfig where
  failureThreshold : UInt32 := 5
  successThreshold : UInt32 := 2
  timeoutMs : UInt64 := 30000
  halfOpenMaxCalls : UInt32 := 3

structure CircuitBreaker where
  config : CircuitConfig
  state : CircuitState := .closed 0
  halfOpenSuccesses : UInt32 := 0

namespace CircuitBreaker

def new (config : CircuitConfig) : CircuitBreaker := { config := config }

/-- Returns the state of the breaker it leaves. -/
def recordSuccess (b : CircuitBreaker) (_now : UInt64) : CircuitBreaker :=
  match b.state with
  | .closed _ => { b with state := .closed 0 }
  | .halfOpen testCount =>
    let successes := b.halfOpenSuccesses + 1
    if b.config.successThreshold ≤ successes then
      { b with halfOpenSuccesses := 0, state := .closed 0 }
    else { b with halfOpenSuccesses := successes, state := .halfOpen testCount }
  | .opened _ => b

/-- Returns the state of the breaker it leaves. -/
def recordFailure (b : CircuitBreaker) (now : UInt64) : CircuitBreaker :=
  match b.state with
  | .closed failureCount =>
    let failures := failureCount + 1
    if b.config.failureThreshold ≤ failures then { b with state := .opened now }
    else { b with state := .closed failures }
  | .halfOpen _ => { b with halfOpenSuccesses := 0, state := .opened now }
  | .opened openedAt => { b with state := .opened openedAt }

def canPass (b : CircuitBreaker) (now : UInt64) : Bool × CircuitBreaker :=
  match b.state with
  | .closed _ => (true, b)
  | .opened openedAt =>
    if saturatingAdd openedAt b.config.timeoutMs ≤ now then
      -- this call is the first probe
      (true, { b with halfOpenSuccesses := 0, state := .halfOpen 1 })
    else (false, b)
  | .halfOpen testCount =>
    if testCount < b.config.halfOpenMaxCalls then
      (true, { b with state := .halfOpen (testCount + 1) })
    else (false, b)

variable {b : CircuitBreaker} {now openedAt : UInt64} {failures tests : UInt32}

theorem recordSuccess_config : (b.recordSuccess now).config = b.config := by
  unfold recordSuccess
  split
  · rfl
  · dsimp only
    split <;> rfl
  · rfl

theorem recordFailure_config : (b.recordFailure now).config = b.config := by
  unfold recordFailure
  split
  · dsimp only
    split <;> rfl
  · rfl
  · rfl

theorem canPass_config : (b.canPass now).2.config = b.config := by
  unfold canPass
  split
  · rfl
  · split <;> rfl
  · split <;> rfl

theorem canPass_closed (hs : b.state = .closed failures) : b.canPass now = (true, b) := by
  rw [canPass, hs]

theorem canPass_opened (hs : b.state = .opened openedAt) : b.canPass now =
    if saturatingAdd openedAt b.config.timeoutMs ≤ now then
      (true, { b with halfOpenSuccesses := 0, state := .halfOpen 1 })
    else (false, b) := by
  rw [canPass, hs]

theorem canPass_halfOpen (hs : b.state = .halfOpen tests) : b.canPass now =
    if tests < b.config.halfOpenMaxCalls then (true, { b with state := .halfOpen (tests + 1) })
    else (false, b) := by
  rw [canPass, hs]

theorem recordSuccess_closed (hs : b.state = .closed failures) :
    b.recordSuccess now = { b with state := .closed 0 } := by
  rw [recordSuccess, hs]

theorem recordSuccess_opened (hs : b.state = .opened openedAt) : b.recordSuccess now = b := by
  rw [recordSuccess, hs]

theorem recordSuccess_halfOpen (hs : b.state = .halfOpen tests) : b.recordSuccess now =
    if b.config.successThreshold ≤ b.halfOpenSuccesses + 1 then
      { b with halfOpenSuccesses := 0, state := .closed 0 }
    else { b with halfOpenSuccesses := b.halfOpenSuccesses + 1, state := .halfOpen tests } := by
  rw [recordSuccess, hs]

theorem recordFailure_closed (hs : b.state = .closed failures) : b.recordFailure now =
    if b.config.failureThreshold ≤ failures + 1 then { b with state := .opened now }
    else { b with state := .closed (failures + 1) } := by
  rw [recordFailure, hs]

theorem recordFailure_halfOpen (hs : b.state = .halfOpen tests) :
    b.recordFailure now = { b with halfOpenSuccesses := 0, state := .opened now } := by
  rw [recordFailure, hs]

theorem recordFailure_opened (hs : b.state = .opened openedAt) :
    b.recordFailure now = { b with state := .opened openedAt } := by
  rw [recordFailure, hs]

/-- A failure never leaves a breaker half open. -/
theorem recordFailure_state (tests : UInt32) : (b.recordFailure now).state ≠ .halfOpen tests := by
  cases hs : b.state with
  | closed failures =>
    rw [recordFailure_closed hs]
    split <;> simp
  | opened openedAt =>
    rw [recordFailure_opened hs]
    simp
  | halfOpen tests =>
    rw [recordFailure_halfOpen hs]
    simp

end CircuitBreaker

end HelixRouter.CircuitRegistry
