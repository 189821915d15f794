import HelixRouter.Floats.F64
import HelixRouter.Interleaving.Moments
import HelixRouter.Interleaving.Prog

namespace HelixRouter.CanaryControl

open Floats Interleaving

structure CanaryConfig where
  canaryWeight : F64 := .ofRat (10 / 100)
  minRequestsBeforePromote : UInt64 := 100
  errorRateThreshold : F64 := .ofRat (5 / 100)

inductive CanaryRoute where
  | stable
  | canary
  deriving DecidableEq

inductive CanaryDecision where
  | promote
  | rollback
  | continue_
  deriving DecidableEq

inductive CanaryState where
  | inactive
  | active (requestsSent errors : UInt64)
  | promoted
  | rolledBack
  deriving DecidableEq

def CanaryState.isActive : CanaryState → Bool
  | active _ _ => true
  | _ => false

/-- What a decision makes of whatever state it is applied to. -/
def CanaryDecision.outcome : CanaryDecision → CanaryState → CanaryState
  | promote, _ => .promoted
  | rollback, _ => .rolledBack
  | continue_, s => s

structure StableStats where
  requests : UInt64 := 0
  errors : UInt64 := 0

structure CanaryMetrics where
  totalRequests : UInt64
  canaryRequests : UInt64
  canaryErrorRate : F64
  stableErrorRate : F64

/-- The error rate, which is zero where nothing was requested. -/
def errorRate (requests errors : UInt64) : F64 :=
  if requests = 0 then .finite 0 else (F64.ofU64 errors).div (.ofU64 requests)

def CanaryState.evaluate (config : CanaryConfig) : CanaryState → CanaryDecision
  | active requestsSent errors =>
    if requestsSent < config.minRequestsBeforePromote then .continue_
    else if config.errorRateThreshold.lt (errorRate requestsSent errors) then .rollback
    else .promote
  | _ => .continue_

structure Inner where
  state : CanaryState := .inactive
  stableStats : StableStats := {}
  total : UInt64 := 0

namespace Inner

def activate (g : Inner) : Inner :=
  if g.state = .inactive then { g with state := .active 0 0 } else g

def route (config : CanaryConfig) (requestId : UInt64) (g : Inner) : CanaryRoute :=
  if !g.state.isActive then .stable
  else
    let threshold :=
      ((config.canaryWeight.clamp (.finite 0) (.finite 1)).mul (.finite 1000)).toU64
    if requestId % 1000 < threshold then .canary else .stable

def recordResult (route : CanaryRoute) (success : Bool) (g : Inner) : Inner :=
  let g := { g with total := g.total + 1 }
  let failed : UInt64 := if success then 0 else 1
  match route with
  | .stable =>
    { g with stableStats := ⟨g.stableStats.requests + 1, g.stableStats.errors + failed⟩ }
  | .canary =>
    match g.state with
    | .active requestsSent errors =>
      { g with state := .active (requestsSent + 1) (errors + failed) }
    | _ => g

def metrics (g : Inner) : CanaryMetrics :=
  let (canaryRequests, canaryErrors) := match g.state with
    | .active requestsSent errors => (requestsSent, errors)
    | _ => (0, 0)
  { totalRequests := g.total
    canaryRequests := canaryRequests
    canaryErrorRate := errorRate canaryRequests canaryErrors
    stableErrorRate := errorRate g.stableStats.requests g.stableStats.errors }

end Inner

/-- What is done under the lock in one go. -/
inductive Op where
  | read
  | activate
  | recordResult (route : CanaryRoute) (success : Bool)
  | apply (decision : CanaryDecision)
  deriving DecidableEq

abbrev Op.Resp : Op → Type
  | .read => Inner
  | _ => Unit

inductive Call where
  | activate
  | route (requestId : UInt64)
  | recordResult (route : CanaryRoute) (success : Bool)
  | evaluate
  | autoAdvance
  | metrics
  deriving DecidableEq

inductive Answer where
  | done
  | routed (route : CanaryRoute)
  | evaluated (decision : CanaryDecision)
  | advanced (decision : Option CanaryDecision)
  | measured (metrics : CanaryMetrics)

def Op.exec : (e : Op) → Unit → Inner → Option (e.Resp × Inner × List Call)
  | .read, _, g => some (g, g, [])
  | .activate, _, g => some ((), g.activate, [])
  | .recordResult route success, _, g => some ((), g.recordResult route success, [])
  | .apply decision, _, g => some ((), { g with state := decision.outcome g.state }, [])

abbrev ControllerM := Prog Op Op.Resp

abbrev Op.perform (e : Op) : ControllerM e.Resp := Prog.perform e

section Methods

variable (config : CanaryConfig)

def evaluate : ControllerM CanaryDecision := do
  let g ← Op.read.perform
  return g.state.evaluate config

/-- The decision is applied under a lock of its own. -/
def autoAdvance : ControllerM (Option CanaryDecision) := do
  let decision ← evaluate config
  match decision with
  | .promote =>
    (Op.apply .promote).perform
    return some .promote
  | .rollback =>
    (Op.apply .rollback).perform
    return some .rollback
  | .continue_ => return none

def Call.body : Call → ControllerM Answer
  | activate => do
    Op.activate.perform
    return .done
  | route requestId => do
    let g ← Op.read.perform
    return .routed (g.route config requestId)
  | recordResult cohort success => do
    (Op.recordResult cohort success).perform
    return .done
  | evaluate => do
    let decision ← CanaryControl.evaluate config
    return .evaluated decision
  | autoAdvance => do
    let decision ← CanaryControl.autoAdvance config
    return .advanced decision
  | metrics => do
    let g ← Op.read.perform
    return .measured g.metrics

/-- Any number of calls at once, on whichever clone. -/
def machine : Machine Op Op.Resp Inner Unit Call Answer where
  exec := Op.exec
  body := Call.body config
  external _ := true

end Methods

abbrev ControllerTask := Task Op Op.Resp Call Answer

abbrev ControllerPool := Pool Op Op.Resp Inner Call Answer

abbrev ControllerAction := Action Unit Call

def startPool : ControllerPool := ⟨{}, []⟩

end HelixRouter.CanaryControl
