import HelixRouter.Floats.F64
import HelixRouter.Interleaving.Moments
import HelixRouter.Runs.Stepwise

namespace HelixRouter.CanaryDeploys

open Floats Interleaving Runs

inductive CanaryStage where
  | inactive
  | running (trafficPct : F64)
  | paused
  | rollingBack
  | complete
  | failed (reason : String)
  deriving DecidableEq

inductive Counter where
  | successCount
  | errorCount
  | latencySumMs
  | latencyCount
  deriving DecidableEq

abbrev CanaryMetrics := Counter → UInt64

structure CanaryConfig where
  initialTrafficPct : F64
  stepPct : F64
  stepIntervalSecs : UInt64
  maxErrorRate : F64
  maxP99LatencyMs : F64
  autoPromote : Bool

inductive Backend where
  | baseline
  | canary
  deriving DecidableEq

structure CanaryDeployment where
  stage : CanaryStage
  metrics : Backend → CanaryMetrics := fun _ _ => 0
  lastStepAt : Instant

/-- The deployments of a manager, by their ids. -/
abbrev Deployments := String → CanaryDeployment

def create (config : String → CanaryConfig) (createdAt : String → Instant) : Deployments :=
  fun id => { stage := .running (config id).initialTrafficPct, lastStepAt := createdAt id }

namespace Deployments

def stage (s : Deployments) (id : String) : CanaryStage := (s id).stage

def setStage (s : Deployments) (id : String) (stage : CanaryStage) : Deployments :=
  Function.update s id { s id with stage := stage }

def setLastStepAt (s : Deployments) (id : String) (now : Instant) : Deployments :=
  Function.update s id { s id with lastStepAt := now }

def fetchAdd (s : Deployments) (id : String) (backend : Backend) (c : Counter) (n : UInt64) :
    Deployments :=
  let metrics := (s id).metrics backend
  Function.update s id
    { s id with
      metrics := Function.update (s id).metrics backend
        (Function.update metrics c (metrics c + n)) }

def advanceStage (s : Deployments) (config : CanaryConfig) (id : String) :
    Except String F64 × Deployments :=
  match s.stage id with
  | .running trafficPct =>
    let next := (trafficPct.add config.stepPct).min (.finite 100)
    (.ok next, s.setStage id (.running next))
  | _ => (.error "deployment is not in Running stage", s)

end Deployments

/-- What is done in one go: an access to a counter, or all that is done under one lock. -/
inductive Op where
  | readStage (id : String)
  | stepDue (id : String)
  | load (id : String) (c : Counter)
  | fetchAdd (id : String) (backend : Backend) (c : Counter) (n : UInt64)
  | advanceStage (id : String)
  | stepped (id : String)
  | fail (id reason : String)
  | rollback (id : String)
  | promote (id : String)
  deriving DecidableEq

abbrev Op.Resp : Op → Type
  | .readStage _ => CanaryStage
  | .stepDue _ => Bool
  | .load _ _ => UInt64
  | .advanceStage _ => Except String F64
  | _ => Unit

inductive Call where
  | tickAll (ids : List String)
  | rollback (id : String)
  | promote (id : String)
  | advance (id : String)
  | recordResult (id backend : String) (success : Bool) (latencyMs : UInt64)
  | routeRequest (id : String) (seed : UInt64)
  deriving DecidableEq

inductive Answer where
  | done
  | advanced (newPct : Except String F64)
  | routed (backend : String)

section Methods

variable (config : String → CanaryConfig)

def Op.exec : (e : Op) → Instant → Deployments → Option (e.Resp × Deployments × List Call)
  | .readStage id, _, s => some (s.stage id, s, [])
  | .stepDue id, now, s =>
    some (decide ((config id).stepIntervalSecs.toNat ≤ elapsedSecs (s id).lastStepAt now), s, [])
  | .load id c, _, s => some ((s id).metrics .canary c, s, [])
  | .fetchAdd id backend c n, _, s => some ((), s.fetchAdd id backend c n, [])
  | .advanceStage id, _, s =>
    let (newPct, s) := s.advanceStage (config id) id
    some (newPct, s, [])
  | .stepped id, now, s => some ((), s.setLastStepAt id now, [])
  | .fail id reason, _, s => some ((), s.setStage id (.failed reason), [])
  | .rollback id, _, s => some ((), s.setStage id .rollingBack, [])
  | .promote id, _, s => some ((), s.setStage id .complete, [])

abbrev DeployerM := Prog Op Op.Resp

abbrev Op.perform (e : Op) : DeployerM e.Resp := Prog.perform e

def totalRequests (id : String) : DeployerM UInt64 := do
  let successCount ← (Op.load id .successCount).perform
  let errorCount ← (Op.load id .errorCount).perform
  return successCount + errorCount

def errorRate (id : String) : DeployerM F64 := do
  let total ← totalRequests id
  if total = 0 then return .finite 0
  else
    let errorCount ← (Op.load id .errorCount).perform
    return (F64.ofU64 errorCount).div (.ofU64 total)

def avgLatencyMs (id : String) : DeployerM F64 := do
  let count ← (Op.load id .latencyCount).perform
  if count = 0 then return .finite 0
  else
    let latencySumMs ← (Op.load id .latencySumMs).perform
    return (F64.ofU64 latencySumMs).div (.ofU64 count)

def percent (rate : F64) : String := (rate.mul (.finite 100)).toFixed 2

def checkHealth (id : String) : DeployerM (Except String Unit) := do
  let errRate ← errorRate id
  if (config id).maxErrorRate.lt errRate then
    return .error ("canary error rate " ++ percent errRate ++ "% exceeds max " ++
      percent (config id).maxErrorRate ++ "%")
  else
    let latency ← avgLatencyMs id
    if (config id).maxP99LatencyMs.lt latency then
      return .error ("canary avg latency " ++ latency.toFixed 1 ++ "ms exceeds max " ++
        (config id).maxP99LatencyMs.toFixed 1 ++ "ms")
    else return .ok ()

def advance (id : String) : DeployerM (Except String F64) := do
  match ← (Op.advanceStage id).perform with
  | .error reason => return .error reason
  | .ok newPct =>
    (Op.stepped id).perform
    return .ok newPct

def CanaryStage.isRunning : CanaryStage → Bool
  | running _ => true
  | _ => false

/-- What a tick does about one deployment. -/
def tick (id : String) : DeployerM Unit := do
  let stage ← (Op.readStage id).perform
  if !stage.isRunning then return ()
  else
    let due ← (Op.stepDue id).perform
    if !due then return ()
    else
      match ← checkHealth config id with
      | .error reason => (Op.fail id reason).perform
      | .ok () =>
        match ← advance id with
        | .error _ => return ()
        | .ok newPct =>
          if (F64.finite 100).le newPct && (config id).autoPromote then (Op.promote id).perform
          else return ()

/-- The deployments are visited in the order of the map, whichever that is. -/
def tickAll : List String → DeployerM Unit
  | [] => return ()
  | id :: ids => do
    tick config id
    tickAll ids

def recordResult (id backend : String) (success : Bool) (latencyMs : UInt64) : DeployerM Unit := do
  let backend := if backend = "canary" then Backend.canary else .baseline
  (Op.fetchAdd id backend (if success then .successCount else .errorCount) 1).perform
  (Op.fetchAdd id backend .latencySumMs latencyMs).perform
  (Op.fetchAdd id backend .latencyCount 1).perform

def routeRequest (id : String) (seed : UInt64) : DeployerM String := do
  let stage ← (Op.readStage id).perform
  let pct := match stage with
    | .running trafficPct => trafficPct
    | _ => .finite 0
  let mixed := seed * 6364136223846793005 + 1442695040888963407
  let bucket := mixed % 100
  return if (F64.ofU64 bucket).lt pct then "canary" else "baseline"

def Call.body : Call → DeployerM Answer
  | tickAll ids => do
    CanaryDeploys.tickAll config ids
    return .done
  | rollback id => do
    (Op.rollback id).perform
    return .done
  | promote id => do
    (Op.promote id).perform
    return .done
  | advance id => do
    let newPct ← CanaryDeploys.advance id
    return .advanced newPct
  | recordResult id backend success latencyMs => do
    CanaryDeploys.recordResult id backend success latencyMs
    return .done
  | routeRequest id seed => do
    let backend ← CanaryDeploys.routeRequest id seed
    return .routed backend

/-- Any number of calls at once, each of which may read the clock at every step. -/
def machine : Machine Op Op.Resp Deployments Instant Call Answer where
  exec := Op.exec config
  body := Call.body config
  external _ := true

end Methods

abbrev DeployerTask := Task Op Op.Resp Call Answer

abbrev DeployerPool := Pool Op Op.Resp Deployments Call Answer

abbrev DeployerAction := Action Instant Call

def startPool (config : String → CanaryConfig) (createdAt : String → Instant) : DeployerPool :=
  ⟨create config createdAt, []⟩

end HelixRouter.CanaryDeploys
